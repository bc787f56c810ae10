import Mathlib.Data.List.TakeWhile
import Etherfold.Ledger.Redelivery
import Etherfold.Engine.Delivery

/-!
# A batch that arrives again

A sender that has lost an answer sends its batch again. The cursor moved when the batch was
accepted, so the copy is refused with the place to resume from, or it starts there and says nothing new.

* `OneView`: a payload of one block at each height, as one view of a chain has it.
* `receive_again`: **the copy of an accepted batch** leaves the cursor and appends nothing.
* `StreamBuilder.CopyOf`: what comes of a copy that follows its batch.
* `delivered_once`: **however often each batch arrives in a row**, the receiver ends as if once.
-/

namespace Etherfold

variable {K H D : Type} [DecidableEq K] [DecidableEq H]

/-- The logs of a height are of one block. -/
def OneView (logs : List (LogEvent H D)) : Prop :=
  ∀ e ∈ logs, ∀ e' ∈ logs, e.blockNumber = e'.blockNumber → e.blockHash = e'.blockHash

instance (logs : List (LogEvent H D)) : Decidable (OneView logs) :=
  inferInstanceAs (Decidable (∀ e ∈ logs, _))

variable {sb : StreamBuilder K} {c : LastSync H D} {batch : WireBatch K H D} {r : Appended H D}

/-! ### The payload -/

omit [DecidableEq K] in
/-- The group of a payload's block is what the payload carries at its height. -/
theorem newHashAt_group {logs : List (LogEvent H D)} (hview : OneView logs) (hlive : ∀ e ∈ logs, e.removed = false)
    {b : EventBlock H D} (hb : b ∈ groupLogsPerBlock logs) : newHashAt (groupLogsPerBlock logs) b.number = some b.hash := by
  have hgroup := groupLogsPerBlock_grouped logs hlive
  unfold newHashAt
  cases hfind : (groupLogsPerBlock logs).reverse.find? (·.number = b.number) with
  | none =>
    rw [List.find?_eq_none] at hfind
    exact absurd (decide_eq_true rfl) (hfind b (List.mem_reverse.2 hb))
  | some b' =>
    have hnumber : b'.number = b.number := by simpa using List.find?_some hfind
    have hb' := List.mem_reverse.1 (List.mem_of_find?_eq_some hfind)
    obtain ⟨e, he, hen⟩ := hgroup.number b hb
    obtain ⟨e', he', hen'⟩ := hgroup.number b' hb'
    obtain ⟨hhash, hmem⟩ := hgroup.events b hb e he
    obtain ⟨hhash', hmem'⟩ := hgroup.events b' hb' e' he'
    have hsame := hview e' hmem' e hmem (by rw [hen', hen, hnumber])
    rw [Option.map_some, ← hhash, ← hhash', hsame]

omit [DecidableEq K] in
/-- The groups of a batch lie in its range. -/
theorem WireBatch.WellFormed.group (hwf : batch.WellFormed) {b : EventBlock H D} (hb : b ∈ groupLogsPerBlock batch.logs) :
    b.events ≠ [] ∧ batch.fromBlock ≤ b.number ∧ b.number ≤ batch.toBlock := by
  have hgroup := groupLogsPerBlock_grouped batch.logs hwf.live
  obtain ⟨e, he, hen⟩ := hgroup.number b hb
  have hrange := hwf.inRange e (hgroup.events b hb e he).2
  exact ⟨List.ne_nil_of_mem he, by omega⟩

/-! ### The copy -/

/-- Against another cursor only the place to start decides. -/
theorem receive_other (h : sb.receive c batch = .ok r) (c' : LastSync H D) : sb.receive c' batch =
    (generateStreamToAppend c' sb.defaultFromBlock batch.logs (sb.newSync batch)).mapError .unexpectedFromBlock := by
  unfold StreamBuilder.receive at h ⊢
  split at h
  · cases h
  rename_i hcontext
  rw [if_neg hcontext]
  split at h
  · cases h
  unfold StreamBuilder.newSync
  cases generateStreamToAppend c' sb.defaultFromBlock batch.logs
    ⟨batch.latestBlock, batch.fromBlock, batch.toBlock, sb.finality⟩ <;> rfl

/-- A refusal over the place to start names where the cursor resumes. -/
theorem receive_unexpected {error : UnexpectedFromBlockError} (h : sb.receive c batch = .error (.unexpectedFromBlock error)) :
    error.expected = getFromBlock c sb.defaultFromBlock sb.finality := by
  unfold StreamBuilder.receive generateStreamToAppend at h
  dsimp only at h
  split at h
  · cases h
  split at h
  · cases h
  split at h
  · rename_i hgen
    cases h
    split at hgen
    · cases hgen
      rfl
    · cases hgen
  · cases h

/-- **A window a payload has nothing to say to**: it contradicts no block of it and carries none that is not listed. -/
structure NothingNew (blocks : List (EventBlock H D)) (o : NewSync) (window : List (EventBlock H D)) : Prop where
  standing : ∀ b ∈ window, contradicted blocks o b = false
  listed : ∀ b ∈ blocks, windowHas window b = true
  kept : ∀ b ∈ window, o.newLastToBlock - b.number ≤ o.finality
  sorted : window.Pairwise (·.number ≤ ·.number)

omit [DecidableEq K] in
/-- Such a payload derives nothing. -/
theorem generate_nothingNew {logs : List (LogEvent H D)} {o : NewSync} {d : ℕ}
    (h : NothingNew (groupLogsPerBlock logs) o c.unconfirmedBlocks) (hfrom : o.newLastFromBlock = getFromBlock c d o.finality) :
    generateStreamToAppend c d logs o =
      .ok ⟨[], ⟨o.newLastFromBlock, o.newLatestBlock, o.newLastToBlock, c.unconfirmedBlocks⟩, none⟩ := by
  have htake : c.unconfirmedBlocks.takeWhile (!contradicted (groupLogsPerBlock logs) o ·) = c.unconfirmedBlocks :=
    List.takeWhile_eq_self_iff.2 fun b hb => by rw [h.standing b hb]; rfl
  have hdrop : c.unconfirmedBlocks.dropWhile (!contradicted (groupLogsPerBlock logs) o ·) = [] :=
    List.dropWhile_eq_nil_iff.2 fun b hb => by rw [h.standing b hb]; rfl
  have hfresh : (groupLogsPerBlock logs).filter (fun b => !b.events.isEmpty && !windowHas c.unconfirmedBlocks b) = [] :=
    List.filter_eq_nil_iff.2 fun b hb => by rw [h.listed b hb]; simp
  have hkept : c.unconfirmedBlocks.filter (fun b => decide (o.newLastToBlock - b.number ≤ o.finality)) = c.unconfirmedBlocks :=
    List.filter_eq_self.2 fun b hb => decide_eq_true (h.kept b hb)
  have hsorted : sortBlocks c.unconfirmedBlocks = c.unconfirmedBlocks := h.sorted.insertionSort_eq
  unfold generateStreamToAppend
  dsimp only
  rw [if_neg (not_not.2 hfrom), htake, hdrop, hfresh, hkept, List.filter_nil, List.append_nil, hsorted]
  rfl

/-- Where the copy begins with the same block, the batch has left it nothing to say. -/
theorem nothingNew_receive (hview : OneView batch.logs) (h : sb.receive c batch = .ok r)
    (hfrom : batch.fromBlock = getFromBlock r.newLastSync sb.defaultFromBlock sb.finality) :
    NothingNew (groupLogsPerBlock batch.logs) (sb.newSync batch) r.newLastSync.unconfirmedBlocks := by
  obtain ⟨hwf, hgen⟩ := receive_ok h
  have hsync := receive_newLastSync h
  have hto := hwf.to_le_tip
  -- the next batch begins no higher than finality reaches, so this one reached no deeper
  have hdeep : ∀ n, batch.fromBlock ≤ n → n ≤ batch.toBlock → batch.latestBlock - n ≤ sb.finality := by
    intro n hge hle
    rw [hfrom, hsync] at hge
    unfold getFromBlock at hge
    dsimp only at hge
    split at hge <;> omega
  have hmem : ∀ b, b ∈ r.newLastSync.unconfirmedBlocks ↔
      (b ∈ retainedBlocks c batch.logs (sb.newSync batch) ∧ batch.toBlock - b.number ≤ sb.finality) ∨
        (b ∈ freshBlocks c batch.logs (sb.newSync batch) ∧ batch.latestBlock - b.number ≤ sb.finality) := by
    intro b
    rw [hsync]
    unfold sortBlocks
    rw [List.mem_insertionSort, List.mem_append, List.mem_filter, List.mem_filter, decide_eq_true_iff, decide_eq_true_iff]
  refine ⟨fun b hb => ?_, fun b hb => ?_, fun b hb => ?_, ?_⟩
  · rcases (hmem b).1 hb with ⟨hret, -⟩ | ⟨hfresh, -⟩
    · unfold retainedBlocks at hret
      simpa using List.mem_takeWhile_imp hret
    · have hgroup := List.mem_of_mem_filter hfresh
      unfold contradicted
      rw [newHashAt_group hview hwf.live hgroup, decide_eq_false (not_not.2 rfl), Bool.and_false]
  · obtain ⟨hne, hge, hle⟩ := hwf.group hb
    by_cases hhas : windowHas (retainedBlocks c batch.logs (sb.newSync batch)) b = true
    · obtain ⟨w, hw, heq⟩ := List.any_eq_true.1 hhas
      have hnumber : w.number = b.number := of_decide_eq_true (Bool.and_eq_true_iff.1 heq).1
      have hnear := hdeep w.number (by omega) (by omega)
      exact List.any_eq_true.2 ⟨w, (hmem w).2 (Or.inl ⟨hw, by omega⟩), heq⟩
    · have hfresh : b ∈ freshBlocks c batch.logs (sb.newSync batch) :=
        List.mem_filter.2 ⟨hb, by simp [hne, hhas]⟩
      exact List.any_eq_true.2 ⟨b, (hmem b).2 (Or.inr ⟨hfresh, hdeep b.number hge hle⟩), by simp⟩
  · show batch.toBlock - b.number ≤ sb.finality
    rcases (hmem b).1 hb with ⟨-, hnear⟩ | ⟨-, hnear⟩ <;> omega
  · rw [hsync]
    have : Std.Total fun x y : EventBlock H D => x.number ≤ y.number := ⟨fun x y => le_total _ _⟩
    have : IsTrans (EventBlock H D) fun x y => x.number ≤ y.number := ⟨fun _ _ _ => le_trans⟩
    exact List.pairwise_insertionSort _ _

/-- **The copy of an accepted batch** is refused with where the cursor now resumes, or it begins there and changes nothing. -/
theorem receive_again (hview : OneView batch.logs) (h : sb.receive c batch = .ok r) :
    sb.receive r.newLastSync batch =
      if batch.fromBlock = getFromBlock r.newLastSync sb.defaultFromBlock sb.finality then .ok ⟨[], r.newLastSync, none⟩
      else .error (.unexpectedFromBlock
        ⟨getFromBlock r.newLastSync sb.defaultFromBlock sb.finality, batch.fromBlock⟩) := by
  rw [receive_other h]
  by_cases hfrom : batch.fromBlock = getFromBlock r.newLastSync sb.defaultFromBlock sb.finality
  · rw [if_pos hfrom, generate_nothingNew (nothingNew_receive hview h hfrom) hfrom]
    have hsame : (⟨batch.fromBlock, batch.latestBlock, batch.toBlock, r.newLastSync.unconfirmedBlocks⟩ : LastSync H D) =
        r.newLastSync := by
      rw [receive_newLastSync h]
    show Except.ok _ = Except.ok _
    exact congrArg (fun sync => Except.ok (⟨[], sync, none⟩ : Appended H D)) hsame
  · rw [if_neg hfrom]
    unfold generateStreamToAppend
    exact congrArg (Except.mapError IngestionError.unexpectedFromBlock) (if_pos hfrom)

/-! ### Deliveries -/

/-- What a receiver has: its cursor, and everything it appended. -/
structure Receiver (H D : Type) where
  lastSync : LastSync H D
  appended : List (LogEvent H D)
  deriving DecidableEq, Repr

/-- A receiver before its first batch. -/
def Receiver.fresh : Receiver H D := ⟨.fresh, []⟩

/-- One delivery. What is refused changes nothing. -/
def StreamBuilder.deliver (sb : StreamBuilder K) (receiver : Receiver H D) (batch : WireBatch K H D) : Receiver H D :=
  match sb.receive receiver.lastSync batch with
  | .error _ => receiver
  | .ok r => ⟨r.newLastSync, receiver.appended ++ r.eventStream⟩

/-- What comes of a copy that follows its batch: it is refused again as the batch was; or, the batch
accepted, it is refused with where the cursor now resumes, or begins there and derives nothing. -/
def StreamBuilder.CopyOf (sb : StreamBuilder K) (receiver : Receiver H D) (batch : WireBatch K H D) : Prop :=
  let delivered := sb.deliver receiver batch
  (∃ error, sb.receive receiver.lastSync batch = .error error ∧ sb.receive delivered.lastSync batch = .error error) ∨
  (∃ r, sb.receive receiver.lastSync batch = .ok r ∧ delivered = ⟨r.newLastSync, receiver.appended ++ r.eventStream⟩) ∧
    sb.receive delivered.lastSync batch =
      if batch.fromBlock = getFromBlock delivered.lastSync sb.defaultFromBlock sb.finality then
        .ok ⟨[], delivered.lastSync, none⟩
      else .error (.unexpectedFromBlock
        ⟨getFromBlock delivered.lastSync sb.defaultFromBlock sb.finality, batch.fromBlock⟩)

theorem deliver_error {receiver : Receiver H D} {error : IngestionError K}
    (h : sb.receive receiver.lastSync batch = .error error) : sb.deliver receiver batch = receiver := by
  unfold StreamBuilder.deliver
  rw [h]

theorem deliver_ok {receiver : Receiver H D} (h : sb.receive receiver.lastSync batch = .ok r) :
    sb.deliver receiver batch = ⟨r.newLastSync, receiver.appended ++ r.eventStream⟩ := by
  unfold StreamBuilder.deliver
  rw [h]

theorem copyOf_deliver (hview : OneView batch.logs) (receiver : Receiver H D) : sb.CopyOf receiver batch := by
  unfold StreamBuilder.CopyOf
  dsimp only
  cases hfirst : sb.receive receiver.lastSync batch with
  | error error =>
    rw [deliver_error hfirst]
    exact .inl ⟨error, rfl, hfirst⟩
  | ok r =>
    rw [deliver_ok hfirst]
    exact .inr ⟨⟨r, rfl, rfl⟩, receive_again hview hfirst⟩

/-- **A copy that follows its batch changes nothing.** -/
theorem deliver_again (hview : OneView batch.logs) (receiver : Receiver H D) :
    sb.deliver (sb.deliver receiver batch) batch = sb.deliver receiver batch := by
  have hof : sb.CopyOf receiver batch := copyOf_deliver hview receiver
  rcases hof with ⟨error, -, hcopy⟩ | ⟨-, hcopy⟩
  · exact deliver_error hcopy
  · split at hcopy
    · rw [deliver_ok hcopy, List.append_nil]
    · exact deliver_error hcopy

variable [DecidableEq D]

/-- **However often each batch arrives in a row**, the cursor and the stream are those of one delivery
each, and each copy is refused or says nothing new. -/
theorem delivered_once {batches : List (WireBatch K H D)} (hview : ∀ batch ∈ batches, OneView batch.logs)
    (receiver : Receiver H D) :
    (batches.destutter (· ≠ ·)).foldl sb.deliver receiver = batches.foldl sb.deliver receiver ∧
    ∀ before batch after, batches = before ++ batch :: batch :: after →
      sb.CopyOf (before.foldl sb.deliver receiver) batch := by
  refine ⟨Redelivery.foldl_destutter (fun batch hbatch receiver => deliver_again (hview batch hbatch) receiver) receiver,
    fun before batch after hbatches => copyOf_deliver (hview batch ?_) _⟩
  rw [hbatches]
  simp

/-- A range with one log. -/
def firstRange : WireBatch Unit ℕ Unit := ⟨(), 0, 2, 2, [⟨1, 1, 0, false, ()⟩]⟩

theorem delivered_once_firstRange :
    ([firstRange, firstRange, firstRange].destutter (· ≠ ·)).foldl (StreamBuilder.deliver ⟨(), 0, 1⟩) .fresh =
      [firstRange, firstRange, firstRange].foldl (StreamBuilder.deliver ⟨(), 0, 1⟩) .fresh ∧
    (⟨(), 0, 1⟩ : StreamBuilder Unit).CopyOf (([firstRange].foldl (StreamBuilder.deliver ⟨(), 0, 1⟩) .fresh)) firstRange := by
  have hview : ∀ batch ∈ [firstRange, firstRange, firstRange], OneView batch.logs := by decide
  obtain ⟨honce, hcopies⟩ := delivered_once hview .fresh
  exact ⟨honce, hcopies [firstRange] firstRange [] rfl⟩

end Etherfold
