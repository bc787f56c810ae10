import Etherfold.Chain.Survivors
import Etherfold.Generation.Follow
import Etherfold.Stream.SeedInstall

/-!
# Producing a stream seed

The seed of a stream is the stored stream, read in chunks from its start up to the cut, less the
applications that a later retraction takes back.

* `readStoredStreamUpTo`, `dropRetractedPairs`, `produceStreamSeed`: the code.
* `dropRetractedPairs_eq`: **what the pass leaves is what does not cancel**.
* `readStoredStreamUpTo_ok`: **the chunks are the stream up to the cut**, whatever the budget.
-/

namespace Etherfold

open Ledger

variable {P H D : Type}

/-! ### Reading the stream -/

/-- A chunk, whatever bound it must reach. -/
def readChunkAbove (s : StoredStream H D) (fromBlock floor maxEmissions : ℕ) : ReplayRead H D :=
  match s.coverage with
  | none => .absent
  | some coverage =>
    if fromBlock < coverage.startBlock then .doesNotReachBack coverage.startBlock
    else
      let probe := (((s.rows.map (·.blockNumber)).filter (fromBlock ≤ ·)).insertionSort (· ≤ ·)).take (maxEmissions + 1)
      let budgetCut :=
        if maxEmissions < probe.length then probe.getD maxEmissions 0 - 1 else coverage.lastToBlock
      let lastToBlock := min coverage.lastToBlock (max budgetCut floor)
      .chunk
        { eventStream := s.rows.filter fun e => fromBlock ≤ e.blockNumber && e.blockNumber ≤ lastToBlock
          lastFromBlock := fromBlock
          lastToBlock
          latestBlock := coverage.latestBlock
          truncated := lastToBlock < coverage.lastToBlock
          highWater := s.rows.length }

/-- What a chunk holds. -/
theorem readChunkAbove_chunk {s : StoredStream H D} {fromBlock floor maxEmissions : ℕ} {read : ReplayChunk H D}
    (h : readChunkAbove s fromBlock floor maxEmissions = .chunk read) : ∃ coverage, s.coverage = some coverage ∧
      coverage.startBlock ≤ fromBlock ∧ read.lastToBlock ≤ coverage.lastToBlock ∧
      (read.truncated = true → floor ≤ read.lastToBlock) ∧
      (read.truncated = false → read.lastToBlock = coverage.lastToBlock) ∧
      read.eventStream = s.rows.filter fun e => fromBlock ≤ e.blockNumber && e.blockNumber ≤ read.lastToBlock := by
  unfold readChunkAbove at h
  split at h
  · cases h
  rename_i coverage hcoverage
  split at h
  · cases h
  rename_i hstart
  injection h with h
  subst h
  refine ⟨coverage, hcoverage, by omega, min_le_left _ _, ?_, ?_, rfl⟩
  · intro htruncated
    simp only [decide_eq_true_eq] at htruncated ⊢
    omega
  · intro htruncated
    simp only [decide_eq_false_iff_not] at htruncated ⊢
    omega

/-- Why there is no publication. -/
inductive PublicationRefusal where
  | noStoredStream (lastToBlock : Option ℕ)
  | unreadStream (fromBlock : ℕ) (startBlock : Option ℕ)
  | sourceNotRecorded (source : List SourceHashEntry)
  | otherStream (streamDigest : Text)
  deriving DecidableEq, Repr

/-- **The stored entries from a block up to the cut**, chunk by chunk. A chunk is asked for from a
fold that is just below it. -/
def readStoredStreamUpTo (s : StoredStream H D) (cut budget fromBlock : ℕ) :
    Except PublicationRefusal (List (LogEvent H D)) :=
  if _hfrom : fromBlock ≤ cut then
    match _hread : readChunkAbove s fromBlock fromBlock budget with
    | .absent => .error (.unreadStream fromBlock none)
    | .doesNotReachBack startBlock => .error (.unreadStream fromBlock (some startBlock))
    | .chunk read =>
      let inRange := read.eventStream.filter (·.blockNumber ≤ cut)
      if _hdone : cut ≤ read.lastToBlock ∨ read.truncated = false then .ok inRange
      else (readStoredStreamUpTo s cut budget (read.lastToBlock + 1)).map (inRange ++ ·)
  else .ok []
termination_by cut + 1 - fromBlock
decreasing_by
  obtain ⟨-, -, -, -, hfloor, -⟩ := readChunkAbove_chunk _hread
  rw [not_or, Bool.not_eq_false] at _hdone
  have := hfloor _hdone.2
  omega

/-! ### Dropping what is taken back -/

section Pairs

variable [DecidableEq H]

/-- What the pass over the entries carries: the positions dropped, and where a log stands. -/
structure PairPass (H : Type) where
  dropped : List ℕ
  standing : H × ℕ → Option ℕ

def PairPass.start : PairPass H := ⟨[], fun _ => none⟩

def PairPass.next (pass : PairPass H) (event : LogEvent H D) (position : ℕ) : PairPass H :=
  let coordinate := (event.blockHash, event.logIndex)
  if !event.removed then { pass with standing := Function.update pass.standing coordinate (some position) }
  else
    match pass.standing coordinate with
    | none => pass
    | some applied => ⟨position :: applied :: pass.dropped, Function.update pass.standing coordinate none⟩

def PairPass.over (events : List (LogEvent H D)) : PairPass H :=
  events.zipIdx.foldl (fun pass e => pass.next e.1 e.2) .start

/-- **The entries less every application that a later retraction takes back**, and that retraction. -/
def dropRetractedPairs (events : List (LogEvent H D)) : List (LogEvent H D) :=
  (events.zipIdx.filter fun e => e.2 ∉ (PairPass.over events).dropped).map (·.1)

/-- An entry as a seed carries it. -/
def LogEvent.stored (e : LogEvent H D) : SeedEvent H D :=
  ⟨some e.blockNumber, some e.logIndex, some e.blockHash, e.removed, e.data⟩

-- the stream digest over the filter and the config, and the short digest of a config
variable (digestOf : List Text → UsedStreamConfig P → Text) (configHashOf : UsedStreamConfig P → Text)

/-- **The seed of a stream**, cut at a block, from what is stored and the source recorded beside it. -/
def produceStreamSeed (s : StoredStream H D) (sourceHashes : List SourceHashEntry) (stream producer : Text)
    (streamConfig : UsedStreamConfig P) (tip cut readBudget : ℕ) : Except PublicationRefusal (StreamSeed P H D) :=
  match s.coverage with
  | none => .error (.noStoredStream none)
  | some coverage =>
    if coverage.lastToBlock < cut then .error (.noStoredStream (some coverage.lastToBlock))
    else if sourceHashes.any (·.streamHash.isNone) then .error (.sourceNotRecorded sourceHashes)
    else if streamDigestOfSourceHashes digestOf sourceHashes streamConfig ≠ stream then
      .error (.otherStream (streamDigestOfSourceHashes digestOf sourceHashes streamConfig))
    else
      (readStoredStreamUpTo s cut readBudget coverage.startBlock).map fun events =>
        { producer
          chainHeadAtCapture := tip
          streamConfig
          chain := none
          streamDigest := streamDigestOfSourceHashes digestOf sourceHashes streamConfig
          coverage := ⟨coverage.startBlock, cut⟩
          context := ⟨sourceHashes, configHashOf streamConfig, []⟩
          eventStream := (dropRetractedPairs events).map LogEvent.stored }

end Pairs

/-! ### What the pass drops -/

section Drop

variable [DecidableEq H]

theorem over_concat (events : List (LogEvent H D)) (e : LogEvent H D) :
    PairPass.over (events ++ [e]) = (PairPass.over events).next e events.length := by
  unfold PairPass.over
  rw [List.zipIdx_append, List.foldl_append]
  simp

/-- What ties the pass to the entries it has seen. -/
structure PairPass.Sound (pass : PairPass H) (events : List (LogEvent H D)) : Prop where
  below : ∀ i ∈ pass.dropped, i < events.length
  placed : ∀ c i, pass.standing c = some i → ∃ e, events[i]? = some e ∧ (e.blockHash, e.logIndex) = c
  kept : ∀ c i, pass.standing c = some i → i ∉ pass.dropped
  cancels : cancel LogEvent.op events = (events.zipIdx.filter fun e => e.2 ∉ pass.dropped).map fun e =>
    (e.1, decide (pass.standing (e.1.blockHash, e.1.logIndex) = some e.2))

variable {pass : PairPass H} {events : List (LogEvent H D)}

omit [DecidableEq H] in
/-- A position is that of one entry. -/
theorem getElem?_of_zipIdx {p : LogEvent H D × ℕ} (h : p ∈ events.zipIdx) : events[p.2]? = some p.1 := by
  obtain ⟨e, i⟩ := p
  rwa [List.mem_zipIdx_iff_getElem?] at h

omit [DecidableEq H] in
theorem lt_of_zipIdx {p : LogEvent H D × ℕ} (h : p ∈ events.zipIdx) : p.2 < events.length :=
  (List.getElem?_eq_some_iff.1 (getElem?_of_zipIdx h)).1

theorem PairPass.Sound.application (h : PairPass.Sound pass events) {e : LogEvent H D} (he : e.removed = false) :
    PairPass.Sound (pass.next e events.length) (events ++ [e]) := by
  have hnext : pass.next e events.length =
      { pass with standing := Function.update pass.standing (e.blockHash, e.logIndex) (some events.length) } := by
    unfold PairPass.next
    rw [he]
    rfl
  have hop : e.op = .add (e.blockHash, e.logIndex) := by
    unfold LogEvent.op
    rw [he]
    rfl
  have hfresh : events.length ∉ pass.dropped := fun hin => absurd (h.below _ hin) (lt_irrefl _)
  rw [hnext]
  refine ⟨fun i hi => ?_, fun c i hi => ?_, fun c i hi => ?_, ?_⟩
  · have := h.below i hi
    rw [List.length_append]
    omega
  · have hi : Function.update pass.standing (e.blockHash, e.logIndex) (some events.length) c = some i := hi
    by_cases hc : c = (e.blockHash, e.logIndex)
    · rw [hc, Function.update_self, Option.some.injEq] at hi
      exact ⟨e, by rw [← hi]; simp, hc.symm⟩
    · rw [Function.update_of_ne hc] at hi
      obtain ⟨e', he', hcoord⟩ := h.placed c i hi
      refine ⟨e', ?_, hcoord⟩
      rw [List.getElem?_append_left (List.getElem?_eq_some_iff.1 he').1, he']
  · have hi : Function.update pass.standing (e.blockHash, e.logIndex) (some events.length) c = some i := hi
    by_cases hc : c = (e.blockHash, e.logIndex)
    · rw [hc, Function.update_self, Option.some.injEq] at hi
      exact hi ▸ hfresh
    · rw [Function.update_of_ne hc] at hi
      exact h.kept c i hi
  · rw [cancel_concat, h.cancels, List.zipIdx_append, List.filter_append, List.map_append]
    unfold cancelNext
    rw [hop]
    dsimp only
    rw [List.map_map]
    congr 1
    · -- an entry of this coordinate no longer stands, any other stands as before
      apply List.map_congr_left
      intro p hp
      have hlt := lt_of_zipIdx (List.mem_filter.1 hp).1
      rw [Function.comp_apply, LogEvent.op_key]
      dsimp only
      by_cases hc : (p.1.blockHash, p.1.logIndex) = (e.blockHash, e.logIndex)
      · have hne : events.length ≠ p.2 := by omega
        simp [hc, hne]
      · simp [hc]
    · simp [hfresh]

theorem PairPass.Sound.unmatched (h : PairPass.Sound pass events) {e : LogEvent H D} (he : e.removed = true)
    (hnone : pass.standing (e.blockHash, e.logIndex) = none) :
    PairPass.Sound (pass.next e events.length) (events ++ [e]) := by
  have hnext : pass.next e events.length = pass := by
    simp [PairPass.next, he, hnone]
  have hop : e.op = .retract (e.blockHash, e.logIndex) := by
    unfold LogEvent.op
    rw [he]
    rfl
  have hfresh : events.length ∉ pass.dropped := fun hin => absurd (h.below _ hin) (lt_irrefl _)
  rw [hnext]
  refine ⟨fun i hi => ?_, fun c i hi => ?_, h.kept, ?_⟩
  · have := h.below i hi
    rw [List.length_append]
    omega
  · obtain ⟨e', he', hcoord⟩ := h.placed c i hi
    refine ⟨e', ?_, hcoord⟩
    rw [List.getElem?_append_left (List.getElem?_eq_some_iff.1 he').1, he']
  · have hany : (cancel LogEvent.op events).any (stands LogEvent.op (e.blockHash, e.logIndex)) = false := by
      rw [h.cancels, List.any_eq_false]
      intro q hq hstands
      obtain ⟨p, -, rfl⟩ := List.mem_map.1 hq
      simp only [stands, Bool.and_eq_true, decide_eq_true_eq, LogEvent.op_key] at hstands
      rw [hstands.1, hnone] at hstands
      cases hstands.2
    rw [cancel_concat]
    unfold cancelNext
    rw [hop]
    dsimp only
    rw [if_neg (by rw [hany]; exact Bool.false_ne_true), h.cancels, List.zipIdx_append, List.filter_append, List.map_append]
    congr 1
    simp [hfresh, hnone]

theorem PairPass.Sound.matched (h : PairPass.Sound pass events) {e : LogEvent H D} (he : e.removed = true) {applied : ℕ}
    (hsome : pass.standing (e.blockHash, e.logIndex) = some applied) :
    PairPass.Sound (pass.next e events.length) (events ++ [e]) := by
  have hnext : pass.next e events.length = ⟨events.length :: applied :: pass.dropped,
      Function.update pass.standing (e.blockHash, e.logIndex) none⟩ := by
    simp [PairPass.next, he, hsome]
  have hop : e.op = .retract (e.blockHash, e.logIndex) := by
    unfold LogEvent.op
    rw [he]
    rfl
  obtain ⟨e₀, he₀, hcoord₀⟩ := h.placed _ _ hsome
  have hlt₀ := (List.getElem?_eq_some_iff.1 he₀).1
  rw [hnext]
  refine ⟨fun i hi => ?_, fun c i hi => ?_, fun c i hi => ?_, ?_⟩
  · rw [List.length_append, List.length_singleton]
    rcases List.mem_cons.1 hi with rfl | hi
    · omega
    rcases List.mem_cons.1 hi with rfl | hi
    · omega
    · have := h.below i hi
      omega
  · have hi : Function.update pass.standing (e.blockHash, e.logIndex) none c = some i := hi
    by_cases hc : c = (e.blockHash, e.logIndex)
    · rw [hc, Function.update_self] at hi
      cases hi
    · rw [Function.update_of_ne hc] at hi
      obtain ⟨e', he', hcoord⟩ := h.placed c i hi
      refine ⟨e', ?_, hcoord⟩
      rw [List.getElem?_append_left (List.getElem?_eq_some_iff.1 he').1, he']
  · have hi : Function.update pass.standing (e.blockHash, e.logIndex) none c = some i := hi
    by_cases hc : c = (e.blockHash, e.logIndex)
    · rw [hc, Function.update_self] at hi
      cases hi
    · rw [Function.update_of_ne hc] at hi
      obtain ⟨e', he', hcoord⟩ := h.placed c i hi
      have hlt := (List.getElem?_eq_some_iff.1 he').1
      intro hin
      rcases List.mem_cons.1 hin with rfl | hin
      · omega
      rcases List.mem_cons.1 hin with rfl | hin
      · -- two coordinates do not stand at one position
        rw [he₀, Option.some.injEq] at he'
        rw [← hcoord, ← he', hcoord₀] at hc
        exact hc rfl
      · exact h.kept c i hi hin
  · have hin₀ : (e₀, applied) ∈ events.zipIdx := List.mem_zipIdx_iff_getElem?.2 he₀
    have hany : (cancel LogEvent.op events).any (stands LogEvent.op (e.blockHash, e.logIndex)) = true := by
      rw [h.cancels, List.any_eq_true]
      refine ⟨_, List.mem_map.2 ⟨(e₀, applied), List.mem_filter.2 ⟨hin₀, decide_eq_true (h.kept _ _ hsome)⟩, rfl⟩, ?_⟩
      simp [stands, LogEvent.op_key, hcoord₀, hsome]
    rw [cancel_concat]
    unfold cancelNext
    rw [hop]
    dsimp only
    rw [if_pos hany, h.cancels, List.filter_map, List.filter_filter, List.zipIdx_append, List.filter_append]
    have hlast : (([e].zipIdx (0 + events.length)).filter fun p : LogEvent H D × ℕ =>
        decide (p.2 ∉ events.length :: applied :: pass.dropped)) = [] := by
      simp
    rw [hlast, List.append_nil]
    -- what goes is the position that stood, and it is of this coordinate
    have hgoes : ∀ p ∈ events.zipIdx, (pass.standing (p.1.blockHash, p.1.logIndex) = some p.2 ∧
        (p.1.blockHash, p.1.logIndex) = (e.blockHash, e.logIndex)) ↔ p.2 = applied := by
      intro p hp
      constructor
      · intro hstands
        rw [hstands.2, hsome, Option.some.injEq] at hstands
        exact hstands.1.symm
      · intro heq
        have hat := getElem?_of_zipIdx hp
        rw [heq, he₀, Option.some.injEq] at hat
        rw [← hat, hcoord₀, hsome, heq]
        exact ⟨rfl, rfl⟩
    have hfilter : (events.zipIdx.filter fun p => ((fun q : LogEvent H D × Bool =>
          !stands LogEvent.op (e.blockHash, e.logIndex) q) ∘ fun p : LogEvent H D × ℕ =>
            (p.1, decide (pass.standing (p.1.blockHash, p.1.logIndex) = some p.2))) p && decide (p.2 ∉ pass.dropped)) =
        events.zipIdx.filter fun p => decide (p.2 ∉ events.length :: applied :: pass.dropped) := by
      apply List.filter_congr
      intro p hp
      have hlt := lt_of_zipIdx hp
      have hne : p.2 ≠ events.length := by omega
      have hiff := hgoes p hp
      rw [Bool.eq_iff_iff]
      simp only [Function.comp_apply, stands, LogEvent.op_key, Bool.and_eq_true, Bool.not_eq_true', Bool.and_eq_false_iff,
        decide_eq_true_eq, decide_eq_false_iff_not, List.mem_cons, not_or]
      tauto
    rw [hfilter]
    apply List.map_congr_left
    intro p hp
    obtain ⟨hp, hkept⟩ := List.mem_filter.1 hp
    have hiff := hgoes p hp
    simp only [List.mem_cons, not_or, decide_eq_true_eq] at hkept
    by_cases hc : (p.1.blockHash, p.1.logIndex) = (e.blockHash, e.logIndex)
    · have hne : applied ≠ p.2 := fun heq => hkept.2.1 heq.symm
      simp [hc, hsome, hne]
    · simp [Function.update_of_ne hc]

/-- **One entry keeps the pass sound.** -/
theorem PairPass.Sound.next (h : PairPass.Sound pass events) (e : LogEvent H D) :
    PairPass.Sound (pass.next e events.length) (events ++ [e]) := by
  cases hremoved : e.removed with
  | false => exact h.application hremoved
  | true =>
    cases hstanding : pass.standing (e.blockHash, e.logIndex) with
    | none => exact h.unmatched hremoved hstanding
    | some applied => exact h.matched hremoved hstanding

theorem over_sound (events : List (LogEvent H D)) : PairPass.Sound (PairPass.over events) events := by
  induction events using List.reverseRecOn with
  | nil => exact ⟨by simp [PairPass.over, PairPass.start], by simp [PairPass.over, PairPass.start],
      by simp [PairPass.over, PairPass.start], rfl⟩
  | append_singleton events e ih =>
    rw [over_concat]
    exact ih.next e

/-- **What the pass leaves is what does not cancel.** -/
theorem dropRetractedPairs_eq (events : List (LogEvent H D)) :
    dropRetractedPairs events = (cancel LogEvent.op events).map Prod.fst := by
  rw [(over_sound events).cancels, List.map_map]
  rfl

end Drop

/-! ### What is read -/

section Reading

variable [DecidableEq H] {C : Chain H D} {s : StoredStream H D} {coverage : StreamCoverage} {cut budget fromBlock : ℕ}

omit [DecidableEq H] in
/-- A list splits at a test that fails for good. -/
theorem filter_split {α : Type} {p q : α → Bool} {l : List α} (h : l.Pairwise fun x y => q y = true → q x = true) :
    l.filter p = l.filter (fun x => p x && q x) ++ l.filter fun x => p x && !q x := by
  induction l with
  | nil => rfl
  | cons x l ih =>
    obtain ⟨hx, hl⟩ := List.pairwise_cons.1 h
    cases hq : q x with
    | true =>
      have hhead : (x :: l).filter (fun x => p x && !q x) = l.filter fun x => p x && !q x := by simp [hq]
      rw [hhead, List.filter_cons, List.filter_cons, hq, ih hl]
      cases p x <;> rfl
    | false =>
      have hall : ∀ y ∈ x :: l, q y = false := by
        intro y hy
        rcases List.mem_cons.1 hy with rfl | hy
        · exact hq
        · by_contra hne
          rw [hx y hy (by simpa using hne)] at hq
          cases hq
      have hnone : (x :: l).filter (fun x => p x && q x) = [] := by
        rw [List.filter_eq_nil_iff]
        intro y hy
        simp [hall y hy]
      rw [hnone, List.nil_append]
      apply List.filter_congr
      intro y hy
      simp [hall y hy]

omit [DecidableEq H] in
/-- What is read of a chunk that is cut short. -/
theorem filter_upTo (l : List (LogEvent H D)) (a b c : ℕ) :
    (l.filter fun e => decide (e.blockNumber ≤ c) && (decide (a ≤ e.blockNumber) && decide (e.blockNumber ≤ b))) =
      l.filter fun e => decide (a ≤ e.blockNumber) && decide (e.blockNumber ≤ min b c) := by
  apply List.filter_congr
  intro e _
  rw [Bool.eq_iff_iff]
  simp only [Bool.and_eq_true, decide_eq_true_eq]
  omega

/-- The rows of some heights cancel as the whole stream does there. -/
theorem cancel_heights (hheight : ∀ e ∈ s.rows, e.blockNumber = C.numberOf e.blockHash) (a b : ℕ) :
    cancel LogEvent.op (s.rows.filter fun e => decide (a ≤ e.blockNumber) && decide (e.blockNumber ≤ b)) =
      (cancel LogEvent.op s.rows).filter fun q => decide (a ≤ q.1.blockNumber) && decide (q.1.blockNumber ≤ b) := by
  set p : H × ℕ → Bool := fun k => decide (a ≤ C.numberOf k.1) && decide (C.numberOf k.1 ≤ b) with hp
  have hrows : (s.rows.filter fun e => decide (a ≤ e.blockNumber) && decide (e.blockNumber ≤ b)) =
      s.rows.filter fun e => p e.op.key := by
    apply List.filter_congr
    intro e he
    rw [LogEvent.op_key, hheight e he]
  rw [hrows, cancel_filter]
  apply List.filter_congr
  intro q hq
  rw [LogEvent.op_key, hheight q.1 (mem_cancel hq)]

/-- **The stored entries up to the cut**: all of them, and what stays of them is what stays of the
stream there, where that is in the order of the heights. -/
theorem readStoredStreamUpTo_ok (hcoverage : s.coverage = some coverage) (hstart : coverage.startBlock ≤ fromBlock)
    (hcut : cut ≤ coverage.lastToBlock) : ∃ events, readStoredStreamUpTo s cut budget fromBlock = .ok events ∧
      events.Perm (s.rows.filter fun e => decide (fromBlock ≤ e.blockNumber) && decide (e.blockNumber ≤ cut)) ∧
      ((∀ e ∈ s.rows, e.blockNumber = C.numberOf e.blockHash) →
        (((cancel LogEvent.op s.rows).filter fun q => decide (q.1.blockNumber ≤ cut)).Pairwise
          fun q q' => q.1.blockNumber ≤ q'.1.blockNumber) →
        cancel LogEvent.op events =
          (cancel LogEvent.op s.rows).filter fun q => decide (fromBlock ≤ q.1.blockNumber) && decide (q.1.blockNumber ≤ cut)) := by
  induction hn : cut + 1 - fromBlock using Nat.strong_induction_on generalizing fromBlock with
  | _ n ih =>
  unfold readStoredStreamUpTo
  split
  · rename_i hfrom
    split
    · rename_i hread
      unfold readChunkAbove at hread
      rw [hcoverage] at hread
      dsimp only at hread
      split at hread <;> cases hread
    · rename_i hread
      unfold readChunkAbove at hread
      rw [hcoverage] at hread
      dsimp only at hread
      rw [if_neg (by omega)] at hread
      cases hread
    · rename_i read hread
      obtain ⟨coverage', hcoverage', -, hto, hfloor, hwhole, hstream⟩ := readChunkAbove_chunk hread
      obtain rfl : coverage = coverage' := by rwa [hcoverage, Option.some.injEq] at hcoverage'
      dsimp only
      rw [hstream, List.filter_filter]
      split
      · rename_i hdone
        have hreach : cut ≤ read.lastToBlock := by
          rcases hdone with hdone | hdone
          · exact hdone
          · rw [hwhole hdone]
            exact hcut
        rw [filter_upTo, min_eq_right hreach]
        exact ⟨_, rfl, .refl _, fun hheight _ => cancel_heights hheight _ _⟩
      · rename_i hmore
        rw [not_or, Bool.not_eq_false] at hmore
        have hlow := hfloor hmore.2
        obtain ⟨rest, hrest, hperm, hcancel⟩ := @ih (cut + 1 - (read.lastToBlock + 1)) (by omega)
          (read.lastToBlock + 1) (by omega) rfl
        rw [hrest, filter_upTo, min_eq_left (by omega)]
        refine ⟨_, rfl, ?_, fun hheight hsorted => ?_⟩
        · refine (hperm.append_left _).trans ?_
          have hsplit := List.filter_append_perm (fun e : LogEvent H D => decide (e.blockNumber ≤ read.lastToBlock))
            (s.rows.filter fun e => decide (fromBlock ≤ e.blockNumber) && decide (e.blockNumber ≤ cut))
          rw [List.filter_filter, List.filter_filter] at hsplit
          refine List.Perm.trans (List.Perm.of_eq ?_) hsplit
          congr 1 <;>
            · apply List.filter_congr
              intro e _
              rw [Bool.eq_iff_iff]
              simp only [Bool.and_eq_true, Bool.not_eq_true', decide_eq_true_eq, decide_eq_false_iff_not]
              omega
        · have hapart : ∀ a ∈ s.rows.filter (fun e => decide (fromBlock ≤ e.blockNumber) &&
                decide (e.blockNumber ≤ read.lastToBlock)), ∀ b ∈ rest, (LogEvent.op a).key ≠ (LogEvent.op b).key := by
            intro a ha b hb hkey
            obtain ⟨hain, ha⟩ := List.mem_filter.1 ha
            obtain ⟨hbin, hb⟩ := List.mem_filter.1 (hperm.mem_iff.1 hb)
            rw [LogEvent.op_key, LogEvent.op_key, Prod.mk.injEq] at hkey
            rw [hheight a hain, hkey.1, ← hheight b hbin] at ha
            simp only [Bool.and_eq_true, decide_eq_true_eq] at ha hb
            omega
          rw [cancel_append_of_apart hapart, cancel_heights hheight, hcancel hheight hsorted]
          have hsplit := filter_split (p := fun q : LogEvent H D × Bool => decide (fromBlock ≤ q.1.blockNumber))
            (q := fun q => decide (q.1.blockNumber ≤ read.lastToBlock))
            (hsorted.imp fun {q q'} hle hq' => by simp only [decide_eq_true_eq] at hq' ⊢; omega)
          rw [List.filter_filter, List.filter_filter, List.filter_filter] at hsplit
          refine Eq.trans ?_ (hsplit.symm.trans ?_)
          · congr 1 <;>
              · apply List.filter_congr
                intro q _
                rw [Bool.eq_iff_iff]
                simp only [Bool.and_eq_true, Bool.not_eq_true', decide_eq_true_eq, decide_eq_false_iff_not]
                omega
          · rfl
  · rename_i hfrom
    have hnone : ∀ n : ℕ, (decide (fromBlock ≤ n) && decide (n ≤ cut)) = false := by
      intro n
      rw [Bool.and_eq_false_iff, decide_eq_false_iff_not, decide_eq_false_iff_not]
      omega
    refine ⟨[], rfl, ?_, fun _ _ => ?_⟩
    · simp [hnone]
    · simp [hnone, cancel]

end Reading

end Etherfold
