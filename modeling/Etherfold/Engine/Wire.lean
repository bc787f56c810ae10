import Etherfold.Engine.Redelivery

/-!
# Senders and one receiver

Any number of senders push to one receiver. A sender keeps no cursor, only the last answer it was
given; a request may arrive any number of times and at any later time, and an answer may be lost. The
receiver waits between reading its cursor, appending a delta and folding it.

* `FetchCycle`, `Sender`: a cycle of `fetchAndPush`, cut where it waits.
* `Handling`: a batch the receiver is at, `receive` cut where it waits.
* `Wire.Step`, `Wire.Reach`: the steps, in any interleaving, and the states they lead to while the
  receiver is at one batch at a time and folds what it stored.
* `Accepted.covers`: accepted batches leave no block out.
* `OnceEach.deliver`: copies in a row may be left out.
* `wire_exactly_once`: **whatever is sent again or lost**, the stream is that of batches each received
  once, from the start block on without a gap.
-/

namespace Etherfold

variable {K H D : Type}

/-- What the receiver answers a batch; anything else is thrown. -/
inductive IngestionResponse where
  | accepted (expectedFromBlock : ℕ)
  | refused (expectedFromBlock : ℕ)
  deriving DecidableEq, Repr

def IngestionResponse.expectedFromBlock : IngestionResponse → ℕ
  | .accepted n => n
  | .refused n => n

/-- A cycle: asking where to start, fetching a range from there, pushing it. The answer to the question is held from when
the receiver gave it to when the sender reads it. -/
inductive FetchCycle (K H D : Type) where
  | idle
  | asking (answer : Option ℕ)
  | fetching (fromBlock corrections : ℕ)
  | pushing (batch : WireBatch K H D) (corrections : ℕ)

/-- A sender: the hint it keeps between cycles, and the cycle it is in. -/
structure Sender (K H D : Type) where
  expectedFromBlockHint : Option ℕ
  cycle : FetchCycle K H D

namespace Sender

/-- A cycle begins at the hint, or with a question. -/
def start (s : Sender K H D) : Sender K H D :=
  match s.expectedFromBlockHint with
  | some fromBlock => { s with cycle := .fetching fromBlock 0 }
  | none => { s with cycle := .asking none }

/-- The answer is read: the batch landed, or the range is fetched again from where the receiver says, unless it was
corrected too often. -/
def settle (maxCorrectionsPerCycle corrections : ℕ) : IngestionResponse → Sender K H D
  | .accepted expectedFromBlock => ⟨some expectedFromBlock, .idle⟩
  | .refused expectedFromBlock =>
    ⟨some expectedFromBlock, if corrections + 1 > maxCorrectionsPerCycle then .idle
      else .fetching expectedFromBlock (corrections + 1)⟩

/-- The cycle throws. A push that failed may have been applied, so the hint is dropped. -/
def fail (s : Sender K H D) : Sender K H D :=
  match s.cycle with
  | .pushing _ _ => ⟨none, .idle⟩
  | _ => { s with cycle := .idle }

end Sender

/-- A batch the receiver is at: the delta it derived from the cursor it read, and whether that is in the stream yet. -/
structure Handling (K H D : Type) where
  batch : WireBatch K H D
  delta : Appended H D
  stored : Bool

/-- The batches that were ever sent, those the receiver is done with, in order, those it is at, the answers it gave, and
the senders. -/
structure Wire (K H D : Type) where
  sent : List (WireBatch K H D)
  arrivals : List (WireBatch K H D)
  receiver : Receiver H D
  handling : List (Handling K H D)
  answers : List (WireBatch K H D × IngestionResponse)
  senders : ℕ → Sender K H D

/-- Nothing was sent, and no sender knows where to start. -/
def Wire.initial : Wire K H D := ⟨[], [], .fresh, [], [], fun _ => ⟨none, .idle⟩⟩

/-- One sender moves. -/
def Wire.set (w : Wire K H D) (i : ℕ) (s : Sender K H D) : Wire K H D := { w with senders := Function.update w.senders i s }

/-- What is in the stream of the batches the receiver is at. -/
def Wire.ahead (w : Wire K H D) : List (LogEvent H D) :=
  (w.handling.filter (·.stored)).flatMap (·.delta.eventStream)

/-- What happens: a sender moves, or the receiver reads its cursor for a batch, refuses one, stores a delta, folds it, or
fails before it has stored one or after. -/
inductive WireMove where
  | sender
  | arrive
  | refuse
  | store
  | fold
  | fail
  | failStored
  deriving DecidableEq, Repr

/-- **One batch at a time**, and every delta that was stored is folded. -/
def WireMove.Careful (w : Wire K H D) : WireMove → Prop
  | .arrive => w.handling = []
  | .failStored => False
  | _ => True

section Steps

variable [DecidableEq K] [DecidableEq H]

/-- Where the next batch must start. -/
def StreamBuilder.expectedFromBlock (sb : StreamBuilder K) (receiver : Receiver H D) : ℕ :=
  getFromBlock receiver.lastSync sb.defaultFromBlock sb.finality

/-- What the receiver has after the arrivals. -/
def StreamBuilder.after (sb : StreamBuilder K) (arrivals : List (WireBatch K H D)) : Receiver H D :=
  arrivals.foldl sb.deliver .fresh

/-- What a sender is answered where its batch is refused; any other refusal is thrown. -/
def IngestionError.response : IngestionError K → Option IngestionResponse
  | .unexpectedFromBlock error => some (.refused error.expected)
  | _ => none

/-- **One step**, of a sender or of the receiver, which waits between reading its cursor, storing a delta and folding it:
other batches may come in between. What a sender fetches is checked with the receiver's own check, and is of one view of
the chain. An answer that is never read is lost. -/
inductive Wire.Step (sb : StreamBuilder K) (maxCorrectionsPerCycle : ℕ) (w : Wire K H D) : WireMove → Wire K H D → Prop
  | start (i : ℕ) (idle : (w.senders i).cycle = .idle) :
      w.Step sb maxCorrectionsPerCycle .sender (w.set i (w.senders i).start)
  | asked (i : ℕ) (asking : (w.senders i).cycle = .asking none) : w.Step sb maxCorrectionsPerCycle .sender
      (w.set i ⟨(w.senders i).expectedFromBlockHint, .asking (some (sb.expectedFromBlock w.receiver))⟩)
  | told (i fromBlock : ℕ) (asking : (w.senders i).cycle = .asking (some fromBlock)) :
      w.Step sb maxCorrectionsPerCycle .sender (w.set i ⟨some fromBlock, .fetching fromBlock 0⟩)
  | upToDate (i fromBlock corrections : ℕ) (fetching : (w.senders i).cycle = .fetching fromBlock corrections) :
      w.Step sb maxCorrectionsPerCycle .sender (w.set i ⟨(w.senders i).expectedFromBlockHint, .idle⟩)
  | fetched (i : ℕ) (batch : WireBatch K H D) (corrections : ℕ)
      (fetching : (w.senders i).cycle = .fetching batch.fromBlock corrections)
      (wellFormed : assertWellFormed batch = .ok ()) (view : OneView batch.logs) : w.Step sb maxCorrectionsPerCycle .sender
      { w.set i ⟨(w.senders i).expectedFromBlockHint, .pushing batch corrections⟩ with sent := w.sent ++ [batch] }
  | answered (i : ℕ) (batch : WireBatch K H D) (corrections : ℕ) (response : IngestionResponse)
      (pushing : (w.senders i).cycle = .pushing batch corrections) (answer : (batch, response) ∈ w.answers) :
      w.Step sb maxCorrectionsPerCycle .sender (w.set i (Sender.settle maxCorrectionsPerCycle corrections response))
  | failed (i : ℕ) : w.Step sb maxCorrectionsPerCycle .sender (w.set i (w.senders i).fail)
  | arrive (batch : WireBatch K H D) (delta : Appended H D) (sent : batch ∈ w.sent)
      (ok : sb.receive w.receiver.lastSync batch = .ok delta) : w.Step sb maxCorrectionsPerCycle .arrive
      { w with handling := w.handling ++ [⟨batch, delta, false⟩] }
  | refuse (batch : WireBatch K H D) (error : IngestionError K) (sent : batch ∈ w.sent)
      (refused : sb.receive w.receiver.lastSync batch = .error error) : w.Step sb maxCorrectionsPerCycle .refuse
      { w with
        arrivals := w.arrivals ++ [batch]
        answers := w.answers ++ error.response.toList.map fun response => (batch, response) }
  | store (before after : List (Handling K H D)) (batch : WireBatch K H D) (delta : Appended H D)
      (at_ : w.handling = before ++ ⟨batch, delta, false⟩ :: after) : w.Step sb maxCorrectionsPerCycle .store
      { w with
        receiver := ⟨w.receiver.lastSync, w.receiver.appended ++ delta.eventStream⟩
        handling := before ++ ⟨batch, delta, true⟩ :: after }
  | fold (before after : List (Handling K H D)) (batch : WireBatch K H D) (delta : Appended H D)
      (at_ : w.handling = before ++ ⟨batch, delta, true⟩ :: after) : w.Step sb maxCorrectionsPerCycle .fold
      { w with
        receiver := ⟨delta.newLastSync, w.receiver.appended⟩
        handling := before ++ after
        arrivals := w.arrivals ++ [batch]
        answers := w.answers ++
          [(batch, .accepted (getFromBlock delta.newLastSync sb.defaultFromBlock sb.finality))] }
  | fail (before after : List (Handling K H D)) (batch : WireBatch K H D) (delta : Appended H D)
      (at_ : w.handling = before ++ ⟨batch, delta, false⟩ :: after) : w.Step sb maxCorrectionsPerCycle .fail
      { w with handling := before ++ after }
  | failStored (before after : List (Handling K H D)) (batch : WireBatch K H D) (delta : Appended H D)
      (at_ : w.handling = before ++ ⟨batch, delta, true⟩ :: after) : w.Step sb maxCorrectionsPerCycle .failStored
      { w with handling := before ++ after }

/-- The states that senders and receiver get into, while the receiver is at one batch at a time and folds what it stored. -/
inductive Wire.Reach (sb : StreamBuilder K) (maxCorrectionsPerCycle : ℕ) : Wire K H D → Prop
  | initial : Wire.Reach sb maxCorrectionsPerCycle .initial
  | step {w w' : Wire K H D} {move : WireMove} (reach : Wire.Reach sb maxCorrectionsPerCycle w)
      (step : Wire.Step sb maxCorrectionsPerCycle w move w') (careful : move.Careful w) :
      Wire.Reach sb maxCorrectionsPerCycle w'

/-! ### Accepted batches -/

variable {sb : StreamBuilder K} {rs : List (Receipt K H D)} {maxCorrectionsPerCycle : ℕ} {w w' : Wire K H D}

/-- **Accepted batches leave no block out**, from the start block to where the cursor says. -/
theorem Accepted.covers (run : Accepted sb rs) {n : ℕ} (hstart : sb.defaultFromBlock ≤ n)
    (hto : n ≤ (cursorAfter (received rs)).lastToBlock) (hne : rs ≠ []) :
    ∃ r ∈ rs, r.batch.fromBlock ≤ n ∧ n ≤ r.batch.toBlock := by
  induction run with
  | start => exact absurd rfl hne
  | @receive rs batch a run ok ih =>
    obtain ⟨-, hgen⟩ := receive_ok ok
    have hfrom : batch.fromBlock = getFromBlock (cursorAfter (received rs)) sb.defaultFromBlock sb.finality :=
      (generate_ok_iff _ _ _ _).1 ⟨a, hgen⟩
    have hsync : a.newLastSync.lastToBlock = batch.toBlock := (generate_sync hgen).2.2
    rw [received_concat, cursorAfter_concat, hsync] at hto
    by_cases hge : batch.fromBlock ≤ n
    · exact ⟨⟨batch, a⟩, by simp, hge, hto⟩
    · -- the batch begins at most one block above what was reached
      have hle := getFromBlock_le (cursorAfter (received rs)) sb.defaultFromBlock sb.finality
      have hrs : rs ≠ [] := by
        rintro rfl
        have hfresh : getFromBlock (cursorAfter (received ([] : List (Receipt K H D)))) sb.defaultFromBlock sb.finality =
          sb.defaultFromBlock := rfl
        omega
      obtain ⟨r, hr, hrange⟩ := ih (by omega) hrs
      exact ⟨r, List.mem_append_left _ hr, hrange⟩

/-- The batches of accepted receipts, none of them twice in a row. -/
structure OnceEach (sb : StreamBuilder K) (rs : List (Receipt K H D)) : Prop where
  accepted : Accepted sb rs
  apart : (rs.map (·.batch)).IsChain (· ≠ ·)
  views : ∀ r ∈ rs, OneView r.batch.logs

/-- **One more arrival** is refused, is the copy of the last batch, or is a batch of its own. -/
theorem OnceEach.deliver (h : OnceEach sb rs) (receiver : Receiver H D) (hlast : receiver.lastSync = cursorAfter (received rs))
    (happended : receiver.appended = emitted (received rs)) {batch : WireBatch K H D} (hview : OneView batch.logs) :
    ∃ rs', OnceEach sb rs' ∧ (sb.deliver receiver batch).lastSync = cursorAfter (received rs') ∧
      (sb.deliver receiver batch).appended = emitted (received rs') ∧
      (rs' = rs ∨ ∃ r, rs' = rs ++ [⟨batch, r⟩]) := by
  unfold StreamBuilder.deliver
  cases hreceive : sb.receive receiver.lastSync batch with
  | error error => exact ⟨rs, h, hlast, happended, Or.inl rfl⟩
  | ok r =>
    dsimp only
    by_cases hcopy : ∃ last ∈ rs.getLast?, last.batch = batch
    · obtain ⟨last, hmem, rfl⟩ := hcopy
      obtain ⟨front, rfl⟩ := List.getLast?_eq_some_iff.1 hmem
      obtain ⟨-, hok⟩ := h.accepted.step (List.prefix_refl _)
      rw [received_concat, cursorAfter_concat] at hlast
      -- the copy of the last batch says nothing
      have hagain := receive_again hview hok
      rw [← hlast, hreceive] at hagain
      split at hagain
      · cases hagain
        refine ⟨_, h, ?_, ?_, Or.inl rfl⟩
        · rw [received_concat, cursorAfter_concat, hlast]
        · rw [List.append_nil, happended]
      · cases hagain
    · refine ⟨rs ++ [⟨batch, r⟩], ⟨h.accepted.receive (by rw [← hlast, hreceive]), ?_, ?_⟩, ?_, ?_, Or.inr ⟨r, rfl⟩⟩
      · rw [List.map_append, List.map_singleton, List.isChain_append]
        refine ⟨h.apart, List.IsChain.singleton _, fun x hx y hy => ?_⟩
        rw [List.getLast?_map, Option.mem_def, Option.map_eq_some_iff] at hx
        obtain ⟨last, hmem, rfl⟩ := hx
        obtain rfl : batch = y := by simpa using hy
        exact fun heq => hcopy ⟨last, hmem, heq⟩
      · intro s hs
        rcases List.mem_append.1 hs with hs | hs
        · exact h.views s hs
        · rw [List.mem_singleton.1 hs]
          exact hview
      · rw [received_concat, cursorAfter_concat]
      · rw [received_concat, emitted_concat, happended]

/-- A number the receiver has answered, or would have: where it expected the next batch after some of the arrivals. -/
def StreamBuilder.Given (sb : StreamBuilder K) (arrivals : List (WireBatch K H D)) (fromBlock : ℕ) : Prop :=
  ∃ earlier, earlier <+: arrivals ∧ fromBlock = sb.expectedFromBlock (sb.after earlier)

theorem StreamBuilder.Given.mono {arrivals arrivals' : List (WireBatch K H D)} {n : ℕ} (h : sb.Given arrivals n)
    (hle : arrivals <+: arrivals') : sb.Given arrivals' n := by
  obtain ⟨earlier, hearlier, rfl⟩ := h
  exact ⟨earlier, hearlier.trans hle, rfl⟩

theorem StreamBuilder.after_concat (arrivals : List (WireBatch K H D)) (batch : WireBatch K H D) :
    sb.after (arrivals ++ [batch]) = sb.deliver (sb.after arrivals) batch := by
  unfold StreamBuilder.after
  rw [List.foldl_append]
  rfl

/-- What a sender goes by: answers of the receiver, and no more corrections than it may follow. -/
def Sender.Ok (sb : StreamBuilder K) (maxCorrectionsPerCycle : ℕ) (w : Wire K H D) (s : Sender K H D) : Prop :=
  (∀ n ∈ s.expectedFromBlockHint, sb.Given w.arrivals n) ∧
    match s.cycle with
    | .idle => True
    | .asking answer => ∀ n ∈ answer, sb.Given w.arrivals n
    | .fetching fromBlock corrections => sb.Given w.arrivals fromBlock ∧ corrections ≤ maxCorrectionsPerCycle
    | .pushing batch corrections => batch ∈ w.sent ∧ corrections ≤ maxCorrectionsPerCycle

/-- The receiver has what the arrivals left and what it has stored of the batch it is at, which it derived from the cursor
the arrivals left. -/
structure Wire.Settled (sb : StreamBuilder K) (w : Wire K H D) : Prop where
  cursor : w.receiver.lastSync = (sb.after w.arrivals).lastSync
  stream : w.receiver.appended = (sb.after w.arrivals).appended ++ w.ahead
  derived : ∀ h ∈ w.handling, h.batch ∈ w.sent ∧ sb.receive (sb.after w.arrivals).lastSync h.batch = .ok h.delta
  alone : w.handling.length ≤ 1

/-- **What every step keeps.** -/
structure Wire.Ok (sb : StreamBuilder K) (maxCorrectionsPerCycle : ℕ) (w : Wire K H D) : Prop where
  senders : ∀ i, (w.senders i).Ok sb maxCorrectionsPerCycle w
  sent : ∀ batch ∈ w.sent, sb.Given w.arrivals batch.fromBlock ∧ OneView batch.logs
  arrivals : ∀ batch ∈ w.arrivals, batch ∈ w.sent
  answers : ∀ answer ∈ w.answers, sb.Given w.arrivals answer.2.expectedFromBlock
  settled : w.Settled sb

theorem Sender.Ok.mono {s : Sender K H D} (h : s.Ok sb maxCorrectionsPerCycle w) (hsent : w.sent ⊆ w'.sent)
    (harrivals : w.arrivals <+: w'.arrivals) : s.Ok sb maxCorrectionsPerCycle w' := by
  refine ⟨fun n hn => (h.1 n hn).mono harrivals, ?_⟩
  have hcycle := h.2
  split at hcycle
  · trivial
  · exact fun n hn => (hcycle n hn).mono harrivals
  · exact ⟨hcycle.1.mono harrivals, hcycle.2⟩
  · exact ⟨hsent hcycle.1, hcycle.2⟩

/-- One sender moves, over a wire that only grows. -/
theorem Wire.Ok.move (h : w.Ok sb maxCorrectionsPerCycle) (hsent : w.sent ⊆ w'.sent) (harrivals : w.arrivals <+: w'.arrivals)
    {i : ℕ} {s : Sender K H D} (hw : w'.senders = Function.update w.senders i s)
    (hs : s.Ok sb maxCorrectionsPerCycle w') (j : ℕ) : (w'.senders j).Ok sb maxCorrectionsPerCycle w' := by
  rw [hw]
  by_cases hj : j = i
  · rw [hj, Function.update_self]
    exact hs
  · rw [Function.update_of_ne hj]
    exact (h.senders j).mono hsent harrivals

/-- The receiver moves, and is done with one more batch or with none. -/
theorem Wire.Ok.receive (h : w.Ok sb maxCorrectionsPerCycle) (hsent : w'.sent = w.sent) (hsenders : w'.senders = w.senders)
    (harrivals : w.arrivals <+: w'.arrivals) (hdone : ∀ batch ∈ w'.arrivals, batch ∈ w.sent)
    (hanswers : ∀ answer ∈ w'.answers, answer ∈ w.answers ∨ sb.Given w'.arrivals answer.2.expectedFromBlock)
    (hsettled : w'.Settled sb) : w'.Ok sb maxCorrectionsPerCycle := by
  refine ⟨fun i => ?_, fun batch hbatch => ?_, ?_, fun answer hanswer => ?_, hsettled⟩
  · rw [hsenders]
    exact (h.senders i).mono (fun batch hbatch => hsent ▸ hbatch) harrivals
  · obtain ⟨hgiven, hview⟩ := h.sent batch (hsent ▸ hbatch)
    exact ⟨hgiven.mono harrivals, hview⟩
  · rw [hsent]
    exact hdone
  · rcases hanswers answer hanswer with hbefore | hnow
    · exact (h.answers answer hbefore).mono harrivals
    · exact hnow

/-- The receiver is at no batch but this one. -/
theorem Wire.Settled.only (h : w.Settled sb) {before after : List (Handling K H D)} {x : Handling K H D}
    (hat : w.handling = before ++ x :: after) : before = [] ∧ after = [] := by
  have halone := h.alone
  rw [hat, List.length_append, List.length_cons] at halone
  exact ⟨List.length_eq_zero_iff.1 (by omega), List.length_eq_zero_iff.1 (by omega)⟩

/-- **A step of the receiver keeps it.** -/
theorem Wire.Step.ok_receiver {move : WireMove} (step : w.Step sb maxCorrectionsPerCycle move w') (hmove : move ≠ .sender)
    (careful : move.Careful w) (h : w.Ok sb maxCorrectionsPerCycle) : w'.Ok sb maxCorrectionsPerCycle := by
  have hs := h.settled
  have hcursor : ∀ n, sb.expectedFromBlock (sb.after w.arrivals) = n → sb.Given w.arrivals n := fun n hn =>
    ⟨w.arrivals, List.prefix_refl _, hn.symm⟩
  cases step with
  | arrive batch delta sent ok =>
    have hnone : w.handling = [] := careful
    refine h.receive rfl rfl (List.prefix_refl _) h.arrivals (fun _ ha => .inl ha) ⟨hs.cursor, ?_, ?_, ?_⟩
    · simpa [Wire.ahead, hnone] using hs.stream
    · intro x hx
      rw [hnone, List.nil_append, List.mem_singleton] at hx
      rw [hx, ← hs.cursor]
      exact ⟨sent, ok⟩
    · simp [hnone]
  | refuse batch error sent refused =>
    -- nothing is derived, so the batch counts as an arrival that changed nothing
    have hafter : sb.after (w.arrivals ++ [batch]) = sb.after w.arrivals := by
      rw [StreamBuilder.after_concat]
      unfold StreamBuilder.deliver
      rw [← hs.cursor, refused]
    refine h.receive rfl rfl (List.prefix_append _ _) ?_ ?_ ⟨?_, ?_, ?_, hs.alone⟩
    · intro b hb
      rcases List.mem_append.1 hb with hb | hb
      · exact h.arrivals b hb
      · rw [List.mem_singleton.1 hb]
        exact sent
    · intro answer hanswer
      rcases List.mem_append.1 hanswer with hbefore | hnow
      · exact .inl hbefore
      · obtain ⟨response, hresponse, rfl⟩ := List.mem_map.1 hnow
        rw [Option.mem_toList] at hresponse
        cases error with
        | unexpectedFromBlock error =>
          cases hresponse
          refine .inr ((hcursor _ ?_).mono (List.prefix_append _ _))
          unfold StreamBuilder.expectedFromBlock
          rw [← hs.cursor, ← receive_unexpected refused]
          rfl
        | _ => cases hresponse
    · rw [hafter]
      exact hs.cursor
    · rw [hafter]
      exact hs.stream
    · rw [hafter]
      exact hs.derived
  | store before after batch delta at_ =>
    obtain ⟨rfl, rfl⟩ := hs.only at_
    have hderived := hs.derived ⟨batch, delta, false⟩ (by simp [at_])
    refine h.receive rfl rfl (List.prefix_refl _) h.arrivals (fun _ ha => .inl ha) ⟨hs.cursor, ?_, ?_, by simp⟩
    · simpa [Wire.ahead, at_] using hs.stream
    · intro x hx
      rw [List.nil_append, List.mem_singleton] at hx
      rw [hx]
      exact hderived
  | fold before after batch delta at_ =>
    obtain ⟨rfl, rfl⟩ := hs.only at_
    obtain ⟨hsent, hok⟩ := hs.derived ⟨batch, delta, true⟩ (by simp [at_])
    have hafter : sb.after (w.arrivals ++ [batch]) =
        ⟨delta.newLastSync, (sb.after w.arrivals).appended ++ delta.eventStream⟩ := by
      rw [StreamBuilder.after_concat]
      unfold StreamBuilder.deliver
      rw [hok]
    refine h.receive rfl rfl (List.prefix_append _ _) ?_ ?_ ⟨?_, ?_, by simp, by simp⟩
    · intro b hb
      rcases List.mem_append.1 hb with hb | hb
      · exact h.arrivals b hb
      · rw [List.mem_singleton.1 hb]
        exact hsent
    · intro answer hanswer
      rcases List.mem_append.1 hanswer with hbefore | hnow
      · exact .inl hbefore
      · rw [List.mem_singleton.1 hnow]
        refine .inr ⟨_, List.prefix_refl _, ?_⟩
        rw [hafter]
        rfl
    · rw [hafter]
    · rw [hafter]
      simpa [Wire.ahead, at_] using hs.stream
  | fail before after batch delta at_ =>
    obtain ⟨rfl, rfl⟩ := hs.only at_
    refine h.receive rfl rfl (List.prefix_refl _) h.arrivals (fun _ ha => .inl ha) ⟨hs.cursor, ?_, by simp, by simp⟩
    simpa [Wire.ahead, at_] using hs.stream
  | failStored => exact careful.elim
  | _ => exact absurd rfl hmove

/-- **A step of a sender keeps it.** -/
theorem Wire.Step.ok_sender (step : w.Step sb maxCorrectionsPerCycle .sender w') (h : w.Ok sb maxCorrectionsPerCycle) :
    w'.Ok sb maxCorrectionsPerCycle := by
  have hcycle := fun i => (h.senders i).2
  have hhint := fun i => (h.senders i).1
  have hs := h.settled
  -- a step that moves one sender and nothing else
  have hset : ∀ (i : ℕ) (s : Sender K H D), s.Ok sb maxCorrectionsPerCycle w → (w.set i s).Ok sb maxCorrectionsPerCycle :=
    fun i s hs => ⟨h.move (List.Subset.refl _) (List.prefix_refl _) rfl hs, h.sent, h.arrivals, h.answers,
      ⟨h.settled.cursor, h.settled.stream, h.settled.derived, h.settled.alone⟩⟩
  cases step with
  | start i idle =>
    refine hset i _ ?_
    unfold Sender.start
    split
    · rename_i n hn
      exact ⟨hhint i, hhint i n hn, Nat.zero_le _⟩
    · exact ⟨hhint i, fun n hn => by cases hn⟩
  | asked i asking =>
    refine hset i _ ⟨hhint i, fun n hn => ?_⟩
    cases hn
    refine ⟨w.arrivals, List.prefix_refl _, ?_⟩
    unfold StreamBuilder.expectedFromBlock
    rw [hs.cursor]
  | told i fromBlock asking =>
    have hgiven := hcycle i
    rw [asking] at hgiven
    refine hset i _ ⟨fun n hn => ?_, hgiven fromBlock rfl, Nat.zero_le _⟩
    cases hn
    exact hgiven fromBlock rfl
  | upToDate i fromBlock corrections fetching => exact hset i _ ⟨hhint i, trivial⟩
  | fetched i batch corrections fetching wellFormed view =>
    have hgiven := hcycle i
    rw [fetching] at hgiven
    refine ⟨h.move (List.subset_append_left _ _) (List.prefix_refl _) rfl
      ⟨hhint i, List.mem_append_right _ (List.mem_singleton_self _), hgiven.2⟩, ?_, ?_, h.answers,
      ⟨hs.cursor, hs.stream, fun x hx => ?_, hs.alone⟩⟩
    · intro b hb
      rcases List.mem_append.1 hb with hb | hb
      · exact h.sent b hb
      · rw [List.mem_singleton.1 hb]
        exact ⟨hgiven.1, view⟩
    · exact fun b hb => List.mem_append_left _ (h.arrivals b hb)
    · exact ⟨List.mem_append_left _ (hs.derived x hx).1, (hs.derived x hx).2⟩
  | answered i batch corrections response pushing answer =>
    have hpushing := hcycle i
    rw [pushing] at hpushing
    have hresponse := h.answers _ answer
    refine hset i _ ?_
    cases response with
    | accepted n =>
      refine ⟨fun m hm => ?_, trivial⟩
      cases hm
      exact hresponse
    | refused n =>
      refine ⟨fun m hm => ?_, ?_⟩
      · cases hm
        exact hresponse
      · unfold Sender.settle
        dsimp only
        by_cases hmax : corrections + 1 > maxCorrectionsPerCycle
        · rw [if_pos hmax]
          trivial
        · rw [if_neg hmax]
          exact ⟨hresponse, by omega⟩
  | failed i =>
    refine hset i _ ?_
    unfold Sender.fail
    split
    · exact ⟨fun n hn => (by cases hn), trivial⟩
    · exact ⟨hhint i, trivial⟩

/-- **In every reachable state** the senders go by answers of the receiver, and the receiver has what its arrivals left. -/
theorem Wire.Reach.ok (reach : w.Reach sb maxCorrectionsPerCycle) : w.Ok sb maxCorrectionsPerCycle := by
  induction reach with
  | initial =>
    refine ⟨fun _ => ⟨fun n hn => (by cases hn), trivial⟩, ?_, ?_, ?_, ⟨rfl, rfl, ?_, ?_⟩⟩ <;> simp [Wire.initial]
  | @step w w' move reach step careful ih =>
    by_cases hmove : move = .sender
    · subst hmove
      exact step.ok_sender ih
    · exact step.ok_receiver hmove careful ih

end Steps

end Etherfold
