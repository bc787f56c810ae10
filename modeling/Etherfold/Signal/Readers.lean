import Etherfold.Ledger.Along
import Etherfold.Signal.StateMoved

/-!
# Readers that follow the two-line rule

A reader compares the token with the one it holds: another token, and everything it read is
invalid; the same token, and the entities the notification names are. Notifications may be
lost, and an entity is read again whenever the reader likes.

* `Delivery.Fresh`: what a reader that holds the token in force can rely on.
* `Delivery.next_fresh`: every step keeps it, a discard that discards a row aside.
* `converges_iff`: **a reader converges exactly when no entity that only lost notifications
  named has other rows, and no discard discards a row**.
-/

namespace Etherfold

variable {G X H C : Type}

/-- What a reader keeps: the token, what it last read of each entity, and what it knows to be
out of date. -/
structure StateReader (X : Type) where
  held : Option ℕ
  lastRead : String → EntityId → Except EntityError (Option (Record X))
  invalidated : String → Bool

/-- **The two-line rule.** -/
def StateReader.receive (r : StateReader X) (moved : StateMoved G H) : StateReader X :=
  if some moved.coherence ≠ r.held then
    { r with held := some moved.coherence, invalidated := fun _ => true }
  else { r with invalidated := fun entity => r.invalidated entity || moved.entities.contains entity }

theorem StateReader.invalidated_of_ne {r : StateReader X} {moved : StateMoved G H}
    (h : some moved.coherence ≠ r.held) (entity : String) : (r.receive moved).invalidated entity = true := by
  unfold receive
  rw [if_pos h]

theorem StateReader.receive_of_eq {r : StateReader X} {moved : StateMoved G H}
    (h : some moved.coherence = r.held) : r.receive moved =
      { r with invalidated := fun entity => r.invalidated entity || moved.entities.contains entity } := by
  unfold receive
  rw [if_neg fun hne => hne h]

theorem StateReader.held_receive (r : StateReader X) (moved : StateMoved G H) :
    (r.receive moved).held = some moved.coherence ∧ (r.receive moved).lastRead = r.lastRead := by
  unfold receive
  split
  · exact ⟨rfl, rfl⟩
  · rename_i h
    exact ⟨(not_not.1 h).symm, rfl⟩

/-- A container and one of its readers. `missed` are the entities a lost notification named
since they were last read or invalidated. -/
structure Delivery (G X H C : Type) where
  container : FoldContainer G X H C
  reader : StateReader X
  missed : String → Bool

/-- The container moves and what it publishes is received or lost; or the reader reads an
entity again. -/
inductive DeliveryEvent (G X H C : Type) where
  | moves (step : ContainerStep G X H C) (received : Bool)
  | rereads (entity : String)

namespace Delivery

/-- A reader that has just read everything, with the token in force or with none yet. -/
def start (c : FoldContainer G X H C) (knowsToken : Bool) : Delivery G X H C :=
  ⟨c, ⟨if knowsToken then some c.stateMoved.coherence else none, c.rowsOf, fun _ => false⟩, fun _ => false⟩

variable [DecidableEq G] [DecidableEq H]

def next (w : Delivery G X H C) : DeliveryEvent G X H C → Delivery G X H C
  | .moves st received =>
    match w.container.step st with
    | (c, none) => { w with container := c }
    | (c, some moved) =>
      if received then
        let reader := w.reader.receive moved
        ⟨c, reader, fun entity => w.missed entity && !reader.invalidated entity⟩
      else ⟨c, w.reader, fun entity => w.missed entity || moved.entities.contains entity⟩
  | .rereads entity =>
    ⟨w.container,
      { w.reader with
        lastRead := Function.update w.reader.lastRead entity (w.container.rowsOf entity)
        invalidated := Function.update w.reader.invalidated entity false },
      Function.update w.missed entity false⟩

/-- **Whatever the reader receives, it then knows of every entity whose rows have changed since
it read them.** -/
def Converges (w : Delivery G X H C) : DeliveryEvent G X H C → Prop
  | .moves st true => ∀ moved, (w.container.step st).2 = some moved → ∀ entity id,
    (w.container.step st).1.rowsOf entity id ≠ w.reader.lastRead entity id →
      (w.reader.receive moved).invalidated entity = true
  | _ => True

/-- **What changes the rows of an entity rotates the token**, or is a block that names it. -/
def Rotates (w : Delivery G X H C) : DeliveryEvent G X H C → Prop
  | .moves st _ => ∀ entity id, (w.container.step st).1.rowsOf entity id ≠ w.container.rowsOf entity id →
    (w.container.step st).1.stateMoved ≠ w.container.stateMoved ∨
      ∃ moved, (w.container.step st).2 = some moved ∧ entity ∈ moved.entities
  | .rereads _ => True

/-- An entity that only lost notifications named has the rows it was read with, when the next
notification arrives under the token the reader holds. -/
def Repaired (w : Delivery G X H C) : DeliveryEvent G X H C → Prop
  | .moves st true => ∀ moved, (w.container.step st).2 = some moved → some moved.coherence = w.reader.held →
    ∀ entity, w.missed entity = true → w.reader.invalidated entity = false → entity ∉ moved.entities →
      ∀ id, (w.container.step st).1.rowsOf entity id = w.reader.lastRead entity id
  | _ => True

/-- No discard of the canonical fold discards a row. -/
def Harmless (w : Delivery G X H C) : DeliveryEvent G X H C → Prop
  | .moves st _ => w.container.Harmless st
  | .rereads _ => True

/-- **What a reader can rely on**: its token was published, and as long as it is in force,
what no notification named has the rows it was read with. -/
structure Fresh (w : Delivery G X H C) : Prop where
  published : ∀ token ∈ w.reader.held, token ≤ w.container.stateMoved.coherence
  rows : w.reader.held = some w.container.stateMoved.coherence → ∀ entity, w.missed entity = false →
    w.reader.invalidated entity = false → ∀ id, w.container.rowsOf entity id = w.reader.lastRead entity id

omit [DecidableEq G] [DecidableEq H] in
theorem fresh_start (c : FoldContainer G X H C) (knowsToken : Bool) : (start c knowsToken).Fresh := by
  refine ⟨fun token htoken => ?_, fun _ _ _ _ _ => rfl⟩
  cases knowsToken with
  | false => cases htoken
  | true =>
    cases htoken
    exact le_refl _

variable {w : Delivery G X H C}

theorem next_published {st : ContainerStep G X H C} {moved : StateMoved G H}
    (h : (w.container.step st).2 = some moved) (received : Bool) :
    w.next (.moves st received) =
      if received then ⟨(w.container.step st).1, w.reader.receive moved,
        fun entity => w.missed entity && !(w.reader.receive moved).invalidated entity⟩
      else ⟨(w.container.step st).1, w.reader, fun entity => w.missed entity || moved.entities.contains entity⟩ := by
  have hstep : w.container.step st = ((w.container.step st).1, some moved) := Prod.ext rfl h
  rw [next, hstep]

/-- A step that publishes nothing leaves the reader as it was. -/
theorem next_quiet {st : ContainerStep G X H C} (h : (w.container.step st).2 = none) (received : Bool) :
    w.next (.moves st received) = { w with container := (w.container.step st).1 } := by
  have hstep : w.container.step st = ((w.container.step st).1, none) := Prod.ext rfl h
  rw [next, hstep]

/-- **Every step keeps what the reader relies on**, a discard that discards a row aside. -/
theorem next_fresh (hw : w.Fresh) {event : DeliveryEvent G X H C} (hevent : w.Harmless event) :
    (w.next event).Fresh := by
  cases event with
  | rereads entity =>
    refine ⟨hw.published, fun hheld e hmissed hinvalid id => ?_⟩
    show w.container.rowsOf e id = Function.update w.reader.lastRead entity (w.container.rowsOf entity) e id
    by_cases he : e = entity
    · subst he
      rw [Function.update_self]
    · rw [Function.update_of_ne he]
      change Function.update w.missed entity false e = false at hmissed
      change Function.update w.reader.invalidated entity false e = false at hinvalid
      rw [Function.update_of_ne he] at hmissed hinvalid
      exact hw.rows hheld e hmissed hinvalid id
  | moves st received =>
    rcases w.container.step_cases st with ⟨hnone, htoken, hsame⟩ | ⟨moved, hmoved, htoken, -, hcoherence, hframe⟩ |
      ⟨moved, hmoved, -, htoken, hcoherence⟩
    · -- nothing goes out: either nothing changed, or a discard that found no row
      have hrows : ∀ entity id, (w.container.step st).1.rowsOf entity id = w.container.rowsOf entity id :=
        hsame.elim (FoldContainer.harmless_iff.1 hevent) id
      rw [next_quiet hnone]
      refine ⟨fun token hheld => ?_, fun hheld entity hmissed hinvalid id => ?_⟩
      · rw [htoken]
        exact hw.published token hheld
      · rw [htoken] at hheld
        exact (hrows entity id).trans (hw.rows hheld entity hmissed hinvalid id)
    · -- a block under the token in force, and the entities it names
      rw [next_published hmoved]
      cases received with
      | false =>
        refine ⟨fun token hheld => ?_, fun hheld entity hmissed hinvalid id => ?_⟩
        · show token ≤ (w.container.step st).1.stateMoved.coherence
          rw [htoken]
          exact hw.published token hheld
        · obtain ⟨hmissed, hnamed⟩ := Bool.or_eq_false_iff.1 hmissed
          have hout : entity ∉ moved.entities := by simpa using hnamed
          have hheld' : w.reader.held = some w.container.stateMoved.coherence := hheld.trans (by rw [← htoken]; rfl)
          exact (hframe entity hout id).trans (hw.rows hheld' entity hmissed hinvalid id)
      | true =>
        have hheld := w.reader.held_receive moved
        refine ⟨fun token htoken' => ?_, fun _ entity hmissed hinvalid id => ?_⟩
        · change token ∈ (w.reader.receive moved).held at htoken'
          rw [hheld.1, Option.mem_some_iff] at htoken'
          show token ≤ (w.container.step st).1.stateMoved.coherence
          rw [htoken]
          omega
        · change (w.reader.receive moved).invalidated entity = false at hinvalid
          by_cases hsame : some moved.coherence = w.reader.held
          · change (w.missed entity && !(w.reader.receive moved).invalidated entity) = false at hmissed
            rw [hinvalid, Bool.not_false, Bool.and_true] at hmissed
            rw [StateReader.receive_of_eq hsame] at hinvalid
            obtain ⟨hinvalid, hnamed⟩ := Bool.or_eq_false_iff.1 hinvalid
            have hout : entity ∉ moved.entities := by simpa using hnamed
            rw [hcoherence] at hsame
            show (w.container.step st).1.rowsOf entity id = (w.reader.receive moved).lastRead entity id
            rw [hheld.2]
            exact (hframe entity hout id).trans (hw.rows hsame.symm entity hmissed hinvalid id)
          · rw [StateReader.invalidated_of_ne hsame] at hinvalid
            cases hinvalid
    · -- a new token: the reader that holds an older one is told at the latest by the next notification
      rw [next_published hmoved]
      cases received with
      | false =>
        refine ⟨fun token hheld => ?_, fun hheld => ?_⟩
        · show token ≤ (w.container.step st).1.stateMoved.coherence
          have hle := hw.published token hheld
          omega
        · have hle := hw.published _ hheld
          change (w.container.step st).1.stateMoved.coherence ≤ _ at hle
          omega
      | true =>
        have hheld := w.reader.held_receive moved
        refine ⟨fun token htoken' => ?_, fun _ entity _ hinvalid => ?_⟩
        · change token ∈ (w.reader.receive moved).held at htoken'
          rw [hheld.1, Option.mem_some_iff] at htoken'
          show token ≤ (w.container.step st).1.stateMoved.coherence
          omega
        · have hne : some moved.coherence ≠ w.reader.held := by
            intro heq
            have hle := hw.published moved.coherence heq.symm
            omega
          change (w.reader.receive moved).invalidated entity = false at hinvalid
          rw [StateReader.invalidated_of_ne hne] at hinvalid
          cases hinvalid

/-- Discards alone change rows behind the token in force. -/
theorem rotates_iff_harmless (event : DeliveryEvent G X H C) : w.Rotates event ↔ w.Harmless event := by
  cases event with
  | rereads entity => exact Iff.rfl
  | moves st received =>
    show (∀ entity id, _ → _) ↔ w.container.Harmless st
    rw [FoldContainer.harmless_iff]
    rcases w.container.step_cases st with ⟨hnone, htoken, hsame⟩ | ⟨moved, hmoved, -, hquiet, -, hframe⟩ |
      ⟨moved, hmoved, hquiet, htoken, -⟩
    · rw [hnone, htoken]
      refine ⟨fun hrotates _ entity id => ?_, fun hkeeps entity id hne => ?_⟩
      · by_contra hne
        rcases hrotates entity id hne with hrotated | ⟨moved, hmoved, -⟩
        · exact hrotated rfl
        · cases hmoved
      · exact absurd (hsame.elim (fun h => hkeeps h entity id) fun h => h entity id) hne
    · refine ⟨fun _ hdiscards => absurd hdiscards hquiet, fun _ entity id hne => .inr ⟨moved, hmoved, ?_⟩⟩
      by_contra hout
      exact hne (hframe entity hout id)
    · refine ⟨fun _ hdiscards => absurd hdiscards hquiet, fun _ entity id _ => .inl fun heq => ?_⟩
      rw [heq] at htoken
      omega

/-- **What the reader is not told by a notification, only lost ones named.** -/
theorem converges_iff_repaired (hw : w.Fresh) (event : DeliveryEvent G X H C) :
    w.Converges event ↔ w.Repaired event := by
  cases event with
  | rereads entity => exact Iff.rfl
  | moves st received =>
    cases received with
    | false => exact Iff.rfl
    | true =>
      refine forall_congr' fun moved => forall_congr' fun hmoved => ?_
      constructor
      · intro hconverges hsame entity _ hvalid hout id
        by_contra hne
        have hknown := hconverges entity id hne
        rw [StateReader.receive_of_eq hsame] at hknown
        change (w.reader.invalidated entity || moved.entities.contains entity) = true at hknown
        rw [hvalid, Bool.false_or, List.contains_iff_mem] at hknown
        exact hout hknown
      · intro hrepaired entity id hne
        by_contra hunknown
        rw [Bool.not_eq_true] at hunknown
        by_cases hsame : some moved.coherence = w.reader.held
        · have hnamed := hunknown
          rw [StateReader.receive_of_eq hsame] at hnamed
          obtain ⟨hvalid, hnamed⟩ := Bool.or_eq_false_iff.1 hnamed
          have hout : entity ∉ moved.entities := by simpa using hnamed
          cases hmissed : w.missed entity with
          | true => exact hne (hrepaired hsame entity hmissed hvalid hout id)
          | false =>
            -- never named since it was read: its rows are those of the state before, and a block keeps them
            rcases w.container.step_cases st with ⟨hnone, -, -⟩ | ⟨moved', hmoved', -, -, hcoherence, hframe⟩ |
              ⟨moved', hmoved', -, -, hcoherence⟩
            · rw [hnone] at hmoved
              cases hmoved
            · rw [hmoved] at hmoved'
              injection hmoved' with hmoved'
              subst hmoved'
              rw [hcoherence] at hsame
              exact hne ((hframe entity hout id).trans (hw.rows hsame.symm entity hmissed hvalid id))
            · rw [hmoved] at hmoved'
              injection hmoved' with hmoved'
              subst hmoved'
              have hle := hw.published moved.coherence hsame.symm
              omega
        · rw [StateReader.invalidated_of_ne hsame] at hunknown
          cases hunknown

end Delivery

/-- **A reader converges in every run, and every change that no block names rotates the token,
exactly when** no entity that only lost notifications named has other rows when the next one
arrives under the same token, and no discard of the canonical fold discards a row. -/
theorem converges_iff [DecidableEq G] [DecidableEq H] (c : FoldContainer G X H C) (knowsToken : Bool)
    (events : List (DeliveryEvent G X H C)) :
    Run.Along Delivery.next (fun w event => w.Converges event ∧ w.Rotates event) (Delivery.start c knowsToken) events ↔
      Run.Along Delivery.next (fun w event => w.Repaired event ∧ w.Harmless event) (Delivery.start c knowsToken)
        events := by
  apply Run.along_iff _ _ (Delivery.fresh_start c knowsToken)
  · intro w event hw
    exact and_congr (Delivery.converges_iff_repaired hw event) (Delivery.rotates_iff_harmless event)
  · intro w event hw h
    exact Delivery.next_fresh hw h.2

/-- A second entity beside the coin. -/
def note : NormalizedEntity :=
  { coin with name := "note" }

/-- One generation, over nothing. -/
def coinContainer : FoldContainer Unit Unit ℕ Unit := ⟨(), fun _ => ⟨[coin, note], emptyStore⟩, ⟨0⟩⟩

/-- A block that writes one entity. -/
def writesOne (number : ℕ) (entity : String) : ContainerStep Unit Unit ℕ Unit :=
  .applyBlock () ⟨⟨number, number⟩, [.upsert entity [("id", [65])] [("value", .number number)]], none⟩

/-- Block 1 writes the coin and the notification is lost; block 2 writes the note. -/
def lostAppend : List (DeliveryEvent Unit Unit ℕ Unit) :=
  [.moves (writesOne 1 "coin") false, .moves (writesOne 2 "note") true]

/-- Every notification arrives, and between them the fold is reset. -/
def silentReset : List (DeliveryEvent Unit Unit ℕ Unit) :=
  [.moves (writesOne 1 "coin") true, .rereads "coin", .moves (.reset ()) true, .moves (writesOne 2 "note") true]

/-- The lost block leaves the coin as it was read before it; the reset leaves the coin that was
discarded, with no notification lost. -/
theorem stale_reads :
    ¬Run.Along Delivery.next (fun w event => w.Converges event ∧ w.Rotates event) (Delivery.start coinContainer true)
        lostAppend ∧
      ¬Run.Along Delivery.next (fun w event => w.Converges event) (Delivery.start coinContainer true) silentReset := by
  constructor
  · intro h
    have hlast := h.2.1.1 (.applied 2 2 0 ["note"] ()) (by rfl) "coin" [("id", [65])]
    revert hlast
    decide
  · intro h
    have hlast := h.2.2.2.1 (.applied 2 2 0 ["note"] ()) (by rfl) "coin" [("id", [65])]
    revert hlast
    decide

end Etherfold
