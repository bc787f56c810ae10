import Etherfold.Ledger.Along
import Etherfold.Generation.Indexer

/-!
# The generation that answers is held

The registry's pointer moves when a move is written, and the read path follows when it is
applied. What a promotion superseded leaves the held folds before its record goes.

* `Answers`, `DropsRight`: what a reader of the container counts on.
* `Careful`: the checks the container does not make when a call goes on.
* `Anchored`: what every careful step keeps.
* `never_dropped`: **in every careful run the generation that answers is held, registered and
  canonical, and a promotion deletes only behind a successor that stands**.
-/

namespace Etherfold

namespace IndexerCall

/-- The fold a written move has still to make current. -/
def applies : IndexerCall → Option HeldEntry
  | .applying entry _ _ _ => some entry
  | _ => none

/-- What a drop under way deletes, and for what. -/
def deletes : IndexerCall → Option (HeldEntry × HeldEntry)
  | .deleting superseded successor _ => some (superseded, successor)
  | _ => none

end IndexerCall

namespace Indexer

variable (o : IndexerOptions) (w : Indexer)

abbrev canonical : Option GenerationId := w.records.slots .canonical

def Registered (id : GenerationId) : Prop := ∃ g ∈ w.records.snapshot.generations, g.id = id

instance (id : GenerationId) : Decidable (w.Registered id) := by
  unfold Registered
  infer_instance

/-- No move is between its write and the notification that applies it. -/
def Settled : Prop := ∀ call ∈ w.calls, call.applies = none

instance : Decidable w.Settled := inferInstanceAs (Decidable (∀ call ∈ w.calls, call.applies = none))

/-- **The generation that answers** is held, so that it is advanced, is registered, and is the one
the canonical slot names. -/
def Answers : Prop :=
  w.Settled → ∀ current ∈ w.current, current ∈ w.held ∧ w.Registered current.record.id ∧
    w.canonical = some current.record.id

instance : Decidable w.Answers :=
  inferInstanceAs (Decidable (w.Settled → ∀ current ∈ w.current, current ∈ w.held ∧
    w.Registered current.record.id ∧ w.canonical = some current.record.id))

/-- The drop a call begins when it goes on: what was superseded, by what, and the cursor it had. -/
def begun (call : ℕ) : Option (HeldEntry × HeldEntry × Option ℕ) :=
  match w.calls[call]? with
  | some (.applying entry (some left) wasPromotion _) =>
    if left ≠ entry ∧ o.promotion.dropOnPromotion ∧ wasPromotion ∧ o.promotion.policy ≠ .immediate ∧
        w.Begins o left entry then
      some (left, entry, w.lastSync left.key)
    else none
  | some (.resuming (.continues (deferred :: _))) =>
    if hasReachedCursor (w.lastSync deferred.successor.key) (some deferred.cursor) ∧
        w.Begins o deferred.superseded deferred.successor then
      some (deferred.superseded, deferred.successor, some deferred.cursor)
    else none
  | _ => none

/-- A cursor has reached another; one that has folded nothing is reached by all. -/
def reached (cursor target : Option ℕ) : Bool := target.all fun n => hasReachedCursor cursor (some n)

/-- **A promotion drops only behind a successor**: its cursor has reached the superseded one's when
the drop begins, and it is canonical when the record goes. -/
def DropsRight : IndexerStep → Prop
  | .next call _ _ =>
    (∀ drop ∈ w.begun o call, reached (w.lastSync drop.2.1.key) drop.2.2) ∧
      match w.calls[call]? with
      | some (.deleting superseded successor _) =>
        (w.records.deleteGeneration superseded.record.id false).1.isOk →
          w.canonical = some successor.record.id
      | _ => True
  | _ => True

/-- **What the container does not check**: that a drop is of what the canonical generation
superseded, that a move's target is still held and no drop is under way when it is written, that
moves are applied in the order they were written and one that drops at once has made up for what it
drops, and that what is no longer driven did not become canonical meanwhile. -/
def Careful : IndexerStep → Prop
  | .next call _ _ =>
    (∀ drop ∈ w.begun o call, w.canonical = some drop.2.1.record.id ∧ w.canonical ≠ some drop.1.record.id) ∧
      match w.calls[call]? with
      | some (.writing entry _ _ _) =>
        (w.records.moveCanonicalTo entry.record.id false).1.isOk → entry ∈ w.held ∧
          (w.canonical ≠ some entry.record.id → ∀ other ∈ w.calls, other.deletes = none)
      | some (.applying entry _ _ _) =>
        ((w.canonical = some entry.record.id ∧ entry ∈ w.held) ∨
          ∃ other ∈ w.calls.set call .idle, ∃ later ∈ other.applies,
            w.canonical = some later.record.id ∧ later ∈ w.held) ∧
        ∀ drop ∈ w.begun o call, reached (w.lastSync drop.2.1.key) drop.2.2
      | some (.removed _ record _ _) => w.canonical ≠ some record.id
      | _ => True
  | _ => True

instance (step : IndexerStep) : Decidable (w.DropsRight o step) := by
  unfold DropsRight
  split
  · split <;> infer_instance
  · infer_instance

instance (step : IndexerStep) : Decidable (w.Careful o step) := by
  unfold Careful
  split
  · split <;> infer_instance
  · infer_instance

/-! ### What every careful step keeps -/

/-- The generation is current or about to be, and is held. -/
def Holds (id : GenerationId) : Prop :=
  ∃ entry ∈ w.held, entry.record.id = id ∧
    (w.current = some entry ∨ ∃ call ∈ w.calls, call.applies = some entry)

/-- **What is canonical is held**, and every drop under way is for what is canonical. Nothing
answers before the first move. -/
structure Anchored : Prop where
  anchored : (w.current = none ∧ w.Settled) ∨ ∃ id, w.canonical = some id ∧ w.Registered id ∧ w.Holds id
  dropping : ∀ call ∈ w.calls, ∀ drop ∈ call.deletes, w.canonical = some drop.2.record.id

variable {o w} {call : ℕ} {old state : IndexerCall}

theorem Anchored.answers (h : w.Anchored) : w.Answers := by
  intro hsettled current hcurrent
  rcases h.anchored with ⟨hnone, -⟩ | ⟨id, hcanonical, hregistered, entry, hheld, hid, hcur | ⟨call, hcall, happlies⟩⟩
  · rw [hnone] at hcurrent
    cases hcurrent
  · have heq : entry = current := Option.some.inj (hcur.symm.trans hcurrent)
    subst heq
    subst hid
    exact ⟨hheld, hregistered, hcanonical⟩
  · rw [hsettled call hcall] at happlies
    cases happlies

theorem mem_set_of_ne {calls : List IndexerCall} {c : IndexerCall} (hc : c ∈ calls) (hold : calls[call]? = some old)
    (hne : c ≠ old) : c ∈ calls.set call state := by
  obtain ⟨i, hi⟩ := List.mem_iff_getElem?.1 hc
  refine List.mem_iff_getElem?.2 ⟨i, ?_⟩
  rw [List.getElem?_set_ne, hi]
  intro heq
  rw [heq, hi] at hold
  exact hne (Option.some.inj hold)

/-- The call is in what state it was put. -/
theorem getElem?_setCall (h : w.calls[call]? = some old) : (w.setCall call state).calls[call]? = some state := by
  obtain ⟨hlt, -⟩ := List.getElem?_eq_some_iff.1 h
  show (w.calls.set call state)[call]? = some state
  rw [List.getElem?_set_self hlt]

/-- A call that goes on, and applied nothing. -/
theorem Anchored.setCall (h : w.Anchored) (hold : w.calls[call]? = some old) (happlies : old.applies = none)
    (hstate : state.applies = none) (hdeletes : ∀ drop ∈ state.deletes, w.canonical = some drop.2.record.id) :
    (w.setCall call state).Anchored := by
  refine ⟨?_, fun c hc drop hdrop => ?_⟩
  · rcases h.anchored with ⟨hnone, hsettled⟩ | ⟨id, hcanonical, hregistered, entry, hheld, hid, hwhere⟩
    · refine .inl ⟨hnone, fun c hc => ?_⟩
      rcases List.mem_or_eq_of_mem_set hc with hc | rfl
      · exact hsettled c hc
      · exact hstate
    · refine .inr ⟨id, hcanonical, hregistered, entry, hheld, hid, hwhere.imp_right ?_⟩
      rintro ⟨c, hc, happ⟩
      refine ⟨c, mem_set_of_ne hc hold ?_, happ⟩
      intro heq
      rw [heq, happlies] at happ
      cases happ
  · rcases List.mem_or_eq_of_mem_set hc with hc | rfl
    · exact h.dropping c hc drop hdrop
    · exact hdeletes drop hdrop

/-- A call that goes on, and neither applied nor begins anything. -/
theorem Anchored.quiet (h : w.Anchored) (hold : w.calls[call]? = some old) (happlies : old.applies = none)
    (hstate : state.applies = none) (hdeletes : state.deletes = none) : (w.setCall call state).Anchored := by
  refine h.setCall hold happlies hstate fun drop hdrop => ?_
  rw [hdeletes] at hdrop
  cases hdrop

/-- The records change, what is canonical aside. -/
theorem Anchored.records (h : w.Anchored) {records : GenerationRegistryRecords}
    (hkeep : ∀ id, w.canonical = some id → records.slots .canonical = some id ∧
      (w.Registered id → ∃ g ∈ records.snapshot.generations, g.id = id)) :
    Anchored { w with records := records } := by
  refine ⟨?_, fun c hc drop hdrop => (hkeep _ (h.dropping c hc drop hdrop)).1⟩
  rcases h.anchored with hidle | ⟨id, hcanonical, hregistered, hholds⟩
  · exact .inl hidle
  · obtain ⟨hsame, hreg⟩ := hkeep id hcanonical
    exact .inr ⟨id, hsame, hreg hregistered, hholds⟩

/-- The held folds change, what is canonical aside. -/
theorem Anchored.held (h : w.Anchored) {held : List HeldEntry}
    (hheld : ∀ entry ∈ w.held, w.canonical = some entry.record.id → entry ∈ held) : Anchored { w with held := held } := by
  refine ⟨?_, h.dropping⟩
  rcases h.anchored with hidle | ⟨id, hcanonical, hregistered, entry, hentry, hid, hwhere⟩
  · exact .inl hidle
  · refine .inr ⟨id, hcanonical, hregistered, entry, hheld entry hentry ?_, hid, hwhere⟩
    rw [hcanonical, hid]

theorem Anchored.settlePromotion (h : w.Anchored) (hold : w.calls[call]? = some old) (happlies : old.applies = none) :
    (w.settlePromotion call).Anchored := by
  unfold Indexer.settlePromotion
  split <;> exact h.quiet hold happlies rfl rfl

theorem Anchored.applyPolicyTo (h : w.Anchored) (hold : w.calls[call]? = some old) (happlies : old.applies = none)
    (entry : HeldEntry) : (w.applyPolicyTo o call entry).Anchored := by
  unfold Indexer.applyPolicyTo
  split
  · exact h.quiet hold happlies rfl rfl
  split
  · exact h.quiet hold happlies rfl rfl
  · have hcandidate : Anchored { w with candidate := Function.update w.candidate entry.key true } := ⟨h.anchored, h.dropping⟩
    exact hcandidate.settlePromotion hold happlies
  · exact h.quiet hold happlies rfl rfl

/-- **What is dropped is not what is canonical.** -/
theorem Anchored.dropSuperseded (h : w.Anchored) (hold : w.calls[call]? = some old) (happlies : old.applies = none)
    {superseded successor : HeldEntry} (rest : Continuation) (hcareful : w.Begins o superseded successor →
      w.canonical = some successor.record.id ∧ w.canonical ≠ some superseded.record.id) :
    (w.dropSuperseded o call superseded successor rest).Anchored := by
  unfold Indexer.dropSuperseded
  split
  · rename_i hbegins
    obtain ⟨hsuccessor, hother⟩ := hcareful hbegins
    have hdropped : Anchored { w with held := w.held.erase superseded } := by
      apply h.held
      intro entry hentry hcanonical
      refine (List.mem_erase_of_ne ?_).2 hentry
      rintro rfl
      exact hother hcanonical
    have hdeleting : (Indexer.setCall { w with held := w.held.erase superseded } call
        (.deleting superseded successor rest)).Anchored := by
      refine hdropped.setCall hold happlies rfl fun drop hdrop => ?_
      cases hdrop
      exact hsuccessor
    dsimp only
    -- what is handed over is no matter here
    split <;> exact ⟨hdeleting.anchored, hdeleting.dropping⟩
  · exact h.quiet hold happlies rfl rfl

theorem Anchored.arrangeDrop (h : w.Anchored) (hold : w.calls[call]? = some old) (happlies : old.applies = none)
    {superseded successor : HeldEntry} {wasPromotion : Bool} (rest : Continuation)
    (hcareful : o.promotion.dropOnPromotion → wasPromotion → o.promotion.policy ≠ .immediate →
      w.Begins o superseded successor →
        w.canonical = some successor.record.id ∧ w.canonical ≠ some superseded.record.id) :
    (w.arrangeDrop o call superseded successor wasPromotion rest).Anchored := by
  unfold Indexer.arrangeDrop
  split
  · exact h.quiet hold happlies rfl rfl
  rename_i hdrops
  obtain ⟨hon, hwas⟩ : o.promotion.dropOnPromotion = true ∧ wasPromotion = true := by simpa using hdrops
  split
  · have hresumed : (w.setCall call (.resuming rest)).Anchored :=
      h.quiet hold happlies rfl rfl
    exact ⟨hresumed.anchored, hresumed.dropping⟩
  · rename_i hpolicy
    exact h.dropSuperseded hold happlies rest (hcareful hon hwas hpolicy)

/-! ### The registry -/

theorem deleteGeneration_keeps (r : GenerationRegistryRecords) (id : GenerationId) (reapStream : Bool)
    {other : GenerationId} (hother : r.slots .canonical = some other) :
    (r.deleteGeneration id reapStream).2.slots .canonical = some other ∧
      ((∃ g ∈ r.snapshot.generations, g.id = other) →
        ∃ g ∈ (r.deleteGeneration id reapStream).2.snapshot.generations, g.id = other) := by
  rcases ReceivingIndexer.deleteGeneration_slots r id reapStream with hsame | ⟨hcanonical, hslots, hgenerations⟩
  · rw [hsame]
    exact ⟨hother, fun h => h⟩
  · have hne : other ≠ id := fun heq => hcanonical (heq ▸ hother)
    exact ⟨(hslots .canonical other).2 ⟨hother, hne⟩,
      fun ⟨g, hg, hgid⟩ => ⟨g, (hgenerations g).2 ⟨hg, hgid ▸ hne⟩, hgid⟩⟩

theorem create_keeps (r : GenerationRegistryRecords) (caps : GenerationCaps) (id : GenerationId) (now : ℤ)
    {other : GenerationId} (hother : r.slots .canonical = some other) :
    (r.create caps id (some .successor) none now).2.slots .canonical = some other ∧
      ((∃ g ∈ r.snapshot.generations, g.id = other) →
        ∃ g ∈ (r.create caps id (some .successor) none now).2.snapshot.generations, g.id = other) := by
  refine ⟨ReceivingIndexer.create_canonical hother caps id none now, fun ⟨g, hg, hgid⟩ => ⟨g, ?_, hgid⟩⟩
  cases hresult : (r.create caps id (some .successor) none now).1 with
  | error e =>
    rw [Registrar.create_error hresult]
    exact hg
  | ok record => exact ((Registrar.create_ok hresult).1 g).2 (.inl hg)

/-- What a move decides on is registered, and its write makes it canonical. -/
theorem movePlan_canonical {current : GenerationRegistryState} {wanted : GenerationId} {assignPredecessor : Bool}
    {record : GenerationRecord} {write : Option GenerationRegistryWrite}
    (h : movePlan wanted assignPredecessor current = .ok (record, write)) :
    (∃ g ∈ current.generations, g.id = wanted) ∧ (write = none → current.slots .canonical = some wanted) ∧
      ∀ w, write = some w → GenerationSlots.assigned current.slots w.slots .canonical = some wanted := by
  unfold movePlan at h
  split at h
  · cases h
  rename_i found hfind
  obtain ⟨hmem, rfl⟩ := find_generation hfind
  split at h
  · rename_i hset
    injection h with heq
    injection heq with _ hw
    subst hw
    exact ⟨⟨found, hmem, rfl⟩, fun _ => hset, fun w hw => (by cases hw)⟩
  · injection h with heq
    injection heq with _ hw
    subst hw
    refine ⟨⟨found, hmem, rfl⟩, fun hnone => (by cases hnone), fun w hw => ?_⟩
    injection hw with hw
    subst hw
    unfold GenerationSlots.assigned
    dsimp only
    split <;> split <;> (try split) <;> simp [SlotAssignment.set, Function.update_of_ne, Function.update_self]

/-- A move that is written leaves the target canonical and registered. -/
theorem moveCanonicalTo_ok {r : GenerationRegistryRecords} {id : GenerationId} {assignPredecessor : Bool}
    {record : GenerationRecord} (h : (r.moveCanonicalTo id assignPredecessor).1 = .ok record) :
    (r.moveCanonicalTo id assignPredecessor).2.slots .canonical = some id ∧
      ∃ g ∈ (r.moveCanonicalTo id assignPredecessor).2.snapshot.generations, g.id = id := by
  rw [(Registrar.moveCanonicalTo_records r id assignPredecessor).1]
  have hdecided : ∀ {found write}, (assertIdentity id >>= fun wanted => movePlan wanted assignPredecessor r.snapshot) =
      .ok (found, write) → movePlan id assignPredecessor r.snapshot = .ok (found, write) := by
    intro found write hplan
    obtain ⟨wanted, hid, hplan⟩ := bind_eq_ok.1 hplan
    rwa [assertIdentity_ok hid] at hplan
  unfold GenerationRegistryRecords.moveCanonicalTo at h ⊢
  split at h
  · cases h
  · rename_i hplan
    obtain ⟨hregistered, hset, -⟩ := movePlan_canonical (hdecided hplan)
    exact ⟨hset rfl, hregistered⟩
  · rename_i hplan
    obtain ⟨hregistered, -, hset⟩ := movePlan_canonical (hdecided hplan)
    exact ⟨hset _ rfl, hregistered⟩

/-! ### One step -/

/-- The generation is applied: the read path follows the pointer. -/
theorem Anchored.apply (h : w.Anchored) {entry : HeldEntry} {superseded : Option HeldEntry} {wasPromotion : Bool}
    {rest : Continuation} (hold : w.calls[call]? = some (.applying entry superseded wasPromotion rest))
    (hcareful : (w.canonical = some entry.record.id ∧ entry ∈ w.held) ∨
      ∃ other ∈ w.calls.set call .idle, ∃ later ∈ other.applies,
        w.canonical = some later.record.id ∧ later ∈ w.held) :
    Anchored ({ w with
      candidate := Function.update w.candidate entry.key false, current := some entry }.setCall call .idle) := by
  refine ⟨.inr ?_, fun c hc drop hdrop => ?_⟩
  · have hregistered : ∀ id, w.canonical = some id → w.Registered id := by
      intro id hid
      rcases h.anchored with ⟨-, hsettled⟩ | ⟨id', hid', hreg, -⟩
      · have happlies := hsettled _ (List.mem_of_getElem? hold)
        cases happlies
      · have heq : id' = id := Option.some.inj (hid'.symm.trans hid)
        exact heq ▸ hreg
    rcases hcareful with ⟨hcanonical, hheld⟩ | ⟨other, hother, later, hlater, hcanonical, hheld⟩
    · exact ⟨_, hcanonical, hregistered _ hcanonical, entry, hheld, rfl, .inl rfl⟩
    · exact ⟨_, hcanonical, hregistered _ hcanonical, later, hheld, rfl, .inr ⟨other, hother, hlater⟩⟩
  · rcases List.mem_or_eq_of_mem_set hc with hc | rfl
    · exact h.dropping c hc drop hdrop
    · cases hdrop

theorem dropSuperseded_setCall (superseded successor : HeldEntry) (rest : Continuation) :
    (w.setCall call state).dropSuperseded o call superseded successor rest =
      w.dropSuperseded o call superseded successor rest := by
  have hbegins : (w.setCall call state).Begins o superseded successor ↔ w.Begins o superseded successor := Iff.rfl
  have hnext : (w.setCall call state).nextFetcher o superseded = w.nextFetcher o superseded := rfl
  unfold dropSuperseded
  simp only [hbegins, hnext]
  split
  · split <;> simp [setCall, handOverTheStream, List.set_set]
  · simp [setCall, List.set_set]

/-- The state a call was put in last is the one that counts. -/
theorem arrangeDrop_setCall (superseded successor : HeldEntry) (wasPromotion : Bool) (rest : Continuation) :
    (w.setCall call state).arrangeDrop o call superseded successor wasPromotion rest =
      w.arrangeDrop o call superseded successor wasPromotion rest := by
  unfold arrangeDrop
  split
  · simp [setCall, List.set_set]
  split
  · simp [setCall, List.set_set]
  · exact dropSuperseded_setCall superseded successor rest

section Next

variable {cursor : Option ℕ} {now : ℤ} {entry : HeldEntry} {superseded : Option HeldEntry} {wasPromotion : Bool}
  {rest : Continuation} {arriving : GenerationId} {record : GenerationRecord} {displaced surviving : List GenerationRecord}

/-- A move is written: its target is canonical, and is to be applied. -/
theorem Anchored.next_writing (h : w.Anchored) (hold : w.calls[call]? = some (.writing entry superseded wasPromotion rest))
    (hcareful : w.Careful o (.next call cursor now)) : (w.next o call cursor now).Anchored := by
  obtain ⟨-, hcareful⟩ := hcareful
  rw [hold] at hcareful
  unfold Indexer.next
  rw [hold]
  dsimp only at hcareful ⊢
  cases hmove : w.records.moveCanonicalTo entry.record.id false with
  | mk result records =>
    rw [hmove] at hcareful
    cases result with
    | error e => exact h.quiet hold rfl rfl rfl
    | ok record =>
      obtain ⟨hheld, hdrops⟩ := hcareful rfl
      obtain ⟨hcanonical, hregistered⟩ := moveCanonicalTo_ok (congrArg Prod.fst hmove)
      rw [hmove] at hcanonical hregistered
      obtain ⟨hlt, -⟩ := List.getElem?_eq_some_iff.1 hold
      refine ⟨.inr ⟨_, hcanonical, hregistered, entry, hheld, rfl, .inr ⟨_, List.mem_set hlt _, rfl⟩⟩, ?_⟩
      intro c hc drop hdrop
      rcases List.mem_or_eq_of_mem_set hc with hc | rfl
      · show records.slots .canonical = some drop.2.record.id
        by_cases hmoves : w.canonical = some entry.record.id
        · rw [hcanonical, ← hmoves]
          exact h.dropping c hc drop hdrop
        · rw [hdrops hmoves c hc] at hdrop
          cases hdrop
      · cases hdrop

/-- A move is applied: what it superseded is dropped for what is canonical. -/
theorem Anchored.next_applying (h : w.Anchored) (hold : w.calls[call]? = some (.applying entry superseded wasPromotion rest))
    (hcareful : w.Careful o (.next call cursor now)) : (w.next o call cursor now).Anchored := by
  obtain ⟨hbegun, hcareful⟩ := hcareful
  rw [hold] at hcareful
  unfold Indexer.next
  rw [hold]
  dsimp only at hcareful ⊢
  have happlied := h.apply hold hcareful.1
  have hidle := @getElem?_setCall { w with
    candidate := Function.update w.candidate entry.key false, current := some entry } call _ .idle hold
  have hresumed : Anchored (Indexer.setCall { w with
      candidate := Function.update w.candidate entry.key false, current := some entry } call (.resuming rest)) := by
    have hquiet : Anchored (Indexer.setCall _ call (.resuming rest)) := happlied.quiet hidle rfl rfl rfl
    simpa [Indexer.setCall, List.set_set] using hquiet
  cases superseded with
  | none => exact hresumed
  | some left =>
    dsimp only
    split
    · exact hresumed
    · rename_i hleft
      rw [← @arrangeDrop_setCall o _ call .idle]
      refine happlied.arrangeDrop hidle rfl rest fun hon hwas hpolicy hbegins => ?_
      have hbegan : w.begun o call = some (left, entry, w.lastSync left.key) := by
        unfold begun
        rw [hold]
        exact if_pos ⟨hleft, hon, hwas, hpolicy, hbegins⟩
      exact hbegun _ hbegan

/-- The deferred drops are gone through: one that is due is for what is canonical. -/
theorem Anchored.next_resuming (h : w.Anchored) (hold : w.calls[call]? = some (.resuming rest))
    (hcareful : w.Careful o (.next call cursor now)) : (w.next o call cursor now).Anchored := by
  obtain ⟨hbegun, -⟩ := hcareful
  unfold Indexer.next
  rw [hold]
  cases rest with
  | returns => exact h.quiet hold rfl rfl rfl
  | settles => exact h.quiet hold rfl rfl rfl
  | continues rest =>
    cases rest with
    | nil => exact h.quiet hold rfl rfl rfl
    | cons deferred rest =>
      dsimp only
      split
      · rename_i hdue
        have hspliced : Anchored { w with deferredDrops := w.spliceDeferred deferred } := ⟨h.anchored, h.dropping⟩
        refine hspliced.dropSuperseded hold rfl _ fun hbegins => ?_
        have hbegan : w.begun o call = some (deferred.superseded, deferred.successor, some deferred.cursor) := by
          unfold begun
          rw [hold]
          exact if_pos ⟨hdue, hbegins⟩
        exact hbegun _ hbegan
      · exact h.quiet hold rfl rfl rfl

/-- A displaced record goes, unless it is what is canonical. -/
theorem Anchored.next_removing (h : w.Anchored)
    (hold : w.calls[call]? = some (.removing arriving record displaced surviving)) :
    (w.next o call cursor now).Anchored := by
  unfold Indexer.next
  rw [hold]
  dsimp only
  have hdeleted := h.records fun id hid => deleteGeneration_keeps w.records record.id false hid
  cases hdelete : w.records.deleteGeneration record.id false with
  | mk result records =>
    rw [hdelete] at hdeleted
    cases result with
    | error e => exact h.quiet hold rfl rfl rfl
    | ok deletion => exact hdeleted.quiet hold rfl rfl rfl

/-- What is no longer driven is not canonical. -/
theorem Anchored.next_removed (h : w.Anchored)
    (hold : w.calls[call]? = some (.removed arriving record displaced surviving))
    (hcareful : w.Careful o (.next call cursor now)) : (w.next o call cursor now).Anchored := by
  obtain ⟨-, hcareful⟩ := hcareful
  rw [hold] at hcareful
  unfold Indexer.next
  rw [hold]
  dsimp only at hcareful ⊢
  have hdriven : (w.stopDriving record.id).Anchored ∧ (w.stopDriving record.id).calls = w.calls := by
    unfold stopDriving
    split
    · exact ⟨h, rfl⟩
    · rename_i entry hfind
      have hid := List.find?_some hfind
      rw [decide_eq_true_eq] at hid
      have hheld : Anchored { w with held := w.held.erase entry } := by
        apply h.held
        intro other hother hcanonical
        refine (List.mem_erase_of_ne ?_).2 hother
        rintro rfl
        exact hcareful (hid ▸ hcanonical)
      exact ⟨⟨hheld.anchored, hheld.dropping⟩, rfl⟩
  have hcalls : (w.stopDriving record.id).calls[call]? = some (.removed arriving record displaced surviving) := by
    rw [hdriven.2]
    exact hold
  exact hdriven.1.quiet hcalls rfl rfl rfl

theorem Anchored.next_creating (h : w.Anchored) (hold : w.calls[call]? = some (.creating arriving)) :
    (w.next o call cursor now).Anchored := by
  unfold Indexer.next
  rw [hold]
  dsimp only
  have hcreated := h.records fun id hid => create_keeps w.records o.caps arriving now hid
  cases hcreate : w.records.create o.caps arriving (some .successor) none now with
  | mk result records =>
    rw [hcreate] at hcreated
    cases result with
    | error e => exact h.quiet hold rfl rfl rfl
    | ok record => exact hcreated.quiet hold rfl rfl rfl

theorem Anchored.next_holding (h : w.Anchored) (hold : w.calls[call]? = some (.holding record)) :
    (w.next o call cursor now).Anchored := by
  unfold Indexer.next
  rw [hold]
  dsimp only
  unfold holdGeneration
  split
  · exact h.applyPolicyTo hold rfl _
  · have hheld : Anchored { w with held := w.held ++ [⟨w.built, record⟩] } :=
      h.held fun entry hentry _ => List.mem_append_left _ hentry
    have hadded : (w.hold o record (w.held.map (·.record) ++ [record])).2.Anchored := ⟨hheld.anchored, hheld.dropping⟩
    exact hadded.applyPolicyTo hold rfl _

end Next

/-- **A call that goes on with care** leaves what is canonical held. -/
theorem Anchored.next (h : w.Anchored) {cursor : Option ℕ} {now : ℤ} (hcareful : w.Careful o (.next call cursor now)) :
    (w.next o call cursor now).Anchored := by
  cases hold : w.calls[call]? with
  | none =>
    simp only [Indexer.next, hold]
    exact h
  | some old =>
    cases old with
    | writing => exact h.next_writing hold hcareful
    | applying => exact h.next_applying hold hcareful
    | resuming => exact h.next_resuming hold hcareful
    | removing => exact h.next_removing hold
    | removed => exact h.next_removed hold hcareful
    | creating => exact h.next_creating hold
    | holding => exact h.next_holding hold
    | idle =>
      simp only [Indexer.next, hold]
      exact h
    | advancing todo =>
      unfold Indexer.next
      rw [hold]
      cases todo with
      | nil => exact h.settlePromotion hold rfl
      | cons entry todo =>
        have hset : (w.setCall call (.advancing todo)).Anchored := h.quiet hold rfl rfl rfl
        exact ⟨hset.anchored, hset.dropping⟩
    | deleting superseded successor rest =>
      unfold Indexer.next
      rw [hold]
      have hdeleted := h.records fun id hid => deleteGeneration_keeps w.records superseded.record.id false hid
      exact hdeleted.quiet hold rfl rfl rfl
    | replacing arriving displaced surviving =>
      unfold Indexer.next
      rw [hold]
      cases displaced with
      | nil => exact h.quiet hold rfl rfl rfl
      | cons record displaced =>
        dsimp only
        split <;> exact h.quiet hold rfl rfl rfl
    | _ =>
      unfold Indexer.next
      rw [hold]
      exact h.quiet hold rfl rfl rfl

theorem Anchored.fail (h : w.Anchored) (call : ℕ) : (w.fail call).Anchored := by
  cases hold : w.calls[call]? with
  | none =>
    simp only [Indexer.fail, hold]
    exact h
  | some old =>
    unfold Indexer.fail
    rw [hold]
    cases old with
    | idle => exact h
    | applying entry superseded wasPromotion rest => exact h
    | resuming rest => exact h
    | replacing arriving displaced surviving => exact h
    | holding record => exact h
    | _ => exact h.quiet hold rfl rfl rfl

/-- A verb is called: what it does first is to await. -/
theorem Anchored.called (h : w.Anchored) (happlies : state.applies = none) (hdeletes : state.deletes = none) :
    Anchored { w with calls := w.calls ++ [state] } := by
  refine ⟨?_, fun c hc drop hdrop => ?_⟩
  · rcases h.anchored with ⟨hnone, hsettled⟩ | ⟨id, hcanonical, hregistered, entry, hheld, hid, hwhere⟩
    · refine .inl ⟨hnone, fun c hc => ?_⟩
      rcases List.mem_append.1 hc with hc | hc
      · exact hsettled c hc
      · rw [List.mem_singleton.1 hc]
        exact happlies
    · refine .inr ⟨id, hcanonical, hregistered, entry, hheld, hid, hwhere.imp_right ?_⟩
      rintro ⟨c, hc, happ⟩
      exact ⟨c, List.mem_append_left _ hc, happ⟩
  · rcases List.mem_append.1 hc with hc | hc
    · exact h.dropping c hc drop hdrop
    · rw [List.mem_singleton.1 hc, hdeletes] at hdrop
      cases hdrop

theorem Anchored.step (h : w.Anchored) {step : IndexerStep} (hcareful : w.Careful o step) : (w.step o step).Anchored := by
  cases step with
  | promote id =>
    unfold Indexer.step
    dsimp only
    split
    · exact h
    · exact h.called rfl rfl
  | indexMore =>
    unfold Indexer.step
    dsimp only
    split
    · exact h.called rfl rfl
    · exact h
  | add id => exact h.called rfl rfl
  | next call cursor now => exact h.next hcareful
  | fail call => exact h.fail call
  | lastSyncUpdated key cursor => exact ⟨h.anchored, h.dropping⟩

/-- A drop that was deferred begins once the cursor it waited for is reached. -/
theorem Careful.reached {cursor : Option ℕ} {now : ℤ} (h : w.Careful o (.next call cursor now)) :
    ∀ drop ∈ w.begun o call, reached (w.lastSync drop.2.1.key) drop.2.2 := by
  obtain ⟨-, hcareful⟩ := h
  cases hold : w.calls[call]? with
  | none => simp [begun, hold]
  | some old =>
    rw [hold] at hcareful
    cases old with
    | applying entry superseded wasPromotion rest => exact hcareful.2
    | resuming rest =>
      intro drop hdrop
      unfold begun at hdrop
      rw [hold] at hdrop
      split at hdrop
      · rename_i heq
        cases heq
      · rename_i deferred rest' heq
        split at hdrop
        · rename_i hdue
          cases hdrop
          exact hdue.1
        · cases hdrop
      · cases hdrop
    | _ => simp [begun, hold]

/-- A drop under way is for what is canonical. -/
theorem Anchored.dropsRight (h : w.Anchored) {step : IndexerStep} (hcareful : w.Careful o step) : w.DropsRight o step := by
  cases step with
  | next call cursor now =>
    refine ⟨Careful.reached hcareful, ?_⟩
    split
    · rename_i superseded successor rest hold
      exact fun _ => h.dropping _ (List.mem_of_getElem? hold) (superseded, successor) rfl
    · trivial
  | _ => trivial

/-! ### The opening -/

theorem holdSpecs_records (willHold : List GenerationRecord) (registered : List GenerationRecord) (w : Indexer) :
    (registered.foldl (holdSpecs o willHold) w).records = w.records ∧
      (registered.foldl (holdSpecs o willHold) w).calls = w.calls ∧
      (registered.foldl (holdSpecs o willHold) w).current = w.current := by
  induction registered generalizing w with
  | nil => exact ⟨rfl, rfl, rfl⟩
  | cons record registered ih =>
    obtain ⟨hrecords, hcalls, hcurrent⟩ := ih (holdSpecs o willHold w record)
    have hone : (holdSpecs o willHold w record).records = w.records ∧ (holdSpecs o willHold w record).calls = w.calls ∧
        (holdSpecs o willHold w record).current = w.current := by
      unfold holdSpecs
      split <;> exact ⟨rfl, rfl, rfl⟩
    rw [List.foldl_cons]
    exact ⟨hrecords.trans hone.1, hcalls.trans hone.2.1, hcurrent.trans hone.2.2⟩

/-- **A container opens on what its registry calls canonical**, or does not open. -/
theorem anchored_open {records : GenerationRegistryRecords} {specs : List (GenerationId × ℤ)} {w : Indexer}
    (h : openIndexer o records specs = .ok w) : w.Anchored := by
  unfold openIndexer at h
  obtain ⟨⟨registered, r⟩, -, h⟩ := bind_eq_ok.1 h
  dsimp only at h
  generalize hw : registered.foldl (holdSpecs o registered) _ = opened at h
  have hkept := @holdSpecs_records o registered registered
    ⟨r, [], none, [], fun _ => none, fun _ => false, fun _ => false, fun _ => false, 0, []⟩
  rw [hw] at hkept
  obtain ⟨hrecords, hcalls, hcurrent⟩ := hkept
  have hsettled : ∀ c ∈ opened.calls, ∀ P : Prop, P := by
    intro c hc
    rw [hcalls] at hc
    cases hc
  split at h
  · injection h with h
    subst h
    exact ⟨.inl ⟨hcurrent, fun c hc => hsettled c hc _⟩, fun c hc => hsettled c hc _⟩
  · rename_i id hid
    split at h
    · cases h
    · rename_i entry hfind
      injection h with h
      subst h
      obtain ⟨hslot, hregistered⟩ := Option.filter_eq_some_iff.1 hid
      rw [List.any_eq_true] at hregistered
      obtain ⟨g, hg, hgid⟩ := hregistered
      have hentry := List.find?_some hfind
      rw [decide_eq_true_eq] at hentry
      refine ⟨.inr ⟨id, ?_, ⟨g, ?_, of_decide_eq_true hgid⟩, entry, List.mem_of_find?_eq_some hfind, hentry, .inl rfl⟩,
        fun c hc => hsettled c hc _⟩
      · show opened.records.slots .canonical = some id
        rw [hrecords]
        exact hslot
      · show g ∈ opened.records.snapshot.generations
        rw [hrecords]
        exact hg

end Indexer

/-- **The generation that answers reads is never dropped**, in every careful run of a container
from its opening: after every step it is held, registered and canonical, and a promotion deletes
only behind a canonical successor that has made up for what it drops. -/
theorem never_dropped (o : IndexerOptions) {records : GenerationRegistryRecords} {specs : List (GenerationId × ℤ)}
    {w : Indexer} (hopen : openIndexer o records specs = .ok w) {steps : List IndexerStep}
    (hcareful : Run.Along (Indexer.step o) (Indexer.Careful o) w steps) :
    w.Answers ∧ Run.Along (Indexer.step o) (fun w step => (w.step o step).Answers ∧ w.DropsRight o step) w steps := by
  have hanchored := Indexer.anchored_open hopen
  refine ⟨hanchored.answers, Run.Along.carry (I := Indexer.Anchored) ?_ hanchored hcareful⟩
  intro w step hw hstep
  exact ⟨⟨(hw.step hstep).answers, hw.dropsRight hstep⟩, hw.step hstep⟩

/-- Two generations at most, over one stream. -/
def tabOptions (policy : PromotionPolicy) : IndexerOptions := ⟨twoGenerations, compareText, ⟨policy, true⟩, true⟩

/-- A tab over an empty registry, opened on generation `1`. -/
def openTab (policy : PromotionPolicy) : Except OpenError Indexer :=
  openIndexer (tabOptions policy) ⟨[], [], fun _ => none⟩ [(⟨[1], [1]⟩, 1)]

def openedTab (policy : PromotionPolicy) : Indexer :=
  match openTab policy with
  | .ok w => w
  | .error _ => ⟨⟨[], [], fun _ => none⟩, [], none, [], fun _ => none, fun _ => false, fun _ => false, fun _ => false, 0, []⟩

/-- A call goes on `n` times. -/
def goesOn (call n : ℕ) : List IndexerStep := List.replicate n (.next call none 0)

/-- Generation `2` is added, both are advanced to block 5, and it is promoted. -/
def promotedTab : List IndexerStep :=
  [.add ⟨[1], [2]⟩] ++ goesOn 0 7 ++ [.indexMore, .next 1 (some 5) 0, .next 1 (some 5) 0] ++ goesOn 1 7

/-- Generation `2` is promoted at once, an operator moves the pointer back, and it catches up. -/
def movedBackTab : List IndexerStep :=
  [.indexMore, .next 0 (some 7) 0] ++ goesOn 0 3 ++ [.add ⟨[1], [2]⟩] ++ goesOn 1 9 ++ [.promote ⟨[1], [1]⟩] ++ goesOn 2 4 ++
    [.indexMore, .next 3 (some 8) 0, .next 3 (some 7) 0] ++ goesOn 3 3

/-- An operator promotes generation `2` before it has folded anything. -/
def laggingTab : List IndexerStep :=
  [.indexMore, .next 0 (some 7) 0] ++ goesOn 0 3 ++ [.add ⟨[1], [2]⟩] ++ goesOn 1 5 ++ [.promote ⟨[1], [2]⟩] ++ goesOn 2 3

theorem never_dropped_promoted : openTab .onCatchUp = .ok (openedTab .onCatchUp) ∧
    Run.Along (Indexer.step (tabOptions .onCatchUp))
      (fun w step => (w.step (tabOptions .onCatchUp) step).Answers ∧ w.DropsRight (tabOptions .onCatchUp) step)
      (openedTab .onCatchUp) promotedTab := by
  have hopen : openTab .onCatchUp = .ok (openedTab .onCatchUp) := rfl
  exact ⟨hopen, (never_dropped (tabOptions .onCatchUp) hopen (by decide)).2⟩

/-- **A pointer moved back outlives the drop that was deferred**: the generation that answers is no
longer driven. And a promotion that is asked for drops a state its successor has not made up for. -/
theorem dropped_behind_the_pointer :
    (openTab .immediate = .ok (openedTab .immediate) ∧ ¬Run.Along (Indexer.step (tabOptions .immediate))
      (fun w step => (w.step (tabOptions .immediate) step).Answers) (openedTab .immediate) movedBackTab) ∧
    openTab .manual = .ok (openedTab .manual) ∧ ¬Run.Along (Indexer.step (tabOptions .manual))
      (fun w step => w.DropsRight (tabOptions .manual) step) (openedTab .manual) laggingTab :=
  ⟨⟨rfl, by decide⟩, rfl, by decide⟩

end Etherfold
