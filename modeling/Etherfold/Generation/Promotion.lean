import Etherfold.Generation.Cleanup

/-!
# The promotion on catch-up

A settle reads the slots, waits its turn on the chain of the incumbent's fold, compares the two
cursors and moves the pointer, one await after another. Deltas and rebuild chunks, registrations,
deletions, operator moves and other settles go on in between.

* `ReceivingIndexer.step`: what each step does; the move asks nothing again.
* `Undisturbed`: what the other calls leave alone while a settle is under way.
* `Informed`: what a settle read still holds.
* `promotes_right`: **every move of the policy is from the incumbent to the successor, and no
  answer goes backwards**, in every run that leaves its settles undisturbed.
-/

namespace Etherfold

/-- A fold this process holds. A generation that is instantiated again gets another one. -/
structure HeldFold where
  key : ℕ
  record : GenerationId
  deriving DecidableEq, Repr

/-- What waits on a fold's chain: a delta or a rebuild chunk, or a settle. -/
inductive Advance where
  | rebuild
  | settle (call : ℕ)
  deriving DecidableEq, Repr

/-- Where a call stands between two awaits. A move that the policy decided carries the incumbent and
the fold whose chain it is on. -/
inductive PromotionCall where
  | idle
  | settling
  | waiting (current successor : GenerationId) (incumbent : HeldFold)
  | comparing (current successor : GenerationId) (incumbent : Option HeldFold)
  | compared (current successor : GenerationId) (incumbent : Option HeldFold) (target : Option ℕ)
  | moving (id : GenerationId) (policy : Option (GenerationId × Option HeldFold))
  | writing (id : GenerationId) (policy : Option (GenerationId × Option HeldFold))
  deriving DecidableEq, Repr

/-- A container under the on-catch-up policy: the registry, the cursor each state has persisted,
the folds held, the chain of each, and the calls under way. -/
structure ReceivingIndexer where
  records : GenerationRegistryRecords
  cursors : GenerationId → Option ℕ
  folds : List HeldFold
  advancing : HeldFold → List Advance
  calls : ℕ → PromotionCall

/-- One step, of a call or of what goes on beside it. -/
inductive PromotionStep where
  | settle (call : ℕ)
  | promote (call : ℕ) (id : GenerationId)
  | next (call : ℕ) (readable : Bool)
  | refuse (call : ℕ)
  | register (id : GenerationId) (bundle : Option (List UInt8)) (now : ℤ)
  | deleteGeneration (id : GenerationId) (reapStream : Bool)
  | dropState (id : GenerationId)
  | hold (fold : HeldFold)
  | stopDriving (id : GenerationId)
  | offer (fold : HeldFold)
  | fold (fold : HeldFold) (lastToBlock : Option ℕ)
  | finish (fold : HeldFold)

/-- A generation without a cursor has reached nothing. -/
def hasReachedCursor : Option ℕ → Option ℕ → Bool
  | some cursor, some target => decide (target ≤ cursor)
  | _, _ => false

/-- The call a step is of. -/
def PromotionStep.caller : PromotionStep → Option ℕ
  | .settle call => some call
  | .promote call _ => some call
  | .next call _ => some call
  | .refuse call => some call
  | _ => none

namespace ReceivingIndexer

/-- Opened over a registry, with nothing under way. -/
def opened (records : GenerationRegistryRecords) (cursors : GenerationId → Option ℕ) : ReceivingIndexer :=
  ⟨records, cursors, [], fun _ => [], fun _ => .idle⟩

def Registered (w : ReceivingIndexer) (id : GenerationId) : Prop := ∃ g ∈ w.records.snapshot.generations, g.id = id

instance (w : ReceivingIndexer) (id : GenerationId) : Decidable (w.Registered id) := by
  unfold Registered
  infer_instance

/-- The registered generation a slot names. -/
def named (w : ReceivingIndexer) (name : SlotName) : Option GenerationId :=
  (w.records.slots name).filter fun id => w.Registered id

/-- The cursor of a generation, where it can be read. -/
def cursorOf (w : ReceivingIndexer) (id : GenerationId) (readable : Bool) : Option ℕ :=
  if readable then w.cursors id else none

def setCall (w : ReceivingIndexer) (call : ℕ) (state : PromotionCall) : ReceivingIndexer :=
  { w with calls := Function.update w.calls call state }

/-- Wait for the advances already on the fold's chain. -/
def enqueue (w : ReceivingIndexer) (fold : HeldFold) (advance : Advance) : ReceivingIndexer :=
  { w with advancing := Function.update w.advancing fold (w.advancing fold ++ [advance]) }

/-- The advance that ran is over. -/
def dequeue (w : ReceivingIndexer) (fold : HeldFold) : ReceivingIndexer :=
  { w with advancing := Function.update w.advancing fold (w.advancing fold).tail }

/-- The call returns, and gives up its turn. -/
def finished (w : ReceivingIndexer) (call : ℕ) : Option HeldFold → ReceivingIndexer
  | some fold => (w.dequeue fold).setCall call .idle
  | none => w.setCall call .idle

/-- What a call does up to its next await. -/
def next (w : ReceivingIndexer) (call : ℕ) (readable : Bool) : ReceivingIndexer :=
  match w.calls call with
  | .idle => w
  | .settling =>
    match w.named .canonical, w.named .successor with
    | some current, some successor =>
      match w.folds.find? (·.record = current) with
      | some incumbent => (w.enqueue incumbent (.settle call)).setCall call (.waiting current successor incumbent)
      | none => w.setCall call (.comparing current successor none)
    | _, _ => w.setCall call .idle
  | .waiting current successor incumbent =>
    if (w.advancing incumbent).head? = some (.settle call) then
      w.setCall call (.comparing current successor (some incumbent))
    else w
  | .comparing current successor incumbent =>
    w.setCall call (.compared current successor incumbent (w.cursorOf current readable))
  | .compared current successor incumbent target =>
    if hasReachedCursor (w.cursorOf successor readable) target then
      w.setCall call (.moving successor (some (current, incumbent)))
    else w.finished call incumbent
  -- the slots are read again, for what the move leaves behind; what moves is decided
  | .moving id policy => w.setCall call (.writing id policy)
  | .writing id policy =>
    finished { w with records := (w.records.moveCanonicalTo id true).2 } call (policy.bind (·.2))

/-- **One step.** -/
def step (caps : GenerationCaps) (w : ReceivingIndexer) : PromotionStep → ReceivingIndexer
  | .settle call => if w.calls call = .idle then w.setCall call .settling else w
  | .promote call id => if w.calls call = .idle then w.setCall call (.moving id none) else w
  | .next call readable => w.next call readable
  -- the target's stored code cannot be instantiated: the move is refused before its write
  | .refuse call =>
    match w.calls call with
    | .writing _ policy => w.finished call (policy.bind (·.2))
    | _ => w
  | .register id bundle now => { w with records := (w.records.create caps id (some .successor) bundle now).2 }
  | .deleteGeneration id reapStream => { w with records := (w.records.deleteGeneration id reapStream).2 }
  | .dropState id => { w with cursors := Function.update w.cursors id none }
  | .hold fold => { w with folds := w.folds ++ [fold] }
  | .stopDriving id => { w with folds := w.folds.eraseP (·.record = id) }
  | .offer fold => w.enqueue fold .rebuild
  | .fold fold lastToBlock =>
    if (w.advancing fold).head? = some .rebuild then
      { w with cursors := Function.update w.cursors fold.record lastToBlock }
    else w
  | .finish fold => if (w.advancing fold).head? = some .rebuild then w.dequeue fold else w

/-- After some steps. -/
def after (caps : GenerationCaps) (w : ReceivingIndexer) (steps : List PromotionStep) : ReceivingIndexer :=
  steps.foldl (step caps) w

/-! ### What a move of the policy has to be -/

/-- The write takes the pointer somewhere else. -/
def Moves (w : ReceivingIndexer) (id : GenerationId) : Prop :=
  (w.records.moveCanonicalTo id true).2.slots .canonical ≠ w.records.slots .canonical

instance (w : ReceivingIndexer) (id : GenerationId) : Decidable (w.Moves id) := inferInstanceAs (Decidable (_ ≠ _))

/-- The successor's state is at least as far as the incumbent's. -/
def CaughtUp (cursors : GenerationId → Option ℕ) (current successor : GenerationId) : Prop :=
  ∃ n m, cursors current = some n ∧ cursors successor = some m ∧ n ≤ m

/-- **A move of the policy is right**: from what is canonical at the moment of the move to what the
successor slot then names, which has caught up. -/
def MovesRight (w : ReceivingIndexer) (call : ℕ) : Prop :=
  ∀ id current incumbent, w.calls call = .writing id (some (current, incumbent)) → w.Moves id →
    w.records.slots .canonical = some current ∧ w.records.slots .successor = some id ∧ CaughtUp w.cursors current id

end ReceivingIndexer

/-! ### What it depends on -/

namespace PromotionCall

/-- What a settle under way has read from the slots. -/
def pending : PromotionCall → Option (GenerationId × GenerationId)
  | .waiting current successor _ => some (current, successor)
  | .comparing current successor _ => some (current, successor)
  | .compared current successor _ _ => some (current, successor)
  | .moving successor (some (current, _)) => some (current, successor)
  | .writing successor (some (current, _)) => some (current, successor)
  | _ => none

/-- The fold whose chain is the call's. -/
def holds : PromotionCall → Option HeldFold
  | .comparing _ _ incumbent => incumbent
  | .compared _ _ incumbent _ => incumbent
  | .moving _ (some (_, incumbent)) => incumbent
  | .writing _ (some (_, incumbent)) => incumbent
  | _ => none

/-- What the call has established of the cursors so far. -/
def Level (cursors : GenerationId → Option ℕ) : PromotionCall → Prop
  | .compared current _ _ (some target) => ∃ n, cursors current = some n ∧ n ≤ target
  | .moving successor (some (current, _)) => ReceivingIndexer.CaughtUp cursors current successor
  | .writing successor (some (current, _)) => ReceivingIndexer.CaughtUp cursors current successor
  | _ => True

end PromotionCall

namespace ReceivingIndexer

/-- A settle under way that may still move the pointer. -/
def Open (w : ReceivingIndexer) (call : ℕ) (current successor : GenerationId) : Prop :=
  (w.calls call).pending = some (current, successor) ∧ w.Registered successor ∧
    w.records.slots .canonical ≠ some successor

/-- **What the step leaves alone**: while a settle is under way nothing else takes the pointer
elsewhere, arms another successor or registers this one anew, and no write to a state other than
through the chain the settle holds leaves the successor behind. -/
def Undisturbed (caps : GenerationCaps) (w : ReceivingIndexer) : PromotionStep → Prop
  | .next call _ => ∀ id policy, w.calls call = .writing id policy → w.Moves id →
      ∀ other current successor, other ≠ call → (w.calls other).pending = some (current, successor) →
        w.Registered successor → id = successor
  | .register id bundle now => ∀ call current successor, (w.calls call).pending = some (current, successor) →
      w.records.slots .canonical ≠ some successor →
      (id = successor → w.Registered successor) ∧ (w.Registered successor →
        (w.records.create caps id (some .successor) bundle now).2.slots .successor = w.records.slots .successor)
  | .dropState id => ∀ call current successor, w.Open call current successor →
      (w.calls call).Level (Function.update w.cursors id none)
  | .fold fold lastToBlock => ∀ call current successor, w.Open call current successor → (w.calls call).holds ≠ some fold →
      (w.calls call).Level (Function.update w.cursors fold.record lastToBlock)
  | _ => True

/-- A settle that holds its turn is the one its chain is running. -/
def Serial (w : ReceivingIndexer) : Prop :=
  ∀ call fold, (w.calls call).holds = some fold → (w.advancing fold).head? = some (.settle call)

/-- **What a settle read still holds**, unless the pointer is already where it would take it. -/
def Informed (w : ReceivingIndexer) : Prop :=
  ∀ call current successor, w.Open call current successor →
    w.records.slots .canonical = some current ∧ w.records.slots .successor = some successor ∧
      (w.calls call).Level w.cursors


/-! ### What the registry does to the slots -/

/-- A move of the pointer goes to a registered generation, or changes nothing. -/
theorem moveCanonicalTo_cases (r : GenerationRegistryRecords) (id : GenerationId) (assignPredecessor : Bool) :
    (r.moveCanonicalTo id assignPredecessor).2 = r ∨
      (∃ g ∈ r.snapshot.generations, g.id = id) ∧ r.slots .canonical ≠ some id ∧
        (r.moveCanonicalTo id assignPredecessor).2.slots .canonical = some id := by
  unfold GenerationRegistryRecords.moveCanonicalTo
  split
  · exact .inl rfl
  · exact .inl rfl
  · rename_i record w hplan
    obtain ⟨wanted, hid, hplan⟩ := bind_eq_ok.1 hplan
    rw [assertIdentity_ok hid] at hplan
    right
    unfold movePlan at hplan
    split at hplan
    · cases hplan
    rename_i found hfind
    obtain ⟨hmem, hfound⟩ := find_generation hfind
    split at hplan
    · injection hplan with heq
      injection heq with _ hnone
      cases hnone
    rename_i hoff
    injection hplan with heq
    injection heq with _ hw
    injection hw with hw
    subst hw
    rw [hfound] at hoff
    refine ⟨⟨found, hmem, hfound⟩, hoff, ?_⟩
    show GenerationSlots.assigned r.slots _ .canonical = some id
    rw [hfound]
    unfold GenerationSlots.assigned
    dsimp only
    split <;> split <;> (try split) <;> simp [SlotAssignment.set, Function.update_of_ne, Function.update_self]

/-- A registration beside a canonical generation leaves it canonical. -/
theorem createPlan_canonical {caps : GenerationCaps} {now : ℤ} {wanted canonical : GenerationId}
    {bundle : Option (List UInt8)} {current : GenerationRegistryState} {record : GenerationRecord}
    {w : GenerationRegistryWrite} (hset : current.slots .canonical = some canonical)
    (h : createPlan caps now wanted (some .successor) bundle current = .ok (record, w)) :
    GenerationSlots.assigned current.slots w.slots .canonical = some canonical := by
  have hne : current.slots .canonical ≠ none := by simp [hset]
  have hsucc : ∀ value, GenerationSlots.assigned current.slots (SlotAssignment.none.set .successor value) .canonical =
      some canonical := by
    intro value
    simpa [GenerationSlots.assigned, SlotAssignment.set, SlotAssignment.none, Function.update_of_ne] using hset
  unfold createPlan at h
  split at h
  · rw [if_neg hne] at h
    split at h
    · injection h with heq
      injection heq with _ hw
      rw [← hw]
      simpa [GenerationSlots.assigned, SlotAssignment.set, SlotAssignment.none, Function.update_of_ne] using hset
    · split at h
      · rename_i slot hslot _
        injection h with heq
        injection heq with _ hw
        injection hslot with hslot
        rw [← hw, ← hslot]
        exact hsucc _
      · injection h with heq
        injection heq with _ hw
        rw [← hw]
        exact hset
  · dsimp only at h
    split at h
    · cases h
    split at h
    · cases h
    injection h with heq
    injection heq with _ hw
    rw [← hw]
    exact hsucc _

theorem create_canonical {r : GenerationRegistryRecords} {canonical : GenerationId} (hset : r.slots .canonical = some canonical)
    (caps : GenerationCaps) (id : GenerationId) (bundle : Option (List UInt8)) (now : ℤ) :
    (r.create caps id (some .successor) bundle now).2.slots .canonical = some canonical := by
  unfold GenerationRegistryRecords.create
  dsimp only
  split
  · exact hset
  · rename_i record w hplan
    obtain ⟨wanted, -, hplan⟩ := bind_eq_ok.1 hplan
    obtain ⟨bundle', -, hplan⟩ := bind_eq_ok.1 hplan
    exact createPlan_canonical hset hplan

/-- A registration adds at most its own identity. -/
theorem create_registers {r : GenerationRegistryRecords} {caps : GenerationCaps} {id : GenerationId} {slot : Option SlotName}
    {bundle : Option (List UInt8)} {now : ℤ} {g : GenerationRecord}
    (hg : g ∈ (r.create caps id slot bundle now).2.snapshot.generations) : g ∈ r.snapshot.generations ∨ g.id = id := by
  cases hresult : (r.create caps id slot bundle now).1 with
  | error e =>
    rw [Registrar.create_error hresult] at hg
    exact .inl hg
  | ok record =>
    obtain ⟨hmem, hid, -⟩ := Registrar.create_ok hresult
    rcases (hmem g).1 hg with hg | rfl
    · exact .inl hg
    · exact .inr hid

/-- A deletion removes what it names and nothing else, and leaves the pointer. -/
theorem deleteGeneration_slots (r : GenerationRegistryRecords) (id : GenerationId) (reapStream : Bool) :
    (r.deleteGeneration id reapStream).2 = r ∨ r.slots .canonical ≠ some id ∧
      (∀ name other, (r.deleteGeneration id reapStream).2.slots name = some other ↔ r.slots name = some other ∧ other ≠ id) ∧
      ∀ g, g ∈ (r.deleteGeneration id reapStream).2.snapshot.generations ↔ g ∈ r.snapshot.generations ∧ g.id ≠ id := by
  have hplanned : ∀ {record reaped w}, (assertIdentity id >>= fun wanted => deletePlan wanted reapStream r.snapshot) =
      .ok (record, reaped, w) → r.slots .canonical ≠ some id ∧
        (∀ name other, (r.write w).slots name = some other ↔ r.slots name = some other ∧ other ≠ id) ∧
        ∀ g, g ∈ (r.write w).snapshot.generations ↔ g ∈ r.snapshot.generations ∧ g.id ≠ id := by
    intro record reaped w hplan
    obtain ⟨wanted, hid, hplan⟩ := bind_eq_ok.1 hplan
    rw [assertIdentity_ok hid] at hplan
    obtain ⟨-, -, hcanonical, hput, -, hremove, -, hslots, -⟩ := deletePlan_ok hplan
    refine ⟨hcanonical, fun name other => ?_, fun g => ?_⟩
    · show GenerationSlots.assigned r.slots w.slots name = some other ↔ _
      rw [hslots, show r.snapshot.slots = r.slots from rfl, assigned_clear, List.mem_singleton]
    · rw [GenerationRegistryRecords.generations_write hput, hremove, List.mem_filter, decide_eq_true_eq,
        List.mem_singleton]
  unfold GenerationRegistryRecords.deleteGeneration
  split
  · exact .inl rfl
  · rename_i hplan
    exact .inr (hplanned hplan)
  · rename_i hplan
    exact .inr (hplanned hplan)

/-! ### Turns on a chain -/

theorem calls_setCall (w : ReceivingIndexer) (call : ℕ) (state : PromotionCall) (other : ℕ) :
    (w.setCall call state).calls other = if other = call then state else w.calls other := by
  show Function.update w.calls call state other = _
  rw [Function.update_apply]

section Turns

variable {w : ReceivingIndexer} {call : ℕ}

theorem Serial.setCall (h : w.Serial) {state : PromotionCall}
    (hstate : ∀ fold, state.holds = some fold → (w.advancing fold).head? = some (.settle call)) :
    (w.setCall call state).Serial := by
  intro other fold hholds
  rw [calls_setCall] at hholds
  split at hholds
  · rename_i heq
    rw [heq]
    exact hstate fold hholds
  · exact h other fold hholds

/-- What joins a chain waits behind the turn that is taken. -/
theorem Serial.enqueue (h : w.Serial) (fold : HeldFold) (advance : Advance) : (w.enqueue fold advance).Serial := by
  intro other held hholds
  have hhead := h other held hholds
  show (Function.update w.advancing fold (w.advancing fold ++ [advance]) held).head? = _
  by_cases heq : held = fold
  · rw [heq] at hhead ⊢
    rw [Function.update_self, List.head?_append, hhead]
    rfl
  · rwa [Function.update_of_ne heq]

/-- A turn is given up by the call that has it. -/
theorem Serial.finished (h : w.Serial) {incumbent : Option HeldFold} (hcall : (w.calls call).holds = incumbent) :
    (w.finished call incumbent).Serial := by
  have hidle : ∀ fold, PromotionCall.idle.holds = some fold → (w.advancing fold).head? = some (.settle call) := by
    intro fold hfold
    cases hfold
  cases incumbent with
  | none => exact h.setCall hidle
  | some fold =>
    intro other held hholds
    have hcalls : ((w.finished call (some fold)).calls other) = if other = call then .idle else w.calls other :=
      calls_setCall _ _ _ _
    rw [hcalls] at hholds
    split at hholds
    · cases hholds
    rename_i hother
    have hhead := h other held hholds
    -- two calls do not have the turn of one chain
    have hne : held ≠ fold := by
      intro heq
      rw [heq, h call fold hcall] at hhead
      injection hhead with hhead
      injection hhead with hhead
      exact hother hhead.symm
    show (Function.update w.advancing fold (w.advancing fold).tail held).head? = _
    rwa [Function.update_of_ne hne]

theorem Serial.next (h : w.Serial) (readable : Bool) : (w.next call readable).Serial := by
  have hkeep : ∀ state : PromotionCall, state.holds = (w.calls call).holds → (w.setCall call state).Serial := by
    intro state hstate
    apply h.setCall
    intro fold hfold
    exact h call fold (hstate ▸ hfold)
  have hfree : ∀ state : PromotionCall, state.holds = none → ∀ w' : ReceivingIndexer, w'.Serial →
      (w'.setCall call state).Serial := by
    intro state hstate w' h'
    apply h'.setCall
    intro fold hfold
    rw [hstate] at hfold
    cases hfold
  unfold ReceivingIndexer.next
  split
  · exact h
  · split
    · split
      · exact hfree _ rfl _ (h.enqueue _ _)
      · exact hfree _ rfl _ h
    · exact hfree _ rfl _ h
  · split
    · rename_i hhead
      apply h.setCall
      intro fold hfold
      injection hfold with hfold
      rw [← hfold]
      exact hhead
    · exact h
  · rename_i hcall
    apply hkeep
    rw [hcall]
    rfl
  · rename_i hcall
    split
    · apply hkeep
      rw [hcall]
      rfl
    · apply h.finished
      rw [hcall]
      rfl
  · rename_i policy hcall
    apply hkeep
    rw [hcall]
    cases policy <;> rfl
  · rename_i id policy hcall
    have hcommitted : ReceivingIndexer.Serial { w with records := (w.records.moveCanonicalTo id true).2 } := h
    apply hcommitted.finished
    show (w.calls call).holds = _
    rw [hcall]
    cases policy <;> rfl

/-- **A settle has its turn to itself.** -/
theorem Serial.step (h : w.Serial) (caps : GenerationCaps) (step : PromotionStep) : (w.step caps step).Serial := by
  have hfree : ∀ call (state : PromotionCall), state.holds = none → (w.setCall call state).Serial := by
    intro call state hstate
    apply h.setCall
    intro fold hfold
    rw [hstate] at hfold
    cases hfold
  cases step with
  | settle call =>
    show Serial (if _ then _ else _)
    split
    · exact hfree call _ rfl
    · exact h
  | promote call id =>
    show Serial (if _ then _ else _)
    split
    · exact hfree call _ rfl
    · exact h
  | next call readable => exact h.next readable
  | refuse call =>
    unfold ReceivingIndexer.step
    dsimp only
    split
    · rename_i policy hcall
      apply h.finished
      rw [hcall]
      cases policy <;> rfl
    · exact h
  | register id bundle now => exact h
  | deleteGeneration id reapStream => exact h
  | dropState id => exact h
  | hold fold => exact h
  | stopDriving id => exact h
  | offer fold => exact h.enqueue fold .rebuild
  | fold fold lastToBlock =>
    show Serial (if _ then _ else _)
    split
    · exact h
    · exact h
  | finish fold =>
    show Serial (if _ then _ else _)
    split
    · rename_i hrebuild
      intro other held hholds
      have hhead := h other held hholds
      have hne : held ≠ fold := by
        intro heq
        rw [heq, hrebuild] at hhead
        cases hhead
      show (Function.update w.advancing fold (w.advancing fold).tail held).head? = _
      rwa [Function.update_of_ne hne]
    · exact h

end Turns

/-! ### What a settle read still holds -/

section Reads

variable {w : ReceivingIndexer} {call : ℕ}

/-- A step of one call leaves what the others read. -/
theorem Informed.setCall (h : w.Informed) {state : PromotionCall}
    (hstate : ∀ current successor, state.pending = some (current, successor) → w.Registered successor →
      w.records.slots .canonical ≠ some successor → w.records.slots .canonical = some current ∧
        w.records.slots .successor = some successor ∧ state.Level w.cursors) : (w.setCall call state).Informed := by
  intro other current successor hopen
  obtain ⟨hpending, hregistered, hoff⟩ := hopen
  rw [calls_setCall] at hpending ⊢
  split at hpending
  · rename_i heq
    rw [if_pos heq]
    exact hstate current successor hpending hregistered hoff
  · rename_i hne
    rw [if_neg hne]
    exact h other current successor ⟨hpending, hregistered, hoff⟩

/-- A call that goes on with what it read, and knows as much of the cursors. -/
theorem Informed.proceed (h : w.Informed) {state : PromotionCall} (hpending : state.pending = (w.calls call).pending)
    (hlevel : (w.calls call).Level w.cursors → state.Level w.cursors) : (w.setCall call state).Informed := by
  apply h.setCall
  intro current successor hstate hregistered hoff
  obtain ⟨hcanonical, hsuccessor, hold⟩ := h call current successor ⟨hpending ▸ hstate, hregistered, hoff⟩
  exact ⟨hcanonical, hsuccessor, hlevel hold⟩

theorem Informed.free (h : w.Informed) {state : PromotionCall} (hpending : state.pending = none) :
    (w.setCall call state).Informed := by
  apply h.setCall
  intro current successor hstate
  rw [hpending] at hstate
  cases hstate

theorem Informed.finished (h : w.Informed) (incumbent : Option HeldFold) : (w.finished call incumbent).Informed := by
  cases incumbent with
  | none => exact h.free rfl
  | some fold => exact Informed.free (w := w.dequeue fold) h rfl

/-- A slot's registered generation. -/
theorem named_some {name : SlotName} {id : GenerationId} (h : w.named name = some id) :
    w.records.slots name = some id ∧ w.Registered id := by
  unfold named at h
  rw [Option.filter_eq_some_iff] at h
  exact ⟨h.1, of_decide_eq_true h.2⟩

theorem hasReachedCursor_some {cursor target : Option ℕ} (h : hasReachedCursor cursor target = true) :
    ∃ m t, cursor = some m ∧ target = some t ∧ t ≤ m := by
  unfold hasReachedCursor at h
  split at h
  · exact ⟨_, _, rfl, rfl, of_decide_eq_true h⟩
  · cases h

theorem cursorOf_some {id : GenerationId} {readable : Bool} {n : ℕ} (h : w.cursorOf id readable = some n) :
    w.cursors id = some n := by
  unfold cursorOf at h
  split at h
  · exact h
  · cases h

/-- The write of a move: whoever else is under way finds the pointer where it would take it. -/
theorem Informed.commit (h : w.Informed) {id : GenerationId}
    (hothers : w.Moves id → ∀ other current successor, other ≠ call →
      (w.calls other).pending = some (current, successor) → w.Registered successor → id = successor) :
    ReceivingIndexer.Informed { w with
      records := (w.records.moveCanonicalTo id true).2, calls := Function.update w.calls call .idle } := by
  intro other current successor hopen
  obtain ⟨hpending, hregistered, hoff⟩ := hopen
  dsimp only at hpending hregistered hoff ⊢
  rw [Function.update_apply] at hpending ⊢
  split at hpending
  · cases hpending
  rename_i hother
  rw [if_neg hother]
  rcases moveCanonicalTo_cases w.records id true with hsame | ⟨-, hleft, hmoved⟩
  · rw [hsame] at hoff ⊢
    unfold Registered at hregistered
    dsimp only at hregistered
    rw [hsame] at hregistered
    exact h other current successor ⟨hpending, hregistered, hoff⟩
  · have hmoves : w.Moves id := by
      intro heq
      rw [hmoved] at heq
      exact hleft heq.symm
    have hregistered' : w.Registered successor := by
      unfold Registered at hregistered
      dsimp only at hregistered
      rwa [(Registrar.moveCanonicalTo_records w.records id true).1] at hregistered
    have hid := hothers hmoves other current successor hother hpending hregistered'
    rw [hid] at hmoved
    exact absurd (hid ▸ hmoved) hoff

theorem Informed.next (h : w.Informed) {caps : GenerationCaps} {readable : Bool}
    (hundisturbed : w.Undisturbed caps (.next call readable)) : (w.next call readable).Informed := by
  unfold ReceivingIndexer.next
  split
  · exact h
  · split
    · rename_i current successor hcurrent hsuccessor
      obtain ⟨hcanonical, -⟩ := named_some hcurrent
      obtain ⟨hnamed, -⟩ := named_some hsuccessor
      have hread : ∀ state : PromotionCall, state.pending = some (current, successor) → state.Level w.cursors →
          ∀ current' successor', state.pending = some (current', successor') → w.Registered successor' →
            w.records.slots .canonical ≠ some successor' → w.records.slots .canonical = some current' ∧
              w.records.slots .successor = some successor' ∧ state.Level w.cursors := by
        intro state hpending hlevel current' successor' hpending' _ _
        rw [hpending] at hpending'
        injection hpending' with heq
        injection heq with hc hs
        exact ⟨hc ▸ hcanonical, hs ▸ hnamed, hlevel⟩
      split
      · exact Informed.setCall (w := w.enqueue _ _) h (hread _ rfl trivial)
      · exact h.setCall (hread _ rfl trivial)
    · exact h.free rfl
  · rename_i hcall
    split
    · apply h.proceed
      · rw [hcall]
        rfl
      · exact fun _ => trivial
    · exact h
  · rename_i current successor incumbent hcall
    apply h.proceed
    · rw [hcall]
      rfl
    -- the incumbent is where it was just read to be
    · intro _
      cases htarget : w.cursorOf current readable with
      | none => trivial
      | some target => exact ⟨target, cursorOf_some htarget, le_rfl⟩
  · rename_i current successor incumbent target hcall
    split
    · rename_i hreached
      apply h.proceed
      · rw [hcall]
        rfl
      · intro hlevel
        obtain ⟨m, t, hm, ht, hle⟩ := hasReachedCursor_some hreached
        rw [hcall, ht] at hlevel
        obtain ⟨n, hn, hnt⟩ := hlevel
        exact ⟨n, m, hn, cursorOf_some hm, by omega⟩
    · exact h.finished incumbent
  · rename_i id policy hcall
    apply h.proceed
    · rw [hcall]
      cases policy <;> rfl
    · intro hlevel
      rw [hcall] at hlevel
      cases policy with
      | none => trivial
      | some read => exact hlevel
  · rename_i id policy hcall
    have hcommitted := h.commit (hundisturbed id policy hcall)
    cases hchain : policy.bind (·.2) with
    | none => exact hcommitted
    | some fold => exact hcommitted

theorem Informed.register (h : w.Informed) {caps : GenerationCaps} {id : GenerationId} {bundle : Option (List UInt8)}
    {now : ℤ} (hundisturbed : w.Undisturbed caps (.register id bundle now)) :
    ReceivingIndexer.Informed { w with records := (w.records.create caps id (some .successor) bundle now).2 } := by
  intro call current successor hopen
  obtain ⟨hpending, ⟨g, hg, hid⟩, hoff⟩ := hopen
  dsimp only at hpending hg hoff ⊢
  have hoff' : w.records.slots .canonical ≠ some successor := by
    intro hset
    exact hoff (create_canonical hset caps id bundle now)
  obtain ⟨hanew, hslot⟩ := hundisturbed call current successor hpending hoff'
  have hregistered : w.Registered successor := by
    rcases create_registers hg with hg | hnew
    · exact ⟨g, hg, hid⟩
    · exact hanew (hnew ▸ hid)
  obtain ⟨hcanonical, hsuccessor, hlevel⟩ := h call current successor ⟨hpending, hregistered, hoff'⟩
  exact ⟨create_canonical hcanonical caps id bundle now, (hslot hregistered).trans hsuccessor, hlevel⟩

theorem Informed.deleteGeneration (h : w.Informed) (id : GenerationId) (reapStream : Bool) :
    ReceivingIndexer.Informed { w with records := (w.records.deleteGeneration id reapStream).2 } := by
  intro call current successor hopen
  obtain ⟨hpending, hregistered, hoff⟩ := hopen
  unfold Registered at hregistered
  dsimp only at hpending hregistered hoff ⊢
  rcases deleteGeneration_slots w.records id reapStream with hsame | ⟨hcanonical, hslots, hgenerations⟩
  · rw [hsame] at hregistered hoff ⊢
    exact h call current successor ⟨hpending, hregistered, hoff⟩
  · obtain ⟨g, hg, hid⟩ := hregistered
    obtain ⟨hg, hne⟩ := (hgenerations g).1 hg
    rw [hid] at hne
    have hoff' : w.records.slots .canonical ≠ some successor := by
      intro hset
      exact hoff ((hslots _ _).2 ⟨hset, hne⟩)
    obtain ⟨hset, hsuccessor, hlevel⟩ := h call current successor ⟨hpending, ⟨g, hg, hid⟩, hoff'⟩
    have hcurrent : current ≠ id := by
      intro heq
      exact hcanonical (heq ▸ hset)
    exact ⟨(hslots _ _).2 ⟨hset, hcurrent⟩, (hslots _ _).2 ⟨hsuccessor, hne⟩, hlevel⟩

/-- **What a settle read still holds after an undisturbed step.** -/
theorem Informed.step (h : w.Informed) (hserial : w.Serial) {caps : GenerationCaps} {step : PromotionStep}
    (hundisturbed : w.Undisturbed caps step) : (w.step caps step).Informed := by
  cases step with
  | settle call =>
    show Informed (if _ then _ else _)
    split
    · exact h.free rfl
    · exact h
  | promote call id =>
    show Informed (if _ then _ else _)
    split
    · exact h.free rfl
    · exact h
  | next call readable => exact h.next hundisturbed
  | refuse call =>
    unfold ReceivingIndexer.step
    dsimp only
    split
    · exact h.finished _
    · exact h
  | register id bundle now => exact h.register hundisturbed
  | deleteGeneration id reapStream => exact h.deleteGeneration id reapStream
  | dropState id =>
    intro call current successor hopen
    obtain ⟨hcanonical, hsuccessor, -⟩ := h call current successor hopen
    exact ⟨hcanonical, hsuccessor, hundisturbed call current successor hopen⟩
  | hold fold => exact h
  | stopDriving id => exact h
  | offer fold => exact h
  | fold fold lastToBlock =>
    show Informed (if _ then _ else _)
    split
    · rename_i hrebuild
      intro call current successor hopen
      obtain ⟨hcanonical, hsuccessor, -⟩ := h call current successor hopen
      refine ⟨hcanonical, hsuccessor, hundisturbed call current successor hopen ?_⟩
      -- the chain a settle holds runs that settle, and no delta
      intro hholds
      have hhead := hserial call fold hholds
      rw [hrebuild] at hhead
      cases hhead
    · exact h
  | finish fold =>
    show Informed (if _ then _ else _)
    split
    · exact h
    · exact h

theorem Informed.movesRight (h : w.Informed) (call : ℕ) : w.MovesRight call := by
  intro id current incumbent hcall hmoves
  rcases moveCanonicalTo_cases w.records id true with hsame | ⟨hregistered, hleft, -⟩
  · unfold Moves at hmoves
    rw [hsame] at hmoves
    exact absurd rfl hmoves
  · have hinformed := h call current id ⟨by rw [hcall]; rfl, hregistered, hleft⟩
    rw [hcall] at hinformed
    exact hinformed

end Reads

/-! ### Every run -/

section Runs

variable (caps : GenerationCaps) (records : GenerationRegistryRecords) (cursors : GenerationId → Option ℕ)

theorem after_concat (w : ReceivingIndexer) (steps : List PromotionStep) (step : PromotionStep) :
    w.after caps (steps ++ [step]) = (w.after caps steps).step caps step := by
  unfold after
  rw [List.foldl_append]
  rfl

theorem serial_after (steps : List PromotionStep) : ((opened records cursors).after caps steps).Serial := by
  induction steps using List.reverseRecOn with
  | nil =>
    intro call fold hholds
    cases hholds
  | append_singleton steps step ih =>
    rw [after_concat]
    exact ih.step caps step

theorem informed_after (steps : List PromotionStep)
    (h : ∀ pre step, pre ++ [step] <+: steps → ((opened records cursors).after caps pre).Undisturbed caps step) :
    ((opened records cursors).after caps steps).Informed := by
  induction steps using List.reverseRecOn with
  | nil =>
    intro call current successor hopen
    cases hopen.1
  | append_singleton steps step ih =>
    rw [after_concat]
    have hbefore := ih fun pre next hpre => h pre next (hpre.trans (List.prefix_append _ _))
    exact hbefore.step (serial_after caps records cursors steps) (h steps step (List.prefix_refl _))

/-- **Every move of the policy is right** in a run that leaves its settles undisturbed. -/
theorem promotes_right (steps : List PromotionStep)
    (h : ∀ pre step, pre ++ [step] <+: steps → ((opened records cursors).after caps pre).Undisturbed caps step)
    (pre : List PromotionStep) (hpre : pre <+: steps) (call : ℕ) :
    ((opened records cursors).after caps pre).MovesRight call := by
  have hinformed : ((opened records cursors).after caps pre).Informed := by
    apply informed_after
    intro before step hbefore
    exact h before step (hbefore.trans hpre)
  exact hinformed.movesRight call

end Runs

/-! ### A settle that waits -/

theorem calls_finished (w : ReceivingIndexer) (call : ℕ) (incumbent : Option HeldFold) (other : ℕ) :
    (w.finished call incumbent).calls other = if other = call then .idle else w.calls other := by
  cases incumbent with
  | none => exact calls_setCall _ _ _ _
  | some fold => exact calls_setCall _ _ _ _

/-- A step leaves where the other calls stand. -/
theorem calls_step (caps : GenerationCaps) (w : ReceivingIndexer) {step : PromotionStep} {other : ℕ}
    (h : step.caller ≠ some other) : (w.step caps step).calls other = w.calls other := by
  have hset : ∀ (w' : ReceivingIndexer) call state, other ≠ call → (w'.setCall call state).calls other = w'.calls other := by
    intro w' call state hne
    rw [calls_setCall, if_neg hne]
  have hfinished : ∀ (w' : ReceivingIndexer) call incumbent, other ≠ call →
      (w'.finished call incumbent).calls other = w'.calls other := by
    intro w' call incumbent hne
    rw [calls_finished, if_neg hne]
  have hne : ∀ call, step.caller = some call → other ≠ call := by
    intro call hcall heq
    exact h (heq ▸ hcall)
  cases step with
  | settle call =>
    have hother := hne call rfl
    unfold ReceivingIndexer.step
    dsimp only
    split
    · exact hset _ _ _ hother
    · rfl
  | promote call id =>
    have hother := hne call rfl
    unfold ReceivingIndexer.step
    dsimp only
    split
    · exact hset _ _ _ hother
    · rfl
  | next call readable =>
    have hother := hne call rfl
    unfold ReceivingIndexer.step
    dsimp only
    unfold ReceivingIndexer.next
    split
    · rfl
    · split
      · split
        · exact hset _ _ _ hother
        · exact hset _ _ _ hother
      · exact hset _ _ _ hother
    · split
      · exact hset _ _ _ hother
      · rfl
    · exact hset _ _ _ hother
    · split
      · exact hset _ _ _ hother
      · exact hfinished _ _ _ hother
    · exact hset _ _ _ hother
    · exact hfinished _ _ _ hother
  | refuse call =>
    have hother := hne call rfl
    unfold ReceivingIndexer.step
    dsimp only
    split
    · exact hfinished _ _ _ hother
    · rfl
  | fold fold lastToBlock =>
    unfold ReceivingIndexer.step
    dsimp only
    split <;> rfl
  | finish fold =>
    unfold ReceivingIndexer.step
    dsimp only
    split <;> rfl
  | _ => rfl

/-- A call that has not been made. -/
theorem calls_after_opened (caps : GenerationCaps) (records : GenerationRegistryRecords) (cursors : GenerationId → Option ℕ)
    (other : ℕ) (steps : List PromotionStep) (h : ∀ step ∈ steps, step.caller ≠ some other) :
    ((opened records cursors).after caps steps).calls other = .idle := by
  induction steps using List.reverseRecOn with
  | nil => rfl
  | append_singleton steps step ih =>
    rw [after_concat, calls_step caps _ (h step (by simp))]
    exact ih fun s hs => h s (List.mem_append_left _ hs)

end ReceivingIndexer

/-- The incumbent `1` is canonical and `2` waits to succeed it. -/
def armedRecords : GenerationRegistryRecords :=
  ⟨[(⟨⟨[1], [1]⟩, 1⟩, none), (⟨⟨[1], [2]⟩, 2⟩, none)], [[1]], fun
    | .canonical => some ⟨[1], [1]⟩
    | .successor => some ⟨[1], [2]⟩
    | .predecessor => none⟩

def armedCursors (id : GenerationId) : Option ℕ := if id.processor = [2] then some 7 else some 5

/-- The fold of the incumbent. -/
def incumbentFold : HeldFold := ⟨0, ⟨[1], [1]⟩⟩

/-- A settle waits for a delta. -/
def waitingSettle : List PromotionStep :=
  [.hold incumbentFold, .offer incumbentFold, .settle 0, .next 0 true, .fold incumbentFold (some 7), .finish incumbentFold,
    .next 0 true, .next 0 true, .next 0 true, .next 0 true, .next 0 true]

/-- While a settle waits, an operator moves the pointer to the successor and back. -/
def revertedSettle : List PromotionStep :=
  [.hold incumbentFold, .offer incumbentFold, .settle 0, .next 0 true, .promote 1 ⟨[1], [2]⟩, .next 1 true, .next 1 true,
    .promote 1 ⟨[1], [1]⟩, .next 1 true, .next 1 true, .fold incumbentFold (some 7), .finish incumbentFold,
    .next 0 true, .next 0 true, .next 0 true, .next 0 true]

open ReceivingIndexer

/-- A property of every step of a run, the first step apart. -/
theorem forall_prefix_cons {α : Type} {P : List α → α → Prop} {x : α} {xs : List α} (hx : P [] x)
    (hxs : ∀ pre step, pre ++ [step] <+: xs → P (x :: pre) step) (pre : List α) (step : α)
    (h : pre ++ [step] <+: x :: xs) : P pre step := by
  cases pre with
  | nil =>
    rw [List.nil_append, List.cons_prefix_cons] at h
    exact h.1 ▸ hx
  | cons y ys =>
    rw [List.cons_append, List.cons_prefix_cons] at h
    exact h.1 ▸ hxs ys step h.2

theorem forall_prefix_nil {α : Type} {P : List α → α → Prop} (pre : List α) (step : α) (h : pre ++ [step] <+: []) :
    P pre step := by simp at h

theorem waitingSettle_undisturbed (pre : List PromotionStep) (step : PromotionStep) (h : pre ++ [step] <+: waitingSettle) :
    ((opened armedRecords armedCursors).after twoGenerations pre).Undisturbed twoGenerations step := by
  -- there is no other call
  have halone : ∀ steps : List PromotionStep, (∀ s ∈ steps, s.caller ∈ [none, some 0]) → ∀ other, other ≠ 0 →
      ((opened armedRecords armedCursors).after twoGenerations steps).calls other = .idle := by
    intro steps hsteps other hother
    apply calls_after_opened
    intro s hs heq
    have hcaller := hsteps s hs
    rw [heq] at hcaller
    simp [hother] at hcaller
  have hnext : ∀ steps : List PromotionStep, (∀ s ∈ steps, s.caller ∈ [none, some 0]) →
      ((opened armedRecords armedCursors).after twoGenerations steps).Undisturbed twoGenerations (.next 0 true) := by
    intro steps hsteps id policy _ _ other current successor hother hpending
    rw [halone steps hsteps other hother] at hpending
    cases hpending
  revert pre step
  refine forall_prefix_cons trivial ?_
  refine forall_prefix_cons trivial ?_
  refine forall_prefix_cons trivial ?_
  refine forall_prefix_cons (hnext _ (by decide)) ?_
  refine forall_prefix_cons ?_ ?_
  · intro call current successor hopen _
    by_cases hcall : call = 0
    · rw [hcall]
      trivial
    · rw [halone _ (by decide) call hcall]
      trivial
  refine forall_prefix_cons trivial ?_
  refine forall_prefix_cons (hnext _ (by decide)) ?_
  refine forall_prefix_cons (hnext _ (by decide)) ?_
  refine forall_prefix_cons (hnext _ (by decide)) ?_
  refine forall_prefix_cons (hnext _ (by decide)) ?_
  refine forall_prefix_cons (hnext _ (by decide)) ?_
  exact forall_prefix_nil

theorem promotes_right_waiting :
    ((opened armedRecords armedCursors).after twoGenerations waitingSettle.dropLast).calls 0 =
        .writing ⟨[1], [2]⟩ (some (⟨[1], [1]⟩, some incumbentFold)) ∧
      ((opened armedRecords armedCursors).after twoGenerations waitingSettle.dropLast).MovesRight 0 :=
  ⟨by decide, promotes_right twoGenerations armedRecords armedCursors waitingSettle waitingSettle_undisturbed
    waitingSettle.dropLast (List.dropLast_prefix _) 0⟩

/-- **What an operator reverted is promoted again**: the successor slot names nothing by then. -/
theorem reverted_and_promoted :
    ¬∀ pre, pre <+: revertedSettle → ((opened armedRecords armedCursors).after twoGenerations pre).MovesRight 0 := by
  intro h
  have hright := h revertedSettle (List.prefix_refl _) ⟨[1], [2]⟩ ⟨[1], [1]⟩ (some incumbentFold) (by decide) (by decide)
  exact absurd hright.2.1 (by decide)

end Etherfold
