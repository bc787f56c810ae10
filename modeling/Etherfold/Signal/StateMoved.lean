import Etherfold.Snapshot.Install
import Etherfold.Store.Staging

/-!
# What goes out when the state moved

A fold reports the blocks it applied and the branches it took back. The container relays
what the canonical fold reports, stamped with the token in force, and announces a move of
the pointer itself. A retraction and a move rotate the token.

* `rowsOf_applyBlock`: **a block changes the rows of the entities it names and of no other**.
* `step_cases`: what one step changes, and what it publishes.
* `harmless_iff`: **a discard goes unseen exactly when it discards no row**.
-/

namespace Etherfold

open Versions

variable {G X H C : Type}

/-- What a fold says it did to its store. -/
inductive FoldReport (H : Type) where
  | applied (block : ℕ) (hash : H) (entities : List String)
  | retracted (forkPoint : ℤ)

/-- **The signal.** The token is compared and never parsed. -/
inductive StateMoved (G H : Type) where
  | applied (block : ℕ) (hash : H) (coherence : ℕ) (entities : List String) (generation : G)
  | retracted (forkPoint : ℤ) (coherence : ℕ) (generation : G)
  | repointed (coherence : ℕ) (generation : G)

namespace StateMoved

def coherence : StateMoved G H → ℕ
  | applied _ _ coherence _ _ => coherence
  | retracted _ coherence _ => coherence
  | repointed coherence _ => coherence

/-- The entities a notification names; a rotated token names none. -/
def entities : StateMoved G H → List String
  | applied _ _ _ entities _ => entities
  | _ => []

end StateMoved

/-- The publisher holds the token in force and nothing for a subscriber. Tokens are never
used again, so they are numbered as they are made. -/
structure StateMovedPublisher where
  coherence : ℕ
  deriving DecidableEq, Repr

namespace StateMovedPublisher

def rotate (p : StateMovedPublisher) : StateMovedPublisher := ⟨p.coherence + 1⟩

def publish (p : StateMovedPublisher) (block : ℕ) (hash : H) (entities : List String) (generation : G) :
    StateMoved G H :=
  .applied block hash p.coherence entities generation

/-- A retraction carries the token it rotated to. -/
def publishRetraction (p : StateMovedPublisher) (forkPoint : ℤ) (generation : G) :
    StateMovedPublisher × StateMoved G H :=
  (p.rotate, .retracted forkPoint p.rotate.coherence generation)

/-- A move rotates first and is announced under the new token. -/
def rotateForPointerMove (p : StateMovedPublisher) : StateMovedPublisher × (G → StateMoved G H) :=
  (p.rotate, .repointed p.rotate.coherence)

end StateMovedPublisher

/-- The names of the entities a block's mutations touch, each once and in order. -/
def entitiesTouchedBy (mutations : List (EntityMutation X)) : List String :=
  (mutations.map (·.entity)).dedup.insertionSort (· ≤ ·)

theorem mem_entitiesTouchedBy {mutations : List (EntityMutation X)} {entity : String} :
    entity ∈ entitiesTouchedBy mutations ↔ ∃ m ∈ mutations, m.entity = entity := by
  unfold entitiesTouchedBy
  rw [(List.perm_insertionSort _ _).mem_iff, List.mem_dedup, List.mem_map]

/-- A generation's fold: what its processor declares, and the store it folds into. -/
structure EntityFold (X H C : Type) where
  declarations : List NormalizedEntity
  store : EntityStore X H C

namespace EntityFold

/-- What a reader is answered about an entity, id by id. -/
def rowsOf (fold : EntityFold X H C) (entity : String) (id : EntityId) : Except EntityError (Option (Record X)) :=
  EntityStore.getCurrent fold.declarations fold.store entity id

/-- Wipe the state and drop the cursor. A clear is the same. -/
def reset (fold : EntityFold X H C) : EntityFold X H C :=
  { fold with store := (fold.store.revertTo (-1)).clearCursor syncCursorKey }

/-- Two stores that differ in what a read does not look at answer it alike. -/
theorem read_eq_of_keys {declarations : List NormalizedEntity} {entity : String} {id : EntityId}
    {s u : EntityStore X H C} {matching : Version (Record X) → Bool}
    (h : ∀ declaration key, mustGet declarations entity = .ok declaration → entityKey declaration id = .ok key →
      (versionsOf s.rows key).find? matching = (versionsOf u.rows key).find? matching) :
    EntityStore.read declarations s entity id matching = EntityStore.read declarations u entity id matching := by
  cases hget : mustGet declarations entity with
  | error e =>
    unfold EntityStore.read
    rw [hget]
    rfl
  | ok declaration =>
    cases hkey : entityKey declaration id with
    | error e =>
      unfold EntityStore.read
      rw [hget]
      show (entityKey declaration id >>= _) = (entityKey declaration id >>= _)
      rw [hkey]
      rfl
    | ok key => rw [EntityStore.read_eq hget hkey, EntityStore.read_eq hget hkey, h declaration key hget hkey]

theorem rowsOf_congr {fold fold' : EntityFold X H C} (hdeclarations : fold'.declarations = fold.declarations)
    {entity : String} (h : ∀ id, versionsOf fold'.store.rows ⟨entity, id⟩ = versionsOf fold.store.rows ⟨entity, id⟩)
    (id : EntityId) : fold'.rowsOf entity id = fold.rowsOf entity id := by
  unfold rowsOf EntityStore.getCurrent
  rw [hdeclarations]
  apply read_eq_of_keys
  intro declaration key hget hkey
  obtain ⟨ids, -, rfl⟩ := entityKey_ok.1 hkey
  rw [mustGet_name hget, h ids]

/-- What the mutations of a block do not name, they do not write. -/
theorem versionsOf_planned {declarations : List NormalizedEntity} {mutations : List (EntityMutation X)}
    {planned : List (Mutation EntityKey (Record X))} (hplan : mutations.mapM (plan declarations) = .ok planned)
    {entity : String} (h : entity ∉ entitiesTouchedBy mutations) (number : ℕ)
    (rows : List (Row EntityKey (Record X))) (id : List Text) :
    versionsOf (planned.foldl (applyMutation number) rows) ⟨entity, id⟩ = versionsOf rows ⟨entity, id⟩ := by
  rw [versionsOf_foldl]
  apply writes_of_notMem
  intro m hm heq
  obtain ⟨em, hem, hok⟩ := mem_of_mapM_ok hplan hm
  apply h
  refine mem_entitiesTouchedBy.2 ⟨em, hem, ?_⟩
  have hkey := MutationContext.plan_key hok
  obtain ⟨declaration, hget, hid⟩ := bind_eq_ok.1 hkey
  obtain ⟨ids, -, hids⟩ := entityKey_ok.1 hid
  rw [heq] at hids
  rw [← mustGet_name hget]
  exact (congrArg EntityKey.entity hids).symm

/-- **A discarded fold answers as it did exactly when it held no row.** -/
theorem rowsOf_reset_iff {fold : EntityFold X H C} :
    (∀ entity id, fold.reset.rowsOf entity id = fold.rowsOf entity id) ↔
      ∀ entity id declaration key, mustGet fold.declarations entity = .ok declaration →
        entityKey declaration id = .ok key →
          (versionsOf fold.store.rows key).find? (·.upper.isNone) = none := by
  have hwiped : fold.reset.store.rows = [] := by
    show fold.store.rows.filterMap _ = []
    rw [List.filterMap_eq_nil_iff]
    intro row _
    have hcut : cutAt (-1) row.versions = [] := by
      unfold cutAt
      rw [List.map_eq_nil_iff, List.filter_eq_nil_iff]
      intro v _
      rw [decide_eq_true_eq]
      omega
    dsimp only
    rw [hcut]
    rfl
  constructor
  · intro hsame entity id declaration key hget hkey
    have hread := hsame entity id
    unfold rowsOf EntityStore.getCurrent at hread
    rw [EntityStore.read_eq hget hkey] at hread
    change EntityStore.read fold.declarations _ _ _ _ = _ at hread
    rw [EntityStore.read_eq hget hkey, hwiped] at hread
    cases hfind : (versionsOf fold.store.rows key).find? (·.upper.isNone) with
    | none => rfl
    | some version =>
      rw [hfind] at hread
      change Except.ok none = (readVersion declaration version).map some at hread
      cases hv : readVersion declaration version with
      | error e => rw [hv] at hread; cases hread
      | ok row => rw [hv] at hread; cases hread
  · intro hnone entity id
    apply read_eq_of_keys
    intro declaration key hget hkey
    rw [hwiped, hnone entity id declaration key hget hkey]
    rfl

end EntityFold

/-- What of a container moves the state: the folds it holds, the one that answers reads, and
the publisher. -/
structure FoldContainer (G X H C : Type) where
  current : G
  folds : G → EntityFold X H C
  stateMoved : StateMovedPublisher

/-- One thing that moves the state of a fold, or the pointer. A reset, a clear and a source
update discard and leave the rest to the blocks applied next. -/
inductive ContainerStep (G X H C : Type) where
  | applyBlock (generation : G) (call : AppliedCall X H C)
  | revertTo (generation : G) (forkPoint : ℤ)
  | reset (generation : G)
  | updateProcessor (fold : EntityFold X H C)
  | movePointerTo (generation : G)

namespace FoldContainer

/-- What reads are answered. -/
def rowsOf (c : FoldContainer G X H C) (entity : String) (id : EntityId) : Except EntityError (Option (Record X)) :=
  (c.folds c.current).rowsOf entity id

variable [DecidableEq G]

def setFold (c : FoldContainer G X H C) (generation : G) (fold : EntityFold X H C) : FoldContainer G X H C :=
  { c with folds := Function.update c.folds generation fold }

/-- **Relay what a fold reports**, of the canonical fold only. -/
def publishFoldReport (c : FoldContainer G X H C) (generation : G) (report : FoldReport H) :
    FoldContainer G X H C × Option (StateMoved G H) :=
  if generation ≠ c.current then (c, none)
  else
    match report with
    | .retracted forkPoint =>
      let (stateMoved, moved) := c.stateMoved.publishRetraction forkPoint generation
      ({ c with stateMoved := stateMoved }, some moved)
    | .applied block hash entities => (c, some (c.stateMoved.publish block hash entities generation))

theorem publishFoldReport_of_ne {c : FoldContainer G X H C} {generation : G} (h : generation ≠ c.current)
    (report : FoldReport H) : c.publishFoldReport generation report = (c, none) :=
  if_pos h

theorem publishFoldReport_current {c : FoldContainer G X H C} {generation : G} (h : generation = c.current)
    (report : FoldReport H) : c.publishFoldReport generation report =
      match report with
      | .retracted forkPoint =>
        ({ c with stateMoved := c.stateMoved.rotate }, some (.retracted forkPoint (c.stateMoved.coherence + 1) generation))
      | .applied block hash entities =>
        (c, some (.applied block hash c.stateMoved.coherence entities generation)) := by
  unfold publishFoldReport
  rw [if_neg fun hne => hne h]
  cases report <;> rfl

/-- Move the pointer; naming the generation that answers already moves nothing. -/
def movePointerTo (c : FoldContainer G X H C) (generation : G) : FoldContainer G X H C × Option (StateMoved G H) :=
  if c.current ≠ generation then
    let (stateMoved, announce) := c.stateMoved.rotateForPointerMove
    ({ c with current := generation, stateMoved := stateMoved }, some (announce generation))
  else (c, none)

variable [DecidableEq H]

/-- **One step, and what it publishes.** A block that is refused reports nothing; a discard and
a swap tell `onStateUpdated` and publish nothing here. -/
def step (c : FoldContainer G X H C) : ContainerStep G X H C → FoldContainer G X H C × Option (StateMoved G H)
  | .applyBlock generation call =>
    let fold := c.folds generation
    match (EntityStore.applyBlock fold.declarations call).run.run fold.store with
    | (.error _, _) => (c, none)
    | (.ok _, store) =>
      (c.setFold generation { fold with store := store }).publishFoldReport generation
        (.applied call.block.number call.block.hash (entitiesTouchedBy call.mutations))
  | .revertTo generation forkPoint =>
    let fold := c.folds generation
    (c.setFold generation { fold with store := fold.store.revertTo forkPoint }).publishFoldReport generation
      (.retracted forkPoint)
  | .reset generation => (c.setFold generation (c.folds generation).reset, none)
  | .updateProcessor fold => (c.setFold c.current fold, none)
  | .movePointerTo generation => c.movePointerTo generation

/-- A discard of the canonical fold finds no row, and a swap puts in a fold that answers alike. -/
def Harmless (c : FoldContainer G X H C) : ContainerStep G X H C → Prop
  | .reset generation => generation = c.current →
    ∀ entity id declaration key, mustGet (c.folds c.current).declarations entity = .ok declaration →
      entityKey declaration id = .ok key →
        (versionsOf (c.folds c.current).store.rows key).find? (·.upper.isNone) = none
  | .updateProcessor fold => ∀ entity id, fold.rowsOf entity id = c.rowsOf entity id
  | _ => True

/-- A step that may change what is read and tells nobody. -/
def Discards (c : FoldContainer G X H C) : ContainerStep G X H C → Prop
  | .reset generation => generation = c.current
  | .updateProcessor _ => True
  | _ => False

omit [DecidableEq H] in
theorem rowsOf_setFold_self (c : FoldContainer G X H C) (fold : EntityFold X H C) (entity : String) (id : EntityId) :
    (c.setFold c.current fold).rowsOf entity id = fold.rowsOf entity id := by
  show EntityFold.rowsOf (Function.update c.folds c.current fold c.current) entity id = _
  rw [Function.update_self]

omit [DecidableEq H] in
theorem rowsOf_setFold_of_ne {c : FoldContainer G X H C} {generation : G} (h : generation ≠ c.current)
    (fold : EntityFold X H C) (entity : String) (id : EntityId) :
    (c.setFold generation fold).rowsOf entity id = c.rowsOf entity id := by
  show EntityFold.rowsOf (Function.update c.folds generation fold c.current) entity id = _
  rw [Function.update_of_ne h.symm]
  rfl

/-- **A block changes the rows of the entities it names and of no other.** -/
theorem rowsOf_applyBlock {fold : EntityFold X H C} {call : AppliedCall X H C} {store : EntityStore X H C}
    (h : (EntityStore.applyBlock fold.declarations call).run.run fold.store = (.ok (), store)) {entity : String}
    (hentity : entity ∉ entitiesTouchedBy call.mutations) (id : EntityId) :
    EntityFold.rowsOf { fold with store := store } entity id = fold.rowsOf entity id := by
  refine EntityFold.rowsOf_congr (by simp) (fun ids => ?_) id
  rcases EntityStore.applyBlock_cases fold.declarations call fold.store with ⟨e, he⟩ | ⟨planned, s', hplan, hok, hrun⟩
  · rw [h] at he
    cases congrArg Prod.fst he
  · have hs : store = s' := congrArg Prod.snd (h.symm.trans hrun)
    have hrows : s'.rows = planned.foldl (applyMutation call.block.number) fold.store.rows := by
      unfold MemoryStateStore.applyBlock at hok
      split at hok
      · cases hok
      split at hok
      · cases hok
      split at hok
      · cases hok
      · cases hok
        rfl
    show versionsOf store.rows _ = _
    rw [hs, hrows]
    exact EntityFold.versionsOf_planned hplan hentity _ _ ids

/-- **One step**: nothing is published and nothing moved, a discard aside; or a block is named
under the token in force and the entities it does not name keep their rows; or the token is new. -/
theorem step_cases (c : FoldContainer G X H C) (st : ContainerStep G X H C) :
    ((c.step st).2 = none ∧ (c.step st).1.stateMoved = c.stateMoved ∧
        (c.Discards st ∨ ∀ entity id, (c.step st).1.rowsOf entity id = c.rowsOf entity id)) ∨
      (∃ moved, (c.step st).2 = some moved ∧ (c.step st).1.stateMoved = c.stateMoved ∧ ¬c.Discards st ∧
        moved.coherence = c.stateMoved.coherence ∧
        ∀ entity ∉ moved.entities, ∀ id, (c.step st).1.rowsOf entity id = c.rowsOf entity id) ∨
      ∃ moved, (c.step st).2 = some moved ∧ ¬c.Discards st ∧
        (c.step st).1.stateMoved.coherence = c.stateMoved.coherence + 1 ∧
        moved.coherence = c.stateMoved.coherence + 1 := by
  cases st with
  | applyBlock generation call =>
    unfold step
    dsimp only
    split
    · exact .inl ⟨rfl, rfl, .inr fun _ _ => rfl⟩
    · rename_i store hrun
      by_cases hcurrent : generation = c.current
      · -- the canonical fold: the block goes out with the entities it touched
        subst hcurrent
        rw [publishFoldReport_current (by rfl)]
        refine .inr (.inl ⟨_, rfl, rfl, id, rfl, fun entity hentity id => ?_⟩)
        exact (rowsOf_setFold_self c _ entity id).trans (rowsOf_applyBlock hrun hentity id)
      · rw [publishFoldReport_of_ne (by exact hcurrent)]
        exact .inl ⟨rfl, rfl, .inr (rowsOf_setFold_of_ne hcurrent _)⟩
  | revertTo generation forkPoint =>
    unfold step
    dsimp only
    by_cases hcurrent : generation = c.current
    · subst hcurrent
      rw [publishFoldReport_current (by rfl)]
      exact .inr (.inr ⟨_, rfl, id, rfl, rfl⟩)
    · rw [publishFoldReport_of_ne (by exact hcurrent)]
      exact .inl ⟨rfl, rfl, .inr (rowsOf_setFold_of_ne hcurrent _)⟩
  | reset generation =>
    refine .inl ⟨rfl, rfl, ?_⟩
    by_cases hcurrent : generation = c.current
    · exact .inl hcurrent
    · exact .inr (rowsOf_setFold_of_ne hcurrent _)
  | updateProcessor fold => exact .inl ⟨rfl, rfl, .inl trivial⟩
  | movePointerTo generation =>
    unfold step movePointerTo
    dsimp only
    split
    · exact .inr (.inr ⟨_, rfl, id, rfl, rfl⟩)
    · exact .inl ⟨rfl, rfl, .inr fun _ _ => rfl⟩

/-- **A discard goes unseen exactly when it discards no row.** -/
theorem harmless_iff {c : FoldContainer G X H C} {st : ContainerStep G X H C} :
    c.Harmless st ↔ (c.Discards st → ∀ entity id, (c.step st).1.rowsOf entity id = c.rowsOf entity id) := by
  cases st with
  | reset generation =>
    refine forall_congr' fun hcurrent => ?_
    subst hcurrent
    rw [← EntityFold.rowsOf_reset_iff]
    refine forall_congr' fun entity => forall_congr' fun id => ?_
    have hstep : (c.step (.reset c.current)).1 = c.setFold c.current (c.folds c.current).reset := rfl
    rw [hstep, rowsOf_setFold_self]
    rfl
  | updateProcessor fold =>
    have hstep : (c.step (.updateProcessor fold)).1 = c.setFold c.current fold := rfl
    unfold Harmless Discards
    simp only [hstep, rowsOf_setFold_self, forall_const]
  | _ => simp [Harmless, Discards]

end FoldContainer

end Etherfold
