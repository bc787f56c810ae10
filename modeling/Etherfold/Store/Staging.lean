import Etherfold.Ledger.Overlay
import Etherfold.Store.AsOf

/-!
# The staging area of one block

A handler writes and reads through a staging area over the store. A read answers from what
the block staged first; a listing reads a page of the store, long enough, and merges what
the block staged into it.

* `staged_ok`: a handler stages one mutation for a key.
* `reads_own_writes`: **a read inside the block answers as the store would once the block is
  applied**, the version columns of a staged row aside.
-/

namespace Etherfold

open Versions

variable {X H C : Type}

/-- The entity a mutation names, and the id. -/
def EntityMutation.entity : EntityMutation X → String
  | .upsert entity _ _ => entity
  | .delete entity _ => entity

def EntityMutation.id : EntityMutation X → EntityId
  | .upsert _ id _ => id
  | .delete _ id => id

/-- The mutations collected, one for a key, in the order the keys were first touched. -/
abbrev Pending (X : Type) := List (EntityKey × EntityMutation X)

/-- Later writes to a key replace the earlier one where it stands. -/
def Pending.set (pending : Pending X) (key : EntityKey) (m : EntityMutation X) : Pending X :=
  if pending.any (·.1 = key) then pending.map fun p => if p.1 = key then (key, m) else p
  else pending ++ [(key, m)]

/-- The id columns a row was read with. -/
def Record.asId (row : Record X) : EntityId :=
  row.filterMap fun column =>
    match column.2 with
    | .text text => some (column.1, text)
    | _ => none

/-- What a handler calls on its state. -/
inductive StateCall (X : Type) where
  | get (entity : String) (id : EntityId)
  | set (entity : String) (id : EntityId) (values : Record X)
  | update (entity : String) (id : EntityId) (values : Record X)
  | list (entity : String) (idPrefix : EntityId) (limit : ℤ)
  | delete (entity : String) (id : EntityId)

/-- A staged key under a prefix, with the row it stages, if any. -/
structure StagedEntry (X : Type) where
  key : EntityKey
  id : List Text
  row : Option (Record X)

namespace MutationContext

def keyOf (declarations : List NormalizedEntity) (entity : String) (id : EntityId) : Except EntityError EntityKey := do
  let declaration ← mustGet declarations entity
  entityKey declaration id

/-- The staging area first, the store underneath. -/
def get (declarations : List NormalizedEntity) (s : EntityStore X H C) (pending : Pending X) (entity : String)
    (id : EntityId) : Except EntityError (Option (Record X)) := do
  let declaration ← mustGet declarations entity
  let key ← entityKey declaration id
  match pending.lookup key with
  | some (.delete _ _) => .ok none
  | some (.upsert _ id values) =>
    (idValues declaration.name declaration.id id).map fun ids => some (stagedRow declaration ids values)
  | none => EntityStore.getCurrent declarations s entity id

def set (declarations : List NormalizedEntity) (pending : Pending X) (entity : String) (id : EntityId)
    (values : Record X) : Except EntityError (Pending X) :=
  (keyOf declarations entity id).map fun key => pending.set key (.upsert entity id values)

def delete (declarations : List NormalizedEntity) (pending : Pending X) (entity : String) (id : EntityId) :
    Except EntityError (Pending X) :=
  (keyOf declarations entity id).map fun key => pending.set key (.delete entity id)

/-- A read, the values laid over its declared fields, and a write. -/
def update (declarations : List NormalizedEntity) (s : EntityStore X H C) (pending : Pending X) (entity : String)
    (id : EntityId) (values : Record X) : Except EntityError (Pending X) := do
  let declaration ← mustGet declarations entity
  let current ← get declarations s pending entity id
  let merged := declaration.fields.filterMap fun (field, _) =>
    current.bind fun row => (row.lookup field).map fun value => (field, value)
  set declarations pending entity id (values ++ merged)

/-- The staged row of a mutation. -/
def rowOf (declaration : NormalizedEntity) (id : List Text) : EntityMutation X → Option (Record X)
  | .upsert _ _ values => some (stagedRow declaration id values)
  | .delete _ _ => none

/-- What the block has staged under a prefix. -/
def stagedUnder (declaration : NormalizedEntity) (values : List Text) (pending : Pending X) :
    Except EntityError (List (StagedEntry X)) := do
  let entries ← (pending.filter fun p => p.2.entity = declaration.name).mapM fun p =>
    (idValues declaration.name declaration.id p.2.id).map fun id =>
      (⟨p.1, id, rowOf declaration id p.2⟩ : StagedEntry X)
  pure (entries.filter fun entry => hasIdPrefix entry.id values)

/-- **The store's scan with the staging area merged into it.** The staged keys are the most a
page can lose, so as many more rows are asked for. -/
def list (declarations : List NormalizedEntity) (s : EntityStore X H C) (pending : Pending X) (entity : String)
    (idPrefix : EntityId) (limit : ℤ) : Except EntityError (Listing X) := do
  let declaration ← mustGet declarations entity
  let values ← prefixValues declaration idPrefix
  assertListingLimit declaration limit
  let staged ← stagedUnder declaration values pending
  let stored ← EntityStore.listCurrent declarations s entity idPrefix (limit + staged.length)
  let keyed ← stored.rows.mapM fun row => (entityKey declaration row.asId).map fun key => (key, row)
  -- a key the block has touched is answered from the block
  let kept := keyed.filter fun p => !staged.any (·.key = p.1)
  let merged := kept.map (fun p => (p.1.id, p.2)) ++
    staged.filterMap fun entry => entry.row.map fun row => (entry.id, row)
  let sorted := merged.insertionSort fun a b => compareIds a.1 b.1 ≤ 0
  pure ⟨(sorted.take limit.toNat).map (·.2), limit.toNat < merged.length || stored.truncated⟩

/-- What a call stages; a refused call stages nothing. -/
def perform (declarations : List NormalizedEntity) (s : EntityStore X H C) (pending : Pending X) :
    StateCall X → Pending X
  | .set entity id values => ((set declarations pending entity id values).toOption).getD pending
  | .update entity id values => ((update declarations s pending entity id values).toOption).getD pending
  | .delete entity id => ((delete declarations pending entity id).toOption).getD pending
  | .get _ _ => pending
  | .list _ _ _ => pending

/-- What a block has staged after some calls. -/
def staged (declarations : List NormalizedEntity) (s : EntityStore X H C) (calls : List (StateCall X)) : Pending X :=
  calls.foldl (perform declarations s) []

/-- The mutations a block is applied with. -/
def mutations (pending : Pending X) : List (EntityMutation X) := pending.map (·.2)

/-! ### What is staged -/

/-- One mutation for a key, and each under its own key. -/
structure Staged (declarations : List NormalizedEntity) (pending : Pending X) : Prop where
  nodup : (pending.map (·.1)).Nodup
  keyed : ∀ p ∈ pending, keyOf declarations p.2.entity p.2.id = .ok p.1

theorem Staged.set {declarations : List NormalizedEntity} {pending : Pending X} (h : Staged declarations pending)
    {key : EntityKey} {m : EntityMutation X} (hm : keyOf declarations m.entity m.id = .ok key) :
    Staged declarations (pending.set key m) := by
  unfold Pending.set
  split
  · refine ⟨?_, fun p hp => ?_⟩
    · have hkeys : (pending.map fun p => if p.1 = key then (key, m) else p).map (·.1) = pending.map (·.1) := by
        rw [List.map_map]
        refine List.map_congr_left fun p _ => ?_
        rw [Function.comp_apply]
        split
        · rename_i hp
          exact hp.symm
        · rfl
      rw [hkeys]
      exact h.nodup
    · obtain ⟨q, hq, rfl⟩ := List.mem_map.1 hp
      split
      · exact hm
      · exact h.keyed q hq
  · rename_i hnew
    refine ⟨?_, fun p hp => ?_⟩
    · rw [List.map_append, List.nodup_append]
      refine ⟨h.nodup, List.nodup_singleton _, fun k hk k' hk' heq => hnew ?_⟩
      obtain ⟨p, hp, rfl⟩ := List.mem_map.1 hk
      rw [List.any_eq_true]
      have hk'' : k' = key := by simpa using hk'
      exact ⟨p, hp, by simpa using heq.trans hk''⟩
    · rcases List.mem_append.1 hp with hp | hp
      · exact h.keyed p hp
      · rw [List.mem_singleton.1 hp]
        exact hm

theorem Staged.of_ok {declarations : List NormalizedEntity} {pending pending' : Pending X}
    (h : Staged declarations pending) (m : EntityMutation X)
    (hok : ((keyOf declarations m.entity m.id).map fun key => pending.set key m) = .ok pending') :
    Staged declarations pending' := by
  cases hkey : keyOf declarations m.entity m.id with
  | error e => rw [hkey] at hok; cases hok
  | ok key =>
    rw [hkey] at hok
    cases hok
    exact h.set hkey

theorem Staged.perform {declarations : List NormalizedEntity} {s : EntityStore X H C} {pending : Pending X}
    (h : Staged declarations pending) (call : StateCall X) : Staged declarations (perform declarations s pending call) := by
  have hopt : ∀ r : Except EntityError (Pending X), (∀ pending', r = .ok pending' → Staged declarations pending') →
      Staged declarations (r.toOption.getD pending) := by
    intro r hr
    cases r with
    | error e => exact h
    | ok pending' => exact hr pending' rfl
  cases call with
  | get entity id => exact h
  | list entity idPrefix limit => exact h
  | set entity id values => exact hopt _ fun pending' => h.of_ok (.upsert entity id values)
  | delete entity id => exact hopt _ fun pending' => h.of_ok (.delete entity id)
  | update entity id values =>
    refine hopt _ fun pending' hok => ?_
    unfold update at hok
    obtain ⟨declaration, -, hok⟩ := bind_eq_ok.1 hok
    obtain ⟨current, -, hok⟩ := bind_eq_ok.1 hok
    exact h.of_ok (.upsert entity id _) hok

/-- **Whatever the calls, the staging area is in order.** -/
theorem staged_ok (declarations : List NormalizedEntity) (s : EntityStore X H C) (calls : List (StateCall X)) :
    Staged declarations (staged declarations s calls) := by
  induction calls using List.reverseRecOn with
  | nil => exact ⟨List.nodup_nil, fun p hp => by cases hp⟩
  | append_singleton calls call ih =>
    unfold staged at ih ⊢
    rw [List.foldl_append]
    exact ih.perform call

/-! ### Rows and their keys -/

theorem asId_append (row row' : Record X) : Record.asId (row ++ row') = row.asId ++ row'.asId := by
  unfold Record.asId
  exact List.filterMap_append

theorem asId_idColumns (declaration : NormalizedEntity) (ids : List Text) :
    Record.asId (idColumns declaration ids : Record X) = declaration.id.zip ids := by
  unfold idColumns Record.asId
  generalize declaration.id = columns
  induction columns generalizing ids with
  | nil => rfl
  | cons column columns ih =>
    cases ids with
    | nil => rfl
    | cons text ids =>
      rw [List.map_cons, List.zip_cons_cons, List.zip_cons_cons, List.filterMap_cons]
      exact congrArg _ (ih ids)

theorem lookup_zip {columns : List String} (h : columns.Nodup) {ids : List Text} {column : String} {text : Text}
    (hmem : (column, text) ∈ columns.zip ids) (rest : EntityId) :
    (columns.zip ids ++ rest).lookup column = some text := by
  induction columns generalizing ids with
  | nil => cases hmem
  | cons c columns ih =>
    cases ids with
    | nil => cases hmem
    | cons t ids =>
      rw [List.nodup_cons] at h
      rw [List.zip_cons_cons, List.mem_cons] at hmem
      rw [List.zip_cons_cons, List.cons_append, List.lookup_cons]
      rcases hmem with heq | hmem
      · cases heq
        rw [beq_self_eq_true]
      · have hne : column ≠ c := fun heq => h.1 (heq ▸ (List.of_mem_zip hmem).1)
        rw [beq_false_of_ne hne]
        exact ih h.2 hmem

/-- **A row carries the id it was read with.** -/
theorem entityKey_row {declaration : NormalizedEntity} {id : EntityId} {key : EntityKey}
    (h : entityKey declaration id = .ok key) (rest : Record X) :
    entityKey declaration (Record.asId (idColumns declaration key.id ++ rest)) = .ok key := by
  obtain ⟨ids, hids, rfl⟩ := entityKey_ok.1 h
  refine entityKey_ok.2 ⟨ids, ?_, rfl⟩
  unfold idValues at hids ⊢
  rw [mapM_eq_ok, List.forall₂_iff_zip] at hids ⊢
  refine ⟨hids.1, fun {column text} hmem => ?_⟩
  have htext := hids.2 hmem
  have hnul : (0 : UInt16) ∉ text := by
    unfold idValue at htext
    split at htext
    · cases htext
    · split at htext
      · cases htext
      · rename_i hnul
        cases htext
        exact hnul
  have hnodup : declaration.id.Nodup := (List.nodup_append.1 declaration.columns_nodup).1
  unfold idValue
  rw [asId_append, asId_idColumns, lookup_zip hnodup hmem]
  exact if_neg hnul

/-- A row the block staged itself has no version columns. -/
def unversioned (declarations : List NormalizedEntity) (pending : Pending X) (entity : String) (row : Record X) :
    Record X :=
  match keyOf declarations entity row.asId with
  | .error _ => row
  | .ok key =>
    if pending.any (·.1 = key) then row.filter fun column => column.1 ≠ "_lower" && column.1 ≠ "_upper" else row

variable {declarations : List NormalizedEntity} {pending : Pending X} {declaration : NormalizedEntity}
  {entity : String} {id : EntityId} {key : EntityKey}

theorem keyOf_ok (hget : mustGet declarations entity = .ok declaration) (id : EntityId) :
    keyOf declarations entity id = entityKey declaration id := by
  unfold keyOf
  rw [hget]
  rfl

theorem unversioned_of_staged (hget : mustGet declarations entity = .ok declaration)
    (hkey : entityKey declaration id = .ok key) (hstaged : pending.any (·.1 = key) = true) (values : Record X)
    (v : Version (Record X)) :
    unversioned declarations pending entity (stagedRow declaration key.id values ++ versionColumns v) =
      stagedRow declaration key.id values := by
  have hrow : keyOf declarations entity (Record.asId (stagedRow declaration key.id values ++ versionColumns v)) =
      .ok key := by
    rw [keyOf_ok hget, stagedRow, List.append_assoc]
    exact entityKey_row hkey _
  have hplain : ∀ column ∈ stagedRow declaration key.id values, column.1 ∈
      declaration.id ++ declaration.fields.map (·.1) := by
    intro column hcolumn
    rcases List.mem_append.1 hcolumn with hcolumn | hcolumn
    · exact List.mem_append_left _ (List.of_mem_zip hcolumn).1
    · obtain ⟨field, hfield, rfl⟩ := List.mem_map.1 hcolumn
      exact List.mem_append_right _ (List.mem_map_of_mem hfield)
  unfold unversioned
  rw [hrow]
  dsimp only
  rw [if_pos hstaged, List.filter_append]
  have hkeep : (stagedRow declaration key.id values).filter
      (fun column => column.1 ≠ "_lower" && column.1 ≠ "_upper") = stagedRow declaration key.id values := by
    refine List.filter_eq_self.2 fun column hcolumn => ?_
    have hname := declaration.unreserved _ (hplain column hcolumn)
    have hlower : column.1 ≠ "_lower" := fun heq => hname (by rw [heq]; rfl)
    have hupper : column.1 ≠ "_upper" := fun heq => hname (by rw [heq]; rfl)
    simp [hlower, hupper]
  rw [hkeep]
  have hdrop : (versionColumns v : Record X).filter (fun column => column.1 ≠ "_lower" && column.1 ≠ "_upper") = [] := by
    rfl
  rw [hdrop, List.append_nil]

theorem unversioned_of_unstaged (hget : mustGet declarations entity = .ok declaration)
    (hkey : entityKey declaration id = .ok key) (hnot : ¬pending.any (·.1 = key) = true) (rest : Record X) :
    unversioned declarations pending entity (idColumns declaration key.id ++ rest) =
      idColumns declaration key.id ++ rest := by
  unfold unversioned
  rw [keyOf_ok hget, entityKey_row hkey]
  exact if_neg hnot

/-! ### The store once the block is applied -/

/-- `s'` is `s` with the staged mutations applied as block `n`. -/
structure AppliedOver (declarations : List NormalizedEntity) (pending : Pending X) (s s' : EntityStore X H C)
    (n : ℕ) : Prop where
  nodup : KeysNodup s.rows
  nodup' : KeysNodup s'.rows
  canonical : ∀ key, ∀ v ∈ versionsOf s.rows key, ∃ declaration id values stored,
    EntityStore.Canonical declarations key v declaration id values stored
  untouched : ∀ key, ¬pending.any (·.1 = key) = true → versionsOf s'.rows key = versionsOf s.rows key
  deleted : ∀ key entity id, (key, .delete entity id) ∈ pending → current (versionsOf s'.rows key) = none
  upserted : ∀ key entity id values, (key, .upsert entity id values) ∈ pending →
    ∃ declaration stored, mustGet declarations entity = .ok declaration ∧ entityKey declaration id = .ok key ∧
      encodeFieldValues declaration values = .ok stored ∧
      current (versionsOf s'.rows key) = some ⟨storedRow declaration key.id stored, n, none⟩

/-- A mutation resolves to the key it names. -/
theorem plan_key {em : EntityMutation X} {m : Mutation EntityKey (Record X)} (hem : plan declarations em = .ok m) :
    keyOf declarations em.entity em.id = .ok m.key := by
  cases em with
  | upsert entity id values =>
    obtain ⟨declaration, hget, key, hid, stored, -, rfl⟩ := plan_upsert.1 hem
    exact (keyOf_ok hget id).trans hid
  | delete entity id =>
    obtain ⟨declaration, hget, key, hid, rfl⟩ := plan_delete.1 hem
    exact (keyOf_ok hget id).trans hid

/-- The planned mutations have the staged keys. -/
theorem planned_keys {planned : List (Mutation EntityKey (Record X))} (hp : Staged declarations pending)
    (h : (mutations pending).mapM (plan declarations) = .ok planned) :
    planned.map (·.key) = pending.map (·.1) := by
  unfold mutations at h
  rw [mapM_eq_ok, List.forall₂_map_left_iff] at h
  have hkeyed := hp.keyed
  clear hp
  induction h with
  | nil => rfl
  | cons hpm _ ih =>
    rename_i p m pending planned _
    have hkey := (plan_key hpm).symm.trans (hkeyed p List.mem_cons_self)
    rw [List.map_cons, List.map_cons, ih fun q hq => hkeyed q (List.mem_cons_of_mem _ hq),
      Except.ok.inj hkey]

theorem exists_planned {planned : List (Mutation EntityKey (Record X))}
    (h : (mutations pending).mapM (plan declarations) = .ok planned) {p : EntityKey × EntityMutation X}
    (hp : p ∈ pending) : ∃ m ∈ planned, plan declarations p.2 = .ok m := by
  unfold mutations at h
  rw [mapM_eq_ok, List.forall₂_map_left_iff] at h
  induction h with
  | nil => cases hp
  | cons hpm _ ih =>
    rcases List.mem_cons.1 hp with rfl | hp
    · exact ⟨_, List.mem_cons_self, hpm⟩
    · obtain ⟨m, hm, hplan⟩ := ih hp
      exact ⟨m, List.mem_cons_of_mem _ hm, hplan⟩

variable [DecidableEq H] {s s' s₀ : EntityStore X H C} {n : ℕ}

/-- **What applying the staged mutations does**, key by key. -/
theorem appliedOver {setting : Option RetentionSetting} {finalityDepth : Option ℕ}
    (hnew : MemoryStateStore.new setting finalityDepth = .ok s₀) (calls : List (RetainedCall X H C))
    (hp : Staged declarations pending) {block : BlockPointer H} {cursor : Option (String × C)}
    (happly : (EntityStore.applyBlock declarations ⟨block, mutations pending, cursor⟩).run.run
      (EntityStore.runRetained declarations s₀ calls) = (.ok (), s')) :
    AppliedOver declarations pending (EntityStore.runRetained declarations s₀ calls) s' block.number := by
  have hshadow := @EntityStore.shadow_runRetained _ _ _ _ declarations _ _ _ hnew calls
  obtain ⟨kept, applied, htracks⟩ := EntityStore.tracks_fullHistory declarations calls
  have hwf := hshadow.wellFormed_left
  rcases EntityStore.applyBlock_cases declarations ⟨block, mutations pending, cursor⟩
    (EntityStore.runRetained declarations s₀ calls) with ⟨e, hrun⟩ | ⟨planned, s'', hplan, happlied, hrun⟩
  · rw [hrun] at happly
    cases happly
  rw [hrun] at happly
  cases happly
  obtain ⟨-, -, -, hversions, hnodup⟩ := MemoryStateStore.applyBlock_ok hwf happlied
  have hkeys := planned_keys hp hplan
  have hplannodup : (planned.map (·.key)).Nodup := hkeys ▸ hp.nodup
  have hwritten : ∀ key em, (key, em) ∈ pending → ∃ m, plan declarations em = .ok m ∧ m.key = key ∧
      current (versionsOf s'.rows key) = m.values.map fun values => ⟨values, block.number, none⟩ := by
    intro key em hmem
    obtain ⟨m, hm, hem⟩ := exists_planned hplan hmem
    have hmkey : m.key = key := Except.ok.inj ((plan_key hem).symm.trans (hp.keyed _ hmem))
    refine ⟨m, hem, hmkey, ?_⟩
    rw [hversions, ← hmkey, writes_of_mem hplannodup hm]
    exact current_write (hwf.chained _) _ _
  refine ⟨hwf.nodup, hnodup, fun key v hv => ?_, fun key hnot => ?_, fun key entity id hmem => ?_,
    fun key entity id values hmem => ?_⟩
  · exact htracks.canonical ((hshadow.sublist key).subset hv)
  · rw [hversions]
    refine writes_of_notMem (fun m hm heq => hnot ?_) _
    have hin : m.key ∈ pending.map (·.1) := hkeys ▸ List.mem_map_of_mem hm
    obtain ⟨p, hp', hpk⟩ := List.mem_map.1 hin
    exact List.any_eq_true.2 ⟨p, hp', by simpa using hpk.trans heq⟩
  · obtain ⟨m, hem, -, hcur⟩ := hwritten key _ hmem
    obtain ⟨declaration, -, key', -, rfl⟩ := plan_delete.1 hem
    exact hcur
  · obtain ⟨m, hem, hmkey, hcur⟩ := hwritten key _ hmem
    obtain ⟨declaration, hget, key', hid, stored, hstored, rfl⟩ := plan_upsert.1 hem
    cases hmkey
    exact ⟨declaration, stored, hget, hid, hstored, hcur⟩

/-! ### Reads inside the block -/

omit [DecidableEq H] in
/-- What a row of the store reads as. -/
theorem readVersion_canonical {v : Version (Record X)} {values stored : Record X}
    (henc : encodeFieldValues declaration values = .ok stored) (hv : v.values = storedRow declaration key.id stored) :
    readVersion declaration v = .ok (stagedRow declaration key.id values ++ versionColumns v) := by
  unfold readVersion
  rw [hv]
  apply decode_encode henc
  intro column hcolumn hfield
  have hname := declaration.unreserved _ (List.mem_append_right _ hfield)
  unfold versionColumns at hcolumn
  rcases List.mem_cons.1 hcolumn with rfl | hcolumn
  · exact hname (show ("_lower" : String).toList.head? = some '_' by rfl)
  · rw [List.mem_singleton.1 hcolumn] at hname
    exact hname (show ("_upper" : String).toList.head? = some '_' by rfl)

omit [DecidableEq H] in
theorem entity_of_key (hget : mustGet declarations entity = .ok declaration)
    (hkey : entityKey declaration id = .ok key) : key.entity = entity := by
  obtain ⟨ids, -, rfl⟩ := entityKey_ok.1 hkey
  exact mustGet_name hget

omit [DecidableEq H] in
/-- Staged mutations that were applied have the declaration of their key. -/
theorem AppliedOver.upserted_under (h : AppliedOver declarations pending s s' n)
    (hget : mustGet declarations entity = .ok declaration) (hkey : key.entity = entity)
    {entity' : String} {values : Record X} (hmem : (key, .upsert entity' id values) ∈ pending) :
    ∃ stored, entityKey declaration id = .ok key ∧ encodeFieldValues declaration values = .ok stored ∧
      current (versionsOf s'.rows key) = some ⟨storedRow declaration key.id stored, n, none⟩ := by
  obtain ⟨declaration', stored, hget', hid, hstored, hcur⟩ := h.upserted _ _ _ _ hmem
  have hentity : entity' = entity := (entity_of_key hget' hid).symm.trans hkey
  rw [hentity, hget] at hget'
  cases hget'
  exact ⟨stored, hid, hstored, hcur⟩

omit [DecidableEq H] in
/-- **A read of one entity inside the block.** -/
theorem AppliedOver.get_eq (h : AppliedOver declarations pending s s' n) (entity : String) (id : EntityId) :
    get declarations s pending entity id =
      (EntityStore.getCurrent declarations s' entity id).map
        (Option.map (unversioned declarations pending entity)) := by
  unfold get EntityStore.getCurrent EntityStore.read
  cases hget : mustGet declarations entity with
  | error e => rfl
  | ok declaration =>
    dsimp only [bind, Except.bind]
    cases hkey : entityKey declaration id with
    | error e => rfl
    | ok key =>
      dsimp only
      have hentity := entity_of_key hget hkey
      cases hlookup : pending.lookup key with
      | none =>
        have hnot : ¬pending.any (·.1 = key) = true := by
          rw [List.lookup_eq_none_iff] at hlookup
          intro hany
          obtain ⟨p, hp, hpk⟩ := List.any_eq_true.1 hany
          have hne := hlookup p hp
          rw [bne_iff_ne] at hne
          exact hne (of_decide_eq_true hpk).symm
        rw [h.untouched key hnot]
        dsimp only
        cases hfind : (versionsOf s.rows key).find? (·.upper.isNone) with
        | none => rfl
        | some v =>
          obtain ⟨declaration', id', values, stored, hcanon⟩ := h.canonical key v (List.mem_of_find?_eq_some hfind)
          have hdecl := hcanon.declared
          rw [hentity, hget] at hdecl
          cases hdecl
          dsimp only
          rw [readVersion_canonical hcanon.encoded hcanon.values]
          have hplain : unversioned declarations pending entity (stagedRow declaration key.id values ++ versionColumns v) =
              stagedRow declaration key.id values ++ versionColumns v := by
            rw [stagedRow, List.append_assoc]
            exact unversioned_of_unstaged hget hkey hnot _
          dsimp only [Except.map, Option.map]
          rw [hplain]
      | some m =>
        have hmem : (key, m) ∈ pending := by
          obtain ⟨l₁, l₂, heq, -⟩ := List.lookup_eq_some_iff.1 hlookup
          rw [heq]
          exact List.mem_append_right _ List.mem_cons_self
        cases m with
        | delete entity' id' =>
          have hdel := h.deleted _ _ _ hmem
          unfold current at hdel
          rw [hdel]
          rfl
        | upsert entity' id' values =>
          obtain ⟨stored, hid, hstored, hcur⟩ := h.upserted_under hget hentity hmem
          obtain ⟨ids, hids, hkeq⟩ := entityKey_ok.1 hid
          have hstaged : pending.any (·.1 = key) = true := List.any_eq_true.2 ⟨_, hmem, decide_eq_true rfl⟩
          unfold current at hcur
          rw [hcur]
          dsimp only
          rw [readVersion_canonical hstored rfl, hids]
          dsimp only [Except.map, Option.map]
          rw [unversioned_of_staged hget hkey hstaged, hkeq]

/-! ### Listings inside the block -/

/-- The row a version reads as. -/
def shown (declaration : NormalizedEntity) (v : Version (Record X)) : Record X :=
  (readVersion declaration v).toOption.getD []

/-- What a prefix holds at the tip, in order. -/
def childrenOf (declaration : NormalizedEntity) (rows : List (Row EntityKey (Record X))) (values : List Text) :
    List (List Text × Record X) :=
  ((EntityStore.found rows declaration.name values (·.upper.isNone)).insertionSort
    fun a b => compareIds a.1 b.1 ≤ 0).map fun a => (a.1, shown declaration a.2)

/-- Every row at the tip reads as a whole row under its own id. -/
def Whole (declaration : NormalizedEntity) (rows : List (Row EntityKey (Record X))) : Prop :=
  ∀ ids v, current (versionsOf rows ⟨declaration.name, ids⟩) = some v →
    (∃ id, entityKey declaration id = .ok ⟨declaration.name, ids⟩) ∧
      ∃ values, readVersion declaration v = .ok (stagedRow declaration ids values ++ versionColumns v)

variable {rows : List (Row EntityKey (Record X))} {values : List Text} {idPrefix : EntityId} {limit : ℤ}

omit [DecidableEq H] in
theorem mem_childrenOf (hnodup : KeysNodup rows) {ids : List Text} {row : Record X} :
    (ids, row) ∈ childrenOf declaration rows values ↔ hasIdPrefix ids values = true ∧
      ∃ v, current (versionsOf rows ⟨declaration.name, ids⟩) = some v ∧ row = shown declaration v := by
  unfold childrenOf
  rw [List.mem_map]
  constructor
  · intro hmem
    obtain ⟨a, ha, heq⟩ := hmem
    cases heq
    rw [(List.perm_insertionSort _ _).mem_iff, EntityStore.mem_found hnodup] at ha
    exact ⟨ha.1, a.2, ha.2, rfl⟩
  · intro hmem
    obtain ⟨hpre, v, hv, rfl⟩ := hmem
    refine ⟨(ids, v), ?_, rfl⟩
    rw [(List.perm_insertionSort _ _).mem_iff, EntityStore.mem_found hnodup]
    exact ⟨hpre, hv⟩

omit [DecidableEq H] in
theorem sorted_childrenOf (hnodup : KeysNodup rows) :
    Paging.Sorted (fun a => idOrder a.1) (childrenOf declaration rows values) := by
  have hsorted := @EntityStore.sorted_found _ _ declaration.name values (·.upper.isNone) hnodup
  unfold childrenOf Paging.Sorted
  rw [List.pairwise_map]
  exact hsorted

omit [DecidableEq H] in
/-- **A listing is the beginning of what the prefix holds.** -/
theorem listCurrent_eq (hget : mustGet declarations entity = .ok declaration)
    (hvalues : prefixValues declaration idPrefix = .ok values) (hlimit : assertListingLimit declaration limit = .ok ())
    (hnodup : KeysNodup s.rows) (hwhole : Whole declaration s.rows) :
    EntityStore.listCurrent declarations s entity idPrefix limit =
      .ok ⟨((childrenOf declaration s.rows values).take limit.toNat).map (·.2),
        limit.toNat < (childrenOf declaration s.rows values).length⟩ := by
  unfold EntityStore.listCurrent EntityStore.scan childrenOf
  rw [hget]
  dsimp only [bind, Except.bind]
  rw [hvalues]
  dsimp only
  rw [hlimit]
  dsimp only
  set found := (EntityStore.found s.rows declaration.name values (·.upper.isNone)).insertionSort
    fun a b => compareIds a.1 b.1 ≤ 0 with hfound
  have hread : (found.take (limit.toNat + 1)).mapM (fun row => readVersion declaration row.2) =
      .ok ((found.take (limit.toNat + 1)).map fun row => shown declaration row.2) := by
    rw [mapM_eq_ok, List.forall₂_map_right_iff, List.forall₂_same]
    intro a ha
    have hmem := List.mem_of_mem_take ha
    rw [hfound, (List.perm_insertionSort _ _).mem_iff, EntityStore.mem_found hnodup] at hmem
    obtain ⟨-, values', hv⟩ := hwhole a.1 a.2 hmem.2
    unfold shown
    rw [hv]
    rfl
  rw [hread]
  dsimp only [boundedListing, pure, Except.pure]
  rw [← List.map_take, List.take_take, min_eq_left (Nat.le_succ _), ← List.map_take, List.map_map, List.length_map,
    List.length_map, List.length_take]
  congr 2
  simp only [decide_eq_decide]
  omega

/-- What the block has touched under a prefix. -/
def touchedUnder (declaration : NormalizedEntity) (values : List Text) (pending : Pending X) : Pending X :=
  pending.filter fun p => p.1.entity = declaration.name && hasIdPrefix p.1.id values

/-- The entry of a staged mutation. -/
def entryOf (declaration : NormalizedEntity) (p : EntityKey × EntityMutation X) : StagedEntry X :=
  ⟨p.1, p.1.id, rowOf declaration p.1.id p.2⟩

omit [DecidableEq H] in
theorem Staged.entity_eq (hp : Staged declarations pending) {p : EntityKey × EntityMutation X} (hmem : p ∈ pending) :
    p.2.entity = p.1.entity := by
  have hkey := hp.keyed p hmem
  unfold keyOf at hkey
  obtain ⟨declaration, hget, hid⟩ := bind_eq_ok.1 hkey
  exact (entity_of_key hget hid).symm

omit [DecidableEq H] in
/-- The staged entries under a prefix are the mutations touched there. -/
theorem Staged.stagedUnder_eq (hp : Staged declarations pending) (hget : mustGet declarations entity = .ok declaration)
    (values : List Text) :
    stagedUnder declaration values pending = .ok ((touchedUnder declaration values pending).map (entryOf declaration)) := by
  have hname := mustGet_name hget
  unfold stagedUnder touchedUnder
  have hentries : ((pending.filter fun p => p.2.entity = declaration.name).mapM fun p =>
      (idValues declaration.name declaration.id p.2.id).map fun id =>
        (⟨p.1, id, rowOf declaration id p.2⟩ : StagedEntry X)) =
      .ok ((pending.filter fun p => p.2.entity = declaration.name).map (entryOf declaration)) := by
    rw [mapM_eq_ok, List.forall₂_map_right_iff, List.forall₂_same]
    intro p hmem
    obtain ⟨hmem, hentity⟩ := List.mem_filter.1 hmem
    have hkey := hp.keyed p hmem
    rw [of_decide_eq_true hentity, hname, keyOf_ok hget] at hkey
    obtain ⟨ids, hids, hpk⟩ := entityKey_ok.1 hkey
    unfold entryOf
    rw [hids, hpk]
    rfl
  rw [hentries]
  dsimp only [bind, Except.bind, pure, Except.pure]
  rw [List.filter_map, List.filter_filter]
  congr 2
  refine List.filter_congr fun p hmem => ?_
  rw [hp.entity_eq hmem, Bool.and_comm]
  rfl

omit [DecidableEq H] in
theorem AppliedOver.whole (h : AppliedOver declarations pending s s' n)
    (hget : mustGet declarations declaration.name = .ok declaration) : Whole declaration s.rows := by
  intro ids v hv
  obtain ⟨declaration', id, values, stored, hcanon⟩ := h.canonical _ v (List.mem_of_find?_eq_some hv)
  have hdecl := hcanon.declared
  rw [hget] at hdecl
  cases hdecl
  exact ⟨⟨id, hcanon.keyed⟩, values, readVersion_canonical hcanon.encoded hcanon.values⟩

omit [DecidableEq H] in
/-- A key the block touched stands as it was staged. -/
theorem AppliedOver.current_touched (h : AppliedOver declarations pending s s' n)
    (hget : mustGet declarations declaration.name = .ok declaration) {ids : List Text} {m : EntityMutation X}
    (hmem : (⟨declaration.name, ids⟩, m) ∈ pending) {v : Version (Record X)}
    (hv : current (versionsOf s'.rows ⟨declaration.name, ids⟩) = some v) :
    ∃ entity id values, m = .upsert entity id values ∧ entityKey declaration id = .ok ⟨declaration.name, ids⟩ ∧
      readVersion declaration v = .ok (stagedRow declaration ids values ++ versionColumns v) := by
  cases m with
  | delete entity id =>
    rw [h.deleted _ _ _ hmem] at hv
    cases hv
  | upsert entity id values =>
    obtain ⟨stored, hid, hstored, hcur⟩ := h.upserted_under hget rfl hmem
    rw [hcur] at hv
    cases hv
    exact ⟨entity, id, values, rfl, hid, @readVersion_canonical _ declaration ⟨declaration.name, ids⟩ _ _ _ hstored rfl⟩

omit [DecidableEq H] in
theorem AppliedOver.whole' (h : AppliedOver declarations pending s s' n)
    (hget : mustGet declarations declaration.name = .ok declaration) : Whole declaration s'.rows := by
  intro ids v hv
  by_cases htouched : pending.any (·.1 = ⟨declaration.name, ids⟩) = true
  · obtain ⟨⟨key, m⟩, hmem, hkey⟩ := List.any_eq_true.1 htouched
    have hkey' : key = ⟨declaration.name, ids⟩ := of_decide_eq_true hkey
    rw [hkey'] at hmem
    obtain ⟨-, id, values, -, hid, hread⟩ := h.current_touched hget hmem hv
    exact ⟨⟨id, hid⟩, values, hread⟩
  · rw [h.untouched _ htouched] at hv
    exact h.whole hget ids v hv

/-- The rows the block stages itself. -/
def stagedRows (declaration : NormalizedEntity) (touched : Pending X) : List (List Text × Record X) :=
  touched.filterMap fun p => (rowOf declaration p.1.id p.2).map fun row => (p.1.id, row)

omit [DecidableEq H] in
theorem mem_stagedRows {touched : Pending X} {ids : List Text} {row : Record X} :
    (ids, row) ∈ stagedRows declaration touched ↔ ∃ key entity id values,
      (key, .upsert entity id values) ∈ touched ∧ key.id = ids ∧ row = stagedRow declaration ids values := by
  unfold stagedRows
  rw [List.mem_filterMap]
  constructor
  · intro hmem
    obtain ⟨⟨key, m⟩, hp, hrow⟩ := hmem
    cases m with
    | delete entity id => cases hrow
    | upsert entity id values =>
      cases hrow
      exact ⟨key, entity, id, values, hp, rfl, rfl⟩
  · intro hmem
    obtain ⟨key, entity, id, values, hp, rfl, rfl⟩ := hmem
    exact ⟨_, hp, rfl⟩

omit [DecidableEq H] in
theorem mem_touchedUnder {p : EntityKey × EntityMutation X} :
    p ∈ touchedUnder declaration values pending ↔
      p ∈ pending ∧ p.1.entity = declaration.name ∧ hasIdPrefix p.1.id values = true := by
  unfold touchedUnder
  rw [List.mem_filter, Bool.and_eq_true, decide_eq_true_eq]

omit [DecidableEq H] in
/-- The ids touched under a prefix are those of the staged keys there. -/
theorem mem_touched_ids {ids : List Text} (hpre : hasIdPrefix ids values = true) :
    idOrder ids ∈ (touchedUnder declaration values pending).map (fun p => idOrder p.1.id) ↔
      pending.any (·.1 = ⟨declaration.name, ids⟩) = true := by
  rw [List.mem_map, List.any_eq_true]
  constructor
  · intro hmem
    obtain ⟨p, hp, hids⟩ := hmem
    obtain ⟨hp, hentity, -⟩ := mem_touchedUnder.1 hp
    refine ⟨p, hp, decide_eq_true ?_⟩
    rw [← hentity, ← idOrder_inj hids]
  · intro hmem
    obtain ⟨p, hp, hkey⟩ := hmem
    have hkey' := of_decide_eq_true hkey
    refine ⟨p, mem_touchedUnder.2 ⟨hp, ?_, ?_⟩, ?_⟩
    · rw [hkey']
    · rw [hkey']
      exact hpre
    · rw [hkey']

omit [DecidableEq H] in
/-- **Under a prefix, the applied block is an overlay of the store.** -/
theorem AppliedOver.overlaid (h : AppliedOver declarations pending s s' n) (hp : Staged declarations pending)
    (hget : mustGet declarations declaration.name = .ok declaration) (values : List Text) :
    Paging.Overlaid (fun a : List Text × Record X => idOrder a.1) (childrenOf declaration s.rows values)
      (stagedRows declaration (touchedUnder declaration values pending))
      ((childrenOf declaration s'.rows values).map fun a =>
        (a.1, unversioned declarations pending declaration.name a.2))
      ((touchedUnder declaration values pending).map fun p => idOrder p.1.id) := by
  refine ⟨sorted_childrenOf h.nodup, ?_, ?_, ?_, ?_⟩
  · unfold Paging.Sorted
    rw [List.pairwise_map]
    exact sorted_childrenOf h.nodup'
  · intro x
    obtain ⟨ids, row⟩ := x
    have hafter : (ids, row) ∈ (childrenOf declaration s'.rows values).map (fun a =>
        (a.1, unversioned declarations pending declaration.name a.2)) ↔ hasIdPrefix ids values = true ∧
        ∃ v, current (versionsOf s'.rows ⟨declaration.name, ids⟩) = some v ∧
          row = unversioned declarations pending declaration.name (shown declaration v) := by
      rw [List.mem_map]
      constructor
      · intro hmem
        obtain ⟨⟨ids', row'⟩, ha, heq⟩ := hmem
        cases heq
        obtain ⟨hpre, v, hv, rfl⟩ := (mem_childrenOf h.nodup').1 ha
        exact ⟨hpre, v, hv, rfl⟩
      · intro hmem
        obtain ⟨hpre, v, hv, rfl⟩ := hmem
        exact ⟨(ids, shown declaration v), (mem_childrenOf h.nodup').2 ⟨hpre, v, hv, rfl⟩, rfl⟩
    rw [hafter, mem_childrenOf h.nodup, mem_stagedRows]
    constructor
    · intro hmem
      obtain ⟨hpre, v, hv, rfl⟩ := hmem
      by_cases htouched : pending.any (·.1 = ⟨declaration.name, ids⟩) = true
      · obtain ⟨⟨key, m⟩, hm, hkey⟩ := List.any_eq_true.1 htouched
        have hkey' : key = ⟨declaration.name, ids⟩ := of_decide_eq_true hkey
        rw [hkey'] at hm
        obtain ⟨entity, id, values', rfl, hid, hread⟩ := h.current_touched hget hm hv
        refine .inr ⟨_, entity, id, values', mem_touchedUnder.2 ⟨hm, rfl, hpre⟩, rfl, ?_⟩
        unfold shown
        rw [hread]
        exact unversioned_of_staged hget hid htouched values' v
      · obtain ⟨⟨id, hid⟩, values', hread⟩ := h.whole' hget ids v hv
        rw [h.untouched _ htouched] at hv
        refine .inl ⟨⟨hpre, v, hv, ?_⟩, fun hin => htouched ((mem_touched_ids hpre).1 hin)⟩
        unfold shown
        rw [hread]
        dsimp only [Except.toOption, Option.getD]
        rw [stagedRow, List.append_assoc]
        exact unversioned_of_unstaged hget hid htouched _
    · intro hmem
      rcases hmem with ⟨⟨hpre, v, hv, rfl⟩, hnot⟩ | ⟨key, entity, id, values', hm, rfl, rfl⟩
      · have hout : ¬pending.any (·.1 = ⟨declaration.name, ids⟩) = true :=
          fun htouched => hnot ((mem_touched_ids hpre).2 htouched)
        obtain ⟨⟨id, hid⟩, values', hread⟩ := h.whole hget ids v hv
        rw [← h.untouched _ hout] at hv
        refine ⟨hpre, v, hv, ?_⟩
        unfold shown
        rw [hread]
        dsimp only [Except.toOption, Option.getD]
        rw [stagedRow, List.append_assoc]
        exact (unversioned_of_unstaged hget hid hout _).symm
      · obtain ⟨hm, hentity, hpre⟩ := mem_touchedUnder.1 hm
        have hkey : key = ⟨declaration.name, key.id⟩ := by rw [← hentity]
        obtain ⟨stored, hid, hstored, hcur⟩ := h.upserted_under hget hentity hm
        refine ⟨hpre, _, hkey ▸ hcur, ?_⟩
        unfold shown
        rw [readVersion_canonical hstored rfl]
        exact (unversioned_of_staged hget hid (List.any_eq_true.2 ⟨_, hm, decide_eq_true rfl⟩) values' _).symm
  · intro x hx
    obtain ⟨ids, row⟩ := x
    obtain ⟨key, entity, id, values', hm, rfl, -⟩ := mem_stagedRows.1 hx
    exact List.mem_map_of_mem (f := fun p : EntityKey × EntityMutation X => idOrder p.1.id) hm
  · have hkeys : pending.Pairwise fun p q => p.1 ≠ q.1 := List.pairwise_map.1 hp.nodup
    have hids : (touchedUnder declaration values pending).Pairwise fun p q => idOrder p.1.id ≠ idOrder q.1.id := by
      refine List.Pairwise.imp_of_mem (fun {p q} hmem hmem' hne heq => hne ?_) (hkeys.filter _)
      have hentity := (mem_touchedUnder.1 hmem).2.1.trans (mem_touchedUnder.1 hmem').2.1.symm
      cases hpk : p.1
      cases hqk : q.1
      rw [hpk, hqk] at heq hentity
      rw [EntityKey.mk.injEq]
      exact ⟨hentity, idOrder_inj heq⟩
    unfold stagedRows
    refine List.Pairwise.filterMap _ (fun p q hne a ha b hb => ?_) hids
    obtain ⟨row, -, rfl⟩ := Option.map_eq_some_iff.1 ha
    obtain ⟨row', -, rfl⟩ := Option.map_eq_some_iff.1 hb
    exact hne

omit [DecidableEq H] in
/-- The rows of a listing, each with the key it was stored under. -/
theorem keyed_rows (hnodup : KeysNodup rows) (hwhole : Whole declaration rows) (values : List Text) (k : ℕ) :
    (((childrenOf declaration rows values).take k).map (·.2)).mapM
        (fun row => (entityKey declaration row.asId).map fun key => (key, row)) =
      .ok (((childrenOf declaration rows values).take k).map fun a => (⟨declaration.name, a.1⟩, a.2)) := by
  rw [mapM_eq_ok, List.forall₂_map_left_iff, List.forall₂_map_right_iff, List.forall₂_same]
  intro a ha
  obtain ⟨ids, row⟩ := a
  obtain ⟨-, v, hv, rfl⟩ := (mem_childrenOf hnodup).1 (List.mem_of_mem_take ha)
  obtain ⟨⟨id, hid⟩, values', hread⟩ := hwhole ids v hv
  have hkey : entityKey declaration (Record.asId (shown declaration v)) = .ok ⟨declaration.name, ids⟩ := by
    unfold shown
    rw [hread]
    dsimp only [Except.toOption, Option.getD]
    rw [stagedRow, List.append_assoc]
    exact entityKey_row hid _
  rw [hkey]
  rfl

omit [DecidableEq H] in
/-- What is merged is a page under an overlay. -/
theorem merged_eq (declaration : NormalizedEntity) (values : List Text) (pending : Pending X)
    (stored : List (List Text × Record X)) (k : ℕ) :
    ((((stored.take (k + (touchedUnder declaration values pending).length)).map fun a =>
        ((⟨declaration.name, a.1⟩ : EntityKey), a.2)).filter fun p =>
          !((touchedUnder declaration values pending).map (entryOf declaration)).any (·.key = p.1)).map
            fun p => (p.1.id, p.2)) ++
      ((touchedUnder declaration values pending).map (entryOf declaration)).filterMap
        (fun entry => entry.row.map fun row => (entry.id, row)) =
      Paging.page (fun a => idOrder a.1) stored (stagedRows declaration (touchedUnder declaration values pending))
        ((touchedUnder declaration values pending).map fun p => idOrder p.1.id) k := by
  unfold Paging.page stagedRows
  rw [List.length_map, List.filter_map, List.map_map, List.filterMap_map]
  congr 1
  have hid : (fun p : EntityKey × Record X => (p.1.id, p.2)) ∘ (fun a : List Text × Record X =>
      ((⟨declaration.name, a.1⟩ : EntityKey), a.2)) = id := rfl
  rw [hid, List.map_id]
  refine List.filter_congr fun a _ => ?_
  rw [Function.comp_apply, Bool.eq_iff_iff, Bool.not_eq_true', ← Bool.not_eq_true, List.any_map, List.any_eq_true,
    @decide_eq_true_eq _ (_), not_iff_not, List.mem_map]
  constructor
  · intro hany
    obtain ⟨p, hp, hkey⟩ := hany
    have hkey' : p.1 = ⟨declaration.name, a.1⟩ := of_decide_eq_true hkey
    exact ⟨p, hp, by rw [hkey']⟩
  · intro hmem
    obtain ⟨p, hp, hids⟩ := hmem
    refine ⟨p, hp, decide_eq_true ?_⟩
    show p.1 = _
    rw [← (mem_touchedUnder.1 hp).2.1, ← idOrder_inj hids]

omit [DecidableEq H] in
/-- **A listing inside the block.** -/
theorem AppliedOver.list_eq (h : AppliedOver declarations pending s s' n) (hp : Staged declarations pending)
    (entity : String) (idPrefix : EntityId) (limit : ℤ) :
    list declarations s pending entity idPrefix limit =
      (EntityStore.listCurrent declarations s' entity idPrefix limit).map fun answer =>
        ⟨answer.rows.map (unversioned declarations pending entity), answer.truncated⟩ := by
  cases hget : mustGet declarations entity with
  | error e =>
    unfold list EntityStore.listCurrent EntityStore.scan
    rw [hget]
    rfl
  | ok declaration =>
    cases hvalues : prefixValues declaration idPrefix with
    | error e =>
      unfold list EntityStore.listCurrent EntityStore.scan
      rw [hget]
      dsimp only [bind, Except.bind]
      rw [hvalues]
      rfl
    | ok values =>
      cases hlimit : assertListingLimit declaration limit with
      | error e =>
        unfold list EntityStore.listCurrent EntityStore.scan
        rw [hget]
        dsimp only [bind, Except.bind]
        rw [hvalues]
        dsimp only
        rw [hlimit]
        rfl
      | ok _ =>
        have hname := mustGet_name hget
        subst hname
        have hpos : 1 ≤ limit := by
          unfold assertListingLimit at hlimit
          split at hlimit
          · cases hlimit
          · omega
        set touched := touchedUnder declaration values pending with htouched
        have hlimit' : assertListingLimit declaration (limit + (touched.map (entryOf declaration)).length) = .ok () := by
          unfold assertListingLimit
          exact if_neg (by omega)
        have hbudget : (limit + (touched.map (entryOf declaration)).length).toNat = limit.toNat + touched.length := by
          rw [List.length_map]
          omega
        have hover := h.overlaid hp hget values
        rw [listCurrent_eq hget hvalues hlimit h.nodup' (h.whole' hget)]
        unfold list
        rw [hget]
        dsimp only [bind, Except.bind]
        rw [hvalues]
        dsimp only
        rw [hlimit]
        dsimp only
        rw [hp.stagedUnder_eq hget]
        dsimp only
        rw [listCurrent_eq hget hvalues hlimit' h.nodup (h.whole hget), hbudget]
        dsimp only
        rw [keyed_rows h.nodup (h.whole hget)]
        dsimp only [pure, Except.pure, Except.map]
        rw [merged_eq]
        -- the order of the listing is the order of its ids
        have hsort : (fun a b : List Text × Record X => compareIds a.1 b.1 ≤ 0) =
            fun a b => idOrder a.1 ≤ idOrder b.1 := by
          funext a b
          exact propext (agrees_compareIds.le a.1 b.1)
        have htake := Paging.take_overlay hover limit.toNat
        have hlength := Paging.length_overlay hover limit.toNat
        rw [List.length_map, List.length_map] at hlength
        congr 2
        · simp only [hsort]
          rw [htake, ← List.map_take, List.map_map, List.map_map]
          rfl
        · rw [Bool.eq_iff_iff, Bool.or_eq_true, decide_eq_true_eq, decide_eq_true_eq, decide_eq_true_eq]
          exact hlength.symm

/-- **A block reads its own writes**: what it reads is what the store would answer with the
staged mutations applied, a row it staged itself without its version columns. -/
theorem reads_own_writes (declarations : List NormalizedEntity) {setting : Option RetentionSetting}
    {finalityDepth : Option ℕ} (hnew : MemoryStateStore.new setting finalityDepth = .ok s₀)
    (before : List (RetainedCall X H C)) (calls : List (StateCall X)) (block : BlockPointer H)
    (cursor : Option (String × C))
    (happly : (EntityStore.applyBlock declarations
      ⟨block, mutations (staged declarations (EntityStore.runRetained declarations s₀ before) calls), cursor⟩).run.run
        (EntityStore.runRetained declarations s₀ before) = (.ok (), s')) :
    (∀ entity id, get declarations (EntityStore.runRetained declarations s₀ before)
        (staged declarations (EntityStore.runRetained declarations s₀ before) calls) entity id =
      (EntityStore.getCurrent declarations s' entity id).map (Option.map (unversioned declarations
        (staged declarations (EntityStore.runRetained declarations s₀ before) calls) entity))) ∧
    ∀ entity idPrefix limit, list declarations (EntityStore.runRetained declarations s₀ before)
        (staged declarations (EntityStore.runRetained declarations s₀ before) calls) entity idPrefix limit =
      (EntityStore.listCurrent declarations s' entity idPrefix limit).map fun answer =>
        ⟨answer.rows.map (unversioned declarations
          (staged declarations (EntityStore.runRetained declarations s₀ before) calls) entity), answer.truncated⟩ := by
  have hstaged := staged_ok declarations (EntityStore.runRetained declarations s₀ before) calls
  have happlied := appliedOver hnew before hstaged happly
  exact ⟨happlied.get_eq, happlied.list_eq hstaged⟩

end MutationContext

/-- Two coins are in the store. The block deletes the first, writes the second and a third. -/
def stagedCalls : List (StateCall Unit) :=
  [.delete "coin" [("id", [65])], .update "coin" [("id", [66])] [("value", .number 7)],
    .set "coin" [("id", [67])] []]

/-- The coins the block finds. -/
def coinsBefore : List (RetainedCall Unit ℕ Unit) :=
  [.call (.applyBlock ⟨⟨1, 1⟩, [.upsert "coin" [("id", [65])] [], .upsert "coin" [("id", [66])] []], none⟩)]

/-- The store the block finds, and what the block stages. -/
def coinsStore : EntityStore Unit ℕ Unit := EntityStore.runRetained [coin] emptyStore coinsBefore

def coinsStaged : Pending Unit := MutationContext.staged [coin] coinsStore stagedCalls

/-- The staged mutations applied as block 2. -/
def coinsApplied : Except (ApplyError ℕ) Unit × EntityStore Unit ℕ Unit :=
  (EntityStore.applyBlock [coin] ⟨⟨2, 2⟩, MutationContext.mutations coinsStaged, none⟩).run.run coinsStore

theorem reads_own_writes_stagedCalls : MutationContext.list [coin] coinsStore coinsStaged "coin" [("id", [66])] 1 =
    (EntityStore.listCurrent [coin] coinsApplied.2 "coin" [("id", [66])] 1).map fun answer =>
      ⟨answer.rows.map (MutationContext.unversioned [coin] coinsStaged "coin"), answer.truncated⟩ := by
  have hnew : MemoryStateStore.new none none = .ok emptyStore := rfl
  have happly : coinsApplied = (.ok (), coinsApplied.2) := rfl
  have hread := MutationContext.reads_own_writes [coin] hnew coinsBefore stagedCalls ⟨2, 2⟩ none happly
  exact hread.2 "coin" [("id", [66])] 1

/-- A row written in the block reads without version columns, and with them once applied. -/
theorem stagedCalls_versions : coinsApplied.1 = .ok () ∧
    MutationContext.get [coin] coinsStore coinsStaged "coin" [("id", [67])] =
      .ok (some [("id", .text [67]), ("value", .null)]) ∧
    EntityStore.getCurrent [coin] coinsApplied.2 "coin" [("id", [67])] =
      .ok (some [("id", .text [67]), ("value", .null), ("_lower", .number 2), ("_upper", .null)]) ∧
    MutationContext.get [coin] coinsStore coinsStaged "coin" [("id", [67])] ≠
      EntityStore.getCurrent [coin] coinsApplied.2 "coin" [("id", [67])] :=
  ⟨rfl, rfl, rfl, fun h => by cases h⟩

end Etherfold
