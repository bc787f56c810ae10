import Etherfold.Store.Replay
import Etherfold.Store.Staging

/-!
# The patch store

`PatchStateStore` keeps the current rows as properties of plain objects, one object an entity,
and for every block the patches that undo it. A revert replays them backwards, and a prune
drops the oldest.

* `LightState`, `inheritedNames`: the rows, and what every object answers without having it.
* `Immer.Exact`: what is relied on of the library that makes and applies the patches.
* `PatchStateStore.Represents`: the store next to the blocks it is made of.
* `Represents.applyBlock`, `Represents.revertTo`: **every operation keeps it**.
-/

namespace Etherfold

open Versions

/-! ### Rows as properties -/

/-- One row under its property: the entity's object, and the joined id values. -/
structure LightRow (X : Type) where
  entity : String
  key : Text
  row : Record X
  deriving DecidableEq, Repr

variable {X H C : Type}

/-- The row is under this property. -/
def LightRow.At (r : LightRow X) (entity : String) (key : Text) : Prop := r.entity = entity ∧ r.key = key

instance (r : LightRow X) (entity : String) (key : Text) : Decidable (r.At entity key) :=
  inferInstanceAs (Decidable (_ ∧ _))

/-- **The rows**, each under a property of its own. -/
structure LightState (X : Type) where
  rows : List (LightRow X)
  distinct : rows.Pairwise fun a b => ¬a.At b.entity b.key

/-- A text of plain letters. -/
def ascii (s : String) : Text := s.toList.map fun c => UInt16.ofNat c.toNat

/-- The names every object inherits. -/
def inheritedNames : List Text :=
  ["constructor", "__defineGetter__", "__defineSetter__", "hasOwnProperty", "__lookupGetter__", "__lookupSetter__",
    "isPrototypeOf", "propertyIsEnumerable", "toLocaleString", "toString", "valueOf", "__proto__"].map ascii

/-- The id values of a key, joined by a NUL. -/
def bucketKey (key : EntityKey) : Text := [0].intercalate key.id

/-- An own property. -/
def LightState.own (s : LightState X) (entity : String) (key : Text) : Option (Record X) :=
  (s.rows.find? (·.At entity key)).map (·.row)

/-- What a property reads as. An inherited one is a function or an object whose copy is empty. -/
def LightState.get (s : LightState X) (entity : String) (key : Text) : Option (Record X) :=
  match s.own entity key with
  | some row => some row
  | none => if key ∈ inheritedNames then some [] else none

def LightState.empty : LightState X := ⟨[], List.Pairwise.nil⟩

/-- `delete` takes an own property away. -/
def LightState.remove (s : LightState X) (entity : String) (key : Text) : LightState X :=
  ⟨s.rows.filter (¬·.At entity key), s.distinct.filter _⟩

/-- An assignment makes an own property; where it stands among the others is never seen. -/
def LightState.assign (s : LightState X) (entity : String) (key : Text) (row : Record X) : LightState X where
  rows := (s.remove entity key).rows ++ [⟨entity, key, row⟩]
  distinct := by
    refine List.pairwise_append.2 ⟨(s.remove entity key).distinct, List.pairwise_singleton _ _, fun a ha b hb => ?_⟩
    rw [List.mem_singleton.1 hb]
    exact of_decide_eq_true (List.mem_filter.1 ha).2

/-- The same own properties. -/
def LightState.Same (s t : LightState X) : Prop := ∀ entity key, s.own entity key = t.own entity key

/-- One mutation of a draft; deleting what is not there is no change. -/
def draftMutation (s : LightState X) : Mutation EntityKey (Record X) → LightState X
  | .upsert key row => s.assign key.entity (bucketKey key) row
  | .delete key => if (s.get key.entity (bucketKey key)).isSome then s.remove key.entity (bucketKey key) else s

/-- All the mutations of a block. -/
def draftBlock (s : LightState X) (ms : List (Mutation EntityKey (Record X))) : LightState X := ms.foldl draftMutation s

/-- The rows some blocks leave. -/
def lightReplay (applied : List (AppliedBlock EntityKey (Record X) H)) : LightState X :=
  applied.foldl (fun s b => draftBlock s b.mutations) .empty

/-- An own property is a row under it. -/
theorem LightState.own_eq_some {s : LightState X} {entity : String} {key : Text} {row : Record X} :
    s.own entity key = some row ↔ ⟨entity, key, row⟩ ∈ s.rows := by
  unfold LightState.own
  rw [Option.map_eq_some_iff]
  constructor
  · rintro ⟨r, hfind, rfl⟩
    have hat := List.find?_some hfind
    rw [decide_eq_true_eq] at hat
    obtain ⟨rfl, rfl⟩ := hat
    exact List.mem_of_find?_eq_some hfind
  · intro hmem
    have hself : LightRow.At ⟨entity, key, row⟩ entity key := ⟨rfl, rfl⟩
    have hsome : (s.rows.find? (·.At entity key)).isSome = true :=
      List.find?_isSome.2 ⟨_, hmem, by rwa [decide_eq_true_eq]⟩
    obtain ⟨r, hfind⟩ := Option.isSome_iff_exists.1 hsome
    have hat := List.find?_some hfind
    rw [decide_eq_true_eq] at hat
    refine ⟨r, hfind, ?_⟩
    by_contra hne
    have : Std.Symm fun a b : LightRow X => ¬a.At b.entity b.key :=
      ⟨fun a b hab hba => hab ⟨hba.1.symm, hba.2.symm⟩⟩
    have hapart := s.distinct.forall (List.mem_of_find?_eq_some hfind) hmem fun heq => hne (by rw [heq])
    exact hapart hat

theorem LightState.own_remove (s : LightState X) (entity : String) (key : Text) (e : String) (k : Text) :
    (s.remove entity key).own e k = if entity = e ∧ key = k then none else s.own e k := by
  refine Option.ext fun row => ?_
  unfold LightState.remove
  rw [LightState.own_eq_some, List.mem_filter, ← LightState.own_eq_some, decide_eq_true_eq]
  by_cases h : entity = e ∧ key = k
  · rw [if_pos h]
    exact iff_of_false (fun hkept => hkept.2 ⟨h.1.symm, h.2.symm⟩) (Option.some_ne_none row ∘ Eq.symm)
  · rw [if_neg h]
    exact and_iff_left fun hat : e = entity ∧ k = key => h ⟨hat.1.symm, hat.2.symm⟩

theorem LightState.own_assign (s : LightState X) (entity : String) (key : Text) (row : Record X) (e : String) (k : Text) :
    (s.assign entity key row).own e k = if entity = e ∧ key = k then some row else s.own e k := by
  refine Option.ext fun r => ?_
  have hremoved := s.own_remove entity key e k
  unfold LightState.assign
  rw [LightState.own_eq_some, List.mem_append, ← LightState.own_eq_some, hremoved, List.mem_singleton]
  by_cases h : entity = e ∧ key = k
  · obtain ⟨rfl, rfl⟩ := h
    rw [if_pos ⟨rfl, rfl⟩, if_pos ⟨rfl, rfl⟩]
    simp [eq_comm]
  · rw [if_neg h, if_neg h]
    refine or_iff_left fun heq => h ?_
    injection heq with h1 h2
    exact ⟨h1.symm, h2.symm⟩

/-- **What a mutation does to a property.** -/
theorem own_draftMutation (s : LightState X) (m : Mutation EntityKey (Record X)) (e : String) (k : Text) :
    (draftMutation s m).own e k = if m.key.entity = e ∧ bucketKey m.key = k then m.values else s.own e k := by
  cases m with
  | upsert key row => exact s.own_assign key.entity (bucketKey key) row e k
  | delete key =>
    unfold draftMutation
    show LightState.own (if (s.get key.entity (bucketKey key)).isSome then _ else s) e k =
      if key.entity = e ∧ bucketKey key = k then none else s.own e k
    by_cases hget : (s.get key.entity (bucketKey key)).isSome = true
    · rw [if_pos hget, s.own_remove]
    · rw [if_neg hget]
      by_cases h : key.entity = e ∧ bucketKey key = k
      · rw [if_pos h, ← h.1, ← h.2]
        unfold LightState.get at hget
        cases hown : s.own key.entity (bucketKey key) with
        | none => rfl
        | some row =>
          rw [hown] at hget
          exact absurd rfl hget
      · rw [if_neg h]

theorem LightState.Same.draftBlock {s t : LightState X} (h : s.Same t) (ms : List (Mutation EntityKey (Record X))) :
    (draftBlock s ms).Same (draftBlock t ms) := by
  unfold Etherfold.draftBlock
  induction ms generalizing s t with
  | nil => exact h
  | cons m ms ih =>
    refine ih fun e k => ?_
    rw [own_draftMutation, own_draftMutation, h e k]

theorem LightState.Same.symm {s t : LightState X} (h : s.Same t) : t.Same s := fun e k => (h e k).symm

theorem LightState.Same.trans {s t u : LightState X} (h : s.Same t) (h' : t.Same u) : s.Same u :=
  fun e k => (h e k).trans (h' e k)

theorem LightState.Same.refl (s : LightState X) : s.Same s := fun _ _ => rfl

theorem lightReplay_concat (applied : List (AppliedBlock EntityKey (Record X) H))
    (b : AppliedBlock EntityKey (Record X) H) :
    lightReplay (applied ++ [b]) = draftBlock (lightReplay applied) b.mutations := by
  unfold lightReplay
  rw [List.foldl_append]
  rfl

/-! ### The store -/

/-- The library that drafts a change and makes the patches that undo it. -/
structure Immer (X : Type) where
  Patch : Type
  produceWithPatches : LightState X → (LightState X → LightState X) → LightState X × List Patch
  applyPatches : LightState X → List Patch → LightState X

/-- **What is relied on of it**: a draft becomes what the recipe makes of it, and the inverse patches
give back the own properties the recipe found. -/
structure Immer.Exact (I : Immer X) : Prop where
  produced : ∀ s recipe, (I.produceWithPatches s recipe).1.Same (recipe s)
  inverse : ∀ s recipe t, t.Same (recipe s) → (I.applyPatches t (I.produceWithPatches s recipe).2).Same s

/-- A revert whose patches are gone, with the numbers its message names. -/
structure RevertBeyondPatchHistoryError where
  keepUpTo : ℤ
  missing : List ℕ
  deepest : Option ℕ
  finalityDepth : Option ℕ
  deriving DecidableEq, Repr

/-- Why a block is not applied. A draft refuses to have its prototype set. -/
inductive PatchApplyError (H : Type) where
  | apply (error : ApplyError H)
  | draftPrototype
  deriving DecidableEq, Repr

/-- The store. `blocks` and `reversals` are maps in insertion order; the map of hashes is the
inverse of `blocks`. -/
structure PatchStateStore (I : Immer X) (H C : Type) where
  state : LightState X
  blocks : List (BlockPointer H)
  reversals : List (ℕ × List I.Patch)
  cursors : String → Option C
  finalityDepth : Option ℕ
  tip : Option ℕ

/-- Assigning to this name sets the prototype. -/
def Mutation.setsPrototype : Mutation EntityKey (Record X) → Bool
  | .upsert key _ => bucketKey key = ascii "__proto__"
  | .delete _ => false

namespace PatchStateStore

variable {I : Immer X}

/-- The constructor. -/
def new (I : Immer X) (finalityDepth : Option ℕ) : PatchStateStore I H C :=
  ⟨.empty, [], [], fun _ => none, finalityDepth, none⟩

/-- The patches of a block are held. -/
def Reversible (s : PatchStateStore I H C) (number : ℕ) : Prop := ∃ r ∈ s.reversals, r.1 = number

instance (s : PatchStateStore I H C) (number : ℕ) : Decidable (s.Reversible number) :=
  inferInstanceAs (Decidable (∃ r ∈ s.reversals, _))

/-- The patches that undo a block. -/
def reversal (s : PatchStateStore I H C) (number : ℕ) : List I.Patch :=
  ((s.reversals.find? (·.1 = number)).map (·.2)).getD []

/-- The highest recorded block that can no longer be undone. -/
def deepestRevert (s : PatchStateStore I H C) : Option ℕ :=
  ((s.blocks.map (·.number)).filter (¬s.Reversible ·)).max?

section Write

variable [DecidableEq H]

/-- The three reasons not to record a block. -/
def assertRecordable (s : PatchStateStore I H C) (block : BlockPointer H) : Except (StoreWriteRefusedError H) Unit :=
  if s.blocks.any (·.number = block.number) then .error (.blockAlreadyRecorded block.number)
  else
    match s.blocks.find? (·.hash = block.hash) with
    | some recorded => .error (.blockHashAlreadyRecorded block.hash recorded.number)
    | none =>
      match s.tip.filter (block.number ≤ ·) with
      | some tip => .error (.blockNotAboveTip block.number tip)
      | none => .ok ()

/-- **Apply one block** and keep what undoes it. -/
def applyBlock (declarations : List NormalizedEntity) (s : PatchStateStore I H C) (call : AppliedCall X H C) :
    Except (PatchApplyError H) Unit × PatchStateStore I H C :=
  match s.assertRecordable call.block with
  | .error e => (.error (.apply (.refused e)), s)
  | .ok () =>
    match call.mutations.mapM (plan declarations) with
    | .error e => (.error (.apply (.entity e)), s)
    | .ok planned =>
      if planned.any (·.setsPrototype) then (.error .draftPrototype, s)
      else
        let produced := I.produceWithPatches s.state fun draft => draftBlock draft planned
        (.ok (), { s with
          state := produced.1
          reversals := s.reversals.filter (·.1 ≠ call.block.number) ++ [(call.block.number, produced.2)]
          blocks := s.blocks ++ [call.block]
          -- the height is above the tip here
          tip := some call.block.number
          cursors := match call.cursor with
            | none => s.cursors
            | some (key, value) => Function.update s.cursors key (some value) })

end Write

/-- Move a cursor with no block behind it. -/
def writeCursor (s : PatchStateStore I H C) (key : String) (value : C) : PatchStateStore I H C :=
  { s with cursors := Function.update s.cursors key (some value) }

/-- The recorded heights a revert undoes, highest first. -/
def above (s : PatchStateStore I H C) (keepUpTo : ℤ) : List ℕ :=
  ((s.blocks.map (·.number)).filter fun n : ℕ => keepUpTo < (n : ℤ)).insertionSort (· ≥ ·)

/-- Those whose patches are gone, lowest first. -/
def missing (s : PatchStateStore I H C) (keepUpTo : ℤ) : List ℕ :=
  ((s.above keepUpTo).filter (¬s.Reversible ·)).insertionSort (· ≤ ·)

/-- **Undo every block above `keepUpTo`**, or refuse before anything is undone. A wipe needs no
patches. -/
def revertTo (s : PatchStateStore I H C) (keepUpTo : ℤ) :
    Except RevertBeyondPatchHistoryError Unit × PatchStateStore I H C :=
  if keepUpTo < 0 then (.ok (), { s with state := .empty, reversals := [], blocks := [], tip := none })
  else if (s.above keepUpTo).isEmpty then (.ok (), s)
  else if !(s.missing keepUpTo).isEmpty then
    (.error ⟨keepUpTo, s.missing keepUpTo, s.deepestRevert, s.finalityDepth⟩, s)
  else
    let blocks := s.blocks.filter fun b => (b.number : ℤ) ≤ keepUpTo
    (.ok (), { s with
      state := (s.above keepUpTo).foldl (fun state number => I.applyPatches state (s.reversal number)) s.state
      reversals := s.reversals.filter (·.1 ∉ s.above keepUpTo)
      blocks := blocks
      -- the prune floor is a distance from the tip, which moves down
      tip := (blocks.map (·.number)).max? })

/-- The floor a prune works at. -/
def floor (s : PatchStateStore I H C) : Option ℕ :=
  s.tip.bind fun tip => retentionFloor .revertOnly tip s.finalityDepth

/-- The heights whose patches the floor puts out of reach, lowest first. -/
def unreachable (s : PatchStateStore I H C) (floor : ℕ) : List ℕ :=
  ((s.reversals.map (·.1)).filter (· ≤ floor)).insertionSort (· ≤ ·)

/-- What a prune drops, as far as the budget goes. -/
def doomed (s : PatchStateStore I H C) (floor : ℕ) (maxVersions : Option ℕ) : List ℕ :=
  match maxVersions with
  | none => s.unreachable floor
  | some budget => (s.unreachable floor).take budget

/-- **Drop the oldest patches** the floor puts out of reach. -/
def prune (s : PatchStateStore I H C) (maxVersions : Option ℕ) : PatchStateStore I H C × PruneReport :=
  match s.floor with
  | none => (s, ⟨s.tip, none, 0, true⟩)
  | some floor =>
    let doomed := s.doomed floor maxVersions
    ({ s with reversals := s.reversals.filter (·.1 ∉ doomed) },
      ⟨s.tip, some floor, doomed.length, doomed.length = (s.unreachable floor).length⟩)

/-- One entity at the tip. -/
def getCurrent (declarations : List NormalizedEntity) (s : PatchStateStore I H C) (entity : String) (id : EntityId) :
    Except EntityError (Option (Record X)) := do
  let declaration ← mustGet declarations entity
  let key ← entityKey declaration id
  match s.state.get declaration.name (bucketKey key) with
  | none => .ok none
  | some row => (decodeFieldValues declaration row).map some

/-- A read by a declared id looks its key up. -/
theorem getCurrent_eq {declarations : List NormalizedEntity} {s : PatchStateStore I H C} {entity : String}
    {id : EntityId} {declaration : NormalizedEntity} {key : EntityKey}
    (hget : mustGet declarations entity = .ok declaration) (hkey : entityKey declaration id = .ok key) :
    getCurrent declarations s entity id = match s.state.get declaration.name (bucketKey key) with
      | none => .ok none
      | some row => (decodeFieldValues declaration row).map some := by
  unfold getCurrent
  rw [hget]
  show (entityKey declaration id >>= _) = _
  rw [hkey]
  rfl

/-- The ids and rows a prefix scan finds: the own properties of the entity's object. -/
def found (rows : List (LightRow X)) (entity : String) (values : List Text) : List (List Text × Record X) :=
  rows.filterMap fun r =>
    if r.entity = entity && hasIdPrefix (r.key.splitOn 0) values then some (r.key.splitOn 0, r.row) else none

/-- The children of an id prefix at the tip. It reads one row more than the limit. -/
def listCurrent (declarations : List NormalizedEntity) (s : PatchStateStore I H C) (entity : String)
    (idPrefix : EntityId) (limit : ℤ) : Except EntityError (Listing X) := do
  let declaration ← mustGet declarations entity
  let values ← prefixValues declaration idPrefix
  assertListingLimit declaration limit
  let sorted := (found s.state.rows declaration.name values).insertionSort fun a b => compareIds a.1 b.1 ≤ 0
  let rows ← (sorted.take (limit.toNat + 1)).mapM fun row => decodeFieldValues declaration row.2
  pure (boundedListing rows limit.toNat)

/-! ### The blocks the store is made of -/

/-- **The store is made of these blocks**, in order, and the patches it holds undo them. -/
structure Represents (s : PatchStateStore I H C) (applied : List (AppliedBlock EntityKey (Record X) H)) : Prop where
  blocks : s.blocks = applied.map (·.block)
  ascending : applied.Pairwise fun a b => a.block.number < b.block.number
  distinct : applied.Pairwise fun a b => a.block.hash ≠ b.block.hash
  tip : s.tip = (applied.map (·.block.number)).max?
  state : s.state.Same (lightReplay applied)
  undo : ∀ pre b post, applied = pre ++ b :: post → ∀ r ∈ s.reversals, r.1 = b.block.number →
    ∀ t : LightState X, t.Same (lightReplay (pre ++ [b])) → (I.applyPatches t r.2).Same (lightReplay pre)

variable {s : PatchStateStore I H C} {applied : List (AppliedBlock EntityKey (Record X) H)}

theorem represents_new (I : Immer X) (finalityDepth : Option ℕ) : (new I finalityDepth : PatchStateStore I H C).Represents [] :=
  ⟨rfl, List.Pairwise.nil, List.Pairwise.nil, rfl, .refl _, fun _ _ _ h => by simp at h⟩

theorem Represents.le_tip (h : s.Represents applied) {b : AppliedBlock EntityKey (Record X) H} (hb : b ∈ applied) :
    ∃ tip, s.tip = some tip ∧ b.block.number ≤ tip := by
  have hmem : b.block.number ∈ applied.map (·.block.number) := List.mem_map.2 ⟨b, hb, rfl⟩
  rw [h.tip]
  cases hmax : (applied.map (·.block.number)).max? with
  | none =>
    rw [List.max?_eq_none_iff.1 hmax] at hmem
    exact absurd hmem List.not_mem_nil
  | some tip => exact ⟨tip, rfl, (List.max?_eq_some_iff.1 hmax).2 _ hmem⟩

theorem reversal_of_reversible {number : ℕ} (h : s.Reversible number) :
    ∃ r ∈ s.reversals, r.1 = number ∧ s.reversal number = r.2 := by
  obtain ⟨r, hr, hn⟩ := h
  unfold reversal
  have hsome : (s.reversals.find? (·.1 = number)).isSome = true :=
    List.find?_isSome.2 ⟨r, hr, by rwa [decide_eq_true_eq]⟩
  obtain ⟨r', hfind⟩ := Option.isSome_iff_exists.1 hsome
  have hn' := List.find?_some hfind
  rw [decide_eq_true_eq] at hn'
  rw [hfind]
  exact ⟨r', List.mem_of_find?_eq_some hfind, hn', rfl⟩

/-- **The patches replayed backwards** lead to where the blocks below left the rows. -/
theorem Represents.replay_back (h : s.Represents applied) {low high post : List (AppliedBlock EntityKey (Record X) H)}
    (hsplit : applied = low ++ high ++ post) (hrev : ∀ b ∈ high, s.Reversible b.block.number) {t : LightState X}
    (ht : t.Same (lightReplay (low ++ high))) :
    ((high.map (·.block.number)).reverse.foldl (fun state number => I.applyPatches state (s.reversal number)) t).Same
      (lightReplay low) := by
  induction high using List.reverseRecOn generalizing post t with
  | nil => rwa [List.append_nil] at ht
  | append_singleton high b ih =>
    obtain ⟨r, hr, hn, heq⟩ := reversal_of_reversible (hrev b (by simp))
    have hundo : (I.applyPatches t (s.reversal b.block.number)).Same (lightReplay (low ++ high)) := by
      rw [heq]
      refine h.undo (low ++ high) b post ?_ r hr hn t ?_
      · rw [hsplit]
        simp
      · rwa [List.append_assoc]
    have hsplit' : applied = low ++ high ++ b :: post := by
      rw [hsplit]
      simp
    rw [List.map_append, List.reverse_append]
    exact ih hsplit' (fun a ha => hrev a (List.mem_append_left _ ha)) hundo

section Write

variable [DecidableEq H]

/-- What the three checks establish, and what they ask. -/
theorem Represents.assertRecordable (h : s.Represents applied) (block : BlockPointer H) :
    s.assertRecordable block = .ok () ↔ ∀ b ∈ applied, b.block.number < block.number ∧ b.block.hash ≠ block.hash := by
  have hmem : ∀ a, a ∈ s.blocks ↔ ∃ b ∈ applied, b.block = a := by
    intro a
    rw [h.blocks, List.mem_map]
  unfold PatchStateStore.assertRecordable
  constructor
  · intro hok b hb
    split at hok
    · cases hok
    split at hok
    · cases hok
    rename_i hhash
    split at hok
    · cases hok
    rename_i htip
    obtain ⟨tip, htip', hle⟩ := h.le_tip hb
    have hnot := (Option.filter_eq_none_iff.1 htip) tip htip'
    rw [decide_eq_true_eq] at hnot
    have hne := List.find?_eq_none.1 hhash b.block ((hmem _).2 ⟨b, hb, rfl⟩)
    rw [decide_eq_true_eq] at hne
    exact ⟨by omega, hne⟩
  · intro habove
    have hnumber : s.blocks.any (·.number = block.number) = false := by
      rw [List.any_eq_false]
      intro a ha
      obtain ⟨b, hb, rfl⟩ := (hmem a).1 ha
      have hlt := (habove b hb).1
      rw [decide_eq_true_eq]
      omega
    have hhash : s.blocks.find? (·.hash = block.hash) = none := by
      rw [List.find?_eq_none]
      intro a ha
      obtain ⟨b, hb, rfl⟩ := (hmem a).1 ha
      rw [decide_eq_true_eq]
      exact (habove b hb).2
    have htip : s.tip.filter (block.number ≤ ·) = none := by
      rw [Option.filter_eq_none_iff]
      intro tip htip
      rw [h.tip, List.max?_eq_some_iff] at htip
      obtain ⟨b, hb, hbn⟩ := List.mem_map.1 htip.1
      have hlt := (habove b hb).1
      rw [decide_eq_true_eq]
      omega
    rw [hnumber, hhash, htip]
    rfl

/-- **A block is applied whole or the store is untouched.** -/
theorem applyBlock_cases (declarations : List NormalizedEntity) (s : PatchStateStore I H C) (call : AppliedCall X H C) :
    (∃ error, s.applyBlock declarations call = (.error error, s)) ∨
      ∃ planned s', s.assertRecordable call.block = .ok () ∧ call.mutations.mapM (plan declarations) = .ok planned ∧
        s.applyBlock declarations call = (.ok (), s') ∧
        s'.blocks = s.blocks ++ [call.block] ∧ s'.tip = some call.block.number ∧
        s'.finalityDepth = s.finalityDepth ∧
        s'.state = (I.produceWithPatches s.state fun draft => draftBlock draft planned).1 ∧
        s'.reversals = s.reversals.filter (·.1 ≠ call.block.number) ++
          [(call.block.number, (I.produceWithPatches s.state fun draft => draftBlock draft planned).2)] := by
  unfold PatchStateStore.applyBlock
  cases hcheck : s.assertRecordable call.block with
  | error e => exact .inl ⟨_, rfl⟩
  | ok _ =>
    cases hplan : call.mutations.mapM (plan declarations) with
    | error e => exact .inl ⟨_, rfl⟩
    | ok planned =>
      dsimp only
      by_cases hproto : planned.any (·.setsPrototype) = true
      · rw [if_pos hproto]
        exact .inl ⟨_, rfl⟩
      · rw [if_neg hproto]
        exact .inr ⟨planned, _, rfl, rfl, rfl, rfl, rfl, rfl, rfl, rfl⟩

/-- **A block goes on top** of those the store is made of. -/
theorem Represents.applyBlock (hI : I.Exact) (h : s.Represents applied) {call : AppliedCall X H C}
    {planned : List (Mutation EntityKey (Record X))} {s' : PatchStateStore I H C}
    (hcheck : s.assertRecordable call.block = .ok ())
    (hblocks : s'.blocks = s.blocks ++ [call.block]) (htip : s'.tip = some call.block.number)
    (hstate : s'.state = (I.produceWithPatches s.state fun draft => draftBlock draft planned).1)
    (hreversals : s'.reversals = s.reversals.filter (·.1 ≠ call.block.number) ++
      [(call.block.number, (I.produceWithPatches s.state fun draft => draftBlock draft planned).2)]) :
    s'.Represents (applied ++ [⟨call.block, planned⟩]) := by
  have habove := (h.assertRecordable call.block).1 hcheck
  have hdrafted : (draftBlock s.state planned).Same (lightReplay (applied ++ [⟨call.block, planned⟩])) := by
    rw [lightReplay_concat]
    exact h.state.draftBlock planned
  refine ⟨?_, ?_, ?_, ?_, ?_, ?_⟩
  · rw [hblocks, h.blocks, List.map_append]
    rfl
  · refine List.pairwise_append.2 ⟨h.ascending, List.pairwise_singleton _ _, fun a ha b hb => ?_⟩
    rw [List.mem_singleton.1 hb]
    exact (habove a ha).1
  · refine List.pairwise_append.2 ⟨h.distinct, List.pairwise_singleton _ _, fun a ha b hb => ?_⟩
    rw [List.mem_singleton.1 hb]
    exact (habove a ha).2
  · rw [htip, eq_comm, List.max?_eq_some_iff]
    refine ⟨List.mem_map.2 ⟨_, List.mem_append_right _ (List.mem_singleton_self _), rfl⟩, fun n hn => ?_⟩
    obtain ⟨b, hb, rfl⟩ := List.mem_map.1 hn
    rcases List.mem_append.1 hb with hb | hb
    · exact (habove b hb).1.le
    · rw [List.mem_singleton.1 hb]
  · rw [hstate]
    exact (hI.produced _ _).trans hdrafted
  · intro pre b post hsplit r hr hn t ht
    rw [hreversals] at hr
    rcases List.eq_nil_or_concat post with rfl | ⟨post, last, rfl⟩
    · -- the new block is undone by the patches just made
      obtain ⟨hpre, hb⟩ := List.append_inj' hsplit rfl
      obtain rfl : b = ⟨call.block, planned⟩ := by simpa using hb.symm
      have hnew : r.2 = (I.produceWithPatches s.state fun draft => draftBlock draft planned).2 := by
        rcases List.mem_append.1 hr with hr | hr
        · have hne := (List.mem_filter.1 hr).2
          rw [decide_eq_true_eq] at hne
          exact absurd hn hne
        · rw [List.mem_singleton.1 hr]
      rw [hnew, ← hpre]
      rw [← hpre] at ht
      exact (hI.inverse _ _ _ (ht.trans hdrafted.symm)).trans h.state
    · -- a block below keeps its patches
      have hsplit' : applied ++ [⟨call.block, planned⟩] = (pre ++ b :: post) ++ [last] := by
        rw [hsplit, List.concat_eq_append]
        simp
      obtain ⟨hold, -⟩ := List.append_inj' hsplit' rfl
      have hb : b ∈ applied := by
        rw [hold]
        exact List.mem_append_right _ List.mem_cons_self
      have hlt := (habove b hb).1
      rcases List.mem_append.1 hr with hr | hr
      · exact h.undo pre b post hold r (List.mem_filter.1 hr).1 hn t ht
      · rw [List.mem_singleton.1 hr] at hn
        dsimp only at hn
        omega

end Write

/-- The recorded heights above a cut, highest first. -/
theorem Represents.above_eq (h : s.Represents applied) (k : ℤ) :
    s.above k = ((applied.filter fun b => k < (b.block.number : ℤ)).map (·.block.number)).reverse := by
  have hkept : ((s.blocks.map (·.number)).filter fun n : ℕ => k < (n : ℤ)) =
      (applied.filter fun b => k < (b.block.number : ℤ)).map (·.block.number) := by
    rw [h.blocks, List.map_map, List.filter_map]
    rfl
  unfold above
  rw [hkept]
  have hsorted : ((applied.filter fun b => k < (b.block.number : ℤ)).map (·.block.number)).reverse.Pairwise (· ≥ ·) := by
    rw [List.pairwise_reverse, List.pairwise_map]
    exact (h.ascending.filter _).imp fun hlt => le_of_lt hlt
  refine List.Perm.eq_of_pairwise (fun a b _ _ hab hba => le_antisymm hba hab) ?_ hsorted ?_
  · have : Std.Total fun a b : ℕ => a ≥ b := ⟨fun a b => le_total b a⟩
    have : IsTrans ℕ fun a b => a ≥ b := ⟨fun _ _ _ hab hbc => le_trans hbc hab⟩
    exact List.pairwise_insertionSort _ _
  · exact (List.perm_insertionSort _ _).trans (List.reverse_perm _).symm

/-- Ascending blocks split at a height. -/
theorem split_at {applied : List (AppliedBlock EntityKey (Record X) H)}
    (h : applied.Pairwise fun a b => a.block.number < b.block.number) (k : ℤ) :
    applied = (applied.filter fun b => (b.block.number : ℤ) ≤ k) ++ applied.filter fun b => k < (b.block.number : ℤ) := by
  induction applied with
  | nil => rfl
  | cons b applied ih =>
    obtain ⟨hlow, hrest⟩ := List.pairwise_cons.1 h
    by_cases hb : (b.block.number : ℤ) ≤ k
    · rw [List.filter_cons_of_pos (by simpa using hb), List.filter_cons_of_neg (by simpa using hb), List.cons_append,
        ← ih hrest]
    · have hnone : applied.filter (fun b => (b.block.number : ℤ) ≤ k) = [] := by
        rw [List.filter_eq_nil_iff]
        intro a ha
        have hlt := hlow a ha
        rw [decide_eq_true_eq]
        omega
      have hall : applied.filter (fun b => k < (b.block.number : ℤ)) = applied := by
        rw [List.filter_eq_self]
        intro a ha
        have hlt := hlow a ha
        rw [decide_eq_true_eq]
        omega
      rw [List.filter_cons_of_neg (by simpa using hb), List.filter_cons_of_pos (by simpa using hb), hnone, hall,
        List.nil_append]

/-- A revert is refused where patches it needs are gone, and leaves the store. -/
theorem revertTo_refused {k : ℤ} (hk : 0 ≤ k) (hmissing : ∃ n ∈ s.above k, ¬s.Reversible n) :
    s.revertTo k = (.error ⟨k, s.missing k, s.deepestRevert, s.finalityDepth⟩, s) := by
  obtain ⟨n, hn, hnot⟩ := hmissing
  have habove : (s.above k).isEmpty = false := List.isEmpty_eq_false_iff.2 (List.ne_nil_of_mem hn)
  have hne : (s.missing k).isEmpty = false := by
    refine List.isEmpty_eq_false_iff.2 (List.ne_nil_of_mem (a := n) ?_)
    unfold missing
    rw [List.mem_insertionSort, List.mem_filter, decide_eq_true_eq]
    exact ⟨hn, hnot⟩
  unfold revertTo
  rw [if_neg (not_lt.2 hk), habove, hne]
  rfl

/-- **A revert leaves the blocks up to its height**, where the patches of the others are held. -/
theorem Represents.revertTo (h : s.Represents applied) {k : ℤ}
    (hrev : k < 0 ∨ ∀ b ∈ applied, k < (b.block.number : ℤ) → s.Reversible b.block.number) :
    (s.revertTo k).1 = .ok () ∧ (s.revertTo k).2.Represents (applied.filter fun b => (b.block.number : ℤ) ≤ k) ∧
      (s.revertTo k).2.finalityDepth = s.finalityDepth := by
  have hsplit := split_at h.ascending k
  set low := applied.filter fun b => (b.block.number : ℤ) ≤ k with hlow
  set high := applied.filter fun b => k < (b.block.number : ℤ) with hhigh
  have habove := h.above_eq k
  rw [← hhigh] at habove
  unfold PatchStateStore.revertTo
  by_cases hk : k < 0
  · have hnone : low = [] := by
      rw [hlow, List.filter_eq_nil_iff]
      intro b _
      rw [decide_eq_true_eq]
      omega
    rw [if_pos hk, hnone]
    exact ⟨rfl, ⟨rfl, List.Pairwise.nil, List.Pairwise.nil, rfl, .refl _, fun _ _ _ hnil => by simp at hnil⟩, rfl⟩
  rw [if_neg hk]
  cases hempty : (s.above k).isEmpty with
  | true =>
    have hnone : high = [] := by
      rw [List.isEmpty_iff, habove, List.reverse_eq_nil_iff, List.map_eq_nil_iff] at hempty
      exact hempty
    rw [hnone, List.append_nil] at hsplit
    rw [if_pos rfl, ← hsplit]
    exact ⟨rfl, h, rfl⟩
  | false =>
    have hall : ∀ b ∈ high, s.Reversible b.block.number := by
      intro b hb
      obtain ⟨hmem, hgt⟩ := List.mem_filter.1 hb
      exact hrev.resolve_left hk b hmem (of_decide_eq_true hgt)
    have hmissing : (s.missing k).isEmpty = true := by
      have hkept : (s.above k).filter (¬s.Reversible ·) = [] := by
        rw [List.filter_eq_nil_iff]
        intro n hn
        rw [habove, List.mem_reverse] at hn
        obtain ⟨b, hb, rfl⟩ := List.mem_map.1 hn
        rw [decide_eq_true_eq, not_not]
        exact hall b hb
      unfold missing
      rw [hkept]
      rfl
    rw [if_neg Bool.false_ne_true, hmissing, if_neg (by simp)]
    have hblocks : (s.blocks.filter fun b => (b.number : ℤ) ≤ k) = low.map (·.block) := by
      rw [h.blocks, List.filter_map]
      rfl
    refine ⟨rfl, ⟨hblocks, h.ascending.filter _, h.distinct.filter _, ?_, ?_, ?_⟩, rfl⟩
    · dsimp only
      rw [hblocks, List.map_map]
      rfl
    · dsimp only
      rw [habove]
      have hback : applied = low ++ high ++ [] := by
        rw [List.append_nil]
        exact hsplit
      refine h.replay_back hback hall ?_
      rw [← hsplit]
      exact h.state
    · intro pre b post hpre r hr hn t ht
      refine h.undo pre b (post ++ high) ?_ r (List.mem_filter.1 hr).1 hn t ht
      rw [hsplit, hpre]
      simp

end PatchStateStore

end Etherfold
