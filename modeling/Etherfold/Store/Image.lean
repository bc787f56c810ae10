import Etherfold.Store.Pruning

/-!
# The image of a store

A store never looks into the values it holds. So reading every value through a function gives
a store again, and each operation on the one is the same operation on the other.

* `image_applyBlock`, `image_revertTo`, `image_prune`: **the image of a step is the step of the image**.
* `find?_image`: what a read finds in the image is the image of what it finds.
-/

namespace Versions

variable {V W : Type}

/-- The same version with its value read through `f`. -/
def Version.image (f : V → W) (v : Version V) : Version W := ⟨f v.values, v.lower, v.upper⟩

@[simp] theorem Version.image_values (f : V → W) (v : Version V) : (v.image f).values = f v.values := rfl
@[simp] theorem Version.image_lower (f : V → W) (v : Version V) : (v.image f).lower = v.lower := rfl
@[simp] theorem Version.image_upper (f : V → W) (v : Version V) : (v.image f).upper = v.upper := rfl

theorem Version.image_reopen (f : V → W) (k : ℤ) (v : Version V) : (v.reopen k).image f = (v.image f).reopen k := by
  unfold Version.reopen
  rw [Version.image_upper]
  split
  · rfl
  · rfl

theorem map_image_closeLive (f : V → W) (n : ℕ) (vs : List (Version V)) :
    (closeLive n vs).map (Version.image f) = closeLive n (vs.map (Version.image f)) := by
  induction vs with
  | nil => rfl
  | cons v vs ih =>
    rw [List.map_cons, closeLive, closeLive, Version.image_upper]
    split
    · rfl
    · rw [List.map_cons, ih]

theorem map_image_write (f : V → W) (n : ℕ) (value : Option V) (vs : List (Version V)) :
    (write n value vs).map (Version.image f) = write n (value.map f) (vs.map (Version.image f)) := by
  unfold write
  rw [List.map_append, map_image_closeLive]
  cases value <;> rfl

theorem map_image_cutAt (f : V → W) (k : ℤ) (vs : List (Version V)) :
    (cutAt k vs).map (Version.image f) = cutAt k (vs.map (Version.image f)) := by
  unfold cutAt
  rw [List.filter_map, List.map_map, List.map_map]
  apply List.map_congr_left
  intro v _
  exact Version.image_reopen f k v

end Versions

namespace Etherfold

open Versions

variable {K V W H C : Type}

/-- The same row, its values read through `g`. -/
def Row.image (g : K → V → W) (row : Row K V) : Row K W := ⟨row.key, row.versions.map (Version.image (g row.key))⟩

/-- The same mutation, its value read through `g`. -/
def Mutation.image (g : K → V → W) : Mutation K V → Mutation K W
  | .upsert key values => .upsert key (g key values)
  | .delete key => .delete key

variable {g : K → V → W}

@[simp] theorem Mutation.image_key (m : Mutation K V) : (m.image g).key = m.key := by
  cases m <;> rfl

theorem Mutation.image_values (m : Mutation K V) : (m.image g).values = m.values.map (g m.key) := by
  cases m <;> rfl

/-- The same store, its values read through `g`. -/
def MemoryStateStore.image (g : K → V → W) (s : MemoryStateStore K V H C) : MemoryStateStore K W H C :=
  ⟨s.rows.map (Row.image g), s.blocks, s.cursors, s.provided, s.finalityDepth, s.tip⟩

section Rows

variable [DecidableEq K]

theorem versionsOf_image (rows : List (Row K V)) (key : K) :
    versionsOf (rows.map (Row.image g)) key = (versionsOf rows key).map (Version.image (g key)) := by
  induction rows with
  | nil => rfl
  | cons row rows ih =>
    rw [List.map_cons, versionsOf_cons, versionsOf_cons, ih]
    have hkey : (Row.image g row).key = row.key := rfl
    rw [hkey]
    split
    · rename_i heq
      unfold Row.image
      rw [heq]
    · rfl

theorem applyMutation_image (number : ℕ) (rows : List (Row K V)) (m : Mutation K V) :
    (applyMutation number rows m).map (Row.image g) =
      applyMutation number (rows.map (Row.image g)) (m.image g) := by
  have hany : (rows.map (Row.image g)).any (·.key = (m.image g).key) = rows.any (·.key = m.key) := by
    rw [Mutation.image_key, List.any_map]
    rfl
  have hrow : ∀ row : Row K V, Row.image g
      (if row.key = m.key then { row with versions := write number m.values row.versions } else row) =
      if (Row.image g row).key = (m.image g).key then
        { Row.image g row with versions := write number (m.image g).values (Row.image g row).versions }
      else Row.image g row := by
    intro row
    have hkey : (Row.image g row).key = row.key := rfl
    rw [hkey, Mutation.image_key]
    split
    · rename_i heq
      unfold Row.image
      rw [map_image_write, Mutation.image_values, heq]
    · rfl
  have hrows : ∀ rows : List (Row K V), (rows.map fun row =>
      if row.key = m.key then { row with versions := write number m.values row.versions } else row).map (Row.image g) =
      (rows.map (Row.image g)).map fun row => if row.key = (m.image g).key then
        { row with versions := write number (m.image g).values row.versions } else row := by
    intro rows
    rw [List.map_map, List.map_map]
    exact List.map_congr_left fun row _ => hrow row
  unfold applyMutation
  dsimp only
  rw [hrows, hany]
  split
  · rfl
  · rw [List.map_append, Mutation.image_key]
    rfl

theorem foldl_image (number : ℕ) (ms : List (Mutation K V)) (rows : List (Row K V)) :
    (ms.foldl (applyMutation number) rows).map (Row.image g) =
      (ms.map (Mutation.image g)).foldl (applyMutation number) (rows.map (Row.image g)) := by
  induction ms generalizing rows with
  | nil => rfl
  | cons m ms ih => rw [List.foldl_cons, List.map_cons, List.foldl_cons, ih, applyMutation_image]

/-- **What a read finds in the image** is the image of what it finds, when it looks at heights. -/
theorem find?_image (rows : List (Row K V)) (key : K) {matching : Version V → Bool} {matching' : Version W → Bool}
    (h : ∀ v : Version V, matching' (v.image (g key)) = matching v) :
    (versionsOf (rows.map (Row.image g)) key).find? matching' =
      ((versionsOf rows key).find? matching).map (Version.image (g key)) := by
  rw [versionsOf_image, List.find?_map]
  have hsame : matching' ∘ Version.image (g key) = matching := funext h
  rw [hsame]

end Rows

namespace MemoryStateStore

variable [DecidableEq K]

omit [DecidableEq K] in
theorem image_revertTo (s : MemoryStateStore K V H C) (k : ℤ) : (s.revertTo k).image g = (s.image g).revertTo k := by
  have hrows : (s.revertTo k).rows.map (Row.image g) = ((s.image g).revertTo k).rows := by
    unfold revertTo image
    dsimp only
    rw [List.map_filterMap, List.filterMap_map]
    congr 1
    funext row
    have hcut : cutAt k (Row.image g row).versions = (cutAt k row.versions).map (Version.image (g row.key)) :=
      (map_image_cutAt (g row.key) k row.versions).symm
    dsimp only [Function.comp]
    rw [hcut, List.isEmpty_map]
    split
    · rfl
    · rfl
  unfold image
  rw [hrows]
  rfl

omit [DecidableEq K] in
theorem image_unreachable (s : MemoryStateStore K V H C) (floor : ℕ) :
    (s.image g).unreachable floor = s.unreachable floor := by
  unfold unreachable image
  rw [List.flatMap_map]
  congr 1
  funext row
  unfold Row.image
  dsimp only
  rw [List.zipIdx_map, List.filterMap_map]
  rfl

theorem spared_image (doomed : List (K × ℕ × ℕ)) (key : K) (f : V → W) (vs : List (Version V)) :
    spared doomed key (vs.map (Version.image f)) = (spared doomed key vs).map (Version.image f) := by
  unfold spared
  rw [List.zipIdx_map, List.filter_map, List.map_map, List.map_map]
  rfl

theorem image_prune (s : MemoryStateStore K V H C) (maxVersions : Option ℕ) :
    (s.prune maxVersions).1.image g = ((s.image g).prune maxVersions).1 := by
  have hfloor : (s.image g).floor = s.floor := rfl
  unfold prune
  rw [hfloor]
  cases s.floor with
  | none => rfl
  | some floor =>
    have hdoomed : (s.image g).doomed floor maxVersions = s.doomed floor maxVersions := by
      unfold doomed
      rw [image_unreachable]
    dsimp only
    rw [hdoomed]
    unfold image
    dsimp only
    rw [List.map_filterMap, List.filterMap_map]
    congr 2
    funext row
    have hspared : spared (s.doomed floor maxVersions) row.key (Row.image g row).versions =
        (spared (s.doomed floor maxVersions) row.key row.versions).map (Version.image (g row.key)) :=
      spared_image _ _ _ _
    change Option.map (Row.image g) (if (s.doomed floor maxVersions).any (·.1 = row.key) then
        if (spared (s.doomed floor maxVersions) row.key row.versions).isEmpty then none
        else some ⟨row.key, spared (s.doomed floor maxVersions) row.key row.versions⟩ else some row) =
      if (s.doomed floor maxVersions).any (·.1 = row.key) then
        if (spared (s.doomed floor maxVersions) row.key (Row.image g row).versions).isEmpty then none
        else some ⟨row.key, spared (s.doomed floor maxVersions) row.key (Row.image g row).versions⟩
      else some (Row.image g row)
    rw [hspared, List.isEmpty_map]
    split
    · split
      · rfl
      · rfl
    · rfl

variable [DecidableEq H]

theorem image_applyBlock (s : MemoryStateStore K V H C) (block : BlockPointer H) (ms : List (Mutation K V))
    (cursor : Option (String × C)) : (s.image g).applyBlock block (ms.map (Mutation.image g)) cursor =
      (s.applyBlock block ms cursor).map (image g) := by
  unfold applyBlock
  have hblocks : (s.image g).blocks = s.blocks := rfl
  have htip : (s.image g).tip = s.tip := rfl
  rw [hblocks, htip]
  split
  · rfl
  · split
    · rfl
    · split
      · rfl
      · have hrows := foldl_image (g := g) block.number ms s.rows
        unfold Except.map image
        dsimp only
        rw [hrows]

end MemoryStateStore

end Etherfold
