import Mathlib.Data.List.Sort
import Etherfold.Ledger.Above
import Etherfold.Store.Retention

/-!
# The reference store

`MemoryStateStore` keeps, for every business key, its versions; the blocks it
applied; and the cursors. A block is applied above the tip or refused, a revert
cuts every key at a height, and a prune deletes closed versions the retention
does not reach.

* `versionsOf_foldl`, `versionsOf_revertTo`: what an operation does to one key.
* `versionsOf_prune`: a prune deletes closed versions at or below its floor.
* `MemoryStateStore.WellFormed`: what every operation keeps.
-/

namespace Etherfold

open Versions

/-- A block as the store records it; the hash is in its canonical spelling. -/
structure BlockPointer (H : Type) where
  number : ℕ
  hash : H
  deriving DecidableEq, Repr

/-- A mutation resolved against the declarations: the business key, and the complete row an
upsert writes. One that cannot be resolved is refused before anything is written. -/
inductive Mutation (K V : Type) where
  | upsert (key : K) (values : V)
  | delete (key : K)
  deriving DecidableEq, Repr

/-- One business key and its versions, oldest first. -/
structure Row (K V : Type) where
  key : K
  versions : List (Version V)
  deriving DecidableEq, Repr

/-- Why a block is refused. -/
inductive StoreWriteRefusedError (H : Type) where
  | blockAlreadyRecorded (number : ℕ)
  | blockHashAlreadyRecorded (hash : H) (height : ℕ)
  | blockNotAboveTip (number tip : ℕ)
  deriving DecidableEq, Repr

/-- What a prune did. -/
structure PruneReport where
  tip : Option ℕ
  floor : Option ℕ
  versionsDeleted : ℕ
  complete : Bool
  deriving DecidableEq, Repr

/-- The store. `rows` and `blocks` are maps in insertion order; the map of hashes is the
inverse of `blocks` and is read off it. `C` is what a cursor holds, opaque to the store. -/
structure MemoryStateStore (K V H C : Type) where
  rows : List (Row K V)
  blocks : List (BlockPointer H)
  cursors : String → Option C
  provided : Retention
  finalityDepth : Option ℕ
  tip : Option ℕ

variable {K V H C : Type}

/-- The constructor: a store over nothing. -/
def MemoryStateStore.new (setting : Option RetentionSetting) (finalityDepth : Option ℕ) :
    Except RetentionError (MemoryStateStore K V H C) :=
  match resolveRetention setting finalityDepth with
  | .error e => .error e
  | .ok provided => .ok ⟨[], [], fun _ => none, provided, finalityDepth, none⟩

def Mutation.key : Mutation K V → K
  | .upsert key _ => key
  | .delete key => key

/-- The row a mutation leaves, if any. -/
def Mutation.values : Mutation K V → Option V
  | .upsert _ values => some values
  | .delete _ => none

variable [DecidableEq K]

/-- The versions of a key. -/
def versionsOf (rows : List (Row K V)) (key : K) : List (Version V) :=
  ((rows.find? (·.key = key)).map (·.versions)).getD []

/-- One mutation of block `number`; a key without a row gets one, even when it is only
deleted. -/
def applyMutation (number : ℕ) (rows : List (Row K V)) (m : Mutation K V) : List (Row K V) :=
  let rows := if rows.any (·.key = m.key) then rows else rows ++ [⟨m.key, []⟩]
  rows.map fun row =>
    if row.key = m.key then { row with versions := write number m.values row.versions } else row

namespace MemoryStateStore

variable [DecidableEq H]

/-- **Apply one block**, with its cursor, or refuse it and change nothing. -/
def applyBlock (s : MemoryStateStore K V H C) (block : BlockPointer H) (mutations : List (Mutation K V))
    (cursor : Option (String × C)) : Except (StoreWriteRefusedError H) (MemoryStateStore K V H C) :=
  if s.blocks.any (·.number = block.number) then .error (.blockAlreadyRecorded block.number)
  else
    match s.blocks.find? (·.hash = block.hash) with
    | some recorded => .error (.blockHashAlreadyRecorded block.hash recorded.number)
    | none =>
      match s.tip.filter (block.number ≤ ·) with
      | some tip => .error (.blockNotAboveTip block.number tip)
      | none => .ok
        { s with
          blocks := s.blocks ++ [block]
          -- the height is above the tip here
          tip := some block.number
          rows := mutations.foldl (applyMutation block.number) s.rows
          cursors := match cursor with
            | none => s.cursors
            | some (key, value) => Function.update s.cursors key (some value) }

/-- Move a cursor with no block behind it. -/
def writeCursor (s : MemoryStateStore K V H C) (key : String) (value : C) : MemoryStateStore K V H C :=
  { s with cursors := Function.update s.cursors key (some value) }

def clearCursor (s : MemoryStateStore K V H C) (key : String) : MemoryStateStore K V H C :=
  { s with cursors := Function.update s.cursors key none }

def readCursor (s : MemoryStateStore K V H C) (key : String) : Option C := s.cursors key

/-- **Drop what was opened above `keepUpTo` and open again what was closed above it.** A
negative height wipes the store. The cursors stay. -/
def revertTo (s : MemoryStateStore K V H C) (keepUpTo : ℤ) : MemoryStateStore K V H C :=
  let blocks := s.blocks.filter fun b => (b.number : ℤ) ≤ keepUpTo
  { s with
    rows := s.rows.filterMap fun row =>
      let kept := cutAt keepUpTo row.versions
      if kept.isEmpty then none else some { row with versions := kept }
    blocks := blocks
    tip := (blocks.map (·.number)).max? }

/-- The closed versions at or below the floor: the key, the position among the key's
versions, and the height that closed it. -/
def unreachable (s : MemoryStateStore K V H C) (floor : ℕ) : List (K × ℕ × ℕ) :=
  s.rows.flatMap fun row => row.versions.zipIdx.filterMap fun (v, i) =>
    (v.upper.filter (· ≤ floor)).map fun upper => (row.key, i, upper)

/-- The versions of a key that a prune leaves. -/
def spared (doomed : List (K × ℕ × ℕ)) (key : K) (vs : List (Version V)) : List (Version V) :=
  (vs.zipIdx.filter fun (_, i) => !doomed.any fun d => d.1 = key && d.2.1 = i).map (·.1)

/-- What a prune at `floor` deletes: the oldest of the unreachable, as far as the budget goes. -/
def doomed (s : MemoryStateStore K V H C) (floor : ℕ) (maxVersions : Option ℕ) : List (K × ℕ × ℕ) :=
  let unreachable := (s.unreachable floor).insertionSort fun a b => a.2.2 ≤ b.2.2
  match maxVersions with
  | none => unreachable
  | some budget => unreachable.take budget

/-- The floor a prune works at. -/
def floor (s : MemoryStateStore K V H C) : Option ℕ :=
  s.tip.bind fun tip => retentionFloor s.provided tip s.finalityDepth

/-- **Delete what the retention does not reach.** -/
def prune (s : MemoryStateStore K V H C) (maxVersions : Option ℕ) : MemoryStateStore K V H C × PruneReport :=
  match s.floor with
  | none => (s, ⟨s.tip, none, 0, true⟩)
  | some floor =>
    let doomed := s.doomed floor maxVersions
    ({ s with
        rows := s.rows.filterMap fun row =>
          if doomed.any (·.1 = row.key) then
            let versions := spared doomed row.key row.versions
            if versions.isEmpty then none else some { row with versions := versions }
          else some row },
      ⟨s.tip, some floor, doomed.length, doomed.length = (s.unreachable floor).length⟩)

/-- The value of a key at the tip. -/
def getCurrent (s : MemoryStateStore K V H C) (key : K) : Option V :=
  (current (versionsOf s.rows key)).map (·.values)

end MemoryStateStore

/-! ### What the operations do to one key -/

section Rows

/-- Every key has one row. -/
abbrev KeysNodup (rows : List (Row K V)) : Prop := (rows.map (·.key)).Nodup

@[simp] theorem versionsOf_nil (key : K) : versionsOf ([] : List (Row K V)) key = [] := rfl

theorem versionsOf_cons (row : Row K V) (rows : List (Row K V)) (key : K) :
    versionsOf (row :: rows) key = if row.key = key then row.versions else versionsOf rows key := by
  unfold versionsOf
  rw [List.find?_cons]
  by_cases h : row.key = key <;> simp [h]

theorem versionsOf_eq_nil {rows : List (Row K V)} {key : K} (h : ∀ row ∈ rows, row.key ≠ key) :
    versionsOf rows key = [] := by
  induction rows with
  | nil => rfl
  | cons row rows ih =>
    rw [versionsOf_cons, if_neg (h row List.mem_cons_self), ih fun r hr => h r (List.mem_cons_of_mem _ hr)]

theorem exists_row_of_mem_versionsOf {rows : List (Row K V)} {key : K} {v : Version V} (h : v ∈ versionsOf rows key) :
    ∃ row ∈ rows, row.key = key ∧ v ∈ row.versions := by
  induction rows with
  | nil => cases h
  | cons row rows ih =>
    rw [versionsOf_cons] at h
    split at h
    · rename_i hkey
      exact ⟨row, List.mem_cons_self, hkey, h⟩
    · obtain ⟨row', hrow', hrest⟩ := ih h
      exact ⟨row', List.mem_cons_of_mem _ hrow', hrest⟩

theorem versionsOf_of_mem {rows : List (Row K V)} (h : KeysNodup rows) {row : Row K V} (hr : row ∈ rows) :
    versionsOf rows row.key = row.versions := by
  induction rows with
  | nil => cases hr
  | cons r rows ih =>
    obtain ⟨hnot, hrows⟩ := List.nodup_cons.1 h
    rw [versionsOf_cons]
    rcases List.mem_cons.1 hr with rfl | hr
    · rw [if_pos rfl]
    · have hne : r.key ≠ row.key := fun heq => hnot (List.mem_map.2 ⟨row, hr, heq.symm⟩)
      rw [if_neg hne, ih hrows hr]

omit [DecidableEq K] in
theorem keys_filterMap_sublist (rows : List (Row K V)) (g : Row K V → Option (Row K V))
    (hg : ∀ row row', g row = some row' → row'.key = row.key) :
    ((rows.filterMap g).map (·.key)).Sublist (rows.map (·.key)) := by
  induction rows with
  | nil => exact List.Sublist.refl _
  | cons row rows ih =>
    cases hrow : g row with
    | none => rw [List.filterMap_cons_none hrow, List.map_cons]; exact ih.cons _
    | some row' =>
      rw [List.filterMap_cons_some hrow, List.map_cons, List.map_cons, hg row row' hrow]
      exact ih.cons_cons _

/-- Rewriting row by row rewrites each key's versions. -/
theorem versionsOf_filterMap {rows : List (Row K V)} (h : KeysNodup rows) (g : Row K V → Option (Row K V))
    (hg : ∀ row row', g row = some row' → row'.key = row.key) (f : List (Version V) → List (Version V))
    (hf : f [] = []) (key : K)
    (hrows : ∀ row ∈ rows, row.key = key → ((g row).map (·.versions)).getD [] = f row.versions) :
    versionsOf (rows.filterMap g) key = f (versionsOf rows key) := by
  induction rows with
  | nil => exact hf.symm
  | cons row rows ih =>
    obtain ⟨hnot, htail⟩ := List.nodup_cons.1 h
    have hih := ih htail fun r hr => hrows r (List.mem_cons_of_mem _ hr)
    rw [versionsOf_cons]
    by_cases hkey : row.key = key
    · have hrow := hrows row List.mem_cons_self hkey
      rw [if_pos hkey, ← hrow]
      cases hgr : g row with
      | some row' =>
        rw [List.filterMap_cons_some hgr, versionsOf_cons, if_pos ((hg row row' hgr).trans hkey)]
        rfl
      | none =>
        rw [List.filterMap_cons_none hgr]
        refine versionsOf_eq_nil fun r hr heq => hnot ?_
        have hmem := (keys_filterMap_sublist rows g hg).subset (List.mem_map_of_mem hr)
        rwa [heq, ← hkey] at hmem
    · rw [if_neg hkey]
      cases hgr : g row with
      | none => rw [List.filterMap_cons_none hgr, hih]
      | some row' =>
        rw [List.filterMap_cons_some hgr, versionsOf_cons, if_neg, hih]
        rwa [hg row row' hgr]

theorem versionsOf_append_empty (rows : List (Row K V)) (k key : K) :
    versionsOf (rows ++ [⟨k, []⟩]) key = versionsOf rows key := by
  induction rows with
  | nil => rw [List.nil_append, versionsOf_cons]; split <;> rfl
  | cons row rows ih => rw [List.cons_append, versionsOf_cons, versionsOf_cons, ih]

theorem versionsOf_map_at (rows : List (Row K V)) (k : K) (f : List (Version V) → List (Version V)) (key : K)
    (hk : ∃ row ∈ rows, row.key = k) :
    versionsOf (rows.map fun row => if row.key = k then { row with versions := f row.versions } else row) key =
      if k = key then f (versionsOf rows key) else versionsOf rows key := by
  induction rows with
  | nil => obtain ⟨row, hrow, -⟩ := hk; cases hrow
  | cons row rows ih =>
    rw [List.map_cons, versionsOf_cons, versionsOf_cons]
    by_cases hrow : row.key = k
    · rw [if_pos hrow]
      by_cases hkey : row.key = key
      · rw [if_pos hkey, if_pos hkey, if_pos (hrow.symm.trans hkey)]
      · have hne : ¬k = key := fun h => hkey (hrow.trans h)
        rw [if_neg hkey, if_neg hkey, if_neg hne]
        by_cases htail : ∃ r ∈ rows, r.key = k
        · rw [ih htail, if_neg hne]
        · have hid : rows.map (fun row => if row.key = k then { row with versions := f row.versions } else row) =
              rows := by
            refine (List.map_congr_left fun r hr => ?_).trans (List.map_id _)
            exact if_neg fun h => htail ⟨r, hr, h⟩
          rw [hid]
    · obtain ⟨r, hr, hrk⟩ := hk
      have htail : ∃ r ∈ rows, r.key = k := by
        rcases List.mem_cons.1 hr with rfl | hr
        · exact absurd hrk hrow
        · exact ⟨r, hr, hrk⟩
      rw [if_neg hrow, ih htail]
      by_cases hkey : row.key = key
      · have hne : ¬k = key := fun h => hrow (hkey.trans h.symm)
        rw [if_pos hkey, if_neg hne, if_pos hkey]
      · rw [if_neg hkey, if_neg hkey]

/-- **A mutation writes its key's versions** and leaves the others. -/
theorem versionsOf_applyMutation (number : ℕ) (rows : List (Row K V)) (m : Mutation K V) (key : K) :
    versionsOf (applyMutation number rows m) key =
      if m.key = key then write number m.values (versionsOf rows key) else versionsOf rows key := by
  unfold applyMutation
  dsimp only
  split
  · rename_i hany
    refine versionsOf_map_at rows m.key (write number m.values) key ?_
    simpa using hany
  · rw [versionsOf_map_at _ m.key (write number m.values) key ⟨⟨m.key, []⟩, by simp, rfl⟩,
      versionsOf_append_empty]

theorem keysNodup_applyMutation {number : ℕ} {rows : List (Row K V)} (h : KeysNodup rows)
    (m : Mutation K V) : KeysNodup (applyMutation number rows m) := by
  have hkeys : ∀ rs : List (Row K V), (rs.map fun row =>
      if row.key = m.key then { row with versions := write number m.values row.versions } else row).map
        (·.key) = rs.map (·.key) := by
    intro rs
    rw [List.map_map]
    refine List.map_congr_left fun r _ => ?_
    rw [Function.comp_apply]
    split <;> rfl
  unfold applyMutation KeysNodup
  dsimp only
  rw [hkeys]
  split
  · exact h
  · rename_i hany
    rw [List.map_append, List.nodup_append]
    refine ⟨h, List.nodup_singleton _, ?_⟩
    intro k hk k' hk' heq
    obtain ⟨row, hrow, rfl⟩ := List.mem_map.1 hk
    have hk'' : k' = m.key := by simpa using hk'
    exact hany (List.any_eq_true.2 ⟨row, hrow, by simpa using heq.trans hk''⟩)

end Rows

/-- What a key's versions become under a block's mutations. -/
def writes (number : ℕ) (key : K) (ms : List (Mutation K V)) (vs : List (Version V)) : List (Version V) :=
  ms.foldl (fun vs m => if m.key = key then write number m.values vs else vs) vs

theorem versionsOf_foldl (number : ℕ) (key : K) (ms : List (Mutation K V)) (rows : List (Row K V)) :
    versionsOf (ms.foldl (applyMutation number) rows) key = writes number key ms (versionsOf rows key) := by
  induction ms generalizing rows with
  | nil => rfl
  | cons m ms ih =>
    rw [List.foldl_cons, ih, versionsOf_applyMutation]
    rfl

theorem keysNodup_foldl {number : ℕ} (ms : List (Mutation K V)) {rows : List (Row K V)}
    (h : KeysNodup rows) : KeysNodup (ms.foldl (applyMutation number) rows) := by
  induction ms generalizing rows with
  | nil => exact h
  | cons m ms ih => exact ih (keysNodup_applyMutation h m)

/-! ### What every operation keeps -/

namespace MemoryStateStore

/-- Blocks ascend to the tip, and every key has one row of chained versions whose heights are
recorded. -/
structure WellFormed (s : MemoryStateStore K V H C) : Prop where
  nodup : KeysNodup s.rows
  ascending : s.blocks.Pairwise fun a b => a.number < b.number
  tip : s.tip = (s.blocks.map (·.number)).max?
  chained : ∀ key, Chained (versionsOf s.rows key)
  within : ∀ key, Within (fun n => ∃ b ∈ s.blocks, b.number = n) (versionsOf s.rows key)

theorem wellFormed_new {setting : Option RetentionSetting} {finalityDepth : Option ℕ} {s : MemoryStateStore K V H C}
    (h : new setting finalityDepth = .ok s) : s.WellFormed := by
  unfold new at h
  split at h
  · cases h
  · cases h
    exact ⟨List.nodup_nil, List.Pairwise.nil, rfl, fun _ => ⟨List.Pairwise.nil, fun _ h => by cases h⟩,
      fun _ _ h => by cases h⟩

/-- The tip is the highest block. -/
theorem WellFormed.le_tip {s : MemoryStateStore K V H C} (h : s.WellFormed) {b : BlockPointer H}
    (hb : b ∈ s.blocks) : ∃ tip, s.tip = some tip ∧ b.number ≤ tip := by
  have hmem : b.number ∈ s.blocks.map (·.number) := List.mem_map_of_mem hb
  rw [h.tip]
  cases hmax : (s.blocks.map (·.number)).max? with
  | none => rw [List.max?_eq_none_iff.1 hmax] at hmem; cases hmem
  | some tip => exact ⟨tip, rfl, (List.max?_eq_some_iff.1 hmax).2 _ hmem⟩

variable [DecidableEq H]

/-- **What an accepted block does.** -/
theorem applyBlock_ok {s s' : MemoryStateStore K V H C} {block : BlockPointer H}
    {mutations : List (Mutation K V)} {cursor : Option (String × C)} (hs : s.WellFormed)
    (h : s.applyBlock block mutations cursor = .ok s') :
    (∀ b ∈ s.blocks, b.number < block.number ∧ b.hash ≠ block.hash) ∧
      s'.blocks = s.blocks ++ [block] ∧ s'.tip = some block.number ∧
      (∀ key, versionsOf s'.rows key = writes block.number key mutations (versionsOf s.rows key)) ∧
      KeysNodup s'.rows := by
  unfold applyBlock at h
  split at h
  · cases h
  rename_i hnumber
  split at h
  · cases h
  rename_i hhash
  split at h
  · cases h
  rename_i htip
  cases h
  refine ⟨fun b hb => ⟨?_, ?_⟩, rfl, rfl, fun key => versionsOf_foldl _ _ _ _, keysNodup_foldl _ hs.nodup⟩
  · obtain ⟨tip, htip', hle⟩ := hs.le_tip hb
    rw [htip', Option.filter_some] at htip
    have hlt : ¬block.number ≤ tip := by
      intro hle
      rw [if_pos (by simpa using hle)] at htip
      cases htip
    omega
  · have hne := List.find?_eq_none.1 hhash b hb
    simpa using hne

theorem chained_writes {number : ℕ} {key : K} {N : ℕ → Prop} (ms : List (Mutation K V)) (hN : N number)
    (hle : ∀ n, N n → n ≤ number) {vs : List (Version V)} (hc : Chained vs) (hw : Within N vs) :
    Chained (writes number key ms vs) ∧ Within N (writes number key ms vs) := by
  induction ms generalizing vs with
  | nil => exact ⟨hc, hw⟩
  | cons m ms ih =>
    unfold writes
    rw [List.foldl_cons]
    split
    · have hn : Within (· ≤ number) vs := fun v hv =>
        ⟨hle _ (hw v hv).1, fun x hx => hle _ ((hw v hv).2 x hx)⟩
      exact ih (hc.write hn m.values) (hw.write hN m.values)
    · exact ih hc hw

theorem WellFormed.applyBlock {s s' : MemoryStateStore K V H C} (hs : s.WellFormed) {block : BlockPointer H}
    {mutations : List (Mutation K V)} {cursor : Option (String × C)}
    (h : s.applyBlock block mutations cursor = .ok s') : s'.WellFormed := by
  obtain ⟨hbelow, hblocks, htip, hrows, hnodup⟩ := applyBlock_ok hs h
  have hall : ∀ n, (∃ b ∈ s'.blocks, b.number = n) → n ≤ block.number := by
    intro n hn
    obtain ⟨b, hb, rfl⟩ := hn
    rw [hblocks] at hb
    rcases List.mem_append.1 hb with hb | hb
    · exact (hbelow b hb).1.le
    · rw [List.mem_singleton.1 hb]
  have hwrites : ∀ key, Chained (writes block.number key mutations (versionsOf s.rows key)) ∧
      Within (fun n => ∃ b ∈ s'.blocks, b.number = n)
        (writes block.number key mutations (versionsOf s.rows key)) := by
    intro key
    refine chained_writes mutations ⟨block, by rw [hblocks]; simp, rfl⟩ hall (hs.chained key) ?_
    have hmono : ∀ n, (∃ b ∈ s.blocks, b.number = n) → ∃ b ∈ s'.blocks, b.number = n := by
      intro n hn
      obtain ⟨b, hb, hbn⟩ := hn
      exact ⟨b, by rw [hblocks]; exact List.mem_append_left _ hb, hbn⟩
    exact fun v hv => ⟨hmono _ (hs.within key v hv).1, fun x hx => hmono _ ((hs.within key v hv).2 x hx)⟩
  refine ⟨hnodup, ?_, ?_, fun key => ?_, fun key => ?_⟩
  · rw [hblocks, List.pairwise_append]
    refine ⟨hs.ascending, List.pairwise_singleton _ _, fun a ha b hb => ?_⟩
    rw [List.mem_singleton.1 hb]
    exact (hbelow a ha).1
  · rw [htip, eq_comm, List.max?_eq_some_iff]
    refine ⟨by rw [hblocks]; simp, fun n hn => ?_⟩
    obtain ⟨b, hb, hbn⟩ := List.mem_map.1 hn
    exact hall n ⟨b, hb, hbn⟩
  · rw [hrows]
    exact (hwrites key).1
  · rw [hrows]
    exact (hwrites key).2

omit [DecidableEq H] in
/-- **A revert cuts every key.** -/
theorem versionsOf_revertTo {s : MemoryStateStore K V H C} (hs : KeysNodup s.rows) (k : ℤ) (key : K) :
    versionsOf (s.revertTo k).rows key = cutAt k (versionsOf s.rows key) := by
  refine versionsOf_filterMap hs _ ?_ (cutAt k) rfl key fun row _ _ => ?_
  · intro row row' h
    dsimp only at h
    split at h <;> cases h
    rfl
  · dsimp only
    split
    · rename_i hempty
      exact (List.isEmpty_iff.1 hempty).symm
    · rfl

omit [DecidableEq K] [DecidableEq H] in
theorem keysNodup_revertTo {s : MemoryStateStore K V H C} (hs : KeysNodup s.rows) (k : ℤ) :
    KeysNodup (s.revertTo k).rows := by
  refine hs.sublist (keys_filterMap_sublist _ _ ?_)
  intro row row' h
  dsimp only at h
  split at h <;> cases h
  rfl

omit [DecidableEq H] in
theorem WellFormed.revertTo {s : MemoryStateStore K V H C} (hs : s.WellFormed) (k : ℤ) :
    (s.revertTo k).WellFormed := by
  refine ⟨keysNodup_revertTo hs.nodup k, hs.ascending.filter _, rfl, fun key => ?_, fun key => ?_⟩
  · rw [versionsOf_revertTo hs.nodup]
    exact (hs.chained key).cutAt k
  · rw [versionsOf_revertTo hs.nodup]
    have hkept : ∀ n : ℕ, (∃ b ∈ s.blocks, b.number = n) ∧ (n : ℤ) ≤ k →
        ∃ b ∈ (s.revertTo k).blocks, b.number = n := by
      intro n ⟨⟨b, hb, hbn⟩, hle⟩
      refine ⟨b, List.mem_filter.2 ⟨hb, ?_⟩, hbn⟩
      rw [hbn]
      exact decide_eq_true hle
    have hcut := (hs.within key).cutAt k
    exact fun v hv => ⟨hkept _ (hcut v hv).1, fun x hx => hkept _ ((hcut v hv).2 x hx)⟩

omit [DecidableEq H] in
/-- After a revert a key reads as it stood at the height. -/
theorem getCurrent_revertTo {s : MemoryStateStore K V H C} (hs : KeysNodup s.rows) (k : ℤ) (key : K) :
    (s.revertTo k).getCurrent key = (asOf k (versionsOf s.rows key)).map (·.values) := by
  unfold getCurrent
  rw [versionsOf_revertTo hs, current_cutAt, Option.map_map]
  congr 1
  funext v
  exact Version.reopen_values k v

/-! ### Pruning -/

omit [DecidableEq K] [DecidableEq H] in
theorem mem_unreachable {s : MemoryStateStore K V H C} {floor : ℕ} {d : K × ℕ × ℕ} :
    d ∈ s.unreachable floor ↔ ∃ row ∈ s.rows, d.1 = row.key ∧ ∃ v, (v, d.2.1) ∈ row.versions.zipIdx ∧
      v.upper = some d.2.2 ∧ d.2.2 ≤ floor := by
  obtain ⟨key, i, x⟩ := d
  unfold unreachable
  simp only [List.mem_flatMap, List.mem_filterMap, Option.map_eq_some_iff, Option.filter_eq_some_iff,
    decide_eq_true_eq, Prod.exists, Prod.mk.injEq]
  refine exists_congr fun row => and_congr_right fun _ => ?_
  refine ⟨fun h => ?_, fun h => ?_⟩
  · obtain ⟨v, j, hv, y, ⟨hy, hle⟩, rfl, rfl, rfl⟩ := h
    exact ⟨rfl, v, hv, hy, hle⟩
  · obtain ⟨rfl, v, hv, hy, hle⟩ := h
    exact ⟨v, i, hv, x, ⟨hy, hle⟩, rfl, rfl, rfl⟩

theorem spared_eq_self {doomed : List (K × ℕ × ℕ)} {key : K} (h : doomed.any (·.1 = key) = false)
    (vs : List (Version V)) : spared doomed key vs = vs := by
  have hkeep : vs.zipIdx.filter (fun (_, i) => !doomed.any fun d => d.1 = key && d.2.1 = i) = vs.zipIdx := by
    rw [List.filter_eq_self]
    intro ⟨v, i⟩ _
    rw [List.any_eq_false] at h
    simp only [Bool.not_eq_true', List.any_eq_false, Bool.and_eq_true, not_and]
    exact fun d hd hk => absurd hk (h d hd)
  unfold spared
  rw [hkeep]
  exact List.zipIdx_map_fst 0 vs

omit [DecidableEq H] in
/-- What a prune leaves of a key: some versions gone, each of those closed at or below the
floor. -/
theorem thinned_spared {s : MemoryStateStore K V H C} (hs : KeysNodup s.rows) {floor : ℕ}
    {doomed : List (K × ℕ × ℕ)} (hd : ∀ d ∈ doomed, d ∈ s.unreachable floor) (key : K) :
    Thinned (· ≤ floor) (spared doomed key (versionsOf s.rows key)) (versionsOf s.rows key) := by
  set vs := versionsOf s.rows key with hvs
  have hzip : vs.zipIdx.map (·.1) = vs := List.zipIdx_map_fst 0 vs
  refine ⟨?_, fun v hv hgone => ?_⟩
  · have hsub : (spared doomed key vs).Sublist (vs.zipIdx.map (·.1)) := List.filter_sublist.map _
    rwa [hzip] at hsub
  · rw [← hzip] at hv
    obtain ⟨⟨w, i⟩, hw, rfl⟩ := List.mem_map.1 hv
    have hdoomed : doomed.any (fun d => d.1 = key && d.2.1 = i) = true := by
      by_contra hnot
      rw [Bool.not_eq_true] at hnot
      refine hgone (List.mem_map.2 ⟨(w, i), List.mem_filter.2 ⟨hw, ?_⟩, rfl⟩)
      show (!doomed.any fun d => d.1 = key && d.2.1 = i) = true
      rw [hnot]
      rfl
    obtain ⟨d, hmem, hdk⟩ := List.any_eq_true.1 hdoomed
    rw [Bool.and_eq_true, decide_eq_true_eq, decide_eq_true_eq] at hdk
    obtain ⟨row, hrow, hk, v, hv', hup, hle⟩ := mem_unreachable.1 (hd d hmem)
    -- the doomed entry is this version: one row a key, one version a position
    have hsame : row.versions = vs := by
      rw [← versionsOf_of_mem hs hrow, ← hk, hdk.1]
    rw [hsame, hdk.2] at hv'
    have hvw : v = w := by
      have h1 := List.mem_zipIdx_iff_getElem?.1 hv'
      have h2 := List.mem_zipIdx_iff_getElem?.1 hw
      rw [h1] at h2
      exact Option.some.inj h2
    exact ⟨d.2.2, by rw [← hvw]; exact hup, hle⟩

omit [DecidableEq K] [DecidableEq H] in
theorem mem_doomed {s : MemoryStateStore K V H C} {floor : ℕ} {maxVersions : Option ℕ} {d : K × ℕ × ℕ}
    (h : d ∈ s.doomed floor maxVersions) : d ∈ s.unreachable floor := by
  have hperm := List.perm_insertionSort (fun a b : K × ℕ × ℕ => a.2.2 ≤ b.2.2) (s.unreachable floor)
  unfold doomed at h
  dsimp only at h
  split at h
  · exact hperm.subset h
  · exact hperm.subset (List.mem_of_mem_take h)

omit [DecidableEq H] in
/-- A prune keeps of each key what it does not delete. -/
theorem versionsOf_prune {s : MemoryStateStore K V H C} (hs : KeysNodup s.rows) {floor : ℕ}
    (hfloor : s.floor = some floor) (maxVersions : Option ℕ) :
    (∃ rows, (s.prune maxVersions).1 = { s with rows := rows } ∧ KeysNodup rows) ∧
      ∀ key, versionsOf (s.prune maxVersions).1.rows key =
        spared (s.doomed floor maxVersions) key (versionsOf s.rows key) := by
  unfold prune
  rw [hfloor]
  dsimp only
  have hkey : ∀ row row' : Row K V, (if (s.doomed floor maxVersions).any (·.1 = row.key) then
      (if (spared (s.doomed floor maxVersions) row.key row.versions).isEmpty then none
        else some { row with versions := spared (s.doomed floor maxVersions) row.key row.versions })
      else some row) = some row' → row'.key = row.key := by
    intro row row' h
    split at h
    · split at h <;> cases h
      rfl
    · cases h
      rfl
  refine ⟨⟨_, rfl, hs.sublist (keys_filterMap_sublist _ _ hkey)⟩, fun key => ?_⟩
  have hspared : spared (s.doomed floor maxVersions) key ([] : List (Version V)) = [] := rfl
  refine versionsOf_filterMap hs _ hkey (spared (s.doomed floor maxVersions) key) hspared key ?_
  intro row _ hrow
  rw [hrow]
  split
  · split
    · rename_i hempty
      exact (List.isEmpty_iff.1 hempty).symm
    · rfl
  · rename_i hnone
    exact (spared_eq_self (Bool.eq_false_of_not_eq_true hnone) row.versions).symm

omit [DecidableEq H] in
/-- **What a prune does**: only rows change, and a key loses closed versions at or below the
floor; where there is no floor nothing goes. -/
theorem prune_thinned {s : MemoryStateStore K V H C} (hs : KeysNodup s.rows) (maxVersions : Option ℕ) :
    (∃ rows, (s.prune maxVersions).1 = { s with rows := rows } ∧ KeysNodup rows) ∧
      ∀ key, Thinned (fun x => ∃ f ∈ s.floor, x ≤ f) (versionsOf (s.prune maxVersions).1.rows key)
        (versionsOf s.rows key) := by
  cases hfloor : s.floor with
  | none =>
    have hsame : (s.prune maxVersions).1 = s := by
      unfold prune
      rw [hfloor]
    rw [hsame]
    exact ⟨⟨s.rows, rfl, hs⟩, fun key => .refl _ _⟩
  | some floor =>
    obtain ⟨hrows, hversions⟩ := versionsOf_prune hs hfloor maxVersions
    refine ⟨hrows, fun key => ?_⟩
    rw [hversions key]
    exact (thinned_spared hs (fun d => mem_doomed) key).mono fun x hx => ⟨floor, rfl, hx⟩

omit [DecidableEq H] in
/-- A prune without a budget leaves nothing that was closed at or below the floor. -/
theorem prune_complete {s : MemoryStateStore K V H C} (hs : KeysNodup s.rows) {floor : ℕ}
    (hfloor : s.floor = some floor) {key : K} {v : Version V} {x : ℕ} (hv : v.upper = some x)
    (hx : x ≤ floor) : v ∉ versionsOf (s.prune none).1.rows key := by
  obtain ⟨-, hversions⟩ := versionsOf_prune hs hfloor none
  rw [hversions key]
  intro hin
  obtain ⟨⟨w, i⟩, hw, rfl⟩ := List.mem_map.1 hin
  obtain ⟨hzip, hkept⟩ := List.mem_filter.1 hw
  -- the key has a row, and its entry at this position is doomed
  obtain ⟨row, hrow, hkey⟩ : ∃ row ∈ s.rows, row.key = key := by
    by_contra hnone
    rw [versionsOf_eq_nil fun row hrow heq => hnone ⟨row, hrow, heq⟩] at hzip
    cases hzip
  rw [← hkey, versionsOf_of_mem hs hrow] at hzip
  have hmem : (key, i, x) ∈ s.doomed floor none :=
    (List.perm_insertionSort _ _).mem_iff.2 (mem_unreachable.2 ⟨row, hrow, hkey.symm, w, hzip, hv, hx⟩)
  have hany : (s.doomed floor none).any (fun d => d.1 = key && d.2.1 = i) = true :=
    List.any_eq_true.2 ⟨_, hmem, by simp⟩
  replace hkept : (!(s.doomed floor none).any fun d => d.1 = key && d.2.1 = i) = true := hkept
  rw [hany] at hkept
  cases hkept

omit [DecidableEq H] in
/-- A budget that covers what is out of reach is as good as none. -/
theorem prune_covered {s : MemoryStateStore K V H C} {maxVersions : Option ℕ}
    (h : ∀ floor ∈ s.floor, ∀ budget ∈ maxVersions, (s.unreachable floor).length ≤ budget) :
    (s.prune maxVersions).1 = (s.prune none).1 := by
  unfold prune
  cases hfloor : s.floor with
  | none => rfl
  | some floor =>
    have hdoomed : s.doomed floor maxVersions = s.doomed floor none := by
      unfold doomed
      cases maxVersions with
      | none => rfl
      | some budget =>
        apply List.take_of_length_le
        rw [List.length_insertionSort]
        exact h floor hfloor budget rfl
    dsimp only
    rw [hdoomed]

omit [DecidableEq H] in
/-- What a prune takes from a key ended at or below its floor. -/
theorem prune_thinned_floor {s : MemoryStateStore K V H C} (h : KeysNodup s.rows) {floor : ℕ}
    (hf : s.floor = some floor) (maxVersions : Option ℕ) (key : K) :
    Thinned (· ≤ floor) (versionsOf (s.prune maxVersions).1.rows key) (versionsOf s.rows key) := by
  refine ((prune_thinned h maxVersions).2 key).mono fun x hx => ?_
  obtain ⟨f, hfmem, hle⟩ := hx
  rw [hf, Option.mem_some_iff] at hfmem
  rw [hfmem]
  exact hle

omit [DecidableEq H] in
/-- A history alike, pruned on its own: alike above the floor. -/
theorem alike_prune {s : MemoryStateStore K V H C} (h : s.WellFormed) {floor : ℕ} (hf : s.floor = some floor)
    (maxVersions : Option ℕ) {c : ℤ} {key : K} {vs vs' : List (Version V)}
    (halike : AlikeAbove c vs (versionsOf s.rows key)) (hthin : Thinned (· ≤ floor) vs' vs) :
    AlikeAbove (max c floor) vs' (versionsOf (s.prune maxVersions).1.rows key) := by
  have hleft := halike.thinned hthin
  have hboth := hleft.symm.thinned (prune_thinned_floor h.nodup hf maxVersions key)
  exact hboth.symm.mono (by omega)

omit [DecidableEq H] in
/-- **A history alike, pruned on its own of all a floor puts out of reach**: as alike as before,
where the budget covers it. -/
theorem alike_prune_whole {s : MemoryStateStore K V H C} (h : s.WellFormed) {floor : ℕ} (hf : s.floor = some floor)
    {maxVersions : Option ℕ} (hbudget : ∀ budget ∈ maxVersions, (s.unreachable floor).length ≤ budget) {c : ℤ}
    {key : K} {vs vs' : List (Version V)} (halike : AlikeAbove c vs (versionsOf s.rows key))
    (hthin : Thinned (· ≤ floor) vs' vs) (hall : ∀ v ∈ vs', ∀ x, v.upper = some x → floor < x) :
    AlikeAbove c vs' (versionsOf (s.prune maxVersions).1.rows key) := by
  have hsame : (s.prune maxVersions).1 = (s.prune none).1 := by
    apply prune_covered
    intro f hfmem budget hmem
    rw [hf, Option.mem_some_iff] at hfmem
    rw [← hfmem]
    exact hbudget budget hmem
  refine halike.thinned_both hthin (prune_thinned_floor h.nodup hf maxVersions key) hall fun v hv x hx => ?_
  by_contra hle
  rw [hsame] at hv
  exact prune_complete h.nodup hf hx (by omega) hv

omit [DecidableEq H] in
theorem WellFormed.prune {s : MemoryStateStore K V H C} (h : s.WellFormed) (maxVersions : Option ℕ) :
    (s.prune maxVersions).1.WellFormed := by
  obtain ⟨⟨rows, heq, hnodup⟩, hthin⟩ := prune_thinned h.nodup maxVersions
  rw [heq] at hthin ⊢
  exact ⟨hnodup, h.ascending, h.tip, fun key => (h.chained key).sublist (hthin key).sublist,
    fun key v hv => h.within key v ((hthin key).sublist.subset hv)⟩

end MemoryStateStore

end Etherfold
