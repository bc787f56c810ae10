import Etherfold.Indexed.Store
import Etherfold.Ledger.Overwrite

/-!
# What the indexed store does to one row

The versions of a row are the records under its version keys, in the order they opened. The
live records hold those of them that are not closed.

* `IndexedDB.Sound`: **the live records are the versions whose upper end is null**, and the
  versions of every row are chained.
* `Sound.applyMutation`, `Sound.revert`, `Sound.pruneVersions`: every operation keeps it, and what it
  does to the versions of each row.
-/

namespace Etherfold

open Versions

variable {V X H C : Type}

/-- The versions of a row, in the order they opened. -/
def rowVersions (s : ObjectStore Key (Version V)) (row : Key) : List (Version V) :=
  (s.entries.filter fun e => rowOfVersionKey e.1 = row).map (·.2)

/-- Every version is under its own key. -/
def Keyed (s : ObjectStore Key (Version V)) : Prop :=
  ∀ k v, s.get k = some v → ∃ row, IsRow row ∧ k = versionKey row v.lower

theorem keyed_empty : Keyed (.empty : ObjectStore Key (Version V)) := fun k v h => by
  rw [ObjectStore.get_empty] at h
  cases h

theorem Keyed.put {s : ObjectStore Key (Version V)} (h : Keyed s) {row : Key} (hrow : IsRow row) (v : Version V) :
    Keyed (s.put (versionKey row v.lower) v) := by
  intro k w hw
  rw [ObjectStore.get_put] at hw
  split at hw
  · rename_i hk
    cases hw
    exact ⟨row, hrow, hk⟩
  · exact h k w hw

theorem mem_rowVersions {s : ObjectStore Key (Version V)} (h : Keyed s) {row : Key} {v : Version V} :
    v ∈ rowVersions s row ↔ s.get (versionKey row v.lower) = some v := by
  unfold rowVersions
  rw [List.mem_map]
  constructor
  · intro hv
    obtain ⟨e, he, rfl⟩ := hv
    obtain ⟨hmem, hrow⟩ := List.mem_filter.1 he
    rw [decide_eq_true_eq] at hrow
    have hget := ObjectStore.get_eq_some_iff.2 hmem
    obtain ⟨row', -, hk⟩ := h _ _ hget
    have hsame : row' = row := by rw [← hrow, hk, rowOfVersionKey_versionKey]
    rw [← hsame, ← hk]
    exact hget
  · intro hget
    refine ⟨(versionKey row v.lower, v), List.mem_filter.2 ⟨ObjectStore.get_eq_some_iff.1 hget, ?_⟩, rfl⟩
    rw [decide_eq_true_eq, rowOfVersionKey_versionKey]

/-- **The versions of a row are in ascending order**, one a height. -/
theorem byLower_rowVersions {s : ObjectStore Key (Version V)} (h : Keyed s) (row : Key) :
    ByLower (rowVersions s row) := by
  unfold rowVersions
  refine List.pairwise_map.2 ?_
  have hpairs := (s.sorted.filter fun e => decide (rowOfVersionKey e.1 = row))
  refine hpairs.imp_of_mem fun {a b} ha hb hlt => ?_
  obtain ⟨hamem, harow⟩ := List.mem_filter.1 ha
  obtain ⟨hbmem, hbrow⟩ := List.mem_filter.1 hb
  rw [decide_eq_true_eq] at harow hbrow
  obtain ⟨ra, hra, hka⟩ := h _ _ (ObjectStore.get_eq_some_iff.2 hamem)
  obtain ⟨rb, hrb, hkb⟩ := h _ _ (ObjectStore.get_eq_some_iff.2 hbmem)
  have hsame : ra = rb := by
    rw [hka, rowOfVersionKey_versionKey] at harow
    rw [hkb, rowOfVersionKey_versionKey] at hbrow
    rw [harow, hbrow]
  rw [hka, hkb, versionKey_lt_iff hra hrb] at hlt
  rcases hlt with hlt | ⟨-, hlt⟩
  · rw [hsame] at hlt
    exact absurd hlt (lt_irrefl _)
  · exact_mod_cast hlt

/-- Only rows have versions. -/
theorem isRow_of_mem {s : ObjectStore Key (Version V)} (h : Keyed s) {row : Key} {v : Version V}
    (hv : v ∈ rowVersions s row) : IsRow row := by
  obtain ⟨row', hrow, hk⟩ := h _ _ ((mem_rowVersions h).1 hv)
  rw [(versionKey_inj.1 hk).1]
  exact hrow

/-- Writing a version leaves the other rows, and in its own the versions that opened elsewhere. -/
theorem mem_rowVersions_put {s : ObjectStore Key (Version V)} (h : Keyed s) {row : Key} (hrow : IsRow row)
    (u : Version V) {row' : Key} {v : Version V} : v ∈ rowVersions (s.put (versionKey row u.lower) u) row' ↔
      if row' = row ∧ v.lower = u.lower then v = u else v ∈ rowVersions s row' := by
  rw [mem_rowVersions (h.put hrow u), ObjectStore.get_put]
  by_cases hsame : row' = row ∧ v.lower = u.lower
  · have hkey : versionKey row' v.lower = versionKey row u.lower := by rw [hsame.1, hsame.2]
    rw [if_pos hkey, if_pos hsame, Option.some.injEq, eq_comm]
  · have hkey : versionKey row' v.lower ≠ versionKey row u.lower := by
      intro hkey
      obtain ⟨hrow', hlower⟩ := versionKey_inj.1 hkey
      exact hsame ⟨hrow', by exact_mod_cast hlower⟩
    rw [if_neg hkey, if_neg hsame, mem_rowVersions h]

/-- A write to one row leaves the others. -/
theorem rowVersions_put_of_ne {s : ObjectStore Key (Version V)} (h : Keyed s) {row : Key} (hrow : IsRow row)
    (u : Version V) {row' : Key} (hne : row' ≠ row) :
    rowVersions (s.put (versionKey row u.lower) u) row' = rowVersions s row' := by
  refine Paging.Sorted.ext (byLower_rowVersions (h.put hrow u) row') (byLower_rowVersions h row') fun v => ?_
  rw [mem_rowVersions_put h hrow, if_neg fun hboth => hne hboth.1]

/-- **The live version of a row is closed** where it stands. -/
theorem rowVersions_close {s : ObjectStore Key (Version V)} (h : Keyed s) {row : Key} (hrow : IsRow row)
    (hc : Chained (rowVersions s row)) (number : ℕ) {live : Version V}
    (hlive : Versions.current (rowVersions s row) = some live) :
    rowVersions (s.put (versionKey row live.lower) { live with upper := some number }) row =
      closeLive number (rowVersions s row) := by
  have hkeyed : Keyed (s.put (versionKey row live.lower) { live with upper := some number }) :=
    h.put hrow { live with upper := some number }
  have hsorted := byLower_rowVersions h row
  obtain ⟨hmem, hnone⟩ := (current_eq_some_iff hc).1 hlive
  refine Paging.Sorted.ext (byLower_rowVersions hkeyed row) (byLower_closeLive hc hsorted number) fun v => ?_
  rw [mem_rowVersions_put h hrow { live with upper := some number }, mem_closeLive hc]
  dsimp only
  by_cases hlower : v.lower = live.lower
  · rw [if_pos ⟨rfl, hlower⟩]
    constructor
    · rintro rfl
      exact .inr ⟨live, hmem, hnone, rfl⟩
    · rintro (⟨hv, hup⟩ | ⟨w, hw, hwnone, rfl⟩)
      · -- no two versions of a row open at one height
        have hsame : v = live := by
          by_contra hne
          have hsymm : Std.Symm fun a b : Version V => a.lower ≠ b.lower := ⟨fun _ _ => Ne.symm⟩
          exact (hsorted.imp fun hlt => ne_of_lt hlt).forall hv hmem hne hlower
        exact absurd (hsame ▸ hnone) hup
      · have hsame := (current_eq_some_iff hc).2 ⟨hw, hwnone⟩
        rw [hlive] at hsame
        cases hsame
        rfl
  · rw [if_neg fun hboth => hlower hboth.2]
    constructor
    · intro hv
      refine .inl ⟨hv, fun hup => hlower ?_⟩
      have hsame := (current_eq_some_iff hc).2 ⟨hv, hup⟩
      rw [hlive] at hsame
      cases hsame
      rfl
    · rintro (⟨hv, -⟩ | ⟨w, hw, hwnone, rfl⟩)
      · exact hv
      · have hsame := (current_eq_some_iff hc).2 ⟨hw, hwnone⟩
        rw [hlive] at hsame
        cases hsame
        exact absurd rfl hlower

namespace IndexedDB

/-- **The database keeps its two copies in step**: what is live is what is not closed. -/
structure Sound (db : IndexedDB X H C) : Prop where
  keyed : Keyed db.versions
  chained : ∀ row, Chained (rowVersions db.versions row)
  live : ∀ row, (db.current.get row).map CurrentRecord.version = Versions.current (rowVersions db.versions row)

theorem sound_empty : (empty : IndexedDB X H C).Sound :=
  ⟨keyed_empty, fun _ => ⟨List.Pairwise.nil, fun _ h => by cases h⟩, fun _ => rfl⟩

/-- Nothing but rows has changed. -/
def SameBooks (db db' : IndexedDB X H C) : Prop := { db' with current := db.current, versions := db.versions } = db

theorem SameBooks.trans {db₁ db₂ db₃ : IndexedDB X H C} (h : db₁.SameBooks db₂) (h' : db₂.SameBooks db₃) :
    db₁.SameBooks db₃ := by
  unfold SameBooks at *
  rw [← h, ← h']

theorem SameBooks.blocks {db db' : IndexedDB X H C} (h : db.SameBooks db') : db'.blocks = db.blocks := by
  rw [← h]

theorem SameBooks.cursors {db db' : IndexedDB X H C} (h : db.SameBooks db') : db'.cursors = db.cursors := by
  rw [← h]

theorem SameBooks.writer {db db' : IndexedDB X H C} (h : db.SameBooks db') : db'.writer = db.writer := by
  rw [← h]

variable {db : IndexedDB X H C} {number : ℕ}

/-! ### Mutations -/

/-- The versions once the live one of a row is closed. -/
def closed (db : IndexedDB X H C) (number : ℕ) (key : Key) : ObjectStore Key (Version (Record X)) :=
  match db.current.get key with
  | none => db.versions
  | some live => db.versions.put (versionKey key live.lower) ⟨live.values, live.lower, some number⟩

theorem Sound.closed (hs : db.Sound) {key : Key} (hkey : IsRow key) (number : ℕ) :
    Keyed (db.closed number key) ∧ ∀ row, rowVersions (db.closed number key) row =
      if row = key then closeLive number (rowVersions db.versions row) else rowVersions db.versions row := by
  have hlive := hs.live key
  unfold IndexedDB.closed
  cases hget : db.current.get key with
  | none =>
    rw [hget] at hlive
    refine ⟨hs.keyed, fun row => ?_⟩
    dsimp only
    split
    · rename_i hrow
      rw [hrow, closeLive_of_current_none (hs.chained key) hlive.symm]
    · rfl
  | some live =>
    rw [hget] at hlive
    have hput := hs.keyed.put hkey { live.version with upper := some number }
    refine ⟨hput, fun row => ?_⟩
    dsimp only
    split
    · rename_i hrow
      rw [hrow]
      exact rowVersions_close hs.keyed hkey (hs.chained key) number hlive.symm
    · rename_i hrow
      exact rowVersions_put_of_ne hs.keyed hkey { live.version with upper := some number } hrow

/-- A version put over the row's last. -/
theorem rowVersions_open {s : ObjectStore Key (Version V)} (h : Keyed s) {row : Key} (hrow : IsRow row)
    {vs : List (Version V)} (hc : Chained vs) (hsorted : ByLower vs) (hw : Within (· ≤ number) vs)
    (hclosed : rowVersions s row = closeLive number vs) (values : V) :
    rowVersions (s.put (versionKey row number) ⟨values, number, none⟩) row = overwrite number (some values) vs := by
  have hkeyed : Keyed (s.put (versionKey row number) ⟨values, number, none⟩) := h.put hrow ⟨values, number, none⟩
  refine Paging.Sorted.ext (byLower_rowVersions hkeyed row) (byLower_overwrite hc hsorted number (some values))
    fun v => ?_
  rw [mem_rowVersions_put h hrow ⟨values, number, none⟩, mem_overwrite, hclosed]
  dsimp only
  by_cases hlower : v.lower = number
  · rw [if_pos ⟨rfl, hlower⟩]
    simp [hlower]
  · rw [if_neg fun hboth => hlower hboth.2]
    constructor
    · intro hv
      have hle : v.lower ≤ number := by
        rcases (mem_closeLive hc).1 hv with ⟨hvs, -⟩ | ⟨w, hw', -, rfl⟩
        · exact (hw v hvs).1
        · exact (hw w hw').1
      exact .inl ⟨hv, fun _ => by omega⟩
    · rintro (⟨hv, -⟩ | ⟨values', -, rfl⟩)
      · exact hv
      · exact absurd rfl hlower

/-- **One mutation**: its row is written over, the others stay. -/
theorem Sound.applyMutation (hs : db.Sound) (hw : ∀ row, Within (· ≤ number) (rowVersions db.versions row))
    (m : Mutation EntityKey (Record X)) :
    (db.applyMutation number m).Sound ∧ db.SameBooks (db.applyMutation number m) ∧
      ∀ row, rowVersions (db.applyMutation number m).versions row =
        if row = rowKey m.key then overwrite number m.values (rowVersions db.versions row)
        else rowVersions db.versions row := by
  have hrow := isRow_rowKey m.key
  obtain ⟨hkeyed, hclosed⟩ := hs.closed hrow number
  have hself := hclosed (rowKey m.key)
  rw [if_pos rfl] at hself
  -- the versions first; the live rows follow
  have hversions : Keyed (db.applyMutation number m).versions ∧
      ∀ row, rowVersions (db.applyMutation number m).versions row =
        if row = rowKey m.key then overwrite number m.values (rowVersions db.versions row)
        else rowVersions db.versions row := by
    unfold IndexedDB.applyMutation
    cases m.values with
    | none => exact ⟨hkeyed, hclosed⟩
    | some values =>
      refine ⟨hkeyed.put hrow ⟨values, number, none⟩, fun row => ?_⟩
      by_cases heq : row = rowKey m.key
      · rw [if_pos heq, heq]
        exact rowVersions_open hkeyed hrow (hs.chained _) (byLower_rowVersions hs.keyed _) (hw _) hself values
      · have hother := hclosed row
        rw [if_neg heq] at hother ⊢
        exact (rowVersions_put_of_ne hkeyed hrow ⟨values, number, none⟩ heq).trans hother
  obtain ⟨hkeyed', hrows⟩ := hversions
  have hbooks : db.SameBooks (db.applyMutation number m) := by
    unfold SameBooks IndexedDB.applyMutation
    cases m.values <;> rfl
  refine ⟨⟨hkeyed', fun row => ?_, fun row => ?_⟩, hbooks, hrows⟩
  · rw [hrows]
    split
    · exact chained_overwrite (hs.chained row) (hw row) m.values
    · exact hs.chained row
  · rw [hrows]
    have hlive := hs.live row
    by_cases heq : row = rowKey m.key
    · rw [if_pos heq, current_overwrite (hs.chained row) (hw row)]
      unfold IndexedDB.applyMutation
      cases m.values with
      | none =>
        dsimp only
        split
        · rw [ObjectStore.get_delete, if_pos heq]
          rfl
        · rename_i hdead
          rw [Bool.not_eq_true, Option.isSome_eq_false_iff, Option.isNone_iff_eq_none] at hdead
          rw [heq, hdead]
          rfl
      | some values =>
        dsimp only
        rw [ObjectStore.get_put, if_pos heq]
        rfl
    · rw [if_neg heq, ← hlive]
      unfold IndexedDB.applyMutation
      cases m.values with
      | none =>
        dsimp only
        split
        · rw [ObjectStore.get_delete, if_neg heq]
        · rfl
      | some values =>
        dsimp only
        rw [ObjectStore.get_put, if_neg heq]

/-! ### Reverts -/

/-- The versions that opened above a height are gone. -/
theorem get_dropOpened (db : IndexedDB X H C) (keepUpTo : ℤ) (k : Key) :
    (db.dropOpened keepUpTo).versions.get k = (db.versions.get k).filter fun v => (v.lower : ℤ) ≤ keepUpTo := by
  unfold dropOpened
  dsimp only
  rw [ObjectStore.get_deleteAll (fun e : ℕ × Key × Version (Record X) => e.2.1)]
  have hmem : k ∈ ((db.versions.index fun version => some version.lower).filter fun e =>
      keepUpTo < (e.1 : ℤ)).map (fun e => e.2.1) ↔ ∃ v, db.versions.get k = some v ∧ keepUpTo < (v.lower : ℤ) := by
    simp only [List.mem_map, List.mem_filter, decide_eq_true_eq, Prod.exists, ObjectStore.mem_index,
      Option.some.injEq]
    constructor
    · rintro ⟨i, k', v, ⟨⟨hget, rfl⟩, hlt⟩, rfl⟩
      exact ⟨v, hget, hlt⟩
    · rintro ⟨v, hget, hlt⟩
      exact ⟨v.lower, k, v, ⟨⟨hget, rfl⟩, hlt⟩, rfl⟩
  by_cases hdropped : ∃ v, db.versions.get k = some v ∧ keepUpTo < (v.lower : ℤ)
  · rw [if_pos (hmem.2 hdropped)]
    obtain ⟨v, hget, hlt⟩ := hdropped
    rw [hget, Option.filter_some, if_neg (by simpa using hlt)]
  · rw [if_neg fun hin => hdropped (hmem.1 hin)]
    cases hget : db.versions.get k with
    | none => rfl
    | some v =>
      have hle : (v.lower : ℤ) ≤ keepUpTo := by
        by_contra hlt
        exact hdropped ⟨v, hget, by omega⟩
      rw [Option.filter_some, if_pos (by simpa using hle)]

/-- The versions that closed above a height are open again. -/
theorem get_reopenClosed (db : IndexedDB X H C) (keepUpTo : ℤ) (k : Key) :
    (db.reopenClosed keepUpTo).versions.get k = (db.versions.get k).map (Version.reopen keepUpTo) := by
  unfold reopenClosed
  dsimp only
  have hput := ObjectStore.get_putAll (fun e : ℕ × Key × Version (Record X) => e.2.1)
    (fun e => (⟨e.2.2.values, e.2.2.lower, none⟩ : Version (Record X)))
    ((db.versions.index (·.upper)).filter fun e => keepUpTo < (e.1 : ℤ)) db.versions k
  rw [hput]
  generalize hfind : List.find? _ _ = found
  cases found with
  | some e =>
    have hk : e.2.1 = k := by simpa using List.find?_some hfind
    obtain ⟨hindex, hlt⟩ := List.mem_filter.1 (List.mem_reverse.1 (List.mem_of_find?_eq_some hfind))
    obtain ⟨hget, hupper⟩ := ObjectStore.mem_index.1 hindex
    rw [hk] at hget
    have hreopen : e.2.2.reopen keepUpTo = ⟨e.2.2.values, e.2.2.lower, none⟩ := by
      unfold Version.reopen
      rw [hupper]
      exact if_pos (by simpa using hlt)
    rw [hget, Option.map_some, Option.map_some, hreopen]
    rfl
  | none =>
    cases hget : db.versions.get k with
    | none => rfl
    | some v =>
      have hsame : v.reopen keepUpTo = v := by
        unfold Version.reopen
        refine if_neg fun hany => ?_
        obtain ⟨x, hx, hlt⟩ := (Option.any_eq_true _ _).1 hany
        have hmem : (x, k, v) ∈ ((db.versions.index (·.upper)).filter fun e => keepUpTo < (e.1 : ℤ)).reverse :=
          List.mem_reverse.2 (List.mem_filter.2 ⟨ObjectStore.mem_index.2 ⟨hget, hx⟩, hlt⟩)
        exact absurd (List.find?_eq_none.1 hfind _ hmem) (by simp)
      rw [Option.map_some, hsame]
      rfl

theorem Sound.keyed_dropOpened (hs : db.Sound) (keepUpTo : ℤ) : Keyed (db.dropOpened keepUpTo).versions := by
  intro k v hget
  rw [get_dropOpened, Option.filter_eq_some_iff] at hget
  exact hs.keyed k v hget.1

theorem Sound.keyed_revert (hs : db.Sound) (keepUpTo : ℤ) :
    Keyed ((db.dropOpened keepUpTo).reopenClosed keepUpTo).versions := by
  intro k v hget
  rw [get_reopenClosed, Option.map_eq_some_iff] at hget
  obtain ⟨w, hw, rfl⟩ := hget
  rw [Version.reopen_lower]
  exact hs.keyed_dropOpened keepUpTo k w hw

theorem Sound.mem_dropOpened (hs : db.Sound) (keepUpTo : ℤ) {row : Key} {v : Version (Record X)} :
    v ∈ rowVersions (db.dropOpened keepUpTo).versions row ↔
      v ∈ rowVersions db.versions row ∧ (v.lower : ℤ) ≤ keepUpTo := by
  rw [mem_rowVersions (hs.keyed_dropOpened keepUpTo), get_dropOpened, Option.filter_eq_some_iff,
    mem_rowVersions hs.keyed, decide_eq_true_eq]

/-- **The versions of a row are cut** at the height. -/
theorem Sound.rowVersions_revert (hs : db.Sound) (keepUpTo : ℤ) (row : Key) :
    rowVersions ((db.dropOpened keepUpTo).reopenClosed keepUpTo).versions row =
      cutAt keepUpTo (rowVersions db.versions row) := by
  have hkeyed := hs.keyed_revert keepUpTo
  refine Paging.Sorted.ext (byLower_rowVersions hkeyed row)
    (byLower_cutAt (byLower_rowVersions hs.keyed row) keepUpTo) fun v => ?_
  rw [mem_rowVersions hkeyed, get_reopenClosed, Option.map_eq_some_iff, mem_cutAt]
  refine exists_congr fun w => ?_
  rw [← and_assoc, ← hs.mem_dropOpened, mem_rowVersions (hs.keyed_dropOpened keepUpTo)]
  refine and_congr_left fun hw => ?_
  rw [← hw, Version.reopen_lower]

/-- The live record of a row once the rows above the fork are dropped. -/
theorem Sound.get_current_dropOpened (hs : db.Sound) (keepUpTo : ℤ) (row : Key) :
    (db.dropOpened keepUpTo).current.get row =
      open Classical in if ∃ v ∈ rowVersions db.versions row, keepUpTo < (v.lower : ℤ) then none
      else db.current.get row := by
  unfold dropOpened
  dsimp only
  rw [ObjectStore.get_deleteAll (fun e : ℕ × Key × Version (Record X) => rowOfVersionKey e.2.1)]
  have hmem : row ∈ ((db.versions.index fun version => some version.lower).filter fun e =>
      keepUpTo < (e.1 : ℤ)).map (fun e => rowOfVersionKey e.2.1) ↔
        ∃ v ∈ rowVersions db.versions row, keepUpTo < (v.lower : ℤ) := by
    simp only [List.mem_map, List.mem_filter, decide_eq_true_eq, Prod.exists, ObjectStore.mem_index,
      Option.some.injEq]
    constructor
    · rintro ⟨i, k', v, ⟨⟨hget, rfl⟩, hlt⟩, rfl⟩
      obtain ⟨row', -, hk⟩ := hs.keyed _ _ hget
      refine ⟨v, (mem_rowVersions hs.keyed).2 ?_, hlt⟩
      rw [hk, rowOfVersionKey_versionKey, ← hk]
      exact hget
    · rintro ⟨v, hv, hlt⟩
      exact ⟨v.lower, versionKey row v.lower, v, ⟨⟨(mem_rowVersions hs.keyed).1 hv, rfl⟩, hlt⟩,
        rowOfVersionKey_versionKey row v.lower⟩
  by_cases hopened : ∃ v ∈ rowVersions db.versions row, keepUpTo < (v.lower : ℤ)
  · rw [if_pos hopened]
    exact if_pos (hmem.2 hopened)
  · rw [if_neg hopened]
    exact if_neg fun hin => hopened (hmem.1 hin)

/-- **After a revert the two copies are in step again.** -/
theorem Sound.revert (hs : db.Sound) (keepUpTo : ℤ) :
    ((db.dropOpened keepUpTo).reopenClosed keepUpTo).Sound ∧
      db.SameBooks ((db.dropOpened keepUpTo).reopenClosed keepUpTo) := by
  refine ⟨⟨hs.keyed_revert keepUpTo, fun row => ?_, fun row => ?_⟩, rfl⟩
  · rw [hs.rowVersions_revert]
    exact (hs.chained row).cutAt keepUpTo
  rw [hs.rowVersions_revert, current_cutAt]
  have hc := hs.chained row
  have hstood : ∀ v ∈ rowVersions db.versions row, v.openAt keepUpTo = true →
      Versions.asOf keepUpTo (rowVersions db.versions row) = some v :=
    fun v hv hopen => (asOf_eq_some_iff hc).2 ⟨hv, hopen⟩
  have hget := ObjectStore.get_putAll (fun e : ℕ × Key × Version (Record X) => rowOfVersionKey e.2.1)
    (fun e => (⟨e.2.2.values, e.2.2.lower⟩ : CurrentRecord (Record X)))
    (((db.dropOpened keepUpTo).versions.index (·.upper)).filter fun e => keepUpTo < (e.1 : ℤ))
    (db.dropOpened keepUpTo).current row
  unfold reopenClosed
  dsimp only
  rw [hget]
  generalize hfind : List.find? _ _ = found
  cases found with
  | some e =>
    -- what is put back stood at the fork
    have hrow : rowOfVersionKey e.2.1 = row := by simpa using List.find?_some hfind
    obtain ⟨hindex, hlt⟩ := List.mem_filter.1 (List.mem_reverse.1 (List.mem_of_find?_eq_some hfind))
    obtain ⟨hgete, hupper⟩ := ObjectStore.mem_index.1 hindex
    obtain ⟨row', -, hk⟩ := hs.keyed_dropOpened keepUpTo _ _ hgete
    rw [hk, rowOfVersionKey_versionKey] at hrow
    rw [hk, hrow] at hgete
    obtain ⟨hmem, hle⟩ := (hs.mem_dropOpened keepUpTo).1
      ((mem_rowVersions (hs.keyed_dropOpened keepUpTo)).2 hgete)
    have hopen : e.2.2.openAt keepUpTo = true := by
      refine Version.openAt_iff.2 ⟨hle, fun x hx => ?_⟩
      rw [hupper, Option.some.injEq] at hx
      rw [← hx]
      simpa using hlt
    rw [hstood _ hmem hopen]
    have hreopen : e.2.2.reopen keepUpTo = ⟨e.2.2.values, e.2.2.lower, none⟩ := by
      unfold Version.reopen
      rw [hupper]
      exact if_pos (by simpa using hlt)
    rw [Option.map_some, Option.map_some, hreopen]
    rfl
  | none =>
    -- nothing is put back: what stood at the fork is live
    have hlive : ∀ v ∈ rowVersions db.versions row, v.openAt keepUpTo = true → v.upper = none := by
      intro v hv hopen
      obtain ⟨hle, hup⟩ := Version.openAt_iff.1 hopen
      cases hx : v.upper with
      | none => rfl
      | some x =>
        have hin := (mem_rowVersions (hs.keyed_dropOpened keepUpTo)).1 ((hs.mem_dropOpened keepUpTo).2 ⟨hv, hle⟩)
        have hmem : (x, versionKey row v.lower, v) ∈ (((db.dropOpened keepUpTo).versions.index (·.upper)).filter
            fun e => keepUpTo < (e.1 : ℤ)).reverse :=
          List.mem_reverse.2 (List.mem_filter.2 ⟨ObjectStore.mem_index.2 ⟨hin, hx⟩, by simpa using hup x hx⟩)
        exact absurd (List.find?_eq_none.1 hfind _ hmem) (by simp)
    rw [Option.map_none, Option.none_or, hs.get_current_dropOpened]
    by_cases hopened : ∃ v ∈ rowVersions db.versions row, keepUpTo < (v.lower : ℤ)
    · obtain ⟨u, hu, hlt⟩ := hopened
      rw [if_pos ⟨u, hu, hlt⟩]
      have hnone : Versions.asOf keepUpTo (rowVersions db.versions row) = none := by
        refine Option.eq_none_iff_forall_ne_some.2 fun v hv => ?_
        obtain ⟨hmem, hopen⟩ := (asOf_eq_some_iff hc).1 hv
        have hle := (Version.openAt_iff.1 hopen).1
        have hne : v ≠ u := by
          rintro rfl
          omega
        rcases hc.apart hmem hu hne with ⟨x, hx, hxle⟩ | ⟨x, hx, hxle⟩
        · rw [hlive v hmem hopen] at hx
          cases hx
        · have hux := hc.closed u hu x hx
          omega
      rw [hnone]
      rfl
    · rw [if_neg hopened, hs.live row]
      refine Option.ext fun w => ?_
      rw [Versions.current_eq_some_iff hc, Option.map_eq_some_iff]
      constructor
      · rintro ⟨hmem, hnone⟩
        have hle : (w.lower : ℤ) ≤ keepUpTo := by
          by_contra hlt
          exact hopened ⟨w, hmem, by omega⟩
        refine ⟨w, hstood w hmem (Version.openAt_iff.2 ⟨hle, fun x hx => ?_⟩), ?_⟩
        · rw [hnone] at hx
          cases hx
        · unfold Version.reopen
          rw [hnone]
          rfl
      · rintro ⟨v, hv, rfl⟩
        obtain ⟨hmem, hopen⟩ := (asOf_eq_some_iff hc).1 hv
        have hnone := hlive v hmem hopen
        have hsame : v.reopen keepUpTo = v := by
          unfold Version.reopen
          rw [hnone]
          rfl
        rw [hsame]
        exact ⟨hmem, hnone⟩

/-! ### The mutations of a block -/

/-- What the versions of a row become under a block's mutations. -/
def overwrites (number : ℕ) (row : Key) (ms : List (Mutation EntityKey (Record X)))
    (vs : List (Version (Record X))) : List (Version (Record X)) :=
  ms.foldl (fun vs m => if row = rowKey m.key then overwrite number m.values vs else vs) vs

theorem Sound.applyMutations (hs : db.Sound) {N : ℕ → Prop} (hN : N number) (hle : ∀ n, N n → n ≤ number)
    (hw : ∀ row, Within N (rowVersions db.versions row)) (ms : List (Mutation EntityKey (Record X))) :
    (ms.foldl (IndexedDB.applyMutation number) db).Sound ∧
      db.SameBooks (ms.foldl (IndexedDB.applyMutation number) db) ∧
      ∀ row, rowVersions (ms.foldl (IndexedDB.applyMutation number) db).versions row =
        overwrites number row ms (rowVersions db.versions row) := by
  induction ms generalizing db with
  | nil => exact ⟨hs, rfl, fun row => rfl⟩
  | cons m ms ih =>
    have hbelow : ∀ row, Within (· ≤ number) (rowVersions db.versions row) := fun row v hv =>
      ⟨hle _ (hw row v hv).1, fun x hx => hle _ ((hw row v hv).2 x hx)⟩
    obtain ⟨hsound, hbooks, hrows⟩ := hs.applyMutation hbelow m
    have hwithin : ∀ row, Within N (rowVersions (db.applyMutation number m).versions row) := by
      intro row
      rw [hrows]
      split
      · exact within_overwrite (hw row) hN m.values
      · exact hw row
    obtain ⟨hsound', hbooks', hrows'⟩ := ih hsound hwithin
    refine ⟨hsound', hbooks.trans hbooks', fun row => ?_⟩
    rw [List.foldl_cons, hrows', hrows]
    rfl

/-- A row no mutation names keeps its versions. -/
theorem overwrites_of_notMem {row : Key} {ms : List (Mutation EntityKey (Record X))}
    (h : ∀ m ∈ ms, row ≠ rowKey m.key) (vs : List (Version (Record X))) : overwrites number row ms vs = vs := by
  induction ms with
  | nil => rfl
  | cons m ms ih =>
    obtain ⟨hm, hms⟩ := List.forall_mem_cons.1 h
    unfold overwrites at ih ⊢
    rw [List.foldl_cons, if_neg hm]
    exact ih hms

/-- **A row is written as the reference store writes its key**, but for what never stood. -/
theorem overwrites_alike {key : EntityKey} (hkey : key.WellFormed) {N : ℕ → Prop} (hN : N number)
    (hle : ∀ n, N n → n ≤ number) {c : ℤ} {ms : List (Mutation EntityKey (Record X))}
    (hms : ∀ m ∈ ms, m.key.WellFormed) {vs us : List (Version (Record X))} (hvs : Chained vs) (hus : Chained us)
    (hwvs : Within N vs) (hwus : Within N us) (h : AlikeAbove c vs us) :
    Within N (overwrites number (rowKey key) ms vs) ∧
      AlikeAbove c (overwrites number (rowKey key) ms vs) (writes number key ms us) := by
  induction ms generalizing vs us with
  | nil => exact ⟨hwvs, h⟩
  | cons m ms ih =>
    obtain ⟨hm, hms⟩ := List.forall_mem_cons.1 hms
    unfold overwrites writes at ih ⊢
    rw [List.foldl_cons, List.foldl_cons]
    by_cases hsame : m.key = key
    · have hrow : rowKey key = rowKey m.key := by rw [hsame]
      have hbelow : ∀ {ws : List (Version (Record X))}, Within N ws → Within (· ≤ number) ws :=
        fun hws v hv => ⟨hle _ (hws v hv).1, fun x hx => hle _ ((hws v hv).2 x hx)⟩
      rw [if_pos hrow, if_pos hsame]
      -- overwritten here, written there, and alike either way
      have halike := (alike_overwrite hvs (hbelow hwvs) c m.values).trans (h.write hvs hus number m.values)
      exact ih hms (chained_overwrite hvs (hbelow hwvs) m.values) (hus.write (hbelow hwus) m.values)
        (within_overwrite hwvs hN m.values) (hwus.write hN m.values) halike
    · have hrow : rowKey key ≠ rowKey m.key := fun heq => hsame (rowKey_inj hkey hm heq).symm
      rw [if_neg hrow, if_neg hsame]
      exact ih hms hvs hus hwvs hwus h

/-! ### Pruning -/

/-- The closed versions at or below a floor, the oldest first. -/
def prunable (db : IndexedDB X H C) (floor : ℕ) : List (ℕ × Key × Version (Record X)) :=
  (db.versions.index (·.upper)).filter (·.1 ≤ floor)

/-- A prune deletes from the front of what it may delete, all of it or as far as the budget goes. -/
theorem pruneVersions_eq (db : IndexedDB X H C) (floor : ℕ) (maxVersions : Option ℕ) :
    ∃ n, (db.pruneVersions floor maxVersions).1 = { db with
        versions := ((db.prunable floor).take n).foldl (fun versions e => versions.delete e.2.1) db.versions } ∧
      ((db.prunable floor).length ≤ n ∨ ∃ budget ∈ maxVersions, budget ≤ n) := by
  have hwalk : ∀ (l : List (ℕ × Key × Version (Record X))) (versions : ObjectStore Key (Version (Record X)))
      (deleted : ℕ), ∃ n, (ObjectStore.walk (fun state e =>
          ((state.1.delete e.2.1, state.2 + 1), maxVersions.any (· ≤ state.2 + 1))) l (versions, deleted)).1 =
        (l.take n).foldl (fun versions e => versions.delete e.2.1) versions ∧
      (l.length ≤ n ∨ ∃ budget ∈ maxVersions, budget ≤ deleted + n) := by
    intro l
    induction l with
    | nil => exact fun versions deleted => ⟨0, rfl, .inl le_rfl⟩
    | cons e l ih =>
      intro versions deleted
      unfold ObjectStore.walk
      dsimp only
      cases hstop : maxVersions.any (· ≤ deleted + 1) with
      | true =>
        obtain ⟨budget, hbudget, hle⟩ := (Option.any_eq_true _ _).1 hstop
        exact ⟨1, rfl, .inr ⟨budget, hbudget, by simpa using hle⟩⟩
      | false =>
        obtain ⟨n, heq, hor⟩ := ih (versions.delete e.2.1) (deleted + 1)
        refine ⟨n + 1, heq, hor.imp (fun hle => by simpa using hle) ?_⟩
        rintro ⟨budget, hbudget, hle⟩
        exact ⟨budget, hbudget, by omega⟩
  obtain ⟨n, heq, hor⟩ := hwalk (db.prunable floor) db.versions 0
  simp only [Nat.zero_add] at hor
  refine ⟨n, ?_, hor⟩
  unfold pruneVersions
  rw [← heq]
  rfl

/-- **A prune deletes closed versions only**, at or below the floor, and all of them when the
budget covers them. -/
theorem Sound.pruneVersions (hs : db.Sound) (floor : ℕ) (maxVersions : Option ℕ) :
    (db.pruneVersions floor maxVersions).1.Sound ∧ db.SameBooks (db.pruneVersions floor maxVersions).1 ∧
      (∀ row, Thinned (· ≤ floor) (rowVersions (db.pruneVersions floor maxVersions).1.versions row)
        (rowVersions db.versions row)) ∧
      (maxVersions.all ((db.prunable floor).length ≤ ·) = true →
        ∀ row, ∀ v ∈ rowVersions (db.pruneVersions floor maxVersions).1.versions row,
          ∀ x, v.upper = some x → floor < x) := by
  obtain ⟨n, heq, hor⟩ := db.pruneVersions_eq floor maxVersions
  have hdelete := ObjectStore.get_deleteAll (fun e : ℕ × Key × Version (Record X) => e.2.1)
    ((db.prunable floor).take n) db.versions
  rw [heq]
  set versions := ((db.prunable floor).take n).foldl (fun versions e => versions.delete e.2.1) db.versions with hdef
  -- what is gone was closed at or below the floor
  have hgone : ∀ k v, db.versions.get k = some v → versions.get k = some v ∨
      (versions.get k = none ∧ ∃ x, v.upper = some x ∧ x ≤ floor) := by
    intro k v hget
    by_cases hin : k ∈ ((db.prunable floor).take n).map fun e => e.2.1
    · obtain ⟨e, he, hk⟩ := List.mem_map.1 hin
      obtain ⟨hindex, hle⟩ := List.mem_filter.1 (List.mem_of_mem_take he)
      obtain ⟨hgete, hupper⟩ := ObjectStore.mem_index.1 hindex
      rw [hk, hget, Option.some.injEq] at hgete
      exact .inr ⟨(hdelete k).trans (if_pos hin), e.1, hgete ▸ hupper, by simpa using hle⟩
    · exact .inl (((hdelete k).trans (if_neg hin)).trans hget)
  have hkept : ∀ k v, versions.get k = some v → db.versions.get k = some v := by
    intro k v hget
    have hboth := hdelete k
    rw [hget] at hboth
    split at hboth
    · cases hboth
    · exact hboth.symm
  have hkeyed : Keyed versions := fun k v hget => hs.keyed k v (hkept k v hget)
  have hthin : ∀ row, Thinned (· ≤ floor) (rowVersions versions row) (rowVersions db.versions row) := by
    intro row
    refine ⟨Paging.Sorted.sublist_of_subset (byLower_rowVersions hkeyed row) (byLower_rowVersions hs.keyed row)
      fun v hv => ?_, fun v hv hmiss => ?_⟩
    · exact (mem_rowVersions hs.keyed).2 (hkept _ _ ((mem_rowVersions hkeyed).1 hv))
    · rcases hgone _ _ ((mem_rowVersions hs.keyed).1 hv) with hin | ⟨-, hclosed⟩
      · exact absurd ((mem_rowVersions hkeyed).2 hin) hmiss
      · exact hclosed
  refine ⟨⟨hkeyed, fun row => (hs.chained row).sublist (hthin row).sublist, fun row => ?_⟩, rfl, hthin,
    fun hall row v hv x hx => ?_⟩
  · have hchained := (hs.chained row).sublist (hthin row).sublist
    rw [hs.live row]
    refine Option.ext fun v => ?_
    rw [Versions.current_eq_some_iff (hs.chained row), Versions.current_eq_some_iff hchained]
    refine and_congr_left fun hlive => ⟨fun hv => ?_, fun hv => (hthin row).sublist.subset hv⟩
    by_contra hmiss
    obtain ⟨x, hx, -⟩ := (hthin row).missing v hv hmiss
    rw [hlive] at hx
    cases hx
  · by_contra hle
    have hget := (mem_rowVersions hkeyed).1 hv
    have hmem : (x, versionKey row v.lower, v) ∈ db.prunable floor :=
      List.mem_filter.2 ⟨ObjectStore.mem_index.2 ⟨hkept _ _ hget, hx⟩, by simpa using hle⟩
    have hlong : (db.prunable floor).length ≤ n := by
      rcases hor with hlong | ⟨budget, hbudget, hle'⟩
      · exact hlong
      · rw [Option.mem_def] at hbudget
        rw [hbudget, Option.all_some, decide_eq_true_eq] at hall
        omega
    have hin : versionKey row (v.lower : ℤ) ∈ ((db.prunable floor).take n).map fun e => e.2.1 := by
      rw [List.take_of_length_le hlong]
      exact List.mem_map_of_mem hmem
    rw [(hdelete _).trans (if_pos hin)] at hget
    cases hget

end IndexedDB

end Etherfold
