import Mathlib.Tactic

/-!
# Rows under a primary key

A table holds one row under a key. A row is inserted beside the others, or what is under its key
already becomes something else; rows are deleted by what they satisfy.

* `get_upsert`: what an insert does to one key.
* `putAll`: a table or a record filled row by row, and what is found in it.
* `select_upsert`, `select_delete`: **what a write does to the rows of a group of keys**.
-/

/-- Rows with distinct keys, in the order they were inserted in. -/
structure Keyed (κ ν : Type*) where
  rows : List (κ × ν)
  distinct : (rows.map Prod.fst).Nodup

namespace Keyed

variable {κ ν : Type*} [DecidableEq κ]

def empty : Keyed κ ν := ⟨[], List.nodup_nil⟩

/-- The row under a key. -/
def get (t : Keyed κ ν) (k : κ) : Option ν := (t.rows.find? (·.1 = k)).map (·.2)

/-- The rows whose key satisfies `p`. -/
def select (t : Keyed κ ν) (p : κ → Bool) : List (κ × ν) := t.rows.filter (p ·.1)

/-- Delete the rows whose key satisfies `p`. -/
def delete (t : Keyed κ ν) (p : κ → Bool) : Keyed κ ν where
  rows := t.rows.filter (!p ·.1)
  distinct := t.distinct.sublist (List.filter_sublist.map _)

/-- A row beside the others, or `merge` of the one under its key. -/
def insertRow (rows : List (κ × ν)) (k : κ) (v : ν) (merge : ν → ν) : List (κ × ν) :=
  if rows.any (·.1 = k) then rows.map fun e => if e.1 = k then (e.1, merge e.2) else e else rows ++ [(k, v)]

variable {t : Keyed κ ν} {k k' : κ} {v : ν} {merge : ν → ν} {p : κ → Bool}

theorem any_key {rows : List (κ × ν)} : rows.any (·.1 = k) = true ↔ k ∈ rows.map Prod.fst := by
  simp only [List.any_eq_true, List.mem_map, decide_eq_true_eq]

theorem keys_insertRow (rows : List (κ × ν)) (k : κ) (v : ν) (merge : ν → ν) :
    (insertRow rows k v merge).map Prod.fst =
      if k ∈ rows.map Prod.fst then rows.map Prod.fst else rows.map Prod.fst ++ [k] := by
  unfold insertRow
  by_cases hany : rows.any (·.1 = k) = true
  · rw [if_pos hany, if_pos (any_key.1 hany), List.map_map]
    apply List.map_congr_left
    intro e _
    by_cases he : e.1 = k <;> simp [he]
  · rw [if_neg hany, if_neg fun h => hany (any_key.2 h), List.map_append, List.map_singleton]

/-- Insert a row, or merge it into the one under its key. -/
def upsert (t : Keyed κ ν) (k : κ) (v : ν) (merge : ν → ν) : Keyed κ ν where
  rows := insertRow t.rows k v merge
  distinct := by
    rw [keys_insertRow]
    by_cases hk : k ∈ t.rows.map Prod.fst
    · rw [if_pos hk]
      exact t.distinct
    · rw [if_neg hk]
      apply List.Nodup.append t.distinct (List.nodup_singleton k)
      intro a ha ha'
      rw [List.mem_singleton] at ha'
      exact hk (ha' ▸ ha)

/-! ### One key -/

theorem get_none : t.get k = none ↔ k ∉ t.rows.map Prod.fst := by
  unfold get
  rw [Option.map_eq_none_iff, List.find?_eq_none, List.mem_map]
  constructor
  · intro h hk
    obtain ⟨e, he, heq⟩ := hk
    exact h e he (by simpa using heq)
  · intro h e he heq
    exact h ⟨e, he, by simpa using heq⟩

theorem find_insertRow (rows : List (κ × ν)) (k k' : κ) (v : ν) (merge : ν → ν) :
    ((insertRow rows k v merge).find? (·.1 = k')).map (·.2) =
      if k' = k then some (((rows.find? (·.1 = k)).map fun e => merge e.2).getD v)
      else (rows.find? (·.1 = k')).map (·.2) := by
  unfold insertRow
  by_cases hany : rows.any (·.1 = k) = true
  · rw [if_pos hany, List.find?_map]
    have hkeys : ((fun e : κ × ν => decide (e.1 = k')) ∘ fun e => if e.1 = k then (e.1, merge e.2) else e) =
        fun e => decide (e.1 = k') := by
      funext e
      by_cases he : e.1 = k <;> simp [he]
    rw [hkeys, Option.map_map]
    by_cases hk : k' = k
    · rw [if_pos hk, hk]
      have hsome : (rows.find? (·.1 = k)).isSome = true := by
        rw [List.find?_isSome]
        simpa using hany
      obtain ⟨e, he⟩ := Option.isSome_iff_exists.1 hsome
      have hek : e.1 = k := by simpa using List.find?_some he
      rw [he]
      simp [hek]
    · rw [if_neg hk]
      cases hfind : rows.find? (·.1 = k') with
      | none => rfl
      | some e =>
        have hek : e.1 = k' := by simpa using List.find?_some hfind
        simp [hek, hk]
  · rw [if_neg hany, List.find?_append]
    have hnone : rows.find? (·.1 = k) = none := by
      rw [List.find?_eq_none]
      intro e he heq
      exact hany (List.any_eq_true.2 ⟨e, he, heq⟩)
    by_cases hk : k' = k
    · rw [if_pos hk, hk, hnone]
      simp
    · have hlast : [(k, v)].find? (·.1 = k') = none := by simp [Ne.symm hk]
      rw [if_neg hk, hlast, Option.or_none]

/-- **A row inserted**, or merged, and the others as they were. -/
theorem get_upsert (t : Keyed κ ν) (k k' : κ) (v : ν) (merge : ν → ν) :
    (t.upsert k v merge).get k' = if k' = k then some (((t.get k).map merge).getD v) else t.get k' := by
  show ((insertRow t.rows k v merge).find? (·.1 = k')).map (·.2) = _
  rw [find_insertRow]
  unfold get
  rw [Option.map_map]
  rfl

/-- Rows put one after another: under a key, the last one put. -/
def putAll (t : Keyed κ ν) (es : List (κ × ν)) : Keyed κ ν := es.foldl (fun t e => t.upsert e.1 e.2 fun _ => e.2) t

/-- A row put over whatever is under its key. -/
theorem get_put (t : Keyed κ ν) (k k' : κ) (v : ν) :
    (t.upsert k v fun _ => v).get k' = if k' = k then some v else t.get k' := by
  rw [get_upsert]
  cases t.get k <;> rfl

/-- What is found was there or was put. -/
theorem get_putAll_some {es : List (κ × ν)} (h : (t.putAll es).get k = some v) : t.get k = some v ∨ (k, v) ∈ es := by
  induction es generalizing t with
  | nil => exact Or.inl h
  | cons e es ih =>
    rcases ih h with hput | hmem
    · rw [get_put] at hput
      split at hput
      · rename_i hk
        simp only [Option.some.injEq] at hput
        exact Or.inr (by simp [hk, ← hput])
      · exact Or.inl hput
    · exact Or.inr (List.mem_cons_of_mem e hmem)

/-- What was put is found, or another row put under its key. -/
theorem get_putAll_isSome {es : List (κ × ν)} (h : (t.get k).isSome = true ∨ k ∈ es.map Prod.fst) :
    ((t.putAll es).get k).isSome = true := by
  induction es generalizing t with
  | nil => simpa [putAll] using h
  | cons e es ih =>
    apply ih
    rw [get_put]
    by_cases hk : k = e.1
    · left
      simp [hk]
    · rw [if_neg hk]
      simpa [hk] using h

/-- A row that stays what it is where there is one changes nothing there. -/
theorem upsert_of_idle (h : ∀ w, t.get k = some w → merge w = w) (hk : t.get k ≠ none) : t.upsert k v merge = t := by
  have hmem : k ∈ t.rows.map Prod.fst := by
    by_contra hnot
    exact hk (get_none.2 hnot)
  have hrows : insertRow t.rows k v merge = t.rows := by
    unfold insertRow
    rw [if_pos (any_key.2 hmem)]
    conv_rhs => rw [← List.map_id t.rows]
    apply List.map_congr_left
    intro e he
    by_cases hek : e.1 = k
    · -- a key has one row
      have hget : t.get k = some e.2 := by
        unfold get
        have hfind : (t.rows.find? (·.1 = k)).isSome = true := by
          rw [List.find?_isSome]
          exact ⟨e, he, by simpa using hek⟩
        obtain ⟨e', he'⟩ := Option.isSome_iff_exists.1 hfind
        have hek' : e'.1 = k := by simpa using List.find?_some he'
        have hsame := List.inj_on_of_nodup_map t.distinct (List.mem_of_find?_eq_some he') he (hek'.trans hek.symm)
        rw [he', hsame]
        rfl
      rw [if_pos hek, h _ hget]
      rfl
    · rw [if_neg hek]
      rfl
  cases t
  unfold upsert
  congr 1

omit [DecidableEq κ] in
/-- Deleting nothing. -/
theorem delete_of_not (t : Keyed κ ν) (h : ∀ k, p k = false) : t.delete p = t := by
  have hrows : t.rows.filter (!p ·.1) = t.rows := by
    rw [List.filter_eq_self]
    intro e _
    simp [h e.1]
  cases t
  unfold delete
  congr 1

/-! ### A group of keys -/

omit [DecidableEq κ] in
theorem select_delete (t : Keyed κ ν) (p q : κ → Bool) :
    (t.delete q).select p = (t.select p).filter (!q ·.1) := by
  unfold select delete
  rw [List.filter_filter, List.filter_filter]
  apply List.filter_congr
  intro e _
  exact Bool.and_comm _ _

/-- **A row outside a group of keys leaves the group as it was.** -/
theorem select_upsert_of_not (hk : p k = false) : (t.upsert k v merge).select p = t.select p := by
  show (insertRow t.rows k v merge).filter (p ·.1) = t.rows.filter (p ·.1)
  unfold insertRow
  split
  · rw [List.filter_map]
    have hkeys : ((fun e : κ × ν => p e.1) ∘ fun e => if e.1 = k then (e.1, merge e.2) else e) = fun e => p e.1 := by
      funext e
      by_cases he : e.1 = k <;> simp [he]
    rw [hkeys]
    conv_rhs => rw [← List.map_id (t.rows.filter fun e => p e.1)]
    apply List.map_congr_left
    intro e he
    have hne : e.1 ≠ k := by
      intro heq
      have := (List.mem_filter.1 he).2
      rw [heq, hk] at this
      cases this
    rw [if_neg hne]
    rfl
  · rw [List.filter_append]
    simp [hk]

/-- **A row of a group is inserted among the rows of the group.** -/
theorem select_upsert (hk : p k = true) : (t.upsert k v merge).select p = insertRow (t.select p) k v merge := by
  show (insertRow t.rows k v merge).filter (p ·.1) = insertRow (t.rows.filter (p ·.1)) k v merge
  have hany : (t.rows.filter (p ·.1)).any (·.1 = k) = t.rows.any (·.1 = k) := by
    rw [List.any_filter]
    congr 1
    funext e
    by_cases he : e.1 = k <;> simp [he, hk]
  unfold insertRow
  rw [hany]
  split
  · rw [List.filter_map]
    congr 2
    funext e
    by_cases he : e.1 = k <;> simp [he]
  · rw [List.filter_append]
    simp [hk]

end Keyed
