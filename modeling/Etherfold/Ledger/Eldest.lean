import Mathlib.Data.List.Sort

/-!
# The eldest of a list

The first of a list once it is sorted, over any total and transitive order. Of members that sort
alike it is the one that stands first.

* `eldest_append`: what joins at the end becomes the eldest only where it sorts before the eldest.
* `eldest_append_of_mem`: what is there already changes nothing.
* `eldest_filter`: **the eldest stays the eldest of any part that keeps it**.
-/

namespace Eldest

variable {α β : Type*} (r : α → α → Prop) [DecidableRel r]

/-- The first of the sorted list. -/
def eldest (l : List α) : Option α := (l.insertionSort r).head?

variable {r} {l : List α} {a b : α}

@[simp] theorem eldest_nil : eldest r [] = none := rfl

theorem eldest_cons (a : α) (l : List α) :
    eldest r (a :: l) = some (match eldest r l with
      | none => a
      | some b => if r a b then a else b) := by
  unfold eldest
  rw [List.insertionSort_cons]
  cases l.insertionSort r with
  | nil => rfl
  | cons b rest =>
    rw [List.orderedInsert_cons]
    by_cases hab : r a b <;> simp [hab]

theorem eldest_eq_none : eldest r l = none ↔ l = [] := by
  cases l with
  | nil => simp
  | cons a l => simp [eldest_cons]

theorem eldest_mem (h : eldest r l = some a) : a ∈ l :=
  (List.mem_insertionSort r).1 (List.mem_of_mem_head? h)

theorem exists_eldest (h : a ∈ l) : ∃ first, eldest r l = some first := by
  rw [← Option.ne_none_iff_exists', Ne, eldest_eq_none]
  exact List.ne_nil_of_mem h

theorem eldest_map {s : β → β → Prop} [DecidableRel s] (f : α → β) (h : ∀ a ∈ l, ∀ b ∈ l, r a b ↔ s (f a) (f b)) :
    eldest s (l.map f) = (eldest r l).map f := by
  unfold eldest
  rw [← List.map_insertionSort r s f l h, List.head?_map]

variable [Std.Total r] [IsTrans α r]

/-- Nothing sorts before the eldest. -/
theorem eldest_le (h : eldest r l = some a) : ∀ b ∈ l, r a b := by
  have hsorted := List.pairwise_insertionSort r l
  unfold eldest at h
  intro b hb
  cases hcase : l.insertionSort r with
  | nil =>
    rw [hcase] at h
    cases h
  | cons c rest =>
    rw [hcase] at h hsorted
    cases h
    rw [← List.mem_insertionSort r, hcase] at hb
    rcases List.mem_cons.1 hb with rfl | hb
    · exact refl_of r b
    · exact List.rel_of_pairwise_cons hsorted hb

/-- What joins at the end is the eldest where it sorts before the eldest that was. -/
theorem eldest_append (l : List α) (a : α) :
    eldest r (l ++ [a]) = some (match eldest r l with
      | none => a
      | some b => if r b a then b else a) := by
  induction l with
  | nil => simp [eldest_cons]
  | cons c l ih =>
    rw [List.cons_append, eldest_cons, ih, eldest_cons]
    cases hl : eldest r l with
    | none => rfl
    | some b =>
      dsimp only
      by_cases hba : r b a
      · rw [if_pos hba]
        by_cases hcb : r c b
        · rw [if_pos hcb, if_pos (trans_of r hcb hba)]
        · rw [if_neg hcb, if_pos hba]
      · rw [if_neg hba]
        by_cases hcb : r c b
        · rw [if_pos hcb]
        · -- what joins sorts before `b`, which sorts before `c`
          have hab : r a b := (total_of r b a).resolve_left hba
          have hca : ¬r c a := fun hca => hcb (trans_of r hca hab)
          rw [if_neg hcb, if_neg hca, if_neg hba]

theorem eldest_append_of_mem (h : a ∈ l) : eldest r (l ++ [a]) = eldest r l := by
  obtain ⟨first, hfirst⟩ := exists_eldest (r := r) h
  rw [eldest_append, hfirst]
  exact congrArg some (if_pos (eldest_le hfirst a h))

/-- **The eldest stays the eldest of any part that keeps it.** -/
theorem eldest_filter {p : α → Bool} (h : eldest r l = some a) (hp : p a = true) : eldest r (l.filter p) = some a := by
  induction l with
  | nil => cases h
  | cons c l ih =>
    rw [eldest_cons] at h
    cases hl : eldest r l with
    | none =>
      rw [hl] at h
      rw [eldest_eq_none] at hl
      cases h
      simp [hl, hp, eldest_cons]
    | some b =>
      rw [hl] at h
      dsimp only at h
      by_cases hcb : r c b
      · rw [if_pos hcb] at h
        cases h
        rw [List.filter_cons_of_pos hp, eldest_cons]
        cases hrest : eldest r (l.filter p) with
        | none => rfl
        | some d =>
          -- the first that is left is no earlier than `b`
          have hbd := eldest_le hl d (List.mem_of_mem_filter (eldest_mem hrest))
          exact congrArg some (if_pos (trans_of r hcb hbd))
      · rw [if_neg hcb] at h
        cases h
        have hrest := ih hl
        by_cases hpc : p c = true
        · rw [List.filter_cons_of_pos hpc, eldest_cons, hrest]
          exact congrArg some (if_neg hcb)
        · rw [List.filter_cons_of_neg hpc]
          exact hrest

end Eldest
