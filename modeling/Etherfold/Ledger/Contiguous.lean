import Mathlib.Data.List.Destutter
import Mathlib.Data.List.Sort
import Mathlib.Tactic

/-!
# Lists whose equal values stand together

Dropping a value that repeats the one before it removes every repetition
exactly when the equal values of the list stand together, and a stable sort
keeps the order of what it does not tell apart.

* `nodup_destutter_iff`: **dropping neighbours leaves no repetition** exactly
  when nothing stands between two equal values.
* `filter_insertionSort`: a stable sort keeps every class in the order it had.
* `filter_sort`: sorting what is kept is keeping what was sorted.
* `exists_block`: **what nothing comes between is a block of a sorted list**.
-/

namespace Etherfold

variable {α : Type*} [DecidableEq α]

/-- Nothing but `x` stands between two occurrences of `x`. -/
def Contiguous (l : List α) : Prop := ∀ x y, [x, y, x].Sublist l → x = y

theorem mem_destutter'_ne {a x : α} {l : List α} : x ∈ l.destutter' (· ≠ ·) a ↔ x = a ∨ x ∈ l := by
  induction l generalizing a with
  | nil => simp
  | cons b l ih =>
    rw [List.destutter'_cons]
    split
    · simp only [List.mem_cons, ih]
    · rename_i hab
      have hb : a = b := not_not.1 hab
      rw [ih, List.mem_cons, hb]
      tauto

theorem mem_destutter_ne {x : α} {l : List α} : x ∈ l.destutter (· ≠ ·) ↔ x ∈ l := by
  cases l with
  | nil => simp
  | cons a l => rw [List.destutter_cons', mem_destutter'_ne, List.mem_cons]

theorem nodup_destutter'_iff {a : α} {l : List α} :
    (l.destutter' (· ≠ ·) a).Nodup ↔ Contiguous (a :: l) := by
  induction l generalizing a with
  | nil =>
    refine iff_of_true (by simp) fun x y h => ?_
    have hlen := h.length_le
    simp at hlen
  | cons b l ih =>
    rw [List.destutter'_cons]
    split
    · rename_i hab
      rw [List.nodup_cons, ih, mem_destutter'_ne]
      constructor
      · rintro ⟨hmem, hl⟩ x y h
        rcases List.sublist_cons_iff.1 h with h | ⟨r, hr, h⟩
        · exact hl x y h
        · -- `a` starts the three, and cannot end them: it does not occur again
          injection hr with hx hr
          subst hx hr
          have hx : x ∈ b :: l := h.subset (by simp)
          exact absurd (List.mem_cons.1 hx) hmem
      · refine fun h => ⟨fun hmem => ?_, fun x y hs => h x y (hs.cons a)⟩
        rcases hmem with rfl | hmem
        · exact hab rfl
        · exact hab (h a b (((List.singleton_sublist.2 hmem).cons_cons b).cons_cons a))
    · rename_i hab
      obtain rfl : a = b := not_not.1 hab
      rw [ih]
      refine ⟨fun h x y hs => ?_, fun h x y hs => h x y (hs.cons a)⟩
      rcases List.sublist_cons_iff.1 hs with hs | ⟨r, hr, hs⟩
      · exact h x y hs
      · injection hr with hx hr
        subst hx hr
        rcases List.sublist_cons_iff.1 hs with hs | ⟨r, hr, -⟩
        · exact h x y (hs.cons_cons x)
        · injection hr with hy
          exact hy.symm

/-- **Dropping neighbours leaves no repetition** exactly when equal values stand together. -/
theorem nodup_destutter_iff {l : List α} : (l.destutter (· ≠ ·)).Nodup ↔ Contiguous l := by
  cases l with
  | nil => exact iff_of_true (by simp) fun x y h => by simpa using h.length_le
  | cons a l => rw [List.destutter_cons', nodup_destutter'_iff]

omit [DecidableEq α] in
/-- A stable sort keeps every class of what it does not tell apart in the order it had. -/
theorem filter_insertionSort {r : α → α → Prop} [DecidableRel r] [Std.Total r] [IsTrans α r]
    {p : α → Bool} (hp : ∀ x y, p x → p y → r x y) (l : List α) :
    (l.insertionSort r).filter p = l.filter p := by
  have hclass : (l.filter p).Pairwise r :=
    List.pairwise_of_forall_mem_list fun x hx y hy => hp x y (List.of_mem_filter hx) (List.of_mem_filter hy)
  have hsub := (List.sublist_insertionSort hclass List.filter_sublist).filter p
  simp only [List.filter_filter, Bool.and_self] at hsub
  exact (hsub.eq_of_length (((List.perm_insertionSort r l).filter p).length_eq.symm)).symm

section Block

variable {r : α → α → Prop} {p : α → Bool} {l : List α}

omit [DecidableEq α] in
theorem filter_orderedInsert [DecidableRel r] [IsTrans α r] (a : α) (hl : l.Pairwise r) :
    (l.orderedInsert r a).filter p = if p a then (l.filter p).orderedInsert r a else l.filter p := by
  induction l with
  | nil => cases hp : p a <;> simp [hp]
  | cons b l ih =>
    rw [List.pairwise_cons] at hl
    rw [List.orderedInsert_cons]
    split
    · rename_i hab
      rw [List.filter_cons]
      split
      · -- what is kept of a sorted list starts no lower
        rename_i hp
        cases hkept : (b :: l).filter p with
        | nil => rfl
        | cons c rest =>
          have hc : c ∈ b :: l := List.mem_of_mem_filter (hkept ▸ List.mem_cons_self)
          have hac : r a c := by
            rcases List.mem_cons.1 hc with rfl | hc
            · exact hab
            · exact IsTrans.trans _ _ _ hab (hl.1 c hc)
          rw [List.orderedInsert_cons, if_pos hac]
      · rfl
    · rename_i hab
      rw [List.filter_cons, ih hl.2]
      by_cases hpb : p b = true
      · by_cases hpa : p a = true
        · simp [hpa, hpb, List.orderedInsert_cons, hab]
        · simp [hpa, hpb]
      · by_cases hpa : p a = true
        · simp [hpa, hpb]
        · simp [hpa, hpb]

omit [DecidableEq α] in
/-- Sorting what is kept is keeping what was sorted. -/
theorem filter_sort [DecidableRel r] [Std.Total r] [IsTrans α r] (l : List α) :
    (l.insertionSort r).filter p = (l.filter p).insertionSort r := by
  induction l with
  | nil => rfl
  | cons a l ih =>
    rw [List.insertionSort_cons, filter_orderedInsert a (List.pairwise_insertionSort r l), ih, List.filter_cons]
    split <;> rfl

omit [DecidableEq α] in
/-- **What nothing comes between is a block of a sorted list.** -/
theorem exists_block (hl : l.Pairwise r) (hp : ∀ a b c, r a b → r b c → p a = true → p c = true → p b = true) :
    ∃ before behind, l = before ++ l.filter p ++ behind ∧ (∀ a ∈ before, p a = false) ∧ ∀ a ∈ behind, p a = false := by
  have hstart : ∀ l : List α, l.Pairwise r → (∀ x ∈ l.head?, p x = true) →
      ∃ behind, l = l.filter p ++ behind ∧ ∀ a ∈ behind, p a = false := by
    intro l hl hhead
    induction l with
    | nil => exact ⟨[], rfl, by simp⟩
    | cons x l ih =>
      have hx : p x = true := hhead x rfl
      rw [List.pairwise_cons] at hl
      cases l with
      | nil => exact ⟨[], by simp [hx], by simp⟩
      | cons y l =>
        by_cases hy : p y = true
        · obtain ⟨behind, hbehind, hnone⟩ := ih hl.2 (by simpa using hy)
          refine ⟨behind, ?_, hnone⟩
          rw [List.filter_cons_of_pos hx, List.cons_append, ← hbehind]
        · -- the block ends here: one further on would come after what it does not hold
          have hnone : ∀ a ∈ y :: l, p a = false := by
            intro a ha
            rcases List.mem_cons.1 ha with rfl | ha
            · simpa using hy
            · by_contra hpa
              exact hy (hp x y a (hl.1 y List.mem_cons_self) ((List.pairwise_cons.1 hl.2).1 a ha) hx (by simpa using hpa))
          refine ⟨y :: l, ?_, hnone⟩
          rw [List.filter_cons_of_pos hx, List.filter_eq_nil_iff.2 (by simpa using hnone)]
          rfl
  induction l with
  | nil => exact ⟨[], [], rfl, by simp, by simp⟩
  | cons x l ih =>
    by_cases hx : p x = true
    · obtain ⟨behind, hbehind, hnone⟩ := hstart (x :: l) hl (by simpa using hx)
      exact ⟨[], behind, hbehind, by simp, hnone⟩
    · obtain ⟨before, behind, hsplit, hbefore, hbehind⟩ := ih (List.pairwise_cons.1 hl).2
      refine ⟨x :: before, behind, ?_, ?_, hbehind⟩
      · rw [List.filter_cons_of_neg hx, List.cons_append, List.cons_append, ← hsplit]
      · intro a ha
        rcases List.mem_cons.1 ha with rfl | ha
        · simpa using hx
        · exact hbefore a ha

end Block

end Etherfold
