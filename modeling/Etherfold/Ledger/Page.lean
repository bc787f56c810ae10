import Mathlib.Data.List.Sort
import Mathlib.Tactic

/-!
# Reading a sorted collection page by page

A reader holds every item of a collection up to a key, and appends the next few items
after it, in order, below some gate.

* `Sorted.ext`: a sorted list is determined by its items.
* `mem_take_iff`: the first items of a sorted list are those up to the last of them.
* `Upto.append_page`: **the reader again holds every item up to the key it ends on**.
-/

namespace Paging

variable {α κ : Type*} [LinearOrder κ] {key : α → κ}

/-- Strictly ascending by key. -/
abbrev Sorted (key : α → κ) (l : List α) : Prop := l.Pairwise fun x y => key x < key y

theorem Sorted.ext {l l' : List α} (h : Sorted key l) (h' : Sorted key l') (hm : ∀ x, x ∈ l ↔ x ∈ l') :
    l = l' := by
  have hir : Std.Irrefl fun x y : α => key x < key y := ⟨fun x => lt_irrefl (key x)⟩
  have has : Std.Antisymm fun x y : α => key x < key y := ⟨fun x y hxy hyx => absurd hxy hyx.asymm⟩
  exact h.eq_of_mem_iff h' fun {x} => hm x

/-- Of two sorted lists the one that holds less is a part of the other. -/
theorem Sorted.sublist_of_subset {l l' : List α} (h : Sorted key l) (h' : Sorted key l') (hsub : l ⊆ l') :
    l.Sublist l' := by
  classical
  have heq : l = l'.filter (· ∈ l) := h.ext (h'.filter _) fun x => by
    rw [List.mem_filter, decide_eq_true_eq]
    exact ⟨fun hx => ⟨hsub hx, hx⟩, fun hx => hx.2⟩
  rw [heq]
  exact List.filter_sublist

theorem sorted_insertionSort {l : List α} (h : l.Pairwise fun x y => key x ≠ key y) :
    Sorted key (l.insertionSort fun x y => key x ≤ key y) := by
  have : Std.Total fun x y : α => key x ≤ key y := ⟨fun x y => le_total _ _⟩
  have : IsTrans α fun x y => key x ≤ key y := ⟨fun _ _ _ => le_trans⟩
  have hle := List.pairwise_insertionSort (fun x y : α => key x ≤ key y) l
  have hperm := List.perm_insertionSort (fun x y : α => key x ≤ key y) l
  have hne := (hperm.pairwise_iff fun h => Ne.symm h).2 h
  exact (hle.and hne).imp fun ⟨h1, h2⟩ => lt_of_le_of_ne h1 h2

/-- The first items of a sorted list are those up to the last of them. -/
theorem mem_take_iff {l : List α} (h : Sorted key l) {n : ℕ} {z : α} (hz : (l.take n).getLast? = some z)
    {x : α} : x ∈ l.take n ↔ x ∈ l ∧ key x ≤ key z := by
  have hcut := List.take_append_drop n l
  obtain ⟨init, hinit⟩ := List.getLast?_eq_some_iff.1 hz
  unfold Sorted at h
  rw [← hcut, List.pairwise_append] at h
  obtain ⟨htake, -, hcross⟩ := h
  have hzmem : z ∈ l.take n := by rw [hinit]; simp
  constructor
  · intro hx
    refine ⟨List.mem_of_mem_take hx, ?_⟩
    rw [hinit, List.pairwise_append] at htake
    rw [hinit] at hx
    rcases List.mem_append.1 hx with hx | hx
    · exact (htake.2.2 x hx z (by simp)).le
    · rw [List.mem_singleton.1 hx]
  · intro ⟨hx, hle⟩
    rw [← hcut] at hx
    rcases List.mem_append.1 hx with hx | hx
    · exact hx
    · exact absurd (hcross z hzmem x hx) hle.not_gt

/-- The reader holds, in order, the items of `S` up to the key `p`. -/
structure Upto (key : α → κ) (S : α → Prop) (p : κ) (held : List α) : Prop where
  sorted : Sorted key held
  mem : ∀ x, x ∈ held ↔ S x ∧ key x ≤ p

/-- The items of `S` after the key `p`, in order, as far as the gate `G` lets them. -/
structure After (key : α → κ) (S G : α → Prop) (p : κ) (rest : List α) : Prop where
  sorted : Sorted key rest
  mem : ∀ x, x ∈ rest ↔ S x ∧ G x ∧ p < key x

/-- **A page takes the reader to its last item.** The gate must let through what is below
anything it lets through. -/
theorem Upto.append_page {S G : α → Prop} {p : κ} {held rest : List α} (h : Upto key S p held)
    (hr : After key S G p rest) (hG : ∀ x z, G z → key x ≤ key z → G x) (n : ℕ) :
    Upto key S (((rest.take n).getLast?.map key).getD p) (held ++ rest.take n) := by
  cases hz : (rest.take n).getLast? with
  | none =>
    rw [List.getLast?_eq_none_iff.1 hz, List.append_nil]
    exact h
  | some z =>
    have hzmem : z ∈ rest.take n := List.mem_of_getLast? hz
    obtain ⟨-, hzG, hzp⟩ := (hr.mem z).1 (List.mem_of_mem_take hzmem)
    have hcut := fun x => mem_take_iff hr.sorted hz (x := x)
    refine ⟨?_, fun x => ?_⟩
    · refine List.pairwise_append.2 ⟨h.sorted, hr.sorted.sublist (List.take_sublist n rest), ?_⟩
      intro x hx y hy
      have hxp := ((h.mem x).1 hx).2
      have hyp := ((hr.mem y).1 (List.mem_of_mem_take hy)).2.2
      exact hxp.trans_lt hyp
    · rw [List.mem_append, h.mem, hcut, hr.mem, Option.map_some, Option.getD_some]
      constructor
      · rintro (⟨hS, hle⟩ | ⟨⟨hS, -, -⟩, hle⟩)
        · exact ⟨hS, hle.trans hzp.le⟩
        · exact ⟨hS, hle⟩
      · intro ⟨hS, hle⟩
        rcases le_or_gt (key x) p with hp | hp
        · exact Or.inl ⟨hS, hp⟩
        · exact Or.inr ⟨⟨hS, hG x z hzG hle, hp⟩, hle⟩

end Paging
