import Mathlib.Data.List.Pairwise
import Mathlib.Data.List.Sort

/-!
# Lists as sets

The values of a list once each, by a key: of several with one key the first, and what is left in
the order of the keys. Lists of which the same values are first come out the same.

* `mem_dedupeSorted`: what is left is what comes first of its key.
* `dedupeSorted_eq_iff`: **two lists come out the same** where the same values come first.
* `dedupeSorted_idem`: **what comes out comes out again**.
-/

namespace Distinct

variable {α κ : Type*}

/-- Related to no value before it. -/
def IsFirst (R : α → α → Prop) (values : List α) (v : α) : Prop :=
  ∃ before after, values = before ++ v :: after ∧ ∀ w ∈ before, ¬ R w v

section First

variable {R : α → α → Prop}

theorem IsFirst.mem {values : List α} {v : α} (h : IsFirst R values v) : v ∈ values := by
  obtain ⟨before, after, rfl, -⟩ := h
  simp

theorem isFirst_cons {v w : α} {values : List α} :
    IsFirst R (w :: values) v ↔ v = w ∨ ¬ R w v ∧ IsFirst R values v := by
  constructor
  · rintro ⟨before, after, heq, hbefore⟩
    cases before with
    | nil =>
      injection heq with hv
      exact .inl hv.symm
    | cons x before =>
      rw [List.cons_append] at heq
      injection heq with hx heq
      subst hx
      exact .inr ⟨hbefore w List.mem_cons_self, before, after, heq, fun y hy => hbefore y (List.mem_cons_of_mem _ hy)⟩
  · rintro (rfl | ⟨hw, before, after, rfl, hbefore⟩)
    · exact ⟨[], values, rfl, by simp⟩
    · refine ⟨w :: before, after, rfl, fun y hy => ?_⟩
      rcases List.mem_cons.1 hy with rfl | hy
      · exact hw
      · exact hbefore y hy

/-- Before a value, or there, stands a first one related to it. -/
theorem exists_isFirst (hrefl : ∀ v, R v v) (htrans : ∀ u v w, R u v → R v w → R u w) {values : List α} {v : α}
    (h : v ∈ values) : ∃ w, IsFirst R values w ∧ R w v := by
  induction values with
  | nil => exact absurd h List.not_mem_nil
  | cons x values ih =>
    by_cases hx : R x v
    · exact ⟨x, isFirst_cons.2 (.inl rfl), hx⟩
    rcases List.mem_cons.1 h with rfl | h
    · exact absurd (hrefl v) hx
    · obtain ⟨w, hw, hwv⟩ := ih h
      exact ⟨w, isFirst_cons.2 (.inr ⟨fun hxw => hx (htrans x w v hxw hwv), hw⟩), hwv⟩

/-- Lists that run in step have their first values in step. -/
theorem isFirst_forall₂ {β : Type*} {S : β → β → Prop} {P : α → β → Prop}
    (hP : ∀ v x y, P v x → P v y → x = y) (hR : ∀ v w x y, P v x → P w y → (R v w ↔ S x y)) {values : List α} {images : List β}
    (h : List.Forall₂ P values images) {x : β} :
    IsFirst S images x ↔ ∃ v, IsFirst R values v ∧ P v x := by
  induction h with
  | nil =>
    refine iff_of_false (fun hx => List.not_mem_nil hx.mem) ?_
    rintro ⟨v, hv, -⟩
    exact List.not_mem_nil hv.mem
  | @cons w y values images hwy _ ih =>
    rw [isFirst_cons, ih]
    constructor
    · rintro (rfl | ⟨hyx, v, hv, hvx⟩)
      · exact ⟨w, isFirst_cons.2 (.inl rfl), hwy⟩
      · exact ⟨v, isFirst_cons.2 (.inr ⟨fun hwv => hyx ((hR _ _ _ _ hwy hvx).1 hwv), hv⟩), hvx⟩
    · rintro ⟨v, hv, hvx⟩
      rcases isFirst_cons.1 hv with rfl | ⟨hwv, hv⟩
      · exact .inl (hP _ _ _ hvx hwy)
      · exact .inr ⟨fun hyx => hwv ((hR _ _ _ _ hwy hvx).2 hyx), v, hv, hvx⟩

end First

section Dedupe

variable [DecidableEq κ] (key : α → κ)

/-- The first value of each key. -/
def firsts : List α → List α
  | [] => []
  | v :: values => v :: (firsts values).filter (key · ≠ key v)

variable (le : κ → κ → Prop) [DecidableRel le]

/-- **The values of a list once each**, in the order of their keys. -/
def dedupeSorted (values : List α) : List α := (firsts key values).insertionSort fun a b => le (key a) (key b)

variable {key le}

theorem mem_firsts {values : List α} {v : α} :
    v ∈ firsts key values ↔ IsFirst (fun w v => key w = key v) values v := by
  induction values with
  | nil =>
    refine iff_of_false List.not_mem_nil ?_
    rintro ⟨before, after, heq, -⟩
    simp at heq
  | cons w values ih =>
    rw [firsts, List.mem_cons, List.mem_filter, isFirst_cons, ih, decide_eq_true_eq, and_comm, ne_comm]

theorem mem_dedupeSorted {values : List α} {v : α} :
    v ∈ dedupeSorted key le values ↔ IsFirst (fun w v => key w = key v) values v := by
  unfold dedupeSorted
  rw [List.mem_insertionSort, mem_firsts]

theorem pairwise_firsts (values : List α) : (firsts key values).Pairwise fun a b => key a ≠ key b := by
  induction values with
  | nil => exact List.Pairwise.nil
  | cons v values ih =>
    rw [firsts, List.pairwise_cons]
    refine ⟨fun w hw => ?_, ih.filter _⟩
    have := (List.mem_filter.1 hw).2
    exact (of_decide_eq_true this).symm

/-- A list whose keys differ loses nothing. -/
theorem firsts_of_pairwise {values : List α} (h : values.Pairwise fun a b => key a ≠ key b) :
    firsts key values = values := by
  induction h with
  | nil => rfl
  | cons hv _ ih =>
    rw [firsts, ih, List.filter_eq_self.2]
    intro w hw
    exact decide_eq_true (hv w hw).symm

theorem pairwise_dedupeSorted (values : List α) :
    (dedupeSorted key le values).Pairwise fun a b => key a ≠ key b :=
  (List.perm_insertionSort _ _).symm.pairwise (pairwise_firsts values) fun h => h.symm

omit [DecidableEq κ] in
/-- One value to a key. -/
theorem eq_of_key_eq {values : List α} (h : values.Pairwise fun a b => key a ≠ key b) {v w : α} (hv : v ∈ values)
    (hw : w ∈ values) (heq : key v = key w) : v = w := by
  by_contra hne
  have : Std.Symm fun a b : α => key a ≠ key b := ⟨fun _ _ h => h.symm⟩
  exact h.forall hv hw hne heq

variable [Std.Total le] [IsTrans κ le] [Std.Antisymm le]

instance totalByKey : Std.Total fun a b : α => le (key a) (key b) := ⟨fun a b => Std.Total.total (key a) (key b)⟩

instance transByKey : IsTrans α fun a b => le (key a) (key b) :=
  ⟨fun _ _ _ hab hbc => IsTrans.trans _ _ _ hab hbc⟩

omit [DecidableEq κ] in
/-- Lists of the same values, whose keys differ, are sorted into the same. -/
theorem insertionSort_eq_of_mem_iff {values values' : List α} (h : values.Pairwise fun a b => key a ≠ key b)
    (h' : values'.Pairwise fun a b => key a ≠ key b) (hmem : ∀ v, v ∈ values ↔ v ∈ values') :
    values.insertionSort (fun a b => le (key a) (key b)) = values'.insertionSort fun a b => le (key a) (key b) := by
  have hperm : values.Perm values' := by
    rw [List.perm_ext_iff_of_nodup (h.imp fun hne heq => hne (congrArg key heq))
      (h'.imp fun hne heq => hne (congrArg key heq))]
    exact hmem
  refine List.Perm.eq_of_pairwise ?_ (List.pairwise_insertionSort _ _) (List.pairwise_insertionSort _ _)
    ((List.perm_insertionSort _ _).trans (hperm.trans (List.perm_insertionSort _ _).symm))
  intro a b ha hb hab hba
  rw [List.mem_insertionSort] at ha hb
  exact eq_of_key_eq h ha ((hmem b).2 hb) (Std.Antisymm.antisymm _ _ hab hba)

/-- **Two lists come out the same** where the same values come first. -/
theorem dedupeSorted_eq_iff {values values' : List α} :
    dedupeSorted key le values = dedupeSorted key le values' ↔
      ∀ v, IsFirst (fun w v => key w = key v) values v ↔ IsFirst (fun w v => key w = key v) values' v := by
  constructor
  · intro h v
    have hmem : v ∈ dedupeSorted key le values ↔ v ∈ dedupeSorted key le values' := by rw [h]
    exact mem_dedupeSorted.symm.trans (hmem.trans mem_dedupeSorted)
  · intro h
    refine insertionSort_eq_of_mem_iff (pairwise_firsts values) (pairwise_firsts values') fun v => ?_
    rw [mem_firsts, mem_firsts, h]

omit [Std.Antisymm le] in
/-- **What comes out comes out again.** -/
theorem dedupeSorted_idem (values : List α) :
    dedupeSorted key le (dedupeSorted key le values) = dedupeSorted key le values := by
  rw [dedupeSorted, firsts_of_pairwise (pairwise_dedupeSorted values)]
  exact (List.pairwise_insertionSort _ _).insertionSort_eq

/-- Where a key tells the value, the lists only have to hold the same values. -/
theorem dedupeSorted_eq_iff_mem {values values' : List α} (hkey : Function.Injective key) :
    dedupeSorted key le values = dedupeSorted key le values' ↔ ∀ v, v ∈ values ↔ v ∈ values' := by
  have hfirst : ∀ (values : List α) v, IsFirst (fun w v => key w = key v) values v ↔ v ∈ values := by
    intro values v
    refine ⟨IsFirst.mem, fun hv => ?_⟩
    obtain ⟨w, hw, heq⟩ := exists_isFirst (R := fun w v => key w = key v) (fun _ => rfl) (fun _ _ _ => Eq.trans) hv
    obtain rfl := hkey heq
    exact hw
  rw [dedupeSorted_eq_iff]
  simp only [hfirst]

omit [Std.Total le] [IsTrans κ le] [Std.Antisymm le] in
/-- The values left are those of the list, where a key tells the value. -/
theorem mem_dedupeSorted_of_injective {values : List α} {v : α} (hkey : Function.Injective key) :
    v ∈ dedupeSorted key le values ↔ v ∈ values := by
  refine ⟨fun h => (mem_dedupeSorted.1 h).mem, fun h => ?_⟩
  obtain ⟨w, hw, heq⟩ := exists_isFirst (R := fun w v => key w = key v) (fun _ => rfl) (fun _ _ _ => Eq.trans) h
  obtain rfl := hkey heq
  exact mem_dedupeSorted.2 hw

end Dedupe

end Distinct
