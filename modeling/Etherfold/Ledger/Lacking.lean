import Etherfold.Ledger.ObjectStore

/-!
# A list that lacks some items

Two lists that are the same but for items of one kind, which the first may lack. What is done to
both item by item keeps this, and what looks past that kind of item reads the same of both.

* `Lacking.append`, `Lacking.filter`, `Lacking.map`: what is done to both.
* `Lacking.drop`: the first is filtered once more.
* `Lacking.filter_eq`, `ObjectStore.filter_index_eq`: **what looks past the kind reads the same**.
-/

/-- `l` is `l'` without some items, each of them of the kind `P`. -/
inductive Lacking {α : Type*} (P : α → Prop) : List α → List α → Prop where
  | nil : Lacking P [] []
  | both (a : α) {l l' : List α} (rest : Lacking P l l') : Lacking P (a :: l) (a :: l')
  | lack {a : α} {l l' : List α} (kind : P a) (rest : Lacking P l l') : Lacking P l (a :: l')

namespace Lacking

variable {α β : Type*} {P Q : α → Prop} {l l' m m' : List α}

theorem refl (P : α → Prop) (l : List α) : Lacking P l l := by
  induction l with
  | nil => exact .nil
  | cons a l ih => exact ih.both a

theorem mono (h : Lacking P l l') (hPQ : ∀ a, P a → Q a) : Lacking Q l l' := by
  induction h with
  | nil => exact .nil
  | both a _ ih => exact ih.both a
  | lack kind _ ih => exact ih.lack (hPQ _ kind)

theorem sublist (h : Lacking P l l') : l.Sublist l' := by
  induction h with
  | nil => exact .slnil
  | both a _ ih => exact ih.cons_cons a
  | lack _ _ ih => exact ih.cons _

theorem missing (h : Lacking P l l') {a : α} (ha : a ∈ l') : a ∈ l ∨ P a := by
  induction h with
  | nil => exact .inl ha
  | both b _ ih =>
    rcases List.mem_cons.1 ha with rfl | ha
    · exact .inl List.mem_cons_self
    · exact (ih ha).imp_left (List.mem_cons_of_mem b)
  | lack kind _ ih =>
    rcases List.mem_cons.1 ha with rfl | ha
    · exact .inr kind
    · exact ih ha

theorem append (h : Lacking P l l') (h' : Lacking P m m') : Lacking P (l ++ m) (l' ++ m') := by
  induction h with
  | nil => exact h'
  | both a _ ih => exact ih.both a
  | lack kind _ ih => exact ih.lack kind

theorem filter (h : Lacking P l l') (p : α → Bool) : Lacking P (l.filter p) (l'.filter p) := by
  induction h with
  | nil => exact .nil
  | both a _ ih =>
    rw [List.filter_cons, List.filter_cons]
    split
    · exact ih.both a
    · exact ih
  | lack kind _ ih =>
    rw [List.filter_cons]
    split
    · exact ih.lack kind
    · exact ih

theorem map {R : β → Prop} (h : Lacking P l l') (f : α → β) (hf : ∀ a, P a → R (f a)) :
    Lacking R (l.map f) (l'.map f) := by
  induction h with
  | nil => exact .nil
  | both a _ ih => exact ih.both (f a)
  | lack kind _ ih => exact ih.lack (hf _ kind)

/-- The first loses more items of the kind. -/
theorem drop (h : Lacking P l l') {p : α → Bool} (hp : ∀ a ∈ l, p a = false → P a) : Lacking P (l.filter p) l' := by
  induction h with
  | nil => exact .nil
  | both a _ ih =>
    have hrest := ih fun b hb => hp b (List.mem_cons_of_mem a hb)
    rw [List.filter_cons]
    split
    · exact hrest.both a
    · rename_i hgone
      exact hrest.lack (hp a List.mem_cons_self (by simpa using hgone))
  | lack kind _ ih => exact (ih hp).lack kind

/-- **What looks past the kind finds the same.** -/
theorem filter_eq (h : Lacking P l l') {p : α → Bool} (hp : ∀ a, P a → p a = false) : l.filter p = l'.filter p := by
  induction h with
  | nil => rfl
  | both a _ ih => rw [List.filter_cons, List.filter_cons, ih]
  | lack kind _ ih => rw [List.filter_cons, hp _ kind, if_neg Bool.false_ne_true, ih]

theorem find?_eq (h : Lacking P l l') {p : α → Bool} (hp : ∀ a, P a → p a = false) : l.find? p = l'.find? p := by
  rw [← List.head?_filter, ← List.head?_filter, h.filter_eq hp]

end Lacking

namespace ObjectStore

variable {κ α : Type*} [LinearOrder κ] {P : κ × α → Prop} {s s' : ObjectStore κ α}

theorem lacking_put (h : Lacking P s.entries s'.entries) (k : κ) (a : α) :
    Lacking P (s.put k a).entries (s'.put k a).entries :=
  (h.filter _).append ((h.filter _).both (k, a))

theorem lacking_delete (h : Lacking P s.entries s'.entries) (k : κ) :
    Lacking P (s.delete k).entries (s'.delete k).entries :=
  h.filter _

section Index

variable {ι : Type*} [LinearOrder ι]

/-- Where an entry goes in an index: the index keys first, and the keys where these are equal. -/
def indexKey (e : ι × κ × α) : ι ×ₗ κ := toLex (e.1, e.2.1)

theorem indexKey_lt_iff {e e' : ι × κ × α} :
    indexKey e < indexKey e' ↔ e.1 < e'.1 ∨ e.1 = e'.1 ∧ e.2.1 < e'.2.1 := Prod.Lex.toLex_lt_toLex

/-- An entry whose key is below all others goes before its equals. -/
theorem sorted_orderedInsert {e : ι × κ × α} {l : List (ι × κ × α)} (h : Paging.Sorted indexKey l)
    (hkey : ∀ e' ∈ l, e.2.1 < e'.2.1) : Paging.Sorted indexKey (l.orderedInsert (fun a b => a.1 ≤ b.1) e) := by
  induction l with
  | nil => exact List.pairwise_singleton _ _
  | cons b l ih =>
    obtain ⟨hb, hl⟩ := List.pairwise_cons.1 h
    rw [List.orderedInsert_cons]
    split
    · rename_i hle
      refine List.pairwise_cons.2 ⟨fun e' he' => ?_, h⟩
      have hle' : e.1 ≤ e'.1 := by
        rcases List.mem_cons.1 he' with rfl | he'
        · exact hle
        · rcases indexKey_lt_iff.1 (hb e' he') with hlt | ⟨heq, -⟩
          · exact hle.trans hlt.le
          · exact hle.trans_eq heq
      rw [indexKey_lt_iff]
      exact hle'.lt_or_eq.imp_right fun heq => ⟨heq, hkey e' he'⟩
    · rename_i hlt
      refine List.pairwise_cons.2 ⟨fun e' he' => ?_, ih hl fun e' he' => hkey e' (List.mem_cons_of_mem b he')⟩
      rcases List.mem_cons.1 ((List.perm_orderedInsert _ e l).subset he') with rfl | he'
      · exact indexKey_lt_iff.2 (.inl (not_le.1 hlt))
      · exact hb e' he'

/-- **An index is in the order of its keys**, and of the keys of the store where these are equal. -/
theorem sorted_index (s : ObjectStore κ α) (f : α → Option ι) : Paging.Sorted indexKey (s.index f) := by
  have hkeys : (s.entries.filterMap fun e => (f e.2).map fun i => (i, e)).Pairwise fun a b => a.2.1 < b.2.1 := by
    refine s.sorted.filterMap _ fun a b hlt i hi j hj => ?_
    obtain ⟨-, -, rfl⟩ := Option.map_eq_some_iff.1 hi
    obtain ⟨-, -, rfl⟩ := Option.map_eq_some_iff.1 hj
    exact hlt
  unfold index
  generalize s.entries.filterMap (fun e => (f e.2).map fun i => (i, e)) = l at hkeys
  induction l with
  | nil => exact List.Pairwise.nil
  | cons e l ih =>
    obtain ⟨he, hl⟩ := List.pairwise_cons.1 hkeys
    refine sorted_orderedInsert (ih hl) fun e' he' => he e' ?_
    exact (List.perm_insertionSort _ l).subset he'

/-- **A range of an index that holds nothing of the kind is the same.** -/
theorem filter_index_eq (h : Lacking P s.entries s'.entries) {f : α → Option ι} {p : ι → Bool}
    (hp : ∀ e ∈ s'.entries, P e → ∀ i, f e.2 = some i → p i = false) :
    (s.index f).filter (fun e => p e.1) = (s'.index f).filter fun e => p e.1 := by
  refine Paging.Sorted.ext ((sorted_index s f).filter _) ((sorted_index s' f).filter _) fun e => ?_
  obtain ⟨i, k, a⟩ := e
  rw [List.mem_filter, List.mem_filter, mem_index, mem_index, get_eq_some_iff, get_eq_some_iff]
  constructor
  · rintro ⟨⟨hmem, hi⟩, hpi⟩
    exact ⟨⟨h.sublist.subset hmem, hi⟩, hpi⟩
  · rintro ⟨⟨hmem, hi⟩, hpi⟩
    rcases h.missing hmem with hin | hkind
    · exact ⟨⟨hin, hi⟩, hpi⟩
    · rw [hp _ hmem hkind i hi] at hpi
      cases hpi

end Index

end ObjectStore
