import Etherfold.Ledger.Page

/-!
# A bounded page under an overlay

A page of a sorted collection is read, the items an overlay touches are left out and the
overlay's own put in. Reading as many items more as the overlay touches is enough.

* `take_overlay`: **the first items of the page under the overlay are the first of the whole**.
* `length_overlay`: **there is more exactly when the page says so**.
-/

namespace Paging

variable {α κ : Type*} [LinearOrder κ] {key : α → κ}

/-- Leaving out items that many others come before does not change the beginning. -/
theorem take_filter_eq {l : List α} (h : Sorted key l) {p : α → Bool} {n : ℕ}
    (hp : ∀ x ∈ l, p x = false → n ≤ ((l.filter p).filter fun y => key y < key x).length) :
    (l.filter p).take n = l.take n := by
  induction l generalizing n with
  | nil => rfl
  | cons a l ih =>
    obtain ⟨ha, hl⟩ := List.pairwise_cons.1 h
    cases n with
    | zero => rfl
    | succ n =>
      cases hpa : p a with
      | false =>
        -- nothing comes before the first item
        exfalso
        have hnone := hp a List.mem_cons_self hpa
        rw [List.filter_cons_of_neg (by simp [hpa])] at hnone
        have hempty : (l.filter p).filter (fun y => key y < key a) = [] := by
          rw [List.filter_eq_nil_iff]
          intro y hy
          rw [decide_eq_true_eq]
          exact (ha y (List.mem_of_mem_filter hy)).asymm
        rw [hempty] at hnone
        simp at hnone
      | true =>
        rw [List.filter_cons_of_pos hpa, List.take_succ_cons, List.take_succ_cons]
        congr 1
        apply ih hl
        intro x hx hpx
        have hcount := hp x (List.mem_cons_of_mem _ hx) hpx
        rw [List.filter_cons_of_pos hpa, List.filter_cons_of_pos (by simpa using ha x hx)] at hcount
        simpa using hcount

variable {A B S : List α} {T : List κ} {n : ℕ}

/-- `A` is the collection `B` without the items the overlay touches, and with its own `S`. -/
structure Overlaid (key : α → κ) (B S A : List α) (T : List κ) : Prop where
  base : Sorted key B
  sorted : Sorted key A
  mem : ∀ x, x ∈ A ↔ x ∈ B ∧ key x ∉ T ∨ x ∈ S
  touched : ∀ x ∈ S, key x ∈ T
  distinct : S.Pairwise fun x y => key x ≠ key y

/-- The page: what the overlay leaves of the first items, and its own. -/
def page (key : α → κ) (B S : List α) (T : List κ) (n : ℕ) : List α :=
  ((B.take (n + T.length)).filter fun x => key x ∉ T) ++ S

theorem Overlaid.page_distinct (h : Overlaid key B S A T) (n : ℕ) :
    (page key B S T n).Pairwise fun x y => key x ≠ key y := by
  unfold page
  refine List.pairwise_append.2 ⟨?_, h.distinct, ?_⟩
  · exact ((h.base.sublist (List.take_sublist _ _)).filter _).imp fun hlt => hlt.ne
  · intro x hx y hy heq
    have hxT : key x ∉ T := by simpa using (List.mem_filter.1 hx).2
    exact hxT (heq ▸ h.touched y hy)

/-- The overlay touches at most as many items as it has keys. -/
theorem length_touched_le {L : List α} (h : Sorted key L) (T : List κ) :
    (L.filter fun x => key x ∈ T).length ≤ T.length := by
  have hnodup : ((L.filter fun x => key x ∈ T).map key).Nodup :=
    List.pairwise_map.2 ((h.filter _).imp fun hlt => hlt.ne)
  have hsub : (L.filter fun x => key x ∈ T).map key ⊆ T := by
    intro k hk
    obtain ⟨x, hx, rfl⟩ := List.mem_map.1 hk
    simpa using (List.mem_filter.1 hx).2
  have hle := (List.subperm_of_subset hnodup hsub).length_le
  rwa [List.length_map] at hle

theorem length_untouched {L : List α} (h : Sorted key L) (T : List κ) :
    L.length ≤ (L.filter fun x => key x ∉ T).length + T.length := by
  have hle := length_touched_le h T
  have hsplit := List.length_eq_length_filter_add (l := L) fun x => decide (key x ∈ T)
  have hneg : (L.filter fun x => !decide (key x ∈ T)) = L.filter fun x => key x ∉ T := by
    refine List.filter_congr fun x _ => ?_
    by_cases hx : key x ∈ T <;> simp [hx]
  rw [hneg] at hsplit
  omega

/-- The page in order: the items of the whole that are not beyond what was read. -/
theorem Overlaid.page_eq (h : Overlaid key B S A T) (n : ℕ) :
    (page key B S T n).insertionSort (fun x y => key x ≤ key y) =
      A.filter fun x => key x ∈ (page key B S T n).map key := by
  have hbase : ∀ x ∈ page key B S T n, x ∈ A := by
    intro x hx
    rcases List.mem_append.1 hx with hx | hx
    · obtain ⟨hxB, hxT⟩ := List.mem_filter.1 hx
      exact (h.mem x).2 (.inl ⟨List.mem_of_mem_take hxB, by simpa using hxT⟩)
    · exact (h.mem x).2 (.inr hx)
  refine Sorted.ext (sorted_insertionSort (h.page_distinct n)) (h.sorted.filter _) fun x => ?_
  rw [(List.perm_insertionSort _ _).mem_iff, List.mem_filter, decide_eq_true_eq]
  constructor
  · intro hx
    exact ⟨hbase x hx, List.mem_map_of_mem hx⟩
  · intro ⟨hxA, hkey⟩
    obtain ⟨y, hy, hyx⟩ := List.mem_map.1 hkey
    -- two items of the whole with one key are one
    have hxy : y = x := by
      by_contra hne
      have hor := List.Pairwise.forall_of_forall_of_flip (l := A) (R := fun a b => a ≠ b → key a ≠ key b)
        (fun a _ ha => absurd rfl ha) (h.sorted.imp fun hlt _ => hlt.ne) (h.sorted.imp fun hlt _ => hlt.ne')
        (hbase y hy) hxA hne
      exact hor hyx
    rwa [← hxy]

/-- What lies beyond the items read has `n` items of the page before it. -/
theorem Overlaid.before (h : Overlaid key B S A T) {x : α} (hx : x ∈ A)
    (hout : key x ∉ (page key B S T n).map key) :
    n ≤ (((B.take (n + T.length)).filter fun y => key y ∉ T).filter fun y => key y < key x).length := by
  rcases (h.mem x).1 hx with ⟨hxB, hxT⟩ | hxS
  · have hcut := List.take_append_drop (n + T.length) B
    have hdrop : x ∈ B.drop (n + T.length) := by
      rw [← hcut] at hxB
      rcases List.mem_append.1 hxB with hxB | hxB
      · refine absurd (List.mem_map_of_mem (List.mem_append_left S (List.mem_filter.2 ⟨hxB, ?_⟩))) hout
        simpa using hxT
      · exact hxB
    have hbase := h.base
    unfold Sorted at hbase
    rw [← hcut, List.pairwise_append] at hbase
    have hall : ((B.take (n + T.length)).filter fun y => key y ∉ T).filter (fun y => key y < key x) =
        (B.take (n + T.length)).filter fun y => key y ∉ T := by
      refine List.filter_eq_self.2 fun y hy => decide_eq_true ?_
      exact hbase.2.2 y (List.mem_of_mem_filter hy) x hdrop
    rw [hall]
    have hlen : (B.take (n + T.length)).length = n + T.length := by
      rw [List.length_take]
      have hpos := List.length_pos_of_mem hdrop
      rw [List.length_drop] at hpos
      omega
    have huntouched := length_untouched (h.base.sublist (List.take_sublist (n + T.length) B)) T
    omega
  · exact absurd (List.mem_map_of_mem (List.mem_append_right _ hxS)) hout

/-- **The first items of the page are the first items of the whole.** -/
theorem take_overlay (h : Overlaid key B S A T) (n : ℕ) :
    ((page key B S T n).insertionSort fun x y => key x ≤ key y).take n = A.take n := by
  rw [h.page_eq n]
  refine take_filter_eq h.sorted fun x hx hout => ?_
  rw [decide_eq_false_iff_not] at hout
  refine (h.before hx hout).trans ?_
  -- the page is part of the whole
  rw [← h.page_eq n]
  have hperm := List.perm_insertionSort (fun x y : α => key x ≤ key y) (page key B S T n)
  have hlen := (hperm.filter fun y => key y < key x).length_eq
  rw [hlen]
  unfold page
  rw [List.filter_append, List.length_append]
  omega

theorem Overlaid.length_eq (h : Overlaid key B S A T) :
    A.length = (B.filter fun x => key x ∉ T).length + S.length := by
  have hperm : A.Perm ((B.filter fun x => key x ∉ T) ++ S) := by
    have hnodupA : A.Nodup := h.sorted.imp fun hlt heq => (heq ▸ hlt).ne rfl
    have hnodupB : ((B.filter fun x => key x ∉ T) ++ S).Nodup := by
      have hpage := h.page_distinct B.length
      unfold page at hpage
      rw [List.take_of_length_le (Nat.le_add_right _ _)] at hpage
      exact hpage.imp fun {x y} hne heq => hne (congrArg key heq)
    refine (List.perm_ext_iff_of_nodup hnodupA hnodupB).2 fun x => ?_
    rw [h.mem, List.mem_append, List.mem_filter, decide_eq_true_eq]
  rw [hperm.length_eq, List.length_append]

/-- **There is more than `n` exactly when the page holds more or was cut off.** -/
theorem length_overlay (h : Overlaid key B S A T) (n : ℕ) :
    n < A.length ↔ n < (page key B S T n).length ∨ n + T.length < B.length := by
  rw [h.length_eq]
  unfold page
  rw [List.length_append]
  by_cases hcut : n + T.length < B.length
  · have huntouched := length_untouched h.base T
    constructor
    · exact fun _ => .inr hcut
    · intro _
      omega
  · rw [List.take_of_length_le (by omega)]
    constructor
    · exact fun hlt => .inl hlt
    · intro hor
      rcases hor with hlt | hlt
      · exact hlt
      · exact absurd hlt hcut

end Paging
