import Etherfold.Ledger.Basic

/-!
# Ledgers of bundles

An item may be a bundle of smaller parts, and a ledger of bundles is then read as
the ledger of their parts.

* `expand`: the entries of the parts of one entry.
* `parts`: the parts of what is held.
* `held_expand`: reading the expanded ledger gives the parts of what the ledger of
  bundles holds, when no part belongs to two bundles.
* `net_expand`: and its parts are counted as their bundles are.
-/

namespace Ledger

variable {α β : Type*}

/-- An entry, part by part. -/
def expand (g : α → List β) : Op α → List (Op β)
  | .add x => (g x).map .add
  | .retract x => (g x).map .retract

variable [DecidableEq β] {g : α → List β}

/-- The parts of the bundles of a holding. -/
def parts (g : α → List β) (S : Finset α) : Finset β := S.biUnion fun x => (g x).toFinset

@[simp] theorem mem_parts {S : Finset α} {z : β} : z ∈ parts g S ↔ ∃ x ∈ S, z ∈ g x := by
  simp [parts]

@[simp] theorem parts_empty : parts g ∅ = ∅ := rfl

variable [DecidableEq α]

/-- One entry, expanded, acts on the parts as the entry acts on the bundles. -/
theorem held_expand_op (hd : ∀ x y, ∀ z ∈ g x, z ∈ g y → x = y) (S : Finset α) (o : Op α) :
    held (parts g S) (expand g o) = parts g (apply S o) := by
  cases o with
  | add x =>
    rw [expand, held_map_add, apply]
    ext z
    simp only [Finset.mem_union, mem_parts, List.mem_toFinset, Finset.mem_insert, exists_eq_or_imp]
    exact or_comm
  | retract x =>
    rw [expand, held_map_retract, apply]
    ext z
    simp only [Finset.mem_sdiff, mem_parts, List.mem_toFinset, Finset.mem_erase]
    constructor
    · rintro ⟨⟨y, hy, hz⟩, hx⟩
      exact ⟨y, ⟨fun e => hx (e ▸ hz), hy⟩, hz⟩
    · rintro ⟨y, ⟨hne, hy⟩, hz⟩
      exact ⟨⟨y, hy, hz⟩, fun hx => hne (hd y x z hz hx)⟩

/-- **Expanding a ledger and reading it commute.** -/
theorem held_expand (hd : ∀ x y, ∀ z ∈ g x, z ∈ g y → x = y) (S : Finset α) (ops : List (Op α)) :
    held (parts g S) (ops.flatMap (expand g)) = parts g (held S ops) := by
  induction ops generalizing S with
  | nil => rfl
  | cons o ops ih =>
    rw [List.flatMap_cons, held_append, held_expand_op hd, ih]
    rfl

/-- **A legal ledger of bundles is legal part by part.** -/
theorem legal_expand (hd : ∀ x y, ∀ z ∈ g x, z ∈ g y → x = y) (hn : ∀ x, (g x).Nodup) {S : Finset α}
    {ops : List (Op α)} (h : Legal S ops) : Legal (parts g S) (ops.flatMap (expand g)) := by
  induction ops generalizing S with
  | nil => trivial
  | cons o ops ih =>
    rw [List.flatMap_cons, legal_append, held_expand_op hd]
    cases o with
    | add x =>
      refine ⟨legal_map_add (hn x) fun z hz hheld => ?_, ih h.2⟩
      obtain ⟨y, hy, hzy⟩ := mem_parts.1 hheld
      exact h.1 (hd x y z hz hzy ▸ hy)
    | retract x => exact ⟨legal_map_retract (hn x) fun z hz => mem_parts.2 ⟨x, h.1, hz⟩, ih h.2⟩

omit [DecidableEq α] in
/-- An entry of a bundle with parts is not legal twice in a row. -/
theorem not_legal_expand_twice {S : Finset β} {o : Op α} (hne : g o.key ≠ []) (l : List (Op β)) :
    ¬Legal S (expand g o ++ (expand g o ++ l)) := by
  intro h
  have hsecond := (legal_append.1 (legal_append.1 h).2).1
  obtain ⟨z, zs, hz⟩ := List.exists_cons_of_ne_nil hne
  cases o with
  | add x =>
    rw [Op.key_add] at hz
    rw [expand, held_map_add, hz, List.map_cons] at hsecond
    exact hsecond.1 (Finset.mem_union_right _ (by simp))
  | retract x =>
    rw [Op.key_retract] at hz
    rw [expand, held_map_retract, hz, List.map_cons] at hsecond
    exact (Finset.mem_sdiff.1 hsecond.1).2 (by simp)

theorem net_map_add (z : β) (zs : List β) : net z (zs.map Op.add) = zs.count z := by
  induction zs with
  | nil => rfl
  | cons y zs ih =>
    rw [List.map_cons, net, ih, List.count_cons]
    by_cases hy : y = z
    · simp [hy]; omega
    · simp [hy]

theorem net_map_retract (z : β) (zs : List β) : net z (zs.map Op.retract) = -zs.count z := by
  induction zs with
  | nil => rfl
  | cons y zs ih =>
    rw [List.map_cons, net, ih, List.count_cons]
    by_cases hy : y = z
    · simp [hy]; omega
    · simp [hy]

/-- **A part is counted as its bundle.** -/
theorem net_expand (hd : ∀ x y, ∀ z ∈ g x, z ∈ g y → x = y) (hn : ∀ x, (g x).Nodup) {x : α} {z : β}
    (hz : z ∈ g x) (ops : List (Op α)) : net z (ops.flatMap (expand g)) = net x ops := by
  have hcount : ∀ y, (g y).count z = if y = x then 1 else 0 := by
    intro y
    by_cases hy : y = x
    · subst hy
      rw [if_pos rfl, List.count_eq_one_of_mem (hn y) hz]
    · rw [if_neg hy, List.count_eq_zero]
      exact fun h => hy (hd y x z h hz)
  induction ops with
  | nil => rfl
  | cons o ops ih =>
    rw [List.flatMap_cons, net_append, ih]
    cases o with
    | add y =>
      rw [expand, net_map_add, hcount, net]
      push_cast
      rfl
    | retract y =>
      rw [expand, net_map_retract, hcount, net]
      push_cast
      ring

omit [DecidableEq α] in
/-- What belongs to no bundle is not counted. -/
theorem net_expand_of_notMem {z : β} (hz : ∀ x, z ∉ g x) (ops : List (Op α)) :
    net z (ops.flatMap (expand g)) = 0 := by
  induction ops with
  | nil => rfl
  | cons o ops ih =>
    rw [List.flatMap_cons, net_append, ih]
    cases o with
    | add x => rw [expand, net_map_add, List.count_eq_zero.2 (hz x)]; rfl
    | retract x => rw [expand, net_map_retract, List.count_eq_zero.2 (hz x)]; rfl

end Ledger
