import Mathlib.Data.Finset.Sort
import Mathlib.Tactic

/-!
# Ledgers of additions and retractions

A ledger is a list of entries, each of which puts an item on or takes one back.

* `held S ops`: what is held after reading `ops` from the holding `S`.
* `Legal S ops`: only absent items are added and only held items are retracted.
* `mem_held_of_key`: the last entry naming an item decides whether it is held.
* `net`: additions minus retractions of an item; on a legal ledger it is the
  change of the holding (`net_eq`).
-/

namespace Ledger

/-- An entry of a ledger. -/
inductive Op (α : Type*) where
  | add (x : α)
  | retract (x : α)
  deriving DecidableEq, Repr

variable {α : Type*}

/-- The item an entry is about. -/
def Op.key : Op α → α
  | .add x => x
  | .retract x => x

@[simp] theorem Op.key_add (x : α) : (Op.add x).key = x := rfl

@[simp] theorem Op.key_retract (x : α) : (Op.retract x).key = x := rfl

variable [DecidableEq α]

/-- The holding after one entry. -/
def apply (S : Finset α) : Op α → Finset α
  | .add x => insert x S
  | .retract x => S.erase x

/-- **The holding after a ledger**, read in order. -/
def held (S : Finset α) (ops : List (Op α)) : Finset α := ops.foldl apply S

@[simp] theorem held_nil (S : Finset α) : held S [] = S := rfl

@[simp] theorem held_add (S : Finset α) (x : α) (ops : List (Op α)) :
    held S (.add x :: ops) = held (insert x S) ops := rfl

@[simp] theorem held_retract (S : Finset α) (x : α) (ops : List (Op α)) :
    held S (.retract x :: ops) = held (S.erase x) ops := rfl

theorem held_append (S : Finset α) (a b : List (Op α)) : held S (a ++ b) = held (held S a) b := by
  simp only [held, List.foldl_append]

/-- An item no entry names is held as before. -/
theorem mem_held_of_not_key {S : Finset α} {ops : List (Op α)} {x : α} (h : x ∉ ops.map Op.key) :
    x ∈ held S ops ↔ x ∈ S := by
  induction ops generalizing S with
  | nil => rfl
  | cons o ops ih =>
    rw [List.map_cons, List.mem_cons, not_or] at h
    obtain ⟨hne, hk⟩ := h
    cases o with
    | add y =>
      have hy : x ≠ y := hne
      simp [ih hk, hy]
    | retract y =>
      have hy : x ≠ y := hne
      simp [ih hk, hy]

/-- **The last entry decides.** Whether an item some entry names is held does not
depend on the holding the ledger started from. -/
theorem mem_held_of_key {S T : Finset α} {ops : List (Op α)} {x : α} (h : x ∈ ops.map Op.key) :
    x ∈ held S ops ↔ x ∈ held T ops := by
  induction ops generalizing S T with
  | nil => simp at h
  | cons o ops ih =>
    by_cases hx : x ∈ ops.map Op.key
    · cases o with
      | add y => rw [held_add, held_add]; exact ih hx
      | retract y => rw [held_retract, held_retract]; exact ih hx
    · have hox : x = o.key := by
        simp only [List.map_cons, List.mem_cons] at h
        exact h.resolve_right hx
      cases o with
      | add y => simp only [held_add, mem_held_of_not_key hx]; simp [hox]
      | retract y => simp only [held_retract, mem_held_of_not_key hx]; simp [hox]

/-- What is held of nothing was named. -/
theorem mem_keys_of_mem_held {ops : List (Op α)} {x : α} (h : x ∈ held ∅ ops) : x ∈ ops.map Op.key := by
  by_contra hkey
  rw [mem_held_of_not_key hkey] at h
  exact absurd h (Finset.notMem_empty x)

/-- Adding a list of items. -/
theorem held_map_add (S : Finset α) (xs : List α) : held S (xs.map Op.add) = S ∪ xs.toFinset := by
  induction xs generalizing S with
  | nil => simp
  | cons x xs ih =>
    simp only [List.map_cons, held_add, List.toFinset_cons, ih]
    ext z; simp only [Finset.mem_union, Finset.mem_insert]; tauto

/-- Retracting a list of items. -/
theorem held_map_retract (S : Finset α) (xs : List α) :
    held S (xs.map Op.retract) = S \ xs.toFinset := by
  induction xs generalizing S with
  | nil => simp
  | cons x xs ih =>
    simp only [List.map_cons, held_retract, List.toFinset_cons, ih]
    ext z; simp only [Finset.mem_sdiff, Finset.mem_erase, Finset.mem_insert]; tauto

/-- **A legal ledger** adds only items that are not held and retracts only items
that are. -/
def Legal : Finset α → List (Op α) → Prop
  | _, [] => True
  | S, .add x :: ops => x ∉ S ∧ Legal (insert x S) ops
  | S, .retract x :: ops => x ∈ S ∧ Legal (S.erase x) ops

theorem legal_append {S : Finset α} {a b : List (Op α)} :
    Legal S (a ++ b) ↔ Legal S a ∧ Legal (held S a) b := by
  induction a generalizing S with
  | nil => simp [Legal]
  | cons o a ih => cases o <;> simp only [List.cons_append, Legal, held_add, held_retract, ih, and_assoc]

theorem legal_map_add {S : Finset α} {xs : List α} (hn : xs.Nodup) (h : ∀ x ∈ xs, x ∉ S) :
    Legal S (xs.map Op.add) := by
  induction xs generalizing S with
  | nil => trivial
  | cons x xs ih =>
    obtain ⟨hx, hn⟩ := List.nodup_cons.1 hn
    refine ⟨h x List.mem_cons_self, ih hn fun y hy => ?_⟩
    rw [Finset.mem_insert, not_or]
    exact ⟨fun e => hx (e ▸ hy), h y (List.mem_cons_of_mem _ hy)⟩

theorem legal_map_retract {S : Finset α} {xs : List α} (hn : xs.Nodup) (h : ∀ x ∈ xs, x ∈ S) :
    Legal S (xs.map Op.retract) := by
  induction xs generalizing S with
  | nil => trivial
  | cons x xs ih =>
    obtain ⟨hx, hn⟩ := List.nodup_cons.1 hn
    refine ⟨h x List.mem_cons_self, ih hn fun y hy => ?_⟩
    rw [Finset.mem_erase]
    exact ⟨fun e => hx (e ▸ hy), h y (List.mem_cons_of_mem _ hy)⟩

/-- Whether a ledger is legal depends on what is held of the items it names. -/
theorem Legal.of_agree {S T : Finset α} {ops : List (Op α)} (h : Legal S ops)
    (hagree : ∀ x ∈ ops.map Op.key, x ∈ S ↔ x ∈ T) : Legal T ops := by
  induction ops generalizing S T with
  | nil => trivial
  | cons o ops ih =>
    rw [List.map_cons, List.forall_mem_cons] at hagree
    obtain ⟨ho, hops⟩ := hagree
    cases o with
    | add x =>
      refine ⟨fun hx => h.1 (ho.2 hx), ih h.2 fun y hy => ?_⟩
      rw [Finset.mem_insert, Finset.mem_insert, hops y hy]
    | retract x =>
      refine ⟨ho.1 h.1, ih h.2 fun y hy => ?_⟩
      rw [Finset.mem_erase, Finset.mem_erase, hops y hy]

/-- A part of a legal ledger that keeps or drops each item whole is legal. -/
theorem Legal.filter {S : Finset α} {ops : List (Op α)} (h : Legal S ops) (p : α → Prop)
    [DecidablePred p] : Legal (S.filter p) (ops.filter fun o => p o.key) := by
  induction ops generalizing S with
  | nil => trivial
  | cons o ops ih =>
    cases o with
    | add x =>
      have h2 := ih h.2
      by_cases hp : p x
      · rw [Finset.filter_insert, if_pos hp] at h2
        simp only [List.filter_cons, Op.key_add, hp, decide_true, if_true, Legal]
        exact ⟨fun hm => h.1 (Finset.mem_of_mem_filter _ hm), h2⟩
      · rw [Finset.filter_insert, if_neg hp] at h2
        simpa [List.filter_cons, hp] using h2
    | retract x =>
      have h2 := ih h.2
      rw [Finset.filter_erase] at h2
      by_cases hp : p x
      · simp only [List.filter_cons, Op.key_retract, hp, decide_true, if_true, Legal]
        exact ⟨Finset.mem_filter.2 ⟨h.1, hp⟩, h2⟩
      · rw [Finset.erase_eq_of_notMem (by simp [hp])] at h2
        simpa [List.filter_cons, hp] using h2

/-- What a filtered ledger holds of the items it keeps. -/
theorem mem_held_filter {S T : Finset α} {ops : List (Op α)} {p : α → Prop} [DecidablePred p] {x : α}
    (hp : p x) (h : x ∈ S ↔ x ∈ T) :
    x ∈ held S (ops.filter fun o => p o.key) ↔ x ∈ held T ops := by
  induction ops generalizing S T with
  | nil => exact h
  | cons o ops ih =>
    by_cases ho : p o.key
    · simp only [List.filter_cons, ho, decide_true, if_true]
      cases o with
      | add y => exact ih (by simp [apply, h])
      | retract y => exact ih (by simp [apply, h])
    · have hne : x ≠ o.key := fun e => ho (e ▸ hp)
      simp only [List.filter_cons, ho, decide_false, Bool.false_eq_true, if_false]
      cases o with
      | add y =>
        have hy : x ≠ y := hne
        exact ih (by simp [apply, h, hy])
      | retract y =>
        have hy : x ≠ y := hne
        exact ih (by simp [apply, h, hy])

/-- Neighbouring entries of a legal ledger differ: an item is not added twice, nor
retracted twice, in a row. -/
theorem Legal.chain {S : Finset α} {ops : List (Op α)} (h : Legal S ops) : ops.IsChain (· ≠ ·) := by
  induction ops generalizing S with
  | nil => exact List.IsChain.nil
  | cons o ops ih =>
    have hrest : ops.IsChain (· ≠ ·) := by cases o <;> exact ih h.2
    cases ops with
    | nil => exact List.IsChain.singleton _
    | cons o' ops =>
      refine List.IsChain.cons_cons ?_ hrest
      rintro rfl
      cases o with
      | add x => exact h.2.1 (Finset.mem_insert_self _ _)
      | retract x => exact Finset.notMem_erase _ _ h.2.1

/-- Additions minus retractions of an item. -/
def net (x : α) : List (Op α) → ℤ
  | [] => 0
  | .add y :: ops => (if y = x then 1 else 0) + net x ops
  | .retract y :: ops => net x ops - (if y = x then 1 else 0)

theorem net_append (x : α) (a b : List (Op α)) : net x (a ++ b) = net x a + net x b := by
  induction a with
  | nil => simp [net]
  | cons o a ih => cases o <;> simp only [List.cons_append, net, ih] <;> ring

/-- **On a legal ledger the net count is the change of the holding.** -/
theorem net_eq {S : Finset α} {ops : List (Op α)} (h : Legal S ops) (x : α) :
    net x ops = (if x ∈ held S ops then 1 else 0) - (if x ∈ S then 1 else 0) := by
  induction ops generalizing S with
  | nil => rw [net, held_nil]; split <;> rfl
  | cons o ops ih =>
    cases o with
    | add y =>
      rw [net, ih h.2, held_add]
      by_cases hy : y = x
      · subst hy; simp [h.1]
      · simp [hy, Ne.symm hy]
    | retract y =>
      rw [net, ih h.2, held_retract]
      by_cases hy : y = x
      · subst hy; simp [h.1]
      · simp [hy, Ne.symm hy]

end Ledger
