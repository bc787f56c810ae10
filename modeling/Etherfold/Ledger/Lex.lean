import Mathlib.Data.List.Lex
import Mathlib.Tactic

/-!
# Comparing lists item by item

A comparison answers a negative number, zero or a positive one. Two lists are compared
by their first items that differ, and by length where one is the beginning of the other.

* `Agrees.compare`: **when items compare as their keys do, lists compare as the lists of
  keys do**, in lexicographic order.
* `Agrees.ranked`, `Agrees.ordered`: a comparison by keys ranks, and by keys of their own is a total order.
* `prefix_between`: **what begins alike stands together**.
-/

namespace Lex

variable {α κ : Type*}

/-- The first difference decides, then the length. -/
def compare (cmp : α → α → ℤ) : List α → List α → ℤ
  | a :: as, b :: bs => if cmp a b = 0 then compare cmp as bs else cmp a b
  | as, bs => as.length - bs.length

/-- A comparison orders items as their keys are ordered. -/
structure Agrees [LinearOrder κ] (cmp : α → α → ℤ) (key : α → κ) : Prop where
  lt : ∀ a b, cmp a b < 0 ↔ key a < key b
  eq : ∀ a b, cmp a b = 0 ↔ key a = key b

variable [LinearOrder κ] {cmp : α → α → ℤ} {key : α → κ}

theorem Agrees.le (h : Agrees cmp key) (a b : α) : cmp a b ≤ 0 ↔ key a ≤ key b := by
  have hlt := h.lt a b
  have heq := h.eq a b
  rw [le_iff_lt_or_eq, le_iff_lt_or_eq, hlt, heq]

/-- **Lists compare as the lists of keys do.** -/
theorem Agrees.compare (h : Agrees cmp key) : Agrees (compare cmp) (List.map key) := by
  have hboth : ∀ as bs : List α, (Lex.compare cmp as bs < 0 ↔ as.map key < bs.map key) ∧
      (Lex.compare cmp as bs = 0 ↔ as.map key = bs.map key) := by
    intro as
    induction as with
    | nil =>
      intro bs
      cases bs with
      | nil => simp [Lex.compare]
      | cons b bs => simp [Lex.compare]; omega
    | cons a as ih =>
      intro bs
      cases bs with
      | nil => simp [Lex.compare]; omega
      | cons b bs =>
        obtain ⟨hlt, heq⟩ := ih bs
        have hab := h.lt a b
        have hab' := h.eq a b
        rw [List.map_cons, List.map_cons, List.cons_lt_cons_iff, List.cons.injEq, Lex.compare]
        by_cases hzero : cmp a b = 0
        · rw [if_pos hzero, hlt, heq]
          have hkey := hab'.1 hzero
          simp [hkey]
        · rw [if_neg hzero]
          have hkey : key a ≠ key b := fun hk => hzero (hab'.2 hk)
          simp [hkey, hzero, hab]
  exact ⟨fun as bs => (hboth as bs).1, fun as bs => (hboth as bs).2⟩

/-- A comparison that ranks: turned around it changes its sign, and it is transitive. -/
structure Ranked (cmp : α → α → ℤ) : Prop where
  swap : ∀ a b, (cmp b a).sign = -(cmp a b).sign
  trans : ∀ a b c, cmp a b ≤ 0 → cmp b c ≤ 0 → cmp a c ≤ 0

/-- **A comparison by keys ranks.** -/
theorem Agrees.ranked (h : Agrees cmp key) : Ranked cmp := by
  refine ⟨fun a b => ?_, fun a b c hab hbc => ?_⟩
  · rw [← Int.sign_neg]
    rcases lt_trichotomy (key a) (key b) with hab | hab | hab
    · have h1 := (h.lt a b).2 hab
      have h2 := (h.le b a).not.2 (not_le.2 hab)
      rw [Int.sign_eq_one_of_pos (by omega), Int.sign_eq_one_of_pos (by omega)]
    · rw [(h.eq a b).2 hab, (h.eq b a).2 hab.symm]
      rfl
    · have h1 := (h.lt b a).2 hab
      have h2 := (h.le a b).not.2 (not_le.2 hab)
      rw [Int.sign_eq_neg_one_of_neg (by omega), Int.sign_eq_neg_one_of_neg (by omega)]
  · exact (h.le a c).2 (((h.le a b).1 hab).trans ((h.le b c).1 hbc))

/-- A comparison that is a total order. -/
structure Ordered (cmp : α → α → ℤ) : Prop where
  eq : ∀ a b, cmp a b = 0 ↔ a = b
  swap : ∀ a b, (cmp b a).sign = -(cmp a b).sign
  trans : ∀ a b c, cmp a b ≤ 0 → cmp b c ≤ 0 → cmp a c ≤ 0

/-- **Comparisons by keys in one order have one sign.** -/
theorem Agrees.sign_eq {β κ' : Type*} [LinearOrder κ'] {cmp' : β → β → ℤ} {key' : β → κ'} (h : Agrees cmp key)
    (h' : Agrees cmp' key') {a b : α} {a' b' : β} (hlt : key a < key b ↔ key' a' < key' b')
    (heq : key a = key b ↔ key' a' = key' b') : (cmp a b).sign = (cmp' a' b').sign := by
  have hneg : cmp a b < 0 ↔ cmp' a' b' < 0 := by rw [h.lt, h'.lt, hlt]
  have hzero : cmp a b = 0 ↔ cmp' a' b' = 0 := by rw [h.eq, h'.eq, heq]
  rcases lt_trichotomy (cmp a b) 0 with hab | hab | hab
  · rw [Int.sign_eq_neg_one_of_neg hab, Int.sign_eq_neg_one_of_neg (hneg.1 hab)]
  · rw [hab, hzero.1 hab]
  · have hpos : 0 < cmp' a' b' := by
      have hnn : ¬cmp' a' b' < 0 := fun hn => by
        have := hneg.2 hn
        omega
      have hnz : cmp' a' b' ≠ 0 := fun hz => by
        have := hzero.2 hz
        omega
      omega
    rw [Int.sign_eq_one_of_pos hab, Int.sign_eq_one_of_pos hpos]

/-- **A comparison by keys of their own is a total order.** -/
theorem Agrees.ordered (h : Agrees cmp key) (hkey : Function.Injective key) : Ordered cmp := by
  refine ⟨fun a b => ?_, h.ranked.swap, h.ranked.trans⟩
  rw [h.eq]
  exact hkey.eq_iff

/-- **What begins alike stands together.** -/
theorem prefix_between {start a b c : List κ} (ha : start <+: a) (hc : start <+: c) (hab : a ≤ b) (hbc : b ≤ c) :
    start <+: b := by
  induction start generalizing a b c with
  | nil => exact List.nil_prefix
  | cons x start ih =>
    obtain ⟨a', rfl⟩ := ha
    obtain ⟨c', rfl⟩ := hc
    cases b with
    | nil => exact absurd (List.nil_lt_cons _ _) (not_lt.2 hab)
    | cons y b =>
      rw [List.cons_append, ← not_lt, List.cons_lt_cons_iff] at hab hbc
      push Not at hab hbc
      obtain rfl : x = y := le_antisymm hab.1 hbc.1
      rw [List.prefix_cons_inj]
      exact ih (List.prefix_append _ _) (List.prefix_append _ _) (hab.2 rfl) (hbc.2 rfl)

end Lex
