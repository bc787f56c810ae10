import Mathlib.Data.List.Lex
import Mathlib.Tactic

/-!
# Codes that keep the order

Each symbol is spelt as a word, and a text as its symbols' words one after another. Where the
words of two symbols differ before either ends, texts are ordered as their spellings are.

* `strictMono_spell`: **spelling keeps the lexicographic order**, and so loses nothing.
* `between_iff_prefix`: what lies between a prefix and the prefix with a last item above all.
* `append_last_lt_iff`, `between_iff_last`: lists that end on an item below all others.
-/

namespace Code

variable {α β : Type*} [LinearOrder α] [LinearOrder β] {code : α → List β}

/-- The words of two symbols differ at some place, and there as the symbols do. -/
def Ascends (code : α → List β) : Prop :=
  ∀ a b, a < b → ∃ p x y s t, code a = p ++ x :: s ∧ code b = p ++ y :: t ∧ x < y

/-- A text, spelt word by word. -/
def spell (code : α → List β) (l : List α) : List β := l.flatMap code

omit [LinearOrder α] [LinearOrder β] in
@[simp] theorem spell_cons (a : α) (l : List α) : spell code (a :: l) = code a ++ spell code l := List.flatMap_cons

/-- A common beginning does not decide. -/
theorem append_lt_append_iff (p l l' : List β) : p ++ l < p ++ l' ↔ l < l' := by
  induction p with
  | nil => rfl
  | cons x p ih => simp [ih]

/-- **Spelling keeps the order.** -/
theorem strictMono_spell (hne : ∀ a, code a ≠ []) (h : Ascends code) : StrictMono (spell code) := by
  intro l l' hlt
  induction l generalizing l' with
  | nil =>
    cases l' with
    | nil => exact absurd hlt (lt_irrefl _)
    | cons b l' =>
      obtain ⟨y, t, hy⟩ := List.exists_cons_of_ne_nil (hne b)
      rw [spell_cons, hy]
      exact List.nil_lt_cons _ _
  | cons a l ih =>
    cases l' with
    | nil => exact absurd hlt (List.not_lt_nil _)
    | cons b l' =>
      rw [spell_cons, spell_cons]
      rcases List.cons_lt_cons_iff.1 hlt with hab | ⟨rfl, hrest⟩
      · obtain ⟨p, x, y, s, t, ha, hb, hxy⟩ := h a b hab
        rw [ha, hb, List.append_assoc, List.append_assoc, append_lt_append_iff]
        exact List.cons_lt_cons_iff.2 (.inl hxy)
      · rw [append_lt_append_iff]
        exact ih hrest

theorem nil_le (l : List β) : [] ≤ l := le_of_not_gt (List.not_lt_nil l)

theorem cons_le_cons_iff {x y : β} {l l' : List β} : x :: l ≤ y :: l' ↔ x < y ∨ x = y ∧ l ≤ l' := by
  rw [le_iff_lt_or_eq, le_iff_lt_or_eq, List.cons_lt_cons_iff, List.cons.injEq]
  tauto

/-- **Between a prefix and the prefix with a last item above all** lies what starts with it. -/
theorem between_iff_prefix {top : β} (p k : List β) (hk : ∀ x ∈ k, x < top) :
    p ≤ k ∧ k ≤ p ++ [top] ↔ p <+: k := by
  induction p generalizing k with
  | nil =>
    refine ⟨fun _ => List.nil_prefix, fun _ => ⟨nil_le k, ?_⟩⟩
    cases k with
    | nil => exact nil_le _
    | cons x k => exact cons_le_cons_iff.2 (.inl (hk x List.mem_cons_self))
  | cons a p ih =>
    cases k with
    | nil => simp
    | cons x k =>
      have hrest := ih k fun y hy => hk y (List.mem_cons_of_mem _ hy)
      rw [List.cons_append, cons_le_cons_iff, cons_le_cons_iff, List.cons_prefix_cons, ← hrest]
      constructor
      · rintro ⟨hax | ⟨hax, hle⟩, hxa | ⟨hxa, hle'⟩⟩
        · exact absurd hxa hax.asymm
        · exact absurd hax (hxa ▸ lt_irrefl _)
        · exact absurd hxa (hax ▸ lt_irrefl _)
        · exact ⟨hax, hle, hle'⟩
      · rintro ⟨rfl, hle, hle'⟩
        exact ⟨.inr ⟨rfl, hle⟩, .inr ⟨rfl, hle'⟩⟩

/-- Lists that end on an item below all others are ordered by what comes before it. -/
theorem append_last_lt_iff {x y : β} (r r' : List β) (hr : ∀ z ∈ r, y < z) (hr' : ∀ z ∈ r', x < z) :
    r ++ [x] < r' ++ [y] ↔ r < r' ∨ r = r' ∧ x < y := by
  induction r generalizing r' with
  | nil =>
    cases r' with
    | nil => simp [List.cons_lt_cons_iff]
    | cons b r' =>
      have hlt : x < b := hr' b List.mem_cons_self
      simp [List.cons_lt_cons_iff, hlt]
  | cons a r ih =>
    cases r' with
    | nil =>
      have hlt : y < a := hr a List.mem_cons_self
      simp [List.cons_lt_cons_iff, hlt.asymm, hlt.ne']
    | cons b r' =>
      have hrest := ih r' (fun z hz => hr z (List.mem_cons_of_mem _ hz)) fun z hz => hr' z (List.mem_cons_of_mem _ hz)
      rw [List.cons_append, List.cons_append, List.cons_lt_cons_iff, List.cons_lt_cons_iff, hrest, List.cons.injEq]
      tauto

/-- **Between a list and the list with one last item** lies what has a lower last item. -/
theorem between_iff_last {x y : β} (r r' : List β) (hr : ∀ z ∈ r, x < z ∧ y < z) (hr' : ∀ z ∈ r', y < z) :
    r ≤ r' ++ [x] ∧ r' ++ [x] ≤ r ++ [y] ↔ r' = r ∧ x ≤ y := by
  induction r generalizing r' with
  | nil =>
    cases r' with
    | nil => simp [List.cons_lt_cons_iff, le_iff_lt_or_eq]
    | cons b r' =>
      have hlt : y < b := hr' b List.mem_cons_self
      simp [cons_le_cons_iff, hlt.asymm, hlt.ne']
  | cons a r ih =>
    cases r' with
    | nil =>
      have hlt : x < a := (hr a List.mem_cons_self).1
      simp [cons_le_cons_iff, hlt.asymm, hlt.ne']
    | cons b r' =>
      have hrest := ih r' (fun z hz => hr z (List.mem_cons_of_mem _ hz)) fun z hz => hr' z (List.mem_cons_of_mem _ hz)
      rw [List.cons_append, List.cons_append, cons_le_cons_iff, cons_le_cons_iff, List.cons.injEq, and_assoc, ← hrest]
      constructor
      · rintro ⟨hab | ⟨hab, hle⟩, hba | ⟨hba, hle'⟩⟩
        · exact absurd hba hab.asymm
        · exact absurd hab (hba ▸ lt_irrefl _)
        · exact absurd hba (hab ▸ lt_irrefl _)
        · exact ⟨hba, hle, hle'⟩
      · rintro ⟨rfl, hle, hle'⟩
        exact ⟨.inr ⟨rfl, hle⟩, .inr ⟨rfl, hle'⟩⟩

end Code
