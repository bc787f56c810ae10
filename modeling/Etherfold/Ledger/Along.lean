import Mathlib.Data.List.Basic

/-!
# Properties along a run

A run is a list of events, taken one after another from a state.

* `Along`: a property of every event of a run, in the state it is taken in.
* `Along.carry`: **an invariant that each allowed event keeps turns one property into another**.
* `along_iff`: the same for an equivalence.
-/

namespace Run

variable {σ ε : Type*}

/-- **A property of every event of a run**, in the state it is taken in. -/
def Along (next : σ → ε → σ) (P : σ → ε → Prop) : σ → List ε → Prop
  | _, [] => True
  | s, e :: es => P s e ∧ Along next P (next s e) es

instance decidableAlong (next : σ → ε → σ) (P : σ → ε → Prop) [∀ s e, Decidable (P s e)] :
    (s : σ) → (es : List ε) → Decidable (Along next P s es)
  | _, [] => isTrue trivial
  | s, e :: es =>
    have := decidableAlong next P (next s e) es
    inferInstanceAs (Decidable (P s e ∧ Along next P (next s e) es))

variable {next : σ → ε → σ} {P Q : σ → ε → Prop} {I : σ → Prop}

/-- **An invariant that each allowed event keeps.** -/
theorem Along.carry (hstep : ∀ s e, I s → P s e → Q s e ∧ I (next s e)) {s : σ} (hs : I s) {es : List ε}
    (h : Along next P s es) : Along next Q s es := by
  induction es generalizing s with
  | nil => trivial
  | cons e es ih =>
    obtain ⟨hq, hnext⟩ := hstep s e hs h.1
    exact ⟨hq, ih hnext h.2⟩

/-- Two properties that are one in every state the invariant holds in. -/
theorem along_iff (hstep : ∀ s e, I s → (P s e ↔ Q s e)) (hkeep : ∀ s e, I s → Q s e → I (next s e)) {s : σ} (hs : I s)
    (es : List ε) : Along next P s es ↔ Along next Q s es := by
  induction es generalizing s with
  | nil => exact Iff.rfl
  | cons e es ih =>
    refine (and_congr_left' (hstep s e hs)).trans (and_congr_right fun h => ?_)
    exact ih (hkeep s e hs h)

end Run
