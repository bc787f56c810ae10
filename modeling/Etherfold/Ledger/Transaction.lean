import Mathlib.Tactic

/-!
# Transactions that are lists of steps

A transaction is a list of steps prepared beforehand. Each step sees what the steps before it
left, answers something, and may fail; a failure takes back everything.

* `batch_append`: a transaction runs in two parts as it runs whole.
* `batch_of_idle`: **steps that do nothing make a transaction that does nothing**.
* `batch_keeps`: what every step keeps the transaction keeps.
-/

namespace Transaction

variable {S D E R α : Type*} {execute : S → D → Except E (R × D)} {d d' : D}

/-- The steps one after another; the answers in their order. -/
def batch (execute : S → D → Except E (R × D)) : List S → D → Except E (List R × D)
  | [], d => .ok ([], d)
  | s :: rest, d =>
    match execute s d with
    | .error e => .error e
    | .ok (r, d) =>
      match batch execute rest d with
      | .error e => .error e
      | .ok (rs, d) => .ok (r :: rs, d)

/-- A transaction as its caller sees it: a failed one has not happened. -/
def commit (execute : S → D → Except E (R × D)) (steps : List S) (d : D) : Except E (List R) × D :=
  match batch execute steps d with
  | .error e => (.error e, d)
  | .ok (rs, d) => (.ok rs, d)

theorem batch_cons_ok {s : S} {steps : List S} {r : R} {rs : List R} {d'' : D} (h : execute s d = .ok (r, d'))
    (hrest : batch execute steps d' = .ok (rs, d'')) : batch execute (s :: steps) d = .ok (r :: rs, d'') := by
  unfold batch
  rw [h]
  dsimp only
  rw [hrest]

theorem batch_cons_error {s : S} {e : E} (h : execute s d = .error e) (steps : List S) :
    batch execute (s :: steps) d = .error e := by
  unfold batch
  rw [h]

/-- **A transaction runs in two parts as it runs whole.** -/
theorem batch_append {first rest : List S} {rs rs' : List R} {d'' : D} (h : batch execute first d = .ok (rs, d'))
    (hrest : batch execute rest d' = .ok (rs', d'')) : batch execute (first ++ rest) d = .ok (rs ++ rs', d'') := by
  induction first generalizing d rs with
  | nil =>
    cases h
    exact hrest
  | cons s first ih =>
    unfold batch at h
    split at h
    · cases h
    rename_i r d₁ hs
    split at h
    · cases h
    rename_i rs₁ d₂ hfirst
    cases h
    exact batch_cons_ok hs (ih hfirst)

theorem batch_append_error {first rest : List S} {rs : List R} {e : E} (h : batch execute first d = .ok (rs, d'))
    (hrest : batch execute rest d' = .error e) : batch execute (first ++ rest) d = .error e := by
  induction first generalizing d rs with
  | nil =>
    cases h
    exact hrest
  | cons s first ih =>
    unfold batch at h
    split at h
    · cases h
    rename_i r d₁ hs
    split at h
    · cases h
    rename_i rs₁ d₂ hfirst
    cases h
    rw [List.cons_append]
    unfold batch
    rw [hs]
    dsimp only
    rw [ih hfirst]

/-- What fails before the end fails. -/
theorem batch_error_append {first : List S} {e : E} (h : batch execute first d = .error e) (rest : List S) :
    batch execute (first ++ rest) d = .error e := by
  induction first generalizing d with
  | nil => cases h
  | cons s first ih =>
    unfold batch at h
    split at h
    · rename_i e' hs
      cases h
      exact batch_cons_error hs _
    · rename_i r d₁ hs
      split at h
      · rename_i e' hfirst
        cases h
        rw [List.cons_append]
        unfold batch
        rw [hs]
        dsimp only
        rw [ih hfirst]
      · cases h

/-- A transaction that runs whole runs in two parts. -/
theorem batch_split {first rest : List S} {rs : List R} {d'' : D}
    (h : batch execute (first ++ rest) d = .ok (rs, d'')) :
    ∃ rs₁ d' rs₂, batch execute first d = .ok (rs₁, d') ∧ batch execute rest d' = .ok (rs₂, d'') := by
  cases hfirst : batch execute first d with
  | error e =>
    rw [batch_error_append hfirst] at h
    cases h
  | ok p =>
    obtain ⟨rs₁, d'⟩ := p
    cases hrest : batch execute rest d' with
    | ok p =>
      obtain ⟨rs₂, d₂⟩ := p
      have hboth := batch_append hfirst hrest
      rw [h] at hboth
      cases hboth
      exact ⟨rs₁, d', rs₂, rfl, hrest⟩
    | error e =>
      rw [batch_append_error hfirst hrest] at h
      cases h

/-- **Steps that do nothing make a transaction that does nothing.** -/
theorem batch_of_idle {steps : List S} {r : R} (h : ∀ s ∈ steps, execute s d = .ok (r, d)) :
    batch execute steps d = .ok (steps.map fun _ => r, d) := by
  induction steps with
  | nil => rfl
  | cons s steps ih =>
    exact batch_cons_ok (h s List.mem_cons_self) (ih fun s' hs' => h s' (List.mem_cons_of_mem _ hs'))

/-- Steps that answer and do nothing. -/
theorem batch_of_reads {steps : List S} (h : ∀ s ∈ steps, ∃ r, execute s d = .ok (r, d)) :
    ∃ rs, batch execute steps d = .ok (rs, d) := by
  induction steps with
  | nil => exact ⟨[], rfl⟩
  | cons s steps ih =>
    obtain ⟨r, hr⟩ := h s List.mem_cons_self
    obtain ⟨rs, hrs⟩ := ih fun s' hs' => h s' (List.mem_cons_of_mem _ hs')
    exact ⟨r :: rs, batch_cons_ok hr hrs⟩

/-- What every step keeps the transaction keeps. -/
theorem batch_keeps {steps : List S} {f : D → α} (h : ∀ s ∈ steps, ∀ d r d', execute s d = .ok (r, d') → f d' = f d)
    {rs : List R} (hok : batch execute steps d = .ok (rs, d')) : f d' = f d := by
  induction steps generalizing d rs with
  | nil =>
    cases hok
    rfl
  | cons s steps ih =>
    unfold batch at hok
    split at hok
    · cases hok
    rename_i r d₁ hs
    split at hok
    · cases hok
    rename_i rs₁ d₂ hrest
    cases hok
    rw [ih (fun s' hs' => h s' (List.mem_cons_of_mem _ hs')) hrest, h s List.mem_cons_self d r d₁ hs]

end Transaction
