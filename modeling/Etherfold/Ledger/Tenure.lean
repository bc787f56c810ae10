import Mathlib.Tactic

/-!
# One owner at a time

A store names its owner. An action of a writer may take the store, and does nothing when it
does not take it and another writer owns it. What an action changes it changes as the owner.

* `Superseded`: the writer has owned the store, and later another did.
* `idle_of_superseded`: **a writer that does not take the store back changes nothing any more**.
* `runAll_filter`: **while one writer owns the store, what it holds is that writer's doing**.
-/

namespace Tenure

variable {D T : Type*}

/-- What a writer does to the store, taking it or not. -/
structure Action (D T : Type*) where
  writer : T
  claims : Bool
  run : D → D

/-- What an action must do for its writer's ownership to mean anything. -/
structure Action.Lawful (owner : D → Option T) (a : Action D T) : Prop where
  idle : ∀ d, a.claims = false → owner d ≠ some a.writer → a.run d = d
  owned : ∀ d, a.run d = d ∨ owner (a.run d) = some a.writer

/-- One action after another. -/
def runAll (d : D) (actions : List (Action D T)) : D := actions.foldl (fun d a => a.run d) d

theorem runAll_append (d : D) (as bs : List (Action D T)) : runAll d (as ++ bs) = runAll (runAll d as) bs :=
  List.foldl_append

/-- The writer has owned the store, and later did not. -/
def Superseded (owner : D → Option T) (d : D) (actions : List (Action D T)) (writer : T) : Prop :=
  ∃ j ≤ actions.length, ∃ i ≤ j,
    owner (runAll d (actions.take i)) = some writer ∧ owner (runAll d (actions.take j)) ≠ some writer

instance (owner : D → Option T) (d : D) (actions : List (Action D T)) (writer : T) [DecidableEq T] :
    Decidable (Superseded owner d actions writer) := by
  unfold Superseded
  infer_instance

/-- **No writer takes back a store it has been superseded on.** -/
def Fresh (owner : D → Option T) (d : D) (actions : List (Action D T)) : Prop :=
  ∀ pre a post, actions = pre ++ a :: post → a.claims = true → ¬Superseded owner d pre a.writer

variable {owner : D → Option T} {d : D} {actions : List (Action D T)} {t : T}

theorem Fresh.of_append {bs : List (Action D T)} (h : Fresh owner d (actions ++ bs)) : Fresh owner d actions := by
  intro pre a post heq
  exact h pre a (post ++ bs) (by rw [heq, List.append_assoc, List.cons_append])

theorem fresh_nil : Fresh owner d [] := fun pre a post heq => by
  cases pre <;> cases heq

/-- One action more, by a writer that does not take the store back. -/
theorem Fresh.concat {a : Action D T} (h : Fresh owner d actions)
    (ha : a.claims = true → ¬Superseded owner d actions a.writer) : Fresh owner d (actions ++ [a]) := by
  intro pre b post heq hclaims
  rcases List.eq_nil_or_concat post with rfl | ⟨post, c, rfl⟩
  · obtain ⟨rfl, hab⟩ := List.append_inj' heq rfl
    injection hab with hab
    subst hab
    exact ha hclaims
  · rw [List.concat_eq_append, ← List.cons_append, ← List.append_assoc] at heq
    obtain ⟨rfl, -⟩ := List.append_inj' heq rfl
    exact h pre b post rfl hclaims

/-- What was superseded before the last action, or is by it. -/
theorem superseded_concat {a : Action D T} (h : Superseded owner d (actions ++ [a]) t)
    (hown : owner (runAll d (actions ++ [a])) = some t) : Superseded owner d actions t := by
  obtain ⟨j, hj, i, hi, howned, hlost⟩ := h
  rw [List.length_append, List.length_singleton] at hj
  by_cases hlast : j = actions.length + 1
  · -- the last state is owned
    rw [hlast, List.take_of_length_le (by simp)] at hlost
    exact absurd hown hlost
  · have hjle : j ≤ actions.length := by omega
    rw [List.take_append_of_le_length (by omega)] at howned hlost
    exact ⟨j, hjle, i, hi, howned, hlost⟩

/-- **A superseded writer does not own the store**, as long as none takes it back. -/
theorem not_owner_of_superseded (hlawful : ∀ a ∈ actions, a.Lawful owner) (hfresh : Fresh owner d actions)
    (h : Superseded owner d actions t) : owner (runAll d actions) ≠ some t := by
  induction actions using List.reverseRecOn with
  | nil =>
    obtain ⟨j, hj, i, hi, howned, hlost⟩ := h
    simp only [List.take_nil] at howned hlost
    exact absurd howned hlost
  | append_singleton actions a ih =>
    intro hown
    have hbefore := superseded_concat h hown
    have hnot := ih (fun b hb => hlawful b (List.mem_append_left _ hb)) hfresh.of_append hbefore
    have ha := hlawful a (by simp)
    rw [runAll_append] at hown
    have hrun : runAll (runAll d actions) [a] = a.run (runAll d actions) := rfl
    rw [hrun] at hown
    -- the action changed the owner, so it took the store for itself
    rcases ha.owned (runAll d actions) with hsame | hwriter
    · rw [hsame] at hown
      exact hnot hown
    · rw [hwriter, Option.some.injEq] at hown
      subst hown
      cases hclaims : a.claims with
      | true => exact hfresh actions a [] rfl hclaims hbefore
      | false =>
        rw [ha.idle (runAll d actions) hclaims hnot] at hwriter
        exact hnot hwriter

/-- **What a superseded writer does changes nothing.** -/
theorem idle_of_superseded {a : Action D T} (hlawful : ∀ b ∈ actions ++ [a], b.Lawful owner)
    (hfresh : Fresh owner d (actions ++ [a])) (h : Superseded owner d actions a.writer) :
    a.claims = false ∧ owner (runAll d actions) ≠ some a.writer ∧ a.run (runAll d actions) = runAll d actions := by
  have hnot := not_owner_of_superseded (fun b hb => hlawful b (List.mem_append_left _ hb)) hfresh.of_append h
  have hclaims : a.claims = false := by
    rw [← Bool.not_eq_true]
    exact fun hclaims => hfresh actions a [] rfl hclaims h
  exact ⟨hclaims, hnot, (hlawful a (by simp)).idle _ hclaims hnot⟩

/-- **While one writer owns the store, what it holds is that writer's doing.** -/
theorem runAll_filter [DecidableEq T] (hlawful : ∀ a ∈ actions, a.Lawful owner)
    (howned : ∀ i ≤ actions.length, owner (runAll d (actions.take i)) = some t) :
    runAll d actions = runAll d (actions.filter (·.writer = t)) := by
  induction actions using List.reverseRecOn with
  | nil => rfl
  | append_singleton actions a ih =>
    have hbefore := ih (fun b hb => hlawful b (List.mem_append_left _ hb)) fun i hi => by
      have hi' := howned i (by rw [List.length_append]; omega)
      rw [List.take_append_of_le_length hi] at hi'
      exact hi'
    have hlast := howned (actions ++ [a]).length le_rfl
    rw [List.take_length, runAll_append] at hlast
    rw [runAll_append, List.filter_append, runAll_append, hbefore]
    rw [hbefore] at hlast
    by_cases hwriter : a.writer = t
    · rw [List.filter_singleton, decide_eq_true hwriter, cond_true]
    · rw [List.filter_singleton, decide_eq_false hwriter, cond_false]
      rcases (hlawful a (by simp)).owned (runAll d (actions.filter (·.writer = t))) with hsame | hother
      · exact hsame
      · have hrun : owner (a.run (runAll d (actions.filter (·.writer = t)))) = some t := hlast
        rw [hother, Option.some.injEq] at hrun
        exact absurd hrun hwriter

end Tenure
