import Etherfold.Signal.Action

/-!
# Actions over whole runs

* `Kept.harmless`: a step that keeps the promises does no harm.
* `serialises_iff`: **an action keeps its promises exactly while nothing goes wrong behind a queued
  execution**, no executor throws before it returns, and none is started while one that was cancelled
  still runs.
* `queued_stays_busy`: what a queued execution leaves.
-/

namespace Etherfold

namespace ActionState

variable {s s' : ActionState} {e : ActionEvent} {answer : ActionAnswer}

/-! ### What harm a step does -/

/-- A started execution that throws leaves an action that looks busy. -/
theorem Spare.looks_busy {t : ActionState} (h : t.Spare) (mode : ExecuteMode) : ¬Serialises (t.begin mode true).1 := by
  intro hs
  have hidle : (t.begin mode true).1.Idle := by
    refine ⟨fun j hj hrun => ?_, rfl⟩
    have hj : j < t.count + 1 := hj
    have hrun : ((t.create mode true).exec j).running = true := hrun
    show ((t.create mode true).exec j).cancelled = true
    by_cases hnew : j = t.count
    · rw [hnew, create_new] at hrun
      cases hrun
    · rw [create_old (by omega)] at hrun ⊢
      exact h.cancelled j (by omega) hrun
  have hnone := hs.executing_iff.2 hidle
  have hself : (t.begin mode true).1.exec t.count = ⟨mode, false, false, false, some false⟩ := create_new t mode true
  unfold executing at hnone
  rw [show (t.begin mode true).1.slot = .own t.count from rfl] at hnone
  dsimp only at hnone
  rw [hself] at hnone
  cases hnone

theorem Kept.harm_call (h : Kept s) {mode : ExecuteMode} {throws : Bool}
    (hhonours : Honours s (.call mode throws) (s.call mode throws).1 (s.call mode throws).2)
    (hserialises : Serialises (s.call mode throws).1) : s.Meets (.call mode throws) := by
  intro hstarts
  rcases call_cases s mode throws with ⟨-, t, hcall, hcount, hspare⟩ | ⟨hnot, -⟩ | ⟨hnot, -⟩
  · have ht : t.Spare := by
      rcases hspare with ⟨rfl, hfree⟩ | ⟨-, i, hslot, rfl⟩
      · exact h.spare hfree
      · exact h.cancelExecution hslot
    rw [hcall] at hhonours hserialises
    have hthrows : throws = false := by
      cases throws with
      | true => exact absurd hserialises (ht.looks_busy mode)
      | false => rfl
    refine ⟨hthrows, ?_⟩
    have hquiet : mode ≠ .force → s.Quiet := by
      intro hmode i hi himode
      -- no call but `now` touches what is there
      obtain rfl : t = s := by
        rcases hspare with ⟨hsame, -⟩ | ⟨hforce, -⟩
        · exact hsame
        · exact absurd hforce hmode
      by_contra hrun
      have hrun : (t.exec i).running = true := by simpa using hrun
      have hserial := hserialises.serial i (Nat.lt_succ_of_lt hi) t.count (Nat.lt_succ_self _) (by omega)
      have hnew : (t.begin mode throws).1.exec t.count = _ := create_new t mode throws
      have hold : (t.begin mode throws).1.exec i = t.exec i := create_old hi
      rw [hnew, hold, hthrows] at hserial
      have hstill := hserial himode hmode hrun
      cases hstill
    cases mode with
    | force => exact trivial
    | wait => exact hquiet (by simp)
    | once => exact hquiet (by simp)
    | queue =>
      intro i hi
      by_contra hrun
      have hsame := hhonours.nexts throws rfl ⟨i, hi, by simpa using hrun⟩
      have hmore : (t.begin .queue throws).1.count = t.count + 1 := rfl
      omega
  · exact absurd hstarts hnot
  · exact absurd hstarts hnot

theorem Kept.harm_settle (h : Kept s) {i : ℕ} {ok : Bool} (hi : i < s.count) (hrun : (s.exec i).running = true)
    (hserialises : Serialises (s.settle i ok)) : s.Meets (.settle i ok) := by
  intro base started waiting hslot hcur
  have hs := h.slot
  rw [hslot] at hs
  obtain ⟨-, -, -, hothers, huncancelled, -⟩ := hs
  rw [← hcur] at hothers huncancelled
  have hcompleted := (h.fine i hi).runs hrun
  have hself : (s.settle i ok).exec i = { s.exec i with running := false, completed := true, outcome := some ok } := by
    unfold ActionState.settle
    dsimp only
    rw [Function.update_self, hcompleted, huncancelled]
    rfl
  have hheld : (s.settle i ok).slot = .chained base started waiting := hslot
  have hpos : 0 < waiting := by
    by_contra hzero
    have hidle : (s.settle i ok).Idle := by
      refine ⟨fun j hj hjrun => ?_, ?_⟩
      · by_cases hji : j = i
        · rw [hji, hself] at hjrun
          cases hjrun
        · have hold : (s.settle i ok).exec j = s.exec j := Function.update_of_ne hji _ _
          rw [hold] at hjrun ⊢
          exact hothers j hj hji hjrun
      · unfold queuedCount
        rw [hheld]
        show waiting = 0
        omega
    have hnone := hserialises.executing_iff.2 hidle
    unfold executing at hnone
    rw [hheld] at hnone
    cases hnone
  refine ⟨hpos, ?_⟩
  cases ok with
  | true => rfl
  | false =>
    obtain ⟨n, rfl⟩ : ∃ n, waiting = n + 1 := ⟨waiting - 1, by omega⟩
    have hdue := hserialises.due base started n hheld (by rw [← hcur, hself]) false
    unfold ActionState.step at hdue
    rw [hheld] at hdue
    dsimp only at hdue
    rw [← hcur, hself] at hdue
    cases hdue

theorem Kept.harm_react (h : Kept s) {throws : Bool} {base waiting : ℕ} {started : List ℕ}
    (hslot : s.slot = .chained base started (waiting + 1)) (hresolved : (s.exec (predecessor base started)).outcome = some true)
    (hserialises : Serialises { s.create .queue throws with slot := .chained base (started ++ [s.count]) waiting }) :
    s.Meets (.react throws) := by
  set s' : ActionState := { s.create .queue throws with slot := .chained base (started ++ [s.count]) waiting } with hs'
  have hs := h.slot
  rw [hslot] at hs
  obtain ⟨hin, -, -, hothers, huncancelled, -⟩ := hs
  have hended : (s.exec (predecessor base started)).running = false := by
    by_contra hrun
    have hp := (h.fine _ (hin _ (predecessor_mem base started))).pending (by simpa using hrun) huncancelled
    rw [hresolved] at hp
    cases hp
  have hnew : s'.exec s.count = ⟨.queue, !throws, false, false, if throws then some false else none⟩ :=
    create_new s .queue throws
  have hold : ∀ j < s.count, s'.exec j = s.exec j := fun j hj => create_old hj
  have hlast : predecessor base (started ++ [s.count]) = s.count := by simp [predecessor]
  have hthrows : throws = false := by
    cases throws with
    | false => rfl
    | true =>
      exfalso
      cases waiting with
      | zero =>
        have hidle : s'.Idle := by
          refine ⟨fun j hj hrun => ?_, rfl⟩
          have hj : j < s.count + 1 := hj
          by_cases hjnew : j = s.count
          · rw [hjnew, hnew] at hrun
            cases hrun
          · rw [hold j (by omega)] at hrun ⊢
            by_cases hcur : j = predecessor base started
            · rw [hcur, hended] at hrun
              cases hrun
            · exact hothers j (by omega) hcur hrun
        have hnone := hserialises.executing_iff.2 hidle
        cases hnone
      | succ n =>
        have hdue := hserialises.due base (started ++ [s.count]) n rfl (by rw [hlast, hnew]; rfl) false
        unfold ActionState.step at hdue
        rw [show s'.slot = .chained base (started ++ [s.count]) (n + 1) from rfl] at hdue
        dsimp only at hdue
        rw [hlast, hnew] at hdue
        cases hdue
  refine ⟨hthrows, fun i hi himode => ?_⟩
  by_contra hrun
  have hserial := hserialises.serial i (Nat.lt_succ_of_lt hi) s.count (Nat.lt_succ_self _) (by omega)
  rw [hold i hi, hnew, hthrows] at hserial
  have hstill := hserial himode (by simp) (by simpa using hrun)
  cases hstill

/-- **A step that keeps the promises does no harm.** -/
theorem Kept.harmless (h : Kept s) (hstep : s.step e = some (s', answer)) (hhonours : Honours s e s' answer)
    (hserialises : Serialises s') : s.Meets e := by
  have hchained : ∀ base started waiting, s.slot = .chained base started waiting → s.cancelSlot = none := by
    intro base started waiting hslot
    unfold ActionState.cancelSlot
    rw [hslot]
  cases e with
  | call mode throws =>
    unfold ActionState.step at hstep
    rw [Option.some.injEq, Prod.ext_iff] at hstep
    obtain ⟨rfl, rfl⟩ := hstep
    exact h.harm_call hhonours hserialises
  | cancel =>
    intro base started waiting hslot
    unfold ActionState.step at hstep
    dsimp only at hstep
    rw [hchained base started waiting hslot] at hstep
    simp only [Option.some.injEq, Prod.mk.injEq] at hstep
    exact hhonours.quiet (by simp) hstep.2.symm
  | block =>
    intro base started waiting hslot
    unfold ActionState.step at hstep
    dsimp only at hstep
    rw [hchained base started waiting hslot] at hstep
    simp only [Option.some.injEq, Prod.mk.injEq] at hstep
    exact hhonours.quiet (by simp) hstep.2.symm
  | unblock => exact trivial
  | reset =>
    intro base started waiting hslot
    unfold ActionState.step at hstep
    dsimp only at hstep
    rw [hchained base started waiting hslot] at hstep
    simp only [Option.some.injEq, Prod.mk.injEq] at hstep
    exact hhonours.quiet (by simp) hstep.2.symm
  | settle i ok =>
    unfold ActionState.step at hstep
    dsimp only at hstep
    split at hstep
    · rename_i henabled
      simp only [Option.some.injEq, Prod.mk.injEq] at hstep
      obtain ⟨rfl, rfl⟩ := hstep
      exact h.harm_settle henabled.1 henabled.2 hserialises
    · cases hstep
  | react throws =>
    unfold ActionState.step at hstep
    dsimp only at hstep
    split at hstep
    · rename_i base started waiting hslot
      split at hstep
      · rename_i hresolved
        simp only [Option.some.injEq, Prod.mk.injEq] at hstep
        obtain ⟨rfl, rfl⟩ := hstep
        exact h.harm_react hslot hresolved hserialises
      · cases hstep
    · cases hstep

/-! ### Whole runs -/

/-- What holds of every step of a run. -/
def AllSteps (events : List ActionEvent) (p : ActionState → ActionEvent → ActionState → ActionAnswer → Prop) : Prop :=
  ∀ before e after, events = before ++ e :: after → ∀ s s' answer, run before = some s → s.step e = some (s', answer) →
    p s e s' answer

theorem run_concat (events : List ActionEvent) (e : ActionEvent) :
    run (events ++ [e]) = (run events).bind fun s => (s.step e).map Prod.fst := by
  unfold run
  rw [List.foldlM_append]
  cases List.foldlM (fun s e => (step s e).map Prod.fst) initial events with
  | none => rfl
  | some s => simp

theorem allSteps_concat {events : List ActionEvent} {p : ActionState → ActionEvent → ActionState → ActionAnswer → Prop} :
    AllSteps (events ++ [e]) p ↔ AllSteps events p ∧
      ∀ s s' answer, run events = some s → s.step e = some (s', answer) → p s e s' answer := by
  constructor
  · intro h
    refine ⟨fun before e' after heq => ?_, h events e [] rfl⟩
    exact h before e' (after ++ [e]) (by rw [heq]; simp)
  · intro h before e' after heq
    rcases after.eq_nil_or_concat with rfl | ⟨after, last, rfl⟩
    · obtain ⟨rfl, hlast⟩ := List.append_inj' heq rfl
      rw [List.singleton_inj] at hlast
      exact hlast ▸ h.2
    · rw [List.concat_eq_append, ← List.cons_append, ← List.append_assoc] at heq
      exact h.1 before e' after (List.append_inj' heq rfl).1

/-- **A run that does no harm keeps its state.** -/
theorem run_kept {events : List ActionEvent} (hmeets : AllSteps events fun s e _ _ => s.Meets e)
    (hrun : run events = some s) : Kept s := by
  induction events using List.reverseRecOn generalizing s with
  | nil =>
    obtain rfl : initial = s := by simpa [run] using hrun
    exact initial_kept
  | append_singleton events e ih =>
    obtain ⟨hbefore, hlast⟩ := allSteps_concat.1 hmeets
    rw [run_concat] at hrun
    cases hprev : run events with
    | none =>
      rw [hprev] at hrun
      cases hrun
    | some t =>
      rw [hprev, Option.bind_some] at hrun
      cases hstep : t.step e with
      | none =>
        rw [hstep] at hrun
        cases hrun
      | some r =>
        obtain ⟨t', answer⟩ := r
        rw [hstep, Option.map_some, Option.some.injEq] at hrun
        exact hrun ▸ ((ih hbefore hprev).step (hlast t t' answer hprev hstep) hstep).1

/-- **When an action serialises its executions.** In every run, every call and every state reached keep
what is promised if and only if every step does no harm: no executor throws before it returns; nothing
is started while an execution that was cancelled still runs; and once an execution is queued behind a
running one, no call cancels, blocks or resets, none of the queue is rejected before another, and the
queue never runs dry. -/
theorem serialises_iff (events : List ActionEvent) :
    (Serialises initial ∧ AllSteps events fun s e s' answer => Honours s e s' answer ∧ Serialises s') ↔
      AllSteps events fun s e _ _ => s.Meets e := by
  have hinitial : Serialises initial := initial_kept.serialises
  induction events using List.reverseRecOn with
  | nil =>
    constructor
    · intro _ before e after heq
      simp at heq
    · intro _
      refine ⟨hinitial, fun before e after heq => ?_⟩
      simp at heq
  | append_singleton events e ih =>
    rw [allSteps_concat, allSteps_concat]
    constructor
    · intro h
      have hbefore := ih.1 ⟨hinitial, h.2.1⟩
      refine ⟨hbefore, fun s s' answer hrun hstep => ?_⟩
      obtain ⟨hhonours, hserialises⟩ := h.2.2 s s' answer hrun hstep
      exact (run_kept hbefore hrun).harmless hstep hhonours hserialises
    · intro h
      refine ⟨hinitial, (ih.2 h.1).2, fun s s' answer hrun hstep => ?_⟩
      obtain ⟨hkept, hhonours⟩ := (run_kept h.1 hrun).step (h.2 s s' answer hrun hstep) hstep
      exact ⟨hhonours, hkept.serialises⟩

/-- One execution queued behind another, both done: the action looks busy for ever, joins what is over
and cannot be cancelled. And one queued behind an execution that is rejected never starts. -/
theorem queued_stays_busy :
    (∃ s, run [.call .queue false, .call .queue false, .settle 0 true, .react false, .settle 1 true] = some s ∧
      s.Idle ∧ s.executing = some (.queued 0) ∧ (s.call .wait false).2 = .queued 0 ∧
      (s.step .cancel).map Prod.snd = some .notAFunction ∧ ¬Serialises s) ∧
    ∃ s, run [.call .queue false, .call .queue false, .settle 0 false] = some s ∧ s.queuedCount = 1 ∧
      (s.step (.react false)).isNone := by
  constructor
  · refine ⟨_, rfl, ?_, rfl, rfl, rfl, fun h => ?_⟩
    · exact ⟨by decide, rfl⟩
    · have hnone := h.executing_iff.2 ⟨by decide, rfl⟩
      cases hnone
  · exact ⟨_, rfl, rfl, rfl⟩

end ActionState

end Etherfold
