import Etherfold.Host.Driver

/-!
# A stop that has answered

A stop takes back the flag that says the host indexes when it goes on, whoever went on before it.
`Truthful` says what a host's answers promise, `Orderly` that no call is issued between a call of the
other kind and its answer, where that call may still undo it.

* `Ordered.step`: **in orderly runs the answers hold**.
* `Sound.misleads`: every call out of order may end in an answer that does not.
* `answers_true`: both, over whole runs.
-/

namespace Etherfold

namespace Driving

/-- **What a host reports and its answers promise.** A start or a stop holds until a call of the other
kind is issued. -/
structure Truthful (s : DriverState) : Prop where
  one : s.drivers.length ≤ 1
  indexing : s.indexing = true ↔ s.drivers ≠ []
  stopped : ∀ call ∈ s.answered, call.kind = .stop → ¬Superseded s .start call → s.drivers = []
  started : ∀ call ∈ s.answered, call.kind = .start → ¬Superseded s .stop call → s.drivers ≠ [] ∨ s.failed = true

/-- A stop is issued while no start has still to go on, and a start that starts a driver at once
while no stop has. -/
def Orderly (s : DriverState) : DriverEvent → Prop
  | .stop => ∀ call ∈ s.pending, call.kind ≠ .start
  | .start => s.driving = none → ∀ call ∈ s.ready, call.kind ≠ .stop
  | _ => True

/-- Every step of a run is orderly. -/
def OrderlyRun : DriverState → List DriverEvent → Prop
  | _, [] => True
  | s, event :: events => Orderly s event ∧ ∀ s', s.step event = some s' → OrderlyRun s' events

/-- What holds of a host all of whose calls came in order. -/
structure Ordered (s : DriverState) : Prop where
  indexing : s.indexing = true ↔ s.drivers ≠ []
  stopped : ∀ call ∈ s.answered, call.kind = .stop →
    Superseded s .start call ∨ (s.drivers = [] ∧ ∀ c ∈ s.ready, c.kind ≠ .start)
  /-- what stops goes on before what starts -/
  behind : ∀ x ∈ s.pending, x.kind = .stop → ∀ y ∈ s.pending, y.kind = .start → x.number < y.number
  busy : s.drivers ≠ [] → ∀ call ∈ s.ready, call.kind ≠ .stop

variable {s s' : DriverState}

theorem ordered_served (election : Bool) : Ordered (DriverState.served election) := by
  refine ⟨?_, ?_, ?_, ?_⟩ <;> simp [DriverState.served, DriverState.pending]

/-- A call that has still to go on holds the calls of the other kind before it, by its place. -/
theorem Sound.pending_taken (h : Sound s) {call : DriverCall} {ready : List DriverCall} (hready : s.ready = call :: ready) :
    s.pending = call :: { s with ready := ready }.pending ∧
      ∀ c ∈ { s with ready := ready }.pending, call.number < c.number := by
  have hpending : s.pending = call :: { s with ready := ready }.pending := by simp [DriverState.pending, hready]
  have hturn := h.inTurn
  rw [hpending] at hturn
  exact ⟨hpending, (List.pairwise_cons.1 hturn).1⟩

/-- A driver is started. -/
theorem Ordered.drive (h : Ordered s) (hsound : Sound s) (hidle : s.driving = none)
    (hready : ∀ call ∈ s.ready, call.kind ≠ .stop) {call : DriverCall} (hkind : call.kind = .start)
    (hsuperseded : ∀ c ∈ s.answered, c.kind = .stop → Superseded s .start c) : Ordered (s.drive.answer call) := by
  have hnone := hsound.idle hidle
  have hpending : (s.drive.answer call).pending = s.pending := by
    simp [DriverState.pending, DriverState.drive, DriverState.answer, hnone]
  have hruns : (s.drive.answer call).drivers ≠ [] := by simp [DriverState.drive, DriverState.answer]
  refine ⟨⟨fun _ => hruns, fun _ => rfl⟩, fun c hc hstop => ?_, ?_, fun _ => hready⟩
  · rcases List.mem_cons.1 hc with rfl | hc
    · simp [hkind] at hstop
    · exact .inl (hsuperseded c hc hstop)
  · rw [hpending]
    exact h.behind

/-- A start that finds a driver leaves it. -/
theorem Ordered.answer (h : Ordered s) {call : DriverCall} (hkind : call.kind = .start) : Ordered (s.answer call) := by
  refine ⟨h.indexing, fun c hc hstop => ?_, h.behind, h.busy⟩
  rcases List.mem_cons.1 hc with rfl | hc
  · simp [hkind] at hstop
  · exact h.stopped c hc hstop

theorem Ordered.issue_start (h : Ordered s) (hsound : Sound s) : Ordered (s.issue .start).1 :=
  ⟨h.indexing, fun c hc _ => .inl (hsound.supersedes .start (hsound.answered c hc)), h.behind, h.busy⟩

theorem Ordered.issue_stop (h : Ordered s) : Ordered ({ s with stopRequested := true }.issue .stop).1 := by
  refine ⟨h.indexing, fun c hc hstop => ?_, h.behind, h.busy⟩
  rcases h.stopped c hc hstop with ⟨later, hin, hkind, hlt⟩ | hidle
  · exact .inl ⟨later, List.mem_append_left _ hin, hkind, hlt⟩
  · exact .inr hidle

/-- A call awaits the driver, behind every call of the other kind that it must not overtake. -/
theorem Ordered.awaits (h : Ordered s) (hsound : Sound s) {d : ℕ} (hdriving : s.driving = some d) {call : DriverCall}
    (hlast : ∀ c ∈ s.pending, c.number < call.number)
    (hbehind : call.kind = .stop → ∀ c ∈ s.pending, c.kind ≠ .start) : Ordered (s.awaits d call) := by
  obtain ⟨driver, hone, hnumber⟩ := hsound.one hdriving
  have hpending := pending_awaits hone hnumber call
  have hruns : s.drivers ≠ [] := by simp [hone]
  have hruns' : (s.awaits d call).drivers ≠ [] := by simp [DriverState.awaits, hone]
  refine ⟨?_, fun c hc hstop => ?_, ?_, fun _ => h.busy hruns⟩
  · have hindexing := h.indexing
    simp only [hruns, ne_eq, not_false_eq_true, iff_true] at hindexing
    exact ⟨fun _ => hruns', fun _ => hindexing⟩
  · rcases h.stopped c hc hstop with hsup | ⟨hidle, -⟩
    · exact .inl hsup
    · exact absurd hidle hruns
  · rw [hpending]
    intro x hx hstop y hy hstart
    rcases List.mem_append.1 hx with hx | hx
    · rcases List.mem_append.1 hy with hy | hy
      · exact h.behind x hx hstop y hy hstart
      · rw [List.mem_singleton.1 hy]
        exact hlast x hx
    · obtain rfl := List.mem_singleton.1 hx
      rcases List.mem_append.1 hy with hy | hy
      · exact absurd hstart (hbehind hstop y hy)
      · obtain rfl := List.mem_singleton.1 hy
        simp [hstop] at hstart

theorem Ordered.startIndexing (h : Ordered s) (hsound : Sound s) (horderly : Orderly s .start) : Ordered s.startIndexing := by
  have hissued := h.issue_start hsound
  have hsound' := hsound.issue .start
  cases hdriving : s.driving with
  | none =>
    rw [startIndexing_now (.inl hdriving), startNow_idle (s := (s.issue .start).1) hdriving]
    exact hissued.drive hsound' hdriving (horderly hdriving) rfl fun c hc _ => hsound.supersedes .start (hsound.answered c hc)
  | some d =>
    cases hstop : s.stopRequested with
    | true =>
      rw [startIndexing_waits hdriving hstop]
      exact hissued.awaits hsound' hdriving (fun c hc => hsound.numbered c (hsound.pending c hc)) (by simp)
    | false =>
      rw [startIndexing_now (.inr hstop), startNow_driving (s := (s.issue .start).1) hdriving]
      exact hissued.answer rfl

theorem Ordered.stopIndexing (h : Ordered s) (hsound : Sound s) (horderly : Orderly s .stop) : Ordered s.stopIndexing := by
  have hissued := h.issue_stop
  cases hdriving : s.driving with
  | none =>
    have hnone := hsound.idle hdriving
    rw [stopIndexing_now hdriving]
    refine ⟨?_, fun c hc hstop => ?_, hissued.behind, hissued.busy⟩
    · simp [DriverState.stopNow, DriverState.answer, DriverState.issue, hnone]
    · rcases List.mem_cons.1 hc with rfl | hc
      · exact .inr ⟨hnone, fun x hx => horderly x (List.mem_append_left _ hx)⟩
      · exact hissued.stopped c hc hstop
  | some d =>
    rw [stopIndexing_waits hdriving]
    exact hissued.awaits hsound.issue_stop hdriving (fun c hc => hsound.numbered c (hsound.pending c hc))
      fun _ => horderly

theorem Ordered.resume (h : Ordered s) (hsound : Sound s) (hstep : s.resume = some s') : Ordered s' := by
  unfold DriverState.resume at hstep
  split at hstep
  · simp at hstep
  · rename_i call ready hready
    obtain ⟨htaken, hcall⟩ := hsound.taken hready
    obtain ⟨hpending, hfirst⟩ := hsound.pending_taken hready
    have hin : call ∈ s.pending := by
      rw [hpending]
      exact List.mem_cons_self
    have hlater : ∀ c ∈ ready, c ∈ ({ s with ready := ready } : DriverState).pending :=
      fun c hc => List.mem_append_left _ hc
    have hold : ∀ c ∈ ({ s with ready := ready } : DriverState).pending, c ∈ s.pending := by
      intro c hc
      rw [hpending]
      exact List.mem_cons_of_mem _ hc
    have hrest : Ordered { s with ready := ready } := by
      refine ⟨h.indexing, fun c hc hstop => ?_, fun x hx hstop y hy hstart => h.behind x (hold x hx) hstop y (hold y hy) hstart,
        fun hruns c hc => h.busy hruns c (by simp [hready, hc])⟩
      rcases h.stopped c hc hstop with hsup | ⟨hidle, hnone⟩
      · exact .inl hsup
      · exact .inr ⟨hidle, fun x hx => hnone x (by simp [hready, hx])⟩
    dsimp only at hstep
    split at hstep
    · rename_i hkind
      obtain rfl := Option.some.inj hstep
      rcases Option.eq_none_or_eq_some s.driving with hdriving | ⟨d, hdriving⟩
      · rw [startNow_idle (s := { s with ready := ready }) hdriving]
        refine hrest.drive htaken hdriving (fun c hc hstop => ?_) hkind fun c hc hstop => ?_
        · -- a stop behind this start would have come before it
          have hlt := hfirst c (hlater c hc)
          have hgt := h.behind c (hold c (hlater c hc)) hstop call hin hkind
          omega
        · rcases h.stopped c hc hstop with hsup | ⟨-, hnone⟩
          · exact hsup
          · exact absurd hkind (hnone call (by simp [hready]))
      · rw [startNow_driving (s := { s with ready := ready }) hdriving]
        exact hrest.answer hkind
    · rename_i hkind
      obtain rfl := Option.some.inj hstep
      have hidle : s.drivers = [] := by
        by_contra hruns
        exact h.busy hruns call (by simp [hready]) hkind
      refine ⟨?_, fun c hc hstop => ?_, hrest.behind, hrest.busy⟩
      · simp [DriverState.stopNow, DriverState.answer, hidle]
      · rcases List.mem_cons.1 hc with rfl | hc
        · by_cases hstarts : ∃ x ∈ ready, x.kind = .start
          · obtain ⟨x, hx, hstart⟩ := hstarts
            have hx' := hold x (hlater x hx)
            exact .inl ⟨x, hsound.pending x hx', hstart, h.behind c hin hkind x hx' hstart⟩
          · exact .inr ⟨hidle, fun x hx hstart => hstarts ⟨x, hx, hstart⟩⟩
        · exact hrest.stopped c hc hstop

theorem Ordered.ended (h : Ordered s) {driver : Driver} (hone : s.drivers = [driver]) : Ordered (s.ended driver) := by
  have hidle : (s.ended driver).drivers = [] := by simp [DriverState.ended, hone]
  have hpending : (s.ended driver).pending = s.pending := by simp [DriverState.pending, DriverState.ended, hone]
  refine ⟨?_, fun c hc hstop => ?_, ?_, fun hruns => absurd hidle hruns⟩
  · rw [hidle]
    simp [DriverState.ended]
  · rcases h.stopped c hc hstop with hsup | ⟨hnone, -⟩
    · exact .inl hsup
    · simp [hone] at hnone
  · rw [hpending]
    exact h.behind

/-- **In order, what a stop says stands.** -/
theorem Ordered.step (h : Ordered s) (hsound : Sound s) {event : DriverEvent} (horderly : Orderly s event)
    (hstep : s.step event = some s') : Ordered s' := by
  cases event with
  | start =>
    obtain rfl := Option.some.inj hstep
    exact h.startIndexing hsound horderly
  | stop =>
    obtain rfl := Option.some.inj hstep
    exact h.stopIndexing hsound horderly
  | resume => exact h.resume hsound hstep
  | settle d outcome =>
    obtain ⟨driver, hone, -, ⟨await, rfl⟩ | ⟨-, rfl⟩ | rfl⟩ := hsound.settle_cases hstep
    · have hpending : ({ s with drivers := [{ driver with await := await }] } : DriverState).pending = s.pending := by
        simp [DriverState.pending, hone]
      refine ⟨?_, fun c hc hstop => ?_, ?_, fun _ => h.busy (by simp [hone])⟩
      · have hindexing := h.indexing
        rw [hone] at hindexing
        simpa using hindexing
      · rcases h.stopped c hc hstop with hsup | ⟨hnone, -⟩
        · exact .inl hsup
        · simp [hone] at hnone
      · rw [hpending]
        exact h.behind
    · exact h.ended hone
    · exact Ordered.ended (s := { s with failed := true }) ⟨h.indexing, h.stopped, h.behind, h.busy⟩ hone
  | tenured =>
    obtain rfl := Option.some.inj hstep
    exact ⟨h.indexing, h.stopped, h.behind, h.busy⟩

theorem Ordered.run (h : Ordered s) (hsound : Sound s) {events : List DriverEvent} (horderly : OrderlyRun s events)
    (hrun : s.run events = some s') : Ordered s' := by
  induction events generalizing s with
  | nil =>
    obtain rfl : s = s' := by simpa [DriverState.run] using hrun
    exact h
  | cons event events ih =>
    unfold DriverState.run at hrun
    rw [List.foldlM_cons] at hrun
    obtain ⟨s₁, hstep, hrest⟩ := Option.bind_eq_some_iff.1 hrun
    exact ih (h.step hsound horderly.1 hstep) (hsound.step hstep) (horderly.2 s₁ hstep) hrest

theorem Sound.atMostOne (h : Sound s) : s.drivers.length ≤ 1 := by
  cases hdriving : s.driving with
  | none => simp [h.idle hdriving]
  | some d =>
    obtain ⟨driver, hone, -⟩ := h.one hdriving
    simp [hone]

/-- What a start said stands until a stop is issued. -/
theorem Sound.stands (h : Sound s) : ∀ call ∈ s.answered, call.kind = .start → ¬Superseded s .stop call →
    s.drivers ≠ [] ∨ s.failed = true := by
  intro call hcall hkind hnot
  rcases h.started call hcall hkind with hsup | ⟨hruns, -⟩ | hfailed
  · exact absurd hsup hnot
  · exact .inl hruns
  · exact .inr hfailed

theorem Ordered.truthful (h : Ordered s) (hsound : Sound s) : Truthful s := by
  refine ⟨hsound.atMostOne, h.indexing, fun call hcall hkind hnot => ?_, hsound.stands⟩
  rcases h.stopped call hcall hkind with hsup | ⟨hidle, -⟩
  · exact absurd hsup hnot
  · exact hidle

/-! ### Calls out of order -/

theorem run_cons {event : DriverEvent} {events : List DriverEvent} {s₁ : DriverState} (hstep : s.step event = some s₁) :
    s.run (event :: events) = s₁.run events := by
  unfold DriverState.run
  rw [List.foldlM_cons, hstep]
  rfl

/-- A driver runs and the host says that it does not index. -/
def Unseen (s : DriverState) : Prop := s.drivers ≠ [] ∧ s.indexing = false

theorem Unseen.misleads (h : Unseen s) : ¬Truthful s := by
  intro htruthful
  have hindexing := htruthful.indexing.2 h.1
  simp [h.2] at hindexing

/-- While a driver runs, a stop that goes on makes it unseen. -/
theorem unseen_of_ready {d : ℕ} (hdriving : s.driving = some d) (hruns : s.drivers ≠ [])
    (hstop : s.indexing = false ∨ ∃ call ∈ s.ready, call.kind = .stop) :
    ∃ events s', s.run events = some s' ∧ Unseen s' := by
  generalize hready : s.ready = ready at hstop
  induction ready generalizing s with
  | nil =>
    rcases hstop with hunseen | ⟨call, hcall, -⟩
    · exact ⟨[], s, rfl, hruns, hunseen⟩
    · simp at hcall
  | cons call ready ih =>
    cases hkind : call.kind with
    | start =>
      have hstep : s.step .resume = some ({ s with ready := ready }.answer call) := by
        simp [DriverState.step, DriverState.resume, hready, hkind, DriverState.startNow, hdriving]
      have hrest : s.indexing = false ∨ ∃ c ∈ ready, c.kind = .stop := by
        rcases hstop with hunseen | ⟨c, hc, hc'⟩
        · exact .inl hunseen
        · rcases List.mem_cons.1 hc with rfl | hc
          · simp [hkind] at hc'
          · exact .inr ⟨c, hc, hc'⟩
      obtain ⟨events, s', hrun, hunseen⟩ := ih (s := { s with ready := ready }.answer call) hdriving hruns rfl hrest
      exact ⟨.resume :: events, s', (run_cons hstep).trans hrun, hunseen⟩
    | stop =>
      have hstep : s.step .resume = some ({ s with ready := ready }.stopNow call) := by
        simp [DriverState.step, DriverState.resume, hready, hkind]
      exact ⟨[.resume], _, run_cons hstep, hruns, rfl⟩

/-- A start that has still to go on starts a driver, if none runs; what is due last stays due. -/
theorem drive_of_ready (hidle : s.driving = none) (hstart : ∃ call ∈ s.ready, call.kind = .start) :
    ∃ events s' d, s.run events = some s' ∧ s'.driving = some d ∧ s'.drivers ≠ [] ∧ s'.issued = s.issued ∧
      s.answered ⊆ s'.answered ∧ ∀ call, s.ready.getLast? = some call → call.kind = .stop → call ∈ s'.ready := by
  generalize hready : s.ready = ready at hstart
  induction ready generalizing s with
  | nil => simp at hstart
  | cons call ready ih =>
    cases hkind : call.kind with
    | start =>
      have hstep : s.step .resume = some ({ s with ready := ready }.drive.answer call) := by
        simp [DriverState.step, DriverState.resume, hready, hkind, DriverState.startNow, hidle]
      refine ⟨[.resume], _, s.begun, run_cons hstep, rfl, by simp [DriverState.drive, DriverState.answer], rfl,
        List.subset_cons_self _ _, fun last hlast hstop => ?_⟩
      have hin := List.mem_of_getLast? hlast
      rcases List.mem_cons.1 hin with rfl | hin
      · simp [hkind] at hstop
      · exact hin
    | stop =>
      have hstep : s.step .resume = some ({ s with ready := ready }.stopNow call) := by
        simp [DriverState.step, DriverState.resume, hready, hkind]
      obtain ⟨start, hin, hstart⟩ := hstart
      have hrest : start ∈ ready := by
        rcases List.mem_cons.1 hin with rfl | hin
        · simp [hkind] at hstart
        · exact hin
      obtain ⟨events, s', d, hrun, hdriving, hruns, hissued, hanswered, hlast⟩ :=
        ih (s := { s with ready := ready }.stopNow call) hidle rfl ⟨start, hrest, hstart⟩
      refine ⟨.resume :: events, s', d, (run_cons hstep).trans hrun, hdriving, hruns, hissued,
        fun c hc => hanswered (List.mem_cons_of_mem _ hc), fun last hlast' hstop => hlast last ?_ hstop⟩
      obtain ⟨x, rest, rfl⟩ := List.exists_cons_of_ne_nil (List.ne_nil_of_mem hrest)
      simpa using hlast'

/-- **A call out of order may end in an answer that does not hold.** -/
theorem Sound.misleads (h : Sound s) {event : DriverEvent} (hstep : s.step event = some s')
    (hdisorderly : ¬Orderly s event) : ∃ events s'', s'.run events = some s'' ∧ ¬Truthful s'' := by
  cases event with
  | start =>
    obtain rfl := Option.some.inj hstep
    simp only [Orderly, not_forall, not_not] at hdisorderly
    obtain ⟨hidle, call, hcall, hkind⟩ := hdisorderly
    rw [startIndexing_now (.inl hidle), startNow_idle (s := (s.issue .start).1) hidle]
    have hruns : ((s.issue .start).1.drive.answer ⟨s.issued.length, .start⟩).drivers ≠ [] := by
      simp [DriverState.drive, DriverState.answer]
    obtain ⟨events, s'', hrun, hunseen⟩ := unseen_of_ready rfl hruns (.inr ⟨call, hcall, hkind⟩)
    exact ⟨events, s'', hrun, hunseen.misleads⟩
  | stop =>
    obtain rfl := Option.some.inj hstep
    simp only [Orderly, not_forall, not_not] at hdisorderly
    obtain ⟨call, hcall, hkind⟩ := hdisorderly
    cases hdriving : s.driving with
    | none =>
      -- the stop has answered, and then the start goes on
      have hready : call ∈ s.ready := by
        unfold DriverState.pending at hcall
        rw [h.idle hdriving] at hcall
        simpa using hcall
      rw [stopIndexing_now hdriving]
      obtain ⟨events, s'', d, hrun, -, hruns, hissued, hanswered, -⟩ :=
        drive_of_ready (s := ({ s with stopRequested := true }.issue .stop).1.stopNow ⟨s.issued.length, .stop⟩) hdriving
          ⟨call, hready, hkind⟩
      refine ⟨events, s'', hrun, fun htruthful => hruns (htruthful.stopped ⟨s.issued.length, .stop⟩ ?_ rfl ?_)⟩
      · exact hanswered List.mem_cons_self
      · rintro ⟨later, hin, -, hlt⟩
        rw [hissued] at hin
        have hlt : s.issued.length < later.number := hlt
        have hlt' := h.issue_stop.numbered later hin
        simp only [DriverState.issue, List.length_append, List.length_singleton] at hlt'
        omega
    | some d =>
      -- the driver ends, the start goes on before the stop, and the stop behind it
      obtain ⟨driver, hone, hnumber⟩ := h.one hdriving
      rw [stopIndexing_waits hdriving]
      set asked := ({ s with stopRequested := true }.issue .stop).1.awaits d ⟨s.issued.length, .stop⟩ with hasked
      set ending : Driver := { driver with waiting := driver.waiting ++ [⟨s.issued.length, .stop⟩] } with hending
      have hdrivers : asked.drivers = [ending] := by simp [hasked, hending, DriverState.awaits, DriverState.issue, hone, hnumber]
      have hended : ∃ t, asked.step (.settle d .refused) = some t ∧ t.driving = none ∧
          t.ready = s.ready ++ driver.waiting ++ [⟨s.issued.length, .stop⟩] := by
        have hfound : asked.drivers.find? (·.number = d) = some ending := by simp [hdrivers, hending, hnumber]
        have hstopped : asked.stopRequested = true := rfl
        rcases ends_of_stopped asked.election asked.tenure ending.await with hturn | hturn
        · refine ⟨asked.ended ending, ?_, rfl, ?_⟩
          · simp only [DriverState.step, DriverState.settle, hfound, hstopped, hturn]
          · exact (List.append_assoc _ _ _).symm
        · refine ⟨{ asked with failed := true }.ended ending, ?_, rfl, ?_⟩
          · simp only [DriverState.step, DriverState.settle, hfound, hstopped, hturn]
          · exact (List.append_assoc _ _ _).symm
      obtain ⟨t, hsettle, hidle, hready⟩ := hended
      have hdue : ∃ c ∈ t.ready, c.kind = .start := by
        refine ⟨call, ?_, hkind⟩
        unfold DriverState.pending at hcall
        rw [hone] at hcall
        rw [hready]
        simp only [List.flatMap_cons, List.flatMap_nil, List.append_nil] at hcall
        exact List.mem_append_left _ hcall
      obtain ⟨events, u, d', hrun, hdriving', hruns, -, -, hlast⟩ := drive_of_ready hidle hdue
      have hstop : (⟨s.issued.length, .stop⟩ : DriverCall) ∈ u.ready := hlast _ (by rw [hready]; simp) rfl
      obtain ⟨events', v, hrun', hunseen⟩ := unseen_of_ready hdriving' hruns (.inr ⟨_, hstop, rfl⟩)
      refine ⟨.settle d .refused :: (events ++ events'), v, ?_, hunseen.misleads⟩
      rw [run_cons hsettle]
      unfold DriverState.run at hrun hrun' ⊢
      rw [List.foldlM_append, hrun]
      exact hrun'
  | resume => exact absurd trivial hdisorderly
  | settle d outcome => exact absurd trivial hdisorderly
  | tenured => exact absurd trivial hdisorderly

/-- **A stop that has answered is true exactly while no call comes out of order**: an orderly run keeps
every promise, and a call out of order may break one. That one driver runs at a time, and that a
driver runs once a start has answered, unless it failed, holds in every run. -/
theorem answers_true (election : Bool) :
    (∀ events s, (DriverState.served election).run events = some s → OrderlyRun (DriverState.served election) events →
      Truthful s) ∧
    (∀ events s, (DriverState.served election).run events = some s → s.drivers.length ≤ 1 ∧
      ∀ call ∈ s.answered, call.kind = .start → ¬Superseded s .stop call → s.drivers ≠ [] ∨ s.failed = true) ∧
    ∀ events s event s', (DriverState.served election).run events = some s → s.step event = some s' →
      ¬Orderly s event → ∃ later s'', s'.run later = some s'' ∧ ¬Truthful s'' := by
  refine ⟨fun events s hrun horderly => ?_, fun events s hrun => ?_, fun events s event s' hrun hstep hdisorderly => ?_⟩
  · exact ((ordered_served election).run (sound_served election) horderly hrun).truthful ((sound_served election).run hrun)
  · have hsound := (sound_served election).run hrun
    exact ⟨hsound.atMostOne, hsound.stands⟩
  · exact ((sound_served election).run hrun).misleads hstep hdisorderly

theorem orderlyRun_cons {event : DriverEvent} {events : List DriverEvent} {s₁ : DriverState} (hstep : s.step event = some s₁)
    (horderly : Orderly s event) (hrest : OrderlyRun s₁ events) : OrderlyRun s (event :: events) := by
  refine ⟨horderly, fun s' hs' => ?_⟩
  obtain rfl := Option.some.inj (hstep.symm.trans hs')
  exact hrest

/-- A host that indexes is stopped while its container opens. -/
def stopped : List DriverEvent := [.start, .settle 0 (.done false), .stop, .settle 0 (.done false), .resume]

/-- The stop answers, and no driver runs. -/
theorem answers_true_stopped : ∃ s, (DriverState.served false).run stopped = some s ∧
    (⟨1, .stop⟩ : DriverCall) ∈ s.answered ∧ s.drivers = [] ∧ Truthful s := by
  have horderly : OrderlyRun (DriverState.served false) stopped := by
    refine orderlyRun_cons rfl (fun _ => by decide) (orderlyRun_cons rfl trivial (orderlyRun_cons rfl ?_
      (orderlyRun_cons rfl trivial (orderlyRun_cons rfl trivial trivial))))
    show ∀ call ∈ _, _
    decide
  have hrun : (DriverState.served false).run stopped = some _ := rfl
  exact ⟨_, hrun, by decide, by decide, (answers_true false).1 _ _ hrun horderly⟩

/-- A host that indexes is stopped, started and stopped again while its cycle is in flight: when the
cycle lands and the three calls go on, the last stop answers, and a driver runs that nothing shows. -/
theorem stop_undone : ∃ s, (DriverState.served false).run [.start, .settle 0 (.done false), .settle 0 (.done false), .stop,
    .start, .stop, .settle 0 (.done false), .resume, .resume, .resume] = some s ∧ (⟨3, .stop⟩ : DriverCall) ∈ s.answered ∧
    ¬Superseded s .start ⟨3, .stop⟩ ∧ s.drivers ≠ [] ∧ s.indexing = false ∧ ¬Truthful s := by
  refine ⟨_, rfl, by decide, ?_, by decide, rfl, fun htruthful => ?_⟩
  · unfold Superseded
    decide
  · have hindexing := htruthful.indexing.2 (by decide)
    cases hindexing

end Driving

end Etherfold
