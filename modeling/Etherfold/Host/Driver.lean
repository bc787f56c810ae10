import Mathlib.Data.List.Basic
import Mathlib.Tactic

/-!
# The driver of a host, and the calls that start and stop it

A host drives one loop over its container. A stop asks for its end and waits for it, a start waits
for a stop to be honoured; both wait on the promise of the driver, and go on in the order they
came. Between any two of these moments another call may arrive. A host that is disposed of answers
no more, and is left out.

* `Await.turn`: what a driver does when what it waits for ends.
* `DriverState.step`: a call, a continuation, a turn of a driver, or a change of tenure.
* `Sound.step`: **one driver runs at a time**, and it ends only if it fails or was asked to.
-/

namespace Etherfold

namespace Driving

inductive CallKind where
  | start
  | stop
  deriving DecidableEq, Repr

/-- A call of `startIndexing` or `stopIndexing`, and which call of the host it is. -/
structure DriverCall where
  number : ℕ
  kind : CallKind
  deriving DecidableEq, Repr

/-- What a driver waits for: the settings, its seat, the lock, its container, a load or an advance
or the pause before either is tried again, and the rest at the tip. `term` is the tenure it drives. -/
inductive Await where
  | settings
  | seat
  | lock
  | container (term : ℕ)
  | load (term : ℕ)
  | loadPause (term : ℕ)
  | advance (term : ℕ)
  | advancePause (term : ℕ)
  | rest (term : ℕ)
  deriving DecidableEq, Repr

/-- How that ends. After an advance, `level` says whether the driver rests. -/
inductive Outcome where
  | done (level : Bool)
  | transient
  | refused
  deriving DecidableEq, Repr

/-- What a driver does then. -/
inductive After where
  | waits (await : Await)
  | returns
  | fails
  deriving DecidableEq, Repr

/-- The head of the loop over the tenures. -/
def tenureTurn (election : Bool) (tenure : ℕ) : After := .waits (if election then .seat else .container tenure)

/-- A tenure is left: by a driver that was stopped, or for the next tenure. -/
def leave (election stopRequested : Bool) (tenure term : ℕ) : After :=
  if stopRequested || term = tenure then .returns else tenureTurn election tenure

/-- What is thrown in a tenure that is over is not this host's failure. -/
def thrown (election stopRequested : Bool) (tenure term : ℕ) : After :=
  if term = tenure then .fails else leave election stopRequested tenure term

/-- A driver goes on only while its tenure is the current one and no stop was asked for. -/
def goOn (election stopRequested : Bool) (tenure term : ℕ) (await : Await) : After :=
  if !stopRequested && term = tenure then .waits await else leave election stopRequested tenure term

/-- **What a driver does when what it waits for ends.** -/
def Await.turn (election stopRequested : Bool) (tenure : ℕ) : Await → Outcome → After
  | .settings, _ => if stopRequested then .returns else tenureTurn election tenure
  | .seat, .done _ => .waits .lock
  | .seat, _ => .fails
  | .lock, _ => if stopRequested then .returns else .waits (.container tenure)
  | .container term, .done _ => goOn election stopRequested tenure term (.load term)
  | .container term, _ => thrown election stopRequested tenure term
  | .load term, .done _ => goOn election stopRequested tenure term (.advance term)
  | .load term, .transient => .waits (.loadPause term)
  | .load term, .refused => thrown election stopRequested tenure term
  | .loadPause term, _ => goOn election stopRequested tenure term (.load term)
  | .advance term, .done level =>
    goOn election stopRequested tenure term (if level then .rest term else .advance term)
  | .advance term, .transient => .waits (.advancePause term)
  | .advance term, .refused => thrown election stopRequested tenure term
  | .advancePause term, _ => goOn election stopRequested tenure term (.advance term)
  | .rest term, _ => goOn election stopRequested tenure term (.advance term)

/-- A driver that runs, and the calls that await its promise. -/
structure Driver where
  number : ℕ
  await : Await
  waiting : List DriverCall
  deriving DecidableEq, Repr

/-- A host: its flags, the drivers that run, the calls whose continuation is due, and the calls
that were issued and answered. -/
structure DriverState where
  election : Bool
  tenure : ℕ
  stopRequested : Bool
  driving : Option ℕ
  indexing : Bool
  failed : Bool
  begun : ℕ
  drivers : List Driver
  ready : List DriverCall
  issued : List DriverCall
  answered : List DriverCall
  deriving DecidableEq, Repr

/-- What happens to a host. What a driver waits for may end at any moment. -/
inductive DriverEvent where
  | start
  | stop
  | resume
  | settle (driver : ℕ) (outcome : Outcome)
  /-- the lock is granted to this host, or taken from it -/
  | tenured
  deriving DecidableEq, Repr

namespace DriverState

/-- A host that is being served. -/
def served (election : Bool) : DriverState := ⟨election, 0, false, none, false, false, 0, [], [], [], []⟩

/-- The calls that have still to go on. -/
def pending (s : DriverState) : List DriverCall := s.ready ++ s.drivers.flatMap Driver.waiting

def answer (s : DriverState) (call : DriverCall) : DriverState := { s with answered := call :: s.answered }

/-- A driver is started. -/
def drive (s : DriverState) : DriverState :=
  { s with
    stopRequested := false
    failed := false
    indexing := true
    driving := some s.begun
    begun := s.begun + 1
    drivers := s.drivers ++ [⟨s.begun, .settings, []⟩] }

/-- What a start does once no stop is being honoured. -/
def startNow (s : DriverState) (call : DriverCall) : DriverState :=
  if s.driving.isSome then s.answer call else s.drive.answer call

/-- What a stop does once the driver has ended. -/
def stopNow (s : DriverState) (call : DriverCall) : DriverState := { s with indexing := false }.answer call

/-- A call awaits the promise of a driver. -/
def awaits (s : DriverState) (driver : ℕ) (call : DriverCall) : DriverState :=
  { s with drivers := s.drivers.map fun d => if d.number = driver then { d with waiting := d.waiting ++ [call] } else d }

def issue (s : DriverState) (kind : CallKind) : DriverState × DriverCall :=
  ({ s with issued := s.issued ++ [⟨s.issued.length, kind⟩] }, ⟨s.issued.length, kind⟩)

def startIndexing (s : DriverState) : DriverState :=
  let (s, call) := s.issue .start
  match s.driving with
  | some driver => if s.stopRequested then s.awaits driver call else s.startNow call
  | none => s.startNow call

def stopIndexing (s : DriverState) : DriverState :=
  let (s, call) := { s with stopRequested := true }.issue .stop
  match s.driving with
  | some driver => s.awaits driver call
  | none => s.stopNow call

/-- The first call that is due goes on. -/
def resume (s : DriverState) : Option DriverState :=
  match s.ready with
  | [] => none
  | call :: ready =>
    let s := { s with ready := ready }
    match call.kind with
    | .start => some (s.startNow call)
    | .stop => some (s.stopNow call)

/-- A driver has ended, and what awaited it is due. -/
def ended (s : DriverState) (driver : Driver) : DriverState :=
  { s with
    indexing := false
    driving := none
    drivers := s.drivers.filter (·.number ≠ driver.number)
    ready := s.ready ++ driver.waiting }

/-- A turn of a driver. -/
def settle (s : DriverState) (number : ℕ) (outcome : Outcome) : Option DriverState :=
  match s.drivers.find? (·.number = number) with
  | none => none
  | some driver =>
    match driver.await.turn s.election s.stopRequested s.tenure outcome with
    | .waits await =>
      some { s with drivers := s.drivers.map fun d => if d.number = number then { d with await := await } else d }
    | .returns => some (s.ended driver)
    | .fails => some ({ s with failed := true }.ended driver)

def step (s : DriverState) : DriverEvent → Option DriverState
  | .start => some s.startIndexing
  | .stop => some s.stopIndexing
  | .resume => s.resume
  | .settle driver outcome => s.settle driver outcome
  | .tenured => some { s with tenure := s.tenure + 1 }

def run (s : DriverState) (events : List DriverEvent) : Option DriverState := events.foldlM step s

end DriverState

/-! ### What a turn comes to -/

/-- **A driver returns only if it was stopped.** -/
theorem stopped_of_returns {election stopRequested : Bool} {tenure : ℕ} {await : Await} {outcome : Outcome}
    (h : await.turn election stopRequested tenure outcome = .returns) : stopRequested = true := by
  by_contra hstop
  have hstop : stopRequested = false := by simpa using hstop
  subst hstop
  have hleave : ∀ term, term ≠ tenure → leave election false tenure term ≠ .returns := by
    intro term hterm
    simp [leave, hterm, tenureTurn]
  have hgoOn : ∀ term await, goOn election false tenure term await ≠ .returns := by
    intro term await
    unfold goOn
    by_cases hterm : term = tenure
    · simp [hterm]
    · simpa [hterm] using hleave term hterm
  have hthrown : ∀ term, thrown election false tenure term ≠ .returns := by
    intro term
    unfold thrown
    by_cases hterm : term = tenure
    · simp [hterm]
    · simpa [hterm] using hleave term hterm
  cases await with
  | settings => simp [Await.turn, tenureTurn] at h
  | seat => cases outcome <;> simp [Await.turn] at h
  | lock => simp [Await.turn] at h
  | container term =>
    cases outcome with
    | done level => exact hgoOn _ _ h
    | transient => exact hthrown _ h
    | refused => exact hthrown _ h
  | load term =>
    cases outcome with
    | done level => exact hgoOn _ _ h
    | transient => simp [Await.turn] at h
    | refused => exact hthrown _ h
  | loadPause term => exact hgoOn _ _ h
  | advance term =>
    cases outcome with
    | done level => exact hgoOn _ _ h
    | transient => simp [Await.turn] at h
    | refused => exact hthrown _ h
  | advancePause term => exact hgoOn _ _ h
  | rest term => exact hgoOn _ _ h

/-- A driver that was stopped ends when what it waits for is refused. -/
theorem ends_of_stopped (election : Bool) (tenure : ℕ) (await : Await) :
    await.turn election true tenure .refused = .returns ∨ await.turn election true tenure .refused = .fails := by
  have hleave : ∀ term, leave election true tenure term = .returns := by
    intro term
    simp [leave]
  have hgoOn : ∀ term await, goOn election true tenure term await = .returns := by
    intro term await
    simp [goOn, hleave]
  have hthrown : ∀ term, thrown election true tenure term = .returns ∨ thrown election true tenure term = .fails := by
    intro term
    unfold thrown
    split
    · exact .inr rfl
    · exact .inl (hleave term)
  cases await with
  | settings => exact .inl rfl
  | seat => exact .inr rfl
  | lock => exact .inl rfl
  | container term => exact hthrown term
  | load term => exact hthrown term
  | loadPause term => exact .inl (hgoOn _ _)
  | advance term => exact hthrown term
  | advancePause term => exact .inl (hgoOn _ _)
  | rest term => exact .inl (hgoOn _ _)

variable {s s' : DriverState}

theorem startNow_idle (hidle : s.driving = none) (call : DriverCall) : s.startNow call = s.drive.answer call := by
  simp [DriverState.startNow, hidle]

theorem startNow_driving {d : ℕ} (hdriving : s.driving = some d) (call : DriverCall) : s.startNow call = s.answer call := by
  simp [DriverState.startNow, hdriving]

/-- A start that waits for nothing. -/
theorem startIndexing_now (h : s.driving = none ∨ s.stopRequested = false) :
    s.startIndexing = (s.issue .start).1.startNow ⟨s.issued.length, .start⟩ := by
  unfold DriverState.startIndexing DriverState.issue
  dsimp only
  rcases h with h | h
  · simp [h]
  · cases hdriving : s.driving <;> simp [h]

/-- A start waits for a stop to be honoured. -/
theorem startIndexing_waits {d : ℕ} (hdriving : s.driving = some d) (hstop : s.stopRequested = true) :
    s.startIndexing = (s.issue .start).1.awaits d ⟨s.issued.length, .start⟩ := by
  unfold DriverState.startIndexing DriverState.issue
  simp [hdriving, hstop]

theorem stopIndexing_now (hidle : s.driving = none) :
    s.stopIndexing = ({ s with stopRequested := true }.issue .stop).1.stopNow ⟨s.issued.length, .stop⟩ := by
  unfold DriverState.stopIndexing DriverState.issue
  simp [hidle]

theorem stopIndexing_waits {d : ℕ} (hdriving : s.driving = some d) :
    s.stopIndexing = ({ s with stopRequested := true }.issue .stop).1.awaits d ⟨s.issued.length, .stop⟩ := by
  unfold DriverState.stopIndexing DriverState.issue
  simp [hdriving]

/-! ### What holds whatever the order of the calls -/

/-- A call of one kind was issued after a call. -/
def Superseded (s : DriverState) (kind : CallKind) (call : DriverCall) : Prop :=
  ∃ later ∈ s.issued, later.kind = kind ∧ call.number < later.number

/-- **What holds whatever the order of the calls.** -/
structure Sound (s : DriverState) : Prop where
  drivers : s.drivers.map Driver.number = s.driving.toList
  /-- calls are numbered as they come -/
  numbered : ∀ call ∈ s.issued, call.number < s.issued.length
  pending : ∀ call ∈ s.pending, call ∈ s.issued
  answered : ∀ call ∈ s.answered, call ∈ s.issued
  inTurn : s.pending.Pairwise (·.number < ·.number)
  started : ∀ call ∈ s.answered, call.kind = .start →
    Superseded s .stop call ∨ (s.drivers ≠ [] ∧ s.stopRequested = false) ∨ s.failed = true
  /-- a start that finds a driver asked to stop was followed by the stop -/
  overtaken : s.drivers ≠ [] → s.stopRequested = true → ∀ call ∈ s.ready, call.kind = .start → Superseded s .stop call

theorem Sound.idle (h : Sound s) (hidle : s.driving = none) : s.drivers = [] := by
  have hdrivers := h.drivers
  rw [hidle] at hdrivers
  simpa using hdrivers

theorem Sound.one (h : Sound s) {d : ℕ} (hdriving : s.driving = some d) : ∃ driver, s.drivers = [driver] ∧ driver.number = d := by
  have hdrivers := h.drivers
  rw [hdriving] at hdrivers
  obtain ⟨driver, rest, hsplit, hnumber, hrest⟩ := List.map_eq_cons_iff.1 hdrivers
  obtain rfl : rest = [] := by simpa using hrest
  exact ⟨driver, hsplit, hnumber⟩

theorem sound_served (election : Bool) : Sound (DriverState.served election) := by
  refine ⟨rfl, ?_, ?_, ?_, ?_, ?_, ?_⟩ <;> simp [DriverState.served, DriverState.pending]

/-- A call is issued. -/
theorem Superseded.issue {kind kind' : CallKind} {call : DriverCall} (h : Superseded s kind call) :
    Superseded (s.issue kind').1 kind call := by
  obtain ⟨later, hin, hkind, hlt⟩ := h
  exact ⟨later, List.mem_append_left _ hin, hkind, hlt⟩

/-- A call supersedes what was issued before. -/
theorem Sound.supersedes (h : Sound s) (kind : CallKind) {call : DriverCall} (hcall : call ∈ s.issued) :
    Superseded (s.issue kind).1 kind call :=
  ⟨⟨s.issued.length, kind⟩, by simp [DriverState.issue], rfl, h.numbered call hcall⟩

theorem Sound.numbered_issue (h : Sound s) (kind : CallKind) :
    ∀ call ∈ (s.issue kind).1.issued, call.number < (s.issue kind).1.issued.length := by
  intro call hcall
  simp only [DriverState.issue, List.length_append, List.length_singleton] at hcall ⊢
  rcases List.mem_append.1 hcall with hold | hnew
  · have hlt := h.numbered call hold
    omega
  · rw [List.mem_singleton.1 hnew]
    exact Nat.lt_succ_self _

/-- While nothing but the calls that were issued moves, so does no more. -/
theorem Sound.issue (h : Sound s) (kind : CallKind) : Sound (s.issue kind).1 := by
  refine ⟨h.drivers, h.numbered_issue kind, fun call hcall => List.mem_append_left _ (h.pending call hcall),
    fun call hcall => List.mem_append_left _ (h.answered call hcall), h.inTurn, fun call hcall hkind => ?_,
    fun hdrivers hstop call hcall hkind => (h.overtaken hdrivers hstop call hcall hkind).issue⟩
  exact (h.started call hcall hkind).imp_left Superseded.issue

theorem Sound.issue_stop (h : Sound s) : Sound ({ s with stopRequested := true }.issue .stop).1 := by
  refine ⟨h.drivers, h.numbered_issue .stop, fun call hcall => List.mem_append_left _ (h.pending call hcall),
    fun call hcall => List.mem_append_left _ (h.answered call hcall), h.inTurn, fun call hcall _ => ?_,
    fun _ _ call hcall _ => ?_⟩
  · exact .inl (h.supersedes .stop (h.answered call hcall))
  · exact h.supersedes .stop (h.pending call (List.mem_append_left _ hcall))

theorem pending_awaits {d : ℕ} {driver : Driver} (hone : s.drivers = [driver]) (hnumber : driver.number = d) (call : DriverCall) :
    (s.awaits d call).pending = s.pending ++ [call] := by
  simp [DriverState.pending, DriverState.awaits, hone, hnumber]

theorem Sound.awaits (h : Sound s) {d : ℕ} (hdriving : s.driving = some d) {call : DriverCall} (hcall : call ∈ s.issued)
    (hlast : ∀ c ∈ s.pending, c.number < call.number) : Sound (s.awaits d call) := by
  obtain ⟨driver, hone, hnumber⟩ := h.one hdriving
  have hpending := pending_awaits hone hnumber call
  have hdrivers : (s.awaits d call).drivers ≠ [] := by simp [DriverState.awaits, hone]
  refine ⟨?_, h.numbered, ?_, h.answered, ?_, fun c hc hkind => ?_, fun _ hstop c hc hkind => ?_⟩
  · have hnumbers := h.drivers
    rw [hone] at hnumbers
    simpa [DriverState.awaits, hone, hnumber] using hnumbers
  · rw [hpending]
    intro c hc
    rcases List.mem_append.1 hc with hc | hc
    · exact h.pending c hc
    · rw [List.mem_singleton.1 hc]
      exact hcall
  · rw [hpending]
    refine List.pairwise_append.2 ⟨h.inTurn, List.pairwise_singleton _ _, fun c hc x hx => ?_⟩
    rw [List.mem_singleton.1 hx]
    exact hlast c hc
  · rcases h.started c hc hkind with hsup | ⟨-, hstop⟩ | hfailed
    · exact .inl hsup
    · exact .inr (.inl ⟨hdrivers, hstop⟩)
    · exact .inr (.inr hfailed)
  · exact h.overtaken (by simp [hone]) hstop c hc hkind

theorem Sound.startNow (h : Sound s) {call : DriverCall} (hcall : call ∈ s.issued)
    (hovertaken : s.drivers ≠ [] → s.stopRequested = true → Superseded s .stop call) : Sound (s.startNow call) := by
  have hanswered : ∀ c ∈ call :: s.answered, c ∈ s.issued := by
    intro c hc
    rcases List.mem_cons.1 hc with rfl | hc
    · exact hcall
    · exact h.answered c hc
  cases hdriving : s.driving with
  | none =>
    have hidle := h.idle hdriving
    have hpending : (s.drive.answer call).pending = s.pending := by
      simp [DriverState.pending, DriverState.drive, DriverState.answer, hidle]
    have hruns : (s.drive.answer call).drivers ≠ [] := by simp [DriverState.drive, DriverState.answer]
    rw [startNow_idle hdriving]
    refine ⟨?_, h.numbered, ?_, hanswered, ?_, fun c _ _ => .inr (.inl ⟨hruns, rfl⟩), fun _ hstop => ?_⟩
    · simp [DriverState.drive, DriverState.answer, hidle]
    · rw [hpending]
      exact h.pending
    · rw [hpending]
      exact h.inTurn
    · simp [DriverState.drive, DriverState.answer] at hstop
  | some d =>
    obtain ⟨driver, hone, -⟩ := h.one hdriving
    have hruns : s.drivers ≠ [] := by simp [hone]
    rw [startNow_driving hdriving]
    refine ⟨h.drivers, h.numbered, h.pending, hanswered, h.inTurn, fun c hc hkind => ?_, h.overtaken⟩
    rcases List.mem_cons.1 hc with rfl | hc
    · cases hstop : s.stopRequested with
      | true => exact .inl (hovertaken hruns hstop)
      | false => exact .inr (.inl ⟨hruns, hstop⟩)
    · exact h.started c hc hkind

theorem Sound.stopNow (h : Sound s) {call : DriverCall} (hcall : call ∈ s.issued) (hkind : call.kind = .stop) :
    Sound (s.stopNow call) := by
  refine ⟨h.drivers, h.numbered, h.pending, fun c hc => ?_, h.inTurn, fun c hc hstart => ?_, h.overtaken⟩
  · rcases List.mem_cons.1 hc with rfl | hc
    · exact hcall
    · exact h.answered c hc
  · rcases List.mem_cons.1 hc with rfl | hc
    · simp [hkind] at hstart
    · exact h.started c hc hstart

theorem Sound.startIndexing (h : Sound s) : Sound s.startIndexing := by
  have hissued := h.issue .start
  have hnew : (⟨s.issued.length, .start⟩ : DriverCall) ∈ (s.issue .start).1.issued := by simp [DriverState.issue]
  cases hdriving : s.driving with
  | none =>
    rw [startIndexing_now (.inl hdriving)]
    exact hissued.startNow hnew fun hruns => absurd (h.idle hdriving) hruns
  | some d =>
    cases hstop : s.stopRequested with
    | true =>
      rw [startIndexing_waits hdriving hstop]
      refine hissued.awaits hdriving hnew fun c hc => ?_
      exact h.numbered c (h.pending c hc)
    | false =>
      rw [startIndexing_now (.inr hstop)]
      refine hissued.startNow hnew fun _ hstop' => ?_
      have hsame : s.stopRequested = true := hstop'
      simp [hstop] at hsame

theorem Sound.stopIndexing (h : Sound s) : Sound s.stopIndexing := by
  have hissued := h.issue_stop
  have hnew : (⟨s.issued.length, .stop⟩ : DriverCall) ∈ ({ s with stopRequested := true }.issue .stop).1.issued := by
    simp [DriverState.issue]
  cases hdriving : s.driving with
  | none =>
    rw [stopIndexing_now hdriving]
    exact hissued.stopNow hnew rfl
  | some d =>
    rw [stopIndexing_waits hdriving]
    refine hissued.awaits hdriving hnew fun c hc => ?_
    exact h.numbered c (h.pending c hc)

/-- The first call that is due is no longer. -/
theorem Sound.taken (h : Sound s) {call : DriverCall} {ready : List DriverCall} (hready : s.ready = call :: ready) :
    Sound { s with ready := ready } ∧ call ∈ s.issued := by
  have hpending : s.pending = call :: { s with ready := ready }.pending := by simp [DriverState.pending, hready]
  have hturn := h.inTurn
  rw [hpending] at hturn
  refine ⟨⟨h.drivers, h.numbered, fun c hc => h.pending c ?_, h.answered, (List.pairwise_cons.1 hturn).2, h.started,
    fun hruns hstop c hc => h.overtaken hruns hstop c ?_⟩, h.pending call ?_⟩
  · rw [hpending]
    exact List.mem_cons_of_mem _ hc
  · rw [hready]
    exact List.mem_cons_of_mem _ hc
  · rw [hpending]
    exact List.mem_cons_self

theorem Sound.resume (h : Sound s) (hstep : s.resume = some s') : Sound s' := by
  unfold DriverState.resume at hstep
  split at hstep
  · simp at hstep
  · rename_i call ready hready
    obtain ⟨htaken, hcall⟩ := h.taken hready
    dsimp only at hstep
    split at hstep
    · rename_i hkind
      obtain rfl := Option.some.inj hstep
      exact htaken.startNow hcall fun hruns hstop => h.overtaken hruns hstop call (by simp [hready]) hkind
    · rename_i hkind
      obtain rfl := Option.some.inj hstep
      exact htaken.stopNow hcall hkind

/-- A driver that ended: it failed, or it was stopped. -/
theorem Sound.ended (h : Sound s) {driver : Driver} (hone : s.drivers = [driver])
    (hwhy : s.failed = true ∨ s.stopRequested = true) : Sound (s.ended driver) := by
  have hdrivers : (s.ended driver).drivers = [] := by simp [DriverState.ended, hone]
  have hpending : (s.ended driver).pending = s.pending := by
    simp [DriverState.pending, DriverState.ended, hone]
  refine ⟨?_, h.numbered, ?_, h.answered, ?_, fun c hc hkind => ?_, fun hruns => absurd hdrivers hruns⟩
  · rw [hdrivers]
    rfl
  · rw [hpending]
    exact h.pending
  · rw [hpending]
    exact h.inTurn
  · rcases h.started c hc hkind with hsup | ⟨-, hstop⟩ | hfailed
    · exact .inl hsup
    · rcases hwhy with hfailed | hstop'
      · exact .inr (.inr hfailed)
      · simp [hstop] at hstop'
    · exact .inr (.inr hfailed)

/-- **What a turn of a driver comes to**: it waits again, or it ends, failed or stopped. -/
theorem Sound.settle_cases (h : Sound s) {d : ℕ} {outcome : Outcome} (hstep : s.settle d outcome = some s') :
    ∃ driver, s.drivers = [driver] ∧ driver.number = d ∧
      ((∃ await, s' = { s with drivers := [{ driver with await := await }] }) ∨
        (s.stopRequested = true ∧ s' = s.ended driver) ∨ s' = { s with failed := true }.ended driver) := by
  unfold DriverState.settle at hstep
  split at hstep
  · simp at hstep
  · rename_i driver hfound
    obtain ⟨hin, hnumber⟩ := List.mem_of_find?_eq_some hfound, List.find?_some hfound
    have hnumber : driver.number = d := by simpa using hnumber
    have hone : s.drivers = [driver] := by
      cases hdriving : s.driving with
      | none => simp [h.idle hdriving] at hin
      | some d' =>
        obtain ⟨driver', hone, -⟩ := h.one hdriving
        rw [hone, List.mem_singleton] at hin
        rw [hone, hin]
    refine ⟨driver, hone, hnumber, ?_⟩
    cases hturn : driver.await.turn s.election s.stopRequested s.tenure outcome with
    | waits await =>
      rw [hturn] at hstep
      obtain rfl := Option.some.inj hstep
      exact .inl ⟨await, by simp [hone, hnumber]⟩
    | returns =>
      rw [hturn] at hstep
      obtain rfl := Option.some.inj hstep
      exact .inr (.inl ⟨stopped_of_returns hturn, rfl⟩)
    | fails =>
      rw [hturn] at hstep
      obtain rfl := Option.some.inj hstep
      exact .inr (.inr rfl)

theorem Sound.failed (h : Sound s) : Sound { s with failed := true } :=
  ⟨h.drivers, h.numbered, h.pending, h.answered, h.inTurn, fun _ _ _ => .inr (.inr rfl), h.overtaken⟩

/-- A driver waits again. -/
theorem Sound.waits (h : Sound s) {driver : Driver} (hone : s.drivers = [driver]) (await : Await) :
    Sound { s with drivers := [{ driver with await := await }] } := by
  have hpending : ({ s with drivers := [{ driver with await := await }] } : DriverState).pending = s.pending := by
    simp [DriverState.pending, hone]
  have hnumbers := h.drivers
  rw [hone] at hnumbers
  refine ⟨hnumbers, h.numbered, ?_, h.answered, ?_, fun c hc hkind => ?_, fun _ => h.overtaken (by simp [hone])⟩
  · rw [hpending]
    exact h.pending
  · rw [hpending]
    exact h.inTurn
  · rcases h.started c hc hkind with hsup | ⟨-, hstop⟩ | hfailed
    · exact .inl hsup
    · exact .inr (.inl ⟨by simp, hstop⟩)
    · exact .inr (.inr hfailed)

/-- **One driver runs at a time**, and what a start said stands until a stop, whatever the order of the calls. -/
theorem Sound.step (h : Sound s) {event : DriverEvent} (hstep : s.step event = some s') : Sound s' := by
  cases event with
  | start =>
    obtain rfl := Option.some.inj hstep
    exact h.startIndexing
  | stop =>
    obtain rfl := Option.some.inj hstep
    exact h.stopIndexing
  | resume => exact h.resume hstep
  | settle d outcome =>
    obtain ⟨driver, hone, -, ⟨await, rfl⟩ | ⟨hstop, rfl⟩ | rfl⟩ := h.settle_cases hstep
    · exact h.waits hone await
    · exact h.ended hone (.inr hstop)
    · exact h.failed.ended hone (.inl rfl)
  | tenured =>
    obtain rfl := Option.some.inj hstep
    exact ⟨h.drivers, h.numbered, h.pending, h.answered, h.inTurn, h.started, h.overtaken⟩

theorem Sound.run (h : Sound s) {events : List DriverEvent} (hrun : s.run events = some s') : Sound s' := by
  induction events generalizing s with
  | nil =>
    obtain rfl : s = s' := by simpa [DriverState.run] using hrun
    exact h
  | cons event events ih =>
    unfold DriverState.run at hrun
    rw [List.foldlM_cons] at hrun
    obtain ⟨s₁, hstep, hrest⟩ := Option.bind_eq_some_iff.1 hrun
    exact ih (h.step hstep) hrest

end Driving

end Etherfold
