import Etherfold.Host.PortWatch

/-!
# The hosts of a port

Hosts are held one at a time. A host that died is let go of as it is; a host that a tab is done with
is asked to let go first, and only what it answers says that it is quiet. After a death the next host
is obtained once the pause is over, and what was subscribed to is subscribed to again.

* `Turns`: hosts are let go in the order they were obtained, each after the one death that ended it.
* `let_go_once`, `obtained_after_death`, `restarts_bounded`: **the hosts of a run**.
* `closed_for_good`: **a closed port is closed**.
-/

namespace Etherfold

namespace Port

variable {o : UsedPortOptions} {event : PortEvent} {s s' : Port}

/-- A death after which another host may be obtained at a time: the pause is over. -/
def Paused (o : UsedPortOptions) (obituary : Obituary) (attempt obtainedAt : ℕ) : Prop :=
  obituary.death.attempt = attempt ∧ obituary.death.restarting = true ∧ 1 ≤ attempt ∧ attempt ≤ o.attempts ∧
    obituary.diedAt + backoffFor attempt o ≤ obtainedAt

/-- What holds of the hosts of a port. -/
structure Turns (o : UsedPortOptions) (s : Port) : Prop where
  letGo : s.letGo.map Prod.fst = List.range (s.held + if s.released then 1 else 0)
  deaths : s.obituaries.length = s.held + if s.dead then 1 else 0
  hosts : s.obtained.length = s.held
  obtained : ∀ (i attempt obtainedAt : ℕ), s.obtained[i]? = some (attempt, obtainedAt) →
    ∃ obituary, s.obituaries[i]? = some obituary ∧ Paused o obituary attempt obtainedAt
  restarting : ∀ restartAt, s.restartAt = some restartAt →
    ∃ obituary, s.obituaries[s.held]? = some obituary ∧ Paused o obituary s.deaths restartAt

theorem turns_fresh (o : UsedPortOptions) (access : HostAccess) (now : ℕ) (handsOver : Bool) :
    Turns o (fresh access now handsOver) := by
  constructor <;> simp [fresh]

theorem Turns.wired (h : Turns o s) (hwired : Wired s s') : Turns o s' := by
  obtain ⟨_, _, _, _, _, _, rfl⟩ := hwired
  exact ⟨h.letGo, h.deaths, h.hosts, h.obtained, h.restarting⟩

/-- A host that stands dies: it is let go of, and the pause begins. -/
theorem Turns.died (h : Turns o s) (hkept : Kept o s) (hclosed : s.closed = false) (hdead : s.dead = false)
    (cause : DeathCause) (probe : Probe) : Turns o (s.died o cause probe) := by
  have hheld : s.released = false := (hkept.released hclosed).trans hdead
  have hlength : s.obituaries.length = s.held := by simpa [hdead] using h.deaths
  refine ⟨?_, ?_, h.hosts, ?_, ?_⟩
  · have hletGo : s.letGo.map Prod.fst = List.range s.held := by simpa [hheld] using h.letGo
    simp [Port.died, rejectAll, hletGo, List.range_succ]
  · simp [Port.died, hlength, rejectAll]
  · intro i attempt obtainedAt hi
    obtain ⟨obituary, hobituary, hpaused⟩ := h.obtained i attempt obtainedAt hi
    have hlt : i < s.obituaries.length := (List.getElem?_eq_some_iff.1 hobituary).1
    exact ⟨obituary, by simpa [Port.died, rejectAll, List.getElem?_append_left hlt] using hobituary, hpaused⟩
  · intro restartAt hrestartAt
    by_cases hrestarting : s.restarting o = true
    · have hbudget : s.deaths + 1 ≤ o.attempts := by simpa using (Bool.and_eq_true_iff.1 hrestarting).2
      obtain rfl : s.now + backoffFor (s.deaths + 1) o = restartAt := by simpa [Port.died, hrestarting] using hrestartAt
      exact ⟨⟨s.now, cause, probe, s.deathOf o⟩, by simp [Port.died, rejectAll, ← hlength], rfl, hrestarting,
        Nat.le_add_left _ _, hbudget, le_rfl⟩
    · -- the pause before is over: its host stood
      have hbefore : s.restartAt = some restartAt := by simpa [Port.died, hrestarting, rejectAll] using hrestartAt
      simp [hkept.unpaused hdead] at hbefore

theorem Turns.move (h : Turns o s) (hkept : Kept o s) (hmove : Move o event s s') : Turns o s' := by
  cases hmove with
  | asks portCase posts => exact h.wired (wired_request s portCase posts)
  | answers id ok => exact h.wired (wired_answer s id ok)
  | alive probe =>
    have h' := h.wired (wired_answer s probe.id true)
    exact ⟨h'.letGo, h'.deaths, h'.hosts, h'.obtained, h'.restarting⟩
  | refuses probe out =>
    obtain ⟨hclosed, hdead⟩ := hkept.probing probe out
    have hwired := wired_answer s probe.id false
    refine (h.wired hwired).died (hkept.wired hwired) ?_ ?_ _ _
    all_goals
      obtain ⟨_, _, _, _, _, _, heq⟩ := hwired
      rw [heq]
      assumption
  | unanswered probe everyMs watches out =>
    obtain ⟨hclosed, hdead⟩ := hkept.probing probe out
    exact h.died hkept hclosed hdead _ _
  | probes =>
    have h' := h.wired (wired_request s .ping true)
    exact ⟨h'.letGo, h'.deaths, h'.hosts, h'.obtained, h'.restarting⟩
  | unposted everyMs watches stands =>
    have hwired := wired_request s .ping false
    refine (h.wired hwired).died (hkept.wired hwired) ?_ ?_ _ _
    all_goals
      obtain ⟨_, _, _, _, _, _, heq⟩ := hwired
      rw [heq]
      simp [stands]
  | reopens access stands due =>
    obtain ⟨restartAt, hrestartAt, hdue⟩ := (Option.any_eq_true _ _).1 due
    have hdead := (hkept.restarting restartAt hrestartAt).2.1
    -- the host that died last was let go of at its death
    have hreleased : s.released = true := (hkept.released stands).trans hdead
    refine ⟨?_, ?_, ?_, ?_, by simp [reopened]⟩
    · simpa [reopened, hreleased] using h.letGo
    · simpa [reopened, hdead] using h.deaths
    · simp [reopened, h.hosts]
    · intro i attempt obtainedAt hi
      rcases Nat.lt_or_ge i s.obtained.length with hlt | hge
      · exact h.obtained i attempt obtainedAt (by simpa [reopened, List.getElem?_append_left hlt] using hi)
      · -- the host obtained now: its pause is over
        obtain ⟨obituary, hobituary, hattempt, hrestarting, hone, hbudget, hpause⟩ := h.restarting restartAt hrestartAt
        simp only [reopened, List.getElem?_append_right hge, h.hosts] at hi
        obtain ⟨hzero, heq⟩ := List.getElem?_eq_some_iff.1 hi
        obtain rfl : i = s.held := by
          simp only [List.length_cons, List.length_nil] at hzero
          have := h.hosts
          omega
        obtain ⟨rfl, rfl⟩ : s.deaths = attempt ∧ s.now = obtainedAt := by simpa using heq
        exact ⟨obituary, hobituary, hattempt, hrestarting, hone, hbudget, hpause.trans (by simpa using hdue)⟩
  | abandons due => exact ⟨h.letGo, h.deaths, h.hosts, h.obtained, by simp⟩
  | ends stands =>
    exact ⟨h.letGo, h.deaths, h.hosts, h.obtained, by simp [ended]⟩
  | quiesces => exact ⟨h.letGo, h.deaths, h.hosts, h.obtained, h.restarting⟩
  | letsGo quiesced done held =>
    -- the last host of the port: it was not let go of before
    have hletGo : s.letGo.map Prod.fst = List.range s.held := by simpa [held] using h.letGo
    refine ⟨?_, h.deaths, h.hosts, h.obtained, h.restarting⟩
    simp [finish, hletGo, List.range_succ]
  | settles isTimer due =>
    have hnone : s.restartAt = none := hkept.unpaused (hkept.alive due)
    exact ⟨h.letGo, h.deaths, h.hosts, h.obtained, by simp [hnone]⟩
  | _ => exact ⟨h.letGo, h.deaths, h.hosts, h.obtained, h.restarting⟩

/-- A host that was told it is quiet: the port is closed, and the host has said so. -/
def Quieted (events : List PortEvent) (s : Port) : Prop :=
  ∀ host, (host, true) ∈ s.letGo → s.closed = true ∧ ∃ id, .message host (.response id true true) ∈ events

theorem Quieted.wired {events : List PortEvent} (h : Quieted events s) (hwired : Wired s s') : Quieted events s' := by
  obtain ⟨_, _, _, _, _, _, rfl⟩ := hwired
  exact h

theorem Quieted.died {events : List PortEvent} (h : Quieted events s) (cause : DeathCause) (probe : Probe) :
    Quieted events (s.died o cause probe) := by
  intro host hhost
  exact h host (by simpa [Port.died, rejectAll] using hhost)

theorem Quieted.move {events : List PortEvent} (h : Quieted events s) (hevent : event ∈ .wait 0 :: events)
    (hmove : Move o event s s') : Quieted events s' := by
  cases hmove with
  | asks portCase posts => exact h.wired (wired_request s portCase posts)
  | answers id ok => exact h.wired (wired_answer s id ok)
  | alive probe =>
    have h' := h.wired (wired_answer s probe.id true)
    exact h'
  | refuses probe => exact (h.wired (wired_answer s probe.id false)).died _ _
  | unanswered probe => exact h.died _ _
  | probes =>
    have h' := h.wired (wired_request s .ping true)
    exact h'
  | unposted => exact (h.wired (wired_request s .ping false)).died _ _
  | ends => exact fun host hhost => ⟨rfl, (h host hhost).2⟩
  | letsGo quiesced done held said =>
    intro host hhost
    rcases List.mem_append.1 hhost with hbefore | hnow
    · exact h host hbefore
    · -- a host that was not heard to stop is let go of as one that may be busy
      obtain ⟨rfl, rfl⟩ : host = s.held ∧ quiesced = true := by simpa [eq_comm] using hnow
      obtain ⟨id, rfl⟩ := said rfl
      exact ⟨done, id, by simpa using hevent⟩
  | _ => exact h

/-- **A host is let go once.** Over whole runs, the hosts are let go of in the order they were obtained,
the one before when the next is held, and a host is ended as a quiet one only when the port is closed
and the host has answered that it stopped. -/
theorem let_go_once (o : UsedPortOptions) (access : HostAccess) (now : ℕ) (handsOver prepared posts : Bool)
    (events : List PortEvent) (s : Port) (hrun : (connected o access now handsOver prepared posts).run o events = some s) :
    s.letGo.map Prod.fst = List.range (s.held + if s.released then 1 else 0) ∧
      ∀ host, (host, true) ∈ s.letGo →
        s.closed = true ∧ ∃ id, .message host (.response id true true) ∈ events := by
  have hfresh : Turns o (fresh access now handsOver) ∧ Quieted events (fresh access now handsOver) :=
    ⟨turns_fresh o access now handsOver, by simp [Quieted, fresh]⟩
  obtain ⟨-, h, hquieted⟩ := run_connected (P := fun s => Turns o s ∧ Quieted events s) hfresh
    (fun event hevent s s' hkept h hmove => ⟨h.1.move hkept hmove, h.2.move hevent hmove⟩) hrun
  exact ⟨h.letGo, hquieted⟩

/-- The tab is done with a host, and the host stops. -/
def wentAway : List PortEvent := [.call .query true, .close true, .message 0 (.response 2 true true)]

theorem let_go_once_wentAway :
    ∃ s, (connected defaultOptions ⟨true, true⟩ 0 false false true).run defaultOptions wentAway = some s ∧
      s.letGo = [(0, true)] ∧ s.letGo.map Prod.fst = List.range (s.held + if s.released then 1 else 0) ∧
      ∀ host, (host, true) ∈ s.letGo →
        s.closed = true ∧ ∃ id, .message host (.response id true true) ∈ wentAway := by
  obtain ⟨s, hs, hletGo⟩ : ∃ s,
      (connected defaultOptions ⟨true, true⟩ 0 false false true).run defaultOptions wentAway = some s ∧
        s.letGo = [(0, true)] := ⟨_, rfl, rfl⟩
  exact ⟨s, hs, hletGo, let_go_once _ _ _ _ _ _ _ _ hs⟩

/-- **A host is obtained after the death of the one before**, and not before the pause is over: it grows
with the deaths in a row, and there is none once the budget is spent. -/
theorem obtained_after_death (o : UsedPortOptions) (access : HostAccess) (now : ℕ) (handsOver prepared posts : Bool)
    (events : List PortEvent) (s : Port) (hrun : (connected o access now handsOver prepared posts).run o events = some s) :
    s.obtained.length = s.held ∧ s.obituaries.length = (s.held + if s.dead then 1 else 0) ∧
      ∀ i attempt obtainedAt : ℕ, s.obtained[i]? = some (attempt, obtainedAt) →
        ∃ obituary, s.obituaries[i]? = some obituary ∧ Paused o obituary attempt obtainedAt := by
  obtain ⟨-, h⟩ := run_connected (turns_fresh o access now handsOver)
    (fun event _ s s' hkept h hmove => h.move hkept hmove) hrun
  exact ⟨h.hosts, h.deaths, h.obtained⟩

/-- Two deaths in a row. -/
def crashed : List PortEvent :=
  [.wait 5000, .watchTimer true, .wait 5000, .probeTimer, .wait 500, .restartTimer (some ⟨true, true⟩) fun _ => true,
    .wait 5000, .watchTimer true, .wait 5000, .probeTimer, .wait 1000, .restartTimer (some ⟨true, true⟩) fun _ => true]

theorem obtained_after_death_crashed :
    ∃ s, (connected defaultOptions ⟨true, true⟩ 0 false false true).run defaultOptions crashed = some s ∧
      s.obtained = [(1, 10500), (2, 21500)] ∧ s.obtained.length = s.held ∧
      s.obituaries.length = (s.held + if s.dead then 1 else 0) ∧
      ∀ i attempt obtainedAt : ℕ, s.obtained[i]? = some (attempt, obtainedAt) →
        ∃ obituary, s.obituaries[i]? = some obituary ∧ Paused defaultOptions obituary attempt obtainedAt := by
  obtain ⟨s, hs, hobtained⟩ : ∃ s,
      (connected defaultOptions ⟨true, true⟩ 0 false false true).run defaultOptions crashed = some s ∧
        s.obtained = [(1, 10500), (2, 21500)] := ⟨_, rfl, rfl⟩
  exact ⟨s, hs, hobtained, obtained_after_death _ _ _ _ _ _ _ _ hs⟩

/-- How much of the budget is spent: a restart that is to come is not. -/
def spent (o : UsedPortOptions) (s : Port) : ℕ := min s.deaths o.attempts - if s.restartAt.isSome then 1 else 0

theorem spent_wired (hwired : Wired s s') : s'.held = s.held ∧ s'.spent o = s.spent o := by
  obtain ⟨_, _, _, _, _, _, rfl⟩ := hwired
  exact ⟨rfl, rfl⟩

theorem spent_died (hnone : s.restartAt = none) (cause : DeathCause) (probe : Probe) :
    (s.died o cause probe).spent o = min (s.deaths + 1) o.attempts - if s.restarting o then 1 else 0 := by
  have hrestartAt : (s.died o cause probe).restartAt.isSome = s.restarting o := by
    by_cases hrestarting : s.restarting o = true
    · simp [Port.died, hrestarting]
    · simp [Port.died, hrestarting, hnone]
  unfold spent
  rw [hrestartAt]
  rfl

/-- A death spends nothing: a restart that follows is still to come. -/
theorem Kept.spends_died (h : Kept o s) (hdead : s.dead = false) (hwired : Wired s s') (cause : DeathCause)
    (probe : Probe) : (s'.died o cause probe).held + s.spent o ≤ s.held + (s'.died o cause probe).spent o := by
  have hnone := h.unpaused hdead
  obtain ⟨hheld, hnone', hspent⟩ : s'.held = s.held ∧ s'.restartAt = none ∧
      (min (s'.deaths + 1) o.attempts - if s'.restarting o then 1 else 0) =
        min (s.deaths + 1) o.attempts - if s.restarting o then 1 else 0 := by
    obtain ⟨_, _, _, _, _, _, rfl⟩ := hwired
    exact ⟨rfl, hnone, rfl⟩
  rw [spent_died hnone', hspent]
  refine Nat.add_le_add hheld.le ?_
  simp only [spent, hnone, Option.isSome_none, Bool.false_eq_true, if_false]
  split
  · next hrestarting =>
    have hbudget : s.deaths + 1 ≤ o.attempts := by simpa using (Bool.and_eq_true_iff.1 hrestarting).2
    omega
  · omega

/-- **A host is obtained out of the budget**, which only a host that was alive for long enough gives
back. -/
theorem Kept.spends (h : Kept o s) (hmove : Move o event s s') (hsettles : event ≠ .settleTimer) :
    s'.held + s.spent o ≤ s.held + s'.spent o := by
  cases hmove with
  | asks portCase posts =>
    obtain ⟨hheld, hspent⟩ := spent_wired (o := o) (wired_request s portCase posts)
    omega
  | answers id ok =>
    obtain ⟨hheld, hspent⟩ := spent_wired (o := o) (wired_answer s id ok)
    omega
  | alive probe =>
    obtain ⟨hheld, hspent⟩ := spent_wired (o := o) (wired_answer s probe.id true)
    exact (by omega : (s.answer probe.id true).held + s.spent o ≤ s.held + (s.answer probe.id true).spent o)
  | probes =>
    obtain ⟨hheld, hspent⟩ := spent_wired (o := o) (wired_request s .ping true)
    exact (by omega : (s.request .ping true).held + s.spent o ≤ s.held + (s.request .ping true).spent o)
  | refuses probe out => exact h.spends_died (h.probing probe out).2 (wired_answer s probe.id false) _ _
  | unanswered probe everyMs watches out => exact h.spends_died (h.probing probe out).2 ⟨_, _, _, _, _, _, rfl⟩ _ _
  | unposted everyMs watches stands => exact h.spends_died stands.2 (wired_request s .ping false) _ _
  | reopens access stands due =>
    -- the restart that was to come is spent, and a host is held for it
    obtain ⟨-, -, hone, hbudget⟩ := h.due due
    have hmin : min s.deaths o.attempts = s.deaths := Nat.min_eq_left hbudget
    have hsome : s.restartAt.isSome = true := Option.isSome_of_any due
    simp only [spent, reopened, hmin, hsome, if_true, Option.isSome_none, Bool.false_eq_true, if_false]
    omega
  | abandons =>
    simp only [spent, Option.isSome_none, Bool.false_eq_true, if_false]
    omega
  | ends =>
    simp only [spent, ended, rejectAll, Option.isSome_none, Bool.false_eq_true, if_false]
    omega
  | settles isTimer => exact absurd isTimer hsettles
  | _ => exact le_rfl

theorem spent_le (s : Port) : s.spent o ≤ o.attempts := (Nat.sub_le _ _).trans (Nat.min_le_right _ _)

/-- **The budget bounds a crash loop.** From any state a run reaches, no more hosts are obtained than
there are attempts, until a host has been alive for long enough. -/
theorem restarts_bounded (o : UsedPortOptions) (access : HostAccess) (now : ℕ) (handsOver prepared posts : Bool)
    (before events : List PortEvent) (s s' : Port)
    (hrun : (connected o access now handsOver prepared posts).run o before = some s)
    (hmore : s.run o events = some s') (hsettles : .settleTimer ∉ events) : s'.held ≤ s.held + o.attempts := by
  obtain ⟨hkept, -⟩ := run_connected (P := fun _ => True) trivial (fun _ _ _ _ _ _ _ => trivial) hrun
  have hspends := (hkept.run_moves (P := fun t => t.held + s.spent o ≤ s.held + t.spent o) le_rfl
    (fun event hevent t t' ht hP hmove => ?_) hmore).2
  · have hle := spent_le (o := o) s'
    omega
  · have hone := ht.spends hmove (fun heq => hsettles (heq ▸ hevent))
    omega

theorem restarts_bounded_crashed :
    ∃ s, (connected defaultOptions ⟨true, true⟩ 0 false false true).run defaultOptions crashed = some s ∧
      s.held ≤ 0 + defaultOptions.attempts := by
  obtain ⟨s, hs⟩ : ∃ s, (connected defaultOptions ⟨true, true⟩ 0 false false true).run defaultOptions crashed = some s :=
    ⟨_, rfl⟩
  exact ⟨s, hs, restarts_bounded _ _ _ _ _ _ [] _ _ _ rfl hs (by simp [crashed])⟩

/-- What a closed port still does: nothing the app or a host could see, but for calls that are refused. -/
structure Done (before s : Port) : Prop where
  closed : s.closed = true
  idle : s.pending = []
  held : s.held = before.held
  asked : s.asked = before.asked
  obituaries : s.obituaries = before.obituaries
  obtained : s.obtained = before.obtained
  refused : ∃ calls, s.settled = before.settled ++ calls ∧ ∀ call ∈ calls, call.2 = .portClosed false

theorem Done.move {before : Port} (h : Done before s) (hkept : Kept o s) (hmove : Move o event s s') : Done before s' := by
  have hclosed := h.closed
  have hno : s.probing = none := by
    cases hprobing : s.probing with
    | none => rfl
    | some probe => simp [(hkept.probing probe hprobing).1] at hclosed
  -- no call waits, so what is answered late is dropped
  have hstill : ∀ id ok, s.answer id ok = s := fun id ok => by simp [Port.answer, h.idle]
  cases hmove with
  | asks portCase posts =>
    obtain ⟨calls, hcalls, hrefused⟩ := h.refused
    simp only [Port.request, hclosed, if_true, settle]
    refine ⟨rfl, h.idle, h.held, h.asked, h.obituaries, h.obtained, calls ++ [(s.calls, .portClosed false)], ?_, ?_⟩
    · simp [hcalls]
    · simpa [or_imp, forall_and] using hrefused
  | answers id ok => rw [hstill]; exact h
  | alive probe out => simp [hno] at out
  | refuses probe out => simp [hno] at out
  | unanswered probe _ _ out => simp [hno] at out
  | probes _ _ stands => simp [hclosed] at stands
  | unposted _ _ stands => simp [hclosed] at stands
  | reopens _ stands => simp [hclosed] at stands
  | ends stands => simp [hclosed] at stands
  | _ => exact ⟨hclosed, h.idle, h.held, h.asked, h.obituaries, h.obtained, h.refused⟩

/-- **A closed port is closed for good.** Whatever happens after a close, no host is obtained, no death
is told, nothing the app asks is sent, and every call it makes is refused. -/
theorem closed_for_good (o : UsedPortOptions) (access : HostAccess) (now : ℕ) (handsOver prepared posts : Bool)
    (before events : List PortEvent) (s s' : Port)
    (hrun : (connected o access now handsOver prepared posts).run o before = some s) (hclosed : s.closed = true)
    (hmore : s.run o events = some s') : Done s s' := by
  obtain ⟨hkept, h⟩ := run_connected (accounted_fresh access now handsOver)
    (fun event _ s s' hkept h hmove => h.move hkept hmove) hrun
  have hdone : Done s s := ⟨hclosed, h.gone (.inl hclosed), rfl, rfl, rfl, rfl, [], by simp, by simp⟩
  exact (hkept.run_moves hdone (fun event _ t t' ht hP hmove => hP.move ht hmove) hmore).2

/-- A call is in flight and a death is being concluded when the tab is done. -/
def unmounted : List PortEvent := [.call .query true, .wait 5000, .watchTimer true, .close true]

theorem closed_for_good_unmounted :
    ∃ s s', (connected defaultOptions ⟨true, true⟩ 0 false false true).run defaultOptions unmounted = some s ∧
      s.run defaultOptions [.call .query true, .wait 5000, .quiesceTimer] = some s' ∧ Done s s' := by
  obtain ⟨s, hs, hclosed, s', hs'⟩ :
      ∃ s, (connected defaultOptions ⟨true, true⟩ 0 false false true).run defaultOptions unmounted = some s ∧
        s.closed = true ∧ ∃ s', s.run defaultOptions [.call .query true, .wait 5000, .quiesceTimer] = some s' :=
    ⟨_, rfl, rfl, _, rfl⟩
  exact ⟨s, s', hs, hs', closed_for_good _ _ _ _ _ _ _ _ _ _ hs hclosed hs'⟩

end Port

end Etherfold
