import Mathlib.Data.List.Basic
import Mathlib.Data.List.Perm.Basic
import Mathlib.Tactic

/-!
# The port a tab holds its host by

A call is posted under a number and answered under it. The port watches its host: after an interval
of silence it asks, and a question that is not answered within another interval is a death. A death
rejects every call, and another host is obtained after a pause that grows, as often in a row as was
configured. Messages, timers and the app's calls interleave as they like. Times are milliseconds.

* `Port.request`, `Port.died`, `Port.restart`, `Port.close`: what the port does.
* `Port.step`: a call of the app, a message, a timer.
* `Kept.moves`: **what a step can do**, as the moves every invariant is proved over.
-/

namespace Etherfold

/-- The cases of the envelope. -/
inductive PortCase where
  | connect
  | progress
  | subscribeToProgress
  | unsubscribeFromProgress
  | subscribeToStateMoved
  | unsubscribeFromStateMoved
  | visibility
  | ping
  | letGo
  | startIndexing
  | stopIndexing
  | reconfigure
  | generations
  | promotion
  | checkTxInclusion
  | query
  | declarations
  | getCurrent
  | getAsOf
  | listCurrent
  | listAsOf
  deriving DecidableEq, Repr

/-- What a host pushes to those who subscribed to it. -/
inductive PushName where
  | progress
  | stateMoved
  deriving DecidableEq, Repr

/-- The case a subscription is opened by. -/
def PushName.subscribe : PushName → PortCase
  | .progress => .subscribeToProgress
  | .stateMoved => .subscribeToStateMoved

/-- The case it is ended by. -/
def PushName.unsubscribe : PushName → PortCase
  | .progress => .unsubscribeFromProgress
  | .stateMoved => .unsubscribeFromStateMoved

/-- The cases that are about a subscription. -/
def PushName.concerns (name : PushName) (portCase : PortCase) : Bool :=
  portCase = name.subscribe || portCase = name.unsubscribe

/-- The cases the port asks on its own account. -/
def PortCase.own : PortCase → Bool
  | .connect | .subscribeToProgress | .unsubscribeFromProgress | .subscribeToStateMoved
  | .unsubscribeFromStateMoved | .visibility | .ping | .letGo => true
  | _ => false

/-- The options with every default filled in. Without a watch no death is concluded. -/
structure UsedPortOptions where
  watchMs : Option ℕ
  attempts : ℕ
  backoffMs : ℕ
  maxBackoffMs : ℕ
  settledAfterMs : ℕ
  deriving DecidableEq, Repr

/-- How long the port waits before a restart: it doubles, up to a ceiling. -/
def backoffFor (attempt : ℕ) (o : UsedPortOptions) : ℕ := min o.maxBackoffMs (o.backoffMs * 2 ^ (attempt - 1))

/-- How a host is held: whether another can be obtained once it died, and whether it can be let go. -/
structure HostAccess where
  reopens : Bool
  closes : Bool
  deriving DecidableEq, Repr

/-- A death, as the app is told. -/
structure HostDeath where
  attempt : ℕ
  restarting : Bool
  restartInMs : Option ℕ
  rejected : ℕ
  deriving DecidableEq, Repr

/-- How a call ends: the host's answer, or why there is none. -/
inductive CallOutcome where
  | answered (host : ℕ) (ok : Bool)
  | hostDied (death : HostDeath)
  | portClosed (inFlight : Bool)
  | unsent
  deriving DecidableEq, Repr

/-- A call in flight: its number on the wire, which call of the port it is, and its case. -/
structure PendingCall where
  id : ℕ
  call : ℕ
  portCase : PortCase
  deriving DecidableEq, Repr

/-- The question that is out: the call it is, and when it was asked. -/
structure Probe where
  id : ℕ
  call : ℕ
  askedAt : ℕ
  deriving DecidableEq, Repr

/-- What a death was concluded from. -/
inductive DeathCause where
  | unanswered
  | refused
  | unposted
  deriving DecidableEq, Repr

/-- A death that was concluded: when, from what, and the question it was concluded from. -/
structure Obituary where
  diedAt : ℕ
  cause : DeathCause
  probe : Probe
  death : HostDeath
  deriving DecidableEq, Repr

/-- The port. Hosts are counted, and the last one obtained is held. The fields from `asked` on are
what it did: the calls it posted and to which host, how calls ended, when it heard its host, the
deaths it concluded, the hosts it let go of and what they were told, the hosts it obtained, each
with the number of its attempt and when, and of every call what it was about and when it was made. -/
structure Port where
  now : ℕ
  held : ℕ
  access : HostAccess
  released : Bool
  closed : Bool
  dead : Bool
  lastDeath : Option HostDeath
  deaths : ℕ
  heardAt : ℕ
  probing : Option Probe
  watchAt : Option ℕ
  restartAt : Option ℕ
  settleAt : Option ℕ
  quiescing : Option (ℕ × ℕ)
  nextId : ℕ
  calls : ℕ
  pending : List PendingCall
  handsOver : Bool
  visible : Bool
  listeners : PushName → ℕ
  asked : List (ℕ × ℕ × PortCase)
  settled : List (ℕ × CallOutcome)
  heard : List ℕ
  obituaries : List Obituary
  letGo : List (ℕ × Bool)
  obtained : List (ℕ × ℕ)
  requested : List (PortCase × ℕ)

namespace Port

/-- A call ends. -/
def settle (s : Port) (call : ℕ) (outcome : CallOutcome) : Port := { s with settled := s.settled ++ [(call, outcome)] }

/-- **A request.** A closed port refuses it, and so does one whose host died. `posts` is whether the
endpoint takes the message. -/
def request (s : Port) (portCase : PortCase) (posts : Bool) : Port :=
  let called : Port := { s with calls := s.calls + 1, requested := s.requested ++ [(portCase, s.now)] }
  if s.closed then called.settle s.calls (.portClosed false)
  else
    match (if s.dead then s.lastDeath else none) with
    | some death => called.settle s.calls (.hostDied death)
    | none =>
      let numbered : Port := { called with nextId := s.nextId + 1 }
      if posts then
        { numbered with
          pending := s.pending ++ [(⟨s.nextId, s.calls, portCase⟩ : PendingCall)]
          asked := s.asked ++ [(s.calls, s.held, portCase)] }
      else numbered.settle s.calls .unsent

/-- Several requests, one after the other. -/
def requests (s : Port) (cases : List PortCase) (posts : PortCase → Bool) : Port :=
  cases.foldl (fun s portCase => s.request portCase (posts portCase)) s

/-- Every call in flight ends. -/
def rejectAll (s : Port) (outcome : CallOutcome) : Port :=
  { s with pending := [], settled := s.settled ++ s.pending.map fun waiting => (waiting.call, outcome) }

/-- Watch the host. -/
def watch (o : UsedPortOptions) (s : Port) : Port :=
  match o.watchMs with
  | none => s
  | some everyMs => if s.closed || s.dead then s else { s with watchAt := some (s.now + everyMs) }

/-- Whether there will be another host: the shape can obtain one, and the budget is not spent. -/
def restarting (o : UsedPortOptions) (s : Port) : Bool := s.access.reopens && decide (s.deaths + 1 ≤ o.attempts)

/-- What the app is told of a death. Its own questions are no calls of the app. -/
def deathOf (o : UsedPortOptions) (s : Port) : HostDeath :=
  ⟨s.deaths + 1, s.restarting o, if s.restarting o then some (backoffFor (s.deaths + 1) o) else none,
    (s.pending.filter fun waiting => waiting.portCase ≠ .ping).length⟩

/-- **The host is gone.** The corpse is let go without being killed, every call is rejected, and
another host is to be obtained where there will be one. -/
def died (o : UsedPortOptions) (s : Port) (cause : DeathCause) (probe : Probe) : Port :=
  { s.rejectAll (.hostDied (s.deathOf o)) with
    deaths := s.deaths + 1
    dead := true
    probing := none
    watchAt := none
    settleAt := none
    released := true
    letGo := s.letGo ++ [(s.held, false)]
    lastDeath := some (s.deathOf o)
    obituaries := s.obituaries ++ [(⟨s.now, cause, probe, s.deathOf o⟩ : Obituary)]
    restartAt := if s.restarting o then some (s.now + backoffFor (s.deaths + 1) o) else s.restartAt }

/-- What a host that was obtained again is told before anything else. -/
def resent (s : Port) : List PortCase :=
  (if s.handsOver then [.connect] else []) ++ (if s.visible then [.visibility] else [])

/-- The subscriptions of this tab. -/
def subscriptions (s : Port) : List PortCase :=
  (if 0 < s.listeners .progress then [.subscribeToProgress] else []) ++
    (if 0 < s.listeners .stateMoved then [.subscribeToStateMoved] else [])

/-- Another host is held. -/
def reopened (s : Port) (access : HostAccess) : Port :=
  { s with
    held := s.held + 1
    access := access
    released := false
    dead := false
    heardAt := s.now
    obtained := s.obtained ++ [(s.deaths, s.now)] }

/-- What a host that was obtained is asked: what the dead one was, and from when it is alive for long
enough. -/
def resume (o : UsedPortOptions) (s : Port) (posts : PortCase → Bool) : Port :=
  let s := s.requests s.resent posts
  let s := watch o { s with settleAt := some (s.now + o.settledAfterMs) }
  s.requests s.subscriptions posts

/-- **Another host is obtained**, or the restart is abandoned, where there is none to obtain or what
the dead one was handed cannot be handed over again. -/
def restart (o : UsedPortOptions) (s : Port) (obtained : Option HostAccess) (posts : PortCase → Bool) : Port :=
  if s.closed then { s with restartAt := none }
  else
    match obtained with
    | none => { s with restartAt := none, lastDeath := some ⟨s.deaths, false, none, 0⟩ }
    | some access => ({ s with restartAt := none }.reopened access).resume o posts

/-- The host is let go, and told whether it is known to be quiet. -/
def finish (s : Port) (quiesced : Bool) : Port :=
  { s with quiescing := none, released := true, letGo := s.letGo ++ [(s.held, quiesced)] }

/-- What the app sees of a close: every call is rejected now, and nothing follows. -/
def ended (s : Port) : Port :=
  { s.rejectAll (.portClosed true) with
    closed := true
    listeners := fun _ => 0
    probing := none
    watchAt := none
    restartAt := none
    settleAt := none }

/-- The host is asked to let go, for as long as a host may be silent. -/
def quiesce (o : UsedPortOptions) (s : Port) : Port :=
  { s with nextId := s.nextId + 1, quiescing := some (s.nextId, s.now + o.watchMs.getD 1000) }

/-- **The tab is done.** A host that is not a corpse is let go once it has answered, or at once where it
cannot be asked. -/
def close (o : UsedPortOptions) (s : Port) (posts : Bool) : Port :=
  if s.closed then s
  else if s.released then s.ended
  else if s.access.closes && posts then s.ended.quiesce o
  else s.ended.finish false

/-- So many listen. -/
def listening (s : Port) (name : PushName) (n : ℕ) : Port := { s with listeners := Function.update s.listeners name n }

/-- A listener is added: the first one subscribes. -/
def on (s : Port) (name : PushName) (posts : Bool) : Port :=
  if s.listeners name = 0 then (s.listening name 1).request name.subscribe posts
  else s.listening name (s.listeners name + 1)

/-- A listener is taken away: the last one unsubscribes. -/
def off (s : Port) (name : PushName) (posts : Bool) : Port :=
  if s.listeners name = 0 then s
  else if 1 < s.listeners name ∨ s.closed = true then s.listening name (s.listeners name - 1)
  else (s.listening name 0).request name.unsubscribe posts

/-- The host is told whether the tab is on screen. -/
def tellVisibility (s : Port) (posts : Bool) : Port :=
  if s.closed || s.dead then { s with visible := true } else { s with visible := true }.request .visibility posts

/-- The call a response is to ends. -/
def answer (s : Port) (id : ℕ) (ok : Bool) : Port :=
  match s.pending.find? fun waiting => waiting.id = id with
  | none => s
  | some waiting =>
    { s.settle waiting.call (.answered s.held ok) with pending := s.pending.filter fun waiting => waiting.id ≠ id }

/-- The question is answered: the watch goes on, or the host refused it and is gone. -/
def answered (o : UsedPortOptions) (s : Port) (probe : Probe) (ok : Bool) : Port :=
  if ok then watch o { s with probing := none } else s.died o .refused probe

/-- Ask whether the host is alive. -/
def probe (o : UsedPortOptions) (s : Port) (posts : Bool) : Port :=
  match s.probing with
  | some _ => s.watch o
  | none =>
    if posts then { s.request .ping true with probing := some ⟨s.nextId, s.calls, s.now⟩ }
    else (s.request .ping false).died o .unposted ⟨s.nextId, s.calls, s.now⟩

/-- The watch goes off: a host heard of since is watched on, and a silent one is asked. -/
def watched (o : UsedPortOptions) (s : Port) (posts : Bool) : Port :=
  match o.watchMs with
  | none => { s with watchAt := none }
  | some everyMs =>
    if s.closed || s.dead then { s with watchAt := none }
    else if s.now - s.heardAt < everyMs then { s with watchAt := none }.watch o
    else { s with watchAt := none }.probe o posts

end Port

/-- What arrives from a host: a push, or the response to a request. `stopped` is whether it says, in
answer to a `letGo`, that the host stopped. -/
inductive HostMessage where
  | push
  | response (id : ℕ) (ok stopped : Bool)
  deriving DecidableEq, Repr

/-- What happens to a port. -/
inductive PortEvent where
  | call (portCase : PortCase) (posts : Bool)
  | on (name : PushName) (posts : Bool)
  | off (name : PushName) (posts : Bool)
  | shown (posts : Bool)
  | message (host : ℕ) (message : HostMessage)
  | watchTimer (posts : Bool)
  | probeTimer
  | restartTimer (obtained : Option HostAccess) (posts : PortCase → Bool)
  | settleTimer
  | quiesceTimer
  | close (posts : Bool)
  | wait (ms : ℕ)

namespace Port

/-- A message of the host that is held. -/
def receive (o : UsedPortOptions) (s : Port) : HostMessage → Port
  | .push => { s with heardAt := s.now, heard := s.heard ++ [s.now] }
  | .response id ok stopped =>
    let s := { s with heardAt := s.now, heard := s.heard ++ [s.now] }.answer id ok
    match s.quiescing, s.probing with
    | some (number, _), _ => if number = id then s.finish (ok && stopped) else s
    | none, some probe => if probe.id = id then s.answered o probe ok else s
    | none, none => s

/-- A timer may go off at its time, and not before. -/
def due (s : Port) (timer : Option ℕ) : Bool := timer.any (· ≤ s.now)

/-- **One event.** A message of a host that was let go is not heard. -/
def step (o : UsedPortOptions) (s : Port) : PortEvent → Option Port
  | .call portCase posts => if portCase.own then none else some (s.request portCase posts)
  | .on name posts => some (s.on name posts)
  | .off name posts => some (s.off name posts)
  | .shown posts => if s.closed then none else some (s.tellVisibility posts)
  | .message host message => some (if host = s.held ∧ s.released = false then s.receive o message else s)
  | .watchTimer posts => if s.due s.watchAt then some (s.watched o posts) else none
  | .probeTimer =>
    match o.watchMs, s.probing with
    | some everyMs, some probe => if probe.askedAt + everyMs ≤ s.now then some (s.died o .unanswered probe) else none
    | _, _ => none
  | .restartTimer obtained posts => if s.due s.restartAt then some (s.restart o obtained posts) else none
  | .settleTimer => if s.due s.settleAt then some { s with settleAt := none, deaths := 0 } else none
  | .quiesceTimer => if s.due (s.quiescing.map Prod.snd) then some (s.finish false) else none
  | .close posts => some (s.close o posts)
  | .wait ms => some { s with now := s.now + ms }

/-- A run. -/
def run (o : UsedPortOptions) (s : Port) (events : List PortEvent) : Option Port := events.foldlM (step o) s

/-- A port that was just connected, and has said nothing. -/
def fresh (access : HostAccess) (now : ℕ) (handsOver : Bool) : Port :=
  ⟨now, 0, access, false, false, false, none, 0, now, none, none, none, none, none, 1, 0, [], handsOver, false,
    fun _ => 0, [], [], [], [], [], [], []⟩

/-- A port that holds its first host. What is handed over is asked first, where it can be. -/
def connected (o : UsedPortOptions) (access : HostAccess) (now : ℕ) (handsOver prepared posts : Bool) : Port :=
  watch o (if handsOver && prepared then (fresh access now handsOver).request .connect posts
    else fresh access now handsOver)

/-- What is wired: a request and an answer change nothing but the calls. -/
def Wired (s s' : Port) : Prop :=
  ∃ nextId calls pending asked settled requested, s' = { s with
    nextId := nextId, calls := calls, pending := pending, asked := asked, settled := settled, requested := requested }

variable {o : UsedPortOptions} {event : PortEvent} {s s' : Port}

theorem Wired.trans {t : Port} (h : Wired s s') (h' : Wired s' t) : Wired s t := by
  obtain ⟨_, _, _, _, _, _, rfl⟩ := h
  obtain ⟨_, _, _, _, _, _, rfl⟩ := h'
  exact ⟨_, _, _, _, _, _, rfl⟩

theorem wired_request (s : Port) (portCase : PortCase) (posts : Bool) : Wired s (s.request portCase posts) := by
  unfold request settle
  split
  · exact ⟨_, _, _, _, _, _, rfl⟩
  · split
    · exact ⟨_, _, _, _, _, _, rfl⟩
    · split <;> exact ⟨_, _, _, _, _, _, rfl⟩

theorem wired_requests (cases : List PortCase) (posts : PortCase → Bool) (s : Port) :
    Wired s (s.requests cases posts) := by
  induction cases generalizing s with
  | nil => exact ⟨_, _, _, _, _, _, rfl⟩
  | cons portCase cases ih => exact (wired_request s portCase (posts portCase)).trans (ih _)

theorem wired_answer (s : Port) (id : ℕ) (ok : Bool) : Wired s (s.answer id ok) := by
  unfold answer settle
  split <;> exact ⟨_, _, _, _, _, _, rfl⟩

/-- The events at which a subscription is asked for, or its end. -/
def subscribesAt : PortEvent → Bool
  | .on _ _ | .off _ _ | .restartTimer _ _ => true
  | _ => false

/-- **What a port can do**, in one move. -/
inductive Move (o : UsedPortOptions) (event : PortEvent) (s : Port) : Port → Prop
  | asks (portCase : PortCase) (posts : Bool)
    (subscribes : ∀ name : PushName, name.concerns portCase = true → subscribesAt event = true) :
    Move o event s (s.request portCase posts)
  | answers (id : ℕ) (ok : Bool) (held : s.released = false) (other : ∀ probe, s.probing = some probe → probe.id ≠ id) :
    Move o event s (s.answer id ok)
  | alive (probe : Probe) (out : s.probing = some probe) : Move o event s { s.answer probe.id true with probing := none }
  | refuses (probe : Probe) (out : s.probing = some probe) :
    Move o event s ((s.answer probe.id false).died o .refused probe)
  | unanswered (probe : Probe) (everyMs : ℕ) (watches : o.watchMs = some everyMs) (out : s.probing = some probe)
    (late : probe.askedAt + everyMs ≤ s.now) : Move o event s (s.died o .unanswered probe)
  | probes (everyMs : ℕ) (watches : o.watchMs = some everyMs) (stands : s.closed = false ∧ s.dead = false)
    (silent : everyMs ≤ s.now - s.heardAt) :
    Move o event s { s.request .ping true with probing := some ⟨s.nextId, s.calls, s.now⟩ }
  | unposted (everyMs : ℕ) (watches : o.watchMs = some everyMs) (stands : s.closed = false ∧ s.dead = false)
    (silent : everyMs ≤ s.now - s.heardAt) :
    Move o event s ((s.request .ping false).died o .unposted ⟨s.nextId, s.calls, s.now⟩)
  | hears (held : s.released = false) : Move o event s { s with heardAt := s.now, heard := s.heard ++ [s.now] }
  | reopens (access : HostAccess) (stands : s.closed = false) (due : s.due s.restartAt = true)
    (subscribes : subscribesAt event = true) :
    Move o event s ({ s with restartAt := none }.reopened access)
  | abandons (due : s.due s.restartAt = true) :
    Move o event s { s with restartAt := none, lastDeath := some ⟨s.deaths, false, none, 0⟩ }
  | ends (stands : s.closed = false) : Move o event s s.ended
  | quiesces (done : s.closed = true) (held : s.released = false) : Move o event s (s.quiesce o)
  | letsGo (quiesced : Bool) (done : s.closed = true) (held : s.released = false)
    (said : quiesced = true → ∃ id, event = .message s.held (.response id true true)) :
    Move o event s (s.finish quiesced)
  | settles (isTimer : event = .settleTimer) (due : s.due s.settleAt = true) :
    Move o event s { s with settleAt := none, deaths := 0 }
  | times (watchAt settleAt : Option ℕ) (settles : s.dead = true → settleAt = s.settleAt) :
    Move o event s { s with watchAt := watchAt, settleAt := settleAt }
  | attends (listeners : PushName → ℕ) (visible : Bool)
    (subscribes : listeners ≠ s.listeners → subscribesAt event = true) :
    Move o event s { s with listeners := listeners, visible := visible }
  | waits (ms : ℕ) : Move o event s { s with now := s.now + ms }

/-- Moves, one after the other. -/
abbrev Moves (o : UsedPortOptions) (event : PortEvent) : Port → Port → Prop := Relation.ReflTransGen (Move o event)

/-- What holds of a port: a host is let go once it is dead, or once the port is closed and the host
need not be waited for; a question is out while host and port stand, and a restart while the port
stands and its budget is not spent. -/
structure Kept (o : UsedPortOptions) (s : Port) : Prop where
  released : s.closed = false → s.released = s.dead
  told : s.dead = true → s.lastDeath ≠ none
  unsettled : s.dead = true → s.settleAt = none
  probing : ∀ probe, s.probing = some probe → s.closed = false ∧ s.dead = false
  quiescing : ∀ waits, s.quiescing = some waits → s.closed = true ∧ s.released = false
  restarting : ∀ at_, s.restartAt = some at_ → s.closed = false ∧ s.dead = true ∧ 1 ≤ s.deaths ∧ s.deaths ≤ o.attempts

theorem Kept.wired (h : Kept o s) (hwired : Wired s s') : Kept o s' := by
  obtain ⟨_, _, _, _, _, _, rfl⟩ := hwired
  exact ⟨h.released, h.told, h.unsettled, h.probing, h.quiescing, h.restarting⟩

/-- Nothing is being restarted while the host stands. -/
theorem Kept.unpaused (h : Kept o s) (hdead : s.dead = false) : s.restartAt = none := by
  by_contra hne
  obtain ⟨at_, hat⟩ := Option.ne_none_iff_exists'.1 hne
  simp [(h.restarting at_ hat).2.1] at hdead

/-- A host that is alive for long enough stands. -/
theorem Kept.alive (h : Kept o s) (hdue : s.due s.settleAt = true) : s.dead = false := by
  by_contra hne
  simp [due, h.unsettled (by simpa using hne)] at hdue

theorem Kept.died (h : Kept o s) (hclosed : s.closed = false) (hdead : s.dead = false) (cause : DeathCause)
    (probe : Probe) : Kept o (s.died o cause probe) := by
  have hno := h.unpaused hdead
  refine ⟨fun _ => rfl, by simp [Port.died], fun _ => rfl, by simp [Port.died], ?_, ?_⟩
  · intro waits hwaits
    have hquiescing := (h.quiescing waits hwaits).1
    simp [hclosed] at hquiescing
  · intro at_ hat
    by_cases hrestarting : s.restarting o = true
    · have hbudget : s.deaths + 1 ≤ o.attempts := by simpa [restarting] using (Bool.and_eq_true_iff.1 hrestarting).2
      exact ⟨hclosed, rfl, by simp [Port.died], hbudget⟩
    · simp [Port.died, hrestarting, rejectAll, hno] at hat

theorem Kept.due (h : Kept o s) (hdue : s.due s.restartAt = true) :
    s.closed = false ∧ s.dead = true ∧ 1 ≤ s.deaths ∧ s.deaths ≤ o.attempts := by
  obtain ⟨at_, hat, -⟩ := Option.any_eq_true _ _ |>.1 hdue
  exact h.restarting at_ hat

/-- **Every move keeps the port.** -/
theorem Kept.move (h : Kept o s) (hmove : Move o event s s') : Kept o s' := by
  cases hmove with
  | asks portCase posts => exact h.wired (wired_request s portCase posts)
  | answers id ok => exact h.wired (wired_answer s id ok)
  | alive probe out =>
    have h' := h.wired (wired_answer s probe.id true)
    exact ⟨h'.released, h'.told, h'.unsettled, by simp, h'.quiescing, h'.restarting⟩
  | refuses probe out =>
    obtain ⟨hclosed, hdead⟩ := h.probing probe out
    have h' := h.wired (wired_answer s probe.id false)
    obtain ⟨_, _, _, _, _, _, heq⟩ := wired_answer s probe.id false
    exact h'.died (by rw [heq]; exact hclosed) (by rw [heq]; exact hdead) _ _
  | unanswered probe everyMs watches out late =>
    obtain ⟨hclosed, hdead⟩ := h.probing probe out
    exact h.died hclosed hdead _ _
  | probes everyMs watches stands silent =>
    have h' := h.wired (wired_request s .ping true)
    obtain ⟨_, _, _, _, _, _, heq⟩ := wired_request s .ping true
    refine ⟨h'.released, h'.told, h'.unsettled, fun _ _ => ?_, h'.quiescing, h'.restarting⟩
    rw [heq]
    exact stands
  | unposted everyMs watches stands silent =>
    -- a question that cannot be sent is a death at once
    have h' := h.wired (wired_request s .ping false)
    obtain ⟨_, _, _, _, _, _, heq⟩ := wired_request s .ping false
    exact h'.died (by rw [heq]; exact stands.1) (by rw [heq]; exact stands.2) _ _
  | hears => exact ⟨h.released, h.told, h.unsettled, h.probing, h.quiescing, h.restarting⟩
  | reopens access stands due =>
    refine ⟨fun _ => rfl, by simp [reopened], by simp [reopened], ?_, ?_, by simp [reopened]⟩
    · intro probe hprobe
      exact ⟨stands, rfl⟩
    · intro waits hwaits
      have hclosed := (h.quiescing waits hwaits).1
      simp [stands] at hclosed
  | abandons due =>
    exact ⟨h.released, by simp, h.unsettled, h.probing, h.quiescing, by simp⟩
  | ends stands =>
    refine ⟨by simp [ended], h.told, fun _ => rfl, by simp [ended], ?_, by simp [ended]⟩
    intro waits hwaits
    have hclosed := (h.quiescing waits hwaits).1
    simp [stands] at hclosed
  | quiesces done held => exact ⟨h.released, h.told, h.unsettled, h.probing, fun _ _ => ⟨done, held⟩, h.restarting⟩
  | letsGo quiesced done held =>
    refine ⟨?_, h.told, h.unsettled, h.probing, by simp [finish], h.restarting⟩
    intro hclosed
    simp [finish, done] at hclosed
  | settles isTimer due =>
    -- the budget is given back while a host stands, so no restart counts on it
    have hnone : s.restartAt = none := h.unpaused (h.alive due)
    exact ⟨h.released, h.told, fun _ => rfl, h.probing, h.quiescing, by simp [hnone]⟩
  | times watchAt settleAt settles =>
    exact ⟨h.released, h.told, fun hdead => (settles hdead).trans (h.unsettled hdead), h.probing, h.quiescing, h.restarting⟩
  | attends listeners visible => exact ⟨h.released, h.told, h.unsettled, h.probing, h.quiescing, h.restarting⟩
  | waits ms => exact ⟨h.released, h.told, h.unsettled, h.probing, h.quiescing, h.restarting⟩

theorem Kept.moves (h : Kept o s) (hmoves : Moves o event s s') : Kept o s' := by
  induction hmoves with
  | refl => exact h
  | tail _ hmove ih => exact ih.move hmove

theorem moves_requests (hevent : subscribesAt event = true) (cases : List PortCase) (posts : PortCase → Bool)
    (s : Port) :
    Moves o event s (s.requests cases posts) := by
  induction cases generalizing s with
  | nil => exact .refl
  | cons portCase cases ih => exact .head (.asks portCase (posts portCase) fun _ _ => hevent) (ih _)

theorem moves_watch (s : Port) : Moves o event s (s.watch o) := by
  unfold watch
  split
  · exact .refl
  · split
    · exact .refl
    · exact .single (.times _ s.settleAt fun _ => rfl)

theorem moves_resume (hevent : subscribesAt event = true) (hdead : s.dead = false) (posts : PortCase → Bool) :
    Moves o event s (s.resume o posts) := by
  unfold resume
  refine (moves_requests hevent s.resent posts s).trans
    (.head (.times _ _ fun halive => ?_) ((moves_watch _).trans (moves_requests hevent _ _ _)))
  obtain ⟨_, _, _, _, _, _, heq⟩ := wired_requests s.resent posts s
  rw [heq] at halive
  simp [hdead] at halive

theorem Kept.moves_restart (h : Kept o s) (hevent : subscribesAt event = true) (hdue : s.due s.restartAt = true)
    (obtained : Option HostAccess) (posts : PortCase → Bool) : Moves o event s (s.restart o obtained posts) := by
  have hclosed := (h.due hdue).1
  unfold restart
  rw [if_neg (by simp [hclosed])]
  cases obtained with
  | none => exact .single (.abandons hdue)
  | some access => exact .head (.reopens access hclosed hdue hevent) (moves_resume hevent rfl posts)

theorem Kept.moves_receive (h : Kept o s) (hheld : s.released = false) (message : HostMessage)
    (hevent : event = .message s.held message) : Moves o event s (s.receive o message) := by
  cases message with
  | push => exact .single (.hears hheld)
  | response id ok stopped =>
    refine .head (.hears hheld) ?_
    simp only [receive]
    split
    · next _ _ number waits hquiescing =>
      -- the port is closed, and waits for the host to let go
      obtain ⟨_, _, _, _, _, _, heq⟩ := wired_answer { s with heardAt := s.now, heard := s.heard ++ [s.now] } id ok
      have hq : s.quiescing = some (number, waits) := by rw [heq] at hquiescing; exact hquiescing
      have hclosed := (h.quiescing _ hq).1
      have hprobing : ∀ probe, s.probing = some probe → probe.id ≠ id := fun probe hprobe => by
        have := (h.probing probe hprobe).1
        simp [hclosed] at this
      refine .head (.answers id ok hheld hprobing) ?_
      split
      · refine .single (.letsGo _ (by rw [heq]; exact hclosed) (by rw [heq]; exact hheld) fun hquiesced => ?_)
        obtain ⟨rfl, rfl⟩ : ok = true ∧ stopped = true := by simpa using hquiesced
        exact ⟨id, by rw [hevent, heq]⟩
      · exact .refl
    · next probe hquiescing hprobing =>
      obtain ⟨_, _, _, _, _, _, heq⟩ := wired_answer { s with heardAt := s.now, heard := s.heard ++ [s.now] } id ok
      have hout : s.probing = some probe := by rw [heq] at hprobing; exact hprobing
      split
      · next hid =>
        subst hid
        unfold answered
        cases ok with
        | true => exact .head (.alive probe hout) (moves_watch _)
        | false => exact .single (.refuses probe hout)
      · next hid =>
        refine .single (.answers id ok hheld fun other hother => ?_)
        rw [hout] at hother
        cases hother
        exact hid
    · next hquiescing hprobing =>
      obtain ⟨_, _, _, _, _, _, heq⟩ := wired_answer { s with heardAt := s.now, heard := s.heard ++ [s.now] } id ok
      have hout : s.probing = none := by rw [heq] at hprobing; exact hprobing
      refine .single (.answers id ok hheld fun other hother => ?_)
      simp [hout] at hother

theorem moves_watched (s : Port) (posts : Bool) : Moves o event s (s.watched o posts) := by
  refine .head (.times none s.settleAt fun _ => rfl) ?_
  unfold watched
  split
  · exact .refl
  · next everyMs hwatch =>
    split
    · exact .refl
    · next hstands =>
      split
      · exact moves_watch _
      · next hsilent =>
        have hstands : s.closed = false ∧ s.dead = false := by simpa using hstands
        have hlong : everyMs ≤ s.now - s.heardAt := by omega
        unfold Port.probe
        split
        · exact moves_watch _
        · split
          · exact .single (.probes everyMs hwatch hstands hlong)
          · exact .single (.unposted everyMs hwatch hstands hlong)

theorem moves_close (s : Port) (posts : Bool) : Moves o event s (s.close o posts) := by
  unfold Port.close
  split
  · exact .refl
  · next hclosed =>
    have hstands : s.closed = false := by simpa using hclosed
    refine .head (.ends hstands) ?_
    split
    · exact .refl
    · next hreleased =>
      have hheld : s.released = false := by simpa using hreleased
      split
      · exact .single (.quiesces rfl hheld)
      · exact .single (.letsGo false rfl hheld (by simp))

theorem own_of_concerns {name : PushName} {portCase : PortCase} (h : name.concerns portCase = true) :
    portCase.own = true := by
  cases name <;> cases portCase <;> simp_all [PushName.concerns, PushName.subscribe, PushName.unsubscribe, PortCase.own]

/-- **What a step can do.** -/
theorem Kept.step_moves (h : Kept o s) (hstep : s.step o event = some s') : Moves o event s s' := by
  cases event with
  | call portCase posts =>
    simp only [Port.step] at hstep
    split at hstep
    · cases hstep
    · next hown =>
      cases hstep
      exact .single (.asks portCase posts fun name hname => absurd (own_of_concerns hname) (by simpa using hown))
  | on name posts =>
    cases hstep
    unfold Port.on
    split
    · exact .head (.attends _ s.visible fun _ => rfl) (.single (.asks _ posts fun _ _ => rfl))
    · exact .single (.attends _ s.visible fun _ => rfl)
  | off name posts =>
    cases hstep
    unfold Port.off
    split
    · exact .refl
    · split
      · exact .single (.attends _ s.visible fun _ => rfl)
      · exact .head (.attends _ s.visible fun _ => rfl) (.single (.asks _ posts fun _ _ => rfl))
  | shown posts =>
    simp only [Port.step] at hstep
    split at hstep
    · cases hstep
    · cases hstep
      unfold tellVisibility
      split
      · exact .single (.attends s.listeners true fun hne => absurd rfl hne)
      · refine .head (.attends s.listeners true fun hne => absurd rfl hne) (.single (.asks .visibility posts ?_))
        -- no push is asked for by telling what is visible
        exact fun name hname => absurd hname (by cases name <;> decide)
  | message host message =>
    simp only [Port.step, Option.some.injEq] at hstep
    subst hstep
    split
    · next hheld => exact h.moves_receive hheld.2 message (by rw [hheld.1])
    · exact .refl
  | watchTimer posts =>
    simp only [Port.step] at hstep
    split at hstep
    · cases hstep
      exact moves_watched s posts
    · cases hstep
  | probeTimer =>
    simp only [Port.step] at hstep
    split at hstep
    · next everyMs probe hwatch hprobing =>
      split at hstep
      · next hlate =>
        cases hstep
        exact .single (.unanswered probe everyMs hwatch hprobing hlate)
      · cases hstep
    · cases hstep
  | restartTimer obtained posts =>
    simp only [Port.step] at hstep
    split at hstep
    · next hdue =>
      cases hstep
      exact h.moves_restart rfl hdue obtained posts
    · cases hstep
  | settleTimer =>
    simp only [Port.step] at hstep
    split at hstep
    · next hdue =>
      cases hstep
      exact .single (.settles rfl hdue)
    · cases hstep
  | quiesceTimer =>
    simp only [Port.step] at hstep
    split at hstep
    · next hdue =>
      cases hstep
      obtain ⟨_, hwaits, -⟩ := (Option.any_eq_true _ _).1 hdue
      obtain ⟨waits, hquiescing, -⟩ := Option.map_eq_some_iff.1 hwaits
      obtain ⟨hclosed, hheld⟩ := h.quiescing waits hquiescing
      exact .single (.letsGo false hclosed hheld (by simp))
    · cases hstep
  | close posts =>
    cases hstep
    exact moves_close s posts
  | wait ms =>
    cases hstep
    exact .single (.waits ms)

theorem run_cons {events : List PortEvent} (hrun : s.run o (event :: events) = some s') :
    ∃ s₁, s.step o event = some s₁ ∧ s₁.run o events = some s' := by
  simpa [run, List.foldlM_cons, Option.bind_eq_some_iff] using hrun

/-- **What every move of a run preserves holds after it.** -/
theorem Kept.run_moves {P : Port → Prop} {events : List PortEvent} (h : Kept o s) (hP : P s)
    (hmove : ∀ event ∈ events, ∀ s s', Kept o s → P s → Move o event s s' → P s')
    (hrun : s.run o events = some s') : Kept o s' ∧ P s' := by
  induction events generalizing s with
  | nil =>
    obtain rfl : s = s' := by simpa [run] using hrun
    exact ⟨h, hP⟩
  | cons event events ih =>
    obtain ⟨s₁, hstep, hrest⟩ := run_cons hrun
    have hone : ∀ t, Moves o event s t → Kept o t ∧ P t := by
      intro t hmoves
      induction hmoves with
      | refl => exact ⟨h, hP⟩
      | tail _ hlast ih => exact ⟨ih.1.move hlast, hmove event (by simp) _ _ ih.1 ih.2 hlast⟩
    obtain ⟨hkept, hP₁⟩ := hone s₁ (h.step_moves hstep)
    exact ih hkept hP₁ (fun e he => hmove e (by simp [he])) hrest

theorem kept_fresh (o : UsedPortOptions) (access : HostAccess) (now : ℕ) (handsOver : Bool) :
    Kept o (fresh access now handsOver) := by
  constructor <;> simp [fresh]

theorem moves_connected (access : HostAccess) (now : ℕ) (handsOver prepared posts : Bool) :
    Moves o event (fresh access now handsOver) (connected o access now handsOver prepared posts) := by
  unfold connected
  refine .trans ?_ (moves_watch _)
  split
  · exact .single (.asks .connect posts fun name hname => absurd hname (by cases name <;> decide))
  · exact .refl

/-- **What holds of a new port and every move preserves holds after every run.** -/
theorem run_connected {P : Port → Prop} {access : HostAccess} {now : ℕ} {handsOver prepared posts : Bool}
    {events : List PortEvent} (hP : P (fresh access now handsOver))
    (hmove : ∀ event ∈ .wait 0 :: events, ∀ s s', Kept o s → P s → Move o event s s' → P s')
    (hrun : (connected o access now handsOver prepared posts).run o events = some s') : Kept o s' ∧ P s' := by
  have hone : ∀ t, Moves o (.wait 0) (fresh access now handsOver) t → Kept o t ∧ P t := by
    intro t hmoves
    induction hmoves with
    | refl => exact ⟨kept_fresh o access now handsOver, hP⟩
    | tail _ hlast ih => exact ⟨ih.1.move hlast, hmove _ (by simp) _ _ ih.1 ih.2 hlast⟩
  obtain ⟨hkept, hP'⟩ := hone _ (moves_connected access now handsOver prepared posts)
  exact hkept.run_moves hP' (fun event hmem => hmove event (by simp [hmem])) hrun

end Port

end Etherfold
