import Mathlib.Data.List.Chain
import Mathlib.Tactic

/-!
# A candidacy

A tab stands for election by asking for one lock. It asks once whether the lock is free, then
queues for it, and may leave the queue to steal it from a backgrounded leader. What it knows of
its place is in a few flags, set by the callbacks of three kinds of request.

* `Candidacy.react`: what one callback does.
* `Candidacy.Good`, `Candidacy.Expected`: what the flags say of each other, and which callback may come.
* `settle`: a candidacy after the callbacks it has still to run.
* `Candidacy.Steals.settle`: **a steal makes every callback before its own idle**.
-/

namespace Etherfold

namespace Election

/-- The three requests a candidacy makes: the first, one that queues, and one that steals. -/
inductive RequestKind where
  | first
  | queue
  | steal
  deriving DecidableEq, Repr

/-- A request for the lock: the tab it is of, and its number among the requests of that tab. -/
structure LockRequest where
  tab : ℕ
  number : ℕ
  kind : RequestKind
  deriving DecidableEq, Repr

/-- What the browser runs in a tab: the callback of a request, with the lock or without one, and
what follows the settling of its promise. -/
inductive Callback where
  | granted (request : LockRequest)
  | unavailable (request : LockRequest)
  | resolved (request : LockRequest)
  | rejected (request : LockRequest)
  deriving DecidableEq, Repr

/-- What a tab asks of the browser. A request is released when its callback returns. -/
inductive Ask where
  | request (request : LockRequest)
  | abort (request : LockRequest)
  | release (request : LockRequest)
  deriving DecidableEq, Repr

inductive TakeoverReason where
  | leaderGone
  | leaderBackgrounded
  deriving DecidableEq, Repr

/-- What a candidacy tells its host. -/
inductive HostEvent where
  | onTakeover (reason : TakeoverReason)
  | onDisplaced
  deriving DecidableEq, Repr

/-- What a host asks of its candidacy. -/
inductive HostCall where
  | takeFromBackgroundedLeader
  | resign
  deriving DecidableEq, Repr

/-- A candidacy: the flags of its closure, the requests whose callback took the lock, how many
requests it made, and what it told its host, newest first. -/
structure Candidacy where
  tab : ℕ
  giveBack : Option LockRequest
  queued : Option LockRequest
  resigned : Bool
  holding : Bool
  stealing : Bool
  atOnce : Option Bool
  mine : List LockRequest
  requests : ℕ
  events : List HostEvent
  deriving DecidableEq, Repr

def HostEvent.isTakeover : HostEvent → Bool
  | .onTakeover _ => true
  | .onDisplaced => false

namespace Candidacy

/-- The first answer of `atOnce` stays. -/
def answer (c : Candidacy) (atOnce : Bool) : Candidacy := { c with atOnce := c.atOnce.or (some atOnce) }

/-- Hold the lock of a request until it is given back. -/
def hold (c : Candidacy) (request : LockRequest) : Candidacy := { c with holding := true, giveBack := some request }

def takeOver (c : Candidacy) (reason : TakeoverReason) : Candidacy :=
  { c with events := .onTakeover reason :: c.events }

/-- Queue for the lock. -/
def queue (c : Candidacy) : Candidacy × List Ask :=
  if c.resigned then (c, [])
  else
    let leaving : LockRequest := ⟨c.tab, c.requests, .queue⟩
    ({ c with queued := some leaving, requests := c.requests + 1 }, [.request leaving])

def abortQueued (c : Candidacy) : List Ask := c.queued.toList.map .abort

/-- Leave the queue and ask for the lock with `steal`. -/
def takeFromBackgroundedLeader (c : Candidacy) : Candidacy × List Ask :=
  if c.resigned || c.holding || c.stealing then (c, [])
  else
    let request : LockRequest := ⟨c.tab, c.requests, .steal⟩
    ({ c with stealing := true, queued := none, requests := c.requests + 1 }, c.abortQueued ++ [.request request])

/-- Leave the election. -/
def resign (c : Candidacy) : Candidacy × List Ask :=
  if c.resigned then (c, [])
  else
    (({ c with resigned := true, queued := none, holding := false, giveBack := none }).answer false,
      c.abortQueued ++ c.giveBack.toList.map .release)

def hostCall (c : Candidacy) : HostCall → Candidacy × List Ask
  | .takeFromBackgroundedLeader => c.takeFromBackgroundedLeader
  | .resign => c.resign

/-- What the host calls, one after the other. -/
def hostCalls (c : Candidacy) : List HostCall → Candidacy × List Ask
  | [] => (c, [])
  | call :: calls =>
    let (c, asks) := c.hostCall call
    let (c, later) := c.hostCalls calls
    (c, asks ++ later)

/-- The lock was stolen: the host is told, which may call the candidacy back, and the candidacy
queues again. -/
def displaced (c : Candidacy) (during : List HostCall) : Candidacy × List Ask :=
  let c := { c with holding := false, giveBack := none, events := .onDisplaced :: c.events }
  let (c, asks) := c.hostCalls during
  let (c, queueing) := c.queue
  (c, asks ++ queueing)

/-- The promise of a request that queued or stole was rejected. -/
def tenureEnded (c : Candidacy) (request : LockRequest) (during : List HostCall) : Candidacy × List Ask :=
  if request ∉ c.mine || c.resigned then (c, []) else c.displaced during

/-- **What one callback does**; `during` is what the host calls inside `onDisplaced`. -/
def react (c : Candidacy) (during : List HostCall) : Callback → Candidacy × List Ask
  | .granted request =>
    match request.kind with
    | .first =>
      if c.resigned then (c.answer false, [.release request]) else ((c.hold request).answer true, [])
    | .queue =>
      -- one that was left meanwhile gives the lock back
      if c.resigned || c.queued ≠ some request then (c, [.release request])
      else ((({ c with queued := none, mine := request :: c.mine }).hold request).takeOver .leaderGone, [])
    | .steal =>
      let c := { c with stealing := false }
      if c.resigned then (c, [.release request])
      else ((({ c with mine := request :: c.mine }).hold request).takeOver .leaderBackgrounded, [])
  | .unavailable _ => (c.answer false, [])
  | .resolved request => if request.kind = .first && !c.holding then c.queue else (c, [])
  | .rejected request =>
    match request.kind with
    | .first => if c.holding && !c.resigned then c.displaced during else (c.answer false, [])
    | .queue => c.tenureEnded request during
    | .steal => ({ c with stealing := false }).tenureEnded request during

/-- A tab that stands has made its first request. -/
def stand (tab : ℕ) : Candidacy × List Ask :=
  (⟨tab, none, none, false, false, false, none, [], 1, []⟩, [.request ⟨tab, 0, .first⟩])

/-! ### What the flags say of each other -/

/-- No two events in a row are of one kind. -/
def Alternates (events : List HostEvent) : Prop := events.IsChain fun a b => a.isTakeover ≠ b.isTakeover

/-- What holds of the flags between two callbacks. -/
structure Good (c : Candidacy) : Prop where
  seated : c.holding = c.giveBack.isSome
  stealing : c.stealing = true → c.holding = false
  resigned : c.resigned = true → c.holding = false
  unanswered : c.atOnce = none → c.holding = false ∧ c.stealing = false ∧ c.resigned = false ∧ c.queued = none ∧ c.events = []
  queued : ∀ q, c.queued = some q → q.tab = c.tab ∧ q.kind = .queue ∧ q.number + 1 = c.requests
  seat : ∀ r, c.giveBack = some r → r.tab = c.tab ∧ (r ∈ c.mine ∨ r.kind = .first)
  alternates : Alternates c.events
  /-- the last event says whether it holds -/
  newest : c.resigned = false → ∀ e, c.events.head? = some e → e.isTakeover = c.holding

/-- Which callback may come next to a candidacy that has not resigned. -/
def Expected (c : Candidacy) : Callback → Prop
  | .granted r => r.tab = c.tab ∧ r ∉ c.mine ∧ (r.kind = .first → c.atOnce = none) ∧
      (r.kind = .steal → c.stealing = true) ∧
      (r.kind = .queue → c.queued = some r → c.holding = false ∧ c.stealing = false)
  | .unavailable _ => c.atOnce = none
  | .resolved r => r.kind = .first → c.atOnce ≠ none
  | .rejected r => (r.kind = .first → c.holding = true → c.giveBack = some r) ∧
      (r.kind = .queue → r ∈ c.mine → c.giveBack = some r) ∧
      (r.kind = .steal → c.giveBack = some r ∨ (c.stealing = true ∧ r ∉ c.mine))

variable {c : Candidacy}

/-! ### What a step comes to -/

theorem queue_of_live (h : c.resigned = false) : c.queue =
    ({ c with queued := some ⟨c.tab, c.requests, .queue⟩, requests := c.requests + 1 },
      [.request ⟨c.tab, c.requests, .queue⟩]) := by
  unfold queue
  rw [h]
  rfl

theorem react_granted_first (during : List HostCall) {r : LockRequest} (hkind : r.kind = .first)
    (hresigned : c.resigned = false) : c.react during (.granted r) = ((c.hold r).answer true, []) := by
  simp [react, hkind, hresigned]

theorem react_granted_queue (during : List HostCall) {r : LockRequest} (hkind : r.kind = .queue)
    (hresigned : c.resigned = false) (hqueued : c.queued = some r) : c.react during (.granted r) =
      ((({ c with queued := none, mine := r :: c.mine }).hold r).takeOver .leaderGone, []) := by
  simp [react, hkind, hresigned, hqueued]

/-- A request that was left meanwhile gives the lock back. -/
theorem react_granted_left (during : List HostCall) {r : LockRequest} (hkind : r.kind = .queue)
    (hqueued : c.queued ≠ some r) : c.react during (.granted r) = (c, [.release r]) := by
  simp [react, hkind, hqueued]

theorem react_granted_steal (during : List HostCall) {r : LockRequest} (hkind : r.kind = .steal)
    (hresigned : c.resigned = false) : c.react during (.granted r) =
      ((({ c with stealing := false, mine := r :: c.mine }).hold r).takeOver .leaderBackgrounded, []) := by
  simp [react, hkind, hresigned]

theorem Good.answer (h : Good c) (atOnce : Bool) : Good (c.answer atOnce) := by
  refine ⟨h.seated, h.stealing, h.resigned, fun hnone => ?_, h.queued, h.seat, h.alternates, h.newest⟩
  unfold Candidacy.answer at hnone
  cases hat : c.atOnce with
  | none => simp [hat] at hnone
  | some answered => simp [hat] at hnone

theorem Good.queue (h : Good c) (hanswered : c.atOnce ≠ none) : Good c.queue.1 := by
  unfold Candidacy.queue
  split
  · exact h
  · refine ⟨h.seated, h.stealing, h.resigned, fun hnone => absurd hnone hanswered, ?_, h.seat, h.alternates, h.newest⟩
    rintro q hq
    obtain rfl := Option.some.inj hq
    exact ⟨rfl, rfl, rfl⟩

theorem Good.takeFromBackgroundedLeader (h : Good c) (hanswered : c.atOnce ≠ none) :
    Good c.takeFromBackgroundedLeader.1 := by
  unfold Candidacy.takeFromBackgroundedLeader
  split
  · exact h
  · rename_i hidle
    simp only [Bool.or_eq_true, not_or, Bool.not_eq_true] at hidle
    refine ⟨h.seated, fun _ => hidle.1.2, h.resigned, fun hnone => absurd hnone hanswered, ?_, h.seat, h.alternates,
      h.newest⟩
    simp

theorem Good.resign (h : Good c) : Good c.resign.1 := by
  unfold Candidacy.resign
  split
  · exact h
  · refine ⟨rfl, fun _ => rfl, fun _ => rfl, fun hnone => ?_, ?_, ?_, h.alternates, ?_⟩
    · unfold Candidacy.answer at hnone
      cases hat : c.atOnce <;> simp [hat] at hnone
    · simp [Candidacy.answer]
    · simp [Candidacy.answer]
    · simp [Candidacy.answer]

theorem atOnce_hostCall (hanswered : c.atOnce ≠ none) (call : HostCall) : (c.hostCall call).1.atOnce ≠ none := by
  cases call with
  | takeFromBackgroundedLeader =>
    unfold hostCall Candidacy.takeFromBackgroundedLeader
    dsimp only
    split <;> exact hanswered
  | resign =>
    unfold hostCall Candidacy.resign
    dsimp only
    split
    · exact hanswered
    · unfold Candidacy.answer
      cases hat : c.atOnce <;> simp_all

theorem Good.hostCall (h : Good c) (hanswered : c.atOnce ≠ none) (call : HostCall) : Good (c.hostCall call).1 := by
  cases call with
  | takeFromBackgroundedLeader => exact h.takeFromBackgroundedLeader hanswered
  | resign => exact h.resign

theorem Good.hostCalls (h : Good c) (hanswered : c.atOnce ≠ none) (calls : List HostCall) :
    Good (c.hostCalls calls).1 ∧ (c.hostCalls calls).1.atOnce ≠ none := by
  induction calls generalizing c with
  | nil => exact ⟨h, hanswered⟩
  | cons call calls ih => exact ih (h.hostCall hanswered call) (atOnce_hostCall hanswered call)

theorem Good.displaced (h : Good c) (hholding : c.holding = true) (hresigned : c.resigned = false)
    (during : List HostCall) : Good (c.displaced during).1 := by
  have hanswered : c.atOnce ≠ none := by
    intro hnone
    have hidle := (h.unanswered hnone).1
    simp [hholding] at hidle
  have htold : Good { c with holding := false, giveBack := none, events := .onDisplaced :: c.events } := by
    refine ⟨rfl, fun _ => rfl, fun _ => rfl, fun hnone => absurd hnone hanswered, h.queued, ?_, ?_, ?_⟩
    · simp
    · refine List.isChain_cons.2 ⟨fun e he => ?_, h.alternates⟩
      have hlast := h.newest hresigned e he
      rw [hlast, hholding]
      simp [HostEvent.isTakeover]
    · simp [HostEvent.isTakeover]
  obtain ⟨hcalls, hat⟩ := htold.hostCalls hanswered during
  exact hcalls.queue hat

/-- What stands of a candidacy that has taken the lock. -/
theorem Good.seated_takeOver (h : Good c) (hresigned : c.resigned = false) (hholding : c.holding = false)
    (hanswered : c.atOnce ≠ none) {r : LockRequest} (htab : r.tab = c.tab) (reason : TakeoverReason)
    (queued : Option LockRequest) (hqueued : ∀ q, queued = some q → c.queued = some q) :
    Good ((({ c with queued := queued, stealing := false, mine := r :: c.mine }).hold r).takeOver reason) := by
  refine ⟨rfl, fun hsteal => ?_, fun hres => ?_, fun hnone => absurd hnone hanswered, fun q hq => h.queued q (hqueued q hq),
    ?_, ?_, ?_⟩
  · simp [takeOver, hold] at hsteal
  · simp [takeOver, hold, hresigned] at hres
  · rintro r' hr'
    obtain rfl := Option.some.inj hr'
    exact ⟨htab, .inl (by simp [takeOver, hold])⟩
  · refine List.isChain_cons.2 ⟨fun e he => ?_, h.alternates⟩
    have hlast := h.newest hresigned e he
    rw [hlast, hholding]
    simp [HostEvent.isTakeover]
  · simp [takeOver, hold, HostEvent.isTakeover]

theorem Good.unsteal (h : Good c) : Good { c with stealing := false } := by
  refine ⟨h.seated, by simp, h.resigned, fun hnone => ?_, h.queued, h.seat, h.alternates, h.newest⟩
  obtain ⟨hholding, -, hresigned, hqueued, hevents⟩ := h.unanswered hnone
  exact ⟨hholding, rfl, hresigned, hqueued, hevents⟩

theorem Good.tenureEnded (h : Good c) {r : LockRequest} (hmine : c.resigned = false → r ∈ c.mine → c.giveBack = some r)
    (during : List HostCall) : Good (c.tenureEnded r during).1 := by
  unfold Candidacy.tenureEnded
  split
  · exact h
  · rename_i hended
    simp only [Bool.or_eq_true, decide_eq_true_eq, not_or, not_not, Bool.not_eq_true] at hended
    have hholding : c.holding = true := by
      rw [h.seated, hmine hended.2 hended.1]
      rfl
    exact h.displaced hholding hended.2 during

/-- **An expected callback keeps the flags right.** -/
theorem Good.react (h : Good c) {cb : Callback} (hexpected : c.resigned = false → c.Expected cb)
    (during : List HostCall) : Good (c.react during cb).1 := by
  cases cb with
  | granted r =>
    cases hres : c.resigned with
    | true =>
      cases hkind : r.kind
      · simpa [Candidacy.react, hkind, hres] using h.answer false
      · simpa [Candidacy.react, hkind, hres] using h
      · simpa [Candidacy.react, hkind, hres] using h.unsteal
    | false =>
      obtain ⟨htab, hmine, hfirst, hsteal, hqueue⟩ := hexpected hres
      cases hkind : r.kind with
      | first =>
        obtain ⟨hholding, hstealing, -, hqueued, hevents⟩ := h.unanswered (hfirst hkind)
        simp only [Candidacy.react, hkind, hres]
        refine ⟨rfl, fun hst => ?_, fun hr => ?_, fun hnone => ?_, h.queued, ?_, h.alternates, fun hr e he => ?_⟩
        · simp [Candidacy.answer, hold, hstealing] at hst
        · simp [Candidacy.answer, hold, hres] at hr
        · simp [Candidacy.answer, hold, hfirst hkind] at hnone
        · rintro r' hr'
          obtain rfl := Option.some.inj hr'
          exact ⟨htab, .inr hkind⟩
        · simp [Candidacy.answer, hold, hevents] at he
      | queue =>
        by_cases hq : c.queued = some r
        · have hholding := hqueue hkind hq
          have hanswered : c.atOnce ≠ none := by
            intro hnone
            simp [(h.unanswered hnone).2.2.2.1] at hq
          have hseat := h.seated_takeOver hres hholding.1 hanswered htab .leaderGone none (by simp)
          simpa [Candidacy.react, hkind, hres, hq, hholding.2] using hseat
        · simpa [Candidacy.react, hkind, hres, hq] using h
      | steal =>
        have hstealing := hsteal hkind
        have hanswered : c.atOnce ≠ none := by
          intro hnone
          simp [(h.unanswered hnone).2.1] at hstealing
        have hseat := h.seated_takeOver hres (h.stealing hstealing) hanswered htab .leaderBackgrounded c.queued (by simp)
        simpa [Candidacy.react, hkind, hres] using hseat
  | unavailable r => exact h.answer false
  | resolved r =>
    simp only [Candidacy.react]
    split
    · rename_i hfirst
      simp only [Bool.and_eq_true, decide_eq_true_eq] at hfirst
      cases hres : c.resigned with
      | true => simpa [Candidacy.queue, hres] using h
      | false => exact h.queue (hexpected hres hfirst.1)
    · exact h
  | rejected r =>
    cases hkind : r.kind with
    | first =>
      simp only [Candidacy.react, hkind]
      split
      · rename_i hheld
        simp only [Bool.and_eq_true, Bool.not_eq_true'] at hheld
        exact h.displaced hheld.1 hheld.2 during
      · exact h.answer false
    | queue =>
      simp only [Candidacy.react, hkind]
      exact h.tenureEnded (fun hres => (hexpected hres).2.1 hkind) during
    | steal =>
      simp only [Candidacy.react, hkind]
      refine h.unsteal.tenureEnded (fun hres hmine => ?_) during
      rcases (hexpected hres).2.2 hkind with hseat | ⟨-, hnot⟩
      · exact hseat
      · exact absurd hmine hnot

/-! ### The callbacks still to run -/

/-- A candidacy after the callbacks it has still to run. -/
def settle (c : Candidacy) (callbacks : List Callback) : Candidacy :=
  callbacks.foldl (fun c cb => (c.react [] cb).1) c

/-- Each callback is expected where it will run, unless the candidacy has resigned. -/
def Coherent : Candidacy → List Callback → Prop
  | _, [] => True
  | c, cb :: callbacks => (c.resigned = false → c.Expected cb) ∧ Coherent (c.react [] cb).1 callbacks

theorem settle_append (c : Candidacy) (callbacks later : List Callback) :
    c.settle (callbacks ++ later) = (c.settle callbacks).settle later :=
  List.foldl_append

theorem coherent_append {callbacks later : List Callback} :
    c.Coherent (callbacks ++ later) ↔ c.Coherent callbacks ∧ (c.settle callbacks).Coherent later := by
  induction callbacks generalizing c with
  | nil => simp [Coherent, settle]
  | cons cb callbacks ih =>
    have hsettle : c.settle (cb :: callbacks) = (c.react [] cb).1.settle callbacks := rfl
    simp only [List.cons_append, Coherent, hsettle, ih, and_assoc]

theorem Good.settle (h : Good c) {callbacks : List Callback} (hcoherent : c.Coherent callbacks) :
    Good (c.settle callbacks) := by
  induction callbacks generalizing c with
  | nil => exact h
  | cons cb callbacks ih => exact ih (h.react hcoherent.1 []) hcoherent.2

/-- What a callback leaves alone when the host does not call back. -/
theorem react_fields (c : Candidacy) (cb : Callback) : (c.react [] cb).1.tab = c.tab ∧
    (c.react [] cb).1.resigned = c.resigned ∧ c.requests ≤ (c.react [] cb).1.requests ∧
    ((c.react [] cb).1.stealing = true → c.stealing = true) ∧ c.mine ⊆ (c.react [] cb).1.mine := by
  have hqueue : ∀ c : Candidacy, c.queue.1.tab = c.tab ∧ c.queue.1.resigned = c.resigned ∧
      c.requests ≤ c.queue.1.requests ∧ c.queue.1.stealing = c.stealing ∧ c.queue.1.mine = c.mine := by
    intro c
    unfold queue
    split <;> simp
  have hdisplaced : ∀ c : Candidacy, (c.displaced []).1.tab = c.tab ∧ (c.displaced []).1.resigned = c.resigned ∧
      c.requests ≤ (c.displaced []).1.requests ∧ (c.displaced []).1.stealing = c.stealing ∧
      (c.displaced []).1.mine = c.mine :=
    fun c => hqueue { c with holding := false, giveBack := none, events := .onDisplaced :: c.events }
  have hended : ∀ c : Candidacy, ∀ r, (c.tenureEnded r []).1.tab = c.tab ∧ (c.tenureEnded r []).1.resigned = c.resigned ∧
      c.requests ≤ (c.tenureEnded r []).1.requests ∧ (c.tenureEnded r []).1.stealing = c.stealing ∧
      (c.tenureEnded r []).1.mine = c.mine := by
    intro c r
    unfold tenureEnded
    split
    · simp
    · exact hdisplaced c
  cases cb with
  | granted r =>
    unfold react
    dsimp only
    split
    · split <;> simp [answer, hold]
    · split <;> simp [hold, takeOver]
    · split <;> simp [hold, takeOver]
  | unavailable r => simp [react, answer]
  | resolved r =>
    unfold react
    dsimp only
    split
    · obtain ⟨htab, hresigned, hrequests, hstealing, hmine⟩ := hqueue c
      exact ⟨htab, hresigned, hrequests, by simp [hstealing], by simp [hmine]⟩
    · simp
  | rejected r =>
    unfold react
    dsimp only
    split
    · split
      · obtain ⟨htab, hresigned, hrequests, hstealing, hmine⟩ := hdisplaced c
        exact ⟨htab, hresigned, hrequests, by simp [hstealing], by simp [hmine]⟩
      · simp [answer]
    · obtain ⟨htab, hresigned, hrequests, hstealing, hmine⟩ := hended c r
      exact ⟨htab, hresigned, hrequests, by simp [hstealing], by simp [hmine]⟩
    · obtain ⟨htab, hresigned, hrequests, hstealing, hmine⟩ := hended { c with stealing := false } r
      exact ⟨htab, hresigned, hrequests, by simp [hstealing], by simp [hmine]⟩

theorem settle_fields (c : Candidacy) (callbacks : List Callback) : (c.settle callbacks).tab = c.tab ∧
    (c.settle callbacks).resigned = c.resigned ∧ c.requests ≤ (c.settle callbacks).requests ∧
    ((c.settle callbacks).stealing = true → c.stealing = true) ∧ c.mine ⊆ (c.settle callbacks).mine := by
  induction callbacks generalizing c with
  | nil => simp [settle]
  | cons cb callbacks ih =>
    obtain ⟨htab, hresigned, hrequests, hstealing, hmine⟩ := react_fields c cb
    obtain ⟨htab', hresigned', hrequests', hstealing', hmine'⟩ := ih (c.react [] cb).1
    exact ⟨htab'.trans htab, hresigned'.trans hresigned, hrequests.trans hrequests', fun h => hstealing (hstealing' h),
      fun r hr => hmine' (hmine hr)⟩

/-! ### Before a steal, and after it -/

/-- A candidacy that may steal: no steal of its is under way, and a lock it takes before its
next one is the one it queued for. -/
structure Calm (seats : List LockRequest) (c : Candidacy) : Prop where
  stealing : c.stealing = false
  resigned : c.resigned = false
  answered : c.atOnce ≠ none
  seated : c.holding = c.giveBack.isSome
  seat : ∀ r, c.giveBack = some r → r.kind = .queue ∧ r ∉ seats
  mine : seats ⊆ c.mine

/-- A candidacy that left the queue to steal; a request it has made since has a number not below `before`. -/
structure Steals (before : ℕ) (seats : List LockRequest) (c : Candidacy) : Prop where
  stealing : c.stealing = true
  resigned : c.resigned = false
  answered : c.atOnce ≠ none
  holding : c.holding = false
  giveBack : c.giveBack = none
  mine : c.mine = seats
  queued : ∀ q, c.queued = some q → before ≤ q.number
  unqueued : c.queued = none → c.requests = before
  requests : before ≤ c.requests

theorem Steals.queue {before : ℕ} {seats : List LockRequest} (h : Steals before seats c) :
    Steals before seats c.queue.1 := by
  rw [queue_of_live h.resigned]
  refine ⟨h.stealing, h.resigned, h.answered, h.holding, h.giveBack, h.mine, ?_, by simp, ?_⟩
  · rintro q hq
    obtain rfl := Option.some.inj hq
    exact h.requests
  · have hle := h.requests
    dsimp only
    omega

theorem Calm.queue {seats : List LockRequest} (h : Calm seats c) : Calm seats c.queue.1 := by
  rw [queue_of_live h.resigned]
  exact ⟨h.stealing, h.resigned, h.answered, h.seated, h.seat, h.mine⟩

theorem Calm.displaced {seats : List LockRequest} (h : Calm seats c) : Calm seats (c.displaced []).1 := by
  have htold : Calm seats { c with holding := false, giveBack := none, events := .onDisplaced :: c.events } :=
    ⟨h.stealing, h.resigned, h.answered, rfl, by simp, h.mine⟩
  exact htold.queue

/-- **One callback from before a steal is idle after it.** -/
theorem Steals.react {before : ℕ} {seats : List LockRequest} {c' : Candidacy} (h : Steals before seats c')
    (hcalm : Calm seats c) (htab : c'.tab = c.tab) {cb : Callback} (hexpected : c.Expected cb)
    (hbefore : ∀ r, cb = .granted r → r.number < before) :
    c'.Expected cb ∧ Steals before seats (c'.react [] cb).1 ∧ Calm seats (c.react [] cb).1 := by
  have hstealing := hcalm.stealing
  have hres := hcalm.resigned
  have hres' := h.resigned
  cases cb with
  | granted r =>
    obtain ⟨hrtab, hmine, hfirst, hsteal, hqueue⟩ := hexpected
    cases hkind : r.kind with
    | first => exact absurd (hfirst hkind) hcalm.answered
    | steal => simp [hsteal hkind] at hstealing
    | queue =>
      have hlt := hbefore r rfl
      have hleft : c'.queued ≠ some r := fun hq => absurd (h.queued r hq) (by omega)
      have hnot : r ∉ seats := fun hr => hmine (hcalm.mine hr)
      refine ⟨⟨htab ▸ hrtab, h.mine ▸ hnot, by simp [hkind], by simp [hkind], fun _ hq => absurd hq hleft⟩, ?_, ?_⟩
      · rw [react_granted_left [] hkind hleft]
        exact h
      · by_cases hq : c.queued = some r
        · rw [react_granted_queue [] hkind hres hq]
          refine ⟨hstealing, hres, hcalm.answered, rfl, ?_, fun x hx => List.mem_cons_of_mem _ (hcalm.mine hx)⟩
          rintro x hx
          obtain rfl := Option.some.inj hx
          exact ⟨hkind, hnot⟩
        · rw [react_granted_left [] hkind hq]
          exact hcalm
  | unavailable r => exact absurd hexpected hcalm.answered
  | resolved r =>
    refine ⟨fun _ => h.answered, ?_, ?_⟩
    · simp only [Candidacy.react]
      split
      · exact h.queue
      · exact h
    · simp only [Candidacy.react]
      split
      · exact hcalm.queue
      · exact hcalm
  | rejected r =>
    obtain ⟨hfirst, hqueue, hsteal⟩ := hexpected
    have hseat : r.kind ≠ .queue → c.giveBack ≠ some r := fun hne hgive => hne (hcalm.seat r hgive).1
    cases hkind : r.kind with
    | first =>
      have hidle : c.holding = false := by
        by_contra hholding
        exact hseat (by simp [hkind]) (hfirst hkind (by simpa using hholding))
      have hidle' := h.holding
      have hat : ∀ c : Candidacy, c.atOnce ≠ none → c.answer false = c := by
        intro c hne
        unfold answer
        obtain ⟨b, hb⟩ := Option.ne_none_iff_exists'.1 hne
        rw [hb]
        exact congrArg (fun a => { c with atOnce := a }) hb.symm
      refine ⟨⟨fun _ hholding => ?_, by simp [hkind], by simp [hkind]⟩, ?_, ?_⟩
      · simp [hidle'] at hholding
      · simpa [Candidacy.react, hkind, hidle', hat c' h.answered] using h
      · simpa [Candidacy.react, hkind, hidle, hat c hcalm.answered] using hcalm
    | queue =>
      have hnot : r ∉ seats := fun hr => (hcalm.seat r (hqueue hkind (hcalm.mine hr))).2 hr
      have hnot' : r ∉ c'.mine := by
        rw [h.mine]
        exact hnot
      refine ⟨⟨by simp [hkind], fun _ hr => absurd hr hnot', by simp [hkind]⟩, ?_, ?_⟩
      · simpa [Candidacy.react, hkind, tenureEnded, hnot'] using h
      · simp only [Candidacy.react, hkind, tenureEnded]
        split
        · exact hcalm
        · exact hcalm.displaced
    | steal =>
      rcases hsteal hkind with hgive | ⟨htrue, -⟩
      · exact absurd hgive (hseat (by simp [hkind]))
      · simp [htrue] at hstealing

/-- **A steal makes every callback before its own idle.** -/
theorem Steals.settle {before : ℕ} {seats : List LockRequest} {c' : Candidacy} (h : Steals before seats c')
    (hcalm : Calm seats c) (htab : c'.tab = c.tab) {callbacks : List Callback} (hcoherent : c.Coherent callbacks)
    (hbefore : ∀ r, .granted r ∈ callbacks → r.number < before) :
    c'.Coherent callbacks ∧ Steals before seats (c'.settle callbacks) ∧ Calm seats (c.settle callbacks) := by
  induction callbacks generalizing c c' with
  | nil => exact ⟨trivial, h, hcalm⟩
  | cons cb callbacks ih =>
    obtain ⟨hexpected, hsteals, hcalm'⟩ := h.react hcalm htab (hcoherent.1 hcalm.resigned) fun r hr =>
      hbefore r (by simp [hr])
    have htab' := ((react_fields c' cb).1.trans htab).trans (react_fields c cb).1.symm
    obtain ⟨hrest, hsteals', hcalm''⟩ := ih hsteals hcalm' htab' hcoherent.2 fun r hr =>
      hbefore r (List.mem_cons_of_mem _ hr)
    exact ⟨⟨fun _ => hexpected, hrest⟩, hsteals', hcalm''⟩

end Candidacy

end Election

end Etherfold
