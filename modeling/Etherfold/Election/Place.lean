import Etherfold.Election.Candidacy

/-!
# A candidacy and what is on its way

Between a tab and the browser are the callbacks the tab has still to run and what it asked that
the browser has not seen. `Place` says how they fit: after its callbacks the candidacy holds
exactly if it has the lock, and else it waits, or its last request was refused.

* `Place.grant`, `Place.lose`, `Place.refused`, `Place.queued`, …: one step of the browser keeps it.
* `Place.deliver`, `Place.hostCall`: **one step of the tab keeps it**.
-/

namespace Etherfold

namespace Election

/-- The requests the browser has not seen. -/
def requestsOf (asks : List Ask) : List LockRequest :=
  asks.filterMap fun
    | .request r => some r
    | _ => none

/-- The requests whose callback has the lock and has still to run. -/
def grantsOf (callbacks : List Callback) : List LockRequest :=
  callbacks.filterMap fun
    | .granted r => some r
    | _ => none

@[simp] theorem requestsOf_append (asks later : List Ask) : requestsOf (asks ++ later) = requestsOf asks ++ requestsOf later :=
  List.filterMap_append

@[simp] theorem requestsOf_request (r : LockRequest) (asks : List Ask) :
    requestsOf (.request r :: asks) = r :: requestsOf asks := rfl

@[simp] theorem requestsOf_abort (r : LockRequest) (asks : List Ask) : requestsOf (.abort r :: asks) = requestsOf asks := rfl

@[simp] theorem requestsOf_release (r : LockRequest) (asks : List Ask) :
    requestsOf (.release r :: asks) = requestsOf asks := rfl

@[simp] theorem requestsOf_nil : requestsOf [] = [] := rfl

@[simp] theorem grantsOf_append (callbacks later : List Callback) :
    grantsOf (callbacks ++ later) = grantsOf callbacks ++ grantsOf later :=
  List.filterMap_append

@[simp] theorem grantsOf_granted (r : LockRequest) (callbacks : List Callback) :
    grantsOf (.granted r :: callbacks) = r :: grantsOf callbacks := rfl

@[simp] theorem grantsOf_rejected (r : LockRequest) (callbacks : List Callback) :
    grantsOf (.rejected r :: callbacks) = grantsOf callbacks := rfl

@[simp] theorem grantsOf_resolved (r : LockRequest) (callbacks : List Callback) :
    grantsOf (.resolved r :: callbacks) = grantsOf callbacks := rfl

@[simp] theorem grantsOf_unavailable (r : LockRequest) (callbacks : List Callback) :
    grantsOf (.unavailable r :: callbacks) = grantsOf callbacks := rfl

@[simp] theorem grantsOf_nil : grantsOf [] = [] := rfl

theorem mem_grantsOf {r : LockRequest} {callbacks : List Callback} : r ∈ grantsOf callbacks ↔ .granted r ∈ callbacks := by
  unfold grantsOf
  rw [List.mem_filterMap]
  constructor
  · rintro ⟨cb, hcb, hr⟩
    cases cb <;> simp at hr
    rw [← hr]
    exact hcb
  · intro h
    exact ⟨_, h, rfl⟩

theorem mem_requestsOf {r : LockRequest} {asks : List Ask} : r ∈ requestsOf asks ↔ .request r ∈ asks := by
  unfold requestsOf
  rw [List.mem_filterMap]
  constructor
  · rintro ⟨ask, hask, hr⟩
    cases ask <;> simp at hr
    rw [← hr]
    exact hask
  · intro h
    exact ⟨_, h, rfl⟩

/-- The requests of a tab that may still be granted, or whose callback has still to run. -/
def opened (line : List LockRequest) (callbacks : List Callback) (asks : List Ask) : List LockRequest :=
  requestsOf asks ++ line ++ grantsOf callbacks

/-- A request that is over, or has the lock. -/
def Closed (held : Option LockRequest) (callbacks : List Callback) (asks : List Ask) (r : LockRequest) : Prop :=
  .rejected r ∈ callbacks ∨ .release r ∈ asks ∨ held = some r

/-- What is on its way between the browser and a candidacy that has not resigned. `held` is the
request of its tab that has the lock, and `line` those that queue. -/
structure Wire (held : Option LockRequest) (line : List LockRequest) (c : Candidacy) (callbacks : List Callback)
    (asks : List Ask) : Prop where
  coherent : c.Coherent callbacks
  once : (opened line callbacks asks).Nodup
  numbered : ∀ r ∈ opened line callbacks asks, r.tab = c.tab ∧ r.number < c.requests ∧ r ∉ c.mine
  used : ∀ r ∈ c.mine, r.number < c.requests
  kinds : ∀ q ∈ line, q.kind = .queue
  /-- what queues was asked before what is still asked -/
  inOrder : ∀ q ∈ line, ∀ r ∈ requestsOf asks, q.number < r.number
  ascending : (requestsOf asks).Pairwise (·.number < ·.number)
  closed : ∀ r, Closed held callbacks asks r → r.number < c.requests ∧ r ∉ requestsOf asks ∧ r ∉ line
  lost : ∀ r, .rejected r ∈ callbacks → held ≠ some r
  released : ∀ r, .release r ∈ asks → r.kind = .queue ∧ r ∉ c.mine ∧ r ∉ grantsOf callbacks
  aborted : ∀ r, .abort r ∈ asks → r.number + 1 < c.requests
  first : ∀ r ∈ requestsOf asks, r.kind = .first → c.atOnce = none ∧ callbacks = [] ∧ asks = [.request r] ∧ line = []

/-- What a candidacy comes to, `after` being what it is once its callbacks have run. -/
structure Settles (refuses : ℕ → Bool) (held : Option LockRequest) (line : List LockRequest) (c after : Candidacy)
    (asks : List Ask) : Prop where
  accepted : ∀ q ∈ line, refuses q.number = false
  stealing : ∀ r ∈ requestsOf asks, r.kind = .steal → after.stealing = true
  steals : after.stealing = true → ∃ r ∈ requestsOf asks, r.kind = .steal
  oneSteal : ∀ r ∈ requestsOf asks, ∀ r' ∈ requestsOf asks, r.kind = .steal → r'.kind = .steal → r = r'
  seat : after.holding = true → held = after.giveBack
  held : ∀ r, held = some r → after.giveBack = some r ∨ (r.kind = .queue ∧ r ∉ after.mine)
  waits : after.holding = false → ∀ q, after.queued = some q →
    q ∈ line ∨ q ∈ requestsOf asks ∨ c.requests ≤ q.number ∨ refuses q.number = true
  asking : after.holding = false → after.queued = none →
    ∃ n, n + 1 = after.requests ∧ ((∃ r ∈ requestsOf asks, r.number = n ∧ r.kind ≠ .queue) ∨ refuses n = true)

/-- The place of a candidacy. -/
structure Place (refuses : ℕ → Bool) (held : Option LockRequest) (line : List LockRequest) (c : Candidacy)
    (callbacks : List Callback) (asks : List Ask) : Prop where
  good : c.Good
  owner : ∀ r, held = some r → c.giveBack = some r ∨ .granted r ∈ callbacks ∨ .release r ∈ asks
  wire : c.resigned = false → Wire held line c callbacks asks
  settles : c.resigned = false → Settles refuses held line c (c.settle callbacks) asks

variable {refuses : ℕ → Bool} {held : Option LockRequest} {line : List LockRequest} {c : Candidacy}
  {callbacks : List Callback} {asks : List Ask}

theorem mine_queue (c : Candidacy) : c.queue.1.mine = c.mine := by
  unfold Candidacy.queue
  split <;> rfl

theorem mine_tenureEnded (c : Candidacy) (r : LockRequest) : (c.tenureEnded r []).1.mine = c.mine := by
  unfold Candidacy.tenureEnded
  split
  · rfl
  · exact mine_queue _

/-- Only the callback of a request makes it one that took the lock. -/
theorem mine_react {cb : Callback} {r : LockRequest} (hr : r ∈ (c.react [] cb).1.mine) : r ∈ c.mine ∨ cb = .granted r := by
  cases cb with
  | granted x =>
    unfold Candidacy.react at hr
    dsimp only at hr
    split at hr
    · split at hr <;> exact .inl hr
    · split at hr
      · exact .inl hr
      · rcases List.mem_cons.1 hr with rfl | hr
        · exact .inr rfl
        · exact .inl hr
    · split at hr
      · exact .inl hr
      · rcases List.mem_cons.1 hr with rfl | hr
        · exact .inr rfl
        · exact .inl hr
  | unavailable x => exact .inl hr
  | resolved x =>
    unfold Candidacy.react at hr
    dsimp only at hr
    split at hr
    · rw [mine_queue] at hr
      exact .inl hr
    · exact .inl hr
  | rejected x =>
    unfold Candidacy.react at hr
    dsimp only at hr
    split at hr
    · split at hr
      · unfold Candidacy.displaced Candidacy.hostCalls at hr
        rw [mine_queue] at hr
        exact .inl hr
      · exact .inl hr
    · rw [mine_tenureEnded] at hr
      exact .inl hr
    · rw [mine_tenureEnded] at hr
      exact .inl hr

/-- What took the lock did so before, or when one of these callbacks ran. -/
theorem mine_settle {r : LockRequest} (h : r ∈ (c.settle callbacks).mine) : r ∈ c.mine ∨ r ∈ grantsOf callbacks := by
  induction callbacks generalizing c with
  | nil => exact .inl h
  | cons cb callbacks ih =>
    rcases ih h with hmine | hgrant
    · rcases mine_react hmine with hmine | rfl
      · exact .inl hmine
      · exact .inr (by simp)
    · refine .inr ?_
      rw [mem_grantsOf] at hgrant ⊢
      exact List.mem_cons_of_mem _ hgrant

/-- A request that may still be granted has not taken the lock, nor will one of these callbacks. -/
theorem Wire.notMem_mine (h : Wire held line c callbacks asks) {r : LockRequest}
    (hr : r ∈ requestsOf asks ∨ r ∈ line) : r ∉ (c.settle callbacks).mine := by
  have hopen : r ∈ requestsOf asks ++ line := List.mem_append.2 hr
  intro hmine
  rcases mine_settle hmine with hmine | hgrant
  · exact (h.numbered r (List.mem_append_left _ hopen)).2.2 hmine
  · exact (List.nodup_append.1 h.once).2.2 r hopen r hgrant rfl

theorem Wire.good (h : Wire held line c callbacks asks) (hgood : c.Good) : (c.settle callbacks).Good :=
  hgood.settle h.coherent

theorem settle_concat (c : Candidacy) (callbacks : List Callback) (cb : Callback) :
    c.settle (callbacks ++ [cb]) = ((c.settle callbacks).react [] cb).1 :=
  c.settle_append callbacks [cb]

theorem Wire.coherent_concat (h : Wire held line c callbacks asks) {cb : Callback}
    (hexpected : (c.settle callbacks).Expected cb) : c.Coherent (callbacks ++ [cb]) :=
  Candidacy.coherent_append.2 ⟨h.coherent, fun _ => hexpected, trivial⟩

/-- Whose seat a candidacy has, it has taken or it was its first. -/
theorem seat_of_giveBack {a : Candidacy} (h : a.Good) {r : LockRequest} (hkind : r.kind = .queue) (hmine : r ∉ a.mine) :
    a.giveBack ≠ some r := by
  intro hgive
  rcases (h.seat r hgive).2 with hr | hr
  · exact hmine hr
  · simp [hkind] at hr

theorem holding_of_giveBack {a : Candidacy} (h : a.Good) {r : LockRequest} (hgive : a.giveBack = some r) :
    a.holding = true := by
  rw [h.seated, hgive]
  rfl

theorem giveBack_of_idle {a : Candidacy} (h : a.Good) (hidle : a.holding = false) : a.giveBack = none := by
  have hseated := h.seated
  rw [hidle] at hseated
  simpa using hseated.symm

/-! ### Steps of the browser -/

theorem requestsOf_sublist {asks' : List Ask} (h : asks'.Sublist asks) : (requestsOf asks').Sublist (requestsOf asks) :=
  h.filterMap _

theorem opened_sublist {line' : List LockRequest} {asks' : List Ask} (hline : line'.Sublist line)
    (hasks : asks'.Sublist asks) : (opened line' callbacks asks').Sublist (opened line callbacks asks) :=
  ((requestsOf_sublist hasks).append hline).append (List.Sublist.refl _)

/-- A promise is rejected: that of a request that had the lock, queued or was still to be seen. -/
theorem Wire.rejected (hw : Wire held line c callbacks asks) {held' : Option LockRequest} {line' : List LockRequest}
    {asks' : List Ask} {r : LockRequest} (hexpected : (c.settle callbacks).Expected (.rejected r))
    (hheld : ∀ x, held' = some x → held = some x) (hline : line'.Sublist line) (hasks : asks'.Sublist asks)
    (hnumber : r.number < c.requests) (hclosed : r ∉ requestsOf asks' ∧ r ∉ line') (hlost : held' ≠ some r)
    (hfirst : ∀ x ∈ requestsOf asks', x.kind ≠ .first) :
    Wire held' line' c (callbacks ++ [.rejected r]) asks' := by
  have hreq := requestsOf_sublist hasks
  have hopen := @opened_sublist _ callbacks _ _ _ hline hasks
  have hsame : opened line' (callbacks ++ [.rejected r]) asks' = opened line' callbacks asks' := by simp [opened]
  have hwas : ∀ x, Closed held' callbacks asks' x → Closed held callbacks asks x := by
    rintro x (hx | hx | hx)
    · exact .inl hx
    · exact .inr (.inl (hasks.subset hx))
    · exact .inr (.inr (hheld x hx))
  refine ⟨hw.coherent_concat hexpected, hsame ▸ hw.once.sublist hopen, ?_, hw.used, fun q hq => hw.kinds q (hline.subset hq),
    fun q hq x hx => hw.inOrder q (hline.subset hq) x (hreq.subset hx), hw.ascending.sublist hreq, ?_, ?_, ?_, ?_, ?_⟩
  · intro x hx
    exact hw.numbered x (hopen.subset (hsame ▸ hx))
  · intro x hx
    by_cases heq : x = r
    · subst heq
      exact ⟨hnumber, hclosed⟩
    · have hx' : Closed held' callbacks asks' x := by simpa [Closed, heq] using hx
      obtain ⟨hlt, hnot, hnot'⟩ := hw.closed x (hwas x hx')
      exact ⟨hlt, fun h => hnot (hreq.subset h), fun h => hnot' (hline.subset h)⟩
  · intro x hx
    rcases List.mem_append.1 hx with hx | hx
    · exact fun hh => hw.lost x hx (hheld x hh)
    · obtain rfl : x = r := by simpa using hx
      exact hlost
  · intro x hx
    obtain ⟨hkind, hmine, hgrant⟩ := hw.released x (hasks.subset hx)
    exact ⟨hkind, hmine, by simpa using hgrant⟩
  · exact fun x hx => hw.aborted x (hasks.subset hx)
  · exact fun x hx hkind => absurd hkind (hfirst x hx)

/-- While a tab has the lock, its first request is seen. -/
theorem Place.seen (hp : Place refuses held line c callbacks asks) (hres : c.resigned = false) {h : LockRequest}
    (hheld : held = some h) : ∀ r ∈ requestsOf asks, r.kind ≠ .first := by
  intro r hr hkind
  obtain ⟨hat, hcb, hask, -⟩ := (hp.wire hres).first r hr hkind
  rcases hp.owner h hheld with hgive | hgrant | hrelease
  · have hidle := (hp.good.unanswered hat).1
    rw [holding_of_giveBack hp.good hgive] at hidle
    simp at hidle
  · simp [hcb] at hgrant
  · simp [hask] at hrelease

/-- A rejection that is no tenure's leaves the candidacy. -/
theorem react_rejected_queue {a : Candidacy} {r : LockRequest} (hkind : r.kind = .queue) (hmine : r ∉ a.mine) :
    (a.react [] (.rejected r)).1 = a := by
  simp [Candidacy.react, hkind, Candidacy.tenureEnded, hmine]

/-- The rejection of the tenure it is in makes a candidacy queue. -/
theorem react_rejected_seat {a : Candidacy} (h : a.Good) (hres : a.resigned = false) {r : LockRequest}
    (hgive : a.giveBack = some r) : (a.react [] (.rejected r)).1 = { a with
      holding := false, giveBack := none, events := .onDisplaced :: a.events,
      queued := some ⟨a.tab, a.requests, .queue⟩, requests := a.requests + 1 } := by
  have hholding := holding_of_giveBack h hgive
  have hstealing : a.stealing = false := by
    by_contra hst
    have hidle := h.stealing (by simpa using hst)
    simp [hholding] at hidle
  have hseat := (h.seat r hgive).2
  cases hk : r.kind with
  | first => simp [Candidacy.react, hk, hholding, hres, Candidacy.displaced, Candidacy.hostCalls, Candidacy.queue]
  | queue =>
    have hm : r ∈ a.mine := by simpa [hk] using hseat
    simp [Candidacy.react, hk, hres, Candidacy.tenureEnded, hm, Candidacy.displaced, Candidacy.hostCalls, Candidacy.queue]
  | steal =>
    have hm : r ∈ a.mine := by simpa [hk] using hseat
    simp [Candidacy.react, hk, hres, Candidacy.tenureEnded, hm, Candidacy.displaced, Candidacy.hostCalls, Candidacy.queue,
      hstealing]

/-- **The lock is stolen.** -/
theorem Place.lose {h : LockRequest} (hp : Place refuses (some h) line c callbacks asks) :
    Place refuses none line c (callbacks ++ [.rejected h]) asks := by
  refine ⟨hp.good, by simp, fun hres => ?_, fun hres => ?_⟩
  · have hw := hp.wire hres
    have hclosed := hw.closed h (.inr (.inr rfl))
    have hexpected : (c.settle callbacks).Expected (.rejected h) := by
      rcases (hp.settles hres).held h rfl with hgive | ⟨hkind, hmine⟩
      · exact ⟨fun _ _ => hgive, fun _ _ => hgive, fun _ => .inl hgive⟩
      · exact ⟨by simp [hkind], fun _ hm => absurd hm hmine, by simp [hkind]⟩
    exact hw.rejected hexpected (by simp) (List.Sublist.refl _) (List.Sublist.refl _) hclosed.1 hclosed.2 (by simp)
      (hp.seen hres rfl)
  · have hw := hp.wire hres
    have hs := hp.settles hres
    have hgood := hw.good hp.good
    obtain ⟨htab, hres', hreq, -, -⟩ := c.settle_fields callbacks
    rw [settle_concat]
    rw [hres] at hres'
    generalize c.settle callbacks = a at hs hgood hres' hreq htab
    rcases hs.held h rfl with hgive | ⟨hkind, hmine⟩
    · have hholding := holding_of_giveBack hgood hgive
      rw [react_rejected_seat hgood hres' hgive]
      refine ⟨hs.accepted, hs.stealing, hs.steals, hs.oneSteal, by simp, by simp, ?_, by simp⟩
      rintro - q hq
      obtain rfl := Option.some.inj hq
      exact .inr (.inr (.inl hreq))
    · rw [react_rejected_queue hkind hmine]
      have hidle : a.holding = false := by
        by_contra hholding
        exact seat_of_giveBack hgood hkind hmine (hs.seat (by simpa using hholding)).symm
      refine ⟨hs.accepted, hs.stealing, hs.steals, hs.oneSteal, fun hholding => ?_, by simp, hs.waits, hs.asking⟩
      simp [hidle] at hholding

/-- What the browser has seen is no longer on its way. -/
theorem Wire.tail {ask : Ask} (hw : Wire held line c callbacks (ask :: asks)) (hask : requestsOf (ask :: asks) = requestsOf asks) :
    Wire held line c callbacks asks := by
  have hsub : asks.Sublist (ask :: asks) := List.sublist_cons_self _ _
  have hopen : opened line callbacks (ask :: asks) = opened line callbacks asks := by
    unfold opened
    rw [hask]
  refine ⟨hw.coherent, hopen ▸ hw.once, hopen ▸ hw.numbered, hw.used, hw.kinds, hask ▸ hw.inOrder, hask ▸ hw.ascending,
    fun r hr => ?_, hw.lost, fun r hr => hw.released r (hsub.subset hr), fun r hr => hw.aborted r (hsub.subset hr),
    fun r hr hkind => ?_⟩
  · have hclosed := hw.closed r (hr.imp_right (Or.imp_left fun h => hsub.subset h))
    rwa [hask] at hclosed
  · obtain ⟨-, -, heq, -⟩ := hw.first r (hask ▸ hr) hkind
    obtain ⟨-, hnil⟩ := List.cons_eq_cons.1 heq
    rw [hnil] at hr
    simp at hr

theorem Settles.tail {after : Candidacy} {ask : Ask} (hs : Settles refuses held line c after (ask :: asks))
    (hask : requestsOf (ask :: asks) = requestsOf asks) : Settles refuses held line c after asks :=
  ⟨hs.accepted, hask ▸ hs.stealing, hask ▸ hs.steals, hask ▸ hs.oneSteal, hs.seat, hs.held, hask ▸ hs.waits,
    hask ▸ hs.asking⟩

/-- An abort of a request that does not queue comes too late. -/
theorem Place.abortMissed {r : LockRequest} (hp : Place refuses held line c callbacks (.abort r :: asks)) :
    Place refuses held line c callbacks asks := by
  refine ⟨hp.good, fun x hx => ?_, fun hres => (hp.wire hres).tail rfl, fun hres => (hp.settles hres).tail rfl⟩
  simpa using hp.owner x hx

/-- The callback of a request that lost the lock returns. -/
theorem Place.releaseMissed {r : LockRequest} (hp : Place refuses held line c callbacks (.release r :: asks))
    (hlost : held ≠ some r) : Place refuses held line c callbacks asks := by
  refine ⟨hp.good, fun x hx => ?_, fun hres => (hp.wire hres).tail rfl, fun hres => (hp.settles hres).tail rfl⟩
  have hne : x ≠ r := by
    rintro rfl
    exact hlost hx
  simpa [hne] using hp.owner x hx

/-- **A request leaves the queue.** -/
theorem Place.abort {r : LockRequest} (hp : Place refuses held line c callbacks (.abort r :: asks)) (hr : r ∈ line) :
    Place refuses held (line.erase r) c (callbacks ++ [.rejected r]) asks := by
  refine ⟨hp.good, fun x hx => ?_, fun hres => ?_, fun hres => ?_⟩
  · rcases hp.owner x hx with h | h | h
    · exact .inl h
    · exact .inr (.inl (List.mem_append_left _ h))
    · exact .inr (.inr (by simpa using h))
  · have hw := hp.wire hres
    have hmine := hw.notMem_mine (.inr hr)
    have hkind := hw.kinds r hr
    have hopen : r ∈ opened line callbacks (.abort r :: asks) := by simp [opened, hr]
    have hexpected : (c.settle callbacks).Expected (.rejected r) :=
      ⟨by simp [hkind], fun _ hm => absurd hm hmine, by simp [hkind]⟩
    have honce : (requestsOf asks ++ line).Nodup := (List.nodup_append.1 hw.once).1
    refine hw.rejected hexpected (fun x hx => hx) List.erase_sublist (List.sublist_cons_self _ _)
      (hw.numbered r hopen).2.1 ⟨?_, ?_⟩ ?_ ?_
    · intro hreq
      exact (List.nodup_append.1 honce).2.2 r hreq r hr rfl
    · exact (List.nodup_append.1 honce).2.1.not_mem_erase
    · intro hheld
      exact (hw.closed r (.inr (.inr hheld))).2.2 hr
    · intro x hx hk
      obtain ⟨-, -, -, hline⟩ := hw.first x hx hk
      simp [hline] at hr
  · have hw := hp.wire hres
    have hs := hp.settles hres
    have hmine := hw.notMem_mine (.inr hr)
    have hreq := (c.settle_fields callbacks).2.2.1
    have hgood := hw.good hp.good
    rw [settle_concat, react_rejected_queue (hw.kinds r hr) hmine]
    refine ⟨fun q hq => hs.accepted q (List.mem_of_mem_erase hq), hs.stealing, hs.steals, hs.oneSteal, hs.seat, hs.held,
      fun hidle q hq => ?_, hs.asking⟩
    rcases hs.waits hidle q hq with hline | h
    · -- what a candidacy leaves, it has asked something after
      have hlast := (hgood.queued q hq).2.2
      have habort := hw.aborted r (by simp)
      have hne : q ≠ r := by
        rintro rfl
        omega
      exact .inl ((List.mem_erase_of_ne hne).2 hline)
    · exact .inr h

theorem react_resolved_queue {a : Candidacy} {r : LockRequest} (hkind : r.kind ≠ .first) :
    (a.react [] (.resolved r)).1 = a := by
  simp [Candidacy.react, hkind]

/-- A promise is resolved that nothing follows from. -/
theorem Wire.resolved (hw : Wire held line c callbacks asks) {r : LockRequest} (hkind : r.kind ≠ .first)
    (hseen : ∀ x ∈ requestsOf asks, x.kind ≠ .first) : Wire none line c (callbacks ++ [.resolved r]) asks := by
  refine ⟨hw.coherent_concat fun h => absurd h hkind, by simpa [opened] using hw.once, by simpa [opened] using hw.numbered,
    hw.used, hw.kinds, hw.inOrder, hw.ascending, fun x hx => hw.closed x ?_, by simp, fun x hx => ?_, hw.aborted,
    fun x hx hk => absurd hk (hseen x hx)⟩
  · rcases hx with hx | hx | hx
    · exact .inl (by simpa using hx)
    · exact .inr (.inl hx)
    · simp at hx
  · obtain ⟨hk, hmine, hgrant⟩ := hw.released x hx
    exact ⟨hk, hmine, by simpa using hgrant⟩

/-- **The lock is given back.** -/
theorem Place.release {r : LockRequest} (hp : Place refuses (some r) line c callbacks (.release r :: asks)) :
    Place refuses none line c (callbacks ++ [.resolved r]) asks := by
  refine ⟨hp.good, by simp, fun hres => ?_, fun hres => ?_⟩
  · obtain ⟨hkind, -, -⟩ := (hp.wire hres).released r (by simp)
    exact ((hp.wire hres).tail rfl).resolved (by simp [hkind]) fun x hx => hp.seen hres rfl x (by simpa using hx)
  · have hw := hp.wire hres
    have hs := (hp.settles hres).tail rfl
    have hgood := hw.good hp.good
    obtain ⟨hkind, hmine, hgrant⟩ := hw.released r (by simp)
    have hnot : r ∉ (c.settle callbacks).mine := fun hm => (mine_settle hm).elim hmine hgrant
    rw [settle_concat, react_resolved_queue (by simp [hkind])]
    have hidle : (c.settle callbacks).holding = false := by
      by_contra hholding
      exact seat_of_giveBack hgood hkind hnot (hs.seat (by simpa using hholding)).symm
    refine ⟨hs.accepted, hs.stealing, hs.steals, hs.oneSteal, fun hholding => ?_, by simp, hs.waits, hs.asking⟩
    simp [hidle] at hholding

/-- A request gets the lock: one that queued, or one the browser has just seen. -/
theorem Wire.granted (hw : Wire none line c callbacks asks) {line' : List LockRequest} {asks' : List Ask}
    {r : LockRequest} (hexpected : (c.settle callbacks).Expected (.granted r))
    (hperm : (r :: (requestsOf asks' ++ line')).Perm (requestsOf asks ++ line)) (hline : line'.Sublist line)
    (hasks : asks'.Sublist asks) (hfirst : ∀ x ∈ requestsOf asks', x.kind ≠ .first) :
    Wire (some r) line' c (callbacks ++ [.granted r]) asks' := by
  have hreq := requestsOf_sublist hasks
  have hr : r ∈ requestsOf asks ++ line := hperm.mem_iff.1 List.mem_cons_self
  have hmoved : (opened line' (callbacks ++ [.granted r]) asks').Perm (opened line callbacks asks) := by
    have hfront : (opened line' (callbacks ++ [.granted r]) asks').Perm
        (r :: (requestsOf asks' ++ line') ++ grantsOf callbacks) := by
      unfold opened
      rw [grantsOf_append, grantsOf_granted, grantsOf_nil, ← List.append_assoc]
      exact (List.perm_append_comm).trans (by simp)
    exact hfront.trans (hperm.append_right _)
  have hnot : r ∉ requestsOf asks' ∧ r ∉ line' := by
    have hnodup := hperm.nodup_iff.2 (List.nodup_append.1 hw.once).1
    have hr' := (List.nodup_cons.1 hnodup).1
    exact ⟨fun h => hr' (List.mem_append_left _ h), fun h => hr' (List.mem_append_right _ h)⟩
  have hother : ∀ x, Closed none callbacks asks x → x ≠ r := by
    rintro x hx rfl
    obtain ⟨-, hx1, hx2⟩ := hw.closed x hx
    exact (List.mem_append.1 hr).elim hx1 hx2
  have hlt := (hw.numbered r (List.mem_append_left _ hr)).2.1
  refine ⟨hw.coherent_concat hexpected, hmoved.nodup_iff.2 hw.once, fun x hx => hw.numbered x (hmoved.mem_iff.1 hx),
    hw.used, fun q hq => hw.kinds q (hline.subset hq), fun q hq x hx => hw.inOrder q (hline.subset hq) x (hreq.subset hx),
    hw.ascending.sublist hreq, ?_, ?_, ?_, fun x hx => hw.aborted x (hasks.subset hx),
    fun x hx hk => absurd hk (hfirst x hx)⟩
  · rintro x (hx | hx | hx)
    · have hx' : Closed none callbacks asks x := .inl (by simpa using hx)
      obtain ⟨hn, hx1, hx2⟩ := hw.closed x hx'
      exact ⟨hn, fun h => hx1 (hreq.subset h), fun h => hx2 (hline.subset h)⟩
    · obtain ⟨hn, hx1, hx2⟩ := hw.closed x (.inr (.inl (hasks.subset hx)))
      exact ⟨hn, fun h => hx1 (hreq.subset h), fun h => hx2 (hline.subset h)⟩
    · obtain rfl := Option.some.inj hx
      exact ⟨hlt, hnot⟩
  · intro x hx hheld
    exact hother x (.inl (by simpa using hx)) (Option.some.inj hheld).symm
  · intro x hx
    have hx' := hasks.subset hx
    obtain ⟨hk, hmine, hgrant⟩ := hw.released x hx'
    refine ⟨hk, hmine, ?_⟩
    simpa [hgrant] using hother x (.inr (.inl hx'))

/-- While no request of a tab has the lock, its candidacy holds nothing once its callbacks have run. -/
theorem Settles.idle {after : Candidacy} (hs : Settles refuses none line c after asks) (hgood : after.Good) :
    after.holding = false := by
  by_contra hholding
  have hseat := hs.seat (by simpa using hholding)
  have hseated := hgood.seated
  rw [← hseat] at hseated
  simp [hseated] at hholding

/-- **The first request that queues gets the lock.** -/
theorem Place.grant {r : LockRequest} (hp : Place refuses none (r :: line) c callbacks asks) :
    Place refuses (some r) line c (callbacks ++ [.granted r]) asks := by
  have hstill : c.resigned = false → (c.settle callbacks).queued = some r → (c.settle callbacks).stealing = false := by
    intro hres hq
    by_contra hst
    have hw := hp.wire hres
    -- a steal still to be seen was asked after everything that queues
    obtain ⟨s, hs, -⟩ := (hp.settles hres).steals (by simpa using hst)
    have hlt := hw.inOrder r List.mem_cons_self s hs
    have hlast := ((hw.good hp.good).queued r hq).2.2
    have hopen : s ∈ opened (r :: line) callbacks asks := by simp [opened, hs]
    have hnumber := (hw.numbered s hopen).2.1
    have hreq := (c.settle_fields callbacks).2.2.1
    omega
  refine ⟨hp.good, fun x hx => ?_, fun hres => ?_, fun hres => ?_⟩
  · obtain rfl := Option.some.inj hx
    exact .inr (.inl (by simp))
  · have hw := hp.wire hres
    have hopen : r ∈ opened (r :: line) callbacks asks := by simp [opened]
    have hidle := (hp.settles hres).idle (hw.good hp.good)
    have hkind := hw.kinds r List.mem_cons_self
    have hexpected : (c.settle callbacks).Expected (.granted r) := by
      refine ⟨?_, hw.notMem_mine (.inr List.mem_cons_self), by simp [hkind], by simp [hkind], fun _ hq => ⟨hidle, hstill hres hq⟩⟩
      rw [(c.settle_fields callbacks).1]
      exact (hw.numbered r hopen).1
    refine hw.granted hexpected ?_ (List.sublist_cons_self _ _) (List.Sublist.refl _) fun x hx hk => ?_
    · exact List.perm_middle.symm
    · have hline := (hw.first x hx hk).2.2.2
      simp at hline
  · have hw := hp.wire hres
    have hs := hp.settles hres
    have hgood := hw.good hp.good
    have hidle := hs.idle hgood
    have hkind := hw.kinds r List.mem_cons_self
    have hmine := hw.notMem_mine (.inr List.mem_cons_self)
    have hres' := (c.settle_fields callbacks).2.1.trans hres
    rw [settle_concat]
    by_cases hq : (c.settle callbacks).queued = some r
    · have hstealing := hstill hres hq
      rw [Candidacy.react_granted_queue [] hkind hres' hq]
      refine ⟨fun q hq => hs.accepted q (List.mem_cons_of_mem _ hq), fun x hx hk => ?_, fun hst => ?_, hs.oneSteal,
        fun _ => rfl, fun x hx => .inl hx, fun hh => ?_, fun hh => ?_⟩
      · have hst := hs.stealing x hx hk
        simp [hstealing] at hst
      · simp [Candidacy.takeOver, Candidacy.hold, hstealing] at hst
      · simp [Candidacy.takeOver, Candidacy.hold] at hh
      · simp [Candidacy.takeOver, Candidacy.hold] at hh
    · rw [Candidacy.react_granted_left [] hkind hq]
      refine ⟨fun q hq => hs.accepted q (List.mem_cons_of_mem _ hq), hs.stealing, hs.steals, hs.oneSteal, fun hh => ?_,
        fun x hx => ?_, fun hh q hq' => ?_, hs.asking⟩
      · simp [hidle] at hh
      · obtain rfl := Option.some.inj hx
        exact .inr ⟨hkind, hmine⟩
      · rcases hs.waits hh q hq' with hline | h
        · have hne : q ≠ r := by
            rintro rfl
            exact hq hq'
          exact .inl ((List.mem_cons.1 hline).resolve_left hne)
        · exact .inr h

/-- What is asked behind a request of the candidacy is none of its first. -/
theorem Wire.seenBehind {r : LockRequest} (hw : Wire held line c callbacks (.request r :: asks)) :
    ∀ x ∈ requestsOf asks, x.kind ≠ .first := by
  intro x hx hk
  obtain ⟨-, -, hasks, -⟩ := hw.first x (by simp [hx]) hk
  obtain ⟨-, rfl⟩ := List.cons_eq_cons.1 hasks
  simp at hx

/-- A request still to be seen is not asked twice. -/
theorem Wire.notMem_behind {r : LockRequest} (hw : Wire held line c callbacks (.request r :: asks)) :
    r ∉ requestsOf asks ∧ r ∉ line := by
  have hnodup := (List.nodup_append.1 hw.once).1
  rw [requestsOf_request, List.cons_append, List.nodup_cons] at hnodup
  exact ⟨fun h => hnodup.1 (List.mem_append_left _ h), fun h => hnodup.1 (List.mem_append_right _ h)⟩

theorem Place.owner_request {r : LockRequest} (hp : Place refuses held line c callbacks (.request r :: asks))
    (cbs : List Callback) : ∀ x, held = some x →
      c.giveBack = some x ∨ .granted x ∈ callbacks ++ cbs ∨ .release x ∈ asks := by
  intro x hx
  rcases hp.owner x hx with h | h | h
  · exact .inl h
  · exact .inr (.inl (List.mem_append_left _ h))
  · exact .inr (.inr (by simpa using h))

/-- **A request joins the queue.** -/
theorem Place.queued {r : LockRequest} (hp : Place refuses held line c callbacks (.request r :: asks))
    (hkind : r.kind = .queue) (haccepted : refuses r.number = false) :
    Place refuses held (line ++ [r]) c callbacks asks := by
  refine ⟨hp.good, fun x hx => ?_, fun hres => ?_, fun hres => ?_⟩
  · simpa using hp.owner_request [] x hx
  · have hw := hp.wire hres
    have hbehind := hw.notMem_behind
    have hperm : (opened (line ++ [r]) callbacks asks).Perm (opened line callbacks (.request r :: asks)) := by
      unfold opened
      rw [requestsOf_request]
      refine List.Perm.append_right _ ?_
      rw [← List.append_assoc]
      exact List.perm_append_comm.trans (by simp)
    have hasc := List.pairwise_cons.1 hw.ascending
    refine ⟨hw.coherent, hperm.nodup_iff.2 hw.once, fun x hx => hw.numbered x (hperm.mem_iff.1 hx), hw.used, fun q hq => ?_,
      fun q hq x hx => ?_, hasc.2, fun x hx => ?_, hw.lost, fun x hx => hw.released x (by simp [hx]),
      fun x hx => hw.aborted x (by simp [hx]), fun x hx hk => absurd hk (hw.seenBehind x hx)⟩
    · rcases List.mem_append.1 hq with hq | hq
      · exact hw.kinds q hq
      · rw [List.mem_singleton.1 hq]
        exact hkind
    · rcases List.mem_append.1 hq with hq | hq
      · exact hw.inOrder q hq x (by simp [hx])
      · rw [List.mem_singleton.1 hq]
        exact hasc.1 x hx
    · obtain ⟨hn, hx1, hx2⟩ := hw.closed x (hx.imp_right (Or.imp_left fun h => List.mem_cons_of_mem _ h))
      rw [requestsOf_request, List.mem_cons, not_or] at hx1
      exact ⟨hn, hx1.2, by simp [hx1.1, hx2]⟩
  · have hs := hp.settles hres
    have hsteal : ∀ x, x.kind = .steal → x ∈ requestsOf (.request r :: asks) → x ∈ requestsOf asks := by
      intro x hk hx
      rcases List.mem_cons.1 hx with rfl | hx
      · simp [hkind] at hk
      · exact hx
    refine ⟨fun q hq => ?_, fun x hx => hs.stealing x (by simp [hx]), fun hst => ?_,
      fun x hx y hy => hs.oneSteal x (by simp [hx]) y (by simp [hy]), hs.seat, hs.held, fun hidle q hq => ?_,
      fun hidle hq => ?_⟩
    · rcases List.mem_append.1 hq with hq | hq
      · exact hs.accepted q hq
      · rw [List.mem_singleton.1 hq]
        exact haccepted
    · obtain ⟨x, hx, hk⟩ := hs.steals hst
      exact ⟨x, hsteal x hk hx, hk⟩
    · rcases hs.waits hidle q hq with h | h | h
      · exact .inl (List.mem_append_left _ h)
      · rcases List.mem_cons.1 h with rfl | h
        · exact .inl (by simp)
        · exact .inr (.inl h)
      · exact .inr (.inr h)
    · obtain ⟨n, hn, ⟨x, hx, hxn, hk⟩ | href⟩ := hs.asking hidle hq
      · rcases List.mem_cons.1 hx with rfl | hx
        · exact absurd hkind hk
        · exact ⟨n, hn, .inl ⟨x, hx, hxn, hk⟩⟩
      · exact ⟨n, hn, .inr href⟩

/-- **The browser refuses a request.** -/
theorem Place.refused {r : LockRequest} (hp : Place refuses held line c callbacks (.request r :: asks))
    (hrefused : refuses r.number = true) : Place refuses held line c (callbacks ++ [.rejected r]) asks := by
  have hexpected : ∀ hres : c.resigned = false, (c.settle callbacks).Expected (.rejected r) := by
    intro hres
    have hw := hp.wire hres
    have hnot := hw.notMem_mine (.inl (show r ∈ requestsOf (.request r :: asks) by simp))
    refine ⟨fun hk hholding => ?_, fun _ hm => absurd hm hnot, fun hk => .inr ⟨?_, hnot⟩⟩
    · obtain ⟨hat, hcb, -, -⟩ := hw.first r (by simp) hk
      rw [hcb] at hholding
      have hidle := (hp.good.unanswered hat).1
      rw [show c.settle [] = c from rfl, hidle] at hholding
      simp at hholding
    · exact (hp.settles hres).stealing r (by simp) hk
  refine ⟨hp.good, hp.owner_request _, fun hres => ?_, fun hres => ?_⟩
  · have hw := hp.wire hres
    have hopen : r ∈ opened line callbacks (.request r :: asks) := by simp [opened]
    refine hw.rejected (hexpected hres) (fun x hx => hx) (List.Sublist.refl _) (List.sublist_cons_self _ _)
      (hw.numbered r hopen).2.1 hw.notMem_behind (fun hh => ?_) hw.seenBehind
    exact (hw.closed r (.inr (.inr hh))).2.1 (by simp)
  · have hw := hp.wire hres
    have hs := hp.settles hres
    have hgood := hw.good hp.good
    have hnot := hw.notMem_mine (.inl (show r ∈ requestsOf (.request r :: asks) by simp))
    obtain ⟨-, hresigned, hreq, -, -⟩ := c.settle_fields callbacks
    rw [hres] at hresigned
    -- whatever the request was, only the flag of a steal moves, and the answer of the first
    obtain ⟨hsame, hst, hst'⟩ : (((c.settle callbacks).react [] (.rejected r)).1.holding = (c.settle callbacks).holding ∧
        ((c.settle callbacks).react [] (.rejected r)).1.giveBack = (c.settle callbacks).giveBack ∧
        ((c.settle callbacks).react [] (.rejected r)).1.queued = (c.settle callbacks).queued ∧
        ((c.settle callbacks).react [] (.rejected r)).1.mine = (c.settle callbacks).mine ∧
        ((c.settle callbacks).react [] (.rejected r)).1.requests = (c.settle callbacks).requests) ∧
        (r.kind ≠ .steal → ((c.settle callbacks).react [] (.rejected r)).1.stealing = (c.settle callbacks).stealing) ∧
        (r.kind = .steal → ((c.settle callbacks).react [] (.rejected r)).1.stealing = false) := by
      cases hk : r.kind with
      | first =>
        obtain ⟨hat, hcb, -, -⟩ := hw.first r (by simp) hk
        have hidle : (c.settle callbacks).holding = false := by
          rw [hcb]
          exact (hp.good.unanswered hat).1
        simp [Candidacy.react, hk, hidle, Candidacy.answer]
      | queue => simp [Candidacy.react, hk, Candidacy.tenureEnded, hnot]
      | steal => simp [Candidacy.react, hk, Candidacy.tenureEnded, hnot]
    rw [settle_concat]
    obtain ⟨hholding, hgive, hqueued, hmine, hrequests⟩ := hsame
    refine ⟨hs.accepted, fun x hx hk => ?_, fun hsteal => ?_,
      fun x hx y hy => hs.oneSteal x (by simp [hx]) y (by simp [hy]), ?_, ?_, fun hidle q hq => ?_, fun hidle hq => ?_⟩
    · have hne : r.kind ≠ .steal := by
        intro hk'
        have heq := hs.oneSteal r (by simp) x (by simp [hx]) hk' hk
        exact hw.notMem_behind.1 (heq ▸ hx)
      rw [hst hne]
      exact hs.stealing x (by simp [hx]) hk
    · by_cases hk' : r.kind = .steal
      · simp [hst' hk'] at hsteal
      · rw [hst hk'] at hsteal
        obtain ⟨x, hx, hk⟩ := hs.steals hsteal
        rcases List.mem_cons.1 hx with rfl | hx
        · exact absurd hk hk'
        · exact ⟨x, hx, hk⟩
    · rw [hholding, hgive]
      exact hs.seat
    · rw [hgive, hmine]
      exact hs.held
    · rw [hholding] at hidle
      rw [hqueued] at hq
      rcases hs.waits hidle q hq with h | h | h
      · exact .inl h
      · rcases List.mem_cons.1 h with rfl | h
        · exact .inr (.inr (.inr hrefused))
        · exact .inr (.inl h)
      · exact .inr (.inr h)
    · rw [hholding] at hidle
      rw [hqueued] at hq
      rw [hrequests]
      obtain ⟨n, hn, ⟨x, hx, hxn, hk⟩ | href⟩ := hs.asking hidle hq
      · rcases List.mem_cons.1 hx with rfl | hx
        · exact ⟨n, hn, .inr (hxn ▸ hrefused)⟩
        · exact ⟨n, hn, .inl ⟨x, hx, hxn, hk⟩⟩
      · exact ⟨n, hn, .inr href⟩

/-- **A request gets the lock without queueing.** -/
theorem Place.given {r : LockRequest} (hp : Place refuses none line c callbacks (.request r :: asks))
    (hkind : r.kind ≠ .queue) : Place refuses (some r) line c (callbacks ++ [.granted r]) asks := by
  refine ⟨hp.good, fun x hx => ?_, fun hres => ?_, fun hres => ?_⟩
  · obtain rfl := Option.some.inj hx
    exact .inr (.inl (by simp))
  · have hw := hp.wire hres
    have hopen : r ∈ opened line callbacks (.request r :: asks) := by simp [opened]
    have hexpected : (c.settle callbacks).Expected (.granted r) := by
      refine ⟨?_, hw.notMem_mine (.inl (by simp)), fun hk => ?_, (hp.settles hres).stealing r (by simp), fun hk => absurd hk hkind⟩
      · rw [(c.settle_fields callbacks).1]
        exact (hw.numbered r hopen).1
      · obtain ⟨hat, hcb, -, -⟩ := hw.first r (by simp) hk
        rw [hcb]
        exact hat
    exact hw.granted hexpected (List.Perm.refl _) (List.Sublist.refl _) (List.sublist_cons_self _ _) hw.seenBehind
  · have hw := hp.wire hres
    have hs := hp.settles hres
    have hres' := (c.settle_fields callbacks).2.1.trans hres
    have hone : ∀ x ∈ requestsOf asks, x.kind = .steal → r.kind ≠ .steal := by
      intro x hx hk hk'
      have heq := hs.oneSteal r (by simp) x (by simp [hx]) hk' hk
      exact hw.notMem_behind.1 (heq ▸ hx)
    rw [settle_concat]
    cases hk : r.kind with
    | queue => exact absurd hk hkind
    | first =>
      obtain ⟨hat, hcb, hasks, hline⟩ := hw.first r (by simp) hk
      obtain ⟨-, rfl⟩ := List.cons_eq_cons.1 hasks
      have hstealing : (c.settle callbacks).stealing = false := by
        rw [hcb]
        exact (hp.good.unanswered hat).2.1
      rw [Candidacy.react_granted_first [] hk hres']
      refine ⟨hs.accepted, by simp, fun hst => ?_, by simp, fun _ => rfl, fun x hx => .inl hx, ?_, ?_⟩
      · simp [Candidacy.answer, Candidacy.hold, hstealing] at hst
      · simp [Candidacy.answer, Candidacy.hold]
      · simp [Candidacy.answer, Candidacy.hold]
    | steal =>
      rw [Candidacy.react_granted_steal [] hk hres']
      refine ⟨hs.accepted, fun x hx hx' => absurd hk (hone x hx hx'), ?_,
        fun x hx y hy => hs.oneSteal x (by simp [hx]) y (by simp [hy]), fun _ => rfl, fun x hx => .inl hx, ?_, ?_⟩
      · simp [Candidacy.takeOver, Candidacy.hold]
      · simp [Candidacy.takeOver, Candidacy.hold]
      · simp [Candidacy.takeOver, Candidacy.hold]

/-- **The lock is not free.** -/
theorem Place.unavailable {r : LockRequest} (hp : Place refuses held line c callbacks (.request r :: asks))
    (hkind : r.kind = .first) : Place refuses held line c (callbacks ++ [.unavailable r, .resolved r]) asks := by
  have hfree : c.resigned = false → held = none := by
    intro hres
    by_contra hheld
    obtain ⟨x, hx⟩ := Option.ne_none_iff_exists'.1 hheld
    exact hp.seen hres hx r (by simp) hkind
  refine ⟨hp.good, hp.owner_request _, fun hres => ?_, fun hres => ?_⟩
  · have hw := hp.wire hres
    obtain ⟨hat, rfl, hasks, rfl⟩ := hw.first r (by simp) hkind
    obtain ⟨-, rfl⟩ := List.cons_eq_cons.1 hasks
    rw [hfree hres]
    refine ⟨⟨fun _ => hat, fun _ _ => ?_, trivial⟩, by simp [opened], by simp [opened], hw.used, by simp, by simp, by simp,
      by simp [Closed], by simp, by simp, by simp, by simp⟩
    simp [Candidacy.react, Candidacy.answer, hat]
  · have hw := hp.wire hres
    obtain ⟨hat, rfl, hasks, rfl⟩ := hw.first r (by simp) hkind
    obtain ⟨-, rfl⟩ := List.cons_eq_cons.1 hasks
    obtain ⟨hidle, hstealing, -, -, -⟩ := hp.good.unanswered hat
    have hafter : c.settle ([] ++ [.unavailable r, .resolved r]) = { c.answer false with
        queued := some ⟨c.tab, c.requests, .queue⟩, requests := c.requests + 1 } := by
      simp [Candidacy.settle, Candidacy.react, Candidacy.answer, Candidacy.queue, hkind, hidle, hres]
    rw [hafter, hfree hres]
    refine ⟨by simp, by simp, ?_, by simp, ?_, by simp, ?_, by simp⟩
    · simp [Candidacy.answer, hstealing]
    · simp [Candidacy.answer, hidle]
    · rintro - q hq
      obtain rfl := Option.some.inj hq
      exact .inr (.inr (.inl (le_refl _)))

/-! ### Steps of the tab -/

/-- A candidacy moves: some callbacks ran, and it asks for more. -/
theorem Wire.moved (ran : List Callback) (hw : Wire held line c (ran ++ callbacks) asks) {c' : Candidacy} {more : List Ask}
    (hcoherent : c'.Coherent callbacks) (htab : c'.tab = c.tab) (hrequests : c.requests ≤ c'.requests)
    (hmine : ∀ x ∈ c'.mine, x ∈ c.mine ∨ .granted x ∈ ran)
    (hmore : ∀ x ∈ requestsOf more, x.tab = c.tab ∧ c.requests ≤ x.number ∧ x.number < c'.requests ∧ x.kind ≠ .first)
    (hascending : (requestsOf more).Pairwise (·.number < ·.number))
    (hrelease : ∀ x, .release x ∈ more → x.kind = .queue ∧ .granted x ∈ ran ∧ x ∉ c'.mine)
    (habort : ∀ x, .abort x ∈ more → x.number + 1 < c'.requests) (hanswered : ran = [] → c.atOnce ≠ none) :
    Wire held line c' callbacks (asks ++ more) := by
  have hran : ∀ x, .granted x ∈ ran → x.tab = c.tab ∧ x.number < c.requests ∧ x ∉ requestsOf asks ++ line ∧
      x ∉ grantsOf callbacks := by
    intro x hx
    have hgrant : x ∈ grantsOf ran := mem_grantsOf.2 hx
    have hopen : x ∈ opened line (ran ++ callbacks) asks := by simp [opened, hgrant]
    obtain ⟨ht, hn, -⟩ := hw.numbered x hopen
    obtain ⟨-, hgrants, hapart⟩ := List.nodup_append.1 hw.once
    rw [grantsOf_append] at hgrants hapart
    exact ⟨ht, hn, fun h => hapart x h x (by simp [hgrant]) rfl,
      fun h => (List.nodup_append.1 hgrants).2.2 x hgrant x h rfl⟩
  have hused : ∀ x ∈ c'.mine, x.number < c.requests := by
    intro x hx
    rcases hmine x hx with h | h
    · exact hw.used x h
    · exact (hran x h).2.1
  have hold : (opened line callbacks asks).Sublist (opened line (ran ++ callbacks) asks) := by
    unfold opened
    rw [grantsOf_append]
    exact (List.Sublist.refl _).append (List.sublist_append_right _ _)
  have hperm : (opened line callbacks (asks ++ more)).Perm (requestsOf more ++ opened line callbacks asks) := by
    unfold opened
    rw [requestsOf_append, List.append_assoc, List.append_assoc, List.append_assoc]
    rw [← List.append_assoc, ← List.append_assoc (requestsOf more)]
    exact List.perm_append_comm.append_right _
  have hbehind : ∀ x ∈ opened line callbacks asks, x ∉ requestsOf more := by
    intro x hx hx'
    have hlt := (hw.numbered x (hold.subset hx)).2.1
    have hle := (hmore x hx').2.1
    omega
  refine ⟨hcoherent, ?_, fun x hx => ?_, fun x hx => (hused x hx).trans_le hrequests, hw.kinds, fun q hq x hx => ?_, ?_,
    fun x hx => ?_, fun x hx => hw.lost x (List.mem_append_right _ hx), fun x hx => ?_, fun x hx => ?_, fun x hx hk => ?_⟩
  · refine hperm.nodup_iff.2 (List.nodup_append.2 ⟨?_, hw.once.sublist hold, fun x hx y hy hxy => ?_⟩)
    · refine hascending.imp fun hlt heq => ?_
      rw [heq] at hlt
      exact lt_irrefl _ hlt
    · exact hbehind y hy (hxy ▸ hx)
  · rcases List.mem_append.1 (hperm.mem_iff.1 hx) with hx | hx
    · obtain ⟨ht, hle, hlt, -⟩ := hmore x hx
      refine ⟨ht.trans htab.symm, hlt, fun hm => ?_⟩
      have hlt' := hused x hm
      omega
    · obtain ⟨ht, hlt, hm⟩ := hw.numbered x (hold.subset hx)
      refine ⟨ht.trans htab.symm, hlt.trans_le hrequests, fun hm' => ?_⟩
      rcases hmine x hm' with h | h
      · exact hm h
      · obtain ⟨-, -, hnot, hnot'⟩ := hran x h
        exact (List.mem_append.1 hx).elim hnot hnot'
  · rw [requestsOf_append] at hx
    rcases List.mem_append.1 hx with hx | hx
    · exact hw.inOrder q hq x hx
    · have hlt := (hw.numbered q (by simp [opened, hq])).2.1
      have hle := (hmore x hx).2.1
      omega
  · rw [requestsOf_append]
    refine List.pairwise_append.2 ⟨hw.ascending, hascending, fun x hx y hy => ?_⟩
    have hlt := (hw.numbered x (by simp [opened, hx])).2.1
    have hle := (hmore y hy).2.1
    omega
  · have hwas : x.number < c.requests ∧ x ∉ requestsOf asks ∧ x ∉ line := by
      rcases hx with hx | hx | hx
      · exact hw.closed x (.inl (List.mem_append_right _ hx))
      · rcases List.mem_append.1 hx with hx | hx
        · exact hw.closed x (.inr (.inl hx))
        · obtain ⟨-, hlt, hnot, -⟩ := hran x (hrelease x hx).2.1
          exact ⟨hlt, fun h => hnot (List.mem_append_left _ h), fun h => hnot (List.mem_append_right _ h)⟩
      · exact hw.closed x (.inr (.inr hx))
    refine ⟨hwas.1.trans_le hrequests, ?_, hwas.2.2⟩
    rw [requestsOf_append, List.mem_append, not_or]
    refine ⟨hwas.2.1, fun h => ?_⟩
    have hle := (hmore x h).2.1
    omega
  · rcases List.mem_append.1 hx with hx | hx
    · obtain ⟨hk, hm, hg⟩ := hw.released x hx
      rw [grantsOf_append, List.mem_append, not_or] at hg
      refine ⟨hk, fun hm' => ?_, hg.2⟩
      rcases hmine x hm' with h | h
      · exact hm h
      · exact hg.1 (mem_grantsOf.2 h)
    · obtain ⟨hk, hg, hm⟩ := hrelease x hx
      exact ⟨hk, hm, (hran x hg).2.2.2⟩
  · rcases List.mem_append.1 hx with hx | hx
    · exact (hw.aborted x hx).trans_le hrequests
    · exact habort x hx
  · rw [requestsOf_append] at hx
    rcases List.mem_append.1 hx with hx | hx
    · obtain ⟨hat, hnil, -, -⟩ := hw.first x hx hk
      exact absurd hat (hanswered (List.append_eq_nil_iff.1 hnil).1)
    · exact absurd hk (hmore x hx).2.2.2

/-- A candidacy that has not resigned and asks for at most one place in the queue. -/
theorem Settles.moved {after c' : Candidacy} {more : List Ask} (hs : Settles refuses held line c after asks)
    (hafter : after.Good) (htab : after.tab = c.tab)
    (hmore : (c'.requests = c.requests ∧ requestsOf more = []) ∨
      (c'.requests = c.requests + 1 ∧ requestsOf more = [⟨c.tab, c.requests, .queue⟩])) :
    Settles refuses held line c' after (asks ++ more) := by
  have hkinds : ∀ x ∈ requestsOf (asks ++ more), x.kind = .steal → x ∈ requestsOf asks := by
    intro x hx hk
    rw [requestsOf_append] at hx
    rcases List.mem_append.1 hx with hx | hx
    · exact hx
    · rcases hmore with ⟨-, hm⟩ | ⟨-, hm⟩
      · simp [hm] at hx
      · obtain rfl : x = _ := by simpa [hm] using hx
        simp at hk
  have hkept : ∀ x ∈ requestsOf asks, x ∈ requestsOf (asks ++ more) := by
    intro x hx
    simp [hx]
  refine ⟨hs.accepted, fun x hx hk => hs.stealing x (hkinds x hx hk) hk, fun hst => ?_,
    fun x hx y hy hk hk' => hs.oneSteal x (hkinds x hx hk) y (hkinds y hy hk') hk hk', hs.seat, hs.held,
    fun hidle q hq => ?_, fun hidle hq => ?_⟩
  · obtain ⟨x, hx, hk⟩ := hs.steals hst
    exact ⟨x, hkept x hx, hk⟩
  · rcases hs.waits hidle q hq with h | h | h | h
    · exact .inl h
    · exact .inr (.inl (hkept q h))
    · rcases hmore with ⟨hsame, -⟩ | ⟨hone, hm⟩
      · exact .inr (.inr (.inl (hsame ▸ h)))
      · by_cases hlast : q.number = c.requests
        · -- what it waits for is what it has just asked
          obtain ⟨ht, hk, -⟩ := hafter.queued q hq
          have hq' : q = ⟨c.tab, c.requests, .queue⟩ := by
            cases q
            simp_all
          exact .inr (.inl (by simp [hm, hq']))
        · exact .inr (.inr (.inl (by omega)))
    · exact .inr (.inr (.inr h))
  · obtain ⟨n, hn, ⟨x, hx, hxn, hk⟩ | h⟩ := hs.asking hidle hq
    · exact ⟨n, hn, .inl ⟨x, hkept x hx, hxn, hk⟩⟩
    · exact ⟨n, hn, .inr h⟩

/-- A candidacy that leaves the queue to steal, `base` being what it was otherwise. -/
theorem Settles.stolen {base c' : Candidacy} {more : List Ask} {seats : List LockRequest} {before : ℕ}
    (hs : Settles refuses held line c (base.settle callbacks) asks) (hcalm : (base.settle callbacks).Calm seats)
    (hsteals : (c'.settle callbacks).Steals before seats) (hgood : (c'.settle callbacks).Good) (htab : c'.tab = c.tab)
    (hmore : requestsOf more = [⟨c.tab, c.requests, .steal⟩] ∧ c'.requests = c.requests + 1 ∨
      requestsOf more = [⟨c.tab, c.requests, .steal⟩, ⟨c.tab, c.requests + 1, .queue⟩] ∧ c'.requests = c.requests + 2)
    (hbefore : before = c.requests + 1) : Settles refuses held line c' (c'.settle callbacks) (asks ++ more) := by
  have hnone : ∀ x ∈ requestsOf asks, x.kind ≠ .steal := by
    intro x hx hk
    have hst := hs.stealing x hx hk
    simp [hcalm.stealing] at hst
  have hsteal : (⟨c.tab, c.requests, .steal⟩ : LockRequest) ∈ requestsOf (asks ++ more) := by
    rcases hmore with ⟨hm, -⟩ | ⟨hm, -⟩ <;> simp [hm]
  have hone : ∀ x ∈ requestsOf (asks ++ more), x.kind = .steal → x = ⟨c.tab, c.requests, .steal⟩ := by
    intro x hx hk
    rw [requestsOf_append] at hx
    rcases List.mem_append.1 hx with hx | hx
    · exact absurd hk (hnone x hx)
    · rcases hmore with ⟨hm, -⟩ | ⟨hm, -⟩
      · simpa [hm] using hx
      · rcases (show x = _ ∨ x = _ by simpa [hm] using hx) with h | h
        · exact h
        · simp [h] at hk
  refine ⟨hs.accepted, fun _ _ _ => hsteals.stealing, fun _ => ⟨_, hsteal, rfl⟩,
    fun x hx y hy hk hk' => (hone x hx hk).trans (hone y hy hk').symm, fun hholding => ?_, fun r hr => .inr ?_,
    fun _ q hq => ?_, fun _ hq => ?_⟩
  · simp [hsteals.holding] at hholding
  · rw [hsteals.mine]
    rcases hs.held r hr with hgive | ⟨hk, hmine⟩
    · exact hcalm.seat r hgive
    · exact ⟨hk, fun h => hmine (hcalm.mine h)⟩
  · have hle := hsteals.queued q hq
    rcases hmore with ⟨-, hreq⟩ | ⟨hm, hreq⟩
    · exact .inr (.inr (.inl (by omega)))
    · by_cases hlast : q.number = c.requests + 1
      · obtain ⟨ht, hk, -⟩ := hgood.queued q hq
        rw [(c'.settle_fields callbacks).1, htab] at ht
        have hq' : q = ⟨c.tab, c.requests + 1, .queue⟩ := by
          cases q
          simp_all
        exact .inr (.inl (by simp [hm, hq']))
      · exact .inr (.inr (.inl (by omega)))
  · have hreq := hsteals.unqueued hq
    exact ⟨c.requests, by omega, .inl ⟨_, hsteal, rfl, by simp⟩⟩

/-- What a candidacy asks for in a callback inside which the host does not call it. -/
theorem asks_of_react (hres : c.resigned = false) (cb : Callback) :
    (((c.react [] cb).1.requests = c.requests ∧ requestsOf (c.react [] cb).2 = []) ∨
      ((c.react [] cb).1.requests = c.requests + 1 ∧
        requestsOf (c.react [] cb).2 = [⟨c.tab, c.requests, .queue⟩])) ∧
    (∀ x, .release x ∈ (c.react [] cb).2 → x.kind = .queue ∧ cb = .granted x ∧ (c.react [] cb).1 = c) ∧
    ∀ x, .abort x ∉ (c.react [] cb).2 := by
  have hqueue : ∀ a : Candidacy, a.resigned = false → a.queue.1.requests = a.requests + 1 ∧
      a.queue.2 = [.request ⟨a.tab, a.requests, .queue⟩] := by
    intro a ha
    rw [Candidacy.queue_of_live ha]
    exact ⟨rfl, rfl⟩
  have hdisplaced : ∀ a : Candidacy, a.resigned = false → (a.displaced []).1.requests = a.requests + 1 ∧
      (a.displaced []).2 = [.request ⟨a.tab, a.requests, .queue⟩] := by
    intro a ha
    exact hqueue { a with holding := false, giveBack := none, events := .onDisplaced :: a.events } ha
  cases cb with
  | granted r =>
    cases hk : r.kind with
    | first => simp [Candidacy.react, hk, hres, Candidacy.answer, Candidacy.hold]
    | steal => simp [Candidacy.react, hk, hres, Candidacy.takeOver, Candidacy.hold]
    | queue =>
      by_cases hq : c.queued = some r
      · simp [Candidacy.react, hk, hres, hq, Candidacy.takeOver, Candidacy.hold]
      · rw [Candidacy.react_granted_left [] hk hq]
        refine ⟨.inl ⟨rfl, rfl⟩, fun x hx => ?_, by simp⟩
        obtain rfl : x = r := by simpa using hx
        exact ⟨hk, rfl, rfl⟩
  | unavailable r => simp [Candidacy.react, Candidacy.answer]
  | resolved r =>
    simp only [Candidacy.react]
    split
    · obtain ⟨hreq, hask⟩ := hqueue c hres
      simp [hreq, hask]
    · simp
  | rejected r =>
    cases hk : r.kind with
    | first =>
      simp only [Candidacy.react, hk]
      split
      · obtain ⟨hreq, hask⟩ := hdisplaced c hres
        simp [hreq, hask]
      · simp [Candidacy.answer]
    | queue =>
      simp only [Candidacy.react, hk, Candidacy.tenureEnded]
      split
      · simp
      · obtain ⟨hreq, hask⟩ := hdisplaced c hres
        simp [hreq, hask]
    | steal =>
      simp only [Candidacy.react, hk, Candidacy.tenureEnded]
      split
      · simp
      · obtain ⟨hreq, hask⟩ := hdisplaced { c with stealing := false } hres
        simp [hreq, hask]

/-- A candidacy that has resigned does nothing its host asks. -/
theorem hostCalls_resigned (hres : c.resigned = true) (calls : List HostCall) : c.hostCalls calls = (c, []) := by
  induction calls with
  | nil => rfl
  | cons call calls ih =>
    have hcall : c.hostCall call = (c, []) := by
      cases call with
      | takeFromBackgroundedLeader => simp [Candidacy.hostCall, Candidacy.takeFromBackgroundedLeader, hres]
      | resign => simp [Candidacy.hostCall, Candidacy.resign, hres]
    simp [Candidacy.hostCalls, hcall, ih]

/-- Unless it resigns, all that a host does by calling its candidacy is one steal. -/
theorem hostCalls_live {calls : List HostCall} (hlive : (c.hostCalls calls).1.resigned = false) :
    c.hostCalls calls = (c, []) ∨
      ((c.resigned || c.holding || c.stealing) = false ∧ c.hostCalls calls = c.takeFromBackgroundedLeader) := by
  induction calls generalizing c with
  | nil => exact .inl rfl
  | cons call calls ih =>
    have hcons : c.hostCalls (call :: calls) = (((c.hostCall call).1.hostCalls calls).1,
        (c.hostCall call).2 ++ ((c.hostCall call).1.hostCalls calls).2) := rfl
    rw [hcons] at hlive ⊢
    cases call with
    | resign =>
      have hres : (c.hostCall .resign).1.resigned = true := by
        simp only [Candidacy.hostCall, Candidacy.resign]
        split
        · assumption
        · rfl
      rw [hostCalls_resigned hres, hres] at hlive
      simp at hlive
    | takeFromBackgroundedLeader =>
      cases hidle : c.resigned || c.holding || c.stealing with
      | true =>
        have hcall : c.hostCall .takeFromBackgroundedLeader = (c, []) := by
          simp [Candidacy.hostCall, Candidacy.takeFromBackgroundedLeader, hidle]
        rw [hcall] at hlive ⊢
        rcases ih hlive with h | ⟨h, -⟩
        · exact .inl (by simp [h])
        · simp [hidle] at h
      | false =>
        refine .inr ⟨rfl, ?_⟩
        have hcall : c.hostCall .takeFromBackgroundedLeader = c.takeFromBackgroundedLeader := rfl
        have hstealing : c.takeFromBackgroundedLeader.1.stealing = true := by
          simp [Candidacy.takeFromBackgroundedLeader, hidle]
        rw [hcall] at hlive ⊢
        rcases ih hlive with h | ⟨h, -⟩
        · simp [h]
        · simp [hstealing] at h

/-- A candidacy its host called inside `onDisplaced` has stolen, if it did anything. -/
theorem displaced_during (hres : c.resigned = false) (hstealing : c.stealing = false) {during : List HostCall}
    (hlive : (c.displaced during).1.resigned = false) : c.displaced during = c.displaced [] ∨
      c.displaced during = ({ c with
        stealing := true, holding := false, giveBack := none, events := .onDisplaced :: c.events,
        queued := some ⟨c.tab, c.requests + 1, .queue⟩, requests := c.requests + 2 },
        c.abortQueued ++ [.request ⟨c.tab, c.requests, .steal⟩, .request ⟨c.tab, c.requests + 1, .queue⟩]) := by
  have hqueue : ∀ a : Candidacy, a.queue.1.resigned = a.resigned := by
    intro a
    unfold Candidacy.queue
    split <;> rfl
  unfold Candidacy.displaced at hlive ⊢
  dsimp only at hlive ⊢
  rw [hqueue] at hlive
  rcases hostCalls_live hlive with h | ⟨-, h⟩
  · rw [h]
    exact .inl rfl
  · rw [h]
    refine .inr ?_
    simp [Candidacy.takeFromBackgroundedLeader, Candidacy.queue, Candidacy.abortQueued, hres, hstealing]

theorem tenureEnded_mine (hres : c.resigned = false) {r : LockRequest} (hm : r ∈ c.mine) {during : List HostCall} :
    c.tenureEnded r during = c.displaced during := by
  simp [Candidacy.tenureEnded, hm, hres]

/-- **What a callback comes to inside which the host calls its candidacy**, unless it resigns. -/
theorem react_during (hgood : c.Good) {cb : Callback} (hexpected : c.Expected cb) (hres : c.resigned = false)
    {during : List HostCall} (hlive : (c.react during cb).1.resigned = false) : c.react during cb = c.react [] cb ∨
      (c.holding = true ∧ (c.react [] cb).1 = { c with
        stealing := false, holding := false, giveBack := none, events := .onDisplaced :: c.events,
        queued := some ⟨c.tab, c.requests, .queue⟩, requests := c.requests + 1 } ∧
      c.react during cb = ({ c with
        stealing := true, holding := false, giveBack := none, events := .onDisplaced :: c.events,
        queued := some ⟨c.tab, c.requests + 1, .queue⟩, requests := c.requests + 2 },
        c.abortQueued ++ [.request ⟨c.tab, c.requests, .steal⟩, .request ⟨c.tab, c.requests + 1, .queue⟩])) := by
  have hcalm : c.holding = true → c.stealing = false := by
    intro hholding
    by_contra hst
    have hidle := hgood.stealing (by simpa using hst)
    simp [hholding] at hidle
  have hnone : ∀ a : Candidacy, a.resigned = false → a.displaced [] = ({ a with
      holding := false, giveBack := none, events := .onDisplaced :: a.events,
      queued := some ⟨a.tab, a.requests, .queue⟩, requests := a.requests + 1 },
      [.request ⟨a.tab, a.requests, .queue⟩]) := by
    intro a ha
    simp [Candidacy.displaced, Candidacy.hostCalls, Candidacy.queue, ha]
  cases cb with
  | granted r => exact .inl rfl
  | unavailable r => exact .inl rfl
  | resolved r => exact .inl rfl
  | rejected r =>
    obtain ⟨hfirst, hqueue, hsteal⟩ := hexpected
    cases hk : r.kind with
    | first =>
      simp only [Candidacy.react, hk] at hlive ⊢
      by_cases hheld : (c.holding && !c.resigned) = true
      · rw [if_pos hheld] at hlive
        rw [if_pos hheld, if_pos hheld]
        have hholding : c.holding = true := by simpa [hres] using hheld
        have hst := hcalm hholding
        rcases displaced_during hres hst hlive with h | h
        · exact .inl h
        · refine .inr ⟨hholding, ?_, h⟩
          rw [hnone c hres, hst]
      · rw [if_neg hheld, if_neg hheld]
        exact .inl rfl
    | queue =>
      simp only [Candidacy.react, hk] at hlive ⊢
      by_cases hm : r ∈ c.mine
      · have hholding := holding_of_giveBack hgood (hqueue hk hm)
        have hst := hcalm hholding
        rw [tenureEnded_mine hres hm] at hlive
        rw [tenureEnded_mine hres hm, tenureEnded_mine hres hm]
        rcases displaced_during hres hst hlive with h | h
        · exact .inl h
        · refine .inr ⟨hholding, ?_, h⟩
          rw [hnone c hres, hst]
      · simp [Candidacy.tenureEnded, hm]
    | steal =>
      simp only [Candidacy.react, hk] at hlive ⊢
      by_cases hm : r ∈ c.mine
      · have hholding : c.holding = true := by
          rcases hsteal hk with hgive | ⟨-, hnot⟩
          · exact holding_of_giveBack hgood hgive
          · exact absurd hm hnot
        have hended : ∀ d, ({ c with stealing := false } : Candidacy).tenureEnded r d =
            ({ c with stealing := false } : Candidacy).displaced d := fun d =>
          tenureEnded_mine (c := { c with stealing := false }) hres hm
        rw [hended] at hlive
        rw [hended, hended]
        rcases displaced_during (c := { c with stealing := false }) hres rfl hlive with h | h
        · exact .inl h
        · refine .inr ⟨hholding, ?_, h⟩
          rw [hnone { c with stealing := false } hres]
      · simp [Candidacy.tenureEnded, hm]

/-- A candidacy leaves the queue to steal, `base` being what it was otherwise. -/
theorem Wire.steals (ran : List Callback) (base : Candidacy) {c' : Candidacy} {more : List Ask}
    (hw : Wire held line c (ran ++ callbacks) asks) (hs : Settles refuses held line c (base.settle callbacks) asks)
    (hbase : base.Coherent callbacks) (hcalm : base.Calm c.mine) (hsteals : c'.Steals (c.requests + 1) c.mine)
    (hgood : c'.Good) (htab : c'.tab = c.tab) (htab' : base.tab = c.tab)
    (hmore : requestsOf more = [⟨c.tab, c.requests, .steal⟩] ∧ c'.requests = c.requests + 1 ∨
      requestsOf more = [⟨c.tab, c.requests, .steal⟩, ⟨c.tab, c.requests + 1, .queue⟩] ∧ c'.requests = c.requests + 2)
    (hrelease : ∀ x, .release x ∉ more) (habort : ∀ x, .abort x ∈ more → x.number + 1 < c'.requests)
    (hanswered : c.atOnce ≠ none) :
    Wire held line c' callbacks (asks ++ more) ∧ Settles refuses held line c' (c'.settle callbacks) (asks ++ more) := by
  have hnumbers : ∀ r, .granted r ∈ callbacks → r.number < c.requests + 1 := by
    intro r hr
    have hopen : r ∈ opened line (ran ++ callbacks) asks := by simp [opened, mem_grantsOf.2 hr]
    have hlt := (hw.numbered r hopen).2.1
    omega
  obtain ⟨hcoherent, hsteals', hcalm'⟩ := hsteals.settle hcalm (htab.trans htab'.symm) hbase hnumbers
  refine ⟨hw.moved ran hcoherent htab ?_ ?_ ?_ ?_ (fun x hx => absurd hx (hrelease x)) habort fun _ => hanswered,
    hs.stolen hcalm' hsteals' (hgood.settle hcoherent) htab hmore rfl⟩
  · rcases hmore with ⟨-, h⟩ | ⟨-, h⟩ <;> omega
  · intro x hx
    rw [hsteals.mine] at hx
    exact .inl hx
  · intro x hx
    rcases hmore with ⟨hm, h⟩ | ⟨hm, h⟩
    · obtain rfl : x = _ := by simpa [hm] using hx
      simp [h]
    · rcases (show x = _ ∨ x = _ by simpa [hm] using hx) with rfl | rfl <;> simp [h]
  · rcases hmore with ⟨hm, -⟩ | ⟨hm, -⟩ <;> simp [hm]

/-- A callback whose request has the lock keeps it, or gives it back. -/
theorem kept_of_granted (r : LockRequest) (during : List HostCall) :
    (c.react during (.granted r)).1.giveBack = some r ∨ .release r ∈ (c.react during (.granted r)).2 := by
  unfold Candidacy.react
  dsimp only
  split <;> split <;> simp [Candidacy.hold, Candidacy.takeOver, Candidacy.answer]

theorem resigned_react (hres : c.resigned = true) (during : List HostCall) (cb : Callback) :
    (c.react during cb).1.resigned = true := by
  have hqueue : c.queue.1.resigned = true := by
    unfold Candidacy.queue
    split <;> exact hres
  have hended : ∀ a : Candidacy, a.resigned = true → ∀ r, (a.tenureEnded r during).1 = a := by
    intro a ha r
    simp [Candidacy.tenureEnded, ha]
  cases cb with
  | granted r => cases hk : r.kind <;> simp [Candidacy.react, hk, hres, Candidacy.answer]
  | unavailable r => simpa [Candidacy.react, Candidacy.answer] using hres
  | resolved r =>
    unfold Candidacy.react
    dsimp only
    split
    · exact hqueue
    · exact hres
  | rejected r =>
    cases hk : r.kind with
    | first => simp [Candidacy.react, hk, hres, Candidacy.answer]
    | queue =>
      simp only [Candidacy.react, hk]
      rw [hended c hres]
      exact hres
    | steal =>
      simp only [Candidacy.react, hk]
      rw [hended { c with stealing := false } hres]
      exact hres

/-- A candidacy that has the lock keeps its place, unless its tenure is the one that ended. -/
theorem giveBack_react (hgood : c.Good) {cb : Callback} (hexpected : c.Expected cb)
    {r : LockRequest} (hgive : c.giveBack = some r) (hlost : cb ≠ .rejected r) (during : List HostCall) :
    (c.react during cb).1.giveBack = some r := by
  have hholding := holding_of_giveBack hgood hgive
  have hqueue : c.queue.1.giveBack = c.giveBack := by
    unfold Candidacy.queue
    split <;> rfl
  cases cb with
  | granted x =>
    obtain ⟨-, -, hfirst, hsteal, hqueued⟩ := hexpected
    cases hk : x.kind with
    | first =>
      have hidle := (hgood.unanswered (hfirst hk)).1
      simp [hholding] at hidle
    | queue =>
      by_cases hq : c.queued = some x
      · have hidle := (hqueued hk hq).1
        simp [hholding] at hidle
      · rw [Candidacy.react_granted_left during hk hq]
        exact hgive
    | steal =>
      have hidle := hgood.stealing (hsteal hk)
      simp [hholding] at hidle
  | unavailable x => exact hgive
  | resolved x =>
    unfold Candidacy.react
    dsimp only
    split
    · exact hqueue.trans hgive
    · exact hgive
  | rejected x =>
    have hne : c.giveBack ≠ some x := by
      intro h
      exact hlost (congrArg Callback.rejected (Option.some.inj (h.symm.trans hgive)))
    obtain ⟨hfirst, hqueued, hsteal⟩ := hexpected
    cases hk : x.kind with
    | first => exact absurd (hfirst hk hholding) hne
    | queue =>
      have hm : x ∉ c.mine := fun hm => hne (hqueued hk hm)
      simpa [Candidacy.react, hk, Candidacy.tenureEnded, hm] using hgive
    | steal =>
      have hm : x ∉ c.mine := (hsteal hk).elim (fun h => absurd h hne) (·.2)
      simpa [Candidacy.react, hk, Candidacy.tenureEnded, hm] using hgive

/-- **A callback runs.** -/
theorem Place.deliver {cb : Callback} (hp : Place refuses held line c (cb :: callbacks) asks) (during : List HostCall) :
    Place refuses held line (c.react during cb).1 callbacks (asks ++ (c.react during cb).2) := by
  have hmoved : (c.react during cb).1.resigned = false →
      Wire held line (c.react during cb).1 callbacks (asks ++ (c.react during cb).2) ∧
      Settles refuses held line (c.react during cb).1 ((c.react during cb).1.settle callbacks)
        (asks ++ (c.react during cb).2) := by
    intro hlive
    have hres : c.resigned = false := by
      by_contra h
      have hgone := resigned_react (c := c) (by simpa using h) during cb
      simp [hlive] at hgone
    have hw := hp.wire hres
    have hs := hp.settles hres
    obtain ⟨htab, hresigned, hle, -, -⟩ := c.react_fields cb
    have hgood := hp.good.react hw.coherent.1 []
    rcases react_during hp.good (hw.coherent.1 hres) hres hlive with h | ⟨hholding, hbase, h⟩
    · rw [h]
      obtain ⟨hmore, hrelease, habort⟩ := asks_of_react hres cb
      refine ⟨Wire.moved [cb] hw hw.coherent.2 htab hle (fun x hx => ?_) (fun x hx => ?_) ?_ (fun x hx => ?_)
        (fun x hx => absurd hx (habort x)) (by simp), hs.moved (hgood.settle hw.coherent.2) ?_ hmore⟩
      · rcases mine_react hx with hx | hx
        · exact .inl hx
        · exact .inr (by simp [hx])
      · rcases hmore with ⟨-, hm⟩ | ⟨hreq, hm⟩
        · simp [hm] at hx
        · obtain rfl : x = _ := by simpa [hm] using hx
          simp [hreq]
      · rcases hmore with ⟨-, hm⟩ | ⟨-, hm⟩ <;> simp [hm]
      · obtain ⟨hk, rfl, hsame⟩ := hrelease x hx
        rw [hsame]
        exact ⟨hk, by simp, (hw.numbered x (by simp [opened])).2.2⟩
      · exact ((c.react [] cb).1.settle_fields callbacks).1.trans htab
    · have hanswered : c.atOnce ≠ none := by
        intro hnone
        have hidle := (hp.good.unanswered hnone).1
        simp [hholding] at hidle
      have hgood' := hp.good.react hw.coherent.1 during
      rw [h] at hgood'
      rw [h]
      refine Wire.steals [cb] (c.react [] cb).1 hw hs hw.coherent.2 ?_ ?_ hgood' rfl htab (.inr ⟨?_, rfl⟩) ?_ ?_ hanswered
      · rw [hbase]
        exact ⟨rfl, hres, hanswered, rfl, by simp, List.Subset.refl _⟩
      · exact ⟨rfl, hres, hanswered, rfl, rfl, rfl, by simp, by simp, by simp⟩
      · cases hq : c.queued <;> simp [Candidacy.abortQueued, hq]
      · intro x
        cases hq : c.queued <;> simp [Candidacy.abortQueued, hq]
      · intro x hx
        cases hq : c.queued with
        | none => simp [Candidacy.abortQueued, hq] at hx
        | some q =>
          obtain rfl : x = q := by simpa [Candidacy.abortQueued, hq] using hx
          have hlast := (hp.good.queued x hq).2.2
          dsimp only
          omega
  refine ⟨hp.good.react (fun hres => (hp.wire hres).coherent.1 hres) during, fun x hx => ?_, fun hlive => (hmoved hlive).1,
    fun hlive => (hmoved hlive).2⟩
  rcases hp.owner x hx with hgive | hgrant | hrelease
  · have hres : c.resigned = false := by
      by_contra h
      have hidle := hp.good.resigned (by simpa using h)
      rw [holding_of_giveBack hp.good hgive] at hidle
      simp at hidle
    have hw := hp.wire hres
    refine .inl (giveBack_react hp.good (hw.coherent.1 hres) hgive ?_ during)
    rintro rfl
    exact hw.lost x (by simp) hx
  · rcases List.mem_cons.1 hgrant with rfl | hgrant
    · rcases kept_of_granted x during with h | h
      · exact .inl h
      · exact .inr (.inr (List.mem_append_right _ h))
    · exact .inr (.inl hgrant)
  · exact .inr (.inr (List.mem_append_left _ hrelease))

/-- **The host calls its candidacy.** -/
theorem Place.hostCall (hp : Place refuses held line c callbacks asks) (call : HostCall)
    (hanswered : call = .takeFromBackgroundedLeader → c.atOnce ≠ none) :
    Place refuses held line (c.hostCall call).1 callbacks (asks ++ (c.hostCall call).2) := by
  cases call with
  | resign =>
    simp only [Candidacy.hostCall]
    cases hres : c.resigned with
    | true =>
      have hsame : c.resign = (c, []) := by simp [Candidacy.resign, hres]
      rw [hsame, List.append_nil]
      exact hp
    | false =>
      have hgone : c.resign.1.resigned = true := by simp [Candidacy.resign, hres, Candidacy.answer]
      refine ⟨hp.good.resign, fun x hx => ?_, fun h => ?_, fun h => ?_⟩
      · rcases hp.owner x hx with h | h | h
        · exact .inr (.inr (by simp [Candidacy.resign, hres, h]))
        · exact .inr (.inl h)
        · exact .inr (.inr (List.mem_append_left _ h))
      · simp [hgone] at h
      · simp [hgone] at h
  | takeFromBackgroundedLeader =>
    simp only [Candidacy.hostCall]
    cases hidle : c.resigned || c.holding || c.stealing with
    | true =>
      have hsame : c.takeFromBackgroundedLeader = (c, []) := by simp [Candidacy.takeFromBackgroundedLeader, hidle]
      rw [hsame, List.append_nil]
      exact hp
    | false =>
      obtain ⟨⟨hres, hholding⟩, hstealing⟩ : (c.resigned = false ∧ c.holding = false) ∧ c.stealing = false := by
        simpa using hidle
      have hat := hanswered rfl
      have hw := hp.wire hres
      have hs := hp.settles hres
      have hgive := giveBack_of_idle hp.good hholding
      have hgood := hp.good.takeFromBackgroundedLeader hat
      have htaken : c.takeFromBackgroundedLeader = ({ c with
          stealing := true, queued := none, requests := c.requests + 1 },
          c.abortQueued ++ [.request ⟨c.tab, c.requests, .steal⟩]) := by
        simp [Candidacy.takeFromBackgroundedLeader, hidle]
      rw [htaken] at hgood ⊢
      have hrequests : requestsOf (c.abortQueued ++ [.request ⟨c.tab, c.requests, .steal⟩]) =
          [⟨c.tab, c.requests, .steal⟩] := by
        cases hq : c.queued <;> simp [Candidacy.abortQueued, hq]
      have hrelease : ∀ x, .release x ∉ c.abortQueued ++ [.request ⟨c.tab, c.requests, .steal⟩] := by
        intro x
        cases hq : c.queued <;> simp [Candidacy.abortQueued, hq]
      have habort : ∀ x, .abort x ∈ c.abortQueued ++ [.request ⟨c.tab, c.requests, .steal⟩] →
          x.number + 1 < c.requests + 1 := by
        intro x hx
        cases hq : c.queued with
        | none => simp [Candidacy.abortQueued, hq] at hx
        | some q =>
          obtain rfl : x = q := by simpa [Candidacy.abortQueued, hq] using hx
          have hlast := (hp.good.queued x hq).2.2
          omega
      have hcalm : c.Calm c.mine := ⟨hstealing, hres, hat, hp.good.seated, by simp [hgive], List.Subset.refl _⟩
      have hsteals : Candidacy.Steals (c.requests + 1) c.mine { c with
          stealing := true, queued := none, requests := c.requests + 1 } :=
        ⟨rfl, hres, hat, hholding, hgive, rfl, by simp, by simp, by simp⟩
      obtain ⟨hwire, hsettles⟩ := Wire.steals [] c hw hs hw.coherent hcalm hsteals hgood rfl rfl (.inl ⟨hrequests, rfl⟩)
        hrelease habort hat
      refine ⟨hgood, fun x hx => ?_, fun _ => hwire, fun _ => hsettles⟩
      rcases hp.owner x hx with h | h | h
      · simp [hgive] at h
      · exact .inr (.inl h)
      · exact .inr (.inr (List.mem_append_left _ h))

/-- A tab that stands has its place. -/
theorem Place.stand (refuses : ℕ → Bool) (tab : ℕ) :
    Place refuses none [] (Candidacy.stand tab).1 [] (Candidacy.stand tab).2 := by
  refine ⟨⟨rfl, by simp [Candidacy.stand], by simp [Candidacy.stand], by simp [Candidacy.stand], by simp [Candidacy.stand],
    by simp [Candidacy.stand], List.isChain_nil, by simp [Candidacy.stand]⟩, by simp, fun _ => ?_, fun _ => ?_⟩
  · refine ⟨trivial, by simp [opened, Candidacy.stand], ?_, ?_, by simp, by simp, by simp [Candidacy.stand], ?_, by simp,
      by simp [Candidacy.stand], by simp [Candidacy.stand], ?_⟩
    · simp [opened, Candidacy.stand]
    · simp [Candidacy.stand]
    · simp [Closed, Candidacy.stand]
    · simp [Candidacy.stand]
  · refine ⟨by simp, by simp [Candidacy.stand], by simp [Candidacy.stand, Candidacy.settle], by simp [Candidacy.stand],
      by simp [Candidacy.stand, Candidacy.settle], by simp, by simp [Candidacy.stand, Candidacy.settle], fun _ _ => ?_⟩
    exact ⟨0, rfl, .inl ⟨⟨tab, 0, .first⟩, by simp [Candidacy.stand], rfl, by simp⟩⟩

end Election

end Etherfold
