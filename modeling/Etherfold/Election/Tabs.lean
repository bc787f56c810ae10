import Etherfold.Election.Place

/-!
# The tabs of one election

Any number of tabs stand for one lock. The browser grants it to one request at a time, in the
order of the queue, and may refuse a request outright; a tab runs its callbacks and is closed at
any moment.

* `Tabs.step`: a tab stands, is called, runs a callback or dies, or the browser sees what it asked.
* `Placed.step`: **every step keeps every candidacy in its place**.
* `candidacy_stands_iff`: **where a candidacy stands in every run**, and when it drops out.
-/

namespace Etherfold

namespace Election

/-- The request an ask is about. -/
def Ask.of : Ask → LockRequest
  | .request r => r
  | .abort r => r
  | .release r => r

/-- The lock, and what is on its way between the browser and each tab. -/
structure Tabs where
  holder : Option LockRequest
  line : List LockRequest
  candidacy : ℕ → Option Candidacy
  callbacks : ℕ → List Callback
  asks : ℕ → List Ask

/-- What happens. What a tab asked is seen in the order it asked. -/
inductive TabEvent where
  | stand (tab : ℕ)
  | call (tab : ℕ) (call : HostCall)
  /-- a callback runs, and inside `onDisplaced` the host calls its candidacy -/
  | callback (tab : ℕ) (during : List HostCall)
  | seen (tab : ℕ)
  | close (tab : ℕ)
  deriving DecidableEq, Repr

namespace Tabs

/-- No tab stands. -/
def vacant : Tabs := ⟨none, [], fun _ => none, fun _ => [], fun _ => []⟩

/-- The browser has a tab run callbacks. -/
def push (w : Tabs) (tab : ℕ) (callbacks : List Callback) : Tabs :=
  { w with callbacks := Function.update w.callbacks tab (w.callbacks tab ++ callbacks) }

def grant (w : Tabs) (request : LockRequest) : Tabs :=
  { w with holder := some request }.push request.tab [.granted request]

/-- A free lock goes to the first request that queues. -/
def serve (w : Tabs) : Tabs :=
  match w.holder, w.line with
  | none, request :: line => { w with line := line }.grant request
  | _, _ => w

/-- A steal rejects the promise of the request that has the lock. -/
def evict (w : Tabs) : Tabs :=
  match w.holder with
  | some held => { w with holder := none }.push held.tab [.rejected held]
  | none => w

/-- What the browser does of what a tab asked. -/
def perform (refuses : ℕ → ℕ → Bool) (w : Tabs) : Ask → Tabs
  | .request request =>
    if refuses request.tab request.number then w.push request.tab [.rejected request]
    else
      match request.kind with
      | .first =>
        if w.holder = none ∧ w.line = [] then w.grant request
        else w.push request.tab [.unavailable request, .resolved request]
      | .queue => { w with line := w.line ++ [request] }.serve
      | .steal => w.evict.grant request
  | .abort request =>
    -- too late for one that is not in the queue
    if request ∈ w.line then { w with line := w.line.erase request }.push request.tab [.rejected request] else w
  | .release request =>
    if w.holder = some request then ({ w with holder := none }.push request.tab [.resolved request]).serve else w

/-- A candidacy moves, and asks. -/
def move (w : Tabs) (tab : ℕ) (moved : Candidacy × List Ask) : Tabs :=
  { w with
    candidacy := Function.update w.candidacy tab (some moved.1)
    asks := Function.update w.asks tab (w.asks tab ++ moved.2) }

/-- A tab dies, and all it asked with it. -/
def close (w : Tabs) (tab : ℕ) : Tabs :=
  { holder := w.holder.filter (·.tab ≠ tab)
    line := w.line.filter (·.tab ≠ tab)
    candidacy := Function.update w.candidacy tab none
    callbacks := Function.update w.callbacks tab []
    asks := Function.update w.asks tab [] }

/-- One step; `none` where it cannot happen. A host steals only after `atOnce` answered. -/
def step (refuses : ℕ → ℕ → Bool) (w : Tabs) : TabEvent → Option Tabs
  | .stand tab =>
    match w.candidacy tab with
    | none => some (w.move tab (Candidacy.stand tab))
    | some _ => none
  | .call tab call =>
    match w.candidacy tab with
    | none => none
    | some c =>
      if call = .takeFromBackgroundedLeader ∧ c.atOnce = none then none else some (w.move tab (c.hostCall call))
  | .callback tab during =>
    match w.candidacy tab, w.callbacks tab with
    | some c, cb :: callbacks =>
      some ({ w with callbacks := Function.update w.callbacks tab callbacks }.move tab (c.react during cb))
    | _, _ => none
  | .seen tab =>
    match w.asks tab with
    | [] => none
    | ask :: asks => some ({ w with asks := Function.update w.asks tab asks }.perform refuses ask)
  | .close tab =>
    match w.candidacy tab with
    | none => none
    | some _ => some (w.close tab).serve

def run (refuses : ℕ → ℕ → Bool) (w : Tabs) (events : List TabEvent) : Option Tabs := events.foldlM (step refuses) w

/-- The request of a tab that has the lock. -/
def holderOf (w : Tabs) (tab : ℕ) : Option LockRequest := w.holder.filter (·.tab = tab)

/-- The requests of a tab that queue. -/
def lineOf (w : Tabs) (tab : ℕ) : List LockRequest := w.line.filter (·.tab = tab)

/-- What holds of one tab. -/
structure PlacedAt (refuses : ℕ → ℕ → Bool) (w : Tabs) (tab : ℕ) : Prop where
  callbacks : ∀ r, .granted r ∈ w.callbacks tab → r.tab = tab
  asks : ∀ ask ∈ w.asks tab, ask.of.tab = tab
  stands : ∀ c, w.candidacy tab = some c → c.tab = tab ∧
    Place (refuses tab) (w.holderOf tab) (w.lineOf tab) c (w.callbacks tab) (w.asks tab)
  gone : w.candidacy tab = none → w.holderOf tab = none ∧ w.lineOf tab = [] ∧ w.callbacks tab = [] ∧ w.asks tab = []

/-- **Every candidacy is in its place.** -/
def Placed (refuses : ℕ → ℕ → Bool) (w : Tabs) : Prop := ∀ tab, w.PlacedAt refuses tab

variable {refuses : ℕ → ℕ → Bool} {w w' : Tabs}

/-! ### One tab -/

/-- What a step does not touch stays in its place. -/
theorem PlacedAt.congr {t : ℕ} (h : w.PlacedAt refuses t) (hcandidacy : w'.candidacy t = w.candidacy t)
    (hholder : w'.holderOf t = w.holderOf t) (hline : w'.lineOf t = w.lineOf t)
    (hcallbacks : w'.callbacks t = w.callbacks t) (hasks : w'.asks t = w.asks t) : w'.PlacedAt refuses t := by
  refine ⟨fun r hr => h.callbacks r (hcallbacks ▸ hr), fun ask hask => h.asks ask (hasks ▸ hask), fun c hc => ?_, fun hc => ?_⟩
  · rw [hholder, hline, hcallbacks, hasks]
    exact h.stands c (hcandidacy ▸ hc)
  · rw [hholder, hline, hcallbacks, hasks]
    exact h.gone (hcandidacy ▸ hc)

theorem holderOf_some {r : LockRequest} (h : w.holder = some r) : w.holderOf r.tab = some r := by
  simp [holderOf, h]

theorem holderOf_none (h : w.holder = none) (t : ℕ) : w.holderOf t = none := by
  simp [holderOf, h]

theorem holderOf_other {r : LockRequest} (h : w.holder = some r) {t : ℕ} (ht : t ≠ r.tab) : w.holderOf t = none := by
  simp [holderOf, h, Ne.symm ht]

theorem mem_lineOf {r : LockRequest} : r ∈ w.lineOf r.tab ↔ r ∈ w.line := by
  simp [lineOf]

@[simp] theorem callbacks_push (t : ℕ) (callbacks : List Callback) :
    (w.push t callbacks).callbacks t = w.callbacks t ++ callbacks :=
  Function.update_self ..

theorem callbacks_push_other {t t' : ℕ} (h : t' ≠ t) (callbacks : List Callback) :
    (w.push t callbacks).callbacks t' = w.callbacks t' :=
  Function.update_of_ne h ..

/-- A tab with something of it in the browser has a candidacy. -/
theorem PlacedAt.live {t : ℕ} (h : w.PlacedAt refuses t)
    (hthere : w.holderOf t ≠ none ∨ w.lineOf t ≠ [] ∨ w.callbacks t ≠ [] ∨ w.asks t ≠ []) :
    ∃ c, w.candidacy t = some c := by
  cases hc : w.candidacy t with
  | some c => exact ⟨c, rfl⟩
  | none =>
    obtain ⟨hholder, hline, hcallbacks, hasks⟩ := h.gone hc
    simp [hholder, hline, hcallbacks, hasks] at hthere

/-- **A step that concerns one tab**: it has a candidacy, which is in its place afterwards. -/
theorem Placed.at_tab (h : w.Placed refuses) {t : ℕ} {c : Candidacy} (hcandidacy : w'.candidacy t = some c)
    (htab : c.tab = t)
    (hother : ∀ t' ≠ t, w'.candidacy t' = w.candidacy t' ∧ w'.holderOf t' = w.holderOf t' ∧ w'.lineOf t' = w.lineOf t' ∧
      w'.callbacks t' = w.callbacks t' ∧ w'.asks t' = w.asks t')
    (hcallbacks : ∀ r, .granted r ∈ w'.callbacks t → r.tab = t) (hasks : ∀ ask ∈ w'.asks t, ask.of.tab = t)
    (hplace : Place (refuses t) (w'.holderOf t) (w'.lineOf t) c (w'.callbacks t) (w'.asks t)) : w'.Placed refuses := by
  intro t'
  by_cases ht : t' = t
  · subst ht
    refine ⟨hcallbacks, hasks, fun c' hc' => ?_, fun hnone => ?_⟩
    · obtain rfl := Option.some.inj (hcandidacy.symm.trans hc')
      exact ⟨htab, hplace⟩
    · simp [hcandidacy] at hnone
  · obtain ⟨h1, h2, h3, h4, h5⟩ := hother t' ht
    exact (h t').congr h1 h2 h3 h4 h5

/-! ### What the browser does -/

/-- **A free lock is given to who waits.** -/
theorem Placed.serve (h : w.Placed refuses) : w.serve.Placed refuses := by
  unfold Tabs.serve
  split
  · rename_i r line hholder hline
    have hown : w.lineOf r.tab = r :: line.filter (·.tab = r.tab) := by simp [lineOf, hline]
    obtain ⟨c, hc⟩ := (h r.tab).live (.inr (.inl (by simp [hown])))
    obtain ⟨htab, hplace⟩ := (h r.tab).stands c hc
    rw [holderOf_none hholder, hown] at hplace
    refine h.at_tab hc htab (fun t' ht => ⟨rfl, ?_, ?_, callbacks_push_other ht _, rfl⟩) (fun x hx => ?_) (h r.tab).asks ?_
    · rw [holderOf_none hholder]
      exact holderOf_other rfl ht
    · simp [lineOf, grant, push, hline, Ne.symm ht]
    · rcases List.mem_append.1 ((callbacks_push (w := { w with holder := some r, line := line }) r.tab _) ▸ hx) with hx | hx
      · exact (h r.tab).callbacks x hx
      · obtain rfl : x = r := by simpa using hx
        rfl
    · have hgrant := hplace.grant
      rw [holderOf_some rfl]
      simpa [grant, push, lineOf] using hgrant
  · exact h

/-- The browser has seen what a tab asked. -/
theorem Placed.seen (h : w.Placed refuses) {t : ℕ} {ask : Ask} {asks : List Ask} (hask : w.asks t = ask :: asks)
    (callbacks : List Callback) (hcandidacy : w'.candidacy = w.candidacy) (hasks : w'.asks = Function.update w.asks t asks)
    (hcallbacks : w'.callbacks = Function.update w.callbacks t (w.callbacks t ++ callbacks))
    (hgranted : ∀ r, .granted r ∈ callbacks → r.tab = t)
    (hother : ∀ t' ≠ t, w'.holderOf t' = w.holderOf t' ∧ w'.lineOf t' = w.lineOf t')
    (hplace : ∀ c, Place (refuses t) (w.holderOf t) (w.lineOf t) c (w.callbacks t) (ask :: asks) →
      Place (refuses t) (w'.holderOf t) (w'.lineOf t) c (w.callbacks t ++ callbacks) asks) : w'.Placed refuses := by
  obtain ⟨c, hc⟩ := (h t).live (.inr (.inr (.inr (by simp [hask]))))
  obtain ⟨htab, hwas⟩ := (h t).stands c hc
  rw [hask] at hwas
  have hself : w'.asks t = asks := by simp [hasks]
  have hself' : w'.callbacks t = w.callbacks t ++ callbacks := by simp [hcallbacks]
  refine h.at_tab (hcandidacy ▸ hc) htab (fun t' ht => ⟨by rw [hcandidacy], (hother t' ht).1, (hother t' ht).2, ?_, ?_⟩)
    (fun r hr => ?_) (fun x hx => ?_) ?_
  · rw [hcallbacks, Function.update_of_ne ht]
  · rw [hasks, Function.update_of_ne ht]
  · rw [hself'] at hr
    rcases List.mem_append.1 hr with hr | hr
    · exact (h t).callbacks r hr
    · exact hgranted r hr
  · rw [hself] at hx
    exact (h t).asks x (by simp [hask, hx])
  · rw [hself, hself']
    exact hplace c hwas

/-- **The lock is taken from who has it.** -/
theorem Placed.evict (h : w.Placed refuses) : w.evict.Placed refuses := by
  unfold Tabs.evict
  split
  · rename_i held hheld
    obtain ⟨c, hc⟩ := (h held.tab).live (.inl (by simp [holderOf_some hheld]))
    obtain ⟨htab, hplace⟩ := (h held.tab).stands c hc
    rw [holderOf_some hheld] at hplace
    refine h.at_tab hc htab (fun t' ht => ⟨rfl, ?_, rfl, callbacks_push_other ht _, rfl⟩) (fun x hx => ?_) (h held.tab).asks ?_
    · rw [holderOf_other hheld ht]
      exact holderOf_none rfl t'
    · rcases List.mem_append.1 ((callbacks_push (w := { w with holder := none }) held.tab _) ▸ hx) with hx | hx
      · exact (h held.tab).callbacks x hx
      · simp at hx
    · have hlose := hplace.lose
      rw [holderOf_none rfl, callbacks_push]
      exact hlose
  · exact h

theorem holder_evict : w.evict.holder = none := by
  unfold Tabs.evict
  split
  · rfl
  · assumption

/-- **A request gets the lock without queueing.** -/
theorem Placed.given (h : w.Placed refuses) (hfree : w.holder = none) {r : LockRequest} {asks : List Ask}
    (hask : w.asks r.tab = .request r :: asks) (hkind : r.kind ≠ .queue) :
    ({ w with asks := Function.update w.asks r.tab asks }.grant r).Placed refuses := by
  refine h.seen hask [.granted r] rfl rfl rfl (fun x hx => ?_) (fun t' ht => ⟨?_, rfl⟩) fun c hplace => ?_
  · obtain rfl : x = r := by simpa using hx
    rfl
  · rw [holderOf_none hfree]
    exact holderOf_other rfl ht
  · rw [holderOf_none hfree] at hplace
    rw [holderOf_some rfl]
    exact hplace.given hkind

/-- **What a tab asked is seen.** -/
theorem Placed.perform (h : w.Placed refuses) {t : ℕ} {ask : Ask} {asks : List Ask} (hask : w.asks t = ask :: asks) :
    ({ w with asks := Function.update w.asks t asks }.perform refuses ask).Placed refuses := by
  have htab := (h t).asks ask (by simp [hask])
  cases ask with
  | request r =>
    obtain rfl : r.tab = t := htab
    unfold Tabs.perform
    dsimp only
    split
    · rename_i hrefused
      exact h.seen hask [.rejected r] rfl rfl rfl (by simp) (fun _ _ => ⟨rfl, rfl⟩) fun c hplace => hplace.refused hrefused
    · rename_i haccepted
      cases hk : r.kind with
      | first =>
        dsimp only
        split
        · rename_i hfree
          exact h.given hfree.1 hask (by simp [hk])
        · exact h.seen hask [.unavailable r, .resolved r] rfl rfl rfl (by simp) (fun _ _ => ⟨rfl, rfl⟩)
            fun c hplace => hplace.unavailable hk
      | queue =>
        dsimp only
        refine Placed.serve (h.seen hask [] rfl rfl ?_ (by simp) (fun t' ht => ⟨rfl, ?_⟩) fun c hplace => ?_)
        · simp
        · simp [lineOf, Ne.symm ht]
        · have hqueued := hplace.queued hk (by simpa using haccepted)
          simpa [lineOf, holderOf] using hqueued
      | steal =>
        dsimp only
        have hsame : ({ w with asks := Function.update w.asks r.tab asks } : Tabs).evict =
            { w.evict with asks := Function.update w.evict.asks r.tab asks } := by
          unfold Tabs.evict
          dsimp only
          split <;> simp [push]
        have hask' : w.evict.asks r.tab = .request r :: asks := by
          unfold Tabs.evict
          split
          · exact hask
          · exact hask
        rw [hsame]
        exact h.evict.given holder_evict hask' (by simp [hk])
  | abort r =>
    obtain rfl : r.tab = t := htab
    unfold Tabs.perform
    dsimp only
    split
    · rename_i hline
      refine h.seen hask [.rejected r] rfl rfl rfl (by simp) (fun t' ht => ⟨rfl, ?_⟩) fun c hplace => ?_
      · simp only [lineOf, push, ← List.erase_filter]
        refine List.erase_of_not_mem ?_
        simp [Ne.symm ht]
      · have habort := hplace.abort (mem_lineOf.2 hline)
        unfold Tabs.lineOf at habort
        rw [List.erase_filter] at habort
        exact habort
    · refine h.seen hask [] rfl rfl (by simp) (by simp) (fun _ _ => ⟨rfl, rfl⟩) fun c hplace => ?_
      rw [List.append_nil]
      exact hplace.abortMissed
  | release r =>
    obtain rfl : r.tab = t := htab
    unfold Tabs.perform
    dsimp only
    split
    · rename_i hheld
      refine Placed.serve (h.seen hask [.resolved r] rfl rfl rfl (by simp) (fun t' ht => ⟨?_, rfl⟩) fun c hplace => ?_)
      · rw [holderOf_other hheld ht]
        exact holderOf_none rfl t'
      · rw [holderOf_some hheld] at hplace
        rw [holderOf_none rfl]
        exact hplace.release
    · rename_i hheld
      refine h.seen hask [] rfl rfl (by simp) (by simp) (fun _ _ => ⟨rfl, rfl⟩) fun c hplace => ?_
      have hmissed : w.holderOf r.tab ≠ some r := by
        intro hown
        simp only [holderOf, Option.filter_eq_some_iff] at hown
        exact hheld hown.1
      rw [List.append_nil]
      exact hplace.releaseMissed hmissed

/-! ### What a tab does -/

/-- What a candidacy moved to and asks is of its tab. -/
structure OfTab (t : ℕ) (moved : Candidacy × List Ask) : Prop where
  tab : moved.1.tab = t
  queued : ∀ q, moved.1.queued = some q → q.tab = t
  giveBack : ∀ r, moved.1.giveBack = some r → r.tab = t
  asks : ∀ ask ∈ moved.2, ask.of.tab = t

variable {t : ℕ} {c : Candidacy}

theorem OfTab.queue (h : OfTab t (c, [])) : OfTab t c.queue := by
  unfold Candidacy.queue
  split
  · exact h
  · refine ⟨h.tab, fun q hq => ?_, h.giveBack, fun ask hask => ?_⟩
    · rw [← Option.some.inj hq]
      exact h.tab
    · rw [List.mem_singleton.1 hask]
      exact h.tab

theorem OfTab.abortQueued (h : OfTab t (c, [])) : ∀ ask ∈ c.abortQueued, ask.of.tab = t := by
  intro ask hask
  obtain ⟨q, hq, rfl⟩ := List.mem_map.1 hask
  exact h.queued q (Option.mem_toList.1 hq)

theorem OfTab.hostCall (h : OfTab t (c, [])) (call : HostCall) : OfTab t (c.hostCall call) := by
  cases call with
  | takeFromBackgroundedLeader =>
    unfold Candidacy.hostCall Candidacy.takeFromBackgroundedLeader
    dsimp only
    split
    · exact h
    · refine ⟨h.tab, by simp, h.giveBack, fun ask hask => ?_⟩
      rcases List.mem_append.1 hask with hask | hask
      · exact h.abortQueued ask hask
      · rw [List.mem_singleton.1 hask]
        exact h.tab
  | resign =>
    unfold Candidacy.hostCall Candidacy.resign
    dsimp only
    split
    · exact h
    · refine ⟨h.tab, by simp [Candidacy.answer], by simp [Candidacy.answer], fun ask hask => ?_⟩
      rcases List.mem_append.1 hask with hask | hask
      · exact h.abortQueued ask hask
      · obtain ⟨r, hr, rfl⟩ := List.mem_map.1 hask
        exact h.giveBack r (Option.mem_toList.1 hr)

/-- One move after another. -/
theorem OfTab.andThen {asks : List Ask} {moved : Candidacy × List Ask} (h : OfTab t (c, asks)) (hmoved : OfTab t moved) :
    OfTab t (moved.1, asks ++ moved.2) := by
  refine ⟨hmoved.tab, hmoved.queued, hmoved.giveBack, fun ask hask => ?_⟩
  rcases List.mem_append.1 hask with hask | hask
  · exact h.asks ask hask
  · exact hmoved.asks ask hask

theorem OfTab.still {asks : List Ask} (h : OfTab t (c, asks)) : OfTab t (c, []) :=
  ⟨h.tab, h.queued, h.giveBack, by simp⟩

theorem OfTab.hostCalls (h : OfTab t (c, [])) (calls : List HostCall) : OfTab t (c.hostCalls calls) := by
  induction calls generalizing c with
  | nil => exact h
  | cons call calls ih =>
    have hcall := h.hostCall call
    exact hcall.andThen (ih hcall.still)

theorem OfTab.displaced (h : OfTab t (c, [])) (during : List HostCall) : OfTab t (c.displaced during) := by
  have htold : OfTab t (({ c with holding := false, giveBack := none, events := .onDisplaced :: c.events } : Candidacy), []) :=
    ⟨h.tab, h.queued, by simp, by simp⟩
  have hcalls := htold.hostCalls during
  exact hcalls.andThen hcalls.still.queue

theorem OfTab.tenureEnded (h : OfTab t (c, [])) (r : LockRequest) (during : List HostCall) :
    OfTab t (c.tenureEnded r during) := by
  unfold Candidacy.tenureEnded
  split
  · exact h
  · exact h.displaced during

theorem OfTab.react (h : OfTab t (c, [])) {cb : Callback} (hgranted : ∀ r, cb = .granted r → r.tab = t)
    (during : List HostCall) : OfTab t (c.react during cb) := by
  cases cb with
  | granted r =>
    have hr := hgranted r rfl
    have hkept : ∀ x, some r = some x → x.tab = t := by
      rintro x hx
      rw [← Option.some.inj hx]
      exact hr
    have hrelease : ∀ ask ∈ [Ask.release r], ask.of.tab = t := by
      intro ask hask
      rw [List.mem_singleton.1 hask]
      exact hr
    unfold Candidacy.react
    dsimp only
    split
    · split
      · exact ⟨h.tab, h.queued, h.giveBack, hrelease⟩
      · exact ⟨h.tab, h.queued, hkept, by simp⟩
    · split
      · exact ⟨h.tab, h.queued, h.giveBack, hrelease⟩
      · exact ⟨h.tab, by simp [Candidacy.hold, Candidacy.takeOver], hkept, by simp⟩
    · split
      · exact ⟨h.tab, h.queued, h.giveBack, hrelease⟩
      · exact ⟨h.tab, h.queued, hkept, by simp⟩
  | unavailable r => exact ⟨h.tab, h.queued, h.giveBack, by simp [Candidacy.react]⟩
  | resolved r =>
    unfold Candidacy.react
    dsimp only
    split
    · exact h.queue
    · exact h
  | rejected r =>
    unfold Candidacy.react
    dsimp only
    split
    · split
      · exact h.displaced during
      · exact ⟨h.tab, h.queued, h.giveBack, by simp⟩
    · exact h.tenureEnded r during
    · exact OfTab.tenureEnded (c := { c with stealing := false }) ⟨h.tab, h.queued, h.giveBack, by simp⟩ r during

theorem ofTab_good (h : c.Good) : OfTab c.tab (c, []) :=
  ⟨rfl, fun q hq => (h.queued q hq).1, fun r hr => (h.seat r hr).1, by simp⟩

theorem holderOf_close {t' : ℕ} (ht : t' ≠ t) : (w.close t).holderOf t' = w.holderOf t' := by
  unfold close holderOf
  dsimp only
  cases w.holder with
  | none => rfl
  | some r =>
    by_cases hr : r.tab = t'
    · simp [Option.filter, hr, ht]
    · by_cases hr' : r.tab = t <;> simp [Option.filter, hr, hr', Ne.symm ht]

theorem lineOf_close {t' : ℕ} (ht : t' ≠ t) : (w.close t).lineOf t' = w.lineOf t' := by
  unfold close lineOf
  dsimp only
  rw [List.filter_filter]
  refine List.filter_congr fun r _ => ?_
  by_cases hr : r.tab = t'
  · simp [hr, ht]
  · simp [hr]

/-- **A tab dies.** -/
theorem Placed.close (h : w.Placed refuses) (t : ℕ) : (w.close t).Placed refuses := by
  intro t'
  by_cases ht : t' = t
  · subst ht
    refine ⟨by simp [Tabs.close], by simp [Tabs.close], by simp [Tabs.close], fun _ => ⟨?_, ?_, ?_, ?_⟩⟩
    · unfold Tabs.close holderOf
      cases hw : w.holder with
      | none => simp
      | some r => by_cases hr : r.tab = t' <;> simp [Option.filter, hr]
    · simp [Tabs.close, lineOf]
    · simp [Tabs.close]
    · simp [Tabs.close]
  · refine (h t').congr ?_ (holderOf_close ht) (lineOf_close ht) ?_ ?_
    · exact Function.update_of_ne ht ..
    · exact Function.update_of_ne ht ..
    · exact Function.update_of_ne ht ..

/-- A candidacy moves, after the callbacks it has run. -/
theorem Placed.move (h : w.Placed refuses) {callbacks : List Callback} {moved : Candidacy × List Ask}
    (hmoved : OfTab t moved) (hsub : callbacks ⊆ w.callbacks t)
    (hplace : Place (refuses t) (w.holderOf t) (w.lineOf t) moved.1 callbacks (w.asks t ++ moved.2)) :
    ({ w with callbacks := Function.update w.callbacks t callbacks }.move t moved).Placed refuses := by
  refine h.at_tab (Function.update_self ..) hmoved.tab (fun t' ht => ⟨?_, rfl, rfl, ?_, ?_⟩) (fun r hr => ?_)
    (fun ask hask => ?_) ?_
  · exact Function.update_of_ne ht ..
  · exact Function.update_of_ne ht ..
  · exact Function.update_of_ne ht ..
  · simp only [Tabs.move, Function.update_self] at hr
    exact (h t).callbacks r (hsub hr)
  · simp only [Tabs.move, Function.update_self] at hask
    rcases List.mem_append.1 hask with hask | hask
    · exact (h t).asks ask hask
    · exact hmoved.asks ask hask
  · simp only [Tabs.move, Function.update_self]
    exact hplace

/-- **Every step keeps every candidacy in its place.** -/
theorem Placed.step (h : w.Placed refuses) {event : TabEvent} (hstep : w.step refuses event = some w') :
    w'.Placed refuses := by
  have hsame : ∀ t, ({ w with callbacks := Function.update w.callbacks t (w.callbacks t) } : Tabs) = w := by
    intro t
    rw [Function.update_eq_self]
  cases event with
  | stand t =>
    simp only [Tabs.step] at hstep
    split at hstep
    · rename_i hnone
      obtain rfl := Option.some.inj hstep
      obtain ⟨hholder, hline, hcallbacks, hasks⟩ := (h t).gone hnone
      rw [← hsame t]
      refine h.move ⟨rfl, by simp [Candidacy.stand], by simp [Candidacy.stand], ?_⟩ (List.Subset.refl _) ?_
      · simp [Candidacy.stand, Ask.of]
      · rw [hholder, hline, hcallbacks, hasks]
        exact Place.stand (refuses t) t
    · simp at hstep
  | call t call =>
    simp only [Tabs.step] at hstep
    split at hstep
    · simp at hstep
    · rename_i c hc
      split at hstep
      · simp at hstep
      · rename_i hanswered
        obtain rfl := Option.some.inj hstep
        obtain ⟨htab, hplace⟩ := (h t).stands c hc
        rw [← hsame t]
        refine h.move (OfTab.hostCall (htab ▸ ofTab_good hplace.good) call) (List.Subset.refl _) (hplace.hostCall call ?_)
        intro hcall hat
        exact hanswered ⟨hcall, hat⟩
  | callback t during =>
    simp only [Tabs.step] at hstep
    split at hstep
    · rename_i c cb callbacks hc hcb
      obtain rfl := Option.some.inj hstep
      obtain ⟨htab, hplace⟩ := (h t).stands c hc
      rw [hcb] at hplace
      refine h.move (OfTab.react (htab ▸ ofTab_good hplace.good) (fun r hr => ?_) during) ?_ (hplace.deliver during)
      · exact (h t).callbacks r (by simp [hcb, hr])
      · rw [hcb]
        exact List.subset_cons_self _ _
    · simp at hstep
  | seen t =>
    simp only [Tabs.step] at hstep
    split at hstep
    · simp at hstep
    · rename_i ask asks hask
      obtain rfl := Option.some.inj hstep
      exact h.perform hask
  | close t =>
    simp only [Tabs.step] at hstep
    split at hstep
    · simp at hstep
    · obtain rfl := Option.some.inj hstep
      exact (h.close t).serve

theorem placed_vacant (refuses : ℕ → ℕ → Bool) : vacant.Placed refuses := by
  intro t
  refine ⟨by simp [vacant], by simp [vacant], by simp [vacant], fun _ => ⟨rfl, rfl, rfl, rfl⟩⟩

/-- **In every run, every candidacy is in its place.** -/
theorem Placed.run (h : w.Placed refuses) {events : List TabEvent} (hrun : w.run refuses events = some w') :
    w'.Placed refuses := by
  induction events generalizing w with
  | nil =>
    obtain rfl : w = w' := by simpa [Tabs.run] using hrun
    exact h
  | cons event events ih =>
    unfold Tabs.run at hrun
    rw [List.foldlM_cons] at hrun
    obtain ⟨w₁, hstep, hrest⟩ := Option.bind_eq_some_iff.1 hrun
    exact ih (h.step hstep) hrest

/-! ### Where a candidacy stands -/

/-- A tab has the lock, and is not giving it back. -/
def Has (w : Tabs) (t : ℕ) : Prop := ∃ r, w.holder = some r ∧ r.tab = t ∧ .release r ∉ w.asks t

/-- A candidacy waits: what it queued for queues or is on its way, or another request of its is. -/
def Waits (w : Tabs) (t : ℕ) (c : Candidacy) : Prop :=
  (∃ q, c.queued = some q ∧ (q ∈ w.line ∨ .request q ∈ w.asks t)) ∨ ∃ r, .request r ∈ w.asks t ∧ r.kind ≠ .queue

/-- A candidacy has the lock and says so, or has it not, says so and waits. -/
def Stands (w : Tabs) (t : ℕ) (c : Candidacy) : Prop :=
  (w.Has t ∧ c.holding = true) ∨ (¬w.Has t ∧ c.holding = false ∧ w.Waits t c)

/-- **A candidacy says that it holds the lock exactly if it has it.** -/
theorem Placed.has_iff (h : w.Placed refuses) (hc : w.candidacy t = some c) (hres : c.resigned = false)
    (hcallbacks : w.callbacks t = []) : w.Has t ↔ c.holding = true := by
  obtain ⟨-, hplace⟩ := (h t).stands c hc
  have hs := hplace.settles hres
  have howner := hplace.owner
  rw [hcallbacks] at hs howner
  constructor
  · rintro ⟨r, hheld, rfl, hkept⟩
    have hown := holderOf_some hheld
    rcases howner r hown with hgive | hgrant | hrelease
    · exact holding_of_giveBack hplace.good hgive
    · simp at hgrant
    · exact absurd hrelease hkept
  · intro hholding
    have hseated := hplace.good.seated
    rw [hholding] at hseated
    obtain ⟨r, hr⟩ := Option.isSome_iff_exists.1 hseated.symm
    have hown : w.holderOf t = some r := (hs.seat hholding).trans hr
    simp only [holderOf, Option.filter_eq_some_iff, decide_eq_true_eq] at hown
    refine ⟨r, hown.1, hown.2, fun hrelease => ?_⟩
    obtain ⟨hkind, hmine, -⟩ := (hplace.wire hres).released r hrelease
    exact seat_of_giveBack hplace.good hkind hmine hr

/-- A candidacy that has no lock waits, unless its last request was refused. -/
theorem Placed.waits (h : w.Placed refuses) (hc : w.candidacy t = some c) (hres : c.resigned = false)
    (hcallbacks : w.callbacks t = []) (hidle : c.holding = false) (haccepted : refuses t (c.requests - 1) = false) :
    w.Waits t c := by
  obtain ⟨-, hplace⟩ := (h t).stands c hc
  have hs := hplace.settles hres
  rw [hcallbacks] at hs
  cases hq : c.queued with
  | some q =>
    have hlast := (hplace.good.queued q hq).2.2
    have hnumber : c.requests - 1 = q.number := by omega
    rw [hnumber] at haccepted
    refine .inl ⟨q, hq, ?_⟩
    rcases hs.waits hidle q hq with hline | hask | hlater | hrefused
    · exact .inl (List.mem_of_mem_filter hline)
    · exact .inr (mem_requestsOf.1 hask)
    · omega
    · simp [haccepted] at hrefused
  | none =>
    obtain ⟨n, hn, ⟨r, hr, -, hkind⟩ | hrefused⟩ := hs.asking hidle hq
    · exact .inr ⟨r, mem_requestsOf.1 hr, hkind⟩
    · have hnumber : c.requests - 1 = n := by
        have hn : n + 1 = c.requests := hn
        omega
      simp [hnumber ▸ haccepted] at hrefused

/-- What queues was not refused. -/
theorem Placed.accepted (h : w.Placed refuses) (hc : w.candidacy t = some c) (hres : c.resigned = false)
    (hasks : w.asks t = []) (hwaits : w.Waits t c) : refuses t (c.requests - 1) = false := by
  obtain ⟨-, hplace⟩ := (h t).stands c hc
  rcases hwaits with ⟨q, hq, hline | hask⟩ | ⟨r, hask, -⟩
  · obtain ⟨htab, -, hlast⟩ := hplace.good.queued q hq
    have hnumber : c.requests - 1 = q.number := by omega
    obtain ⟨hc', -⟩ := (h t).stands c hc
    rw [hnumber]
    refine (hplace.settles hres).accepted q (List.mem_filter.2 ⟨hline, ?_⟩)
    simp [htab, hc']
  · simp [hasks] at hask
  · simp [hasks] at hask

/-- What a candidacy that has resigned tells its host no more. -/
theorem told_react (hres : c.resigned = true) (during : List HostCall) (cb : Callback) :
    (c.react during cb).1.events = c.events := by
  have hqueue : c.queue.1.events = c.events := by
    unfold Candidacy.queue
    split <;> rfl
  cases cb with
  | granted r => cases hk : r.kind <;> simp [Candidacy.react, hk, hres, Candidacy.answer]
  | unavailable r => rfl
  | resolved r =>
    unfold Candidacy.react
    dsimp only
    split
    · exact hqueue
    · rfl
  | rejected r => cases hk : r.kind <;> simp [Candidacy.react, hk, hres, Candidacy.answer, Candidacy.tenureEnded]

@[simp] theorem candidacy_serve : w.serve.candidacy = w.candidacy := by
  unfold Tabs.serve
  split <;> rfl

@[simp] theorem candidacy_evict : w.evict.candidacy = w.candidacy := by
  unfold Tabs.evict
  split <;> rfl

theorem candidacy_perform (ask : Ask) : (w.perform refuses ask).candidacy = w.candidacy := by
  cases ask with
  | request r =>
    unfold Tabs.perform
    dsimp only
    split
    · rfl
    · split
      · split <;> rfl
      · rw [candidacy_serve]
      · exact candidacy_evict
  | abort r =>
    unfold Tabs.perform
    dsimp only
    split <;> rfl
  | release r =>
    unfold Tabs.perform
    dsimp only
    split
    · rw [candidacy_serve]
      rfl
    · rfl

/-- **A candidacy that has resigned tells its host nothing.** -/
theorem resigned_step {event : TabEvent} (hstep : w.step refuses event = some w') (hc : w.candidacy t = some c)
    (hres : c.resigned = true) {c' : Candidacy} (hc' : w'.candidacy t = some c') :
    c'.resigned = true ∧ c'.events = c.events := by
  have hsame : w'.candidacy t = w.candidacy t → c'.resigned = true ∧ c'.events = c.events := by
    intro h
    obtain rfl := Option.some.inj (hc'.symm.trans (h.trans hc))
    exact ⟨hres, rfl⟩
  cases event with
  | stand t' =>
    simp only [Tabs.step] at hstep
    split at hstep
    · rename_i hnone
      obtain rfl := Option.some.inj hstep
      refine hsame (Function.update_of_ne ?_ ..)
      rintro rfl
      simp [hc] at hnone
    · simp at hstep
  | call t' call =>
    simp only [Tabs.step] at hstep
    split at hstep
    · simp at hstep
    · rename_i a ha
      split at hstep
      · simp at hstep
      · obtain rfl := Option.some.inj hstep
        by_cases ht : t = t'
        · subst ht
          obtain rfl := Option.some.inj (hc.symm.trans ha)
          have hcall : c.hostCall call = (c, []) := by
            cases call with
            | takeFromBackgroundedLeader => simp [Candidacy.hostCall, Candidacy.takeFromBackgroundedLeader, hres]
            | resign => simp [Candidacy.hostCall, Candidacy.resign, hres]
          refine hsame ?_
          rw [hcall, hc]
          exact Function.update_self ..
        · exact hsame (Function.update_of_ne ht ..)
  | callback t' during =>
    simp only [Tabs.step] at hstep
    split at hstep
    · rename_i a cb callbacks ha hcb
      obtain rfl := Option.some.inj hstep
      by_cases ht : t = t'
      · subst ht
        obtain rfl := Option.some.inj (hc.symm.trans ha)
        obtain rfl : (c.react during cb).1 = c' := by simpa [Tabs.move] using hc'
        exact ⟨resigned_react hres during cb, told_react hres during cb⟩
      · exact hsame (Function.update_of_ne ht ..)
    · simp at hstep
  | seen t' =>
    simp only [Tabs.step] at hstep
    split at hstep
    · simp at hstep
    · obtain rfl := Option.some.inj hstep
      exact hsame (by rw [candidacy_perform])
  | close t' =>
    simp only [Tabs.step] at hstep
    split at hstep
    · simp at hstep
    · obtain rfl := Option.some.inj hstep
      rw [candidacy_serve] at hc' hsame
      by_cases ht : t = t'
      · subst ht
        simp [Tabs.close] at hc'
      · exact hsame (Function.update_of_ne ht ..)

/-- **A candidacy never leads without the lock, and it drops out exactly where its last request was
refused**: in every run, for any number of tabs and any order of steps. -/
theorem candidacy_stands_iff {events : List TabEvent} (hrun : vacant.run refuses events = some w) :
    (∀ t c, w.candidacy t = some c → c.resigned = false → w.callbacks t = [] →
      (w.Has t ∨ refuses t (c.requests - 1) = false → w.Stands t c) ∧
      (w.asks t = [] → (w.Stands t c ↔ w.Has t ∨ refuses t (c.requests - 1) = false))) ∧
    (∀ t t' c c', w.candidacy t = some c → w.candidacy t' = some c' → w.callbacks t = [] → w.callbacks t' = [] →
      c.holding = true → c'.holding = true → t = t') ∧
    ∀ t c, w.candidacy t = some c → Candidacy.Alternates c.events ∧
      (c.resigned = true → c.holding = false ∧ (w.callbacks t = [] → ¬w.Has t) ∧
        ∀ event w' c', w.step refuses event = some w' → w'.candidacy t = some c' →
          c'.resigned = true ∧ c'.events = c.events) := by
  have h := (placed_vacant refuses).run hrun
  have hlive : ∀ t c, w.candidacy t = some c → c.holding = true → c.resigned = false := by
    intro t c hc hholding
    by_contra hres
    have hidle := ((h t).stands c hc).2.good.resigned (by simpa using hres)
    simp [hholding] at hidle
  refine ⟨fun t c hc hres hcallbacks => ?_, fun t t' c c' hc hc' hcb hcb' hh hh' => ?_, fun t c hc => ?_⟩
  · have hhas := h.has_iff hc hres hcallbacks
    have hstands : w.Has t ∨ refuses t (c.requests - 1) = false → w.Stands t c := by
      intro hor
      by_cases hholds : w.Has t
      · exact .inl ⟨hholds, hhas.1 hholds⟩
      · have hidle : c.holding = false := by simpa using fun hh => hholds (hhas.2 hh)
        exact .inr ⟨hholds, hidle, h.waits hc hres hcallbacks hidle (hor.resolve_left hholds)⟩
    refine ⟨hstands, fun hasks => ⟨fun hst => ?_, hstands⟩⟩
    rcases hst with ⟨hholds, -⟩ | ⟨-, -, hwaits⟩
    · exact .inl hholds
    · exact .inr (h.accepted hc hres hasks hwaits)
  · obtain ⟨r, hr, htab, -⟩ := (h.has_iff hc (hlive t c hc hh) hcb).2 hh
    obtain ⟨r', hr', htab', -⟩ := (h.has_iff hc' (hlive t' c' hc' hh') hcb').2 hh'
    obtain rfl := Option.some.inj (hr.symm.trans hr')
    exact htab.symm.trans htab'
  · obtain ⟨htab, hplace⟩ := (h t).stands c hc
    refine ⟨hplace.good.alternates, fun hres => ⟨hplace.good.resigned hres, ?_, ?_⟩⟩
    · rintro hcallbacks ⟨r, hheld, rfl, hkept⟩
      have howner := hplace.owner r (holderOf_some hheld)
      rw [hcallbacks] at howner
      rcases howner with hgive | hgrant | hrelease
      · have hidle := hplace.good.resigned hres
        simp [holding_of_giveBack hplace.good hgive] at hidle
      · simp at hgrant
      · exact hkept hrelease
    · intro event w' c' hstep hc'
      exact resigned_step hstep hc hres hc'

/-- A tab leads, and another that queues for the lock leaves the queue to steal it. -/
def stealing : List TabEvent :=
  [.stand 0, .seen 0, .callback 0 [], .stand 1, .seen 1, .callback 1 [], .callback 1 [], .seen 1,
    .call 1 .takeFromBackgroundedLeader, .seen 1, .seen 1, .callback 1 [], .callback 1 []]

/-- The steal displaces the leader. -/
theorem stands_stolen : ∃ w c, vacant.run (fun _ _ => false) stealing = some w ∧ w.candidacy 1 = some c ∧
    c.events = [.onTakeover .leaderBackgrounded] ∧ w.Stands 1 c := by
  have hrun : vacant.run (fun _ _ => false) stealing = some _ := rfl
  refine ⟨_, _, hrun, rfl, rfl, ?_⟩
  exact ((candidacy_stands_iff hrun).1 1 _ rfl rfl rfl).1 (.inr rfl)

/-- The steal is refused, and when the leader dies its thief waits for nothing. -/
theorem drops_out_refused : ∃ w c, vacant.run (fun t n => t = 1 ∧ n = 2) (stealing ++ [.close 0]) = some w ∧
    w.candidacy 1 = some c ∧ c.resigned = false ∧ w.callbacks 1 = [] ∧ w.asks 1 = [] ∧ w.holder = none ∧ w.line = [] ∧
    c.holding = false ∧ ¬w.Stands 1 c := by
  refine ⟨_, _, rfl, rfl, rfl, rfl, rfl, rfl, rfl, rfl, ?_⟩
  rintro (⟨-, hholding⟩ | ⟨-, -, ⟨q, hq, -⟩ | ⟨r, hr, -⟩⟩)
  · cases hholding
  · cases hq
  · cases hr

end Tabs

end Election

end Etherfold
