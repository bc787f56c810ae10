import Etherfold.Host.PortHosts

/-!
# The subscriptions of a port

A subscription belongs to the tab, not to the host that serves it: the first listener asks the host for
what it pushes, the last one ends it, and a host that is obtained is asked again for what is listened
to. A listener that comes or goes while no host answers is remembered.

* `Port.subscribed`: the last that the host was asked about what it pushes.
* `subscribed_iff`: **the host that is held is subscribed to exactly what is listened to**.
-/

namespace Etherfold

namespace Port

variable {o : UsedPortOptions} {event : PortEvent} {s s' : Port} {name : PushName}

/-- What the host that is held was asked. -/
def told (s : Port) : List PortCase := (s.asked.filter fun ask => ask.2.1 = s.held).map fun ask => ask.2.2

/-- Whether the last that was asked about a push is to push it. -/
def lastSubscribes (name : PushName) (cases : List PortCase) : Bool :=
  (cases.filter name.concerns).getLast? = some name.subscribe

theorem lastSubscribes_append_plain {portCase : PortCase} (hplain : name.concerns portCase = false) (cases : List PortCase) :
    lastSubscribes name (cases ++ [portCase]) = lastSubscribes name cases := by
  simp only [lastSubscribes, List.filter_append, List.filter_cons, hplain, Bool.false_eq_true, if_false, List.filter_nil,
    List.append_nil]

theorem lastSubscribes_append {portCase : PortCase} (hconcerns : name.concerns portCase = true) (cases : List PortCase) :
    lastSubscribes name (cases ++ [portCase]) = decide (portCase = name.subscribe) := by
  simp only [lastSubscribes, List.filter_append, List.filter_cons, hconcerns, if_true, List.filter_nil,
    List.getLast?_append, List.getLast?_singleton, Option.some_or, Option.some.injEq]

/-- Whether the host that is held was last asked to push, rather than to stop. -/
def subscribed (s : Port) (name : PushName) : Bool := lastSubscribes name s.told

/-- What holds of the subscriptions of a port: no host is known that is still to come, and one that
stands is subscribed to what is listened to. -/
structure Attended (s : Port) : Prop where
  known : ∀ ask ∈ s.asked, ask.2.1 ≤ s.held
  pushes : s.closed = false → s.dead = false → ∀ name, s.subscribed name = true ↔ 0 < s.listeners name

theorem attended_fresh (access : HostAccess) (now : ℕ) (handsOver : Bool) : Attended (fresh access now handsOver) := by
  constructor <;> simp [fresh, subscribed, told, lastSubscribes]

/-- What leaves the subscriptions as they are; a host or a port may come to its end. -/
structure Idle (s s' : Port) : Prop where
  asked : s'.asked = s.asked
  held : s'.held = s.held
  listeners : s'.listeners = s.listeners
  closed : s'.closed = false → s.closed = false
  dead : s'.dead = false → s.dead = false

theorem Attended.idle (h : Attended s) (hidle : Idle s s') : Attended s' := by
  refine ⟨by rw [hidle.asked, hidle.held]; exact h.known, fun hclosed hdead name => ?_⟩
  have htold : s'.told = s.told := by simp only [told, hidle.asked, hidle.held]
  rw [subscribed, htold, hidle.listeners]
  exact h.pushes (hidle.closed hclosed) (hidle.dead hdead) name

theorem idle_answer (s : Port) (id : ℕ) (ok : Bool) : Idle s (s.answer id ok) := by
  unfold Port.answer settle
  split <;> constructor <;> simp

/-- A request of a port that stands is the last that its host is told, where it is posted. -/
theorem told_request (hstands : s.closed = false ∧ s.dead = false) (portCase : PortCase) (posts : Bool) :
    (s.request portCase posts).told = s.told ++ if posts then [portCase] else [] := by
  unfold Port.request settle
  cases posts <;> simp [hstands, told]

theorem known_request (h : ∀ ask ∈ s.asked, ask.2.1 ≤ s.held) (portCase : PortCase) (posts : Bool) :
    ∀ ask ∈ (s.request portCase posts).asked, ask.2.1 ≤ (s.request portCase posts).held := by
  unfold Port.request settle
  split
  · exact h
  · split
    · exact h
    · split
      · simpa [or_imp, forall_and] using h
      · exact h

/-- A request about something else changes no subscription. -/
theorem Attended.asks (h : Attended s) {portCase : PortCase} (hplain : ∀ name : PushName, name.concerns portCase = false)
    (posts : Bool) : Attended (s.request portCase posts) := by
  refine ⟨known_request h.known portCase posts, fun hclosed hdead name => ?_⟩
  obtain ⟨_, _, _, _, _, _, heq⟩ := wired_request s portCase posts
  have hstands : s.closed = false ∧ s.dead = false := by
    rw [heq] at hclosed hdead
    exact ⟨hclosed, hdead⟩
  have hsame : lastSubscribes name (s.request portCase posts).told = lastSubscribes name s.told := by
    rw [told_request hstands]
    cases posts with
    | true => exact lastSubscribes_append_plain (hplain name) _
    | false => simp
  rw [subscribed, hsame, heq]
  exact h.pushes hstands.1 hstands.2 name

theorem Attended.died (h : Attended s) (cause : DeathCause) (probe : Probe) : Attended (s.died o cause probe) :=
  ⟨h.known, fun _ hdead => by simp [Port.died] at hdead⟩

theorem Attended.move (h : Attended s) (hevent : subscribesAt event = false) (hmove : Move o event s s') :
    Attended s' := by
  have hping : ∀ name : PushName, name.concerns .ping = false := fun name => by cases name <;> decide
  cases hmove with
  | asks portCase posts subscribes =>
    refine h.asks (fun name => ?_) posts
    by_contra hne
    simp [subscribes name (by simpa using hne)] at hevent
  | answers id ok => exact h.idle (idle_answer s id ok)
  | alive probe =>
    have h' := h.idle (idle_answer s probe.id true)
    exact ⟨h'.known, h'.pushes⟩
  | refuses probe => exact (h.idle (idle_answer s probe.id false)).died _ _
  | unanswered probe => exact h.died _ _
  | probes =>
    have h' := h.asks hping true
    exact ⟨h'.known, h'.pushes⟩
  | unposted => exact (h.asks hping false).died _ _
  | reopens _ _ _ subscribes => simp [subscribes] at hevent
  | ends => exact ⟨h.known, fun hclosed => by simp [ended] at hclosed⟩
  | attends listeners visible subscribes =>
    have hsame : listeners = s.listeners := by
      by_contra hne
      simp [subscribes hne] at hevent
    exact h.idle ⟨rfl, rfl, hsame, id, id⟩
  | _ => exact ⟨h.known, h.pushes⟩

@[simp] theorem concerns_subscribe (name name' : PushName) : name'.concerns name.subscribe = decide (name' = name) := by
  cases name <;> cases name' <;> rfl

@[simp] theorem concerns_unsubscribe (name name' : PushName) :
    name'.concerns name.unsubscribe = decide (name' = name) := by
  cases name <;> cases name' <;> rfl

theorem stands_request (portCase : PortCase) (posts : Bool) :
    (s.request portCase posts).closed = s.closed ∧ (s.request portCase posts).dead = s.dead ∧
      (s.request portCase posts).listeners = s.listeners := by
  obtain ⟨_, _, _, _, _, _, heq⟩ := wired_request s portCase posts
  rw [heq]
  exact ⟨rfl, rfl, rfl⟩

theorem told_requests (hstands : s.closed = false ∧ s.dead = false) (cases : List PortCase) (posts : PortCase → Bool) :
    (s.requests cases posts).told = s.told ++ cases.filter posts := by
  induction cases generalizing s with
  | nil => simp [requests]
  | cons portCase cases ih =>
    have hnext := stands_request (s := s) portCase (posts portCase)
    have hrest := ih (s := s.request portCase (posts portCase)) (by rw [hnext.1, hnext.2.1]; exact hstands)
    refine hrest.trans ?_
    rw [told_request hstands, List.append_assoc]
    by_cases hposts : posts portCase = true <;> simp [hposts]

theorem known_requests (h : ∀ ask ∈ s.asked, ask.2.1 ≤ s.held) (cases : List PortCase) (posts : PortCase → Bool) :
    ∀ ask ∈ (s.requests cases posts).asked, ask.2.1 ≤ (s.requests cases posts).held := by
  induction cases generalizing s with
  | nil => exact h
  | cons portCase cases ih => exact ih (known_request h portCase (posts portCase))

theorem listeners_listening (s : Port) (name other : PushName) (n : ℕ) :
    (s.listening name n).listeners other = if other = name then n else s.listeners other := by
  simp [Port.listening, Function.update_apply]

theorem told_listening (s : Port) (name : PushName) (n : ℕ) : (s.listening name n).told = s.told := rfl

/-- One more or one less listens, and whether one does is as before. -/
theorem Attended.listening (h : Attended s) {n : ℕ} (hsame : 0 < n ↔ 0 < s.listeners name) :
    Attended (s.listening name n) := by
  refine ⟨h.known, fun hclosed hdead other => ?_⟩
  have hpushes := h.pushes hclosed hdead other
  rw [subscribed, told_listening, listeners_listening]
  split
  · next hother =>
    subst hother
    exact hpushes.trans hsame.symm
  · exact hpushes

/-- The first that listens, or the last, is told to the host. -/
theorem Attended.asksFor (h : Attended s) {n : ℕ} {portCase : PortCase}
    (hconcerns : ∀ other : PushName, other.concerns portCase = decide (other = name))
    (hpushes : portCase = name.subscribe ↔ 0 < n) : Attended ((s.listening name n).request portCase true) := by
  refine ⟨known_request (s := s.listening name n) h.known _ _, fun hclosed hdead other => ?_⟩
  obtain ⟨hc, hd, hl⟩ := stands_request (s := s.listening name n) portCase true
  rw [hc] at hclosed
  rw [hd] at hdead
  rw [subscribed, told_request ⟨hclosed, hdead⟩, hl, if_pos rfl, told_listening, listeners_listening]
  split
  · next hother =>
    subst hother
    rw [lastSubscribes_append (by simp [hconcerns]), decide_eq_true_iff, hpushes]
  · next hother =>
    rw [lastSubscribes_append_plain (by simp [hconcerns, hother])]
    exact h.pushes hclosed hdead other

/-- **A listener that is added** subscribes, where it is the first. -/
theorem Attended.on (h : Attended s) (name : PushName) : Attended (s.on name true) := by
  unfold Port.on
  split
  · exact h.asksFor (concerns_subscribe name) (by simp)
  · exact h.listening (by omega)

/-- **A listener that goes** unsubscribes, where it is the last. -/
theorem Attended.off (h : Attended s) (name : PushName) : Attended (s.off name true) := by
  unfold Port.off
  split
  · exact h
  · next hsome =>
    split
    · next hmore =>
      rcases hmore with hmore | hclosed
      · exact h.listening (by omega)
      · exact ⟨h.known, fun hstands => by simp [Port.listening, hclosed] at hstands⟩
    · exact h.asksFor (concerns_unsubscribe name) (by cases name <;> decide)

theorem stands_requests (cases : List PortCase) (posts : PortCase → Bool) :
    (s.requests cases posts).closed = s.closed ∧ (s.requests cases posts).dead = s.dead ∧
      (s.requests cases posts).listeners = s.listeners := by
  obtain ⟨_, _, _, _, _, _, heq⟩ := wired_requests cases posts s
  rw [heq]
  exact ⟨rfl, rfl, rfl⟩

theorem watch_eq (o : UsedPortOptions) (s : Port) : ∃ watchAt, s.watch o = { s with watchAt := watchAt } := by
  unfold watch
  split
  · exact ⟨s.watchAt, rfl⟩
  · split
    · exact ⟨s.watchAt, rfl⟩
    · exact ⟨_, rfl⟩

/-- What a host that was obtained is asked: what concerns its subscriptions is what is listened to. -/
theorem lastSubscribes_resumed (s : Port) {posts : PortCase → Bool}
    (hposts : ∀ name : PushName, posts name.subscribe = true) (name : PushName) :
    lastSubscribes name (s.resent.filter posts ++ s.subscriptions.filter posts) = decide (0 < s.listeners name) := by
  have hresent : (s.resent.filter posts).filter name.concerns = [] := by
    rw [List.filter_eq_nil_iff]
    intro portCase hmem
    have hplain : portCase = .connect ∨ portCase = .visibility := by
      rcases List.mem_append.1 (List.mem_filter.1 hmem).1 with hconnect | hvisibility
      · exact .inl (by split at hconnect <;> simp_all)
      · exact .inr (by split at hvisibility <;> simp_all)
    rcases hplain with rfl | rfl <;> cases name <;> decide
  have hprogress : posts .subscribeToProgress = true := hposts .progress
  have hmoved : posts .subscribeToStateMoved = true := hposts .stateMoved
  rw [lastSubscribes, List.filter_append, hresent, List.nil_append]
  cases name <;> by_cases h1 : 0 < s.listeners .progress <;> by_cases h2 : 0 < s.listeners .stateMoved <;>
    simp [subscriptions, h1, h2, hprogress, hmoved, PushName.concerns, PushName.subscribe, PushName.unsubscribe]

/-- What is listened to is asked for after what a host is asked first. -/
theorem Attended.subscribes {t : Port} (hknown : ∀ ask ∈ t.asked, ask.2.1 ≤ t.held)
    (hstands : t.closed = false ∧ t.dead = false) {posts : PortCase → Bool}
    (hposts : ∀ name : PushName, posts name.subscribe = true) (htold : t.told = s.resent.filter posts)
    (hlisteners : t.listeners = s.listeners) : Attended (t.requests t.subscriptions posts) := by
  refine ⟨known_requests hknown _ posts, fun _ _ name => ?_⟩
  have hsubscriptions : t.subscriptions = s.subscriptions := by rw [subscriptions, subscriptions, hlisteners]
  rw [subscribed, told_requests hstands, htold, hsubscriptions, lastSubscribes_resumed s hposts,
    (stands_requests _ posts).2.2, hlisteners, decide_eq_true_iff]

/-- A host that was obtained was asked nothing yet. -/
theorem Attended.resume (hnew : s.told = []) (hknown : ∀ ask ∈ s.asked, ask.2.1 ≤ s.held)
    (hstands : s.closed = false ∧ s.dead = false) {posts : PortCase → Bool}
    (hposts : ∀ name : PushName, posts name.subscribe = true) : Attended (s.resume o posts) := by
  obtain ⟨hc, hd, hl⟩ := stands_requests (s := s) s.resent posts
  have hresent : (s.requests s.resent posts).told = s.resent.filter posts := by
    rw [told_requests hstands, hnew, List.nil_append]
  obtain ⟨watchAt, hwatch⟩ := watch_eq o
    { s.requests s.resent posts with settleAt := some ((s.requests s.resent posts).now + o.settledAfterMs) }
  refine Attended.subscribes (s := s) (t := watch o _) ?_ ?_ hposts ?_ ?_ <;> rw [hwatch]
  · exact known_requests hknown s.resent posts
  · exact ⟨hc.trans hstands.1, hd.trans hstands.2⟩
  · exact hresent
  · exact hl

/-- **A host that is obtained** is asked for what is listened to. -/
theorem Attended.restart (h : Attended s) (obtained : Option HostAccess) {posts : PortCase → Bool}
    (hposts : ∀ name : PushName, posts name.subscribe = true) : Attended (s.restart o obtained posts) := by
  unfold Port.restart
  split
  · exact ⟨h.known, h.pushes⟩
  · next hclosed =>
    cases obtained with
    | none => exact ⟨h.known, h.pushes⟩
    | some access =>
      have hstands : s.closed = false := by simpa using hclosed
      refine Attended.resume (s := { s with restartAt := none }.reopened access) ?_
        (fun ask hask => (h.known ask hask).trans (Nat.le_succ _)) ⟨hstands, rfl⟩ hposts
      -- no host that is still to come was asked anything
      refine List.map_eq_nil_iff.2 (List.filter_eq_nil_iff.2 fun ask hask => ?_)
      have hle : ask.2.1 ≤ s.held := h.known ask hask
      intro hnext
      have heq : ask.2.1 = s.held + 1 := of_decide_eq_true hnext
      omega

/-- The host takes what it is asked about subscriptions. -/
def Taken : PortEvent → Prop
  | .on _ posts | .off _ posts => posts = true
  | .restartTimer _ posts => ∀ name : PushName, posts name.subscribe = true
  | _ => True

theorem Attended.moves (h : Attended s) (hevent : subscribesAt event = false) (hmoves : Moves o event s s') :
    Attended s' := by
  induction hmoves with
  | refl => exact h
  | tail _ hmove ih => exact ih.move hevent hmove

theorem Attended.step (h : Attended s) (hkept : Kept o s) (htaken : Taken event) (hstep : s.step o event = some s') :
    Attended s' := by
  have hmoves := hkept.step_moves hstep
  cases event with
  | on name posts =>
    obtain rfl : posts = true := htaken
    cases hstep
    exact h.on name
  | off name posts =>
    obtain rfl : posts = true := htaken
    cases hstep
    exact h.off name
  | restartTimer obtained posts =>
    simp only [Port.step] at hstep
    split at hstep
    · cases hstep
      exact h.restart obtained htaken
    · cases hstep
  | _ => exact h.moves rfl hmoves

theorem Attended.run {events : List PortEvent} (h : Attended s) (hkept : Kept o s)
    (htaken : ∀ event ∈ events, Taken event) (hrun : s.run o events = some s') : Attended s' := by
  induction events generalizing s with
  | nil =>
    obtain rfl : s = s' := by simpa [Port.run] using hrun
    exact h
  | cons event events ih =>
    obtain ⟨s₁, hstep, hrest⟩ := run_cons hrun
    have hone := h.step hkept (htaken event (by simp)) hstep
    exact ih hone (hkept.moves (hkept.step_moves hstep)) (fun e he => htaken e (by simp [he])) hrest

/-- **A subscription outlives its host.** Over whole runs, where hosts take what they are asked about it,
a host that is held by a port that stands was last asked to push exactly what is listened to: after any
deaths, restarts, and listeners that came or went in between. -/
theorem subscribed_iff (o : UsedPortOptions) (access : HostAccess) (now : ℕ) (handsOver prepared posts : Bool)
    (events : List PortEvent) (s : Port) (hrun : (connected o access now handsOver prepared posts).run o events = some s)
    (htaken : ∀ event ∈ events, Taken event) (hclosed : s.closed = false) (hdead : s.dead = false) (name : PushName) :
    s.subscribed name = true ↔ 0 < s.listeners name := by
  have hmoves : Moves o (.wait 0) (fresh access now handsOver) (connected o access now handsOver prepared posts) :=
    moves_connected access now handsOver prepared posts
  have hattended := (attended_fresh access now handsOver).moves rfl hmoves
  have hkept := (kept_fresh o access now handsOver).moves hmoves
  exact (hattended.run hkept htaken hrun).pushes hclosed hdead name

/-- A listener comes before a death, and another while no host answers. -/
def listened : List PortEvent :=
  [.on .progress true, .wait 5000, .watchTimer true, .wait 5000, .probeTimer, .on .stateMoved true, .wait 500,
    .restartTimer (some ⟨true, true⟩) fun _ => true]

theorem subscribed_iff_listened :
    ∃ s, (connected defaultOptions ⟨true, true⟩ 0 false false true).run defaultOptions listened = some s ∧ s.held = 1 ∧
      ∀ name, s.subscribed name = true ↔ 0 < s.listeners name := by
  obtain ⟨s, hs, hheld, hclosed, hdead⟩ :
      ∃ s, (connected defaultOptions ⟨true, true⟩ 0 false false true).run defaultOptions listened = some s ∧ s.held = 1 ∧
        s.closed = false ∧ s.dead = false := ⟨_, rfl, rfl, rfl, rfl⟩
  have htaken : ∀ event ∈ listened, Taken event := by simp [listened, Taken]
  exact ⟨s, hs, hheld, fun name => subscribed_iff _ _ _ _ _ _ _ _ hs htaken hclosed hdead name⟩

end Port

end Etherfold
