import Etherfold.Host.PortCalls

/-!
# What a death is concluded from

No browser tells a tab that its worker is gone, so what is left is silence and a question. Nothing
was heard for an interval before the host is asked, and the answer is waited for as long again. A push
in the meantime does not answer the question, and a host that refuses it is as gone as one that is
silent.

* `Concluded`: the silence, the ping that was asked then, and how it ended.
* `death_after_silence`: **every death was concluded so**, over whole runs.
-/

namespace Etherfold

namespace Port

variable {o : UsedPortOptions} {event : PortEvent} {s s' : Port}

/-- Nothing was heard of a host for an interval before it was asked. -/
def SilentBefore (o : UsedPortOptions) (s : Port) (askedAt : ℕ) : Prop :=
  ∃ everyMs, o.watchMs = some everyMs ∧ ∀ heardAt ∈ s.heard, heardAt + everyMs ≤ askedAt ∨ askedAt ≤ heardAt

/-- How the question ended: with the death itself an interval later, with a refusal, or unsent. -/
def Unmet (o : UsedPortOptions) (s : Port) (obituary : Obituary) : Prop :=
  match obituary.cause with
  | .unanswered => (obituary.probe.call, .hostDied obituary.death) ∈ s.settled ∧
    obituary.probe.askedAt + o.watchMs.getD 0 ≤ obituary.diedAt
  | .refused => ∃ host, (obituary.probe.call, .answered host false) ∈ s.settled
  | .unposted => (obituary.probe.call, .unsent) ∈ s.settled

/-- The call of a question is a ping that was made when the question was asked. -/
def IsPing (s : Port) (probe : Probe) : Prop := s.requested[probe.call]? = some (.ping, probe.askedAt)

/-- **What a death is concluded from.** -/
def Concluded (o : UsedPortOptions) (s : Port) (obituary : Obituary) : Prop :=
  SilentBefore o s obituary.probe.askedAt ∧ IsPing s obituary.probe ∧ Unmet o s obituary

/-- What holds of a port that watches its host. -/
structure Watching (o : UsedPortOptions) (s : Port) : Prop where
  heard : ∀ heardAt ∈ s.heard, heardAt ≤ s.heardAt
  past : s.heardAt ≤ s.now
  requested : s.requested.length = s.calls
  out : ∀ probe, s.probing = some probe → probe.askedAt ≤ s.now ∧ SilentBefore o s probe.askedAt ∧
    IsPing s probe ∧ (⟨probe.id, probe.call, .ping⟩ : PendingCall) ∈ s.pending
  concluded : ∀ obituary ∈ s.obituaries, obituary.probe.askedAt ≤ s.now ∧ Concluded o s obituary

theorem watching_fresh (o : UsedPortOptions) (access : HostAccess) (now : ℕ) (handsOver : Bool) :
    Watching o (fresh access now handsOver) := by
  constructor <;> simp [fresh]

theorem SilentBefore.hear {askedAt : ℕ} (h : SilentBefore o s askedAt) (hpast : askedAt ≤ s.now) {t : Port}
    (hheard : t.heard = s.heard ++ [s.now]) : SilentBefore o t askedAt := by
  obtain ⟨everyMs, hwatch, hsilent⟩ := h
  refine ⟨everyMs, hwatch, fun heardAt hmem => ?_⟩
  rw [hheard] at hmem
  rcases List.mem_append.1 hmem with hbefore | hnow
  · exact hsilent heardAt hbefore
  · cases List.mem_singleton.1 hnow
    exact .inr hpast

theorem IsPing.mono {probe : Probe} (h : IsPing s probe) {t : Port} (hrequested : s.requested <+: t.requested) :
    IsPing t probe := by
  obtain ⟨more, hmore⟩ := hrequested
  unfold IsPing at h ⊢
  rw [← hmore, List.getElem?_append_left (List.getElem?_eq_some_iff.1 h).1, h]

theorem Unmet.mono {obituary : Obituary} (h : Unmet o s obituary) {t : Port} (hsettled : s.settled ⊆ t.settled) :
    Unmet o t obituary := by
  unfold Unmet at h ⊢
  split <;> simp_all
  · exact hsettled h.1
  · obtain ⟨host, hhost⟩ := h
    exact ⟨host, hsettled hhost⟩
  · exact hsettled h

theorem Concluded.mono {obituary : Obituary} (h : Concluded o s obituary) {t : Port} (hheard : t.heard = s.heard)
    (hsettled : s.settled ⊆ t.settled) (hrequested : s.requested <+: t.requested) : Concluded o t obituary := by
  refine ⟨?_, h.2.1.mono hrequested, h.2.2.mono hsettled⟩
  unfold SilentBefore
  rw [hheard]
  exact h.1

theorem settled_request (s : Port) (portCase : PortCase) (posts : Bool) :
    s.settled ⊆ (s.request portCase posts).settled ∧ s.pending ⊆ (s.request portCase posts).pending := by
  unfold Port.request settle
  split
  · simp
  · split
    · simp
    · split <;> simp

/-- A request is a call, posted or not. -/
theorem requested_request (s : Port) (portCase : PortCase) (posts : Bool) :
    (s.request portCase posts).requested = s.requested ++ [(portCase, s.now)] ∧
      (s.request portCase posts).calls = s.calls + 1 := by
  unfold Port.request settle
  split
  · exact ⟨rfl, rfl⟩
  · split
    · exact ⟨rfl, rfl⟩
    · split <;> exact ⟨rfl, rfl⟩

/-- A request of a port that stands is posted, or ends unsent. -/
theorem request_stands (hstands : s.closed = false ∧ s.dead = false) (portCase : PortCase) (posts : Bool) :
    ((⟨s.nextId, s.calls, portCase⟩ : PendingCall) ∈ (s.request portCase posts).pending ∨ posts = false) ∧
      ((s.calls, .unsent) ∈ (s.request portCase posts).settled ∨ posts = true) := by
  unfold Port.request settle
  cases posts <;> simp [hstands]

theorem settled_answer (s : Port) (id : ℕ) (ok : Bool) : s.settled ⊆ (s.answer id ok).settled := by
  unfold Port.answer settle
  split <;> simp

theorem requested_answer (s : Port) (id : ℕ) (ok : Bool) :
    (s.answer id ok).requested = s.requested ∧ (s.answer id ok).calls = s.calls := by
  unfold Port.answer settle
  split <;> exact ⟨rfl, rfl⟩

/-- A response ends the call that carries its number, and no other. -/
theorem Accounted.answer_ends (h : Accounted s) {waiting : PendingCall} (hmem : waiting ∈ s.pending) (ok : Bool) :
    (waiting.call, .answered s.held ok) ∈ (s.answer waiting.id ok).settled := by
  unfold Port.answer settle
  split
  · next hnone => simpa using List.find?_eq_none.1 hnone waiting hmem
  · next found hfind =>
    have hid : found.id = waiting.id := by simpa using List.find?_some hfind
    obtain rfl := List.inj_on_of_nodup_map h.distinct (List.mem_of_find?_eq_some hfind) hmem hid
    simp

theorem pending_answer {waiting : PendingCall} (hmem : waiting ∈ s.pending) {id : ℕ} (hne : waiting.id ≠ id) (ok : Bool) :
    waiting ∈ (s.answer id ok).pending := by
  unfold Port.answer settle
  split
  · exact hmem
  · simpa using ⟨hmem, hne⟩

/-- A request or an answer leaves what was heard and concluded as it is. -/
theorem Watching.wired (h : Watching o s) (hwired : Wired s s') (hsettled : s.settled ⊆ s'.settled)
    (hrequested : s.requested <+: s'.requested) (hcalls : s'.requested.length = s'.calls)
    (hout : ∀ probe, s.probing = some probe → (⟨probe.id, probe.call, .ping⟩ : PendingCall) ∈ s.pending →
      (⟨probe.id, probe.call, .ping⟩ : PendingCall) ∈ s'.pending) : Watching o s' := by
  obtain ⟨nextId, calls, pending, asked, settled, requested, rfl⟩ := hwired
  refine ⟨h.heard, h.past, hcalls, fun probe hprobe => ?_, fun obituary hmem => ?_⟩
  · obtain ⟨hpast, hsilent, hping, hpending⟩ := h.out probe hprobe
    exact ⟨hpast, hsilent, hping.mono hrequested, hout probe hprobe hpending⟩
  · obtain ⟨hpast, hconcluded⟩ := h.concluded obituary hmem
    exact ⟨hpast, hconcluded.mono rfl hsettled hrequested⟩

theorem Watching.answer (h : Watching o s) (id : ℕ) (ok : Bool)
    (hout : ∀ probe, s.probing = some probe → probe.id ≠ id) : Watching o (s.answer id ok) := by
  obtain ⟨hrequested, hcalls⟩ := requested_answer s id ok
  exact h.wired (wired_answer s id ok) (settled_answer s id ok) (by rw [hrequested])
    (by rw [hrequested, hcalls, h.requested]) fun probe hprobe hmem => pending_answer hmem (hout probe hprobe) ok

/-- Once its number is answered, the question is not out. -/
theorem Watching.answered (h : Watching o s) (id : ℕ) (ok : Bool) :
    Watching o { s.answer id ok with probing := none } := by
  have hnone : Watching o { s with probing := none } := ⟨h.heard, h.past, h.requested, by simp, h.concluded⟩
  have hsame : { s.answer id ok with probing := none } = ({ s with probing := none } : Port).answer id ok := by
    unfold Port.answer settle
    dsimp only
    split <;> rfl
  rw [hsame]
  exact hnone.answer id ok (by simp)

theorem Watching.silentNow (h : Watching o s) {everyMs : ℕ} (hwatch : o.watchMs = some everyMs)
    (hsilent : everyMs ≤ s.now - s.heardAt) : SilentBefore o s s.now := by
  refine ⟨everyMs, hwatch, fun heardAt hmem => .inl ?_⟩
  have hlast := h.heard heardAt hmem
  have hpast := h.past
  omega

theorem Watching.request (h : Watching o s) (portCase : PortCase) (posts : Bool) :
    Watching o (s.request portCase posts) := by
  obtain ⟨hsettled, hpending⟩ := settled_request s portCase posts
  obtain ⟨hrequested, hcalls⟩ := requested_request s portCase posts
  refine h.wired (wired_request s portCase posts) hsettled ⟨_, hrequested.symm⟩ ?_ fun _ _ hmem => hpending hmem
  rw [hrequested, hcalls, List.length_append, h.requested, List.length_singleton]

/-- What a port asks now is the last of its calls. -/
theorem Watching.isPing (h : Watching o s) (id : ℕ) (posts : Bool) : IsPing (s.request .ping posts) ⟨id, s.calls, s.now⟩ := by
  unfold IsPing
  rw [(requested_request s .ping posts).1, ← h.requested]
  simp

theorem Watching.died (h : Watching o s) {cause : DeathCause} {probe : Probe} (hpast : probe.askedAt ≤ s.now)
    (hsilent : SilentBefore o s probe.askedAt) (hping : IsPing s probe)
    (hunmet : Unmet o (s.died o cause probe) ⟨s.now, cause, probe, s.deathOf o⟩) : Watching o (s.died o cause probe) := by
  refine ⟨h.heard, h.past, h.requested, by simp [Port.died], fun obituary hmem => ?_⟩
  rcases List.mem_append.1 hmem with hbefore | hnow
  · obtain ⟨hbefore, hconcluded⟩ := h.concluded obituary hbefore
    exact ⟨hbefore, hconcluded.mono rfl (by simp [Port.died, rejectAll]) (List.prefix_refl _)⟩
  · cases List.mem_singleton.1 hnow
    exact ⟨hpast, hsilent, hping, hunmet⟩

theorem Watching.move (h : Watching o s) (hcalls : Accounted s) (hmove : Move o event s s') :
    Watching o s' := by
  cases hmove with
  | asks portCase posts => exact h.request portCase posts
  | answers id ok held other => exact h.answer id ok other
  | alive probe out => exact h.answered probe.id true
  | refuses probe out =>
    obtain ⟨hpast, hsilent, hping, hpending⟩ := h.out probe out
    -- calls have distinct numbers, so the refusal is the answer to the question itself
    have hends := hcalls.answer_ends hpending false
    obtain ⟨_, _, _, _, _, _, heq⟩ := wired_answer s probe.id false
    have hping := hping.mono (t := s.answer probe.id false) (by rw [(requested_answer s probe.id false).1])
    refine (h.answered probe.id false).died (by rw [heq]; exact hpast) (by rw [heq]; exact hsilent) hping ⟨s.held, ?_⟩
    exact List.mem_append_left _ hends
  | unanswered probe everyMs watches out late =>
    -- the question is one of the calls that the death rejects
    obtain ⟨hpast, hsilent, hping, hpending⟩ := h.out probe out
    refine h.died hpast hsilent hping ⟨?_, ?_⟩
    · exact List.mem_append_right _ (List.mem_map.2 ⟨_, hpending, rfl⟩)
    · simpa [watches] using late
  | probes everyMs watches stands silent =>
    have hsilent := h.silentNow watches silent
    have hposted := (request_stands stands .ping true).1
    obtain ⟨_, _, _, _, _, _, heq⟩ := wired_request s .ping true
    have hasked := h.request .ping true
    refine ⟨hasked.heard, hasked.past, hasked.requested, fun probe hprobe => ?_, hasked.concluded⟩
    cases hprobe
    refine ⟨by rw [heq], ?_, h.isPing s.nextId true, by simpa using hposted⟩
    rw [heq]
    exact hsilent
  | unposted everyMs watches stands silent =>
    have hsilent := h.silentNow watches silent
    have hunsent := (request_stands stands .ping false).2
    obtain ⟨_, _, _, _, _, _, heq⟩ := wired_request s .ping false
    refine (h.request .ping false).died (by rw [heq]) (by rw [heq]; exact hsilent) (h.isPing s.nextId false) ?_
    exact List.mem_append_left _ (by simpa using hunsent)
  | hears held =>
    -- what is heard is heard now, and no question was asked later than that
    refine ⟨fun heardAt hmem => ?_, le_rfl, h.requested, fun probe hprobe => ?_, fun obituary hmem => ?_⟩
    · rcases List.mem_append.1 hmem with hbefore | hnow
      · exact (h.heard heardAt hbefore).trans h.past
      · exact (List.mem_singleton.1 hnow).le
    · obtain ⟨hpast, hsilent, hrest⟩ := h.out probe hprobe
      exact ⟨hpast, hsilent.hear hpast rfl, hrest⟩
    · obtain ⟨hpast, hsilent, hrest⟩ := h.concluded obituary hmem
      exact ⟨hpast, hsilent.hear hpast rfl, hrest⟩
  | reopens access stands due =>
    refine ⟨fun heardAt hmem => (h.heard heardAt hmem).trans h.past, le_rfl, h.requested, h.out, h.concluded⟩
  | ends stands =>
    refine ⟨h.heard, h.past, h.requested, by simp [ended], fun obituary hmem => ?_⟩
    obtain ⟨hpast, hconcluded⟩ := h.concluded obituary hmem
    exact ⟨hpast, hconcluded.mono rfl (by simp [ended, rejectAll]) (List.prefix_refl _)⟩
  | waits ms =>
    refine ⟨h.heard, h.past.trans (Nat.le_add_right _ _), h.requested, fun probe hprobe => ?_, fun obituary hmem => ?_⟩
    · obtain ⟨hpast, hrest⟩ := h.out probe hprobe
      exact ⟨hpast.trans (Nat.le_add_right _ _), hrest⟩
    · obtain ⟨hpast, hconcluded⟩ := h.concluded obituary hmem
      exact ⟨hpast.trans (Nat.le_add_right _ _), hconcluded⟩
  | _ => exact ⟨h.heard, h.past, h.requested, h.out, h.concluded⟩

/-- **A host is given up after silence only.** Over whole runs, behind every death there is a ping that was
asked when nothing had been heard for an interval, and that was refused, could not be sent, or went
unanswered for another: then it is one of the calls the death rejected. -/
theorem death_after_silence (o : UsedPortOptions) (access : HostAccess) (now : ℕ) (handsOver prepared posts : Bool)
    (events : List PortEvent) (s : Port) (hrun : (connected o access now handsOver prepared posts).run o events = some s) :
    ∀ obituary ∈ s.obituaries, Concluded o s obituary := by
  have hfresh := And.intro (accounted_fresh access now handsOver) (watching_fresh o access now handsOver)
  obtain ⟨-, -, h⟩ := run_connected (P := fun s => Accounted s ∧ Watching o s) hfresh
    (fun event _ s s' hkept h hmove => ⟨h.1.move hkept hmove, h.2.move h.1 hmove⟩) hrun
  exact fun obituary hmem => (h.concluded obituary hmem).2

/-- A push comes after the question, and does not answer it. -/
def pushed : List PortEvent :=
  [.message 0 .push, .wait 5000, .watchTimer true, .message 0 .push, .wait 5000, .probeTimer]

theorem death_after_silence_pushed :
    ∃ s, (connected defaultOptions ⟨true, true⟩ 0 false false true).run defaultOptions pushed = some s ∧
      s.obituaries ≠ [] ∧ ∀ obituary ∈ s.obituaries, Concluded defaultOptions s obituary := by
  obtain ⟨s, hs, hne⟩ : ∃ s,
      (connected defaultOptions ⟨true, true⟩ 0 false false true).run defaultOptions pushed = some s ∧
        s.obituaries ≠ [] := ⟨_, rfl, by simp [Port.died]⟩
  exact ⟨s, hs, hne, death_after_silence _ _ _ _ _ _ _ _ hs⟩

end Port

end Etherfold
