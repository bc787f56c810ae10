import Etherfold.Host.Port

/-!
# The calls of a port

A call ends once: with the answer of the host it was asked of, with that host's death, with the port,
or because it could not be sent. A response is taken by the number it carries, and the numbers go on
from host to host.

* `Accounted`: every call is in flight or ended, and in flight only while host and port stand.
* `port_settles`: **no call is lost, ended twice or answered by another host**, over whole runs.
-/

namespace Etherfold

namespace Port

variable {o : UsedPortOptions} {event : PortEvent} {s s' : Port}

/-- What holds of the calls of a port. -/
structure Accounted (s : Port) : Prop where
  once : (s.pending.map PendingCall.call ++ s.settled.map Prod.fst).Perm (List.range s.calls)
  numbered : ∀ waiting ∈ s.pending, waiting.id < s.nextId
  distinct : (s.pending.map PendingCall.id).Nodup
  gone : s.closed = true ∨ s.dead = true → s.pending = []
  asked : ∀ waiting ∈ s.pending, (waiting.call, s.held, waiting.portCase) ∈ s.asked
  posted : ∀ ask ∈ s.asked, ask.1 < s.calls
  askedOnce : (s.asked.map Prod.fst).Nodup
  answered : ∀ call host ok, (call, .answered host ok) ∈ s.settled → ∃ portCase, (call, host, portCase) ∈ s.asked

theorem accounted_fresh (access : HostAccess) (now : ℕ) (handsOver : Bool) : Accounted (fresh access now handsOver) := by
  constructor <;> simp [fresh]

/-- A call that is made and ends at once, without an answer. -/
theorem Accounted.refused (h : Accounted s) (outcome : CallOutcome) (hno : ∀ host ok, outcome ≠ .answered host ok)
    (nextId : ℕ) (hnext : s.nextId ≤ nextId) (requested : List (PortCase × ℕ)) :
    Accounted ({ s with calls := s.calls + 1, nextId := nextId, requested := requested }.settle s.calls outcome) where
  once := by
    have honce := h.once
    simp only [settle, List.map_append, List.map_cons, List.map_nil, List.range_succ, ← List.append_assoc]
    exact honce.append_right _
  numbered waiting hwaiting := lt_of_lt_of_le (h.numbered waiting hwaiting) hnext
  distinct := h.distinct
  gone := h.gone
  asked := h.asked
  posted ask hask := Nat.lt_succ_of_lt (h.posted ask hask)
  askedOnce := h.askedOnce
  answered call host ok hsettled := by
    rcases List.mem_append.1 hsettled with hbefore | hnow
    · exact h.answered call host ok hbefore
    · cases List.mem_singleton.1 hnow
      exact absurd rfl (hno host ok)

/-- A call that is posted. -/
theorem Accounted.sent (h : Accounted s) (hstands : s.closed = false ∧ s.dead = false) (portCase : PortCase)
    (requested : List (PortCase × ℕ)) :
    Accounted { s with
      calls := s.calls + 1
      nextId := s.nextId + 1
      pending := s.pending ++ [(⟨s.nextId, s.calls, portCase⟩ : PendingCall)]
      asked := s.asked ++ [(s.calls, s.held, portCase)]
      requested := requested } where
  once := by
    have honce := h.once.append_right [s.calls]
    simp only [List.map_append, List.map_cons, List.map_nil, List.range_succ]
    refine .trans ?_ honce
    rw [List.append_assoc, List.append_assoc]
    exact List.perm_append_comm.append_left _
  numbered waiting hwaiting := by
    rcases List.mem_append.1 hwaiting with hbefore | hnow
    · exact Nat.lt_succ_of_lt (h.numbered waiting hbefore)
    · cases List.mem_singleton.1 hnow
      exact Nat.lt_succ_self _
  distinct := by
    rw [List.map_append, List.nodup_append]
    refine ⟨h.distinct, by simp, ?_⟩
    rintro id hid id' hid' rfl
    obtain ⟨waiting, hwaiting, rfl⟩ := List.mem_map.1 hid
    have hlt := h.numbered waiting hwaiting
    simp only [List.map_cons, List.map_nil, List.mem_singleton] at hid'
    omega
  gone hgone := by simp [hstands] at hgone
  asked waiting hwaiting := by
    rcases List.mem_append.1 hwaiting with hbefore | hnow
    · exact List.mem_append_left _ (h.asked waiting hbefore)
    · cases List.mem_singleton.1 hnow
      simp
  posted ask hask := by
    rcases List.mem_append.1 hask with hbefore | hnow
    · exact Nat.lt_succ_of_lt (h.posted ask hbefore)
    · cases List.mem_singleton.1 hnow
      exact Nat.lt_succ_self _
  askedOnce := by
    rw [List.map_append, List.nodup_append]
    refine ⟨h.askedOnce, by simp, ?_⟩
    rintro call hcall call' hcall' rfl
    obtain ⟨ask, hask, rfl⟩ := List.mem_map.1 hcall
    have hlt := h.posted ask hask
    simp only [List.map_cons, List.map_nil, List.mem_singleton] at hcall'
    omega
  answered call host ok hsettled := by
    obtain ⟨portCase, hasked⟩ := h.answered call host ok hsettled
    exact ⟨portCase, List.mem_append_left _ hasked⟩

theorem Accounted.request (h : Accounted s) (hkept : Kept o s) (portCase : PortCase) (posts : Bool) :
    Accounted (s.request portCase posts) := by
  unfold Port.request
  split
  · exact h.refused _ (by simp) s.nextId le_rfl _
  · next hclosed =>
    split
    · exact h.refused _ (by simp) s.nextId le_rfl _
    · next htold =>
      -- a port that was told of no death stands
      have hdead : s.dead = false := by
        by_contra hne
        simp only [Bool.not_eq_false] at hne
        simp [hne, hkept.told hne] at htold
      split
      · exact h.sent ⟨by simpa using hclosed, hdead⟩ portCase _
      · exact h.refused .unsent (by simp) (s.nextId + 1) (Nat.le_succ _) _

theorem Accounted.answer (h : Accounted s) (id : ℕ) (ok : Bool) : Accounted (s.answer id ok) := by
  unfold Port.answer
  split
  · exact h
  · next waiting hfind =>
    have hmem := List.mem_of_find?_eq_some hfind
    have hid : waiting.id = id := by simpa using List.find?_some hfind
    -- no other call in flight carries the number
    have htaken : s.pending.Perm (waiting :: s.pending.filter fun waiting => waiting.id ≠ id) := by
      have hothers : (s.pending.filter fun other => other.id ≠ id) = s.pending.erase waiting := by
        rw [h.distinct.of_map.erase_eq_filter]
        refine List.filter_congr fun other hother => ?_
        have hinj := List.inj_on_of_nodup_map h.distinct hother hmem
        rw [hid] at hinj
        by_cases heq : other = waiting
        · simp [heq, hid]
        · have hne : other.id ≠ id := fun hsame => heq (hinj hsame)
          simp [heq, hne]
      rw [hothers]
      exact List.perm_cons_erase hmem
    have hstill : ∀ other ∈ s.pending.filter fun waiting => waiting.id ≠ id, other ∈ s.pending :=
      fun other hother => (List.mem_filter.1 hother).1
    exact {
      once := by
        refine .trans ?_ h.once
        refine .trans ?_ ((htaken.map PendingCall.call).append_right _).symm
        simp only [settle, List.map_append, List.map_cons, List.map_nil]
        rw [← List.append_assoc]
        exact List.perm_append_comm
      numbered := fun other hother => h.numbered other (hstill other hother)
      distinct := (List.filter_sublist.map _).nodup h.distinct
      gone := fun hgone => by simp [h.gone hgone]
      asked := fun other hother => h.asked other (hstill other hother)
      posted := h.posted
      askedOnce := h.askedOnce
      answered := fun call host ok' hsettled => by
        rcases List.mem_append.1 hsettled with hbefore | hnow
        · exact h.answered call host ok' hbefore
        · cases List.mem_singleton.1 hnow
          exact ⟨waiting.portCase, h.asked waiting hmem⟩ }

/-- Every call in flight is ended, without an answer. -/
theorem Accounted.rejectAll (h : Accounted s) (outcome : CallOutcome) (hno : ∀ host ok, outcome ≠ .answered host ok) :
    Accounted (s.rejectAll outcome) where
  once := by
    refine .trans ?_ h.once
    simp only [Port.rejectAll, List.map_nil, List.nil_append, List.map_append, List.map_map]
    exact List.perm_append_comm
  numbered := by simp [Port.rejectAll]
  distinct := by simp [Port.rejectAll]
  gone _ := rfl
  asked := by simp [Port.rejectAll]
  posted := h.posted
  askedOnce := h.askedOnce
  answered call host ok hsettled := by
    rcases List.mem_append.1 hsettled with hbefore | hnow
    · exact h.answered call host ok hbefore
    · obtain ⟨waiting, -, heq⟩ := List.mem_map.1 hnow
      exact absurd (congrArg Prod.snd heq) (hno host ok)

theorem Accounted.died (h : Accounted s) (cause : DeathCause) (probe : Probe) : Accounted (s.died o cause probe) := by
  have h' := h.rejectAll (.hostDied (s.deathOf o)) (by simp)
  exact ⟨h'.once, h'.numbered, h'.distinct, fun _ => rfl, h'.asked, h'.posted, h'.askedOnce, h'.answered⟩

theorem Accounted.move (h : Accounted s) (hkept : Kept o s) (hmove : Move o event s s') : Accounted s' := by
  cases hmove with
  | asks portCase posts => exact h.request hkept portCase posts
  | answers id ok => exact h.answer id ok
  | alive probe =>
    have h' := h.answer probe.id true
    exact ⟨h'.once, h'.numbered, h'.distinct, h'.gone, h'.asked, h'.posted, h'.askedOnce, h'.answered⟩
  | refuses probe => exact (h.answer probe.id false).died _ _
  | unanswered probe => exact h.died _ _
  | probes =>
    have h' := h.request hkept .ping true
    exact ⟨h'.once, h'.numbered, h'.distinct, h'.gone, h'.asked, h'.posted, h'.askedOnce, h'.answered⟩
  | unposted => exact (h.request hkept .ping false).died _ _
  | reopens access stands due =>
    -- the host before was dead, so no call is in flight
    have hnone : s.pending = [] := h.gone (.inr (hkept.due due).2.1)
    exact ⟨h.once, h.numbered, h.distinct, fun _ => hnone, by simp [reopened, hnone], h.posted, h.askedOnce, h.answered⟩
  | ends =>
    have h' := h.rejectAll (.portClosed true) (by simp)
    exact ⟨h'.once, h'.numbered, h'.distinct, fun _ => rfl, h'.asked, h'.posted, h'.askedOnce, h'.answered⟩
  | quiesces =>
    exact ⟨h.once, fun waiting hwaiting => Nat.lt_succ_of_lt (h.numbered waiting hwaiting), h.distinct, h.gone, h.asked,
      h.posted, h.askedOnce, h.answered⟩
  | _ => exact ⟨h.once, h.numbered, h.distinct, h.gone, h.asked, h.posted, h.askedOnce, h.answered⟩

/-- **Every call is accounted for.** Over whole runs, each call of the port is in flight or ended, once;
none is in flight when the host is dead or the port closed; and a call that was answered was asked once,
of the host that answered it. -/
theorem port_settles (o : UsedPortOptions) (access : HostAccess) (now : ℕ) (handsOver prepared posts : Bool)
    (events : List PortEvent) (s : Port) (hrun : (connected o access now handsOver prepared posts).run o events = some s) :
    (s.pending.map PendingCall.call ++ s.settled.map Prod.fst).Perm (List.range s.calls) ∧
      (s.closed = true ∨ s.dead = true → s.pending = []) ∧
      ∀ call host ok, (call, .answered host ok) ∈ s.settled →
        ∃ portCase, (call, host, portCase) ∈ s.asked ∧ ∀ ask ∈ s.asked, ask.1 = call → ask = (call, host, portCase) := by
  obtain ⟨-, h⟩ := run_connected (accounted_fresh access now handsOver)
    (fun event _ s s' hkept h hmove => h.move hkept hmove) hrun
  refine ⟨h.once, h.gone, fun call host ok hsettled => ?_⟩
  obtain ⟨portCase, hasked⟩ := h.answered call host ok hsettled
  exact ⟨portCase, hasked, fun ask hask hsame => List.inj_on_of_nodup_map h.askedOnce hask hasked hsame⟩

/-- The options of a port that was told nothing. -/
def defaultOptions : UsedPortOptions := ⟨some 5000, 5, 500, 30000, 60000⟩

/-- One call is answered, the host falls silent with another in flight, and is replaced; its answer
comes too late. -/
def silenced : List PortEvent :=
  [.call .progress true, .call .query true, .message 0 (.response 1 true false), .wait 5000, .watchTimer true,
    .wait 5000, .probeTimer, .wait 500, .restartTimer (some ⟨true, true⟩) fun _ => true,
    .message 0 (.response 2 true false), .call .progress true]

theorem port_settles_silenced :
    ∃ s, (connected defaultOptions ⟨true, true⟩ 0 false false true).run defaultOptions silenced = some s ∧
      (s.pending.map PendingCall.call ++ s.settled.map Prod.fst).Perm (List.range s.calls) ∧
      (s.closed = true ∨ s.dead = true → s.pending = []) ∧
      ∀ call host ok, (call, .answered host ok) ∈ s.settled →
        ∃ portCase, (call, host, portCase) ∈ s.asked ∧ ∀ ask ∈ s.asked, ask.1 = call → ask = (call, host, portCase) := by
  obtain ⟨s, hs⟩ : ∃ s, (connected defaultOptions ⟨true, true⟩ 0 false false true).run defaultOptions silenced = some s :=
    ⟨_, rfl⟩
  exact ⟨s, hs, port_settles _ _ _ _ _ _ _ _ hs⟩

end Port

end Etherfold
