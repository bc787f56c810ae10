import Etherfold.Ledger.Contiguous
import Etherfold.Fetch.Planner

/-!
# The answers of several requests

The requests of one range are issued by a bounded pool of workers, in whatever
order the node answers, and their answers are merged: concatenated in request
order, sorted by position, and freed of logs that repeat the one before.

* `issueRequestsBounded_eq`: **the pool answers as the sequential loop**, with
  the failure of the lowest request or with every answer in request order.
* `mergeLogs_iff`: the merge is the set of logs exactly when no other log stands
  between two answers of one log at its position.
* `getLogsWithVariousFilters_iff`: **when the answers of a range are merged** into
  the set of their logs, and what surfaces when a request fails.
-/

namespace Etherfold

/-! ### The pool of workers -/

/-- The requests taken so far: answered, failed or in flight. -/
structure Pool (L E : Type) where
  results : List (Option (List L))
  failures : List (ℕ × E)
  nextIndex : ℕ
  inFlight : List ℕ
  deriving DecidableEq, Repr

namespace Pool

variable {L E : Type}

/-- A worker takes the next unclaimed request, unless one has failed or none is left. -/
def claim (total : ℕ) (p : Pool L E) : Pool L E :=
  if p.failures.isEmpty ∧ p.nextIndex < total then
    { p with nextIndex := p.nextIndex + 1, inFlight := p.inFlight ++ [p.nextIndex] }
  else p

/-- Every worker has taken its first request. -/
def start (bound total : ℕ) : Pool L E :=
  (claim total)^[min bound total] ⟨List.replicate total none, [], 0, []⟩

/-- A request in flight is answered: its worker goes on, or stops with its failure. -/
def settle (answers : ℕ → Except E (List L)) (total index : ℕ) (p : Pool L E) : Pool L E :=
  let p := { p with inFlight := p.inFlight.erase index }
  match answers index with
  | .ok logs => { p with results := p.results.set index (some logs) }.claim total
  | .error error => { p with failures := p.failures ++ [(index, error)] }

/-- Answer the requests in flight, in the order the schedule picks them, until every
worker is done. -/
def drain (answers : ℕ → Except E (List L)) (total : ℕ) (schedule : ℕ → ℕ) : ℕ → Pool L E → Pool L E
  | 0, p => p
  | fuel + 1, p =>
    match p.inFlight[schedule fuel % p.inFlight.length]? with
    | none => p
    | some index => drain answers total schedule fuel (p.settle answers total index)

/-- The failure of the lowest request. -/
def earliest : List (ℕ × E) → Option (ℕ × E)
  | [] => none
  | failure :: failures =>
    some (failures.foldl (fun earliest failure => if failure.1 < earliest.1 then failure else earliest) failure)

/-- How many answers are still to come. -/
def pending (total : ℕ) (p : Pool L E) : ℕ := p.inFlight.length + (total - p.nextIndex)

end Pool

section Issue

variable {L E : Type}

/-- **Issue the requests concurrently but bounded**: the answers in request order, or the
failure of the lowest request. -/
def issueRequestsBounded (bound total : ℕ) (answers : ℕ → Except E (List L)) (schedule : ℕ → ℕ) :
    Except E (List (Option (List L))) :=
  let p := (Pool.start bound total).drain answers total schedule total
  match Pool.earliest p.failures with
  | some failure => .error failure.2
  | none => .ok p.results

/-- The loop that asks one request after another and stops at the first failure. -/
def sequential (answers : ℕ → Except E (List L)) : ℕ → Except E (List (List L))
  | 0 => .ok []
  | total + 1 =>
    match sequential answers total with
    | .error error => .error error
    | .ok answered =>
      match answers total with
      | .error error => .error error
      | .ok logs => .ok (answered ++ [logs])

namespace Pool

/-- What is known of a pool: the requests taken are a prefix, and each of them is in
flight, failed or answered as the node answers it. -/
structure Sound (answers : ℕ → Except E (List L)) (total : ℕ) (p : Pool L E) : Prop where
  next_le : p.nextIndex ≤ total
  inFlight_lt : ∀ i ∈ p.inFlight, i < p.nextIndex
  inFlight_nodup : p.inFlight.Nodup
  failed : ∀ f ∈ p.failures, f.1 < p.nextIndex ∧ answers f.1 = .error f.2
  settled : ∀ i < p.nextIndex, i ∉ p.inFlight →
    (∃ error, (i, error) ∈ p.failures) ∨ ∃ logs, answers i = .ok logs ∧ p.results[i]? = some (some logs)
  size : p.results.length = total

/-- While nothing has failed and a request is left, a worker is waiting for an answer. -/
def Busy (total : ℕ) (p : Pool L E) : Prop := p.failures = [] → p.nextIndex < total → p.inFlight ≠ []

variable {answers : ℕ → Except E (List L)} {total : ℕ} {p : Pool L E}

theorem Sound.claim (h : p.Sound answers total) : (p.claim total).Sound answers total := by
  unfold Pool.claim
  split
  · rename_i hc
    refine ⟨by simp; omega, fun i hi => ?_, ?_, fun f hf => ?_, fun i hi hout => ?_, h.size⟩
    · rcases List.mem_append.1 hi with hi | hi
      · exact (h.inFlight_lt i hi).trans (Nat.lt_succ_self _)
      · simp at hi
        simp [hi]
    · refine h.inFlight_nodup.append (by simp) fun i hi hnext => ?_
      have hlt := h.inFlight_lt i hi
      simp at hnext
      omega
    · obtain ⟨hlt, herr⟩ := h.failed f hf
      exact ⟨hlt.trans (Nat.lt_succ_self _), herr⟩
    · simp at hi hout
      exact h.settled i (by omega) hout.1
  · exact h

theorem claim_busy : (p.claim total).Busy total := by
  unfold Pool.claim
  split
  · intro _ _
    simp
  · rename_i hc
    intro hf hlt
    exact absurd ⟨by simp [hf], hlt⟩ hc

@[simp] theorem claim_pending : (p.claim total).pending total = p.pending total := by
  unfold Pool.claim
  split
  · simp [pending]
    omega
  · rfl

theorem start_sound (bound : ℕ) : (start bound total : Pool L E).Sound answers total := by
  unfold start
  generalize min bound total = workers
  induction workers with
  | zero => exact ⟨by simp, by simp, by simp, by simp, by simp, by simp⟩
  | succ workers ih =>
    rw [Function.iterate_succ_apply']
    exact ih.claim

theorem start_busy {bound : ℕ} (hb : 0 < bound) : (start bound total : Pool L E).Busy total := by
  intro hf hlt
  obtain ⟨workers, hw⟩ : ∃ workers, min bound total = workers + 1 :=
    ⟨min bound total - 1, by
      have : (start bound total : Pool L E).nextIndex < total := hlt
      omega⟩
  revert hf hlt
  unfold start
  rw [hw, Function.iterate_succ_apply']
  exact claim_busy

@[simp] theorem start_pending (bound : ℕ) : (start bound total : Pool L E).pending total = total := by
  unfold start
  generalize min bound total = workers
  induction workers with
  | zero => simp [pending]
  | succ workers ih => rw [Function.iterate_succ_apply', claim_pending, ih]

theorem Sound.settle (h : p.Sound answers total) {index : ℕ} (hi : index ∈ p.inFlight) :
    (p.settle answers total index).Sound answers total := by
  have hlt := h.inFlight_lt index hi
  unfold Pool.settle
  dsimp only
  split
  · rename_i logs hans
    refine Sound.claim ⟨h.next_le, fun i hi => h.inFlight_lt i (List.mem_of_mem_erase hi),
      h.inFlight_nodup.erase _, h.failed, fun i hlt' hout => ?_, by simpa using h.size⟩
    by_cases heq : i = index
    · subst heq
      have hroom : i < p.results.length := by
        rw [h.size]
        exact hlt.trans_le h.next_le
      exact .inr ⟨logs, hans, List.getElem?_set_self hroom⟩
    · rcases h.settled i hlt' fun hmem => hout ((List.mem_erase_of_ne heq).2 hmem) with hf | ⟨logs, ha, hr⟩
      · exact .inl hf
      · exact .inr ⟨logs, ha, by rw [List.getElem?_set_ne (Ne.symm heq)]; exact hr⟩
  · rename_i error hans
    refine ⟨h.next_le, fun i hi => h.inFlight_lt i (List.mem_of_mem_erase hi), h.inFlight_nodup.erase _,
      fun f hf => ?_, fun i hlt' hout => ?_, h.size⟩
    · rcases List.mem_append.1 hf with hf | hf
      · exact h.failed f hf
      · rw [List.mem_singleton.1 hf]
        exact ⟨hlt, hans⟩
    · by_cases heq : i = index
      · exact .inl ⟨error, by simp [heq]⟩
      · rcases h.settled i hlt' fun hmem => hout ((List.mem_erase_of_ne heq).2 hmem) with ⟨e, hf⟩ | hok
        · exact .inl ⟨e, List.mem_append_left _ hf⟩
        · exact .inr hok

theorem settle_busy {index : ℕ} : (p.settle answers total index).Busy total := by
  unfold Pool.settle
  dsimp only
  split
  · exact claim_busy
  · intro hf
    simp at hf

theorem settle_pending {index : ℕ} (hi : index ∈ p.inFlight) :
    (p.settle answers total index).pending total + 1 = p.pending total := by
  have hlen : (p.inFlight.erase index).length + 1 = p.inFlight.length := by
    have := List.length_pos_of_mem hi
    rw [List.length_erase_of_mem hi]
    omega
  unfold Pool.settle
  dsimp only
  split
  · rw [claim_pending]
    simp only [pending]
    omega
  · simp only [pending]
    omega

/-- **Every schedule ends**: with a step for every pending answer nothing stays in flight. -/
theorem drain_sound (h : p.Sound answers total) (hb : p.Busy total) (schedule : ℕ → ℕ) {fuel : ℕ}
    (hfuel : p.pending total ≤ fuel) :
    (p.drain answers total schedule fuel).Sound answers total ∧
      (p.drain answers total schedule fuel).Busy total ∧
      (p.drain answers total schedule fuel).inFlight = [] := by
  induction fuel generalizing p with
  | zero =>
    refine ⟨h, hb, List.length_eq_zero_iff.1 ?_⟩
    simp only [pending] at hfuel
    show p.inFlight.length = 0
    omega
  | succ fuel ih =>
    unfold drain
    split
    · rename_i hnone
      refine ⟨h, hb, ?_⟩
      by_contra hne
      have hpos := List.length_pos_iff.2 hne
      have hge := List.getElem?_eq_none_iff.1 hnone
      have hmod := Nat.mod_lt (schedule fuel) hpos
      omega
    · rename_i index hsome
      have hi : index ∈ p.inFlight := List.mem_of_getElem? hsome
      have hstep : (p.settle answers total index).pending total + 1 = p.pending total := settle_pending hi
      exact ih (h.settle hi) settle_busy (by omega)

/-- The failure kept is the lowest one. -/
theorem earliest_spec {failures : List (ℕ × E)} {failure : ℕ × E} (h : earliest failures = some failure) :
    failure ∈ failures ∧ ∀ f ∈ failures, failure.1 ≤ f.1 := by
  obtain _ | ⟨first, rest⟩ := failures
  · cases h
  · injection h with h
    subst h
    induction rest generalizing first with
    | nil => simp
    | cons next rest ih =>
      simp only [List.foldl_cons]
      split
      · rename_i hlt
        obtain ⟨hmem, hle⟩ := ih next
        refine ⟨List.mem_cons_of_mem _ hmem, fun f hf => ?_⟩
        rcases List.mem_cons.1 hf with rfl | hf
        · exact (hle next (by simp)).trans hlt.le
        · exact hle f hf
      · rename_i hge
        obtain ⟨hmem, hle⟩ := ih first
        refine ⟨?_, fun f hf => ?_⟩
        · rcases List.mem_cons.1 hmem with hmem | hmem
          · rw [hmem]
            exact List.mem_cons_self
          · exact List.mem_cons_of_mem _ (List.mem_cons_of_mem _ hmem)
        · rcases List.mem_cons.1 hf with rfl | hf
          · exact hle f (by simp)
          · rcases List.mem_cons.1 hf with rfl | hf
            · exact (hle first (by simp)).trans (not_lt.1 hge)
            · exact hle f (List.mem_cons_of_mem _ hf)

end Pool

variable {answers : ℕ → Except E (List L)} {total : ℕ}

/-- The loop ends with every answer, in order. -/
theorem sequential_ok {answered : List (List L)} (h : sequential answers total = .ok answered) :
    answered.length = total ∧ ∀ i < total, ∃ logs, answered[i]? = some logs ∧ answers i = .ok logs := by
  induction total generalizing answered with
  | zero =>
    injection h with h
    simp [← h]
  | succ total ih =>
    unfold sequential at h
    split at h
    · cases h
    rename_i before hbefore
    split at h
    · cases h
    rename_i logs hlogs
    injection h with h
    obtain ⟨hlen, hall⟩ := ih hbefore
    refine ⟨by simp [← h, hlen], fun i hi => ?_⟩
    subst h
    rcases Nat.lt_succ_iff_lt_or_eq.1 hi with hi | rfl
    · rw [List.getElem?_append_left (by omega)]
      exact hall i hi
    · exact ⟨logs, by simp [← hlen], hlogs⟩

/-- The loop fails with a request before which none has failed. -/
theorem sequential_error {error : E} (h : sequential answers total = .error error) :
    ∃ i < total, answers i = .error error ∧ ∀ j < i, ∃ logs, answers j = .ok logs := by
  induction total with
  | zero => cases h
  | succ total ih =>
    unfold sequential at h
    split at h
    · rename_i first hfirst
      injection h with h
      subst h
      obtain ⟨i, hi, hrest⟩ := ih hfirst
      exact ⟨i, by omega, hrest⟩
    · rename_i before hbefore
      split at h
      · rename_i last hlast
        injection h with h
        subst h
        exact ⟨total, by omega, hlast, fun j hj => (sequential_ok hbefore).2 j hj |>.imp fun _ hlogs => hlogs.2⟩
      · cases h

theorem sequential_eq_error {error : E} {i : ℕ} (hi : i < total) (herr : answers i = .error error)
    (hbefore : ∀ j < i, ∃ logs, answers j = .ok logs) : sequential answers total = .error error := by
  cases hseq : sequential answers total with
  | ok answered =>
    obtain ⟨logs, -, hok⟩ := (sequential_ok hseq).2 i hi
    rw [herr] at hok
    cases hok
  | error first =>
    obtain ⟨k, hk, hkerr, hkbefore⟩ := sequential_error hseq
    -- neither of the two failures stands before the other
    rcases Nat.lt_trichotomy i k with hlt | rfl | hlt
    · obtain ⟨logs, hok⟩ := hkbefore i hlt
      rw [herr] at hok
      cases hok
    · rw [herr] at hkerr
      injection hkerr with hkerr
      rw [hkerr]
    · obtain ⟨logs, hok⟩ := hbefore k hlt
      rw [hkerr] at hok
      cases hok

/-- **The pool answers as the sequential loop**, whatever order the node answers in. -/
theorem issueRequestsBounded_eq {bound : ℕ} (hb : 0 < bound) (schedule : ℕ → ℕ) :
    issueRequestsBounded bound total answers schedule =
      (sequential answers total).map fun answered => answered.map some := by
  have hstart : (Pool.start bound total : Pool L E).Sound answers total := Pool.start_sound bound
  obtain ⟨hsound, hbusy, hdone⟩ :=
    Pool.drain_sound hstart (Pool.start_busy hb) schedule (Pool.start_pending bound).le
  unfold issueRequestsBounded
  dsimp only
  set p := (Pool.start bound total).drain answers total schedule total
  have hsettled : ∀ i < p.nextIndex, (∃ error, (i, error) ∈ p.failures) ∨
      ∃ logs, answers i = .ok logs ∧ p.results[i]? = some (some logs) := fun i hi =>
    hsound.settled i hi (by simp [hdone])
  split
  · rename_i failure hfailure
    obtain ⟨hmem, hlow⟩ := Pool.earliest_spec hfailure
    obtain ⟨hlt, herr⟩ := hsound.failed failure hmem
    have hbefore : ∀ j < failure.1, ∃ logs, answers j = .ok logs := by
      intro j hj
      rcases hsettled j (hj.trans hlt) with ⟨error, hf⟩ | ⟨logs, hok, -⟩
      · have := hlow _ hf
        dsimp only at this
        omega
      · exact ⟨logs, hok⟩
    rw [sequential_eq_error (hlt.trans_le hsound.next_le) herr hbefore]
    rfl
  · rename_i hnone
    have hno : p.failures = [] := by
      cases hf : p.failures with
      | nil => rfl
      | cons f rest => simp [hf, Pool.earliest] at hnone
    have hall : p.nextIndex = total := by
      by_contra hne
      exact hbusy hno (lt_of_le_of_ne hsound.next_le hne) hdone
    have hok : ∀ i < total, ∃ logs, answers i = .ok logs ∧ p.results[i]? = some (some logs) := by
      intro i hi
      rcases hsettled i (by omega) with ⟨error, hf⟩ | hok
      · simp [hno] at hf
      · exact hok
    cases hseq : sequential answers total with
    | error error =>
      obtain ⟨i, hi, herr, -⟩ := sequential_error hseq
      obtain ⟨logs, hlogs, -⟩ := hok i hi
      rw [herr] at hlogs
      cases hlogs
    | ok answered =>
      obtain ⟨hlen, hanswered⟩ := sequential_ok hseq
      show Except.ok p.results = Except.ok (answered.map some)
      congr 1
      apply List.ext_getElem?
      intro i
      by_cases hi : i < total
      · obtain ⟨logs, hlogs, hres⟩ := hok i hi
        obtain ⟨logs', hget, hlogs'⟩ := hanswered i hi
        rw [hlogs] at hlogs'
        injection hlogs' with heq
        rw [hres, List.getElem?_map, hget, heq]
        rfl
      · rw [List.getElem?_eq_none (by rw [hsound.size]; omega), List.getElem?_eq_none (by simp; omega)]

/-- With an answer to every request the loop ends with all of them. -/
theorem sequential_eq_ok {answered : ℕ → List L} (h : ∀ i < total, answers i = .ok (answered i)) :
    sequential answers total = .ok ((List.range total).map answered) := by
  induction total with
  | zero => rfl
  | succ total ih =>
    unfold sequential
    rw [ih fun i hi => h i (by omega), h total (by omega)]
    simp [List.range_succ]

end Issue

/-! ### The merge -/

section Merge

variable {A T H : Type}

/-- The order of the merge: by block, then by index. -/
def compareLogs (a b : IncludedLog A T H) : ℤ :=
  if a.blockNumber > b.blockNumber then 1
  else if a.blockNumber < b.blockNumber then -1
  else if a.logIndex > b.logIndex then 1
  else if a.logIndex < b.logIndex then -1
  else 0

/-- The log added last is answered once more. -/
def repeats (lastAdded log : IncludedLog A T H) : Prop :=
  log.blockHash = lastAdded.blockHash ∧ log.logIndex = lastAdded.logIndex

instance [DecidableEq H] (lastAdded log : IncludedLog A T H) : Decidable (repeats lastAdded log) := by
  unfold repeats
  infer_instance

/-- Keep what does not repeat the log added last. -/
def dropRepeats [DecidableEq H] (lastAdded : Option (IncludedLog A T H)) :
    List (IncludedLog A T H) → List (IncludedLog A T H)
  | [] => []
  | log :: rest =>
    if lastAdded.any fun lastAdded => repeats lastAdded log then dropRepeats lastAdded rest
    else log :: dropRepeats (some log) rest

/-- The logs of several answers, sorted and freed of neighbours that repeat. -/
def mergeLogs [DecidableEq H] (logs : List (IncludedLog A T H)) : List (IncludedLog A T H) :=
  dropRepeats none (logs.insertionSort fun a b => compareLogs a b ≤ 0)

/-- The logs of all answers, each once, in order. -/
structure IsUnion (logs out : List (IncludedLog A T H)) : Prop where
  nodup : out.Nodup
  mem : ∀ log, log ∈ out ↔ log ∈ logs
  ordered : out.Pairwise fun a b => compareLogs a b ≤ 0

/-- No other log stands between two answers of one log at its position. -/
def Uninterleaved (logs : List (IncludedLog A T H)) : Prop :=
  ∀ a b, [a, b, a].Sublist logs → a.blockNumber = b.blockNumber → a.logIndex = b.logIndex → a = b

theorem compareLogs_le_iff {a b : IncludedLog A T H} :
    compareLogs a b ≤ 0 ↔
      a.blockNumber < b.blockNumber ∨ a.blockNumber = b.blockNumber ∧ a.logIndex ≤ b.logIndex := by
  unfold compareLogs
  split_ifs <;> omega

instance : Std.Total fun a b : IncludedLog A T H => compareLogs a b ≤ 0 :=
  ⟨fun a b => by simp only [compareLogs_le_iff]; omega⟩

instance : IsTrans (IncludedLog A T H) fun a b => compareLogs a b ≤ 0 :=
  ⟨fun a b c => by simp only [compareLogs_le_iff]; omega⟩

/-- The sort moves no log past another of its position. -/
theorem contiguous_sorted_iff {logs : List (IncludedLog A T H)} :
    Contiguous (logs.insertionSort fun a b => compareLogs a b ≤ 0) ↔ Uninterleaved logs := by
  set sorted := logs.insertionSort fun a b => compareLogs a b ≤ 0 with hsorted
  have hclass : ∀ a : IncludedLog A T H,
      sorted.filter (fun x => x.blockNumber = a.blockNumber ∧ x.logIndex = a.logIndex) =
        logs.filter fun x => x.blockNumber = a.blockNumber ∧ x.logIndex = a.logIndex := fun a =>
    filter_insertionSort (fun x y hx hy => by
      simp only [decide_eq_true_eq] at hx hy
      rw [compareLogs_le_iff]
      omega) logs
  have hthree : ∀ a b : IncludedLog A T H, a.blockNumber = b.blockNumber → a.logIndex = b.logIndex →
      [a, b, a].filter (fun x => x.blockNumber = a.blockNumber ∧ x.logIndex = a.logIndex) = [a, b, a] :=
    fun a b hn hi => by simp [hn, hi]
  constructor
  · intro h a b hs hn hi
    have hf := hs.filter fun x => x.blockNumber = a.blockNumber ∧ x.logIndex = a.logIndex
    rw [hthree a b hn hi, ← hclass a] at hf
    exact h a b (hf.trans List.filter_sublist)
  · intro h a b hs
    have hpair := (List.pairwise_insertionSort (fun a b : IncludedLog A T H => compareLogs a b ≤ 0) logs).sublist hs
    obtain ⟨hab, hba⟩ : compareLogs a b ≤ 0 ∧ compareLogs b a ≤ 0 := by
      simp only [List.pairwise_cons, List.mem_cons] at hpair
      exact ⟨hpair.1 b (by simp), hpair.2.1 a (by simp)⟩
    rw [compareLogs_le_iff] at hab hba
    have hn : a.blockNumber = b.blockNumber := by omega
    have hi : a.logIndex = b.logIndex := by omega
    have hf := hs.filter fun x => x.blockNumber = a.blockNumber ∧ x.logIndex = a.logIndex
    rw [hthree a b hn hi, hclass a] at hf
    exact h a b (hf.trans List.filter_sublist) hn hi

variable [DecidableEq A] [DecidableEq T] [DecidableEq H]

theorem dropRepeats_eq {logs : List (IncludedLog A T H)} (h : ∀ a ∈ logs, ∀ b ∈ logs, repeats a b → a = b) :
    dropRepeats none logs = logs.destutter (· ≠ ·) := by
  have hiff : ∀ a ∈ logs, ∀ b ∈ logs, repeats a b ↔ a = b := fun a ha b hb =>
    ⟨h a ha b hb, fun heq => heq ▸ ⟨rfl, rfl⟩⟩
  cases logs with
  | nil => rfl
  | cons first rest =>
    rw [List.destutter_cons']
    show first :: dropRepeats (some first) rest = _
    clear h
    induction rest generalizing first with
    | nil => rfl
    | cons log rest ih =>
      rw [List.destutter'_cons, dropRepeats]
      by_cases heq : first = log
      · subst heq
        rw [if_pos (by simp [repeats]), if_neg (by simp)]
        exact ih first fun a ha b hb => hiff a (List.mem_cons_of_mem _ ha) b (List.mem_cons_of_mem _ hb)
      · have hno : ¬ repeats first log := fun hr => heq ((hiff first (by simp) log (by simp)).1 hr)
        rw [if_neg (by simpa using hno), if_pos heq]
        congr 1
        exact ih log fun a ha b hb => hiff a (List.mem_cons_of_mem _ ha) b (List.mem_cons_of_mem _ hb)

/-- **The merge is the union** exactly when no other log stands between two answers of one. -/
theorem mergeLogs_iff {logs : List (IncludedLog A T H)} (h : ∀ a ∈ logs, ∀ b ∈ logs, repeats a b → a = b) :
    IsUnion logs (mergeLogs logs) ↔ Uninterleaved logs := by
  set sorted := logs.insertionSort fun a b => compareLogs a b ≤ 0 with hsorted
  have hmem : ∀ log, log ∈ sorted ↔ log ∈ logs := fun log => List.mem_insertionSort _
  have hmerge : mergeLogs logs = sorted.destutter (· ≠ ·) :=
    dropRepeats_eq fun a ha b hb => h a ((hmem a).1 ha) b ((hmem b).1 hb)
  rw [← contiguous_sorted_iff, ← hsorted, ← nodup_destutter_iff, ← hmerge]
  refine ⟨fun hu => hu.nodup, fun hn => ⟨hn, fun log => ?_, ?_⟩⟩
  · rw [hmerge, mem_destutter_ne, hmem]
  · rw [hmerge]
    exact (List.pairwise_insertionSort _ _).sublist (List.destutter_sublist _ _)

end Merge

/-! ### The logs of one range -/

section Range

variable {A T H E : Type} [DecidableEq A] [DecidableEq T] [DecidableEq H]

/-- At most so many requests are in flight at once. -/
def maxConcurrentLogRequests : ℕ := 4

/-- The provider's answer to the request at an index of the list. -/
def answerTo (provider : ℕ → LogRequest A T → Except E (List (IncludedLog A T H)))
    (requests : List (LogRequest A T)) (index : ℕ) : Except E (List (IncludedLog A T H)) :=
  match requests[index]? with
  | none => .ok []
  | some request => provider index request

/-- **The logs of one range**: a single answer as the node gave it, several merged. -/
def getLogsWithVariousFilters (bound : ℕ)
    (provider : ℕ → LogRequest A T → Except E (List (IncludedLog A T H))) (schedule : ℕ → ℕ)
    (requests : List (LogRequest A T)) : Except E (List (IncludedLog A T H)) :=
  if requests.length = 1 then answerTo provider requests 0
  else
    match issueRequestsBounded bound requests.length (answerTo provider requests) schedule with
    | .error error => .error error
    | .ok results => .ok (mergeLogs (results.flatMap (·.getD [])))

/-- A block's hash and an index in it name one log, whenever the provider answers. -/
def Commits (provider : ℕ → LogRequest A T → Except E (List (IncludedLog A T H))) : Prop :=
  ∀ i request logs j request' logs', provider i request = .ok logs → provider j request' = .ok logs' →
    ∀ a ∈ logs, ∀ b ∈ logs', repeats a b → a = b

/-- A range answers with the set of its logs in every order of completion, and fails with
the failure of its lowest request. -/
structure MergesAnswers (provider : ℕ → LogRequest A T → Except E (List (IncludedLog A T H)))
    (requests : List (LogRequest A T)) (fetch : (ℕ → ℕ) → Except E (List (IncludedLog A T H))) : Prop where
  merged : ∀ answered : ℕ → List (IncludedLog A T H),
    (∀ i < requests.length, answerTo provider requests i = .ok (answered i)) →
    ∃ out, IsUnion ((List.range requests.length).flatMap answered) out ∧ ∀ schedule, fetch schedule = .ok out
  failed : ∀ i < requests.length, ∀ error, answerTo provider requests i = .error error →
    (∀ j < i, ∃ logs, answerTo provider requests j = .ok logs) → ∀ schedule, fetch schedule = .error error

/-- A single answer is in order and free of repetitions by itself, and of several answers
no other log stands between two of one log at its position. -/
def Mergeable (provider : ℕ → LogRequest A T → Except E (List (IncludedLog A T H)))
    (requests : List (LogRequest A T)) : Prop :=
  ∀ answered : ℕ → List (IncludedLog A T H),
    (∀ i < requests.length, answerTo provider requests i = .ok (answered i)) →
    if requests.length = 1 then
      (answered 0).Nodup ∧ (answered 0).Pairwise fun a b => compareLogs a b ≤ 0
    else Uninterleaved ((List.range requests.length).flatMap answered)

omit [DecidableEq A] [DecidableEq T] [DecidableEq H] in
theorem answerTo_repeats {provider : ℕ → LogRequest A T → Except E (List (IncludedLog A T H))}
    (hcommit : Commits provider) {requests : List (LogRequest A T)} {answered : ℕ → List (IncludedLog A T H)}
    (hanswered : ∀ i < requests.length, answerTo provider requests i = .ok (answered i))
    {a b : IncludedLog A T H} (ha : a ∈ (List.range requests.length).flatMap answered)
    (hb : b ∈ (List.range requests.length).flatMap answered) (h : repeats a b) : a = b := by
  have hprovider : ∀ i < requests.length, ∃ request, provider i request = .ok (answered i) := by
    intro i hi
    have hans := hanswered i hi
    unfold answerTo at hans
    rw [List.getElem?_eq_getElem hi] at hans
    exact ⟨_, hans⟩
  obtain ⟨i, hi, ha⟩ := List.mem_flatMap.1 ha
  obtain ⟨j, hj, hb⟩ := List.mem_flatMap.1 hb
  obtain ⟨request, hreq⟩ := hprovider i (List.mem_range.1 hi)
  obtain ⟨request', hreq'⟩ := hprovider j (List.mem_range.1 hj)
  exact hcommit i request _ j request' _ hreq hreq' a ha b hb h

omit [DecidableEq A] [DecidableEq T] in
/-- What several answers come to. -/
theorem getLogsWithVariousFilters_merged {bound : ℕ} (hb : 0 < bound)
    {provider : ℕ → LogRequest A T → Except E (List (IncludedLog A T H))} {requests : List (LogRequest A T)}
    (hn : requests.length ≠ 1) {answered : ℕ → List (IncludedLog A T H)}
    (hanswered : ∀ i < requests.length, answerTo provider requests i = .ok (answered i)) (schedule : ℕ → ℕ) :
    getLogsWithVariousFilters bound provider schedule requests =
      .ok (mergeLogs ((List.range requests.length).flatMap answered)) := by
  unfold getLogsWithVariousFilters
  rw [if_neg hn, issueRequestsBounded_eq hb, sequential_eq_ok hanswered]
  show Except.ok (mergeLogs _) = _
  congr 2
  simp [List.flatMap_map]

/-- **When the answers of a range are merged into the set of their logs**, whatever the
bound and the order of completion, with the failure of the lowest request where one fails. -/
theorem getLogsWithVariousFilters_iff {bound : ℕ} (hb : 0 < bound)
    {provider : ℕ → LogRequest A T → Except E (List (IncludedLog A T H))} (hcommit : Commits provider)
    (contractAddresses : Option (List A)) (eventNameTopics : Option (List T))
    (filters : Option (List (ExtraFilter A T))) :
    MergesAnswers provider (requestsOf contractAddresses eventNameTopics filters) (fun schedule =>
        getLogsWithVariousFilters bound provider schedule
          (requestsOf contractAddresses eventNameTopics filters)) ↔
      Mergeable provider (requestsOf contractAddresses eventNameTopics filters) := by
  set requests := requestsOf contractAddresses eventNameTopics filters
  by_cases hn : requests.length = 1
  · have hfetch : ∀ schedule, getLogsWithVariousFilters bound provider schedule requests =
        answerTo provider requests 0 := fun schedule => if_pos hn
    have hall : ∀ answered : ℕ → List (IncludedLog A T H),
        (List.range requests.length).flatMap answered = answered 0 := by
      intro answered
      simp [hn]
    constructor
    · intro h answered hanswered
      rw [if_pos hn]
      obtain ⟨out, hu, hout⟩ := h.merged answered hanswered
      have hsame := hout id
      rw [hfetch, hanswered 0 (by omega)] at hsame
      injection hsame with hsame
      exact ⟨hsame ▸ hu.nodup, hsame ▸ hu.ordered⟩
    · intro h
      refine ⟨fun answered hanswered => ⟨answered 0, ?_, fun schedule => ?_⟩, fun i hi error herr _ schedule => ?_⟩
      · have hc := h answered hanswered
        rw [if_pos hn] at hc
        rw [hall]
        exact ⟨hc.1, fun log => Iff.rfl, hc.2⟩
      · rw [hfetch, hanswered 0 (by omega)]
      · obtain rfl : i = 0 := by omega
        rw [hfetch, herr]
  · constructor
    · intro h answered hanswered
      rw [if_neg hn]
      obtain ⟨out, hu, hout⟩ := h.merged answered hanswered
      have hsame := hout id
      rw [getLogsWithVariousFilters_merged hb hn hanswered] at hsame
      injection hsame with hsame
      exact (mergeLogs_iff fun a ha b hb hr => answerTo_repeats hcommit hanswered ha hb hr).1 (hsame ▸ hu)
    · intro h
      refine ⟨fun answered hanswered => ⟨_, ?_, getLogsWithVariousFilters_merged hb hn hanswered⟩,
        fun i hi error herr hbefore schedule => ?_⟩
      · have hc := h answered hanswered
        rw [if_neg hn] at hc
        exact (mergeLogs_iff fun a ha b hb hr => answerTo_repeats hcommit hanswered ha hb hr).2 hc
      · unfold getLogsWithVariousFilters
        rw [if_neg hn, issueRequestsBounded_eq hb, sequential_eq_error hi herr hbefore]
        rfl

/-- One rule of three entries over the event `0`. -/
def threeEntries : List (LogRequest ℕ ℕ) :=
  requestsOf (some [7]) (some [0]) (some
    [.matching 0 (some [7]) [.topic 1], .matching 0 (some [7]) [.wildcard, .topic 2],
      .matching 0 (some [7]) [.topic 1, .topic 2]])

/-- The first log of block 5, of the fork whose hash is given. -/
def forkLog (hash : ℕ) : IncludedLog ℕ ℕ ℕ := ⟨5, hash, 0, 7, [0, hash, 2]⟩

/-- A node that answers each request from the fork it follows by then. -/
def forkedProvider (fork : ℕ → ℕ) : ℕ → LogRequest ℕ ℕ → Except String (List (IncludedLog ℕ ℕ ℕ)) :=
  fun i _ => .ok [forkLog (fork i)]

theorem forkedProvider_commits (fork : ℕ → ℕ) : Commits (forkedProvider fork) := by
  intro i request logs j request' logs' h h' a ha b hb hr
  injection h with h
  injection h' with h'
  subst h h'
  obtain rfl := List.mem_singleton.1 ha
  obtain rfl := List.mem_singleton.1 hb
  have hhash : fork j = fork i := hr.1
  rw [hhash]

/-- A node that leaves a fork and comes back to it has its log kept twice. -/
theorem forks_repeat :
    Commits (forkedProvider fun i => if i = 1 then 2 else 1) ∧
      ¬ MergesAnswers (forkedProvider fun i => if i = 1 then 2 else 1) threeEntries fun schedule =>
        getLogsWithVariousFilters maxConcurrentLogRequests (forkedProvider fun i => if i = 1 then 2 else 1)
          schedule threeEntries := by
  refine ⟨forkedProvider_commits _, fun h => ?_⟩
  obtain ⟨out, hu, hout⟩ := h.merged (fun i => [forkLog (if i = 1 then 2 else 1)]) fun i hi => by
    have hi : i < 3 := hi
    interval_cases i <;> rfl
  have htwice : Except.ok [forkLog 1, forkLog 2, forkLog 1] = Except.ok out := hout id
  injection htwice with htwice
  have hnodup := htwice ▸ hu.nodup
  exact absurd hnodup (by decide)

/-- A node that only moves on to another fork has each log kept once. -/
theorem moved_once :
    MergesAnswers (forkedProvider fun i => if i = 2 then 2 else 1) threeEntries fun schedule =>
      getLogsWithVariousFilters maxConcurrentLogRequests (forkedProvider fun i => if i = 2 then 2 else 1)
        schedule threeEntries := by
  refine (getLogsWithVariousFilters_iff (by decide) (forkedProvider_commits _) _ _ _).2 fun answered h => ?_
  have hlogs : ∀ i < 3, answered i = [forkLog (if i = 2 then 2 else 1)] := by
    intro i hi
    have hans := h i hi
    interval_cases i <;> injection hans with hans <;> exact hans.symm
  have hall : (List.range 3).flatMap answered = [forkLog 1, forkLog 1, forkLog 2] := by
    simp [List.range_succ, hlogs]
  show Uninterleaved ((List.range 3).flatMap answered)
  rw [hall]
  intro a b hs _ _
  -- three logs, the first of which is not the last
  have heq := hs.eq_of_length rfl
  simp only [List.cons.injEq] at heq
  exact heq.1.trans heq.2.1.symm

end Range

end Etherfold
