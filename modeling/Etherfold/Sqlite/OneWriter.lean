import Etherfold.Sqlite.Handles

/-!
# One writer at a time

Batches of several handles are executed in any order, and answered late or never. A handle that
has not been answered opens its next batch with the claim again, and so may take back a store
another handle has taken since.

* `Service.Careful`: no handle does that, and no packed batch is astride the tip.
* `oneWriter`: **a handle that has been superseded changes nothing and is told so**; between
  two changes of holder only the holder writes.
* `VersionedStateStore.Reaches`: the calls of a handle that is alone are runs of this kind.
-/

namespace Etherfold

open Versions Transaction

variable {X H C : Type} [DecidableEq H] {declarations : List NormalizedEntity}

namespace Service

/-- What an event does. -/
def step (w : Service X H C) : Event X H C → Service X H C
  | .send token statements => { w with flights := w.flights ++ [⟨token, !w.claimed token, statements⟩] }
  | .commit n =>
    match w.flights[n]? with
    | none => w
    | some f => { w with
        db := (f.transact w.db).2
        flights := w.flights.eraseIdx n
        answers := w.answers ++ [(f.token, (f.transact w.db).1)] }
  | .answer n =>
    match w.answers[n]? with
    | none => w
    | some (token, result) => { w with
        claimed := if result.isOk then Function.update w.claimed token true else w.claimed
        answers := w.answers.eraseIdx n }

def run (w : Service X H C) (events : List (Event X H C)) : Service X H C := events.foldl step w

/-- The batch an event executes. -/
def executed (w : Service X H C) : Event X H C → List (Flight X H C)
  | .commit n => (w.flights[n]?).toList
  | _ => []

/-- **The batches of a run**, in the order they are executed. -/
def committed (w : Service X H C) : List (Event X H C) → List (Flight X H C)
  | [] => []
  | e :: events => w.executed e ++ committed (w.step e) events

/-- What executed batches do, one after another. -/
def actions (flights : List (Flight X H C)) : List (Tenure.Action (Database X H C) String) := flights.map Flight.action

/-- The handle has held the store, and another has taken it since. -/
def Superseded (w : Service X H C) (events : List (Event X H C)) (token : String) : Prop :=
  Tenure.Superseded Database.writer w.db (actions (w.committed events)) token

instance (w : Service X H C) (events : List (Event X H C)) (token : String) : Decidable (w.Superseded events token) := by
  unfold Superseded
  infer_instance

/-- The batches of the calls, sent by handles with tokens. -/
def Sent (declarations : List NormalizedEntity) (events : List (Event X H C)) : Prop :=
  ∀ token statements, .send token statements ∈ events → token ≠ "" ∧ Sends declarations token statements

/-- **What may not happen**: that a batch which opens with the claim of a superseded handle is
executed, or one of which some blocks are above the tip and some below. -/
def Fits (db : Database X H C) (before : List (Flight X H C)) (now : Database X H C) (f : Flight X H C) : Prop :=
  (f.claims = true → ¬Tenure.Superseded Database.writer db (actions before) f.token) ∧ f.Level now

/-- No such batch is executed in a run. -/
def Careful (db : Database X H C) (before : List (Flight X H C)) (w : Service X H C) : List (Event X H C) → Prop
  | [] => True
  | e :: events => (∀ f ∈ w.executed e, Fits db before w.db f) ∧
    Careful db (before ++ w.executed e) (w.step e) events

instance (db : Database X H C) (before : List (Flight X H C)) (now : Database X H C) (f : Flight X H C) :
    Decidable (Fits db before now f) := by
  unfold Fits
  infer_instance

instance decidableCareful (db : Database X H C) (before : List (Flight X H C)) (w : Service X H C)
    (events : List (Event X H C)) : Decidable (Careful db before w events) := by
  induction events generalizing before w with
  | nil => exact instDecidableTrue
  | cons e events ih =>
    have := ih (before ++ w.executed e) (w.step e)
    unfold Careful
    infer_instance

variable {w : Service X H C}

omit [DecidableEq H] in
@[simp] theorem executed_commit (w : Service X H C) (n : ℕ) : w.executed (.commit n) = (w.flights[n]?).toList := rfl

theorem committed_cons (w : Service X H C) (e : Event X H C) (events : List (Event X H C)) :
    w.committed (e :: events) = w.executed e ++ (w.step e).committed events := rfl

omit [DecidableEq H] in
/-- An event executes one batch at most. -/
theorem length_executed (w : Service X H C) (e : Event X H C) : (w.executed e).length ≤ 1 := by
  cases e with
  | commit n =>
    rw [executed_commit]
    cases w.flights[n]? <;> simp
  | send token statements => exact Nat.zero_le _
  | answer n => exact Nat.zero_le _

theorem committed_append (w : Service X H C) (events rest : List (Event X H C)) :
    w.committed (events ++ rest) = w.committed events ++ (w.run events).committed rest := by
  induction events generalizing w with
  | nil => rfl
  | cons e events ih =>
    rw [List.cons_append]
    show w.executed e ++ (w.step e).committed (events ++ rest) = w.executed e ++ (w.step e).committed events ++ _
    rw [ih, List.append_assoc]
    rfl

theorem run_append (w : Service X H C) (events rest : List (Event X H C)) :
    w.run (events ++ rest) = (w.run events).run rest :=
  List.foldl_append

/-- What an event does to the database. -/
theorem db_step (w : Service X H C) (e : Event X H C) :
    (w.step e).db = Tenure.runAll w.db (actions (w.executed e)) := by
  cases e with
  | send token statements => rfl
  | commit n =>
    unfold step executed
    dsimp only
    cases w.flights[n]? <;> rfl
  | answer n =>
    unfold step
    dsimp only
    cases w.answers[n]? <;> rfl

/-- **The database is what the executed batches make of it.** -/
theorem db_run (w : Service X H C) (events : List (Event X H C)) :
    (w.run events).db = Tenure.runAll w.db (actions (w.committed events)) := by
  induction events generalizing w with
  | nil => rfl
  | cons e events ih =>
    have hrest := ih (w.step e)
    show ((w.step e).run events).db = _
    rw [hrest, db_step, committed_cons]
    unfold actions
    rw [List.map_append, Tenure.runAll_append]

/-- Every batch under way was sent. -/
theorem flights_step {events : List (Event X H C)} (hsent : Sent declarations events) {e : Event X H C}
    (he : e ∈ events) (hw : ∀ f ∈ w.flights, f.token ≠ "" ∧ Batched f.token f.statements) :
    ∀ f ∈ (w.step e).flights, f.token ≠ "" ∧ Batched f.token f.statements := by
  intro f hf
  cases e with
  | send token statements =>
    rcases List.mem_append.1 hf with hf | hf
    · exact hw f hf
    · rw [List.mem_singleton.1 hf]
      obtain ⟨htoken, hsends⟩ := hsent token statements he
      exact ⟨htoken, hsends.batched⟩
  | commit n =>
    unfold step at hf
    dsimp only at hf
    split at hf
    · exact hw f hf
    · exact hw f (List.mem_of_mem_eraseIdx hf)
  | answer n =>
    unfold step at hf
    dsimp only at hf
    split at hf
    · exact hw f hf
    · exact hw f hf

/-- What is executed is lawful. -/
theorem lawful_committed {events : List (Event X H C)} (hsent : Sent declarations events)
    (hw : ∀ f ∈ w.flights, f.token ≠ "" ∧ Batched f.token f.statements) :
    ∀ f ∈ w.committed events, f.token ≠ "" ∧ Batched f.token f.statements := by
  induction events generalizing w with
  | nil => exact fun f hf => absurd hf List.not_mem_nil
  | cons e events ih =>
    have hnext := flights_step hsent List.mem_cons_self hw
    intro f hf
    rcases List.mem_append.1 hf with hf | hf
    · cases e with
      | commit n => exact hw f (List.mem_of_getElem? (Option.mem_toList.1 hf))
      | send token statements => cases hf
      | answer n => cases hf
    · exact ih (fun token statements hmem => hsent token statements (List.mem_cons_of_mem _ hmem)) hnext f hf

/-- A careful run, where one of its batches is executed. -/
theorem Careful.fits {db : Database X H C} {before : List (Flight X H C)} {pre post : List (Event X H C)} {n : ℕ}
    (h : Careful db before w (pre ++ .commit n :: post)) {f : Flight X H C} (hf : (w.run pre).flights[n]? = some f) :
    Fits db (before ++ w.committed pre) (w.run pre).db f := by
  induction pre generalizing before w with
  | nil =>
    have hmem : f ∈ w.executed (.commit n) := by
      rw [executed_commit]
      exact Option.mem_toList.2 hf
    have hfits := h.1 f hmem
    rw [committed, List.append_nil]
    exact hfits
  | cons e pre ih =>
    have hrest := ih h.2 hf
    rw [List.append_assoc] at hrest
    exact hrest

/-- Superseded handles do not claim again in a careful run. -/
theorem Careful.fresh {db : Database X H C} {before : List (Flight X H C)} {events : List (Event X H C)}
    (h : Careful db before w events) (hbefore : Tenure.Fresh Database.writer db (actions before)) :
    Tenure.Fresh Database.writer db (actions (before ++ w.committed events)) := by
  induction events generalizing before w with
  | nil =>
    rw [committed, List.append_nil]
    exact hbefore
  | cons e events ih =>
    obtain ⟨hfits, hrest⟩ := h
    rw [committed, ← List.append_assoc]
    refine ih hrest ?_
    rcases hexec : w.executed e with _ | ⟨f, rest⟩
    · rw [List.append_nil]
      exact hbefore
    · have hlen := w.length_executed e
      rw [hexec, List.length_cons] at hlen
      obtain rfl : rest = [] := List.length_eq_zero_iff.1 (by omega)
      have hf := hexec
      have hfit := (hfits f (by rw [hf]; exact List.mem_singleton.2 rfl)).1
      unfold actions at hbefore hfit ⊢
      rw [List.map_append]
      exact hbefore.concat hfit

end Service

open Service

/-- **What holds of a run**: every batch applies whole or not at all and changes the store for its
own writer only, and one of a superseded handle changes nothing and is answered so; and while
one handle holds the store, what it holds is that handle's doing. -/
structure OneWriter (w : Service X H C) (events : List (Event X H C)) : Prop where
  whole : ∀ pre n post f, events = pre ++ .commit n :: post → (w.run pre).flights[n]? = some f →
    f.Whole (w.run pre).db
  owned : ∀ pre n post f, events = pre ++ .commit n :: post → (w.run pre).flights[n]? = some f →
    (f.transact (w.run pre).db).2 = (w.run pre).db ∨ (f.transact (w.run pre).db).2.writer = some f.token
  superseded : ∀ pre n post f, events = pre ++ .commit n :: post → (w.run pre).flights[n]? = some f →
    w.Superseded pre f.token → f.transact (w.run pre).db = (.error .writerChanged, (w.run pre).db)
  contents : ∀ pre mid post token, events = pre ++ mid ++ post →
    (∀ m, m <+: mid → (w.run (pre ++ m)).db.writer = some token) →
      (w.run (pre ++ mid)).db = (((w.run pre).committed mid).filter (·.token = token)).foldl
        (fun db f => (f.transact db).2) (w.run pre).db

/-- The states of a run between two batches. -/
theorem exists_take {w : Service X H C} (mid : List (Event X H C)) {i : ℕ} (hi : i ≤ (w.committed mid).length) :
    ∃ m, m <+: mid ∧ (w.run m).db = Tenure.runAll w.db (actions ((w.committed mid).take i)) := by
  induction mid generalizing w i with
  | nil =>
    refine ⟨[], List.prefix_rfl, ?_⟩
    rw [committed, List.take_nil]
    rfl
  | cons e mid ih =>
    rw [committed] at hi ⊢
    rw [List.length_append] at hi
    by_cases hlater : (w.executed e).length ≤ i
    · obtain ⟨m, hm, hdb⟩ := ih (w := w.step e) (i := i - (w.executed e).length) (by omega)
      refine ⟨e :: m, List.cons_prefix_cons.2 ⟨rfl, hm⟩, ?_⟩
      rw [List.take_append, List.take_of_length_le hlater]
      unfold actions at hdb ⊢
      rw [List.map_append, Tenure.runAll_append]
      have hstep := db_step w e
      unfold actions at hstep
      rw [← hstep]
      exact hdb
    · -- nothing is executed yet: an event executes one batch at most
      have hlen := w.length_executed e
      have hi0 : i = 0 := by omega
      subst hi0
      exact ⟨[], List.nil_prefix, rfl⟩

/-- **One writer at a time**, in every run in which no superseded handle claims again and no
batch is astride the tip. -/
theorem oneWriter (w : Service X H C) (hopen : w.flights = []) (events : List (Event X H C))
    (hsent : Sent declarations events) (hcareful : Careful w.db [] w events) : OneWriter w events := by
  have hflights : ∀ f ∈ w.flights, f.token ≠ "" ∧ Batched f.token f.statements := by
    rw [hopen]
    exact fun f hf => absurd hf List.not_mem_nil
  have hall := lawful_committed hsent hflights
  have hfresh := hcareful.fresh (Tenure.fresh_nil)
  rw [List.nil_append] at hfresh
  -- the batch an event executes, as one of those of the run
  have hflight : ∀ {pre n post f}, events = pre ++ .commit n :: post → (w.run pre).flights[n]? = some f →
      f.token ≠ "" ∧ Batched f.token f.statements ∧ Fits w.db (w.committed pre) (w.run pre).db f ∧
        ∃ rest, w.committed events = (w.committed pre ++ [f]) ++ rest := by
    intro pre n post f heq hf
    have hcommit : w.committed events = (w.committed pre ++ [f]) ++ ((w.run pre).step (.commit n)).committed post := by
      have hexec : (w.run pre).executed (.commit n) = [f] := by
        rw [executed_commit, hf]
        rfl
      rw [heq, committed_append, committed, hexec, List.append_assoc]
    have hmem : f ∈ w.committed events := by
      rw [hcommit]
      simp
    obtain ⟨htoken, hbatched⟩ := hall f hmem
    rw [heq] at hcareful
    exact ⟨htoken, hbatched, hcareful.fits hf, _, hcommit⟩
  refine ⟨fun pre n post f heq hf => ?_, fun pre n post f heq hf => ?_, fun pre n post f heq hf hsuper => ?_,
    fun pre mid post token heq howned => ?_⟩
  · obtain ⟨htoken, hbatched, hfits, -⟩ := hflight heq hf
    exact Flight.whole hbatched htoken hfits.2
  · obtain ⟨htoken, hbatched, -, -⟩ := hflight heq hf
    exact (Flight.lawful hbatched htoken).owned _
  · obtain ⟨htoken, hbatched, hfits, rest, hcommit⟩ := hflight heq hf
    have hlawful : ∀ a ∈ actions (w.committed pre) ++ [f.action], a.Lawful Database.writer := by
      intro a ha
      have hmem : a ∈ actions (w.committed events) := by
        rw [hcommit]
        unfold actions at ha ⊢
        rw [List.map_append, List.map_append]
        exact List.mem_append_left _ ha
      obtain ⟨g, hg, rfl⟩ := List.mem_map.1 hmem
      obtain ⟨hgtoken, hgbatched⟩ := hall g hg
      exact Flight.lawful hgbatched hgtoken
    have hbefore : Tenure.Fresh Database.writer w.db (actions (w.committed pre) ++ [f.action]) := by
      rw [hcommit] at hfresh
      unfold actions at hfresh ⊢
      rw [List.map_append, List.map_append] at hfresh
      exact hfresh.of_append
    obtain ⟨hclaims, hnot, -⟩ := Tenure.idle_of_superseded hlawful hbefore hsuper
    have hclaims' : f.claims = false := hclaims
    have hnot' : (w.run pre).db.writer ≠ some f.token := by
      rw [db_run]
      exact hnot
    exact transact_of_not_held hbatched htoken hclaims' hnot'
  · -- while the token stays, every other handle's batch does nothing
    set v := w.run pre with hv
    have hsub : ∀ f ∈ v.committed mid, f ∈ w.committed events := by
      intro f hf
      rw [heq, committed_append, committed_append]
      exact List.mem_append_left _ (List.mem_append_right _ hf)
    have hlawful : ∀ a ∈ actions (v.committed mid), a.Lawful Database.writer := by
      intro a ha
      obtain ⟨f, hf, rfl⟩ := List.mem_map.1 ha
      obtain ⟨htoken, hbatched⟩ := hall f (hsub f hf)
      exact Flight.lawful hbatched htoken
    have hstates : ∀ i ≤ (actions (v.committed mid)).length,
        Database.writer (Tenure.runAll v.db ((actions (v.committed mid)).take i)) = some token := by
      intro i hi
      obtain ⟨m, hm, hdb⟩ := exists_take (w := v) mid (i := i) (by simpa [actions] using hi)
      have hw := howned m hm
      rw [run_append, hdb] at hw
      unfold actions at hw ⊢
      rw [List.map_take] at hw
      exact hw
    have hfilter := Tenure.runAll_filter hlawful hstates
    rw [run_append, db_run, hfilter]
    unfold actions Tenure.runAll
    rw [List.filter_map, List.foldl_map]
    rfl

/-- Another handle writes in between, and the first one's next batch changes nothing. -/
def takeover : List (Event Unit ℕ Unit) :=
  [.send "a" [.writeCursor "sync" () ⟨"a", none⟩], .commit 0, .answer 0,
    .send "b" [.clearCursor "sync" ⟨"b", none⟩], .commit 0, .answer 0,
    .send "a" [.writeCursor "sync" () ⟨"a", none⟩], .commit 0]

/-- A database no handle has written to. -/
def unclaimed : Service Unit ℕ Unit := ⟨.empty, fun _ => false, [], []⟩

theorem oneWriter_takeover : OneWriter unclaimed takeover := by
  have hsent : Sent [coin] takeover := by
    intro token statements hmem
    simp only [takeover, List.mem_cons, Event.send.injEq, reduceCtorEq, false_or, or_false, List.not_mem_nil] at hmem
    rcases hmem with ⟨rfl, rfl⟩ | ⟨rfl, rfl⟩ | ⟨rfl, rfl⟩
    · exact ⟨by decide, .writeCursor "sync" ()⟩
    · exact ⟨by decide, .clearCursor "sync"⟩
    · exact ⟨by decide, .writeCursor "sync" ()⟩
  exact oneWriter unclaimed rfl takeover hsent (by decide)

/-- The same, but the first handle was never answered and tries again. -/
def lostAnswer : List (Event Unit ℕ Unit) :=
  [.send "a" [.writeCursor "sync" () ⟨"a", none⟩], .commit 0,
    .send "b" [.clearCursor "sync" ⟨"b", none⟩], .commit 0,
    .send "a" [.writeCursor "sync" () ⟨"a", none⟩], .commit 0]

/-- **A superseded handle takes the store back**: its claim was executed, and it was never told. -/
theorem superseded_claims_again : ¬∀ events : List (Event Unit ℕ Unit), Sent [coin] events →
    ∀ pre n post f, events = pre ++ .commit n :: post → (unclaimed.run pre).flights[n]? = some f →
      unclaimed.Superseded pre f.token → (f.transact (unclaimed.run pre).db).2 = (unclaimed.run pre).db := by
  intro h
  have hsent : Sent [coin] lostAnswer := by
    intro token statements hmem
    simp only [lostAnswer, List.mem_cons, Event.send.injEq, reduceCtorEq, false_or, or_false, List.not_mem_nil] at hmem
    rcases hmem with ⟨rfl, rfl⟩ | ⟨rfl, rfl⟩ | ⟨rfl, rfl⟩
    · exact ⟨by decide, .writeCursor "sync" ()⟩
    · exact ⟨by decide, .clearCursor "sync"⟩
    · exact ⟨by decide, .writeCursor "sync" ()⟩
  have hsame := h lostAnswer hsent (lostAnswer.take 5) 0 [] ⟨"a", true, [.writeCursor "sync" () ⟨"a", none⟩]⟩ rfl rfl
    (by decide)
  have hwriter := congrArg Database.writer hsame
  exact absurd hwriter (by decide)

/-! ### Calls of a handle by itself -/

namespace VersionedStateStore

variable {t t' t'' : VersionedStateStore X H C}

/-- A handle next to a database at which nothing is under way. -/
structure Alone (t : VersionedStateStore X H C) (w : Service X H C) : Prop where
  db : w.db = t.db
  claimed : w.claimed t.token = t.claimed
  flights : w.flights = []
  answers : w.answers = []

/-- The batches of the calls of one handle. -/
def SentBy (declarations : List NormalizedEntity) (token : String) (events : List (Event X H C)) : Prop :=
  ∀ token' statements, .send token' statements ∈ events → token' = token ∧ Sends declarations token statements

/-- What the one handle becomes the other by batches of its calls. -/
def Reaches (declarations : List NormalizedEntity) (t t' : VersionedStateStore X H C) : Prop :=
  t'.token = t.token ∧
    ∀ w : Service X H C, t.Alone w → ∃ events, SentBy declarations t.token events ∧ t'.Alone (w.run events)

theorem Reaches.refl (t : VersionedStateStore X H C) : Reaches declarations t t :=
  ⟨rfl, fun _ h => ⟨[], fun _ _ hmem => (by cases hmem), h⟩⟩

theorem Reaches.trans (h : Reaches declarations t t') (h' : Reaches declarations t' t'') :
    Reaches declarations t t'' := by
  refine ⟨h'.1.trans h.1, fun w hw => ?_⟩
  obtain ⟨events, hsent, hevents⟩ := h.2 w hw
  obtain ⟨rest, hsent', hrest⟩ := h'.2 _ hevents
  refine ⟨events ++ rest, fun token statements hmem => ?_, ?_⟩
  · rcases List.mem_append.1 hmem with hmem | hmem
    · exact hsent token statements hmem
    · have hboth := hsent' token statements hmem
      rw [h.1] at hboth
      exact hboth
  · rw [run_append]
    exact hrest

/-- **One transaction** is a batch sent, executed and answered. -/
theorem reaches_sendGuarded (t : VersionedStateStore X H C) {statements : List (Statement X H C)}
    (hsends : Sends declarations t.token statements) : Reaches declarations t (t.sendGuarded statements).2 := by
  rw [sendGuarded_eq_transact]
  refine ⟨rfl, fun w hw => ⟨[.send t.token statements, .commit 0, .answer 0], fun token ss hmem => ?_, ?_⟩⟩
  · simp only [List.mem_cons, Event.send.injEq, reduceCtorEq, List.not_mem_nil, or_false] at hmem
    obtain ⟨rfl, rfl⟩ := hmem
    exact ⟨rfl, hsends⟩
  · obtain ⟨db, claimed, flights, answers⟩ := w
    obtain ⟨rfl, hclaimed, hflights, hanswers⟩ := hw
    dsimp only at hclaimed hflights hanswers
    subst hflights hanswers
    refine ⟨?_, ?_, ?_, ?_⟩
    · simp [Service.run, Service.step, hclaimed]
    · simp only [Service.run, Service.step, List.foldl_cons, List.foldl_nil, List.nil_append,
        List.getElem?_cons_zero, hclaimed]
      cases ((Flight.transact ⟨t.token, !t.claimed, statements⟩ t.db).1).isOk <;> simp [hclaimed]
    · simp [Service.run, Service.step]
    · simp [Service.run, Service.step]

theorem reaches_sent {statements : List (Statement X H C)} {result : Except (SqlError H) (List (SQLResult H))}
    (hsent : t.sendGuarded statements = (result, t')) (hsends : Sends declarations t.token statements) :
    Reaches declarations t t' := by
  have hfirst := reaches_sendGuarded t hsends
  rwa [hsent] at hfirst

theorem reaches_sendAll (t : VersionedStateStore X H C) {batches : List (List (Statement X H C))}
    (hsends : ∀ packet ∈ batches, Sends declarations t.token packet) : Reaches declarations t (t.sendAll batches).2 := by
  induction batches generalizing t with
  | nil => exact .refl t
  | cons packet batches ih =>
    obtain ⟨hpacket, hrest⟩ := List.forall_mem_cons.1 hsends
    unfold sendAll
    split <;> rename_i hsent <;> have hfirst := reaches_sent hsent hpacket
    · exact hfirst
    · exact hfirst.trans (ih _ fun p hp => by rw [hfirst.1]; exact hrest p hp)

theorem reaches_applyBlock (t : VersionedStateStore X H C) (call : AppliedCall X H C) :
    Reaches declarations t (t.applyBlock declarations call).2 := by
  unfold applyBlock
  split
  · exact .refl t
  · rename_i hresolved
    split <;> rename_i hsent <;> have hfirst := reaches_sent hsent (.applyBlock hresolved)
    · exact hfirst
    · split <;> exact hfirst

theorem reaches_applyBlocks (t : VersionedStateStore X H C) (updates : List (BlockUpdate X H)) :
    Reaches declarations t (t.applyBlocks declarations updates).2 := by
  unfold applyBlocks
  split
  · exact .refl t
  split
  · exact .refl t
  rename_i lowest rest hdescent
  split
  · exact .refl t
  rename_i groups hgroups
  cases mapM_eq_ok.1 hgroups with
  | cons hgroup _ =>
    dsimp only
    split <;> rename_i hsent <;> have hfirst := reaches_sent hsent (.applyBlock hgroup)
    · exact hfirst
    split
    · exact hfirst
    · refine hfirst.trans (reaches_sendAll _ fun packet hpacket => ?_)
      rw [hfirst.1]
      exact .applyBlocks hdescent hgroups hpacket

theorem reaches_revertTo (t : VersionedStateStore X H C) (keepUpTo : ℤ) :
    Reaches declarations t (t.revertTo declarations keepUpTo).2 := by
  unfold revertTo
  split <;> rename_i hsent <;> exact reaches_sent hsent (.revertTo keepUpTo)

theorem reaches_writeCursor (t : VersionedStateStore X H C) (key : String) (value : C) :
    Reaches declarations t (t.writeCursor key value).2 := by
  unfold writeCursor
  split <;> rename_i hsent <;> exact reaches_sent hsent (.writeCursor key value)

theorem reaches_drain (floor : ℕ) (maxVersions : Option ℕ) (entity : String) (passes : ℕ)
    (t : VersionedStateStore X H C) (deleted : ℕ) :
    Reaches declarations t (drain floor maxVersions entity passes t deleted).2 := by
  induction passes generalizing t deleted with
  | zero => exact .refl t
  | succ passes ih =>
    unfold drain
    dsimp only
    split
    · exact .refl t
    split
    · exact .refl t
    split <;> rename_i hsent <;>
      have hfirst : Reaches declarations t _ := reaches_sent hsent (.dropVersions entity _)
    · exact hfirst
    · exact hfirst.trans (ih _ _)

theorem reaches_drainAll (floor : ℕ) (maxVersions : Option ℕ) (entities : List NormalizedEntity)
    (t : VersionedStateStore X H C) (deleted : ℕ) :
    Reaches declarations t (drainAll floor maxVersions entities t deleted).2 := by
  induction entities generalizing t deleted with
  | nil => exact .refl t
  | cons entity entities ih =>
    have hfirst := @reaches_drain X H C _ declarations floor maxVersions entity.name
      ((t.db.tables entity.name).rows.length + 1) t deleted
    unfold drainAll
    split <;> rename_i hdrain <;> rw [hdrain] at hfirst
    · exact hfirst
    · exact hfirst.trans (ih _ _)

theorem reaches_prune (t : VersionedStateStore X H C) (maxVersions : Option ℕ) :
    Reaches declarations t (t.prune declarations maxVersions).2 := by
  unfold prune
  split <;> rename_i hsent <;> have hfirst : Reaches declarations t _ := reaches_sent hsent .prune
  · exact hfirst
  dsimp only
  split
  · exact hfirst
  rename_i floor _
  have hsecond := hfirst.trans (@reaches_drainAll X H C _ declarations floor maxVersions declarations _ 0)
  split <;> rename_i hdrain <;> rw [hdrain] at hsecond
  · exact hsecond
  split <;> rename_i hrecord <;> exact hsecond.trans (reaches_sent hrecord (.writeRetentionEnforcement _))

end VersionedStateStore

end Etherfold
