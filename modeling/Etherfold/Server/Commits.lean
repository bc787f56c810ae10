import Etherfold.Generation.Slots
import Etherfold.Server.GenerationTables

/-!
# Commits on a registry in a database

A commit reads the records in one batch, decides, and writes in another; a commit whose write is
beaten reads and decides again, a bounded number of times. Any number of commits run at once, on
any indexers, and their batches interleave in any order.

* `Consistent`: what holds of the commits in flight, whatever has happened.
* `commits_serial`: **the registry holds what the winning attempts make of it, one after another**,
  each of them decided from what it is applied to, and nothing else writes.
-/

namespace Etherfold

variable {ι ε : Type*}

/-- A commit: the indexer it is on, what its plan answers at each attempt, and the revision each
attempt draws. -/
structure RegistryCommit (ε : Type*) where
  indexer : Text
  plan : ℕ → GenerationRegistryState → Except ε (Option GenerationRegistryWrite)
  revisionToken : ℕ → Text

/-- How far a commit is. -/
inductive CommitPhase (ε : Type*) where
  | reading (attempt : ℕ)
  | writing (attempt : ℕ) (state : GenerationRegistryState) (revision : Text) (write : GenerationRegistryWrite)
  | returned (applied : Option ℕ)
  | threw (error : ε)
  | contention

/-- How many times a losing commit decides. -/
def maxCommitAttempts : ℕ := 8

namespace RegistryCommit

variable (commit : RegistryCommit ε) (db : GenerationTables)

/-- The batch that reads, and the decision. -/
def readBatch : CommitPhase ε → CommitPhase ε
  | .reading attempt =>
    match commit.plan attempt (readGuarded db commit.indexer).1 with
    | .error e => .threw e
    | .ok none => .returned none
    | .ok (some write) =>
      if writesAnything write then
        .writing attempt (readGuarded db commit.indexer).1 (readGuarded db commit.indexer).2 write
      else .returned none
  | phase => phase

/-- The batch that writes, and what its report says. -/
def writeBatch : CommitPhase ε → GenerationTables × CommitPhase ε
  | .writing attempt _ revision write =>
    let next := commit.revisionToken attempt
    let result := GenerationTables.batch (statementsFor commit.indexer write revision next) db
    (result.1,
      if applied result.2 = some next then .returned (some attempt)
      else if attempt < maxCommitAttempts then .reading (attempt + 1)
      else .contention)
  | phase => (db, phase)

end RegistryCommit

/-- A batch one of the commits sends. -/
inductive CommitBatch (ι : Type*) where
  | read (commit : ι)
  | write (commit : ι)

/-- The database and how far each commit is. -/
structure RegistryCommits (ι ε : Type*) where
  db : GenerationTables
  phases : ι → CommitPhase ε

/-- The commits, none of which has read. -/
def RegistryCommits.start (db : GenerationTables) : RegistryCommits ι ε := ⟨db, fun _ => .reading 1⟩

section Run

variable [DecidableEq ι] (commits : ι → RegistryCommit ε)

namespace RegistryCommits

/-- One batch. -/
def step (s : RegistryCommits ι ε) : CommitBatch ι → RegistryCommits ι ε
  | .read i => ⟨s.db, Function.update s.phases i ((commits i).readBatch s.db (s.phases i))⟩
  | .write i =>
    ⟨((commits i).writeBatch s.db (s.phases i)).1,
      Function.update s.phases i ((commits i).writeBatch s.db (s.phases i)).2⟩

/-- The batches one after another. -/
def run (s : RegistryCommits ι ε) (batches : List (CommitBatch ι)) : RegistryCommits ι ε := batches.foldl (step commits) s

/-- The attempt that a batch wins, where it wins one. -/
def won (s : RegistryCommits ι ε) : CommitBatch ι → Option (ι × ℕ)
  | .read _ => none
  | .write i =>
    match s.phases i, (step commits s (.write i)).phases i with
    | .writing attempt _ _ _, .returned (some _) => some (i, attempt)
    | _, _ => none

/-- The attempts that won, in the order of their batches. -/
def winners (s : RegistryCommits ι ε) : List (CommitBatch ι) → List (ι × ℕ)
  | [] => []
  | batch :: rest => (won commits s batch).toList ++ winners (step commits s batch) rest

end RegistryCommits

/-- **The plans of these attempts, one after another**, each on what the one before it left. -/
def serially (r : GenerationRegistryRecords) (attempts : List (ι × ℕ)) : GenerationRegistryRecords :=
  attempts.foldl (fun r a =>
    match (commits a.1).plan a.2 r.snapshot with
    | .ok (some write) => r.write write
    | _ => r) r

/-- **No two attempts draw one revision**, and none draws one that stands already. -/
structure Fresh (db : GenerationTables) : Prop where
  distinct : ∀ i j m n, (commits i).revisionToken m = (commits j).revisionToken n → i = j ∧ m = n
  drawn : ∀ i n, (commits i).revisionToken n ≠ unwritten
  new : ∀ i n, (commits i).revisionToken n ≠ db.revisionOf (commits i).indexer

end Run

/-- **What the port's contract says of a write**: removals before the record, the bundle with it, a
stream forgotten even when it is kept, an absent slot left, a null slot cleared. -/
structure Written (r : GenerationRegistryRecords) (write : GenerationRegistryWrite) (r' : GenerationRegistryRecords) :
    Prop where
  entries : ∀ record bundle, (record, bundle) ∈ r'.entries ↔ (write.put = some record ∧ bundle = write.bundle) ∨
    ((record, bundle) ∈ r.entries ∧ record.id ∉ write.remove ∧ ∀ put, write.put = some put → put.id ≠ record.id)
  streams : ∀ digest, digest ∈ r'.streams ↔
    (digest ∈ r.streams ∨ write.keepStream = some digest) ∧ digest ∉ write.forgetStreams
  absent : ∀ slot, write.slots slot = none → r'.slots slot = r.slots slot
  assigned : ∀ slot value, write.slots slot = some value → r'.slots slot = value

/-! ### One write -/

theorem mem_putEntry {entries : List (GenerationRecord × Option (List UInt8))} {put record : GenerationRecord}
    {b bundle : Option (List UInt8)} :
    (record, bundle) ∈ GenerationRegistryRecords.putEntry entries put b ↔
      (put = record ∧ bundle = b) ∨ ((record, bundle) ∈ entries ∧ put.id ≠ record.id) := by
  unfold GenerationRegistryRecords.putEntry
  by_cases hany : entries.any (·.1.id = put.id) = true
  · rw [if_pos hany, List.mem_map]
    constructor
    · intro h
      obtain ⟨e, he, heq⟩ := h
      by_cases hid : e.1.id = put.id
      · rw [if_pos hid, Prod.mk.injEq] at heq
        exact .inl ⟨heq.1, heq.2.symm⟩
      · rw [if_neg hid] at heq
        rw [heq] at he hid
        exact .inr ⟨he, Ne.symm hid⟩
    · intro h
      rcases h with ⟨rfl, rfl⟩ | ⟨hin, hne⟩
      · obtain ⟨e, he, hid⟩ := List.any_eq_true.1 hany
        exact ⟨e, he, by rw [if_pos (of_decide_eq_true hid)]⟩
      · exact ⟨_, hin, by rw [if_neg (Ne.symm hne)]⟩
  · rw [if_neg hany, List.mem_append, List.mem_singleton, Prod.mk.injEq]
    have hapart : (record, bundle) ∈ entries → put.id ≠ record.id := by
      intro hin heq
      exact hany (List.any_eq_true.2 ⟨_, hin, by simpa using heq.symm⟩)
    constructor
    · intro h
      rcases h with hin | ⟨rfl, rfl⟩
      · exact .inr ⟨hin, hapart hin⟩
      · exact .inl ⟨rfl, rfl⟩
    · intro h
      rcases h with ⟨rfl, rfl⟩ | ⟨hin, -⟩
      · exact .inr ⟨rfl, rfl⟩
      · exact .inl hin

/-- **The write of the substrate is what the port's contract says.** -/
theorem written_write (r : GenerationRegistryRecords) (write : GenerationRegistryWrite) :
    Written r write (r.write write) := by
  refine ⟨fun record bundle => ?_, fun digest => ?_, fun slot h => ?_, fun slot value h => ?_⟩
  · have hkept : (record, bundle) ∈ r.entries.filter (·.1.id ∉ write.remove) ↔
        (record, bundle) ∈ r.entries ∧ record.id ∉ write.remove := by
      rw [List.mem_filter, decide_eq_true_eq]
    unfold GenerationRegistryRecords.write
    cases hput : write.put with
    | none => simp
    | some put =>
      rw [mem_putEntry, hkept]
      simp [and_assoc]
  · unfold GenerationRegistryRecords.write
    rw [List.mem_filter, decide_eq_true_eq, and_congr_left_iff]
    intro _
    cases hkeep : write.keepStream with
    | none => simp
    | some keep =>
      by_cases hin : keep ∈ r.streams
      · simp only [if_pos hin, Option.some.injEq]
        constructor
        · exact .inl
        · intro h
          rcases h with h | rfl
          · exact h
          · exact hin
      · simp only [if_neg hin, List.mem_append, List.mem_singleton, Option.some.injEq, eq_comm]
  · show (write.slots slot).getD (r.slots slot) = _
    rw [h]
    rfl
  · show (write.slots slot).getD (r.slots slot) = _
    rw [h]
    rfl

section Run

variable [DecidableEq ι] {commits : ι → RegistryCommit ε} {db : GenerationTables} {s : RegistryCommits ι ε}

/-! ### What holds of the commits in flight -/

/-- This attempt has had its write batch, or never will. -/
def CommitPhase.Past : CommitPhase ε → ℕ → Prop
  | .reading attempt, n => n < attempt
  | .writing attempt _ _ _, n => n < attempt
  | _, _ => True

/-- A revision that stood at first, or that an attempt past its write drew. -/
def Drawn (commits : ι → RegistryCommit ε) (db : GenerationTables) (phases : ι → CommitPhase ε) (indexer revision : Text) :
    Prop :=
  revision = db.revisionOf indexer ∨ ∃ j n, (phases j).Past n ∧ revision = (commits j).revisionToken n

/-- **What holds of the commits in flight**: a write to come was decided from what the registry
holds, if it holds the revision it was read at; if it does not, there is a slot row. -/
structure Consistent (commits : ι → RegistryCommit ε) (db : GenerationTables) (s : RegistryCommits ι ε) : Prop where
  current : ∀ indexer, Drawn commits db s.phases indexer (s.db.revisionOf indexer)
  held : ∀ i attempt state revision write, s.phases i = .writing attempt state revision write →
    Drawn commits db s.phases (commits i).indexer revision
  planned : ∀ i attempt state revision write, s.phases i = .writing attempt state revision write →
    (commits i).plan attempt state = .ok (some write)
  decided : ∀ i attempt state revision write, s.phases i = .writing attempt state revision write →
    s.db.revisionOf (commits i).indexer = revision → state = (s.db.records (commits i).indexer).snapshot
  beaten : ∀ i attempt state revision write, s.phases i = .writing attempt state revision write →
    s.db.revisionOf (commits i).indexer ≠ revision → s.db.revisionOf (commits i).indexer ≠ unwritten

omit [DecidableEq ι] in
theorem Drawn.mono {phases phases' : ι → CommitPhase ε} {indexer revision : Text} (h : Drawn commits db phases indexer revision)
    (hpast : ∀ j n, (phases j).Past n → (phases' j).Past n) : Drawn commits db phases' indexer revision := by
  rcases h with h | ⟨j, n, hn, h⟩
  · exact .inl h
  · exact .inr ⟨j, n, hpast j n hn, h⟩

omit [DecidableEq ι] in
/-- What an attempt draws, nobody has seen before its write. -/
theorem Fresh.not_drawn (h : Fresh commits db) {phases : ι → CommitPhase ε} {i : ι} {attempt : ℕ}
    (hpast : ¬(phases i).Past attempt) : ¬Drawn commits db phases (commits i).indexer ((commits i).revisionToken attempt) := by
  intro hdrawn
  rcases hdrawn with heq | ⟨j, n, hn, heq⟩
  · exact h.new i attempt heq
  · obtain ⟨rfl, rfl⟩ := h.distinct i j attempt n heq
    exact hpast hn

namespace RegistryCommits

omit [DecidableEq ι] in
theorem consistent_start : Consistent commits db (start db : RegistryCommits ι ε) := by
  refine ⟨fun indexer => .inl rfl, ?_, ?_, ?_, ?_⟩ <;>
  · intro i attempt state revision write h
    cases h

/-! ### One batch -/

/-- A batch that reads: what the phase it leaves can be. -/
theorem readBatch_cases (commit : RegistryCommit ε) (db : GenerationTables) (phase : CommitPhase ε) :
    (∀ n, phase.Past n → (commit.readBatch db phase).Past n) ∧
      ∀ attempt state revision write, commit.readBatch db phase = .writing attempt state revision write →
        phase = .writing attempt state revision write ∨
          (state = (db.records commit.indexer).snapshot ∧ revision = db.revisionOf commit.indexer ∧
            commit.plan attempt state = .ok (some write)) := by
  unfold RegistryCommit.readBatch
  cases phase with
  | reading attempt =>
    dsimp only
    cases hplan : commit.plan attempt (readGuarded db commit.indexer).1 with
    | error e => exact ⟨fun n _ => trivial, fun _ _ _ _ h => by cases h⟩
    | ok planned =>
      cases planned with
      | none => exact ⟨fun n _ => trivial, fun _ _ _ _ h => by cases h⟩
      | some write =>
        dsimp only
        by_cases hany : writesAnything write = true
        · rw [if_pos hany]
          refine ⟨fun n hn => hn, fun attempt' state revision write' h => .inr ?_⟩
          injection h with hattempt hstate hrevision hwrite
          rw [← hattempt, ← hstate, ← hrevision, ← hwrite]
          exact ⟨rfl, rfl, hplan⟩
        · rw [if_neg hany]
          exact ⟨fun n _ => trivial, fun _ _ _ _ h => by cases h⟩
  | writing attempt state revision write => exact ⟨fun n hn => hn, fun _ _ _ _ h => .inl h⟩
  | returned applied => exact ⟨fun n hn => hn, fun _ _ _ _ h => .inl h⟩
  | threw error => exact ⟨fun n hn => hn, fun _ _ _ _ h => .inl h⟩
  | contention => exact ⟨fun n hn => hn, fun _ _ _ _ h => .inl h⟩

/-- What a batch that wins does. -/
structure Wins (commits : ι → RegistryCommit ε) (s s' : RegistryCommits ι ε) (i : ι) (attempt : ℕ) : Prop where
  decided : ∃ state revision write, s.phases i = .writing attempt state revision write ∧
    state = (s.db.records (commits i).indexer).snapshot ∧ (commits i).plan attempt state = .ok (some write) ∧
    s'.db.records (commits i).indexer = (s.db.records (commits i).indexer).write write
  apart : ∀ other ≠ (commits i).indexer, s'.db.records other = s.db.records other
  returned : s'.phases i = .returned (some attempt)

omit [DecidableEq ι] in
/-- Nothing is written, and what is to be written now was to be written before or has just been
decided. -/
theorem next_of_same {s' : RegistryCommits ι ε} (h : Consistent commits db s) (hdb : s'.db = s.db)
    (hpast : ∀ j n, (s.phases j).Past n → (s'.phases j).Past n)
    (hwriting : ∀ j attempt state revision write, s'.phases j = .writing attempt state revision write →
      s.phases j = .writing attempt state revision write ∨
        (state = (s.db.records (commits j).indexer).snapshot ∧ revision = s.db.revisionOf (commits j).indexer ∧
          (commits j).plan attempt state = .ok (some write))) : Consistent commits db s' := by
  refine ⟨?_, ?_, ?_, ?_, ?_⟩
  · rw [hdb]
    exact fun indexer => (h.current indexer).mono hpast
  · intro j attempt state revision write hphase
    rcases hwriting j attempt state revision write hphase with hold | ⟨-, hrevision, -⟩
    · exact (h.held j attempt state revision write hold).mono hpast
    · rw [hrevision]
      exact (h.current (commits j).indexer).mono hpast
  · intro j attempt state revision write hphase
    rcases hwriting j attempt state revision write hphase with hold | ⟨-, -, hplan⟩
    · exact h.planned j attempt state revision write hold
    · exact hplan
  · rw [hdb]
    intro j attempt state revision write hphase hrevision
    rcases hwriting j attempt state revision write hphase with hold | ⟨hstate, -, -⟩
    · exact h.decided j attempt state revision write hold hrevision
    · exact hstate
  · rw [hdb]
    intro j attempt state revision write hphase hrevision
    rcases hwriting j attempt state revision write hphase with hold | ⟨-, heq, -⟩
    · exact h.beaten j attempt state revision write hold hrevision
    · exact absurd heq.symm hrevision

omit [DecidableEq ι] in
/-- The revision of one indexer is swapped for one that nobody has seen. -/
theorem next_of_swapped {s' : RegistryCommits ι ε} (h : Consistent commits db s) (hfresh : Fresh commits db) {i : ι}
    {attempt : ℕ} (hnotpast : ¬(s.phases i).Past attempt) (hpassed : (s'.phases i).Past attempt)
    (hswapped : s'.db.revisionOf (commits i).indexer = (commits i).revisionToken attempt)
    (hapart : ∀ other ≠ (commits i).indexer,
      s'.db.records other = s.db.records other ∧ s'.db.revisionOf other = s.db.revisionOf other)
    (hpast : ∀ j n, (s.phases j).Past n → (s'.phases j).Past n)
    (hwriting : ∀ j attempt state revision write, s'.phases j = .writing attempt state revision write →
      s.phases j = .writing attempt state revision write) : Consistent commits db s' := by
  refine ⟨?_, ?_, ?_, ?_, ?_⟩
  · intro other
    by_cases ho : other = (commits i).indexer
    · rw [ho, hswapped]
      exact .inr ⟨i, attempt, hpassed, rfl⟩
    · rw [(hapart other ho).2]
      exact (h.current other).mono hpast
  · intro j attempt state revision write hphase
    exact (h.held j attempt state revision write (hwriting j _ _ _ _ hphase)).mono hpast
  · intro j attempt state revision write hphase
    exact h.planned j attempt state revision write (hwriting j _ _ _ _ hphase)
  · intro j attempt' state revision write hphase hrevision
    have hold := hwriting j _ _ _ _ hphase
    by_cases ho : (commits j).indexer = (commits i).indexer
    · have hdrawn := h.held j attempt' state revision write hold
      rw [ho] at hdrawn hrevision
      rw [← hrevision, hswapped] at hdrawn
      exact absurd hdrawn (hfresh.not_drawn hnotpast)
    · rw [(hapart _ ho).2] at hrevision
      rw [(hapart _ ho).1]
      exact h.decided j attempt' state revision write hold hrevision
  · intro j attempt' state revision write hphase hrevision
    have hold := hwriting j _ _ _ _ hphase
    by_cases ho : (commits j).indexer = (commits i).indexer
    · rw [ho, hswapped]
      exact hfresh.drawn i attempt
    · rw [(hapart _ ho).2] at hrevision ⊢
      exact h.beaten j attempt' state revision write hold hrevision

/-- A batch that reads writes nothing. -/
theorem step_read (h : Consistent commits db s) (i : ι) : Consistent commits db (step commits s (.read i)) := by
  obtain ⟨hpast, hwriting⟩ := readBatch_cases (commits i) s.db (s.phases i)
  have hself : (step commits s (.read i)).phases i = (commits i).readBatch s.db (s.phases i) := Function.update_self ..
  have hother : ∀ j ≠ i, (step commits s (.read i)).phases j = s.phases j := fun j hj => Function.update_of_ne hj ..
  apply next_of_same h (show (step commits s (.read i)).db = s.db from rfl)
  · intro j n hn
    by_cases hj : j = i
    · rw [hj] at hn ⊢
      rw [hself]
      exact hpast n hn
    · rwa [hother j hj]
  · intro j attempt state revision write hphase
    by_cases hj : j = i
    · rw [hj] at hphase ⊢
      exact hwriting attempt state revision write (hself ▸ hphase)
    · exact .inl (hother j hj ▸ hphase)

/-- A batch that writes: the phases after it. -/
theorem phases_write (commits : ι → RegistryCommit ε) {i : ι} {attempt : ℕ} {state : GenerationRegistryState} {revision : Text} {write : GenerationRegistryWrite}
    (hphase : s.phases i = .writing attempt state revision write) :
    let result := GenerationTables.batch (statementsFor (commits i).indexer write revision ((commits i).revisionToken attempt)) s.db
    let s' := step commits s (.write i)
    s'.db = result.1 ∧
      s'.phases i = (if applied result.2 = some ((commits i).revisionToken attempt) then .returned (some attempt)
        else if attempt < maxCommitAttempts then .reading (attempt + 1) else .contention) ∧
      (∀ j n, (s.phases j).Past n → (s'.phases j).Past n) ∧
      (∀ j attempt state revision write, s'.phases j = .writing attempt state revision write →
        s.phases j = .writing attempt state revision write) ∧
      won commits s (.write i) = match s'.phases i with
        | .returned (some _) => some (i, attempt)
        | _ => none := by
  intro result s'
  have hdb : s'.db = result.1 := by
    show ((commits i).writeBatch s.db (s.phases i)).1 = _
    rw [hphase]
    rfl
  have hself : s'.phases i = (if applied result.2 = some ((commits i).revisionToken attempt) then .returned (some attempt)
      else if attempt < maxCommitAttempts then .reading (attempt + 1) else .contention) := by
    show Function.update s.phases i ((commits i).writeBatch s.db (s.phases i)).2 i = _
    rw [Function.update_self, hphase]
    rfl
  have hother : ∀ j ≠ i, s'.phases j = s.phases j := fun j hj => Function.update_of_ne hj ..
  refine ⟨hdb, hself, ?_, ?_, ?_⟩
  · intro j n hn
    by_cases hj : j = i
    · rw [hj, hphase] at hn
      rw [hj, hself]
      split
      · trivial
      split
      · exact Nat.lt_succ_of_lt hn
      · trivial
    · rwa [hother j hj]
  · intro j attempt' state' revision' write' hphase'
    by_cases hj : j = i
    · rw [hj, hself] at hphase'
      split at hphase'
      · cases hphase'
      split at hphase' <;> cases hphase'
    · exact hother j hj ▸ hphase'
  · show won commits s (.write i) = match (step commits s (.write i)).phases i with
      | .returned (some _) => some (i, attempt)
      | _ => none
    simp only [won, hphase]
    rcases (step commits s (.write i)).phases i with _ | _ | (_ | _) | _ | _ <;> rfl

/-- **A batch wins, and writes what it was decided from the records that stand to write; or it
writes nothing.** -/
theorem step_cases (h : Consistent commits db s) (hfresh : Fresh commits db) (batch : CommitBatch ι) :
    Consistent commits db (step commits s batch) ∧
      ((∃ i attempt, won commits s batch = some (i, attempt) ∧ Wins commits s (step commits s batch) i attempt) ∨
        (won commits s batch = none ∧ (step commits s batch).db = s.db)) := by
  cases batch with
  | read i => exact ⟨step_read h i, .inr ⟨rfl, rfl⟩⟩
  | write i =>
    cases hphase : s.phases i with
    | writing attempt state revision write =>
      obtain ⟨hdb, hself, hpast, hwriting, hwon⟩ := phases_write commits hphase
      have hnotpast : ¬(s.phases i).Past attempt := by
        rw [hphase]
        exact Nat.lt_irrefl attempt
      by_cases hrevision : s.db.revisionOf (commits i).indexer = revision
      · obtain ⟨happlied, hswapped, hwrite, hapart⟩ :=
          GenerationTables.records_batch write ((commits i).revisionToken attempt) hrevision
        rw [← hdb] at hswapped hwrite hapart
        rw [if_pos happlied] at hself
        have hstate := h.decided i attempt state revision write hphase hrevision
        refine ⟨next_of_swapped h hfresh hnotpast (by rw [hself]; trivial) hswapped hapart hpast hwriting, .inl ⟨i, attempt, ?_, ?_⟩⟩
        · rw [hwon, hself]
        · exact ⟨⟨state, revision, write, hphase, hstate, h.planned i attempt state revision write hphase, hwrite⟩,
            fun other ho => (hapart other ho).1, hself⟩
      · obtain ⟨hsame, happlied⟩ := GenerationTables.batch_lost write ((commits i).revisionToken attempt) hrevision
          (h.beaten i attempt state revision write hphase hrevision)
        rw [← hdb] at hsame
        -- what is reported is not what this attempt drew
        have hlost : s.db.revisionOf (commits i).indexer ≠ (commits i).revisionToken attempt := by
          intro heq
          have hdrawn := h.current (commits i).indexer
          rw [heq] at hdrawn
          exact hfresh.not_drawn hnotpast hdrawn
        rw [if_neg (by rw [happlied, Option.some.injEq]; exact hlost)] at hself
        refine ⟨next_of_same h hsame hpast fun j _ _ _ _ hphase' => .inl (hwriting j _ _ _ _ hphase'), .inr ⟨?_, hsame⟩⟩
        rw [hwon, hself]
        split_ifs <;> rfl
    | reading attempt | returned applied | threw error | contention =>
      -- nothing to write
      have hstep : step commits s (.write i) = s := by
        simp only [step, RegistryCommit.writeBatch, hphase]
        rw [← hphase, Function.update_eq_self]
      rw [hstep]
      refine ⟨h, .inr ⟨?_, rfl⟩⟩
      simp only [won, hphase]

/-! ### Any number of batches -/

theorem run_cons (s : RegistryCommits ι ε) (batch : CommitBatch ι) (rest : List (CommitBatch ι)) :
    run commits s (batch :: rest) = run commits (step commits s batch) rest := rfl

theorem winners_cons (s : RegistryCommits ι ε) (batch : CommitBatch ι) (rest : List (CommitBatch ι)) :
    winners commits s (batch :: rest) = (won commits s batch).toList ++ winners commits (step commits s batch) rest := rfl

theorem consistent_run (h : Consistent commits db s) (hfresh : Fresh commits db) (batches : List (CommitBatch ι)) :
    Consistent commits db (run commits s batches) := by
  induction batches generalizing s with
  | nil => exact h
  | cons batch rest ih => exact ih (step_cases h hfresh batch).1

/-- What the registry holds is what the winning attempts make of it. -/
theorem records_run (h : Consistent commits db s) (hfresh : Fresh commits db) (batches : List (CommitBatch ι))
    (indexer : Text) :
    (run commits s batches).db.records indexer = serially commits (s.db.records indexer)
      ((winners commits s batches).filter fun a => (commits a.1).indexer = indexer) := by
  induction batches generalizing s with
  | nil => rfl
  | cons batch rest ih =>
    obtain ⟨hnext, hcases⟩ := step_cases h hfresh batch
    have hrest := ih hnext
    rw [run_cons, hrest, winners_cons, List.filter_append]
    rcases hcases with ⟨i, attempt, hwon, hwins⟩ | ⟨hwon, hsame⟩
    · obtain ⟨state, revision, write, -, hstate, hplan, hwrite⟩ := hwins.decided
      rw [hwon]
      by_cases hi : (commits i).indexer = indexer
      · rw [show ((some (i, attempt)).toList.filter fun a => (commits a.1).indexer = indexer) = [(i, attempt)] by
          simp [hi]]
        rw [List.singleton_append, serially, serially, List.foldl_cons]
        rw [hstate, hi] at hplan
        rw [hi] at hwrite
        rw [hplan, hwrite]
      · rw [show ((some (i, attempt)).toList.filter fun a => (commits a.1).indexer = indexer) = [] by simp [hi],
          List.nil_append, hwins.apart indexer (Ne.symm hi)]
    · rw [hwon, hsame]
      rfl

/-- A commit that has returned does nothing more. -/
theorem returned_step {i : ι} {outcome : Option ℕ} (h : s.phases i = .returned outcome) (batch : CommitBatch ι) :
    (step commits s batch).phases i = .returned outcome := by
  cases batch with
  | read j =>
    by_cases hj : i = j
    · show Function.update s.phases j _ i = _
      rw [← hj, Function.update_self, h]
      rfl
    · show Function.update s.phases j _ i = _
      rw [Function.update_of_ne hj, h]
  | write j =>
    by_cases hj : i = j
    · show Function.update s.phases j _ i = _
      rw [← hj, Function.update_self, h]
      rfl
    · show Function.update s.phases j _ i = _
      rw [Function.update_of_ne hj, h]

theorem returned_run {i : ι} {outcome : Option ℕ} (h : s.phases i = .returned outcome) (batches : List (CommitBatch ι)) :
    (run commits s batches).phases i = .returned outcome := by
  induction batches generalizing s with
  | nil => exact h
  | cons batch rest ih => exact ih (returned_step h batch)

/-- A commit that wins has returned. -/
theorem returned_of_winner (h : Consistent commits db s) (hfresh : Fresh commits db) {batches : List (CommitBatch ι)}
    {i : ι} {attempt : ℕ} (hwinner : (i, attempt) ∈ winners commits s batches) :
    (run commits s batches).phases i = .returned (some attempt) := by
  induction batches generalizing s with
  | nil => cases hwinner
  | cons batch rest ih =>
    obtain ⟨hnext, hcases⟩ := step_cases h hfresh batch
    rw [winners_cons] at hwinner
    rcases List.mem_append.1 hwinner with hnow | hlater
    · rw [Option.mem_toList] at hnow
      rcases hcases with ⟨j, attempt', hwon, hwins⟩ | ⟨hwon, -⟩
      · rw [hwon, Option.some.injEq, Prod.mk.injEq] at hnow
        obtain ⟨rfl, rfl⟩ := hnow
        exact returned_run hwins.returned rest
      · rw [hwon] at hnow
        cases hnow
    · exact ih hnext hlater

end RegistryCommits

open RegistryCommits

/-- **Commits are atomic and serial.** Whatever batches have run, what each indexer's registry
holds is what the plans of the winning attempts make of it one after another; a commit that threw,
gave up or has not returned won nothing; and a next batch either writes nothing, or wins, and
writes on one indexer what was decided from the records that stand. -/
theorem commits_serial (hfresh : Fresh commits db) (batches : List (CommitBatch ι)) :
    let s := run commits (start db) batches
    (∀ indexer, s.db.records indexer = serially commits (db.records indexer)
      ((winners commits (start db) batches).filter fun a => (commits a.1).indexer = indexer)) ∧
    (∀ i attempt, (i, attempt) ∈ winners commits (start db) batches → s.phases i = .returned (some attempt)) ∧
    ∀ batch, let s' := step commits s batch
      (won commits s batch = none ∧ s'.db = s.db) ∨
        ∃ i attempt state revision write, won commits s batch = some (i, attempt) ∧
          s.phases i = .writing attempt state revision write ∧ (commits i).plan attempt state = .ok (some write) ∧
          state = (s.db.records (commits i).indexer).snapshot ∧
          Written (s.db.records (commits i).indexer) write (s'.db.records (commits i).indexer) ∧
          ∀ other ≠ (commits i).indexer, s'.db.records other = s.db.records other := by
  intro s
  have hstart : Consistent commits db (start db : RegistryCommits ι ε) := consistent_start
  refine ⟨records_run hstart hfresh batches, fun i attempt => returned_of_winner hstart hfresh, fun batch => ?_⟩
  intro s'
  obtain ⟨-, hcases⟩ := step_cases (consistent_run hstart hfresh batches) hfresh batch
  rcases hcases with ⟨i, attempt, hwon, hwins⟩ | hsame
  · obtain ⟨state, revision, write, hphase, hstate, hplan, hwrite⟩ := hwins.decided
    refine .inr ⟨i, attempt, state, revision, write, hwon, hphase, hplan, hstate, ?_, hwins.apart⟩
    rw [hwrite]
    exact written_write _ write
  · exact .inl hsame

end Run

/-! ### Two first commits at once -/

/-- Two registrations, each under its own processor, on an indexer that has no slot row. -/
def firstRegistrations (first : Bool) : RegistryCommit RegistryError where
  indexer := [1]
  plan _ current := (createPlan ⟨2, 1, Nat.two_pos, Nat.one_pos⟩ 0 ⟨[7], if first then [8] else [9]⟩ none none current).map
    fun planned => some planned.2
  revisionToken attempt := (if first then 1 else 2) :: List.replicate attempt 0

theorem firstRegistrations_fresh : Fresh firstRegistrations GenerationTables.empty := by
  refine ⟨fun i j m n h => ?_, fun i n => List.cons_ne_nil _ _, fun i n => List.cons_ne_nil _ _⟩
  unfold firstRegistrations at h
  simp only [List.cons.injEq] at h
  have hlength := congrArg List.length h.2
  simp only [List.length_replicate] at hlength
  refine ⟨?_, hlength⟩
  cases i <;> cases j <;> simp at h ⊢

open RegistryCommits in
/-- Both read before either writes: one wins, and the other decides again, from what the first wrote. -/
theorem firstRegistrations_serial :
    let s := run firstRegistrations (start GenerationTables.empty)
      [.read true, .read false, .write true, .write false, .read false, .write false]
    s.db.records [1] = serially firstRegistrations ⟨[], [], fun _ => none⟩ [(true, 1), (false, 2)] ∧
      s.phases false = .returned (some 2) ∧
      ((s.db.records [1]).entries.map (·.1.id.processor), (s.db.records [1]).slots .canonical) =
        ([[8], [9]], some ⟨[7], [8]⟩) := by
  obtain ⟨hserial, hreturned, -⟩ := commits_serial firstRegistrations_fresh
    [.read true, .read false, .write true, .write false, .read false, .write false]
  exact ⟨hserial [1], hreturned false 2 (by decide), by decide⟩

end Etherfold
