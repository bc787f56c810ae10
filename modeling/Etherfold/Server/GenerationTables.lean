import Etherfold.Generation.Registry
import Etherfold.Ledger.Keyed

/-!
# The registry's tables

The registry in a database: a row a generation with its bundle, a row a stream, and one row of
slots that carries the revision every commit is guarded on. A commit is one batch of statements,
each guarded on the revision the commit was decided from.

* `statementsFor`: the batch of a commit.
* `records_batch`: **a batch decided from the revision that stands writes what the port's
  contract says**, and swaps the revision.
* `batch_lost`: **any other batch writes nothing**.
-/

namespace Etherfold

/-- What the guard compares against before there is a slot row. -/
def unwritten : Text := []

/-- A slot row: two columns a slot, both null where it is empty, and the revision. -/
structure SlotRow where
  columns : SlotName → Option Text × Option Text
  revision : Text

/-- The tables, over every named indexer. -/
structure GenerationTables where
  generations : Keyed (Text × GenerationId) (ℤ × Option (List UInt8))
  slots : Keyed Text SlotRow
  streams : Keyed (Text × Text) Unit

/-- What the row says each slot holds. -/
def slotsFrom (row : Option SlotRow) : GenerationSlots := fun slot =>
  match row.map (·.columns slot) with
  | some (some stream, some processor) => some ⟨stream, processor⟩
  | _ => none

/-- One statement of a commit's batch. -/
inductive GenerationStatement where
  | deleteGeneration (indexer : Text) (id : GenerationId) (revision : Text)
  | putGeneration (indexer : Text) (id : GenerationId) (createdAt : ℤ) (revision : Text) (bundle : Option (List UInt8))
  | keepStream (indexer : Text) (digest : Text) (revision : Text)
  | forgetStream (indexer : Text) (digest : Text) (revision : Text)
  | writeSlots (indexer : Text) (values : SlotName → Option Text × Option Text) (touched : SlotName → Bool)
      (next revision : Text)
  | selectRevision (indexer : Text)

namespace GenerationTables

def empty : GenerationTables := ⟨Keyed.empty, Keyed.empty, Keyed.empty⟩

/-- `COALESCE((SELECT revision …), '')`. -/
def revisionOf (db : GenerationTables) (indexer : Text) : Text :=
  ((db.slots.get indexer).map (·.revision)).getD unwritten

/-- The generations of one indexer, each with its bundle; its streams; its slots. -/
def records (db : GenerationTables) (indexer : Text) : GenerationRegistryRecords where
  entries := (db.generations.select (·.1 = indexer)).map fun row => (⟨row.1.2, row.2.1⟩, row.2.2)
  streams := (db.streams.select (·.1 = indexer)).map (·.1.2)
  slots := slotsFrom (db.slots.get indexer)

/-- One statement, and the revision it selects, where it selects one. -/
def execute (db : GenerationTables) : GenerationStatement → GenerationTables × Option Text
  | .deleteGeneration indexer id revision =>
    ({ db with generations := db.generations.delete fun key =>
        key = (indexer, id) ∧ db.revisionOf indexer = revision }, none)
  | .putGeneration indexer id createdAt revision bundle =>
    if db.revisionOf indexer = revision then
      ({ db with generations := db.generations.upsert (indexer, id) (createdAt, bundle) fun _ => (createdAt, bundle) }, none)
    else (db, none)
  | .keepStream indexer digest revision =>
    if db.revisionOf indexer = revision then ({ db with streams := db.streams.upsert (indexer, digest) () fun row => row }, none)
    else (db, none)
  | .forgetStream indexer digest revision =>
    ({ db with streams := db.streams.delete fun key => key = (indexer, digest) ∧ db.revisionOf indexer = revision }, none)
  -- the one insert that is not guarded: where there is no row, it takes
  | .writeSlots indexer values touched next revision =>
    ({ db with slots := db.slots.upsert indexer ⟨values, next⟩ fun row =>
        if row.revision = revision then ⟨fun slot => if touched slot then values slot else row.columns slot, next⟩
        else row }, none)
  | .selectRevision indexer => (db, (db.slots.get indexer).map (·.revision))

/-- One transaction: the statements one after another, and what each selects. -/
def batch : List GenerationStatement → GenerationTables → GenerationTables × List (Option Text)
  | [], db => (db, [])
  | s :: rest, db => ((batch rest (db.execute s).1).1, (db.execute s).2 :: (batch rest (db.execute s).1).2)

end GenerationTables

/-- The records, the slots and the streams, and the revision they were read at. -/
def readGuarded (db : GenerationTables) (indexer : Text) : GenerationRegistryState × Text :=
  ((db.records indexer).snapshot, ((db.slots.get indexer).map (·.revision)).getD unwritten)

/-- Whether a planned write has anything in it that would reach the database. -/
def writesAnything (write : GenerationRegistryWrite) : Bool :=
  0 < write.remove.length ∨ write.put.isSome ∨ write.keepStream ≠ none ∨ 0 < write.forgetStreams.length ∨
    ∃ slot ∈ slotNames, write.slots slot ≠ none

open GenerationStatement in
/-- **The batch a commit sends**: its writes, the slots with the next revision, the report. -/
def statementsFor (indexer : Text) (write : GenerationRegistryWrite) (revision next : Text) : List GenerationStatement :=
  write.remove.map (deleteGeneration indexer · revision) ++
  write.put.toList.map (fun record => putGeneration indexer record.id record.createdAt revision write.bundle) ++
  write.keepStream.toList.map (keepStream indexer · revision) ++
  write.forgetStreams.map (forgetStream indexer · revision) ++
  [writeSlots indexer
      (fun slot => ((write.slots slot).join.map (·.stream), (write.slots slot).join.map (·.processor)))
      (fun slot => (write.slots slot).isSome) next revision,
    selectRevision indexer]

/-- The revision the last statement of a batch reports. -/
def applied (results : List (Option Text)) : Option Text := results.getLast?.join

theorem GenerationRegistryRecords.ext_of {r r' : GenerationRegistryRecords} (hentries : r.entries = r'.entries)
    (hstreams : r.streams = r'.streams) (hslots : r.slots = r'.slots) : r = r' := by
  cases r
  cases r'
  simp only at hentries hstreams hslots
  rw [hentries, hstreams, hslots]

namespace GenerationTables

variable {db db' : GenerationTables} {indexer other revision next : Text} {write : GenerationRegistryWrite}

/-! ### Transactions -/

theorem batch_append (first rest : List GenerationStatement) (db : GenerationTables) :
    batch (first ++ rest) db = ((batch rest (batch first db).1).1, (batch first db).2 ++ (batch rest (batch first db).1).2) := by
  induction first generalizing db with
  | nil => rfl
  | cons s first ih =>
    rw [List.cons_append, batch, ih]
    rfl

/-- Statements that do nothing make a batch that does nothing. -/
theorem batch_of_idle {statements : List GenerationStatement} (h : ∀ s ∈ statements, (db.execute s).1 = db) :
    (batch statements db).1 = db := by
  induction statements with
  | nil => rfl
  | cons s rest ih =>
    have hs := h s List.mem_cons_self
    show (batch rest (db.execute s).1).1 = db
    rw [hs]
    exact ih fun s' hs' => h s' (List.mem_cons_of_mem _ hs')

/-! ### A batch whose guard holds -/

theorem batch_deletes (db : GenerationTables) (ids : List GenerationId) (h : db.revisionOf indexer = revision) :
    let db' := (batch (ids.map (.deleteGeneration indexer · revision)) db).1
    db'.slots = db.slots ∧ db'.streams = db.streams ∧ ∀ other, (db'.records other).entries =
      if other = indexer then (db.records other).entries.filter (·.1.id ∉ ids) else (db.records other).entries := by
  induction ids generalizing db with
  | nil => simp [batch]
  | cons id ids ih =>
    have hih := ih (db.execute (.deleteGeneration indexer id revision)).1 h
    intro db'
    refine ⟨hih.1, hih.2.1, fun other => ?_⟩
    rw [show (db'.records other).entries = _ from hih.2.2 other]
    have hentries : ((db.execute (.deleteGeneration indexer id revision)).1.records other).entries =
        (db.records other).entries.filter fun e => ¬(other = indexer ∧ e.1.id = id) := by
      simp only [execute, records, Keyed.select_delete]
      show _ = ((db.generations.select _).map _).filter _
      rw [List.filter_map]
      congr 1
      apply List.filter_congr
      intro row hrow
      have hother : row.1.1 = other := by simpa using (List.mem_filter.1 hrow).2
      simp [h, Prod.ext_iff, hother]
    rw [hentries]
    by_cases ho : other = indexer
    · rw [if_pos ho, if_pos ho, List.filter_filter]
      apply List.filter_congr
      intro e _
      simp [ho, Bool.and_comm]
    · rw [if_neg ho, if_neg ho, List.filter_eq_self]
      intro e _
      simp [ho]

theorem batch_put (db : GenerationTables) (put : Option GenerationRecord) (bundle : Option (List UInt8)) (h : db.revisionOf indexer = revision) :
    let db' := (batch (put.toList.map fun record =>
      .putGeneration indexer record.id record.createdAt revision bundle) db).1
    db'.slots = db.slots ∧ db'.streams = db.streams ∧ ∀ other, (db'.records other).entries =
      if other = indexer then
        match put with
        | some record => GenerationRegistryRecords.putEntry (db.records other).entries record bundle
        | none => (db.records other).entries
      else (db.records other).entries := by
  cases put with
  | none => simp [batch]
  | some record =>
    have hexec : (batch ((some record).toList.map fun record =>
        .putGeneration indexer record.id record.createdAt revision bundle) db).1 =
        { db with generations := db.generations.upsert (indexer, record.id) (record.createdAt, bundle) fun _ =>
          (record.createdAt, bundle) } := by
      show (db.execute _).1 = _
      simp only [execute, if_pos h]
    rw [hexec]
    refine ⟨rfl, rfl, fun other => ?_⟩
    show List.map _ ((db.generations.upsert _ _ _).select _) = _
    by_cases ho : other = indexer
    · rw [if_pos ho, Keyed.select_upsert (by simp [ho])]
      show _ = GenerationRegistryRecords.putEntry ((db.generations.select _).map _) record bundle
      unfold Keyed.insertRow GenerationRegistryRecords.putEntry
      have hany : ((db.generations.select (·.1 = other)).map fun row =>
          ((⟨row.1.2, row.2.1⟩, row.2.2) : GenerationRecord × Option (List UInt8))).any (·.1.id = record.id) =
          (db.generations.select (·.1 = other)).any (·.1 = (indexer, record.id)) := by
        rw [List.any_map, Bool.eq_iff_iff, List.any_eq_true, List.any_eq_true]
        apply exists_congr
        intro row
        rw [and_congr_right_iff]
        intro hrow
        have hother : row.1.1 = other := by simpa using (List.mem_filter.1 hrow).2
        simp [Prod.ext_iff, hother, ho]
      rw [hany]
      split
      · rw [List.map_map, List.map_map]
        apply List.map_congr_left
        intro row hrow
        have hother : row.1.1 = other := by simpa using (List.mem_filter.1 hrow).2
        by_cases hid : row.1.2 = record.id <;> simp [Prod.ext_iff, hother, ho, hid]
      · rw [List.map_append]
        rfl
    · rw [if_neg ho, Keyed.select_upsert_of_not (by simp [Ne.symm ho])]
      rfl

theorem batch_keep (db : GenerationTables) (keep : Option Text) (h : db.revisionOf indexer = revision) :
    let db' := (batch (keep.toList.map (.keepStream indexer · revision)) db).1
    db'.slots = db.slots ∧ db'.generations = db.generations ∧ ∀ other, (db'.records other).streams =
      if other = indexer then
        match keep with
        | some digest => if digest ∈ (db.records other).streams then (db.records other).streams
            else (db.records other).streams ++ [digest]
        | none => (db.records other).streams
      else (db.records other).streams := by
  cases keep with
  | none => simp [batch]
  | some digest =>
    have hexec : (batch ((some digest).toList.map (.keepStream indexer · revision)) db).1 =
        { db with streams := db.streams.upsert (indexer, digest) () fun row => row } := by
      show (db.execute _).1 = _
      simp only [execute, if_pos h]
    rw [hexec]
    refine ⟨rfl, rfl, fun other => ?_⟩
    show List.map _ ((db.streams.upsert _ _ _).select _) = _
    by_cases ho : other = indexer
    · rw [if_pos ho, Keyed.select_upsert (by simp [ho])]
      have hmem : (db.streams.select (·.1 = other)).any (·.1 = (indexer, digest)) = true ↔
          digest ∈ (db.records other).streams := by
        show _ ↔ digest ∈ (db.streams.select _).map _
        rw [List.any_eq_true, List.mem_map]
        apply exists_congr
        intro row
        rw [and_congr_right_iff]
        intro hrow
        have hother : row.1.1 = other := by simpa using (List.mem_filter.1 hrow).2
        simp [Prod.ext_iff, hother, ho]
      unfold Keyed.insertRow
      by_cases hany : (db.streams.select (·.1 = other)).any (·.1 = (indexer, digest)) = true
      · simp only [if_pos hany, if_pos (hmem.1 hany)]
        rw [List.map_map]
        apply List.map_congr_left
        intro row _
        by_cases hrow : row.1 = (indexer, digest) <;> simp [hrow]
      · simp only [if_neg hany, if_neg fun hin => hany (hmem.2 hin), List.map_append]
        rfl
    · rw [if_neg ho, Keyed.select_upsert_of_not (by simp [Ne.symm ho])]
      rfl

theorem batch_forget (db : GenerationTables) (digests : List Text) (h : db.revisionOf indexer = revision) :
    let db' := (batch (digests.map (.forgetStream indexer · revision)) db).1
    db'.slots = db.slots ∧ db'.generations = db.generations ∧ ∀ other, (db'.records other).streams =
      if other = indexer then (db.records other).streams.filter (· ∉ digests) else (db.records other).streams := by
  induction digests generalizing db with
  | nil => simp [batch]
  | cons digest digests ih =>
    have hih := ih (db.execute (.forgetStream indexer digest revision)).1 h
    intro db'
    refine ⟨hih.1, hih.2.1, fun other => ?_⟩
    rw [show (db'.records other).streams = _ from hih.2.2 other]
    have hstreams : ((db.execute (.forgetStream indexer digest revision)).1.records other).streams =
        (db.records other).streams.filter fun d => ¬(other = indexer ∧ d = digest) := by
      simp only [execute, records, Keyed.select_delete]
      show _ = ((db.streams.select _).map _).filter _
      rw [List.filter_map]
      congr 1
      apply List.filter_congr
      intro row hrow
      have hother : row.1.1 = other := by simpa using (List.mem_filter.1 hrow).2
      simp [h, Prod.ext_iff, hother]
    rw [hstreams]
    by_cases ho : other = indexer
    · rw [if_pos ho, if_pos ho, List.filter_filter]
      apply List.filter_congr
      intro d _
      simp [ho, Bool.and_comm]
    · rw [if_neg ho, if_neg ho, List.filter_eq_self]
      intro d _
      simp [ho]

/-- The slots and the revision, in the one statement that writes them. -/
theorem execute_writeSlots (db : GenerationTables) (next : Text) (slots : SlotAssignment) (h : db.revisionOf indexer = revision) :
    let db' := (db.execute (.writeSlots indexer
      (fun slot => ((slots slot).join.map (·.stream), (slots slot).join.map (·.processor)))
      (fun slot => (slots slot).isSome) next revision)).1
    (∀ other ≠ indexer, db'.slots.get other = db.slots.get other) ∧ (db'.slots.get indexer).map (·.revision) = some next ∧
      slotsFrom (db'.slots.get indexer) = (slotsFrom (db.slots.get indexer)).assigned slots := by
  simp only [execute]
  refine ⟨fun other ho => by rw [Keyed.get_upsert, if_neg ho], ?_, ?_⟩
  · rw [Keyed.get_upsert, if_pos rfl]
    cases hrow : db.slots.get indexer with
    | none => rfl
    | some row =>
      have hrev : row.revision = revision := by simpa [revisionOf, hrow] using h
      simp [hrev]
  · rw [Keyed.get_upsert, if_pos rfl]
    funext slot
    cases hrow : db.slots.get indexer with
    | none =>
      -- a first commit: an untouched slot inserts null, as there was nothing to keep
      rcases hslot : slots slot with _ | _ | id <;> simp [slotsFrom, GenerationSlots.assigned, hslot]
    | some row =>
      have hrev : row.revision = revision := by simpa [revisionOf, hrow] using h
      rcases hslot : slots slot with _ | _ | id <;> simp [slotsFrom, GenerationSlots.assigned, hslot, hrev]

/-! ### The batch of a commit -/

/-- What the last statement reports is what the batch reports. -/
theorem applied_statementsFor (db : GenerationTables) (indexer : Text) (write : GenerationRegistryWrite)
    (revision next : Text) :
    let result := batch (statementsFor indexer write revision next) db
    applied result.2 = (result.1.slots.get indexer).map (·.revision) := by
  unfold statementsFor
  intro result
  rw [show result = _ from batch_append _ _ db]
  simp [applied, batch, execute]

/-- **A batch decided from the revision that stands writes what the port's contract says**, reports
the next revision, and touches no other indexer. -/
theorem records_batch (write : GenerationRegistryWrite) (next : Text) (h : db.revisionOf indexer = revision) :
    let result := batch (statementsFor indexer write revision next) db
    applied result.2 = some next ∧ result.1.revisionOf indexer = next ∧
      result.1.records indexer = (db.records indexer).write write ∧
      ∀ other ≠ indexer, result.1.records other = db.records other ∧ result.1.revisionOf other = db.revisionOf other := by
  intro result
  have happlied := applied_statementsFor db indexer write revision next
  -- the five groups of statements, one after another
  obtain ⟨hslots₁, hstreams₁, hentries₁⟩ := batch_deletes db write.remove h
  set db₁ := (batch (write.remove.map (.deleteGeneration indexer · revision)) db).1
  have h₁ : db₁.revisionOf indexer = revision := by
    unfold revisionOf at h ⊢
    rw [hslots₁, h]
  obtain ⟨hslots₂, hstreams₂, hentries₂⟩ := batch_put db₁ write.put write.bundle h₁
  set db₂ := (batch (write.put.toList.map fun record =>
    .putGeneration indexer record.id record.createdAt revision write.bundle) db₁).1
  have h₂ : db₂.revisionOf indexer = revision := by
    unfold revisionOf at h₁ ⊢
    rw [hslots₂, h₁]
  obtain ⟨hslots₃, hgenerations₃, hstreams₃⟩ := batch_keep db₂ write.keepStream h₂
  set db₃ := (batch (write.keepStream.toList.map (.keepStream indexer · revision)) db₂).1
  have h₃ : db₃.revisionOf indexer = revision := by
    unfold revisionOf at h₂ ⊢
    rw [hslots₃, h₂]
  obtain ⟨hslots₄, hgenerations₄, hstreams₄⟩ := batch_forget db₃ write.forgetStreams h₃
  set db₄ := (batch (write.forgetStreams.map (.forgetStream indexer · revision)) db₃).1
  have h₄ : db₄.revisionOf indexer = revision := by
    unfold revisionOf at h₃ ⊢
    rw [hslots₄, h₃]
  obtain ⟨hother, hnext, hassigned⟩ := execute_writeSlots db₄ next write.slots h₄
  have hresult : result.1 = (db₄.execute (.writeSlots indexer
      (fun slot => ((write.slots slot).join.map (·.stream), (write.slots slot).join.map (·.processor)))
      (fun slot => (write.slots slot).isSome) next revision)).1 := by
    show (batch (statementsFor indexer write revision next) db).1 = _
    unfold statementsFor
    rw [batch_append, batch_append, batch_append, batch_append]
    rfl
  have hgenerations : result.1.generations = db₂.generations := by
    rw [hresult, ← hgenerations₃, ← hgenerations₄]
    rfl
  have hstreams : result.1.streams = db₄.streams := by
    rw [hresult]
    rfl
  have hslots : db₄.slots = db.slots := by rw [hslots₄, hslots₃, hslots₂, hslots₁]
  rw [← hresult] at hother hnext hassigned
  rw [hslots] at hother hassigned
  have hstreams₂' : db₂.streams = db.streams := by rw [hstreams₂, hstreams₁]
  refine ⟨happlied.trans hnext, ?_, ?_, fun other ho => ⟨?_, ?_⟩⟩
  · unfold revisionOf
    rw [hnext]
    rfl
  · have hentries : (result.1.records indexer).entries = ((db.records indexer).write write).entries := by
      rw [show (result.1.records indexer).entries = (db₂.records indexer).entries by unfold records; rw [hgenerations],
        hentries₂, if_pos rfl, hentries₁, if_pos rfl]
      rfl
    have hkept : (result.1.records indexer).streams = ((db.records indexer).write write).streams := by
      rw [show (result.1.records indexer).streams = (db₄.records indexer).streams by unfold records; rw [hstreams],
        hstreams₄, if_pos rfl, hstreams₃, if_pos rfl]
      rw [show (db₂.records indexer).streams = (db.records indexer).streams by unfold records; rw [hstreams₂']]
      rfl
    exact GenerationRegistryRecords.ext_of hentries hkept hassigned
  · have hentries : (result.1.records other).entries = (db.records other).entries := by
      rw [show (result.1.records other).entries = (db₂.records other).entries by unfold records; rw [hgenerations],
        hentries₂, if_neg ho, hentries₁, if_neg ho]
    have hkept : (result.1.records other).streams = (db.records other).streams := by
      rw [show (result.1.records other).streams = (db₄.records other).streams by unfold records; rw [hstreams],
        hstreams₄, if_neg ho, hstreams₃, if_neg ho]
      unfold records
      rw [hstreams₂']
    exact GenerationRegistryRecords.ext_of hentries hkept (congrArg slotsFrom (hother other ho))
  · unfold revisionOf
    rw [hother other ho]

/-- **A batch decided from a revision that has passed writes nothing**, and reports the one that stands. -/
theorem batch_lost (write : GenerationRegistryWrite) (next : Text) (h : db.revisionOf indexer ≠ revision)
    (hrow : db.revisionOf indexer ≠ unwritten) :
    let result := batch (statementsFor indexer write revision next) db
    result.1 = db ∧ applied result.2 = some (db.revisionOf indexer) := by
  intro result
  obtain ⟨row, hget⟩ : ∃ row, db.slots.get indexer = some row := by
    cases hget : db.slots.get indexer with
    | none => exact absurd (by unfold revisionOf; rw [hget]; rfl) hrow
    | some row => exact ⟨row, rfl⟩
  have hrev : db.revisionOf indexer = row.revision := by
    unfold revisionOf
    rw [hget]
    rfl
  have hresult : result.1 = db := by
    apply batch_of_idle
    intro s hs
    simp only [statementsFor, List.mem_append, List.mem_map, List.mem_cons, List.not_mem_nil, or_false] at hs
    rcases hs with (((⟨id, -, rfl⟩ | ⟨record, -, rfl⟩) | ⟨digest, -, rfl⟩) | ⟨digest, -, rfl⟩) | rfl | rfl
    · simp only [execute]
      rw [Keyed.delete_of_not _ fun key => by simp [h]]
    · simp only [execute, if_neg h]
    · simp only [execute, if_neg h]
    · simp only [execute]
      rw [Keyed.delete_of_not _ fun key => by simp [h]]
    · simp only [execute]
      -- the slot row is there, so the insert meets it, and its guard fails
      rw [Keyed.upsert_of_idle]
      · intro w hw
        rw [hget] at hw
        injection hw with hw
        rw [← hw, if_neg (hrev ▸ h)]
      · rw [hget]
        exact Option.some_ne_none row
    · rfl
  refine ⟨hresult, ?_⟩
  rw [show applied result.2 = _ from applied_statementsFor db indexer write revision next]
  show (result.1.slots.get indexer).map (·.revision) = _
  rw [hresult, hget, hrev]
  rfl

end GenerationTables

end Etherfold
