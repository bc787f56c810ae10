import Etherfold.Ledger.Lex
import Etherfold.Store.Entity

/-!
# The generation registry

A generation is a stream and the processor that folds it. The registry records the
generations an indexer holds, the streams it keeps, and what each of three slots names. Every
operation decides on the records it read and writes in one commit, or refuses.

* `createPlan`, `movePlan`, `deletePlan`, `deleteStreamPlan`: the decisions.
* `GenerationRegistryRecords`: the reference substrate, and the calls on it.
-/

namespace Etherfold

/-- A generation's identity. -/
structure GenerationId where
  stream : Text
  processor : Text
  deriving DecidableEq, Repr

structure GenerationRecord where
  id : GenerationId
  createdAt : ℤ
  deriving DecidableEq, Repr

inductive SlotName where
  | canonical
  | successor
  | predecessor
  deriving DecidableEq, Repr

def slotNames : List SlotName := [.canonical, .successor, .predecessor]

/-- What each slot names. -/
abbrev GenerationSlots := SlotName → Option GenerationId

/-- A write to the slots: an absent name leaves its slot, a null clears it. -/
abbrev SlotAssignment := SlotName → Option (Option GenerationId)

/-- How many generations and streams an indexer may hold. -/
structure GenerationCaps where
  maxGenerations : ℕ
  maxStreams : ℕ
  generations_pos : 1 ≤ maxGenerations
  streams_pos : 1 ≤ maxStreams

inductive GenerationCap where
  | maxGenerations
  | maxStreams
  deriving DecidableEq, Repr

/-- Why a call is refused, with what its message names. -/
inductive RegistryError where
  | emptyStream
  | emptyProcessor
  | emptyBundle
  | invalidCap (cap : GenerationCap) (value : ℤ)
  | capReached (cap : GenerationCap) (limit : ℕ) (refused : GenerationId) (candidates : List GenerationId)
      (candidateStreams : List Text)
  | unknownGeneration (id : GenerationId)
  | unknownStream (digest : Text)
  | isCanonical (id : GenerationId)
  deriving DecidableEq, Repr

/-- What a commit decides on. -/
structure GenerationRegistryState where
  generations : List GenerationRecord
  slots : GenerationSlots
  keptStreams : List Text

/-- What a commit writes. -/
structure GenerationRegistryWrite where
  remove : List GenerationId
  put : Option GenerationRecord
  bundle : Option (List UInt8)
  slots : SlotAssignment
  keepStream : Option Text
  forgetStreams : List Text

/-- The substrate: a record and its bundle under each identity, the streams, the slots. -/
structure GenerationRegistryRecords where
  entries : List (GenerationRecord × Option (List UInt8))
  streams : List Text
  slots : GenerationSlots

/-! ### The rules -/

def assertIdentity (id : GenerationId) : Except RegistryError GenerationId :=
  if id.stream = [] then .error .emptyStream
  else if id.processor = [] then .error .emptyProcessor
  else .ok id

def assertBundle : Option (List UInt8) → Except RegistryError (Option (List UInt8))
  | some [] => .error .emptyBundle
  | bundle => .ok bundle

def assertCaps (maxGenerations maxStreams : ℤ) : Except RegistryError GenerationCaps :=
  if hg : maxGenerations < 1 then .error (.invalidCap .maxGenerations maxGenerations)
  else if hs : maxStreams < 1 then .error (.invalidCap .maxStreams maxStreams)
  else .ok ⟨maxGenerations.toNat, maxStreams.toNat, by omega, by omega⟩

/-- Caps that may be had are caps that were accepted. -/
theorem assertCaps_eq_ok {maxGenerations maxStreams : ℤ} {caps : GenerationCaps} :
    assertCaps maxGenerations maxStreams = .ok caps ↔
      maxGenerations = caps.maxGenerations ∧ maxStreams = caps.maxStreams := by
  obtain ⟨generations, streams, hgenerations, hstreams⟩ := caps
  unfold assertCaps
  split
  · simp
    omega
  · split
    · simp
      omega
    · simp only [Except.ok.injEq, GenerationCaps.mk.injEq]
      omega

/-- Which slot names this generation: the first that does. -/
def slotHolding (slots : GenerationSlots) (id : GenerationId) : Option SlotName :=
  slotNames.find? fun name => slots name = some id

/-- Code unit by code unit. -/
def compareText (a b : Text) : ℤ := Lex.compare (fun x y => (x.toNat : ℤ) - y.toNat) a b

theorem agrees_compareText : Lex.Agrees compareText (List.map UInt16.toNat) := by
  refine Lex.Agrees.compare ⟨fun x y => ?_, fun x y => ?_⟩ <;> omega

section Order

-- how the runtime compares two texts in its locale
variable (localeCompare : Text → Text → ℤ)

/-- Oldest first, then the identity. -/
def byAge (a b : GenerationRecord) : ℤ :=
  if a.createdAt - b.createdAt ≠ 0 then a.createdAt - b.createdAt
  else if localeCompare a.id.stream b.id.stream ≠ 0 then localeCompare a.id.stream b.id.stream
  else localeCompare a.id.processor b.id.processor

/-- The oldest surviving generation on a stream. -/
def fetcherOf (generations : List GenerationRecord) (stream : Text) : Option GenerationRecord :=
  ((generations.filter (·.id.stream = stream)).insertionSort fun a b => byAge localeCompare a b ≤ 0).head?

end Order

/-- No slot is written. -/
def SlotAssignment.none : SlotAssignment := fun _ => Option.none

/-- One slot is assigned, or cleared. -/
def SlotAssignment.set (a : SlotAssignment) (name : SlotName) (value : Option GenerationId) : SlotAssignment :=
  Function.update a name (some value)

/-- What the slots name after a write. -/
def GenerationSlots.assigned (slots : GenerationSlots) (a : SlotAssignment) : GenerationSlots :=
  fun name => (a name).getD (slots name)

/-- Clear every slot that names one of these. -/
def clearSlotsNaming (slots : GenerationSlots) (removed : List GenerationId) : SlotAssignment := fun name =>
  match slots name with
  | some id => if id ∈ removed then some Option.none else Option.none
  | Option.none => Option.none

/-- What a cap's refusal offers for deletion. -/
def deletable (current : GenerationRegistryState) : List GenerationId × List Text :=
  ((current.generations.map (·.id)).filter fun id => current.slots .canonical ≠ some id,
    (((current.generations.map (·.id.stream)).dedup.filter fun digest =>
      (current.slots .canonical).map (·.stream) ≠ some digest).insertionSort fun a b => compareText a b ≤ 0))

def GenerationRegistryWrite.nothing : GenerationRegistryWrite := ⟨[], none, none, SlotAssignment.none, none, []⟩

/-- **Register a generation**, or resolve the one registered. -/
def createPlan (caps : GenerationCaps) (now : ℤ) (wanted : GenerationId) (into : Option SlotName)
    (bundle : Option (List UInt8)) (current : GenerationRegistryState) :
    Except RegistryError (GenerationRecord × GenerationRegistryWrite) :=
  let keep := { GenerationRegistryWrite.nothing with keepStream := some wanted.stream }
  match current.generations.find? (·.id = wanted) with
  | some found =>
    if current.slots .canonical = none then
      .ok (found, { keep with slots := SlotAssignment.none.set .canonical (some found.id) })
    -- an arrival of what `predecessor` names is armed again
    else if into = some .successor ∧ slotHolding current.slots found.id = some .predecessor then
      .ok (found, { keep with
        slots := (SlotAssignment.none.set .successor (some found.id)).set .predecessor none })
    else
      match into, slotHolding current.slots found.id with
      | some slot, none => .ok (found, { keep with slots := SlotAssignment.none.set slot (some found.id) })
      | _, _ => .ok (found, keep)
  | none =>
    let streams := (current.generations.map (·.id.stream)).dedup
    if caps.maxGenerations < current.generations.length + 1 then
      .error (.capReached .maxGenerations caps.maxGenerations wanted (deletable current).1 (deletable current).2)
    else if wanted.stream ∉ streams ∧ caps.maxStreams < streams.length + 1 then
      .error (.capReached .maxStreams caps.maxStreams wanted (deletable current).1 (deletable current).2)
    else
      -- strictly increasing, whatever the clock reads
      let newest := (current.generations.map (·.createdAt)).foldl max 0
      let resolved : GenerationRecord := ⟨wanted, max now (newest + 1)⟩
      .ok (resolved, { keep with
        put := some resolved
        bundle := bundle
        slots :=
          if current.slots .canonical = none then SlotAssignment.none.set .canonical (some wanted)
          else
            match into with
            | some slot => SlotAssignment.none.set slot (some wanted)
            | none => SlotAssignment.none })

/-- **Move the canonical pointer**; what it came off becomes the predecessor, unless the caller
says otherwise. -/
def movePlan (wanted : GenerationId) (assignPredecessor : Bool) (current : GenerationRegistryState) :
    Except RegistryError (GenerationRecord × Option GenerationRegistryWrite) :=
  match current.generations.find? (·.id = wanted) with
  | none => .error (.unknownGeneration wanted)
  | some found =>
    if current.slots .canonical = some found.id then .ok (found, none)
    else
      let moved := SlotAssignment.none.set .canonical (some found.id)
      let left := match current.slots .canonical with
        | some movedOff => if assignPredecessor then moved.set .predecessor (some movedOff) else moved
        | none => moved
      let slots := if slotHolding current.slots found.id = some .successor then left.set .successor none else left
      .ok (found, some { GenerationRegistryWrite.nothing with slots := slots })

/-- **Delete a generation**; its stream goes with it where that was asked for and no other
generation folds it. -/
def deletePlan (wanted : GenerationId) (reapStream : Bool) (current : GenerationRegistryState) :
    Except RegistryError (GenerationRecord × Option Text × GenerationRegistryWrite) :=
  match current.generations.find? (·.id = wanted) with
  | none => .error (.unknownGeneration wanted)
  | some found =>
    if current.slots .canonical = some found.id then .error (.isCanonical wanted)
    else
      let reaped := if reapStream ∧ (current.generations.filter (·.id.stream = found.id.stream)).length = 1 then
        some found.id.stream else none
      .ok (found, reaped, { GenerationRegistryWrite.nothing with
        remove := [found.id]
        forgetStreams := reaped.toList
        slots := clearSlotsNaming current.slots [found.id] })

/-- **Delete a stream** and every generation on it. -/
def deleteStreamPlan (localeCompare : Text → Text → ℤ) (digest : Text) (current : GenerationRegistryState) :
    Except RegistryError (List GenerationRecord × GenerationRegistryWrite) :=
  let on := (current.generations.filter (·.id.stream = digest)).insertionSort fun a b => byAge localeCompare a b ≤ 0
  if on = [] ∧ digest ∉ current.keptStreams then .error (.unknownStream digest)
  else
    match (current.slots .canonical).filter (·.stream = digest) with
    | some canonical => .error (.isCanonical canonical)
    | none => .ok (on, { GenerationRegistryWrite.nothing with
        remove := on.map (·.id)
        forgetStreams := [digest]
        slots := clearSlotsNaming current.slots (on.map (·.id)) })

/-! ### The reference substrate -/

namespace GenerationRegistryRecords

/-- What every read and every commit sees. -/
def snapshot (r : GenerationRegistryRecords) : GenerationRegistryState := ⟨r.entries.map (·.1), r.slots, r.streams⟩

/-- A record under its identity, in place of one that was there. -/
def putEntry (entries : List (GenerationRecord × Option (List UInt8))) (record : GenerationRecord)
    (bundle : Option (List UInt8)) : List (GenerationRecord × Option (List UInt8)) :=
  if entries.any (·.1.id = record.id) then entries.map fun e => if e.1.id = record.id then (record, bundle) else e
  else entries ++ [(record, bundle)]

/-- One commit: removals, then the record, then the streams, then the slots. -/
def write (r : GenerationRegistryRecords) (w : GenerationRegistryWrite) : GenerationRegistryRecords :=
  let kept := r.entries.filter (·.1.id ∉ w.remove)
  let recorded := match w.keepStream with
    | some digest => if digest ∈ r.streams then r.streams else r.streams ++ [digest]
    | none => r.streams
  { entries := match w.put with
      | some record => putEntry kept record w.bundle
      | none => kept
    streams := recorded.filter (· ∉ w.forgetStreams)
    slots := GenerationSlots.assigned r.slots w.slots }

/-- Drop a stream's subtree. This substrate stores no streams, so its record is all there is. -/
def dropStreamSubtree (r : GenerationRegistryRecords) (digest : Text) : ℕ × GenerationRegistryRecords :=
  (if digest ∈ r.streams then 1 else 0, { r with streams := r.streams.filter (· ≠ digest) })

/-- What `deleteGeneration` did. -/
structure Deletion where
  generation : GenerationRecord
  reaped : Option Text
  records : Option ℕ
  deriving DecidableEq, Repr

/-- What `deleteStream` did. -/
structure StreamDeletion where
  generations : List GenerationRecord
  digest : Text
  records : ℕ
  deriving DecidableEq, Repr

variable (caps : GenerationCaps) (localeCompare : Text → Text → ℤ) (r : GenerationRegistryRecords)

def create (id : GenerationId) (slot : Option SlotName) (bundle : Option (List UInt8)) (now : ℤ) :
    Except RegistryError GenerationRecord × GenerationRegistryRecords :=
  let plan := do
    let wanted ← assertIdentity id
    let bundle ← assertBundle bundle
    createPlan caps now wanted slot bundle r.snapshot
  match plan with
  | .error e => (.error e, r)
  | .ok (record, w) => (.ok record, r.write w)

def moveCanonicalTo (id : GenerationId) (assignPredecessor : Bool) :
    Except RegistryError GenerationRecord × GenerationRegistryRecords :=
  match assertIdentity id >>= fun wanted => movePlan wanted assignPredecessor r.snapshot with
  | .error e => (.error e, r)
  | .ok (record, none) => (.ok record, r)
  | .ok (record, some w) => (.ok record, r.write w)

/-- The state is dropped after the commit, then the stream, where it was reaped. -/
def deleteGeneration (id : GenerationId) (reapStream : Bool) : Except RegistryError Deletion × GenerationRegistryRecords :=
  match assertIdentity id >>= fun wanted => deletePlan wanted reapStream r.snapshot with
  | .error e => (.error e, r)
  | .ok (record, none, w) => (.ok ⟨record, none, none⟩, r.write w)
  | .ok (record, some digest, w) =>
    let dropped := (r.write w).dropStreamSubtree digest
    (.ok ⟨record, some digest, some dropped.1⟩, dropped.2)

def deleteStream (digest : Text) : Except RegistryError StreamDeletion × GenerationRegistryRecords :=
  match deleteStreamPlan localeCompare digest r.snapshot with
  | .error e => (.error e, r)
  | .ok (removed, w) =>
    let dropped := (r.write w).dropStreamSubtree digest
    (.ok ⟨removed, digest, dropped.1⟩, dropped.2)

end GenerationRegistryRecords

/-! ### What each decision writes -/

theorem assertIdentity_ok {id wanted : GenerationId} (h : assertIdentity id = .ok wanted) : wanted = id := by
  unfold assertIdentity at h
  split at h
  · cases h
  split at h
  · cases h
  · injection h with heq
    exact heq.symm

theorem find_generation {generations : List GenerationRecord} {wanted : GenerationId} {found : GenerationRecord}
    (h : generations.find? (·.id = wanted) = some found) : found ∈ generations ∧ found.id = wanted := by
  have hid := List.find?_some h
  rw [decide_eq_true_eq] at hid
  exact ⟨List.mem_of_find?_eq_some h, hid⟩

theorem find_generation_none {generations : List GenerationRecord} {wanted : GenerationId} (h : generations.find? (·.id = wanted) = none) :
    ∀ g ∈ generations, g.id ≠ wanted := by
  intro g hg
  have hne := List.find?_eq_none.1 h g hg
  rwa [decide_eq_true_eq] at hne

section Plans

variable {caps : GenerationCaps} {current : GenerationRegistryState} {wanted : GenerationId} {record : GenerationRecord}
  {w : GenerationRegistryWrite}

/-- A registration resolves what is there or records what was not, and keeps its stream. -/
theorem createPlan_ok {now : ℤ} {into : Option SlotName} {bundle : Option (List UInt8)}
    (h : createPlan caps now wanted into bundle current = .ok (record, w)) :
    record.id = wanted ∧ w.remove = [] ∧ w.forgetStreams = [] ∧ w.keepStream = some wanted.stream ∧
      (w.put = none ∧ record ∈ current.generations ∨ w.put = some record ∧ ∀ g ∈ current.generations, g.id ≠ wanted) := by
  unfold createPlan at h
  split at h
  · rename_i found hfind
    obtain ⟨hmem, hid⟩ := find_generation hfind
    have hkeep : ∀ slots, Except.ok (found, { GenerationRegistryWrite.nothing with
          keepStream := some wanted.stream, slots := slots }) = (.ok (record, w) : Except RegistryError _) →
        record.id = wanted ∧ w.remove = [] ∧ w.forgetStreams = [] ∧ w.keepStream = some wanted.stream ∧
          (w.put = none ∧ record ∈ current.generations ∨
            w.put = some record ∧ ∀ g ∈ current.generations, g.id ≠ wanted) := by
      intro slots heq
      injection heq with heq
      injection heq with hrecord hw
      subst hrecord hw
      exact ⟨hid, rfl, rfl, rfl, .inl ⟨rfl, hmem⟩⟩
    split at h
    · exact hkeep _ h
    split at h
    · exact hkeep _ h
    split at h
    · exact hkeep _ h
    · exact hkeep _ h
  · rename_i hfind
    dsimp only at h
    split at h
    · cases h
    split at h
    · cases h
    injection h with heq
    injection heq with hrecord hw
    subst hrecord hw
    exact ⟨rfl, rfl, rfl, rfl, .inr ⟨rfl, find_generation_none hfind⟩⟩

/-- A move of the pointer writes slots alone. -/
theorem movePlan_slots {assignPredecessor : Bool} (h : movePlan wanted assignPredecessor current = .ok (record, some w)) :
    w.put = none ∧ w.remove = [] ∧ w.keepStream = none ∧ w.forgetStreams = [] := by
  unfold movePlan at h
  split at h
  · cases h
  split at h
  · injection h with heq
    injection heq with _ hnone
    cases hnone
  · injection h with heq
    injection heq with _ hw
    injection hw with hw
    subst hw
    exact ⟨rfl, rfl, rfl, rfl⟩

/-- A deletion removes one generation, and forgets its stream only where it was alone on it. -/
theorem deletePlan_ok {reapStream : Bool} {reaped : Option Text}
    (h : deletePlan wanted reapStream current = .ok (record, reaped, w)) :
    record ∈ current.generations ∧ record.id = wanted ∧ current.slots .canonical ≠ some wanted ∧ w.put = none ∧
      w.keepStream = none ∧ w.remove = [wanted] ∧ w.forgetStreams = reaped.toList ∧
      w.slots = clearSlotsNaming current.slots [wanted] ∧
      ∀ digest, reaped = some digest → ∀ g ∈ current.generations, g.id.stream = digest → g = record := by
  unfold deletePlan at h
  split at h
  · cases h
  rename_i found hfind
  obtain ⟨hmem, rfl⟩ := find_generation hfind
  split at h
  · cases h
  rename_i hnot
  injection h with heq
  injection heq with hrecord heq
  injection heq with hreaped hw
  subst hrecord hw
  rw [hreaped]
  refine ⟨hmem, rfl, hnot, rfl, rfl, rfl, rfl, rfl, ?_⟩
  intro digest hdigest g hg hon
  rw [← hreaped] at hdigest
  split at hdigest
  · rename_i halone
    injection hdigest with hdigest
    obtain ⟨last, hlast⟩ := List.length_eq_one_iff.1 halone.2
    have hfound : found ∈ current.generations.filter (·.id.stream = found.id.stream) :=
      List.mem_filter.2 ⟨hmem, decide_eq_true rfl⟩
    have hother : g ∈ current.generations.filter (·.id.stream = found.id.stream) :=
      List.mem_filter.2 ⟨hg, decide_eq_true (hon.trans hdigest.symm)⟩
    rw [hlast, List.mem_singleton] at hfound hother
    rw [hother, hfound]
  · cases hdigest

/-- The deletion of a stream removes every generation on it and forgets it. -/
theorem deleteStreamPlan_ok {localeCompare : Text → Text → ℤ} {digest : Text} {removed : List GenerationRecord}
    (h : deleteStreamPlan localeCompare digest current = .ok (removed, w)) :
    (∀ g, g ∈ removed ↔ g ∈ current.generations ∧ g.id.stream = digest) ∧
      (∀ id, current.slots .canonical = some id → id.stream ≠ digest) ∧ w.put = none ∧ w.keepStream = none ∧
      w.remove = removed.map (·.id) ∧ w.forgetStreams = [digest] ∧
      w.slots = clearSlotsNaming current.slots (removed.map (·.id)) := by
  unfold deleteStreamPlan at h
  dsimp only at h
  split at h
  · cases h
  split at h
  · cases h
  rename_i hother
  injection h with heq
  injection heq with hremoved hw
  subst hw
  rw [hremoved]
  rw [Option.filter_eq_none_iff] at hother
  refine ⟨fun g => ?_, fun id hid => ?_, rfl, rfl, rfl, rfl, rfl⟩
  · rw [← hremoved, List.mem_insertionSort, List.mem_filter, decide_eq_true_eq]
  · have hne := hother id hid
    rwa [decide_eq_true_eq] at hne

end Plans

namespace GenerationRegistryRecords

variable {r : GenerationRegistryRecords} {w : GenerationRegistryWrite}

/-- A write without a record. -/
theorem generations_write (hput : w.put = none) :
    (r.write w).snapshot.generations = r.snapshot.generations.filter (·.id ∉ w.remove) := by
  unfold write snapshot
  rw [hput]
  show (r.entries.filter _).map _ = (r.entries.map _).filter _
  rw [List.filter_map]
  rfl

/-- A write of a record that was not there. -/
theorem generations_write_put {record : GenerationRecord} (hput : w.put = some record) (hremove : w.remove = [])
    (hnew : ∀ g ∈ r.snapshot.generations, g.id ≠ record.id) :
    (r.write w).snapshot.generations = r.snapshot.generations ++ [record] := by
  have hall : r.entries.filter (·.1.id ∉ w.remove) = r.entries := by
    rw [List.filter_eq_self, hremove]
    intro e _
    rw [decide_eq_true_eq]
    exact List.not_mem_nil
  have habsent : ¬(r.entries.any (·.1.id = record.id)) = true := by
    rw [List.any_eq_true]
    intro hany
    obtain ⟨e, he, heq⟩ := hany
    exact hnew e.1 (List.mem_map_of_mem he) (of_decide_eq_true heq)
  unfold write snapshot
  rw [hput]
  show (putEntry (r.entries.filter (·.1.id ∉ w.remove)) record w.bundle).map (·.1) = r.entries.map (·.1) ++ [record]
  unfold putEntry
  rw [hall, if_neg habsent, List.map_append]
  rfl

/-- A stream is kept unless it is forgotten. -/
theorem mem_streams_write {digest : Text} : digest ∈ (r.write w).snapshot.keptStreams ↔
    (digest ∈ r.snapshot.keptStreams ∨ w.keepStream = some digest) ∧ digest ∉ w.forgetStreams := by
  unfold write snapshot
  dsimp only
  rw [List.mem_filter, decide_eq_true_eq]
  refine and_congr_left fun _ => ?_
  cases w.keepStream with
  | none => simp
  | some kept =>
    dsimp only
    by_cases hmem : kept ∈ r.streams
    · rw [if_pos hmem, Option.some.injEq]
      refine ⟨Or.inl, ?_⟩
      rintro (hin | heq)
      · exact hin
      · rwa [← heq]
    · rw [if_neg hmem, List.mem_append, List.mem_singleton, Option.some.injEq, eq_comm]

end GenerationRegistryRecords

end Etherfold
