import Etherfold.Ledger.Lex
import Etherfold.Ledger.Page
import Etherfold.Store.Entity
import Etherfold.Store.Memory

/-!
# Reading the store

A read names an entity and an id, or an entity and a prefix of its id with a limit. It
looks at the tip, or at a height the retention still covers. A listing is in ascending id
order and says whether there was more.

* `mem_found`: what a listing finds, key by key.
* `read_congr`, `scan_congr`: **two stores that hold the same version of every key answer
  alike**, whatever order their rows are in.
-/

namespace Etherfold

open Versions

/-- The heights a store can still answer about, both ends included. -/
structure RetainedRange where
  fromBlock : ℕ
  toBlock : ℕ
  deriving DecidableEq, Repr

/-- Why a historical read is refused. -/
inductive NotRetained where
  | noHistoricalReads
  | outsideWindow
  deriving DecidableEq, Repr

inductive ReadError where
  | invalidBlockNumber (requested : ℤ)
  | blockNotRetained (requested : ℤ) (retained : Option RetainedRange) (reason : NotRetained)
      (retention : Retention)
  | entity (error : EntityError)
  deriving DecidableEq, Repr

/-- What a listing answers. -/
structure Listing (X : Type) where
  rows : List (Record X)
  truncated : Bool
  deriving DecidableEq, Repr

/-- The store over declared entities. -/
abbrev EntityStore (X H C : Type) := MemoryStateStore EntityKey (Record X) H C

def retainedRange (retention : Retention) (tip : ℕ) : Option RetainedRange :=
  match retention with
  | .revertOnly => none
  | .window blocks => some ⟨tip - blocks, tip⟩
  | .unbounded => some ⟨0, tip⟩

/-- **Refuse a height the retention does not cover.** A store without blocks refuses nothing. -/
def assertRetained (retention : Retention) (requested : ℤ) (tip : Option ℕ) : Except ReadError Unit :=
  if requested < 0 then .error (.invalidBlockNumber requested)
  else
    match retention with
    | .revertOnly => .error (.blockNotRetained requested none .noHistoricalReads retention)
    | .unbounded => .ok ()
    | .window _ =>
      match tip with
      | none => .ok ()
      | some tip =>
        match retainedRange retention tip with
        | none => .ok ()
        | some retained =>
          if requested < retained.fromBlock then
            .error (.blockNotRetained requested (some retained) .outsideWindow retention)
          else .ok ()

/-! ### The order of ids -/

/-- Surrogates order above every other code unit, as the characters they belong to do. -/
def codePointRank (unit : UInt16) : ℤ :=
  if 0xd800 ≤ unit ∧ unit ≤ 0xdfff then unit.toNat + 0x10000 else unit.toNat

/-- Two texts in the order of their UTF-8 bytes. -/
def compareUtf8 (a b : Text) : ℤ := Lex.compare (fun x y => codePointRank x - codePointRank y) a b

/-- Two ids, column by column. -/
def compareIds (a b : List Text) : ℤ := Lex.compare compareUtf8 a b

theorem codePointRank_inj {x y : UInt16} : codePointRank x = codePointRank y ↔ x = y := by
  refine ⟨fun h => ?_, fun h => by rw [h]⟩
  have hx := UInt16.toNat_lt x
  have hy := UInt16.toNat_lt y
  apply UInt16.toNat_inj.1
  unfold codePointRank at h
  simp only [UInt16.le_iff_toNat_le] at h
  have hlo : (0xd800 : UInt16).toNat = 0xd800 := rfl
  have hhi : (0xdfff : UInt16).toNat = 0xdfff := rfl
  rw [hlo, hhi] at h
  split at h <;> split at h <;> omega

/-- What ids are ordered by. -/
def idOrder (id : List Text) : List (List ℤ) := id.map (List.map codePointRank)

theorem agrees_compareIds : Lex.Agrees compareIds idOrder := by
  have hunit : Lex.Agrees (fun x y => codePointRank x - codePointRank y) codePointRank :=
    ⟨fun x y => by omega, fun x y => by omega⟩
  exact hunit.compare.compare

theorem idOrder_inj {a b : List Text} (h : idOrder a = idOrder b) : a = b := by
  have hunit : Function.Injective codePointRank := fun x y => codePointRank_inj.1
  exact hunit.list_map.list_map h

/-! ### Reads -/

/-- The values of an id prefix: a leading run of at least one of the id columns. -/
def prefixValues (entity : NormalizedEntity) (idPrefix : EntityId) : Except EntityError (List Text) :=
  let named := idPrefix.map (·.1)
  let leading := entity.id.take named.length
  if named.length = 0 ∨ entity.id.length < named.length ∨ ¬named.all (leading.contains ·) then
    .error (.invalidPrefix entity.name entity.id named)
  else idValues entity.name leading idPrefix

def hasIdPrefix (id values : List Text) : Bool := values.isPrefixOf id

/-- A limit is a whole number of rows, at least one. -/
def assertListingLimit (entity : NormalizedEntity) (limit : ℤ) : Except EntityError Unit :=
  if limit < 1 then .error (.invalidLimit entity.name limit) else .ok ()

def boundedListing {X : Type} (fetched : List (Record X)) (limit : ℕ) : Listing X :=
  ⟨fetched.take limit, limit < fetched.length⟩

variable {X H C : Type}

/-- The columns a store adds to a row it read. -/
def versionColumns (version : Version (Record X)) : Record X :=
  [("_lower", .number version.lower),
    ("_upper", match version.upper with
      | none => .null
      | some upper => .number upper)]

/-- A version as it is read. -/
def readVersion (entity : NormalizedEntity) (version : Version (Record X)) : Except EntityError (Record X) :=
  decodeFieldValues entity (version.values ++ versionColumns version)

namespace EntityStore

/-- One entity, in the first version the read matches. -/
def read (declarations : List NormalizedEntity) (s : EntityStore X H C) (entity : String) (id : EntityId)
    (matching : Version (Record X) → Bool) : Except EntityError (Option (Record X)) := do
  let declaration ← mustGet declarations entity
  let key ← entityKey declaration id
  match (versionsOf s.rows key).find? matching with
  | none => .ok none
  | some version => (readVersion declaration version).map some

/-- The ids and versions a prefix scan finds. -/
def found (rows : List (Row EntityKey (Record X))) (entity : String) (values : List Text)
    (matching : Version (Record X) → Bool) : List (List Text × Version (Record X)) :=
  rows.filterMap fun row =>
    if row.key.entity = entity && hasIdPrefix row.key.id values then
      (row.versions.find? matching).map fun version => (row.key.id, version)
    else none

/-- The prefix scan. It reads one row more than the limit. -/
def scan (declarations : List NormalizedEntity) (s : EntityStore X H C) (entity : String) (idPrefix : EntityId)
    (limit : ℤ) (matching : Version (Record X) → Bool) : Except EntityError (Listing X) := do
  let declaration ← mustGet declarations entity
  let values ← prefixValues declaration idPrefix
  assertListingLimit declaration limit
  let sorted := (found s.rows declaration.name values matching).insertionSort fun a b => compareIds a.1 b.1 ≤ 0
  let rows ← (sorted.take (limit.toNat + 1)).mapM fun row => readVersion declaration row.2
  pure (boundedListing rows limit.toNat)

/-- One entity at the tip. -/
def getCurrent (declarations : List NormalizedEntity) (s : EntityStore X H C) (entity : String) (id : EntityId) :
    Except EntityError (Option (Record X)) :=
  read declarations s entity id (·.upper.isNone)

/-- One entity at a height. -/
def getAsOf (declarations : List NormalizedEntity) (s : EntityStore X H C) (entity : String) (id : EntityId)
    (height : ℤ) : Except ReadError (Option (Record X)) := do
  assertRetained s.provided height s.tip
  (read declarations s entity id (·.openAt height)).mapError .entity

/-- The children of an id prefix at the tip. -/
def listCurrent (declarations : List NormalizedEntity) (s : EntityStore X H C) (entity : String)
    (idPrefix : EntityId) (limit : ℤ) : Except EntityError (Listing X) :=
  scan declarations s entity idPrefix limit (·.upper.isNone)

/-- The children of an id prefix at a height. -/
def listAsOf (declarations : List NormalizedEntity) (s : EntityStore X H C) (entity : String)
    (idPrefix : EntityId) (height : ℤ) (limit : ℤ) : Except ReadError (Listing X) := do
  assertRetained s.provided height s.tip
  (scan declarations s entity idPrefix limit (·.openAt height)).mapError .entity

/-- A point read of a declared entity looks at one key. -/
theorem read_eq {declarations : List NormalizedEntity} {s : EntityStore X H C} {declaration : NormalizedEntity}
    {entity : String} {id : EntityId} {key : EntityKey}
    (hget : mustGet declarations entity = .ok declaration) (hkey : entityKey declaration id = .ok key)
    (matching : Version (Record X) → Bool) : read declarations s entity id matching =
      match (versionsOf s.rows key).find? matching with
      | none => .ok none
      | some version => (readVersion declaration version).map some := by
  unfold read
  rw [hget]
  show (entityKey declaration id >>= _) = _
  rw [hkey]
  rfl

/-! ### Two stores with the same versions -/

variable {rows rows' : List (Row EntityKey (Record X))} {entity : String} {values : List Text}
  {matching : Version (Record X) → Bool}

/-- What a listing finds: the version that matches, of each row of the entity under the prefix. -/
theorem mem_found_rows {id : List Text} {v : Version (Record X)} : (id, v) ∈ found rows entity values matching ↔
    ∃ row ∈ rows, row.key = ⟨entity, id⟩ ∧ hasIdPrefix id values = true ∧ row.versions.find? matching = some v := by
  unfold found
  rw [List.mem_filterMap]
  refine exists_congr fun row => and_congr_right fun _ => ?_
  constructor
  · intro h
    split at h
    · rename_i hcond
      rw [Bool.and_eq_true, decide_eq_true_eq] at hcond
      obtain ⟨w, hw, hwv⟩ := Option.map_eq_some_iff.1 h
      cases hwv
      exact ⟨by rw [← hcond.1], hcond.2, hw⟩
    · cases h
  · rintro ⟨hkey, hpre, hv⟩
    rw [hkey, hv]
    simp [hpre]

theorem mem_found (h : KeysNodup rows) {id : List Text} {v : Version (Record X)} :
    (id, v) ∈ found rows entity values matching ↔
      hasIdPrefix id values = true ∧ (versionsOf rows ⟨entity, id⟩).find? matching = some v := by
  rw [mem_found_rows]
  constructor
  · rintro ⟨row, hrow, hkey, hpre, hv⟩
    rw [← hkey, versionsOf_of_mem h hrow]
    exact ⟨hpre, hv⟩
  · rintro ⟨hpre, hv⟩
    obtain ⟨row, hrow, hkey⟩ : ∃ row ∈ rows, row.key = ⟨entity, id⟩ := by
      by_contra hnone
      rw [versionsOf_eq_nil fun row hrow heq => hnone ⟨row, hrow, heq⟩] at hv
      cases hv
    rw [← hkey, versionsOf_of_mem h hrow] at hv
    exact ⟨row, hrow, hkey, hpre, hv⟩

/-- A listing finds each id once. -/
theorem found_pairwise (h : KeysNodup rows) :
    (found rows entity values matching).Pairwise fun a b => idOrder a.1 ≠ idOrder b.1 := by
  have hrows : rows.Pairwise fun a b => a.key ≠ b.key := List.pairwise_map.1 h
  refine List.Pairwise.filterMap _ ?_ hrows
  intro row row' hne a ha b hb heq
  split at ha
  · rename_i hcond
    split at hb
    · rename_i hcond'
      rw [Bool.and_eq_true, decide_eq_true_eq] at hcond hcond'
      obtain ⟨v, -, hv⟩ := Option.map_eq_some_iff.1 ha
      obtain ⟨w, -, hw⟩ := Option.map_eq_some_iff.1 hb
      subst hv
      subst hw
      apply hne
      have hid := idOrder_inj heq
      have hent : row.key.entity = row'.key.entity := hcond.1.trans hcond'.1.symm
      cases hrk : row.key
      cases hrk' : row'.key
      rw [hrk, hrk'] at hid hent
      simp only at hid hent
      rw [hid, hent]
    · cases hb
  · cases ha

/-- The sort of a listing orders by id. -/
theorem sorted_found (h : KeysNodup rows) : Paging.Sorted (fun a => idOrder a.1)
    ((found rows entity values matching).insertionSort fun a b => compareIds a.1 b.1 ≤ 0) := by
  have hsorted := Paging.sorted_insertionSort (@found_pairwise _ rows entity values matching h)
  convert hsorted using 2
  funext a b
  exact propext (agrees_compareIds.le a.1 b.1)

/-- **What a listing finds is decided key by key.** -/
theorem sorted_found_congr (h : KeysNodup rows) (h' : KeysNodup rows')
    (hsame : ∀ key, (versionsOf rows key).find? matching = (versionsOf rows' key).find? matching) :
    (found rows entity values matching).insertionSort (fun a b => compareIds a.1 b.1 ≤ 0) =
      (found rows' entity values matching).insertionSort (fun a b => compareIds a.1 b.1 ≤ 0) := by
  refine Paging.Sorted.ext (sorted_found h) (sorted_found h') fun a => ?_
  obtain ⟨id, v⟩ := a
  rw [(List.perm_insertionSort _ _).mem_iff, (List.perm_insertionSort _ _).mem_iff, mem_found h, mem_found h',
    hsame]

variable {declarations : List NormalizedEntity} {s u : EntityStore X H C}

theorem read_congr (hsame : ∀ key, (versionsOf s.rows key).find? matching = (versionsOf u.rows key).find? matching)
    (id : EntityId) : read declarations s entity id matching = read declarations u entity id matching := by
  unfold read
  simp only [hsame]

theorem scan_congr (h : KeysNodup s.rows) (h' : KeysNodup u.rows)
    (hsame : ∀ key, (versionsOf s.rows key).find? matching = (versionsOf u.rows key).find? matching)
    (idPrefix : EntityId) (limit : ℤ) :
    scan declarations s entity idPrefix limit matching = scan declarations u entity idPrefix limit matching := by
  unfold scan
  simp only [sorted_found_congr h h' hsame]

end EntityStore

end Etherfold
