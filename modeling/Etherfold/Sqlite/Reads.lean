import Etherfold.Sqlite.Histories

/-!
# Reading the versioned store

A read selects rows. A row holds a version and a surrogate identity of its own, which the
reference store does not have; everything else of it is read alike.

* `selectRow_read`, `selectRows_scan`: **a select answers as the reference store does**, where
  the two find the same version of every key.
* `VersionedStateStore.AnswersAlike`: the four reads of the two stores, side by side.
-/

namespace Etherfold

open Versions

variable {X H C : Type} {declarations : List NormalizedEntity}

/-- A row without its surrogate identity, which a select puts first. -/
def withoutRowid (record : Record X) : Record X := record.tail

/-- A listing without surrogate identities. -/
def Listing.withoutRowids (listing : Listing X) : Listing X :=
  ⟨listing.rows.map withoutRowid, listing.truncated⟩

/-- No declared field has the name of the surrogate identity. -/
theorem decodeColumn_rowid (entity : NormalizedEntity) (rowid : ℕ) :
    decodeColumn entity (("_rowid", .number rowid) : String × FieldValue X) = .ok ("_rowid", .number rowid) := by
  apply decodeColumn_of_notMem
  intro hmem
  have hnot := entity.unreserved "_rowid" (List.mem_append_right _ hmem)
  exact hnot (by decide)

theorem boundedListing_withoutRowids (fetched : List (Record X)) (limit : ℕ) :
    (boundedListing fetched limit).withoutRowids = boundedListing (fetched.map withoutRowid) limit := by
  unfold boundedListing Listing.withoutRowids
  rw [List.map_take, List.length_map]

/-- A row is read as its version is. -/
theorem decode_record (entity : NormalizedEntity) (row : VersionRow X) :
    decodeFieldValues entity row.record =
      (readVersion entity row.version).map (("_rowid", .number row.rowid) :: ·) := by
  have hversion : readVersion entity row.version =
      (row.columns ++ versionColumns row.version).mapM (decodeColumn entity) := rfl
  rw [hversion]
  unfold decodeFieldValues VersionRow.record
  rw [List.mapM_cons, decodeColumn_rowid]
  cases (row.columns ++ versionColumns row.version).mapM (decodeColumn entity) <;> rfl

/-- Rows are read as their versions are. -/
theorem readVersions_eq (entity : NormalizedEntity) (rows : List (VersionRow X)) :
    (rows.mapM fun row => decodeFieldValues entity row.record).map (List.map withoutRowid) =
      (rows.map fun row => (row.id, row.version)).mapM fun pair => readVersion entity pair.2 := by
  have hrow : (fun row : VersionRow X => (decodeFieldValues entity row.record).map withoutRowid) =
      fun row => readVersion entity row.version := by
    funext row
    rw [decode_record]
    cases readVersion entity row.version <;> rfl
  rw [← mapM_map_ok, hrow, List.mapM_map]
  rfl

namespace VersionedStateStore

variable {t : VersionedStateStore X H C} {s : EntityStore X H C} {matching : Version (Record X) → Bool}

/-- **One row is selected** where the reference store finds one version. -/
theorem selectRow_read
    (hsame : ∀ key, (t.db.versionsOf key).find? matching = (Etherfold.versionsOf s.rows key).find? matching)
    (entity : String) (id : EntityId) :
    (t.selectRow declarations entity id matching).map (Option.map withoutRowid) =
      EntityStore.read declarations s entity id matching := by
  unfold selectRow EntityStore.read entityKey
  cases mustGet declarations entity with
  | error e => rfl
  | ok declaration =>
    cases hids : idValues declaration.name declaration.id id with
    | error e => simp [hids, bind, Except.bind, Except.map]
    | ok ids =>
      have hfind := hsame ⟨declaration.name, ids⟩
      unfold Database.versionsOf at hfind
      rw [List.find?_map, List.find?_filter] at hfind
      have hrows : (t.db.tables declaration.name).rows.find? (fun row => decide (row.id = ids) && matching row.version) =
          (t.db.tables declaration.name).rows.find? (fun a => decide (decide (a.id = ids) = true ∧
            (matching ∘ VersionRow.version) a = true)) := by
        congr 1
        funext row
        simp
      simp only [bind, Except.bind, hids, Except.map, ← hfind, hrows]
      cases (t.db.tables declaration.name).rows.find? (fun a => decide (decide (a.id = ids) = true ∧
            (matching ∘ VersionRow.version) a = true)) with
      | none => rfl
      | some row =>
        dsimp only [Option.map]
        rw [decode_record]
        cases readVersion declaration row.version <;> rfl

/-- No two versions of a key match. -/
def Disjoint (db : Database X H C) (matching : Version (Record X) → Bool) : Prop :=
  ∀ key, (db.versionsOf key).Pairwise fun a b => ¬(matching a = true ∧ matching b = true)

/-- The ids and versions a select finds. -/
def foundRows (t : VersionedStateStore X H C) (entity : String) (values : List Text)
    (matching : Version (Record X) → Bool) : List (VersionRow X) :=
  (t.db.tables entity).rows.filter fun row => hasIdPrefix row.id values && matching row.version

theorem foundRows_pairwise (hd : Disjoint t.db matching) (entity : String) (values : List Text) :
    (t.foundRows entity values matching).Pairwise fun a b => idOrder a.id ≠ idOrder b.id := by
  rw [List.pairwise_iff_forall_sublist]
  intro a b hsub heq
  have hid := idOrder_inj heq
  have hmatch : matching a.version = true ∧ matching b.version = true := by
    have ha := (List.mem_filter.1 (hsub.subset (a := a) (by simp))).2
    have hb := (List.mem_filter.1 (hsub.subset (a := b) (by simp))).2
    rw [Bool.and_eq_true] at ha hb
    exact ⟨ha.2, hb.2⟩
  -- two rows of one id are two versions of its key
  have hkey : [a.version, b.version].Sublist (t.db.versionsOf ⟨entity, b.id⟩) := by
    have hboth := ((hsub.trans List.filter_sublist).filter (·.id = b.id)).map VersionRow.version
    unfold Database.versionsOf
    simpa [hid] using hboth
  exact List.pairwise_iff_forall_sublist.1 (hd ⟨entity, b.id⟩) hkey hmatch

theorem sorted_foundRows (hd : Disjoint t.db matching) (entity : String) (values : List Text) :
    Paging.Sorted (fun row => idOrder row.id)
      ((t.foundRows entity values matching).insertionSort fun a b => compareIds a.id b.id ≤ 0) := by
  have hsorted := Paging.sorted_insertionSort (foundRows_pairwise hd entity values)
  convert hsorted using 2
  funext a b
  exact propext (agrees_compareIds.le a.id b.id)

/-- Where no two items match, the first that matches is the one that does. -/
theorem find?_eq_some_iff_of_pairwise {α : Type} {p : α → Bool} {l : List α}
    (h : l.Pairwise fun a b => ¬(p a = true ∧ p b = true)) {v : α} : l.find? p = some v ↔ v ∈ l ∧ p v = true := by
  refine ⟨fun hv => ⟨List.mem_of_find?_eq_some hv, List.find?_some hv⟩, fun hmem => ?_⟩
  obtain ⟨hv, hp⟩ := hmem
  induction l with
  | nil => cases hv
  | cons a l ih =>
    obtain ⟨ha, hl⟩ := List.pairwise_cons.1 h
    rcases List.mem_cons.1 hv with rfl | hv
    · rw [List.find?_cons, hp]
    · rw [List.find?_cons, Bool.eq_false_of_not_eq_true fun hpa => ha v hv ⟨hpa, hp⟩]
      exact ih hl hv

theorem mem_foundRows (hd : Disjoint t.db matching) {entity : String} {values : List Text}
    {pair : List Text × Version (Record X)} :
    pair ∈ (t.foundRows entity values matching).map (fun row => (row.id, row.version)) ↔
      hasIdPrefix pair.1 values = true ∧ (t.db.versionsOf ⟨entity, pair.1⟩).find? matching = some pair.2 := by
  obtain ⟨id, v⟩ := pair
  rw [find?_eq_some_iff_of_pairwise (hd ⟨entity, id⟩), List.mem_map]
  unfold foundRows Database.versionsOf
  simp only [List.mem_filter, List.mem_map, Bool.and_eq_true, decide_eq_true_eq, Prod.mk.injEq]
  constructor
  · intro ⟨row, ⟨hrow, hpre, hmatch⟩, hid, hv⟩
    exact ⟨hid ▸ hpre, ⟨row, ⟨hrow, hid⟩, hv⟩, hv ▸ hmatch⟩
  · intro ⟨hpre, ⟨row, ⟨hrow, hid⟩, hv⟩, hmatch⟩
    exact ⟨row, ⟨hrow, hid ▸ hpre, hv ▸ hmatch⟩, hid, hv⟩

/-- The rows of a listing hold what the reference store lists, in its order. -/
theorem sorted_foundRows_eq (hd : Disjoint t.db matching) (hs : KeysNodup s.rows)
    (hsame : ∀ key, (t.db.versionsOf key).find? matching = (Etherfold.versionsOf s.rows key).find? matching)
    (entity : String) (values : List Text) :
    ((t.foundRows entity values matching).insertionSort fun a b => compareIds a.id b.id ≤ 0).map
        (fun row => (row.id, row.version)) =
      (EntityStore.found s.rows entity values matching).insertionSort fun a b => compareIds a.1 b.1 ≤ 0 := by
  have hsorted : Paging.Sorted (fun a : List Text × Version (Record X) => idOrder a.1)
      (((t.foundRows entity values matching).insertionSort fun a b => compareIds a.id b.id ≤ 0).map
        fun row => (row.id, row.version)) := List.pairwise_map.2 (sorted_foundRows hd entity values)
  refine Paging.Sorted.ext hsorted (EntityStore.sorted_found hs) fun pair => ?_
  rw [((List.perm_insertionSort _ _).map _).mem_iff, (List.perm_insertionSort _ _).mem_iff, mem_foundRows hd,
    hsame, EntityStore.mem_found hs]

/-- **Rows are selected** where the reference store lists versions, in the same order and as
many. -/
theorem selectRows_scan (hd : Disjoint t.db matching) (hs : KeysNodup s.rows)
    (hsame : ∀ key, (t.db.versionsOf key).find? matching = (Etherfold.versionsOf s.rows key).find? matching)
    (entity : String) (idPrefix : EntityId) (limit : ℤ) :
    (t.selectRows declarations entity idPrefix limit matching).map Listing.withoutRowids =
      EntityStore.scan declarations s entity idPrefix limit matching := by
  unfold selectRows EntityStore.scan
  cases mustGet declarations entity with
  | error e => rfl
  | ok declaration =>
    cases hvalues : prefixValues declaration idPrefix with
    | error e => simp [hvalues, bind, Except.bind, Except.map]
    | ok values =>
      cases hlimit : assertListingLimit declaration limit with
      | error e => simp [hvalues, hlimit, bind, Except.bind, Except.map]
      | ok _ =>
        simp only [bind, Except.bind, hvalues, hlimit, ← sorted_foundRows_eq hd hs hsame, ← List.map_take]
        rw [← readVersions_eq]
        unfold foundRows
        generalize (((t.db.tables declaration.name).rows.filter fun row =>
          hasIdPrefix row.id values && matching row.version).insertionSort fun a b => compareIds a.id b.id ≤ 0).take
            (limit.toNat + 1) = rows
        cases rows.mapM fun row => decodeFieldValues declaration row.record with
        | error e => rfl
        | ok records => exact congrArg Except.ok (boundedListing_withoutRowids records limit.toNat)

/-! ### The four reads -/

/-- **The two stores answer alike**, of heights the retention covers those from `c` on. -/
structure AnswersAlike (declarations : List NormalizedEntity) (t : VersionedStateStore X H C) (s : EntityStore X H C)
    (c : ℤ) : Prop where
  getCurrent : ∀ entity id, (t.getCurrent declarations entity id).map (Option.map withoutRowid) =
    EntityStore.getCurrent declarations s entity id
  listCurrent : ∀ entity idPrefix limit,
    (t.listCurrent declarations entity idPrefix limit).map Listing.withoutRowids =
      EntityStore.listCurrent declarations s entity idPrefix limit
  getAsOf : ∀ entity id height, c ≤ height → assertRetained s.provided height s.tip = .ok () →
    (t.getAsOf declarations entity id height).map (Option.map withoutRowid) =
      EntityStore.getAsOf declarations s entity id height
  listAsOf : ∀ entity idPrefix height limit, c ≤ height → assertRetained s.provided height s.tip = .ok () →
    (t.listAsOf declarations entity idPrefix height limit).map Listing.withoutRowids =
      EntityStore.listAsOf declarations s entity idPrefix height limit

variable {c : ℤ}

theorem disjoint_current (h : t.db.Sound) : Disjoint t.db (·.upper.isNone) := by
  intro key
  refine (h.chained key).ordered.imp fun {a b} hab hlive => ?_
  obtain ⟨x, hx, -⟩ := hab
  have hnone : a.upper.isNone = true := hlive.1
  rw [hx] at hnone
  cases hnone

theorem disjoint_openAt (h : t.db.Sound) (height : ℤ) : Disjoint t.db (·.openAt height) :=
  fun key => (h.chained key).disjoint.imp fun hab => hab height

/-- What the two stores find of a key at the tip. -/
theorem Refines.find_current (h : t.Refines declarations s c) (key : EntityKey) :
    (t.db.versionsOf key).find? (·.upper.isNone) = (Etherfold.versionsOf s.rows key).find? (·.upper.isNone) :=
  (h.mirrors.alike key).current (h.mirrors.sound.chained key) (h.mirrors.wellFormed.chained key)

/-- What the two stores find of a key at a height. -/
theorem Refines.find_openAt (h : t.Refines declarations s c) {height : ℤ} (hc : c ≤ height) (key : EntityKey) :
    (t.db.versionsOf key).find? (·.openAt height) = (Etherfold.versionsOf s.rows key).find? (·.openAt height) :=
  (h.mirrors.alike key).asOf (h.mirrors.sound.chained key) (h.mirrors.wellFormed.chained key) hc

/-- A height the retention covers is covered by both, and then the read is what is left. -/
theorem Refines.assertRetained_eq (h : t.Refines declarations s c) (height : ℤ) :
    assertRetained t.provided height t.tip = assertRetained s.provided height s.tip := by
  have htip : t.tip = s.tip := h.mirrors.tip
  rw [h.provided, htip]

/-- Where the height is covered, only the entity is left to refuse. -/
theorem getAsOf_retained {height : ℤ} (hret : assertRetained t.provided height t.tip = .ok ()) (entity : String)
    (id : EntityId) : t.getAsOf declarations entity id height =
      (t.selectRow declarations entity id (·.openAt height)).mapError .entity := by
  unfold VersionedStateStore.getAsOf selectRow
  rw [hret]
  cases mustGet declarations entity <;> rfl

theorem listAsOf_retained {height : ℤ} (hret : assertRetained t.provided height t.tip = .ok ()) (entity : String)
    (idPrefix : EntityId) (limit : ℤ) : t.listAsOf declarations entity idPrefix height limit =
      (t.selectRows declarations entity idPrefix limit (·.openAt height)).mapError .entity := by
  unfold VersionedStateStore.listAsOf selectRows
  rw [hret]
  cases mustGet declarations entity <;> rfl

/-- Refusals keep their reason under another name. -/
theorem map_mapError {ε ε' α β : Type} (x : Except ε α) (f : α → β) (g : ε → ε') :
    (x.mapError g).map f = (x.map f).mapError g := by
  cases x <;> rfl

/-- **Stores side by side answer alike.** -/
theorem Refines.answersAlike (h : t.Refines declarations s c) : AnswersAlike declarations t s c := by
  have hs := h.mirrors.wellFormed.nodup
  have hsound := h.mirrors.sound
  refine ⟨fun entity id => ?_, fun entity idPrefix limit => ?_, fun entity id height hc hret => ?_,
    fun entity idPrefix height limit hc hret => ?_⟩
  · exact selectRow_read h.find_current entity id
  · exact selectRows_scan (disjoint_current hsound) hs h.find_current entity idPrefix limit
  · have hrow := @selectRow_read X H C declarations t s _ (h.find_openAt hc) entity id
    rw [getAsOf_retained ((h.assertRetained_eq height).trans hret), map_mapError, hrow]
    unfold EntityStore.getAsOf
    rw [hret]
    rfl
  · have hrows := @selectRows_scan X H C declarations t s _ (disjoint_openAt hsound height) hs (h.find_openAt hc)
      entity idPrefix limit
    rw [listAsOf_retained ((h.assertRetained_eq height).trans hret), map_mapError, hrows]
    unfold EntityStore.listAsOf
    rw [hret]
    rfl

end VersionedStateStore

end Etherfold
