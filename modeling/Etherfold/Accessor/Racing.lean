import Etherfold.Accessor.Sql
import Etherfold.Sqlite.FullHistory

/-!
# As-of reads while others write

An as-of read checks the retention in one transaction and reads its rows in another, and a page of
parents may take several statements. What other handles commit in between may delete the very rows
the check allowed.

* `AsOfRead`: the reads, on either store.
* `IndexedDBStateStore.readFrom`, `VersionedStateStore.readFrom`: a read whose steps find different databases.
* `readFrom_behind`: **rows that prunes have not reached are read as from the full history**.
* `asOf_racing`: what a read answers in any run that keeps above what is pruned.
-/

namespace Etherfold

open Versions

variable {X H C : Type}

/-- An as-of read. -/
inductive AsOfRead where
  | getAsOf (entity : String) (id : EntityId) (height : ℤ)
  | listAsOf (entity : String) (idPrefix : EntityId) (height : ℤ) (limit : ℤ)
  | find (query : FindQuery)
  | children (query : ChildrenQuery)

/-- The height a read is for. -/
def AsOfRead.height : AsOfRead → Option ℤ
  | .getAsOf _ _ height | .listAsOf _ _ height _ => some height
  | .find query => query.height
  | .children query => query.height

/-- What a read answers. -/
inductive AsOfAnswer (X : Type) where
  | row (row : Option (Record X))
  | listing (listing : Listing X)
  | pages (pages : List (Listing X))
  deriving DecidableEq

namespace IndexedDBStateStore

variable (d : AccessorDeclarations) (real : X → Option ℚ) (bound : ℕ) (t : IndexedDBStateStore X H C)

/-- A read as the store answers it when nobody writes. -/
def read : AsOfRead → Except AccessorError (AsOfAnswer X)
  | .getAsOf entity id height => ((t.getAsOf d.entities entity id height).mapError .retention).map .row
  | .listAsOf entity idPrefix height limit =>
    ((t.listAsOf d.entities entity idPrefix height limit).mapError .retention).map .listing
  | .find query => (t.find d real bound query).map .listing
  | .children query => (t.children d real bound query).map .pages

variable (rows : IndexedDB X H C)

def getAsOfFrom (declarations : List NormalizedEntity) (entity : String) (id : EntityId) (height : ℤ) :
    Except ReadError (Option (Record X)) := do
  let declaration ← (mustGet declarations entity).mapError .entity
  assertRetained t.provided height t.db.tip
  let key ← (entityKey declaration id).mapError .entity
  match (rows.versions.range (asOfRange (rowKey key) height)).getLast? with
  | none => .ok none
  | some (_, version) =>
    if version.upper.any fun upper => (upper : ℤ) ≤ height then .ok none
    else ((readVersion declaration version).map some).mapError .entity

def listAsOfFrom (declarations : List NormalizedEntity) (entity : String) (idPrefix : EntityId) (height : ℤ)
    (limit : ℤ) : Except ReadError (Listing X) := do
  let declaration ← (mustGet declarations entity).mapError .entity
  let values ← (prefixValues declaration idPrefix).mapError .entity
  (assertListingLimit declaration limit).mapError .entity
  assertRetained t.provided height t.db.tip
  let versions := rows.versions.range (startingWith (rowKey ⟨declaration.name, values⟩))
  let standing := versions.filter fun e => e.2.openAt height
  let rows ← ((standing.take (limit.toNat + 1)).mapM fun e => readVersion declaration e.2).mapError .entity
  pure (boundedListing rows limit.toNat)

def findFrom (query : FindQuery) : Except AccessorError (Listing X) := do
  let planned ← (planFind d query).mapError .plan
  assertHeight t.provided planned.height t.db.tip
  rows.find real bound planned

def childrenFrom (query : ChildrenQuery) : Except AccessorError (List (Listing X)) := do
  let planned ← (planChildren d query).mapError .plan
  assertHeight t.provided planned.height t.db.tip
  rows.children real bound planned

/-- **A read that checks one database and reads the rows of another.** -/
def readFrom : AsOfRead → Except AccessorError (AsOfAnswer X)
  | .getAsOf entity id height => ((t.getAsOfFrom rows d.entities entity id height).mapError .retention).map .row
  | .listAsOf entity idPrefix height limit =>
    ((t.listAsOfFrom rows d.entities entity idPrefix height limit).mapError .retention).map .listing
  | .find query => (t.findFrom d real bound rows query).map .listing
  | .children query => (t.childrenFrom d real bound rows query).map .pages

/-- With nothing committed in between it is the read of the store. -/
theorem readFrom_self (read : AsOfRead) : t.readFrom d real bound t.db read = t.read d real bound read := by
  cases read <;> rfl

end IndexedDBStateStore

/-- The statements of a page, numbered, where none is told from another. -/
theorem zipIdx_flatMap {α β : Type} (l : List α) (f : α → List β) :
    (l.zipIdx.flatMap fun e => f e.1) = l.flatMap f := by
  conv_rhs => rw [← List.zipIdx_map_fst 0 l, List.flatMap_map]

namespace VersionedStateStore

variable (d : AccessorDeclarations) (real : X → Option ℚ) (t : VersionedStateStore X H C)

/-- A read as the store answers it when nobody writes. -/
def read : AsOfRead → Except AccessorError (AsOfAnswer X)
  | .getAsOf entity id height => ((t.getAsOf d.entities entity id height).mapError .retention).map .row
  | .listAsOf entity idPrefix height limit =>
    ((t.listAsOf d.entities entity idPrefix height limit).mapError .retention).map .listing
  | .find query => (t.find d real query).map .listing
  | .children query => (t.children d real query).map .pages

variable (recorded : Database X H C) (rows : ℕ → Database X H C)

def getAsOfFrom (declarations : List NormalizedEntity) (entity : String) (id : EntityId) (height : ℤ) :
    Except ReadError (Option (Record X)) := do
  let _ ← (mustGet declarations entity).mapError .entity
  assertRetained t.provided height t.tip
  (selectRow declarations { t with db := rows 0 } entity id (·.openAt height)).mapError .entity

def listAsOfFrom (declarations : List NormalizedEntity) (entity : String) (idPrefix : EntityId) (height : ℤ)
    (limit : ℤ) : Except ReadError (Listing X) := do
  let _ ← (mustGet declarations entity).mapError .entity
  assertRetained t.provided height t.tip
  (selectRows declarations { t with db := rows 0 } entity idPrefix limit (·.openAt height)).mapError .entity

/-- The tip is read first, and the recorded floor then. -/
def assertHeightFrom (height : Option ℤ) : Except AccessorError Unit :=
  match height with
  | none => .ok ()
  | some height =>
    (assertStorageRetains t.provided t.finalityDepth t.tip recorded.retentionEnforcement height).mapError .retention

def findFrom (query : FindQuery) : Except AccessorError (Listing X) := do
  let planned ← (planFind d query).mapError .plan
  t.assertHeightFrom recorded planned.height
  sqlPage planned.entity (findStatement real planned (rows 0)) planned.limit

/-- Each statement of a page of parents finds a database of its own. -/
def childrenFrom (query : ChildrenQuery) : Except AccessorError (List (Listing X)) := do
  let planned ← (planChildren d query).mapError .plan
  t.assertHeightFrom recorded planned.height
  childrenPages planned ((statementKeys t.bounds.maxRowsPerStatement planned).zipIdx.flatMap fun statement =>
    childrenStatement real planned statement.1 (rows statement.2))

/-- **A read each of whose statements finds a database of its own**: the tip, the recorded floor, the rows. -/
def readFrom : AsOfRead → Except AccessorError (AsOfAnswer X)
  | .getAsOf entity id height => ((t.getAsOfFrom rows d.entities entity id height).mapError .retention).map .row
  | .listAsOf entity idPrefix height limit =>
    ((t.listAsOfFrom rows d.entities entity idPrefix height limit).mapError .retention).map .listing
  | .find query => (t.findFrom d real recorded rows query).map .listing
  | .children query => (t.childrenFrom d real recorded rows query).map .pages

/-- With nothing committed in between it is the read of the store. -/
theorem readFrom_self (read : AsOfRead) : t.readFrom d real t.db (fun _ => t.db) read = t.read d real read := by
  cases read with
  | children query =>
    have hsame := fun planned : PlannedChildren => zipIdx_flatMap
      (statementKeys t.bounds.maxRowsPerStatement planned) fun keys => childrenStatement real planned keys t.db
    unfold readFrom VersionedStateStore.read childrenFrom VersionedStateStore.children
    simp only [hsame]
    rfl
  | _ => rfl

end VersionedStateStore

/-! ### Rows that prunes have not reached -/

/-- What is retained by anybody is retained by who keeps everything. -/
theorem assertRetained_unbounded {retention : Retention} {height : ℤ} {tip : Option ℕ}
    (h : assertRetained retention height tip = .ok ()) (tip' : Option ℕ) :
    assertRetained .unbounded height tip' = .ok () := by
  unfold assertRetained at h ⊢
  split at h
  · cases h
  · rename_i hheight
    rw [if_neg hheight]

namespace IndexedDB

variable {c : Option ℕ} {db full : IndexedDB X H C} {height : ℤ}

/-- **One step back from a height** reads the version standing there. -/
theorem Sound.read_asOf {α : Type} (h : db.Sound) {row : Key} (hrow : IsRow row) (height : ℤ) (absent : α)
    (answer : Version (Record X) → α) :
    (match (db.versions.range (asOfRange row height)).getLast? with
      | none => absent
      | some (_, version) => if version.upper.any fun upper => (upper : ℤ) ≤ height then absent else answer version) =
      (Versions.asOf height (rowVersions db.versions row)).elim absent answer := by
  rw [← h.getLast_asOf hrow]
  cases hlast : (db.versions.range (asOfRange row height)).getLast? with
  | none => rfl
  | some e =>
    obtain ⟨k, version⟩ := e
    have hopen := IndexedDBStateStore.version_openAt (h.lower_le hrow hlast)
    rw [Option.map_some, Option.filter_some]
    dsimp only at hopen ⊢
    rw [hopen]
    cases version.upper with
    | none => simp
    | some x =>
      by_cases hx : height < (x : ℤ)
      · simp [hx, hx.not_ge]
      · simp [hx, not_lt.1 hx]

/-- **The same versions stand** in the full history. -/
theorem Behind.asOf (h : Behind c db full) (hc : ∀ x ∈ c, (x : ℤ) ≤ height) (row : Key) :
    Versions.asOf height (rowVersions db.versions row) = Versions.asOf height (rowVersions full.versions row) := by
  have hrows : Lacking (PrunedAway c) (rowVersions db.versions row) (rowVersions full.versions row) :=
    (h.versions.filter _).map _ fun _ he => he
  exact hrows.find?_eq fun v hv => hv.not_openAt hc

/-- A range of versions holds the same that stand. -/
theorem Behind.range_openAt (h : Behind c db full) (hc : ∀ x ∈ c, (x : ℤ) ≤ height) (p : Key → Bool) :
    (db.versions.range p).filter (fun e => e.2.openAt height) =
      (full.versions.range p).filter fun e => e.2.openAt height :=
  (h.versions.filter _).filter_eq fun _ he => he.not_openAt hc

/-- The scans of the accessor are the same. -/
theorem Behind.scans (h : Behind c db full) (hc : ∀ x ∈ c, (x : ℤ) ≤ height) (real : X → Option ℚ) (bound : ℕ) :
    (∀ entity key selected at' refusal, db.scanCurrent real bound entity key selected at' refusal =
      full.scanCurrent real bound entity key selected at' refusal) ∧
    ∀ entity selected, db.scanDelta real bound entity height selected =
      full.scanDelta real bound entity height selected := by
  have hclosed : (db.versions.index (·.upper)).filter (fun e => height < (e.1 : ℤ)) =
      (full.versions.index (·.upper)).filter fun e => height < (e.1 : ℤ) := by
    refine ObjectStore.filter_index_eq (p := fun i : ℕ => height < (i : ℤ)) h.versions fun _ _ hgone i hi => ?_
    obtain ⟨x, hx, upper, hupper, hle⟩ := hgone
    have hx' := hc x hx
    rw [hupper, Option.some.injEq] at hi
    rw [decide_eq_false_iff_not]
    omega
  refine ⟨fun entity key selected at' refusal => ?_, fun entity selected => ?_⟩
  · unfold scanCurrent
    rw [h.current]
  · unfold scanDelta
    rw [hclosed]

end IndexedDB

namespace IndexedDBStateStore

variable {d : AccessorDeclarations} {real : X → Option ℚ} {bound : ℕ} {t u : IndexedDBStateStore X H C}
  {rows : IndexedDB X H C} {c : Option ℕ} {height : ℤ} {declarations : List NormalizedEntity}

theorem getAsOfFrom_behind (h : rows.Behind c u.db) (hc : ∀ x ∈ c, (x : ℤ) ≤ height) (hkeep : u.provided = .unbounded)
    {entity : String} {id : EntityId} {answer : Option (Record X)}
    (hok : t.getAsOfFrom rows declarations entity id height = .ok answer) :
    u.getAsOf declarations entity id height = .ok answer := by
  obtain ⟨declaration, hentity, hok⟩ := bind_eq_ok.1 hok
  obtain ⟨_, hret, hok⟩ := bind_eq_ok.1 hok
  obtain ⟨key, hkey, hok⟩ := bind_eq_ok.1 hok
  refine bind_eq_ok.2 ⟨declaration, hentity, bind_eq_ok.2 ⟨(), ?_, bind_eq_ok.2 ⟨key, hkey, ?_⟩⟩⟩
  · rw [hkeep]
    exact assertRetained_unbounded hret _
  · -- the rows are stepped back to from the height in both
    have hread := fun (db : IndexedDB X H C) (hs : db.Sound) => hs.read_asOf (isRow_rowKey key) height (.ok none)
      fun version => ((readVersion declaration version).map some).mapError ReadError.entity
    refine (hread u.db h.sound).trans ?_
    rw [← h.asOf hc]
    exact (hread rows h.sound_db).symm.trans hok

theorem listAsOfFrom_behind (h : rows.Behind c u.db) (hc : ∀ x ∈ c, (x : ℤ) ≤ height) (hkeep : u.provided = .unbounded)
    {entity : String} {idPrefix : EntityId} {limit : ℤ} {answer : Listing X}
    (hok : t.listAsOfFrom rows declarations entity idPrefix height limit = .ok answer) :
    u.listAsOf declarations entity idPrefix height limit = .ok answer := by
  obtain ⟨declaration, hentity, hok⟩ := bind_eq_ok.1 hok
  obtain ⟨values, hvalues, hok⟩ := bind_eq_ok.1 hok
  obtain ⟨_, hlimit, hok⟩ := bind_eq_ok.1 hok
  obtain ⟨_, hret, hok⟩ := bind_eq_ok.1 hok
  refine bind_eq_ok.2 ⟨declaration, hentity, bind_eq_ok.2 ⟨values, hvalues, bind_eq_ok.2 ⟨(), hlimit,
    bind_eq_ok.2 ⟨(), ?_, ?_⟩⟩⟩⟩
  · rw [hkeep]
    exact assertRetained_unbounded hret _
  · dsimp only at hok ⊢
    rw [← h.range_openAt hc]
    exact hok

theorem assertHeight_unbounded {retention : Retention} {height : Option ℤ} {tip : Option ℕ}
    (h : assertHeight retention height tip = .ok ()) (tip' : Option ℕ) : assertHeight .unbounded height tip' = .ok () := by
  cases height with
  | none => rfl
  | some height =>
    unfold assertHeight at h ⊢
    dsimp only at h ⊢
    cases hret : assertRetained retention height tip with
    | error e =>
      rw [hret] at h
      cases h
    | ok _ =>
      rw [assertRetained_unbounded hret]
      rfl

theorem findFrom_behind (h : rows.Behind c u.db) (hc : ∀ x ∈ c, (x : ℤ) ≤ height) (hkeep : u.provided = .unbounded)
    {query : FindQuery} (hheight : query.height = some height) {answer : Listing X}
    (hok : t.findFrom d real bound rows query = .ok answer) : u.find d real bound query = .ok answer := by
  obtain ⟨planned, hplan, hok⟩ := bind_eq_ok.1 hok
  obtain ⟨_, hret, hok⟩ := bind_eq_ok.1 hok
  refine bind_eq_ok.2 ⟨planned, hplan, bind_eq_ok.2 ⟨(), ?_, ?_⟩⟩
  · rw [hkeep]
    exact assertHeight_unbounded hret _
  · obtain ⟨hcurrent, hdelta⟩ := h.scans hc real bound
    have hplanned := (height_planFind (mapError_eq_ok.1 hplan)).trans hheight
    unfold IndexedDB.find IndexedDB.findRows at hok ⊢
    simp only [hcurrent, hplanned, hdelta] at hok
    simp only [hplanned]
    exact hok

theorem childrenFrom_behind (h : rows.Behind c u.db) (hc : ∀ x ∈ c, (x : ℤ) ≤ height) (hkeep : u.provided = .unbounded)
    {query : ChildrenQuery} (hheight : query.height = some height) {answer : List (Listing X)}
    (hok : t.childrenFrom d real bound rows query = .ok answer) : u.children d real bound query = .ok answer := by
  obtain ⟨planned, hplan, hok⟩ := bind_eq_ok.1 hok
  obtain ⟨_, hret, hok⟩ := bind_eq_ok.1 hok
  refine bind_eq_ok.2 ⟨planned, hplan, bind_eq_ok.2 ⟨(), ?_, ?_⟩⟩
  · rw [hkeep]
    exact assertHeight_unbounded hret _
  · obtain ⟨hcurrent, hdelta⟩ := h.scans hc real bound
    have hplanned := (height_planChildren (mapError_eq_ok.1 hplan)).trans hheight
    unfold IndexedDB.children IndexedDB.childrenRows at hok ⊢
    simp only [hcurrent, hplanned, hdelta] at hok
    simp only [hplanned]
    exact hok

/-- **What prunes have not reached is read as from the full history**, by every read. -/
theorem readFrom_behind (h : rows.Behind c u.db) (hc : ∀ x ∈ c, (x : ℤ) ≤ height) (hkeep : u.provided = .unbounded)
    {read : AsOfRead} (hheight : read.height = some height) {answer : AsOfAnswer X}
    (hok : t.readFrom d real bound rows read = .ok answer) : u.read d real bound read = .ok answer := by
  cases read with
  | getAsOf entity id height' =>
    cases hheight
    obtain ⟨a, ha, rfl⟩ := map_eq_ok.1 hok
    exact map_eq_ok.2 ⟨a, mapError_eq_ok.2 (getAsOfFrom_behind h hc hkeep (mapError_eq_ok.1 ha)), rfl⟩
  | listAsOf entity idPrefix height' limit =>
    cases hheight
    obtain ⟨a, ha, rfl⟩ := map_eq_ok.1 hok
    exact map_eq_ok.2 ⟨a, mapError_eq_ok.2 (listAsOfFrom_behind h hc hkeep (mapError_eq_ok.1 ha)), rfl⟩
  | find query =>
    obtain ⟨a, ha, rfl⟩ := map_eq_ok.1 hok
    exact map_eq_ok.2 ⟨a, findFrom_behind h hc hkeep hheight ha, rfl⟩
  | children query =>
    obtain ⟨a, ha, rfl⟩ := map_eq_ok.1 hok
    exact map_eq_ok.2 ⟨a, childrenFrom_behind h hc hkeep hheight ha, rfl⟩

end IndexedDBStateStore

section Statements

variable {real : X → Option ℚ} {db db' : Database X H C} {height : ℤ}

/-- The rows of a statement, from what stood at its height. -/
theorem filter_standing (db : Database X H C) (height : ℤ) (entity : String) (p : Record X → Bool) :
    ((db.tables entity).rows.filter fun row => valid (some height) row && p row.columns).map (·.columns) =
      (db.standing height entity).filter p := by
  unfold Database.standing
  rw [List.filter_map, List.filter_filter]
  refine congrArg _ (List.filter_congr fun row _ => ?_)
  exact Bool.and_comm _ _

/-- **A `find` reads what stood at its height.** -/
theorem findStatement_eq {planned : PlannedSelection} (hheight : planned.height = some height)
    (h : db.standing height = db'.standing height) : findStatement real planned db = findStatement real planned db' := by
  unfold findStatement
  rw [hheight, filter_standing db height _ (selects real planned.selected),
    filter_standing db' height _ (selects real planned.selected), h]

/-- **And so does a statement of a `children`.** -/
theorem childrenStatement_eq {planned : PlannedChildren} (hheight : planned.height = some height)
    (h : db.standing height = db'.standing height) (keys : List (List Text)) :
    childrenStatement real planned keys db = childrenStatement real planned keys db' := by
  have hrows := fun db : Database X H C => filter_standing db height planned.entity.name fun row =>
    keys.any (fun key => parentKey planned.parent row = key.map some) && selects real planned.selected row
  unfold childrenStatement
  simp only [hheight, Bool.and_assoc, hrows, h]

end Statements

namespace VersionedStateStore

variable {d : AccessorDeclarations} {real : X → Option ℚ} {t : VersionedStateStore X H C}
  {recorded full : Database X H C} {rows : ℕ → Database X H C} {c : String → Option ℕ} {height : ℤ}
  {declarations : List NormalizedEntity}

/-- The same handle, retaining everything, over another database. -/
def keepingAll (t : VersionedStateStore X H C) (full : Database X H C) : VersionedStateStore X H C :=
  { t with db := full, provided := .unbounded }

theorem getAsOfFrom_behind (h : (rows 0).Behind c full) (hc : ∀ entity, ∀ x ∈ c entity, (x : ℤ) ≤ height)
    {entity : String} {id : EntityId} {answer : Option (Record X)}
    (hok : t.getAsOfFrom rows declarations entity id height = .ok answer) :
    (t.keepingAll full).getAsOf declarations entity id height = .ok answer := by
  obtain ⟨declaration, hentity, hok⟩ := bind_eq_ok.1 hok
  obtain ⟨_, hret, hok⟩ := bind_eq_ok.1 hok
  refine bind_eq_ok.2 ⟨declaration, hentity, bind_eq_ok.2 ⟨(), assertRetained_unbounded hret _, ?_⟩⟩
  have hfound : ∀ (declaration : NormalizedEntity) (ids : List Text),
      ((rows 0).tables declaration.name).rows.find? (fun row => row.id = ids && row.version.openAt height) =
        (full.tables declaration.name).rows.find? fun row => row.id = ids && row.version.openAt height :=
    fun declaration ids => (h.tables declaration.name).find?_eq fun row hrow => by
      rw [hrow.not_openAt (hc _), Bool.and_false]
  unfold selectRow at hok ⊢
  simp only [hfound] at hok
  exact hok

theorem listAsOfFrom_behind (h : (rows 0).Behind c full) (hc : ∀ entity, ∀ x ∈ c entity, (x : ℤ) ≤ height)
    {entity : String} {idPrefix : EntityId} {limit : ℤ} {answer : Listing X}
    (hok : t.listAsOfFrom rows declarations entity idPrefix height limit = .ok answer) :
    (t.keepingAll full).listAsOf declarations entity idPrefix height limit = .ok answer := by
  obtain ⟨declaration, hentity, hok⟩ := bind_eq_ok.1 hok
  obtain ⟨_, hret, hok⟩ := bind_eq_ok.1 hok
  refine bind_eq_ok.2 ⟨declaration, hentity, bind_eq_ok.2 ⟨(), assertRetained_unbounded hret _, ?_⟩⟩
  have hfound : ∀ (declaration : NormalizedEntity) (values : List Text),
      ((rows 0).tables declaration.name).rows.filter
          (fun row => hasIdPrefix row.id values && row.version.openAt height) =
        (full.tables declaration.name).rows.filter
          fun row => hasIdPrefix row.id values && row.version.openAt height :=
    fun declaration values => (h.tables declaration.name).filter_eq fun row hrow => by
      rw [hrow.not_openAt (hc _), Bool.and_false]
  unfold selectRows at hok ⊢
  simp only [hfound] at hok
  exact hok

/-- A height the store provides is retained where nothing was pruned. -/
theorem assertStorageRetains_ok {provided : Retention} {finalityDepth tip recorded : Option ℕ} {height : ℤ}
    (h : assertRetained provided height tip = .ok ())
    (hnever : retainedFrom provided finalityDepth tip recorded = none) :
    assertStorageRetains provided finalityDepth tip recorded height = .ok () := by
  unfold assertStorageRetains
  rw [h, hnever]
  rfl

/-- Who keeps everything refuses no height that anybody retains. -/
theorem assertHeight_keepingAll (hfloor : full.retentionEnforcement = none) {height : Option ℤ}
    (h : t.assertHeightFrom recorded height = .ok ()) : (t.keepingAll full).assertHeight height = .ok () := by
  cases height with
  | none => rfl
  | some height =>
    obtain ⟨_, hret, -⟩ := bind_eq_ok.1 (mapError_eq_ok.1 h)
    have hnever : retainedFrom .unbounded t.finalityDepth (t.keepingAll full).tip full.retentionEnforcement = none := by
      unfold retainedFrom
      rw [hfloor]
      cases (t.keepingAll full).tip <;> rfl
    exact mapError_eq_ok.2 (assertStorageRetains_ok (assertRetained_unbounded hret _) hnever)

/-- **What prunes have not reached is read as from the full history**, by every read. -/
theorem readFrom_behind (h : (rows 0).Behind c full) (hc : ∀ entity, ∀ x ∈ c entity, (x : ℤ) ≤ height)
    (hrows : ∀ n, (rows n).standing height = full.standing height) {read : AsOfRead} (hheight : read.height = some height)
    {answer : AsOfAnswer X} (hok : t.readFrom d real recorded rows read = .ok answer) :
    (t.keepingAll full).read d real read = .ok answer := by
  cases read with
  | getAsOf entity id height' =>
    cases hheight
    obtain ⟨a, ha, rfl⟩ := map_eq_ok.1 hok
    exact map_eq_ok.2 ⟨a, mapError_eq_ok.2 (getAsOfFrom_behind h hc (mapError_eq_ok.1 ha)), rfl⟩
  | listAsOf entity idPrefix height' limit =>
    cases hheight
    obtain ⟨a, ha, rfl⟩ := map_eq_ok.1 hok
    exact map_eq_ok.2 ⟨a, mapError_eq_ok.2 (listAsOfFrom_behind h hc (mapError_eq_ok.1 ha)), rfl⟩
  | find query =>
    obtain ⟨a, ha, rfl⟩ := map_eq_ok.1 hok
    obtain ⟨planned, hplan, ha⟩ := bind_eq_ok.1 ha
    obtain ⟨_, hret, ha⟩ := bind_eq_ok.1 ha
    have hplanned := (height_planFind (mapError_eq_ok.1 hplan)).trans hheight
    rw [findStatement_eq hplanned (hrows 0)] at ha
    exact map_eq_ok.2 ⟨a, bind_eq_ok.2 ⟨planned, hplan, bind_eq_ok.2 ⟨(), assertHeight_keepingAll h.floor hret, ha⟩⟩, rfl⟩
  | children query =>
    obtain ⟨a, ha, rfl⟩ := map_eq_ok.1 hok
    obtain ⟨planned, hplan, ha⟩ := bind_eq_ok.1 ha
    obtain ⟨_, hret, ha⟩ := bind_eq_ok.1 ha
    have hplanned := (height_planChildren (mapError_eq_ok.1 hplan)).trans hheight
    have hsame : ∀ (keys : List (List Text)) n,
        childrenStatement real planned keys (rows n) = childrenStatement real planned keys full :=
      fun keys n => childrenStatement_eq hplanned (hrows n) keys
    simp only [hsame, zipIdx_flatMap _ fun keys => childrenStatement real planned keys full] at ha
    exact map_eq_ok.2 ⟨a, bind_eq_ok.2 ⟨planned, hplan, bind_eq_ok.2 ⟨(), assertHeight_keepingAll h.floor hret, ha⟩⟩, rfl⟩

end VersionedStateStore

/-! ### Races -/

/-- A read of the indexed store and the calls around it: those committed before its check, and those committed
between the check and the rows. -/
structure IndexedRace (X H C : Type) where
  handles : ℕ → IndexedHandle
  before : List (ℕ × IndexedCall X H C)
  between : List (ℕ × IndexedCall X H C)
  reader : ℕ
  read : AsOfRead

namespace IndexedRace

variable [DecidableEq H] (d : AccessorDeclarations) (real : X → Option ℚ) (bound : ℕ) (race : IndexedRace X H C)

/-- Where all of it begins. -/
def start : IndexedService X H C := ⟨.empty, race.handles⟩

/-- What the read answers. -/
def answer : Except AccessorError (AsOfAnswer X) :=
  ((race.start.run d.entities race.before).store race.reader).readFrom d real bound
    (race.start.run d.entities (race.before ++ race.between)).db race.read

/-- What a store that kept the full history answers, when the first `n` of the calls in between have been committed. -/
def fullAnswer (n : ℕ) : Except AccessorError (AsOfAnswer X) :=
  ((race.start.keepingAll.run d.entities (race.before ++ race.between.take n)).store race.reader).read d real bound race.read

/-- **No prune reaches above the height** before the rows are read, and no revert goes below what was pruned. -/
structure Careful (height : ℤ) : Prop where
  above : race.start.StaysAbove d.entities none (race.before ++ race.between)
  pruned : ∀ x ∈ race.start.prunedTo d.entities none (race.before ++ race.between), (x : ℤ) ≤ height

end IndexedRace

/-- A read of the versioned store and the batches around it: before the tip is read, until the recorded floor is, until
the first rows are, and between the statements for the rows. -/
structure SqlRace (X H C : Type) where
  reader : VersionedStateStore X H C
  before : List (Flight X H C)
  toFloor : List (Flight X H C)
  toRows : List (Flight X H C)
  gaps : List (List (Flight X H C))
  read : AsOfRead

namespace SqlRace

variable [DecidableEq H] (d : AccessorDeclarations) (real : X → Option ℚ) (race : SqlRace X H C)

/-- The batches until the first rows are read. -/
def first : List (Flight X H C) := race.before ++ race.toFloor ++ race.toRows

/-- The batches until the `n`th statement for the rows. -/
def upTo (n : ℕ) : List (Flight X H C) := race.first ++ (race.gaps.take n).flatten

/-- What the read answers. -/
def answer : Except AccessorError (AsOfAnswer X) :=
  VersionedStateStore.readFrom d real { race.reader with db := Database.empty.run race.before }
    (Database.empty.run (race.before ++ race.toFloor)) (fun n => Database.empty.run (race.upTo n)) race.read

/-- What a store that kept the full history answers when the first rows are read. -/
def fullAnswer : Except AccessorError (AsOfAnswer X) :=
  (race.reader.keepingAll (Database.empty.runKeepingAll race.first)).read d real race.read

/-- **No prune reaches above the height** before the last rows are read, and no revert goes below what was pruned; no
statement between two statements for the rows writes at the height or below. -/
structure Careful (height : ℤ) : Prop where
  above : Database.AbovePruned (fun _ => none) (race.first ++ race.gaps.flatten) .empty
  pruned : ∀ n entity, ∀ x ∈ Database.prunedTo (fun _ => none) (race.upTo n) .empty entity, (x : ℤ) ≤ height
  spares : Database.Spares height race.gaps.flatten (Database.empty.run race.first)

/-- The databases the statements for the rows find, next to the full history when the first is executed. -/
theorem standing_upTo {race : SqlRace X H C} {height : ℤ} (h : race.Careful height) (n : ℕ) :
    (Database.empty.run (race.upTo n)).standing height =
      (Database.empty.runKeepingAll race.first : Database X H C).standing height := by
  have hgaps : race.gaps.flatten = (race.gaps.take n).flatten ++ (race.gaps.drop n).flatten := by
    rw [← List.flatten_append, List.take_append_drop]
  obtain ⟨hfirst, hrest⟩ := Database.abovePruned_append.1 h.above
  rw [hgaps] at hrest
  obtain ⟨hbase, -⟩ := Database.behind_run (Database.behind_empty fun _ => none) race.first hfirst
  obtain ⟨hbehind, hspared⟩ := Database.behind_run hbase (race.gaps.take n).flatten (Database.abovePruned_append.1 hrest).1
  have hspares := h.spares
  rw [hgaps] at hspares
  rw [← hspared height (Database.spares_append hspares)]
  have hpruned := h.pruned n
  unfold upTo at hpruned ⊢
  rw [Database.prunedTo_append] at hpruned
  rw [Database.run_append]
  funext entity
  exact congrArg (List.map (·.columns)) (hbehind.filter_openAt entity (hpruned entity))

end SqlRace

variable [DecidableEq H]

/-- **An as-of read that races other handles answers as the full history does** when its rows are read, in every run in
which prunes reach no further than its height. -/
theorem asOf_racing (d : AccessorDeclarations) (real : X → Option ℚ) (bound : ℕ) :
    (∀ (race : IndexedRace X H C) (height : ℤ), race.read.height = some height → race.Careful d height →
      ∀ answer, race.answer d real bound = .ok answer → race.fullAnswer d real bound race.between.length = .ok answer) ∧
    ∀ (race : SqlRace X H C) (height : ℤ), race.read.height = some height → race.Careful height →
      ∀ answer, race.answer d real = .ok answer → race.fullAnswer d real = .ok answer := by
  constructor
  · intro race height hheight hcareful answer hanswer
    have hbehind := IndexedService.behind_run (IndexedService.behind_new race.handles) _ hcareful.above
    unfold IndexedRace.fullAnswer
    rw [List.take_length]
    refine IndexedDBStateStore.readFrom_behind hbehind.db hcareful.pruned ?_ hheight hanswer
    exact congrArg IndexedDBStateStore.provided (hbehind.store race.reader)
  · intro race height hheight hcareful answer hanswer
    have hzero : race.upTo 0 = race.first := List.append_nil _
    obtain ⟨hbase, -⟩ := Database.behind_run (Database.behind_empty fun _ => none) race.first
      (Database.abovePruned_append.1 hcareful.above).1
    have hpruned := hcareful.pruned 0
    rw [hzero] at hpruned
    have hfound : (fun n => (Database.empty.run (race.upTo n) : Database X H C)) 0 = Database.empty.run race.first :=
      congrArg _ hzero
    rw [← hfound] at hbase
    exact VersionedStateStore.readFrom_behind (t := { race.reader with db := Database.empty.run race.before }) hbase hpruned
      (SqlRace.standing_upTo hcareful) hheight hanswer

/-- The coin, as the accessor is told of it. -/
def coinAccessor : AccessorDeclarations := ⟨[coin], fun _ _ => .integer, fun _ => none, fun _ => []⟩

/-- No value is a number but those the store looks into. -/
def noNumber : Unit → Option ℚ := fun _ => none

/-- Two handles on a window of two blocks, and a read of the coin. -/
def coinRace (height : ℤ) : IndexedRace Unit ℕ Unit where
  handles := fun n => ⟨if n = 0 then "writer" else "reader", false, .window 2, some 2⟩
  before := [(0, .applyBlock ⟨⟨1, 1⟩, [.upsert "coin" [("id", [65])] [("value", .number 10)]], none⟩),
    (0, .applyBlock ⟨⟨2, 2⟩, [.upsert "coin" [("id", [65])] [("value", .number 20)]], none⟩),
    (0, .applyBlock ⟨⟨3, 3⟩, [], none⟩)]
  between := [(0, .applyBlock ⟨⟨4, 4⟩, [], none⟩), (0, .prune none)]
  reader := 1
  read := .getAsOf "coin" [("id", [65])] height

/-- The block that writes the coin, as a batch. -/
def coinFlight (number : ℕ) : Flight Unit ℕ Unit :=
  ⟨"writer", number = 1, ((applyBlockStatements [coin] ⟨⟨number, number⟩,
    [.upsert "coin" [("id", [65])] [("value", .number number)]], none⟩ "writer").toOption.getD [])⟩

/-- A read of the coin, with a block written between its check and its rows. -/
def coinSqlRace : SqlRace Unit ℕ Unit where
  reader := ⟨.empty, "reader", false, ⟨10, 10, 10⟩, fun _ => 1, .window 2, some 2⟩
  before := [coinFlight 1]
  toFloor := []
  toRows := [coinFlight 2]
  gaps := []
  read := .getAsOf "coin" [("id", [65])] 1

theorem asOf_racing_coin :
    (coinRace 2).fullAnswer coinAccessor noNumber 100 2 = (coinRace 2).answer coinAccessor noNumber 100 ∧
      coinSqlRace.fullAnswer coinAccessor noNumber = coinSqlRace.answer coinAccessor noNumber := by
  obtain ⟨hindexed, hsql⟩ := asOf_racing (H := ℕ) (C := Unit) coinAccessor noNumber 100
  have hcareful : (coinRace 2).Careful coinAccessor 2 :=
    ⟨⟨trivial, trivial, trivial, trivial, trivial, trivial⟩, by decide⟩
  have hcarefulSql : coinSqlRace.Careful 1 := by
    refine ⟨⟨⟨fun _ => trivial, fun _ => trivial, fun _ => trivial, trivial⟩,
      ⟨fun _ => trivial, fun _ => trivial, fun _ => trivial, trivial⟩, trivial⟩, fun n entity x hx => ?_, trivial⟩
    -- no batch prunes
    have hnothing : Database.prunedTo (fun _ => none) (coinSqlRace.upTo n) .empty entity = none := by
      unfold SqlRace.upTo
      rw [show coinSqlRace.gaps = [] from rfl, List.take_nil]
      rfl
    rw [hnothing] at hx
    cases hx
  obtain ⟨answer, hanswer⟩ : ∃ answer, (coinRace 2).answer coinAccessor noNumber 100 = .ok answer := ⟨_, rfl⟩
  obtain ⟨answer', hanswer'⟩ : ∃ answer, coinSqlRace.answer coinAccessor noNumber = .ok answer := ⟨_, rfl⟩
  rw [hanswer, hanswer']
  exact ⟨hindexed (coinRace 2) 2 rfl hcareful answer hanswer, hsql coinSqlRace 1 rfl hcarefulSql answer' hanswer'⟩

/-- **A prune between the check and the rows answers a row that stood as absent.** The check found the height inside the
window; a block moved the window past it and a prune deleted what stood there. -/
theorem getAsOf_raced : ¬∀ (race : IndexedRace Unit ℕ Unit) (answer : AsOfAnswer Unit),
    race.answer coinAccessor noNumber 100 = .ok answer →
      ∃ n, race.fullAnswer coinAccessor noNumber 100 n = .ok answer := by
  intro h
  have hanswer : (coinRace 1).answer coinAccessor noNumber 100 = .ok (.row none) := by decide
  obtain ⟨n, hn⟩ := h (coinRace 1) _ hanswer
  -- the full history answers a row at every moment
  have hnever : ∀ calls ∈ [(coinRace 1).between.take 0, (coinRace 1).between.take 1, (coinRace 1).between],
      (((coinRace 1).start.keepingAll.run coinAccessor.entities ((coinRace 1).before ++ calls)).store 1).read coinAccessor
        noNumber 100 (coinRace 1).read ≠ .ok (.row none) := by decide
  refine hnever ((coinRace 1).between.take n) ?_ hn
  rcases n with _ | _ | n
  · exact List.mem_cons_self
  · exact List.mem_cons_of_mem _ List.mem_cons_self
  · have hall : (coinRace 1).between.take (n + 2) = (coinRace 1).between := List.take_of_length_le (by simp [coinRace])
    rw [hall]
    simp

end Etherfold
