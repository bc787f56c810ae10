import Etherfold.Indexed.Refines

/-!
# The reads of the indexed store

An as-of read takes one step back from the height it asks for; a listing is a range of keys.
Both find what the reference store finds by looking at every version.

* `asOf_eq_getLast?`: the version standing at a height is the last one that opened by then.
* `Refines.answersAlike`: **stores side by side answer alike**.
-/

namespace Versions

variable {V : Type*} {vs : List (Version V)}

/-- **The version standing at a height is the last that had opened by then**, unless it had closed. -/
theorem asOf_eq_getLast? (h : Chained vs) (k : ℤ) :
    asOf k vs = ((vs.filter fun v => (v.lower : ℤ) ≤ k).getLast?).filter (·.openAt k) := by
  refine Option.ext fun v => ?_
  rw [asOf_eq_some_iff h, Option.filter_eq_some_iff]
  refine and_congr_left fun hopen => ?_
  have hle := (Version.openAt_iff.1 hopen).1
  constructor
  · intro hv
    have hmem : v ∈ vs.filter fun v => (v.lower : ℤ) ≤ k := List.mem_filter.2 ⟨hv, by simpa using hle⟩
    cases hlast : (vs.filter fun v => (v.lower : ℤ) ≤ k).getLast? with
    | none =>
      rw [List.getLast?_eq_none_iff.1 hlast] at hmem
      cases hmem
    | some w =>
      obtain ⟨init, hinit⟩ := List.getLast?_eq_some_iff.1 hlast
      have hw : (w.lower : ℤ) ≤ k := by
        simpa using (List.mem_filter.1 (List.mem_of_getLast? hlast)).2
      have hord := h.ordered.filter fun v => decide ((v.lower : ℤ) ≤ k)
      rw [hinit] at hmem hord
      rcases List.mem_append.1 hmem with hmem | hmem
      · -- what is followed by another had closed by then
        obtain ⟨x, hx, hxle⟩ := (List.pairwise_append.1 hord).2.2 v hmem w (by simp)
        have hlt := (Version.openAt_iff.1 hopen).2 x hx
        omega
      · rw [List.mem_singleton.1 hmem]
  · intro hlast
    exact List.mem_of_mem_filter (List.mem_of_getLast? hlast)

end Versions

namespace Etherfold

open Versions

variable {X H C : Type} {declarations : List NormalizedEntity}

namespace IndexedDB

variable {db : IndexedDB X H C} {s : EntityStore X H C} {c : ℤ}

/-- The range of an as-of read holds the versions of the row that had opened by then. -/
theorem Sound.range_asOf (h : db.Sound) {row : Key} (hrow : IsRow row) (height : ℤ) :
    (db.versions.range (asOfRange row height)).map (·.2) =
      (rowVersions db.versions row).filter fun v => (v.lower : ℤ) ≤ height := by
  have hkey : ∀ e ∈ db.versions.range (asOfRange row height),
      e.1 = versionKey row e.2.lower ∧ (e.2.lower : ℤ) ≤ height ∧ db.versions.get e.1 = some e.2 := by
    intro e he
    obtain ⟨hget, hin⟩ := ObjectStore.mem_range.1 he
    obtain ⟨row', hrow', hk⟩ := h.keyed _ _ hget
    rw [hk] at hin
    obtain ⟨rfl, hle⟩ := (asOfRange_iff hrow hrow' _ _).1 hin
    exact ⟨hk, hle, hget⟩
  have hsorted : ByLower ((db.versions.range (asOfRange row height)).map (·.2)) := by
    refine List.pairwise_map.2 ((db.versions.sorted_range _).imp_of_mem fun {a b} ha hb hlt => ?_)
    rw [(hkey a ha).1, (hkey b hb).1, versionKey_lt_iff hrow hrow] at hlt
    rcases hlt with hlt | ⟨-, hlt⟩
    · exact absurd hlt (lt_irrefl _)
    · exact_mod_cast hlt
  refine Paging.Sorted.ext hsorted ((byLower_rowVersions h.keyed row).filter _) fun v => ?_
  rw [List.mem_map, List.mem_filter, mem_rowVersions h.keyed, decide_eq_true_eq]
  constructor
  · rintro ⟨e, he, rfl⟩
    obtain ⟨hk, hle, hget⟩ := hkey e he
    rw [hk] at hget
    exact ⟨hget, hle⟩
  · rintro ⟨hget, hle⟩
    refine ⟨(versionKey row v.lower, v), ObjectStore.mem_range.2 ⟨hget, ?_⟩, rfl⟩
    rw [asOfRange_iff hrow hrow]
    exact ⟨rfl, hle⟩

/-- What a step back from a height finds had opened by then. -/
theorem Sound.lower_le (h : db.Sound) {row : Key} (hrow : IsRow row) {height : ℤ} {e : Key × Version (Record X)}
    (he : (db.versions.range (asOfRange row height)).getLast? = some e) : (e.2.lower : ℤ) ≤ height := by
  have hmem := List.mem_map_of_mem (f := (·.2)) (List.mem_of_getLast? he)
  rw [h.range_asOf hrow] at hmem
  simpa using (List.mem_filter.1 hmem).2

/-- **One step back from a height** finds the version standing there. -/
theorem Sound.getLast_asOf (h : db.Sound) {row : Key} (hrow : IsRow row) (height : ℤ) :
    ((db.versions.range (asOfRange row height)).getLast?.map (·.2)).filter (·.openAt height) =
      Versions.asOf height (rowVersions db.versions row) := by
  rw [asOf_eq_getLast? (h.chained row), ← h.range_asOf hrow, List.getLast?_map]

/-- What the two stores find of a key at the tip. -/
theorem Mirrors.find_current (h : db.Mirrors s c) {key : EntityKey} (hkey : key.WellFormed) :
    (db.current.get (rowKey key)).map CurrentRecord.version = (versionsOf s.rows key).find? (·.upper.isNone) :=
  (h.sound.live (rowKey key)).trans
    ((h.alike key hkey).current (h.sound.chained (rowKey key)) (h.wellFormed.chained key))

/-- What the two stores find of a key at a height. -/
theorem Mirrors.find_openAt (h : db.Mirrors s c) {height : ℤ} (hc : c ≤ height) {key : EntityKey}
    (hkey : key.WellFormed) :
    (rowVersions db.versions (rowKey key)).find? (·.openAt height) =
      (versionsOf s.rows key).find? (·.openAt height) :=
  (h.alike key hkey).asOf (h.sound.chained (rowKey key)) (h.wellFormed.chained key) hc

/-- **A range of rows in the order of their keys** is what the reference store lists. -/
theorem Mirrors.listing (h : db.Mirrors s c) {entity : String} {values : List Text}
    (hvalues : ∀ text ∈ values, isWellFormed text = true) {matching : Version (Record X) → Bool}
    (hsame : ∀ key : EntityKey, key.WellFormed →
      (rowVersions db.versions (rowKey key)).find? matching = (versionsOf s.rows key).find? matching)
    {rows : List (Key × Version (Record X))} (hsorted : Paging.Sorted Prod.fst rows)
    (hmem : ∀ row v, (row, v) ∈ rows ↔
      rowKey ⟨entity, values⟩ <+: row ∧ (rowVersions db.versions row).find? matching = some v) :
    rows.map (·.2) = ((EntityStore.found s.rows entity values matching).insertionSort
      fun a b => compareIds a.1 b.1 ≤ 0).map (·.2) := by
  set found := (EntityStore.found s.rows entity values matching).insertionSort fun a b => compareIds a.1 b.1 ≤ 0
    with hfound
  have hin : ∀ id v, (id, v) ∈ found ↔
      hasIdPrefix id values = true ∧ (versionsOf s.rows ⟨entity, id⟩).find? matching = some v := by
    intro id v
    rw [hfound, (List.perm_insertionSort _ _).mem_iff, EntityStore.mem_found h.wellFormed.nodup]
  have hwell : ∀ id v, (id, v) ∈ found → EntityKey.WellFormed ⟨entity, id⟩ := by
    intro id v hv
    refine h.keys _ fun hnil => ?_
    have hfind := ((hin id v).1 hv).2
    rw [hnil] at hfind
    cases hfind
  -- the ids under their keys
  have hkeys : Paging.Sorted Prod.fst (found.map fun e => (rowKey ⟨entity, e.1⟩, e.2)) := by
    refine List.pairwise_map.2 ((EntityStore.sorted_found h.wellFormed.nodup).imp_of_mem fun {a b} ha hb hlt => ?_)
    exact (rowKey_lt_iff (hwell a.1 a.2 ha) (hwell b.1 b.2 hb) rfl).2 hlt
  have heq : rows = found.map fun e => (rowKey ⟨entity, e.1⟩, e.2) := by
    refine Paging.Sorted.ext hsorted hkeys fun e => ?_
    obtain ⟨row, v⟩ := e
    rw [hmem, List.mem_map]
    constructor
    · rintro ⟨hstart, hfind⟩
      have hne : rowVersions db.versions row ≠ [] := by
        intro hnil
        rw [hnil] at hfind
        cases hfind
      obtain ⟨key, hkey, rfl⟩ := h.rows row hne
      obtain ⟨hentity, hid⟩ := (rowKey_prefix_iff hvalues hkey).1 hstart
      rw [hsame key hkey] at hfind
      obtain ⟨entity', id⟩ := key
      obtain rfl : entity' = entity := hentity
      exact ⟨(id, v), (hin id v).2 ⟨hid, hfind⟩, rfl⟩
    · rintro ⟨e, he, heq⟩
      injection heq with hrow hv
      have hkey := hwell e.1 e.2 he
      obtain ⟨hid, hfind⟩ := (hin e.1 e.2).1 he
      rw [← hrow, ← hv, hsame _ hkey, rowKey_prefix_iff hvalues hkey]
      exact ⟨⟨rfl, hid⟩, hfind⟩
  rw [heq, List.map_map]
  rfl

/-- The live rows that start with a key. -/
theorem Mirrors.listing_current (h : db.Mirrors s c) (entity : String) {values : List Text}
    (hvalues : ∀ text ∈ values, isWellFormed text = true) :
    (db.current.range (startingWith (rowKey ⟨entity, values⟩))).map (fun e => e.2.version) =
      ((EntityStore.found s.rows entity values (·.upper.isNone)).insertionSort
        fun a b => compareIds a.1 b.1 ≤ 0).map (·.2) := by
  have hsame : ∀ key : EntityKey, key.WellFormed → (rowVersions db.versions (rowKey key)).find? (·.upper.isNone) =
      (versionsOf s.rows key).find? (·.upper.isNone) := fun key hkey =>
    (h.alike key hkey).current (h.sound.chained (rowKey key)) (h.wellFormed.chained key)
  have hrows := @Mirrors.listing _ _ _ _ _ _ h entity _ hvalues _ hsame
    ((db.current.range (startingWith (rowKey ⟨entity, values⟩))).map fun e => (e.1, e.2.version))
  rw [← hrows, List.map_map]
  · rfl
  · exact List.pairwise_map.2 (db.current.sorted_range _)
  · intro row v
    rw [List.mem_map]
    have hlive := h.sound.live row
    have hrow : ∀ {w}, (rowVersions db.versions row).find? (·.upper.isNone) = some w → IsRow row := fun hfind =>
      isRow_of_mem h.sound.keyed (List.mem_of_find?_eq_some hfind)
    constructor
    · rintro ⟨e, he, heq⟩
      injection heq with hk hv
      obtain ⟨hget, hin⟩ := ObjectStore.mem_range.1 he
      rw [hk] at hget hin
      rw [hget, Option.map_some, hv] at hlive
      exact ⟨(startingWith_iff (hrow hlive.symm)).1 hin, hlive.symm⟩
    · rintro ⟨hstart, hfind⟩
      have hfind' : Versions.current (rowVersions db.versions row) = some v := hfind
      rw [hfind'] at hlive
      obtain ⟨record, hget, hv⟩ := Option.map_eq_some_iff.1 hlive
      exact ⟨(row, record), ObjectStore.mem_range.2 ⟨hget, (startingWith_iff (hrow hfind)).2 hstart⟩, by rw [hv]⟩

/-- The standing versions whose rows start with a key. -/
theorem Mirrors.listing_asOf (h : db.Mirrors s c) (entity : String) {values : List Text}
    (hvalues : ∀ text ∈ values, isWellFormed text = true) {height : ℤ} (hc : c ≤ height) :
    ((db.versions.range (startingWith (rowKey ⟨entity, values⟩))).filter fun e => e.2.openAt height).map (·.2) =
      ((EntityStore.found s.rows entity values (·.openAt height)).insertionSort
        fun a b => compareIds a.1 b.1 ≤ 0).map (·.2) := by
  set standing := (db.versions.range (startingWith (rowKey ⟨entity, values⟩))).filter fun e => e.2.openAt height
    with hstanding
  have hkey : ∀ e ∈ standing, ∃ row, IsRow row ∧ e.1 = versionKey row e.2.lower ∧ e.2 ∈ rowVersions db.versions row ∧
      rowKey ⟨entity, values⟩ <+: row ∧ e.2.openAt height = true := by
    intro e he
    obtain ⟨hrange, hopen⟩ := List.mem_filter.1 he
    obtain ⟨hget, hin⟩ := ObjectStore.mem_range.1 hrange
    obtain ⟨row, hrow, hk⟩ := h.sound.keyed _ _ hget
    rw [hk] at hget hin
    exact ⟨row, hrow, hk, (mem_rowVersions h.sound.keyed).2 hget,
      (startingWith_versionKey (isRow_rowKey _) hrow _).1 hin, hopen⟩
  have hrows := @Mirrors.listing _ _ _ _ _ _ h entity _ hvalues _ (fun key hk => h.find_openAt hc hk)
    (standing.map fun e => (rowOfVersionKey e.1, e.2))
  rw [← hrows, List.map_map]
  · rfl
  · refine List.pairwise_map.2 (((db.versions.sorted_range _).filter _).imp_of_mem fun {a b} ha hb hlt => ?_)
    obtain ⟨row, hrow, hk, hmem, -, hopen⟩ := hkey a ha
    obtain ⟨row', hrow', hk', hmem', -, hopen'⟩ := hkey b hb
    rw [hk, hk', versionKey_lt_iff hrow hrow'] at hlt
    dsimp only
    rw [hk, hk', rowOfVersionKey_versionKey, rowOfVersionKey_versionKey]
    rcases hlt with hlt | ⟨rfl, hlt⟩
    · exact hlt
    · -- one version of a row stands at a height
      have hsame := (h.sound.chained row).eq_of_openAt hmem hmem' hopen hopen'
      rw [hsame] at hlt
      exact absurd hlt (lt_irrefl _)
  · intro row v
    rw [List.mem_map]
    have hfind := asOf_eq_some_iff (h.sound.chained row) (k := height) (v := v)
    unfold Versions.asOf at hfind
    rw [hfind]
    constructor
    · rintro ⟨e, he, heq⟩
      obtain ⟨row', -, hk, hmem, hstart, hopen⟩ := hkey e he
      injection heq with hrow hv
      rw [hk, rowOfVersionKey_versionKey] at hrow
      rw [← hrow, ← hv]
      exact ⟨hstart, hmem, hopen⟩
    · rintro ⟨hstart, hmem, hopen⟩
      have hrow := isRow_of_mem h.sound.keyed hmem
      refine ⟨(versionKey row v.lower, v), List.mem_filter.2 ⟨ObjectStore.mem_range.2
        ⟨(mem_rowVersions h.sound.keyed).1 hmem, ?_⟩, hopen⟩, by rw [rowOfVersionKey_versionKey]⟩
      exact (startingWith_versionKey (isRow_rowKey _) hrow _).2 hstart

end IndexedDB

namespace IndexedDBStateStore

variable {t : IndexedDBStateStore X H C} {s : EntityStore X H C} {c : ℤ}

/-- The columns of an id, or of a prefix of one, are well formed texts. -/
def WellFormedId (values : Except EntityError (List Text)) : Prop :=
  ∀ texts, values = .ok texts → ∀ text ∈ texts, isWellFormed text = true

/-- **The two stores answer alike**, about ids that are well formed, and about heights from `c` on. -/
structure AnswersAlike (declarations : List NormalizedEntity) (t : IndexedDBStateStore X H C) (s : EntityStore X H C)
    (c : ℤ) : Prop where
  getCurrent : ∀ entity id,
    (∀ declaration, mustGet declarations entity = .ok declaration →
      WellFormedId (idValues declaration.name declaration.id id)) →
      t.getCurrent declarations entity id = EntityStore.getCurrent declarations s entity id
  getAsOf : ∀ entity id height, c ≤ height →
    (∀ declaration, mustGet declarations entity = .ok declaration →
      WellFormedId (idValues declaration.name declaration.id id)) →
      (t.getAsOf declarations entity id height).toOption =
        (EntityStore.getAsOf declarations s entity id height).toOption
  listCurrent : ∀ entity idPrefix limit,
    (∀ declaration, mustGet declarations entity = .ok declaration → WellFormedId (prefixValues declaration idPrefix)) →
      t.listCurrent declarations entity idPrefix limit = EntityStore.listCurrent declarations s entity idPrefix limit
  listAsOf : ∀ entity idPrefix height limit, c ≤ height →
    (∀ declaration, mustGet declarations entity = .ok declaration → WellFormedId (prefixValues declaration idPrefix)) →
      (t.listAsOf declarations entity idPrefix height limit).toOption =
        (EntityStore.listAsOf declarations s entity idPrefix height limit).toOption

/-- A version that had opened by a height stands there unless it had closed. -/
theorem version_openAt {V : Type} {version : Version V} {height : ℤ} (hle : (version.lower : ℤ) ≤ height) :
    version.openAt height = version.upper.all fun x : ℕ => height < (x : ℤ) := by
  unfold Version.openAt
  rw [decide_eq_true hle, Bool.true_and]

/-- Rows read in order, of lists that hold the same versions. -/
theorem mapM_readVersion {α β : Type} (declaration : NormalizedEntity) (f : α → Version (Record X))
    (g : β → Version (Record X)) {l : List α} {l' : List β} (h : l.map f = l'.map g) (n : ℕ) :
    (l.take n).mapM (fun e => readVersion declaration (f e)) =
      (l'.take n).mapM fun e => readVersion declaration (g e) := by
  have hleft : ((l.take n).map f).mapM (readVersion declaration) =
      (l.take n).mapM fun e => readVersion declaration (f e) := List.mapM_map
  have hright : ((l'.take n).map g).mapM (readVersion declaration) =
      (l'.take n).mapM fun e => readVersion declaration (g e) := List.mapM_map
  rw [List.map_take, h, ← List.map_take, hright] at hleft
  exact hleft.symm

/-- **Stores side by side answer alike.** -/
theorem Refines.answersAlike [DecidableEq H] (h : t.Refines s c) : AnswersAlike declarations t s c := by
  have hm := h.mirrors
  have hret : ∀ height, assertRetained t.provided height t.db.tip = assertRetained s.provided height s.tip := by
    intro height
    rw [h.provided, hm.tip]
  refine ⟨fun entity id hid => ?_, fun entity id height hc hid => ?_, fun entity idPrefix limit hid => ?_,
    fun entity idPrefix height limit hc hid => ?_⟩
  · unfold IndexedDBStateStore.getCurrent EntityStore.getCurrent EntityStore.read entityKey
    cases hget : mustGet declarations entity with
    | error e => rfl
    | ok declaration =>
      cases hids : idValues declaration.name declaration.id id with
      | error e => simp [hids, bind, Except.bind, Except.map]
      | ok ids =>
        have hwell := hid declaration hget ids hids
        have hfind := @IndexedDB.Mirrors.find_current _ _ _ _ _ _ hm ⟨declaration.name, ids⟩ hwell
        simp only [bind, Except.bind, hids, Except.map, ← hfind]
        cases t.db.current.get (rowKey ⟨declaration.name, ids⟩) <;> rfl
  · unfold IndexedDBStateStore.getAsOf EntityStore.getAsOf EntityStore.read entityKey
    rw [hret]
    cases hget : mustGet declarations entity with
    | error e => cases assertRetained s.provided height s.tip <;> rfl
    | ok declaration =>
      cases assertRetained s.provided height s.tip with
      | error e => rfl
      | ok _ =>
        cases hids : idValues declaration.name declaration.id id with
        | error e => simp [hids, bind, Except.bind, Except.map, Except.mapError]
        | ok ids =>
          have hwell := hid declaration hget ids hids
          have hfind := @IndexedDB.Mirrors.find_openAt _ _ _ _ _ _ hm _ hc ⟨declaration.name, ids⟩ hwell
          have hlast := hm.sound.getLast_asOf (isRow_rowKey ⟨declaration.name, ids⟩) height
          unfold Versions.asOf at hlast
          rw [hfind] at hlast
          simp only [bind, Except.bind, hids, Except.map, Except.mapError, ← hlast]
          cases hv : (t.db.versions.range (asOfRange (rowKey ⟨declaration.name, ids⟩) height)).getLast? with
          | none => rfl
          | some e =>
            obtain ⟨k, version⟩ := e
            have hle := hm.sound.lower_le (isRow_rowKey ⟨declaration.name, ids⟩) hv
            have hopen := version_openAt hle
            rw [Option.map_some, Option.filter_some]
            dsimp only at hopen ⊢
            rw [hopen]
            cases version.upper with
            | none => simp
            | some x =>
              by_cases hx : height < (x : ℤ)
              · simp [hx, hx.not_ge]
              · simp [hx, not_lt.1 hx]
  · unfold IndexedDBStateStore.listCurrent EntityStore.listCurrent EntityStore.scan
    cases hget : mustGet declarations entity with
    | error e => rfl
    | ok declaration =>
      cases hvalues : prefixValues declaration idPrefix with
      | error e => simp [hvalues, bind, Except.bind]
      | ok values =>
        cases hlimit : assertListingLimit declaration limit with
        | error e => simp [hvalues, hlimit, bind, Except.bind]
        | ok _ =>
          have hrows := hm.listing_current declaration.name (hid declaration hget values hvalues)
          have hread := mapM_readVersion declaration (fun e : Key × CurrentRecord (Record X) => e.2.version)
            (fun e : List Text × Version (Record X) => e.2) hrows (limit.toNat + 1)
          simp only [bind, Except.bind, hvalues, hlimit, hread]
  · unfold IndexedDBStateStore.listAsOf EntityStore.listAsOf EntityStore.scan
    rw [hret]
    cases hget : mustGet declarations entity with
    | error e => cases assertRetained s.provided height s.tip <;> rfl
    | ok declaration =>
      cases hvalues : prefixValues declaration idPrefix with
      | error e =>
        cases assertRetained s.provided height s.tip <;>
          simp [hvalues, bind, Except.bind, Except.mapError, Except.toOption]
      | ok values =>
        cases hlimit : assertListingLimit declaration limit with
        | error e =>
          cases assertRetained s.provided height s.tip <;>
            simp [hvalues, hlimit, bind, Except.bind, Except.mapError, Except.toOption]
        | ok _ =>
          cases assertRetained s.provided height s.tip with
          | error e => simp [hvalues, hlimit, bind, Except.bind, Except.mapError]
          | ok _ =>
            have hrows := hm.listing_asOf declaration.name (hid declaration hget values hvalues) hc
            have hread := mapM_readVersion declaration (fun e : Key × Version (Record X) => e.2)
              (fun e : List Text × Version (Record X) => e.2) hrows (limit.toNat + 1)
            simp only [bind, Except.bind, hvalues, hlimit, Except.mapError, hread]
            generalize List.mapM (m := Except EntityError) _ _ = rows
            cases rows <;> rfl

end IndexedDBStateStore

end Etherfold
