import Etherfold.Store.Patch

/-!
# The patch store next to the reference store

The two keep the same blocks and answer the current state of them, one from versions and the
other from the properties of plain objects, which answer some names without being asked.

* `own_lightReplay`: a property holds what the last mutation of its key left.
* `Alike`: two stores that take the same blocks and answer alike, the version columns aside.
* `PatchStateStore.refines_memory_iff`: **the stores stay alike** exactly when no key in use
  spells a name every object inherits.
-/

namespace Etherfold

open Versions

variable {X H C : Type}

/-! ### Keys as texts -/

/-- There is an id value, and none has a NUL in it. -/
def EntityKey.Joinable (key : EntityKey) : Prop := key.id ≠ [] ∧ ∀ text ∈ key.id, (0 : UInt16) ∉ text

theorem splitOn_bucketKey {key : EntityKey} (h : key.Joinable) : (bucketKey key).splitOn 0 = key.id :=
  List.splitOn_intercalate 0 h.2 h.1

theorem bucketKey_inj {a b : EntityKey} (ha : a.Joinable) (hb : b.Joinable) (hentity : a.entity = b.entity)
    (h : bucketKey a = bucketKey b) : a = b := by
  have hid : a.id = b.id := by rw [← splitOn_bucketKey ha, ← splitOn_bucketKey hb, h]
  obtain ⟨entity, id⟩ := a
  subst hentity
  subst hid
  rfl

/-- What `idValues` accepts can be joined and split again. -/
theorem entityKey_joinable {declaration : NormalizedEntity} {id : EntityId} {key : EntityKey}
    (h : entityKey declaration id = .ok key) : key.Joinable := by
  obtain ⟨ids, hids, rfl⟩ := entityKey_ok.1 h
  unfold idValues at hids
  constructor
  · intro hnil
    have hlen := (mapM_eq_ok.1 hids).length_eq
    have hids' : ids = [] := hnil
    rw [hids', List.length_nil, List.length_eq_zero_iff] at hlen
    exact declaration.id_ne hlen
  · intro text htext
    obtain ⟨column, -, hcolumn⟩ := mem_of_mapM_ok hids htext
    unfold idValue at hcolumn
    split at hcolumn
    · cases hcolumn
    · split at hcolumn
      · cases hcolumn
      · rename_i hfree
        injection hcolumn with heq
        rwa [← heq]

section Replay

variable {applied : List (AppliedBlock EntityKey (Record X) H)}

/-- What a block's mutations leave under a property. -/
theorem own_draftBlock {s : LightState X} {ms : List (Mutation EntityKey (Record X))}
    (hms : ∀ m ∈ ms, m.key.Joinable) {key : EntityKey} (hkey : key.Joinable) :
    (draftBlock s ms).own key.entity (bucketKey key) = lastWrite key ms (s.own key.entity (bucketKey key)) := by
  unfold draftBlock lastWrite
  induction ms generalizing s with
  | nil => rfl
  | cons m ms ih =>
    have hm := hms m List.mem_cons_self
    rw [List.foldl_cons, List.foldl_cons, ih fun m' hm' => hms m' (List.mem_cons_of_mem _ hm'), own_draftMutation]
    have hsame : (m.key.entity = key.entity ∧ bucketKey m.key = bucketKey key) ↔ m.key = key := by
      constructor
      · intro h
        exact bucketKey_inj hm hkey h.1 h.2
      · intro h
        rw [h]
        exact ⟨rfl, rfl⟩
    simp only [hsame]

/-- **A property holds what the last mutation of its key left.** -/
theorem own_lightReplay (happlied : ∀ b ∈ applied, ∀ m ∈ b.mutations, m.key.Joinable) {key : EntityKey}
    (hkey : key.Joinable) : (lightReplay applied).own key.entity (bucketKey key) = valueOf key applied := by
  induction applied using List.reverseRecOn with
  | nil => rfl
  | append_singleton applied b ih =>
    rw [lightReplay_concat, valueOf_concat, own_draftBlock (happlied b (by simp)) hkey,
      ih fun a ha => happlied a (List.mem_append_left _ ha)]

/-- Every property spells the key of a mutation. -/
theorem joinable_of_own (happlied : ∀ b ∈ applied, ∀ m ∈ b.mutations, m.key.Joinable) {entity : String} {text : Text}
    {row : Record X} (h : (lightReplay applied).own entity text = some row) :
    ∃ key : EntityKey, key.Joinable ∧ key.entity = entity ∧ bucketKey key = text := by
  have hdraft : ∀ (s : LightState X) (ms : List (Mutation EntityKey (Record X))), (∀ m ∈ ms, m.key.Joinable) →
      (draftBlock s ms).own entity text = some row →
      s.own entity text = some row ∨ ∃ key : EntityKey, key.Joinable ∧ key.entity = entity ∧ bucketKey key = text := by
    intro s ms
    unfold draftBlock
    induction ms generalizing s with
    | nil => exact fun _ hrow => .inl hrow
    | cons m ms ih =>
      intro hms hrow
      rcases ih (draftMutation s m) (fun m' hm' => hms m' (List.mem_cons_of_mem _ hm')) hrow with hrow | hkey
      · rw [own_draftMutation] at hrow
        split at hrow
        · rename_i hat
          exact .inr ⟨m.key, hms m List.mem_cons_self, hat⟩
        · exact .inl hrow
      · exact .inr hkey
  induction applied using List.reverseRecOn with
  | nil => cases h
  | append_singleton applied b ih =>
    rw [lightReplay_concat] at h
    rcases hdraft _ _ (happlied b (by simp)) h with hrow | hkey
    · exact ih (fun a ha => happlied a (List.mem_append_left _ ha)) hrow
    · exact hkey

end Replay

/-! ### Answers without the store's own columns -/

/-- The columns of a row that are not a store's own, whose names begin with an underscore. -/
def declaredColumns (row : Record X) : Record X := row.filter (·.1.toList.head? ≠ some '_')

/-- A listing without the store's own columns. -/
def Listing.declared (listing : Listing X) : Listing X := ⟨listing.rows.map declaredColumns, listing.truncated⟩

theorem map_some_declared (x : Except EntityError (Record X)) :
    (x.map some).map (Option.map declaredColumns) = (x.map declaredColumns).map some := by
  cases x with
  | error e => rfl
  | ok row => rfl

/-- A listing is cut at its limit with or without those columns. -/
theorem map_bounded_declared (x : Except EntityError (List (Record X))) (limit : ℕ) :
    (x.bind fun rows => .ok (boundedListing rows limit)).map Listing.declared =
      (x.map (List.map declaredColumns)).map fun rows => boundedListing rows limit := by
  cases x with
  | error e => rfl
  | ok rows =>
    show Except.ok (boundedListing rows limit).declared = Except.ok (boundedListing (rows.map declaredColumns) limit)
    unfold boundedListing Listing.declared
    rw [List.map_take, List.length_map]

/-- Mapping each answer is mapping the answers. -/
theorem map_mapM {ε α β γ : Type} (f : α → Except ε β) (d : β → γ) (l : List α) :
    (l.mapM f).map (List.map d) = l.mapM fun a => (f a).map d := by
  induction l with
  | nil => rfl
  | cons a l ih =>
    rw [List.mapM_cons, List.mapM_cons, ← ih]
    cases f a with
    | error e => rfl
    | ok b =>
      cases l.mapM f with
      | error e => rfl
      | ok bs => rfl

/-- **A version reads as its row does**, the version columns aside. -/
theorem readVersion_declared {declaration : NormalizedEntity} {ids : List Text} {v : Version (Record X)}
    {values stored : Record X} (henc : encodeFieldValues declaration values = .ok stored)
    (hv : v.values = storedRow declaration ids stored) :
    (decodeFieldValues declaration v.values).map declaredColumns = (readVersion declaration v).map declaredColumns := by
  have hread := MutationContext.readVersion_canonical henc (show v.values = storedRow declaration (EntityKey.mk declaration.name ids).id stored from hv)
  have hplain := @decode_encode _ declaration values stored [] ids henc fun _ hnone => absurd hnone List.not_mem_nil
  rw [List.append_nil, List.append_nil] at hplain
  rw [hread, hv, hplain]
  show Except.ok _ = Except.ok _
  have hversion : declaredColumns (versionColumns v) = [] := by
    unfold declaredColumns versionColumns
    rw [List.filter_eq_nil_iff]
    intro column hcolumn
    rw [decide_eq_true_eq, not_not]
    rcases List.mem_cons.1 hcolumn with rfl | hcolumn
    · show ("_lower" : String).toList.head? = some '_'
      rfl
    · rw [List.mem_singleton.1 hcolumn]
      show ("_upper" : String).toList.head? = some '_'
      rfl
  unfold declaredColumns at hversion ⊢
  rw [List.filter_append, hversion, List.append_nil]

/-! ### Two stores over the same blocks -/

/-- The calls name ids in use only. -/
def StoreCall.Uses (Used : String → EntityId → Prop) : StoreCall X H C → Prop
  | .applyBlock call => ∀ m ∈ call.mutations, Used m.entity m.id
  | _ => True

namespace PatchStateStore

variable {I : Immer X} [DecidableEq H]

/-- One call; a refused one is as if it had not been made. -/
def perform (declarations : List NormalizedEntity) (s : PatchStateStore I H C) : StoreCall X H C → PatchStateStore I H C
  | .applyBlock call => (s.applyBlock declarations call).2
  | .revertTo keepUpTo => (s.revertTo keepUpTo).2
  | .writeCursor key value => s.writeCursor key value

def run (declarations : List NormalizedEntity) (s : PatchStateStore I H C) (calls : List (StoreCall X H C)) :
    PatchStateStore I H C :=
  calls.foldl (perform declarations) s

/-- **The two take the same blocks and reverts, and answer alike** for the ids in use, the
store's own columns aside. -/
structure Alike (declarations : List NormalizedEntity) (Used : String → EntityId → Prop) (s : PatchStateStore I H C)
    (u : EntityStore X H C) : Prop where
  applied : ∀ call : AppliedCall X H C, (∀ m ∈ call.mutations, Used m.entity m.id) →
    (s.applyBlock declarations call).1 = ((EntityStore.applyBlock declarations call).run.run u).1.mapError .apply
  reverted : ∀ k, (s.revertTo k).1 = .ok ()
  current : ∀ entity id, Used entity id → (getCurrent declarations s entity id).map (Option.map declaredColumns) =
    (EntityStore.getCurrent declarations u entity id).map (Option.map declaredColumns)
  listed : ∀ entity idPrefix limit, (listCurrent declarations s entity idPrefix limit).map Listing.declared =
    (EntityStore.listCurrent declarations u entity idPrefix limit).map Listing.declared

/-- Both stores are made of the blocks, and every block can be undone. -/
structure Simulates (declarations : List NormalizedEntity) (u₀ : EntityStore X H C) (s : PatchStateStore I H C)
    (u : EntityStore X H C) (applied : List (AppliedBlock EntityKey (Record X) H)) : Prop where
  tracks : ∃ kept, EntityStore.Tracks declarations u₀ u kept applied
  represents : s.Represents applied
  reversible : ∀ b ∈ applied, s.Reversible b.block.number

variable {declarations : List NormalizedEntity} {Used : String → EntityId → Prop} {s : PatchStateStore I H C}
  {u u₀ : EntityStore X H C} {applied : List (AppliedBlock EntityKey (Record X) H)}

omit [DecidableEq H] in
theorem Simulates.joinable (h : Simulates declarations u₀ s u applied) {b : AppliedBlock EntityKey (Record X) H}
    (hb : b ∈ applied) {m : Mutation EntityKey (Record X)} (hm : m ∈ b.mutations) : m.key.Joinable := by
  obtain ⟨kept, htracks⟩ := h.tracks
  obtain ⟨call, -, hcall⟩ := EntityStore.exists_resolves htracks.resolved hb
  obtain ⟨em, -, hem⟩ := mem_of_mapM_ok hcall.mutations hm
  cases em with
  | upsert entity id values =>
    obtain ⟨declaration, -, key, hid, stored, -, rfl⟩ := plan_upsert.1 hem
    exact entityKey_joinable hid
  | delete entity id =>
    obtain ⟨declaration, -, key, hid, rfl⟩ := plan_delete.1 hem
    exact entityKey_joinable hid

/-- Two stores over the same blocks record the same ones. -/
theorem Simulates.assertRecordable (h : Simulates declarations u₀ s u applied) (block : BlockPointer H) :
    s.assertRecordable block = EntityStore.assertRecordable u block := by
  obtain ⟨kept, htracks⟩ := h.tracks
  have hblocks : s.blocks = u.blocks := by rw [h.represents.blocks, htracks.represents.blocks]
  have htip : s.tip = u.tip := by rw [h.represents.tip, htracks.represents.tip]
  have hsame : s.assertRecordable block =
      ({ s with blocks := u.blocks, tip := u.tip } : PatchStateStore I H C).assertRecordable block := by
    unfold PatchStateStore.assertRecordable
    rw [hblocks, htip]
  exact hsame

/-- A block that sets no prototype is taken by both or refused by both, for the same reason. -/
theorem Simulates.applyBlock (hI : I.Exact) (h : Simulates declarations u₀ s u applied) {call : AppliedCall X H C}
    (hproto : ∀ planned, call.mutations.mapM (plan declarations) = .ok planned →
      planned.any (·.setsPrototype) = false) :
    (s.applyBlock declarations call).1 = ((EntityStore.applyBlock declarations call).run.run u).1.mapError .apply ∧
      ∃ applied', Simulates declarations u₀ (s.applyBlock declarations call).2
        ((EntityStore.applyBlock declarations call).run.run u).2 applied' := by
  have hsame := h.assertRecordable call.block
  rw [EntityStore.applyBlock_run]
  unfold EntityStore.resolveBlock
  rw [← hsame]
  cases hcheck : s.assertRecordable call.block with
  | error e =>
    unfold PatchStateStore.applyBlock
    rw [hcheck]
    exact ⟨rfl, applied, h⟩
  | ok _ =>
    cases hplan : call.mutations.mapM (plan declarations) with
    | error e =>
      unfold PatchStateStore.applyBlock
      rw [hcheck, hplan]
      exact ⟨rfl, applied, h⟩
    | ok planned =>
      have hnone := hproto planned hplan
      obtain ⟨kept, htracks⟩ := h.tracks
      have happly := EntityStore.applyBlock_eq_writeBlock (hsame ▸ hcheck) planned call.cursor
      have htracks' : EntityStore.Tracks declarations u₀ ((EntityStore.writeBlock call.block planned call.cursor).run u).2
          (kept ++ [call]) (applied ++ [⟨call.block, planned⟩]) :=
        ⟨htracks.represents.applyBlock happly, List.rel_append htracks.resolved (.cons ⟨rfl, hplan⟩ .nil),
          (MemoryStateStore.afterBlock happly).provided.trans htracks.provided⟩
      rcases applyBlock_cases declarations s call with ⟨error, hrun⟩ |
        ⟨planned', s', -, hplan', hrun, hblocks, htip, -, hstate, hreversals⟩
      · unfold PatchStateStore.applyBlock at hrun
        rw [hcheck, hplan] at hrun
        dsimp only at hrun
        rw [hnone, if_neg Bool.false_ne_true] at hrun
        injection hrun with hok
        cases hok
      · rw [hplan] at hplan'
        injection hplan' with heq
        subst heq
        rw [hrun]
        refine ⟨rfl, _, ⟨_, htracks'⟩, h.represents.applyBlock hI hcheck hblocks htip hstate hreversals, ?_⟩
        intro b hb
        show ∃ r ∈ s'.reversals, r.1 = b.block.number
        rw [hreversals]
        rcases List.mem_append.1 hb with hb | hb
        · obtain ⟨r, hr, hrn⟩ := h.reversible b hb
          have hlt := ((h.represents.assertRecordable call.block).1 hcheck b hb).1
          refine ⟨r, List.mem_append_left _ (List.mem_filter.2 ⟨hr, ?_⟩), hrn⟩
          rw [decide_eq_true_eq]
          omega
        · rw [List.mem_singleton.1 hb]
          exact ⟨_, List.mem_append_right _ (List.mem_singleton_self _), rfl⟩

omit [DecidableEq H] in
/-- A revert leaves both with the blocks up to its height. -/
theorem Simulates.revertTo (h : Simulates declarations u₀ s u applied) (k : ℤ) :
    (s.revertTo k).1 = .ok () ∧ Simulates declarations u₀ (s.revertTo k).2 (u.revertTo k)
      (applied.filter fun b => (b.block.number : ℤ) ≤ k) := by
  obtain ⟨kept, htracks⟩ := h.tracks
  obtain ⟨hok, hrepresents, -⟩ := h.represents.revertTo (.inr fun b hb _ => h.reversible b hb)
  refine ⟨hok, ⟨_, htracks.revertTo k⟩, hrepresents, fun b hb => ?_⟩
  obtain ⟨hmem, hle⟩ := List.mem_filter.1 hb
  rw [decide_eq_true_eq] at hle
  obtain ⟨r, hr, hrn⟩ := h.reversible b hmem
  -- the patches of a block the revert keeps are kept
  have hkept : ∀ s' : PatchStateStore I H C, (s.revertTo k).2 = s' → r ∈ s'.reversals := by
    intro s' hs'
    rw [← hs']
    unfold PatchStateStore.revertTo
    split
    · omega
    split
    · exact hr
    split
    · exact hr
    · refine List.mem_filter.2 ⟨hr, ?_⟩
      rw [decide_eq_true_eq, hrn]
      unfold above
      rw [List.mem_insertionSort, List.mem_filter, decide_eq_true_eq]
      omega
  exact ⟨r, hkept _ rfl, hrn⟩

/-! ### Reads of the two -/

variable {declaration : NormalizedEntity} {entity : String} {id : EntityId} {key : EntityKey}

omit [DecidableEq H] in
/-- What the property of a key holds is what the live version does. -/
theorem Simulates.own (h : Simulates declarations u₀ s u applied) (hkey : key.Joinable) :
    s.state.own key.entity (bucketKey key) = (current (versionsOf u.rows key)).map (·.values) := by
  obtain ⟨kept, htracks⟩ := h.tracks
  rw [htracks.represents.current, h.represents.state,
    own_lightReplay (fun b hb m hm => h.joinable hb hm) hkey]

omit [DecidableEq H] in
/-- A live version is a row that was written under the declaration a read finds. -/
theorem Simulates.canonical (h : Simulates declarations u₀ s u applied)
    (hget : mustGet declarations key.entity = .ok declaration) {v : Version (Record X)}
    (hv : v ∈ versionsOf u.rows key) : ∃ values stored, encodeFieldValues declaration values = .ok stored ∧
      v.values = storedRow declaration key.id stored := by
  obtain ⟨kept, htracks⟩ := h.tracks
  obtain ⟨declaration', id, values, stored, hcanonical⟩ := htracks.canonical hv
  have hdeclared := hcanonical.declared
  rw [hget] at hdeclared
  injection hdeclared with heq
  subst heq
  exact ⟨values, stored, hcanonical.encoded, hcanonical.values⟩

omit [DecidableEq H] in
/-- **One id reads alike** where its key is no inherited name. -/
theorem Simulates.current (h : Simulates declarations u₀ s u applied) (entity : String) (id : EntityId)
    (hname : ∀ declaration key, mustGet declarations entity = .ok declaration → entityKey declaration id = .ok key →
      bucketKey key ∉ inheritedNames) :
    (getCurrent declarations s entity id).map (Option.map declaredColumns) =
      (EntityStore.getCurrent declarations u entity id).map (Option.map declaredColumns) := by
  unfold getCurrent EntityStore.getCurrent EntityStore.read
  cases hget : mustGet declarations entity with
  | error e => rfl
  | ok declaration =>
    dsimp only [bind, Except.bind]
    cases hkey : entityKey declaration id with
    | error e => rfl
    | ok key =>
      have hentity : key.entity = declaration.name := by
        obtain ⟨ids, -, rfl⟩ := entityKey_ok.1 hkey
        rfl
      have hdeclared : mustGet declarations key.entity = .ok declaration := by
        rw [hentity, mustGet_name hget, hget]
      have hown := h.own (entityKey_joinable hkey)
      rw [hentity] at hown
      dsimp only
      unfold LightState.get
      rw [hown]
      unfold Versions.current
      cases hfind : (versionsOf u.rows key).find? (·.upper.isNone) with
      | none =>
        rw [Option.map_none]
        dsimp only
        rw [if_neg (hname declaration key hget hkey)]
      | some v =>
        rw [Option.map_some]
        dsimp only
        obtain ⟨values, stored, henc, hv⟩ := h.canonical hdeclared (List.mem_of_find?_eq_some hfind)
        have hsame := readVersion_declared henc hv
        rw [map_some_declared, map_some_declared, hsame]

omit [DecidableEq H] in
/-- What a prefix scan finds. -/
theorem Simulates.mem_found (h : Simulates declarations u₀ s u applied) {name : String} {values ids : List Text}
    {row : Record X} : (ids, row) ∈ found s.state.rows name values ↔
      ∃ v, (ids, v) ∈ EntityStore.found u.rows name values (·.upper.isNone) ∧ v.values = row := by
  obtain ⟨kept, htracks⟩ := h.tracks
  have hnodup := htracks.represents.wellFormed.nodup
  unfold found
  rw [List.mem_filterMap]
  constructor
  · intro hmem
    obtain ⟨r, hr, hfound⟩ := hmem
    split at hfound
    · rename_i hcond
      rw [Bool.and_eq_true, decide_eq_true_eq] at hcond
      injection hfound with heq
      obtain ⟨hids, hrow⟩ := Prod.mk.inj heq
      have hown : s.state.own r.entity r.key = some r.row := LightState.own_eq_some.2 hr
      have hreplay := hown
      rw [h.represents.state] at hreplay
      obtain ⟨key, hjoin, hentity, hkey⟩ := joinable_of_own (fun b hb m hm => h.joinable hb hm) hreplay
      have hid : key.id = ids := by rw [← hids, ← hkey, splitOn_bucketKey hjoin]
      have hkeyeq : key = ⟨name, ids⟩ := by
        rw [← hid, ← hcond.1, ← hentity]
      have hlive := h.own hjoin
      rw [hentity, hkey, hown, eq_comm, Option.map_eq_some_iff] at hlive
      obtain ⟨v, hv, hvalues⟩ := hlive
      refine ⟨v, (EntityStore.mem_found hnodup).2 ⟨?_, ?_⟩, hvalues.trans hrow⟩
      · rw [← hids]
        exact hcond.2
      · rw [← hkeyeq]
        exact hv
    · cases hfound
  · intro hmem
    obtain ⟨v, hv, rfl⟩ := hmem
    obtain ⟨hpre, hfind⟩ := (EntityStore.mem_found hnodup).1 hv
    obtain ⟨declaration, id, fields, stored, hcanonical⟩ := htracks.canonical (List.mem_of_find?_eq_some hfind)
    have hjoin := entityKey_joinable hcanonical.keyed
    have hown := h.own hjoin
    unfold Versions.current at hown
    rw [hfind, Option.map_some] at hown
    refine ⟨_, LightState.own_eq_some.1 hown, ?_⟩
    dsimp only
    rw [splitOn_bucketKey hjoin, hpre, decide_eq_true rfl]
    rfl

omit [DecidableEq H] in
/-- **A listing finds the rows of the live versions**, in the same order. -/
theorem Simulates.sorted_found (h : Simulates declarations u₀ s u applied) (name : String) (values : List Text) :
    (found s.state.rows name values).insertionSort (fun a b => compareIds a.1 b.1 ≤ 0) =
      ((EntityStore.found u.rows name values (·.upper.isNone)).insertionSort fun a b => compareIds a.1 b.1 ≤ 0).map
        fun a => (a.1, a.2.values) := by
  obtain ⟨kept, htracks⟩ := h.tracks
  have hnodup := htracks.represents.wellFormed.nodup
  have hdistinct : (found s.state.rows name values).Pairwise fun a b => idOrder a.1 ≠ idOrder b.1 := by
    unfold found
    refine List.Pairwise.filterMap _ ?_ s.state.distinct
    intro r r' hapart a ha b hb heq
    split at ha
    · rename_i hcond
      split at hb
      · rename_i hcond'
        rw [Bool.and_eq_true, decide_eq_true_eq] at hcond hcond'
        injection ha with ha
        injection hb with hb
        rw [← ha, ← hb] at heq
        have hsplit : r.key.splitOn 0 = r'.key.splitOn 0 := idOrder_inj heq
        refine hapart ⟨hcond.1.trans hcond'.1.symm, ?_⟩
        calc r.key = [0].intercalate (r.key.splitOn 0) := (List.intercalate_splitOn 0).symm
          _ = [0].intercalate (r'.key.splitOn 0) := by rw [hsplit]
          _ = r'.key := List.intercalate_splitOn 0
      · cases hb
    · cases ha
  have hleft : Paging.Sorted (fun a : List Text × Record X => idOrder a.1)
      ((found s.state.rows name values).insertionSort fun a b => compareIds a.1 b.1 ≤ 0) := by
    have hsorted := Paging.sorted_insertionSort hdistinct
    convert hsorted using 2
    funext a b
    exact propext (agrees_compareIds.le a.1 b.1)
  have hright := @EntityStore.sorted_found _ _ name values (·.upper.isNone) hnodup
  refine Paging.Sorted.ext hleft ?_ fun a => ?_
  · unfold Paging.Sorted at hright ⊢
    rw [List.pairwise_map]
    exact hright
  · obtain ⟨ids, row⟩ := a
    rw [(List.perm_insertionSort _ _).mem_iff, h.mem_found, List.mem_map]
    constructor
    · intro hmem
      obtain ⟨v, hv, rfl⟩ := hmem
      exact ⟨(ids, v), (List.perm_insertionSort _ _).mem_iff.2 hv, rfl⟩
    · intro hmem
      obtain ⟨a, ha, heq⟩ := hmem
      obtain ⟨hids, hrow⟩ := Prod.mk.inj heq
      subst hids
      exact ⟨a.2, (List.perm_insertionSort _ _).mem_iff.1 ha, hrow⟩

omit [DecidableEq H] in
/-- **Every prefix lists alike.** -/
theorem Simulates.listed (h : Simulates declarations u₀ s u applied) (entity : String) (idPrefix : EntityId)
    (limit : ℤ) : (listCurrent declarations s entity idPrefix limit).map Listing.declared =
      (EntityStore.listCurrent declarations u entity idPrefix limit).map Listing.declared := by
  obtain ⟨kept, htracks⟩ := h.tracks
  unfold listCurrent EntityStore.listCurrent EntityStore.scan
  cases hget : mustGet declarations entity with
  | error e => rfl
  | ok declaration =>
    dsimp only [bind, Except.bind]
    cases hvalues : prefixValues declaration idPrefix with
    | error e => rfl
    | ok values =>
      dsimp only
      cases hlimit : assertListingLimit declaration limit with
      | error e => rfl
      | ok _ =>
        dsimp only
        rw [h.sorted_found, ← List.map_take, List.mapM_map]
        set sorted := (EntityStore.found u.rows declaration.name values (·.upper.isNone)).insertionSort
          fun a b => compareIds a.1 b.1 ≤ 0 with hsorted
        have hrows : ((sorted.take (limit.toNat + 1)).mapM
              ((fun row => decodeFieldValues declaration row.2) ∘ fun a => (a.1, a.2.values))).map (List.map declaredColumns) =
            ((sorted.take (limit.toNat + 1)).mapM fun row => readVersion declaration row.2).map
              (List.map declaredColumns) := by
          rw [map_mapM, map_mapM]
          refine mapM_congr fun a ha => ?_
          have hmem := List.mem_of_mem_take ha
          rw [hsorted, (List.perm_insertionSort _ _).mem_iff,
            EntityStore.mem_found htracks.represents.wellFormed.nodup] at hmem
          have hdeclared : mustGet declarations (EntityKey.mk declaration.name a.1).entity = .ok declaration := by
            rw [show (EntityKey.mk declaration.name a.1).entity = entity from mustGet_name hget, hget]
          obtain ⟨fields, stored, henc, hv⟩ := h.canonical hdeclared (List.mem_of_find?_eq_some hmem.2)
          exact readVersion_declared henc hv
        exact (map_bounded_declared _ _).trans ((congrArg _ hrows).trans (map_bounded_declared _ _).symm)

/-! ### Sequences of calls -/

/-- No id in use spells, under a declaration, a name every object inherits. -/
def Plain (declarations : List NormalizedEntity) (Used : String → EntityId → Prop) : Prop :=
  ∀ entity id declaration key, Used entity id → mustGet declarations entity = .ok declaration →
    entityKey declaration id = .ok key → bucketKey key ∉ inheritedNames

omit [DecidableEq H] in
/-- Plain ids set no prototype. -/
theorem Plain.setsPrototype (h : Plain declarations Used) {ms : List (EntityMutation X)}
    (hms : ∀ m ∈ ms, Used m.entity m.id) {planned : List (Mutation EntityKey (Record X))}
    (hplan : ms.mapM (plan declarations) = .ok planned) : planned.any (·.setsPrototype) = false := by
  rw [List.any_eq_false]
  intro m hm hsets
  obtain ⟨em, hem, hplanned⟩ := mem_of_mapM_ok hplan hm
  have hkeyed := MutationContext.plan_key hplanned
  obtain ⟨declaration, hget, hkey⟩ := bind_eq_ok.1 hkeyed
  have hplain := h em.entity em.id declaration m.key (hms em hem) hget hkey
  cases m with
  | delete key => cases hsets
  | upsert key row =>
    have hproto : bucketKey key = ascii "__proto__" := of_decide_eq_true hsets
    apply hplain
    show bucketKey key ∈ inheritedNames
    rw [hproto]
    decide

omit [DecidableEq H] in
theorem simulates_new {setting : Option RetentionSetting} {finalityDepth : Option ℕ}
    (hnew : MemoryStateStore.new setting finalityDepth = .ok u₀) (depth : Option ℕ) :
    Simulates declarations u₀ (new I depth : PatchStateStore I H C) u₀ [] :=
  ⟨⟨[], MemoryStateStore.represents_new hnew, .nil, rfl⟩, represents_new I depth, fun _ hb => absurd hb List.not_mem_nil⟩

theorem run_concat (declarations : List NormalizedEntity) (s : PatchStateStore I H C) (calls : List (StoreCall X H C))
    (call : StoreCall X H C) : run declarations s (calls ++ [call]) = perform declarations (run declarations s calls) call := by
  unfold run
  rw [List.foldl_append]
  rfl

/-- **Calls with plain ids keep the stores over the same blocks.** -/
theorem simulates_run (hI : I.Exact) (hplain : Plain declarations Used) {setting : Option RetentionSetting}
    {finalityDepth : Option ℕ} (hnew : MemoryStateStore.new setting finalityDepth = .ok u₀) (depth : Option ℕ)
    (calls : List (StoreCall X H C)) (hcalls : ∀ call ∈ calls, call.Uses Used) :
    ∃ applied, Simulates declarations u₀ (run declarations (new I depth) calls) (EntityStore.run declarations u₀ calls).1
      applied := by
  induction calls using List.reverseRecOn with
  | nil => exact ⟨[], simulates_new hnew depth⟩
  | append_singleton calls call ih =>
    obtain ⟨applied, hsim⟩ := ih fun c hc => hcalls c (List.mem_append_left _ hc)
    have hused := hcalls call (List.mem_append_right _ (List.mem_singleton_self _))
    rw [run_concat, EntityStore.run_concat]
    cases call with
    | applyBlock call => exact (hsim.applyBlock hI fun _ => hplain.setsPrototype hused).2
    | revertTo k => exact ⟨_, (hsim.revertTo k).2⟩
    | writeCursor key value =>
      obtain ⟨kept, htracks⟩ := hsim.tracks
      have hrep := hsim.represents
      exact ⟨applied, ⟨kept, htracks.represents.writeCursor key value, htracks.resolved, htracks.provided⟩,
        ⟨hrep.blocks, hrep.ascending, hrep.distinct, hrep.tip, hrep.state, hrep.undo⟩, hsim.reversible⟩

theorem Simulates.alike (hI : I.Exact) (hplain : Plain declarations Used) (h : Simulates declarations u₀ s u applied) :
    Alike declarations Used s u where
  applied _ hused := (h.applyBlock hI fun _ => hplain.setsPrototype hused).1
  reverted k := (h.revertTo k).1
  current entity id hused := h.current entity id fun declaration key => hplain entity id declaration key hused
  listed := h.listed

omit [DecidableEq H] in
/-- **A refused revert leaves everything as it was.** -/
theorem revertTo_error {k : ℤ} {error : RevertBeyondPatchHistoryError} (h : (s.revertTo k).1 = .error error) :
    (s.revertTo k).2 = s := by
  unfold revertTo at h ⊢
  split at h
  · cases h
  split at h
  · cases h
  split at h
  · rename_i hwipe habove hmissing
    rw [if_neg hwipe, if_neg habove, if_pos hmissing]
  · cases h

/-- **When the patch store refines the reference store.** For every declarations and every
sequence of blocks and reverts without a prune: both take the same calls and answer alike for
every id in use and every listing, and a refused revert leaves the patch store as it was,
exactly when no id in use spells a name every object inherits. -/
theorem refines_memory_iff (declarations : List NormalizedEntity) (Used : String → EntityId → Prop) (hI : I.Exact)
    {setting : Option RetentionSetting} {finalityDepth : Option ℕ}
    (hnew : MemoryStateStore.new setting finalityDepth = .ok u₀) (depth : Option ℕ) :
    ((∀ calls : List (StoreCall X H C), (∀ call ∈ calls, call.Uses Used) →
        Alike declarations Used (run declarations (new I depth) calls) (EntityStore.run declarations u₀ calls).1) ∧
      ∀ (s : PatchStateStore I H C) k error, (s.revertTo k).1 = .error error → (s.revertTo k).2 = s) ↔
      Plain declarations Used := by
  constructor
  · intro h entity id declaration key hused hget hkey hname
    -- the empty stores already differ on such an id
    have hsame := (h.1 [] fun _ hc => absurd hc List.not_mem_nil).current entity id hused
    have hsim : Simulates declarations u₀ (new I depth : PatchStateStore I H C) u₀ [] := simulates_new hnew depth
    have hmemory : EntityStore.getCurrent declarations u₀ entity id = .ok none := by
      unfold EntityStore.getCurrent
      rw [EntityStore.read_eq hget hkey, (MemoryStateStore.represents_new hnew).versions]
      rfl
    have hpatch : getCurrent declarations (new I depth : PatchStateStore I H C) entity id = .ok (some []) := by
      have hin : (new I depth : PatchStateStore I H C).state.get declaration.name (bucketKey key) = some [] := if_pos hname
      rw [getCurrent_eq hget hkey, hin]
      rfl
    have hempty : run declarations (new I depth : PatchStateStore I H C) [] = new I depth := rfl
    have hempty' : (EntityStore.run declarations u₀ []).1 = u₀ := rfl
    rw [hempty, hempty', hmemory, hpatch] at hsame
    cases hsame
  · intro hplain
    refine ⟨fun calls hcalls => ?_, fun s k error => revertTo_error⟩
    obtain ⟨applied, hsim⟩ := simulates_run hI hplain hnew depth calls hcalls
    exact hsim.alike hI hplain

end PatchStateStore

/-- A library whose patch is the state it was made from. -/
def keepPrevious (X : Type) : Immer X where
  Patch := LightState X
  produceWithPatches s recipe := (recipe s, [s])
  applyPatches s patches := patches.foldl (fun _ previous => previous) s

theorem keepPrevious_exact (X : Type) : (keepPrevious X).Exact where
  produced _ _ := .refl _
  inverse _ _ _ _ := .refl _

/-- The coin named `A` is the only one in use. -/
def coinUsed (entity : String) (id : EntityId) : Prop := entity = "coin" ∧ id = [("id", [65])]

theorem refines_memory_coinCalls : PatchStateStore.Alike [coin] coinUsed
    (PatchStateStore.run [coin] (PatchStateStore.new (keepPrevious Unit) none) coinCalls)
    (EntityStore.run [coin] emptyStore coinCalls).1 := by
  have hnew : MemoryStateStore.new none none = .ok emptyStore := rfl
  have hplain : PatchStateStore.Plain [coin] coinUsed := by
    intro entity id declaration key hused hget hkey
    obtain ⟨rfl, rfl⟩ := hused
    injection hget with hget
    subst hget
    injection hkey with hkey
    subst hkey
    decide
  have hall := (PatchStateStore.refines_memory_iff [coin] coinUsed (keepPrevious_exact Unit) hnew none).2 hplain
  refine hall.1 coinCalls ?_
  intro call hcall
  simp only [coinCalls, List.mem_cons, List.not_mem_nil, or_false] at hcall
  rcases hcall with rfl | rfl | rfl | rfl | rfl <;> simp [StoreCall.Uses, coinUsed, EntityMutation.entity, EntityMutation.id]

/-- Nothing was ever written, and the coin named `toString` reads as an empty row; a coin named
`__proto__` is refused. -/
theorem toString_reads :
    PatchStateStore.getCurrent [coin] (PatchStateStore.new (keepPrevious Unit) none : PatchStateStore _ ℕ Unit) "coin"
      [("id", ascii "toString")] = .ok (some []) ∧
    EntityStore.getCurrent [coin] emptyStore "coin" [("id", ascii "toString")] = .ok none ∧
    (PatchStateStore.applyBlock [coin] (PatchStateStore.new (keepPrevious Unit) none : PatchStateStore _ ℕ Unit)
      ⟨⟨1, 1⟩, [.upsert "coin" [("id", ascii "__proto__")] []], none⟩).1 = .error .draftPrototype ∧
    ((EntityStore.applyBlock [coin] ⟨⟨1, 1⟩, [.upsert "coin" [("id", ascii "__proto__")] []], none⟩).run.run
      emptyStore).1 = .ok () ∧
    ¬∀ calls : List (StoreCall Unit ℕ Unit), PatchStateStore.Alike [coin] (fun _ _ => True)
      (PatchStateStore.run [coin] (PatchStateStore.new (keepPrevious Unit) none) calls)
      (EntityStore.run [coin] emptyStore calls).1 := by
  have hpatch : PatchStateStore.getCurrent [coin] (PatchStateStore.new (keepPrevious Unit) none : PatchStateStore _ ℕ Unit)
      "coin" [("id", ascii "toString")] = .ok (some []) := by rfl
  have hmemory : EntityStore.getCurrent [coin] emptyStore "coin" [("id", ascii "toString")] = .ok none := by rfl
  refine ⟨hpatch, hmemory, by rfl, by rfl, fun h => ?_⟩
  have hsame := (h []).current "coin" [("id", ascii "toString")] trivial
  have hempty : PatchStateStore.run [coin] (PatchStateStore.new (keepPrevious Unit) none : PatchStateStore _ ℕ Unit) [] =
    PatchStateStore.new (keepPrevious Unit) none := rfl
  have hempty' : (EntityStore.run [coin] emptyStore []).1 = emptyStore := rfl
  rw [hempty, hempty', hpatch, hmemory] at hsame
  cases hsame

end Etherfold
