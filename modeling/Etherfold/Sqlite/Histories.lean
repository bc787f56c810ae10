import Etherfold.Sqlite.Refines

/-!
# Sequences of blocks, reverts and prunes of the versioned store

A sequence of blocks is sent in several transactions, of which the first decides by the lowest
block alone. A revert and a prune follow the reference store, as far as versions that stood
above some height go.

* `SentWhole`: nothing in a sequence is refused once its first block is taken.
* `Refines.applyBlocks`: **a sequence is taken whole by both stores, or by neither**.
* `Refines.revertTo`, `Refines.prune`: the calls that take back and delete.
-/

namespace Etherfold

open Versions Transaction

variable {X H C : Type} [DecidableEq H] {declarations : List NormalizedEntity}

/-- **Once the lowest block of a sequence is taken, no later one is refused**: their hashes are
new, to the store and to each other. -/
def SentWhole (declarations : List NormalizedEntity) (s : EntityStore X H C) (updates : List (BlockUpdate X H)) :
    Prop :=
  descent updates = none → (∀ u ∈ updates, ∃ planned, u.mutations.mapM (plan declarations) = .ok planned) →
    (∀ lowest ∈ updates.head?, EntityStore.Takes declarations s (lowest.call C)) →
      (updates.Pairwise fun a b => a.block.hash ≠ b.block.hash) ∧
        ∀ u ∈ updates.tail, ∀ b ∈ s.blocks, b.hash ≠ u.block.hash

omit [DecidableEq H] in
/-- The statements of a block of a sequence, whose mutations resolve. -/
theorem callStatements_ok {u : BlockUpdate X H} {planned : List (Mutation EntityKey (Record X))}
    (hplan : u.mutations.mapM (plan declarations) = .ok planned) (token : String) :
    applyBlockStatements declarations (u.call C) token = .ok (blockStatements u.block planned none token) := by
  have hcall : (u.call C).mutations.mapM (plan declarations) = .ok planned := hplan
  rw [applyBlockStatements_eq, hcall]
  rfl

omit [DecidableEq H] in
/-- A block of a sequence that has statements has mutations that resolve. -/
theorem exists_plan_of_callStatements {u : BlockUpdate X H} {token : String} {group : List (Statement X H C)}
    (h : applyBlockStatements declarations (u.call C) token = .ok group) :
    ∃ planned, u.mutations.mapM (plan declarations) = .ok planned := by
  rw [applyBlockStatements_eq] at h
  cases hplan : u.mutations.mapM (plan declarations) with
  | ok planned => exact ⟨planned, rfl⟩
  | error e =>
    have hcall : (u.call C).mutations.mapM (plan declarations) = .error e := hplan
    rw [hcall] at h
    cases h

omit [DecidableEq H] in
/-- The blocks of a sequence that has statements have mutations that resolve. -/
theorem resolve_of_groups {token : String} {updates : List (BlockUpdate X H)} {groups : List (List (Statement X H C))}
    (h : (updates.mapM fun u => applyBlockStatements declarations (u.call C) token) = .ok groups) :
    ∀ u ∈ updates, ∃ planned, u.mutations.mapM (plan declarations) = .ok planned := by
  have hpairs := mapM_eq_ok.1 h
  clear h
  induction hpairs with
  | nil => exact fun u hu => absurd hu (List.not_mem_nil)
  | cons hgroup hrest ih => exact List.forall_mem_cons.2 ⟨exists_plan_of_callStatements hgroup, ih⟩

namespace VersionedStateStore

variable {t t' : VersionedStateStore X H C} {s s' : EntityStore X H C} {c : ℤ}

/-- The blocks of a sequence, one at a time, up to one that is refused. -/
def applyEach (declarations : List NormalizedEntity) (t : VersionedStateStore X H C) :
    List (BlockUpdate X H) → Except (SqlError H) Unit × VersionedStateStore X H C
  | [] => (.ok (), t)
  | u :: rest =>
    match t.applyBlock declarations (u.call C) with
    | (.error e, t) => (.error e, t)
    | (.ok _, t) => applyEach declarations t rest

/-- **Blocks that ascend above the store, with new hashes**, are taken one at a time, and their
statements in one go do the same. -/
theorem Refines.applyEach_ok (h : t.Refines declarations s c) (hclaimed : t.claimed = true)
    {updates : List (BlockUpdate X H)}
    (hresolve : ∀ u ∈ updates, ∃ planned, u.mutations.mapM (plan declarations) = .ok planned)
    (habove : ∀ u ∈ updates, ∀ b ∈ s.blocks, b.number < u.block.number ∧ b.hash ≠ u.block.hash)
    (hascend : updates.Pairwise fun a b => a.block.number < b.block.number)
    (hdistinct : updates.Pairwise fun a b => a.block.hash ≠ b.block.hash) :
    ∃ groups rs db s',
      (updates.mapM fun u => applyBlockStatements declarations (u.call C) t.token) = .ok groups ∧
      (∀ st ∈ groups.flatten, ∃ g, st.guard = some g) ∧
      batch Statement.execute groups.flatten t.db = .ok (rs, db) ∧
      applyEach declarations t updates = (.ok (), { t with db := db }) ∧
      EntityStore.rebuild declarations s (updates.map (·.call C)) = .ok s' ∧
      VersionedStateStore.Refines declarations { t with db := db } s' c := by
  induction updates generalizing t s with
  | nil => exact ⟨[], [], t.db, s, rfl, fun st hst => (by cases hst), rfl, rfl, rfl, h⟩
  | cons u rest ih =>
    obtain ⟨hu, hrest⟩ := List.forall_mem_cons.1 hresolve
    obtain ⟨hua, hresta⟩ := List.forall_mem_cons.1 habove
    obtain ⟨hulow, hascend⟩ := List.pairwise_cons.1 hascend
    obtain ⟨hune, hdistinct⟩ := List.pairwise_cons.1 hdistinct
    have htakes : EntityStore.Takes declarations s (u.call C) := ⟨hu, hua⟩
    obtain ⟨planned, s₁, hplan, happly, hrun⟩ := EntityStore.applyBlock_of_takes h.mirrors.wellFormed htakes
    obtain ⟨results, rs₁, db₁, hsent, htip, hbatch₁, hrefines₁⟩ := h.send_taken hplan happly
    have htaken := applyBlock_of_sent hplan hsent htip
    rw [held_of_claimed h.holds hclaimed] at hbatch₁
    have hblocks := (MemoryStateStore.applyBlock_ok h.mirrors.wellFormed happly).2.1
    have habove₁ : ∀ v ∈ rest, ∀ b ∈ s₁.blocks, b.number < v.block.number ∧ b.hash ≠ v.block.hash := by
      intro v hv b hb
      rw [hblocks] at hb
      rcases List.mem_append.1 hb with hb | hb
      · exact hresta v hv b hb
      · rw [List.mem_singleton.1 hb]
        exact ⟨hulow v hv, hune v hv⟩
    obtain ⟨groups, rs₂, db₂, s₂, hgroups, hguards, hbatch₂, heach, hrebuild, hrefines₂⟩ :=
      ih hrefines₁ rfl hrest habove₁ hascend hdistinct
    refine ⟨blockStatements u.block planned none t.token :: groups, rs₁ ++ rs₂, db₂, s₂, ?_, ?_, ?_, ?_, ?_, ?_⟩
    · rw [List.mapM_cons, callStatements_ok hplan, hgroups]
      rfl
    · intro st hst
      rw [List.flatten_cons] at hst
      rcases List.mem_append.1 hst with hst | hst
      · exact ⟨_, guard_blockStatements u.block planned none t.token st hst⟩
      · exact hguards st hst
    · rw [List.flatten_cons]
      exact batch_append hbatch₁ hbatch₂
    · unfold applyEach
      rw [htaken]
      dsimp only
      rw [heach, hclaimed]
    · rw [List.map_cons, EntityStore.rebuild_cons hrun]
      exact hrebuild
    · rw [hclaimed]
      exact hrefines₂

/-- What a sequence does, with the mutations resolved. -/
theorem applyBlocks_eq (t : VersionedStateStore X H C) {lowest : BlockUpdate X H} {rest : List (BlockUpdate X H)}
    (hdescent : descent (lowest :: rest) = none) {planned : List (Mutation EntityKey (Record X))}
    (hplan : lowest.mutations.mapM (plan declarations) = .ok planned) {groups : List (List (Statement X H C))}
    (hgroups : (rest.mapM fun u => applyBlockStatements declarations (u.call C) t.token) = .ok groups) :
    t.applyBlocks declarations (lowest :: rest) =
      match t.sendGuarded (.latestBlock :: blockStatements lowest.block planned none t.token) with
      | (.error e, t) => (.error e, t)
      | (.ok results, t') =>
        match (tipOf results).filter (lowest.block.number ≤ ·) with
        | some tip => (.error (.refused (.blockNotAboveTip lowest.block.number tip)), t')
        | none => t'.sendAll (planBatches t.estimateSize t.guardedBounds groups) := by
  have hall : ((lowest :: rest).mapM fun u => applyBlockStatements declarations (u.call C) t.token) =
      .ok (blockStatements lowest.block planned none t.token :: groups) := by
    rw [List.mapM_cons, callStatements_ok hplan, hgroups]
    rfl
  unfold applyBlocks
  rw [hdescent]
  dsimp only
  rw [hall]
  rfl

omit [DecidableEq H] in
/-- The statements of a sequence whose mutations resolve. -/
theorem exists_groups (token : String) {updates : List (BlockUpdate X H)}
    (hresolve : ∀ u ∈ updates, ∃ planned, u.mutations.mapM (plan declarations) = .ok planned) :
    ∃ groups : List (List (Statement X H C)),
      (updates.mapM fun u => applyBlockStatements declarations (u.call C) token) = .ok groups := by
  induction updates with
  | nil => exact ⟨[], rfl⟩
  | cons u rest ih =>
    obtain ⟨hu, hrest⟩ := List.forall_mem_cons.1 hresolve
    obtain ⟨planned, hplan⟩ := hu
    obtain ⟨groups, hgroups⟩ := ih hrest
    refine ⟨blockStatements u.block planned none token :: groups, ?_⟩
    rw [List.mapM_cons, callStatements_ok hplan, hgroups]
    rfl

/-- A sequence is refused before anything is sent where a mutation does not resolve. -/
theorem applyBlocks_unresolved (t : VersionedStateStore X H C) {updates : List (BlockUpdate X H)}
    (h : ¬∀ u ∈ updates, ∃ planned, u.mutations.mapM (plan declarations) = .ok planned) :
    ∃ error, t.applyBlocks declarations updates = (.error error, t) ∧ Clear error := by
  cases updates with
  | nil => exact absurd (fun u hu => by cases hu) h
  | cons lowest rest =>
    unfold applyBlocks
    cases hdescent : descent (lowest :: rest) with
    | some p => exact ⟨_, rfl, fun entity heq => by cases heq⟩
    | none =>
      dsimp only
      cases hgroups : (lowest :: rest).mapM fun u => applyBlockStatements declarations (u.call C) t.token with
      | error e => exact ⟨_, rfl, fun entity heq => by cases heq⟩
      | ok groups =>
        exact absurd (resolve_of_groups hgroups) h

/-- **A sequence is taken whole by both stores**, as one block after another is, or by neither. -/
theorem Refines.applyBlocks (h : t.Refines declarations s c) {updates : List (BlockUpdate X H)}
    (hwhole : SentWhole declarations s updates) :
    (∃ t' s', t.applyBlocks declarations updates = (.ok (), t') ∧ t.applyEach declarations updates = (.ok (), t') ∧
      EntityStore.rebuild declarations s (updates.map (·.call C)) = .ok s' ∧ t'.Refines declarations s' c) ∨
    ∃ error e t', t.applyBlocks declarations updates = (.error error, t') ∧
      EntityStore.rebuild declarations s (updates.map (·.call C)) = .error e ∧ Clear error ∧ t.Untouched t' ∧
      t'.Refines declarations s c := by
  cases updates with
  | nil => exact .inl ⟨t, s, rfl, rfl, rfl, h⟩
  | cons lowest rest =>
    by_cases hcan : (∀ u ∈ lowest :: rest, ∃ planned, u.mutations.mapM (plan declarations) = .ok planned) ∧
        descent (lowest :: rest) = none ∧ EntityStore.Takes declarations s (lowest.call C)
    · obtain ⟨hresolve, hdescent, htakes⟩ := hcan
      refine .inl ?_
      obtain ⟨hdistinct, hnew⟩ := hwhole hdescent hresolve fun u hu => by
        rw [List.head?_cons, Option.mem_some_iff] at hu
        rw [← hu]
        exact htakes
      obtain ⟨hlow, hascend⟩ := List.pairwise_cons.1 (ascends_of_descent hdescent)
      obtain ⟨hne, hdistinct⟩ := List.pairwise_cons.1 hdistinct
      obtain ⟨planned, s₁, hplan, happly, hrun⟩ := EntityStore.applyBlock_of_takes h.mirrors.wellFormed htakes
      obtain ⟨results, -, db₁, hsent, htip, -, hrefines⟩ := h.send_taken hplan happly
      have htaken := applyBlock_of_sent hplan hsent htip
      have hblocks := (MemoryStateStore.applyBlock_ok h.mirrors.wellFormed happly).2.1
      obtain ⟨groups, rs, db, s₂, hgroups, hguards, hbatch, heach, hrebuild, hrefines₂⟩ :=
        hrefines.applyEach_ok rfl (fun u hu => hresolve u (List.mem_cons_of_mem _ hu))
          (fun u hu b hb => by
            rw [hblocks] at hb
            rcases List.mem_append.1 hb with hb | hb
            · exact ⟨(htakes.2 b hb).1.trans (hlow u hu), hnew u hu b hb⟩
            · rw [List.mem_singleton.1 hb]
              exact ⟨hlow u hu, hne u hu⟩) hascend hdistinct
      rw [← flatten_planBatches t.estimateSize t.guardedBounds groups] at hbatch hguards
      have hsentAll := sendAll_ok (t := { t with db := db₁, claimed := true }) rfl (hrefines.holds rfl) hguards hbatch
      refine ⟨{ t with db := db, claimed := true }, s₂, ?_, ?_, ?_, hrefines₂⟩
      · rw [applyBlocks_eq t hdescent hplan hgroups]
        have hsent' : t.sendGuarded (.latestBlock :: blockStatements lowest.block planned none t.token) =
            (.ok results, { t with db := db₁, claimed := true }) := hsent
        have htip' : (tipOf results).filter (lowest.block.number ≤ ·) = none := htip
        rw [hsent']
        dsimp only
        rw [htip']
        exact hsentAll
      · unfold applyEach
        rw [htaken]
        exact heach
      · rw [List.map_cons, EntityStore.rebuild_cons hrun]
        exact hrebuild
    · refine .inr ?_
      have hrefuse : ∃ e, EntityStore.rebuild declarations s ((lowest :: rest).map (·.call C)) = .error e := by
        cases hrebuild : EntityStore.rebuild declarations s ((lowest :: rest).map (·.call C)) with
        | error e => exact ⟨e, rfl⟩
        | ok s' =>
          obtain ⟨hresolve, hdescent, hhead⟩ := EntityStore.of_rebuild_ok h.mirrors.wellFormed hrebuild
          exact absurd ⟨hresolve, hdescent, hhead lowest rfl⟩ hcan
      obtain ⟨e, hrefuse⟩ := hrefuse
      by_cases hresolve : ∀ u ∈ lowest :: rest, ∃ planned, u.mutations.mapM (plan declarations) = .ok planned
      swap
      · obtain ⟨error, hsent, hclear⟩ := applyBlocks_unresolved t hresolve
        exact ⟨error, e, t, hsent, hrefuse, hclear, .refl t, h⟩
      cases hdescent : descent (lowest :: rest) with
      | some p =>
        refine ⟨.mustAscend p.1 p.2, e, t, ?_, hrefuse, fun entity heq => (by cases heq), .refl t, h⟩
        unfold VersionedStateStore.applyBlocks
        rw [hdescent]
      | none =>
        obtain ⟨⟨planned, hplan⟩, hrest⟩ := List.forall_mem_cons.1 hresolve
        obtain ⟨groups, hgroups⟩ := exists_groups (C := C) t.token hrest
        have hnot : ¬∀ b ∈ s.blocks, b.number < lowest.block.number ∧ b.hash ≠ lowest.block.hash := fun hall =>
          hcan ⟨hresolve, hdescent, ⟨planned, hplan⟩, hall⟩
        rw [applyBlocks_eq t hdescent hplan hgroups]
        rcases h.send_refused hnot planned none with
          ⟨error, hsent, hclear⟩ | ⟨results, t', hsent, hsame, hholds, tip, htip⟩
        · refine ⟨error, e, t, ?_, hrefuse, hclear, .refl t, h⟩
          rw [hsent]
        · refine ⟨.refused (.blockNotAboveTip lowest.block.number tip), e, t', ?_, hrefuse,
            fun entity heq => (by cases heq), hsame, h.untouched hsame hholds⟩
          rw [hsent]
          dsimp only
          rw [htip]

/-! ### Reverts and cursors -/

/-- **A revert** cuts every key in both stores. -/
theorem Refines.revertTo (h : t.Refines declarations s c) {keepUpTo : ℤ} (hk : c ≤ keepUpTo ∨ keepUpTo < 0) :
    ∃ t', t.revertTo declarations keepUpTo = (.ok (), t') ∧ t'.Refines declarations (s.revertTo keepUpTo) c := by
  have hholds : t.guard.holds t.held = true := by
    unfold StatementGuard.holds VersionedStateStore.guard VersionedStateStore.held
    simp
  obtain ⟨rs, db, hbatch, hbooks, hsound, hversions⟩ :=
    batch_revertEntities h.held.sound declarations keepUpTo hholds
  set db' : Database X H C := { db with
    blocks := db.blocks.filter fun b => (b.number : ℤ) ≤ keepUpTo
    revertSequence := some (db.revertSequence.getD 0 + 1) } with hdb'
  have hrest : batch Statement.execute [.dropBlocksAbove keepUpTo t.guard, .bumpRevertSequence t.guard] db =
      .ok ([.nothing, .nothing], db') := by
    have hguard : ∀ d : Database X H C, d.writer = db.writer → t.guard.holds d = true := by
      intro d hd
      have hbefore := (hbooks.holds t.guard).trans hholds
      unfold StatementGuard.holds VersionedStateStore.guard at hbefore ⊢
      rw [hd]
      exact hbefore
    have hdrop : (Statement.dropBlocksAbove keepUpTo t.guard).execute db =
        .ok (.nothing, { db with blocks := db.blocks.filter fun b => (b.number : ℤ) ≤ keepUpTo }) := by
      have hs : (Statement.dropBlocksAbove keepUpTo t.guard : Statement X H C).guard = some t.guard := rfl
      rw [Statement.execute_of_holds hs (hguard db rfl)]
      rfl
    have hbump : (Statement.bumpRevertSequence t.guard).execute
        { db with blocks := db.blocks.filter fun b => (b.number : ℤ) ≤ keepUpTo } = .ok (.nothing, db') := by
      have hs : (Statement.bumpRevertSequence t.guard : Statement X H C).guard = some t.guard := rfl
      rw [Statement.execute_of_holds hs (hguard { db with blocks := db.blocks.filter fun b => (b.number : ℤ) ≤ keepUpTo } rfl)]
      rfl
    exact batch_cons_ok hdrop (batch_cons_ok hbump rfl)
  have hversions' : ∀ key, db'.versionsOf key = cutAt keepUpTo (t.db.versionsOf key) := by
    intro key
    have hkey := hversions key
    split at hkey
    · exact hkey
    · rename_i hnot
      have hnone := h.mirrors.declared key hnot
      rw [hnone]
      exact hkey.trans hnone
  have hblocks : db'.blocks = (s.revertTo keepUpTo).blocks := by
    rw [hdb']
    show db.blocks.filter _ = s.blocks.filter _
    rw [← hbooks.blocks]
    exact congrArg _ h.mirrors.blocks
  have hwithin : ∀ key, Within (fun n => ∃ b ∈ db'.blocks, b.number = n) (db'.versionsOf key) := by
    intro key
    rw [hversions', hblocks]
    have hcut := (h.mirrors.within key).cutAt keepUpTo
    have hkept : ∀ n : ℕ, (∃ b ∈ t.db.blocks, b.number = n) ∧ (n : ℤ) ≤ keepUpTo →
        ∃ b ∈ (s.revertTo keepUpTo).blocks, b.number = n := by
      intro n ⟨⟨b, hb, hbn⟩, hle⟩
      refine ⟨b, List.mem_filter.2 ⟨h.mirrors.blocks ▸ hb, ?_⟩, hbn⟩
      rw [hbn]
      exact decide_eq_true hle
    exact fun v hv => ⟨hkept _ (hcut v hv).1, fun x hx => hkept _ ((hcut v hv).2 x hx)⟩
  have hmirrors : db'.Mirrors declarations (s.revertTo keepUpTo) c := by
    refine ⟨h.mirrors.wellFormed.revertTo keepUpTo, ⟨fun key => ?_, hsound.rowids, hsound.below⟩, hblocks, ?_,
      fun key hkey => ?_, hwithin, fun key => ?_⟩
    · rw [hversions']
      exact (h.mirrors.sound.chained key).cutAt keepUpTo
    · exact hbooks.cursor.symm.trans h.mirrors.cursor
    · rw [hversions', h.mirrors.declared key hkey]
      rfl
    · rw [hversions', MemoryStateStore.versionsOf_revertTo h.mirrors.wellFormed.nodup]
      rcases hk with hk | hk
      · exact (h.mirrors.alike key).cutAt hk
      · rw [cutAt_of_neg hk, cutAt_of_neg hk]
        exact .refl _ _
  have hw : db'.writer = some t.token := hbooks.writer.symm
  have hall : batch Statement.execute (revertToStatements declarations keepUpTo t.guard) t.held =
      .ok (rs ++ [.nothing, .nothing], db') := batch_append hbatch hrest
  have hsent := sendGuarded_ok h.holds hall hw
  refine ⟨_, ?_, h.sent hmirrors hw rfl rfl⟩
  unfold VersionedStateStore.revertTo
  rw [hsent]

/-- A cursor moves in both stores. -/
theorem Refines.writeCursor (h : t.Refines declarations s c) (key : String) (value : C) :
    ∃ t', t.writeCursor key value = (.ok (), t') ∧ t'.Refines declarations (s.writeCursor key value) c := by
  have hholds : t.guard.holds t.held = true := by
    unfold StatementGuard.holds VersionedStateStore.guard VersionedStateStore.held
    simp
  set db : Database X H C := { t.held with cursor := Function.update t.held.cursor key (some value) } with hdb
  have hwrite : batch Statement.execute [.writeCursor key value t.guard] t.held = .ok ([.nothing], db) := by
    have hs : (Statement.writeCursor key value t.guard : Statement X H C).guard = some t.guard := rfl
    have hexec : (Statement.writeCursor key value t.guard).execute t.held = .ok (.nothing, db) := by
      rw [Statement.execute_of_holds hs hholds]
      rfl
    exact batch_cons_ok hexec rfl
  have hm := h.mirrors
  have hwf : (s.writeCursor key value).WellFormed := ⟨hm.wellFormed.nodup, hm.wellFormed.ascending,
    hm.wellFormed.tip, hm.wellFormed.chained, hm.wellFormed.within⟩
  have hcursor : db.cursor = (s.writeCursor key value).cursors := by
    show Function.update t.db.cursor key (some value) = Function.update s.cursors key (some value)
    rw [hm.cursor]
  have hmirrors : db.Mirrors declarations (s.writeCursor key value) c :=
    ⟨hwf, ⟨hm.sound.chained, hm.sound.rowids, hm.sound.below⟩, hm.blocks, hcursor, hm.declared, hm.within, hm.alike⟩
  refine ⟨_, ?_, h.sent hmirrors rfl rfl rfl⟩
  unfold VersionedStateStore.writeCursor
  rw [sendGuarded_ok h.holds hwrite rfl]

/-! ### Pruning -/

/-- The height above which the stores are alike once they are pruned. -/
def pruneCut (declarations : List NormalizedEntity) (t : VersionedStateStore X H C) (s : EntityStore X H C)
    (maxVersions : Option ℕ) (c : ℤ) : ℤ :=
  match s.floor with
  | none => c
  | some floor =>
    if maxVersions.any (· < max (t.prunableTotal floor declarations) (s.unreachable floor).length) then max c floor
    else c

omit [DecidableEq H] in
/-- A table that lost all a floor puts out of reach holds nothing that ended there. -/
theorem above_of_prunableCount (hmirrors : t.db.Mirrors declarations s c) {floor : ℕ}
    (hnone : ∀ entity ∈ declarations, t'.prunableCount floor entity.name = 0)
    (hthin : ∀ key, Thinned (· ≤ floor) (t'.db.versionsOf key) (t.db.versionsOf key)) (key : EntityKey) :
    ∀ v ∈ t'.db.versionsOf key, ∀ x, v.upper = some x → floor < x := by
  intro v hv x hx
  by_cases hkey : key.entity ∈ declarations.map (·.name)
  · obtain ⟨entity, hentity, hname⟩ := List.mem_map.1 hkey
    have hcount := hnone entity hentity
    unfold prunableCount EntityTable.prunable at hcount
    rw [List.length_eq_zero_iff, List.filter_eq_nil_iff, hname] at hcount
    obtain ⟨row, hrow, rfl⟩ := List.mem_map.1 hv
    have hupper : row.upper = some x := hx
    by_contra hle
    apply hcount row (List.mem_of_mem_filter hrow)
    rw [hupper]
    simpa using hle
  · have hin := (hthin key).sublist.subset hv
    rw [hmirrors.declared key hkey] at hin
    cases hin

omit [DecidableEq H] in
/-- The versions of a key once both stores are pruned: the same, unless a budget was short. -/
theorem alike_prune (hmirrors : t.db.Mirrors declarations s c) {floor : ℕ} (hf : s.floor = some floor)
    {maxVersions : Option ℕ} (hthin : ∀ key, Thinned (· ≤ floor) (t'.db.versionsOf key) (t.db.versionsOf key))
    (hcovered : (∀ budget ∈ maxVersions, t.prunableTotal floor declarations ≤ budget) →
      ∀ entity ∈ declarations, t'.prunableCount floor entity.name = 0) (key : EntityKey) :
    AlikeAbove (pruneCut declarations t s maxVersions c) (t'.db.versionsOf key)
      (Etherfold.versionsOf (s.prune maxVersions).1.rows key) := by
  unfold pruneCut
  rw [hf]
  dsimp only
  split
  · -- a budget was short: what is left may differ, up to the floor
    exact MemoryStateStore.alike_prune hmirrors.wellFormed hf maxVersions (hmirrors.alike key) (hthin key)
  · rename_i henough
    have hbudget : ∀ budget ∈ maxVersions,
        max (t.prunableTotal floor declarations) (s.unreachable floor).length ≤ budget := by
      intro budget hmem
      by_contra hless
      apply henough
      rw [Option.any_eq_true]
      exact ⟨budget, hmem, decide_eq_true (by omega)⟩
    have hnone := hcovered fun budget hmem => (le_max_left _ _).trans (hbudget budget hmem)
    exact MemoryStateStore.alike_prune_whole hmirrors.wellFormed hf
      (fun budget hmem => (le_max_right _ _).trans (hbudget budget hmem)) (hmirrors.alike key) (hthin key)
      (above_of_prunableCount hmirrors hnone hthin key)

/-- **A prune** deletes in both stores versions that ended at or below its floor, and the same
ones unless its budget is short. -/
theorem Refines.prune (h : t.Refines declarations s c) (maxVersions : Option ℕ) :
    ∃ report t', t.prune declarations maxVersions = (.ok report, t') ∧
      t'.Refines declarations (s.prune maxVersions).1 (pruneCut declarations t s maxVersions c) := by
  have hread : batch Statement.execute [(.latestBlock : Statement X H C)] t.held =
      .ok ([.block t.held.latest], t.held) := rfl
  have hsent := sendGuarded_ok h.holds hread rfl
  have htip : tipOf [(.block t.held.latest : SQLResult H)] = s.tip := h.held.tip
  set t₁ : VersionedStateStore X H C := { t with db := t.held, claimed := true } with ht₁
  have hrefines₁ : t₁.Refines declarations s c := h.sent h.held rfl rfl rfl
  have hfloor : (s.tip.bind fun tip => retentionFloor t₁.provided tip t₁.finalityDepth) = s.floor := by
    rw [hrefines₁.provided, hrefines₁.finalityDepth]
    rfl
  unfold VersionedStateStore.prune pruneCut
  rw [hsent]
  dsimp only
  rw [htip, hfloor]
  cases hf : s.floor with
  | none =>
    have hsame : (s.prune maxVersions).1 = s := by
      unfold MemoryStateStore.prune
      rw [hf]
    rw [hsame]
    exact ⟨_, t₁, rfl, hrefines₁⟩
  | some floor =>
    dsimp only
    obtain ⟨deleted, t₂, hdrain, hpruned, -, hcovered⟩ :=
      drainAll_ok floor maxVersions declarations hrefines₁.mirrors.sound rfl rfl 0
    have hsame := hpruned.same
    have htoken : t₂.token = t.token := by rw [hsame]
    have hw₂ : t₂.db.writer = some t₂.token := by
      rw [htoken]
      exact hpruned.books.writer.symm
    rw [hdrain]
    dsimp only
    have hclaimed : t₂.claimed = true := by rw [hsame]
    have hheld : t₂.held = t₂.db := held_of_claimed (fun _ => hw₂) hclaimed
    set db : Database X H C := { t₂.db with retentionEnforcement := some floor } with hdb
    have hwrite : batch Statement.execute [.writeRetentionEnforcement floor t₂.guard] t₂.held =
        .ok ([.nothing], db) := by
      have hholds : t₂.guard.holds t₂.held = true := by
        unfold StatementGuard.holds VersionedStateStore.guard VersionedStateStore.held
        simp
      have hs : (Statement.writeRetentionEnforcement floor t₂.guard : Statement X H C).guard = some t₂.guard := rfl
      have hexec : (Statement.writeRetentionEnforcement floor t₂.guard).execute t₂.held = .ok (.nothing, db) := by
        rw [Statement.execute_of_holds hs hholds, hheld]
        rfl
      exact batch_cons_ok hexec rfl
    rw [sendGuarded_ok (fun _ => hw₂) hwrite hw₂]
    obtain ⟨⟨rows, hrows, -⟩, -⟩ := MemoryStateStore.prune_thinned h.mirrors.wellFormed.nodup maxVersions
    have hm := hrefines₁.mirrors
    have halike := alike_prune hm hf hpruned.thinned (by simpa using hcovered)
    have hblocks : db.blocks = (s.prune maxVersions).1.blocks := by
      rw [hrows]
      exact hpruned.books.blocks.symm.trans hm.blocks
    have hcursor : db.cursor = (s.prune maxVersions).1.cursors := by
      rw [hrows]
      exact hpruned.books.cursor.symm.trans hm.cursor
    have hmirrors : db.Mirrors declarations (s.prune maxVersions).1 (pruneCut declarations t₁ s maxVersions c) := by
      refine ⟨hm.wellFormed.prune maxVersions, ⟨hpruned.sound.chained, hpruned.sound.rowids, hpruned.sound.below⟩,
        hblocks, hcursor, fun key hkey => ?_, fun key v hv => ?_, halike⟩
      · have hsub := (hpruned.thinned key).sublist
        rw [hm.declared key hkey] at hsub
        exact List.sublist_nil.1 hsub
      · have hwithin := hm.within key v ((hpruned.thinned key).sublist.subset hv)
        rw [hpruned.books.blocks] at hwithin
        exact hwithin
    unfold pruneCut at hmirrors
    rw [hf] at hmirrors
    refine ⟨_, _, rfl, hmirrors, fun _ => hw₂, ?_, ?_⟩
    · rw [hrows, hsame]
      exact hrefines₁.provided
    · rw [hrows, hsame]
      exact hrefines₁.finalityDepth

end VersionedStateStore

end Etherfold
