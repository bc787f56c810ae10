import Etherfold.Sqlite.Tables

/-!
# What the transactions of the versioned store do

The one writer of a store holds it: what its first transaction claims stays its own. A
transaction then is what its statements do to the tables.

* `sendGuarded_ok`, `sendGuarded_error`: one transaction.
* `sendAll_ok`: **how statements are packed into transactions does not matter** where none fails.
* `drainAll_ok`: what a prune deletes.
-/

namespace Etherfold

open Versions Transaction

variable {X H C : Type}

/-! ### Packing -/

section Packing

variable {S : Type} {estimateSize : S → ℕ} {bounds : BatchBounds}

/-- The statements packed so far. -/
def Packing.statements (p : Packing S) : List S := p.batches.flatten ++ p.current

theorem Packing.statements_add (p : Packing S) (group : List S) :
    (p.add estimateSize bounds group).statements = p.statements ++ group := by
  unfold Packing.add Packing.statements
  dsimp only
  split
  · rename_i hempty
    rw [List.isEmpty_iff.1 hempty, List.append_nil]
  · split
    · simp
    · simp

/-- **Every statement is sent, in order.** -/
theorem flatten_planBatches (estimateSize : S → ℕ) (bounds : BatchBounds) (groups : List (List S)) :
    (planBatches estimateSize bounds groups).flatten = groups.flatten := by
  have hfold : ∀ p : Packing S, (groups.foldl (Packing.add estimateSize bounds) p).statements =
      p.statements ++ groups.flatten := by
    induction groups with
    | nil => simp
    | cons group groups ih =>
      intro p
      rw [List.foldl_cons, ih, Packing.statements_add, List.flatten_cons, List.append_assoc]
  have hall := hfold ⟨[], [], 0⟩
  unfold planBatches
  dsimp only
  generalize groups.foldl (Packing.add estimateSize bounds) ⟨[], [], 0⟩ = p at hall
  unfold Packing.statements at hall
  split
  · rename_i hempty
    rw [List.isEmpty_iff.1 hempty] at hall
    simpa using hall
  · simpa using hall

end Packing

variable [DecidableEq H]

/-- A guarded statement leaves the token. -/
theorem Statement.execute_writer {statement : Statement X H C} {g : StatementGuard} (hg : statement.guard = some g)
    {db db' : Database X H C} {r : SQLResult H} (h : statement.execute db = .ok (r, db')) :
    db'.writer = db.writer := by
  by_cases hholds : g.holds db = true
  · rw [Statement.execute_of_holds hg hholds] at h
    have hcheck : ∀ (d d' : Database X H C) entity, d.checkOpen entity = .ok d' → d' = d := by
      intro d d' entity hd
      unfold Database.checkOpen at hd
      split at hd
      · exact (Except.ok.inj hd).symm
      · cases hd
    cases heffect : statement.effect db with
    | error violation => rw [heffect] at h; cases h
    | ok d =>
      rw [heffect] at h
      cases h
      cases statement with
      | claimWriter token => cases hg
      | heldWriter => cases hg
      | latestBlock => cases hg
      | insertBlock block guard =>
        unfold Statement.effect at heffect
        dsimp only at heffect
        split at heffect
        · cases heffect
        · split at heffect
          · cases heffect
          · cases heffect
            rfl
      | closeVersion entity id number guard => rw [hcheck _ _ _ heffect]; rfl
      | openVersion entity id columns number guard => rw [hcheck _ _ _ heffect]
      | dropOpenedAbove entity keepUpTo guard => rw [hcheck _ _ _ heffect]; rfl
      | reopenClosedAbove entity keepUpTo guard => rw [hcheck _ _ _ heffect]; rfl
      | dropVersions entity rowids guard => rw [hcheck _ _ _ heffect]; rfl
      | writeCursor key value guard => cases heffect; rfl
      | clearCursor key guard => cases heffect; rfl
      | writeSeamRecord key value guard => cases heffect; rfl
      | clearSeamRecord key guard => cases heffect; rfl
      | dropBlocksAbove keepUpTo guard => cases heffect; rfl
      | bumpRevertSequence guard => cases heffect; rfl
      | writeRetentionEnforcement floor guard => cases heffect; rfl
  · rw [Statement.execute_of_not_holds hg (Bool.eq_false_of_not_eq_true hholds)] at h
    cases h
    rfl

namespace VersionedStateStore

/-- The tables as the guarded statements of a transaction find them. -/
def held (t : VersionedStateStore X H C) : Database X H C := { t.db with writer := some t.token }

/-- What has been claimed is still this writer's. -/
def Holds (t : VersionedStateStore X H C) : Prop := t.claimed = true → t.db.writer = some t.token

variable {t : VersionedStateStore X H C} {statements : List (Statement X H C)}

omit [DecidableEq H] in
theorem held_of_claimed (h : t.Holds) (hclaimed : t.claimed = true) : t.held = t.db := by
  unfold held
  rw [← h hclaimed]

theorem batch_claim (h : t.Holds) :
    batch Statement.execute t.claim t.db = .ok (t.claim.map fun _ => .nothing, t.held) := by
  unfold claim
  split
  · rename_i hclaimed
    rw [held_of_claimed h hclaimed]
    rfl
  · rfl

/-- **A transaction without a violation** does what its statements do, and the store is claimed. -/
theorem sendGuarded_ok (h : t.Holds) {rs : List (SQLResult H)} {db : Database X H C}
    (hbatch : batch Statement.execute statements t.held = .ok (rs, db)) (hw : db.writer = some t.token) :
    t.sendGuarded statements = (.ok rs, { t with db := db, claimed := true }) := by
  have hread : batch Statement.execute [(.heldWriter : Statement X H C)] db = .ok ([.token db.writer], db) := rfl
  have hall := batch_append (batch_append (batch_claim h) hbatch) hread
  have hlen : t.claim.length = (t.claim.map fun _ => (.nothing : SQLResult H)).length := by rw [List.length_map]
  unfold sendGuarded commit
  rw [hall, hw]
  dsimp only
  have hheld : heldOf ((t.claim.map fun _ => (.nothing : SQLResult H)) ++ rs ++ [.token (some t.token)]) =
      some t.token := by
    unfold heldOf
    simp
  rw [if_pos hheld, List.append_assoc, hlen, List.drop_left, List.dropLast_concat]

/-- A transaction with a violation has not happened. -/
theorem sendGuarded_error (h : t.Holds) {violation : UniqueViolation H}
    (hbatch : batch Statement.execute statements t.held = .error violation) :
    t.sendGuarded statements = (.error (.violation violation), t) := by
  have hread : batch Statement.execute (statements ++ [.heldWriter]) t.held = .error violation :=
    batch_error_append hbatch _
  unfold sendGuarded commit
  rw [List.append_assoc, batch_append_error (batch_claim h) hread]

/-- **How statements are packed does not matter** where none fails. -/
theorem sendAll_ok (hclaimed : t.claimed = true) (hw : t.db.writer = some t.token)
    {batches : List (List (Statement X H C))} (hg : ∀ s ∈ batches.flatten, ∃ g, s.guard = some g)
    {rs : List (SQLResult H)} {db : Database X H C}
    (hbatch : batch Statement.execute batches.flatten t.db = .ok (rs, db)) :
    t.sendAll batches = (.ok (), { t with db := db }) := by
  induction batches generalizing t rs with
  | nil =>
    cases hbatch
    rfl
  | cons b batches ih =>
    rw [List.flatten_cons] at hbatch hg
    obtain ⟨rs₁, db₁, rs₂, hfirst, hrest⟩ := batch_split hbatch
    have hw₁ : db₁.writer = some t.token := by
      rw [← hw]
      refine batch_keeps (f := Database.writer) (fun s hs d r d' hd => ?_) hfirst
      obtain ⟨g, hsg⟩ := hg s (List.mem_append_left _ hs)
      exact Statement.execute_writer hsg hd
    have hheld : t.held = t.db := held_of_claimed (fun _ => hw) hclaimed
    have hsent := sendGuarded_ok (fun _ => hw) (hheld.symm ▸ hfirst) hw₁
    have hnext := @ih { t with db := db₁, claimed := true } rfl hw₁
      (fun s hs => hg s (List.mem_append_right _ hs)) rs₂ hrest
    unfold sendAll
    rw [hsent]
    dsimp only
    rw [hnext, hclaimed]

/-! ### Pruning -/

/-- Only closed versions at or below the floor are gone. -/
structure Pruned (floor : ℕ) (t t' : VersionedStateStore X H C) : Prop where
  same : t' = { t with db := t'.db }
  books : t.db.SameBooks t'.db
  sound : t'.db.Sound
  thinned : ∀ key, Thinned (· ≤ floor) (t'.db.versionsOf key) (t.db.versionsOf key)

omit [DecidableEq H] in
theorem Pruned.refl {floor : ℕ} (h : t.db.Sound) : Pruned floor t t := ⟨rfl, rfl, h, fun _ => .refl _ _⟩

omit [DecidableEq H] in
theorem Pruned.trans {floor : ℕ} {t₁ t₂ t₃ : VersionedStateStore X H C} (h : Pruned floor t₁ t₂)
    (h' : Pruned floor t₂ t₃) : Pruned floor t₁ t₃ := by
  refine ⟨?_, h.books.trans h'.books, h'.sound, fun key => ?_⟩
  · rw [h'.same, h.same]
  · exact ((h'.thinned key).trans (h.thinned key)).mono fun x hx => hx.elim id id

/-- How many versions of an entity a floor puts out of reach. -/
def prunableCount (t : VersionedStateStore X H C) (floor : ℕ) (entity : String) : ℕ :=
  ((t.db.tables entity).prunable floor).length

/-- **What is deleted from one table**: with passes enough for its rows, all that is out of
reach, or as much as the budget has left. -/
theorem drain_ok (floor : ℕ) (maxVersions : Option ℕ) (entity : String) (passes : ℕ) (hs : t.db.Sound)
    (hclaimed : t.claimed = true) (hw : t.db.writer = some t.token)
    (hpasses : t.prunableCount floor entity < passes) (deleted : ℕ) :
    ∃ deleted' t', drain floor maxVersions entity passes t deleted = (.ok deleted', t') ∧ Pruned floor t t' ∧
      deleted ≤ deleted' ∧ deleted' + t'.prunableCount floor entity = deleted + t.prunableCount floor entity ∧
      (t'.prunableCount floor entity = 0 ∨ ∃ budget ∈ maxVersions, budget ≤ deleted') ∧
      ∀ e ≠ entity, t'.prunableCount floor e = t.prunableCount floor e := by
  induction passes generalizing t deleted with
  | zero => omega
  | succ passes ih =>
    unfold drain
    by_cases hspent : maxVersions.any (· ≤ deleted) = true
    · rw [if_pos hspent]
      obtain ⟨budget, hbudget, hle⟩ := (Option.any_eq_true _ _).1 hspent
      exact ⟨deleted, t, rfl, .refl hs, le_rfl, rfl, .inr ⟨budget, hbudget, by simpa using hle⟩, fun _ _ => rfl⟩
    rw [if_neg hspent]
    dsimp only
    set limit := t.pruneLimit maxVersions deleted with hlimit
    have hpos : 1 ≤ limit := by
      rw [hlimit]
      unfold pruneLimit
      cases maxVersions with
      | none => exact le_max_left _ _
      | some budget =>
        have hlt : ¬budget ≤ deleted := fun hle => hspent (by simpa using hle)
        dsimp only
        omega
    obtain ⟨-, hfound, -⟩ := prunableVersions_split hs entity floor limit
    have hcount : t.prunableCount floor entity = ((t.db.tables entity).prunable floor).length := rfl
    split
    · rename_i hempty
      have hnone : (prunableVersions (t.db.tables entity) floor limit).length = 0 := by
        rw [List.isEmpty_iff.1 hempty]
        rfl
      exact ⟨deleted, t, rfl, .refl hs, le_rfl, rfl, .inl (by omega), fun _ _ => rfl⟩
    · rename_i hsome
      have hlen : 0 < (prunableVersions (t.db.tables entity) floor limit).length := by
        rw [List.length_pos_iff]
        exact fun h => hsome (List.isEmpty_iff.2 h)
      have hheld : t.held = t.db := held_of_claimed (fun _ => hw) hclaimed
      have hholds : t.guard.holds t.held = true := by
        unfold StatementGuard.holds guard held
        simp
      rw [hheld] at hholds
      obtain ⟨db, hexec, hbooks, hsound, hthinned, hcounts, -⟩ := dropVersions_ok hs entity floor limit hholds
      have hw' : db.writer = some t.token := by
        rw [← hw, ← hbooks]
      have hbatch : batch Statement.execute [.dropVersions entity
          (prunableVersions (t.db.tables entity) floor limit) t.guard] t.held = .ok ([.nothing], db) := by
        rw [hheld]
        exact batch_cons_ok hexec rfl
      have hsent := sendGuarded_ok (fun _ => hw) hbatch hw'
      rw [hsent]
      dsimp only
      have hpruned : Pruned floor t { t with db := db, claimed := true } :=
        ⟨by rw [hclaimed], hbooks, hsound, hthinned⟩
      have hsame := hcounts entity
      rw [if_pos rfl] at hsame
      have hless : VersionedStateStore.prunableCount { t with db := db, claimed := true } floor entity =
          ((db.tables entity).prunable floor).length := rfl
      obtain ⟨deleted', t', hdrain, hpruned', hmore, hsum, hend, hothers⟩ :=
        ih (t := { t with db := db, claimed := true }) hsound rfl hw' (by omega)
          (deleted + (prunableVersions (t.db.tables entity) floor limit).length)
      refine ⟨deleted', t', hdrain, hpruned.trans hpruned', by omega, by omega, hend, fun e he => ?_⟩
      have hother := hcounts e
      rw [if_neg he] at hother
      rw [hothers e he]
      exact hother

/-- How many versions a floor puts out of reach. -/
def prunableTotal (t : VersionedStateStore X H C) (floor : ℕ) (entities : List NormalizedEntity) : ℕ :=
  (entities.map fun entity => t.prunableCount floor entity.name).sum

/-- **What a prune deletes**: a budget that covers all that is out of reach leaves none of it. -/
theorem drainAll_ok (floor : ℕ) (maxVersions : Option ℕ) (entities : List NormalizedEntity) (hs : t.db.Sound)
    (hclaimed : t.claimed = true) (hw : t.db.writer = some t.token) (deleted : ℕ) :
    ∃ deleted' t', drainAll floor maxVersions entities t deleted = (.ok deleted', t') ∧ Pruned floor t t' ∧
      (∀ e, t'.prunableCount floor e ≤ t.prunableCount floor e) ∧
      ((∀ budget ∈ maxVersions, deleted + t.prunableTotal floor entities ≤ budget) →
        ∀ entity ∈ entities, t'.prunableCount floor entity.name = 0) := by
  induction entities generalizing t deleted with
  | nil => exact ⟨deleted, t, rfl, .refl hs, fun _ => le_rfl, fun _ entity hentity => by cases hentity⟩
  | cons entity entities ih =>
    have hpasses : t.prunableCount floor entity.name < (t.db.tables entity.name).rows.length + 1 :=
      Nat.lt_succ_of_le (List.length_filter_le _ _)
    obtain ⟨deleted₁, t₁, hdrain, hpruned₁, hmore, hsum, hend, hothers⟩ :=
      drain_ok floor maxVersions entity.name _ hs hclaimed hw hpasses deleted
    have hsame := hpruned₁.same
    have hclaimed₁ : t₁.claimed = true := by rw [hsame]; exact hclaimed
    have hw₁ : t₁.db.writer = some t₁.token := by
      have htoken : t₁.token = t.token := by rw [hsame]
      rw [htoken, ← hw, ← hpruned₁.books]
    have hle₁ : ∀ e, t₁.prunableCount floor e ≤ t.prunableCount floor e := by
      intro e
      by_cases he : e = entity.name
      · subst he
        omega
      · exact (hothers e he).le
    obtain ⟨deleted₂, t₂, hall, hpruned₂, hle₂, hdone⟩ := ih hpruned₁.sound hclaimed₁ hw₁ deleted₁
    refine ⟨deleted₂, t₂, ?_, hpruned₁.trans hpruned₂, fun e => (hle₂ e).trans (hle₁ e), fun hbudget => ?_⟩
    · unfold drainAll
      rw [hdrain]
      exact hall
    · have htotal : t.prunableTotal floor (entity :: entities) =
          t.prunableCount floor entity.name + t.prunableTotal floor entities := by
        unfold prunableTotal
        rw [List.map_cons, List.sum_cons]
      have hrest : t₁.prunableTotal floor entities ≤ t.prunableTotal floor entities := by
        unfold prunableTotal
        exact List.sum_le_sum fun entity _ => hle₁ entity.name
      have hzero : t₁.prunableCount floor entity.name = 0 := by
        rcases hend with hzero | ⟨budget, hmem, hle⟩
        · exact hzero
        · have hcover := hbudget budget hmem
          omega
      have hdone₂ := hdone fun budget hmem => by
        have hcover := hbudget budget hmem
        omega
      intro e he
      rcases List.mem_cons.1 he with rfl | he
      · have hless := hle₂ e.name
        omega
      · exact hdone₂ e he

end VersionedStateStore

end Etherfold
