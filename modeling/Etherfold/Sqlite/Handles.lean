import Etherfold.Ledger.Tenure
import Etherfold.Sqlite.Histories

/-!
# Several handles over one database

Every handle has a token of its own. It sends batches, which the database executes one at a
time in any order, and learns of each what the token read back says, some time later or never.

* `Service`, `Event`: the database, the batches under way, and what may happen next.
* `Sends`: the batches of the calls.
* `Flight.lawful`: **a batch changes the store for its own writer only**.
* `Flight.whole`: **its statements apply all or not at all**, where its blocks are on one side of
  the tip.
-/

namespace Etherfold

open Versions Transaction

variable {X H C : Type}

/-- A batch under way: whose it is, whether it opens with the claim, and what it carries. -/
structure Flight (X H C : Type) where
  token : String
  claims : Bool
  statements : List (Statement X H C)

/-- A database several handles write to. A handle is known by its token. -/
structure Service (X H C : Type) where
  db : Database X H C
  claimed : String → Bool
  flights : List (Flight X H C)
  answers : List (String × Except (SqlError H) (List (SQLResult H)))

/-- What happens next: a handle sends a batch, the database executes one, an answer arrives. A
batch or an answer that is lost is one nothing happens to any more. -/
inductive Event (X H C : Type) where
  | send (token : String) (statements : List (Statement X H C))
  | commit (n : ℕ)
  | answer (n : ℕ)

/-- **The batches of the calls** of a handle. -/
inductive Sends (declarations : List NormalizedEntity) (token : String) : List (Statement X H C) → Prop where
  | applyBlock {call : AppliedCall X H C} {statements : List (Statement X H C)}
      (resolved : applyBlockStatements declarations call token = .ok statements) :
      Sends declarations token (.latestBlock :: statements)
  | applyBlocks {updates : List (BlockUpdate X H)} {groups : List (List (Statement X H C))}
      {estimateSize : Statement X H C → ℕ} {bounds : BatchBounds} {packet : List (Statement X H C)}
      (ascend : descent updates = none)
      (resolved : (updates.mapM fun update => applyBlockStatements declarations (update.call C) token) = .ok groups)
      (packed : packet ∈ planBatches estimateSize bounds groups.tail) : Sends declarations token packet
  | revertTo (keepUpTo : ℤ) : Sends declarations token (revertToStatements declarations keepUpTo ⟨token, none⟩)
  | prune : Sends declarations token [.latestBlock]
  | dropVersions (entity : String) (rowids : List ℕ) :
      Sends declarations token [.dropVersions entity rowids ⟨token, none⟩]
  | writeRetentionEnforcement (floor : ℕ) :
      Sends declarations token [.writeRetentionEnforcement floor ⟨token, none⟩]
  | writeCursor (key : String) (value : C) : Sends declarations token [.writeCursor key value ⟨token, none⟩]
  | clearCursor (key : String) : Sends declarations token [.clearCursor key ⟨token, none⟩]
  | writeSeamRecord (key : SeamRecordKey) (value : String) :
      Sends declarations token [.writeSeamRecord key value ⟨token, none⟩]
  | clearSeamRecord (key : SeamRecordKey) : Sends declarations token [.clearSeamRecord key ⟨token, none⟩]

/-- The height a statement is held to. -/
def Statement.height (s : Statement X H C) : Option ℕ := s.guard.bind (·.aboveTip)

/-- What the batches of the calls have in common: every writing statement carries the token, all
are held to heights that do not descend or none is to any, and a block to its own. -/
structure Batched (token : String) (statements : List (Statement X H C)) : Prop where
  guarded : ∀ s ∈ statements, s = .latestBlock ∨ ∃ g, s.guard = some g ∧ g.token = token
  heights : (∀ s ∈ statements, s.height = none) ∨ ∀ s ∈ statements, ∀ g, s.guard = some g → g.aboveTip ≠ none
  ascending : (statements.filterMap (·.height)).Pairwise (· ≤ ·)
  inserts : ∀ block g, .insertBlock block g ∈ statements → g.aboveTip = some block.number

namespace Batched

variable {token : String} {statements : List (Statement X H C)}

theorem single {s : Statement X H C} (hguard : s.guard = some ⟨token, none⟩)
    (hinsert : ∀ block g, s ≠ .insertBlock block g) : Batched token [s] := by
  have hheight : s.height = none := by
    unfold Statement.height
    rw [hguard]
    rfl
  refine ⟨fun s' hs => ?_, .inl fun s' hs => ?_, ?_, fun block g hs => ?_⟩
  · rw [List.mem_singleton.1 hs]
    exact .inr ⟨_, hguard, rfl⟩
  · rw [List.mem_singleton.1 hs]
    exact hheight
  · simp [hheight]
  · exact absurd (List.mem_singleton.1 hs).symm (hinsert block g)

theorem sublist {part : List (Statement X H C)} (h : Batched token statements) (hsub : part.Sublist statements) :
    Batched token part := by
  refine ⟨fun s hs => h.guarded s (hsub.subset hs), ?_, h.ascending.sublist (hsub.filterMap _),
    fun block g hs => h.inserts block g (hsub.subset hs)⟩
  exact h.heights.imp (fun hall s hs => hall s (hsub.subset hs)) fun hall s hs => hall s (hsub.subset hs)

end Batched

/-- The statements of one block are held to its height. -/
theorem guard_of_resolved {declarations : List NormalizedEntity} {call : AppliedCall X H C} {token : String}
    {statements : List (Statement X H C)} (h : applyBlockStatements declarations call token = .ok statements) :
    (∀ s ∈ statements, s.guard = some ⟨token, some call.block.number⟩) ∧
      ∀ block g, .insertBlock block g ∈ statements → block = call.block := by
  rw [applyBlockStatements_eq] at h
  cases hplan : call.mutations.mapM (plan declarations) with
  | error e =>
    rw [hplan] at h
    cases h
  | ok planned =>
    rw [hplan] at h
    cases h
    refine ⟨guard_blockStatements call.block planned call.cursor token, fun block g hs => ?_⟩
    unfold blockStatements at hs
    rcases List.mem_cons.1 hs with heq | hs
    · injection heq
    rcases List.mem_append.1 hs with hs | hs
    · obtain ⟨group, hgroup, hs⟩ := List.mem_flatten.1 hs
      obtain ⟨m, -, rfl⟩ := List.mem_map.1 hgroup
      cases m <;> simp [plannedStatements] at hs
    · cases hcursor : call.cursor <;> simp [hcursor] at hs

/-- Statements held to one height. -/
theorem batched_of_guard {token : String} {block : BlockPointer H} {statements : List (Statement X H C)}
    (hguard : ∀ s ∈ statements, s.guard = some ⟨token, some block.number⟩)
    (hinsert : ∀ b g, .insertBlock b g ∈ statements → b = block) : Batched token statements := by
  refine ⟨fun s hs => .inr ⟨_, hguard s hs, rfl⟩, .inr fun s hs g hg => ?_, ?_, fun b g hs => ?_⟩
  · rw [hguard s hs, Option.some.injEq] at hg
    rw [← hg]
    exact Option.some_ne_none _
  · have hall : ∀ n ∈ statements.filterMap (·.height), n = block.number := by
      intro n hn
      obtain ⟨s, hs, hsn⟩ := List.mem_filterMap.1 hn
      unfold Statement.height at hsn
      rw [hguard s hs] at hsn
      exact (Option.some.inj hsn).symm
    refine List.pairwise_of_forall_mem_list fun n hn m hm => ?_
    rw [hall n hn, hall m hm]
  · have hg := hguard _ hs
    rw [hinsert b g hs]
    exact congrArg StatementGuard.aboveTip (Option.some.inj hg)

theorem Batched.append {token : String} {first rest : List (Statement X H C)} (h : Batched token first)
    (h' : Batched token rest) (hfirst : ∀ s ∈ first, ∀ g, s.guard = some g → g.aboveTip ≠ none)
    (hrest : ∀ s ∈ rest, ∀ g, s.guard = some g → g.aboveTip ≠ none)
    (hbelow : ∀ n ∈ first.filterMap (·.height), ∀ m ∈ rest.filterMap (·.height), n ≤ m) :
    Batched token (first ++ rest) := by
  refine ⟨fun s hs => ?_, .inr fun s hs => ?_, ?_, fun block g hs => ?_⟩
  · exact (List.mem_append.1 hs).elim (h.guarded s) (h'.guarded s)
  · exact (List.mem_append.1 hs).elim (hfirst s) (hrest s)
  · rw [List.filterMap_append]
    exact List.pairwise_append.2 ⟨h.ascending, h'.ascending, hbelow⟩
  · exact (List.mem_append.1 hs).elim (h.inserts block g) (h'.inserts block g)

/-- The statements of blocks that ascend. -/
theorem batched_groups {declarations : List NormalizedEntity} {token : String} {updates : List (BlockUpdate X H)}
    {groups : List (List (Statement X H C))} (hascend : updates.Pairwise fun a b => a.block.number < b.block.number)
    (hresolved : List.Forall₂ (fun (update : BlockUpdate X H) group =>
      applyBlockStatements declarations (update.call C) token = .ok group) updates groups) :
    Batched token groups.flatten ∧ (∀ s ∈ groups.flatten, ∀ g, s.guard = some g → g.aboveTip ≠ none) ∧
      ∀ n ∈ groups.flatten.filterMap (·.height), ∃ update ∈ updates, update.block.number = n := by
  induction hresolved with
  | nil => exact ⟨⟨by simp, .inl (by simp), by simp, by simp⟩, by simp, by simp⟩
  | @cons update group updates groups hgroup hrest ih =>
    obtain ⟨hlow, hascend⟩ := List.pairwise_cons.1 hascend
    obtain ⟨hbatched, hsome, hheights⟩ := ih hascend
    obtain ⟨hguard, hinsert⟩ := guard_of_resolved hgroup
    have hfirst : Batched token group := batched_of_guard hguard hinsert
    have hfirst' : ∀ s ∈ group, ∀ g, s.guard = some g → g.aboveTip ≠ none := by
      intro s hs g hg
      rw [hguard s hs, Option.some.injEq] at hg
      rw [← hg]
      exact Option.some_ne_none _
    have hheight : ∀ n ∈ group.filterMap (·.height), n = update.block.number := by
      intro n hn
      obtain ⟨s, hs, hsn⟩ := List.mem_filterMap.1 hn
      unfold Statement.height at hsn
      rw [hguard s hs] at hsn
      exact (Option.some.inj hsn).symm
    rw [List.flatten_cons]
    refine ⟨hfirst.append hbatched hfirst' hsome fun n hn m hm => ?_, fun s hs => ?_, fun n hn => ?_⟩
    · obtain ⟨later, hlater, rfl⟩ := hheights m hm
      rw [hheight n hn]
      exact (hlow later hlater).le
    · exact (List.mem_append.1 hs).elim (hfirst' s) (hsome s)
    · rw [List.filterMap_append] at hn
      rcases List.mem_append.1 hn with hn | hn
      · exact ⟨update, List.mem_cons_self, (hheight n hn).symm⟩
      · obtain ⟨later, hlater, heq⟩ := hheights n hn
        exact ⟨later, List.mem_cons_of_mem _ hlater, heq⟩

theorem mem_flatten_sublist {α : Type} {l : List α} {ls : List (List α)} (h : l ∈ ls) : l.Sublist ls.flatten := by
  obtain ⟨pre, post, rfl⟩ := List.append_of_mem h
  rw [List.flatten_append, List.flatten_cons]
  exact (List.sublist_append_left l post.flatten).trans (List.sublist_append_right pre.flatten _)

/-- **Every batch a call sends is of this kind.** -/
theorem Sends.batched {declarations : List NormalizedEntity} {token : String} {statements : List (Statement X H C)}
    (h : Sends declarations token statements) : Batched token statements := by
  have hread : Batched token [(.latestBlock : Statement X H C)] :=
    ⟨by simp, .inl (by simp [Statement.height, Statement.guard]), by simp [Statement.height, Statement.guard], by simp⟩
  cases h with
  | applyBlock hresolved =>
    obtain ⟨hguard, hinsert⟩ := guard_of_resolved hresolved
    have hsome : ∀ s ∈ [(.latestBlock : Statement X H C)], ∀ g, s.guard = some g → g.aboveTip ≠ none := by
      intro s hs g hg
      rw [List.mem_singleton.1 hs] at hg
      cases hg
    refine hread.append (batched_of_guard hguard hinsert) hsome (fun s hs g hg => ?_) (by simp [Statement.height, Statement.guard])
    rw [hguard s hs, Option.some.injEq] at hg
    rw [← hg]
    exact Option.some_ne_none _
  | @applyBlocks updates groups estimateSize bounds _ hascend hresolved hpacked =>
    have hpairs := mapM_eq_ok.1 hresolved
    have hall := (batched_groups (ascends_of_descent hascend) hpairs).1
    have hflat := flatten_planBatches estimateSize bounds groups.tail
    have hsub : statements.Sublist groups.flatten := by
      refine (mem_flatten_sublist hpacked).trans ?_
      rw [hflat]
      exact (List.tail_sublist groups).flatten
    exact hall.sublist hsub
  | revertTo keepUpTo =>
    have hguard : ∀ s ∈ (revertToStatements declarations keepUpTo ⟨token, none⟩ : List (Statement X H C)),
        s.guard = some ⟨token, none⟩ ∧ ∀ block g, s ≠ .insertBlock block g := by
      intro s hs
      unfold revertToStatements at hs
      simp only [List.mem_append, List.mem_flatMap, List.mem_cons, List.not_mem_nil, or_false] at hs
      rcases hs with ⟨entity, -, rfl | rfl⟩ | rfl | rfl <;> exact ⟨rfl, by simp⟩
    have hheight : ∀ s ∈ (revertToStatements declarations keepUpTo ⟨token, none⟩ : List (Statement X H C)),
        s.height = none := by
      intro s hs
      unfold Statement.height
      rw [(hguard s hs).1]
      rfl
    refine ⟨fun s hs => .inr ⟨_, (hguard s hs).1, rfl⟩, .inl hheight, ?_, fun block g hs => ?_⟩
    · rw [List.filterMap_eq_nil_iff.2 hheight]
      exact List.Pairwise.nil
    · exact absurd rfl ((hguard _ hs).2 block g)
  | prune => exact hread
  | dropVersions entity rowids => exact .single rfl (by simp)
  | writeRetentionEnforcement floor => exact .single rfl (by simp)
  | writeCursor key value => exact .single rfl (by simp)
  | clearCursor key => exact .single rfl (by simp)
  | writeSeamRecord key value => exact .single rfl (by simp)
  | clearSeamRecord key => exact .single rfl (by simp)

/-! ### Executing a batch -/

section Execute

variable [DecidableEq H] {db db' : Database X H C} {f : Flight X H C}

/-- The database as the statements of a batch find it. -/
def Flight.found (f : Flight X H C) (db : Database X H C) : Database X H C :=
  if f.claims then { db with writer := some f.token } else db

/-- **One batch, executed**: the claim, the statements, and the token read back. -/
def Flight.transact (f : Flight X H C) (db : Database X H C) :
    Except (SqlError H) (List (SQLResult H)) × Database X H C :=
  let claim : List (Statement X H C) := if f.claims then [.claimWriter f.token] else []
  match commit Statement.execute (claim ++ f.statements ++ [.heldWriter]) db with
  | (.error violation, db) => (.error (.violation violation), db)
  | (.ok results, db) =>
    if heldOf results = some f.token then (.ok ((results.drop claim.length).dropLast), db)
    else (.error .writerChanged, db)

/-- A handle by itself sends what it sends here. -/
theorem sendGuarded_eq_transact (t : VersionedStateStore X H C) (statements : List (Statement X H C)) :
    t.sendGuarded statements = ((Flight.transact ⟨t.token, !t.claimed, statements⟩ t.db).1, { t with
      db := (Flight.transact ⟨t.token, !t.claimed, statements⟩ t.db).2
      claimed := t.claimed || (Flight.transact ⟨t.token, !t.claimed, statements⟩ t.db).1.isOk }) := by
  have hclaim : t.claim = if (!t.claimed) = true then [.claimWriter t.token] else [] := by
    unfold VersionedStateStore.claim
    cases t.claimed <;> rfl
  unfold VersionedStateStore.sendGuarded Flight.transact
  dsimp only
  rw [hclaim]
  cases commit Statement.execute ((if (!t.claimed) = true then [.claimWriter t.token] else []) ++ statements ++
      [(.heldWriter : Statement X H C)]) t.db with
  | mk result db =>
    cases result with
    | error violation => simp [Except.isOk, Except.toBool]
    | ok results =>
      dsimp only
      split <;> simp [Except.isOk, Except.toBool]

theorem transact_eq (f : Flight X H C) (db : Database X H C) : f.transact db =
    match batch Statement.execute f.statements (f.found db) with
    | .error violation => (.error (.violation violation), db)
    | .ok (results, db') =>
      if db'.writer = some f.token then (.ok results, db') else (.error .writerChanged, db') := by
  obtain ⟨token, claims, statements⟩ := f
  set claim : List (Statement X H C) := if claims = true then [.claimWriter token] else [] with hclaim
  have hfirst : batch Statement.execute claim db =
      .ok (claim.map fun _ => .nothing, Flight.found ⟨token, claims, statements⟩ db) := by
    rw [hclaim]
    unfold Flight.found
    cases claims <;> rfl
  have hlen : claim.length = (claim.map fun _ => (.nothing : SQLResult H)).length := by rw [List.length_map]
  unfold Flight.transact commit
  dsimp only
  rw [← hclaim]
  cases hbatch : batch Statement.execute statements (Flight.found ⟨token, claims, statements⟩ db) with
  | error violation =>
    rw [List.append_assoc, batch_append_error hfirst (batch_error_append hbatch _)]
  | ok p =>
    obtain ⟨results, db'⟩ := p
    have hread : batch Statement.execute [(.heldWriter : Statement X H C)] db' = .ok ([.token db'.writer], db') := rfl
    rw [batch_append (batch_append hfirst hbatch) hread]
    have hheld : heldOf (claim.map (fun _ => (.nothing : SQLResult H)) ++ results ++ [.token db'.writer]) =
        db'.writer := by
      unfold heldOf
      simp
    dsimp only
    rw [hheld, hlen, List.append_assoc, List.drop_left, List.dropLast_concat]

/-- The statements of a call leave the token. -/
theorem Batched.writer (h : Batched f.token f.statements) {results : List (SQLResult H)}
    (hbatch : batch Statement.execute f.statements db = .ok (results, db')) : db'.writer = db.writer := by
  refine batch_keeps (f := Database.writer) (fun s hs d r d' hd => ?_) hbatch
  rcases h.guarded s hs with rfl | ⟨g, hg, -⟩
  · cases hd
    rfl
  · exact Statement.execute_writer hg hd

/-- Statements of which none has a guard that holds do nothing. -/
theorem Batched.idle (h : Batched f.token f.statements)
    (hnot : ∀ g : StatementGuard, g.token = f.token → (∃ s ∈ f.statements, s.guard = some g) → g.holds db = false) :
    ∃ results, batch Statement.execute f.statements db = .ok (results, db) := by
  refine batch_of_reads fun s hs => ?_
  rcases h.guarded s hs with rfl | ⟨g, hg, htoken⟩
  · exact ⟨.block db.latest, rfl⟩
  · exact ⟨.nothing, Statement.execute_of_not_holds hg (hnot g htoken ⟨s, hs, hg⟩)⟩

/-- **The batch of a handle that does not hold the store**, and does not claim it, does nothing
and is answered so. -/
theorem transact_of_not_held (h : Batched f.token f.statements) (htoken : f.token ≠ "") (hclaims : f.claims = false)
    (hnot : db.writer ≠ some f.token) : f.transact db = (.error .writerChanged, db) := by
  have hfound : f.found db = db := by
    unfold Flight.found
    rw [hclaims]
    rfl
  have hguard : ∀ g : StatementGuard, g.token = f.token → (∃ s ∈ f.statements, s.guard = some g) →
      g.holds db = false := by
    intro g hg _
    have hne : ¬db.writer.getD "" = g.token := by
      rw [hg]
      cases hw : db.writer with
      | none => exact htoken.symm
      | some token =>
        rw [hw] at hnot
        exact fun heq => hnot (congrArg some heq)
    unfold StatementGuard.holds
    rw [decide_eq_false hne, Bool.false_and]
  obtain ⟨results, hbatch⟩ := h.idle hguard
  rw [transact_eq, hfound, hbatch]
  exact if_neg hnot

/-- What a batch of a handle does to the store, as one action. -/
def Flight.action (f : Flight X H C) : Tenure.Action (Database X H C) String := ⟨f.token, f.claims, fun db => (f.transact db).2⟩

/-- **A batch changes the store for its own writer only.** -/
theorem Flight.lawful (h : Batched f.token f.statements) (htoken : f.token ≠ "") :
    f.action.Lawful Database.writer := by
  refine ⟨fun db hclaims hnot => ?_, fun db => ?_⟩
  · exact congrArg Prod.snd (transact_of_not_held h htoken hclaims hnot)
  · by_cases hheld : (f.found db).writer = some f.token
    · show (f.transact db).2 = db ∨ (f.transact db).2.writer = some f.token
      rw [transact_eq]
      cases hbatch : batch Statement.execute f.statements (f.found db) with
      | error violation => exact .inl rfl
      | ok p =>
        have hw := (h.writer hbatch).trans hheld
        dsimp only
        rw [if_pos hw]
        exact .inr hw
    · have hclaims : f.claims = false := by
        rw [← Bool.not_eq_true]
        intro hclaims
        apply hheld
        unfold Flight.found
        rw [if_pos hclaims]
      unfold Flight.found at hheld
      rw [hclaims] at hheld
      exact .inl (congrArg Prod.snd (transact_of_not_held h htoken hclaims hheld))

/-! ### All or nothing -/

/-- Every statement is executed under a guard that holds. -/
def AllHold : List (Statement X H C) → Database X H C → Prop
  | [], _ => True
  | s :: rest, db => (∀ g ∈ s.guard, g.holds db = true) ∧ ∀ r db', s.execute db = .ok (r, db') → AllHold rest db'

/-- **The statements apply all or not at all**: nothing changes but the claim, or each applies. -/
def Flight.Whole (f : Flight X H C) (db : Database X H C) : Prop :=
  (f.transact db).2 = db ∨ (f.transact db).2 = f.found db ∨ AllHold f.statements (f.found db)

/-- The blocks of the batch are on one side of the tip: where one is below a recorded block, all are. -/
def Flight.Level (f : Flight X H C) (db : Database X H C) : Prop :=
  (∃ height ∈ f.statements.filterMap (·.height), ∃ b ∈ db.blocks, height < b.number) →
    ∀ height ∈ f.statements.filterMap (·.height), ∃ b ∈ db.blocks, height < b.number

omit [DecidableEq H] in
instance (f : Flight X H C) (db : Database X H C) : Decidable (f.Level db) := by
  unfold Flight.Level
  infer_instance

/-- A statement records at most its own block. -/
theorem Statement.execute_blocks {statement : Statement X H C} {r : SQLResult H}
    (h : statement.execute db = .ok (r, db')) :
    ∀ b ∈ db'.blocks, b ∈ db.blocks ∨ ∃ g, statement = .insertBlock b g := by
  have hcheck : ∀ (d d' : Database X H C) entity, d.checkOpen entity = .ok d' → d' = d := by
    intro d d' entity hd
    unfold Database.checkOpen at hd
    split at hd
    · exact (Except.ok.inj hd).symm
    · cases hd
  cases hguard : statement.guard with
  | none =>
    cases statement <;> cases hguard <;> cases h <;> exact fun b hb => .inl hb
  | some g =>
    by_cases hholds : g.holds db = true
    swap
    · rw [Statement.execute_of_not_holds hguard (Bool.eq_false_of_not_eq_true hholds)] at h
      cases h
      exact fun b hb => .inl hb
    rw [Statement.execute_of_holds hguard hholds] at h
    cases heffect : statement.effect db with
    | error violation =>
      rw [heffect] at h
      cases h
    | ok d =>
      rw [heffect] at h
      cases h
      cases statement with
      | claimWriter token => cases hguard
      | heldWriter => cases hguard
      | latestBlock => cases hguard
      | insertBlock block guard =>
        unfold Statement.effect at heffect
        dsimp only at heffect
        split at heffect
        · cases heffect
        · split at heffect
          · cases heffect
          · cases heffect
            intro b hb
            rcases List.mem_append.1 hb with hb | hb
            · exact .inl hb
            · rw [List.mem_singleton.1 hb]
              exact .inr ⟨guard, rfl⟩
      | closeVersion entity id number guard => rw [hcheck _ _ _ heffect]; exact fun b hb => .inl hb
      | openVersion entity id columns number guard => rw [hcheck _ _ _ heffect]; exact fun b hb => .inl hb
      | dropOpenedAbove entity keepUpTo guard => rw [hcheck _ _ _ heffect]; exact fun b hb => .inl hb
      | reopenClosedAbove entity keepUpTo guard => rw [hcheck _ _ _ heffect]; exact fun b hb => .inl hb
      | dropVersions entity rowids guard => rw [hcheck _ _ _ heffect]; exact fun b hb => .inl hb
      | writeCursor key value guard => cases heffect; exact fun b hb => .inl hb
      | clearCursor key guard => cases heffect; exact fun b hb => .inl hb
      | writeSeamRecord key value guard => cases heffect; exact fun b hb => .inl hb
      | clearSeamRecord key guard => cases heffect; exact fun b hb => .inl hb
      | dropBlocksAbove keepUpTo guard => cases heffect; exact fun b hb => .inl (List.mem_of_mem_filter hb)
      | bumpRevertSequence guard => cases heffect; exact fun b hb => .inl hb
      | writeRetentionEnforcement floor guard => cases heffect; exact fun b hb => .inl hb

/-- Statements of a holder whose heights no recorded block is above. -/
theorem allHold_of_above {token : String} {statements : List (Statement X H C)} (h : Batched token statements)
    (hw : db.writer = some token)
    (habove : ∀ height ∈ statements.filterMap (·.height), ∀ b ∈ db.blocks, b.number ≤ height) :
    AllHold statements db := by
  induction statements generalizing db with
  | nil => trivial
  | cons s rest ih =>
    refine ⟨fun g hg => ?_, fun r db' hs => ?_⟩
    · rcases h.guarded s List.mem_cons_self with rfl | ⟨g', hg', htoken⟩
      · cases hg
      · rw [Option.mem_def, hg', Option.some.injEq] at hg
        subst hg
        unfold StatementGuard.holds
        rw [hw, htoken, Option.getD_some, decide_eq_true rfl, Bool.true_and]
        cases hheight : g'.aboveTip with
        | none => rfl
        | some height =>
          have hmem : height ∈ (s :: rest).filterMap (·.height) := by
            refine List.mem_filterMap.2 ⟨s, List.mem_cons_self, ?_⟩
            unfold Statement.height
            rw [hg']
            exact hheight
          simpa using habove height hmem
    · have hrest := h.sublist (List.sublist_cons_self s rest)
      have hw' : db'.writer = some token := by
        rw [← hw]
        rcases h.guarded s List.mem_cons_self with rfl | ⟨g, hg, -⟩
        · cases hs
          rfl
        · exact Statement.execute_writer hg hs
      refine ih hrest hw' fun height hheight b hb => ?_
      obtain ⟨s', hs', hsh⟩ := List.mem_filterMap.1 hheight
      rcases Statement.execute_blocks hs b hb with hold | ⟨g, rfl⟩
      · exact habove height (List.mem_filterMap.2 ⟨s', List.mem_cons_of_mem _ hs', hsh⟩) b hold
      · -- a block that was just recorded is at the height of its own statement, and these ascend
        have hown : (Statement.insertBlock b g : Statement X H C).height = some b.number :=
          h.inserts b g List.mem_cons_self
        have hasc := h.ascending
        rw [List.filterMap_cons_some hown] at hasc
        exact (List.pairwise_cons.1 hasc).1 height (List.mem_filterMap.2 ⟨s', hs', hsh⟩)

/-- **A batch applies whole or not at all** where its blocks are on one side of the tip. -/
theorem Flight.whole (h : Batched f.token f.statements) (htoken : f.token ≠ "") (hlevel : f.Level db) :
    f.Whole db := by
  have hblocks : (f.found db).blocks = db.blocks := by
    unfold Flight.found
    split <;> rfl
  by_cases hheld : (f.found db).writer = some f.token
  swap
  · have hclaims : f.claims = false := by
      rw [← Bool.not_eq_true]
      intro hclaims
      apply hheld
      unfold Flight.found
      rw [if_pos hclaims]
    unfold Flight.found at hheld
    rw [hclaims] at hheld
    exact .inl (congrArg Prod.snd (transact_of_not_held h htoken hclaims hheld))
  by_cases hbelow : ∃ height ∈ f.statements.filterMap (·.height), ∃ b ∈ db.blocks, height < b.number
  · -- every guard is held to a height below a recorded block
    have hall := hlevel hbelow
    have hsome : ∀ s ∈ f.statements, ∀ g, s.guard = some g → g.aboveTip ≠ none := by
      refine h.heights.resolve_left fun hnone => ?_
      obtain ⟨height, hmem, -⟩ := hbelow
      rw [List.filterMap_eq_nil_iff.2 hnone] at hmem
      cases hmem
    have hnot : ∀ g : StatementGuard, g.token = f.token → (∃ s ∈ f.statements, s.guard = some g) →
        g.holds (f.found db) = false := by
      rintro g - ⟨s, hs, hg⟩
      obtain ⟨height, hheight⟩ := Option.ne_none_iff_exists'.1 (hsome s hs g hg)
      have hmem : height ∈ f.statements.filterMap (·.height) := by
        refine List.mem_filterMap.2 ⟨s, hs, ?_⟩
        unfold Statement.height
        rw [hg]
        exact hheight
      obtain ⟨b, hb, hlt⟩ := hall height hmem
      unfold StatementGuard.holds
      rw [hheight, Option.all_some, Bool.and_eq_false_iff, hblocks]
      refine .inr ?_
      simpa using ⟨b, hb, hlt⟩
    obtain ⟨results, hbatch⟩ := h.idle hnot
    refine .inr (.inl ?_)
    rw [transact_eq, hbatch]
    exact congrArg Prod.snd (if_pos hheld)
  · refine .inr (.inr (allHold_of_above h hheld fun height hheight b hb => ?_))
    by_contra hlt
    rw [hblocks] at hb
    exact hbelow ⟨height, hheight, b, hb, by omega⟩

end Execute

end Etherfold
