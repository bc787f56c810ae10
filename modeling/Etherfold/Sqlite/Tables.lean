import Etherfold.Ledger.Above
import Etherfold.Sqlite.Store

/-!
# What the statements do to one key

The versions of a key are the rows of its entity's table with its id. A statement is read as
what it does to them; where they are chained no write runs into the partial index.

* `batch_mutations`: **the statements of a block's mutations write every key** as the
  reference store does.
* `batch_revertEntities`: **the statements of a revert cut every key**.
* `dropVersions_ok`: what one pass of a prune deletes.
-/

namespace Etherfold

open Versions Transaction

variable {X H C : Type}

namespace Database

/-- The versions of a key, in the order they were written. -/
def versionsOf (db : Database X H C) (key : EntityKey) : List (Version (Record X)) :=
  ((db.tables key.entity).rows.filter (·.id = key.id)).map (·.version)

/-- Every key's versions are chained, and row ids are used once. -/
structure Sound (db : Database X H C) : Prop where
  chained : ∀ key, Chained (db.versionsOf key)
  rowids : ∀ entity, (db.tables entity).rows.Pairwise fun a b => a.rowid < b.rowid
  below : ∀ entity, ∀ row ∈ (db.tables entity).rows, row.rowid < (db.tables entity).nextRowid

theorem sound_empty : (Database.empty : Database X H C).Sound :=
  ⟨fun _ => ⟨List.Pairwise.nil, fun _ h => by cases h⟩, fun _ => List.Pairwise.nil, fun _ _ h => by cases h⟩

/-- **No key has two live versions**, so the partial index holds. -/
theorem openIds_nodup {db : Database X H C} (h : ∀ key, Chained (db.versionsOf key)) (entity : String) :
    (db.tables entity).openIds.Nodup := by
  rw [List.nodup_iff_count_le_one]
  intro id
  have hlive := (h ⟨entity, id⟩).length_live_le
  unfold versionsOf at hlive
  rw [List.filter_map, List.length_map, List.filter_filter] at hlive
  unfold EntityTable.openIds
  rw [List.count_eq_countP, List.countP_map, List.countP_filter, List.countP_eq_length_filter]
  refine le_of_eq_of_le (congrArg List.length (List.filter_congr fun row _ => ?_)) hlive
  simp [VersionRow.version, Bool.and_comm, Bool.beq_eq_decide_eq]

theorem checkOpen_ok {db : Database X H C} (h : ∀ key, Chained (db.versionsOf key)) (entity : String) :
    db.checkOpen entity = .ok db :=
  if_pos (openIds_nodup h entity)

@[simp] theorem rows_setRows (db : Database X H C) (entity : String) (rows : List (VersionRow X)) (e : String) :
    ((db.setRows entity rows).tables e).rows = if e = entity then rows else (db.tables e).rows := by
  unfold setRows
  by_cases h : e = entity <;> simp [h]

@[simp] theorem nextRowid_setRows (db : Database X H C) (entity : String) (rows : List (VersionRow X)) (e : String) :
    ((db.setRows entity rows).tables e).nextRowid = (db.tables e).nextRowid := by
  unfold setRows
  by_cases h : e = entity <;> simp [h]

/-- Rewriting rows one by one rewrites the versions of their keys. -/
theorem versionsOf_setRows_map (db : Database X H C) (entity : String) {f : VersionRow X → VersionRow X}
    (hid : ∀ row, (f row).id = row.id) (key : EntityKey) :
    (db.setRows entity ((db.tables entity).rows.map f)).versionsOf key =
      if key.entity = entity then
        ((db.tables entity).rows.filter (·.id = key.id)).map fun row => (f row).version
      else db.versionsOf key := by
  unfold versionsOf
  rw [rows_setRows]
  split
  · rw [List.filter_map, List.map_map]
    simp only [Function.comp_def, hid]
  · rfl

theorem versionsOf_setRows_filter (db : Database X H C) (entity : String) (p : VersionRow X → Bool)
    (key : EntityKey) :
    (db.setRows entity ((db.tables entity).rows.filter p)).versionsOf key =
      if key.entity = entity then
        (((db.tables entity).rows.filter (·.id = key.id)).filter p).map (·.version)
      else db.versionsOf key := by
  unfold versionsOf
  rw [rows_setRows]
  split
  · rw [List.filter_filter, List.filter_filter]
    simp only [Bool.and_comm]
  · rfl

/-- Rewritten rows keep their row ids. -/
theorem Sound.setRows_map {db : Database X H C} (h : db.Sound) {entity : String} {f : VersionRow X → VersionRow X}
    (hrowid : ∀ row, (f row).rowid = row.rowid)
    (hchained : ∀ key, Chained ((db.setRows entity ((db.tables entity).rows.map f)).versionsOf key)) :
    (db.setRows entity ((db.tables entity).rows.map f)).Sound := by
  refine ⟨hchained, fun e => ?_, fun e row hrow => ?_⟩
  · rw [rows_setRows]
    split
    · rw [List.pairwise_map]
      simpa only [hrowid] using h.rowids entity
    · exact h.rowids e
  · rw [rows_setRows] at hrow
    rw [nextRowid_setRows]
    split at hrow
    · rename_i he
      obtain ⟨r, hr, rfl⟩ := List.mem_map.1 hrow
      rw [hrowid, he]
      exact h.below entity r hr
    · exact h.below e row hrow

theorem Sound.setRows_filter {db : Database X H C} (h : db.Sound) (entity : String) (p : VersionRow X → Bool) :
    (db.setRows entity ((db.tables entity).rows.filter p)).Sound := by
  refine ⟨fun key => ?_, fun e => ?_, fun e row hrow => ?_⟩
  · rw [versionsOf_setRows_filter]
    split
    · rename_i he
      apply (h.chained key).sublist
      unfold versionsOf
      rw [he]
      exact List.filter_sublist.map _
    · exact h.chained key
  · rw [rows_setRows]
    split
    · exact (h.rowids entity).filter _
    · exact h.rowids e
  · rw [rows_setRows] at hrow
    rw [nextRowid_setRows]
    split at hrow
    · rename_i he
      rw [he]
      exact h.below entity row (List.mem_of_mem_filter hrow)
    · exact h.below e row hrow

end Database

/-! ### Executing a guarded statement -/

section Execute

variable [DecidableEq H] {db : Database X H C} {statement : Statement X H C} {g : StatementGuard}

theorem Statement.execute_of_holds (hg : statement.guard = some g) (h : g.holds db = true) :
    statement.execute db = match statement.effect db with
      | .ok db => .ok (.nothing, db)
      | .error violation => .error violation := by
  cases statement <;> cases hg <;> exact if_pos h

/-- **A statement whose guard does not hold does nothing.** -/
theorem Statement.execute_of_not_holds (hg : statement.guard = some g) (h : g.holds db = false) :
    statement.execute db = .ok (.nothing, db) := by
  have hnot : ¬((some g).all (·.holds db)) = true := by
    rw [Option.all_some, h]
    exact Bool.false_ne_true
  cases statement <;> cases hg <;> exact if_neg hnot

/-- Statements whose guard does not hold make a transaction that does nothing. -/
theorem batch_of_not_holds {statements : List (Statement X H C)} (hg : ∀ s ∈ statements, s.guard = some g)
    (h : g.holds db = false) :
    batch Statement.execute statements db = .ok (statements.map fun _ => .nothing, db) :=
  batch_of_idle fun s hs => Statement.execute_of_not_holds (hg s hs) h

/-- The statements a mutation resolves to. -/
def plannedStatements (number : ℕ) (guard : StatementGuard) :
    Mutation EntityKey (Record X) → List (Statement X H C)
  | .upsert key row => [.closeVersion key.entity key.id number guard, .openVersion key.entity key.id row number guard]
  | .delete key => [.closeVersion key.entity key.id number guard]

omit [DecidableEq H] in
/-- A mutation is refused where the reference store refuses it. -/
theorem mutationStatements_eq (declarations : List NormalizedEntity) (number : ℕ) (guard : StatementGuard)
    (m : EntityMutation X) : (mutationStatements declarations number guard m : Except _ (List (Statement X H C))) =
      (plan declarations m).map (plannedStatements number guard) := by
  cases m with
  | upsert entity id values =>
    unfold mutationStatements plan entityKey
    dsimp only
    cases mustGet declarations entity with
    | error e => rfl
    | ok declaration =>
      simp only [bind, Except.bind]
      cases idValues declaration.name declaration.id id with
      | error e => rfl
      | ok ids =>
        dsimp only [Except.map]
        cases encodeFieldValues declaration values <;> rfl
  | delete entity id =>
    unfold mutationStatements plan entityKey
    dsimp only
    cases mustGet declarations entity with
    | error e => rfl
    | ok declaration =>
      simp only [bind, Except.bind]
      cases idValues declaration.name declaration.id id <;> rfl

/-- What the statements leave alone. -/
def Database.SameBooks (db db' : Database X H C) : Prop := { db' with tables := db.tables } = db

omit [DecidableEq H] in
theorem Database.SameBooks.trans {db₁ db₂ db₃ : Database X H C} (h : db₁.SameBooks db₂) (h' : db₂.SameBooks db₃) :
    db₁.SameBooks db₃ := by
  unfold Database.SameBooks at *
  rw [← h, ← h']

omit [DecidableEq H] in
theorem Database.SameBooks.blocks {db db' : Database X H C} (h : db.SameBooks db') : db.blocks = db'.blocks := by
  rw [← h]

omit [DecidableEq H] in
theorem Database.SameBooks.cursor {db db' : Database X H C} (h : db.SameBooks db') : db.cursor = db'.cursor := by
  rw [← h]

omit [DecidableEq H] in
theorem Database.SameBooks.writer {db db' : Database X H C} (h : db.SameBooks db') : db.writer = db'.writer := by
  rw [← h]

omit [DecidableEq H] in
theorem Database.SameBooks.holds {db db' : Database X H C} (h : db.SameBooks db') (g : StatementGuard) :
    g.holds db' = g.holds db := by
  rw [← h]
  rfl

/-- Close the live version of a key. -/
theorem closeVersion_ok (hs : db.Sound) (key : EntityKey) {number : ℕ}
    (hw : ∀ key, Within (· ≤ number) (db.versionsOf key)) (h : g.holds db = true) :
    ∃ db', (Statement.closeVersion key.entity key.id number g).execute db = .ok (.nothing, db') ∧
      db.SameBooks db' ∧ db'.Sound ∧ ∀ k, db'.versionsOf k =
        if key = k then closeLive number (db.versionsOf k) else db.versionsOf k := by
  set f : VersionRow X → VersionRow X := fun row =>
    if row.id = key.id && row.upper.isNone then { row with upper := some number } else row with hf
  have hid : ∀ row, (f row).id = row.id := by
    intro row
    rw [hf]
    dsimp only
    split <;> rfl
  have hrowid : ∀ row, (f row).rowid = row.rowid := by
    intro row
    rw [hf]
    dsimp only
    split <;> rfl
  have hversions : ∀ k, (db.setRows key.entity ((db.tables key.entity).rows.map f)).versionsOf k =
      if key = k then closeLive number (db.versionsOf k) else db.versionsOf k := by
    intro k
    rw [Database.versionsOf_setRows_map db key.entity hid]
    by_cases hk : key = k
    · subst hk
      rw [if_pos rfl, if_pos rfl, closeLive_eq_map (hs.chained key)]
      unfold Database.versionsOf
      rw [List.map_map]
      refine List.map_congr_left fun row hrow => ?_
      have hrid := (List.mem_filter.1 hrow).2
      rw [decide_eq_true_eq] at hrid
      rw [hf]
      cases hu : row.upper <;> simp [VersionRow.version, hrid, hu]
    · rw [if_neg hk]
      split
      · rename_i he
        unfold Database.versionsOf
        rw [he]
        refine List.map_congr_left fun row hrow => ?_
        have hrid := (List.mem_filter.1 hrow).2
        rw [decide_eq_true_eq] at hrid
        have hne : row.id ≠ key.id := by
          intro heq
          apply hk
          cases key
          cases k
          simp only at he hrid heq
          rw [he, ← heq, hrid]
        rw [hf]
        simp [hne]
      · rfl
  have hchained : ∀ k, Chained ((db.setRows key.entity ((db.tables key.entity).rows.map f)).versionsOf k) := by
    intro k
    rw [hversions]
    split
    · have hclose := (hs.chained k).write (hw k) none
      simpa [write] using hclose
    · exact hs.chained k
  refine ⟨db.setRows key.entity ((db.tables key.entity).rows.map f), ?_, rfl, hs.setRows_map hrowid hchained,
    hversions⟩
  rw [Statement.execute_of_holds rfl h]
  have heffect : (Statement.closeVersion key.entity key.id number g).effect db =
      (db.setRows key.entity ((db.tables key.entity).rows.map f)).checkOpen key.entity := rfl
  rw [heffect, Database.checkOpen_ok hchained]

/-- Open a version of a key that has none live. -/
theorem openVersion_ok (hs : db.Sound) (key : EntityKey) {number : ℕ} (row : Record X)
    (hchained : Chained (db.versionsOf key ++ [⟨row, number, none⟩])) (h : g.holds db = true) :
    ∃ db', (Statement.openVersion key.entity key.id row number g).execute db = .ok (.nothing, db') ∧
      db.SameBooks db' ∧ db'.Sound ∧ ∀ k, db'.versionsOf k =
        if key = k then db.versionsOf k ++ [⟨row, number, none⟩] else db.versionsOf k := by
  set table := db.tables key.entity with htable
  set db' : Database X H C := { db with
    tables := Function.update db.tables key.entity
      ⟨table.rows ++ [⟨table.nextRowid, key.id, row, number, none⟩], table.nextRowid + 1⟩ } with hdb
  have hversions : ∀ k, db'.versionsOf k =
      if key = k then db.versionsOf k ++ [⟨row, number, none⟩] else db.versionsOf k := by
    intro k
    unfold Database.versionsOf
    rw [hdb]
    dsimp only
    by_cases he : k.entity = key.entity
    · rw [he, Function.update_self]
      dsimp only
      rw [List.filter_append, List.map_append, ← htable]
      by_cases hk : key = k
      · subst hk
        simp [VersionRow.version]
      · have hid : key.id ≠ k.id := by
          intro heq
          apply hk
          cases key
          cases k
          simp only at he heq
          rw [he, heq]
        simp [hk, hid]
    · have hk : ¬key = k := fun heq => he (by rw [heq])
      rw [Function.update_of_ne he, if_neg hk]
  have hall : ∀ k, Chained (db'.versionsOf k) := by
    intro k
    rw [hversions]
    split
    · rename_i hk
      rw [← hk]
      exact hchained
    · exact hs.chained k
  refine ⟨db', ?_, rfl, ⟨hall, fun e => ?_, fun e => ?_⟩, hversions⟩
  · rw [Statement.execute_of_holds rfl h]
    have heffect : (Statement.openVersion key.entity key.id row number g).effect db = db'.checkOpen key.entity := rfl
    rw [heffect, Database.checkOpen_ok hall]
  · rw [hdb]
    dsimp only
    by_cases he : e = key.entity
    · rw [he, Function.update_self]
      refine List.pairwise_append.2 ⟨hs.rowids _, List.pairwise_singleton _ _, fun a ha b hb => ?_⟩
      rw [List.mem_singleton.1 hb]
      exact hs.below _ a ha
    · rw [Function.update_of_ne he]
      exact hs.rowids e
  · rw [hdb]
    dsimp only
    by_cases he : e = key.entity
    · rw [he, Function.update_self]
      intro r hr
      show r.rowid < table.nextRowid + 1
      rcases List.mem_append.1 hr with hr | hr
      · have hlt := hs.below _ r hr
        rw [htable]
        omega
      · rw [List.mem_singleton.1 hr]
        exact Nat.lt_succ_self _
    · rw [Function.update_of_ne he]
      exact hs.below e

/-- **The statements of a mutation write its key** and leave the others. -/
theorem batch_mutation (hs : db.Sound) (m : Mutation EntityKey (Record X)) {number : ℕ}
    (hw : ∀ key, Within (· ≤ number) (db.versionsOf key)) (h : g.holds db = true) :
    ∃ rs db', batch Statement.execute (plannedStatements number g m) db = .ok (rs, db') ∧
      db.SameBooks db' ∧ db'.Sound ∧ ∀ key, db'.versionsOf key =
        if m.key = key then write number m.values (db.versionsOf key) else db.versionsOf key := by
  cases m with
  | delete key =>
    obtain ⟨db', hexec, hbooks, hsound, hversions⟩ := closeVersion_ok hs key hw h
    refine ⟨_, db', batch_cons_ok hexec rfl, hbooks, hsound, fun k => ?_⟩
    rw [hversions]
    simp [write, Mutation.values, Mutation.key]
  | upsert key row =>
    obtain ⟨db₁, hclose, hbooks₁, hsound₁, hversions₁⟩ := closeVersion_ok hs key hw h
    have hchained : Chained (db₁.versionsOf key ++ [⟨row, number, none⟩]) := by
      rw [hversions₁, if_pos rfl]
      exact (hs.chained key).write (hw key) (some row)
    obtain ⟨db₂, hopen, hbooks₂, hsound₂, hversions₂⟩ := openVersion_ok hsound₁ key row hchained
      ((hbooks₁.holds g).trans h)
    refine ⟨_, db₂, batch_cons_ok hclose (batch_cons_ok hopen rfl), hbooks₁.trans hbooks₂, hsound₂, fun k => ?_⟩
    rw [hversions₂, hversions₁]
    by_cases hk : key = k <;> simp [hk, write, Mutation.values, Mutation.key]

/-- **The statements of a block's mutations write every key** as the reference store does. -/
theorem batch_mutations (hs : db.Sound) (planned : List (Mutation EntityKey (Record X))) {number : ℕ}
    (hw : ∀ key, Within (· ≤ number) (db.versionsOf key)) (h : g.holds db = true) :
    ∃ rs db', batch Statement.execute (planned.map (plannedStatements number g)).flatten db = .ok (rs, db') ∧
      db.SameBooks db' ∧ db'.Sound ∧ ∀ key, db'.versionsOf key = writes number key planned (db.versionsOf key) := by
  induction planned generalizing db with
  | nil => exact ⟨[], db, rfl, rfl, hs, fun _ => rfl⟩
  | cons m planned ih =>
    obtain ⟨rs₁, db₁, hbatch₁, hbooks₁, hsound₁, hversions₁⟩ := batch_mutation hs m hw h
    have hw₁ : ∀ key, Within (· ≤ number) (db₁.versionsOf key) := by
      intro key
      rw [hversions₁]
      split
      · exact (hw key).write le_rfl _
      · exact hw key
    obtain ⟨rs₂, db₂, hbatch₂, hbooks₂, hsound₂, hversions₂⟩ := ih hsound₁ hw₁ ((hbooks₁.holds g).trans h)
    refine ⟨_, db₂, batch_append hbatch₁ hbatch₂, hbooks₁.trans hbooks₂, hsound₂, fun key => ?_⟩
    rw [hversions₂, hversions₁]
    rfl

/-! ### Rolling back -/

/-- Drop what was opened above a height, then open again what was closed above it. -/
theorem batch_revertEntity (hs : db.Sound) (entity : String) (keepUpTo : ℤ) (h : g.holds db = true) :
    ∃ rs db', batch Statement.execute
        [.dropOpenedAbove entity keepUpTo g, .reopenClosedAbove entity keepUpTo g] db = .ok (rs, db') ∧
      db.SameBooks db' ∧ db'.Sound ∧ ∀ key, db'.versionsOf key =
        if key.entity = entity then cutAt keepUpTo (db.versionsOf key) else db.versionsOf key := by
  set db₁ := db.setRows entity ((db.tables entity).rows.filter fun row => (row.lower : ℤ) ≤ keepUpTo) with hdb₁
  have hsound₁ : db₁.Sound := hs.setRows_filter entity _
  have hdrop : (Statement.dropOpenedAbove entity keepUpTo g).execute db = .ok (.nothing, db₁) := by
    rw [Statement.execute_of_holds rfl h]
    have heffect : (Statement.dropOpenedAbove entity keepUpTo g).effect db = db₁.checkOpen entity := rfl
    rw [heffect, Database.checkOpen_ok hsound₁.chained]
  set f : VersionRow X → VersionRow X := fun row =>
    if row.upper.any fun x : ℕ => keepUpTo < (x : ℤ) then { row with upper := none } else row with hf
  have hid : ∀ row, (f row).id = row.id := by
    intro row
    rw [hf]
    dsimp only
    split <;> rfl
  have hrowid : ∀ row, (f row).rowid = row.rowid := by
    intro row
    rw [hf]
    dsimp only
    split <;> rfl
  have hversion : ∀ row, (f row).version = row.version.reopen keepUpTo := by
    intro row
    rw [hf]
    unfold Version.reopen VersionRow.version
    dsimp only
    split <;> rfl
  have hversions : ∀ key, (db₁.setRows entity ((db₁.tables entity).rows.map f)).versionsOf key =
      if key.entity = entity then cutAt keepUpTo (db.versionsOf key) else db.versionsOf key := by
    intro key
    rw [Database.versionsOf_setRows_map db₁ entity hid, hdb₁, Database.rows_setRows, if_pos rfl,
      Database.versionsOf_setRows_filter]
    split
    · rename_i he
      unfold Database.versionsOf cutAt
      rw [he, List.filter_filter, List.filter_map, List.map_map, List.filter_filter]
      simp only [hversion, Function.comp_def, Bool.and_comm]
      rfl
    · rfl
  have hchained : ∀ key, Chained ((db₁.setRows entity ((db₁.tables entity).rows.map f)).versionsOf key) := by
    intro key
    rw [hversions]
    split
    · exact (hs.chained key).cutAt keepUpTo
    · exact hs.chained key
  have hreopen : (Statement.reopenClosedAbove entity keepUpTo g).execute db₁ =
      .ok (.nothing, db₁.setRows entity ((db₁.tables entity).rows.map f)) := by
    have hholds : g.holds db₁ = true := h
    rw [Statement.execute_of_holds rfl hholds]
    have heffect : (Statement.reopenClosedAbove entity keepUpTo g).effect db₁ =
        (db₁.setRows entity ((db₁.tables entity).rows.map f)).checkOpen entity := rfl
    rw [heffect, Database.checkOpen_ok hchained]
  exact ⟨_, _, batch_cons_ok hdrop (batch_cons_ok hreopen rfl), rfl, hsound₁.setRows_map hrowid hchained, hversions⟩

/-- **The statements of a revert cut every key** of a declared entity. -/
theorem batch_revertEntities (hs : db.Sound) (entities : List NormalizedEntity) (keepUpTo : ℤ)
    (h : g.holds db = true) :
    ∃ rs db', batch Statement.execute (entities.flatMap fun entity =>
        [.dropOpenedAbove entity.name keepUpTo g, .reopenClosedAbove entity.name keepUpTo g]) db = .ok (rs, db') ∧
      db.SameBooks db' ∧ db'.Sound ∧ ∀ key, db'.versionsOf key =
        if key.entity ∈ entities.map (·.name) then cutAt keepUpTo (db.versionsOf key) else db.versionsOf key := by
  induction entities generalizing db with
  | nil => exact ⟨[], db, rfl, rfl, hs, fun _ => rfl⟩
  | cons entity entities ih =>
    obtain ⟨rs₁, db₁, hbatch₁, hbooks₁, hsound₁, hversions₁⟩ := batch_revertEntity hs entity.name keepUpTo h
    obtain ⟨rs₂, db₂, hbatch₂, hbooks₂, hsound₂, hversions₂⟩ := ih hsound₁ ((hbooks₁.holds g).trans h)
    refine ⟨_, db₂, batch_append hbatch₁ hbatch₂, hbooks₁.trans hbooks₂, hsound₂, fun key => ?_⟩
    rw [hversions₂, hversions₁, List.map_cons]
    simp only [List.mem_cons]
    by_cases he : key.entity = entity.name
    · -- a table named twice is cut twice, which is cutting it once
      rw [if_pos he, if_pos (Or.inl he), cutAt_cutAt le_rfl, ite_self]
    · simp [he]

/-! ### Deleting what is out of reach -/

/-- The versions of a table a floor puts out of reach. -/
def EntityTable.prunable (table : EntityTable X) (floor : ℕ) : List (VersionRow X) :=
  table.rows.filter fun row => row.upper.any (· ≤ floor)

omit [DecidableEq H] in
/-- The rows a statement of a prune names, and those it leaves. -/
theorem prunableVersions_split (hs : db.Sound) (entity : String) (floor limit : ℕ) :
    (∀ row ∈ (db.tables entity).rows, row.rowid ∈ prunableVersions (db.tables entity) floor limit →
      row ∈ (db.tables entity).prunable floor) ∧
    (prunableVersions (db.tables entity) floor limit).length = min limit ((db.tables entity).prunable floor).length ∧
    (((db.tables entity).prunable floor).filter
        (·.rowid ∉ prunableVersions (db.tables entity) floor limit)).length +
      (prunableVersions (db.tables entity) floor limit).length = ((db.tables entity).prunable floor).length := by
  set rows := (db.tables entity).rows
  set prunable := (db.tables entity).prunable floor with hprunable
  set sorted := prunable.insertionSort fun a b => a.upper.getD 0 ≤ b.upper.getD 0 with hsorted
  have hfound : prunableVersions (db.tables entity) floor limit = (sorted.take limit).map (·.rowid) := rfl
  have hperm : sorted.Perm prunable := List.perm_insertionSort _ _
  have hdistinct : ∀ a ∈ rows, ∀ b ∈ rows, a.rowid = b.rowid → a = b := by
    intro a ha b hb heq
    by_contra hne
    have : Std.Symm fun a b : VersionRow X => a.rowid ≠ b.rowid := ⟨fun _ _ => Ne.symm⟩
    exact ((hs.rowids entity).imp Nat.ne_of_lt).forall ha hb hne heq
  have hsub : ∀ a ∈ sorted, a ∈ rows := fun a ha => List.mem_of_mem_filter (hperm.subset ha)
  have hlength : (prunableVersions (db.tables entity) floor limit).length = min limit prunable.length := by
    rw [hfound, List.length_map, List.length_take, hperm.length_eq]
  refine ⟨fun row hrow hin => ?_, hlength, ?_⟩
  · rw [hfound] at hin
    obtain ⟨r, hr, heq⟩ := List.mem_map.1 hin
    have hr' := List.mem_of_mem_take hr
    rw [← hdistinct r (hsub r hr') row hrow heq]
    exact hperm.subset hr'
  · -- in the order they are found: the first are named, the others are not
    have hnodup : sorted.Nodup := by
      apply hperm.nodup_iff.2
      exact ((hs.rowids entity).imp fun hlt heq => by rw [heq] at hlt; exact lt_irrefl _ hlt).filter _
    have hleft : (sorted.filter (·.rowid ∉ prunableVersions (db.tables entity) floor limit)).length =
        (sorted.drop limit).length := by
      conv_lhs => rw [← List.take_append_drop limit sorted]
      rw [List.filter_append]
      have htake : (sorted.take limit).filter (·.rowid ∉ prunableVersions (db.tables entity) floor limit) = [] := by
        rw [List.filter_eq_nil_iff]
        intro a ha
        have hin : a.rowid ∈ (sorted.take limit).map (·.rowid) := List.mem_map.2 ⟨a, ha, rfl⟩
        rw [hfound]
        exact fun hout => of_decide_eq_true hout hin
      have hdrop : (sorted.drop limit).filter (·.rowid ∉ prunableVersions (db.tables entity) floor limit) =
          sorted.drop limit := by
        rw [List.filter_eq_self]
        intro a ha
        rw [decide_eq_true_eq, hfound]
        intro hin
        obtain ⟨r, hr, heq⟩ := List.mem_map.1 hin
        have hsame := hdistinct r (hsub r (List.mem_of_mem_take hr)) a (hsub a (List.mem_of_mem_drop ha)) heq
        subst hsame
        exact List.disjoint_take_drop hnodup le_rfl hr ha
      rw [htake, hdrop, List.nil_append]
    rw [hlength, ← (hperm.filter _).length_eq, hleft, List.length_drop, hperm.length_eq]
    omega

/-- Delete versions by row id. -/
theorem dropVersions_ok (hs : db.Sound) (entity : String) (floor limit : ℕ) (h : g.holds db = true) :
    ∃ db', (Statement.dropVersions entity (prunableVersions (db.tables entity) floor limit) g).execute db =
        .ok (.nothing, db') ∧ db.SameBooks db' ∧ db'.Sound ∧
      (∀ key, Thinned (· ≤ floor) (db'.versionsOf key) (db.versionsOf key)) ∧
      (∀ e, ((db'.tables e).prunable floor).length + (if e = entity then
        (prunableVersions (db.tables entity) floor limit).length else 0) = ((db.tables e).prunable floor).length) ∧
      ∀ e, (db'.tables e).rows.length ≤ (db.tables e).rows.length := by
  obtain ⟨hnamed, -, hleft⟩ := prunableVersions_split hs entity floor limit
  set found := prunableVersions (db.tables entity) floor limit
  set p : VersionRow X → Bool := fun row => row.rowid ∉ found with hp
  have hsound := hs.setRows_filter entity p
  refine ⟨db.setRows entity ((db.tables entity).rows.filter p), ?_, rfl, hsound, fun key => ?_, fun e => ?_,
    fun e => ?_⟩
  · rw [Statement.execute_of_holds rfl h]
    have heffect : (Statement.dropVersions entity found g).effect db =
        (db.setRows entity ((db.tables entity).rows.filter p)).checkOpen entity := rfl
    rw [heffect, Database.checkOpen_ok hsound.chained]
  · rw [Database.versionsOf_setRows_filter]
    split
    · rename_i he
      unfold Database.versionsOf
      rw [he]
      refine ⟨List.filter_sublist.map _, fun v hv hgone => ?_⟩
      obtain ⟨row, hrow, rfl⟩ := List.mem_map.1 hv
      have hin : row.rowid ∈ found := by
        by_contra hout
        exact hgone (List.mem_map.2 ⟨row, List.mem_filter.2 ⟨hrow, decide_eq_true hout⟩, rfl⟩)
      have hreach := List.mem_filter.1 (hnamed row (List.mem_of_mem_filter hrow) hin)
      obtain ⟨x, hx, hle⟩ := (Option.any_eq_true _ _).1 hreach.2
      exact ⟨x, hx, by simpa using hle⟩
    · exact .refl _ _
  · unfold EntityTable.prunable at hleft ⊢
    rw [Database.rows_setRows]
    split
    · rename_i he
      rw [he, ← hleft, List.filter_filter, List.filter_filter]
      simp only [hp, Bool.and_comm]
    · rfl
  · rw [Database.rows_setRows]
    split
    · rename_i he
      rw [he]
      exact List.length_filter_le _ _
    · rfl

end Execute

end Etherfold
