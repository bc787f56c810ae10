import Etherfold.Sqlite.Handles
import Etherfold.Indexed.FullHistory

/-!
# The versioned store next to its full history

The batches of any number of handles, executed one at a time. The same batches without what prunes
write leave tables that hold the full history. The first lack rows of it, each of them closed at or below
how far the prunes have reached in its table.

* `Database.Behind`: tables lack closed rows.
* `Statement.execute_behind`, `Flight.transact_behind`: **what one statement keeps, and so a batch**.
* `Database.standing`: what stood at a height, which statements that spare the height leave alone.
-/

namespace Etherfold

open Versions Transaction

variable {X H C : Type}

/-- A statement of a prune that writes. A handle that retains everything sends none. -/
def Statement.prunes : Statement X H C → Bool
  | .dropVersions _ _ _ | .writeRetentionEnforcement _ _ => true
  | _ => false

/-- The batch without what a prune writes. -/
def Flight.keepingAll (f : Flight X H C) : Flight X H C := { f with statements := f.statements.filter (!·.prunes) }

namespace Statement

/-- How far prunes have reached in each table, once a statement has taken effect: to where the last of the rows it
deletes was closed, and to nothing once a table is emptied. -/
def reach (c : String → Option ℕ) (db : Database X H C) : Statement X H C → String → Option ℕ
  | .dropVersions entity rowids _ => Function.update c entity
      ((((db.tables entity).rows.filter (·.rowid ∈ rowids)).filterMap (·.upper) ++ (c entity).toList).max?)
  | .dropOpenedAbove entity keepUpTo _ => if keepUpTo < 0 then Function.update c entity none else c
  | _ => c

/-- **A prune deletes closed rows**, and a revert opens none that closed where prunes have reached. -/
def AbovePruned (c : String → Option ℕ) (db : Database X H C) : Statement X H C → Prop
  | .dropVersions entity rowids _ => ∀ row ∈ (db.tables entity).rows, row.rowid ∈ rowids → row.upper ≠ none
  | .reopenClosedAbove entity keepUpTo _ => ∀ x ∈ c entity, (x : ℤ) ≤ keepUpTo
  | _ => True

/-- What a statement does shows at no height up to `height`. -/
def Spares (height : ℤ) : Statement X H C → Prop
  | .closeVersion _ _ number _ | .openVersion _ _ _ number _ => height < number
  | .dropOpenedAbove _ keepUpTo _ | .reopenClosedAbove _ keepUpTo _ => height ≤ keepUpTo
  | _ => True

/-- A statement that writes where its guard holds. -/
def lands (db : Database X H C) (s : Statement X H C) : Bool := s.guard.all (·.holds db)

end Statement

namespace Database

/-- Nothing differs but the tables, and the floor a prune recorded. -/
def SameLog (db full : Database X H C) : Prop :=
  { full with tables := db.tables, retentionEnforcement := db.retentionEnforcement } = db

theorem SameLog.blocks {db full : Database X H C} (h : db.SameLog full) : db.blocks = full.blocks := by
  rw [← h]

theorem SameLog.writer {db full : Database X H C} (h : db.SameLog full) : db.writer = full.writer := by
  rw [← h]

theorem SameLog.holds {db full : Database X H C} (h : db.SameLog full) (guard : StatementGuard) :
    guard.holds full = guard.holds db := by
  rw [← h]
  rfl

/-- **Tables lack rows of their full history**, each of them closed at or below `c`. -/
structure Behind (c : String → Option ℕ) (db full : Database X H C) : Prop where
  tables : ∀ entity, Lacking (fun row => PrunedAway (c entity) row.version) (db.tables entity).rows
    (full.tables entity).rows
  nextRowid : ∀ entity, (db.tables entity).nextRowid = (full.tables entity).nextRowid
  unique : ∀ entity, (full.tables entity).openIds.Nodup
  log : db.SameLog full
  floor : full.retentionEnforcement = none

/-- The rows that stood at a height. -/
def standing (height : ℤ) (db : Database X H C) (entity : String) : List (Record X) :=
  ((db.tables entity).rows.filter (·.version.openAt height)).map (·.columns)

variable {c : String → Option ℕ} {db full : Database X H C}

theorem behind_empty (c : String → Option ℕ) : Behind c (empty : Database X H C) empty :=
  ⟨fun _ => .nil, fun _ => rfl, fun _ => List.nodup_nil, rfl, rfl⟩

/-- What is missing is not live. -/
theorem openIds_eq {c : Option ℕ} {table table' : EntityTable X}
    (h : Lacking (fun row => PrunedAway c row.version) table.rows table'.rows) : table.openIds = table'.openIds := by
  unfold EntityTable.openIds
  rw [h.filter_eq fun row hrow => ?_]
  obtain ⟨-, -, upper, hupper, -⟩ := hrow
  have hclosed : row.upper = some upper := hupper
  rw [hclosed]
  rfl

/-- **Where prunes have not reached, the same rows stand.** -/
theorem Behind.filter_openAt (h : Behind c db full) (entity : String) {height : ℤ}
    (hc : ∀ x ∈ c entity, (x : ℤ) ≤ height) :
    (db.tables entity).rows.filter (·.version.openAt height) =
      (full.tables entity).rows.filter (·.version.openAt height) :=
  (h.tables entity).filter_eq fun _ hrow => hrow.not_openAt hc

/-- **A write to one table of both**, as far as the partial index takes it. -/
theorem Behind.checkOpen (h : Behind c db full) {c' : String → Option ℕ} {entity : String} {rows rows' : List (VersionRow X)}
    {next next' : ℕ} (hrows : Lacking (fun row => PrunedAway (c' entity) row.version) rows rows') (hnext : next = next')
    (hc : ∀ e, e ≠ entity → c' e = c e) :
    let db' : Database X H C := { db with tables := Function.update db.tables entity ⟨rows, next⟩ }
    let full' : Database X H C := { full with tables := Function.update full.tables entity ⟨rows', next'⟩ }
    (∃ e, db'.checkOpen entity = .error e ∧ full'.checkOpen entity = .error e) ∨
      db'.checkOpen entity = .ok db' ∧ full'.checkOpen entity = .ok full' ∧ Behind c' db' full' := by
  subst hnext
  intro db' full'
  have hids : (db'.tables entity).openIds = (full'.tables entity).openIds := by
    refine openIds_eq (c := c' entity) ?_
    show Lacking _ (Function.update db.tables entity ⟨rows, next⟩ entity).rows
      (Function.update full.tables entity ⟨rows', next⟩ entity).rows
    rw [Function.update_self, Function.update_self]
    exact hrows
  unfold Database.checkOpen
  rw [hids]
  by_cases hnodup : (full'.tables entity).openIds.Nodup
  · rw [if_pos hnodup, if_pos hnodup]
    refine .inr ⟨rfl, rfl, fun e => ?_, fun e => ?_, fun e => ?_, ?_, h.floor⟩
    · show Lacking _ (Function.update db.tables entity ⟨rows, next⟩ e).rows
        (Function.update full.tables entity ⟨rows', next⟩ e).rows
      by_cases he : e = entity
      · rw [he, Function.update_self, Function.update_self]
        exact hrows
      · rw [Function.update_of_ne he, Function.update_of_ne he, hc e he]
        exact h.tables e
    · show (Function.update db.tables entity ⟨rows, next⟩ e).nextRowid =
        (Function.update full.tables entity ⟨rows', next⟩ e).nextRowid
      by_cases he : e = entity
      · rw [he, Function.update_self, Function.update_self]
      · rw [Function.update_of_ne he, Function.update_of_ne he]
        exact h.nextRowid e
    · by_cases he : e = entity
      · rw [he]
        exact hnodup
      · show (Function.update full.tables entity ⟨rows', next⟩ e).openIds.Nodup
        rw [Function.update_of_ne he]
        exact h.unique e
    · have hlog := h.log
      unfold SameLog at hlog ⊢
      simp only [db', full']
      rw [← hlog]
  · rw [if_neg hnodup, if_neg hnodup]
    exact .inl ⟨_, rfl, rfl⟩

end Database

/-! ### One statement -/

namespace Statement

open Database

variable [DecidableEq H] {c : String → Option ℕ} {db full db' full' : Database X H C}

/-- **What a statement does keeps the tables behind**, unless it prunes. -/
theorem effect_behind (h : db.Behind c full) {s : Statement X H C} (hs : s.prunes = false) (habove : s.AbovePruned c db) :
    (∃ e, s.effect db = .error e ∧ s.effect full = .error e) ∨
      ∃ db' full', s.effect db = .ok db' ∧ s.effect full = .ok full' ∧ db'.Behind (s.reach c db) full' := by
  have hwrite : ∀ {c' : String → Option ℕ} {entity : String} {rows rows' : List (VersionRow X)},
      Lacking (fun row => PrunedAway (c' entity) row.version) rows rows' → (∀ e, e ≠ entity → c' e = c e) →
      (∃ e, (db.setRows entity rows).checkOpen entity = .error e ∧ (full.setRows entity rows').checkOpen entity = .error e) ∨
        ∃ db' full', (db.setRows entity rows).checkOpen entity = .ok db' ∧
          (full.setRows entity rows').checkOpen entity = .ok full' ∧ db'.Behind c' full' := by
    intro c' entity rows rows' hrows hc
    exact (h.checkOpen hrows (h.nextRowid entity) hc).imp_right fun hok => ⟨_, _, hok⟩
  -- a row closed at or below `x` is not written to
  have hclosed : ∀ {x : Option ℕ} {row : VersionRow X}, PrunedAway x row.version → row.upper.isNone = false := by
    rintro x row ⟨-, -, upper, hupper, -⟩
    have hrow : row.upper = some upper := hupper
    rw [hrow]
    rfl
  have hlog := h.log
  cases s with
  | dropVersions entity rowids guard => cases hs
  | writeRetentionEnforcement floor guard => cases hs
  | closeVersion entity id number guard =>
    refine hwrite ((h.tables entity).map _ fun row hrow => ?_) fun e _ => rfl
    rw [hclosed hrow, Bool.and_false, if_neg Bool.false_ne_true]
    exact hrow
  | openVersion entity id columns number guard =>
    have hnext := h.nextRowid entity
    have hrows := (h.tables entity).append (.refl _ [⟨(db.tables entity).nextRowid, id, columns, number, none⟩])
    have hboth := h.checkOpen hrows (congrArg (· + 1) hnext) fun e _ => rfl
    rw [hnext] at hboth
    unfold effect
    dsimp only
    rw [hnext]
    exact hboth.imp_right fun hok => ⟨_, _, hok⟩
  | dropOpenedAbove entity keepUpTo guard =>
    unfold reach
    dsimp only
    split
    · rename_i hneg
      -- nothing opened below zero
      have hempty : ∀ rows : List (VersionRow X), rows.filter (fun row => (row.lower : ℤ) ≤ keepUpTo) = [] := by
        intro rows
        refine List.filter_eq_nil_iff.2 fun row _ => ?_
        rw [decide_eq_true_eq]
        omega
      refine hwrite ?_ fun e he => Function.update_of_ne he _ _
      rw [hempty, hempty]
      exact .nil
    · exact hwrite ((h.tables entity).filter _) fun e _ => rfl
  | reopenClosedAbove entity keepUpTo guard =>
    refine hwrite ((h.tables entity).map _ fun row hrow => ?_) fun e _ => rfl
    obtain ⟨x, hx, upper, hupper, hle⟩ := hrow
    have hrow : row.upper = some upper := hupper
    have hx' := habove x hx
    rw [hrow, Option.any_some, if_neg (by rw [decide_eq_true_eq]; omega)]
    exact ⟨x, hx, upper, hupper, hle⟩
  | insertBlock block guard =>
    unfold effect
    dsimp only
    rw [hlog.blocks]
    split
    · exact .inl ⟨_, rfl, rfl⟩
    split
    · exact .inl ⟨_, rfl, rfl⟩
    · exact .inr ⟨_, _, rfl, rfl, h.tables, h.nextRowid, h.unique, by rw [SameLog, ← hlog], h.floor⟩
  | claimWriter token => exact .inr ⟨_, _, rfl, rfl, h.tables, h.nextRowid, h.unique, by rw [SameLog, ← hlog], h.floor⟩
  | heldWriter => exact .inr ⟨_, _, rfl, rfl, h⟩
  | latestBlock => exact .inr ⟨_, _, rfl, rfl, h⟩
  | writeCursor key value guard =>
    exact .inr ⟨_, _, rfl, rfl, h.tables, h.nextRowid, h.unique, by rw [SameLog, ← hlog], h.floor⟩
  | clearCursor key guard =>
    exact .inr ⟨_, _, rfl, rfl, h.tables, h.nextRowid, h.unique, by rw [SameLog, ← hlog], h.floor⟩
  | writeSeamRecord key value guard =>
    exact .inr ⟨_, _, rfl, rfl, h.tables, h.nextRowid, h.unique, by rw [SameLog, ← hlog], h.floor⟩
  | clearSeamRecord key guard =>
    exact .inr ⟨_, _, rfl, rfl, h.tables, h.nextRowid, h.unique, by rw [SameLog, ← hlog], h.floor⟩
  | dropBlocksAbove keepUpTo guard =>
    exact .inr ⟨_, _, rfl, rfl, h.tables, h.nextRowid, h.unique, by rw [SameLog, ← hlog], h.floor⟩
  | bumpRevertSequence guard =>
    exact .inr ⟨_, _, rfl, rfl, h.tables, h.nextRowid, h.unique, by rw [SameLog, ← hlog], h.floor⟩

/-- **A prune takes closed rows only**; the full history keeps them. -/
theorem effect_dropVersions (h : db.Behind c full) {entity : String} {rowids : List ℕ} {guard : StatementGuard}
    (habove : AbovePruned c db (.dropVersions entity rowids guard : Statement X H C)) :
    ∃ db', effect db (.dropVersions entity rowids guard) = .ok db' ∧
      db'.Behind (reach c db (.dropVersions entity rowids guard : Statement X H C)) full := by
  set dropped := (((db.tables entity).rows.filter (·.rowid ∈ rowids)).filterMap (·.upper) ++ (c entity).toList).max?
    with hdropped
  have hmax : ∀ x, x ∈ ((db.tables entity).rows.filter (·.rowid ∈ rowids)).filterMap (·.upper) ++ (c entity).toList →
      ∃ y ∈ dropped, x ≤ y := by
    intro x hx
    cases hm : dropped with
    | none =>
      rw [hdropped, List.max?_eq_none_iff] at hm
      rw [hm] at hx
      cases hx
    | some y =>
      rw [hdropped, List.max?_eq_some_iff] at hm
      exact ⟨y, rfl, hm.2 x hx⟩
  have hrows : Lacking (fun row => PrunedAway dropped row.version)
      ((db.tables entity).rows.filter (·.rowid ∉ rowids)) (full.tables entity).rows := by
    refine ((h.tables entity).mono fun row hrow => ?_).drop fun row hrow hgone => ?_
    · obtain ⟨x, hx, upper, hupper, hle⟩ := hrow
      obtain ⟨y, hy, hxy⟩ := hmax x (List.mem_append_right _ (Option.mem_toList.2 hx))
      exact ⟨y, hy, upper, hupper, hle.trans hxy⟩
    · have hin : row.rowid ∈ rowids := by simpa using hgone
      obtain ⟨upper, hupper⟩ := Option.ne_none_iff_exists'.1 (habove row hrow hin)
      have hmem : row ∈ (db.tables entity).rows.filter (·.rowid ∈ rowids) := List.mem_filter.2 ⟨hrow, by simpa using hin⟩
      obtain ⟨y, hy, hle⟩ := hmax upper (List.mem_append_left _ (List.mem_filterMap.2 ⟨row, hmem, hupper⟩))
      exact ⟨y, hy, upper, hupper, hle⟩
  have hopen : (db.setRows entity ((db.tables entity).rows.filter (·.rowid ∉ rowids))).checkOpen entity =
      .ok (db.setRows entity ((db.tables entity).rows.filter (·.rowid ∉ rowids))) := by
    refine if_pos ?_
    have hids : ((db.setRows entity ((db.tables entity).rows.filter (·.rowid ∉ rowids))).tables entity).openIds =
        (full.tables entity).openIds := by
      refine openIds_eq (c := dropped) ?_
      rw [rows_setRows, if_pos rfl]
      exact hrows
    rw [hids]
    exact h.unique entity
  refine ⟨_, hopen, fun e => ?_, fun e => ?_, h.unique, ?_, h.floor⟩
  · unfold reach
    dsimp only
    rw [rows_setRows]
    by_cases he : e = entity
    · rw [if_pos he, he, Function.update_self]
      exact hrows
    · rw [if_neg he, Function.update_of_ne he]
      exact h.tables e
  · rw [nextRowid_setRows]
    exact h.nextRowid e
  · have hlog := h.log
    unfold SameLog setRows at *
    rw [← hlog]

/-- How far prunes have reached once a statement is executed. -/
def prunedTo (c : String → Option ℕ) (db : Database X H C) (s : Statement X H C) : String → Option ℕ :=
  if s.lands db then s.reach c db else c

omit [DecidableEq H] in
theorem lands_eq (h : db.Behind c full) (s : Statement X H C) : s.lands full = s.lands db := by
  unfold lands
  cases s.guard with
  | none => rfl
  | some guard => exact h.log.holds guard

theorem execute_eq (s : Statement X H C) (db : Database X H C) : s.execute db =
    if s.lands db then
      (s.effect db).map fun db' => (match s with
        | .heldWriter => .token db.writer
        | .latestBlock => .block db.latest
        | _ => .nothing, db')
    else .ok (.nothing, db) := by
  unfold execute lands
  cases s <;> first | rfl | (dsimp only; split <;> first | rfl | (cases effect db _ <;> rfl))

/-- **What one statement keeps**, unless it prunes: the same answer, and tables that stay behind. -/
theorem execute_behind (h : db.Behind c full) {s : Statement X H C} (hs : s.prunes = false)
    (habove : s.lands db = true → s.AbovePruned c db) :
    (∃ e, s.execute db = .error e ∧ s.execute full = .error e) ∨
      ∃ r db' full', s.execute db = .ok (r, db') ∧ s.execute full = .ok (r, full') ∧
        db'.Behind (s.prunedTo c db) full' := by
  have hlatest : db.latest = full.latest := by
    unfold latest
    rw [h.log.blocks]
  unfold prunedTo
  rw [execute_eq, execute_eq, lands_eq h, hlatest, h.log.writer]
  by_cases hlands : s.lands db = true
  · rw [if_pos hlands, if_pos hlands, if_pos hlands]
    rcases effect_behind h hs (habove hlands) with ⟨e, hbad, hbad'⟩ | ⟨db', full', hok, hok', hbehind⟩
    · rw [hbad, hbad']
      exact .inl ⟨e, rfl, rfl⟩
    · rw [hok, hok']
      exact .inr ⟨_, db', full', rfl, rfl, hbehind⟩
  · rw [if_neg hlands, if_neg hlands, if_neg hlands]
    exact .inr ⟨_, db, full, rfl, rfl, h⟩

/-- **What a prune's statement keeps.** -/
theorem execute_prune (h : db.Behind c full) {s : Statement X H C} (hs : s.prunes = true)
    (habove : s.lands db = true → s.AbovePruned c db) :
    ∃ r db', s.execute db = .ok (r, db') ∧ db'.Behind (s.prunedTo c db) full := by
  cases s with
  | dropVersions entity rowids guard =>
    unfold prunedTo
    rw [execute_eq]
    by_cases hlands : (.dropVersions entity rowids guard : Statement X H C).lands db = true
    · rw [if_pos hlands, if_pos hlands]
      obtain ⟨db', hok, hbehind⟩ := effect_dropVersions h (habove hlands)
      rw [hok]
      exact ⟨_, db', rfl, hbehind⟩
    · rw [if_neg hlands, if_neg hlands]
      exact ⟨_, db, rfl, h⟩
  | writeRetentionEnforcement floor guard =>
    have hlog := h.log
    unfold prunedTo
    rw [execute_eq]
    split
    · refine ⟨_, { db with retentionEnforcement := some floor }, rfl, h.tables, h.nextRowid, h.unique, ?_, h.floor⟩
      unfold SameLog at hlog ⊢
      rw [← hlog]
    · exact ⟨_, db, rfl, h⟩
  | _ => cases hs

/-! ### What stood at a height -/

omit [DecidableEq H] in
theorem standing_setRows (db : Database X H C) (height : ℤ) (entity : String) {rows : List (VersionRow X)}
    (h : (rows.filter (·.version.openAt height)).map (·.columns) = db.standing height entity) :
    (db.setRows entity rows).standing height = db.standing height := by
  funext e
  unfold Database.standing
  rw [rows_setRows]
  split
  · rename_i he
    rw [he]
    exact h
  · rfl

omit [DecidableEq H] in
/-- Rows whose upper end moves above the height. -/
theorem standing_map (rows : List (VersionRow X)) (height : ℤ) {f : VersionRow X → VersionRow X}
    (hcolumns : ∀ row, (f row).columns = row.columns)
    (hopen : ∀ row, (f row).version.openAt height = row.version.openAt height) :
    ((rows.map f).filter (·.version.openAt height)).map (·.columns) =
      (rows.filter (·.version.openAt height)).map (·.columns) := by
  rw [List.filter_map, List.map_map]
  have hsame : (fun row : VersionRow X => row.version.openAt height) ∘ f = fun row => row.version.openAt height :=
    funext hopen
  rw [hsame]
  exact List.map_congr_left fun row _ => hcolumns row

omit [DecidableEq H] in
theorem eq_of_checkOpen {entity : String} (h : full.checkOpen entity = .ok full') : full' = full := by
  unfold checkOpen at h
  split at h
  · cases h
    rfl
  · cases h

/-- **A statement that spares a height leaves what stood there.** -/
theorem standing_effect {height : ℤ} {s : Statement X H C} (hs : s.prunes = false) (hspares : s.Spares height)
    (hok : s.effect full = .ok full') : full'.standing height = full.standing height := by
  cases s with
  | dropVersions entity rowids guard => cases hs
  | writeRetentionEnforcement floor guard => cases hs
  | closeVersion entity id number guard =>
    have hlt : height < number := hspares
    rw [eq_of_checkOpen hok]
    refine standing_setRows full height entity (standing_map _ height (fun row => ?_) fun row => ?_)
    · split <;> rfl
    · split
      · rename_i hlive
        have hnone : row.upper = none := by
          rw [Bool.and_eq_true, Option.isNone_iff_eq_none] at hlive
          exact hlive.2
        unfold VersionRow.version Version.openAt
        simp [hnone, hlt]
      · rfl
  | openVersion entity id columns number guard =>
    have hlt : height < number := hspares
    rw [eq_of_checkOpen hok]
    have hnew : (⟨columns, number, none⟩ : Version (Record X)).openAt height = false := by
      unfold Version.openAt
      simp [hlt]
    funext e
    unfold Database.standing
    dsimp only
    by_cases he : e = entity
    · rw [he, Function.update_self, List.filter_append]
      unfold VersionRow.version at hnew ⊢
      simp [hnew]
    · rw [Function.update_of_ne he]
  | dropOpenedAbove entity keepUpTo guard =>
    have hle : height ≤ keepUpTo := hspares
    rw [eq_of_checkOpen hok]
    refine standing_setRows full height entity (congrArg _ ?_)
    rw [List.filter_filter]
    refine List.filter_congr fun row _ => ?_
    unfold VersionRow.version Version.openAt
    by_cases hlow : (row.lower : ℤ) ≤ height
    · simp [hlow.trans hle]
    · simp [hlow]
  | reopenClosedAbove entity keepUpTo guard =>
    have hle : height ≤ keepUpTo := hspares
    rw [eq_of_checkOpen hok]
    refine standing_setRows full height entity (standing_map _ height (fun row => ?_) fun row => ?_)
    · split <;> rfl
    · split
      · rename_i habove
        obtain ⟨upper, hupper, hlt⟩ := (Option.any_eq_true _ _).1 habove
        rw [decide_eq_true_eq] at hlt
        unfold VersionRow.version Version.openAt
        simp [hupper, show height < (upper : ℤ) by omega]
      · rfl
  | insertBlock block guard =>
    unfold effect at hok
    dsimp only at hok
    split at hok
    · cases hok
    split at hok
    · cases hok
    cases hok
    rfl
  | _ =>
    cases hok
    rfl

theorem standing_execute {height : ℤ} {s : Statement X H C} (hs : s.prunes = false)
    (hspares : s.lands full = true → s.Spares height) {r : SQLResult H} (hok : s.execute full = .ok (r, full')) :
    full'.standing height = full.standing height := by
  rw [execute_eq] at hok
  split at hok
  · rename_i hlands
    cases heffect : s.effect full with
    | error e =>
      rw [heffect] at hok
      cases hok
    | ok full'' =>
      rw [heffect] at hok
      cases hok
      exact standing_effect hs (hspares hlands) heffect
  · cases hok
    rfl

end Statement

/-! ### Batches -/

section Batches

open Statement

variable [DecidableEq H] {c : String → Option ℕ} {db full : Database X H C}

/-- How far prunes have reached once statements are executed one after another. -/
def prunedToAll (c : String → Option ℕ) : List (Statement X H C) → Database X H C → String → Option ℕ
  | [], _ => c
  | s :: rest, db =>
    match s.execute db with
    | .error _ => c
    | .ok (_, db') => prunedToAll (s.prunedTo c db) rest db'

/-- Every statement that takes effect keeps above what is pruned. -/
def AbovePrunedAll (c : String → Option ℕ) : List (Statement X H C) → Database X H C → Prop
  | [], _ => True
  | s :: rest, db => (s.lands db = true → s.AbovePruned c db) ∧
    match s.execute db with
    | .error _ => True
    | .ok (_, db') => AbovePrunedAll (s.prunedTo c db) rest db'

/-- Every statement that takes effect spares a height. -/
def SparesAll (height : ℤ) : List (Statement X H C) → Database X H C → Prop
  | [], _ => True
  | s :: rest, db => (s.lands db = true → s.Spares height) ∧
    match s.execute db with
    | .error _ => True
    | .ok (_, db') => SparesAll height rest db'

/-- **What the statements of a batch keep.** -/
theorem batch_behind (h : db.Behind c full) (statements : List (Statement X H C)) (habove : AbovePrunedAll c statements db) :
    (∃ e, batch execute statements db = .error e ∧ batch execute (statements.filter (!·.prunes)) full = .error e) ∨
      ∃ rs rs' db' full', batch execute statements db = .ok (rs, db') ∧
        batch execute (statements.filter (!·.prunes)) full = .ok (rs', full') ∧
        db'.Behind (prunedToAll c statements db) full' ∧
        ∀ height, SparesAll height statements db → full'.standing height = full.standing height := by
  induction statements generalizing c db full with
  | nil => exact .inr ⟨[], [], db, full, rfl, rfl, h, fun _ _ => rfl⟩
  | cons s rest ih =>
    obtain ⟨hs, habove⟩ := habove
    have hrest : ∀ r db', s.execute db = .ok (r, db') → AbovePrunedAll (s.prunedTo c db) rest db' := by
      intro r db' hok
      rw [hok] at habove
      exact habove
    have hspare : ∀ height, SparesAll height (s :: rest) db → ∀ r db', s.execute db = .ok (r, db') →
        SparesAll height rest db' := by
      intro height hspares r db' hok
      have hthen := hspares.2
      rw [hok] at hthen
      exact hthen
    have hpruned : ∀ r db', s.execute db = .ok (r, db') →
        prunedToAll c (s :: rest) db = prunedToAll (s.prunedTo c db) rest db' := by
      intro r db' hok
      show (match s.execute db with
        | .error _ => c
        | .ok (_, db') => prunedToAll (s.prunedTo c db) rest db') = _
      rw [hok]
    cases hprunes : s.prunes with
    | true =>
      rw [List.filter_cons_of_neg (by simp [hprunes])]
      obtain ⟨r, db₁, hok, hbehind⟩ := execute_prune h hprunes hs
      rcases ih hbehind (hrest r db₁ hok) with ⟨e, hbad, hbad'⟩ | ⟨rs, rs', db', full', hdb, hfull, hboth, hspared⟩
      · refine .inl ⟨e, ?_, hbad'⟩
        unfold batch
        rw [hok]
        dsimp only
        rw [hbad]
      · rw [hpruned r db₁ hok]
        exact .inr ⟨r :: rs, rs', db', full', batch_cons_ok hok hdb, hfull, hboth,
          fun height hspares => hspared height (hspare height hspares r db₁ hok)⟩
    | false =>
      rw [List.filter_cons_of_pos (by simp [hprunes])]
      rcases execute_behind h hprunes hs with ⟨e, hbad, hbad'⟩ | ⟨r, db₁, full₁, hok, hok', hbehind⟩
      · exact .inl ⟨e, batch_cons_error hbad _, batch_cons_error hbad' _⟩
      rcases ih hbehind (hrest r db₁ hok) with ⟨e, hbad, hbad'⟩ | ⟨rs, rs', db', full', hdb, hfull, hboth, hspared⟩
      · refine .inl ⟨e, ?_, ?_⟩
        · unfold batch
          rw [hok]
          dsimp only
          rw [hbad]
        · unfold batch
          rw [hok']
          dsimp only
          rw [hbad']
      · rw [hpruned r db₁ hok]
        refine .inr ⟨r :: rs, r :: rs', db', full', batch_cons_ok hok hdb, batch_cons_ok hok' hfull, hboth,
          fun height hspares => (hspared height (hspare height hspares r db₁ hok)).trans ?_⟩
        exact standing_execute hprunes (fun hlands => hspares.1 (by rw [← lands_eq h s]; exact hlands)) hok'

namespace Flight

/-- How far prunes have reached once a batch is executed. A batch that fails has not happened. -/
def prunedTo (c : String → Option ℕ) (f : Flight X H C) (db : Database X H C) : String → Option ℕ :=
  match batch execute f.statements (f.found db) with
  | .error _ => c
  | .ok _ => prunedToAll c f.statements (f.found db)

theorem transact_snd (f : Flight X H C) (db : Database X H C) : (f.transact db).2 =
    match batch execute f.statements (f.found db) with
    | .error _ => db
    | .ok (_, db') => db' := by
  rw [transact_eq]
  cases batch execute f.statements (f.found db) with
  | error e => rfl
  | ok p =>
    dsimp only
    split <;> rfl

/-- **What one batch keeps.** -/
theorem transact_behind (h : db.Behind c full) (f : Flight X H C) (habove : AbovePrunedAll c f.statements (f.found db)) :
    (f.transact db).2.Behind (f.prunedTo c db) (f.keepingAll.transact full).2 ∧
      ∀ height, SparesAll height f.statements (f.found db) →
        (f.keepingAll.transact full).2.standing height = full.standing height := by
  have hfound : (f.found db).Behind c (f.keepingAll.found full) := by
    unfold Flight.found
    show (if f.claims then _ else _ : Database X H C).Behind c (if f.claims then _ else _)
    have hlog := h.log
    split
    · refine ⟨h.tables, h.nextRowid, h.unique, ?_, h.floor⟩
      unfold Database.SameLog at hlog ⊢
      rw [← hlog]
      rfl
    · exact h
  have hstanding : ∀ height, (f.keepingAll.found full).standing height = full.standing height := by
    intro height
    unfold Flight.found
    split <;> rfl
  have hstatements : f.keepingAll.statements = f.statements.filter (!·.prunes) := rfl
  rw [transact_snd, transact_snd, hstatements]
  unfold Flight.prunedTo
  rcases batch_behind hfound f.statements habove with ⟨e, hbad, hbad'⟩ | ⟨rs, rs', db', full', hok, hok', hboth, hspared⟩
  · rw [hbad, hbad']
    exact ⟨h, fun _ _ => rfl⟩
  · rw [hok, hok']
    exact ⟨hboth, fun height hspares => (hspared height hspares).trans (hstanding height)⟩

end Flight

/-- A database once batches are executed, one after another. -/
def Database.run (db : Database X H C) (flights : List (Flight X H C)) : Database X H C :=
  flights.foldl (fun db f => (f.transact db).2) db

/-- The full history of the same batches. -/
def Database.runKeepingAll (db : Database X H C) (flights : List (Flight X H C)) : Database X H C :=
  db.run (flights.map (·.keepingAll))

/-- How far prunes have reached in a run. -/
def Database.prunedTo (c : String → Option ℕ) : List (Flight X H C) → Database X H C → String → Option ℕ
  | [], _ => c
  | f :: flights, db => Database.prunedTo (f.prunedTo c db) flights (f.transact db).2

/-- Every batch of a run keeps above what is pruned. -/
def Database.AbovePruned (c : String → Option ℕ) : List (Flight X H C) → Database X H C → Prop
  | [], _ => True
  | f :: flights, db => AbovePrunedAll c f.statements (f.found db) ∧
    Database.AbovePruned (f.prunedTo c db) flights (f.transact db).2

/-- Every batch of a run spares a height. -/
def Database.Spares (height : ℤ) : List (Flight X H C) → Database X H C → Prop
  | [], _ => True
  | f :: flights, db => SparesAll height f.statements (f.found db) ∧ Database.Spares height flights (f.transact db).2

/-- **What a run keeps.** -/
theorem Database.behind_run (h : db.Behind c full) (flights : List (Flight X H C))
    (habove : Database.AbovePruned c flights db) :
    (db.run flights).Behind (Database.prunedTo c flights db) (full.runKeepingAll flights) ∧
      ∀ height, Database.Spares height flights db →
        (full.runKeepingAll flights).standing height = full.standing height := by
  induction flights generalizing c db full with
  | nil => exact ⟨h, fun _ _ => rfl⟩
  | cons f flights ih =>
    obtain ⟨hf, hflights⟩ := habove
    obtain ⟨hbehind, hspared⟩ := Flight.transact_behind h f hf
    obtain ⟨hrun, hrunSpared⟩ := ih hbehind hflights
    exact ⟨hrun, fun height hspares => (hrunSpared height hspares.2).trans (hspared height hspares.1)⟩

/-! ### Runs in parts -/

theorem Database.run_append (db : Database X H C) (flights flights' : List (Flight X H C)) :
    db.run (flights ++ flights') = (db.run flights).run flights' := by
  unfold Database.run
  rw [List.foldl_append]

theorem Database.prunedTo_append (flights flights' : List (Flight X H C)) :
    Database.prunedTo c (flights ++ flights') db =
      Database.prunedTo (Database.prunedTo c flights db) flights' (db.run flights) := by
  induction flights generalizing c db with
  | nil => rfl
  | cons f flights ih => exact ih

theorem Database.abovePruned_append {flights flights' : List (Flight X H C)} :
    Database.AbovePruned c (flights ++ flights') db ↔ Database.AbovePruned c flights db ∧
      Database.AbovePruned (Database.prunedTo c flights db) flights' (db.run flights) := by
  induction flights generalizing c db with
  | nil =>
    rw [List.nil_append]
    exact ⟨fun h => ⟨trivial, h⟩, fun h => h.2⟩
  | cons f flights ih =>
    rw [List.cons_append]
    show _ ∧ Database.AbovePruned _ (flights ++ flights') _ ↔ _
    rw [ih, ← and_assoc]
    exact Iff.rfl

/-- What spares a height does so as far as it has come. -/
theorem Database.spares_append {height : ℤ} {flights flights' : List (Flight X H C)}
    (h : Database.Spares height (flights ++ flights') db) : Database.Spares height flights db := by
  induction flights generalizing db with
  | nil => trivial
  | cons f flights ih => exact ⟨h.1, ih h.2⟩

end Batches

end Etherfold
