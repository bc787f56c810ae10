import Etherfold.Indexed.Rows

/-!
# The indexed store refines the reference store

The object stores and the reference store record the same blocks and hold, of every key whose
ids are well formed, the same versions above some height. A call is taken by both or by
neither.

* `IndexedDBStateStore.Refines`: the two stores side by side.
* `Refines.applyBlock`, `Refines.revertTo`, `Refines.prune`, `Refines.writeCursor`: **every
  call keeps it**.
-/

namespace Etherfold

open Versions

variable {X H C : Type} [DecidableEq H] {declarations : List NormalizedEntity}

/-- The object stores next to the reference store, of which they hold the same versions above `c`. -/
structure IndexedDB.Mirrors (db : IndexedDB X H C) (s : EntityStore X H C) (c : ℤ) : Prop where
  wellFormed : s.WellFormed
  sound : db.Sound
  blocks : db.blocks.entries = s.blocks.map fun b => (b.number, b)
  cursors : db.cursors = s.cursors
  rows : ∀ row, rowVersions db.versions row ≠ [] → ∃ key : EntityKey, key.WellFormed ∧ row = rowKey key
  keys : ∀ key, versionsOf s.rows key ≠ [] → key.WellFormed
  within : ∀ row, Within (fun n => ∃ b ∈ s.blocks, b.number = n) (rowVersions db.versions row)
  alike : ∀ key : EntityKey, key.WellFormed →
    AlikeAbove c (rowVersions db.versions (rowKey key)) (versionsOf s.rows key)

/-- **The two stores side by side**, under one configuration. -/
structure IndexedDBStateStore.Refines (t : IndexedDBStateStore X H C) (s : EntityStore X H C) (c : ℤ) : Prop where
  mirrors : t.db.Mirrors s c
  holds : t.claimed = true → t.db.writer = some t.token
  provided : t.provided = s.provided
  finalityDepth : t.finalityDepth = s.finalityDepth

/-- Every id column of the mutations is well formed. -/
def WellFormedIds (declarations : List NormalizedEntity) (mutations : List (EntityMutation X)) : Prop :=
  ∀ m ∈ mutations, ∀ planned, plan declarations m = .ok planned → planned.key.WellFormed

instance (mutations : List (EntityMutation X)) : Decidable (WellFormedIds declarations mutations) :=
  decidable_of_iff (∀ m ∈ mutations, ∀ planned ∈ (plan declarations m).toOption, planned.key.WellFormed) <| by
    refine forall₂_congr fun m _ => forall_congr' fun planned => imp_congr_left ?_
    cases plan declarations m <;> simp [Except.toOption, eq_comm]

variable {db db' : IndexedDB X H C} {t : IndexedDBStateStore X H C} {s s' : EntityStore X H C} {c : ℤ}

namespace IndexedDB

omit [DecidableEq H] in
theorem Mirrors.tip (h : db.Mirrors s c) : db.tip = s.tip := by
  have hasc : (s.blocks.map (·.number)).Pairwise (· < ·) := List.pairwise_map.2 h.wellFormed.ascending
  unfold IndexedDB.tip
  rw [h.blocks, h.wellFormed.tip, List.getLast?_map, Option.map_map]
  cases hlast : s.blocks.getLast? with
  | none =>
    rw [List.getLast?_eq_none_iff.1 hlast]
    rfl
  | some b =>
    obtain ⟨init, hinit⟩ := List.getLast?_eq_some_iff.1 hlast
    rw [Option.map_some, eq_comm, List.max?_eq_some_iff]
    refine ⟨List.mem_map_of_mem (f := fun b : BlockPointer H => b.number) (List.mem_of_getLast? hlast), fun n hn => ?_⟩
    rw [hinit, List.map_append, List.pairwise_append] at hasc
    rw [hinit, List.map_append] at hn
    rcases List.mem_append.1 hn with hn | hn
    · exact (hasc.2.2 n hn b.number (by simp)).le
    · simp only [List.map_cons, List.map_nil, List.mem_singleton] at hn
      rw [hn]
      rfl

omit [DecidableEq H] in
/-- The writer and the rest of the seam are no part of what is mirrored. -/
theorem Mirrors.books (h : db.Mirrors s c) (hcurrent : db'.current = db.current)
    (hversions : db'.versions = db.versions) (hblocks : db'.blocks = db.blocks) (hcursors : db'.cursors = db.cursors) :
    db'.Mirrors s c := by
  refine ⟨h.wellFormed, ⟨?_, ?_, ?_⟩, ?_, ?_, ?_, h.keys, ?_, ?_⟩
  · rw [hversions]
    exact h.sound.keyed
  · rw [hversions]
    exact h.sound.chained
  · rw [hversions, hcurrent]
    exact h.sound.live
  · rw [hblocks]
    exact h.blocks
  · rw [hcursors]
    exact h.cursors
  · rw [hversions]
    exact h.rows
  · rw [hversions]
    exact h.within
  · rw [hversions]
    exact h.alike

omit [DecidableEq H] in
/-- A recorded height is found. -/
theorem Mirrors.get_blocks (h : db.Mirrors s c) (number : ℕ) :
    (db.blocks.get number).isSome = true ↔ ∃ b ∈ s.blocks, b.number = number := by
  rw [Option.isSome_iff_exists]
  refine exists_congr fun b => ?_
  rw [ObjectStore.get_eq_some_iff, h.blocks, List.mem_map]
  constructor
  · rintro ⟨b', hb', heq⟩
    injection heq with hnumber hblock
    rw [← hblock]
    exact ⟨hb', hnumber⟩
  · rintro ⟨hb, hnumber⟩
    exact ⟨b, hb, by rw [hnumber]⟩

/-- **A block passes the checks** where it is above everything recorded, and new. -/
theorem Mirrors.assertRecordable (h : db.Mirrors s c) (block : BlockPointer H) :
    db.assertRecordable block = .ok () ↔ ∀ b ∈ s.blocks, b.number < block.number ∧ b.hash ≠ block.hash := by
  have hfind : db.blocks.entries.find? (·.2.hash = block.hash) = none ↔ ∀ b ∈ s.blocks, b.hash ≠ block.hash := by
    rw [List.find?_eq_none, h.blocks]
    simp
  have htip : db.tip.filter (block.number ≤ ·) = none ↔ ∀ b ∈ s.blocks, b.number < block.number := by
    rw [h.tip]
    constructor
    · intro hnone b hb
      obtain ⟨tip, htip, hle⟩ := h.wellFormed.le_tip hb
      rw [htip, Option.filter_some] at hnone
      have hlt : ¬block.number ≤ tip := by
        intro hle'
        rw [if_pos (by simpa using hle')] at hnone
        cases hnone
      omega
    · intro hall
      refine Option.filter_eq_none_iff.2 fun tip htip hle => ?_
      rw [h.wellFormed.tip, List.max?_eq_some_iff] at htip
      obtain ⟨b, hb, hbt⟩ := List.mem_map.1 htip.1
      have hlt := hall b hb
      rw [decide_eq_true_eq] at hle
      omega
  unfold IndexedDB.assertRecordable
  by_cases hnumber : (db.blocks.get block.number).isSome = true
  · rw [if_pos hnumber]
    obtain ⟨b, hb, heq⟩ := (h.get_blocks block.number).1 hnumber
    refine ⟨fun hok => (by cases hok), fun hall => ?_⟩
    have hlt := (hall b hb).1
    omega
  · rw [if_neg hnumber]
    cases hhash : db.blocks.entries.find? (·.2.hash = block.hash) with
    | some recorded =>
      refine ⟨fun hok => (by cases hok), fun hall => ?_⟩
      rw [hfind.2 fun b hb => (hall b hb).2] at hhash
      cases hhash
    | none =>
      dsimp only
      cases habove : db.tip.filter (block.number ≤ ·) with
      | some tip =>
        refine ⟨fun hok => (by cases hok), fun hall => ?_⟩
        rw [htip.2 fun b hb => (hall b hb).1] at habove
        cases habove
      | none => exact ⟨fun _ b hb => ⟨htip.1 habove b hb, hfind.1 hhash b hb⟩, fun _ => rfl⟩

/-- **What a block writes**, next to what the reference store makes of it. -/
theorem Mirrors.writeBlock (h : db.Mirrors s c) {call : AppliedCall X H C}
    {planned : List (Mutation EntityKey (Record X))} (hids : ∀ m ∈ planned, m.key.WellFormed)
    (happly : MemoryStateStore.applyBlock s call.block planned call.cursor = .ok s') :
    (db.writeBlock call.block planned call.cursor).Mirrors s' c ∧
      (db.writeBlock call.block planned call.cursor).writer = db.writer := by
  obtain ⟨hbelow, hblocks, -, hrows, -⟩ := MemoryStateStore.applyBlock_ok h.wellFormed happly
  have hwf' := h.wellFormed.applyBlock happly
  -- every height named so far is that of a block, and at or below this one
  set N : ℕ → Prop := fun n => ∃ b ∈ s'.blocks, b.number = n with hN
  have hle : ∀ n, N n → n ≤ call.block.number := by
    intro n hn
    obtain ⟨b, hb, rfl⟩ := hn
    rw [hblocks] at hb
    rcases List.mem_append.1 hb with hb | hb
    · exact (hbelow b hb).1.le
    · rw [List.mem_singleton.1 hb]
  have hsame : N call.block.number := ⟨call.block, by rw [hblocks]; simp, rfl⟩
  have hgrow : ∀ vs : List (Version (Record X)), Within (fun n => ∃ b ∈ s.blocks, b.number = n) vs → Within N vs := by
    intro vs hvs v hv
    have hmono : ∀ n, (∃ b ∈ s.blocks, b.number = n) → N n := fun n ⟨b, hb, hbn⟩ =>
      ⟨b, by rw [hblocks]; exact List.mem_append_left _ hb, hbn⟩
    exact ⟨hmono _ (hvs v hv).1, fun x hx => hmono _ ((hvs v hv).2 x hx)⟩
  obtain ⟨hsound, hbooks, hversions⟩ := h.sound.applyMutations hsame hle (fun row => hgrow _ (h.within row)) planned
  set db₁ := planned.foldl (IndexedDB.applyMutation call.block.number) db with hdb₁
  have halike : ∀ key : EntityKey, key.WellFormed → Within N (rowVersions db₁.versions (rowKey key)) ∧
      AlikeAbove c (rowVersions db₁.versions (rowKey key)) (versionsOf s'.rows key) := by
    intro key hkey
    rw [hversions, hrows]
    exact overwrites_alike hkey hsame hle hids (h.sound.chained _) (h.wellFormed.chained key)
      (hgrow _ (h.within _)) (hgrow _ (h.wellFormed.within key)) (h.alike key hkey)
  have hrow : ∀ row, rowVersions db₁.versions row ≠ [] → ∃ key : EntityKey, key.WellFormed ∧ row = rowKey key := by
    intro row hne
    by_cases hnamed : ∃ m ∈ planned, row = rowKey m.key
    · obtain ⟨m, hm, heq⟩ := hnamed
      exact ⟨m.key, hids m hm, heq⟩
    · rw [hversions, overwrites_of_notMem fun m hm heq => hnamed ⟨m, hm, heq⟩] at hne
      exact h.rows row hne
  have hmirrors : (db.writeBlock call.block planned call.cursor).Mirrors s' c := by
    refine ⟨hwf', ⟨hsound.keyed, hsound.chained, hsound.live⟩, ?_, ?_, hrow, fun key hne => ?_, fun row => ?_,
      fun key hkey => (halike key hkey).2⟩
    · -- the block goes last
      have hput : (db.writeBlock call.block planned call.cursor).blocks = db.blocks.put call.block.number call.block := by
        have hb := hbooks.blocks
        unfold IndexedDB.writeBlock
        dsimp only
        rw [← hdb₁, hb]
      have hbefore : ∀ e ∈ db.blocks.entries, e.1 < call.block.number := by
        intro e he
        rw [h.blocks] at he
        obtain ⟨b, hb, rfl⟩ := List.mem_map.1 he
        exact (hbelow b hb).1
      rw [hput, hblocks, List.map_append, ← h.blocks]
      exact ObjectStore.entries_put_last hbefore call.block
    · have hcursors := (MemoryStateStore.afterBlock happly).cursors
      rw [hcursors, ← h.cursors, ← hbooks.cursors]
      unfold IndexedDB.writeBlock
      cases call.cursor <;> rfl
    · by_cases hnamed : ∃ m ∈ planned, m.key = key
      · obtain ⟨m, hm, rfl⟩ := hnamed
        exact hids m hm
      · rw [hrows, writes_of_notMem fun m hm heq => hnamed ⟨m, hm, heq⟩] at hne
        exact h.keys key hne
    · by_cases hne : rowVersions db₁.versions row = []
      · intro v hv
        have hin : v ∈ rowVersions db₁.versions row := hv
        rw [hne] at hin
        cases hin
      · obtain ⟨key, hkey, rfl⟩ := hrow row hne
        exact (halike key hkey).1
  exact ⟨hmirrors, hbooks.writer⟩

omit [DecidableEq H] in
/-- **A revert** cuts every key in both stores. -/
theorem Mirrors.revertTo (h : db.Mirrors s c) {keepUpTo : ℤ} (hk : c ≤ keepUpTo ∨ keepUpTo < 0) :
    Mirrors { (db.dropOpened keepUpTo).reopenClosed keepUpTo with
      blocks := db.blocks.filter fun e => (e.1 : ℤ) ≤ keepUpTo
      revertSequence := some (db.revertSequence.getD 0 + 1) } (s.revertTo keepUpTo) c := by
  obtain ⟨hsound, hbooks⟩ := h.sound.revert keepUpTo
  have hcut := h.sound.rowVersions_revert keepUpTo
  refine ⟨h.wellFormed.revertTo keepUpTo, ⟨hsound.keyed, hsound.chained, hsound.live⟩, ?_, ?_, fun row hne => ?_,
    fun key hne => ?_, fun row => ?_, fun key hkey => ?_⟩
  · show db.blocks.entries.filter _ = (s.blocks.filter _).map _
    rw [h.blocks, List.filter_map]
    rfl
  · exact hbooks.cursors.trans h.cursors
  · refine h.rows row fun hnil => hne ?_
    have hrow := hcut row
    rw [hnil] at hrow
    exact hrow
  · refine h.keys key fun hnil => hne ?_
    rw [MemoryStateStore.versionsOf_revertTo h.wellFormed.nodup, hnil]
    rfl
  · have hkept : ∀ n : ℕ, (∃ b ∈ s.blocks, b.number = n) ∧ (n : ℤ) ≤ keepUpTo →
        ∃ b ∈ (s.revertTo keepUpTo).blocks, b.number = n := by
      intro n ⟨⟨b, hb, hbn⟩, hle⟩
      exact ⟨b, List.mem_filter.2 ⟨hb, by rw [hbn]; exact decide_eq_true hle⟩, hbn⟩
    have hwithin := (h.within row).cutAt keepUpTo
    rw [← hcut row] at hwithin
    exact fun v hv => ⟨hkept _ (hwithin v hv).1, fun x hx => hkept _ ((hwithin v hv).2 x hx)⟩
  · have hrow := hcut (rowKey key)
    show AlikeAbove c (rowVersions ((db.dropOpened keepUpTo).reopenClosed keepUpTo).versions (rowKey key)) _
    rw [hrow, MemoryStateStore.versionsOf_revertTo h.wellFormed.nodup]
    rcases hk with hk | hk
    · exact (h.alike key hkey).cutAt hk
    · rw [cutAt_of_neg hk, cutAt_of_neg hk]
      exact .refl _ _

/-- The height above which the stores are alike once they are pruned. -/
def pruneCut (db : IndexedDB X H C) (s : EntityStore X H C) (maxVersions : Option ℕ) (c : ℤ) : ℤ :=
  match s.floor with
  | none => c
  | some floor =>
    if maxVersions.any (· < max (db.prunable floor).length (s.unreachable floor).length) then max c floor else c

omit [DecidableEq H] in
/-- **A prune** deletes in both stores versions that ended at or below its floor, and the same
ones unless its budget is short. -/
theorem Mirrors.prune (h : db.Mirrors s c) {floor : ℕ} (hf : s.floor = some floor) (maxVersions : Option ℕ) :
    (db.pruneVersions floor maxVersions).1.Mirrors (s.prune maxVersions).1 (db.pruneCut s maxVersions c) := by
  obtain ⟨hsound, hbooks, hthin, hall⟩ := h.sound.pruneVersions floor maxVersions
  obtain ⟨⟨rows, heq, -⟩, hthinS⟩ := MemoryStateStore.prune_thinned h.wellFormed.nodup maxVersions
  have hsub := fun row => (hthin row).sublist.subset
  refine ⟨h.wellFormed.prune maxVersions, hsound, ?_, ?_, fun row hne => ?_, fun key hne => ?_, fun row v hv => ?_,
    fun key hkey => ?_⟩
  · rw [hbooks.blocks, heq]
    exact h.blocks
  · rw [hbooks.cursors, heq]
    exact h.cursors
  · refine h.rows row fun hnil => hne ?_
    exact List.eq_nil_of_subset_nil (hnil ▸ hsub row)
  · refine h.keys key fun hnil => hne ?_
    exact List.eq_nil_of_subset_nil (hnil ▸ (hthinS key).sublist.subset)
  · rw [heq]
    exact h.within row v (hsub row hv)
  · unfold pruneCut
    rw [hf]
    dsimp only
    split
    · -- a budget was short: what is left may differ, up to the floor
      exact MemoryStateStore.alike_prune h.wellFormed hf maxVersions (h.alike key hkey) (hthin (rowKey key))
    · rename_i henough
      have hbudget : ∀ budget ∈ maxVersions, max (db.prunable floor).length (s.unreachable floor).length ≤ budget := by
        intro budget hmem
        by_contra hless
        apply henough
        rw [Option.any_eq_true]
        exact ⟨budget, hmem, decide_eq_true (by omega)⟩
      refine MemoryStateStore.alike_prune_whole h.wellFormed hf
        (fun budget hmem => (le_max_right _ _).trans (hbudget budget hmem)) (h.alike key hkey) (hthin (rowKey key))
        (hall ?_ (rowKey key))
      rw [Option.all_eq_true]
      exact fun budget hmem => decide_eq_true ((le_max_left _ _).trans (hbudget budget hmem))

end IndexedDB

namespace IndexedDBStateStore

/-- Nothing but the claim has changed. -/
def Untouched (t t' : IndexedDBStateStore X H C) : Prop :=
  t' = { t with db := { t.db with writer := t'.db.writer }, claimed := t'.claimed }

omit [DecidableEq H] in
/-- The one writer claims or finds its claim, and the rest stands. -/
theorem Refines.claim (h : t.Refines s c) :
    t.claimOrCheck = .ok { t.db with writer := some t.token } := by
  unfold claimOrCheck
  cases hclaimed : t.claimed with
  | false => rfl
  | true =>
    have hw := h.holds hclaimed
    rw [if_neg (by simp), if_pos hw, ← hw]

omit [DecidableEq H] in
/-- The store after a transaction that left the object stores next to `s'`. -/
theorem Refines.committed (h : t.Refines s c) {c' : ℤ} (hdb : db.Mirrors s' c') (hw : db.writer = some t.token)
    (hprovided : s'.provided = s.provided) (hdepth : s'.finalityDepth = s.finalityDepth) :
    Refines { t with db := db, claimed := true } s' c' :=
  ⟨hdb, fun _ => hw, h.provided.trans hprovided.symm, h.finalityDepth.trans hdepth.symm⟩

omit [DecidableEq H] in
theorem Refines.claimedDB (h : t.Refines s c) : IndexedDB.Mirrors { t.db with writer := some t.token } s c :=
  h.mirrors.books rfl rfl rfl rfl

/-- **A block** is taken by both stores or refused by both, and a refused one changes nothing. -/
theorem Refines.applyBlock (h : t.Refines s c) {call : AppliedCall X H C}
    (hids : WellFormedIds declarations call.mutations) :
    (∃ t' s', t.applyBlock declarations call = (.ok (), t') ∧
      (EntityStore.applyBlock declarations call).run.run s = (.ok (), s') ∧ t'.Refines s' c) ∨
    ∃ error e, t.applyBlock declarations call = (.error error, t) ∧
      (EntityStore.applyBlock declarations call).run.run s = (.error e, s) := by
  unfold IndexedDBStateStore.applyBlock
  by_cases htakes : EntityStore.Takes declarations s call
  · obtain ⟨planned, s', hplan, happly, hrun⟩ := EntityStore.applyBlock_of_takes h.mirrors.wellFormed htakes
    have hplanned : ∀ m ∈ planned, m.key.WellFormed := by
      intro m hm
      obtain ⟨em, hem, hok⟩ := mem_of_mapM_ok hplan hm
      exact hids em hem m hok
    obtain ⟨hmirrors, hw⟩ := h.claimedDB.writeBlock hplanned happly
    refine .inl ⟨_, s', ?_, hrun, h.committed hmirrors hw (MemoryStateStore.afterBlock happly).provided
      (MemoryStateStore.afterBlock happly).finalityDepth⟩
    · rw [hplan]
      unfold transaction
      dsimp only
      rw [h.claim]
      dsimp only
      rw [(h.claimedDB.assertRecordable call.block).2 htakes.2]
  · obtain ⟨e, hrun⟩ := EntityStore.applyBlock_of_not_takes h.mirrors.wellFormed htakes
    cases hplan : call.mutations.mapM (plan declarations) with
    | error e' => exact .inr ⟨_, e, rfl, hrun⟩
    | ok planned =>
      dsimp only
      unfold transaction
      rw [h.claim]
      dsimp only
      cases hrecord : IndexedDB.assertRecordable { t.db with writer := some t.token } call.block with
      | error e' => exact .inr ⟨_, e, rfl, hrun⟩
      | ok _ =>
        have habove := (h.claimedDB.assertRecordable call.block).1 hrecord
        exact absurd ⟨⟨planned, hplan⟩, habove⟩ htakes

omit [DecidableEq H] in
/-- A revert both stores take. -/
theorem Refines.revertTo (h : t.Refines s c) {keepUpTo : ℤ} (hk : c ≤ keepUpTo ∨ keepUpTo < 0) :
    ∃ t', t.revertTo keepUpTo = (.ok (), t') ∧ t'.Refines (s.revertTo keepUpTo) c := by
  have hmirrors := h.claimedDB.revertTo hk
  obtain ⟨-, hbooks⟩ := h.claimedDB.sound.revert keepUpTo
  refine ⟨_, ?_, h.committed hmirrors hbooks.writer rfl rfl⟩
  unfold IndexedDBStateStore.revertTo transaction
  rw [h.claim]
  rfl

omit [DecidableEq H] in
/-- A cursor moves in both stores. -/
theorem Refines.writeCursor (h : t.Refines s c) (key : String) (value : C) :
    ∃ t', t.writeCursor key value = (.ok (), t') ∧ t'.Refines (s.writeCursor key value) c := by
  have hm := h.claimedDB
  have hwf : (s.writeCursor key value).WellFormed := ⟨hm.wellFormed.nodup, hm.wellFormed.ascending,
    hm.wellFormed.tip, hm.wellFormed.chained, hm.wellFormed.within⟩
  have hcursors : Function.update t.db.cursors key (some value) = (s.writeCursor key value).cursors := by
    rw [h.mirrors.cursors]
    rfl
  refine ⟨{ t with
    db := { t.db with writer := some t.token, cursors := Function.update t.db.cursors key (some value) }
    claimed := true }, ?_, ?_⟩
  · unfold IndexedDBStateStore.writeCursor transaction
    rw [h.claim]
  · refine h.committed ⟨hwf, ⟨hm.sound.keyed, hm.sound.chained, hm.sound.live⟩, hm.blocks, hcursors, hm.rows, hm.keys,
      hm.within, hm.alike⟩ rfl rfl rfl

omit [DecidableEq H] in
/-- A prune both stores take. -/
theorem Refines.prune (h : t.Refines s c) {maxVersions : Option ℤ} {budget : Option ℕ}
    (hbudget : pruneBudget maxVersions = .ok budget) :
    ∃ report t', t.prune maxVersions = (.ok report, t') ∧
      t'.Refines (s.prune budget).1 (t.db.pruneCut s budget c) := by
  have hfloor : (t.db.tip.bind fun tip => retentionFloor t.provided tip t.finalityDepth) = s.floor := by
    rw [h.provided, h.finalityDepth, h.mirrors.tip]
    rfl
  have hclaimed : (IndexedDB.tip { t.db with writer := some t.token }).bind
      (fun tip => retentionFloor t.provided tip t.finalityDepth) = s.floor := hfloor
  have hcut : IndexedDB.pruneCut { t.db with writer := some t.token } s budget c = t.db.pruneCut s budget c := rfl
  unfold IndexedDBStateStore.prune
  rw [hbudget]
  dsimp only
  unfold transaction
  rw [h.claim]
  dsimp only
  rw [hclaimed]
  cases hf : s.floor with
  | none =>
    have hsame : (s.prune budget).1 = s := by
      unfold MemoryStateStore.prune
      rw [hf]
    have hc : t.db.pruneCut s budget c = c := by
      unfold IndexedDB.pruneCut
      rw [hf]
    rw [hsame, hc]
    exact ⟨_, _, rfl, h.committed h.claimedDB rfl rfl rfl⟩
  | some floor =>
    obtain ⟨⟨rows, heq, -⟩, -⟩ := MemoryStateStore.prune_thinned h.mirrors.wellFormed.nodup budget
    obtain ⟨-, hbooks, -⟩ := h.claimedDB.sound.pruneVersions floor budget
    have hmirrors := h.claimedDB.prune hf budget
    rw [hcut] at hmirrors
    refine ⟨_, _, rfl, h.committed (hmirrors.books rfl rfl rfl rfl) hbooks.writer ?_ ?_⟩
    · rw [heq]
    · rw [heq]

end IndexedDBStateStore

end Etherfold
