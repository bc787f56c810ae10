import Etherfold.Sqlite.Calls

/-!
# The versioned store refines the reference store

The tables and the reference store record the same blocks and hold the same versions of every
key, of those that stood above some height. A call is taken by both or by neither.

* `VersionedStateStore.Refines`: the two stores side by side.
* `Refines.applyBlock`: **one block keeps it**, or is refused by both.
-/

namespace Etherfold

open Versions Transaction

variable {X H C : Type}

/-! ### The books -/

/-- The highest block is the last one of blocks that ascend. -/
theorem Database.latest_number (db : Database X H C) : db.latest.map (·.number) = (db.blocks.map (·.number)).max? := by
  have hperm := List.perm_insertionSort (fun a b : BlockPointer H => b.number ≤ a.number) db.blocks
  have : Std.Total fun a b : BlockPointer H => b.number ≤ a.number := ⟨fun a b => le_total _ _⟩
  have : IsTrans (BlockPointer H) fun a b => b.number ≤ a.number := ⟨fun _ _ _ hab hbc => hbc.trans hab⟩
  have hsorted := List.pairwise_insertionSort (fun a b : BlockPointer H => b.number ≤ a.number) db.blocks
  unfold Database.latest
  generalize db.blocks.insertionSort (fun a b => b.number ≤ a.number) = sorted at hperm hsorted
  cases sorted with
  | nil =>
    rw [List.nil_perm.1 hperm]
    rfl
  | cons b rest =>
    rw [List.head?_cons, Option.map_some, eq_comm, List.max?_eq_some_iff]
    refine ⟨List.mem_map_of_mem (hperm.subset List.mem_cons_self), fun n hn => ?_⟩
    obtain ⟨a, ha, rfl⟩ := List.mem_map.1 hn
    rcases List.mem_cons.1 (hperm.symm.subset ha) with rfl | ha
    · exact le_rfl
    · exact (List.pairwise_cons.1 hsorted).1 a ha

/-- Call by call, and then the answers. -/
theorem mapM_map_ok {ε α β γ : Type} (p : α → Except ε β) (f : β → γ) (l : List α) :
    l.mapM (fun a => (p a).map f) = (l.mapM p).map (List.map f) := by
  induction l with
  | nil => rfl
  | cons a l ih =>
    rw [List.mapM_cons, List.mapM_cons, ih]
    cases p a with
    | error e => rfl
    | ok b => cases l.mapM p <;> rfl

/-- The statements of a block whose mutations resolve to `planned`. -/
def blockStatements (block : BlockPointer H) (planned : List (Mutation EntityKey (Record X)))
    (cursor : Option (String × C)) (token : String) : List (Statement X H C) :=
  .insertBlock block ⟨token, some block.number⟩ ::
    ((planned.map (plannedStatements block.number ⟨token, some block.number⟩)).flatten ++
      match cursor with
      | none => []
      | some (key, value) => [.writeCursor key value ⟨token, some block.number⟩])

/-- A block is refused before anything is sent where one of its mutations does not resolve. -/
theorem applyBlockStatements_eq (declarations : List NormalizedEntity) (call : AppliedCall X H C) (token : String) :
    applyBlockStatements declarations call token = (call.mutations.mapM (plan declarations)).map fun planned =>
      blockStatements call.block planned call.cursor token := by
  have hresolve : (mutationStatements declarations call.block.number ⟨token, some call.block.number⟩ :
      EntityMutation X → Except EntityError (List (Statement X H C))) = fun m =>
        (plan declarations m).map (plannedStatements call.block.number ⟨token, some call.block.number⟩) :=
    funext fun m => mutationStatements_eq declarations _ _ m
  unfold applyBlockStatements
  dsimp only
  rw [hresolve, mapM_map_ok]
  cases call.mutations.mapM (plan declarations) with
  | error e => rfl
  | ok planned =>
    cases call.cursor <;> simp [Except.map, bind, Except.bind, pure, Except.pure, blockStatements]

theorem guard_blockStatements (block : BlockPointer H) (planned : List (Mutation EntityKey (Record X)))
    (cursor : Option (String × C)) (token : String) :
    ∀ s ∈ blockStatements block planned cursor token, s.guard = some ⟨token, some block.number⟩ := by
  intro s hs
  unfold blockStatements at hs
  rcases List.mem_cons.1 hs with rfl | hs
  · rfl
  rcases List.mem_append.1 hs with hs | hs
  · obtain ⟨group, hgroup, hs⟩ := List.mem_flatten.1 hs
    obtain ⟨m, -, rfl⟩ := List.mem_map.1 hgroup
    cases m with
    | upsert key row =>
      simp only [plannedStatements, List.mem_cons, List.not_mem_nil, or_false] at hs
      rcases hs with rfl | rfl <;> rfl
    | delete key =>
      rw [plannedStatements, List.mem_singleton] at hs
      rw [hs]
      rfl
  · cases cursor with
    | none => cases hs
    | some p =>
      rw [List.mem_singleton.1 hs]
      rfl

section Mirrors

variable [DecidableEq H] {declarations : List NormalizedEntity}

/-- The tables next to the reference store, of which they hold the same versions above `c`. -/
structure Database.Mirrors (declarations : List NormalizedEntity) (db : Database X H C) (s : EntityStore X H C)
    (c : ℤ) : Prop where
  wellFormed : s.WellFormed
  sound : db.Sound
  blocks : db.blocks = s.blocks
  cursor : db.cursor = s.cursors
  declared : ∀ key : EntityKey, key.entity ∉ declarations.map (·.name) → db.versionsOf key = []
  within : ∀ key, Within (fun n => ∃ b ∈ db.blocks, b.number = n) (db.versionsOf key)
  alike : ∀ key, AlikeAbove c (db.versionsOf key) (Etherfold.versionsOf s.rows key)

variable {db : Database X H C} {s s' : EntityStore X H C} {c : ℤ} {token : String}

omit [DecidableEq H] in
theorem Database.Mirrors.tip (h : db.Mirrors declarations s c) : db.latest.map (·.number) = s.tip := by
  rw [db.latest_number, h.blocks, h.wellFormed.tip]

omit [DecidableEq H] in
/-- The writer is no part of what is mirrored. -/
theorem Database.Mirrors.setWriter (h : db.Mirrors declarations s c) (writer : Option String) :
    Database.Mirrors declarations { db with writer := writer } s c :=
  ⟨h.wellFormed, ⟨h.sound.chained, h.sound.rowids, h.sound.below⟩, h.blocks, h.cursor, h.declared, h.within, h.alike⟩

/-- What a mutation resolves to is a key of a declared entity. -/
theorem declared_of_plan {mutations : List (EntityMutation X)} {planned : List (Mutation EntityKey (Record X))}
    (hplan : mutations.mapM (plan declarations) = .ok planned) {m : Mutation EntityKey (Record X)}
    (hm : m ∈ planned) : m.key.entity ∈ declarations.map (·.name) := by
  obtain ⟨em, -, hem⟩ := mem_of_mapM_ok hplan hm
  have hdeclared : ∀ {entity declaration} {id : EntityId} {key : EntityKey},
      mustGet declarations entity = .ok declaration → entityKey declaration id = .ok key →
        key.entity ∈ declarations.map (·.name) := by
    intro entity declaration id key hget hkey
    obtain ⟨ids, -, rfl⟩ := entityKey_ok.1 hkey
    unfold mustGet at hget
    split at hget
    · rename_i hfind
      cases hget
      exact List.mem_map_of_mem (List.mem_of_find?_eq_some hfind)
    · cases hget
  cases em with
  | upsert entity id values =>
    obtain ⟨declaration, hget, key, hkey, stored, -, rfl⟩ := plan_upsert.1 hem
    exact hdeclared hget hkey
  | delete entity id =>
    obtain ⟨declaration, hget, key, hkey, rfl⟩ := plan_delete.1 hem
    exact hdeclared hget hkey

/-- Versions alike stay alike under the same mutations. -/
theorem alike_writes {number : ℕ} {key : EntityKey} {N : ℕ → Prop} (planned : List (Mutation EntityKey (Record X)))
    (hN : N number) (hle : ∀ n, N n → n ≤ number) {vs us : List (Version (Record X))} (hvs : Chained vs)
    (hus : Chained us) (hwvs : Within N vs) (hwus : Within N us) (h : AlikeAbove c vs us) :
    AlikeAbove c (writes number key planned vs) (writes number key planned us) := by
  induction planned generalizing vs us with
  | nil => exact h
  | cons m planned ih =>
    unfold writes
    rw [List.foldl_cons, List.foldl_cons]
    split
    · have hbelow : ∀ {ws : List (Version (Record X))}, Within N ws → Within (· ≤ number) ws := by
        intro ws hws v hv
        exact ⟨hle _ (hws v hv).1, fun x hx => hle _ ((hws v hv).2 x hx)⟩
      exact ih (hvs.write (hbelow hwvs) _) (hus.write (hbelow hwus) _) (hwvs.write hN _) (hwus.write hN _)
        (h.write hvs hus _ _)
    · exact ih hvs hus hwvs hwus h

omit [DecidableEq H] in
/-- The guard of a block holds where nothing is above it. -/
theorem holds_of_le (hw : db.writer = some token) {block : BlockPointer H}
    (hle : ∀ b ∈ db.blocks, b.number ≤ block.number) : StatementGuard.holds ⟨token, some block.number⟩ db = true := by
  unfold StatementGuard.holds
  rw [hw]
  simpa using hle

/-- A block above everything recorded, and new, gets its row. -/
theorem insertBlock_ok (hw : db.writer = some token) {block : BlockPointer H}
    (habove : ∀ b ∈ db.blocks, b.number < block.number ∧ b.hash ≠ block.hash) :
    (Statement.insertBlock block ⟨token, some block.number⟩).execute db =
      .ok (.nothing, { db with blocks := db.blocks ++ [block] }) := by
  have hnumber : db.blocks.any (·.number = block.number) = false := by
    rw [List.any_eq_false]
    intro b hb
    have hlt := (habove b hb).1
    rw [decide_eq_true_eq]
    omega
  have hhash : db.blocks.any (·.hash = block.hash) = false := by
    rw [List.any_eq_false]
    intro b hb
    have hne := (habove b hb).2
    simpa using hne
  have hguard : (Statement.insertBlock block ⟨token, some block.number⟩ : Statement X H C).guard =
      some ⟨token, some block.number⟩ := rfl
  rw [Statement.execute_of_holds hguard (holds_of_le hw fun b hb => (habove b hb).1.le)]
  unfold Statement.effect
  dsimp only
  rw [hnumber, hhash]
  rfl

/-- Every key written as the reference store writes it. -/
theorem Database.Mirrors.written (h : db.Mirrors declarations s c) {call : AppliedCall X H C}
    {planned : List (Mutation EntityKey (Record X))} (hplan : call.mutations.mapM (plan declarations) = .ok planned)
    (happly : MemoryStateStore.applyBlock s call.block planned call.cursor = .ok s') {db' : Database X H C}
    (hsound : db'.Sound) (hblocks : db'.blocks = s'.blocks) (hcursor : db'.cursor = s'.cursors)
    (hversions : ∀ key, db'.versionsOf key = writes call.block.number key planned (db.versionsOf key)) :
    db'.Mirrors declarations s' c := by
  obtain ⟨hbelow, hs', -, hrows, -⟩ := MemoryStateStore.applyBlock_ok h.wellFormed happly
  -- every height named so far is that of a block, and at or below this one
  have hall : ∀ n, (∃ b ∈ s'.blocks, b.number = n) → n ≤ call.block.number := by
    intro n hn
    obtain ⟨b, hb, rfl⟩ := hn
    rw [hs'] at hb
    rcases List.mem_append.1 hb with hb | hb
    · exact (hbelow b hb).1.le
    · rw [List.mem_singleton.1 hb]
  have hmono : ∀ n, (∃ b ∈ s.blocks, b.number = n) → ∃ b ∈ s'.blocks, b.number = n := by
    intro n hn
    obtain ⟨b, hb, hbn⟩ := hn
    exact ⟨b, by rw [hs']; exact List.mem_append_left _ hb, hbn⟩
  have hsame : ∃ b ∈ s'.blocks, b.number = call.block.number := ⟨call.block, by rw [hs']; simp, rfl⟩
  have hgrow : ∀ vs : List (Version (Record X)), Within (fun n => ∃ b ∈ s.blocks, b.number = n) vs →
      Within (fun n => ∃ b ∈ s'.blocks, b.number = n) vs := fun vs hvs v hv =>
    ⟨hmono _ (hvs v hv).1, fun x hx => hmono _ ((hvs v hv).2 x hx)⟩
  have hwithin : ∀ key, Within (fun n => ∃ b ∈ s'.blocks, b.number = n) (db.versionsOf key) := fun key =>
    hgrow _ (h.blocks ▸ h.within key)
  refine ⟨h.wellFormed.applyBlock happly, hsound, hblocks, hcursor, fun key hkey => ?_, fun key => ?_, fun key => ?_⟩
  · rw [hversions, h.declared key hkey]
    exact writes_of_notMem (fun m hm heq => hkey (by rw [← heq]; exact declared_of_plan hplan hm)) _
  · rw [hversions, hblocks]
    exact (MemoryStateStore.chained_writes planned hsame hall (h.sound.chained key) (hwithin key)).2
  · rw [hversions, hrows]
    exact alike_writes planned hsame hall (h.sound.chained key) (h.wellFormed.chained key) (hwithin key)
      (hgrow _ (h.wellFormed.within key)) (h.alike key)

/-- **The statements of a block the reference store takes** write what it writes. -/
theorem batch_blockStatements (h : db.Mirrors declarations s c) (hw : db.writer = some token)
    {call : AppliedCall X H C} {planned : List (Mutation EntityKey (Record X))}
    (hplan : call.mutations.mapM (plan declarations) = .ok planned)
    (happly : MemoryStateStore.applyBlock s call.block planned call.cursor = .ok s') :
    ∃ rs db', batch Statement.execute (blockStatements call.block planned call.cursor token) db = .ok (rs, db') ∧
      db'.Mirrors declarations s' c ∧ db'.writer = some token := by
  obtain ⟨hbelow, hblocks, -, -, -⟩ := MemoryStateStore.applyBlock_ok h.wellFormed happly
  rw [← h.blocks] at hbelow hblocks
  have hinsert := insertBlock_ok hw hbelow
  set db₁ : Database X H C := { db with blocks := db.blocks ++ [call.block] } with hdb₁
  have hholds₁ : StatementGuard.holds ⟨token, some call.block.number⟩ db₁ = true := by
    have hw₁ : db₁.writer = some token := hw
    refine holds_of_le hw₁ fun b hb => ?_
    rcases List.mem_append.1 hb with hb | hb
    · exact (hbelow b hb).1.le
    · rw [List.mem_singleton.1 hb]
  have hle : ∀ n, (∃ b ∈ db.blocks, b.number = n) → n ≤ call.block.number := by
    intro n hn
    obtain ⟨b, hb, rfl⟩ := hn
    exact (hbelow b hb).1.le
  have hsound₁ : db₁.Sound := ⟨h.sound.chained, h.sound.rowids, h.sound.below⟩
  obtain ⟨rs₂, db₂, hbatch₂, hbooks₂, hsound₂, hversions₂⟩ :=
    batch_mutations hsound₁ planned
      (fun key v hv => ⟨hle _ (h.within key v hv).1, fun x hx => hle _ ((h.within key v hv).2 x hx)⟩) hholds₁
  have hdblocks₂ : db₂.blocks = s'.blocks := by
    rw [← hbooks₂.blocks, hblocks]
  have hcursor₂ : db₂.cursor = s.cursors := by
    rw [← hbooks₂.cursor]
    exact h.cursor
  have hw₂ : db₂.writer = some token := by
    rw [← hbooks₂.writer]
    exact hw
  have hcursors := (MemoryStateStore.afterBlock happly).cursors
  unfold blockStatements
  cases hcall : call.cursor with
  | none =>
    rw [hcall] at hcursors
    refine ⟨.nothing :: rs₂, db₂, batch_cons_ok hinsert ?_, ?_, hw₂⟩
    · rw [List.append_nil]
      exact hbatch₂
    · exact h.written hplan happly hsound₂ hdblocks₂ (hcursor₂.trans hcursors.symm) hversions₂
  | some p =>
    obtain ⟨key, value⟩ := p
    rw [hcall] at hcursors
    set db₃ : Database X H C := { db₂ with cursor := Function.update db₂.cursor key (some value) } with hdb₃
    have hwrite : (Statement.writeCursor key value ⟨token, some call.block.number⟩).execute db₂ =
        .ok (.nothing, db₃) := by
      have hguard : (Statement.writeCursor key value ⟨token, some call.block.number⟩ : Statement X H C).guard =
        some ⟨token, some call.block.number⟩ := rfl
      rw [Statement.execute_of_holds hguard ((hbooks₂.holds _).trans hholds₁)]
      rfl
    have hbatch₃ : batch Statement.execute [(.writeCursor key value ⟨token, some call.block.number⟩ :
        Statement X H C)] db₂ = .ok ([.nothing], db₃) := batch_cons_ok hwrite rfl
    have hcursor₃ : db₃.cursor = s'.cursors := by
      rw [hcursors, ← hcursor₂]
      rfl
    refine ⟨.nothing :: (rs₂ ++ [.nothing]), db₃, batch_cons_ok hinsert (batch_append hbatch₂ hbatch₃), ?_, hw₂⟩
    exact h.written hplan happly ⟨hsound₂.chained, hsound₂.rowids, hsound₂.below⟩ hdblocks₂ hcursor₃ hversions₂

/-- A block below the tip matches no row. -/
theorem batch_below {block : BlockPointer H} (h : ∃ b ∈ db.blocks, block.number < b.number)
    (planned : List (Mutation EntityKey (Record X))) (cursor : Option (String × C)) :
    ∃ rs, batch Statement.execute (blockStatements block planned cursor token) db = .ok (rs, db) := by
  refine ⟨_, batch_of_not_holds (guard_blockStatements block planned cursor token) ?_⟩
  unfold StatementGuard.holds
  rw [Bool.and_eq_false_iff]
  refine .inr ?_
  simpa using h

/-- A recorded height or hash runs into the block table. -/
theorem batch_recorded (hw : db.writer = some token) {block : BlockPointer H}
    (hle : ∀ b ∈ db.blocks, b.number ≤ block.number)
    (h : ∃ b ∈ db.blocks, b.number = block.number ∨ b.hash = block.hash)
    (planned : List (Mutation EntityKey (Record X))) (cursor : Option (String × C)) :
    ∃ violation, batch Statement.execute (blockStatements block planned cursor token) db = .error violation ∧
      ∀ entity, violation ≠ .openVersion entity := by
  have hholds := holds_of_le hw hle
  have hguard : (Statement.insertBlock block ⟨token, some block.number⟩ : Statement X H C).guard =
      some ⟨token, some block.number⟩ := rfl
  have hinsert := Statement.execute_of_holds hguard hholds
  unfold Statement.effect at hinsert
  dsimp only at hinsert
  by_cases hnumber : db.blocks.any (·.number = block.number) = true
  · rw [if_pos hnumber] at hinsert
    exact ⟨_, batch_cons_error hinsert _, by simp⟩
  · have hhash : db.blocks.any (·.hash = block.hash) = true := by
      obtain ⟨b, hb, heq⟩ := h
      rcases heq with heq | heq
      · exact absurd (List.any_eq_true.2 ⟨b, hb, by simpa using heq⟩) hnumber
      · exact List.any_eq_true.2 ⟨b, hb, by simpa using heq⟩
    rw [if_neg hnumber, if_pos hhash] at hinsert
    exact ⟨_, batch_cons_error hinsert _, by simp⟩

end Mirrors

/-! ### Sequences the reference store takes -/

namespace EntityStore

variable [DecidableEq H] {declarations : List NormalizedEntity} {s : EntityStore X H C}

theorem rebuild_cons {s' : EntityStore X H C} {call : AppliedCall X H C}
    (h : (applyBlock declarations call).run.run s = (.ok (), s')) (kept : List (AppliedCall X H C)) :
    rebuild declarations s (call :: kept) = rebuild declarations s' kept := by
  unfold rebuild
  rw [List.foldlM_cons, h]
  rfl

theorem rebuild_cons_error {e : ApplyError H} {call : AppliedCall X H C}
    (h : (applyBlock declarations call).run.run s = (.error e, s)) (kept : List (AppliedCall X H C)) :
    rebuild declarations s (call :: kept) = .error e := by
  unfold rebuild
  rw [List.foldlM_cons, h]
  rfl

/-- Blocks taken one after another resolve and ascend, and the first is taken first. -/
theorem of_rebuild_ok (hs : s.WellFormed) {updates : List (BlockUpdate X H)} {s' : EntityStore X H C}
    (h : rebuild declarations s (updates.map (·.call C)) = .ok s') :
    (∀ u ∈ updates, ∃ planned, u.mutations.mapM (plan declarations) = .ok planned) ∧ descent updates = none ∧
      ∀ u ∈ updates.head?, Takes declarations s (u.call C) := by
  induction updates generalizing s with
  | nil => simp [descent]
  | cons u rest ih =>
    by_cases htakes : Takes declarations s (u.call C)
    · obtain ⟨planned, s₁, hplan, happly, hrun⟩ := applyBlock_of_takes hs htakes
      rw [List.map_cons, rebuild_cons hrun] at h
      obtain ⟨hresolve, hdescent, hhead⟩ := ih (hs.applyBlock happly) h
      refine ⟨fun v hv => ?_, ?_, fun v hv => ?_⟩
      · rcases List.mem_cons.1 hv with rfl | hv
        · exact ⟨planned, hplan⟩
        · exact hresolve v hv
      · cases rest with
        | nil => rfl
        | cons v rest =>
          have hblock : u.block ∈ s₁.blocks := by
            rw [(MemoryStateStore.applyBlock_ok hs happly).2.1]
            simp [BlockUpdate.call]
          have hlt : u.block.number < v.block.number := ((hhead v rfl).2 u.block hblock).1
          unfold descent
          rw [if_neg (by omega)]
          exact hdescent
      · rw [List.head?_cons, Option.mem_some_iff] at hv
        rw [← hv]
        exact htakes
    · obtain ⟨e, hrun⟩ := applyBlock_of_not_takes hs htakes
      rw [List.map_cons, rebuild_cons_error hrun] at h
      cases h

end EntityStore

/-- A sequence without a descent ascends. -/
theorem ascends_of_descent {updates : List (BlockUpdate X H)} (h : descent updates = none) :
    updates.Pairwise fun a b => a.block.number < b.block.number := by
  rw [← List.isChain_iff_pairwise (R := fun a b : BlockUpdate X H => a.block.number < b.block.number)]
  induction updates with
  | nil => exact .nil
  | cons u rest ih =>
    cases rest with
    | nil => exact .singleton u
    | cons v rest =>
      unfold descent at h
      split at h
      · cases h
      · rename_i hlt
        exact .cons_cons (by omega) (ih h)

/-! ### The calls -/

section Calls

variable [DecidableEq H] {declarations : List NormalizedEntity}

/-- **The two stores side by side**, under one configuration. -/
structure VersionedStateStore.Refines (declarations : List NormalizedEntity) (t : VersionedStateStore X H C)
    (s : EntityStore X H C) (c : ℤ) : Prop where
  mirrors : t.db.Mirrors declarations s c
  holds : t.Holds
  provided : t.provided = s.provided
  finalityDepth : t.finalityDepth = s.finalityDepth

/-- Nothing but the claim has changed. -/
def VersionedStateStore.Untouched (t t' : VersionedStateStore X H C) : Prop :=
  t' = { t with db := { t.db with writer := t'.db.writer }, claimed := t'.claimed }

namespace VersionedStateStore

variable {t t' : VersionedStateStore X H C} {s s' : EntityStore X H C} {c : ℤ}

/-- The error is no violation of the partial index of live versions. -/
def Clear (error : SqlError H) : Prop := ∀ entity, error ≠ .violation (.openVersion entity)

omit [DecidableEq H] in
theorem Untouched.refl (t : VersionedStateStore X H C) : t.Untouched t := rfl

omit [DecidableEq H] in
theorem Refines.untouched (h : t.Refines declarations s c) (hsame : t.Untouched t') (hholds : t'.Holds) :
    t'.Refines declarations s c := by
  refine ⟨?_, hholds, ?_, ?_⟩
  · have hdb : t'.db = { t.db with writer := t'.db.writer } := congrArg VersionedStateStore.db hsame
    rw [hdb]
    exact h.mirrors.setWriter _
  · exact (congrArg VersionedStateStore.provided hsame).trans h.provided
  · exact (congrArg VersionedStateStore.finalityDepth hsame).trans h.finalityDepth

omit [DecidableEq H] in
/-- The store after a transaction that left the tables next to `s'`. -/
theorem Refines.sent (h : t.Refines declarations s c) {c' : ℤ} {db : Database X H C}
    (hmirrors : db.Mirrors declarations s' c') (hw : db.writer = some t.token) (hprovided : s'.provided = s.provided)
    (hdepth : s'.finalityDepth = s.finalityDepth) :
    VersionedStateStore.Refines declarations { t with db := db, claimed := true } s' c' :=
  ⟨hmirrors, fun _ => hw, h.provided.trans hprovided.symm, h.finalityDepth.trans hdepth.symm⟩

omit [DecidableEq H] in
theorem Refines.held (h : t.Refines declarations s c) : t.held.Mirrors declarations s c := h.mirrors.setWriter _

/-- **The transaction of a block the reference store takes.** -/
theorem Refines.send_taken (h : t.Refines declarations s c) {call : AppliedCall X H C}
    {planned : List (Mutation EntityKey (Record X))} (hplan : call.mutations.mapM (plan declarations) = .ok planned)
    (happly : MemoryStateStore.applyBlock s call.block planned call.cursor = .ok s') :
    ∃ results rs db, t.sendGuarded (.latestBlock :: blockStatements call.block planned call.cursor t.token) =
        (.ok results, { t with db := db, claimed := true }) ∧
      (tipOf results).filter (call.block.number ≤ ·) = none ∧
      batch Statement.execute (blockStatements call.block planned call.cursor t.token) t.held = .ok (rs, db) ∧
      VersionedStateStore.Refines declarations { t with db := db, claimed := true } s' c := by
  obtain ⟨rs, db, hbatch, hmirrors, hw⟩ := batch_blockStatements h.held rfl hplan happly
  have hread : Statement.execute (.latestBlock : Statement X H C) t.held = .ok (.block t.held.latest, t.held) := rfl
  refine ⟨_, rs, db, sendGuarded_ok h.holds (batch_cons_ok hread hbatch) hw, ?_, hbatch,
    h.sent hmirrors hw (MemoryStateStore.afterBlock happly).provided (MemoryStateStore.afterBlock happly).finalityDepth⟩
  have htip : tipOf (.block t.held.latest :: rs) = s.tip := h.held.tip
  rw [htip, Option.filter_eq_none_iff]
  intro tip hs
  rw [h.mirrors.wellFormed.tip, List.max?_eq_some_iff] at hs
  obtain ⟨b, hb, rfl⟩ := List.mem_map.1 hs.1
  have hlt := ((MemoryStateStore.applyBlock_ok h.mirrors.wellFormed happly).1 b hb).1
  rw [decide_eq_true_eq]
  omega

/-- **The transaction of a block the reference store refuses** is taken back, or reports the tip
that is above it; either way nothing has changed. -/
theorem Refines.send_refused (h : t.Refines declarations s c) {block : BlockPointer H}
    (hnot : ¬∀ b ∈ s.blocks, b.number < block.number ∧ b.hash ≠ block.hash)
    (planned : List (Mutation EntityKey (Record X))) (cursor : Option (String × C)) :
    (∃ error, t.sendGuarded (.latestBlock :: blockStatements block planned cursor t.token) = (.error error, t) ∧
      Clear error) ∨
    ∃ results t', t.sendGuarded (.latestBlock :: blockStatements block planned cursor t.token) = (.ok results, t') ∧
      t.Untouched t' ∧ t'.Holds ∧ ∃ tip, (tipOf results).filter (block.number ≤ ·) = some tip := by
  have hread : Statement.execute (.latestBlock : Statement X H C) t.held = .ok (.block t.held.latest, t.held) := rfl
  have hblocks : t.held.blocks = s.blocks := h.held.blocks
  by_cases hbelow : ∃ b ∈ s.blocks, block.number < b.number
  · refine .inr ?_
    have hbelow' : ∃ b ∈ t.held.blocks, block.number < b.number := hblocks ▸ hbelow
    obtain ⟨rs, hbatch⟩ : ∃ rs, batch Statement.execute (blockStatements block planned cursor t.token) t.held =
        .ok (rs, t.held) := batch_below hbelow' planned cursor
    refine ⟨_, _, sendGuarded_ok h.holds (batch_cons_ok hread hbatch) rfl, rfl, fun _ => rfl, ?_⟩
    obtain ⟨b, hb, hlt⟩ := hbelow
    obtain ⟨tip, htip, hle⟩ := h.mirrors.wellFormed.le_tip hb
    have htipOf : tipOf (.block t.held.latest :: rs) = s.tip := h.held.tip
    rw [htipOf, htip]
    exact ⟨tip, by rw [Option.filter_some, if_pos (by rw [decide_eq_true_eq]; omega)]⟩
  · refine .inl ?_
    push Not at hbelow hnot
    obtain ⟨b, hb, hsame⟩ := hnot
    have hrecorded : ∃ b ∈ t.held.blocks, b.number = block.number ∨ b.hash = block.hash := by
      refine ⟨b, hblocks ▸ hb, ?_⟩
      rcases (hbelow b hb).lt_or_eq with hlt | heq
      · exact .inr (hsame hlt)
      · exact .inl heq
    have hheld : t.held.writer = some t.token := rfl
    obtain ⟨violation, hbatch, hclear⟩ := batch_recorded hheld
      (fun b hb => hbelow b (hblocks ▸ hb)) hrecorded planned cursor
    have hall : batch Statement.execute (.latestBlock :: blockStatements block planned cursor t.token) t.held =
        .error violation := by
      unfold batch
      rw [hread]
      dsimp only
      rw [hbatch]
    refine ⟨.violation violation, sendGuarded_error h.holds hall, fun entity heq => ?_⟩
    injection heq with heq
    exact hclear entity heq

/-- A block is taken where its transaction reports no tip at or above it. -/
theorem applyBlock_of_sent {call : AppliedCall X H C} {planned : List (Mutation EntityKey (Record X))}
    (hplan : call.mutations.mapM (plan declarations) = .ok planned) {results : List (SQLResult H)}
    (hsent : t.sendGuarded (.latestBlock :: blockStatements call.block planned call.cursor t.token) =
      (.ok results, t')) (htip : (tipOf results).filter (call.block.number ≤ ·) = none) :
    t.applyBlock declarations call = (.ok (), t') := by
  unfold VersionedStateStore.applyBlock
  rw [applyBlockStatements_eq, hplan]
  dsimp only [Except.map]
  rw [hsent]
  dsimp only
  rw [htip]

/-- **A block is taken by both stores**, which then hold the same, or by neither. -/
theorem Refines.applyBlock (h : t.Refines declarations s c) (call : AppliedCall X H C) :
    (∃ t' s', t.applyBlock declarations call = (.ok (), t') ∧
      (EntityStore.applyBlock declarations call).run.run s = (.ok (), s') ∧ t'.Refines declarations s' c) ∨
    ∃ error e t', t.applyBlock declarations call = (.error error, t') ∧
      (EntityStore.applyBlock declarations call).run.run s = (.error e, s) ∧ Clear error ∧ t.Untouched t' ∧
      t'.Refines declarations s c := by
  by_cases htakes : EntityStore.Takes declarations s call
  · refine .inl ?_
    obtain ⟨planned, s', hplan, happly, hrun⟩ := EntityStore.applyBlock_of_takes h.mirrors.wellFormed htakes
    obtain ⟨results, rs, db, hsent, htip, -, hrefines⟩ := h.send_taken hplan happly
    exact ⟨_, s', applyBlock_of_sent hplan hsent htip, hrun, hrefines⟩
  · refine .inr ?_
    obtain ⟨e, hrun⟩ := EntityStore.applyBlock_of_not_takes h.mirrors.wellFormed htakes
    cases hplan : call.mutations.mapM (plan declarations) with
    | error error =>
      refine ⟨.entity error, e, t, ?_, hrun, fun entity heq => (by cases heq), .refl t, h⟩
      unfold VersionedStateStore.applyBlock
      rw [applyBlockStatements_eq, hplan]
      rfl
    | ok planned =>
      have hnot : ¬∀ b ∈ s.blocks, b.number < call.block.number ∧ b.hash ≠ call.block.hash := fun hall =>
        htakes ⟨⟨planned, hplan⟩, hall⟩
      rcases h.send_refused hnot planned call.cursor with
        ⟨error, hsent, hclear⟩ | ⟨results, t', hsent, hsame, hholds, tip, htip⟩
      · refine ⟨error, e, t, ?_, hrun, hclear, .refl t, h⟩
        unfold VersionedStateStore.applyBlock
        rw [applyBlockStatements_eq, hplan]
        dsimp only [Except.map]
        rw [hsent]
      · refine ⟨.refused (.blockNotAboveTip call.block.number tip), e, t', ?_, hrun,
          fun entity heq => (by cases heq), hsame, h.untouched hsame hholds⟩
        unfold VersionedStateStore.applyBlock
        rw [applyBlockStatements_eq, hplan]
        dsimp only [Except.map]
        rw [hsent]
        dsimp only
        rw [htip]

end VersionedStateStore

end Calls

end Etherfold
