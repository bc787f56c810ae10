import Etherfold.Store.Replay

/-!
# The store refines a history of snapshots

A block names entities and ids; its mutations are resolved against the declarations
before anything is written. Blocks are applied, reverted and applied again, and a refused
block leaves the store as it was.

* `applyBlock_cases`: **a block is applied whole or the store is untouched**.
* `refines_snapshots`: **a reverted store reads as a store that only ever saw the surviving
  blocks**.
-/

namespace Etherfold

open Versions

/-- A mutation as a handler hands it over. -/
inductive EntityMutation (X : Type) where
  | upsert (entity : String) (id : EntityId) (values : Record X)
  | delete (entity : String) (id : EntityId)
  deriving DecidableEq, Repr

/-- Why a block is not applied. -/
inductive ApplyError (H : Type) where
  | refused (error : StoreWriteRefusedError H)
  | entity (error : EntityError)
  deriving DecidableEq, Repr

variable {X H C : Type}

/-- Resolve a mutation: its key, and the complete row it writes. -/
def plan (declarations : List NormalizedEntity) :
    EntityMutation X → Except EntityError (Mutation EntityKey (Record X))
  | .upsert entity id values => do
    let declaration ← mustGet declarations entity
    let key ← entityKey declaration id
    let stored ← encodeFieldValues declaration values
    pure (.upsert key (storedRow declaration key.id stored))
  | .delete entity id => do
    let declaration ← mustGet declarations entity
    let key ← entityKey declaration id
    pure (.delete key)

theorem plan_upsert {declarations : List NormalizedEntity} {entity : String} {id : EntityId} {values : Record X}
    {m : Mutation EntityKey (Record X)} : plan declarations (.upsert entity id values) = .ok m ↔
      ∃ declaration, mustGet declarations entity = .ok declaration ∧ ∃ key, entityKey declaration id = .ok key ∧
        ∃ stored, encodeFieldValues declaration values = .ok stored ∧
          m = .upsert key (storedRow declaration key.id stored) := by
  unfold plan
  simp only [bind_eq_ok]
  refine exists_congr fun declaration => and_congr_right fun _ => exists_congr fun key => and_congr_right fun _ =>
    exists_congr fun stored => and_congr_right fun _ => ?_
  exact ⟨fun h => (Except.ok.inj h).symm, fun h => congrArg _ h.symm⟩

theorem plan_delete {declarations : List NormalizedEntity} {entity : String} {id : EntityId}
    {m : Mutation EntityKey (Record X)} : plan declarations (.delete entity id) = .ok m ↔
      ∃ declaration, mustGet declarations entity = .ok declaration ∧ ∃ key, entityKey declaration id = .ok key ∧
        m = .delete key := by
  unfold plan
  simp only [bind_eq_ok]
  refine exists_congr fun declaration => and_congr_right fun _ => exists_congr fun key => and_congr_right fun _ => ?_
  exact ⟨fun h => (Except.ok.inj h).symm, fun h => congrArg _ h.symm⟩

/-- A block with the mutations it was called with. -/
structure AppliedCall (X H C : Type) where
  block : BlockPointer H
  mutations : List (EntityMutation X)
  cursor : Option (String × C)

/-- What a caller asks of the store. -/
inductive StoreCall (X H C : Type) where
  | applyBlock (call : AppliedCall X H C)
  | revertTo (keepUpTo : ℤ)
  | writeCursor (key : String) (value : C)

namespace EntityStore

variable [DecidableEq H]

/-- The three reasons not to record a block. -/
def assertRecordable (s : EntityStore X H C) (block : BlockPointer H) : Except (StoreWriteRefusedError H) Unit :=
  if s.blocks.any (·.number = block.number) then .error (.blockAlreadyRecorded block.number)
  else
    match s.blocks.find? (·.hash = block.hash) with
    | some recorded => .error (.blockHashAlreadyRecorded block.hash recorded.number)
    | none =>
      match s.tip.filter (block.number ≤ ·) with
      | some tip => .error (.blockNotAboveTip block.number tip)
      | none => .ok ()

/-- Everything that can refuse a block: the store, then each of its mutations in order. -/
def resolveBlock (declarations : List NormalizedEntity) (s : EntityStore X H C) (call : AppliedCall X H C) :
    Except (ApplyError H) (List (Mutation EntityKey (Record X))) := do
  (assertRecordable s call.block).mapError .refused
  (call.mutations.mapM (plan declarations)).mapError .entity

/-- What a block writes, step by step. -/
def writeBlock (block : BlockPointer H) (planned : List (Mutation EntityKey (Record X)))
    (cursor : Option (String × C)) : StateM (EntityStore X H C) Unit := do
  modify fun s => { s with
    blocks := s.blocks ++ [block]
    tip := match s.tip with
      | none => some block.number
      | some tip => if tip < block.number then some block.number else some tip }
  planned.forM fun mutation =>
    modify fun s => { s with rows := applyMutation block.number s.rows mutation }
  match cursor with
  | none => pure ()
  | some (key, value) => modify (MemoryStateStore.writeCursor · key value)

/-- **Apply one block.** What is written before a refusal would stay written, so everything
that can refuse comes first. -/
def applyBlock (declarations : List NormalizedEntity) (call : AppliedCall X H C) :
    ExceptT (ApplyError H) (StateM (EntityStore X H C)) Unit := do
  let s ← get
  let planned ← MonadExcept.ofExcept (resolveBlock declarations s call)
  writeBlock call.block planned call.cursor

omit [DecidableEq H] in
theorem forM_applyMutation (number : ℕ) (planned : List (Mutation EntityKey (Record X))) (s : EntityStore X H C) :
    (planned.forM fun mutation => (modify fun s : EntityStore X H C =>
      { s with rows := applyMutation number s.rows mutation } :
        StateM (EntityStore X H C) PUnit)).run s =
      (⟨⟩, { s with rows := planned.foldl (applyMutation number) s.rows }) := by
  induction planned generalizing s with
  | nil => rfl
  | cons m planned ih => exact ih { s with rows := applyMutation number s.rows m }

omit [DecidableEq H] in
/-- A block's record, then its mutations, then its cursor. -/
theorem writeBlock_run (block : BlockPointer H) (planned : List (Mutation EntityKey (Record X)))
    (cursor : Option (String × C)) (s : EntityStore X H C) :
    ((writeBlock block planned cursor).run s).2 = ((match cursor with
      | none => (pure () : StateM (EntityStore X H C) Unit)
      | some (key, value) => modify (MemoryStateStore.writeCursor · key value)).run
      ((planned.forM fun mutation => (modify fun s : EntityStore X H C =>
        { s with rows := applyMutation block.number s.rows mutation } :
          StateM (EntityStore X H C) PUnit)).run
        { s with
          blocks := s.blocks ++ [block]
          tip := match s.tip with
            | none => some block.number
            | some tip => if tip < block.number then some block.number else some tip }).2).2 := rfl

theorem applyBlock_run (declarations : List NormalizedEntity) (call : AppliedCall X H C) (s : EntityStore X H C) :
    (applyBlock declarations call).run.run s =
      match resolveBlock declarations s call with
      | .error error => (.error error, s)
      | .ok planned => (.ok (), ((writeBlock call.block planned call.cursor).run s).2) := by
  cases h : resolveBlock declarations s call with
  | error error =>
    show (ExceptT.run (MonadExcept.ofExcept (resolveBlock declarations s call) >>= fun planned => 
      (writeBlock call.block planned call.cursor : ExceptT (ApplyError H) (StateM (EntityStore X H C)) Unit))).run s = _
    rw [h]
    rfl
  | ok planned => 
    show (ExceptT.run (MonadExcept.ofExcept (resolveBlock declarations s call) >>= fun planned => 
      (writeBlock call.block planned call.cursor : ExceptT (ApplyError H) (StateM (EntityStore X H C)) Unit))).run s = _
    rw [h]
    rfl

/-- What a block writes is what the store that takes it becomes. -/
theorem applyBlock_eq_writeBlock {s : EntityStore X H C} {block : BlockPointer H}
    (h : assertRecordable s block = .ok ()) (planned : List (Mutation EntityKey (Record X)))
    (cursor : Option (String × C)) :
    MemoryStateStore.applyBlock s block planned cursor = .ok ((writeBlock block planned cursor).run s).2 := by
  unfold assertRecordable at h
  split at h
  · cases h
  rename_i hnumber
  split at h
  · cases h
  rename_i hhash
  split at h
  · cases h
  rename_i htip
  have hraise : (match s.tip with
      | none => some block.number
      | some tip => if tip < block.number then some block.number else some tip) = some block.number := by
    cases hs : s.tip with
    | none => rfl
    | some tip =>
      rw [hs, Option.filter_some] at htip
      have hlt : tip < block.number := by
        by_contra hle
        rw [if_pos (by simpa using hle)] at htip
        cases htip
      exact if_pos hlt
  rw [writeBlock_run, forM_applyMutation, hraise]
  unfold MemoryStateStore.applyBlock
  rw [if_neg hnumber, hhash, htip]
  cases cursor <;> rfl

/-- **A block is applied whole or the store is untouched.** -/
theorem applyBlock_cases (declarations : List NormalizedEntity) (call : AppliedCall X H C) (s : EntityStore X H C) :
    (∃ error, (applyBlock declarations call).run.run s = (.error error, s)) ∨
      ∃ planned s', call.mutations.mapM (plan declarations) = .ok planned ∧
        MemoryStateStore.applyBlock s call.block planned call.cursor = .ok s' ∧
        (applyBlock declarations call).run.run s = (.ok (), s') := by
  rw [applyBlock_run]
  unfold resolveBlock
  cases hcheck : assertRecordable s call.block with
  | error error => exact .inl ⟨.refused error, rfl⟩
  | ok _ =>
    cases hplan : call.mutations.mapM (plan declarations) with
    | error error => exact .inl ⟨.entity error, rfl⟩
    | ok planned => exact .inr ⟨planned, _, rfl, applyBlock_eq_writeBlock hcheck planned call.cursor, rfl⟩

/-- An accepted block was recordable. -/
theorem recordable_of_accepted {s s' : EntityStore X H C} {block : BlockPointer H}
    {mutations : List (Mutation EntityKey (Record X))} {cursor : Option (String × C)}
    (h : MemoryStateStore.applyBlock s block mutations cursor = .ok s') : assertRecordable s block = .ok () := by
  have hfree : ¬(s.blocks.any (·.number = block.number)) = true ∧ s.blocks.find? (·.hash = block.hash) = none ∧
      s.tip.filter (block.number ≤ ·) = none := by
    unfold MemoryStateStore.applyBlock at h
    split at h
    · cases h
    rename_i hnumber
    split at h
    · cases h
    rename_i hhash
    split at h
    · cases h
    rename_i htip
    exact ⟨hnumber, hhash, htip⟩
  unfold assertRecordable
  simp only [if_neg hfree.1, hfree.2.1, hfree.2.2]

/-- A block whose mutations resolve is applied by a store that takes it. -/
theorem applyBlock_of_accepted {declarations : List NormalizedEntity} {call : AppliedCall X H C}
    {s s' : EntityStore X H C} {planned : List (Mutation EntityKey (Record X))}
    (hplan : call.mutations.mapM (plan declarations) = .ok planned)
    (h : MemoryStateStore.applyBlock s call.block planned call.cursor = .ok s') :
    (applyBlock declarations call).run.run s = (.ok (), s') := by
  have hcheck := recordable_of_accepted h
  rw [applyBlock_eq_writeBlock hcheck] at h
  cases h
  rw [applyBlock_run]
  unfold resolveBlock
  rw [hcheck, hplan]
  rfl

/-! ### Sequences of calls -/

/-- One call; a refused one is as if it had not been made. -/
def perform (declarations : List NormalizedEntity) (s : EntityStore X H C) : StoreCall X H C → EntityStore X H C
  | .applyBlock call => ((applyBlock declarations call).run.run s).2
  | .revertTo keepUpTo => s.revertTo keepUpTo
  | .writeCursor key value => s.writeCursor key value

/-- The accepted blocks no revert has taken back. -/
def surviving (declarations : List NormalizedEntity) (s : EntityStore X H C) (kept : List (AppliedCall X H C)) :
    StoreCall X H C → List (AppliedCall X H C)
  | .applyBlock call =>
    match ((applyBlock declarations call).run.run s).1 with
    | .ok _ => kept ++ [call]
    | .error _ => kept
  | .revertTo keepUpTo => kept.filter fun call => (call.block.number : ℤ) ≤ keepUpTo
  | .writeCursor _ _ => kept

/-- The store after some calls, and the blocks that survived them. -/
def run (declarations : List NormalizedEntity) (s : EntityStore X H C) (calls : List (StoreCall X H C)) :
    EntityStore X H C × List (AppliedCall X H C) :=
  calls.foldl (fun r call => (perform declarations r.1 call, surviving declarations r.1 r.2 call)) (s, [])

/-- A store that only ever sees these blocks. -/
def rebuild (declarations : List NormalizedEntity) (s : EntityStore X H C) (kept : List (AppliedCall X H C)) :
    Except (ApplyError H) (EntityStore X H C) :=
  kept.foldlM (fun s call =>
    match (applyBlock declarations call).run.run s with
    | (.ok _, s') => .ok s'
    | (.error error, _) => .error error) s

/-- A call resolves to what the store recorded of it. -/
structure Resolves (declarations : List NormalizedEntity) (call : AppliedCall X H C)
    (b : AppliedBlock EntityKey (Record X) H) : Prop where
  block : call.block = b.block
  mutations : call.mutations.mapM (plan declarations) = .ok b.mutations

/-- The store is made of the surviving blocks, and is configured as it was. -/
structure Tracks (declarations : List NormalizedEntity) (s₀ s : EntityStore X H C)
    (kept : List (AppliedCall X H C)) (applied : List (AppliedBlock EntityKey (Record X) H)) : Prop where
  represents : s.Represents applied
  resolved : List.Forall₂ (Resolves declarations) kept applied
  provided : s.provided = s₀.provided

variable {declarations : List NormalizedEntity} {s₀ s u : EntityStore X H C} {kept : List (AppliedCall X H C)}
  {applied : List (AppliedBlock EntityKey (Record X) H)}

omit [DecidableEq H] in
/-- Every block the store is made of was called for. -/
theorem exists_resolves (h : List.Forall₂ (Resolves declarations) kept applied)
    {b : AppliedBlock EntityKey (Record X) H} (hb : b ∈ applied) : ∃ call ∈ kept, Resolves declarations call b := by
  induction h with
  | nil => cases hb
  | cons hcall _ ih =>
    rcases List.mem_cons.1 hb with rfl | hb
    · exact ⟨_, List.mem_cons_self, hcall⟩
    · obtain ⟨call, hmem, hresolves⟩ := ih hb
      exact ⟨call, List.mem_cons_of_mem _ hmem, hresolves⟩

omit [DecidableEq H] in
theorem Tracks.revertTo (h : Tracks declarations s₀ s kept applied) (k : ℤ) :
    Tracks declarations s₀ (s.revertTo k) (kept.filter fun call => (call.block.number : ℤ) ≤ k)
      (applied.filter fun b => (b.block.number : ℤ) ≤ k) := by
  refine ⟨h.represents.revertTo k, ?_, h.provided⟩
  refine List.rel_filter ?_ h.resolved
  intro call b hcall
  dsimp only
  rw [hcall.block]

theorem Tracks.perform (h : Tracks declarations s₀ s kept applied) (call : StoreCall X H C) :
    ∃ applied', Tracks declarations s₀ (perform declarations s call) (surviving declarations s kept call) applied' := by
  cases call with
  | applyBlock call =>
    unfold EntityStore.perform surviving
    dsimp only
    rcases applyBlock_cases declarations call s with ⟨error, hrun⟩ | ⟨planned, s', hplan, happly, hrun⟩
    · rw [hrun]
      exact ⟨applied, h⟩
    · rw [hrun]
      refine ⟨_, h.represents.applyBlock happly, ?_, (MemoryStateStore.afterBlock happly).provided.trans h.provided⟩
      exact List.rel_append h.resolved (.cons ⟨rfl, hplan⟩ .nil)
  | revertTo k => exact ⟨_, h.revertTo k⟩
  | writeCursor key value => exact ⟨applied, h.represents.writeCursor key value, h.resolved, h.provided⟩

theorem run_concat (declarations : List NormalizedEntity) (s : EntityStore X H C) (calls : List (StoreCall X H C))
    (call : StoreCall X H C) : run declarations s (calls ++ [call]) =
      (perform declarations (run declarations s calls).1 call,
        surviving declarations (run declarations s calls).1 (run declarations s calls).2 call) := by
  unfold run
  rw [List.foldl_append]
  rfl

variable (declarations) in
/-- **After any calls the store is made of the surviving blocks.** -/
theorem tracks_run (h₀ : s₀.Represents []) (calls : List (StoreCall X H C)) :
    ∃ applied, Tracks declarations s₀ (run declarations s₀ calls).1 (run declarations s₀ calls).2 applied := by
  induction calls using List.reverseRecOn with
  | nil => exact ⟨[], h₀, .nil, rfl⟩
  | append_singleton calls call ih =>
    obtain ⟨applied, htracks⟩ := ih
    rw [run_concat]
    exact htracks.perform call

/-- Blocks that ascend above what a store is made of are all accepted. -/
theorem rebuild_tracks {pre rest : List (AppliedBlock EntityKey (Record X) H)} (hs : s.Represents pre)
    (hresolved : List.Forall₂ (Resolves declarations) kept rest)
    (hascending : (pre ++ rest).Pairwise fun a b => a.block.number < b.block.number)
    (hdistinct : (pre ++ rest).Pairwise fun a b => a.block.hash ≠ b.block.hash) :
    ∃ u, rebuild declarations s kept = .ok u ∧ u.Represents (pre ++ rest) ∧ u.provided = s.provided := by
  induction hresolved generalizing s pre with
  | nil => exact ⟨s, rfl, by rwa [List.append_nil], rfl⟩
  | cons hcall _ ih =>
    rename_i call b kept rest _
    have habove : ∀ a ∈ s.blocks, a.number < call.block.number ∧ a.hash ≠ call.block.hash := by
      intro a ha
      rw [hs.blocks] at ha
      obtain ⟨a', ha', rfl⟩ := List.mem_map.1 ha
      rw [hcall.block]
      have hb : b ∈ b :: rest := List.mem_cons_self
      exact ⟨(List.pairwise_append.1 hascending).2.2 a' ha' b hb,
        (List.pairwise_append.1 hdistinct).2.2 a' ha' b hb⟩
    obtain ⟨s', hs'⟩ := MemoryStateStore.applyBlock_accepted hs.wellFormed habove b.mutations call.cursor
    have hnext := hs.applyBlock hs'
    rw [hcall.block] at hnext
    have hsplit : pre ++ b :: rest = (pre ++ [⟨b.block, b.mutations⟩]) ++ rest := by simp
    rw [hsplit] at hascending hdistinct ⊢
    obtain ⟨u, hu, hrep, hprov⟩ := ih hnext hascending hdistinct
    refine ⟨u, ?_, hrep, hprov.trans (MemoryStateStore.afterBlock hs').provided⟩
    unfold rebuild at hu ⊢
    rw [List.foldlM_cons, applyBlock_of_accepted hcall.mutations hs']
    exact hu

omit [DecidableEq H] in
/-- **Two stores made of the same blocks answer every read alike.** -/
theorem reads_congr (hs : s.Represents applied) (hu : u.Represents applied) (hprov : s.provided = u.provided) :
    (∀ entity id, getCurrent declarations s entity id = getCurrent declarations u entity id) ∧
    (∀ entity idPrefix limit, listCurrent declarations s entity idPrefix limit =
      listCurrent declarations u entity idPrefix limit) ∧
    (∀ entity id height, getAsOf declarations s entity id height = getAsOf declarations u entity id height) ∧
    ∀ entity idPrefix height limit, listAsOf declarations s entity idPrefix height limit =
      listAsOf declarations u entity idPrefix height limit := by
  have hsame : ∀ (matching : Version (Record X) → Bool) key,
      (versionsOf s.rows key).find? matching = (versionsOf u.rows key).find? matching := by
    intro matching key
    rw [hs.versions, hu.versions]
  have htip : s.tip = u.tip := by rw [hs.tip, hu.tip]
  refine ⟨fun entity id => read_congr (hsame _) id, fun entity idPrefix limit => ?_, fun entity id height => ?_,
    fun entity idPrefix height limit => ?_⟩
  · exact scan_congr hs.wellFormed.nodup hu.wellFormed.nodup (hsame _) idPrefix limit
  · unfold getAsOf
    rw [hprov, htip, read_congr (hsame _) id]
  · unfold listAsOf
    rw [hprov, htip, scan_congr hs.wellFormed.nodup hu.wellFormed.nodup (hsame _) idPrefix limit]

variable (declarations) in
/-- **The store refines a history of snapshots.** After any calls, and a revert to any height,
every read answers as a store that only ever saw the surviving blocks up to that height; what a key
holds as of a height is what the last of their mutations left; the versions of a key are disjoint,
at most one of them live; and a refused block changes nothing. -/
theorem refines_snapshots {setting : Option RetentionSetting} {finalityDepth : Option ℕ}
    (hnew : MemoryStateStore.new setting finalityDepth = .ok s₀) (calls : List (StoreCall X H C)) :
    (∀ k : ℤ, ∃ u, rebuild declarations s₀
        ((run declarations s₀ calls).2.filter fun call => (call.block.number : ℤ) ≤ k) = .ok u ∧
      (∀ entity id, getCurrent declarations ((run declarations s₀ calls).1.revertTo k) entity id =
        getCurrent declarations u entity id) ∧
      (∀ entity idPrefix limit, listCurrent declarations ((run declarations s₀ calls).1.revertTo k) entity
        idPrefix limit = listCurrent declarations u entity idPrefix limit) ∧
      (∀ entity id height, getAsOf declarations ((run declarations s₀ calls).1.revertTo k) entity id height =
        getAsOf declarations u entity id height) ∧
      (∀ entity idPrefix height limit,
        listAsOf declarations ((run declarations s₀ calls).1.revertTo k) entity idPrefix height limit =
          listAsOf declarations u entity idPrefix height limit) ∧
      ∀ key, (asOf k (versionsOf (run declarations s₀ calls).1.rows key)).map (·.values) =
        (current (versionsOf u.rows key)).map (·.values)) ∧
    (∃ applied, List.Forall₂ (Resolves declarations) (run declarations s₀ calls).2 applied ∧ ∀ key (k : ℤ),
      (asOf k (versionsOf (run declarations s₀ calls).1.rows key)).map (·.values) =
        valueOf key (applied.filter fun b => (b.block.number : ℤ) ≤ k)) ∧
    (∀ key, ((versionsOf (run declarations s₀ calls).1.rows key).Pairwise fun a b =>
        ∀ height, ¬(a.openAt height = true ∧ b.openAt height = true)) ∧
      ((versionsOf (run declarations s₀ calls).1.rows key).filter (·.upper.isNone)).length ≤ 1) ∧
    ∀ call error s', (applyBlock declarations call).run.run (run declarations s₀ calls).1 = (.error error, s') →
      s' = (run declarations s₀ calls).1 := by
  obtain ⟨applied, htracks⟩ := tracks_run declarations (MemoryStateStore.represents_new hnew) calls
  have hvalues : ∀ key (k : ℤ), (asOf k (versionsOf (run declarations s₀ calls).1.rows key)).map (·.values) =
      valueOf key (applied.filter fun b => (b.block.number : ℤ) ≤ k) :=
    fun key k => htracks.represents.asOf key k
  refine ⟨fun k => ?_, ⟨applied, htracks.resolved, hvalues⟩, fun key => ?_, fun call error s' hrun => ?_⟩
  · have hrevert := htracks.revertTo k
    obtain ⟨u, hu, hrep, hprov⟩ := rebuild_tracks (MemoryStateStore.represents_new hnew) hrevert.resolved
      hrevert.represents.ascending hrevert.represents.distinct
    obtain ⟨hget, hlist, hgetAsOf, hlistAsOf⟩ :=
      reads_congr hrevert.represents hrep (hrevert.provided.trans hprov.symm)
    exact ⟨u, hu, hget, hlist, hgetAsOf, hlistAsOf, fun key => (hvalues key k).trans (hrep.current key).symm⟩
  · have hchained := htracks.represents.wellFormed.chained key
    exact ⟨hchained.disjoint, hchained.length_live_le⟩
  · rcases applyBlock_cases declarations call (run declarations s₀ calls).1 with
      ⟨error', hcase⟩ | ⟨planned, s'', -, -, hcase⟩
    · rw [hcase] at hrun
      cases hrun
      rfl
    · rw [hcase] at hrun
      cases hrun

end EntityStore

/-- One entity with one id column and one field. -/
def coin : NormalizedEntity :=
  ⟨"coin", ["id"], [("value", .storage)], by decide, by decide, by decide⟩

/-- Block 2 writes and deletes the coin, is offered twice, and is reverted. -/
def coinCalls : List (StoreCall Unit ℕ Unit) :=
  [.applyBlock ⟨⟨1, 1⟩, [.upsert "coin" [("id", [65])] [("value", .number 10)]], none⟩,
    .applyBlock ⟨⟨2, 2⟩, [.upsert "coin" [("id", [65])] [], .delete "coin" [("id", [65])]], none⟩,
    .applyBlock ⟨⟨2, 3⟩, [.delete "coin" [("id", [65])]], none⟩, .revertTo 1,
    .applyBlock ⟨⟨3, 4⟩, [.delete "coin" [("id", [65])]], none⟩]

/-- An unconfigured store. -/
def emptyStore : EntityStore Unit ℕ Unit := ⟨[], [], fun _ => none, .unbounded, none, none⟩

theorem refines_snapshots_coinCalls : ∃ u, EntityStore.rebuild [coin] emptyStore
      ((EntityStore.run [coin] emptyStore coinCalls).2.filter fun call => (call.block.number : ℤ) ≤ 2) = .ok u ∧
    EntityStore.getCurrent [coin] ((EntityStore.run [coin] emptyStore coinCalls).1.revertTo 2) "coin"
      [("id", [65])] = EntityStore.getCurrent [coin] u "coin" [("id", [65])] ∧
    (current (versionsOf u.rows ⟨"coin", [[65]]⟩)).map (·.values) =
      some [("id", .text [65]), ("value", .number 10)] := by
  have hnew : MemoryStateStore.new none none = .ok emptyStore := rfl
  have hall := EntityStore.refines_snapshots [coin] hnew coinCalls
  obtain ⟨u, hu, hget, -, -, -, hvalues⟩ := hall.1 2
  exact ⟨u, hu, hget "coin" [("id", [65])], (hvalues ⟨"coin", [[65]]⟩).symm.trans rfl⟩

end Etherfold
