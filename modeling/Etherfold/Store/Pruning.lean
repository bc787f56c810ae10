import Etherfold.Store.Memory

/-!
# Pruning and reverting

A prune deletes what no read inside the retention can see. A revert opens closed
versions again, and the deepest one a reorg can ask for, of the block `finality`
below the tip, needs the versions that block itself closed.

* `Shadow`: the pruned store next to the same history without the prunes.
* `revert_after_prune_iff`: **when a revert of the pruned store is the revert of the
  unpruned one**.
-/

namespace Etherfold

open Versions

/-- What a caller does to a store. -/
inductive StoreOp (K V H C : Type) where
  | applyBlock (block : BlockPointer H) (mutations : List (Mutation K V)) (cursor : Option (String × C))
  | revertTo (keepUpTo : ℤ)
  | prune (maxVersions : Option ℕ)
  | writeCursor (key : String) (value : C)
  | clearCursor (key : String)

variable {K V H C : Type}

def StoreOp.isPrune : StoreOp K V H C → Bool
  | .prune _ => true
  | _ => false

/-- The same history without any prune. -/
def unpruned (ops : List (StoreOp K V H C)) : List (StoreOp K V H C) := ops.filter (!·.isPrune)

variable [DecidableEq K] [DecidableEq H]

namespace MemoryStateStore

/-- One operation; a refused one leaves the store. -/
def perform (s : MemoryStateStore K V H C) : StoreOp K V H C → MemoryStateStore K V H C
  | .applyBlock block mutations cursor =>
    match s.applyBlock block mutations cursor with
    | .ok s' => s'
    | .error _ => s
  | .revertTo keepUpTo => s.revertTo keepUpTo
  | .prune maxVersions => (s.prune maxVersions).1
  | .writeCursor key value => s.writeCursor key value
  | .clearCursor key => s.clearCursor key

/-- A history. -/
def performs (s : MemoryStateStore K V H C) (ops : List (StoreOp K V H C)) : MemoryStateStore K V H C :=
  ops.foldl perform s

/-- The floors a history pruned at. -/
def pruneFloors (s : MemoryStateStore K V H C) : List (StoreOp K V H C) → List ℕ
  | [] => []
  | op :: ops => (if op.isPrune then s.floor.toList else []) ++ pruneFloors (s.perform op) ops

omit [DecidableEq H] in
/-- What a reader and a resuming indexer can see: the blocks, the tip, the cursors and every
key's current value. -/
def SameState (s u : MemoryStateStore K V H C) : Prop :=
  (s.blocks = u.blocks ∧ s.tip = u.tip ∧ s.cursors = u.cursors) ∧ ∀ key, s.getCurrent key = u.getCurrent key

/-- `s` is `u` with some versions gone. -/
structure Shadow (s u : MemoryStateStore K V H C) : Prop where
  wellFormed : u.WellFormed
  same : s = { u with rows := s.rows }
  nodup : KeysNodup s.rows
  sublist : ∀ key, (versionsOf s.rows key).Sublist (versionsOf u.rows key)

/-- Whether a block is refused does not depend on the rows. -/
theorem applyBlock_rows (u : MemoryStateStore K V H C) (rows : List (Row K V)) (block : BlockPointer H)
    (mutations : List (Mutation K V)) (cursor : Option (String × C)) :
    ({ u with rows := rows } : MemoryStateStore K V H C).applyBlock block mutations cursor =
      (u.applyBlock block mutations cursor).map fun u' =>
        { u' with rows := mutations.foldl (applyMutation block.number) rows } := by
  unfold applyBlock
  dsimp only
  split
  · rfl
  split
  · rfl
  split <;> rfl

omit [DecidableEq H] in
/-- A relation between two histories of a key that writing keeps, a block keeps. -/
theorem writes_rel {R : List (Version V) → List (Version V) → Prop} {number : ℕ} {key : K} {N : ℕ → Prop}
    (hR : ∀ vs us value, Chained us → R vs us → R (write number value vs) (write number value us))
    (ms : List (Mutation K V)) (hN : N number) (hle : ∀ n, N n → n ≤ number) {vs us : List (Version V)}
    (hc : Chained us) (hw : Within N us) (h : R vs us) :
    R (writes number key ms vs) (writes number key ms us) := by
  induction ms generalizing vs us with
  | nil => exact h
  | cons m ms ih =>
    unfold writes
    rw [List.foldl_cons, List.foldl_cons]
    obtain ⟨hc', hw'⟩ : Chained (writes number key [m] _) ∧ Within N (writes number key [m] _) :=
      chained_writes [m] hN hle hc hw
    split
    · rename_i hkey
      rw [show writes number key [m] us = write number m.values us from if_pos hkey] at hc' hw'
      exact ih hc' hw' (hR _ _ _ hc h)
    · exact ih hc hw h

/-- What an accepted block keeps between the two stores, key by key. -/
theorem Shadow.applyBlock {s u s' : MemoryStateStore K V H C} (h : Shadow s u) {block : BlockPointer H}
    {mutations : List (Mutation K V)} {cursor : Option (String × C)}
    (hok : s.applyBlock block mutations cursor = .ok s') :
    ∃ u', u.applyBlock block mutations cursor = .ok u' ∧ Shadow s' u' ∧
      ∀ R : List (Version V) → List (Version V) → Prop,
        (∀ vs us value, Chained us → R vs us → R (write block.number value vs) (write block.number value us)) →
        ∀ key, R (versionsOf s.rows key) (versionsOf u.rows key) →
          R (versionsOf s'.rows key) (versionsOf u'.rows key) := by
  have hrows := applyBlock_rows u s.rows block mutations cursor
  rw [← h.same, hok] at hrows
  cases hu : u.applyBlock block mutations cursor with
  | error e => rw [hu] at hrows; cases hrows
  | ok u' =>
    rw [hu] at hrows
    have hs' : s' = { u' with rows := mutations.foldl (applyMutation block.number) s.rows } :=
      Except.ok.inj hrows
    obtain ⟨hbelow, -, -, hu', -⟩ := applyBlock_ok h.wellFormed hu
    have hkeep : ∀ R : List (Version V) → List (Version V) → Prop,
        (∀ vs us value, Chained us → R vs us → R (write block.number value vs) (write block.number value us)) →
        ∀ key, R (versionsOf s.rows key) (versionsOf u.rows key) →
          R (versionsOf s'.rows key) (versionsOf u'.rows key) := by
      intro R hR key hrel
      have hwithin : Within (· ≤ block.number) (versionsOf u.rows key) := by
        intro v hv
        obtain ⟨⟨b, hb, hlo⟩, hup⟩ := h.wellFormed.within key v hv
        refine ⟨hlo ▸ (hbelow b hb).1.le, fun x hx => ?_⟩
        obtain ⟨b', hb', hbx⟩ := hup x hx
        exact hbx ▸ (hbelow b' hb').1.le
      rw [hu' key, hs', versionsOf_foldl]
      exact writes_rel (N := (· ≤ block.number)) hR mutations le_rfl (fun _ h => h) (h.wellFormed.chained key) hwithin hrel
    refine ⟨u', rfl, ⟨h.wellFormed.applyBlock hu, by rw [hs'], ?_, ?_⟩, hkeep⟩
    · rw [hs']
      exact keysNodup_foldl mutations h.nodup
    · intro key
      exact hkeep List.Sublist (fun vs us value hc hs => sublist_write hc hs _ value) key (h.sublist key)

/-- A block refused by one store is refused by the other. -/
theorem Shadow.applyBlock_error {s u : MemoryStateStore K V H C} (h : Shadow s u) {block : BlockPointer H}
    {mutations : List (Mutation K V)} {cursor : Option (String × C)} {e : StoreWriteRefusedError H}
    (herr : s.applyBlock block mutations cursor = .error e) :
    u.applyBlock block mutations cursor = .error e := by
  have hrows := applyBlock_rows u s.rows block mutations cursor
  rw [← h.same, herr] at hrows
  cases hu : u.applyBlock block mutations cursor with
  | error e' => rw [hu] at hrows; exact congrArg _ (Except.error.inj hrows).symm
  | ok u' => rw [hu] at hrows; cases hrows

omit [DecidableEq H] in
theorem Shadow.revertTo {s u : MemoryStateStore K V H C} (h : Shadow s u) (k : ℤ) :
    Shadow (s.revertTo k) (u.revertTo k) := by
  refine ⟨h.wellFormed.revertTo k, ?_, ?_, fun key => ?_⟩
  · have hsame := h.same
    generalize s.rows = rows at hsame
    rw [hsame]
    rfl
  · exact keysNodup_revertTo h.nodup k
  · rw [versionsOf_revertTo h.nodup, versionsOf_revertTo h.wellFormed.nodup]
    exact sublist_cutAt (h.sublist key) k

omit [DecidableEq H] in
theorem Shadow.prune {s u : MemoryStateStore K V H C} (h : Shadow s u) (maxVersions : Option ℕ) :
    Shadow (s.prune maxVersions).1 u := by
  obtain ⟨⟨rows, heq, hnodup⟩, hthin⟩ := prune_thinned h.nodup maxVersions
  refine ⟨h.wellFormed, ?_, ?_, fun key => (hthin key).sublist.trans (h.sublist key)⟩
  · rw [heq]
    have hsame := h.same
    generalize s.rows = old at hsame
    rw [hsame]
  · rw [heq]
    exact hnodup

/-- **One operation** keeps the pruned store the shadow of the unpruned one. -/
theorem Shadow.perform {s u : MemoryStateStore K V H C} (h : Shadow s u) (op : StoreOp K V H C) :
    Shadow (s.perform op) (u.performs (unpruned [op])) := by
  cases op with
  | applyBlock block mutations cursor =>
    show Shadow (match s.applyBlock block mutations cursor with | .ok s' => s' | .error _ => s)
      (match u.applyBlock block mutations cursor with | .ok u' => u' | .error _ => u)
    cases hs : s.applyBlock block mutations cursor with
    | ok s' =>
      obtain ⟨u', hu, hshadow, -⟩ := h.applyBlock hs
      rw [hu]
      exact hshadow
    | error e =>
      rw [h.applyBlock_error hs]
      exact h
  | revertTo k => exact h.revertTo k
  | prune maxVersions => exact h.prune maxVersions
  | writeCursor key value =>
    refine ⟨⟨h.wellFormed.nodup, h.wellFormed.ascending, h.wellFormed.tip, h.wellFormed.chained,
      h.wellFormed.within⟩, ?_, h.nodup, h.sublist⟩
    have hsame := h.same
    generalize s.rows = old at hsame
    rw [hsame]
    rfl
  | clearCursor key =>
    refine ⟨⟨h.wellFormed.nodup, h.wellFormed.ascending, h.wellFormed.tip, h.wellFormed.chained,
      h.wellFormed.within⟩, ?_, h.nodup, h.sublist⟩
    have hsame := h.same
    generalize s.rows = old at hsame
    rw [hsame]
    rfl

/-- **One operation** loses no version beyond those closed at a floor it prunes at, as long as
it reverts no further than the versions already missing were closed. -/
theorem Shadow.thinned {s u : MemoryStateStore K V H C} (h : Shadow s u) {P : ℕ → Prop}
    (ht : ∀ key, Thinned P (versionsOf s.rows key) (versionsOf u.rows key)) (op : StoreOp K V H C)
    (hop : ∀ k, op = .revertTo k → ∀ x : ℕ, P x → (x : ℤ) ≤ k) (key : K) :
    Thinned (fun x => P x ∨ ∃ f ∈ if op.isPrune then s.floor.toList else [], x ≤ f)
      (versionsOf (s.perform op).rows key) (versionsOf (u.performs (unpruned [op])).rows key) := by
  have hmono : ∀ x, P x → P x ∨ ∃ f ∈ if op.isPrune then s.floor.toList else [], x ≤ f := fun _ => .inl
  cases op with
  | applyBlock block mutations cursor =>
    refine Thinned.mono (P := P) ?_ hmono
    show Thinned P (versionsOf (match s.applyBlock block mutations cursor with
        | .ok s' => s' | .error _ => s).rows key)
      (versionsOf (match u.applyBlock block mutations cursor with | .ok u' => u' | .error _ => u).rows key)
    cases hs : s.applyBlock block mutations cursor with
    | ok s' =>
      obtain ⟨u', hu, -, hkeep⟩ := h.applyBlock hs
      rw [hu]
      exact hkeep (Thinned P) (fun vs us value hc ht => ht.write hc _ value) key (ht key)
    | error e =>
      rw [h.applyBlock_error hs]
      exact ht key
  | revertTo k =>
    refine Thinned.mono (P := P) ?_ hmono
    show Thinned P (versionsOf (s.revertTo k).rows key) (versionsOf (u.revertTo k).rows key)
    rw [versionsOf_revertTo h.nodup, versionsOf_revertTo h.wellFormed.nodup]
    exact (ht key).cutAt (hop k rfl)
  | prune maxVersions =>
    obtain ⟨-, hthin⟩ := prune_thinned h.nodup maxVersions
    refine ((hthin key).trans (ht key)).mono fun x hx => hx.imp_right fun ⟨f, hf, hle⟩ => ⟨f, ?_, hle⟩
    exact Option.mem_toList.2 hf
  | writeCursor _ _ => exact (ht key).mono hmono
  | clearCursor _ => exact (ht key).mono hmono

/-! ### Histories -/

/-- No revert of the history reaches a height that was pruned away before it. -/
def RevertsAboveFloors (s : MemoryStateStore K V H C) (ops : List (StoreOp K V H C)) : Prop :=
  ∀ pre k post, ops = pre ++ .revertTo k :: post → ∀ f ∈ s.pruneFloors pre, (f : ℤ) ≤ k

theorem performs_concat (s : MemoryStateStore K V H C) (ops : List (StoreOp K V H C)) (op : StoreOp K V H C) :
    s.performs (ops ++ [op]) = (s.performs ops).perform op := by
  unfold performs
  rw [List.foldl_append]
  rfl

theorem performs_unpruned_concat (s : MemoryStateStore K V H C) (ops : List (StoreOp K V H C))
    (op : StoreOp K V H C) :
    s.performs (unpruned (ops ++ [op])) = (s.performs (unpruned ops)).performs (unpruned [op]) := by
  unfold performs unpruned
  rw [List.filter_append, List.foldl_append]

theorem pruneFloors_concat (s : MemoryStateStore K V H C) (ops : List (StoreOp K V H C)) (op : StoreOp K V H C) :
    s.pruneFloors (ops ++ [op]) =
      s.pruneFloors ops ++ if op.isPrune then (s.performs ops).floor.toList else [] := by
  induction ops generalizing s with
  | nil =>
    show (if op.isPrune then s.floor.toList else []) ++ [] = _
    rw [List.append_nil]
    rfl
  | cons o ops ih =>
    rw [List.cons_append, pruneFloors, ih, pruneFloors, List.append_assoc]
    rfl

/-- **A history** keeps the pruned store the shadow of the unpruned one. -/
theorem Shadow.performs {s : MemoryStateStore K V H C} (hs : s.WellFormed) (ops : List (StoreOp K V H C)) :
    Shadow (s.performs ops) (s.performs (unpruned ops)) := by
  induction ops using List.reverseRecOn with
  | nil => exact ⟨hs, rfl, hs.nodup, fun key => List.Sublist.refl _⟩
  | append_singleton ops op ih =>
    rw [performs_concat, performs_unpruned_concat]
    exact ih.perform op

/-- A history whose reverts stay above what it pruned has lost only versions closed at or below
its floors. -/
theorem thinned_performs {s : MemoryStateStore K V H C} (hs : s.WellFormed) (ops : List (StoreOp K V H C))
    (habove : s.RevertsAboveFloors ops) (key : K) :
    Thinned (fun x => ∃ f ∈ s.pruneFloors ops, x ≤ f) (versionsOf (s.performs ops).rows key)
      (versionsOf (s.performs (unpruned ops)).rows key) := by
  induction ops using List.reverseRecOn generalizing key with
  | nil => exact .refl _ _
  | append_singleton ops op ih =>
    have hprev : s.RevertsAboveFloors ops := by
      intro pre k post heq
      exact habove pre k (post ++ [op]) (by rw [heq]; simp)
    rw [performs_concat, performs_unpruned_concat]
    refine ((Shadow.performs hs ops).thinned (ih hprev) op ?_ key).mono ?_
    · intro k hop x hx
      obtain ⟨f, hf, hle⟩ := hx
      have hfk := habove ops k [] (by rw [hop]) f hf
      omega
    · intro x hx
      rw [pruneFloors_concat]
      rcases hx with ⟨f, hf, hle⟩ | ⟨f, hf, hle⟩
      · exact ⟨f, List.mem_append_left _ hf, hle⟩
      · exact ⟨f, List.mem_append_right _ hf, hle⟩

omit [DecidableEq H] in
/-- Two stores revert to the same state exactly when the thinned one kept what stood at the
height. -/
theorem Shadow.sameState_revertTo_iff {s u : MemoryStateStore K V H C} (h : Shadow s u) (k : ℤ) :
    SameState (s.revertTo k) (u.revertTo k) ↔
      ∀ key, ∀ v ∈ versionsOf u.rows key, v.openAt k = true → v ∈ versionsOf s.rows key := by
  have hsame : (s.revertTo k).blocks = (u.revertTo k).blocks ∧ (s.revertTo k).tip = (u.revertTo k).tip ∧
      (s.revertTo k).cursors = (u.revertTo k).cursors := by
    have hrows := (h.revertTo k).same
    rw [hrows]
    exact ⟨rfl, rfl, rfl⟩
  unfold SameState
  rw [and_iff_right hsame]
  refine forall_congr' fun key => ?_
  rw [getCurrent_revertTo h.nodup, getCurrent_revertTo h.wellFormed.nodup]
  exact asOf_sublist_iff (h.wellFormed.chained key) (h.sublist key)

omit [DecidableEq K] [DecidableEq H] in
theorem new_ok {setting : Option RetentionSetting} {finality : ℕ} {s : MemoryStateStore K V H C}
    (h : new setting (some finality) = .ok s) :
    ∃ provided, resolveRetention setting (some finality) = .ok provided ∧
      s = ⟨[], [], fun _ => none, provided, some finality, none⟩ := by
  unfold new at h
  cases hr : resolveRetention setting (some finality) with
  | error e => rw [hr] at h; cases h
  | ok provided => rw [hr] at h; cases h; exact ⟨provided, rfl, rfl⟩

/-- A history leaves the retention as configured. -/
theorem performs_retention (s : MemoryStateStore K V H C) (ops : List (StoreOp K V H C)) :
    (s.performs ops).provided = s.provided ∧ (s.performs ops).finalityDepth = s.finalityDepth := by
  induction ops using List.reverseRecOn with
  | nil => exact ⟨rfl, rfl⟩
  | append_singleton ops op ih =>
    rw [performs_concat]
    have hstep : ∀ t : MemoryStateStore K V H C,
        (t.perform op).provided = t.provided ∧ (t.perform op).finalityDepth = t.finalityDepth := by
      intro t
      cases op with
      | applyBlock block mutations cursor =>
        simp only [perform, applyBlock]
        split
        · rename_i t' ht
          split at ht
          · cases ht
          split at ht
          · cases ht
          split at ht
          · cases ht
          · cases ht
            exact ⟨rfl, rfl⟩
        · exact ⟨rfl, rfl⟩
      | revertTo k => exact ⟨rfl, rfl⟩
      | prune maxVersions =>
        simp only [perform, prune]
        split <;> exact ⟨rfl, rfl⟩
      | writeCursor key value => exact ⟨rfl, rfl⟩
      | clearCursor key => exact ⟨rfl, rfl⟩
    rw [(hstep _).1, (hstep _).2]
    exact ih

omit [DecidableEq H] in
/-- The pruned store is a well formed store as well. -/
theorem Shadow.wellFormed_left {s u : MemoryStateStore K V H C} (h : Shadow s u) : s.WellFormed := by
  have hblocks : s.blocks = u.blocks := by
    rw [h.same]
  have htip : s.tip = u.tip := by
    rw [h.same]
  refine ⟨h.nodup, hblocks ▸ h.wellFormed.ascending, ?_, fun key => (h.wellFormed.chained key).sublist
    (h.sublist key), fun key v hv => ?_⟩
  · rw [htip, hblocks]
    exact h.wellFormed.tip
  · rw [hblocks]
    exact h.wellFormed.within key v ((h.sublist key).subset hv)

omit [DecidableEq H] in
/-- **A complete prune before the deepest legal revert**: it takes a version the revert needs
exactly when its floor is the block to retract and that block closed an older version. -/
theorem prune_revert_iff {s : MemoryStateStore K V H C} (hs : s.WellFormed) {setting : Option RetentionSetting}
    {finality : ℕ} (hprovided : resolveRetention setting (some finality) = .ok s.provided)
    (hdepth : s.finalityDepth = some finality) {tip L : ℕ} (htip : s.tip = some tip)
    (hlegal : tip ≤ L + finality) :
    SameState ((s.prune none).1.revertTo (L - 1)) (s.revertTo (L - 1)) ↔
      ¬(s.floor = some L ∧ ∃ key, ∃ v ∈ versionsOf s.rows key, v.lower < L ∧ v.upper = some L) := by
  have hshadow : Shadow (s.prune none).1 s := (Shadow.mk hs rfl hs.nodup fun _ => .refl _).prune none
  have hfloor : s.floor = retentionFloor s.provided tip (some finality) := by
    unfold floor
    rw [htip, hdepth]
    rfl
  rw [hshadow.sameState_revertTo_iff]
  refine ⟨fun hkept hbad => ?_, fun hgood key v hv hopen => ?_⟩
  · obtain ⟨hL, key, v, hv, hlo, hup⟩ := hbad
    refine prune_complete hs.nodup hL hup le_rfl (hkept key v hv ?_)
    rw [Version.openAt_iff, hup]
    refine ⟨by omega, fun x hx => ?_⟩
    cases hx
    omega
  · by_contra hgone
    obtain ⟨x, hx, f, hf, hle⟩ := ((prune_thinned hs.nodup none).2 key).missing v hv hgone
    obtain ⟨hlo, hhi⟩ := Version.openAt_iff.1 hopen
    have hxL := hhi x hx
    have hbound := retentionFloor_le hprovided (hfloor ▸ hf)
    have hfL : f = L := by omega
    have hxL' : x = L := by omega
    subst hfL
    exact hgood ⟨hf, key, v, hv, by omega, hxL' ▸ hx⟩

/-- **When pruning is invisible to a revert.** For every history of a store and every block `L`:
reverting below `L` leaves what the history without its prunes leaves exactly when no version
that was open at `L - 1` has been pruned. That is so whenever no revert, this one included,
reaches a height pruned away before it; and for the next prune and a block within `finality` of
the tip, exactly when that block is not the floor itself, or closed nothing older. -/
theorem revert_after_prune_iff {setting : Option RetentionSetting} {finality : ℕ}
    {s : MemoryStateStore K V H C} (hnew : new setting (some finality) = .ok s)
    (ops : List (StoreOp K V H C)) (L : ℕ) :
    (SameState ((s.performs ops).revertTo (L - 1)) ((s.performs (unpruned ops)).revertTo (L - 1)) ↔
      ∀ key, ∀ v ∈ versionsOf (s.performs (unpruned ops)).rows key, v.openAt (L - 1) = true →
        v ∈ versionsOf (s.performs ops).rows key) ∧
    (s.RevertsAboveFloors (ops ++ [.revertTo (L - 1)]) →
      SameState ((s.performs ops).revertTo (L - 1)) ((s.performs (unpruned ops)).revertTo (L - 1))) ∧
    ∀ tip, (s.performs ops).tip = some tip → tip ≤ L + finality →
      (SameState (((s.performs ops).prune none).1.revertTo (L - 1)) ((s.performs ops).revertTo (L - 1)) ↔
        ¬((s.performs ops).floor = some L ∧
          ∃ key, ∃ v ∈ versionsOf (s.performs ops).rows key, v.lower < L ∧ v.upper = some L)) := by
  have hs := wellFormed_new hnew
  obtain ⟨provided, hprovided, hs₀⟩ := new_ok hnew
  have hshadow := Shadow.performs hs ops
  refine ⟨hshadow.sameState_revertTo_iff _, fun habove => ?_, fun tip htip hlegal => ?_⟩
  · refine (hshadow.sameState_revertTo_iff _).2 fun key v hv hopen => ?_
    by_contra hgone
    have hprev : s.RevertsAboveFloors ops := by
      intro pre k post heq
      exact habove pre k (post ++ [.revertTo (L - 1)]) (by rw [heq]; simp)
    obtain ⟨x, hx, f, hf, hle⟩ := (thinned_performs hs ops hprev key).missing v hv hgone
    have hfL := habove ops (L - 1) [] rfl f hf
    have hxL := (Version.openAt_iff.1 hopen).2 x hx
    omega
  · obtain ⟨hp, hd⟩ := performs_retention s ops
    rw [hs₀] at hp hd
    exact prune_revert_iff hshadow.wellFormed_left (by rw [hs₀, hp]; exact hprovided) (by rw [hs₀, hd]) htip
      hlegal

end MemoryStateStore

/-- Three blocks: key 0 is written at 1 and again at 2, and the tip goes to 4. -/
def threeBlocks : List (StoreOp ℕ ℕ ℕ Unit) :=
  [.applyBlock ⟨1, 1⟩ [.upsert 0 10] none, .applyBlock ⟨2, 2⟩ [.upsert 0 20] none,
    .applyBlock ⟨4, 4⟩ [.upsert 1 40] none]

/-- A store with a window as deep as the finality depth. -/
def windowTwo : MemoryStateStore ℕ ℕ ℕ Unit := ⟨[], [], fun _ => none, .window 2, some 2, none⟩

theorem revert_after_prune_threeBlocks :
    MemoryStateStore.SameState (((windowTwo.performs threeBlocks).prune none).1.revertTo ((3 : ℕ) - 1))
      ((windowTwo.performs threeBlocks).revertTo ((3 : ℕ) - 1)) :=
  ((MemoryStateStore.revert_after_prune_iff (show MemoryStateStore.new (some (.blocks 2)) (some 2) =
    .ok windowTwo from rfl) threeBlocks 3).2.2 4 (by decide) (by decide)).2 fun h => by
      have hfloor : (windowTwo.performs threeBlocks).floor = some 2 := by decide
      rw [hfloor] at h
      cases h.1

/-- Block 2 is within finality 2 of the tip 4, and its revert misses what block 1 wrote. -/
theorem threeBlocks_lost :
    MemoryStateStore.new (some (.blocks 2)) (some 2) = .ok windowTwo ∧
    (windowTwo.performs (threeBlocks ++ [.prune none])).tip = some 4 ∧
    ((windowTwo.performs (threeBlocks ++ [.prune none])).revertTo (2 - 1)).getCurrent 0 = none ∧
    ((windowTwo.performs (unpruned (threeBlocks ++ [.prune none]))).revertTo (2 - 1)).getCurrent 0 = some 10 := by
  refine ⟨rfl, by decide, by decide, by decide⟩

end Etherfold
