import Etherfold.Store.Pruning
import Etherfold.Store.Snapshots

/-!
# As-of reads of a pruned store

What a prune deletes is gone for good, and what a read may ask about is measured back from
the tip, which a revert lowers.

* `MemoryStateStore.Covered`: what is gone ended where the retained range starts.
* `asOf_right_iff`: **every read that is answered is right** exactly when no revert moves the
  start of the retained range below what was deleted.
-/

namespace Etherfold

open Versions

namespace MemoryStateStore

variable {K V H C : Type} [DecidableEq K]

/-- The heights the store answers about. -/
def retained (s : MemoryStateStore K V H C) : Option RetainedRange := s.tip.bind (retainedRange s.provided)

/-- Every version of `u` that is missing from `s` ended where the retained range starts, or
before. -/
def Covered (s u : MemoryStateStore K V H C) : Prop :=
  ∀ key, Lost (fun x => ∀ range ∈ s.retained, x ≤ range.fromBlock) (versionsOf s.rows key) (versionsOf u.rows key)

/-- The range measured back from the highest block at or below `k`. -/
def retainedAt (s : MemoryStateStore K V H C) (k : ℤ) : Option RetainedRange :=
  ((s.blocks.filter fun b => (b.number : ℤ) ≤ k).map (·.number)).max?.bind (retainedRange s.provided)

/-- Every version of `u` that is missing from `s` and began by `k` ended where the range at `k`
starts, or before; one that never stood is no matter. -/
def RevertKeeps (s u : MemoryStateStore K V H C) (k : ℤ) : Prop :=
  ∀ key, ∀ v ∈ versionsOf u.rows key, v ∉ versionsOf s.rows key → v.Stands → (v.lower : ℤ) ≤ k →
    ∀ range ∈ s.retainedAt k, ∃ x, v.upper = some x ∧ x ≤ range.fromBlock

variable {s u : MemoryStateStore K V H C}

theorem Shadow.fields (h : Shadow s u) :
    s.blocks = u.blocks ∧ s.tip = u.tip ∧ s.provided = u.provided := by
  rw [h.same]
  exact ⟨rfl, rfl, rfl⟩

/-- A store that holds a version has a tip at or above it. -/
theorem WellFormed.tip_of_version (h : s.WellFormed) {key : K} {v : Version V} (hv : v ∈ versionsOf s.rows key) :
    ∃ tip, s.tip = some tip ∧ v.lower ≤ tip := by
  obtain ⟨⟨b, hb, hbn⟩, -⟩ := h.within key v hv
  obtain ⟨tip, htip, hle⟩ := h.le_tip hb
  exact ⟨tip, htip, hbn ▸ hle⟩

omit [DecidableEq K] in
/-- Where a store answers historical reads at all, a height is refused below the range. -/
theorem assertRetained_ok (hprov : s.provided ≠ .revertOnly) {height : ℤ} :
    assertRetained s.provided height s.tip = .ok () ↔
      0 ≤ height ∧ ∀ range ∈ s.retained, (range.fromBlock : ℤ) ≤ height := by
  unfold assertRetained retained
  by_cases hneg : height < 0
  · simp [hneg]
  have hpos : 0 ≤ height := not_lt.1 hneg
  cases hp : s.provided with
  | revertOnly => exact absurd hp hprov
  | unbounded => cases s.tip <;> simp [hneg, hpos, retainedRange]
  | window blocks =>
    cases s.tip with
    | none => simp [hneg, hpos]
    | some tip =>
      by_cases hlt : height < ((tip - blocks : ℕ) : ℤ)
      · simp [hneg, retainedRange, hlt, hpos]
      · simp [hneg, retainedRange, hlt, hpos, not_lt.1 hlt]

/-- **A store answers right wherever it answers** exactly when what it lacks is out of its
range. -/
theorem asOf_iff_covered [DecidableEq H] (h : Shadow s u) (hprov : s.provided ≠ .revertOnly) :
    (∀ key height, assertRetained s.provided height s.tip = .ok () →
      asOf height (versionsOf s.rows key) = asOf height (versionsOf u.rows key)) ↔ Covered s u := by
  have htip : ∀ key v, v ∈ versionsOf u.rows key → ∃ range ∈ s.retained, range.fromBlock ≤ range.toBlock ∧
      v.lower ≤ range.toBlock := by
    intro key v hv
    obtain ⟨tip, htip, hle⟩ := h.wellFormed.tip_of_version hv
    unfold retained
    rw [h.fields.2.1, htip]
    cases hp : s.provided with
    | revertOnly => exact absurd hp hprov
    | unbounded => exact ⟨⟨0, tip⟩, rfl, Nat.zero_le _, hle⟩
    | window blocks => exact ⟨⟨tip - blocks, tip⟩, rfl, Nat.sub_le _ _, hle⟩
  constructor
  · intro hright key v hv hgone
    by_contra hnot
    push Not at hnot
    -- the height the version would answer at
    obtain ⟨range, hrange, -, -⟩ := htip key v hv
    have hopen : v.openAt (max range.fromBlock v.lower : ℕ) = true := by
      rw [Version.openAt_iff]
      refine ⟨by omega, fun x hx => ?_⟩
      obtain ⟨hlt, range', hrange', hfrom⟩ := hnot x hx
      have hsame : range' = range := Option.some.inj (hrange'.symm.trans hrange)
      rw [hsame] at hfrom
      omega
    have hanswered := hright key (max range.fromBlock v.lower : ℕ) ((assertRetained_ok hprov).2
      ⟨by omega, fun range' hrange' => by
        have hsame : range' = range := Option.some.inj (hrange'.symm.trans hrange)
        rw [hsame]
        omega⟩)
    rw [(asOf_eq_some_iff (h.wellFormed.chained key)).2 ⟨hv, hopen⟩] at hanswered
    exact hgone ((asOf_eq_some_iff ((h.wellFormed.chained key).sublist (h.sublist key))).1 hanswered).1
  · intro hcovered key height hallowed
    refine asOf_of_kept (h.wellFormed.chained key) (h.sublist key) fun v hv hopen => ?_
    by_contra hgone
    obtain ⟨x, hx, hq⟩ := hcovered key v hv hgone
    obtain ⟨range, hrange, -, -⟩ := htip key v hv
    obtain ⟨hlo, hhi⟩ := Version.openAt_iff.1 hopen
    have hlt := hhi x hx
    have hfrom := ((assertRetained_ok hprov).1 hallowed).2 range hrange
    have hle := hq (by omega) range hrange
    omega

/-! ### What each operation does to the range -/

/-- A higher tip starts the range no lower. -/
theorem retained_mono {provided : Retention} {tip tip' : ℕ} (hle : tip ≤ tip') {range' : RetainedRange}
    (h' : retainedRange provided tip' = some range') :
    ∃ range, retainedRange provided tip = some range ∧ range.fromBlock ≤ range'.fromBlock := by
  unfold retainedRange at h' ⊢
  cases provided with
  | revertOnly => cases h'
  | unbounded => exact ⟨_, rfl, Nat.zero_le _⟩
  | window blocks =>
    cases h'
    exact ⟨_, rfl, Nat.sub_le_sub_right hle blocks⟩

variable [DecidableEq H]

/-- A block moves the start of the range up. -/
theorem Covered.applyBlock {s' : MemoryStateStore K V H C} (h : Shadow s u) (hc : Covered s u)
    {block : BlockPointer H} {mutations : List (Mutation K V)} {cursor : Option (String × C)}
    (hok : s.applyBlock block mutations cursor = .ok s') :
    ∃ u', u.applyBlock block mutations cursor = .ok u' ∧ Shadow s' u' ∧ Covered s' u' := by
  obtain ⟨u', hu, hshadow, hkeep⟩ := h.applyBlock hok
  refine ⟨u', hu, hshadow, fun key => ?_⟩
  have hbefore : Lost (fun x => ∀ range ∈ s'.retained, x ≤ range.fromBlock) (versionsOf s.rows key)
      (versionsOf u.rows key) := by
    intro v hv hgone
    obtain ⟨x, hx, hq⟩ := hc key v hv hgone
    refine ⟨x, hx, fun hlt range' hrange' => ?_⟩
    -- the version was there before the block, so the store had a tip
    obtain ⟨tip, htip, -⟩ := h.wellFormed.tip_of_version hv
    obtain ⟨habove, -, htip', -⟩ := applyBlock_ok h.wellFormed hu
    have hle : tip ≤ block.number := by
      rw [h.wellFormed.tip, List.max?_eq_some_iff] at htip
      obtain ⟨b, hb, hbn⟩ := List.mem_map.1 htip.1
      exact hbn ▸ (habove b hb).1.le
    obtain ⟨-, hstip', hsprov'⟩ := hshadow.fields
    have hprov' : s'.provided = s.provided := (afterBlock hok).provided
    unfold retained at hrange' hq
    rw [hstip', htip', hprov'] at hrange'
    rw [h.fields.2.1, htip] at hq
    obtain ⟨range, hrange, hfrom⟩ := retained_mono hle hrange'
    exact (hq hlt range hrange).trans hfrom
  exact (hkeep (fun vs us => vs.Sublist us ∧
      Lost (fun x => ∀ range ∈ s'.retained, x ≤ range.fromBlock) vs us)
    (fun vs us value hchained hrel => ⟨sublist_write hchained hrel.1 _ value, hrel.2.write hchained hrel.1 _ value⟩)
    key ⟨h.sublist key, hbefore⟩).2

omit [DecidableEq H] in
/-- A prune deletes at or below the start of the range. -/
theorem Covered.prune (h : Shadow s u) (hprov : s.provided ≠ .revertOnly) (hc : Covered s u)
    (maxVersions : Option ℕ) : Covered (s.prune maxVersions).1 u := by
  obtain ⟨⟨rows, hrows, -⟩, hthinned⟩ := prune_thinned h.nodup maxVersions
  have hretained : (s.prune maxVersions).1.retained = s.retained := by
    rw [hrows]
    rfl
  intro key v hv hgone
  rw [hretained]
  by_cases hin : v ∈ versionsOf s.rows key
  · obtain ⟨x, hx, f, hf, hle⟩ := (hthinned key).missing v hin hgone
    refine ⟨x, hx, fun _ range hrange => ?_⟩
    unfold floor at hf
    unfold retained at hrange
    obtain ⟨tip, htip, hfloor⟩ := Option.bind_eq_some_iff.1 hf
    rw [htip, Option.bind_some] at hrange
    cases hp : s.provided with
    | revertOnly => exact absurd hp hprov
    | unbounded => rw [hp] at hfloor; cases hfloor
    | window blocks =>
      rw [hp] at hfloor hrange
      cases hfloor
      cases hrange
      exact hle
  · exact hc key v hv hin

omit [DecidableEq H] in
/-- **A revert keeps the range covered** exactly when it keeps nothing it lacks inside. -/
theorem Covered.revertTo_iff (h : Shadow s u) (hprov : s.provided ≠ .revertOnly) (hc : Covered s u) (k : ℤ) :
    Covered (s.revertTo k) (u.revertTo k) ↔ RevertKeeps s u k := by
  constructor
  · intro hafter key v hv hgone hstands hle range hrange
    have hcut := hafter key
    rw [versionsOf_revertTo h.nodup, versionsOf_revertTo h.wellFormed.nodup] at hcut
    have hmem : v.reopen k ∈ cutAt k (versionsOf u.rows key) := mem_cutAt.2 ⟨v, hv, hle, rfl⟩
    have hmiss : v.reopen k ∉ cutAt k (versionsOf s.rows key) := by
      intro hin
      obtain ⟨w, hw, -, heq⟩ := mem_cutAt.1 hin
      have hsame := (h.wellFormed.chained key).eq_of_reopen hv ((h.sublist key).subset hw) hstands hle heq
      exact hgone (hsame ▸ hw)
    obtain ⟨x, hx, hq⟩ := hcut _ hmem hmiss
    have hx' := (Version.reopen_upper.1 hx).1
    refine ⟨x, hx', hq ?_ range hrange⟩
    rw [Version.reopen_lower]
    exact hstands x hx'
  · intro hkeeps key
    rw [versionsOf_revertTo h.nodup, versionsOf_revertTo h.wellFormed.nodup]
    refine (hc key).cutAt fun v hv hgone hstands hle => ?_
    -- the block the version began at is still recorded, so the store still has a tip
    have hkept : v.reopen k ∈ versionsOf (u.revertTo k).rows key := by
      rw [versionsOf_revertTo h.wellFormed.nodup]
      exact mem_cutAt.2 ⟨v, hv, hle, rfl⟩
    obtain ⟨tip, htip, -⟩ := (h.wellFormed.revertTo k).tip_of_version hkept
    have htipk : (tip : ℤ) ≤ k := by
      rw [(h.wellFormed.revertTo k).tip, List.max?_eq_some_iff] at htip
      obtain ⟨b, hb, hbn⟩ := List.mem_map.1 htip.1
      have hbk := (List.mem_filter.1 hb).2
      rw [decide_eq_true_eq] at hbk
      rw [← hbn]
      exact hbk
    have hstip : (s.revertTo k).tip = some tip := by
      have hsame := (h.revertTo k).fields.2.1
      rw [hsame, htip]
    have hq : ∀ range ∈ (s.revertTo k).retained, ∃ x, v.upper = some x ∧ x ≤ range.fromBlock :=
      hkeeps key v hv hgone hstands hle
    have hrange : ∃ range ∈ (s.revertTo k).retained, range.fromBlock ≤ tip := by
      unfold retained
      rw [hstip]
      show ∃ range ∈ (some tip).bind (retainedRange s.provided), range.fromBlock ≤ tip
      cases hp : s.provided with
      | revertOnly => exact absurd hp hprov
      | unbounded => exact ⟨⟨0, tip⟩, rfl, Nat.zero_le _⟩
      | window blocks => exact ⟨⟨tip - blocks, tip⟩, rfl, Nat.sub_le _ _⟩
    obtain ⟨range, hrange, hfrom⟩ := hrange
    obtain ⟨x, hx, hle'⟩ := hq range hrange
    refine ⟨x, hx, by omega, fun range' hrange' => ?_⟩
    have hsame : range' = range := Option.some.inj (hrange'.symm.trans hrange)
    rw [hsame]
    exact hle'

end MemoryStateStore

/-- A call, or a prune. -/
inductive RetainedCall (X H C : Type) where
  | call (call : StoreCall X H C)
  | prune (maxVersions : Option ℕ)

variable {X H C : Type} [DecidableEq H]

/-- The call a store that never prunes sees. -/
def RetainedCall.toCall : RetainedCall X H C → Option (StoreCall X H C)
  | .call c => some c
  | .prune _ => none

namespace EntityStore

def performRetained (declarations : List NormalizedEntity) (s : EntityStore X H C) :
    RetainedCall X H C → EntityStore X H C
  | .call call => perform declarations s call
  | .prune maxVersions => (s.prune maxVersions).1

def runRetained (declarations : List NormalizedEntity) (s : EntityStore X H C) (calls : List (RetainedCall X H C)) :
    EntityStore X H C :=
  calls.foldl (performRetained declarations) s

/-- A store that keeps everything and sees the same calls. -/
def fullHistory (declarations : List NormalizedEntity) (calls : List (RetainedCall X H C)) : EntityStore X H C :=
  (run declarations ⟨[], [], fun _ => none, .unbounded, none, none⟩ (calls.filterMap RetainedCall.toCall)).1

/-- Every historical read of `s` is refused by its retention, or answers as `u` does. -/
def Right (declarations : List NormalizedEntity) (s u : EntityStore X H C) : Prop :=
  (∀ entity id height, (∃ error, assertRetained s.provided height s.tip = .error error) ∨
    getAsOf declarations s entity id height = getAsOf declarations u entity id height) ∧
  ∀ entity idPrefix height limit, (∃ error, assertRetained s.provided height s.tip = .error error) ∨
    listAsOf declarations s entity idPrefix height limit = listAsOf declarations u entity idPrefix height limit

/-- Another configuration of the same contents. -/
def configured (u s₀ : EntityStore X H C) : EntityStore X H C :=
  { u with provided := s₀.provided, finalityDepth := s₀.finalityDepth }

omit [DecidableEq H] in
theorem writeBlock_configured (u s₀ : EntityStore X H C) (block : BlockPointer H)
    (planned : List (Mutation EntityKey (Record X))) (cursor : Option (String × C)) :
    ((writeBlock block planned cursor).run (configured u s₀)).2 =
      configured ((writeBlock block planned cursor).run u).2 s₀ := by
  rw [writeBlock_run, writeBlock_run, forM_applyMutation, forM_applyMutation]
  cases cursor <;> rfl

/-- What a call does does not depend on the configuration. -/
theorem perform_configured (declarations : List NormalizedEntity) (u s₀ : EntityStore X H C)
    (call : StoreCall X H C) :
    perform declarations (configured u s₀) call = configured (perform declarations u call) s₀ := by
  cases call with
  | applyBlock call =>
    show ((applyBlock declarations call).run.run _).2 = configured ((applyBlock declarations call).run.run u).2 s₀
    rw [applyBlock_run, applyBlock_run]
    have hsame : resolveBlock declarations (configured u s₀) call = resolveBlock declarations u call := rfl
    rw [hsame]
    cases resolveBlock declarations u call with
    | error error => rfl
    | ok planned => exact writeBlock_configured u s₀ call.block planned call.cursor
  | revertTo k => rfl
  | writeCursor key value => rfl

variable {declarations : List NormalizedEntity} {s₀ s u : EntityStore X H C}

/-- Two stores that record the same blocks take the same ones. -/
theorem applyBlock_shadow (h : MemoryStateStore.Shadow s u) (call : AppliedCall X H C) :
    (∃ e e', (applyBlock declarations call).run.run s = (.error e, s) ∧
      (applyBlock declarations call).run.run u = (.error e', u)) ∨
    ∃ planned s' u', MemoryStateStore.applyBlock s call.block planned call.cursor = .ok s' ∧
      MemoryStateStore.applyBlock u call.block planned call.cursor = .ok u' ∧
      (applyBlock declarations call).run.run s = (.ok (), s') ∧
      (applyBlock declarations call).run.run u = (.ok (), u') := by
  rcases applyBlock_cases declarations call s with ⟨e, hs⟩ | ⟨planned, s', hplan, hs, hrun⟩
  · rcases applyBlock_cases declarations call u with ⟨e', hu⟩ | ⟨planned, u', hplan, hu, -⟩
    · exact .inl ⟨e, e', hs, hu⟩
    · -- a block `u` takes, `s` takes
      have hrows := MemoryStateStore.applyBlock_rows u s.rows call.block planned call.cursor
      rw [← h.same, hu] at hrows
      rw [applyBlock_of_accepted hplan hrows] at hs
      cases hs
  · obtain ⟨u', hu, -, -⟩ := h.applyBlock hs
    exact .inr ⟨planned, s', u', hs, hu, hrun, applyBlock_of_accepted hplan hu⟩

/-- **One call** keeps the pruned store the shadow of the other. -/
theorem shadow_perform (h : MemoryStateStore.Shadow s u) (call : StoreCall X H C) :
    MemoryStateStore.Shadow (perform declarations s call) (perform declarations u call) := by
  cases call with
  | applyBlock call =>
    show MemoryStateStore.Shadow ((applyBlock declarations call).run.run s).2
      ((applyBlock declarations call).run.run u).2
    rcases applyBlock_shadow h call with ⟨e, e', hs, hu⟩ | ⟨planned, s', u', hs, hu, hrun, hrun'⟩
    · rw [hs, hu]
      exact h
    · rw [hrun, hrun']
      obtain ⟨u'', hu'', hshadow, -⟩ := h.applyBlock hs
      rw [hu] at hu''
      cases hu''
      exact hshadow
  | revertTo k => exact h.revertTo k
  | writeCursor key value => exact h.perform (.writeCursor key value)

/-- **One call** keeps the range covered, a revert as far as it may. -/
theorem covered_perform (h : MemoryStateStore.Shadow s u) (hprov : s.provided ≠ .revertOnly)
    (hc : MemoryStateStore.Covered s u) (call : StoreCall X H C)
    (hkeeps : ∀ k, call = .revertTo k → MemoryStateStore.RevertKeeps s u k) :
    MemoryStateStore.Covered (perform declarations s call) (perform declarations u call) := by
  cases call with
  | applyBlock call =>
    show MemoryStateStore.Covered ((applyBlock declarations call).run.run s).2
      ((applyBlock declarations call).run.run u).2
    rcases applyBlock_shadow h call with ⟨e, e', hs, hu⟩ | ⟨planned, s', u', hs, hu, hrun, hrun'⟩
    · rw [hs, hu]
      exact hc
    · rw [hrun, hrun']
      obtain ⟨u'', hu'', -, hcovered⟩ := hc.applyBlock h hs
      rw [hu] at hu''
      cases hu''
      exact hcovered
  | revertTo k => exact (hc.revertTo_iff h hprov k).2 (hkeeps k rfl)
  | writeCursor key value => exact hc

/-! ### Runs -/

theorem runRetained_concat (declarations : List NormalizedEntity) (s : EntityStore X H C)
    (calls : List (RetainedCall X H C)) (call : RetainedCall X H C) :
    runRetained declarations s (calls ++ [call]) = performRetained declarations (runRetained declarations s calls) call := by
  unfold runRetained
  rw [List.foldl_append]
  rfl

theorem fullHistory_call (declarations : List NormalizedEntity) (calls : List (RetainedCall X H C))
    (call : StoreCall X H C) :
    fullHistory declarations (calls ++ [.call call]) = perform declarations (fullHistory declarations calls) call := by
  unfold fullHistory
  have hlast : [RetainedCall.call call].filterMap RetainedCall.toCall = [call] := rfl
  rw [List.filterMap_append, hlast, run_concat]

theorem fullHistory_prune (declarations : List NormalizedEntity) (calls : List (RetainedCall X H C))
    (maxVersions : Option ℕ) :
    fullHistory declarations (calls ++ [.prune maxVersions]) = fullHistory declarations calls := by
  unfold fullHistory
  rw [List.filterMap_append, List.filterMap_cons_none rfl, List.filterMap_nil, List.append_nil]

/-- The store with full history is made of blocks that resolve against the declarations. -/
theorem tracks_fullHistory (declarations : List NormalizedEntity) (calls : List (RetainedCall X H C)) :
    ∃ kept applied, Tracks declarations ⟨[], [], fun _ => none, .unbounded, none, none⟩
      (fullHistory declarations calls) kept applied := by
  have hnew : MemoryStateStore.new none none =
      .ok (⟨[], [], fun _ => none, .unbounded, none, none⟩ : EntityStore X H C) := rfl
  obtain ⟨applied, htracks⟩ := tracks_run declarations (MemoryStateStore.represents_new hnew)
    (calls.filterMap RetainedCall.toCall)
  exact ⟨_, applied, htracks⟩

/-- What a version holds is the row of a mutation that resolved to its key. -/
structure Canonical (declarations : List NormalizedEntity) (key : EntityKey) (v : Version (Record X))
    (declaration : NormalizedEntity) (id : EntityId) (values stored : Record X) : Prop where
  declared : mustGet declarations key.entity = .ok declaration
  keyed : entityKey declaration id = .ok key
  encoded : encodeFieldValues declaration values = .ok stored
  values : v.values = storedRow declaration key.id stored

omit [DecidableEq H] in
/-- **Every version is a row some call wrote.** -/
theorem Tracks.canonical {kept : List (AppliedCall X H C)} {applied : List (AppliedBlock EntityKey (Record X) H)}
    (h : Tracks declarations s₀ u kept applied) {key : EntityKey} {v : Version (Record X)}
    (hv : v ∈ versionsOf u.rows key) :
    ∃ declaration id values stored, Canonical declarations key v declaration id values stored := by
  rw [h.represents.versions] at hv
  obtain ⟨b, hb, hm⟩ := exists_upsert_of_history hv
  obtain ⟨call, -, hcall⟩ := exists_resolves h.resolved hb
  obtain ⟨em, -, hem⟩ := mem_of_mapM_ok hcall.mutations hm
  cases em with
  | upsert entity id values =>
    obtain ⟨declaration, hget, key', hid, stored, hstored, heq⟩ := plan_upsert.1 hem
    injection heq with hkey hvalues
    subst hkey
    have hentity : key.entity = entity := by
      obtain ⟨ids, -, rfl⟩ := entityKey_ok.1 hid
      exact mustGet_name hget
    exact ⟨declaration, id, values, stored, by rw [hentity]; exact hget, hid, hstored, hvalues⟩
  | delete entity id =>
    obtain ⟨declaration, -, key', -, heq⟩ := plan_delete.1 hem
    cases heq

/-- The pruned store after some calls is a shadow of the store with full history. -/
theorem shadow_runRetained {setting : Option RetentionSetting} {finalityDepth : Option ℕ}
    (hnew : MemoryStateStore.new setting finalityDepth = .ok s₀) (calls : List (RetainedCall X H C)) :
    MemoryStateStore.Shadow (runRetained declarations s₀ calls) (configured (fullHistory declarations calls) s₀) := by
  induction calls using List.reverseRecOn with
  | nil =>
    have hempty : configured (fullHistory declarations []) s₀ = s₀ := by
      unfold MemoryStateStore.new at hnew
      split at hnew
      · cases hnew
      · cases hnew
        rfl
    have hwf := (MemoryStateStore.represents_new hnew).wellFormed
    rw [hempty]
    exact ⟨hwf, rfl, hwf.nodup, fun key => List.Sublist.refl _⟩
  | append_singleton calls call ih =>
    rw [runRetained_concat]
    cases call with
    | call call =>
      rw [fullHistory_call, ← perform_configured]
      exact shadow_perform ih call
    | prune maxVersions =>
      rw [fullHistory_prune]
      exact ih.prune maxVersions

omit [DecidableEq H] in
/-- A store that refuses nothing answers what it reads. -/
theorem getAsOf_eq {entity : String} {id : EntityId} {height : ℤ}
    (h : assertRetained s.provided height s.tip = .ok ()) :
    getAsOf declarations s entity id height =
      (read declarations s entity id (·.openAt height)).mapError .entity := by
  unfold getAsOf
  rw [h]
  rfl

omit [DecidableEq H] in
theorem listAsOf_eq {entity : String} {idPrefix : EntityId} {height limit : ℤ}
    (h : assertRetained s.provided height s.tip = .ok ()) :
    listAsOf declarations s entity idPrefix height limit =
      (scan declarations s entity idPrefix limit (·.openAt height)).mapError .entity := by
  unfold listAsOf
  rw [h]
  rfl

/-- **The answered reads are right** exactly when what the store lacks is out of its range. -/
theorem right_iff (h : MemoryStateStore.Shadow s (configured u s₀)) (hfull : u.provided = .unbounded)
    (hprov : s.provided ≠ .revertOnly)
    (hreadable : ∀ key, versionsOf u.rows key ≠ [] → ∃ entity id declaration,
      mustGet declarations entity = .ok declaration ∧ entityKey declaration id = .ok key) :
    Right declarations s u ↔ MemoryStateStore.Covered s (configured u s₀) := by
  rw [← MemoryStateStore.asOf_iff_covered h hprov]
  have hrows : (configured u s₀).rows = u.rows := rfl
  simp only [hrows]
  have hanswers : ∀ {height}, assertRetained s.provided height s.tip = .ok () →
      assertRetained u.provided height u.tip = .ok () := by
    intro height hok
    have hpos := ((MemoryStateStore.assertRetained_ok hprov).1 hok).1
    unfold assertRetained
    rw [if_neg (not_lt.2 hpos), hfull]
  constructor
  · intro hright key height hok
    cases hu : asOf height (versionsOf u.rows key) with
    | none =>
      unfold asOf at hu ⊢
      rw [List.find?_eq_none] at hu ⊢
      exact fun v hv => hu v ((h.sublist key).subset hv)
    | some v =>
      obtain ⟨hv, hopen⟩ := (asOf_eq_some_iff (h.wellFormed.chained key)).1 hu
      obtain ⟨entity, id, declaration, hget, hkey⟩ := hreadable key (List.ne_nil_of_mem hv)
      have hsame : getAsOf declarations s entity id height = getAsOf declarations u entity id height := by
        rcases hright.1 entity id height with ⟨error, herr⟩ | hsame
        · rw [hok] at herr
          cases herr
        · exact hsame
      rw [getAsOf_eq hok, getAsOf_eq (hanswers hok), read_eq hget hkey, read_eq hget hkey] at hsame
      unfold asOf at hu ⊢
      rw [hu] at hsame
      cases hs : (versionsOf s.rows key).find? (·.openAt height) with
      | none =>
        -- the full history answers with a row, or with an error of its own
        rw [hs] at hsame
        dsimp only at hsame
        cases hread : readVersion declaration v with
        | error error => rw [hread] at hsame; cases hsame
        | ok row => rw [hread] at hsame; cases hsame
      | some w =>
        have hw : w ∈ versionsOf u.rows key := (h.sublist key).subset (List.mem_of_find?_eq_some hs)
        have hwopen : w.openAt height = true := by simpa using List.find?_some hs
        rw [(h.wellFormed.chained key).eq_of_openAt hw hv hwopen hopen]
  · intro hsame
    refine ⟨fun entity id height => ?_, fun entity idPrefix height limit => ?_⟩
    · cases hok : assertRetained s.provided height s.tip with
      | error error => exact .inl ⟨error, rfl⟩
      | ok _ =>
        refine .inr ?_
        rw [getAsOf_eq hok, getAsOf_eq (hanswers hok), read_congr (fun key => hsame key height hok) id]
    · cases hok : assertRetained s.provided height s.tip with
      | error error => exact .inl ⟨error, rfl⟩
      | ok _ =>
        refine .inr ?_
        rw [listAsOf_eq hok, listAsOf_eq (hanswers hok), scan_congr h.nodup h.wellFormed.nodup
          (fun key => hsame key height hok) idPrefix limit]
        rfl

omit [DecidableEq H] in
/-- A store that keeps versions for reverts only refuses every historical read. -/
theorem right_of_revertOnly (hprov : s.provided = .revertOnly) : Right declarations s u := by
  have hrefused : ∀ height, ∃ error, assertRetained s.provided height s.tip = .error error := by
    intro height
    unfold assertRetained
    rw [hprov]
    split
    · exact ⟨_, rfl⟩
    · exact ⟨_, rfl⟩
  exact ⟨fun _ _ height => .inl (hrefused height), fun _ _ height _ => .inl (hrefused height)⟩

/-- **When every answered as-of read is right.** For every interleaving of blocks, reverts and
prunes: each read is refused or answers as a store with full history, after every call, exactly
when every revert leaves a range that starts no lower than where the versions deleted before
it ended. -/
theorem asOf_right_iff (declarations : List NormalizedEntity) {setting : Option RetentionSetting}
    {finalityDepth : Option ℕ} (hnew : MemoryStateStore.new setting finalityDepth = .ok s₀)
    (calls : List (RetainedCall X H C)) :
    (∀ pre, pre <+: calls → Right declarations (runRetained declarations s₀ pre) (fullHistory declarations pre)) ↔
      ∀ pre k, pre ++ [.call (.revertTo k)] <+: calls →
        MemoryStateStore.RevertKeeps (runRetained declarations s₀ pre) (fullHistory declarations pre) k := by
  have hshadow := fun pre => @shadow_runRetained _ _ _ _ declarations _ _ _ hnew pre
  have hprovided : ∀ pre, (runRetained declarations s₀ pre).provided = s₀.provided := fun pre =>
    (hshadow pre).fields.2.2
  by_cases hprov : s₀.provided = .revertOnly
  · refine ⟨fun _ pre k _ key v _ _ _ _ range hrange => ?_, fun _ pre _ =>
      right_of_revertOnly ((hprovided pre).trans hprov)⟩
    -- such a store has no range
    unfold MemoryStateStore.retainedAt at hrange
    rw [hprovided pre, hprov] at hrange
    obtain ⟨tip, -, hnone⟩ := Option.bind_eq_some_iff.1 hrange
    cases hnone
  have hright : ∀ pre, Right declarations (runRetained declarations s₀ pre) (fullHistory declarations pre) ↔
      MemoryStateStore.Covered (runRetained declarations s₀ pre)
        (configured (fullHistory declarations pre) s₀) := by
    intro pre
    obtain ⟨kept, applied, htracks⟩ := tracks_fullHistory declarations pre
    refine right_iff (hshadow pre) htracks.provided (by rw [hprovided]; exact hprov) fun key hkey => ?_
    obtain ⟨v, hv⟩ := List.exists_mem_of_ne_nil _ hkey
    obtain ⟨declaration, id, values, stored, hcanonical⟩ := htracks.canonical hv
    exact ⟨key.entity, id, declaration, hcanonical.declared, hcanonical.keyed⟩
  simp only [hright]
  have hrevert : ∀ pre k, MemoryStateStore.Covered (runRetained declarations s₀ pre)
        (configured (fullHistory declarations pre) s₀) →
      (MemoryStateStore.Covered (runRetained declarations s₀ (pre ++ [.call (.revertTo k)]))
        (configured (fullHistory declarations (pre ++ [.call (.revertTo k)])) s₀) ↔
      MemoryStateStore.RevertKeeps (runRetained declarations s₀ pre) (fullHistory declarations pre) k) := by
    intro pre k hc
    rw [runRetained_concat, fullHistory_call, ← perform_configured]
    exact hc.revertTo_iff (hshadow pre) (by rw [hprovided]; exact hprov) k
  constructor
  · intro hcovered pre k hpre
    have hbefore := hcovered pre ((List.prefix_append _ _).trans hpre)
    exact (hrevert pre k hbefore).1 (hcovered _ hpre)
  · intro hkeeps pre hpre
    induction pre using List.reverseRecOn with
    | nil =>
      intro key v hv hgone
      have hnone : v ∈ ([] : List (Version (Record X))) := hv
      cases hnone
    | append_singleton pre call ih =>
      have hbefore := ih ((List.prefix_append _ _).trans hpre)
      cases call with
      | call call =>
        rw [runRetained_concat, fullHistory_call, ← perform_configured]
        refine covered_perform (hshadow pre) (by rw [hprovided]; exact hprov) hbefore call fun k hk => ?_
        subst hk
        exact hkeeps pre k hpre
      | prune maxVersions =>
        rw [runRetained_concat, fullHistory_prune]
        exact hbefore.prune (hshadow pre) (by rw [hprovided]; exact hprov) maxVersions

end EntityStore

/-- A window of two blocks; the coin is written at 1 and again at 2, and the tip goes to 4. -/
def prunedCalls : List (RetainedCall Unit ℕ Unit) :=
  [.call (.applyBlock ⟨⟨1, 1⟩, [.upsert "coin" [("id", [65])] [("value", .number 10)]], none⟩),
    .call (.applyBlock ⟨⟨2, 2⟩, [.upsert "coin" [("id", [65])] [("value", .number 20)]], none⟩),
    .call (.applyBlock ⟨⟨4, 4⟩, [.upsert "coin" [("id", [66])] []], none⟩), .prune none]

/-- A store with a window as deep as the finality depth. -/
def coinWindow : EntityStore Unit ℕ Unit := ⟨[], [], fun _ => none, .window 2, some 2, none⟩

/-- Block 5 closes the coin once more, after the prune. -/
def laterCalls : List (RetainedCall Unit ℕ Unit) :=
  prunedCalls ++ [.call (.applyBlock ⟨⟨5, 5⟩, [.upsert "coin" [("id", [65])] [("value", .number 50)]], none⟩)]

/-- The range still starts at 2 where what the prune deleted ended. -/
theorem revertKeeps_laterCalls : MemoryStateStore.RevertKeeps (EntityStore.runRetained [coin] coinWindow laterCalls)
    (EntityStore.fullHistory [coin] laterCalls) 4 := by
  intro key v hv hgone _ _ range hrange
  have hdeleted : ∀ row ∈ (EntityStore.fullHistory [coin] laterCalls).rows, ∀ v ∈ row.versions,
      v ∈ versionsOf (EntityStore.runRetained [coin] coinWindow laterCalls).rows row.key ∨
        ∃ x, v.upper = some x ∧ x ≤ 2 := by decide
  have hretained : (EntityStore.runRetained [coin] coinWindow laterCalls).retainedAt 4 = some ⟨2, 4⟩ := by decide
  obtain ⟨row, hrow, rfl, hmem⟩ := exists_row_of_mem_versionsOf hv
  rw [hretained] at hrange
  obtain rfl := Option.some.inj hrange
  exact (hdeleted row hrow v hmem).resolve_left hgone

/-- After the prune, and after block 5 is reverted. -/
theorem asOf_right_prunedCalls :
    EntityStore.Right [coin] (EntityStore.runRetained [coin] coinWindow prunedCalls)
      (EntityStore.fullHistory [coin] prunedCalls) ∧
    EntityStore.Right [coin] (EntityStore.runRetained [coin] coinWindow (laterCalls ++ [.call (.revertTo 4)]))
      (EntityStore.fullHistory [coin] (laterCalls ++ [.call (.revertTo 4)])) := by
  have hnew : MemoryStateStore.new (some (.blocks 2)) (some 2) = .ok coinWindow := rfl
  have hright := (EntityStore.asOf_right_iff [coin] hnew (laterCalls ++ [.call (.revertTo 4)])).2 fun pre k hpre => ?_
  · exact ⟨hright prunedCalls ((List.prefix_append _ _).trans (List.prefix_append _ _)), hright _ (List.prefix_refl _)⟩
  rcases List.prefix_concat_iff.1 hpre with heq | hpre
  · obtain ⟨rfl, hcall⟩ := List.append_inj' heq rfl
    cases hcall
    exact revertKeeps_laterCalls
  · have hmem := hpre.subset (List.mem_append_right pre (List.mem_singleton_self _))
    simp [laterCalls, prunedCalls] at hmem

/-- Block 4 is reverted: the tip falls to 2, the range starts at genesis again, and what the
prune at 4 deleted is missing from the answer at 1. -/
theorem prunedCalls_reverted :
    MemoryStateStore.new (some (.blocks 2)) (some 2) = .ok coinWindow ∧
    EntityStore.getAsOf [coin] (EntityStore.runRetained [coin] coinWindow
      (prunedCalls ++ [.call (.revertTo 3)])) "coin" [("id", [65])] 1 = .ok none ∧
    EntityStore.getAsOf [coin] (EntityStore.fullHistory [coin] (prunedCalls ++ [.call (.revertTo 3)])) "coin"
      [("id", [65])] 1 = .ok (some [("id", .text [65]), ("value", .number 10), ("_lower", .number 1),
        ("_upper", .number 2)]) ∧
    ¬EntityStore.Right [coin] (EntityStore.runRetained [coin] coinWindow (prunedCalls ++ [.call (.revertTo 3)]))
      (EntityStore.fullHistory [coin] (prunedCalls ++ [.call (.revertTo 3)])) := by
  refine ⟨rfl, rfl, rfl, fun hright => ?_⟩
  rcases hright.1 "coin" [("id", [65])] 1 with ⟨error, herr⟩ | hsame
  · cases herr
  · cases hsame

end Etherfold
