import Etherfold.Query.Operation

/-!
# One branch at one block

Between two moments with one revert sequence the store only grew. A store that
grew reads alike at every height up to its old tip, and a store whose tip did
not move reads alike everywhere. So whatever an untorn attempt read, the store
at its first tip read would have answered.

* `Grown`: a store and what blocks above its tip made of it.
* `timeline_grown`: **without a revert the store grows**.
* `Operation.run_keeps`: what one read keeps, a whole run of the resolvers keeps.
* `attempt_fromState`: an untorn attempt read one state.
* `Operation.Computes`: what the data is computed from, read by read.
* `executeQuery_oneBranch`: **an answer is read from one branch at one block**.
-/

namespace Etherfold

open Versions

variable {X H C Q P E D : Type}

/-! ### A store that only grew -/

/-- `u` is `s` and blocks above its tip. -/
structure Grown (s u : EntityStore X H C) : Prop where
  provided : u.provided = s.provided
  blocks : ∃ more, u.blocks = s.blocks ++ more ∧ ∀ b ∈ more, ∀ t, s.tip = some t → t < b.number
  tip : ∀ t, s.tip = some t → ∃ t', u.tip = some t' ∧ t ≤ t'
  below : ∀ t, s.tip = some t → ∀ k : ℤ, k ≤ t → ∀ key,
    cutAt k (versionsOf u.rows key) = cutAt k (versionsOf s.rows key)
  still : u.tip = s.tip → ∀ key, versionsOf u.rows key = versionsOf s.rows key

/-- What stood at a height is what a cut there leaves. -/
theorem asOf_values_of_cutAt {V : Type} {k : ℤ} {vs us : List (Version V)} (h : cutAt k vs = cutAt k us) :
    (Versions.asOf k vs).map (·.values) = (Versions.asOf k us).map (·.values) := by
  have hvs := congrArg (Option.map (·.values)) (current_cutAt k vs)
  have hus := congrArg (Option.map (·.values)) (current_cutAt k us)
  rw [h, hus] at hvs
  simpa [Option.map_map, Function.comp_def] using hvs.symm

namespace Grown

variable {s u w : EntityStore X H C}

theorem refl (s : EntityStore X H C) : Grown s s :=
  ⟨rfl, ⟨[], by simp, by simp⟩, fun t ht => ⟨t, ht, le_rfl⟩, fun _ _ _ _ _ => rfl, fun _ _ => rfl⟩

/-- A tip that is where it was never moved. -/
theorem tip_between (h : Grown s u) (h' : Grown u w) (hw : w.tip = s.tip) : u.tip = s.tip := by
  cases hu : u.tip with
  | none =>
    cases hs : s.tip with
    | none => rfl
    | some t =>
      obtain ⟨t', ht', -⟩ := h.tip t hs
      rw [hu] at ht'
      cases ht'
  | some t' =>
    obtain ⟨t'', ht'', hle'⟩ := h'.tip t' hu
    rw [← hw, ht'']
    obtain ⟨t₁, ht₁, hle⟩ := h.tip t'' (by rw [← hw, ht''])
    rw [hu] at ht₁
    cases ht₁
    rw [le_antisymm hle hle']

theorem trans (h : Grown s u) (h' : Grown u w) : Grown s w := by
  refine ⟨h'.provided.trans h.provided, ?_, fun t ht => ?_, fun t ht k hk key => ?_, fun hw key => ?_⟩
  · obtain ⟨more, hmore, habove⟩ := h.blocks
    obtain ⟨more', hmore', habove'⟩ := h'.blocks
    refine ⟨more ++ more', by rw [hmore', hmore, List.append_assoc], fun b hb t ht => ?_⟩
    rcases List.mem_append.1 hb with hb | hb
    · exact habove b hb t ht
    · obtain ⟨t', ht', hle⟩ := h.tip t ht
      exact lt_of_le_of_lt hle (habove' b hb t' ht')
  · obtain ⟨t', ht', hle⟩ := h.tip t ht
    obtain ⟨t'', ht'', hle'⟩ := h'.tip t' ht'
    exact ⟨t'', ht'', hle.trans hle'⟩
  · obtain ⟨t', ht', hle⟩ := h.tip t ht
    rw [h'.below t' ht' k (by omega) key, h.below t ht k hk key]
  · have hu := h.tip_between h' hw
    rw [h'.still (hw.trans hu.symm) key, h.still hu key]

theorem viewAt_below (h : Grown s u) {t k : ℕ} (ht : s.tip = some t) (hk : k ≤ t) :
    viewAt u (some k) = viewAt s (some k) := by
  funext key
  exact asOf_values_of_cutAt (h.below t ht k (by omega) key)

theorem viewAt_still (h : Grown s u) (ht : u.tip = s.tip) (height : Option ℕ) : viewAt u height = viewAt s height := by
  funext key
  unfold viewAt
  rw [h.still ht key]

/-- A block at or below the old tip was there. -/
theorem mem_blocks (h : Grown s u) {b : BlockPointer H} {t : ℕ} (ht : s.tip = some t) (hb : b ∈ u.blocks)
    (hle : b.number ≤ t) : b ∈ s.blocks := by
  obtain ⟨more, hmore, habove⟩ := h.blocks
  rw [hmore] at hb
  rcases List.mem_append.1 hb with hb | hb
  · exact hb
  · have := habove b hb t ht
    omega

variable [DecidableEq H]

/-- **An applied block only adds.** -/
theorem applyBlock (hs : s.WellFormed) {block : BlockPointer H} {planned : List (Mutation EntityKey (Record X))}
    {cursor : Option (String × C)} (h : MemoryStateStore.applyBlock s block planned cursor = .ok u) : Grown s u := by
  obtain ⟨hbelow, hblocks, htip, hrows, -⟩ := MemoryStateStore.applyBlock_ok hs h
  have habove : ∀ t, s.tip = some t → t < block.number := by
    intro t ht
    rw [hs.tip] at ht
    obtain ⟨b, hb, hbt⟩ := List.mem_map.1 (List.max?_mem ht)
    rw [← hbt]
    exact (hbelow b hb).1
  refine ⟨(MemoryStateStore.afterBlock h).provided, ⟨[block], hblocks, ?_⟩, fun t ht => ?_, fun t ht k hk key => ?_,
    fun hsame => ?_⟩
  · intro b hb t ht
    rw [List.mem_singleton.1 hb]
    exact habove t ht
  · exact ⟨block.number, htip, (habove t ht).le⟩
  · have := habove t ht
    rw [hrows, cutAt_writes (by omega)]
  · rw [htip] at hsame
    exact absurd (habove block.number hsame.symm) (lt_irrefl _)

end Grown

/-! ### The timeline -/

section Timeline

variable [DecidableEq H] {declarations : List NormalizedEntity} {s₀ : QueryStore X H C}
  {calls : ℕ → Option (StoreCall X H C)}

theorem perform_wellFormed {s : EntityStore X H C} (hs : s.WellFormed) (call : StoreCall X H C) :
    (EntityStore.perform declarations s call).WellFormed := by
  cases call with
  | applyBlock call =>
    show ((EntityStore.applyBlock declarations call).run.run s).2.WellFormed
    rcases EntityStore.applyBlock_cases declarations call s with ⟨e, hrun⟩ | ⟨planned, s', -, happly, hrun⟩
    · rw [hrun]
      exact hs
    · rw [hrun]
      exact hs.applyBlock happly
  | revertTo keepUpTo => exact hs.revertTo keepUpTo
  | writeCursor key value => exact ⟨hs.nodup, hs.ascending, hs.tip, hs.chained, hs.within⟩

/-- One call grows the store, or counts. -/
theorem commit_grown {s : QueryStore X H C} (hs : s.state.WellFormed) (call : StoreCall X H C) :
    Grown s.state (s.commit declarations call).state ∧ (s.commit declarations call).sequence = s.sequence ∨
      (s.commit declarations call).sequence = s.sequence + 1 := by
  cases call with
  | applyBlock call =>
    refine .inl ⟨?_, rfl⟩
    show Grown s.state ((EntityStore.applyBlock declarations call).run.run s.state).2
    rcases EntityStore.applyBlock_cases declarations call s.state with ⟨e, hrun⟩ | ⟨planned, s', -, happly, hrun⟩
    · rw [hrun]
      exact Grown.refl _
    · rw [hrun]
      exact Grown.applyBlock hs happly
  | revertTo keepUpTo => exact .inr rfl
  | writeCursor key value =>
    have h := Grown.refl s.state
    exact .inl ⟨⟨h.provided, h.blocks, h.tip, h.below, h.still⟩, rfl⟩

theorem timeline_wellFormed (h : s₀.state.WellFormed) (n : ℕ) :
    (s₀.timeline declarations calls n).state.WellFormed := by
  induction n with
  | zero => exact h
  | succ n ih =>
    unfold QueryStore.timeline
    cases calls n with
    | none => exact ih
    | some call => exact perform_wellFormed ih call

theorem timeline_step (h : s₀.state.WellFormed) (n : ℕ) :
    Grown (s₀.timeline declarations calls n).state (s₀.timeline declarations calls (n + 1)).state ∧
        (s₀.timeline declarations calls (n + 1)).sequence = (s₀.timeline declarations calls n).sequence ∨
      (s₀.timeline declarations calls (n + 1)).sequence = (s₀.timeline declarations calls n).sequence + 1 := by
  have hwell : (s₀.timeline declarations calls n).state.WellFormed := timeline_wellFormed h n
  rw [QueryStore.timeline]
  cases calls n with
  | none => exact .inl ⟨Grown.refl _, rfl⟩
  | some call => exact commit_grown hwell call

theorem timeline_sequence_le (h : s₀.state.WellFormed) {n m : ℕ} (hle : n ≤ m) :
    (s₀.timeline declarations calls n).sequence ≤ (s₀.timeline declarations calls m).sequence := by
  induction m, hle using Nat.le_induction with
  | base => exact le_rfl
  | succ m hle ih =>
    have hstep := @timeline_step X H C _ declarations s₀ calls h m
    rcases hstep with ⟨-, hseq⟩ | hseq <;> omega

/-- **Without a revert the store grows.** -/
theorem timeline_grown (h : s₀.state.WellFormed) {n m : ℕ} (hle : n ≤ m)
    (hseq : (s₀.timeline declarations calls m).sequence = (s₀.timeline declarations calls n).sequence) :
    Grown (s₀.timeline declarations calls n).state (s₀.timeline declarations calls m).state := by
  induction m, hle using Nat.le_induction with
  | base => exact Grown.refl _
  | succ m hle ih =>
    have hbefore := @timeline_sequence_le X H C _ declarations s₀ calls h _ _ hle
    rcases @timeline_step X H C _ declarations s₀ calls h m with ⟨hgrown, hstep⟩ | hstep
    · exact (ih (by omega)).trans hgrown
    · omega

theorem timeline_provided (n : ℕ) : (s₀.timeline declarations calls n).state.provided = s₀.state.provided := by
  induction n with
  | zero => rfl
  | succ n ih =>
    rw [← ih, QueryStore.timeline]
    cases calls n with
    | none => rfl
    | some call =>
      cases call with
      | applyBlock call =>
        show ((EntityStore.applyBlock declarations call).run.run _).2.provided = _
        rcases EntityStore.applyBlock_cases declarations call (s₀.timeline declarations calls n).state with
          ⟨e, hrun⟩ | ⟨planned, s', -, happly, hrun⟩
        · rw [hrun]
        · rw [hrun]
          exact (MemoryStateStore.afterBlock happly).provided
      | revertTo keepUpTo => rfl
      | writeCursor key value => rfl

end Timeline

/-! ### Reads of one state -/

/-- The block a read is at, of an operation that began at a tip: at or below the pin when the
reads are pinned, and no block at all when they are not. -/
def Pinned (asOf : Bool) (tip height : Option ℕ) : Prop :=
  match asOf, tip with
  | true, some pin => ∃ k ≤ pin, height = some k
  | _, _ => height = none

/-- The block a read is at is the one its field asked for. -/
def Located (context : QueryContext X H C Q P E) (s : EntityStore X H C) (reads : List (Read Q P E))
    (height : Option ℕ) : Origin → Prop
  | .root none => height = if context.asOf then s.tip else none
  | .root (some (.number block)) => ∃ k : ℕ, height = some k ∧ (k : ℤ) = block
  | .root (some (.hash hash)) => ∃ b ∈ s.blocks, context.normalizeBlockHash hash = some b.hash ∧ height = some b.number
  | .child parents => ∃ read, reads[parents]? = some read ∧ ∃ page, read.answer = .ok (height, page)

/-- A page is what one state holds, at the block its field asked for. -/
structure FromState (context : QueryContext X H C Q P E) (s : EntityStore X H C) (reads : List (Read Q P E))
    (read : Read Q P E) (height : Option ℕ) (page : P) : Prop where
  page : page = context.accessor.page (viewAt s height) read.query
  pinned : Pinned context.asOf s.tip height
  located : Located context s reads height read.origin

/-- **Every page was read from one state.** -/
def AllFromState (context : QueryContext X H C Q P E) (s : EntityStore X H C) (reads : List (Read Q P E)) : Prop :=
  ∀ read ∈ reads, ∀ height page, read.answer = .ok (height, page) → FromState context s reads read height page

theorem Located.append {context : QueryContext X H C Q P E} {s : EntityStore X H C} {reads : List (Read Q P E)}
    {height : Option ℕ} {origin : Origin} (h : Located context s reads height origin) (more : List (Read Q P E)) :
    Located context s (reads ++ more) height origin := by
  match origin, h with
  | .root none, h => exact h
  | .root (some (.number _)), h => exact h
  | .root (some (.hash _)), h => exact h
  | .child parents, ⟨read, hread, hpage⟩ =>
    obtain ⟨hlt, -⟩ := List.getElem?_eq_some_iff.1 hread
    exact ⟨read, by rw [List.getElem?_append_left hlt, hread], hpage⟩

theorem AllFromState.concat {context : QueryContext X H C Q P E} {s : EntityStore X H C} {reads : List (Read Q P E)}
    {read : Read Q P E} (h : AllFromState context s reads)
    (hread : ∀ height page, read.answer = .ok (height, page) → FromState context s reads read height page) :
    AllFromState context s (reads ++ [read]) := by
  intro r hr height page hanswer
  have hfrom : FromState context s reads r height page := by
    rcases List.mem_append.1 hr with hr | hr
    · exact h r hr height page hanswer
    · rw [List.mem_singleton.1 hr] at hanswer ⊢
      exact hread height page hanswer
  exact ⟨hfrom.page, hfrom.pinned, hfrom.located.append [read]⟩

section Reads

variable [DecidableEq H] {context : QueryContext X H C Q P E} {seen : ℕ → QueryStore X H C}

/-- **What one read keeps, a run of the resolvers keeps.** -/
theorem Operation.run_keeps {reads : OperationReads} {moments : ℕ → ReadMoments} {kept : List (Read Q P E) → Prop}
    (hstep : ∀ done origin query, kept done →
      kept (done ++ [resolve context seen reads (moments done.length) done origin query]))
    (operation : Operation Q P E D) {done : List (Read Q P E)} (h : kept done) :
    kept (operation.run context seen reads moments done).2 := by
  induction operation generalizing done with
  | answered data => exact h
  | find block query next ih => exact ih _ (hstep done (.root block) query h)
  | children parents query next ih => exact ih _ (hstep done (.child parents) query h)

theorem OperationReads.checkedHeight_ok {reads : OperationReads} {block : ℤ} {k : ℕ}
    (h : reads.checkedHeight block = (.ok k : Except (QueryRefusal E) ℕ)) :
    (k : ℤ) = block ∧ ∃ tip, reads.tip = some tip ∧ k ≤ tip := by
  unfold checkedHeight at h
  split at h
  · cases h
  · split at h
    · cases h
    · rename_i hneg tip htip
      split at h
      · cases h
      · injection h with h
        exact ⟨by omega, tip, htip, by omega⟩

theorem resolveHash_ok {normalizeBlockHash : String → Option H} {s : QueryStore X H C} {hash : String} {k : ℕ}
    (h : OperationReads.resolveHash normalizeBlockHash s hash = (.ok k : Except (QueryRefusal E) ℕ)) :
    ∃ b ∈ s.state.blocks, normalizeBlockHash hash = some b.hash ∧ k = b.number := by
  unfold OperationReads.resolveHash at h
  split at h
  · cases h
  · rename_i spelled hspelled
    split at h
    · cases h
    · rename_i b hb
      injection h with h
      have hhash := List.find?_some hb
      exact ⟨b, List.mem_of_find?_eq_some hb, by rw [hspelled, of_decide_eq_true hhash], h.symm⟩

omit [DecidableEq H] in
/-- The backend answers a page unless it refuses the query. -/
theorem page_ok {accessor : Accessor X H C Q P E} {rows : EntityStore X H C} {height : Option ℕ} {query : Q} {page : P}
    (h : (match accessor.refuses rows height query with
      | some e => (.error (.backend e) : Except (QueryRefusal E) P)
      | none => pure (accessor.page (viewAt rows height) query)) = .ok page) :
    page = accessor.page (viewAt rows height) query := by
  split at h
  · cases h
  · injection h with h
    exact h.symm

omit [DecidableEq H] in
/-- A height that a store answers about is one a store of history answers about. -/
theorem Accessor.read_ok {accessor : Accessor X H C Q P E} {checked rows : EntityStore X H C} {height : Option ℕ}
    {query : Q} {page : P} (h : accessor.read checked rows height query = .ok page) :
    page = accessor.page (viewAt rows height) query ∧ (height ≠ none → checked.provided ≠ .revertOnly) := by
  unfold Accessor.read at h
  cases height with
  | none => exact ⟨page_ok h, fun hne => absurd rfl hne⟩
  | some k =>
    obtain ⟨_, hcheck, hrest⟩ := bind_eq_ok.1 h
    refine ⟨page_ok hrest, fun _ hprov => ?_⟩
    have hk : ¬(k : ℤ) < 0 := by omega
    simp [hprov, assertRetained, Except.mapError, hk] at hcheck

/-! ### One attempt -/

variable {S : QueryStore X H C} {reads : OperationReads} {m : ReadMoments} {done : List (Read Q P E)}

/-- The block a read of a root field or of a nested collection is at. -/
theorem Origin.height_ok {s : QueryStore X H C} {origin : Origin} {height : Option ℕ}
    (hgrown : Grown S.state s.state) (hpast : AllFromState context S.state done)
    (h : origin.height context ⟨S.tip, context.asOf⟩ s done = .ok height)
    (hasOf : height ≠ none → context.asOf = true) :
    Pinned context.asOf S.tip height ∧ Located context S.state done height origin := by
  have hchecked : ∀ {block : ℤ} {k : ℕ}, OperationReads.checkedHeight ⟨S.tip, context.asOf⟩ block =
      (.ok k : Except (QueryRefusal E) ℕ) → height = some k →
      (k : ℤ) = block ∧ Pinned context.asOf S.tip height ∧ ∃ t, S.state.tip = some t ∧ k ≤ t := by
    intro block k hk hheight
    obtain ⟨hblock, t, ht, hle⟩ := OperationReads.checkedHeight_ok hk
    have htip : S.tip = some t := ht
    rw [hasOf (by rw [hheight]; simp), htip, hheight]
    exact ⟨hblock, ⟨k, hle, rfl⟩, t, ht, hle⟩
  match origin with
  | .root none =>
    injection h with h
    refine ⟨?_, h.symm⟩
    rw [← h]
    unfold Pinned
    dsimp only
    split
    · rename_i pin hcap htip
      exact ⟨pin, le_rfl, by rw [if_pos hcap, htip]⟩
    · rename_i hno
      split
      · rename_i hcap
        cases htip : S.tip with
        | none => rfl
        | some pin => exact absurd htip (hno pin hcap)
      · rfl
  | .root (some (.number block)) =>
    obtain ⟨k, hk, hheight⟩ := map_eq_ok.1 h
    obtain ⟨hblock, hpinned, -⟩ := hchecked hk hheight.symm
    exact ⟨hpinned, k, hheight.symm, hblock⟩
  | .root (some (.hash hash)) =>
    obtain ⟨n, hn, hrest⟩ := bind_eq_ok.1 h
    obtain ⟨k, hk, hheight⟩ := map_eq_ok.1 hrest
    obtain ⟨hblock, hpinned, t, ht, hle⟩ := hchecked hk hheight.symm
    obtain ⟨b, hb, hspelled, hnumber⟩ := resolveHash_ok hn
    have hkn : k = b.number := by omega
    -- a block at or below the pin was recorded when the attempt began
    exact ⟨hpinned, b, hgrown.mem_blocks ht hb (by omega), hspelled, by rw [← hheight, hkn]⟩
  | .child parents =>
    unfold Origin.height at h
    dsimp only at h
    split at h
    · rename_i origin' query' height' page' hdone
      injection h with h
      subst h
      have hfrom := hpast _ (List.mem_of_getElem? hdone) height' page' rfl
      exact ⟨hfrom.pinned, _, hdone, page', rfl⟩
    · cases h

/-- **One read of an attempt that was not torn** is read from the state it began with. -/
theorem resolve_fromState {origin : Origin} {query : Q} {height : Option ℕ} {page : P}
    (hcap : context.asOf = S.asOf) (hresolved : Grown S.state (seen m.resolved).state)
    (hchecked : Grown S.state (seen m.checked).state) (hrows : Grown S.state (seen m.rows).state)
    (hstill : context.asOf = false ∨ S.tip = none → (seen m.rows).tip = S.tip)
    (hpast : AllFromState context S.state done)
    (h : (resolve context seen ⟨S.tip, context.asOf⟩ m done origin query).answer = .ok (height, page)) :
    FromState context S.state done (resolve context seen ⟨S.tip, context.asOf⟩ m done origin query) height page := by
  obtain ⟨height', hheight, hrest⟩ := bind_eq_ok.1 h
  obtain ⟨page', hpage, hpair⟩ := bind_eq_ok.1 hrest
  injection hpair with hpair
  injection hpair with h₁ h₂
  subst h₁ h₂
  obtain ⟨hanswer, hhistory⟩ := Accessor.read_ok hpage
  have hasOf : height' ≠ none → context.asOf = true := by
    intro hne
    rw [hcap]
    exact decide_eq_true fun hprov => hhistory hne (hchecked.provided.trans hprov)
  obtain ⟨hpinned, hlocated⟩ := Origin.height_ok hresolved hpast hheight hasOf
  refine ⟨?_, hpinned, hlocated⟩
  rw [hanswer]
  congr 1
  -- pinned, the height is at or below the tip; read at the tip, the tip never moved
  unfold Pinned at hpinned
  split at hpinned
  · rename_i pin _ htip
    obtain ⟨k, hle, rfl⟩ := hpinned
    exact hrows.viewAt_below htip hle
  · rename_i hno
    refine hrows.viewAt_still (hstill ?_) height'
    cases hbool : context.asOf with
    | false => exact .inl rfl
    | true =>
      cases htip : S.tip with
      | none => exact .inr rfl
      | some pin => exact absurd htip (hno pin hbool)

/-- What was not torn did not move where it was read at the tip. -/
theorem tip_of_not_torn {started ended : Option ℕ} {asOf : Bool} (h : tornBetween started ended asOf = false)
    (hread : asOf = false ∨ started = none) : ended = started := by
  unfold tornBetween at h
  split at h
  · rename_i pin
    rcases hread with hread | hread <;> cases hread
  · simpa using h

/-- The extensions name the block at the tip, if there is one. -/
def NamesTip (extensions : QueryExtensions H) (s : EntityStore X H C) : Prop :=
  match s.tip with
  | none => extensions.block = none ∧ extensions.blockHash = none
  | some tip => ∃ b ∈ s.blocks, b.number = tip ∧ extensions.block = some tip ∧ extensions.blockHash = some b.hash

/-- **An attempt that was not torn read one state**, the one at its first tip read. -/
theorem attempt_fromState {declarations : List NormalizedEntity} {s₀ : QueryStore X H C}
    {calls : ℕ → Option (StoreCall X H C)} (hs₀ : s₀.state.WellFormed) (hcap : context.asOf = s₀.asOf)
    {operation : Operation Q P E D} {m : Attempt} {result : QueryResult H Q P E D}
    (h : attempt context (s₀.timeline declarations calls) operation m = .ok result) :
    AllFromState context (s₀.timeline declarations calls m.started).state result.reads ∧
      NamesTip result.extensions (s₀.timeline declarations calls m.started).state := by
  set seen := s₀.timeline declarations calls with hseen
  have hwell : ∀ n, (seen n).state.WellFormed := timeline_wellFormed hs₀
  have hasOf : context.asOf = (seen m.started).asOf := by
    rw [hcap]
    unfold QueryStore.asOf
    rw [hseen, timeline_provided]
  unfold attempt at h
  dsimp only at h
  split at h
  · cases h
  rename_i hpin
  split at h
  swap
  · cases h
  rename_i hok
  injection h with h
  rw [← h]
  obtain ⟨hreverted, htorn⟩ := Bool.and_eq_true_iff.1 hok
  have hsequence : (seen m.sequenceAtEnd).sequence = (seen m.sequenceAtStart).sequence := by
    simpa using hreverted
  have htorn' : tornBetween (seen m.started).tip (seen m.ended).tip context.asOf = false := by simpa using htorn
  -- the sequence did not move, so neither did it between the moments in between
  have hgrown : ∀ {a b : ℕ}, m.sequenceAtStart ≤ a → a ≤ b → b ≤ m.sequenceAtEnd →
      Grown (seen a).state (seen b).state := by
    intro a b ha hab hb
    have h₁ : (seen m.sequenceAtStart).sequence ≤ (seen a).sequence := timeline_sequence_le hs₀ ha
    have h₂ : (seen a).sequence ≤ (seen b).sequence := timeline_sequence_le hs₀ hab
    have h₃ : (seen b).sequence ≤ (seen m.sequenceAtEnd).sequence := timeline_sequence_le hs₀ hb
    have hsame : (seen b).sequence = (seen a).sequence := by omega
    exact timeline_grown hs₀ hab hsame
  have hstart := m.sequence_le
  have hpinned := m.started_le
  have hended := m.ended_le
  constructor
  · refine Operation.run_keeps (fun done origin query hpast => ?_) operation ?_
    · obtain ⟨hresolved, hchecked, hrows⟩ := m.reads_le done.length
      refine hpast.concat fun height page hanswer => ?_
      refine resolve_fromState hasOf (hgrown hstart (by omega) (by omega)) (hgrown hstart (by omega) (by omega))
        (hgrown hstart (by omega) (by omega)) (fun hread => ?_) hpast hanswer
      have hsame := tip_of_not_torn htorn' hread
      exact (hgrown hstart (by omega) (by omega)).tip_between
        (hgrown (b := m.ended) (by omega) (by omega) (by omega)) hsame
    · intro read hread
      cases hread
  · unfold NamesTip
    cases htip : (seen m.started).state.tip with
    | none =>
      have hnone : (seen m.started).tip = none := htip
      rw [hnone]
      exact ⟨rfl, rfl⟩
    | some tip =>
      have hsome : (seen m.started).tip = some tip := htip
      rw [hsome] at hpin ⊢
      cases hat : (seen m.pin).blockAt tip with
      | none => simp [hat] at hpin
      | some b =>
        have hfind : (seen m.pin).state.blocks.find? (·.number = tip) = some b := hat
        have hnumber : b.number = tip := by simpa using List.find?_some hfind
        refine ⟨b, ?_, hnumber, ?_, ?_⟩
        · exact (hgrown hstart hpinned (by have := m.reads_le 0; omega)).mem_blocks htip
            (List.mem_of_find?_eq_some hfind) hnumber.le
        · simp [extensionsOf, hat, hnumber]
        · simp [extensionsOf, hat]

/-! ### What is computed of the reads -/

/-- What an operation answers from its reads: it asks for each of them, in their order, and gets nothing
of a read but its page or its error. -/
def Operation.Computes : Operation Q P E D → List (Read Q P E) → D → Prop
  | .answered computed, [], data => data = computed
  | .find block query next, read :: reads, data =>
    read.origin = .root block ∧ read.query = query ∧ (next (read.answer.map (·.2))).Computes reads data
  | .children parents query next, read :: reads, data =>
    read.origin = .child parents ∧ read.query = query ∧ (next (read.answer.map (·.2))).Computes reads data
  | _, _, _ => False

variable (context seen) in
theorem Operation.run_computes (reads : OperationReads) (moments : ℕ → ReadMoments) (operation : Operation Q P E D)
    (done : List (Read Q P E)) :
    ∃ more, (operation.run context seen reads moments done).2 = done ++ more ∧
      operation.Computes more (operation.run context seen reads moments done).1 := by
  induction operation generalizing done with
  | answered data => exact ⟨[], (List.append_nil done).symm, rfl⟩
  | find block query next ih =>
    let read := resolve context seen reads (moments done.length) done (.root block) query
    obtain ⟨more, hmore, hcomputes⟩ := ih (read.answer.map (·.2)) (done ++ [read])
    exact ⟨read :: more, hmore.trans (List.append_assoc _ _ _), rfl, rfl, hcomputes⟩
  | children parents query next ih =>
    let read := resolve context seen reads (moments done.length) done (.child parents) query
    obtain ⟨more, hmore, hcomputes⟩ := ih (read.answer.map (·.2)) (done ++ [read])
    exact ⟨read :: more, hmore.trans (List.append_assoc _ _ _), rfl, rfl, hcomputes⟩

theorem attempt_computes {operation : Operation Q P E D} {m : Attempt} {result : QueryResult H Q P E D}
    (h : attempt context seen operation m = .ok result) : operation.Computes result.reads result.data := by
  unfold attempt at h
  dsimp only at h
  split at h
  · cases h
  split at h
  swap
  · cases h
  injection h with h
  rw [← h]
  obtain ⟨more, hmore, hcomputes⟩ := operation.run_computes context seen ⟨(seen m.started).tip, context.asOf⟩
    m.reads []
  rw [List.nil_append] at hmore
  dsimp only
  rwa [hmore]

/-- **A query is answered from one branch at one block.** Whatever was committed while it ran,
an answer with data was read from one state the store was in meanwhile, names its tip, and is what
the operation computes from those reads. -/
theorem executeQuery_oneBranch (declarations : List NormalizedEntity) {setting : Option RetentionSetting}
    {finalityDepth : Option ℕ} {s₀ : EntityStore X H C} (hnew : MemoryStateStore.new setting finalityDepth = .ok s₀)
    (calls : ℕ → Option (StoreCall X H C)) (context : QueryContext X H C Q P E)
    (hcap : context.asOf = QueryStore.asOf ⟨s₀, 0⟩) (operation : Operation Q P E D) (first second : Attempt)
    {result : QueryResult H Q P E D}
    (h : executeQuery context (QueryStore.timeline declarations ⟨s₀, 0⟩ calls) operation first second = .ok result) :
    ∃ n, (n = first.started ∨ n = second.started) ∧
      AllFromState context (QueryStore.timeline declarations ⟨s₀, 0⟩ calls n).state result.reads ∧
      NamesTip result.extensions (QueryStore.timeline declarations ⟨s₀, 0⟩ calls n).state ∧
      operation.Computes result.reads result.data := by
  have hs₀ : s₀.WellFormed := (MemoryStateStore.represents_new hnew).wellFormed
  unfold executeQuery at h
  split at h
  · rename_i answer hfirst
    injection h with h
    subst h
    obtain ⟨hreads, hnames⟩ := attempt_fromState hs₀ hcap hfirst
    exact ⟨first.started, .inl rfl, hreads, hnames, attempt_computes hfirst⟩
  · obtain ⟨hreads, hnames⟩ := attempt_fromState hs₀ hcap h
    exact ⟨second.started, .inr rfl, hreads, hnames, attempt_computes h⟩

end Reads

/-- Block 1 holds a coin of 10, is replaced by one that holds 20, and block 2 holds 30. -/
def replacedCalls : ℕ → Option (StoreCall Unit ℕ Unit)
  | 0 => some (.applyBlock ⟨⟨1, 1⟩, [.upsert "coin" [("id", [65])] [("value", .number 10)]], none⟩)
  | 1 => some (.revertTo 0)
  | 2 => some (.applyBlock ⟨⟨1, 2⟩, [.upsert "coin" [("id", [65])] [("value", .number 20)]], none⟩)
  | 3 => some (.applyBlock ⟨⟨2, 3⟩, [.upsert "coin" [("id", [65])] [("value", .number 30)]], none⟩)
  | _ => none

/-- What an unpinned query reads of the coin. -/
def coinContext : QueryContext Unit ℕ Unit Unit (Option (Record Unit)) Empty :=
  ⟨⟨fun view _ => view ⟨"coin", [[65]]⟩, fun _ _ _ => none⟩, "g", true, fun hash => if hash = "0x2" then some 2 else none⟩

/-- The coin at the pin, at a hash, and as a child of the first row. -/
def coinOperation : Operation Unit (Option (Record Unit)) Empty (List (Option (Option (Record Unit)))) :=
  .find none () fun pinned => .find (some (.hash "0x2")) () fun hashed => .children 0 () fun child =>
    .answered [pinned.toOption, hashed.toOption, child.toOption]

/-- The first attempt straddles the replacement. -/
def tornAttempt : Attempt :=
  ⟨1, 1, 1, fun _ => ⟨3, 3, 3⟩, 3, 3, by decide, by decide, fun _ => by decide, by decide⟩

/-- Block 2 lands under the second. -/
def pinnedAttempt : Attempt :=
  ⟨3, 3, 3, fun _ => ⟨4, 4, 4⟩, 4, 4, by decide, by decide, fun _ => by decide, by decide⟩

/-- The coin of the replacing block, three times over. -/
def coinResult : QueryResult ℕ Unit (Option (Record Unit)) Empty (List (Option (Option (Record Unit)))) :=
  let coin : Option (Record Unit) := some [("id", .text [65]), ("value", .number 20)]
  ⟨[some coin, some coin, some coin], ⟨"g", some 1, some 2⟩,
    [⟨.root none, (), .ok (some 1, coin)⟩, ⟨.root (some (.hash "0x2")), (), .ok (some 1, coin)⟩,
      ⟨.child 0, (), .ok (some 1, coin)⟩]⟩

theorem executeQuery_oneBranch_replaced : ∃ n, (n = tornAttempt.started ∨ n = pinnedAttempt.started) ∧
    AllFromState coinContext (QueryStore.timeline [coin] ⟨emptyStore, 0⟩ replacedCalls n).state coinResult.reads ∧
      NamesTip coinResult.extensions (QueryStore.timeline [coin] ⟨emptyStore, 0⟩ replacedCalls n).state ∧
      coinOperation.Computes coinResult.reads coinResult.data := by
  have hnew : MemoryStateStore.new none none = .ok emptyStore := rfl
  exact executeQuery_oneBranch [coin] hnew replacedCalls coinContext rfl coinOperation tornAttempt pinnedAttempt
    (by rfl : executeQuery coinContext (QueryStore.timeline [coin] ⟨emptyStore, 0⟩ replacedCalls) coinOperation
      tornAttempt pinnedAttempt = .ok coinResult)

end Etherfold
