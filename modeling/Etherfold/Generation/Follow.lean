import Etherfold.Ledger.Page
import Etherfold.Generation.Rebuild

/-!
# Deltas offered to a fold that is catching up

The writer appends and offers each delta in order; the fold takes it or declines it, and
reads chunks in between, in any interleaving.

* `System`, `System.Reach`: a stream with one fold over it, and the states it gets into.
* `System.Reach.ok`: **in every reachable state the fold's window knows what the fold holds**.
* `Level`: the fold agrees with the stream about all that a delta does not touch.
* `follow_iff`: **an applied delta leaves no hole if and only if the fold was level**.
-/

namespace Etherfold

open Ledger

variable {H D : Type} {C : Chain H D} [DecidableEq H]

/-- The cycles appended to a stream, how many of their deltas were offered, and the fold. -/
structure System (C : Chain H D) where
  ks : List (Cycle C)
  offered : ℕ
  fold : Fold H D

/-- **The states a system gets into**: a fold starts over what is stored, the writer appends,
the fold reads a chunk, the next delta is offered or its offer is missed. -/
inductive System.Reach (g : GenerationRebuild D) : System C → Prop
  | start {ks : List (Cycle C)} (run : Run g.defaultFromBlock g.finality ks) :
      System.Reach g ⟨ks, ks.length, .fresh⟩
  | append {s : System C} {k : Cycle C} (reach : System.Reach g s)
      (run : Run g.defaultFromBlock g.finality (s.ks ++ [k])) :
      System.Reach g { s with ks := s.ks ++ [k] }
  | more {s : System C} {budget : Option ℕ} {fold' : Fold H D} {report : RebuildReport} (reach : System.Reach g s)
      (call : g.more (storedStream (deltas s.ks)) s.fold budget = .ok (fold', report)) :
      System.Reach g { s with fold := fold' }
  | follow {s : System C} {k : Cycle C} (reach : System.Reach g s) (next : s.ks[s.offered]? = some k) :
      System.Reach g { s with offered := s.offered + 1, fold := (g.follow s.fold k.appended).1 }
  | missed {s : System C} {k : Cycle C} (reach : System.Reach g s) (next : s.ks[s.offered]? = some k) :
      System.Reach g { s with offered := s.offered + 1 }

/-! ### The stored stream of a run -/

omit [DecidableEq H] in
theorem storedStream_rows (ds : List (Appended H D)) : (storedStream ds).rows = emitted ds := by
  induction ds using List.reverseRecOn with
  | nil => rfl
  | append_singleton ds d ih =>
    unfold storedStream at ih ⊢
    rw [List.foldl_append, emitted_concat, ← ih]
    rfl

omit [DecidableEq H] in
theorem storedStream_coverage {ds : List (Appended H D)} {coverage : StreamCoverage}
    (h : (storedStream ds).coverage = some coverage) :
    ds ≠ [] ∧ coverage.latestBlock = (cursorAfter ds).latestBlock ∧
      coverage.lastToBlock = (cursorAfter ds).lastToBlock := by
  rcases ds.eq_nil_or_concat with rfl | ⟨ds, d, rfl⟩
  · cases h
  · rw [List.concat_eq_append] at *
    unfold storedStream at h
    rw [List.foldl_append] at h
    simp only [List.foldl_cons, List.foldl_nil, StoredStream.append, Option.some.injEq] at h
    subst h
    rw [cursorAfter_concat]
    exact ⟨by simp, rfl, rfl⟩

variable {d f : ℕ} {ks : List (Cycle C)} {δs : List (Delta H)}

/-- An append does not move the resume point back. -/
theorem Appends.resume_le {c : LastSync H D} {L : Finset H} {r : Appended H D} {δ : Delta H}
    (h : Appends C d f c L r δ) : getFromBlock c d f ≤ getFromBlock r.newLastSync d f := by
  have hge := h.from_le
  have hlatest := h.latest_le
  rw [h.resumes] at hge
  unfold getFromBlock at hge ⊢
  by_cases hc : c.latestBlock = 0
  · simp only [hc, if_true]
    split <;> omega
  · have hr : r.newLastSync.latestBlock ≠ 0 := by omega
    simp only [hc, hr, if_false] at hge ⊢
    omega

theorem Stored.from_le (st : Stored d f ks δs) (i : ℕ) :
    getFromBlock (cursorAfter (deltas (ks.take i))) d f ≤ getFromBlock (cursorAfter (deltas ks)) d f := by
  induction st with
  | nil => simp
  | @snoc ks δs k δ stored appends ih =>
    by_cases hi : i ≤ ks.length
    · rw [List.take_append_of_le_length hi, deltas_concat, cursorAfter_concat]
      exact ih.trans appends.resume_le
    · rw [List.take_of_length_le (by simp; omega)]

theorem Stored.reaches (st : Stored d f ks δs) (hne : ks ≠ []) :
    d ≤ (cursorAfter (deltas ks)).lastToBlock := by
  cases st with
  | nil => exact absurd rfl hne
  | @snoc ks δs k δ stored appends =>
    rw [deltas_concat, cursorAfter_concat]
    have hfrom := appends.resumes
    have hto := appends.from_le
    have hd := getFromBlock_ge (cursorAfter (deltas ks)) d f
    omega

omit [DecidableEq H] in
/-- The rows of a range of heights. -/
theorem filter_range {ops : List (Op H)} (a b : ℕ) :
    (ops.flatMap C.emit).filter (fun e => decide (a ≤ e.blockNumber) && decide (e.blockNumber ≤ b)) =
      (ops.filter fun o => decide (a ≤ C.numberOf o.key ∧ C.numberOf o.key ≤ b)).flatMap C.emit := by
  rw [filter_emit (C := C) fun n => decide (a ≤ n) && decide (n ≤ b)]
  simp only [Bool.decide_and]

/-! ### What every reachable state keeps -/

/-- What a system keeps: the stream is a stored one, and the fold resumes no higher than the
writer. -/
structure System.Ok (g : GenerationRebuild D) (s : System C) (ws : List H) (ops : List (Op H)) : Prop where
  run : Run g.defaultFromBlock g.finality s.ks
  fold : Fold.Ok C g.defaultFromBlock g.finality s.fold ws ops
  resumes : getFromBlock s.fold.lastSync g.defaultFromBlock g.finality ≤
    getFromBlock (cursorAfter (deltas s.ks)) g.defaultFromBlock g.finality

variable {g : GenerationRebuild D} {s : System C} {ws : List H} {ops : List (Op H)}

theorem System.Ok.append (ok : System.Ok g s ws ops) {k : Cycle C}
    (run : Run g.defaultFromBlock g.finality (s.ks ++ [k])) :
    System.Ok g { s with ks := s.ks ++ [k] } ws ops where
  run := run
  fold := ok.fold
  resumes := by
    obtain ⟨δs, -, hst, -⟩ := run_stored run
    have hle := hst.from_le s.ks.length
    rw [List.take_left] at hle
    exact ok.resumes.trans hle

/-- **Reading a chunk keeps the system.** -/
theorem System.Ok.more (ok : System.Ok g s ws ops) {budget : Option ℕ} {fold' : Fold H D}
    {report : RebuildReport}
    (call : g.more (storedStream (deltas s.ks)) s.fold budget = .ok (fold', report)) :
    ∃ ws' ops', System.Ok g { s with fold := fold' } ws' ops' := by
  rcases more_cases call with rfl | ⟨coverage, n, r, hcov, hn, hmin, hr, rfl⟩
  · exact ⟨ws, ops, ok⟩
  obtain ⟨δs, -, hst, -⟩ := run_stored ok.run
  obtain ⟨hne, hlatest, hto⟩ := storedStream_coverage hcov
  have hreach := hst.reaches fun h => hne (by rw [h]; rfl)
  have hle := hst.le_latest
  have hlow := ok.resumes
  set a := getFromBlock s.fold.lastSync g.defaultFromBlock g.finality with ha
  rw [storedStream_rows, hst.emitted_eq, filter_range] at hr
  set rows := (δs.flatMap Delta.ops).filter fun o =>
    decide (a ≤ C.numberOf o.key ∧ C.numberOf o.key ≤ n) with hrows
  have hleg : Legal ∅ rows := by
    have := hst.legal.filter fun x => a ≤ C.numberOf x ∧ C.numberOf x ≤ n
    rwa [Finset.filter_empty] at this
  have hmem : ∀ o ∈ rows, C.Bearing o.key ∧ a ≤ C.numberOf o.key := by
    intro o ho
    obtain ⟨ho, hp⟩ := List.mem_filter.1 ho
    exact ⟨(hst.named o ho).1, (of_decide_eq_true hp).1⟩
  -- the chunk ends where the next one can begin no lower than this one
  have hresume : a ≤ getFromBlock ⟨a, coverage.latestBlock, n, ([] : List (EventBlock H D))⟩
      g.defaultFromBlock g.finality := by
    have hd := getFromBlock_ge s.fold.lastSync g.defaultFromBlock g.finality
    unfold getFromBlock at hlow ⊢
    simp only
    split at hlow <;> split <;> omega
  have htop : getFromBlock ⟨a, coverage.latestBlock, n, ([] : List (EventBlock H D))⟩
      g.defaultFromBlock g.finality ≤
        getFromBlock (cursorAfter (deltas s.ks)) g.defaultFromBlock g.finality := by
    unfold getFromBlock
    simp only
    split <;> split <;> omega
  obtain ⟨ws', hok, hsync, -⟩ := ok.fold.news hmem hleg.chain (by omega) hresume hr
  refine ⟨ws', _, ok.run, hok, ?_⟩
  rw [hsync]
  exact htop

omit [DecidableEq H] in
/-- The first cycles of a run, and the next one. -/
theorem take_append {i : ℕ} {k : Cycle C} (hk : ks[i]? = some k) : ks.take (i + 1) = ks.take i ++ [k] := by
  rw [List.take_add_one, hk]
  rfl

/-- **Taking a delta keeps the system**, and says what the fold holds after it. -/
theorem System.Ok.follow (ok : System.Ok g s ws ops) {k : Cycle C} (next : s.ks[s.offered]? = some k)
    (applied : (g.follow s.fold k.appended).2.applied = true) {δ : Delta H}
    (appends : Appends C g.defaultFromBlock g.finality (cursorAfter (deltas (s.ks.take s.offered)))
      (held ∅ ((δs.take s.offered).flatMap Delta.ops)) k.appended δ) :
    ∃ ws' ops', System.Ok g ⟨s.ks, s.offered + 1, (g.follow s.fold k.appended).1⟩ ws' ops' ∧
      (ws'.Pairwise fun x y => C.numberOf x ≤ C.numberOf y) ∧
      (∀ x, x ∈ ws' ↔ x ∈ held ws.toFinset δ.ops ∧
        k.appended.newLastSync.lastToBlock - C.numberOf x ≤ g.finality) ∧
      ∀ x, x ∈ held ∅ ops' ↔
        if x ∈ δ.ops.map Op.key then x ∈ held ws.toFinset δ.ops else x ∈ held ∅ ops := by
  obtain ⟨hfrom, r, hr, hfold⟩ := follow_applied applied
  obtain ⟨δs', -, hst, -⟩ := run_stored ok.run
  have hle := hst.from_le (s.offered + 1)
  rw [take_append next, deltas_concat, cursorAfter_concat] at hle
  rw [appends.stream] at hr
  have hresume : getFromBlock s.fold.lastSync g.defaultFromBlock g.finality ≤
      getFromBlock k.appended.newLastSync g.defaultFromBlock g.finality := by
    rw [hfrom, appends.resumes]
    exact appends.resume_le
  have hnamed : ∀ o ∈ δ.ops, C.Bearing o.key ∧
      getFromBlock s.fold.lastSync g.defaultFromBlock g.finality ≤ C.numberOf o.key := by
    rw [hfrom]
    exact appends.named
  obtain ⟨ws', hok, hsync, hsorted, hmem, hheld⟩ := ok.fold.news hnamed appends.legal.chain
    appends.le_latest hresume hr
  rw [← hfold] at hok hsync
  refine ⟨ws', _, ⟨ok.run, hok, ?_⟩, hsorted, hmem, hheld⟩
  show getFromBlock (g.follow s.fold k.appended).1.lastSync g.defaultFromBlock g.finality ≤ _
  rw [hsync]
  exact hle

/-- **In every reachable state the fold's window knows what the fold holds.** -/
theorem System.Reach.ok (reach : System.Reach g s) : ∃ ws ops, System.Ok g s ws ops := by
  induction reach with
  | start run => exact ⟨[], [], run, Fold.Ok.fresh, getFromBlock_ge _ _ _⟩
  | append reach run ih =>
    obtain ⟨ws, ops, ok⟩ := ih
    exact ⟨ws, ops, ok.append run⟩
  | more reach call ih =>
    obtain ⟨ws, ops, ok⟩ := ih
    exact ok.more call
  | @follow s k reach next ih =>
    obtain ⟨ws, ops, ok⟩ := ih
    cases happ : (g.follow s.fold k.appended).2.applied with
    | true =>
      obtain ⟨δs, -, hst, -⟩ := run_stored ok.run
      obtain ⟨δ, -, appends⟩ := hst.getElem next
      obtain ⟨ws', ops', hok, -⟩ := ok.follow next happ appends
      exact ⟨ws', ops', hok⟩
    | false =>
      rw [follow_declined happ]
      exact ⟨ws, ops, ok.run, ok.fold, ok.resumes⟩
  | missed reach next ih =>
    obtain ⟨ws, ops, ok⟩ := ih
    exact ⟨ws, ops, ok.run, ok.fold, ok.resumes⟩

/-! ### When a delta leaves no hole -/

/-- The delta has no entry of the block. -/
def Untouched (delta : Appended H D) (x : H) : Prop := ∀ e ∈ delta.eventStream, e.blockHash ≠ x

/-- **The fold is level with the stream `before`** about all that the delta does not touch: it
holds the same logs there, and its window lists those that the delta leaves within finality. -/
structure Level (C : Chain H D) (f : ℕ) (before : List (LogEvent H D)) (fold : Fold H D)
    (delta : Appended H D) : Prop where
  holds : ∀ key : H × ℕ, Untouched delta key.1 →
    (key ∈ foldEvents ∅ fold.delivered ↔ key ∈ foldEvents ∅ before)
  lists : ∀ key ∈ foldEvents ∅ before, Untouched delta key.1 →
    delta.newLastSync.lastToBlock - C.numberOf key.1 ≤ f →
      ∃ w ∈ fold.lastSync.unconfirmedBlocks, w.hash = key.1

omit [DecidableEq H] in
theorem untouched_iff {delta : Appended H D} {δ : Delta H} (hs : delta.eventStream = δ.ops.flatMap C.emit)
    (hb : ∀ o ∈ δ.ops, C.Bearing o.key) {x : H} : Untouched delta x ↔ x ∉ δ.ops.map Op.key := by
  unfold Untouched
  rw [hs]
  constructor
  · intro h hx
    obtain ⟨o, ho, rfl⟩ := List.mem_map.1 hx
    obtain ⟨e, he⟩ := List.exists_mem_of_ne_nil _ (Chain.group_ok (hb o ho)).events_ne
    rw [Chain.group_events] at he
    exact h e (List.mem_flatMap.2 ⟨o, ho, he⟩) (Chain.emit_hash he)
  · intro h e he hx
    obtain ⟨o, ho, heo⟩ := List.mem_flatMap.1 he
    exact h (List.mem_map.2 ⟨o, ho, (Chain.emit_hash heo).symm.trans hx⟩)

omit [DecidableEq H] in
/-- Windows in order are equal if they list the same blocks, at most one per height. -/
theorem window_eq_iff {ws ws' : List H} (hn : ws.Nodup) (hn' : ws'.Nodup)
    (hs : ws.Pairwise fun x y => C.numberOf x ≤ C.numberOf y)
    (hs' : ws'.Pairwise fun x y => C.numberOf x ≤ C.numberOf y)
    (hinj : ∀ x ∈ ws', ∀ y ∈ ws', C.numberOf x = C.numberOf y → x = y) :
    ws.map C.block = ws'.map C.block ↔ ∀ x, x ∈ ws ↔ x ∈ ws' := by
  constructor
  · intro h
    have hhash := congrArg (List.map fun b : EventBlock H D => b.hash) h
    rw [List.map_map, List.map_map] at hhash
    have hid : (fun b : EventBlock H D => b.hash) ∘ C.block = id := rfl
    rw [hid, List.map_id, List.map_id] at hhash
    intro x
    rw [hhash]
  · intro h
    have hasc : ∀ l : List H, l.Nodup → (l.Pairwise fun x y => C.numberOf x ≤ C.numberOf y) →
        (∀ x ∈ l, x ∈ ws') → Paging.Sorted C.numberOf l := by
      intro l hl hle hmem
      refine (hle.and hl).imp_of_mem fun hx hy ⟨h1, h2⟩ => lt_of_le_of_ne h1 fun he => h2 ?_
      exact hinj _ (hmem _ hx) _ (hmem _ hy) he
    congr 1
    exact (hasc ws hn hs fun x hx => (h x).1 hx).ext (hasc ws' hn' hs' fun x hx => hx) h

/-- **No hole, exactly.** A delta the fold applied leaves it with the surviving logs and the
window of a replay of the whole stream through that delta, if and only if the fold was level
with the stream before it. -/
theorem follow_iff (reach : System.Reach g s) {k : Cycle C} (next : s.ks[s.offered]? = some k)
    (applied : (g.follow s.fold k.appended).2.applied = true) {r : Replayed H D}
    (scratch : replayFrom .fresh g.defaultFromBlock g.finality
      (emitted (deltas (s.ks.take (s.offered + 1)))) k.appended.newLastSync.latestBlock
        k.appended.newLastSync.lastToBlock = .ok r) :
    (foldEvents ∅ (g.follow s.fold k.appended).1.delivered = foldEvents ∅ r.eventStream ∧
      (g.follow s.fold k.appended).1.lastSync.unconfirmedBlocks = r.newLastSync.unconfirmedBlocks) ↔
    Level C g.finality (emitted (deltas (s.ks.take s.offered))) s.fold k.appended := by
  obtain ⟨ws, ops, ok⟩ := reach.ok
  obtain ⟨δs, -, hst, -⟩ := run_stored ok.run
  obtain ⟨δ, hδ, appends⟩ := hst.getElem next
  obtain ⟨ws', ops', ok', hsorted, hmem, hheld⟩ := ok.follow next applied appends
  -- the replay from scratch
  have hst' := hst.take (s.offered + 1)
  obtain ⟨stored, W, hstream, -, hbear, hall, hsync, hWn, hWs, hW⟩ := replay_whole hst' scratch
  have hδs : (δs.take (s.offered + 1)).flatMap Delta.ops = (δs.take s.offered).flatMap Delta.ops ++ δ.ops := by
    rw [List.take_add_one, hδ]
    simp
  set P := held ∅ ((δs.take s.offered).flatMap Delta.ops) with hP
  have hF : held ∅ ((δs.take (s.offered + 1)).flatMap Delta.ops) = held P δ.ops := by rw [hδs, held_append]
  rw [hF] at hall hW
  have hnamed : ∀ x ∈ δ.ops.map Op.key, (x ∈ held ws.toFinset δ.ops ↔ x ∈ held P δ.ops) :=
    fun x hx => mem_held_of_key hx
  have hrest : ∀ x, x ∉ δ.ops.map Op.key → (x ∈ held P δ.ops ↔ x ∈ P) := fun x hx => mem_held_of_not_key hx
  have hfold : ∀ os : List (Op H), foldEvents ∅ (os.flatMap C.emit) = parts C.logKeys (held ∅ os) :=
    fun os => by rw [← foldEvents_emit, parts_empty]
  have hbears : ∀ {os : List (Op H)}, (∀ o ∈ os, C.Bearing o.key) → ∀ x ∈ held ∅ os, C.Bearing x := by
    intro os hos x hx
    obtain ⟨o, ho, rfl⟩ := List.mem_map.1 (mem_keys_of_mem_held hx)
    exact hos o ho
  have hbearP : ∀ x ∈ P, C.Bearing x := hbears fun o ho => ((hst.take s.offered).named o ho).1
  have htouch : ∀ x, Untouched k.appended x ↔ x ∉ δ.ops.map Op.key := fun x =>
    untouched_iff appends.stream fun o ho => (appends.named o ho).1
  -- both sides, block by block
  have hleft : foldEvents ∅ (g.follow s.fold k.appended).1.delivered = foldEvents ∅ r.eventStream ↔
      ∀ x, x ∉ δ.ops.map Op.key → (x ∈ held ∅ ops ↔ x ∈ P) := by
    have hagree := forall_parts_iff (hbears ok'.fold.bearing) (hbears hbear) fun _ => True
    simp only [true_implies] at hagree
    rw [show (g.follow s.fold k.appended).1.delivered = ops'.flatMap C.emit from ok'.fold.delivered, hstream,
      hfold, hfold, Finset.ext_iff, hagree, hall]
    constructor
    · intro h x hx
      have := h x
      rwa [hheld, if_neg hx, hrest x hx] at this
    · intro h x
      rw [hheld]
      split
      · rename_i hx
        exact hnamed x hx
      · rename_i hx
        rw [h x hx, hrest x hx]
  have hright : (∀ x, x ∉ δ.ops.map Op.key → (x ∈ held ∅ ops ↔ x ∈ P)) →
      ((g.follow s.fold k.appended).1.lastSync.unconfirmedBlocks = r.newLastSync.unconfirmedBlocks ↔
        ∀ x ∈ P, x ∉ δ.ops.map Op.key →
          k.appended.newLastSync.lastToBlock - C.numberOf x ≤ g.finality → x ∈ ws) := by
    intro hagree
    have hinj : ∀ x ∈ W, ∀ y ∈ W, C.numberOf x = C.numberOf y → x = y := by
      intro x hx y hy hn
      exact hst'.heights (hF ▸ ((hW x).1 hx).1) (hF ▸ ((hW y).1 hy).1) hn
    rw [show (g.follow s.fold k.appended).1.lastSync.unconfirmedBlocks = ws'.map C.block from ok'.fold.window,
      hsync, window_eq_iff ok'.fold.nodup hWn hsorted hWs hinj]
    constructor
    · intro h x hx hkey hle
      have hxw := (h x).2 ((hW x).2 ⟨(hrest x hkey).2 hx, hle⟩)
      have hxh := ((hmem x).1 hxw).1
      rwa [mem_held_of_not_key hkey, List.mem_toFinset] at hxh
    · intro h x
      rw [hmem, hW]
      by_cases hkey : x ∈ δ.ops.map Op.key
      · rw [hnamed x hkey]
      · rw [mem_held_of_not_key hkey, hrest x hkey, List.mem_toFinset]
        constructor
        · exact fun hx => ⟨(hagree x hkey).1 (ok.fold.live x hx.1), hx.2⟩
        · exact fun hx => ⟨h x hx.1 hkey hx.2, hx.2⟩
  have hholds : (∀ key : H × ℕ, Untouched k.appended key.1 → (key ∈ foldEvents ∅ s.fold.delivered ↔
      key ∈ foldEvents ∅ (emitted (deltas (s.ks.take s.offered))))) ↔
        ∀ x, x ∉ δ.ops.map Op.key → (x ∈ held ∅ ops ↔ x ∈ P) := by
    rw [show s.fold.delivered = ops.flatMap C.emit from ok.fold.delivered, (hst.take s.offered).emitted_eq,
      hfold, hfold, ← hP]
    simp only [htouch]
    exact forall_parts_iff (hbears ok.fold.bearing) hbearP fun x => x ∉ δ.ops.map Op.key
  have hlists : (∀ key ∈ foldEvents ∅ (emitted (deltas (s.ks.take s.offered))), Untouched k.appended key.1 →
      k.appended.newLastSync.lastToBlock - C.numberOf key.1 ≤ g.finality →
        ∃ w ∈ s.fold.lastSync.unconfirmedBlocks, w.hash = key.1) ↔
      ∀ x ∈ P, x ∉ δ.ops.map Op.key →
        k.appended.newLastSync.lastToBlock - C.numberOf x ≤ g.finality → x ∈ ws := by
    rw [(hst.take s.offered).emitted_eq, hfold, ok.fold.window]
    simp only [htouch, mem_parts_iff, List.mem_map, exists_exists_and_eq_and, Chain.block_hash,
      exists_eq_right]
    constructor
    · intro h x hx
      obtain ⟨e, he⟩ := List.exists_mem_of_ne_nil _ (hbearP x hx)
      exact h (x, e.logIndex) ⟨hx, List.mem_map.2 ⟨e, he, by rw [C.log_hash x e he]⟩⟩
    · exact fun h key hkey => h key.1 hkey.1
  constructor
  · rintro ⟨h1, h2⟩
    exact ⟨hholds.2 (hleft.1 h1), hlists.2 ((hright (hleft.1 h1)).1 h2)⟩
  · rintro ⟨h1, h2⟩
    exact ⟨hleft.2 (hholds.1 h1), (hright (hholds.1 h1)).2 (hlists.1 h2)⟩

/-- Three blocks with a log each, and then a far tip. -/
def farRun : List (Cycle (.oneLog id fun x => decide (x ∈ [3, 4, 5]))) :=
  [⟨⟨5, id, fun _ _ => rfl⟩, 5, ⟨[⟨3, 3, 0, false, ()⟩, ⟨4, 4, 0, false, ()⟩, ⟨5, 5, 0, false, ()⟩],
      ⟨0, 5, 5, [⟨3, 3, [⟨3, 3, 0, false, ()⟩]⟩, ⟨4, 4, [⟨4, 4, 0, false, ()⟩]⟩,
        ⟨5, 5, [⟨5, 5, 0, false, ()⟩]⟩]⟩, none⟩⟩,
    ⟨⟨20, id, fun _ _ => rfl⟩, 20, ⟨[], ⟨2, 20, 20, []⟩, none⟩⟩]

/-- A rebuild with finality `3` and batches of one. -/
def smallRebuild : GenerationRebuild Unit := ⟨0, 3, 1, 1, fun _ => true, le_rfl, le_rfl⟩

theorem run_farRun : Run 0 3 (farRun.take 1) ∧ Run 0 3 farRun := by
  have h1 : Run 0 3 (farRun.take 1) := Run.cycle .start (by simp) (by decide) (by decide) (by rfl)
  refine ⟨h1, Run.cycle h1 ?_ (by decide) (by decide) (by rfl)⟩
  intro k hk
  obtain rfl : _ = k := by simpa [farRun] using hk
  exact ⟨by decide, fun _ _ => rfl⟩

theorem reach_farRun : System.Reach smallRebuild ⟨farRun.take 1, 0, .fresh⟩ :=
  have hnone : System.Reach smallRebuild ⟨[], 0, .fresh⟩ := .start .start
  hnone.append run_farRun.1

/-- The first delta is taken by a fold that has read nothing yet. -/
theorem follow_iff_farRun : foldEvents ∅ (smallRebuild.follow .fresh (farRun.head (by decide)).appended).1.delivered =
    {(3, 0), (4, 0), (5, 0)} := by
  have hlevel := follow_iff reach_farRun (k := farRun.head (by decide)) rfl rfl
    (r := ⟨emitted (deltas (farRun.take 1)), (farRun.head (by decide)).appended.newLastSync⟩) rfl
  have hboth := hlevel.2 ⟨fun _ _ => Iff.rfl, fun key hkey => absurd hkey (Finset.notMem_empty key)⟩
  rw [hboth.1]
  decide

/-- A fold that has read only block `3`, at the end of a truncated chunk, resumes at block
`2` like the writer, and takes the delta of the far tip: blocks `4` and `5` are stepped over. -/
theorem farRun_hole : ∃ (s : System (.oneLog id fun x => decide (x ∈ [3, 4, 5])))
    (k : Cycle (.oneLog id fun x => decide (x ∈ [3, 4, 5]))) (r : Replayed ℕ Unit),
    System.Reach smallRebuild s ∧ s.ks[s.offered]? = some k ∧
    (smallRebuild.follow s.fold k.appended).2.applied = true ∧
    replayFrom .fresh 0 3 (emitted (deltas (s.ks.take (s.offered + 1)))) 20 20 = .ok r ∧
    foldEvents ∅ (smallRebuild.follow s.fold k.appended).1.delivered = {(3, 0)} ∧
    foldEvents ∅ r.eventStream = {(3, 0), (4, 0), (5, 0)} := by
  have hstart : System.Reach smallRebuild ⟨farRun.take 1, 1, .fresh⟩ := .start run_farRun.1
  have hchunk : System.Reach smallRebuild ⟨farRun.take 1, 1, ⟨⟨0, 5, 3, [⟨3, 3, [⟨3, 3, 0, false, ()⟩]⟩]⟩,
      [⟨3, 3, 0, false, ()⟩]⟩⟩ :=
    hstart.more (show smallRebuild.more _ _ (some 1) = .ok (_, ⟨0, some 3, 1, 1, 0, 3, false, .budget⟩) from rfl)
  exact ⟨_, _, _, hchunk.append run_farRun.2, rfl, by decide, rfl, by decide, by decide⟩

end Etherfold
