import Etherfold.Generation.Follow

/-!
# A rebuild in bounded chunks

A new generation reads the stored stream chunk by chunk, each under a budget of its own, and the
chunks overlap by what finality may still take back. Nothing is appended in between. A cursor at
block 0 is that of a fold that has read nothing, so the claim is taken to reach further.

* `GenerationRebuild.mores`: the calls, one budget each.
* `Fold.Through`: what a fold knows that holds the stream up to a height.
* `mores_complete`: **every call goes further until the stream is consumed**, whatever the budgets.
* `mores_whole`: **the fold ends as one call without a budget would leave it**.
-/

namespace Etherfold

open Ledger

variable {H D : Type} {C : Chain H D} [DecidableEq H]

/-- Call after call of `more`, each with its own budget. -/
def GenerationRebuild.mores (g : GenerationRebuild D) (stream : StoredStream H D) :
    Fold H D → List ℕ → Except RebuildError (Fold H D × List RebuildReport)
  | fold, [] => .ok (fold, [])
  | fold, budget :: budgets => do
    let (fold, report) ← g.more stream fold (some budget)
    let (fold, reports) ← g.mores stream fold budgets
    pure (fold, report :: reports)

/-! ### One call -/

variable {g : GenerationRebuild D} {fold fold' : Fold H D} {s : StoredStream H D} {coverage : StreamCoverage}

/-- **A call over rows that decode** reads a range that goes beyond what the fold has folded, unless
nothing is left, and says so. -/
theorem more_reads (hcov : s.coverage = some coverage)
    (hstart : coverage.startBlock ≤ getFromBlock fold.lastSync g.defaultFromBlock g.finality)
    (hdec : ∀ e ∈ s.rows, g.decodable e.data = true) {budget : ℕ} (hb : 1 ≤ budget) :
    ∃ n fold' report, g.more s fold (some budget) = .ok (fold', report) ∧ n ≤ coverage.lastToBlock ∧
      min coverage.lastToBlock (max (fold.lastSync.lastToBlock + 1)
        (getFromBlock fold.lastSync g.defaultFromBlock g.finality)) ≤ n ∧
      report.toBlock = some n ∧ report.complete = !decide (n < coverage.lastToBlock) ∧
      (s.rows.length ≤ budget → n = coverage.lastToBlock) ∧
      (fold' = fold ∧ n = fold.lastSync.lastToBlock ∧ coverage.latestBlock = fold.lastSync.latestBlock ∨
        ∃ r, generateStreamFromReplay fold.lastSync g.defaultFromBlock
          (s.rows.filter fun e => getFromBlock fold.lastSync g.defaultFromBlock g.finality ≤ e.blockNumber &&
            e.blockNumber ≤ n)
          ⟨coverage.latestBlock, getFromBlock fold.lastSync g.defaultFromBlock g.finality, n, g.finality⟩ = .ok r ∧
          fold' = g.deliver fold r) := by
  set a := getFromBlock fold.lastSync g.defaultFromBlock g.finality with ha
  set probe := (((s.rows.map (·.blockNumber)).filter (a ≤ ·)).insertionSort (· ≤ ·)).take (budget + 1) with hprobe
  set n := min coverage.lastToBlock (max (if budget < probe.length then probe.getD budget 0 - 1 else coverage.lastToBlock)
    (max (fold.lastSync.lastToBlock + 1) a)) with hn
  have hread : readChunk s a fold.lastSync.lastToBlock budget = .chunk
      ⟨s.rows.filter fun e => a ≤ e.blockNumber && e.blockNumber ≤ n, a, n, coverage.latestBlock,
        n < coverage.lastToBlock, s.rows.length⟩ := by
    unfold readChunk
    rw [hcov]
    exact if_neg (not_lt.2 hstart)
  have hall : g.reparse (s.rows.filter fun e => a ≤ e.blockNumber && e.blockNumber ≤ n) =
      some (s.rows.filter fun e => a ≤ e.blockNumber && e.blockNumber ≤ n) :=
    if_pos (List.all_eq_true.2 fun e he => hdec e (List.mem_of_mem_filter he))
  -- few rows are all within the budget
  have hwhole : s.rows.length ≤ budget → n = coverage.lastToBlock := by
    intro hlength
    have hshort : probe.length ≤ budget := by
      rw [hprobe, List.length_take, List.length_insertionSort]
      have := List.length_filter_le (fun m => decide (a ≤ m)) (s.rows.map (·.blockNumber))
      rw [List.length_map] at this
      omega
    rw [hn, if_neg (not_lt.2 hshort)]
    omega
  unfold GenerationRebuild.more
  simp only [Option.getD_some, if_neg (not_lt.2 hb), ← ha, hread, hall]
  by_cases hsame : n = fold.lastSync.lastToBlock ∧ coverage.latestBlock = fold.lastSync.latestBlock
  · rw [if_pos hsame]
    exact ⟨n, _, _, rfl, by omega, by omega, rfl, rfl, hwhole, Or.inl ⟨rfl, hsame⟩⟩
  · rw [if_neg hsame]
    obtain ⟨r, hr⟩ := (replay_ok_iff fold.lastSync g.defaultFromBlock
      (s.rows.filter fun e => a ≤ e.blockNumber && e.blockNumber ≤ n) ⟨coverage.latestBlock, a, n, g.finality⟩).2 ha
    rw [hr]
    exact ⟨n, _, _, rfl, by omega, by omega, rfl, rfl, hwhole, Or.inr ⟨r, hr, rfl⟩⟩

/-! ### What the fold knows -/

/-- The first height a fold has not read. -/
def Fold.unread (d : ℕ) (fold : Fold H D) : ℕ := if fold.lastSync.latestBlock = 0 then d else fold.lastSync.lastToBlock + 1

/-- **A fold that holds the stream up to a height**: of the blocks `F` those it has read, each once, and in its window those
that finality may still take back. -/
structure Fold.Through (C : Chain H D) (d f : ℕ) (F : Finset H) (fold : Fold H D) (ws : List H) (ops : List (Op H)) : Prop where
  ok : Fold.Ok C d f fold ws ops
  legal : Legal ∅ ops
  start : d ≤ fold.unread d
  holds : ∀ x, x ∈ held ∅ ops ↔ x ∈ F ∧ C.numberOf x < fold.unread d
  sorted : ws.Pairwise fun x y => C.numberOf x ≤ C.numberOf y
  lists : ∀ x, x ∈ ws ↔ x ∈ held ∅ ops ∧ fold.lastSync.lastToBlock - C.numberOf x ≤ f

variable {d f : ℕ} {F : Finset H} {ws : List H} {ops : List (Op H)}

theorem Fold.through_fresh (hF : ∀ x ∈ F, d ≤ C.numberOf x) : Fold.Through C d f F (.fresh : Fold H D) [] [] where
  ok := .fresh
  legal := trivial
  start := le_rfl
  holds x := by
    rw [held_nil]
    refine ⟨fun h => absurd h (Finset.notMem_empty x), fun ⟨hx, hlt⟩ => ?_⟩
    have hge := hF x hx
    have hd : (Fold.fresh : Fold H D).unread d = d := rfl
    omega
  sorted := .nil
  lists x := by simp

omit [DecidableEq H] in
/-- A fold resumes no higher than it has read. -/
theorem Fold.resume_le_unread {fold : Fold H D} (hstart : d ≤ fold.unread d) :
    getFromBlock fold.lastSync d f ≤ fold.unread d := by
  unfold Fold.unread at hstart ⊢
  unfold getFromBlock
  split
  · exact le_rfl
  · rename_i hlatest
    rw [if_neg hlatest] at hstart
    omega

variable {stored : List (Op H)}

/-- **What one chunk adds**: the fold holds the stream up to where the chunk ends. -/
theorem Fold.Through.read (h : Fold.Through C g.defaultFromBlock g.finality (held ∅ stored) fold ws ops)
    (hstored : ∀ o ∈ stored, C.Bearing o.key ∧ g.defaultFromBlock ≤ C.numberOf o.key) (hleg : Legal ∅ stored)
    {latest n : ℕ} (hlatest : latest ≠ 0) (hn : n ≤ latest) (hle : fold.lastSync.lastToBlock ≤ n)
    (hd : g.defaultFromBlock ≤ n) {a : ℕ} (ha : getFromBlock fold.lastSync g.defaultFromBlock g.finality = a)
    (hresume : a ≤ getFromBlock ⟨a, latest, n, ([] : List (EventBlock H D))⟩ g.defaultFromBlock g.finality)
    {r : Replayed H D} (hr : generateStreamFromReplay fold.lastSync g.defaultFromBlock
      ((stored.flatMap C.emit).filter fun e => decide (a ≤ e.blockNumber) && decide (e.blockNumber ≤ n))
      ⟨latest, a, n, g.finality⟩ = .ok r) :
    ∃ ws' ops', Fold.Through C g.defaultFromBlock g.finality (held ∅ stored) (g.deliver fold r) ws' ops' ∧
      (g.deliver fold r).lastSync = ⟨a, latest, n, ws'.map C.block⟩ := by
  rw [filter_range] at hr
  set rows := stored.filter fun o => decide (a ≤ C.numberOf o.key ∧ C.numberOf o.key ≤ n) with hrows
  have hmem : ∀ o ∈ rows, C.Bearing o.key ∧ getFromBlock fold.lastSync g.defaultFromBlock g.finality ≤ C.numberOf o.key := by
    intro o ho
    obtain ⟨ho, hp⟩ := List.mem_filter.1 ho
    rw [ha]
    exact ⟨(hstored o ho).1, (of_decide_eq_true hp).1⟩
  have hlegal : Legal ∅ rows := by
    have := hleg.filter fun x => a ≤ C.numberOf x ∧ C.numberOf x ≤ n
    rwa [Finset.filter_empty] at this
  obtain ⟨ws', hok, hsync, hsorted, hlists, hheld⟩ := h.ok.news hmem hlegal.chain hn (ha.trans_le hresume) hr
  have hunread : (g.deliver fold r).unread g.defaultFromBlock = n + 1 := by
    unfold Fold.unread
    rw [hsync]
    exact if_neg hlatest
  have hlow : a ≤ fold.unread g.defaultFromBlock := ha ▸ Fold.resume_le_unread h.start
  have hbefore : fold.unread g.defaultFromBlock ≤ n + 1 := by
    unfold Fold.unread
    split <;> omega
  -- of a block the rows name, the chunk has the last word of the stream
  have hread : ∀ x, x ∈ rows.map Op.key → (x ∈ held ws.toFinset rows ↔ x ∈ held ∅ stored) := by
    intro x hx
    obtain ⟨o, ho, rfl⟩ := List.mem_map.1 hx
    rw [mem_held_of_key (T := ∅) hx]
    exact mem_held_filter (p := fun y => a ≤ C.numberOf y ∧ C.numberOf y ≤ n)
      (of_decide_eq_true (List.mem_filter.1 ho).2) Iff.rfl
  have hrange : ∀ x ∈ held ∅ stored, x ∉ rows.map Op.key → ¬(a ≤ C.numberOf x ∧ C.numberOf x ≤ n) := by
    intro x hx hkey hin
    obtain ⟨o, ho, rfl⟩ := List.mem_map.1 (mem_keys_of_mem_held hx)
    exact hkey (List.mem_map_of_mem (List.mem_filter.2 ⟨ho, decide_eq_true hin⟩))
  refine ⟨ws', _, ⟨hok, ?_, by omega, fun x => ?_, hsorted, fun x => ?_⟩, hsync⟩
  · -- the window and the holding agree about what is read again
    rw [legal_append]
    refine ⟨h.legal, legal_settle.of_agree fun x hx => ?_⟩
    obtain ⟨o, ho, rfl⟩ := List.mem_map.1 hx
    rw [List.mem_toFinset]
    exact ⟨h.ok.live _, fun hin => h.ok.covered _ hin (hmem o (settle_sublist.subset ho)).2⟩
  · rw [hheld, hunread]
    split
    · rename_i hkey
      rw [hread x hkey]
      obtain ⟨o, ho, rfl⟩ := List.mem_map.1 hkey
      have hin := of_decide_eq_true (List.mem_filter.1 ho).2
      exact ⟨fun hx => ⟨hx, by omega⟩, fun hx => hx.1⟩
    · rename_i hkey
      rw [h.holds]
      refine and_congr_right fun hx => ?_
      have hout := hrange x hx hkey
      omega
  · rw [hlists, hheld, hsync]
    dsimp only
    split
    · rfl
    · rename_i hkey
      rw [mem_held_of_not_key hkey, List.mem_toFinset, h.lists]
      constructor
      · exact fun hx => ⟨hx.1.1, hx.2⟩
      · exact fun hx => ⟨⟨hx.1, by omega⟩, hx.2⟩

/-! ### Call after call -/

variable {ks : List (Cycle C)} {δs : List (Delta H)}

/-- The claim of a stored stream: from the first block of the source to where the writer has been. -/
theorem Stored.claims (st : Stored d f ks δs) (hne : ks ≠ []) : ∃ coverage,
    (storedStream (deltas ks)).coverage = some coverage ∧ coverage.startBlock = d ∧
      coverage.latestBlock = (cursorAfter (deltas ks)).latestBlock ∧
      coverage.lastToBlock = (cursorAfter (deltas ks)).lastToBlock := by
  induction st with
  | nil => exact absurd rfl hne
  | @snoc ks δs k δ stored appends ih =>
    have happend : storedStream (deltas (ks ++ [k])) = (storedStream (deltas ks)).append k.appended := by
      unfold storedStream
      rw [deltas_concat, List.foldl_append]
      rfl
    rw [happend, deltas_concat, cursorAfter_concat]
    refine ⟨_, rfl, ?_, rfl, rfl⟩
    show ((storedStream (deltas ks)).coverage.map (·.startBlock)).getD k.appended.newLastSync.lastFromBlock = d
    rcases ks.eq_nil_or_concat with rfl | ⟨front, last, rfl⟩
    · -- the first delta begins where nothing has been read
      exact appends.resumes
    · obtain ⟨coverage, hcoverage, hstart, -⟩ := ih (by simp)
      rw [hcoverage]
      exact hstart

/-- What the calls keep of a fold over the stream that `ks` stored: it holds the stream as far as it has read. -/
structure Fold.Rebuilding (g : GenerationRebuild D) (ks : List (Cycle C)) (δs : List (Delta H)) (fold : Fold H D)
    (ws : List H) (ops : List (Op H)) : Prop where
  through : Fold.Through C g.defaultFromBlock g.finality (held ∅ (δs.flatMap Delta.ops)) fold ws ops
  frozen : fold.lastSync = .fresh ∨ fold.lastSync.latestBlock = (cursorAfter (deltas ks)).latestBlock ∧
    fold.lastSync.lastToBlock ≤ (cursorAfter (deltas ks)).lastToBlock

omit [DecidableEq H] in
/-- The next chunk begins no lower than this one. -/
theorem Fold.Rebuilding.resumes [DecidableEq H] (h : Fold.Rebuilding g ks δs fold ws ops)
    (hlatest : (cursorAfter (deltas ks)).latestBlock ≠ 0) {n : ℕ} (hn : min (cursorAfter (deltas ks)).lastToBlock
      (max (fold.lastSync.lastToBlock + 1) (getFromBlock fold.lastSync g.defaultFromBlock g.finality)) ≤ n) :
    getFromBlock fold.lastSync g.defaultFromBlock g.finality ≤
      getFromBlock ⟨getFromBlock fold.lastSync g.defaultFromBlock g.finality, (cursorAfter (deltas ks)).latestBlock, n,
        ([] : List (EventBlock H D))⟩ g.defaultFromBlock g.finality := by
  rcases h.frozen with hfresh | ⟨hsame, hto⟩
  · rw [hfresh]
    exact getFromBlock_ge _ _ _
  · unfold getFromBlock at hn ⊢
    rw [hsame, if_neg hlatest] at hn ⊢
    dsimp only
    rw [if_neg hlatest]
    omega

/-- **One more call**, whatever its budget, goes on from where the last one ended. -/
theorem Fold.Rebuilding.more (h : Fold.Rebuilding g ks δs fold ws ops) (st : Stored g.defaultFromBlock g.finality ks δs)
    (hlatest : (cursorAfter (deltas ks)).latestBlock ≠ 0) (hdec : ∀ e ∈ emitted (deltas ks), g.decodable e.data = true)
    {budget : ℕ} (hb : 1 ≤ budget) :
    ∃ fold' report ws' ops', g.more (storedStream (deltas ks)) fold (some budget) = .ok (fold', report) ∧
      Fold.Rebuilding g ks δs fold' ws' ops' ∧ fold'.lastSync.latestBlock = (cursorAfter (deltas ks)).latestBlock ∧
      report.toBlock = some fold'.lastSync.lastToBlock ∧
      (report.complete = true ↔ fold'.lastSync.lastToBlock = (cursorAfter (deltas ks)).lastToBlock) ∧
      fold'.lastSync.lastToBlock ≤ (cursorAfter (deltas ks)).lastToBlock ∧
      min (cursorAfter (deltas ks)).lastToBlock (fold.lastSync.lastToBlock + 1) ≤ fold'.lastSync.lastToBlock ∧
      ((emitted (deltas ks)).length ≤ budget → fold'.lastSync.lastToBlock = (cursorAfter (deltas ks)).lastToBlock) := by
  have hne : ks ≠ [] := fun hnil => hlatest (by rw [hnil]; rfl)
  obtain ⟨coverage, hcoverage, hstart, hclatest, hcto⟩ := st.claims hne
  have hreach := st.reaches hne
  have hle := st.le_latest
  have hfrom := getFromBlock_ge fold.lastSync g.defaultFromBlock g.finality
  rw [← storedStream_rows] at hdec ⊢
  obtain ⟨n, fold', report, hcall, hnto, hmin, hto, hcomplete, hwhole, hfold⟩ :=
    more_reads hcoverage (hstart.trans_le hfrom) hdec hb
  rw [hclatest] at hfold
  rw [hcto] at hnto hmin hcomplete hwhole
  have hdone : report.complete = true ↔ n = (cursorAfter (deltas ks)).lastToBlock := by
    rw [hcomplete, Bool.not_eq_true', decide_eq_false_iff_not]
    omega
  rcases hfold with ⟨rfl, hsame, hlatest'⟩ | ⟨r, hr, rfl⟩
  · -- the fold has read all there is
    refine ⟨_, report, ws, ops, hcall, h, hlatest'.symm, ?_⟩
    rw [← hsame]
    exact ⟨hto, hdone, hnto, by omega, hwhole⟩
  · have hfrozen : fold.lastSync.lastToBlock ≤ (cursorAfter (deltas ks)).lastToBlock := by
      rcases h.frozen with hfresh | hfrozen
      · rw [hfresh]
        exact Nat.zero_le _
      · exact hfrozen.2
    rw [storedStream_rows, st.emitted_eq] at hr
    obtain ⟨ws', ops', hthrough, hsync⟩ := h.through.read st.named st.legal hlatest (by omega) (by omega) (by omega) rfl
      (h.resumes hlatest hmin) hr
    have hn : (g.deliver fold r).lastSync.lastToBlock = n := by rw [hsync]
    have hl : (g.deliver fold r).lastSync.latestBlock = (cursorAfter (deltas ks)).latestBlock := by rw [hsync]
    refine ⟨_, report, ws', ops', hcall, ⟨hthrough, Or.inr ⟨hl, hn.trans_le hnto⟩⟩, hl, ?_⟩
    rw [hn]
    exact ⟨hto, hdone, hnto, by omega, hwhole⟩

/-- A report of a call that goes further than the one before, or confirms that there is no more. -/
def RebuildReport.Further (report report' : RebuildReport) : Prop :=
  ∃ n n', report.toBlock = some n ∧ report'.toBlock = some n' ∧
    (n < n' ∨ report.complete = true ∧ report'.complete = true ∧ n = n')

/-- What is said of any number of calls, the last of which left `fold'`. -/
structure GenerationRebuild.Progress (fold fold' : Fold H D) (last : ℕ) (budgets : List ℕ) (reports : List RebuildReport) :
    Prop where
  each : reports.length = budgets.length
  further : reports.IsChain RebuildReport.Further
  within : ∀ report ∈ reports, ∃ n ≤ last, report.toBlock = some n ∧ (report.complete = true ↔ n = last)
  first : ∀ report ∈ reports.head?, ∀ n ∈ report.toBlock, min last (fold.lastSync.lastToBlock + 1) ≤ n
  ends : ∀ report ∈ reports.getLast?, report.toBlock = some fold'.lastSync.lastToBlock
  reaches : min last (fold.lastSync.lastToBlock + budgets.length) ≤ fold'.lastSync.lastToBlock

/-- **Call after call**, whatever the budgets. -/
theorem Fold.Rebuilding.mores (h : Fold.Rebuilding g ks δs fold ws ops) (st : Stored g.defaultFromBlock g.finality ks δs)
    (hlatest : (cursorAfter (deltas ks)).latestBlock ≠ 0) (hdec : ∀ e ∈ emitted (deltas ks), g.decodable e.data = true)
    {budgets : List ℕ} (hb : ∀ budget ∈ budgets, 1 ≤ budget) :
    ∃ fold' reports ws' ops', g.mores (storedStream (deltas ks)) fold budgets = .ok (fold', reports) ∧
      Fold.Rebuilding g ks δs fold' ws' ops' ∧
      (budgets ≠ [] → fold'.lastSync.latestBlock = (cursorAfter (deltas ks)).latestBlock) ∧
      GenerationRebuild.Progress fold fold' (cursorAfter (deltas ks)).lastToBlock budgets reports := by
  induction budgets generalizing fold ws ops with
  | nil =>
    refine ⟨fold, [], ws, ops, rfl, h, fun hne => absurd rfl hne, rfl, .nil, ?_, ?_, ?_, min_le_right _ _⟩
    · exact fun report hreport => by cases hreport
    · exact fun report hreport => by cases hreport
    · exact fun report hreport => by cases hreport
  | cons budget budgets ih =>
    obtain ⟨fold₁, report, ws₁, ops₁, hcall, h₁, hl₁, hto, hdone, hle, hmin, -⟩ :=
      h.more st hlatest hdec (hb budget List.mem_cons_self)
    obtain ⟨fold', reports, ws', ops', hcalls, h', hl', progress⟩ :=
      ih h₁ fun b hmem => hb b (List.mem_cons_of_mem _ hmem)
    have hall : g.mores (storedStream (deltas ks)) fold (budget :: budgets) = .ok (fold', report :: reports) := by
      unfold GenerationRebuild.mores
      rw [hcall]
      show (g.mores (storedStream (deltas ks)) fold₁ budgets >>= fun p => pure (p.1, report :: p.2)) = _
      rw [hcalls]
      rfl
    have hreports : ∀ report' ∈ reports.head?, ∃ n, report'.toBlock = some n ∧ n ≤ (cursorAfter (deltas ks)).lastToBlock ∧
        (report'.complete = true ↔ n = (cursorAfter (deltas ks)).lastToBlock) ∧
        min (cursorAfter (deltas ks)).lastToBlock (fold₁.lastSync.lastToBlock + 1) ≤ n := by
      intro report' hhead
      obtain ⟨n, hn, hto', hdone'⟩ := progress.within report' (List.mem_of_head? hhead)
      exact ⟨n, hto', hn, hdone', progress.first report' hhead n hto'⟩
    refine ⟨fold', report :: reports, ws', ops', hall, h', fun _ => ?_, ?_, ?_, ?_, ?_, ?_, ?_⟩
    · cases budgets with
      | nil =>
        cases hcalls
        exact hl₁
      | cons budget' budgets => exact hl' (List.cons_ne_nil _ _)
    · rw [List.length_cons, List.length_cons, progress.each]
    · refine List.isChain_cons.2 ⟨fun report' hhead => ?_, progress.further⟩
      obtain ⟨n, hto', hn, hdone', hmin'⟩ := hreports report' hhead
      refine ⟨_, n, hto, hto', ?_⟩
      rw [hdone, hdone']
      omega
    · refine List.forall_mem_cons.2 ⟨⟨_, hle, hto, hdone⟩, progress.within⟩
    · intro report' hhead n hn
      cases hhead
      rw [hto] at hn
      cases hn
      exact hmin
    · intro report' hlast
      cases reports with
      | nil =>
        have hnil : budgets = [] := List.length_eq_zero_iff.1 progress.each.symm
        subst hnil
        cases hcalls
        cases hlast
        exact hto
      | cons report₂ reports =>
        rw [List.getLast?_cons_cons] at hlast
        exact progress.ends report' hlast
    · have hreaches := progress.reaches
      rw [List.length_cons]
      omega

/-! ### The whole rebuild -/

/-- A fold that has read nothing is at the start of every rebuild. -/
theorem Fold.rebuilding_fresh (st : Stored g.defaultFromBlock g.finality ks δs) :
    Fold.Rebuilding g ks δs (.fresh : Fold H D) [] [] := by
  refine ⟨Fold.through_fresh fun x hx => ?_, Or.inl rfl⟩
  obtain ⟨o, ho, rfl⟩ := List.mem_map.1 (mem_keys_of_mem_held hx)
  exact (st.named o ho).2

/-- The logs of blocks, below a height. -/
theorem parts_below {A B : Finset H} {m : ℕ} (h : ∀ x, x ∈ A ↔ x ∈ B ∧ C.numberOf x < m) :
    parts C.logKeys A = (parts C.logKeys B).filter fun key => C.numberOf key.1 < m := by
  ext key
  rw [Finset.mem_filter, mem_parts_iff, mem_parts_iff, h]
  exact and_right_comm

/-- **What a rebuilding fold was delivered**: the surviving logs of what it has read, each once. -/
theorem Fold.Rebuilding.delivered (h : Fold.Rebuilding g ks δs fold ws ops) (st : Stored g.defaultFromBlock g.finality ks δs) :
    foldEvents ∅ fold.delivered = (foldEvents ∅ (emitted (deltas ks))).filter
        (fun key => C.numberOf key.1 < fold.unread g.defaultFromBlock) ∧
      ∀ key, netDelivered key fold.delivered = if key ∈ foldEvents ∅ fold.delivered then 1 else 0 := by
  have hlogs : ∀ os : List (Op H), foldEvents ∅ (os.flatMap C.emit) = parts C.logKeys (held ∅ os) :=
    fun os => by rw [← foldEvents_emit, parts_empty]
  rw [st.emitted_eq, h.through.ok.delivered, hlogs, hlogs]
  refine ⟨parts_below h.through.holds, fun key => ?_⟩
  by_cases hkey : key ∈ C.logKeys key.1
  · rw [netDelivered_emit hkey, net_eq h.through.legal]
    simp only [mem_parts_iff, hkey, and_true, Finset.notMem_empty, if_false, sub_zero]
  · rw [netDelivered_of_notMem hkey, if_neg]
    rw [mem_parts_iff]
    exact fun hin => hkey hin.2

/-- Two folds that go on alike: the same surviving logs, the same window, the same cursor. -/
structure Fold.Alike (fold fold' : Fold H D) : Prop where
  logs : foldEvents ∅ fold.delivered = foldEvents ∅ fold'.delivered
  window : fold.lastSync.unconfirmedBlocks = fold'.lastSync.unconfirmedBlocks
  latest : fold.lastSync.latestBlock = fold'.lastSync.latestBlock
  reached : fold.lastSync.lastToBlock = fold'.lastSync.lastToBlock

/-- **Folds that have read as far are alike**, whatever the chunks. -/
theorem Fold.Rebuilding.alike (h : Fold.Rebuilding g ks δs fold ws ops) {ws' : List H} {ops' : List (Op H)}
    (h' : Fold.Rebuilding g ks δs fold' ws' ops') (st : Stored g.defaultFromBlock g.finality ks δs)
    (hlatest : fold.lastSync.latestBlock = fold'.lastSync.latestBlock)
    (hto : fold.lastSync.lastToBlock = fold'.lastSync.lastToBlock) : fold.Alike fold' := by
  have hunread : fold.unread g.defaultFromBlock = fold'.unread g.defaultFromBlock := by
    unfold Fold.unread
    rw [hlatest, hto]
  have hheld : ∀ x, x ∈ held ∅ ops ↔ x ∈ held ∅ ops' := fun x => by
    rw [h.through.holds, h'.through.holds, hunread]
  refine ⟨?_, ?_, hlatest, hto⟩
  · rw [(h.delivered st).1, (h'.delivered st).1, hunread]
  · rw [h.through.ok.window, h'.through.ok.window]
    refine (window_eq_iff h.through.ok.nodup h'.through.ok.nodup h.through.sorted h'.through.sorted ?_).2 fun x => ?_
    · intro x hx y hy hn
      exact st.heights ((h'.through.holds x).1 (h'.through.ok.live x hx)).1
        ((h'.through.holds y).1 (h'.through.ok.live y hy)).1 hn
    · rw [h.through.lists, h'.through.lists, hheld, hto]

/-- **Every budget gets through.** Over a stored stream that stands still, each call of `more` reads beyond the last or
confirms that nothing is left, it says `complete` when it has read all that is claimed and only then, and more calls than
there are heights are enough. -/
theorem mores_complete (run : Run g.defaultFromBlock g.finality ks) (hlatest : (cursorAfter (deltas ks)).latestBlock ≠ 0)
    (hdec : ∀ e ∈ emitted (deltas ks), g.decodable e.data = true) {budgets : List ℕ} (hb : ∀ budget ∈ budgets, 1 ≤ budget) :
    ∃ fold reports, g.mores (storedStream (deltas ks)) .fresh budgets = .ok (fold, reports) ∧
      reports.length = budgets.length ∧ reports.IsChain RebuildReport.Further ∧
      (∀ report ∈ reports, ∃ n ≤ (cursorAfter (deltas ks)).lastToBlock, report.toBlock = some n ∧
        (report.complete = true ↔ n = (cursorAfter (deltas ks)).lastToBlock)) ∧
      ((cursorAfter (deltas ks)).lastToBlock ≤ budgets.length → ∀ report ∈ reports.getLast?, report.complete = true) := by
  obtain ⟨δs, -, st, -⟩ := run_stored run
  obtain ⟨fold, reports, ws, ops, hcalls, -, -, progress⟩ :=
    (Fold.rebuilding_fresh (g := g) st).mores st hlatest hdec hb
  refine ⟨fold, reports, hcalls, progress.each, progress.further, progress.within, fun hlength report hlast => ?_⟩
  obtain ⟨n, hn, hto, hdone⟩ := progress.within report (List.mem_of_getLast? hlast)
  rw [progress.ends report hlast] at hto
  have hreaches := progress.reaches
  have hend : fold.lastSync.lastToBlock = n := Option.some.inj hto
  have hfresh : (Fold.fresh : Fold H D).lastSync.lastToBlock = 0 := rfl
  exact hdone.2 (by omega)

theorem mores_complete_farRun : ∃ fold reports,
    smallRebuild.mores (storedStream (deltas farRun)) .fresh [1, 1, 1] = .ok (fold, reports) ∧
      reports.length = 3 ∧ reports.IsChain RebuildReport.Further := by
  obtain ⟨fold, reports, hcalls, hlength, hfurther, -⟩ :=
    mores_complete (g := smallRebuild) run_farRun.2 (by decide) (fun _ _ => rfl)
      (by decide : ∀ budget ∈ [1, 1, 1], 1 ≤ budget)
  exact ⟨fold, reports, hcalls, hlength, hfurther⟩

/-- **A rebuild in chunks is the rebuild in one.** After any calls the fold was delivered the surviving logs of the heights it
has read, each once net of its retractions; and when the last call says `complete`, surviving logs, window and cursor are
those of a single call whose budget takes in every row. -/
theorem mores_whole (run : Run g.defaultFromBlock g.finality ks) (hlatest : (cursorAfter (deltas ks)).latestBlock ≠ 0)
    (hdec : ∀ e ∈ emitted (deltas ks), g.decodable e.data = true) {budgets : List ℕ} (hb : ∀ budget ∈ budgets, 1 ≤ budget)
    {reports : List RebuildReport} (hcalls : g.mores (storedStream (deltas ks)) .fresh budgets = .ok (fold, reports)) :
    (foldEvents ∅ fold.delivered = (foldEvents ∅ (emitted (deltas ks))).filter
        (fun key => C.numberOf key.1 < fold.unread g.defaultFromBlock)) ∧
      (∀ key, netDelivered key fold.delivered = if key ∈ foldEvents ∅ fold.delivered then 1 else 0) ∧
      ∀ (budget : ℕ) (whole : Fold H D) (report : RebuildReport), (emitted (deltas ks)).length < budget →
        g.more (storedStream (deltas ks)) .fresh (some budget) = .ok (whole, report) →
        (∀ last ∈ reports.getLast?, last.complete = true) → budgets ≠ [] → fold.Alike whole := by
  obtain ⟨δs, -, st, -⟩ := run_stored run
  obtain ⟨fold', reports', ws, ops, hcalls', h, hlatest', progress⟩ :=
    (Fold.rebuilding_fresh (g := g) st).mores st hlatest hdec hb
  rw [hcalls] at hcalls'
  cases hcalls'
  obtain ⟨hlogs, hnet⟩ := h.delivered st
  refine ⟨hlogs, hnet, fun budget whole report hbudget hcall hdone hne => ?_⟩
  obtain ⟨whole', report', ws', ops', hcall', hwhole, hwlatest, -, -, -, -, hwto⟩ :=
    (Fold.rebuilding_fresh (g := g) st).more st hlatest hdec (by omega : 1 ≤ budget)
  rw [hcall] at hcall'
  cases hcall'
  refine h.alike hwhole st ((hlatest' hne).trans hwlatest.symm) ?_
  -- both have read all there is
  have hreports : reports ≠ [] := fun hnil => hne (List.length_eq_zero_iff.1 (by rw [← progress.each, hnil]; rfl))
  have hlast := List.getLast?_eq_some_getLast hreports
  obtain ⟨n, -, hto, hcomplete⟩ := progress.within _ (List.getLast_mem hreports)
  rw [progress.ends _ hlast] at hto
  rw [hwto hbudget.le, ← hcomplete.1 (hdone _ hlast)]
  exact Option.some.inj hto

theorem mores_whole_farRun : ∃ fold whole : Fold ℕ Unit, fold.Alike whole ∧
    foldEvents ∅ fold.delivered = {(3, 0), (4, 0), (5, 0)} := by
  obtain ⟨fold, hcalls⟩ : ∃ fold, smallRebuild.mores (storedStream (deltas farRun)) .fresh [1, 1, 1] =
    .ok (fold, [⟨0, some 3, 1, 1, 0, 3, false, .budget⟩, ⟨4, some 4, 1, 1, 0, 3, false, .budget⟩,
      ⟨5, some 20, 1, 1, 0, 3, true, .streamConsumed⟩]) := ⟨_, rfl⟩
  obtain ⟨whole, report, hcall⟩ : ∃ whole report,
    smallRebuild.more (storedStream (deltas farRun)) .fresh (some 9) = .ok (whole, report) := ⟨_, _, rfl⟩
  obtain ⟨-, -, halike⟩ := mores_whole (g := smallRebuild) run_farRun.2 (by decide) (fun _ _ => rfl) (by decide) hcalls
  have hsame := halike 9 whole report (by decide) hcall (by decide) (List.cons_ne_nil _ _)
  refine ⟨fold, whole, hsame, ?_⟩
  rw [hsame.logs]
  cases hcall
  decide

end Etherfold
