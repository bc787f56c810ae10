import Etherfold.Generation.Resume

/-!
# Rebuilding a generation from the stored stream

A fold that is behind reads the stored stream in bounded chunks (`more`); a fold that is
level takes the delta the writer has just appended (`follow`).

* `StoredStream`, `readChunk`: the rows, the claim of how far they reach, and a chunk.
* `GenerationRebuild.more`, `GenerationRebuild.follow`: the two ways a fold moves.
* `Fold.Ok`: what ties a fold's window to what it was delivered.
* `Fold.Ok.news`: **reading rows from where the fold resumes keeps it**.
-/

namespace Etherfold

open Ledger

variable {H D : Type}

/-! ### The stored stream -/

/-- The claim of how far the stored rows reach. -/
structure StreamCoverage where
  startBlock : ℕ
  latestBlock : ℕ
  lastFromBlock : ℕ
  lastToBlock : ℕ
  deriving DecidableEq, Repr

/-- The rows in the order of their numbers, and the claim, absent before the first append. -/
structure StoredStream (H D : Type) where
  coverage : Option StreamCoverage
  rows : List (LogEvent H D)
  deriving DecidableEq, Repr

/-- One append: the rows, and the claim. The first block claimed never changes. -/
def StoredStream.append (s : StoredStream H D) (delta : Appended H D) : StoredStream H D where
  coverage := some
    { startBlock := (s.coverage.map (·.startBlock)).getD delta.newLastSync.lastFromBlock
      latestBlock := delta.newLastSync.latestBlock
      lastFromBlock := delta.newLastSync.lastFromBlock
      lastToBlock := delta.newLastSync.lastToBlock }
  rows := s.rows ++ delta.eventStream

/-- The stream after some appends. -/
def storedStream (ds : List (Appended H D)) : StoredStream H D :=
  ds.foldl StoredStream.append ⟨none, []⟩

/-- A bounded slice of the stored stream. -/
structure ReplayChunk (H D : Type) where
  eventStream : List (LogEvent H D)
  lastFromBlock : ℕ
  lastToBlock : ℕ
  latestBlock : ℕ
  truncated : Bool
  highWater : ℕ
  deriving DecidableEq, Repr

/-- A slice, or why there is none. -/
inductive ReplayRead (H D : Type) where
  | chunk (chunk : ReplayChunk H D)
  | absent
  | doesNotReachBack (startBlock : ℕ)
  deriving DecidableEq, Repr

/-- **One chunk**: cut between two blocks by the budget, but always beyond what the fold has
folded already. -/
def readChunk (s : StoredStream H D) (fromBlock foldedThrough maxEmissions : ℕ) : ReplayRead H D :=
  match s.coverage with
  | none => .absent
  | some coverage =>
    if fromBlock < coverage.startBlock then .doesNotReachBack coverage.startBlock
    else
      let probe := (((s.rows.map (·.blockNumber)).filter (fromBlock ≤ ·)).insertionSort (· ≤ ·)).take
        (maxEmissions + 1)
      let floor := max (foldedThrough + 1) fromBlock
      let budgetCut :=
        if maxEmissions < probe.length then probe.getD maxEmissions 0 - 1 else coverage.lastToBlock
      let lastToBlock := min coverage.lastToBlock (max budgetCut floor)
      .chunk
        { eventStream := s.rows.filter fun e => fromBlock ≤ e.blockNumber && e.blockNumber ≤ lastToBlock
          lastFromBlock := fromBlock
          lastToBlock
          latestBlock := coverage.latestBlock
          truncated := lastToBlock < coverage.lastToBlock
          highWater := s.rows.length }

/-! ### A fold and its two ways forward -/

/-- A fold: its checkpoint, and everything its processor was handed. -/
structure Fold (H D : Type) where
  lastSync : LastSync H D
  delivered : List (LogEvent H D)
  deriving DecidableEq, Repr

/-- A fold that was handed nothing. -/
def Fold.fresh : Fold H D := ⟨.fresh, []⟩

/-- One call of the processor: the entries and the cursor, together. -/
def Fold.process (s : Fold H D) (batch : DeliveryBatch H D) : Fold H D :=
  ⟨batch.lastSync, s.delivered ++ batch.events⟩

/-- Why a call of `more` stopped. -/
inductive RebuildStop where
  | streamConsumed
  | budget
  | nothingStored
  | doesNotReachBack (startBlock : ℕ)
  | undecodable
  deriving DecidableEq, Repr

/-- What a call of `more` did. -/
structure RebuildReport where
  fromBlock : ℕ
  toBlock : Option ℕ
  scanned : ℕ
  replayed : ℕ
  retracted : ℕ
  highWater : ℕ
  complete : Bool
  stopped : RebuildStop
  deriving DecidableEq, Repr

/-- What a call of `follow` did. -/
structure FollowReport where
  applied : Bool
  replayed : ℕ
  deriving DecidableEq, Repr

/-- What `more` throws. -/
inductive RebuildError where
  | invalidBudget (maxEmissions : ℕ)
  | unexpectedFromBlock (error : UnexpectedFromBlockError)
  deriving DecidableEq, Repr

/-- The rebuild of one generation. `decodable` tells the rows that carry their raw log; the
budget is checked on construction, and a batch size below one is out of range. -/
structure GenerationRebuild (D : Type) where
  defaultFromBlock : ℕ
  finality : ℕ
  maxEmissions : ℕ
  feedBatchSize : ℕ
  decodable : D → Bool
  maxEmissions_pos : 1 ≤ maxEmissions
  feedBatchSize_pos : 1 ≤ feedBatchSize

/-- The rows, decoded again, if all of them can be. -/
def GenerationRebuild.reparse (g : GenerationRebuild D) (rows : List (LogEvent H D)) :
    Option (List (LogEvent H D)) :=
  if rows.all fun e => g.decodable e.data then some rows else none

variable [DecidableEq H]

/-- The batches of a replay, handed to the processor one by one. A replay with nothing to
deliver still moves the cursor. -/
def GenerationRebuild.deliver (g : GenerationRebuild D) (fold : Fold H D) (r : Replayed H D) : Fold H D :=
  let batches := batchStreamForDelivery r.eventStream r.newLastSync g.feedBatchSize
  if batches.isEmpty then fold.process ⟨[], r.newLastSync⟩ else batches.foldl Fold.process fold

/-- **One chunk of the stored stream**, folded. -/
def GenerationRebuild.more (g : GenerationRebuild D) (stream : StoredStream H D) (fold : Fold H D)
    (maxEmissions : Option ℕ) : Except RebuildError (Fold H D × RebuildReport) :=
  let budget := maxEmissions.getD g.maxEmissions
  if budget < 1 then .error (.invalidBudget budget)
  else
    let lastSync := fold.lastSync
    let fromBlock := getFromBlock lastSync g.defaultFromBlock g.finality
    match readChunk stream fromBlock lastSync.lastToBlock budget with
    | .absent => .ok (fold, ⟨fromBlock, none, 0, 0, 0, 0, false, .nothingStored⟩)
    | .doesNotReachBack startBlock =>
      .ok (fold, ⟨fromBlock, none, 0, 0, 0, 0, false, .doesNotReachBack startBlock⟩)
    | .chunk chunk =>
      let scanned := chunk.eventStream.length
      let stopped := if chunk.truncated then .budget else .streamConsumed
      match g.reparse chunk.eventStream with
      | none => .ok (fold, ⟨fromBlock, none, scanned, 0, 0, chunk.highWater, false, .undecodable⟩)
      | some replayable =>
        -- the stream has not moved since this fold consumed it
        if chunk.lastToBlock = lastSync.lastToBlock ∧ chunk.latestBlock = lastSync.latestBlock then
          .ok (fold, ⟨fromBlock, some chunk.lastToBlock, scanned, 0, 0, chunk.highWater,
            !chunk.truncated, stopped⟩)
        else
          match generateStreamFromReplay lastSync g.defaultFromBlock replayable
            ⟨chunk.latestBlock, chunk.lastFromBlock, chunk.lastToBlock, g.finality⟩ with
          | .error error => .error (.unexpectedFromBlock error)
          | .ok r =>
            .ok (g.deliver fold r, ⟨fromBlock, some chunk.lastToBlock, scanned, r.eventStream.length,
              (r.eventStream.filter (·.removed)).length, chunk.highWater, !chunk.truncated, stopped⟩)

/-- **The delta just appended**, folded if it begins where the fold resumes. -/
def GenerationRebuild.follow (g : GenerationRebuild D) (fold : Fold H D) (delta : Appended H D) :
    Fold H D × FollowReport :=
  let lastSync := fold.lastSync
  if getFromBlock lastSync g.defaultFromBlock g.finality ≠ delta.newLastSync.lastFromBlock then
    (fold, ⟨false, 0⟩)
  else
    let replayable := (g.reparse delta.eventStream).getD delta.eventStream
    match generateStreamFromReplay lastSync g.defaultFromBlock replayable
      ⟨delta.newLastSync.latestBlock, delta.newLastSync.lastFromBlock, delta.newLastSync.lastToBlock,
        g.finality⟩ with
    | .error _ => (fold, ⟨false, 0⟩)
    | .ok r => (g.deliver fold r, ⟨true, r.eventStream.length⟩)

/-! ### What a call does -/

variable {g : GenerationRebuild D} {fold fold' : Fold H D} {s : StoredStream H D}

omit [DecidableEq H] in
theorem reparse_eq_some {rows rows' : List (LogEvent H D)} (h : g.reparse rows = some rows') :
    rows' = rows := by
  unfold GenerationRebuild.reparse at h
  split at h
  · exact (Option.some.inj h).symm
  · cases h

omit [DecidableEq H] in
theorem reparse_getD (rows : List (LogEvent H D)) : (g.reparse rows).getD rows = rows := by
  cases h : g.reparse rows with
  | none => rfl
  | some rows' => exact reparse_eq_some h

/-- A call of `more` leaves the fold or replays a range of rows from where it resumes. -/
theorem more_cases {budget : Option ℕ} {report : RebuildReport}
    (h : g.more s fold budget = .ok (fold', report)) :
    fold' = fold ∨ ∃ coverage n r, s.coverage = some coverage ∧ n ≤ coverage.lastToBlock ∧
      min coverage.lastToBlock (getFromBlock fold.lastSync g.defaultFromBlock g.finality) ≤ n ∧
      generateStreamFromReplay fold.lastSync g.defaultFromBlock
        (s.rows.filter fun e => getFromBlock fold.lastSync g.defaultFromBlock g.finality ≤ e.blockNumber &&
          e.blockNumber ≤ n)
        ⟨coverage.latestBlock, getFromBlock fold.lastSync g.defaultFromBlock g.finality, n, g.finality⟩ =
          .ok r ∧
      fold' = g.deliver fold r := by
  unfold GenerationRebuild.more at h
  dsimp only at h
  split at h
  · cases h
  split at h
  · left; cases h; rfl
  · left; cases h; rfl
  rename_i chunk hread
  split at h
  · left; cases h; rfl
  rename_i rows hrows
  split at h
  · left; cases h; rfl
  split at h
  · cases h
  rename_i r hr
  right
  cases hcov : s.coverage with
  | none =>
    unfold readChunk at hread
    simp only [hcov] at hread
    cases hread
  | some coverage =>
    unfold readChunk at hread
    simp only [hcov] at hread
    split at hread
    · cases hread
    · simp only [ReplayRead.chunk.injEq] at hread
      obtain rfl := reparse_eq_some hrows
      subst hread
      cases h
      exact ⟨coverage, _, r, rfl, min_le_left _ _,
        min_le_min le_rfl ((le_max_right _ _).trans (le_max_right _ _)), hr, rfl⟩

/-- A call of `follow` that applied has replayed the delta. -/
theorem follow_applied {delta : Appended H D} (h : (g.follow fold delta).2.applied = true) :
    getFromBlock fold.lastSync g.defaultFromBlock g.finality = delta.newLastSync.lastFromBlock ∧
      ∃ r, generateStreamFromReplay fold.lastSync g.defaultFromBlock delta.eventStream
          ⟨delta.newLastSync.latestBlock, delta.newLastSync.lastFromBlock, delta.newLastSync.lastToBlock,
            g.finality⟩ = .ok r ∧
        (g.follow fold delta).1 = g.deliver fold r := by
  unfold GenerationRebuild.follow at h ⊢
  dsimp only at h ⊢
  rw [reparse_getD] at h ⊢
  split at h
  · cases h
  rename_i hfrom
  rw [if_neg hfrom]
  refine ⟨not_not.1 hfrom, ?_⟩
  split at h
  · cases h
  rename_i r hr
  exact ⟨r, hr, rfl⟩

/-- A call of `follow` that did not apply leaves the fold. -/
theorem follow_declined {delta : Appended H D} (h : (g.follow fold delta).2.applied = false) :
    (g.follow fold delta).1 = fold := by
  unfold GenerationRebuild.follow at h ⊢
  dsimp only at h ⊢
  split
  · rfl
  rename_i hfrom
  rw [if_neg hfrom] at h
  split
  · rfl
  · rename_i r hr
    rw [hr] at h
    cases h

omit [DecidableEq H] in
theorem foldl_process (batches : List (DeliveryBatch H D)) (fold : Fold H D) :
    (batches.foldl Fold.process fold).delivered = fold.delivered ++ delivered batches ∧
      (batches.foldl Fold.process fold).lastSync =
        (batches.getLast?.map (·.lastSync)).getD fold.lastSync := by
  induction batches using List.reverseRecOn with
  | nil => exact ⟨by simp [delivered], rfl⟩
  | append_singleton batches b ih =>
    rw [List.foldl_append, List.foldl_cons, List.foldl_nil]
    refine ⟨?_, by simp [Fold.process]⟩
    rw [Fold.process, ih.1]
    simp [delivered]

omit [DecidableEq H] in
theorem getLast_batchesOf {c : LastSync H D} {cs : List (Cut H D)} (hne : cs ≠ []) :
    (batchesOf c cs).getLast?.map (·.lastSync) = some c := by
  fun_induction batchesOf c cs with
  | case1 => exact absurd rfl hne
  | case2 k => rfl
  | case3 k k' ks ih =>
    rw [List.getLast?_cons_of_ne_nil]
    · exact ih (by simp)
    · intro h
      have := congrArg List.length h
      simp at this

variable {C : Chain H D}

/-- **A replay delivered in batches is delivered whole**, and its cursor stays. -/
theorem deliver_eq {ops : List (Op H)} (hb : ∀ o ∈ ops, C.Bearing o.key) (hch : ops.IsChain (· ≠ ·))
    {r : Replayed H D} (hr : r.eventStream = ops.flatMap C.emit) :
    g.deliver fold r = ⟨r.newLastSync, fold.delivered ++ ops.flatMap C.emit⟩ := by
  unfold GenerationRebuild.deliver
  dsimp only
  have hall := delivered_emit hb hch g.feedBatchSize_pos r.newLastSync
  obtain ⟨cs, hbs, -⟩ := cuts_emit hb hch g.feedBatchSize_pos r.newLastSync
  rw [hr]
  split
  · rename_i hempty
    rw [List.isEmpty_iff] at hempty
    rw [hempty] at hall
    rw [← hall]
    rfl
  · rename_i hne
    obtain ⟨h1, h2⟩ := foldl_process
      (batchStreamForDelivery (ops.flatMap C.emit) r.newLastSync g.feedBatchSize) fold
    have hcs : cs ≠ [] := by
      rintro rfl
      rw [hbs] at hne
      exact hne rfl
    have hlast : (batchStreamForDelivery (ops.flatMap C.emit) r.newLastSync g.feedBatchSize).getLast?.map
        (·.lastSync) = some r.newLastSync := by
      rw [hbs]
      exact getLast_batchesOf hcs
    rw [hlast, Option.getD_some] at h2
    rw [hall] at h1
    calc _ = (⟨_, _⟩ : Fold H D) := rfl
      _ = _ := by rw [h1, h2]

/-! ### What a fold's window knows -/

/-- **What ties a fold's window to what it was delivered**: the window lists blocks the fold
holds, and all of them from the resume point on. -/
structure Fold.Ok (C : Chain H D) (d f : ℕ) (fold : Fold H D) (ws : List H) (ops : List (Op H)) : Prop where
  delivered : fold.delivered = ops.flatMap C.emit
  bearing : ∀ o ∈ ops, C.Bearing o.key
  window : fold.lastSync.unconfirmedBlocks = ws.map C.block
  nodup : ws.Nodup
  live : ∀ x ∈ ws, x ∈ held ∅ ops
  covered : ∀ x ∈ held ∅ ops, getFromBlock fold.lastSync d f ≤ C.numberOf x → x ∈ ws

variable {d f : ℕ} {ws : List H} {ops : List (Op H)}

theorem Fold.Ok.fresh : Fold.Ok C d f (Fold.fresh : Fold H D) [] [] where
  delivered := rfl
  bearing := by simp
  window := rfl
  nodup := List.nodup_nil
  live := by simp
  covered := by simp

/-- What a fold holds after reading rows from where it resumes: of what they name, what its
window makes of them; of the rest, what it held. -/
theorem held_take {rows : List (Op H)} {skip : H → Bool} {a : ℕ} (hlive : ∀ x ∈ ws, x ∈ held ∅ ops)
    (hcov : ∀ x ∈ held ∅ ops, a ≤ C.numberOf x → x ∈ ws) (hrows : ∀ o ∈ rows, a ≤ C.numberOf o.key) (x : H) :
    x ∈ held ∅ (ops ++ settle skip ws.toFinset rows) ↔
      if x ∈ rows.map Op.key then x ∈ held ws.toFinset rows else x ∈ held ∅ ops := by
  rw [held_append]
  have hsub : (settle skip ws.toFinset rows).Sublist rows := settle_sublist
  split
  · rename_i hkey
    have hsame : held ws.toFinset (settle skip ws.toFinset rows) = held ws.toFinset rows := held_settle
    rw [← hsame]
    by_cases hnews : x ∈ (settle skip ws.toFinset rows).map Op.key
    · exact mem_held_of_key hnews
    · -- nothing is passed on of the block, and the fold and its window agree on it
      rw [mem_held_of_not_key hnews, mem_held_of_not_key hnews, List.mem_toFinset]
      obtain ⟨o, ho, rfl⟩ := List.mem_map.1 hkey
      exact ⟨fun h => hcov _ h (hrows o ho), hlive _⟩
  · rename_i hkey
    exact mem_held_of_not_key fun h => hkey ((hsub.map Op.key).subset h)

/-- **What reading rows from where the fold resumes delivers**, and what the window knows after it. -/
theorem Fold.Ok.news (ok : Fold.Ok C g.defaultFromBlock g.finality fold ws ops) {rows : List (Op H)}
    {latest n : ℕ} {r : Replayed H D} (hrows : ∀ o ∈ rows, C.Bearing o.key ∧
      getFromBlock fold.lastSync g.defaultFromBlock g.finality ≤ C.numberOf o.key)
    (hch : rows.IsChain (· ≠ ·)) (hn : n ≤ latest) {a : ℕ}
    (hfrom : getFromBlock fold.lastSync g.defaultFromBlock g.finality ≤
      getFromBlock ⟨a, latest, n, ([] : List (EventBlock H D))⟩ g.defaultFromBlock g.finality)
    (h : generateStreamFromReplay fold.lastSync g.defaultFromBlock (rows.flatMap C.emit)
      ⟨latest, a, n, g.finality⟩ = .ok r) :
    ∃ ws', Fold.Ok C g.defaultFromBlock g.finality (g.deliver fold r) ws'
        (ops ++ settle (C.settledAt fold.lastSync.lastToBlock) ws.toFinset rows) ∧
      (g.deliver fold r).lastSync = ⟨a, latest, n, ws'.map C.block⟩ ∧
      (ws'.Pairwise fun x y => C.numberOf x ≤ C.numberOf y) ∧
      (∀ x, x ∈ ws' ↔ x ∈ held ws.toFinset rows ∧ n - C.numberOf x ≤ g.finality) ∧
      ∀ x, x ∈ held ∅ (ops ++ settle (C.settledAt fold.lastSync.lastToBlock) ws.toFinset rows) ↔
        if x ∈ rows.map Op.key then x ∈ held ws.toFinset rows else x ∈ held ∅ ops := by
  obtain ⟨-, hstream, ws', hsync, hnodup, hsorted, hmem⟩ := replay_emit ok.window ok.nodup
    (fun o ho => (hrows o ho).1) hch h
  set news := settle (C.settledAt fold.lastSync.lastToBlock) ws.toFinset rows with hnews
  have hbear : ∀ o ∈ news, C.Bearing o.key := fun o ho => (hrows o (settle_sublist.subset ho)).1
  have hdel : g.deliver fold r = ⟨r.newLastSync, fold.delivered ++ news.flatMap C.emit⟩ :=
    deliver_eq hbear (legal_settle (S := ws.toFinset)).chain hstream
  have hheld : ∀ x, x ∈ held ∅ (ops ++ news) ↔
      if x ∈ rows.map Op.key then x ∈ held ws.toFinset rows else x ∈ held ∅ ops :=
    held_take ok.live ok.covered fun o ho => (hrows o ho).2
  have hsync' : (g.deliver fold r).lastSync = ⟨a, latest, n, ws'.map C.block⟩ := by rw [hdel, hsync]
  have hresume : getFromBlock (g.deliver fold r).lastSync g.defaultFromBlock g.finality =
      getFromBlock ⟨a, latest, n, ([] : List (EventBlock H D))⟩ g.defaultFromBlock g.finality := by
    rw [hsync']
    rfl
  refine ⟨ws', ?_, hsync', hsorted, hmem, hheld⟩
  exact
    { delivered := by rw [hdel, ok.delivered, List.flatMap_append]
      bearing := fun o ho => (List.mem_append.1 ho).elim (ok.bearing o) (hbear o)
      window := by rw [hsync']
      nodup := hnodup
      live := by
        intro x hx
        rw [hheld]
        have hx := ((hmem x).1 hx).1
        split
        · exact hx
        · rename_i hkey
          rw [mem_held_of_not_key hkey, List.mem_toFinset] at hx
          exact ok.live x hx
      covered := by
        intro x hx hge
        rw [hresume] at hge
        rw [hheld] at hx
        rw [hmem]
        constructor
        · split at hx
          · exact hx
          · rename_i hkey
            rw [mem_held_of_not_key hkey, List.mem_toFinset]
            exact ok.covered x hx (hfrom.trans hge)
        · show n - C.numberOf x ≤ g.finality
          unfold getFromBlock at hge
          simp only at hge
          split at hge <;> omega }

end Etherfold
