import Mathlib.Data.Prod.Lex
import Etherfold.Ledger.Pairs
import Etherfold.Chain.Run
import Etherfold.Server.Emissions

/-!
# Pair compaction

The one thing that deletes from the emission table: an entry that was taken back goes together
with its retraction, once both are below the configured depth. One call reads a bounded number of
dead rows, the two rows of a pair next to each other, and names every row it deletes by number.

* `resolvePairCompaction`, `budgetOf`: the configuration, and what is refused.
* `pairsIn`: the rows of one log, paired in the order they were numbered.
* `compactEmissionPairs`: **one call**.
* `pairsIn_eq`: the walk, as the pairs of each run of rows, up to the budget.
* `compact_matched`: **on any table a call takes dead rows only, below the floor, and as many
  entries of a log as retractions of it**.
-/

namespace Etherfold

open Ledger

variable {H D : Type}

/-- What a deployment asks for. Another unit, and a depth that is not a whole number of blocks,
are refused before they become a setting. -/
inductive PairCompactionSetting where
  | off
  | blocks (blocks : ℕ)
  deriving DecidableEq, Repr

/-- What a setting resolves to. -/
inductive PairCompaction where
  | off
  | window (blocks : ℕ)
  deriving DecidableEq, Repr

/-- Why a call is refused, with the numbers its message names. -/
inductive CompactionError where
  | belowFinality (blocks finality : ℕ)
  | invalidBudget (maxPairs : ℕ)
  deriving DecidableEq, Repr

/-- Read a setting next to the finality depth it must not go under. -/
def resolvePairCompaction (setting : Option PairCompactionSetting) (finality : ℕ) :
    Except CompactionError PairCompaction :=
  match setting with
  | none => .ok .off
  | some .off => .ok .off
  | some (.blocks blocks) =>
    if blocks < finality then .error (.belowFinality blocks finality) else .ok (.window blocks)

/-- How many pairs one call may drop when the caller names no budget. -/
def defaultMaxPairs : ℕ := 490

/-- The budget of a call. Zero is refused. -/
def budgetOf : Option ℕ → Except CompactionError ℕ
  | none => .ok defaultMaxPairs
  | some maxPairs => if maxPairs < 1 then .error (.invalidBudget maxPairs) else .ok maxPairs

/-- What one call is asked to do. -/
structure PairCompactionQuery where
  compaction : Option PairCompactionSetting
  finality : ℕ
  latestBlock : ℕ
  maxPairs : Option ℕ
  deriving DecidableEq, Repr

/-- What one call did. -/
structure PairCompactionReport where
  floor : Option ℕ
  pairsCompacted : ℕ
  rowsDeleted : ℕ
  scanned : ℕ
  complete : Bool
  deriving DecidableEq, Repr

/-- The log a row is of, with its height. -/
def EmissionRow.logKey (r : EmissionRow H D) : ℕ ×ₗ ℕ ×ₗ H :=
  toLex (r.blockNumber, toLex (r.logIndex, r.blockHash))

/-- The order of the scan. -/
def EmissionRow.scanKey (r : EmissionRow H D) : (ℕ ×ₗ ℕ ×ₗ H) ×ₗ ℕ := toLex (r.logKey, r.seq)

/-- A dead row below the floor. -/
def EmissionRow.reclaimable (floor : ℕ) (r : EmissionRow H D) : Bool :=
  !r.alive && decide (r.blockNumber < floor)

/-- Every dead row below the floor, in the order of the scan. -/
def reclaimableRows [LinearOrder H] (rows : List (EmissionRow H D)) (floor : ℕ) : List (EmissionRow H D) :=
  (rows.filter (·.reclaimable floor)).insertionSort fun r r' => r.scanKey ≤ r'.scanKey

/-! ### The walk -/

/-- Where the walk over the candidates is: the pairs so far, and the log being collected. -/
structure PairWalk (H : Type) where
  pairs : List (ℕ × ℕ)
  group : Option (ℕ ×ₗ ℕ ×ₗ H)
  dead : List ℕ
  retractions : List ℕ

/-- The log is read: its k-th dead entry goes with its k-th retraction, up to the budget. -/
def PairWalk.close (maxPairs : ℕ) (w : PairWalk H) : PairWalk H :=
  { w with
    pairs := w.pairs ++ (w.dead.zip w.retractions).take (maxPairs - w.pairs.length)
    dead := []
    retractions := [] }

/-- One more candidate. -/
def PairWalk.read [DecidableEq H] (maxPairs : ℕ) (w : PairWalk H) (row : EmissionRow H D) : PairWalk H :=
  let w := if w.group = some row.logKey then w else { w.close maxPairs with group := some row.logKey }
  if row.removed then { w with retractions := w.retractions ++ [row.seq] }
  else { w with dead := w.dead ++ [row.seq] }

/-- **The pairs among the candidates**: the number of an entry, and of its retraction. -/
def pairsIn [DecidableEq H] (rows : List (EmissionRow H D)) (maxPairs : ℕ) : List (ℕ × ℕ) :=
  ((rows.foldl (PairWalk.read maxPairs) ⟨[], none, [], []⟩).close maxPairs).pairs

/-- The numbers a set of pairs names. -/
def seqsOf (pairs : List (ℕ × ℕ)) : List ℕ := pairs.flatMap fun pair => [pair.1, pair.2]

/-- How many pairs one statement names. -/
def pairsPerStatement : ℕ := 49

/-- The numbers each statement names, chunk by chunk. -/
def statementsOf : ℕ → List (ℕ × ℕ) → List (List ℕ)
  | 0, _ => []
  | passes + 1, pairs =>
    if pairs = [] then [] else seqsOf (pairs.take pairsPerStatement) :: statementsOf passes (pairs.drop pairsPerStatement)

/-- The deletions, as the numbers each statement names. -/
def deletionsOf (pairs : List (ℕ × ℕ)) : List (List ℕ) := statementsOf pairs.length pairs

/-- The table after a batch of deletions. -/
def runDeletions (rows : List (EmissionRow H D)) (statements : List (List ℕ)) : List (EmissionRow H D) :=
  statements.foldl (fun rows seqs => rows.filter fun r => r.seq ∉ seqs) rows

/-- **One call**: the rows it leaves, and what it reports. -/
def compactEmissionPairs [LinearOrder H] (rows : List (EmissionRow H D)) (query : PairCompactionQuery) :
    Except CompactionError (List (EmissionRow H D) × PairCompactionReport) := do
  match ← resolvePairCompaction query.compaction query.finality with
  | .off => return (rows, ⟨none, 0, 0, 0, true⟩)
  | .window blocks =>
    let maxPairs ← budgetOf query.maxPairs
    -- a chain younger than its own depth has nothing far enough behind
    let floor := query.latestBlock - blocks
    let scanLimit := maxPairs * 2
    let candidates := (reclaimableRows rows floor).take scanLimit
    let pairs := pairsIn candidates maxPairs
    return (runDeletions rows (deletionsOf pairs),
      ⟨some floor, pairs.length, pairs.length * 2, candidates.length, decide (candidates.length < scanLimit)⟩)

/-! ### The batch -/

theorem seqsOf_append (ps ps' : List (ℕ × ℕ)) : seqsOf (ps ++ ps') = seqsOf ps ++ seqsOf ps' := by
  unfold seqsOf
  rw [List.flatMap_append]

theorem length_seqsOf (ps : List (ℕ × ℕ)) : (seqsOf ps).length = 2 * ps.length := by
  induction ps with
  | nil => rfl
  | cons p ps ih =>
    unfold seqsOf at ih ⊢
    rw [List.flatMap_cons, List.length_append, ih, List.length_cons]
    simp only [List.length_cons, List.length_nil]
    omega

/-- **The batch deletes what the pairs name**, however they are cut into statements. -/
theorem runDeletions_eq (rows : List (EmissionRow H D)) (pairs : List (ℕ × ℕ)) :
    runDeletions rows (deletionsOf pairs) = rows.filter fun r => r.seq ∉ seqsOf pairs := by
  have key : ∀ (passes : ℕ) (pairs : List (ℕ × ℕ)) (rows : List (EmissionRow H D)), pairs.length ≤ passes →
      runDeletions rows (statementsOf passes pairs) = rows.filter fun r => r.seq ∉ seqsOf pairs := by
    intro passes
    induction passes with
    | zero =>
      intro pairs rows hlen
      rw [List.length_eq_zero_iff.1 (Nat.le_zero.1 hlen)]
      simp [statementsOf, runDeletions, seqsOf]
    | succ passes ih =>
      intro pairs rows hlen
      unfold statementsOf
      split
      · rename_i hnil
        simp [runDeletions, seqsOf, hnil]
      · rename_i hne
        have hpos := List.length_pos_iff.2 hne
        have hrest := ih (pairs.drop pairsPerStatement) (rows.filter fun r => r.seq ∉ seqsOf (pairs.take pairsPerStatement)) (by
          rw [List.length_drop]
          unfold pairsPerStatement
          omega)
        unfold runDeletions at hrest ⊢
        rw [List.foldl_cons, hrest, List.filter_filter]
        refine List.filter_congr fun r _ => ?_
        conv_rhs => rw [← List.take_append_drop pairsPerStatement pairs, seqsOf_append]
        simp only [List.mem_append, not_or, Bool.decide_and, Bool.and_comm]
  exact key pairs.length pairs rows le_rfl

/-! ### What a call does -/

/-- The candidates of a call. -/
def candidatesOf [LinearOrder H] (rows : List (EmissionRow H D)) (floor maxPairs : ℕ) : List (EmissionRow H D) :=
  (reclaimableRows rows floor).take (maxPairs * 2)

/-- **What a call that is not refused does**: nothing, or what its window and its budget say. -/
theorem compact_cases [LinearOrder H] {rows rows' : List (EmissionRow H D)} {query : PairCompactionQuery}
    {report : PairCompactionReport} (h : compactEmissionPairs rows query = .ok (rows', report)) :
    (rows' = rows ∧ report = ⟨none, 0, 0, 0, true⟩) ∨
    ∃ blocks maxPairs floor, query.compaction = some (.blocks blocks) ∧ query.finality ≤ blocks ∧
      budgetOf query.maxPairs = .ok maxPairs ∧ 0 < maxPairs ∧ floor = query.latestBlock - blocks ∧
      rows' = rows.filter (fun r => r.seq ∉ seqsOf (pairsIn (candidatesOf rows floor maxPairs) maxPairs)) ∧
      report.floor = some floor ∧
      report.pairsCompacted = (pairsIn (candidatesOf rows floor maxPairs) maxPairs).length ∧
      report.rowsDeleted = report.pairsCompacted * 2 ∧
      report.scanned = (candidatesOf rows floor maxPairs).length ∧
      report.complete = decide (report.scanned < maxPairs * 2) := by
  unfold compactEmissionPairs at h
  obtain ⟨compaction, finality, latestBlock, budget⟩ := query
  match compaction with
  | none =>
    cases h
    exact .inl ⟨rfl, rfl⟩
  | some .off =>
    cases h
    exact .inl ⟨rfl, rfl⟩
  | some (.blocks blocks) =>
    by_cases hlt : blocks < finality
    · simp [resolvePairCompaction, hlt] at h
      cases h
    · cases hbudget : budgetOf budget with
      | error e =>
        simp only [resolvePairCompaction, hlt, hbudget] at h
        cases h
      | ok maxPairs =>
        simp only [resolvePairCompaction, hlt, hbudget] at h
        cases h
        have hpos : 0 < maxPairs := by
          unfold budgetOf at hbudget
          split at hbudget
          · cases hbudget
            decide
          · split at hbudget
            · cases hbudget
            · cases hbudget
              omega
        exact .inr ⟨blocks, maxPairs, latestBlock - blocks, rfl, not_lt.1 hlt, rfl, hpos, rfl,
          runDeletions_eq _ _, rfl, rfl, rfl, rfl, rfl⟩

/-! ### The walk on any table -/

/-- What the walk has found is among the rows it has read: every pair an entry and a retraction of
one log, no number twice. -/
structure PairWalk.Sound (rows : List (EmissionRow H D)) (w : PairWalk H) : Prop where
  nodup : (seqsOf w.pairs ++ w.dead ++ w.retractions).Nodup
  pairs : ∀ p ∈ w.pairs, ∃ d ∈ rows, ∃ t ∈ rows, p = (d.seq, t.seq) ∧ d.removed = false ∧ t.removed = true ∧
    d.logKey = t.logKey
  dead : ∀ s ∈ w.dead, ∃ d ∈ rows, d.seq = s ∧ d.removed = false ∧ w.group = some d.logKey
  retractions : ∀ s ∈ w.retractions, ∃ t ∈ rows, t.seq = s ∧ t.removed = true ∧ w.group = some t.logKey

theorem seqsOf_perm (ps : List (ℕ × ℕ)) : (seqsOf ps).Perm (ps.map Prod.fst ++ ps.map Prod.snd) := by
  induction ps with
  | nil => exact .nil
  | cons p ps ih =>
    obtain ⟨a, b⟩ := p
    show (a :: b :: seqsOf ps).Perm (a :: (ps.map Prod.fst ++ b :: ps.map Prod.snd))
    exact ((ih.cons b).trans List.perm_middle.symm).cons a

/-- Every number the walk holds is that of a row it has read. -/
theorem PairWalk.Sound.mem {rows : List (EmissionRow H D)} {w : PairWalk H} (h : w.Sound rows) {s : ℕ}
    (hs : s ∈ seqsOf w.pairs ++ w.dead ++ w.retractions) : ∃ r ∈ rows, r.seq = s := by
  rw [List.mem_append, List.mem_append] at hs
  obtain (hs | hs) | hs := hs
  · obtain ⟨p, hp, hs⟩ := List.mem_flatMap.1 hs
    obtain ⟨d, hd, t, ht, rfl, -⟩ := h.pairs p hp
    simp only [List.mem_cons, List.not_mem_nil, or_false] at hs
    obtain rfl | rfl := hs
    · exact ⟨d, hd, rfl⟩
    · exact ⟨t, ht, rfl⟩
  · obtain ⟨d, hd, hseq, -⟩ := h.dead s hs
    exact ⟨d, hd, hseq⟩
  · obtain ⟨t, ht, hseq, -⟩ := h.retractions s hs
    exact ⟨t, ht, hseq⟩

/-- The two sides of a zip are parts of what was zipped. -/
theorem zip_sublist (l l' : List ℕ) : ((l.zip l').map Prod.fst).Sublist l ∧ ((l.zip l').map Prod.snd).Sublist l' := by
  induction l generalizing l' with
  | nil => exact ⟨List.Sublist.refl _, by simp⟩
  | cons a l ih =>
    cases l' with
    | nil => exact ⟨by simp, List.Sublist.refl _⟩
    | cons b l' => exact ⟨(ih l').1.cons_cons a, (ih l').2.cons_cons b⟩

/-- Closing a log keeps what was found. -/
theorem PairWalk.Sound.close {rows : List (EmissionRow H D)} {w : PairWalk H} (h : w.Sound rows) (maxPairs : ℕ) :
    (w.close maxPairs).Sound rows := by
  unfold PairWalk.close
  set more := (w.dead.zip w.retractions).take (maxPairs - w.pairs.length) with hmore
  have hsub : (more.map Prod.fst ++ more.map Prod.snd).Sublist (w.dead ++ w.retractions) := by
    refine List.Sublist.append ?_ ?_
    · rw [hmore, List.map_take]
      exact (List.take_sublist _ _).trans (zip_sublist _ _).1
    · rw [hmore, List.map_take]
      exact (List.take_sublist _ _).trans (zip_sublist _ _).2
  refine ⟨?_, fun p hp => ?_, by simp, by simp⟩
  · have hperm : (seqsOf (w.pairs ++ more)).Perm (seqsOf w.pairs ++ (more.map Prod.fst ++ more.map Prod.snd)) := by
      rw [seqsOf_append]
      exact (seqsOf_perm more).append_left _
    simp only [List.append_nil]
    refine hperm.nodup_iff.2 (h.nodup.sublist ?_)
    rw [List.append_assoc]
    exact hsub.append_left _
  · obtain hp | hp := List.mem_append.1 hp
    · exact h.pairs p hp
    · obtain ⟨s, s'⟩ := p
      obtain ⟨hs, hs'⟩ := List.of_mem_zip (List.mem_of_mem_take hp)
      obtain ⟨d, hd, rfl, hrem, hgroup⟩ := h.dead s hs
      obtain ⟨t, ht, rfl, hrem', hgroup'⟩ := h.retractions s' hs'
      exact ⟨d, hd, t, ht, rfl, hrem, hrem', Option.some.inj (hgroup.symm.trans hgroup')⟩

/-- More rows keep what was found. -/
theorem PairWalk.Sound.mono {rows rows' : List (EmissionRow H D)} {w : PairWalk H} (h : w.Sound rows)
    (hsub : ∀ r ∈ rows, r ∈ rows') : w.Sound rows' := by
  refine ⟨h.nodup, fun p hp => ?_, fun s hs => ?_, fun s hs => ?_⟩
  · obtain ⟨d, hd, t, ht, hp⟩ := h.pairs p hp
    exact ⟨d, hsub d hd, t, hsub t ht, hp⟩
  · obtain ⟨d, hd, hs⟩ := h.dead s hs
    exact ⟨d, hsub d hd, hs⟩
  · obtain ⟨t, ht, hs⟩ := h.retractions s hs
    exact ⟨t, hsub t ht, hs⟩

/-- One more row with a number of its own. -/
theorem PairWalk.Sound.read [DecidableEq H] {rows : List (EmissionRow H D)} {w : PairWalk H} {row : EmissionRow H D}
    (h : w.Sound rows) (maxPairs : ℕ) (hnew : ∀ r ∈ rows, r.seq ≠ row.seq) :
    (w.read maxPairs row).Sound (rows ++ [row]) := by
  -- the log the row is read into
  obtain ⟨w', hw', hsound, hgroup⟩ : ∃ w' : PairWalk H,
      w' = (if w.group = some row.logKey then w else { w.close maxPairs with group := some row.logKey }) ∧
      w'.Sound rows ∧ w'.group = some row.logKey := by
    split
    · rename_i hsame
      exact ⟨w, rfl, h, hsame⟩
    · have hclose := h.close maxPairs
      exact ⟨_, rfl, ⟨hclose.nodup, hclose.pairs, fun s hs => absurd hs List.not_mem_nil,
        fun s hs => absurd hs List.not_mem_nil⟩, rfl⟩
  have hfresh : row.seq ∉ seqsOf w'.pairs ++ w'.dead ++ w'.retractions := by
    intro hmem
    obtain ⟨r, hr, hseq⟩ := hsound.mem hmem
    exact hnew r hr hseq
  have hadd : (seqsOf w'.pairs ++ w'.dead ++ w'.retractions ++ [row.seq]).Nodup := by
    rw [← List.concat_eq_append]
    exact hsound.nodup.concat hfresh
  have hmore : w'.Sound (rows ++ [row]) := hsound.mono fun r hr => List.mem_append_left _ hr
  have hself : row ∈ rows ++ [row] := by simp
  unfold PairWalk.read
  rw [← hw']
  split
  · rename_i hrem
    refine ⟨?_, hmore.pairs, hmore.dead, fun s hs => ?_⟩
    · show (seqsOf w'.pairs ++ w'.dead ++ (w'.retractions ++ [row.seq])).Nodup
      rw [← List.append_assoc]
      exact hadd
    · obtain hs | hs := List.mem_append.1 hs
      · exact hmore.retractions s hs
      · exact ⟨row, hself, (List.mem_singleton.1 hs).symm, hrem, hgroup⟩
  · rename_i hrem
    rw [Bool.not_eq_true] at hrem
    refine ⟨?_, hmore.pairs, fun s hs => ?_, hmore.retractions⟩
    · have hperm : (seqsOf w'.pairs ++ (w'.dead ++ [row.seq]) ++ w'.retractions).Perm
          (seqsOf w'.pairs ++ w'.dead ++ w'.retractions ++ [row.seq]) := by
        simp only [List.append_assoc]
        exact ((List.perm_append_comm).append_left _).append_left _
      exact hperm.nodup_iff.2 hadd
    · obtain hs | hs := List.mem_append.1 hs
      · exact hmore.dead s hs
      · exact ⟨row, hself, (List.mem_singleton.1 hs).symm, hrem, hgroup⟩

/-- **The pairs among rows with numbers of their own**: each an entry and a retraction of one log,
and no row in two of them. -/
theorem pairsIn_sound [DecidableEq H] {rows : List (EmissionRow H D)} (hseq : (rows.map (·.seq)).Nodup) (maxPairs : ℕ) :
    (seqsOf (pairsIn rows maxPairs)).Nodup ∧
    ∀ p ∈ pairsIn rows maxPairs, ∃ d ∈ rows, ∃ t ∈ rows, p = (d.seq, t.seq) ∧ d.removed = false ∧ t.removed = true ∧
      d.logKey = t.logKey := by
  have key : ∀ rows : List (EmissionRow H D), (rows.map (·.seq)).Nodup →
      (rows.foldl (PairWalk.read maxPairs) ⟨[], none, [], []⟩).Sound rows := by
    intro rows
    induction rows using List.reverseRecOn with
    | nil => exact fun _ => ⟨List.nodup_nil, by simp, by simp, by simp⟩
    | append_singleton rows row ih =>
      intro hseq
      rw [List.map_append, List.map_singleton, List.nodup_append] at hseq
      rw [List.foldl_append]
      exact (ih hseq.1).read maxPairs fun r hr => hseq.2.2 _ (List.mem_map_of_mem hr) _ List.mem_cons_self
  have hclose := (key rows hseq).close maxPairs
  refine ⟨?_, hclose.pairs⟩
  have hnodup := hclose.nodup
  rw [List.append_assoc] at hnodup
  exact hnodup.of_append_left

theorem EmissionRow.op_of_logKey {d t : EmissionRow H D} (hd : d.removed = false) (ht : t.removed = true)
    (hkey : d.logKey = t.logKey) :
    d.toLogEvent.op = .add (d.blockHash, d.logIndex) ∧ t.toLogEvent.op = .retract (d.blockHash, d.logIndex) := by
  obtain ⟨-, hpair⟩ := Prod.mk.inj (toLex.injective hkey)
  obtain ⟨hindex, hhash⟩ := Prod.mk.inj (toLex.injective hpair)
  unfold LogEvent.op
  rw [hd, ht, hindex, hhash]
  exact ⟨rfl, rfl⟩

/-- **Deleting pairs** deletes two rows each, and leaves each log with the balance it had. -/
theorem delete_pairs [DecidableEq H] {rows : List (EmissionRow H D)} {ps : List (ℕ × ℕ)}
    (hseq : (rows.map (·.seq)).Nodup) (hps : (seqsOf ps).Nodup)
    (h : ∀ p ∈ ps, ∃ d ∈ rows, ∃ t ∈ rows, p = (d.seq, t.seq) ∧ d.removed = false ∧ t.removed = true ∧
      d.logKey = t.logKey) :
    rows.length = (rows.filter fun r => r.seq ∉ seqsOf ps).length + 2 * ps.length ∧
    ∀ x, net x ((rows.filter fun r => r.seq ∉ seqsOf ps).map (·.toLogEvent.op)) = net x (rows.map (·.toLogEvent.op)) := by
  induction ps generalizing rows with
  | nil => simp [seqsOf]
  | cons p ps ih =>
    obtain ⟨d, hd, t, ht, rfl, hrem, hrem', hkey⟩ := h _ List.mem_cons_self
    have hcons : seqsOf ((d.seq, t.seq) :: ps) = d.seq :: t.seq :: seqsOf ps := rfl
    rw [hcons, List.nodup_cons, List.nodup_cons, List.mem_cons, not_or] at hps
    obtain ⟨⟨hne, hdps⟩, htps, hps⟩ := hps
    set left := rows.filter fun r => r.seq ∉ [d.seq, t.seq] with hleft
    -- the table is the two rows and the others
    have hinj : ∀ r ∈ rows, ∀ r' ∈ rows, r.seq = r'.seq → r = r' := fun r hr r' hr' => List.inj_on_of_nodup_map hseq hr hr'
    have hperm : rows.Perm (d :: t :: left) := by
      refine (List.perm_ext_iff_of_nodup hseq.of_map ?_).2 fun r => ?_
      · rw [List.nodup_cons, List.nodup_cons, List.mem_cons, not_or]
        refine ⟨⟨fun hdt => hne (by rw [hdt]), fun hmem => ?_⟩, fun hmem => ?_, hseq.of_map.filter _⟩
        · simpa using (List.mem_filter.1 hmem).2
        · simpa using (List.mem_filter.1 hmem).2
      · rw [List.mem_cons, List.mem_cons, hleft, List.mem_filter, decide_eq_true_eq, List.mem_cons, List.mem_singleton]
        constructor
        · intro hr
          by_cases h1 : r.seq = d.seq
          · exact .inl (hinj r hr d hd h1)
          · by_cases h2 : r.seq = t.seq
            · exact .inr (.inl (hinj r hr t ht h2))
            · exact .inr (.inr ⟨hr, by simp [h1, h2]⟩)
        · rintro (rfl | rfl | hr)
          · exact hd
          · exact ht
          · exact hr.1
    have hstill : ∀ p ∈ ps, ∃ d ∈ left, ∃ t ∈ left, p = (d.seq, t.seq) ∧ d.removed = false ∧ t.removed = true ∧
        d.logKey = t.logKey := by
      intro p hp
      obtain ⟨d', hd', t', ht', rfl, hrest⟩ := h p (List.mem_cons_of_mem _ hp)
      have hd'' : d'.seq ∈ seqsOf ps := List.mem_flatMap.2 ⟨_, hp, by simp⟩
      have ht'' : t'.seq ∈ seqsOf ps := List.mem_flatMap.2 ⟨_, hp, by simp⟩
      refine ⟨d', List.mem_filter.2 ⟨hd', ?_⟩, t', List.mem_filter.2 ⟨ht', ?_⟩, rfl, hrest⟩
      · rw [decide_eq_true_eq, List.mem_cons, List.mem_singleton]
        rintro (heq | heq)
        · exact hdps (heq ▸ hd'')
        · exact htps (heq ▸ hd'')
      · rw [decide_eq_true_eq, List.mem_cons, List.mem_singleton]
        rintro (heq | heq)
        · exact hdps (heq ▸ ht'')
        · exact htps (heq ▸ ht'')
    obtain ⟨hlen, hnet⟩ := ih (hseq.sublist (List.filter_sublist.map _)) hps hstill
    have hfilter : (rows.filter fun r => r.seq ∉ seqsOf ((d.seq, t.seq) :: ps)) =
        left.filter fun r => r.seq ∉ seqsOf ps := by
      rw [hleft, List.filter_filter]
      refine List.filter_congr fun r _ => ?_
      rw [hcons]
      simp only [List.mem_cons, List.not_mem_nil, or_false, not_or, Bool.decide_and, ← Bool.and_assoc, Bool.and_comm]
    rw [hfilter]
    refine ⟨?_, fun x => ?_⟩
    · have hrows := hperm.length_eq
      rw [List.length_cons, List.length_cons] at hrows
      rw [List.length_cons, hrows, hlen]
      ring
    · obtain ⟨hopd, hopt⟩ := EmissionRow.op_of_logKey hrem hrem' hkey
      rw [hnet x, net_perm (hperm.map _), List.map_cons, List.map_cons, hopd, hopt]
      simp only [net]
      ring

/-! ### The walk over neighbours -/

theorem take_append_take {α : Type} (n : ℕ) (l l' : List α) : (l.take n ++ l').take n = (l ++ l').take n := by
  rw [List.take_append, List.take_append, List.take_take, Nat.min_self, List.length_take]
  congr 2
  omega

theorem PairWalk.close_pairs {w : PairWalk H} {maxPairs : ℕ} (h : w.pairs.length ≤ maxPairs) :
    (w.close maxPairs).pairs = (w.pairs ++ w.dead.zip w.retractions).take maxPairs := by
  show w.pairs ++ _ = _
  rw [List.take_append, List.take_of_length_le h]

/-- **Where an entry and its retraction are neighbours the walk pairs neighbours**, up to the budget. -/
theorem pairsIn_eq [DecidableEq H] {rows : List (EmissionRow H D)} (hpaired : Paired EmissionRow.logKey (·.removed) rows) (maxPairs : ℕ) :
    pairsIn rows maxPairs = ((pairsOf rows).map fun p => (p.1.seq, p.2.seq)).take maxPairs := by
  have key : ∀ w : PairWalk H, w.dead.length = w.retractions.length → w.pairs.length ≤ maxPairs →
      ((rows.foldl (PairWalk.read maxPairs) w).close maxPairs).pairs =
        (w.pairs ++ w.dead.zip w.retractions ++ (pairsOf rows).map fun p => (p.1.seq, p.2.seq)).take maxPairs := by
    induction hpaired with
    | nil =>
      intro w _ hle
      show (w.close maxPairs).pairs = (w.pairs ++ w.dead.zip w.retractions ++ []).take maxPairs
      rw [List.append_nil, PairWalk.close_pairs hle]
    | @cons a b rows ha hb hab _ ih =>
      intro w hlen hle
      rw [List.foldl_cons, List.foldl_cons, pairsOf, List.map_cons]
      by_cases hgroup : w.group = some a.logKey
      · have hw : (w.read maxPairs a).read maxPairs b =
            { w with dead := w.dead ++ [a.seq], retractions := w.retractions ++ [b.seq] } := by
          simp [PairWalk.read, hgroup, ha, hb, hab]
        have hrest := ih { w with dead := w.dead ++ [a.seq], retractions := w.retractions ++ [b.seq] }
          (by simp [hlen]) hle
        rw [hw, hrest, List.zip_append hlen]
        simp
      · have hw : (w.read maxPairs a).read maxPairs b =
            ⟨(w.close maxPairs).pairs, some a.logKey, [a.seq], [b.seq]⟩ := by
          simp [PairWalk.read, PairWalk.close, hgroup, ha, hb, hab.symm]
        have hclose := PairWalk.close_pairs hle
        have hrest := ih ⟨(w.close maxPairs).pairs, some a.logKey, [a.seq], [b.seq]⟩ rfl
          (by rw [hclose]; exact List.length_take_le _ _)
        rw [hw, hrest, hclose, List.append_assoc, take_append_take]
        rfl
  have hstart := key ⟨[], none, [], []⟩ rfl (Nat.zero_le _)
  exact hstart

theorem seqsOf_pairsOf {l : List (EmissionRow H D)} (h : Paired EmissionRow.logKey (·.removed) l) :
    seqsOf ((pairsOf l).map fun p => (p.1.seq, p.2.seq)) = l.map (·.seq) := by
  conv_rhs => rw [← h.flat]
  unfold seqsOf
  rw [List.flatMap_map, List.map_flatMap]
  rfl

/-! ### One call on any table -/

/-- **On any table a call drops no half of a pair.** It leaves every live row and every row at or
above the finality depth; each row it takes has a partner it takes too, so every log keeps the
balance of entries and retractions it had; and it reports what it did. -/
theorem compact_matched [LinearOrder H] {rows rows' : List (EmissionRow H D)} {query : PairCompactionQuery}
    {report : PairCompactionReport} (hseq : (rows.map (·.seq)).Nodup)
    (h : compactEmissionPairs rows query = .ok (rows', report)) :
    rows'.Sublist rows ∧ rows'.filter (·.alive) = rows.filter (·.alive) ∧
    (∀ r ∈ rows, r ∉ rows' → r.blockNumber < query.latestBlock - query.finality) ∧
    (∀ x, net x (rows'.map (·.toLogEvent.op)) = net x (rows.map (·.toLogEvent.op))) ∧
    report.rowsDeleted = rows.length - rows'.length ∧ report.rowsDeleted = 2 * report.pairsCompacted ∧
    report.rowsDeleted ≤ report.scanned ∧ (∀ maxPairs, budgetOf query.maxPairs = .ok maxPairs →
      report.scanned ≤ maxPairs * 2) := by
  obtain ⟨rfl, rfl⟩ | ⟨blocks, maxPairs, floor, -, hfin, hbudget, -, rfl, hrows', -, hpairs, hdel, hscan, -⟩ :=
    compact_cases h
  · exact ⟨List.Sublist.refl _, rfl, fun r hr hr' => absurd hr hr', fun x => rfl, by simp, rfl, le_rfl,
      fun maxPairs _ => Nat.zero_le _⟩
  set candidates := candidatesOf rows (query.latestBlock - blocks) maxPairs
  -- the candidates are rows of the table, dead and below the floor
  have hperm := List.perm_insertionSort (fun r r' : EmissionRow H D => r.scanKey ≤ r'.scanKey)
    (rows.filter (·.reclaimable (query.latestBlock - blocks)))
  have hcand : ∀ r ∈ candidates, r ∈ rows ∧ r.reclaimable (query.latestBlock - blocks) = true := fun r hr =>
    List.mem_filter.1 (hperm.mem_iff.1 (List.mem_of_mem_take hr))
  have hcseq : (candidates.map (·.seq)).Nodup := by
    have hsorted : ((reclaimableRows rows (query.latestBlock - blocks)).map (·.seq)).Nodup :=
      (hperm.map _).nodup_iff.2 (hseq.sublist (List.filter_sublist.map _))
    exact hsorted.sublist ((List.take_sublist _ _).map _)
  obtain ⟨hnodup, hmatched⟩ := pairsIn_sound hcseq maxPairs
  obtain ⟨hlen, hnet⟩ := delete_pairs hseq hnodup fun p hp => by
    obtain ⟨d, hd, t, ht, hrest⟩ := hmatched p hp
    exact ⟨d, (hcand d hd).1, t, (hcand t ht).1, hrest⟩
  rw [← hrows'] at hlen hnet
  -- a row that goes has the number of a candidate, and is that candidate
  have hgone : ∀ r ∈ rows, r ∉ rows' → r.reclaimable (query.latestBlock - blocks) = true := by
    intro r hr hr'
    rw [hrows', List.mem_filter, decide_eq_true_eq, not_and, not_not] at hr'
    obtain ⟨p, hp, hmem⟩ := List.mem_flatMap.1 (hr' hr)
    obtain ⟨d, hd, t, ht, rfl, -⟩ := hmatched p hp
    simp only [List.mem_cons, List.not_mem_nil, or_false] at hmem
    obtain hmem | hmem := hmem
    · rw [List.inj_on_of_nodup_map hseq hr (hcand d hd).1 hmem]
      exact (hcand d hd).2
    · rw [List.inj_on_of_nodup_map hseq hr (hcand t ht).1 hmem]
      exact (hcand t ht).2
  refine ⟨hrows' ▸ List.filter_sublist, ?_, fun r hr hr' => ?_, hnet, ?_, ?_, ?_, fun m hm => ?_⟩
  · rw [hrows', List.filter_filter]
    refine List.filter_congr fun r hr => ?_
    cases halive : r.alive with
    | false => rfl
    | true =>
      rw [Bool.true_and, decide_eq_true_eq]
      intro hmem
      have hdead := hgone r hr (by rw [hrows', List.mem_filter, decide_eq_true_eq]; exact fun h => h.2 hmem)
      simp [EmissionRow.reclaimable, halive] at hdead
  · have hbelow := hgone r hr hr'
    simp only [EmissionRow.reclaimable, Bool.and_eq_true, decide_eq_true_eq] at hbelow
    omega
  · omega
  · omega
  · have hle : (seqsOf (pairsIn candidates maxPairs)).length ≤ (candidates.map (·.seq)).length := by
      refine (hnodup.subperm fun s hs => ?_).length_le
      obtain ⟨p, hp, hmem⟩ := List.mem_flatMap.1 hs
      obtain ⟨d, hd, t, ht, rfl, -⟩ := hmatched p hp
      simp only [List.mem_cons, List.not_mem_nil, or_false] at hmem
      obtain rfl | rfl := hmem
      · exact List.mem_map_of_mem hd
      · exact List.mem_map_of_mem ht
    rw [length_seqsOf, List.length_map] at hle
    omega
  · rw [hbudget] at hm
    cases hm
    rw [hscan]
    exact List.length_take_le _ _

/-- Log `0` of block `7` was taken back, log `0` of block `8` stands. -/
def retractedOnce : List (EmissionRow ℕ Unit) := tableOf [⟨7, 7, 0, false, ()⟩, ⟨7, 7, 0, true, ()⟩, ⟨8, 7, 0, false, ()⟩]

theorem compact_matched_retractedOnce :
    compactEmissionPairs retractedOnce ⟨some (.blocks 12), 12, 20, none⟩ =
      .ok ([⟨⟨8, 7, 0, false, ()⟩, 3, true⟩], ⟨some 8, 1, 2, 2, true⟩) ∧
    [(⟨⟨8, 7, 0, false, ()⟩, 3, true⟩ : EmissionRow ℕ Unit)].filter (·.alive) = retractedOnce.filter (·.alive) := by
  have hcall : compactEmissionPairs retractedOnce ⟨some (.blocks 12), 12, 20, none⟩ =
      .ok ([⟨⟨8, 7, 0, false, ()⟩, 3, true⟩], ⟨some 8, 1, 2, 2, true⟩) := by decide
  exact ⟨hcall, (compact_matched (by decide) hcall).2.1⟩

end Etherfold
