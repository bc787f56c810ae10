import Etherfold.Server.Compaction

/-!
# The compacted table

A table that holds a legal stream, less some of its matched pairs: the rows of a log take turns,
an entry and its retraction, with at most one live entry at the end.

* `Orderly`: the invariant, and `Orderly.push`, `Orderly.without`: an entry that is legal on the
  table and a call keep it.
* `Orderly.paired_reclaimable`: in the order of the scan an entry and its retraction are neighbours.
* `Orderly.deleted`: **a call deletes what it scans**.
* `Orderly.legal`, `Orderly.drops`: what the table holds is a legal stream, and what a call leaves
  is that stream less matched pairs.
-/

namespace Etherfold

open Ledger

variable {H D : Type}

/-! ### The invariant -/

/-- The rows of one log: dead entries each followed by its retraction, then perhaps a live entry. -/
def Turns (l : List (EmissionRow H D)) : Prop :=
  ∃ (ps : List (EmissionRow H D)) (last : Option (EmissionRow H D)), l = ps ++ last.toList ∧
    Paired EmissionRow.logKey (·.removed) ps ∧ (∀ r ∈ ps, r.alive = false) ∧
    ∀ r ∈ last, r.removed = false ∧ r.alive = true

/-- **A table in order**: numbered upwards, each log at the height of its block, its rows in turns. -/
structure Orderly [DecidableEq H] (numberOf : H → ℕ) (rows : List (EmissionRow H D)) : Prop where
  ascending : rows.Pairwise (·.seq < ·.seq)
  heights : ∀ r ∈ rows, r.blockNumber = numberOf r.blockHash
  turns : ∀ k, Turns (rows.filter (·.logKey = k))

variable {numberOf : H → ℕ} {rows rows' : List (EmissionRow H D)}

theorem EmissionRow.logKey_eq {r r' : EmissionRow H D} (hr : r.blockNumber = numberOf r.blockHash)
    (hr' : r'.blockNumber = numberOf r'.blockHash) : r.logKey = r'.logKey ↔ r.toLogEvent.SameLog r'.toLogEvent := by
  unfold EmissionRow.logKey LogEvent.SameLog
  rw [toLex.injective.eq_iff, Prod.mk.injEq, toLex.injective.eq_iff, Prod.mk.injEq, hr, hr']
  constructor
  · rintro ⟨-, hi, hh⟩
    exact ⟨hh, hi⟩
  · rintro ⟨hh, hi⟩
    exact ⟨by rw [hh], hi, hh⟩

section Appends

variable [DecidableEq H]

theorem Orderly.seq_nodup (h : Orderly numberOf rows) : (rows.map (·.seq)).Nodup :=
  List.pairwise_map.2 (h.ascending.imp fun hlt => hlt.ne)

theorem Orderly.nodup (h : Orderly numberOf rows) : rows.Nodup := h.seq_nodup.of_map

/-- A row is found by its number. -/
theorem Orderly.eq_of_seq (h : Orderly numberOf rows) {r r' : EmissionRow H D} (hr : r ∈ rows) (hr' : r' ∈ rows)
    (heq : r.seq = r'.seq) : r = r' :=
  List.inj_on_of_nodup_map h.seq_nodup hr hr' heq

theorem orderly_nil : Orderly (D := D) numberOf [] := ⟨.nil, by simp, fun _ => ⟨[], none, rfl, .nil, by simp, by simp⟩⟩

/-- A live row is an entry. -/
theorem Orderly.aliveAdded (h : Orderly numberOf rows) : AliveAdded rows := by
  intro r hr halive
  obtain ⟨ps, last, hsplit, -, hdead, hlast⟩ := h.turns r.logKey
  have hmem : r ∈ ps ++ last.toList := hsplit ▸ List.mem_filter.2 ⟨hr, by simp⟩
  obtain hmem | hmem := List.mem_append.1 hmem
  · rw [hdead r hmem] at halive
    cases halive
  · exact (hlast r (Option.mem_toList.1 hmem)).1

/-! ### Appending -/

/-- The rows of a log after one more entry: those of another log are as they were. -/
theorem filter_push (h : ∀ r ∈ rows, r.blockNumber = numberOf r.blockHash) {e : LogEvent H D}
    (he : e.blockNumber = numberOf e.blockHash) (n : ℕ) (k : ℕ ×ₗ ℕ ×ₗ H) :
    (pushEmission (rows, n) e).1.filter (·.logKey = k) =
      if (⟨e, n + 1, !e.removed⟩ : EmissionRow H D).logKey = k then
        flagSuperseded (rows.filter (·.logKey = k)) e ++ [⟨e, n + 1, !e.removed⟩]
      else rows.filter (·.logKey = k) := by
  unfold pushEmission
  rw [List.filter_append]
  have hflag : (flagSuperseded rows e).filter (·.logKey = k) = flagSuperseded (rows.filter (·.logKey = k)) e := by
    unfold flagSuperseded
    split
    · rw [List.filter_map]
      congr 1
      refine List.filter_congr fun r _ => ?_
      rw [Function.comp_apply]
      unfold EmissionRow.logKey
      rw [flag_toLogEvent]
    · rfl
  rw [hflag]
  by_cases hk : (⟨e, n + 1, !e.removed⟩ : EmissionRow H D).logKey = k
  · rw [if_pos hk, List.filter_cons_of_pos (by simpa using hk), List.filter_nil]
  · rw [if_neg hk, List.filter_cons_of_neg (by simpa using hk), List.filter_nil, List.append_nil]
    unfold flagSuperseded
    split
    · -- a row the entry flags is of its own log
      refine (List.map_congr_left fun r hr => ?_).trans (List.map_id _)
      obtain ⟨hr, hkey⟩ := List.mem_filter.1 hr
      unfold EmissionRow.flag
      rw [if_neg]
      · rfl
      · rintro ⟨hh, hi, -⟩
        refine hk ?_
        rw [← of_decide_eq_true hkey]
        exact (EmissionRow.logKey_eq (r := ⟨e, n + 1, !e.removed⟩) he (h r hr)).2 ⟨hh.symm, hi.symm⟩
    · rfl

/-- An entry that is legal on a table: an addition of a log that has no live row, or a retraction
of one that has. -/
def FitsTable (rows : List (EmissionRow H D)) (e : LogEvent H D) : Prop :=
  (e.removed = false → ∀ r ∈ rows, r.alive = true → ¬r.toLogEvent.SameLog e) ∧
  (e.removed = true → ∃ r ∈ rows, r.alive = true ∧ r.toLogEvent.SameLog e)

theorem mem_flagSuperseded {e : LogEvent H D} {r : EmissionRow H D} (h : r ∈ flagSuperseded rows e) :
    ∃ r' ∈ rows, r.seq = r'.seq ∧ r.toLogEvent = r'.toLogEvent := by
  unfold flagSuperseded at h
  split at h
  · obtain ⟨r', hr', rfl⟩ := List.mem_map.1 h
    exact ⟨r', hr', flag_seq e r', flag_toLogEvent e r'⟩
  · exact ⟨r, h, rfl, rfl⟩

/-- The turns of the log an entry is of. -/
theorem Turns.push {l : List (EmissionRow H D)} {e : LogEvent H D} {n : ℕ} (h : Turns l)
    (hkey : ∀ r ∈ l, r.logKey = (⟨e, n + 1, !e.removed⟩ : EmissionRow H D).logKey)
    (hsame : ∀ r ∈ l, r.toLogEvent.SameLog e) (hfits : FitsTable l e) :
    Turns (flagSuperseded l e ++ [⟨e, n + 1, !e.removed⟩]) := by
  obtain ⟨ps, last, rfl, hpaired, hdead, hlast⟩ := h
  cases hrem : e.removed with
  | false =>
    -- nothing of the log is live, so the entry follows the pairs
    have hnone : last = none := by
      cases last with
      | none => rfl
      | some r =>
        exact absurd (hsame r (by simp)) (hfits.1 hrem r (by simp) (hlast r rfl).2)
    subst hnone
    refine ⟨ps, some ⟨e, n + 1, true⟩, ?_, hpaired, hdead, fun r hr => ?_⟩
    · unfold flagSuperseded
      simp [hrem]
    · cases hr
      exact ⟨hrem, rfl⟩
  | true =>
    -- the live row of the log is its last, and falls
    obtain ⟨r, hr, halive, hlog⟩ := hfits.2 hrem
    obtain rfl : last = some r := by
      obtain hr | hr := List.mem_append.1 hr
      · rw [hdead r hr] at halive
        cases halive
      · exact Option.mem_toList.1 hr
    have hps : ps.map (EmissionRow.flag e) = ps := by
      refine (List.map_congr_left fun r' hr' => ?_).trans (List.map_id _)
      unfold EmissionRow.flag
      rw [if_neg]
      · rfl
      · rintro ⟨-, -, -, halive'⟩
        rw [hdead r' hr'] at halive'
        cases halive'
    have hflag : r.flag e = { r with alive := false } := by
      unfold EmissionRow.flag
      rw [if_pos ⟨hlog.1, hlog.2, (hlast r rfl).1, halive⟩]
    refine ⟨ps ++ [{ r with alive := false }, ⟨e, n + 1, false⟩], none, ?_, hpaired.append ?_, fun r' hr' => ?_, by simp⟩
    · unfold flagSuperseded
      simp [hrem, hps, hflag]
    · exact .cons (hlast r rfl).1 hrem (hkey r (by simp)) .nil
    · rw [List.mem_append, List.mem_cons, List.mem_singleton] at hr'
      obtain hr' | rfl | rfl := hr'
      · exact hdead r' hr'
      · rfl
      · rfl

/-- **One more entry** that is legal on the table, numbered above its rows. -/
theorem Orderly.push (h : Orderly numberOf rows) {e : LogEvent H D} (he : e.blockNumber = numberOf e.blockHash)
    (hfits : FitsTable rows e) {n : ℕ} (hn : ∀ r ∈ rows, r.seq ≤ n) : Orderly numberOf (pushEmission (rows, n) e).1 := by
  refine ⟨?_, fun r hr => ?_, fun k => ?_⟩
  · have hasc : ((pushEmission (rows, n) e).1.map (·.seq)).Pairwise (· < ·) := by
      unfold pushEmission
      rw [List.map_append, flagSuperseded_seq, List.map_singleton, List.pairwise_append]
      refine ⟨List.pairwise_map.2 h.ascending, List.pairwise_singleton _ _, fun s hs s' hs' => ?_⟩
      obtain ⟨r, hr, rfl⟩ := List.mem_map.1 hs
      have hle := hn r hr
      rw [List.mem_singleton.1 hs']
      show r.seq < n + 1
      omega
    exact List.pairwise_map.1 hasc
  · unfold pushEmission at hr
    obtain hr | hr := List.mem_append.1 hr
    · obtain ⟨r', hr', -, hlog⟩ := mem_flagSuperseded hr
      rw [hlog]
      exact h.heights r' hr'
    · rw [List.mem_singleton.1 hr]
      exact he
  · rw [filter_push h.heights he]
    split
    · rename_i hk
      have hsame : ∀ r ∈ rows, r.logKey = k ↔ r.toLogEvent.SameLog e := fun r hr => by
        rw [← hk]
        have hpushed : (⟨e, n + 1, !e.removed⟩ : EmissionRow H D).blockNumber = numberOf e.blockHash := he
        exact EmissionRow.logKey_eq (h.heights r hr) hpushed
      refine (h.turns k).push (fun r hr => ?_) (fun r hr => ?_) ⟨fun hrem r hr => ?_, fun hrem => ?_⟩
      · rw [hk]
        exact of_decide_eq_true (List.mem_filter.1 hr).2
      · exact (hsame r (List.mem_of_mem_filter hr)).1 (of_decide_eq_true (List.mem_filter.1 hr).2)
      · exact hfits.1 hrem r (List.mem_of_mem_filter hr)
      · obtain ⟨r, hr, halive, hlog⟩ := hfits.2 hrem
        exact ⟨r, List.mem_filter.2 ⟨hr, decide_eq_true ((hsame r hr).2 hlog)⟩, halive, hlog⟩
    · exact h.turns k

end Appends

/-! ### The candidates of a table in order -/

section Candidates

variable [LinearOrder H]

/-- The dead rows of one log, in the order of their numbers. -/
theorem Orderly.filter_reclaimable (h : Orderly numberOf rows) (floor : ℕ) (k : ℕ ×ₗ ℕ ×ₗ H) :
    (reclaimableRows rows floor).filter (·.logKey = k) =
      (rows.filter (·.logKey = k)).filter (·.reclaimable floor) := by
  have hperm := List.perm_insertionSort (fun r r' : EmissionRow H D => r.scanKey ≤ r'.scanKey)
    (rows.filter (·.reclaimable floor))
  have hsorted : (reclaimableRows rows floor).Pairwise fun r r' => r.scanKey ≤ r'.scanKey :=
    List.pairwise_insertionSort _ _
  have hseq : ((reclaimableRows rows floor).map (·.seq)).Nodup :=
    (hperm.map _).nodup_iff.2 (h.seq_nodup.sublist (List.filter_sublist.map _))
  -- both are ascending by number
  have hleft : ((reclaimableRows rows floor).filter (·.logKey = k)).Pairwise (·.seq < ·.seq) := by
    have hne := List.pairwise_map.1 hseq
    refine List.pairwise_filter.2 ((hsorted.and hne).imp fun {r r'} hrr hr hr' => ?_)
    have hlex := Prod.Lex.le_iff.1 hrr.1
    obtain hlt | ⟨-, hle⟩ := hlex
    · have hkey : r.logKey < r'.logKey := hlt
      rw [of_decide_eq_true hr, of_decide_eq_true hr'] at hkey
      exact absurd hkey (lt_irrefl k)
    · exact lt_of_le_of_ne hle hrr.2
  have hright : ((rows.filter (·.logKey = k)).filter (·.reclaimable floor)).Pairwise (·.seq < ·.seq) :=
    (h.ascending.filter _).filter _
  refine List.Perm.eq_of_pairwise (fun r r' _ _ hlt hgt => absurd hlt (lt_asymm hgt)) hleft hright ?_
  refine (hperm.filter _).trans ?_
  rw [List.filter_filter, List.filter_filter]
  refine List.Perm.of_eq (List.filter_congr fun r _ => Bool.and_comm _ _)

/-- All the dead rows of a log are below the floor, or none. -/
theorem Orderly.turns_reclaimable (h : Orderly numberOf rows) (floor : ℕ) (k : ℕ ×ₗ ℕ ×ₗ H) :
    ∃ (ps rest : List (EmissionRow H D)), rows.filter (·.logKey = k) = ps ++ rest ∧
      (reclaimableRows rows floor).filter (·.logKey = k) = ps ∧ Paired EmissionRow.logKey (·.removed) ps ∧
      Turns rest := by
  obtain ⟨ps, last, hsplit, hpaired, hdead, hlast⟩ := h.turns k
  rw [h.filter_reclaimable, hsplit]
  have hkey : ∀ r ∈ ps ++ last.toList, r.logKey = k := fun r hr => by
    rw [← hsplit] at hr
    exact of_decide_eq_true (List.mem_filter.1 hr).2
  have halive : last.toList.filter (·.reclaimable floor) = [] := by
    rw [List.filter_eq_nil_iff]
    intro r hr
    have hr := (hlast r (Option.mem_toList.1 hr)).2
    simp [EmissionRow.reclaimable, hr]
  have hnumber : ∀ r ∈ ps ++ last.toList, r.blockNumber = (ofLex k).1 := fun r hr => by
    rw [← hkey r hr]
    rfl
  rw [List.filter_append, halive, List.append_nil]
  by_cases hlt : (ofLex k).1 < floor
  · refine ⟨ps, last.toList, rfl, ?_, hpaired, [], last, rfl, .nil, by simp, hlast⟩
    rw [List.filter_eq_self]
    intro r hr
    unfold EmissionRow.reclaimable
    rw [hdead r hr, hnumber r (List.mem_append_left _ hr)]
    simpa using hlt
  · refine ⟨[], ps ++ last.toList, rfl, ?_, .nil, ps, last, rfl, hpaired, hdead, hlast⟩
    rw [List.filter_eq_nil_iff]
    intro r hr
    unfold EmissionRow.reclaimable
    rw [hnumber r (List.mem_append_left _ hr)]
    simpa using fun _ => not_lt.1 hlt

/-- **In the order of the scan an entry and its retraction are neighbours.** -/
theorem Orderly.paired_reclaimable (h : Orderly numberOf rows) (floor : ℕ) :
    Paired EmissionRow.logKey (·.removed) (reclaimableRows rows floor) := by
  refine paired_of_sorted ?_ fun k => ?_
  · have hsorted : (reclaimableRows rows floor).Pairwise fun r r' => r.scanKey ≤ r'.scanKey :=
      List.pairwise_insertionSort _ _
    exact hsorted.imp fun hle => (Prod.Lex.monotone_fst_ofLex hle)
  · obtain ⟨ps, rest, -, hps, hpaired, -⟩ := h.turns_reclaimable floor k
    rw [hps]
    exact hpaired

end Candidates

/-! ### One call on a table in order -/

section Call

variable [LinearOrder H]

/-- A budget never cuts between an entry and its retraction. -/
theorem Orderly.paired_candidates (h : Orderly numberOf rows) (floor maxPairs : ℕ) :
    Paired EmissionRow.logKey (·.removed) (candidatesOf rows floor maxPairs) := by
  unfold candidatesOf
  rw [Nat.mul_comm]
  exact (h.paired_reclaimable floor).take maxPairs

/-- **On a table in order a call deletes what it scans.** -/
theorem Orderly.deleted (h : Orderly numberOf rows) (floor maxPairs : ℕ) :
    seqsOf (pairsIn (candidatesOf rows floor maxPairs) maxPairs) = (candidatesOf rows floor maxPairs).map (·.seq) ∧
      (pairsIn (candidatesOf rows floor maxPairs) maxPairs).length * 2 = (candidatesOf rows floor maxPairs).length := by
  have hpaired := h.paired_candidates floor maxPairs
  have hlen := hpaired.length
  have hle : (candidatesOf rows floor maxPairs).length ≤ maxPairs * 2 := List.length_take_le _ _
  rw [pairsIn_eq hpaired, List.take_of_length_le (by rw [List.length_map]; omega), seqsOf_pairsOf hpaired,
    List.length_map]
  exact ⟨rfl, by omega⟩

/-- The rows of one log that a call takes: a first part of its turns, made of whole pairs. -/
theorem Orderly.turns_candidates (h : Orderly numberOf rows) (floor maxPairs : ℕ) (k : ℕ ×ₗ ℕ ×ₗ H) :
    ∃ (ps rest : List (EmissionRow H D)), rows.filter (·.logKey = k) = ps ++ rest ∧
      (candidatesOf rows floor maxPairs).filter (·.logKey = k) = ps ∧
      Paired EmissionRow.logKey (·.removed) ps ∧ Turns rest := by
  obtain ⟨ps, rest, hsplit, hps, hpaired, hrest⟩ := h.turns_reclaimable floor k
  have hcand := (h.paired_candidates floor maxPairs).filter k
  have hprefix : (candidatesOf rows floor maxPairs).filter (·.logKey = k) <+: ps := by
    rw [← hps]
    exact (List.take_prefix _ _).filter _
  -- what is left of the pairs is pairs, as the cut is at an even place
  have hdrop : Paired EmissionRow.logKey (·.removed)
      (ps.drop ((candidatesOf rows floor maxPairs).filter (·.logKey = k)).length) := by
    rw [hcand.length]
    exact hpaired.drop _
  rw [List.prefix_iff_eq_take.1 hprefix] at hcand ⊢
  obtain ⟨ps', last, rfl, hpaired', hdead, hlast⟩ := hrest
  refine ⟨_, ps.drop ((candidatesOf rows floor maxPairs).filter (·.logKey = k)).length ++ (ps' ++ last.toList), ?_, rfl,
    hcand, ps.drop ((candidatesOf rows floor maxPairs).filter (·.logKey = k)).length ++ ps', last, ?_,
    hdrop.append hpaired', fun r hr => ?_, hlast⟩
  · rw [hsplit, ← List.append_assoc (List.take _ _), List.take_append_drop]
  · rw [List.append_assoc]
  · obtain hr | hr := List.mem_append.1 hr
    · have hr' : r ∈ (reclaimableRows rows floor) := by
        rw [← hps] at hr
        exact List.mem_of_mem_filter (List.mem_of_mem_drop hr)
      have hr'' := (List.mem_filter.1 ((List.perm_insertionSort _ _).mem_iff.1 hr')).2
      simp only [EmissionRow.reclaimable, Bool.and_eq_true, Bool.not_eq_true'] at hr''
      exact hr''.1
    · exact hdead r hr

theorem mem_of_mem_candidatesOf {floor maxPairs : ℕ} {r : EmissionRow H D} (h : r ∈ candidatesOf rows floor maxPairs) :
    r ∈ rows ∧ r.reclaimable floor = true :=
  List.mem_filter.1 ((List.perm_insertionSort _ _).mem_iff.1 (List.mem_of_mem_take h))

/-- A row goes when, and only when, it is a candidate. -/
theorem Orderly.mem_candidates_seq (h : Orderly numberOf rows) {floor maxPairs : ℕ} {r : EmissionRow H D} (hr : r ∈ rows) :
    r.seq ∈ (candidatesOf rows floor maxPairs).map (·.seq) ↔ r ∈ candidatesOf rows floor maxPairs := by
  refine ⟨fun hmem => ?_, fun hmem => List.mem_map_of_mem hmem⟩
  obtain ⟨r', hr', hseq⟩ := List.mem_map.1 hmem
  rwa [h.eq_of_seq hr (mem_of_mem_candidatesOf hr').1 hseq.symm]

/-- **A call keeps the table in order.** -/
theorem Orderly.without (h : Orderly numberOf rows) (floor maxPairs : ℕ) :
    Orderly numberOf (rows.filter fun r => r.seq ∉ (candidatesOf rows floor maxPairs).map (·.seq)) := by
  refine ⟨h.ascending.filter _, fun r hr => h.heights r (List.mem_of_mem_filter hr), fun k => ?_⟩
  obtain ⟨ps, rest, hsplit, hps, -, hrest⟩ := h.turns_candidates floor maxPairs k
  have hnodup : (ps ++ rest).Nodup := hsplit ▸ h.nodup.filter _
  have hmem : ∀ r ∈ ps ++ rest, r ∈ rows ∧ r.logKey = k := fun r hr => by
    rw [← hsplit] at hr
    exact ⟨List.mem_of_mem_filter hr, of_decide_eq_true (List.mem_filter.1 hr).2⟩
  have hgone : ∀ r ∈ ps ++ rest, r.seq ∈ (candidatesOf rows floor maxPairs).map (·.seq) ↔ r ∈ ps := fun r hr => by
    rw [h.mem_candidates_seq (hmem r hr).1, ← hps, List.mem_filter, decide_eq_true_eq]
    exact ⟨fun hc => ⟨hc, (hmem r hr).2⟩, fun hc => hc.1⟩
  have hleft : (rows.filter fun r => r.seq ∉ (candidatesOf rows floor maxPairs).map (·.seq)).filter (·.logKey = k) =
      rest := by
    rw [List.filter_filter]
    refine (List.filter_congr fun r _ => Bool.and_comm _ _).trans ?_
    rw [← List.filter_filter, hsplit, List.filter_append, List.filter_eq_nil_iff.2 fun r hr => ?_, List.nil_append,
      List.filter_eq_self]
    · intro r hr
      rw [decide_eq_true_eq, hgone r (List.mem_append_right _ hr)]
      exact fun hr' => (List.disjoint_of_nodup_append hnodup) hr' hr
    · simpa using (hgone r (List.mem_append_left _ hr)).2 hr
  rw [hleft]
  exact hrest

/-- The pairs a call takes are matched in the table. -/
theorem Orderly.matched (h : Orderly numberOf rows) {floor maxPairs : ℕ} {p : EmissionRow H D × EmissionRow H D}
    (hp : p ∈ pairsOf (candidatesOf rows floor maxPairs)) : Matched (fun r => r.toLogEvent.op) rows p.1 p.2 := by
  have hpaired := h.paired_candidates floor maxPairs
  obtain ⟨hd, ht, hkey, -⟩ := hpaired.mem hp
  obtain ⟨ps, rest, hsplit, hps, hpairs, -⟩ := h.turns_candidates floor maxPairs p.1.logKey
  have hp' : p ∈ pairsOf ps := by
    rw [← hps, hpaired.pairsOf_filter, List.mem_filter]
    exact ⟨hp, by simp⟩
  obtain ⟨-, -, -, as, bs, hsides⟩ := hpairs.mem hp'
  obtain ⟨hopd, hopt⟩ := EmissionRow.op_of_logKey hd ht hkey
  have hin : p.1 ∈ rows := by
    have : p.1 ∈ ps ++ rest := by simp [hsides]
    rw [← hsplit] at this
    exact List.mem_of_mem_filter this
  have hfilter : rows.filter (fun r => decide (r.logKey = p.1.logKey)) = as ++ p.1 :: p.2 :: (bs ++ rest) := by
    rw [hsplit, hsides, List.append_assoc]
    rfl
  refine matched_of_filter (fun r hr hk => ?_) hfilter hopd hopt
  rw [LogEvent.op_key, Prod.mk.injEq] at hk
  exact decide_eq_true ((EmissionRow.logKey_eq (h.heights r hr) (h.heights _ hin)).2 hk)

/-- **What a call leaves is the table less matched pairs.** -/
theorem Orderly.drops (h : Orderly numberOf rows) (floor maxPairs : ℕ) :
    Drops (fun r => r.toLogEvent.op) rows
      (rows.filter fun r => r.seq ∉ (candidatesOf rows floor maxPairs).map (·.seq)) := by
  classical
  have hpaired := h.paired_candidates floor maxPairs
  have hnodup : (candidatesOf rows floor maxPairs).Nodup :=
    (((List.perm_insertionSort _ _).nodup_iff.2 (h.nodup.filter _)).sublist (List.take_sublist _ _))
  have hdrops := drops_filter h.nodup (by rw [hpaired.flat]; exact hnodup) fun p hp => h.matched hp
  rw [hpaired.flat] at hdrops
  convert hdrops using 1
  refine List.filter_congr fun r hr => ?_
  rw [decide_eq_decide, h.mem_candidates_seq hr]

end Call

/-! ### What a table in order still says -/

section Reads

variable [DecidableEq H]

/-- What stands is what survives. -/
theorem standing_eq_survivors (es : List (LogEvent H D)) : standing es = Ledger.survivors LogEvent.op es := by
  induction es using List.reverseRecOn with
  | nil => rfl
  | append_singleton es e ih =>
    rw [standing_concat, survivors_concat, ih]
    unfold standStep
    by_cases hrem : e.removed = true
    · have hop : e.op = .retract (e.blockHash, e.logIndex) := by
        unfold LogEvent.op
        rw [if_pos hrem]
      rw [if_pos hrem, hop]
      refine List.filter_congr fun x _ => ?_
      rw [decide_eq_decide, LogEvent.op_key, ne_eq, Prod.mk.injEq]
      exact Iff.rfl
    · have hop : e.op = .add (e.blockHash, e.logIndex) := by
        unfold LogEvent.op
        rw [if_neg hrem]
      rw [if_neg hrem, hop]

theorem survivors_log (rows : List (EmissionRow H D)) :
    (Ledger.survivors (fun r => r.toLogEvent.op) rows).map (·.toLogEvent) = standing (rows.map (·.toLogEvent)) := by
  rw [standing_eq_survivors]
  induction rows using List.reverseRecOn with
  | nil => rfl
  | append_singleton rows r ih =>
    rw [List.map_append, List.map_singleton, survivors_concat, survivors_concat, ← ih]
    cases hop : r.toLogEvent.op with
    | add k => simp
    | retract k =>
      dsimp only
      rw [List.filter_map]
      rfl

/-- Turns are a legal ledger of their log. -/
theorem legal_turns {x : H × ℕ} {l : List (EmissionRow H D)} (h : Turns l)
    (hkey : ∀ r ∈ l, r.toLogEvent.op.key = x) : Legal ∅ (l.map (·.toLogEvent.op)) := by
  obtain ⟨ps, last, rfl, hpaired, -, hlast⟩ := h
  have hop : ∀ r ∈ ps ++ last.toList, r.toLogEvent.op = if r.removed then .retract x else .add x := fun r hr => by
    have hk := hkey r hr
    rw [LogEvent.op_key] at hk
    unfold LogEvent.op
    rw [hk]
  clear hkey
  induction hpaired with
  | nil =>
    cases last with
    | none => trivial
    | some r =>
      have hr := hop r (by simp)
      rw [(hlast r rfl).1] at hr
      simp [hr, Legal]
  | @cons a b ps ha hb _ _ ih =>
    have hopa := hop a (by simp)
    have hopb := hop b (by simp)
    rw [ha] at hopa
    rw [hb] at hopb
    have hrest := ih fun r hr => hop r (List.mem_cons_of_mem _ (List.mem_cons_of_mem _ hr))
    have herase : (insert x (∅ : Finset (H × ℕ))).erase x = ∅ := by simp
    simp only [List.cons_append, List.map_cons, hopa, hopb, Bool.false_eq_true, if_false, if_true]
    refine ⟨Finset.notMem_empty x, Finset.mem_insert_self x ∅, ?_⟩
    rw [herase]
    exact hrest

/-- **What a table in order holds is a legal stream.** -/
theorem Orderly.legal (h : Orderly numberOf rows) : Legal ∅ (rows.map (·.toLogEvent.op)) := by
  refine legal_of_about fun x => ?_
  obtain ⟨hash, index⟩ := x
  have habout : about (hash, index) (rows.map (·.toLogEvent.op)) =
      (rows.filter (·.logKey = toLex (numberOf hash, toLex (index, hash)))).map (·.toLogEvent.op) := by
    unfold about
    rw [List.filter_map]
    congr 1
    refine List.filter_congr fun r hr => ?_
    rw [Function.comp_apply, decide_eq_decide, LogEvent.op_key]
    unfold EmissionRow.logKey
    rw [toLex.injective.eq_iff, Prod.mk.injEq, Prod.mk.injEq, toLex.injective.eq_iff, Prod.mk.injEq, h.heights r hr]
    constructor
    · rintro ⟨hh, hi⟩
      exact ⟨by rw [← hh], hi, hh⟩
    · rintro ⟨-, hi, hh⟩
      exact ⟨hh, hi⟩
  rw [habout]
  refine legal_turns (x := (hash, index)) (h.turns _) fun r hr => ?_
  have hkey := of_decide_eq_true (List.mem_filter.1 hr).2
  obtain ⟨-, hpair⟩ := Prod.mk.inj (toLex.injective hkey)
  obtain ⟨hi, hh⟩ := Prod.mk.inj (toLex.injective hpair)
  rw [LogEvent.op_key, hi, hh]

end Reads

end Etherfold
