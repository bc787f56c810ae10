import Etherfold.Server.CompactedReads

/-!
# The feed

The stored stream in the order of its numbers, retractions included, read page by page. A consumer
holds the number of the last row it was served. Calls delete pairs while it reads, and the numbers
above the mark are given out again.

* `readStreamFeed`: one page of the source, and `FeedConsumer.poll`: one poll.
* `InStep`: what a consumer was served stands as the rows up to its position do.
* `in_step_iff`: **a call keeps a consumer in step exactly when it takes no retraction the consumer
  has yet to read of an entry it was served**.
* `FeedRun`, `feed_in_step`: **over any appends, calls and polls** a consumer that no call is ahead
  of is served a legal stream, and when nothing is left to read it holds what stands.
-/

namespace Etherfold

open Ledger

variable {H D : Type} {numberOf : H → ℕ} {rows rows' : List (EmissionRow H D)}

/-- One page: the entries, the position to resume from and whether more rows follow. -/
structure FeedPage (H D : Type) where
  entries : List (LogEvent H D)
  position : ℕ
  hasMore : Bool
  deriving DecidableEq, Repr

/-- **One page of the feed**, strictly after a position. -/
def readStreamFeed (rows : List (EmissionRow H D)) (after limit : ℕ) : FeedPage H D :=
  let found := ((rows.filter fun r => after < r.seq).insertionSort fun r r' => r.seq ≤ r'.seq).take (limit + 1)
  let hasMore := decide (limit < found.length)
  let page := if hasMore then found.take limit else found
  { entries := page.map (·.toLogEvent)
    -- the last number served, never one that is computed
    position := (page.getLast?.map (·.seq)).getD after
    hasMore }

/-- A consumer: its position, and what it was served. -/
structure FeedConsumer (H D : Type) where
  position : ℕ
  received : List (LogEvent H D)
  deriving DecidableEq, Repr

/-- Before the first row. -/
def feedStart : FeedConsumer H D := ⟨0, []⟩

/-- One poll. -/
def FeedConsumer.poll (c : FeedConsumer H D) (rows : List (EmissionRow H D)) (limit : ℕ) : FeedConsumer H D :=
  ⟨(readStreamFeed rows c.position limit).position, c.received ++ (readStreamFeed rows c.position limit).entries⟩

/-! ### The rows up to a position -/

/-- The rows up to a position. -/
def upTo (p : ℕ) (rows : List (EmissionRow H D)) : List (EmissionRow H D) := rows.filter (·.seq ≤ p)

/-- Numbered upwards, the rows up to a position come first. -/
theorem upTo_append (h : rows.Pairwise (·.seq < ·.seq)) (p : ℕ) : rows = upTo p rows ++ rows.filter (p < ·.seq) := by
  unfold upTo
  induction rows with
  | nil => rfl
  | cons r rows ih =>
    obtain ⟨hlt, hrows⟩ := List.pairwise_cons.1 h
    by_cases hle : r.seq ≤ p
    · rw [List.filter_cons_of_pos (by simpa using hle), List.filter_cons_of_neg (by simpa using hle),
        List.cons_append, ← ih hrows]
    · have hnone : (r :: rows).filter (fun r => decide (r.seq ≤ p)) = [] := by
        rw [List.filter_eq_nil_iff]
        intro r' hr'
        rw [decide_eq_true_eq]
        obtain rfl | hr' := List.mem_cons.1 hr'
        · exact hle
        · have hlt' := hlt r' hr'
          omega
      have hall : (r :: rows).filter (fun r => decide (p < r.seq)) = r :: rows := by
        rw [List.filter_eq_self]
        intro r' hr'
        rw [decide_eq_true_eq]
        obtain rfl | hr' := List.mem_cons.1 hr'
        · omega
        · have hlt' := hlt r' hr'
          omega
      rw [hnone, hall]
      rfl

/-- **A page of a table in order**: the next rows, as many as were asked for, and a position that has
them and none of the others behind it. -/
theorem readStreamFeed_page (h : rows.Pairwise (·.seq < ·.seq)) (p limit : ℕ) :
    upTo (readStreamFeed rows p limit).position rows =
      upTo p rows ++ (rows.filter (p < ·.seq)).take limit ∧
    (readStreamFeed rows p limit).entries = ((rows.filter (p < ·.seq)).take limit).map (·.toLogEvent) ∧
    (readStreamFeed rows p limit).hasMore = decide (limit < (rows.filter (p < ·.seq)).length) ∧
    ((readStreamFeed rows p limit).position = p ∨ ∃ z ∈ rows, (readStreamFeed rows p limit).position = z.seq) := by
  set above := rows.filter (p < ·.seq) with habove
  have hasc : above.Pairwise (·.seq < ·.seq) := h.filter _
  have hsorted : above.insertionSort (fun r r' => r.seq ≤ r'.seq) = above :=
    (hasc.imp fun hlt => hlt.le).insertionSort_eq
  -- the extra row is dropped again
  have hpage : (if decide (limit < (above.take (limit + 1)).length) = true then (above.take (limit + 1)).take limit
      else above.take (limit + 1)) = above.take limit := by
    rw [List.take_take, List.length_take]
    split
    · rw [Nat.min_eq_left (Nat.le_succ limit)]
    · rename_i hno
      rw [decide_eq_true_eq] at hno
      rw [List.take_of_length_le (by omega), List.take_of_length_le (by omega)]
  have hread : readStreamFeed rows p limit = ⟨(above.take limit).map (·.toLogEvent),
      ((above.take limit).getLast?.map (·.seq)).getD p, decide (limit < above.length)⟩ := by
    unfold readStreamFeed
    simp only [← habove, hsorted, hpage]
    rw [List.length_take]
    congr 1
    rw [decide_eq_decide]
    omega
  rw [hread]
  refine ⟨?_, rfl, rfl, ?_⟩
  · dsimp only
    cases hlast : (above.take limit).getLast? with
    | none =>
      rw [List.getLast?_eq_none_iff.1 hlast, List.append_nil]
      rfl
    | some z =>
      -- the last row served is above the ones before it and below the ones after it
      show upTo z.seq rows = _
      have hz : z ∈ above.take limit := List.mem_of_getLast? hlast
      have hzp : p < z.seq := by
        have := (List.mem_filter.1 (List.mem_of_mem_take hz)).2
        simpa using this
      conv_lhs => rw [upTo_append h p]
      unfold upTo
      rw [← habove, List.filter_append]
      congr 1
      · rw [List.filter_eq_self]
        intro r hr
        have hr := of_decide_eq_true (List.mem_filter.1 hr).2
        rw [decide_eq_true_eq]
        omega
      · obtain ⟨front, hfront⟩ := List.getLast?_eq_some_iff.1 hlast
        rw [← List.take_append_drop limit above, hfront] at hasc
        rw [List.pairwise_append, List.pairwise_append] at hasc
        conv_lhs => rw [← List.take_append_drop limit above]
        have hbelow : (above.take limit).filter (fun r => decide (r.seq ≤ z.seq)) = above.take limit := by
          rw [List.filter_eq_self]
          intro r hr
          rw [decide_eq_true_eq]
          rw [hfront, List.mem_append, List.mem_singleton] at hr
          obtain hr | rfl := hr
          · exact (hasc.1.2.2 r hr z (by simp)).le
          · exact le_rfl
        have hafter : (above.drop limit).filter (fun r => decide (r.seq ≤ z.seq)) = [] := by
          rw [List.filter_eq_nil_iff]
          intro r hr
          rw [decide_eq_true_eq, not_le]
          exact hasc.2.2 z (by simp) r hr
        rw [List.filter_append, hbelow, hafter, List.append_nil]
  · cases hlast : (above.take limit).getLast? with
    | none => exact .inl rfl
    | some z =>
      exact .inr ⟨z, List.mem_of_mem_filter (List.mem_of_mem_take (List.mem_of_getLast? hlast)), rfl⟩

/-! ### A consumer in step -/

theorem EmissionRow.key_of_logKey {r r' : EmissionRow H D} (h : r.logKey = r'.logKey) :
    r.toLogEvent.op.key = r'.toLogEvent.op.key := by
  obtain ⟨-, hpair⟩ := Prod.mk.inj (toLex.injective h)
  obtain ⟨hi, hh⟩ := Prod.mk.inj (toLex.injective hpair)
  rw [LogEvent.op_key, LogEvent.op_key, hi, hh]

section InStep

variable [DecidableEq H]

/-- What a consumer was served is a legal stream, and stands as the rows up to its position do. -/
structure InStep (c : FeedConsumer H D) (rows : List (EmissionRow H D)) : Prop where
  legal : Legal ∅ (c.received.map LogEvent.op)
  stands : standing c.received = standing ((upTo c.position rows).map (·.toLogEvent))

/-- Streams that stand alike hold the same logs. -/
theorem held_of_standing {es es' : List (LogEvent H D)} (h : standing es = standing es') :
    held ∅ (es.map LogEvent.op) = held ∅ (es'.map LogEvent.op) := by
  rw [standing_eq_survivors, standing_eq_survivors] at h
  exact held_congr h

/-- The rows up to a position are a legal stream. -/
theorem Orderly.legal_upTo (h : Orderly numberOf rows) (p : ℕ) :
    Legal ∅ ((upTo p rows).map (·.toLogEvent.op)) := by
  have hlegal := h.legal
  rw [upTo_append h.ascending p, List.map_append, legal_append] at hlegal
  exact hlegal.1

/-- **A poll keeps a consumer in step**, and brings it to the end when nothing is left. -/
theorem InStep.poll {c : FeedConsumer H D} (hin : InStep c rows) (h : Orderly numberOf rows) (limit : ℕ) :
    InStep (c.poll rows limit) rows ∧ ((readStreamFeed rows c.position limit).hasMore = false →
      standing (c.poll rows limit).received = standing (rows.map (·.toLogEvent))) := by
  obtain ⟨hupTo, hentries, hmore, -⟩ := readStreamFeed_page h.ascending c.position limit
  have hstanding : standing (c.poll rows limit).received =
      standing ((upTo (c.poll rows limit).position rows).map (·.toLogEvent)) := by
    show standing (c.received ++ (readStreamFeed rows c.position limit).entries) =
      standing ((upTo (readStreamFeed rows c.position limit).position rows).map (·.toLogEvent))
    rw [hupTo, hentries, List.map_append]
    have hfold : ∀ es es' : List (LogEvent H D), standing (es ++ es') = es'.foldl standStep (standing es) :=
      fun es es' => List.foldl_append
    rw [hfold, hfold, hin.stands]
  refine ⟨⟨?_, hstanding⟩, fun hno => ?_⟩
  · have hlegal := h.legal_upTo (readStreamFeed rows c.position limit).position
    rw [hupTo, List.map_append, legal_append] at hlegal
    show Legal ∅ ((c.received ++ (readStreamFeed rows c.position limit).entries).map LogEvent.op)
    rw [List.map_append, legal_append, held_of_standing hin.stands, hentries, List.map_map, List.map_map]
    exact ⟨hin.legal, hlegal.2⟩
  · rw [hstanding]
    show standing ((upTo (readStreamFeed rows c.position limit).position rows).map _) = _
    rw [hmore, decide_eq_false_iff_not, not_lt] at hno
    rw [hupTo, List.take_of_length_le hno, ← upTo_append h.ascending]

end InStep

section Calls

variable [LinearOrder H] {query : PairCompactionQuery} {report : PairCompactionReport}

/-- A call divides no pair at a position: where it takes an entry that was served, its retraction was
served too. -/
def Undivided (p : ℕ) (rows rows' : List (EmissionRow H D)) : Prop :=
  ∀ d ∈ rows, ∀ t ∈ rows, Matched (fun r => r.toLogEvent.op) rows d t → d ∉ rows' → d.seq ≤ p → t.seq ≤ p

/-- An entry is numbered below its retraction. -/
theorem Orderly.seq_lt_of_matched (h : Orderly numberOf rows) {d t : EmissionRow H D}
    (hm : Matched (fun r => r.toLogEvent.op) rows d t) : d.seq < t.seq := by
  obtain ⟨k, as, bs, cs, rfl, -, -, -⟩ := hm
  have hasc := (List.pairwise_append.1 h.ascending).2.1
  exact (List.pairwise_cons.1 hasc).1 t (by simp)

/-- A call that divides no pair takes whole pairs of what was served. -/
theorem Orderly.drops_upTo (h : Orderly numberOf rows) {floor maxPairs p : ℕ}
    (hwhole : Undivided p rows (rows.filter fun r => r.seq ∉ (candidatesOf rows floor maxPairs).map (·.seq))) :
    Drops (fun r => r.toLogEvent.op) (upTo p rows)
      (upTo p (rows.filter fun r => r.seq ∉ (candidatesOf rows floor maxPairs).map (·.seq))) := by
  classical
  have hpaired := h.paired_candidates floor maxPairs
  set ps := pairsOf (candidatesOf rows floor maxPairs) with hps
  have hflat : (ps.flatMap fun q => [q.1, q.2]) = candidatesOf rows floor maxPairs := hpaired.flat
  have hmem : ∀ q ∈ ps, q.1 ∈ candidatesOf rows floor maxPairs ∧ q.2 ∈ candidatesOf rows floor maxPairs := by
    intro q hq
    rw [← hflat]
    exact ⟨List.mem_flatMap.2 ⟨q, hq, by simp⟩, List.mem_flatMap.2 ⟨q, hq, by simp⟩⟩
  -- an entry was served when, and only when, its retraction was
  have hboth : ∀ q ∈ ps, (q.1.seq ≤ p ↔ q.2.seq ≤ p) := by
    intro q hq
    have hm := h.matched hq
    have hlt := h.seq_lt_of_matched hm
    obtain ⟨h1, h2⟩ := hmem q hq
    refine ⟨fun hle => hwhole _ (mem_of_mem_candidatesOf h1).1 _ (mem_of_mem_candidatesOf h2).1 hm (fun hin => ?_) hle,
      fun hle => by omega⟩
    exact of_decide_eq_true (List.mem_filter.1 hin).2 (List.mem_map_of_mem h1)
  have hnodup : (candidatesOf rows floor maxPairs).Nodup :=
    ((List.perm_insertionSort _ _).nodup_iff.2 (h.nodup.filter _)).sublist (List.take_sublist _ _)
  have hserved : (upTo p rows).Nodup := h.nodup.filter _
  have hpairs : ((ps.filter fun q => decide (q.1.seq ≤ p)).flatMap fun q => [q.1, q.2]).Nodup :=
    hnodup.sublist (hflat ▸ List.filter_sublist.flatMap _)
  have hdrops := drops_filter hserved hpairs fun q hq => by
      obtain ⟨hq, hle⟩ := List.mem_filter.1 hq
      have hle := of_decide_eq_true hle
      exact (h.matched hq).filter (decide_eq_true hle) (decide_eq_true ((hboth q hq).1 hle))
  convert hdrops using 1
  unfold upTo
  rw [List.filter_filter, List.filter_filter]
  refine List.filter_congr fun r hr => ?_
  rw [Bool.and_comm]
  by_cases hle : r.seq ≤ p
  · have hcand : r ∈ candidatesOf rows floor maxPairs ↔
        r ∈ (ps.filter fun q => decide (q.1.seq ≤ p)).flatMap fun q => [q.1, q.2] := by
      rw [← hflat, List.mem_flatMap, List.mem_flatMap]
      constructor
      · rintro ⟨q, hq, hrq⟩
        refine ⟨q, List.mem_filter.2 ⟨hq, decide_eq_true ?_⟩, hrq⟩
        simp only [List.mem_cons, List.not_mem_nil, or_false] at hrq
        obtain rfl | rfl := hrq
        · exact hle
        · exact (hboth q hq).2 hle
      · rintro ⟨q, hq, hrq⟩
        exact ⟨q, List.mem_of_mem_filter hq, hrq⟩
    rw [decide_eq_true hle, Bool.and_true, Bool.and_true, decide_eq_decide, h.mem_candidates_seq hr, hcand]
  · rw [decide_eq_false hle, Bool.and_false, Bool.and_false]

/-- A log is held up to a position between its entry and the retraction of it. -/
theorem Orderly.held_upTo (h : Orderly numberOf rows) {d t : EmissionRow H D} {p : ℕ}
    (hm : Matched (fun r => r.toLogEvent.op) rows d t) (hdp : d.seq ≤ p) (htp : p < t.seq) :
    d.toLogEvent.op.key ∈ held ∅ ((upTo p rows).map (·.toLogEvent.op)) := by
  obtain ⟨k, as, bs, cs, rfl, hopd, -, hbs⟩ := hm
  have hopd : d.toLogEvent.op = .add k := hopd
  obtain ⟨-, hrest⟩ := List.pairwise_cons.1 (List.pairwise_append.1 h.ascending).2.1
  have htasc := (List.pairwise_append.1 hrest).2.1
  have htail : upTo p (t :: cs) = [] := by
    unfold upTo
    rw [List.filter_eq_nil_iff]
    intro r hr
    rw [decide_eq_true_eq, not_le]
    obtain rfl | hr := List.mem_cons.1 hr
    · exact htp
    · exact htp.trans ((List.pairwise_cons.1 htasc).1 r hr)
  have hupTo : upTo p (as ++ d :: (bs ++ t :: cs)) = upTo p as ++ d :: upTo p bs := by
    unfold upTo at htail ⊢
    rw [List.filter_append, List.filter_cons_of_pos (by simpa using hdp), List.filter_append, htail, List.append_nil]
  rw [hupTo, List.map_append, held_append, List.map_cons, hopd, held_add, mem_held_of_not_key]
  · exact Finset.mem_insert_self _ _
  · intro hmem
    rw [List.map_map] at hmem
    obtain ⟨r, hr, hk⟩ := List.mem_map.1 hmem
    exact hbs r (List.mem_of_mem_filter hr) hk

/-- Between an entry and the retraction of it there is no row of the log. -/
theorem Orderly.seq_le_of_matched (h : Orderly numberOf rows) {d t r : EmissionRow H D}
    (hm : Matched (fun r => r.toLogEvent.op) rows d t) (hr : r ∈ rows)
    (hkey : r.toLogEvent.op.key = d.toLogEvent.op.key) (hlt : d.seq < r.seq) : t.seq ≤ r.seq := by
  obtain ⟨k, as, bs, cs, rfl, hopd, -, hbs⟩ := hm
  have hopd : d.toLogEvent.op = .add k := hopd
  obtain ⟨-, hdasc, hbefore⟩ := List.pairwise_append.1 h.ascending
  have htasc := (List.pairwise_append.1 (List.pairwise_cons.1 hdasc).2).2.1
  rw [List.mem_append, List.mem_cons, List.mem_append, List.mem_cons] at hr
  obtain hlow | rfl | hmid | rfl | hhigh := hr
  · have hgt := hbefore r hlow d (by simp)
    omega
  · omega
  · rw [hopd] at hkey
    exact absurd hkey (hbs r hmid)
  · exact le_rfl
  · exact ((List.pairwise_cons.1 htasc).1 r hhigh).le

/-- A call that takes an entry takes every row of its log below the retraction of it. -/
theorem Orderly.none_left (h : Orderly numberOf rows) {floor maxPairs : ℕ} {d t r : EmissionRow H D}
    (hm : Matched (fun r => r.toLogEvent.op) rows d t) (hd : d ∈ rows) (hgone : d ∈ candidatesOf rows floor maxPairs)
    (hr : r ∈ rows) (hkey : r.toLogEvent.op.key = d.toLogEvent.op.key) (hlt : r.seq < t.seq) :
    r ∈ candidatesOf rows floor maxPairs := by
  obtain ⟨ps, rest, hlog, hps, hpaired, -⟩ := h.turns_candidates floor maxPairs d.logKey
  have hdps : d ∈ ps := by
    rw [← hps]
    exact List.mem_filter.2 ⟨hgone, by simp⟩
  have hdrem : d.removed = false := by
    obtain ⟨k, -, -, -, -, hopd, -, -⟩ := hm
    unfold LogEvent.op at hopd
    simp only at hopd
    split at hopd
    · cases hopd
    · simpa using ‹¬d.removed = true›
  -- the entry goes with the retraction that follows it
  obtain ⟨t', ht'⟩ := hpaired.exists_closing hdps hdrem
  obtain ⟨-, -, hkey', front, back, hsides⟩ := hpaired.mem ht'
  have hasc : (ps ++ rest).Pairwise (·.seq < ·.seq) := hlog ▸ h.ascending.filter _
  have ht'ps : t' ∈ ps := by rw [hsides]; simp
  have ht'rows : t' ∈ rows := by
    have hmem : t' ∈ ps ++ rest := List.mem_append_left _ ht'ps
    rw [← hlog] at hmem
    exact List.mem_of_mem_filter hmem
  have hdt' : d.seq < t'.seq := by
    have hpsasc := (List.pairwise_append.1 hasc).1
    rw [hsides] at hpsasc
    exact (List.pairwise_cons.1 (List.pairwise_append.1 hpsasc).2.1).1 t' (by simp)
  have hle := h.seq_le_of_matched hm ht'rows (EmissionRow.key_of_logKey hkey'.symm) hdt'
  have hrlog : r ∈ ps ++ rest := by
    rw [← hlog]
    rw [LogEvent.op_key, LogEvent.op_key, Prod.mk.injEq] at hkey
    exact List.mem_filter.2 ⟨hr, decide_eq_true ((EmissionRow.logKey_eq (h.heights r hr) (h.heights d hd)).2 hkey)⟩
  obtain hrps | hrrest := List.mem_append.1 hrlog
  · rw [← hps] at hrps
    exact List.mem_of_mem_filter hrps
  · have hgt := (List.pairwise_append.1 hasc).2.2 t' ht'ps r hrrest
    omega

/-- A call that divides a pair takes what the consumer still holds. -/
theorem Orderly.undivided_of_held (h : Orderly numberOf rows) {floor maxPairs p : ℕ}
    (hheld : held ∅ ((upTo p rows).map (·.toLogEvent.op)) =
      held ∅ ((upTo p (rows.filter fun r => r.seq ∉ (candidatesOf rows floor maxPairs).map (·.seq))).map
        (·.toLogEvent.op))) :
    Undivided p rows (rows.filter fun r => r.seq ∉ (candidatesOf rows floor maxPairs).map (·.seq)) := by
  intro d hd t ht hm hgone hdp
  by_contra htp
  rw [not_le] at htp
  have hin := h.held_upTo hm hdp htp
  -- a row of the log that is left would be above the retraction
  rw [hheld] at hin
  have hkeys := mem_keys_of_mem_held hin
  rw [List.map_map] at hkeys
  obtain ⟨r, hr, hrk⟩ := List.mem_map.1 hkeys
  obtain ⟨hr, hrp⟩ := List.mem_filter.1 hr
  obtain ⟨hr, hrleft⟩ := List.mem_filter.1 hr
  have hrp := of_decide_eq_true hrp
  have hdcand : d ∈ candidatesOf rows floor maxPairs := by
    rw [List.mem_filter, not_and, decide_eq_true_eq, not_not] at hgone
    exact (h.mem_candidates_seq hd).1 (hgone hd)
  have hrcand := h.none_left hm hd hdcand hr hrk (by omega)
  exact of_decide_eq_true hrleft (List.mem_map_of_mem hrcand)

/-- **A call keeps a consumer in step exactly when it divides no pair at its position.** -/
theorem in_step_iff {es : List (LogEvent H D)} {c : FeedConsumer H D} (run : TableRun numberOf es rows) (hin : InStep c rows)
    (hcall : compactEmissionPairs rows query = .ok (rows', report)) :
    InStep c rows' ↔ Undivided c.position rows rows' := by
  have h := run.onTable.orderly
  obtain ⟨rfl, -⟩ | ⟨blocks, maxPairs, -, -, -, -, rfl, -⟩ := h.call hcall
  · exact iff_of_true hin fun d hd _ _ _ hno => absurd hd hno
  constructor
  · intro hin'
    refine h.undivided_of_held ?_
    have hheld := held_of_standing (hin.stands.symm.trans hin'.stands)
    rwa [List.map_map, List.map_map] at hheld
  · intro hwhole
    have hdrops := (h.drops_upTo hwhole).survivors (h.legal_upTo c.position)
    refine ⟨hin.legal, ?_⟩
    rw [hin.stands, ← survivors_log, ← survivors_log, hdrops]

/-- A consumer that has read all three pairs may lose them. -/
theorem in_step_retractedThrice : ∃ rows report,
    compactEmissionPairs (tableOf retractedThrice) ⟨some (.blocks 12), 12, 20, none⟩ = .ok (rows, report) ∧
      report.pairsCompacted = 3 ∧ InStep (feedStart.poll (tableOf retractedThrice) 100) rows := by
  have hrun := tableRun_retractedThrice
  obtain ⟨rows, report, hcall⟩ : ∃ rows report, compactEmissionPairs (tableOf retractedThrice)
      ⟨some (.blocks 12), 12, 20, none⟩ = .ok (rows, report) := compact_ok _ rfl (by decide) rfl
  have hpairs : (compactEmissionPairs (tableOf retractedThrice) ⟨some (.blocks 12), 12, 20, none⟩).map
      (·.2.pairsCompacted) = .ok 3 := by decide
  rw [hcall] at hpairs
  have hstart : InStep feedStart (tableOf retractedThrice) := ⟨trivial, by decide⟩
  refine ⟨rows, report, hcall, Except.ok.inj hpairs, ?_⟩
  refine (in_step_iff hrun (hstart.poll hrun.onTable.orderly 100).1 hcall).2 fun d _ t ht _ _ _ => ?_
  have hall : ∀ t ∈ tableOf retractedThrice, t.seq ≤ (feedStart.poll (tableOf retractedThrice) 100).position := by decide
  exact hall t ht

/-! ### Runs -/

omit [LinearOrder H] in
theorem mark_le {n : ℕ} (h : ∀ r ∈ rows, r.seq ≤ n) : readStreamHighWaterMark rows ≤ n := by
  unfold readStreamHighWaterMark
  induction rows with
  | nil => exact Nat.zero_le n
  | cons r rows ih =>
    rw [List.map_cons, List.foldr_cons]
    exact max_le (h r List.mem_cons_self) (ih fun r' hr' => h r' (List.mem_cons_of_mem _ hr'))

/-- An append changes no entry up to a position that is not above the mark, and does not lower the mark. -/
theorem appendEmissions_upTo {p : ℕ} (h : p ≤ readStreamHighWaterMark rows) (news : List (LogEvent H D)) :
    (upTo p (appendEmissions rows news)).map (·.toLogEvent) = (upTo p rows).map (·.toLogEvent) ∧
      readStreamHighWaterMark rows ≤ readStreamHighWaterMark (appendEmissions rows news) := by
  have key : ∀ (news : List (LogEvent H D)) (rows : List (EmissionRow H D)) (n : ℕ), p ≤ n →
      (upTo p (news.foldl pushEmission (rows, n)).1).map (·.toLogEvent) = (upTo p rows).map (·.toLogEvent) ∧
      ∀ r ∈ rows, ∃ r' ∈ (news.foldl pushEmission (rows, n)).1, r'.seq = r.seq := by
    intro news
    induction news with
    | nil => exact fun rows n _ => ⟨rfl, fun r hr => ⟨r, hr, rfl⟩⟩
    | cons e news ih =>
      intro rows n hn
      obtain ⟨hupTo, hseqs⟩ := ih (pushEmission (rows, n) e).1 (n + 1) (by omega)
      have hflag : (upTo p (flagSuperseded rows e)).map (·.toLogEvent) = (upTo p rows).map (·.toLogEvent) := by
        unfold flagSuperseded upTo
        split
        · rw [List.filter_map, List.map_map]
          have hseq : ((fun r : EmissionRow H D => decide (r.seq ≤ p)) ∘ EmissionRow.flag e) =
              fun r => decide (r.seq ≤ p) := by
            funext r
            rw [Function.comp_apply, flag_seq]
          rw [hseq]
          exact List.map_congr_left fun r _ => flag_toLogEvent e r
        · rfl
      have hnew : upTo p [(⟨e, n + 1, !e.removed⟩ : EmissionRow H D)] = [] := by
        unfold upTo
        rw [List.filter_cons_of_neg, List.filter_nil]
        rw [decide_eq_true_eq]
        show ¬n + 1 ≤ p
        omega
      refine ⟨hupTo.trans ?_, fun r hr => ?_⟩
      · rw [← hflag]
        unfold pushEmission
        unfold upTo at hnew ⊢
        rw [List.filter_append, hnew, List.append_nil]
      · have hseq : r.seq ∈ (flagSuperseded rows e).map (·.seq) := by
          rw [flagSuperseded_seq]
          exact List.mem_map_of_mem hr
        obtain ⟨r', hr', heq⟩ := List.mem_map.1 hseq
        obtain ⟨r'', hr'', heq'⟩ := hseqs r' (List.mem_append_left _ hr')
        exact ⟨r'', hr'', heq'.trans heq⟩
  obtain ⟨hupTo, hseqs⟩ := key news rows (readStreamHighWaterMark rows) h
  refine ⟨hupTo, mark_le fun r hr => ?_⟩
  obtain ⟨r', hr', heq⟩ := hseqs r hr
  rw [← heq]
  exact seq_le_mark hr'

/-- **Appends, calls and polls**, in any order. A call divides no pair at the consumer's position,
and does not take the mark below it. -/
inductive FeedRun (numberOf : H → ℕ) : List (LogEvent H D) → List (EmissionRow H D) → FeedConsumer H D → Prop
  | start : FeedRun numberOf [] [] feedStart
  | append {es : List (LogEvent H D)} {rows : List (EmissionRow H D)} {c : FeedConsumer H D}
      (news : List (LogEvent H D)) : FeedRun numberOf es rows c → Heights numberOf news →
      Legal ∅ ((es ++ news).map LogEvent.op) → FeedRun numberOf (es ++ news) (appendEmissions rows news) c
  | compact {es : List (LogEvent H D)} {rows rows' : List (EmissionRow H D)} {c : FeedConsumer H D}
      {query : PairCompactionQuery} {report : PairCompactionReport} : FeedRun numberOf es rows c →
      compactEmissionPairs rows query = .ok (rows', report) → Undivided c.position rows rows' →
      c.position ≤ readStreamHighWaterMark rows' → FeedRun numberOf es rows' c
  | poll {es : List (LogEvent H D)} {rows : List (EmissionRow H D)} {c : FeedConsumer H D} (limit : ℕ) :
      FeedRun numberOf es rows c → FeedRun numberOf es rows (c.poll rows limit)

/-- A consumer stays in step, and not above the mark. -/
theorem FeedRun.inStep {es : List (LogEvent H D)} {c : FeedConsumer H D} (run : FeedRun numberOf es rows c) :
    TableRun numberOf es rows ∧ InStep c rows ∧ c.position ≤ readStreamHighWaterMark rows := by
  induction run with
  | start => exact ⟨.start, ⟨trivial, rfl⟩, le_rfl⟩
  | append news _ hn hlegal ih =>
    obtain ⟨run, hin, hle⟩ := ih
    obtain ⟨hupTo, hmark⟩ := appendEmissions_upTo hle news
    exact ⟨run.append news hn hlegal, ⟨hin.legal, by rw [hupTo]; exact hin.stands⟩, hle.trans hmark⟩
  | compact _ hcall hwhole hmark ih =>
    obtain ⟨run, hin, -⟩ := ih
    exact ⟨run.compact hcall, (in_step_iff run hin hcall).2 hwhole, hmark⟩
  | @poll _ rows c limit _ ih =>
    obtain ⟨run, hin, hle⟩ := ih
    refine ⟨run, (hin.poll run.onTable.orderly limit).1, ?_⟩
    show (readStreamFeed rows c.position limit).position ≤ _
    obtain ⟨-, -, -, hsame | ⟨z, hz, hseq⟩⟩ := readStreamFeed_page run.onTable.orderly.ascending c.position limit
    · rw [hsame]
      exact hle
    · rw [hseq]
      exact seq_le_mark hz

/-- **A consumer no call is ahead of** is served a legal stream, and once a page says that nothing is
left it holds exactly what stands of the whole stream. -/
theorem feed_in_step {es : List (LogEvent H D)} {c : FeedConsumer H D} (run : FeedRun numberOf es rows c) :
    Legal ∅ (c.received.map LogEvent.op) ∧ ∀ limit, (readStreamFeed rows c.position limit).hasMore = false →
      standing (c.poll rows limit).received = standing es := by
  obtain ⟨run, hin, -⟩ := run.inStep
  refine ⟨hin.legal, fun limit hno => ?_⟩
  rw [(hin.poll run.onTable.orderly limit).2 hno]
  exact run.onTable.left

/-- An entry at a height. -/
def entryAt (n : ℕ) : LogEvent ℕ Unit := ⟨n, n, 0, false, ()⟩

/-- Two polls, with a call and an append between them. -/
theorem feed_in_step_retractedThrice : ∃ rows report,
    compactEmissionPairs (tableOf (retractedThrice ++ [entryAt 9])) ⟨some (.blocks 12), 12, 20, none⟩ =
      .ok (rows, report) ∧
    standing (((feedStart.poll (tableOf (retractedThrice ++ [entryAt 9])) 100).poll
      (appendEmissions rows [entryAt 10]) 100).received) =
        [entryAt 8, entryAt 9, entryAt 10] := by
  obtain ⟨rows, report, hcall⟩ : ∃ rows report, compactEmissionPairs (tableOf (retractedThrice ++ [entryAt 9]))
      ⟨some (.blocks 12), 12, 20, none⟩ = .ok (rows, report) := compact_ok _ rfl (by decide) rfl
  refine ⟨rows, report, hcall, ?_⟩
  have hlegal : Legal ∅ ((retractedThrice ++ [entryAt 9] ++ [entryAt 10]).map LogEvent.op) := by
    show Legal ∅ [Op.add ((7 : ℕ), (0 : ℕ)), .add (7, 1), .retract (7, 0), .retract (7, 1), .add (8, 0), .add (7, 0),
      .retract (7, 0), .add (9, 0), .add (10, 0)]
    simp [Legal]
  have hbefore : Legal ∅ (([] ++ (retractedThrice ++ [entryAt 9])).map LogEvent.op) := by
    rw [List.map_append] at hlegal
    exact (legal_append.1 hlegal).1
  have hstart : FeedRun id ([] : List (LogEvent ℕ Unit)) [] feedStart := .start
  have hfirst := (hstart.append _ (by unfold Heights; decide) hbefore).poll 100
  have hrows : (compactEmissionPairs (tableOf (retractedThrice ++ [entryAt 9]))
      ⟨some (.blocks 12), 12, 20, none⟩).map (·.1) = .ok [⟨entryAt 8, 5, true⟩, ⟨entryAt 9, 8, true⟩] := by
    decide
  rw [hcall] at hrows
  obtain rfl := Except.ok.inj hrows
  have hcalled := hfirst.compact hcall (fun d _ t ht _ _ _ => by
    have hall : ∀ t ∈ tableOf (retractedThrice ++ [entryAt 9]), t.seq ≤ 8 := by decide
    exact hall t ht) (by decide)
  exact (feed_in_step (hcalled.append [entryAt 10] (by unfold Heights; decide) hlegal)).2 100 (by decide)

end Calls

end Etherfold
