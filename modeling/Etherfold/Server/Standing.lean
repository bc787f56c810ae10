import Etherfold.Ledger.Page
import Etherfold.Chain.Linked
import Etherfold.Server.Canonical

/-!
# The canonical view of a run

* `standing_emit`: what stands after a ledger of blocks.
* `Stack`: the state of a linked run whose reorgs take back their lowest changed
  height, and `Stack.step`: one cycle keeps it.
* `Stack.page`: **a page of the view takes a reader from one position to the next**.
-/

namespace Etherfold

open Ledger

variable {H D : Type} [DecidableEq H] {C : Chain H D}

/-! ### What stands after a ledger of blocks -/

theorem foldl_standStep_live (l es : List (LogEvent H D)) (h : ∀ e ∈ es, e.removed = false) :
    es.foldl standStep l = l ++ es := by
  induction es generalizing l with
  | nil => simp
  | cons e es ih =>
    have he : standStep l e = l ++ [e] := by
      unfold standStep
      rw [if_neg (by rw [h e List.mem_cons_self]; exact Bool.false_ne_true)]
    rw [List.foldl_cons, he, ih _ fun e' h' => h e' (List.mem_cons_of_mem _ h'), List.append_assoc]
    rfl

theorem foldl_standStep_removed (l es : List (LogEvent H D)) (h : ∀ e ∈ es, e.removed = true) :
    es.foldl standStep l = l.filter fun x => ∀ e ∈ es, ¬x.SameLog e := by
  induction es generalizing l with
  | nil => simp
  | cons e es ih =>
    have he : standStep l e = l.filter (¬·.SameLog e) := by
      unfold standStep
      rw [if_pos (h e List.mem_cons_self)]
    rw [List.foldl_cons, he, ih _ fun e' h' => h e' (List.mem_cons_of_mem _ h'), List.filter_filter]
    refine List.filter_congr fun x _ => ?_
    simp only [List.forall_mem_cons, Bool.decide_and, Bool.and_comm]

/-- The entries that stand are logs of live blocks, each once. -/
theorem standing_emit (ops : List (Op H)) (hleg : Legal ∅ ops) :
    (∀ e, e ∈ standing (ops.flatMap C.emit) ↔ e.blockHash ∈ held ∅ ops ∧ e ∈ C.logsOf e.blockHash) ∧
      (standing (ops.flatMap C.emit)).Nodup := by
  induction ops using List.reverseRecOn with
  | nil => exact ⟨by simp [standing], by simp [standing]⟩
  | append_singleton ops o ih =>
    rw [legal_append] at hleg
    obtain ⟨hmem, hnodup⟩ := ih hleg.1
    have hfold : standing ((ops ++ [o]).flatMap C.emit) =
        (C.emit o).foldl standStep (standing (ops.flatMap C.emit)) := by
      simp [standing, List.flatMap_append]
    rw [hfold, held_append]
    set l := standing (ops.flatMap C.emit)
    set S := held ∅ ops
    cases o with
    | add x =>
      have hx : x ∉ S := hleg.2.1
      have hlive := C.log_live x
      have hidx : (C.logsOf x).Nodup := (C.log_index x).of_map
      rw [Chain.emit, foldl_standStep_live l _ hlive]
      refine ⟨fun e => ?_, ?_⟩
      · rw [List.mem_append, hmem, held_add, held_nil, Finset.mem_insert]
        constructor
        · rintro (⟨hS, he⟩ | he)
          · exact ⟨Or.inr hS, he⟩
          · have heq := C.log_hash x e he
            exact ⟨Or.inl heq, heq ▸ he⟩
        · rintro ⟨rfl | hS, he⟩
          · exact Or.inr he
          · exact Or.inl ⟨hS, he⟩
      · refine List.nodup_append.2 ⟨hnodup, hidx, fun e he e' he' heq => hx ?_⟩
        rw [← C.log_hash x e' he', ← heq]
        exact ((hmem e).1 he).1
    | retract x =>
      have hrem : ∀ e ∈ (C.logsOf x).map LogEvent.retracted, e.removed = true := by
        intro e he
        obtain ⟨e', -, rfl⟩ := List.mem_map.1 he
        rfl
      rw [Chain.emit, foldl_standStep_removed l _ hrem]
      refine ⟨fun e => ?_, hnodup.filter _⟩
      rw [List.mem_filter, hmem, held_retract, held_nil, Finset.mem_erase, decide_eq_true_eq]
      constructor
      · rintro ⟨⟨hS, he⟩, hno⟩
        refine ⟨⟨fun heq => ?_, hS⟩, he⟩
        -- a log of `x` is taken back by its own retraction
        exact hno e.retracted (List.mem_map.2 ⟨e, heq ▸ he, rfl⟩) ⟨rfl, rfl⟩
      · rintro ⟨⟨hne, hS⟩, he⟩
        refine ⟨⟨hS, he⟩, fun e' he' hsame => hne ?_⟩
        obtain ⟨e'', he'', rfl⟩ := List.mem_map.1 he'
        rw [hsame.1]
        exact C.log_hash x e'' he''

/-! ### The state of a linked run -/

variable {parent : H → H} {d f : ℕ} {ks : List (Cycle C)} {ops : List (Op H)} {ws : List H}

/-- The state of a run over linked views whose reorgs take back their lowest changed
height. -/
structure Stack (parent : H → H) (d f : ℕ) (ks : List (Cycle C)) (ops : List (Op H)) (ws : List H) :
    Prop where
  run : RunState d f ks ops ws
  rooted : Rooted C parent d (coveredBelow ks) (held ∅ ops)

theorem stack_start : Stack parent d f ([] : List (Cycle C)) [] [] :=
  ⟨runState_start, by simp, by simp⟩

/-- **One more cycle of a linked run.** It takes back and adds blocks, keeps the state,
and changes nothing below a covered height that it takes nothing back under. -/
theorem Stack.step {v : View C} {b : ℕ} {r : Appended H D} (inv : Stack parent d f ks ops ws)
    (hlink : v.Linked parent) (follows : ∀ k ∈ ks.getLast?, Follows f k.view v)
    (from_le : getFromBlock (cursorAfter (deltas ks)) d f ≤ b) (le_tip : b ≤ v.tip)
    (derived : generateStreamToAppend (cursorAfter (deltas ks)) d
      (v.getLogs (getFromBlock (cursorAfter (deltas ks)) d f) b)
      ⟨v.tip, getFromBlock (cursorAfter (deltas ks)) d f, b, f⟩ = .ok r)
    (hfork : ForkRetracted ks ⟨v, b, r⟩) :
    ∃ δ ws', Stack parent d f (ks ++ [⟨v, b, r⟩]) (ops ++ Delta.ops δ) ws' ∧
      r.eventStream = δ.ops.flatMap C.emit ∧ (∀ y ∈ δ.retracted, C.Bearing y) ∧
      (∀ x, x ∈ held ∅ ops → x ∉ held ∅ (ops ++ δ.ops) → x ∈ δ.retracted) ∧
      ∀ F, F ≤ coveredBelow ks → (∀ y ∈ δ.retracted, F ≤ C.numberOf y) →
        F ≤ coveredBelow (ks ++ [⟨v, b, r⟩]) ∧
          ∀ x, C.numberOf x < F → (x ∈ held ∅ (ops ++ δ.ops) ↔ x ∈ held ∅ ops) := by
  set a := getFromBlock (cursorAfter (deltas ks)) d f with ha
  obtain ⟨hstream, hstate⟩ := inv.run.step ha follows from_le le_tip derived
  obtain ⟨hset, -⟩ := inv.run.settled follows
  have tr := inv.run.tracked
  have hret : ∀ y ∈ (v.delta a b ws).retracted, C.Bearing y := fun y hy =>
    tr.bearing y (tr.live y (mem_retracted_ge tr.ascending hy).1)
  have hadd : ∀ x ∈ (v.delta a b ws).added, C.Bearing x := fun x hx =>
    ((mem_added le_tip).1 hx).1.1.1
  have hfork' := hfork.delta hstream hadd hret
  have hbound : coveredBelow (ks ++ [⟨v, b, r⟩]) = nextBound (coveredBelow ks) b (v.delta a b ws) :=
    coveredBelow_delta hstream hret
  have hroot := inv.rooted.delta tr ha le_tip hfork' hlink hset
  have hheld : held ∅ (ops ++ (v.delta a b ws).ops) = held (held ∅ ops) (v.delta a b ws).ops :=
    held_append _ _ _
  refine ⟨v.delta a b ws, v.window a b f ws, ⟨hstate, ?_⟩, hstream, hret, fun x hx hnot => ?_, fun F hF hFr => ?_⟩
  · rw [hheld, hbound]
    exact hroot
  · rw [hheld, mem_held_delta, not_or, not_and, not_not] at hnot
    exact hnot.1 hx
  · rw [hheld, hbound]
    exact rooted_below tr hfork' hF hFr

/-- The entries that stand are the logs of the live blocks. -/
theorem Stack.mem_standing (inv : Stack parent d f ks ops ws) (e : LogEvent H D) :
    e ∈ standing (emitted (deltas ks)) ↔ e.blockHash ∈ held ∅ ops ∧ e ∈ C.logsOf e.blockHash := by
  rw [inv.run.stream]
  exact (standing_emit ops inv.run.legal).1 e

/-- Standing entries are at positions of their own. -/
theorem Stack.keys (inv : Stack parent d f ks ops ws) :
    (standing (emitted (deltas ks))).Pairwise fun e e' => e.key ≠ e'.key := by
  have hnodup : (standing (emitted (deltas ks))).Nodup := by
    rw [inv.run.stream]
    exact (standing_emit ops inv.run.legal).2
  refine hnodup.pairwise_of_forall_ne fun e he e' he' hne hkey => hne ?_
  obtain ⟨hlive, hlog⟩ := (inv.mem_standing e).1 he
  obtain ⟨hlive', hlog'⟩ := (inv.mem_standing e').1 he'
  have hpair := Prod.mk.inj (toLex.injective hkey)
  -- one live block at the height, and one log of it under the index
  have hblock : e.blockHash = e'.blockHash := by
    refine inv.rooted.eq_of_number hlive hlive' ?_
    rw [← C.log_number _ e hlog, ← C.log_number _ e' hlog', hpair.1]
  have hindex : e.logIndex = e'.logIndex := by exact_mod_cast hpair.2
  rw [← hblock] at hlog'
  exact List.inj_on_of_nodup_map (C.log_index _) hlog hlog' hindex

/-! ### Pages -/

/-- The standing entries after a position, at or below the gate, in chain order. -/
def viewAfter (es : List (LogEvent H D)) (gate : ℕ) (after : CanonicalPosition) : List (LogEvent H D) :=
  ((standing es).filter fun e => decide (e.blockNumber ≤ gate) &&
      (decide (after.blockNumber < e.blockNumber) ||
        decide (e.blockNumber = after.blockNumber) && decide (after.logIndex < e.logIndex))).insertionSort
    fun e e' => e.key ≤ e'.key

theorem rowsAfter_tableOf (es : List (LogEvent H D)) (gate : ℕ) (after : CanonicalPosition) :
    (rowsAfter (tableOf es) gate after).map (·.toLogEvent) = viewAfter es gate after := by
  unfold rowsAfter viewAfter
  rw [List.map_insertionSort (fun r r' => r.key ≤ r'.key) (fun e e' => e.key ≤ e'.key)
    (fun r : EmissionRow H D => r.toLogEvent) _ (fun _ _ _ _ => Iff.rfl)]
  congr 1
  rw [← aliveRows_tableOf]
  unfold aliveRows
  rw [List.filter_map, List.filter_filter]
  congr 1
  refine List.filter_congr fun r _ => ?_
  simp only [Function.comp_apply, Bool.and_assoc, Bool.and_comm]

/-- A page of a stream's table. -/
theorem readCanonicalView_tableOf (es : List (LogEvent H D)) (gate : ℕ) (after : CanonicalPosition)
    (limit : ℕ) :
    (readCanonicalView (tableOf es) gate after limit).entries = (viewAfter es gate after).take limit ∧
      (readCanonicalView (tableOf es) gate after limit).last =
        ((viewAfter es gate after).take limit).getLast?.map fun e =>
          (⟨e.blockNumber, e.logIndex⟩, e.blockHash) := by
  unfold readCanonicalView
  dsimp only
  rw [List.take_take, Nat.min_eq_left (Nat.le_succ limit), List.map_take, rowsAfter_tableOf]
  refine ⟨rfl, ?_⟩
  rw [← rowsAfter_tableOf, ← List.map_take, List.getLast?_map, Option.map_map]
  rfl

omit [DecidableEq H] in
theorem position_lt_iff {p : CanonicalPosition} {e : LogEvent H D} : p.key < e.key ↔
    p.blockNumber < e.blockNumber ∨ (e.blockNumber = p.blockNumber ∧ p.logIndex < e.logIndex) := by
  unfold CanonicalPosition.key LogEvent.key
  rw [Prod.Lex.toLex_lt_toLex]
  exact or_congr Iff.rfl (and_congr eq_comm Iff.rfl)

omit [DecidableEq H] in
/-- Positions ascend with heights. -/
theorem number_le_of_key_le {e e' : LogEvent H D} (h : e.key ≤ e'.key) : e.blockNumber ≤ e'.blockNumber := by
  unfold LogEvent.key at h
  rw [Prod.Lex.toLex_le_toLex] at h
  omega

/-- The rows of a page are the next ones of the view. -/
theorem Stack.after (inv : Stack parent d f ks ops ws) (gate : ℕ) (p : CanonicalPosition) :
    Paging.After LogEvent.key (· ∈ standing (emitted (deltas ks))) (·.blockNumber ≤ gate) p.key
      (viewAfter (emitted (deltas ks)) gate p) := by
  refine ⟨Paging.sorted_insertionSort (inv.keys.filter _), fun e => ?_⟩
  unfold viewAfter
  rw [List.mem_insertionSort, List.mem_filter, position_lt_iff]
  simp only [Bool.and_eq_true, Bool.or_eq_true, decide_eq_true_eq]

/-- **A page takes a reader from one position to the next.** -/
theorem Stack.page (inv : Stack parent d f ks ops ws) {entries : List (LogEvent H D)}
    {p : CanonicalPosition}
    (h : Paging.Upto LogEvent.key (· ∈ standing (emitted (deltas ks))) p.key entries) (gate limit : ℕ) :
    Paging.Upto LogEvent.key (· ∈ standing (emitted (deltas ks)))
      ((((viewAfter (emitted (deltas ks)) gate p).take limit).getLast?.map LogEvent.key).getD p.key)
      (entries ++ (viewAfter (emitted (deltas ks)) gate p).take limit) :=
  h.append_page (inv.after gate p) (fun _ _ hz hle => (number_le_of_key_le hle).trans hz) limit

end Etherfold
