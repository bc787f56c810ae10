import Etherfold.Chain.Linked
import Etherfold.Ledger.Cancel

/-!
# The surviving blocks of a stream

The blocks a stream has added and not taken back, in the order they were last added.

* `standingBlocks`: the surviving blocks.
* `survivors_emit`: **the surviving entries are the logs of the surviving blocks**.
* `Grounded`: a live block brings its past, and was added after it.
* `standing_eq`: **up to where the last cycle read, they are the blocks of the chain**, in the order
  of the chain.
-/

namespace Etherfold

open Ledger

variable {H D : Type} {C : Chain H D} [DecidableEq H]

/-- The blocks that stand, in the order they were last added. -/
def standingBlocks (ops : List (Op H)) : List H := (survivors id ops).map Op.key

/-! ### Blocks and their logs -/

/-- Additions survive, after what survived before them. -/
theorem survivors_append_adds {E α : Type*} [DecidableEq α] {op : E → Op α} (es : List E) {bs : List E}
    (h : ∀ e ∈ bs, ∃ k, op e = .add k) : survivors op (es ++ bs) = survivors op es ++ bs := by
  induction bs using List.reverseRecOn with
  | nil => simp
  | append_singleton bs e ih =>
    obtain ⟨k, hk⟩ := h e (by simp)
    rw [← List.append_assoc, survivors_concat, hk, ih fun e' he' => h e' (by simp [he']), List.append_assoc]

/-- Retractions leave what they do not name. -/
theorem survivors_append_retracts {E α : Type*} [DecidableEq α] {op : E → Op α} (es : List E) {bs : List E}
    (h : ∀ e ∈ bs, ∃ k, op e = .retract k) :
    survivors op (es ++ bs) = (survivors op es).filter fun e => (op e).key ∉ bs.map fun b => (op b).key := by
  induction bs using List.reverseRecOn with
  | nil => simp
  | append_singleton bs e ih =>
    obtain ⟨k, hk⟩ := h e (by simp)
    rw [← List.append_assoc, survivors_concat, hk, ih fun e' he' => h e' (by simp [he'])]
    dsimp only
    rw [List.filter_filter]
    apply List.filter_congr
    intro e' _
    simp [hk, and_comm]

theorem standingBlocks_append_adds (ops : List (Op H)) (xs : List H) :
    standingBlocks (ops ++ xs.map .add) = standingBlocks ops ++ xs := by
  unfold standingBlocks
  rw [survivors_append_adds ops, List.map_append, List.map_map]
  · congr 1
    exact List.map_id _
  · intro o ho
    obtain ⟨x, -, rfl⟩ := List.mem_map.1 ho
    exact ⟨x, rfl⟩

theorem standingBlocks_append_retracts (ops : List (Op H)) (xs : List H) :
    standingBlocks (ops ++ xs.map .retract) = (standingBlocks ops).filter (· ∉ xs) := by
  have hkeys : ((xs.map Op.retract).map fun b : Op H => (id b).key) = xs := by
    rw [List.map_map]
    exact List.map_id _
  unfold standingBlocks
  rw [survivors_append_retracts ops, hkeys, List.filter_map]
  · rfl
  · intro o ho
    obtain ⟨x, -, rfl⟩ := List.mem_map.1 ho
    exact ⟨x, rfl⟩

theorem mem_standingBlocks {ops : List (Op H)} {x : H} : x ∈ standingBlocks ops ↔ x ∈ held ∅ ops := by
  have h := @mem_survivors_key _ _ _ id ops x
  rwa [List.map_id] at h

omit [DecidableEq H] in
theorem op_key_of_mem {x : H} {e : LogEvent H D} (he : e ∈ C.logsOf x) : e.op = .add (x, e.logIndex) := by
  unfold LogEvent.op
  rw [C.log_live x e he, C.log_hash x e he]
  rfl

omit [DecidableEq H] in
/-- What holds alike of the logs of a block chooses blocks. -/
theorem filter_logs {p : LogEvent H D → Bool} {q : H → Bool} (h : ∀ y, ∀ e ∈ C.logsOf y, p e = q y) (l : List H) :
    (l.flatMap C.logsOf).filter p = (l.filter q).flatMap C.logsOf := by
  induction l with
  | nil => rfl
  | cons y l ih =>
    rw [List.flatMap_cons, List.filter_append, ih, List.filter_cons]
    cases hq : q y with
    | true =>
      have hall : (C.logsOf y).filter p = C.logsOf y := by
        rw [List.filter_eq_self]
        intro e he
        rw [h y e he, hq]
      rw [hall]
      rfl
    | false =>
      have hnone : (C.logsOf y).filter p = [] := by
        rw [List.filter_eq_nil_iff]
        intro e he
        rw [h y e he, hq]
        exact Bool.false_ne_true
      rw [hnone]
      rfl

/-- **The surviving entries of a stream are the logs of its surviving blocks.** -/
theorem survivors_emit (ops : List (Op H)) :
    survivors LogEvent.op (ops.flatMap C.emit) = (standingBlocks ops).flatMap C.logsOf := by
  induction ops using List.reverseRecOn with
  | nil => rfl
  | append_singleton ops o ih =>
    rw [List.flatMap_append, List.flatMap_singleton]
    cases o with
    | add x =>
      have hlast := standingBlocks_append_adds ops [x]
      rw [List.map_singleton] at hlast
      rw [hlast, List.flatMap_append, List.flatMap_singleton, ← ih]
      apply survivors_append_adds
      intro e he
      exact ⟨_, op_key_of_mem he⟩
    | retract x =>
      have hlast := standingBlocks_append_retracts ops [x]
      rw [List.map_singleton] at hlast
      rw [hlast, survivors_append_retracts, ih]
      · -- what goes of the logs is all of the block's, and no other
        have hkeys : ((C.emit (.retract x)).map fun b => (LogEvent.op b).key) = C.logKeys x := by
          unfold Chain.emit Chain.logKeys
          rw [List.map_map]
          rfl
        rw [hkeys]
        apply filter_logs
        intro y e he
        rw [op_key_of_mem he, decide_eq_decide, Op.key_add, List.mem_singleton, not_iff_not]
        constructor
        · exact fun hin => C.logKeys_fst hin
        · intro hy
          exact List.mem_map.2 ⟨e, hy ▸ he, by rw [C.log_hash y e he]⟩
      · intro e he
        obtain ⟨e', -, rfl⟩ := List.mem_map.1 he
        exact ⟨_, rfl⟩

/-! ### The order of the surviving blocks -/

variable {parent : H → H} {v : View C} {a b d f : ℕ} {ws : List H} {c : LastSync H D} {ops : List (Op H)}

/-- **A live block brings its past**, and none of its past is added after it. -/
structure Grounded (C : Chain H D) (parent : H → H) (d : ℕ) (ops : List (Op H)) : Prop where
  past : ∀ y ∈ held ∅ ops, ∀ x, Under C parent d x y → x ∈ held ∅ ops
  order : (standingBlocks ops).Pairwise fun y x => ¬Under C parent d x y

/-- **One cycle keeps the blocks grounded.** -/
theorem Grounded.delta (h : Grounded C parent d ops) (tr : Tracked C d f c ws (held ∅ ops))
    (st : Settled v d (getFromBlock c d f) (held ∅ ops)) (ha : a = getFromBlock c d f) (hb : b ≤ v.tip)
    (hlink : v.Linked parent) : Grounded C parent d (ops ++ (v.delta a b ws).ops) := by
  -- what is below a block that stays stays
  have hstays : ∀ y ∈ held ∅ ops, y ∉ (v.delta a b ws).retracted → ∀ x, Under C parent d x y →
      x ∈ held ∅ ops ∧ x ∉ (v.delta a b ws).retracted := by
    intro y hy hnot x hunder
    refine ⟨h.past y hy x hunder, fun hx => hnot ?_⟩
    exact retracted_above tr ha hx hy hunder.2.2.1
  constructor
  · intro y hy x hunder
    rw [held_append] at hy ⊢
    rcases mem_held_delta.1 hy with ⟨hyL, hnot⟩ | hadd
    · exact mem_held_delta.2 (.inl (hstays y hyL hnot x hunder))
    · obtain ⟨⟨hon, -, hyb⟩, -⟩ := (mem_added hb).1 hadd
      have hle := hunder.2.2.1
      rw [delta_settled tr st ha hb x (by omega)]
      exact (hlink.under_iff hon hle).1 hunder
  · have hblocks : standingBlocks (ops ++ (v.delta a b ws).ops) =
        (standingBlocks ops).filter (· ∉ (v.delta a b ws).retracted) ++ (v.delta a b ws).added := by
      unfold Delta.ops
      rw [← List.append_assoc, standingBlocks_append_adds, standingBlocks_append_retracts]
    rw [hblocks, List.pairwise_append]
    refine ⟨h.order.filter _, ?_, ?_⟩
    · apply (added_ascending hb).imp
      intro y x hlt hunder
      have hle := hunder.2.2.1
      omega
    · intro y hy x hx hunder
      obtain ⟨hystands, hynot⟩ := List.mem_filter.1 hy
      have hlive := hstays y (mem_standingBlocks.1 hystands) (of_decide_eq_true hynot) x hunder
      obtain ⟨⟨-, hge, -⟩, hnotkept⟩ := (mem_added hb).1 hx
      -- a live block from the resume point on is in the window
      rcases (mem_live_iff (v := v) (b := b) tr ha).1 hlive with ⟨-, hlt⟩ | ⟨hkept, -⟩
      · omega
      · exact hnotkept hkept

variable {ks : List (Cycle C)} {k : Cycle C}

/-- **Every run over linked views keeps its blocks grounded.** -/
theorem run_grounded (run : Run d f ks) (hlink : ∀ k ∈ ks, k.view.Linked parent) :
    ∃ ops ws, RunState d f ks ops ws ∧ Grounded C parent d ops := by
  induction run with
  | start => exact ⟨[], [], runState_start, ⟨by simp, by simp [standingBlocks, survivors]⟩⟩
  | @cycle ks v b r run follows from_le le_tip derived ih =>
    obtain ⟨ops, ws, inv, hg⟩ := ih fun k hk => hlink k (by simp [hk])
    refine ⟨_, _, (inv.step rfl follows from_le le_tip derived).2, ?_⟩
    exact hg.delta inv.tracked (inv.settled follows).1 rfl le_tip (hlink _ (List.mem_append_right _ (List.mem_singleton_self _)))

/-- **Up to where the last cycle read, the surviving blocks are those of the chain**, in its order. -/
theorem standing_eq (inv : RunState d f ks ops ws) (hg : Grounded C parent d ops) (hk : k ∈ ks.getLast?)
    (hlink : k.view.Linked parent) {top : ℕ} (htop : top ≤ k.toBlock) :
    (standingBlocks ops).filter (C.numberOf · ≤ top) = k.view.bearing d top := by
  obtain ⟨-, -, -, hle⟩ := inv.cursor k hk
  have hon : ∀ x, x ∈ (standingBlocks ops).filter (C.numberOf · ≤ top) ↔ x ∈ k.view.bearing d top := by
    intro x
    rw [List.mem_filter, decide_eq_true_eq, mem_standingBlocks, View.mem_bearing (by omega)]
    constructor
    · intro h
      obtain ⟨hx, hd⟩ := (inv.exact k hk x (by omega)).1 h.1
      exact ⟨hx, hd, h.2⟩
    · intro h
      exact ⟨(inv.exact k hk x (by omega)).2 ⟨h.1, h.2.1⟩, h.2.2⟩
  have hasc : Ascending C ((standingBlocks ops).filter (C.numberOf · ≤ top)) := by
    apply (hg.order.filter _).imp_of_mem
    intro y x hy hx hnot
    have hyon := (View.mem_bearing (by omega)).1 ((hon y).1 hy)
    have hxon := (View.mem_bearing (by omega)).1 ((hon x).1 hx)
    by_contra hlt
    exact hnot ((hlink.under_iff hyon.1 (by omega)).2 ⟨hxon.1, hxon.2.1⟩)
  have hbearing : Ascending C (k.view.bearing d top) := View.bearing_sorted (by omega)
  have hperm := (List.perm_ext_iff_of_nodup hasc.nodup hbearing.nodup).2 hon
  exact hperm.eq_of_pairwise (fun x y _ _ hxy hyx => absurd (lt_trans hxy hyx) (lt_irrefl _)) hasc hbearing

end Etherfold
