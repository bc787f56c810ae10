import Mathlib.Data.List.TakeWhile
import Etherfold.Ledger.Expand
import Etherfold.Chain.View

/-!
# Runs of the indexing cycle

* `Follows`: how far two successive views may differ.
* `Run`: the runs of the cycle, fetch from the resume point, derive, store.
* `Tracked`: what ties the unconfirmed window to what is live.
* `delta_tracked`: one cycle keeps it and makes the live blocks exact.
* `run_exact`: **after every cycle of every run the fold of the emitted entries is
  the chain**, up to the block the cursor reports.
-/

namespace Etherfold

open Ledger

variable {H D : Type} {C : Chain H D}

/-- The next view: no lower tip, and the same blocks below the finalized height. -/
structure Follows (f : ℕ) (u v : View C) : Prop where
  tip_le : u.tip ≤ v.tip
  agree : ∀ n, n + f < u.tip → v.hashAt n = u.hashAt n

/-- How an entry changes a set of logs. -/
def LogEvent.op (e : LogEvent H D) : Op (H × ℕ) :=
  if e.removed then .retract (e.blockHash, e.logIndex) else .add (e.blockHash, e.logIndex)

theorem LogEvent.op_key (e : LogEvent H D) : e.op.key = (e.blockHash, e.logIndex) := by
  unfold LogEvent.op
  split <;> rfl

/-- The names of the logs of a block. -/
def Chain.logKeys (C : Chain H D) (x : H) : List (H × ℕ) :=
  (C.logsOf x).map fun e => (e.blockHash, e.logIndex)

theorem Chain.logKeys_fst {x : H} {k : H × ℕ} (hk : k ∈ C.logKeys x) : k.1 = x := by
  obtain ⟨e, he, rfl⟩ := List.mem_map.1 hk
  exact C.log_hash x e he

theorem Chain.logKeys_apart : ∀ x y, ∀ z ∈ C.logKeys x, z ∈ C.logKeys y → x = y :=
  fun _ _ _ hx hy => (C.logKeys_fst hx).symm.trans (C.logKeys_fst hy)

theorem Chain.logKeys_nodup (x : H) : (C.logKeys x).Nodup := by
  have hindex : ((C.logKeys x).map Prod.snd).Nodup := by
    rw [Chain.logKeys, List.map_map]
    exact C.log_index x
  exact hindex.of_map _

/-- The entries of a block change the logs as the block's entry, expanded. -/
theorem Chain.emit_op (o : Op H) : (C.emit o).map LogEvent.op = expand C.logKeys o := by
  cases o with
  | add x =>
    rw [emit, expand, Chain.logKeys, List.map_map]
    refine List.map_congr_left fun e he => ?_
    simp [LogEvent.op, C.log_live x e he]
  | retract x =>
    rw [emit, expand, Chain.logKeys, List.map_map, List.map_map]
    rfl

theorem Chain.map_op_emit (ops : List (Op H)) :
    (ops.flatMap C.emit).map LogEvent.op = ops.flatMap (expand C.logKeys) := by
  rw [List.map_flatMap]
  simp only [Chain.emit_op]

/-- One cycle: the view the fetch read, how far it read, and what was derived. -/
structure Cycle (C : Chain H D) where
  view : View C
  toBlock : ℕ
  appended : Appended H D

/-- The deltas of a run. -/
def deltas (ks : List (Cycle C)) : List (Appended H D) := ks.map (·.appended)

@[simp] theorem deltas_concat (ks : List (Cycle C)) (k : Cycle C) :
    deltas (ks ++ [k]) = deltas ks ++ [k.appended] := by
  simp [deltas]

variable [DecidableEq H]

/-- **The fold of a stream**: an entry adds its log, a removed entry deletes it. -/
def foldEvents (S : Finset (H × ℕ)) (es : List (LogEvent H D)) : Finset (H × ℕ) :=
  held S (es.map LogEvent.op)

theorem foldEvents_emit (S : Finset H) (ops : List (Op H)) :
    foldEvents (parts C.logKeys S) (ops.flatMap C.emit) = parts C.logKeys (held S ops) := by
  unfold foldEvents
  rw [Chain.map_op_emit, held_expand]
  intro x y z hx hy
  exact (C.logKeys_fst hx).symm.trans (C.logKeys_fst hy)

/-- **Runs of the cycle**: fetch from where the cursor resumes up to any block the
node has, derive the delta, store the new cursor. -/
inductive Run (d f : ℕ) : List (Cycle C) → Prop
  | start : Run d f []
  | cycle {ks : List (Cycle C)} {v : View C} {b : ℕ} {r : Appended H D} (run : Run d f ks)
      (follows : ∀ k ∈ ks.getLast?, Follows f k.view v)
      (from_le : getFromBlock (cursorAfter (deltas ks)) d f ≤ b) (le_tip : b ≤ v.tip)
      (derived : generateStreamToAppend (cursorAfter (deltas ks)) d
        (v.getLogs (getFromBlock (cursorAfter (deltas ks)) d f) b)
        ⟨v.tip, getFromBlock (cursorAfter (deltas ks)) d f, b, f⟩ = .ok r) :
      Run d f (ks ++ [⟨v, b, r⟩])

/-! ### What one cycle keeps -/

variable {v : View C} {a b d f : ℕ} {ws : List H} {L : Finset H} {c : LastSync H D}

/-- **What the window knows** of the live blocks `L`: it lists live blocks, ascending,
and every live block from the resume point on. -/
structure Tracked (C : Chain H D) (d f : ℕ) (c : LastSync H D) (ws : List H) (L : Finset H) : Prop where
  window : c.unconfirmedBlocks = ws.map C.block
  bearing : ∀ x ∈ L, C.Bearing x
  ascending : Ascending C ws
  live : ∀ x ∈ ws, x ∈ L
  covered : ∀ x ∈ L, getFromBlock c d f ≤ C.numberOf x → x ∈ ws

/-- The live blocks below `a` are those of the view from `d` on. -/
def Settled (v : View C) (d a : ℕ) (L : Finset H) : Prop :=
  ∀ x, C.numberOf x < a → (x ∈ L ↔ v.On x ∧ d ≤ C.numberOf x)

theorem mem_kept {x : H} : x ∈ v.kept a b ws → x ∈ ws ∧ ¬v.Contradicts a b x := by
  intro hx
  refine ⟨(List.takeWhile_sublist _).subset hx, ?_⟩
  simpa using List.mem_takeWhile_imp hx

theorem kept_append_retracted : v.kept a b ws ++ (v.delta a b ws).retracted = ws :=
  List.takeWhile_append_dropWhile

/-- **The fork.** A fetch that takes anything back contradicts a window block, and
takes back exactly the window from that block on. -/
theorem exists_fork (hasc : Ascending C ws) (h : (v.delta a b ws).retracted ≠ []) :
    ∃ y ∈ (v.delta a b ws).retracted, v.Contradicts a b y ∧
      ∀ x, x ∈ (v.delta a b ws).retracted ↔ x ∈ ws ∧ C.numberOf y ≤ C.numberOf x := by
  obtain ⟨y, ys, hys⟩ := List.exists_cons_of_ne_nil h
  have hcon : v.Contradicts a b y := by
    have hhead := List.head?_dropWhile_not (fun x => !decide (v.Contradicts a b x)) ws
    have hdrop : ws.dropWhile (fun x => !decide (v.Contradicts a b x)) = y :: ys := hys
    rw [hdrop] at hhead
    simpa using hhead
  have hws : v.kept a b ws ++ y :: ys = ws := by rw [← hys]; exact kept_append_retracted
  unfold Ascending at hasc
  rw [← hws, List.pairwise_append, List.pairwise_cons] at hasc
  obtain ⟨-, ⟨hy, -⟩, hlt⟩ := hasc
  refine ⟨y, by rw [hys]; exact List.mem_cons_self, hcon, fun x => ?_⟩
  rw [hys, ← hws, List.mem_append]
  constructor
  · intro hx
    refine ⟨Or.inr hx, ?_⟩
    rcases List.mem_cons.1 hx with rfl | hx
    · exact le_rfl
    · exact (hy x hx).le
  · rintro ⟨hx | hx, hle⟩
    · have := hlt x hx y List.mem_cons_self
      omega
    · exact hx

theorem mem_retracted_ge (hasc : Ascending C ws) {x : H} (hx : x ∈ (v.delta a b ws).retracted) :
    x ∈ ws ∧ a ≤ C.numberOf x := by
  obtain ⟨y, -, hy, hmem⟩ := exists_fork hasc (List.ne_nil_of_mem hx)
  obtain ⟨hxw, hle⟩ := (hmem x).1 hx
  exact ⟨hxw, hy.1.trans hle⟩

theorem mem_kept_iff (hasc : Ascending C ws) {x : H} :
    x ∈ v.kept a b ws ↔ x ∈ ws ∧ x ∉ (v.delta a b ws).retracted := by
  have happ : v.kept a b ws ++ (v.delta a b ws).retracted = ws := kept_append_retracted
  have hdis : ∀ x ∈ v.kept a b ws, x ∉ (v.delta a b ws).retracted := by
    have hn := hasc.nodup
    rw [← happ] at hn
    exact fun x hx hx' => (List.nodup_append.1 hn).2.2 x hx x hx' rfl
  constructor
  · intro hx
    exact ⟨(mem_kept hx).1, hdis x hx⟩
  · rintro ⟨hx, hnot⟩
    rw [← happ, List.mem_append] at hx
    exact hx.resolve_right hnot

/-- A window block the fetch left standing, in the range it read, is on the view. -/
theorem on_of_kept {x : H} (hx : x ∈ v.kept a b ws) (hbear : C.Bearing x) (hb : b ≤ v.tip)
    (h1 : a ≤ C.numberOf x) (h2 : C.numberOf x ≤ b) : v.On x := by
  have hnot := (mem_kept hx).2
  refine ⟨hbear, by omega, ?_⟩
  by_contra hne
  exact hnot ⟨h1, h2, hne⟩

theorem mem_added (hb : b ≤ v.tip) {x : H} : x ∈ (v.delta a b ws).added ↔
    (v.On x ∧ a ≤ C.numberOf x ∧ C.numberOf x ≤ b) ∧ x ∉ v.kept a b ws := by
  unfold View.delta
  rw [List.mem_filter, View.mem_bearing hb, decide_eq_true_eq]

/-- The live blocks after a delta. -/
theorem mem_held_delta {x : H} : x ∈ held L (v.delta a b ws).ops ↔
    (x ∈ L ∧ x ∉ (v.delta a b ws).retracted) ∨ x ∈ (v.delta a b ws).added := by
  unfold Delta.ops
  rw [held_append, held_map_retract, held_map_add]
  simp only [Finset.mem_union, Finset.mem_sdiff, List.mem_toFinset]

theorem mem_window {x : H} : x ∈ v.window a b f ws ↔
    (x ∈ v.kept a b ws ∧ b - C.numberOf x ≤ f) ∨
      (x ∈ (v.delta a b ws).added ∧ v.tip - C.numberOf x ≤ f) := by
  unfold View.window
  rw [List.mem_insertionSort, List.mem_append, List.mem_filter, List.mem_filter, decide_eq_true_eq,
    decide_eq_true_eq]

/-- A block left standing and a block added are at different heights. -/
theorem kept_number_ne (hb : b ≤ v.tip) {x y : H} (hbear : C.Bearing x) (hx : x ∈ v.kept a b ws)
    (hy : y ∈ (v.delta a b ws).added) : C.numberOf x ≠ C.numberOf y := by
  intro hn
  obtain ⟨⟨hon, h1, h2⟩, hnot⟩ := (mem_added hb).1 hy
  have hxon : v.On x := on_of_kept hx hbear hb (by omega) (by omega)
  have hxy : x = y := by rw [← hxon.2.2, ← hon.2.2, hn]
  exact hnot (hxy ▸ hx)

theorem added_ascending (hb : b ≤ v.tip) : Ascending C (v.delta a b ws).added :=
  List.Pairwise.filter _ (View.bearing_sorted hb)

theorem window_ascending (hasc : Ascending C ws) (hbear : ∀ x ∈ ws, C.Bearing x) (hb : b ≤ v.tip) :
    Ascending C (v.window a b f ws) := by
  set l := (v.kept a b ws).filter (fun x => b - C.numberOf x ≤ f) ++
    (v.delta a b ws).added.filter (fun x => v.tip - C.numberOf x ≤ f) with hl
  have hne : l.Pairwise fun x y => C.numberOf x ≠ C.numberOf y := by
    rw [hl, List.pairwise_append]
    refine ⟨?_, ?_, ?_⟩
    · have hkept : Ascending C (v.kept a b ws) := hasc.sublist (List.takeWhile_sublist _)
      exact (List.Pairwise.filter _ hkept).imp fun h => ne_of_lt h
    · exact (List.Pairwise.filter _ (added_ascending hb)).imp fun h => ne_of_lt h
    · intro x hx y hy
      have hx := List.mem_of_mem_filter hx
      exact kept_number_ne hb (hbear x (mem_kept hx).1) hx (List.mem_of_mem_filter hy)
  have : Std.Total fun x y : H => C.numberOf x ≤ C.numberOf y := ⟨fun x y => le_total _ _⟩
  have : IsTrans H fun x y => C.numberOf x ≤ C.numberOf y := ⟨fun _ _ _ => le_trans⟩
  have hle := List.pairwise_insertionSort (fun x y : H => C.numberOf x ≤ C.numberOf y) l
  have hperm := List.perm_insertionSort (fun x y : H => C.numberOf x ≤ C.numberOf y) l
  have hne' := (hperm.pairwise_iff fun h => Ne.symm h).2 hne
  exact (hle.and hne').imp fun ⟨h1, h2⟩ => lt_of_le_of_ne h1 h2

section Step

variable (tr : Tracked C d f c ws L) (st : Settled v d (getFromBlock c d f) L)
  (ha : a = getFromBlock c d f) (hb : b ≤ v.tip)

include tr in
/-- Below the resume point nothing is taken back, from it on only window blocks stay. -/
theorem mem_live_iff (ha : a = getFromBlock c d f) {x : H} :
    x ∈ L ∧ x ∉ (v.delta a b ws).retracted ↔
      (x ∈ L ∧ C.numberOf x < a) ∨ (x ∈ v.kept a b ws ∧ a ≤ C.numberOf x) := by
  rw [mem_kept_iff tr.ascending]
  constructor
  · rintro ⟨hx, hnot⟩
    by_cases hlt : C.numberOf x < a
    · exact Or.inl ⟨hx, hlt⟩
    · exact Or.inr ⟨⟨tr.covered x hx (by omega), hnot⟩, by omega⟩
  · rintro (⟨hx, hlt⟩ | ⟨⟨hx, hnot⟩, -⟩)
    · refine ⟨hx, fun hr => ?_⟩
      have := (mem_retracted_ge tr.ascending hr).2
      omega
    · exact ⟨tr.live x hx, hnot⟩

include tr st ha hb in
/-- **Exactness of one cycle.** The live blocks become those of the view up to where
the cycle read. -/
theorem delta_settled : Settled v d (b + 1) (held L (v.delta a b ws).ops) := by
  intro x hx
  rw [mem_held_delta, mem_live_iff tr ha, mem_added hb]
  have hda : d ≤ a := ha ▸ getFromBlock_ge c d f
  by_cases hlt : C.numberOf x < a
  · rw [st x (ha ▸ hlt)]
    constructor
    · rintro ((h | h) | h) <;> first | exact h.1 | omega
    · exact fun h => Or.inl (Or.inl ⟨h, hlt⟩)
  · have hge : a ≤ C.numberOf x := by omega
    constructor
    · rintro ((h | ⟨hk, -⟩) | ⟨⟨hon, -⟩, -⟩)
      · omega
      · have hbear := tr.bearing x (tr.live x (mem_kept hk).1)
        exact ⟨on_of_kept hk hbear hb hge (by omega), by omega⟩
      · exact ⟨hon, by omega⟩
    · rintro ⟨hon, -⟩
      by_cases hk : x ∈ v.kept a b ws
      · exact Or.inl (Or.inr ⟨hk, hge⟩)
      · exact Or.inr ⟨⟨hon, hge, by omega⟩, hk⟩

include tr ha hb in
/-- **The ledger of one cycle is legal**: it takes back live blocks only and adds only
blocks that are not live. -/
theorem delta_legal : Legal L (v.delta a b ws).ops := by
  unfold Delta.ops
  rw [legal_append, held_map_retract]
  constructor
  · refine legal_map_retract ?_ fun x hx => tr.live x (mem_retracted_ge tr.ascending hx).1
    exact (tr.ascending.sublist (List.dropWhile_sublist _)).nodup
  · refine legal_map_add (added_ascending hb).nodup fun x hx hL => ?_
    rw [Finset.mem_sdiff, List.mem_toFinset, mem_live_iff tr ha] at hL
    obtain ⟨⟨-, hge, -⟩, hnot⟩ := (mem_added hb).1 hx
    rcases hL with ⟨-, hlt⟩ | ⟨hk, -⟩
    · omega
    · exact hnot hk

include tr ha hb in
/-- **One cycle keeps what the window knows.** -/
theorem delta_tracked (hab : a ≤ b) (htip : c.latestBlock ≤ v.tip) :
    Tracked C d f ⟨a, v.tip, b, (v.window a b f ws).map C.block⟩ (v.window a b f ws)
      (held L (v.delta a b ws).ops) where
  window := rfl
  bearing := by
    intro x hx
    rw [mem_held_delta, mem_added hb] at hx
    rcases hx with ⟨hx, -⟩ | ⟨⟨hx, -⟩, -⟩
    · exact tr.bearing x hx
    · exact hx.1
  ascending := window_ascending tr.ascending (fun x hx => tr.bearing x (tr.live x hx)) hb
  live := by
    intro x hx
    rw [mem_held_delta]
    rcases mem_window.1 hx with ⟨hk, -⟩ | ⟨hadd, -⟩
    · obtain ⟨hx, hnot⟩ := (mem_kept_iff tr.ascending).1 hk
      exact Or.inl ⟨tr.live x hx, hnot⟩
    · exact Or.inr hadd
  covered := by
    intro x hx hge
    rw [mem_window]
    -- the tip did not fall, so the next resume point is not below this one
    have hge' : a ≤ C.numberOf x ∧ (v.tip - C.numberOf x ≤ f ∨ b < C.numberOf x) := by
      unfold getFromBlock at hge ha
      simp only at hge
      split at hge <;> split at ha <;> omega
    have hlive := mem_live_iff (v := v) (b := b) tr ha (x := x)
    rcases mem_held_delta.1 hx with hx | hx
    · rcases hlive.1 hx with ⟨-, hlt⟩ | ⟨hk, -⟩
      · omega
      · exact Or.inl ⟨hk, by omega⟩
    · have hle := ((mem_added hb).1 hx).1.2.2
      exact Or.inr ⟨hx, by omega⟩

end Step

omit [DecidableEq H] in
/-- Between two cycles: what was exact for one view is settled for the next. -/
theorem Settled.next {u : View C} (hfol : Follows f u v) (hc : c.latestBlock = u.tip)
    (hd : d ≤ c.lastToBlock) (hb : c.lastToBlock ≤ u.tip) (st : Settled u d (c.lastToBlock + 1) L) :
    Settled v d (getFromBlock c d f) L := by
  intro x hx
  have htip := hfol.tip_le
  by_cases hdx : d ≤ C.numberOf x
  · -- below the resume point and not below `d`: finalized, and fetched already
    have hlow : C.numberOf x + f < u.tip ∧ C.numberOf x ≤ c.lastToBlock := by
      unfold getFromBlock at hx
      split at hx <;> omega
    have hsame := hfol.agree _ hlow.1
    rw [st x (by omega)]
    unfold View.On
    rw [hsame]
    constructor
    · rintro ⟨⟨h1, -, h3⟩, -⟩
      exact ⟨⟨h1, by omega, h3⟩, hdx⟩
    · rintro ⟨⟨h1, -, h3⟩, -⟩
      exact ⟨⟨h1, by omega, h3⟩, hdx⟩
  · rw [st x (by omega)]
    constructor <;> exact fun h => absurd h.2 hdx

omit [DecidableEq H] in
theorem tracked_fresh : Tracked C d f .fresh [] ∅ where
  window := rfl
  bearing := by simp
  ascending := List.Pairwise.nil
  live := by simp
  covered := by simp

omit [DecidableEq H] in
theorem settled_fresh : Settled v d (getFromBlock (.fresh : LastSync H D) d f) ∅ := by
  intro x hx
  unfold getFromBlock LastSync.fresh at hx
  simp only [if_true] at hx
  simp only [Finset.notMem_empty, false_iff]
  intro h
  omega

/-! ### Whole runs -/

variable {ks : List (Cycle C)} {k : Cycle C}

/-- The state of a run: the ledger it emitted, what its window knows, and what its last
view settled. -/
structure RunState (d f : ℕ) (ks : List (Cycle C)) (ops : List (Op H)) (ws : List H) : Prop where
  stream : emitted (deltas ks) = ops.flatMap C.emit
  legal : Legal ∅ ops
  tracked : Tracked C d f (cursorAfter (deltas ks)) ws (held ∅ ops)
  exact : ∀ k ∈ ks.getLast?, Settled k.view d (k.toBlock + 1) (held ∅ ops)
  cursor : ∀ k ∈ ks.getLast?, k.appended.newLastSync.latestBlock = k.view.tip ∧
    k.appended.newLastSync.lastToBlock = k.toBlock ∧ d ≤ k.toBlock ∧ k.toBlock ≤ k.view.tip
  start : ks = [] → ops = []

/-- What is settled for the next view of a run. -/
theorem RunState.settled {ops : List (Op H)} (h : RunState d f ks ops ws)
    (hfol : ∀ k ∈ ks.getLast?, Follows f k.view v) :
    Settled v d (getFromBlock (cursorAfter (deltas ks)) d f) (held ∅ ops) ∧ (cursorAfter (deltas ks)).latestBlock ≤ v.tip := by
  rcases ks.eq_nil_or_concat with rfl | ⟨ks, k, rfl⟩
  · rw [h.start rfl]
    exact ⟨settled_fresh, Nat.zero_le _⟩
  · rw [List.concat_eq_append] at *
    have hlast : k ∈ (ks ++ [k]).getLast? := by simp
    obtain ⟨htip, hto, hd, hle⟩ := h.cursor k hlast
    have hnext := hfol k hlast
    rw [deltas_concat, cursorAfter_concat]
    have hst := h.exact k hlast
    rw [← hto] at hst hd hle
    exact ⟨hst.next hnext htip hd hle, htip ▸ hnext.tip_le⟩

/-- **One cycle of a run**: the delta it derives, and the state it leaves. -/
theorem RunState.step {ops : List (Op H)} {r : Appended H D} (inv : RunState d f ks ops ws)
    (ha : a = getFromBlock (cursorAfter (deltas ks)) d f) (follows : ∀ k ∈ ks.getLast?, Follows f k.view v)
    (from_le : a ≤ b) (le_tip : b ≤ v.tip)
    (derived : generateStreamToAppend (cursorAfter (deltas ks)) d (v.getLogs a b) ⟨v.tip, a, b, f⟩ = .ok r) :
    r.eventStream = (v.delta a b ws).ops.flatMap C.emit ∧
      RunState d f (ks ++ [⟨v, b, r⟩]) (ops ++ (v.delta a b ws).ops) (v.window a b f ws) := by
  obtain ⟨hset, htip⟩ := inv.settled follows
  have hbear : ∀ x ∈ ws, C.Bearing x := fun x hx => inv.tracked.bearing x (inv.tracked.live x hx)
  obtain ⟨-, hev, hsync⟩ := View.generate_delta inv.tracked.window hbear le_tip derived
  have htr := delta_tracked inv.tracked ha le_tip from_le htip
  have hex := delta_settled inv.tracked hset ha le_tip
  have hleg := delta_legal inv.tracked ha le_tip
  have hd : d ≤ b := (ha ▸ getFromBlock_ge (cursorAfter (deltas ks)) d f : d ≤ a).trans from_le
  refine ⟨hev, ?_, ?_, ?_, ?_, ?_, by simp⟩
  · simp only [deltas_concat, emitted_concat, inv.stream, hev, List.flatMap_append]
  · rw [legal_append]
    exact ⟨inv.legal, hleg⟩
  · rw [deltas_concat, cursorAfter_concat, held_append, hsync]
    exact htr
  · simp only [List.getLast?_append, List.getLast?_singleton, Option.some_or, Option.mem_def,
      Option.some.injEq, forall_eq', held_append]
    exact hex
  · simp only [List.getLast?_append, List.getLast?_singleton, Option.some_or, Option.mem_def,
      Option.some.injEq, forall_eq', hsync, true_and]
    exact ⟨hd, le_tip⟩

theorem runState_start : RunState d f ([] : List (Cycle C)) [] [] :=
  ⟨rfl, trivial, tracked_fresh, by simp, by simp, fun _ => rfl⟩

/-- **Every run keeps its state.** -/
theorem run_state (run : Run d f ks) : ∃ ops ws, RunState d f ks ops ws := by
  induction run with
  | start => exact ⟨[], [], runState_start⟩
  | cycle _ follows from_le le_tip derived ih =>
    obtain ⟨ops, ws, inv⟩ := ih
    exact ⟨_, _, (inv.step rfl follows from_le le_tip derived).2⟩

omit [DecidableEq H] in
theorem mem_getLogs (hb : b ≤ v.tip) {k : H × ℕ} :
    (∃ e ∈ v.getLogs a b, (e.blockHash, e.logIndex) = k) ↔
      (v.On k.1 ∧ a ≤ C.numberOf k.1 ∧ C.numberOf k.1 ≤ b) ∧ k ∈ C.logKeys k.1 := by
  rw [View.getLogs_eq]
  constructor
  · rintro ⟨e, he, rfl⟩
    obtain ⟨x, hx, he⟩ := List.mem_flatMap.1 he
    have hex : e.blockHash = x := C.log_hash x e he
    rw [← View.mem_bearing hb]
    simp only [hex]
    exact ⟨hx, List.mem_map.2 ⟨e, he, by rw [hex]⟩⟩
  · rintro ⟨hk, hkey⟩
    rw [← View.mem_bearing hb] at hk
    obtain ⟨e, he, hek⟩ := List.mem_map.1 hkey
    exact ⟨e, List.mem_flatMap.2 ⟨k.1, hk, he⟩, hek⟩

theorem mem_parts_iff {S : Finset H} {k : H × ℕ} :
    k ∈ parts C.logKeys S ↔ k.1 ∈ S ∧ k ∈ C.logKeys k.1 := by
  rw [mem_parts]
  constructor
  · rintro ⟨x, hx, hk⟩
    have hkx := C.logKeys_fst hk
    subst hkx
    exact ⟨hx, hk⟩
  · rintro ⟨hx, hk⟩
    exact ⟨k.1, hx, hk⟩

/-- **Every run is exact.** After each cycle the fold of everything emitted is, up to the
block the cursor reports, the logs of the view just read; what it holds above that block
is what the window lists there; and the next cycle is accepted. -/
theorem run_exact (run : Run d f (ks ++ [k])) :
    (∀ key : H × ℕ, C.numberOf key.1 ≤ k.appended.newLastSync.lastToBlock →
      (key ∈ foldEvents ∅ (emitted (deltas (ks ++ [k]))) ↔
        ∃ e ∈ k.view.getLogs d k.appended.newLastSync.lastToBlock, (e.blockHash, e.logIndex) = key)) ∧
    (∀ key : H × ℕ, k.appended.newLastSync.lastToBlock < C.numberOf key.1 →
      (key ∈ foldEvents ∅ (emitted (deltas (ks ++ [k]))) ↔
        ∃ w ∈ k.appended.newLastSync.unconfirmedBlocks, ∃ e ∈ w.events, (e.blockHash, e.logIndex) = key)) ∧
    ∀ (v : View C) (b : ℕ), ∃ r, generateStreamToAppend (cursorAfter (deltas (ks ++ [k]))) d
      (v.getLogs (getFromBlock (cursorAfter (deltas (ks ++ [k]))) d f) b)
      ⟨v.tip, getFromBlock (cursorAfter (deltas (ks ++ [k]))) d f, b, f⟩ = .ok r := by
  obtain ⟨ops, ws, inv⟩ := run_state run
  have hlast : k ∈ (ks ++ [k]).getLast? := by simp
  obtain ⟨htip, hto, hd, hle⟩ := inv.cursor k hlast
  have hset := inv.exact k hlast
  have hfold : foldEvents ∅ (emitted (deltas (ks ++ [k]))) = parts C.logKeys (held ∅ ops) := by
    rw [inv.stream, ← foldEvents_emit, parts_empty]
  have htr := inv.tracked
  rw [deltas_concat, cursorAfter_concat] at htr
  rw [hfold, hto]
  refine ⟨fun key hkey => ?_, fun key hkey => ?_, fun v b => (generate_ok_iff _ _ _ _).2 rfl⟩
  · rw [mem_parts_iff, mem_getLogs hle, hset _ (by omega)]
    constructor
    · rintro ⟨⟨hon, hge⟩, hk⟩
      exact ⟨⟨hon, hge, hkey⟩, hk⟩
    · rintro ⟨⟨hon, hge, -⟩, hk⟩
      exact ⟨⟨hon, hge⟩, hk⟩
  · rw [mem_parts_iff, htr.window]
    constructor
    · rintro ⟨hlive, hk⟩
      have hfrom : getFromBlock k.appended.newLastSync d f ≤ C.numberOf key.1 := by
        have := getFromBlock_le k.appended.newLastSync d f
        omega
      obtain ⟨e, he, hek⟩ := List.mem_map.1 hk
      exact ⟨C.block key.1, List.mem_map.2 ⟨key.1, htr.covered _ hlive hfrom, rfl⟩, e, he, hek⟩
    · rintro ⟨w, hw, e, he, rfl⟩
      obtain ⟨x, hx, rfl⟩ := List.mem_map.1 hw
      have hex : e.blockHash = x := C.log_hash x e he
      simp only [hex]
      exact ⟨htr.live x hx, List.mem_map.2 ⟨e, he, by rw [hex]⟩⟩

/-- A run of two cycles over a reorg: block `4` gives way to block `104`, and the second
cycle stops below the first one's end. -/
def reorgRun : List (Cycle (.oneLog (· % 100) fun x => decide (x ∈ [1, 4, 5, 104]))) :=
  [⟨⟨5, id, by decide⟩, 5, ⟨[⟨1, 1, 0, false, ()⟩, ⟨4, 4, 0, false, ()⟩, ⟨5, 5, 0, false, ()⟩],
      ⟨0, 5, 5, [⟨4, 4, [⟨4, 4, 0, false, ()⟩]⟩, ⟨5, 5, [⟨5, 5, 0, false, ()⟩]⟩]⟩, none⟩⟩,
    ⟨⟨6, fun n => if n = 4 then 104 else n, by decide⟩, 4,
      ⟨[⟨4, 4, 0, true, ()⟩, ⟨5, 5, 0, true, ()⟩, ⟨104, 4, 0, false, ()⟩],
        ⟨3, 6, 4, [⟨104, 4, [⟨104, 4, 0, false, ()⟩]⟩]⟩, some ⟨.contradiction, 4, 4⟩⟩⟩]

theorem run_reorgRun : Run 0 2 reorgRun := by
  have h1 : Run 0 2 (reorgRun.take 1) := Run.cycle .start (by simp) (by decide) (by decide) (by rfl)
  refine Run.cycle h1 ?_ (by decide) (by decide) (by rfl)
  intro k hk
  obtain rfl : _ = k := by simpa [reorgRun] using hk
  refine ⟨by decide, fun n hn => ?_⟩
  have : n ≠ 4 := by simp only at hn; omega
  simp [this]

theorem run_exact_reorgRun : (4, 0) ∉ foldEvents ∅ (emitted (deltas reorgRun)) ∧
    (104, 0) ∈ foldEvents ∅ (emitted (deltas reorgRun)) := by
  obtain ⟨hexact, -, -⟩ := run_exact (show Run 0 2 (reorgRun.take 1 ++ [_]) from run_reorgRun)
  exact ⟨fun h => absurd ((hexact (4, 0) (by decide)).1 h) (by decide),
    (hexact (104, 0) (by decide)).2 (by decide)⟩

end Etherfold
