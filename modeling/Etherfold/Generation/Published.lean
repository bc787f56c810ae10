import Etherfold.Engine.TxInclusion
import Etherfold.Generation.Follow

/-!
# The cursors an engine publishes

An engine fetches deltas, replays stored rows and takes offered deltas; each of these hands its
stream over batch by batch and publishes the cursor of every batch.

* `Publishes`: the cursors one delivery publishes.
* `Separates`: the cut between two batches is a cut between heights.
* `Published`: the states of an engine, with every way it moves; `reflects_of_published`: **where every
  cut separates heights, the fold is the chain up to its cursor and the window its newest part**.
* `verdict_right`: **then `checkTxInclusion` is right at every published cursor**.
-/

namespace Etherfold

open Ledger

variable {H D : Type} {C : Chain H D} [DecidableEq H]

/-- What an engine is configured with. -/
structure EngineConfig where
  defaultFromBlock : ℕ
  finality : ℕ
  feedBatchSize : ℕ
  feedBatchSize_pos : 1 ≤ feedBatchSize

/-- A fold, and the chain as the fold last read it. -/
structure Engine (C : Chain H D) where
  fold : Fold H D
  view : Option (View C)

/-- **The cursors a delivery publishes**, each with what was handed over up to it and what is still
to come. A delivery of nothing publishes the new cursor. -/
inductive Publishes (feedBatchSize : ℕ) (fold : Fold H D) (eventStream : List (LogEvent H D)) (newLastSync : LastSync H D) :
    Fold H D → List (LogEvent H D) → Prop
  | batch {j : ℕ} {b : DeliveryBatch H D}
      (nth : (batchStreamForDelivery eventStream newLastSync feedBatchSize)[j]? = some b) :
      Publishes feedBatchSize fold eventStream newLastSync
        ⟨b.lastSync, fold.delivered ++ delivered ((batchStreamForDelivery eventStream newLastSync feedBatchSize).take (j + 1))⟩
        (delivered ((batchStreamForDelivery eventStream newLastSync feedBatchSize).drop (j + 1)))
  | idle (none : batchStreamForDelivery eventStream newLastSync feedBatchSize = []) :
      Publishes feedBatchSize fold eventStream newLastSync ⟨newLastSync, fold.delivered⟩ []

/-- **The cut separates heights**: the cursor does not pass the delivery's own, every log in the state
is at or below it, and every entry still to come is above it. -/
structure Separates (C : Chain H D) (fold : Fold H D) (later : List (LogEvent H D)) (newLastSync : LastSync H D) : Prop where
  within : fold.lastSync.lastToBlock ≤ newLastSync.lastToBlock
  below : ∀ key ∈ foldEvents ∅ fold.delivered, C.numberOf key.1 ≤ fold.lastSync.lastToBlock
  above : ∀ e ∈ later, fold.lastSync.lastToBlock < e.blockNumber

/-- The stored rows from a height on, all of them or a bounded chunk. -/
def readRows (storedStream : List (LogEvent H D)) (fromBlock : ℕ) : Option ℕ → List (LogEvent H D)
  | none => storedStream.filter (fromBlock ≤ ·.blockNumber)
  | some toBlock => storedStream.filter fun e => fromBlock ≤ e.blockNumber && e.blockNumber ≤ toBlock

/-- **The states of an engine at its published cursors.** It starts from nothing; it derives a delta
from a fetch (`live`); it replays what a writer has stored (`replay`), which holds what the fold's own
window lists because a batch is stored before it is processed; or it takes the delta a writer has just
stored (`follow`). It goes on from any published cursor. Where `separate` holds, every cut separates
heights and a delta is taken only by a fold level with the stream it was appended to. -/
inductive Published (cfg : EngineConfig) (separate : Prop) : Engine C → Prop
  | start : Published cfg separate ⟨.fresh, none⟩
  | live {s : Engine C} {v : View C} {a b : ℕ} {r : Appended H D} {fold' : Fold H D} {later : List (LogEvent H D)}
      (published : Published cfg separate s) (follows : ∀ u ∈ s.view, Follows cfg.finality u v)
      (resume : a = getFromBlock s.fold.lastSync cfg.defaultFromBlock cfg.finality) (from_le : a ≤ b) (le_tip : b ≤ v.tip)
      (derived : generateStreamToAppend s.fold.lastSync cfg.defaultFromBlock (v.getLogs a b) ⟨v.tip, a, b, cfg.finality⟩ = .ok r)
      (publishes : Publishes cfg.feedBatchSize s.fold r.eventStream r.newLastSync fold' later)
      (cut : separate → Separates C fold' later r.newLastSync) :
      Published cfg separate ⟨fold', some v⟩
  | replay {s : Engine C} {ks : List (Cycle C)} {k : Cycle C} {a : ℕ} {toBlock : Option ℕ} {r : Replayed H D}
      {fold' : Fold H D} {later : List (LogEvent H D)}
      (published : Published cfg separate s) (run : Run cfg.defaultFromBlock cfg.finality (ks ++ [k]))
      (follows : ∀ u ∈ s.view, Follows cfg.finality u k.view)
      (saved : ∀ w ∈ s.fold.lastSync.unconfirmedBlocks, ∃ e ∈ emitted (deltas (ks ++ [k])), e.blockHash = w.hash)
      (resume : a = getFromBlock s.fold.lastSync cfg.defaultFromBlock cfg.finality) (to_le : ∀ n ∈ toBlock, n ≤ k.toBlock)
      (replayed : generateStreamFromReplay s.fold.lastSync cfg.defaultFromBlock (readRows (emitted (deltas (ks ++ [k]))) a toBlock)
        ⟨k.view.tip, a, toBlock.getD k.toBlock, cfg.finality⟩ = .ok r)
      (publishes : Publishes cfg.feedBatchSize s.fold r.eventStream r.newLastSync fold' later)
      (cut : separate → Separates C fold' later r.newLastSync) :
      Published cfg separate ⟨fold', some k.view⟩
  | follow {s : Engine C} {ks : List (Cycle C)} {k : Cycle C} {r : Replayed H D} {fold' : Fold H D}
      {later : List (LogEvent H D)}
      (published : Published cfg separate s) (run : Run cfg.defaultFromBlock cfg.finality (ks ++ [k]))
      (follows : ∀ u ∈ s.view, Follows cfg.finality u k.view)
      (resume : getFromBlock s.fold.lastSync cfg.defaultFromBlock cfg.finality = k.appended.newLastSync.lastFromBlock)
      (level : separate → foldEvents ∅ s.fold.delivered = foldEvents ∅ (emitted (deltas ks)))
      (replayed : generateStreamFromReplay s.fold.lastSync cfg.defaultFromBlock k.appended.eventStream
        ⟨k.view.tip, k.appended.newLastSync.lastFromBlock, k.toBlock, cfg.finality⟩ = .ok r)
      (publishes : Publishes cfg.feedBatchSize s.fold r.eventStream r.newLastSync fold' later)
      (cut : separate → Separates C fold' later r.newLastSync) :
      Published cfg separate ⟨fold', some k.view⟩

/-! ### One delivery -/

variable {cfg : EngineConfig} {fold fold' : Fold H D} {later : List (LogEvent H D)} {newLastSync : LastSync H D}
  {news : List (Op H)} {N : ℕ}

/-- **A published cursor is a cut between two blocks** of what is delivered; it is narrowed unless
nothing is to come. -/
theorem Publishes.cut (hb : ∀ o ∈ news, C.Bearing o.key) (hch : news.IsChain (· ≠ ·)) (hN : 1 ≤ N)
    (h : Publishes N fold (news.flatMap C.emit) newLastSync fold' later) :
    ∃ pre post, news = pre ++ post ∧ fold'.delivered = fold.delivered ++ pre.flatMap C.emit ∧
      later = post.flatMap C.emit ∧
      (fold'.lastSync = cursorSyncedThrough newLastSync fold'.lastSync.lastToBlock ∨
        post = [] ∧ fold'.lastSync = newLastSync) := by
  have hall := delivered_emit hb hch hN newLastSync
  cases h with
  | idle hnil =>
    rw [hnil] at hall
    have hnews : news = [] := by
      by_contra hne
      obtain ⟨o, os, rfl⟩ := List.exists_cons_of_ne_nil hne
      have hbear := (Chain.group_ok (hb o List.mem_cons_self)).events_ne
      rw [Chain.group_events] at hbear
      rw [List.flatMap_cons] at hall
      exact hbear (List.append_eq_nil_iff.1 hall.symm).1
    exact ⟨[], [], hnews, by simp, rfl, Or.inr ⟨rfl, rfl⟩⟩
  | @batch j b hnth =>
    obtain ⟨cs, hbs, hflat, hok, hfaith, hchain⟩ := cuts_emit hb hch hN newLastSync
    obtain ⟨pre, post, hsplit, hpre, hpost⟩ := take_cuts hflat (j + 1)
    have htake : delivered ((batchStreamForDelivery (news.flatMap C.emit) newLastSync N).take (j + 1)) =
        pre.flatMap C.emit := by rw [hbs, delivered_batchesOf, hpre]
    refine ⟨pre, post, hsplit, by rw [htake], ?_, ?_⟩
    · have hparts : delivered ((batchStreamForDelivery (news.flatMap C.emit) newLastSync N).take (j + 1)) ++
          delivered ((batchStreamForDelivery (news.flatMap C.emit) newLastSync N).drop (j + 1)) =
            pre.flatMap C.emit ++ post.flatMap C.emit := by
        unfold delivered at hall ⊢
        rw [← List.flatMap_append, List.take_append_drop, hall, hsplit, List.flatMap_append]
      rw [htake] at hparts
      exact List.append_cancel_left hparts
    · rw [hbs] at hnth
      obtain ⟨k, hk⟩ : ∃ k, cs[j]? = some k := by
        obtain ⟨hlt, -⟩ := List.getElem?_eq_some_iff.1 hnth
        rw [length_batchesOf] at hlt
        exact ⟨_, List.getElem?_eq_getElem hlt⟩
      rw [lastSync_batchesOf hnth hk]
      split
      · rename_i hlast
        exact Or.inr ⟨hpost (by omega), rfl⟩
      · exact Or.inl rfl

/-! ### What a published cursor says -/

/-- **The fold is the chain up to its cursor**, and its window knows it. -/
structure Engine.Reflects (cfg : EngineConfig) (s : Engine C) (ws : List H) (ops : List (Op H)) : Prop where
  delivered : s.fold.delivered = ops.flatMap C.emit
  bearing : ∀ o ∈ ops, C.Bearing o.key
  tracked : Tracked C cfg.defaultFromBlock cfg.finality s.fold.lastSync ws (held ∅ ops)
  exact : ∀ v ∈ s.view, ∀ x, x ∈ held ∅ ops ↔
    v.On x ∧ cfg.defaultFromBlock ≤ C.numberOf x ∧ C.numberOf x ≤ s.fold.lastSync.lastToBlock
  tip : ∀ v ∈ s.view, s.fold.lastSync.latestBlock = v.tip
  start : s.view = none → s.fold.lastSync = .fresh ∧ ops = []

variable {s : Engine C} {v : View C} {ws : List H} {ops : List (Op H)}

theorem foldEvents_held (ops : List (Op H)) : foldEvents ∅ (ops.flatMap C.emit) = parts C.logKeys (held ∅ ops) := by
  rw [← foldEvents_emit, parts_empty]

omit [DecidableEq H] in
/-- A block with logs has a name for one of them. -/
theorem exists_logKey {x : H} (hx : C.Bearing x) : ∃ n, (x, n) ∈ C.logKeys x := by
  obtain ⟨e, he⟩ := List.exists_mem_of_ne_nil _ hx
  exact ⟨e.logIndex, List.mem_map.2 ⟨e, he, by rw [C.log_hash x e he]⟩⟩

/-- A block is held if a log of it is in the state. -/
theorem mem_held_iff_mem_foldEvents {x : H} (hx : C.Bearing x) :
    x ∈ held ∅ ops ↔ ∃ n, (x, n) ∈ foldEvents ∅ (ops.flatMap C.emit) := by
  simp only [foldEvents_held, mem_parts_iff]
  constructor
  · intro hheld
    obtain ⟨n, hn⟩ := exists_logKey hx
    exact ⟨n, hheld, hn⟩
  · rintro ⟨n, hheld, -⟩
    exact hheld

/-- **What is settled for a later view.** Below the resume point the chain is final and folded. -/
theorem Engine.Reflects.settled (inv : s.Reflects cfg ws ops) (follows : ∀ u ∈ s.view, Follows cfg.finality u v) :
    Settled v cfg.defaultFromBlock (getFromBlock s.fold.lastSync cfg.defaultFromBlock cfg.finality) (held ∅ ops) ∧
      s.fold.lastSync.latestBlock ≤ v.tip := by
  cases hview : s.view with
  | none =>
    obtain ⟨hfresh, hops⟩ := inv.start hview
    rw [hfresh, hops]
    exact ⟨settled_fresh, Nat.zero_le _⟩
  | some u =>
    have hu : u ∈ s.view := by rw [hview]; rfl
    have hfol := follows u hu
    have htip := inv.tip u hu
    refine ⟨fun x hx => ?_, htip ▸ hfol.tip_le⟩
    rw [inv.exact u hu]
    by_cases hd : cfg.defaultFromBlock ≤ C.numberOf x
    · have hlow : C.numberOf x + cfg.finality < u.tip ∧ C.numberOf x ≤ s.fold.lastSync.lastToBlock := by
        unfold getFromBlock at hx
        split at hx <;> omega
      have hsame := hfol.agree _ hlow.1
      have hle := hfol.tip_le
      unfold View.On
      rw [hsame]
      constructor
      · rintro ⟨⟨h1, -, h3⟩, -⟩
        exact ⟨⟨h1, by omega, h3⟩, hd⟩
      · rintro ⟨⟨h1, -, h3⟩, -⟩
        exact ⟨⟨h1, by omega, h3⟩, hd, hlow.2⟩
    · constructor
      · rintro ⟨-, h, -⟩
        exact absurd h hd
      · rintro ⟨-, h⟩
        exact absurd h hd

/-- **A cut that separates heights keeps what the window knows.** The delivery ends exact up to
its own cursor; so is every part of it that ends between two heights. -/
theorem Engine.Reflects.publish (inv : s.Reflects cfg ws ops) {W : List H} {a n : ℕ}
    (hb : ∀ o ∈ news, C.Bearing o.key) (hch : news.IsChain (· ≠ ·)) (hn : n ≤ v.tip)
    (hsync : newLastSync = ⟨a, v.tip, n, W.map C.block⟩) (hnodup : W.Nodup)
    (hsorted : W.Pairwise fun x y => C.numberOf x ≤ C.numberOf y) (hlive : ∀ x ∈ W, x ∈ held ∅ (ops ++ news))
    (hcov : ∀ x ∈ held ∅ (ops ++ news), C.numberOf x ≤ n → getFromBlock newLastSync cfg.defaultFromBlock cfg.finality ≤ C.numberOf x → x ∈ W)
    (hexact : ∀ x, C.numberOf x ≤ n → (x ∈ held ∅ (ops ++ news) ↔ v.On x ∧ cfg.defaultFromBlock ≤ C.numberOf x))
    (publishes : Publishes cfg.feedBatchSize s.fold (news.flatMap C.emit) newLastSync fold' later)
    (cut : Separates C fold' later newLastSync) : ∃ ws' ops', Engine.Reflects cfg ⟨fold', some v⟩ ws' ops' := by
  obtain ⟨pre, post, hsplit, hdel, hlater, hcursor⟩ := publishes.cut hb hch cfg.feedBatchSize_pos
  set t := fold'.lastSync.lastToBlock with ht
  have hdelivered : fold'.delivered = (ops ++ pre).flatMap C.emit := by
    rw [hdel, inv.delivered, List.flatMap_append]
  have hbear : ∀ o ∈ ops ++ news, C.Bearing o.key := fun o ho => (List.mem_append.1 ho).elim (inv.bearing o) (hb o)
  have hbearpre : ∀ o ∈ ops ++ pre, C.Bearing o.key := fun o ho => hbear o (by
    rw [hsplit, ← List.append_assoc]
    exact List.mem_append_left _ ho)
  have htn : t ≤ n := by
    have hwithin := cut.within
    rwa [hsync] at hwithin
  -- what is held at the cut is what is held in the end, up to the height of the cut
  have hbelow : ∀ x ∈ held ∅ (ops ++ pre), C.numberOf x ≤ t := by
    intro x hx
    obtain ⟨o, ho, rfl⟩ := List.mem_map.1 (mem_keys_of_mem_held hx)
    obtain ⟨m, hm⟩ := (mem_held_iff_mem_foldEvents (hbearpre o ho)).1 hx
    rw [← hdelivered] at hm
    exact cut.below _ hm
  have hkept : ∀ x, C.numberOf x ≤ t → (x ∈ held ∅ (ops ++ pre) ↔ x ∈ held ∅ (ops ++ news)) := by
    intro x hx
    have hnot : x ∉ post.map Op.key := by
      intro hmem
      obtain ⟨o, ho, rfl⟩ := List.mem_map.1 hmem
      have hne := (Chain.group_ok (hb o (by rw [hsplit]; exact List.mem_append_right _ ho))).events_ne
      rw [Chain.group_events] at hne
      obtain ⟨e, he⟩ := List.exists_mem_of_ne_nil _ hne
      have habove := cut.above e (by rw [hlater]; exact List.mem_flatMap.2 ⟨o, ho, he⟩)
      rw [Chain.emit_number he] at habove
      omega
    rw [hsplit, ← List.append_assoc, held_append ∅ (ops ++ pre), mem_held_of_not_key hnot]
  have hcut : ∀ x, x ∈ held ∅ (ops ++ pre) ↔ v.On x ∧ cfg.defaultFromBlock ≤ C.numberOf x ∧ C.numberOf x ≤ t := by
    intro x
    constructor
    · intro hx
      have hle := hbelow x hx
      obtain ⟨hon, hd⟩ := (hexact x (by omega)).1 ((hkept x hle).1 hx)
      exact ⟨hon, hd, hle⟩
    · rintro ⟨hon, hd, hle⟩
      exact (hkept x hle).2 ((hexact x (by omega)).2 ⟨hon, hd⟩)
  -- the published window is the window cut at that height
  have hwin : fold'.lastSync = ⟨a, v.tip, t, (W.filter (C.numberOf · ≤ t)).map C.block⟩ := by
    rcases hcursor with hnarrow | ⟨hpost, hfinal⟩
    · rw [hnarrow, hsync]
      unfold cursorSyncedThrough
      rw [List.filter_map]
      rfl
    · have htn' : t = n := by rw [ht, hfinal, hsync]
      rw [hfinal, hsync, htn', List.filter_eq_self.2]
      intro x hx
      have hheld := hlive x hx
      rw [hsplit, hpost, List.append_nil] at hheld
      have hle := hbelow x hheld
      simpa [htn'] using hle
  refine ⟨W.filter (C.numberOf · ≤ t), ops ++ pre, hdelivered, hbearpre, ?_, ?_, ?_, by simp⟩
  · have hmem : ∀ x ∈ W.filter (C.numberOf · ≤ t), x ∈ held ∅ (ops ++ pre) := by
      intro x hx
      obtain ⟨hxW, hle⟩ := List.mem_filter.1 hx
      exact (hkept x (of_decide_eq_true hle)).2 (hlive x hxW)
    constructor
    · rw [hwin]
    · intro x hx
      exact ((hcut x).1 hx).1.1
    · -- a view has one block at a height
      have hle := hsorted.filter fun x => decide (C.numberOf x ≤ t)
      have hne := hnodup.filter fun x => decide (C.numberOf x ≤ t)
      apply (hle.and hne).imp_of_mem
      intro x y hx hy hxy
      apply lt_of_le_of_ne hxy.1
      intro hn
      have hxon := ((hcut x).1 (hmem x hx)).1
      have hyon := ((hcut y).1 (hmem y hy)).1
      exact hxy.2 (by rw [← hxon.2.2, ← hyon.2.2, hn])
    · exact hmem
    · intro x hx hge
      have hle := hbelow x hx
      refine List.mem_filter.2 ⟨hcov x ((hkept x hle).1 hx) (by omega) ?_, decide_eq_true hle⟩
      rw [hwin] at hge
      rw [hsync]
      unfold getFromBlock at hge ⊢
      simp only at hge ⊢
      split at hge <;> split <;> omega
  · intro u hu x
    obtain rfl : v = u := Option.some.inj hu
    exact hcut x
  · intro u hu
    obtain rfl : v = u := Option.some.inj hu
    show fold'.lastSync.latestBlock = v.tip
    rw [hwin]

/-! ### Every way an engine moves -/

/-- **A delta derived from a fetch.** -/
theorem Engine.Reflects.live (inv : s.Reflects cfg ws ops) {a b : ℕ} {r : Appended H D}
    (follows : ∀ u ∈ s.view, Follows cfg.finality u v)
    (resume : a = getFromBlock s.fold.lastSync cfg.defaultFromBlock cfg.finality) (from_le : a ≤ b) (le_tip : b ≤ v.tip)
    (derived : generateStreamToAppend s.fold.lastSync cfg.defaultFromBlock (v.getLogs a b) ⟨v.tip, a, b, cfg.finality⟩ = .ok r)
    (publishes : Publishes cfg.feedBatchSize s.fold r.eventStream r.newLastSync fold' later)
    (cut : Separates C fold' later r.newLastSync) : ∃ ws' ops', Engine.Reflects cfg ⟨fold', some v⟩ ws' ops' := by
  obtain ⟨hset, htip⟩ := inv.settled follows
  have hbear : ∀ x ∈ ws, C.Bearing x := fun x hx => inv.tracked.bearing x (inv.tracked.live x hx)
  obtain ⟨-, hstream, hsync⟩ := View.generate_delta inv.tracked.window hbear le_tip derived
  have htr := delta_tracked inv.tracked resume le_tip from_le htip
  have hex := delta_settled inv.tracked (resume ▸ hset) resume le_tip
  have hleg := delta_legal (v := v) (b := b) inv.tracked resume le_tip
  rw [← held_append] at htr hex
  rw [hstream] at publishes
  apply inv.publish (fun o ho => (delta_named inv.tracked le_tip o ho).1) hleg.chain le_tip hsync htr.ascending.nodup
    (htr.ascending.imp fun h => h.le) htr.live ?_ (fun x hx => hex x (by omega)) publishes cut
  intro x hx _ hge
  rw [hsync] at hge
  exact htr.covered x hx hge

/-- **Rows read again.** They leave the fold exact up to where they reach. -/
theorem Engine.Reflects.replayed (inv : s.Reflects cfg ws ops) {rows : List (Op H)} {a n : ℕ} {r : Replayed H D}
    (htip : s.fold.lastSync.latestBlock ≤ v.tip)
    (resume : a = getFromBlock s.fold.lastSync cfg.defaultFromBlock cfg.finality)
    (hrows : ∀ o ∈ rows, C.Bearing o.key ∧ a ≤ C.numberOf o.key) (hch : rows.IsChain (· ≠ ·)) (hn : n ≤ v.tip)
    (hr : generateStreamFromReplay s.fold.lastSync cfg.defaultFromBlock (rows.flatMap C.emit) ⟨v.tip, a, n, cfg.finality⟩ = .ok r)
    (hexact : ∀ x, C.numberOf x ≤ n →
      ((if x ∈ rows.map Op.key then x ∈ held ws.toFinset rows else x ∈ held ∅ ops) ↔
        v.On x ∧ cfg.defaultFromBlock ≤ C.numberOf x))
    (publishes : Publishes cfg.feedBatchSize s.fold r.eventStream r.newLastSync fold' later)
    (cut : Separates C fold' later r.newLastSync) : ∃ ws' ops', Engine.Reflects cfg ⟨fold', some v⟩ ws' ops' := by
  have tr := inv.tracked
  obtain ⟨-, hstream, W, hsync, hnodup, hsorted, hW⟩ :=
    replay_emit tr.window tr.ascending.nodup (fun o ho => (hrows o ho).1) hch hr
  set news := settle (C.settledAt s.fold.lastSync.lastToBlock) ws.toFinset rows with hnews
  have hheld : ∀ x, x ∈ held ∅ (ops ++ news) ↔
      if x ∈ rows.map Op.key then x ∈ held ws.toFinset rows else x ∈ held ∅ ops :=
    held_take tr.live (fun x hx hge => tr.covered x hx (by omega)) fun o ho => (hrows o ho).2
  rw [hstream] at publishes
  apply inv.publish (fun o ho => (hrows o (settle_sublist.subset ho)).1) (legal_settle (S := ws.toFinset)).chain hn
    hsync hnodup hsorted ?_ ?_ (fun x hx => (hheld x).trans (hexact x hx)) publishes cut
  · intro x hx
    rw [hheld]
    obtain ⟨hx, -⟩ := (hW x).1 hx
    split
    · exact hx
    · rename_i hkey
      rw [mem_held_of_not_key hkey, List.mem_toFinset] at hx
      exact tr.live x hx
  · intro x hx hle hge
    rw [hheld] at hx
    have hreach : getFromBlock s.fold.lastSync cfg.defaultFromBlock cfg.finality ≤ C.numberOf x ∧
        n - C.numberOf x ≤ cfg.finality := by
      rw [hsync] at hge
      unfold getFromBlock at hge ⊢
      simp only at hge
      split at hge <;> split <;> omega
    refine (hW x).2 ⟨?_, hreach.2⟩
    split at hx
    · exact hx
    · rename_i hkey
      rw [mem_held_of_not_key hkey, List.mem_toFinset]
      exact tr.covered x hx hreach.1

omit [DecidableEq H] in
/-- The rows read are entries of the stream's ledger, all those of the heights read. -/
theorem readRows_emit (stored : List (Op H)) (a : ℕ) (toBlock : Option ℕ) :
    ∃ p : ℕ → Bool, readRows (stored.flatMap C.emit) a toBlock = (stored.filter fun o => p (C.numberOf o.key)).flatMap C.emit ∧
      (∀ n, p n = true → a ≤ n) ∧ ∀ n, a ≤ n → (∀ m ∈ toBlock, n ≤ m) → p n = true := by
  cases toBlock with
  | none =>
    refine ⟨fun n => decide (a ≤ n), filter_emit (C := C) (fun n => decide (a ≤ n)) stored, ?_, ?_⟩
    · intro n hn
      exact of_decide_eq_true hn
    · intro n hn _
      exact decide_eq_true hn
  | some m =>
    refine ⟨fun n => decide (a ≤ n) && decide (n ≤ m),
      filter_emit (C := C) (fun n => decide (a ≤ n) && decide (n ≤ m)) stored, ?_, ?_⟩
    · intro n hn
      simp only [Bool.and_eq_true, decide_eq_true_eq] at hn
      exact hn.1
    · intro n hn hm
      have := hm m rfl
      simp [hn, this]

variable {ks : List (Cycle C)} {k : Cycle C}

/-- The stream a run has stored, at the level of blocks, and what it leaves live. -/
theorem Run.stored {d f : ℕ} (run : Run d f (ks ++ [k])) : ∃ (before : List (Op H)) (δ : Delta H),
    emitted (deltas ks) = before.flatMap C.emit ∧ k.appended.eventStream = δ.ops.flatMap C.emit ∧
      Legal ∅ (before ++ δ.ops) ∧ (∀ o ∈ before ++ δ.ops, C.Bearing o.key) ∧
      (∀ o ∈ δ.ops, k.appended.newLastSync.lastFromBlock ≤ C.numberOf o.key) ∧
      Settled k.view d (k.toBlock + 1) (held ∅ (before ++ δ.ops)) ∧ k.toBlock ≤ k.view.tip := by
  obtain ⟨δs, ws', hst, inv⟩ := run_stored run
  have hlast : k ∈ (ks ++ [k]).getLast? := by simp
  obtain ⟨-, -, -, hle⟩ := inv.cursor k hlast
  have hex := inv.exact k hlast
  have hleg := hst.legal
  have hnamed := hst.named
  generalize hks : ks ++ [k] = ks' at hst
  cases hst with
  | nil => simp at hks
  | @snoc ks₀ δs₀ k₀ δ stored appends =>
    obtain ⟨rfl, hk⟩ := List.append_inj' hks rfl
    obtain rfl : k = k₀ := by simpa using hk
    rw [List.flatMap_append, List.flatMap_singleton] at hex hleg hnamed
    exact ⟨δs₀.flatMap Delta.ops, δ, stored.emitted_eq, appends.stream, hleg, fun o ho => (hnamed o ho).1,
      fun o ho => (appends.named o ho).2, hex, hle⟩

/-- **A replay of what a writer has stored.** -/
theorem Engine.Reflects.replay (inv : s.Reflects cfg ws ops) {a : ℕ} {toBlock : Option ℕ} {r : Replayed H D}
    (run : Run cfg.defaultFromBlock cfg.finality (ks ++ [k])) (follows : ∀ u ∈ s.view, Follows cfg.finality u k.view)
    (saved : ∀ w ∈ s.fold.lastSync.unconfirmedBlocks, ∃ e ∈ emitted (deltas (ks ++ [k])), e.blockHash = w.hash)
    (resume : a = getFromBlock s.fold.lastSync cfg.defaultFromBlock cfg.finality) (to_le : ∀ n ∈ toBlock, n ≤ k.toBlock)
    (replayed : generateStreamFromReplay s.fold.lastSync cfg.defaultFromBlock (readRows (emitted (deltas (ks ++ [k]))) a toBlock)
      ⟨k.view.tip, a, toBlock.getD k.toBlock, cfg.finality⟩ = .ok r)
    (publishes : Publishes cfg.feedBatchSize s.fold r.eventStream r.newLastSync fold' later)
    (cut : Separates C fold' later r.newLastSync) : ∃ ws' ops', Engine.Reflects cfg ⟨fold', some k.view⟩ ws' ops' := by
  obtain ⟨before, δ, hbefore, hδ, hleg, hbear, -, hset, hle⟩ := run.stored
  obtain ⟨hlow, htip⟩ := inv.settled follows
  have hemitted : emitted (deltas (ks ++ [k])) = (before ++ δ.ops).flatMap C.emit := by
    rw [deltas_concat, emitted_concat, hbefore, hδ, List.flatMap_append]
  rw [hemitted] at saved replayed
  set stored := before ++ δ.ops with hstored
  obtain ⟨p, hrows, hp, hpall⟩ := readRows_emit (C := C) stored a toBlock
  rw [hrows] at replayed
  set n := toBlock.getD k.toBlock with hn
  have hnk : n ≤ k.toBlock := by
    rw [hn]
    cases toBlock with
    | none => exact le_rfl
    | some m => exact to_le m rfl
  have hreads : ∀ x, a ≤ C.numberOf x → C.numberOf x ≤ n → p (C.numberOf x) = true := by
    intro x hge hxn
    apply hpall _ hge
    intro m hm
    rw [Option.mem_def] at hm
    rwa [hn, hm] at hxn
  have hrowsleg : Legal ∅ (stored.filter fun o => p (C.numberOf o.key)) := by
    have := hleg.filter fun x => p (C.numberOf x) = true
    rw [Finset.filter_empty] at this
    simpa only [Bool.decide_eq_true] using this
  refine inv.replayed htip resume (fun o ho => ?_) hrowsleg.chain (by omega) replayed ?_ publishes cut
  · obtain ⟨ho, hpo⟩ := List.mem_filter.1 ho
    exact ⟨hbear o ho, hp _ hpo⟩
  · intro x hx
    by_cases hge : a ≤ C.numberOf x
    · -- every stored entry of the block was read
      have hpx := hreads x hge hx
      rw [← hset x (by omega)]
      by_cases hkey : x ∈ stored.map Op.key
      · have hrow : x ∈ (stored.filter fun o => p (C.numberOf o.key)).map Op.key := by
          obtain ⟨o, ho, rfl⟩ := List.mem_map.1 hkey
          exact List.mem_map.2 ⟨o, List.mem_filter.2 ⟨ho, hpx⟩, rfl⟩
        have hfilter : x ∈ held ∅ (stored.filter fun o => p (C.numberOf o.key)) ↔ x ∈ held ∅ stored := by
          have hread : x ∈ held ∅ (stored.filter fun o => decide (p (C.numberOf o.key) = true)) ↔ x ∈ held ∅ stored :=
            mem_held_filter (p := fun y => p (C.numberOf y) = true) hpx Iff.rfl
          simpa only [Bool.decide_eq_true] using hread
        rw [if_pos hrow, mem_held_of_key (T := ∅) hrow, hfilter]
      · -- the fold holds no block the stream does not name
        have hrow : x ∉ (stored.filter fun o => p (C.numberOf o.key)).map Op.key := by
          intro hmem
          obtain ⟨o, ho, rfl⟩ := List.mem_map.1 hmem
          exact hkey (List.mem_map.2 ⟨o, List.mem_of_mem_filter ho, rfl⟩)
        rw [if_neg hrow, mem_held_of_not_key hkey]
        refine ⟨fun hheld => ?_, fun hnone => absurd hnone (Finset.notMem_empty x)⟩
        have hws := inv.tracked.covered x hheld (by omega)
        obtain ⟨e, he, hex⟩ := saved (C.block x) (by
          rw [inv.tracked.window]
          exact List.mem_map.2 ⟨x, hws, rfl⟩)
        obtain ⟨o, ho, heo⟩ := List.mem_flatMap.1 he
        rw [Chain.emit_hash heo, Chain.block_hash] at hex
        exact absurd (List.mem_map.2 ⟨o, ho, hex⟩) hkey
    · have hrow : x ∉ (stored.filter fun o => p (C.numberOf o.key)).map Op.key := by
        intro hmem
        obtain ⟨o, ho, rfl⟩ := List.mem_map.1 hmem
        exact hge (hp _ (List.mem_filter.1 ho).2)
      rw [if_neg hrow]
      exact hlow x (by omega)

/-- **A delta just stored**, taken by a fold level with the stream before it. -/
theorem Engine.Reflects.follow (inv : s.Reflects cfg ws ops) {r : Replayed H D}
    (run : Run cfg.defaultFromBlock cfg.finality (ks ++ [k])) (follows : ∀ u ∈ s.view, Follows cfg.finality u k.view)
    (resume : getFromBlock s.fold.lastSync cfg.defaultFromBlock cfg.finality = k.appended.newLastSync.lastFromBlock)
    (level : foldEvents ∅ s.fold.delivered = foldEvents ∅ (emitted (deltas ks)))
    (replayed : generateStreamFromReplay s.fold.lastSync cfg.defaultFromBlock k.appended.eventStream
      ⟨k.view.tip, k.appended.newLastSync.lastFromBlock, k.toBlock, cfg.finality⟩ = .ok r)
    (publishes : Publishes cfg.feedBatchSize s.fold r.eventStream r.newLastSync fold' later)
    (cut : Separates C fold' later r.newLastSync) : ∃ ws' ops', Engine.Reflects cfg ⟨fold', some k.view⟩ ws' ops' := by
  obtain ⟨before, δ, hbefore, hδ, hleg, hbear, hfrom, hset, hle⟩ := run.stored
  obtain ⟨-, htip⟩ := inv.settled follows
  rw [hδ] at replayed
  -- the fold holds the blocks the stream held before the delta
  have hsame : ∀ x, x ∈ held ∅ ops ↔ x ∈ held ∅ before := by
    rw [inv.delivered, hbefore] at level
    intro x
    by_cases hx : C.Bearing x
    · rw [mem_held_iff_mem_foldEvents hx, level, ← mem_held_iff_mem_foldEvents hx]
    · have hnone : ∀ os : List (Op H), (∀ o ∈ os, C.Bearing o.key) → x ∉ held ∅ os := by
        intro os hos hmem
        obtain ⟨o, ho, rfl⟩ := List.mem_map.1 (mem_keys_of_mem_held hmem)
        exact hx (hos o ho)
      simp only [hnone ops inv.bearing, hnone before fun o ho => hbear o (List.mem_append_left _ ho)]
  have hδleg : Legal (held ∅ before) δ.ops := (legal_append.1 hleg).2
  refine inv.replayed htip resume.symm (fun o ho => ⟨hbear o (List.mem_append_right _ ho), hfrom o ho⟩) hδleg.chain hle
    replayed ?_ publishes cut
  intro x hx
  rw [← hset x (by omega), held_append]
  split
  · rename_i hkey
    exact mem_held_of_key hkey
  · rename_i hkey
    rw [mem_held_of_not_key hkey]
    exact hsame x

theorem Engine.reflects_start : Engine.Reflects cfg (⟨.fresh, none⟩ : Engine C) [] [] where
  delivered := rfl
  bearing := by simp
  tracked := tracked_fresh
  exact := by simp
  tip := by simp
  start := fun _ => ⟨rfl, rfl⟩

/-- **Where every cut separates heights, an engine reflects the chain at every cursor it
publishes.** -/
theorem reflects_of_published (published : Published cfg True s) : ∃ ws ops, s.Reflects cfg ws ops := by
  induction published with
  | start => exact ⟨[], [], Engine.reflects_start⟩
  | live _ follows resume from_le le_tip derived publishes cut ih =>
    obtain ⟨ws, ops, inv⟩ := ih
    exact inv.live follows resume from_le le_tip derived publishes (cut trivial)
  | replay _ run follows saved resume to_le replayed publishes cut ih =>
    obtain ⟨ws, ops, inv⟩ := ih
    exact inv.replay run follows saved resume to_le replayed publishes (cut trivial)
  | follow _ run follows resume level replayed publishes cut ih =>
    obtain ⟨ws, ops, inv⟩ := ih
    exact inv.follow run follows resume (level trivial) replayed publishes (cut trivial)

/-! ### The verdicts -/

/-- A log of the transaction is in the state. -/
def TxNaming.InState {Tx : Type} (naming : TxNaming H D Tx) (C : Chain H D) (state : Finset (H × ℕ)) (txHash : Tx) : Prop :=
  ∃ key ∈ state, ∃ e ∈ C.logsOf key.1, e.logIndex = key.2 ∧ naming.Of txHash e

/-- The view carries the transaction in this block, and in no other. -/
structure TxNaming.CarriedBy {Tx : Type} (naming : TxNaming H D Tx) (v : View C) (txHash : Tx) (x : H) : Prop where
  on : v.On x
  emits : ∃ e ∈ C.logsOf x, naming.Of txHash e
  once : ∀ y, v.On y → (∃ e ∈ C.logsOf y, naming.Of txHash e) → y = x

section Verdict

variable {Tx : Type} [DecidableEq Tx] {naming : TxNaming H D Tx} {txHash : Tx}

/-- A window block at or below the cursor that lists the transaction is held. -/
theorem Engine.Reflects.hit (inv : s.Reflects cfg ws ops) {hit : ProcessedAt H}
    (h : (naming.indexWindow s.fold.lastSync).get (naming.toLowerCase txHash) = some hit) :
    ∃ x ∈ held ∅ ops, hit.blockNumber = C.numberOf x ∧ ∃ e ∈ C.logsOf x, naming.Of txHash e := by
  obtain ⟨block, hblock, hhit, e, he, -, hof⟩ := TxNaming.mem_indexWindow h
  rw [inv.tracked.window] at hblock
  obtain ⟨x, hx, rfl⟩ := List.mem_map.1 hblock
  exact ⟨x, inv.tracked.live x hx, by rw [hhit, Chain.block_number], e, he, hof⟩

omit [DecidableEq Tx] in
/-- A held block of a transaction puts it into the state. -/
theorem Engine.Reflects.inState (inv : s.Reflects cfg ws ops) :
    naming.InState C (foldEvents ∅ s.fold.delivered) txHash ↔
      ∃ x ∈ held ∅ ops, ∃ e ∈ C.logsOf x, naming.Of txHash e := by
  unfold TxNaming.InState
  rw [inv.delivered, foldEvents_held]
  constructor
  · rintro ⟨key, hkey, e, he, -, hof⟩
    exact ⟨key.1, (mem_parts_iff.1 hkey).1, e, he, hof⟩
  · rintro ⟨x, hx, e, he, hof⟩
    refine ⟨(x, e.logIndex), mem_parts_iff.2 ⟨hx, List.mem_map.2 ⟨e, he, ?_⟩⟩, e, he, rfl, hof⟩
    rw [C.log_hash x e he]

/-- **The verdict at a cursor that reflects the chain.** -/
theorem Engine.Reflects.verdict (inv : s.Reflects cfg ws ops) {v : View C} (hv : v ∈ s.view)
    {query : TxInclusionQuery Tx} {verdict : TxInclusionVerdict H} {windowFloor : ℕ}
    (hfloor : windowFloor = s.fold.lastSync.latestBlock - cfg.finality)
    (hverdict : verdict = naming.verdictFor query (naming.indexWindow s.fold.lastSync) s.fold.lastSync.lastToBlock windowFloor)
    {x : H} (hx : naming.CarriedBy v query.txHash x) (hhigh : windowFloor ≤ C.numberOf x)
    (hmined : ∀ n ∈ query.minedAtBlock, windowFloor ≤ n) :
    (verdict.status = .included ↔
      ∀ e ∈ C.logsOf x, naming.Of query.txHash e → (x, e.logIndex) ∈ foldEvents ∅ s.fold.delivered) ∧
    (verdict.status = .absent → ¬naming.InState C (foldEvents ∅ s.fold.delivered) query.txHash) := by
  have hexact := inv.exact v hv
  -- any held block of the transaction is the one of the view
  have honly : ∀ y ∈ held ∅ ops, (∃ e ∈ C.logsOf y, naming.Of query.txHash e) → y = x :=
    fun y hy hemits => hx.once y ((hexact y).1 hy).1 hemits
  -- and then the window lists it, behind the cursor
  have hlisted : x ∈ held ∅ ops → ∃ hit ∈ (naming.indexWindow s.fold.lastSync).get (naming.toLowerCase query.txHash),
      hit.blockNumber ≤ s.fold.lastSync.lastToBlock := by
    intro hheld
    obtain ⟨-, hd, hle⟩ := (hexact x).1 hheld
    have hge : getFromBlock s.fold.lastSync cfg.defaultFromBlock cfg.finality ≤ C.numberOf x := by
      unfold getFromBlock
      split <;> omega
    have hws := inv.tracked.covered x hheld hge
    obtain ⟨e, he, hof⟩ := hx.emits
    have hblock : C.block x ∈ s.fold.lastSync.unconfirmedBlocks := by
      rw [inv.tracked.window]
      exact List.mem_map.2 ⟨x, hws, rfl⟩
    have hsome := TxNaming.indexWindow_isSome hblock he (C.log_live x e he) hof
    obtain ⟨hit, hhit⟩ := Option.isSome_iff_exists.1 hsome
    obtain ⟨y, hy, hnum, hemits⟩ := inv.hit hhit
    refine ⟨hit, hhit, ?_⟩
    rw [hnum, honly y hy hemits]
    exact hle
  have hincluded : verdict.status = .included ↔ x ∈ held ∅ ops := by
    rw [hverdict, TxNaming.included_iff hmined]
    constructor
    · rintro ⟨hit, hhit, -⟩
      obtain ⟨y, hy, -, hemits⟩ := inv.hit hhit
      exact honly y hy hemits ▸ hy
    · exact hlisted
  constructor
  · rw [hincluded, inv.delivered, foldEvents_held]
    constructor
    · intro hheld e he _
      exact mem_parts_iff.2 ⟨hheld, List.mem_map.2 ⟨e, he, by rw [C.log_hash x e he]⟩⟩
    · intro hall
      obtain ⟨e, he, hof⟩ := hx.emits
      exact (mem_parts_iff.1 (hall e he hof)).1
  · intro habsent hin
    obtain ⟨y, hy, hemits⟩ := inv.inState.1 hin
    obtain ⟨hit, hhit, hle⟩ := hlisted (honly y hy hemits ▸ hy)
    rw [hverdict] at habsent
    have := TxNaming.absent_only habsent hit hhit
    omega

end Verdict

/-- **`checkTxInclusion` at every published cursor.** In every run whose cuts separate heights, a
transaction of the view at or above the floor is answered `included` just when its logs are in the
state, `absent` only when none is, and a window hit is never of a transaction out of the state. Below
the floor the caller's node and the indexer's are taken to agree. -/
theorem verdict_right {Tx : Type} [DecidableEq Tx] (naming : TxNaming H D Tx) (published : Published cfg True s)
    (hv : v ∈ s.view) {queries : List (TxInclusionQuery Tx)} {txHash : Tx} {verdict : TxInclusionVerdict H}
    (answer : (naming.checkTxInclusion (some s.fold.lastSync) queries cfg.finality).get txHash = some verdict)
    (agree : ∀ query ∈ queries, query.txHash = txHash → ∀ n ∈ query.minedAtBlock,
      n < s.fold.lastSync.latestBlock - cfg.finality → ∃ e ∈ C.logsOf (v.hashAt n), naming.Of txHash e) :
    (∀ x, naming.CarriedBy v txHash x → s.fold.lastSync.latestBlock - cfg.finality ≤ C.numberOf x →
      (verdict.status = .included ↔
        ∀ e ∈ C.logsOf x, naming.Of txHash e → (x, e.logIndex) ∈ foldEvents ∅ s.fold.delivered) ∧
      (verdict.status = .absent → ¬naming.InState C (foldEvents ∅ s.fold.delivered) txHash)) ∧
    (verdict.basis = .windowHit → naming.InState C (foldEvents ∅ s.fold.delivered) txHash) := by
  obtain ⟨ws, ops, inv⟩ := reflects_of_published published
  obtain ⟨query, hquery, rfl, hverdict⟩ := TxNaming.get_checkTxInclusion answer
  constructor
  · intro x hx hhigh
    refine inv.verdict hv rfl hverdict hx hhigh fun n hn => ?_
    -- a height below the floor would be that of another block of the view
    by_contra hlow
    obtain ⟨e, he, hof⟩ := agree query hquery rfl n hn (by omega)
    have htip := inv.tip v hv
    have hnum := v.height n (by omega)
    have hon : v.On (v.hashAt n) := ⟨List.ne_nil_of_mem he, by omega, by rw [hnum]⟩
    have hsame := hx.once _ hon ⟨e, he, hof⟩
    rw [hsame] at hnum
    omega
  · intro hbasis
    rw [hverdict] at hbasis
    obtain ⟨hit, hhit, -⟩ := TxNaming.windowHit_behind hbasis
    obtain ⟨x, hx, -, hemits⟩ := inv.hit hhit
    exact inv.inState.2 ⟨x, hx, hemits⟩

/-! ### A reorg that brings a log below what it takes back -/

namespace LowFork

/-- Block `5` carries a log; on the other branch block `104`, one height lower, does. -/
def chain : Chain ℕ Unit := .oneLog (· % 100) fun x => decide (x ∈ [1, 5, 104])

def before : View chain := ⟨5, id, by decide⟩

def after : View chain := ⟨6, fun n => if n = 4 then 104 else if n = 5 then 105 else n, by decide⟩

def config : EngineConfig := ⟨0, 2, 1, Nat.one_pos⟩

/-- A transaction is named by the block it is in. -/
def naming : TxNaming ℕ Unit ℕ := ⟨fun e => e.blockHash, id⟩

/-- What the first fetch derives. -/
def first : Appended ℕ Unit :=
  ⟨[⟨1, 1, 0, false, ()⟩, ⟨5, 5, 0, false, ()⟩], ⟨0, 5, 5, [⟨5, 5, [⟨5, 5, 0, false, ()⟩]⟩]⟩, none⟩

def folded : Engine chain := ⟨⟨first.newLastSync, first.eventStream⟩, some before⟩

/-- What the second fetch derives. -/
def reorged : Appended ℕ Unit :=
  ⟨[⟨5, 5, 0, true, ()⟩, ⟨104, 4, 0, false, ()⟩], ⟨3, 6, 6, [⟨104, 4, [⟨104, 4, 0, false, ()⟩]⟩]⟩, some ⟨.absence, 5, 5⟩⟩

theorem published_folded (separate : Prop) : Published config separate folded := by
  have hpublishes : Publishes 1 (.fresh : Fold ℕ Unit) first.eventStream first.newLastSync folded.fold [] :=
    @Publishes.batch ℕ Unit _ 1 .fresh first.eventStream first.newLastSync 1 ⟨[⟨5, 5, 0, false, ()⟩], first.newLastSync⟩ rfl
  exact Published.live (s := ⟨.fresh, none⟩) (v := before) (a := 0) (b := 5) (r := first) .start (by simp) rfl (by decide) (by decide) rfl
    hpublishes fun _ => ⟨by decide, by decide, by decide⟩

theorem follows_after : ∀ u ∈ folded.view, Follows config.finality u after := by
  intro u hu
  obtain rfl : before = u := Option.some.inj hu
  refine ⟨by decide, fun n hn => ?_⟩
  have hlow : n + 2 < 5 := hn
  have h4 : n ≠ 4 := by omega
  have h5 : n ≠ 5 := by omega
  simp [after, before, h4, h5]

/-- The second delivery done. -/
def settled : Engine chain :=
  ⟨⟨reorged.newLastSync, folded.fold.delivered ++ reorged.eventStream⟩, some after⟩

/-- The second delivery after its first batch, which takes block `5` back. -/
def halfway : Engine chain :=
  ⟨⟨⟨3, 6, 4, reorged.newLastSync.unconfirmedBlocks⟩, folded.fold.delivered ++ [⟨5, 5, 0, true, ()⟩]⟩, some after⟩

theorem published_settled (separate : Prop) : Published config separate settled := by
  have hpublishes : Publishes 1 folded.fold reorged.eventStream reorged.newLastSync settled.fold [] :=
    @Publishes.batch ℕ Unit _ 1 folded.fold reorged.eventStream reorged.newLastSync 1
      ⟨[⟨104, 4, 0, false, ()⟩], reorged.newLastSync⟩ rfl
  exact Published.live (r := reorged) (a := 3) (b := 6) (published_folded separate) follows_after rfl (by decide) (by decide) rfl
    hpublishes fun _ => ⟨by decide, by decide, by decide⟩

theorem published_halfway : Published config False halfway := by
  have hpublishes : Publishes 1 folded.fold reorged.eventStream reorged.newLastSync halfway.fold [⟨104, 4, 0, false, ()⟩] :=
    @Publishes.batch ℕ Unit _ 1 folded.fold reorged.eventStream reorged.newLastSync 0
      ⟨[⟨5, 5, 0, true, ()⟩], halfway.fold.lastSync⟩ rfl
  exact Published.live (r := reorged) (a := 3) (b := 6) (published_folded False) follows_after rfl (by decide) (by decide) rfl
    hpublishes False.elim

theorem carriedBy_after : naming.CarriedBy after 104 104 where
  on := ⟨by decide, by decide, by decide⟩
  emits := by decide
  once := by
    rintro y - ⟨e, he, hof⟩
    exact (chain.log_hash y e he).symm.trans hof

end LowFork

theorem verdict_right_settled :
    ((LowFork.naming.checkTxInclusion (some LowFork.settled.fold.lastSync) [⟨104, some 4⟩] 2).get 104) =
      some ⟨.included, .windowHit, some 4, some 104⟩ ∧
    (104, 0) ∈ foldEvents ∅ LowFork.settled.fold.delivered := by
  have hanswer : (LowFork.naming.checkTxInclusion (some LowFork.settled.fold.lastSync) [⟨104, some 4⟩] 2).get 104 =
      some ⟨.included, .windowHit, some 4, some 104⟩ := by decide
  obtain ⟨hright, -⟩ := verdict_right LowFork.naming (LowFork.published_settled True) (v := LowFork.after) rfl hanswer
    (by simp [LowFork.settled, LowFork.reorged, LowFork.config])
  exact ⟨hanswer, ((hright 104 LowFork.carriedBy_after (by decide)).1.1 rfl) ⟨104, 4, 0, false, ()⟩ (by decide) (by decide)⟩

/-- The first batch takes block `5` back and its cursor says that the fold is through block `4`. The
window it is published with lists block `104` at that height, which is yet to be delivered: its transaction
is told included. -/
theorem lowFork_included_early :
    Published LowFork.config False LowFork.halfway ∧ LowFork.naming.CarriedBy LowFork.after 104 104 ∧
      LowFork.halfway.fold.lastSync.latestBlock - 2 ≤ LowFork.chain.numberOf 104 ∧
      (LowFork.naming.checkTxInclusion (some LowFork.halfway.fold.lastSync) [⟨104, none⟩] 2).get 104 =
        some ⟨.included, .windowHit, some 4, some 104⟩ ∧
      foldEvents ∅ LowFork.halfway.fold.delivered = {(1, 0)} := by
  exact ⟨LowFork.published_halfway, LowFork.carriedBy_after, by decide, by decide, by decide⟩

end Etherfold
