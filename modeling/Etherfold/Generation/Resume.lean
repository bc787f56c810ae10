import Etherfold.Chain.Stored
import Etherfold.Engine.Replay
import Etherfold.Engine.Batches

/-!
# Resuming a replay from the cursor of a batch

A replay is delivered batch by batch and the cursor of each batch is persisted with it.
Stopped after a batch, the fold reads the stream again from where that cursor resumes.

* `replayFrom`: a replay of the stored rows from where a cursor resumes.
* `replayFrom_emit`: what it delivers, at the level of blocks.
* `held_resumed`: what reading the rows again leaves.
* `resume_iff`: **when stopping at a batch loses and repeats nothing**.
-/

namespace Etherfold

open Ledger

variable {H D : Type} {C : Chain H D} [DecidableEq H] {d f : ℕ}

/-- A replay of the stored rows from where the cursor resumes. -/
def replayFrom (lastSync : LastSync H D) (d f : ℕ) (storedStream : List (LogEvent H D))
    (latestBlock lastToBlock : ℕ) : Except UnexpectedFromBlockError (Replayed H D) :=
  let fromBlock := getFromBlock lastSync d f
  generateStreamFromReplay lastSync d (storedStream.filter (fromBlock ≤ ·.blockNumber))
    ⟨latestBlock, fromBlock, lastToBlock, f⟩

/-- The entries of the blocks from a height on. -/
def fromHeight (C : Chain H D) (a : ℕ) (ops : List (Op H)) : List (Op H) :=
  ops.filter fun o => decide (a ≤ C.numberOf o.key)

omit [DecidableEq H] in
theorem filter_emit (p : ℕ → Bool) (ops : List (Op H)) :
    (ops.flatMap C.emit).filter (fun e => p e.blockNumber) =
      (ops.filter fun o => p (C.numberOf o.key)).flatMap C.emit := by
  induction ops with
  | nil => rfl
  | cons o ops ih =>
    have hnum : ∀ e ∈ C.emit o, e.blockNumber = C.numberOf o.key := fun e he => Chain.emit_number he
    rw [List.flatMap_cons, List.filter_append, ih, List.filter_cons]
    by_cases hp : p (C.numberOf o.key) = true
    · rw [if_pos hp, List.flatMap_cons, List.filter_eq_self.2]
      intro e he
      rw [hnum e he, hp]
    · rw [if_neg hp, List.filter_eq_nil_iff.2, List.nil_append]
      intro e he
      rwa [hnum e he]

theorem fromHeight_legal {ops : List (Op H)} (h : Legal ∅ ops) (a : ℕ) :
    Legal ∅ (fromHeight C a ops) := by
  have := h.filter fun x => a ≤ C.numberOf x
  rwa [Finset.filter_empty] at this

/-- **What a replay delivers.** -/
theorem replayFrom_emit {ops : List (Op H)} {ws : List H} {c : LastSync H D} {latest last : ℕ}
    (hb : ∀ o ∈ ops, C.Bearing o.key) (hleg : Legal ∅ ops) (hc : c.unconfirmedBlocks = ws.map C.block)
    (hn : ws.Nodup) {r : Replayed H D}
    (h : replayFrom c d f (ops.flatMap C.emit) latest last = .ok r) :
    r.eventStream = (settle (C.settledAt c.lastToBlock) ws.toFinset
        (fromHeight C (getFromBlock c d f) ops)).flatMap C.emit ∧
      ∃ ws' : List H, r.newLastSync = ⟨getFromBlock c d f, latest, last, ws'.map C.block⟩ ∧ ws'.Nodup ∧
        (ws'.Pairwise fun x y => C.numberOf x ≤ C.numberOf y) ∧
        ∀ x, x ∈ ws' ↔ x ∈ held ws.toFinset (fromHeight C (getFromBlock c d f) ops) ∧
          last - C.numberOf x ≤ f := by
  unfold replayFrom at h
  simp only [filter_emit (C := C) (fun n => decide (getFromBlock c d f ≤ n))] at h
  have hbear : ∀ o ∈ fromHeight C (getFromBlock c d f) ops, C.Bearing o.key := fun o ho =>
    hb o (List.mem_of_mem_filter ho)
  exact (replay_emit hc hn hbear (fromHeight_legal hleg _).chain h).2

/-- **What reading the rows again leaves**: the live blocks from the resume point on, and
below it what was held. -/
theorem held_resumed {ops : List (Op H)} {S : Finset H} (hS : S ⊆ held ∅ ops) (a : ℕ) (x : H) :
    x ∈ held S (fromHeight C a ops) ↔ if a ≤ C.numberOf x then x ∈ held ∅ ops else x ∈ S := by
  unfold fromHeight
  split
  · rename_i hge
    have hfilter : x ∈ held S (ops.filter fun o => a ≤ C.numberOf o.key) ↔ x ∈ held S ops :=
      mem_held_filter (p := fun y => a ≤ C.numberOf y) hge Iff.rfl
    rw [hfilter]
    by_cases hkey : x ∈ ops.map Op.key
    · exact mem_held_of_key hkey
    · rw [mem_held_of_not_key hkey]
      refine ⟨fun h => hS h, fun h => ?_⟩
      rw [mem_held_of_not_key hkey] at h
      exact absurd h (Finset.notMem_empty x)
  · rename_i hlt
    refine mem_held_of_not_key fun hmem => hlt ?_
    obtain ⟨o, ho, rfl⟩ := List.mem_map.1 hmem
    exact of_decide_eq_true (List.mem_filter.1 ho).2

/-! ### Batches of block entries -/

/-- **The batches of block entries**, as cuts of their runs. -/
theorem cuts_emit {ops : List (Op H)} (hb : ∀ o ∈ ops, C.Bearing o.key) (hch : ops.IsChain (· ≠ ·))
    {N : ℕ} (hN : 1 ≤ N) (c : LastSync H D) :
    ∃ cs : List (Cut H D), batchStreamForDelivery (ops.flatMap C.emit) c N = batchesOf c cs ∧
      cs.flatMap Cut.groups = ops.map C.group ∧ (∀ k ∈ cs, k.Ok) ∧ (∀ k ∈ cs, k.Faithful) ∧
      cs.IsChain Cut.Next := by
  have hgroups := Chain.groupStream_emit hb hch
  have hok : ∀ o ∈ ops, (C.group o).Ok := fun o ho => Chain.group_ok (hb o ho)
  have hevents : ∀ g ∈ groupStreamPerBlock (ops.flatMap C.emit), g.events ≠ [] := by
    rw [hgroups]
    intro g hg
    obtain ⟨o, ho, rfl⟩ := List.mem_map.1 hg
    exact (hok o ho).events_ne
  obtain ⟨cs, h1, h2, h3, h4⟩ : ∃ cs : List (Cut H D),
      batchStreamForDelivery (ops.flatMap C.emit) c N = batchesOf c cs ∧
      cs.flatMap Cut.groups = groupStreamPerBlock (ops.flatMap C.emit) ∧ (∀ k ∈ cs, k.Ok) ∧
      cs.IsChain Cut.Next := batches_eq_cuts hN hevents
  rw [hgroups] at h2
  refine ⟨cs, h1, h2, h3, fun k hk g hg => ?_, h4⟩
  have hmem : g ∈ ops.map C.group := by
    rw [← h2]
    exact List.mem_flatMap.2 ⟨k, hk, hg⟩
  obtain ⟨o, ho, rfl⟩ := List.mem_map.1 hmem
  exact ⟨(hok o ho).events_ne, (hok o ho).removed⟩

omit [DecidableEq H] in
/-- The first batches deliver a part of the stream that ends between two blocks. -/
theorem take_cuts {ops : List (Op H)} {cs : List (Cut H D)} (h : cs.flatMap Cut.groups = ops.map C.group)
    (j : ℕ) : ∃ pre post, ops = pre ++ post ∧ (cs.take j).flatMap Cut.events = pre.flatMap C.emit ∧
      (cs.length ≤ j → post = []) := by
  have hsplit : (cs.take j).flatMap Cut.groups ++ (cs.drop j).flatMap Cut.groups = ops.map C.group := by
    rw [← List.flatMap_append, List.take_append_drop, h]
  obtain ⟨pre, post, hops, hpre, hpost⟩ := List.append_eq_map_iff.1 hsplit
  refine ⟨pre, post, hops, ?_, fun hj => ?_⟩
  · have hev : (cs.take j).flatMap Cut.events = ((cs.take j).flatMap Cut.groups).flatMap (·.events) := by
      rw [List.flatMap_assoc]
      rfl
    rw [hev, ← hpre, List.flatMap_map]
    simp only [Chain.group_events]
  · rw [List.drop_of_length_le hj, List.flatMap_nil] at hpost
    exact List.map_eq_nil_iff.1 hpost

/-! ### Stopping at a batch -/

/-- What is delivered of an item, in total. -/
def netDelivered (key : H × ℕ) (es : List (LogEvent H D)) : ℤ := net key (es.map LogEvent.op)

theorem netDelivered_emit {key : H × ℕ} (hkey : key ∈ C.logKeys key.1) (ops : List (Op H)) :
    netDelivered key (ops.flatMap C.emit) = net key.1 ops := by
  unfold netDelivered
  rw [Chain.map_op_emit]
  exact net_expand Chain.logKeys_apart Chain.logKeys_nodup hkey ops

/-- What names no log is not delivered. -/
theorem netDelivered_of_notMem {key : H × ℕ} (hkey : key ∉ C.logKeys key.1) (ops : List (Op H)) :
    netDelivered key (ops.flatMap C.emit) = 0 := by
  unfold netDelivered
  rw [Chain.map_op_emit]
  exact net_expand_of_notMem (fun x hx => hkey ((C.logKeys_fst hx).symm ▸ hx)) ops

/-- The entries of some batches. -/
def delivered (batches : List (DeliveryBatch H D)) : List (LogEvent H D) :=
  batches.flatMap (·.events)

omit [DecidableEq H] in
theorem delivered_batchesOf (c : LastSync H D) (cs : List (Cut H D)) (j : ℕ) :
    delivered ((batchesOf c cs).take j) = (cs.take j).flatMap Cut.events := by
  unfold delivered
  have hevents : (batchesOf c cs).map (·.events) = cs.map Cut.events := map_events_batchesOf cs
  have hmap := congrArg (fun l => (l.take j).flatten) hevents
  simpa only [List.map_take, List.flatMap_def] using hmap

/-- What is delivered of a block by a part of the stream and a second reading. -/
theorem net_resumed {pre ops : List (Op H)} {S : Finset H} {a : ℕ} {skip : H → Bool}
    (hleg : Legal ∅ pre) (hS : S ⊆ held ∅ ops) (x : H) :
    net x (pre ++ settle skip S (fromHeight C a ops)) =
      (if x ∈ held ∅ pre then 1 else 0) + (if a ≤ C.numberOf x then
        (if x ∈ held ∅ ops then 1 else 0) - (if x ∈ S then 1 else 0) else 0) := by
  have hres := held_resumed (C := C) hS a x
  rw [net_append, net_eq hleg x, net_settle]
  simp only [hres, Finset.notMem_empty, if_false, sub_zero]
  by_cases hge : a ≤ C.numberOf x
  · simp only [hge, if_true]
  · simp only [hge, if_false, sub_self]

/-- What is held after a part of the stream and a second reading that repeats nothing. -/
theorem held_resumed_of {pre ops : List (Op H)} {S : Finset H} {a : ℕ} {skip : H → Bool}
    (hS : S ⊆ held ∅ ops)
    (hlow : ∀ x, C.numberOf x < a → (x ∈ held ∅ pre ↔ x ∈ held ∅ ops))
    (hhigh : ∀ x, a ≤ C.numberOf x → (x ∈ held ∅ pre ↔ x ∈ S)) :
    held ∅ (pre ++ settle skip S (fromHeight C a ops)) = held ∅ ops := by
  ext x
  rw [held_append]
  have hres := held_resumed (C := C) hS a x
  have hsame : held S (settle skip S (fromHeight C a ops)) = held S (fromHeight C a ops) := held_settle
  rw [← hsame] at hres
  by_cases hge : a ≤ C.numberOf x
  · rw [if_pos hge] at hres
    rw [← hres]
    by_cases hkey : x ∈ (settle skip S (fromHeight C a ops)).map Op.key
    · exact mem_held_of_key hkey
    · rw [mem_held_of_not_key hkey, mem_held_of_not_key hkey]
      exact hhigh x hge
  · have hkey : x ∉ (settle skip S (fromHeight C a ops)).map Op.key := by
      intro hmem
      obtain ⟨o, ho, rfl⟩ := List.mem_map.1 hmem
      exact hge (of_decide_eq_true (List.mem_filter.1 (settle_sublist.subset ho)).2)
    rw [mem_held_of_not_key hkey]
    exact hlow x (by omega)

/-- All batches together deliver the stream. -/
theorem delivered_emit {ops : List (Op H)} (hb : ∀ o ∈ ops, C.Bearing o.key) (hch : ops.IsChain (· ≠ ·))
    {N : ℕ} (hN : 1 ≤ N) (c : LastSync H D) :
    delivered (batchStreamForDelivery (ops.flatMap C.emit) c N) = ops.flatMap C.emit := by
  obtain ⟨cs, hbs, hflat, -⟩ := cuts_emit hb hch hN c
  obtain ⟨pre, post, hops, hpre, hpost⟩ := take_cuts hflat cs.length
  have htake := delivered_batchesOf c cs cs.length
  rw [List.take_of_length_le (by simp)] at htake
  rw [hbs, htake, hpre, hops, hpost le_rfl, List.append_nil]

/-- A batch is delivered only with a batch size that lets an application in. -/
theorem one_le_batchSize {ops : List (Op H)} (hb : ∀ o ∈ ops, C.Bearing o.key) (hleg : Legal ∅ ops)
    {c : LastSync H D} {N j : ℕ} {b : DeliveryBatch H D}
    (h : (batchStreamForDelivery (ops.flatMap C.emit) c N)[j]? = some b) : 1 ≤ N := by
  by_contra hN
  obtain rfl : N = 0 := by omega
  have hnil : batchStreamForDelivery (ops.flatMap C.emit) c 0 = [] := by
    unfold batchStreamForDelivery
    rw [Chain.groupStream_emit hb hleg.chain]
    cases ops with
    | nil => rfl
    | cons o ops =>
      -- nothing is held before the first entry, so it is an application
      cases o with
      | add x => rfl
      | retract x => exact absurd hleg.1 (Finset.notMem_empty x)
  rw [hnil] at h
  cases h

omit [DecidableEq H] in
/-- The window of a batch, and where its cursor resumes: from there on the window lists the
final live blocks the batch reaches, and below it all of them are reached. -/
theorem window_of_batch {F : Finset H} {W : List H} {latest last t a : ℕ} {final : Prop}
    [Decidable final] {c : LastSync H D} (hlast : last ≤ latest) (hF : ∀ x ∈ F, d ≤ C.numberOf x)
    (hW : ∀ x, x ∈ W ↔ x ∈ F ∧ last - C.numberOf x ≤ f)
    (hc : c = if final then ⟨a, latest, last, W.map C.block⟩
      else cursorSyncedThrough ⟨a, latest, last, W.map C.block⟩ t) :
    ∃ S : List H, c.unconfirmedBlocks = S.map C.block ∧ S.Sublist W ∧
      (∀ x, getFromBlock c d f ≤ C.numberOf x → (x ∈ S ↔ x ∈ F ∧ (final ∨ C.numberOf x ≤ t))) ∧
      ∀ x ∈ F, C.numberOf x < getFromBlock c d f → final ∨ C.numberOf x ≤ t := by
  by_cases hfin : final
  · rw [if_pos hfin] at hc
    subst hc
    refine ⟨W, rfl, List.Sublist.refl _, fun x hx => ?_, fun _ _ _ => Or.inl hfin⟩
    rw [hW]
    simp only [hfin, true_or, and_true, and_iff_left_iff_imp]
    intro _
    unfold getFromBlock at hx
    simp only at hx
    split at hx <;> omega
  · rw [if_neg hfin] at hc
    subst hc
    refine ⟨W.filter fun x => C.numberOf x ≤ t, ?_, List.filter_sublist, fun x hx => ?_, fun x hx hlt => ?_⟩
    · unfold cursorSyncedThrough
      rw [List.filter_map]
      rfl
    · simp only [List.mem_filter, decide_eq_true_eq, hW, hfin, false_or]
      unfold getFromBlock cursorSyncedThrough at hx
      simp only at hx
      constructor
      · exact fun h => ⟨h.1.1, h.2⟩
      · rintro ⟨hxF, hle⟩
        refine ⟨⟨hxF, ?_⟩, hle⟩
        split at hx <;> omega
    · right
      have hd := hF x hx
      unfold getFromBlock cursorSyncedThrough at hlt
      simp only at hlt
      split at hlt <;> omega

/-- **A replay from scratch** delivers a legal ledger of the final live blocks. -/
theorem replay_whole {ks : List (Cycle C)} {δs : List (Delta H)} (hst : Stored d f ks δs)
    {latest last : ℕ} {r : Replayed H D}
    (h : replayFrom .fresh d f (emitted (deltas ks)) latest last = .ok r) :
    ∃ (stored : List (Op H)) (W : List H), r.eventStream = stored.flatMap C.emit ∧
      Legal ∅ stored ∧ (∀ o ∈ stored, C.Bearing o.key) ∧
      held ∅ stored = held ∅ (δs.flatMap Delta.ops) ∧
      r.newLastSync = ⟨d, latest, last, W.map C.block⟩ ∧ W.Nodup ∧
      (W.Pairwise fun x y => C.numberOf x ≤ C.numberOf y) ∧
      ∀ x, x ∈ W ↔ x ∈ held ∅ (δs.flatMap Delta.ops) ∧ last - C.numberOf x ≤ f := by
  have hfrom : getFromBlock (.fresh : LastSync H D) d f = d := rfl
  rw [hst.emitted_eq] at h
  have hempty : (LastSync.fresh : LastSync H D).unconfirmedBlocks = ([] : List H).map C.block := rfl
  obtain ⟨hstream, W, hsync, hWn, hWs, hW⟩ := replayFrom_emit (fun o ho => (hst.named o ho).1) hst.legal
    hempty List.nodup_nil h
  rw [hfrom, List.toFinset_nil] at *
  have hall : held ∅ (fromHeight C d (δs.flatMap Delta.ops)) = held ∅ (δs.flatMap Delta.ops) := by
    ext x
    rw [held_resumed (Finset.empty_subset _)]
    constructor
    · intro hx
      split at hx
      · exact hx
      · exact absurd hx (Finset.notMem_empty x)
    · intro hx
      obtain ⟨o, ho, rfl⟩ := List.mem_map.1 (mem_keys_of_mem_held hx)
      rw [if_pos (hst.named o ho).2]
      exact hx
  rw [hall] at hW
  refine ⟨_, W, hstream, legal_settle, fun o ho => ?_, ?_, hsync, hWn, hWs, hW⟩
  · exact (hst.named o (List.mem_of_mem_filter (settle_sublist.subset ho))).1
  · rw [held_settle, hall]

/-- The first batches and the cursor of the last of them. -/
theorem stop_batch {stored : List (Op H)} (hb : ∀ o ∈ stored, C.Bearing o.key) (hleg : Legal ∅ stored)
    {c : LastSync H D} {N j : ℕ} {b : DeliveryBatch H D}
    (h : (batchStreamForDelivery (stored.flatMap C.emit) c N)[j]? = some b) :
    ∃ pre post, stored = pre ++ post ∧
      delivered ((batchStreamForDelivery (stored.flatMap C.emit) c N).take (j + 1)) = pre.flatMap C.emit ∧
      b.lastSync = if j + 1 = (batchStreamForDelivery (stored.flatMap C.emit) c N).length then c
        else cursorSyncedThrough c (reach (pre.flatMap C.emit)) := by
  have hN := one_le_batchSize hb hleg h
  obtain ⟨cs, hbs, hflat, hok, hfaith, hchain⟩ := cuts_emit hb hleg.chain hN c
  obtain ⟨pre, post, hpost, hpre, -⟩ := take_cuts hflat (j + 1)
  rw [hbs] at h ⊢
  obtain ⟨k, hk⟩ : ∃ k, cs[j]? = some k := by
    obtain ⟨hlt, -⟩ := List.getElem?_eq_some_iff.1 h
    rw [length_batchesOf] at hlt
    exact ⟨_, List.getElem?_eq_getElem hlt⟩
  refine ⟨pre, post, hpost, by rw [delivered_batchesOf, hpre], ?_⟩
  rw [lastSync_batchesOf h hk, ← hpre, reach_take hok hfaith hchain hk, length_batchesOf]

/-- One block's count over both readings is right if and only if the first reading left it
live just when it is reached. -/
theorem count_iff {A F S : Finset H} {a : ℕ} {reached : Prop} {x : H}
    (hhigh : a ≤ C.numberOf x → (x ∈ S ↔ x ∈ F ∧ reached))
    (hlow : x ∈ F → C.numberOf x < a → reached) :
    (if x ∈ A then (1 : ℤ) else 0) + (if a ≤ C.numberOf x then
        (if x ∈ F then 1 else 0) - (if x ∈ S then 1 else 0) else 0) = (if x ∈ F then 1 else 0) ↔
      (x ∈ A ↔ x ∈ F ∧ reached) := by
  by_cases hge : a ≤ C.numberOf x
  · rw [← hhigh hge, if_pos hge]
    by_cases hA : x ∈ A <;> by_cases hS : x ∈ S <;> by_cases hF : x ∈ F <;> simp [hA, hS, hF]
  · have hreached : x ∈ F ∧ reached ↔ x ∈ F := ⟨fun h => h.1, fun h => ⟨h, hlow h (by omega)⟩⟩
    rw [hreached, if_neg hge]
    by_cases hA : x ∈ A <;> by_cases hF : x ∈ F <;> simp [hA, hF]

/-- The logs of some blocks agree if the blocks do, and only then. -/
theorem forall_parts_iff {A F : Finset H} (hA : ∀ x ∈ A, C.Bearing x) (hF : ∀ x ∈ F, C.Bearing x)
    (p : H → Prop) : (∀ key : H × ℕ, p key.1 → (key ∈ parts C.logKeys A ↔ key ∈ parts C.logKeys F)) ↔
      ∀ x, p x → (x ∈ A ↔ x ∈ F) := by
  constructor
  · intro h x hp
    by_cases hx : C.Bearing x
    · obtain ⟨e, he⟩ := List.exists_mem_of_ne_nil _ hx
      have hkey : (x, e.logIndex) ∈ C.logKeys x := List.mem_map.2 ⟨e, he, by rw [C.log_hash x e he]⟩
      simpa only [mem_parts_iff, hkey, and_true] using h (x, e.logIndex) hp
    · exact ⟨fun h => absurd (hA x h) hx, fun h => absurd (hF x h) hx⟩
  · intro h key hp
    rw [mem_parts_iff, mem_parts_iff, h key.1 hp]

theorem parts_eq_filter_iff {A F : Finset H} (hA : ∀ x ∈ A, C.Bearing x) (hF : ∀ x ∈ F, C.Bearing x)
    {p : H → Prop} [DecidablePred p] :
    parts C.logKeys A = (parts C.logKeys F).filter (fun key => p key.1) ↔
      ∀ x, x ∈ A ↔ x ∈ F ∧ p x := by
  have hfilter : (parts C.logKeys F).filter (fun key => p key.1) = parts C.logKeys (F.filter p) := by
    ext key
    rw [Finset.mem_filter, mem_parts_iff, mem_parts_iff, Finset.mem_filter]
    exact ⟨fun ⟨⟨h1, h2⟩, h3⟩ => ⟨⟨h1, h3⟩, h2⟩, fun ⟨⟨h1, h3⟩, h2⟩ => ⟨⟨h1, h2⟩, h3⟩⟩
  have hagree := forall_parts_iff hA (fun x hx => hF x (Finset.mem_of_mem_filter x hx)) (F := F.filter p)
    fun _ => True
  rw [hfilter, Finset.ext_iff]
  simpa only [true_implies, Finset.mem_filter] using hagree

/-- **Stopping at a batch, exactly.** The first batches and a second reading of the stream
deliver what the uninterrupted replay does, each log once net of retractions, if and only if
the first batches left live just the final logs they reach. -/
theorem resume_iff {ks : List (Cycle C)} (run : Run d f ks) {N j : ℕ} {r r' : Replayed H D}
    {b : DeliveryBatch H D}
    (replay : replayFrom .fresh d f (emitted (deltas ks)) (cursorAfter (deltas ks)).latestBlock
      (cursorAfter (deltas ks)).lastToBlock = .ok r)
    (stop : (batchStreamForDelivery r.eventStream r.newLastSync N)[j]? = some b)
    (resumed : replayFrom b.lastSync d f (emitted (deltas ks)) (cursorAfter (deltas ks)).latestBlock
      (cursorAfter (deltas ks)).lastToBlock = .ok r') :
    (foldEvents ∅ (delivered ((batchStreamForDelivery r.eventStream r.newLastSync N).take (j + 1)) ++
        delivered (batchStreamForDelivery r'.eventStream r'.newLastSync N)) =
          foldEvents ∅ r.eventStream ∧
      ∀ key, netDelivered key
        (delivered ((batchStreamForDelivery r.eventStream r.newLastSync N).take (j + 1)) ++
          delivered (batchStreamForDelivery r'.eventStream r'.newLastSync N)) =
            if key ∈ foldEvents ∅ r.eventStream then 1 else 0) ↔
    foldEvents ∅ (delivered ((batchStreamForDelivery r.eventStream r.newLastSync N).take (j + 1))) =
      (foldEvents ∅ (emitted (deltas ks))).filter fun key =>
        j + 1 = (batchStreamForDelivery r.eventStream r.newLastSync N).length ∨
          C.numberOf key.1 ≤ reach
            (delivered ((batchStreamForDelivery r.eventStream r.newLastSync N).take (j + 1))) := by
  obtain ⟨δs, -, hst, -⟩ := run_stored run
  obtain ⟨stored, W, hstream, hleg, hbear, hheld, hsync, hWn, -, hW⟩ := replay_whole hst replay
  have hbearops : ∀ o ∈ δs.flatMap Delta.ops, C.Bearing o.key := fun o ho => (hst.named o ho).1
  rw [hstream, hsync] at stop ⊢
  have hN := one_le_batchSize hbear hleg stop
  obtain ⟨pre, post, hpost, hpre, hcursor⟩ := stop_batch hbear hleg stop
  rw [hpre]
  set F := held ∅ (δs.flatMap Delta.ops) with hF
  have hFkey : ∀ x ∈ F, C.Bearing x ∧ d ≤ C.numberOf x := by
    intro x hx
    obtain ⟨o, ho, rfl⟩ := List.mem_map.1 (mem_keys_of_mem_held hx)
    exact hst.named o ho
  have hlegpre : Legal ∅ pre := by
    rw [hpost, legal_append] at hleg
    exact hleg.1
  have hbearpre : ∀ x ∈ held ∅ pre, C.Bearing x := by
    intro x hx
    obtain ⟨o, ho, rfl⟩ := List.mem_map.1 (mem_keys_of_mem_held hx)
    exact hbear o (by rw [hpost]; exact List.mem_append_left _ ho)
  -- the second reading begins with the window of the batch
  obtain ⟨S, hwin, hsub, hhigh, hlow⟩ := window_of_batch hst.le_latest (fun x hx => (hFkey x hx).2) hW hcursor
  have hSF : S.toFinset ⊆ F := fun x hx => ((hW x).1 (hsub.subset (List.mem_toFinset.1 hx))).1
  rw [hst.emitted_eq] at resumed ⊢
  obtain ⟨hstream', -⟩ := replayFrom_emit hbearops hst.legal hwin (hWn.sublist hsub) resumed
  have hbear' : ∀ o ∈ settle (C.settledAt b.lastSync.lastToBlock) S.toFinset
      (fromHeight C (getFromBlock b.lastSync d f) (δs.flatMap Delta.ops)), C.Bearing o.key := fun o ho =>
    hbearops o (List.mem_of_mem_filter (settle_sublist.subset ho))
  have hfold : ∀ os : List (Op H), foldEvents ∅ (os.flatMap C.emit) = parts C.logKeys (held ∅ os) :=
    fun os => by rw [← foldEvents_emit, parts_empty]
  rw [hstream', delivered_emit hbear' (legal_settle (S := S.toFinset)).chain hN, ← List.flatMap_append,
    hfold, hfold, hfold, hfold, hheld, ← hF, parts_eq_filter_iff hbearpre (fun x hx => (hFkey x hx).1)
      (p := fun x : H => j + 1 = (batchStreamForDelivery (stored.flatMap C.emit) _ N).length ∨
        C.numberOf x ≤ reach (pre.flatMap C.emit))]
  simp only [← List.mem_toFinset (l := S)] at hhigh
  have hnet : ∀ x, net x (pre ++ settle (C.settledAt b.lastSync.lastToBlock) S.toFinset
      (fromHeight C (getFromBlock b.lastSync d f) (δs.flatMap Delta.ops))) = _ := net_resumed hlegpre hSF
  constructor
  · rintro ⟨-, hcount⟩ x
    by_cases hx : C.Bearing x
    · rw [← count_iff (hhigh x) (hlow x), ← hnet x]
      obtain ⟨e, he⟩ := List.exists_mem_of_ne_nil _ hx
      have hkey : (x, e.logIndex) ∈ C.logKeys x := List.mem_map.2 ⟨e, he, by rw [C.log_hash x e he]⟩
      have hone := hcount (x, e.logIndex)
      rw [netDelivered_emit hkey] at hone
      simpa only [mem_parts_iff, hkey, and_true] using hone
    · exact ⟨fun h => absurd (hbearpre x h) hx, fun h => absurd (hFkey x h.1).1 hx⟩
  · intro hcut
    constructor
    · congr 1
      refine held_resumed_of hSF (fun x hlt => ?_) (fun x hge => ?_)
      · rw [hcut]
        exact ⟨fun h => h.1, fun h => ⟨h, hlow x h hlt⟩⟩
      · rw [hcut, hhigh x hge]
    · intro key
      by_cases hkey : key ∈ C.logKeys key.1
      · have hone := (count_iff (hhigh key.1) (hlow key.1)).2 (hcut key.1)
        rw [netDelivered_emit hkey, net_resumed hlegpre hSF, hone]
        simp only [mem_parts_iff, hkey, and_true]
      · rw [netDelivered_of_notMem hkey, if_neg]
        rw [mem_parts_iff]
        exact fun h => hkey h.2

/-- The replay of the two-cycle stream of `reorgRun`, cut into batches of one. -/
def reorgReplay : Replayed ℕ Unit :=
  ⟨emitted (deltas reorgRun), ⟨0, 6, 4, [⟨104, 4, [⟨104, 4, 0, false, ()⟩]⟩]⟩⟩

theorem replay_reorgRun : replayFrom .fresh 0 2 (emitted (deltas reorgRun))
    (cursorAfter (deltas reorgRun)).latestBlock (cursorAfter (deltas reorgRun)).lastToBlock =
      .ok reorgReplay := rfl

/-- The second reading passes on block `5`, which lies above the cursor, and its retraction. -/
def reorgAgain : Replayed ℕ Unit :=
  ⟨[⟨5, 5, 0, false, ()⟩, ⟨5, 5, 0, true, ()⟩], ⟨4, 6, 4, reorgReplay.newLastSync.unconfirmedBlocks⟩⟩

theorem resume_iff_reorgRun : foldEvents ∅ (delivered
    ((batchStreamForDelivery reorgReplay.eventStream reorgReplay.newLastSync 1).take 5) ++
      delivered (batchStreamForDelivery reorgAgain.eventStream reorgAgain.newLastSync 1)) =
        foldEvents ∅ reorgReplay.eventStream := by
  have hagain : replayFrom reorgReplay.newLastSync 0 2 (emitted (deltas reorgRun)) 6 4 = .ok reorgAgain := rfl
  have hstop := resume_iff run_reorgRun (N := 1) (j := 4)
    (b := ⟨[⟨104, 4, 0, false, ()⟩], reorgReplay.newLastSync⟩) replay_reorgRun rfl hagain
  exact (hstop.2 (by decide)).1

/-- Block `4` is delivered and its cursor persisted. The cursor lists block `104`, which is
yet to be delivered, and the second reading delivers nothing: block `4` stays for good. -/
theorem reorgRun_stopped : ∃ (b : DeliveryBatch ℕ Unit) (r' : Replayed ℕ Unit),
    Run 0 2 reorgRun ∧
    replayFrom .fresh 0 2 (emitted (deltas reorgRun)) 6 4 = .ok reorgReplay ∧
    (batchStreamForDelivery reorgReplay.eventStream reorgReplay.newLastSync 1)[1]? = some b ∧
    replayFrom b.lastSync 0 2 (emitted (deltas reorgRun)) 6 4 = .ok r' ∧
    foldEvents ∅ (delivered
      ((batchStreamForDelivery reorgReplay.eventStream reorgReplay.newLastSync 1).take 2) ++
        delivered (batchStreamForDelivery r'.eventStream r'.newLastSync 1)) = {(1, 0), (4, 0)} ∧
    foldEvents ∅ reorgReplay.eventStream = {(1, 0), (104, 0)} :=
  ⟨_, _, run_reorgRun, rfl, rfl, rfl, by decide, by decide⟩

end Etherfold
