import Etherfold.Ledger.Settle
import Etherfold.Chain.View

/-!
# Replaying a stored stream

A stored stream carries its verdicts. `generateStreamFromReplay` walks it against the
cursor's window and passes on what is news to the fold.

* `Walk`: what the walk carries, the blocks it holds and the order they came in.
* `survivors`: the window the walk leaves.
* `walk_emit`: the walk over the entries of a ledger passes on what `settle` keeps of it.
* `replay_emit`: **what `generateStreamFromReplay` makes of a stored stream**.
-/

namespace Etherfold

open Ledger

variable {H D : Type}

/-- The stream to deliver and the cursor after it. -/
structure Replayed (H D : Type) where
  eventStream : List (LogEvent H D)
  newLastSync : LastSync H D
  deriving DecidableEq, Repr

/-- What the walk carries: the blocks it holds by hash, the hashes in the order they were
first seen, and the stream so far. -/
structure Walk (H D : Type) where
  live : H → Option (EventBlock H D)
  order : List H
  eventStream : List (LogEvent H D)

variable [DecidableEq H]

/-- The walk begins with the window. -/
def Walk.start (window : List (EventBlock H D)) : Walk H D :=
  window.foldl (fun w b =>
    { w with
      live := Function.update w.live b.hash (some b)
      order := if (w.live b.hash).isSome then w.order else w.order ++ [b.hash] })
    ⟨fun _ => none, [], []⟩

/-- The walk retracts this block again before it applies it again. -/
def retractedLater (hash : H) : List (StreamBlock H D) → Bool
  | [] => false
  | group :: groups => if group.hash = hash then group.removed else retractedLater hash groups

/-- One run of entries, with the runs still to come. -/
def Walk.step (lastToBlock : ℕ) (w : Walk H D) (group : StreamBlock H D)
    (later : List (StreamBlock H D)) : Walk H D :=
  if group.removed then
    -- nothing to take back: never applied under this cursor, or skipped whole
    if (w.live group.hash).isNone then w
    else
      { w with
        live := Function.update w.live group.hash none
        eventStream := w.eventStream ++ group.events }
  else if (w.live group.hash).isSome then w
  -- a branch this fold has already settled
  else if decide (group.number ≤ lastToBlock) && retractedLater group.hash later then w
  else
    { live := Function.update w.live group.hash (some ⟨group.hash, group.number, group.events⟩)
      order := w.order ++ [group.hash]
      eventStream := w.eventStream ++ group.events }

/-- The walk over all runs. -/
def walk (lastToBlock : ℕ) : Walk H D → List (StreamBlock H D) → Walk H D
  | w, [] => w
  | w, group :: groups => walk lastToBlock (w.step lastToBlock group groups) groups

/-- The blocks still held, each once, as far as finality does not drop them. -/
def survivors (live : H → Option (EventBlock H D)) (newLastToBlock finality : ℕ) :
    List H → List H → List (EventBlock H D)
  | _, [] => []
  | kept, hash :: order =>
    match live hash with
    | none => survivors live newLastToBlock finality kept order
    | some block =>
      if hash ∈ kept then survivors live newLastToBlock finality kept order
      else if newLastToBlock - block.number ≤ finality then
        block :: survivors live newLastToBlock finality (hash :: kept) order
      else survivors live newLastToBlock finality (hash :: kept) order

/-- **A stored stream, turned back into the stream to deliver**, or the refusal of one that
does not start where the cursor resumes. -/
def generateStreamFromReplay (lastSync : LastSync H D) (defaultFromBlock : ℕ)
    (storedStream : List (LogEvent H D)) (o : NewSync) :
    Except UnexpectedFromBlockError (Replayed H D) :=
  let expectedFromBlock := getFromBlock lastSync defaultFromBlock o.finality
  if o.newLastFromBlock ≠ expectedFromBlock then
    .error ⟨expectedFromBlock, o.newLastFromBlock⟩
  else
    let w := walk lastSync.lastToBlock (Walk.start lastSync.unconfirmedBlocks)
      (groupStreamPerBlock storedStream)
    .ok
      { eventStream := w.eventStream
        newLastSync :=
          { lastFromBlock := o.newLastFromBlock
            latestBlock := o.newLatestBlock
            lastToBlock := o.newLastToBlock
            unconfirmedBlocks := sortBlocks (survivors w.live o.newLastToBlock o.finality [] w.order) } }

/-- A stream that starts where the cursor resumes is accepted, and only such a one. -/
theorem replay_ok_iff (c : LastSync H D) (d : ℕ) (es : List (LogEvent H D)) (o : NewSync) :
    (∃ r, generateStreamFromReplay c d es o = .ok r) ↔
      o.newLastFromBlock = getFromBlock c d o.finality := by
  unfold generateStreamFromReplay
  by_cases h : o.newLastFromBlock = getFromBlock c d o.finality <;> simp [h]

variable {C : Chain H D}

/-- The blocks of a set, as the walk holds them. -/
def Chain.holding (C : Chain H D) (S : Finset H) (x : H) : Option (EventBlock H D) :=
  if x ∈ S then some (C.block x) else none

theorem Chain.holding_insert {S : Finset H} (x : H) :
    Function.update (C.holding S) x (some (C.block x)) = C.holding (insert x S) := by
  funext y
  unfold Chain.holding
  by_cases hy : y = x
  · subst hy; simp
  · simp [hy]

theorem Chain.holding_erase {S : Finset H} (x : H) :
    Function.update (C.holding S) x none = C.holding (S.erase x) := by
  funext y
  unfold Chain.holding
  by_cases hy : y = x
  · subst hy; simp
  · simp [hy]

theorem walkStart_map {ws : List H} (hn : ws.Nodup) :
    (Walk.start (ws.map C.block)).live = C.holding ws.toFinset ∧
      (Walk.start (ws.map C.block)).order = ws ∧ (Walk.start (ws.map C.block)).eventStream = [] := by
  induction ws using List.reverseRecOn with
  | nil => exact ⟨rfl, rfl, rfl⟩
  | append_singleton ws x ih =>
    obtain ⟨hws, -, hx⟩ := List.nodup_append.1 hn
    have hx : x ∉ ws := fun h => hx x h x (by simp) rfl
    obtain ⟨hlive, horder, hstream⟩ := ih hws
    unfold Walk.start at hlive horder hstream ⊢
    rw [List.map_append, List.foldl_append]
    simp only [List.map_cons, List.map_nil, List.foldl_cons, List.foldl_nil, hlive, horder, hstream,
      Chain.block_hash, and_true]
    constructor
    · rw [Chain.holding_insert]
      congr 1
      ext y; simp
    · simp [Chain.holding, hx]

theorem retractedLater_group (x : H) (ops : List (Op H)) :
    retractedLater x (ops.map C.group) = Ledger.retractedLater x ops := by
  induction ops with
  | nil => rfl
  | cons o ops ih =>
    cases o with
    | add y => simp only [List.map_cons, retractedLater, Ledger.retractedLater, ih, Chain.group_hash,
        Op.key_add]; rfl
    | retract y => simp only [List.map_cons, retractedLater, Ledger.retractedLater, ih, Chain.group_hash,
        Op.key_retract]; rfl

/-- The additions a fold at `lastToBlock` may leave out when they are taken back again. -/
def Chain.settledAt (C : Chain H D) (lastToBlock : ℕ) (x : H) : Bool :=
  decide (C.numberOf x ≤ lastToBlock)

/-- **The walk passes on the news.** -/
theorem walk_emit {n : ℕ} {ops : List (Op H)} {S : Finset H} {w : Walk H D}
    (hlive : w.live = C.holding S) (horder : ∀ x ∈ S, x ∈ w.order) :
    (walk n w (ops.map C.group)).live = C.holding (held S ops) ∧
      (∀ x ∈ held S ops, x ∈ (walk n w (ops.map C.group)).order) ∧
      (walk n w (ops.map C.group)).eventStream =
        w.eventStream ++ (settle (C.settledAt n) S ops).flatMap C.emit := by
  -- along the walk the holding is that of the news alone
  suffices hsettle : ∀ (S : Finset H) (w : Walk H D), w.live = C.holding S → (∀ x ∈ S, x ∈ w.order) →
      (walk n w (ops.map C.group)).live = C.holding (held S (settle (C.settledAt n) S ops)) ∧
      (∀ x ∈ held S (settle (C.settledAt n) S ops), x ∈ (walk n w (ops.map C.group)).order) ∧
      (walk n w (ops.map C.group)).eventStream =
        w.eventStream ++ (settle (C.settledAt n) S ops).flatMap C.emit by
    have := hsettle S w hlive horder
    rwa [held_settle] at this
  clear hlive horder
  induction ops with
  | nil => exact fun S w hlive horder => ⟨hlive, horder, by simp [walk, settle]⟩
  | cons o ops ih =>
    intro S w hlive horder
    rw [List.map_cons, walk]
    have hat : ∀ x, w.live x = if x ∈ S then some (C.block x) else none := fun x => by rw [hlive]; rfl
    cases o with
    | retract x =>
      unfold settle Walk.step
      simp only [show (C.group (.retract x)).removed = true from rfl, if_true, Chain.group_hash,
        Op.key_retract, hat x]
      by_cases hx : x ∈ S
      · simp only [hx, if_true, Option.isNone_some, Bool.false_eq_true, if_false, held_retract]
        obtain ⟨h1, h2, h3⟩ := ih (S.erase x) ⟨Function.update w.live x none, w.order,
          w.eventStream ++ (C.group (.retract x)).events⟩ (by rw [hlive]; exact Chain.holding_erase x)
          (fun y hy => horder y (Finset.mem_of_mem_erase hy))
        refine ⟨h1, h2, ?_⟩
        rw [h3, List.flatMap_cons, Chain.group_events, List.append_assoc]
      · simp only [hx, if_false, Option.isNone_none, if_true]
        exact ih S w hlive horder
    | add x =>
      unfold settle Walk.step
      simp only [show (C.group (.add x)).removed = false from rfl, Bool.false_eq_true, if_false,
        Chain.group_hash, Chain.group_number, Op.key_add, hat x, retractedLater_group]
      by_cases hx : x ∈ S
      · simp only [hx, if_true, Option.isSome_some]
        exact ih S w hlive horder
      · simp only [hx, if_false, Option.isSome_none, Bool.false_eq_true]
        rw [show decide (C.numberOf x ≤ n) = C.settledAt n x from rfl]
        split
        · exact ih S w hlive horder
        · rw [held_add]
          obtain ⟨h1, h2, h3⟩ := ih (insert x S) ⟨Function.update w.live x (some (C.block x)),
            w.order ++ [x], w.eventStream ++ (C.group (.add x)).events⟩
            (by rw [hlive]; exact Chain.holding_insert x) (by
              intro y hy
              rcases Finset.mem_insert.1 hy with rfl | hy
              · simp
              · exact List.mem_append_left _ (horder y hy))
          refine ⟨h1, h2, ?_⟩
          rw [List.flatMap_cons, ← List.append_assoc, ← Chain.group_events]
          exact h3

/-- The window holds what survives, as far as finality does not drop it. -/
theorem survivors_holding {S : Finset H} {n f : ℕ} (kept order : List H) :
    ∃ xs : List H, survivors (C.holding S) n f kept order = xs.map C.block ∧ xs.Nodup ∧
      ∀ x, x ∈ xs ↔ x ∈ S ∧ x ∈ order ∧ x ∉ kept ∧ n - C.numberOf x ≤ f := by
  induction order generalizing kept with
  | nil => exact ⟨[], rfl, List.nodup_nil, by simp⟩
  | cons y order ih =>
    unfold survivors
    by_cases hy : y ∈ S
    · have hlive : C.holding S y = some (C.block y) := if_pos hy
      simp only [hlive]
      by_cases hk : y ∈ kept
      · obtain ⟨xs, hxs, hn, hmem⟩ := ih kept
        refine ⟨xs, by rw [if_pos hk, hxs], hn, fun x => ?_⟩
        rw [hmem, List.mem_cons]
        have hyx : x = y → x ∈ kept := fun h => h ▸ hk
        tauto
      · obtain ⟨xs, hxs, hn, hmem⟩ := ih (y :: kept)
        by_cases hf : n - (C.block y).number ≤ f
        · refine ⟨y :: xs, by rw [if_neg hk, if_pos hf, hxs, List.map_cons], ?_, fun x => ?_⟩
          · apply List.nodup_cons.2
            exact ⟨fun h => ((hmem y).1 h).2.2.1 List.mem_cons_self, hn⟩
          · rw [Chain.block_number] at hf
            rw [List.mem_cons, hmem, List.mem_cons, List.mem_cons]
            by_cases hxy : x = y
            · subst hxy; tauto
            · tauto
        · refine ⟨xs, by rw [if_neg hk, if_neg hf, hxs], hn, fun x => ?_⟩
          rw [Chain.block_number] at hf
          rw [hmem, List.mem_cons, List.mem_cons]
          by_cases hxy : x = y
          · subst hxy; tauto
          · tauto
    · have hlive : C.holding S y = none := if_neg hy
      simp only [hlive]
      obtain ⟨xs, hxs, hn, hmem⟩ := ih kept
      refine ⟨xs, hxs, hn, fun x => ?_⟩
      rw [hmem, List.mem_cons]
      have hyx : x = y → x ∉ S := fun h => h ▸ hy
      tauto

/-- **What `generateStreamFromReplay` makes of a stored stream**: the news of its ledger for
the holding of the window, and a window of what is held in the end. -/
theorem replay_emit {c : LastSync H D} {d : ℕ} {ws : List H} {ops : List (Op H)} {o : NewSync}
    (hc : c.unconfirmedBlocks = ws.map C.block) (hn : ws.Nodup) (hb : ∀ o ∈ ops, C.Bearing o.key)
    (hch : ops.IsChain (· ≠ ·)) {r : Replayed H D}
    (h : generateStreamFromReplay c d (ops.flatMap C.emit) o = .ok r) :
    o.newLastFromBlock = getFromBlock c d o.finality ∧
      r.eventStream = (settle (C.settledAt c.lastToBlock) ws.toFinset ops).flatMap C.emit ∧
      ∃ ws' : List H, r.newLastSync =
          ⟨o.newLastFromBlock, o.newLatestBlock, o.newLastToBlock, ws'.map C.block⟩ ∧
        ws'.Nodup ∧ (ws'.Pairwise fun x y => C.numberOf x ≤ C.numberOf y) ∧
        ∀ x, x ∈ ws' ↔ x ∈ held ws.toFinset ops ∧ o.newLastToBlock - C.numberOf x ≤ o.finality := by
  have hfrom : o.newLastFromBlock = getFromBlock c d o.finality := (replay_ok_iff _ _ _ _).1 ⟨r, h⟩
  refine ⟨hfrom, ?_⟩
  obtain ⟨hlive, horder, hstream⟩ := walkStart_map (C := C) hn
  rw [← hc] at hlive horder hstream
  have hmem : ∀ x ∈ ws.toFinset, x ∈ (Walk.start c.unconfirmedBlocks).order := fun x hx => by
    rw [horder]
    exact List.mem_toFinset.1 hx
  obtain ⟨wlive, worder, wstream⟩ := @walk_emit _ _ _ _ c.lastToBlock ops _ _ hlive hmem
  unfold generateStreamFromReplay at h
  simp only [← hfrom, ne_eq, not_true_eq_false, if_false, Except.ok.injEq,
    Chain.groupStream_emit hb hch, wlive] at h
  subst h
  refine ⟨by rw [wstream, hstream, List.nil_append], ?_⟩
  obtain ⟨xs, hxs, hnodup, hmem⟩ := survivors_holding (C := C) (S := held ws.toFinset ops)
    (n := o.newLastToBlock) (f := o.finality) []
    (walk c.lastToBlock (Walk.start c.unconfirmedBlocks) (ops.map C.group)).order
  have : Std.Total fun x y : H => C.numberOf x ≤ C.numberOf y := ⟨fun x y => le_total _ _⟩
  have : IsTrans H fun x y => C.numberOf x ≤ C.numberOf y := ⟨fun _ _ _ => le_trans⟩
  have hperm := List.perm_insertionSort (fun x y : H => C.numberOf x ≤ C.numberOf y) xs
  refine ⟨xs.insertionSort fun x y => C.numberOf x ≤ C.numberOf y, ?_, ?_, ?_, fun x => ?_⟩
  · simp only [hxs, LastSync.mk.injEq, true_and]
    unfold sortBlocks
    rw [List.map_insertionSort (fun x y => C.numberOf x ≤ C.numberOf y) (·.number ≤ ·.number)
      C.block _ (fun _ _ _ _ => Iff.rfl)]
  · exact hperm.nodup_iff.2 hnodup
  · exact List.pairwise_insertionSort (fun x y : H => C.numberOf x ≤ C.numberOf y) xs
  · rw [hperm.mem_iff, hmem]
    constructor
    · rintro ⟨h1, -, -, h2⟩
      exact ⟨h1, h2⟩
    · rintro ⟨h1, h2⟩
      exact ⟨h1, worder x h1, by simp, h2⟩

end Etherfold
