import Etherfold.Engine.Window
import Etherfold.Engine.Delivery
import Etherfold.Ledger.Runs
import Mathlib.Data.List.TakeWhile

/-!
# The window carried and the window rebuilt

A receiver carries its window from batch to batch. Whoever has only the stream rebuilds one
from its rows, and lists every block that stands and that finality has not dropped.

* `Mirrored`: the stream holds each block the carried window lists, as the window lists it.
* `mem_rebuilt`: the rebuilt window, read from rows cut at a height.
* `OutOfReach`: what only the rebuilt window lists is nothing a batch can tell apart.
* `delta_iff`: **when both windows derive the same delta**.
* `Mirrored.receive`: an accepted batch keeps the windows in step.
-/

namespace Etherfold

open Ledger

variable {K H D : Type} [DecidableEq K] [DecidableEq H]

/-- A fetch sees one branch: one block at each height. -/
def OneBranch (batch : WireBatch K H D) : Prop :=
  ∀ e ∈ batch.logs, ∀ e' ∈ batch.logs, e.blockNumber = e'.blockNumber → e.blockHash = e'.blockHash

instance (batch : WireBatch K H D) : Decidable (OneBranch batch) :=
  inferInstanceAs (Decidable (∀ e ∈ batch.logs, _))

/-- The window rebuilt from the rows at or above the height finality leaves. -/
def rebuiltWindow (es : List (LogEvent H D)) (lastToBlock finality : ℕ) : List (EventBlock H D) :=
  windowOfStoredStream (es.filter fun e => lastToBlock - finality ≤ e.blockNumber) lastToBlock finality

/-- The block stands in the stream. -/
def Stands (es : List (LogEvent H D)) (b : EventBlock H D) : Prop :=
  (holdingOf (groupStreamPerBlock es)).live b.hash = some b

/-- **Out of a batch's reach**: a standing block that finality has not dropped and the carried window
does not list is below the batch, or above it with no listed block below it contradicted. -/
def OutOfReach (finality : ℕ) (c : LastSync H D) (es : List (LogEvent H D)) (batch : WireBatch K H D) : Prop :=
  ∀ b, Stands es b → c.lastToBlock - b.number ≤ finality → b ∉ c.unconfirmedBlocks →
    b.number < batch.fromBlock ∨ batch.toBlock < b.number ∧ ∀ w ∈ c.unconfirmedBlocks, w.number < b.number →
      contradicted (groupLogsPerBlock batch.logs)
        ⟨batch.latestBlock, batch.fromBlock, batch.toBlock, finality⟩ w = false

/-- **The stream mirrors the window**: its runs are legal and of one height each, the blocks the window
lists stand as listed, ascending, and no two blocks of one height stand. -/
structure Mirrored (numberOf : H → ℕ) (finality : ℕ) (c : LastSync H D) (es : List (LogEvent H D))
    (gs : List (StreamBlock H D)) : Prop where
  stream : es = gs.flatMap (·.events)
  ok : ∀ g ∈ gs, g.Ok ∧ g.number = numberOf g.hash
  legal : Legal ∅ (gs.map StreamBlock.op)
  listed : ∀ w ∈ c.unconfirmedBlocks, (holdingOf gs).live w.hash = some w
  recent : ∀ w ∈ c.unconfirmedBlocks, c.lastToBlock - w.number ≤ finality
  heights : ∀ x y, ((holdingOf gs).live x).isSome = true → ((holdingOf gs).live y).isSome = true →
    numberOf x = numberOf y → x = y
  sorted : c.unconfirmedBlocks.Pairwise fun w w' => w.number < w'.number
  tip : c.lastToBlock ≤ c.latestBlock

/-! ### The runs of a legal stream -/

/-- Runs that form a legal ledger are read back. -/
theorem groupStream_of_legal {gs : List (StreamBlock H D)} (hok : ∀ g ∈ gs, g.Ok) {S : Finset H}
    (hlegal : Legal S (gs.map StreamBlock.op)) : groupStreamPerBlock (gs.flatMap (·.events)) = gs := by
  refine groupStreamPerBlock_flatMap gs hok ?_
  have hchain := hlegal.chain
  rw [List.isChain_map] at hchain
  refine hchain.imp fun g g' hne hsame => hne ?_
  unfold StreamBlock.op
  rw [hsame.1, hsame.2]

omit [DecidableEq H] in
/-- A cut by height keeps or drops each run whole. -/
theorem filter_runs {gs : List (StreamBlock H D)} (hok : ∀ g ∈ gs, g.Ok) (p : ℕ → Bool) :
    (gs.flatMap (·.events)).filter (fun e => p e.blockNumber) =
      (gs.filter fun g => p g.number).flatMap (·.events) := by
  induction gs with
  | nil => rfl
  | cons g gs ih =>
    have hnumber : ∀ e ∈ g.events, e.blockNumber = g.number := (hok g List.mem_cons_self).number
    rw [List.flatMap_cons, List.filter_append, ih fun g' hg' => hok g' (List.mem_cons_of_mem _ hg')]
    by_cases hp : p g.number = true
    · have hall : g.events.filter (fun e => p e.blockNumber) = g.events :=
        List.filter_eq_self.2 fun e he => by rw [hnumber e he, hp]
      have hkeep : (g :: gs).filter (fun g => p g.number) = g :: gs.filter fun g => p g.number :=
        List.filter_cons_of_pos hp
      rw [hall, hkeep, List.flatMap_cons]
    · have hnone : g.events.filter (fun e => p e.blockNumber) = [] :=
        List.filter_eq_nil_iff.2 fun e he => by rwa [hnumber e he]
      have hdrop : (g :: gs).filter (fun g => p g.number) = gs.filter fun g => p g.number :=
        List.filter_cons_of_neg hp
      rw [hnone, hdrop, List.nil_append]

/-- A block is held as a run that added it. -/
theorem holding_run {gs : List (StreamBlock H D)} {x : H} {b : EventBlock H D}
    (h : (holdingOf gs).live x = some b) : ∃ g ∈ gs, g.removed = false ∧ g.toEventBlock = b := by
  unfold holdingOf at h
  induction gs using List.reverseRecOn with
  | nil => cases h
  | append_singleton gs g ih =>
    rw [List.foldl_append, List.foldl_cons, List.foldl_nil] at h
    have hbefore : (gs.foldl Holding.step ⟨fun _ => none, []⟩).live x = some b →
        ∃ g' ∈ gs ++ [g], g'.removed = false ∧ g'.toEventBlock = b := by
      intro hlive
      obtain ⟨g', hg', hrest⟩ := ih hlive
      exact ⟨g', List.mem_append_left _ hg', hrest⟩
    by_cases hne : x = g.hash
    · subst hne
      cases hr : g.removed with
      | true =>
        rw [Holding.step_removed _ hr] at h
        cases h
      | false =>
        rw [Holding.step_added _ hr] at h
        cases hlive : (gs.foldl Holding.step ⟨fun _ => none, []⟩).live g.hash with
        | none =>
          rw [hlive] at h
          exact ⟨g, List.mem_append_right _ (List.mem_singleton_self g), hr, Option.some.inj h⟩
        | some b' =>
          rw [hlive] at h
          exact hbefore (hlive.trans h)
    · rw [Holding.step_of_ne _ hne] at h
      exact hbefore h

/-- What a stream leaves applied is what its runs leave held. -/
theorem liveBlocks_runs {gs : List (StreamBlock H D)} (hok : ∀ g ∈ gs, g.Ok) :
    liveBlocks (gs.flatMap (·.events)) = held ∅ (gs.map StreamBlock.op) := by
  have hrun : ∀ g ∈ gs, ∃ n, g.events.map LogEvent.blockOp = List.replicate (n + 1) g.op := by
    intro g hg
    have hop : ∀ e ∈ g.events, e.blockOp = g.op := by
      intro e he
      unfold LogEvent.blockOp StreamBlock.op
      rw [(hok g hg).hash e he, (hok g hg).removed e he]
    obtain ⟨n, hn⟩ := Nat.exists_eq_succ_of_ne_zero (List.length_pos_iff.2 (hok g hg).events_ne).ne'
    refine ⟨n, List.eq_replicate_iff.2 ⟨by rw [List.length_map, hn], fun o ho => ?_⟩⟩
    obtain ⟨e, he, rfl⟩ := List.mem_map.1 ho
    exact hop e he
  have hgo : ∀ (gs : List (StreamBlock H D)), (∀ g ∈ gs, ∃ n, g.events.map LogEvent.blockOp =
      List.replicate (n + 1) g.op) → ∀ S : Finset H,
        held S ((gs.flatMap (·.events)).map LogEvent.blockOp) = held S (gs.map StreamBlock.op) := by
    intro gs
    induction gs with
    | nil => exact fun _ _ => rfl
    | cons g gs ih =>
      intro hall S
      obtain ⟨n, hn⟩ := hall g List.mem_cons_self
      rw [List.flatMap_cons, List.map_append, held_append, hn, held_replicate,
        ih fun g' hg' => hall g' (List.mem_cons_of_mem _ hg')]
      rfl
  exact hgo gs hrun ∅

omit [DecidableEq H] in
/-- Blocks in order of height, no two of one hash or of one height, ascend. -/
theorem ascending {ws : List (EventBlock H D)} (hle : ws.Pairwise fun w w' => w.number ≤ w'.number)
    (hn : (ws.map (·.hash)).Nodup) (hone : ∀ w ∈ ws, ∀ w' ∈ ws, w.number = w'.number → w.hash = w'.hash) :
    ws.Pairwise fun w w' => w.number < w'.number := by
  rw [List.nodup_iff_pairwise_ne, List.pairwise_map] at hn
  refine (hle.imp₂ (fun w w' hle hne => And.intro hle hne) hn).imp_of_mem fun {w w'} hw hw' hboth => ?_
  exact lt_of_le_of_ne hboth.1 fun heq => hboth.2 (hone w hw w' hw' heq)

omit [DecidableEq H] in
theorem sortBlocks_ordered (ws : List (EventBlock H D)) : (sortBlocks ws).Pairwise fun w w' => w.number ≤ w'.number := by
  have : Std.Total fun w w' : EventBlock H D => w.number ≤ w'.number := ⟨fun w w' => le_total _ _⟩
  have : IsTrans (EventBlock H D) fun w w' => w.number ≤ w'.number := ⟨fun _ _ _ => le_trans⟩
  exact List.pairwise_insertionSort _ _

section Windows

variable {numberOf : H → ℕ} {f : ℕ} {c : LastSync H D} {es : List (LogEvent H D)} {gs : List (StreamBlock H D)}

theorem Mirrored.runs (h : Mirrored numberOf f c es gs) : groupStreamPerBlock es = gs := by
  rw [h.stream]
  exact groupStream_of_legal (fun g hg => (h.ok g hg).1) h.legal

theorem Mirrored.stands (h : Mirrored numberOf f c es gs) {b : EventBlock H D} :
    Stands es b ↔ (holdingOf gs).live b.hash = some b := by
  unfold Stands
  rw [h.runs]

theorem Mirrored.mem_liveBlocks (h : Mirrored numberOf f c es gs) {x : H} :
    x ∈ liveBlocks es ↔ ((holdingOf gs).live x).isSome = true := by
  rw [h.stream, liveBlocks_runs fun g hg => (h.ok g hg).1]
  exact (holding_isSome (fun y => by simp) x).symm

/-- What stands has logs, under its own hash and height. -/
theorem Mirrored.block_ok (h : Mirrored numberOf f c es gs) {b : EventBlock H D} (hb : Stands es b) :
    b.events ≠ [] ∧ (∀ e ∈ b.events, e.blockHash = b.hash ∧ e.blockNumber = numberOf b.hash) ∧
      b.number = numberOf b.hash := by
  obtain ⟨g, hg, -, rfl⟩ := holding_run (h.stands.1 hb)
  obtain ⟨hok, hnumber⟩ := h.ok g hg
  exact ⟨hok.events_ne, fun e he => ⟨hok.hash e he, (hok.number e he).trans hnumber⟩, hnumber⟩

theorem Mirrored.windowOk (h : Mirrored numberOf f c es gs) : WindowOk numberOf c :=
  fun w hw => h.block_ok (h.stands.2 (h.listed w hw))

/-- A window block is at the height of its hash, and alone there. -/
theorem Mirrored.nodup (h : Mirrored numberOf f c es gs) : (c.unconfirmedBlocks.map (·.hash)).Nodup := by
  rw [List.nodup_iff_pairwise_ne, List.pairwise_map]
  refine h.sorted.imp_of_mem fun {w w'} hw hw' hlt heq => ?_
  rw [(h.windowOk w hw).2.2, (h.windowOk w' hw').2.2, heq] at hlt
  exact lt_irrefl _ hlt

/-- **The rebuilt window** lists what stands and finality has not dropped, whatever the cut leaves out. -/
theorem Mirrored.mem_rebuilt (h : Mirrored numberOf f c es gs) {b : EventBlock H D} :
    b ∈ rebuiltWindow es c.lastToBlock f ↔ Stands es b ∧ c.lastToBlock - b.number ≤ f := by
  have hok : ∀ g ∈ gs, g.Ok := fun g hg => (h.ok g hg).1
  have hcut : groupStreamPerBlock (es.filter fun e => c.lastToBlock - f ≤ e.blockNumber) =
      gs.filter fun g => c.lastToBlock - f ≤ g.number := by
    rw [h.stream, filter_runs hok fun n => decide (c.lastToBlock - f ≤ n)]
    refine groupStream_of_legal (S := ∅) (fun g hg => hok g (List.mem_filter.1 hg).1) ?_
    have hlegal := h.legal.filter fun x => c.lastToBlock - f ≤ numberOf x
    rw [Finset.filter_empty, List.filter_map] at hlegal
    have hsame : gs.filter (fun g => decide (c.lastToBlock - f ≤ g.number)) =
        gs.filter ((fun o => decide (c.lastToBlock - f ≤ numberOf o.key)) ∘ StreamBlock.op) := by
      refine List.filter_congr fun g hg => ?_
      rw [(h.ok g hg).2, Function.comp_apply, StreamBlock.op_key]
    rw [hsame]
    exact hlegal
  unfold rebuiltWindow
  rw [mem_windowOfStoredStream, hcut, h.stands]
  refine and_congr_left fun hrecent => ?_
  -- the cut leaves the runs of a recent block whole
  by_cases hnumber : c.lastToBlock - f ≤ numberOf b.hash
  · have hkeep := @holding_filter _ _ _ gs (fun g => decide (c.lastToBlock - f ≤ g.number)) b.hash (fun g hg hgx => by
      rw [decide_eq_true_eq, (h.ok g hg).2, hgx]
      exact hnumber) ⟨fun _ => none, []⟩ ⟨fun _ => none, []⟩ rfl
    have hlive : (holdingOf (gs.filter fun g => decide (c.lastToBlock - f ≤ g.number))).live b.hash =
        (holdingOf gs).live b.hash := hkeep
    rw [hlive]
  · have hnone : (holdingOf (gs.filter fun g => decide (c.lastToBlock - f ≤ g.number))).live b.hash = none :=
      holding_filter_none fun g hg hgx => by
        rw [decide_eq_false_iff_not, (h.ok g hg).2, hgx]
        exact hnumber
    rw [hnone]
    refine ⟨fun hb => ?_, fun hb => ?_⟩
    · cases hb
    · have hheight := (h.block_ok (h.stands.2 hb)).2.2
      omega

/-- The rebuilt window ascends. -/
theorem Mirrored.rebuilt_sorted (h : Mirrored numberOf f c es gs) :
    (rebuiltWindow es c.lastToBlock f).Pairwise fun w w' => w.number < w'.number := by
  have hle : (rebuiltWindow es c.lastToBlock f).Pairwise fun w w' => w.number ≤ w'.number := sortBlocks_ordered _
  have hn : ((rebuiltWindow es c.lastToBlock f).map (·.hash)).Nodup := by
    unfold rebuiltWindow windowOfStoredStream sortBlocks
    have hperm := List.perm_insertionSort (fun w w' : EventBlock H D => w.number ≤ w'.number) (survivors
      (holdingOf (groupStreamPerBlock (es.filter fun e => c.lastToBlock - f ≤ e.blockNumber))).live c.lastToBlock f []
      (holdingOf (groupStreamPerBlock (es.filter fun e => c.lastToBlock - f ≤ e.blockNumber))).order)
    rw [(hperm.map _).nodup_iff]
    exact (mem_survivors (holdingOf_ok _).own [] _).2
  refine ascending hle hn fun w hw w' hw' heq => ?_
  have hstand := (h.mem_rebuilt.1 hw).1
  have hstand' := (h.mem_rebuilt.1 hw').1
  rw [(h.block_ok hstand).2.2, (h.block_ok hstand').2.2] at heq
  refine h.heights w.hash w'.hash ?_ ?_ heq
  · rw [h.stands.1 hstand]
    rfl
  · rw [h.stands.1 hstand']
    rfl

/-- The carried window is part of the rebuilt one. -/
theorem Mirrored.subset (h : Mirrored numberOf f c es gs) {w : EventBlock H D} (hw : w ∈ c.unconfirmedBlocks) :
    w ∈ rebuiltWindow es c.lastToBlock f :=
  h.mem_rebuilt.2 ⟨h.stands.2 (h.listed w hw), h.recent w hw⟩

/-- The rebuilt window is in step too, and nothing else is in reach of it. -/
theorem Mirrored.rebuilt (h : Mirrored numberOf f c es gs) :
    Mirrored numberOf f { c with unconfirmedBlocks := rebuiltWindow es c.lastToBlock f } es gs :=
  ⟨h.stream, h.ok, h.legal, fun _ hw => h.stands.1 (h.mem_rebuilt.1 hw).1, fun _ hw => (h.mem_rebuilt.1 hw).2,
    h.heights, h.rebuilt_sorted, h.tip⟩

omit [DecidableEq K] in
theorem Mirrored.rebuilt_outOfReach (h : Mirrored numberOf f c es gs) {batch : WireBatch K H D} :
    OutOfReach f { c with unconfirmedBlocks := rebuiltWindow es c.lastToBlock f } es batch :=
  fun _ hb hrecent hnot => absurd (h.mem_rebuilt.2 ⟨hb, hrecent⟩) hnot

end Windows

/-! ### Two windows, one delta -/

section Delta

variable {numberOf : H → ℕ} {sb : StreamBuilder K} {c c' : LastSync H D} {batch : WireBatch K H D}
  {r r' : Appended H D} {es : List (LogEvent H D)} {gs : List (StreamBlock H D)}

/-- The window blocks a payload takes back. -/
def reorgedBlocks (c : LastSync H D) (es : List (LogEvent H D)) (o : NewSync) : List (EventBlock H D) :=
  c.unconfirmedBlocks.dropWhile (!contradicted (groupLogsPerBlock es) o ·)

theorem receive_stream (h : sb.receive c batch = .ok r) : r.eventStream =
    (reorgedBlocks c batch.logs (sb.newSync batch)).flatMap (·.events.map LogEvent.retracted) ++
      (freshBlocks c batch.logs (sb.newSync batch)).flatMap (·.events) := by
  obtain ⟨-, hgen⟩ := receive_ok h
  unfold generateStreamToAppend at hgen
  dsimp only at hgen
  split at hgen
  · cases hgen
  · rw [← Except.ok.inj hgen]
    rfl

/-- A receiver accepts by the numbers of its cursor. -/
theorem receive_congr (hlatest : c'.latestBlock = c.latestBlock) (hto : c'.lastToBlock = c.lastToBlock)
    (h : sb.receive c batch = .ok r) : ∃ r', sb.receive c' batch = .ok r' := by
  have hfrom : getFromBlock c' sb.defaultFromBlock sb.finality = getFromBlock c sb.defaultFromBlock sb.finality := by
    unfold getFromBlock
    rw [hlatest, hto]
  unfold StreamBuilder.receive at h ⊢
  split at h
  · cases h
  · rename_i hcontext
    rw [if_neg hcontext]
    split at h
    · cases h
    · cases hgen : generateStreamToAppend c sb.defaultFromBlock batch.logs
          ⟨batch.latestBlock, batch.fromBlock, batch.toBlock, sb.finality⟩ with
      | error e =>
        rw [hgen] at h
        cases h
      | ok a =>
        have haccepted := (generate_ok_iff c sb.defaultFromBlock batch.logs
          ⟨batch.latestBlock, batch.fromBlock, batch.toBlock, sb.finality⟩).1 ⟨a, hgen⟩
        obtain ⟨a', ha'⟩ := (generate_ok_iff c' sb.defaultFromBlock batch.logs
          ⟨batch.latestBlock, batch.fromBlock, batch.toBlock, sb.finality⟩).2 (haccepted.trans hfrom.symm)
        rw [ha']
        exact ⟨a', rfl⟩

omit [DecidableEq H] in
theorem nodup_of_ascending {ws : List (EventBlock H D)} (h : ws.Pairwise fun w w' => w.number < w'.number) :
    ws.Nodup := by
  rw [List.nodup_iff_pairwise_ne]
  refine h.imp fun {w w'} hlt heq => ?_
  rw [heq] at hlt
  exact lt_irrefl _ hlt

omit [DecidableEq H] in
/-- **Blocks out of reach change no walk.** A window and a larger one are walked to the same end, when
what only the larger one lists is never contradicted and nothing below it is. -/
theorem dropWhile_congr {p : EventBlock H D → Bool} {ds ws : List (EventBlock H D)}
    (hds : ds.Pairwise fun w w' => w.number < w'.number) (hws : ws.Pairwise fun w w' => w.number < w'.number)
    (hsub : ∀ w ∈ ws, w ∈ ds) (hextra : ∀ e ∈ ds, e ∉ ws → p e = false ∧
      ∀ w ∈ ws, w.number < e.number → p w = false) : ds.dropWhile (!p ·) = ws.dropWhile (!p ·) := by
  induction ds generalizing ws with
  | nil =>
    have hnil : ws = [] := List.eq_nil_iff_forall_not_mem.2 fun w hw => List.not_mem_nil (hsub w hw)
    rw [hnil]
  | cons d ds ih =>
    obtain ⟨hlow, hds'⟩ := List.pairwise_cons.1 hds
    have hrest : ∀ w ∈ ws, w ≠ d → w ∈ ds := fun w hw hne => (List.mem_cons.1 (hsub w hw)).resolve_left hne
    by_cases hd : d ∈ ws
    · -- the lowest block of the larger window is the lowest of the other
      obtain ⟨ws', rfl⟩ : ∃ ws', ws = d :: ws' := by
        cases ws with
        | nil => exact absurd hd List.not_mem_nil
        | cons w ws' =>
          by_cases heq : w = d
          · exact ⟨ws', by rw [heq]⟩
          · have hdw := hlow w (hrest w List.mem_cons_self heq)
            have hwd := (List.pairwise_cons.1 hws).1 d ((List.mem_cons.1 hd).resolve_left (Ne.symm heq))
            omega
      obtain ⟨hlow', hws'⟩ := List.pairwise_cons.1 hws
      have hne : ∀ w ∈ ws', w ≠ d := fun w hw heq => lt_irrefl _ (heq ▸ hlow' w hw)
      have hdne : ∀ e ∈ ds, e ≠ d := fun e he heq => lt_irrefl _ (heq ▸ hlow e he)
      cases hp : p d with
      | false =>
        have hstep : ∀ l : List (EventBlock H D), (d :: l).dropWhile (!p ·) = l.dropWhile (!p ·) :=
          fun l => List.dropWhile_cons_of_pos (by rw [hp]; rfl)
        rw [hstep, hstep]
        refine ih hds' hws' (fun w hw => hrest w (List.mem_cons_of_mem _ hw) (hne w hw)) fun e he hnot => ?_
        obtain ⟨h1, h2⟩ := hextra e (List.mem_cons_of_mem _ he) fun hmem =>
          hnot ((List.mem_cons.1 hmem).resolve_left (hdne e he))
        exact ⟨h1, fun w hw => h2 w (List.mem_cons_of_mem _ hw)⟩
      | true =>
        -- nothing above a contradicted block is out of reach
        have hsame : ds = ws' := by
          have hall : ∀ e ∈ ds, e ∈ ws' := by
            intro e he
            by_contra hnot
            obtain ⟨-, h2⟩ := hextra e (List.mem_cons_of_mem _ he) fun hmem =>
              hnot ((List.mem_cons.1 hmem).resolve_left (hdne e he))
            have hfalse := h2 d List.mem_cons_self (hlow e he)
            rw [hp] at hfalse
            cases hfalse
          have hperm : ds.Perm ws' := (List.perm_ext_iff_of_nodup (nodup_of_ascending hds')
            (nodup_of_ascending hws')).2 fun w =>
            ⟨hall w, fun hw => hrest w (List.mem_cons_of_mem _ hw) (hne w hw)⟩
          exact hperm.eq_of_pairwise (fun a b _ _ hab hba => absurd (lt_trans hab hba) (lt_irrefl _)) hds' hws'
        rw [hsame]
    · have hp : p d = false := (hextra d List.mem_cons_self hd).1
      have hstep : (d :: ds).dropWhile (!p ·) = ds.dropWhile (!p ·) :=
        List.dropWhile_cons_of_pos (by rw [hp]; rfl)
      rw [hstep]
      exact ih hds' hws (fun w hw => hrest w hw fun heq => hd (heq ▸ hw)) fun e he hnot =>
        hextra e (List.mem_cons_of_mem _ he) hnot

omit [DecidableEq H] in
/-- An ascending window is walked past everything below what the walk has passed. -/
theorem mem_takeWhile_of_lt {p : EventBlock H D → Bool} {ds : List (EventBlock H D)}
    (hds : ds.Pairwise fun w w' => w.number < w'.number) {b w : EventBlock H D} (hb : b ∈ ds.takeWhile p)
    (hw : w ∈ ds) (hlt : w.number < b.number) : p w = true := by
  rw [← List.takeWhile_append_dropWhile (p := p) (l := ds), List.mem_append] at hw
  rcases hw with hw | hw
  · exact List.mem_takeWhile_imp hw
  · rw [← List.takeWhile_append_dropWhile (p := p) (l := ds), List.pairwise_append] at hds
    have hlt' := hds.2.2 b hb w hw
    omega

omit [DecidableEq H] in
/-- A duplicate-free window is split by the walk. -/
theorem notMem_dropWhile {p : EventBlock H D → Bool} {ds : List (EventBlock H D)} (hn : ds.Nodup)
    {b : EventBlock H D} (hb : b ∈ ds.takeWhile p) : b ∉ ds.dropWhile p := by
  rw [← List.takeWhile_append_dropWhile (p := p) (l := ds), List.nodup_append] at hn
  exact fun hdrop => hn.2.2 b hb b hdrop rfl

theorem retained_or_reorged {c : LastSync H D} {es : List (LogEvent H D)} {o : NewSync} {w : EventBlock H D}
    (hw : w ∈ c.unconfirmedBlocks) : w ∈ retainedBlocks c es o ∨ w ∈ reorgedBlocks c es o := by
  rw [← List.takeWhile_append_dropWhile (p := (!contradicted (groupLogsPerBlock es) o ·)) (l := c.unconfirmedBlocks)] at hw
  exact List.mem_append.1 hw

omit [DecidableEq K] in
theorem mem_takenBack {c : LastSync H D} {es : List (LogEvent H D)} {o : NewSync} {e : LogEvent H D}
    (he : e ∈ (reorgedBlocks c es o).flatMap (·.events.map LogEvent.retracted)) :
    e.removed = true ∧ ∃ w ∈ c.unconfirmedBlocks, ∃ e' ∈ w.events, e = e'.retracted := by
  obtain ⟨w, hw, hew⟩ := List.mem_flatMap.1 he
  obtain ⟨e', he', rfl⟩ := List.mem_map.1 hew
  exact ⟨rfl, w, (List.dropWhile_suffix _).subset hw, e', he', rfl⟩

omit [DecidableEq K] in
/-- A window block at a height the batch does not read is not contradicted. -/
theorem not_contradicted {b : EventBlock H D} (h : b.number < batch.fromBlock ∨ batch.toBlock < b.number) :
    contradicted (groupLogsPerBlock batch.logs) (sb.newSync batch) b = false := by
  unfold contradicted StreamBuilder.newSync
  rcases h with h | h
  · rw [decide_eq_false (not_le.2 h), Bool.false_and, Bool.false_and]
  · rw [decide_eq_false (not_le.2 h), Bool.and_false, Bool.false_and]

omit [DecidableEq K] in
/-- A block of the range that the batch does not contradict is in the batch. -/
theorem read_again {b : EventBlock H D} (hlo : batch.fromBlock ≤ b.number) (hhi : b.number ≤ batch.toBlock)
    (h : contradicted (groupLogsPerBlock batch.logs) (sb.newSync batch) b = false) :
    ∃ g ∈ groupLogsPerBlock batch.logs, g.number = b.number ∧ g.hash = b.hash := by
  have hhas : newHashAt (groupLogsPerBlock batch.logs) b.number = some b.hash := by
    by_contra hother
    unfold contradicted StreamBuilder.newSync at h
    rw [decide_eq_true hlo, decide_eq_true hhi, decide_eq_true hother] at h
    cases h
  unfold newHashAt at hhas
  rw [Option.map_eq_some_iff] at hhas
  obtain ⟨g, hfind, hgh⟩ := hhas
  have hgn := List.find?_some hfind
  exact ⟨g, List.mem_reverse.1 (List.mem_of_find?_eq_some hfind), of_decide_eq_true hgn, hgh⟩

omit [DecidableEq K] in
/-- A listed block is the standing block of its hash. -/
theorem Mirrored.listed_eq (hm : Mirrored numberOf sb.finality c es gs) {w b : EventBlock H D}
    (hw : w ∈ c.unconfirmedBlocks) (hb : Stands es b) (heq : w.hash = b.hash) : w = b := by
  have hstand := hm.listed w hw
  rw [heq, hm.stands.1 hb] at hstand
  exact (Option.some.inj hstand).symm

/-- A standing block that only the rebuilt window lists, and that a batch reads again or drops with a
block below it, makes the deltas differ. -/
theorem outOfReach_of_delta (hm : Mirrored numberOf sb.finality c es gs) (hnum : Numbered numberOf batch)
    (hc' : c'.unconfirmedBlocks = rebuiltWindow es c.lastToBlock sb.finality) (h : sb.receive c batch = .ok r)
    (h' : sb.receive c' batch = .ok r') (hsame : r'.eventStream = r.eventStream) :
    OutOfReach sb.finality c es batch := by
  obtain ⟨hwf, -⟩ := receive_ok h
  have hgrouped := groupLogsPerBlock_grouped batch.logs hwf.live
  rw [receive_stream h, receive_stream h'] at hsame
  intro b hb hrecent hnot
  by_contra hreach
  rw [not_or, not_lt, not_and_or, not_lt] at hreach
  have hmem : b ∈ c'.unconfirmedBlocks := hc' ▸ hm.mem_rebuilt.2 ⟨hb, hrecent⟩
  obtain ⟨hne, hhash, hbn⟩ := hm.block_ok hb
  obtain ⟨ev, hev⟩ := List.exists_mem_of_ne_nil _ hne
  have hlive : ∀ {c : LastSync H D}, ∀ e ∈ (freshBlocks c batch.logs (sb.newSync batch)).flatMap (·.events),
      e.removed = false ∧ ∃ g ∈ freshBlocks c batch.logs (sb.newSync batch), e ∈ g.events := by
    intro c e he
    obtain ⟨g, hg, heg⟩ := List.mem_flatMap.1 he
    have hlog := (hgrouped.events g (List.mem_filter.1 hg).1 e heg).2
    exact ⟨hwf.live e hlog, g, hg, heg⟩
  -- the carried window takes back no block it does not list
  have hkeeps : ev.retracted ∉
      (reorgedBlocks c batch.logs (sb.newSync batch)).flatMap (·.events.map LogEvent.retracted) ++
        (freshBlocks c batch.logs (sb.newSync batch)).flatMap (·.events) := by
    intro hin
    rcases List.mem_append.1 hin with hin | hin
    · obtain ⟨-, w, hw, e', he', heq⟩ := mem_takenBack hin
      have hown := ((hm.windowOk w hw).2.1 e' he').1
      have hblock : ev.retracted.blockHash = e'.retracted.blockHash := by rw [heq]
      have hwb : w.hash = b.hash := by
        rw [← hown, ← (hhash ev hev).1]
        exact hblock.symm
      exact hnot (hm.listed_eq hw hb hwb ▸ hw)
    · have hremoved := (hlive _ hin).1
      cases hremoved
  rcases retained_or_reorged hmem with hstays | hback
  · have hpass := List.mem_takeWhile_imp hstays
    rw [Bool.not_eq_true'] at hpass
    rcases hreach.2 with hto | hlower
    · -- the batch reads the block again, and only the rebuilt window knows that it stands
      obtain ⟨g, hg, -, hgh⟩ := read_again hreach.1 hto hpass
      obtain ⟨e, he, -⟩ := hgrouped.number g hg
      have hadds : e ∈ (freshBlocks c batch.logs (sb.newSync batch)).flatMap (·.events) := by
        refine List.mem_flatMap.2 ⟨g, List.mem_filter.2 ⟨hg, ?_⟩, he⟩
        rw [Bool.and_eq_true, Bool.not_eq_true', Bool.not_eq_true', List.isEmpty_eq_false_iff]
        refine ⟨List.ne_nil_of_mem he, Bool.eq_false_iff.2 fun hhas => ?_⟩
        obtain ⟨w, hw, heq⟩ := List.any_eq_true.1 hhas
        have hwh : w.hash = g.hash := of_decide_eq_true (Bool.and_eq_true_iff.1 heq).2
        have hwmem : w ∈ c.unconfirmedBlocks := (List.takeWhile_prefix _).subset hw
        exact hnot (hm.listed_eq hwmem hb (hwh.trans hgh) ▸ hwmem)
      have helive := (hlive e hadds).1
      have hin := List.mem_append_right ((reorgedBlocks c batch.logs (sb.newSync batch)).flatMap
        (·.events.map LogEvent.retracted)) hadds
      rw [← hsame] at hin
      rcases List.mem_append.1 hin with hin | hin
      · rw [(mem_takenBack hin).1] at helive
        cases helive
      · obtain ⟨-, g', hg', heg'⟩ := hlive _ hin
        obtain ⟨hg'mem, hg'new⟩ := List.mem_filter.1 hg'
        have hsamehash : g'.hash = b.hash := by
          rw [← (hgrouped.events g' hg'mem e heg').1, (hgrouped.events g hg e he).1, hgh]
        have hsamenumber : b.number = g'.number := by
          obtain ⟨e', he', hn'⟩ := hgrouped.number g' hg'mem
          have hlog' := hgrouped.events g' hg'mem e' he'
          rw [← hn', hnum e' hlog'.2, hlog'.1, hsamehash, hbn]
        rw [Bool.and_eq_true, Bool.not_eq_true', Bool.not_eq_true'] at hg'new
        refine Bool.eq_false_iff.1 hg'new.2 (List.any_eq_true.2 ⟨b, hstays, ?_⟩)
        rw [Bool.and_eq_true, decide_eq_true_eq, decide_eq_true_eq]
        exact ⟨hsamenumber, hsamehash.symm⟩
    · -- the walk over the rebuilt window passes every listed block below this one
      refine hlower fun w hw hlt => ?_
      have hpassw := mem_takeWhile_of_lt (hc' ▸ hm.rebuilt_sorted) hstays (hc' ▸ hm.subset hw) hlt
      rw [Bool.not_eq_true'] at hpassw
      exact hpassw
  · refine hkeeps (hsame ▸ List.mem_append_left _ (List.mem_flatMap.2 ⟨b, hback, ?_⟩))
    exact List.mem_map.2 ⟨ev, hev, rfl⟩

omit [DecidableEq K] in
/-- Where nothing that only the rebuilt window lists is in reach, the blocks taken back and the blocks
added are the same. -/
theorem halves_of_outOfReach (hm : Mirrored numberOf sb.finality c es gs)
    (hc' : c'.unconfirmedBlocks = rebuiltWindow es c.lastToBlock sb.finality) (hwf : batch.WellFormed)
    (hreach : OutOfReach sb.finality c es batch) :
    reorgedBlocks c' batch.logs (sb.newSync batch) = reorgedBlocks c batch.logs (sb.newSync batch) ∧
      freshBlocks c' batch.logs (sb.newSync batch) = freshBlocks c batch.logs (sb.newSync batch) := by
  have hgrouped := groupLogsPerBlock_grouped batch.logs hwf.live
  have hextra : ∀ e ∈ c'.unconfirmedBlocks, e ∉ c.unconfirmedBlocks →
      e.number < batch.fromBlock ∨ batch.toBlock < e.number ∧ ∀ w ∈ c.unconfirmedBlocks, w.number < e.number →
        contradicted (groupLogsPerBlock batch.logs) (sb.newSync batch) w = false := by
    intro e he hnot
    rw [hc'] at he
    obtain ⟨hstands, hrecent⟩ := hm.mem_rebuilt.1 he
    exact hreach e hstands hrecent hnot
  have hback : reorgedBlocks c' batch.logs (sb.newSync batch) = reorgedBlocks c batch.logs (sb.newSync batch) := by
    refine dropWhile_congr (hc' ▸ hm.rebuilt_sorted) hm.sorted (fun w hw => hc' ▸ hm.subset hw) fun e he hnot => ?_
    rcases hextra e he hnot with hlow | ⟨habove, hlower⟩
    · exact ⟨not_contradicted (.inl hlow), fun w _ hlt => not_contradicted (.inl (lt_trans hlt hlow))⟩
    · exact ⟨not_contradicted (.inr habove), hlower⟩
  refine ⟨hback, List.filter_congr fun g hg => ?_⟩
  have hrange : batch.fromBlock ≤ g.number ∧ g.number ≤ batch.toBlock := by
    obtain ⟨e, he, hn⟩ := hgrouped.number g hg
    rw [← hn]
    exact hwf.inRange e (hgrouped.events g hg e he).2
  have hhas : windowHas (retainedBlocks c' batch.logs (sb.newSync batch)) g =
      windowHas (retainedBlocks c batch.logs (sb.newSync batch)) g := by
    rw [Bool.eq_iff_iff]
    unfold windowHas
    rw [List.any_eq_true, List.any_eq_true]
    constructor
    · rintro ⟨w, hw, heq⟩
      refine ⟨w, ?_, heq⟩
      have hwn : w.number = g.number := of_decide_eq_true (Bool.and_eq_true_iff.1 heq).1
      have hwc : w ∈ c.unconfirmedBlocks := by
        by_contra hnot
        have hout := hextra w ((List.takeWhile_prefix _).subset hw) hnot
        omega
      refine (retained_or_reorged hwc).resolve_right fun hdrop => ?_
      rw [← hback] at hdrop
      exact notMem_dropWhile (hc' ▸ nodup_of_ascending hm.rebuilt_sorted) hw hdrop
    · rintro ⟨w, hw, heq⟩
      refine ⟨w, ?_, heq⟩
      have hwc : w ∈ c'.unconfirmedBlocks := hc' ▸ hm.subset ((List.takeWhile_prefix _).subset hw)
      refine (retained_or_reorged hwc).resolve_right fun hdrop => ?_
      rw [hback] at hdrop
      exact notMem_dropWhile (nodup_of_ascending hm.sorted) hw hdrop
  rw [hhas]

/-- **Both windows derive the same delta** just where what only the rebuilt one lists is out of reach. -/
theorem delta_iff (hm : Mirrored numberOf sb.finality c es gs) (hnum : Numbered numberOf batch)
    (hc' : c'.unconfirmedBlocks = rebuiltWindow es c.lastToBlock sb.finality) (h : sb.receive c batch = .ok r)
    (h' : sb.receive c' batch = .ok r') : r'.eventStream = r.eventStream ↔ OutOfReach sb.finality c es batch := by
  refine ⟨outOfReach_of_delta hm hnum hc' h h', fun hreach => ?_⟩
  obtain ⟨hback, hadds⟩ := halves_of_outOfReach hm hc' (receive_ok h).1 hreach
  rw [receive_stream h, receive_stream h', hback, hadds]

/-! ### The windows stay in step -/

/-- The run that takes a block back. -/
def takenBack (w : EventBlock H D) : StreamBlock H D := ⟨⟨w.hash, w.number, w.events.map LogEvent.retracted⟩, true⟩

/-- The run that brings a block in. -/
def broughtIn (w : EventBlock H D) : StreamBlock H D := ⟨w, false⟩

omit [DecidableEq K] in
theorem foldl_takenBack (v : Holding H D) (ws : List (EventBlock H D)) (x : H) :
    ((ws.map takenBack).foldl Holding.step v).live x = if x ∈ ws.map (·.hash) then none else v.live x := by
  induction ws generalizing v with
  | nil => rfl
  | cons w ws ih =>
    rw [List.map_cons, List.foldl_cons, ih, List.map_cons]
    by_cases hx : x ∈ ws.map (·.hash)
    · rw [if_pos hx, if_pos (List.mem_cons_of_mem _ hx)]
    · rw [if_neg hx]
      by_cases hw : x = w.hash
      · rw [if_pos (List.mem_cons.2 (.inl hw)), hw]
        exact v.step_removed (g := takenBack w) rfl
      · rw [if_neg (not_or.2 ⟨hw, hx⟩ ∘ List.mem_cons.1)]
        exact v.step_of_ne (g := takenBack w) hw

omit [DecidableEq K] in
theorem foldl_broughtIn (v : Holding H D) {ws : List (EventBlock H D)} (hn : (ws.map (·.hash)).Nodup)
    (hnone : ∀ w ∈ ws, v.live w.hash = none) :
    (∀ w ∈ ws, ((ws.map broughtIn).foldl Holding.step v).live w.hash = some w) ∧
      ∀ x, x ∉ ws.map (·.hash) → ((ws.map broughtIn).foldl Holding.step v).live x = v.live x := by
  induction ws generalizing v with
  | nil => exact ⟨fun w hw => absurd hw List.not_mem_nil, fun x _ => rfl⟩
  | cons w ws ih =>
    obtain ⟨hnot, hn⟩ := List.nodup_cons.1 hn
    have hother : ∀ x, x ≠ w.hash → (v.step (broughtIn w)).live x = v.live x :=
      fun x hx => v.step_of_ne (g := broughtIn w) hx
    have hne : ∀ w' ∈ ws, w'.hash ≠ w.hash := fun w' hw' heq => hnot (List.mem_map.2 ⟨w', hw', heq⟩)
    obtain ⟨hin, hout⟩ := ih (v.step (broughtIn w)) hn fun w' hw' => by
      rw [hother _ (hne w' hw')]
      exact hnone w' (List.mem_cons_of_mem _ hw')
    rw [List.map_cons, List.foldl_cons]
    refine ⟨fun w' hw' => ?_, fun x hx => ?_⟩
    · rcases List.mem_cons.1 hw' with rfl | hw'
      · have hadded : (v.step (broughtIn w')).live w'.hash = some ((v.live w'.hash).getD w') :=
          v.step_added (g := broughtIn w') rfl
        rw [hout _ hnot, hadded, hnone w' List.mem_cons_self]
        rfl
      · exact hin w' hw'
    · rw [List.map_cons, List.mem_cons, not_or] at hx
      rw [hout x hx.2, hother x hx.1]

/-- A standing block that a batch reads again is listed, when nothing else is in reach. -/
theorem Mirrored.listed_of_range (hm : Mirrored numberOf sb.finality c es gs) (h : sb.receive c batch = .ok r)
    (hreach : OutOfReach sb.finality c es batch) {b : EventBlock H D} (hb : Stands es b)
    (hlo : batch.fromBlock ≤ b.number) (hhi : b.number ≤ batch.toBlock) : b ∈ c.unconfirmedBlocks := by
  by_contra hnot
  have hfrom : batch.fromBlock = getFromBlock c sb.defaultFromBlock sb.finality :=
    (generate_ok_iff _ _ _ _).1 ⟨r, (receive_ok h).2⟩
  have htip := hm.tip
  -- finality drops nothing at or above the resume point
  have hrecent : c.lastToBlock - b.number ≤ sb.finality := by
    unfold getFromBlock at hfrom
    split at hfrom
    · omega
    · omega
  rcases hreach b hb hrecent hnot with hlow | ⟨habove, -⟩
  · omega
  · omega

section Step

variable {retained reorged fresh : List (EventBlock H D)} {stream : List (LogEvent H D)}

omit [DecidableEq K] [DecidableEq H] in
/-- A block that a batch adds comes with a log of it. -/
theorem Split.log (hsplit : Split numberOf c batch retained reorged fresh stream) (hnum : Numbered numberOf batch)
    {g : EventBlock H D} (hg : g ∈ fresh) :
    ∃ e ∈ batch.logs, e.blockHash = g.hash ∧ e.blockNumber = numberOf g.hash := by
  obtain ⟨hne, hall, -⟩ := hsplit.fresh_ok g hg
  obtain ⟨e, he⟩ := List.exists_mem_of_ne_nil _ hne
  obtain ⟨⟨hehash, -⟩, hlog⟩ := hall e he
  exact ⟨e, hlog, hehash, by rw [hnum e hlog, hehash]⟩

/-- A block that a batch adds does not stand, or is taken back first. -/
theorem Mirrored.fresh_unheld (hm : Mirrored numberOf sb.finality c es gs) (hnum : Numbered numberOf batch)
    (h : sb.receive c batch = .ok r) (hreach : OutOfReach sb.finality c es batch)
    (hsplit : Split numberOf c batch retained reorged fresh stream) {g : EventBlock H D} (hg : g ∈ fresh) (hlive : ((holdingOf gs).live g.hash).isSome = true) :
    g.hash ∈ reorged.map (·.hash) := by
  obtain ⟨b, hb⟩ := Option.isSome_iff_exists.1 hlive
  have hbh : b.hash = g.hash := (holdingOf_ok gs).own _ _ hb
  have hstands : Stands es b := hm.stands.2 (hbh ▸ hb)
  obtain ⟨e, hlog, -, hen⟩ := hsplit.log hnum hg
  have hrange : batch.fromBlock ≤ b.number ∧ b.number ≤ batch.toBlock := by
    rw [(hm.block_ok hstands).2.2, hbh, ← hen]
    exact (receive_ok h).1.inRange e hlog
  have hlisted := hm.listed_of_range h hreach hstands hrange.1 hrange.2
  rw [hsplit.window] at hlisted
  rcases List.mem_append.1 hlisted with hret | hre
  · exact absurd (List.mem_map.2 ⟨b, hret, hbh⟩) (hsplit.fresh_new g hg)
  · exact List.mem_map.2 ⟨b, hre, hbh⟩

/-- **What stands after a batch**: what it adds, and what it does not take back. -/
theorem Mirrored.stands_after (hm : Mirrored numberOf sb.finality c es gs) (hnum : Numbered numberOf batch)
    (h : sb.receive c batch = .ok r) (hreach : OutOfReach sb.finality c es batch)
    (hsplit : Split numberOf c batch retained reorged fresh stream) (hn : (fresh.map (·.hash)).Nodup) :
    (∀ w ∈ fresh, (holdingOf (gs ++ (reorged.map takenBack ++ fresh.map broughtIn))).live w.hash = some w) ∧
      ∀ x, x ∉ fresh.map (·.hash) → (holdingOf (gs ++ (reorged.map takenBack ++ fresh.map broughtIn))).live x =
        if x ∈ reorged.map (·.hash) then none else (holdingOf gs).live x := by
  unfold holdingOf
  rw [List.foldl_append, List.foldl_append]
  have htaken := foldl_takenBack (gs.foldl Holding.step ⟨fun _ => none, []⟩) reorged
  obtain ⟨hin, hout⟩ := foldl_broughtIn ((reorged.map takenBack).foldl Holding.step
    (gs.foldl Holding.step ⟨fun _ => none, []⟩)) hn fun w hw => by
      rw [htaken]
      split
      · rfl
      · rename_i hkept
        by_contra hlive
        exact hkept (hm.fresh_unheld hnum h hreach hsplit hw (Option.isSome_iff_ne_none.2 hlive))
  exact ⟨hin, fun x hx => (hout x hx).trans (htaken x)⟩

/-- A block that stays is at the height of none that a batch adds. -/
theorem Mirrored.apart (hm : Mirrored numberOf sb.finality c es gs) (hnum : Numbered numberOf batch)
    (hone : OneBranch batch) (h : sb.receive c batch = .ok r) (hreach : OutOfReach sb.finality c es batch)
    (hsplit : Split numberOf c batch (retainedBlocks c batch.logs (sb.newSync batch)) reorged fresh stream) {x : H}
    (hx : ((holdingOf gs).live x).isSome = true) (hkept : x ∉ reorged.map (·.hash)) {g : EventBlock H D}
    (hg : g ∈ fresh) (heq : numberOf x = numberOf g.hash) : x = g.hash := by
  obtain ⟨b, hb⟩ := Option.isSome_iff_exists.1 hx
  have hbh : b.hash = x := (holdingOf_ok gs).own _ _ hb
  have hstands : Stands es b := hm.stands.2 (hbh ▸ hb)
  have hbn : b.number = numberOf x := by rw [(hm.block_ok hstands).2.2, hbh]
  obtain ⟨e, hlog, hehash, hen⟩ := hsplit.log hnum hg
  have hwf := (receive_ok h).1
  have hrange : batch.fromBlock ≤ b.number ∧ b.number ≤ batch.toBlock := by
    rw [hbn, heq, ← hen]
    exact hwf.inRange e hlog
  have hlisted := hm.listed_of_range h hreach hstands hrange.1 hrange.2
  rw [hsplit.window] at hlisted
  rcases List.mem_append.1 hlisted with hret | hre
  · -- the batch does not contradict the block, so it carries it
    have hpass := List.mem_takeWhile_imp hret
    rw [Bool.not_eq_true'] at hpass
    obtain ⟨g', hg', hn', hh'⟩ := read_again hrange.1 hrange.2 hpass
    have hgrouped := groupLogsPerBlock_grouped batch.logs hwf.live
    obtain ⟨e', he', hen'⟩ := hgrouped.number g' hg'
    obtain ⟨hehash', hlog'⟩ := hgrouped.events g' hg' e' he'
    have hsame := hone e' hlog' e hlog (by rw [hen', hn', hbn, heq, hen])
    rw [← hbh, ← hh', ← hehash', hsame, hehash]
  · exact absurd (List.mem_map.2 ⟨b, hre, hbh⟩) hkept

/-- A listed block that stays stands as it did. -/
theorem Mirrored.stays (hm : Mirrored numberOf sb.finality c es gs) (hnum : Numbered numberOf batch)
    (h : sb.receive c batch = .ok r) (hreach : OutOfReach sb.finality c es batch)
    (hsplit : Split numberOf c batch retained reorged fresh stream) (hn : (fresh.map (·.hash)).Nodup)
    {w : EventBlock H D} (hw : w ∈ retained) :
    (holdingOf (gs ++ (reorged.map takenBack ++ fresh.map broughtIn))).live w.hash = some w := by
  have hlisted : w ∈ c.unconfirmedBlocks := by
    rw [hsplit.window]
    exact List.mem_append_left _ hw
  have hnot : w.hash ∉ fresh.map (·.hash) := by
    intro hin
    obtain ⟨g, hg, heq⟩ := List.mem_map.1 hin
    exact hsplit.fresh_new g hg (List.mem_map.2 ⟨w, hw, heq.symm⟩)
  have hnot' : w.hash ∉ reorged.map (·.hash) := by
    have hwn := hm.nodup
    rw [hsplit.window, List.map_append, List.nodup_append] at hwn
    exact fun hin => hwn.2.2 _ (List.mem_map_of_mem hw) _ hin rfl
  rw [(hm.stands_after hnum h hreach hsplit hn).2 _ hnot, if_neg hnot']
  exact hm.listed w hlisted

/-- What stands after a batch that it did not add stood before, and was not taken back. -/
theorem Mirrored.stood (hm : Mirrored numberOf sb.finality c es gs) (hnum : Numbered numberOf batch)
    (h : sb.receive c batch = .ok r) (hreach : OutOfReach sb.finality c es batch)
    (hsplit : Split numberOf c batch retained reorged fresh stream) (hn : (fresh.map (·.hash)).Nodup) {x : H}
    (hx : x ∉ fresh.map (·.hash))
    (hlive : ((holdingOf (gs ++ (reorged.map takenBack ++ fresh.map broughtIn))).live x).isSome = true) :
    ((holdingOf gs).live x).isSome = true ∧ x ∉ reorged.map (·.hash) := by
  rw [(hm.stands_after hnum h hreach hsplit hn).2 x hx] at hlive
  by_cases hre : x ∈ reorged.map (·.hash)
  · rw [if_pos hre] at hlive
    cases hlive
  · rw [if_neg hre] at hlive
    exact ⟨hlive, hre⟩

/-- One block stands at a height, after a batch too. -/
theorem Mirrored.heights_after (hm : Mirrored numberOf sb.finality c es gs) (hnum : Numbered numberOf batch)
    (hone : OneBranch batch) (h : sb.receive c batch = .ok r) (hreach : OutOfReach sb.finality c es batch)
    (hsplit : Split numberOf c batch (retainedBlocks c batch.logs (sb.newSync batch)) reorged fresh stream)
    (hn : (fresh.map (·.hash)).Nodup) (x y : H)
    (hx : ((holdingOf (gs ++ (reorged.map takenBack ++ fresh.map broughtIn))).live x).isSome = true)
    (hy : ((holdingOf (gs ++ (reorged.map takenBack ++ fresh.map broughtIn))).live y).isSome = true)
    (heq : numberOf x = numberOf y) : x = y := by
  have hmixed : ∀ x, x ∉ fresh.map (·.hash) →
      ((holdingOf (gs ++ (reorged.map takenBack ++ fresh.map broughtIn))).live x).isSome = true →
        ∀ g ∈ fresh, numberOf x ≠ numberOf g.hash := by
    intro x hx hlive g hg heq
    obtain ⟨hstood, hstays⟩ := hm.stood hnum h hreach hsplit hn hx hlive
    exact hx (List.mem_map.2 ⟨g, hg, (hm.apart hnum hone h hreach hsplit hstood hstays hg heq).symm⟩)
  by_cases hxf : x ∈ fresh.map (·.hash)
  · obtain ⟨g, hg, rfl⟩ := List.mem_map.1 hxf
    by_cases hyf : y ∈ fresh.map (·.hash)
    · -- both come from the batch, which has one block at a height
      obtain ⟨g', hg', rfl⟩ := List.mem_map.1 hyf
      obtain ⟨e, he, hehash, hen⟩ := hsplit.log hnum hg
      obtain ⟨e', he', hehash', hen'⟩ := hsplit.log hnum hg'
      rw [← hehash, ← hehash']
      exact hone e he e' he' (by rw [hen, hen', heq])
    · exact absurd heq.symm (hmixed y hyf hy g hg)
  · by_cases hyf : y ∈ fresh.map (·.hash)
    · obtain ⟨g, hg, rfl⟩ := List.mem_map.1 hyf
      exact absurd heq (hmixed x hxf hx g hg)
    · exact hm.heights x y (hm.stood hnum h hreach hsplit hn hxf hx).1 (hm.stood hnum h hreach hsplit hn hyf hy).1 heq

omit [DecidableEq K] in
/-- The runs a batch appends are of logs of their blocks. -/
theorem Mirrored.runs_ok (hm : Mirrored numberOf sb.finality c es gs) (hnum : Numbered numberOf batch)
    (hsplit : Split numberOf c batch retained reorged fresh stream) :
    ∀ g ∈ reorged.map takenBack ++ fresh.map broughtIn, g.Ok ∧ g.number = numberOf g.hash := by
  intro g hg
  rcases List.mem_append.1 hg with hg | hg
  · obtain ⟨w, hw, rfl⟩ := List.mem_map.1 hg
    have hlisted : w ∈ c.unconfirmedBlocks := by
      rw [hsplit.window]
      exact List.mem_append_right _ hw
    obtain ⟨hne, hall, hwn⟩ := hm.windowOk w hlisted
    refine ⟨⟨fun hnil => hne (List.map_eq_nil_iff.1 hnil), fun e he => ?_, fun e he => ?_, fun e he => ?_⟩, hwn⟩
    · obtain ⟨e', he', rfl⟩ := List.mem_map.1 he
      exact (hall e' he').1
    · obtain ⟨e', he', rfl⟩ := List.mem_map.1 he
      exact (hall e' he').2.trans hwn.symm
    · obtain ⟨e', -, rfl⟩ := List.mem_map.1 he
      rfl
  · obtain ⟨w, hw, rfl⟩ := List.mem_map.1 hg
    obtain ⟨hne, hall, hwn⟩ := hsplit.fresh_ok w hw
    refine ⟨⟨hne, fun e he => (hall e he).1.1, fun e he => ?_, fun e he => (hall e he).1.2⟩, hwn⟩
    rw [hnum e (hall e he).2, (hall e he).1.1]
    exact hwn.symm

/-- A batch takes back what stands, and adds what does not. -/
theorem Mirrored.legal_after (hm : Mirrored numberOf sb.finality c es gs) (hnum : Numbered numberOf batch)
    (h : sb.receive c batch = .ok r) (hreach : OutOfReach sb.finality c es batch)
    (hsplit : Split numberOf c batch retained reorged fresh stream) (hn : (fresh.map (·.hash)).Nodup) :
    Legal ∅ ((gs ++ (reorged.map takenBack ++ fresh.map broughtIn)).map StreamBlock.op) := by
  have hops : (reorged.map takenBack ++ fresh.map broughtIn).map StreamBlock.op =
      (reorged.map (·.hash)).map Op.retract ++ (fresh.map (·.hash)).map Op.add := by
    rw [List.map_append, List.map_map, List.map_map, List.map_map, List.map_map]
    rfl
  have hheld : ∀ x, ((holdingOf gs).live x).isSome = true ↔ x ∈ held ∅ (gs.map StreamBlock.op) :=
    fun x => holding_isSome (fun y => by simp) x
  have hrn : (reorged.map (·.hash)).Nodup := by
    have hwn := hm.nodup
    rw [hsplit.window, List.map_append] at hwn
    exact (List.nodup_append.1 hwn).2.1
  rw [List.map_append, legal_append, hops, legal_append, held_map_retract]
  refine ⟨hm.legal, legal_map_retract hrn fun x hx => ?_, legal_map_add hn fun x hx => ?_⟩
  · obtain ⟨w, hw, rfl⟩ := List.mem_map.1 hx
    have hlisted : w ∈ c.unconfirmedBlocks := by
      rw [hsplit.window]
      exact List.mem_append_right _ hw
    rw [← hheld, hm.listed w hlisted]
    rfl
  · obtain ⟨g, hg, rfl⟩ := List.mem_map.1 hx
    rw [Finset.mem_sdiff, List.mem_toFinset, ← hheld]
    exact fun hin => hin.2 (hm.fresh_unheld hnum h hreach hsplit hg hin.1)

omit [DecidableEq K] in
/-- No two blocks of the next window have one hash. -/
theorem Mirrored.next_nodup (hm : Mirrored numberOf sb.finality c es gs)
    (hsplit : Split numberOf c batch retained reorged fresh stream) (hn : (fresh.map (·.hash)).Nodup)
    (p q : EventBlock H D → Bool) : ((sortBlocks (retained.filter p ++ fresh.filter q)).map (·.hash)).Nodup := by
  unfold sortBlocks
  rw [((List.perm_insertionSort _ _).map _).nodup_iff, List.map_append, List.nodup_append]
  have hwn := hm.nodup
  rw [hsplit.window, List.map_append, List.nodup_append] at hwn
  refine ⟨(List.filter_sublist.map _).nodup hwn.1, (List.filter_sublist.map _).nodup hn, ?_⟩
  intro x hx y hy heq
  obtain ⟨w, hw, rfl⟩ := List.mem_map.1 hx
  obtain ⟨g, hg, rfl⟩ := List.mem_map.1 hy
  exact hsplit.fresh_new g (List.mem_filter.1 hg).1 (List.mem_map.2 ⟨w, (List.mem_filter.1 hw).1, heq⟩)

end Step

/-- **A batch out of whose reach the rest lies keeps the windows in step.** -/
theorem Mirrored.receive (hm : Mirrored numberOf sb.finality c es gs) (hnum : Numbered numberOf batch)
    (hone : OneBranch batch) (hreach : OutOfReach sb.finality c es batch) (h : sb.receive c batch = .ok r) :
    ∃ gs', Mirrored numberOf sb.finality r.newLastSync (es ++ r.eventStream) gs' := by
  obtain ⟨hwf, hgen⟩ := receive_ok h
  obtain ⟨-, hlatest, hto⟩ := generate_sync hgen
  obtain ⟨reorged, hsplit, hnext⟩ := receive_delta hm.windowOk hnum h
  set fresh := freshBlocks c batch.logs (sb.newSync batch) with hfresh
  have hn : (fresh.map (·.hash)).Nodup :=
    (List.filter_sublist.map _).nodup (groupLogsPerBlock_perm batch.logs hwf.live).1
  set later := reorged.map takenBack ++ fresh.map broughtIn with hlater
  have hlisted : ∀ w ∈ r.newLastSync.unconfirmedBlocks, (holdingOf (gs ++ later)).live w.hash = some w := by
    intro w hw
    rcases (hnext w).1 hw with ⟨hw, -⟩ | ⟨hw, -⟩
    · exact hm.stays hnum h hreach hsplit hn hw
    · exact (hm.stands_after hnum h hreach hsplit hn).1 w hw
  have hheights := hm.heights_after hnum hone h hreach hsplit hn
  have hok : ∀ g ∈ gs ++ later, g.Ok ∧ g.number = numberOf g.hash := by
    intro g hg
    rcases List.mem_append.1 hg with hg | hg
    · exact hm.ok g hg
    · exact hm.runs_ok hnum hsplit g hg
  refine ⟨gs ++ later, ?_, hok, hm.legal_after hnum h hreach hsplit hn, hlisted, fun w hw => ?_, hheights, ?_, ?_⟩
  · rw [hsplit.stream, hm.stream, hlater, List.flatMap_append, List.flatMap_append, List.flatMap_map, List.flatMap_map]
    rfl
  · rw [hto]
    rcases (hnext w).1 hw with ⟨-, hf⟩ | ⟨-, hf⟩
    · exact hf
    · have htip := hwf.to_le_tip
      dsimp only
      omega
  · have hwindow : ∀ w ∈ r.newLastSync.unconfirmedBlocks, w.number = numberOf w.hash := by
      intro w hw
      obtain ⟨g, hg, -, rfl⟩ := holding_run (hlisted w hw)
      exact (hok g hg).2
    refine ascending ?_ ?_ fun w hw w' hw' heq => ?_
    · rw [receive_newLastSync h]
      exact sortBlocks_ordered _
    · rw [receive_newLastSync h]
      exact hm.next_nodup hsplit hn _ _
    · refine hheights _ _ ?_ ?_ (by rw [← hwindow w hw, ← hwindow w' hw', heq])
      · rw [hlisted w hw]
        rfl
      · rw [hlisted w' hw']
        rfl
  · rw [hlatest, hto]
    exact hwf.to_le_tip

end Delta

/-- Before the first batch both windows are empty. -/
theorem Mirrored.start (numberOf : H → ℕ) (finality : ℕ) :
    Mirrored numberOf finality (LastSync.fresh : LastSync H D) [] [] :=
  ⟨rfl, by simp, trivial, fun w hw => absurd hw List.not_mem_nil, fun w hw => absurd hw List.not_mem_nil,
    fun x y hx => (by cases hx), List.Pairwise.nil, le_rfl⟩

end Etherfold
