import Etherfold.Fetch.CatchUp
import Etherfold.Generation.Resume

/-!
# Pausing a generation

A pause caps the range of the cycles that follow at the cursor the first of them finds. The tip
is recorded as the node reports it, so the resume point moves up to the cap and past it. Tips
may fall here, and the cycles stop wherever the fetcher is served less.

* `IndexerGeneration.turn`: what a pause, a resume and a cycle do.
* `Frontier`: up to where the chain was read for good, and what the window knows above.
* `Frontier.read`: one cycle keeps it, under any tip.
* `drains_iff`: **when a drained generation is the chain up to its cap**.
-/

namespace Etherfold

open Ledger

/-- A generation with its pause and everything it has processed. The cap is pinned by the first
cycle after the pause was asked for. -/
structure IndexerGeneration (H D : Type) where
  lastSync : LastSync H D
  pauseRequested : Bool
  pausedToBlock : Option ℕ
  processed : List (LogEvent H D)

inductive PauseState where
  | running
  | draining
  | drained
  deriving DecidableEq, Repr

variable {H D : Type} {C : Chain H D}

/-- What happens to a generation: a verb, or a cycle while the chain stands as `view`. -/
inductive Turn (C : Chain H D) where
  | pause
  | resume
  | cycle (view : View C) (getLogEvents : Answer H D)

/-- The chain a cycle reads. -/
def Turn.view? : Turn C → Option (View C)
  | .cycle view _ => some view
  | _ => none

/-- The fetcher fails, or answers with all logs up to some block of the range. -/
def Turn.Honest : Turn C → Prop
  | .cycle view getLogEvents => ∀ fromBlock toBlock, fromBlock ≤ toBlock → toBlock ≤ view.tip →
      (∃ e, getLogEvents fromBlock toBlock = .error e) ∨
        ∃ b, fromBlock ≤ b ∧ b ≤ toBlock ∧ getLogEvents fromBlock toBlock = .ok (view.getLogs fromBlock b, b)
  | _ => True

/-- The view upholds all that was final in one read before. -/
def Upholds (f : ℕ) (turns : List (Turn C)) (v : View C) : Prop :=
  ∀ t ∈ turns, ∀ u ∈ t.view?, ∀ n, n + f < u.tip → v.hashAt n = u.hashAt n

theorem Upholds.mono {f : ℕ} {turns turns' : List (Turn C)} {v : View C} (h : Upholds f (turns ++ turns') v) :
    Upholds f turns v :=
  fun t ht => h t (List.mem_append_left _ ht)

/-- **Reorgs stay within finality**, whatever the tips do. -/
def Final (f : ℕ) (turns : List (Turn C)) : Prop :=
  ∀ pre t, pre ++ [t] <+: turns → ∀ v ∈ t.view?, Upholds f pre v

theorem final_of_pairwise {f : ℕ} {turns : List (Turn C)} (h : turns.Pairwise fun s t =>
    ∀ u ∈ s.view?, ∀ v ∈ t.view?, ∀ n, n + f < u.tip → v.hashAt n = u.hashAt n) : Final f turns := by
  intro pre t hpre v hv s hs u hu
  have hpair := h.sublist hpre.sublist
  exact (List.pairwise_append.1 hpair).2.2 s hs t (List.mem_singleton_self t) u hu v hv

namespace IndexerGeneration

/-- Nothing indexed yet, and running. -/
def fresh : IndexerGeneration H D := ⟨.fresh, false, none, []⟩

/-- The block this generation will not fetch above. -/
def maxToBlock (g : IndexerGeneration H D) : Option ℕ := if g.pauseRequested then g.pausedToBlock else none

/-- The cap of a pause, from the cursor its first cycle finds. -/
def pin (g : IndexerGeneration H D) : IndexerGeneration H D :=
  if g.pauseRequested then { g with pausedToBlock := some (g.pausedToBlock.getD g.lastSync.lastToBlock) } else g

def pauseState (d f : ℕ) (g : IndexerGeneration H D) : PauseState :=
  if g.pauseRequested then
    match g.pausedToBlock with
    | none => .draining
    | some cap => if cap < getFromBlock g.lastSync d f then .drained else .draining
  else .running

variable [DecidableEq H]

/-- **One turn.** A cycle that fails moves no cursor, but the cap is pinned. -/
def turn (d f : ℕ) (g : IndexerGeneration H D) : Turn C → IndexerGeneration H D
  | .pause => { g with pauseRequested := true }
  | .resume => { g with pauseRequested := false, pausedToBlock := none }
  | .cycle view getLogEvents =>
    match fetchLogsFromProvider d f g.pin.lastSync view.tip g.pin.maxToBlock getLogEvents with
    | .error _ => g.pin
    | .ok (lastSync, eventStream) => { g.pin with lastSync, processed := g.processed ++ eventStream }

/-- After some turns, from nothing. -/
def after (d f : ℕ) (turns : List (Turn C)) : IndexerGeneration H D := turns.foldl (turn d f) fresh

omit [DecidableEq H] in
/-- The range a cycle is served, if any. -/
def served (d f : ℕ) (g : IndexerGeneration H D) (view : View C) (getLogEvents : Answer H D) : Option (ℕ × ℕ) :=
  let fromBlock := getFromBlock g.lastSync d f
  let toBlock := min view.tip (g.pin.maxToBlock.getD view.tip)
  if toBlock < fromBlock then none
  else
    match getLogEvents fromBlock toBlock with
    | .error _ => none
    | .ok (_, toBlock) => some (fromBlock, toBlock)

/-! ### What the claim of a pause says -/

/-- The block was read in a range served to a cycle whose tip was more than finality above it. -/
def Scanned (d f : ℕ) (turns : List (Turn C)) (n : ℕ) : Prop :=
  ∃ pre view getLogEvents a b, pre ++ [.cycle view getLogEvents] <+: turns ∧
    (after d f pre).served d f view getLogEvents = some (a, b) ∧ a ≤ n ∧ n ≤ b ∧ n + f < view.tip

/-- **The state is the fold of the chain up to `cap`**: each of its logs was delivered once net of
retractions, and no other. -/
def Exact (d f cap : ℕ) (turns : List (Turn C)) : Prop :=
  ∀ v : View C, Upholds f turns v → ∀ key : H × ℕ,
    ((∃ e ∈ v.getLogs d cap, (e.blockHash, e.logIndex) = key) → netDelivered key (after d f turns).processed = 1) ∧
    ((¬∃ e ∈ v.getLogs d cap, (e.blockHash, e.logIndex) = key) → netDelivered key (after d f turns).processed = 0)

/-- What is processed under a cap is at or below it. -/
def Capped (d f : ℕ) (g : IndexerGeneration H D) (t : Turn C) : Prop :=
  ∀ cap, (g.turn d f t).maxToBlock = some cap → ∃ es, (g.turn d f t).processed = g.processed ++ es ∧
    ∀ e ∈ es, e.removed = false → e.blockNumber ≤ cap

/-- **Drained for good**: read at final heights, exact, and no cycle changes it again. -/
def DrainedForGood (d f cap : ℕ) (turns : List (Turn C)) : Prop :=
  (∀ n, d ≤ n → n ≤ cap → Scanned d f turns n) ∧ Exact d f cap turns ∧
    ∀ (view : View C) (getLogEvents : Answer H D),
      (after d f turns).turn d f (.cycle view getLogEvents) = after d f turns

/-! ### What it depends on -/

/-- The window still lists every applied log that the cycle reads again. -/
def Listed (d f : ℕ) (g : IndexerGeneration H D) (view : View C) (getLogEvents : Answer H D) : Prop :=
  ∀ a b, g.served d f view getLogEvents = some (a, b) → ∀ e ∈ view.getLogs a b,
    (e.blockHash, e.logIndex) ∈ foldEvents ∅ g.processed → e.blockHash ∈ g.lastSync.unconfirmedBlocks.map (·.hash)

omit [DecidableEq H] in
/-- The cycle reads a window block's height and finds another block there. -/
def Forks (d f : ℕ) (g : IndexerGeneration H D) (view : View C) (getLogEvents : Answer H D) : Prop :=
  ∃ a b, g.served d f view getLogEvents = some (a, b) ∧
    ∃ w ∈ g.lastSync.unconfirmedBlocks, a ≤ w.number ∧ w.number ≤ b ∧ view.hashAt w.number ≠ w.hash

/-- A log is applied above the block. -/
def Ahead (C : Chain H D) (cap : ℕ) (g : IndexerGeneration H D) : Prop :=
  ∃ key ∈ foldEvents ∅ g.processed, cap < C.numberOf key.1

/-- Every cycle so far found what it read again in the window. -/
def Recalled (d f : ℕ) (turns : List (Turn C)) : Prop :=
  ∀ pre view getLogEvents, pre ++ [.cycle view getLogEvents] <+: turns → Listed d f (after d f pre) view getLogEvents

/-- **What is left behind above a cap**: the pause was pinned below an applied log, and no cycle
since finds a fork. -/
def Strands (d f : ℕ) (turns : List (Turn C)) : Prop :=
  ∃ before view getLogEvents rest, turns = before ++ .cycle view getLogEvents :: rest ∧
    (after d f before).pauseRequested = true ∧ (after d f before).pausedToBlock = none ∧
    Turn.resume ∉ rest ∧ Ahead C (after d f before).lastSync.lastToBlock (after d f before) ∧
    ∀ part v ask, before <+: part → part ++ [.cycle v ask] <+: turns → ¬Forks d f (after d f part) v ask

/-! ### What one cycle does -/

section Cycle

variable {d f : ℕ} {g : IndexerGeneration H D} {v : View C} {ask : Answer H D} {a b : ℕ}

omit [DecidableEq H] in
theorem assertAscendingByBlock_of_pairwise {es : List (LogEvent H D)}
    (h : es.Pairwise fun e e' => e.blockNumber ≤ e'.blockNumber) : assertAscendingByBlock es = .ok () := by
  induction es with
  | nil => rfl
  | cons e es ih =>
    rw [List.pairwise_cons] at h
    cases es with
    | nil => rfl
    | cons e' es =>
      have hle := h.1 e' List.mem_cons_self
      unfold assertAscendingByBlock
      rw [if_neg (by omega)]
      exact ih h.2

omit [DecidableEq H] in
/-- A complete answer ascends. -/
theorem getLogs_ascending (hb : b ≤ v.tip) : assertAscendingByBlock (v.getLogs a b) = .ok () := by
  apply assertAscendingByBlock_of_pairwise
  rw [View.getLogs_eq, List.pairwise_flatMap]
  constructor
  · intro x hx
    refine List.pairwise_of_forall_mem_list fun e he e' he' => ?_
    rw [C.log_number x e he, C.log_number x e' he']
  · refine (View.bearing_sorted hb).imp fun {x y} hlt e he e' he' => ?_
    rw [C.log_number x e he, C.log_number y e' he']
    exact hlt.le

omit [DecidableEq H] in
@[simp] theorem pin_lastSync (g : IndexerGeneration H D) : g.pin.lastSync = g.lastSync := by
  unfold pin
  split <;> rfl

omit [DecidableEq H] in
@[simp] theorem pin_processed (g : IndexerGeneration H D) : g.pin.processed = g.processed := by
  unfold pin
  split <;> rfl

/-- A cycle that is served nothing only pins the cap. -/
theorem turn_idle (hserved : g.served d f v ask = none) : g.turn d f (.cycle v ask) = g.pin := by
  unfold served at hserved
  dsimp only at hserved
  unfold turn fetchLogsFromProvider
  dsimp only
  rw [pin_lastSync]
  split at hserved
  · rename_i hlt
    rw [if_pos hlt]
    dsimp only
    rw [List.append_nil, ← pin_lastSync, ← pin_processed]
  · rename_i hlt
    rw [if_neg hlt]
    cases hask : ask (getFromBlock g.lastSync d f) (min v.tip (g.pin.maxToBlock.getD v.tip)) with
    | error e => rfl
    | ok answer =>
      rw [hask] at hserved
      cases hserved

/-- **A cycle that is served a range** derives its delta and stores the cursor after it. -/
theorem turn_served (hhonest : (Turn.cycle v ask).Honest) (hserved : g.served d f v ask = some (a, b)) :
    a = getFromBlock g.lastSync d f ∧ a ≤ b ∧ b ≤ v.tip ∧ (∀ cap ∈ g.pin.maxToBlock, b ≤ cap) ∧
      ∃ r, generateStreamToAppend g.lastSync d (v.getLogs a b) ⟨v.tip, a, b, f⟩ = .ok r ∧
        g.turn d f (.cycle v ask) = { g.pin with lastSync := r.newLastSync, processed := g.processed ++ r.eventStream } := by
  unfold served at hserved
  dsimp only at hserved
  split at hserved
  · cases hserved
  rename_i hlt
  rcases hhonest _ _ (not_lt.1 hlt) (min_le_left _ _) with ⟨e, he⟩ | ⟨b', hab, hb, hask⟩
  · rw [he] at hserved
    cases hserved
  rw [hask] at hserved
  injection hserved with hserved
  injection hserved with ha hb'
  subst ha hb'
  have htip : b' ≤ v.tip := hb.trans (min_le_left _ _)
  obtain ⟨r, hr⟩ := (generate_ok_iff g.lastSync d (v.getLogs (getFromBlock g.lastSync d f) b')
    ⟨v.tip, getFromBlock g.lastSync d f, b', f⟩).2 rfl
  refine ⟨rfl, hab, htip, fun cap hcap => ?_, r, hr, ?_⟩
  · rw [Option.mem_def] at hcap
    rw [hcap] at hb
    exact hb.trans (min_le_right _ _)
  · unfold turn fetchLogsFromProvider
    dsimp only
    rw [pin_lastSync, if_neg hlt, hask]
    dsimp only
    rw [getLogs_ascending htip]
    dsimp only
    rw [hr]

end Cycle

/-! ### The frontier -/

/-- **What a generation knows after some turns**: below the height `A` the applied blocks are the
chain's, each read at a final height; from `A` on every applied block is in the window. The
resume point may have been higher than it is now, so `A` is its highest. -/
structure Frontier (C : Chain H D) (d f : ℕ) (turns : List (Turn C)) (A : ℕ) (ws : List H) (ops : List (Op H)) :
    Prop where
  stream : (after d f turns).processed = ops.flatMap C.emit
  window : (after d f turns).lastSync.unconfirmedBlocks = ws.map C.block
  bearing : ∀ x ∈ held ∅ ops, C.Bearing x
  ascending : Ascending C ws
  live : ∀ x ∈ ws, x ∈ held ∅ ops
  covered : ∀ x ∈ held ∅ ops, A ≤ C.numberOf x → x ∈ ws
  start_le : d ≤ A
  from_le : getFromBlock (after d f turns).lastSync d f ≤ A
  scanned : ∀ n, d ≤ n → n < A → Scanned d f turns n
  settled : ∀ v, Upholds f turns v → ∀ x, C.numberOf x < A →
    (x ∈ held ∅ ops ↔ (C.Bearing x ∧ v.hashAt (C.numberOf x) = x) ∧ d ≤ C.numberOf x)
  count : ∀ x, 0 ≤ net x ops ∧ (x ∈ held ∅ ops ↔ 1 ≤ net x ops) ∧ (A ≤ C.numberOf x → net x ops ≤ 1)

section Frontier

variable {d f : ℕ} {turns : List (Turn C)} {A : ℕ} {ws : List H} {ops : List (Op H)} {v : View C} {ask : Answer H D}
  {a b : ℕ}

theorem after_concat (turns : List (Turn C)) (t : Turn C) :
    after d f (turns ++ [t]) = (after d f turns).turn d f t := by
  unfold after
  rw [List.foldl_concat]

/-- A block's name is applied exactly when the block is. -/
theorem Frontier.mem_foldEvents (h : Frontier C d f turns A ws ops) (key : H × ℕ) :
    key ∈ foldEvents ∅ (after d f turns).processed ↔ key.1 ∈ held ∅ ops ∧ key ∈ C.logKeys key.1 := by
  have hfold : foldEvents ∅ (ops.flatMap C.emit) = parts C.logKeys (held ∅ ops) := by
    rw [← foldEvents_emit, parts_empty]
  rw [h.stream, hfold, mem_parts_iff]

theorem Scanned.mono {n : ℕ} (t : Turn C) (h : Scanned d f turns n) : Scanned d f (turns ++ [t]) n := by
  obtain ⟨pre, v, ask, a, b, hpre, hrest⟩ := h
  exact ⟨pre, v, ask, a, b, hpre.trans (List.prefix_append _ _), hrest⟩

/-- What was settled before is not taken back. -/
theorem Frontier.retracted_ge (h : Frontier C d f turns A ws ops) (hv : Upholds f turns v) {x : H}
    (hx : x ∈ (v.delta a b ws).retracted) : x ∈ ws ∧ A ≤ C.numberOf x := by
  obtain ⟨y, hy, hcontra, hall⟩ := exists_fork h.ascending (List.ne_nil_of_mem hx)
  obtain ⟨hxws, hle⟩ := (hall x).1 hx
  refine ⟨hxws, le_trans ?_ hle⟩
  by_contra hlt
  have hyws := ((hall y).1 hy).1
  have hsettled := (h.settled v hv y (not_le.1 hlt)).1 (h.live y hyws)
  exact hcontra.2.2 hsettled.1.2

/-- What was settled before is not new. -/
theorem Frontier.added_low (h : Frontier C d f turns A ws ops) (hv : Upholds f turns v) (hda : d ≤ a) (hb : b ≤ v.tip)
    {x : H} (hx : x ∈ (v.delta a b ws).added) (hlow : C.numberOf x < A) : x ∈ held ∅ ops := by
  obtain ⟨⟨hon, hge, -⟩, -⟩ := (mem_added hb).1 hx
  exact (h.settled v hv x hlow).2 ⟨⟨hon.1, hon.2.2⟩, hda.trans hge⟩

/-- The net count after a delta. -/
theorem net_delta (hasc : Ascending C ws) (hb : b ≤ v.tip) (x : H) : net x (ops ++ (v.delta a b ws).ops) =
    net x ops - (if x ∈ (v.delta a b ws).retracted then 1 else 0) + (if x ∈ (v.delta a b ws).added then 1 else 0) := by
  have hretracted : (v.delta a b ws).retracted.Nodup := (hasc.sublist (List.dropWhile_sublist _)).nodup
  have hadded : (v.delta a b ws).added.Nodup := (added_ascending hb).nodup
  unfold Delta.ops
  rw [net_append, net_append, net_map_retract, net_map_add, hretracted.count, hadded.count]
  rw [Nat.cast_ite, Nat.cast_ite]
  ring_nf

/-- The blocks a cycle leaves applied. -/
theorem Frontier.mem_read (h : Frontier C d f turns A ws ops) (hv : Upholds f turns v) (hda : d ≤ a)
    (hb : b ≤ v.tip) (x : H) :
    x ∈ held ∅ (ops ++ (v.delta a b ws).ops) ↔
      if C.numberOf x < A then x ∈ held ∅ ops else x ∈ v.kept a b ws ∨ x ∈ (v.delta a b ws).added := by
  rw [held_append, mem_held_delta]
  split
  · rename_i hlow
    constructor
    · rintro (⟨hx, -⟩ | hadded)
      · exact hx
      · exact h.added_low hv hda hb hadded hlow
    · refine fun hx => .inl ⟨hx, fun hr => ?_⟩
      have hge := (h.retracted_ge hv hr).2
      omega
  · rename_i hhigh
    rw [mem_kept_iff h.ascending]
    constructor
    · rintro (⟨hx, hnot⟩ | hadded)
      · exact .inl ⟨h.covered x hx (not_lt.1 hhigh), hnot⟩
      · exact .inr hadded
    · rintro (⟨hx, hnot⟩ | hadded)
      · exact .inl ⟨h.live x hx, hnot⟩
      · exact .inr hadded

omit [DecidableEq H] in
/-- Below where a cursor resumes everything is read at a final height. -/
theorem below_resume {c : LastSync H D} {n : ℕ} (hn : d ≤ n) (hlt : n < getFromBlock c d f) :
    n ≤ c.lastToBlock ∧ n + f < c.latestBlock := by
  unfold getFromBlock at hlt
  split at hlt <;> omega

omit [DecidableEq H] in
/-- From there on finality drops nothing. -/
theorem above_resume {c : LastSync H D} {n : ℕ} (htip : c.lastToBlock ≤ c.latestBlock) (hle : getFromBlock c d f ≤ n) :
    c.lastToBlock - n ≤ f ∧ (n ≤ c.lastToBlock → c.latestBlock - n ≤ f) := by
  unfold getFromBlock at hle
  split at hle <;> omega

/-- What a cycle leaves applied has logs. -/
theorem Frontier.bearing_read (h : Frontier C d f turns A ws ops) (hv : Upholds f turns v) (hda : d ≤ a)
    (hb : b ≤ v.tip) {x : H} (hx : x ∈ held ∅ (ops ++ (v.delta a b ws).ops)) : C.Bearing x := by
  rw [h.mem_read hv hda hb] at hx
  split at hx
  · exact h.bearing x hx
  · rcases hx with hkept | hadded
    · exact h.bearing x (h.live x (mem_kept hkept).1)
    · exact ((mem_added hb).1 hadded).1.1.1

/-- What a cycle lists is applied. -/
theorem Frontier.live_read (h : Frontier C d f turns A ws ops) {x : H} (hx : x ∈ v.window a b f ws) :
    x ∈ held ∅ (ops ++ (v.delta a b ws).ops) := by
  rw [held_append, mem_held_delta]
  rcases mem_window.1 hx with ⟨hkept, -⟩ | ⟨hadded, -⟩
  · obtain ⟨hxws, hnot⟩ := (mem_kept_iff h.ascending).1 hkept
    exact .inl ⟨h.live x hxws, hnot⟩
  · exact .inr hadded

/-- **What a cycle reads at a final height is the chain's**, in every view that upholds finality. -/
theorem Frontier.settled_read (h : Frontier C d f turns A ws ops) {v' : View C}
    (hv' : Upholds f (turns ++ [.cycle v ask]) v') (haA : a ≤ A) (hb : b ≤ v.tip) {x : H} (hhigh : A ≤ C.numberOf x)
    (hread : C.numberOf x ≤ b) (hfinal : C.numberOf x + f < v.tip) :
    x ∈ v.kept a b ws ∨ x ∈ (v.delta a b ws).added ↔
      (C.Bearing x ∧ v'.hashAt (C.numberOf x) = x) ∧ d ≤ C.numberOf x := by
  have hstart := h.start_le
  have hagree : v'.hashAt (C.numberOf x) = v.hashAt (C.numberOf x) :=
    hv' (.cycle v ask) (List.mem_append_right _ (List.mem_singleton_self _)) v rfl _ hfinal
  rw [hagree]
  constructor
  · rintro (hkept | hadded)
    · have hon := on_of_kept hkept (h.bearing x (h.live x (mem_kept hkept).1)) hb (by omega) hread
      exact ⟨⟨hon.1, hon.2.2⟩, by omega⟩
    · have hon := ((mem_added hb).1 hadded).1.1
      exact ⟨⟨hon.1, hon.2.2⟩, by omega⟩
  · rintro ⟨⟨hxb, hhash⟩, -⟩
    by_cases hkept : x ∈ v.kept a b ws
    · exact .inl hkept
    · exact .inr ((mem_added hb).2 ⟨⟨⟨hxb, by omega, hhash⟩, by omega, hread⟩, hkept⟩)

/-- What was settled before is delivered again at most. -/
theorem Frontier.count_low (h : Frontier C d f turns A ws ops) (hv : Upholds f turns v) (hda : d ≤ a) (hb : b ≤ v.tip)
    {x : H} (hlow : C.numberOf x < A) :
    0 ≤ net x (ops ++ (v.delta a b ws).ops) ∧ (x ∈ held ∅ ops ↔ 1 ≤ net x (ops ++ (v.delta a b ws).ops)) := by
  obtain ⟨hpos, hiff, -⟩ := h.count x
  have hkeep : x ∉ (v.delta a b ws).retracted := fun hr => by
    have hge := (h.retracted_ge hv hr).2
    omega
  rw [net_delta h.ascending hb, if_neg hkeep]
  by_cases hadded : x ∈ (v.delta a b ws).added
  · rw [if_pos hadded]
    have hx := h.added_low hv hda hb hadded hlow
    have hx' := hiff.1 hx
    exact ⟨by omega, ⟨fun _ => by omega, fun _ => hx⟩⟩
  · rw [if_neg hadded]
    exact ⟨by omega, ⟨fun hx => by have := hiff.1 hx; omega, fun hx => hiff.2 (by omega)⟩⟩

/-- What is not settled is delivered once more than it is taken back, or as often. -/
theorem Frontier.count_high (h : Frontier C d f turns A ws ops) (hv : Upholds f turns v) (hb : b ≤ v.tip) {x : H}
    (hhigh : A ≤ C.numberOf x) :
    0 ≤ net x (ops ++ (v.delta a b ws).ops) ∧
      (x ∈ v.kept a b ws ∨ x ∈ (v.delta a b ws).added ↔ 1 ≤ net x (ops ++ (v.delta a b ws).ops)) ∧
      net x (ops ++ (v.delta a b ws).ops) ≤ 1 := by
  obtain ⟨hpos, hiff, hone⟩ := h.count x
  have hone' := hone hhigh
  have hws : x ∈ held ∅ ops ↔ x ∈ ws := ⟨fun hx => h.covered x hx hhigh, h.live x⟩
  have hkeep := mem_kept_iff (v := v) (a := a) (b := b) (x := x) h.ascending
  have hretr : x ∈ (v.delta a b ws).retracted → x ∈ ws := fun hr => (h.retracted_ge hv hr).1
  have hadd : x ∈ (v.delta a b ws).added → x ∉ v.kept a b ws := fun hx => ((mem_added hb).1 hx).2
  rw [net_delta h.ascending hb]
  by_cases hadded : x ∈ (v.delta a b ws).added
  · have hnot := hadd hadded
    by_cases hr : x ∈ (v.delta a b ws).retracted
    · have hx := hiff.1 (hws.2 (hretr hr))
      rw [if_pos hadded, if_pos hr]
      exact ⟨by omega, ⟨fun _ => by omega, fun _ => .inr hadded⟩, by omega⟩
    · have hx : x ∉ held ∅ ops := fun hx => hnot (hkeep.2 ⟨hws.1 hx, hr⟩)
      have hx' := hiff.not.1 hx
      rw [if_pos hadded, if_neg hr]
      exact ⟨by omega, ⟨fun _ => by omega, fun _ => .inr hadded⟩, by omega⟩
  · by_cases hr : x ∈ (v.delta a b ws).retracted
    · have hx := hiff.1 (hws.2 (hretr hr))
      have hnot : x ∉ v.kept a b ws := fun hk => (hkeep.1 hk).2 hr
      rw [if_neg hadded, if_pos hr]
      exact ⟨by omega, ⟨fun hx => absurd hx (not_or.2 ⟨hnot, hadded⟩), fun hx => by omega⟩, by omega⟩
    · rw [if_neg hadded, if_neg hr]
      refine ⟨by omega, ⟨fun hx => ?_, fun hx => .inl (hkeep.2 ⟨hws.1 (hiff.2 (by omega)), hr⟩)⟩, by omega⟩
      have hx' := hiff.1 (hws.2 (hkeep.1 (hx.resolve_right hadded)).1)
      omega

/-- **One cycle keeps the frontier**, whatever its tip. -/
theorem Frontier.read (h : Frontier C d f turns A ws ops) (hv : Upholds f turns v)
    (hhonest : (Turn.cycle v ask).Honest) (hserved : (after d f turns).served d f v ask = some (a, b)) :
    ∃ A', Frontier C d f (turns ++ [.cycle v ask]) A' (v.window a b f ws) (ops ++ (v.delta a b ws).ops) := by
  obtain ⟨ha, hab, hb, -, r, hr, hturn⟩ := turn_served hhonest hserved
  have hbear : ∀ x ∈ ws, C.Bearing x := fun x hx => h.bearing x (h.live x hx)
  obtain ⟨-, hstream, hsync⟩ := View.generate_delta h.window hbear hb hr
  have hda : d ≤ a := ha ▸ getFromBlock_ge _ _ _
  have haA : a ≤ A := ha ▸ h.from_le
  have hafter : after d f (turns ++ [.cycle v ask]) = { (after d f turns).pin with
      lastSync := r.newLastSync, processed := (after d f turns).processed ++ r.eventStream } := by
    rw [after_concat, hturn]
  have hmem := h.mem_read hv hda hb
  have hlow : ∀ n, A ≤ n → n < getFromBlock r.newLastSync d f → n ≤ b ∧ n + f < v.tip := by
    intro n hn hlt
    rw [hsync] at hlt
    exact below_resume (h.start_le.trans hn) hlt
  refine ⟨max A (getFromBlock r.newLastSync d f), ?_, ?_, fun x => h.bearing_read hv hda hb,
    window_ascending h.ascending hbear hb, fun x => h.live_read, ?_, h.start_le.trans (le_max_left _ _), ?_, ?_, ?_, ?_⟩
  · rw [hafter, List.flatMap_append, ← hstream, ← h.stream]
  · rw [hafter, hsync]
  · intro x hx hge
    have hA : ¬C.numberOf x < A := by omega
    rw [hmem, if_neg hA] at hx
    have hresume := (le_max_right _ _).trans hge
    rw [hsync] at hresume
    obtain ⟨hnear, hnear'⟩ := above_resume hb hresume
    rw [mem_window]
    rcases hx with hkept | hadded
    · exact .inl ⟨hkept, hnear⟩
    · exact .inr ⟨hadded, hnear' ((mem_added hb).1 hadded).1.2.2⟩
  · rw [hafter]
    exact le_max_right _ _
  · intro n hdn hn
    by_cases hbelow : n < A
    · exact (h.scanned n hdn hbelow).mono _
    · obtain ⟨hnb, htip⟩ := hlow n (not_lt.1 hbelow) (by omega)
      exact ⟨turns, v, ask, a, b, List.prefix_refl _, hserved, by omega, hnb, htip⟩
  · intro v' hv' x hx
    rw [hmem]
    split
    · rename_i hbelow
      exact h.settled v' hv'.mono x hbelow
    · rename_i habove
      obtain ⟨hnb, htip⟩ := hlow _ (not_lt.1 habove) (by omega)
      exact h.settled_read hv' haA hb (not_lt.1 habove) hnb htip
  · intro x
    rw [hmem]
    by_cases hbelow : C.numberOf x < A
    · rw [if_pos hbelow]
      obtain ⟨hpos, hiff⟩ := h.count_low hv hda hb hbelow
      exact ⟨hpos, hiff, fun hge => by omega⟩
    · rw [if_neg hbelow]
      obtain ⟨hpos, hiff, hone⟩ := h.count_high hv hb (not_lt.1 hbelow)
      exact ⟨hpos, hiff, fun _ => hone⟩

/-- **What a cycle delivers a second time** is what it read again without finding it listed. -/
theorem Frontier.read_once (h : Frontier C d f turns A ws ops) (hv : Upholds f turns v)
    (hhonest : (Turn.cycle v ask).Honest) (hserved : (after d f turns).served d f v ask = some (a, b)) :
    (∀ x, net x (ops ++ (v.delta a b ws).ops) ≤ 1) ↔ (∀ x, net x ops ≤ 1) ∧ Listed d f (after d f turns) v ask := by
  obtain ⟨ha, hab, hb, -⟩ := turn_served hhonest hserved
  have hda : d ≤ a := ha ▸ getFromBlock_ge _ _ _
  have hwindow : (after d f turns).lastSync.unconfirmedBlocks.map (·.hash) = ws := by
    rw [h.window, List.map_map]
    exact List.map_id ws
  have hlow : ∀ x ∈ (v.delta a b ws).retracted, A ≤ C.numberOf x := fun x hx => (h.retracted_ge hv hx).2
  constructor
  · intro hnet
    refine ⟨fun x => ?_, fun a' b' hserved' e he happlied => ?_⟩
    · obtain ⟨hpos, hiff, hone⟩ := h.count x
      by_cases hx : C.numberOf x < A
      · have hx' := hnet x
        rw [net_delta h.ascending hb, if_neg fun hr => absurd (hlow x hr) (not_le.2 hx)] at hx'
        split at hx' <;> omega
      · exact hone (not_lt.1 hx)
    · rw [hserved] at hserved'
      injection hserved' with hrange
      injection hrange with ha' hb'
      subst ha' hb'
      rw [hwindow]
      by_contra hnot
      obtain ⟨hx, -⟩ := (h.mem_foldEvents _).1 happlied
      obtain ⟨hon, -⟩ := (mem_getLogs (a := a) hb).1 ⟨e, he, rfl⟩
      have hadded : e.blockHash ∈ (v.delta a b ws).added := (mem_added hb).2 ⟨hon, fun hk => hnot (mem_kept hk).1⟩
      have hretr : e.blockHash ∉ (v.delta a b ws).retracted := fun hr => hnot (h.retracted_ge hv hr).1
      have hx' := hnet e.blockHash
      rw [net_delta h.ascending hb, if_neg hretr, if_pos hadded] at hx'
      have hlive := (h.count e.blockHash).2.1.1 hx
      omega
  · rintro ⟨hnet, hlisted⟩ x
    rw [net_delta h.ascending hb]
    by_cases hadded : x ∈ (v.delta a b ws).added
    · rw [if_pos hadded]
      obtain ⟨hon, hnot⟩ := (mem_added hb).1 hadded
      obtain ⟨hpos, hiff, -⟩ := h.count x
      have hx' := hnet x
      by_cases hx : x ∈ held ∅ ops
      · -- it is read again, so the window lists it, and it was taken back first
        obtain ⟨e, he⟩ := List.exists_mem_of_ne_nil _ hon.1.1
        have hkey : (x, e.logIndex) ∈ C.logKeys x := List.mem_map.2 ⟨e, he, by rw [C.log_hash x e he]⟩
        obtain ⟨e', he', hek⟩ := (mem_getLogs (a := a) (k := (x, e.logIndex)) hb).2 ⟨hon, hkey⟩
        have hhash : e'.blockHash = x := congrArg Prod.fst hek
        have happlied := (h.mem_foldEvents (x, e.logIndex)).2 ⟨hx, hkey⟩
        have hmem := hlisted a b hserved e' he' (hek ▸ happlied)
        rw [hwindow, hhash] at hmem
        have hr : x ∈ (v.delta a b ws).retracted := by
          by_contra hr
          exact hnot ((mem_kept_iff h.ascending).2 ⟨hmem, hr⟩)
        rw [if_pos hr]
        omega
      · have hzero := hiff.not.1 hx
        split <;> omega
    · rw [if_neg hadded]
      have hx' := hnet x
      split <;> omega

/-- **A cycle under a cap** leaves what is applied above it, unless it forks: then it takes all of
that back. -/
theorem Frontier.read_ahead (h : Frontier C d f turns A ws ops) (hv : Upholds f turns v)
    (hserved : (after d f turns).served d f v ask = some (a, b)) (hb : b ≤ v.tip) {cap : ℕ} (hcap : b ≤ cap) :
    (∃ x ∈ held ∅ (ops ++ (v.delta a b ws).ops), cap < C.numberOf x) ↔
      (∃ x ∈ held ∅ ops, cap < C.numberOf x) ∧ ¬Forks d f (after d f turns) v ask := by
  have hforks : Forks d f (after d f turns) v ask ↔ (v.delta a b ws).retracted ≠ [] := by
    constructor
    · rintro ⟨a', b', hserved', w, hw, hge, hle, hne⟩
      rw [hserved] at hserved'
      injection hserved' with hrange
      injection hrange with ha' hb'
      subst ha' hb'
      rw [h.window] at hw
      obtain ⟨y, hy, rfl⟩ := List.mem_map.1 hw
      intro hnil
      have hkept : y ∈ v.kept a b ws := by
        rw [mem_kept_iff h.ascending, hnil]
        exact ⟨hy, List.not_mem_nil⟩
      exact (mem_kept hkept).2 ⟨hge, hle, hne⟩
    · intro hne
      obtain ⟨y, hy, ⟨hge, hle, hhash⟩, -⟩ := exists_fork h.ascending hne
      refine ⟨a, b, hserved, C.block y, ?_, hge, hle, hhash⟩
      rw [h.window]
      exact List.mem_map_of_mem (h.retracted_ge hv hy).1
  rw [hforks, not_not, held_append]
  constructor
  · rintro ⟨x, hx, hlt⟩
    rcases mem_held_delta.1 hx with ⟨hx, hnot⟩ | hadded
    · refine ⟨⟨x, hx, hlt⟩, ?_⟩
      by_contra hne
      obtain ⟨y, hy, ⟨-, hle, -⟩, hall⟩ := exists_fork h.ascending hne
      have hge := (h.retracted_ge hv hy).2
      exact hnot ((hall x).2 ⟨h.covered x hx (by omega), by omega⟩)
    · have hle := ((mem_added hb).1 hadded).1.2.2
      omega
  · rintro ⟨⟨x, hx, hlt⟩, hnil⟩
    refine ⟨x, mem_held_delta.2 (.inl ⟨hx, ?_⟩), hlt⟩
    rw [hnil]
    exact List.not_mem_nil

/-- A turn that applies nothing keeps it. -/
theorem Frontier.idle (h : Frontier C d f turns A ws ops) (t : Turn C)
    (hlast : (after d f (turns ++ [t])).lastSync = (after d f turns).lastSync)
    (hprocessed : (after d f (turns ++ [t])).processed = (after d f turns).processed) :
    Frontier C d f (turns ++ [t]) A ws ops where
  stream := hprocessed.trans h.stream
  window := by rw [hlast, h.window]
  bearing := h.bearing
  ascending := h.ascending
  live := h.live
  covered := h.covered
  start_le := h.start_le
  from_le := by rw [hlast]; exact h.from_le
  scanned n hdn hn := (h.scanned n hdn hn).mono t
  settled v hv := h.settled v hv.mono
  count := h.count

theorem frontier_fresh : Frontier C d f [] d [] [] where
  stream := rfl
  window := rfl
  bearing x hx := absurd hx (Finset.notMem_empty x)
  ascending := List.Pairwise.nil
  live x hx := absurd hx List.not_mem_nil
  covered x hx := absurd hx (Finset.notMem_empty x)
  start_le := le_rfl
  from_le := le_rfl
  scanned n hdn hn := absurd hn (not_lt.2 hdn)
  settled v _ x hx := ⟨fun h => absurd h (Finset.notMem_empty x), fun h => absurd h.2 (not_le.2 hx)⟩
  count x := ⟨le_rfl, ⟨fun h => absurd h (Finset.notMem_empty x), fun h => absurd h (by decide : ¬(1 : ℤ) ≤ 0)⟩,
    fun _ => zero_le_one⟩

theorem recalled_concat {t : Turn C} : Recalled d f (turns ++ [t]) ↔
    Recalled d f turns ∧ ∀ v ask, t = .cycle v ask → Listed d f (after d f turns) v ask := by
  constructor
  · refine fun hall => ⟨fun pre v ask hpre => hall pre v ask (hpre.trans (List.prefix_append _ _)), fun v ask ht => ?_⟩
    exact hall turns v ask (ht ▸ List.prefix_refl _)
  · rintro ⟨hall, hlast⟩ pre v ask hpre
    rcases List.prefix_concat_iff.1 hpre with heq | hpre
    · obtain ⟨rfl, hcycle⟩ := List.append_inj' heq rfl
      exact hlast v ask (List.singleton_injective hcycle).symm
    · exact hall pre v ask hpre

theorem recalled_nil : Recalled d f ([] : List (Turn C)) := fun _ _ _ hpre =>
  absurd (List.prefix_nil.1 hpre) (List.append_ne_nil_of_right_ne_nil _ (List.cons_ne_nil _ _))

/-- **Every run has its frontier**, and delivers nothing a second time exactly when every cycle
found what it read again in the window. -/
theorem exists_frontier (hhonest : ∀ t ∈ turns, t.Honest) (hfinal : Final f turns) :
    ∃ A ws ops, Frontier C d f turns A ws ops ∧ ((∀ x, net x ops ≤ 1) ↔ Recalled d f turns) := by
  induction turns using List.reverseRecOn with
  | nil =>
    exact ⟨d, [], [], frontier_fresh, fun _ => recalled_nil, fun _ x => zero_le_one⟩
  | append_singleton turns t ih =>
    obtain ⟨A, ws, ops, h, honce⟩ := ih (fun t' ht' => hhonest t' (List.mem_append_left _ ht'))
      fun pre t' hpre => hfinal pre t' (hpre.trans (List.prefix_append _ _))
    have ht := hhonest t (List.mem_append_right _ (List.mem_singleton_self t))
    rw [recalled_concat]
    cases t with
    | pause =>
      refine ⟨A, ws, ops, h.idle .pause (by rw [after_concat]; rfl) (by rw [after_concat]; rfl), ?_⟩
      rw [honce]
      exact (and_iff_left fun v ask ht => by cases ht).symm
    | resume =>
      refine ⟨A, ws, ops, h.idle .resume (by rw [after_concat]; rfl) (by rw [after_concat]; rfl), ?_⟩
      rw [honce]
      exact (and_iff_left fun v ask ht => by cases ht).symm
    | cycle v ask =>
      cases hserved : (after d f turns).served d f v ask with
      | none =>
        have hpin : after d f (turns ++ [.cycle v ask]) = (after d f turns).pin := by
          rw [after_concat, turn_idle hserved]
        refine ⟨A, ws, ops, h.idle _ (by rw [hpin, pin_lastSync]) (by rw [hpin, pin_processed]), ?_⟩
        rw [honce]
        refine (and_iff_left fun v' ask' ht a b hab => ?_).symm
        cases ht
        rw [hserved] at hab
        cases hab
      | some range =>
        have hv := hfinal turns _ (List.prefix_refl _) v rfl
        obtain ⟨A', h'⟩ := h.read hv ht hserved
        refine ⟨A', _, _, h', ?_⟩
        rw [h.read_once hv ht hserved, honce]
        refine and_congr_right fun _ => ⟨fun hlisted v' ask' ht' => ?_, fun hlisted => hlisted v ask rfl⟩
        cases ht'
        exact hlisted

/-! ### Under a cap -/

theorem Frontier.ahead_iff (h : Frontier C d f turns A ws ops) (cap : ℕ) :
    Ahead C cap (after d f turns) ↔ ∃ x ∈ held ∅ ops, cap < C.numberOf x := by
  constructor
  · rintro ⟨key, hkey, hlt⟩
    exact ⟨key.1, ((h.mem_foldEvents key).1 hkey).1, hlt⟩
  · rintro ⟨x, hx, hlt⟩
    obtain ⟨e, he⟩ := List.exists_mem_of_ne_nil _ (h.bearing x hx)
    exact ⟨(x, e.logIndex), (h.mem_foldEvents _).2 ⟨hx, List.mem_map.2 ⟨e, he, by rw [C.log_hash x e he]⟩⟩, hlt⟩

/-- A cycle of a pause leaves what is applied above the cap, unless it forks. -/
theorem ahead_cycle (hhonest : ∀ t ∈ turns, t.Honest) (hfinal : Final f (turns ++ [.cycle v ask]))
    (ht : (Turn.cycle v ask).Honest) {cap : ℕ} (hcap : (after d f turns).pin.maxToBlock = some cap) :
    Ahead C cap (after d f (turns ++ [.cycle v ask])) ↔
      Ahead C cap (after d f turns) ∧ ¬Forks d f (after d f turns) v ask := by
  cases hserved : (after d f turns).served d f v ask with
  | none =>
    have hforks : ¬Forks d f (after d f turns) v ask := by
      rintro ⟨a, b, hab, -⟩
      rw [hserved] at hab
      cases hab
    rw [after_concat, turn_idle hserved]
    unfold Ahead
    rw [pin_processed]
    exact (and_iff_left hforks).symm
  | some range =>
    have hbefore : Final f turns := fun pre t' hpre => hfinal pre t' (hpre.trans (List.prefix_append _ _))
    obtain ⟨A, ws, ops, h, -⟩ := exists_frontier (d := d) hhonest hbefore
    have hv := hfinal turns _ (List.prefix_refl _) v rfl
    obtain ⟨-, -, hb, hle, -⟩ := turn_served ht hserved
    obtain ⟨A', h'⟩ := h.read hv ht hserved
    rw [h'.ahead_iff, h.ahead_iff]
    exact h.read_ahead hv hserved hb (hle cap hcap)

variable (v ask) in
/-- The cap once it is pinned, while the pause lasts. -/
theorem paused_rest {before rest : List (Turn C)} (hpaused : (after d f before).pauseRequested = true)
    (hpinned : (after d f before).pausedToBlock = none) (hrest : Turn.resume ∉ rest) :
    (after d f (before ++ .cycle v ask :: rest)).pauseRequested = true ∧
      (after d f (before ++ .cycle v ask :: rest)).pausedToBlock = some (after d f before).lastSync.lastToBlock := by
  have hpin : ∀ g : IndexerGeneration H D, ∀ v' ask', (g.turn d f (.cycle v' ask' : Turn C)).pauseRequested = g.pin.pauseRequested ∧
      (g.turn d f (.cycle v' ask')).pausedToBlock = g.pin.pausedToBlock := by
    intro g v' ask'
    unfold turn
    dsimp only
    split <;> exact ⟨rfl, rfl⟩
  induction rest using List.reverseRecOn with
  | nil =>
    rw [after_concat, (hpin _ v ask).1, (hpin _ v ask).2]
    unfold pin
    rw [if_pos hpaused, hpinned]
    exact ⟨hpaused, rfl⟩
  | append_singleton rest t ih =>
    obtain ⟨hpaused', hcap⟩ := ih fun hin => hrest (List.mem_append_left _ hin)
    rw [← List.cons_append, ← List.append_assoc, after_concat]
    cases t with
    | pause => exact ⟨rfl, hcap⟩
    | resume => exact absurd (List.mem_append_right _ (List.mem_singleton_self _)) hrest
    | cycle v' ask' =>
      rw [(hpin _ v' ask').1, (hpin _ v' ask').2]
      unfold pin
      rw [if_pos hpaused', hcap]
      exact ⟨hpaused', rfl⟩

/-- A cap was pinned by some cycle of the pause that lasts. -/
theorem exists_pinned {cap : ℕ} (hcap : (after d f turns).pausedToBlock = some cap) :
    ∃ before v ask rest, turns = before ++ .cycle v ask :: rest ∧ (after d f before).pauseRequested = true ∧
      (after d f before).pausedToBlock = none ∧ Turn.resume ∉ rest := by
  induction turns using List.reverseRecOn with
  | nil => cases hcap
  | append_singleton turns t ih =>
    rw [after_concat] at hcap
    by_cases hbefore : (after d f turns).pausedToBlock = none
    · cases t with
      | pause => exact absurd (hcap.symm.trans hbefore) (by simp)
      | resume => cases hcap
      | cycle v ask =>
        refine ⟨turns, v, ask, [], rfl, ?_, hbefore, List.not_mem_nil⟩
        by_contra hrunning
        have hpin : (after d f turns).pin = after d f turns := by
          unfold pin
          rw [if_neg hrunning]
        have hsame : ((after d f turns).turn d f (.cycle v ask)).pausedToBlock = none := by
          unfold turn
          dsimp only
          rw [hpin]
          split <;> exact hbefore
        rw [hsame] at hcap
        cases hcap
    · obtain ⟨cap', hcap'⟩ := Option.ne_none_iff_exists'.1 hbefore
      cases t with
      | resume => cases hcap
      | pause =>
        obtain ⟨before, v, ask, rest, rfl, hpaused, hnone, hrest⟩ := ih hcap
        refine ⟨before, v, ask, rest ++ [.pause], by simp, hpaused, hnone, fun hin => ?_⟩
        rcases List.mem_append.1 hin with hin | hin
        · exact hrest hin
        · cases List.mem_singleton.1 hin
      | cycle v' ask' =>
        have hkept : (after d f turns).pausedToBlock = some cap := by
          unfold turn at hcap
          dsimp only at hcap
          unfold pin at hcap
          split at hcap <;> split at hcap <;> simp_all
        obtain ⟨before, v, ask, rest, rfl, hpaused, hnone, hrest⟩ := ih hkept
        refine ⟨before, v, ask, rest ++ [.cycle v' ask'], by simp, hpaused, hnone, fun hin => ?_⟩
        rcases List.mem_append.1 hin with hin | hin
        · exact hrest hin
        · cases List.mem_singleton.1 hin

/-- What a pause leaves applied above its cap. -/
theorem ahead_rest {before rest : List (Turn C)} (hhonest : ∀ t ∈ before ++ .cycle v ask :: rest, t.Honest)
    (hfinal : Final f (before ++ .cycle v ask :: rest)) (hpaused : (after d f before).pauseRequested = true)
    (hpinned : (after d f before).pausedToBlock = none) (hrest : Turn.resume ∉ rest) :
    Ahead C (after d f before).lastSync.lastToBlock (after d f (before ++ .cycle v ask :: rest)) ↔
      Ahead C (after d f before).lastSync.lastToBlock (after d f before) ∧
        ∀ part v' ask', before <+: part → part ++ [.cycle v' ask'] <+: before ++ .cycle v ask :: rest →
          ¬Forks d f (after d f part) v' ask' := by
  induction rest using List.reverseRecOn with
  | nil =>
    have hcap : (after d f before).pin.maxToBlock = some (after d f before).lastSync.lastToBlock := by
      unfold maxToBlock pin
      rw [if_pos hpaused, if_pos hpaused, hpinned]
      rfl
    rw [ahead_cycle (fun t ht => hhonest t (List.mem_append_left _ ht)) hfinal
      (hhonest _ (List.mem_append_right _ (List.mem_singleton_self _))) hcap]
    refine and_congr_right fun _ => ⟨fun hforks part v' ask' hpart hpre => ?_, fun hforks => ?_⟩
    · -- the pinning cycle is the only one
      have hlen := hpre.length_le
      have hlen' := hpart.length_le
      simp only [List.length_append, List.length_singleton] at hlen
      have heq := hpre.eq_of_length (by simp only [List.length_append, List.length_singleton]; omega)
      obtain ⟨rfl, hcycle⟩ := List.append_inj' heq rfl
      cases hcycle
      exact hforks
    · exact hforks before v ask (List.prefix_refl _) (List.prefix_refl _)
  | append_singleton rest t ih =>
    have hsplit : before ++ .cycle v ask :: (rest ++ [t]) = (before ++ .cycle v ask :: rest) ++ [t] := by
      rw [List.append_assoc, List.cons_append]
    rw [hsplit] at hhonest hfinal ⊢
    have hrest' : Turn.resume ∉ rest := fun hin => hrest (List.mem_append_left _ hin)
    have hbefore : Final f (before ++ .cycle v ask :: rest) :=
      fun pre t' hpre => hfinal pre t' (hpre.trans (List.prefix_append _ _))
    have hih := ih (fun t' ht' => hhonest t' (List.mem_append_left _ ht')) hbefore hrest'
    obtain ⟨hpaused', hcap'⟩ := paused_rest v ask hpaused hpinned hrest'
    have hin : before <+: before ++ .cycle v ask :: rest := List.prefix_append _ _
    -- the cycles of the longer run are those of the shorter one, and the last
    have hcycles : ∀ P : List (Turn C) → View C → Answer H D → Prop,
        (∀ part v' ask', before <+: part → part ++ [.cycle v' ask'] <+: (before ++ .cycle v ask :: rest) ++ [t] → P part v' ask') ↔
          (∀ part v' ask', before <+: part → part ++ [.cycle v' ask'] <+: before ++ .cycle v ask :: rest → P part v' ask') ∧
            ∀ v' ask', t = .cycle v' ask' → P (before ++ .cycle v ask :: rest) v' ask' := by
      intro P
      constructor
      · refine fun hall => ⟨fun part v' ask' hpart hpre => hall part v' ask' hpart (hpre.trans (List.prefix_append _ _)),
          fun v' ask' ht => ?_⟩
        exact hall _ v' ask' hin (ht ▸ List.prefix_refl _)
      · rintro ⟨hall, hlast⟩ part v' ask' hpart hpre
        rcases List.prefix_concat_iff.1 hpre with heq | hpre
        · obtain ⟨rfl, hcycle⟩ := List.append_inj' heq rfl
          exact hlast v' ask' (List.singleton_injective hcycle).symm
        · exact hall part v' ask' hpart hpre
    rw [hcycles, ← and_assoc, ← hih]
    cases t with
    | pause =>
      rw [after_concat]
      exact (and_iff_left fun v' ask' ht => by cases ht).symm
    | resume => exact absurd (List.mem_append_right _ (List.mem_singleton_self _)) hrest
    | cycle v' ask' =>
      have hpin : (after d f (before ++ .cycle v ask :: rest)).pin.maxToBlock =
          some (after d f before).lastSync.lastToBlock := by
        unfold maxToBlock pin
        rw [if_pos hpaused', if_pos hpaused', hcap']
        rfl
      rw [ahead_cycle (fun t' ht' => hhonest t' (List.mem_append_left _ ht')) hfinal
        (hhonest _ (List.mem_append_right _ (List.mem_singleton_self _))) hpin]
      refine and_congr_right fun _ => ⟨fun hforks v'' ask'' ht => ?_, fun hforks => hforks v' ask' rfl⟩
      cases ht
      exact hforks

/-- **What is applied above a cap was stranded there.** -/
theorem strands_iff (hhonest : ∀ t ∈ turns, t.Honest) (hfinal : Final f turns) {cap : ℕ}
    (hcap : (after d f turns).pausedToBlock = some cap) : Strands d f turns ↔ Ahead C cap (after d f turns) := by
  constructor
  · rintro ⟨before, v, ask, rest, rfl, hpaused, hpinned, hrest, hahead, hforks⟩
    obtain ⟨-, hcap'⟩ := paused_rest v ask hpaused hpinned hrest
    rw [hcap'] at hcap
    rw [← Option.some.inj hcap]
    exact (ahead_rest hhonest hfinal hpaused hpinned hrest).2 ⟨hahead, hforks⟩
  · intro hahead
    obtain ⟨before, v, ask, rest, rfl, hpaused, hpinned, hrest⟩ := exists_pinned hcap
    obtain ⟨-, hcap'⟩ := paused_rest v ask hpaused hpinned hrest
    rw [hcap'] at hcap
    rw [← Option.some.inj hcap] at hahead
    obtain ⟨hbefore, hforks⟩ := (ahead_rest hhonest hfinal hpaused hpinned hrest).1 hahead
    exact ⟨before, v, ask, rest, rfl, hpaused, hpinned, hrest, hbefore, hforks⟩

/-! ### Drained -/

omit [DecidableEq H] in
theorem pauseState_drained {g : IndexerGeneration H D} : g.pauseState d f = .drained ↔
    g.pauseRequested = true ∧ ∃ cap, g.pausedToBlock = some cap ∧ cap < getFromBlock g.lastSync d f := by
  unfold pauseState
  split
  · rename_i hpaused
    cases g.pausedToBlock with
    | none => simp [hpaused]
    | some cap => by_cases hlt : cap < getFromBlock g.lastSync d f <;> simp [hpaused, hlt]
  · rename_i hrunning
    simp [hrunning]

/-- A drained generation is served nothing. -/
theorem turn_drained {g : IndexerGeneration H D} {cap : ℕ} (hpaused : g.pauseRequested = true)
    (hcap : g.pausedToBlock = some cap) (hlt : cap < getFromBlock g.lastSync d f) (view : View C)
    (getLogEvents : Answer H D) : g.turn d f (.cycle view getLogEvents) = g := by
  have hpin : g.pin = g := by
    unfold pin
    rw [if_pos hpaused, hcap, Option.getD_some, ← hcap]
  rw [turn_idle, hpin]
  unfold served maxToBlock
  rw [hpin, if_pos hpaused, hcap]
  exact if_pos (lt_of_le_of_lt (min_le_right _ _) hlt)

/-- **When the state is the fold of the chain up to the cap** that the frontier has passed. -/
theorem Frontier.exact_iff (h : Frontier C d f turns A ws ops) (hv : Upholds f turns v) {cap : ℕ} (hcap : cap < A) :
    Exact d f cap turns ↔ (∀ x, net x ops ≤ 1) ∧ ¬Ahead C cap (after d f turns) := by
  -- a view that has read the heights up to the cap
  have hheight : ∀ v, Upholds f turns v → ∀ n, d ≤ n → n ≤ cap → C.numberOf (v.hashAt n) = n := by
    intro v hv n hdn hn
    obtain ⟨pre, u, ask, a, b, hpre, -, -, -, htip⟩ := h.scanned n hdn (by omega)
    have hmem : Turn.cycle u ask ∈ turns := hpre.subset (List.mem_append_right _ (List.mem_singleton_self _))
    rw [hv _ hmem u rfl n htip]
    exact u.height n (by omega)
  have hlogs : ∀ v, Upholds f turns v → ∀ key : H × ℕ, (∃ e ∈ v.getLogs d cap, (e.blockHash, e.logIndex) = key) ↔
      (key.1 ∈ held ∅ ops ∧ C.numberOf key.1 ≤ cap) ∧ key ∈ C.logKeys key.1 := by
    intro v hv key
    constructor
    · rintro ⟨e, he, rfl⟩
      unfold View.getLogs at he
      obtain ⟨n, hn, he⟩ := List.mem_flatMap.1 he
      rw [List.mem_range'_1] at hn
      have hnum := hheight v hv n hn.1 (by omega)
      have hhash := C.log_hash _ e he
      have hle : C.numberOf e.blockHash ≤ cap := by
        rw [hhash, hnum]
        omega
      refine ⟨⟨?_, hle⟩, List.mem_map.2 ⟨e, hhash ▸ he, rfl⟩⟩
      rw [h.settled v hv _ (lt_of_le_of_lt hle hcap), hhash, hnum]
      exact ⟨⟨List.ne_nil_of_mem he, rfl⟩, hn.1⟩
    · rintro ⟨⟨hx, hle⟩, hkey⟩
      obtain ⟨⟨-, hhash⟩, hdn⟩ := (h.settled v hv _ (by omega)).1 hx
      obtain ⟨e, he, hek⟩ := List.mem_map.1 hkey
      refine ⟨e, List.mem_flatMap.2 ⟨C.numberOf key.1, ?_, ?_⟩, hek⟩
      · rw [List.mem_range'_1]
        omega
      · rw [hhash]
        exact he
  have hnet : ∀ key : H × ℕ, key ∈ C.logKeys key.1 →
      netDelivered key (after d f turns).processed = net key.1 ops := fun key hkey => by
    rw [h.stream, netDelivered_emit hkey]
  have hnone : ∀ key : H × ℕ, key ∉ C.logKeys key.1 → netDelivered key (after d f turns).processed = 0 :=
    fun key hkey => by rw [h.stream, netDelivered_of_notMem hkey]
  constructor
  · intro hexact
    -- a block with its log that the state counts
    have hkeyOf : ∀ x ∈ held ∅ ops, ∃ i, (x, i) ∈ C.logKeys x := fun x hx => by
      obtain ⟨e, he⟩ := List.exists_mem_of_ne_nil _ (h.bearing x hx)
      exact ⟨e.logIndex, List.mem_map.2 ⟨e, he, by rw [C.log_hash x e he]⟩⟩
    constructor
    · intro x
      by_contra hnot
      have hx := (h.count x).2.1.2 (by omega)
      obtain ⟨i, hkey⟩ := hkeyOf x hx
      have hcount : netDelivered (x, i) (after d f turns).processed = net x ops := hnet (x, i) hkey
      obtain ⟨hone, hzero⟩ := hexact v hv (x, i)
      by_cases hlog : ∃ e ∈ v.getLogs d cap, (e.blockHash, e.logIndex) = (x, i)
      · have hone' := hone hlog
        omega
      · have hzero' := hzero hlog
        omega
    · intro hahead
      obtain ⟨x, hx, hlt⟩ := (h.ahead_iff cap).1 hahead
      obtain ⟨i, hkey⟩ := hkeyOf x hx
      have hlog : ¬∃ e ∈ v.getLogs d cap, (e.blockHash, e.logIndex) = (x, i) := fun hlog =>
        absurd ((hlogs v hv (x, i)).1 hlog).1.2 (not_le.2 hlt)
      have hzero := (hexact v hv (x, i)).2 hlog
      have hone := (h.count x).2.1.1 hx
      have hcount : netDelivered (x, i) (after d f turns).processed = net x ops := hnet (x, i) hkey
      omega
  · rintro ⟨honce, hahead⟩ v' hv' key
    rw [hlogs v' hv' key]
    constructor
    · rintro ⟨⟨hx, -⟩, hkey⟩
      have hone := (h.count key.1).2.1.1 hx
      have hle := honce key.1
      rw [hnet key hkey]
      omega
    · intro hnot
      by_cases hkey : key ∈ C.logKeys key.1
      · have hx : key.1 ∉ held ∅ ops := fun hx => hnot ⟨⟨hx, not_lt.1 fun hlt =>
          hahead ((h.ahead_iff cap).2 ⟨key.1, hx, hlt⟩)⟩, hkey⟩
        have hzero := (h.count key.1).2.1.not.1 hx
        have hpos := (h.count key.1).1
        rw [hnet key hkey]
        omega
      · exact hnone key hkey

omit [DecidableEq H] in
/-- The chain last read upholds what was read. -/
theorem exists_upholds (hfinal : Final f turns) (hin : .cycle v ask ∈ turns) : ∃ u, Upholds f turns u := by
  induction turns using List.reverseRecOn with
  | nil => cases hin
  | append_singleton turns t ih =>
    have hbefore : Final f turns := fun pre t' hpre => hfinal pre t' (hpre.trans (List.prefix_append _ _))
    cases hview : t.view? with
    | some u =>
      refine ⟨u, fun t' ht' w hw => ?_⟩
      rcases List.mem_append.1 ht' with ht' | ht'
      · exact hfinal turns t (List.prefix_refl _) u hview t' ht' w hw
      · rw [List.mem_singleton.1 ht', Option.mem_def, hview] at hw
        rw [Option.some.inj hw]
        exact fun _ _ => rfl
    | none =>
      rcases List.mem_append.1 hin with hin | hin
      · obtain ⟨u, hu⟩ := ih hbefore hin
        refine ⟨u, fun t' ht' w hw => ?_⟩
        rcases List.mem_append.1 ht' with ht' | ht'
        · exact hu t' ht' w hw
        · rw [List.mem_singleton.1 ht', Option.mem_def, hview] at hw
          cases hw
      · rw [← List.mem_singleton.1 hin] at hview
        cases hview

/-- **When a paused generation drains to the chain up to its cap.** Over every run, under any
tips: nothing above the cap is applied during a pause, and a drained generation has read every
block up to the cap at a final height, is the fold of the chain up to it and never changes again,
exactly when every generation that drained had found each log that it read again in its window,
and has not been pinned below an applied log without finding a fork since. -/
theorem drains_iff (hhonest : ∀ t ∈ turns, t.Honest) (hfinal : Final f turns) :
    ((∀ pre t, pre ++ [t] <+: turns → Capped d f (after d f pre) t) ∧
      ∀ pre, pre <+: turns → (after d f pre).pauseState d f = .drained →
        ∀ cap ∈ (after d f pre).maxToBlock, DrainedForGood d f cap pre) ↔
    ∀ pre, pre <+: turns → (after d f pre).pauseState d f = .drained → Recalled d f pre ∧ ¬Strands d f pre := by
  have hsub : ∀ pre, pre <+: turns → (∀ t ∈ pre, t.Honest) ∧ Final f pre := fun pre hpre =>
    ⟨fun t ht => hhonest t (hpre.subset ht), fun part t hpart => hfinal part t (hpart.trans hpre)⟩
  have hcapped : ∀ pre t, pre ++ [t] <+: turns → Capped d f (after d f pre) t := by
    intro pre t hpre cap hcap
    obtain ⟨hhonest', hfinal'⟩ := hsub _ hpre
    have hnothing : (after d f pre).processed = (after d f pre).processed ++ [] := (List.append_nil _).symm
    cases t with
    | pause => exact ⟨[], hnothing, fun e he => absurd he List.not_mem_nil⟩
    | resume => exact ⟨[], hnothing, fun e he => absurd he List.not_mem_nil⟩
    | cycle v ask =>
      cases hserved : (after d f pre).served d f v ask with
      | none =>
        refine ⟨[], ?_, fun e he => absurd he List.not_mem_nil⟩
        rw [turn_idle hserved, pin_processed, List.append_nil]
      | some range =>
        obtain ⟨A, ws, ops, h, -⟩ := exists_frontier (d := d) (fun t ht => hhonest' t (List.mem_append_left _ ht))
          fun part t hpart => hfinal' part t (hpart.trans (List.prefix_append _ _))
        obtain ⟨-, -, hb, hle, r, hr, hturn⟩ :=
          turn_served (hhonest' _ (List.mem_append_right _ (List.mem_singleton_self _))) hserved
        obtain ⟨-, hstream, -⟩ := View.generate_delta h.window (fun x hx => h.bearing x (h.live x hx)) hb hr
        rw [hturn] at hcap ⊢
        refine ⟨r.eventStream, rfl, fun e he hlive => ?_⟩
        rw [hstream] at he
        obtain ⟨o, ho, he⟩ := List.mem_flatMap.1 he
        have hnum := C.emit_number he
        unfold Delta.ops at ho
        rcases List.mem_append.1 ho with ho | ho
        · -- what is taken back is marked removed
          obtain ⟨x, -, rfl⟩ := List.mem_map.1 ho
          obtain ⟨e', -, rfl⟩ := List.mem_map.1 he
          cases hlive
        · obtain ⟨x, hx, rfl⟩ := List.mem_map.1 ho
          rw [hnum]
          exact ((mem_added hb).1 hx).1.2.2.trans (hle cap hcap)
  have hdrained : ∀ pre, pre <+: turns → (after d f pre).pauseState d f = .drained →
      ((∀ cap ∈ (after d f pre).maxToBlock, DrainedForGood d f cap pre) ↔ Recalled d f pre ∧ ¬Strands d f pre) := by
    intro pre hpre hstate
    obtain ⟨hhonest', hfinal'⟩ := hsub pre hpre
    obtain ⟨hpaused, cap, hcap, hlt⟩ := pauseState_drained.1 hstate
    have hmax : (after d f pre).maxToBlock = some cap := by
      unfold maxToBlock
      rw [if_pos hpaused, hcap]
    obtain ⟨A, ws, ops, h, honce⟩ := exists_frontier (d := d) hhonest' hfinal'
    have hcapA : cap < A := hlt.trans_le h.from_le
    obtain ⟨before, v, ask, rest, hsplit, -⟩ := exists_pinned hcap
    have hin : Turn.cycle v ask ∈ pre := hsplit ▸ List.mem_append_right _ List.mem_cons_self
    obtain ⟨u, hu⟩ := exists_upholds hfinal' hin
    have hexact := h.exact_iff hu hcapA
    rw [honce, ← strands_iff hhonest' hfinal' hcap] at hexact
    rw [← hexact, hmax]
    constructor
    · exact fun hgood => (hgood cap rfl).2.1
    · intro hexact' cap' hcap'
      rw [← Option.some.inj hcap']
      exact ⟨fun n hdn hn => h.scanned n hdn (lt_of_le_of_lt hn hcapA), hexact', turn_drained hpaused hcap hlt⟩
  constructor
  · rintro ⟨-, hgood⟩ pre hpre hstate
    exact (hdrained pre hpre hstate).1 (hgood pre hpre hstate)
  · exact fun hcond => ⟨hcapped, fun pre hpre hstate => (hdrained pre hpre hstate).2 (hcond pre hpre hstate)⟩

end Frontier

end IndexerGeneration

/-- A cycle that is served everything. -/
def Turn.whole (view : View C) : Turn C :=
  .cycle view fun fromBlock toBlock => .ok (view.getLogs fromBlock toBlock, toBlock)

theorem Turn.whole_honest (view : View C) : (Turn.whole view).Honest :=
  fun _ b hab _ => .inr ⟨b, hab, le_rfl, rfl⟩

/-- Blocks `4`, `5` and their replacements `104`, `105` carry a log each. -/
abbrev fewLogs : Chain ℕ Unit := .oneLog (· % 100) fun x => decide (x ∈ [4, 5, 104, 105])

/-- The chain up to a tip, with one block replaced. -/
def fewBlocks (tip replaced : ℕ) (h : tip < 100) : View fewLogs :=
  ⟨tip, fun n => if n = replaced then n + 100 else n, fun n hn => by
    show (if n = replaced then n + 100 else n) % 100 = n
    split <;> omega⟩

/-- Paused at block `5`: block `4` gives way to block `104`, and finality passes. -/
def shrinking : List (Turn fewLogs) :=
  [.whole (fewBlocks 5 99 (by decide)), .pause, .whole (fewBlocks 6 4 (by decide)), .whole (fewBlocks 8 4 (by decide))]

/-- Paused at block `4` after the tip fell: block `5` is applied, and gives way unseen. -/
def stranding : List (Turn fewLogs) :=
  [.whole (fewBlocks 5 99 (by decide)), .whole (fewBlocks 4 99 (by decide)), .pause, .whole (fewBlocks 9 5 (by decide))]

theorem whole_honest {turns : List (Turn C)} (h : ∀ t ∈ turns, t = .pause ∨ ∃ view, t = .whole view) :
    ∀ t ∈ turns, t.Honest := by
  intro t ht
  rcases h t ht with rfl | ⟨view, rfl⟩
  · trivial
  · exact Turn.whole_honest view

theorem turns_final : Final 2 shrinking ∧ Final 2 stranding := by
  constructor
  all_goals
    apply final_of_pairwise
    simp only [shrinking, stranding, Turn.whole, Turn.view?, fewBlocks, List.pairwise_cons, List.mem_cons,
      Option.mem_def, reduceCtorEq, Option.some.injEq, forall_eq_or_imp, forall_eq', List.not_mem_nil, false_imp_iff,
      implies_true, and_true, true_and, List.Pairwise.nil]
    constructor <;> intro n hn <;> rw [if_neg (by omega), if_neg (by omega)]

open IndexerGeneration

theorem listed_of {d f : ℕ} [DecidableEq H] {g : IndexerGeneration H D} {v : View C} {ask : Answer H D} {a b : ℕ}
    (hserved : g.served d f v ask = some (a, b)) (h : ∀ e ∈ v.getLogs a b,
      (e.blockHash, e.logIndex) ∈ foldEvents ∅ g.processed → e.blockHash ∈ g.lastSync.unconfirmedBlocks.map (·.hash)) :
    Listed d f g v ask := by
  intro a' b' hserved'
  rw [hserved] at hserved'
  cases hserved'
  exact h

theorem drains_iff_shrinking : DrainedForGood 0 2 5 shrinking := by
  have hrecalled : Recalled 0 2 shrinking := by
    show Recalled 0 2 (((([] ++ [_]) ++ [_]) ++ [_]) ++ [_])
    simp only [recalled_concat]
    refine ⟨⟨⟨⟨recalled_nil, fun v ask ht => ?_⟩, fun v ask ht => ?_⟩, fun v ask ht => ?_⟩, fun v ask ht => ?_⟩
    · cases ht
      exact @listed_of _ _ _ _ _ _ _ _ _ 0 5 (by rfl) (by decide)
    · cases ht
    · cases ht
      exact @listed_of _ _ _ _ _ _ _ _ _ 3 5 (by rfl) (by decide)
    · cases ht
      exact @listed_of _ _ _ _ _ _ _ _ _ 4 5 (by rfl) (by decide)
  have hstays : ¬Strands 0 2 shrinking := by
    rw [strands_iff (whole_honest (by simp [shrinking])) turns_final.1 (show (after 0 2 shrinking).pausedToBlock = some 5 by decide)]
    rintro ⟨key, hkey, hlt⟩
    revert key
    decide
  refine ((drains_iff (whole_honest (by simp [shrinking])) turns_final.1).2 fun pre hpre hstate => ?_).2 shrinking
    (List.prefix_refl _) (by decide) 5 (by decide)
  have hlen : pre.length ≤ 4 := hpre.length_le
  rw [List.prefix_iff_eq_take.1 hpre] at hstate ⊢
  -- only the whole run is drained
  generalize pre.length = k at hlen hstate ⊢
  interval_cases k
  · exact absurd hstate (by decide)
  · exact absurd hstate (by decide)
  · exact absurd hstate (by decide)
  · exact absurd hstate (by decide)
  · exact ⟨hrecalled, hstays⟩

/-- **What is left behind**: drained at cap `4`, the state still holds the log of block `5`. -/
theorem stranding_stuck : (∀ t ∈ stranding, t.Honest) ∧ Final 2 stranding ∧
    (after 0 2 stranding).pauseState 0 2 = .drained ∧ (after 0 2 stranding).maxToBlock = some 4 ∧
    ¬DrainedForGood 0 2 4 stranding := by
  refine ⟨whole_honest (by simp [stranding]), turns_final.2, by decide, by decide, ?_⟩
  rintro ⟨-, hexact, -⟩
  obtain ⟨u, hu⟩ := exists_upholds turns_final.2 (List.mem_cons_self)
  have hsame : ∀ n, n < 7 → u.hashAt n = if n = 5 then 105 else n := by
    intro n hn
    have hlast := hu (.whole (fewBlocks 9 5 (by decide))) (by simp [stranding]) _ rfl n (by
      show n + 2 < 9
      omega)
    rw [hlast]
    show (if n = 5 then n + 100 else n) = _
    split <;> omega
  have hlogs : u.getLogs 0 4 = (fewBlocks 9 5 (by decide)).getLogs 0 4 := by
    unfold View.getLogs
    refine List.flatMap_congr fun n hn => ?_
    rw [List.mem_range'_1] at hn
    rw [hsame n (by omega)]
    show _ = fewLogs.logsOf (if n = 5 then n + 100 else n)
    rw [if_neg (by omega), if_neg (by omega)]
  have hzero := (hexact u hu (5, 0)).2 (by rw [hlogs]; decide)
  exact absurd hzero (by decide)

end Etherfold
