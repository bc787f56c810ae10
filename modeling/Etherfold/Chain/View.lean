import Etherfold.Ledger.Basic
import Etherfold.Engine.Derive

/-!
# Chain views and what a fetch of one yields

* `Chain`: the blocks there are; the logs of a block are a function of its hash.
* `View`: the chain as a node serves it at one moment, one hash per height.
* `View.getLogs`: the complete answer for a block range.
* `generate_delta`: **what `generateStreamToAppend` derives from a fetch**, as a
  `Delta` of block hashes.
-/

namespace Etherfold

open Ledger

variable {H D : Type}

/-- The blocks of all branches. A hash names one block: its height and its logs, each
under an index of its own. -/
structure Chain (H D : Type) where
  numberOf : H → ℕ
  logsOf : H → List (LogEvent H D)
  log_hash : ∀ x, ∀ e ∈ logsOf x, e.blockHash = x
  log_number : ∀ x, ∀ e ∈ logsOf x, e.blockNumber = numberOf x
  log_live : ∀ x, ∀ e ∈ logsOf x, e.removed = false
  log_index : ∀ x, ((logsOf x).map (·.logIndex)).Nodup

namespace Chain

variable (C : Chain H D)

/-- A block as the engine holds it. -/
def block (x : H) : EventBlock H D := ⟨x, C.numberOf x, C.logsOf x⟩

@[simp] theorem block_hash (x : H) : (C.block x).hash = x := rfl

@[simp] theorem block_number (x : H) : (C.block x).number = C.numberOf x := rfl

@[simp] theorem block_events (x : H) : (C.block x).events = C.logsOf x := rfl

/-- The stream entries of an applied or a retracted block. -/
def emit : Op H → List (LogEvent H D)
  | .add x => C.logsOf x
  | .retract x => (C.logsOf x).map LogEvent.retracted

/-- The run of entries of an applied or a retracted block. -/
def group : Op H → StreamBlock H D
  | .add x => ⟨C.block x, false⟩
  | .retract x => ⟨⟨x, C.numberOf x, C.emit (.retract x)⟩, true⟩

/-- The block carries logs of ours. -/
def Bearing (x : H) : Prop := C.logsOf x ≠ []

instance (x : H) : Decidable (C.Bearing x) := decidable_of_iff (¬(C.logsOf x).isEmpty = true) (by
  simp [Bearing])

/-- Blocks named by numbers, each with one log or none. -/
def oneLog (numberOf : ℕ → ℕ) (bears : ℕ → Bool) : Chain ℕ Unit where
  numberOf := numberOf
  logsOf x := if bears x then [⟨x, numberOf x, 0, false, ()⟩] else []
  log_hash x e he := by
    by_cases h : bears x <;> simp_all
  log_number x e he := by
    by_cases h : bears x <;> simp_all
  log_live x e he := by
    by_cases h : bears x <;> simp_all
  log_index x := by
    by_cases h : bears x <;> simp [h]

variable {C}

theorem block_ok {x : H} (h : C.Bearing x) : (C.block x).Ok :=
  ⟨h, C.log_hash x, C.log_number x, C.log_live x⟩

theorem group_ok {o : Op H} (h : C.Bearing o.key) : (C.group o).Ok := by
  cases o with
  | add x => exact ⟨h, C.log_hash x, C.log_number x, C.log_live x⟩
  | retract x =>
    refine ⟨by simpa [group, emit, Bearing] using h, ?_, ?_, ?_⟩
    all_goals
      intro e he
      obtain ⟨e', he', rfl⟩ := List.mem_map.1 he
    · exact C.log_hash x e' he'
    · exact C.log_number x e' he'
    · rfl

@[simp] theorem group_hash (o : Op H) : (C.group o).hash = o.key := by cases o <;> rfl

@[simp] theorem group_number (o : Op H) : (C.group o).number = C.numberOf o.key := by cases o <;> rfl

@[simp] theorem group_events (o : Op H) : (C.group o).events = C.emit o := by cases o <;> rfl

/-- The entries of a block carry its height. -/
theorem emit_number {o : Op H} {e : LogEvent H D} (he : e ∈ C.emit o) :
    e.blockNumber = C.numberOf o.key := by
  cases o with
  | add x => exact C.log_number x e he
  | retract x =>
    obtain ⟨e', he', rfl⟩ := List.mem_map.1 he
    exact C.log_number x e' he'

/-- The entries of a block carry its hash. -/
theorem emit_hash {o : Op H} {e : LogEvent H D} (he : e ∈ C.emit o) : e.blockHash = o.key := by
  cases o with
  | add x => exact C.log_hash x e he
  | retract x =>
    obtain ⟨e', he', rfl⟩ := List.mem_map.1 he
    exact C.log_hash x e' he'

/-- **A stream of block entries regroups into the entries it was made of.** -/
theorem groupStream_emit [DecidableEq H] {ops : List (Op H)} (hb : ∀ o ∈ ops, C.Bearing o.key)
    (hc : ops.IsChain (· ≠ ·)) : groupStreamPerBlock (ops.flatMap C.emit) = ops.map C.group := by
  have hev : ops.flatMap C.emit = (ops.map C.group).flatMap (·.events) := by
    rw [List.flatMap_map]; simp only [group_events]
  rw [hev, groupStreamPerBlock_flatMap]
  · intro g hg
    obtain ⟨o, ho, rfl⟩ := List.mem_map.1 hg
    exact group_ok (hb o ho)
  · rw [List.isChain_map]
    refine hc.imp fun o o' hne hsame => hne ?_
    obtain ⟨h1, h2⟩ := hsame
    rw [group_hash, group_hash] at h1
    cases o <;> cases o' <;> simp_all [group]

end Chain

variable {C : Chain H D}

/-- The chain as a node serves it: the tip, and one block per height up to it. -/
structure View (C : Chain H D) where
  tip : ℕ
  hashAt : ℕ → H
  height : ∀ n ≤ tip, C.numberOf (hashAt n) = n

namespace View

/-- **The complete answer to a log request** for `[fromBlock, toBlock]`. -/
def getLogs (v : View C) (fromBlock toBlock : ℕ) : List (LogEvent H D) :=
  (List.range' fromBlock (toBlock + 1 - fromBlock)).flatMap fun n => C.logsOf (v.hashAt n)

/-- The log-bearing blocks of a range, ascending. -/
def bearing (v : View C) (fromBlock toBlock : ℕ) : List H :=
  ((List.range' fromBlock (toBlock + 1 - fromBlock)).map v.hashAt).filter fun x => C.Bearing x

/-- The block stands on this view. -/
def On (v : View C) (x : H) : Prop := C.Bearing x ∧ C.numberOf x ≤ v.tip ∧ v.hashAt (C.numberOf x) = x

variable {v : View C} {a b : ℕ}

theorem mem_bearing (hb : b ≤ v.tip) {x : H} :
    x ∈ v.bearing a b ↔ v.On x ∧ a ≤ C.numberOf x ∧ C.numberOf x ≤ b := by
  simp only [bearing, List.mem_filter, List.mem_map, List.mem_range'_1, decide_eq_true_eq, On]
  constructor
  · rintro ⟨⟨n, ⟨h1, h2⟩, rfl⟩, hx⟩
    have hn := v.height n (by omega)
    rw [hn]
    exact ⟨⟨hx, by omega, rfl⟩, h1, by omega⟩
  · rintro ⟨⟨hx, -, hh⟩, h1, h2⟩
    exact ⟨⟨C.numberOf x, ⟨h1, by omega⟩, hh⟩, hx⟩

theorem bearing_sorted (hb : b ≤ v.tip) :
    (v.bearing a b).Pairwise fun x y => C.numberOf x < C.numberOf y := by
  unfold bearing
  refine List.Pairwise.filter _ ?_
  rw [List.pairwise_map]
  refine List.Pairwise.imp_of_mem ?_ List.pairwise_lt_range'
  intro m n hm hn hlt
  rw [List.mem_range'_1] at hm hn
  rw [v.height m (by omega), v.height n (by omega)]
  exact hlt

theorem getLogs_eq : v.getLogs a b = (v.bearing a b).flatMap C.logsOf := by
  unfold getLogs bearing
  generalize List.range' a (b + 1 - a) = l
  induction l with
  | nil => rfl
  | cons n l ih =>
    by_cases h : C.Bearing (v.hashAt n)
    · simp [ih, h]
    · have h0 : C.logsOf (v.hashAt n) = [] := by simpa [Chain.Bearing] using h
      simp [ih, h, h0]

end View

/-- Ascending by height. -/
abbrev Ascending (C : Chain H D) (xs : List H) : Prop :=
  xs.Pairwise fun x y => C.numberOf x < C.numberOf y

theorem Ascending.nodup {xs : List H} (h : Ascending C xs) : xs.Nodup :=
  h.imp fun hlt he => by subst he; exact lt_irrefl _ hlt

theorem Ascending.eq_of_number {xs : List H} (h : Ascending C xs) {x y : H} (hx : x ∈ xs)
    (hy : y ∈ xs) (hn : C.numberOf x = C.numberOf y) : x = y := by
  have hnodup : (xs.map C.numberOf).Nodup := by
    rw [List.Nodup, List.pairwise_map]
    exact h.imp fun hlt => ne_of_lt hlt
  exact List.inj_on_of_nodup_map hnodup hx hy hn

/-- A delta at the level of blocks: what it takes back, then what it adds. -/
structure Delta (H : Type) where
  retracted : List H
  added : List H
  deriving DecidableEq, Repr

/-- The entries of a delta, in stream order. -/
def Delta.ops (d : Delta H) : List (Op H) := d.retracted.map .retract ++ d.added.map .add

variable [DecidableEq H]

namespace View

/-- The range covers the block and the view does not carry it there. -/
def Contradicts (v : View C) (a b : ℕ) (x : H) : Prop :=
  a ≤ C.numberOf x ∧ C.numberOf x ≤ b ∧ v.hashAt (C.numberOf x) ≠ x

instance (v : View C) (a b : ℕ) (x : H) : Decidable (v.Contradicts a b x) :=
  inferInstanceAs (Decidable (_ ∧ _ ∧ _))

/-- The part of a window a fetch of `[a, b]` leaves standing. -/
def kept (v : View C) (a b : ℕ) (ws : List H) : List H := ws.takeWhile fun x => !v.Contradicts a b x

/-- **The delta of a fetch** of `[a, b]` against the window `ws`. -/
def delta (v : View C) (a b : ℕ) (ws : List H) : Delta H where
  retracted := ws.dropWhile fun x => !v.Contradicts a b x
  added := (v.bearing a b).filter (· ∉ v.kept a b ws)

/-- **The window after a fetch** of `[a, b]`. -/
def window (v : View C) (a b f : ℕ) (ws : List H) : List H :=
  ((v.kept a b ws).filter (fun x => b - C.numberOf x ≤ f) ++
    (v.delta a b ws).added.filter fun x => v.tip - C.numberOf x ≤ f).insertionSort
      fun x y => C.numberOf x ≤ C.numberOf y

end View

variable {v : View C} {a b : ℕ}

/-- Splitting the image of a list, when the tests agree on the list. -/
theorem span_map {α β : Type*} (g : α → β) (p : β → Bool) {q : α → Bool} {l : List α}
    (h : ∀ x ∈ l, p (g x) = q x) :
    (l.map g).takeWhile p = (l.takeWhile q).map g ∧ (l.map g).dropWhile p = (l.dropWhile q).map g := by
  induction l with
  | nil => exact ⟨rfl, rfl⟩
  | cons x l ih =>
    obtain ⟨htake, hdrop⟩ := ih fun y hy => h y (List.mem_cons_of_mem _ hy)
    have hx := h x List.mem_cons_self
    by_cases hq : q x
    · simp [hx, hq, htake, hdrop]
    · simp [hx, hq]

omit [DecidableEq H] in
/-- Blocks of different heights: the hash a payload carries at a height is that of
its block there. -/
theorem newHashAt_iff {xs : List H} (h : Ascending C xs) {n : ℕ} {x : H} :
    newHashAt (xs.map C.block) n = some x ↔ x ∈ xs ∧ C.numberOf x = n := by
  unfold newHashAt
  rw [← List.map_reverse, List.find?_map, Option.map_map, Option.map_eq_some_iff]
  have hp : (fun b : EventBlock H D => decide (b.number = n)) ∘ C.block =
      fun y => decide (C.numberOf y = n) := rfl
  rw [hp]
  constructor
  · rintro ⟨y, hy, rfl⟩
    have hmem := List.mem_of_find?_eq_some hy
    have hnum := List.find?_some hy
    exact ⟨List.mem_reverse.1 hmem, of_decide_eq_true hnum⟩
  · rintro ⟨hx, hn⟩
    have hsome : (xs.reverse.find? fun y => decide (C.numberOf y = n)).isSome := by
      rw [List.find?_isSome]
      exact ⟨x, List.mem_reverse.2 hx, decide_eq_true hn⟩
    obtain ⟨y, hy⟩ := Option.isSome_iff_exists.1 hsome
    have hmem : y ∈ xs := List.mem_reverse.1 (List.mem_of_find?_eq_some hy)
    have hnum := List.find?_some hy
    rw [decide_eq_true_eq] at hnum
    exact ⟨y, hy, h.eq_of_number hmem hx (hnum.trans hn.symm)⟩

namespace View

variable {v : View C} {a b f : ℕ} {ws : List H}

theorem contradicted_block (hb : b ≤ v.tip) {x : H} (hx : C.Bearing x) :
    contradicted ((v.bearing a b).map C.block) ⟨v.tip, a, b, f⟩ (C.block x) =
      decide (v.Contradicts a b x) := by
  have hw := newHashAt_iff (v.bearing_sorted (a := a) hb) (n := C.numberOf x) (x := x)
  have hdef : contradicted ((v.bearing a b).map C.block) ⟨v.tip, a, b, f⟩ (C.block x) =
      (decide (a ≤ C.numberOf x) && decide (C.numberOf x ≤ b) &&
        decide (newHashAt ((v.bearing a b).map C.block) (C.numberOf x) ≠ some x)) := rfl
  rw [hdef, Bool.eq_iff_iff, decide_eq_true_eq, Bool.and_eq_true, Bool.and_eq_true, decide_eq_true_eq,
    decide_eq_true_eq, decide_eq_true_eq, ne_eq, hw, mem_bearing hb]
  constructor
  · rintro ⟨⟨h1, h2⟩, h3⟩
    exact ⟨h1, h2, fun hh => h3 ⟨⟨⟨hx, by omega, hh⟩, h1, h2⟩, rfl⟩⟩
  · rintro ⟨h1, h2, h3⟩
    exact ⟨⟨h1, h2⟩, fun hh => h3 hh.1.1.2.2⟩

theorem windowHas_block (rs : List H) (x : H) :
    windowHas (rs.map C.block) (C.block x) = decide (x ∈ rs) := by
  unfold windowHas
  rw [Bool.eq_iff_iff, List.any_map, List.any_eq_true, decide_eq_true_eq]
  constructor
  · rintro ⟨r, hr, h⟩
    have hrx : r = x := of_decide_eq_true (Bool.and_eq_true_iff.1 h).2
    exact hrx ▸ hr
  · intro hx
    exact ⟨x, hx, by simp⟩

omit [DecidableEq H] in
theorem bearing_of_mem {x : H} (hx : x ∈ v.bearing a b) : C.Bearing x := by
  unfold bearing at hx
  simpa using (List.mem_filter.1 hx).2

/-- A complete answer groups back into the blocks it was read from. -/
theorem groupLogs_getLogs (hb : b ≤ v.tip) :
    groupLogsPerBlock (v.getLogs a b) = (v.bearing a b).map C.block := by
  have hev : v.getLogs a b = ((v.bearing a b).map C.block).flatMap (·.events) := by
    rw [getLogs_eq, List.flatMap_map]; rfl
  rw [hev, groupLogsPerBlock_flatMap]
  · intro g hg
    obtain ⟨x, hx, rfl⟩ := List.mem_map.1 hg
    exact Chain.block_ok (bearing_of_mem hx)
  · rw [List.map_map]
    have hid : (fun g : EventBlock H D => g.hash) ∘ C.block = id := rfl
    rw [hid, List.map_id]
    exact (View.bearing_sorted hb).nodup

/-- **What `generateStreamToAppend` derives from a complete re-read** of the range its
cursor resumes at. -/
theorem generate_delta {c : LastSync H D} {d : ℕ} (hc : c.unconfirmedBlocks = ws.map C.block)
    (hws : ∀ x ∈ ws, C.Bearing x) (hb : b ≤ v.tip) {r : Appended H D}
    (h : generateStreamToAppend c d (v.getLogs a b) ⟨v.tip, a, b, f⟩ = .ok r) :
    a = getFromBlock c d f ∧ r.eventStream = (v.delta a b ws).ops.flatMap C.emit ∧
      r.newLastSync = ⟨a, v.tip, b, (v.window a b f ws).map C.block⟩ := by
  have hfrom : a = getFromBlock c d f := (generate_ok_iff _ _ _ _).1 ⟨r, h⟩
  refine ⟨hfrom, ?_⟩
  have hkeep : ∀ x ∈ ws, (!contradicted ((v.bearing a b).map C.block) ⟨v.tip, a, b, f⟩ (C.block x)) =
      !decide (v.Contradicts a b x) := by
    intro x hx
    rw [contradicted_block hb (hws x hx)]
  obtain ⟨htake, hdrop⟩ := span_map C.block
    (!contradicted ((v.bearing a b).map C.block) ⟨v.tip, a, b, f⟩ ·) hkeep
  have hfresh : ((v.bearing a b).map C.block).filter
      (fun g => !g.events.isEmpty && !windowHas ((v.kept a b ws).map C.block) g) =
        (v.delta a b ws).added.map C.block := by
    rw [List.filter_map]
    unfold delta
    congr 1
    refine List.filter_congr fun x hx => ?_
    have hne : (C.block x).events.isEmpty = false := by
      simpa [Chain.Bearing] using bearing_of_mem hx
    rw [Function.comp_apply, windowHas_block, hne]
    by_cases hk : x ∈ v.kept a b ws <;> simp [hk]
  unfold generateStreamToAppend at h
  simp only [← hfrom, ne_eq, not_true_eq_false, if_false, groupLogs_getLogs hb, hc, htake, hdrop,
    Except.ok.injEq] at h
  rw [show (ws.takeWhile fun x => !decide (v.Contradicts a b x)) = v.kept a b ws from rfl, hfresh] at h
  subst h
  constructor
  · simp only [Delta.ops, List.flatMap_append, List.flatMap_map]
    rfl
  · simp only [LastSync.mk.injEq, true_and]
    unfold sortBlocks window
    rw [List.map_insertionSort (fun x y => C.numberOf x ≤ C.numberOf y) (·.number ≤ ·.number)
      C.block _ (fun _ _ _ _ => Iff.rfl), List.map_append, List.filter_map, List.filter_map]
    rfl

end View

end Etherfold
