import Etherfold.Store.PatchReads

/-!
# Pruning the patch store

A prune drops the patches at or below the finality depth, the engine's window ends one block
lower, and a revert lowers the tip the depth is measured from.

* `WindowReversible`: every block in the window can be undone.
* `windowReversible_step`: **what a step must not do for that to stay so**.
* `PatchStateStore.undoable_iff`: **every block in the window is undone exactly** after every
  call exactly when no step of the run does it.
-/

namespace Etherfold

variable {X H C : Type}

namespace PatchStateStore

variable {I : Immer X}

/-- The block can still be reorganised away at this tip. -/
def InWindow (s : PatchStateStore I H C) (finality number : ℕ) : Prop :=
  ∃ tip, s.tip = some tip ∧ tip - number ≤ finality

/-- Every block in the window can be undone; below block 0 there is nothing to keep. -/
def WindowReversible (s : PatchStateStore I H C) (finality : ℕ) : Prop :=
  ∀ b ∈ s.blocks, 0 < b.number → (∀ a ∈ s.blocks, a.number ≤ b.number + finality) → s.Reversible b.number

/-- **What a step must not do.** A prune may not reach a block whose height is exactly the
finality depth below the tip. A revert that is accepted must leave, above every block it keeps
without its patches, one by more than the finality depth. -/
def StepKeeps (s : PatchStateStore I H C) (finality : ℕ) : RetainedCall X H C → Prop
  | .prune maxVersions => ∀ b ∈ s.blocks, 0 < b.number → s.tip = some (b.number + finality) →
      ∃ budget, maxVersions = some budget ∧ budget < (s.unreachable b.number).length
  | .call (.revertTo k) => (∀ a ∈ s.blocks, k < (a.number : ℤ) → s.Reversible a.number) →
      ∀ b ∈ s.blocks, 0 < b.number → (b.number : ℤ) ≤ k → ¬s.Reversible b.number →
        ∃ a ∈ s.blocks, (a.number : ℤ) ≤ k ∧ b.number + finality < a.number
  | .call _ => True

/-- What a store constructed with this finality depth keeps. -/
structure Holds (s : PatchStateStore I H C) (finality : ℕ) (applied : List (AppliedBlock EntityKey (Record X) H)) :
    Prop where
  represents : s.Represents applied
  nodup : (s.reversals.map (·.1)).Nodup
  depth : s.finalityDepth = some finality

variable {s : PatchStateStore I H C} {finality : ℕ} {applied : List (AppliedBlock EntityKey (Record X) H)}

/-! ### One step -/

theorem holds_new (I : Immer X) (finality : ℕ) : (new I (some finality) : PatchStateStore I H C).Holds finality [] :=
  ⟨represents_new I _, List.nodup_nil, rfl⟩

/-- A prune drops patches and nothing else. -/
theorem prune_eq (s : PatchStateStore I H C) (maxVersions : Option ℕ) :
    (s.prune maxVersions).1 =
      { s with reversals := s.reversals.filter fun r => ∀ floor, s.floor = some floor → r.1 ∉ s.doomed floor maxVersions } := by
  unfold prune
  cases hfloor : s.floor with
  | none =>
    have hall : s.reversals.filter (fun r => ∀ floor, (none : Option ℕ) = some floor → r.1 ∉ s.doomed floor maxVersions) =
        s.reversals := by
      rw [List.filter_eq_self]
      intro r _
      rw [decide_eq_true_eq]
      intro floor hnone
      cases hnone
    rw [hall]
  | some floor =>
    dsimp only
    congr 1
    apply List.filter_congr
    intro r _
    simp only [Option.some.injEq, forall_eq']

theorem Holds.prune (h : s.Holds finality applied) (maxVersions : Option ℕ) :
    (s.prune maxVersions).1.Holds finality applied := by
  rw [prune_eq]
  have hrep := h.represents
  refine ⟨⟨hrep.blocks, hrep.ascending, hrep.distinct, hrep.tip, hrep.state, ?_⟩, ?_, h.depth⟩
  · intro pre b post hsplit r hr
    exact hrep.undo pre b post hsplit r (List.mem_filter.1 hr).1
  · exact h.nodup.sublist (List.filter_sublist.map _)

theorem Holds.writeCursor (h : s.Holds finality applied) (key : String) (value : C) :
    (s.writeCursor key value).Holds finality applied := by
  have hrep := h.represents
  exact ⟨⟨hrep.blocks, hrep.ascending, hrep.distinct, hrep.tip, hrep.state, hrep.undo⟩, h.nodup, h.depth⟩

/-- The patches a revert leaves are those of the blocks it leaves. -/
theorem reversible_revertTo {k : ℤ} {number : ℕ} (hle : (number : ℤ) ≤ k) :
    (s.revertTo k).2.Reversible number ↔ s.Reversible number := by
  unfold PatchStateStore.revertTo
  split
  · omega
  split
  · exact Iff.rfl
  split
  · exact Iff.rfl
  unfold Reversible
  constructor
  · intro hrev
    obtain ⟨r, hr, hn⟩ := hrev
    exact ⟨r, (List.mem_filter.1 hr).1, hn⟩
  · intro hrev
    obtain ⟨r, hr, hn⟩ := hrev
    refine ⟨r, List.mem_filter.2 ⟨hr, ?_⟩, hn⟩
    rw [decide_eq_true_eq, hn]
    unfold above
    rw [List.mem_insertionSort, List.mem_filter, decide_eq_true_eq]
    omega

theorem nodup_revertTo (h : (s.reversals.map (·.1)).Nodup) (k : ℤ) : ((s.revertTo k).2.reversals.map (·.1)).Nodup := by
  unfold PatchStateStore.revertTo
  split
  · exact List.nodup_nil
  split
  · exact h
  split
  · exact h
  · exact h.sublist (List.filter_sublist.map _)

theorem Represents.mem_blocks (h : s.Represents applied) {a : BlockPointer H} :
    a ∈ s.blocks ↔ ∃ b ∈ applied, b.block = a := by
  rw [h.blocks, List.mem_map]

/-- **A revert is accepted or leaves the store**, by the blocks above its height. -/
theorem Holds.revertTo (h : s.Holds finality applied) (k : ℤ) :
    ((k < 0 ∨ ∀ a ∈ s.blocks, k < (a.number : ℤ) → s.Reversible a.number) ∧ (s.revertTo k).1 = .ok () ∧
        (s.revertTo k).2.Holds finality (applied.filter fun b => (b.block.number : ℤ) ≤ k)) ∨
      (0 ≤ k ∧ (¬∀ a ∈ s.blocks, k < (a.number : ℤ) → s.Reversible a.number) ∧
        (∃ error, (s.revertTo k).1 = .error error) ∧ (s.revertTo k).2 = s) := by
  by_cases hallowed : k < 0 ∨ ∀ a ∈ s.blocks, k < (a.number : ℤ) → s.Reversible a.number
  · refine .inl ⟨hallowed, ?_⟩
    have hrev : k < 0 ∨ ∀ b ∈ applied, k < (b.block.number : ℤ) → s.Reversible b.block.number := by
      refine hallowed.imp_right fun hall b hb hgt => ?_
      exact hall b.block (h.represents.mem_blocks.2 ⟨b, hb, rfl⟩) hgt
    obtain ⟨hok, hrep, hdepth⟩ := h.represents.revertTo hrev
    exact ⟨hok, hrep, nodup_revertTo h.nodup k, hdepth.trans h.depth⟩
  · refine .inr ?_
    rw [not_or] at hallowed
    obtain ⟨hk, hnot⟩ := hallowed
    have hmissing : ∃ n ∈ s.above k, ¬s.Reversible n := by
      by_contra hnone
      refine hnot fun a ha hgt => ?_
      by_contra hgone
      refine hnone ⟨a.number, ?_, hgone⟩
      unfold above
      rw [List.mem_insertionSort, List.mem_filter, decide_eq_true_eq]
      exact ⟨List.mem_map_of_mem ha, hgt⟩
    rw [revertTo_refused (not_lt.1 hk) hmissing]
    exact ⟨not_lt.1 hk, hnot, ⟨_, rfl⟩, rfl⟩

/-- The highest of an ascending list stays out of what is taken short of it. -/
theorem notMem_take {l : List ℕ} (h : l.Pairwise (· < ·)) {n x : ℕ} (hn : n < l.length) (hx : ∀ y ∈ l, y ≤ x) :
    x ∉ l.take n := by
  intro hmem
  obtain ⟨y, hy⟩ := List.exists_mem_of_ne_nil (l.drop n) fun hnil => by
    rw [List.drop_eq_nil_iff] at hnil
    omega
  have hcut := List.take_append_drop n l
  rw [← hcut, List.pairwise_append] at h
  have hlt := h.2.2 x hmem y hy
  have hle := hx y (List.mem_of_mem_drop hy)
  omega

theorem mem_unreachable {floor number : ℕ} : number ∈ s.unreachable floor ↔ s.Reversible number ∧ number ≤ floor := by
  unfold unreachable Reversible
  rw [List.mem_insertionSort, List.mem_filter, List.mem_map, decide_eq_true_eq]

theorem sorted_unreachable (h : (s.reversals.map (·.1)).Nodup) (floor : ℕ) :
    (s.unreachable floor).Pairwise (· < ·) := by
  have hne : ((s.reversals.map (·.1)).filter (· ≤ floor)).Pairwise fun a b => (a : ℕ) ≠ b := h.filter _
  exact Paging.sorted_insertionSort hne

/-- **A prune leaves the window** exactly when it stops short of its lowest block. -/
theorem Holds.prune_iff (h : s.Holds finality applied) (hwindow : s.WindowReversible finality) (maxVersions : Option ℕ) :
    (s.prune maxVersions).1.WindowReversible finality ↔ s.StepKeeps finality (.prune maxVersions : RetainedCall X H C) := by
  have hle : ∀ a ∈ s.blocks, ∃ tip, s.tip = some tip ∧ a.number ≤ tip := by
    intro a ha
    obtain ⟨b, hb, rfl⟩ := h.represents.mem_blocks.1 ha
    exact h.represents.le_tip hb
  have hmax : ∀ tip, s.tip = some tip → ∃ a ∈ s.blocks, a.number = tip := by
    intro tip htip
    rw [h.represents.tip, List.max?_eq_some_iff] at htip
    obtain ⟨b, hb, hbn⟩ := List.mem_map.1 htip.1
    exact ⟨b.block, h.represents.mem_blocks.2 ⟨b, hb, rfl⟩, hbn⟩
  have hfloor : ∀ tip, s.tip = some tip → s.floor = some (tip - finality) := by
    intro tip htip
    unfold floor retentionFloor
    rw [htip, h.depth]
    rfl
  have hreversible : ∀ number, (s.prune maxVersions).1.Reversible number ↔
      s.Reversible number ∧ ∀ floor, s.floor = some floor → number ∉ s.doomed floor maxVersions := by
    intro number
    rw [prune_eq]
    unfold Reversible
    constructor
    · intro hrev
      obtain ⟨r, hr, rfl⟩ := hrev
      obtain ⟨hmem, hkept⟩ := List.mem_filter.1 hr
      exact ⟨⟨r, hmem, rfl⟩, of_decide_eq_true hkept⟩
    · intro hrev
      obtain ⟨⟨r, hr, rfl⟩, hkept⟩ := hrev
      exact ⟨r, List.mem_filter.2 ⟨hr, decide_eq_true hkept⟩, rfl⟩
  have hblocks : (s.prune maxVersions).1.blocks = s.blocks := by rw [prune_eq]
  unfold WindowReversible StepKeeps
  rw [hblocks]
  constructor
  · intro hafter b hb hpos htip
    have hall : ∀ a ∈ s.blocks, a.number ≤ b.number + finality := by
      intro a ha
      obtain ⟨tip, htip', hat⟩ := hle a ha
      rw [htip] at htip'
      injection htip' with heq
      omega
    obtain ⟨hrev, hkept⟩ := (hreversible b.number).1 (hafter b hb hpos hall)
    have hat : s.floor = some b.number := by rw [hfloor _ htip, Nat.add_sub_cancel]
    have hspared := hkept b.number hat
    have hin : b.number ∈ s.unreachable b.number := mem_unreachable.2 ⟨hrev, le_rfl⟩
    unfold doomed at hspared
    cases maxVersions with
    | none => exact absurd hin hspared
    | some budget =>
      refine ⟨budget, rfl, ?_⟩
      by_contra hlong
      dsimp only at hspared
      rw [List.take_of_length_le (not_lt.1 hlong)] at hspared
      exact hspared hin
  · intro hkeeps b hb hpos hall
    refine (hreversible b.number).2 ⟨hwindow b hb hpos hall, fun floor hfl => ?_⟩
    obtain ⟨tip, htip, hbt⟩ := hle b hb
    obtain ⟨a, ha, hat⟩ := hmax tip htip
    have htop := hall a ha
    rw [hfloor tip htip] at hfl
    injection hfl with hfl
    by_cases hexact : tip = b.number + finality
    · -- the lowest block of the window is the highest the floor reaches
      obtain ⟨budget, rfl, hshort⟩ := hkeeps b hb hpos (hexact ▸ htip)
      have hfloor' : floor = b.number := by omega
      rw [hfloor']
      unfold doomed
      exact notMem_take (sorted_unreachable h.nodup _) hshort fun y hy => (mem_unreachable.1 hy).2
    · intro hdoomed
      have hin : b.number ∈ s.unreachable floor := by
        unfold doomed at hdoomed
        cases maxVersions with
        | none => exact hdoomed
        | some budget => exact List.mem_of_mem_take hdoomed
      have hlow := (mem_unreachable.1 hin).2
      omega

/-! ### Runs -/

variable [DecidableEq H]

def performRetained (declarations : List NormalizedEntity) (s : PatchStateStore I H C) :
    RetainedCall X H C → PatchStateStore I H C
  | .call call => perform declarations s call
  | .prune maxVersions => (s.prune maxVersions).1

/-- A store constructed with the engine's finality depth, after some calls. -/
def after (declarations : List NormalizedEntity) (I : Immer X) (finality : ℕ) (calls : List (RetainedCall X H C)) :
    PatchStateStore I H C :=
  calls.foldl (performRetained declarations) (new I (some finality))

/-- **Every block still in the window can be undone**: wherever it was applied, and stayed
recorded since, the revert below it is accepted and leaves the rows, the blocks and the tip as
they were before it was applied. -/
def Undoable (declarations : List NormalizedEntity) (I : Immer X) (finality : ℕ) (calls : List (RetainedCall X H C)) :
    Prop :=
  ∀ pre call post, calls = pre ++ .call (.applyBlock call) :: post →
    ((after declarations I finality pre).applyBlock declarations call).1 = .ok () →
    (∀ part, part <+: post →
      call.block ∈ (after declarations I finality (pre ++ .call (.applyBlock call) :: part)).blocks) →
    (after declarations I finality calls).InWindow finality call.block.number →
    ∃ s, (after declarations I finality calls).revertTo (call.block.number - 1) = (.ok (), s) ∧
      s.state.Same (after declarations I finality pre).state ∧ s.blocks = (after declarations I finality pre).blocks ∧
      s.tip = (after declarations I finality pre).tip

variable {declarations : List NormalizedEntity}

theorem after_concat (declarations : List NormalizedEntity) (I : Immer X) (finality : ℕ)
    (calls : List (RetainedCall X H C)) (call : RetainedCall X H C) :
    after declarations I finality (calls ++ [call]) = performRetained declarations (after declarations I finality calls) call := by
  unfold after
  rw [List.foldl_append]
  rfl

/-- **A block is taken or the store is left.** -/
theorem Holds.applyBlock (declarations : List NormalizedEntity) (hI : I.Exact) (h : s.Holds finality applied)
    (call : AppliedCall X H C) : (∃ error, s.applyBlock declarations call = (.error error, s)) ∨
      ∃ planned s', s.applyBlock declarations call = (.ok (), s') ∧ s'.blocks = s.blocks ++ [call.block] ∧
        (∀ b ∈ s.blocks, b.number < call.block.number) ∧ s'.Holds finality (applied ++ [⟨call.block, planned⟩]) ∧
        s'.Reversible call.block.number ∧ ∀ n, n < call.block.number → (s.Reversible n → s'.Reversible n) := by
  rcases applyBlock_cases declarations s call with ⟨error, hrun⟩ |
    ⟨planned, s', hcheck, -, hrun, hblocks, htip, hdepth, hstate, hreversals⟩
  · exact .inl ⟨error, hrun⟩
  refine .inr ⟨planned, s', hrun, hblocks, ?_, ⟨?_, ?_, hdepth.trans h.depth⟩, ?_, ?_⟩
  · intro b hb
    obtain ⟨a, ha, rfl⟩ := h.represents.mem_blocks.1 hb
    exact ((h.represents.assertRecordable call.block).1 hcheck a ha).1
  · exact h.represents.applyBlock hI hcheck hblocks htip hstate hreversals
  · rw [hreversals, List.map_append, List.nodup_append]
    refine ⟨h.nodup.sublist (List.filter_sublist.map _), List.nodup_singleton _, ?_⟩
    intro n hn m hm
    obtain ⟨r, hr, rfl⟩ := List.mem_map.1 hn
    rw [List.mem_singleton.1 hm]
    exact of_decide_eq_true (List.mem_filter.1 hr).2
  · show ∃ r ∈ s'.reversals, r.1 = call.block.number
    rw [hreversals]
    exact ⟨_, List.mem_append_right _ (List.mem_singleton_self _), rfl⟩
  · intro n hn hrev
    obtain ⟨r, hr, rfl⟩ := hrev
    show ∃ r' ∈ s'.reversals, r'.1 = r.1
    rw [hreversals]
    refine ⟨r, List.mem_append_left _ (List.mem_filter.2 ⟨hr, ?_⟩), rfl⟩
    rw [decide_eq_true_eq]
    omega

/-- **What one step must not do** for the window to stay reversible. -/
theorem windowReversible_step (hI : I.Exact) (h : s.Holds finality applied) (hwindow : s.WindowReversible finality)
    (call : RetainedCall X H C) :
    (performRetained declarations s call).WindowReversible finality ↔ s.StepKeeps finality call := by
  cases call with
  | prune maxVersions => exact h.prune_iff hwindow maxVersions
  | call call =>
    cases call with
    | writeCursor key value => exact iff_of_true hwindow trivial
    | applyBlock call =>
      refine iff_of_true ?_ trivial
      show (s.applyBlock declarations call).2.WindowReversible finality
      rcases h.applyBlock declarations hI call with
        ⟨error, hrun⟩ | ⟨planned, s', hrun, hblocks, habove, -, hnew, hold⟩
      · rw [hrun]
        exact hwindow
      rw [hrun]
      intro b hb hpos hall
      rw [hblocks] at hb hall
      rcases List.mem_append.1 hb with hb | hb
      · exact hold _ (habove b hb) (hwindow b hb hpos fun a ha => hall a (List.mem_append_left _ ha))
      · rw [List.mem_singleton.1 hb]
        exact hnew
    | revertTo k =>
      show (s.revertTo k).2.WindowReversible finality ↔ ((∀ a ∈ s.blocks, k < (a.number : ℤ) → s.Reversible a.number) →
        ∀ b ∈ s.blocks, 0 < b.number → (b.number : ℤ) ≤ k → ¬s.Reversible b.number →
          ∃ a ∈ s.blocks, (a.number : ℤ) ≤ k ∧ b.number + finality < a.number)
      rcases h.revertTo k with ⟨hallowed, -, hafter⟩ | ⟨hk, hnot, -, hsame⟩
      · have hkept : ∀ a, a ∈ (s.revertTo k).2.blocks ↔ a ∈ s.blocks ∧ (a.number : ℤ) ≤ k := by
          intro a
          rw [hafter.represents.mem_blocks, h.represents.mem_blocks]
          constructor
          · intro hmem
            obtain ⟨b, hb, rfl⟩ := hmem
            obtain ⟨hb, hle⟩ := List.mem_filter.1 hb
            exact ⟨⟨b, hb, rfl⟩, of_decide_eq_true hle⟩
          · intro hmem
            obtain ⟨⟨b, hb, rfl⟩, hle⟩ := hmem
            exact ⟨b, List.mem_filter.2 ⟨hb, decide_eq_true hle⟩, rfl⟩
        constructor
        · intro hrev _ b hb hpos hle hgone
          by_contra hnone
          refine hgone ((reversible_revertTo hle).1 (hrev b ((hkept b).2 ⟨hb, hle⟩) hpos fun a ha => ?_))
          by_contra hfar
          obtain ⟨ha, hak⟩ := (hkept a).1 ha
          exact hnone ⟨a, ha, hak, not_le.1 hfar⟩
        · intro hkeeps b hb hpos hall
          obtain ⟨hb, hle⟩ := (hkept b).1 hb
          refine (reversible_revertTo hle).2 ?_
          have haccepted := hallowed.resolve_left (by omega)
          by_contra hgone
          obtain ⟨a, ha, hak, hfar⟩ := hkeeps haccepted b hb hpos hle hgone
          exact absurd (hall a ((hkept a).2 ⟨ha, hak⟩)) (not_le.2 hfar)
      · rw [hsame]
        exact iff_of_true hwindow fun haccepted => absurd haccepted hnot

/-- The store after some calls is made of some blocks. -/
theorem holds_after (hI : I.Exact) (declarations : List NormalizedEntity) (finality : ℕ)
    (calls : List (RetainedCall X H C)) : ∃ applied, (after declarations I finality calls).Holds finality applied := by
  induction calls using List.reverseRecOn with
  | nil => exact ⟨[], holds_new I finality⟩
  | append_singleton calls call ih =>
    obtain ⟨applied, h⟩ := ih
    rw [after_concat]
    cases call with
    | prune maxVersions => exact ⟨applied, h.prune maxVersions⟩
    | call call =>
      cases call with
      | writeCursor key value => exact ⟨applied, h.writeCursor key value⟩
      | applyBlock call =>
        show ∃ applied, ((after declarations I finality calls).applyBlock declarations call).2.Holds finality applied
        rcases h.applyBlock declarations hI call with
          ⟨error, hrun⟩ | ⟨planned, s', hrun, -, -, hholds, -, -⟩
        · rw [hrun]
          exact ⟨applied, h⟩
        · rw [hrun]
          exact ⟨_, hholds⟩
      | revertTo k =>
        rcases h.revertTo k with ⟨-, -, hafter⟩ | ⟨-, -, -, hsame⟩
        · exact ⟨_, hafter⟩
        · refine ⟨applied, ?_⟩
          show ((after declarations I finality calls).revertTo k).2.Holds finality applied
          rw [hsame]
          exact h

/-! ### From a block being applied to its revert -/

/-- The step of a call that leaves a block recorded leaves what is below the block. -/
theorem holds_step (hI : I.Exact) {low high : List (AppliedBlock EntityKey (Record X) H)}
    {b : AppliedBlock EntityKey (Record X) H} (h : s.Holds finality (low ++ b :: high)) (call : RetainedCall X H C)
    (hstays : b.block ∈ (performRetained declarations s call).blocks) :
    ∃ high', (performRetained declarations s call).Holds finality (low ++ b :: high') := by
  cases call with
  | prune maxVersions => exact ⟨high, h.prune maxVersions⟩
  | call call =>
    cases call with
    | writeCursor key value => exact ⟨high, h.writeCursor key value⟩
    | applyBlock call =>
      show ∃ high', (s.applyBlock declarations call).2.Holds finality (low ++ b :: high')
      rcases h.applyBlock declarations hI call with ⟨error, hrun⟩ | ⟨planned, s', hrun, -, -, hholds, -, -⟩
      · rw [hrun]
        exact ⟨high, h⟩
      · rw [hrun]
        refine ⟨high ++ [⟨call.block, planned⟩], ?_⟩
        rwa [List.append_assoc, List.cons_append] at hholds
    | revertTo k =>
      show ∃ high', (s.revertTo k).2.Holds finality (low ++ b :: high')
      rcases h.revertTo k with ⟨-, -, hafter⟩ | ⟨-, -, -, hsame⟩
      · -- the block is at or below the revert, and so is what is below it
        have hle : (b.block.number : ℤ) ≤ k := by
          obtain ⟨b', hb', heq⟩ := hafter.represents.mem_blocks.1 hstays
          rw [← heq]
          exact of_decide_eq_true (List.mem_filter.1 hb').2
        have hlow : low.filter (fun b => (b.block.number : ℤ) ≤ k) = low := by
          rw [List.filter_eq_self]
          intro a ha
          have hlt := (List.pairwise_append.1 h.represents.ascending).2.2 a ha b List.mem_cons_self
          rw [decide_eq_true_eq]
          omega
        have hkeep : (b :: high).filter (fun b => (b.block.number : ℤ) ≤ k) =
            b :: high.filter fun b => (b.block.number : ℤ) ≤ k := List.filter_cons_of_pos (by rwa [decide_eq_true_eq])
        rw [List.filter_append, hlow, hkeep] at hafter
        exact ⟨_, hafter⟩
      · rw [hsame]
        exact ⟨high, h⟩

/-- A block that was taken and stayed recorded stands on what it was applied over. -/
theorem holds_since (hI : I.Exact) {pre post : List (RetainedCall X H C)} {call : AppliedCall X H C}
    {low : List (AppliedBlock EntityKey (Record X) H)} (hlow : (after declarations I finality pre).Holds finality low)
    (htaken : ((after declarations I finality pre).applyBlock declarations call).1 = .ok ())
    (hstays : ∀ part, part <+: post →
      call.block ∈ (after declarations I finality (pre ++ .call (.applyBlock call) :: part)).blocks) :
    ∃ planned high, (after declarations I finality (pre ++ .call (.applyBlock call) :: post)).Holds finality
      (low ++ ⟨call.block, planned⟩ :: high) := by
  induction post using List.reverseRecOn with
  | nil =>
    rw [after_concat]
    show ∃ planned high, ((after declarations I finality pre).applyBlock declarations call).2.Holds finality
      (low ++ ⟨call.block, planned⟩ :: high)
    rcases hlow.applyBlock declarations hI call with ⟨error, hrun⟩ | ⟨planned, s', hrun, -, -, hholds, -, -⟩
    · rw [hrun] at htaken
      cases htaken
    · rw [hrun]
      exact ⟨planned, [], hholds⟩
  | append_singleton post last ih =>
    obtain ⟨planned, high, h⟩ := ih fun part hpart => hstays part (hpart.trans (List.prefix_append _ _))
    have hall := hstays _ (List.prefix_refl _)
    rw [← List.cons_append, ← List.append_assoc, after_concat] at hall ⊢
    obtain ⟨high', h'⟩ := holds_step hI h last hall
    exact ⟨planned, high', h'⟩

/-- **Every recorded block was taken once and stayed recorded since.** -/
theorem exists_since (hI : I.Exact) (calls : List (RetainedCall X H C)) {b : BlockPointer H}
    (hb : b ∈ (after declarations I finality calls).blocks) :
    ∃ pre call post, calls = pre ++ .call (.applyBlock call) :: post ∧ call.block = b ∧
      ((after declarations I finality pre).applyBlock declarations call).1 = .ok () ∧
      ∀ part, part <+: post →
        call.block ∈ (after declarations I finality (pre ++ .call (.applyBlock call) :: part)).blocks := by
  induction calls using List.reverseRecOn with
  | nil => exact absurd hb List.not_mem_nil
  | append_singleton calls last ih =>
    by_cases hold : b ∈ (after declarations I finality calls).blocks
    · obtain ⟨pre, call, post, hsplit, hblock, htaken, hstays⟩ := ih hold
      refine ⟨pre, call, post ++ [last], by rw [hsplit]; simp, hblock, htaken, fun part hpart => ?_⟩
      rcases List.prefix_concat_iff.1 hpart with rfl | hpart
      · rw [← List.cons_append, ← List.append_assoc, ← hsplit, hblock]
        exact hb
      · exact hstays part hpart
    · -- only a block that is taken is new
      obtain ⟨applied, h⟩ := holds_after hI declarations finality calls
      rw [after_concat] at hb
      cases last with
      | prune maxVersions =>
        refine absurd ?_ hold
        have hsame : ((after declarations I finality calls).prune maxVersions).1.blocks =
          (after declarations I finality calls).blocks := by rw [prune_eq]
        rw [← hsame]
        exact hb
      | call call =>
        cases call with
        | writeCursor key value => exact absurd hb hold
        | applyBlock call =>
          have hmem : b ∈ ((after declarations I finality calls).applyBlock declarations call).2.blocks := hb
          rcases h.applyBlock declarations hI call with ⟨error, hrun⟩ | ⟨planned, s', hrun, hblocks, -, -, -, -⟩
          · rw [hrun] at hmem
            exact absurd hmem hold
          · rw [hrun, hblocks, List.mem_append] at hmem
            have hblock : b = call.block := List.mem_singleton.1 (hmem.resolve_left hold)
            refine ⟨calls, call, [], rfl, hblock.symm, by rw [hrun], fun part hpart => ?_⟩
            rw [List.prefix_nil.1 hpart, after_concat, ← hblock]
            exact hb
        | revertTo k =>
          refine absurd ?_ hold
          have hmem : b ∈ ((after declarations I finality calls).revertTo k).2.blocks := hb
          rcases h.revertTo k with ⟨-, -, hafter⟩ | ⟨-, -, -, hsame⟩
          · obtain ⟨a, ha, rfl⟩ := hafter.represents.mem_blocks.1 hmem
            exact h.represents.mem_blocks.2 ⟨a, (List.mem_filter.1 ha).1, rfl⟩
          · rwa [hsame] at hmem

/-- **Every block in the window is undone exactly** when its patches are held. -/
theorem undoable_iff_window (hI : I.Exact) (declarations : List NormalizedEntity) (finality : ℕ)
    (calls : List (RetainedCall X H C)) :
    Undoable declarations I finality calls ↔ (after declarations I finality calls).WindowReversible finality := by
  obtain ⟨applied, h⟩ := holds_after hI declarations finality calls
  constructor
  · intro hundo b hb hpos hall
    obtain ⟨pre, call, post, hsplit, rfl, htaken, hstays⟩ := exists_since hI calls hb
    have hwindow : (after declarations I finality calls).InWindow finality call.block.number := by
      obtain ⟨a, ha, hab⟩ := h.represents.mem_blocks.1 hb
      obtain ⟨tip, htip, -⟩ := h.represents.le_tip ha
      have hmax := htip
      rw [h.represents.tip, List.max?_eq_some_iff] at hmax
      obtain ⟨top, htop, htn⟩ := List.mem_map.1 hmax.1
      have hle := hall top.block (h.represents.mem_blocks.2 ⟨top, htop, rfl⟩)
      refine ⟨tip, htip, ?_⟩
      omega
    obtain ⟨s, hrevert, -⟩ := hundo pre call post hsplit htaken hstays hwindow
    rcases h.revertTo (call.block.number - 1) with ⟨hallowed, -, -⟩ | ⟨-, -, ⟨error, herr⟩, -⟩
    · exact (hallowed.resolve_left (by omega)) call.block hb (by omega)
    · rw [hrevert] at herr
      cases herr
  · intro hwindow pre call post hsplit htaken hstays hin
    obtain ⟨low, hlow⟩ := holds_after hI declarations finality pre
    obtain ⟨planned, high, hholds⟩ := holds_since hI hlow htaken hstays
    rw [← hsplit] at hholds
    obtain ⟨-, hbelow, hcross⟩ := List.pairwise_append.1 hholds.represents.ascending
    obtain ⟨habove, -⟩ := List.pairwise_cons.1 hbelow
    have hallowed : (call.block.number : ℤ) - 1 < 0 ∨ ∀ a ∈ (after declarations I finality calls).blocks,
        (call.block.number : ℤ) - 1 < (a.number : ℤ) → (after declarations I finality calls).Reversible a.number := by
      by_cases hpos : 0 < call.block.number
      · refine .inr fun a ha hge => hwindow a ha (by omega) fun b hb => ?_
        obtain ⟨tip, htip, hnear⟩ := hin
        obtain ⟨b', hb', rfl⟩ := hholds.represents.mem_blocks.1 hb
        obtain ⟨tip', htip', hle⟩ := hholds.represents.le_tip hb'
        rw [htip] at htip'
        injection htip' with heq
        omega
      · exact .inl (by omega)
    have hcut : (low ++ ⟨call.block, planned⟩ :: high).filter
        (fun b => (b.block.number : ℤ) ≤ (call.block.number : ℤ) - 1) = low := by
      have hlows : low.filter (fun b => (b.block.number : ℤ) ≤ (call.block.number : ℤ) - 1) = low := by
        rw [List.filter_eq_self]
        intro a ha
        have hlt : a.block.number < call.block.number := hcross a ha _ List.mem_cons_self
        rw [decide_eq_true_eq]
        omega
      have hhighs : high.filter (fun b => (b.block.number : ℤ) ≤ (call.block.number : ℤ) - 1) = [] := by
        rw [List.filter_eq_nil_iff]
        intro a ha
        have hlt : call.block.number < a.block.number := habove a ha
        rw [decide_eq_true_eq]
        omega
      rw [List.filter_append, hlows, List.filter_cons_of_neg (by simp), hhighs, List.append_nil]
    rcases hholds.revertTo (call.block.number - 1) with ⟨-, hok, hafter⟩ | ⟨hk, hnot, -, -⟩
    · rw [hcut] at hafter
      refine ⟨_, Prod.ext hok rfl, hafter.represents.state.trans hlow.represents.state.symm, ?_, ?_⟩
      · rw [hafter.represents.blocks, hlow.represents.blocks]
      · rw [hafter.represents.tip, hlow.represents.tip]
    · exact absurd (hallowed.resolve_left (not_lt.2 hk)) hnot

/-- **When every revert the engine may make is honoured.** For every interleaving of blocks,
reverts and prunes on a store constructed with the engine's finality depth: after every call,
each block in the window can be undone to exactly what was there before it, exactly when no
prune reaches the block at the finality depth and no revert brings a block without its patches
back into the window. -/
theorem undoable_iff (hI : I.Exact) (declarations : List NormalizedEntity) (finality : ℕ)
    (calls : List (RetainedCall X H C)) :
    (∀ pre, pre <+: calls → Undoable declarations I finality pre) ↔
      ∀ pre call, pre ++ [call] <+: calls → (after declarations I finality pre).StepKeeps finality call := by
  simp only [undoable_iff_window hI]
  constructor
  · intro hall pre call hpre
    obtain ⟨applied, h⟩ := holds_after hI declarations finality pre
    have hbefore := hall pre ((List.prefix_append _ _).trans hpre)
    have hafter := hall _ hpre
    rw [after_concat] at hafter
    exact (windowReversible_step hI h hbefore call).1 hafter
  · intro hkeeps pre hpre
    induction pre using List.reverseRecOn with
    | nil => exact fun b hb => absurd hb List.not_mem_nil
    | append_singleton pre call ih =>
      obtain ⟨applied, h⟩ := holds_after hI declarations finality pre
      rw [after_concat]
      exact (windowReversible_step hI h (ih ((List.prefix_append _ _).trans hpre)) call).2 (hkeeps pre call hpre)

end PatchStateStore

/-- Blocks 1 to 4 each write the coin. -/
def coinBlock (number : ℕ) : RetainedCall Unit ℕ Unit :=
  .call (.applyBlock ⟨⟨number, number⟩, [.upsert "coin" [("id", [65])] [("value", .number number)]], none⟩)

/-- No block stands exactly two below the tip when the prune runs. -/
theorem undoable_sparse : PatchStateStore.Undoable [coin] (keepPrevious Unit) 2 [coinBlock 1, coinBlock 4, .prune none] := by
  have hI := keepPrevious_exact Unit
  refine (PatchStateStore.undoable_iff hI [coin] 2 [coinBlock 1, coinBlock 4, .prune none]).2 ?_ _ (List.prefix_refl _)
  intro pre call hpre
  have hlen := hpre.length_le
  obtain ⟨rest, hrest⟩ := hpre
  rw [List.append_assoc] at hrest
  match pre, hrest with
  | [], hrest =>
    injection hrest with hcall
    subst hcall
    trivial
  | [_], hrest =>
    injection hrest with _ hrest
    injection hrest with hcall
    subst hcall
    trivial
  | [_, _], hrest =>
    injection hrest with h1 hrest
    injection hrest with h2 hrest
    injection hrest with hcall
    subst h1 h2 hcall
    intro b hb _ htip
    rcases List.mem_cons.1 hb with rfl | hb
    · cases htip
    · rw [List.mem_singleton.1 hb] at htip
      cases htip
  | _ :: _ :: _ :: _, hrest =>
    rw [List.length_append] at hlen
    simp at hlen
    omega

/-- At a finality depth of 2 a prune at tip 3 drops the patches of block 1, which is still in
the window, and the revert below it is refused. -/
theorem undoable_adjacent :
    (PatchStateStore.after [coin] (keepPrevious Unit) 2 [coinBlock 1, coinBlock 2, coinBlock 3, .prune none]).InWindow
      2 1 ∧
    ((PatchStateStore.after [coin] (keepPrevious Unit) 2
      [coinBlock 1, coinBlock 2, coinBlock 3, .prune none]).revertTo 0).1 = .error ⟨0, [1], some 1, some 2⟩ ∧
    ¬PatchStateStore.Undoable [coin] (keepPrevious Unit) 2 [coinBlock 1, coinBlock 2, coinBlock 3, .prune none] := by
  have hwindow : (PatchStateStore.after [coin] (keepPrevious Unit) 2
      [coinBlock 1, coinBlock 2, coinBlock 3, .prune none]).InWindow 2 1 := ⟨3, rfl, by decide⟩
  have hrefused : ((PatchStateStore.after [coin] (keepPrevious Unit) 2
      [coinBlock 1, coinBlock 2, coinBlock 3, .prune none]).revertTo 0).1 = .error ⟨0, [1], some 1, some 2⟩ := by rfl
  refine ⟨hwindow, hrefused, fun hundo => ?_⟩
  obtain ⟨s, hs, -⟩ := hundo [] ⟨⟨1, 1⟩, [.upsert "coin" [("id", [65])] [("value", .number 1)]], none⟩
    [coinBlock 2, coinBlock 3, .prune none] rfl rfl (fun part hpart => by
      have hmem : part ∈ [coinBlock 2, coinBlock 3, .prune none].inits := (List.mem_inits _ _).2 hpart
      simp only [List.inits, List.map_cons, List.map_nil, List.mem_cons, List.not_mem_nil, or_false] at hmem
      rcases hmem with rfl | rfl | rfl | rfl <;> decide) hwindow
  have hzero : ((1 : ℕ) : ℤ) - 1 = 0 := by norm_num
  dsimp only at hs
  rw [hzero] at hs
  rw [hs] at hrefused
  cases hrefused

end Etherfold
