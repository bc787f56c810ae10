import Etherfold.Snapshot.Install

/-!
# A store that may have started from a snapshot

The handle narrows what the store claims to the way from the recorded origin to
the tip it knows of. It learns of a tip from the blocks it applies and from the
heights it reverts to.

* `SnapshotAwareStateStore`: the handle, whose tip is never below its origin.
* `readsAbove`: **no read below the origin is answered**.
* `rangeAbove_iff`: when the claimed range stays above the origin.
* `snapshotInstall_iff`: **a crash-safe install that never over-claims, and exactly when**.
-/

namespace Etherfold

variable {J X H C : Type}

/-- The handle. What it takes for the tip is at or above the origin. -/
structure SnapshotAwareStateStore (X H C : Type) where
  inner : SeamStore X H C
  origin : Option ℕ
  knownTip : Option ℕ
  origin_le : ∀ o, origin = some o → ∃ known, knownTip = some known ∧ o ≤ known

/-- **Open a store**, recovering its origin; one that is not readable is refused. -/
def openSnapshotAware (s : SeamStore X H C) : Option (SnapshotAwareStateStore X H C) :=
  match s.snapshotOrigin with
  | none => some ⟨s, none, none, fun _ h => by cases h⟩
  | some none => none
  | some (some block) => some ⟨s, some block, some block, fun _ h => ⟨block, rfl, (Option.some.inj h).ge⟩⟩

/-- A reorg that reaches below the origin. -/
structure RevertBeyondSnapshotError where
  keepUpTo : ℤ
  snapshotOrigin : ℕ

namespace SnapshotAwareStateStore

/-- What the store claims, narrowed by the history it never received. -/
def retention (h : SnapshotAwareStateStore X H C) : Retention :=
  match h.origin with
  | none => h.inner.store.provided
  | some origin =>
    let fromSnapshot := h.knownTip.getD origin - origin
    match h.inner.store.provided with
    | .revertOnly => .revertOnly
    | .window blocks => .window (min blocks fromSnapshot)
    | .unbounded => .window fromSnapshot

/-- Refuse a height below the floor. -/
def assertReadable (h : SnapshotAwareStateStore X H C) (height : ℤ) : Except ReadError Unit :=
  match h.origin with
  | none => .ok ()
  | some _ => assertRetained h.retention height h.knownTip

def getAsOf (declarations : List NormalizedEntity) (h : SnapshotAwareStateStore X H C) (entity : String) (id : EntityId)
    (height : ℤ) : Except ReadError (Option (Record X)) := do
  h.assertReadable height
  EntityStore.getAsOf declarations h.inner.store entity id height

def listAsOf (declarations : List NormalizedEntity) (h : SnapshotAwareStateStore X H C) (entity : String)
    (idPrefix : EntityId) (height limit : ℤ) : Except ReadError (Listing X) := do
  h.assertReadable height
  EntityStore.listAsOf declarations h.inner.store entity idPrefix height limit

/-- A read of the store's accessor; one that names a block is checked first. -/
def floored {R : Type} (h : SnapshotAwareStateStore X H C) (height : Option ℤ) (read : EntityStore X H C → Except ReadError R) :
    Except ReadError R :=
  match height with
  | none => read h.inner.store
  | some height => do
    h.assertReadable height
    read h.inner.store

variable [DecidableEq H] {declarations : List NormalizedEntity}

/-- The highest block the handle knows of once a block is applied. -/
def tipWith (knownTip : Option ℕ) (number : ℕ) : ℕ := knownTip.elim number (max number)

def applyBlock (declarations : List NormalizedEntity) (h : SnapshotAwareStateStore X H C) (call : AppliedCall X H C) :
    Except (ApplyError H) (SnapshotAwareStateStore X H C) :=
  match (EntityStore.applyBlock declarations call).run.run h.inner.store with
  | (.error e, _) => .error e
  | (.ok _, store) => .ok ⟨{ h.inner with store := store }, h.origin, some (tipWith h.knownTip call.block.number),
      fun o ho => by
        obtain ⟨known, hknown, hle⟩ := h.origin_le o ho
        exact ⟨_, rfl, by rw [hknown]; exact hle.trans (le_max_right _ _)⟩⟩

omit [DecidableEq H] in
/-- **Roll back**, unless that would reach under the snapshot. A wipe takes the origin with it. -/
def revertTo (h : SnapshotAwareStateStore X H C) (keepUpTo : ℤ) :
    Except RevertBeyondSnapshotError (SnapshotAwareStateStore X H C) :=
  if keepUpTo < 0 then .ok ⟨⟨h.inner.store.revertTo keepUpTo, none⟩, none, none, fun _ ho => by cases ho⟩
  else if hbeyond : ∃ o ∈ h.origin, keepUpTo < (o : ℤ) then
    .error ⟨keepUpTo, h.origin.getD 0⟩
  else .ok ⟨{ h.inner with store := h.inner.store.revertTo keepUpTo }, h.origin,
    h.knownTip.map fun known => min keepUpTo.toNat known,
    fun o ho => by
      obtain ⟨known, hknown, hle⟩ := h.origin_le o ho
      have hkeep : ¬keepUpTo < (o : ℤ) := fun hlt => hbeyond ⟨o, ho, hlt⟩
      exact ⟨_, by rw [hknown]; rfl, le_min (by omega) hle⟩⟩

/-- A write on the handle. -/
inductive Call (X H C : Type) where
  | applyBlock (call : AppliedCall X H C)
  | revertTo (keepUpTo : ℤ)

/-- One write; a refused one changes nothing. -/
def perform (declarations : List NormalizedEntity) (h : SnapshotAwareStateStore X H C) :
    Call X H C → SnapshotAwareStateStore X H C
  | .applyBlock call => match h.applyBlock declarations call with
    | .ok h' => h'
    | .error _ => h
  | .revertTo keepUpTo => match h.revertTo keepUpTo with
    | .ok h' => h'
    | .error _ => h

def run (declarations : List NormalizedEntity) (h : SnapshotAwareStateStore X H C) (calls : List (Call X H C)) :
    SnapshotAwareStateStore X H C :=
  calls.foldl (perform declarations) h

/-! ### What the handle answers -/

/-- No read below the origin is answered. -/
def ReadsAbove (declarations : List NormalizedEntity) (h : SnapshotAwareStateStore X H C) : Prop :=
  ∀ origin, h.origin = some origin → ∀ height : ℤ, height < origin →
    (∀ entity id, (h.getAsOf declarations entity id height).toOption = none) ∧
    (∀ entity idPrefix limit, (h.listAsOf declarations entity idPrefix height limit).toOption = none) ∧
    ∀ (R : Type) (read : EntityStore X H C → Except ReadError R), (h.floored (some height) read).toOption = none

/-- The claimed range stays at or above the origin. -/
def RangeAbove (h : SnapshotAwareStateStore X H C) : Prop :=
  ∀ origin tip range, h.origin = some origin → h.inner.store.tip = some tip →
    retainedRange h.retention tip = some range → origin ≤ range.fromBlock

omit [DecidableEq H] in
/-- **A height below the origin is refused.** -/
theorem assertReadable_below {h : SnapshotAwareStateStore X H C} {origin : ℕ} (horigin : h.origin = some origin)
    {height : ℤ} (hheight : height < origin) : ∃ e, h.assertReadable height = .error e := by
  obtain ⟨known, hknown, hle⟩ := h.origin_le origin horigin
  unfold assertReadable retention
  rw [horigin]
  dsimp only
  unfold assertRetained
  rw [hknown, Option.getD_some]
  by_cases hneg : height < 0
  · exact ⟨_, if_pos hneg⟩
  · rw [if_neg hneg]
    cases h.inner.store.provided with
    | revertOnly => exact ⟨_, rfl⟩
    | window blocks =>
      refine ⟨_, if_pos ?_⟩
      have hfrom : origin ≤ known - min blocks (known - origin) := by omega
      exact lt_of_lt_of_le hheight (by exact_mod_cast hfrom)
    | unbounded =>
      refine ⟨_, if_pos ?_⟩
      have hfrom : origin ≤ known - (known - origin) := by omega
      exact lt_of_lt_of_le hheight (by exact_mod_cast hfrom)

omit [DecidableEq H] in
/-- **No read below the origin is answered**, by any handle. -/
theorem readsAbove (declarations : List NormalizedEntity) (h : SnapshotAwareStateStore X H C) :
    ReadsAbove declarations h := by
  intro origin horigin height hheight
  obtain ⟨e, he⟩ := assertReadable_below horigin hheight
  refine ⟨fun entity id => ?_, fun entity idPrefix limit => ?_, fun R read => ?_⟩
  · unfold getAsOf
    rw [he]
    rfl
  · unfold listAsOf
    rw [he]
    rfl
  · unfold floored
    dsimp only
    rw [he]
    rfl

/-- The store's tip is not below the tip the handle goes by, or the store's own window stops
short of the origin, so the range claimed from there does too. -/
def Fits (provided : Retention) (origin known tip : ℕ) : Prop :=
  provided = .revertOnly ∨ origin = 0 ∨ known ≤ tip ∨ ∃ blocks, provided = .window blocks ∧ origin + blocks ≤ tip

omit [DecidableEq H] in
/-- **When the claimed range stays above the origin.** -/
theorem rangeAbove_iff {h : SnapshotAwareStateStore X H C} : h.RangeAbove ↔
    ∀ origin known tip, h.origin = some origin → h.knownTip = some known → h.inner.store.tip = some tip →
      Fits h.inner.store.provided origin known tip := by
  unfold RangeAbove
  constructor
  · intro hrange origin known tip horigin hknown htip
    obtain ⟨known', hknown', hle⟩ := h.origin_le origin horigin
    have hret := hrange origin tip
    unfold retention Fits at *
    rw [horigin, hknown] at hret
    cases hprov : h.inner.store.provided with
    | revertOnly => exact .inl rfl
    | window blocks =>
      rw [hprov] at hret
      have := hret _ rfl htip rfl
      simp only [Option.getD_some] at this
      by_cases hwindow : origin + blocks ≤ tip
      · exact .inr (.inr (.inr ⟨blocks, rfl, hwindow⟩))
      · omega
    | unbounded =>
      rw [hprov] at hret
      have := hret _ rfl htip rfl
      simp only [Option.getD_some] at this
      omega
  · intro hfits origin tip range horigin htip hrange
    obtain ⟨known, hknown, hle⟩ := h.origin_le origin horigin
    have hfit := hfits origin known tip horigin hknown htip
    unfold retention at hrange
    rw [horigin, hknown] at hrange
    unfold Fits at hfit
    cases hprov : h.inner.store.provided with
    | revertOnly =>
      rw [hprov] at hrange
      cases hrange
    | window blocks =>
      rw [hprov] at hrange hfit
      injection hrange with hrange
      rw [← hrange]
      simp only [Option.getD_some]
      rcases hfit with h0 | h0 | h0 | ⟨blocks', hblocks, h0⟩
      · cases h0
      · omega
      · omega
      · injection hblocks with hblocks
        omega
    | unbounded =>
      rw [hprov] at hrange hfit
      injection hrange with hrange
      rw [← hrange]
      simp only [Option.getD_some]
      rcases hfit with h0 | h0 | h0 | ⟨blocks', hblocks, h0⟩
      · cases h0
      · omega
      · omega
      · cases hblocks

/-! ### Runs of the handle -/

/-- The highest block a revert leaves. -/
def tipAfter (s : EntityStore X H C) (keepUpTo : ℤ) : Option ℕ :=
  ((s.blocks.filter fun b => (b.number : ℤ) ≤ keepUpTo).map (·.number)).max?

/-- **A write that keeps the range above the origin**: no block is taken below the tip the handle
goes by, and no revert goes above the block it leaves, unless the store's own window stops short
of the origin. -/
def StepFits (declarations : List NormalizedEntity) (h : SnapshotAwareStateStore X H C) : Call X H C → Prop
  | .applyBlock call => (∃ planned, EntityStore.resolveBlock declarations h.inner.store call = .ok planned) →
      ∀ origin known, h.origin = some origin → h.knownTip = some known →
        Fits h.inner.store.provided origin known call.block.number
  | .revertTo keepUpTo => 0 ≤ keepUpTo → ∀ origin known tip, h.origin = some origin → h.knownTip = some known →
      (origin : ℤ) ≤ keepUpTo → tipAfter h.inner.store keepUpTo = some tip →
        Fits h.inner.store.provided origin (min keepUpTo.toNat known) tip

theorem tip_applied {declarations : List NormalizedEntity} {s s' : EntityStore X H C} {call : AppliedCall X H C}
    (h : (EntityStore.applyBlock declarations call).run.run s = (.ok (), s')) :
    s'.tip = some call.block.number ∧ s'.provided = s.provided := by
  rcases EntityStore.applyBlock_cases declarations call s with ⟨e, hrun⟩ | ⟨planned, s'', -, happly, hrun⟩
  · rw [h] at hrun
    cases hrun
  · rw [h] at hrun
    injection hrun with _ hs
    rw [hs]
    exact ⟨(MemoryStateStore.afterBlock happly).tip, (MemoryStateStore.afterBlock happly).provided⟩

/-- **One write** keeps the range above the origin exactly when it fits. -/
theorem rangeAbove_perform {h : SnapshotAwareStateStore X H C} (hrange : h.RangeAbove) (call : Call X H C) :
    (h.perform declarations call).RangeAbove ↔ h.StepFits declarations call := by
  cases call with
  | applyBlock call =>
    unfold perform applyBlock StepFits
    dsimp only
    have hrun := EntityStore.applyBlock_run declarations call h.inner.store
    cases hresolve : EntityStore.resolveBlock declarations h.inner.store call with
    | error e =>
      rw [hresolve] at hrun
      rw [hrun]
      exact ⟨fun _ ⟨planned, hplanned⟩ => (by cases hplanned), fun _ => hrange⟩
    | ok planned =>
      rw [hresolve] at hrun
      dsimp only at hrun
      generalize ((EntityStore.writeBlock call.block planned call.cursor).run h.inner.store).2 = s' at hrun
      obtain ⟨htip, hprov⟩ := tip_applied hrun
      rw [hrun]
      dsimp only
      rw [rangeAbove_iff]
      constructor
      · intro hall _ origin known horigin hknown
        have hfit : Fits s'.provided origin (tipWith h.knownTip call.block.number) call.block.number :=
          hall origin _ _ horigin rfl htip
        rw [hknown, hprov] at hfit
        rcases hfit with h0 | h0 | h0 | h0
        · exact .inl h0
        · exact .inr (.inl h0)
        · exact .inr (.inr (.inl ((le_max_right _ _).trans h0)))
        · exact .inr (.inr (.inr h0))
      · intro hall origin known' tip horigin hknown' htip'
        obtain ⟨known, hknown, -⟩ := h.origin_le origin horigin
        have hfit := hall ⟨planned, rfl⟩ origin known horigin hknown
        dsimp only at htip' hknown' ⊢
        rw [htip] at htip'
        injection htip' with htip'
        rw [hknown] at hknown'
        injection hknown' with hknown'
        rw [hprov, ← htip', ← hknown']
        rcases hfit with h0 | h0 | h0 | h0
        · exact .inl h0
        · exact .inr (.inl h0)
        · exact .inr (.inr (.inl (max_le le_rfl h0)))
        · exact .inr (.inr (.inr h0))
  | revertTo keepUpTo =>
    unfold perform revertTo StepFits
    dsimp only
    by_cases hneg : keepUpTo < 0
    · rw [if_pos hneg]
      refine ⟨fun _ h0 => by omega, fun _ origin tip range horigin => ?_⟩
      cases horigin
    · rw [if_neg hneg]
      by_cases hbeyond : ∃ o ∈ h.origin, keepUpTo < (o : ℤ)
      · rw [dif_pos hbeyond]
        refine ⟨fun _ _ origin known tip horigin _ hle => ?_, fun _ => hrange⟩
        obtain ⟨o, ho, hlt⟩ := hbeyond
        rw [horigin] at ho
        injection ho with ho
        omega
      · rw [dif_neg hbeyond]
        dsimp only
        rw [rangeAbove_iff]
        constructor
        · intro hall _ origin known tip horigin hknown hle htip
          have hreverted : (h.knownTip.map fun known => min keepUpTo.toNat known) = some (min keepUpTo.toNat known) := by
            rw [hknown]
            rfl
          exact hall origin _ tip horigin hreverted htip
        · intro hall origin known' tip horigin hknown' htip
          obtain ⟨known, hknown, -⟩ := h.origin_le origin horigin
          dsimp only at hknown'
          rw [hknown] at hknown'
          injection hknown' with hknown'
          rw [← hknown']
          refine hall (by omega) origin known tip horigin hknown ?_ htip
          by_contra hlt
          exact hbeyond ⟨origin, horigin, by omega⟩

theorem run_concat (declarations : List NormalizedEntity) (h : SnapshotAwareStateStore X H C) (calls : List (Call X H C))
    (call : Call X H C) : h.run declarations (calls ++ [call]) = (h.run declarations calls).perform declarations call := by
  unfold run
  rw [List.foldl_append]
  rfl

/-- **A run of the handle** keeps the range above the origin exactly when every write of it fits. -/
theorem rangeAbove_run {h : SnapshotAwareStateStore X H C} (calls : List (Call X H C)) :
    (∀ done rest, calls = done ++ rest → (h.run declarations done).RangeAbove) ↔
      h.RangeAbove ∧ ∀ done call rest, calls = done ++ call :: rest →
        (h.run declarations done).StepFits declarations call := by
  constructor
  · intro hall
    refine ⟨hall [] calls rfl, fun done call rest hsplit => ?_⟩
    rw [← rangeAbove_perform (hall done _ hsplit), ← run_concat]
    exact hall (done ++ [call]) rest (by rw [hsplit, List.append_assoc]; rfl)
  · rintro ⟨hstart, hsteps⟩ done
    induction done using List.reverseRecOn with
    | nil => exact fun _ _ => hstart
    | append_singleton done call ih =>
      intro rest hsplit
      rw [List.append_assoc] at hsplit
      rw [run_concat, rangeAbove_perform (ih _ hsplit)]
      exact hsteps done call rest hsplit

/-! ### From the install on -/

omit [DecidableEq H] in
theorem tip_wiped (prev : EntityStore X H C) (head : SnapshotHead C) : (wiped prev head).tip = none := by
  unfold wiped MemoryStateStore.revertTo
  dsimp only
  rw [List.max?_eq_none_iff, List.map_eq_nil_iff, List.filter_eq_nil_iff]
  intro b _
  simp only [decide_eq_true_eq]
  omega

/-- The tip after a replay is the number of a block it took. -/
theorem tip_replay (s : EntityStore X H C) (calls : List (AppliedCall X H C)) :
    (replay declarations s calls).tip = s.tip ∨
      ∃ call ∈ calls, (replay declarations s calls).tip = some call.block.number := by
  induction calls generalizing s with
  | nil => exact .inl rfl
  | cons call calls ih =>
    unfold replay
    rcases EntityStore.applyBlock_cases declarations call s with ⟨e, hrun⟩ | ⟨planned, s', -, -, hrun⟩
    · rw [hrun]
      exact .inl rfl
    · rw [hrun]
      dsimp only
      rcases ih s' with hsame | ⟨call', hcall', htip⟩
      · exact .inr ⟨call, List.mem_cons_self, hsame.trans (tip_applied hrun).1⟩
      · exact .inr ⟨call', List.mem_cons_of_mem _ hcall', htip⟩

/-- The origin a store recorded is not above its tip, unless nothing is read there. -/
def OpensAbove (s : SeamStore X H C) : Prop :=
  ∀ origin tip, s.snapshotOrigin = some (some origin) → s.store.tip = some tip → Fits s.store.provided origin origin tip

omit [DecidableEq H] in
/-- A handle just opened claims from its origin when the store opens above it. -/
theorem rangeAbove_open {s : SeamStore X H C} {h : SnapshotAwareStateStore X H C} (hopen : openSnapshotAware s = some h) :
    h.RangeAbove ↔ OpensAbove s := by
  rw [rangeAbove_iff]
  unfold openSnapshotAware at hopen
  unfold OpensAbove
  split at hopen
  · rename_i hnone
    injection hopen with hopen
    rw [← hopen]
    refine ⟨fun _ origin tip hsome => ?_, fun _ origin known tip horigin => by cases horigin⟩
    rw [hnone] at hsome
    cases hsome
  · cases hopen
  · rename_i block hsome
    injection hopen with hopen
    rw [← hopen]
    constructor
    · intro hall origin tip horigin htip
      rw [hsome] at horigin
      injection horigin with horigin
      injection horigin with horigin
      rw [← horigin]
      exact hall block block tip rfl rfl htip
    · intro hall origin known tip horigin hknown htip
      injection horigin with horigin
      injection hknown with hknown
      rw [← horigin, ← hknown]
      exact hall block tip hsome htip

/-- A store opens above its origin, wherever an install ended, unless it did not before. -/
theorem opensAbove_installed {codec : RowCodec J X} {prev : SeamStore X H C} {processor : Option String}
    {head : SnapshotHead C} {lines : List (SnapshotLine J H)} {n : ℕ} :
    OpensAbove (installed declarations prev processor head (decodedBlocks codec head declarations Decoding.start lines) n) ↔
      (bootstrapCalls processor head (decodedBlocks codec head declarations (Decoding.start : Decoding X H) lines) = [] ∨
        n ≤ wipeAt head → OpensAbove prev) := by
  set blocks := decodedBlocks codec head declarations (Decoding.start : Decoding X H) lines with hblocks
  rcases installed_cases declarations prev processor head blocks n with ⟨hbefore, horigin, hstore⟩ |
    ⟨hne, hwipe, hstore, horigin⟩
  · have hsame : (installed declarations prev processor head blocks n).store.tip = prev.store.tip ∧
        (installed declarations prev processor head blocks n).store.provided = prev.store.provided := by
      rcases hstore with hstore | ⟨cursor, -, hstore⟩ <;> rw [hstore] <;> exact ⟨rfl, rfl⟩
    unfold OpensAbove
    rw [horigin, hsame.1, hsame.2]
    exact ⟨fun hall _ => hall, fun hall => hall hbefore⟩
  · refine ⟨fun _ hbefore => ?_, fun _ origin tip horigin' htip => ?_⟩
    · rcases hbefore with hbefore | hbefore
      · exact absurd hbefore hne
      · omega
    · -- a tip after the wipe is a replayed block's, at or above the floor
      rw [hstore] at htip
      rcases tip_replay (wiped prev.store head) ((blocks.map (·.call head)).take (n - (wipeAt head + 3))) with
        hsame | ⟨call, hcall, hnumber⟩
      · rw [hsame, tip_wiped] at htip
        cases htip
      · have hpos : 0 < n - (wipeAt head + 3) := by
          by_contra hzero
          rw [Nat.eq_zero_of_not_pos hzero, List.take_zero] at hcall
          cases hcall
        rw [horigin (by omega)] at horigin'
        injection horigin' with horigin'
        injection horigin' with horigin'
        obtain ⟨b, hb, rfl⟩ := List.mem_map.1 (List.mem_of_mem_take hcall)
        have hfloor : head.floor ≤ b.block.number := decodedBlocks_floor lines b hb
        rw [hnumber] at htip
        injection htip with htip
        refine .inr (.inr (.inl ?_))
        rw [← horigin', ← htip]
        exact hfloor

/-- **A crash-safe install that never over-claims, and exactly when.** Whatever the store held,
however the document reads and wherever the install ended: the cursor left is the cursor of the
rows left, and in every state of every later run of the reopened handle no read below the origin
is answered and the claimed range stays above it. -/
theorem snapshotInstall_iff (codec : RowCodec J X) (declarations : List NormalizedEntity) (prev : SeamStore X H C)
    (processor : Option String) (head : SnapshotHead C) (lines : List (SnapshotLine J H)) (n : ℕ)
    (calls : List (Call X H C)) :
    (CursorHonest declarations prev.store head (decodedBlocks codec head declarations Decoding.start lines)
        (installed declarations prev processor head (decodedBlocks codec head declarations Decoding.start lines) n).store ∧
      ∀ h, openSnapshotAware (installed declarations prev processor head
          (decodedBlocks codec head declarations Decoding.start lines) n) = some h →
        ∀ done rest, calls = done ++ rest →
          (h.run declarations done).ReadsAbove declarations ∧ (h.run declarations done).RangeAbove) ↔
      CursorSafe declarations prev.store processor head (decodedBlocks codec head declarations Decoding.start lines) n ∧
        ∀ h, openSnapshotAware (installed declarations prev processor head
            (decodedBlocks codec head declarations Decoding.start lines) n) = some h →
          (bootstrapCalls processor head (decodedBlocks codec head declarations (Decoding.start : Decoding X H) lines) = [] ∨
            n ≤ wipeAt head → OpensAbove prev) ∧
          ∀ done call rest, calls = done ++ call :: rest → (h.run declarations done).StepFits declarations call := by
  have hyields : YieldsFrom head (Decoding.start : Decoding X H) (decodedBlocks codec head declarations
      (Decoding.start : Decoding X H) lines) := decodedBlocks_yields lines Decoding.start
  refine and_congr (cursorHonest_iff hyields.last) (forall_congr' fun h => forall_congr' fun hopen => ?_)
  rw [← opensAbove_installed, ← rangeAbove_open hopen, ← rangeAbove_run]
  exact ⟨fun hall done rest hsplit => (hall done rest hsplit).2,
    fun hall done rest hsplit => ⟨readsAbove declarations _, hall done rest hsplit⟩⟩

end SnapshotAwareStateStore

/-! ### Where it fails -/

/-- A row is its id and a value nobody reads. -/
def coinCodec : RowCodec Text Unit :=
  ⟨fun entity values => values.head?.map fun id => .upsert entity.name [("id", id)] [],
    fun entity values => .delete entity.name [("id", values.headD [])]⟩

/-- A store synced to block 1. -/
def syncedStore : SeamStore Unit ℕ Unit :=
  ⟨((EntityStore.applyBlock [coin] ⟨⟨1, 1⟩, [.upsert "coin" [("id", [65])] []], some ("lastSync", ())⟩).run.run
    emptyStore).2, none⟩

/-- A document of one block, with a cursor in its head or without. -/
def coinHead (cursor : Option (String × Unit)) : SnapshotHead Unit := ⟨"p", 100, 100, cursor⟩

def coinLines : List (SnapshotLine Text ℕ) :=
  [.declare coin, .block ⟨100, 100⟩, .entity "coin", .row [[66], []]]

def coinBlocks (cursor : Option (String × Unit)) : List (SnapshotBlock Unit ℕ) :=
  decodedBlocks coinCodec (coinHead cursor) [coin] Decoding.start coinLines

/-- Installed whole and opened again. -/
def coinHandle : SnapshotAwareStateStore Unit ℕ Unit :=
  ⟨installed [coin] syncedStore none (coinHead (some ("lastSync", ()))) (coinBlocks (some ("lastSync", ()))) 5, some 100,
    some 100, fun _ h => ⟨100, rfl, (Option.some.inj h).ge⟩⟩

/-- A document without a cursor leaves the old cursor over its rows; and after a revert to a
height without a block, the handle claims heights below the origin. -/
theorem install_overclaims :
    ¬CursorHonest [coin] syncedStore.store (coinHead none) (coinBlocks none)
        (installed [coin] syncedStore none (coinHead none) (coinBlocks none) 4).store ∧
      openSnapshotAware (installed [coin] syncedStore none (coinHead (some ("lastSync", ())))
        (coinBlocks (some ("lastSync", ()))) 5) = some coinHandle ∧
      ¬(coinHandle.run [coin] [.applyBlock ⟨⟨140, 140⟩, [], none⟩, .applyBlock ⟨⟨150, 150⟩, [], none⟩,
        .revertTo 145]).RangeAbove := by
  refine ⟨?_, rfl, fun hrange => ?_⟩
  · rintro (hnone | ⟨-, hrows⟩ | ⟨value, u, hvalue, -⟩)
    · cases hnone
    · revert hrows
      decide
    · cases hvalue
  · have hfrom := hrange 100 140 ⟨95, 140⟩ rfl rfl rfl
    simp at hfrom

end Etherfold
