import Etherfold.Store.Snapshots

/-!
# What a writer asks of a store

The calls of one writer, whatever the store is kept in, and what the reference store makes of
them. A call is taken or refused, and a refused one changes nothing.

* `pruneBudget`: a budget is a whole number of versions, at least one.
* `EntityStore.performCall`, `EntityStore.runCalls`: the reference store.
* `EntityStore.Takes`: **the blocks it takes**.
-/

namespace Etherfold

variable {X H C : Type}

/-- **The budget of a prune**, refused where it is below one version. -/
def pruneBudget : Option ℤ → Except ℤ (Option ℕ)
  | none => .ok none
  | some maxVersions => if maxVersions < 1 then .error maxVersions else .ok (some maxVersions.toNat)

/-- A block with its mutations. -/
structure BlockUpdate (X H : Type) where
  block : BlockPointer H
  mutations : List (EntityMutation X)
  deriving DecidableEq, Repr

def BlockUpdate.call (C : Type) (update : BlockUpdate X H) : AppliedCall X H C :=
  ⟨update.block, update.mutations, none⟩

/-- The calls of one writer. -/
inductive WriterCall (X H C : Type) where
  | applyBlock (call : AppliedCall X H C)
  | applyBlocks (updates : List (BlockUpdate X H))
  | revertTo (keepUpTo : ℤ)
  | prune (maxVersions : Option ℤ)
  | writeCursor (key : String) (value : C)

/-- Why a call is refused, if it is. -/
def refusal {ε α : Type} : Except ε α → Option ε
  | .error e => some e
  | .ok _ => none

namespace EntityStore

variable [DecidableEq H]

/-- One call of the reference store, which takes a sequence of blocks one at a time and keeps
all of them or none: whether it is taken, and the store after it. -/
def performCall (declarations : List NormalizedEntity) (s : EntityStore X H C) :
    WriterCall X H C → Bool × EntityStore X H C
  | .applyBlock call => ((applyBlock declarations call).run.run s).map Except.isOk id
  | .applyBlocks updates =>
    match rebuild declarations s (updates.map (·.call C)) with
    | .ok s' => (true, s')
    | .error _ => (false, s)
  | .revertTo keepUpTo => (true, s.revertTo keepUpTo)
  | .prune maxVersions =>
    match pruneBudget maxVersions with
    | .error _ => (false, s)
    | .ok budget => (true, (s.prune budget).1)
  | .writeCursor key value => (true, s.writeCursor key value)

def runCalls (declarations : List NormalizedEntity) (s : EntityStore X H C) (calls : List (WriterCall X H C)) :
    EntityStore X H C :=
  calls.foldl (fun s call => (performCall declarations s call).2) s

/-! ### Blocks the reference store takes -/

variable {declarations : List NormalizedEntity} {s : EntityStore X H C}

/-- The mutations resolve, and the block is above everything recorded and new. -/
def Takes (declarations : List NormalizedEntity) (s : EntityStore X H C) (call : AppliedCall X H C) : Prop :=
  (∃ planned, call.mutations.mapM (plan declarations) = .ok planned) ∧
    ∀ b ∈ s.blocks, b.number < call.block.number ∧ b.hash ≠ call.block.hash

theorem applyBlock_of_takes (hs : s.WellFormed) {call : AppliedCall X H C} (h : Takes declarations s call) :
    ∃ planned s', call.mutations.mapM (plan declarations) = .ok planned ∧
      MemoryStateStore.applyBlock s call.block planned call.cursor = .ok s' ∧
      (applyBlock declarations call).run.run s = (.ok (), s') := by
  obtain ⟨⟨planned, hplan⟩, habove⟩ := h
  obtain ⟨s', hs'⟩ := MemoryStateStore.applyBlock_accepted hs habove planned call.cursor
  exact ⟨planned, s', hplan, hs', applyBlock_of_accepted hplan hs'⟩

theorem takes_of_applyBlock (hs : s.WellFormed) {call : AppliedCall X H C} {s' : EntityStore X H C}
    (h : (applyBlock declarations call).run.run s = (.ok (), s')) : Takes declarations s call := by
  rcases applyBlock_cases declarations call s with ⟨e, hrun⟩ | ⟨planned, s'', hplan, happly, -⟩
  · rw [h] at hrun
    cases hrun
  · exact ⟨⟨planned, hplan⟩, (MemoryStateStore.applyBlock_ok hs happly).1⟩

theorem applyBlock_of_not_takes (hs : s.WellFormed) {call : AppliedCall X H C} (h : ¬Takes declarations s call) :
    ∃ e, (applyBlock declarations call).run.run s = (.error e, s) := by
  rcases applyBlock_cases declarations call s with hrun | ⟨planned, s', -, -, hrun⟩
  · exact hrun
  · exact absurd (takes_of_applyBlock hs hrun) h

end EntityStore

end Etherfold
