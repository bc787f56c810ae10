import Etherfold.Store.History

/-!
# The current state of a sequence of blocks

What a key holds at the tip is what the last mutation of it left, whatever a store keeps of
the past.

* `valueOf`: the value of a key after some blocks.
* `MemoryStateStore.Represents.current`: **the reference store answers it**.
-/

namespace Etherfold

open Versions

section Replay

variable {K V H C : Type} [DecidableEq K]

/-- What a block's mutations leave of a key. -/
def lastWrite (key : K) (ms : List (Mutation K V)) (old : Option V) : Option V :=
  ms.foldl (fun old m => if m.key = key then m.values else old) old

/-- The value of a key after some blocks. -/
def valueOf (key : K) (applied : List (AppliedBlock K V H)) : Option V :=
  applied.foldl (fun old b => lastWrite key b.mutations old) none

theorem valueOf_concat (key : K) (applied : List (AppliedBlock K V H)) (b : AppliedBlock K V H) :
    valueOf key (applied ++ [b]) = lastWrite key b.mutations (valueOf key applied) := by
  unfold valueOf
  rw [List.foldl_append]
  rfl

/-- The live version after a block's mutations. -/
theorem current_writes {number : ℕ} {key : K} (ms : List (Mutation K V)) {vs : List (Version V)} (hc : Chained vs)
    (hw : Within (· ≤ number) vs) :
    (current (writes number key ms vs)).map (·.values) = lastWrite key ms ((current vs).map (·.values)) := by
  induction ms generalizing vs with
  | nil => rfl
  | cons m ms ih =>
    unfold writes lastWrite
    rw [List.foldl_cons, List.foldl_cons]
    split
    · have hcurrent : (current (write number m.values vs)).map (·.values) = m.values := by
        rw [current_write hc]
        cases m.values <;> rfl
      have hrest := ih (hc.write hw m.values) (hw.write le_rfl m.values)
      rw [hcurrent] at hrest
      exact hrest
    · exact ih hc hw

/-- The live version of what blocks wrote. -/
theorem current_history {key : K} {applied : List (AppliedBlock K V H)}
    (h : applied.Pairwise fun a b => a.block.number < b.block.number) :
    Chained (history key applied) ∧ (current (history key applied)).map (·.values) = valueOf key applied := by
  induction applied using List.reverseRecOn with
  | nil => exact ⟨⟨List.Pairwise.nil, fun _ h => by cases h⟩, rfl⟩
  | append_singleton applied b ih =>
    obtain ⟨hpre, -, hlast⟩ := List.pairwise_append.1 h
    obtain ⟨hc, hcur⟩ := ih hpre
    have hw : Within (· ≤ b.block.number) (history key applied) := by
      apply within_history
      intro a ha
      exact (hlast a ha b (List.mem_singleton_self b)).le
    rw [history_concat, valueOf_concat, ← hcur]
    refine ⟨(MemoryStateStore.chained_writes b.mutations ?_ ?_ hc hw).1, current_writes b.mutations hc hw⟩
    · exact le_rfl
    · exact fun _ hn => hn

/-- **The reference store answers the replay** of the blocks it is made of. -/
theorem MemoryStateStore.Represents.current {s : MemoryStateStore K V H C} {applied : List (AppliedBlock K V H)}
    (h : s.Represents applied) (key : K) :
    (Versions.current (versionsOf s.rows key)).map (·.values) = valueOf key applied := by
  rw [h.versions, (current_history h.ascending).2]

/-- As of a height it answers the replay of the blocks up to there. -/
theorem MemoryStateStore.Represents.asOf {s : MemoryStateStore K V H C} {applied : List (AppliedBlock K V H)}
    (h : s.Represents applied) (key : K) (k : ℤ) : (Versions.asOf k (versionsOf s.rows key)).map (·.values) =
      valueOf key (applied.filter fun b => (b.block.number : ℤ) ≤ k) := by
  have hcut := cutAt_history k key h.ascending
  rw [← (current_history (h.ascending.sublist List.filter_sublist)).2, ← hcut, current_cutAt, h.versions,
    Option.map_map]
  congr 1
  funext v
  exact (v.reopen_values k).symm

end Replay

end Etherfold
