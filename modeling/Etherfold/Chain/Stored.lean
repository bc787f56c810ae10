import Etherfold.Chain.Linked

/-!
# The stored stream

What a run has appended, delta by delta, at the level of blocks.

* `Appends`: what one cycle appends to the stream.
* `Stored`: a stored stream, as the deltas that were appended to it.
* `run_stored`: **a run stores such a stream**.
* `Stored.legal`, `Stored.named`, `Stored.heights`: what holds of all of it.
-/

namespace Etherfold

open Ledger

variable {H D : Type} {C : Chain H D} [DecidableEq H] {d f : ℕ}

/-- **What one cycle appends**, with the cursor `c` and the blocks `L` live before it. -/
structure Appends (C : Chain H D) (d f : ℕ) (c : LastSync H D) (L : Finset H) (r : Appended H D)
    (δ : Delta H) : Prop where
  stream : r.eventStream = δ.ops.flatMap C.emit
  resumes : r.newLastSync.lastFromBlock = getFromBlock c d f
  from_le : r.newLastSync.lastFromBlock ≤ r.newLastSync.lastToBlock
  le_latest : r.newLastSync.lastToBlock ≤ r.newLastSync.latestBlock
  latest_le : c.latestBlock ≤ r.newLastSync.latestBlock
  legal : Legal L δ.ops
  named : ∀ o ∈ δ.ops, C.Bearing o.key ∧ r.newLastSync.lastFromBlock ≤ C.numberOf o.key
  cut : ∀ y ∈ δ.retracted, ∀ x ∈ L, C.numberOf y ≤ C.numberOf x → x ∈ δ.retracted
  heights : ∀ x ∈ held L δ.ops, ∀ y ∈ held L δ.ops, C.numberOf x = C.numberOf y → x = y

/-- **A stored stream**, delta by delta. -/
inductive Stored (d f : ℕ) : List (Cycle C) → List (Delta H) → Prop
  | nil : Stored d f [] []
  | snoc {ks : List (Cycle C)} {δs : List (Delta H)} {k : Cycle C} {δ : Delta H}
      (stored : Stored d f ks δs)
      (appends : Appends C d f (cursorAfter (deltas ks)) (held ∅ (δs.flatMap Delta.ops)) k.appended δ) :
      Stored d f (ks ++ [k]) (δs ++ [δ])

/-- The entries of a delta are of blocks with logs, from where the fetch began. -/
theorem delta_named {v : View C} {a b : ℕ} {c : LastSync H D} {ws : List H} {L : Finset H}
    (tr : Tracked C d f c ws L) (hb : b ≤ v.tip) :
    ∀ o ∈ (v.delta a b ws).ops, C.Bearing o.key ∧ a ≤ C.numberOf o.key := by
  intro o ho
  unfold Delta.ops at ho
  rcases List.mem_append.1 ho with ho | ho
  · obtain ⟨y, hy, rfl⟩ := List.mem_map.1 ho
    obtain ⟨hyw, hge⟩ := mem_retracted_ge tr.ascending hy
    exact ⟨tr.bearing y (tr.live y hyw), hge⟩
  · obtain ⟨x, hx, rfl⟩ := List.mem_map.1 ho
    obtain ⟨⟨hon, hge, -⟩, -⟩ := (mem_added hb).1 hx
    exact ⟨hon.1, hge⟩

/-- The live blocks of a run have heights of their own. -/
theorem RunState.heights {ks : List (Cycle C)} {ops : List (Op H)} {ws : List H}
    (inv : RunState d f ks ops ws) {x y : H} (hx : x ∈ held ∅ ops) (hy : y ∈ held ∅ ops)
    (hn : C.numberOf x = C.numberOf y) : x = y := by
  rcases ks.eq_nil_or_concat with rfl | ⟨ks, k, rfl⟩
  · rw [inv.start rfl] at hx
    exact absurd hx (Finset.notMem_empty x)
  · rw [List.concat_eq_append] at *
    have hlast : k ∈ (ks ++ [k]).getLast? := by simp
    obtain ⟨-, hto, -, -⟩ := inv.cursor k hlast
    by_cases hle : C.numberOf x < k.toBlock + 1
    · -- on the last view, which has one block per height
      have hxon := ((inv.exact k hlast x hle).1 hx).1
      have hyon := ((inv.exact k hlast y (by omega)).1 hy).1
      rw [← hxon.2.2, ← hyon.2.2, hn]
    · have tr := inv.tracked
      rw [deltas_concat, cursorAfter_concat] at tr
      have hfrom := getFromBlock_le k.appended.newLastSync d f
      have hd := (inv.cursor k hlast).2.2.1
      exact tr.ascending.eq_of_number (tr.covered x hx (by omega)) (tr.covered y hy (by omega)) hn

/-- **A run stores a stream of deltas.** -/
theorem run_stored {ks : List (Cycle C)} (run : Run d f ks) :
    ∃ (δs : List (Delta H)) (ws : List H), Stored d f ks δs ∧
      RunState d f ks (δs.flatMap Delta.ops) ws := by
  induction run with
  | start => exact ⟨[], [], .nil, runState_start⟩
  | @cycle ks v b r run follows from_le le_tip derived ih =>
    obtain ⟨δs, ws, hst, inv⟩ := ih
    have hstep := inv.step rfl follows from_le le_tip derived
    obtain ⟨-, htip⟩ := inv.settled follows
    obtain ⟨hfrom, hlatest, hto⟩ := generate_sync derived
    set δ := v.delta (getFromBlock (cursorAfter (deltas ks)) d f) b ws with hδ
    have hops : (δs ++ [δ]).flatMap Delta.ops = δs.flatMap Delta.ops ++ δ.ops := by simp
    refine ⟨δs ++ [δ], _, .snoc hst ?_, by rw [hops]; exact hstep.2⟩
    exact
      { stream := hstep.1
        resumes := hfrom
        from_le := by rw [hfrom, hto]; exact from_le
        le_latest := by rw [hlatest, hto]; exact le_tip
        latest_le := by rw [hlatest]; exact htip
        legal := delta_legal inv.tracked rfl le_tip
        named := by rw [hfrom]; exact delta_named inv.tracked le_tip
        cut := fun y hy x hx hle => retracted_above inv.tracked rfl hy hx hle
        heights := by
          intro x hx y hy hn
          rw [← held_append] at hx hy
          exact hstep.2.heights hx hy hn }

variable {ks : List (Cycle C)} {δs : List (Delta H)}

namespace Stored

theorem emitted_eq (st : Stored d f ks δs) :
    emitted (deltas ks) = (δs.flatMap Delta.ops).flatMap C.emit := by
  induction st with
  | nil => rfl
  | snoc stored appends ih =>
    rw [deltas_concat, emitted_concat, ih, appends.stream]
    simp

theorem legal (st : Stored d f ks δs) : Legal ∅ (δs.flatMap Delta.ops) := by
  induction st with
  | nil => trivial
  | snoc stored appends ih =>
    rw [List.flatMap_append, List.flatMap_singleton, legal_append]
    exact ⟨ih, appends.legal⟩

/-- Every entry is of a block with logs, from the first block of the source. -/
theorem named (st : Stored d f ks δs) :
    ∀ o ∈ δs.flatMap Delta.ops, C.Bearing o.key ∧ d ≤ C.numberOf o.key := by
  induction st with
  | nil => simp
  | snoc stored appends ih =>
    intro o ho
    rw [List.flatMap_append, List.flatMap_singleton] at ho
    rcases List.mem_append.1 ho with ho | ho
    · exact ih o ho
    · obtain ⟨hb, hge⟩ := appends.named o ho
      refine ⟨hb, ?_⟩
      rw [appends.resumes] at hge
      exact (getFromBlock_ge _ d f).trans hge

theorem heights (st : Stored d f ks δs) {x y : H} (hx : x ∈ held ∅ (δs.flatMap Delta.ops))
    (hy : y ∈ held ∅ (δs.flatMap Delta.ops)) (hn : C.numberOf x = C.numberOf y) : x = y := by
  cases st with
  | nil => simp at hx
  | snoc stored appends =>
    rw [List.flatMap_append, List.flatMap_singleton, held_append] at hx hy
    exact appends.heights x hx y hy hn

theorem le_latest (st : Stored d f ks δs) :
    (cursorAfter (deltas ks)).lastToBlock ≤ (cursorAfter (deltas ks)).latestBlock := by
  cases st with
  | nil => exact le_rfl
  | snoc stored appends =>
    rw [deltas_concat, cursorAfter_concat]
    exact appends.le_latest

/-- A prefix of a stored stream is one, and the next delta appends to it. -/
theorem take (st : Stored d f ks δs) (i : ℕ) : Stored d f (ks.take i) (δs.take i) := by
  induction st with
  | nil => simpa using Stored.nil
  | @snoc ks δs k δ stored appends ih =>
    have hlen : ks.length = δs.length := by
      clear ih appends
      induction stored with
      | nil => rfl
      | snoc _ _ ih => simpa using ih
    by_cases hi : i ≤ ks.length
    · rw [List.take_append_of_le_length hi, List.take_append_of_le_length (by omega)]
      exact ih
    · rw [List.take_of_length_le (by simp; omega), List.take_of_length_le (by simp; omega)]
      exact .snoc stored appends

theorem length_eq (st : Stored d f ks δs) : ks.length = δs.length := by
  induction st with
  | nil => rfl
  | snoc _ _ ih => simpa using ih

theorem getElem (st : Stored d f ks δs) {i : ℕ} {k : Cycle C} (hk : ks[i]? = some k) :
    ∃ δ, δs[i]? = some δ ∧ Appends C d f (cursorAfter (deltas (ks.take i)))
      (held ∅ ((δs.take i).flatMap Delta.ops)) k.appended δ := by
  induction st with
  | nil => simp at hk
  | @snoc ks δs k' δ stored appends ih =>
    have hlen := stored.length_eq
    by_cases hi : i < ks.length
    · rw [List.getElem?_append_left hi] at hk
      obtain ⟨δ', hδ, happ⟩ := ih hk
      rw [List.getElem?_append_left (by omega), List.take_append_of_le_length (by omega),
        List.take_append_of_le_length (by omega)]
      exact ⟨δ', hδ, happ⟩
    · obtain ⟨hlt, -⟩ := List.getElem?_eq_some_iff.1 hk
      rw [List.length_append, List.length_singleton] at hlt
      obtain rfl : i = ks.length := by omega
      rw [List.getElem?_concat_length] at hk
      obtain rfl := Option.some.inj hk
      refine ⟨δ, by rw [hlen, List.getElem?_concat_length], ?_⟩
      rw [List.take_left, hlen, List.take_left]
      exact appends

end Stored

end Etherfold
