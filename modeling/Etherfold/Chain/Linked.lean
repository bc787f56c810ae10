import Etherfold.Chain.Run

/-!
# Linked views

A block names its parent, so a block that stands on a view brings its whole past with
it. The stream keeps that property when every reorg takes back a log at its lowest
changed height.

* `Under`: the logs-bearing past of a block.
* `coveredBelow`: the heights whose logs, or whose silence, the stream vouches for.
* `ForkRetracted`: what changes at a covered height comes with a retraction at or
  below it.
* `Rooted`: **below a live block the live blocks are exactly its past**.
* `Rooted.delta`, `rooted_below`: one cycle keeps it, and changes nothing below a covered
  height that it takes nothing back under.
-/

namespace Etherfold

open Ledger

variable {H D : Type} {C : Chain H D}

/-- Each block of the view names the one below it as its parent. -/
def View.Linked (parent : H → H) (v : View C) : Prop :=
  ∀ n < v.tip, parent (v.hashAt (n + 1)) = v.hashAt n

/-- `x` is `y` or a block of its past from height `d` on, with logs. -/
def Under (C : Chain H D) (parent : H → H) (d : ℕ) (x y : H) : Prop :=
  C.Bearing x ∧ d ≤ C.numberOf x ∧ C.numberOf x ≤ C.numberOf y ∧
    parent^[C.numberOf y - C.numberOf x] y = x

variable {parent : H → H} {v : View C} {d : ℕ}

theorem View.Linked.iterate (h : v.Linked parent) {m j : ℕ} (hm : m ≤ v.tip) (hj : j ≤ m) :
    parent^[j] (v.hashAt m) = v.hashAt (m - j) := by
  induction j with
  | zero => rfl
  | succ j ih =>
    rw [Function.iterate_succ_apply', ih (by omega)]
    have hstep := h (m - (j + 1)) (by omega)
    rwa [show m - (j + 1) + 1 = m - j from by omega] at hstep

/-- On a linked view the past of a block is what stands below it. -/
theorem View.Linked.under_iff (h : v.Linked parent) {x y : H} (hy : v.On y)
    (hle : C.numberOf x ≤ C.numberOf y) : Under C parent d x y ↔ v.On x ∧ d ≤ C.numberOf x := by
  obtain ⟨-, hytip, hyat⟩ := hy
  have hpast := h.iterate hytip (Nat.sub_le (C.numberOf y) (C.numberOf x))
  rw [hyat, Nat.sub_sub_self hle] at hpast
  unfold Under View.On
  rw [hpast]
  refine ⟨fun ⟨h1, h2, _, h4⟩ => ⟨⟨h1, by omega, h4⟩, h2⟩, fun ⟨⟨h1, _, h3⟩, h4⟩ => ⟨h1, h4, hle, h3⟩⟩

/-- A block of the past at the block's own height is the block. -/
theorem Under.eq_of_number {x y : H} (h : Under C parent d x y) (hn : C.numberOf x = C.numberOf y) :
    x = y := by
  obtain ⟨-, -, -, hx⟩ := h
  rw [hn, Nat.sub_self, Function.iterate_zero_apply] at hx
  exact hx.symm

/-- **What the stream vouches for**: the heights below this bound. A delta that takes
something back is only known up to where its fetch read. -/
def coveredBelow (ks : List (Cycle C)) : ℕ :=
  ks.foldl (fun bound k =>
    if k.appended.eventStream.any (·.removed) then k.toBlock + 1 else max bound (k.toBlock + 1)) 0

@[simp] theorem coveredBelow_concat (ks : List (Cycle C)) (k : Cycle C) : coveredBelow (ks ++ [k]) =
    if k.appended.eventStream.any (·.removed) then k.toBlock + 1
    else max (coveredBelow ks) (k.toBlock + 1) := by
  simp [coveredBelow]

/-- **Every reorg takes back a log at its lowest changed height**: a log that appears at a
covered height comes with a retraction at or below it. -/
def ForkRetracted (ks : List (Cycle C)) (k : Cycle C) : Prop :=
  ∀ e ∈ k.appended.eventStream, e.removed = false → e.blockNumber < coveredBelow ks →
    ∃ e' ∈ k.appended.eventStream, e'.removed = true ∧ e'.blockNumber ≤ e.blockNumber

/-- The live blocks are covered, and below each of them live exactly those of its past. -/
structure Rooted (C : Chain H D) (parent : H → H) (d bound : ℕ) (L : Finset H) : Prop where
  covered : ∀ x ∈ L, C.numberOf x < bound
  past : ∀ y ∈ L, ∀ x, C.numberOf x ≤ C.numberOf y → (x ∈ L ↔ Under C parent d x y)

/-- Live blocks have heights of their own. -/
theorem Rooted.eq_of_number {bound : ℕ} {L : Finset H} (h : Rooted C parent d bound L) {x y : H}
    (hx : x ∈ L) (hy : y ∈ L) (hn : C.numberOf x = C.numberOf y) : x = y :=
  ((h.past y hy x hn.le).1 hx).eq_of_number hn

/-! ### One delta, at the level of blocks -/

variable [DecidableEq H] {a b f bound : ℕ} {ws : List H} {L : Finset H} {c : LastSync H D}

/-- A delta takes back every live block above one it takes back. -/
theorem retracted_above (tr : Tracked C d f c ws L) (ha : a = getFromBlock c d f) {x y : H}
    (hy : y ∈ (v.delta a b ws).retracted) (hx : x ∈ L) (hle : C.numberOf y ≤ C.numberOf x) :
    x ∈ (v.delta a b ws).retracted := by
  obtain ⟨y₀, -, -, hmem⟩ := exists_fork tr.ascending (List.ne_nil_of_mem hy)
  have hge := (mem_retracted_ge tr.ascending hy).2
  have hxw : x ∈ ws := tr.covered x hx (by omega)
  exact (hmem x).2 ⟨hxw, ((hmem y).1 hy).2.trans hle⟩

/-- The bound after a delta. -/
def nextBound (bound b : ℕ) (δ : Delta H) : ℕ :=
  if δ.retracted = [] then max bound (b + 1) else b + 1

section Delta

variable (tr : Tracked C d f c ws L) (ha : a = getFromBlock c d f) (hb : b ≤ v.tip)
  (hfork : ∀ x ∈ (v.delta a b ws).added, C.numberOf x < bound →
    ∃ y ∈ (v.delta a b ws).retracted, C.numberOf y ≤ C.numberOf x)

include tr ha hb hfork in
/-- **One delta keeps the live blocks rooted.** -/
theorem Rooted.delta (hr : Rooted C parent d bound L) (hlink : v.Linked parent)
    (st : Settled v d (getFromBlock c d f) L) :
    Rooted C parent d (nextBound bound b (v.delta a b ws)) (held L (v.delta a b ws).ops) where
  covered := by
    intro x hx
    unfold nextBound
    rcases mem_held_delta.1 hx with ⟨hxL, hnot⟩ | hadd
    · split
      · have := hr.covered x hxL
        omega
      · rename_i hne
        obtain ⟨y, hyr, hcon, -⟩ := exists_fork tr.ascending hne
        -- the fork is in the fetched range, and what survives is below it
        have hyb := hcon.2.1
        by_contra hge
        exact hnot (retracted_above tr ha hyr hxL (by omega))
    · have hle := ((mem_added hb).1 hadd).1.2.2
      split <;> omega
  past := by
    intro y hy x hle
    rcases mem_held_delta.1 hy with ⟨hyL, hnot⟩ | hadd
    · rw [← hr.past y hyL x hle, mem_held_delta]
      refine ⟨?_, fun hx => Or.inl ⟨hx, fun hxr => hnot (retracted_above tr ha hxr hyL hle)⟩⟩
      rintro (⟨hx, -⟩ | hxa)
      · exact hx
      · -- a log below a surviving one would come with a retraction below it
        have hcov := hr.covered y hyL
        obtain ⟨z, hz, hzx⟩ := hfork x hxa (by omega)
        exact absurd (retracted_above tr ha hz hyL (by omega)) hnot
    · obtain ⟨⟨hon, -, hyb⟩, -⟩ := (mem_added hb).1 hadd
      rw [delta_settled tr st ha hb x (by omega), hlink.under_iff hon hle]

include tr hfork in
/-- **Below a covered height that nothing is taken back under, nothing changes**, and the
height stays covered. -/
theorem rooted_below {F : ℕ} (hF : F ≤ bound)
    (hret : ∀ y ∈ (v.delta a b ws).retracted, F ≤ C.numberOf y) :
    F ≤ nextBound bound b (v.delta a b ws) ∧
      ∀ x, C.numberOf x < F → (x ∈ held L (v.delta a b ws).ops ↔ x ∈ L) := by
  constructor
  · unfold nextBound
    split
    · omega
    · rename_i hne
      obtain ⟨y, hyr, hcon, -⟩ := exists_fork tr.ascending hne
      have := hret y hyr
      have := hcon.2.1
      omega
  · intro x hx
    rw [mem_held_delta]
    refine ⟨?_, fun hxL => Or.inl ⟨hxL, fun hxr => ?_⟩⟩
    · rintro (⟨hxL, -⟩ | hxa)
      · exact hxL
      · obtain ⟨z, hz, hzx⟩ := hfork x hxa (by omega)
        have := hret z hz
        omega
    · have := hret x hxr
      omega

end Delta

/-! ### The same, read off the stream -/

omit [DecidableEq H] in
theorem Delta.mem_stream {δ : Delta H} {e : LogEvent H D} : e ∈ δ.ops.flatMap C.emit ↔
    (∃ y ∈ δ.retracted, ∃ e' ∈ C.logsOf y, e'.retracted = e) ∨ ∃ x ∈ δ.added, e ∈ C.logsOf x := by
  unfold Delta.ops
  simp only [List.flatMap_append, List.mem_append, List.flatMap_map, List.mem_flatMap, Chain.emit,
    List.mem_map]

omit [DecidableEq H] in
/-- What a delta of blocks takes back, as entries. -/
theorem Delta.removed_iff {δ : Delta H} (hb : ∀ y ∈ δ.retracted, C.Bearing y) {y : H} :
    (∃ e ∈ δ.ops.flatMap C.emit, e.removed = true ∧ e.blockHash = y) ↔ y ∈ δ.retracted := by
  refine ⟨fun ⟨e, he, hrem, hy⟩ => ?_, fun hy => ?_⟩
  · rcases Delta.mem_stream.1 he with ⟨z, hz, e', he', rfl⟩ | ⟨x, -, hx⟩
    · have hzy : e'.blockHash = y := hy
      rw [← hzy, C.log_hash z e' he']
      exact hz
    · rw [C.log_live x e hx] at hrem
      cases hrem
  · obtain ⟨e', he'⟩ := List.exists_mem_of_ne_nil _ (hb y hy)
    exact ⟨e'.retracted, Delta.mem_stream.2 (Or.inl ⟨y, hy, e', he', rfl⟩), rfl, C.log_hash y e' he'⟩

omit [DecidableEq H] in
/-- The entries of a delta of blocks are at the heights of their blocks. -/
theorem Delta.number {δ : Delta H} {e : LogEvent H D} (he : e ∈ δ.ops.flatMap C.emit) :
    e.blockNumber = C.numberOf e.blockHash := by
  obtain ⟨o, -, heo⟩ := List.mem_flatMap.1 he
  rw [Chain.emit_number heo, Chain.emit_hash heo]

omit [DecidableEq H] in
/-- The fork of a delta, at the level of blocks. -/
theorem ForkRetracted.delta {ks : List (Cycle C)} {k : Cycle C} {δ : Delta H}
    (hstream : k.appended.eventStream = δ.ops.flatMap C.emit) (hadd : ∀ x ∈ δ.added, C.Bearing x)
    (hret : ∀ y ∈ δ.retracted, C.Bearing y) (h : ForkRetracted ks k) :
    ∀ x ∈ δ.added, C.numberOf x < coveredBelow ks →
      ∃ y ∈ δ.retracted, C.numberOf y ≤ C.numberOf x := by
  intro x hx hlt
  obtain ⟨e, he⟩ := List.exists_mem_of_ne_nil _ (hadd x hx)
  have hmem : e ∈ k.appended.eventStream := hstream ▸ Delta.mem_stream.2 (Or.inr ⟨x, hx, he⟩)
  have hn := C.log_number x e he
  obtain ⟨e', he', hrem, hle⟩ := h e hmem (C.log_live x e he) (by omega)
  rw [hstream] at he'
  refine ⟨e'.blockHash, (Delta.removed_iff hret).1 ⟨e', he', hrem, rfl⟩, ?_⟩
  have := Delta.number he'
  omega

omit [DecidableEq H] in
/-- The bound after a cycle, at the level of blocks. -/
theorem coveredBelow_delta {ks : List (Cycle C)} {k : Cycle C} {δ : Delta H}
    (hstream : k.appended.eventStream = δ.ops.flatMap C.emit) (hret : ∀ y ∈ δ.retracted, C.Bearing y) :
    coveredBelow (ks ++ [k]) = nextBound (coveredBelow ks) k.toBlock δ := by
  rw [coveredBelow_concat]
  unfold nextBound
  have hany : k.appended.eventStream.any (·.removed) = true ↔ δ.retracted ≠ [] := by
    rw [List.any_eq_true, hstream]
    refine ⟨fun ⟨e, he, hrem⟩ => ?_, fun hne => ?_⟩
    · exact List.ne_nil_of_mem ((Delta.removed_iff hret).1 ⟨e, he, hrem, rfl⟩)
    · obtain ⟨y, hy⟩ := List.exists_mem_of_ne_nil _ hne
      obtain ⟨e, he, hrem, -⟩ := (Delta.removed_iff hret).2 hy
      exact ⟨e, he, hrem⟩
  by_cases hnil : δ.retracted = []
  · rw [if_pos hnil, if_neg (by rw [hany]; exact not_not.2 hnil)]
  · rw [if_neg hnil, if_pos (hany.2 hnil)]

end Etherfold
