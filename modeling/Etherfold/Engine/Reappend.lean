import Mathlib.Data.List.DropRight
import Etherfold.Engine.Merged
import Etherfold.Engine.Receive

/-!
# A delta appended again

The receiver stores a delta before it folds it. When the fold fails the retry derives the
delta again and appends it again, so the stream carries it several times in a row.

* `reappended`: the stream with `k` copies of a delta.
* `Harmless`: both readers of a stream make the same of it as of the stream with one copy.
* `walk_copies`, `holding_copies`: where the copies are runs of their own, when they do.
* `reappended_iff`: **when a delta may be appended again**.
-/

namespace Etherfold

open Ledger

variable {H D : Type} [DecidableEq H] {C : Chain H D}

/-- The entries of a stream with `k` copies of a delta, block by block. -/
def copies (pre post : List (Op H)) (δ : Delta H) (k : ℕ) : List (Op H) :=
  pre ++ (List.replicate k δ.ops).flatten ++ post

/-- **The stream with `k` copies of a delta.** -/
def reappended (C : Chain H D) (pre post : List (Op H)) (δ : Delta H) (k : ℕ) : List (LogEvent H D) :=
  (copies pre post δ k).flatMap C.emit

/-- The walk of the window and the replay, from any cursor, make the same of `k` copies as of
one. -/
def Harmless (C : Chain H D) (pre post : List (Op H)) (δ : Delta H) (k : ℕ) : Prop :=
  (∀ coveredThrough finality, windowOfStoredStream (reappended C pre post δ k) coveredThrough finality =
    windowOfStoredStream (reappended C pre post δ 1) coveredThrough finality) ∧
  ∀ (c : LastSync H D) (d : ℕ) (o : NewSync), generateStreamFromReplay c d (reappended C pre post δ k) o =
    generateStreamFromReplay c d (reappended C pre post δ 1) o

/-- The stream before a delta, short of what its first entry repeats. -/
def preceding (pre : List (Op H)) (δ : Delta H) : List (Op H) := pre.rdropWhile fun o => δ.ops.head? = some o

/-- A delta that may be appended again: neither one copy nor `k` repeat at once what is news, no
block is both taken back and added, and no block that is added, unless it stood before, is taken
back next. -/
structure Reappendable (pre post : List (Op H)) (δ : Delta H) (k : ℕ) : Prop where
  once : RepeatsStale (copies pre post δ 1)
  again : RepeatsStale (copies pre post δ k)
  apart : ∀ x ∈ δ.added, x ∉ δ.retracted
  stays : ∀ x ∈ δ.added, x ∉ held ∅ (preceding pre δ) → Ledger.retractedLater x post = false

/-! ### The runs of the stream -/

omit [DecidableEq H] in
theorem copies_succ (pre post : List (Op H)) (δ : Delta H) (k : ℕ) :
    copies pre post δ (k + 1) = pre ++ (δ.ops ++ ((List.replicate k δ.ops).flatten ++ post)) := by
  unfold copies
  rw [List.replicate_succ, List.flatten_cons]
  simp only [List.append_assoc]

omit [DecidableEq H] in
theorem copies_one (pre post : List (Op H)) (δ : Delta H) : copies pre post δ 1 = pre ++ (δ.ops ++ post) := by
  rw [copies_succ]
  rfl

omit [DecidableEq H] in
/-- Copies keep neighbours apart when the two ends of the delta differ. -/
theorem copies_chain {pre post : List (Op H)} {δ : Delta H} (h : (pre ++ (δ.ops ++ post)).IsChain (· ≠ ·))
    (hends : ∀ a ∈ δ.ops.getLast?, ∀ b ∈ δ.ops.head?, a ≠ b) (k : ℕ) :
    (copies pre post δ (k + 1)).IsChain (· ≠ ·) := by
  rw [copies_succ]
  obtain ⟨hpre, hrest, hseam⟩ := List.isChain_append.1 h
  obtain ⟨hδ, hpost, hend⟩ := List.isChain_append.1 hrest
  rcases List.eq_nil_or_concat δ.ops with hnil | hlast
  · have hflat : (List.replicate k δ.ops).flatten = [] := by
      rw [hnil, List.flatten_replicate_nil]
    rw [hflat]
    exact h
  have hne : δ.ops ≠ [] := by
    obtain ⟨l, a, hla⟩ := hlast
    rw [hla, List.concat_eq_append]
    exact List.concat_ne_nil a l
  -- what follows a copy begins with a copy or with what comes after
  have htail : ∀ k, ((List.replicate k δ.ops).flatten ++ post).IsChain (· ≠ ·) ∧
      ∀ a ∈ δ.ops.getLast?, ∀ b ∈ ((List.replicate k δ.ops).flatten ++ post).head?, a ≠ b := by
    intro k
    induction k with
    | zero => exact ⟨hpost, hend⟩
    | succ k ih =>
      have hsplit : (List.replicate (k + 1) δ.ops).flatten ++ post =
          δ.ops ++ ((List.replicate k δ.ops).flatten ++ post) := by
        rw [List.replicate_succ, List.flatten_cons, List.append_assoc]
      rw [hsplit]
      refine ⟨List.isChain_append.2 ⟨hδ, ih.1, ih.2⟩, fun a ha b hb => hends a ha b ?_⟩
      rwa [List.head?_append_of_ne_nil _ hne] at hb
  refine List.isChain_append.2 ⟨hpre, List.isChain_append.2 ⟨hδ, (htail k).1, (htail k).2⟩, fun a ha b hb => ?_⟩
  rw [List.head?_append_of_ne_nil _ hne] at hb
  refine hseam a ha b ?_
  rwa [List.head?_append_of_ne_nil _ hne]

omit [DecidableEq H] in
theorem mem_copies {pre post : List (Op H)} {δ : Delta H} {k : ℕ} {o : Op H} (ho : o ∈ copies pre post δ k) :
    o ∈ pre ++ (δ.ops ++ post) := by
  unfold copies at ho
  rcases List.mem_append.1 ho with ho | ho
  · rcases List.mem_append.1 ho with ho | ho
    · exact List.mem_append_left _ ho
    · obtain ⟨l, hl, hol⟩ := List.mem_flatten.1 ho
      rw [(List.mem_replicate.1 hl).2] at hol
      exact List.mem_append_right _ (List.mem_append_left _ hol)
  · exact List.mem_append_right _ (List.mem_append_right _ ho)

omit [DecidableEq H] in
theorem ops_nodup {δ : Delta H} (hR : δ.retracted.Nodup) (hA : δ.added.Nodup) : δ.ops.Nodup := by
  unfold Delta.ops
  refine List.nodup_append.2 ⟨hR.map fun x y h => by cases h; rfl, hA.map fun x y h => by cases h; rfl, ?_⟩
  intro a ha b hb heq
  obtain ⟨x, -, rfl⟩ := List.mem_map.1 ha
  obtain ⟨y, -, rfl⟩ := List.mem_map.1 hb
  cases heq

omit [DecidableEq H] in
/-- A delta of two entries or more has two ends. -/
theorem ends_ne {δ : Delta H} (hn : δ.ops.Nodup) (hsingle : ∀ o, δ.ops ≠ [o]) :
    ∀ a ∈ δ.ops.getLast?, ∀ b ∈ δ.ops.head?, a ≠ b := by
  intro a ha b hb heq
  cases hops : δ.ops with
  | nil =>
    rw [hops] at ha
    cases ha
  | cons o l =>
    rw [hops] at ha hb hn
    cases hb
    rcases List.eq_nil_or_concat l with rfl | ⟨l', o', rfl⟩
    · exact hsingle b hops
    · rw [List.concat_eq_append] at *
      have hlast : a = o' := by
        rw [← List.cons_append, List.getLast?_concat] at ha
        exact (Option.some.inj ha).symm
      rw [List.nodup_cons] at hn
      exact hn.1 (by rw [← heq, hlast]; simp)

/-- What the runs still to come say matters only for additions of blocks not held. -/
theorem walkUntil_added {xs : List H} (hn : xs.Nodup) {n : ℕ} {w : Walk H D} {later later' : List (StreamBlock H D)}
    (h : ∀ x ∈ xs, (w.live x).isSome = true ∨ retractedLater x later = retractedLater x later') :
    walkUntil n w ((xs.map Op.add).map C.group) later = walkUntil n w ((xs.map Op.add).map C.group) later' := by
  induction xs generalizing w with
  | nil => rfl
  | cons x xs ih =>
    obtain ⟨hx, hn⟩ := List.nodup_cons.1 hn
    have hnot : x ∉ ((xs.map Op.add).map C.group).map (·.hash) := by
      rw [List.map_map, List.map_map]
      simpa using hx
    have hstep : w.step n (C.group (.add x)) ((xs.map Op.add).map C.group ++ later) =
        w.step n (C.group (.add x)) ((xs.map Op.add).map C.group ++ later') := by
      unfold Walk.step
      rw [Chain.group_hash, Op.key_add, retractedLater_append, retractedLater_append, if_neg hnot, if_neg hnot]
      rcases h x List.mem_cons_self with hlive | hsame
      · rw [if_pos hlive, if_pos hlive]
      · rw [hsame]
    rw [List.map_cons, List.map_cons, walkUntil, walkUntil, hstep]
    refine ih hn fun y hy => ?_
    have hne : y ≠ (C.group (.add x)).hash := by
      rw [Chain.group_hash, Op.key_add]
      exact fun heq => hx (heq ▸ hy)
    rw [step_live_of_ne _ hne]
    exact h y (List.mem_cons_of_mem _ hy)

/-- What comes after a delta matters only for the blocks it adds and that are not held. -/
theorem walkUntil_delta {δ : Delta H} (hA : δ.added.Nodup) (hapart : ∀ x ∈ δ.added, x ∉ δ.retracted) {n : ℕ}
    {w : Walk H D} {later later' : List (StreamBlock H D)}
    (h : ∀ x ∈ δ.added, (w.live x).isSome = true ∨ retractedLater x later = retractedLater x later') :
    walkUntil n w (δ.ops.map C.group) later = walkUntil n w (δ.ops.map C.group) later' := by
  have hretract : ∀ later later' : List (StreamBlock H D),
      walkUntil n w ((δ.retracted.map Op.retract).map C.group) later =
        walkUntil n w ((δ.retracted.map Op.retract).map C.group) later' := by
    intro later later'
    refine walkUntil_congr fun g hg hr => ?_
    obtain ⟨o, ho, rfl⟩ := List.mem_map.1 hg
    obtain ⟨x, -, rfl⟩ := List.mem_map.1 ho
    exact absurd hr Bool.true_eq_false.mp
  unfold Delta.ops
  rw [List.map_append, walkUntil_append, walkUntil_append,
    hretract (_ ++ later) ((δ.added.map Op.add).map C.group ++ later')]
  refine walkUntil_added hA fun x hx => (h x hx).imp (fun hlive => ?_) id
  -- the retractions leave the blocks added alone
  refine live_of_held (S := {x}) (fun _ => hlive) ?_ (.inl fun g hg hgx => ?_)
  · rw [map_group_op, held_map_retract]
    exact Finset.mem_sdiff.2 ⟨Finset.mem_singleton_self x, fun hmem => hapart x hx (List.mem_toFinset.1 hmem)⟩
  · obtain ⟨o, ho, rfl⟩ := List.mem_map.1 hg
    obtain ⟨y, hy, rfl⟩ := List.mem_map.1 ho
    exact absurd (hgx ▸ hy) (hapart x hx)

/-- A delta that takes back nothing it adds says of its blocks what it says, whatever follows. -/
theorem retractedLater_added {δ : Delta H} (hapart : ∀ x ∈ δ.added, x ∉ δ.retracted) {x : H} (hx : x ∈ δ.added)
    (later : List (StreamBlock H D)) : retractedLater x (δ.ops.map C.group ++ later) = false := by
  have hkeys : ∀ (l : List H) (ops : List (Op H)), x ∉ l →
      Ledger.retractedLater x (l.map Op.retract ++ ops) = Ledger.retractedLater x ops := by
    intro l ops hl
    induction l with
    | nil => rfl
    | cons y l ih =>
      rw [List.mem_cons, not_or] at hl
      rw [List.map_cons, List.cons_append, Ledger.retractedLater, if_neg (Ne.symm hl.1), ih hl.2]
  have hadds : ∀ l : List H, Ledger.retractedLater x (l.map Op.add) = false := by
    intro l
    induction l with
    | nil => rfl
    | cons y l ih =>
      rw [List.map_cons, Ledger.retractedLater]
      split
      · rfl
      · exact ih
  have hmem : x ∈ (δ.ops.map C.group).map (·.hash) := by
    rw [List.map_map]
    unfold Delta.ops
    simp [hx]
  rw [retractedLater_append, if_pos hmem, retractedLater_group]
  unfold Delta.ops
  rw [hkeys _ _ (hapart x hx), hadds]

omit [DecidableEq H] in
/-- After a delta its retracted blocks are dead and its added ones held: saying it again is no
news. -/
theorem stale_again {δ : Delta H} {live : H → Option (EventBlock H D)} (hnone : ∀ x ∈ δ.retracted, live x = none)
    (hsome : ∀ x ∈ δ.added, (live x).isSome = true) (k : ℕ) :
    ∀ g ∈ (List.replicate k (δ.ops.map C.group)).flatten, (live g.hash).isSome = !g.removed := by
  intro g hg
  obtain ⟨l, hl, hgl⟩ := List.mem_flatten.1 hg
  rw [(List.mem_replicate.1 hl).2] at hgl
  obtain ⟨o, ho, rfl⟩ := List.mem_map.1 hgl
  unfold Delta.ops at ho
  rcases List.mem_append.1 ho with ho | ho
  · obtain ⟨x, hx, rfl⟩ := List.mem_map.1 ho
    rw [Chain.group_hash, Op.key_retract, hnone x hx]
    rfl
  · obtain ⟨x, hx, rfl⟩ := List.mem_map.1 ho
    exact hsome x hx

theorem notHeld_retracted {δ : Delta H} (hapart : ∀ x ∈ δ.added, x ∉ δ.retracted) (S : Finset H) {x : H}
    (hx : x ∈ δ.retracted) : x ∉ held S δ.ops := by
  unfold Delta.ops
  rw [held_append, held_map_retract, held_map_add]
  simp only [Finset.mem_union, Finset.mem_sdiff, List.mem_toFinset, not_or, not_and, not_not]
  exact ⟨fun _ => hx, fun hadded => hapart x hadded hx⟩

theorem held_added {δ : Delta H} (S : Finset H) {x : H} (hx : x ∈ δ.added) : x ∈ held S δ.ops := by
  unfold Delta.ops
  rw [held_append, held_map_add]
  exact Finset.mem_union_right _ (List.mem_toFinset.2 hx)

/-- **And leave the same held.** -/
theorem holding_copies {pre post : List (Op H)} {δ : Delta H} (hapart : ∀ x ∈ δ.added, x ∉ δ.retracted) (k : ℕ) :
    holdingOf ((copies pre post δ (k + 1)).map C.group) = holdingOf ((copies pre post δ 1).map C.group) := by
  rw [copies_succ, copies_one]
  simp only [List.map_append, List.map_flatten, List.map_replicate]
  unfold holdingOf
  rw [List.foldl_append, List.foldl_append, List.foldl_append, List.foldl_append, List.foldl_append]
  have hbefore : ∀ x, (((pre.map C.group).foldl Holding.step ⟨fun _ => none, []⟩).live x).isSome = true ↔
      x ∈ held ∅ pre := by
    intro x
    rw [holding_isSome (S := ∅) (fun y => by simp), map_group_op]
  have hafter := fun x => @holding_isSome _ _ _ (δ.ops.map C.group) _ _ hbefore x
  rw [map_group_op] at hafter
  rw [foldl_step_stale (stale_again (fun x hx => ?_) (fun x hx => ?_) k)]
  · rw [← Option.not_isSome_iff_eq_none, hafter]
    exact notHeld_retracted hapart _ hx
  · rw [hafter]
    exact held_added _ hx

/-- **Copies that are runs of their own**, of a delta that takes back nothing it adds, are
replayed as one. -/
theorem walk_copies {pre post : List (Op H)} {δ : Delta H} (hA : δ.added.Nodup)
    (hapart : ∀ x ∈ δ.added, x ∉ δ.retracted)
    (hstays : ∀ x ∈ δ.added, x ∉ held ∅ pre → Ledger.retractedLater x post = false) (k n : ℕ) (w : Walk H D) :
    walk n w ((copies pre post δ (k + 1)).map C.group) = walk n w ((copies pre post δ 1).map C.group) := by
  have htold := fun x hx later => retractedLater_added (D := D) (C := C) hapart (x := x) hx later
  have hops := map_group_op (C := C) δ.ops
  rw [copies_succ, copies_one]
  simp only [List.map_append, List.map_flatten, List.map_replicate]
  generalize hM : (List.replicate k (δ.ops.map C.group)).flatten = M
  have hmemM : ∀ x ∉ (δ.ops.map C.group).map (·.hash), x ∉ M.map (·.hash) := by
    intro x hx hmem
    obtain ⟨g, hg, rfl⟩ := List.mem_map.1 hmem
    rw [← hM] at hg
    obtain ⟨l, hl, hgl⟩ := List.mem_flatten.1 hg
    rw [(List.mem_replicate.1 hl).2] at hgl
    exact hx (List.mem_map.2 ⟨g, hgl, rfl⟩)
  -- before the delta nobody sees a difference: its first copy decides
  have hpre : walkUntil n w (pre.map C.group) (δ.ops.map C.group ++ (M ++ post.map C.group)) =
      walkUntil n w (pre.map C.group) (δ.ops.map C.group ++ post.map C.group) := by
    refine walkUntil_congr fun g _ _ => ?_
    by_cases hmem : g.hash ∈ (δ.ops.map C.group).map (·.hash)
    · rw [retractedLater_append, if_pos hmem, retractedLater_append, if_pos hmem]
    · rw [retractedLater_append, if_neg hmem, retractedLater_append, if_neg (hmemM _ hmem), retractedLater_append,
        if_neg hmem]
  cases k with
  | zero =>
    rw [← hM]
    rfl
  | succ k =>
  have hmore : ∀ x ∈ δ.added, retractedLater x (M ++ post.map C.group) = false := by
    intro x hx
    rw [← hM, List.replicate_succ, List.flatten_cons, List.append_assoc]
    exact htold x hx _
  -- nor in the first copy: what it adds is held already, or stays
  have hfirst : walkUntil n (walkUntil n w (pre.map C.group) (δ.ops.map C.group ++ post.map C.group))
        (δ.ops.map C.group) (M ++ post.map C.group) =
      walkUntil n (walkUntil n w (pre.map C.group) (δ.ops.map C.group ++ post.map C.group))
        (δ.ops.map C.group) (post.map C.group) := by
    refine walkUntil_delta hA hapart fun x hx => ?_
    by_cases hbefore : x ∈ held ∅ pre
    · refine .inl (live_of_held (S := ∅) (fun h => absurd h (Finset.notMem_empty x)) ?_ (.inr (htold x hx _)))
      rw [map_group_op]
      exact hbefore
    · right
      rw [hmore x hx, retractedLater_group, hstays x hx hbefore]
  rw [walk_append n w, walk_append n w, hpre,
    walk_append n _ (δ.ops.map C.group), walk_append n _ (δ.ops.map C.group), hfirst, walk_append n _ M,
    walkUntil_stale]
  -- after it all that is said again is no news
  rw [← hM]
  refine stale_again (fun x hx => ?_) (fun x hx => ?_) (k + 1)
  · refine dead_of_notHeld (S := {x}) (fun h => absurd (Finset.mem_singleton_self x) h) ?_
    rw [hops]
    exact notHeld_retracted hapart _ hx
  · rw [← hfirst]
    refine live_of_held (S := ∅) (fun h => absurd h (Finset.notMem_empty x)) ?_ (.inr (hmore x hx))
    rw [hops]
    exact held_added _ hx

/-! ### The runs of the copies -/

/-- The stream after a delta, short of what repeats its last entry. -/
def following (post : List (Op H)) (δ : Delta H) : List (Op H) := post.dropWhile fun o => δ.ops.getLast? = some o

theorem preceding_split {δ : Delta H} {h : Op H} (hhead : δ.ops.head? = some h) (pre : List (Op H)) :
    ∃ j, pre = preceding pre δ ++ List.replicate j h ∧ ∀ o ∈ (preceding pre δ).getLast?, o ≠ h := by
  refine ⟨(pre.rtakeWhile fun o => δ.ops.head? = some o).length, ?_, ?_⟩
  · have hrun : pre.rtakeWhile (fun o => δ.ops.head? = some o) =
        List.replicate (pre.rtakeWhile fun o => δ.ops.head? = some o).length h := by
      refine List.eq_replicate_of_mem fun o ho => ?_
      have ho : δ.ops.head? = some o := by simpa using List.mem_rtakeWhile_imp ho
      exact (Option.some.inj (hhead.symm.trans ho)).symm
    rw [← hrun]
    exact (List.rdropWhile_append_rtakeWhile).symm
  · intro o ho heq
    obtain ⟨hne, hlast⟩ := List.mem_getLast?_eq_getLast ho
    have hnot := List.rdropWhile_last_not (fun o => decide (δ.ops.head? = some o)) pre hne
    rw [← show o = (pre.rdropWhile fun o => decide (δ.ops.head? = some o)).getLast hne from hlast, heq, hhead] at hnot
    exact hnot (decide_eq_true rfl)

theorem following_split {δ : Delta H} {l : Op H} (hlast : δ.ops.getLast? = some l) (post : List (Op H)) :
    ∃ m, post = List.replicate m l ++ following post δ ∧ (following post δ).head? ≠ some l := by
  refine ⟨(post.takeWhile fun o => δ.ops.getLast? = some o).length, ?_, ?_⟩
  · have hrun : post.takeWhile (fun o => δ.ops.getLast? = some o) =
        List.replicate (post.takeWhile fun o => δ.ops.getLast? = some o).length l := by
      refine List.eq_replicate_of_mem fun o ho => ?_
      have ho : δ.ops.getLast? = some o := by simpa using List.mem_takeWhile_imp ho
      exact (Option.some.inj (hlast.symm.trans ho)).symm
    rw [← hrun]
    exact (List.takeWhile_append_dropWhile).symm
  · intro heq
    unfold following at heq
    have hnot := List.head?_dropWhile_not (fun o => decide (δ.ops.getLast? = some o)) post
    rw [heq] at hnot
    simp [hlast] at hnot

omit [DecidableEq H] in
theorem flatten_replicate_singleton (n : ℕ) (o : Op H) : (List.replicate n [o]).flatten = List.replicate n o := by
  induction n with
  | zero => rfl
  | succ n ih => rw [List.replicate_succ, List.replicate_succ, List.flatten_cons, ih, List.singleton_append]

/-- Copies of a single entry are one run, with what repeats it on either side. -/
theorem runs_single {pre post : List (Op H)} {δ : Delta H} {o : Op H} (hops : δ.ops = [o]) (k : ℕ) :
    bare (copies pre post δ (k + 1)) = bare (preceding pre δ) ++ bare (o :: post) ∧
      ∃ n rs, runs (copies pre post δ (k + 1)) = runs (preceding pre δ) ++ (o, n + k + 1) :: rs := by
  have hhead : δ.ops.head? = some o := by rw [hops]; rfl
  obtain ⟨j, hpre, hseam⟩ := preceding_split hhead pre
  have hcopies : copies pre post δ (k + 1) = preceding pre δ ++ (List.replicate (j + k) o ++ o :: post) := by
    unfold copies
    rw [hops, flatten_replicate_singleton]
    have hrun : List.replicate j o ++ List.replicate (k + 1) o = List.replicate (j + k) o ++ [o] := by
      rw [← List.replicate_succ', ← List.replicate_add]
      rfl
    conv_lhs => rw [hpre, List.append_assoc, List.append_assoc, ← List.append_assoc _ _ post, hrun]
    rw [List.append_assoc, List.singleton_append]
  have hne : ∀ o' ∈ (preceding pre δ).getLast?, (List.replicate (j + k) o ++ o :: post).head? ≠ some o' := by
    intro o' ho' heq
    refine hseam o' ho' ?_
    cases hjk : j + k with
    | zero =>
      rw [hjk] at heq
      exact (Option.some.inj heq).symm
    | succ i =>
      rw [hjk] at heq
      exact (Option.some.inj heq).symm
  obtain ⟨n, rs, hrs⟩ := runs_replicate_append (j + k) o post
  rw [hcopies]
  refine ⟨?_, n + j, rs, ?_⟩
  · rw [bare_append hne, bare_replicate_append _ rfl]
  · rw [runs_append hne, hrs, show n + (j + k) + 1 = n + j + k + 1 by omega]

/-- **Copies of a delta with two ends** are runs of their own. -/
theorem bare_copies {pre post : List (Op H)} {δ : Delta H} (hn : δ.ops.Nodup) (hne : δ.ops ≠ [])
    (hends : ∀ a ∈ δ.ops.getLast?, ∀ b ∈ δ.ops.head?, a ≠ b) (k : ℕ) :
    bare (copies pre post δ (k + 1)) = copies (bare (preceding pre δ)) (bare (following post δ)) δ (k + 1) := by
  obtain ⟨o, ho⟩ := Option.isSome_iff_exists.1 (List.isSome_head?.2 hne)
  obtain ⟨l, hl⟩ := Option.isSome_iff_exists.1 (List.getLast?_isSome.2 hne)
  obtain ⟨j, hpre, hseam⟩ := preceding_split ho pre
  obtain ⟨m, hpost, hseam'⟩ := following_split hl post
  have hchain : (copies [] [] δ (k + 1)).IsChain (· ≠ ·) := by
    refine copies_chain ?_ hends k
    rw [List.nil_append, List.append_nil]
    exact hn.isChain
  unfold copies at hchain
  rw [List.nil_append, List.append_nil] at hchain
  have hhead : ∀ t, ((List.replicate (k + 1) δ.ops).flatten ++ t).head? = some o := by
    intro t
    rw [List.replicate_succ, List.flatten_cons, List.append_assoc, List.head?_append_of_ne_nil _ hne, ho]
  have hlast : ((List.replicate (k + 1) δ.ops).flatten).getLast? = some l := by
    rw [List.replicate_succ', List.flatten_append, List.flatten_singleton, List.getLast?_append, hl]
    rfl
  unfold copies
  conv_lhs => rw [hpre, hpost]
  rw [List.append_assoc, List.append_assoc, bare_append (b := _ ++ _), bare_replicate_append j (hhead _),
    ← List.append_assoc _ (List.replicate m l), bare_append (b := following post δ), bare_append_replicate m hlast,
    bare_of_chain hchain, List.append_assoc]
  · -- what repeats the last entry ends with it
    intro x hx heq
    refine hseam' ?_
    have hx : x = l := by
      rw [List.getLast?_append, hlast] at hx
      cases m with
      | zero => exact (Option.some.inj hx).symm
      | succ m =>
        rw [List.replicate_succ', List.getLast?_concat] at hx
        exact (Option.some.inj hx).symm
    rw [heq, hx]
  · -- what the first entry repeats begins with it
    intro x hx heq
    refine hseam x hx ?_
    cases j with
    | zero => exact Option.some.inj (heq.symm.trans (hhead _))
    | succ j => exact (Option.some.inj heq).symm

/-! ### What copies are to a cursor -/

omit [DecidableEq H] in
theorem about_map [DecidableEq H] {f : H → Op H} (hf : ∀ y, (f y).key = y) {l : List H} (hn : l.Nodup) (x : H) :
    about x (l.map f) = if x ∈ l then [f x] else [] := by
  induction l with
  | nil => rfl
  | cons y l ih =>
    obtain ⟨hy, hn⟩ := List.nodup_cons.1 hn
    rw [List.map_cons]
    by_cases hxy : y = x
    · subst hxy
      rw [about_cons_of_eq (hf y), ih hn, if_neg hy, if_pos List.mem_cons_self]
    · rw [about_cons_of_ne (by rwa [hf]), ih hn]
      have hiff : x ∈ y :: l ↔ x ∈ l := by
        rw [List.mem_cons]
        exact ⟨fun h => h.resolve_left (Ne.symm hxy), .inr⟩
      simp only [hiff]

theorem about_ops {δ : Delta H} (hR : δ.retracted.Nodup) (hA : δ.added.Nodup) (x : H) :
    about x δ.ops =
      (if x ∈ δ.retracted then [Op.retract x] else []) ++ if x ∈ δ.added then [Op.add x] else [] := by
  unfold Delta.ops
  rw [about_append, about_map (fun _ => rfl) hR, about_map (fun _ => rfl) hA]

theorem about_copies (pre post : List (Op H)) (δ : Delta H) (k : ℕ) (x : H) :
    about x (copies pre post δ k) =
      about x pre ++ ((List.replicate k (about x δ.ops)).flatten ++ about x post) := by
  unfold copies about
  rw [List.filter_append, List.filter_append, List.filter_flatten, List.map_replicate, List.append_assoc]

/-- **A block taken back and added again** is told to a cursor once for each copy. -/
theorem apart_of_alike {pre post : List (Op H)} {δ : Delta H} {k : ℕ} (hR : δ.retracted.Nodup) (hA : δ.added.Nodup)
    (hk : 2 ≤ k) {skip : H → Bool} (hskip : ∀ x ∈ δ.added, skip x = false)
    (h : settle skip ∅ (copies pre post δ k) = settle skip ∅ (copies pre post δ 1)) :
    ∀ x ∈ δ.added, x ∉ δ.retracted := by
  intro x hxA hxR
  have habout := congrArg (about x) h
  rw [about_settle Iff.rfl, about_settle Iff.rfl, about_copies, about_copies, about_ops hR hA, if_pos hxR, if_pos hxA]
    at habout
  have hkey : ∀ l : List (Op H), ∀ o ∈ about x l, skip o.key = false := by
    intro l o ho
    rw [of_decide_eq_true (List.mem_filter.1 ho).2]
    exact hskip x hxA
  have hpair : ∀ o ∈ ([Op.retract x] ++ [Op.add x] : List (Op H)), skip o.key = false := by
    intro o ho
    have ho : o.key = x := by
      rcases List.mem_append.1 ho with ho | ho
      · rw [List.mem_singleton.1 ho, Op.key_retract]
      · rw [List.mem_singleton.1 ho, Op.key_add]
    rw [ho]
    exact hskip x hxA
  -- where the block is held, a copy is passed on whole and leaves it held
  have hagain : ∀ (T : Finset H), x ∈ T → ∀ j,
      settle skip T ((List.replicate j ([Op.retract x] ++ [Op.add x])).flatten ++ about x post) =
        (List.replicate j ([Op.retract x] ++ [Op.add x])).flatten ++ settle skip T (about x post) := by
    intro T hT j
    induction j with
    | zero => rfl
    | succ j ih =>
      rw [List.replicate_succ, List.flatten_cons, List.append_assoc, settle_append hpair, List.append_assoc]
      have hsame : held T ([Op.retract x] ++ [Op.add x]) = T := Finset.insert_erase hT
      have hwhole : settle skip T ([Op.retract x] ++ [Op.add x]) = [Op.retract x] ++ [Op.add x] := by
        rw [List.singleton_append, settle, if_pos hT, settle, if_neg (Finset.notMem_erase x T), hskip x hxA,
          Bool.false_and, if_neg Bool.false_ne_true]
        rfl
      rw [hsame, hwhole, ih]
  obtain ⟨j, rfl⟩ : ∃ j, k = j + 2 := ⟨k - 2, by omega⟩
  rw [settle_append (hkey pre), settle_append (hkey pre)] at habout
  have htail := List.append_cancel_left habout
  have hheld : x ∈ held (held ∅ (about x pre)) ([Op.retract x] ++ [Op.add x]) := Finset.mem_insert_self _ _
  rw [List.replicate_succ, List.flatten_cons, List.append_assoc, settle_append hpair, hagain _ hheld,
    List.replicate_one, List.flatten_singleton, settle_append hpair] at htail
  have hlength := congrArg List.length htail
  simp only [List.length_append, List.length_flatten, List.map_replicate, List.sum_replicate, List.length_singleton,
    smul_eq_mul] at hlength
  omega

/-- **A block that is taken back next** is skipped where it is added once, and told twice where it is
added again. -/
theorem stays_of_alike {pre post : List (Op H)} {δ : Delta H} {k : ℕ} (hR : δ.retracted.Nodup) (hA : δ.added.Nodup)
    (hk : 2 ≤ k) {x : H} (hxA : x ∈ δ.added) (hxR : x ∉ δ.retracted) (hpre : x ∉ held ∅ pre) {skip : H → Bool}
    (hskip : skip x = true)
    (h : settle skip ∅ (copies pre post δ k) = settle skip ∅ (copies pre post δ 1)) :
    Ledger.retractedLater x post = false := by
  by_contra hlater
  rw [Bool.not_eq_false] at hlater
  have habout := congrArg (about x) h
  rw [about_settle Iff.rfl, about_settle Iff.rfl, about_copies, about_copies, about_ops hR hA, if_neg hxR, if_pos hxA,
    List.nil_append] at habout
  have hkey : ∀ o ∈ about x pre, o.key = x := fun o ho => of_decide_eq_true (List.mem_filter.1 ho).2
  have hnot : x ∉ held ∅ (about x pre) := fun hmem => hpre ((held_about Iff.rfl).1 hmem)
  rw [settle_append_of_notHeld hkey (Finset.empty_subset _) hnot,
    settle_append_of_notHeld hkey (Finset.empty_subset _) hnot] at habout
  have htail := List.append_cancel_left habout
  obtain ⟨c, hc⟩ : ∃ c, about x post = .retract x :: c := by
    rw [← retractedLater_about] at hlater
    cases hpost : about x post with
    | nil =>
      rw [hpost] at hlater
      cases hlater
    | cons o c =>
      have ho : o.key = x := of_decide_eq_true (List.mem_filter.1 (hpost ▸ List.mem_cons_self : o ∈ about x post)).2
      rw [hpost] at hlater
      cases o with
      | add y =>
        rw [Op.key_add] at ho
        rw [Ledger.retractedLater, if_pos ho] at hlater
        cases hlater
      | retract y =>
        rw [Op.key_retract] at ho
        exact ⟨c, by rw [ho]⟩
  obtain ⟨j, rfl⟩ : ∃ j, k = j + 2 := ⟨k - 2, by omega⟩
  -- further copies are no news to a cursor that holds the block
  have hagain : ∀ j, settle skip {x} ((List.replicate j [Op.add x]).flatten ++ about x post) =
      settle skip {x} (about x post) := by
    intro j
    induction j with
    | zero => rfl
    | succ j ih =>
      rw [List.replicate_succ, List.flatten_cons, List.append_assoc, List.singleton_append, settle,
        if_pos (Finset.mem_singleton_self x), ih]
  have htwice : settle skip ∅ ((List.replicate (j + 2) [Op.add x]).flatten ++ about x post) =
      .add x :: .retract x :: settle skip ∅ c := by
    have hnone : Ledger.retractedLater x ((List.replicate (j + 1) [Op.add x]).flatten ++ about x post) = false := by
      rw [List.replicate_succ, List.flatten_cons, List.append_assoc, List.singleton_append, Ledger.retractedLater,
        if_pos rfl]
    rw [List.replicate_succ, List.flatten_cons, List.append_assoc, List.singleton_append, settle,
      if_neg (Finset.notMem_empty x), hnone, Bool.and_false, if_neg Bool.false_ne_true, insert_empty_eq, hagain, hc,
      settle, if_pos (Finset.mem_singleton_self x), Finset.erase_singleton]
  have honce : settle skip ∅ ((List.replicate 1 [Op.add x]).flatten ++ about x post) = settle skip ∅ c := by
    rw [List.replicate_one, List.flatten_singleton, List.singleton_append, settle, if_neg (Finset.notMem_empty x), hskip,
      Bool.true_and, hc, Ledger.retractedLater, if_pos rfl, if_pos rfl,
      settle, if_neg (Finset.notMem_empty x)]
  rw [htwice, honce] at htail
  have hlength := congrArg List.length htail
  simp only [List.length_cons] at hlength
  omega

/-! ### When a delta may be appended again -/

variable {pre post : List (Op H)} {δ : Delta H}

/-- Where runs do not merge into news, equal runs are read alike. -/
theorem harmless_of_bare {k : ℕ} (hb : ∀ o ∈ pre ++ (δ.ops ++ post), C.Bearing o.key)
    (honce : RepeatsStale (copies pre post δ 1)) (hagain : RepeatsStale (copies pre post δ k))
    (hholding : holdingOf ((bare (copies pre post δ k)).map C.group) =
      holdingOf ((bare (copies pre post δ 1)).map C.group))
    (hwalk : ∀ n w, walk n w ((bare (copies pre post δ k)).map C.group) =
      walk n w ((bare (copies pre post δ 1)).map C.group)) : Harmless C pre post δ k := by
  have hgroups : ∀ k, groupStreamPerBlock (reappended C pre post δ k) = (runs (copies pre post δ k)).map C.run :=
    fun k => groupStream_runs fun o ho => hb o (mem_copies ho)
  refine ⟨fun coveredThrough finality => ?_, fun c d o => ?_⟩
  · unfold windowOfStoredStream
    rw [hgroups, hgroups, holding_bare hagain, holding_bare honce, hholding]
  · unfold generateStreamFromReplay
    rw [hgroups, hgroups, walk_bare hagain, walk_bare honce, hwalk]

/-- **What alike replays tell alike**: the news of the runs, to a cursor with an empty window. -/
theorem settle_of_harmless {k : ℕ} (hb : ∀ o ∈ pre ++ (δ.ops ++ post), C.Bearing o.key)
    (honce : RepeatsStale (copies pre post δ 1)) (hagain : RepeatsStale (copies pre post δ k))
    (h : Harmless C pre post δ k) (n : ℕ) : settle (C.settledAt n) ∅ (bare (copies pre post δ k)) =
      settle (C.settledAt n) ∅ (bare (copies pre post δ 1)) := by
  have hown : ∀ k, ∀ o ∈ copies pre post δ k, C.Bearing o.key := fun k o ho => hb o (mem_copies ho)
  have hsettled : ∀ k, ∀ o ∈ settle (C.settledAt n) ∅ (bare (copies pre post δ k)), C.Bearing o.key := fun k o ho =>
    hown k o (mem_of_mem_bare (settle_sublist.subset ho))
  obtain ⟨r, hr⟩ := (replay_ok_iff (⟨0, 0, n, []⟩ : LastSync H D) 0 (reappended C pre post δ k)
    ⟨0, getFromBlock (⟨0, 0, n, []⟩ : LastSync H D) 0 0, 0, 0⟩).2 rfl
  have hr' := hr
  rw [h.2] at hr'
  have hsame : (settle (C.settledAt n) ∅ (bare (copies pre post δ k))).flatMap C.emit =
      (settle (C.settledAt n) ∅ (bare (copies pre post δ 1))).flatMap C.emit := by
    have hmany := @replay_bare _ _ _ _ _ (hown k) hagain _ _ [] _ _ rfl List.nodup_nil hr
    have hfew := @replay_bare _ _ _ _ _ (hown 1) honce _ _ [] _ _ rfl List.nodup_nil hr'
    exact hmany.symm.trans hfew
  have hgroups := congrArg groupStreamPerBlock hsame
  rw [Chain.groupStream_emit (hsettled k) legal_settle.chain,
    Chain.groupStream_emit (hsettled 1) legal_settle.chain] at hgroups
  have hops := congrArg (List.map StreamBlock.op) hgroups
  rwa [map_group_op, map_group_op] at hops

/-- What repeats an addition at the end of a delta was held before the delta. -/
theorem held_of_repeated (hn : δ.ops.Nodup) (hapart : ∀ x ∈ δ.added, x ∉ δ.retracted)
    (hends : ∀ a ∈ δ.ops.getLast?, ∀ b ∈ δ.ops.head?, a ≠ b) (honce : RepeatsStale (copies pre post δ 1)) {x : H}
    (hlast : δ.ops.getLast? = some (.add x)) (hpost : post.head? = some (.add x)) :
    x ∈ held ∅ (preceding pre δ) := by
  obtain ⟨body, hbody⟩ := List.getLast?_eq_some_iff.1 hlast
  have hne : body ≠ [] := by
    intro hnil
    rw [hnil, List.nil_append] at hbody
    exact hends (.add x) hlast (.add x) (by rw [hbody]; rfl) rfl
  obtain ⟨rest, rfl⟩ : ∃ rest, post = .add x :: rest := by
    cases post with
    | nil => cases hpost
    | cons o rest => exact ⟨rest, by rw [Option.some.inj hpost]⟩
  have hfresh : Op.add x ∉ body := by
    rw [hbody, List.nodup_append] at hn
    exact fun hmem => hn.2.2 _ hmem _ (List.mem_singleton_self _) rfl
  have hkey : ∀ o ∈ body, x ≠ o.key := by
    intro o ho heq
    have hmem : o ∈ δ.ops := hbody ▸ List.mem_append_left _ ho
    unfold Delta.ops at hmem
    rcases List.mem_append.1 hmem with hmem | hmem
    · obtain ⟨y, hy, rfl⟩ := List.mem_map.1 hmem
      rw [Op.key_retract] at heq
      subst heq
      have hxA : Op.add x ∈ δ.ops := List.mem_of_getLast? hlast
      unfold Delta.ops at hxA
      simp at hxA
      exact hapart x hxA hy
    · obtain ⟨y, -, rfl⟩ := List.mem_map.1 hmem
      rw [Op.key_add] at heq
      exact hfresh (heq ▸ ho)
  -- the run the entry makes with what repeats it
  have hsplit : copies pre (.add x :: rest) δ 1 = (pre ++ body) ++ (List.replicate 1 (.add x) ++ .add x :: rest) := by
    rw [copies_one, hbody]
    simp only [List.append_assoc, List.replicate_one]
  have hseam : ∀ o ∈ (pre ++ body).getLast?, (List.replicate 1 (Op.add x) ++ .add x :: rest).head? ≠ some o := by
    intro o ho heq
    rw [List.getLast?_append_of_ne_nil _ hne] at ho
    rw [← Option.some.inj heq] at ho
    exact hfresh (List.mem_of_getLast? ho)
  obtain ⟨n, rs, hrs⟩ := runs_replicate_append 1 (Op.add x) rest
  have hstale : x ∈ held ∅ (bare (pre ++ body)) :=
    honce (runs (pre ++ body)) (.add x) (n + 1 + 1) rs (by rw [hsplit, runs_append hseam, hrs]) (by omega)
  rw [held_bare, held_append, mem_held_of_not_key (by
    intro hmem
    obtain ⟨o, ho, heq⟩ := List.mem_map.1 hmem
    exact hkey o ho heq.symm)] at hstale
  cases hhead : δ.ops.head? with
  | none =>
    rw [hbody] at hhead
    simp at hhead
  | some o =>
    obtain ⟨j, hpre, -⟩ := preceding_split hhead pre
    have ho : o ∈ body := by
      rw [hbody, List.head?_append_of_ne_nil _ hne] at hhead
      exact List.mem_of_head? hhead
    rw [hpre, held_append, mem_held_of_not_key (by
      intro hmem
      obtain ⟨o', ho', heq⟩ := List.mem_map.1 hmem
      rw [List.eq_of_mem_replicate ho'] at heq
      exact hkey o ho heq.symm)] at hstale
    exact hstale

/-- What the entries after a delta say next of a block it adds. -/
theorem retractedLater_following (hapart : ∀ x ∈ δ.added, x ∉ δ.retracted) {x : H} (hx : x ∈ δ.added) {l : Op H}
    (hl : δ.ops.getLast? = some l) : Ledger.retractedLater x post = Ledger.retractedLater x (following post δ) ∨
      Ledger.retractedLater x post = false ∧ post.head? = some (.add x) ∧ δ.ops.getLast? = some (.add x) := by
  obtain ⟨m, hpost, -⟩ := following_split hl post
  cases m with
  | zero => exact .inl (by rw [List.replicate_zero, List.nil_append] at hpost; exact congrArg _ hpost)
  | succ m =>
    have hlater := retractedLater_replicate x l m (following post δ)
    rw [← hpost] at hlater
    have hmem : l ∈ δ.ops := List.mem_of_getLast? hl
    unfold Delta.ops at hmem
    cases l with
    | retract y =>
      have hy : y ∈ δ.retracted := by simpa using hmem
      have hne : y ≠ x := fun heq => hapart x hx (heq ▸ hy)
      rw [Ledger.retractedLater, if_neg hne] at hlater
      exact .inl hlater
    | add y =>
      rw [Ledger.retractedLater] at hlater
      by_cases heq : y = x
      · subst heq
        rw [if_pos rfl] at hlater
        exact .inr ⟨hlater, by rw [hpost]; rfl, hl⟩
      · rw [if_neg heq] at hlater
        exact .inl hlater

/-- **A delta may be appended again** just where every reader is told the same by `k` copies as by
one, and every log once per application: neither one copy nor `k` repeat at once what is news, the
delta takes back nothing it adds, and nothing it adds anew is taken back next. Genesis carries no
logs. -/
theorem reappended_iff {k : ℕ} (hb : ∀ o ∈ pre ++ (δ.ops ++ post), C.Bearing o.key)
    (hpos : ∀ o ∈ pre ++ (δ.ops ++ post), 0 < C.numberOf o.key) (hR : δ.retracted.Nodup) (hA : δ.added.Nodup)
    (hk : 2 ≤ k) :
    Harmless C pre post δ k ∧ OncePerApplication C (reappended C pre post δ k) ↔ Reappendable pre post δ k := by
  have hn := ops_nodup hR hA
  have hone : ∀ k, ∀ o ∈ copies pre post δ k, C.Bearing o.key := fun k o ho => hb o (mem_copies ho)
  obtain ⟨i, rfl⟩ : ∃ i, k = i + 2 := ⟨k - 2, by omega⟩
  constructor
  · rintro ⟨hharmless, hlogs⟩
    have hagain : RepeatsStale (copies pre post δ (i + 2)) :=
      repeatsStale_of_once (hone _) (fun o ho => hpos o (mem_copies ho)) hlogs
    have honce : RepeatsStale (copies pre post δ 1) := by
      refine repeatsStale_of_once (C := C) (hone _) (fun o ho => hpos o (mem_copies ho)) fun c d ws o r hc hws hr => ?_
      refine hlogs c d ws o r hc hws ?_
      rw [hharmless.2]
      exact hr
    have hsettle := settle_of_harmless hb honce hagain hharmless
    by_cases hsingle : ∃ o, δ.ops = [o]
    · obtain ⟨o, hops⟩ := hsingle
      obtain ⟨n, rs, hrs⟩ := (@runs_single _ _ pre post _ _ hops (i + 1)).2
      have hstale : Stale (bare (preceding pre δ)) o := hagain _ o _ rs hrs (by omega)
      refine ⟨honce, hagain, fun x hxA hxR => ?_, fun x hxA hnew => ?_⟩
      · have hlength := congrArg List.length hops
        have hlenA := List.length_pos_of_mem hxA
        have hlenR := List.length_pos_of_mem hxR
        unfold Delta.ops at hlength
        rw [List.length_append, List.length_map, List.length_map, List.length_singleton] at hlength
        omega
      · have hmem : Op.add x ∈ δ.ops := List.mem_append_right _ (List.mem_map.2 ⟨x, hxA, rfl⟩)
        rw [hops] at hmem
        rw [← List.mem_singleton.1 hmem] at hstale
        have hheld : x ∈ held ∅ (bare (preceding pre δ)) := hstale
        rw [held_bare] at hheld
        exact absurd hheld hnew
    · have hends := ends_ne hn fun o ho => hsingle ⟨o, ho⟩
      have hmem : ∀ x ∈ δ.added, Op.add x ∈ δ.ops := fun x hx => List.mem_append_right _ (List.mem_map.2 ⟨x, hx, rfl⟩)
      have hnumber : ∀ x ∈ δ.added, 0 < C.numberOf x := fun x hx =>
        hpos (.add x) (List.mem_append_right _ (List.mem_append_left _ (hmem x hx)))
      have hcopies : ∀ x ∈ δ.added, ∀ n, settle (C.settledAt n) ∅
            (copies (bare (preceding pre δ)) (bare (following post δ)) δ (i + 2)) =
          settle (C.settledAt n) ∅ (copies (bare (preceding pre δ)) (bare (following post δ)) δ 1) := by
        intro x hx n
        have hne : δ.ops ≠ [] := List.ne_nil_of_mem (hmem x hx)
        have hsame := hsettle n
        rwa [bare_copies hn hne hends, bare_copies hn hne hends] at hsame
      have hapart : ∀ x ∈ δ.added, x ∉ δ.retracted := by
        intro x hx
        refine apart_of_alike hR hA hk (fun y hy => ?_) (hcopies x hx 0) x hx
        exact decide_eq_false (not_le.2 (hnumber y hy))
      refine ⟨honce, hagain, hapart, fun x hx hnew => ?_⟩
      have hstays := stays_of_alike hR hA hk hx (hapart x hx) (by rwa [held_bare]) (decide_eq_true le_rfl)
        (hcopies x hx (C.numberOf x))
      rw [retractedLater_bare] at hstays
      obtain ⟨l, hl⟩ := Option.isSome_iff_exists.1 (List.getLast?_isSome.2 (List.ne_nil_of_mem (hmem x hx)))
      rcases @retractedLater_following _ _ post δ hapart _ hx _ hl with hsame | ⟨hno, -⟩
      · rw [hsame, hstays]
      · exact hno
  · intro h
    refine ⟨?_, once_of_repeatsStale (hone _) h.again⟩
    by_cases hsingle : ∃ o, δ.ops = [o]
    · obtain ⟨o, hops⟩ := hsingle
      have hbare : bare (copies pre post δ (i + 2)) = bare (copies pre post δ 1) :=
        (runs_single hops (i + 1)).1.trans (runs_single hops 0).1.symm
      exact harmless_of_bare hb h.once h.again (by rw [hbare]) fun n w => by rw [hbare]
    · by_cases hne : δ.ops = []
      · have hbare : bare (copies pre post δ (i + 2)) = bare (copies pre post δ 1) := by
          unfold copies
          rw [hne, List.flatten_replicate_nil, List.flatten_replicate_nil]
        exact harmless_of_bare hb h.once h.again (by rw [hbare]) fun n w => by rw [hbare]
      · have hends := ends_ne hn fun o ho => hsingle ⟨o, ho⟩
        have hbare := fun k => @bare_copies _ _ pre post _ hn hne hends k
        obtain ⟨l, hl⟩ := Option.isSome_iff_exists.1 (List.getLast?_isSome.2 hne)
        have hstays : ∀ x ∈ δ.added, x ∉ held ∅ (bare (preceding pre δ)) →
            Ledger.retractedLater x (bare (following post δ)) = false := by
          intro x hx hnew
          rw [held_bare] at hnew
          rw [retractedLater_bare]
          rcases @retractedLater_following _ _ post δ h.apart _ hx _ hl with hsame | ⟨-, hhead, hlast⟩
          · rw [← hsame]
            exact h.stays x hx hnew
          · exact absurd (held_of_repeated hn h.apart hends h.once hlast hhead) hnew
        refine harmless_of_bare hb h.once h.again ?_ fun n w => ?_
        · rw [hbare (i + 1), hbare 0]
          exact holding_copies h.apart (i + 1)
        · rw [hbare (i + 1), hbare 0]
          exact walk_copies hA h.apart hstays (i + 1) n w

/-- A reorg at height `5`, appended three times. -/
theorem reappended_reorg :
    Harmless (Chain.oneLog (· % 100) fun _ => true) [.add 3, .add 5] [] ⟨[5], [105]⟩ 3 ∧
      OncePerApplication (Chain.oneLog (· % 100) fun _ => true)
        (reappended (Chain.oneLog (· % 100) fun _ => true) [.add 3, .add 5] [] ⟨[5], [105]⟩ 3) := by
  refine (reappended_iff (by decide) (by decide) (by decide) (by decide) (by decide)).2 ⟨?_, ?_, by decide, by decide⟩
  · exact repeatsStale_of_chain (by decide)
  · exact repeatsStale_of_chain (by decide)

/-- **A delta of one block is read as one block with its logs twice.** The receiver derives it again
from the cursor a failed fold left where it was, and both readers of the stream see the difference. -/
theorem reappended_block :
    StreamBuilder.receive ⟨(), 0, 3⟩ .fresh ⟨(), 0, 5, 5, [⟨3, 3, 0, false, ()⟩]⟩ =
        .ok ⟨[⟨3, 3, 0, false, ()⟩], ⟨0, 5, 5, [⟨3, 3, [⟨3, 3, 0, false, ()⟩]⟩]⟩, none⟩ ∧
      reappended (Chain.oneLog (· % 100) fun _ => true) [] [] ⟨[], [3]⟩ 2 =
        [⟨3, 3, 0, false, ()⟩] ++ [⟨3, 3, 0, false, ()⟩] ∧
      windowOfStoredStream (reappended (Chain.oneLog (· % 100) fun _ => true) [] [] ⟨[], [3]⟩ 2) 5 3 =
        [⟨3, 3, [⟨3, 3, 0, false, ()⟩, ⟨3, 3, 0, false, ()⟩]⟩] ∧
      ¬Harmless (Chain.oneLog (· % 100) fun _ => true) [] [] ⟨[], [3]⟩ 2 ∧
      ¬OncePerApplication (Chain.oneLog (· % 100) fun _ => true)
        (reappended (Chain.oneLog (· % 100) fun _ => true) [] [] ⟨[], [3]⟩ 2) := by
  refine ⟨rfl, rfl, rfl, fun h => ?_, fun h => ?_⟩
  · have hwindow := h.1 5 3
    revert hwindow
    decide
  · have hlegal := h .fresh 0 [] ⟨5, 0, 5, 3⟩ _ rfl List.nodup_nil rfl
    have htwice : Legal ∅ [.add ((3 : ℕ), 0), .add (3, 0)] := hlegal
    exact htwice.2.1 (Finset.mem_insert_self _ _)

end Etherfold
