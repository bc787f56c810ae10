import Etherfold.Engine.Replay

/-!
# The window of a stored stream

A stream keeps no window. Whoever needs it walks the rows: an applied block enters, a
retracted one leaves, and finality drops what is deep at the end.

* `windowOfStoredStream`: the walk of the source.
* `walkUntil`: a replay up to a point of the stream, with the runs still to come.
* `walk_append`: **a replay goes on from where it is**.
* `live_of_held`, `dead_of_notHeld`: what the replay holds there.
-/

namespace Etherfold

open Ledger

variable {H D : Type}

/-- The blocks held by hash, and the hashes in the order they entered. -/
structure Holding (H D : Type) where
  live : H → Option (EventBlock H D)
  order : List H

variable [DecidableEq H]

/-- One run of a stored stream. -/
def Holding.step (w : Holding H D) (group : StreamBlock H D) : Holding H D :=
  if group.removed then { w with live := Function.update w.live group.hash none }
  else if (w.live group.hash).isSome then w
  else
    { live := Function.update w.live group.hash (some ⟨group.hash, group.number, group.events⟩)
      order := w.order ++ [group.hash] }

/-- What the runs of a stored stream leave held. -/
def holdingOf (groups : List (StreamBlock H D)) : Holding H D :=
  groups.foldl Holding.step ⟨fun _ => none, []⟩

/-- **The unconfirmed window of a stored stream.** -/
def windowOfStoredStream (storedStream : List (LogEvent H D)) (coveredThrough finality : ℕ) :
    List (EventBlock H D) :=
  sortBlocks (survivors (holdingOf (groupStreamPerBlock storedStream)).live coveredThrough finality []
    (holdingOf (groupStreamPerBlock storedStream)).order)

/-! ### The replay, up to a point -/

/-- The entry a run makes in a ledger. -/
def StreamBlock.op (g : StreamBlock H D) : Op H := if g.removed then .retract g.hash else .add g.hash

omit [DecidableEq H] in
@[simp] theorem StreamBlock.op_key (g : StreamBlock H D) : g.op.key = g.hash := by
  unfold StreamBlock.op
  split <;> rfl

omit [DecidableEq H] in
@[simp] theorem Chain.group_op {C : Chain H D} (o : Op H) : (C.group o).op = o := by
  cases o <;> rfl

/-- The replay over `groups`, with `later` still to come. -/
def walkUntil (lastToBlock : ℕ) : Walk H D → List (StreamBlock H D) → List (StreamBlock H D) → Walk H D
  | w, [], _ => w
  | w, group :: groups, later => walkUntil lastToBlock (w.step lastToBlock group (groups ++ later)) groups later

variable {n : ℕ} {w : Walk H D} {gs later later' : List (StreamBlock H D)} {x : H}

theorem walk_append (n : ℕ) (w : Walk H D) (gs later : List (StreamBlock H D)) :
    walk n w (gs ++ later) = walk n (walkUntil n w gs later) later := by
  induction gs generalizing w with
  | nil => rfl
  | cons g gs ih => exact ih _

theorem walkUntil_append (n : ℕ) (w : Walk H D) (gs gs' later : List (StreamBlock H D)) :
    walkUntil n w (gs ++ gs') later = walkUntil n (walkUntil n w gs (gs' ++ later)) gs' later := by
  induction gs generalizing w with
  | nil => rfl
  | cons g gs ih =>
    rw [List.cons_append, walkUntil, walkUntil, List.append_assoc]
    exact ih _

theorem retractedLater_append (x : H) (gs later : List (StreamBlock H D)) :
    retractedLater x (gs ++ later) =
      if x ∈ gs.map (·.hash) then retractedLater x gs else retractedLater x later := by
  induction gs with
  | nil => rfl
  | cons g gs ih =>
    rw [List.cons_append, retractedLater, retractedLater, ih]
    by_cases hg : g.hash = x
    · simp [hg]
    · have hne : x ≠ g.hash := fun h => hg h.symm
      simp [hg, hne]

/-- What is still to come matters only for the blocks added here. -/
theorem walkUntil_congr (h : ∀ g ∈ gs, g.removed = false → retractedLater g.hash later = retractedLater g.hash later') :
    walkUntil n w gs later = walkUntil n w gs later' := by
  induction gs generalizing w with
  | nil => rfl
  | cons g gs ih =>
    have hstep : w.step n g (gs ++ later) = w.step n g (gs ++ later') := by
      unfold Walk.step
      cases hr : g.removed with
      | true => rfl
      | false => rw [retractedLater_append, retractedLater_append, h g List.mem_cons_self hr]
    rw [walkUntil, walkUntil, hstep]
    exact ih fun g' hg' => h g' (List.mem_cons_of_mem _ hg')

/-- One run leaves the other blocks as they were. -/
theorem step_live_of_ne (g : StreamBlock H D) (hne : x ≠ g.hash) : (w.step n g later).live x = w.live x := by
  unfold Walk.step
  split
  · split
    · rfl
    · exact Function.update_of_ne hne _ _
  · split
    · rfl
    · split
      · rfl
      · exact Function.update_of_ne hne _ _

/-- A retraction leaves its block dead. -/
theorem step_live_removed {g : StreamBlock H D} (hr : g.removed = true) : (w.step n g later).live g.hash = none := by
  unfold Walk.step
  rw [if_pos hr]
  split
  · rename_i hnone
    exact Option.isNone_iff_eq_none.1 hnone
  · exact Function.update_self _ _ _

/-- An addition leaves its block held, unless it is skipped for a retraction to come. -/
theorem step_live_added {g : StreamBlock H D} (hr : g.removed = false)
    (hskip : n < g.number ∨ retractedLater g.hash later = false) : ((w.step n g later).live g.hash).isSome = true := by
  unfold Walk.step
  rw [if_neg (by simp [hr])]
  split
  · assumption
  · split
    · rename_i hs
      rw [Bool.and_eq_true, decide_eq_true_eq] at hs
      rcases hskip with hlt | hno
      · omega
      · rw [hno] at hs
        exact absurd hs.2 Bool.false_ne_true
    · dsimp only
      rw [Function.update_self]
      rfl

/-- **The last word is an addition**: the block is held. -/
theorem live_of_held {S : Finset H} (hS : x ∈ S → (w.live x).isSome = true) (hx : x ∈ held S (gs.map StreamBlock.op))
    (hskip : (∀ g ∈ gs, g.hash = x → n < g.number) ∨ retractedLater x later = false) :
    ((walkUntil n w gs later).live x).isSome = true := by
  induction gs using List.reverseRecOn generalizing later with
  | nil => exact hS hx
  | append_singleton gs g ih =>
    rw [List.map_append, held_append] at hx
    rw [walkUntil_append]
    by_cases hg : g.hash = x
    · subst hg
      cases hr : g.removed with
      | true =>
        have hop : g.op = .retract g.hash := by
          unfold StreamBlock.op
          rw [if_pos hr]
        rw [List.map_singleton, hop] at hx
        exact absurd hx (Finset.notMem_erase _ _)
      | false =>
        refine step_live_added hr (hskip.imp (fun h => ?_) id)
        exact h g (List.mem_append_right _ (List.mem_singleton_self g)) rfl
    · have hne : x ≠ g.hash := fun h => hg h.symm
      have hlive := @step_live_of_ne _ _ _ n (walkUntil n w gs ([g] ++ later)) later x g hne
      have hrest : x ∈ held S (gs.map StreamBlock.op) := by
        rwa [mem_held_of_not_key] at hx
        simpa using hne
      have hbefore : ((walkUntil n w gs ([g] ++ later)).live x).isSome = true :=
        ih hrest (hskip.imp (fun h g' hg' => h g' (List.mem_append_left _ hg')) fun h => by
          rw [retractedLater_append, if_neg (by simpa using hne)]
          exact h)
      exact (congrArg Option.isSome hlive).trans hbefore

/-- **The last word is a retraction**, or there is none: the block is not held. -/
theorem dead_of_notHeld {S : Finset H} (hS : x ∉ S → w.live x = none) (hx : x ∉ held S (gs.map StreamBlock.op)) :
    (walkUntil n w gs later).live x = none := by
  induction gs using List.reverseRecOn generalizing later with
  | nil => exact hS hx
  | append_singleton gs g ih =>
    rw [List.map_append, held_append] at hx
    rw [walkUntil_append]
    by_cases hg : g.hash = x
    · subst hg
      cases hr : g.removed with
      | true => exact step_live_removed hr
      | false =>
        have hop : g.op = .add g.hash := by
          unfold StreamBlock.op
          rw [if_neg (by simp [hr])]
        rw [List.map_singleton, hop] at hx
        exact absurd (Finset.mem_insert_self _ _) hx
    · have hne : x ≠ g.hash := fun h => hg h.symm
      have hlive := @step_live_of_ne _ _ _ n (walkUntil n w gs ([g] ++ later)) later x g hne
      have hrest : x ∉ held S (gs.map StreamBlock.op) := by
        rwa [mem_held_of_not_key] at hx
        simpa using hne
      exact hlive.trans (ih hrest)

/-- **What is no news changes nothing**: retractions of blocks not held, additions of held ones. -/
theorem walkUntil_stale (h : ∀ g ∈ gs, (w.live g.hash).isSome = !g.removed) : walkUntil n w gs later = w := by
  induction gs with
  | nil => rfl
  | cons g gs ih =>
    have hg := h g List.mem_cons_self
    have hstep : w.step n g (gs ++ later) = w := by
      unfold Walk.step
      cases hr : g.removed with
      | true =>
        rw [hr] at hg
        rw [if_pos rfl, if_pos (by rw [Option.isNone_iff_eq_none]; simpa using hg)]
      | false =>
        rw [hr, Bool.not_false] at hg
        rw [if_neg Bool.false_ne_true, if_pos hg]
    rw [walkUntil, hstep]
    exact ih fun g' hg' => h g' (List.mem_cons_of_mem _ hg')

theorem foldl_step_stale {v : Holding H D} (h : ∀ g ∈ gs, (v.live g.hash).isSome = !g.removed) :
    gs.foldl Holding.step v = v := by
  induction gs with
  | nil => rfl
  | cons g gs ih =>
    have hg := h g List.mem_cons_self
    have hstep : v.step g = v := by
      unfold Holding.step
      cases hr : g.removed with
      | true =>
        rw [hr] at hg
        have hnone : v.live g.hash = none := by simpa using hg
        rw [if_pos rfl, ← hnone, Function.update_eq_self]
      | false =>
        rw [hr, Bool.not_false] at hg
        rw [if_neg Bool.false_ne_true, if_pos hg]
    rw [List.foldl_cons, hstep]
    exact ih fun g' hg' => h g' (List.mem_cons_of_mem _ hg')

/-- The walk of the window holds what its ledger holds. -/
theorem holding_isSome {v : Holding H D} {S : Finset H} (hS : ∀ x, (v.live x).isSome = true ↔ x ∈ S) (x : H) :
    ((gs.foldl Holding.step v).live x).isSome = true ↔ x ∈ held S (gs.map StreamBlock.op) := by
  induction gs generalizing v S with
  | nil => exact hS x
  | cons g gs ih =>
    rw [List.foldl_cons, List.map_cons]
    have hheld : held S (g.op :: gs.map StreamBlock.op) = held (apply S g.op) (gs.map StreamBlock.op) := rfl
    rw [hheld]
    refine ih fun y => ?_
    unfold Holding.step StreamBlock.op
    cases hr : g.removed with
    | true =>
      rw [if_pos rfl, if_pos rfl, apply, Finset.mem_erase, ← hS]
      by_cases hy : y = g.hash
      · simp [hy]
      · simp [hy]
    | false =>
      rw [if_neg Bool.false_ne_true, if_neg Bool.false_ne_true, apply, Finset.mem_insert, ← hS]
      split
      · rename_i hlive
        refine ⟨fun h => .inr h, fun h => ?_⟩
        rcases h with rfl | h
        · exact hlive
        · exact h
      · by_cases hy : y = g.hash
        · simp [hy]
        · simp [hy]

/-! ### What the window of a stream lists -/

/-- Blocks are held under their own hash, and every held hash entered. -/
structure Holding.Ok (v : Holding H D) : Prop where
  own : ∀ x b, v.live x = some b → b.hash = x
  listed : ∀ x, (v.live x).isSome = true → x ∈ v.order

theorem Holding.step_of_ne (v : Holding H D) {g : StreamBlock H D} (hne : x ≠ g.hash) :
    (v.step g).live x = v.live x := by
  unfold Holding.step
  split
  · exact Function.update_of_ne hne _ _
  · split
    · rfl
    · exact Function.update_of_ne hne _ _

theorem Holding.step_removed (v : Holding H D) {g : StreamBlock H D} (hr : g.removed = true) :
    (v.step g).live g.hash = none := by
  unfold Holding.step
  rw [if_pos hr]
  exact Function.update_self _ _ _

theorem Holding.step_added (v : Holding H D) {g : StreamBlock H D} (hr : g.removed = false) :
    (v.step g).live g.hash = some ((v.live g.hash).getD g.toEventBlock) := by
  unfold Holding.step
  rw [if_neg (by simp [hr])]
  split
  · rename_i hlive
    obtain ⟨b, hb⟩ := Option.isSome_iff_exists.1 hlive
    rw [hb]
    rfl
  · rename_i hlive
    rw [Option.not_isSome_iff_eq_none.1 hlive]
    exact Function.update_self _ _ _

theorem Holding.Ok.step {v : Holding H D} (h : v.Ok) (g : StreamBlock H D) : (v.step g).Ok := by
  refine ⟨fun x b hb => ?_, fun x hx => ?_⟩
  · by_cases hne : x = g.hash
    · subst hne
      cases hr : g.removed with
      | true =>
        rw [v.step_removed hr] at hb
        cases hb
      | false =>
        rw [v.step_added hr] at hb
        cases hlive : v.live g.hash with
        | none =>
          rw [hlive] at hb
          rw [← Option.some.inj hb]
          rfl
        | some b' =>
          rw [hlive] at hb
          rw [← Option.some.inj hb]
          exact h.own _ _ hlive
    · rw [v.step_of_ne hne] at hb
      exact h.own x b hb
  · have hgrows : ∀ y ∈ v.order, y ∈ (v.step g).order := by
      intro y hy
      unfold Holding.step
      split
      · exact hy
      · split
        · exact hy
        · exact List.mem_append_left _ hy
    by_cases hne : x = g.hash
    · subst hne
      cases hr : g.removed with
      | true =>
        rw [v.step_removed hr] at hx
        cases hx
      | false =>
        by_cases hlive : (v.live g.hash).isSome = true
        · exact hgrows _ (h.listed _ hlive)
        · unfold Holding.step
          rw [if_neg (by simp [hr]), if_neg hlive]
          exact List.mem_append_right _ (List.mem_singleton_self _)
    · rw [v.step_of_ne hne] at hx
      exact hgrows x (h.listed x hx)

theorem holdingOf_ok (gs : List (StreamBlock H D)) : (holdingOf gs).Ok := by
  have hgo : ∀ (gs : List (StreamBlock H D)) (v : Holding H D), v.Ok → (gs.foldl Holding.step v).Ok := by
    intro gs
    induction gs with
    | nil => exact fun v hv => hv
    | cons g gs ih => exact fun v hv => ih _ (hv.step g)
  refine hgo gs _ ⟨fun x b hb => ?_, fun x hx => ?_⟩
  · cases hb
  · cases hx

/-- What finality leaves of the blocks held, each once. -/
theorem mem_survivors {live : H → Option (EventBlock H D)} (hown : ∀ x b, live x = some b → b.hash = x)
    {coveredThrough finality : ℕ} (kept order : List H) :
    (∀ b, b ∈ survivors live coveredThrough finality kept order ↔
      live b.hash = some b ∧ b.hash ∈ order ∧ b.hash ∉ kept ∧ coveredThrough - b.number ≤ finality) ∧
    ((survivors live coveredThrough finality kept order).map (·.hash)).Nodup := by
  induction order generalizing kept with
  | nil =>
    refine ⟨fun b => ?_, List.nodup_nil⟩
    simp [survivors]
  | cons y order ih =>
    unfold survivors
    cases hy : live y with
    | none =>
      dsimp only
      obtain ⟨hmem, hn⟩ := ih kept
      refine ⟨fun b => ?_, hn⟩
      rw [hmem, List.mem_cons]
      have hne : live b.hash = some b → b.hash ≠ y := by
        intro hb heq
        rw [heq, hy] at hb
        cases hb
      tauto
    | some block =>
      dsimp only
      have hhash := hown y block hy
      by_cases hk : y ∈ kept
      · rw [if_pos hk]
        obtain ⟨hmem, hn⟩ := ih kept
        refine ⟨fun b => ?_, hn⟩
        rw [hmem, List.mem_cons]
        have hne : b.hash ∉ kept → b.hash ≠ y := fun hb heq => hb (heq ▸ hk)
        tauto
      · rw [if_neg hk]
        obtain ⟨hmem, hn⟩ := ih (y :: kept)
        have hsame : ∀ b : EventBlock H D, live b.hash = some b → b.hash = y → b = block := by
          intro b hb heq
          rw [heq, hy] at hb
          exact (Option.some.inj hb).symm
        split
        · rename_i hf
          refine ⟨fun b => ?_, ?_⟩
          · rw [List.mem_cons, hmem, List.mem_cons, List.mem_cons]
            constructor
            · rintro (rfl | ⟨hb, ho, hnot, hfin⟩)
              · rw [hhash]
                exact ⟨hy, .inl rfl, hk, hf⟩
              · exact ⟨hb, .inr ho, fun h => hnot (.inr h), hfin⟩
            · rintro ⟨hb, ho, hnot, hfin⟩
              by_cases heq : b.hash = y
              · exact .inl (hsame b hb heq)
              · exact .inr ⟨hb, ho.resolve_left heq, not_or.2 ⟨heq, hnot⟩, hfin⟩
          · rw [List.map_cons, List.nodup_cons]
            refine ⟨fun hin => ?_, hn⟩
            obtain ⟨b, hb, hbh⟩ := List.mem_map.1 hin
            exact ((hmem b).1 hb).2.2.1 (by rw [hbh, hhash]; exact List.mem_cons_self)
        · rename_i hf
          refine ⟨fun b => ?_, hn⟩
          rw [hmem, List.mem_cons, List.mem_cons]
          constructor
          · rintro ⟨hb, ho, hnot, hfin⟩
            exact ⟨hb, .inr ho, fun h => hnot (.inr h), hfin⟩
          · rintro ⟨hb, ho, hnot, hfin⟩
            have heq : b.hash ≠ y := by
              intro heq
              rw [hsame b hb heq] at hfin
              exact hf hfin
            exact ⟨hb, ho.resolve_left heq, not_or.2 ⟨heq, hnot⟩, hfin⟩

/-- **The window of a stream** lists the blocks held that finality does not drop, ascending. -/
theorem mem_windowOfStoredStream {es : List (LogEvent H D)} {coveredThrough finality : ℕ} {b : EventBlock H D} :
    b ∈ windowOfStoredStream es coveredThrough finality ↔
      (holdingOf (groupStreamPerBlock es)).live b.hash = some b ∧ coveredThrough - b.number ≤ finality := by
  have hok := holdingOf_ok (groupStreamPerBlock es)
  unfold windowOfStoredStream sortBlocks
  rw [List.mem_insertionSort, (mem_survivors hok.own [] _).1]
  constructor
  · rintro ⟨hb, -, -, hfin⟩
    exact ⟨hb, hfin⟩
  · rintro ⟨hb, hfin⟩
    exact ⟨hb, hok.listed _ (by rw [hb]; rfl), List.not_mem_nil, hfin⟩

/-- Runs of other blocks do not matter for what is held of one. -/
theorem holding_filter {q : StreamBlock H D → Bool} {x : H} (hq : ∀ g ∈ gs, g.hash = x → q g = true)
    {v v' : Holding H D} (h : v.live x = v'.live x) :
    ((gs.filter q).foldl Holding.step v).live x = (gs.foldl Holding.step v').live x := by
  induction gs generalizing v v' with
  | nil => exact h
  | cons g gs ih =>
    have hrest : ∀ g' ∈ gs, g'.hash = x → q g' = true := fun g' hg' => hq g' (List.mem_cons_of_mem _ hg')
    by_cases hg : g.hash = x
    · rw [List.filter_cons_of_pos (hq g List.mem_cons_self hg), List.foldl_cons, List.foldl_cons]
      refine ih hrest ?_
      subst hg
      cases hr : g.removed with
      | true => rw [v.step_removed hr, v'.step_removed hr]
      | false => rw [v.step_added hr, v'.step_added hr, h]
    · have hne : x ≠ g.hash := fun heq => hg heq.symm
      rw [List.foldl_cons]
      by_cases hkeep : q g = true
      · rw [List.filter_cons_of_pos hkeep, List.foldl_cons]
        exact ih hrest (by rw [v.step_of_ne hne, v'.step_of_ne hne, h])
      · rw [List.filter_cons_of_neg hkeep]
        exact ih hrest (by rw [v'.step_of_ne hne, h])

/-- A block whose runs are all left out is not held. -/
theorem holding_filter_none {q : StreamBlock H D → Bool} {x : H} (hq : ∀ g ∈ gs, g.hash = x → q g = false) :
    (holdingOf (gs.filter q)).live x = none := by
  have hnot : ∀ g ∈ gs.filter q, g.hash ≠ x := by
    intro g hg heq
    obtain ⟨hmem, hqg⟩ := List.mem_filter.1 hg
    rw [hq g hmem heq] at hqg
    cases hqg
  have hdead := (@holding_isSome _ _ _ (gs.filter q) ⟨fun _ => none, []⟩ ∅ (fun y => by simp) x).not
  unfold holdingOf
  rw [← Option.not_isSome_iff_eq_none, hdead]
  intro hx
  obtain ⟨o, ho, hox⟩ := List.mem_map.1 (mem_keys_of_mem_held hx)
  obtain ⟨g, hg, rfl⟩ := List.mem_map.1 ho
  exact hnot g hg ((StreamBlock.op_key g).symm.trans hox)

end Etherfold
