import Mathlib.Data.List.DropRight
import Etherfold.Engine.Stream

/-!
# Delivery batches

`batchStreamForDelivery` cuts a stream into batches on block boundaries: the retractions
at its front, then applications up to the batch size. Every batch but the last gets a
cursor narrowed to what it has folded.

* `Cut`: a batch as two runs, what it takes back and what it applies.
* `batches_eq_cuts`: **the batches are the cuts of the stream**.
* `reach`: how far a cut stream has folded.
-/

namespace Etherfold

variable {H D : Type}

/-- The entries of one call and the cursor persisted with them. -/
structure DeliveryBatch (H D : Type) where
  events : List (LogEvent H D)
  lastSync : LastSync H D
  deriving DecidableEq, Repr

/-- The cursor of a fold that is only through `blockNumber` yet. -/
def cursorSyncedThrough (lastSync : LastSync H D) (blockNumber : ℕ) : LastSync H D :=
  { lastSync with
    lastToBlock := blockNumber
    unconfirmedBlocks := lastSync.unconfirmedBlocks.filter (·.number ≤ blockNumber) }

/-- Applications join the batch while it is not full. -/
def fillBatch (batchSize : ℕ) : List (LogEvent H D) → List (StreamBlock H D) →
    List (LogEvent H D) × List (StreamBlock H D)
  | list, [] => (list, [])
  | list, g :: gs =>
    if !g.removed && list.length < batchSize then fillBatch batchSize (list ++ g.events) gs
    else (list, g :: gs)

/-- One batch and the runs left over: all retractions at the front, whatever the batch size. -/
def nextBatch (batchSize : ℕ) (eventsInGroups : List (StreamBlock H D)) :
    List (LogEvent H D) × List (StreamBlock H D) :=
  fillBatch batchSize ((eventsInGroups.takeWhile (·.removed)).flatMap (·.events))
    (eventsInGroups.dropWhile (·.removed))

/-- The block a batch folds through: its last applied one, or the fork point when it applies
none. -/
def foldedThrough (list : List (LogEvent H D)) : ℕ :=
  match (list.filter (!·.removed)).getLast? with
  | some event => event.blockNumber
  | none => (list.map (·.blockNumber)).min?.getD 0 - 1

/-- The batches of the runs left, at most `fuel` of them; each takes one run at least. -/
def batchGroups (newLastSync : LastSync H D) (batchSize : ℕ) :
    ℕ → List (StreamBlock H D) → List (DeliveryBatch H D)
  | 0, _ => []
  | _, [] => []
  | fuel + 1, g :: gs =>
    let batch := nextBatch batchSize (g :: gs)
    if batch.1.isEmpty then []
    else
      ⟨batch.1, if batch.2.isEmpty then newLastSync
        else cursorSyncedThrough newLastSync (foldedThrough batch.1)⟩ ::
        batchGroups newLastSync batchSize fuel batch.2

/-- **The batches of a stream.** -/
def batchStreamForDelivery [DecidableEq H] (eventStream : List (LogEvent H D))
    (newLastSync : LastSync H D) (batchSize : ℕ) : List (DeliveryBatch H D) :=
  batchGroups newLastSync batchSize (groupStreamPerBlock eventStream).length
    (groupStreamPerBlock eventStream)

/-! ### Batches as cuts -/

/-- A batch as the runs it takes back and the runs it applies. -/
structure Cut (H D : Type) where
  retracted : List (StreamBlock H D)
  applied : List (StreamBlock H D)

/-- The runs of a cut. -/
def Cut.groups (c : Cut H D) : List (StreamBlock H D) := c.retracted ++ c.applied

/-- The entries of a cut. -/
def Cut.events (c : Cut H D) : List (LogEvent H D) := c.groups.flatMap (·.events)

/-- A cut takes something, and applies only after it took back. -/
structure Cut.Ok (c : Cut H D) : Prop where
  groups_ne : c.groups ≠ []
  retracted : ∀ g ∈ c.retracted, g.removed = true
  applied : ∀ g ∈ c.applied, g.removed = false

/-- A cut that applies nothing has taken back all there was to take back. -/
def Cut.Next (c c' : Cut H D) : Prop := c.applied = [] → c'.retracted = []

/-- The cuts of a stream, with their cursors. -/
def batchesOf (newLastSync : LastSync H D) : List (Cut H D) → List (DeliveryBatch H D)
  | [] => []
  | [c] => [⟨c.events, newLastSync⟩]
  | c :: c' :: cs =>
    ⟨c.events, cursorSyncedThrough newLastSync (foldedThrough c.events)⟩ ::
      batchesOf newLastSync (c' :: cs)

variable {newLastSync : LastSync H D} {batchSize : ℕ}

theorem fillBatch_spec (list : List (LogEvent H D)) (gs : List (StreamBlock H D)) :
    ∃ pre post, gs = pre ++ post ∧ (∀ g ∈ pre, g.removed = false) ∧
      fillBatch batchSize list gs = (list ++ pre.flatMap (·.events), post) ∧
      (pre = [] → ∀ g ∈ post.head?, g.removed = false → batchSize ≤ list.length) := by
  induction gs generalizing list with
  | nil => exact ⟨[], [], rfl, by simp, by simp [fillBatch], by simp⟩
  | cons g gs ih =>
    by_cases hg : (!g.removed && list.length < batchSize) = true
    · obtain ⟨pre, post, hgs, hpre, hfill, -⟩ := ih (list ++ g.events)
      refine ⟨g :: pre, post, by rw [hgs, List.cons_append], ?_, ?_, by simp⟩
      · intro g' hg'
        rcases List.mem_cons.1 hg' with rfl | hg'
        · simpa using (Bool.and_eq_true_iff.1 hg).1
        · exact hpre g' hg'
      · rw [fillBatch, if_pos hg, hfill, List.flatMap_cons, List.append_assoc]
    · refine ⟨[], g :: gs, rfl, by simp, by rw [fillBatch, if_neg hg]; simp, ?_⟩
      intro _ g' hg' hlive
      simp only [List.head?_cons, Option.mem_def, Option.some.injEq] at hg'
      subst hg'
      simpa [hlive] using hg

/-- One batch is one cut. -/
theorem nextBatch_spec (hsize : 1 ≤ batchSize) {gs : List (StreamBlock H D)} (hne : gs ≠ []) :
    ∃ (c : Cut H D) (post : List (StreamBlock H D)), gs = c.groups ++ post ∧ c.Ok ∧
      nextBatch batchSize gs = (c.events, post) ∧
      (c.applied = [] → ∀ g ∈ post.head?, g.removed = false) := by
  obtain ⟨pre, post, hgs, hpre, hfill, hfull⟩ := @fillBatch_spec _ _ batchSize
    ((gs.takeWhile (·.removed)).flatMap (·.events)) (gs.dropWhile (·.removed))
  have hsplit : gs = gs.takeWhile (·.removed) ++ (pre ++ post) := by
    rw [← hgs, List.takeWhile_append_dropWhile]
  have hhead : ∀ g ∈ (gs.dropWhile (·.removed)).head?, g.removed = false := by
    intro g hg
    have := List.head?_dropWhile_not (·.removed) gs
    rw [Option.mem_def] at hg
    simpa [hg] using this
  refine ⟨⟨gs.takeWhile (·.removed), pre⟩, post, ?_, ⟨?_, fun g hg => List.mem_takeWhile_imp hg, hpre⟩,
    ?_, ?_⟩
  · rw [Cut.groups, List.append_assoc]
    exact hsplit
  · -- nothing taken back and nothing applied: the first run is an application, and the
    -- empty batch had room for it
    intro hnil
    obtain ⟨htake, rfl⟩ : gs.takeWhile (·.removed) = [] ∧ pre = [] := List.append_eq_nil_iff.1 hnil
    rw [htake, List.nil_append, List.nil_append] at hsplit
    obtain ⟨g, gs', rfl⟩ := List.exists_cons_of_ne_nil hne
    have hg := hhead g (by rw [hgs, List.nil_append, ← hsplit]; rfl)
    have := hfull rfl g (by rw [← hsplit]; rfl) hg
    rw [htake] at this
    simp at this
    omega
  · rw [nextBatch, hfill, Cut.events, Cut.groups, List.flatMap_append]
  · intro happ g hg
    obtain rfl : pre = [] := happ
    exact hhead g (by rw [hgs, List.nil_append]; exact hg)

/-- **The batches of a stream are its cuts**: together they are the stream. -/
theorem batchGroups_eq (hsize : 1 ≤ batchSize) {fuel : ℕ} {gs : List (StreamBlock H D)}
    (hok : ∀ g ∈ gs, g.events ≠ []) (hfuel : gs.length ≤ fuel) :
    ∃ cs : List (Cut H D), batchGroups newLastSync batchSize fuel gs = batchesOf newLastSync cs ∧
      cs.flatMap Cut.groups = gs ∧ (∀ c ∈ cs, c.Ok) ∧ cs.IsChain Cut.Next ∧
      ∀ c ∈ cs.head?, ∀ g ∈ c.retracted.head?, gs.head? = some g := by
  induction fuel generalizing gs with
  | zero =>
    obtain rfl : gs = [] := List.length_eq_zero_iff.1 (by omega)
    exact ⟨[], rfl, rfl, by simp, List.IsChain.nil, by simp⟩
  | succ fuel ih =>
    cases gs with
    | nil => exact ⟨[], rfl, rfl, by simp, List.IsChain.nil, by simp⟩
    | cons g gs =>
      obtain ⟨c, post, hgs, hc, hnext, hhead⟩ := nextBatch_spec hsize (List.cons_ne_nil g gs)
      have hlen : (g :: gs).length = c.groups.length + post.length := by rw [hgs, List.length_append]
      have hpos : 0 < c.groups.length := List.length_pos_iff.2 hc.groups_ne
      have hpost : ∀ g' ∈ post, g'.events ≠ [] := fun g' hg' =>
        hok g' (by rw [hgs]; exact List.mem_append_right _ hg')
      obtain ⟨cs, hbatches, hflat, hcs, hchain, hfirst⟩ := ih hpost (by omega)
      have hevents : c.events ≠ [] := by
        obtain ⟨g', gs', hg'⟩ := List.exists_cons_of_ne_nil hc.groups_ne
        have hne := hok g' (by rw [hgs, hg']; simp)
        rw [Cut.events, hg', List.flatMap_cons]
        exact List.append_ne_nil_of_left_ne_nil hne _
      have hempty : c.events.isEmpty = false := by simpa using hevents
      refine ⟨c :: cs, ?_, by rw [List.flatMap_cons, hflat, ← hgs], ?_, ?_, ?_⟩
      · rw [batchGroups, hnext]
        simp only [hempty, Bool.false_eq_true, if_false, hbatches]
        cases cs with
        | nil =>
          rw [List.flatMap_nil] at hflat
          subst hflat
          rfl
        | cons c' cs =>
          have hne : post ≠ [] := by
            rw [← hflat, List.flatMap_cons]
            exact List.append_ne_nil_of_left_ne_nil (hcs c' List.mem_cons_self).groups_ne _
          rw [if_neg (by simpa using hne), batchesOf]
      · intro c' hc'
        rcases List.mem_cons.1 hc' with rfl | hc'
        · exact hc
        · exact hcs c' hc'
      · cases cs with
        | nil => exact List.IsChain.singleton c
        | cons c' cs =>
          refine List.IsChain.cons_cons ?_ hchain
          -- what follows a cut without applications begins with one
          intro happ
          by_contra hne
          obtain ⟨r, rs, hr⟩ := List.exists_cons_of_ne_nil hne
          have hpost := hfirst c' rfl r (by rw [hr]; rfl)
          have hlive := hhead happ r hpost
          have hrem := (hcs c' List.mem_cons_self).retracted r (by rw [hr]; exact List.mem_cons_self)
          rw [hlive] at hrem
          cases hrem
      · intro c' hc' r hr
        simp only [List.head?_cons, Option.mem_def, Option.some.injEq] at hc'
        subst hc'
        rw [hgs, Cut.groups, List.append_assoc]
        cases hret : c.retracted with
        | nil => rw [hret] at hr; cases hr
        | cons r' rs => rw [hret] at hr; exact hr

theorem batches_eq_cuts [DecidableEq H] (hsize : 1 ≤ batchSize) {es : List (LogEvent H D)}
    (hok : ∀ g ∈ groupStreamPerBlock es, g.events ≠ []) :
    ∃ cs : List (Cut H D), batchStreamForDelivery es newLastSync batchSize = batchesOf newLastSync cs ∧
      cs.flatMap Cut.groups = groupStreamPerBlock es ∧ (∀ c ∈ cs, c.Ok) ∧ cs.IsChain Cut.Next := by
  obtain ⟨cs, h1, h2, h3, h4, -⟩ := @batchGroups_eq _ _ newLastSync _ hsize _ _ hok le_rfl
  exact ⟨cs, h1, h2, h3, h4⟩

@[simp] theorem length_batchesOf (cs : List (Cut H D)) :
    (batchesOf newLastSync cs).length = cs.length := by
  fun_induction batchesOf newLastSync cs with
  | case1 => rfl
  | case2 => rfl
  | case3 c c' cs ih => simpa using ih

theorem map_events_batchesOf (cs : List (Cut H D)) :
    (batchesOf newLastSync cs).map (·.events) = cs.map Cut.events := by
  fun_induction batchesOf newLastSync cs with
  | case1 => rfl
  | case2 => rfl
  | case3 c c' cs ih => simpa using ih

/-- The cursor of a batch. -/
theorem lastSync_batchesOf {cs : List (Cut H D)} {j : ℕ} {b : DeliveryBatch H D} {c : Cut H D}
    (hb : (batchesOf newLastSync cs)[j]? = some b) (hc : cs[j]? = some c) :
    b.lastSync = if j + 1 = cs.length then newLastSync
      else cursorSyncedThrough newLastSync (foldedThrough c.events) := by
  induction cs generalizing j with
  | nil => simp at hc
  | cons c₀ cs ih =>
    cases cs with
    | nil =>
      cases j with
      | zero =>
        simp only [batchesOf, List.getElem?_cons_zero, Option.some.injEq] at hb
        subst hb
        rfl
      | succ j => simp at hc
    | cons c₁ cs =>
      cases j with
      | zero =>
        simp only [batchesOf, List.getElem?_cons_zero, Option.some.injEq] at hb hc
        subst hb hc
        rw [if_neg]
        simp
      | succ j =>
        rw [batchesOf, List.getElem?_cons_succ] at hb
        rw [List.getElem?_cons_succ] at hc
        rw [ih hb hc]
        simp

/-! ### How far a cut stream has folded -/

/-- **How far a stream that stops here has folded**: to its last applied block, or below the
retractions it ends with. -/
def reach (pre : List (LogEvent H D)) : ℕ :=
  match pre.getLast? with
  | some event =>
    if event.removed then foldedThrough (pre.rtakeWhile (·.removed)) else event.blockNumber
  | none => 0

/-- The entries of each run carry its verdict. -/
def Cut.Faithful (c : Cut H D) : Prop :=
  ∀ g ∈ c.groups, g.events ≠ [] ∧ ∀ e ∈ g.events, e.removed = g.removed

namespace Cut

variable {c : Cut H D} {P : List (LogEvent H D)}

theorem Faithful.retracted (hf : c.Faithful) (hc : c.Ok) :
    ∀ e ∈ c.retracted.flatMap (·.events), e.removed = true := by
  intro e he
  obtain ⟨g, hg, he⟩ := List.mem_flatMap.1 he
  rw [(hf g (List.mem_append_left _ hg)).2 e he, hc.retracted g hg]

theorem Faithful.applied (hf : c.Faithful) (hc : c.Ok) :
    ∀ e ∈ c.applied.flatMap (·.events), e.removed = false := by
  intro e he
  obtain ⟨g, hg, he⟩ := List.mem_flatMap.1 he
  rw [(hf g (List.mem_append_right _ hg)).2 e he, hc.applied g hg]

theorem events_eq : c.events = c.retracted.flatMap (·.events) ++ c.applied.flatMap (·.events) := by
  rw [events, groups, List.flatMap_append]

/-- The entries of a cut that applies something end with an applied one. -/
theorem exists_last (hf : c.Faithful) (hc : c.Ok) (happ : c.applied ≠ []) :
    ∃ es e, c.applied.flatMap (·.events) = es ++ [e] ∧ e.removed = false := by
  have hne : c.applied.flatMap (·.events) ≠ [] := by
    obtain ⟨g, gs, hg⟩ := List.exists_cons_of_ne_nil happ
    have hgne := (hf g (by rw [groups, hg]; simp)).1
    rw [hg, List.flatMap_cons]
    exact List.append_ne_nil_of_left_ne_nil hgne _
  obtain ⟨es, e, he⟩ := (List.eq_nil_or_concat _).resolve_left hne
  rw [List.concat_eq_append] at he
  refine ⟨es, e, he, hf.applied hc e ?_⟩
  rw [he]
  simp

/-- **How far a stream cut after `c` has folded is what `c` folds through.** -/
theorem reach_append (hf : c.Faithful) (hc : c.Ok)
    (hP : c.applied = [] → ∀ e ∈ P.getLast?, e.removed = false) :
    reach (P ++ c.events) = foldedThrough c.events := by
  by_cases happ : c.applied = []
  · have hev : c.events = c.retracted.flatMap (·.events) := by
      rw [events_eq, happ, List.flatMap_nil, List.append_nil]
    have hrem := hf.retracted hc
    have hne : c.retracted ≠ [] := by
      intro hret
      exact hc.groups_ne (by rw [groups, hret, happ, List.nil_append])
    obtain ⟨g, gs, hg⟩ := List.exists_cons_of_ne_nil hne
    have hgne := (hf g (by rw [groups, hg]; simp)).1
    have hEne : c.events ≠ [] := by
      rw [hev, hg, List.flatMap_cons]
      exact List.append_ne_nil_of_left_ne_nil hgne _
    rw [← hev] at hrem
    -- the retractions at the end are those of the cut: the stream before it ends applied
    have htake : (P ++ c.events).rtakeWhile (·.removed) = c.events := by
      unfold List.rtakeWhile
      rw [List.reverse_append, List.takeWhile_append_of_pos (fun e he => hrem e (List.mem_reverse.1 he))]
      have hstop : P.reverse.takeWhile (·.removed) = [] := by
        rw [List.takeWhile_eq_nil_iff]
        intro hlt hrm
        have hlast := hP happ P.reverse[0] (by
          rw [← List.head?_reverse, List.head?_eq_getElem?, List.getElem?_eq_getElem hlt]; rfl)
        rw [List.get_eq_getElem, hlast] at hrm
        cases hrm
      rw [hstop, List.append_nil, List.reverse_reverse]
    obtain ⟨es, e, he⟩ := (List.eq_nil_or_concat _).resolve_left hEne
    have hlast : (P ++ c.events).getLast? = some e := by rw [he]; simp
    unfold reach
    rw [hlast, htake]
    simp only [hrem e (by rw [he]; simp), if_true]
  · obtain ⟨es, e, he, hlive⟩ := exists_last hf hc happ
    have hlast : (P ++ c.events).getLast? = some e := by rw [events_eq, he]; simp
    have hfilter : c.events.filter (!·.removed) = es ++ [e] := by
      rw [events_eq, List.filter_append, List.filter_eq_nil_iff.2, List.nil_append,
        List.filter_eq_self.2, he]
      · intro e' he'
        simp [hf.applied hc e' he']
      · intro e' he'
        simp [hf.retracted hc e' he']
    unfold reach foldedThrough
    rw [hlast, hfilter]
    simp [hlive]

end Cut

/-- **How far the stream of the first batches has folded** is what the last of them folds
through. -/
theorem reach_take {cs : List (Cut H D)} (hok : ∀ c ∈ cs, c.Ok) (hf : ∀ c ∈ cs, c.Faithful)
    (hchain : cs.IsChain Cut.Next) {j : ℕ} {c : Cut H D} (hc : cs[j]? = some c) :
    reach ((cs.take (j + 1)).flatMap Cut.events) = foldedThrough c.events := by
  have hmem : c ∈ cs := List.mem_of_getElem? hc
  rw [List.take_add_one, hc, List.flatMap_append, Option.toList_some, List.flatMap_singleton]
  refine Cut.reach_append (hf c hmem) (hok c hmem) ?_
  intro happ e he
  cases j with
  | zero => simp at he
  | succ j =>
    obtain ⟨hlt, hget⟩ := List.getElem?_eq_some_iff.1 hc
    have hprev : cs[j]? = some cs[j] := List.getElem?_eq_getElem (by omega)
    have hmem' : cs[j] ∈ cs := List.getElem_mem _
    have hnext : Cut.Next cs[j] c := by
      have := List.isChain_iff_getElem.1 hchain j (by omega)
      rwa [hget] at this
    -- the cut takes something back, so the one before it applied something
    have happ' : (cs[j]).applied ≠ [] := by
      intro h
      exact (hok c hmem).groups_ne (by rw [Cut.groups, hnext h, happ, List.nil_append])
    obtain ⟨es, e', he', hlive⟩ := Cut.exists_last (hf _ hmem') (hok _ hmem') happ'
    rw [List.take_add_one, hprev, List.flatMap_append, Option.toList_some, List.flatMap_singleton,
      Cut.events_eq, he', ← List.append_assoc, ← List.append_assoc, List.getLast?_concat] at he
    simp only [Option.mem_def, Option.some.injEq] at he
    rwa [← he]

end Etherfold
