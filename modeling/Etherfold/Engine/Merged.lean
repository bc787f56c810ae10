import Etherfold.Engine.Window
import Etherfold.Ledger.Runs
import Etherfold.Chain.Run

/-!
# Entries that merge

A stored stream is grouped by consecutive runs, so an entry written twice in a row is read as
one block with its logs twice.

* `Chain.run`: the block a run is read as.
* `groupStream_runs`: **a stream is read as its runs**.
* `RepeatsStale`: only entries that are no news are repeated at once.
* `walk_bare`, `holding_bare`: then the repetitions change nothing.
* `repeatsStale_of_once`: **and only then** is every log delivered once per application.
-/

namespace Etherfold

open Ledger

variable {H D : Type} {C : Chain H D}

/-- **The block a run is read as**: the logs of the entry, once for each time it was written. -/
def Chain.run (C : Chain H D) (r : Op H × ℕ) : StreamBlock H D :=
  ⟨⟨r.1.key, C.numberOf r.1.key, (List.replicate r.2 (C.emit r.1)).flatten⟩, (C.group r.1).removed⟩

variable [DecidableEq H]

/-- The stream before has settled what the entry says. -/
def Stale (pre : List (Op H)) : Op H → Prop
  | .add x => x ∈ held ∅ pre
  | .retract x => x ∉ held {x} pre

instance (pre : List (Op H)) (o : Op H) : Decidable (Stale pre o) := by
  cases o <;> unfold Stale <;> infer_instance

/-- **Only entries that are no news are repeated at once.** -/
def RepeatsStale (ops : List (Op H)) : Prop :=
  ∀ a o n b, runs ops = a ++ (o, n) :: b → 1 < n → Stale (a.map (·.1)) o

omit [DecidableEq H] in
@[simp] theorem Chain.run_hash (r : Op H × ℕ) : (C.run r).hash = r.1.key := rfl

omit [DecidableEq H] in
@[simp] theorem Chain.run_removed (r : Op H × ℕ) : (C.run r).removed = (C.group r.1).removed := rfl

omit [DecidableEq H] in
@[simp] theorem Chain.run_op (r : Op H × ℕ) : (C.run r).op = r.1 := by
  obtain ⟨o, n⟩ := r
  cases o <;> rfl

omit [DecidableEq H] in
theorem Chain.run_one (o : Op H) : C.run (o, 1) = C.group o := by
  unfold Chain.run
  rw [List.replicate_one, List.flatten_singleton]
  cases o <;> rfl

theorem Chain.run_of_le_one {ops : List (Op H)} {r : Op H × ℕ} (hr : r ∈ runs ops) (hn : r.2 ≤ 1) :
    C.run r = C.group r.1 := by
  have hpos := runs_pos r hr
  have hone : r = (r.1, 1) := Prod.ext rfl (by omega)
  rw [hone]
  exact Chain.run_one r.1

omit [DecidableEq H] in
theorem Chain.run_ok {r : Op H × ℕ} (hb : C.Bearing r.1.key) (hpos : 0 < r.2) : (C.run r).Ok := by
  have hown := Chain.group_ok hb
  have hmem : ∀ e ∈ (C.run r).events, e ∈ (C.group r.1).events := by
    intro e he
    obtain ⟨l, hl, hel⟩ := List.mem_flatten.1 he
    rw [(List.mem_replicate.1 hl).2] at hel
    rwa [Chain.group_events]
  refine ⟨fun hnil => hown.events_ne ?_, fun e he => ?_, fun e he => ?_, fun e he => ?_⟩
  · -- the first copy is there
    obtain ⟨n, hn⟩ := Nat.exists_eq_succ_of_ne_zero hpos.ne'
    have hsplit : (C.run r).events = C.emit r.1 ++ (List.replicate n (C.emit r.1)).flatten := by
      unfold Chain.run
      rw [hn, List.replicate_succ, List.flatten_cons]
    rw [hsplit] at hnil
    rw [Chain.group_events]
    exact (List.append_eq_nil_iff.1 hnil).1
  · exact (hown.hash e (hmem e he)).trans (Chain.group_hash r.1)
  · exact (hown.number e (hmem e he)).trans (Chain.group_number r.1)
  · exact hown.removed e (hmem e he)

/-- **A stream is read as its runs.** -/
theorem groupStream_runs {ops : List (Op H)} (hb : ∀ o ∈ ops, C.Bearing o.key) :
    groupStreamPerBlock (ops.flatMap C.emit) = (runs ops).map C.run := by
  have hflat : ops.flatMap C.emit = ((runs ops).map C.run).flatMap (·.events) := by
    have hrepeat : ∀ n (o : Op H), (List.replicate n o).flatMap C.emit = (List.replicate n (C.emit o)).flatten := by
      intro n o
      rw [List.flatMap_def, List.map_replicate]
    rw [List.flatMap_map]
    conv_lhs => rw [← flatMap_runs ops, List.flatMap_assoc]
    simp only [hrepeat]
    rfl
  rw [hflat]
  refine groupStreamPerBlock_flatMap _ (fun g hg => ?_) ?_
  · obtain ⟨r, hr, rfl⟩ := List.mem_map.1 hg
    exact Chain.run_ok (hb _ (mem_of_mem_bare (List.mem_map.2 ⟨r, hr, rfl⟩))) (runs_pos r hr)
  · have hkey : ∀ o o' : Op H, o ≠ o' → ¬(o'.key = o.key ∧ (C.group o').removed = (C.group o).removed) := by
      intro o o' hne
      cases o <;> cases o' <;> simp_all [Chain.group, eq_comm]
    have hdiff := bare_chain ops
    unfold bare at hdiff
    rw [List.isChain_map] at hdiff ⊢
    exact hdiff.imp fun r r' hne => hkey r.1 r'.1 hne

/-! ### Runs that are no news -/

theorem retractedLater_run (x : H) (rs : List (Op H × ℕ)) :
    retractedLater x (rs.map C.run) = Ledger.retractedLater x (rs.map (·.1)) := by
  rw [← retractedLater_group (C := C)]
  induction rs with
  | nil => rfl
  | cons r rs ih => rw [List.map_cons, List.map_cons, List.map_cons, retractedLater, retractedLater, ih,
      Chain.group_hash, Chain.run_hash, Chain.run_removed]

omit [DecidableEq H] in
theorem map_group_op (ops : List (Op H)) : (ops.map C.group).map StreamBlock.op = ops := by
  rw [List.map_map]
  have hid : StreamBlock.op ∘ C.group = id := funext fun o => Chain.group_op o
  rw [hid, List.map_id]

/-- After the stream before it, an entry that is stale is no news. -/
theorem noNews_of_stale {pre : List (Op H)} {o : Op H} (h : Stale pre o) (n : ℕ) (w : Walk H D)
    {g : StreamBlock H D} (hhash : g.hash = o.key) (hremoved : g.removed = (C.group o).removed)
    (later : List (StreamBlock H D)) :
    ((walkUntil n w (pre.map C.group) (g :: later)).live g.hash).isSome = !g.removed := by
  rw [hhash, hremoved]
  cases o with
  | add x =>
    have hx : x ∈ held ∅ ((pre.map C.group).map StreamBlock.op) := by
      rw [map_group_op]
      exact h
    refine live_of_held (fun h => absurd h (Finset.notMem_empty x)) hx (.inr ?_)
    unfold retractedLater
    rw [hhash, hremoved, Op.key_add, if_pos rfl]
    rfl
  | retract x =>
    have hx : x ∉ held {x} ((pre.map C.group).map StreamBlock.op) := by
      rw [map_group_op]
      exact h
    have hdead : (walkUntil n w (pre.map C.group) (g :: later)).live x = none :=
      dead_of_notHeld (fun h => absurd (Finset.mem_singleton_self x) h) hx
    rw [Op.key_retract, hdead]
    rfl

theorem noNews_held_of_stale {pre : List (Op H)} {o : Op H} (h : Stale pre o) {g : StreamBlock H D}
    (hhash : g.hash = o.key) (hremoved : g.removed = (C.group o).removed) :
    (((pre.map C.group).foldl Holding.step ⟨fun _ => none, []⟩).live g.hash).isSome = !g.removed := by
  have hlive := @holding_isSome _ _ _ (pre.map C.group) (⟨fun _ => none, []⟩ : Holding H D) ∅ fun x => by simp
  rw [map_group_op] at hlive
  rw [hhash, hremoved]
  cases o with
  | add x => exact (hlive x).2 h
  | retract x =>
    have hdead : x ∉ held ∅ pre := fun hx => h ((mem_held_of_key (mem_keys_of_mem_held hx)).1 hx)
    rw [Op.key_retract, Bool.eq_false_iff.2 (mt (hlive x).1 hdead)]
    rfl

/-- A stream that repeats nothing at once. -/
theorem repeatsStale_of_chain {ops : List (Op H)} (h : ops.IsChain (· ≠ ·)) : RepeatsStale ops := by
  intro a o n b hsplit hn
  have hmem : (o, n) ∈ runs ops := by
    rw [hsplit]
    exact List.mem_append_right _ List.mem_cons_self
  rw [runs_of_chain h] at hmem
  obtain ⟨o', -, heq⟩ := List.mem_map.1 hmem
  have hone : 1 = n := congrArg Prod.snd heq
  omega

/-- **Repetitions of what is no news change no replay.** -/
theorem walk_bare {ops : List (Op H)} (h : RepeatsStale ops) (n : ℕ) (w : Walk H D) :
    walk n w ((runs ops).map C.run) = walk n w ((bare ops).map C.group) := by
  -- runs already walked are the bare ones, whatever the walk began with
  have hgo : ∀ b a : List (Op H × ℕ), runs ops = a ++ b →
      walk n (walkUntil n w ((a.map (·.1)).map C.group) (b.map C.run)) (b.map C.run) =
        walk n (walkUntil n w ((a.map (·.1)).map C.group) ((b.map (·.1)).map C.group)) ((b.map (·.1)).map C.group) := by
    intro b
    induction b with
    | nil => exact fun a _ => rfl
    | cons r b ih =>
      intro a hsplit
      have hih := ih (a ++ [r]) (by rw [hsplit, List.append_assoc]; rfl)
      have hsame : ∀ g : StreamBlock H D, g.hash = r.1.key → g.removed = (C.group r.1).removed →
          ∀ later later' : List (StreamBlock H D), (∀ x, retractedLater x later = retractedLater x later') →
          walkUntil n w ((a.map (·.1)).map C.group) (g :: later) =
            walkUntil n w ((a.map (·.1)).map C.group) (C.group r.1 :: later') := by
        intro g hhash hremoved later later' hlater
        refine walkUntil_congr fun o _ _ => ?_
        rw [retractedLater, retractedLater, hhash, hremoved, Chain.group_hash, hlater]
      have hlater : ∀ x, retractedLater x (b.map C.run) = retractedLater x ((b.map (·.1)).map C.group) := by
        intro x
        rw [retractedLater_run, retractedLater_group]
      rw [List.map_append, List.map_append, walkUntil_append, walkUntil_append] at hih
      rw [List.map_cons, List.map_cons, List.map_cons]
      by_cases hn : 1 < r.2
      · have hstale := h a r.1 r.2 b hsplit hn
        have hskip : ∀ g : StreamBlock H D, g.hash = r.1.key → g.removed = (C.group r.1).removed → ∀ later,
            walkUntil n (walkUntil n w ((a.map (·.1)).map C.group) (g :: later)) [g] later =
              walkUntil n w ((a.map (·.1)).map C.group) (g :: later) := by
          intro g hhash hremoved later
          refine walkUntil_stale fun g' hg' => ?_
          rw [List.mem_singleton.1 hg']
          exact noNews_of_stale hstale n w hhash hremoved later
        have hone : ∀ g : StreamBlock H D, g.hash = r.1.key → g.removed = (C.group r.1).removed → ∀ later,
            walk n (walkUntil n w ((a.map (·.1)).map C.group) (g :: later)) (g :: later) =
              walk n (walkUntil n w ((a.map (·.1)).map C.group) (g :: later)) later := by
          intro g hhash hremoved later
          rw [← List.singleton_append, walk_append]
          exact congrArg (fun w => walk n w later) (hskip g hhash hremoved later)
        rw [hone (C.run r) rfl rfl, hone (C.group r.1) (Chain.group_hash _) rfl, hsame (C.run r) rfl rfl _ _ fun _ => rfl]
        have hleft := hskip (C.group r.1) (Chain.group_hash _) rfl (b.map C.run)
        have hright := hskip (C.group r.1) (Chain.group_hash _) rfl ((b.map (·.1)).map C.group)
        rw [List.map_singleton, List.map_singleton, List.singleton_append, List.singleton_append, hleft, hright] at hih
        exact hih
      · rw [Chain.run_of_le_one (by rw [hsplit]; exact List.mem_append_right _ List.mem_cons_self) (not_lt.1 hn)]
        exact hih
  have hstart := hgo (runs ops) [] rfl
  exact hstart

/-- **Nor the walk of the window.** -/
theorem holding_bare {ops : List (Op H)} (h : RepeatsStale ops) :
    holdingOf ((runs ops).map C.run) = holdingOf ((bare ops).map C.group) := by
  have hgo : ∀ b a : List (Op H × ℕ), runs ops = a ++ b →
      (b.map C.run).foldl Holding.step (((a.map (·.1)).map C.group).foldl Holding.step ⟨fun _ => none, []⟩) =
        ((b.map (·.1)).map C.group).foldl Holding.step
          (((a.map (·.1)).map C.group).foldl Holding.step ⟨fun _ => none, []⟩) := by
    intro b
    induction b with
    | nil => exact fun a _ => rfl
    | cons r b ih =>
      intro a hsplit
      have hih := ih (a ++ [r]) (by rw [hsplit, List.append_assoc]; rfl)
      rw [List.map_append, List.map_append, List.foldl_append] at hih
      rw [List.map_cons, List.map_cons, List.map_cons, List.foldl_cons, List.foldl_cons]
      by_cases hn : 1 < r.2
      · have hstale := h a r.1 r.2 b hsplit hn
        have hskip : ∀ g : StreamBlock H D, g.hash = r.1.key → g.removed = (C.group r.1).removed →
            (((a.map (·.1)).map C.group).foldl Holding.step ⟨fun _ => none, []⟩).step g =
              ((a.map (·.1)).map C.group).foldl Holding.step ⟨fun _ => none, []⟩ := by
          intro g hhash hremoved
          refine @foldl_step_stale _ _ _ [g] _ fun g' hg' => ?_
          rw [List.mem_singleton.1 hg']
          exact noNews_held_of_stale hstale hhash hremoved
        have hgroup := hskip (C.group r.1) (Chain.group_hash _) rfl
        rw [hskip (C.run r) rfl rfl, hgroup]
        rw [List.map_singleton, List.map_singleton, List.foldl_cons, List.foldl_nil, hgroup] at hih
        exact hih
      · rw [Chain.run_of_le_one (by rw [hsplit]; exact List.mem_append_right _ List.mem_cons_self) (not_lt.1 hn)]
        exact hih
  exact hgo (runs ops) [] rfl

/-! ### Once per application -/

/-- **Every log once per application**: what any replay delivers adds a log only where it is
absent and takes it back only where it is present. -/
def OncePerApplication (C : Chain H D) (storedStream : List (LogEvent H D)) : Prop :=
  ∀ (c : LastSync H D) (d : ℕ) (ws : List H) (o : NewSync) (r : Replayed H D),
    c.unconfirmedBlocks = ws.map C.block → ws.Nodup → generateStreamFromReplay c d storedStream o = .ok r →
    Legal (parts C.logKeys ws.toFinset) (r.eventStream.map LogEvent.op)

theorem replay_eventStream {c : LastSync H D} {d : ℕ} {es : List (LogEvent H D)} {o : NewSync} {r : Replayed H D}
    (h : generateStreamFromReplay c d es o = .ok r) :
    r.eventStream = (walk c.lastToBlock (Walk.start c.unconfirmedBlocks) (groupStreamPerBlock es)).eventStream := by
  have hfrom := (replay_ok_iff c d es o).1 ⟨r, h⟩
  unfold generateStreamFromReplay at h
  rw [if_neg (not_not.2 hfrom)] at h
  rw [← Except.ok.inj h]

/-- A walk only adds to what it delivers. -/
theorem walk_eventStream_grows (n : ℕ) (w : Walk H D) (gs : List (StreamBlock H D)) :
    ∃ t, (walk n w gs).eventStream = w.eventStream ++ t := by
  induction gs generalizing w with
  | nil => exact ⟨[], (List.append_nil _).symm⟩
  | cons g gs ih =>
    obtain ⟨t, ht⟩ := ih (w.step n g gs)
    have hstep : ∃ s, (w.step n g gs).eventStream = w.eventStream ++ s := by
      unfold Walk.step
      split
      · split
        · exact ⟨[], (List.append_nil _).symm⟩
        · exact ⟨_, rfl⟩
      · split
        · exact ⟨[], (List.append_nil _).symm⟩
        · split
          · exact ⟨[], (List.append_nil _).symm⟩
          · exact ⟨_, rfl⟩
    obtain ⟨s, hs⟩ := hstep
    exact ⟨s ++ t, by rw [walk, ht, hs, List.append_assoc]⟩

variable {ops : List (Op H)}

/-- **What a replay delivers** of a stream that repeats only what is no news. -/
theorem replay_bare (hb : ∀ o ∈ ops, C.Bearing o.key) (hstale : RepeatsStale ops) {c : LastSync H D} {d : ℕ}
    {ws : List H} {o : NewSync} {r : Replayed H D} (hc : c.unconfirmedBlocks = ws.map C.block) (hn : ws.Nodup)
    (h : generateStreamFromReplay c d (ops.flatMap C.emit) o = .ok r) :
    r.eventStream = (settle (C.settledAt c.lastToBlock) ws.toFinset (bare ops)).flatMap C.emit := by
  obtain ⟨hlive, horder, hstream⟩ := walkStart_map (C := C) hn
  rw [← hc] at hlive horder hstream
  have hmem : ∀ x ∈ ws.toFinset, x ∈ (Walk.start c.unconfirmedBlocks).order := fun x hx => by
    rw [horder]
    exact List.mem_toFinset.1 hx
  have hwalk := (@walk_emit _ _ _ _ c.lastToBlock (bare ops) _ _ hlive hmem).2.2
  rw [replay_eventStream h, groupStream_runs hb, walk_bare hstale, hwalk, hstream, List.nil_append]

theorem once_of_repeatsStale (hb : ∀ o ∈ ops, C.Bearing o.key) (hstale : RepeatsStale ops) :
    OncePerApplication C (ops.flatMap C.emit) := by
  intro c d ws o r hc hn h
  rw [replay_bare hb hstale hc hn h, Chain.map_op_emit]
  exact legal_expand Chain.logKeys_apart Chain.logKeys_nodup legal_settle

/-- **Every log once per application**: only what is no news may be repeated at once. Genesis
carries no logs. -/
theorem repeatsStale_of_once (hb : ∀ o ∈ ops, C.Bearing o.key) (hpos : ∀ o ∈ ops, 0 < C.numberOf o.key)
    (h : OncePerApplication C (ops.flatMap C.emit)) : RepeatsStale ops := by
  intro a o n b hsplit hn
  by_contra hnews
  -- a cursor that takes the run for news
  have hcursor : ∃ ws : List H, ws.Nodup ∧
      ((walkUntil 0 (Walk.start (ws.map C.block)) (a.map C.run) (C.run (o, n) :: b.map C.run)).live o.key).isSome =
        (C.group o).removed := by
    have hops : (a.map C.run).map StreamBlock.op = a.map (·.1) := by
      rw [List.map_map]
      exact List.map_congr_left fun r _ => Chain.run_op r
    cases o with
    | add x =>
      refine ⟨[], List.nodup_nil, ?_⟩
      have hdead : (walkUntil 0 (Walk.start (([] : List H).map C.block)) (a.map C.run)
          (C.run (Op.add x, n) :: b.map C.run)).live x = none := by
        refine dead_of_notHeld (S := ∅) (fun _ => rfl) ?_
        rw [hops]
        exact hnews
      rw [Op.key_add, hdead]
      rfl
    | retract x =>
      refine ⟨[x], List.nodup_singleton x, ?_⟩
      refine live_of_held (S := {x}) (fun _ => ?_) ?_ (.inl fun g hg _ => ?_)
      · rw [(walkStart_map (C := C) (List.nodup_singleton x)).1]
        simp [Chain.holding]
      · rw [hops]
        exact not_not.1 hnews
      · obtain ⟨r, hr, rfl⟩ := List.mem_map.1 hg
        have hmem : r.1 ∈ ops := by
          refine mem_of_mem_bare (List.mem_map.2 ⟨r, ?_, rfl⟩)
          rw [hsplit]
          exact List.mem_append_left _ hr
        exact hpos _ hmem
  obtain ⟨ws, hws, hlive⟩ := hcursor
  have hmem : o ∈ ops := by
    refine mem_of_mem_bare (List.mem_map.2 ⟨(o, n), ?_, rfl⟩)
    rw [hsplit]
    exact List.mem_append_right _ List.mem_cons_self
  have haccepted := (replay_ok_iff (⟨0, 0, 0, ws.map C.block⟩ : LastSync H D) 0 (ops.flatMap C.emit)
    ⟨0, getFromBlock (⟨0, 0, 0, ws.map C.block⟩ : LastSync H D) 0 0, 0, 0⟩).2 rfl
  obtain ⟨r, hr⟩ := haccepted
  have hlegal := h _ _ ws _ r rfl hws hr
  rw [replay_eventStream hr, groupStream_runs hb, hsplit, List.map_append, List.map_cons, walk_append, walk] at hlegal
  -- the run is delivered, as often as it was written
  set w₁ := walkUntil 0 (Walk.start (ws.map C.block)) (a.map C.run) (C.run (o, n) :: b.map C.run) with hw₁
  have hstep : (w₁.step 0 (C.run (o, n)) (b.map C.run)).eventStream =
      w₁.eventStream ++ (List.replicate n (C.emit o)).flatten := by
    have hnumber : ¬(C.run (o, n)).number ≤ 0 := not_le.2 (hpos o hmem)
    unfold Walk.step
    rw [Chain.run_removed, Chain.run_hash]
    cases hrem : (C.group o).removed with
    | true =>
      rw [hrem] at hlive
      rw [if_pos rfl, if_neg (by rw [Option.isNone_iff_eq_none]; exact Option.isSome_iff_ne_none.1 hlive)]
      rfl
    | false =>
      rw [hrem] at hlive
      rw [if_neg Bool.false_ne_true, if_neg (by rw [hlive]; exact Bool.false_ne_true), decide_eq_false hnumber,
        Bool.false_and, if_neg Bool.false_ne_true]
      rfl
  obtain ⟨t, ht⟩ := walk_eventStream_grows 0 (w₁.step 0 (C.run (o, n)) (b.map C.run)) (b.map C.run)
  obtain ⟨m, rfl⟩ : ∃ m, n = m + 2 := ⟨n - 2, by omega⟩
  have hne : C.logKeys o.key ≠ [] := by
    unfold Chain.logKeys
    simpa [Chain.Bearing] using hb o hmem
  rw [ht, hstep, List.replicate_succ, List.replicate_succ, List.flatten_cons, List.flatten_cons, List.append_assoc,
    List.append_assoc, List.append_assoc, List.map_append, legal_append, List.map_append, List.map_append,
    Chain.emit_op] at hlegal
  exact not_legal_expand_twice hne _ hlegal.2

end Etherfold
