import Etherfold.Engine.Receive

/-!
# What a receiver delivers

* `generate_spec`: the delta of an arbitrary payload, block by block.
* `Accepted`: the sequences of batches a receiver accepts, whatever tips they report.
* `Once`: no log of an applied block is delivered.
* `once_iff`: a batch delivers nothing twice when the window still lists every applied
  block it re-reads, and only then.
* `accepted_once`: **the same over whole sequences**, and that it is so while the
  reported tips do not fall.
-/

namespace Etherfold

open Ledger

variable {K H D : Type} [DecidableEq K] [DecidableEq H]

section Spec

variable {c : LastSync H D} {d : ℕ} {es : List (LogEvent H D)} {o : NewSync} {r : Appended H D}

/-- The window blocks a payload leaves standing. -/
def retainedBlocks (c : LastSync H D) (es : List (LogEvent H D)) (o : NewSync) : List (EventBlock H D) :=
  c.unconfirmedBlocks.takeWhile (!contradicted (groupLogsPerBlock es) o ·)

/-- The blocks a payload brings beyond those. -/
def freshBlocks (c : LastSync H D) (es : List (LogEvent H D)) (o : NewSync) : List (EventBlock H D) :=
  (groupLogsPerBlock es).filter fun b => !b.events.isEmpty && !windowHas (retainedBlocks c es o) b

omit [DecidableEq K] in
/-- **The delta of any payload.** The window splits into the blocks left standing and
those taken back; what the payload brings beyond the former is added. -/
theorem generate_spec (h : generateStreamToAppend c d es o = .ok r) :
    ∃ reorged : List (EventBlock H D),
    c.unconfirmedBlocks = retainedBlocks c es o ++ reorged ∧
    (∀ g, g ∈ freshBlocks c es o ↔
      g ∈ groupLogsPerBlock es ∧ g.events ≠ [] ∧ windowHas (retainedBlocks c es o) g = false) ∧
    r.eventStream = reorged.flatMap (·.events.map LogEvent.retracted) ++ (freshBlocks c es o).flatMap (·.events) ∧
    ∀ w, w ∈ r.newLastSync.unconfirmedBlocks ↔
      (w ∈ retainedBlocks c es o ∧ o.newLastToBlock - w.number ≤ o.finality) ∨
        (w ∈ freshBlocks c es o ∧ o.newLatestBlock - w.number ≤ o.finality) := by
  unfold generateStreamToAppend at h
  dsimp only at h
  split at h
  · cases h
  cases h
  refine ⟨_, List.takeWhile_append_dropWhile.symm, fun g => ?_, rfl, fun w => ?_⟩
  · unfold freshBlocks
    simp only [List.mem_filter, Bool.and_eq_true, Bool.not_eq_true', List.isEmpty_eq_false_iff]
  · unfold sortBlocks
    rw [List.mem_insertionSort]
    unfold freshBlocks retainedBlocks
    simp only [List.mem_append, List.mem_filter, decide_eq_true_eq]

end Spec

/-- How an entry changes the set of applied blocks. -/
def LogEvent.blockOp (e : LogEvent H D) : Op H :=
  if e.removed then .retract e.blockHash else .add e.blockHash

/-- The blocks a stream leaves applied. -/
def liveBlocks (es : List (LogEvent H D)) : Finset H := held ∅ (es.map LogEvent.blockOp)

omit [DecidableEq K] in
theorem liveBlocks_append_removed {es rs : List (LogEvent H D)} (h : ∀ e ∈ rs, e.removed = true) :
    liveBlocks (es ++ rs) = liveBlocks es \ (rs.map (·.blockHash)).toFinset := by
  have hops : rs.map LogEvent.blockOp = (rs.map (·.blockHash)).map .retract := by
    rw [List.map_map]
    refine List.map_congr_left fun e he => ?_
    simp [LogEvent.blockOp, h e he]
  unfold liveBlocks
  rw [List.map_append, held_append, hops, held_map_retract]

omit [DecidableEq K] in
theorem liveBlocks_append_live {es rs : List (LogEvent H D)} (h : ∀ e ∈ rs, e.removed = false) :
    liveBlocks (es ++ rs) = liveBlocks es ∪ (rs.map (·.blockHash)).toFinset := by
  have hops : rs.map LogEvent.blockOp = (rs.map (·.blockHash)).map .add := by
    rw [List.map_map]
    refine List.map_congr_left fun e he => ?_
    simp [LogEvent.blockOp, h e he]
  unfold liveBlocks
  rw [List.map_append, held_append, hops, held_map_add]

/-- **No block is delivered while it is applied.** A delta takes back before it adds. -/
def Once (before delta : List (LogEvent H D)) : Prop :=
  ∀ e ∈ delta, e.removed = false → e.blockHash ∉ liveBlocks (before ++ delta.filter (·.removed))

instance (before delta : List (LogEvent H D)) : Decidable (Once before delta) :=
  inferInstanceAs (Decidable (∀ e ∈ delta, _))

/-- The window still lists every applied block that the batch reads again. -/
def Covered (c : LastSync H D) (before : List (LogEvent H D)) (batch : WireBatch K H D) : Prop :=
  ∀ e ∈ batch.logs, e.blockHash ∈ liveBlocks before → e.blockHash ∈ c.unconfirmedBlocks.map (·.hash)

/-- The window's blocks have logs, under their own hash and height. -/
def WindowOk (numberOf : H → ℕ) (c : LastSync H D) : Prop :=
  ∀ w ∈ c.unconfirmedBlocks, w.events ≠ [] ∧
    (∀ e ∈ w.events, e.blockHash = w.hash ∧ e.blockNumber = numberOf w.hash) ∧
      w.number = numberOf w.hash

/-- A hash names one height. -/
def Numbered (numberOf : H → ℕ) (batch : WireBatch K H D) : Prop :=
  ∀ e ∈ batch.logs, e.blockNumber = numberOf e.blockHash

instance (numberOf : H → ℕ) (batch : WireBatch K H D) : Decidable (Numbered numberOf batch) :=
  inferInstanceAs (Decidable (∀ e ∈ batch.logs, _))

section Step

variable {numberOf : H → ℕ} {sb : StreamBuilder K} {c : LastSync H D} {batch : WireBatch K H D}
  {r : Appended H D} {before : List (LogEvent H D)}

/-- The delta of an accepted batch: `reorged` window blocks are taken back, and `fresh`
ones, which the rest of the window does not list, are added. -/
structure Split (numberOf : H → ℕ) (c : LastSync H D) (batch : WireBatch K H D)
    (retained reorged fresh : List (EventBlock H D)) (eventStream : List (LogEvent H D)) : Prop where
  window : c.unconfirmedBlocks = retained ++ reorged
  stream : eventStream = reorged.flatMap (·.events.map LogEvent.retracted) ++ fresh.flatMap (·.events)
  fresh_ok : ∀ g ∈ fresh, g.events ≠ [] ∧
    (∀ e ∈ g.events, (e.blockHash = g.hash ∧ e.removed = false) ∧ e ∈ batch.logs) ∧
      g.number = numberOf g.hash
  fresh_new : ∀ g ∈ fresh, g.hash ∉ retained.map (·.hash)
  complete : ∀ e ∈ batch.logs, e.blockHash ∉ retained.map (·.hash) →
    ∃ g ∈ fresh, e ∈ g.events

/-- What the receiver tells the engine of a batch. -/
def StreamBuilder.newSync (sb : StreamBuilder K) (batch : WireBatch K H D) : NewSync :=
  ⟨batch.latestBlock, batch.fromBlock, batch.toBlock, sb.finality⟩

/-- What the cursor after an accepted batch lists: what the batch left standing, and what it brought. -/
theorem receive_newLastSync (h : sb.receive c batch = .ok r) :
    r.newLastSync = ⟨batch.fromBlock, batch.latestBlock, batch.toBlock, sortBlocks
      ((retainedBlocks c batch.logs (sb.newSync batch)).filter (fun b => batch.toBlock - b.number ≤ sb.finality) ++
        (freshBlocks c batch.logs (sb.newSync batch)).filter fun b => batch.latestBlock - b.number ≤ sb.finality)⟩ := by
  obtain ⟨-, hgen⟩ := receive_ok h
  unfold generateStreamToAppend at hgen
  dsimp only at hgen
  split at hgen
  · cases hgen
  · cases hgen
    rfl

/-- **The delta of an accepted batch**, with the blocks it is made of. -/
theorem receive_delta (hok : WindowOk numberOf c) (hnum : Numbered numberOf batch)
    (h : sb.receive c batch = .ok r) : ∃ reorged,
      Split numberOf c batch (retainedBlocks c batch.logs (sb.newSync batch)) reorged
        (freshBlocks c batch.logs (sb.newSync batch)) r.eventStream ∧
      ∀ w, w ∈ r.newLastSync.unconfirmedBlocks ↔
        (w ∈ retainedBlocks c batch.logs (sb.newSync batch) ∧ batch.toBlock - w.number ≤ sb.finality) ∨
          (w ∈ freshBlocks c batch.logs (sb.newSync batch) ∧ batch.latestBlock - w.number ≤ sb.finality) := by
  obtain ⟨hwf, hgen⟩ := receive_ok h
  obtain ⟨reorged, hwin, hfresh, hstream, hnext⟩ := generate_spec hgen
  have hgroup := groupLogsPerBlock_grouped batch.logs hwf.live
  have hgnum : ∀ g ∈ groupLogsPerBlock batch.logs, g.number = numberOf g.hash := by
    intro g hg
    obtain ⟨e, he, hn⟩ := hgroup.number g hg
    obtain ⟨hhash, hmem⟩ := hgroup.events g hg e he
    rw [← hn, hnum e hmem, hhash]
  refine ⟨reorged, ⟨hwin, hstream, ?_, ?_, ?_⟩, hnext⟩
  · intro g hg
    obtain ⟨hmem, hne, -⟩ := (hfresh g).1 hg
    refine ⟨hne, fun e he => ?_, hgnum g hmem⟩
    obtain ⟨hhash, hlog⟩ := hgroup.events g hmem e he
    exact ⟨⟨hhash, hwf.live e hlog⟩, hlog⟩
  · intro g hg hret
    obtain ⟨hmem, -, hnot⟩ := (hfresh g).1 hg
    obtain ⟨w, hw, hhash⟩ := List.mem_map.1 hret
    -- the hash of a retained block names the height too
    have hnumber : w.number = g.number := by
      have hmemw : w ∈ c.unconfirmedBlocks := by
        rw [hwin]
        exact List.mem_append_left _ hw
      rw [(hok w hmemw).2.2, hgnum g hmem, hhash]
    have hhas : windowHas (retainedBlocks c batch.logs (sb.newSync batch)) g = true :=
      List.any_eq_true.2 ⟨w, hw, by simp [hnumber, hhash]⟩
    unfold StreamBuilder.newSync at hhas
    rw [hhas] at hnot
    cases hnot
  · intro e he hnot
    obtain ⟨g, hg, heg⟩ := hgroup.complete e he
    have hhash := (hgroup.events g hg e heg).1
    refine ⟨g, (hfresh g).2 ⟨hg, List.ne_nil_of_mem heg, ?_⟩, heg⟩
    by_contra hhas
    rw [Bool.not_eq_false] at hhas
    obtain ⟨w, hw, heq⟩ := List.any_eq_true.1 hhas
    have hwh : w.hash = g.hash := of_decide_eq_true (Bool.and_eq_true_iff.1 heq).2
    exact hnot (List.mem_map.2 ⟨w, hw, hwh.trans hhash.symm⟩)

theorem receive_split (hok : WindowOk numberOf c) (hnum : Numbered numberOf batch)
    (h : sb.receive c batch = .ok r) : ∃ retained reorged fresh,
      Split numberOf c batch retained reorged fresh r.eventStream ∧
      ∀ w, w ∈ r.newLastSync.unconfirmedBlocks ↔
        (w ∈ retained ∧ batch.toBlock - w.number ≤ sb.finality) ∨
          (w ∈ fresh ∧ batch.latestBlock - w.number ≤ sb.finality) := by
  obtain ⟨reorged, hsplit, hnext⟩ := receive_delta hok hnum h
  exact ⟨_, reorged, _, hsplit, hnext⟩

variable {retained reorged fresh : List (EventBlock H D)} {stream : List (LogEvent H D)}

omit [DecidableEq K] in
/-- The two halves of a delta, and what its first half leaves applied. -/
theorem Split.halves (h : Split numberOf c batch retained reorged fresh stream)
    (before : List (LogEvent H D)) (hok : WindowOk numberOf c) :
    (∀ e, e ∈ stream ∧ e.removed = false ↔ ∃ g ∈ fresh, e ∈ g.events) ∧
      (∀ x, x ∈ liveBlocks (before ++ stream.filter (·.removed)) ↔
        x ∈ liveBlocks before ∧ x ∉ reorged.map (·.hash)) ∧
      ∀ x, x ∈ liveBlocks (before ++ stream) ↔
        (x ∈ liveBlocks before ∧ x ∉ reorged.map (·.hash)) ∨ x ∈ fresh.map (·.hash) := by
  set taken := reorged.flatMap (·.events.map LogEvent.retracted) with htaken
  set added := fresh.flatMap (·.events) with hadded
  have hstream : stream = taken ++ added := h.stream
  have htake : ∀ e ∈ taken, e.removed = true := by
    intro e he
    obtain ⟨w, -, he⟩ := List.mem_flatMap.1 he
    obtain ⟨e', -, rfl⟩ := List.mem_map.1 he
    rfl
  have hadd : ∀ e ∈ added, e.removed = false := by
    intro e he
    obtain ⟨g, hg, he⟩ := List.mem_flatMap.1 he
    exact ((h.fresh_ok g hg).2.1 e he).1.2
  have hfilter : stream.filter (·.removed) = taken := by
    have h1 : taken.filter (·.removed) = taken := List.filter_eq_self.2 htake
    have h2 : added.filter (·.removed) = [] := by
      rw [List.filter_eq_nil_iff]
      intro e he
      simp [hadd e he]
    rw [hstream, List.filter_append, h1, h2, List.append_nil]
  have hhash : ∀ x, x ∈ taken.map (·.blockHash) ↔ x ∈ reorged.map (·.hash) := by
    intro x
    simp only [htaken, List.mem_map, List.mem_flatMap]
    refine ⟨?_, ?_⟩
    · rintro ⟨_, ⟨w, hw, e, he, rfl⟩, rfl⟩
      exact ⟨w, hw, ((hok w (h.window ▸ List.mem_append_right _ hw)).2.1 e he).1.symm⟩
    · rintro ⟨w, hw, rfl⟩
      obtain ⟨hne, hall, -⟩ := hok w (h.window ▸ List.mem_append_right _ hw)
      obtain ⟨e, he⟩ := List.exists_mem_of_ne_nil _ hne
      exact ⟨e.retracted, ⟨w, hw, e, he, rfl⟩, (hall e he).1⟩
  have hmid : ∀ x, x ∈ liveBlocks (before ++ taken) ↔
      x ∈ liveBlocks before ∧ x ∉ reorged.map (·.hash) := by
    intro x
    rw [liveBlocks_append_removed htake, Finset.mem_sdiff, List.mem_toFinset, hhash]
  refine ⟨fun e => ?_, fun x => by rw [hfilter, hmid], fun x => ?_⟩
  · rw [hstream, List.mem_append, ← List.mem_flatMap]
    refine ⟨fun ⟨he, hlive⟩ => ?_, fun he => ⟨Or.inr he, hadd e he⟩⟩
    rcases he with he | he
    · rw [htake e he] at hlive
      cases hlive
    · exact he
  · rw [hstream, ← List.append_assoc, liveBlocks_append_live hadd, Finset.mem_union, hmid,
      List.mem_toFinset]
    refine or_congr Iff.rfl ?_
    simp only [hadded, List.mem_map, List.mem_flatMap]
    refine ⟨?_, ?_⟩
    · rintro ⟨e, ⟨g, hg, he⟩, rfl⟩
      exact ⟨g, hg, ((h.fresh_ok g hg).2.1 e he).1.1.symm⟩
    · rintro ⟨g, hg, rfl⟩
      obtain ⟨hne, hall, -⟩ := h.fresh_ok g hg
      obtain ⟨e, he⟩ := List.exists_mem_of_ne_nil _ hne
      exact ⟨e, ⟨g, hg, he⟩, (hall e he).1.1⟩

/-- **One batch delivers nothing twice** exactly when the window still lists every
applied block the batch reads again. -/
theorem once_iff (hok : WindowOk numberOf c) (hnum : Numbered numberOf batch)
    (h : sb.receive c batch = .ok r) : Once before r.eventStream ↔ Covered c before batch := by
  obtain ⟨retained, reorged, fresh, hsplit, -⟩ := receive_split hok hnum h
  obtain ⟨hadded, htaken, -⟩ := hsplit.halves before hok
  have hwin : ∀ x, x ∈ c.unconfirmedBlocks.map (·.hash) ↔
      x ∈ retained.map (·.hash) ∨ x ∈ reorged.map (·.hash) := by
    intro x
    rw [hsplit.window, List.map_append, List.mem_append]
  refine ⟨fun honce e he hlive => ?_, fun hcov e he hnot => ?_⟩
  · rw [hwin]
    by_cases hret : e.blockHash ∈ retained.map (·.hash)
    · exact Or.inl hret
    -- the block is delivered again, so the delta takes it back first
    obtain ⟨g, hg, heg⟩ := hsplit.complete e he hret
    obtain ⟨hmem, hremoved⟩ := (hadded e).2 ⟨g, hg, heg⟩
    have hdead := honce e hmem hremoved
    rw [htaken, not_and, not_not] at hdead
    exact Or.inr (hdead hlive)
  · obtain ⟨g, hg, heg⟩ := (hadded e).1 ⟨he, hnot⟩
    obtain ⟨⟨hhash, -⟩, hlog⟩ := (hsplit.fresh_ok g hg).2.1 e heg
    rw [htaken]
    intro ⟨hlive, hkept⟩
    rcases (hwin _).1 (hcov e hlog hlive) with hret | hre
    · exact hsplit.fresh_new g hg (hhash ▸ hret)
    · exact hkept hre

/-- The window of an accepted batch is again in order. -/
theorem WindowOk.receive (hok : WindowOk numberOf c) (hnum : Numbered numberOf batch)
    (h : sb.receive c batch = .ok r) : WindowOk numberOf r.newLastSync := by
  obtain ⟨retained, reorged, fresh, hsplit, hnext⟩ := receive_split hok hnum h
  intro w hw
  rcases (hnext w).1 hw with ⟨hw, -⟩ | ⟨hw, -⟩
  · exact hok w (hsplit.window ▸ List.mem_append_left _ hw)
  · obtain ⟨hne, hall, hn⟩ := hsplit.fresh_ok w hw
    refine ⟨hne, fun e he => ?_, hn⟩
    obtain ⟨⟨hhash, -⟩, hlog⟩ := hall e he
    exact ⟨hhash, by rw [hnum e hlog, hhash]⟩

/-- The entries of a delta are at the heights of their blocks. -/
theorem receive_heights (hok : WindowOk numberOf c) (hnum : Numbered numberOf batch)
    (h : sb.receive c batch = .ok r) : ∀ e ∈ r.eventStream, e.blockNumber = numberOf e.blockHash := by
  obtain ⟨retained, reorged, fresh, hsplit, -⟩ := receive_split hok hnum h
  intro e he
  rw [hsplit.stream, List.mem_append] at he
  rcases he with he | he
  · obtain ⟨w, hw, he⟩ := List.mem_flatMap.1 he
    obtain ⟨e', he', rfl⟩ := List.mem_map.1 he
    obtain ⟨hhash, hn⟩ := (hok w (hsplit.window ▸ List.mem_append_right _ hw)).2.1 e' he'
    exact hn.trans (congrArg numberOf hhash.symm)
  · obtain ⟨g, hg, he⟩ := List.mem_flatMap.1 he
    exact hnum e ((hsplit.fresh_ok g hg).2.1 e he).2

/-- Every applied block from the resume point on is in the window. -/
def Reaches (numberOf : H → ℕ) (sb : StreamBuilder K) (c : LastSync H D)
    (before : List (LogEvent H D)) : Prop :=
  ∀ x ∈ liveBlocks before, getFromBlock c sb.defaultFromBlock sb.finality ≤ numberOf x →
    x ∈ c.unconfirmedBlocks.map (·.hash)

/-- A window that reaches the resume point covers every batch that starts there. -/
theorem Reaches.covered (hre : Reaches numberOf sb c before) (hnum : Numbered numberOf batch)
    (h : sb.receive c batch = .ok r) : Covered c before batch := by
  obtain ⟨hwf, hgen⟩ := receive_ok h
  have hfrom : batch.fromBlock = getFromBlock c sb.defaultFromBlock sb.finality :=
    (generate_ok_iff _ _ _ _).1 ⟨r, hgen⟩
  intro e he hlive
  refine hre _ hlive ?_
  have := (hwf.inRange e he).1
  rw [← hnum e he]
  omega

/-- **The window reaches the resume point while the tip does not fall.** -/
theorem Reaches.receive (hok : WindowOk numberOf c) (hre : Reaches numberOf sb c before)
    (htip : c.latestBlock ≤ batch.latestBlock) (hnum : Numbered numberOf batch)
    (h : sb.receive c batch = .ok r) : Reaches numberOf sb r.newLastSync (before ++ r.eventStream) := by
  obtain ⟨hwf, hgen⟩ := receive_ok h
  have hfrom : batch.fromBlock = getFromBlock c sb.defaultFromBlock sb.finality :=
    (generate_ok_iff _ _ _ _).1 ⟨r, hgen⟩
  obtain ⟨-, hlatest, hto⟩ := generate_sync hgen
  obtain ⟨retained, reorged, fresh, hsplit, hnext⟩ := receive_split hok hnum h
  obtain ⟨-, -, hlive⟩ := hsplit.halves before hok
  have hle := hwf.from_le_to
  have hle' := hwf.to_le_tip
  simp only at hlatest hto
  intro x hx hge
  have hlow : batch.fromBlock ≤ numberOf x ∧
      (batch.latestBlock - numberOf x ≤ sb.finality ∨ batch.toBlock < numberOf x) := by
    unfold getFromBlock at hge hfrom
    rw [hlatest, hto] at hge
    split at hge <;> split at hfrom <;> omega
  rcases (hlive x).1 hx with ⟨hbefore, hkept⟩ | hfresh
  · have hmem := hre x hbefore (hfrom ▸ hlow.1)
    rw [hsplit.window, List.map_append, List.mem_append] at hmem
    obtain ⟨w, hw, rfl⟩ := List.mem_map.1 (hmem.resolve_right hkept)
    have hn := (hok w (hsplit.window ▸ List.mem_append_left _ hw)).2.2
    exact List.mem_map.2 ⟨w, (hnext w).2 (Or.inl ⟨hw, by omega⟩), rfl⟩
  · obtain ⟨g, hg, rfl⟩ := List.mem_map.1 hfresh
    obtain ⟨hne, hall, hn⟩ := hsplit.fresh_ok g hg
    obtain ⟨e, he⟩ := List.exists_mem_of_ne_nil _ hne
    obtain ⟨⟨hhash, -⟩, hlog⟩ := hall e he
    have hrange := (hwf.inRange e hlog).2
    rw [hnum e hlog, hhash] at hrange
    exact List.mem_map.2 ⟨g, (hnext g).2 (Or.inr ⟨hg, by omega⟩), rfl⟩

end Step

/-! ### Sequences of batches -/

/-- A batch and what receiving it derived. -/
structure Receipt (K H D : Type) where
  batch : WireBatch K H D
  appended : Appended H D
  deriving DecidableEq, Repr

/-- The deltas of a sequence of batches. -/
def received (rs : List (Receipt K H D)) : List (Appended H D) := rs.map (·.appended)

omit [DecidableEq K] [DecidableEq H] in
@[simp] theorem received_concat (rs : List (Receipt K H D)) (r : Receipt K H D) :
    received (rs ++ [r]) = received rs ++ [r.appended] := by
  simp [received]

/-- **The sequences of batches a receiver accepts**, each against the cursor the ones
before it left. -/
inductive Accepted (sb : StreamBuilder K) : List (Receipt K H D) → Prop
  | start : Accepted sb []
  | receive {rs : List (Receipt K H D)} {batch : WireBatch K H D} {r : Appended H D}
      (run : Accepted sb rs) (ok : sb.receive (cursorAfter (received rs)) batch = .ok r) :
      Accepted sb (rs ++ [⟨batch, r⟩])

section Sequence

variable {numberOf : H → ℕ} {sb : StreamBuilder K} {rs pre : List (Receipt K H D)} {r : Receipt K H D}

theorem Accepted.step (run : Accepted sb rs) (hpre : pre ++ [r] <+: rs) :
    Accepted sb pre ∧ sb.receive (cursorAfter (received pre)) r.batch = .ok r.appended := by
  induction run with
  | start => simp at hpre
  | @receive rs batch a run ok ih =>
    rcases List.prefix_concat_iff.1 hpre with heq | hpre
    · obtain ⟨rfl, hr⟩ := List.append_inj' heq rfl
      obtain rfl : r = ⟨batch, a⟩ := by simpa using hr
      exact ⟨run, ok⟩
    · exact ih hpre

theorem Accepted.windowOk (run : Accepted sb rs) (hn : ∀ r ∈ rs, Numbered numberOf r.batch) :
    WindowOk numberOf (cursorAfter (received rs)) := by
  induction run with
  | start => simp [WindowOk, received, LastSync.fresh]
  | @receive rs batch a run ok ih =>
    rw [received_concat, cursorAfter_concat]
    exact (ih fun r hr => hn r (List.mem_append_left _ hr)).receive (hn ⟨batch, a⟩ (by simp)) ok

/-- The entries of accepted batches are at the heights of their blocks. -/
theorem Accepted.heights (run : Accepted sb rs) (hn : ∀ r ∈ rs, Numbered numberOf r.batch) :
    ∀ e ∈ emitted (received rs), e.blockNumber = numberOf e.blockHash := by
  induction run with
  | start => simp [received]
  | @receive rs batch a run ok ih =>
    have hn' : ∀ r ∈ rs, Numbered numberOf r.batch := fun r hr => hn r (List.mem_append_left _ hr)
    intro e he
    rw [received_concat, emitted_concat, List.mem_append] at he
    rcases he with he | he
    · exact ih hn' e he
    · exact receive_heights (run.windowOk hn') (hn ⟨batch, a⟩ (by simp)) ok e he

theorem Accepted.latestBlock (run : Accepted sb rs) :
    ∀ r ∈ rs.getLast?, (cursorAfter (received rs)).latestBlock = r.batch.latestBlock := by
  cases run with
  | start => simp
  | @receive rs batch a run ok =>
    intro r hr
    obtain rfl : ⟨batch, a⟩ = r := by simpa using hr
    rw [received_concat, cursorAfter_concat]
    exact (generate_sync (receive_ok ok).2).2.1

/-- While the reported tips do not fall, the window reaches the resume point. -/
theorem Accepted.reaches (run : Accepted sb rs) (hn : ∀ r ∈ rs, Numbered numberOf r.batch)
    (htips : rs.IsChain fun r s => r.batch.latestBlock ≤ s.batch.latestBlock) :
    Reaches numberOf sb (cursorAfter (received rs)) (emitted (received rs)) := by
  induction run with
  | start => simp [Reaches, received, liveBlocks]
  | @receive rs batch a run ok ih =>
    have hn' : ∀ r ∈ rs, Numbered numberOf r.batch := fun r hr => hn r (List.mem_append_left _ hr)
    obtain ⟨hchain, -, hlast⟩ := List.isChain_append.1 htips
    have htip : (cursorAfter (received rs)).latestBlock ≤ batch.latestBlock := by
      rcases rs.eq_nil_or_concat with rfl | ⟨rs, r, rfl⟩
      · exact Nat.zero_le _
      · rw [List.concat_eq_append] at *
        have hr : r ∈ (rs ++ [r]).getLast? := by simp
        rw [run.latestBlock r hr]
        exact hlast r hr ⟨batch, a⟩ (by simp)
    rw [received_concat, cursorAfter_concat, emitted_concat]
    exact (ih hn' hchain).receive (run.windowOk hn') htip (hn ⟨batch, a⟩ (by simp)) ok

/-- **No block is delivered twice** in a sequence of accepted batches exactly when, at
each batch, the window still lists every applied block the batch reads again; and it does
at every batch while the reported tips do not fall. -/
theorem accepted_once (run : Accepted sb rs) (hn : ∀ r ∈ rs, Numbered numberOf r.batch) :
    ((∀ pre r, pre ++ [r] <+: rs → Once (emitted (received pre)) r.appended.eventStream) ↔
      ∀ pre r, pre ++ [r] <+: rs →
        Covered (cursorAfter (received pre)) (emitted (received pre)) r.batch) ∧
    (rs.IsChain (fun r s => r.batch.latestBlock ≤ s.batch.latestBlock) → ∀ pre r, pre ++ [r] <+: rs →
      Covered (cursorAfter (received pre)) (emitted (received pre)) r.batch) := by
  have hsub : ∀ pre r, pre ++ [r] <+: rs →
      (∀ s ∈ pre, Numbered numberOf s.batch) ∧ Numbered numberOf r.batch := by
    intro pre r hpre
    exact ⟨fun s hs => hn s (hpre.subset (List.mem_append_left _ hs)), hn r (hpre.subset (by simp))⟩
  have hstep : ∀ pre r, pre ++ [r] <+: rs →
      (Once (emitted (received pre)) r.appended.eventStream ↔
        Covered (cursorAfter (received pre)) (emitted (received pre)) r.batch) := by
    intro pre r hpre
    obtain ⟨hrun, hok⟩ := run.step hpre
    obtain ⟨hnpre, hnr⟩ := hsub pre r hpre
    exact once_iff (hrun.windowOk hnpre) hnr hok
  refine ⟨⟨fun h pre r hpre => (hstep pre r hpre).1 (h pre r hpre),
    fun h pre r hpre => (hstep pre r hpre).2 (h pre r hpre)⟩, fun htips pre r hpre => ?_⟩
  obtain ⟨hrun, hok⟩ := run.step hpre
  obtain ⟨hnpre, hnr⟩ := hsub pre r hpre
  have hchain : pre.IsChain fun r s => r.batch.latestBlock ≤ s.batch.latestBlock := by
    obtain ⟨rest, rfl⟩ := hpre
    exact (List.isChain_append.1 (List.isChain_append.1 htips).1).1
  exact (hrun.reaches hnpre hchain).covered hnr hok

/-- Two batches under a rising tip: the second re-reads block `3` and replaces block `5`. -/
def risingTips : List (Receipt Unit ℕ Unit) :=
  [⟨⟨(), 0, 5, 5, [⟨3, 3, 0, false, ()⟩, ⟨5, 5, 0, false, ()⟩]⟩,
      ⟨[⟨3, 3, 0, false, ()⟩, ⟨5, 5, 0, false, ()⟩],
        ⟨0, 5, 5, [⟨3, 3, [⟨3, 3, 0, false, ()⟩]⟩, ⟨5, 5, [⟨5, 5, 0, false, ()⟩]⟩]⟩, none⟩⟩,
    ⟨⟨(), 2, 6, 6, [⟨3, 3, 0, false, ()⟩, ⟨105, 5, 0, false, ()⟩]⟩,
      ⟨[⟨5, 5, 0, true, ()⟩, ⟨105, 5, 0, false, ()⟩],
        ⟨2, 6, 6, [⟨3, 3, [⟨3, 3, 0, false, ()⟩]⟩, ⟨105, 5, [⟨105, 5, 0, false, ()⟩]⟩]⟩,
        some ⟨.contradiction, 5, 5⟩⟩⟩]

theorem accepted_risingTips : Accepted ⟨(), 0, 3⟩ risingTips :=
  .receive (.receive .start rfl) rfl

theorem accepted_once_risingTips : Accepted ⟨(), 0, 3⟩ risingTips ∧ ∀ pre r, pre ++ [r] <+: risingTips →
    Once (emitted (received pre)) r.appended.eventStream := by
  have hn : ∀ r ∈ risingTips, Numbered (· % 100) r.batch := by decide
  obtain ⟨hiff, htips⟩ := accepted_once accepted_risingTips hn
  exact ⟨accepted_risingTips, hiff.2 (htips (by decide))⟩

/-- Three batches whose reported tip falls from `5` to `4`: block `3`, pruned at tip `5`,
is within reach again at tip `4`. -/
def fallingTips : List (Receipt Unit ℕ Unit) :=
  [⟨⟨(), 0, 5, 5, [⟨3, 3, 0, false, ()⟩]⟩, ⟨[⟨3, 3, 0, false, ()⟩], ⟨0, 5, 5, []⟩, none⟩⟩,
    ⟨⟨(), 4, 4, 4, []⟩, ⟨[], ⟨4, 4, 4, []⟩, none⟩⟩,
    ⟨⟨(), 3, 4, 4, [⟨3, 3, 0, false, ()⟩]⟩,
      ⟨[⟨3, 3, 0, false, ()⟩], ⟨3, 4, 4, [⟨3, 3, [⟨3, 3, 0, false, ()⟩]⟩]⟩, none⟩⟩]

/-- **A lower tip delivers a block twice.** -/
theorem fallingTips_twice : Accepted ⟨(), 0, 1⟩ fallingTips ∧
    (∀ r ∈ fallingTips, Numbered (· % 100) r.batch) ∧
    ¬∀ pre r, pre ++ [r] <+: fallingTips → Once (emitted (received pre)) r.appended.eventStream := by
  refine ⟨.receive (.receive (.receive .start rfl) rfl) rfl, by decide, fun h => ?_⟩
  have hlast := h (fallingTips.take 2) ⟨⟨(), 3, 4, 4, [⟨3, 3, 0, false, ()⟩]⟩,
    ⟨[⟨3, 3, 0, false, ()⟩], ⟨3, 4, 4, [⟨3, 3, [⟨3, 3, 0, false, ()⟩]⟩]⟩, none⟩⟩ (by decide)
  revert hlast
  decide

end Sequence

end Etherfold
