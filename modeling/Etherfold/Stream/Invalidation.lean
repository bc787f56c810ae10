import Etherfold.Stream.SourceHashes

/-!
# When what is stored is still valid

A stored context is compared with a source entry by entry, once by the digests
decoding depends on and once by those the filter is built from. An entry that is
new below what was indexed invalidates both; one that is gone, only the state.

* `verdictOn_spec`: **what a verdict is**: the lowest block of a digest added or
  removed below what was indexed.
* `verdictOn_congr`: a verdict does not depend on the order of the entries.
* `invalidation_layered`: **when the stream is valid**, that an invalid stream is an
  invalid state from no later on, and that spelling does not matter.
-/

namespace Etherfold

/-! ### The verdict on two lists -/

section Verdict

variable {current stored : List SourceHashEntry} {digest : SourceHashEntry → Option Text} {lastToBlock : ℤ}

/-- The entries of a list whose digest the other lacks. -/
def lacking (digest : SourceHashEntry → Option Text) (entries others : List SourceHashEntry) : List SourceHashEntry :=
  entries.filter fun entry => digest entry ∉ others.map digest

theorem mem_lacking {entries others : List SourceHashEntry} {entry : SourceHashEntry} :
    entry ∈ lacking digest entries others ↔
      entry ∈ entries ∧ ∀ other ∈ others, digest other ≠ digest entry := by
  unfold lacking
  rw [List.mem_filter]
  simp only [List.mem_map, not_exists, not_and, decide_eq_true_eq]

/-- A pass over entries keeps the lowest block, and the verdict before it where that is no
higher. -/
theorem foldl_invalidFrom (reason : ℤ → InvalidationReason) (entries : List SourceHashEntry)
    (verdict : InvalidationVerdict) :
    (entries.foldl (fun verdict entry => invalidFrom verdict entry.startBlock (reason entry.startBlock)) verdict =
        verdict ∧ ∀ entry ∈ entries, ∃ block why, verdict = .invalid block why ∧ block ≤ entry.startBlock) ∨
      ∃ entry ∈ entries,
        entries.foldl (fun verdict entry => invalidFrom verdict entry.startBlock (reason entry.startBlock)) verdict =
          .invalid entry.startBlock (reason entry.startBlock) ∧
        (∀ other ∈ entries, entry.startBlock ≤ other.startBlock) ∧
        ∀ block why, verdict = .invalid block why → entry.startBlock < block := by
  induction entries generalizing verdict with
  | nil => exact .inl ⟨rfl, by simp⟩
  | cons first rest ih =>
    rw [List.foldl_cons]
    cases verdict with
    | valid =>
      -- the first entry is the lowest so far
      have hfirst : invalidFrom .valid first.startBlock (reason first.startBlock) =
          .invalid first.startBlock (reason first.startBlock) := rfl
      rw [hfirst]
      rcases ih (.invalid first.startBlock (reason first.startBlock)) with ⟨heq, hle⟩ | ⟨entry, hmem, heq, hle, hlt⟩
      · refine .inr ⟨first, List.mem_cons_self, heq, fun other hother => ?_, by simp⟩
        rcases List.mem_cons.1 hother with rfl | hother
        · exact le_rfl
        · obtain ⟨block, why, hv, hb⟩ := hle other hother
          injection hv with hv _
          omega
      · refine .inr ⟨entry, List.mem_cons_of_mem _ hmem, heq, fun other hother => ?_, by simp⟩
        rcases List.mem_cons.1 hother with rfl | hother
        · exact (hlt _ _ rfl).le
        · exact hle other hother
    | invalid lowest why =>
      by_cases hlower : first.startBlock < lowest
      · have hfirst : invalidFrom (.invalid lowest why) first.startBlock (reason first.startBlock) =
            .invalid first.startBlock (reason first.startBlock) := if_pos hlower
        rw [hfirst]
        rcases ih (.invalid first.startBlock (reason first.startBlock)) with ⟨heq, hle⟩ | ⟨entry, hmem, heq, hle, hlt⟩
        · refine .inr ⟨first, List.mem_cons_self, heq, fun other hother => ?_, ?_⟩
          · rcases List.mem_cons.1 hother with rfl | hother
            · exact le_rfl
            · obtain ⟨block, why', hv, hb⟩ := hle other hother
              injection hv with hv _
              omega
          · rintro block why' ⟨⟩
            exact hlower
        · refine .inr ⟨entry, List.mem_cons_of_mem _ hmem, heq, fun other hother => ?_, ?_⟩
          · rcases List.mem_cons.1 hother with rfl | hother
            · exact (hlt _ _ rfl).le
            · exact hle other hother
          · rintro block why' ⟨⟩
            exact (hlt _ _ rfl).trans hlower
      · have hkept : invalidFrom (.invalid lowest why) first.startBlock (reason first.startBlock) =
            .invalid lowest why := if_neg hlower
        rw [hkept]
        rcases ih (.invalid lowest why) with ⟨heq, hle⟩ | ⟨entry, hmem, heq, hle, hlt⟩
        · refine .inl ⟨heq, fun other hother => ?_⟩
          rcases List.mem_cons.1 hother with rfl | hother
          · exact ⟨lowest, why, rfl, not_lt.1 hlower⟩
          · exact hle other hother
        · refine .inr ⟨entry, List.mem_cons_of_mem _ hmem, heq, fun other hother => ?_, hlt⟩
          rcases List.mem_cons.1 hother with rfl | hother
          · have := hlt _ _ rfl
            omega
          · exact hle other hother

/-- Blocks at which a digest of one list is missing from the other, below what was indexed. -/
def Moved (digest : SourceHashEntry → Option Text) (entries others : List SourceHashEntry) (lastToBlock block : ℤ) :
    Prop :=
  block ≤ lastToBlock ∧ ∃ entry ∈ lacking digest entries others, entry.startBlock = block

/-- The reason that goes with the block of a verdict. -/
def reasonAt (added removed : List SourceHashEntry) (block : ℤ) : InvalidationReason :=
  if block ∈ added.map (·.startBlock) then
    if block ∈ removed.map (·.startBlock) then .entryChanged else .entryAdded
  else .entryRemoved

/-- **What a verdict is**: valid where no digest was added or removed below what was indexed,
and otherwise invalid from the lowest block one was. -/
theorem verdictOn_spec (removalInvalidates : Bool) :
    (verdictOn current stored digest lastToBlock removalInvalidates = .valid ∧
      (∀ block, ¬ Moved digest current stored lastToBlock block) ∧
      (removalInvalidates → ∀ block, ¬ Moved digest stored current lastToBlock block)) ∨
    ∃ block, verdictOn current stored digest lastToBlock removalInvalidates =
        .invalid block (reasonAt (lacking digest current stored)
          (if removalInvalidates then lacking digest stored current else []) block) ∧
      (Moved digest current stored lastToBlock block ∨
        removalInvalidates ∧ Moved digest stored current lastToBlock block) ∧
      (∀ other, Moved digest current stored lastToBlock other → block ≤ other) ∧
      (removalInvalidates → ∀ other, Moved digest stored current lastToBlock other → block ≤ other) := by
  set added := lacking digest current stored with hadded
  set removed := if removalInvalidates then lacking digest stored current else [] with hremoved
  have hverdict : verdictOn current stored digest lastToBlock removalInvalidates =
      (removed.filter (·.startBlock ≤ lastToBlock)).foldl (fun verdict entry =>
        invalidFrom verdict entry.startBlock
          (if entry.startBlock ∈ added.map (·.startBlock) then .entryChanged else .entryRemoved))
        ((added.filter (·.startBlock ≤ lastToBlock)).foldl (fun verdict entry =>
          invalidFrom verdict entry.startBlock
            (if entry.startBlock ∈ removed.map (·.startBlock) then .entryChanged else .entryAdded)) .valid) := rfl
  have hmoved : ∀ (entries : List SourceHashEntry) entry, entry ∈ entries.filter (·.startBlock ≤ lastToBlock) ↔
      entry ∈ entries ∧ entry.startBlock ≤ lastToBlock := by
    intro entries entry
    simp
  have hremovedMem : ∀ entry, entry ∈ removed ↔ removalInvalidates ∧ entry ∈ lacking digest stored current := by
    intro entry
    rw [hremoved]
    cases removalInvalidates <;> simp
  rw [hverdict]
  rcases foldl_invalidFrom (fun block => if block ∈ removed.map (·.startBlock) then .entryChanged else .entryAdded)
    (added.filter (·.startBlock ≤ lastToBlock)) .valid with ⟨heq, hnone⟩ | ⟨entry, hmem, heq, hlow, -⟩
  · have hnone : ∀ block, ¬ Moved digest current stored lastToBlock block := by
      rintro block ⟨hle, entry, hmem, rfl⟩
      obtain ⟨_, _, hv, -⟩ := hnone entry ((hmoved _ _).2 ⟨hmem, hle⟩)
      cases hv
    rw [heq]
    rcases foldl_invalidFrom (fun block => if block ∈ added.map (·.startBlock) then .entryChanged else .entryRemoved)
      (removed.filter (·.startBlock ≤ lastToBlock)) .valid with ⟨heq', hnone'⟩ | ⟨entry, hmem, heq', hlow, -⟩
    · refine .inl ⟨heq', hnone, fun hr => ?_⟩
      rintro block ⟨hle, entry, hmem, rfl⟩
      obtain ⟨_, _, hv, -⟩ := hnone' entry ((hmoved _ _).2 ⟨(hremovedMem entry).2 ⟨hr, hmem⟩, hle⟩)
      cases hv
    · obtain ⟨hmem, hle⟩ := (hmoved _ _).1 hmem
      obtain ⟨hr, hmem⟩ := (hremovedMem entry).1 hmem
      have hout : entry.startBlock ∉ added.map (·.startBlock) := by
        intro hin
        obtain ⟨other, hother, hsame⟩ := List.mem_map.1 hin
        exact hnone _ ⟨hsame ▸ hle, other, hother, rfl⟩
      refine .inr ⟨entry.startBlock, ?_, .inr ⟨hr, hle, entry, hmem, rfl⟩, fun other ho => absurd ho (hnone other), ?_⟩
      · rw [heq']
        unfold reasonAt
        rw [if_neg hout, if_neg hout]
      · rintro - other ⟨hle', entry', hmem', rfl⟩
        exact hlow entry' ((hmoved _ _).2 ⟨(hremovedMem entry').2 ⟨hr, hmem'⟩, hle'⟩)
  · obtain ⟨hmem, hle⟩ := (hmoved _ _).1 hmem
    have hlow : ∀ other, Moved digest current stored lastToBlock other → entry.startBlock ≤ other := by
      rintro other ⟨hle', entry', hmem', rfl⟩
      exact hlow entry' ((hmoved _ _).2 ⟨hmem', hle'⟩)
    have hin : entry.startBlock ∈ added.map (·.startBlock) := List.mem_map_of_mem hmem
    rw [heq]
    rcases foldl_invalidFrom (fun block => if block ∈ added.map (·.startBlock) then .entryChanged else .entryRemoved)
      (removed.filter (·.startBlock ≤ lastToBlock)) (.invalid entry.startBlock
        (if entry.startBlock ∈ removed.map (·.startBlock) then .entryChanged else .entryAdded)) with
      ⟨heq', hnone'⟩ | ⟨entry', hmem', heq', hlow', hlt⟩
    · refine .inr ⟨entry.startBlock, ?_, .inl ⟨hle, entry, hmem, rfl⟩, hlow, fun hr => ?_⟩
      · rw [heq']
        unfold reasonAt
        rw [if_pos hin]
      · rintro other ⟨hle', entry', hmem', rfl⟩
        obtain ⟨_, _, hv, hb⟩ := hnone' entry' ((hmoved _ _).2 ⟨(hremovedMem entry').2 ⟨hr, hmem'⟩, hle'⟩)
        injection hv with hv _
        omega
    · obtain ⟨hmem', hle'⟩ := (hmoved _ _).1 hmem'
      obtain ⟨hr, hmem'⟩ := (hremovedMem entry').1 hmem'
      have hlt := hlt _ _ rfl
      have hout : entry'.startBlock ∉ added.map (·.startBlock) := by
        intro hin'
        obtain ⟨other, hother, hsame⟩ := List.mem_map.1 hin'
        have := hlow _ ⟨hsame ▸ hle', other, hother, rfl⟩
        omega
      refine .inr ⟨entry'.startBlock, ?_, .inr ⟨hr, hle', entry', hmem', rfl⟩, fun other ho => ?_, ?_⟩
      · rw [heq']
        unfold reasonAt
        rw [if_neg hout, if_neg hout]
      · exact hlt.le.trans (hlow other ho)
      · rintro - other ⟨hle'', entry'', hmem'', rfl⟩
        exact hlow' entry'' ((hmoved _ _).2 ⟨(hremovedMem entry'').2 ⟨hr, hmem''⟩, hle''⟩)

/-- A verdict that does not count removals is valid exactly where no digest was added. -/
theorem verdictOn_valid_iff {removalInvalidates : Bool} :
    verdictOn current stored digest lastToBlock removalInvalidates = .valid ↔
      (∀ block, ¬ Moved digest current stored lastToBlock block) ∧
      (removalInvalidates → ∀ block, ¬ Moved digest stored current lastToBlock block) := by
  rcases @verdictOn_spec current stored digest lastToBlock removalInvalidates with ⟨hv, h⟩ | ⟨block, hv, hmoved, -⟩
  · exact iff_of_true hv h
  · rw [hv]
    refine iff_of_false (by rintro ⟨⟩) fun h => ?_
    rcases hmoved with hmoved | ⟨hr, hmoved⟩
    · exact h.1 block hmoved
    · exact h.2 hr block hmoved

/-- What a verdict reads of an entry. -/
def pairOf (digest : SourceHashEntry → Option Text) (entry : SourceHashEntry) : ℤ × Option Text :=
  (entry.startBlock, digest entry)

theorem exists_lacking {entries others : List SourceHashEntry} {block : ℤ} :
    (∃ entry ∈ lacking digest entries others, entry.startBlock = block) ↔
      ∃ pair ∈ entries.map (pairOf digest), pair.1 = block ∧ ∀ other ∈ others.map (pairOf digest), other.2 ≠ pair.2 := by
  simp only [mem_lacking, List.mem_map, pairOf]
  constructor
  · rintro ⟨entry, ⟨hmem, hno⟩, rfl⟩
    refine ⟨_, ⟨entry, hmem, rfl⟩, rfl, ?_⟩
    rintro _ ⟨other, hother, rfl⟩
    exact hno other hother
  · rintro ⟨_, ⟨entry, hmem, rfl⟩, rfl, hno⟩
    exact ⟨entry, ⟨hmem, fun other hother => hno _ ⟨other, hother, rfl⟩⟩, rfl⟩

section Congr

variable {current' stored' : List SourceHashEntry}
  (hcurrent : ∀ pair, pair ∈ current.map (pairOf digest) ↔ pair ∈ current'.map (pairOf digest))
  (hstored : ∀ pair, pair ∈ stored.map (pairOf digest) ↔ pair ∈ stored'.map (pairOf digest))

include hcurrent hstored

theorem exists_lacking_congr (block : ℤ) :
    (∃ entry ∈ lacking digest current stored, entry.startBlock = block) ↔
      ∃ entry ∈ lacking digest current' stored', entry.startBlock = block := by
  rw [exists_lacking, exists_lacking]
  simp only [hcurrent, hstored]

theorem moved_congr (block : ℤ) :
    Moved digest current stored lastToBlock block ↔ Moved digest current' stored' lastToBlock block :=
  and_congr_right fun _ => exists_lacking_congr hcurrent hstored block

/-- **A verdict does not depend on the order of the entries**, nor on how often one is listed. -/
theorem verdictOn_congr (removalInvalidates : Bool) :
    verdictOn current stored digest lastToBlock removalInvalidates =
      verdictOn current' stored' digest lastToBlock removalInvalidates := by
  have hadded := @moved_congr _ _ _ lastToBlock _ _ hcurrent hstored
  have hremoved := @moved_congr _ _ _ lastToBlock _ _ hstored hcurrent
  rcases @verdictOn_spec current stored digest lastToBlock removalInvalidates with
    ⟨hv, h⟩ | ⟨block, hv, hmoved, hlow, hlow'⟩
  · rw [hv]
    refine (verdictOn_valid_iff.2 ⟨fun b => ?_, fun hr b => ?_⟩).symm
    · rw [← hadded]
      exact h.1 b
    · rw [← hremoved]
      exact h.2 hr b
  · rcases @verdictOn_spec current' stored' digest lastToBlock removalInvalidates with
      ⟨hv', h⟩ | ⟨other, hv', hmoved', hother, hother'⟩
    · rcases hmoved with hmoved | ⟨hr, hmoved⟩
      · exact absurd ((hadded _).1 hmoved) (h.1 _)
      · exact absurd ((hremoved _).1 hmoved) (h.2 hr _)
    -- each block is at most the other
    · have hsame : block = other := by
        apply le_antisymm
        · rcases hmoved' with hmoved' | ⟨hr, hmoved'⟩
          · exact hlow _ ((hadded _).2 hmoved')
          · exact hlow' hr _ ((hremoved _).2 hmoved')
        · rcases hmoved with hmoved | ⟨hr, hmoved⟩
          · exact hother _ ((hadded _).1 hmoved)
          · exact hother' hr _ ((hremoved _).1 hmoved)
      have hin : block ∈ (lacking digest current stored).map (·.startBlock) ↔
          block ∈ (lacking digest current' stored').map (·.startBlock) := by
        rw [List.mem_map, List.mem_map]
        exact exists_lacking_congr hcurrent hstored block
      have hout : block ∈ (if removalInvalidates then lacking digest stored current else []).map (·.startBlock) ↔
          block ∈ (if removalInvalidates then lacking digest stored' current' else []).map (·.startBlock) := by
        cases removalInvalidates with
        | false => simp
        | true =>
          simp only [if_true]
          rw [List.mem_map, List.mem_map]
          exact exists_lacking_congr hstored hcurrent block
      rw [hv, hv', ← hsame]
      unfold reasonAt
      simp only [hin, hout]

end Congr

end Verdict

/-! ### The verdicts on a context -/

/-- What leaves a stored stream standing, as far as the source goes. One digest of a whole
source has to be the current one; entries that name their filter must lack none of the
current filter below what was indexed; and entries that do not must also name nothing there
that is gone. -/
def StreamStands (current stored : List SourceHashEntry) (lastToBlock : ℤ) : Prop :=
  if isWholeSourceContext stored then stored.head?.map (·.hash) = current.head?.bind (·.legacyHash)
  else if stored.all (·.streamHash.isSome) then
    ∀ entry ∈ current, entry.startBlock ≤ lastToBlock → ∃ other ∈ stored, other.streamHash = entry.streamHash
  else
    (∀ entry ∈ current, entry.startBlock ≤ lastToBlock → ∃ other ∈ stored, other.hash = entry.hash) ∧
      ∀ entry ∈ stored, entry.startBlock ≤ lastToBlock → ∃ other ∈ current, other.hash = entry.hash

section Context

variable {current : List SourceHashEntry} {configHash : Text} {lastToBlock : ℤ} {context : ContextIdentifier}

theorem not_moved_iff {digest : SourceHashEntry → Option Text} {entries others : List SourceHashEntry} :
    (∀ block, ¬ Moved digest entries others lastToBlock block) ↔
      ∀ entry ∈ entries, entry.startBlock ≤ lastToBlock → ∃ other ∈ others, digest other = digest entry := by
  constructor
  · intro h entry hmem hle
    by_contra hnone
    refine h entry.startBlock ⟨hle, entry, mem_lacking.2 ⟨hmem, fun other hother heq => ?_⟩, rfl⟩
    exact hnone ⟨other, hother, heq⟩
  · rintro h block ⟨hle, entry, hlacks, rfl⟩
    obtain ⟨hmem, hno⟩ := mem_lacking.1 hlacks
    obtain ⟨other, hother, heq⟩ := h entry hmem hle
    exact hno other hother heq

/-- A context of one whole-source entry is compared by that one digest. -/
theorem sourceInvalidationOf_whole (hconfig : context.config = configHash)
    (hwhole : isWholeSourceContext context.source) {legacyHash : Text}
    (hlegacy : current.head?.bind (·.legacyHash) = some legacyHash) :
    sourceInvalidationOf current configHash lastToBlock context =
      if context.source.head?.map (·.hash) = some legacyHash then ⟨.valid, .valid⟩
      else ⟨.invalid 0 .entryChanged, .invalid 0 .entryChanged⟩ := by
  unfold sourceInvalidationOf
  rw [if_neg (not_not.2 hconfig), hlegacy, hwhole]
  rfl

/-- Any other context is compared entry by entry. -/
theorem sourceInvalidationOf_entries (hconfig : context.config = configHash)
    (hwhole : ¬ isWholeSourceContext context.source) :
    sourceInvalidationOf current configHash lastToBlock context =
      ⟨verdictOn current context.source (fun entry => some entry.hash) lastToBlock true,
        if current.all (·.streamHash.isSome) && context.source.all (·.streamHash.isSome) then
          verdictOn current context.source (·.streamHash) lastToBlock false
        else verdictOn current context.source (fun entry => some entry.hash) lastToBlock true⟩ := by
  have hnone : (current.head?.bind (·.legacyHash)).filter (fun _ => isWholeSourceContext context.source) = none := by
    rw [Option.filter_eq_none_iff]
    intro legacyHash _
    exact hwhole
  unfold sourceInvalidationOf
  rw [if_neg (not_not.2 hconfig), hnone]

/-! ### Digests in another order -/

theorem pairOf_mem_of_perm {entries entries' : List SourceHashEntry}
    (h : (entries.map SourceHashEntry.digests).Perm (entries'.map SourceHashEntry.digests))
    {digest : SourceHashEntry → Option Text} (read : ℤ × Text × Option Text → Option Text)
    (hread : ∀ entry, digest entry = read entry.digests) (pair : ℤ × Option Text) :
    pair ∈ entries.map (pairOf digest) ↔ pair ∈ entries'.map (pairOf digest) := by
  have hmap : ∀ entries : List SourceHashEntry,
      entries.map (pairOf digest) = (entries.map SourceHashEntry.digests).map fun d => (d.1, read d) := by
    intro entries
    rw [List.map_map]
    refine List.map_congr_left fun entry _ => ?_
    unfold pairOf
    rw [hread]
    rfl
  rw [hmap, hmap]
  exact (h.map _).mem_iff

theorem all_isSome_perm {entries entries' : List SourceHashEntry}
    (h : (entries.map SourceHashEntry.digests).Perm (entries'.map SourceHashEntry.digests)) :
    entries.all (·.streamHash.isSome) = entries'.all (·.streamHash.isSome) := by
  have hmap : ∀ entries : List SourceHashEntry,
      entries.all (·.streamHash.isSome) = (entries.map SourceHashEntry.digests).all (·.2.2.isSome) := by
    intro entries
    rw [List.all_map]
    rfl
  rw [hmap, hmap]
  exact h.all_eq

/-- Whether a context is of one whole-source entry does not depend on the order, and the
entry then has the one digest. -/
theorem whole_perm {entries entries' : List SourceHashEntry}
    (h : (entries.map SourceHashEntry.digests).Perm (entries'.map SourceHashEntry.digests))
    (hwhole : isWholeSourceContext entries) :
    isWholeSourceContext entries' ∧ entries'.head?.map (·.hash) = entries.head?.map (·.hash) := by
  unfold isWholeSourceContext at hwhole
  split at hwhole
  · rename_i entry
    obtain ⟨entry', rfl, hdigests⟩ := List.map_eq_singleton_iff.1 (List.perm_singleton.1 h.symm)
    unfold SourceHashEntry.digests at hdigests
    simp only [Prod.mk.injEq] at hdigests
    refine ⟨?_, congrArg some hdigests.2.1⟩
    show (decide (entry'.startBlock = 0) && entry'.streamHash.isNone) = true
    rw [hdigests.1, hdigests.2.2]
    exact hwhole
  · exact absurd hwhole Bool.false_ne_true

/-- **The verdicts do not depend on the order of the digests**, but for the first entry's
where a context is of a whole source. -/
theorem sourceInvalidationOf_congr {current' stored' : List SourceHashEntry}
    (hcurrent : (current.map SourceHashEntry.digests).Perm (current'.map SourceHashEntry.digests))
    (hstored : (context.source.map SourceHashEntry.digests).Perm (stored'.map SourceHashEntry.digests))
    (hlegacy : isWholeSourceContext context.source →
      current.head?.bind (·.legacyHash) = current'.head?.bind (·.legacyHash)) :
    sourceInvalidationOf current' configHash lastToBlock { context with source := stored' } =
      sourceInvalidationOf current configHash lastToBlock context := by
  have hstate : verdictOn current' stored' (fun entry => some entry.hash) lastToBlock true =
      verdictOn current context.source (fun entry => some entry.hash) lastToBlock true :=
    (verdictOn_congr (pairOf_mem_of_perm hcurrent (fun d => some d.2.1) fun _ => rfl)
      (pairOf_mem_of_perm hstored (fun d => some d.2.1) fun _ => rfl) _).symm
  have hstream : verdictOn current' stored' (·.streamHash) lastToBlock false =
      verdictOn current context.source (·.streamHash) lastToBlock false :=
    (verdictOn_congr (pairOf_mem_of_perm hcurrent (·.2.2) fun _ => rfl)
      (pairOf_mem_of_perm hstored (·.2.2) fun _ => rfl) _).symm
  by_cases hconfig : context.config = configHash
  · by_cases hwhole : isWholeSourceContext context.source
    · obtain ⟨hwhole', hhead⟩ := whole_perm hstored hwhole
      unfold sourceInvalidationOf
      rw [hlegacy hwhole, hhead, hwhole, hwhole']
      rw [if_neg (not_not.2 hconfig), if_neg (not_not.2 hconfig)]
      cases hl : current'.head?.bind (·.legacyHash) with
      | some legacyHash => rfl
      | none =>
        simp only [Option.filter_none]
        rw [hstate, hstream, all_isSome_perm hcurrent, all_isSome_perm hstored]
    · have hwhole' : ¬ isWholeSourceContext stored' := fun h => hwhole (whole_perm hstored.symm h).1
      rw [sourceInvalidationOf_entries hconfig hwhole,
        @sourceInvalidationOf_entries _ _ _ { context with source := stored' } hconfig hwhole']
      dsimp only
      rw [hstate, hstream, all_isSome_perm hcurrent, all_isSome_perm hstored]
  · unfold sourceInvalidationOf
    rw [if_pos hconfig, if_pos hconfig]

end Context

/-! ### Contexts that were written for a source -/

/-- What leaves a stored state standing: nothing of what decoding reads was added or removed
below what was indexed. -/
def StateStands (current stored : List SourceHashEntry) (lastToBlock : ℤ) : Prop :=
  if isWholeSourceContext stored then stored.head?.map (·.hash) = current.head?.bind (·.legacyHash)
  else
    (∀ entry ∈ current, entry.startBlock ≤ lastToBlock → ∃ other ∈ stored, other.hash = entry.hash) ∧
      ∀ entry ∈ stored, entry.startBlock ≤ lastToBlock → ∃ other ∈ current, other.hash = entry.hash

section Written

variable {T : Type} (s : Selectors T) (simple_hash : Hashed T → Text)

/-- What a stored context can be: the digests of some source in any order, or entries of which
some do not say what filter was fetched under. -/
inductive WrittenBeside (source : DeclaredSource) (stored : List SourceHashEntry) : Prop
  | perEvent {storedSource : DeclaredSource} {entries : List SourceHashEntry}
      (happart : TellsApart s simple_hash source storedSource)
      (hentries : sourceHashEntriesOf s simple_hash storedSource = .ok entries)
      (hdigests : (stored.map SourceHashEntry.digests).Perm (entries.map SourceHashEntry.digests))
  | unfiltered (h : ∃ entry ∈ stored, entry.streamHash = none)

variable {s simple_hash}

/-- The entries of a source, over its skeleton's. -/
theorem sourceHashEntriesOf_ok {source : DeclaredSource} {entries : List SourceHashEntry}
    (h : sourceHashEntriesOf s simple_hash source = .ok entries) :
    ∃ lives, liveEventsOf s source.contracts = .ok lives ∧
      entries = ⟨0, simple_hash (.skeleton (sourceSkeletonOf source)),
        some (simple_hash (.skeleton (sourceSkeletonOf source))), some (simple_hash (.whole source))⟩ ::
          rangeEntries (lives.flatMap (sourceRangesOf s simple_hash)) := by
  unfold sourceHashEntriesOf hashedSource at h
  cases hlives : liveEventsOf s source.contracts with
  | error refusal =>
    rw [hlives] at h
    cases h
  | ok lives =>
    rw [hlives] at h
    injection h with h
    exact ⟨lives, rfl, h.symm⟩

/-- **What decoding reads names the filter**: entries of two sources with one digest of the
first have one of the second. -/
theorem streamHash_of_hash {source source' : DeclaredSource} (happart : TellsApart s simple_hash source source')
    {entries entries' : List SourceHashEntry} (h : sourceHashEntriesOf s simple_hash source = .ok entries)
    (h' : sourceHashEntriesOf s simple_hash source' = .ok entries') {entry entry' : SourceHashEntry}
    (hentry : entry ∈ entries) (hentry' : entry' ∈ entries') (hhash : entry.hash = entry'.hash) :
    entry.streamHash = entry'.streamHash := by
  obtain ⟨lives, hlives, rfl⟩ := sourceHashEntriesOf_ok h
  obtain ⟨lives', hlives', rfl⟩ := sourceHashEntriesOf_ok h'
  have hdecoding : ∀ {lives : List LiveEvent} {r : SourceRange}, r ∈ lives.flatMap (sourceRangesOf s simple_hash) →
      ∃ live ∈ lives, ∃ range ∈ live.ranges,
        r.hash = simple_hash (.decoding live.address live.signature (decodingShapeOf live.event) range) := by
    intro lives r hr
    obtain ⟨live, hlive, hr⟩ := List.mem_flatMap.1 hr
    obtain ⟨range, hrange, rfl⟩ := List.mem_map.1 hr
    exact ⟨live, hlive, range, hrange, rfl⟩
  rcases List.mem_cons.1 hentry with rfl | hentry
  · rcases List.mem_cons.1 hentry' with rfl | hentry'
    · exact congrArg some hhash
    · -- a skeleton's digest is no range's
      obtain ⟨r, hr, rfl⟩ := mem_rangeEntries.1 hentry'
      obtain ⟨live, hlive, range, hrange, heq⟩ := hdecoding hr
      have := happart _ _ (.inl .skeleton) (.inr (.decoding hlives' hlive hrange)) (hhash.trans heq)
      cases this
  · obtain ⟨r, hr, rfl⟩ := mem_rangeEntries.1 hentry
    rcases List.mem_cons.1 hentry' with rfl | hentry'
    · obtain ⟨live, hlive, range, hrange, heq⟩ := hdecoding hr
      have := happart _ _ (.inr .skeleton) (.inl (.decoding hlives hlive hrange)) (hhash.symm.trans heq)
      cases this
    · obtain ⟨r', hr', rfl⟩ := mem_rangeEntries.1 hentry'
      have hsame := sourceRange_eq happart hlives hlives' hr hr' hhash
      exact congrArg (fun r : SourceRange => some r.streamHash) hsame

/-- What is stored under a digest of decoding is stored under its filter. -/
theorem WrittenBeside.streamHash {source : DeclaredSource} {current stored : List SourceHashEntry}
    (hwritten : WrittenBeside s simple_hash source stored)
    (hcurrent : sourceHashEntriesOf s simple_hash source = .ok current)
    (hall : stored.all (·.streamHash.isSome)) {entry other : SourceHashEntry} (hentry : entry ∈ current)
    (hother : other ∈ stored) (hhash : other.hash = entry.hash) : other.streamHash = entry.streamHash := by
  cases hwritten with
  | perEvent happart hentries hdigests =>
    obtain ⟨entry', hentry', hdigest⟩ := List.mem_map.1 (hdigests.mem_iff.1 (List.mem_map_of_mem hother))
    unfold SourceHashEntry.digests at hdigest
    simp only [Prod.mk.injEq] at hdigest
    have hsame := streamHash_of_hash happart hcurrent hentries hentry hentry'
      (hhash.symm.trans hdigest.2.1.symm)
    rw [hsame, hdigest.2.2]
  | unfiltered h =>
    obtain ⟨unnamed, hmem, hnone⟩ := h
    have hsome := List.all_eq_true.1 hall unnamed hmem
    rw [hnone] at hsome
    exact absurd hsome Bool.false_ne_true

end Written

section Layered

variable {T : Type} {s : Selectors T} {simple_hash : Hashed T → Text} {source : DeclaredSource}
  {current : List SourceHashEntry} {context : ContextIdentifier}

theorem legacy_of_entries (hcurrent : sourceHashEntriesOf s simple_hash source = .ok current) :
    current.head?.bind (·.legacyHash) = some (simple_hash (.whole source)) := by
  obtain ⟨lives, -, rfl⟩ := sourceHashEntriesOf_ok hcurrent
  rfl

theorem known_of_entries (hcurrent : sourceHashEntriesOf s simple_hash source = .ok current) :
    current.all (·.streamHash.isSome) := by
  obtain ⟨lives, -, rfl⟩ := sourceHashEntriesOf_ok hcurrent
  rw [List.all_eq_true]
  intro entry hentry
  rcases List.mem_cons.1 hentry with rfl | hentry
  · rfl
  · obtain ⟨r, -, rfl⟩ := mem_rangeEntries.1 hentry
    rfl

theorem verdictOn_hash_valid_iff {stored : List SourceHashEntry} {lastToBlock : ℤ} :
    verdictOn current stored (fun entry => some entry.hash) lastToBlock true = .valid ↔
      (∀ entry ∈ current, entry.startBlock ≤ lastToBlock → ∃ other ∈ stored, other.hash = entry.hash) ∧
        ∀ entry ∈ stored, entry.startBlock ≤ lastToBlock → ∃ other ∈ current, other.hash = entry.hash := by
  rw [verdictOn_valid_iff, not_moved_iff, not_moved_iff]
  simp only [Option.some.injEq, forall_const]

/-- **When the state is valid.** -/
theorem state_valid_iff (hcurrent : sourceHashEntriesOf s simple_hash source = .ok current) (configHash : Text)
    (lastToBlock : ℤ) :
    (sourceInvalidationOf current configHash lastToBlock context).state = .valid ↔
      context.config = configHash ∧ StateStands current context.source lastToBlock := by
  by_cases hconfig : context.config = configHash
  · unfold StateStands
    by_cases hwhole : isWholeSourceContext context.source
    · have hlegacy := legacy_of_entries hcurrent
      rw [sourceInvalidationOf_whole hconfig hwhole hlegacy, if_pos hwhole, hlegacy]
      by_cases hsame : context.source.head?.map (·.hash) = some (simple_hash (.whole source))
      · simp [hsame, hconfig]
      · simp [hsame]
    · rw [sourceInvalidationOf_entries hconfig hwhole, if_neg hwhole, verdictOn_hash_valid_iff]
      exact ⟨fun h => ⟨hconfig, h⟩, fun h => h.2⟩
  · unfold sourceInvalidationOf
    rw [if_pos hconfig]
    exact iff_of_false (by rintro ⟨⟩) fun h => hconfig h.1

/-- **When the stream is valid.** -/
theorem stream_valid_iff (hcurrent : sourceHashEntriesOf s simple_hash source = .ok current) (configHash : Text)
    (lastToBlock : ℤ) :
    (sourceInvalidationOf current configHash lastToBlock context).stream = .valid ↔
      context.config = configHash ∧ StreamStands current context.source lastToBlock := by
  by_cases hconfig : context.config = configHash
  · unfold StreamStands
    by_cases hwhole : isWholeSourceContext context.source
    · have hlegacy := legacy_of_entries hcurrent
      rw [sourceInvalidationOf_whole hconfig hwhole hlegacy, if_pos hwhole, hlegacy]
      by_cases hsame : context.source.head?.map (·.hash) = some (simple_hash (.whole source))
      · simp [hsame, hconfig]
      · simp [hsame]
    · rw [sourceInvalidationOf_entries hconfig hwhole, if_neg hwhole, known_of_entries hcurrent, Bool.true_and]
      dsimp only
      by_cases hall : context.source.all (·.streamHash.isSome)
      · rw [if_pos hall, if_pos hall, verdictOn_valid_iff, not_moved_iff]
        simp [hconfig]
      · rw [if_neg hall, if_neg hall, verdictOn_hash_valid_iff]
        exact ⟨fun h => ⟨hconfig, h⟩, fun h => h.2⟩
  · unfold sourceInvalidationOf
    rw [if_pos hconfig]
    exact iff_of_false (by rintro ⟨⟩) fun h => hconfig h.1

/-- **An invalid stream is an invalid state**, from no later on. -/
theorem state_invalid_of_stream (hcurrent : sourceHashEntriesOf s simple_hash source = .ok current)
    (hwritten : WrittenBeside s simple_hash source context.source) {configHash : Text} {lastToBlock block : ℤ}
    {why : InvalidationReason}
    (hstream : (sourceInvalidationOf current configHash lastToBlock context).stream = .invalid block why) :
    ∃ block' why', (sourceInvalidationOf current configHash lastToBlock context).state = .invalid block' why' ∧
      block' ≤ block := by
  by_cases hconfig : context.config = configHash
  · by_cases hwhole : isWholeSourceContext context.source
    · rw [sourceInvalidationOf_whole hconfig hwhole (legacy_of_entries hcurrent)] at hstream ⊢
      by_cases hsame : context.source.head?.map (·.hash) = some (simple_hash (.whole source))
      · rw [if_pos hsame] at hstream
        cases hstream
      · rw [if_neg hsame] at hstream ⊢
        exact ⟨block, why, hstream, le_rfl⟩
    · rw [sourceInvalidationOf_entries hconfig hwhole, known_of_entries hcurrent, Bool.true_and] at hstream ⊢
      dsimp only at hstream ⊢
      by_cases hall : context.source.all (·.streamHash.isSome)
      · rw [if_pos hall] at hstream
        rcases @verdictOn_spec current context.source (·.streamHash) lastToBlock false with
          ⟨hv, -⟩ | ⟨low, hv, hmoved, -⟩
        · rw [hv] at hstream
          cases hstream
        · rw [hv] at hstream
          injection hstream with hlow _
          subst hlow
          obtain ⟨hle, entry, hlacks, hstart⟩ := hmoved.resolve_right fun h => Bool.false_ne_true h.1
          obtain ⟨hentry, hno⟩ := mem_lacking.1 hlacks
          -- what is stored under its digest of decoding would be stored under its filter
          have hmoved : Moved (fun entry => some entry.hash) current context.source lastToBlock low := by
            refine ⟨hle, entry, mem_lacking.2 ⟨hentry, fun other hother heq => ?_⟩, hstart⟩
            injection heq with heq
            exact hno other hother (hwritten.streamHash hcurrent hall hentry hother heq)
          rcases @verdictOn_spec current context.source (fun entry => some entry.hash) lastToBlock true with
            ⟨-, hnone, -⟩ | ⟨low', hv', -, hlowest, -⟩
          · exact absurd hmoved (hnone low)
          · exact ⟨low', _, hv', hlowest low hmoved⟩
      · rw [if_neg hall] at hstream
        exact ⟨block, why, hstream, le_rfl⟩
  · unfold sourceInvalidationOf at hstream ⊢
    rw [if_pos hconfig] at hstream ⊢
    exact ⟨block, why, hstream, le_rfl⟩

/-- **Invalidation is exact and layered.** The state is valid exactly where nothing of what
decoding reads was added or removed below what was indexed, and the stream where its filter
was not added to; an invalid stream is an invalid state from no later on; and neither
depends on the order of the digests, or on how either source is spelled. -/
theorem invalidation_layered (hcurrent : sourceHashEntriesOf s simple_hash source = .ok current)
    (hwritten : WrittenBeside s simple_hash source context.source) (configHash : Text) (lastToBlock : ℤ) :
    ((sourceInvalidationOf current configHash lastToBlock context).stream = .valid ↔
      context.config = configHash ∧ StreamStands current context.source lastToBlock) ∧
    ((sourceInvalidationOf current configHash lastToBlock context).state = .valid ↔
      context.config = configHash ∧ StateStands current context.source lastToBlock) ∧
    (∀ block why, (sourceInvalidationOf current configHash lastToBlock context).stream = .invalid block why →
      ∃ block' why', (sourceInvalidationOf current configHash lastToBlock context).state = .invalid block' why' ∧
        block' ≤ block) ∧
    (∀ current' stored', current.Perm current' → context.source.Perm stored' →
      (isWholeSourceContext context.source → current'.head? = current.head?) →
      sourceInvalidationOf current' configHash lastToBlock { context with source := stored' } =
        sourceInvalidationOf current configHash lastToBlock context) ∧
    (∀ source', TellsApart s simple_hash source source' → RespelledSource source source' → ClearSource s source →
      ¬ isWholeSourceContext context.source → ∃ current', sourceHashEntriesOf s simple_hash source' = .ok current' ∧
        sourceInvalidationOf current' configHash lastToBlock context =
          sourceInvalidationOf current configHash lastToBlock context) ∧
    ∀ storedSource storedSource' entries, TellsApart s simple_hash storedSource storedSource' →
      RespelledSource storedSource storedSource' → ClearSource s storedSource →
      sourceHashEntriesOf s simple_hash storedSource = .ok entries →
      (context.source.map SourceHashEntry.digests).Perm (entries.map SourceHashEntry.digests) →
      ∃ entries', sourceHashEntriesOf s simple_hash storedSource' = .ok entries' ∧
        sourceInvalidationOf current configHash lastToBlock { context with source := entries' } =
          sourceInvalidationOf current configHash lastToBlock context := by
  refine ⟨stream_valid_iff hcurrent configHash lastToBlock, state_valid_iff hcurrent configHash lastToBlock,
    fun block why h => state_invalid_of_stream hcurrent hwritten h, ?_, ?_, ?_⟩
  · intro current' stored' hperm hperm' hhead
    refine sourceInvalidationOf_congr (hperm.map _) (hperm'.map _) fun hwhole => ?_
    rw [hhead hwhole]
  · intro source' _ hspelled hclear hwhole
    obtain ⟨current', hcurrent', hdigests, -⟩ := digests_respelled hspelled hclear hcurrent
    refine ⟨current', hcurrent', ?_⟩
    exact sourceInvalidationOf_congr hdigests (.refl _) fun h => absurd h hwhole
  · intro storedSource storedSource' entries _ hspelled hclear hentries hperm
    obtain ⟨entries', hentries', hdigests, -⟩ := digests_respelled hspelled hclear hentries
    refine ⟨entries', hentries', ?_⟩
    exact sourceInvalidationOf_congr (.refl _) (hperm.trans hdigests) fun _ => rfl

end Layered

/-! ### Where the order or a removal counts -/

/-- One contract whose ABI is its first event, or both. -/
def grownSource (both : Bool) : DeclaredSource :=
  let first : AbiEvent := ⟨"E", [], none, none, none⟩
  let second : AbiEvent := ⟨"F", [], none, some 5, none⟩
  ⟨[1], none, .each [⟨some "a", if both then [.event first, .event second] else [.event first], none⟩]⟩

/-- Two contracts, in one order and the other. -/
def pairedSource (swapped : Bool) : DeclaredSource :=
  ⟨[1], none, .each (if swapped then [⟨some "b", [], none⟩, ⟨some "a", [], none⟩]
    else [⟨some "a", [], none⟩, ⟨some "b", [], none⟩])⟩

/-- One contract whose ABI lists a function before or after its event. -/
def listedSource (swapped : Bool) : DeclaredSource :=
  let event : AbiEvent := ⟨"E", [], none, none, none⟩
  ⟨[1], none, .each [⟨some "a", if swapped then [.other "f", .event event] else [.event event, .other "f"], none⟩]⟩

/-- What a source's stored context is, under one config. -/
def contextOf (entries : List SourceHashEntry) : ContextIdentifier := ⟨entries, [0], []⟩

/-- The entries of a source that is not refused. -/
def entriesOrNone (simple_hash : Hashed String → Text) (source : DeclaredSource) : List SourceHashEntry :=
  ((sourceHashEntriesOf byName simple_hash source).toOption).getD []

/-- A removed event leaves the stream valid; contracts in another order invalidate it from
block `0`; so does an ABI in another order where one digest of the whole source is stored; and
of two shapes under one signature the first is hashed. -/
theorem layers_depend :
    (∀ simple_hash : Hashed String → Text, Function.Injective simple_hash →
      (sourceInvalidationOf (entriesOrNone simple_hash (grownSource false)) [0] 10
        (contextOf (entriesOrNone simple_hash (grownSource true)))).stream = .valid ∧
      (∃ entry ∈ entriesOrNone simple_hash (grownSource true), entry.startBlock ≤ 10 ∧
        ∀ other ∈ entriesOrNone simple_hash (grownSource false), other.streamHash ≠ entry.streamHash)) ∧
    (∀ simple_hash : Hashed String → Text, Function.Injective simple_hash →
      (sourceInvalidationOf (entriesOrNone simple_hash (pairedSource true)) [0] 10
        (contextOf (entriesOrNone simple_hash (pairedSource false)))).stream ≠ .valid) ∧
    (∀ simple_hash : Hashed String → Text, Function.Injective simple_hash →
      (sourceInvalidationOf (entriesOrNone simple_hash (listedSource true)) [0] 10
        (contextOf [⟨0, simple_hash (.whole (listedSource false)), none, none⟩])).stream ≠ .valid) ∧
    ∀ simple_hash : Hashed String → Text, Function.Injective simple_hash →
      (sourceInvalidationOf (entriesOrNone simple_hash (ambiguousSource true)) [0] 10
        (contextOf (entriesOrNone simple_hash (ambiguousSource false)))).state ≠ .valid := by
  refine ⟨fun simple_hash hinj => ⟨?_, ?_⟩, fun simple_hash hinj => ?_, fun simple_hash hinj => ?_,
    fun simple_hash hinj => ?_⟩
  · refine (@stream_valid_iff _ byName simple_hash (grownSource false) _
      (contextOf (entriesOrNone simple_hash (grownSource true))) rfl [0] 10).2 ⟨rfl, ?_⟩
    show ∀ entry ∈ entriesOrNone simple_hash (grownSource false), entry.startBlock ≤ 10 →
      ∃ other ∈ entriesOrNone simple_hash (grownSource true), other.streamHash = entry.streamHash
    intro entry hentry _
    rcases List.mem_cons.1 hentry with rfl | hentry
    · exact ⟨_, List.mem_cons_self, rfl⟩
    · obtain rfl := List.mem_singleton.1 hentry
      exact ⟨_, List.mem_cons_of_mem _ List.mem_cons_self, rfl⟩
  · refine ⟨⟨5, _, some (simple_hash (.filter (some "a") (some "F") ⟨5, none⟩)), none⟩,
      List.mem_of_getElem? (show _[2]? = some _ from rfl), (show (5 : ℤ) ≤ 10 by omega), ?_⟩
    intro other hother heq
    have hcases : other.streamHash = some (simple_hash (.skeleton (sourceSkeletonOf (grownSource false)))) ∨
        other.streamHash = some (simple_hash (.filter (some "a") (some "E") ⟨0, none⟩)) := by
      rcases List.mem_cons.1 hother with rfl | hother
      · exact .inl rfl
      · obtain rfl := List.mem_singleton.1 hother
        exact .inr rfl
    rcases hcases with hcase | hcase
    · rw [hcase] at heq
      injection heq with heq
      cases hinj heq
    · rw [hcase] at heq
      injection heq with heq
      have := hinj heq
      injection this with _ htopic _
      exact absurd htopic (by decide)
  · intro hvalid
    obtain ⟨-, hstands⟩ := (@stream_valid_iff _ byName simple_hash (pairedSource true) _
      (contextOf (entriesOrNone simple_hash (pairedSource false))) rfl [0] 10).1 hvalid
    obtain ⟨other, hother, heq⟩ := hstands _ List.mem_cons_self (show (0 : ℤ) ≤ 10 by omega)
    obtain rfl := List.mem_singleton.1 hother
    injection heq with heq
    have := hinj heq
    injection this with this
    exact absurd (congrArg SourceSkeleton.contracts this) (by decide)
  · intro hvalid
    obtain ⟨-, hstands⟩ := (@stream_valid_iff _ byName simple_hash (listedSource true) _
      (contextOf [⟨0, simple_hash (.whole (listedSource false)), none, none⟩]) rfl [0] 10).1 hvalid
    have hsame : some (simple_hash (.whole (listedSource false))) = some (simple_hash (.whole (listedSource true))) :=
      hstands
    injection hsame with hsame
    have := hinj hsame
    injection this with this
    injection this with _ _ this
    injection this with this
    injection this with this _
    injection this with _ this _
    injection this with this _
    cases this
  · intro hvalid
    obtain ⟨-, hstands⟩ := (@state_valid_iff _ byName simple_hash (ambiguousSource true) _
      (contextOf (entriesOrNone simple_hash (ambiguousSource false))) rfl [0] 10).1 hvalid
    obtain ⟨other, hother, heq⟩ := hstands.1 _ (List.mem_of_getElem? (show _[1]? = some _ from rfl))
      (show (0 : ℤ) ≤ 10 by omega)
    rcases List.mem_cons.1 hother with rfl | hother
    · cases hinj heq
    · obtain rfl := List.mem_singleton.1 hother
      have := hinj heq
      injection this with _ _ hshape _
      injection hshape with _ hinputs
      injection hinputs with hinput _
      injection hinput with hname _ _ _
      exact absurd hname (by decide)

/-- A source keeps what was indexed under another spelling of it, and nothing under another config. -/
theorem respelled_context_kept :
    (sourceInvalidationOf (entriesOrNone plainHash (spelledSource false)) [0] 10
        (contextOf (entriesOrNone plainHash (spelledSource true)))).state = .valid ∧
    (sourceInvalidationOf (entriesOrNone plainHash (spelledSource false)) [1] 10
        (contextOf (entriesOrNone plainHash (spelledSource true)))).stream ≠ .valid := by
  have hwritten : WrittenBeside byName plainHash (spelledSource false)
      (contextOf (entriesOrNone plainHash (spelledSource true))).source := .perEvent tellsApart_spelled rfl (.refl _)
  have hlayered := fun configHash => @invalidation_layered _ byName plainHash _ _ _ rfl hwritten configHash 10
  refine ⟨(hlayered [0]).2.1.2 ⟨rfl, ?_⟩, fun h => ?_⟩
  · show (∀ entry ∈ entriesOrNone plainHash (spelledSource false), entry.startBlock ≤ 10 →
        ∃ other ∈ entriesOrNone plainHash (spelledSource true), other.hash = entry.hash) ∧
      ∀ entry ∈ entriesOrNone plainHash (spelledSource true), entry.startBlock ≤ 10 →
        ∃ other ∈ entriesOrNone plainHash (spelledSource false), other.hash = entry.hash
    decide
  · have hconfig : ([0] : Text) = [1] := ((hlayered [1]).1.1 h).1
    cases hconfig

end Etherfold
