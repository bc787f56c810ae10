import Etherfold.Ledger.Eldest
import Etherfold.Ledger.Lex
import Etherfold.Generation.Answering

/-!
# One fold fetches a stream

Of the folds a container holds on a stream the oldest fetches it and has the keeper itself, and
the others follow. Whether a fold follows is decided when it is built, and only a promotion's drop
hands a stream over.

* `fetcherAmong_eq`: the fetcher is the eldest of the folds held on its stream.
* `Fetches`: each stream that is folded has its one fetcher.
* `Fetching`: what every orderly step keeps.
* `one_fetcher_iff`: **each stream keeps its one fetcher exactly when** no fold is added that is
  older than those it joins, and none is replaced that fetches for another.
-/

namespace Etherfold

open Eldest

namespace Indexer

variable (o : IndexerOptions) (w : Indexer)

/-- **The stream has its one fetcher**: the oldest held record's fold, which alone does not follow
and alone has the keeper. -/
def OneFetcher (stream : Text) : Prop :=
  ∃ fetcher ∈ w.held, fetcherAmong o w.held stream = some fetcher ∧
    ∀ entry ∈ w.held, entry.record.id.stream = stream →
      (w.follows entry.key = false ↔ entry = fetcher) ∧
        w.writable entry.key = (o.keepStream && decide (entry = fetcher))

/-- **Every stream that is folded has its one fetcher.** -/
def Fetches : Prop := ∀ entry ∈ w.held, w.OneFetcher o entry.record.id.stream

instance : Decidable (w.Fetches o) := by
  unfold Fetches OneFetcher
  infer_instance

/-- **A fold that joins others on its stream is not older than all of them**, and a fold that is
replaced does not fetch for another. -/
def Orderly : IndexerStep → Prop
  | .next call _ _ =>
    match w.calls[call]? with
    | some (.holding record) => w.heldHere record.id = false →
      (∃ entry ∈ w.held, entry.record.id.stream = record.id.stream) →
        fetcherOf o.localeCompare (w.held.map (·.record) ++ [record]) record.id.stream ≠ some record
    | some (.removed _ record _ _) => ∀ entry ∈ w.held, entry.record.id = record.id → w.follows entry.key = false →
      ∀ other ∈ w.held, other.record.id.stream = entry.record.id.stream → other = entry
    | _ => True
  | _ => True

instance (step : IndexerStep) : Decidable (w.Orderly o step) :=
  match step with
  | .next call _ _ => by
    unfold Orderly
    dsimp only
    generalize w.calls[call]? = found
    exact match found with
      | some (.holding _) | some (.removed ..) => inferInstance
      | none | some .idle | some (.advancing _) | some (.moving ..) | some (.writing ..) | some (.applying ..)
      | some (.deleting ..) | some (.resuming _) | some (.listing _) | some (.reading ..) | some (.replacing ..)
      | some (.removing ..) | some (.creating _) => isTrue trivial
  | .promote _ | .indexMore | .add _ | .fail _ | .lastSyncUpdated .. => isTrue trivial

/-! ### The fetcher among folds -/

/-- The registry's order, of the folds that carry the records. -/
def older (a b : HeldEntry) : Prop := byAge o.localeCompare a.record b.record ≤ 0

instance : DecidableRel (older o) := fun a b => inferInstanceAs (Decidable (byAge o.localeCompare a.record b.record ≤ 0))

/-- Two folds of one generation are one. -/
def Distinct (held : List HeldEntry) : Prop := ∀ a ∈ held, ∀ b ∈ held, a.record.id = b.record.id → a = b

/-- The folds on a stream. -/
def on (held : List HeldEntry) (stream : Text) : List HeldEntry := held.filter (·.record.id.stream = stream)

variable {o w} {held : List HeldEntry} {stream : Text} {entry fetcher gone : HeldEntry}

theorem mem_on : entry ∈ on held stream ↔ entry ∈ held ∧ entry.record.id.stream = stream := by
  unfold on
  rw [List.mem_filter, decide_eq_true_eq]

/-- What the registry's order makes of held records. -/
theorem fetcherOf_map (held : List HeldEntry) (stream : Text) :
    fetcherOf o.localeCompare (held.map (·.record)) stream = (eldest (older o) (on held stream)).map (·.record) := by
  have hmap := @eldest_map _ _ (older o) _ (on held stream) (fun a b => byAge o.localeCompare a b ≤ 0) _ (·.record)
    fun _ _ _ _ => Iff.rfl
  rw [← hmap, fetcherOf, on, List.filter_map]
  rfl

theorem Distinct.find (h : Distinct held) (hentry : entry ∈ held) :
    held.find? (·.record.id = entry.record.id) = some entry := by
  have hsome : (held.find? (·.record.id = entry.record.id)).isSome = true :=
    List.find?_isSome.2 ⟨entry, hentry, by simp⟩
  obtain ⟨found, hfound⟩ := Option.isSome_iff_exists.1 hsome
  have hid := List.find?_some hfound
  rw [decide_eq_true_eq] at hid
  rw [hfound, h found (List.mem_of_find?_eq_some hfound) entry hentry hid]

/-- **The fetcher of a stream is the eldest of the folds held on it.** -/
theorem fetcherAmong_eq (h : Distinct held) (stream : Text) :
    fetcherAmong o held stream = eldest (older o) (on held stream) := by
  unfold fetcherAmong
  rw [fetcherOf_map]
  cases hfirst : eldest (older o) (on held stream) with
  | none => rfl
  | some first => exact h.find (mem_on.1 (eldest_mem hfirst)).1

theorem fetcherAmong_mem (h : Distinct held) (hfetcher : fetcherAmong o held stream = some fetcher) :
    fetcher ∈ held ∧ fetcher.record.id.stream = stream := by
  rw [fetcherAmong_eq h] at hfetcher
  exact mem_on.1 (eldest_mem hfetcher)

/-- A stream that is folded has a fetcher. -/
theorem exists_fetcherAmong (h : Distinct held) (hentry : entry ∈ held) :
    ∃ fetcher, fetcherAmong o held entry.record.id.stream = some fetcher := by
  rw [fetcherAmong_eq h]
  exact exists_eldest (mem_on.2 ⟨hentry, rfl⟩)

/-- The registry's order is one. -/
structure Sorts (o : IndexerOptions) : Prop where
  total : Std.Total fun a b : GenerationRecord => byAge o.localeCompare a b ≤ 0
  trans : IsTrans GenerationRecord fun a b => byAge o.localeCompare a b ≤ 0

theorem Sorts.older_total (h : Sorts o) : Std.Total (older o) := ⟨fun a b => h.total.total a.record b.record⟩

theorem Sorts.older_trans (h : Sorts o) : IsTrans HeldEntry (older o) :=
  ⟨fun a b c => h.trans.trans a.record b.record c.record⟩

/-- Texts compare as their sort keys do. -/
theorem sorts_of_agrees {κ : Type*} [LinearOrder κ] {key : Text → κ} (h : Lex.Agrees o.localeCompare key) : Sorts o := by
  have hage : ∀ a b, byAge o.localeCompare a b ≤ 0 ↔ toLex (a.createdAt, toLex (key a.id.stream, key a.id.processor)) ≤
      toLex (b.createdAt, toLex (key b.id.stream, key b.id.processor)) := by
    intro a b
    have hstream := h.eq a.id.stream b.id.stream
    have hlt := h.lt a.id.stream b.id.stream
    have hprocessor := h.le a.id.processor b.id.processor
    simp only [byAge, Prod.Lex.le_iff, ofLex_toLex]
    by_cases hcreated : a.createdAt = b.createdAt
    · by_cases hsame : o.localeCompare a.id.stream b.id.stream = 0
      · simp [hcreated, hsame, hprocessor, hstream.1 hsame]
      · have hne : key a.id.stream ≠ key b.id.stream := fun heq => hsame (hstream.2 heq)
        simp only [hcreated, sub_self, ne_eq, not_true_eq_false, if_false, hsame, not_false_eq_true, if_true, lt_irrefl,
          true_and, false_or, hne, false_and, or_false, ← hlt]
        omega
    · have hne : a.createdAt - b.createdAt ≠ 0 := by omega
      rw [if_pos hne]
      simp only [hcreated, false_and, or_false]
      omega
  refine ⟨⟨fun a b => ?_⟩, ⟨fun a b c hab hbc => ?_⟩⟩
  · rw [hage, hage]
    exact le_total _ _
  · rw [hage] at hab hbc ⊢
    exact hab.trans hbc

section Sorted

variable (hsorts : Sorts o)
include hsorts

/-- The fetcher stays while others go. -/
theorem fetcherAmong_erase (h : Distinct held) (hnodup : held.Nodup) (hfetcher : fetcherAmong o held stream = some fetcher)
    (hne : fetcher ≠ gone) : fetcherAmong o (held.erase gone) stream = some fetcher := by
  have := hsorts.older_total
  have := hsorts.older_trans
  have hsub : Distinct (held.erase gone) := fun a ha b hb => h a (List.mem_of_mem_erase ha) b (List.mem_of_mem_erase hb)
  rw [fetcherAmong_eq h] at hfetcher
  rw [fetcherAmong_eq hsub, on, hnodup.erase_eq_filter, List.filter_comm]
  exact eldest_filter hfetcher (by simpa using hne)

/-- What joins fetches where it sorts before all that are held on its stream. -/
theorem fetcherAmong_append {entry : HeldEntry} (h : Distinct (held ++ [entry])) :
    fetcherAmong o (held ++ [entry]) entry.record.id.stream =
      some (match fetcherAmong o held entry.record.id.stream with
        | none => entry
        | some fetcher => if older o fetcher entry then fetcher else entry) := by
  have := hsorts.older_total
  have := hsorts.older_trans
  have hheld : Distinct held := fun a ha b hb => h a (List.mem_append_left _ ha) b (List.mem_append_left _ hb)
  have hon : on (held ++ [entry]) entry.record.id.stream = on held entry.record.id.stream ++ [entry] := by
    simp [on, List.filter_append]
  rw [fetcherAmong_eq h, fetcherAmong_eq hheld, hon, eldest_append]
  cases eldest (older o) (on held entry.record.id.stream) <;> rfl

end Sorted

/-- Another stream does not notice. -/
theorem fetcherAmong_erase_of_ne (h : Distinct held) (hnodup : held.Nodup) (hne : gone.record.id.stream ≠ stream) :
    fetcherAmong o (held.erase gone) stream = fetcherAmong o held stream := by
  have hsub : Distinct (held.erase gone) := fun a ha b hb => h a (List.mem_of_mem_erase ha) b (List.mem_of_mem_erase hb)
  rw [fetcherAmong_eq hsub, fetcherAmong_eq h, on, hnodup.erase_eq_filter, List.filter_comm, ← on,
    List.filter_eq_self.2]
  intro e he
  have hon := (mem_on.1 he).2
  rw [bne_iff_ne]
  rintro rfl
  exact hne hon

theorem fetcherAmong_append_of_ne {entry : HeldEntry} (h : Distinct (held ++ [entry]))
    (hne : entry.record.id.stream ≠ stream) : fetcherAmong o (held ++ [entry]) stream = fetcherAmong o held stream := by
  have hheld : Distinct held := fun a ha b hb => h a (List.mem_append_left _ ha) b (List.mem_append_left _ hb)
  rw [fetcherAmong_eq h, fetcherAmong_eq hheld]
  simp [on, List.filter_append, hne]

/-! ### What every orderly step keeps -/

variable (o w)

/-- Every held fold is an object of its own, of a generation of its own. -/
structure Folds : Prop where
  built : ∀ entry ∈ w.held, entry.key < w.built
  keys : ∀ a ∈ w.held, ∀ b ∈ w.held, a.key = b.key → a = b
  ids : Distinct w.held
  nodup : w.held.Nodup

/-- **Who fetches is who is eldest.** -/
structure Fetching : Prop extends w.Folds where
  follows : ∀ entry ∈ w.held, w.follows entry.key = false ↔ fetcherAmong o w.held entry.record.id.stream = some entry
  writable : ∀ entry ∈ w.held, w.writable entry.key = (o.keepStream && !w.follows entry.key)

variable {o w}

theorem Fetching.fetches (h : w.Fetching o) : w.Fetches o := by
  intro entry hentry
  obtain ⟨fetcher, hfetcher⟩ := exists_fetcherAmong (o := o) h.ids hentry
  refine ⟨fetcher, (fetcherAmong_mem h.ids hfetcher).1, hfetcher, fun other hother hon => ?_⟩
  have hwho : w.follows other.key = false ↔ other = fetcher := by
    rw [h.follows other hother, hon, hfetcher, Option.some.injEq, eq_comm]
  refine ⟨hwho, ?_⟩
  rw [h.writable other hother]
  by_cases heq : other = fetcher
  · rw [hwho.2 heq]
    simp [heq]
  · have hfollows : w.follows other.key = true := Bool.eq_true_of_not_eq_false fun hno => heq (hwho.1 hno)
    simp [hfollows, heq]

/-- Only the folds count. -/
theorem Fetching.congr {w' : Indexer} (h : w.Fetching o) (hheld : w'.held = w.held) (hfollows : w'.follows = w.follows)
    (hwritable : w'.writable = w.writable) (hbuilt : w'.built = w.built) : w'.Fetching o := by
  obtain ⟨records, held, current, deferredDrops, lastSync, candidate, follows, writable, built, calls⟩ := w'
  dsimp only at hheld hfollows hwritable hbuilt
  subst hheld hfollows hwritable hbuilt
  exact ⟨⟨h.built, h.keys, h.ids, h.nodup⟩, h.follows, h.writable⟩

theorem Folds.erase (h : w.Folds) (gone : HeldEntry) : Folds { w with held := w.held.erase gone } := by
  have hsub : ∀ e ∈ w.held.erase gone, e ∈ w.held := fun e => List.mem_of_mem_erase
  exact ⟨fun e he => h.built e (hsub e he), fun a ha b hb => h.keys a (hsub a ha) b (hsub b hb),
    fun a ha b hb => h.ids a (hsub a ha) b (hsub b hb), h.nodup.erase gone⟩

/-- What leaves the held folds fetched for nobody else. -/
theorem Fetching.erase (hsorts : Sorts o) (h : w.Fetching o) (hgone : fetcherAmong o w.held gone.record.id.stream = some gone →
      ∀ other ∈ w.held, other.record.id.stream = gone.record.id.stream → other = gone) :
    Fetching o { w with held := w.held.erase gone } := by
  have hsub : ∀ e ∈ w.held.erase gone, e ∈ w.held := fun e => List.mem_of_mem_erase
  refine ⟨h.toFolds.erase gone, fun e he => ?_, fun e he => h.writable e (hsub e he)⟩
  obtain ⟨hne, hin⟩ := (List.Nodup.mem_erase_iff h.nodup).1 he
  refine (h.follows e hin).trans ⟨fun hfetcher => fetcherAmong_erase hsorts h.ids h.nodup hfetcher hne, fun hfetcher => ?_⟩
  obtain ⟨first, hfirst⟩ := exists_fetcherAmong (o := o) h.ids hin
  by_cases heq : first = gone
  · -- what went fetched, and was alone
    subst heq
    have hstream := (fetcherAmong_mem h.ids hfirst).2
    rw [← hstream] at hfirst
    exact absurd (hgone hfirst e hin hstream.symm) hne
  · have hstays := fetcherAmong_erase hsorts h.ids h.nodup hfirst heq
    rw [hfirst, ← hstays]
    exact hfetcher

/-- The stream is handed over to the eldest that is left. -/
theorem Fetching.handOver (h : w.Fetching o) {next : HeldEntry}
    (hoff : fetcherAmong o w.held gone.record.id.stream = some gone)
    (hnext : fetcherAmong o (w.held.erase gone) gone.record.id.stream = some next) :
    Fetching o { w.handOverTheStream o next with held := w.held.erase gone } := by
  have hsub : ∀ e ∈ w.held.erase gone, e ∈ w.held := fun e => List.mem_of_mem_erase
  obtain ⟨hmem, hstream⟩ := fetcherAmong_mem (h.toFolds.erase gone).ids hnext
  have hfollows : ∀ e ∈ w.held.erase gone, e ≠ next → e.key ≠ next.key :=
    fun e he hne heq => hne (h.keys e (hsub e he) next (hsub next hmem) heq)
  have hfolds := h.toFolds.erase gone
  refine ⟨⟨hfolds.built, hfolds.keys, hfolds.ids, hfolds.nodup⟩, fun e he => ?_, fun e he => ?_⟩
  · show Function.update w.follows next.key false e.key = false ↔
      fetcherAmong o (w.held.erase gone) e.record.id.stream = some e
    by_cases hne : e = next
    · rw [hne, Function.update_self, hstream, hnext]
      exact iff_of_true rfl rfl
    · rw [Function.update_of_ne (hfollows e he hne), h.follows e (hsub e he)]
      by_cases hon : e.record.id.stream = gone.record.id.stream
      · -- on the stream that changes hands it followed, and goes on
        rw [hon, hoff, hnext, Option.some.injEq, Option.some.injEq]
        have hegone := ((List.Nodup.mem_erase_iff h.nodup).1 he).1
        exact iff_of_false (Ne.symm hegone) (Ne.symm hne)
      · rw [fetcherAmong_erase_of_ne h.ids h.nodup (Ne.symm hon)]
  · show (if o.keepStream = true then Function.update w.writable next.key true else w.writable) e.key =
      (o.keepStream && !Function.update w.follows next.key false e.key)
    have hwas := h.writable e (hsub e he)
    by_cases hne : e = next
    · subst hne
      rw [Function.update_self]
      cases hkeep : o.keepStream with
      | true => simp
      | false =>
        rw [hkeep] at hwas
        simpa using hwas
    · rw [Function.update_of_ne (hfollows e he hne)]
      cases hkeep : o.keepStream with
      | true =>
        rw [hkeep] at hwas
        rw [if_pos rfl, Function.update_of_ne (hfollows e he hne)]
        exact hwas
      | false =>
        rw [hkeep] at hwas
        simpa using hwas

/-- **A drop leaves every stream its fetcher**, or is declined. -/
theorem Fetching.dropSuperseded (hsorts : Sorts o) (h : w.Fetching o) (call : ℕ) (superseded successor : HeldEntry)
    (rest : Continuation) : (w.dropSuperseded o call superseded successor rest).Fetching o := by
  unfold Indexer.dropSuperseded
  split
  · have herase : w.held.filter (· ≠ superseded) = w.held.erase superseded := by
      rw [h.nodup.erase_eq_filter]
      apply List.filter_congr
      intro e _
      by_cases heq : e = superseded <;> simp [heq]
    cases hnext : w.nextFetcher o superseded with
    | some next =>
      unfold nextFetcher at hnext
      split at hnext
      · rename_i hfetches
        rw [herase] at hnext
        exact (h.handOver hfetches hnext).congr rfl rfl rfl rfl
      · cases hnext
    | none =>
      refine (h.erase hsorts fun hfetches other hother hon => ?_).congr rfl rfl rfl rfl
      -- it fetches, and nothing is left on its stream
      by_contra hne
      rw [nextFetcher, if_pos hfetches, herase, ← hon] at hnext
      have hleft : other ∈ w.held.erase superseded := (List.mem_erase_of_ne hne).2 hother
      obtain ⟨fetcher, hfetcher⟩ := exists_fetcherAmong (o := o) (h.toFolds.erase superseded).ids hleft
      rw [hnext] at hfetcher
      cases hfetcher
  · exact h.congr rfl rfl rfl rfl

theorem Fetching.arrangeDrop (hsorts : Sorts o) (h : w.Fetching o) (call : ℕ) (superseded successor : HeldEntry)
    (wasPromotion : Bool) (rest : Continuation) :
    (w.arrangeDrop o call superseded successor wasPromotion rest).Fetching o := by
  unfold Indexer.arrangeDrop
  split
  · exact h.congr rfl rfl rfl rfl
  split
  · exact h.congr rfl rfl rfl rfl
  · exact h.dropSuperseded hsorts call superseded successor rest

/-- The trigger changes nothing about who fetches. -/
theorem Fetching.settlePromotion (h : w.Fetching o) (call : ℕ) : (w.settlePromotion call).Fetching o := by
  unfold Indexer.settlePromotion
  split <;> exact h.congr rfl rfl rfl rfl

/-- The policy changes nothing about the folds. -/
theorem applyPolicyTo_folds (o : IndexerOptions) (w : Indexer) (call : ℕ) (entry : HeldEntry) :
    (w.applyPolicyTo o call entry).held = w.held ∧ (w.applyPolicyTo o call entry).follows = w.follows ∧
      (w.applyPolicyTo o call entry).writable = w.writable ∧ (w.applyPolicyTo o call entry).built = w.built := by
  unfold applyPolicyTo
  split
  · exact ⟨rfl, rfl, rfl, rfl⟩
  split
  · exact ⟨rfl, rfl, rfl, rfl⟩
  · unfold Indexer.settlePromotion
    split <;> exact ⟨rfl, rfl, rfl, rfl⟩
  · exact ⟨rfl, rfl, rfl, rfl⟩

theorem Fetching.applyPolicyTo (h : w.Fetching o) (call : ℕ) (entry : HeldEntry) :
    (w.applyPolicyTo o call entry).Fetching o := by
  obtain ⟨hheld, hfollows, hwritable, hbuilt⟩ := applyPolicyTo_folds o w call entry
  exact h.congr hheld hfollows hwritable hbuilt

theorem Fetches.of_applyPolicyTo {call : ℕ} {entry : HeldEntry} (h : (w.applyPolicyTo o call entry).Fetches o) :
    w.Fetches o := by
  obtain ⟨hheld, hfollows, hwritable, -⟩ := applyPolicyTo_folds o w call entry
  unfold Fetches OneFetcher at h
  rwa [hheld, hfollows, hwritable] at h

/-! ### One step -/

section Hold

variable {record : GenerationRecord}

theorem mem_hold {willHold : List GenerationRecord} : entry ∈ (w.hold o record willHold).2.held ↔
    entry ∈ w.held ∨ entry = ⟨w.built, record⟩ := by
  show entry ∈ w.held ++ [⟨w.built, record⟩] ↔ _
  rw [List.mem_append, List.mem_singleton]

/-- The fold that is built is an object of its own. -/
theorem Folds.hold (h : w.Folds) (hnew : ∀ entry ∈ w.held, entry.record.id ≠ record.id)
    (willHold : List GenerationRecord) : (w.hold o record willHold).2.Folds := by
  have hkey : ∀ entry ∈ w.held, entry.key ≠ w.built := fun entry hentry => (h.built entry hentry).ne
  refine ⟨fun e he => ?_, fun a ha b hb hab => ?_, fun a ha b hb hab => ?_, ?_⟩
  · rcases mem_hold.1 he with he | rfl
    · exact (h.built e he).trans (Nat.lt_succ_self _)
    · exact Nat.lt_succ_self _
  · rcases mem_hold.1 ha with ha | rfl <;> rcases mem_hold.1 hb with hb | rfl
    · exact h.keys a ha b hb hab
    · exact absurd hab (hkey a ha)
    · exact absurd hab.symm (hkey b hb)
    · rfl
  · rcases mem_hold.1 ha with ha | rfl <;> rcases mem_hold.1 hb with hb | rfl
    · exact h.ids a ha b hb hab
    · exact absurd hab (hnew a ha)
    · exact absurd hab.symm (hnew b hb)
    · rfl
  · refine List.nodup_append.2 ⟨h.nodup, List.nodup_singleton _, fun a ha b hb heq => ?_⟩
    rw [List.mem_singleton.1 hb] at heq
    exact hkey a ha (congrArg HeldEntry.key heq)

/-- The registry's order, once the fold that is built has joined. -/
theorem fetcherOf_hold (w : Indexer) (key : ℕ) (record : GenerationRecord)
    (h : Distinct (w.held ++ [⟨key, record⟩])) :
    fetcherOf o.localeCompare (w.held.map (·.record) ++ [record]) record.id.stream =
      (fetcherAmong o (w.held ++ [⟨key, record⟩]) record.id.stream).map (·.record) := by
  rw [fetcherAmong_eq h, ← fetcherOf_map, List.map_append]
  rfl

/-- **The fold that is built fetches exactly when it sorts before all on its stream.** -/
theorem hold_fetches (h : Distinct (w.held ++ [⟨w.built, record⟩])) :
    (fetcherOf o.localeCompare (w.held.map (·.record) ++ [record]) record.id.stream).any (·.id ≠ record.id) = false ↔
      fetcherAmong o (w.held ++ [⟨w.built, record⟩]) record.id.stream = some ⟨w.built, record⟩ := by
  have hin : (⟨w.built, record⟩ : HeldEntry) ∈ w.held ++ [⟨w.built, record⟩] :=
    List.mem_append_right _ (List.mem_singleton_self _)
  obtain ⟨fetcher, hfetcher⟩ := exists_fetcherAmong (o := o) h hin
  obtain ⟨hmem, -⟩ := fetcherAmong_mem h hfetcher
  have hsame := h fetcher hmem ⟨w.built, record⟩ hin
  rw [fetcherOf_hold w w.built record h, hfetcher, Option.some.injEq]
  simp only [Option.map_some, Option.any_some, ne_eq, decide_not, Bool.not_eq_eq_eq_not, Bool.not_false,
    decide_eq_true_eq]
  exact ⟨hsame, fun heq => by rw [heq]⟩

theorem Fetching.hold (hsorts : Sorts o) (h : w.Fetching o) (hnew : ∀ entry ∈ w.held, entry.record.id ≠ record.id)
    (horderly : (∃ entry ∈ w.held, entry.record.id.stream = record.id.stream) →
      fetcherOf o.localeCompare (w.held.map (·.record) ++ [record]) record.id.stream ≠ some record) :
    (w.hold o record (w.held.map (·.record) ++ [record])).2.Fetching o := by
  have hkey : ∀ entry ∈ w.held, entry.key ≠ w.built := fun entry hentry => (h.built entry hentry).ne
  have hfolds := @Folds.hold o _ _ h.toFolds hnew (w.held.map (·.record) ++ [record])
  have hids := hfolds.ids
  refine ⟨hfolds, fun e he => ?_, fun e he => ?_⟩
  · show Function.update w.follows w.built _ e.key = false ↔
      fetcherAmong o (w.held ++ [⟨w.built, record⟩]) e.record.id.stream = some e
    rcases mem_hold.1 he with he | rfl
    · rw [Function.update_of_ne (hkey e he), h.follows e he]
      by_cases hon : record.id.stream = e.record.id.stream
      · -- what joins its stream is not the eldest there
        have hlast := horderly ⟨e, he, hon.symm⟩
        rw [fetcherOf_hold w w.built record hids] at hlast
        rw [← hon]
        have hjoined := fetcherAmong_append hsorts hids
        dsimp only at hjoined
        rw [hjoined] at hlast ⊢
        obtain ⟨first, hfirst⟩ := exists_fetcherAmong (o := o) h.ids he
        rw [← hon] at hfirst
        rw [hfirst] at hlast ⊢
        dsimp only at hlast ⊢
        split
        · rfl
        · rename_i hafter
          rw [if_neg hafter] at hlast
          exact absurd rfl hlast
      · rw [fetcherAmong_append_of_ne hids hon]
    · rw [Function.update_self]
      exact hold_fetches hids
  · show Function.update w.writable w.built _ e.key = (o.keepStream && !Function.update w.follows w.built _ e.key)
    rcases mem_hold.1 he with he | rfl
    · rw [Function.update_of_ne (hkey e he), Function.update_of_ne (hkey e he)]
      exact h.writable e he
    · rw [Function.update_self, Function.update_self]

/-- A fold that sorts before all on its stream fetches beside the one that does already. -/
theorem hold_orderly (h : w.Fetching o) (hnew : ∀ entry ∈ w.held, entry.record.id ≠ record.id)
    (hfetches : (w.hold o record (w.held.map (·.record) ++ [record])).2.Fetches o)
    (hon : ∃ entry ∈ w.held, entry.record.id.stream = record.id.stream) :
    fetcherOf o.localeCompare (w.held.map (·.record) ++ [record]) record.id.stream ≠ some record := by
  intro hrecord
  have hids := (@Folds.hold o _ _ h.toFolds hnew (w.held.map (·.record) ++ [record])).ids
  obtain ⟨entry, hentry, hstream⟩ := hon
  obtain ⟨first, hfirst⟩ := exists_fetcherAmong (o := o) h.ids hentry
  obtain ⟨hmem, hsame⟩ := fetcherAmong_mem h.ids hfirst
  have hin : first ∈ w.held ++ [⟨w.built, record⟩] := List.mem_append_left _ hmem
  obtain ⟨fetcher, -, -, hwho⟩ := hfetches first hin
  have hne : first.key ≠ w.built := (h.built first hmem).ne
  have hwas : first = fetcher := by
    refine ((hwho first hin rfl).1).1 ?_
    show Function.update w.follows w.built _ first.key = false
    rw [Function.update_of_ne hne, h.follows first hmem, hsame]
    exact hfirst
  have hjoins : (⟨w.built, record⟩ : HeldEntry) = fetcher := by
    refine ((hwho ⟨w.built, record⟩ (List.mem_append_right _ (List.mem_singleton_self _)) ?_).1).1 ?_
    · exact hstream.symm.trans hsame.symm
    · show Function.update w.follows w.built _ w.built = false
      rw [Function.update_self, hrecord]
      simp
  exact hne (congrArg HeldEntry.key (hwas.trans hjoins.symm))

end Hold

/-- What is no longer driven leaves its stream its fetcher exactly when it fetched for nobody else. -/
theorem Fetching.stopDriving (hsorts : Sorts o) (h : w.Fetching o) (id : GenerationId) :
    ((∀ entry ∈ w.held, entry.record.id = id → w.follows entry.key = false →
        ∀ other ∈ w.held, other.record.id.stream = entry.record.id.stream → other = entry) →
      (w.stopDriving id).Fetching o) ∧
    ((w.stopDriving id).Fetches o → ∀ entry ∈ w.held, entry.record.id = id → w.follows entry.key = false →
      ∀ other ∈ w.held, other.record.id.stream = entry.record.id.stream → other = entry) := by
  unfold Indexer.stopDriving
  cases hfind : w.held.find? (·.record.id = id) with
  | none =>
    refine ⟨fun _ => h, fun _ entry hentry hid => ?_⟩
    have hnot := List.find?_eq_none.1 hfind entry hentry
    rw [decide_eq_true_eq] at hnot
    exact absurd hid hnot
  | some gone =>
    have hgone := List.mem_of_find?_eq_some hfind
    have hgid := List.find?_some hfind
    rw [decide_eq_true_eq] at hgid
    dsimp only
    constructor
    · intro halone
      refine (h.erase hsorts fun hfetches => ?_).congr rfl rfl rfl rfl
      exact halone gone hgone hgid ((h.follows gone hgone).2 hfetches)
    · intro hfetches entry hentry hid hno other hother hon
      have heq := h.ids entry hentry gone hgone (hid.trans hgid.symm)
      subst heq
      by_contra hne
      have hleft : other ∈ w.held.erase entry := (List.mem_erase_of_ne hne).2 hother
      obtain ⟨fetcher, hfetcher, hamong, hwho⟩ := hfetches other hleft
      have hstays : fetcher ≠ entry ∧ fetcher ∈ w.held := (List.Nodup.mem_erase_iff h.nodup).1 hfetcher
      -- whoever is left to fetch fetched already, beside what went
      have hstream := (fetcherAmong_mem (h.toFolds.erase entry).ids hamong).2
      have hfetched := (h.follows fetcher hstays.2).1 ((hwho fetcher hfetcher hstream).1.2 rfl)
      have hwent := (h.follows entry hentry).1 hno
      rw [hstream, hon, hwent] at hfetched
      exact hstays.1 (Option.some.inj hfetched).symm

/-- **A call that goes on** keeps every stream's fetcher exactly when it is orderly. -/
theorem Fetching.next (hsorts : Sorts o) (h : w.Fetching o) (call : ℕ) (cursor : Option ℕ) (now : ℤ) :
    (w.Orderly o (.next call cursor now) → (w.next o call cursor now).Fetching o) ∧
      ((w.next o call cursor now).Fetches o → w.Orderly o (.next call cursor now)) := by
  unfold Orderly Indexer.next
  dsimp only
  cases w.calls[call]? with
  | none => exact ⟨fun _ => h, fun _ => trivial⟩
  | some old =>
    cases old with
    | idle => exact ⟨fun _ => h, fun _ => trivial⟩
    | advancing todo =>
      refine ⟨fun _ => ?_, fun _ => trivial⟩
      cases todo with
      | nil => exact h.settlePromotion call
      | cons entry todo => exact h.congr rfl rfl rfl rfl
    | writing entry superseded wasPromotion rest =>
      refine ⟨fun _ => ?_, fun _ => trivial⟩
      dsimp only
      split <;> exact h.congr rfl rfl rfl rfl
    | applying entry superseded wasPromotion rest =>
      refine ⟨fun _ => ?_, fun _ => trivial⟩
      have happlied : Fetching o { w with
          candidate := Function.update w.candidate entry.key false, current := some entry } := h.congr rfl rfl rfl rfl
      dsimp only
      split
      · exact h.congr rfl rfl rfl rfl
      split
      · exact h.congr rfl rfl rfl rfl
      · exact happlied.arrangeDrop hsorts call _ entry wasPromotion rest
    | resuming rest =>
      refine ⟨fun _ => ?_, fun _ => trivial⟩
      cases rest with
      | returns => exact h.congr rfl rfl rfl rfl
      | settles => exact h.congr rfl rfl rfl rfl
      | continues rest =>
        cases rest with
        | nil => exact h.congr rfl rfl rfl rfl
        | cons deferred rest =>
          dsimp only
          split
          · have hspliced : Fetching o { w with deferredDrops := w.spliceDeferred deferred } := h.congr rfl rfl rfl rfl
            exact hspliced.dropSuperseded hsorts call _ _ _
          · exact h.congr rfl rfl rfl rfl
    | replacing arriving displaced surviving =>
      refine ⟨fun _ => ?_, fun _ => trivial⟩
      cases displaced with
      | nil => exact h.congr rfl rfl rfl rfl
      | cons record displaced =>
        dsimp only
        split <;> exact h.congr rfl rfl rfl rfl
    | removing arriving record displaced surviving =>
      refine ⟨fun _ => ?_, fun _ => trivial⟩
      dsimp only
      split <;> exact h.congr rfl rfl rfl rfl
    | removed arriving record displaced surviving =>
      obtain ⟨hkeeps, honly⟩ := h.stopDriving hsorts record.id
      exact ⟨fun horderly => (hkeeps horderly).congr rfl rfl rfl rfl, honly⟩
    | creating arriving =>
      refine ⟨fun _ => ?_, fun _ => trivial⟩
      dsimp only
      split <;> exact h.congr rfl rfl rfl rfl
    | holding record =>
      dsimp only
      unfold holdGeneration heldHere
      cases hfind : w.held.find? (·.record.id = record.id) with
      | some existing =>
        -- it is held already, and nothing is built
        refine ⟨fun _ => h.applyPolicyTo call existing, fun _ hnot => ?_⟩
        rw [List.any_eq_false] at hnot
        exact absurd (List.find?_some hfind) (hnot existing (List.mem_of_find?_eq_some hfind))
      | none =>
        have hnew : ∀ entry ∈ w.held, entry.record.id ≠ record.id := by
          intro entry hentry
          have hnot := List.find?_eq_none.1 hfind entry hentry
          rwa [decide_eq_true_eq] at hnot
        have hany : w.held.any (fun entry => decide (entry.record.id = record.id)) = false := by
          rw [List.any_eq_false]
          exact List.find?_eq_none.1 hfind
        dsimp only
        refine ⟨fun horderly => ?_, fun hfetches _ => hold_orderly h hnew ?_⟩
        · exact (h.hold hsorts hnew (horderly hany)).applyPolicyTo call _
        · exact hfetches.of_applyPolicyTo
    | _ => exact ⟨fun _ => h.congr rfl rfl rfl rfl, fun _ => trivial⟩

/-- **One step.** -/
theorem Fetching.step (hsorts : Sorts o) (h : w.Fetching o) (step : IndexerStep) :
    (w.Orderly o step → (w.step o step).Fetching o) ∧ ((w.step o step).Fetches o → w.Orderly o step) := by
  cases step with
  | promote id =>
    refine ⟨fun _ => ?_, fun _ => trivial⟩
    unfold Indexer.step
    dsimp only
    split <;> exact h.congr rfl rfl rfl rfl
  | indexMore =>
    refine ⟨fun _ => ?_, fun _ => trivial⟩
    unfold Indexer.step
    dsimp only
    split <;> exact h.congr rfl rfl rfl rfl
  | add id => exact ⟨fun _ => h.congr rfl rfl rfl rfl, fun _ => trivial⟩
  | next call cursor now => exact h.next hsorts call cursor now
  | fail call =>
    refine ⟨fun _ => ?_, fun _ => trivial⟩
    unfold Indexer.step Indexer.fail
    dsimp only
    split <;> exact h.congr rfl rfl rfl rfl
  | lastSyncUpdated key cursor => exact ⟨fun _ => h.congr rfl rfl rfl rfl, fun _ => trivial⟩

/-! ### The opening -/

/-- A registry stores a record under its identity. -/
def Keyed (r : GenerationRegistryRecords) : Prop :=
  ∀ a ∈ r.snapshot.generations, ∀ b ∈ r.snapshot.generations, a.id = b.id → a = b

/-- What is registered was there, or is the first of its identity. -/
theorem Keyed.create {r : GenerationRegistryRecords} (h : Keyed r) {caps : GenerationCaps} {id : GenerationId}
    {now : ℤ} {record : GenerationRecord} (hcreate : (r.create caps id (some .successor) none now).1 = .ok record) :
    Keyed (r.create caps id (some .successor) none now).2 := by
  obtain ⟨hgenerations, hid, -⟩ := Registrar.create_ok hcreate
  have hfresh : record ∈ r.snapshot.generations ∨ ∀ g ∈ r.snapshot.generations, g.id ≠ id := by
    unfold GenerationRegistryRecords.create at hcreate
    dsimp only at hcreate
    split at hcreate
    · cases hcreate
    · rename_i hplan
      injection hcreate with heq
      subst heq
      obtain ⟨wanted, hwanted, hplan⟩ := bind_eq_ok.1 hplan
      obtain ⟨bundle, -, hplan⟩ := bind_eq_ok.1 hplan
      obtain ⟨-, -, -, -, hput⟩ := createPlan_ok hplan
      rw [assertIdentity_ok hwanted] at hput
      exact hput.imp And.right And.right
  intro a ha b hb hab
  rcases (hgenerations a).1 ha with ha | rfl <;> rcases (hgenerations b).1 hb with hb | rfl
  · exact h a ha b hb hab
  · rcases hfresh with hmem | hnone
    · exact h a ha _ hmem hab
    · exact absurd (hab.trans hid) (hnone a ha)
  · rcases hfresh with hmem | hnone
    · exact h _ hmem b hb hab
    · exact absurd (hab.symm.trans hid) (hnone b hb)
  · rfl

/-- What a registration displaces goes, and nothing else. -/
theorem displace_generations (displaced : List GenerationRecord) (r : GenerationRegistryRecords) {g : GenerationRecord} :
    (g ∈ (displaced.foldl (fun r record => (r.deleteGeneration record.id false).2) r).snapshot.generations →
      g ∈ r.snapshot.generations) ∧
    (g ∈ r.snapshot.generations → (∀ record ∈ displaced, g.id ≠ record.id) →
      g ∈ (displaced.foldl (fun r record => (r.deleteGeneration record.id false).2) r).snapshot.generations) := by
  induction displaced generalizing r with
  | nil => exact ⟨id, fun hg _ => hg⟩
  | cons record displaced ih =>
    obtain ⟨hback, hforth⟩ := ih (r.deleteGeneration record.id false).2
    rw [List.foldl_cons]
    rcases ReceivingIndexer.deleteGeneration_slots r record.id false with hsame | ⟨-, -, hgenerations⟩
    · rw [hsame] at hback hforth ⊢
      exact ⟨hback, fun hg hkept => hforth hg fun other hother => hkept other (List.mem_cons_of_mem _ hother)⟩
    · refine ⟨fun hg => ((hgenerations g).1 (hback hg)).1, fun hg hkept => ?_⟩
      exact hforth ((hgenerations g).2 ⟨hg, hkept record List.mem_cons_self⟩) fun other hother =>
        hkept other (List.mem_cons_of_mem _ hother)

/-- **What a container is opened on stays registered** while the rest is. -/
theorem registerSpec_ok {r r' : GenerationRegistryRecords} {registered : List GenerationRecord} {record : GenerationRecord}
    {spec : GenerationId × ℤ} (hkeyed : Keyed r) (hregistered : ∀ g ∈ registered, g ∈ r.snapshot.generations)
    (h : registerSpec o r registered spec = .ok (record, r')) :
    Keyed r' ∧ ∀ g ∈ registered ++ [record], g ∈ r'.snapshot.generations := by
  unfold registerSpec at h
  dsimp only at h
  split at h
  · cases h
  rename_i hfind
  generalize hdisplaced : displacedBySuccessor _ _ _ = displaced at h hfind
  have hleft : Keyed (displaced.foldl (fun r record => (r.deleteGeneration record.id false).2) r) := fun a ha b hb =>
    hkeyed a ((displace_generations displaced r).1 ha) b ((displace_generations displaced r).1 hb)
  split at h
  · cases h
  · rename_i created written hcreate
    injection h with h
    injection h with hrecord hwritten
    subst hrecord hwritten
    have hok := congrArg Prod.fst hcreate
    have hkept := hleft.create hok
    obtain ⟨hgenerations, -⟩ := Registrar.create_ok hok
    rw [hcreate] at hkept hgenerations
    refine ⟨hkept, fun g hg => (hgenerations g).2 ?_⟩
    rcases List.mem_append.1 hg with hg | hg
    · refine .inl ((displace_generations displaced r).2 (hregistered g hg) fun other hother heq => ?_)
      have hnot := List.find?_eq_none.1 hfind other hother
      exact hnot (List.any_eq_true.2 ⟨g, hg, decide_eq_true heq⟩)
    · exact .inr (List.mem_singleton.1 hg)

theorem registerSpecs_ok {specs : List (GenerationId × ℤ)} {r r' : GenerationRegistryRecords}
    {registered registered' : List GenerationRecord} (hkeyed : Keyed r)
    (hregistered : ∀ g ∈ registered, g ∈ r.snapshot.generations)
    (h : registerSpecs o specs registered r = .ok (registered', r')) :
    Keyed r' ∧ ∀ g ∈ registered', g ∈ r'.snapshot.generations := by
  induction specs generalizing r registered with
  | nil =>
    injection h with h
    injection h with h1 h2
    subst h1 h2
    exact ⟨hkeyed, hregistered⟩
  | cons spec specs ih =>
    unfold registerSpecs at h
    obtain ⟨⟨record, next⟩, hspec, h⟩ := bind_eq_ok.1 h
    obtain ⟨hkept, hstays⟩ := registerSpec_ok hkeyed hregistered hspec
    exact ih hkept hstays h

section Opening

variable {registered processed : List GenerationRecord}

theorem fetcherOf_append (hsorts : Sorts o) {l l' : List GenerationRecord} {record : GenerationRecord}
    (h : fetcherOf o.localeCompare l stream = fetcherOf o.localeCompare l' stream) :
    fetcherOf o.localeCompare (l ++ [record]) stream = fetcherOf o.localeCompare (l' ++ [record]) stream := by
  have := hsorts.total
  have := hsorts.trans
  change eldest _ _ = eldest _ _ at h ⊢
  rw [List.filter_append, List.filter_append]
  by_cases hon : record.id.stream = stream
  · rw [List.filter_singleton, decide_eq_true hon, cond_true, eldest_append, eldest_append, h]
  · rw [List.filter_singleton, decide_eq_false hon, cond_false, List.append_nil, List.append_nil]
    exact h

/-- A record named again changes nothing. -/
theorem fetcherOf_append_of_mem (hsorts : Sorts o) {l : List GenerationRecord} {record : GenerationRecord} (h : record ∈ l) :
    fetcherOf o.localeCompare (l ++ [record]) stream = fetcherOf o.localeCompare l stream := by
  have := hsorts.total
  have := hsorts.trans
  change eldest _ _ = eldest _ _
  rw [List.filter_append]
  by_cases hon : record.id.stream = stream
  · rw [List.filter_singleton, decide_eq_true hon, cond_true,
      eldest_append_of_mem (List.mem_filter.2 ⟨h, decide_eq_true hon⟩)]
  · rw [List.filter_singleton, decide_eq_false hon, cond_false, List.append_nil]

/-- **While the folds are built**, each knowing all that will be held. -/
structure Opening (o : IndexerOptions) (registered processed : List GenerationRecord) (w : Indexer) : Prop
    extends w.Folds where
  records : ∀ record, record ∈ w.held.map (·.record) ↔ record ∈ processed
  eldest : ∀ stream, fetcherOf o.localeCompare (w.held.map (·.record)) stream = fetcherOf o.localeCompare processed stream
  follows : ∀ entry ∈ w.held, w.follows entry.key =
    (fetcherOf o.localeCompare registered entry.record.id.stream).any (·.id ≠ entry.record.id)
  writable : ∀ entry ∈ w.held, w.writable entry.key = (o.keepStream && !w.follows entry.key)

theorem Opening.holdSpecs (hsorts : Sorts o) {record : GenerationRecord}
    (hkeyed : ∀ g ∈ processed, g.id = record.id → g = record) (h : Opening o registered processed w) :
    Opening o registered (processed ++ [record]) (holdSpecs o registered w record) := by
  unfold Etherfold.holdSpecs
  cases hfind : w.held.find? (·.record.id = record.id) with
  | some existing =>
    have hid := List.find?_some hfind
    rw [decide_eq_true_eq] at hid
    have hmem : record ∈ processed := by
      have hheld := (h.records existing.record).1 (List.mem_map_of_mem (List.mem_of_find?_eq_some hfind))
      rwa [hkeyed existing.record hheld hid] at hheld
    refine ⟨h.toFolds, fun g => ?_, fun stream => ?_, h.follows, h.writable⟩
    · rw [h.records, List.mem_append, List.mem_singleton]
      exact ⟨.inl, fun hg => hg.elim id fun heq => heq ▸ hmem⟩
    · rw [h.eldest, fetcherOf_append_of_mem hsorts hmem]
  | none =>
    have hnew : ∀ entry ∈ w.held, entry.record.id ≠ record.id := by
      intro entry hentry
      have hnot := List.find?_eq_none.1 hfind entry hentry
      rwa [decide_eq_true_eq] at hnot
    have hkey : ∀ entry ∈ w.held, entry.key ≠ w.built := fun entry hentry => (h.built entry hentry).ne
    have hmap : (w.hold o record registered).2.held.map (·.record) = w.held.map (·.record) ++ [record] := List.map_append
    dsimp only
    refine ⟨h.toFolds.hold hnew registered, fun g => ?_, fun stream => ?_, fun e he => ?_, fun e he => ?_⟩
    · rw [hmap, List.mem_append, List.mem_append, h.records]
    · rw [hmap]
      exact fetcherOf_append hsorts (h.eldest stream)
    · show Function.update w.follows w.built _ e.key = _
      rcases mem_hold.1 he with he | rfl
      · rw [Function.update_of_ne (hkey e he)]
        exact h.follows e he
      · exact Function.update_self _ _ _
    · show Function.update w.writable w.built _ e.key = (o.keepStream && !Function.update w.follows w.built _ e.key)
      rcases mem_hold.1 he with he | rfl
      · rw [Function.update_of_ne (hkey e he), Function.update_of_ne (hkey e he)]
        exact h.writable e he
      · rw [Function.update_self, Function.update_self]

theorem opening_foldl (hsorts : Sorts o) (todo : List GenerationRecord)
    (hkeyed : ∀ a ∈ processed ++ todo, ∀ b ∈ processed ++ todo, a.id = b.id → a = b)
    (h : Opening o registered processed w) :
    Opening o registered (processed ++ todo) (todo.foldl (holdSpecs o registered) w) := by
  induction todo generalizing processed w with
  | nil => rwa [List.append_nil]
  | cons record todo ih =>
    rw [List.append_cons] at hkeyed ⊢
    have hrecord : record ∈ processed ++ [record] ++ todo := by simp
    exact ih hkeyed (h.holdSpecs hsorts fun g hg hid => hkeyed g (by simp [hg]) record hrecord hid)

/-- Once all are built, the eldest is who each took it to be. -/
theorem Opening.fetching (h : Opening o registered registered w) : w.Fetching o := by
  refine ⟨h.toFolds, fun entry hentry => ?_, h.writable⟩
  obtain ⟨fetcher, hfetcher⟩ := exists_fetcherAmong (o := o) h.ids hentry
  obtain ⟨hmem, -⟩ := fetcherAmong_mem h.ids hfetcher
  have hsame := h.ids fetcher hmem entry hentry
  rw [h.follows entry hentry, ← h.eldest, fetcherOf_map, ← fetcherAmong_eq h.ids, hfetcher, Option.some.injEq]
  simp only [Option.map_some, Option.any_some, ne_eq, decide_not, Bool.not_eq_eq_eq_not, Bool.not_false,
    decide_eq_true_eq]
  exact ⟨hsame, fun heq => by rw [heq]⟩

/-- **A container opens with one fetcher a stream.** -/
theorem fetching_open (hsorts : Sorts o) {records : GenerationRegistryRecords} (hkeyed : Keyed records)
    {specs : List (GenerationId × ℤ)} {w : Indexer} (h : openIndexer o records specs = .ok w) : w.Fetching o := by
  unfold openIndexer at h
  obtain ⟨⟨registered, r⟩, hregister, h⟩ := bind_eq_ok.1 h
  obtain ⟨hkept, hstays⟩ := registerSpecs_ok hkeyed (fun g hg => absurd hg List.not_mem_nil) hregister
  dsimp only at h
  have hopened := @opening_foldl o ⟨r, [], none, [], fun _ => none, fun _ => false, fun _ => false, fun _ => false, 0, []⟩
    registered [] hsorts registered (fun a ha b hb => hkept a (hstays a ha) b (hstays b hb))
    ⟨⟨by simp, by simp, by simp [Distinct], by simp⟩, by simp, fun _ => rfl, by simp, by simp⟩
  have hfetching := hopened.fetching
  split at h
  · injection h with h
    subst h
    exact hfetching
  split at h
  · cases h
  · injection h with h
    subst h
    exact hfetching.congr rfl rfl rfl rfl

end Opening

end Indexer

/-- **Exactly one fold fetches a stream**, from the opening on, exactly when every step is orderly:
over every registry that stores records under their identities, where texts compare as their sort
keys do. -/
theorem one_fetcher_iff {o : IndexerOptions} {κ : Type*} [LinearOrder κ] {key : Text → κ}
    (hcompare : Lex.Agrees o.localeCompare key) {records : GenerationRegistryRecords} (hkeyed : Indexer.Keyed records)
    {specs : List (GenerationId × ℤ)} {w : Indexer} (hopen : openIndexer o records specs = .ok w)
    (steps : List IndexerStep) :
    w.Fetches o ∧ (Run.Along (Indexer.step o) (fun w step => (w.step o step).Fetches o) w steps ↔
      Run.Along (Indexer.step o) (Indexer.Orderly o) w steps) := by
  have hsorts := Indexer.sorts_of_agrees hcompare
  have hfetching := Indexer.fetching_open hsorts hkeyed hopen
  refine ⟨hfetching.fetches, Run.along_iff (I := Indexer.Fetching o) ?_ ?_ hfetching steps⟩
  · intro w step hw
    exact ⟨(hw.step hsorts step).2, fun horderly => ((hw.step hsorts step).1 horderly).fetches⟩
  · exact fun w step hw horderly => (hw.step hsorts step).1 horderly

/-- A promotion hands the stream over in the step that drops what fetched it. -/
theorem one_fetcher_promoted : (openedTab .onCatchUp).Fetches (tabOptions .onCatchUp) ∧
    Run.Along (Indexer.step (tabOptions .onCatchUp))
      (fun w step => (w.step (tabOptions .onCatchUp) step).Fetches (tabOptions .onCatchUp)) (openedTab .onCatchUp)
      promotedTab := by
  have hopen : openTab .onCatchUp = .ok (openedTab .onCatchUp) := rfl
  have hkeyed : Indexer.Keyed ⟨[], [], fun _ => none⟩ := fun _ ha => absurd ha List.not_mem_nil
  obtain ⟨hfetches, hrun⟩ := @one_fetcher_iff (tabOptions .onCatchUp) _ _ _ agrees_compareText _ hkeyed _ _ hopen promotedTab
  exact ⟨hfetches, hrun.2 (by decide)⟩

/-- What an earlier process left: generation `2`, which no slot names, and the younger `1` that
answers. -/
def leftRecords : GenerationRegistryRecords :=
  ⟨[(⟨⟨[1], [2]⟩, 1⟩, none), (⟨⟨[1], [1]⟩, 2⟩, none)], [[1]], fun name => if name = .canonical then some ⟨[1], [1]⟩ else none⟩

def reopenedTab : Indexer :=
  match openIndexer (tabOptions .manual) leftRecords [(⟨[1], [1]⟩, 3)] with
  | .ok w => w
  | .error _ => openedTab .manual

/-- **A generation that is added again is older than the fold that fetches**, and is built to fetch
beside it. -/
theorem two_fetchers : openIndexer (tabOptions .manual) leftRecords [(⟨[1], [1]⟩, 3)] = .ok reopenedTab ∧
    ¬Run.Along (Indexer.step (tabOptions .manual))
      (fun w step => (w.step (tabOptions .manual) step).Fetches (tabOptions .manual)) reopenedTab
      (.add ⟨[1], [2]⟩ :: goesOn 0 5) :=
  ⟨rfl, by decide⟩

end Etherfold
