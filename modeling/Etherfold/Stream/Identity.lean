import Etherfold.Generation.Registry

/-!
# What a stream is, and what invalidates it

A stream is its fetch filter and its config. The filter is the set of the stream hashes of a source,
the digest is taken over both, and a stored context is compared with a source entry by entry.

* `streamDigestOfSourceHashes`: the identity; entries without a stream hash do not enter it.
* `sourceInvalidationOf`: the verdict on the state and the one on the stream.
* `stream_valid`: **a stream under the same digest is valid** where every entry says what filter it
  was fetched under.
-/

namespace Etherfold

/-- One entry of a source's identity. What was written before the fields existed lacks the last two. -/
structure SourceHashEntry where
  startBlock : ℤ
  hash : Text
  streamHash : Option Text
  legacyHash : Option Text
  deriving DecidableEq, Repr

/-- What a stored cursor was written under. -/
structure ContextIdentifier where
  source : List SourceHashEntry
  config : Text
  processor : Text
  deriving DecidableEq, Repr

/-- A resolved stream config; `parse` stands for its other members, up to their canonical bytes. -/
structure UsedStreamConfig (P : Type) where
  finality : ℤ
  parse : P
  deriving DecidableEq, Repr

/-- The start blocks a source declares: of each contract, or of one merged ABI. -/
inductive ContractStarts where
  | each (startBlocks : List (Option ℤ))
  | all (startBlock : Option ℤ)
  deriving DecidableEq, Repr

/-- What an event range of a source hashes to. -/
structure SourceRange where
  firstBlock : ℤ
  hash : Text
  streamHash : Text
  deriving DecidableEq, Repr

/-- A source: its chain, the start blocks, and the digests of its parts. -/
structure IndexingSource where
  chainId : Text
  genesisHash : Option Text
  contracts : ContractStarts
  skeleton : Text
  whole : Text
  ranges : List SourceRange
  deriving DecidableEq, Repr

/-- **The entries a source is compared by**, over the skeleton's at block `0`. -/
def sourceHashesOf (source : IndexingSource) : List SourceHashEntry :=
  ⟨0, source.skeleton, some source.skeleton, some source.whole⟩ ::
    (source.ranges.map fun r => (⟨r.firstBlock, r.hash, some r.streamHash, none⟩ : SourceHashEntry)).insertionSort
      fun a b => a.startBlock < b.startBlock ∨ a.startBlock = b.startBlock ∧ compareText a.hash b.hash ≤ 0

/-- The first block a source can say anything about. A start block of `0` counts as none. -/
def defaultFromBlockOf (source : IndexingSource) : ℤ :=
  match source.contracts with
  | .each startBlocks =>
    (startBlocks.foldl (fun (lowest : Option ℤ) startBlock =>
      match startBlock.filter (· ≠ 0) with
      | some block => if lowest.all (block < ·) then some block else lowest
      | none => some 0) none).getD 0
  | .all startBlock => startBlock.getD 0

/-- The filter a stream was fetched under: its stream hashes, each once, sorted. -/
def streamFilterOf (entries : List SourceHashEntry) : List Text :=
  ((entries.filterMap (·.streamHash)).dedup).insertionSort fun a b => compareText a b ≤ 0

section Digest

-- the digest over the filter and the config
variable {P : Type} (digestOf : List Text → UsedStreamConfig P → Text)

def streamDigestOfSourceHashes (entries : List SourceHashEntry) (streamConfig : UsedStreamConfig P) : Text :=
  digestOf (streamFilterOf entries) streamConfig

end Digest

/-! ### The verdicts -/

inductive InvalidationReason where
  | streamConfig
  | entryChanged
  | entryAdded
  | entryRemoved
  deriving DecidableEq, Repr

inductive InvalidationVerdict where
  | valid
  | invalid (fromBlock : ℤ) (reason : InvalidationReason)
  deriving DecidableEq, Repr

structure SourceInvalidation where
  state : InvalidationVerdict
  stream : InvalidationVerdict
  deriving DecidableEq, Repr

/-- One entry, written by the code that hashed a whole source at once. -/
def isWholeSourceContext : List SourceHashEntry → Bool
  | [entry] => entry.startBlock = 0 && entry.streamHash.isNone
  | _ => false

/-- The lowest block an entry invalidates from. -/
def invalidFrom (verdict : InvalidationVerdict) (block : ℤ) (reason : InvalidationReason) : InvalidationVerdict :=
  match verdict with
  | .valid => .invalid block reason
  | .invalid lowest _ => if block < lowest then .invalid block reason else verdict

section Verdict

variable (current stored : List SourceHashEntry) (digest : SourceHashEntry → Option Text) (lastToBlock : ℤ)

/-- **The difference of two lists of entries**, as sets, below what was indexed. -/
def verdictOn (removalInvalidates : Bool) : InvalidationVerdict :=
  let added := current.filter fun entry => digest entry ∉ stored.map digest
  let removed := if removalInvalidates then stored.filter fun entry => digest entry ∉ current.map digest else []
  let afterAdded := (added.filter (·.startBlock ≤ lastToBlock)).foldl (fun verdict entry =>
    invalidFrom verdict entry.startBlock
      (if entry.startBlock ∈ removed.map (·.startBlock) then .entryChanged else .entryAdded)) .valid
  (removed.filter (·.startBlock ≤ lastToBlock)).foldl (fun verdict entry =>
    invalidFrom verdict entry.startBlock
      (if entry.startBlock ∈ added.map (·.startBlock) then .entryChanged else .entryRemoved)) afterAdded

end Verdict

/-- **Whether what is stored is still valid**, for the state and for the stream. -/
def sourceInvalidationOf (indexerSourceHashes : List SourceHashEntry) (indexerConfigHash : Text) (lastToBlock : ℤ)
    (context : ContextIdentifier) : SourceInvalidation :=
  if context.config ≠ indexerConfigHash then ⟨.invalid 0 .streamConfig, .invalid 0 .streamConfig⟩
  else
    match (indexerSourceHashes.head?.bind (·.legacyHash)).filter fun _ => isWholeSourceContext context.source with
    | some legacyHash =>
      if context.source.head?.map (·.hash) = some legacyHash then ⟨.valid, .valid⟩
      else ⟨.invalid 0 .entryChanged, .invalid 0 .entryChanged⟩
    | none =>
      let state := verdictOn indexerSourceHashes context.source (fun entry => some entry.hash) lastToBlock true
      let bothSidesKnowTheFilter :=
        indexerSourceHashes.all (·.streamHash.isSome) && context.source.all (·.streamHash.isSome)
      ⟨state, if bothSidesKnowTheFilter then
        verdictOn indexerSourceHashes context.source (·.streamHash) lastToBlock false else state⟩

/-! ### A stream under the same digest -/

theorem mem_streamFilterOf {entries : List SourceHashEntry} {streamHash : Text} :
    streamHash ∈ streamFilterOf entries ↔ ∃ entry ∈ entries, entry.streamHash = some streamHash := by
  unfold streamFilterOf
  rw [List.mem_insertionSort, List.mem_dedup, List.mem_filterMap]

theorem streamHash_sourceHashesOf (source : IndexingSource) : ∀ entry ∈ sourceHashesOf source, entry.streamHash.isSome := by
  intro entry hentry
  unfold sourceHashesOf at hentry
  rw [List.mem_cons, List.mem_insertionSort, List.mem_map] at hentry
  rcases hentry with rfl | ⟨r, -, rfl⟩
  · rfl
  · rfl

/-- Nothing is new where every digest of a source is stored. -/
theorem verdictOn_valid {current stored : List SourceHashEntry} {digest : SourceHashEntry → Option Text} {lastToBlock : ℤ}
    (h : ∀ entry ∈ current, digest entry ∈ stored.map digest) :
    verdictOn current stored digest lastToBlock false = .valid := by
  have hadded : (current.filter fun entry => digest entry ∉ stored.map digest) = [] := by
    rw [List.filter_eq_nil_iff]
    intro entry hentry
    simp only [decide_not, Bool.not_eq_eq_eq_not, Bool.not_true, decide_eq_false_iff_not, not_not]
    exact h entry hentry
  unfold verdictOn
  simp only [hadded, Bool.false_eq_true, if_false]
  rfl

/-- **A stream is valid under its own filter and config**, where its entries say what the filter was. -/
theorem stream_valid {source : IndexingSource} {configHash : Text} {context : ContextIdentifier} (lastToBlock : ℤ)
    (hconfig : context.config = configHash) (hfilter : streamFilterOf context.source = streamFilterOf (sourceHashesOf source))
    (hhashed : ∀ entry ∈ context.source, entry.streamHash.isSome) :
    (sourceInvalidationOf (sourceHashesOf source) configHash lastToBlock context).stream = .valid := by
  have hnotWhole : isWholeSourceContext context.source = false := by
    unfold isWholeSourceContext
    split
    · rename_i entry heq
      have hsome := hhashed entry (by rw [heq]; exact List.mem_singleton_self entry)
      rw [Option.isNone_eq_false_iff.2 hsome, Bool.and_false]
    · rfl
  have hlegacy : ((sourceHashesOf source).head?.bind (·.legacyHash)).filter (fun _ => isWholeSourceContext context.source) = none := by
    rw [hnotWhole, Option.filter_eq_none_iff]
    intro legacy _
    exact Bool.false_ne_true
  have hknown : ((sourceHashesOf source).all (·.streamHash.isSome) && context.source.all (·.streamHash.isSome)) = true := by
    rw [Bool.and_eq_true, List.all_eq_true, List.all_eq_true]
    exact ⟨streamHash_sourceHashesOf source, hhashed⟩
  unfold sourceInvalidationOf
  rw [if_neg (not_not.2 hconfig), hlegacy]
  dsimp only
  rw [if_pos hknown]
  apply verdictOn_valid
  intro entry hentry
  obtain ⟨streamHash, hstream⟩ := Option.isSome_iff_exists.1 (streamHash_sourceHashesOf source entry hentry)
  have hmem : streamHash ∈ streamFilterOf context.source := by
    rw [hfilter]
    exact mem_streamFilterOf.2 ⟨entry, hentry, hstream⟩
  obtain ⟨storedEntry, hstored, heq⟩ := mem_streamFilterOf.1 hmem
  exact List.mem_map.2 ⟨storedEntry, hstored, heq.trans hstream.symm⟩

end Etherfold
