import Etherfold.Engine.Stream
import Etherfold.Stream.Segments

/-!
# Installing a published stream seed

A seed is a captured stream. It is installed into an empty subtree as a run of ordinary saves, once
it is for this stream, reaches back, is coherent, and ends deep enough below the head it was taken
under.

* `identityRefusalOf`, `incoherenceOf`, `refusalOf`: the checks.
* `SeedInstall.batchesOf`, `savesOf`, `writeSaves`: the saves, of which a crash leaves the first few.
* `SeedInstall.batchesOf_whole`: the batches are the events, and no block is split.
* `installs_as_kept`: **every accepted seed is kept, save by save, and read back by the next load**.
-/

namespace Etherfold

variable {P H D : Type}

structure StreamSeedCoverage where
  fromBlock : ℤ
  toBlock : ℤ
  deriving DecidableEq, Repr

structure StreamSeedChain where
  chainId : Text
  genesisHash : Option Text
  deriving DecidableEq, Repr

/-- A seed, parsed. -/
structure StreamSeed (P H D : Type) where
  producer : Text
  chainHeadAtCapture : ℤ
  streamConfig : UsedStreamConfig P
  chain : Option StreamSeedChain
  streamDigest : Text
  coverage : StreamSeedCoverage
  context : ContextIdentifier
  eventStream : List (SeedEvent H D)
  deriving DecidableEq, Repr

inductive NotInstalledReason where
  | noLocations
  | unreachable
  | unreadableFormat
  | doesNotReachBack
  | subtreeNotEmpty
  | incoherent
  | insideReorgWindow
  | chainMismatch
  | streamConfig
  | seedCoversLess
  | seedCoversMore
  | integrityMismatch
  deriving DecidableEq, Repr

/-- Why a seed is not for this stream, with what the message says of it. -/
inductive IdentityRefusal where
  | mislabelled (label published : Text)
  | misconfigured (stored published : Text)
  | chain (captured client : Text)
  | config
  | coversMore
  | coversLess (fromBlock : ℤ) (reason : InvalidationReason)
  deriving DecidableEq, Repr

def IdentityRefusal.reason : IdentityRefusal → NotInstalledReason
  | .mislabelled _ _ => .incoherent
  | .misconfigured _ _ => .incoherent
  | .chain _ _ => .chainMismatch
  | .config => .streamConfig
  | .coversMore => .seedCoversMore
  | .coversLess _ _ => .seedCoversLess

/-- What a seed contradicts itself in. -/
inductive Incoherence (H : Type) where
  | notAnEvent
  | outside (blockNumber logIndex : ℤ) (coverage : StreamSeedCoverage)
  | twoHashes (blockNumber : ℤ) (known other : H)
  | retraction (blockNumber logIndex : ℤ) (producer : Text)
  | duplicate (blockNumber logIndex : ℤ)
  | outOfOrder (blockNumber logIndex previousBlock previousLogIndex : ℤ)
  deriving DecidableEq, Repr

/-! ### The checks -/

section Identity

-- the stream digest over the filter and the config, and the short digest of a config
variable (digestOf : List Text → UsedStreamConfig P → Text) (configHashOf : UsedStreamConfig P → Text)

/-- Only where both sides state one. -/
def genesisDiffers (declared : Option Text) (source : IndexingSource) : Bool :=
  declared.isSome && source.genesisHash.isSome && declared != source.genesisHash

/-- **Whether a seed is for this stream.** -/
def identityRefusalOf (source : IndexingSource) (streamConfig : UsedStreamConfig P) (seed : StreamSeed P H D) :
    Option IdentityRefusal :=
  let published := streamDigestOfSourceHashes digestOf seed.context.source seed.streamConfig
  let publishedConfigHash := configHashOf seed.streamConfig
  if seed.streamDigest ≠ published then some (.mislabelled seed.streamDigest published)
  else if seed.context.config ≠ publishedConfigHash then some (.misconfigured seed.context.config publishedConfigHash)
  else if published = streamDigestOfSourceHashes digestOf (sourceHashesOf source) streamConfig then none
  else
    -- the digests disagree; what is left names the direction
    match seed.chain.filter fun chain => chain.chainId ≠ source.chainId || genesisDiffers chain.genesisHash source with
    | some chain => some (.chain chain.chainId source.chainId)
    | none =>
      if publishedConfigHash ≠ configHashOf streamConfig then some .config
      else
        match (sourceInvalidationOf (sourceHashesOf source) (configHashOf streamConfig) seed.coverage.toBlock
            seed.context).stream with
        | .valid => some .coversMore
        | .invalid fromBlock reason => some (.coversLess fromBlock reason)

end Identity

section Coherence

variable [DecidableEq H]

/-- What the pass over the events carries. -/
structure CoherencePass (H : Type) where
  hashAtBlock : ℤ → Option H
  seen : List (H × ℤ)
  previousBlock : ℤ
  previousLogIndex : ℤ

def CoherencePass.start : CoherencePass H := ⟨fun _ => none, [], -1, -1⟩

/-- After an event that contradicts nothing. -/
def CoherencePass.next (pass : CoherencePass H) (number logIndex : ℤ) (hash : H) : CoherencePass H :=
  ⟨Function.update pass.hashAtBlock number (some hash), (hash, logIndex) :: pass.seen, number, logIndex⟩

/-- What one event contradicts. -/
def CoherencePass.contradicts (pass : CoherencePass H) (seed : StreamSeed P H D) (removed : Bool) (number logIndex : ℤ)
    (hash : H) : Option (Incoherence H) :=
  if number < seed.coverage.fromBlock ∨ seed.coverage.toBlock < number then some (.outside number logIndex seed.coverage)
  else
    match (pass.hashAtBlock number).filter (· ≠ hash) with
    | some known => some (.twoHashes number known hash)
    | none =>
      if removed then some (.retraction number logIndex seed.producer)
      else if (hash, logIndex) ∈ pass.seen then some (.duplicate number logIndex)
      else if number < pass.previousBlock ∨ number = pass.previousBlock ∧ logIndex ≤ pass.previousLogIndex then
        some (.outOfOrder number logIndex pass.previousBlock pass.previousLogIndex)
      else none

def incoherenceFrom (seed : StreamSeed P H D) : CoherencePass H → List (SeedEvent H D) → Option (Incoherence H)
  | _, [] => none
  | pass, event :: rest =>
    -- the shape first: a comparison with an absent field is false rather than a refusal
    match event.blockNumber, event.logIndex, event.blockHash with
    | some number, some logIndex, some hash =>
      match pass.contradicts seed event.removed number logIndex hash with
      | some incoherence => some incoherence
      | none => incoherenceFrom seed (pass.next number logIndex hash) rest
    | _, _, _ => some .notAnEvent

/-- **Whether a seed contradicts itself**, in one pass. -/
def incoherenceOf (seed : StreamSeed P H D) : Option (Incoherence H) := incoherenceFrom seed .start seed.eventStream

end Coherence

section Admission

variable [DecidableEq H] (digestOf : List Text → UsedStreamConfig P → Text) (configHashOf : UsedStreamConfig P → Text)

/-- What an install is handed. -/
structure StreamSeedInstallOptions (P : Type) where
  source : IndexingSource
  streamConfig : UsedStreamConfig P
  reachBackTo : Option ℤ
  maxEventsPerBatch : Option ℤ

/-- **The checks of a parsed seed**, in their order. -/
def refusalOf (options : StreamSeedInstallOptions P) (seed : StreamSeed P H D) : Option NotInstalledReason :=
  match identityRefusalOf digestOf configHashOf options.source options.streamConfig seed with
  | some refusal => some refusal.reason
  | none =>
    if seed.coverage.fromBlock > options.reachBackTo.getD (defaultFromBlockOf options.source) then some .doesNotReachBack
    else if (incoherenceOf seed).isSome then some .incoherent
    else if seed.chainHeadAtCapture - seed.coverage.toBlock < options.streamConfig.finality then some .insideReorgWindow
    else none

end Admission

/-! ### The saves -/

/-- Cut at a change of block, once a batch is full. -/
def cutBatches (maxEvents : ℤ) : Option (SeedEvent H D) → List (SeedEvent H D) → List (SeedEvent H D) →
    List (List (SeedEvent H D))
  | _, current, [] => if current.isEmpty then [] else [current]
  | previous, current, event :: rest =>
    if previous.any (·.blockNumber != event.blockNumber) ∧ maxEvents ≤ current.length then
      current :: cutBatches maxEvents (some event) [event] rest
    else cutBatches maxEvents (some event) (current ++ [event]) rest

/-- **The events of a seed in batches of whole blocks.** -/
def SeedInstall.batchesOf (eventStream : List (SeedEvent H D)) (maxEvents : ℤ) : List (List (SeedEvent H D)) :=
  cutBatches maxEvents none [] eventStream

def defaultMaxEventsPerBatch : ℤ := 1000

/-- The block of a batch's last event. -/
def lastBlockOf (batch : List (SeedEvent H D)) : ℤ := ((batch.getLast?.bind (·.blockNumber))).getD 0

/-- One save. -/
structure SeedSave (H D : Type) where
  eventStream : List (SeedEvent H D)
  lastSync : StoredLastSync
  deriving DecidableEq, Repr

/-- The saves after one that reached this block: each goes on from the last, and the last of them
reaches the end of the coverage. -/
def savesFrom (seed : StreamSeed P H D) : Option ℤ → List (List (SeedEvent H D)) → List (SeedSave H D)
  | _, [] => []
  | previousTo, batch :: rest =>
    let lastFromBlock := match previousTo with
      | none => seed.coverage.fromBlock
      | some previous => previous + 1
    let lastToBlock := if rest.isEmpty then seed.coverage.toBlock else lastBlockOf batch
    ⟨batch, seed.context, seed.chainHeadAtCapture, lastFromBlock, lastToBlock⟩ :: savesFrom seed (some lastToBlock) rest

/-- **The saves of an install.** A seed without events is one empty save. -/
def savesOf (seed : StreamSeed P H D) (maxEventsPerBatch : Option ℤ) : List (SeedSave H D) :=
  savesFrom seed none
    (if seed.eventStream.isEmpty then [[]] else SeedInstall.batchesOf seed.eventStream (maxEventsPerBatch.getD defaultMaxEventsPerBatch))

/-- Save after save, up to one that is declined; the count is of the saves done. -/
def writeSaves : ℕ → Subtree H D → List (SeedSave H D) → Except ℕ ℕ × Subtree H D
  | done, t, [] => (.ok done, t)
  | done, t, save :: rest =>
    match t.saveNewEvents save.lastSync save.eventStream with
    | (true, t) => (.error (done + 1), t)
    | (false, t) => writeSaves (done + 1) t rest

section Install

variable [DecidableEq H] (digestOf : List Text → UsedStreamConfig P → Text) (configHashOf : UsedStreamConfig P → Text)

/-- What an install answers. -/
inductive StreamSeedInstallOutcome where
  | installed (location : ℕ) (reachesTo reachesBackTo : ℤ) (events segments : ℕ)
  | notInstalled (reason : NotInstalledReason)
  | declined (save : ℕ)
  deriving DecidableEq, Repr

/-- The reason that says most. -/
def pickReason (reasons : List NotInstalledReason) : NotInstalledReason :=
  (([.chainMismatch, .streamConfig, .seedCoversLess, .seedCoversMore, .doesNotReachBack, .insideReorgWindow, .incoherent,
    .integrityMismatch, .unreadableFormat, .unreachable] : List NotInstalledReason).find? (· ∈ reasons)).getD .unreachable

/-- The locations in order; a location has a seed or the reason it has none. -/
def installFrom (options : StreamSeedInstallOptions P) (t : Subtree H D) : ℕ → List NotInstalledReason →
    List (Except NotInstalledReason (StreamSeed P H D)) → StreamSeedInstallOutcome × Subtree H D
  | _, reasons, [] => (.notInstalled (pickReason reasons), t)
  | location, reasons, .error reason :: rest => installFrom options t (location + 1) (reason :: reasons) rest
  | location, reasons, .ok seed :: rest =>
    match refusalOf digestOf configHashOf options seed with
    | some reason => installFrom options t (location + 1) (reason :: reasons) rest
    | none =>
      match writeSaves 0 t (savesOf seed options.maxEventsPerBatch) with
      | (.error save, t) => (.declined save, t)
      | (.ok segments, t) =>
        (.installed location seed.coverage.toBlock seed.coverage.fromBlock seed.eventStream.length segments, t)

/-- **Install a seed** into a subtree, if it is empty. -/
def installStreamSeed (options : StreamSeedInstallOptions P) (t : Subtree H D)
    (locations : List (Except NotInstalledReason (StreamSeed P H D))) : StreamSeedInstallOutcome × Subtree H D :=
  if locations = [] then (.notInstalled .noLocations, t)
  else
    match t.fetchFrom (2 ^ 53 - 1) with
    | .absent => installFrom digestOf configHashOf options t 0 [] locations
    | _ => (.notInstalled .subtreeNotEmpty, t)

end Install

/-! ### The next load -/

/-- The stream a fresh generation loads: from the source's first block, where the verdict is valid. -/
def loadStored (source : IndexingSource) (configHash : Text) (t : Subtree H D) :
    Option (List (SeedEvent H D) × StoredLastSync) :=
  match t.fetchFrom (defaultFromBlockOf source) with
  | .stream eventStream lastSync =>
    match (sourceInvalidationOf (sourceHashesOf source) configHash lastSync.lastToBlock lastSync.context).stream with
    | .valid => some (eventStream, lastSync)
    | .invalid _ _ => none
  | _ => none

/-- Where the fetch resumes after that. -/
def resumeBlock (lastSync : StoredLastSync) (defaultFromBlock finality : ℤ) : ℤ :=
  if lastSync.latestBlock = 0 then defaultFromBlock
  else max (min (lastSync.lastToBlock + 1) (lastSync.latestBlock - finality)) defaultFromBlock

/-! ### What an accepted seed is -/

/-- The block of an event. -/
def SeedEvent.number (e : SeedEvent H D) : ℤ := e.blockNumber.getD 0

/-- The event comes after this place, under the hash known of its block. -/
structure SeedEvent.Follows (e : SeedEvent H D) (pass : CoherencePass H) (number index : ℤ) (hash : H) : Prop where
  blockNumber : e.blockNumber = some number
  logIndex : e.logIndex = some index
  blockHash : e.blockHash = some hash
  later : pass.previousBlock < number ∨ pass.previousBlock = number ∧ pass.previousLogIndex < index
  known : ∀ known, pass.hashAtBlock number = some known → known = hash

/-- **A coherent seed**: events inside its coverage, none of them a retraction, each after the one
before, one hash to a block. -/
structure Coherent (seed : StreamSeed P H D) : Prop where
  typed : ∀ e ∈ seed.eventStream, e.blockNumber = some e.number ∧ e.logIndex.isSome ∧ e.blockHash.isSome
  covered : ∀ e ∈ seed.eventStream, seed.coverage.fromBlock ≤ e.number ∧ e.number ≤ seed.coverage.toBlock
  applied : ∀ e ∈ seed.eventStream, e.removed = false
  ordered : seed.eventStream.Pairwise fun e e' =>
    e.number < e'.number ∨ e.number = e'.number ∧ e.blockHash = e'.blockHash ∧ e.logIndex.getD 0 < e'.logIndex.getD 0

section Coherence

variable [DecidableEq H]

theorem contradicts_none {pass : CoherencePass H} {seed : StreamSeed P H D} {removed : Bool} {number logIndex : ℤ} {hash : H}
    (h : pass.contradicts seed removed number logIndex hash = none) :
    seed.coverage.fromBlock ≤ number ∧ number ≤ seed.coverage.toBlock ∧ removed = false ∧
      (pass.previousBlock < number ∨ pass.previousBlock = number ∧ pass.previousLogIndex < logIndex) ∧
      ∀ known, pass.hashAtBlock number = some known → known = hash := by
  unfold CoherencePass.contradicts at h
  split at h
  · cases h
  rename_i hcovered
  split at h
  · cases h
  rename_i hknown
  split at h
  · cases h
  rename_i hremoved
  split at h
  · cases h
  split at h
  · cases h
  rename_i horder
  refine ⟨by omega, by omega, by simpa using hremoved, by omega, fun known hat => ?_⟩
  rw [Option.filter_eq_none_iff] at hknown
  simpa using hknown known hat

/-- Every event that the pass goes over follows what it has seen. -/
theorem follows_of_coherent {seed : StreamSeed P H D} {pass : CoherencePass H} {events : List (SeedEvent H D)}
    (h : incoherenceFrom seed pass events = none) : ∀ e ∈ events, ∃ number logIndex hash,
      e.Follows pass number logIndex hash ∧ seed.coverage.fromBlock ≤ number ∧ number ≤ seed.coverage.toBlock ∧
        e.removed = false := by
  induction events generalizing pass with
  | nil =>
    intro e he
    cases he
  | cons event rest ih =>
    unfold incoherenceFrom at h
    split at h
    · rename_i number logIndex hash hnumber hindex hhash
      split at h
      · cases h
      rename_i hnone
      obtain ⟨hfrom, hto, happlied, hlater, hknown⟩ := contradicts_none hnone
      intro e he
      rcases List.mem_cons.1 he with rfl | he
      · exact ⟨number, logIndex, hash, ⟨hnumber, hindex, hhash, hlater, hknown⟩, hfrom, hto, happlied⟩
      · obtain ⟨number', logIndex', hash', hfollows, hcovered⟩ := ih h e he
        refine ⟨number', logIndex', hash', ⟨hfollows.blockNumber, hfollows.logIndex, hfollows.blockHash, ?_, ?_⟩, hcovered⟩
        · have hafter : number < number' ∨ number = number' ∧ logIndex < logIndex' := hfollows.later
          omega
        · intro known hat
          have hnext : ∀ k, Function.update pass.hashAtBlock number (some hash) number' = some k → k = hash' := hfollows.known
          by_cases heq : number' = number
          · rw [heq, Function.update_self] at hnext
            rw [hknown known (heq ▸ hat)]
            exact hnext hash rfl
          · rw [Function.update_of_ne heq] at hnext
            exact hnext known hat
    · cases h

theorem ordered_of_coherent {seed : StreamSeed P H D} {pass : CoherencePass H} {events : List (SeedEvent H D)}
    (h : incoherenceFrom seed pass events = none) : events.Pairwise fun e e' =>
      e.number < e'.number ∨ e.number = e'.number ∧ e.blockHash = e'.blockHash ∧ e.logIndex.getD 0 < e'.logIndex.getD 0 := by
  induction events generalizing pass with
  | nil => exact .nil
  | cons event rest ih =>
    unfold incoherenceFrom at h
    split at h
    · rename_i number logIndex hash hnumber hindex hhash
      split at h
      · cases h
      refine List.pairwise_cons.2 ⟨fun e he => ?_, ih h⟩
      obtain ⟨number', logIndex', hash', hfollows, -⟩ := follows_of_coherent h e he
      have hafter : number < number' ∨ number = number' ∧ logIndex < logIndex' := hfollows.later
      have hnext : ∀ k, Function.update pass.hashAtBlock number (some hash) number' = some k → k = hash' := hfollows.known
      unfold SeedEvent.number
      rw [hnumber, hindex, hhash, hfollows.blockNumber, hfollows.logIndex, hfollows.blockHash]
      dsimp only [Option.getD_some]
      rcases hafter with hlt | ⟨heq, hlt⟩
      · exact .inl hlt
      · rw [← heq, Function.update_self] at hnext
        exact .inr ⟨heq, by rw [hnext hash rfl], hlt⟩
    · cases h

theorem coherent_of_none {seed : StreamSeed P H D} (h : incoherenceOf seed = none) : Coherent seed := by
  have hfollows := follows_of_coherent h
  refine ⟨fun e he => ?_, fun e he => ?_, fun e he => ?_, ordered_of_coherent h⟩
  · obtain ⟨number, logIndex, hash, hat, -⟩ := hfollows e he
    rw [SeedEvent.number, hat.blockNumber, hat.logIndex, hat.blockHash]
    exact ⟨rfl, rfl, rfl⟩
  · obtain ⟨number, logIndex, hash, hat, hfrom, hto, -⟩ := hfollows e he
    rw [SeedEvent.number, hat.blockNumber]
    exact ⟨hfrom, hto⟩
  · obtain ⟨number, logIndex, hash, -, -, -, happlied⟩ := hfollows e he
    exact happlied

/-- What the pass carries of the events it has gone over. -/
structure CoherencePass.Over (pass : CoherencePass H) (done : List (SeedEvent H D)) : Prop where
  hashes : ∀ n hash, pass.hashAtBlock n = some hash → ∃ e ∈ done, e.blockNumber = some n ∧ e.blockHash = some hash
  seen : ∀ c ∈ pass.seen, ∃ e ∈ done, e.blockHash = some c.1 ∧ e.logIndex = some c.2
  previous : pass.previousBlock = -1 ∨
    ∃ e ∈ done, e.blockNumber = some pass.previousBlock ∧ e.logIndex = some pass.previousLogIndex

omit [DecidableEq H] in
/-- One more event. -/
theorem CoherencePass.Over.next {pass : CoherencePass H} {done : List (SeedEvent H D)} (h : pass.Over done)
    {e : SeedEvent H D} {number logIndex : ℤ} {hash : H} (hnumber : e.blockNumber = some number)
    (hindex : e.logIndex = some logIndex) (hhash : e.blockHash = some hash) :
    (pass.next number logIndex hash).Over (done ++ [e]) := by
  refine ⟨fun n known hat => ?_, fun c hc => ?_, .inr ⟨e, by simp, hnumber, hindex⟩⟩
  · have hat : Function.update pass.hashAtBlock number (some hash) n = some known := hat
    by_cases hn : n = number
    · rw [hn, Function.update_self] at hat
      exact ⟨e, by simp, hn ▸ hnumber, hhash.trans hat⟩
    · rw [Function.update_of_ne hn] at hat
      obtain ⟨e', he', hat⟩ := h.hashes n known hat
      exact ⟨e', by simp [he'], hat⟩
  · rcases List.mem_cons.1 hc with rfl | hc
    · exact ⟨e, by simp, hhash, hindex⟩
    · obtain ⟨e', he', hat⟩ := h.seen c hc
      exact ⟨e', by simp [he'], hat⟩

/-- What comes after what the pass has gone over contradicts nothing. -/
theorem incoherenceFrom_none {seed : StreamSeed P H D} (h : Coherent seed) (hfrom : 0 ≤ seed.coverage.fromBlock)
    (hone : ∀ e ∈ seed.eventStream, ∀ e' ∈ seed.eventStream, e.blockHash = e'.blockHash → e.number = e'.number)
    {pass : CoherencePass H} {done rest : List (SeedEvent H D)} (hover : pass.Over done)
    (hall : seed.eventStream = done ++ rest) : incoherenceFrom seed pass rest = none := by
  induction rest generalizing pass done with
  | nil => rfl
  | cons e rest ih =>
    have hin : e ∈ seed.eventStream := by rw [hall]; simp
    have hdone : ∀ e' ∈ done, e' ∈ seed.eventStream := by
      intro e' he'
      rw [hall]
      simp [he']
    have hbefore : ∀ e' ∈ done, e'.number < e.number ∨
        e'.number = e.number ∧ e'.blockHash = e.blockHash ∧ e'.logIndex.getD 0 < e.logIndex.getD 0 := by
      have hordered := h.ordered
      rw [hall, List.pairwise_append] at hordered
      exact fun e' he' => hordered.2.2 e' he' e (by simp)
    obtain ⟨hnumber, hindex, hhash⟩ := h.typed e hin
    obtain ⟨logIndex, hindex⟩ := Option.isSome_iff_exists.1 hindex
    obtain ⟨hash, hhash⟩ := Option.isSome_iff_exists.1 hhash
    obtain ⟨hlow, hhigh⟩ := h.covered e hin
    unfold incoherenceFrom
    rw [hnumber, hindex, hhash]
    dsimp only
    have hnone : pass.contradicts seed e.removed e.number logIndex hash = none := by
      unfold CoherencePass.contradicts
      rw [if_neg (by omega)]
      have hknown : (pass.hashAtBlock e.number).filter (· ≠ hash) = none := by
        rw [Option.filter_eq_none_iff]
        intro known hat
        obtain ⟨e', he', hnumber', hhash'⟩ := hover.hashes _ _ hat
        have hsame : e'.number = e.number := by rw [SeedEvent.number, hnumber', Option.getD_some]
        rcases hbefore e' he' with hlt | ⟨-, heq, -⟩
        · omega
        · rw [hhash', hhash, Option.some.injEq] at heq
          simp [heq]
      rw [hknown]
      dsimp only
      rw [h.applied e hin, if_neg Bool.false_ne_true, if_neg, if_neg]
      · rcases hover.previous with hstart | ⟨e', he', hnumber', hindex'⟩
        · omega
        · have hprevious : e'.number = pass.previousBlock := by rw [SeedEvent.number, hnumber', Option.getD_some]
          have hb := hbefore e' he'
          rw [hindex', hindex] at hb
          dsimp only [Option.getD_some] at hb
          omega
      · intro hseen
        obtain ⟨e', he', hhash', hindex'⟩ := hover.seen _ hseen
        have hsame := hone e' (hdone e' he') e hin (hhash'.trans hhash.symm)
        have hb := hbefore e' he'
        rw [hindex', hindex] at hb
        dsimp only [Option.getD_some] at hb
        omega
    rw [hnone]
    exact ih (hover.next hnumber hindex hhash) (by rw [hall, List.append_assoc, List.singleton_append])

/-- **A coherent seed whose hashes are of one height each contradicts nothing.** -/
theorem incoherenceOf_none {seed : StreamSeed P H D} (h : Coherent seed) (hfrom : 0 ≤ seed.coverage.fromBlock)
    (hone : ∀ e ∈ seed.eventStream, ∀ e' ∈ seed.eventStream, e.blockHash = e'.blockHash → e.number = e'.number) :
    incoherenceOf seed = none := by
  have hover : (CoherencePass.start : CoherencePass H).Over ([] : List (SeedEvent H D)) := by
    refine ⟨fun n hash hat => ?_, fun c hc => ?_, .inl rfl⟩
    · cases hat
    · cases hc
  exact incoherenceFrom_none h hfrom hone hover rfl

end Coherence

theorem Coherent.ascending {seed : StreamSeed P H D} (h : Coherent seed) :
    seed.eventStream.Pairwise fun e e' => e.number ≤ e'.number := by
  refine h.ordered.imp fun {e e'} hordered => ?_
  rcases hordered with hlt | ⟨heq, -⟩
  · exact hlt.le
  · exact heq.le

/-! ### Whole blocks -/

namespace SeedInstall

/-- Every block of the one is below every block of the other. -/
def Apart (batch later : List (SeedEvent H D)) : Prop := ∀ e ∈ batch, ∀ e' ∈ later, e.number < e'.number

/-- Batches of whole blocks, none of them empty. -/
structure Whole (batches : List (List (SeedEvent H D))) : Prop where
  nonempty : ∀ batch ∈ batches, batch ≠ []
  apart : batches.Pairwise Apart
  ascending : batches.flatten.Pairwise fun e e' => e.number ≤ e'.number

theorem cutBatches_whole (maxEvents : ℤ) {previous : Option (SeedEvent H D)} {current rest : List (SeedEvent H D)}
    (hprevious : previous = current.getLast?) (htyped : ∀ e ∈ current ++ rest, e.blockNumber = some e.number)
    (hascending : (current ++ rest).Pairwise fun e e' => e.number ≤ e'.number) :
    (cutBatches maxEvents previous current rest).flatten = current ++ rest ∧
      (∀ batch ∈ cutBatches maxEvents previous current rest, batch ≠ []) ∧
      (cutBatches maxEvents previous current rest).Pairwise Apart := by
  induction rest generalizing previous current with
  | nil =>
    unfold cutBatches
    split
    · rename_i hempty
      rw [List.isEmpty_iff] at hempty
      simp [hempty]
    · rename_i hnonempty
      rw [List.isEmpty_iff] at hnonempty
      simp [hnonempty]
  | cons event rest ih =>
    unfold cutBatches
    split
    · rename_i hcut
      obtain ⟨hboundary, -⟩ := hcut
      obtain ⟨htail, hnonempty, hapart⟩ := @ih (some event) [event] rfl
        (fun e he => htyped e (List.mem_append_right _ he)) (List.pairwise_append.1 hascending).2.1
      rw [Option.any_eq_true] at hboundary
      obtain ⟨last, hlast, hdiffer⟩ := hboundary
      rw [hprevious] at hlast
      obtain ⟨init, rfl⟩ := List.getLast?_eq_some_iff.1 hlast
      have hlt : last.number < event.number := by
        have hle : last.number ≤ event.number :=
          (List.pairwise_append.1 hascending).2.2 last (by simp) event List.mem_cons_self
        have hne : last.number ≠ event.number := by
          intro heq
          have hsame : last.blockNumber = event.blockNumber := by
            rw [htyped last (by simp), htyped event (by simp), heq]
          simp [hsame] at hdiffer
        omega
      refine ⟨?_, ?_, ?_⟩
      · rw [List.flatten_cons, htail]
        rfl
      · intro batch hbatch
        rcases List.mem_cons.1 hbatch with rfl | hbatch
        · simp
        · exact hnonempty batch hbatch
      · refine List.pairwise_cons.2 ⟨fun batch hbatch e he e' he' => ?_, hapart⟩
        have hto : e.number ≤ last.number := by
          rcases List.mem_append.1 he with he | he
          · exact (List.pairwise_append.1 (List.pairwise_append.1 hascending).1).2.2 e he last (List.mem_singleton_self _)
          · rw [List.mem_singleton.1 he]
        have hfrom : event.number ≤ e'.number := by
          have hmem : e' ∈ [event] ++ rest := htail ▸ List.mem_flatten_of_mem hbatch he'
          rcases List.mem_append.1 hmem with hmem | hmem
          · rw [List.mem_singleton.1 hmem]
          · exact (List.pairwise_cons.1 (List.pairwise_append.1 hascending).2.1).1 e' hmem
        omega
    · have happend : current ++ event :: rest = current ++ [event] ++ rest := by simp
      rw [happend] at htyped hascending ⊢
      exact ih (by simp) htyped hascending

/-- **The batches are the events of the seed, and no block is split.** -/
theorem batchesOf_whole {seed : StreamSeed P H D} (h : Coherent seed) (maxEvents : ℤ) :
    (batchesOf seed.eventStream maxEvents).flatten = seed.eventStream ∧ Whole (batchesOf seed.eventStream maxEvents) := by
  obtain ⟨hflatten, hnonempty, hapart⟩ := @cutBatches_whole H D maxEvents none [] seed.eventStream rfl
    (fun e he => (h.typed e he).1) h.ascending
  rw [List.nil_append] at hflatten
  refine ⟨hflatten, hnonempty, hapart, ?_⟩
  unfold batchesOf
  rw [hflatten]
  exact h.ascending

/-- The last block of a batch of whole blocks. -/
theorem le_lastBlockOf {batch : List (SeedEvent H D)} (hascending : batch.Pairwise fun e e' => e.number ≤ e'.number)
    (hbatch : batch ≠ []) : (∃ e ∈ batch, e.number = lastBlockOf batch) ∧ ∀ e ∈ batch, e.number ≤ lastBlockOf batch := by
  obtain ⟨init, last, rfl⟩ := List.eq_nil_or_concat' batch |>.resolve_left hbatch
  have hlast : lastBlockOf (init ++ [last]) = last.number := by
    unfold lastBlockOf SeedEvent.number
    simp
  rw [hlast]
  refine ⟨⟨last, by simp, rfl⟩, fun e he => ?_⟩
  rcases List.mem_append.1 he with he | he
  · exact (List.pairwise_append.1 hascending).2.2 e he last (List.mem_singleton_self _)
  · rw [List.mem_singleton.1 he]

/-! ### Save by save -/

/-- Some of the batches are kept, and the cursor stands between them and the others. -/
structure Progress (seed : StreamSeed P H D) (t : Subtree H D) (kept rest : List (List (SeedEvent H D)))
    (lastSync : StoredLastSync) : Prop where
  keeps : t.Keeps kept seed.coverage.fromBlock lastSync
  context : lastSync.context = seed.context
  latestBlock : lastSync.latestBlock = seed.chainHeadAtCapture
  below : ∀ e ∈ kept.flatten, e.number ≤ lastSync.lastToBlock
  above : ∀ e ∈ rest.flatten, lastSync.lastToBlock < e.number
  finished : rest = [] → lastSync.lastToBlock = seed.coverage.toBlock

/-- The cursor of one save. -/
theorem lastToBlock_between {seed : StreamSeed P H D} {kept rest : List (List (SeedEvent H D))} {batch : List (SeedEvent H D)}
    (hwhole : Whole (kept ++ batch :: rest)) (hcovered : ∀ e ∈ (kept ++ batch :: rest).flatten, e.number ≤ seed.coverage.toBlock) :
    (∀ e ∈ (kept ++ [batch]).flatten, e.number ≤ if rest.isEmpty then seed.coverage.toBlock else lastBlockOf batch) ∧
      ∀ e ∈ rest.flatten, (if rest.isEmpty then seed.coverage.toBlock else lastBlockOf batch) < e.number := by
  have hbatch : batch ≠ [] := hwhole.nonempty batch (by simp)
  have hascending : batch.Pairwise fun e e' => e.number ≤ e'.number :=
    List.pairwise_flatten.1 hwhole.ascending |>.1 batch (by simp)
  obtain ⟨⟨last, hlast, heq⟩, hle⟩ := le_lastBlockOf hascending hbatch
  have hsplit := List.pairwise_append.1 hwhole.apart
  cases hrest : rest.isEmpty with
  | true =>
    rw [List.isEmpty_iff] at hrest
    rw [hrest] at hcovered ⊢
    exact ⟨hcovered, fun e he => by cases he⟩
  | false =>
    rw [if_neg Bool.false_ne_true]
    constructor
    · intro e he
      rw [List.flatten_append, List.mem_append] at he
      rcases he with he | he
      · obtain ⟨earlier, hearlier, he⟩ := List.mem_flatten.1 he
        have hlt := hsplit.2.2 earlier hearlier batch List.mem_cons_self e he last hlast
        omega
      · rw [List.flatten_singleton] at he
        exact hle e he
    · intro e he
      obtain ⟨later, hlater, he⟩ := List.mem_flatten.1 he
      have hlt := (List.pairwise_cons.1 hsplit.2.1).1 later hlater last hlast e he
      omega

/-- A save that is not declined. -/
theorem writeSaves_cons {t : Subtree H D} {save : SeedSave H D} (h : (t.saveNewEvents save.lastSync save.eventStream).1 = false)
    (done : ℕ) (rest : List (SeedSave H D)) :
    writeSaves done t (save :: rest) = writeSaves (done + 1) (t.saveNewEvents save.lastSync save.eventStream).2 rest := by
  conv_lhs => unfold writeSaves
  split
  · rename_i heq
    rw [heq] at h
    cases h
  · rename_i heq
    rw [heq]

/-- The first save. -/
theorem progress_first {seed : StreamSeed P H D} {rest : List (List (SeedEvent H D))} {batch : List (SeedEvent H D)}
    (hwhole : Whole (batch :: rest)) (hcovered : ∀ e ∈ (batch :: rest).flatten, e.number ≤ seed.coverage.toBlock)
    {k : ℕ} : ∃ t lastSync, Progress seed t [batch] rest lastSync ∧
      writeSaves 0 Subtree.empty ((savesFrom seed none (batch :: rest)).take (k + 1)) =
        writeSaves 1 t ((savesFrom seed (some lastSync.lastToBlock) rest).take k) := by
  obtain ⟨hbelow, habove⟩ := @lastToBlock_between _ _ _ seed [] rest batch hwhole hcovered
  set next : StoredLastSync := ⟨seed.context, seed.chainHeadAtCapture, seed.coverage.fromBlock,
    if rest.isEmpty then seed.coverage.toBlock else lastBlockOf batch⟩ with hnext
  obtain ⟨hdeclined, hkeeps⟩ := Subtree.keeps_first next (hwhole.nonempty batch List.mem_cons_self)
  refine ⟨_, next, ⟨hkeeps, rfl, rfl, hbelow, habove, fun hrest => ?_⟩, ?_⟩
  · rw [hnext, hrest]
    rfl
  · show writeSaves 0 Subtree.empty (⟨batch, next⟩ :: _) = _
    rw [writeSaves_cons hdeclined]

/-- **One more save.** -/
theorem Progress.save {seed : StreamSeed P H D} {t : Subtree H D} {kept rest : List (List (SeedEvent H D))}
    {batch : List (SeedEvent H D)} {lastSync : StoredLastSync} (h : Progress seed t kept (batch :: rest) lastSync)
    (hwhole : Whole (kept ++ batch :: rest)) (hcovered : ∀ e ∈ (kept ++ batch :: rest).flatten, e.number ≤ seed.coverage.toBlock)
    (done k : ℕ) : ∃ t' next, Progress seed t' (kept ++ [batch]) rest next ∧
      writeSaves done t ((savesFrom seed (some lastSync.lastToBlock) (batch :: rest)).take (k + 1)) =
        writeSaves (done + 1) t' ((savesFrom seed (some next.lastToBlock) rest).take k) := by
  obtain ⟨hbelow, habove⟩ := lastToBlock_between hwhole hcovered
  set next : StoredLastSync := ⟨seed.context, seed.chainHeadAtCapture, lastSync.lastToBlock + 1,
    if rest.isEmpty then seed.coverage.toBlock else lastBlockOf batch⟩ with hnext
  have hcontiguous : next.lastFromBlock ≤ lastSync.lastToBlock + 1 := le_rfl
  obtain ⟨hdeclined, hkeeps⟩ := h.keeps.save (hwhole.nonempty batch (by simp)) hcontiguous
  refine ⟨_, next, ⟨hkeeps, rfl, rfl, hbelow, habove, fun hrest => ?_⟩, ?_⟩
  · rw [hnext, hrest]
    rfl
  · show writeSaves done t (⟨batch, next⟩ :: _) = _
    rw [writeSaves_cons hdeclined]

/-- **Any number of further saves**, none of them declined. -/
theorem Progress.saves {seed : StreamSeed P H D} {t : Subtree H D} {kept rest : List (List (SeedEvent H D))}
    {lastSync : StoredLastSync} (h : Progress seed t kept rest lastSync) (hwhole : Whole (kept ++ rest))
    (hcovered : ∀ e ∈ (kept ++ rest).flatten, e.number ≤ seed.coverage.toBlock) (done : ℕ) {k : ℕ} (hk : k ≤ rest.length) :
    ∃ t' next, Progress seed t' (kept ++ rest.take k) (rest.drop k) next ∧
      writeSaves done t ((savesFrom seed (some lastSync.lastToBlock) rest).take k) = (.ok (done + k), t') := by
  induction k generalizing t kept rest lastSync done with
  | zero =>
    refine ⟨t, lastSync, ?_, rfl⟩
    simpa using h
  | succ k ih =>
    cases rest with
    | nil => simp at hk
    | cons batch rest =>
      obtain ⟨t₁, next₁, hprogress, hrun⟩ := h.save hwhole hcovered done k
      have happend : kept ++ batch :: rest = kept ++ [batch] ++ rest := by simp
      rw [happend] at hwhole hcovered
      obtain ⟨t', next, hprogress', hrun'⟩ := ih hprogress hwhole hcovered (done + 1) (by simpa using hk)
      refine ⟨t', next, ?_, ?_⟩
      · simpa using hprogress'
      · rw [hrun, hrun', show done + 1 + k = done + (k + 1) by omega]

/-- What is stored of a seed, up to a cursor. -/
structure KeptUpTo (seed : StreamSeed P H D) (t : Subtree H D) (lastSync : StoredLastSync) : Prop where
  context : lastSync.context = seed.context
  latestBlock : lastSync.latestBlock = seed.chainHeadAtCapture
  cursor : t.cursor = some ⟨lastSync, seed.coverage.fromBlock, t.segments.length⟩
  stored : (t.segments.map (·.2.getD [])).flatten = seed.eventStream.filter (·.number ≤ lastSync.lastToBlock)
  whole : t.segments.Pairwise fun s s' => Apart (s.2.getD []) (s'.2.getD [])
  fetched : ∀ fromBlock, seed.coverage.fromBlock ≤ fromBlock → t.fetchFrom fromBlock =
    .stream (seed.eventStream.filter fun e => e.since fromBlock && decide (e.number ≤ lastSync.lastToBlock)) lastSync

theorem map_numbered (ordinal : ℕ) (batches : List (List (SeedEvent H D))) :
    (Subtree.numbered ordinal batches).map (·.2.getD []) = batches := by
  induction batches generalizing ordinal with
  | nil => rfl
  | cons batch rest ih =>
    unfold Subtree.numbered
    rw [List.map_cons, ih]
    rfl

/-- **Progress is a contiguous prefix** whose cursor covers exactly the events stored. -/
theorem Progress.keptUpTo {seed : StreamSeed P H D} {t : Subtree H D} {kept rest : List (List (SeedEvent H D))}
    {lastSync : StoredLastSync} (h : Progress seed t kept rest lastSync) (hwhole : Whole (kept ++ rest))
    (hevents : (kept ++ rest).flatten = seed.eventStream) : KeptUpTo seed t lastSync := by
  have hkept : seed.eventStream.filter (·.number ≤ lastSync.lastToBlock) = kept.flatten := by
    rw [← hevents, List.flatten_append, List.filter_append]
    have hbelow : kept.flatten.filter (·.number ≤ lastSync.lastToBlock) = kept.flatten := by
      rw [List.filter_eq_self]
      intro e he
      exact decide_eq_true (h.below e he)
    have habove : rest.flatten.filter (·.number ≤ lastSync.lastToBlock) = [] := by
      rw [List.filter_eq_nil_iff]
      intro e he
      have hlt := h.above e he
      rw [decide_eq_true_eq]
      omega
    rw [hbelow, habove, List.append_nil]
  refine ⟨h.context, h.latestBlock, ?_, ?_, ?_, fun fromBlock hfrom => ?_⟩
  · rw [h.keeps.cursor, h.keeps.segments, Subtree.length_numbered]
    rfl
  · rw [h.keeps.segments, map_numbered, hkept]
  · rw [h.keeps.segments]
    have hapart : ((Subtree.numbered 0 kept).map (·.2.getD [])).Pairwise Apart := by
      rw [map_numbered]
      exact (List.pairwise_append.1 hwhole.apart).1
    exact List.pairwise_map.1 hapart
  · rw [h.keeps.fetch hfrom, ← hkept, List.filter_filter]

/-- A seed without events is one empty save. -/
theorem progress_quiet (seed : StreamSeed P H D) : ∃ t lastSync, Progress seed t [] [] lastSync ∧
    writeSaves 0 Subtree.empty (savesFrom seed none [[]]) = (.ok 1, t) :=
  ⟨_, ⟨seed.context, seed.chainHeadAtCapture, seed.coverage.fromBlock, seed.coverage.toBlock⟩,
    ⟨(Subtree.keeps_quiet _).2, rfl, rfl, fun _ he => absurd he List.not_mem_nil, fun _ he => absurd he List.not_mem_nil,
      fun _ => rfl⟩, rfl⟩

theorem length_savesFrom (seed : StreamSeed P H D) (previousTo : Option ℤ) (batches : List (List (SeedEvent H D))) :
    (savesFrom seed previousTo batches).length = batches.length := by
  induction batches generalizing previousTo with
  | nil => rfl
  | cons batch rest ih =>
    unfold savesFrom
    rw [List.length_cons, List.length_cons, ih]

/-- **An install that a crash cuts short**, or none does: no save is declined, and what is stored is a
contiguous prefix of the seed. -/
theorem saves_keep {seed : StreamSeed P H D} (h : Coherent seed) (maxEventsPerBatch : Option ℤ) {k : ℕ}
    (hk : k ≤ (savesOf seed maxEventsPerBatch).length) :
    (writeSaves 0 Subtree.empty ((savesOf seed maxEventsPerBatch).take k)).1 = .ok k ∧ (0 < k →
      ∃ lastSync, KeptUpTo seed (writeSaves 0 Subtree.empty ((savesOf seed maxEventsPerBatch).take k)).2 lastSync ∧
        (k = (savesOf seed maxEventsPerBatch).length → lastSync.lastToBlock = seed.coverage.toBlock)) := by
  obtain ⟨hflatten, hwhole⟩ := batchesOf_whole h (maxEventsPerBatch.getD defaultMaxEventsPerBatch)
  cases k with
  | zero => exact ⟨rfl, fun hpos => absurd hpos (lt_irrefl 0)⟩
  | succ k =>
    cases hempty : seed.eventStream.isEmpty with
    | true =>
      unfold savesOf at hk ⊢
      rw [if_pos hempty] at hk ⊢
      rw [length_savesFrom, List.length_singleton] at hk
      obtain ⟨t, lastSync, hprogress, hrun⟩ := progress_quiet seed
      have hall : (savesFrom seed none [[]]).take (k + 1) = savesFrom seed none [[]] := by
        rw [List.take_of_length_le]
        rw [length_savesFrom, List.length_singleton]
        omega
      have hzero : k = 0 := by omega
      rw [hall, hrun, hzero]
      refine ⟨rfl, fun _ => ⟨lastSync, hprogress.keptUpTo ⟨?_, .nil, .nil⟩ ?_, fun _ => hprogress.finished rfl⟩⟩
      · intro batch hbatch
        cases hbatch
      · rw [List.isEmpty_iff] at hempty
        rw [hempty]
        rfl
    | false =>
      unfold savesOf at hk ⊢
      rw [if_neg (by simp [hempty])] at hk ⊢
      rw [length_savesFrom] at hk ⊢
      generalize batchesOf seed.eventStream (maxEventsPerBatch.getD defaultMaxEventsPerBatch) = batches at hk hflatten hwhole ⊢
      cases batches with
      | nil => simp at hk
      | cons batch rest =>
        have hcovered : ∀ e ∈ (batch :: rest).flatten, e.number ≤ seed.coverage.toBlock := by
          intro e he
          rw [hflatten] at he
          exact (h.covered e he).2
        obtain ⟨t₁, first, hfirst, hrun⟩ := progress_first (k := k) hwhole hcovered
        rw [List.length_cons] at hk ⊢
        obtain ⟨t, lastSync, hprogress, hrest⟩ := hfirst.saves hwhole hcovered 1 (show k ≤ rest.length by omega)
        rw [hrun, hrest, Nat.add_comm 1 k]
        have hsplit : [batch] ++ rest.take k ++ rest.drop k = batch :: rest := by simp
        refine ⟨rfl, fun _ => ⟨lastSync, hprogress.keptUpTo (hsplit ▸ hwhole) (hsplit ▸ hflatten), fun heq => ?_⟩⟩
        exact hprogress.finished (List.drop_eq_nil_of_le (by omega))

/-! ### The load after an install -/

section Accepted

variable {digestOf : List Text → UsedStreamConfig P → Text} {configHashOf : UsedStreamConfig P → Text}
  {options : StreamSeedInstallOptions P} {seed : StreamSeed P H D}

theorem identityRefusalOf_none {source : IndexingSource} {streamConfig : UsedStreamConfig P}
    (h : identityRefusalOf digestOf configHashOf source streamConfig seed = none) :
    seed.context.config = configHashOf seed.streamConfig ∧
      streamDigestOfSourceHashes digestOf seed.context.source seed.streamConfig =
        streamDigestOfSourceHashes digestOf (sourceHashesOf source) streamConfig := by
  unfold identityRefusalOf at h
  dsimp only at h
  split at h
  · cases h
  split at h
  · cases h
  rename_i hconfig
  split at h
  · rename_i hdigest
    exact ⟨not_not.1 hconfig, hdigest⟩
  · split at h
    · cases h
    split at h
    · cases h
    split at h
    · cases h
    · cases h

theorem savesOf_pos (h : Coherent seed) (maxEventsPerBatch : Option ℤ) : 0 < (savesOf seed maxEventsPerBatch).length := by
  unfold savesOf
  rw [length_savesFrom]
  split
  · exact Nat.one_pos
  · rename_i hempty
    obtain ⟨hflatten, -⟩ := batchesOf_whole h (maxEventsPerBatch.getD defaultMaxEventsPerBatch)
    rw [List.length_pos_iff]
    intro hnil
    rw [hnil] at hflatten
    exact hempty (by rw [← hflatten]; rfl)

variable [DecidableEq H]

theorem refusalOf_none (h : refusalOf digestOf configHashOf options seed = none) :
    identityRefusalOf digestOf configHashOf options.source options.streamConfig seed = none ∧
      seed.coverage.fromBlock ≤ options.reachBackTo.getD (defaultFromBlockOf options.source) ∧ Coherent seed ∧
      options.streamConfig.finality ≤ seed.chainHeadAtCapture - seed.coverage.toBlock := by
  unfold refusalOf at h
  split at h
  · cases h
  rename_i hidentity
  split at h
  · cases h
  split at h
  · cases h
  rename_i hcoherent
  split at h
  · cases h
  refine ⟨hidentity, by omega, coherent_of_none ?_, by omega⟩
  rwa [Bool.not_eq_true, Option.isSome_eq_false_iff, Option.isNone_iff_eq_none] at hcoherent

/-- **An accepted seed is the stream this client would have kept.** No save is declined, whatever a
crash leaves is a contiguous prefix of whole blocks, a read returns the events of the seed, and the
next load finds them valid and resumes one block after, or on the last block where the capture ends
just at finality. -/
theorem installs_as_kept (hdigest : ∀ filter config filter' config', digestOf filter config = digestOf filter' config' →
      filter = filter' ∧ config = config')
    (haccepted : refusalOf digestOf configHashOf options seed = none)
    (hhashed : ∀ entry ∈ seed.context.source, entry.streamHash.isSome)
    (hreach : options.reachBackTo.getD (defaultFromBlockOf options.source) ≤ defaultFromBlockOf options.source) :
    (∀ k, k ≤ (savesOf seed options.maxEventsPerBatch).length →
      (writeSaves 0 Subtree.empty ((savesOf seed options.maxEventsPerBatch).take k)).1 = .ok k ∧ (0 < k → ∃ lastSync,
        KeptUpTo seed (writeSaves 0 Subtree.empty ((savesOf seed options.maxEventsPerBatch).take k)).2 lastSync)) ∧
      ∃ t : Subtree H D, ∃ lastSync : StoredLastSync,
        installStreamSeed digestOf configHashOf options Subtree.empty [.ok seed] =
          (.installed 0 seed.coverage.toBlock seed.coverage.fromBlock seed.eventStream.length
            (savesOf seed options.maxEventsPerBatch).length, t) ∧
        KeptUpTo seed t lastSync ∧ lastSync.lastToBlock = seed.coverage.toBlock ∧
        (∀ fromBlock, seed.coverage.fromBlock ≤ fromBlock →
          t.fetchFrom fromBlock = .stream (seed.eventStream.filter (·.since fromBlock)) lastSync) ∧
        loadStored options.source (configHashOf options.streamConfig) t =
          some (seed.eventStream.filter (·.since (defaultFromBlockOf options.source)), lastSync) ∧
        resumeBlock lastSync (defaultFromBlockOf options.source) options.streamConfig.finality =
          if seed.chainHeadAtCapture = 0 then defaultFromBlockOf options.source
          else max (if seed.chainHeadAtCapture - seed.coverage.toBlock = options.streamConfig.finality then
            seed.coverage.toBlock else seed.coverage.toBlock + 1) (defaultFromBlockOf options.source) := by
  obtain ⟨hidentity, hfrom, hcoherent, hdepth⟩ := refusalOf_none haccepted
  obtain ⟨hconfig, hsame⟩ := identityRefusalOf_none hidentity
  obtain ⟨hfilter, hstream⟩ := hdigest _ _ _ _ hsame
  have hsaves := fun k => @saves_keep _ _ _ seed hcoherent options.maxEventsPerBatch k
  refine ⟨fun k hk => ⟨(hsaves k hk).1, fun hpos => ?_⟩, ?_⟩
  · obtain ⟨lastSync, hkept, -⟩ := (hsaves k hk).2 hpos
    exact ⟨lastSync, hkept⟩
  obtain ⟨hall, hkept⟩ := hsaves _ le_rfl
  obtain ⟨lastSync, hkept, hto⟩ := hkept (savesOf_pos hcoherent _)
  have hto := hto rfl
  rw [List.take_length] at hall hkept
  have hfetch : ∀ fromBlock, seed.coverage.fromBlock ≤ fromBlock →
      (writeSaves 0 Subtree.empty (savesOf seed options.maxEventsPerBatch)).2.fetchFrom fromBlock =
        .stream (seed.eventStream.filter (·.since fromBlock)) lastSync := by
    intro fromBlock hge
    rw [hkept.fetched fromBlock hge]
    congr 1
    apply List.filter_congr
    intro e he
    rw [hto, decide_eq_true (hcoherent.covered e he).2, Bool.and_true]
  refine ⟨_, lastSync, ?_, hkept, hto, hfetch, ?_, ?_⟩
  · unfold installStreamSeed
    rw [if_neg (List.cons_ne_nil _ _)]
    show installFrom digestOf configHashOf options Subtree.empty 0 [] [.ok seed] = _
    unfold installFrom
    rw [haccepted]
    dsimp only
    split
    · rename_i heq
      rw [heq] at hall
      cases hall
    · rename_i heq
      rw [heq] at hall ⊢
      injection hall with hall
      rw [hall]
  · have hvalid : (sourceInvalidationOf (sourceHashesOf options.source) (configHashOf options.streamConfig)
        lastSync.lastToBlock seed.context).stream = .valid :=
      stream_valid lastSync.lastToBlock (by rw [hconfig, hstream]) hfilter hhashed
    unfold loadStored
    rw [hfetch _ (hfrom.trans hreach)]
    dsimp only
    rw [hkept.context, hvalid]
  · unfold resumeBlock
    rw [hkept.latestBlock, hto]
    split
    · rfl
    · congr 1
      split <;> omega

end Accepted

end SeedInstall

/-! ### Seeds at the edge -/

/-- Texts, one after the other. -/
def spell : List Text → Text
  | [] => []
  | t :: ts => t.flatMap (fun x => [1, x]) ++ 0 :: spell ts

theorem spell_cons_inj {t t' r r' : Text} (h : t.flatMap (fun x => [1, x]) ++ 0 :: r = t'.flatMap (fun x => [1, x]) ++ 0 :: r') :
    t = t' ∧ r = r' := by
  induction t generalizing t' with
  | nil =>
    cases t' with
    | nil => simpa using h
    | cons x' t' => simp at h
  | cons x t ih =>
    cases t' with
    | nil => simp at h
    | cons x' t' =>
      simp only [List.flatMap_cons, List.cons_append, List.nil_append, List.cons.injEq, true_and] at h
      obtain ⟨hx, hrest⟩ := h
      obtain ⟨ht, hr⟩ := ih hrest
      exact ⟨by rw [hx, ht], hr⟩

theorem spell_injective : Function.Injective spell := by
  intro ts
  induction ts with
  | nil =>
    intro ts' h
    cases ts' with
    | nil => rfl
    | cons t' ts' => simp [spell] at h
  | cons t ts ih =>
    intro ts' h
    cases ts' with
    | nil => simp [spell] at h
    | cons t' ts' =>
      unfold spell at h
      obtain ⟨ht, hts⟩ := spell_cons_inj h
      rw [ht, ih hts]

/-- A digest that forgets nothing. -/
def plainDigest (filter : List Text) (config : UsedStreamConfig Unit) : Text :=
  spell ((if config.finality < 0 then [1] else []) :: List.replicate config.finality.natAbs 0 :: filter)

theorem plainDigest_injective (filter : List Text) (config : UsedStreamConfig Unit) (filter' : List Text)
    (config' : UsedStreamConfig Unit) (h : plainDigest filter config = plainDigest filter' config') :
    filter = filter' ∧ config = config' := by
  have hparts := spell_injective h
  rw [List.cons.injEq, List.cons.injEq, List.replicate_inj] at hparts
  obtain ⟨hsign, ⟨habs, -⟩, hfilter⟩ := hparts
  refine ⟨hfilter, ?_⟩
  have hfinality : config.finality = config'.finality := by
    split at hsign <;> split at hsign <;> first | omega | simp at hsign
  obtain ⟨finality, ⟨⟩⟩ := config
  obtain ⟨finality', ⟨⟩⟩ := config'
  rw [show finality = finality' from hfinality]

/-- A source of one event, from block `0`. -/
def plainSource : IndexingSource := ⟨[49], none, .each [none], [1], [9], [⟨0, [2], [3]⟩]⟩

/-- Two events in two blocks, covered to block `5`. -/
def plainSeed (head : ℤ) (fromBlock : ℤ) (more : List SourceHashEntry) : StreamSeed Unit ℕ Unit where
  producer := []
  chainHeadAtCapture := head
  streamConfig := ⟨2, ()⟩
  chain := none
  streamDigest := plainDigest [[1], [3]] ⟨2, ()⟩
  coverage := ⟨fromBlock, 5⟩
  context := ⟨sourceHashesOf plainSource ++ more, [7], []⟩
  eventStream := [⟨some 3, some 0, some 3, false, ()⟩, ⟨some 4, some 0, some 4, false, ()⟩]

def plainOptions (reachBackTo : Option ℤ) : StreamSeedInstallOptions Unit := ⟨plainSource, ⟨2, ()⟩, reachBackTo, some 1⟩

/-- The subtree after an install. -/
def plainInstalled (head fromBlock : ℤ) (more : List SourceHashEntry) : Subtree ℕ Unit :=
  (writeSaves 0 Subtree.empty (savesOf (plainSeed head fromBlock more) (some 1))).2

open SeedInstall

theorem installs_as_kept_plain :
    refusalOf plainDigest (fun _ => [7]) (plainOptions none) (plainSeed 10 0 []) = none ∧
      ∃ t : Subtree ℕ Unit, ∃ lastSync : StoredLastSync, KeptUpTo (plainSeed 10 0 []) t lastSync ∧
        loadStored plainSource [7] t = some ((plainSeed 10 0 []).eventStream, lastSync) ∧ resumeBlock lastSync 0 2 = 6 := by
  have haccepted : refusalOf plainDigest (fun _ => [7]) (plainOptions none) (plainSeed 10 0 []) = none := by decide
  obtain ⟨-, t, lastSync, -, hkept, -, -, hload, hresume⟩ :=
    installs_as_kept plainDigest_injective haccepted (by decide) (by decide)
  exact ⟨haccepted, t, lastSync, hkept, hload, hresume⟩

/-- A capture that ends just at finality resumes on its last block; a seed with an entry that does not
say what filter it was fetched under is accepted and then discarded; so is one that reaches back no
further than the caller asked. -/
theorem installed_otherwise :
    (refusalOf plainDigest (fun _ => [7]) (plainOptions none) (plainSeed 7 0 []) = none ∧
      (loadStored plainSource [7] (plainInstalled 7 0 [])).map (fun r => resumeBlock r.2 0 2) = some 5) ∧
    (refusalOf plainDigest (fun _ => [7]) (plainOptions none) (plainSeed 10 0 [⟨0, [4], none, none⟩]) = none ∧
      loadStored plainSource [7] (plainInstalled 10 0 [⟨0, [4], none, none⟩]) = none) ∧
    (refusalOf plainDigest (fun _ => [7]) (plainOptions (some 2)) (plainSeed 10 2 []) = none ∧
      loadStored plainSource [7] (plainInstalled 10 2 []) = none) := by
  decide

end Etherfold
