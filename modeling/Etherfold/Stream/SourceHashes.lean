import Etherfold.Fetch.EventRanges
import Etherfold.Stream.Identity

/-!
# What a source is compared by

A source hashes to one entry per event of a contract and live range, over an
entry for what no ABI describes. The entries are computed from the normalised
ranges, so that a regenerated ABI which means the same hashes to the same.

* `normalizeRanges_congr`: ranges are normalised by what they cover.
* `SameOccurrences`: two ABIs that declare the same shapes over the same blocks.
* `digests_respelled`: **a respelled source has the same digests.**
* `digests_mean`: digests identify what a source means.
-/

namespace Etherfold

/-- A source as it is configured, with its ABIs. -/
structure DeclaredSource where
  chainId : Text
  genesisHash : Option Text
  contracts : ContractsData
  deriving Repr

/-- What a source is besides its ABIs: each contract's address and start block, in order. -/
structure SourceSkeleton where
  chainId : Text
  genesisHash : Option Text
  contracts : List (Option String × Option ℤ) ⊕ Option ℤ
  deriving Repr

def sourceSkeletonOf (source : DeclaredSource) : SourceSkeleton where
  chainId := source.chainId
  genesisHash := source.genesisHash
  contracts :=
    match source.contracts with
    | .each contracts => .inl (contracts.map fun contract => (contract.address, contract.startBlock))
    | .all _ startBlock => .inr startBlock

/-- What is hashed of a source: what decoding an event over a range reads, what its filter
is built from, the skeleton, and the source as a whole. -/
inductive Hashed (T : Type) where
  | decoding (address : Option String) (signature : String) (shape : DecodingShape) (range : EventBlockRange)
  | filter (address : Option String) (topic0 : Option T) (range : EventBlockRange)
  | skeleton (skeleton : SourceSkeleton)
  | whole (source : DeclaredSource)

section Digests

variable {T : Type} (s : Selectors T) (simple_hash : Hashed T → Text)

/-- The two digests of each range of a live event. -/
def sourceRangesOf (live : LiveEvent) : List SourceRange :=
  live.ranges.map fun range =>
    ⟨range.firstBlock,
      simple_hash (.decoding live.address live.signature (decodingShapeOf live.event) range),
      simple_hash (.filter live.address (topic0Of s live.event) range)⟩

/-- The start blocks of a source, as they are read for its first block. -/
def contractStartsOf : ContractsData → ContractStarts
  | .each contracts => .each (contracts.map (·.startBlock))
  | .all _ startBlock => .all startBlock

/-- A source by the digests of its parts. -/
def hashedSource (source : DeclaredSource) : Except RangeRefusal IndexingSource :=
  (liveEventsOf s source.contracts).map fun live =>
    ⟨source.chainId, source.genesisHash, contractStartsOf source.contracts,
      simple_hash (.skeleton (sourceSkeletonOf source)), simple_hash (.whole source),
      live.flatMap (sourceRangesOf s simple_hash)⟩

/-- **The entries a source is compared by**, or why its ranges are refused. -/
def sourceHashEntriesOf (source : DeclaredSource) : Except RangeRefusal (List SourceHashEntry) :=
  (hashedSource s simple_hash source).map sourceHashesOf

end Digests

/-- What is hashed of a source. -/
inductive IsHashed {T : Type} (s : Selectors T) (source : DeclaredSource) : Hashed T → Prop
  | decoding {lives : List LiveEvent} {live : LiveEvent} {range : EventBlockRange}
      (hlives : liveEventsOf s source.contracts = .ok lives) (hlive : live ∈ lives) (hrange : range ∈ live.ranges) :
      IsHashed s source (.decoding live.address live.signature (decodingShapeOf live.event) range)
  | filter {lives : List LiveEvent} {live : LiveEvent} {range : EventBlockRange}
      (hlives : liveEventsOf s source.contracts = .ok lives) (hlive : live ∈ lives) (hrange : range ∈ live.ranges) :
      IsHashed s source (.filter live.address (topic0Of s live.event) range)
  | skeleton : IsHashed s source (.skeleton (sourceSkeletonOf source))
  | whole : IsHashed s source (.whole source)

/-- The digest tells apart whatever is hashed of two sources. -/
def TellsApart {T : Type} (s : Selectors T) (simple_hash : Hashed T → Text) (source source' : DeclaredSource) : Prop :=
  ∀ x y, IsHashed s source x ∨ IsHashed s source' x → IsHashed s source y ∨ IsHashed s source' y →
    simple_hash x = simple_hash y → x = y

/-- The digests of an entry, with the block it starts at. What a context written before is
compared with is not one of them. -/
def SourceHashEntry.digests (entry : SourceHashEntry) : ℤ × Text × Option Text :=
  (entry.startBlock, entry.hash, entry.streamHash)

/-! ### Ranges by what they cover -/

/-- Ranges that cover the same blocks, reach down to the same block, and are open-ended alike. -/
structure SameSpan (ranges ranges' : List EventBlockRange) : Prop where
  openEnded : (∃ r ∈ ranges, r.lastBlock = none) ↔ ∃ r ∈ ranges', r.lastBlock = none
  covers : ∀ block, AnyCovers ranges block ↔ AnyCovers ranges' block
  above : ∀ block, (∃ r ∈ ranges, r.firstBlock ≤ block) ↔ ∃ r ∈ ranges', r.firstBlock ≤ block

theorem SameSpan.of_perm {ranges ranges' : List EventBlockRange} (h : ranges.Perm ranges') : SameSpan ranges ranges' :=
  ⟨exists_congr fun _ => and_congr_left' h.mem_iff, anyCovers_perm h,
    fun _ => exists_congr fun _ => and_congr_left' h.mem_iff⟩

theorem any_open_iff {ranges : List EventBlockRange} :
    ranges.any (·.lastBlock.isNone) = true ↔ ∃ r ∈ ranges, r.lastBlock = none := by
  simp

/-- No block is left out of one range. -/
theorem not_hasGap_of_range {ranges : List EventBlockRange} {range : EventBlockRange}
    (h : ∀ block, range.Covers block ↔ AnyCovers ranges block) : ¬ HasGap ranges := by
  rintro ⟨low, hole, high, h1, h2, hlow, hhole, hhigh⟩
  have hl := (h low).2 hlow
  have hh := (h high).2 hhigh
  exact hhole ((h hole).1 ⟨by have := hl.1; omega, fun last hlast => by
    have := hh.2 last hlast
    omega⟩)

/-- **Ranges are normalised by what they cover.** -/
theorem normalizeRanges_congr {ranges ranges' out : List EventBlockRange} (hspan : SameSpan ranges ranges')
    (hvalid : ∀ r ∈ ranges, r.Valid) (hvalid' : ∀ r ∈ ranges', r.Valid) (hne : ranges ≠ []) (hne' : ranges' ≠ [])
    {event event' : AbiEvent} {address : Option String} (h : normalizeRanges ranges event address = .ok out) :
    normalizeRanges ranges' event' address = .ok out := by
  by_cases hopen : ranges.any (·.lastBlock.isNone) = true
  · have hopen' : ranges'.any (·.lastBlock.isNone) = true :=
      any_open_iff.2 (hspan.openEnded.1 (any_open_iff.1 hopen))
    obtain ⟨lowest, hlowest, hle, hok⟩ := @normalizeRanges_open _ event address hopen
    obtain ⟨lowest', hlowest', hle', hok'⟩ := @normalizeRanges_open _ event' address hopen'
    rw [hok] at h
    injection h with h
    obtain ⟨r', hr', h1⟩ := (hspan.above _).1 ⟨lowest, hlowest, le_rfl⟩
    obtain ⟨r, hr, h2⟩ := (hspan.above _).2 ⟨lowest', hlowest', le_rfl⟩
    have hsame : lowest'.firstBlock = lowest.firstBlock :=
      le_antisymm ((hle' r' hr').trans h1) ((hle r hr).trans h2)
    rw [hok', hsame, h]
  · have hopen' : ¬ ranges'.any (·.lastBlock.isNone) = true := fun hopen' =>
      hopen (any_open_iff.2 (hspan.openEnded.2 (any_open_iff.1 hopen')))
    rcases @normalizeRanges_bounded _ event address hvalid hne hopen with
      ⟨range, hok, hb, hcover⟩ | ⟨⟨refusal, herr⟩, -⟩
    · rw [hok] at h
      injection h with h
      have hcover' : ∀ block, range.Covers block ↔ AnyCovers ranges' block := fun block =>
        (hcover block).trans (hspan.covers block)
      rcases @normalizeRanges_bounded _ event' address hvalid' hne' hopen' with
        ⟨range', hok', hb', hcover''⟩ | ⟨-, hgap⟩
      · rw [hok', ← h, hb'.ext hb fun block => (hcover'' block).trans (hcover' block).symm]
      · exact absurd hgap (not_hasGap_of_range hcover')
    · rw [herr] at h
      cases h

/-- **What is refused, and what is returned otherwise.** Bounded occurrences are refused
exactly for a hole, and give one range over what they cover; with an open-ended one the
range reaches from the lowest first block on. -/
theorem normalizeRanges_iff {ranges : List EventBlockRange} (hvalid : ∀ r ∈ ranges, r.Valid) (hne : ranges ≠ [])
    (event : AbiEvent) (address : Option String) :
    ((∃ refusal, normalizeRanges ranges event address = .error refusal) ↔
      (∀ r ∈ ranges, r.lastBlock ≠ none) ∧ HasGap ranges) ∧
    ∀ out, normalizeRanges ranges event address = .ok out → ∃ range, out = [range] ∧ ∀ block,
      range.Covers block ↔
        AnyCovers ranges block ∨ (∃ r ∈ ranges, r.lastBlock = none) ∧ ∃ r ∈ ranges, r.firstBlock ≤ block := by
  by_cases hopen : ranges.any (·.lastBlock.isNone) = true
  · obtain ⟨r, hr, hnone⟩ := any_open_iff.1 hopen
    obtain ⟨lowest, hlowest, hle, hok⟩ := @normalizeRanges_open _ event address hopen
    constructor
    · rw [hok]
      exact iff_of_false (by rintro ⟨refusal, h⟩; cases h) fun h => h.1 r hr hnone
    · intro out h
      have hcovers := normalizeRanges_covers hvalid hne h
      rw [hok] at h
      injection h with h
      subst h
      exact ⟨_, rfl, fun block => by rw [← hcovers]; simp [AnyCovers]⟩
  · have hbounded : ∀ r ∈ ranges, r.lastBlock ≠ none := fun r hr hnone => hopen (any_open_iff.2 ⟨r, hr, hnone⟩)
    rcases @normalizeRanges_bounded _ event address hvalid hne hopen with
      ⟨range, hok, -, hcover⟩ | ⟨⟨refusal, herr⟩, hgap⟩
    · rw [hok]
      refine ⟨iff_of_false (by rintro ⟨refusal, h⟩; cases h) fun h => not_hasGap_of_range hcover h.2, ?_⟩
      rintro out h
      injection h with h
      exact ⟨range, h.symm, fun block => by
        rw [hcover]
        exact ⟨.inl, fun hb => hb.resolve_right fun hr => by
          obtain ⟨r, hr, hnone⟩ := hr.1
          exact hbounded r hr hnone⟩⟩
    · rw [herr]
      refine ⟨iff_of_true ⟨refusal, rfl⟩ ⟨hbounded, hgap⟩, ?_⟩
      intro out h
      cases h

/-! ### Respelling an ABI -/

mutual

def AbiParameter.withoutInternalType : AbiParameter → AbiParameter
  | .mk name type indexed _ components => .mk name type indexed none (componentsWithoutInternalType components)

def componentsWithoutInternalType : Option (List AbiParameter) → Option (List AbiParameter)
  | none => none
  | some parameters => some (withoutInternalTypes parameters)

def withoutInternalTypes : List AbiParameter → List AbiParameter
  | [] => []
  | parameter :: parameters => parameter.withoutInternalType :: withoutInternalTypes parameters

end

mutual

theorem shapeOfParameter_without (parameter : AbiParameter) :
    shapeOfParameter parameter.withoutInternalType = shapeOfParameter parameter := by
  obtain ⟨name, type, indexed, internalType, components⟩ := parameter
  simp only [AbiParameter.withoutInternalType, shapeOfParameter, shapeOfComponents_without components]

theorem shapeOfComponents_without (components : Option (List AbiParameter)) :
    shapeOfComponents (componentsWithoutInternalType components) = shapeOfComponents components := by
  cases components with
  | none => rfl
  | some parameters =>
    simp only [componentsWithoutInternalType, shapeOfComponents, shapeOfParameters_without parameters]

theorem shapeOfParameters_without (parameters : List AbiParameter) :
    shapeOfParameters (withoutInternalTypes parameters) = shapeOfParameters parameters := by
  cases parameters with
  | nil => rfl
  | cons parameter parameters =>
    simp only [withoutInternalTypes, shapeOfParameters, shapeOfParameter_without parameter,
      shapeOfParameters_without parameters]

end

/-- One declaration under other internal types. -/
structure AbiEvent.SameButInternalTypes (e e' : AbiEvent) : Prop where
  name : e.name = e'.name
  inputs : withoutInternalTypes e.inputs = withoutInternalTypes e'.inputs
  anonymous : e.anonymous = e'.anonymous
  firstBlock : e.firstBlock = e'.firstBlock
  lastBlock : e.lastBlock = e'.lastBlock

/-- Where an occurrence can be split so that its parts touch or overlap, and cover what
it covers. -/
structure AbiEvent.SplitsAt (event : AbiEvent) (defaultFirstBlock lower upper : ℤ) : Prop where
  lower_number : isBlockNumber lower
  upper_number : isBlockNumber upper
  first_le_lower : event.firstBlock.getD defaultFirstBlock ≤ lower
  first_le_upper : event.firstBlock.getD defaultFirstBlock ≤ upper
  touch : upper ≤ lower + 1
  le_last : ∀ last, event.lastBlock = some last → lower ≤ last ∧ upper ≤ last

/-- **One change of spelling**: members in another order, other members that are no events,
other internal types, an occurrence split in two, or an occurrence repeated. -/
inductive Respell (defaultFirstBlock : ℤ) : List AbiItem → List AbiItem → Prop
  | reorder {abi abi' : List AbiItem} (h : abi.Perm abi') : Respell defaultFirstBlock abi abi'
  | others {abi abi' : List AbiItem} (h : eventsOf abi = eventsOf abi') : Respell defaultFirstBlock abi abi'
  | internalTypes {abi abi' : List AbiItem}
      (h : List.Forall₂ AbiEvent.SameButInternalTypes (eventsOf abi) (eventsOf abi')) :
      Respell defaultFirstBlock abi abi'
  | split (before after : List AbiItem) {event : AbiEvent} {lower upper : ℤ}
      (h : event.SplitsAt defaultFirstBlock lower upper) :
      Respell defaultFirstBlock (before ++ .event event :: after)
        (before ++ .event { event with lastBlock := some lower } ::
          .event { event with firstBlock := some upper } :: after)
  | repeated (before after : List AbiItem) (event : AbiEvent) :
      Respell defaultFirstBlock (before ++ .event event :: after)
        (before ++ .event event :: .event event :: after)

/-- Any composition of changes of spelling, either way. -/
def RespelledAbi (defaultFirstBlock : ℤ) : List AbiItem → List AbiItem → Prop :=
  Relation.EqvGen (Respell defaultFirstBlock)

/-- An occurrence whose range is not refused. -/
def AbiEvent.Accepted (event : AbiEvent) (defaultFirstBlock : ℤ) : Prop :=
  ∃ range, declaredRangeOf event defaultFirstBlock = .ok range

theorem accepted_iff {event : AbiEvent} {defaultFirstBlock : ℤ} :
    event.Accepted defaultFirstBlock ↔ (∀ first, event.firstBlock = some first → isBlockNumber first) ∧
      ∀ last, event.lastBlock = some last → isBlockNumber last ∧ event.firstBlock.getD defaultFirstBlock ≤ last := by
  unfold AbiEvent.Accepted declaredRangeOf
  obtain ⟨name, inputs, anonymous, firstBlock, lastBlock⟩ := event
  cases firstBlock with
  | none =>
    cases lastBlock with
    | none => simp
    | some last =>
      by_cases h1 : isBlockNumber last
      · by_cases h2 : last < defaultFirstBlock
        · simp [h1, h2]
        · have h3 := not_lt.1 h2
          simp [h1, h2, h3]
      · simp [h1]
  | some first =>
    by_cases h0 : isBlockNumber first
    · cases lastBlock with
      | none => simp [h0]
      | some last =>
        by_cases h1 : isBlockNumber last
        · by_cases h2 : last < first
          · simp [h0, h1, h2]
          · have h3 := not_lt.1 h2
            simp [h0, h1, h2, h3]
        · simp [h0, h1]
    · simp [h0]

section Meaning

variable {T : Type} (s : Selectors T)

/-- **Two lists of events that declare the same**: the same shapes under each signature, over
the same blocks. -/
structure SameOccurrences (defaultFirstBlock : ℤ) (events events' : List AbiEvent) : Prop where
  accepted : (∀ e ∈ events, e.Accepted defaultFirstBlock) ↔ ∀ e ∈ events', e.Accepted defaultFirstBlock
  shapes : ∀ signature shape, (∃ e ∈ events, s.toEventSignature e = signature ∧ decodingShapeOf e = shape) ↔
    ∃ e ∈ events', s.toEventSignature e = signature ∧ decodingShapeOf e = shape
  openEnded : ∀ signature, (∃ e ∈ events, s.toEventSignature e = signature ∧ e.lastBlock = none) ↔
    ∃ e ∈ events', s.toEventSignature e = signature ∧ e.lastBlock = none
  covers : ∀ signature block,
    (∃ e ∈ events, s.toEventSignature e = signature ∧ (occurrenceRange defaultFirstBlock e).Covers block) ↔
      ∃ e ∈ events', s.toEventSignature e = signature ∧ (occurrenceRange defaultFirstBlock e).Covers block
  above : ∀ signature (block : ℤ),
    (∃ e ∈ events, s.toEventSignature e = signature ∧ (occurrenceRange defaultFirstBlock e).firstBlock ≤ block) ↔
      ∃ e ∈ events', s.toEventSignature e = signature ∧ (occurrenceRange defaultFirstBlock e).firstBlock ≤ block

variable {s} {d : ℤ}

theorem SameOccurrences.refl (events : List AbiEvent) : SameOccurrences s d events events :=
  ⟨Iff.rfl, fun _ _ => Iff.rfl, fun _ => Iff.rfl, fun _ _ => Iff.rfl, fun _ _ => Iff.rfl⟩

theorem SameOccurrences.symm {events events' : List AbiEvent} (h : SameOccurrences s d events events') :
    SameOccurrences s d events' events :=
  ⟨h.accepted.symm, fun σ shape => (h.shapes σ shape).symm, fun σ => (h.openEnded σ).symm,
    fun σ b => (h.covers σ b).symm, fun σ b => (h.above σ b).symm⟩

theorem SameOccurrences.trans {events events' events'' : List AbiEvent} (h : SameOccurrences s d events events')
    (h' : SameOccurrences s d events' events'') : SameOccurrences s d events events'' :=
  ⟨h.accepted.trans h'.accepted, fun σ shape => (h.shapes σ shape).trans (h'.shapes σ shape),
    fun σ => (h.openEnded σ).trans (h'.openEnded σ), fun σ b => (h.covers σ b).trans (h'.covers σ b),
    fun σ b => (h.above σ b).trans (h'.above σ b)⟩

variable (s) in
/-- Two events that declare the same over the same blocks. -/
structure Alike (e e' : AbiEvent) : Prop where
  signature : s.toEventSignature e = s.toEventSignature e'
  shape : decodingShapeOf e = decodingShapeOf e'
  firstBlock : e.firstBlock = e'.firstBlock
  lastBlock : e.lastBlock = e'.lastBlock

theorem Alike.refl (e : AbiEvent) : Alike s e e := ⟨rfl, rfl, rfl, rfl⟩

theorem AbiEvent.SameButInternalTypes.alike {e e' : AbiEvent} (h : e.SameButInternalTypes e') : Alike s e e' := by
  have hinputs : shapeOfParameters e.inputs = shapeOfParameters e'.inputs := by
    rw [← shapeOfParameters_without e.inputs, h.inputs, shapeOfParameters_without]
  refine ⟨s.signature_congr e e' h.name hinputs, ?_, h.firstBlock, h.lastBlock⟩
  unfold decodingShapeOf AbiEvent.isAnonymous
  rw [hinputs, h.anonymous]

theorem Alike.accepted {e e' : AbiEvent} (h : Alike s e e') : e.Accepted d ↔ e'.Accepted d := by
  rw [accepted_iff, accepted_iff, h.firstBlock, h.lastBlock]

theorem Alike.range {e e' : AbiEvent} (h : Alike s e e') : occurrenceRange d e = occurrenceRange d e' := by
  unfold occurrenceRange
  rw [h.firstBlock, h.lastBlock]

/-- Events that are alike one by one declare the same. -/
theorem sameOccurrences_of_alike {events events' : List AbiEvent} (h : ∀ e ∈ events, ∃ e' ∈ events', Alike s e e')
    (h' : ∀ e' ∈ events', ∃ e ∈ events, Alike s e e') : SameOccurrences s d events events' := by
  have hex : ∀ p : AbiEvent → Prop, (∀ e e', Alike s e e' → (p e ↔ p e')) →
      ((∃ e ∈ events, p e) ↔ ∃ e ∈ events', p e) := by
    intro p hp
    constructor
    · rintro ⟨e, he, hpe⟩
      obtain ⟨e', he', halike⟩ := h e he
      exact ⟨e', he', (hp e e' halike).1 hpe⟩
    · rintro ⟨e', he', hpe⟩
      obtain ⟨e, he, halike⟩ := h' e' he'
      exact ⟨e, he, (hp e e' halike).2 hpe⟩
  refine ⟨⟨fun hall e' he' => ?_, fun hall e he => ?_⟩, fun σ shape => hex _ fun e e' ha => ?_,
    fun σ => hex _ fun e e' ha => ?_, fun σ b => hex _ fun e e' ha => ?_, fun σ b => hex _ fun e e' ha => ?_⟩
  · obtain ⟨e, he, halike⟩ := h' e' he'
    exact halike.accepted.1 (hall e he)
  · obtain ⟨e', he', halike⟩ := h e he
    exact halike.accepted.2 (hall e' he')
  · rw [ha.signature, ha.shape]
  · rw [ha.signature, ha.lastBlock]
  · rw [ha.signature, ha.range]
  · rw [ha.signature, ha.range]

theorem sameOccurrences_of_mem {events events' : List AbiEvent} (h : ∀ e, e ∈ events ↔ e ∈ events') :
    SameOccurrences s d events events' :=
  sameOccurrences_of_alike (fun e he => ⟨e, (h e).1 he, .refl e⟩) fun e he => ⟨e, (h e).2 he, .refl e⟩

/-- The parts of an occurrence are under its signature. -/
theorem signature_part (event : AbiEvent) (first last : Option ℤ) :
    s.toEventSignature { event with firstBlock := first, lastBlock := last } = s.toEventSignature event :=
  s.signature_congr _ _ rfl rfl

/-- **An occurrence split in two** declares what it declared. -/
theorem sameOccurrences_split (before after : List AbiEvent) {event : AbiEvent} {lower upper : ℤ}
    (h : event.SplitsAt d lower upper) :
    SameOccurrences s d (before ++ event :: after)
      (before ++ { event with lastBlock := some lower } :: { event with firstBlock := some upper } :: after) := by
  set left : AbiEvent := { event with lastBlock := some lower } with hleft
  set right : AbiEvent := { event with firstBlock := some upper } with hright
  have hsleft : s.toEventSignature left = s.toEventSignature event := signature_part event _ _
  have hsright : s.toEventSignature right = s.toEventSignature event := signature_part event _ _
  have hshape : decodingShapeOf left = decodingShapeOf event ∧ decodingShapeOf right = decodingShapeOf event :=
    ⟨rfl, rfl⟩
  have hex : ∀ p : AbiEvent → Prop, (p event ↔ p left ∨ p right) →
      ((∃ e ∈ before ++ event :: after, p e) ↔ ∃ e ∈ before ++ left :: right :: after, p e) := by
    intro p hp
    simp only [List.mem_append, List.mem_cons, or_and_right, exists_or, exists_eq_left, hp, or_assoc]
  have hall : ∀ p : AbiEvent → Prop, (p event ↔ p left ∧ p right) →
      ((∀ e ∈ before ++ event :: after, p e) ↔ ∀ e ∈ before ++ left :: right :: after, p e) := by
    intro p hp
    simp only [List.mem_append, List.mem_cons, or_imp, forall_and, forall_eq, hp, and_assoc]
  have h1 := h.first_le_lower
  have h2 := h.first_le_upper
  have h3 := h.touch
  refine ⟨hall _ ?_, fun σ shape => hex _ ?_, fun σ => hex _ ?_, fun σ b => hex _ ?_, fun σ b => hex _ ?_⟩
  · rw [accepted_iff, accepted_iff, accepted_iff]
    constructor
    · rintro ⟨hf, hl⟩
      refine ⟨⟨hf, ?_⟩, ?_, fun last hlast => ⟨(hl last hlast).1, (h.le_last last hlast).2⟩⟩
      · rintro last ⟨⟩
        exact ⟨h.lower_number, h1⟩
      · rintro first ⟨⟩
        exact h.upper_number
    · rintro ⟨⟨hf, -⟩, -, hl⟩
      exact ⟨hf, fun last hlast => ⟨(hl last hlast).1, h1.trans (h.le_last last hlast).1⟩⟩
  · rw [hsleft, hsright, hshape.1, hshape.2, or_self]
  · rw [hsleft, hsright]
    simp [hleft, hright]
  · rw [hsleft, hsright, ← and_or_left]
    refine and_congr_right fun _ => ?_
    -- the two parts touch or overlap
    unfold occurrenceRange EventBlockRange.Covers
    simp only [hleft, hright, Option.getD_some, Option.some.injEq, forall_eq']
    constructor
    · rintro ⟨hfirst, hlast⟩
      by_cases hb : b ≤ lower
      · exact .inl ⟨hfirst, hb⟩
      · exact .inr ⟨by omega, hlast⟩
    · rintro (⟨hfirst, hb⟩ | ⟨hfirst, hlast⟩)
      · exact ⟨hfirst, fun last hlast => hb.trans (h.le_last last hlast).1⟩
      · exact ⟨h2.trans hfirst, hlast⟩
  · rw [hsleft, hsright, ← and_or_left]
    refine and_congr_right fun _ => ?_
    show event.firstBlock.getD d ≤ b ↔ event.firstBlock.getD d ≤ b ∨ upper ≤ b
    omega

theorem eventsOf_append_event (before after : List AbiItem) (event : AbiEvent) :
    eventsOf (before ++ .event event :: after) = eventsOf before ++ event :: eventsOf after := by
  simp [eventsOf]

theorem eventsOf_cons_event (after : List AbiItem) (event : AbiEvent) :
    eventsOf (.event event :: after) = event :: eventsOf after := by
  simp [eventsOf]

/-- **A respelled ABI declares the same.** -/
theorem Respell.sameOccurrences {abi abi' : List AbiItem} (h : Respell d abi abi') :
    SameOccurrences s d (eventsOf abi) (eventsOf abi') := by
  cases h with
  | reorder h => exact sameOccurrences_of_mem fun e => (h.filterMap _).mem_iff
  | others h => exact h ▸ .refl _
  | internalTypes h =>
    refine sameOccurrences_of_alike (fun e he => ?_) fun e he => ?_
    · obtain ⟨i, hi, rfl⟩ := List.getElem_of_mem he
      have hi' : i < (eventsOf abi').length := h.length_eq ▸ hi
      exact ⟨_, List.getElem_mem hi', (h.get hi hi').alike⟩
    · obtain ⟨i, hi, rfl⟩ := List.getElem_of_mem he
      have hi' : i < (eventsOf abi).length := h.length_eq ▸ hi
      exact ⟨_, List.getElem_mem hi', (h.get hi' hi).alike⟩
  | split before after h =>
    rw [eventsOf_append_event, eventsOf_append_event, eventsOf_cons_event]
    exact sameOccurrences_split _ _ h
  | repeated before after event =>
    rw [eventsOf_append_event, eventsOf_append_event, eventsOf_cons_event]
    refine sameOccurrences_of_mem fun e => ?_
    simp only [List.mem_append, List.mem_cons]
    tauto

theorem RespelledAbi.sameOccurrences {abi abi' : List AbiItem} (h : RespelledAbi d abi abi') :
    SameOccurrences s d (eventsOf abi) (eventsOf abi') := by
  induction h with
  | rel _ _ h => exact h.sameOccurrences
  | refl _ => exact .refl _
  | symm _ _ _ ih => exact ih.symm
  | trans _ _ _ _ _ ih ih' => exact ih.trans ih'

/-! ### The digests of a respelled source -/

variable (s) in
/-- No signature is declared under two decoding shapes: what the log fetcher refuses. -/
def Unambiguous (events : List AbiEvent) : Prop :=
  ∀ e ∈ events, ∀ e' ∈ events, s.toEventSignature e = s.toEventSignature e' → decodingShapeOf e = decodingShapeOf e'

variable (s) in
/-- What is hashed of a live event. -/
def LiveEvent.hashed (live : LiveEvent) : Option String × String × DecodingShape × Option T × List EventBlockRange :=
  (live.address, live.signature, decodingShapeOf live.event, topic0Of s live.event, live.ranges)

theorem mem_eventsUnder {abi : List AbiItem} {signature : String} {event : AbiEvent} :
    event ∈ eventsUnder s abi signature ↔ event ∈ eventsOf abi ∧ s.toEventSignature event = signature := by
  simp [eventsUnder]

/-- The occurrences under a signature span the same blocks. -/
theorem SameOccurrences.span {abi abi' : List AbiItem} (h : SameOccurrences s d (eventsOf abi) (eventsOf abi'))
    (signature : String) :
    SameSpan ((eventsUnder s abi signature).map (occurrenceRange d))
      ((eventsUnder s abi' signature).map (occurrenceRange d)) := by
  have hmap : ∀ (abi : List AbiItem) (p : EventBlockRange → Prop),
      (∃ r ∈ (eventsUnder s abi signature).map (occurrenceRange d), p r) ↔
        ∃ e ∈ eventsOf abi, s.toEventSignature e = signature ∧ p (occurrenceRange d e) := by
    intro abi p
    constructor
    · rintro ⟨r, hr, hp⟩
      obtain ⟨e, he, rfl⟩ := List.mem_map.1 hr
      obtain ⟨hevent, hsig⟩ := mem_eventsUnder.1 he
      exact ⟨e, hevent, hsig, hp⟩
    · rintro ⟨e, hevent, hsig, hp⟩
      exact ⟨_, List.mem_map_of_mem (mem_eventsUnder.2 ⟨hevent, hsig⟩), hp⟩
  refine ⟨?_, fun block => ?_, fun block => ?_⟩
  · rw [hmap, hmap]
    exact h.openEnded signature
  · unfold AnyCovers
    rw [hmap, hmap]
    exact h.covers signature block
  · rw [hmap, hmap]
    exact h.above signature block

/-- A contract is accepted where its occurrences are and every group of them normalises. -/
theorem exists_liveEvents {contract : ContractEntry}
    (haccepted : ∀ e ∈ eventsOf contract.abi, e.Accepted contract.defaultFirstBlock)
    (hnorm : ∀ signature event rest, eventsUnder s contract.abi signature = event :: rest →
      ∃ ranges, normalizeRanges ((event :: rest).map (occurrenceRange contract.defaultFirstBlock)) event
        contract.address = .ok ranges) : ∃ lives, liveEventsAt s contract = .ok lives := by
  have hall : ∀ {α β : Type} (f : α → Except RangeRefusal β) (l : List α), (∀ a ∈ l, ∃ b, f a = .ok b) →
      ∃ out, l.mapM f = .ok out := by
    intro α β f l h
    induction l with
    | nil => exact ⟨[], rfl⟩
    | cons a l ih =>
      obtain ⟨b, hb⟩ := h a List.mem_cons_self
      obtain ⟨out, hout⟩ := ih fun a ha => h a (List.mem_cons_of_mem _ ha)
      exact ⟨b :: out, mapM_eq_ok.2 (.cons hb (mapM_eq_ok.1 hout))⟩
  have hocc : ∃ occurrences, occurrencesOf s contract = .ok occurrences := by
    refine hall _ _ fun e he => ?_
    obtain ⟨range, hrange⟩ := haccepted e he
    rw [hrange]
    exact ⟨_, rfl⟩
  obtain ⟨occurrences, hocc⟩ := hocc
  have hfound : ∃ found, (Multimap.collect occurrences).mapM (liveEventOf contract.address) = .ok found := by
    refine hall _ _ fun group hgroup => ?_
    obtain ⟨signature, values⟩ := group
    obtain ⟨hkey, hvalues⟩ := Multimap.mem_collect.1 hgroup
    dsimp only at hvalues
    subst hvalues
    obtain ⟨event, rest, hunder⟩ := (mem_occurrences_keys hocc).1 hkey
    obtain ⟨ranges, hok⟩ := hnorm signature event rest hunder
    rw [liveEventOf_under hocc hunder, hok]
    exact ⟨_, rfl⟩
  obtain ⟨found, hfound⟩ := hfound
  refine ⟨found.reduceOption, ?_⟩
  unfold liveEventsAt
  rw [hocc]
  show (Multimap.collect occurrences).mapM (liveEventOf contract.address) >>= _ = _
  rw [hfound]
  rfl

/-- The occurrences of an accepted contract are. -/
theorem accepted_of_liveEventsAt {contract : ContractEntry} {lives : List LiveEvent}
    (h : liveEventsAt s contract = .ok lives) :
    ∀ e ∈ eventsOf contract.abi, e.Accepted contract.defaultFirstBlock := by
  obtain ⟨occurrences, hocc, -⟩ := bind_eq_ok.1 h
  intro e he
  obtain ⟨occurrence, -, hok⟩ := exists_of_mapM_ok hocc he
  cases hdecl : declaredRangeOf e contract.defaultFirstBlock with
  | ok range => exact ⟨range, hdecl⟩
  | error refusal =>
    rw [hdecl] at hok
    cases hok

/-- A contract has one live event a signature. -/
theorem nodup_signatures {contract : ContractEntry} {lives : List LiveEvent}
    (h : liveEventsAt s contract = .ok lives) : (lives.map (·.signature)).Nodup := by
  obtain ⟨occurrences, hocc, hrest⟩ := bind_eq_ok.1 h
  obtain ⟨found, hfound, heq⟩ := bind_eq_ok.1 hrest
  injection heq with heq
  refine (Multimap.collect_keys_nodup occurrences).sublist ?_
  have hpairs := mapM_eq_ok.1 hfound
  rw [← heq]
  clear h hrest hfound heq
  generalize Multimap.collect occurrences = groups at hpairs
  induction hpairs with
  | nil => simp
  | @cons group live groups found hok _ ih =>
    cases live with
    | none =>
      rw [List.reduceOption_cons_of_none]
      exact ih.cons _
    | some live =>
      have hsig : live.signature = group.1 := by
        unfold liveEventOf at hok
        split at hok
        · cases hok
        · rename_i event range rest hvalues
          cases hnorm : normalizeRanges (group.2.map (·.2)) event contract.address with
          | error refusal =>
            rw [hnorm] at hok
            cases hok
          | ok ranges =>
            rw [hnorm] at hok
            injection hok with hok
            injection hok with hok
            rw [← hok]
      rw [List.reduceOption_cons_of_some, List.map_cons, List.map_cons, hsig]
      exact ih.cons_cons _

theorem AbiEvent.Accepted.valid {e : AbiEvent} (h : e.Accepted d) : (occurrenceRange d e).Valid := by
  obtain ⟨range, hrange⟩ := h
  exact (declaredRangeOf_ok hrange).2

/-- A signature has events in both of two lists that declare the same, or in neither. -/
theorem SameOccurrences.exists_under {abi abi' : List AbiItem}
    (h : SameOccurrences s d (eventsOf abi) (eventsOf abi')) {signature : String} {event : AbiEvent}
    {rest : List AbiEvent} (hunder : eventsUnder s abi signature = event :: rest) :
    ∃ event' rest', eventsUnder s abi' signature = event' :: rest' := by
  have hmem : event ∈ eventsUnder s abi signature := by
    rw [hunder]
    exact List.mem_cons_self
  obtain ⟨hevent, hsig⟩ := mem_eventsUnder.1 hmem
  obtain ⟨event', hevent', hsig', -⟩ := (h.shapes signature _).1 ⟨event, hevent, hsig, rfl⟩
  exact List.exists_cons_of_ne_nil (List.ne_nil_of_mem (mem_eventsUnder.2 ⟨hevent', hsig'⟩))

/-- The groups of a signature normalise to the same ranges. -/
theorem SameOccurrences.normalizes {abi abi' : List AbiItem} (h : SameOccurrences s d (eventsOf abi) (eventsOf abi'))
    (haccepted : ∀ e ∈ eventsOf abi, e.Accepted d) {signature : String} {event event' : AbiEvent}
    {rest rest' : List AbiEvent} (hunder : eventsUnder s abi signature = event :: rest)
    (hunder' : eventsUnder s abi' signature = event' :: rest') {address : Option String}
    {ranges : List EventBlockRange}
    (hnorm : normalizeRanges ((event :: rest).map (occurrenceRange d)) event address = .ok ranges) :
    normalizeRanges ((event' :: rest').map (occurrenceRange d)) event' address = .ok ranges := by
  have hspan := h.span signature
  have hvalid : ∀ (abi : List AbiItem), (∀ e ∈ eventsOf abi, e.Accepted d) →
      ∀ r ∈ (eventsUnder s abi signature).map (occurrenceRange d), r.Valid := by
    intro abi haccepted r hr
    obtain ⟨e, he, rfl⟩ := List.mem_map.1 hr
    exact (haccepted e (mem_eventsUnder.1 he).1).valid
  rw [← hunder] at hnorm
  rw [← hunder']
  refine normalizeRanges_congr hspan (hvalid abi haccepted) (hvalid abi' (h.accepted.1 haccepted)) ?_ ?_ hnorm
  · rw [hunder]
    exact List.cons_ne_nil _ _
  · rw [hunder']
    exact List.cons_ne_nil _ _

/-- **A respelled contract has the same live events**, up to what is not hashed. -/
theorem live_respelled {address : Option String} {abi abi' : List AbiItem}
    (hsame : SameOccurrences s d (eventsOf abi) (eventsOf abi')) (hclear : Unambiguous s (eventsOf abi))
    {lives : List LiveEvent} (h : liveEventsAt s ⟨address, abi, d⟩ = .ok lives) :
    ∃ lives', liveEventsAt s ⟨address, abi', d⟩ = .ok lives' ∧
      (lives.map (LiveEvent.hashed s)).Perm (lives'.map (LiveEvent.hashed s)) := by
  have haccepted := accepted_of_liveEventsAt h
  have haccepted' := hsame.accepted.1 haccepted
  obtain ⟨lives', h'⟩ : ∃ lives', liveEventsAt s ⟨address, abi', d⟩ = .ok lives' := by
    refine exists_liveEvents haccepted' fun signature event' rest' hunder' => ?_
    obtain ⟨event, rest, hunder⟩ := hsame.symm.exists_under hunder'
    obtain ⟨ranges, hlive⟩ := exists_live h hunder
    obtain ⟨-, rest'', hunder'', hnorm⟩ := (mem_liveEventsAt h).1 hlive
    exact ⟨ranges, hsame.normalizes haccepted hunder'' hunder' hnorm⟩
  refine ⟨lives', h', (List.perm_ext_iff_of_nodup ?_ ?_).2 fun hashed => ?_⟩
  · exact List.Nodup.of_map (·.2.1) (by rw [List.map_map]; exact nodup_signatures h)
  · exact List.Nodup.of_map (·.2.1) (by rw [List.map_map]; exact nodup_signatures h')
  -- two live events of one signature are hashed alike
  have hpair : ∀ live ∈ lives, ∀ live' ∈ lives', live.signature = live'.signature →
      live.hashed s = live'.hashed s := by
    intro live hlive live' hlive' hsig
    obtain ⟨haddress, rest, hunder, hnorm⟩ := (mem_liveEventsAt h).1 hlive
    obtain ⟨haddress', rest', hunder', hnorm'⟩ := (mem_liveEventsAt h').1 hlive'
    dsimp only at haddress haddress' hunder hunder' hnorm hnorm'
    rw [← hsig] at hunder'
    have hmem : live.event ∈ eventsUnder s abi live.signature := by
      rw [hunder]
      exact List.mem_cons_self
    have hmem' : live'.event ∈ eventsUnder s abi' live.signature := by
      rw [hunder']
      exact List.mem_cons_self
    obtain ⟨hevent, hs⟩ := mem_eventsUnder.1 hmem
    obtain ⟨hevent', hs'⟩ := mem_eventsUnder.1 hmem'
    obtain ⟨e, he, hse, hshape⟩ := (hsame.shapes live.signature _).2 ⟨_, hevent', hs', rfl⟩
    have hshapes : decodingShapeOf live.event = decodingShapeOf live'.event :=
      (hclear _ hevent _ he (hs.trans hse.symm)).trans hshape
    have hranges := hsame.normalizes haccepted hunder hunder' hnorm
    rw [hnorm'] at hranges
    injection hranges with hranges
    unfold LiveEvent.hashed
    rw [haddress, haddress', hsig, hshapes, topic0Of_congr (hs.trans hs'.symm) hshapes, hranges]
  constructor
  · intro hmem
    obtain ⟨live, hlive, rfl⟩ := List.mem_map.1 hmem
    obtain ⟨-, rest, hunder, -⟩ := (mem_liveEventsAt h).1 hlive
    obtain ⟨event', rest', hunder'⟩ := hsame.exists_under hunder
    obtain ⟨ranges', hlive'⟩ := exists_live h' hunder'
    exact List.mem_map.2 ⟨_, hlive', (hpair live hlive _ hlive' rfl).symm⟩
  · intro hmem
    obtain ⟨live', hlive', rfl⟩ := List.mem_map.1 hmem
    obtain ⟨-, rest', hunder', -⟩ := (mem_liveEventsAt h').1 hlive'
    obtain ⟨event, rest, hunder⟩ := hsame.symm.exists_under hunder'
    obtain ⟨ranges, hlive⟩ := exists_live h hunder
    exact List.mem_map.2 ⟨_, hlive, hpair _ hlive live' hlive' rfl⟩

/-- Contracts of one list at the same addresses and start blocks, with respelled ABIs. -/
def RespelledContracts : ContractsData → ContractsData → Prop
  | .each contracts, .each contracts' =>
    List.Forall₂ (fun contract contract' => contract.address = contract'.address ∧
      contract.startBlock = contract'.startBlock ∧
      RespelledAbi (fromTheContractStartBlock contract.startBlock) contract.abi contract'.abi) contracts contracts'
  | .all abi startBlock, .all abi' startBlock' =>
    startBlock = startBlock' ∧ RespelledAbi (fromTheContractStartBlock startBlock) abi abi'
  | _, _ => False

/-- **A respelled source**: its ABIs are respelled and nothing else of it is moved. -/
structure RespelledSource (source source' : DeclaredSource) : Prop where
  chainId : source.chainId = source'.chainId
  genesisHash : source.genesisHash = source'.genesisHash
  contracts : RespelledContracts source.contracts source'.contracts

variable (s) in
/-- No contract of a source declares one signature under two decoding shapes. -/
def ClearSource (source : DeclaredSource) : Prop :=
  ∀ contract ∈ source.contracts.list, Unambiguous s (eventsOf contract.abi)

/-- The contracts of a respelled source, one by one. -/
theorem RespelledContracts.list {contracts contracts' : ContractsData} (h : RespelledContracts contracts contracts') :
    List.Forall₂ (fun contract contract' : ContractData => contract.address = contract'.address ∧
      contract.startBlock = contract'.startBlock ∧
      RespelledAbi (fromTheContractStartBlock contract.startBlock) contract.abi contract'.abi)
      contracts.list contracts'.list := by
  cases contracts with
  | each l =>
    cases contracts' with
    | each l' => exact h
    | all _ _ => exact h.elim
  | all abi startBlock =>
    cases contracts' with
    | each _ => exact h.elim
    | all abi' startBlock' => exact .cons ⟨rfl, h.1, h.2⟩ .nil

theorem RespelledSource.skeleton {source source' : DeclaredSource} (h : RespelledSource source source') :
    sourceSkeletonOf source = sourceSkeletonOf source' := by
  obtain ⟨chainId, genesisHash, contracts⟩ := source
  obtain ⟨chainId', genesisHash', contracts'⟩ := source'
  obtain ⟨rfl, rfl, hc⟩ := h
  unfold sourceSkeletonOf
  dsimp only at hc ⊢
  cases contracts with
  | each l =>
    cases contracts' with
    | all _ _ => exact hc.elim
    | each l' =>
      have hmap : (l.map fun contract => (contract.address, contract.startBlock)) =
          l'.map fun contract => (contract.address, contract.startBlock) := by
        have hpairs : List.Forall₂ _ l l' := hc
        clear hc
        induction hpairs with
        | nil => rfl
        | cons hhead _ ih => rw [List.map_cons, List.map_cons, ih, hhead.1, hhead.2.1]
      simp only [hmap]
  | all abi startBlock =>
    cases contracts' with
    | each _ => exact hc.elim
    | all abi' startBlock' => rw [hc.1]

/-- **A respelled source has the same live events**, up to what is not hashed. -/
theorem lives_respelled {source source' : DeclaredSource} (h : RespelledSource source source')
    (hclear : ClearSource s source) {lives : List LiveEvent} (hlives : liveEventsOf s source.contracts = .ok lives) :
    ∃ lives', liveEventsOf s source'.contracts = .ok lives' ∧
      (lives.map (LiveEvent.hashed s)).Perm (lives'.map (LiveEvent.hashed s)) := by
  unfold liveEventsOf liveEventsIn at hlives ⊢
  rw [contractEntriesOf_eq] at hlives ⊢
  unfold ClearSource at hclear
  have hcontracts := h.contracts.list
  generalize source.contracts.list = l at hclear hlives hcontracts
  generalize source'.contracts.list = l' at hcontracts
  cases hfound : (l.map (·.entry fromTheContractStartBlock)).mapM (liveEventsAt s) with
  | error refusal =>
    rw [hfound] at hlives
    cases hlives
  | ok found =>
    rw [hfound] at hlives
    injection hlives with hlives
    subst hlives
    obtain ⟨found', hfound', hperm⟩ : ∃ found',
        (l'.map (·.entry fromTheContractStartBlock)).mapM (liveEventsAt s) = .ok found' ∧
          (found.flatten.map (LiveEvent.hashed s)).Perm (found'.flatten.map (LiveEvent.hashed s)) := by
      have hpairs := mapM_eq_ok.1 hfound
      clear hfound
      induction hcontracts generalizing found with
      | nil =>
        cases hpairs
        exact ⟨[], rfl, .refl _⟩
      | @cons contract contract' l l' hhead _ ih =>
        rw [List.map_cons] at hpairs
        cases hpairs with
        | @cons _ lives _ found hok hrest =>
          obtain ⟨haddress, hstart, habi⟩ := hhead
          obtain ⟨lives', hok', hperm⟩ := live_respelled habi.sameOccurrences (hclear contract List.mem_cons_self) hok
          obtain ⟨found', hfound', hperm'⟩ := ih (fun c hc => hclear c (List.mem_cons_of_mem _ hc)) found hrest
          have hentry : contract'.entry fromTheContractStartBlock =
              ⟨contract.address, contract'.abi, fromTheContractStartBlock contract.startBlock⟩ := by
            rw [haddress, hstart]
            rfl
          have hentry' : liveEventsAt s (contract'.entry fromTheContractStartBlock) = .ok lives' := by
            rw [hentry]
            exact hok'
          refine ⟨lives' :: found', mapM_eq_ok.2 (.cons hentry' (mapM_eq_ok.1 hfound')), ?_⟩
          rw [List.flatten_cons, List.flatten_cons, List.map_append, List.map_append]
          exact hperm.append hperm'
    exact ⟨found'.flatten, by rw [hfound']; rfl, hperm⟩

/-- A live event is under its own signature. -/
theorem signature_of_live {contracts : ContractsData} {lives : List LiveEvent}
    (h : liveEventsOf s contracts = .ok lives) {live : LiveEvent} (hlive : live ∈ lives) :
    s.toEventSignature live.event = live.signature := by
  obtain ⟨entry, -, found, hfound, hlive⟩ := (mem_liveEventsIn h).1 hlive
  obtain ⟨-, rest, hunder, -⟩ := (mem_liveEventsAt hfound).1 hlive
  have hmem : live.event ∈ eventsUnder s entry.abi live.signature := by
    rw [hunder]
    exact List.mem_cons_self
  exact (mem_eventsUnder.1 hmem).2

/-- The ranges of a live event, by what is hashed of it. -/
def rangesOfHashed (simple_hash : Hashed T → Text)
    (hashed : Option String × String × DecodingShape × Option T × List EventBlockRange) : List SourceRange :=
  hashed.2.2.2.2.map fun range =>
    ⟨range.firstBlock, simple_hash (.decoding hashed.1 hashed.2.1 hashed.2.2.1 range),
      simple_hash (.filter hashed.1 hashed.2.2.2.1 range)⟩

theorem flatMap_sourceRangesOf (simple_hash : Hashed T → Text) (lives : List LiveEvent) :
    lives.flatMap (sourceRangesOf s simple_hash) =
      (lives.map (LiveEvent.hashed s)).flatMap (rangesOfHashed simple_hash) := by
  rw [List.flatMap_map]
  rfl

/-- **A digest of decoding names its filter**: ranges hashed alike for decoding are hashed
alike for the filter. -/
theorem sourceRange_eq {simple_hash : Hashed T → Text} {source source' : DeclaredSource}
    (hinj : TellsApart s simple_hash source source') {lives lives' : List LiveEvent}
    (h : liveEventsOf s source.contracts = .ok lives) (h' : liveEventsOf s source'.contracts = .ok lives')
    {a b : SourceRange} (ha : a ∈ lives.flatMap (sourceRangesOf s simple_hash))
    (hb : b ∈ lives'.flatMap (sourceRangesOf s simple_hash)) (hhash : a.hash = b.hash) : a = b := by
  obtain ⟨live, hlive, ha⟩ := List.mem_flatMap.1 ha
  obtain ⟨live', hlive', hb⟩ := List.mem_flatMap.1 hb
  obtain ⟨range, hrange, rfl⟩ := List.mem_map.1 ha
  obtain ⟨range', hrange', rfl⟩ := List.mem_map.1 hb
  have heq := hinj _ _ (.inl (.decoding h hlive hrange)) (.inr (.decoding h' hlive' hrange')) hhash
  injection heq with haddress hsignature hshape hranges
  have htopic := topic0Of_congr ((signature_of_live h hlive).trans
    (hsignature.trans (signature_of_live h' hlive').symm)) hshape
  rw [haddress, hsignature, hshape, hranges, htopic]

end Meaning

/-! ### The order of the entries -/

theorem compareText_le {a b : Text} : compareText a b ≤ 0 ↔ a.map UInt16.toNat ≤ b.map UInt16.toNat :=
  agrees_compareText.le a b

theorem compareText_antisymm {a b : Text} (h : compareText a b ≤ 0) (h' : compareText b a ≤ 0) : a = b := by
  have hmap := le_antisymm (compareText_le.1 h) (compareText_le.1 h')
  exact List.map_injective_iff.2 (fun x y hxy => UInt16.toNat_inj.1 hxy) hmap

instance : Std.Total fun a b : SourceHashEntry =>
    a.startBlock < b.startBlock ∨ a.startBlock = b.startBlock ∧ compareText a.hash b.hash ≤ 0 :=
  ⟨fun a b => by
    simp only [compareText_le]
    have := le_total (a.hash.map UInt16.toNat) (b.hash.map UInt16.toNat)
    rcases lt_trichotomy a.startBlock b.startBlock with h | h | h <;> simp [h, this]⟩

instance : IsTrans SourceHashEntry fun a b =>
    a.startBlock < b.startBlock ∨ a.startBlock = b.startBlock ∧ compareText a.hash b.hash ≤ 0 :=
  ⟨fun a b c hab hbc => by
    simp only [compareText_le] at hab hbc ⊢
    rcases hab with hab | ⟨hab, hab'⟩
    · rcases hbc with hbc | ⟨hbc, -⟩
      · exact .inl (hab.trans hbc)
      · exact .inl (hbc ▸ hab)
    · rcases hbc with hbc | ⟨hbc, hbc'⟩
      · exact .inl (hab ▸ hbc)
      · exact .inr ⟨hab.trans hbc, hab'.trans hbc'⟩⟩

/-- The entries of the event ranges, in the order they are listed in. -/
def rangeEntries (ranges : List SourceRange) : List SourceHashEntry :=
  (ranges.map fun r => (⟨r.firstBlock, r.hash, some r.streamHash, none⟩ : SourceHashEntry)).insertionSort
    fun a b => a.startBlock < b.startBlock ∨ a.startBlock = b.startBlock ∧ compareText a.hash b.hash ≤ 0

theorem sourceHashesOf_eq (source : IndexingSource) :
    sourceHashesOf source = ⟨0, source.skeleton, some source.skeleton, some source.whole⟩ :: rangeEntries source.ranges :=
  rfl

theorem mem_rangeEntries {ranges : List SourceRange} {entry : SourceHashEntry} :
    entry ∈ rangeEntries ranges ↔ ∃ r ∈ ranges, entry = ⟨r.firstBlock, r.hash, some r.streamHash, none⟩ := by
  unfold rangeEntries
  rw [List.mem_insertionSort, List.mem_map]
  exact exists_congr fun r => and_congr_right fun _ => eq_comm

/-- Ranges in another order are listed with the same entries. -/
theorem perm_rangeEntries {ranges ranges' : List SourceRange} (hperm : ranges.Perm ranges') :
    (rangeEntries ranges).Perm (rangeEntries ranges') :=
  (List.perm_insertionSort _ _).trans ((hperm.map _).trans (List.perm_insertionSort _ _).symm)

/-- They are listed in the same order, where a digest tells its range. -/
theorem rangeEntries_perm {ranges ranges' : List SourceRange} (hperm : ranges.Perm ranges')
    (hinj : ∀ a ∈ ranges, ∀ b ∈ ranges', a.hash = b.hash → a = b) : rangeEntries ranges = rangeEntries ranges' := by
  refine List.Perm.eq_of_pairwise ?_ (List.pairwise_insertionSort _ _) (List.pairwise_insertionSort _ _)
    (perm_rangeEntries hperm)
  intro a b ha hb hab hba
  obtain ⟨r, hr, rfl⟩ := mem_rangeEntries.1 ha
  obtain ⟨r', hr', rfl⟩ := mem_rangeEntries.1 hb
  dsimp only at hab hba
  have hle : compareText r.hash r'.hash ≤ 0 := by
    rcases hab with hab | hab
    · omega
    · exact hab.2
  have hge : compareText r'.hash r.hash ≤ 0 := by
    rcases hba with hba | hba
    · omega
    · exact hba.2
  rw [hinj r hr r' hr' (compareText_antisymm hle hge)]

section Respelled

variable {T : Type} {s : Selectors T} {simple_hash : Hashed T → Text}

/-- **A respelled source has the same digests**, and in the same order where digests tell apart what
is hashed. -/
theorem digests_respelled {source source' : DeclaredSource} (h : RespelledSource source source')
    (hclear : ClearSource s source) {entries : List SourceHashEntry}
    (hentries : sourceHashEntriesOf s simple_hash source = .ok entries) :
    ∃ entries', sourceHashEntriesOf s simple_hash source' = .ok entries' ∧
      (entries.map SourceHashEntry.digests).Perm (entries'.map SourceHashEntry.digests) ∧
      (TellsApart s simple_hash source source' →
        entries.map SourceHashEntry.digests = entries'.map SourceHashEntry.digests) := by
  unfold sourceHashEntriesOf hashedSource at hentries ⊢
  cases hlives : liveEventsOf s source.contracts with
  | error refusal =>
    rw [hlives] at hentries
    cases hentries
  | ok lives =>
    rw [hlives] at hentries
    injection hentries with hentries
    obtain ⟨lives', hlives', hperm⟩ := lives_respelled h hclear hlives
    rw [hlives']
    have hranges : (lives.flatMap (sourceRangesOf s simple_hash)).Perm
        (lives'.flatMap (sourceRangesOf s simple_hash)) := by
      rw [flatMap_sourceRangesOf, flatMap_sourceRangesOf]
      exact hperm.flatMap_right _
    subst hentries
    refine ⟨_, rfl, ?_, fun hinj => ?_⟩
    · rw [sourceHashesOf_eq, sourceHashesOf_eq, List.map_cons, List.map_cons, h.skeleton]
      exact ((perm_rangeEntries hranges).map _).cons _
    · rw [sourceHashesOf_eq, sourceHashesOf_eq, List.map_cons, List.map_cons, h.skeleton,
        rangeEntries_perm hranges fun a ha b hb => sourceRange_eq hinj hlives hlives' ha hb]
      rfl

/-- **Digests identify meaning, not spelling.** A respelled source has the same set of digests, whatever
the digest is, and the same list where it tells apart what is hashed of the two; and the ranges of an
event are normalised the same in every order, refused exactly where all are bounded and leave a hole,
and otherwise joined, with an open-ended one reaching from the lowest first block on. -/
theorem digests_mean {source source' : DeclaredSource} (h : RespelledSource source source')
    (hclear : ClearSource s source) :
    (∀ entries, sourceHashEntriesOf s simple_hash source = .ok entries →
      ∃ entries', sourceHashEntriesOf s simple_hash source' = .ok entries' ∧
        (entries.map SourceHashEntry.digests).Perm (entries'.map SourceHashEntry.digests) ∧
        (TellsApart s simple_hash source source' →
          entries.map SourceHashEntry.digests = entries'.map SourceHashEntry.digests)) ∧
    ∀ (ranges : List EventBlockRange) (event : AbiEvent) (address : Option String),
      (∀ r ∈ ranges, r.Valid) → ranges ≠ [] →
      (∀ ranges', ranges.Perm ranges' → ∀ out, normalizeRanges ranges event address = .ok out →
        normalizeRanges ranges' event address = .ok out) ∧
      ((∃ refusal, normalizeRanges ranges event address = .error refusal) ↔
        (∀ r ∈ ranges, r.lastBlock ≠ none) ∧ HasGap ranges) ∧
      ∀ out, normalizeRanges ranges event address = .ok out → ∃ range, out = [range] ∧ ∀ block,
        range.Covers block ↔
          AnyCovers ranges block ∨ (∃ r ∈ ranges, r.lastBlock = none) ∧ ∃ r ∈ ranges, r.firstBlock ≤ block := by
  refine ⟨fun entries => digests_respelled h hclear, fun ranges event address hvalid hne => ⟨?_, ?_⟩⟩
  · intro ranges' hperm out hok
    exact normalizeRanges_congr (.of_perm hperm) hvalid (fun r hr => hvalid r (hperm.mem_iff.2 hr)) hne
      (fun hnil => hne (hperm.trans (hnil ▸ .refl _)).eq_nil) hok
  · exact normalizeRanges_iff hvalid hne event address

/-- One event, declared live over a span it leaves and comes back to for good. -/
def resumed : List EventBlockRange := [⟨0, some 2⟩, ⟨5, none⟩]

/-- A contract declaring one signature under two decoding shapes, in one order and the other. -/
def ambiguousSource (swapped : Bool) : DeclaredSource :=
  let before : AbiEvent := ⟨"E", [.mk (some "a") "uint256" none none none], none, some 0, some 9⟩
  let after : AbiEvent := ⟨"E", [.mk (some "b") "uint256" none none none], none, some 10, some 19⟩
  ⟨[1], none, .each [⟨some "a", if swapped then [.event after, .event before] else [.event before, .event after], none⟩]⟩

/-- A hole under an open-ended range is not refused, and an ABI that declares one signature
under two shapes hashes as its first occurrence. -/
theorem meaning_lost :
    (HasGap resumed ∧ ∀ event address, normalizeRanges resumed event address = .ok [⟨0, none⟩]) ∧
      RespelledSource (ambiguousSource false) (ambiguousSource true) ∧
      ∀ simple_hash : Hashed String → Text, TellsApart byName simple_hash (ambiguousSource false) (ambiguousSource true) →
        ∃ entries entries', sourceHashEntriesOf byName simple_hash (ambiguousSource false) = .ok entries ∧
          sourceHashEntriesOf byName simple_hash (ambiguousSource true) = .ok entries' ∧
          ¬(entries.map SourceHashEntry.digests).Perm (entries'.map SourceHashEntry.digests) := by
  refine ⟨⟨⟨2, 3, 5, by omega, by omega, ?_, ?_, ?_⟩, fun _ _ => rfl⟩, ⟨rfl, rfl, ?_⟩, ?_⟩
  · exact ⟨⟨0, some 2⟩, by simp [resumed], by simp [EventBlockRange.Covers]⟩
  · rintro ⟨range, hmem, hcovers⟩
    simp only [resumed, List.mem_cons, List.not_mem_nil, or_false] at hmem
    rcases hmem with rfl | rfl
    · exact absurd (hcovers.2 2 rfl) (by omega)
    · exact absurd hcovers.1 (by decide)
  · exact ⟨⟨5, none⟩, by simp [resumed], by simp [EventBlockRange.Covers]⟩
  · exact .cons ⟨rfl, rfl, .rel _ _ (.reorder (.swap _ _ _))⟩ .nil
  · refine fun simple_hash hinj => ⟨_, _, rfl, rfl, fun hperm => ?_⟩
    -- the entries of the skeleton are equal, so those of the event are
    have heq := List.perm_singleton.1 ((List.perm_cons _).1 hperm)
    injection heq with heq _
    injection heq with _ heq
    injection heq with heq _
    have hshape := hinj _ _ (.inl (.decoding rfl List.mem_cons_self List.mem_cons_self))
      (.inr (.decoding rfl List.mem_cons_self List.mem_cons_self)) heq
    injection hshape with _ _ hshape _
    injection hshape with _ hinputs
    injection hinputs with hinput _
    injection hinput with hname _ _ _
    exact absurd hname (by decide)

/-- A source whose one event is declared in one piece, or in two that overlap. -/
def spelledSource (inTwo : Bool) : DeclaredSource :=
  let event : AbiEvent := ⟨"E", [], none, some 0, some 9⟩
  ⟨[1], none, .each [⟨some "a", if inTwo then
    [.event { event with lastBlock := some 4 }, .event { event with firstBlock := some 3 }]
    else [.event event, .other "f"], none⟩]⟩

/-- A digest that tells apart what is hashed of these sources. -/
def plainHash : Hashed String → Text
  | .decoding .. => [1]
  | .filter .. => [2]
  | .skeleton _ => [3]
  | .whole source => [4, if (source.contracts.list.flatMap (eventsOf ·.abi)).length = 1 then 0 else 1]

theorem isHashed_spelled {inTwo : Bool} {x : Hashed String} (h : IsHashed byName (spelledSource inTwo) x) :
    x = .decoding (some "a") "E" ⟨false, []⟩ ⟨0, some 9⟩ ∨ x = .filter (some "a") (some "E") ⟨0, some 9⟩ ∨
      x = .skeleton ⟨[1], none, .inl [(some "a", none)]⟩ ∨ x = .whole (spelledSource inTwo) := by
  have hlives : ∃ event, liveEventsOf byName (spelledSource inTwo).contracts =
      .ok [⟨some "a", "E", event, [⟨0, some 9⟩]⟩] ∧ decodingShapeOf event = ⟨false, []⟩ ∧
        topic0Of byName event = some "E" := by
    cases inTwo
    · exact ⟨⟨"E", [], none, some 0, some 9⟩, rfl, rfl, rfl⟩
    · exact ⟨⟨"E", [], none, some 0, some 4⟩, rfl, rfl, rfl⟩
  obtain ⟨event, hlives, hshape, htopic⟩ := hlives
  cases h with
  | decoding h hlive hrange =>
    rw [hlives] at h
    injection h with h
    subst h
    obtain rfl := List.mem_singleton.1 hlive
    obtain rfl := List.mem_singleton.1 hrange
    exact .inl (by rw [hshape])
  | filter h hlive hrange =>
    rw [hlives] at h
    injection h with h
    subst h
    obtain rfl := List.mem_singleton.1 hlive
    obtain rfl := List.mem_singleton.1 hrange
    exact .inr (.inl (by rw [htopic]))
  | skeleton => cases inTwo <;> exact .inr (.inr (.inl rfl))
  | whole => exact .inr (.inr (.inr rfl))

theorem tellsApart_spelled : TellsApart byName plainHash (spelledSource false) (spelledSource true) := by
  have hall : ∀ x, IsHashed byName (spelledSource false) x ∨ IsHashed byName (spelledSource true) x →
      x = .decoding (some "a") "E" ⟨false, []⟩ ⟨0, some 9⟩ ∨ x = .filter (some "a") (some "E") ⟨0, some 9⟩ ∨
        x = .skeleton ⟨[1], none, .inl [(some "a", none)]⟩ ∨ x = .whole (spelledSource false) ∨
        x = .whole (spelledSource true) := by
    rintro x (h | h)
    · rcases isHashed_spelled h with rfl | rfl | rfl | rfl <;> simp
    · rcases isHashed_spelled h with rfl | rfl | rfl | rfl <;> simp
  intro x y hx hy heq
  rcases hall x hx with rfl | rfl | rfl | rfl | rfl <;> rcases hall y hy with rfl | rfl | rfl | rfl | rfl <;>
    first | rfl | exact absurd heq (by decide)

/-- An event declared in two pieces hashes as in one. -/
theorem meaning_kept :
    ∃ entries', sourceHashEntriesOf byName plainHash (spelledSource true) = .ok entries' ∧
      ([⟨0, [3], some [3], some [4, 0]⟩, ⟨0, [1], some [2], none⟩].map SourceHashEntry.digests).Perm
        (entries'.map SourceHashEntry.digests) ∧
      [⟨0, [3], some [3], some [4, 0]⟩, ⟨0, [1], some [2], none⟩].map SourceHashEntry.digests =
        entries'.map SourceHashEntry.digests := by
  have hsplit : (⟨"E", [], none, some 0, some 9⟩ : AbiEvent).SplitsAt 0 4 3 :=
    ⟨by decide, by decide, by decide, by decide, by decide, by
      rintro last ⟨⟩
      decide⟩
  have hspelled : RespelledSource (spelledSource false) (spelledSource true) :=
    ⟨rfl, rfl, .cons ⟨rfl, rfl, .trans _ _ _ (.rel _ _ (.split [] [.other "f"] hsplit)) (.rel _ _ (.others rfl))⟩ .nil⟩
  have hclear : ClearSource byName (spelledSource false) := by
    intro contract hcontract e he e' he' _
    obtain rfl := List.mem_singleton.1 hcontract
    obtain rfl := List.mem_singleton.1 he
    obtain rfl := List.mem_singleton.1 he'
    rfl
  obtain ⟨entries', hentries', hset, horder⟩ := (digests_mean hspelled hclear).1 _ rfl
  exact ⟨entries', hentries', hset, horder tellsApart_spelled⟩

end Respelled

end Etherfold
