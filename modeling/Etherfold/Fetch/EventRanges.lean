import Mathlib.Data.List.ReduceOption
import Etherfold.Store.Entity
import Etherfold.Fetch.Planner

/-!
# The blocks an event is live over

A source declares, event by event, the blocks it is live over. The declarations
are collapsed into one range per event of a contract, and read for two things:
what a source is compared by, and which topics a range of blocks can contain.

* `normalizeRanges_covers`: **what the collapsed range covers**.
* `mem_liveEventsAt`: what a live event of a contract is.
* `live_fromBlockZero`: what is live under any default is live for the fetch filter.
* `narrowing_keeps_live`: **no live event is narrowed away**.
-/

namespace Etherfold

/-! ### What a source declares -/

/-- A parameter of an event. -/
inductive AbiParameter where
  | mk (name : Option String) (type : String) (indexed : Option Bool) (internalType : Option String)
      (components : Option (List AbiParameter))
  deriving Repr

/-- An event of an ABI, with the blocks it is declared live over. -/
structure AbiEvent where
  name : String
  inputs : List AbiParameter
  anonymous : Option Bool
  firstBlock : Option ℤ
  lastBlock : Option ℤ
  deriving Repr

/-- A member of an ABI. Functions, errors and constructors are not read. -/
inductive AbiItem where
  | event (event : AbiEvent)
  | other (member : String)
  deriving Repr

/-- A contract of a source; the single merged ABI has no address. -/
structure ContractData where
  address : Option String
  abi : List AbiItem
  startBlock : Option ℤ
  deriving Repr

/-- A list of contracts, or one ABI at every address. -/
inductive ContractsData where
  | each (contracts : List ContractData)
  | all (abi : List AbiItem) (startBlock : Option ℤ)
  deriving Repr

/-- A span of blocks, both bounds inclusive; no last block means open-ended. -/
structure EventBlockRange where
  firstBlock : ℤ
  lastBlock : Option ℤ
  deriving DecidableEq, Repr

/-- Why a declaration is refused. -/
inductive RangeRefusal where
  | invalidFirstBlock (value : ℤ) (event : AbiEvent)
  | invalidLastBlock (value : ℤ) (event : AbiEvent)
  | lastBeforeFirst (lastBlock firstBlock : ℤ) (event : AbiEvent)
  | gap (fromBlock toBlock : ℤ) (event : AbiEvent) (address : Option String)
  deriving Repr

/-- One contract, with the first block an event that declares nothing is live from. -/
structure ContractEntry where
  address : Option String
  abi : List AbiItem
  defaultFirstBlock : ℤ
  deriving Repr

/-- One event of one contract, with the ranges it is live over, normalised. -/
structure LiveEvent where
  address : Option String
  signature : String
  event : AbiEvent
  ranges : List EventBlockRange
  deriving Repr

def AbiEvent.isAnonymous (event : AbiEvent) : Bool := event.anonymous.getD false

/-! ### What decoding reads of an event -/

/-- A parameter as decoding reads it: an internal type is not. -/
inductive ParameterShape where
  | mk (name : String) (type : String) (indexed : Bool) (components : Option (List ParameterShape))
  deriving Repr

mutual

def shapeOfParameter : AbiParameter → ParameterShape
  | .mk name type indexed _ components =>
    .mk (name.getD "") type (indexed.getD false) (shapeOfComponents components)

def shapeOfComponents : Option (List AbiParameter) → Option (List ParameterShape)
  | none => none
  | some parameters => some (shapeOfParameters parameters)

def shapeOfParameters : List AbiParameter → List ParameterShape
  | [] => []
  | parameter :: parameters => shapeOfParameter parameter :: shapeOfParameters parameters

end

structure DecodingShape where
  anonymous : Bool
  inputs : List ParameterShape
  deriving Repr

/-- **What decoding a log against an event reads.** -/
def decodingShapeOf (event : AbiEvent) : DecodingShape := ⟨event.isAnonymous, shapeOfParameters event.inputs⟩

/-- What is computed of an event elsewhere: its canonical signature, which its name and its
parameters decide, and the selector its logs carry, which stands for the signature. -/
structure Selectors (T : Type) where
  toEventSignature : AbiEvent → String
  toEventSelector : AbiEvent → T
  signature_congr : ∀ e e', e.name = e'.name → shapeOfParameters e.inputs = shapeOfParameters e'.inputs →
    toEventSignature e = toEventSignature e'
  selector_iff : ∀ e e', toEventSelector e = toEventSelector e' ↔ toEventSignature e = toEventSignature e'

/-- The events of an ABI, in its order. -/
def eventsOf (abi : List AbiItem) : List AbiEvent :=
  abi.filterMap fun item =>
    match item with
    | .event event => some event
    | .other _ => none

/-- The largest number a block can be. -/
def maxSafeInteger : ℤ := 2 ^ 53 - 1

def isBlockNumber (value : ℤ) : Bool := 0 ≤ value && value ≤ maxSafeInteger

/-- The range one entry declares, defaulted against its contract's own. -/
def declaredRangeOf (event : AbiEvent) (defaultFirstBlock : ℤ) : Except RangeRefusal (Option EventBlockRange) :=
  if event.firstBlock.isNone && event.lastBlock.isNone then .ok none
  else if event.firstBlock.any (!isBlockNumber ·) then
    .error (.invalidFirstBlock (event.firstBlock.getD 0) event)
  else if event.lastBlock.any (!isBlockNumber ·) then
    .error (.invalidLastBlock (event.lastBlock.getD 0) event)
  else
    let first := event.firstBlock.getD defaultFirstBlock
    if event.lastBlock.any (· < first) then .error (.lastBeforeFirst (event.lastBlock.getD 0) first event)
    else .ok (some ⟨first, event.lastBlock⟩)

/-- Whether any event of these contracts declares a range. -/
def contractsDeclareEventRanges : ContractsData → Bool
  | .each contracts => contracts.any fun contract =>
      (eventsOf contract.abi).any fun event => event.firstBlock.isSome || event.lastBlock.isSome
  | .all abi _ => (eventsOf abi).any fun event => event.firstBlock.isSome || event.lastBlock.isSome

/-- The last block of a bounded range. -/
def EventBlockRange.last (range : EventBlockRange) : ℤ := range.lastBlock.getD range.firstBlock

/-- Join the ranges that touch or overlap, refusing a hole. -/
def mergeRanges (event : AbiEvent) (address : Option String) (previous : EventBlockRange) :
    List EventBlockRange → Except RangeRefusal (List EventBlockRange)
  | [] => .ok [previous]
  | range :: rest =>
    if range.firstBlock > previous.last + 1 then
      .error (.gap (previous.last + 1) (range.firstBlock - 1) event address)
    else mergeRanges event address ⟨previous.firstBlock, some (max previous.last range.last)⟩ rest

/-- **Collapse every occurrence of one event** into the ranges it is live over. -/
def normalizeRanges (ranges : List EventBlockRange) (event : AbiEvent) (address : Option String) :
    Except RangeRefusal (List EventBlockRange) :=
  if ranges.any (·.lastBlock.isNone) then
    .ok [⟨((ranges.map (·.firstBlock)).min?).getD 0, none⟩]
  else
    match ranges.insertionSort fun a b => a.firstBlock ≤ b.firstBlock with
    | [] => .ok []
    | first :: rest => mergeRanges event address first rest

/-- For invalidation: what declares nothing is live from its contract's start block. -/
def fromTheContractStartBlock (startBlock : Option ℤ) : ℤ := startBlock.getD 0

/-- For the fetch filter: it is live from block `0`. -/
def fromBlockZero (_startBlock : Option ℤ) : ℤ := 0

def contractEntriesOf (contracts : ContractsData) (defaultFirstBlockOf : Option ℤ → ℤ) : List ContractEntry :=
  match contracts with
  | .each contracts => contracts.map fun contract =>
      ⟨contract.address, contract.abi, defaultFirstBlockOf contract.startBlock⟩
  | .all abi startBlock => [⟨none, abi, defaultFirstBlockOf startBlock⟩]

section Live

variable {T : Type} (s : Selectors T)

/-- The topic an event's logs carry: an anonymous one's carry none. -/
def topic0Of (event : AbiEvent) : Option T :=
  if event.isAnonymous then none else some (s.toEventSelector event)

/-- The occurrences of a contract's events, in the order of its ABI. -/
def occurrencesOf (contract : ContractEntry) :
    Except RangeRefusal (List (String × AbiEvent × EventBlockRange)) :=
  (eventsOf contract.abi).mapM fun event =>
    (declaredRangeOf event contract.defaultFirstBlock).map fun range =>
      (s.toEventSignature event, event, range.getD ⟨contract.defaultFirstBlock, none⟩)

/-- One event of a contract: it is the first occurrence of its signature. -/
def liveEventOf (address : Option String) (group : String × List (AbiEvent × EventBlockRange)) :
    Except RangeRefusal (Option LiveEvent) :=
  match group.2 with
  | [] => .ok none
  | (event, _) :: _ =>
    (normalizeRanges (group.2.map (·.2)) event address).map fun ranges =>
      some ⟨address, group.1, event, ranges⟩

/-- The live events of one contract: its occurrences, grouped by signature. -/
def liveEventsAt (contract : ContractEntry) : Except RangeRefusal (List LiveEvent) := do
  let occurrences ← occurrencesOf s contract
  let live ← (Multimap.collect occurrences).mapM (liveEventOf contract.address)
  .ok live.reduceOption

def liveEventsIn (contracts : List ContractEntry) : Except RangeRefusal (List LiveEvent) :=
  (contracts.mapM (liveEventsAt s)).map List.flatten

/-- **Every event the source declares**, with its normalised live ranges. -/
def liveEventsOf (contracts : ContractsData) : Except RangeRefusal (List LiveEvent) :=
  liveEventsIn s (contractEntriesOf contracts fromTheContractStartBlock)

/-- The ranges of a live event, under the topic its logs carry. -/
def topicRanges (live : LiveEvent) : List (T × EventBlockRange) :=
  match topic0Of s live.event with
  | none => []
  | some topic0 => live.ranges.map (topic0, ·)

variable [DecidableEq T]

/-- **The live ranges of each topic**, as the fetch filter reads them: none where no event
declares one. -/
def requestableRangesPerTopic (contracts : ContractsData) : Except RangeRefusal (Multimap T EventBlockRange) :=
  if contractsDeclareEventRanges contracts then
    (liveEventsIn s (contractEntriesOf contracts fromBlockZero)).map fun live =>
      Multimap.collect (live.flatMap (topicRanges s))
  else .ok []

end Live

/-- Whether an event live over these ranges can occur in the blocks asked for. -/
def canOccurIn (ranges : Option (List EventBlockRange)) (fromBlock toBlock : ℤ) : Bool :=
  match ranges with
  | none => true
  | some ranges => ranges.any fun range =>
      range.firstBlock ≤ toBlock && range.lastBlock.all (fromBlock ≤ ·)

section Narrowing

variable {A T : Type} [DecidableEq A] [DecidableEq T]

/-- The topics that can occur in a range, or nothing where nothing narrows. -/
def topicsThatCanOccurIn (eventNameTopics : Option (List T)) (topicBlockRanges : Multimap T EventBlockRange)
    (fromBlock toBlock : ℤ) : Option (List T) :=
  match eventNameTopics with
  | none => none
  | some topics =>
    if topicBlockRanges.isEmpty then none
    else some (topics.filter fun topic => canOccurIn (topicBlockRanges.get topic) fromBlock toBlock)

/-- The requests of a range after narrowing: none where no topic can occur in it. -/
def narrowedRequests (contractAddresses : Option (List A)) (eventNameTopics : Option (List T))
    (filters : Option (List (ExtraFilter A T))) (topicBlockRanges : Multimap T EventBlockRange)
    (fromBlock toBlock : ℤ) : List (LogRequest A T) :=
  match topicsThatCanOccurIn eventNameTopics topicBlockRanges fromBlock toBlock with
  | some [] => []
  | some topics => requestsOf contractAddresses (some topics) filters
  | none => requestsOf contractAddresses eventNameTopics filters

end Narrowing

/-- The topic of an event is decided by its signature and its shape. -/
theorem topic0Of_congr {T : Type} {s : Selectors T} {e e' : AbiEvent} (hsig : s.toEventSignature e = s.toEventSignature e')
    (hshape : decodingShapeOf e = decodingShapeOf e') : topic0Of s e = topic0Of s e' := by
  have hanonymous : e.isAnonymous = e'.isAnonymous := congrArg DecodingShape.anonymous hshape
  unfold topic0Of
  rw [hanonymous, (s.selector_iff e e').2 hsig]

/-! ### What a collapsed range covers -/

/-- A range covers a block. -/
def EventBlockRange.Covers (range : EventBlockRange) (block : ℤ) : Prop :=
  range.firstBlock ≤ block ∧ ∀ last, range.lastBlock = some last → block ≤ last

/-- Some range covers a block. -/
def AnyCovers (ranges : List EventBlockRange) (block : ℤ) : Prop := ∃ range ∈ ranges, range.Covers block

/-- A range that does not end before it starts. -/
def EventBlockRange.Valid (range : EventBlockRange) : Prop :=
  ∀ last, range.lastBlock = some last → range.firstBlock ≤ last

/-- A hole: a block no range covers, between two that are covered. -/
def HasGap (ranges : List EventBlockRange) : Prop :=
  ∃ low hole high, low < hole ∧ hole < high ∧ AnyCovers ranges low ∧ ¬ AnyCovers ranges hole ∧ AnyCovers ranges high

theorem EventBlockRange.covers_iff_of_bounded {range : EventBlockRange} (h : range.lastBlock.isSome) {block : ℤ} :
    range.Covers block ↔ range.firstBlock ≤ block ∧ block ≤ range.last := by
  obtain ⟨last, hlast⟩ := Option.isSome_iff_exists.1 h
  simp [EventBlockRange.Covers, EventBlockRange.last, hlast]

/-- A bounded range that does not end before it starts. -/
structure EventBlockRange.Bounded (range : EventBlockRange) : Prop where
  isSome : range.lastBlock.isSome
  first_le : range.firstBlock ≤ range.last

/-- Joining two touching ranges covers what either covers. -/
theorem covers_joined {previous range : EventBlockRange} (hp : previous.Bounded) (hr : range.Bounded)
    (hle : previous.firstBlock ≤ range.firstBlock) (htouch : range.firstBlock ≤ previous.last + 1) (block : ℤ) :
    (⟨previous.firstBlock, some (max previous.last range.last)⟩ : EventBlockRange).Covers block ↔
      previous.Covers block ∨ range.Covers block := by
  rw [EventBlockRange.covers_iff_of_bounded rfl, EventBlockRange.covers_iff_of_bounded hp.isSome,
    EventBlockRange.covers_iff_of_bounded hr.isSome]
  have h1 := hp.first_le
  have h2 := hr.first_le
  show previous.firstBlock ≤ block ∧ block ≤ max previous.last range.last ↔ _
  omega

theorem bounded_joined {previous range : EventBlockRange} (hp : previous.Bounded) :
    (⟨previous.firstBlock, some (max previous.last range.last)⟩ : EventBlockRange).Bounded :=
  ⟨rfl, hp.first_le.trans (le_max_left _ _)⟩

theorem anyCovers_cons {range : EventBlockRange} {ranges : List EventBlockRange} {block : ℤ} :
    AnyCovers (range :: ranges) block ↔ range.Covers block ∨ AnyCovers ranges block := by
  simp [AnyCovers]

/-- What joining leaves is one range that covers what all of them cover. -/
theorem mergeRanges_ok {event : AbiEvent} {address : Option String} {previous : EventBlockRange}
    {rest out : List EventBlockRange} (hp : previous.Bounded) (hrest : ∀ r ∈ rest, r.Bounded)
    (hsorted : (previous :: rest).Pairwise fun a b => a.firstBlock ≤ b.firstBlock)
    (h : mergeRanges event address previous rest = .ok out) :
    ∃ range, out = [range] ∧ range.Bounded ∧ range.firstBlock = previous.firstBlock ∧
      ∀ block, range.Covers block ↔ AnyCovers (previous :: rest) block := by
  induction rest generalizing previous with
  | nil =>
    injection h with h
    exact ⟨previous, h.symm, hp, rfl, fun block => by simp [AnyCovers]⟩
  | cons range rest ih =>
    obtain ⟨hfirst, hrestSorted⟩ := List.pairwise_cons.1 hsorted
    have hle : previous.firstBlock ≤ range.firstBlock := hfirst range List.mem_cons_self
    unfold mergeRanges at h
    split at h
    · cases h
    rename_i htouch
    have hr : range.Bounded := hrest range List.mem_cons_self
    obtain ⟨joined, hout, hb, hf, hcover⟩ := ih (bounded_joined hp)
      (fun r hr => hrest r (List.mem_cons_of_mem _ hr))
      (List.pairwise_cons.2 ⟨fun r hr => hfirst r (List.mem_cons_of_mem _ hr),
        (List.pairwise_cons.1 hrestSorted).2⟩) h
    refine ⟨joined, hout, hb, hf, fun block => ?_⟩
    rw [hcover, anyCovers_cons, covers_joined hp hr hle (by omega), anyCovers_cons, anyCovers_cons, or_assoc]

/-- What is refused has a hole. -/
theorem mergeRanges_error {event : AbiEvent} {address : Option String} {previous : EventBlockRange}
    {rest : List EventBlockRange} {refusal : RangeRefusal} (hp : previous.Bounded) (hrest : ∀ r ∈ rest, r.Bounded)
    (hsorted : (previous :: rest).Pairwise fun a b => a.firstBlock ≤ b.firstBlock)
    (h : mergeRanges event address previous rest = .error refusal) : HasGap (previous :: rest) := by
  induction rest generalizing previous with
  | nil => cases h
  | cons range rest ih =>
    obtain ⟨hfirst, hrestSorted⟩ := List.pairwise_cons.1 hsorted
    have hle : previous.firstBlock ≤ range.firstBlock := hfirst range List.mem_cons_self
    have hr : range.Bounded := hrest range List.mem_cons_self
    have hpfirst := hp.first_le
    have hrfirst := hr.first_le
    unfold mergeRanges at h
    split at h
    · rename_i hgap
      -- nothing that follows starts before the hole
      refine ⟨previous.last, previous.last + 1, range.firstBlock, by omega, hgap, ?_, ?_, ?_⟩
      · exact ⟨previous, List.mem_cons_self, (EventBlockRange.covers_iff_of_bounded hp.isSome).2 ⟨hpfirst, le_rfl⟩⟩
      · rintro ⟨r, hmem, hcovers⟩
        rcases List.mem_cons.1 hmem with rfl | hmem
        · have := (EventBlockRange.covers_iff_of_bounded hp.isSome).1 hcovers
          omega
        · have hge : range.firstBlock ≤ r.firstBlock := by
            rcases List.mem_cons.1 hmem with rfl | hmem
            · exact le_rfl
            · exact (List.pairwise_cons.1 hrestSorted).1 r hmem
          have := hcovers.1
          omega
      · exact ⟨range, by simp, (EventBlockRange.covers_iff_of_bounded hr.isSome).2 ⟨le_rfl, hrfirst⟩⟩
    · rename_i htouch
      obtain ⟨low, hole, high, h1, h2, hlow, hhole, hhigh⟩ := ih (bounded_joined hp)
        (fun r hr => hrest r (List.mem_cons_of_mem _ hr))
        (List.pairwise_cons.2 ⟨fun r hr => hfirst r (List.mem_cons_of_mem _ hr),
          (List.pairwise_cons.1 hrestSorted).2⟩) h
      have hsame : ∀ block, AnyCovers (⟨previous.firstBlock, some (max previous.last range.last)⟩ :: rest) block ↔
          AnyCovers (previous :: range :: rest) block := by
        intro block
        rw [anyCovers_cons, covers_joined hp hr hle (by omega), anyCovers_cons, anyCovers_cons, or_assoc]
      exact ⟨low, hole, high, h1, h2, (hsame _).1 hlow, fun hc => hhole ((hsame _).2 hc), (hsame _).1 hhigh⟩

theorem anyCovers_perm {ranges ranges' : List EventBlockRange} (h : ranges.Perm ranges') (block : ℤ) :
    AnyCovers ranges block ↔ AnyCovers ranges' block :=
  exists_congr fun _ => and_congr_left' h.mem_iff

/-- Two ranges that cover the same blocks of a bounded, nonempty span are one range. -/
theorem EventBlockRange.Bounded.ext {a b : EventBlockRange} (ha : a.Bounded) (hb : b.Bounded)
    (h : ∀ block, a.Covers block ↔ b.Covers block) : a = b := by
  have ha1 := ha.first_le
  have hb1 := hb.first_le
  simp only [EventBlockRange.covers_iff_of_bounded ha.isSome, EventBlockRange.covers_iff_of_bounded hb.isSome] at h
  obtain ⟨firstA, lastA⟩ := a
  obtain ⟨firstB, lastB⟩ := b
  obtain ⟨lastA, rfl⟩ := Option.isSome_iff_exists.1 ha.isSome
  obtain ⟨lastB, rfl⟩ := Option.isSome_iff_exists.1 hb.isSome
  simp only [EventBlockRange.last, Option.getD_some] at ha1 hb1 h
  have h1 := (h firstA).1 ⟨le_rfl, ha1⟩
  have h2 := (h firstB).2 ⟨le_rfl, hb1⟩
  have h3 := (h lastA).1 ⟨ha1, le_rfl⟩
  have h4 := (h lastB).2 ⟨hb1, le_rfl⟩
  simp only [EventBlockRange.mk.injEq, Option.some.injEq]
  omega

/-- Where no range is open-ended, all are bounded. -/
theorem bounded_of_valid {ranges : List EventBlockRange} (hvalid : ∀ r ∈ ranges, r.Valid)
    (hopen : ¬ ranges.any (·.lastBlock.isNone) = true) : ∀ r ∈ ranges, r.Bounded := by
  intro r hr
  have hsome : r.lastBlock.isSome := by
    simp only [List.any_eq_true, not_exists, not_and] at hopen
    rw [← Option.not_isNone, Bool.not_eq_true']
    exact Bool.eq_false_iff.2 (hopen r hr)
  obtain ⟨last, hlast⟩ := Option.isSome_iff_exists.1 hsome
  exact ⟨hsome, by simpa [EventBlockRange.last, hlast] using hvalid r hr last hlast⟩

/-- The lowest first block, where one occurrence is open-ended. -/
theorem normalizeRanges_open {ranges : List EventBlockRange} {event : AbiEvent} {address : Option String}
    (hopen : ranges.any (·.lastBlock.isNone) = true) :
    ∃ lowest ∈ ranges, (∀ r ∈ ranges, lowest.firstBlock ≤ r.firstBlock) ∧
      normalizeRanges ranges event address = .ok [⟨lowest.firstBlock, none⟩] := by
  unfold normalizeRanges
  rw [if_pos hopen]
  have hne : ranges.map (·.firstBlock) ≠ [] := by
    rintro hnil
    rw [List.map_eq_nil_iff.1 hnil] at hopen
    cases hopen
  obtain ⟨first, hmin⟩ := Option.isSome_iff_exists.1 (List.isSome_min?_of_ne_nil hne)
  obtain ⟨hmem, hle⟩ := List.min?_eq_some_iff.1 hmin
  obtain ⟨lowest, hlowest, rfl⟩ := List.mem_map.1 hmem
  exact ⟨lowest, hlowest, fun r hr => hle _ (List.mem_map_of_mem hr), by rw [hmin]; rfl⟩

/-- Bounded occurrences collapse into one range that covers what all of them cover, unless
that leaves a hole. -/
theorem normalizeRanges_bounded {ranges : List EventBlockRange} {event : AbiEvent} {address : Option String}
    (hvalid : ∀ r ∈ ranges, r.Valid) (hne : ranges ≠ []) (hopen : ¬ ranges.any (·.lastBlock.isNone) = true) :
    (∃ range : EventBlockRange, normalizeRanges ranges event address = .ok [range] ∧ range.Bounded ∧
        ∀ block, range.Covers block ↔ AnyCovers ranges block) ∨
      (∃ refusal, normalizeRanges ranges event address = .error refusal) ∧ HasGap ranges := by
  have hbounded := bounded_of_valid hvalid hopen
  unfold normalizeRanges
  rw [if_neg hopen]
  have hperm := List.perm_insertionSort (fun a b : EventBlockRange => a.firstBlock ≤ b.firstBlock) ranges
  have : Std.Total fun a b : EventBlockRange => a.firstBlock ≤ b.firstBlock := ⟨fun a b => le_total _ _⟩
  have : IsTrans EventBlockRange fun a b => a.firstBlock ≤ b.firstBlock := ⟨fun a b c => le_trans⟩
  have hsorted := List.pairwise_insertionSort (fun a b : EventBlockRange => a.firstBlock ≤ b.firstBlock) ranges
  cases hsort : ranges.insertionSort fun a b => a.firstBlock ≤ b.firstBlock with
  | nil =>
    rw [hsort] at hperm
    exact absurd hperm.symm.eq_nil hne
  | cons first rest =>
    rw [hsort] at hperm hsorted
    have hfirst : first.Bounded := hbounded first (hperm.mem_iff.1 List.mem_cons_self)
    have hrest : ∀ r ∈ rest, r.Bounded := fun r hr => hbounded r (hperm.mem_iff.1 (List.mem_cons_of_mem _ hr))
    cases hmerge : mergeRanges event address first rest with
    | ok out =>
      obtain ⟨range, rfl, hb, -, hcover⟩ := mergeRanges_ok hfirst hrest hsorted hmerge
      exact .inl ⟨range, hmerge, hb, fun block => (hcover block).trans (anyCovers_perm hperm block)⟩
    | error refusal =>
      obtain ⟨low, hole, high, h1, h2, hlow, hhole, hhigh⟩ := mergeRanges_error hfirst hrest hsorted hmerge
      simp only [anyCovers_perm hperm] at hlow hhole hhigh
      exact .inr ⟨⟨refusal, hmerge⟩, low, hole, high, h1, h2, hlow, hhole, hhigh⟩

/-- **What the collapsed range covers**: what an occurrence covers, and with an open-ended
one everything from the lowest first block on. -/
theorem normalizeRanges_covers {ranges out : List EventBlockRange} {event : AbiEvent} {address : Option String}
    (hvalid : ∀ r ∈ ranges, r.Valid) (hne : ranges ≠ []) (h : normalizeRanges ranges event address = .ok out)
    (block : ℤ) :
    AnyCovers out block ↔
      AnyCovers ranges block ∨ (∃ r ∈ ranges, r.lastBlock = none) ∧ ∃ r ∈ ranges, r.firstBlock ≤ block := by
  by_cases hopen : ranges.any (·.lastBlock.isNone) = true
  · obtain ⟨lowest, hlowest, hle, hok⟩ := @normalizeRanges_open _ event address hopen
    rw [hok] at h
    injection h with h
    subst h
    have hnone : ∃ r ∈ ranges, r.lastBlock = none := by simpa using hopen
    constructor
    · rintro ⟨range, hmem, hcovers⟩
      obtain rfl := List.mem_singleton.1 hmem
      exact .inr ⟨hnone, lowest, hlowest, hcovers.1⟩
    · intro hb
      obtain ⟨r, hr, hfirst⟩ : ∃ r ∈ ranges, r.firstBlock ≤ block := by
        rcases hb with ⟨r, hr, hcovers⟩ | ⟨-, hb⟩
        · exact ⟨r, hr, hcovers.1⟩
        · exact hb
      exact ⟨_, List.mem_singleton_self _, (hle r hr).trans hfirst, by simp⟩
  · have hnone : ¬ ∃ r ∈ ranges, r.lastBlock = none := by simpa using hopen
    rcases @normalizeRanges_bounded _ event address hvalid hne hopen with
      ⟨range, hok, -, hcover⟩ | ⟨⟨refusal, herr⟩, -⟩
    · rw [hok] at h
      injection h with h
      subst h
      simp only [AnyCovers, List.mem_singleton, exists_eq_left]
      rw [hcover]
      exact ⟨.inl, fun hb => hb.resolve_right fun hr => hnone hr.1⟩
    · rw [herr] at h
      cases h

/-! ### The live events of a source -/

/-- Every call of a list that succeeds yields what it answers. -/
theorem exists_of_mapM_ok {ε α β : Type} {f : α → Except ε β} {l : List α} {out : List β} (h : l.mapM f = .ok out)
    {a : α} (ha : a ∈ l) : ∃ b ∈ out, f a = .ok b :=
  exists_source (mapM_eq_ok.1 h).flip ha

/-- What a list of calls that all succeed yields. -/
theorem mem_mapM_ok_iff {ε α β : Type} {f : α → Except ε β} {l : List α} {out : List β} (h : l.mapM f = .ok out)
    {b : β} : b ∈ out ↔ ∃ a ∈ l, f a = .ok b := by
  refine ⟨mem_of_mapM_ok h, ?_⟩
  rintro ⟨a, ha, hok⟩
  obtain ⟨b', hb', hok'⟩ := exists_of_mapM_ok h ha
  rw [hok] at hok'
  injection hok' with heq
  exact heq ▸ hb'

/-- Calls that answer what a function says yield its values. -/
theorem eq_map_of_mapM_ok {ε α β : Type} {f : α → Except ε β} {g : α → β} {l : List α} {out : List β}
    (h : l.mapM f = .ok out) (hg : ∀ a b, f a = .ok b → b = g a) : out = l.map g := by
  have hpairs := mapM_eq_ok.1 h
  clear h
  induction hpairs with
  | nil => rfl
  | cons hab _ ih => rw [List.map_cons, ← ih, hg _ _ hab]

/-- The range of an occurrence: what it does not declare is defaulted. -/
def occurrenceRange (defaultFirstBlock : ℤ) (event : AbiEvent) : EventBlockRange :=
  ⟨event.firstBlock.getD defaultFirstBlock, event.lastBlock⟩

theorem declaredRangeOf_ok {event : AbiEvent} {defaultFirstBlock : ℤ} {range : Option EventBlockRange}
    (h : declaredRangeOf event defaultFirstBlock = .ok range) :
    range.getD ⟨defaultFirstBlock, none⟩ = occurrenceRange defaultFirstBlock event ∧
      (occurrenceRange defaultFirstBlock event).Valid := by
  unfold declaredRangeOf at h
  split at h
  · rename_i hnone
    simp only [Bool.and_eq_true, Option.isNone_iff_eq_none] at hnone
    injection h with h
    subst h
    simp [occurrenceRange, EventBlockRange.Valid, hnone]
  · split at h
    · cases h
    split at h
    · cases h
    dsimp only at h
    split at h
    · cases h
    rename_i hlast
    injection h with h
    subst h
    refine ⟨rfl, fun last hl => ?_⟩
    have hl : event.lastBlock = some last := hl
    rw [hl] at hlast
    show event.firstBlock.getD defaultFirstBlock ≤ last
    simpa using hlast

section LiveEvents

variable {T : Type} {s : Selectors T}

theorem occurrencesOf_ok {contract : ContractEntry} {occurrences : List (String × AbiEvent × EventBlockRange)}
    (h : occurrencesOf s contract = .ok occurrences) :
    occurrences = (eventsOf contract.abi).map (fun event =>
        (s.toEventSignature event, event, occurrenceRange contract.defaultFirstBlock event)) ∧
      ∀ event ∈ eventsOf contract.abi, (occurrenceRange contract.defaultFirstBlock event).Valid := by
  have hspec : ∀ event b, ((declaredRangeOf event contract.defaultFirstBlock).map fun range =>
      (s.toEventSignature event, event, range.getD ⟨contract.defaultFirstBlock, none⟩)) = .ok b →
      b = (s.toEventSignature event, event, occurrenceRange contract.defaultFirstBlock event) ∧
        (occurrenceRange contract.defaultFirstBlock event).Valid := by
    intro event b hok
    cases hdecl : declaredRangeOf event contract.defaultFirstBlock with
    | error refusal =>
      rw [hdecl] at hok
      cases hok
    | ok range =>
      rw [hdecl] at hok
      injection hok with hok
      obtain ⟨heq, hvalid⟩ := declaredRangeOf_ok hdecl
      rw [← heq]
      exact ⟨hok.symm, heq ▸ hvalid⟩
  have heq := eq_map_of_mapM_ok h fun event b hok => (hspec event b hok).1
  refine ⟨heq, fun event hevent => ?_⟩
  have hmem : (s.toEventSignature event, event, occurrenceRange contract.defaultFirstBlock event) ∈ occurrences := by
    rw [heq]
    exact List.mem_map_of_mem hevent
  obtain ⟨event', -, hok⟩ := mem_of_mapM_ok h hmem
  obtain ⟨hsame, hvalid⟩ := hspec event' _ hok
  injection hsame with _ hsame
  injection hsame with hsame _
  rw [hsame]
  exact hvalid

/-- The events of an ABI under one signature. -/
def eventsUnder (s : Selectors T) (abi : List AbiItem) (signature : String) : List AbiEvent :=
  (eventsOf abi).filter fun event => s.toEventSignature event = signature

/-- A signature has occurrences where the ABI has events under it. -/
theorem mem_occurrences_keys {contract : ContractEntry} {occurrences : List (String × AbiEvent × EventBlockRange)}
    (h : occurrencesOf s contract = .ok occurrences) {signature : String} :
    signature ∈ occurrences.map (·.1) ↔ ∃ event rest, eventsUnder s contract.abi signature = event :: rest := by
  rw [(occurrencesOf_ok h).1, List.map_map, List.mem_map]
  constructor
  · rintro ⟨event, hevent, hsig⟩
    have hmem : event ∈ eventsUnder s contract.abi signature :=
      List.mem_filter.2 ⟨hevent, by simpa using hsig⟩
    exact List.exists_cons_of_ne_nil (List.ne_nil_of_mem hmem)
  · rintro ⟨event, rest, hunder⟩
    have hmem : event ∈ eventsUnder s contract.abi signature := by
      rw [hunder]
      exact List.mem_cons_self
    obtain ⟨hevent, hsig⟩ := List.mem_filter.1 hmem
    exact ⟨event, hevent, by simpa using hsig⟩

/-- A group of occurrences is the first event under its signature, over the ranges all
of them collapse to. -/
theorem liveEventOf_under {contract : ContractEntry} {occurrences : List (String × AbiEvent × EventBlockRange)}
    (h : occurrencesOf s contract = .ok occurrences) {signature : String} {event : AbiEvent} {rest : List AbiEvent}
    (hunder : eventsUnder s contract.abi signature = event :: rest) :
    liveEventOf contract.address (signature, Multimap.valuesAt occurrences signature) =
      (normalizeRanges ((event :: rest).map (occurrenceRange contract.defaultFirstBlock)) event
        contract.address).map fun ranges => some ⟨contract.address, signature, event, ranges⟩ := by
  have hvalues : Multimap.valuesAt occurrences signature =
      (event :: rest).map fun event => (event, occurrenceRange contract.defaultFirstBlock event) := by
    rw [← hunder, (occurrencesOf_ok h).1]
    unfold Multimap.valuesAt eventsUnder
    rw [List.filter_map, List.map_map]
    rfl
  unfold liveEventOf
  rw [hvalues, List.map_map]
  rfl

/-- **What a live event is**: the first occurrence of its signature at a contract, over the
ranges the occurrences collapse to. -/
theorem mem_liveEventsAt {contract : ContractEntry} {lives : List LiveEvent}
    (h : liveEventsAt s contract = .ok lives) {live : LiveEvent} :
    live ∈ lives ↔ live.address = contract.address ∧ ∃ rest,
      eventsUnder s contract.abi live.signature = live.event :: rest ∧
      normalizeRanges ((live.event :: rest).map (occurrenceRange contract.defaultFirstBlock)) live.event
        contract.address = .ok live.ranges := by
  obtain ⟨occurrences, hocc, h⟩ := bind_eq_ok.1 h
  obtain ⟨found, hfound, h⟩ := bind_eq_ok.1 h
  injection h with h
  rw [← h, List.reduceOption_mem_iff, mem_mapM_ok_iff hfound]
  constructor
  · rintro ⟨⟨signature, values⟩, hgroup, hok⟩
    obtain ⟨hkey, hvalues⟩ := Multimap.mem_collect.1 hgroup
    dsimp only at hvalues
    subst hvalues
    obtain ⟨event, rest, hunder⟩ := (mem_occurrences_keys hocc).1 hkey
    rw [liveEventOf_under hocc hunder] at hok
    cases hnorm : normalizeRanges ((event :: rest).map (occurrenceRange contract.defaultFirstBlock)) event
        contract.address with
    | error refusal =>
      rw [hnorm] at hok
      cases hok
    | ok ranges =>
      rw [hnorm] at hok
      injection hok with hok
      injection hok with hok
      subst hok
      exact ⟨rfl, rest, hunder, hnorm⟩
  · rintro ⟨haddress, rest, hunder, hnorm⟩
    refine ⟨(live.signature, Multimap.valuesAt occurrences live.signature),
      Multimap.mem_collect.2 ⟨(mem_occurrences_keys hocc).2 ⟨_, _, hunder⟩, rfl⟩, ?_⟩
    rw [liveEventOf_under hocc hunder, hnorm, ← haddress]
    rfl

/-- Every signature of an accepted contract is a live event of it. -/
theorem exists_live {contract : ContractEntry} {lives : List LiveEvent} (h : liveEventsAt s contract = .ok lives)
    {signature : String} {event : AbiEvent} {rest : List AbiEvent}
    (hunder : eventsUnder s contract.abi signature = event :: rest) :
    ∃ ranges, (⟨contract.address, signature, event, ranges⟩ : LiveEvent) ∈ lives := by
  have hlives := h
  obtain ⟨occurrences, hocc, h⟩ := bind_eq_ok.1 h
  obtain ⟨found, hfound, -⟩ := bind_eq_ok.1 h
  have hgroup : (signature, Multimap.valuesAt occurrences signature) ∈ Multimap.collect occurrences :=
    Multimap.mem_collect.2 ⟨(mem_occurrences_keys hocc).2 ⟨_, _, hunder⟩, rfl⟩
  obtain ⟨live, -, hok⟩ := exists_of_mapM_ok hfound hgroup
  rw [liveEventOf_under hocc hunder] at hok
  cases hnorm : normalizeRanges ((event :: rest).map (occurrenceRange contract.defaultFirstBlock)) event
      contract.address with
  | error refusal =>
    rw [hnorm] at hok
    cases hok
  | ok ranges => exact ⟨ranges, (mem_liveEventsAt hlives).2 ⟨rfl, rest, hunder, hnorm⟩⟩

/-- The contracts of a source; one merged ABI is a contract at no address. -/
def ContractsData.list : ContractsData → List ContractData
  | .each contracts => contracts
  | .all abi startBlock => [⟨none, abi, startBlock⟩]

/-- A contract with the first block of what declares nothing. -/
def ContractData.entry (defaultFirstBlockOf : Option ℤ → ℤ) (contract : ContractData) : ContractEntry :=
  ⟨contract.address, contract.abi, defaultFirstBlockOf contract.startBlock⟩

theorem contractEntriesOf_eq (contracts : ContractsData) (defaultFirstBlockOf : Option ℤ → ℤ) :
    contractEntriesOf contracts defaultFirstBlockOf = contracts.list.map (·.entry defaultFirstBlockOf) := by
  cases contracts <;> rfl

/-- The live events of a source are those of its contracts. -/
theorem mem_liveEventsIn {entries : List ContractEntry} {lives : List LiveEvent}
    (h : liveEventsIn s entries = .ok lives) {live : LiveEvent} :
    live ∈ lives ↔ ∃ entry ∈ entries, ∃ at_entry, liveEventsAt s entry = .ok at_entry ∧ live ∈ at_entry := by
  unfold liveEventsIn at h
  cases hmap : entries.mapM (liveEventsAt s) with
  | error refusal =>
    rw [hmap] at h
    cases h
  | ok found =>
    rw [hmap] at h
    injection h with h
    rw [← h, List.mem_flatten]
    constructor
    · rintro ⟨lives, hmem, hlive⟩
      obtain ⟨entry, hentry, hok⟩ := (mem_mapM_ok_iff hmap).1 hmem
      exact ⟨entry, hentry, lives, hok, hlive⟩
    · rintro ⟨entry, hentry, lives, hok, hlive⟩
      exact ⟨lives, (mem_mapM_ok_iff hmap).2 ⟨entry, hentry, hok⟩, hlive⟩

/-- Every contract of a source that is accepted is accepted. -/
theorem exists_liveEventsAt {entries : List ContractEntry} {lives : List LiveEvent}
    (h : liveEventsIn s entries = .ok lives) {entry : ContractEntry} (hentry : entry ∈ entries) :
    ∃ found, liveEventsAt s entry = .ok found := by
  unfold liveEventsIn at h
  cases hmap : entries.mapM (liveEventsAt s) with
  | error refusal =>
    rw [hmap] at h
    cases h
  | ok found =>
    obtain ⟨at_entry, -, hok⟩ := exists_of_mapM_ok hmap hentry
    exact ⟨at_entry, hok⟩

/-- The occurrences of an accepted contract do not end before they start. -/
theorem valid_of_liveEventsAt {contract : ContractEntry} {lives : List LiveEvent}
    (h : liveEventsAt s contract = .ok lives) :
    ∀ event ∈ eventsOf contract.abi, (occurrenceRange contract.defaultFirstBlock event).Valid := by
  obtain ⟨occurrences, hocc, -⟩ := bind_eq_ok.1 h
  exact (occurrencesOf_ok hocc).2

/-- **Declared from later, live from later**: an event live at a block under any default of
its first block is live there for the fetch filter, which defaults it to block `0`. -/
theorem live_fromBlockZero {contracts : ContractsData} {defaultFirstBlockOf : Option ℤ → ℤ}
    {lives filtered : List LiveEvent} (h : liveEventsIn s (contractEntriesOf contracts defaultFirstBlockOf) = .ok lives)
    (h0 : liveEventsIn s (contractEntriesOf contracts fromBlockZero) = .ok filtered) {live : LiveEvent}
    (hlive : live ∈ lives) {block : ℕ} (hb : AnyCovers live.ranges block) :
    ∃ live' ∈ filtered, live'.event = live.event ∧ AnyCovers live'.ranges block := by
  rw [contractEntriesOf_eq] at h h0
  obtain ⟨entry, hentry, found, hfound, hlive⟩ := (mem_liveEventsIn h).1 hlive
  obtain ⟨contract, hcontract, rfl⟩ := List.mem_map.1 hentry
  have hentry0 : contract.entry fromBlockZero ∈ contracts.list.map (·.entry fromBlockZero) :=
    List.mem_map_of_mem hcontract
  obtain ⟨found0, hfound0⟩ := exists_liveEventsAt h0 hentry0
  obtain ⟨-, rest, hunder, hnorm⟩ := (mem_liveEventsAt hfound).1 hlive
  obtain ⟨ranges, hlive0⟩ := exists_live hfound0 hunder
  refine ⟨_, (mem_liveEventsIn h0).2 ⟨_, hentry0, found0, hfound0, hlive0⟩, rfl, ?_⟩
  obtain ⟨-, rest', hunder', hnorm0⟩ := (mem_liveEventsAt hfound0).1 hlive0
  dsimp only at hunder' hnorm0 ⊢
  -- both defaults give the same events, with the same last blocks
  have hsame : live.event :: rest' = live.event :: rest := hunder'.symm.trans hunder
  rw [hsame] at hnorm0
  have hmem : ∀ event ∈ live.event :: rest, event ∈ eventsOf contract.abi := fun event hevent =>
    List.mem_of_mem_filter (hunder ▸ hevent)
  have hvalid : ∀ (entry : ContractEntry) (found : List LiveEvent), liveEventsAt s entry = .ok found →
      entry.abi = contract.abi →
      ∀ r ∈ (live.event :: rest).map (occurrenceRange entry.defaultFirstBlock), r.Valid := by
    intro entry found hfound habi r hr
    obtain ⟨event, hevent, rfl⟩ := List.mem_map.1 hr
    exact valid_of_liveEventsAt hfound event (habi ▸ hmem event hevent)
  rw [normalizeRanges_covers (hvalid _ _ hfound0 rfl) (by simp) hnorm0]
  rw [normalizeRanges_covers (hvalid _ _ hfound rfl) (by simp) hnorm] at hb
  have hfirst : ∀ event : AbiEvent, (occurrenceRange (defaultFirstBlockOf contract.startBlock) event).firstBlock ≤ block →
      (occurrenceRange 0 event).firstBlock ≤ block := by
    intro event hle
    unfold occurrenceRange at hle ⊢
    cases hf : event.firstBlock with
    | none => simp
    | some first => simpa [hf] using hle
  rcases hb with ⟨r, hr, hcovers⟩ | ⟨⟨r, hr, hnone⟩, r', hr', hle⟩
  · obtain ⟨event, hevent, rfl⟩ := List.mem_map.1 hr
    exact .inl ⟨_, List.mem_map_of_mem hevent, hfirst event hcovers.1, hcovers.2⟩
  · obtain ⟨event, hevent, rfl⟩ := List.mem_map.1 hr
    obtain ⟨event', hevent', rfl⟩ := List.mem_map.1 hr'
    exact .inr ⟨⟨_, List.mem_map_of_mem hevent, hnone⟩, _, List.mem_map_of_mem hevent', hfirst event' hle⟩

end LiveEvents

/-! ### What narrowing keeps -/

section Narrowed

variable {A T H : Type} [DecidableEq A] [DecidableEq T] {s : Selectors T}

omit [DecidableEq T] in
theorem mem_topicRanges {live : LiveEvent} {topic0 : T} {range : EventBlockRange} :
    (topic0, range) ∈ topicRanges s live ↔ topic0Of s live.event = some topic0 ∧ range ∈ live.ranges := by
  unfold topicRanges
  cases htopic : topic0Of s live.event with
  | none => simp
  | some topic =>
    simp only [List.mem_map, Prod.mk.injEq, Option.some.injEq]
    constructor
    · rintro ⟨r, hr, heq, rfl⟩
      exact ⟨heq, hr⟩
    · rintro ⟨heq, hr⟩
      exact ⟨range, hr, heq, rfl⟩

/-- A topic some contract's event is live under at a block can occur in the blocks around it. -/
theorem canOccurIn_of_live {contracts : ContractsData} {topicBlockRanges : Multimap T EventBlockRange}
    (hranges : requestableRangesPerTopic s contracts = .ok topicBlockRanges)
    {defaultFirstBlockOf : Option ℤ → ℤ} {lives : List LiveEvent}
    (hlives : liveEventsIn s (contractEntriesOf contracts defaultFirstBlockOf) = .ok lives) {live : LiveEvent}
    (hlive : live ∈ lives) {topic0 : T} (htopic : topic0Of s live.event = some topic0) {block : ℕ}
    (hb : AnyCovers live.ranges block) {fromBlock toBlock : ℤ} (hfrom : fromBlock ≤ block) (hto : block ≤ toBlock) :
    canOccurIn (topicBlockRanges.get topic0) fromBlock toBlock = true := by
  unfold requestableRangesPerTopic at hranges
  split at hranges
  · cases h0 : liveEventsIn s (contractEntriesOf contracts fromBlockZero) with
    | error refusal =>
      rw [h0] at hranges
      cases hranges
    | ok filtered =>
      rw [h0] at hranges
      injection hranges with hranges
      subst hranges
      obtain ⟨live0, hlive0, hevent, range, hrange, hcovers⟩ := live_fromBlockZero hlives h0 hlive hb
      have hmem : (topic0, range) ∈ filtered.flatMap (topicRanges s) :=
        List.mem_flatMap.2 ⟨live0, hlive0, mem_topicRanges.2 ⟨hevent ▸ htopic, hrange⟩⟩
      rw [Multimap.get_collect, if_pos (List.mem_map.2 ⟨_, hmem, rfl⟩)]
      unfold canOccurIn
      simp only [List.any_eq_true, Bool.and_eq_true, decide_eq_true_eq]
      refine ⟨range, Multimap.mem_valuesAt.2 hmem, hcovers.1.trans hto, ?_⟩
      cases hlast : range.lastBlock with
      | none => rfl
      | some last => simpa using hfrom.trans (hcovers.2 last hlast)
  · injection hranges with hranges
    subst hranges
    rfl

omit [DecidableEq A] in
theorem mem_narrowed {eventNameTopics : List T} {topicBlockRanges : Multimap T EventBlockRange}
    {fromBlock toBlock : ℤ} {narrowed : List T}
    (h : topicsThatCanOccurIn (some eventNameTopics) topicBlockRanges fromBlock toBlock = some narrowed) {topic0 : T} :
    topic0 ∈ narrowed ↔ topic0 ∈ eventNameTopics ∧
      canOccurIn (topicBlockRanges.get topic0) fromBlock toBlock = true := by
  unfold topicsThatCanOccurIn at h
  dsimp only at h
  split at h
  · cases h
  · injection h with h
    rw [← h, List.mem_filter]

/-- A plan of fewer topics asks for what it asked for under the topics kept. -/
theorem askedFor_of_mem {contractAddresses : Option (List A)} {topics kept : List T}
    {filters : List (ExtraFilter A T)} {log : IncludedLog A T H} {topic0 : T} {arguments : List T}
    (hlog : log.topics = topic0 :: arguments) (hkept : topic0 ∈ kept)
    (h : AskedFor (generateLogRequestForTopicsAndFiltersCombinations contractAddresses topics filters) log) :
    AskedFor (generateLogRequestForTopicsAndFiltersCombinations contractAddresses kept filters) log := by
  by_cases hf : filters = []
  · subst hf
    obtain ⟨hscope, -⟩ := unfiltered_matches_iff.1 h
    exact unfiltered_matches_iff.2 ⟨hscope, topic0, arguments, hlog, .inr hkept⟩
  · obtain ⟨topic, rest, hlog', -, hask⟩ := (plan_matches_iff hf).1 h
    rw [hlog] at hlog'
    injection hlog' with h1 h2
    subst h1 h2
    exact (plan_matches_iff hf).2 ⟨topic0, arguments, hlog, hkept, hask⟩

/-- **No live event is narrowed away.** A log of an event live at its block, inside the
blocks asked for, is asked for after narrowing wherever it was before; and a topic is
dropped only where no event of the source under it is live at any of those blocks. -/
theorem narrowing_keeps_live {contracts : ContractsData} {topicBlockRanges : Multimap T EventBlockRange}
    (hranges : requestableRangesPerTopic s contracts = .ok topicBlockRanges)
    {defaultFirstBlockOf : Option ℤ → ℤ} {lives : List LiveEvent}
    (hlives : liveEventsIn s (contractEntriesOf contracts defaultFirstBlockOf) = .ok lives)
    (contractAddresses : Option (List String)) (eventNameTopics : Option (List T))
    (filters : Option (List (ExtraFilter String T))) (fromBlock toBlock : ℤ) :
    (∀ live ∈ lives, ∀ log : IncludedLog String T H, (∀ address, live.address = some address → log.address = address) →
      log.topics.head? = topic0Of s live.event → log.topics ≠ [] → AnyCovers live.ranges log.blockNumber →
      fromBlock ≤ log.blockNumber → log.blockNumber ≤ toBlock →
      (∀ topics, eventNameTopics = some topics → ∀ topic0 ∈ log.topics.head?, topic0 ∈ topics) →
      AskedFor (requestsOf contractAddresses eventNameTopics filters) log →
      AskedFor (narrowedRequests contractAddresses eventNameTopics filters topicBlockRanges fromBlock toBlock) log) ∧
    ∀ topics narrowed, eventNameTopics = some topics →
      topicsThatCanOccurIn eventNameTopics topicBlockRanges fromBlock toBlock = some narrowed →
      ∀ topic0 ∈ topics, topic0 ∉ narrowed → ∀ live ∈ lives, topic0Of s live.event = some topic0 →
        ∀ block : ℕ, fromBlock ≤ block → block ≤ toBlock → ¬ AnyCovers live.ranges block := by
  constructor
  · intro live hlive log _ hhead hne hb hfrom hto htopics hasked
    obtain ⟨topic0, arguments, hlog⟩ := List.exists_cons_of_ne_nil hne
    rw [hlog, List.head?_cons] at hhead htopics
    have hoccurs := canOccurIn_of_live hranges hlives hlive hhead.symm hb hfrom hto
    unfold narrowedRequests
    cases hnarrowed : topicsThatCanOccurIn eventNameTopics topicBlockRanges fromBlock toBlock with
    | none => exact hasked
    | some narrowed =>
      obtain _ | topics := eventNameTopics
      · cases hnarrowed
      have hmem : topic0 ∈ narrowed :=
        (mem_narrowed hnarrowed).2 ⟨htopics topics rfl topic0 rfl, hoccurs⟩
      cases narrowed with
      | nil => cases hmem
      | cons first rest => exact askedFor_of_mem hlog hmem hasked
  · intro topics narrowed htopics hnarrowed topic0 hmem hout live hlive htopic block hfrom hto hb
    subst htopics
    exact hout ((mem_narrowed hnarrowed).2 ⟨hmem, canOccurIn_of_live hranges hlives hlive htopic hb hfrom hto⟩)

/-- Events told apart by their names alone. -/
def byName : Selectors String where
  toEventSignature := (·.name)
  toEventSelector := (·.name)
  signature_congr _ _ h _ := h
  selector_iff _ _ := Iff.rfl

/-- One contract with an event live from block 10 and one live up to block 9. -/
def upgraded : ContractsData :=
  .each [⟨some "a", [.event ⟨"E", [], none, some 10, none⟩, .event ⟨"F", [], none, none, some 9⟩], some 5⟩]

/-- The event an upgrade brought is asked for, and the one it ended is not. -/
theorem upgraded_kept :
    AskedFor (narrowedRequests (some ["a"]) (some ["E", "F"]) none [("E", [⟨10, none⟩]), ("F", [⟨0, some 9⟩])] 10 20)
      (⟨12, (), 0, "a", ["E"]⟩ : IncludedLog String String Unit) := by
  have hlives : liveEventsIn byName (contractEntriesOf upgraded fromTheContractStartBlock) =
      .ok [⟨some "a", "E", ⟨"E", [], none, some 10, none⟩, [⟨10, none⟩]⟩,
        ⟨some "a", "F", ⟨"F", [], none, none, some 9⟩, [⟨5, some 9⟩]⟩] := by rfl
  have hranges : requestableRangesPerTopic byName upgraded =
      .ok [("E", [⟨10, none⟩]), ("F", [⟨0, some 9⟩])] := by rfl
  refine (narrowing_keeps_live hranges hlives (some ["a"]) (some ["E", "F"]) none 10 20).1 _
    List.mem_cons_self _ ?_ rfl (by simp) ?_ (by norm_num) (by norm_num) ?_ ?_
  · rintro address ⟨⟩
    rfl
  · exact ⟨⟨10, none⟩, by simp, by simp [EventBlockRange.Covers]⟩
  · rintro topics ⟨⟩ topic0 ⟨⟩
    simp
  · exact unfiltered_matches_iff.2 ⟨by rintro addresses ⟨⟩; simp, "E", [], rfl, by simp⟩

end Narrowed

end Etherfold
