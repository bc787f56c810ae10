import Etherfold.Generation.Promotion

/-!
# The container that holds several generations

One generation answers reads, and every held generation is advanced. A generation is added
beside the others, the pointer is moved by the policy or by a caller, and what a promotion
supersedes is dropped. Every verb awaits the registry, and verbs overlap at their awaits.

* `Indexer.next`: what a call does up to its next await.
* `dropSuperseded`, `replacing`, `holdGeneration`: the three places the held folds change.
* `openIndexer`: the container as it opens.
-/

namespace Etherfold

inductive PromotionPolicy where
  | onCatchUp
  | immediate
  | manual
  deriving DecidableEq, Repr

structure UsedPromotionConfig where
  policy : PromotionPolicy
  dropOnPromotion : Bool
  deriving DecidableEq, Repr

/-- What a container is opened with. -/
structure IndexerOptions where
  caps : GenerationCaps
  localeCompare : Text → Text → ℤ
  promotion : UsedPromotionConfig
  keepStream : Bool

/-- A fold this process holds. Two folds of one generation are two objects. -/
structure HeldEntry where
  key : ℕ
  record : GenerationRecord
  deriving DecidableEq, Repr

/-- A drop that waits for the successor to reach a cursor. -/
structure DeferredDrop where
  superseded : HeldEntry
  successor : HeldEntry
  cursor : ℕ
  deriving DecidableEq, Repr

/-- What a call does once its move or its drop is over. -/
inductive Continuation where
  | returns
  | settles
  | continues (rest : List DeferredDrop)
  deriving DecidableEq, Repr

/-- Where a call stands between two awaits. -/
inductive IndexerCall where
  | idle
  | advancing (todo : List HeldEntry)
  | moving (entry : HeldEntry) (superseded : Option HeldEntry) (rest : Continuation)
  | writing (entry : HeldEntry) (superseded : Option HeldEntry) (wasPromotion : Bool) (rest : Continuation)
  | applying (entry : HeldEntry) (superseded : Option HeldEntry) (wasPromotion : Bool) (rest : Continuation)
  | deleting (superseded successor : HeldEntry) (rest : Continuation)
  | resuming (rest : Continuation)
  | listing (arriving : GenerationId)
  | reading (arriving : GenerationId) (registered : List GenerationRecord)
  | replacing (arriving : GenerationId) (displaced surviving : List GenerationRecord)
  | removing (arriving : GenerationId) (record : GenerationRecord) (displaced surviving : List GenerationRecord)
  | removed (arriving : GenerationId) (record : GenerationRecord) (displaced surviving : List GenerationRecord)
  | creating (arriving : GenerationId)
  | holding (record : GenerationRecord)
  deriving DecidableEq, Repr

/-- The container: the registry, the folds it holds in the order they were built, the one that
answers, the drops it deferred, what each fold object carries, and the calls under way. -/
structure Indexer where
  records : GenerationRegistryRecords
  held : List HeldEntry
  current : Option HeldEntry
  deferredDrops : List DeferredDrop
  lastSync : ℕ → Option ℕ
  candidate : ℕ → Bool
  follows : ℕ → Bool
  writable : ℕ → Bool
  built : ℕ
  calls : List IndexerCall

/-- One step: a verb is called, a call goes on to its next await, an await fails, or a fold
reports its cursor. -/
inductive IndexerStep where
  | promote (id : GenerationId)
  | indexMore
  | add (id : GenerationId)
  | next (call : ℕ) (cursor : Option ℕ) (now : ℤ)
  | fail (call : ℕ)
  | lastSyncUpdated (key : ℕ) (cursor : Option ℕ)

/-- What a registration into `successor` displaces, newest first. A record no slot names and no
fold here exists for goes with it. -/
def displacedBySuccessor (arriving : GenerationId) (generations : List GenerationRecord) (slots : GenerationSlots) :
    List GenerationRecord :=
  let holding := slotHolding slots arriving
  if slots .canonical = none ∨ holding = some .canonical ∨ holding = some .successor then []
  else
    (generations.filter fun record => record.id ≠ arriving && (slotHolding slots record.id).all (· = .successor)).insertionSort
      fun a b => b.createdAt ≤ a.createdAt

/-- What the slots name of the records that survive. -/
def resolveSlots (current : GenerationRegistryState) : GenerationSlots := fun name =>
  (current.slots name).filter fun id => current.generations.any (·.id = id)

namespace Indexer

variable (o : IndexerOptions) (w : Indexer)

def setCall (call : ℕ) (state : IndexerCall) : Indexer := { w with calls := w.calls.set call state }

/-- Which of these folds fetches a stream: the oldest on it. -/
def fetcherAmong (held : List HeldEntry) (stream : Text) : Option HeldEntry :=
  (fetcherOf o.localeCompare (held.map (·.record)) stream).bind fun fetcher =>
    held.find? (·.record.id = fetcher.id)

/-- Who fetches next, where the superseded fold fetches now. -/
def nextFetcher (superseded : HeldEntry) : Option HeldEntry :=
  if fetcherAmong o w.held superseded.record.id.stream = some superseded then
    fetcherAmong o (w.held.filter (· ≠ superseded)) superseded.record.id.stream
  else none

/-- The fold stops following and is given the keeper itself. -/
def handOverTheStream (taking : HeldEntry) : Indexer :=
  { w with
    follows := Function.update w.follows taking.key false
    writable := if o.keepStream then Function.update w.writable taking.key true else w.writable }

/-- A drop is begun of a fold that is held, unless its stream would fall to a fold the promotion
said nothing about. -/
def Begins (superseded successor : HeldEntry) : Prop :=
  superseded ∈ w.held ∧ ∀ next, w.nextFetcher o superseded = some next → next = successor

instance (superseded successor : HeldEntry) : Decidable (w.Begins o superseded successor) :=
  inferInstanceAs (Decidable (_ ∧ ∀ next, w.nextFetcher o superseded = some next → next = successor))

/-- **Drop a superseded generation**: out of the held folds first, its stream handed over in the
same step, and then its record. -/
def dropSuperseded (call : ℕ) (superseded successor : HeldEntry) (rest : Continuation) : Indexer :=
  if w.Begins o superseded successor then
    let handed := match w.nextFetcher o superseded with
      | some next => w.handOverTheStream o next
      | none => w
    { handed with held := w.held.erase superseded }.setCall call (.deleting superseded successor rest)
  else w.setCall call (.resuming rest)

/-- What a promotion does with the generation it left behind. Under `immediate` it demonstrated
nothing, so the drop waits. -/
def arrangeDrop (call : ℕ) (superseded successor : HeldEntry) (wasPromotion : Bool) (rest : Continuation) : Indexer :=
  if !o.promotion.dropOnPromotion || !wasPromotion then w.setCall call (.resuming rest)
  else
    match o.promotion.policy with
    | .immediate =>
      let deferred : DeferredDrop := ⟨superseded, successor, (w.lastSync superseded.key).getD 0⟩
      { w with deferredDrops := w.deferredDrops ++ [deferred] }.setCall call (.resuming rest)
    | _ => w.dropSuperseded o call superseded successor rest

/-- The first candidate that has reached the cursor of the generation that answers. -/
def readyForPromotion : Option HeldEntry :=
  w.current.bind fun current => w.held.find? fun entry =>
    entry ≠ current && w.candidate entry.key && hasReachedCursor (w.lastSync entry.key) (w.lastSync current.key)

/-- The trigger: one move at most, and then the deferred drops. -/
def settlePromotion (call : ℕ) : Indexer :=
  match w.readyForPromotion with
  | some ready => w.setCall call (.moving ready w.current .settles)
  | none => w.setCall call (.resuming .settles)

/-- What the policy does about a generation that has just been added beside the live one. -/
def applyPolicyTo (call : ℕ) (entry : HeldEntry) : Indexer :=
  if w.current = some entry then w.setCall call .idle
  else
    match o.promotion.policy with
    | .immediate => w.setCall call (.moving entry w.current .returns)
    | .onCatchUp => { w with candidate := Function.update w.candidate entry.key true }.settlePromotion call
    | .manual => w.setCall call .idle

/-- The fold of a registered generation, which follows unless it is the oldest on its stream. -/
def hold (record : GenerationRecord) (willHold : List GenerationRecord) : HeldEntry × Indexer :=
  let entry : HeldEntry := ⟨w.built, record⟩
  let follows := (fetcherOf o.localeCompare willHold record.id.stream).any (·.id ≠ record.id)
  (entry, { w with
    held := w.held ++ [entry]
    lastSync := Function.update w.lastSync entry.key none
    candidate := Function.update w.candidate entry.key false
    follows := Function.update w.follows entry.key follows
    writable := Function.update w.writable entry.key (o.keepStream && !follows)
    built := w.built + 1 })

/-- **Hold a fold of a registered generation**; one that is held already is not built again. -/
def holdGeneration (call : ℕ) (record : GenerationRecord) : Indexer :=
  match w.held.find? (·.record.id = record.id) with
  | some existing => w.applyPolicyTo o call existing
  | none =>
    let (entry, w) := w.hold o record (w.held.map (·.record) ++ [record])
    w.applyPolicyTo o call entry

def heldHere (id : GenerationId) : Bool := w.held.any (·.record.id = id)

/-- Dropping this generation would leave a stream with nobody to append to it. The one that
arrives is about to follow. -/
def wouldStrandAFollower (record : GenerationRecord) (registered : List GenerationRecord) (arrivingStream : Text) : Bool :=
  match fetcherOf o.localeCompare (registered.filter fun candidate => w.heldHere candidate.id) record.id.stream with
  | none => false
  | some fetcher =>
    if fetcher.id ≠ record.id then false
    else record.id.stream = arrivingStream ||
      w.held.any fun entry => entry.record.id ≠ record.id && w.follows entry.key &&
        entry.record.id.stream = record.id.stream

/-- Nothing drives a generation whose record has gone. -/
def stopDriving (id : GenerationId) : Indexer :=
  match w.held.find? (·.record.id = id) with
  | none => w
  | some entry => { w with
      held := w.held.erase entry
      candidate := Function.update w.candidate entry.key false
      deferredDrops := w.deferredDrops.filter fun deferred => deferred.superseded ≠ entry ∧ deferred.successor ≠ entry }

/-- `splice(indexOf(deferred), 1)`: where it is gone already the last one goes. -/
def spliceDeferred (deferred : DeferredDrop) : List DeferredDrop :=
  if deferred ∈ w.deferredDrops then w.deferredDrops.erase deferred else w.deferredDrops.dropLast

/-- **What a call does up to its next await.** -/
def next (call : ℕ) (cursor : Option ℕ) (now : ℤ) : Indexer :=
  match w.calls[call]? with
  | none | some .idle => w
  | some (.advancing []) => w.settlePromotion call
  | some (.advancing (entry :: todo)) =>
    { w with lastSync := Function.update w.lastSync entry.key cursor }.setCall call (.advancing todo)
  -- which kind of move it is, read from the slots before it applies
  | some (.moving entry superseded rest) =>
    w.setCall call (.writing entry superseded (resolveSlots w.records.snapshot .successor = some entry.record.id) rest)
  | some (.writing entry superseded wasPromotion rest) =>
    match w.records.moveCanonicalTo entry.record.id false with
    | (.error _, _) => w.setCall call .idle
    | (.ok _, records) => { w with records := records }.setCall call (.applying entry superseded wasPromotion rest)
  -- the read path follows at the notification, and then comes what the move left behind
  | some (.applying entry superseded wasPromotion rest) =>
    let w := { w with candidate := Function.update w.candidate entry.key false, current := some entry }
    match superseded with
    | none => w.setCall call (.resuming rest)
    | some left =>
      if left = entry then w.setCall call (.resuming rest) else w.arrangeDrop o call left entry wasPromotion rest
  -- a deletion that is refused is logged
  | some (.deleting superseded _ rest) =>
    { w with records := (w.records.deleteGeneration superseded.record.id false).2 }.setCall call (.resuming rest)
  | some (.resuming .returns) => w.setCall call .idle
  | some (.resuming .settles) => w.setCall call (.resuming (.continues w.deferredDrops))
  | some (.resuming (.continues [])) => w.setCall call .idle
  | some (.resuming (.continues (deferred :: rest))) =>
    if hasReachedCursor (w.lastSync deferred.successor.key) (some deferred.cursor) then
      { w with deferredDrops := w.spliceDeferred deferred }.dropSuperseded o call deferred.superseded deferred.successor
        (.continues rest)
    else w.setCall call (.resuming (.continues rest))
  | some (.listing arriving) =>
    w.setCall call (.reading arriving
      (w.records.snapshot.generations.insertionSort fun a b => byAge o.localeCompare a b ≤ 0))
  | some (.reading arriving registered) =>
    w.setCall call (.replacing arriving
      (displacedBySuccessor arriving registered (resolveSlots w.records.snapshot)) registered)
  | some (.replacing arriving [] _) => w.setCall call (.creating arriving)
  | some (.replacing arriving (record :: displaced) surviving) =>
    if w.wouldStrandAFollower o record surviving arriving.stream then
      w.setCall call (.replacing arriving displaced surviving)
    else w.setCall call (.removing arriving record displaced surviving)
  | some (.removing arriving record displaced surviving) =>
    match w.records.deleteGeneration record.id false with
    | (.error _, _) => w.setCall call (.replacing arriving displaced surviving)
    | (.ok _, records) =>
      { w with records := records }.setCall call (.removed arriving record displaced surviving)
  | some (.removed arriving record displaced surviving) =>
    (w.stopDriving record.id).setCall call (.replacing arriving displaced (surviving.eraseP (·.id = record.id)))
  | some (.creating arriving) =>
    match w.records.create o.caps arriving (some .successor) none now with
    | (.error _, _) => w.setCall call .idle
    | (.ok record, records) => { w with records := records }.setCall call (.holding record)
  | some (.holding record) => w.holdGeneration o call record

/-- An await that fails. A deletion that fails is logged and the call goes on; the state may fail
to be dropped once the record is gone. -/
def fail (call : ℕ) : Indexer :=
  match w.calls[call]? with
  | some (.deleting _ _ rest) => w.setCall call (.resuming rest)
  | some (.removing arriving _ displaced surviving) => w.setCall call (.replacing arriving displaced surviving)
  | some (.removed arriving _ displaced surviving) => w.setCall call (.replacing arriving displaced surviving)
  | some (.advancing _) | some (.moving _ _ _) | some (.writing _ _ _ _) | some (.listing _) | some (.reading _ _)
  | some (.creating _) => w.setCall call .idle
  | _ => w

/-- **One step.** -/
def step : IndexerStep → Indexer
  | .promote id =>
    match w.held.find? (·.record.id = id) with
    | none => w
    | some entry => { w with calls := w.calls ++ [.moving entry w.current .returns] }
  | .indexMore => if w.current.isSome then { w with calls := w.calls ++ [.advancing w.held] } else w
  | .add id => { w with calls := w.calls ++ [.listing id] }
  | .next call cursor now => w.next o call cursor now
  | .fail call => w.fail call
  | .lastSyncUpdated key cursor => { w with lastSync := Function.update w.lastSync key cursor }

end Indexer

/-- Why a container does not open. -/
inductive OpenError where
  | displaceOneAnother (displaced : GenerationRecord) (arriving : GenerationId)
  | registry (error : RegistryError)
  | canonicalNotHeld (canonical : GenerationId) (held : List GenerationId)
  deriving DecidableEq, Repr

/-- Register one of the generations a container is opened with. Nothing is held yet, so nothing is
stranded, and a deletion that is refused is logged. -/
def registerSpec (o : IndexerOptions) (r : GenerationRegistryRecords) (openedAlongside : List GenerationRecord)
    (spec : GenerationId × ℤ) : Except OpenError (GenerationRecord × GenerationRegistryRecords) :=
  let registered := r.snapshot.generations.insertionSort fun a b => byAge o.localeCompare a b ≤ 0
  let displaced := displacedBySuccessor spec.1 registered (resolveSlots r.snapshot)
  match displaced.find? fun record => openedAlongside.any (·.id = record.id) with
  | some ownSpec => .error (.displaceOneAnother ownSpec spec.1)
  | none =>
    let left := displaced.foldl (fun r record => (r.deleteGeneration record.id false).2) r
    match left.create o.caps spec.1 (some .successor) none spec.2 with
    | (.error e, _) => .error (.registry e)
    | (.ok record, r) => .ok (record, r)

/-- Every generation is registered before any is held. -/
def registerSpecs (o : IndexerOptions) : List (GenerationId × ℤ) → List GenerationRecord → GenerationRegistryRecords →
    Except OpenError (List GenerationRecord × GenerationRegistryRecords)
  | [], registered, r => .ok (registered, r)
  | spec :: specs, registered, r => do
    let (record, r) ← registerSpec o r registered spec
    registerSpecs o specs (registered ++ [record]) r

/-- Hold the registered generations, each knowing all of them. -/
def holdSpecs (o : IndexerOptions) (willHold : List GenerationRecord) (w : Indexer) (record : GenerationRecord) : Indexer :=
  match w.held.find? (·.record.id = record.id) with
  | some _ => w
  | none => (w.hold o record willHold).2

/-- **Open the container**: register, hold, and resolve what answers. -/
def openIndexer (o : IndexerOptions) (r : GenerationRegistryRecords) (specs : List (GenerationId × ℤ)) :
    Except OpenError Indexer := do
  let (registered, r) ← registerSpecs o specs [] r
  let bare : Indexer := ⟨r, [], none, [], fun _ => none, fun _ => false, fun _ => false, fun _ => false, 0, []⟩
  let w := registered.foldl (holdSpecs o registered) bare
  match resolveSlots r.snapshot .canonical with
  | none => .ok w
  | some canonical =>
    match w.held.find? (·.record.id = canonical) with
    | none => .error (.canonicalNotHeld canonical (w.held.map (·.record.id)))
    | some entry => .ok { w with current := some entry }

end Etherfold
