import Etherfold.Store.WriterCalls

/-!
# A query against a store that moves

`executeQuery` reads the revert sequence, the tip and the block at the tip, lets
the resolvers read, and reads the tip and the sequence again. The store is
written meanwhile. A timeline gives the store at every moment, and every read
has a moment of its own.

* `QueryStore.timeline`: the store at each moment, from the calls committed.
* `Operation`: what the resolvers ask, given what was answered before.
* `executeQuery`: two attempts, each of them answered or torn.
-/

namespace Etherfold

open Versions

variable {X H C Q P E D : Type}

/-- A store as the query layer reads it. -/
structure QueryStore (X H C : Type) where
  state : EntityStore X H C
  /-- How many times the store reverted. -/
  sequence : ℕ

namespace QueryStore

def tip (s : QueryStore X H C) : Option ℕ := s.state.tip

/-- Whether the store answers as-of reads: its capability. -/
def asOf (s : QueryStore X H C) : Bool := decide (s.state.provided ≠ .revertOnly)

/-- The block recorded at a height. -/
def blockAt (s : QueryStore X H C) (number : ℕ) : Option (BlockPointer H) :=
  s.state.blocks.find? (·.number = number)

variable [DecidableEq H]

/-- The recorded block a hash names. -/
def blockOf (s : QueryStore X H C) (hash : H) : Option (BlockPointer H) := s.state.blocks.find? (·.hash = hash)

/-- One committed call. A revert and its count are one step. -/
def commit (declarations : List NormalizedEntity) (s : QueryStore X H C) (call : StoreCall X H C) :
    QueryStore X H C :=
  ⟨EntityStore.perform declarations s.state call,
    match call with
    | .revertTo _ => s.sequence + 1
    | .applyBlock _ | .writeCursor _ _ => s.sequence⟩

/-- **The store at every moment.** Between two moments one call is committed, or none. -/
def timeline (declarations : List NormalizedEntity) (s₀ : QueryStore X H C) (calls : ℕ → Option (StoreCall X H C)) :
    ℕ → QueryStore X H C
  | 0 => s₀
  | n + 1 =>
    let s := timeline declarations s₀ calls n
    match calls n with
    | none => s
    | some call => s.commit declarations call

end QueryStore

/-- What a key reads at a height, or at the tip. -/
def viewAt (s : EntityStore X H C) (height : Option ℕ) (key : EntityKey) : Option (Record X) :=
  match height with
  | none => (current (versionsOf s.rows key)).map (·.values)
  | some k => (Versions.asOf k (versionsOf s.rows key)).map (·.values)

/-- A backend's accessor, as far as the query layer goes: a page is read from what the keys
hold at a height, or the query is refused. -/
structure Accessor (X H C Q P E : Type) where
  page : (EntityKey → Option (Record X)) → Q → P
  refuses : EntityStore X H C → Option ℕ → Q → Option E

/-- Why a field is answered with an error. -/
inductive QueryRefusal (E : Type) where
  | invalidQuery (block : ℤ)
  | invalidHash
  | blockNotRecorded (hash : String)
  | blockNotYetIndexed (requested : ℤ) (pinned : Option ℕ)
  | noParent
  | notRetained (error : ReadError)
  | backend (error : E)
  deriving DecidableEq, Repr

/-- One read of an accessor: the retention is checked on the store at one moment, the rows are
read from the store at another. -/
def Accessor.read (accessor : Accessor X H C Q P E) (checked rows : EntityStore X H C) (height : Option ℕ)
    (query : Q) : Except (QueryRefusal E) P := do
  match height with
  | none => pure ()
  | some k => (assertRetained checked.provided k checked.tip).mapError .notRetained
  match accessor.refuses rows height query with
  | some e => .error (.backend e)
  | none => pure (accessor.page (viewAt rows height) query)

/-- A root field's `block` argument. -/
inductive BlockAddressArg where
  | number (number : ℤ)
  | hash (hash : String)
  deriving DecidableEq, Repr

/-- What an operation's resolvers ask. A root field names its block or none; a nested
collection is asked for rows of an earlier read, which is named by its place. -/
inductive Operation (Q P E D : Type) where
  | answered (data : D)
  | find (block : Option BlockAddressArg) (query : Q) (next : Except (QueryRefusal E) P → Operation Q P E D)
  | children (parents : ℕ) (query : Q) (next : Except (QueryRefusal E) P → Operation Q P E D)

/-- Where a read got its block from. -/
inductive Origin where
  | root (block : Option BlockAddressArg)
  | child (parents : ℕ)
  deriving DecidableEq, Repr

/-- A read that took place: what was asked, and the page with the block it was read at. -/
structure Read (Q P E : Type) where
  origin : Origin
  query : Q
  answer : Except (QueryRefusal E) (Option ℕ × P)

/-- What an operation is answered from. The store spells a hash before it looks it up. -/
structure QueryContext (X H C Q P E : Type) where
  accessor : Accessor X H C Q P E
  generation : String
  asOf : Bool
  normalizeBlockHash : String → Option H

/-- One attempt's reads, pinned to the tip the attempt began with. -/
structure OperationReads where
  tip : Option ℕ
  asOf : Bool

namespace OperationReads

/-- A height at or below the pin. -/
def checkedHeight (reads : OperationReads) (block : ℤ) : Except (QueryRefusal E) ℕ :=
  if block < 0 then .error (.invalidQuery block)
  else
    match reads.tip with
    | none => .error (.blockNotYetIndexed block none)
    | some tip => if (tip : ℤ) < block then .error (.blockNotYetIndexed block (some tip)) else .ok block.toNat

variable [DecidableEq H]

/-- A hash as the height of the block the store recorded under it. -/
def resolveHash (normalizeBlockHash : String → Option H) (s : QueryStore X H C) (hash : String) :
    Except (QueryRefusal E) ℕ :=
  match normalizeBlockHash hash with
  | none => .error .invalidHash
  | some spelled =>
    match s.blockOf spelled with
    | none => .error (.blockNotRecorded hash)
    | some recorded => .ok recorded.number

/-- **The block a root field reads at**: the pin, or the field's own block. -/
def readAt (reads : OperationReads) (normalizeBlockHash : String → Option H) (s : QueryStore X H C) :
    Option BlockAddressArg → Except (QueryRefusal E) (Option ℕ)
  | none => .ok (if reads.asOf then reads.tip else none)
  | some (.number block) => (reads.checkedHeight block).map some
  | some (.hash hash) => do
    let block ← resolveHash normalizeBlockHash s hash
    (reads.checkedHeight block).map some

end OperationReads

/-- The moments of one read of a resolver: its hash resolved, its height checked, its rows read. -/
structure ReadMoments where
  resolved : ℕ
  checked : ℕ
  rows : ℕ

/-- The block a read is at. A nested collection reads where its parents were read. -/
def Origin.height [DecidableEq H] (context : QueryContext X H C Q P E) (reads : OperationReads) (s : QueryStore X H C)
    (done : List (Read Q P E)) : Origin → Except (QueryRefusal E) (Option ℕ)
  | .root block => reads.readAt context.normalizeBlockHash s block
  | .child parents =>
    match done[parents]? with
    | some ⟨_, _, .ok (height, _)⟩ => .ok height
    | _ => .error .noParent

/-- One read of a resolver, each part of it at its moment. -/
def resolve [DecidableEq H] (context : QueryContext X H C Q P E) (seen : ℕ → QueryStore X H C)
    (reads : OperationReads) (m : ReadMoments) (done : List (Read Q P E)) (origin : Origin) (query : Q) : Read Q P E :=
  ⟨origin, query, do
    let height ← origin.height context reads (seen m.resolved) done
    let page ← context.accessor.read (seen m.checked).state (seen m.rows).state height query
    pure (height, page)⟩

/-- The resolvers run to the end: the data, and every read that took place. -/
def Operation.run [DecidableEq H] (context : QueryContext X H C Q P E) (seen : ℕ → QueryStore X H C)
    (reads : OperationReads) (moments : ℕ → ReadMoments) (done : List (Read Q P E)) :
    Operation Q P E D → D × List (Read Q P E)
  | .answered data => (data, done)
  | .find block query next =>
    let read := resolve context seen reads (moments done.length) done (.root block) query
    (next (read.answer.map (·.2))).run context seen reads moments (done ++ [read])
  | .children parents query next =>
    let read := resolve context seen reads (moments done.length) done (.child parents) query
    (next (read.answer.map (·.2))).run context seen reads moments (done ++ [read])

/-- **The moments of one attempt**: the sequence first, then the tip and the block there, the
resolvers in any order among themselves, the tip again, and the sequence last. -/
structure Attempt where
  sequenceAtStart : ℕ
  started : ℕ
  pin : ℕ
  reads : ℕ → ReadMoments
  ended : ℕ
  sequenceAtEnd : ℕ
  sequence_le : sequenceAtStart ≤ started
  started_le : started ≤ pin
  reads_le : ∀ n, (pin ≤ (reads n).resolved ∧ (reads n).resolved ≤ ended) ∧
    (pin ≤ (reads n).checked ∧ (reads n).checked ≤ ended) ∧ pin ≤ (reads n).rows ∧ (reads n).rows ≤ ended
  ended_le : ended ≤ sequenceAtEnd

/-- What an answer reports beside the data. -/
structure QueryExtensions (H : Type) where
  generation : String
  block : Option ℕ
  blockHash : Option H
  deriving DecidableEq, Repr

/-- An answer with data. The reads are kept to say where the data came from. -/
structure QueryResult (H Q P E D : Type) where
  data : D
  extensions : QueryExtensions H
  reads : List (Read Q P E)

/-- The refusal after two torn attempts. -/
structure TipMovedDuringOperation where
  reverted : Bool
  started : Option ℕ
  ended : Option ℕ
  deriving DecidableEq, Repr

/-- Pinned by block, only a tip below the pin tears an operation; read at the tip, any move does. -/
def tornBetween (started ended : Option ℕ) (asOf : Bool) : Bool :=
  match asOf, started with
  | true, some pin =>
    match ended with
    | none => true
    | some tip => tip < pin
  | _, _ => ended ≠ started

def extensionsOf (generation : String) (pin : Option (BlockPointer H)) : QueryExtensions H :=
  ⟨generation, pin.map (·.number), pin.map (·.hash)⟩

/-- **One attempt**: an answer, or how it was torn. -/
def attempt [DecidableEq H] (context : QueryContext X H C Q P E) (seen : ℕ → QueryStore X H C)
    (operation : Operation Q P E D) (m : Attempt) : Except TipMovedDuringOperation (QueryResult H Q P E D) :=
  let started := (seen m.started).tip
  let pin := started.bind (seen m.pin).blockAt
  -- the tip's block went between the two reads: nothing is read
  if started.isSome && pin.isNone then .error ⟨true, started, (seen m.ended).tip⟩
  else
    let executed := operation.run context seen ⟨started, context.asOf⟩ m.reads []
    let ended := (seen m.ended).tip
    let reverted : Bool := (seen m.sequenceAtEnd).sequence ≠ (seen m.sequenceAtStart).sequence
    if !reverted && !tornBetween started ended context.asOf then
      .ok ⟨executed.1, extensionsOf context.generation pin, executed.2⟩
    else .error ⟨reverted, started, ended⟩

/-- **Run one operation, pinned to one block.** A torn attempt is run once more, pinned afresh. -/
def executeQuery [DecidableEq H] (context : QueryContext X H C Q P E) (seen : ℕ → QueryStore X H C)
    (operation : Operation Q P E D) (first second : Attempt) :
    Except TipMovedDuringOperation (QueryResult H Q P E D) :=
  match attempt context seen operation first with
  | .ok answer => .ok answer
  | .error _ => attempt context seen operation second

end Etherfold
