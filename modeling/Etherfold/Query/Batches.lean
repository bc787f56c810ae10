import Etherfold.Accessor.Plan
import Etherfold.Engine.TaggedBigInt

/-!
# The batched reads of an operation

A nested collection asked for under many parents in one pass is one `children` call. The first one
to ask schedules the call for the end of the turn; whoever asks the same question until then joins
it, and each is handed the page of its own parent when the answer arrives. Turns, calls and answers
interleave as they like.

* `batchKey`, `batchKey_eq_iff`: the text two questions are compared by, and **which questions share
  one**.
* `BatchedReads`: the state, with `children`, `flush` and `answer`.
* `settled_once`: **whoever asks is answered once**, with the page of its own parent in the answer to
  its own question, or with the error of that call.
* `batched_alike`: a batch is not seen by those in it.
* `one_turn`: **what is asked in one turn is one call for each question**.
-/

namespace Etherfold

/-! ### The key of a question -/

/-- A nested collection's selection, everything but its parents. -/
structure ChildrenSelection extends Selection where
  entity : String
  relation : String

/-- A piece of the text a question is printed as. -/
inductive KeyToken where
  | null
  | text (text : Text)
  | name (name : String)
  | number (value : ℚ)
  | whole (value : ℤ)
  | flag (value : Bool)
  | comparison (op : ComparisonOperator)
  | direction (direction : OrderDirection)
  | openAnd
  | openOr
  | openIn
  | openIsNull
  | close
  deriving DecidableEq, Repr

/-- An operand as it is printed: what JSON cannot hold is spelled as a text, and a number that is not
finite is null. -/
def Operand.respell : Operand → Operand
  | .bigint value => .text (codeUnits "bigint:" ++ bigintText value)
  | .bytes data => .text (codeUnits "bytes:" ++ (List.intersperse [44] (data.map fun b => decimalText b.toNat)).flatten)
  | .other => .null
  | operand => operand

def operandToken (operand : Operand) : KeyToken :=
  match operand.respell with
  | .text text => .text text
  | .number value => .number value
  | _ => .null

mutual

/-- A predicate as it is printed. -/
def whereTokens : Where → List KeyToken
  | .and parts => .openAnd :: partTokens parts
  | .or parts => .openOr :: partTokens parts
  | .compare field op value => [.comparison op, .name field, operandToken value]
  | .isIn field values => .openIn :: .name field :: (values.map operandToken ++ [.close])
  | .isNull field value => [.openIsNull, .name field, .flag value]

def partTokens : List Where → List KeyToken
  | [] => [.close]
  | part :: parts => whereTokens part ++ partTokens parts

end

/-- An order as it is printed. -/
def orderTokens : Option OrderBy → List KeyToken
  | none => [.null]
  | some orderBy => [.name orderBy.field, (orderBy.direction.map KeyToken.direction).getD .null]

/-- **The key of a question.** An absent member is null. -/
def batchKey (query : ChildrenSelection) : List KeyToken :=
  [.name query.entity, .name query.relation] ++ ((query.selected.map whereTokens).getD [.null] ++
    (orderTokens query.orderBy ++ [.whole query.limit, (query.height.map KeyToken.whole).getD .null]))

mutual

/-- A predicate with its operands as they are printed. -/
def Where.respell : Where → Where
  | .and parts => .and (respellParts parts)
  | .or parts => .or (respellParts parts)
  | .compare field op value => .compare field op value.respell
  | .isIn field values => .isIn field (values.map Operand.respell)
  | .isNull field value => .isNull field value

def respellParts : List Where → List Where
  | [] => []
  | part :: parts => part.respell :: respellParts parts

end

/-- The operand a piece of the text reads back as. -/
def KeyToken.operand : KeyToken → Operand
  | .text spelling => .text spelling
  | .number value => .number value
  | _ => .null

theorem operand_operandToken (operand : Operand) : (operandToken operand).operand = operand.respell := by
  cases operand <;> rfl

theorem operandToken_inj {operand operand' : Operand} (h : operandToken operand = operandToken operand') :
    operand.respell = operand'.respell := by
  rw [← operand_operandToken, ← operand_operandToken, h]

@[simp] theorem respell_respell (operand : Operand) : operand.respell.respell = operand.respell := by
  cases operand <;> rfl

/-- No predicate starts where a list of them ends. -/
theorem whereTokens_ne_close (w : Where) (rest rest' : List KeyToken) : whereTokens w ++ rest ≠ .close :: rest' := by
  cases w <;> simp [whereTokens]

theorem operandTokens_inj : ∀ (values values' : List Operand) {rest rest' : List KeyToken},
    values.map operandToken ++ .close :: rest = values'.map operandToken ++ .close :: rest' →
      values.map Operand.respell = values'.map Operand.respell ∧ rest = rest'
  | [], [], _, _, h => ⟨rfl, (List.cons.inj h).2⟩
  | [], value :: values, _, _, h => by
    have hhead := (List.cons.inj h).1
    unfold operandToken at hhead
    split at hhead <;> cases hhead
  | value :: values, [], _, _, h => by
    have hhead := (List.cons.inj h).1
    unfold operandToken at hhead
    split at hhead <;> cases hhead
  | value :: values, value' :: values', _, _, h => by
    obtain ⟨hhead, htail⟩ := List.cons.inj h
    obtain ⟨hvalues, hrest⟩ := operandTokens_inj values values' htail
    exact ⟨by rw [List.map_cons, List.map_cons, operandToken_inj hhead, hvalues], hrest⟩

mutual

/-- **A printed predicate can be read back**, with its operands as they are printed. -/
theorem whereTokens_inj : ∀ (w w' : Where) {rest rest' : List KeyToken},
    whereTokens w ++ rest = whereTokens w' ++ rest' → w.respell = w'.respell ∧ rest = rest'
  | .and parts, .and parts', _, _, h => by
    rw [whereTokens, whereTokens, List.cons_append, List.cons_append] at h
    obtain ⟨hparts, hrest⟩ := partTokens_inj parts parts' (List.cons.inj h).2
    exact ⟨by rw [Where.respell, Where.respell, hparts], hrest⟩
  | .or parts, .or parts', _, _, h => by
    rw [whereTokens, whereTokens, List.cons_append, List.cons_append] at h
    obtain ⟨hparts, hrest⟩ := partTokens_inj parts parts' (List.cons.inj h).2
    exact ⟨by rw [Where.respell, Where.respell, hparts], hrest⟩
  | .compare field op value, .compare field' op' value', _, _, h => by
    simp only [whereTokens, List.cons_append, List.nil_append, List.cons.injEq, KeyToken.comparison.injEq,
      KeyToken.name.injEq] at h
    obtain ⟨rfl, rfl, hvalue, hrest⟩ := h
    exact ⟨by rw [Where.respell, Where.respell, operandToken_inj hvalue], hrest⟩
  | .isIn field values, .isIn field' values', _, _, h => by
    simp only [whereTokens, List.cons_append, List.append_assoc, List.nil_append, List.cons.injEq, KeyToken.name.injEq,
      true_and] at h
    obtain ⟨rfl, h⟩ := h
    obtain ⟨hvalues, hrest⟩ := operandTokens_inj values values' h
    exact ⟨by rw [Where.respell, Where.respell, hvalues], hrest⟩
  | .isNull field value, .isNull field' value', _, _, h => by
    simp only [whereTokens, List.cons_append, List.nil_append, List.cons.injEq, KeyToken.name.injEq, KeyToken.flag.injEq,
      true_and] at h
    obtain ⟨rfl, rfl, hrest⟩ := h
    exact ⟨rfl, hrest⟩
  | .and _, .or _, _, _, h | .and _, .compare .., _, _, h | .and _, .isIn .., _, _, h | .and _, .isNull .., _, _, h
  | .or _, .and _, _, _, h | .or _, .compare .., _, _, h | .or _, .isIn .., _, _, h | .or _, .isNull .., _, _, h
  | .compare .., .and _, _, _, h | .compare .., .or _, _, _, h | .compare .., .isIn .., _, _, h
  | .compare .., .isNull .., _, _, h | .isIn .., .and _, _, _, h | .isIn .., .or _, _, _, h
  | .isIn .., .compare .., _, _, h | .isIn .., .isNull .., _, _, h | .isNull .., .and _, _, _, h
  | .isNull .., .or _, _, _, h | .isNull .., .compare .., _, _, h | .isNull .., .isIn .., _, _, h => by
    simp [whereTokens] at h

theorem partTokens_inj : ∀ (parts parts' : List Where) {rest rest' : List KeyToken},
    partTokens parts ++ rest = partTokens parts' ++ rest' → respellParts parts = respellParts parts' ∧ rest = rest'
  | [], [], _, _, h => ⟨rfl, (List.cons.inj h).2⟩
  | [], part :: parts, _, _, h => by
    rw [partTokens, partTokens, List.append_assoc] at h
    exact absurd h.symm (whereTokens_ne_close _ _ _)
  | part :: parts, [], _, _, h => by
    rw [partTokens, partTokens, List.append_assoc] at h
    exact absurd h (whereTokens_ne_close _ _ _)
  | part :: parts, part' :: parts', _, _, h => by
    rw [partTokens, partTokens, List.append_assoc, List.append_assoc] at h
    obtain ⟨hpart, hrest⟩ := whereTokens_inj part part' h
    obtain ⟨hparts, hrest⟩ := partTokens_inj parts parts' hrest
    exact ⟨by rw [respellParts, respellParts, hpart, hparts], hrest⟩

end

/-- A question as it is printed. -/
def ChildrenSelection.respell (query : ChildrenSelection) : ChildrenSelection :=
  { query with selected := query.selected.map Where.respell }

theorem orderTokens_inj {orderBy orderBy' : Option OrderBy} {rest rest' : List KeyToken}
    (h : orderTokens orderBy ++ rest = orderTokens orderBy' ++ rest') : orderBy = orderBy' ∧ rest = rest' := by
  obtain _ | ⟨field, _ | direction⟩ := orderBy <;> obtain _ | ⟨field', _ | direction'⟩ := orderBy' <;>
    simp only [orderTokens] at h <;> grind

theorem respell_inj_tokens {operand operand' : Operand} (h : operand.respell = operand'.respell) :
    operandToken operand = operandToken operand' := by
  unfold operandToken
  rw [h]

mutual

theorem whereTokens_respell : ∀ w : Where, whereTokens w.respell = whereTokens w
  | .and parts => by rw [Where.respell, whereTokens, whereTokens, partTokens_respell parts]
  | .or parts => by rw [Where.respell, whereTokens, whereTokens, partTokens_respell parts]
  | .compare field op value => by
    rw [Where.respell, whereTokens, whereTokens, respell_inj_tokens (respell_respell value)]
  | .isIn field values => by
    rw [Where.respell, whereTokens, whereTokens, List.map_map]
    simp only [Function.comp_def, respell_inj_tokens (respell_respell _)]
  | .isNull field value => by rw [Where.respell]

theorem partTokens_respell : ∀ parts : List Where, partTokens (respellParts parts) = partTokens parts
  | [] => rfl
  | part :: parts => by rw [respellParts, partTokens, partTokens, whereTokens_respell part, partTokens_respell parts]

end

theorem selectedTokens_inj {selected selected' : Option Where} {rest rest' : List KeyToken}
    (h : (selected.map whereTokens).getD [.null] ++ rest = (selected'.map whereTokens).getD [.null] ++ rest') :
    selected.map Where.respell = selected'.map Where.respell ∧ rest = rest' := by
  cases selected with
  | none =>
    cases selected' with
    | none => exact ⟨rfl, (List.cons.inj h).2⟩
    | some w => cases w <;> simp [whereTokens] at h
  | some w =>
    cases selected' with
    | none => cases w <;> simp [whereTokens] at h
    | some w' =>
      obtain ⟨hw, hrest⟩ := whereTokens_inj w w' h
      exact ⟨congrArg some hw, hrest⟩

/-- **Which questions share a key**: those that are one once a big integer and bytes are spelled as
texts. -/
theorem batchKey_eq_iff {query query' : ChildrenSelection} :
    batchKey query = batchKey query' ↔ query.respell = query'.respell := by
  obtain ⟨⟨selected, orderBy, limit, height⟩, entity, relation⟩ := query
  obtain ⟨⟨selected', orderBy', limit', height'⟩, entity', relation'⟩ := query'
  have hback : ∀ selected : Option Where,
      ((selected.map Where.respell).map whereTokens).getD [.null] = (selected.map whereTokens).getD [.null] := by
    intro selected
    cases selected with
    | none => rfl
    | some w => exact whereTokens_respell w
  constructor
  · intro h
    simp only [batchKey, List.cons_append, List.nil_append, List.cons.injEq, KeyToken.name.injEq] at h
    obtain ⟨rfl, rfl, h⟩ := h
    -- the predicate comes first, then the order, then two numbers
    obtain ⟨hselected, hrest⟩ := selectedTokens_inj h
    obtain ⟨rfl, hrest⟩ := orderTokens_inj hrest
    have hnumbers : limit = limit' ∧ height = height' := by
      cases height <;> cases height' <;> grind
    obtain ⟨rfl, rfl⟩ := hnumbers
    simp only [ChildrenSelection.respell, hselected]
  · intro h
    simp only [ChildrenSelection.respell, ChildrenSelection.mk.injEq, Selection.mk.injEq] at h
    obtain ⟨⟨hselected, rfl, rfl, rfl⟩, rfl, rfl⟩ := h
    simp only [batchKey]
    rw [← hback selected, ← hback selected', hselected]

/-! ### The reads -/

/-- A row as a resolver holds it: the accessor's row, and the height it was read as of. -/
structure ResolvedRow (X : Type) where
  values : Record X
  readAt : Option ℤ

/-- A call to be made for everyone who asked one question. -/
structure Batch where
  selection : ChildrenSelection
  parents : List EntityId
  waiters : List ℕ

/-- What a call answers: a page for each parent, or why it failed. -/
abbrev ChildrenAnswer (X E : Type) := Except E (List (List (Record X)))

variable {X E : Type}

/-- What one who asked is handed: the page at its place, with the height it was read as of. -/
def handed (selection : ChildrenSelection) (answer : ChildrenAnswer X E) (place : ℕ) : Except E (List (ResolvedRow X)) :=
  answer.map fun pages => (pages[place]?.getD []).map fun row => ⟨row, selection.height⟩

/-- The reads of an operation: the batches by their key, the flushes that are scheduled, the calls
that are made, how many have asked, and what was settled. -/
structure BatchedReads (X E : Type) where
  batches : List (List KeyToken × Batch)
  scheduled : List (List KeyToken)
  reading : List Batch
  asked : ℕ
  settled : List (ℕ × Except E (List (ResolvedRow X)))

namespace BatchedReads

/-- Nothing was asked. -/
def idle : BatchedReads X E := ⟨[], [], [], 0, []⟩

/-- **The children of one parent.** The first to ask a question schedules its flush. -/
def children (s : BatchedReads X E) (query : ChildrenSelection) (parent : EntityId) : BatchedReads X E :=
  let key := batchKey query
  match s.batches.lookup key with
  | none =>
    { s with
      batches := s.batches ++ [(key, ⟨query, [parent], [s.asked]⟩)]
      scheduled := s.scheduled ++ [key]
      asked := s.asked + 1 }
  | some _ =>
    { s with
      batches := s.batches.map fun entry =>
        if entry.1 = key then
          (entry.1, { entry.2 with parents := entry.2.parents ++ [parent], waiters := entry.2.waiters ++ [s.asked] })
        else entry
      asked := s.asked + 1 }

/-- **A flush.** The batch is taken out of the map, so whoever asks from now on starts another. -/
def flush (s : BatchedReads X E) (key : List KeyToken) : BatchedReads X E :=
  { s with
    batches := s.batches.filter (·.1 ≠ key)
    scheduled := s.scheduled.erase key
    reading := s.reading ++ ((s.batches.lookup key).map fun batch => [batch]).getD [] }

/-- **An answer.** Everyone in the batch is handed its page, or the error. -/
def answer (s : BatchedReads X E) (call : ℕ) (given : ChildrenAnswer X E) : BatchedReads X E :=
  match s.reading[call]? with
  | none => s
  | some batch =>
    { s with
      reading := s.reading.eraseIdx call
      settled := s.settled ++ batch.waiters.zipIdx.map fun waiter => (waiter.1, handed batch.selection given waiter.2) }

end BatchedReads

/-- A run. A flush is one that was scheduled, an answer is to a call that was made; each comes with
the questions asked before it, and with the answers given. -/
inductive ReadRun : BatchedReads X E → List (ChildrenSelection × EntityId) → List (Batch × ChildrenAnswer X E) → Prop
  | idle : ReadRun .idle [] []
  | children {s asked given} (query : ChildrenSelection) (parent : EntityId) : ReadRun s asked given →
      ReadRun (s.children query parent) (asked ++ [(query, parent)]) given
  | flush {s asked given key} : ReadRun s asked given → key ∈ s.scheduled → ReadRun (s.flush key) asked given
  | answer {s asked given call batch} (pages : ChildrenAnswer X E) : ReadRun s asked given →
      s.reading[call]? = some batch → ReadRun (s.answer call pages) asked (given ++ [(batch, pages)])

/-! ### What a run keeps -/

/-- A batch asks for the parents of those who wait in it, in their order, and each of them asked its
question. -/
structure Batch.Sound (asked : List (ChildrenSelection × EntityId)) (batch : Batch) : Prop where
  length : batch.parents.length = batch.waiters.length
  first : ∃ parent, (batch.selection, parent) ∈ asked
  own : ∀ i w : ℕ, batch.waiters[i]? = some w → ∃ query parent, asked[w]? = some (query, parent) ∧
    batch.parents[i]? = some parent ∧ batchKey query = batchKey batch.selection

theorem Batch.Sound.mono {asked more : List (ChildrenSelection × EntityId)} {batch : Batch} (h : batch.Sound asked) :
    batch.Sound (asked ++ more) := by
  obtain ⟨parent, hfirst⟩ := h.first
  refine ⟨h.length, ⟨parent, List.mem_append_left _ hfirst⟩, fun i w hw => ?_⟩
  obtain ⟨query, parent, hasked, hrest⟩ := h.own i w hw
  exact ⟨query, parent, by rw [List.getElem?_append_left (List.getElem?_eq_some_iff.1 hasked).1, hasked], hrest⟩

/-- One more joins a batch. -/
theorem Batch.Sound.join {asked : List (ChildrenSelection × EntityId)} {batch : Batch} {query : ChildrenSelection}
    {parent : EntityId} (h : batch.Sound asked) (hkey : batchKey query = batchKey batch.selection) :
    Batch.Sound (asked ++ [(query, parent)])
      { batch with parents := batch.parents ++ [parent], waiters := batch.waiters ++ [asked.length] } := by
  refine ⟨by simp [h.length], h.mono.first, fun i w hw => ?_⟩
  dsimp only at hw ⊢
  rcases lt_or_ge i batch.waiters.length with hi | hi
  · rw [List.getElem?_append_left hi] at hw
    obtain ⟨query', parent', hasked, hparent, hkey'⟩ := h.mono.own i w hw
    exact ⟨query', parent', hasked, by rw [List.getElem?_append_left (by rw [h.length]; exact hi), hparent], hkey'⟩
  · rw [List.getElem?_append_right hi] at hw
    obtain ⟨hzero, hw⟩ : i - batch.waiters.length = 0 ∧ w = asked.length := by
      have hlt := (List.getElem?_eq_some_iff.1 hw).1
      rw [List.length_singleton] at hlt
      have hzero : i - batch.waiters.length = 0 := by omega
      rw [hzero] at hw
      exact ⟨hzero, (Option.some.inj hw).symm⟩
    subst hw
    refine ⟨query, parent, by simp, ?_, hkey⟩
    rw [List.getElem?_append_right (by rw [h.length]; exact hi), h.length, hzero]
    rfl

/-- Everyone who waits in the batches, or for an answer. -/
def BatchedReads.waiting (s : BatchedReads X E) : List ℕ :=
  s.batches.flatMap (·.2.waiters) ++ s.reading.flatMap (·.waiters)

/-- **What a run keeps.** -/
structure BatchedReads.Ok (s : BatchedReads X E) (asked : List (ChildrenSelection × EntityId))
    (given : List (Batch × ChildrenAnswer X E)) : Prop where
  asked_eq : s.asked = asked.length
  scheduled : s.batches.map (·.1) = s.scheduled
  distinct : s.scheduled.Nodup
  batches : ∀ entry ∈ s.batches, entry.2.Sound asked ∧ batchKey entry.2.selection = entry.1
  reading : ∀ batch ∈ s.reading, batch.Sound asked
  answered : ∀ call ∈ given, call.1.Sound asked
  settled : ∀ waiter ∈ s.settled, ∃ call ∈ given, ∃ i : ℕ, call.1.waiters[i]? = some waiter.1 ∧
    waiter.2 = handed call.1.selection call.2 i
  once : (s.waiting ++ s.settled.map (·.1)).Perm (List.range asked.length)

variable {s : BatchedReads X E} {asked : List (ChildrenSelection × EntityId)}
  {given : List (Batch × ChildrenAnswer X E)}

theorem BatchedReads.ok_idle : (BatchedReads.idle : BatchedReads X E).Ok [] [] :=
  ⟨rfl, rfl, List.nodup_nil, by simp [idle], by simp [idle], by simp, by simp [idle], by simp [idle, waiting]⟩

/-- The batch of a key is in the map once. -/
theorem BatchedReads.Ok.lookup (h : s.Ok asked given) {key : List KeyToken} {batch : Batch}
    (hlookup : s.batches.lookup key = some batch) :
    ∃ front back, s.batches = front ++ (key, batch) :: back ∧ (∀ entry ∈ front, entry.1 ≠ key) ∧
      ∀ entry ∈ back, entry.1 ≠ key := by
  obtain ⟨front, back, hsplit, hfront⟩ := List.lookup_eq_some_iff.1 hlookup
  refine ⟨front, back, hsplit, fun entry hentry heq => ?_, fun entry hentry heq => ?_⟩
  · have hne := hfront entry hentry
    rw [heq, bne_self_eq_false] at hne
    cases hne
  · have hdistinct := h.distinct
    rw [← h.scheduled, hsplit, List.map_append, List.map_cons] at hdistinct
    have hcons := (List.nodup_append.1 hdistinct).2.1
    exact (List.nodup_cons.1 hcons).1 (List.mem_map.2 ⟨entry, hentry, heq⟩)

/-- **Asking.** -/
theorem BatchedReads.Ok.children (h : s.Ok asked given) (query : ChildrenSelection) (parent : EntityId) :
    (s.children query parent).Ok (asked ++ [(query, parent)]) given := by
  have hbatches : ∀ entry ∈ s.batches, entry.2.Sound (asked ++ [(query, parent)]) ∧
      batchKey entry.2.selection = entry.1 :=
    fun entry hentry => ⟨(h.batches entry hentry).1.mono, (h.batches entry hentry).2⟩
  have hreading : ∀ batch ∈ s.reading, batch.Sound (asked ++ [(query, parent)]) :=
    fun batch hb => (h.reading batch hb).mono
  have hanswered : ∀ call ∈ given, call.1.Sound (asked ++ [(query, parent)]) := fun call hc => (h.answered call hc).mono
  have hrange : List.range (asked ++ [(query, parent)]).length = List.range asked.length ++ [asked.length] := by
    rw [List.length_append, List.length_singleton, List.range_succ]
  have hnext : s.asked + 1 = (asked ++ [(query, parent)]).length := by simp [h.asked_eq]
  unfold BatchedReads.children
  dsimp only
  cases hlookup : s.batches.lookup (batchKey query) with
  | none =>
    -- the first to ask this question
    have hfresh : batchKey query ∉ s.scheduled := by
      rw [← h.scheduled, List.mem_map]
      rintro ⟨entry, hentry, heq⟩
      have hnone := List.lookup_eq_none_iff.1 hlookup entry hentry
      rw [heq, bne_self_eq_false] at hnone
      cases hnone
    refine ⟨hnext, ?_, ?_, fun entry hentry => ?_, hreading, hanswered, h.settled, ?_⟩
    · simp [h.scheduled]
    · exact List.nodup_append.2 ⟨h.distinct, List.nodup_singleton _, fun key hkey key' hkey' heq =>
        hfresh (List.mem_singleton.1 hkey' ▸ heq ▸ hkey)⟩
    · obtain hentry | hentry := List.mem_append.1 hentry
      · exact hbatches entry hentry
      · rw [List.mem_singleton.1 hentry]
        refine ⟨⟨rfl, ⟨parent, by simp⟩, fun i w hw => ?_⟩, rfl⟩
        obtain ⟨hi, hw⟩ := List.getElem?_eq_some_iff.1 hw
        have hi : i = 0 := Nat.lt_one_iff.1 hi
        subst hi
        refine ⟨query, parent, ?_, rfl, rfl⟩
        rw [← hw]
        simp [h.asked_eq]
    · rw [hrange]
      unfold BatchedReads.waiting
      simp only [List.flatMap_append, List.flatMap_singleton, List.append_assoc]
      have honce := h.once.append_right [asked.length]
      unfold BatchedReads.waiting at honce
      refine List.Perm.trans ?_ honce
      rw [h.asked_eq, List.append_assoc, List.append_assoc]
      exact (List.perm_append_comm.append_left _).trans (by simp)
  | some batch =>
    -- one more for a batch that is there
    obtain ⟨front, back, hsplit, hfront, hback⟩ := h.lookup hlookup
    have hmap : (s.batches.map fun entry => if entry.1 = batchKey query then
        (entry.1, { entry.2 with parents := entry.2.parents ++ [parent], waiters := entry.2.waiters ++ [s.asked] })
        else entry) = front ++ (batchKey query, { batch with
          parents := batch.parents ++ [parent], waiters := batch.waiters ++ [s.asked] }) :: back := by
      have hsame : ∀ l : List (List KeyToken × Batch), (∀ entry ∈ l, entry.1 ≠ batchKey query) →
          (l.map fun entry => if entry.1 = batchKey query then
            (entry.1, { entry.2 with parents := entry.2.parents ++ [parent], waiters := entry.2.waiters ++ [s.asked] })
            else entry) = l := fun l hl =>
        (List.map_congr_left fun entry hentry => if_neg (hl entry hentry)).trans (List.map_id l)
      rw [hsplit, List.map_append, List.map_cons, hsame front hfront, hsame back hback, if_pos rfl]
    refine ⟨hnext, ?_, h.distinct, fun entry hentry => ?_, hreading, hanswered, h.settled, ?_⟩
    · dsimp only
      rw [hmap, ← h.scheduled, hsplit]
      simp
    · dsimp only at hentry
      rw [hmap, List.mem_append, List.mem_cons] at hentry
      have hown := h.batches (batchKey query, batch) (by rw [hsplit]; simp)
      obtain hentry | rfl | hentry := hentry
      · exact hbatches entry (by rw [hsplit]; simp [hentry])
      · rw [h.asked_eq]
        exact ⟨hown.1.join hown.2.symm, hown.2⟩
      · exact hbatches entry (by rw [hsplit]; simp [hentry])
    · rw [hrange]
      have honce := h.once.append_right [asked.length]
      refine List.Perm.trans ?_ honce
      unfold BatchedReads.waiting
      dsimp only
      rw [hmap, hsplit, h.asked_eq]
      simp only [List.flatMap_append, List.flatMap_cons, List.append_assoc]
      refine List.Perm.append_left _ (List.Perm.append_left _ ?_)
      exact List.perm_append_comm.trans (by simp)

/-- A flush that is scheduled finds its batch. -/
theorem BatchedReads.Ok.found (h : s.Ok asked given) {key : List KeyToken} (hkey : key ∈ s.scheduled) :
    ∃ batch, s.batches.lookup key = some batch := by
  rw [← h.scheduled, List.mem_map] at hkey
  obtain ⟨entry, hentry, rfl⟩ := hkey
  cases hlookup : s.batches.lookup entry.1 with
  | some batch => exact ⟨batch, rfl⟩
  | none =>
    have hnone := List.lookup_eq_none_iff.1 hlookup entry hentry
    rw [bne_self_eq_false] at hnone
    cases hnone

/-- **A flush.** -/
theorem BatchedReads.Ok.flush (h : s.Ok asked given) {key : List KeyToken} (hkey : key ∈ s.scheduled) :
    (s.flush key).Ok asked given := by
  obtain ⟨batch, hlookup⟩ := h.found hkey
  obtain ⟨front, back, hsplit, hfront, hback⟩ := h.lookup hlookup
  have hleft : s.batches.filter (·.1 ≠ key) = front ++ back := by
    rw [hsplit, List.filter_append, List.filter_cons_of_neg (by simp), List.filter_eq_self.2, List.filter_eq_self.2]
    · exact fun entry hentry => decide_eq_true (hback entry hentry)
    · exact fun entry hentry => decide_eq_true (hfront entry hentry)
  unfold BatchedReads.flush
  rw [hlookup]
  refine ⟨h.asked_eq, ?_, h.distinct.erase key, fun entry hentry => ?_, fun b hb => ?_, h.answered, h.settled, ?_⟩
  · dsimp only
    rw [hleft, ← h.scheduled, hsplit, List.map_append, List.map_append, List.map_cons, List.erase_append_right,
      List.erase_cons_head]
    rintro hmem
    obtain ⟨entry, hentry, heq⟩ := List.mem_map.1 hmem
    exact hfront entry hentry heq
  · exact h.batches entry (List.mem_of_mem_filter hentry)
  · obtain hb | hb := List.mem_append.1 hb
    · exact h.reading b hb
    · rw [List.mem_singleton.1 hb]
      exact (h.batches (key, batch) (by rw [hsplit]; simp)).1
  · refine List.Perm.trans ?_ h.once
    unfold BatchedReads.waiting
    dsimp only
    rw [hleft, hsplit]
    simp only [Option.map_some, Option.getD_some, List.flatMap_append, List.flatMap_cons, List.flatMap_nil,
      List.append_nil, List.append_assoc]
    refine List.Perm.append_left _ ?_
    -- those who waited in the batch now wait for its answer
    rw [← List.append_assoc, ← List.append_assoc, ← List.append_assoc, ← List.append_assoc]
    refine List.Perm.append_right _ ?_
    rw [List.append_assoc batch.waiters]
    exact List.perm_append_comm

/-- **An answer.** -/
theorem BatchedReads.Ok.answer (h : s.Ok asked given) {call : ℕ} {batch : Batch} (hcall : s.reading[call]? = some batch)
    (pages : ChildrenAnswer X E) : (s.answer call pages).Ok asked (given ++ [(batch, pages)]) := by
  obtain ⟨hlt, hget⟩ := List.getElem?_eq_some_iff.1 hcall
  have hbatch : batch.Sound asked := h.reading batch (hget ▸ List.getElem_mem hlt)
  unfold BatchedReads.answer
  rw [hcall]
  refine ⟨h.asked_eq, h.scheduled, h.distinct, h.batches, fun b hb => h.reading b (List.mem_of_mem_eraseIdx hb),
    fun c hc => ?_, fun waiter hw => ?_, ?_⟩
  · obtain hc | hc := List.mem_append.1 hc
    · exact h.answered c hc
    · rw [List.mem_singleton.1 hc]
      exact hbatch
  · obtain hw | hw := List.mem_append.1 hw
    · obtain ⟨c, hc, hrest⟩ := h.settled waiter hw
      exact ⟨c, List.mem_append_left _ hc, hrest⟩
    · obtain ⟨place, hplace, rfl⟩ := List.mem_map.1 hw
      refine ⟨(batch, pages), by simp, place.2, ?_, rfl⟩
      exact (List.mem_zipIdx_iff_getElem?.1 hplace)
  · refine List.Perm.trans ?_ h.once
    unfold BatchedReads.waiting
    dsimp only
    have hnames : (batch.waiters.zipIdx.map fun waiter =>
        (waiter.1, handed batch.selection pages waiter.2)).map (·.1) = batch.waiters := by
      rw [List.map_map]
      exact List.zipIdx_map_fst 0 batch.waiters
    have hperm : s.reading.Perm (batch :: s.reading.eraseIdx call) := by
      rw [← hget]
      exact (List.getElem_cons_eraseIdx_perm hlt).symm
    rw [List.map_append, hnames, List.append_assoc, List.append_assoc]
    refine List.Perm.append_left _ ?_
    have hflat := (hperm.flatMap_right (·.waiters)).append_right (s.settled.map (·.1))
    refine List.Perm.trans ?_ hflat.symm
    rw [List.flatMap_cons, ← List.append_assoc]
    exact List.perm_append_comm.trans (by simp)

theorem ReadRun.ok (run : ReadRun s asked given) : s.Ok asked given := by
  induction run with
  | idle => exact BatchedReads.ok_idle
  | children query parent _ ih => exact ih.children query parent
  | flush _ hkey ih => exact ih.flush hkey
  | answer pages _ hcall ih => exact ih.answer hcall pages

/-- **Whoever asks is answered once**: with the page at the place of its own parent, in the answer to a
call for its own question, or with the error of that call; and once no flush is scheduled and no call
is out, everyone was. -/
theorem settled_once (run : ReadRun s asked given) :
    (s.settled.map (·.1)).Nodup ∧
    (∀ waiter ∈ s.settled, ∃ query parent, asked[waiter.1]? = some (query, parent) ∧
      ∃ call ∈ given, ∃ i : ℕ, call.1.parents[i]? = some parent ∧ batchKey query = batchKey call.1.selection ∧
        waiter.2 = handed call.1.selection call.2 i) ∧
    (s.scheduled = [] → s.reading = [] → ∀ w < asked.length, w ∈ s.settled.map (·.1)) := by
  have h := run.ok
  have hnodup := h.once.nodup_iff.2 List.nodup_range
  refine ⟨(List.nodup_append.1 hnodup).2.1, fun waiter hw => ?_, fun hscheduled hreading w hw => ?_⟩
  · obtain ⟨call, hcall, i, hplace, houtcome⟩ := h.settled waiter hw
    obtain ⟨query, parent, hasked, hparent, hkey⟩ := (h.answered call hcall).own i waiter.1 hplace
    exact ⟨query, parent, hasked, call, hcall, i, hparent, hkey, houtcome⟩
  · have hbatches : s.batches = [] := by
      rw [← h.scheduled, List.map_eq_nil_iff] at hscheduled
      exact hscheduled
    have hmem := h.once.mem_iff.2 (List.mem_range.2 hw)
    unfold BatchedReads.waiting at hmem
    rw [hbatches, hreading] at hmem
    simpa using hmem

/-- **A batch is not seen by those in it.** Where a call is answered with each parent's page, and no two
questions differ in the spelling of an operand alone, whoever is not handed an error is handed what
it would have been alone. -/
theorem batched_alike {pageOf : ChildrenSelection → EntityId → List (Record X)} (run : ReadRun s asked given)
    (hpages : ∀ call ∈ given, ∀ pages, call.2 = .ok pages → pages = call.1.parents.map (pageOf call.1.selection))
    (hplain : ∀ a ∈ asked, ∀ b ∈ asked, a.1.respell = b.1.respell → a.1 = b.1) :
    ∀ waiter ∈ s.settled, ∀ rows, waiter.2 = .ok rows → ∃ query parent, asked[waiter.1]? = some (query, parent) ∧
      rows = (pageOf query parent).map fun row => ⟨row, query.height⟩ := by
  intro waiter hw rows hrows
  obtain ⟨query, parent, hasked, call, hcall, i, hparent, hkey, houtcome⟩ := (settled_once run).2.1 waiter hw
  -- the call was for the very question
  obtain ⟨parent', hfirst⟩ := (run.ok.answered call hcall).first
  have hquery : query = call.1.selection :=
    hplain (query, parent) (List.mem_of_getElem? hasked) _ hfirst (batchKey_eq_iff.1 hkey)
  refine ⟨query, parent, hasked, ?_⟩
  rw [houtcome] at hrows
  cases hanswer : call.2 with
  | error e =>
    rw [hanswer] at hrows
    cases hrows
  | ok pages =>
    rw [hanswer, hpages call hcall pages hanswer] at hrows
    obtain rfl := Except.ok.inj hrows
    dsimp only
    rw [List.getElem?_map, hparent, ← hquery]
    rfl

/-- What two coins were spent on, as of block 2. -/
def spendingsOf : ChildrenSelection := ⟨⟨none, none, 10, some 2⟩, "coin", "spendings"⟩

/-- A page with one row for the second coin. -/
def spendingPages (query : ChildrenSelection) (parent : EntityId) : List (Record Unit) :=
  if query.entity = "coin" ∧ parent = [("id", [66])] then [[("id", .text [66])]] else []

/-- Two coins ask, the batch is flushed, and the answer arrives. -/
def coinsAsked : BatchedReads Unit Unit :=
  (((BatchedReads.idle.children spendingsOf [("id", [65])]).children spendingsOf [("id", [66])]).flush
    (batchKey spendingsOf)).answer 0 (.ok [[], [[("id", .text [66])]]])

theorem readRun_coinsAsked : ReadRun coinsAsked [(spendingsOf, [("id", [65])]), (spendingsOf, [("id", [66])])]
    [(⟨spendingsOf, [[("id", [65])], [("id", [66])]], [0, 1]⟩, .ok [[], [[("id", .text [66])]]])] :=
  .answer _ (.flush (.children _ _ (.children _ _ .idle)) (by decide)) rfl

theorem settled_once_coinsAsked : 1 ∈ coinsAsked.settled.map (·.1) :=
  (settled_once readRun_coinsAsked).2.2 rfl rfl 1 (by decide)

theorem batched_alike_coinsAsked :
    ∃ query parent, ([(spendingsOf, [("id", [65])]), (spendingsOf, [("id", [66])])] :
        List (ChildrenSelection × EntityId))[1]? = some (query, parent) ∧
      ([⟨[("id", .text [66])], some 2⟩] : List (ResolvedRow Unit)) =
        (spendingPages query parent).map fun row => ⟨row, query.height⟩ := by
  refine batched_alike readRun_coinsAsked (fun call hcall pages hpages => ?_) (fun a ha b hb _ => ?_)
    (1, .ok [⟨[("id", .text [66])], some 2⟩]) ?_ _ rfl
  · rw [List.mem_singleton.1 hcall] at hpages ⊢
    cases hpages
    decide
  · rw [List.mem_pair] at ha hb
    obtain rfl | rfl := ha <;> obtain rfl | rfl := hb <;> rfl
  · have hsettled : coinsAsked.settled = [(0, .ok []), (1, .ok [⟨[("id", .text [66])], some 2⟩])] := rfl
    rw [hsettled]
    exact List.mem_cons_of_mem _ (List.mem_singleton_self _)

/-! ### One turn -/

/-- The questions of one turn, asked one after another. -/
def BatchedReads.ask (s : BatchedReads X E) (asks : List (ChildrenSelection × EntityId)) : BatchedReads X E :=
  asks.foldl (fun s a => s.children a.1 a.2) s

theorem lookup_update {K B : Type} [BEq K] [LawfulBEq K] [DecidableEq K] (l : List (K × B)) (k key : K) (f : B → B) :
    (l.map fun entry => if entry.1 = k then (entry.1, f entry.2) else entry).lookup key =
      (l.lookup key).map fun b => if key = k then f b else b := by
  induction l with
  | nil => rfl
  | cons entry l ih =>
    obtain ⟨k', b⟩ := entry
    rw [List.map_cons]
    by_cases hk : k' = k
    · rw [if_pos hk, List.lookup_cons, List.lookup_cons]
      by_cases hkey : key = k'
      · simp [hkey, hk]
      · rw [beq_eq_false_iff_ne.2 hkey]
        exact ih
    · rw [if_neg hk, List.lookup_cons, List.lookup_cons]
      by_cases hkey : key = k'
      · simp [hkey, hk]
      · rw [beq_eq_false_iff_ne.2 hkey]
        exact ih

/-- Who a key's batch is for, after one more question. -/
theorem BatchedReads.parents_children (s : BatchedReads X E) (query : ChildrenSelection) (parent : EntityId)
    (key : List KeyToken) :
    ((s.children query parent).batches.lookup key).map (·.parents) =
      if key = batchKey query then some ((((s.batches.lookup key).map (·.parents)).getD []) ++ [parent])
      else (s.batches.lookup key).map (·.parents) := by
  unfold BatchedReads.children
  dsimp only
  cases hlookup : s.batches.lookup (batchKey query) with
  | none =>
    dsimp only
    rw [List.lookup_append]
    by_cases hkey : key = batchKey query
    · rw [if_pos hkey, hkey, hlookup]
      simp
    · have hother : (key == batchKey query) = false := beq_eq_false_iff_ne.2 hkey
      rw [if_neg hkey, List.lookup_cons, hother]
      simp
  | some batch =>
    dsimp only
    rw [lookup_update s.batches (batchKey query) key fun b =>
      { b with parents := b.parents ++ [parent], waiters := b.waiters ++ [s.asked] }]
    by_cases hkey : key = batchKey query
    · rw [if_pos hkey, hkey, hlookup]
      simp
    · simp [hkey]

theorem BatchedReads.ask_append (s : BatchedReads X E) (asks : List (ChildrenSelection × EntityId))
    (a : ChildrenSelection × EntityId) : s.ask (asks ++ [a]) = (s.ask asks).children a.1 a.2 :=
  List.foldl_append

/-- Who a key's batch is for, after a list of questions. -/
theorem BatchedReads.parents_ask (s : BatchedReads X E) (asks : List (ChildrenSelection × EntityId))
    (key : List KeyToken) :
    (((s.ask asks).batches.lookup key).map (·.parents)).getD [] =
      ((s.batches.lookup key).map (·.parents)).getD [] ++ (asks.filter fun a => batchKey a.1 = key).map (·.2) := by
  induction asks using List.reverseRecOn with
  | nil => exact (List.append_nil _).symm
  | append_singleton asks a ih =>
    rw [BatchedReads.ask_append, BatchedReads.parents_children, List.filter_append, List.map_append, ← List.append_assoc]
    by_cases hkey : key = batchKey a.1
    · rw [if_pos hkey, Option.getD_some, ih, List.filter_cons_of_pos (by simpa using hkey.symm)]
      rfl
    · rw [if_neg hkey, ih, List.filter_cons_of_neg (by simpa [eq_comm] using hkey)]
      simp

theorem ReadRun.ask (run : ReadRun s asked given) (asks : List (ChildrenSelection × EntityId)) :
    ReadRun (s.ask asks) (asked ++ asks) given := by
  induction asks using List.reverseRecOn with
  | nil => exact (List.append_nil asked).symm ▸ run
  | append_singleton asks a ih =>
    rw [BatchedReads.ask_append, ← List.append_assoc]
    exact ih.children a.1 a.2

/-- **What is asked in one turn is one call for each question**: no key is scheduled twice, and the
parents of a call are all that asked its question, in their order. -/
theorem one_turn (run : ReadRun s asked given) (hflushed : s.scheduled = [])
    (asks : List (ChildrenSelection × EntityId)) :
    (s.ask asks).scheduled.Nodup ∧
    ∀ key, (((s.ask asks).batches.lookup key).map (·.parents)).getD [] =
      (asks.filter fun a => batchKey a.1 = key).map (·.2) := by
  refine ⟨(run.ask asks).ok.distinct, fun key => ?_⟩
  have hbatches : s.batches = [] := by
    have hscheduled := run.ok.scheduled
    rw [hflushed, List.map_eq_nil_iff] at hscheduled
    exact hscheduled
  rw [BatchedReads.parents_ask, hbatches]
  rfl

/-- Both coins ask again, in the turn after they were answered. -/
theorem one_turn_coinsAsked :
    let again := coinsAsked.ask [(spendingsOf, [("id", [66])]), (spendingsOf, [("id", [65])])]
    again.scheduled.Nodup ∧
      ((again.batches.lookup (batchKey spendingsOf)).map (·.parents)).getD [] = [[("id", [66])], [("id", [65])]] := by
  intro again
  obtain ⟨hdistinct, hparents⟩ :=
    one_turn readRun_coinsAsked rfl [(spendingsOf, [("id", [66])]), (spendingsOf, [("id", [65])])]
  exact ⟨hdistinct, (hparents (batchKey spendingsOf)).trans (by decide)⟩

end Etherfold
