import Etherfold.Fetch.EventRanges

/-!
# Resolving argument filters against a source

A rule names an event, the contracts it is about, and what its logs have to look
like. It is resolved once, against everything the source declares, into the
instructions the planner takes.

* `deleteDuplicateEvents_spec`: **declaring an event twice loses none.**
* `Presents`: what the declarations of a source are, at its addresses or at none.
* `logEventFetcherOf_ok`: what the constructor makes of a source.
-/

namespace Etherfold

/-! ### Equal decoding shapes -/

mutual

def ParameterShape.deepEqual : ParameterShape → ParameterShape → Bool
  | .mk name type indexed components, .mk name' type' indexed' components' =>
    decide (name = name') && decide (type = type') && decide (indexed = indexed') &&
      componentsDeepEqual components components'

def componentsDeepEqual : Option (List ParameterShape) → Option (List ParameterShape) → Bool
  | none, none => true
  | some shapes, some shapes' => shapesDeepEqual shapes shapes'
  | _, _ => false

def shapesDeepEqual : List ParameterShape → List ParameterShape → Bool
  | [], [] => true
  | shape :: shapes, shape' :: shapes' => shape.deepEqual shape' && shapesDeepEqual shapes shapes'
  | _, _ => false

end

def DecodingShape.deepEqual (shape shape' : DecodingShape) : Bool :=
  decide (shape.anonymous = shape'.anonymous) && shapesDeepEqual shape.inputs shape'.inputs

mutual

theorem ParameterShape.deepEqual_iff : ∀ shape shape' : ParameterShape, shape.deepEqual shape' ↔ shape = shape'
  | .mk name type indexed components, .mk name' type' indexed' components' => by
    rw [ParameterShape.deepEqual, ParameterShape.mk.injEq, Bool.and_eq_true, Bool.and_eq_true, Bool.and_eq_true,
      componentsDeepEqual_iff components components']
    simp only [decide_eq_true_eq, and_assoc]

theorem componentsDeepEqual_iff :
    ∀ components components' : Option (List ParameterShape),
      componentsDeepEqual components components' ↔ components = components'
  | none, none => by simp [componentsDeepEqual]
  | some shapes, some shapes' => by
    rw [componentsDeepEqual, Option.some.injEq, shapesDeepEqual_iff shapes shapes']
  | none, some _ => by simp [componentsDeepEqual]
  | some _, none => by simp [componentsDeepEqual]

theorem shapesDeepEqual_iff :
    ∀ shapes shapes' : List ParameterShape, shapesDeepEqual shapes shapes' ↔ shapes = shapes'
  | [], [] => by simp [shapesDeepEqual]
  | shape :: shapes, shape' :: shapes' => by
    rw [shapesDeepEqual, Bool.and_eq_true, List.cons.injEq, ParameterShape.deepEqual_iff shape shape',
      shapesDeepEqual_iff shapes shapes']
  | [], _ :: _ => by simp [shapesDeepEqual]
  | _ :: _, [] => by simp [shapesDeepEqual]

end

theorem DecodingShape.deepEqual_iff (shape shape' : DecodingShape) : shape.deepEqual shape' ↔ shape = shape' := by
  obtain ⟨anonymous, inputs⟩ := shape
  obtain ⟨anonymous', inputs'⟩ := shape'
  rw [DecodingShape.mk.injEq]
  unfold DecodingShape.deepEqual
  rw [Bool.and_eq_true, shapesDeepEqual_iff, decide_eq_true_eq]

/-! ### Rules -/

/-- **One argument filter**: an event by name or by signature, the contracts it is about, and
the entries of its `match`, any of which a log may satisfy. -/
structure FilterRule (T : Type) where
  event : String
  contracts : Option (List String)
  entries : List (ArgumentFilter T)
  deriving Repr

/-- One event declaration as the source presents it: at an address, or at none. -/
structure SourceDeclaration (A : Type) where
  address : Option A
  event : AbiEvent
  deriving Repr

/-- Why a rule is refused, with what the refusal quotes. -/
inductive RuleRefusal (A T : Type) where
  | emptyMatch (event : String)
  | unconstrained (event : String) (isEmpty : Bool)
  | noAddressToScopeBy (event : String)
  | unknownSignature (event : String) (available declaredNames : List String)
  | anonymousOnly (event : String) (filterable : List String)
  | unknownEvent (event : String) (declaredNames : List String)
  | invalidAddress (address : Option String)
  | undeclaredAt (event : String) (address : A) (declaringHere : List A)
  | differentShapes (event : String) (topic0 : T) (shapes : ℕ)
  | tooDeep (event : String) (slots indexed : ℕ)
  deriving Repr

/-- What a rule reaches of one topic: where, and what its entries ask for there. -/
structure RuleReach (A T : Type) where
  topic0 : T
  requestScope : Option (List A)
  entries : List (ArgumentFilter T)
  deriving Repr

def isSignature (event : String) : Bool := event.toList.contains '('

/-- The name half of what a rule calls its event. -/
def nameOf (event : String) : String := String.ofList (event.toList.takeWhile (· ≠ '('))

def AbiParameter.isIndexed : AbiParameter → Bool
  | .mk _ _ indexed _ _ => indexed.getD false

/-- How many indexed arguments an event has, which is how deep an entry may go. -/
def indexedArgumentCount (event : AbiEvent) : ℕ := (event.inputs.filter (·.isIndexed)).length

section Resolve

variable {A T : Type} [DecidableEq A] [DecidableEq T] (s : Selectors T) (normalizeAddress : String → Option A)

/-- An event a rule names: an anonymous one carries no topic to filter by. -/
def wanted (rule : FilterRule T) (event : AbiEvent) : Bool :=
  !event.isAnonymous &&
    if isSignature rule.event then decide (s.toEventSignature event = rule.event) else decide (event.name = rule.event)

def addressLess (declarations : List (SourceDeclaration A)) : Bool := declarations.all (·.address.isNone)

def declaredNames (declarations : List (SourceDeclaration A)) : List String :=
  (declarations.map (·.event.name)).eraseDups

def signaturesOfName (declarations : List (SourceDeclaration A)) (name : String) : List String :=
  ((declarations.filter fun d => decide (d.event.name = name) && !d.event.isAnonymous).map
    fun d => s.toEventSignature d.event).eraseDups

/-- The addresses that declare a topic, in source order. -/
def declaringAddressesOf (declarations : List (SourceDeclaration A)) (topic0 : T) : List A :=
  ((declarations.filter fun d => decide (topic0Of s d.event = some topic0)).filterMap (·.address)).eraseDups

/-- A rule and its entries constrain something. -/
def assertConstrains (rule : FilterRule T) : Except (RuleRefusal A T) Unit :=
  if rule.entries.isEmpty then .error (.emptyMatch rule.event)
  else
    match rule.entries.find? fun entry => entry.isEmpty || entry.all (· = .wildcard) with
    | some entry => .error (.unconstrained rule.event entry.isEmpty)
    | none => .ok ()

/-- Why a rule that names no declared event is refused. -/
def unknownRefusal (declarations : List (SourceDeclaration A)) (event : String) : RuleRefusal A T :=
  if isSignature event then
    .unknownSignature event (signaturesOfName s declarations (nameOf event)) (declaredNames declarations)
  else if declarations.any fun d => decide (d.event.name = event) && d.event.isAnonymous then
    .anonymousOnly event
      ((declaredNames declarations).filter fun name => !(signaturesOfName s declarations name).isEmpty)
  else .unknownEvent event (declaredNames declarations)

/-- The addresses a rule is scoped to, each of which has to declare what it names. -/
def scopeAddressesOf (rule : FilterRule T) (candidates : List (SourceDeclaration A)) :
    Except (RuleRefusal A T) (Option (List A)) :=
  match rule.contracts with
  | none => .ok none
  | some contracts => do
    let scopeAddresses ← contracts.mapM fun address =>
      match normalizeAddress address with
      | some address => Except.ok address
      | none => .error (.invalidAddress (some address))
    let declaringHere := (candidates.filterMap (·.address)).eraseDups
    match scopeAddresses.find? (· ∉ declaringHere) with
    | some address => .error (.undeclaredAt rule.event address declaringHere)
    | none => .ok (some scopeAddresses)

/-- The candidates at the addresses of a scope. -/
def withinScope (scopeAddresses : Option (List A)) (candidates : List (SourceDeclaration A)) :
    List (SourceDeclaration A) :=
  match scopeAddresses with
  | none => candidates
  | some addresses => candidates.filter fun d => d.address.any (· ∈ addresses)

/-- The different decoding shapes among some declarations. -/
def shapesOf (declarations : List (SourceDeclaration A)) : List DecodingShape :=
  (declarations.map fun d => decodingShapeOf d.event).eraseDupsBy DecodingShape.deepEqual

/-- What a rule reaches of one topic of the declarations it is scoped to. -/
def reachOf (declarations inScope : List (SourceDeclaration A)) (rule : FilterRule T) (topic0 : T) :
    Except (RuleRefusal A T) (RuleReach A T) :=
  let here := inScope.filter fun d => decide (topic0Of s d.event = some topic0)
  if 1 < (shapesOf here).length then .error (.differentShapes rule.event topic0 (shapesOf here).length)
  else
    let indexed := ((here.head?).map fun d => indexedArgumentCount d.event).getD 0
    match rule.entries.find? fun entry => indexed < entry.length with
    | some entry => .error (.tooDeep rule.event entry.length indexed)
    | none =>
      .ok ⟨topic0, if addressLess declarations then none else some (here.filterMap (·.address)).eraseDups, rule.entries⟩

/-- **What one rule reaches**, or why it is refused. -/
def reachesOf (declarations : List (SourceDeclaration A)) (rule : FilterRule T) :
    Except (RuleRefusal A T) (List (RuleReach A T)) := do
  assertConstrains rule
  if rule.contracts.isSome && addressLess declarations then .error (.noAddressToScopeBy rule.event)
  else
    let candidates := declarations.filter fun d => wanted s rule d.event
    if candidates.isEmpty then .error (unknownRefusal s declarations rule.event)
    else
      let scopeAddresses ← scopeAddressesOf normalizeAddress rule candidates
      let inScope := withinScope scopeAddresses candidates
      let topic0sOfRule := (inScope.filterMap fun d => topic0Of s d.event).eraseDups
      topic0sOfRule.mapM (reachOf s declarations inScope rule)

/-- One request for each entry. -/
def RuleReach.filters (reach : RuleReach A T) : List (ExtraFilter A T) :=
  reach.entries.map (.matching reach.topic0 reach.requestScope ·)

/-- The addresses some rule covers a topic at. -/
def coveredAt (reaches : List (RuleReach A T)) (topic0 : T) : List A :=
  (reaches.filter fun reach => decide (reach.topic0 = topic0)).flatMap fun reach => reach.requestScope.getD []

/-- What a rule reached but did not cover is asked for unfiltered. -/
def leftoverFilters (declarations : List (SourceDeclaration A)) (reaches : List (RuleReach A T)) : List (ExtraFilter A T) :=
  if addressLess declarations then []
  else
    ((reaches.map (·.topic0)).eraseDups).filterMap fun topic0 =>
      let leftover := (declaringAddressesOf s declarations topic0).filter (· ∉ coveredAt reaches topic0)
      if leftover.isEmpty then none else some (.leftover topic0 (some leftover))

/-- **The authored rules as what the planner takes.** -/
def resolveFilterRules (rules : List (FilterRule T)) (declarations : List (SourceDeclaration A)) :
    Except (RuleRefusal A T) (List (ExtraFilter A T)) := do
  let reaches ← rules.mapM (reachesOf s normalizeAddress declarations)
  .ok (reaches.flatten.flatMap RuleReach.filters ++ leftoverFilters s declarations reaches.flatten)

/-! ### What a source fetches -/

/-- Declarations nothing on the wire tells apart. -/
structure AmbiguousAbi where
  signature : String
  declared : AbiEvent
  event : AbiEvent
  deriving Repr

/-- The events of a list once each, refusing one declared with two shapes where that list
decides what a log decodes as. -/
def deleteDuplicateEvents (refuseACollision : Bool) (kept : List AbiEvent) :
    List AbiEvent → Except AmbiguousAbi (List AbiEvent)
  | [] => .ok kept
  | event :: rest =>
    match kept.filter fun seen => decide (s.toEventSignature seen = s.toEventSignature event) with
    | [] => deleteDuplicateEvents refuseACollision (kept ++ [event]) rest
    | declared :: others =>
      if (declared :: others).any fun seen => (decodingShapeOf seen).deepEqual (decodingShapeOf event) then
        deleteDuplicateEvents refuseACollision kept rest
      else if refuseACollision then .error ⟨s.toEventSignature event, declared, event⟩
      else deleteDuplicateEvents refuseACollision (kept ++ [event]) rest

/-- Why a source is refused. -/
inductive SourceRefusal (A T : Type) where
  | invalidAddress (address : Option String)
  | ambiguous (abi : AmbiguousAbi)
  | rule (refusal : RuleRefusal A T)
  deriving Repr

/-- What a range is asked for with: the addresses, the topics, and the resolved filters. -/
structure LogEventFetcher (A T : Type) where
  contractAddresses : Option (List A)
  eventNameTopics : List T
  filters : Option (List (ExtraFilter A T))
  deriving Repr

/-- The events of each contract, at its address. -/
def eventsPerContract (contracts : List ContractData) : Except (SourceRefusal A T) (List (A × List AbiEvent)) :=
  contracts.mapM fun contract =>
    match contract.address.bind normalizeAddress with
    | some address => .ok (address, eventsOf contract.abi)
    | none => .error (.invalidAddress contract.address)

/-- The events declared at each address, once each. -/
def abiPerAddress (located : List (A × List AbiEvent)) : Except (SourceRefusal A T) (List (A × List AbiEvent)) :=
  (located.map Prod.fst).eraseDups.mapM fun address =>
    match deleteDuplicateEvents s true [] ((located.filter (·.1 = address)).flatMap (·.2)) with
    | .ok events => .ok (address, events)
    | .error abi => .error (.ambiguous abi)

/-- The topics of a list of events, each once. -/
def eventNameTopicsOf (events : List AbiEvent) : List T := (events.filterMap (topic0Of s)).eraseDups

/-- The filters of a source: none where no rule is given. -/
def filtersOf (rules : List (FilterRule T)) (declarations : List (SourceDeclaration A)) :
    Except (SourceRefusal A T) (Option (List (ExtraFilter A T))) :=
  if rules.isEmpty then .ok none
  else
    match resolveFilterRules s normalizeAddress rules declarations with
    | .ok filters => .ok (some filters)
    | .error refusal => .error (.rule refusal)

/-- The events of each contract of a list; one merged ABI is at no address. -/
def locatedEventsOf (contracts : ContractsData) : Except (SourceRefusal A T) (List (A × List AbiEvent)) :=
  match contracts with
  | .each contracts => eventsPerContract normalizeAddress contracts
  | .all _ _ => .ok []

/-- Every declaration of a source, at its address. -/
def declarationsOf (perAddress : List (A × List AbiEvent)) (allABIEvents : List AbiEvent) :
    List (SourceDeclaration A) :=
  if perAddress.isEmpty then allABIEvents.map (⟨none, ·⟩)
  else perAddress.flatMap fun declared => declared.2.map (⟨some declared.1, ·⟩)

def contractAddressesOf (contracts : ContractsData) (perAddress : List (A × List AbiEvent)) : Option (List A) :=
  match contracts with
  | .each _ => some (perAddress.map (·.1))
  | .all _ _ => none

/-- **The constructor**: what a source and its rules are fetched with. -/
def logEventFetcherOf (contracts : ContractsData) (rules : List (FilterRule T))
    (parseAllEventsIrrespectiveOfAddresses : Bool) : Except (SourceRefusal A T) (LogEventFetcher A T) := do
  let located ← locatedEventsOf normalizeAddress contracts
  let perAddress ← abiPerAddress s located
  let mergedListDecodes := perAddress.isEmpty || parseAllEventsIrrespectiveOfAddresses
  let allABIEvents ←
    (deleteDuplicateEvents s mergedListDecodes [] (contracts.list.flatMap fun contract => eventsOf contract.abi)).mapError
      .ambiguous
  let filters ← filtersOf s normalizeAddress rules (declarationsOf perAddress allABIEvents)
  .ok ⟨contractAddressesOf contracts perAddress, eventNameTopicsOf s allABIEvents, filters⟩

end Resolve

/-! ### What a source declares -/

section Source

variable {A T : Type} {s : Selectors T} {normalizeAddress : String → Option A}

variable (normalizeAddress) in
/-- An event a source declares at an address: one merged ABI is declared at every address. -/
def ContractsData.DeclaresAt (contracts : ContractsData) (address : A) (event : AbiEvent) : Prop :=
  match contracts with
  | .each contracts => ∃ contract ∈ contracts,
      contract.address.bind normalizeAddress = some address ∧ event ∈ eventsOf contract.abi
  | .all abi _ => event ∈ eventsOf abi

variable (normalizeAddress) in
/-- An address of a source. -/
def ContractsData.HasAddress (contracts : ContractsData) (address : A) : Prop :=
  match contracts with
  | .each contracts => ∃ contract ∈ contracts, contract.address.bind normalizeAddress = some address
  | .all _ _ => True

/-- An event a source declares somewhere. -/
def ContractsData.Declares (contracts : ContractsData) (event : AbiEvent) : Prop :=
  ∃ contract ∈ contracts.list, event ∈ eventsOf contract.abi

theorem ContractsData.DeclaresAt.declares {contracts : ContractsData} {address : A} {event : AbiEvent}
    (h : contracts.DeclaresAt normalizeAddress address event) :
    contracts.Declares event ∧ contracts.HasAddress normalizeAddress address := by
  cases contracts with
  | each contracts =>
    obtain ⟨contract, hcontract, haddress, hevent⟩ := h
    exact ⟨⟨contract, hcontract, hevent⟩, contract, hcontract, haddress⟩
  | all abi startBlock => exact ⟨⟨_, List.mem_singleton_self _, h⟩, trivial⟩

variable (s) in
/-- What events under one signature and of one shape share. -/
def Shared (P : AbiEvent → Prop) : Prop :=
  ∀ e e', s.toEventSignature e = s.toEventSignature e' → decodingShapeOf e = decodingShapeOf e' → P e → P e'

theorem shared_topic0 (topic0 : T) : Shared s fun event => topic0Of s event = some topic0 := by
  intro e e' hsig hshape h
  rw [← topic0Of_congr hsig hshape]
  exact h

theorem Shared.and {P Q : AbiEvent → Prop} (hP : Shared s P) (hQ : Shared s Q) : Shared s fun e => P e ∧ Q e :=
  fun e e' hsig hshape h => ⟨hP e e' hsig hshape h.1, hQ e e' hsig hshape h.2⟩

/-- A rule names events under one signature alike. -/
theorem shared_wanted (hname : ∀ e e', s.toEventSignature e = s.toEventSignature e' → e.name = e'.name)
    (rule : FilterRule T) : Shared s fun event => wanted s rule event := by
  intro e e' hsig hshape h
  have hanonymous : e.isAnonymous = e'.isAnonymous := congrArg DecodingShape.anonymous hshape
  unfold wanted at h ⊢
  rw [← hanonymous, ← hsig, ← hname e e' hsig]
  exact h

/-- **Declaring an event twice loses none**: what is kept was declared, and of what was
declared one under its signature and of its shape is kept. -/
theorem deleteDuplicateEvents_spec {refuseACollision : Bool} {kept events out : List AbiEvent}
    (h : deleteDuplicateEvents s refuseACollision kept events = .ok out) :
    (∀ e ∈ out, e ∈ kept ∨ e ∈ events) ∧ (∀ e ∈ kept, e ∈ out) ∧
      ∀ e ∈ events, ∃ e' ∈ out, s.toEventSignature e' = s.toEventSignature e ∧ decodingShapeOf e' = decodingShapeOf e := by
  induction events generalizing kept with
  | nil =>
    injection h with h
    subst h
    exact ⟨fun e he => .inl he, fun e he => he, by simp⟩
  | cons event rest ih =>
    -- where the event is kept
    have hkept : deleteDuplicateEvents s refuseACollision (kept ++ [event]) rest = .ok out →
        (∀ e ∈ out, e ∈ kept ∨ e ∈ event :: rest) ∧ (∀ e ∈ kept, e ∈ out) ∧
          ∀ e ∈ event :: rest, ∃ e' ∈ out,
            s.toEventSignature e' = s.toEventSignature e ∧ decodingShapeOf e' = decodingShapeOf e := by
      intro hok
      obtain ⟨hfrom, hstay, hall⟩ := ih hok
      refine ⟨fun e he => ?_, fun e he => hstay e (List.mem_append_left _ he), fun e he => ?_⟩
      · rcases hfrom e he with hin | hin
        · rcases List.mem_append.1 hin with hin | hin
          · exact .inl hin
          · exact .inr (List.mem_cons.2 (.inl (List.mem_singleton.1 hin)))
        · exact .inr (List.mem_cons_of_mem _ hin)
      · rcases List.mem_cons.1 he with rfl | he
        · exact ⟨e, hstay e (List.mem_append_right _ (List.mem_singleton_self e)), rfl, rfl⟩
        · exact hall e he
    rw [deleteDuplicateEvents] at h
    split at h
    · exact hkept h
    · rename_i declared others hdeclared
      split at h
      · rename_i hseen
        obtain ⟨hfrom, hstay, hall⟩ := ih h
        refine ⟨fun e he => (hfrom e he).imp_right (List.mem_cons_of_mem _), hstay, fun e he => ?_⟩
        rcases List.mem_cons.1 he with rfl | he
        · obtain ⟨seen, hmem, hsame⟩ := List.any_eq_true.1 hseen
          rw [← hdeclared, List.mem_filter, decide_eq_true_eq] at hmem
          exact ⟨seen, hstay seen hmem.1, hmem.2, (DecodingShape.deepEqual_iff _ _).1 hsame⟩
        · exact hall e he
      · split at h
        · cases h
        · exact hkept h

/-- Something shared is declared after the duplicates are gone exactly where it was before. -/
theorem exists_deduplicated {refuseACollision : Bool} {events out : List AbiEvent}
    (h : deleteDuplicateEvents s refuseACollision [] events = .ok out) {P : AbiEvent → Prop} (hP : Shared s P) :
    (∃ e ∈ out, P e) ↔ ∃ e ∈ events, P e := by
  obtain ⟨hfrom, -, hall⟩ := deleteDuplicateEvents_spec h
  constructor
  · rintro ⟨e, he, hp⟩
    exact ⟨e, (hfrom e he).resolve_left List.not_mem_nil, hp⟩
  · rintro ⟨e, he, hp⟩
    obtain ⟨e', he', hsig, hshape⟩ := hall e he
    exact ⟨e', he', hP e e' hsig.symm hshape.symm hp⟩

variable (s normalizeAddress) in
/-- The declarations a source presents: at an address, or, of one merged ABI, at none. -/
structure Presents (contracts : ContractsData) (declarations : List (SourceDeclaration A)) : Prop where
  uniform : (∀ d ∈ declarations, d.address = none) ∨ ∀ d ∈ declarations, d.address ≠ none
  declares : ∀ P, Shared s P → ∀ address : A,
    (∃ d ∈ declarations, (d.address = none ∨ d.address = some address) ∧ P d.event) ↔
      ∃ event, contracts.DeclaresAt normalizeAddress address event ∧ P event

/-- The contracts of a source, at their addresses. -/
theorem mem_eventsPerContract {contracts : List ContractData} {located : List (A × List AbiEvent)}
    (h : eventsPerContract normalizeAddress (T := T) contracts = .ok located) {address : A} {events : List AbiEvent} :
    (address, events) ∈ located ↔ ∃ contract ∈ contracts,
      contract.address.bind normalizeAddress = some address ∧ eventsOf contract.abi = events := by
  rw [mem_mapM_ok_iff h]
  refine exists_congr fun contract => and_congr_right fun _ => ?_
  cases contract.address.bind normalizeAddress with
  | none => simp
  | some found => simp

variable [DecidableEq A]

/-- The addresses of a source, each once, with what is declared there, each once. -/
theorem mem_abiPerAddress {located perAddress : List (A × List AbiEvent)}
    (h : abiPerAddress s located = .ok perAddress) {address : A} {events : List AbiEvent} :
    (address, events) ∈ perAddress ↔ address ∈ located.map Prod.fst ∧
      deleteDuplicateEvents s true [] ((located.filter (·.1 = address)).flatMap (·.2)) = .ok events := by
  rw [mem_mapM_ok_iff h]
  simp only [List.mem_eraseDups]
  constructor
  · rintro ⟨found, hfound, hok⟩
    cases hdedup : deleteDuplicateEvents s true [] ((located.filter (·.1 = found)).flatMap (·.2)) with
    | error abi =>
      rw [hdedup] at hok
      cases hok
    | ok kept =>
      rw [hdedup] at hok
      injection hok with hok
      injection hok with haddress hevents
      subst haddress hevents
      exact ⟨hfound, hdedup⟩
  · rintro ⟨hfound, hdedup⟩
    exact ⟨address, hfound, by rw [hdedup]⟩

/-- An address of a source is presented. -/
theorem exists_perAddress {located perAddress : List (A × List AbiEvent)}
    (h : abiPerAddress (T := T) s located = .ok perAddress) {address : A} (hmem : address ∈ located.map Prod.fst) :
    ∃ events, (address, events) ∈ perAddress := by
  obtain ⟨⟨found, events⟩, hfound, hok⟩ := exists_of_mapM_ok h (List.mem_eraseDups.2 hmem)
  have hat : found = address := by
    split at hok
    · injection hok with hok
      injection hok with hok _
      exact hok.symm
    · cases hok
  exact ⟨events, hat ▸ hfound⟩

/-- What is shared is presented at an address where the source declares it. -/
theorem declares_perAddress {contracts : List ContractData} {located perAddress : List (A × List AbiEvent)}
    (hlocated : eventsPerContract normalizeAddress (T := T) contracts = .ok located)
    (hper : abiPerAddress (T := T) s located = .ok perAddress) {P : AbiEvent → Prop} (hP : Shared s P) (address : A) :
    (∃ events, (address, events) ∈ perAddress ∧ ∃ e ∈ events, P e) ↔
      ∃ event, (ContractsData.each contracts).DeclaresAt normalizeAddress address event ∧ P event := by
  constructor
  · rintro ⟨events, hmem, hany⟩
    obtain ⟨-, hdedup⟩ := (mem_abiPerAddress hper).1 hmem
    obtain ⟨e, hin, hp⟩ := (exists_deduplicated hdedup hP).1 hany
    obtain ⟨⟨found, declared⟩, hfound, he⟩ := List.mem_flatMap.1 hin
    rw [List.mem_filter, decide_eq_true_eq] at hfound
    obtain ⟨hfound, rfl⟩ := hfound
    obtain ⟨contract, hcontract, haddress, rfl⟩ := (mem_eventsPerContract hlocated).1 hfound
    exact ⟨e, ⟨contract, hcontract, haddress, he⟩, hp⟩
  · rintro ⟨e, ⟨contract, hcontract, haddress, he⟩, hp⟩
    have hmem := (mem_eventsPerContract hlocated).2 ⟨contract, hcontract, haddress, rfl⟩
    obtain ⟨events, hfound⟩ := exists_perAddress hper (List.mem_map_of_mem hmem)
    obtain ⟨-, hdedup⟩ := (mem_abiPerAddress hper).1 hfound
    refine ⟨events, hfound, (exists_deduplicated hdedup hP).2 ⟨e, ?_, hp⟩⟩
    exact List.mem_flatMap.2 ⟨_, List.mem_filter.2 ⟨hmem, decide_eq_true rfl⟩, he⟩

/-- The addresses that are asked for are those of the source. -/
theorem mem_contractAddresses {contracts : List ContractData} {located perAddress : List (A × List AbiEvent)}
    (hlocated : eventsPerContract normalizeAddress (T := T) contracts = .ok located)
    (hper : abiPerAddress (T := T) s located = .ok perAddress) {address : A} :
    address ∈ perAddress.map (·.1) ↔
      ∃ contract ∈ contracts, contract.address.bind normalizeAddress = some address := by
  constructor
  · intro hmem
    obtain ⟨⟨found, events⟩, hfound, rfl⟩ := List.mem_map.1 hmem
    obtain ⟨⟨_, declared⟩, hdeclared, hat⟩ := List.mem_map.1 ((mem_abiPerAddress hper).1 hfound).1
    obtain ⟨contract, hcontract, hat', -⟩ := (mem_eventsPerContract hlocated).1 hdeclared
    exact ⟨contract, hcontract, hat'.trans (congrArg some hat)⟩
  · rintro ⟨contract, hcontract, hat⟩
    have hmem := (mem_eventsPerContract hlocated).2 ⟨contract, hcontract, hat, rfl⟩
    obtain ⟨events, hfound⟩ := exists_perAddress hper (List.mem_map_of_mem hmem)
    exact List.mem_map_of_mem hfound

/-- A list of contracts is presented at its addresses, where there are any. -/
theorem presents_each {contracts : List ContractData} {located perAddress : List (A × List AbiEvent)}
    (hlocated : eventsPerContract normalizeAddress (T := T) contracts = .ok located)
    (hper : abiPerAddress (T := T) s located = .ok perAddress) {allABIEvents : List AbiEvent} {refuse : Bool}
    (hall : deleteDuplicateEvents s refuse [] (contracts.flatMap fun contract => eventsOf contract.abi) =
      .ok allABIEvents) :
    Presents s normalizeAddress (.each contracts) (declarationsOf perAddress allABIEvents) := by
  unfold declarationsOf
  by_cases hempty : perAddress.isEmpty
  · -- there is no contract, and then no event
    have hcontracts : contracts = [] := by
      rw [List.eq_nil_iff_forall_not_mem]
      intro contract hcontract
      obtain ⟨declared, hdeclared, -⟩ := exists_of_mapM_ok hlocated hcontract
      obtain ⟨kept, hkept, -⟩ := exists_of_mapM_ok hper (List.mem_eraseDups.2 (List.mem_map_of_mem hdeclared))
      rw [List.isEmpty_iff.1 hempty] at hkept
      exact List.not_mem_nil hkept
    subst hcontracts
    injection hall with hall
    rw [if_pos hempty, ← hall]
    refine ⟨.inl (by simp), fun P _ address => ?_⟩
    simp [ContractsData.DeclaresAt]
  · rw [if_neg hempty]
    refine ⟨.inr ?_, ?_⟩
    · rintro d hd
      obtain ⟨⟨address, events⟩, -, hd⟩ := List.mem_flatMap.1 hd
      obtain ⟨event, -, rfl⟩ := List.mem_map.1 hd
      exact Option.some_ne_none _
    · intro P hP address
      rw [← declares_perAddress hlocated hper hP]
      constructor
      · rintro ⟨d, hd, hat, hp⟩
        obtain ⟨⟨found, events⟩, hfound, hd⟩ := List.mem_flatMap.1 hd
        obtain ⟨event, hevent, rfl⟩ := List.mem_map.1 hd
        obtain rfl := Option.some.inj (hat.resolve_left (Option.some_ne_none _))
        exact ⟨events, hfound, event, hevent, hp⟩
      · rintro ⟨events, hfound, event, hevent, hp⟩
        exact ⟨⟨some address, event⟩, List.mem_flatMap.2 ⟨_, hfound, List.mem_map_of_mem hevent⟩, .inr rfl, hp⟩

omit [DecidableEq A] in
/-- One merged ABI is presented at no address. -/
theorem presents_all {abi : List AbiItem} {startBlock : Option ℤ} {allABIEvents : List AbiEvent} {refuse : Bool}
    (hall : deleteDuplicateEvents s refuse [] (eventsOf abi) = .ok allABIEvents) :
    Presents s normalizeAddress (.all abi startBlock) (declarationsOf [] allABIEvents) := by
  refine ⟨.inl ?_, fun P hP address => ?_⟩
  · intro d hd
    obtain ⟨event, -, rfl⟩ := List.mem_map.1 hd
    rfl
  · show _ ↔ ∃ event, event ∈ eventsOf abi ∧ P event
    rw [← exists_deduplicated hall hP]
    constructor
    · rintro ⟨d, hd, -, hp⟩
      obtain ⟨event, hevent, rfl⟩ := List.mem_map.1 hd
      exact ⟨event, hevent, hp⟩
    · rintro ⟨event, hevent, hp⟩
      exact ⟨⟨none, event⟩, List.mem_map_of_mem hevent, .inl rfl, hp⟩

/-- **What the constructor makes of a source**: its declarations, its addresses, and the topics
of its events. -/
theorem logEventFetcherOf_ok [DecidableEq T] {contracts : ContractsData} {rules : List (FilterRule T)}
    {parseAll : Bool} {fetcher : LogEventFetcher A T}
    (h : logEventFetcherOf s normalizeAddress contracts rules parseAll = .ok fetcher) :
    ∃ declarations, Presents s normalizeAddress contracts declarations ∧
      filtersOf s normalizeAddress rules declarations = .ok fetcher.filters ∧
      (∀ topic0, topic0 ∈ fetcher.eventNameTopics ↔
        ∃ event, contracts.Declares event ∧ topic0Of s event = some topic0) ∧
      (fetcher.eventNameTopics ≠ [] →
        ∀ address, InScope fetcher.contractAddresses address ↔ contracts.HasAddress normalizeAddress address) := by
  unfold logEventFetcherOf at h
  obtain ⟨located, hlocated, h⟩ := bind_eq_ok.1 h
  obtain ⟨perAddress, hper, h⟩ := bind_eq_ok.1 h
  obtain ⟨allABIEvents, hall, h⟩ := bind_eq_ok.1 h
  obtain ⟨filters, hfilters, h⟩ := bind_eq_ok.1 h
  injection h with h
  subst h
  replace hall := mapError_eq_ok.1 hall
  have htopics : ∀ topic0, topic0 ∈ eventNameTopicsOf s allABIEvents ↔
      ∃ event, contracts.Declares event ∧ topic0Of s event = some topic0 := by
    intro topic0
    unfold eventNameTopicsOf
    rw [List.mem_eraseDups, List.mem_filterMap, exists_deduplicated hall (shared_topic0 topic0)]
    simp only [List.mem_flatMap]
    rfl
  cases contracts with
  | all abi startBlock =>
    injection hlocated with hlocated
    subst hlocated
    injection hper with hper
    subst hper
    have hevents : (ContractsData.all abi startBlock).list.flatMap (fun contract => eventsOf contract.abi) =
        eventsOf abi := List.flatMap_singleton _ _
    rw [hevents] at hall
    refine ⟨_, presents_all hall, hfilters, htopics, fun _ address => ?_⟩
    exact iff_of_true (by rintro addresses ⟨⟩) trivial
  | each contracts =>
    refine ⟨_, presents_each hlocated hper hall, hfilters, htopics, fun hne address => ?_⟩
    have hsome : perAddress.map (·.1) ≠ [] := by
      obtain ⟨topic0, htopic0⟩ := List.exists_mem_of_ne_nil _ hne
      obtain ⟨event, ⟨contract, hcontract, -⟩, -⟩ := (htopics topic0).1 htopic0
      obtain ⟨⟨found, events⟩, hdeclared, -⟩ := exists_of_mapM_ok hlocated hcontract
      obtain ⟨kept, hkept⟩ := exists_perAddress hper (List.mem_map_of_mem hdeclared)
      exact List.ne_nil_of_mem (List.mem_map_of_mem hkept)
    show _ ↔ ∃ contract ∈ contracts, contract.address.bind normalizeAddress = some address
    rw [← mem_contractAddresses hlocated hper]
    constructor
    · intro hin
      exact (hin _ rfl).resolve_left hsome
    · rintro hmem addresses ⟨⟩
      exact .inr hmem

end Source

end Etherfold
