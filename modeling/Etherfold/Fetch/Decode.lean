import Etherfold.Fetch.FilterRules
import Etherfold.Stream.CanonicalForm

/-!
# What a log decodes to

The ABI in force at an address is searched for the event a log names by its first topic. The
search is done once: the events of each address are filed by address and topic, a log is looked up
there, and only where it is not filed is the whole ABI searched.

* `find_deduplicated`: dropping duplicates finds the same event first.
* `preselected_spec`: what is filed is what the search finds.
* `decodeOnto_eq`: **looking up changes nothing**.
* `decode_preselected`: **every log decodes as the whole ABI decodes it**, and what was parsed is
  parsed again to the same.
-/

namespace Etherfold

/-! ### Logs -/

/-- The members of a parsed log no decoding reads. -/
structure LogPlace where
  blockNumber : Option ℕ
  blockHash : String
  transactionIndex : Option ℕ
  removed : Bool
  transactionHash : String
  logIndex : Option ℕ
  blockTimestamp : Option ℕ
  deriving DecidableEq, Repr

/-- A raw log, its quantities read. -/
structure NumberifiedLog (A T D : Type) extends LogPlace where
  address : A
  data : D
  topics : List T
  deriving DecidableEq, Repr

/-- What decoding wrote onto a log. -/
inductive DecodedHalf (R : Type) where
  | parsed (result : R)
  | failed (decodeError : String)
  deriving DecidableEq, Repr

/-- A parsed log with its decoded half. -/
structure DecodedLogEvent (A T D R : Type) extends NumberifiedLog A T D where
  decoded : DecodedHalf R
  deriving DecidableEq, Repr

/-- What a stream holds of a log: an older version may have stripped parts of it, and what is decoded
may be left from another ABI. Data that is no text at all counts as stripped. -/
structure StoredLog (A T D R : Type) extends LogPlace where
  address : Option A
  data : Option D
  topics : Option (List T)
  decoded : Option (DecodedHalf R)
  deriving DecidableEq, Repr

/-- A timestamp as the node put it on a log. -/
inductive WireTimestamp where
  | number (value : ℚ)
  | text (value : String)
  | other
  deriving DecidableEq, Repr

/-- A log as the node reports it. -/
structure IncludedEIP1193Log (T D : Type) where
  blockNumber : String
  blockHash : String
  transactionIndex : String
  removed : Option Bool
  address : String
  data : D
  topics : List T
  transactionHash : String
  logIndex : String
  blockTimestamp : Option WireTimestamp
  deriving DecidableEq, Repr

def hexDigitValue (c : Char) : Option ℕ :=
  if c.isDigit then some (c.toNat - 48)
  else if 'a' ≤ c ∧ c ≤ 'f' then some (c.toNat - 87)
  else if 'A' ≤ c ∧ c ≤ 'F' then some (c.toNat - 55)
  else none

/-- The number the leading digits of a text spell in a base, if there are any. -/
def parseDigits (base : ℕ) (digitValue : Char → Option ℕ) (text : List Char) : Option ℕ :=
  match text.takeWhile fun c => (digitValue c).isSome with
  | [] => none
  | digits => some (digits.foldl (fun n c => n * base + (digitValue c).getD 0) 0)

/-- A hexadecimal quantity, read from behind its prefix. -/
def parseQuantity (text : String) : Option ℕ := parseDigits 16 hexDigitValue (text.toList.drop 2)

def trim (text : List Char) : List Char := (text.dropWhile isWhiteSpace).rdropWhile isWhiteSpace

/-- **A timestamp in seconds**: a prefix tells hexadecimal from decimal, and what is neither is dropped. -/
def parseLogBlockTimestamp (value : Option WireTimestamp) : Option ℕ :=
  match value with
  | none => none
  | some .other => none
  | some (.number value) =>
    if value.den = 1 ∧ 0 ≤ value.num ∧ value.num ≤ maxSafeInteger then some value.num.toNat
    else none
  | some (.text text) =>
    let seconds := match trim text.toList with
      | '0' :: x :: digits =>
        if x = 'x' ∨ x = 'X' then
          if digits.all fun c => (hexDigitValue c).isSome then parseDigits 16 hexDigitValue digits else none
        else if (x :: digits).all Char.isDigit then parseDigits 10 hexDigitValue ('0' :: x :: digits) else none
      | digits => if digits.all Char.isDigit then parseDigits 10 hexDigitValue digits else none
    seconds.filter fun seconds => (seconds : ℤ) ≤ maxSafeInteger

/-! ### Decoding -/

section Decode

variable {A T D R : Type} [DecidableEq A] [DecidableEq T] (s : Selectors T) (normalizeAddress : String → Option A)
  -- what is made of a log against a list of events, or the error thrown
  (decodeEventLog : List AbiEvent → D → List T → Except String (Option R))

/-- What a fetcher decodes with. -/
structure LogDecoder (A T : Type) where
  allABIEvents : List AbiEvent
  abiPerAddress : List (A × List AbiEvent)
  mergedListDecodes : Bool
  abiEventPerAddressAndTopic : A × T → Option AbiEvent

/-- The events of each address, filed by its address and topic. A later one takes the place of an
earlier one, and an anonymous one is not filed. -/
def fileEvents (abiPerAddress : List (A × List AbiEvent)) : A × T → Option AbiEvent :=
  (abiPerAddress.flatMap fun declared => declared.2.filterMap fun event =>
    (topic0Of s event).map fun topic0 => ((declared.1, topic0), event)).foldl
    (fun filed entry => Function.update filed entry.1 (some entry.2)) fun _ => none

/-- **What the constructor keeps to decode with.** -/
def logDecoderOf (contracts : ContractsData) (parseAllEventsIrrespectiveOfAddresses : Bool) :
    Except (SourceRefusal A T) (LogDecoder A T) := do
  let located ← locatedEventsOf normalizeAddress contracts
  let perAddress ← abiPerAddress s located
  let mergedListDecodes := perAddress.isEmpty || parseAllEventsIrrespectiveOfAddresses
  let allABIEvents ←
    (deleteDuplicateEvents s mergedListDecodes [] (contracts.list.flatMap fun contract => eventsOf contract.abi)).mapError
      .ambiguous
  .ok ⟨allABIEvents, perAddress, mergedListDecodes, fileEvents s perAddress⟩

/-- A failure in one line: the first line of the error. -/
def decodeErrorOf (error : String) : String :=
  "decoding error: " ++ String.ofList (error.toList.takeWhile (· ≠ '\n'))

/-- What a list of events makes of a log. -/
def decodeAgainst (abi : List AbiEvent) (data : D) (topics : List T) : DecodedHalf R :=
  match decodeEventLog abi data topics with
  | .error error => .failed (decodeErrorOf error)
  | .ok (some result) => .parsed result
  | .ok none => .failed "parsing did not return any results"

/-- The ABI a fetcher decodes the logs of an address against. -/
def LogDecoder.correspondingABI (decoder : LogDecoder A T) (address : A) : Option (List AbiEvent) :=
  if decoder.mergedListDecodes then some decoder.allABIEvents
  else (decoder.abiPerAddress.find? (·.1 = address)).map (·.2)

/-- **What one raw log means**: by the event filed under its address and topic, and by the whole ABI
where none is. -/
def LogDecoder.decodeOnto (decoder : LogDecoder A T) (log : NumberifiedLog A T D) : DecodedHalf R :=
  match decoder.correspondingABI log.address with
  | none => .failed "event triggered at a different address"
  | some correspondingABI =>
    let preselected := if decoder.mergedListDecodes then none
      else log.topics.head?.bind fun topic0 => decoder.abiEventPerAddressAndTopic (log.address, topic0)
    decodeAgainst decodeEventLog (match preselected with | some event => [event] | none => correspondingABI)
      log.data log.topics

/-- A raw log with its quantities read: `none` where its address is refused. -/
def numberify (log : IncludedEIP1193Log T D) : Option (NumberifiedLog A T D) :=
  (normalizeAddress log.address).map fun address =>
    { blockNumber := parseQuantity log.blockNumber, blockHash := log.blockHash
      transactionIndex := parseQuantity log.transactionIndex, removed := log.removed.getD false
      transactionHash := log.transactionHash, logIndex := parseQuantity log.logIndex
      blockTimestamp := parseLogBlockTimestamp log.blockTimestamp, address := address, data := log.data
      topics := log.topics }

def LogDecoder.parse (decoder : LogDecoder A T) (logs : List (IncludedEIP1193Log T D)) :
    Option (List (DecodedLogEvent A T D R)) :=
  logs.mapM fun log => (numberify normalizeAddress log).map fun log => ⟨log, decoder.decodeOnto decodeEventLog log⟩

/-- The raw half of a stored log: `none` where a part of it was stripped. -/
def StoredLog.raw (stored : StoredLog A T D R) : Option (NumberifiedLog A T D) := do
  let topics ← stored.topics
  let data ← stored.data
  let address ← stored.address
  some { toLogPlace := stored.toLogPlace, address := address, data := data, topics := topics }

/-- **Decoding a stored stream again**, its decoded half dropped: nothing where a log of it was stripped. -/
def LogDecoder.reparse (decoder : LogDecoder A T) (events : List (StoredLog A T D R)) :
    Option (List (DecodedLogEvent A T D R)) :=
  events.mapM fun stored => stored.raw.map fun log => ⟨log, decoder.decodeOnto decodeEventLog log⟩

/-! ### Decoding against the whole ABI -/

/-- **The ABI in force at an address**, as the source declares it: that of its contracts there, in
order; and everything declared where one ABI is merged, where no contract is given, or where all
events are parsed wherever they come from. -/
def abiInForce (contracts : ContractsData) (parseAllEventsIrrespectiveOfAddresses : Bool) (address : A) :
    Option (List AbiEvent) :=
  match contracts with
  | .all abi _ => some (eventsOf abi)
  | .each contracts =>
    if contracts.isEmpty || parseAllEventsIrrespectiveOfAddresses then
      some (contracts.flatMap fun contract => eventsOf contract.abi)
    else
      let here := contracts.filter fun contract => contract.address.bind normalizeAddress = some address
      if here.isEmpty then none else some (here.flatMap fun contract => eventsOf contract.abi)

/-- What a log means against the whole ABI in force at its address. -/
def decodeInForce (contracts : ContractsData) (parseAllEventsIrrespectiveOfAddresses : Bool)
    (log : NumberifiedLog A T D) : DecodedHalf R :=
  match abiInForce normalizeAddress contracts parseAllEventsIrrespectiveOfAddresses log.address with
  | none => .failed "event triggered at a different address"
  | some abi => decodeAgainst decodeEventLog abi log.data log.topics

end Decode

/-! ### Dropping duplicates -/

section Deduplicate

variable {T : Type} {s : Selectors T}

/-- **Dropping duplicates finds the same event first**, by anything the signature tells. -/
theorem find_deduplicated {refuseACollision : Bool} {kept events out : List AbiEvent} {p : AbiEvent → Bool}
    (hp : ∀ e e', s.toEventSignature e = s.toEventSignature e' → p e = p e')
    (h : deleteDuplicateEvents s refuseACollision kept events = .ok out) :
    out.find? p = (kept ++ events).find? p := by
  induction events generalizing kept with
  | nil =>
    injection h with h
    rw [← h, List.append_nil]
  | cons event rest ih =>
    have hkept : deleteDuplicateEvents s refuseACollision (kept ++ [event]) rest = .ok out →
        out.find? p = (kept ++ event :: rest).find? p := by
      intro hok
      rw [ih hok, List.append_assoc, List.singleton_append]
    rw [deleteDuplicateEvents] at h
    split at h
    · exact hkept h
    · rename_i declared others hdeclared
      split at h
      · -- the event is dropped, and what was kept of its signature is found before it
        rename_i hseen
        obtain ⟨seen, hmem, -⟩ := List.any_eq_true.1 hseen
        rw [← hdeclared, List.mem_filter, decide_eq_true_eq] at hmem
        rw [ih h, List.find?_append, List.find?_append, List.find?_cons]
        cases hfound : kept.find? p with
        | some found => rfl
        | none =>
          have hseen := List.find?_eq_none.1 hfound seen hmem.1
          rw [hp seen event hmem.2] at hseen
          simp [hseen]
      · split at h
        · cases h
        · exact hkept h

/-- Where a collision is refused, what is kept has one event to a signature. -/
theorem pairwise_deduplicated {kept events out : List AbiEvent}
    (hkept : kept.Pairwise fun e e' => s.toEventSignature e ≠ s.toEventSignature e')
    (h : deleteDuplicateEvents s true kept events = .ok out) :
    out.Pairwise fun e e' => s.toEventSignature e ≠ s.toEventSignature e' := by
  induction events generalizing kept with
  | nil =>
    injection h with h
    rw [← h]
    exact hkept
  | cons event rest ih =>
    rw [deleteDuplicateEvents] at h
    split at h
    · rename_i hnone
      refine ih (List.pairwise_append.2 ⟨hkept, List.pairwise_singleton _ _, ?_⟩) h
      intro seen hseen other hother
      obtain rfl := List.mem_singleton.1 hother
      intro heq
      have : seen ∈ kept.filter fun seen => decide (s.toEventSignature seen = s.toEventSignature other) :=
        List.mem_filter.2 ⟨hseen, decide_eq_true heq⟩
      rw [hnone] at this
      exact List.not_mem_nil this
    · split at h
      · exact ih hkept h
      · rw [if_pos rfl] at h
        cases h

end Deduplicate

/-! ### Looking up -/

section Lookup

variable {A T D R : Type} [DecidableEq A] [DecidableEq T] {s : Selectors T} {normalizeAddress : String → Option A}

/-- What is filed last under a key is what is found there. -/
theorem filed_of_foldl {κ β : Type} [DecidableEq κ] (entries : List (κ × β)) (filed : κ → Option β) (key : κ) :
    (entries.foldl (fun (filed : κ → Option β) entry => Function.update filed entry.1 (some entry.2)) filed) key = filed key ∨
      ∃ value, (key, value) ∈ entries ∧
        (entries.foldl (fun (filed : κ → Option β) entry => Function.update filed entry.1 (some entry.2)) filed) key = some value := by
  induction entries generalizing filed with
  | nil => exact .inl rfl
  | cons entry entries ih =>
    rw [List.foldl_cons]
    rcases ih (Function.update filed entry.1 (some entry.2)) with h | ⟨value, hmem, h⟩
    · by_cases hkey : key = entry.1
      · subst hkey
        rw [Function.update_self] at h
        exact .inr ⟨entry.2, List.mem_cons_self, h⟩
      · rw [Function.update_of_ne hkey] at h
        exact .inl h
    · exact .inr ⟨value, List.mem_cons_of_mem _ hmem, h⟩

/-- An event is filed under an address that declares it and under its topic. -/
theorem mem_of_filed {perAddress : List (A × List AbiEvent)} {address : A} {topic0 : T} {event : AbiEvent}
    (h : fileEvents s perAddress (address, topic0) = some event) :
    ∃ events, (address, events) ∈ perAddress ∧ event ∈ events ∧ topic0Of s event = some topic0 := by
  unfold fileEvents at h
  rcases filed_of_foldl (perAddress.flatMap fun declared => declared.2.filterMap fun event =>
    (topic0Of s event).map fun topic0 => ((declared.1, topic0), event)) (fun _ => none) (address, topic0) with
    hnone | ⟨value, hmem, hsome⟩
  · rw [h] at hnone
    cases hnone
  · rw [h] at hsome
    injection hsome with hsome
    subst hsome
    obtain ⟨⟨found, events⟩, hfound, hmem⟩ := List.mem_flatMap.1 hmem
    obtain ⟨e, he, heq⟩ := List.mem_filterMap.1 hmem
    obtain ⟨topic, htopic, heq⟩ := Option.map_eq_some_iff.1 heq
    injection heq with hkey hevent
    injection hkey with haddress htopic0
    subst haddress htopic0 hevent
    exact ⟨events, hfound, he, htopic⟩

variable (s) in
/-- The event a list of events names by the first topic of a log. -/
def firstMatching (abi : List AbiEvent) (topics : List T) : Option AbiEvent :=
  topics.head?.bind fun topic0 => abi.find? fun event => decide (s.toEventSelector event = topic0)

/-- **What is filed is what the search finds** among the events of the address. -/
theorem preselected_spec {located perAddress : List (A × List AbiEvent)}
    (hper : abiPerAddress s located = .ok perAddress) {address : A} {events : List AbiEvent}
    (hevents : (address, events) ∈ perAddress) {topics : List T} {topic0 : T} (htopics : topics.head? = some topic0)
    {event : AbiEvent} (h : fileEvents s perAddress (address, topic0) = some event) :
    firstMatching s [event] topics = firstMatching s events topics := by
  obtain ⟨events', hevents', hmem, htopic0⟩ := mem_of_filed h
  obtain ⟨-, hdedup⟩ := (mem_abiPerAddress hper).1 hevents
  obtain ⟨-, hdedup'⟩ := (mem_abiPerAddress hper).1 hevents'
  rw [hdedup] at hdedup'
  injection hdedup' with heq
  subst heq
  have hselector : s.toEventSelector event = topic0 := by
    unfold topic0Of at htopic0
    split at htopic0
    · cases htopic0
    · exact Option.some.inj htopic0
  unfold firstMatching
  rw [htopics, Option.bind_some, Option.bind_some, List.find?_singleton, if_pos (decide_eq_true hselector)]
  cases hfound : events.find? fun event => decide (s.toEventSelector event = topic0) with
  | none =>
    have := List.find?_eq_none.1 hfound event hmem
    exact absurd (decide_eq_true hselector) this
  | some found =>
    -- no other event at the address has its signature
    have hsame : s.toEventSelector found = topic0 := by simpa using List.find?_some hfound
    have hsignature := (s.selector_iff found event).1 (hsame.trans hselector.symm)
    have hpairwise := pairwise_deduplicated List.Pairwise.nil hdedup
    by_contra hne
    have : Std.Symm fun e e' : AbiEvent => s.toEventSignature e ≠ s.toEventSignature e' := ⟨fun _ _ h => h.symm⟩
    refine hpairwise.forall (List.mem_of_find?_eq_some hfound) hmem ?_ hsignature
    rintro rfl
    exact hne rfl

omit [DecidableEq T] in
/-- The events at an address, contract by contract. -/
theorem located_events {contracts : List ContractData} {located : List (A × List AbiEvent)}
    (h : eventsPerContract normalizeAddress (T := T) contracts = .ok located) (address : A) :
    (located.filter (·.1 = address)).flatMap (·.2) =
      (contracts.filter fun contract => contract.address.bind normalizeAddress = some address).flatMap
        fun contract => eventsOf contract.abi := by
  have hpairs := mapM_eq_ok.1 h
  clear h
  induction hpairs with
  | nil => rfl
  | @cons contract entry contracts located hentry _ ih =>
    cases haddress : contract.address.bind normalizeAddress with
    | none =>
      rw [haddress] at hentry
      cases hentry
    | some found =>
      rw [haddress] at hentry
      injection hentry with hentry
      subst hentry
      by_cases hat : found = address <;> simp [haddress, hat, ih]

theorem selector_congr (topic0 : T) : ∀ e e' : AbiEvent, s.toEventSignature e = s.toEventSignature e' →
    decide (s.toEventSelector e = topic0) = decide (s.toEventSelector e' = topic0) := by
  intro e e' heq
  rw [(s.selector_iff e e').2 heq]

/-- Dropping duplicates leaves the event a log names. -/
theorem firstMatching_deduplicated {refuseACollision : Bool} {events out : List AbiEvent}
    (h : deleteDuplicateEvents s refuseACollision [] events = .ok out) (topics : List T) :
    firstMatching s out topics = firstMatching s events topics := by
  unfold firstMatching
  cases topics.head? with
  | none => rfl
  | some topic0 =>
    rw [Option.bind_some, Option.bind_some, find_deduplicated (selector_congr topic0) h, List.nil_append]

/-- **The ABI decoded against is the one in force**, its duplicates dropped. -/
theorem correspondingABI_spec {contracts : ContractsData} {parseAll : Bool} {decoder : LogDecoder A T}
    (h : logDecoderOf s normalizeAddress contracts parseAll = .ok decoder) (address : A) :
    (decoder.correspondingABI address = none ∧ abiInForce normalizeAddress contracts parseAll address = none) ∨
      ∃ abi inForce, decoder.correspondingABI address = some abi ∧
        abiInForce normalizeAddress contracts parseAll address = some inForce ∧
        ∀ topics : List T, firstMatching s abi topics = firstMatching s inForce topics := by
  unfold logDecoderOf at h
  obtain ⟨located, hlocated, h⟩ := bind_eq_ok.1 h
  obtain ⟨perAddress, hper, h⟩ := bind_eq_ok.1 h
  obtain ⟨allABIEvents, hall, h⟩ := bind_eq_ok.1 h
  injection h with h
  subst h
  replace hall := mapError_eq_ok.1 hall
  have hmerged := firstMatching_deduplicated hall
  unfold LogDecoder.correspondingABI abiInForce
  dsimp only
  cases contracts with
  | all abi startBlock =>
    injection hlocated with hlocated
    subst hlocated
    injection hper with hper
    subst hper
    refine .inr ⟨allABIEvents, eventsOf abi, rfl, rfl, fun topics => ?_⟩
    rw [hmerged topics]
    exact congrArg (firstMatching s · topics) (List.flatMap_singleton _ _)
  | each contracts =>
    have hempty : perAddress.isEmpty = contracts.isEmpty := by
      rw [Bool.eq_iff_iff, List.isEmpty_iff, List.isEmpty_iff]
      constructor
      · intro hnil
        rw [List.eq_nil_iff_forall_not_mem]
        intro contract hcontract
        obtain ⟨declared, hdeclared, -⟩ := exists_of_mapM_ok hlocated hcontract
        obtain ⟨events, hevents⟩ := exists_perAddress hper (List.mem_map_of_mem hdeclared)
        rw [hnil] at hevents
        exact List.not_mem_nil hevents
      · rintro rfl
        injection hlocated with hlocated
        subst hlocated
        injection hper with hper
        exact hper.symm
    rw [hempty]
    dsimp only
    by_cases hmerge : contracts.isEmpty || parseAll
    · rw [if_pos hmerge, if_pos hmerge]
      exact .inr ⟨allABIEvents, _, rfl, rfl, hmerged⟩
    rw [if_neg hmerge, if_neg hmerge]
    have hhere : contracts.filter (fun contract => contract.address.bind normalizeAddress = some address) ≠ [] ↔
        ∃ declared ∈ perAddress, declared.1 = address := by
      constructor
      · intro hne
        obtain ⟨contract, hcontract⟩ := List.exists_mem_of_ne_nil _ hne
        rw [List.mem_filter, decide_eq_true_eq] at hcontract
        have hmem := (mem_eventsPerContract hlocated).2 ⟨contract, hcontract.1, hcontract.2, rfl⟩
        obtain ⟨events, hevents⟩ := exists_perAddress hper (List.mem_map_of_mem hmem)
        exact ⟨_, hevents, rfl⟩
      · rintro ⟨⟨found, events⟩, hdeclared, rfl⟩
        obtain ⟨⟨_, _⟩, hmem, rfl⟩ := List.mem_map.1 ((mem_abiPerAddress hper).1 hdeclared).1
        obtain ⟨contract, hcontract, haddress, -⟩ := (mem_eventsPerContract hlocated).1 hmem
        exact List.ne_nil_of_mem (List.mem_filter.2 ⟨hcontract, decide_eq_true haddress⟩)
    cases hfound : perAddress.find? (·.1 = address) with
    | none =>
      refine .inl ⟨rfl, if_pos ?_⟩
      by_contra hne
      obtain ⟨declared, hdeclared, hat⟩ := hhere.1 fun hnil => hne (List.isEmpty_iff.2 hnil)
      exact List.find?_eq_none.1 hfound declared hdeclared (decide_eq_true hat)
    | some declared =>
      obtain ⟨found, events⟩ := declared
      have hmem := List.mem_of_find?_eq_some hfound
      obtain rfl : found = address := by simpa using List.find?_some hfound
      have hne := hhere.2 ⟨_, hmem, rfl⟩
      refine .inr ⟨events, _, rfl, if_neg fun hnil => hne (List.isEmpty_iff.1 hnil), fun topics => ?_⟩
      rw [firstMatching_deduplicated ((mem_abiPerAddress hper).1 hmem).2, located_events hlocated]

theorem logDecoderOf_ok {contracts : ContractsData} {parseAll : Bool} {decoder : LogDecoder A T}
    (h : logDecoderOf s normalizeAddress contracts parseAll = .ok decoder) :
    ∃ located, abiPerAddress s located = .ok decoder.abiPerAddress ∧
      decoder.abiEventPerAddressAndTopic = fileEvents s decoder.abiPerAddress := by
  unfold logDecoderOf at h
  obtain ⟨located, -, h⟩ := bind_eq_ok.1 h
  obtain ⟨perAddress, hper, h⟩ := bind_eq_ok.1 h
  obtain ⟨allABIEvents, -, h⟩ := bind_eq_ok.1 h
  injection h with h
  subst h
  exact ⟨located, hper, rfl⟩

/-! ### Decoding -/

variable {decodeEventLog : List AbiEvent → D → List T → Except String (Option R)}

variable (s decodeEventLog) in
/-- What is made of a log depends on the first event with its selector, and on nothing else of the list. -/
def DependsOnFirst : Prop :=
  ∀ abi abi' data topics, firstMatching s abi topics = firstMatching s abi' topics →
    decodeEventLog abi data topics = decodeEventLog abi' data topics

/-- **Looking up changes nothing.** -/
theorem decodeOnto_eq (hfirst : DependsOnFirst s decodeEventLog) {contracts : ContractsData} {parseAll : Bool}
    {decoder : LogDecoder A T} (h : logDecoderOf s normalizeAddress contracts parseAll = .ok decoder)
    (log : NumberifiedLog A T D) :
    decoder.decodeOnto decodeEventLog log = decodeInForce normalizeAddress decodeEventLog contracts parseAll log := by
  obtain ⟨located, hper, hfiled⟩ := logDecoderOf_ok h
  unfold LogDecoder.decodeOnto decodeInForce
  rcases correspondingABI_spec h log.address with ⟨hnone, hnone'⟩ | ⟨abi, inForce, habi, hinForce, hsame⟩
  · rw [hnone, hnone']
  rw [habi, hinForce]
  dsimp only
  have hagainst : ∀ abi' : List AbiEvent, firstMatching s abi' log.topics = firstMatching s abi log.topics →
      decodeAgainst decodeEventLog abi' log.data log.topics = decodeAgainst decodeEventLog inForce log.data log.topics := by
    intro abi' heq
    unfold decodeAgainst
    rw [hfirst abi' inForce log.data log.topics (heq.trans (hsame log.topics))]
  by_cases hmerged : decoder.mergedListDecodes
  · rw [if_pos hmerged]
    exact hagainst abi rfl
  rw [if_neg hmerged]
  cases hhead : log.topics.head? with
  | none => exact hagainst abi rfl
  | some topic0 =>
    rw [Option.bind_some]
    cases hpreselected : decoder.abiEventPerAddressAndTopic (log.address, topic0) with
    | none => exact hagainst abi rfl
    | some event =>
      -- the address has an entry, and the event was filed from it
      unfold LogDecoder.correspondingABI at habi
      rw [if_neg hmerged] at habi
      obtain ⟨⟨found, events⟩, hfound, rfl⟩ := Option.map_eq_some_iff.1 habi
      obtain rfl : found = log.address := by simpa using List.find?_some hfound
      rw [hfiled] at hpreselected
      exact hagainst [event] (preselected_spec hper (List.mem_of_find?_eq_some hfound) hhead hpreselected)

/-- What a stream holds of a log that was parsed, with whatever was decoded of it then. -/
def StoredLog.Holds (stored : StoredLog A T D R) (log : NumberifiedLog A T D) : Prop :=
  stored.toLogPlace = log.toLogPlace ∧ stored.address = some log.address ∧ stored.data = some log.data ∧
    stored.topics = some log.topics

omit [DecidableEq A] [DecidableEq T] in
theorem StoredLog.Holds.raw_eq {stored : StoredLog A T D R} {log : NumberifiedLog A T D} (h : stored.Holds log) :
    stored.raw = some log := by
  obtain ⟨hplace, haddress, hdata, htopics⟩ := h
  unfold StoredLog.raw
  rw [haddress, hdata, htopics, hplace]
  rfl

/-- What a stream holds of raw logs that were parsed. -/
def HoldsParsed (normalizeAddress : String → Option A) (stored : List (StoredLog A T D R))
    (logs : List (IncludedEIP1193Log T D)) : Prop :=
  List.Forall₂ (fun stored log => ∃ raw, numberify normalizeAddress log = some raw ∧ stored.Holds raw) stored logs

omit [DecidableEq T] in
/-- Parsing reads the quantities of each log and decodes it on its own. -/
theorem parse_eq (decoder : LogDecoder A T) (logs : List (IncludedEIP1193Log T D)) :
    decoder.parse normalizeAddress decodeEventLog logs =
      (logs.mapM (numberify normalizeAddress)).map fun raws => raws.map fun raw =>
        ⟨raw, decoder.decodeOnto decodeEventLog raw⟩ := by
  unfold LogDecoder.parse
  induction logs with
  | nil => rfl
  | cons log logs ih =>
    rw [List.mapM_cons, List.mapM_cons, ih]
    cases numberify normalizeAddress log with
    | none => rfl
    | some raw => cases logs.mapM (numberify normalizeAddress) <;> rfl

omit [DecidableEq T] in
/-- A stream that holds what was parsed is parsed again to the same. -/
theorem reparse_eq (decoder : LogDecoder A T) {logs : List (IncludedEIP1193Log T D)} {stored : List (StoredLog A T D R)}
    (h : HoldsParsed normalizeAddress stored logs) :
    ∃ events, decoder.parse normalizeAddress decodeEventLog logs = some events ∧
      decoder.reparse decodeEventLog stored = some events := by
  unfold LogDecoder.parse LogDecoder.reparse
  induction h with
  | nil => exact ⟨[], rfl, rfl⟩
  | @cons stored log _ _ hholds _ ih =>
    obtain ⟨events, hparsed, hreparsed⟩ := ih
    obtain ⟨raw, hraw, hholds⟩ := hholds
    refine ⟨⟨raw, decoder.decodeOnto decodeEventLog raw⟩ :: events, ?_, ?_⟩
    · rw [List.mapM_cons, hparsed, hraw]
      rfl
    · rw [List.mapM_cons, hreparsed, hholds.raw_eq]
      rfl

/-- **Every log decodes as the whole ABI in force at its address decodes it.** What is parsed of raw logs
is each of them with its quantities read, decoded so; and what a stream holds of them is parsed again to
the same. -/
theorem decode_preselected (hfirst : DependsOnFirst s decodeEventLog) {contracts : ContractsData} {parseAll : Bool}
    {decoder : LogDecoder A T} (h : logDecoderOf s normalizeAddress contracts parseAll = .ok decoder) :
    (∀ log, decoder.decodeOnto decodeEventLog log = decodeInForce normalizeAddress decodeEventLog contracts parseAll log) ∧
    (∀ logs, decoder.parse normalizeAddress decodeEventLog logs =
      (logs.mapM (numberify normalizeAddress)).map fun raws => raws.map fun raw =>
        ⟨raw, decodeInForce normalizeAddress decodeEventLog contracts parseAll raw⟩) ∧
    ∀ logs (stored : List (StoredLog A T D R)), HoldsParsed normalizeAddress stored logs →
      ∃ events, decoder.parse normalizeAddress decodeEventLog logs = some events ∧
        decoder.reparse decodeEventLog stored = some events := by
  have hdecode : ∀ log, decoder.decodeOnto decodeEventLog log =
      decodeInForce normalizeAddress decodeEventLog contracts parseAll log := decodeOnto_eq hfirst h
  refine ⟨hdecode, fun logs => ?_, fun logs stored hstored => reparse_eq decoder hstored⟩
  rw [parse_eq]
  simp only [hdecode]

end Lookup

/-- An NFT and a token whose events share a selector and index different arguments, the token declared
over two block ranges. -/
def nftAndToken : ContractsData :=
  .each [⟨some "nft", [.event ⟨"Transfer", [.mk (some "to") "address" (some true) none none,
      .mk (some "id") "uint256" (some true) none none], none, none, none⟩], none⟩,
    ⟨some "token", [.event ⟨"Transfer", [.mk (some "to") "address" (some true) none none,
      .mk (some "value") "uint256" none none none], none, some 0, some 9⟩], none⟩,
    ⟨some "token", [.event ⟨"Transfer", [.mk (some "to") "address" (some true) none none,
      .mk (some "value") "uint256" none none none], none, some 10, none⟩], none⟩]

/-- The indexed arguments of the first event a log names. -/
def decodeIndexed (abi : List AbiEvent) (_data : String) (topics : List String) : Except String (Option (List String)) :=
  match topics with
  | [] => .error "AbiEventSignatureEmptyTopicsError"
  | topic0 :: arguments =>
    match abi.find? fun event => decide (byName.toEventSelector event = topic0) with
    | none => .error "AbiEventSignatureNotFoundError"
    | some event =>
      if arguments.length = indexedArgumentCount event then .ok (some arguments) else .error "DecodeLogTopicsMismatch"

theorem dependsOnFirst_decodeIndexed : DependsOnFirst byName decodeIndexed := by
  intro abi abi' data topics h
  unfold firstMatching at h
  cases topics with
  | nil => rfl
  | cons topic0 arguments =>
    rw [List.head?_cons, Option.bind_some, Option.bind_some] at h
    unfold decodeIndexed
    dsimp only
    rw [h]

/-- A transfer of the token, and a log of the NFT with an argument too few. -/
def transferLogs : List (IncludedEIP1193Log String String) :=
  [⟨"0x0a", "0xb", "0x0", none, "token", "0x01", ["Transfer", "me"], "0xc", "0x2", none⟩,
    ⟨"0x0a", "0xb", "0x0", none, "nft", "0x01", ["Transfer", "me"], "0xc", "0x3", some (.text "0x64")⟩]

/-- A place of these logs. -/
def transferPlace (logIndex : ℕ) (blockTimestamp : Option ℕ) : LogPlace :=
  ⟨some 10, "0xb", some 0, false, "0xc", some logIndex, blockTimestamp⟩

/-- What a stream holds of them, without what was decoded and with what another ABI made of it. -/
def storedTransfers : List (StoredLog String String String (List String)) :=
  [⟨transferPlace 2 none, some "token", some "0x01", some ["Transfer", "me"], none⟩,
    ⟨transferPlace 3 (some 100), some "nft", some "0x01", some ["Transfer", "me"], some (.parsed ["me"])⟩]

/-- A log of the token is decoded with the one argument it indexes, and one of the NFT is no transfer;
parsed again they are the same. -/
theorem decode_nft_and_token :
    ∃ decoder events, logDecoderOf byName some nftAndToken false = .ok decoder ∧
      decoder.parse some decodeIndexed transferLogs = some events ∧
      decoder.reparse decodeIndexed storedTransfers = some events ∧
      events = [⟨⟨transferPlace 2 none, "token", "0x01", ["Transfer", "me"]⟩, .parsed ["me"]⟩,
        ⟨⟨transferPlace 3 (some 100), "nft", "0x01", ["Transfer", "me"]⟩,
          .failed "decoding error: DecodeLogTopicsMismatch"⟩] := by
  obtain ⟨decoder, hok⟩ : ∃ decoder, logDecoderOf byName some nftAndToken false = .ok decoder := ⟨_, rfl⟩
  obtain ⟨-, hparse, hreparse⟩ := decode_preselected dependsOnFirst_decodeIndexed hok
  have hraws : transferLogs.mapM (numberify some) =
      some [⟨transferPlace 2 none, "token", "0x01", ["Transfer", "me"]⟩,
        ⟨transferPlace 3 (some 100), "nft", "0x01", ["Transfer", "me"]⟩] := by decide +kernel
  obtain ⟨events, hparsed, hreparsed⟩ := hreparse transferLogs storedTransfers
    (.cons ⟨⟨transferPlace 2 none, "token", "0x01", ["Transfer", "me"]⟩, by decide +kernel, rfl, rfl, rfl, rfl⟩
      (.cons ⟨⟨transferPlace 3 (some 100), "nft", "0x01", ["Transfer", "me"]⟩, by decide +kernel, rfl, rfl, rfl, rfl⟩ .nil))
  refine ⟨decoder, events, hok, hparsed, hreparsed, ?_⟩
  rw [hparse, hraws] at hparsed
  rw [← Option.some.inj hparsed]
  rfl

end Etherfold
