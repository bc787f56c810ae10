import Etherfold.Fetch.FilterPlan
import Etherfold.Ledger.Distinct
import Etherfold.Stream.CanonicalForm
import Etherfold.Stream.SourceHashes

/-!
# The config a stream is known by

A config is resolved before it is used: an unset finality is filled in, and the rules are written
one way, so that two spellings of one meaning are one stream. Lists that stand for sets are sorted
and lose their repeats, and an entry loses its trailing wildcards.

* `resolveStreamConfig_idem`: **resolving a resolved config changes nothing**.
* `resolveStreamConfig_eq_iff`: which configs resolve equal.
* `plan_congr`: **configs that resolve equal ask for the same logs**.
* `one_stream_iff`: **which spellings of one meaning are one stream**.
-/

namespace Etherfold

/-! ### Words -/

/-- A `0x` word of a config, of which no white space is part. -/
structure Word where
  text : String
  solid : solidText text = text
  deriving DecidableEq, Repr

theorem Word.text_injective : Function.Injective Word.text := by
  rintro ⟨text, hsolid⟩ ⟨text', hsolid'⟩ rfl
  rfl

/-- Texts are ordered by their code units. -/
abbrev textOrder (a b : String) : Prop := textLe a b = true

theorem textLe_iff (a b : String) :
    textOrder a b ↔ (codeUnits a).map UInt16.toNat ≤ (codeUnits b).map UInt16.toNat := by
  unfold textOrder textLe
  rw [decide_eq_true_eq, compareText_le]

instance : Std.Total textOrder := ⟨fun a b => by
  rw [textLe_iff, textLe_iff]
  exact le_total _ _⟩

instance : IsTrans String textOrder := ⟨fun a b c hab hbc => by
  rw [textLe_iff] at hab hbc ⊢
  exact hab.trans hbc⟩

instance : Std.Antisymm textOrder := ⟨fun a b hab hba => by
  unfold textOrder textLe at hab hba
  rw [decide_eq_true_eq] at hab hba
  exact codeUnits_injective (compareText_antisymm hab hba)⟩

/-- Each word once, in order. -/
def uniqueSorted (words : List Word) : List Word := Distinct.dedupeSorted Word.text textOrder words

/-! ### Resolving -/

deriving instance DecidableEq for FilterRule

/-- How the logs of a stream are parsed, and the rules they are fetched under. -/
structure LogParseConfig where
  parseAllEventsIrrespectiveOfAddresses : Option Bool
  filters : Option (List (FilterRule Word))
  deriving DecidableEq, Repr

structure ProvidedStreamConfig where
  finality : Option ℤ
  parse : Option LogParseConfig
  deriving Repr

def canonicalSlot (slot : Slot Word) : Slot Word :=
  match slot with
  | .anyOf topics => .anyOf (uniqueSorted topics)
  | slot => slot

/-- One entry without its trailing wildcards, its lists sorted and without repeats. -/
def canonicalArgumentFilter (entry : ArgumentFilter Word) : ArgumentFilter Word :=
  (withoutTrailingWildcards entry).map canonicalSlot

/-- A slot as it is printed. -/
def slotValue (slot : Slot Word) : JsValue Empty :=
  match slot with
  | .wildcard => .null
  | .topic t => .string t.text
  | .anyOf topics => .array (topics.map fun t => .string t.text)

def entryValue (entry : ArgumentFilter Word) : JsValue Empty := .array (entry.map slotValue)

def ruleValue (rule : FilterRule Word) : JsValue Empty :=
  .object ([("event", .string rule.event)] ++
    (rule.contracts.map fun contracts => ("contracts", .array (contracts.map .string))).toList ++
    [("match", .array (rule.entries.map entryValue))])

/-- The text an entry or a rule is told apart by. -/
def canonicalText (value : JsValue Empty) : String := canonicalForm (fun n => n.elim) value

section Resolve

-- an address as it is spelt in full
variable (normalizeAddress : String → Option Word)

/-- A scope as the set of its addresses, spelt in full: `none` where one is refused. -/
def canonicalScope (scope : Option (List String)) : Option (Option (List String)) :=
  match scope with
  | none => some none
  | some contracts => (contracts.mapM normalizeAddress).map fun words => some ((uniqueSorted words).map Word.text)

/-- One rule, its event as it is written. -/
def canonicalRule (rule : FilterRule Word) : Option (FilterRule Word) :=
  (canonicalScope normalizeAddress rule.contracts).map fun contracts =>
    ⟨rule.event, contracts, Distinct.dedupeSorted (fun entry => canonicalText (entryValue entry)) textOrder
      (rule.entries.map canonicalArgumentFilter)⟩

/-- **The rules written one way.** -/
def canonicalFilterRules (rules : List (FilterRule Word)) : Option (List (FilterRule Word)) :=
  (rules.mapM (canonicalRule normalizeAddress)).map
    (Distinct.dedupeSorted (fun rule => canonicalText (ruleValue rule)) textOrder)

/-- An empty list of rules is none. -/
def resolveParseConfig (parse : Option LogParseConfig) : Option (Option LogParseConfig) :=
  match parse with
  | none => some none
  | some parse =>
    match parse.filters with
    | none => some (some parse)
    | some [] => some (some { parse with filters := none })
    | some rules =>
      (canonicalFilterRules normalizeAddress rules).map fun rules => some { parse with filters := some rules }

/-- **The config as it is used**: `none` where an address of a rule is refused. -/
def resolveStreamConfig (stream : ProvidedStreamConfig) : Option (UsedStreamConfig (Option LogParseConfig)) :=
  (resolveParseConfig normalizeAddress stream.parse).map fun parse => ⟨stream.finality.getD 17, parse⟩

end Resolve

/-- A resolved config, provided again. -/
def UsedStreamConfig.provided (used : UsedStreamConfig (Option LogParseConfig)) : ProvidedStreamConfig :=
  ⟨some used.finality, used.parse⟩

/-! ### What the texts tell apart -/

theorem normalizeItems_eq {N : Type} (items : List (JsValue N)) : normalizeItems items = items.map normalizeAsArray := by
  induction items with
  | nil => rw [normalizeItems, List.map_nil]
  | cons item items ih => rw [normalizeItems, List.map_cons, ih]

theorem solidItems_eq {N : Type} (items : List (Json N)) : solidItems items = items.map Json.solid := by
  induction items with
  | nil => rw [solidItems, List.map_nil]
  | cons item items ih => rw [solidItems, List.map_cons, ih]

theorem spells_none : Spells (fun n : Empty => (n.elim : List Char)) :=
  ⟨fun n => n.elim, fun n => n.elim, fun n => n.elim⟩

/-- What is printed of an array. -/
theorem solid_array {N : Type} (items : List (JsValue N)) :
    (normalizeAsArray (.array items)).solid = .array (items.map fun item => (normalizeAsArray item).solid) := by
  rw [normalizeAsArray, Json.solid, normalizeItems_eq, solidItems_eq, List.map_map]
  rfl

theorem solid_string {N : Type} (text : String) :
    (normalizeAsArray (.string text : JsValue N)).solid = .string (solidText text) := by
  rw [normalizeAsArray, Json.solid]

theorem slotValue_injective : Function.Injective fun slot : Slot Word => (normalizeAsArray (slotValue slot)).solid := by
  have hwords : ∀ words : List Word, (normalizeAsArray (slotValue (.anyOf words))).solid =
      .array (words.map fun t => .string t.text) := by
    intro words
    rw [slotValue, solid_array, List.map_map]
    simp only [Function.comp_def, solid_string, Word.solid]
  have hword : ∀ t : Word, (normalizeAsArray (slotValue (.topic t))).solid = .string t.text := by
    intro t
    rw [slotValue, solid_string, t.solid]
  have hnull : (normalizeAsArray (slotValue .wildcard)).solid = .null := by
    rw [slotValue, normalizeAsArray, Json.solid]
  intro slot slot' h
  dsimp only at h
  cases slot with
  | wildcard =>
    cases slot' with
    | wildcard => rfl
    | topic t => rw [hnull, hword] at h; cases h
    | anyOf ts => rw [hnull, hwords] at h; cases h
  | topic t =>
    cases slot' with
    | wildcard => rw [hnull, hword] at h; cases h
    | topic t' =>
      rw [hword, hword] at h
      injection h with h
      rw [Word.text_injective h]
    | anyOf ts => rw [hword, hwords] at h; cases h
  | anyOf ts =>
    cases slot' with
    | wildcard => rw [hnull, hwords] at h; cases h
    | topic t => rw [hword, hwords] at h; cases h
    | anyOf ts' =>
      rw [hwords, hwords] at h
      injection h with h
      have hinj : Function.Injective fun t : Word => (.string t.text : Json Empty) := by
        intro t t' heq
        injection heq with heq
        exact Word.text_injective heq
      rw [List.map_injective_iff.2 hinj h]

/-- Entries that are printed alike are alike. -/
theorem entryValue_injective :
    Function.Injective fun entry : ArgumentFilter Word => (normalizeAsArray (entryValue entry)).solid := by
  intro entry entry' h
  dsimp only [entryValue] at h
  rw [solid_array, solid_array, List.map_map, List.map_map] at h
  injection h with h
  exact List.map_injective_iff.2 slotValue_injective h

theorem entryText_injective : Function.Injective fun entry : ArgumentFilter Word => canonicalText (entryValue entry) := by
  intro entry entry' h
  dsimp only [canonicalText] at h
  rw [canonicalForm_eq_iff spells_none (by rintro text ⟨⟩) (by rintro text ⟨⟩)] at h
  exact entryValue_injective h

/-- What is printed of a rule: its members by key. -/
theorem solid_ruleValue (rule : FilterRule Word) : (normalizeAsArray (ruleValue rule)).solid =
    .array ((rule.contracts.map fun contracts =>
        (.array [.string "contracts", .array (contracts.map fun address => .string (solidText address))] : Json Empty)).toList ++
      [.array [.string "event", .string (solidText rule.event)],
        .array [.string "match", .array (rule.entries.map fun entry => (normalizeAsArray (entryValue entry)).solid)]]) := by
  have hec : textLe "event" "contracts" = false := by decide
  have hem : textLe "event" "match" = true := by decide
  have hcm : textLe "contracts" "match" = true := by decide
  have hevent : solidText "event" = "event" := by decide
  have hcontracts : solidText "contracts" = "contracts" := by decide
  have hmatch : solidText "match" = "match" := by decide
  obtain ⟨event, contracts, entries⟩ := rule
  cases contracts with
  | none =>
    simp [ruleValue, normalizeAsArray, normalizeMembers, hem, Json.solid, solidItems,
      hevent, hmatch, normalizeItems_eq, solidItems_eq]
  | some contracts =>
    simp [ruleValue, normalizeAsArray, normalizeMembers, List.orderedInsert, hem, hec, hcm, Json.solid, solidItems,
      hevent, hmatch, hcontracts, normalizeItems_eq, solidItems_eq]

theorem ruleText_eq_iff {rule rule' : FilterRule Word}
    (h : ∀ address ∈ rule.contracts.getD [], solidText address = address)
    (h' : ∀ address ∈ rule'.contracts.getD [], solidText address = address) :
    canonicalText (ruleValue rule) = canonicalText (ruleValue rule') ↔
      solidText rule.event = solidText rule'.event ∧ rule.contracts = rule'.contracts ∧ rule.entries = rule'.entries := by
  have hcontracts : ∀ contracts : List String, (∀ address ∈ contracts, solidText address = address) →
      (contracts.map fun address => (.string (solidText address) : Json Empty)) = contracts.map .string := by
    intro contracts hsolid
    exact List.map_congr_left fun address haddress => by rw [hsolid address haddress]
  have hstring : Function.Injective (Json.string : String → Json Empty) := by
    intro a b hab
    injection hab
  have hentries : (rule.entries.map fun entry => (normalizeAsArray (entryValue entry)).solid) =
      (rule'.entries.map fun entry => (normalizeAsArray (entryValue entry)).solid) ↔ rule.entries = rule'.entries :=
    (List.map_injective_iff.2 entryValue_injective).eq_iff
  dsimp only [canonicalText]
  rw [canonicalForm_eq_iff spells_none (by rintro text ⟨⟩) (by rintro text ⟨⟩), solid_ruleValue, solid_ruleValue]
  obtain ⟨event, contracts, entries⟩ := rule
  obtain ⟨event', contracts', entries'⟩ := rule'
  cases contracts with
  | none =>
    cases contracts' with
    | none => simp [hentries]
    | some contracts' => simp
  | some contracts =>
    cases contracts' with
    | none => simp
    | some contracts' =>
      simp [hcontracts contracts h, hcontracts contracts' h', (List.map_injective_iff.2 hstring).eq_iff, hentries]
      tauto

/-! ### Spellings of one meaning -/

/-- The topics a slot lists, which is none where it constrains nothing. -/
def Slot.listed {T : Type} (slot : Slot T) : Option (List T) :=
  match slot with
  | .wildcard => none
  | .topic t => some [t]
  | .anyOf ts => some ts

/-- Slots that list the same topics: in another order, repeated, or one as a value. -/
def Slot.Respells {T : Type} (slot slot' : Slot T) : Prop :=
  match slot.listed, slot'.listed with
  | none, none => True
  | some ts, some ts' => ∀ t, t ∈ ts ↔ t ∈ ts'
  | _, _ => False

/-- Slots that list the same topics, both as a value or both as a list. -/
def Slot.SameForm {T : Type} (slot slot' : Slot T) : Prop :=
  match slot, slot' with
  | .wildcard, .wildcard => True
  | .topic t, .topic t' => t = t'
  | .anyOf ts, .anyOf ts' => ∀ t, t ∈ ts ↔ t ∈ ts'
  | _, _ => False

/-- Entries that are alike slot for slot, up to trailing wildcards. -/
def EntryAlike (R : Slot Word → Slot Word → Prop) (entry entry' : ArgumentFilter Word) : Prop :=
  List.Forall₂ R (withoutTrailingWildcards entry) (withoutTrailingWildcards entry')

/-- Lists that stand for the same set: in another order, or repeated. -/
def SetAlike {α : Type} (R : α → α → Prop) (values values' : List α) : Prop :=
  (∀ v ∈ values, ∃ v' ∈ values', R v v') ∧ ∀ v' ∈ values', ∃ v ∈ values, R v v'

section Alike

variable (normalizeAddress : String → Option Word)

/-- Scopes of the same addresses. -/
def SameScope (scope scope' : Option (List String)) : Prop :=
  match scope, scope' with
  | none, none => True
  | some contracts, some contracts' =>
    ∀ address, address ∈ contracts.map normalizeAddress ↔ address ∈ contracts'.map normalizeAddress
  | _, _ => False

/-- **Rules that are alike**: in their events, their scopes and, as a set, their entries. -/
structure RuleAlike (E : String → String → Prop) (R : Slot Word → Slot Word → Prop) (rule rule' : FilterRule Word) : Prop where
  event : E rule.event rule'.event
  scope : SameScope normalizeAddress rule.contracts rule'.contracts
  entries : SetAlike (EntryAlike R) rule.entries rule'.entries

/-- Rules of one meaning: in another order, with repeats, with trailing wildcards, and with one topic
as a value or as a list. -/
abbrev Respelt : FilterRule Word → FilterRule Word → Prop := RuleAlike normalizeAddress (· = ·) Slot.Respells

/-- Rules of one meaning that write one topic the same way. -/
abbrev SameRule : FilterRule Word → FilterRule Word → Prop := RuleAlike normalizeAddress (· = ·) Slot.SameForm

/-- Rules that are the same but for white space in what they call their event. -/
abbrev Twins : FilterRule Word → FilterRule Word → Prop :=
  RuleAlike normalizeAddress (fun event event' => solidText event = solidText event') Slot.SameForm

end Alike

/-! ### One rule -/

section Rule

theorem canonicalSlot_eq_iff {slot slot' : Slot Word} : canonicalSlot slot = canonicalSlot slot' ↔ slot.SameForm slot' := by
  cases slot <;> cases slot' <;>
    simp [canonicalSlot, Slot.SameForm, uniqueSorted, Distinct.dedupeSorted_eq_iff_mem Word.text_injective]

theorem canonicalSlot_wildcard {slot : Slot Word} : canonicalSlot slot = .wildcard ↔ slot = .wildcard := by
  cases slot <;> simp [canonicalSlot]

theorem canonicalSlot_idem (slot : Slot Word) : canonicalSlot (canonicalSlot slot) = canonicalSlot slot := by
  cases slot with
  | wildcard => rfl
  | topic t => rfl
  | anyOf ts =>
    show Slot.anyOf (uniqueSorted (uniqueSorted ts)) = _
    rw [uniqueSorted, uniqueSorted, Distinct.dedupeSorted_idem]
    rfl

theorem canonicalArgumentFilter_eq_iff {entry entry' : ArgumentFilter Word} :
    canonicalArgumentFilter entry = canonicalArgumentFilter entry' ↔ EntryAlike Slot.SameForm entry entry' := by
  unfold canonicalArgumentFilter EntryAlike
  rw [← List.forall₂_eq_eq_eq, List.forall₂_map_left_iff, List.forall₂_map_right_iff]
  simp only [canonicalSlot_eq_iff]

/-- **An entry written one way is written that way again.** -/
theorem canonicalArgumentFilter_idem (entry : ArgumentFilter Word) :
    canonicalArgumentFilter (canonicalArgumentFilter entry) = canonicalArgumentFilter entry := by
  have htrim : withoutTrailingWildcards (canonicalArgumentFilter entry) = canonicalArgumentFilter entry := by
    unfold canonicalArgumentFilter withoutTrailingWildcards
    rw [List.rdropWhile_eq_self_iff]
    intro hne
    have htrimmed : List.rdropWhile (fun slot => decide (slot = .wildcard)) entry ≠ [] := fun hnil => hne (by rw [hnil]; rfl)
    rw [List.getLast_map, decide_eq_true_eq, canonicalSlot_wildcard]
    exact fun hlast => List.rdropWhile_last_not _ entry htrimmed (decide_eq_true hlast)
  rw [canonicalArgumentFilter, htrim, canonicalArgumentFilter, List.map_map]
  exact List.map_congr_left fun slot _ => canonicalSlot_idem slot

variable {normalizeAddress : String → Option Word}

/-- What is left of the scope of a rule. -/
def CanonicalScope (normalizeAddress : String → Option Word) (scope scope' : Option (List String)) : Prop :=
  (scope = none ∧ scope' = none) ∨ ∃ contracts words, scope = some contracts ∧
    List.Forall₂ (fun address word => normalizeAddress address = some word) contracts words ∧
      scope' = some ((uniqueSorted words).map Word.text)

theorem canonicalScope_iff {scope canonical : Option (List String)} :
    canonicalScope normalizeAddress scope = some canonical ↔ CanonicalScope normalizeAddress scope canonical := by
  unfold canonicalScope CanonicalScope
  cases scope with
  | none => simp [eq_comm]
  | some contracts => simp [mapM_eq_some_iff, eq_comm]

theorem canonicalRule_ok {rule canonical : FilterRule Word} (h : canonicalRule normalizeAddress rule = some canonical) :
    canonical.event = rule.event ∧ CanonicalScope normalizeAddress rule.contracts canonical.contracts ∧
      canonical.entries = Distinct.dedupeSorted (fun entry => canonicalText (entryValue entry)) textOrder
        (rule.entries.map canonicalArgumentFilter) := by
  obtain ⟨scope, hscope, rfl⟩ := Option.map_eq_some_iff.1 h
  exact ⟨rfl, canonicalScope_iff.1 hscope, rfl⟩

/-- What is left is the set of the addresses. -/
theorem CanonicalScope.eq_iff {scope scope' canonical canonical' : Option (List String)}
    (h : CanonicalScope normalizeAddress scope canonical) (h' : CanonicalScope normalizeAddress scope' canonical') :
    canonical = canonical' ↔ SameScope normalizeAddress scope scope' := by
  have hmem : ∀ (contracts : List String) (words : List Word),
      List.Forall₂ (fun address word => normalizeAddress address = some word) contracts words →
        contracts.map normalizeAddress = words.map some := by
    intro contracts words hwords
    induction hwords with
    | nil => rfl
    | cons hword _ ih => rw [List.map_cons, List.map_cons, hword, ih]
  rcases h with ⟨rfl, rfl⟩ | ⟨contracts, words, rfl, hwords, rfl⟩
  · rcases h' with ⟨rfl, rfl⟩ | ⟨contracts', words', rfl, hwords', rfl⟩
    · exact iff_of_true rfl trivial
    · simp [SameScope]
  · rcases h' with ⟨rfl, rfl⟩ | ⟨contracts', words', rfl, hwords', rfl⟩
    · simp [SameScope]
    · simp only [SameScope, hmem contracts words hwords, hmem contracts' words' hwords', Option.some.injEq,
        (List.map_injective_iff.2 Word.text_injective).eq_iff]
      rw [uniqueSorted, uniqueSorted, Distinct.dedupeSorted_eq_iff_mem Word.text_injective]
      constructor
      · intro hsame address
        simp [hsame]
      · intro hsame word
        simpa using hsame (some word)

/-- An address that is spelt in full is left as it is. -/
def SpelledInFull (normalizeAddress : String → Option Word) : Prop :=
  ∀ address word, normalizeAddress address = some word → normalizeAddress word.text = some word

theorem CanonicalScope.again (hfull : SpelledInFull normalizeAddress) {scope canonical : Option (List String)}
    (h : CanonicalScope normalizeAddress scope canonical) : CanonicalScope normalizeAddress canonical canonical := by
  rcases h with ⟨-, rfl⟩ | ⟨contracts, words, -, hwords, rfl⟩
  · exact .inl ⟨rfl, rfl⟩
  refine .inr ⟨_, uniqueSorted words, rfl, ?_, by rw [uniqueSorted, uniqueSorted, Distinct.dedupeSorted_idem]⟩
  rw [List.forall₂_map_left_iff, List.forall₂_same]
  intro word hword
  rw [uniqueSorted, Distinct.mem_dedupeSorted_of_injective Word.text_injective] at hword
  obtain ⟨address, -, haddress⟩ := exists_source hwords hword
  exact hfull address word haddress

theorem CanonicalScope.solid {scope canonical : Option (List String)} (h : CanonicalScope normalizeAddress scope canonical) :
    ∀ address ∈ canonical.getD [], solidText address = address := by
  rcases h with ⟨-, rfl⟩ | ⟨contracts, words, -, -, rfl⟩
  · intro address haddress
    exact absurd haddress List.not_mem_nil
  · intro address haddress
    obtain ⟨word, -, rfl⟩ := List.mem_map.1 haddress
    exact word.solid

theorem canonicalRule_again (hfull : SpelledInFull normalizeAddress) {rule canonical : FilterRule Word}
    (h : canonicalRule normalizeAddress rule = some canonical) : canonicalRule normalizeAddress canonical = some canonical := by
  obtain ⟨-, hscope, hentries⟩ := canonicalRule_ok h
  have hmap : canonical.entries.map canonicalArgumentFilter = canonical.entries := by
    conv_rhs => rw [← List.map_id canonical.entries]
    refine List.map_congr_left fun entry hentry => ?_
    rw [hentries, Distinct.mem_dedupeSorted_of_injective entryText_injective] at hentry
    obtain ⟨entry, -, rfl⟩ := List.mem_map.1 hentry
    exact canonicalArgumentFilter_idem entry
  have hagain : Distinct.dedupeSorted (fun entry => canonicalText (entryValue entry)) textOrder canonical.entries =
      canonical.entries := by rw [hentries, Distinct.dedupeSorted_idem]
  unfold canonicalRule
  rw [canonicalScope_iff.2 (hscope.again hfull), hmap, hagain]
  rfl

/-- Rules come out the same where they write one topic the same way. -/
theorem canonicalRule_eq_iff {rule rule' canonical canonical' : FilterRule Word}
    (h : canonicalRule normalizeAddress rule = some canonical)
    (h' : canonicalRule normalizeAddress rule' = some canonical') :
    (canonical = canonical' ↔ SameRule normalizeAddress rule rule') ∧
      (canonicalText (ruleValue canonical) = canonicalText (ruleValue canonical') ↔ Twins normalizeAddress rule rule') := by
  obtain ⟨hevent, hscope, hentries⟩ := canonicalRule_ok h
  obtain ⟨hevent', hscope', hentries'⟩ := canonicalRule_ok h'
  have hsame : canonical.entries = canonical'.entries ↔ SetAlike (EntryAlike Slot.SameForm) rule.entries rule'.entries := by
    rw [hentries, hentries', Distinct.dedupeSorted_eq_iff_mem entryText_injective]
    simp only [SetAlike, List.mem_map, ← canonicalArgumentFilter_eq_iff]
    constructor
    · intro hmem
      refine ⟨fun entry hentry => ?_, fun entry hentry => ?_⟩
      · obtain ⟨entry', hentry', heq⟩ := (hmem _).1 ⟨entry, hentry, rfl⟩
        exact ⟨entry', hentry', heq.symm⟩
      · exact (hmem _).2 ⟨entry, hentry, rfl⟩
    · rintro ⟨hforth, hback⟩ canonical
      constructor
      · rintro ⟨entry, hentry, rfl⟩
        obtain ⟨entry', hentry', heq⟩ := hforth entry hentry
        exact ⟨entry', hentry', heq.symm⟩
      · rintro ⟨entry, hentry, rfl⟩
        exact hback entry hentry
  have hcontracts := hscope.eq_iff hscope'
  constructor
  · constructor
    · rintro rfl
      exact ⟨hevent.symm.trans hevent', hcontracts.1 rfl, hsame.1 rfl⟩
    · intro halike
      obtain ⟨event, contracts, entries⟩ := canonical
      obtain ⟨event', contracts', entries'⟩ := canonical'
      rw [FilterRule.mk.injEq]
      exact ⟨hevent.trans (halike.event.trans hevent'.symm), hcontracts.2 halike.scope, hsame.2 halike.entries⟩
  · rw [ruleText_eq_iff hscope.solid hscope'.solid, hevent, hevent', hcontracts, hsame]
    exact ⟨fun ⟨h1, h2, h3⟩ => ⟨h1, h2, h3⟩, fun h => ⟨h.event, h.scope, h.entries⟩⟩

/-- A rule is refused for an address. -/
theorem canonicalRule_eq_none {rule : FilterRule Word} :
    canonicalRule normalizeAddress rule = none ↔ ∃ address ∈ rule.contracts.getD [], normalizeAddress address = none := by
  unfold canonicalRule canonicalScope
  rw [Option.map_eq_none_iff]
  cases rule.contracts with
  | none => simp
  | some contracts =>
    dsimp only
    rw [Option.map_eq_none_iff, Option.getD_some, mapM_eq_none_iff]

end Rule

/-! ### The rules -/

section Rules

variable (normalizeAddress : String → Option Word)

/-- An address of some rule is refused. -/
def Refused (rules : List (FilterRule Word)) : Prop :=
  ∃ rule ∈ rules, ∃ address ∈ rule.contracts.getD [], normalizeAddress address = none

/-- **The same rules come first**, of those that are the same but for white space. -/
def SameFirst (rules rules' : List (FilterRule Word)) : Prop :=
  (∀ rule, Distinct.IsFirst (Twins normalizeAddress) rules rule →
    ∃ rule', Distinct.IsFirst (Twins normalizeAddress) rules' rule' ∧ SameRule normalizeAddress rule rule') ∧
  ∀ rule', Distinct.IsFirst (Twins normalizeAddress) rules' rule' →
    ∃ rule, Distinct.IsFirst (Twins normalizeAddress) rules rule ∧ SameRule normalizeAddress rule rule'

variable {normalizeAddress} {rules rules' : List (FilterRule Word)}

theorem canonicalFilterRules_eq_none : canonicalFilterRules normalizeAddress rules = none ↔ Refused normalizeAddress rules := by
  unfold canonicalFilterRules Refused
  rw [Option.map_eq_none_iff, mapM_eq_none_iff]
  simp only [canonicalRule_eq_none]

/-- What is left of a list of rules is what comes first of its twins. -/
theorem mem_canonicalFilterRules {resolved : List (FilterRule Word)}
    (h : canonicalFilterRules normalizeAddress rules = some resolved) {canonical : FilterRule Word} :
    canonical ∈ resolved ↔ ∃ rule, Distinct.IsFirst (Twins normalizeAddress) rules rule ∧
      canonicalRule normalizeAddress rule = some canonical := by
  obtain ⟨canonicals, hcanonicals, rfl⟩ := Option.map_eq_some_iff.1 h
  rw [Distinct.mem_dedupeSorted]
  refine Distinct.isFirst_forall₂ (fun rule a b ha hb => ?_) (fun rule rule' a b ha hb => ?_) (mapM_eq_some_iff.1 hcanonicals)
  · exact Option.some.inj (ha.symm.trans hb)
  · exact (canonicalRule_eq_iff ha hb).2.symm

/-- Each rule of a list that is not refused is left as something. -/
theorem exists_canonicalRule {resolved : List (FilterRule Word)}
    (h : canonicalFilterRules normalizeAddress rules = some resolved) {rule : FilterRule Word} (hrule : rule ∈ rules) :
    ∃ canonical, canonicalRule normalizeAddress rule = some canonical := by
  obtain ⟨canonicals, hcanonicals, -⟩ := Option.map_eq_some_iff.1 h
  rw [← Option.ne_none_iff_exists']
  intro hnone
  rw [mapM_eq_none_iff.2 ⟨rule, hrule, hnone⟩] at hcanonicals
  cases hcanonicals

/-- **Which rules come out the same.** -/
theorem canonicalFilterRules_eq_iff {resolved resolved' : List (FilterRule Word)}
    (h : canonicalFilterRules normalizeAddress rules = some resolved)
    (h' : canonicalFilterRules normalizeAddress rules' = some resolved') :
    resolved = resolved' ↔ SameFirst normalizeAddress rules rules' := by
  constructor
  · rintro rfl
    constructor
    · intro rule hrule
      obtain ⟨canonical, hcanonical⟩ := exists_canonicalRule h hrule.mem
      obtain ⟨rule', hrule', hcanonical'⟩ :=
        (mem_canonicalFilterRules h').1 ((mem_canonicalFilterRules h).2 ⟨rule, hrule, hcanonical⟩)
      exact ⟨rule', hrule', (canonicalRule_eq_iff hcanonical hcanonical').1.1 rfl⟩
    · intro rule' hrule'
      obtain ⟨canonical, hcanonical'⟩ := exists_canonicalRule h' hrule'.mem
      obtain ⟨rule, hrule, hcanonical⟩ :=
        (mem_canonicalFilterRules h).1 ((mem_canonicalFilterRules h').2 ⟨rule', hrule', hcanonical'⟩)
      exact ⟨rule, hrule, (canonicalRule_eq_iff hcanonical hcanonical').1.1 rfl⟩
  · rintro ⟨hforth, hback⟩
    have hmem : ∀ canonical, canonical ∈ resolved ↔ canonical ∈ resolved' := by
      intro canonical
      constructor
      · intro hcanonical
        obtain ⟨rule, hrule, hcanonical⟩ := (mem_canonicalFilterRules h).1 hcanonical
        obtain ⟨rule', hrule', hsame⟩ := hforth rule hrule
        obtain ⟨canonical', hcanonical'⟩ := exists_canonicalRule h' hrule'.mem
        obtain rfl := (canonicalRule_eq_iff hcanonical hcanonical').1.2 hsame
        exact (mem_canonicalFilterRules h').2 ⟨rule', hrule', hcanonical'⟩
      · intro hmem
        obtain ⟨rule', hrule', hcanonical'⟩ := (mem_canonicalFilterRules h').1 hmem
        obtain ⟨rule, hrule, hsame⟩ := hback rule' hrule'
        obtain ⟨canonical', hcanonical⟩ := exists_canonicalRule h hrule.mem
        obtain rfl := (canonicalRule_eq_iff hcanonical hcanonical').1.2 hsame
        exact (mem_canonicalFilterRules h).2 ⟨rule, hrule, hcanonical⟩
    obtain ⟨canonicals, -, rfl⟩ := Option.map_eq_some_iff.1 h
    obtain ⟨canonicals', -, rfl⟩ := Option.map_eq_some_iff.1 h'
    rw [Distinct.dedupeSorted_eq_iff]
    intro canonical
    have := hmem canonical
    rwa [Distinct.mem_dedupeSorted, Distinct.mem_dedupeSorted] at this

/-- **Rules written one way are written that way again.** -/
theorem canonicalFilterRules_again (hfull : SpelledInFull normalizeAddress) {resolved : List (FilterRule Word)}
    (h : canonicalFilterRules normalizeAddress rules = some resolved) :
    canonicalFilterRules normalizeAddress resolved = some resolved := by
  have hagain : resolved.mapM (canonicalRule normalizeAddress) = some resolved := by
    rw [mapM_eq_some_iff, List.forall₂_same]
    intro canonical hcanonical
    obtain ⟨rule, -, hrule⟩ := (mem_canonicalFilterRules h).1 hcanonical
    exact canonicalRule_again hfull hrule
  obtain ⟨canonicals, -, rfl⟩ := Option.map_eq_some_iff.1 h
  unfold canonicalFilterRules
  rw [hagain, Option.map_some, Distinct.dedupeSorted_idem]

/-- Nothing is left of no rules only. -/
theorem canonicalFilterRules_eq_nil {resolved : List (FilterRule Word)}
    (h : canonicalFilterRules normalizeAddress rules = some resolved) : resolved = [] ↔ rules = [] := by
  constructor
  · rintro rfl
    cases rules with
    | nil => rfl
    | cons rule rules =>
      obtain ⟨canonical, hcanonical⟩ := exists_canonicalRule h List.mem_cons_self
      have := (mem_canonicalFilterRules h).2 ⟨rule, Distinct.isFirst_cons.2 (.inl rfl), hcanonical⟩
      exact absurd this List.not_mem_nil
  · rintro rfl
    exact (Option.some.inj h).symm

end Rules

/-! ### The config -/

section Config

/-- The rules of a config. -/
def ProvidedStreamConfig.rules (stream : ProvidedStreamConfig) : List (FilterRule Word) :=
  (stream.parse.bind (·.filters)).getD []

def ProvidedStreamConfig.parseAll (stream : ProvidedStreamConfig) : Bool :=
  (stream.parse.bind (·.parseAllEventsIrrespectiveOfAddresses)).getD false

/-- **Configs that differ in the spelling of their rules** and in nothing else. -/
structure RespeltConfig (normalizeAddress : String → Option Word) (stream stream' : ProvidedStreamConfig) : Prop where
  finality : stream.finality = stream'.finality
  parse : stream.parse.map (·.parseAllEventsIrrespectiveOfAddresses) =
    stream'.parse.map (·.parseAllEventsIrrespectiveOfAddresses)
  rules : SetAlike (Respelt normalizeAddress) stream.rules stream'.rules

variable {normalizeAddress : String → Option Word} {stream stream' : ProvidedStreamConfig}

/-- A config resolves to its rules written one way, and to none where it has none. -/
theorem resolveStreamConfig_eq : resolveStreamConfig normalizeAddress stream =
    (canonicalFilterRules normalizeAddress stream.rules).map fun rules =>
      ⟨stream.finality.getD 17, stream.parse.map fun parse =>
        ⟨parse.parseAllEventsIrrespectiveOfAddresses, if rules = [] then none else some rules⟩⟩ := by
  obtain ⟨finality, parse⟩ := stream
  unfold resolveStreamConfig resolveParseConfig ProvidedStreamConfig.rules
  cases parse with
  | none => rfl
  | some parse =>
    obtain ⟨parseAll, filters⟩ := parse
    cases filters with
    | none => rfl
    | some rules =>
      cases rules with
      | nil => rfl
      | cons rule rules =>
        show (Option.map _ (canonicalFilterRules normalizeAddress (rule :: rules))).map _ =
          (canonicalFilterRules normalizeAddress (rule :: rules)).map _
        cases hresolved : canonicalFilterRules normalizeAddress (rule :: rules) with
        | none => rfl
        | some resolved =>
          have hne : resolved ≠ [] := fun hnil => by cases (canonicalFilterRules_eq_nil hresolved).1 hnil
          simp [hne]

theorem rules_of_parse_none (h : stream.parse = none) : stream.rules = [] := by
  unfold ProvidedStreamConfig.rules
  rw [h]
  rfl

/-- What a config resolves to has the rules that are left, and the same flag. -/
theorem provided_rules {used : UsedStreamConfig (Option LogParseConfig)}
    (h : resolveStreamConfig normalizeAddress stream = some used) :
    canonicalFilterRules normalizeAddress stream.rules = some used.provided.rules ∧
      used.provided.parseAll = stream.parseAll := by
  rw [resolveStreamConfig_eq] at h
  obtain ⟨resolved, hresolved, rfl⟩ := Option.map_eq_some_iff.1 h
  cases hparse : stream.parse with
  | none =>
    have hnil := (canonicalFilterRules_eq_nil hresolved).2 (rules_of_parse_none hparse)
    rw [hresolved, hnil]
    exact ⟨rfl, by rw [ProvidedStreamConfig.parseAll, ProvidedStreamConfig.parseAll, hparse]; rfl⟩
  | some parse =>
    refine ⟨?_, by rw [ProvidedStreamConfig.parseAll, ProvidedStreamConfig.parseAll, hparse]; rfl⟩
    rw [hresolved, Option.some.injEq]
    show _ = (if resolved = [] then none else some resolved).getD []
    split
    · assumption
    · rfl

/-- **Resolving a resolved config changes nothing.** -/
theorem resolveStreamConfig_idem (hfull : SpelledInFull normalizeAddress) {used : UsedStreamConfig (Option LogParseConfig)}
    (h : resolveStreamConfig normalizeAddress stream = some used) :
    resolveStreamConfig normalizeAddress used.provided = some used := by
  obtain ⟨hrules, -⟩ := provided_rules h
  have hagain := canonicalFilterRules_again hfull hrules
  rw [resolveStreamConfig_eq] at h
  obtain ⟨resolved, hresolved, rfl⟩ := Option.map_eq_some_iff.1 h
  rw [resolveStreamConfig_eq, hagain, ← hrules, hresolved, Option.map_some, Option.some.injEq, UsedStreamConfig.mk.injEq]
  exact ⟨rfl, Option.map_map _ _ _⟩

/-- **Which configs resolve equal**, of those that have the same finality and the same flag. -/
theorem resolveStreamConfig_eq_iff (hfinality : stream.finality = stream'.finality)
    (hparse : stream.parse.map (·.parseAllEventsIrrespectiveOfAddresses) =
      stream'.parse.map (·.parseAllEventsIrrespectiveOfAddresses)) :
    resolveStreamConfig normalizeAddress stream = resolveStreamConfig normalizeAddress stream' ↔
      canonicalFilterRules normalizeAddress stream.rules = canonicalFilterRules normalizeAddress stream'.rules := by
  have hmap : ∀ (stream : ProvidedStreamConfig) (rules : List (FilterRule Word)),
      (stream.parse.map fun parse => (⟨parse.parseAllEventsIrrespectiveOfAddresses,
        if rules = [] then none else some rules⟩ : LogParseConfig)) =
      (stream.parse.map (·.parseAllEventsIrrespectiveOfAddresses)).map fun parseAll =>
        ⟨parseAll, if rules = [] then none else some rules⟩ := by
    intro stream rules
    rw [Option.map_map]
    rfl
  rw [resolveStreamConfig_eq, resolveStreamConfig_eq, hfinality]
  simp only [hmap, hparse]
  cases hflag : stream'.parse.map (·.parseAllEventsIrrespectiveOfAddresses) with
  | none =>
    rw [rules_of_parse_none (Option.map_eq_none_iff.1 hflag),
      rules_of_parse_none (Option.map_eq_none_iff.1 (hparse.trans hflag))]
    exact iff_of_true rfl rfl
  | some parseAll =>
    refine (Option.map_injective fun rules rules' h => ?_).eq_iff
    injection h with _ h
    injection h with h
    injection h with _ h
    by_cases hnil : rules = []
    · by_cases hnil' : rules' = []
      · rw [hnil, hnil']
      · rw [if_pos hnil, if_neg hnil'] at h
        cases h
    · by_cases hnil' : rules' = []
      · rw [if_neg hnil, if_pos hnil'] at h
        cases h
      · rw [if_neg hnil, if_neg hnil'] at h
        exact Option.some.inj h

theorem RespeltConfig.refused_iff (h : RespeltConfig normalizeAddress stream stream') :
    Refused normalizeAddress stream.rules ↔ Refused normalizeAddress stream'.rules := by
  have hscope : ∀ {rule rule' : FilterRule Word}, Respelt normalizeAddress rule rule' →
      ((∃ address ∈ rule.contracts.getD [], normalizeAddress address = none) ↔
        ∃ address ∈ rule'.contracts.getD [], normalizeAddress address = none) := by
    intro rule rule' halike
    have hscope := halike.scope
    unfold SameScope at hscope
    cases hcontracts : rule.contracts with
    | none =>
      cases hcontracts' : rule'.contracts with
      | none => rfl
      | some contracts' =>
        rw [hcontracts, hcontracts'] at hscope
        exact hscope.elim
    | some contracts =>
      cases hcontracts' : rule'.contracts with
      | none =>
        rw [hcontracts, hcontracts'] at hscope
        exact hscope.elim
      | some contracts' =>
        rw [hcontracts, hcontracts'] at hscope
        simpa using hscope none
  constructor
  · rintro ⟨rule, hrule, hrefused⟩
    obtain ⟨rule', hrule', halike⟩ := h.rules.1 rule hrule
    exact ⟨rule', hrule', (hscope halike).1 hrefused⟩
  · rintro ⟨rule', hrule', hrefused⟩
    obtain ⟨rule, hrule, halike⟩ := h.rules.2 rule' hrule'
    exact ⟨rule, hrule, (hscope halike).2 hrefused⟩

/-- **Which spellings of one meaning resolve equal.** -/
theorem respelt_resolves_iff (h : RespeltConfig normalizeAddress stream stream') :
    resolveStreamConfig normalizeAddress stream = resolveStreamConfig normalizeAddress stream' ↔
      Refused normalizeAddress stream.rules ∨ SameFirst normalizeAddress stream.rules stream'.rules := by
  rw [resolveStreamConfig_eq_iff h.finality h.parse]
  by_cases hrefused : Refused normalizeAddress stream.rules
  · refine iff_of_true ?_ (.inl hrefused)
    rw [canonicalFilterRules_eq_none.2 hrefused, canonicalFilterRules_eq_none.2 (h.refused_iff.1 hrefused)]
  · obtain ⟨resolved, hresolved⟩ := Option.ne_none_iff_exists'.1 (mt canonicalFilterRules_eq_none.1 hrefused)
    obtain ⟨resolved', hresolved'⟩ :=
      Option.ne_none_iff_exists'.1 (mt canonicalFilterRules_eq_none.1 (mt h.refused_iff.2 hrefused))
    rw [hresolved, hresolved', Option.some.injEq, canonicalFilterRules_eq_iff hresolved hresolved']
    simp [hrefused]

end Config

/-! ### Which logs are asked for -/

section Plan

variable {normalizeAddress : String → Option Word} {s : Selectors Word} {contracts : ContractsData}

/-- **The names of a source are identifiers**: a signature tells its name, and neither has white space. -/
structure Identifiers (s : Selectors Word) (contracts : ContractsData) : Prop where
  name_of_signature : ∀ event event', s.toEventSignature event = s.toEventSignature event' → event.name = event'.name
  name : ∀ event, contracts.Declares event → solidText event.name = event.name
  signature : ∀ event, contracts.Declares event → solidText (s.toEventSignature event) = s.toEventSignature event

theorem SameForm.accepts_iff {slot slot' : Slot Word} (h : slot.SameForm slot') (topic : Word) :
    slot.Accepts topic ↔ slot'.Accepts topic := by
  cases slot with
  | wildcard =>
    cases slot' with
    | wildcard => rfl
    | topic t => exact h.elim
    | anyOf ts => exact h.elim
  | topic t =>
    cases slot' with
    | topic t' => rw [show t = t' from h]
    | wildcard => exact h.elim
    | anyOf ts => exact h.elim
  | anyOf ts =>
    cases slot' with
    | anyOf ts' =>
      have hmem : ∀ t, t ∈ ts ↔ t ∈ ts' := h
      simp only [Slot.Accepts, List.eq_nil_iff_forall_not_mem, hmem]
    | wildcard => exact h.elim
    | topic t => exact h.elim

/-- Alike entries are satisfied by the same arguments. -/
theorem EntryAlike.satisfied_iff {entry entry' : ArgumentFilter Word} (h : EntryAlike Slot.SameForm entry entry')
    (arguments : List Word) : Satisfied entry arguments ↔ Satisfied entry' arguments := by
  rw [← matches_iff_satisfied, ← matches_iff_satisfied]
  unfold EntryAlike at h
  generalize withoutTrailingWildcards entry = slots at h ⊢
  generalize withoutTrailingWildcards entry' = slots' at h ⊢
  induction h generalizing arguments with
  | nil => rfl
  | cons hslot _ ih =>
    cases arguments with
    | nil => rfl
    | cons argument arguments => rw [MatchesTopics, MatchesTopics, SameForm.accepts_iff hslot, ih]

theorem SameRule.satisfied_iff {rule rule' : FilterRule Word} (h : SameRule normalizeAddress rule rule')
    (arguments : List Word) :
    (∃ entry ∈ rule.entries, Satisfied entry arguments) ↔ ∃ entry ∈ rule'.entries, Satisfied entry arguments := by
  constructor
  · rintro ⟨entry, hentry, hsatisfied⟩
    obtain ⟨entry', hentry', halike⟩ := h.entries.1 entry hentry
    exact ⟨entry', hentry', (halike.satisfied_iff arguments).1 hsatisfied⟩
  · rintro ⟨entry', hentry', hsatisfied⟩
    obtain ⟨entry, hentry, halike⟩ := h.entries.2 entry' hentry'
    exact ⟨entry, hentry, (halike.satisfied_iff arguments).2 hsatisfied⟩

theorem SameRule.reaches_iff {rule rule' : FilterRule Word} (h : SameRule normalizeAddress rule rule') {address topic0 : Word} :
    rule.Reaches s normalizeAddress contracts address topic0 ↔ rule'.Reaches s normalizeAddress contracts address topic0 := by
  have hscope := h.scope
  have hwanted : ∀ event, wanted s rule event = wanted s rule' event := by
    intro event
    unfold wanted
    rw [show rule.event = rule'.event from h.event]
  have hwithin : (∀ scope, rule.contracts = some scope → ∃ contract ∈ scope, normalizeAddress contract = some address) ↔
      ∀ scope, rule'.contracts = some scope → ∃ contract ∈ scope, normalizeAddress contract = some address := by
    unfold SameScope at hscope
    cases hcontracts : rule.contracts with
    | none =>
      cases hcontracts' : rule'.contracts with
      | none => rfl
      | some scope' =>
        rw [hcontracts, hcontracts'] at hscope
        exact hscope.elim
    | some scope =>
      cases hcontracts' : rule'.contracts with
      | none =>
        rw [hcontracts, hcontracts'] at hscope
        exact hscope.elim
      | some scope' =>
        rw [hcontracts, hcontracts'] at hscope
        simpa using hscope (some address)
  unfold FilterRule.Reaches
  rw [hwithin]
  simp only [hwanted]

/-- An accepted rule names an event of the source. -/
theorem exists_wanted {declarations : List (SourceDeclaration Word)} {rule : FilterRule Word}
    {reaches : List (RuleReach Word Word)} (h : reachesOf s normalizeAddress declarations rule = .ok reaches) :
    ∃ d ∈ declarations, wanted s rule d.event := by
  unfold reachesOf at h
  obtain ⟨_, -, h⟩ := bind_eq_ok.1 h
  split at h
  · cases h
  dsimp only at h
  split at h
  · cases h
  rename_i hne
  obtain ⟨d, hd⟩ := List.exists_mem_of_ne_nil _ fun hnil => hne (List.isEmpty_iff.2 hnil)
  exact ⟨d, (List.mem_filter.1 hd).1, (List.mem_filter.1 hd).2⟩

/-- **What an accepted rule calls its event has no white space**, and the event has a topic. -/
theorem event_of_accepted (hident : Identifiers s contracts) {rules : List (FilterRule Word)} {parseAll : Bool}
    {fetcher : LogEventFetcher Word Word}
    (h : logEventFetcherOf s normalizeAddress contracts rules parseAll = .ok fetcher) {rule : FilterRule Word}
    (hrule : rule ∈ rules) :
    solidText rule.event = rule.event ∧ ∃ event, contracts.Declares event ∧ (topic0Of s event).isSome := by
  obtain ⟨declarations, hpresents, hfilters, -, -⟩ := logEventFetcherOf_ok h
  unfold filtersOf at hfilters
  rw [if_neg (by simpa using List.ne_nil_of_mem hrule)] at hfilters
  split at hfilters
  swap
  · cases hfilters
  rename_i resolved hresolved
  obtain ⟨lists, hlists, -⟩ := bind_eq_ok.1 hresolved
  obtain ⟨reaches, -, hreaches⟩ := exists_of_mapM_ok hlists hrule
  obtain ⟨d, hd, hwanted⟩ := exists_wanted hreaches
  obtain ⟨address, hat⟩ : ∃ address : Word, d.address = none ∨ d.address = some address := by
    cases haddress : d.address with
    | none => exact ⟨⟨"", by decide⟩, .inl rfl⟩
    | some address => exact ⟨address, .inr rfl⟩
  obtain ⟨event, hevent, hwanted⟩ :=
    (hpresents.declares _ (shared_wanted hident.name_of_signature rule) address).1 ⟨d, hd, hat, hwanted⟩
  have hdeclares := hevent.declares.1
  unfold wanted at hwanted
  rw [Bool.and_eq_true] at hwanted
  refine ⟨?_, event, hdeclares, ?_⟩
  · split_ifs at hwanted
    · rw [← of_decide_eq_true hwanted.2]
      exact hident.signature event hdeclares
    · rw [← of_decide_eq_true hwanted.2]
      exact hident.name event hdeclares
  · unfold topic0Of
    rw [if_neg (by simpa using hwanted.1)]
    rfl

/-- Where no event is called with white space, a rule that comes out in one list is in the other. -/
theorem exists_sameRule {rules rules' resolved : List (FilterRule Word)}
    (h : canonicalFilterRules normalizeAddress rules = some resolved)
    (h' : canonicalFilterRules normalizeAddress rules' = some resolved)
    (hsolid : ∀ rule ∈ rules, solidText rule.event = rule.event)
    {rule : FilterRule Word} (hrule : rule ∈ rules) : ∃ rule' ∈ rules', SameRule normalizeAddress rule rule' := by
  obtain ⟨canonicals, hcanonicals, heq⟩ := Option.map_eq_some_iff.1 h
  obtain ⟨canonical, hmem, hcanonical⟩ := exists_source (mapM_eq_some_iff.1 hcanonicals).flip hrule
  -- its twin that comes first is the same rule
  obtain ⟨first, hfirst, htext⟩ :=
    Distinct.exists_isFirst (R := fun w v => canonicalText (ruleValue w) = canonicalText (ruleValue v))
      (fun _ => rfl) (fun _ _ _ => Eq.trans) hmem
  have hresolved : first ∈ resolved := by
    rw [← heq]
    exact Distinct.mem_dedupeSorted.2 hfirst
  obtain ⟨twin, htwin, hcanonicalTwin⟩ := (mem_canonicalFilterRules h).1 hresolved
  have halike := (canonicalRule_eq_iff hcanonicalTwin hcanonical).2.1 htext
  have hevent : twin.event = rule.event := by
    rw [← hsolid twin htwin.mem, ← hsolid rule hrule]
    exact halike.event
  have hsame := (canonicalRule_eq_iff hcanonicalTwin hcanonical).1.2 ⟨hevent, halike.scope, halike.entries⟩
  obtain ⟨rule', hrule', hcanonical'⟩ := (mem_canonicalFilterRules h').1 hresolved
  exact ⟨rule', hrule'.mem, (canonicalRule_eq_iff hcanonical hcanonical').1.1 hsame.symm⟩

/-- **Configs that resolve equal ask for the same logs** of a source that accepts them. -/
theorem plan_congr {H : Type} {stream stream' : ProvidedStreamConfig} {used : UsedStreamConfig (Option LogParseConfig)}
    (h : resolveStreamConfig normalizeAddress stream = some used)
    (h' : resolveStreamConfig normalizeAddress stream' = some used) (hident : Identifiers s contracts)
    {fetcher fetcher' : LogEventFetcher Word Word}
    (hfetcher : logEventFetcherOf s normalizeAddress contracts stream.rules stream.parseAll = .ok fetcher)
    (hfetcher' : logEventFetcherOf s normalizeAddress contracts stream'.rules stream'.parseAll = .ok fetcher')
    (log : IncludedLog Word Word H) :
    AskedFor (requestsOf fetcher.contractAddresses (some fetcher.eventNameTopics) fetcher.filters) log ↔
      AskedFor (requestsOf fetcher'.contractAddresses (some fetcher'.eventNameTopics) fetcher'.filters) log := by
  obtain ⟨hrules, hflag⟩ := provided_rules h
  obtain ⟨hrules', hflag'⟩ := provided_rules h'
  have hsolid : ∀ rule ∈ stream.rules, solidText rule.event = rule.event := fun rule hrule =>
    (event_of_accepted hident hfetcher hrule).1
  have hsolid' : ∀ rule ∈ stream'.rules, solidText rule.event = rule.event := fun rule hrule =>
    (event_of_accepted hident hfetcher' hrule).1
  by_cases hnil : stream.rules = []
  · -- neither has a rule
    have hnil' := (canonicalFilterRules_eq_nil hrules').1 ((canonicalFilterRules_eq_nil hrules).2 hnil)
    rw [hnil, ← hflag] at hfetcher
    rw [hnil', ← hflag', hfetcher] at hfetcher'
    injection hfetcher' with heq
    rw [heq]
  obtain ⟨rule, hrule⟩ := List.exists_mem_of_ne_nil _ hnil
  have hdeclares := (event_of_accepted hident hfetcher hrule).2
  rw [plan_keeps_iff hident.name_of_signature hfetcher hdeclares, plan_keeps_iff hident.name_of_signature hfetcher' hdeclares]
  -- what some rule of the one list is, some rule of the other is
  have hsome : ∀ P : FilterRule Word → Prop, (∀ rule rule', SameRule normalizeAddress rule rule' → (P rule ↔ P rule')) →
      ((∃ rule ∈ stream.rules, P rule) ↔ ∃ rule ∈ stream'.rules, P rule) := by
    intro P hP
    constructor
    · rintro ⟨rule, hrule, h⟩
      obtain ⟨rule', hrule', hsame⟩ := exists_sameRule hrules hrules' hsolid hrule
      exact ⟨rule', hrule', (hP rule rule' hsame).1 h⟩
    · rintro ⟨rule', hrule', h⟩
      obtain ⟨rule, hrule, hsame⟩ := exists_sameRule hrules' hrules hsolid' hrule'
      exact ⟨rule, hrule, (hP rule' rule hsame).1 h⟩
  have hall : ∀ P : FilterRule Word → Prop, (∀ rule rule', SameRule normalizeAddress rule rule' → (P rule ↔ P rule')) →
      ((∀ rule ∈ stream.rules, ¬ P rule) ↔ ∀ rule ∈ stream'.rules, ¬ P rule) := by
    intro P hP
    have := not_congr (hsome P hP)
    push Not at this
    exact this
  refine exists_congr fun topic0 => exists_congr fun arguments => and_congr_right fun _ => or_congr ?_ (and_congr ?_
    (or_congr_right (and_congr_left fun _ => ?_)))
  · exact hsome (fun rule => rule.Reaches s normalizeAddress contracts log.address topic0 ∧
        ∃ entry ∈ rule.entries, Satisfied entry arguments) fun rule rule' hsame =>
      and_congr hsame.reaches_iff (hsame.satisfied_iff arguments)
  · exact hall _ fun rule rule' hsame => hsame.reaches_iff
  · have := hall (fun rule => ∃ other, rule.Reaches s normalizeAddress contracts other topic0) fun rule rule' hsame =>
      exists_congr fun other => hsame.reaches_iff
    simpa using this

/-- **Which spellings of one meaning are one stream.** Resolving is idempotent, and configs that
resolve equal ask for the same logs. Spellings resolve equal where they write one topic the same way,
as a value or as a list, and, of rules that are the same but for white space, have the same one first. -/
theorem one_stream_iff {H : Type} (hfull : SpelledInFull normalizeAddress) (stream stream' : ProvidedStreamConfig) :
    ((∀ used, resolveStreamConfig normalizeAddress stream = some used →
        resolveStreamConfig normalizeAddress used.provided = some used) ∧
      (RespeltConfig normalizeAddress stream stream' →
        resolveStreamConfig normalizeAddress stream = resolveStreamConfig normalizeAddress stream') ∧
      ∀ used, resolveStreamConfig normalizeAddress stream = some used →
        resolveStreamConfig normalizeAddress stream' = some used →
        ∀ (s : Selectors Word) (contracts : ContractsData), Identifiers s contracts →
        ∀ fetcher fetcher', logEventFetcherOf s normalizeAddress contracts stream.rules stream.parseAll = .ok fetcher →
        logEventFetcherOf s normalizeAddress contracts stream'.rules stream'.parseAll = .ok fetcher' →
        ∀ log : IncludedLog Word Word H,
          AskedFor (requestsOf fetcher.contractAddresses (some fetcher.eventNameTopics) fetcher.filters) log ↔
            AskedFor (requestsOf fetcher'.contractAddresses (some fetcher'.eventNameTopics) fetcher'.filters) log) ↔
      (RespeltConfig normalizeAddress stream stream' →
        Refused normalizeAddress stream.rules ∨ SameFirst normalizeAddress stream.rules stream'.rules) := by
  constructor
  · rintro ⟨-, hresolves, -⟩ hrespelt
    exact (respelt_resolves_iff hrespelt).1 (hresolves hrespelt)
  · intro h
    refine ⟨fun used hused => resolveStreamConfig_idem hfull hused,
      fun hrespelt => (respelt_resolves_iff hrespelt).2 (h hrespelt), ?_⟩
    intro used hused hused' s contracts hident fetcher fetcher' hfetcher hfetcher' log
    exact plan_congr hused hused' hident hfetcher hfetcher' log

end Plan

/-- Addresses taken as they are spelt. -/
def asSpelt (address : String) : Option Word :=
  if h : solidText address = address then some ⟨address, h⟩ else none

theorem asSpelt_full : SpelledInFull asSpelt := by
  intro address word h
  unfold asSpelt
  rw [dif_pos word.solid]

def wordA : Word := ⟨"0xa", by decide⟩

def wordB : Word := ⟨"0xb", by decide⟩

/-- A config of some rules and nothing else. -/
def configOf (rules : List (FilterRule Word)) : ProvidedStreamConfig := ⟨none, some ⟨none, some rules⟩⟩

theorem setAlike_singleton {α : Type} {R : α → α → Prop} {v v' : α} (h : R v v') : SetAlike R [v] [v'] := by
  refine ⟨fun w hw => ?_, fun w hw => ?_⟩
  · obtain rfl := List.mem_singleton.1 hw
    exact ⟨v', List.mem_singleton_self v', h⟩
  · obtain rfl := List.mem_singleton.1 hw
    exact ⟨v, List.mem_singleton_self v, h⟩

theorem sameFirst_singleton {normalizeAddress : String → Option Word} {rule rule' : FilterRule Word}
    (h : SameRule normalizeAddress rule rule') : SameFirst normalizeAddress [rule] [rule'] := by
  refine ⟨fun first hfirst => ?_, fun first hfirst => ?_⟩
  · obtain rfl := List.mem_singleton.1 hfirst.mem
    exact ⟨rule', Distinct.isFirst_cons.2 (.inl rfl), h⟩
  · obtain rfl := List.mem_singleton.1 hfirst.mem
    exact ⟨rule, Distinct.isFirst_cons.2 (.inl rfl), h⟩

/-- What writes one topic the same way lists the same topics. -/
theorem Slot.SameForm.respells {slot slot' : Slot Word} (h : slot.SameForm slot') : slot.Respells slot' := by
  cases slot <;> cases slot' <;> simp_all [Slot.SameForm, Slot.Respells, Slot.listed]

theorem SameRule.respelt {normalizeAddress : String → Option Word} {rule rule' : FilterRule Word}
    (h : SameRule normalizeAddress rule rule') : Respelt normalizeAddress rule rule' := by
  refine ⟨h.event, h.scope, fun entry hentry => ?_, fun entry hentry => ?_⟩
  · obtain ⟨entry', hentry', halike⟩ := h.entries.1 entry hentry
    exact ⟨entry', hentry', halike.imp fun _ _ => Slot.SameForm.respells⟩
  · obtain ⟨entry', hentry', halike⟩ := h.entries.2 entry hentry
    exact ⟨entry', hentry', halike.imp fun _ _ => Slot.SameForm.respells⟩

/-- A rule whose entries are written in another order, one of them twice and with a wildcard behind it. -/
theorem one_stream_repeated :
    resolveStreamConfig asSpelt (configOf [⟨"Transfer", none, [[.topic wordA], [.anyOf [wordA, wordB]]]⟩]) =
      resolveStreamConfig asSpelt (configOf [⟨"Transfer", none,
        [[.anyOf [wordB, wordA, wordB], .wildcard], [.topic wordA], [.topic wordA, .wildcard]]⟩]) := by
  have hsame : SameRule asSpelt ⟨"Transfer", none, [[.topic wordA], [.anyOf [wordA, wordB]]]⟩ ⟨"Transfer", none,
      [[.anyOf [wordB, wordA, wordB], .wildcard], [.topic wordA], [.topic wordA, .wildcard]]⟩ := by
    refine ⟨rfl, trivial, ?_⟩
    simp only [SetAlike, ← canonicalArgumentFilter_eq_iff]
    decide
  have hrespelt : RespeltConfig asSpelt
      (configOf [⟨"Transfer", none, [[.topic wordA], [.anyOf [wordA, wordB]]]⟩]) (configOf [⟨"Transfer", none,
        [[.anyOf [wordB, wordA, wordB], .wildcard], [.topic wordA], [.topic wordA, .wildcard]]⟩]) :=
    ⟨rfl, rfl, setAlike_singleton hsame.respelt⟩
  have hone := @one_stream_iff asSpelt Unit asSpelt_full
    (configOf [⟨"Transfer", none, [[.topic wordA], [.anyOf [wordA, wordB]]]⟩]) (configOf [⟨"Transfer", none,
      [[.anyOf [wordB, wordA, wordB], .wildcard], [.topic wordA], [.topic wordA, .wildcard]]⟩])
  exact (hone.2 fun _ => .inr (sameFirst_singleton hsame)).2.1 hrespelt

/-- **One topic as a value and as a list of itself are two streams**, and so are two rules, one of
them with white space in its event, in either order. -/
theorem two_streams :
    (RespeltConfig asSpelt (configOf [⟨"Transfer", none, [[.topic wordA]]⟩])
        (configOf [⟨"Transfer", none, [[.anyOf [wordA]]]⟩]) ∧
      resolveStreamConfig asSpelt (configOf [⟨"Transfer", none, [[.topic wordA]]⟩]) ≠
        resolveStreamConfig asSpelt (configOf [⟨"Transfer", none, [[.anyOf [wordA]]]⟩])) ∧
    RespeltConfig asSpelt (configOf [⟨"E(a, b)", none, [[.topic wordA]]⟩, ⟨"E(a,b)", none, [[.topic wordA]]⟩])
        (configOf [⟨"E(a,b)", none, [[.topic wordA]]⟩, ⟨"E(a, b)", none, [[.topic wordA]]⟩]) ∧
      resolveStreamConfig asSpelt (configOf [⟨"E(a, b)", none, [[.topic wordA]]⟩, ⟨"E(a,b)", none, [[.topic wordA]]⟩]) ≠
        resolveStreamConfig asSpelt (configOf [⟨"E(a,b)", none, [[.topic wordA]]⟩, ⟨"E(a, b)", none, [[.topic wordA]]⟩]) := by
  refine ⟨⟨⟨rfl, rfl, ?_⟩, by decide⟩, ⟨rfl, rfl, ?_⟩, by decide⟩
  · refine setAlike_singleton ⟨rfl, trivial, setAlike_singleton (.cons ?_ .nil)⟩
    show ∀ t, t ∈ [wordA] ↔ t ∈ [wordA]
    simp
  · have hself : ∀ event, Respelt asSpelt ⟨event, none, [[.topic wordA]]⟩ ⟨event, none, [[.topic wordA]]⟩ := by
      intro event
      exact SameRule.respelt ⟨rfl, trivial, setAlike_singleton (canonicalArgumentFilter_eq_iff.1 rfl)⟩
    refine ⟨fun rule hrule => ⟨rule, (List.Perm.swap _ _ _).mem_iff.1 hrule, ?_⟩,
      fun rule hrule => ⟨rule, (List.Perm.swap _ _ _).mem_iff.1 hrule, ?_⟩⟩
    · rcases List.mem_cons.1 hrule with rfl | hrule
      · exact hself _
      · obtain rfl := List.mem_singleton.1 hrule
        exact hself _
    · rcases List.mem_cons.1 hrule with rfl | hrule
      · exact hself _
      · obtain rfl := List.mem_singleton.1 hrule
        exact hself _

end Etherfold
