import Etherfold.Fetch.FilterRules

/-!
# Which logs a filtered plan asks for

A rule that is accepted reaches the events it names at the contracts it is scoped
to. There a log has to satisfy one of its entries; what a rule reached but did not
cover is left over, and what no rule mentions is asked for at every address.

* `mem_reachesOf`: what an accepted rule reaches.
* `matches_iff_satisfied`: dropping trailing wildcards asks for the same logs.
* `leftover_iff`: what the rules leave over.
* `plan_keeps_iff`: **which logs the plan of a source and its rules asks for.**
-/

namespace Etherfold

section Source

variable {A T : Type} [DecidableEq A] [DecidableEq T] {s : Selectors T} {normalizeAddress : String → Option A}
  {declarations : List (SourceDeclaration A)}

/-! ### What the rules reach -/

variable (s normalizeAddress) in
/-- A declaration a rule is about: one it names, at a contract it is scoped to. -/
def FilterRule.IsAbout (rule : FilterRule T) (d : SourceDeclaration A) : Prop :=
  wanted s rule d.event ∧ ∀ contracts, rule.contracts = some contracts →
    ∃ address, d.address = some address ∧ ∃ contract ∈ contracts, normalizeAddress contract = some address

omit [DecidableEq A] [DecidableEq T] in
theorem addressLess_iff : addressLess declarations ↔ ∀ d ∈ declarations, d.address = none := by
  unfold addressLess
  simp

omit [DecidableEq T] in
/-- The contracts a rule is scoped to. -/
theorem scopeAddressesOf_ok {rule : FilterRule T} {candidates : List (SourceDeclaration A)} {scope : Option (List A)}
    (h : scopeAddressesOf normalizeAddress rule candidates = .ok scope) :
    (rule.contracts = none ∧ scope = none) ∨
      ∃ contracts addresses, rule.contracts = some contracts ∧ scope = some addresses ∧
        ∀ address, address ∈ addresses ↔ ∃ contract ∈ contracts, normalizeAddress contract = some address := by
  unfold scopeAddressesOf at h
  split at h
  · rename_i hnone
    injection h with h
    exact .inl ⟨hnone, h.symm⟩
  · rename_i contracts hsome
    obtain ⟨addresses, haddresses, h⟩ := bind_eq_ok.1 h
    dsimp only at h
    split at h
    · cases h
    · injection h with h
      refine .inr ⟨contracts, addresses, hsome, h.symm, fun address => ?_⟩
      rw [mem_mapM_ok_iff haddresses]
      refine exists_congr fun contract => and_congr_right fun _ => ?_
      cases normalizeAddress contract <;> simp

omit [DecidableEq T] in
/-- The declarations a rule is about are those it is resolved against. -/
theorem mem_withinScope {rule : FilterRule T} {scope : Option (List A)}
    (h : scopeAddressesOf normalizeAddress rule (declarations.filter fun d => wanted s rule d.event) = .ok scope)
    {d : SourceDeclaration A} :
    d ∈ withinScope scope (declarations.filter fun d => wanted s rule d.event) ↔
      d ∈ declarations ∧ rule.IsAbout s normalizeAddress d := by
  unfold FilterRule.IsAbout withinScope
  rcases scopeAddressesOf_ok h with ⟨hnone, rfl⟩ | ⟨contracts, addresses, hsome, rfl, haddresses⟩
  · simp [hnone, List.mem_filter]
  · simp only [List.mem_filter, hsome, Option.some.injEq, forall_eq', and_assoc, Option.any_eq_true,
      decide_eq_true_eq, haddresses]

theorem reachOf_ok {inScope : List (SourceDeclaration A)} {rule : FilterRule T} {topic0 : T} {reach : RuleReach A T}
    (h : reachOf s declarations inScope rule topic0 = .ok reach) :
    reach = ⟨topic0, if addressLess declarations then none
      else some ((inScope.filter fun d => decide (topic0Of s d.event = some topic0)).filterMap (·.address)).eraseDups,
      rule.entries⟩ := by
  unfold reachOf at h
  dsimp only at h
  split at h
  · cases h
  · split at h
    · cases h
    · injection h with h
      exact h.symm

/-- An accepted rule constrains something, and is resolved topic by topic against the
declarations it is about. -/
theorem reachesOf_ok {rule : FilterRule T} {reaches : List (RuleReach A T)}
    (h : reachesOf s normalizeAddress declarations rule = .ok reaches) :
    rule.entries ≠ [] ∧ (rule.contracts.isSome → ¬ addressLess declarations) ∧ ∃ inScope : List (SourceDeclaration A),
      (∀ d, d ∈ inScope ↔ d ∈ declarations ∧ rule.IsAbout s normalizeAddress d) ∧
      ((inScope.filterMap fun d => topic0Of s d.event).eraseDups).mapM (reachOf s declarations inScope rule) =
        .ok reaches := by
  unfold reachesOf at h
  obtain ⟨_, hconstrains, h⟩ := bind_eq_ok.1 h
  have hentries : rule.entries ≠ [] := by
    unfold assertConstrains at hconstrains
    split at hconstrains
    · cases hconstrains
    · rename_i hsome
      exact fun hnil => hsome (by rw [hnil]; rfl)
  refine ⟨hentries, ?_⟩
  split at h
  · cases h
  rename_i hscoped
  refine ⟨fun hsome hless => hscoped (by rw [hsome, hless]; rfl), ?_⟩
  dsimp only at h
  split at h
  · cases h
  obtain ⟨scope, hscope, h⟩ := bind_eq_ok.1 h
  exact ⟨_, fun d => mem_withinScope hscope, h⟩

/-- **What an accepted rule reaches**: each topic of a declaration it is about, with its entries,
at the addresses of those declarations. -/
theorem mem_reachesOf {rule : FilterRule T} {reaches : List (RuleReach A T)}
    (h : reachesOf s normalizeAddress declarations rule = .ok reaches) :
    (∀ d ∈ declarations, rule.IsAbout s normalizeAddress d → ∀ topic0, topic0Of s d.event = some topic0 →
      ∃ reach ∈ reaches, reach.topic0 = topic0) ∧
    ∀ reach ∈ reaches, reach.entries = rule.entries ∧
      (∃ d ∈ declarations, rule.IsAbout s normalizeAddress d ∧ topic0Of s d.event = some reach.topic0) ∧
      (addressLess declarations → reach.requestScope = none) ∧
      (¬ addressLess declarations → ∃ addresses, reach.requestScope = some addresses ∧ ∀ address, address ∈ addresses ↔
        ∃ d ∈ declarations, rule.IsAbout s normalizeAddress d ∧ topic0Of s d.event = some reach.topic0 ∧
          d.address = some address) := by
  obtain ⟨-, -, inScope, hscope, hreaches⟩ := reachesOf_ok h
  have htopic : ∀ topic0, topic0 ∈ (inScope.filterMap fun d => topic0Of s d.event).eraseDups ↔
      ∃ d ∈ declarations, rule.IsAbout s normalizeAddress d ∧ topic0Of s d.event = some topic0 := by
    intro topic0
    simp only [List.mem_eraseDups, List.mem_filterMap, hscope, and_assoc]
  constructor
  · intro d hd habout topic0 htopic0
    obtain ⟨reach, hreach, hok⟩ := exists_of_mapM_ok hreaches ((htopic topic0).2 ⟨d, hd, habout, htopic0⟩)
    exact ⟨reach, hreach, congrArg RuleReach.topic0 (reachOf_ok hok)⟩
  · intro reach hreach
    obtain ⟨topic0, htopic0, hok⟩ := mem_of_mapM_ok hreaches hreach
    obtain rfl := reachOf_ok hok
    refine ⟨rfl, (htopic topic0).1 htopic0, fun hless => if_pos hless, fun hless => ⟨_, if_neg hless, fun address => ?_⟩⟩
    simp only [List.mem_eraseDups, List.mem_filterMap, List.mem_filter, hscope, decide_eq_true_eq, and_assoc]

/-! ### Which logs the plan asks for -/

variable (s normalizeAddress) in
/-- **A rule reaches an event at an address**: the source declares it there, under a name or
signature the rule names, and the rule is scoped to that contract or to none. -/
def FilterRule.Reaches (rule : FilterRule T) (contracts : ContractsData) (address : A) (topic0 : T) : Prop :=
  (∀ scope, rule.contracts = some scope → ∃ contract ∈ scope, normalizeAddress contract = some address) ∧
    ∃ event, contracts.DeclaresAt normalizeAddress address event ∧ wanted s rule event ∧ topic0Of s event = some topic0

/-- **An entry is satisfied**: every slot that constrains something is met by the argument in
its place. -/
def Satisfied (entry : ArgumentFilter T) (arguments : List T) : Prop :=
  ∀ (i : ℕ) (slot : Slot T), entry[i]? = some slot → slot ≠ .wildcard →
    ∃ argument, arguments[i]? = some argument ∧ slot.Accepts argument

omit [DecidableEq A] [DecidableEq T] in
theorem matchesTopics_iff {entry : ArgumentFilter T} {arguments : List T} :
    MatchesTopics entry arguments ↔
      ∀ (i : ℕ) (slot : Slot T), entry[i]? = some slot →
        ∃ argument, arguments[i]? = some argument ∧ slot.Accepts argument := by
  induction entry generalizing arguments with
  | nil => simp [MatchesTopics]
  | cons first rest ih =>
    cases arguments with
    | nil =>
      refine iff_of_false id fun h => ?_
      obtain ⟨argument, hnone, -⟩ := h 0 first rfl
      cases hnone
    | cons argument arguments =>
      rw [MatchesTopics, ih]
      constructor
      · rintro ⟨hfirst, hrest⟩ i slot hslot
        cases i with
        | zero =>
          injection hslot with hslot
          exact ⟨argument, rfl, hslot ▸ hfirst⟩
        | succ i => exact hrest i slot hslot
      · intro h
        refine ⟨?_, fun i slot hslot => h (i + 1) slot hslot⟩
        obtain ⟨argument', harg, haccepts⟩ := h 0 first rfl
        injection harg with harg
        exact harg ▸ haccepts

omit [DecidableEq A] in
/-- Without its trailing wildcards an entry asks for what satisfies it. -/
theorem matches_iff_satisfied {entry : ArgumentFilter T} {arguments : List T} :
    MatchesTopics (withoutTrailingWildcards entry) arguments ↔ Satisfied entry arguments := by
  unfold withoutTrailingWildcards
  induction entry using List.reverseRecOn with
  | nil =>
    refine iff_of_true trivial fun i slot hslot => ?_
    cases hslot
  | append_singleton rest last ih =>
    have hlast : (rest ++ [last])[rest.length]? = some last := by simp
    have hrest : ∀ (i : ℕ), i < rest.length → (rest ++ [last])[i]? = rest[i]? := fun i hi =>
      List.getElem?_append_left hi
    have hlength : ∀ (i : ℕ) (slot : Slot T), (rest ++ [last])[i]? = some slot → i < rest.length ∨ i = rest.length := by
      intro i slot hslot
      have := (List.getElem?_eq_some_iff.1 hslot).1
      rw [List.length_append, List.length_singleton] at this
      omega
    by_cases hwild : last = .wildcard
    · rw [List.rdropWhile_concat_pos (fun slot : Slot T => decide (slot = .wildcard)) rest last (by simpa using hwild), ih]
      constructor
      · intro h i slot hslot hne
        rcases hlength i slot hslot with hi | rfl
        · exact h i slot ((hrest i hi).symm.trans hslot) hne
        · rw [hlast] at hslot
          injection hslot with hslot
          exact absurd (hslot ▸ hwild) hne
      · intro h i slot hslot
        exact h i slot ((hrest i (List.getElem?_eq_some_iff.1 hslot).1).trans hslot)
    · rw [List.rdropWhile_concat_neg (fun slot : Slot T => decide (slot = .wildcard)) rest last (by simpa using hwild),
        matchesTopics_iff]
      refine ⟨fun h i slot hslot _ => h i slot hslot, fun h i slot hslot => ?_⟩
      by_cases hslotWild : slot = .wildcard
      · -- the last slot has an argument, and so has every one before it
        obtain ⟨argument, harg, -⟩ := h rest.length last hlast hwild
        have hi : i < arguments.length := by
          have := (List.getElem?_eq_some_iff.1 harg).1
          rcases hlength i slot hslot with hi | rfl <;> omega
        subst hslotWild
        exact ⟨arguments[i], List.getElem?_eq_getElem hi, trivial⟩
      · exact h i slot hslot hslotWild

omit [DecidableEq A] [DecidableEq T] in
/-- A filter is one entry at what a rule reached, or what that left over. -/
theorem mem_filters {reaches : List (RuleReach A T)} {filter : ExtraFilter A T} :
    filter ∈ reaches.flatMap RuleReach.filters ↔
      ∃ reach ∈ reaches, ∃ entry ∈ reach.entries, filter = .matching reach.topic0 reach.requestScope entry := by
  unfold RuleReach.filters
  simp only [List.mem_flatMap, List.mem_map, eq_comm]

theorem leftover_of_mem {reaches : List (RuleReach A T)} {filter : ExtraFilter A T}
    (h : filter ∈ leftoverFilters s declarations reaches) :
    ∃ topic0 scope, filter = .leftover topic0 scope ∧ ∃ reach ∈ reaches, reach.topic0 = topic0 := by
  unfold leftoverFilters at h
  split at h
  · exact absurd h List.not_mem_nil
  · obtain ⟨topic0, htopic0, hfilter⟩ := List.mem_filterMap.1 h
    rw [List.mem_eraseDups, List.mem_map] at htopic0
    dsimp only at hfilter
    split at hfilter
    · cases hfilter
    · injection hfilter with hfilter
      exact ⟨topic0, _, hfilter.symm, htopic0⟩

section Plan

variable {contracts : ContractsData} (hname : ∀ e e', s.toEventSignature e = s.toEventSignature e' → e.name = e'.name)

include hname

omit [DecidableEq A] [DecidableEq T] in
/-- A rule reaches what its declarations present. -/
theorem reaches_iff (hpresents : Presents s normalizeAddress contracts declarations) {rule : FilterRule T}
    (haccepted : rule.contracts.isSome → ¬ addressLess declarations) {address : A} {topic0 : T} :
    rule.Reaches s normalizeAddress contracts address topic0 ↔
      ∃ d ∈ declarations, (d.address = none ∨ d.address = some address) ∧ rule.IsAbout s normalizeAddress d ∧
        topic0Of s d.event = some topic0 := by
  unfold FilterRule.Reaches FilterRule.IsAbout
  rw [← hpresents.declares _ ((shared_wanted hname rule).and (shared_topic0 topic0)) address]
  constructor
  · rintro ⟨hscope, d, hd, hat, hwanted, htopic0⟩
    refine ⟨d, hd, hat, ⟨hwanted, fun scope hsome => ?_⟩, htopic0⟩
    have hless := haccepted (Option.isSome_iff_exists.2 ⟨scope, hsome⟩)
    have hat := hat.resolve_left (hpresents.uniform.resolve_left (fun h => hless (addressLess_iff.2 h)) d hd)
    exact ⟨address, hat, hscope scope hsome⟩
  · rintro ⟨d, hd, hat, ⟨hwanted, hscope⟩, htopic0⟩
    refine ⟨fun scope hsome => ?_, d, hd, hat, hwanted, htopic0⟩
    obtain ⟨found, hfound, hin⟩ := hscope scope hsome
    rw [hfound] at hat
    obtain rfl := Option.some.inj (hat.resolve_left (Option.some_ne_none _))
    exact hin

omit [DecidableEq A] [DecidableEq T] in
/-- Without addresses a rule reaches everywhere or nowhere. -/
theorem reaches_everywhere (hpresents : Presents s normalizeAddress contracts declarations) {rule : FilterRule T}
    (haccepted : rule.contracts.isSome → ¬ addressLess declarations) (hless : addressLess declarations)
    {address : A} {topic0 : T} (h : rule.Reaches s normalizeAddress contracts address topic0) (other : A) :
    rule.Reaches s normalizeAddress contracts other topic0 := by
  obtain ⟨d, hd, -, habout⟩ := (reaches_iff hname hpresents haccepted).1 h
  exact (reaches_iff hname hpresents haccepted).2 ⟨d, hd, .inl (addressLess_iff.1 hless d hd), habout⟩

/-- **What an accepted rule is asked for at** is where it reaches: everywhere without addresses,
and otherwise at those it lists, of which there is one. -/
theorem scope_reach_iff (hpresents : Presents s normalizeAddress contracts declarations) {rule : FilterRule T}
    {reaches : List (RuleReach A T)} (h : reachesOf s normalizeAddress declarations rule = .ok reaches)
    {reach : RuleReach A T} (hreach : reach ∈ reaches) :
    (addressLess declarations → reach.requestScope = none ∧
      ∀ address, rule.Reaches s normalizeAddress contracts address reach.topic0) ∧
    (¬ addressLess declarations → ∃ addresses, reach.requestScope = some addresses ∧ addresses ≠ [] ∧
      ∀ address, address ∈ addresses ↔ rule.Reaches s normalizeAddress contracts address reach.topic0) := by
  obtain ⟨-, haccepted, -⟩ := reachesOf_ok h
  obtain ⟨-, ⟨d, hd, habout, htopic0⟩, hnone, hlisted⟩ := (mem_reachesOf h).2 reach hreach
  refine ⟨fun hless => ⟨hnone hless, fun address => ?_⟩, fun hless => ?_⟩
  · exact (reaches_iff hname hpresents haccepted).2 ⟨d, hd, .inl (addressLess_iff.1 hless d hd), habout, htopic0⟩
  · obtain ⟨addresses, hscope, hmem⟩ := hlisted hless
    have hsome := hpresents.uniform.resolve_left fun h => hless (addressLess_iff.2 h)
    obtain ⟨found, hfound⟩ := Option.ne_none_iff_exists'.1 (hsome d hd)
    refine ⟨addresses, hscope, List.ne_nil_of_mem ((hmem found).2 ⟨d, hd, habout, htopic0, hfound⟩), fun address => ?_⟩
    rw [hmem, reaches_iff hname hpresents haccepted]
    constructor
    · rintro ⟨d', hd', habout', htopic0', hat⟩
      exact ⟨d', hd', .inr hat, habout', htopic0'⟩
    · rintro ⟨d', hd', hat, habout', htopic0'⟩
      exact ⟨d', hd', habout', htopic0', hat.resolve_left (hsome d' hd')⟩

theorem inScope_reach_iff (hpresents : Presents s normalizeAddress contracts declarations) {rule : FilterRule T}
    {reaches : List (RuleReach A T)} (h : reachesOf s normalizeAddress declarations rule = .ok reaches)
    {reach : RuleReach A T} (hreach : reach ∈ reaches) {address : A} :
    InScope reach.requestScope address ↔ rule.Reaches s normalizeAddress contracts address reach.topic0 := by
  obtain ⟨hless, hlisted⟩ := scope_reach_iff hname hpresents h hreach
  by_cases hal : addressLess declarations
  · rw [(hless hal).1]
    exact iff_of_true (by rintro addresses ⟨⟩) ((hless hal).2 address)
  · obtain ⟨addresses, hscope, hne, hmem⟩ := hlisted hal
    rw [hscope, ← hmem]
    refine ⟨fun hin => (hin addresses rfl).resolve_left hne, ?_⟩
    rintro hin addresses' heq
    obtain rfl := Option.some.inj heq
    exact .inr hin

/-- A rule that reaches an event somewhere is resolved for its topic. -/
theorem exists_reach (hpresents : Presents s normalizeAddress contracts declarations) {rule : FilterRule T}
    {reaches : List (RuleReach A T)} (h : reachesOf s normalizeAddress declarations rule = .ok reaches) {address : A}
    {topic0 : T} (hreaches : rule.Reaches s normalizeAddress contracts address topic0) :
    ∃ reach ∈ reaches, reach.topic0 = topic0 := by
  obtain ⟨-, haccepted, -⟩ := reachesOf_ok h
  obtain ⟨d, hd, -, habout, htopic0⟩ := (reaches_iff hname hpresents haccepted).1 hreaches
  exact (mem_reachesOf h).1 d hd habout topic0 htopic0

section Rules

variable {rules : List (FilterRule T)} {lists : List (List (RuleReach A T))}
  (hpresents : Presents s normalizeAddress contracts declarations)
  (hlists : rules.mapM (reachesOf s normalizeAddress declarations) = .ok lists)

omit hname in
include hlists in
theorem mem_reaches {reach : RuleReach A T} : reach ∈ lists.flatten ↔
    ∃ rule ∈ rules, ∃ reaches, reachesOf s normalizeAddress declarations rule = .ok reaches ∧ reach ∈ reaches := by
  rw [List.mem_flatten]
  constructor
  · rintro ⟨reaches, hreaches, hmem⟩
    obtain ⟨rule, hrule, hok⟩ := mem_of_mapM_ok hlists hreaches
    exact ⟨rule, hrule, reaches, hok, hmem⟩
  · rintro ⟨rule, hrule, reaches, hok, hmem⟩
    exact ⟨reaches, (mem_mapM_ok_iff hlists).2 ⟨rule, hrule, hok⟩, hmem⟩

include hpresents hlists

/-- The entries an event is asked for under at an address are those of the rules reaching it. -/
theorem matched_iff (address : A) (topic0 : T) (Q : ArgumentFilter T → Prop) :
    (∃ reach ∈ lists.flatten, reach.topic0 = topic0 ∧ InScope reach.requestScope address ∧ ∃ entry ∈ reach.entries, Q entry) ↔
      ∃ rule ∈ rules, rule.Reaches s normalizeAddress contracts address topic0 ∧ ∃ entry ∈ rule.entries, Q entry := by
  constructor
  · rintro ⟨reach, hreach, rfl, hscope, hentry⟩
    obtain ⟨rule, hrule, reaches, hok, hmem⟩ := (mem_reaches hlists).1 hreach
    rw [((mem_reachesOf hok).2 reach hmem).1] at hentry
    exact ⟨rule, hrule, (inScope_reach_iff hname hpresents hok hmem).1 hscope, hentry⟩
  · rintro ⟨rule, hrule, hreaches, hentry⟩
    obtain ⟨reaches, -, hok⟩ := exists_of_mapM_ok hlists hrule
    obtain ⟨reach, hmem, rfl⟩ := exists_reach hname hpresents hok hreaches
    refine ⟨reach, (mem_reaches hlists).2 ⟨rule, hrule, reaches, hok, hmem⟩, rfl,
      (inScope_reach_iff hname hpresents hok hmem).2 hreaches, ?_⟩
    rw [((mem_reachesOf hok).2 reach hmem).1]
    exact hentry

/-- The topics that are resolved are those some rule reaches somewhere. -/
theorem reached_iff (address : A) (topic0 : T) :
    (∃ reach ∈ lists.flatten, reach.topic0 = topic0) ↔
      ∃ rule ∈ rules, ∃ other, rule.Reaches s normalizeAddress contracts other topic0 := by
  constructor
  · rintro ⟨reach, hreach, rfl⟩
    obtain ⟨rule, hrule, reaches, hok, hmem⟩ := (mem_reaches hlists).1 hreach
    obtain ⟨hless, hlisted⟩ := scope_reach_iff hname hpresents hok hmem
    by_cases hal : addressLess declarations
    · exact ⟨rule, hrule, address, (hless hal).2 address⟩
    · obtain ⟨addresses, -, hne, hin⟩ := hlisted hal
      obtain ⟨other, hother⟩ := List.exists_mem_of_ne_nil _ hne
      exact ⟨rule, hrule, other, (hin other).1 hother⟩
  · rintro ⟨rule, hrule, other, hreaches⟩
    obtain ⟨reaches, -, hok⟩ := exists_of_mapM_ok hlists hrule
    obtain ⟨reach, hmem, rfl⟩ := exists_reach hname hpresents hok hreaches
    exact ⟨reach, (mem_reaches hlists).2 ⟨rule, hrule, reaches, hok, hmem⟩, rfl⟩

/-- The addresses that are covered are those some rule reaches. -/
theorem covered_iff (hless : ¬ addressLess declarations) (address : A) (topic0 : T) :
    address ∈ coveredAt lists.flatten topic0 ↔
      ∃ rule ∈ rules, rule.Reaches s normalizeAddress contracts address topic0 := by
  unfold coveredAt
  simp only [List.mem_flatMap, List.mem_filter, decide_eq_true_eq]
  constructor
  · rintro ⟨reach, ⟨hreach, rfl⟩, hin⟩
    obtain ⟨rule, hrule, reaches, hok, hmem⟩ := (mem_reaches hlists).1 hreach
    obtain ⟨addresses, hscope, -, hiff⟩ := (scope_reach_iff hname hpresents hok hmem).2 hless
    rw [hscope] at hin
    exact ⟨rule, hrule, (hiff address).1 hin⟩
  · rintro ⟨rule, hrule, hreaches⟩
    obtain ⟨reaches, -, hok⟩ := exists_of_mapM_ok hlists hrule
    obtain ⟨reach, hmem, rfl⟩ := exists_reach hname hpresents hok hreaches
    obtain ⟨addresses, hscope, -, hiff⟩ := (scope_reach_iff hname hpresents hok hmem).2 hless
    refine ⟨reach, ⟨(mem_reaches hlists).2 ⟨rule, hrule, reaches, hok, hmem⟩, rfl⟩, ?_⟩
    rw [hscope]
    exact (hiff address).2 hreaches

/-- **What a rule reached but did not cover is left over**: where the source declares it. -/
theorem leftover_iff (address : A) (topic0 : T) :
    (∃ scope, .leftover topic0 scope ∈ leftoverFilters s declarations lists.flatten ∧ InScope scope address) ↔
      (∃ rule ∈ rules, ∃ other, rule.Reaches s normalizeAddress contracts other topic0) ∧
        (∀ rule ∈ rules, ¬ rule.Reaches s normalizeAddress contracts address topic0) ∧
        ∃ event, contracts.DeclaresAt normalizeAddress address event ∧ topic0Of s event = some topic0 := by
  unfold leftoverFilters
  by_cases hless : addressLess declarations
  · -- without addresses a rule that reaches a topic reaches all there is of it
    rw [if_pos hless]
    refine iff_of_false (by rintro ⟨_, hmem, -⟩; exact List.not_mem_nil hmem) ?_
    rintro ⟨⟨rule, hrule, other, hreaches⟩, hnone, -⟩
    obtain ⟨reaches, -, hok⟩ := exists_of_mapM_ok hlists hrule
    exact hnone rule hrule (reaches_everywhere hname hpresents (reachesOf_ok hok).2.1 hless hreaches address)
  rw [if_neg hless]
  have hsome := hpresents.uniform.resolve_left fun h => hless (addressLess_iff.2 h)
  have hdeclaring : address ∈ declaringAddressesOf s declarations topic0 ↔
      ∃ event, contracts.DeclaresAt normalizeAddress address event ∧ topic0Of s event = some topic0 := by
    rw [← hpresents.declares _ (shared_topic0 topic0) address]
    unfold declaringAddressesOf
    simp only [List.mem_eraseDups, List.mem_filterMap, List.mem_filter, decide_eq_true_eq]
    constructor
    · rintro ⟨d, ⟨hd, htopic0⟩, hat⟩
      exact ⟨d, hd, .inr hat, htopic0⟩
    · rintro ⟨d, hd, hat, htopic0⟩
      exact ⟨d, ⟨hd, htopic0⟩, hat.resolve_left (hsome d hd)⟩
  have hleft : address ∈ (declaringAddressesOf s declarations topic0).filter (· ∉ coveredAt lists.flatten topic0) ↔
      (∀ rule ∈ rules, ¬ rule.Reaches s normalizeAddress contracts address topic0) ∧
        ∃ event, contracts.DeclaresAt normalizeAddress address event ∧ topic0Of s event = some topic0 := by
    rw [List.mem_filter, hdeclaring, decide_eq_true_eq, covered_iff hname hpresents hlists hless, and_comm]
    simp only [not_exists, not_and]
  rw [← hleft, ← reached_iff hname hpresents hlists address]
  simp only [List.mem_filterMap, List.mem_eraseDups, List.mem_map]
  constructor
  · rintro ⟨scope, ⟨topic, ⟨reach, hreach, rfl⟩, hfilter⟩, hscope⟩
    split at hfilter
    · cases hfilter
    · rename_i hne
      injection hfilter with hfilter
      injection hfilter with htopic hfound
      rw [← htopic]
      refine ⟨⟨reach, hreach, rfl⟩, (hscope _ hfound.symm).resolve_left fun hnil => hne ?_⟩
      rw [hnil]
      rfl
  · rintro ⟨⟨reach, hreach, rfl⟩, hin⟩
    refine ⟨some ((declaringAddressesOf s declarations reach.topic0).filter (· ∉ coveredAt lists.flatten reach.topic0)),
      ⟨reach.topic0, ⟨reach, hreach, rfl⟩, ?_⟩, ?_⟩
    · rw [if_neg]
      intro hempty
      rw [List.isEmpty_iff.1 hempty] at hin
      exact List.not_mem_nil hin
    · rintro addresses heq
      obtain rfl := Option.some.inj heq
      exact .inr hin

omit hname hpresents in
/-- Every rule that was accepted has an entry. -/
theorem exists_entry {reach : RuleReach A T} (hreach : reach ∈ lists.flatten) : ∃ entry, entry ∈ reach.entries := by
  obtain ⟨rule, -, reaches, hok, hmem⟩ := (mem_reaches hlists).1 hreach
  rw [((mem_reachesOf hok).2 reach hmem).1]
  exact List.exists_mem_of_ne_nil _ (reachesOf_ok hok).1

end Rules

variable {rules : List (FilterRule T)} {filters : Option (List (ExtraFilter A T))}

/-- **What the resolved filters say of an event at an address**: which entries it is asked for
under, where it is left unfiltered, and whether it is mentioned at all. -/
theorem filtersOf_spec (hpresents : Presents s normalizeAddress contracts declarations)
    (h : filtersOf s normalizeAddress rules declarations = .ok filters) (address : A) (topic0 : T) :
    (∀ Q : ArgumentFilter T → Prop,
      (∃ scope entry, .matching topic0 scope entry ∈ filters.getD [] ∧ InScope scope address ∧ Q entry) ↔
        ∃ rule ∈ rules, rule.Reaches s normalizeAddress contracts address topic0 ∧ ∃ entry ∈ rule.entries, Q entry) ∧
    ((∃ scope, .leftover topic0 scope ∈ filters.getD [] ∧ InScope scope address) ↔
      (∃ rule ∈ rules, ∃ other, rule.Reaches s normalizeAddress contracts other topic0) ∧
        (∀ rule ∈ rules, ¬ rule.Reaches s normalizeAddress contracts address topic0) ∧
        ∃ event, contracts.DeclaresAt normalizeAddress address event ∧ topic0Of s event = some topic0) ∧
    ((∃ filter ∈ filters.getD [], filter.topic0 = topic0) ↔
      ∃ rule ∈ rules, ∃ other, rule.Reaches s normalizeAddress contracts other topic0) := by
  unfold filtersOf at h
  split at h
  · rename_i hempty
    injection h with h
    subst h
    obtain rfl := List.isEmpty_iff.1 hempty
    simp
  split at h
  swap
  · cases h
  rename_i resolved hresolved
  injection h with h
  subst h
  obtain ⟨lists, hlists, heq⟩ := bind_eq_ok.1 hresolved
  injection heq with heq
  subst heq
  have hmatching : ∀ scope entry,
      .matching topic0 scope entry ∈ lists.flatten.flatMap RuleReach.filters ++ leftoverFilters s declarations lists.flatten ↔
        ∃ reach ∈ lists.flatten, reach.topic0 = topic0 ∧ reach.requestScope = scope ∧ entry ∈ reach.entries := by
    intro scope entry
    rw [List.mem_append, mem_filters]
    constructor
    · rintro (⟨reach, hreach, entry', hentry, heq⟩ | hleft)
      · injection heq with htopic hscope hsame
        exact ⟨reach, hreach, htopic.symm, hscope.symm, hsame ▸ hentry⟩
      · obtain ⟨_, _, heq, -⟩ := leftover_of_mem hleft
        cases heq
    · rintro ⟨reach, hreach, rfl, rfl, hentry⟩
      exact .inl ⟨reach, hreach, entry, hentry, rfl⟩
  have hleftover : ∀ scope,
      .leftover topic0 scope ∈ lists.flatten.flatMap RuleReach.filters ++ leftoverFilters s declarations lists.flatten ↔
        .leftover topic0 scope ∈ leftoverFilters s declarations lists.flatten := by
    intro scope
    rw [List.mem_append, mem_filters]
    refine or_iff_right ?_
    rintro ⟨_, _, _, _, heq⟩
    cases heq
  refine ⟨fun Q => ?_, ?_, ?_⟩
  · rw [← matched_iff hname hpresents hlists]
    simp only [Option.getD_some, hmatching]
    constructor
    · rintro ⟨scope, entry, ⟨reach, hreach, htopic, rfl, hentry⟩, hscope, hQ⟩
      exact ⟨reach, hreach, htopic, hscope, entry, hentry, hQ⟩
    · rintro ⟨reach, hreach, htopic, hscope, entry, hentry, hQ⟩
      exact ⟨_, entry, ⟨reach, hreach, htopic, rfl, hentry⟩, hscope, hQ⟩
  · rw [← leftover_iff hname hpresents hlists]
    simp only [Option.getD_some, hleftover]
  · rw [← reached_iff hname hpresents hlists address]
    constructor
    · rintro ⟨filter, hmem, rfl⟩
      rcases List.mem_append.1 hmem with hmem | hmem
      · obtain ⟨reach, hreach, entry, -, rfl⟩ := mem_filters.1 hmem
        exact ⟨reach, hreach, rfl⟩
      · obtain ⟨topic0, scope, rfl, hreach⟩ := leftover_of_mem hmem
        exact hreach
    · rintro ⟨reach, hreach, rfl⟩
      obtain ⟨entry, hentry⟩ := exists_entry hlists hreach
      exact ⟨_, List.mem_append_left _ (mem_filters.2 ⟨reach, hreach, entry, hentry, rfl⟩), rfl⟩

/-- **Which logs the plan of a source and its rules asks for**, where the source declares a topic.
A log of an event some rule reaches at its address has to satisfy an entry of such a rule.
Any other log is asked for where the source declares its event, and, of a topic no rule
reaches anywhere, at every address of the source. -/
theorem plan_keeps_iff {H : Type} {parseAll : Bool} {fetcher : LogEventFetcher A T}
    (h : logEventFetcherOf s normalizeAddress contracts rules parseAll = .ok fetcher)
    (hdeclares : ∃ event, contracts.Declares event ∧ (topic0Of s event).isSome) (log : IncludedLog A T H) :
    AskedFor (requestsOf fetcher.contractAddresses (some fetcher.eventNameTopics) fetcher.filters) log ↔
      ∃ topic0 arguments, log.topics = topic0 :: arguments ∧
        ((∃ rule ∈ rules, rule.Reaches s normalizeAddress contracts log.address topic0 ∧
            ∃ entry ∈ rule.entries, Satisfied entry arguments) ∨
          (∀ rule ∈ rules, ¬ rule.Reaches s normalizeAddress contracts log.address topic0) ∧
            ((∃ event, contracts.DeclaresAt normalizeAddress log.address event ∧ topic0Of s event = some topic0) ∨
              (∀ rule ∈ rules, ∀ other, ¬ rule.Reaches s normalizeAddress contracts other topic0) ∧
                contracts.HasAddress normalizeAddress log.address ∧
                ∃ event, contracts.Declares event ∧ topic0Of s event = some topic0)) := by
  obtain ⟨declarations, hpresents, hfilters, htopics, hscope⟩ := logEventFetcherOf_ok h
  have hne : fetcher.eventNameTopics ≠ [] := by
    obtain ⟨event, hevent, hsome⟩ := hdeclares
    obtain ⟨topic0, htopic0⟩ := Option.isSome_iff_exists.1 hsome
    exact List.ne_nil_of_mem ((htopics topic0).2 ⟨event, hevent, htopic0⟩)
  replace hscope := hscope hne log.address
  have hdeclared : ∀ topic0,
      (∃ event, contracts.DeclaresAt normalizeAddress log.address event ∧ topic0Of s event = some topic0) →
        topic0 ∈ fetcher.eventNameTopics ∧ contracts.HasAddress normalizeAddress log.address := by
    rintro topic0 ⟨event, hat, htopic0⟩
    obtain ⟨hevent, haddress⟩ := hat.declares
    exact ⟨(htopics topic0).2 ⟨event, hevent, htopic0⟩, haddress⟩
  have hreached : ∀ topic0,
      (∃ rule ∈ rules, rule.Reaches s normalizeAddress contracts log.address topic0 ∧
        ∃ entry ∈ rule.entries, Satisfied entry log.topics.tail) →
      topic0 ∈ fetcher.eventNameTopics := by
    rintro topic0 ⟨rule, -, ⟨-, event, hat, -, htopic0⟩, -⟩
    exact (hdeclared topic0 ⟨event, hat, htopic0⟩).1
  have hspec := filtersOf_spec hname hpresents hfilters log.address
  show AskedFor (generateLogRequestForTopicsAndFiltersCombinations _ _ (fetcher.filters.getD [])) log ↔ _
  by_cases hnone : fetcher.filters.getD [] = []
  · -- nothing is filtered, and so no rule reaches anything
    rw [hnone, unfiltered_matches_iff, hscope]
    have hnowhere : ∀ topic0, ∀ rule ∈ rules, ∀ other, ¬ rule.Reaches s normalizeAddress contracts other topic0 := by
      intro topic0 rule hrule other hreaches
      obtain ⟨filter, hfilter, -⟩ := (hspec topic0).2.2.2 ⟨rule, hrule, other, hreaches⟩
      rw [hnone] at hfilter
      exact List.not_mem_nil hfilter
    constructor
    · rintro ⟨haddress, topic0, arguments, hlog, htopic0⟩
      refine ⟨topic0, arguments, hlog, .inr ⟨fun rule hrule => hnowhere topic0 rule hrule _, .inr ?_⟩⟩
      exact ⟨hnowhere topic0, haddress, (htopics topic0).1 (htopic0.resolve_left hne)⟩
    · rintro ⟨topic0, arguments, hlog, ⟨rule, hrule, hreaches, -⟩ | ⟨-, hdecl | ⟨-, haddress, hdecl⟩⟩⟩
      · exact absurd hreaches (hnowhere topic0 rule hrule _)
      · exact ⟨(hdeclared topic0 hdecl).2, topic0, arguments, hlog, .inr (hdeclared topic0 hdecl).1⟩
      · exact ⟨haddress, topic0, arguments, hlog, .inr ((htopics topic0).2 hdecl)⟩
  · rw [plan_matches_iff hnone]
    refine exists_congr fun topic0 => exists_congr fun arguments => and_congr_right fun hlog => ?_
    obtain ⟨hmatched, hleft, hmentioned⟩ := hspec topic0
    have hunfiltered : (∃ scope, LeftOver fetcher.contractAddresses (fetcher.filters.getD []) topic0 scope ∧
        InScope scope log.address) ↔
        (∃ scope, .leftover topic0 scope ∈ fetcher.filters.getD [] ∧ InScope scope log.address) ∨
          contracts.HasAddress normalizeAddress log.address ∧
            ∀ rule ∈ rules, ∀ other, ¬ rule.Reaches s normalizeAddress contracts other topic0 := by
      have hno : (∀ filter ∈ fetcher.filters.getD [], filter.topic0 ≠ topic0) ↔
          ∀ rule ∈ rules, ∀ other, ¬ rule.Reaches s normalizeAddress contracts other topic0 := by
        have := not_congr hmentioned
        push Not at this
        exact this
      rw [← hno, ← hscope]
      unfold LeftOver
      constructor
      · rintro ⟨scope, hfilter | ⟨rfl, hall⟩, hin⟩
        · exact .inl ⟨scope, hfilter, hin⟩
        · exact .inr ⟨hin, hall⟩
      · rintro (⟨scope, hfilter, hin⟩ | ⟨hin, hall⟩)
        · exact ⟨scope, .inl hfilter, hin⟩
        · exact ⟨_, .inr ⟨rfl, hall⟩, hin⟩
    have hmatched := hmatched (Satisfied · arguments)
    simp only [← matches_iff_satisfied] at hmatched
    rw [hunfiltered, hleft, hmatched]
    simp only [matches_iff_satisfied]
    rw [hlog] at hreached
    constructor
    · rintro ⟨hlive, (⟨-, hhere, hat⟩ | ⟨haddress, hnowhere⟩) | hrule⟩
      · exact .inr ⟨hhere, .inl hat⟩
      · refine .inr ⟨fun rule hrule => hnowhere rule hrule _, .inr ⟨hnowhere, haddress, (htopics topic0).1 hlive⟩⟩
      · exact .inl hrule
    · rintro (hrule | ⟨hhere, hat | ⟨hnowhere, haddress, hdecl⟩⟩)
      · exact ⟨hreached topic0 hrule, .inr hrule⟩
      · obtain ⟨hlive, haddress⟩ := hdeclared topic0 hat
        refine ⟨hlive, .inl ?_⟩
        by_cases hsomewhere : ∃ rule ∈ rules, ∃ other, rule.Reaches s normalizeAddress contracts other topic0
        · exact .inl ⟨hsomewhere, hhere, hat⟩
        · exact .inr ⟨haddress, fun rule hrule other hreaches => hsomewhere ⟨rule, hrule, other, hreaches⟩⟩
      · exact ⟨(htopics topic0).2 hdecl, .inl (.inr ⟨haddress, hnowhere⟩)⟩

end Plan

end Source

/-- Two addresses without a letter: the checksum leaves them as they are. -/
def nftAddress : String := "0x0000000000000000000000000000000000000001"

def tokenAddress : String := "0x0000000000000000000000000000000000000002"

/-- An NFT, of whose events one indexes two arguments, and a token that declares another. -/
def twoContracts : ContractsData :=
  .each [⟨some nftAddress, [.event ⟨"E", [.mk (some "x") "address" (some true) none none,
      .mk (some "y") "address" (some true) none none], none, none, none⟩], none⟩,
    ⟨some tokenAddress, [.event ⟨"F", [], none, none, none⟩], none⟩]

/-- A rule about the second argument of the one event. -/
def ownerRule : FilterRule String := ⟨"E", none, [[.wildcard, .topic "me"]]⟩

/-- What a source is fetched with, its addresses taken as they are spelled. -/
def plainFetcher (contracts : ContractsData) (rules : List (FilterRule String)) :
    Except (SourceRefusal String String) (LogEventFetcher String String) :=
  logEventFetcherOf byName some contracts rules false

/-- Without rules an event is asked for at every address, also where only another contract
declares it; and a source without events asks for every log. -/
theorem asked_beyond_declared :
    (∀ fetcher, plainFetcher twoContracts [] = .ok fetcher →
      AskedFor (requestsOf fetcher.contractAddresses (some fetcher.eventNameTopics) fetcher.filters)
          (⟨0, (), 0, tokenAddress, ["E"]⟩ : IncludedLog String String Unit) ∧
        ¬ ∃ event, twoContracts.DeclaresAt some tokenAddress event ∧ topic0Of byName event = some "E") ∧
    ∀ fetcher, plainFetcher (.each [⟨some nftAddress, [], none⟩]) [] = .ok fetcher →
      AskedFor (requestsOf fetcher.contractAddresses (some fetcher.eventNameTopics) fetcher.filters)
        (⟨0, (), 0, nftAddress, ["anything"]⟩ : IncludedLog String String Unit) := by
  refine ⟨fun fetcher h => ⟨?_, ?_⟩, fun fetcher h => ?_⟩
  · injection h with h
    subst h
    exact unfiltered_matches_iff.2 ⟨fun addresses heq => .inr (by cases heq; decide), "E", [], rfl, .inr (by decide)⟩
  · rintro ⟨event, ⟨contract, hcontract, haddress, hevent⟩, htopic0⟩
    rcases List.mem_cons.1 hcontract with rfl | hcontract
    · exact absurd haddress (by decide)
    · obtain rfl := List.mem_singleton.1 hcontract
      obtain rfl := List.mem_singleton.1 hevent
      exact absurd htopic0 (by decide)
  · injection h with h
    subst h
    exact unfiltered_matches_iff.2 ⟨fun addresses heq => .inr (by cases heq; decide), "anything", [], rfl, .inl rfl⟩

/-- Under the rule a log to someone else is not asked for. -/
theorem owner_kept :
    ∃ fetcher, plainFetcher twoContracts [ownerRule] = .ok fetcher ∧
      ¬ AskedFor (requestsOf fetcher.contractAddresses (some fetcher.eventNameTopics) fetcher.filters)
        (⟨0, (), 0, nftAddress, ["E", "you", "them"]⟩ : IncludedLog String String Unit) := by
  refine ⟨⟨some [nftAddress, tokenAddress], ["E", "F"], some [.matching "E" (some [nftAddress]) [.wildcard, .topic "me"]]⟩, by rfl,
    fun hasked => ?_⟩
  obtain ⟨topic0, arguments, hlog, hkept⟩ := (plan_keeps_iff (fun _ _ h => h)
    (show plainFetcher twoContracts [ownerRule] = .ok _ by rfl)
    ⟨⟨"F", [], none, none, none⟩, ⟨_, List.mem_cons_of_mem _ List.mem_cons_self, List.mem_cons_self⟩, rfl⟩ _).1 hasked
  injection hlog with htopic0 harguments
  subst htopic0 harguments
  rcases hkept with ⟨rule, hrule, -, entry, hentry, hsatisfied⟩ | ⟨hhere, -⟩
  · obtain rfl := List.mem_singleton.1 hrule
    obtain rfl := List.mem_singleton.1 hentry
    obtain ⟨argument, harg, haccepts⟩ := hsatisfied 1 (.topic "me") rfl (by simp)
    injection harg with harg
    exact absurd (harg.trans haccepts) (by decide)
  · refine hhere ownerRule (List.mem_singleton_self _) ⟨by rintro scope ⟨⟩, _, ⟨_, List.mem_cons_self, rfl, List.mem_cons_self⟩, ?_, ?_⟩
    · rfl
    · rfl

end Etherfold
