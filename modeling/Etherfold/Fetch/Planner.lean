import Mathlib.Data.List.DropRight
import Etherfold.Ledger.Multimap

/-!
# Planning the requests of one block range

An argument filter restricts a topic at some addresses, and a node is asked in
terms of address lists and positional topics. The planner turns the topics of a
range and the resolved filters into the requests that together cover them.

* `plan_matches_iff`: **which logs a filtered plan asks for**: those of a live topic left
  over at their address, and those an entry of a filter reaching them accepts.
* `unfiltered_matches_iff`: which logs the one request of an unfiltered plan asks for.
-/

namespace Etherfold

/-- A log as a node reports it, with what a request reads of it. -/
structure IncludedLog (A T H : Type) where
  blockNumber : ℕ
  blockHash : H
  logIndex : ℕ
  address : A
  topics : List T
  deriving DecidableEq, Repr

/-- One position of a topics array: `null`, a topic, or a list of topics. -/
inductive Slot (T : Type) where
  | wildcard
  | topic (t : T)
  | anyOf (ts : List T)
  deriving DecidableEq, Repr

/-- Constraints on the indexed arguments, positionally from `topics[1]`. -/
abbrev ArgumentFilter (T : Type) := List (Slot T)

/-- A call of `eth_getLogs`: no addresses means any, and no topics constrain nothing. -/
structure LogRequest (A T : Type) where
  topics : List (Slot T)
  contractAddresses : Option (List A)
  deriving DecidableEq, Repr

/-- One resolved instruction about one topic: ask for it constrained by one entry of a
rule, or unfiltered where no rule reached it. -/
inductive ExtraFilter (A T : Type) where
  | matching (topic0 : T) (contractAddresses : Option (List A)) (entry : ArgumentFilter T)
  | leftover (topic0 : T) (contractAddresses : Option (List A))
  deriving DecidableEq, Repr

variable {A T H : Type}

def ExtraFilter.topic0 : ExtraFilter A T → T
  | .matching topic0 _ _ => topic0
  | .leftover topic0 _ => topic0

section Planner

variable [DecidableEq A] [DecidableEq T]

/-- Trailing wildcards constrain nothing. -/
def withoutTrailingWildcards (entry : ArgumentFilter T) : ArgumentFilter T :=
  entry.rdropWhile (· = .wildcard)

/-- The scoped request of a live filter that constrains something. -/
def scopedRequest (live : List T) : ExtraFilter A T → Option (LogRequest A T)
  | .matching topic0 scope entry =>
    if topic0 ∈ live then some ⟨.topic topic0 :: withoutTrailingWildcards entry, scope⟩ else none
  | .leftover _ _ => none

/-- Where a live filter leaves its topic unfiltered. -/
def leftoverScope (live : List T) : ExtraFilter A T → Option (Option (List A) × T)
  | .matching _ _ _ => none
  | .leftover topic0 scope => if topic0 ∈ live then some (scope, topic0) else none

/-- The leftovers of a plan: those the filters leave, then the topics no filter mentions,
which are left over at every address. -/
def leftovers (contractAddresses : Option (List A)) (eventNameTopics : List T)
    (filters : List (ExtraFilter A T)) : List (Option (List A) × T) :=
  filters.filterMap (leftoverScope eventNameTopics) ++
    (eventNameTopics.filter fun topic0 => topic0 ∉ filters.map (·.topic0)).map (contractAddresses, ·)

/-- **The requests that together cover every live topic**, filtered and unfiltered. -/
def generateLogRequestForTopicsAndFiltersCombinations (contractAddresses : Option (List A))
    (eventNameTopics : List T) (filters : List (ExtraFilter A T)) : List (LogRequest A T) :=
  if filters.isEmpty then [⟨[.anyOf eventNameTopics], contractAddresses⟩]
  else
    -- the leftover topics travel together with those of their scope
    let groups := Multimap.collect (leftovers contractAddresses eventNameTopics filters)
    let shared := (groups.filter fun group => !group.2.isEmpty).map fun group =>
      ⟨[.anyOf group.2], group.1⟩
    shared ++ filters.filterMap (scopedRequest eventNameTopics)

/-- The requests of a range: without topics, the one that constrains none. -/
def requestsOf (contractAddresses : Option (List A)) (eventNameTopics : Option (List T))
    (filters : Option (List (ExtraFilter A T))) : List (LogRequest A T) :=
  match eventNameTopics with
  | none => [⟨[], contractAddresses⟩]
  | some topics =>
    generateLogRequestForTopicsAndFiltersCombinations contractAddresses topics (filters.getD [])

/-! ### Which logs a plan asks for -/

/-- Whether a node matches a topic with a position. It reads an empty list as a wildcard. -/
def Slot.Accepts (slot : Slot T) (topic : T) : Prop :=
  match slot with
  | .wildcard => True
  | .topic t => topic = t
  | .anyOf ts => ts = [] ∨ topic ∈ ts

/-- Whether a node matches the topics of a log, which has one for every position. -/
def MatchesTopics : List (Slot T) → List T → Prop
  | [], _ => True
  | _ :: _, [] => False
  | slot :: slots, topic :: topics => slot.Accepts topic ∧ MatchesTopics slots topics

/-- Whether a node matches an address with a scope. It reads an empty list as a wildcard. -/
def InScope (scope : Option (List A)) (address : A) : Prop :=
  ∀ addresses, scope = some addresses → addresses = [] ∨ address ∈ addresses

/-- **Whether a node answers a request with a log** of the blocks asked for. -/
def LogRequest.Matches (request : LogRequest A T) (log : IncludedLog A T H) : Prop :=
  InScope request.contractAddresses log.address ∧ MatchesTopics request.topics log.topics

/-- Some request of a plan asks for a log. -/
def AskedFor (requests : List (LogRequest A T)) (log : IncludedLog A T H) : Prop :=
  ∃ request ∈ requests, request.Matches log

/-- Where a topic is left unfiltered: where a filter says so, and everywhere where no filter
mentions it. -/
def LeftOver (contractAddresses : Option (List A)) (filters : List (ExtraFilter A T)) (topic0 : T)
    (scope : Option (List A)) : Prop :=
  .leftover topic0 scope ∈ filters ∨ scope = contractAddresses ∧ ∀ filter ∈ filters, filter.topic0 ≠ topic0

omit [DecidableEq A] in
theorem mem_leftovers {contractAddresses : Option (List A)} {eventNameTopics : List T}
    {filters : List (ExtraFilter A T)} {scope : Option (List A)} {topic0 : T} :
    (scope, topic0) ∈ leftovers contractAddresses eventNameTopics filters ↔
      topic0 ∈ eventNameTopics ∧ LeftOver contractAddresses filters topic0 scope := by
  unfold leftovers LeftOver
  rw [List.mem_append, List.mem_filterMap, List.mem_map]
  constructor
  · rintro (⟨filter, hfilter, hscope⟩ | ⟨topic, htopic, heq⟩)
    · cases filter with
      | matching t sc entry => simp [leftoverScope] at hscope
      | leftover t sc =>
        unfold leftoverScope at hscope
        dsimp only at hscope
        split at hscope
        · rename_i hlive
          injection hscope with hscope
          injection hscope with h1 h2
          subst h1 h2
          exact ⟨hlive, .inl hfilter⟩
        · cases hscope
    · injection heq with h1 h2
      subst h1 h2
      simp only [List.mem_filter, List.mem_map, not_exists, not_and, decide_eq_true_eq] at htopic
      exact ⟨htopic.1, .inr ⟨rfl, fun filter hf => htopic.2 filter hf⟩⟩
  · rintro ⟨hlive, hleft | ⟨rfl, hno⟩⟩
    · exact .inl ⟨_, hleft, by simp [leftoverScope, hlive]⟩
    · refine .inr ⟨topic0, ?_, rfl⟩
      simp only [List.mem_filter, List.mem_map, not_exists, not_and, decide_eq_true_eq]
      exact ⟨hlive, hno⟩

/-- **What the planner asks for** once something is filtered. -/
theorem mem_plan {contractAddresses : Option (List A)} {eventNameTopics : List T}
    {filters : List (ExtraFilter A T)} (hf : filters ≠ []) {request : LogRequest A T} :
    request ∈ generateLogRequestForTopicsAndFiltersCombinations contractAddresses eventNameTopics filters ↔
      (∃ scope topics, request = ⟨[.anyOf topics], scope⟩ ∧ topics ≠ [] ∧
        topics = Multimap.valuesAt (leftovers contractAddresses eventNameTopics filters) scope) ∨
      ∃ topic0 scope entry, .matching topic0 scope entry ∈ filters ∧ topic0 ∈ eventNameTopics ∧
        request = ⟨.topic topic0 :: withoutTrailingWildcards entry, scope⟩ := by
  unfold generateLogRequestForTopicsAndFiltersCombinations
  rw [if_neg (by simpa using hf)]
  simp only [List.mem_append, List.mem_map, List.mem_filter, List.mem_filterMap]
  refine or_congr ⟨?_, ?_⟩ ⟨?_, ?_⟩
  · rintro ⟨group, ⟨hgroup, hne⟩, rfl⟩
    exact ⟨group.1, group.2, rfl, by simpa using hne, (Multimap.mem_collect.1 hgroup).2⟩
  · rintro ⟨scope, topics, rfl, hne, htopics⟩
    refine ⟨(scope, topics), ⟨Multimap.mem_collect.2 ⟨?_, htopics⟩, by simpa using hne⟩, rfl⟩
    obtain ⟨topic, htopic⟩ := List.exists_mem_of_ne_nil _ hne
    rw [htopics] at htopic
    exact List.mem_map.2 ⟨_, Multimap.mem_valuesAt.1 htopic, rfl⟩
  · rintro ⟨filter, hfilter, hreq⟩
    cases filter with
    | leftover t sc => simp [scopedRequest] at hreq
    | matching t sc entry =>
      unfold scopedRequest at hreq
      dsimp only at hreq
      split at hreq
      · rename_i hlive
        injection hreq with hreq
        exact ⟨t, sc, entry, hfilter, hlive, hreq.symm⟩
      · cases hreq
  · rintro ⟨topic0, scope, entry, hfilter, hlive, rfl⟩
    exact ⟨_, hfilter, by simp [scopedRequest, hlive]⟩

/-- **Which logs a filtered plan asks for**: those of a live topic left over at their
address, and those an entry of a filter reaching them accepts. -/
theorem plan_matches_iff {contractAddresses : Option (List A)} {eventNameTopics : List T}
    {filters : List (ExtraFilter A T)} (hf : filters ≠ []) {log : IncludedLog A T H} :
    AskedFor (generateLogRequestForTopicsAndFiltersCombinations contractAddresses eventNameTopics filters) log ↔
      ∃ topic0 arguments, log.topics = topic0 :: arguments ∧ topic0 ∈ eventNameTopics ∧
        ((∃ scope, LeftOver contractAddresses filters topic0 scope ∧ InScope scope log.address) ∨
          ∃ scope entry, .matching topic0 scope entry ∈ filters ∧ InScope scope log.address ∧
            MatchesTopics (withoutTrailingWildcards entry) arguments) := by
  constructor
  · rintro ⟨request, hreq, hscope, htopics⟩
    rcases (mem_plan hf).1 hreq with ⟨scope, topics, rfl, hne, heq⟩ | ⟨topic0, scope, entry, hfilter, hlive, rfl⟩
    · cases hlog : log.topics with
      | nil =>
        rw [hlog] at htopics
        exact absurd htopics id
      | cons topic0 arguments =>
        rw [hlog] at htopics
        have hmem : topic0 ∈ topics := htopics.1.resolve_left hne
        rw [heq, Multimap.mem_valuesAt, mem_leftovers] at hmem
        exact ⟨topic0, arguments, rfl, hmem.1, .inl ⟨scope, hmem.2, hscope⟩⟩
    · cases hlog : log.topics with
      | nil =>
        rw [hlog] at htopics
        exact absurd htopics id
      | cons topic arguments =>
        rw [hlog] at htopics
        obtain rfl : topic = topic0 := htopics.1
        exact ⟨topic, arguments, rfl, hlive, .inr ⟨scope, entry, hfilter, hscope, htopics.2⟩⟩
  · rintro ⟨topic0, arguments, hlog, hlive, ⟨scope, hleft, hscope⟩ | ⟨scope, entry, hfilter, hscope, hargs⟩⟩
    · have hmem := Multimap.mem_valuesAt.2 (mem_leftovers.2 ⟨hlive, hleft⟩)
      refine ⟨_, (mem_plan hf).2 (.inl ⟨scope, _, rfl, List.ne_nil_of_mem hmem, rfl⟩), hscope, ?_⟩
      rw [hlog]
      exact ⟨.inr hmem, trivial⟩
    · refine ⟨_, (mem_plan hf).2 (.inr ⟨topic0, scope, entry, hfilter, hlive, rfl⟩), hscope, ?_⟩
      rw [hlog]
      exact ⟨rfl, hargs⟩

/-- Which logs the one request of an unfiltered plan asks for. -/
theorem unfiltered_matches_iff {contractAddresses : Option (List A)} {eventNameTopics : List T}
    {log : IncludedLog A T H} :
    AskedFor (generateLogRequestForTopicsAndFiltersCombinations contractAddresses eventNameTopics []) log ↔
      InScope contractAddresses log.address ∧
        ∃ topic0 arguments, log.topics = topic0 :: arguments ∧ (eventNameTopics = [] ∨ topic0 ∈ eventNameTopics) := by
  have hplan : generateLogRequestForTopicsAndFiltersCombinations contractAddresses eventNameTopics [] =
      [⟨[.anyOf eventNameTopics], contractAddresses⟩] := rfl
  rw [hplan]
  constructor
  · rintro ⟨request, hreq, hscope, htopics⟩
    obtain rfl := List.mem_singleton.1 hreq
    cases hlog : log.topics with
    | nil =>
      rw [hlog] at htopics
      exact absurd htopics id
    | cons topic0 arguments =>
      rw [hlog] at htopics
      exact ⟨hscope, topic0, arguments, rfl, htopics.1⟩
  · rintro ⟨hscope, topic0, arguments, hlog, htopic⟩
    refine ⟨_, List.mem_singleton_self _, hscope, ?_⟩
    rw [hlog]
    exact ⟨htopic, trivial⟩

end Planner

end Etherfold
