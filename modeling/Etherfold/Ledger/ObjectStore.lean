import Etherfold.Ledger.Page

/-!
# An ordered store of records

Records under keys, in the order of the keys: put, delete, get, ranges, and indexes that order
the same records by something they hold. A walk takes the entries of a range one by one, and
may stop.

* `get_put`, `get_delete`, `get_filter`: what an operation does to one key.
* `get_putAll`, `get_deleteAll`: what a walk does that writes or deletes as it goes.
-/

/-- Entries with distinct keys, in ascending order of them. -/
@[ext]
structure ObjectStore (κ α : Type*) [LinearOrder κ] where
  entries : List (κ × α)
  sorted : Paging.Sorted Prod.fst entries

namespace ObjectStore

variable {κ α : Type*} [LinearOrder κ]

def empty : ObjectStore κ α := ⟨[], List.Pairwise.nil⟩

/-- The record under a key. -/
def get (s : ObjectStore κ α) (k : κ) : Option α := (s.entries.find? (·.1 = k)).map (·.2)

/-- The entries that satisfy `p`. -/
def filter (s : ObjectStore κ α) (p : κ × α → Bool) : ObjectStore κ α := ⟨s.entries.filter p, s.sorted.filter p⟩

def delete (s : ObjectStore κ α) (k : κ) : ObjectStore κ α := s.filter (·.1 ≠ k)

/-- Write a record, over the one under its key if there is one. -/
def put (s : ObjectStore κ α) (k : κ) (a : α) : ObjectStore κ α where
  entries := s.entries.filter (·.1 < k) ++ (k, a) :: s.entries.filter (k < ·.1)
  sorted := by
    refine List.pairwise_append.2 ⟨s.sorted.filter _, List.pairwise_cons.2 ⟨?_, s.sorted.filter _⟩, ?_⟩
    · intro e he
      simpa using (List.mem_filter.1 he).2
    · intro e he e' he'
      have hlt : e.1 < k := by simpa using (List.mem_filter.1 he).2
      rcases List.mem_cons.1 he' with rfl | he'
      · exact hlt
      · have hlt' : k < e'.1 := by simpa using (List.mem_filter.1 he').2
        exact hlt.trans hlt'

/-- The entries of a range of keys, in order. -/
def range (s : ObjectStore κ α) (p : κ → Bool) : List (κ × α) := s.entries.filter (p ·.1)

/-- **The entries by an index key**, those without one left out; equal index keys are in the
order of the keys. -/
def index {ι : Type*} [LinearOrder ι] (s : ObjectStore κ α) (f : α → Option ι) : List (ι × κ × α) :=
  (s.entries.filterMap fun e => (f e.2).map fun i => (i, e)).insertionSort fun a b => a.1 ≤ b.1

/-! ### One key -/

theorem get_eq_some_iff {s : ObjectStore κ α} {k : κ} {a : α} : s.get k = some a ↔ (k, a) ∈ s.entries := by
  unfold get
  constructor
  · intro h
    obtain ⟨e, he, rfl⟩ := Option.map_eq_some_iff.1 h
    have hk : e.1 = k := by simpa using List.find?_some he
    rw [← hk]
    exact List.mem_of_find?_eq_some he
  · intro h
    obtain ⟨e, he⟩ := Option.isSome_iff_exists.1 (List.find?_isSome.2 ⟨(k, a), h, by simp⟩ :
      (s.entries.find? (·.1 = k)).isSome = true)
    have hk : e.1 = k := by simpa using List.find?_some he
    -- a key has one entry
    have hsame : e = (k, a) := by
      by_contra hne
      have hsymm : Std.Symm fun e e' : κ × α => e.1 ≠ e'.1 := ⟨fun _ _ => Ne.symm⟩
      have hdistinct := (s.sorted.imp fun hlt => ne_of_lt hlt).forall (List.mem_of_find?_eq_some he) h hne
      exact hdistinct hk
    rw [he, hsame]
    rfl

@[simp] theorem get_empty (k : κ) : (empty : ObjectStore κ α).get k = none := rfl

theorem get_filter (s : ObjectStore κ α) (p : κ × α → Bool) (k : κ) :
    (s.filter p).get k = (s.get k).filter fun a => p (k, a) := by
  refine Option.ext fun a => ?_
  rw [get_eq_some_iff, Option.filter_eq_some_iff, get_eq_some_iff]
  exact List.mem_filter

theorem get_delete (s : ObjectStore κ α) (k k' : κ) : (s.delete k).get k' = if k' = k then none else s.get k' := by
  unfold delete
  rw [get_filter]
  by_cases h : k' = k <;> cases s.get k' <;> simp [h]

theorem mem_put {s : ObjectStore κ α} {k : κ} {a : α} {e : κ × α} :
    e ∈ (s.put k a).entries ↔ e = (k, a) ∨ e.1 ≠ k ∧ e ∈ s.entries := by
  have hmem : e ∈ (s.put k a).entries ↔
      (e ∈ s.entries ∧ e.1 < k) ∨ e = (k, a) ∨ (e ∈ s.entries ∧ k < e.1) := by
    unfold put
    simp only [List.mem_append, List.mem_cons, List.mem_filter, decide_eq_true_eq]
  rw [hmem, ne_iff_lt_or_gt]
  tauto

theorem get_put (s : ObjectStore κ α) (k k' : κ) (a : α) :
    (s.put k a).get k' = if k' = k then some a else s.get k' := by
  refine Option.ext fun b => ?_
  rw [get_eq_some_iff, mem_put]
  by_cases h : k' = k
  · simp [h, eq_comm]
  · simp [h, get_eq_some_iff]

/-- What goes under a key above all others goes last. -/
theorem entries_put_last {s : ObjectStore κ α} {k : κ} (h : ∀ e ∈ s.entries, e.1 < k) (a : α) :
    (s.put k a).entries = s.entries ++ [(k, a)] := by
  have hbelow : s.entries.filter (·.1 < k) = s.entries := List.filter_eq_self.2 fun e he => by simpa using h e he
  have habove : s.entries.filter (k < ·.1) = [] := List.filter_eq_nil_iff.2 fun e he => by
    simpa using (h e he).le
  show s.entries.filter (·.1 < k) ++ (k, a) :: s.entries.filter (k < ·.1) = _
  rw [hbelow, habove]

theorem mem_range {s : ObjectStore κ α} {p : κ → Bool} {e : κ × α} :
    e ∈ s.range p ↔ s.get e.1 = some e.2 ∧ p e.1 = true := by
  rw [get_eq_some_iff]
  exact List.mem_filter

theorem sorted_range (s : ObjectStore κ α) (p : κ → Bool) : Paging.Sorted Prod.fst (s.range p) := s.sorted.filter _

theorem mem_index {ι : Type*} [LinearOrder ι] {s : ObjectStore κ α} {f : α → Option ι} {i : ι} {k : κ} {a : α} :
    (i, k, a) ∈ s.index f ↔ s.get k = some a ∧ f a = some i := by
  unfold index
  rw [(List.perm_insertionSort _ _).mem_iff, List.mem_filterMap, get_eq_some_iff]
  constructor
  · rintro ⟨e, he, hi⟩
    obtain ⟨j, hj, heq⟩ := Option.map_eq_some_iff.1 hi
    cases heq
    exact ⟨he, hj⟩
  · rintro ⟨he, hi⟩
    exact ⟨(k, a), he, by rw [hi]; rfl⟩

/-! ### Walks -/

/-- Take entries one by one until a step says to stop. -/
def walk {σ ε : Type*} (step : σ → ε → σ × Bool) : List ε → σ → σ
  | [], state => state
  | e :: rest, state =>
    match step state e with
    | (state, true) => state
    | (state, false) => walk step rest state

/-- Deleting key after key. -/
theorem get_deleteAll {ε : Type*} (key : ε → κ) (l : List ε) (s : ObjectStore κ α) (k : κ) :
    (l.foldl (fun s e => s.delete (key e)) s).get k = if k ∈ l.map key then none else s.get k := by
  induction l generalizing s with
  | nil => rfl
  | cons e rest ih =>
    rw [List.foldl_cons, ih, get_delete, List.map_cons]
    by_cases h : k ∈ rest.map key
    · rw [if_pos h, if_pos (List.mem_cons_of_mem _ h)]
    · by_cases hk : k = key e <;> simp [h, hk]

/-- Writing key after key, one record a key. -/
theorem get_putAll {ε : Type*} (key : ε → κ) (record : ε → α) (l : List ε) (s : ObjectStore κ α) (k : κ) :
    (l.foldl (fun s e => s.put (key e) (record e)) s).get k =
      ((l.reverse.find? (key · = k)).map record).or (s.get k) := by
  induction l generalizing s with
  | nil => rfl
  | cons e rest ih =>
    rw [List.foldl_cons, ih, get_put, List.reverse_cons, List.find?_append]
    cases rest.reverse.find? (key · = k) with
    | some e' => rfl
    | none =>
      by_cases hk : key e = k
      · simp [hk]
      · simp [hk, Ne.symm hk]

end ObjectStore
