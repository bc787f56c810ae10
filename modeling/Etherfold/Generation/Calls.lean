import Etherfold.Generation.Slots

/-!
# Calls on a registry

Any sequence of calls on a registry opened empty, refused or not.

* `perform_refused`: a refused call changes nothing.
* `sound_iff`: **the registry stays sound** exactly when no move that assigns no predecessor
  goes to the generation the predecessor slot names.
-/

namespace Etherfold

variable {caps : GenerationCaps} {id : GenerationId}

/-! ### Sequences of calls -/

/-- What is asked of a registry; a registration reads the clock. -/
inductive RegistryCall where
  | create (id : GenerationId) (slot : Option SlotName) (bundle : Option (List UInt8)) (now : ℤ)
  | moveCanonicalTo (id : GenerationId) (assignPredecessor : Bool)
  | deleteGeneration (id : GenerationId) (reapStream : Bool)
  | deleteStream (digest : Text)

namespace GenerationRegistryRecords

def refusal {α : Type} : Except RegistryError α → Option RegistryError
  | .error e => some e
  | .ok _ => none

/-- One call: why it was refused, if it was, and the records after it. -/
def perform (caps : GenerationCaps) (localeCompare : Text → Text → ℤ) (r : GenerationRegistryRecords) :
    RegistryCall → Option RegistryError × GenerationRegistryRecords
  | .create id slot bundle now => (refusal (r.create caps id slot bundle now).1, (r.create caps id slot bundle now).2)
  | .moveCanonicalTo id assignPredecessor =>
    (refusal (r.moveCanonicalTo id assignPredecessor).1, (r.moveCanonicalTo id assignPredecessor).2)
  | .deleteGeneration id reapStream => (refusal (r.deleteGeneration id reapStream).1, (r.deleteGeneration id reapStream).2)
  | .deleteStream digest => (refusal (r.deleteStream localeCompare digest).1, (r.deleteStream localeCompare digest).2)

/-- A registry opened empty, after some calls. -/
def run (caps : GenerationCaps) (localeCompare : Text → Text → ℤ) (calls : List RegistryCall) : GenerationRegistryRecords :=
  calls.foldl (fun r call => (r.perform caps localeCompare call).2) ⟨[], [], fun _ => none⟩

variable {r : GenerationRegistryRecords} {localeCompare : Text → Text → ℤ}

theorem run_concat (caps : GenerationCaps) (localeCompare : Text → Text → ℤ) (calls : List RegistryCall)
    (call : RegistryCall) :
    run caps localeCompare (calls ++ [call]) = ((run caps localeCompare calls).perform caps localeCompare call).2 := by
  unfold run
  rw [List.foldl_append]
  rfl

/-- Dropping a stream no generation folds keeps the registry sound. -/
theorem sound_dropStreamSubtree (h : Sound caps r.snapshot) {digest : Text}
    (hunfolded : ∀ g ∈ r.snapshot.generations, g.id.stream ≠ digest) :
    Sound caps (r.dropStreamSubtree digest).2.snapshot := by
  have hrec := h.recorded
  refine ⟨h.registered, h.apart, h.answered, hrec.distinct, hrec.generations_le, hrec.streams_le, hrec.ordered, ?_⟩
  intro g hg
  show g.id.stream ∈ r.streams.filter (· ≠ digest)
  rw [List.mem_filter, decide_eq_true_eq]
  exact ⟨hrec.kept g hg, hunfolded g hg⟩

/-- **One call keeps the registry sound**, the move to the predecessor that assigns none aside. -/
theorem sound_perform (h : Sound caps r.snapshot) (call : RegistryCall)
    (hmove : ∀ id, call = .moveCanonicalTo id false → r.slots .predecessor ≠ some id) :
    Sound caps (r.perform caps localeCompare call).2.snapshot := by
  cases call with
  | create id slot bundle now =>
    show Sound caps (r.create caps id slot bundle now).2.snapshot
    unfold create
    dsimp only
    split
    · exact h
    · rename_i record w hplan
      obtain ⟨wanted, -, hplan⟩ := bind_eq_ok.1 hplan
      obtain ⟨bundle', -, hplan⟩ := bind_eq_ok.1 hplan
      exact sound_create h hplan
  | moveCanonicalTo id assignPredecessor =>
    show Sound caps (r.moveCanonicalTo id assignPredecessor).2.snapshot
    unfold moveCanonicalTo
    split
    · exact h
    · exact h
    · rename_i record w hplan
      obtain ⟨wanted, hid, hplan⟩ := bind_eq_ok.1 hplan
      rw [assertIdentity_ok hid] at hplan
      refine (sound_move h hplan).2 fun hassign => ?_
      exact hmove id (by rw [hassign])
  | deleteGeneration id reapStream =>
    show Sound caps (r.deleteGeneration id reapStream).2.snapshot
    unfold deleteGeneration
    split
    · exact h
    · rename_i record w hplan
      obtain ⟨wanted, -, hplan⟩ := bind_eq_ok.1 hplan
      exact (sound_delete h hplan).1
    · rename_i record digest w hplan
      obtain ⟨wanted, -, hplan⟩ := bind_eq_ok.1 hplan
      obtain ⟨hsound, hunfolded⟩ := sound_delete h hplan
      exact sound_dropStreamSubtree hsound (hunfolded digest rfl)
  | deleteStream digest =>
    show Sound caps (r.deleteStream localeCompare digest).2.snapshot
    unfold deleteStream
    split
    · exact h
    · rename_i removed w hplan
      obtain ⟨hsound, hunfolded⟩ := sound_deleteStream h hplan
      exact sound_dropStreamSubtree hsound hunfolded

/-- **A refused call changes nothing.** -/
theorem perform_refused {call : RegistryCall} {error : RegistryError}
    (h : (r.perform caps localeCompare call).1 = some error) : (r.perform caps localeCompare call).2 = r := by
  cases call with
  | create id slot bundle now =>
    show (r.create caps id slot bundle now).2 = r
    have hrefused : refusal (r.create caps id slot bundle now).1 = some error := h
    unfold create at hrefused ⊢
    dsimp only at hrefused ⊢
    split at hrefused
    · rfl
    · cases hrefused
  | moveCanonicalTo id assignPredecessor =>
    show (r.moveCanonicalTo id assignPredecessor).2 = r
    have hrefused : refusal (r.moveCanonicalTo id assignPredecessor).1 = some error := h
    unfold moveCanonicalTo at hrefused ⊢
    split at hrefused
    · rfl
    · cases hrefused
    · cases hrefused
  | deleteGeneration id reapStream =>
    show (r.deleteGeneration id reapStream).2 = r
    have hrefused : refusal (r.deleteGeneration id reapStream).1 = some error := h
    unfold deleteGeneration at hrefused ⊢
    split at hrefused
    · rfl
    · cases hrefused
    · cases hrefused
  | deleteStream digest =>
    show (r.deleteStream localeCompare digest).2 = r
    have hrefused : refusal (r.deleteStream localeCompare digest).1 = some error := h
    unfold deleteStream at hrefused ⊢
    split at hrefused
    · rfl
    · cases hrefused

/-- Every registered generation has a stream and a processor. -/
theorem named_write {w : GenerationRegistryWrite}
    (h : ∀ g ∈ r.snapshot.generations, assertIdentity g.id = .ok g.id)
    (hput : ∀ record, w.put = some record → assertIdentity record.id = .ok record.id) :
    ∀ g ∈ (r.write w).snapshot.generations, assertIdentity g.id = .ok g.id := by
  intro g hg
  obtain ⟨e, he, rfl⟩ := List.mem_map.1 hg
  have hold : ∀ e ∈ r.entries.filter (·.1.id ∉ w.remove), assertIdentity e.1.id = .ok e.1.id :=
    fun e he => h e.1 (List.mem_map_of_mem (List.mem_filter.1 he).1)
  unfold write at he
  dsimp only at he
  split at he
  · rename_i record hrecord
    have hnew := hput record hrecord
    unfold putEntry at he
    split at he
    · obtain ⟨e', he', rfl⟩ := List.mem_map.1 he
      split
      · exact hnew
      · exact hold e' he'
    · rcases List.mem_append.1 he with he | he
      · exact hold e he
      · rw [List.mem_singleton.1 he]
        exact hnew
  · exact hold e he

theorem named_run (caps : GenerationCaps) (localeCompare : Text → Text → ℤ) (calls : List RegistryCall) :
    ∀ g ∈ (run caps localeCompare calls).snapshot.generations, assertIdentity g.id = .ok g.id := by
  induction calls using List.reverseRecOn with
  | nil => exact fun g hg => absurd hg List.not_mem_nil
  | append_singleton calls call ih =>
    rw [run_concat]
    cases call with
    | create id slot bundle now =>
      show ∀ g ∈ ((run caps localeCompare calls).create caps id slot bundle now).2.snapshot.generations, _
      unfold create
      dsimp only
      split
      · exact ih
      · rename_i record w hplan
        obtain ⟨wanted, hid, hplan⟩ := bind_eq_ok.1 hplan
        obtain ⟨bundle', -, hplan⟩ := bind_eq_ok.1 hplan
        refine named_write ih fun put hput => ?_
        obtain ⟨hrecord, -, -, -, hcase⟩ := createPlan_ok hplan
        rcases hcase with ⟨hnone, -⟩ | ⟨hsome, -⟩
        · rw [hnone] at hput
          cases hput
        · rw [hsome] at hput
          injection hput with heq
          have hsame := assertIdentity_ok hid
          rw [hsame] at hid
          rwa [← heq, hrecord, hsame]
    | moveCanonicalTo id assignPredecessor =>
      show ∀ g ∈ ((run caps localeCompare calls).moveCanonicalTo id assignPredecessor).2.snapshot.generations, _
      unfold moveCanonicalTo
      split
      · exact ih
      · exact ih
      · rename_i record w hplan
        obtain ⟨wanted, -, hplan⟩ := bind_eq_ok.1 hplan
        refine named_write ih fun put hput => ?_
        rw [(movePlan_slots hplan).1] at hput
        cases hput
    | deleteGeneration id reapStream =>
      show ∀ g ∈ ((run caps localeCompare calls).deleteGeneration id reapStream).2.snapshot.generations, _
      unfold deleteGeneration
      split
      · exact ih
      · rename_i record w hplan
        obtain ⟨wanted, -, hplan⟩ := bind_eq_ok.1 hplan
        refine named_write ih fun put hput => ?_
        rw [(deletePlan_ok hplan).2.2.2.1] at hput
        cases hput
      · rename_i record digest w hplan
        obtain ⟨wanted, -, hplan⟩ := bind_eq_ok.1 hplan
        refine named_write ih fun put hput => ?_
        rw [(deletePlan_ok hplan).2.2.2.1] at hput
        cases hput
    | deleteStream digest =>
      show ∀ g ∈ ((run caps localeCompare calls).deleteStream localeCompare digest).2.snapshot.generations, _
      unfold deleteStream
      split
      · exact ih
      · rename_i removed w hplan
        refine named_write ih fun put hput => ?_
        rw [(deleteStreamPlan_ok hplan).2.2.1] at hput
        cases hput

/-- **When the registry stays sound.** For every caps, every sequence of calls on a registry
opened empty and every clock: after every call the slots name registered generations, no
generation twice, the canonical one set; the caps hold, the records are in registration order,
the fetcher of a stream is its earliest survivor and every folded stream is kept; and a refused
call changes nothing; exactly when no move that assigns no predecessor goes to what the
predecessor slot names. -/
theorem sound_iff (caps : GenerationCaps) (localeCompare : Text → Text → ℤ) (calls : List RegistryCall) :
    ((∀ pre, pre <+: calls → Sound caps (run caps localeCompare pre).snapshot ∧
        ∀ stream, fetcherOf localeCompare (run caps localeCompare pre).snapshot.generations stream =
          (run caps localeCompare pre).snapshot.generations.find? (·.id.stream = stream)) ∧
      ∀ (r : GenerationRegistryRecords) call error, (r.perform caps localeCompare call).1 = some error →
        (r.perform caps localeCompare call).2 = r) ↔
      ∀ pre id, pre ++ [.moveCanonicalTo id false] <+: calls →
        (run caps localeCompare pre).slots .predecessor ≠ some id := by
  constructor
  · intro hall pre id hpre hpred
    obtain ⟨hsound, -⟩ := hall.1 pre ((List.prefix_append _ _).trans hpre)
    obtain ⟨hafter, -⟩ := hall.1 _ hpre
    obtain ⟨g, hg, rfl⟩ := hsound.registered .predecessor id hpred
    have hnamed := named_run caps localeCompare pre g hg
    have hcanonical : (run caps localeCompare pre).slots .canonical ≠ some g.id := hsound.ne (by decide) hpred
    rw [run_concat] at hafter
    -- the move is made, and both slots name the generation
    obtain ⟨record, hfind⟩ := Option.isSome_iff_exists.1 (List.find?_isSome.2
      ⟨g, hg, decide_eq_true (rfl : g.id = g.id)⟩ :
        ((run caps localeCompare pre).snapshot.generations.find? (·.id = g.id)).isSome = true)
    have hplan : ∃ w, movePlan g.id false (run caps localeCompare pre).snapshot = .ok (record, some w) := by
      unfold movePlan
      rw [hfind]
      dsimp only
      rw [if_neg]
      · exact ⟨_, rfl⟩
      · rw [(find_generation hfind).2]
        exact hcanonical
    obtain ⟨w, hplan⟩ := hplan
    have hmoved : ((run caps localeCompare pre).perform caps localeCompare (.moveCanonicalTo g.id false)).2 =
        (run caps localeCompare pre).write w := by
      show ((run caps localeCompare pre).moveCanonicalTo g.id false).2 = _
      have hdecided : (assertIdentity g.id >>= fun wanted =>
          movePlan wanted false (run caps localeCompare pre).snapshot) = .ok (record, some w) := by
        rw [hnamed]
        exact hplan
      unfold moveCanonicalTo
      rw [hdecided]
    rw [hmoved] at hafter
    exact (sound_move hsound hplan).1 hafter rfl hpred
  · intro hmoves
    refine ⟨fun pre hpre => ?_, fun r call error => perform_refused⟩
    have hsound : Sound caps (run caps localeCompare pre).snapshot := by
      induction pre using List.reverseRecOn with
      | nil =>
        exact ⟨fun _ _ h => (by cases h), fun _ _ _ h => (by cases h), fun h => absurd rfl h, List.nodup_nil, Nat.zero_le _,
          Nat.zero_le _, List.Pairwise.nil, fun _ h => absurd h List.not_mem_nil⟩
      | append_singleton pre call ih =>
        rw [run_concat]
        refine sound_perform (ih ((List.prefix_append _ _).trans hpre)) call fun id hcall => ?_
        rw [hcall] at hpre
        exact hmoves pre id hpre
    exact ⟨hsound, fun stream => fetcherOf_eq localeCompare hsound.ordered stream⟩

end GenerationRegistryRecords

/-- Two processors over one stream, at most two generations. -/
def twoGenerations : GenerationCaps := ⟨2, 1, Nat.two_pos, Nat.one_pos⟩

/-- The first generation is canonical, the pointer moves to the second, and back without a
predecessor: the first is now named twice. -/
theorem predecessor_moved_back :
    (GenerationRegistryRecords.run twoGenerations compareText
      [.create ⟨[1], [1]⟩ none none 0, .create ⟨[1], [2]⟩ (some .successor) none 0, .moveCanonicalTo ⟨[1], [2]⟩ true,
        .moveCanonicalTo ⟨[1], [1]⟩ false]).slots .canonical = some ⟨[1], [1]⟩ ∧
    (GenerationRegistryRecords.run twoGenerations compareText
      [.create ⟨[1], [1]⟩ none none 0, .create ⟨[1], [2]⟩ (some .successor) none 0, .moveCanonicalTo ⟨[1], [2]⟩ true,
        .moveCanonicalTo ⟨[1], [1]⟩ false]).slots .predecessor = some ⟨[1], [1]⟩ ∧
    ¬Sound twoGenerations (GenerationRegistryRecords.run twoGenerations compareText
      [.create ⟨[1], [1]⟩ none none 0, .create ⟨[1], [2]⟩ (some .successor) none 0, .moveCanonicalTo ⟨[1], [2]⟩ true,
        .moveCanonicalTo ⟨[1], [1]⟩ false]).snapshot := by
  refine ⟨by decide, by decide, fun h => ?_⟩
  have htwice := h.apart .canonical .predecessor ⟨[1], [1]⟩ (by decide) (by decide)
  cases htwice

end Etherfold
