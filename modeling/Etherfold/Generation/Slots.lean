import Etherfold.Generation.Registry

/-!
# The slots of the registry

Three slots name generations, at most once each, and one of them answers every read.

* `Sound`: what the slots, the caps and the records promise.
* `sound_create`, `sound_delete`, `sound_deleteStream`: **each operation keeps it**.
* `sound_move`: **a move keeps it** unless it leaves the slot of its target as it was.
-/

namespace Etherfold

/-! ### What the registry promises -/

/-- **What the slots, the caps and the records promise.** -/
structure Sound (caps : GenerationCaps) (s : GenerationRegistryState) : Prop where
  registered : ∀ name id, s.slots name = some id → ∃ g ∈ s.generations, g.id = id
  apart : ∀ a b id, s.slots a = some id → s.slots b = some id → a = b
  answered : s.generations ≠ [] → ∃ id, s.slots .canonical = some id
  distinct : (s.generations.map (·.id)).Nodup
  generations_le : s.generations.length ≤ caps.maxGenerations
  streams_le : (s.generations.map (·.id.stream)).dedup.length ≤ caps.maxStreams
  ordered : s.generations.Pairwise fun a b => a.createdAt < b.createdAt
  kept : ∀ g ∈ s.generations, g.id.stream ∈ s.keptStreams

/-- What the records alone promise. -/
structure Recorded (caps : GenerationCaps) (generations : List GenerationRecord) (keptStreams : List Text) : Prop where
  distinct : (generations.map (·.id)).Nodup
  generations_le : generations.length ≤ caps.maxGenerations
  streams_le : (generations.map (·.id.stream)).dedup.length ≤ caps.maxStreams
  ordered : generations.Pairwise fun a b => a.createdAt < b.createdAt
  kept : ∀ g ∈ generations, g.id.stream ∈ keptStreams

variable {caps : GenerationCaps} {s : GenerationRegistryState} {slots : GenerationSlots} {id : GenerationId}
  {generations : List GenerationRecord} {streams : List Text}

theorem Sound.recorded (h : Sound caps s) : Recorded caps s.generations s.keptStreams :=
  ⟨h.distinct, h.generations_le, h.streams_le, h.ordered, h.kept⟩

theorem Recorded.sound (h : Recorded caps generations streams)
    (hregistered : ∀ name id, slots name = some id → ∃ g ∈ generations, g.id = id)
    (hapart : ∀ a b id, slots a = some id → slots b = some id → a = b)
    (hanswered : generations ≠ [] → ∃ id, slots .canonical = some id) : Sound caps ⟨generations, slots, streams⟩ :=
  ⟨hregistered, hapart, hanswered, h.distinct, h.generations_le, h.streams_le, h.ordered, h.kept⟩

/-- Three slots are apart when each pair is. -/
theorem apart_of_pairs (hcs : ∀ id, slots .canonical = some id → slots .successor ≠ some id)
    (hcp : ∀ id, slots .canonical = some id → slots .predecessor ≠ some id)
    (hsp : ∀ id, slots .successor = some id → slots .predecessor ≠ some id) (a b : SlotName) (id : GenerationId)
    (ha : slots a = some id) (hb : slots b = some id) : a = b := by
  cases a with
  | canonical =>
    cases b with
    | canonical => rfl
    | successor => exact absurd hb (hcs id ha)
    | predecessor => exact absurd hb (hcp id ha)
  | successor =>
    cases b with
    | canonical => exact absurd ha (hcs id hb)
    | successor => rfl
    | predecessor => exact absurd hb (hsp id ha)
  | predecessor =>
    cases b with
    | canonical => exact absurd ha (hcp id hb)
    | successor => exact absurd ha (hsp id hb)
    | predecessor => rfl

theorem Sound.ne (h : Sound caps s) {a b : SlotName} (hab : a ≠ b) {id : GenerationId} (ha : s.slots a = some id) :
    s.slots b ≠ some id := fun hb => hab (h.apart a b id ha hb)

theorem slotHolding_none : slotHolding slots id = none ↔ ∀ name, slots name ≠ some id := by
  unfold slotHolding
  rw [List.find?_eq_none]
  constructor
  · intro h name
    have hmem : name ∈ slotNames := by cases name <;> decide
    have hname := h name hmem
    rwa [decide_eq_true_eq] at hname
  · intro h name _
    rw [decide_eq_true_eq]
    exact h name

/-- The slot a lookup answers names the generation, and none before it does. -/
theorem slotHolding_some {name : SlotName} (h : slotHolding slots id = some name) : slots name = some id := by
  have hfound := List.find?_some h
  rwa [decide_eq_true_eq] at hfound

theorem slotHolding_successor (h : slots .canonical ≠ some id) :
    slotHolding slots id = some .successor ↔ slots .successor = some id := by
  refine ⟨slotHolding_some, fun hs => ?_⟩
  unfold slotHolding slotNames
  rw [List.find?_cons_of_neg (by rwa [decide_eq_true_eq]), List.find?_cons_of_pos (by rwa [decide_eq_true_eq])]

/-- **The fetcher of a stream is its earliest registered survivor.** -/
theorem fetcherOf_eq (localeCompare : Text → Text → ℤ) (h : generations.Pairwise fun a b => a.createdAt < b.createdAt)
    (stream : Text) : fetcherOf localeCompare generations stream = generations.find? (·.id.stream = stream) := by
  have hsorted : (generations.filter (·.id.stream = stream)).Pairwise fun a b => byAge localeCompare a b ≤ 0 := by
    refine (h.filter _).imp fun {a b} hlt => ?_
    unfold byAge
    rw [if_pos (by omega)]
    omega
  unfold fetcherOf
  rw [List.Pairwise.insertionSort_eq hsorted, List.head?_filter]

/-! ### The records after a commit -/

theorem Recorded.mono (h : Recorded caps generations streams) {streams' : List Text} (hsub : ∀ d ∈ streams, d ∈ streams') :
    Recorded caps generations streams' :=
  ⟨h.distinct, h.generations_le, h.streams_le, h.ordered, fun g hg => hsub _ (h.kept g hg)⟩

/-- Removing generations, and streams none of the others folds. -/
theorem Recorded.remove (h : Recorded caps generations streams) (removed : List GenerationId) {streams' : List Text}
    (hstreams : ∀ g ∈ generations, g.id ∉ removed → g.id.stream ∈ streams → g.id.stream ∈ streams') :
    Recorded caps (generations.filter (·.id ∉ removed)) streams' := by
  have hsub : (generations.filter (·.id ∉ removed)).Sublist generations := List.filter_sublist
  refine ⟨h.distinct.sublist (hsub.map _), hsub.length_le.trans h.generations_le, ?_, h.ordered.sublist hsub, ?_⟩
  · have hdedup : ((generations.filter (·.id ∉ removed)).map (·.id.stream)).dedup ⊆
        (generations.map (·.id.stream)).dedup := by
      intro d hd
      rw [List.mem_dedup] at hd ⊢
      exact (hsub.map _).subset hd
    exact ((List.nodup_dedup _).subperm hdedup).length_le.trans h.streams_le
  · intro g hg
    obtain ⟨hmem, hkept⟩ := List.mem_filter.1 hg
    rw [decide_eq_true_eq] at hkept
    exact hstreams g hmem hkept (h.kept g hmem)

theorem lt_newest {g : GenerationRecord} (hg : g ∈ generations) :
    g.createdAt ≤ (generations.map (·.createdAt)).foldl max 0 := by
  have hfold : ∀ (l : List ℤ) (x : ℤ), x ≤ l.foldl max x ∧ ∀ y ∈ l, y ≤ l.foldl max x := by
    intro l
    induction l with
    | nil => exact fun x => ⟨le_rfl, fun y hy => absurd hy List.not_mem_nil⟩
    | cons a l ih =>
      intro x
      obtain ⟨hx, hl⟩ := ih (max x a)
      rw [List.foldl_cons]
      refine ⟨(le_max_left x a).trans hx, fun y hy => ?_⟩
      rcases List.mem_cons.1 hy with rfl | hy
      · exact (le_max_right x _).trans hx
      · exact hl y hy
  exact (hfold _ 0).2 _ (List.mem_map_of_mem hg)

/-- A generation registered within the caps, later than every other. -/
theorem Recorded.put (h : Recorded caps generations streams) {record : GenerationRecord} {streams' : List Text}
    (hnew : ∀ g ∈ generations, g.id ≠ record.id) (hgen : generations.length + 1 ≤ caps.maxGenerations)
    (hstr : record.id.stream ∈ (generations.map (·.id.stream)).dedup ∨
      (generations.map (·.id.stream)).dedup.length + 1 ≤ caps.maxStreams)
    (hlater : ∀ g ∈ generations, g.createdAt < record.createdAt) (hsub : ∀ d ∈ streams, d ∈ streams')
    (hkeep : record.id.stream ∈ streams') : Recorded caps (generations ++ [record]) streams' := by
  refine ⟨?_, ?_, ?_, ?_, ?_⟩
  · rw [List.map_append, List.nodup_append]
    refine ⟨h.distinct, List.nodup_singleton _, ?_⟩
    intro a ha b hb
    obtain ⟨g, hg, rfl⟩ := List.mem_map.1 ha
    rw [List.mem_singleton.1 hb]
    exact hnew g hg
  · rw [List.length_append, List.length_singleton]
    exact hgen
  · have hsubset : ((generations ++ [record]).map (·.id.stream)).dedup ⊆
        record.id.stream :: (generations.map (·.id.stream)).dedup := by
      intro d hd
      rw [List.mem_dedup, List.map_append, List.mem_append] at hd
      rcases hd with hd | hd
      · exact List.mem_cons_of_mem _ (List.mem_dedup.2 hd)
      · rw [List.mem_singleton.1 hd]
        exact List.mem_cons_self
    rcases hstr with hin | hroom
    · have hsubset' : ((generations ++ [record]).map (·.id.stream)).dedup ⊆ (generations.map (·.id.stream)).dedup := by
        intro d hd
        rcases List.mem_cons.1 (hsubset hd) with rfl | hd
        · exact hin
        · exact hd
      exact ((List.nodup_dedup _).subperm hsubset').length_le.trans h.streams_le
    · have hle := ((List.nodup_dedup _).subperm hsubset).length_le
      rw [List.length_cons] at hle
      omega
  · refine List.pairwise_append.2 ⟨h.ordered, List.pairwise_singleton _ _, fun a ha b hb => ?_⟩
    rw [List.mem_singleton.1 hb]
    exact hlater a ha
  · intro g hg
    rcases List.mem_append.1 hg with hg | hg
    · exact hsub _ (h.kept g hg)
    · rw [List.mem_singleton.1 hg]
      exact hkeep

/-! ### The slots after a write -/

@[simp] theorem assigned_none (slots : GenerationSlots) : GenerationSlots.assigned slots SlotAssignment.none = slots := rfl

@[simp] theorem assigned_set (slots : GenerationSlots) (a : SlotAssignment) (name : SlotName)
    (value : Option GenerationId) : GenerationSlots.assigned slots (a.set name value) =
      Function.update (GenerationSlots.assigned slots a) name value := by
  funext n
  unfold GenerationSlots.assigned SlotAssignment.set
  by_cases h : n = name
  · subst h
    rw [Function.update_self, Function.update_self, Option.getD_some]
  · rw [Function.update_of_ne h, Function.update_of_ne h]

/-- What is left when the slots that name some generations are cleared. -/
theorem assigned_clear (slots : GenerationSlots) (removed : List GenerationId) (name : SlotName) (id : GenerationId) :
    GenerationSlots.assigned slots (clearSlotsNaming slots removed) name = some id ↔
      slots name = some id ∧ id ∉ removed := by
  unfold GenerationSlots.assigned clearSlotsNaming
  cases hslot : slots name with
  | none => simp
  | some held =>
    by_cases hmem : held ∈ removed
    · simp only [hmem, if_true, Option.getD_some, Option.some.injEq]
      refine iff_of_false (by simp) fun h => h.2 (h.1 ▸ hmem)
    · simp only [hmem, if_false, Option.getD_none, Option.some.injEq]
      refine ⟨fun h => ⟨h, h ▸ hmem⟩, fun h => h.1⟩

/-- A slot given to a generation no other slot names. -/
theorem apart_update (h : ∀ a b id, slots a = some id → slots b = some id → a = b) {name : SlotName}
    (hfree : ∀ other, other ≠ name → slots other ≠ some id) (a b : SlotName) (held : GenerationId)
    (ha : Function.update slots name (some id) a = some held) (hb : Function.update slots name (some id) b = some held) :
    a = b := by
  by_cases han : a = name
  · by_cases hbn : b = name
    · rw [han, hbn]
    · rw [han, Function.update_self] at ha
      rw [Function.update_of_ne hbn] at hb
      injection ha with heq
      exact absurd (heq ▸ hb) (hfree b hbn)
  · rw [Function.update_of_ne han] at ha
    by_cases hbn : b = name
    · rw [hbn, Function.update_self] at hb
      injection hb with heq
      exact absurd (heq ▸ ha) (hfree a han)
    · rw [Function.update_of_ne hbn] at hb
      exact h a b held ha hb

theorem registered_update (h : ∀ name id, slots name = some id → ∃ g ∈ generations, g.id = id) {name : SlotName}
    {value : Option GenerationId} (hvalue : ∀ id, value = some id → ∃ g ∈ generations, g.id = id) (a : SlotName)
    (held : GenerationId) (ha : Function.update slots name value a = some held) : ∃ g ∈ generations, g.id = held := by
  by_cases han : a = name
  · rw [han, Function.update_self] at ha
    exact hvalue held ha
  · rw [Function.update_of_ne han] at ha
    exact h a held ha

namespace GenerationRegistryRecords

variable {r : GenerationRegistryRecords} {w : GenerationRegistryWrite}

theorem slots_write : (r.write w).snapshot.slots = GenerationSlots.assigned r.slots w.slots := rfl

/-- **Removing generations** and the slots that name them keeps the registry sound, where the
canonical one stays and the streams of the others are kept. -/
theorem sound_remove (h : Sound caps r.snapshot) (hput : w.put = none)
    (hslots : w.slots = clearSlotsNaming r.slots w.remove) (hcanonical : ∀ id, r.slots .canonical = some id → id ∉ w.remove)
    (hforget : ∀ g ∈ r.snapshot.generations, g.id ∉ w.remove → g.id.stream ∉ w.forgetStreams) :
    Sound caps (r.write w).snapshot := by
  have hgen := generations_write (r := r) hput
  have hslot : ∀ name id, (r.write w).snapshot.slots name = some id ↔ r.slots name = some id ∧ id ∉ w.remove := by
    intro name id
    rw [slots_write, hslots]
    exact assigned_clear r.slots w.remove name id
  have hrec : Recorded caps (r.snapshot.generations.filter (·.id ∉ w.remove)) (r.write w).snapshot.keptStreams :=
    h.recorded.remove w.remove fun g hg hstays hin => mem_streams_write.2 ⟨.inl hin, hforget g hg hstays⟩
  rw [← hgen] at hrec
  refine hrec.sound ?_ ?_ ?_
  · intro name id hname
    obtain ⟨hold, hstays⟩ := (hslot name id).1 hname
    obtain ⟨g, hg, rfl⟩ := h.registered name id hold
    rw [hgen]
    exact ⟨g, List.mem_filter.2 ⟨hg, decide_eq_true hstays⟩, rfl⟩
  · intro a b id ha hb
    exact h.apart a b id ((hslot a id).1 ha).1 ((hslot b id).1 hb).1
  · intro hne
    obtain ⟨g, hg⟩ := List.exists_mem_of_ne_nil _ hne
    rw [hgen] at hg
    obtain ⟨id, hid⟩ := h.answered (List.ne_nil_of_mem (List.mem_filter.1 hg).1)
    exact ⟨id, (hslot _ id).2 ⟨hid, hcanonical id hid⟩⟩

/-- **Writing slots alone**, and a stream to keep. -/
theorem sound_assign (h : Sound caps r.snapshot) (hput : w.put = none) (hremove : w.remove = [])
    (hforget : w.forgetStreams = [])
    (hregistered : ∀ name id, GenerationSlots.assigned r.slots w.slots name = some id → ∃ g ∈ r.snapshot.generations, g.id = id)
    (hapart : ∀ a b id, GenerationSlots.assigned r.slots w.slots a = some id →
      GenerationSlots.assigned r.slots w.slots b = some id → a = b)
    (hanswered : ∃ id, GenerationSlots.assigned r.slots w.slots .canonical = some id) :
    Sound caps (r.write w).snapshot := by
  have hgen : (r.write w).snapshot.generations = r.snapshot.generations := by
    rw [generations_write hput, hremove, List.filter_eq_self]
    intro g _
    rw [decide_eq_true_eq]
    exact List.not_mem_nil
  have hrec : Recorded caps r.snapshot.generations (r.write w).snapshot.keptStreams := by
    refine h.recorded.mono fun d hd => mem_streams_write.2 ⟨.inl hd, ?_⟩
    rw [hforget]
    exact List.not_mem_nil
  rw [← hgen] at hrec hregistered
  exact hrec.sound hregistered hapart fun _ => hanswered

/-- **Recording a generation** within the caps, later than the others. -/
theorem sound_put (h : Sound caps r.snapshot) {record : GenerationRecord} (hput : w.put = some record)
    (hremove : w.remove = []) (hforget : w.forgetStreams = []) (hkeep : w.keepStream = some record.id.stream)
    (hnew : ∀ g ∈ r.snapshot.generations, g.id ≠ record.id) (hgen : r.snapshot.generations.length + 1 ≤ caps.maxGenerations)
    (hstr : record.id.stream ∈ (r.snapshot.generations.map (·.id.stream)).dedup ∨
      (r.snapshot.generations.map (·.id.stream)).dedup.length + 1 ≤ caps.maxStreams)
    (hlater : ∀ g ∈ r.snapshot.generations, g.createdAt < record.createdAt)
    (hslots : ∀ name id, GenerationSlots.assigned r.slots w.slots name = some id → r.slots name = some id ∨ id = record.id)
    (hapart : ∀ a b id, GenerationSlots.assigned r.slots w.slots a = some id →
      GenerationSlots.assigned r.slots w.slots b = some id → a = b)
    (hanswered : ∃ id, GenerationSlots.assigned r.slots w.slots .canonical = some id) :
    Sound caps (r.write w).snapshot := by
  have hgens := generations_write_put hput hremove hnew
  have hkept : ∀ d, d ∈ (r.write w).snapshot.keptStreams ↔ d ∈ r.snapshot.keptStreams ∨ w.keepStream = some d := by
    intro d
    rw [mem_streams_write, hforget]
    exact and_iff_left List.not_mem_nil
  have hrec : Recorded caps (r.snapshot.generations ++ [record]) (r.write w).snapshot.keptStreams :=
    h.recorded.put hnew hgen hstr hlater (fun d hd => (hkept d).2 (.inl hd)) ((hkept _).2 (.inr hkeep))
  rw [← hgens] at hrec
  refine hrec.sound (fun name id hname => ?_) hapart fun _ => hanswered
  rw [hgens]
  rcases hslots name id hname with hold | rfl
  · obtain ⟨g, hg, heq⟩ := h.registered name id hold
    exact ⟨g, List.mem_append_left _ hg, heq⟩
  · exact ⟨record, List.mem_append_right _ (List.mem_singleton_self _), rfl⟩

/-- A slot that is given away leaves the canonical one filled, or fills it. -/
theorem canonical_update {slot : SlotName} {given : GenerationId}
    (h : slot = .canonical ∨ ∃ id, slots .canonical = some id) :
    ∃ id, Function.update slots slot (some given) .canonical = some id := by
  by_cases hslot : SlotName.canonical = slot
  · exact ⟨given, by rw [← hslot, Function.update_self]⟩
  · obtain hsame | ⟨id, hid⟩ := h
    · exact absurd hsame.symm hslot
    · exact ⟨id, by rw [Function.update_of_ne hslot, hid]⟩

/-- A generation that is armed again leaves `predecessor` and takes `successor`. -/
theorem sound_rearm (h : Sound caps r.snapshot) {found : GenerationRecord} (hfound : found ∈ r.snapshot.generations)
    (hpred : r.slots .predecessor = some found.id) (hput : w.put = none) (hremove : w.remove = [])
    (hforget : w.forgetStreams = [])
    (hslots : w.slots = (SlotAssignment.none.set .successor (some found.id)).set .predecessor none) :
    Sound caps (r.write w).snapshot := by
  obtain ⟨canonical, hcanonical⟩ := h.answered (List.ne_nil_of_mem hfound)
  have hcanonical' : r.slots .canonical ≠ some found.id := h.ne (by decide) hpred
  have hassigned : GenerationSlots.assigned r.slots w.slots =
      Function.update (Function.update r.slots .successor (some found.id)) .predecessor none := by
    rw [hslots, assigned_set, assigned_set, assigned_none]
  refine sound_assign h hput hremove hforget ?_ ?_ ?_
  · rw [hassigned]
    refine registered_update (registered_update h.registered fun id heq => ?_) fun id hnone => ?_
    · injection heq with heq
      exact ⟨found, hfound, heq⟩
    · cases hnone
  · rw [hassigned]
    refine apart_of_pairs ?_ ?_ ?_
    · intro id hc hs
      rw [Function.update_of_ne (by decide), Function.update_of_ne (by decide)] at hc
      rw [Function.update_of_ne (by decide), Function.update_self] at hs
      exact hcanonical' (hc.trans hs.symm)
    · intro id _ hp
      rw [Function.update_self] at hp
      cases hp
    · intro id _ hp
      rw [Function.update_self] at hp
      cases hp
  · rw [hassigned, Function.update_of_ne (by decide), Function.update_of_ne (by decide)]
    exact ⟨canonical, hcanonical⟩

/-- A slot is given to a registered generation that none names. -/
theorem sound_occupy (h : Sound caps r.snapshot) {found : GenerationRecord} (hfound : found ∈ r.snapshot.generations)
    {slot : SlotName} (hfree : ∀ name, r.slots name ≠ some found.id) (hput : w.put = none) (hremove : w.remove = [])
    (hforget : w.forgetStreams = []) (hslots : w.slots = SlotAssignment.none.set slot (some found.id)) :
    Sound caps (r.write w).snapshot := by
  have hassigned : GenerationSlots.assigned r.slots w.slots = Function.update r.slots slot (some found.id) := by
    rw [hslots, assigned_set, assigned_none]
  refine sound_assign h hput hremove hforget ?_ ?_ ?_
  · rw [hassigned]
    refine registered_update h.registered fun id heq => ?_
    injection heq with heq
    exact ⟨found, hfound, heq⟩
  · rw [hassigned]
    exact apart_update h.apart fun other _ => hfree other
  · rw [hassigned]
    exact canonical_update (.inr (h.answered (List.ne_nil_of_mem hfound)))

/-- A generation that was not registered is given a slot, or none where one answers. -/
theorem sound_register (h : Sound caps r.snapshot) {record : GenerationRecord} (hput : w.put = some record)
    (hremove : w.remove = []) (hforget : w.forgetStreams = []) (hkeep : w.keepStream = some record.id.stream)
    (hnew : ∀ g ∈ r.snapshot.generations, g.id ≠ record.id) (hgen : r.snapshot.generations.length + 1 ≤ caps.maxGenerations)
    (hstr : record.id.stream ∈ (r.snapshot.generations.map (·.id.stream)).dedup ∨
      (r.snapshot.generations.map (·.id.stream)).dedup.length + 1 ≤ caps.maxStreams)
    (hlater : ∀ g ∈ r.snapshot.generations, g.createdAt < record.createdAt)
    (hslots : (w.slots = SlotAssignment.none ∧ r.slots .canonical ≠ none) ∨
      ∃ slot, w.slots = SlotAssignment.none.set slot (some record.id) ∧ (r.slots .canonical = none → slot = .canonical)) :
    Sound caps (r.write w).snapshot := by
  -- no slot names what is not registered
  have hfree : ∀ name, r.slots name ≠ some record.id := by
    intro name hname
    obtain ⟨g, hg, heq⟩ := h.registered name record.id hname
    exact hnew g hg heq
  obtain ⟨hnothing, hanswers⟩ | ⟨slot, hset, hfirst⟩ := hslots
  · have hassigned : GenerationSlots.assigned r.slots w.slots = r.slots := by rw [hnothing, assigned_none]
    refine sound_put h hput hremove hforget hkeep hnew hgen hstr hlater ?_ ?_ ?_
    · rw [hassigned]
      exact fun name id => .inl
    · rw [hassigned]
      exact h.apart
    · rw [hassigned]
      exact Option.ne_none_iff_exists'.1 hanswers
  · have hassigned : GenerationSlots.assigned r.slots w.slots = Function.update r.slots slot (some record.id) := by
      rw [hset, assigned_set, assigned_none]
    refine sound_put h hput hremove hforget hkeep hnew hgen hstr hlater ?_ ?_ ?_
    · rw [hassigned]
      intro name id hname
      by_cases hslot : name = slot
      · rw [hslot, Function.update_self] at hname
        injection hname with heq
        exact .inr heq.symm
      · rw [Function.update_of_ne hslot] at hname
        exact .inl hname
    · rw [hassigned]
      exact apart_update h.apart fun other _ => hfree other
    · rw [hassigned]
      refine canonical_update ?_
      cases hcanonical : r.slots .canonical with
      | none => exact .inl (hfirst hcanonical)
      | some id => exact .inr ⟨id, rfl⟩

/-- **A registration keeps the registry sound.** -/
theorem sound_create (h : Sound caps r.snapshot) {now : ℤ} {wanted : GenerationId} {into : Option SlotName}
    {bundle : Option (List UInt8)} {record : GenerationRecord}
    (hplan : createPlan caps now wanted into bundle r.snapshot = .ok (record, w)) : Sound caps (r.write w).snapshot := by
  unfold createPlan at hplan
  split at hplan
  · rename_i found hfind
    obtain ⟨hfound, hid⟩ := find_generation hfind
    obtain ⟨canonical, hcanonical⟩ := h.answered (List.ne_nil_of_mem hfound)
    rw [if_neg (by rw [hcanonical]; exact Option.some_ne_none _)] at hplan
    split at hplan
    · rename_i hrearm
      injection hplan with heq
      injection heq with _ hw
      subst hw
      exact sound_rearm h hfound (slotHolding_some hrearm.2) rfl rfl rfl rfl
    · split at hplan
      · rename_i slot hholding _
        injection hplan with heq
        injection heq with _ hw
        subst hw
        exact sound_occupy h hfound (slotHolding_none.1 hholding) rfl rfl rfl rfl
      · injection hplan with heq
        injection heq with _ hw
        subst hw
        exact sound_assign h rfl rfl rfl h.registered h.apart ⟨canonical, hcanonical⟩
  · rename_i hfind
    have hnew := find_generation_none hfind
    dsimp only at hplan
    split at hplan
    · cases hplan
    rename_i hgen
    split at hplan
    · cases hplan
    rename_i hstr
    injection hplan with heq
    injection heq with hrecord hw
    subst hw
    have hid : record.id = wanted := by rw [← hrecord]
    rw [hrecord]
    refine sound_register h rfl rfl rfl (by rw [hid]) (by rw [hid]; exact hnew) (by omega) ?_ (fun g hg => ?_) ?_
    · rw [hid]
      by_contra hroom
      rw [not_or] at hroom
      exact hstr ⟨hroom.1, by omega⟩
    · have hle := lt_newest hg
      rw [← hrecord]
      dsimp only
      omega
    · rw [hid]
      by_cases hnone : r.slots .canonical = none
      · exact .inr ⟨.canonical, if_pos hnone, fun _ => rfl⟩
      · cases into with
        | none => exact .inl ⟨if_neg hnone, hnone⟩
        | some slot => exact .inr ⟨slot, if_neg hnone, fun hnone' => absurd hnone' hnone⟩

/-- What a move of the pointer writes. -/
theorem movePlan_ok {wanted movedOff : GenerationId} {assignPredecessor : Bool} {record : GenerationRecord}
    (hcanonical : r.slots .canonical = some movedOff)
    (hplan : movePlan wanted assignPredecessor r.snapshot = .ok (record, some w)) :
    record ∈ r.snapshot.generations ∧ record.id = wanted ∧ movedOff ≠ wanted ∧ w.put = none ∧ w.remove = [] ∧
      w.forgetStreams = [] ∧ GenerationSlots.assigned r.slots w.slots .canonical = some wanted ∧
      (GenerationSlots.assigned r.slots w.slots .successor =
        if slotHolding r.slots wanted = some .successor then none else r.slots .successor) ∧
      GenerationSlots.assigned r.slots w.slots .predecessor =
        if assignPredecessor then some movedOff else r.slots .predecessor := by
  unfold movePlan at hplan
  split at hplan
  · cases hplan
  rename_i found hfind
  obtain ⟨hfound, rfl⟩ := find_generation hfind
  split at hplan
  · injection hplan with heq
    injection heq with _ hnone
    cases hnone
  rename_i hoff
  have hne : movedOff ≠ found.id := by
    intro heq
    exact hoff (heq ▸ hcanonical)
  injection hplan with heq
  injection heq with hrecord hw
  injection hw with hw
  subst hrecord hw
  refine ⟨hfound, rfl, hne, rfl, rfl, rfl, ?_⟩
  have hcanonical' : r.snapshot.slots .canonical = some movedOff := hcanonical
  dsimp only
  rw [hcanonical']
  dsimp only
  have hsnapshot : r.snapshot.slots = r.slots := rfl
  rw [hsnapshot]
  refine ⟨?_, ?_, ?_⟩
  · split <;> split <;> simp [Function.update_of_ne, Function.update_self]
  · split <;> split <;> simp [Function.update_of_ne, Function.update_self]
  · split <;> split <;> simp_all [Function.update_of_ne, Function.update_self]

/-- **A move keeps the registry sound** unless it leaves the predecessor slot naming what it moves
to. -/
theorem sound_move (h : Sound caps r.snapshot) {wanted : GenerationId} {assignPredecessor : Bool}
    {record : GenerationRecord} (hplan : movePlan wanted assignPredecessor r.snapshot = .ok (record, some w)) :
    Sound caps (r.write w).snapshot ↔ (assignPredecessor = false → r.slots .predecessor ≠ some wanted) := by
  have hne : r.snapshot.generations ≠ [] := by
    intro hnil
    unfold movePlan at hplan
    rw [hnil] at hplan
    cases hplan
  obtain ⟨movedOff, hcanonical⟩ := h.answered hne
  obtain ⟨hmem, hid, hoff, hput, hremove, hforget, hc, hs, hp⟩ := movePlan_ok hcanonical hplan
  constructor
  · intro hsound hassign hpred
    rw [hassign, if_neg Bool.false_ne_true, hpred] at hp
    have htwice := hsound.apart .canonical .predecessor wanted hc hp
    cases htwice
  · intro hpred
    have hcanonical' : r.snapshot.slots .canonical = some movedOff := hcanonical
    refine sound_assign h hput hremove hforget ?_ ?_ ⟨wanted, hc⟩
    · intro name id hname
      cases name with
      | canonical =>
        rw [hc] at hname
        injection hname with heq
        exact ⟨record, hmem, hid.trans heq⟩
      | successor =>
        rw [hs] at hname
        split at hname
        · cases hname
        · exact h.registered _ id hname
      | predecessor =>
        rw [hp] at hname
        split at hname
        · exact h.registered .canonical id (hcanonical'.trans hname)
        · exact h.registered _ id hname
    · refine apart_of_pairs ?_ ?_ ?_
      · intro id hcid hsid
        rw [hc] at hcid
        injection hcid with heq
        subst heq
        rw [hs] at hsid
        split at hsid
        · cases hsid
        · rename_i hholding
          refine hholding ((slotHolding_successor ?_).2 hsid)
          intro heq
          have hboth := hcanonical'.symm.trans heq
          injection hboth with hsame
          exact hoff hsame
      · intro id hcid hpid
        rw [hc] at hcid
        injection hcid with heq
        subst heq
        rw [hp] at hpid
        split at hpid
        · injection hpid with heq
          exact hoff heq
        · rename_i hassign
          exact hpred (by simpa using hassign) hpid
      · intro id hsid hpid
        rw [hs] at hsid
        split at hsid
        · cases hsid
        rw [hp] at hpid
        split at hpid
        · injection hpid with heq
          subst heq
          exact h.ne (by decide) hcanonical' hsid
        · exact h.ne (by decide) (show r.snapshot.slots .successor = some id from hsid) hpid

/-- **A deletion keeps the registry sound.** -/
theorem sound_delete (h : Sound caps r.snapshot) {wanted : GenerationId} {reapStream : Bool} {record : GenerationRecord}
    {reaped : Option Text} (hplan : deletePlan wanted reapStream r.snapshot = .ok (record, reaped, w)) :
    Sound caps (r.write w).snapshot ∧
      ∀ digest, reaped = some digest → ∀ g ∈ (r.write w).snapshot.generations, g.id.stream ≠ digest := by
  obtain ⟨-, hid, hnot, hput, -, hremove, hforget, hslots, halone⟩ := deletePlan_ok hplan
  -- the reaped stream had one generation on it
  have hgone : ∀ digest, reaped = some digest → ∀ g ∈ r.snapshot.generations, g.id ∉ w.remove →
      g.id.stream ≠ digest := by
    intro digest hdigest g hg hstays hon
    rw [hremove, List.mem_singleton] at hstays
    exact hstays (halone digest hdigest g hg hon ▸ hid)
  refine ⟨sound_remove h hput (hremove ▸ hslots) ?_ ?_, fun digest hdigest g hg => ?_⟩
  · intro id hcanonical hmem
    rw [hremove, List.mem_singleton] at hmem
    exact hnot (hmem ▸ hcanonical)
  · intro g hg hstays hforgotten
    rw [hforget, Option.mem_toList] at hforgotten
    exact hgone g.id.stream hforgotten g hg hstays rfl
  · rw [generations_write hput] at hg
    obtain ⟨hg, hstays⟩ := List.mem_filter.1 hg
    exact hgone digest hdigest g hg (of_decide_eq_true hstays)

/-- **The deletion of a stream keeps the registry sound.** -/
theorem sound_deleteStream (h : Sound caps r.snapshot) {localeCompare : Text → Text → ℤ} {digest : Text}
    {removed : List GenerationRecord} (hplan : deleteStreamPlan localeCompare digest r.snapshot = .ok (removed, w)) :
    Sound caps (r.write w).snapshot ∧ ∀ g ∈ (r.write w).snapshot.generations, g.id.stream ≠ digest := by
  obtain ⟨hon, hother, hput, -, hremove, hforget, hslots⟩ := deleteStreamPlan_ok hplan
  have hgone : ∀ g ∈ r.snapshot.generations, g.id ∉ w.remove → g.id.stream ≠ digest := by
    intro g hg hstays heq
    rw [hremove] at hstays
    exact hstays (List.mem_map.2 ⟨g, (hon g).2 ⟨hg, heq⟩, rfl⟩)
  refine ⟨sound_remove h hput (hremove ▸ hslots) ?_ ?_, fun g hg => ?_⟩
  · intro id hcanonical hmem
    rw [hremove] at hmem
    obtain ⟨g, hg, rfl⟩ := List.mem_map.1 hmem
    exact hother g.id hcanonical ((hon g).1 hg).2
  · intro g hg hstays hforgotten
    rw [hforget, List.mem_singleton] at hforgotten
    exact hgone g hg hstays hforgotten
  · rw [generations_write hput] at hg
    obtain ⟨hg, hstays⟩ := List.mem_filter.1 hg
    exact hgone g hg (of_decide_eq_true hstays)

end GenerationRegistryRecords

end Etherfold
