import Etherfold.Generation.Calls

/-!
# Cleaning up behind a registry

A deletion commits first and drops what it deleted afterwards; an opening reads the records,
lists the subtrees and drops those it read nothing of. Other processes commit in between.

* `Registrar`: the records, the subtrees, and what each process has still to drop.
* `Stale`: what a process holds as dead is not registered.
* `spares_iff`: **nothing registered is dropped**, whatever is completed when, exactly when no
  generation is registered while a process holds its stream or its identity as dead.
-/

namespace Etherfold

/-- What a process still has to drop. -/
inductive Drop where
  | state (id : GenerationId)
  | subtree (digest : Text)
  deriving DecidableEq, Repr

/-- Where a process stands: between reading the records and listing the subtrees, or with some
drops left to do. -/
inductive CleanupTask where
  | sweeping (known : List Text)
  | dropping (todo : List Drop)
  deriving DecidableEq, Repr

/-- One registry on a durable substrate, which stores the subtrees beside the records, and the
processes over it. -/
structure Registrar where
  records : GenerationRegistryRecords
  subtrees : List Text
  states : List GenerationId
  tasks : ℕ → CleanupTask

/-- One atomic step: of the process `p`, or of whatever writes streams and states. -/
inductive CleanupStep where
  | read (p : ℕ)
  | list (p : ℕ)
  | create (p : ℕ) (caps : GenerationCaps) (id : GenerationId) (slot : Option SlotName) (bundle : Option (List UInt8))
      (now : ℤ)
  | moveCanonicalTo (p : ℕ) (id : GenerationId) (assignPredecessor : Bool)
  | deleteGeneration (p : ℕ) (id : GenerationId) (reapStream : Bool)
  | deleteStream (p : ℕ) (digest : Text)
  | drop (p : ℕ)
  | crash (p : ℕ)
  | written (digest : Text)
  | folded (id : GenerationId)

namespace Registrar

/-- Nothing is registered, nothing stored, nothing under way. -/
def fresh : Registrar := ⟨⟨[], [], fun _ => none⟩, [], [], fun _ => .dropping []⟩

def idle (w : Registrar) (p : ℕ) : Prop := w.tasks p = .dropping []

instance (w : Registrar) (p : ℕ) : Decidable (w.idle p) := inferInstanceAs (Decidable (_ = _))

def setTask (w : Registrar) (p : ℕ) (task : CleanupTask) : Registrar := { w with tasks := Function.update w.tasks p task }

/-- The streams a sweep spares: those that are folded, and those that are kept. -/
def known (w : Registrar) : List Text := w.records.snapshot.generations.map (·.id.stream) ++ w.records.snapshot.keptStreams

/-- **One step.** A process begins a call when it has nothing left to do. -/
def step (localeCompare : Text → Text → ℤ) (w : Registrar) : CleanupStep → Registrar
  | .read p => if w.idle p then w.setTask p (.sweeping w.known) else w
  | .list p =>
    match w.tasks p with
    | .sweeping known => w.setTask p (.dropping ((w.subtrees.filter (· ∉ known)).map Drop.subtree))
    | .dropping _ => w
  | .create p caps id slot bundle now =>
    if w.idle p then { w with records := (w.records.create caps id slot bundle now).2 } else w
  | .moveCanonicalTo p id assignPredecessor =>
    if w.idle p then { w with records := (w.records.moveCanonicalTo id assignPredecessor).2 } else w
  | .deleteGeneration p id reapStream =>
    if w.idle p then
      match assertIdentity id >>= fun wanted => deletePlan wanted reapStream w.records.snapshot with
      | .error _ => w
      | .ok (record, reaped, write) =>
        setTask { w with records := w.records.write write } p
          (.dropping (.state record.id :: reaped.toList.map Drop.subtree))
    else w
  | .deleteStream p digest =>
    if w.idle p then
      match deleteStreamPlan localeCompare digest w.records.snapshot with
      | .error _ => w
      | .ok (removed, write) =>
        setTask { w with records := w.records.write write } p
          (.dropping (removed.map (fun record => Drop.state record.id) ++ [.subtree digest]))
    else w
  | .drop p =>
    match w.tasks p with
    | .dropping (.state id :: todo) => setTask { w with states := w.states.filter (· ≠ id) } p (.dropping todo)
    | .dropping (.subtree digest :: todo) =>
      setTask { w with subtrees := w.subtrees.filter (· ≠ digest) } p (.dropping todo)
    | _ => w
  | .crash p => w.setTask p (.dropping [])
  | .written digest => { w with subtrees := w.subtrees ++ [digest] }
  | .folded id => { w with states := w.states ++ [id] }

/-- After some steps, from nothing. -/
def after (localeCompare : Text → Text → ℤ) (steps : List CleanupStep) : Registrar :=
  steps.foldl (step localeCompare) fresh

/-- Nothing registered is behind the drop. -/
def Dead (w : Registrar) : Drop → Prop
  | .state id => ∀ g ∈ w.records.snapshot.generations, g.id ≠ id
  | .subtree digest => digest ∉ w.records.snapshot.keptStreams ∧
      ∀ g ∈ w.records.snapshot.generations, g.id.stream ≠ digest

/-- **Every drop that is made is of something dead** at that time. -/
def Spares (localeCompare : Text → Text → ℤ) (steps : List CleanupStep) : Prop :=
  ∀ pre p drop todo, pre ++ [.drop p] <+: steps → (after localeCompare pre).tasks p = .dropping (drop :: todo) →
    (after localeCompare pre).Dead drop

/-- No process holds this generation or its stream as dead, and each sweep that has not listed yet
read its stream. -/
def Undisturbed (w : Registrar) (id : GenerationId) : Prop :=
  ∀ p, match w.tasks p with
    | .sweeping known => id.stream ∈ known
    | .dropping todo => .state id ∉ todo ∧ .subtree id.stream ∉ todo

/-- The steps that complete what is under way; a stream may be written meanwhile. -/
def completes : CleanupStep → Prop
  | .list _ => True
  | .drop _ => True
  | .written _ => True
  | _ => False

/-- Every process holds as dead only what is dead. -/
structure Stale (w : Registrar) : Prop where
  folded : ∀ g ∈ w.records.snapshot.generations, g.id.stream ∈ w.records.snapshot.keptStreams
  sweeping : ∀ p known, w.tasks p = .sweeping known → ∀ d ∈ w.records.snapshot.keptStreams, d ∈ known
  dropping : ∀ p todo, w.tasks p = .dropping todo → ∀ drop ∈ todo, w.Dead drop

variable {w : Registrar} {localeCompare : Text → Text → ℤ}

/-! ### One step -/

theorem tasks_setTask (w : Registrar) (p : ℕ) (task : CleanupTask) (q : ℕ) :
    (w.setTask p task).tasks q = if q = p then task else w.tasks q :=
  Function.update_apply _ _ _ _

/-- What is dead stays dead while nothing is registered. -/
theorem Dead.mono {w' : Registrar} {drop : Drop} (h : w.Dead drop)
    (hgen : ∀ g ∈ w'.records.snapshot.generations, g ∈ w.records.snapshot.generations)
    (hkept : ∀ d ∈ w'.records.snapshot.keptStreams, d ∈ w.records.snapshot.keptStreams) : w'.Dead drop := by
  cases drop with
  | state id => exact fun g hg => h g (hgen g hg)
  | subtree digest => exact ⟨fun hd => h.1 (hkept _ hd), fun g hg => h.2 g (hgen g hg)⟩

/-- A commit that registers nothing, and the task of the process that made it. -/
theorem Stale.commit {w' : Registrar} (h : w.Stale)
    (hgen : ∀ g ∈ w'.records.snapshot.generations, g ∈ w.records.snapshot.generations)
    (hkept : ∀ d ∈ w'.records.snapshot.keptStreams, d ∈ w.records.snapshot.keptStreams)
    (hfolded : ∀ g ∈ w'.records.snapshot.generations, g.id.stream ∈ w'.records.snapshot.keptStreams) (p : ℕ)
    (hother : ∀ q, q ≠ p → w'.tasks q = w.tasks q)
    (hsweeping : ∀ known, w'.tasks p = .sweeping known → ∀ d ∈ w'.records.snapshot.keptStreams, d ∈ known)
    (hdropping : ∀ todo, w'.tasks p = .dropping todo → ∀ drop ∈ todo, w'.Dead drop) : w'.Stale := by
  refine ⟨hfolded, fun q known hq => ?_, fun q todo hq => ?_⟩
  · by_cases hqp : q = p
    · rw [hqp] at hq
      exact hsweeping known hq
    · rw [hother q hqp] at hq
      exact fun d hd => h.sweeping q known hq d (hkept d hd)
  · by_cases hqp : q = p
    · rw [hqp] at hq
      exact hdropping todo hq
    · rw [hother q hqp] at hq
      exact fun drop hdrop => (h.dropping q todo hq drop hdrop).mono hgen hkept

/-- The task of one process changes, over the same records. -/
theorem Stale.setTask {w' : Registrar} (h : w.Stale) (hrecords : w'.records = w.records) (p : ℕ) (task : CleanupTask)
    (htasks : ∀ q, w'.tasks q = if q = p then task else w.tasks q)
    (hsweeping : ∀ known, task = .sweeping known → ∀ d ∈ w.records.snapshot.keptStreams, d ∈ known)
    (hdropping : ∀ todo, task = .dropping todo → ∀ drop ∈ todo, w.Dead drop) : w'.Stale := by
  have hp : w'.tasks p = task := by rw [htasks, if_pos rfl]
  refine h.commit (fun g hg => ?_) (fun d hd => ?_) (fun g hg => ?_) p (fun q hq => ?_) (fun known hknown => ?_)
    fun todo htodo drop hdrop => ?_
  · rwa [hrecords] at hg
  · rwa [hrecords] at hd
  · rw [hrecords] at hg ⊢
    exact h.folded g hg
  · rw [htasks, if_neg hq]
  · rw [hrecords]
    exact hsweeping known (hp.symm.trans hknown)
  · refine (hdropping todo (hp.symm.trans htodo) drop hdrop).mono (fun g hg => ?_) fun d hd => ?_
    · rwa [hrecords] at hg
    · rwa [hrecords] at hd

/-- What an accepted registration does to the records. -/
theorem create_ok {r : GenerationRegistryRecords} {caps : GenerationCaps} {id : GenerationId} {slot : Option SlotName}
    {bundle : Option (List UInt8)} {now : ℤ} {record : GenerationRecord}
    (h : (r.create caps id slot bundle now).1 = .ok record) :
    (∀ g, g ∈ (r.create caps id slot bundle now).2.snapshot.generations ↔ g ∈ r.snapshot.generations ∨ g = record) ∧
      record.id = id ∧ ∀ d, d ∈ (r.create caps id slot bundle now).2.snapshot.keptStreams ↔
        d ∈ r.snapshot.keptStreams ∨ d = id.stream := by
  unfold GenerationRegistryRecords.create at h ⊢
  dsimp only at h ⊢
  split at h
  · cases h
  rename_i record' w' hplan
  injection h with heq
  subst heq
  obtain ⟨wanted, hid, hplan⟩ := bind_eq_ok.1 hplan
  obtain ⟨bundle', -, hplan⟩ := bind_eq_ok.1 hplan
  rw [assertIdentity_ok hid] at hplan
  obtain ⟨hrecord, hremove, hforget, hkeep, hcase⟩ := createPlan_ok hplan
  refine ⟨fun g => ?_, hrecord, fun d => ?_⟩
  · rcases hcase with ⟨hput, hmem⟩ | ⟨hput, hnew⟩
    · rw [GenerationRegistryRecords.generations_write hput, List.mem_filter, hremove, decide_eq_true_eq]
      constructor
      · exact fun hg => .inl hg.1
      · rintro (hg | rfl)
        · exact ⟨hg, List.not_mem_nil⟩
        · exact ⟨hmem, List.not_mem_nil⟩
    · rw [GenerationRegistryRecords.generations_write_put hput hremove (by rwa [hrecord]), List.mem_append,
        List.mem_singleton]
  · rw [GenerationRegistryRecords.mem_streams_write, hforget, hkeep, Option.some.injEq, eq_comm]
    exact and_iff_left List.not_mem_nil

/-- A refused registration leaves the records. -/
theorem create_error {r : GenerationRegistryRecords} {caps : GenerationCaps} {id : GenerationId} {slot : Option SlotName}
    {bundle : Option (List UInt8)} {now : ℤ} {error : RegistryError}
    (h : (r.create caps id slot bundle now).1 = .error error) : (r.create caps id slot bundle now).2 = r := by
  unfold GenerationRegistryRecords.create at h ⊢
  dsimp only at h ⊢
  split at h
  · rfl
  · cases h

/-- A move writes slots alone. -/
theorem moveCanonicalTo_records (r : GenerationRegistryRecords) (id : GenerationId) (assignPredecessor : Bool) :
    (r.moveCanonicalTo id assignPredecessor).2.snapshot.generations = r.snapshot.generations ∧
      ∀ d, d ∈ (r.moveCanonicalTo id assignPredecessor).2.snapshot.keptStreams ↔ d ∈ r.snapshot.keptStreams := by
  unfold GenerationRegistryRecords.moveCanonicalTo
  split
  · exact ⟨rfl, fun _ => Iff.rfl⟩
  · exact ⟨rfl, fun _ => Iff.rfl⟩
  · rename_i record w' hplan
    obtain ⟨wanted, -, hplan⟩ := bind_eq_ok.1 hplan
    obtain ⟨hput, hremove, hkeep, hforget⟩ := movePlan_slots hplan
    constructor
    · rw [GenerationRegistryRecords.generations_write hput, List.filter_eq_self, hremove]
      intro g _
      rw [decide_eq_true_eq]
      exact List.not_mem_nil
    · intro d
      rw [GenerationRegistryRecords.mem_streams_write, hkeep, hforget]
      simp

/-- The step registers nothing that a process holds as dead. -/
def Registers (w : Registrar) : CleanupStep → Prop
  | .create p caps id slot bundle now =>
    w.idle p → (∃ record, (w.records.create caps id slot bundle now).1 = .ok record) → w.Undisturbed id
  | _ => True

theorem Stale.read (h : w.Stale) (p : ℕ) : (w.step localeCompare (.read p)).Stale := by
  show (if w.idle p then w.setTask p (.sweeping w.known) else w).Stale
  split
  · refine h.setTask rfl p _ (tasks_setTask w p _) (fun known hknown d hd => ?_) fun todo htodo => ?_
    · injection hknown with hknown
      rw [← hknown]
      exact List.mem_append_right _ hd
    · cases htodo
  · exact h

theorem Stale.list (h : w.Stale) (p : ℕ) : (w.step localeCompare (.list p)).Stale := by
  unfold Registrar.step
  dsimp only
  split
  · rename_i known hsweeping
    refine h.setTask rfl p _ (tasks_setTask w p _) (fun known hknown => ?_) fun todo htodo drop hdrop => ?_
    · cases hknown
    · injection htodo with htodo
      rw [← htodo] at hdrop
      obtain ⟨digest, hdigest, rfl⟩ := List.mem_map.1 hdrop
      have hunknown := of_decide_eq_true (List.mem_filter.1 hdigest).2
      have hgone : digest ∉ w.records.snapshot.keptStreams := fun hd => hunknown (h.sweeping p known hsweeping digest hd)
      exact ⟨hgone, fun g hg heq => hgone (heq ▸ h.folded g hg)⟩
  · exact h

/-- What is registered is dead to no process. -/
theorem Stale.create (h : w.Stale) {p : ℕ} {caps : GenerationCaps} {id : GenerationId} {slot : Option SlotName}
    {bundle : Option (List UInt8)} {now : ℤ} (hregisters : w.Registers (.create p caps id slot bundle now)) :
    (w.step localeCompare (.create p caps id slot bundle now)).Stale := by
  show (if w.idle p then { w with records := (w.records.create caps id slot bundle now).2 } else w).Stale
  split
  · rename_i hidle
    cases hresult : (w.records.create caps id slot bundle now).1 with
    | error error =>
      rw [create_error hresult]
      exact ⟨h.folded, h.sweeping, h.dropping⟩
    | ok record =>
      obtain ⟨hgen, hid, hkept⟩ := create_ok hresult
      have hfree := hregisters hidle ⟨record, hresult⟩
      refine ⟨fun g hg => ?_, fun q known hq d hd => ?_, fun q todo hq drop hdrop => ?_⟩
      · rcases (hgen g).1 hg with hold | rfl
        · exact (hkept _).2 (.inl (h.folded g hold))
        · exact (hkept _).2 (.inr (by rw [hid]))
      · rcases (hkept d).1 hd with hold | rfl
        · exact h.sweeping q known hq d hold
        · have hq' := hfree q
          have hq'' : w.tasks q = .sweeping known := hq
          rwa [hq''] at hq'
      · have hq' := hfree q
        have hq'' : w.tasks q = .dropping todo := hq
        rw [hq''] at hq'
        have hdead := h.dropping q todo hq drop hdrop
        cases drop with
        | state dead =>
          intro g hg
          rcases (hgen g).1 hg with hold | rfl
          · exact hdead g hold
          · rw [hid]
            intro heq
            exact hq'.1 (heq ▸ hdrop)
        | subtree digest =>
          have hne : id.stream ≠ digest := fun heq => hq'.2 (heq ▸ hdrop)
          refine ⟨fun hd => ?_, fun g hg => ?_⟩
          · rcases (hkept digest).1 hd with hold | rfl
            · exact hdead.1 hold
            · exact hne rfl
          · rcases (hgen g).1 hg with hold | rfl
            · exact hdead.2 g hold
            · rwa [hid]
  · exact h

theorem Stale.moveCanonicalTo (h : w.Stale) (p : ℕ) (id : GenerationId) (assignPredecessor : Bool) :
    (w.step localeCompare (.moveCanonicalTo p id assignPredecessor)).Stale := by
  show (if w.idle p then { w with records := (w.records.moveCanonicalTo id assignPredecessor).2 } else w).Stale
  split
  · rename_i hidle
    obtain ⟨hgen, hkept⟩ := moveCanonicalTo_records w.records id assignPredecessor
    refine h.commit (fun g hg => hgen ▸ hg) (fun d hd => (hkept d).1 hd) (fun g hg => ?_) p (fun _ _ => rfl)
      (fun known hknown => ?_) fun todo htodo drop hdrop => ?_
    · exact (hkept _).2 (h.folded g (hgen ▸ hg))
    · have htask : w.tasks p = .sweeping known := hknown
      rw [hidle] at htask
      cases htask
    · have htask : w.tasks p = .dropping todo := htodo
      rw [hidle] at htask
      injection htask with htask
      rw [← htask] at hdrop
      exact absurd hdrop List.not_mem_nil
  · exact h

theorem Stale.deleteGeneration (h : w.Stale) (p : ℕ) (id : GenerationId) (reapStream : Bool) :
    (w.step localeCompare (.deleteGeneration p id reapStream)).Stale := by
  unfold Registrar.step
  dsimp only
  split
  · split
    · exact h
    · rename_i record reaped write hplan
      obtain ⟨wanted, -, hplan⟩ := bind_eq_ok.1 hplan
      obtain ⟨hmem, hid, -, hput, hkeep, hremove, hforget, -, halone⟩ := deletePlan_ok hplan
      have hgen : ∀ g, g ∈ (w.records.write write).snapshot.generations ↔
          g ∈ w.records.snapshot.generations ∧ g.id ≠ wanted := by
        intro g
        rw [GenerationRegistryRecords.generations_write hput, List.mem_filter, hremove, decide_eq_true_eq,
          List.mem_singleton]
      have hkept : ∀ d, d ∈ (w.records.write write).snapshot.keptStreams ↔
          d ∈ w.records.snapshot.keptStreams ∧ d ∉ reaped.toList := by
        intro d
        rw [GenerationRegistryRecords.mem_streams_write, hkeep, hforget]
        simp
      have hother : ∀ digest, reaped = some digest → ∀ g ∈ (w.records.write write).snapshot.generations,
          g.id.stream ≠ digest := by
        intro digest hdigest g hg hon
        obtain ⟨hold, hne⟩ := (hgen g).1 hg
        exact hne (halone digest hdigest g hold hon ▸ hid)
      refine h.commit (fun g hg => ((hgen g).1 hg).1) (fun d hd => ((hkept d).1 hd).1) (fun g hg => ?_) p
        (fun q hq => ?_) (fun known hknown => ?_) fun todo htodo drop hdrop => ?_
      · refine (hkept _).2 ⟨h.folded g ((hgen g).1 hg).1, fun hin => ?_⟩
        exact hother _ (Option.mem_toList.1 hin) g hg rfl
      · rw [tasks_setTask, if_neg hq]
      · rw [tasks_setTask, if_pos rfl] at hknown
        cases hknown
      · rw [tasks_setTask, if_pos rfl] at htodo
        injection htodo with htodo
        rw [← htodo] at hdrop
        rcases List.mem_cons.1 hdrop with rfl | hdrop
        · intro g hg
          rw [hid]
          exact ((hgen g).1 hg).2
        · obtain ⟨digest, hdigest, rfl⟩ := List.mem_map.1 hdrop
          exact ⟨fun hd => ((hkept digest).1 hd).2 hdigest, hother digest (Option.mem_toList.1 hdigest)⟩
  · exact h

theorem Stale.deleteStream (h : w.Stale) (p : ℕ) (digest : Text) :
    (w.step localeCompare (.deleteStream p digest)).Stale := by
  unfold Registrar.step
  dsimp only
  split
  · split
    · exact h
    · rename_i removed write hplan
      obtain ⟨hon, -, hput, hkeep, hremove, hforget, -⟩ := deleteStreamPlan_ok hplan
      have hgen : ∀ g, g ∈ (w.records.write write).snapshot.generations ↔
          g ∈ w.records.snapshot.generations ∧ g.id ∉ removed.map (·.id) := by
        intro g
        rw [GenerationRegistryRecords.generations_write hput, List.mem_filter, hremove, decide_eq_true_eq]
      have hkept : ∀ d, d ∈ (w.records.write write).snapshot.keptStreams ↔
          d ∈ w.records.snapshot.keptStreams ∧ d ≠ digest := by
        intro d
        rw [GenerationRegistryRecords.mem_streams_write, hkeep, hforget, List.mem_singleton]
        simp
      have hother : ∀ g ∈ (w.records.write write).snapshot.generations, g.id.stream ≠ digest := by
        intro g hg heq
        obtain ⟨hold, hstays⟩ := (hgen g).1 hg
        exact hstays (List.mem_map.2 ⟨g, (hon g).2 ⟨hold, heq⟩, rfl⟩)
      refine h.commit (fun g hg => ((hgen g).1 hg).1) (fun d hd => ((hkept d).1 hd).1) (fun g hg => ?_) p
        (fun q hq => ?_) (fun known hknown => ?_) fun todo htodo drop hdrop => ?_
      · exact (hkept _).2 ⟨h.folded g ((hgen g).1 hg).1, hother g hg⟩
      · rw [tasks_setTask, if_neg hq]
      · rw [tasks_setTask, if_pos rfl] at hknown
        cases hknown
      · rw [tasks_setTask, if_pos rfl] at htodo
        injection htodo with htodo
        rw [← htodo] at hdrop
        rcases List.mem_append.1 hdrop with hdrop | hdrop
        · obtain ⟨record, hrecord, rfl⟩ := List.mem_map.1 hdrop
          intro g hg heq
          exact ((hgen g).1 hg).2 (List.mem_map.2 ⟨record, hrecord, heq.symm⟩)
        · rw [List.mem_singleton.1 hdrop]
          exact ⟨fun hd => ((hkept digest).1 hd).2 rfl, hother⟩
  · exact h

theorem Stale.drop (h : w.Stale) (p : ℕ) : (w.step localeCompare (.drop p)).Stale := by
  have htail : ∀ drop todo, w.tasks p = .dropping (drop :: todo) → ∀ drop' ∈ todo, w.Dead drop' :=
    fun drop todo htask drop' hdrop' => h.dropping p _ htask drop' (List.mem_cons_of_mem _ hdrop')
  unfold Registrar.step
  dsimp only
  split
  · rename_i id todo htask
    refine h.setTask rfl p _ (tasks_setTask _ p _) (fun known hknown => ?_) fun todo' htodo => ?_
    · cases hknown
    · injection htodo with htodo
      rw [← htodo]
      exact htail _ todo htask
  · rename_i digest todo htask
    refine h.setTask rfl p _ (tasks_setTask _ p _) (fun known hknown => ?_) fun todo' htodo => ?_
    · cases hknown
    · injection htodo with htodo
      rw [← htodo]
      exact htail _ todo htask
  · exact h

theorem Stale.crash (h : w.Stale) (p : ℕ) : (w.step localeCompare (.crash p)).Stale := by
  refine h.setTask rfl p _ (tasks_setTask w p _) (fun known hknown => ?_) fun todo htodo drop hdrop => ?_
  · cases hknown
  · injection htodo with htodo
    rw [← htodo] at hdrop
    exact absurd hdrop List.not_mem_nil

/-- **What a process holds as dead stays dead** unless it is registered again. -/
theorem Stale.step (h : w.Stale) (step : CleanupStep) (hregisters : w.Registers step) :
    (w.step localeCompare step).Stale := by
  cases step with
  | read p => exact h.read p
  | list p => exact h.list p
  | create p caps id slot bundle now => exact h.create hregisters
  | moveCanonicalTo p id assignPredecessor => exact h.moveCanonicalTo p id assignPredecessor
  | deleteGeneration p id reapStream => exact h.deleteGeneration p id reapStream
  | deleteStream p digest => exact h.deleteStream p digest
  | drop p => exact h.drop p
  | crash p => exact h.crash p
  | written digest => exact ⟨h.folded, h.sweeping, h.dropping⟩
  | folded id => exact ⟨h.folded, h.sweeping, h.dropping⟩

/-! ### Runs -/

theorem after_concat (localeCompare : Text → Text → ℤ) (steps : List CleanupStep) (step : CleanupStep) :
    after localeCompare (steps ++ [step]) = (after localeCompare steps).step localeCompare step := by
  unfold after
  rw [List.foldl_append]
  rfl

theorem stale_after {steps : List CleanupStep}
    (h : ∀ pre step, pre ++ [step] <+: steps → (after localeCompare pre).Registers step) :
    (after localeCompare steps).Stale := by
  induction steps using List.reverseRecOn with
  | nil =>
    refine ⟨fun g hg => absurd hg List.not_mem_nil, fun p known hp => ?_, fun p todo hp drop hdrop => ?_⟩
    · cases hp
    · have hnil : ([] : List Drop) = todo := by
        injection hp
      rw [← hnil] at hdrop
      exact absurd hdrop List.not_mem_nil
  | append_singleton steps step ih =>
    rw [after_concat]
    refine (ih fun pre last hpre => h pre last (hpre.trans (List.prefix_append _ _))).step step ?_
    exact h steps step (List.prefix_refl _)

/-- A process works through what it has to drop. -/
theorem drops_reach {pre : List CleanupStep} {p : ℕ} {first : List Drop} {drop : Drop} {rest : List Drop}
    (h : (after localeCompare pre).tasks p = .dropping (first ++ drop :: rest)) :
    ∃ more : List CleanupStep, (∀ step ∈ more, completes step) ∧
      (after localeCompare (pre ++ more)).tasks p = .dropping (drop :: rest) ∧
      (after localeCompare (pre ++ more)).records = (after localeCompare pre).records := by
  induction first generalizing pre with
  | nil => exact ⟨[], fun _ hstep => absurd hstep List.not_mem_nil, by rwa [List.append_nil], by rw [List.append_nil]⟩
  | cons head first ih =>
    have hnext : (after localeCompare (pre ++ [.drop p])).tasks p = .dropping (first ++ drop :: rest) ∧
        (after localeCompare (pre ++ [.drop p])).records = (after localeCompare pre).records := by
      rw [after_concat]
      unfold Registrar.step
      dsimp only
      rw [h, List.cons_append]
      cases head with
      | state id => exact ⟨by rw [tasks_setTask, if_pos rfl], rfl⟩
      | subtree digest => exact ⟨by rw [tasks_setTask, if_pos rfl], rfl⟩
    obtain ⟨more, hmore, htask, hrecords⟩ := ih hnext.1
    refine ⟨.drop p :: more, fun step hstep => ?_, ?_, ?_⟩
    · rcases List.mem_cons.1 hstep with rfl | hstep
      · trivial
      · exact hmore step hstep
    · rw [← htask, List.append_assoc]
      rfl
    · rw [← hnext.2, ← hrecords, List.append_assoc]
      rfl

/-- **Completing what is under way** drops whatever a process holds as dead, dead or not. -/
theorem dead_of_spares {pre : List CleanupStep} {p : ℕ} {todo : List Drop} {drop : Drop}
    (hspares : ∀ more : List CleanupStep, (∀ step ∈ more, completes step) → Spares localeCompare (pre ++ more))
    (htask : (after localeCompare pre).tasks p = .dropping todo) (hdrop : drop ∈ todo) :
    (after localeCompare pre).Dead drop := by
  obtain ⟨first, rest, rfl⟩ := List.append_of_mem hdrop
  obtain ⟨more, hmore, hhead, hrecords⟩ := drops_reach htask
  have hdead : (after localeCompare (pre ++ more)).Dead drop := by
    refine hspares (more ++ [.drop p]) (fun step hstep => ?_) (pre ++ more) p drop rest ?_ hhead
    · rcases List.mem_append.1 hstep with hstep | hstep
      · exact hmore step hstep
      · rw [List.mem_singleton.1 hstep]
        trivial
    · rw [← List.append_assoc]
  refine hdead.mono (fun g hg => ?_) fun d hd => ?_
  · rwa [hrecords]
  · rwa [hrecords]

/-- **When nothing registered is destroyed.** For every interleaving of the steps of any number of
processes over one registry, openings with their sweep, registrations, moves, deletions and
crashes: wherever in the run what is under way is completed, nothing that is dropped is kept,
folded or registered, exactly when no generation is registered while a process holds its
identity or its stream as dead or sweeps without having read of the stream. -/
theorem spares_iff (localeCompare : Text → Text → ℤ) (steps : List CleanupStep) :
    (∀ pre more : List CleanupStep, pre <+: steps → (∀ step ∈ more, completes step) → Spares localeCompare (pre ++ more)) ↔
      ∀ pre step, pre ++ [step] <+: steps → (after localeCompare pre).Registers step := by
  constructor
  · intro hspares pre step hpre
    cases step with
    | create q caps id slot bundle now =>
      intro hidle hok p
      obtain ⟨record, hok⟩ := hok
      obtain ⟨hgen, hid, hkept⟩ := create_ok hok
      set created : CleanupStep := .create q caps id slot bundle now with hcreated
      have hafter : after localeCompare (pre ++ [created]) =
          { after localeCompare pre with records := ((after localeCompare pre).records.create caps id slot bundle now).2 } := by
        rw [after_concat]
        exact if_pos hidle
      have htasks : (after localeCompare (pre ++ [created])).tasks p = (after localeCompare pre).tasks p := by rw [hafter]
      have hstream : id.stream ∈ (after localeCompare (pre ++ [created])).records.snapshot.keptStreams := by
        rw [hafter]
        exact (hkept _).2 (.inr rfl)
      have hregistered : ∃ g ∈ (after localeCompare (pre ++ [created])).records.snapshot.generations, g.id = id := by
        rw [hafter]
        exact ⟨record, (hgen record).2 (.inr rfl), hid⟩
      cases htask : (after localeCompare pre).tasks p with
      | sweeping known =>
        show id.stream ∈ known
        by_contra hunknown
        -- the stream is written, listed and dropped
        have hlisted : (after localeCompare (pre ++ [created] ++ [.written id.stream] ++ [.list p])).tasks p =
            .dropping (((((after localeCompare pre).subtrees ++ [id.stream]).filter (· ∉ known)).map Drop.subtree)) ∧
            (after localeCompare (pre ++ [created] ++ [.written id.stream] ++ [.list p])).records =
              (after localeCompare (pre ++ [created])).records := by
          rw [after_concat, after_concat]
          unfold Registrar.step
          dsimp only
          rw [htasks, htask]
          refine ⟨?_, rfl⟩
          dsimp only
          rw [tasks_setTask, if_pos rfl, hafter]
        have hdead := dead_of_spares (fun more hmore => by
            have hall := hspares (pre ++ [created]) ([.written id.stream] ++ [.list p] ++ more) hpre fun step hstep => by
              rcases List.mem_append.1 hstep with hstep | hstep
              · rcases List.mem_append.1 hstep with hstep | hstep
                · rw [List.mem_singleton.1 hstep]
                  trivial
                · rw [List.mem_singleton.1 hstep]
                  trivial
              · exact hmore step hstep
            simpa only [List.append_assoc] using hall) hlisted.1
          (List.mem_map_of_mem (List.mem_filter.2
            ⟨List.mem_append_right _ (List.mem_singleton_self id.stream), decide_eq_true hunknown⟩))
        have hkept' := hdead.1
        rw [hlisted.2] at hkept'
        exact hkept' hstream
      | dropping todo =>
        have hdead := fun drop hdrop => @dead_of_spares localeCompare (pre ++ [created]) p todo drop
          (fun more hmore => hspares (pre ++ [created]) more hpre hmore) (htasks.trans htask) hdrop
        show Drop.state id ∉ todo ∧ Drop.subtree id.stream ∉ todo
        constructor
        · intro hin
          obtain ⟨g, hg, heq⟩ := hregistered
          exact hdead _ hin g hg heq
        · intro hin
          exact (hdead _ hin).1 hstream
    | _ => trivial
  · intro hregisters pre more hpre hmore part p drop todo hpart htask
    have hstale : (after localeCompare part).Stale := by
      refine stale_after fun before step hbefore => ?_
      have hin : before ++ [step] <+: pre ++ more := hbefore.trans ((List.prefix_append _ _).trans hpart)
      rcases List.prefix_or_prefix_of_prefix hin (List.prefix_append pre more) with hin' | hin'
      · exact hregisters before step (hin'.trans hpre)
      · -- what completes registers nothing
        obtain ⟨tail, htail⟩ := hin'
        rcases List.eq_nil_or_concat tail with rfl | ⟨tail, last, rfl⟩
        · rw [List.append_nil] at htail
          exact hregisters before step (htail ▸ hpre)
        · rw [List.concat_eq_append, ← List.append_assoc] at htail
          obtain ⟨-, hlast⟩ := List.append_inj' htail rfl
          have hlast' : last = step := by simpa using hlast
          have hstep : step ∈ more := by
            rw [← htail, hlast', List.append_assoc] at hin
            exact ((List.prefix_append_right_inj pre).1 hin).subset (List.mem_append_right _ (List.mem_singleton_self _))
          have hcompletes := hmore step hstep
          cases step with
          | create q caps id slot bundle now => exact hcompletes.elim
          | _ => trivial
    exact hstale.dropping p _ htask drop List.mem_cons_self

end Registrar

/-- A process has deleted a generation and has yet to drop its state; another registers it again, and
the state of a registered generation is dropped. -/
theorem deleted_and_registered :
    ¬Registrar.Spares compareText
      [.create 0 twoGenerations ⟨[1], [1]⟩ none none 0, .create 0 twoGenerations ⟨[1], [2]⟩ none none 0,
        .deleteGeneration 0 ⟨[1], [2]⟩ false, .create 1 twoGenerations ⟨[1], [2]⟩ none none 0, .drop 0] := by
  intro hspares
  have hdead := hspares [.create 0 twoGenerations ⟨[1], [1]⟩ none none 0, .create 0 twoGenerations ⟨[1], [2]⟩ none none 0,
    .deleteGeneration 0 ⟨[1], [2]⟩ false, .create 1 twoGenerations ⟨[1], [2]⟩ none none 0] 0 (.state ⟨[1], [2]⟩) []
    (List.prefix_refl _) (by decide)
  have hregistered : (⟨⟨[1], [2]⟩, 2⟩ : GenerationRecord) ∈ (Registrar.after compareText
      [.create 0 twoGenerations ⟨[1], [1]⟩ none none 0, .create 0 twoGenerations ⟨[1], [2]⟩ none none 0,
        .deleteGeneration 0 ⟨[1], [2]⟩ false, .create 1 twoGenerations ⟨[1], [2]⟩ none none 0]).records.snapshot.generations := by
    decide
  exact hdead _ hregistered rfl

end Etherfold
