import Mathlib.Data.List.Nodup
import Mathlib.Logic.Function.Basic
import Mathlib.Tactic

/-!
# Actions

An action holds one promise, the execution it tracks. A call starts an execution, joins the one that
runs, cancels it, or queues behind it, which leaves a plain promise in the slot.

* `call`, `cancelSlot`, `step`: the source's operations, and how executors settle.
* `Serialises`, `Honours`: what is promised of a state and of a step.
* `Meets`: when a step does no harm.
* `Kept.step`: **a step that does no harm keeps the promises**.
-/

namespace Etherfold

/-- How an execution is asked for: `next`, `ifNotExecuting`, `now` and `once`. -/
inductive ExecuteMode where
  | queue
  | wait
  | force
  | once
  deriving DecidableEq, Repr

/-- One execution: whether its executor still runs, the two flags of its promise, and how that
settled. -/
structure Execution where
  mode : ExecuteMode
  running : Bool
  cancelled : Bool
  completed : Bool
  outcome : Option Bool
  deriving DecidableEq, Repr

/-- What the slot holds. Behind a running execution a plain promise is chained, without flags and
without `cancel`: it stands for the executions of the queue, those that started and those that wait. -/
inductive PromiseSlot where
  | empty
  | own (i : ℕ)
  | chained (base : ℕ) (started : List ℕ) (waiting : ℕ)
  deriving DecidableEq, Repr

/-- What a call answers. -/
inductive ActionAnswer where
  | execution (i : ℕ)
  | queued (position : ℕ)
  | done
  | blocked
  | notAFunction
  deriving DecidableEq, Repr

/-- The calls, and what happens by itself: an executor settles, the next of the queue gets its turn.
An executor that is started may throw before it returns. -/
inductive ActionEvent where
  | call (mode : ExecuteMode) (throws : Bool)
  | cancel
  | block
  | unblock
  | reset
  | settle (i : ℕ) (ok : Bool)
  | react (throws : Bool)
  deriving DecidableEq, Repr

structure ActionState where
  exec : ℕ → Execution
  count : ℕ
  slot : PromiseSlot
  blocked : Bool

namespace ActionState

def initial : ActionState := ⟨fun _ => ⟨.wait, false, false, false, none⟩, 0, .empty, false⟩

/-- `createCancellablePromise`: what an executor throws rejects the promise and sets no flag. -/
def create (s : ActionState) (mode : ExecuteMode) (throws : Bool) : ActionState :=
  { s with
    exec := Function.update s.exec s.count ⟨mode, !throws, false, false, if throws then some false else none⟩
    count := s.count + 1 }

/-- The `cancel` of an execution's promise. -/
def cancelExecution (s : ActionState) (i : ℕ) : ActionState :=
  if (s.exec i).cancelled then s
  else
    { s with
      exec := Function.update s.exec i { s.exec i with cancelled := true, outcome := some ((s.exec i).outcome.getD false) } }

/-- A new execution takes the slot. -/
def begin (s : ActionState) (mode : ExecuteMode) (throws : Bool) : ActionState × ActionAnswer :=
  ({ s.create mode throws with slot := .own s.count }, .execution s.count)

/-- **`_execute`.** -/
def call (s : ActionState) (mode : ExecuteMode) (throws : Bool) : ActionState × ActionAnswer :=
  if s.blocked then (s, .blocked)
  else
    match s.slot with
    | .empty => s.begin mode throws
    | .own i =>
      if (s.exec i).completed then
        if mode = .once then (s, .execution i) else s.begin mode throws
      else if !(s.exec i).cancelled then
        match mode with
        | .force => (s.cancelExecution i).begin mode throws
        | .queue => ({ s with slot := .chained i [] 1 }, .queued 0)
        | .wait => (s, .execution i)
        | .once => (s, .execution i)
      else s.begin mode throws
    | .chained base started waiting =>
      -- neither flag is there to read
      match mode with
      | .force => (s, .notAFunction)
      | .queue => ({ s with slot := .chained base started (waiting + 1) }, .queued (started.length + waiting))
      | .wait => (s, .queued (started.length + waiting - 1))
      | .once => (s, .queued (started.length + waiting - 1))

/-- `_promise?.cancel()`, or what it throws. -/
def cancelSlot (s : ActionState) : Option ActionState :=
  match s.slot with
  | .empty => some s
  | .own i => some (s.cancelExecution i)
  | .chained _ _ _ => none

/-- The `executing` of an action. -/
def executing (s : ActionState) : Option ActionAnswer :=
  match s.slot with
  | .empty => none
  | .own i => if (s.exec i).completed || (s.exec i).cancelled then none else some (.execution i)
  | .chained _ started waiting => some (.queued (started.length + waiting - 1))

/-- The execution that the first waiting one of a queue waits for. -/
def predecessor (base : ℕ) (started : List ℕ) : ℕ := started.getLast?.getD base

/-- An executor settles; its promise listens only while it is neither cancelled nor completed. -/
def settle (s : ActionState) (i : ℕ) (ok : Bool) : ActionState :=
  { s with
    exec := Function.update s.exec i
      (if (s.exec i).cancelled || (s.exec i).completed then { s.exec i with running := false }
        else { s.exec i with running := false, completed := true, outcome := some ok }) }

/-- **One step.** An executor settles while it runs, and the next of a queue is started when the one
before it was resolved. -/
def step (s : ActionState) : ActionEvent → Option (ActionState × ActionAnswer)
  | .call mode throws => some (s.call mode throws)
  | .cancel =>
    match s.cancelSlot with
    | some s => some (s, .done)
    | none => some (s, .notAFunction)
  | .block =>
    match s.cancelSlot with
    | some s => some ({ s with blocked := true }, .done)
    | none => some (s, .notAFunction)
  | .unblock => some ({ s with blocked := false }, .done)
  | .reset =>
    match s.cancelSlot with
    | some s => some ({ s with slot := .empty }, .done)
    | none => some (s, .notAFunction)
  | .settle i ok => if i < s.count ∧ (s.exec i).running then some (s.settle i ok, .done) else none
  | .react throws =>
    match s.slot with
    | .chained base started (waiting + 1) =>
      if (s.exec (predecessor base started)).outcome = some true then
        some ({ s.create .queue throws with slot := .chained base (started ++ [s.count]) waiting }, .done)
      else none
    | _ => none

/-- The state some events leave, where all of them can happen. -/
def run (events : List ActionEvent) : Option ActionState :=
  events.foldlM (fun s e => (s.step e).map Prod.fst) initial

/-! ### The promises -/

/-- The executions that wait in the queue. -/
def queuedCount (s : ActionState) : ℕ :=
  match s.slot with
  | .chained _ _ waiting => waiting
  | _ => 0

/-- No uncancelled execution is running or queued. -/
def Idle (s : ActionState) : Prop :=
  (∀ i < s.count, (s.exec i).running = true → (s.exec i).cancelled = true) ∧ s.queuedCount = 0

/-- **What is promised of a state.** -/
structure Serialises (s : ActionState) : Prop where
  /-- No two executions that `next`, `ifNotExecuting` or `once` started run at the same time. -/
  serial : ∀ i < s.count, ∀ j < s.count, i ≠ j → (s.exec i).mode ≠ .force → (s.exec j).mode ≠ .force →
    (s.exec i).running = true → (s.exec j).running = false
  /-- The executions of a queue started one after the other settled, each once. -/
  order : ∀ base started waiting, s.slot = .chained base started waiting →
    (base :: started).Nodup ∧ ∀ i ∈ (base :: started).dropLast, (s.exec i).running = false
  /-- The next of the queue starts when the one before it has settled. -/
  due : ∀ base started waiting, s.slot = .chained base started (waiting + 1) →
    (s.exec (predecessor base started)).running = false → ∀ throws, (s.step (.react throws)).isSome
  executing_iff : s.executing = none ↔ s.Idle

/-- **What is promised of a step.** -/
structure Honours (s : ActionState) (e : ActionEvent) (s' : ActionState) (answer : ActionAnswer) : Prop where
  /-- `next` starts nothing while another execution runs. -/
  nexts : ∀ throws, e = .call .queue throws → (∃ i < s.count, (s.exec i).running = true) → s'.count = s.count
  /-- An idle action starts an execution, or for `once` gives one that completed. -/
  waits : ∀ throws, e = .call .wait throws → s.Idle → s.blocked = false →
    answer = .execution s.count ∧ s'.count = s.count + 1
  onces : ∀ throws, e = .call .once throws → s.Idle → s.blocked = false →
    (answer = .execution s.count ∧ s'.count = s.count + 1) ∨ ∃ i, answer = .execution i ∧ (s.exec i).completed = true
  quiet : e = .cancel ∨ e = .block ∨ e = .reset → answer ≠ .notAFunction

/-! ### The condition -/

/-- A call of this mode starts an execution at once. -/
def Starts (s : ActionState) (mode : ExecuteMode) : Prop :=
  s.blocked = false ∧
    match s.slot with
    | .empty => True
    | .own i => if (s.exec i).completed then mode ≠ .once else (s.exec i).cancelled = true ∨ mode = .force
    | .chained _ _ _ => False

/-- No other execution runs, those of `now` aside. -/
def Quiet (s : ActionState) : Prop := ∀ i < s.count, (s.exec i).mode ≠ .force → (s.exec i).running = false

/-- What may still run, cancelled, when a call of this mode starts an execution. -/
def QuietFor (s : ActionState) : ExecuteMode → Prop
  | .force => True
  | .queue => ∀ i < s.count, (s.exec i).running = false
  | .wait | .once => s.Quiet

/-- **When a step does no harm.** -/
def Meets (s : ActionState) : ActionEvent → Prop
  | .call mode throws => s.Starts mode → throws = false ∧ s.QuietFor mode
  | .cancel | .block | .reset => ∀ base started waiting, s.slot ≠ .chained base started waiting
  | .unblock => True
  | .settle i ok => ∀ base started waiting, s.slot = .chained base started waiting → i = predecessor base started →
      0 < waiting ∧ ok = true
  | .react throws => throws = false ∧ s.Quiet

/-! ### What a state keeps -/

/-- A promise's flags say what became of its executor. -/
structure FlagsTell (e : Execution) : Prop where
  runs : e.running = true → e.completed = false
  ended : e.running = false → e.cancelled = true ∨ e.completed = true
  pending : e.running = true → e.cancelled = false → e.outcome = none

/-- What the slot says of the executions. -/
def SlotKnows (s : ActionState) : PromiseSlot → Prop
  | .empty => ∀ j < s.count, (s.exec j).running = true → (s.exec j).cancelled = true
  | .own i => i < s.count ∧ ∀ j < s.count, j ≠ i → (s.exec j).running = true → (s.exec j).cancelled = true
  | .chained base started waiting =>
    (∀ i ∈ base :: started, i < s.count) ∧ (base :: started).Nodup ∧
      (∀ i ∈ (base :: started).dropLast, (s.exec i).running = false) ∧
      (∀ j < s.count, j ≠ predecessor base started → (s.exec j).running = true → (s.exec j).cancelled = true) ∧
      (s.exec (predecessor base started)).cancelled = false ∧
      ((s.exec (predecessor base started)).running = false →
        (s.exec (predecessor base started)).outcome = some true ∧ 0 < waiting)

/-- **What a state keeps** while every step does no harm. -/
structure Kept (s : ActionState) : Prop where
  fine : ∀ i < s.count, FlagsTell (s.exec i)
  serial : ∀ i < s.count, ∀ j < s.count, i ≠ j → (s.exec i).mode ≠ .force → (s.exec j).mode ≠ .force →
    (s.exec i).running = true → (s.exec j).running = false
  slot : s.SlotKnows s.slot

variable {s s' : ActionState} {e : ActionEvent} {answer : ActionAnswer}

theorem initial_kept : Kept initial := by
  constructor <;> simp [initial, SlotKnows]

theorem predecessor_mem (base : ℕ) (started : List ℕ) : predecessor base started ∈ base :: started := by
  unfold predecessor
  cases h : started.getLast? with
  | none => simp
  | some i => exact List.mem_cons_of_mem _ (List.mem_of_getLast? h)

/-- **A state that keeps all this keeps its promises.** -/
theorem Kept.serialises (h : Kept s) : Serialises s := by
  refine ⟨h.serial, fun base started waiting hslot => ?_, fun base started waiting hslot hsettled throws => ?_, ?_⟩
  · have hs := h.slot
    rw [hslot] at hs
    exact ⟨hs.2.1, hs.2.2.1⟩
  · have hs := h.slot
    rw [hslot] at hs
    obtain ⟨-, -, -, -, -, hresolved⟩ := hs
    unfold step
    rw [hslot]
    dsimp only
    rw [if_pos (hresolved hsettled).1]
    rfl
  · have hs := h.slot
    unfold executing Idle queuedCount
    cases hslot : s.slot with
    | empty =>
      rw [hslot] at hs
      simpa [SlotKnows] using hs
    | own i =>
      rw [hslot] at hs
      obtain ⟨hlt, hothers⟩ := hs
      have hf := h.fine i hlt
      dsimp only
      constructor
      · intro hnone
        refine ⟨fun j hj hrun => ?_, rfl⟩
        by_cases hji : j = i
        · rw [hji] at hrun ⊢
          have hc := hf.runs hrun
          by_contra hcancelled
          simp [hc, hcancelled] at hnone
        · exact hothers j hj hji hrun
      · intro hidle
        have hi := hidle.1 i hlt
        cases hrun : (s.exec i).running with
        | true => simp [hi hrun]
        | false =>
          rcases hf.ended hrun with hc | hc
          · simp [hc]
          · simp [hc]
    | chained base started waiting =>
      rw [hslot] at hs
      obtain ⟨hin, -, -, -, huncancelled, hresolved⟩ := hs
      dsimp only
      constructor
      · intro hnone
        cases hnone
      · intro hidle
        have hcur := hin _ (predecessor_mem base started)
        cases hrun : (s.exec (predecessor base started)).running with
        | true =>
          have hc := hidle.1 _ hcur hrun
          rw [huncancelled] at hc
          cases hc
        | false =>
          have hpos := (hresolved hrun).2
          omega

/-! ### What a step keeps -/

theorem create_old {mode : ExecuteMode} {throws : Bool} {i : ℕ} (h : i < s.count) :
    (s.create mode throws).exec i = s.exec i := by
  unfold create
  dsimp only
  rw [Function.update_of_ne (by omega)]

@[simp] theorem create_new (s : ActionState) (mode : ExecuteMode) (throws : Bool) :
    (s.create mode throws).exec s.count = ⟨mode, !throws, false, false, if throws then some false else none⟩ := by
  simp [create]

@[simp] theorem create_count (s : ActionState) (mode : ExecuteMode) (throws : Bool) :
    (s.create mode throws).count = s.count + 1 := rfl

/-- What is left of a state when its slot is given up. -/
structure Spare (s : ActionState) : Prop where
  fine : ∀ i < s.count, FlagsTell (s.exec i)
  serial : ∀ i < s.count, ∀ j < s.count, i ≠ j → (s.exec i).mode ≠ .force → (s.exec j).mode ≠ .force →
    (s.exec i).running = true → (s.exec j).running = false
  cancelled : ∀ j < s.count, (s.exec j).running = true → (s.exec j).cancelled = true

/-- An execution that is started over spare ones, all of which are quiet, unless `now` starts it. -/
theorem Spare.serial_create (hserial : ∀ i < s.count, ∀ j < s.count, i ≠ j → (s.exec i).mode ≠ .force →
      (s.exec j).mode ≠ .force → (s.exec i).running = true → (s.exec j).running = false)
    {mode : ExecuteMode} (hquiet : mode ≠ .force → s.Quiet) (throws : Bool) :
    ∀ i < (s.create mode throws).count, ∀ j < (s.create mode throws).count, i ≠ j →
      ((s.create mode throws).exec i).mode ≠ .force → ((s.create mode throws).exec j).mode ≠ .force →
      ((s.create mode throws).exec i).running = true → ((s.create mode throws).exec j).running = false := by
  intro i hi j hj hne himode hjmode hrun
  rw [create_count] at hi hj
  by_cases hinew : i = s.count
  · have hjold : j < s.count := by omega
    rw [hinew, create_new] at himode
    rw [create_old hjold] at hjmode ⊢
    exact hquiet himode j hjold hjmode
  · have hiold : i < s.count := by omega
    rw [create_old hiold] at himode hrun
    by_cases hjnew : j = s.count
    · rw [hjnew, create_new] at hjmode
      rw [hquiet hjmode i hiold himode] at hrun
      cases hrun
    · have hjold : j < s.count := by omega
      rw [create_old hjold] at hjmode ⊢
      exact hserial i hiold j hjold hne himode hjmode hrun

theorem Spare.fine_create (hfine : ∀ i < s.count, FlagsTell (s.exec i)) (mode : ExecuteMode) :
    ∀ i < (s.create mode false).count, FlagsTell ((s.create mode false).exec i) := by
  intro i hi
  rw [create_count] at hi
  by_cases hnew : i = s.count
  · rw [hnew, create_new]
    exact ⟨fun _ => rfl, fun hrun => by simp at hrun, fun _ _ => rfl⟩
  · rw [create_old (by omega)]
    exact hfine i (by omega)

theorem Spare.begin (h : s.Spare) {mode : ExecuteMode} (hquiet : mode ≠ .force → s.Quiet) : Kept (s.begin mode false).1 := by
  refine ⟨Spare.fine_create h.fine mode, Spare.serial_create h.serial hquiet false, ?_⟩
  · refine ⟨Nat.lt_succ_self _, fun j hj hne hrun => ?_⟩
    have hj : j < s.count + 1 := hj
    have hold : j < s.count := by omega
    have hrun : ((s.create mode false).exec j).running = true := hrun
    show ((s.create mode false).exec j).cancelled = true
    rw [create_old hold] at hrun ⊢
    exact h.cancelled j hold hrun

@[simp] theorem cancelExecution_count (s : ActionState) (i : ℕ) : (s.cancelExecution i).count = s.count := by
  unfold cancelExecution
  split <;> rfl

@[simp] theorem cancelExecution_slot (s : ActionState) (i : ℕ) : (s.cancelExecution i).slot = s.slot := by
  unfold cancelExecution
  split <;> rfl

/-- A cancelled execution keeps running, and how it completed. -/
theorem cancelExecution_exec (s : ActionState) (i j : ℕ) :
    ((s.cancelExecution i).exec j).mode = (s.exec j).mode ∧ ((s.cancelExecution i).exec j).running = (s.exec j).running ∧
      ((s.cancelExecution i).exec j).completed = (s.exec j).completed ∧
      (((s.cancelExecution i).exec j).cancelled = true ↔ (s.exec j).cancelled = true ∨ j = i) := by
  unfold cancelExecution
  split
  · rename_i hc
    refine ⟨rfl, rfl, rfl, fun h => .inl h, fun h => ?_⟩
    rcases h with h | h
    · exact h
    · rw [h, hc]
  · rename_i hc
    dsimp only
    by_cases hj : j = i
    · rw [hj, Function.update_self]
      simp
    · rw [Function.update_of_ne hj]
      simp [hj]

/-- Cancelling the execution of the slot spares all. -/
theorem Kept.cancelExecution (h : Kept s) {i : ℕ} (hslot : s.slot = .own i) : (s.cancelExecution i).Spare := by
  have hs := h.slot
  rw [hslot] at hs
  obtain ⟨-, hothers⟩ := hs
  refine ⟨fun j hj => ?_, fun j hj k hk hne hjmode hkmode hrun => ?_, fun j hj hrun => ?_⟩
  · rw [cancelExecution_count] at hj
    obtain ⟨-, hrunning, hcompleted, hcancelled⟩ := cancelExecution_exec s i j
    have hf := h.fine j hj
    refine ⟨fun hrun => ?_, fun hended => ?_, fun hrun hc => ?_⟩
    · rw [hcompleted]
      exact hf.runs (hrunning ▸ hrun)
    · rcases hf.ended (hrunning ▸ hended) with hc | hc
      · exact .inl (hcancelled.2 (.inl hc))
      · exact .inr (hcompleted.trans hc)
    · have hother : j ≠ i := by
        intro hji
        rw [hcancelled.2 (.inr hji)] at hc
        cases hc
      have hsame : (s.cancelExecution i).exec j = s.exec j := by
        unfold ActionState.cancelExecution
        split
        · rfl
        · exact Function.update_of_ne hother _ _
      rw [hsame] at hrun hc ⊢
      exact hf.pending hrun hc
  · rw [cancelExecution_count] at hj hk
    obtain ⟨hjm, hjr, -⟩ := cancelExecution_exec s i j
    obtain ⟨hkm, hkr, -⟩ := cancelExecution_exec s i k
    rw [hkr]
    exact h.serial j hj k hk hne (hjm ▸ hjmode) (hkm ▸ hkmode) (hjr ▸ hrun)
  · rw [cancelExecution_count] at hj
    obtain ⟨-, hjr, -, hjc⟩ := cancelExecution_exec s i j
    rw [hjc]
    by_cases hji : j = i
    · exact .inr hji
    · exact .inl (hothers j hj hji (hjr ▸ hrun))

/-- A slot whose execution no longer counts spares all. -/
theorem Kept.spare (h : Kept s) (hfree : s.slot = .empty ∨
      ∃ i, s.slot = .own i ∧ ((s.exec i).completed = true ∨ (s.exec i).cancelled = true)) : s.Spare := by
  refine ⟨h.fine, h.serial, fun j hj hrun => ?_⟩
  have hs := h.slot
  rcases hfree with hslot | ⟨i, hslot, hover⟩
  · rw [hslot] at hs
    exact hs j hj hrun
  · rw [hslot] at hs
    by_cases hji : j = i
    · rw [hji] at hrun ⊢
      rcases hover with hc | hc
      · rw [(h.fine i hs.1).runs hrun] at hc
        cases hc
      · exact hc
    · exact hs.2 j hj hji hrun

/-- **How a call goes**: it starts an execution over a slot given up, it queues behind the execution of
the slot or behind the queue, or it changes nothing. -/
theorem call_cases (s : ActionState) (mode : ExecuteMode) (throws : Bool) :
    (s.Starts mode ∧ ∃ t : ActionState, s.call mode throws = t.begin mode throws ∧ t.count = s.count ∧
      ((t = s ∧ (s.slot = .empty ∨ ∃ i, s.slot = .own i ∧ ((s.exec i).completed = true ∨ (s.exec i).cancelled = true))) ∨
        mode = .force ∧ ∃ i, s.slot = .own i ∧ t = s.cancelExecution i)) ∨
    (¬s.Starts mode ∧ mode = .queue ∧ ((∃ i, s.slot = .own i ∧ (s.exec i).completed = false ∧ (s.exec i).cancelled = false ∧
        s.call mode throws = ({ s with slot := .chained i [] 1 }, .queued 0)) ∨
      ∃ base started waiting, s.slot = .chained base started waiting ∧
        s.call mode throws = ({ s with slot := .chained base started (waiting + 1) }, .queued (started.length + waiting)))) ∨
    ¬s.Starts mode ∧ (s.call mode throws).1 = s := by
  unfold Starts call
  cases hblocked : s.blocked with
  | true =>
    right; right
    simp
  | false =>
    cases hslot : s.slot with
    | empty =>
      left
      exact ⟨⟨rfl, trivial⟩, s, rfl, rfl, .inl ⟨rfl, .inl rfl⟩⟩
    | own i =>
      cases hcompleted : (s.exec i).completed with
      | true =>
        by_cases honce : mode = .once
        · right; right
          simp [honce, hcompleted]
        · left
          refine ⟨by simp [honce, hcompleted], s, by simp [honce, hcompleted], rfl, .inl ⟨rfl, .inr ⟨i, rfl, .inl hcompleted⟩⟩⟩
      | false =>
        cases hcancelled : (s.exec i).cancelled with
        | true =>
          left
          exact ⟨by simp [hcompleted, hcancelled], s, by simp [hcompleted, hcancelled], rfl,
            .inl ⟨rfl, .inr ⟨i, rfl, .inr hcancelled⟩⟩⟩
        | false =>
          cases mode with
          | force =>
            left
            exact ⟨by simp [hcompleted], s.cancelExecution i, by simp [hcompleted, hcancelled], cancelExecution_count s i,
              .inr ⟨rfl, i, rfl, rfl⟩⟩
          | queue =>
            right; left
            exact ⟨by simp [hcompleted, hcancelled], rfl, .inl ⟨i, rfl, hcompleted, hcancelled, by simp [hcompleted, hcancelled]⟩⟩
          | wait =>
            right; right
            simp [hcompleted, hcancelled]
          | once =>
            right; right
            simp [hcompleted, hcancelled]
    | chained base started waiting =>
      cases mode with
      | force =>
        right; right
        simp
      | queue =>
        right; left
        exact ⟨by simp, rfl, .inr ⟨base, started, waiting, rfl, rfl⟩⟩
      | wait =>
        right; right
        simp
      | once =>
        right; right
        simp

/-- An idle action starts what it is asked for, unless it gives `once` what completed. -/
theorem Kept.starts_of_idle (h : Kept s) (hidle : s.Idle) (hblocked : s.blocked = false) :
    s.Starts .wait ∧ (s.Starts .once ∨ ∃ i, s.slot = .own i ∧ (s.exec i).completed = true) := by
  have hnone := h.serialises.executing_iff.2 hidle
  unfold executing at hnone
  unfold Starts
  cases hslot : s.slot with
  | empty => exact ⟨⟨hblocked, trivial⟩, .inl ⟨hblocked, trivial⟩⟩
  | own i =>
    rw [hslot] at hnone
    cases hcompleted : (s.exec i).completed with
    | true => simp [hblocked, hcompleted]
    | false =>
      have hcancelled : (s.exec i).cancelled = true := by
        by_contra hc
        simp [hcompleted, hc] at hnone
      simp [hblocked, hcompleted, hcancelled]
  | chained base started waiting =>
    rw [hslot] at hnone
    cases hnone

theorem Kept.honours_call (h : Kept s) (mode : ExecuteMode) (throws : Bool) (hnext : mode = .queue →
      (∃ i < s.count, (s.exec i).running = true) → (s.call mode throws).1.count = s.count) :
    Honours s (.call mode throws) (s.call mode throws).1 (s.call mode throws).2 := by
  have hbegin : s.Starts mode → (s.call mode throws).2 = .execution s.count ∧ (s.call mode throws).1.count = s.count + 1 := by
    intro hstarts
    rcases call_cases s mode throws with ⟨-, t, hcall, hcount, -⟩ | ⟨hnot, -⟩ | ⟨hnot, -⟩
    · rw [hcall]
      unfold begin
      rw [← hcount]
      exact ⟨rfl, rfl⟩
    · exact absurd hstarts hnot
    · exact absurd hstarts hnot
  refine ⟨fun throws' heq hrun => ?_, fun throws' heq hidle hblocked => ?_, fun throws' heq hidle hblocked => ?_, fun hcalls => ?_⟩
  · injection heq with hmode
    exact hnext hmode hrun
  · injection heq with hmode
    exact hbegin (hmode ▸ (h.starts_of_idle hidle hblocked).1)
  · injection heq with hmode
    rcases (h.starts_of_idle hidle hblocked).2 with hstarts | ⟨i, hslot, hcompleted⟩
    · exact .inl (hbegin (hmode ▸ hstarts))
    · right
      refine ⟨i, ?_, hcompleted⟩
      rw [hmode]
      unfold call
      simp [hblocked, hslot, hcompleted]
  · rcases hcalls with heq | heq | heq <;> cases heq

theorem QuietFor.quiet {mode : ExecuteMode} (h : s.QuietFor mode) (hmode : mode ≠ .force) : s.Quiet := by
  cases mode with
  | force => exact absurd rfl hmode
  | queue => exact fun i hi _ => h i hi
  | wait => exact h
  | once => exact h

/-- Behind an execution that runs uncancelled the slot tells the same of the others. -/
theorem Kept.enqueue (h : Kept s) {i : ℕ} (hslot : s.slot = .own i) (hcompleted : (s.exec i).completed = false)
    (hcancelled : (s.exec i).cancelled = false) : Kept { s with slot := .chained i [] 1 } := by
  have hs := h.slot
  rw [hslot] at hs
  obtain ⟨hlt, hothers⟩ := hs
  refine ⟨h.fine, h.serial, ?_, by simp, by simp, hothers, hcancelled, fun hended => ?_⟩
  · intro j hj
    rw [List.mem_singleton] at hj
    exact hj ▸ hlt
  · have hended : (s.exec i).running = false := hended
    rcases (h.fine i hlt).ended hended with hc | hc
    · rw [hcancelled] at hc
      cases hc
    · rw [hcompleted] at hc
      cases hc

theorem Kept.lengthen (h : Kept s) {base waiting : ℕ} {started : List ℕ} (hslot : s.slot = .chained base started waiting) :
    Kept { s with slot := .chained base started (waiting + 1) } := by
  have hs := h.slot
  rw [hslot] at hs
  obtain ⟨hin, hnodup, horder, hothers, hcancelled, hresolved⟩ := hs
  refine ⟨h.fine, h.serial, hin, hnodup, horder, hothers, hcancelled, fun hended => ?_⟩
  have hpos := hresolved hended
  exact ⟨hpos.1, by omega⟩

/-- **A call that does no harm.** -/
theorem Kept.call (h : Kept s) {mode : ExecuteMode} {throws : Bool} (hmeets : s.Meets (.call mode throws)) :
    Kept (s.call mode throws).1 ∧ Honours s (.call mode throws) (s.call mode throws).1 (s.call mode throws).2 := by
  rcases call_cases s mode throws with ⟨hstarts, t, hcall, hcount, hspare⟩ | ⟨-, hmode, hqueue⟩ | ⟨-, hsame⟩
  · obtain ⟨rfl, hquiet⟩ := hmeets hstarts
    constructor
    · rw [hcall]
      rcases hspare with ⟨rfl, hfree⟩ | ⟨rfl, i, hslot, rfl⟩
      · exact (h.spare hfree).begin hquiet.quiet
      · exact (h.cancelExecution hslot).begin fun hne => absurd rfl hne
    · apply h.honours_call
      intro hmode hrun
      rw [hmode] at hquiet
      obtain ⟨i, hi, hrun⟩ := hrun
      rw [hquiet i hi] at hrun
      cases hrun
  · rcases hqueue with ⟨i, hslot, hcompleted, hcancelled, hcall⟩ | ⟨base, started, waiting, hslot, hcall⟩
    · refine ⟨?_, h.honours_call _ _ fun _ _ => by rw [hcall]⟩
      rw [hcall]
      exact h.enqueue hslot hcompleted hcancelled
    · refine ⟨?_, h.honours_call _ _ fun _ _ => by rw [hcall]⟩
      rw [hcall]
      exact h.lengthen hslot
  · refine ⟨?_, h.honours_call _ _ fun _ _ => by rw [hsame]⟩
    rw [hsame]
    exact h

/-- What is not a call is asked of no start. -/
theorem honours_of_not_call (hcall : ∀ mode throws, e ≠ .call mode throws)
    (hquiet : e = .cancel ∨ e = .block ∨ e = .reset → answer ≠ .notAFunction) : Honours s e s' answer :=
  ⟨fun throws heq => absurd heq (hcall _ throws), fun throws heq => absurd heq (hcall _ throws),
    fun throws heq => absurd heq (hcall _ throws), hquiet⟩

/-- Nothing is lost by giving up the slot. -/
theorem Spare.emptied (h : s.Spare) : Kept { s with slot := .empty } := ⟨h.fine, h.serial, h.cancelled⟩

/-- **Cancelling what the slot holds**, where that is not a plain promise. -/
theorem Kept.cancelSlot (h : Kept s) (hslot : ∀ base started waiting, s.slot ≠ .chained base started waiting) :
    ∃ t, s.cancelSlot = some t ∧ Kept t ∧ t.Spare := by
  unfold ActionState.cancelSlot
  cases hheld : s.slot with
  | empty =>
    exact ⟨s, rfl, h, h.spare (.inl hheld)⟩
  | own i =>
    have hspare := h.cancelExecution hheld
    refine ⟨_, rfl, ⟨hspare.fine, hspare.serial, ?_⟩, hspare⟩
    have hs := h.slot
    rw [hheld] at hs
    rw [cancelExecution_slot, hheld]
    refine ⟨by rw [cancelExecution_count]; exact hs.1, fun j hj _ hrun => hspare.cancelled j hj hrun⟩
  | chained base started waiting => exact absurd hheld (hslot base started waiting)

/-- **An executor that settles.** -/
theorem Kept.settle (h : Kept s) {i : ℕ} {ok : Bool} (hi : i < s.count) (hmeets : s.Meets (.settle i ok)) :
    Kept (s.settle i ok) := by
  have hold : ∀ j, j ≠ i → (s.settle i ok).exec j = s.exec j := by
    intro j hj
    unfold ActionState.settle
    dsimp only
    rw [Function.update_of_ne hj]
  have hself : (s.settle i ok).exec i =
      if (s.exec i).cancelled || (s.exec i).completed then { s.exec i with running := false }
        else { s.exec i with running := false, completed := true, outcome := some ok } := by
    unfold ActionState.settle
    dsimp only
    rw [Function.update_self]
  have hmode : ∀ j, ((s.settle i ok).exec j).mode = (s.exec j).mode := by
    intro j
    by_cases hj : j = i
    · rw [hj, hself]
      split <;> rfl
    · rw [hold j hj]
  have hcancelled : ∀ j, ((s.settle i ok).exec j).cancelled = (s.exec j).cancelled := by
    intro j
    by_cases hj : j = i
    · rw [hj, hself]
      split <;> rfl
    · rw [hold j hj]
  have hrunning : ∀ j, ((s.settle i ok).exec j).running = true → j ≠ i ∧ (s.exec j).running = true := by
    intro j hrun
    by_cases hj : j = i
    · rw [hj, hself] at hrun
      split at hrun <;> cases hrun
    · rw [hold j hj] at hrun
      exact ⟨hj, hrun⟩
  have hended : ∀ j, (s.exec j).running = false → ((s.settle i ok).exec j).running = false := by
    intro j hj
    by_contra hrun
    have hrun' := (hrunning j (by simpa using hrun)).2
    rw [hj] at hrun'
    cases hrun'
  refine ⟨fun j hj => ?_, fun j hj k hk hne hjmode hkmode hrun => ?_, ?_⟩
  · by_cases hji : j = i
    · rw [hji, hself]
      split
      · rename_i hover
        rw [Bool.or_eq_true] at hover
        exact ⟨fun _ => by simp_all, fun _ => hover, fun hrun => by simp at hrun⟩
      · exact ⟨fun hrun => by simp at hrun, fun _ => .inr rfl, fun hrun => by simp at hrun⟩
    · rw [hold j hji]
      exact h.fine j hj
  · rw [hmode] at hjmode hkmode
    exact hended k (h.serial j hj k hk hne hjmode hkmode (hrunning j hrun).2)
  · have hs := h.slot
    show (s.settle i ok).SlotKnows s.slot
    cases hslot : s.slot with
    | empty =>
      rw [hslot] at hs
      intro j hj hrun
      rw [hcancelled]
      exact hs j hj (hrunning j hrun).2
    | own k =>
      rw [hslot] at hs
      refine ⟨hs.1, fun j hj hne hrun => ?_⟩
      rw [hcancelled]
      exact hs.2 j hj hne (hrunning j hrun).2
    | chained base started waiting =>
      rw [hslot] at hs
      obtain ⟨hin, hnodup, horder, hothers, huncancelled, hresolved⟩ := hs
      refine ⟨hin, hnodup, fun j hj => hended j (horder j hj), fun j hj hne hrun => ?_, ?_, fun hover => ?_⟩
      · rw [hcancelled]
        exact hothers j hj hne (hrunning j hrun).2
      · rw [hcancelled]
        exact huncancelled
      · by_cases hcur : i = predecessor base started
        · obtain ⟨hpos, rfl⟩ := hmeets base started waiting hslot hcur
          refine ⟨?_, hpos⟩
          cases hrun : (s.exec i).running with
          | true =>
            have hc := (h.fine i hi).runs hrun
            rw [← hcur, hself, hc, hcur, huncancelled]
            rfl
          | false =>
            have hr := (hresolved (hcur ▸ hrun)).1
            rw [← hcur, hself]
            split
            · rw [hcur]
              exact hr
            · rfl
        · have hsame := hold (predecessor base started) (fun heq => hcur heq.symm)
          rw [hsame] at hover ⊢
          exact hresolved hover

/-- **The next of the queue gets its turn.** -/
theorem Kept.react (h : Kept s) (hquiet : s.Quiet) {base waiting : ℕ} {started : List ℕ}
    (hslot : s.slot = .chained base started (waiting + 1)) (hresolved : (s.exec (predecessor base started)).outcome = some true) :
    Kept { s.create .queue false with slot := .chained base (started ++ [s.count]) waiting } := by
  have hs := h.slot
  rw [hslot] at hs
  obtain ⟨hin, hnodup, horder, hothers, huncancelled, -⟩ := hs
  have hlast : predecessor base (started ++ [s.count]) = s.count := by simp [predecessor]
  have hended : (s.exec (predecessor base started)).running = false := by
    by_contra hrun
    have hp := (h.fine _ (hin _ (predecessor_mem base started))).pending (by simpa using hrun) huncancelled
    rw [hresolved] at hp
    cases hp
  refine ⟨Spare.fine_create h.fine .queue, Spare.serial_create h.serial (fun _ => hquiet) false, ?_⟩
  refine ⟨fun i hi => ?_, ?_, fun i hi => ?_, fun j hj hne hrun => ?_, ?_, fun hrun => ?_⟩
  · show i < s.count + 1
    rw [← List.cons_append, List.mem_append, List.mem_singleton] at hi
    rcases hi with hi | hi
    · have := hin i hi
      omega
    · omega
  · rw [← List.cons_append, List.nodup_append]
    refine ⟨hnodup, by simp, fun i hi j hj => ?_⟩
    rw [List.mem_singleton] at hj
    have := hin i hi
    omega
  · rw [← List.cons_append, List.dropLast_concat] at hi
    show ((s.create .queue false).exec i).running = false
    rw [create_old (hin i hi)]
    by_cases hcur : i = predecessor base started
    · rw [hcur]
      exact hended
    · apply horder
      have hsplit := List.dropLast_append_getLast? (predecessor base started) (List.getLast?_cons (a := base) (l := started))
      rw [← hsplit, List.mem_append, List.mem_singleton] at hi
      exact hi.resolve_right hcur
  · have hj : j < s.count + 1 := hj
    rw [hlast] at hne
    have hold : j < s.count := by omega
    have hrun : ((s.create .queue false).exec j).running = true := hrun
    show ((s.create .queue false).exec j).cancelled = true
    rw [create_old hold] at hrun ⊢
    by_cases hcur : j = predecessor base started
    · rw [hcur, hended] at hrun
      cases hrun
    · exact hothers j hold hcur hrun
  · rw [hlast]
    show ((s.create .queue false).exec s.count).cancelled = false
    rw [create_new]
  · rw [hlast] at hrun
    have hrun : ((s.create .queue false).exec s.count).running = false := hrun
    rw [create_new] at hrun
    cases hrun

/-- **A step that does no harm** keeps the state, and does what is promised of it. -/
theorem Kept.step (h : Kept s) (hmeets : s.Meets e) (hstep : s.step e = some (s', answer)) :
    Kept s' ∧ Honours s e s' answer := by
  cases e with
  | call mode throws =>
    unfold ActionState.step at hstep
    rw [Option.some.injEq, Prod.ext_iff] at hstep
    obtain ⟨rfl, rfl⟩ := hstep
    exact h.call hmeets
  | cancel =>
    obtain ⟨t, ht, hkept, -⟩ := h.cancelSlot hmeets
    unfold ActionState.step at hstep
    dsimp only at hstep
    rw [ht] at hstep
    simp only [Option.some.injEq, Prod.mk.injEq] at hstep
    obtain ⟨rfl, rfl⟩ := hstep
    exact ⟨hkept, honours_of_not_call (by simp) (by simp)⟩
  | block =>
    obtain ⟨t, ht, hkept, -⟩ := h.cancelSlot hmeets
    unfold ActionState.step at hstep
    dsimp only at hstep
    rw [ht] at hstep
    simp only [Option.some.injEq, Prod.mk.injEq] at hstep
    obtain ⟨rfl, rfl⟩ := hstep
    exact ⟨⟨hkept.fine, hkept.serial, hkept.slot⟩, honours_of_not_call (by simp) (by simp)⟩
  | unblock =>
    unfold ActionState.step at hstep
    simp only [Option.some.injEq, Prod.mk.injEq] at hstep
    obtain ⟨rfl, rfl⟩ := hstep
    exact ⟨⟨h.fine, h.serial, h.slot⟩, honours_of_not_call (by simp) (by simp)⟩
  | reset =>
    obtain ⟨t, ht, -, hspare⟩ := h.cancelSlot hmeets
    unfold ActionState.step at hstep
    dsimp only at hstep
    rw [ht] at hstep
    simp only [Option.some.injEq, Prod.mk.injEq] at hstep
    obtain ⟨rfl, rfl⟩ := hstep
    exact ⟨hspare.emptied, honours_of_not_call (by simp) (by simp)⟩
  | settle i ok =>
    unfold ActionState.step at hstep
    dsimp only at hstep
    split at hstep
    · rename_i henabled
      simp only [Option.some.injEq, Prod.mk.injEq] at hstep
      obtain ⟨rfl, rfl⟩ := hstep
      exact ⟨h.settle henabled.1 hmeets, honours_of_not_call (by simp) (by simp)⟩
    · cases hstep
  | react throws =>
    obtain ⟨rfl, hquiet⟩ := hmeets
    unfold ActionState.step at hstep
    dsimp only at hstep
    split at hstep
    · rename_i base started waiting hslot
      split at hstep
      · rename_i hresolved
        simp only [Option.some.injEq, Prod.mk.injEq] at hstep
        obtain ⟨rfl, rfl⟩ := hstep
        exact ⟨h.react hquiet hslot hresolved, honours_of_not_call (by simp) (by simp)⟩
      · cases hstep
    · cases hstep

end ActionState

end Etherfold
