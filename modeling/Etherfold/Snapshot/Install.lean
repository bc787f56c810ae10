import Etherfold.Snapshot.Document

/-!
# Installing a snapshot

An install clears the document's cursor, wipes the store, records the floor and
replays the blocks, the cursor on the last one. Each of these is a write of its
own, and the process can end between any two.

* `bootstrapCalls`: the writes of an install, in order.
* `runSeam_replay`: what a cut-short replay leaves.
* `cursorHonest_iff`: **the cursor left is the cursor of the rows left**, whatever the store held
  and wherever the install ended, exactly when the install names the sync cursor or has nothing
  of it to leave behind.
-/

namespace Etherfold

variable {J X H C : Type}

/-- The cursor of the sync. -/
abbrev syncCursorKey : String := "lastSync"

/-- What a handle is opened over: a store, and the origin recorded beside it. A recorded origin
that is not readable is `some none`. -/
structure SeamStore (X H C : Type) where
  store : EntityStore X H C
  snapshotOrigin : Option (Option ℕ)

/-- A write of the install. -/
inductive SeamCall (X H C : Type) where
  | clearCursor (key : String)
  | revertTo (keepUpTo : ℤ)
  | clearSnapshotOrigin
  | writeSnapshotOrigin (block : ℕ)
  | applyBlock (call : AppliedCall X H C)

/-- One block's call; the cursor rides the last. -/
def SnapshotBlock.call (head : SnapshotHead C) (b : SnapshotBlock X H) : AppliedCall X H C :=
  ⟨b.block, b.mutations, if b.last then head.cursor else none⟩

/-- The wipe, the origin and the blocks. -/
def replaceCalls (head : SnapshotHead C) (blocks : List (SnapshotBlock X H)) : List (SeamCall X H C) :=
  .revertTo (-1) :: .clearSnapshotOrigin :: .writeSnapshotOrigin head.floor ::
    (blocks.map (·.call head)).map .applyBlock

/-- **The writes of an install**, in order; none for a document of another processor, or one that
ends before its floor is read. -/
def bootstrapCalls (processor : Option String) (head : SnapshotHead C) (blocks : List (SnapshotBlock X H)) :
    List (SeamCall X H C) :=
  if processor.any (· ≠ head.processor) then []
  else
    match blocks with
    | [] => []
    | _ :: _ =>
      (head.cursor.toList.map fun cursor => .clearCursor cursor.1) ++ replaceCalls head blocks

section Install

variable [DecidableEq H] {declarations : List NormalizedEntity}

/-- One write; a block can be refused. -/
def performSeam (declarations : List NormalizedEntity) (s : SeamStore X H C) :
    SeamCall X H C → Except (ApplyError H) (SeamStore X H C)
  | .clearCursor key => .ok { s with store := s.store.clearCursor key }
  | .revertTo keepUpTo => .ok { s with store := s.store.revertTo keepUpTo }
  | .clearSnapshotOrigin => .ok { s with snapshotOrigin := none }
  | .writeSnapshotOrigin block => .ok { s with snapshotOrigin := some (some block) }
  | .applyBlock call =>
    match (EntityStore.applyBlock declarations call).run.run s.store with
    | (.ok _, store) => .ok { s with store := store }
    | (.error e, _) => .error e

/-- Writes in order, up to the first that is refused. -/
def runSeam (declarations : List NormalizedEntity) : SeamStore X H C → List (SeamCall X H C) → SeamStore X H C
  | s, [] => s
  | s, call :: calls =>
    match performSeam declarations s call with
    | .ok s' => runSeam declarations s' calls
    | .error _ => s

/-- Blocks in order, up to the first that is refused. -/
def replay (declarations : List NormalizedEntity) : EntityStore X H C → List (AppliedCall X H C) → EntityStore X H C
  | s, [] => s
  | s, call :: calls =>
    match (EntityStore.applyBlock declarations call).run.run s with
    | (.ok _, s') => replay declarations s' calls
    | (.error _, _) => s

/-- Blocks are replayed into the store and leave the origin. -/
theorem runSeam_replay (s : SeamStore X H C) (calls : List (AppliedCall X H C)) :
    runSeam declarations s (calls.map .applyBlock) = { s with store := replay declarations s.store calls } := by
  induction calls generalizing s with
  | nil => rfl
  | cons call calls ih =>
    rw [List.map_cons]
    unfold runSeam replay performSeam
    dsimp only
    rcases EntityStore.applyBlock_cases declarations call s.store with ⟨e, hrun⟩ | ⟨planned, s', -, -, hrun⟩
    · rw [hrun]
    · rw [hrun]
      exact ih { s with store := s' }

/-- A block taken moves the cursor it carries. -/
theorem cursors_replayed {s s' : EntityStore X H C} {call : AppliedCall X H C}
    (h : (EntityStore.applyBlock declarations call).run.run s = (.ok (), s')) :
    s'.cursors = call.cursor.elim s.cursors fun p => Function.update s.cursors p.1 (some p.2) := by
  rcases EntityStore.applyBlock_cases declarations call s with ⟨e, hrun⟩ | ⟨planned, s'', -, happly, hrun⟩
  · rw [h] at hrun
    cases hrun
  · rw [h] at hrun
    injection hrun with _ hs
    rw [hs]
    exact (MemoryStateStore.afterBlock happly).cursors

/-- Blocks without the sync cursor leave it. -/
theorem cursor_replay {s : EntityStore X H C} {calls : List (AppliedCall X H C)}
    (h : ∀ call ∈ calls, ∀ cursor, call.cursor = some cursor → cursor.1 ≠ syncCursorKey) :
    (replay declarations s calls).cursors syncCursorKey = s.cursors syncCursorKey := by
  induction calls generalizing s with
  | nil => rfl
  | cons call calls ih =>
    unfold replay
    rcases EntityStore.applyBlock_cases declarations call s with ⟨e, hrun⟩ | ⟨planned, s', -, -, hrun⟩
    · rw [hrun]
    · rw [hrun]
      dsimp only
      rw [ih fun c hc => h c (List.mem_cons_of_mem _ hc), cursors_replayed hrun]
      cases hcursor : call.cursor with
      | none => rfl
      | some cursor =>
        exact Function.update_of_ne (h call (List.mem_cons_self) cursor hcursor).symm _ _

/-- **A replay that carries the cursor last** leaves the cursor as it was, or came to its end. -/
theorem cursor_replay_last {s : EntityStore X H C} {calls : List (AppliedCall X H C)}
    (h : ∀ call ∈ calls.dropLast, call.cursor = none) (n : ℕ) :
    (replay declarations s (calls.take n)).cursors = s.cursors ∨
      (EntityStore.rebuild declarations s calls = .ok (replay declarations s (calls.take n)) ∧
        ∃ call, calls.getLast? = some call ∧ (replay declarations s (calls.take n)).cursors =
          call.cursor.elim s.cursors fun p => Function.update s.cursors p.1 (some p.2)) := by
  induction calls generalizing s n with
  | nil =>
    rw [List.take_nil]
    exact .inl rfl
  | cons call calls ih =>
    cases n with
    | zero => exact .inl rfl
    | succ n =>
      rw [List.take_succ_cons]
      unfold replay
      rcases EntityStore.applyBlock_cases declarations call s with ⟨e, hrun⟩ | ⟨planned, s', -, -, hrun⟩
      · rw [hrun]
        exact .inl rfl
      · rw [hrun]
        dsimp only
        have hcursors := cursors_replayed hrun
        have hrebuild : EntityStore.rebuild declarations s (call :: calls) = EntityStore.rebuild declarations s' calls := by
          unfold EntityStore.rebuild
          rw [List.foldlM_cons, hrun]
          rfl
        cases calls with
        | nil =>
          rw [List.take_nil]
          exact .inr ⟨hrebuild, call, rfl, hcursors⟩
        | cons next rest =>
          have hnone : call.cursor = none := h call List.mem_cons_self
          rw [hnone] at hcursors
          have hsame : s'.cursors = s.cursors := hcursors
          rcases @ih s' (fun c hc => h c (List.mem_cons_of_mem _ hc)) n with hkept | ⟨hall, last, hlast, hend⟩
          · exact .inl (hkept.trans hsame)
          · refine .inr ⟨hrebuild.trans hall, last, hlast, ?_⟩
            rw [hend, hsame]

/-! ### An install that ended somewhere -/

/-- The writes before the wipe. -/
def wipeAt (head : SnapshotHead C) : ℕ := head.cursor.toList.length

/-- The store right after the wipe. -/
def wiped (prev : EntityStore X H C) (head : SnapshotHead C) : EntityStore X H C :=
  (head.cursor.elim prev fun cursor => prev.clearCursor cursor.1).revertTo (-1)

/-- What an install that ended after some of its writes left. -/
def installed (declarations : List NormalizedEntity) (prev : SeamStore X H C) (processor : Option String)
    (head : SnapshotHead C) (blocks : List (SnapshotBlock X H)) (n : ℕ) : SeamStore X H C :=
  runSeam declarations prev ((bootstrapCalls processor head blocks).take n)

variable {prev : SeamStore X H C} {processor : Option String} {head : SnapshotHead C} {blocks : List (SnapshotBlock X H)}
  {n : ℕ}

/-- What some of the writes from the wipe on leave. -/
theorem runSeam_replace (s : SeamStore X H C) (head : SnapshotHead C) (blocks : List (SnapshotBlock X H)) (m : ℕ) :
    (runSeam declarations s ((replaceCalls head blocks).take (m + 1))).store =
        replay declarations (s.store.revertTo (-1)) ((blocks.map (·.call head)).take (m - 2)) ∧
      (2 ≤ m → (runSeam declarations s ((replaceCalls head blocks).take (m + 1))).snapshotOrigin = some (some head.floor)) := by
  match m with
  | 0 => exact ⟨rfl, fun h => by omega⟩
  | 1 => exact ⟨rfl, fun h => by omega⟩
  | m + 2 =>
    have hrun : runSeam declarations s ((replaceCalls head blocks).take (m + 3)) =
        ⟨replay declarations (s.store.revertTo (-1)) ((blocks.map (·.call head)).take m), some (some head.floor)⟩ := by
      show runSeam declarations ⟨s.store.revertTo (-1), some (some head.floor)⟩
        (((blocks.map (·.call head)).map .applyBlock).take m) = _
      rw [← List.map_take, runSeam_replay]
    rw [hrun]
    exact ⟨rfl, fun _ => rfl⟩

omit [DecidableEq H] in
theorem bootstrapCalls_of_ne_nil (h : bootstrapCalls processor head blocks ≠ []) :
    bootstrapCalls processor head blocks =
      (head.cursor.toList.map fun cursor => .clearCursor cursor.1) ++ replaceCalls head blocks := by
  unfold bootstrapCalls at h ⊢
  split at h
  · exact absurd rfl h
  · rename_i hprocessor
    rw [if_neg hprocessor]
    cases blocks with
    | nil => exact absurd rfl h
    | cons b rest => rfl

/-- **Where an install can end**: before the wipe, with what the store held; or after it, with as
many blocks as were replayed, and the floor recorded before the first of them. -/
theorem installed_cases (declarations : List NormalizedEntity) (prev : SeamStore X H C) (processor : Option String)
    (head : SnapshotHead C) (blocks : List (SnapshotBlock X H)) (n : ℕ) :
    ((bootstrapCalls processor head blocks = [] ∨ n ≤ wipeAt head) ∧
        (installed declarations prev processor head blocks n).snapshotOrigin = prev.snapshotOrigin ∧
        ((installed declarations prev processor head blocks n).store = prev.store ∨ ∃ cursor, head.cursor = some cursor ∧
          (installed declarations prev processor head blocks n).store = prev.store.clearCursor cursor.1)) ∨
      (bootstrapCalls processor head blocks ≠ [] ∧ wipeAt head < n ∧
        (installed declarations prev processor head blocks n).store =
          replay declarations (wiped prev.store head) ((blocks.map (·.call head)).take (n - (wipeAt head + 3))) ∧
        (wipeAt head + 3 ≤ n →
          (installed declarations prev processor head blocks n).snapshotOrigin = some (some head.floor))) := by
  unfold installed
  by_cases hempty : bootstrapCalls processor head blocks = []
  · rw [hempty, List.take_nil]
    exact .inl ⟨.inl rfl, rfl, .inl rfl⟩
  · rw [bootstrapCalls_of_ne_nil hempty]
    unfold wipeAt wiped
    cases hcursor : head.cursor with
    | none =>
      cases n with
      | zero => exact .inl ⟨.inr le_rfl, rfl, .inl rfl⟩
      | succ m =>
        obtain ⟨hstore, horigin⟩ := @runSeam_replace X H C _ declarations prev head blocks m
        refine .inr ⟨by simp [replaceCalls], by simp, ?_, fun h => horigin ?_⟩
        · show (runSeam declarations prev ((replaceCalls head blocks).take (m + 1))).store = _
          rw [hstore, Option.toList_none, List.length_nil, show m + 1 - (0 + 3) = m - 2 by omega]
          rfl
        · simp only [Option.toList_none, List.length_nil] at h
          omega
    | some cursor =>
      cases n with
      | zero => exact .inl ⟨.inr (by omega), rfl, .inl rfl⟩
      | succ n =>
        cases n with
        | zero => exact .inl ⟨.inr le_rfl, rfl, .inr ⟨cursor, rfl, rfl⟩⟩
        | succ m =>
          obtain ⟨hstore, horigin⟩ := @runSeam_replace X H C _ declarations
            ⟨prev.store.clearCursor cursor.1, prev.snapshotOrigin⟩ head blocks m
          refine .inr ⟨by simp [replaceCalls], by simp, ?_, fun h => horigin ?_⟩
          · show (runSeam declarations ⟨prev.store.clearCursor cursor.1, prev.snapshotOrigin⟩
              ((replaceCalls head blocks).take (m + 1))).store = _
            rw [hstore, Option.toList_some, List.length_singleton, show m + 1 + 1 - (1 + 3) = m - 2 by omega]
            rfl
          · simp only [Option.toList_some, List.length_singleton] at h
            omega

/-! ### The cursor and the rows -/

/-- **The cursor left is the cursor of the rows left**: no sync cursor, the one the store held
over the rows it held, or the document's over the rows of the whole document. -/
def CursorHonest (declarations : List NormalizedEntity) (prev : EntityStore X H C) (head : SnapshotHead C)
    (blocks : List (SnapshotBlock X H)) (s : EntityStore X H C) : Prop :=
  s.cursors syncCursorKey = none ∨
    (s.cursors syncCursorKey = prev.cursors syncCursorKey ∧ s.rows = prev.rows) ∨
    ∃ value u, head.cursor = some (syncCursorKey, value) ∧ s.cursors syncCursorKey = some value ∧
      blocks.getLast?.any (·.last) = true ∧
      EntityStore.rebuild declarations (wiped prev head) (blocks.map (·.call head)) = .ok u ∧ s.rows = u.rows

/-- The document carries the sync cursor. -/
def SnapshotHead.namesSync (head : SnapshotHead C) : Bool := head.cursor.any (·.1 = syncCursorKey)

omit [DecidableEq H] in
theorem SnapshotHead.namesSync_iff : head.namesSync = true ↔ ∃ value, head.cursor = some (syncCursorKey, value) := by
  unfold SnapshotHead.namesSync
  rw [Option.any_eq_true]
  constructor
  · rintro ⟨cursor, hcursor, hkey⟩
    exact ⟨cursor.2, by rw [hcursor, ← of_decide_eq_true hkey]⟩
  · rintro ⟨value, hvalue⟩
    exact ⟨_, hvalue, decide_eq_true rfl⟩

/-- The install leaves no cursor it did not write: the document names the sync cursor, the store
held none, or the rows it held are the rows there are. -/
def CursorSafe (declarations : List NormalizedEntity) (prev : EntityStore X H C) (processor : Option String)
    (head : SnapshotHead C) (blocks : List (SnapshotBlock X H)) (n : ℕ) : Prop :=
  head.namesSync = true ∨ prev.cursors syncCursorKey = none ∨
    bootstrapCalls processor head blocks = [] ∨ n ≤ wipeAt head ∨
    (replay declarations (wiped prev head) ((blocks.map (·.call head)).take (n - (wipeAt head + 3)))).rows = prev.rows

omit [DecidableEq H] in
/-- The cursors right after the wipe: the document's is gone, and every other is where it was. -/
theorem cursors_wiped (prev : EntityStore X H C) (head : SnapshotHead C) :
    (wiped prev head).cursors syncCursorKey =
      if head.namesSync then none else prev.cursors syncCursorKey := by
  unfold wiped SnapshotHead.namesSync
  cases hcursor : head.cursor with
  | none => rfl
  | some cursor =>
    show Function.update prev.cursors cursor.1 none syncCursorKey = _
    rw [Option.any_some]
    by_cases hkey : cursor.1 = syncCursorKey
    · rw [if_pos (decide_eq_true hkey), hkey]
      exact Function.update_self _ _ _
    · rw [if_neg (by simpa using hkey)]
      exact Function.update_of_ne (Ne.symm hkey) _ _

/-- **When the cursor is honest**, whatever the store held and wherever the install ended. -/
theorem cursorHonest_iff (hlast : ∀ b ∈ blocks.dropLast, b.last = false) :
    CursorHonest declarations prev.store head blocks (installed declarations prev processor head blocks n).store ↔
      CursorSafe declarations prev.store processor head blocks n := by
  have hcalls : ∀ call ∈ (blocks.map (·.call head)).dropLast, call.cursor = none := by
    intro call hcall
    rw [← List.map_dropLast] at hcall
    obtain ⟨b, hb, rfl⟩ := List.mem_map.1 hcall
    show (if b.last then head.cursor else none) = none
    rw [hlast b hb]
    rfl
  rcases installed_cases declarations prev processor head blocks n with ⟨hbefore, -, hstore⟩ | ⟨hne, hwipe, hstore, -⟩
  · have hhonest : CursorHonest declarations prev.store head blocks
        (installed declarations prev processor head blocks n).store := by
      rcases hstore with hstore | ⟨cursor, -, hstore⟩ <;> rw [hstore]
      · exact .inr (.inl ⟨rfl, rfl⟩)
      · by_cases hkey : syncCursorKey = cursor.1
        · refine .inl ?_
          show Function.update prev.store.cursors cursor.1 none syncCursorKey = none
          rw [hkey, Function.update_self]
        · exact .inr (.inl ⟨Function.update_of_ne hkey _ _, rfl⟩)
    refine ⟨fun _ => .inr (.inr ?_), fun _ => hhonest⟩
    rcases hbefore with hbefore | hbefore
    · exact .inl hbefore
    · exact .inr (.inl hbefore)
  · rw [hstore]
    have hcursors := cursors_wiped prev.store head
    by_cases hnames : head.namesSync = true
    · refine ⟨fun _ => .inl hnames, fun _ => ?_⟩
      rw [if_pos hnames] at hcursors
      rcases cursor_replay_last hcalls (n - (wipeAt head + 3)) with hkept | ⟨hall, call, hcall, hend⟩
      · exact .inl (by rw [hkept, hcursors])
      · -- the replay came to its end: the cursor is the last block's, if it carries one
        obtain ⟨b, hb, rfl⟩ : ∃ b, blocks.getLast? = some b ∧ b.call head = call := by
          rw [List.getLast?_map] at hcall
          exact Option.map_eq_some_iff.1 hcall
        obtain ⟨value, hvalue⟩ := SnapshotHead.namesSync_iff.1 hnames
        by_cases hlastb : b.last = true
        · refine .inr (.inr ⟨value, _, hvalue, ?_, by rw [hb]; exact hlastb, hall, rfl⟩)
          rw [hend]
          have hcarried : (b.call head).cursor = some (syncCursorKey, value) := by
            show (if b.last then head.cursor else none) = _
            rw [if_pos hlastb, hvalue]
          rw [hcarried]
          exact @Function.update_self String (fun _ => Option C) _ _ _ _
        · refine .inl ?_
          rw [hend]
          have hcarried : (b.call head).cursor = none := by
            show (if b.last then head.cursor else none) = _
            rw [if_neg hlastb]
          rw [hcarried]
          exact hcursors
    · rw [if_neg hnames] at hcursors
      have hkept := @cursor_replay X H C _ declarations (wiped prev.store head)
        ((blocks.map (·.call head)).take (n - (wipeAt head + 3))) (by
          intro call hcall cursor hcursor hkey
          obtain ⟨b, -, rfl⟩ := List.mem_map.1 (List.mem_of_mem_take hcall)
          have hb : (if b.last then head.cursor else none) = some cursor := hcursor
          split at hb
          · exact hnames (SnapshotHead.namesSync_iff.2 ⟨cursor.2, by rw [hb, ← hkey]⟩)
          · cases hb)
      rw [hcursors] at hkept
      unfold CursorHonest CursorSafe
      rw [hkept]
      constructor
      · rintro (hnone | ⟨-, hrows⟩ | ⟨value, u, hvalue, -⟩)
        · exact .inr (.inl hnone)
        · exact .inr (.inr (.inr (.inr hrows)))
        · exact absurd (SnapshotHead.namesSync_iff.2 ⟨value, hvalue⟩) hnames
      · rintro (hvalue | hnone | hempty | hle | hrows)
        · exact absurd hvalue hnames
        · exact .inl hnone
        · exact absurd hempty hne
        · omega
        · exact .inr (.inl ⟨rfl, hrows⟩)

end Install

end Etherfold
