import Etherfold.Indexed.Reads

/-!
# Runs of the indexed store

Calls, made of the indexed store and of the reference store side by side. They part in two ways
only: ids with a lone half of a pair, which the indexed store writes to the row of another id,
and a prune whose budget is short, which deletes other versions in the one than in the other.

* `refines_indexedStep`, `refines_indexedRun`: **what one call keeps, and so a run**.
* `indexedDBStateStore_run`: **the two stores agree** on what is taken, refused and answered.
-/

namespace Etherfold

open Versions

variable {X H C : Type}

/-- The calls of the indexed store. -/
inductive IndexedCall (X H C : Type) where
  | applyBlock (call : AppliedCall X H C)
  | revertTo (keepUpTo : ℤ)
  | prune (maxVersions : Option ℤ)
  | writeCursor (key : String) (value : C)

/-- The call, as any store is asked it. -/
def IndexedCall.writerCall : IndexedCall X H C → WriterCall X H C
  | .applyBlock call => .applyBlock call
  | .revertTo keepUpTo => .revertTo keepUpTo
  | .prune maxVersions => .prune maxVersions
  | .writeCursor key value => .writeCursor key value

variable [DecidableEq H]

namespace IndexedDBStateStore

/-- One call: the refusal, if any, and the store after it. -/
def perform (declarations : List NormalizedEntity) (t : IndexedDBStateStore X H C) :
    IndexedCall X H C → Option (IndexedError H) × IndexedDBStateStore X H C
  | .applyBlock call => (t.applyBlock declarations call).map refusal id
  | .revertTo keepUpTo => (t.revertTo keepUpTo).map refusal id
  | .prune maxVersions => (t.prune maxVersions).map refusal id
  | .writeCursor key value => (t.writeCursor key value).map refusal id

def run (declarations : List NormalizedEntity) (t : IndexedDBStateStore X H C) (calls : List (IndexedCall X H C)) :
    IndexedDBStateStore X H C :=
  calls.foldl (fun t call => (t.perform declarations call).2) t

end IndexedDBStateStore

open IndexedDBStateStore

/-- What the reference store makes of the same calls. -/
def EntityStore.runIndexed (declarations : List NormalizedEntity) (s : EntityStore X H C)
    (calls : List (IndexedCall X H C)) : EntityStore X H C :=
  s.runCalls declarations (calls.map (·.writerCall))

/-- The height the stores are alike above, after one more call. -/
def IndexedCall.cut (t : IndexedDBStateStore X H C) (s : EntityStore X H C) (c : ℤ) : IndexedCall X H C → ℤ
  | .prune maxVersions =>
    match pruneBudget maxVersions with
    | .error _ => c
    | .ok budget => t.db.pruneCut s budget c
  | _ => c

/-- **The highest floor of a prune with a short budget**, and `c` before any. -/
def indexedCut (declarations : List NormalizedEntity) (t : IndexedDBStateStore X H C) (s : EntityStore X H C) (c : ℤ) :
    List (IndexedCall X H C) → ℤ
  | [] => c
  | call :: calls =>
    indexedCut declarations (t.perform declarations call).2 (EntityStore.performCall declarations s call.writerCall).2
      (call.cut t s c) calls

/-- What a call may not do: name an id with a lone half of a pair, or revert below a floor up
to which the stores may differ. -/
def IndexedCall.Careful (declarations : List NormalizedEntity) (c : ℤ) : IndexedCall X H C → Prop
  | .applyBlock call => WellFormedIds declarations call.mutations
  | .revertTo keepUpTo => c ≤ keepUpTo ∨ keepUpTo < 0
  | _ => True

instance (declarations : List NormalizedEntity) (c : ℤ) (call : IndexedCall X H C) :
    Decidable (call.Careful declarations c) := by
  cases call <;> unfold IndexedCall.Careful <;> infer_instance

variable {declarations : List NormalizedEntity} {t : IndexedDBStateStore X H C} {s : EntityStore X H C} {c : ℤ}

/-- What the two stores say of one call. -/
structure SameAnswer (declarations : List NormalizedEntity) (t : IndexedDBStateStore X H C) (s : EntityStore X H C)
    (call : IndexedCall X H C) : Prop where
  taken : (t.perform declarations call).1.isNone = (EntityStore.performCall declarations s call.writerCall).1
  untouched : ∀ _error ∈ (t.perform declarations call).1, (t.perform declarations call).2 = t ∧
    (EntityStore.performCall declarations s call.writerCall).2 = s

/-- **What one call keeps.** -/
theorem refines_indexedStep (h : t.Refines s c) (call : IndexedCall X H C) (hcareful : call.Careful declarations c) :
    SameAnswer declarations t s call ∧
      (t.perform declarations call).2.Refines (EntityStore.performCall declarations s call.writerCall).2
        (call.cut t s c) := by
  -- taken by both, or refused by both with nothing changed
  have htaken : ∀ {t' s'}, t.perform declarations call = (none, t') →
      EntityStore.performCall declarations s call.writerCall = (true, s') → t'.Refines s' (call.cut t s c) →
      SameAnswer declarations t s call ∧ (t.perform declarations call).2.Refines
        (EntityStore.performCall declarations s call.writerCall).2 (call.cut t s c) := by
    intro t' s' ht hs hrefines
    refine ⟨⟨?_, fun error herror => ?_⟩, ?_⟩
    · rw [ht, hs]
      rfl
    · rw [ht] at herror
      cases herror
    · rw [ht, hs]
      exact hrefines
  have hrefused : ∀ error, t.perform declarations call = (some error, t) →
      EntityStore.performCall declarations s call.writerCall = (false, s) → t.Refines s (call.cut t s c) →
      SameAnswer declarations t s call ∧ (t.perform declarations call).2.Refines
        (EntityStore.performCall declarations s call.writerCall).2 (call.cut t s c) := by
    intro error ht hs hrefines
    refine ⟨⟨?_, fun error herror => ?_⟩, ?_⟩
    · rw [ht, hs]
      rfl
    · rw [ht, hs]
      exact ⟨rfl, rfl⟩
    · rw [ht, hs]
      exact hrefines
  cases call with
  | applyBlock call =>
    rcases h.applyBlock hcareful with ⟨t', s', ht, hs, hrefines⟩ | ⟨error, e, ht, hs⟩
    · refine htaken ?_ ?_ hrefines
      · exact congrArg (Prod.map refusal id) ht
      · exact congrArg (Prod.map Except.isOk id) hs
    · refine hrefused error ?_ ?_ h
      · exact congrArg (Prod.map refusal id) ht
      · exact congrArg (Prod.map Except.isOk id) hs
  | revertTo keepUpTo =>
    obtain ⟨t', ht, hrefines⟩ := h.revertTo hcareful
    exact htaken (congrArg (Prod.map refusal id) ht) rfl hrefines
  | prune maxVersions =>
    unfold IndexedCall.cut at htaken hrefused ⊢
    dsimp only at htaken hrefused ⊢
    cases hbudget : pruneBudget maxVersions with
    | error n =>
      rw [hbudget] at hrefused
      refine hrefused (.invalidBudget n) ?_ ?_ h
      · unfold perform IndexedDBStateStore.prune
        dsimp only
        rw [hbudget]
        rfl
      · unfold EntityStore.performCall IndexedCall.writerCall
        dsimp only
        rw [hbudget]
    | ok budget =>
      rw [hbudget] at htaken
      obtain ⟨report, t', ht, hrefines⟩ := h.prune hbudget
      refine htaken (congrArg (Prod.map refusal id) ht) ?_ hrefines
      unfold EntityStore.performCall IndexedCall.writerCall
      dsimp only
      rw [hbudget]
  | writeCursor key value =>
    obtain ⟨t', ht, hrefines⟩ := h.writeCursor key value
    exact htaken (congrArg (Prod.map refusal id) ht) rfl hrefines

/-! ### Runs -/

/-- Every call of a run is careful where it stands. -/
def CarefulCalls (declarations : List NormalizedEntity) (t : IndexedDBStateStore X H C) (s : EntityStore X H C) (c : ℤ) :
    List (IndexedCall X H C) → Prop
  | [] => True
  | call :: calls => call.Careful declarations c ∧
    CarefulCalls declarations (t.perform declarations call).2
      (EntityStore.performCall declarations s call.writerCall).2 (call.cut t s c) calls

theorem carefulCalls_append {calls calls' : List (IndexedCall X H C)} :
    CarefulCalls declarations t s c (calls ++ calls') ↔ CarefulCalls declarations t s c calls ∧
      CarefulCalls declarations (t.run declarations calls) (s.runIndexed declarations calls)
        (indexedCut declarations t s c calls) calls' := by
  induction calls generalizing t s c with
  | nil =>
    rw [List.nil_append]
    exact ⟨fun h => ⟨trivial, h⟩, fun h => h.2⟩
  | cons call calls ih =>
    rw [List.cons_append]
    show _ ∧ CarefulCalls declarations _ _ _ (calls ++ calls') ↔ _
    rw [ih, ← and_assoc]
    exact Iff.rfl

/-- **What a run keeps.** -/
theorem refines_indexedRun (h : t.Refines s c) (calls : List (IndexedCall X H C))
    (hcareful : CarefulCalls declarations t s c calls) :
    (t.run declarations calls).Refines (s.runIndexed declarations calls) (indexedCut declarations t s c calls) := by
  induction calls generalizing t s c with
  | nil => exact h
  | cons call calls ih =>
    obtain ⟨hcall, hcalls⟩ := hcareful
    exact ih (refines_indexedStep h call hcall).2 hcalls

omit [DecidableEq H] in
/-- Two stores of one configuration begin side by side. -/
theorem refines_indexedNew {setting : Option RetentionSetting} {finalityDepth : Option ℕ} {token : String}
    (ht : IndexedDBStateStore.new setting finalityDepth token = .ok t)
    (hs : MemoryStateStore.new setting finalityDepth = .ok s) : t.Refines s (-1) := by
  have hwell := (MemoryStateStore.represents_new hs).wellFormed
  unfold IndexedDBStateStore.new at ht
  unfold MemoryStateStore.new at hs
  cases hretention : resolveRetention setting finalityDepth with
  | error e =>
    rw [hretention] at ht
    cases ht
  | ok provided =>
    rw [hretention] at ht hs
    cases ht
    cases hs
    have hempty : IndexedDB.Mirrors (IndexedDB.empty : IndexedDB X H C)
        ⟨[], [], fun _ => none, provided, finalityDepth, none⟩ (-1) :=
      ⟨hwell, IndexedDB.sound_empty, rfl, rfl, fun row hne => absurd rfl hne, fun key hne => absurd rfl hne,
        fun row v hv => (by cases hv), fun key _ => .refl _ _⟩
    exact ⟨hempty, fun hclaimed => (by cases hclaimed), rfl, rfl⟩

/-- **The indexed store agrees with the reference store** along every run of careful calls: each
call is taken by both or refused by both, what is refused changes nothing, the live records are
the versions that are not closed, and the reads answer alike. -/
theorem indexedDBStateStore_run {setting : Option RetentionSetting} {finalityDepth : Option ℕ} {token : String}
    (ht : IndexedDBStateStore.new setting finalityDepth token = .ok t)
    (hs : MemoryStateStore.new setting finalityDepth = .ok s) (calls : List (IndexedCall X H C))
    (hcareful : CarefulCalls declarations t s (-1) calls) :
    (∀ pre call post, calls = pre ++ call :: post →
      SameAnswer declarations (t.run declarations pre) (s.runIndexed declarations pre) call) ∧
    (∀ row, ((t.run declarations calls).db.current.get row).map CurrentRecord.version =
      Versions.current (rowVersions (t.run declarations calls).db.versions row)) ∧
    IndexedDBStateStore.AnswersAlike declarations (t.run declarations calls) (s.runIndexed declarations calls)
      (indexedCut declarations t s (-1) calls) := by
  have h : t.Refines s (-1) := refines_indexedNew ht hs
  have hend := refines_indexedRun h calls hcareful
  refine ⟨fun pre call post heq => ?_, hend.mirrors.sound.live, hend.answersAlike⟩
  rw [heq, carefulCalls_append] at hcareful
  exact (refines_indexedStep (refines_indexedRun h pre hcareful.1) call hcareful.2.1).1

/-- A store of one entity, before its first call. -/
def coinRecords : IndexedDBStateStore Unit ℕ Unit := ⟨.empty, "writer", false, .unbounded, none⟩

/-- A block that writes a row twice and deletes it, another block, and a revert of it. -/
def coinRequests : List (IndexedCall Unit ℕ Unit) :=
  [.applyBlock ⟨⟨1, 1⟩, [.upsert "coin" [("id", [65])] [("value", .number 10)], .upsert "coin" [("id", [65])] [],
      .delete "coin" [("id", [65])]], none⟩,
    .applyBlock ⟨⟨2, 2⟩, [.upsert "coin" [("id", [66])] []], some ("sync", ())⟩, .revertTo 1, .prune (some 1)]

theorem indexedDBStateStore_run_coin :
    IndexedDBStateStore.AnswersAlike [coin] (coinRecords.run [coin] coinRequests) (emptyStore.runIndexed [coin] coinRequests)
      (indexedCut [coin] coinRecords emptyStore (-1) coinRequests) := by
  have ht : IndexedDBStateStore.new none none "writer" = .ok coinRecords := rfl
  have hs : MemoryStateStore.new none none = .ok emptyStore := rfl
  have hcareful : CarefulCalls [coin] coinRecords emptyStore (-1) coinRequests :=
    ⟨by decide, by decide, .inl (by decide), trivial, trivial⟩
  exact (indexedDBStateStore_run ht hs coinRequests hcareful).2.2

/-- A row whose id is the first half of a pair. -/
def loneSurrogates : List (IndexedCall Unit ℕ Unit) :=
  [.applyBlock ⟨⟨1, 1⟩, [.upsert "coin" [("id", [0xd800])] []], none⟩]

/-- **Lone halves of pairs share a row**: a row is found under an id that was never written. -/
theorem getCurrent_lone_surrogate : ¬∀ (calls : List (IndexedCall Unit ℕ Unit)) (entity : String) (id : EntityId),
    (coinRecords.run [coin] calls).getCurrent [coin] entity id =
      EntityStore.getCurrent [coin] (emptyStore.runIndexed [coin] calls) entity id := by
  intro h
  have hsame := h loneSurrogates "coin" [("id", [0xd801])]
  exact absurd hsame (by decide)

end Etherfold
