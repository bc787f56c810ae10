import Etherfold.Sqlite.Reads

/-!
# Runs of the versioned store

One writer's calls, made of the versioned store and of the reference store side by side. They
part in two ways only: a sequence of blocks whose first is taken and a later one refused, and
a prune whose budget is short, which deletes other versions in the one than in the other.

* `cutFloor`: the height from which on the two stores are alike.
* `refines_step`, `refines_run`: **what one call keeps, and so a run**.
* `versionedStateStore_run`: **the two stores agree** on what is taken, refused and answered.
-/

namespace Etherfold

open Versions

variable {X H C : Type} [DecidableEq H]

namespace VersionedStateStore

/-- One call: the refusal, if any, and the store after it. -/
def perform (declarations : List NormalizedEntity) (t : VersionedStateStore X H C) :
    WriterCall X H C → Option (SqlError H) × VersionedStateStore X H C
  | .applyBlock call => (t.applyBlock declarations call).map refusal id
  | .applyBlocks updates => (t.applyBlocks declarations updates).map refusal id
  | .revertTo keepUpTo => (t.revertTo declarations keepUpTo).map refusal id
  | .prune maxVersions =>
    match pruneBudget maxVersions with
    | .error maxVersions => (some (.invalidBudget maxVersions), t)
    | .ok budget => (t.prune declarations budget).map refusal id
  | .writeCursor key value => (t.writeCursor key value).map refusal id

def run (declarations : List NormalizedEntity) (t : VersionedStateStore X H C) (calls : List (WriterCall X H C)) :
    VersionedStateStore X H C :=
  calls.foldl (fun t call => (t.perform declarations call).2) t

end VersionedStateStore

open VersionedStateStore

variable {declarations : List NormalizedEntity} {t : VersionedStateStore X H C} {s : EntityStore X H C} {c : ℤ}

/-- The height the stores are alike above, after one more call. -/
def WriterCall.cut (declarations : List NormalizedEntity) (t : VersionedStateStore X H C) (s : EntityStore X H C)
    (c : ℤ) : WriterCall X H C → ℤ
  | .prune maxVersions =>
    match pruneBudget maxVersions with
    | .error _ => c
    | .ok budget => pruneCut declarations t s budget c
  | _ => c

/-- **The highest floor of a prune with a short budget**, and `c` before any. -/
def cutFloor (declarations : List NormalizedEntity) (t : VersionedStateStore X H C) (s : EntityStore X H C) (c : ℤ) :
    List (WriterCall X H C) → ℤ
  | [] => c
  | call :: calls =>
    cutFloor declarations (t.perform declarations call).2 (EntityStore.performCall declarations s call).2
      (call.cut declarations t s c) calls

/-- What a call may not do: revert below a floor up to which the stores may differ, or send a
sequence of which only the first block is taken. -/
def WriterCall.Careful (declarations : List NormalizedEntity) (s : EntityStore X H C) (c : ℤ) :
    WriterCall X H C → Prop
  | .revertTo keepUpTo => c ≤ keepUpTo ∨ keepUpTo < 0
  | .applyBlocks updates => SentWhole declarations s updates
  | _ => True

/-- What the two stores say of one call. -/
structure SameVerdict (declarations : List NormalizedEntity) (t : VersionedStateStore X H C) (s : EntityStore X H C)
    (call : WriterCall X H C) : Prop where
  taken : (t.perform declarations call).1.isNone = (EntityStore.performCall declarations s call).1
  untouched : ∀ error ∈ (t.perform declarations call).1, t.Untouched (t.perform declarations call).2
  clear : ∀ error ∈ (t.perform declarations call).1, Clear error
  kept : ∀ _error ∈ (t.perform declarations call).1, (EntityStore.performCall declarations s call).2 = s
  each : ∀ updates, call = .applyBlocks updates → (t.perform declarations call).1 = none →
    t.applyEach declarations updates = (.ok (), (t.perform declarations call).2)

/-- A call both take. -/
theorem sameVerdict_taken {call : WriterCall X H C} {t' : VersionedStateStore X H C} {s' : EntityStore X H C}
    (ht : t.perform declarations call = (none, t')) (hs : EntityStore.performCall declarations s call = (true, s'))
    (heach : ∀ updates, call = .applyBlocks updates → t.applyEach declarations updates = (.ok (), t')) :
    SameVerdict declarations t s call := by
  refine ⟨?_, fun error herror => ?_, fun error herror => ?_, fun error herror => ?_, fun updates hcall _ => ?_⟩
  · rw [ht, hs]
    rfl
  · rw [ht] at herror
    cases herror
  · rw [ht] at herror
    cases herror
  · rw [ht] at herror
    cases herror
  · rw [ht]
    exact heach updates hcall

/-- A call neither takes. -/
theorem sameVerdict_refused {call : WriterCall X H C} {error : SqlError H} {t' : VersionedStateStore X H C}
    (ht : t.perform declarations call = (some error, t'))
    (hs : EntityStore.performCall declarations s call = (false, s)) (hclear : Clear error) (hsame : t.Untouched t') :
    SameVerdict declarations t s call := by
  refine ⟨?_, fun error herror => ?_, fun error herror => ?_, fun error herror => ?_, fun updates hcall hnone => ?_⟩
  · rw [ht, hs]
    rfl
  · rw [ht]
    exact hsame
  · rw [ht, Option.mem_some_iff] at herror
    rw [← herror]
    exact hclear
  · rw [hs]
  · rw [ht] at hnone
    cases hnone

/-- **What one call keeps.** -/
theorem refines_step (h : t.Refines declarations s c) (call : WriterCall X H C)
    (hcareful : call.Careful declarations s c) :
    SameVerdict declarations t s call ∧
      (t.perform declarations call).2.Refines declarations (EntityStore.performCall declarations s call).2
        (call.cut declarations t s c) := by
  -- taken by both, or refused by both with nothing changed
  have htaken : ∀ {t' s'}, t.perform declarations call = (none, t') →
      EntityStore.performCall declarations s call = (true, s') →
      (∀ updates, call = .applyBlocks updates → t.applyEach declarations updates = (.ok (), t')) →
      t'.Refines declarations s' (call.cut declarations t s c) →
      SameVerdict declarations t s call ∧ (t.perform declarations call).2.Refines declarations
        (EntityStore.performCall declarations s call).2 (call.cut declarations t s c) := by
    intro t' s' ht hs heach hrefines
    refine ⟨sameVerdict_taken ht hs heach, ?_⟩
    rw [ht, hs]
    exact hrefines
  have hrefused : ∀ {error t'}, t.perform declarations call = (some error, t') →
      EntityStore.performCall declarations s call = (false, s) → Clear error → t.Untouched t' →
      t'.Refines declarations s (call.cut declarations t s c) →
      SameVerdict declarations t s call ∧ (t.perform declarations call).2.Refines declarations
        (EntityStore.performCall declarations s call).2 (call.cut declarations t s c) := by
    intro error t' ht hs hclear hsame hrefines
    refine ⟨sameVerdict_refused ht hs hclear hsame, ?_⟩
    rw [ht, hs]
    exact hrefines
  cases call with
  | applyBlock call =>
    rcases h.applyBlock call with ⟨t', s', ht, hs, hrefines⟩ | ⟨error, e, t', ht, hs, hclear, hsame, hrefines⟩
    · refine htaken ?_ ?_ (fun updates hcall => by cases hcall) hrefines
      · exact congrArg (Prod.map refusal id) ht
      · exact congrArg (Prod.map Except.isOk id) hs
    · refine hrefused ?_ ?_ hclear hsame hrefines
      · exact congrArg (Prod.map refusal id) ht
      · exact congrArg (Prod.map Except.isOk id) hs
  | applyBlocks updates =>
    rcases h.applyBlocks hcareful with
      ⟨t', s', ht, heach, hs, hrefines⟩ | ⟨error, e, t', ht, hs, hclear, hsame, hrefines⟩
    · refine htaken (congrArg (Prod.map refusal id) ht) ?_ (fun us hcall => ?_) hrefines
      · unfold EntityStore.performCall
        dsimp only
        rw [hs]
      · injection hcall with hcall
        rw [← hcall]
        exact heach
    · refine hrefused (congrArg (Prod.map refusal id) ht) ?_ hclear hsame hrefines
      unfold EntityStore.performCall
      dsimp only
      rw [hs]
  | revertTo keepUpTo =>
    obtain ⟨t', ht, hrefines⟩ := h.revertTo hcareful
    exact htaken (congrArg (Prod.map refusal id) ht) rfl (fun updates hcall => by cases hcall) hrefines
  | prune maxVersions =>
    cases hbudget : pruneBudget maxVersions with
    | error n =>
      have ht : t.perform declarations (.prune maxVersions) = (some (.invalidBudget n), t) := by
        unfold VersionedStateStore.perform
        dsimp only
        rw [hbudget]
      have hs : EntityStore.performCall declarations s (.prune maxVersions) = (false, s) := by
        unfold EntityStore.performCall
        dsimp only
        rw [hbudget]
      refine hrefused ht hs (fun entity heq => by cases heq) (.refl t) ?_
      unfold WriterCall.cut
      dsimp only
      rw [hbudget]
      exact h
    | ok budget =>
      obtain ⟨report, t', htook, hrefines⟩ := h.prune budget
      have ht : t.perform declarations (.prune maxVersions) = (none, t') := by
        unfold VersionedStateStore.perform
        dsimp only
        rw [hbudget]
        exact congrArg (Prod.map refusal id) htook
      have hs : EntityStore.performCall declarations s (.prune maxVersions) = (true, (s.prune budget).1) := by
        unfold EntityStore.performCall
        dsimp only
        rw [hbudget]
      refine htaken ht hs (fun updates hcall => by cases hcall) ?_
      unfold WriterCall.cut
      dsimp only
      rw [hbudget]
      exact hrefines
  | writeCursor key value =>
    obtain ⟨t', ht, hrefines⟩ := h.writeCursor key value
    exact htaken (congrArg (Prod.map refusal id) ht) rfl (fun updates hcall => by cases hcall) hrefines

/-! ### Runs -/

/-- Every call of a run is careful where it stands. -/
def CarefulRun (declarations : List NormalizedEntity) (t : VersionedStateStore X H C) (s : EntityStore X H C) (c : ℤ)
    (calls : List (WriterCall X H C)) : Prop :=
  ∀ pre call post, calls = pre ++ call :: post →
    call.Careful declarations (s.runCalls declarations pre) (cutFloor declarations t s c pre)

theorem carefulRun_nil : CarefulRun declarations t s c [] := fun pre call post heq => by
  cases pre <;> cases heq

/-- A careful run, call by call. -/
theorem carefulRun_cons {call : WriterCall X H C} {calls : List (WriterCall X H C)}
    (hcall : call.Careful declarations s c)
    (hcalls : CarefulRun declarations (t.perform declarations call).2 (EntityStore.performCall declarations s call).2
      (call.cut declarations t s c) calls) : CarefulRun declarations t s c (call :: calls) := by
  intro pre head post heq
  cases pre with
  | nil =>
    injection heq with hhead
    rw [← hhead]
    exact hcall
  | cons first pre =>
    injection heq with hfirst hrest
    rw [← hfirst]
    exact hcalls pre head post hrest

theorem cutFloor_concat (declarations : List NormalizedEntity) (t : VersionedStateStore X H C)
    (s : EntityStore X H C) (c : ℤ) (calls : List (WriterCall X H C)) (call : WriterCall X H C) :
    cutFloor declarations t s c (calls ++ [call]) =
      call.cut declarations (t.run declarations calls) (s.runCalls declarations calls)
        (cutFloor declarations t s c calls) := by
  induction calls generalizing t s c with
  | nil => rfl
  | cons head rest ih =>
    show cutFloor declarations _ _ _ (rest ++ [call]) = _
    rw [ih]
    rfl

/-- **What a run keeps.** -/
theorem refines_run (h : t.Refines declarations s c) (calls : List (WriterCall X H C))
    (hcareful : CarefulRun declarations t s c calls) :
    (t.run declarations calls).Refines declarations (s.runCalls declarations calls)
      (cutFloor declarations t s c calls) := by
  induction calls using List.reverseRecOn with
  | nil => exact h
  | append_singleton calls call ih =>
    have hbefore := ih fun pre head post heq => hcareful pre head (post ++ [call]) (by rw [heq]; simp)
    have hstep := (refines_step hbefore call (hcareful calls call [] rfl)).2
    have ht : t.run declarations (calls ++ [call]) = ((t.run declarations calls).perform declarations call).2 := by
      unfold VersionedStateStore.run
      rw [List.foldl_append]
      rfl
    have hs : s.runCalls declarations (calls ++ [call]) =
        (EntityStore.performCall declarations (s.runCalls declarations calls) call).2 := by
      unfold EntityStore.runCalls
      rw [List.foldl_append]
      rfl
    rw [ht, hs, cutFloor_concat]
    exact hstep

omit [DecidableEq H] in
/-- Two stores of one configuration begin side by side. -/
theorem refines_new {setting : Option RetentionSetting} {finalityDepth : Option ℕ} {bounds : BatchBounds}
    {estimateSize : Statement X H C → ℕ} {token : String}
    (ht : VersionedStateStore.new setting finalityDepth bounds estimateSize token = .ok t)
    (hs : MemoryStateStore.new setting finalityDepth = .ok s) : t.Refines declarations s (-1) := by
  have hwell := (MemoryStateStore.represents_new hs).wellFormed
  unfold VersionedStateStore.new at ht
  unfold MemoryStateStore.new at hs
  cases hretention : resolveRetention setting finalityDepth with
  | error e =>
    rw [hretention] at ht
    cases ht
  | ok provided =>
    rw [hretention] at ht hs
    cases ht
    cases hs
    have hempty : Database.Mirrors declarations (Database.empty : Database X H C)
        ⟨[], [], fun _ => none, provided, finalityDepth, none⟩ (-1) :=
      ⟨hwell, Database.sound_empty, rfl, rfl, fun key hkey => rfl, fun key v hv => (by cases hv), fun key => .refl _ _⟩
    exact ⟨hempty, fun hclaimed => (by cases hclaimed), rfl, rfl⟩

/-- **The versioned store agrees with the reference store** along every run of careful calls:
each call is taken by both or refused by both, what is refused changes nothing and is no
violation of the index of live versions, and the reads answer alike. -/
theorem versionedStateStore_run {setting : Option RetentionSetting} {finalityDepth : Option ℕ} {bounds : BatchBounds}
    {estimateSize : Statement X H C → ℕ} {token : String}
    (ht : VersionedStateStore.new setting finalityDepth bounds estimateSize token = .ok t)
    (hs : MemoryStateStore.new setting finalityDepth = .ok s) (calls : List (WriterCall X H C))
    (hcareful : CarefulRun declarations t s (-1) calls) :
    (∀ pre call post, calls = pre ++ call :: post →
      SameVerdict declarations (t.run declarations pre) (s.runCalls declarations pre) call) ∧
    (∀ entity, ((t.run declarations calls).db.tables entity).openIds.Nodup) ∧
    AnswersAlike declarations (t.run declarations calls) (s.runCalls declarations calls)
      (cutFloor declarations t s (-1) calls) := by
  have h : t.Refines declarations s (-1) := refines_new ht hs
  have hend := refines_run h calls hcareful
  refine ⟨fun pre call post heq => ?_, fun entity => ?_, hend.answersAlike⟩
  · have hpre := refines_run h pre fun p head post' hp => hcareful p head (post' ++ call :: post) (by
      rw [heq, hp, List.append_assoc, List.cons_append])
    exact (refines_step hpre call (hcareful pre call post heq)).1
  · exact Database.openIds_nodup hend.mirrors.sound.chained entity

/-- A store of one entity, before its first call. -/
def coinTables : VersionedStateStore Unit ℕ Unit :=
  ⟨.empty, "writer", false, ⟨4, 100, 4⟩, fun _ => 1, .unbounded, none⟩

/-- A block, two more in one call, and a revert of the last. -/
def coinWrites : List (WriterCall Unit ℕ Unit) :=
  [.applyBlock ⟨⟨1, 1⟩, [.upsert "coin" [("id", [65])] [("value", .number 10)]], none⟩,
    .applyBlocks [⟨⟨2, 2⟩, [.upsert "coin" [("id", [65])] [], .delete "coin" [("id", [65])]]⟩,
      ⟨⟨3, 3⟩, [.upsert "coin" [("id", [66])] []]⟩],
    .revertTo 2, .prune (some 1)]

theorem versionedStateStore_run_coin :
    AnswersAlike [coin] (coinTables.run [coin] coinWrites) (emptyStore.runCalls [coin] coinWrites)
      (cutFloor [coin] coinTables emptyStore (-1) coinWrites) := by
  have ht : VersionedStateStore.new none none ⟨4, 100, 4⟩ (fun _ => 1) "writer" = .ok coinTables := rfl
  have hs : MemoryStateStore.new none none = .ok emptyStore := rfl
  have hcareful : CarefulRun [coin] coinTables emptyStore (-1) coinWrites := by
    refine carefulRun_cons trivial (carefulRun_cons ?_ (carefulRun_cons ?_ (carefulRun_cons trivial carefulRun_nil)))
    · exact fun _ _ _ => ⟨by decide, by decide⟩
    · exact .inl (by decide)
  exact (versionedStateStore_run ht hs coinWrites hcareful).2.2

/-- **The first block of a refused sequence stays**: the last one repeats its hash. -/
theorem applyBlocks_keeps_first : ¬∀ (updates : List (BlockUpdate Unit ℕ)) (error : SqlError ℕ),
    (coinTables.perform [coin] (.applyBlocks updates)).1 = some error →
      coinTables.Untouched (coinTables.perform [coin] (.applyBlocks updates)).2 := by
  intro h
  have hsame := h [⟨⟨1, 1⟩, []⟩, ⟨⟨2, 1⟩, []⟩] (.violation (.blockHash 1)) (by rfl)
  have hblocks := congrArg (fun t : VersionedStateStore Unit ℕ Unit => t.db.blocks) hsame
  exact absurd hblocks (by decide)

end Etherfold
