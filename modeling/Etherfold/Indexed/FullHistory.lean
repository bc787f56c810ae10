import Etherfold.Indexed.Runs
import Etherfold.Ledger.Lacking

/-!
# The indexed store next to its full history

Several handles write to one database, each call in one transaction. The same calls made by handles
that retain everything leave a database that holds the full history. The first lacks versions of it,
all of them closed at or below the floors of the prunes so far.

* `IndexedService`: a database and the handles over it.
* `IndexedDB.Behind`: a database lacks versions closed at or below a height.
* `behind_step`, `behind_run`: **what one call keeps, and so a run**, unless it reverts below a floor.
-/

namespace Etherfold

open Versions

variable {X H C : Type}

/-- What a handle keeps of its own. -/
structure IndexedHandle where
  token : String
  claimed : Bool
  provided : Retention
  finalityDepth : Option ℕ

/-- A database, and the handles that are open over it. -/
structure IndexedService (X H C : Type) where
  db : IndexedDB X H C
  handles : ℕ → IndexedHandle

namespace IndexedService

/-- The store as one handle sees it. -/
def store (s : IndexedService X H C) (n : ℕ) : IndexedDBStateStore X H C :=
  ⟨s.db, (s.handles n).token, (s.handles n).claimed, (s.handles n).provided, (s.handles n).finalityDepth⟩

/-- The same handles, retaining everything. -/
def keepingAll (s : IndexedService X H C) : IndexedService X H C :=
  { s with handles := fun n => { s.handles n with provided := .unbounded } }

variable [DecidableEq H]

/-- A handle makes a call. -/
def step (declarations : List NormalizedEntity) (s : IndexedService X H C) (e : ℕ × IndexedCall X H C) :
    IndexedService X H C :=
  let t := ((s.store e.1).perform declarations e.2).2
  ⟨t.db, Function.update s.handles e.1 { s.handles e.1 with claimed := t.claimed }⟩

def run (declarations : List NormalizedEntity) (s : IndexedService X H C) (calls : List (ℕ × IndexedCall X H C)) :
    IndexedService X H C :=
  calls.foldl (step declarations) s

end IndexedService

/-- **How far prunes have reached**, after one more call: to the floor of a prune that commits, and to nothing once
everything has been rolled back. -/
def IndexedCall.prunedTo [DecidableEq H] (declarations : List NormalizedEntity) (t : IndexedDBStateStore X H C)
    (c : Option ℕ) (call : IndexedCall X H C) : Option ℕ :=
  if (t.perform declarations call).1.isSome then c
  else
    match call with
    | .prune _ =>
      match t.db.tip.bind fun tip => retentionFloor t.provided tip t.finalityDepth with
      | none => c
      | some floor => some (max floor (c.getD 0))
    | .revertTo keepUpTo => if keepUpTo < 0 then none else c
    | _ => c

/-- A call that commits does not roll back below what was pruned, unless it rolls back everything. -/
def IndexedCall.StaysAbove [DecidableEq H] (declarations : List NormalizedEntity) (t : IndexedDBStateStore X H C)
    (c : Option ℕ) : IndexedCall X H C → Prop
  | .revertTo keepUpTo =>
    (t.perform declarations (.revertTo keepUpTo)).1 = none → keepUpTo < 0 ∨ ∀ x ∈ c, (x : ℤ) ≤ keepUpTo
  | _ => True

namespace IndexedService

variable [DecidableEq H]

/-- How far prunes have reached in a run. -/
def prunedTo (declarations : List NormalizedEntity) (s : IndexedService X H C) (c : Option ℕ) :
    List (ℕ × IndexedCall X H C) → Option ℕ
  | [] => c
  | e :: calls => prunedTo declarations (s.step declarations e) (e.2.prunedTo declarations (s.store e.1) c) calls

/-- No call of a run rolls back below what was pruned before it. -/
def StaysAbove (declarations : List NormalizedEntity) (s : IndexedService X H C) (c : Option ℕ) :
    List (ℕ × IndexedCall X H C) → Prop
  | [] => True
  | e :: calls => e.2.StaysAbove declarations (s.store e.1) c ∧
    StaysAbove declarations (s.step declarations e) (e.2.prunedTo declarations (s.store e.1) c) calls

end IndexedService

/-- A version that may be gone: it was closed at or below a height. -/
def PrunedAway (c : Option ℕ) (v : Version (Record X)) : Prop := ∃ x ∈ c, ∃ upper, v.upper = some upper ∧ upper ≤ x

theorem PrunedAway.not_openAt {c : Option ℕ} {v : Version (Record X)} (h : PrunedAway c v) {height : ℤ}
    (hc : ∀ x ∈ c, (x : ℤ) ≤ height) : v.openAt height = false := by
  obtain ⟨x, hx, upper, hupper, hle⟩ := h
  have hx' := hc x hx
  rw [← Bool.not_eq_true, Version.openAt_iff]
  rintro ⟨-, hopen⟩
  have hlt := hopen upper hupper
  omega

namespace IndexedDB

/-- **A database lacks versions of its full history**, each of them closed at or below `c`. -/
structure Behind (c : Option ℕ) (db full : IndexedDB X H C) : Prop where
  sound : full.Sound
  within : ∀ row, Within (fun n => (full.blocks.get n).isSome = true) (rowVersions full.versions row)
  current : db.current = full.current
  versions : Lacking (fun e => PrunedAway c e.2) db.versions.entries full.versions.entries
  blocks : db.blocks = full.blocks
  writer : db.writer = full.writer

variable {db db' full full' : IndexedDB X H C} {c : Option ℕ}

theorem behind_empty (c : Option ℕ) : Behind c (empty : IndexedDB X H C) empty :=
  ⟨sound_empty, fun row v hv => (by cases hv), rfl, .nil, rfl, rfl⟩

/-- Deeper prunes may have taken more. -/
theorem Behind.mono {c' : Option ℕ} (h : Behind c db full) (hle : ∀ x ∈ c, ∃ y ∈ c', x ≤ y) : Behind c' db full := by
  refine { h with versions := h.versions.mono fun e he => ?_ }
  obtain ⟨x, hx, upper, hupper, hle'⟩ := he
  obtain ⟨y, hy, hxy⟩ := hle x hx
  exact ⟨y, hy, upper, hupper, hle'.trans hxy⟩

/-- The cursors and the records of the seam are no part of it. -/
theorem Behind.books (h : Behind c db full) (hcurrent : db'.current = db.current) (hversions : db'.versions = db.versions)
    (hblocks : db'.blocks = db.blocks) (hcurrent' : full'.current = full.current)
    (hversions' : full'.versions = full.versions) (hblocks' : full'.blocks = full.blocks)
    (hwriter : db'.writer = full'.writer) : Behind c db' full' := by
  refine ⟨⟨?_, ?_, ?_⟩, ?_, ?_, ?_, ?_, hwriter⟩
  · rw [hversions']
    exact h.sound.keyed
  · rw [hversions']
    exact h.sound.chained
  · rw [hversions', hcurrent']
    exact h.sound.live
  · rw [hversions', hblocks']
    exact h.within
  · rw [hcurrent, hcurrent']
    exact h.current
  · rw [hversions, hversions']
    exact h.versions
  · rw [hblocks, hblocks']
    exact h.blocks

/-! ### What one transaction keeps -/

/-- One mutation writes the same versions in both. -/
theorem lacking_applyMutation {number : ℕ} (hcurrent : db.current = full.current)
    (hversions : Lacking (fun e => PrunedAway c e.2) db.versions.entries full.versions.entries)
    (m : Mutation EntityKey (Record X)) :
    (db.applyMutation number m).current = (full.applyMutation number m).current ∧
      Lacking (fun e => PrunedAway c e.2) (db.applyMutation number m).versions.entries
        (full.applyMutation number m).versions.entries := by
  have hclosed : Lacking (fun e => PrunedAway c e.2) (db.closed number (rowKey m.key)).entries
      (full.closed number (rowKey m.key)).entries := by
    unfold IndexedDB.closed
    rw [hcurrent]
    cases full.current.get (rowKey m.key) with
    | none => exact hversions
    | some live => exact ObjectStore.lacking_put hversions _ _
  have hsame : (db.applyMutation number m).current = (full.applyMutation number m).current := by
    unfold applyMutation
    rw [hcurrent]
    cases m.values <;> rfl
  refine ⟨hsame, ?_⟩
  unfold applyMutation
  cases m.values with
  | none => exact hclosed
  | some values => exact ObjectStore.lacking_put hclosed _ _

theorem within_overwrites {N : ℕ → Prop} {number : ℕ} (hN : N number) (row : Key) (ms : List (Mutation EntityKey (Record X)))
    {vs : List (Version (Record X))} (h : Within N vs) : Within N (overwrites number row ms vs) := by
  induction ms generalizing vs with
  | nil => exact h
  | cons m ms ih =>
    unfold overwrites at ih ⊢
    rw [List.foldl_cons]
    refine ih ?_
    split
    · exact within_overwrite h hN m.values
    · exact h

/-- A block that passes the checks is above everything recorded. -/
theorem lt_of_assertRecordable [DecidableEq H] {block : BlockPointer H} (h : db.assertRecordable block = .ok ()) {n : ℕ}
    (hn : (db.blocks.get n).isSome = true) : n < block.number := by
  obtain ⟨b, hb⟩ := Option.isSome_iff_exists.1 hn
  have hmem := ObjectStore.get_eq_some_iff.1 hb
  -- the tip is the last key, and no key is above it
  obtain ⟨tip, htip, hle⟩ : ∃ tip, db.tip = some tip ∧ n ≤ tip := by
    unfold IndexedDB.tip
    cases hlast : db.blocks.entries.getLast? with
    | none =>
      rw [List.getLast?_eq_none_iff.1 hlast] at hmem
      cases hmem
    | some e =>
      obtain ⟨init, hinit⟩ := List.getLast?_eq_some_iff.1 hlast
      refine ⟨e.1, rfl, ?_⟩
      have hsorted := db.blocks.sorted
      rw [hinit] at hmem hsorted
      rcases List.mem_append.1 hmem with hin | hin
      · exact ((List.pairwise_append.1 hsorted).2.2 _ hin e (by simp)).le
      · rw [← List.mem_singleton.1 hin]
  unfold IndexedDB.assertRecordable at h
  split at h
  · cases h
  split at h
  · cases h
  split at h
  · cases h
  rename_i hnone
  rw [htip, Option.filter_some] at hnone
  by_contra hlt
  rw [if_pos (decide_eq_true (by omega))] at hnone
  cases hnone

/-- **A block is written to both.** -/
theorem Behind.writeBlock [DecidableEq H] (h : Behind c db full) {block : BlockPointer H}
    (hblock : db.assertRecordable block = .ok ()) (planned : List (Mutation EntityKey (Record X)))
    (cursor : Option (String × C)) : Behind c (db.writeBlock block planned cursor) (full.writeBlock block planned cursor) := by
  set N : ℕ → Prop := fun n => ((full.blocks.put block.number block).get n).isSome = true with hN
  have hself : N block.number := by simp [hN, ObjectStore.get_put]
  have hgrow : ∀ n, (full.blocks.get n).isSome = true → N n := by
    intro n hn
    by_cases heq : n = block.number
    · rw [heq]
      exact hself
    · simpa [hN, ObjectStore.get_put, heq] using hn
  have hle : ∀ n, N n → n ≤ block.number := by
    intro n hn
    by_cases heq : n = block.number
    · exact heq.le
    · rw [hN, ObjectStore.get_put, if_neg heq, ← h.blocks] at hn
      exact (lt_of_assertRecordable hblock hn).le
  have hwithin : ∀ row, Within N (rowVersions full.versions row) := fun row v hv =>
    ⟨hgrow _ (h.within row v hv).1, fun x hx => hgrow _ ((h.within row v hv).2 x hx)⟩
  obtain ⟨hsound, hbooks, hrows⟩ := h.sound.applyMutations hself hle hwithin planned
  obtain ⟨hcurrent, hversions⟩ : (planned.foldl (applyMutation block.number) db).current =
      (planned.foldl (applyMutation block.number) full).current ∧
      Lacking (fun e => PrunedAway c e.2) (planned.foldl (applyMutation block.number) db).versions.entries
        (planned.foldl (applyMutation block.number) full).versions.entries :=
    List.foldl_rel (r := fun db full : IndexedDB X H C => db.current = full.current ∧
      Lacking (fun e => PrunedAway c e.2) db.versions.entries full.versions.entries)
      ⟨h.current, h.versions⟩ fun m _ _ _ hboth => lacking_applyMutation hboth.1 hboth.2 m
  have hbooksDb : ∀ (ms : List (Mutation EntityKey (Record X))) (db : IndexedDB X H C),
      db.SameBooks (ms.foldl (applyMutation block.number) db) := by
    intro ms
    induction ms with
    | nil => exact fun db => rfl
    | cons m ms ih =>
      refine fun db => SameBooks.trans ?_ (ih (db.applyMutation block.number m))
      unfold SameBooks applyMutation
      cases m.values <;> rfl
  have hblocks : (full.writeBlock block planned cursor).blocks = full.blocks.put block.number block := by
    unfold IndexedDB.writeBlock
    dsimp only
    rw [hbooks.blocks]
  refine ⟨⟨hsound.keyed, hsound.chained, hsound.live⟩, fun row => ?_, hcurrent, hversions, ?_, ?_⟩
  · rw [hblocks]
    show Within N (rowVersions (planned.foldl (applyMutation block.number) full).versions row)
    rw [hrows]
    exact within_overwrites hself row planned (hwithin row)
  · rw [hblocks]
    unfold IndexedDB.writeBlock
    dsimp only
    rw [(hbooksDb planned db).blocks, h.blocks]
  · exact ((hbooksDb planned db).writer.trans h.writer).trans hbooks.writer.symm

/-- The two copies are in step in both. -/
theorem Behind.sound_db (h : Behind c db full) : db.Sound := by
  have hrows : ∀ row, Lacking (PrunedAway c) (rowVersions db.versions row) (rowVersions full.versions row) :=
    fun row => (h.versions.filter _).map _ fun e he => he
  refine ⟨fun k v hget => ?_, fun row => (h.sound.chained row).sublist (hrows row).sublist, fun row => ?_⟩
  · rw [ObjectStore.get_eq_some_iff] at hget
    exact h.sound.keyed k v (ObjectStore.get_eq_some_iff.2 (h.versions.sublist.subset hget))
  · have hlive := (hrows row).find?_eq (p := fun v => v.upper.isNone) fun v hv => by
      obtain ⟨-, -, upper, hupper, -⟩ := hv
      rw [hupper]
      rfl
    rw [h.current, h.sound.live row]
    exact hlive.symm

/-- Every version closes at or above where it opened. -/
theorem Sound.lower_le_upper (hs : db.Sound) {e : Key × Version (Record X)} (he : e ∈ db.versions.entries) {upper : ℕ}
    (hupper : e.2.upper = some upper) : e.2.lower ≤ upper := by
  have hget := ObjectStore.get_eq_some_iff.2 he
  obtain ⟨row, -, hk⟩ := hs.keyed _ _ hget
  rw [hk] at hget
  exact (hs.chained row).closed e.2 ((mem_rowVersions hs.keyed).2 hget) upper hupper

/-- A database with no versions holds no row. -/
theorem Sound.entries_of_nil (hs : db.Sound) (hnil : ∀ row, rowVersions db.versions row = []) :
    db.versions.entries = [] ∧ db.current.entries = [] := by
  constructor
  · refine List.eq_nil_iff_forall_not_mem.2 fun e he => ?_
    have hget := ObjectStore.get_eq_some_iff.2 he
    obtain ⟨row, -, hk⟩ := hs.keyed _ _ hget
    rw [hk] at hget
    have hmem := (mem_rowVersions hs.keyed).2 hget
    rw [hnil] at hmem
    cases hmem
  · refine List.eq_nil_iff_forall_not_mem.2 fun e he => ?_
    have hlive := hs.live e.1
    rw [hnil, ObjectStore.get_eq_some_iff.2 he] at hlive
    cases hlive

/-- **Both are rolled back** to the same height. -/
theorem Behind.revert (h : Behind c db full) {keepUpTo : ℤ} (hk : keepUpTo < 0 ∨ ∀ x ∈ c, (x : ℤ) ≤ keepUpTo) :
    Behind (if keepUpTo < 0 then none else c)
      { (db.dropOpened keepUpTo).reopenClosed keepUpTo with
        blocks := db.blocks.filter fun e => (e.1 : ℤ) ≤ keepUpTo
        revertSequence := some (db.revertSequence.getD 0 + 1) }
      { (full.dropOpened keepUpTo).reopenClosed keepUpTo with
        blocks := full.blocks.filter fun e => (e.1 : ℤ) ≤ keepUpTo
        revertSequence := some (full.revertSequence.getD 0 + 1) } := by
  obtain ⟨hsound, -⟩ := h.sound.revert keepUpTo
  have hwithin : ∀ row, Within (fun n => ((full.blocks.filter fun e => (e.1 : ℤ) ≤ keepUpTo).get n).isSome = true)
      (rowVersions ((full.dropOpened keepUpTo).reopenClosed keepUpTo).versions row) := by
    intro row v hv
    rw [h.sound.rowVersions_revert] at hv
    have hkept : ∀ n : ℕ, (full.blocks.get n).isSome = true ∧ (n : ℤ) ≤ keepUpTo →
        ((full.blocks.filter fun e => (e.1 : ℤ) ≤ keepUpTo).get n).isSome = true := by
      intro n ⟨hn, hle⟩
      obtain ⟨b, hb⟩ := Option.isSome_iff_exists.1 hn
      rw [ObjectStore.get_filter, hb, Option.filter_some, if_pos (by simpa using hle)]
      rfl
    have hcut := (h.within row).cutAt keepUpTo v hv
    exact ⟨hkept _ hcut.1, fun x hx => hkept _ (hcut.2 x hx)⟩
  have hblocks : db.blocks.filter (fun e => (e.1 : ℤ) ≤ keepUpTo) = full.blocks.filter fun e => (e.1 : ℤ) ≤ keepUpTo := by
    rw [h.blocks]
  by_cases hneg : keepUpTo < 0
  · -- nothing is left of either
    obtain ⟨hsoundDb, -⟩ := h.sound_db.revert keepUpTo
    obtain ⟨hversions, hcurrent⟩ := hsoundDb.entries_of_nil fun row => by
      rw [h.sound_db.rowVersions_revert, cutAt_of_neg hneg]
    obtain ⟨hversions', hcurrent'⟩ := hsound.entries_of_nil fun row => by
      rw [h.sound.rowVersions_revert, cutAt_of_neg hneg]
    refine ⟨⟨hsound.keyed, hsound.chained, hsound.live⟩, hwithin, ?_, ?_, hblocks, h.writer⟩
    · exact ObjectStore.ext (hcurrent.trans hcurrent'.symm)
    · show Lacking _ ((db.dropOpened keepUpTo).reopenClosed keepUpTo).versions.entries
        ((full.dropOpened keepUpTo).reopenClosed keepUpTo).versions.entries
      rw [hversions, hversions']
      exact .nil
  · have hle := hk.resolve_left hneg
    rw [if_neg hneg]
    -- what is missing was closed at or below the fork: it is neither dropped nor opened again
    have hopened : (db.versions.index fun version => some version.lower).filter (fun e => keepUpTo < (e.1 : ℤ)) =
        (full.versions.index fun version => some version.lower).filter fun e => keepUpTo < (e.1 : ℤ) := by
      refine ObjectStore.filter_index_eq (p := fun i : ℕ => keepUpTo < (i : ℤ)) h.versions fun e he hgone i hi => ?_
      obtain ⟨x, hx, upper, hupper, hux⟩ := hgone
      have hlower := h.sound.lower_le_upper he hupper
      have hx' := hle x hx
      rw [Option.some.injEq] at hi
      rw [decide_eq_false_iff_not]
      omega
    have hdropped : (db.dropOpened keepUpTo).current = (full.dropOpened keepUpTo).current ∧
        Lacking (fun e => PrunedAway c e.2) (db.dropOpened keepUpTo).versions.entries
          (full.dropOpened keepUpTo).versions.entries := by
      unfold dropOpened
      rw [hopened, h.current]
      refine ⟨rfl, List.foldl_rel (r := fun s s' : ObjectStore Key (Version (Record X)) =>
        Lacking (fun e => PrunedAway c e.2) s.entries s'.entries) h.versions ?_⟩
      exact fun e _ _ _ hs => ObjectStore.lacking_delete hs e.2.1
    obtain ⟨hcurrent, hversions⟩ := hdropped
    have hclosed : ((db.dropOpened keepUpTo).versions.index (·.upper)).filter (fun e => keepUpTo < (e.1 : ℤ)) =
        ((full.dropOpened keepUpTo).versions.index (·.upper)).filter fun e => keepUpTo < (e.1 : ℤ) := by
      refine ObjectStore.filter_index_eq (p := fun i : ℕ => keepUpTo < (i : ℤ)) hversions fun e _ hgone i hi => ?_
      obtain ⟨x, hx, upper, hupper, hux⟩ := hgone
      have hx' := hle x hx
      rw [hupper, Option.some.injEq] at hi
      rw [decide_eq_false_iff_not]
      omega
    have hreopened : ((db.dropOpened keepUpTo).reopenClosed keepUpTo).current =
        ((full.dropOpened keepUpTo).reopenClosed keepUpTo).current ∧
        Lacking (fun e => PrunedAway c e.2) ((db.dropOpened keepUpTo).reopenClosed keepUpTo).versions.entries
          ((full.dropOpened keepUpTo).reopenClosed keepUpTo).versions.entries := by
      unfold reopenClosed
      rw [hclosed, hcurrent]
      refine ⟨rfl, List.foldl_rel (r := fun s s' : ObjectStore Key (Version (Record X)) =>
        Lacking (fun e => PrunedAway c e.2) s.entries s'.entries) hversions ?_⟩
      exact fun e _ _ _ hs => ObjectStore.lacking_put hs e.2.1 _
    exact ⟨⟨hsound.keyed, hsound.chained, hsound.live⟩, hwithin, hreopened.1, hreopened.2, hblocks, h.writer⟩

/-- **A prune takes closed versions only**, at or below its floor; the full history keeps them. -/
theorem Behind.prune (h : Behind c db full) (floor : ℕ) (maxVersions : Option ℕ) :
    Behind (some (max floor (c.getD 0))) (db.pruneVersions floor maxVersions).1 full := by
  have hdeeper : Behind (some (max floor (c.getD 0))) db full := h.mono fun x hx => by
    rw [Option.mem_def] at hx
    exact ⟨_, rfl, by simp [hx]⟩
  obtain ⟨n, heq, -⟩ := db.pruneVersions_eq floor maxVersions
  rw [heq]
  refine { hdeeper with versions := ?_ }
  -- each deletion takes one entry of the database, closed at or below the floor
  have hkept := List.foldlRecOn (motive := fun s : ObjectStore Key (Version (Record X)) =>
      Lacking (fun e => PrunedAway (some (max floor (c.getD 0))) e.2) s.entries full.versions.entries ∧
        s.entries ⊆ db.versions.entries) ((db.prunable floor).take n) (fun versions e => versions.delete e.2.1)
    ⟨hdeeper.versions, fun e he => he⟩ fun s hs e he => by
      obtain ⟨hlacking, hsub⟩ := hs
      obtain ⟨hindex, hle⟩ := List.mem_filter.1 (List.mem_of_mem_take he)
      obtain ⟨hget, hupper⟩ := ObjectStore.mem_index.1 hindex
      refine ⟨hlacking.drop fun a ha hkey => ?_, fun a ha => hsub (List.mem_filter.1 ha).1⟩
      have hgeta := ObjectStore.get_eq_some_iff.2 (hsub ha)
      have hsame : a.1 = e.2.1 := by simpa using hkey
      rw [hsame, hget, Option.some.injEq] at hgeta
      rw [decide_eq_true_eq] at hle
      exact ⟨_, rfl, e.1, hgeta ▸ hupper, le_max_of_le_left hle⟩
  exact hkept.1

end IndexedDB

open IndexedDB

/-! ### Calls -/

namespace IndexedDBStateStore

/-- The same handle, retaining everything, over another database. -/
def keepingAll (t : IndexedDBStateStore X H C) (full : IndexedDB X H C) : IndexedDBStateStore X H C :=
  { t with db := full, provided := .unbounded }

variable {t : IndexedDBStateStore X H C} {full : IndexedDB X H C} {c : Option ℕ}

/-- A claim is no part of what is recorded. -/
theorem blocks_of_claimOrCheck {db : IndexedDB X H C} (h : t.claimOrCheck = .ok db) : db.blocks = t.db.blocks := by
  unfold claimOrCheck at h
  split at h
  · cases h
    rfl
  · split at h
    · cases h
      rfl
    · cases h

/-- **One transaction over both**: aborted in both, or committed in both. -/
theorem transaction_behind (h : Behind c t.db full) (c' : Option ℕ) {α β : Type}
    {body : IndexedDB X H C → Except (IndexedError H) (α × IndexedDB X H C)}
    {body' : IndexedDB X H C → Except (IndexedError H) (β × IndexedDB X H C)}
    (hbody : ∀ db full, t.claimOrCheck = .ok db → Behind c db full →
      (∃ e e', body db = .error e ∧ body' full = .error e') ∨
        ∃ a b db' full', body db = .ok (a, db') ∧ body' full = .ok (b, full') ∧ Behind c' db' full') :
    (∃ e e', t.transaction body = (.error e, t) ∧
        (t.keepingAll full).transaction body' = (.error e', t.keepingAll full)) ∨
      ∃ a b db' full', t.transaction body = (.ok a, { t with db := db', claimed := true }) ∧
        (t.keepingAll full).transaction body' = (.ok b, { t.keepingAll full with db := full', claimed := true }) ∧
        Behind c' db' full' := by
  have hclaim : (∃ e, t.claimOrCheck = .error e ∧ (t.keepingAll full).claimOrCheck = .error e) ∨
      ∃ db full', t.claimOrCheck = .ok db ∧ (t.keepingAll full).claimOrCheck = .ok full' ∧ Behind c db full' := by
    unfold claimOrCheck keepingAll
    dsimp only
    rw [← h.writer]
    cases t.claimed with
    | false =>
      exact .inr ⟨_, _, rfl, rfl, h.books rfl rfl rfl rfl rfl rfl rfl⟩
    | true =>
      by_cases hheld : t.db.writer = some t.token
      · simp only [hheld, if_true]
        exact .inr ⟨_, _, rfl, rfl, h⟩
      · simp only [hheld, if_false]
        exact .inl ⟨_, rfl, rfl⟩
  unfold transaction
  rcases hclaim with ⟨e, hdb, hfull⟩ | ⟨db, full', hdb, hfull, hbehind⟩
  · rw [hdb, hfull]
    exact .inl ⟨e, e, rfl, rfl⟩
  · have hboth := hbody db full' hdb hbehind
    rw [hdb, hfull]
    dsimp only
    rcases hboth with ⟨e, e', hbad, hbad'⟩ | ⟨a, b, db', full'', hok, hok', hboth⟩
    · rw [hbad, hbad']
      exact .inl ⟨e, e', rfl, rfl⟩
    · rw [hok, hok']
      exact .inr ⟨a, b, db', full'', rfl, rfl, hboth⟩

/-- The transaction of a prune, for a handle's retention. -/
def pruneFor (provided : Retention) (finalityDepth budget : Option ℕ) (db : IndexedDB X H C) :
    PruneReport × IndexedDB X H C :=
  match db.tip.bind fun tip => retentionFloor provided tip finalityDepth with
  | none => (⟨db.tip, none, 0, true⟩, db)
  | some floor =>
    let (pruned, deleted) := db.pruneVersions floor budget
    let complete := budget.all (deleted < ·) || !(pruned.versions.index (·.upper)).any (·.1 ≤ floor)
    (⟨db.tip, some floor, deleted, complete⟩, { pruned with retentionEnforcement := some floor })

theorem prune_eq (t : IndexedDBStateStore X H C) {maxVersions : Option ℤ} {budget : Option ℕ}
    (h : pruneBudget maxVersions = .ok budget) :
    t.prune maxVersions = t.transaction fun db => .ok (pruneFor t.provided t.finalityDepth budget db) := by
  unfold IndexedDBStateStore.prune
  rw [h]
  dsimp only
  congr 1
  funext db
  unfold pruneFor
  cases db.tip.bind fun tip => retentionFloor t.provided tip t.finalityDepth <;> rfl

variable [DecidableEq H] {declarations : List NormalizedEntity}

/-- What one call leaves of both: the handle as it was but for its claim, and databases one of which lacks versions. -/
def StaysBehind (declarations : List NormalizedEntity) (t : IndexedDBStateStore X H C) (full : IndexedDB X H C)
    (c : Option ℕ) (call : IndexedCall X H C) : Prop :=
  ∃ db' full' claimed, (t.perform declarations call).2 = { t with db := db', claimed := claimed } ∧
    ((t.keepingAll full).perform declarations call).2 = { t.keepingAll full with db := full', claimed := claimed } ∧
    Behind (call.prunedTo declarations t c) db' full'

/-- A call that both refuse, or that both take. -/
theorem staysBehind_of (h : Behind c t.db full) (c' : Option ℕ) {call : IndexedCall X H C} {α β : Type}
    {outcome : Except (IndexedError H) α × IndexedDBStateStore X H C}
    {outcome' : Except (IndexedError H) β × IndexedDBStateStore X H C}
    (hcall : t.perform declarations call = outcome.map refusal id)
    (hcall' : (t.keepingAll full).perform declarations call = outcome'.map refusal id)
    (hboth : (∃ e e', outcome = (.error e, t) ∧ outcome' = (.error e', t.keepingAll full)) ∨
      ∃ a b db' full', outcome = (.ok a, { t with db := db', claimed := true }) ∧
        outcome' = (.ok b, { t.keepingAll full with db := full', claimed := true }) ∧ Behind c' db' full')
    (hc : (t.perform declarations call).1 = none → call.prunedTo declarations t c = c') :
    StaysBehind declarations t full c call := by
  rcases hboth with ⟨e, e', rfl, rfl⟩ | ⟨a, b, db', full', rfl, rfl, hbehind⟩
  · have hc' : call.prunedTo declarations t c = c := by
      unfold IndexedCall.prunedTo
      rw [hcall]
      exact if_pos rfl
    refine ⟨t.db, full, t.claimed, ?_, ?_, ?_⟩
    · rw [hcall]
      rfl
    · rw [hcall']
      rfl
    · rw [hc']
      exact h
  · refine ⟨db', full', true, ?_, ?_, ?_⟩
    · rw [hcall]
      rfl
    · rw [hcall']
      rfl
    · rw [hc (by rw [hcall]; rfl)]
      exact hbehind

/-- A block whose mutations resolve is one transaction. -/
theorem applyBlock_of_plan (t : IndexedDBStateStore X H C) {call : AppliedCall X H C}
    {planned : List (Mutation EntityKey (Record X))} (hplan : call.mutations.mapM (plan declarations) = .ok planned) :
    t.applyBlock declarations call = t.transaction fun db =>
      match db.assertRecordable call.block with
      | .error e => .error (.refused e)
      | .ok _ => .ok ((), db.writeBlock call.block planned call.cursor) := by
  unfold IndexedDBStateStore.applyBlock
  split
  · rename_i e herror
    rw [hplan] at herror
    cases herror
  · rename_i planned' hok
    rw [hplan] at hok
    cases hok
    rfl

/-- **What one call keeps.** -/
theorem perform_behind (h : Behind c t.db full) (call : IndexedCall X H C)
    (habove : call.StaysAbove declarations t c) : StaysBehind declarations t full c call := by
  cases call with
  | applyBlock call =>
    cases hplan : call.mutations.mapM (plan declarations) with
    | error e =>
      have hrefused : ∀ t : IndexedDBStateStore X H C, t.applyBlock declarations call = (.error (.entity e), t) := by
        intro t
        unfold IndexedDBStateStore.applyBlock
        rw [hplan]
      exact staysBehind_of h c rfl rfl (.inl ⟨_, _, hrefused t, hrefused _⟩) fun hnone => by
        unfold perform at hnone
        dsimp only at hnone
        rw [hrefused] at hnone
        cases hnone
    | ok planned =>
      refine staysBehind_of h c (congrArg (Prod.map refusal id) (applyBlock_of_plan t hplan))
        (congrArg (Prod.map refusal id) (applyBlock_of_plan _ hplan))
        (transaction_behind h c fun db full _ hbehind => ?_) fun hnone => ?_
      · have hsame : full.assertRecordable call.block = db.assertRecordable call.block := by
          unfold assertRecordable IndexedDB.tip
          rw [hbehind.blocks]
        rw [hsame]
        cases hblock : db.assertRecordable call.block with
        | error e => exact .inl ⟨_, _, rfl, rfl⟩
        | ok u => exact .inr ⟨_, _, _, _, rfl, rfl, hbehind.writeBlock hblock planned call.cursor⟩
      · unfold IndexedCall.prunedTo
        rw [hnone]
        rfl
  | revertTo keepUpTo =>
    refine staysBehind_of h (if keepUpTo < 0 then none else c) rfl rfl (transaction_behind h _
      fun db full hclaim hbehind => .inr ⟨_, _, _, _, rfl, rfl, hbehind.revert (habove ?_)⟩) fun hnone => ?_
    · unfold perform IndexedDBStateStore.revertTo transaction
      rw [hclaim]
      rfl
    · unfold IndexedCall.prunedTo
      rw [hnone]
      rfl
  | prune maxVersions =>
    cases hbudget : pruneBudget maxVersions with
    | error n =>
      have hrefused : ∀ t : IndexedDBStateStore X H C, t.prune maxVersions = (.error (.invalidBudget n), t) := by
        intro t
        unfold IndexedDBStateStore.prune
        rw [hbudget]
      exact staysBehind_of h c rfl rfl (.inl ⟨_, _, hrefused t, hrefused _⟩) fun hnone => by
        unfold perform at hnone
        dsimp only at hnone
        rw [hrefused] at hnone
        cases hnone
    | ok budget =>
      refine staysBehind_of h
        (match t.db.tip.bind fun tip => retentionFloor t.provided tip t.finalityDepth with
          | none => c
          | some floor => some (max floor (c.getD 0)))
        (congrArg (Prod.map refusal id) (prune_eq t hbudget)) (congrArg (Prod.map refusal id) (prune_eq _ hbudget))
        (transaction_behind h _ fun db full hclaim hbehind => .inr ⟨_, _, _, _, rfl, rfl, ?_⟩) fun hnone => ?_
      · have htip : db.tip = t.db.tip := by
          unfold IndexedDB.tip
          rw [blocks_of_claimOrCheck hclaim]
        -- who retains everything has no floor
        have hkept : (pruneFor .unbounded t.finalityDepth budget full).2 = full := by
          unfold pruneFor
          cases full.tip <;> rfl
        show Behind _ (pruneFor t.provided t.finalityDepth budget db).2 (pruneFor .unbounded t.finalityDepth budget full).2
        rw [hkept]
        unfold pruneFor
        rw [htip]
        cases t.db.tip.bind fun tip => retentionFloor t.provided tip t.finalityDepth with
        | none => exact hbehind
        | some floor => exact (hbehind.prune floor budget).books rfl rfl rfl rfl rfl rfl (hbehind.prune floor budget).writer
      · unfold IndexedCall.prunedTo
        rw [hnone]
        rfl
  | writeCursor key value =>
    have heq : ∀ t : IndexedDBStateStore X H C, t.writeCursor key value = t.transaction fun db =>
        .ok ((), { db with cursors := Function.update db.cursors key (some value) }) := fun t => rfl
    refine staysBehind_of h c (congrArg (Prod.map refusal id) (heq t)) (congrArg (Prod.map refusal id) (heq _))
      (transaction_behind h c fun db full _ hbehind => ?_) fun hnone => ?_
    · exact .inr ⟨_, _, _, _, rfl, rfl, hbehind.books rfl rfl rfl rfl rfl rfl hbehind.writer⟩
    · unfold IndexedCall.prunedTo
      rw [hnone]
      rfl

end IndexedDBStateStore

/-! ### Runs -/

namespace IndexedService

variable [DecidableEq H] {declarations : List NormalizedEntity} {s full : IndexedService X H C} {c : Option ℕ}

/-- **Two services made of the same calls**, by handles of which those of the second retain everything. -/
structure Behind (c : Option ℕ) (s full : IndexedService X H C) : Prop where
  db : s.db.Behind c full.db
  handles : full.handles = s.keepingAll.handles

omit [DecidableEq H] in
theorem Behind.store (h : Behind c s full) (n : ℕ) : full.store n = (s.store n).keepingAll full.db := by
  unfold IndexedService.store IndexedDBStateStore.keepingAll
  rw [h.handles]
  rfl

/-- **What one call keeps.** -/
theorem behind_step (h : Behind c s full) (e : ℕ × IndexedCall X H C)
    (habove : e.2.StaysAbove declarations (s.store e.1) c) :
    Behind (e.2.prunedTo declarations (s.store e.1) c) (s.step declarations e) (full.step declarations e) := by
  obtain ⟨db', full', claimed, hcall, hcall', hbehind⟩ := IndexedDBStateStore.perform_behind h.db e.2 habove
  unfold step
  rw [h.store, hcall, hcall']
  refine ⟨hbehind, funext fun n => ?_⟩
  unfold keepingAll
  dsimp only
  rw [h.handles]
  by_cases hn : n = e.1
  · rw [hn, Function.update_self, Function.update_self]
    rfl
  · rw [Function.update_of_ne hn, Function.update_of_ne hn]
    rfl

/-- **What a run keeps.** -/
theorem behind_run (h : Behind c s full) (calls : List (ℕ × IndexedCall X H C))
    (habove : StaysAbove declarations s c calls) :
    Behind (s.prunedTo declarations c calls) (s.run declarations calls) (full.run declarations calls) := by
  induction calls generalizing s full c with
  | nil => exact h
  | cons e calls ih =>
    obtain ⟨hcall, hcalls⟩ := habove
    exact ih (behind_step h e hcall) hcalls

omit [DecidableEq H] in
/-- Two new databases. -/
theorem behind_new (handles : ℕ → IndexedHandle) :
    Behind none (⟨.empty, handles⟩ : IndexedService X H C) (⟨.empty, handles⟩ : IndexedService X H C).keepingAll :=
  ⟨IndexedDB.behind_empty none, rfl⟩

end IndexedService

end Etherfold
