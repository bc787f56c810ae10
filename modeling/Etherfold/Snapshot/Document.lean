import Etherfold.Store.Snapshots

/-!
# The snapshot document, as it is read

A document is a head and lines. A block is yielded when the next block's line, or the end,
proves it complete; whatever is wrong with a line ends the reading there.

* `decodedBlocks`: the blocks a document yields before it ends or breaks.
* `decodedBlocks_yields`: **the first block is the floor, the blocks ascend**, and only the
  final one is the last, at the cut.
-/

namespace Etherfold

variable {J X H C : Type}

/-- A document's head. -/
structure SnapshotHead (C : Type) where
  processor : String
  takenAt : ℕ
  floor : ℕ
  cursor : Option (String × C)

/-- A line, parsed; one that does not parse, or that no kind of line looks like, is `unknown`. -/
inductive SnapshotLine (J H : Type) where
  | declare (entity : NormalizedEntity)
  | block (block : BlockPointer H)
  | entity (name : String)
  | row (values : List J)
  | delete (values : List J)
  | unknown

/-- One block as a reader yields it. -/
structure SnapshotBlock (X H : Type) where
  block : BlockPointer H
  mutations : List (EntityMutation X)
  last : Bool

/-- How the cells of a row or of a delete are read. -/
structure RowCodec (J X : Type) where
  decodeRow : NormalizedEntity → List J → Option (EntityMutation X)
  deleted : NormalizedEntity → List J → EntityMutation X

/-- The same id columns, and the same fields in any order. -/
def sameDeclaration (a b : NormalizedEntity) : Bool :=
  a.id = b.id && a.fields.length = b.fields.length &&
    a.fields.all fun field => b.fields.lookup field.1 = some field.2

/-- What the reader has come to: what was declared, the block that is open, and the section. -/
structure Decoding (X H : Type) where
  declared : List NormalizedEntity
  current : Option (BlockPointer H × List (EntityMutation X))
  entity : Option NormalizedEntity
  blocksSeen : ℕ

def Decoding.start : Decoding X H := ⟨[], none, none, 0⟩

/-- One line: what is read on, and the block it completes. A line that breaks the document is none. -/
def decodeLine (codec : RowCodec J X) (head : SnapshotHead C) (expected : List NormalizedEntity) (d : Decoding X H) :
    SnapshotLine J H → Option (Decoding X H × Option (SnapshotBlock X H))
  | .row values =>
    match d.current, d.entity with
    | some (block, mutations), some entity =>
      if values.length ≠ entity.id.length + entity.fields.length then none
      else (codec.decodeRow entity values).map fun m => ({ d with current := some (block, mutations ++ [m]) }, none)
    | _, _ => none
  | .delete values =>
    match d.current, d.entity with
    | some (block, mutations), some entity =>
      -- the floor carries live rows alone
      if d.blocksSeen = 1 ∨ values.length ≠ entity.id.length then none
      else some ({ d with current := some (block, mutations ++ [codec.deleted entity values]) }, none)
    | _, _ => none
  | .entity name =>
    match d.current, d.declared.find? (·.name = name) with
    | some _, some entity => some ({ d with entity := some entity }, none)
    | _, _ => none
  | .block block =>
    match d.current with
    | none =>
      if d.blocksSeen = 0 ∧ block.number ≠ head.floor then none
      else some ({ d with current := some (block, []), entity := none, blocksSeen := d.blocksSeen + 1 }, none)
    | some (open', mutations) =>
      if block.number ≤ open'.number then none
      else some ({ d with current := some (block, []), entity := none, blocksSeen := d.blocksSeen + 1 },
        some ⟨open', mutations, false⟩)
  | .declare entity =>
    if d.current.isSome then none
    else
      match expected.find? (·.name = entity.name) with
      | none => none
      | some own =>
        if sameDeclaration entity own then some ({ d with declared := entity :: d.declared }, none) else none
  | .unknown => none

/-- **The blocks a document yields.** The end yields the open block when it is the cut. -/
def decodedBlocks (codec : RowCodec J X) (head : SnapshotHead C) (expected : List NormalizedEntity) :
    Decoding X H → List (SnapshotLine J H) → List (SnapshotBlock X H)
  | d, [] =>
    match d.current with
    | none => []
    | some (block, mutations) => if block.number ≠ head.takenAt then [] else [⟨block, mutations, true⟩]
  | d, line :: lines =>
    match decodeLine codec head expected d line with
    | none => []
    | some (d', yielded) => yielded.toList ++ decodedBlocks codec head expected d' lines

section Decoded

variable {codec : RowCodec J X} {head : SnapshotHead C} {expected : List NormalizedEntity} {d d' : Decoding X H}

/-- **One line** leaves the open block as it is, opens the first one at the floor, or completes
one and opens the next above it. -/
theorem decodeLine_cases {line : SnapshotLine J H} {yielded : Option (SnapshotBlock X H)}
    (h : decodeLine codec head expected d line = some (d', yielded)) :
    (yielded = none ∧ d'.current.map (·.1) = d.current.map (·.1) ∧ d'.blocksSeen = d.blocksSeen) ∨
      (yielded = none ∧ d.current = none ∧ d'.blocksSeen = d.blocksSeen + 1 ∧
        ∃ block, d'.current = some (block, []) ∧ (d.blocksSeen = 0 → block.number = head.floor)) ∨
      ∃ block mutations next, d.current = some (block, mutations) ∧ yielded = some ⟨block, mutations, false⟩ ∧
        d'.current = some (next, []) ∧ block.number < next.number ∧ d'.blocksSeen = d.blocksSeen + 1 := by
  cases line with
  | row values =>
    unfold decodeLine at h
    dsimp only at h
    split at h
    · rename_i block mutations entity hcurrent hentity
      split at h
      · cases h
      · obtain ⟨m, -, heq⟩ := Option.map_eq_some_iff.1 h
        injection heq with h₁ h₂
        subst h₁ h₂
        exact .inl ⟨rfl, by rw [hcurrent]; rfl, rfl⟩
    · cases h
  | delete values =>
    unfold decodeLine at h
    dsimp only at h
    split at h
    · rename_i block mutations entity hcurrent hentity
      split at h
      · cases h
      · injection h with h
        injection h with h₁ h₂
        subst h₁ h₂
        exact .inl ⟨rfl, by rw [hcurrent]; rfl, rfl⟩
    · cases h
  | entity name =>
    unfold decodeLine at h
    dsimp only at h
    split at h
    · injection h with h
      injection h with h₁ h₂
      subst h₁ h₂
      exact .inl ⟨rfl, rfl, rfl⟩
    · cases h
  | block block =>
    unfold decodeLine at h
    dsimp only at h
    split at h
    · rename_i hcurrent
      split at h
      · cases h
      · rename_i hfloor
        injection h with h
        injection h with h₁ h₂
        subst h₁ h₂
        refine .inr (.inl ⟨rfl, hcurrent, rfl, block, rfl, fun hfirst => ?_⟩)
        by_contra hne
        exact hfloor ⟨hfirst, hne⟩
    · rename_i before mutations hcurrent
      split at h
      · cases h
      · rename_i habove
        injection h with h
        injection h with h₁ h₂
        subst h₁ h₂
        exact .inr (.inr ⟨before, mutations, block, hcurrent, rfl, rfl, by omega, rfl⟩)
  | declare entity =>
    unfold decodeLine at h
    dsimp only at h
    split at h
    · cases h
    · split at h
      · cases h
      · split at h
        · injection h with h
          injection h with h₁ h₂
          subst h₁ h₂
          exact .inl ⟨rfl, rfl, rfl⟩
        · cases h
  | unknown => cases h

/-- What the yielded blocks are, read on from some point: nothing, or from the open block on. -/
structure YieldsFrom (head : SnapshotHead C) (d : Decoding X H) (blocks : List (SnapshotBlock X H)) : Prop where
  ascending : blocks.Pairwise fun a b => a.block.number < b.block.number
  first : ∀ b, blocks.head? = some b → match d.current with
    | some (block, _) => b.block = block
    | none => d.blocksSeen = 0 → b.block.number = head.floor
  last : ∀ b ∈ blocks.dropLast, b.last = false
  cut : ∀ b ∈ blocks, b.last = true → b.block.number = head.takenAt

/-- Every yielded block is at or above the open one. -/
theorem YieldsFrom.above {blocks : List (SnapshotBlock X H)} (h : YieldsFrom head d blocks) {block : BlockPointer H}
    {mutations : List (EntityMutation X)} (hcurrent : d.current = some (block, mutations)) :
    ∀ b ∈ blocks, block.number ≤ b.block.number := by
  intro b hb
  cases blocks with
  | nil => cases hb
  | cons first rest =>
    have hfirst := h.first first rfl
    rw [hcurrent] at hfirst
    dsimp only at hfirst
    rcases List.mem_cons.1 hb with rfl | hb
    · exact hfirst.symm ▸ le_rfl
    · have hlt := (List.pairwise_cons.1 h.ascending).1 b hb
      rw [hfirst] at hlt
      exact hlt.le

/-- **What a document yields**, from any point of it. -/
theorem decodedBlocks_yields (lines : List (SnapshotLine J H)) (d : Decoding X H) :
    YieldsFrom head d (decodedBlocks codec head expected d lines) := by
  induction lines generalizing d with
  | nil =>
    unfold decodedBlocks
    cases hcurrent : d.current with
    | none => exact ⟨List.Pairwise.nil, (fun _ hb => by cases hb), (fun _ hb => by cases hb), fun _ hb => by cases hb⟩
    | some open' =>
      obtain ⟨block, mutations⟩ := open'
      dsimp only
      split
      · exact ⟨List.Pairwise.nil, (fun _ hb => by cases hb), (fun _ hb => by cases hb), fun _ hb => by cases hb⟩
      · rename_i hcut
        refine ⟨List.pairwise_singleton _ _, fun b hb => ?_, (fun b hb => by cases hb), fun b hb _ => ?_⟩
        · injection hb with hb
          rw [hcurrent, ← hb]
        · rw [List.mem_singleton.1 hb]
          exact not_not.1 hcut
  | cons line lines ih =>
    unfold decodedBlocks
    cases hline : decodeLine codec head expected d line with
    | none => exact ⟨List.Pairwise.nil, (fun _ hb => by cases hb), (fun _ hb => by cases hb), fun _ hb => by cases hb⟩
    | some step =>
      obtain ⟨d', yielded⟩ := step
      have hrest := ih d'
      dsimp only
      rcases decodeLine_cases hline with ⟨rfl, hsame, hseen⟩ | ⟨rfl, hnone, hseen, block, hopen, hfloor⟩ |
        ⟨block, mutations, next, hcurrent, rfl, hopen, hlt, hseen⟩
      · refine ⟨hrest.ascending, fun b hb => ?_, hrest.last, hrest.cut⟩
        have hfirst := hrest.first b hb
        cases hd : d.current with
        | none =>
          have hd' : d'.current = none := by simpa [hd] using hsame
          rw [hd'] at hfirst
          exact fun h0 => hfirst (by omega)
        | some open' =>
          obtain ⟨block', hd', hpair⟩ : ∃ open'', d'.current = some open'' ∧ open''.1 = open'.1 := by
            simpa [hd] using hsame
          rw [hd'] at hfirst
          dsimp only at hfirst ⊢
          rw [hfirst, hpair]
      · refine ⟨hrest.ascending, fun b hb => ?_, hrest.last, hrest.cut⟩
        have hfirst := hrest.first b hb
        rw [hopen] at hfirst
        rw [hnone]
        dsimp only at hfirst ⊢
        intro h0
        rw [hfirst, hfloor h0]
      · -- the block that was open is complete
        have habove := hrest.above hopen
        refine ⟨List.pairwise_cons.2 ⟨fun b hb => lt_of_lt_of_le hlt (habove b hb), hrest.ascending⟩, fun b hb => ?_,
          fun b hb => ?_, fun b hb hlast => ?_⟩
        · injection hb with hb
          rw [hcurrent, ← hb]
        · cases hblocks : decodedBlocks codec head expected d' lines with
          | nil =>
            rw [hblocks] at hb
            cases hb
          | cons first rest =>
            rw [hblocks] at hb
            have hlast := hrest.last
            rw [hblocks] at hlast
            rcases List.mem_cons.1 hb with rfl | hb
            · rfl
            · exact hlast b hb
        · rcases List.mem_cons.1 hb with rfl | hb
          · cases hlast
          · exact hrest.cut b hb hlast

/-- **The blocks of a document** begin at the floor and ascend. -/
theorem decodedBlocks_floor (lines : List (SnapshotLine J H)) :
    ∀ b ∈ decodedBlocks codec head expected (Decoding.start : Decoding X H) lines, head.floor ≤ b.block.number := by
  have h : YieldsFrom head (Decoding.start : Decoding X H) (decodedBlocks codec head expected Decoding.start lines) :=
    decodedBlocks_yields lines Decoding.start
  intro b hb
  cases hblocks : decodedBlocks codec head expected (Decoding.start : Decoding X H) lines with
  | nil =>
    rw [hblocks] at hb
    cases hb
  | cons first rest =>
    rw [hblocks] at hb h
    have hfirst : first.block.number = head.floor := h.first first rfl rfl
    rcases List.mem_cons.1 hb with rfl | hb
    · exact hfirst.ge
    · exact hfirst ▸ ((List.pairwise_cons.1 h.ascending).1 b hb).le

end Decoded

end Etherfold
