import Etherfold.Indexed.Text
import Etherfold.Ledger.Contiguous

/-!
# The order of ids

Texts are compared by code units, surrogates lifted above the others, and ids column by column.
A listing finds the ids that begin with the values of a prefix, sorts them and cuts.

* `compareUtf8_sign`: **texts compare as their UTF-8 bytes do**.
* `hasIdPrefix_between`: **ids with one prefix stand together**.
* `scan_block`: a listing is the beginning of a block of the full sorted listing.
-/

namespace Etherfold

open Versions

theorem agrees_compareUtf8 : Lex.Agrees compareUtf8 (List.map codePointRank) := by
  have hunit : Lex.Agrees (fun x y => codePointRank x - codePointRank y) codePointRank :=
    ⟨fun x y => by omega, fun x y => by omega⟩
  exact hunit.compare

theorem ranks_injective : Function.Injective (List.map codePointRank) :=
  List.map_injective_iff.2 fun _ _ => codePointRank_inj.1

/-- **Texts compare as their UTF-8 bytes do**, where their pairs are whole. -/
theorem compareUtf8_sign {a b : Text} (ha : isWellFormed a = true) (hb : isWellFormed b = true) :
    (compareUtf8 a b).sign = (compareBytes (encode a) (encode b)).sign := by
  apply agrees_compareUtf8.sign_eq agrees_compareBytes
  · exact (byteOrder_lt_iff ha hb).symm
  · rw [ranks_injective.eq_iff]
    refine ⟨fun h => by rw [h], fun h => ?_⟩
    exact byteOrder_inj ha hb h

theorem compareUtf8_ordered : Lex.Ordered compareUtf8 := agrees_compareUtf8.ordered ranks_injective

theorem compareIds_ordered : Lex.Ordered compareIds := agrees_compareIds.ordered fun _ _ => idOrder_inj

theorem hasIdPrefix_iff {id values : List Text} : hasIdPrefix id values = true ↔ idOrder values <+: idOrder id := by
  unfold hasIdPrefix idOrder
  rw [List.isPrefixOf_iff_prefix]
  refine ⟨fun h => h.map _, fun h => ?_⟩
  obtain ⟨rest, hrest⟩ := h
  obtain ⟨front, back, rfl, hfront, -⟩ := List.append_eq_map_iff.1 hrest
  rw [ranks_injective.list_map hfront]
  exact List.prefix_append _ _

/-- **Ids with one prefix stand together.** -/
theorem hasIdPrefix_between {values a b c : List Text} (hab : compareIds a b ≤ 0) (hbc : compareIds b c ≤ 0)
    (ha : hasIdPrefix a values = true) (hc : hasIdPrefix c values = true) : hasIdPrefix b values = true := by
  rw [hasIdPrefix_iff] at *
  exact Lex.prefix_between ha hc ((agrees_compareIds.le a b).1 hab) ((agrees_compareIds.le b c).1 hbc)

/-! ### Listings -/

variable {X H C : Type}

/-- What is listed, by id. -/
abbrev byId (a b : List Text × Version (Record X)) : Prop := compareIds a.1 b.1 ≤ 0

instance : Std.Total (byId (X := X)) := ⟨fun a b => by
  unfold byId
  rw [agrees_compareIds.le, agrees_compareIds.le]
  exact le_total _ _⟩

instance : IsTrans (List Text × Version (Record X)) byId := ⟨fun a b c => compareIds_ordered.trans a.1 b.1 c.1⟩

namespace EntityStore

/-- What a prefix finds is what is kept of everything. -/
theorem found_eq_filter (rows : List (Row EntityKey (Record X))) (entity : String) (values : List Text)
    (matching : Version (Record X) → Bool) :
    found rows entity values matching = (found rows entity [] matching).filter fun row => hasIdPrefix row.1 values := by
  unfold found
  induction rows with
  | nil => rfl
  | cons row rows ih =>
    have hall : hasIdPrefix row.key.id [] = true := rfl
    rw [List.filterMap_cons, List.filterMap_cons, ih, hall]
    cases hentity : decide (row.key.entity = entity) with
    | false => simp
    | true =>
      cases hversion : row.versions.find? matching with
      | none => simp
      | some version =>
        cases hpre : hasIdPrefix row.key.id values with
        | false => simp [hpre]
        | true => simp [hpre]

/-- **A listing is a block of the full sorted listing.** -/
theorem found_block (rows : List (Row EntityKey (Record X))) (entity : String) (values : List Text)
    (matching : Version (Record X) → Bool) :
    ∃ before behind, (found rows entity [] matching).insertionSort byId =
        before ++ (found rows entity values matching).insertionSort byId ++ behind ∧
      (∀ row ∈ before, hasIdPrefix row.1 values = false) ∧ ∀ row ∈ behind, hasIdPrefix row.1 values = false := by
  have hsorted := List.pairwise_insertionSort (byId (X := X)) (found rows entity [] matching)
  rw [found_eq_filter rows entity values, ← filter_sort]
  exact exists_block hsorted fun a b c hab hbc ha hc => hasIdPrefix_between hab hbc ha hc

/-- **A bounded listing is the beginning of that block**, and says whether the block goes on. -/
theorem scan_block {declarations : List NormalizedEntity} {s : EntityStore X H C} {entity : String}
    {idPrefix : EntityId} {limit : ℤ} {matching : Version (Record X) → Bool} {listing : Listing X}
    (h : scan declarations s entity idPrefix limit matching = .ok listing) :
    ∃ declaration values, mustGet declarations entity = .ok declaration ∧
      prefixValues declaration idPrefix = .ok values ∧
      ∃ before block behind, (found s.rows declaration.name [] matching).insertionSort byId =
          before ++ block ++ behind ∧
        (∀ row ∈ block, hasIdPrefix row.1 values = true) ∧
        (∀ row ∈ before ++ behind, hasIdPrefix row.1 values = false) ∧
        (block.take limit.toNat).mapM (fun row => readVersion declaration row.2) = .ok listing.rows ∧
        (listing.truncated = true ↔ limit.toNat < block.length) := by
  unfold scan at h
  obtain ⟨declaration, hdeclaration, h⟩ := bind_eq_ok.1 h
  obtain ⟨values, hvalues, h⟩ := bind_eq_ok.1 h
  obtain ⟨⟨⟩, -, h⟩ := bind_eq_ok.1 h
  obtain ⟨rows, hrows, h⟩ := bind_eq_ok.1 h
  cases h
  obtain ⟨before, behind, hsplit, hbefore, hbehind⟩ := found_block s.rows declaration.name values matching
  refine ⟨declaration, values, hdeclaration, hvalues, before, _, behind, hsplit, ?_, ?_, ?_, ?_⟩
  · intro row hrow
    rw [found_eq_filter, (List.perm_insertionSort _ _).mem_iff] at hrow
    exact (List.mem_filter.1 hrow).2
  · intro row hrow
    rcases List.mem_append.1 hrow with hrow | hrow
    · exact hbefore row hrow
    · exact hbehind row hrow
  · rw [mapM_eq_ok] at hrows ⊢
    have htake := List.forall₂_take limit.toNat hrows
    rw [List.take_take, Nat.min_eq_left (by omega)] at htake
    exact htake
  · have hlength : min (limit.toNat + 1) ((found s.rows declaration.name values matching).insertionSort byId).length =
        rows.length := by
      rw [← List.length_take]
      exact (mapM_eq_ok.1 hrows).length_eq
    unfold boundedListing
    rw [decide_eq_true_eq]
    omega

end EntityStore

/-- **Texts compare as their bytes, ids with one prefix stand together, and a bounded listing is
the beginning of what stands there.** -/
theorem compareUtf8_sound (X H C : Type) :
    (∀ a b : Text, isWellFormed a = true → isWellFormed b = true →
      (compareUtf8 a b).sign = (compareBytes (encode a) (encode b)).sign) ∧
    Lex.Ordered compareUtf8 ∧ Lex.Ordered compareIds ∧
    (∀ values a b c : List Text, compareIds a b ≤ 0 → compareIds b c ≤ 0 → hasIdPrefix a values = true →
      hasIdPrefix c values = true → hasIdPrefix b values = true) ∧
    ∀ (declarations : List NormalizedEntity) (s : EntityStore X H C) (entity : String) (idPrefix : EntityId) (limit : ℤ)
      (matching : Version (Record X) → Bool) (listing : Listing X),
      EntityStore.scan declarations s entity idPrefix limit matching = .ok listing →
      ∃ declaration values, mustGet declarations entity = .ok declaration ∧
        prefixValues declaration idPrefix = .ok values ∧
        (∀ row, row ∈ EntityStore.found s.rows declaration.name [] matching ↔ ∃ r ∈ s.rows,
          r.key = ⟨declaration.name, row.1⟩ ∧ r.versions.find? matching = some row.2) ∧
        ∃ before block behind, (EntityStore.found s.rows declaration.name [] matching).insertionSort byId =
            before ++ block ++ behind ∧
          (∀ row ∈ block, hasIdPrefix row.1 values = true) ∧
          (∀ row ∈ before ++ behind, hasIdPrefix row.1 values = false) ∧
          (block.take limit.toNat).mapM (fun row => readVersion declaration row.2) = .ok listing.rows ∧
          (listing.truncated = true ↔ limit.toNat < block.length) := by
  refine ⟨fun a b ha hb => compareUtf8_sign ha hb, compareUtf8_ordered, compareIds_ordered, ?_, ?_⟩
  · intro values a b c hab hbc ha hc
    exact hasIdPrefix_between hab hbc ha hc
  · intro declarations s entity idPrefix limit matching listing h
    obtain ⟨declaration, values, hdeclaration, hvalues, hblock⟩ := EntityStore.scan_block h
    refine ⟨declaration, values, hdeclaration, hvalues, fun row => ?_, hblock⟩
    rw [EntityStore.mem_found_rows]
    refine exists_congr fun r => and_congr_right fun _ => and_congr_right fun _ => ?_
    exact and_iff_right rfl

/-- Spendings by coin and place. -/
def spending : NormalizedEntity := ⟨"spending", ["coin", "place"], [], by decide, by decide, by decide⟩

/-- Two spendings of one coin, at a letter beyond the first plane and in the private use area, and one of
another. -/
def spendings : EntityStore Unit ℕ Unit :=
  let row (coin place : Text) : Row EntityKey (Record Unit) :=
    ⟨⟨"spending", [coin, place]⟩, [⟨[("coin", .text coin), ("place", .text place)], 1, none⟩]⟩
  ⟨[row [65] [0xd800, 0xdc00], row [66] [49], row [65] [0xe000]], [⟨1, 1⟩], fun _ => none, .unbounded, none, some 1⟩

/-- A letter beyond the first plane stands above the private use area, as its bytes do, also where one
spending of the coin is listed. -/
theorem compareUtf8_sound_pair : (compareUtf8 [0xd800, 0xdc00] [0xe000]).sign =
      (compareBytes (encode [0xd800, 0xdc00]) (encode [0xe000])).sign ∧
    ∃ listing, EntityStore.scan [spending] spendings "spending" [("coin", [65])] 1 (·.upper.isNone) = .ok listing ∧
      listing.rows.map (·.take 2) = [[("coin", .text [65]), ("place", .text [0xe000])]] ∧
      ∃ before block behind, (EntityStore.found spendings.rows "spending" [] (·.upper.isNone)).insertionSort byId =
          before ++ block ++ behind ∧ (∀ row ∈ block, hasIdPrefix row.1 [[65]] = true) ∧ 1 < block.length := by
  obtain ⟨hsign, -, -, -, hlisting⟩ := compareUtf8_sound Unit ℕ Unit
  refine ⟨hsign _ _ (by decide) (by decide), _, rfl, by decide, ?_⟩
  obtain ⟨declaration, values, hdeclaration, hvalues, -, before, block, behind, hsplit, hblock, -, -, htruncated⟩ :=
    hlisting [spending] spendings "spending" [("coin", [65])] 1 (·.upper.isNone) _ rfl
  cases hdeclaration
  cases hvalues
  exact ⟨before, block, behind, hsplit, hblock, htruncated.1 rfl⟩

end Etherfold
