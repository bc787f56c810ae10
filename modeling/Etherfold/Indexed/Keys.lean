import Etherfold.Indexed.Text
import Etherfold.Ledger.ObjectStore

/-!
# The keys of the indexed store

A row is keyed by its entity and the bytes of its id columns, a version by its row and the
block it opened at. Keys are ordered part by part: numbers below strings, these below bytes,
and all of them below an array.

* `rowKey_inj`, `rowKey_lt_iff`: **rows are told apart and ordered as their ids are**, where
  these are well formed.
* `startingWith_iff`, `asOfRange_iff`: what the ranges of the reads hold.
-/

namespace Etherfold

/-- A part of a key. -/
inductive KeyPart where
  | number (n : ℤ)
  | string (name : String)
  | binary (bytes : List UInt8)
  | emptyArray
  deriving DecidableEq, Repr

/-- What parts are ordered by: their kind first. No range holds two names, so what orders names
does not show. -/
def KeyPart.order : KeyPart → List ℤ
  | number n => [0, n]
  | string name => 1 :: name.toList.map fun c => (c.toNat : ℤ)
  | binary bytes => 2 :: bytes.map fun b => (b.toNat : ℤ)
  | emptyArray => [3]

theorem KeyPart.order_injective : Function.Injective KeyPart.order := by
  have hbytes : Function.Injective (List.map fun b : UInt8 => (b.toNat : ℤ)) :=
    List.map_injective_iff.2 fun a b h => UInt8.toNat_inj.1 (by exact_mod_cast h)
  have hchars : Function.Injective (List.map fun c : Char => (c.toNat : ℤ)) :=
    List.map_injective_iff.2 fun a b h => Char.toNat_inj.1 (by exact_mod_cast h)
  intro a b h
  cases a <;> cases b <;> simp only [KeyPart.order, List.cons.injEq] at h <;> try omega
  · rw [h.2.1]
  · rw [String.toList_inj.1 (hchars h.2)]
  · rw [hbytes h.2]
  · rfl

instance : LinearOrder KeyPart := LinearOrder.lift' KeyPart.order KeyPart.order_injective

theorem KeyPart.lt_iff (a b : KeyPart) : a < b ↔ a.order < b.order := Iff.rfl

/-- A key, compared part by part. -/
abbrev Key := List KeyPart

/-- The key of one business key's row. -/
def rowKey (key : EntityKey) : Key := .string key.entity :: key.id.map fun text => .binary (encode text)

/-- The key of one version of a row. -/
def versionKey (row : Key) (lower : ℤ) : Key := row ++ [.number lower]

/-- The row a version key belongs to. -/
def rowOfVersionKey (key : Key) : Key := key.dropLast

/-- Every key that starts with `key`. -/
def startingWith (key : Key) (k : Key) : Bool := key ≤ k && k ≤ key ++ [.emptyArray]

/-- The versions of one row that opened at or before a height. -/
def asOfRange (row : Key) (height : ℤ) (k : Key) : Bool := row ≤ k && k ≤ versionKey row height

/-! ### Rows -/

/-- A key made of parts above every number and below every array. -/
def IsRow (row : Key) : Prop := ∀ part ∈ row, (∀ n : ℤ, .number n < part) ∧ part < KeyPart.emptyArray

theorem isRow_rowKey (key : EntityKey) : IsRow (rowKey key) := by
  intro part hpart
  unfold rowKey at hpart
  rcases List.mem_cons.1 hpart with rfl | hpart
  · refine ⟨fun n => ?_, ?_⟩ <;> simp [KeyPart.lt_iff, KeyPart.order, List.cons_lt_cons_iff]
  · obtain ⟨text, -, rfl⟩ := List.mem_map.1 hpart
    refine ⟨fun n => ?_, ?_⟩ <;> simp [KeyPart.lt_iff, KeyPart.order, List.cons_lt_cons_iff]

@[simp] theorem rowOfVersionKey_versionKey (row : Key) (lower : ℤ) : rowOfVersionKey (versionKey row lower) = row :=
  List.dropLast_concat

theorem versionKey_inj {row row' : Key} {lower lower' : ℤ} :
    versionKey row lower = versionKey row' lower' ↔ row = row' ∧ lower = lower' := by
  unfold versionKey
  constructor
  · intro h
    have hboth := List.append_inj' h rfl
    simpa using hboth
  · rintro ⟨rfl, rfl⟩
    rfl

theorem number_lt_iff (m n : ℤ) : KeyPart.number m < .number n ↔ m < n := by
  rw [KeyPart.lt_iff]
  simp [KeyPart.order, List.cons_lt_cons_iff]

/-- **Versions are ordered by row, then by where they opened.** -/
theorem versionKey_lt_iff {row row' : Key} (h : IsRow row) (h' : IsRow row') (lower lower' : ℤ) :
    versionKey row lower < versionKey row' lower' ↔ row < row' ∨ row = row' ∧ lower < lower' := by
  unfold versionKey
  rw [Code.append_last_lt_iff row row' (fun z hz => (h z hz).1 lower') fun z hz => (h' z hz).1 lower, number_lt_iff]

/-- What the range of an as-of read holds. -/
theorem asOfRange_iff {row row' : Key} (h : IsRow row) (h' : IsRow row') (lower height : ℤ) :
    asOfRange row height (versionKey row' lower) = true ↔ row' = row ∧ lower ≤ height := by
  have hbetween := Code.between_iff_last (x := .number lower) (y := .number height) row row'
    (fun z hz => ⟨(h z hz).1 lower, (h z hz).1 height⟩) fun z hz => (h' z hz).1 height
  unfold asOfRange
  rw [Bool.and_eq_true, decide_eq_true_eq, decide_eq_true_eq]
  unfold versionKey
  rw [hbetween, ← not_lt, number_lt_iff, not_lt]

/-- What the range of a listing holds. -/
theorem startingWith_iff {prefixKey row : Key} (h : IsRow row) :
    startingWith prefixKey row = true ↔ prefixKey <+: row := by
  unfold startingWith
  rw [Bool.and_eq_true, decide_eq_true_eq, decide_eq_true_eq]
  exact Code.between_iff_prefix prefixKey row fun part hpart => (h part hpart).2

/-- What the range of a listing holds of versions. -/
theorem startingWith_versionKey {prefixKey row : Key} (hp : IsRow prefixKey) (h : IsRow row) (lower : ℤ) :
    startingWith prefixKey (versionKey row lower) = true ↔ prefixKey <+: row := by
  have hbelow : ∀ part ∈ versionKey row lower, part < KeyPart.emptyArray := by
    intro part hpart
    rcases List.mem_append.1 hpart with hpart | hpart
    · exact (h part hpart).2
    · rw [List.mem_singleton.1 hpart]
      simp [KeyPart.lt_iff, KeyPart.order, List.cons_lt_cons_iff]
  unfold startingWith
  rw [Bool.and_eq_true, decide_eq_true_eq, decide_eq_true_eq, Code.between_iff_prefix _ _ hbelow]
  unfold versionKey
  rw [List.prefix_concat_iff]
  refine or_iff_right fun heq => ?_
  -- no prefix ends on a number
  have hlast := (hp (.number lower) (by rw [heq]; simp)).1 lower
  exact lt_irrefl _ hlast

/-! ### Well-formed ids -/

/-- Every id column is a text without a lone half of a pair. -/
def EntityKey.WellFormed (key : EntityKey) : Prop := ∀ text ∈ key.id, isWellFormed text = true

instance (key : EntityKey) : Decidable key.WellFormed := by
  unfold EntityKey.WellFormed
  infer_instance

theorem encodings_inj {a b : List Text} (ha : ∀ text ∈ a, isWellFormed text = true)
    (hb : ∀ text ∈ b, isWellFormed text = true)
    (h : a.map (fun text => KeyPart.binary (encode text)) = b.map fun text => KeyPart.binary (encode text)) : a = b := by
  induction a generalizing b with
  | nil => simpa using h.symm
  | cons x a ih =>
    cases b with
    | nil => simp at h
    | cons y b =>
      obtain ⟨hx, ha⟩ := List.forall_mem_cons.1 ha
      obtain ⟨hy, hb⟩ := List.forall_mem_cons.1 hb
      rw [List.map_cons, List.map_cons, List.cons.injEq, KeyPart.binary.injEq] at h
      rw [encode_inj hx hy h.1, ih ha hb h.2]

/-- **Well-formed ids have rows of their own.** -/
theorem rowKey_inj {a b : EntityKey} (ha : a.WellFormed) (hb : b.WellFormed) (h : rowKey a = rowKey b) : a = b := by
  unfold rowKey at h
  rw [List.cons.injEq, KeyPart.string.injEq] at h
  have hid := encodings_inj ha hb h.2
  cases a
  cases b
  simp only at h hid
  rw [h.1, hid]

/-- **Rows of one entity are ordered as their ids are.** -/
theorem rowKey_lt_iff {a b : EntityKey} (ha : a.WellFormed) (hb : b.WellFormed) (h : a.entity = b.entity) :
    rowKey a < rowKey b ↔ idOrder a.id < idOrder b.id := by
  unfold rowKey EntityKey.WellFormed at *
  rw [h, List.cons_lt_cons_iff]
  simp only [lt_self_iff_false, true_and, false_or]
  generalize a.id = ids at ha
  generalize b.id = ids' at hb
  clear h
  induction ids generalizing ids' with
  | nil =>
    cases ids' with
    | nil => simp [idOrder]
    | cons y ids' => simp [idOrder]
  | cons x ids ih =>
    cases ids' with
    | nil => simp [idOrder]
    | cons y ids' =>
      obtain ⟨hx, ha⟩ := List.forall_mem_cons.1 ha
      obtain ⟨hy, hb⟩ := List.forall_mem_cons.1 hb
      have htail := ih ha ids' hb
      have hlt : KeyPart.binary (encode x) < .binary (encode y) ↔ x.map codePointRank < y.map codePointRank := by
        rw [KeyPart.lt_iff, ← byteOrder_lt_iff hx hy]
        simp [KeyPart.order, byteOrder]
      have heq : KeyPart.binary (encode x) = .binary (encode y) ↔ x.map codePointRank = y.map codePointRank := by
        rw [KeyPart.binary.injEq]
        refine ⟨fun h => by rw [encode_inj hx hy h], fun h => ?_⟩
        have hunit : Function.Injective codePointRank := fun _ _ => codePointRank_inj.1
        rw [hunit.list_map h]
      unfold idOrder at htail ⊢
      rw [List.map_cons, List.map_cons, List.map_cons, List.map_cons, List.cons_lt_cons_iff, List.cons_lt_cons_iff,
        hlt, heq, htail]

/-- What starts with the key of an id prefix. -/
theorem rowKey_prefix_iff {entity : String} {values : List Text} {key : EntityKey}
    (hv : ∀ text ∈ values, isWellFormed text = true) (hk : key.WellFormed) :
    rowKey ⟨entity, values⟩ <+: rowKey key ↔ key.entity = entity ∧ hasIdPrefix key.id values = true := by
  unfold rowKey hasIdPrefix EntityKey.WellFormed at *
  rw [List.cons_prefix_cons, KeyPart.string.injEq, eq_comm, List.isPrefixOf_iff_prefix]
  refine and_congr_right fun hentity => ?_
  clear hentity
  generalize key.id = ids at hk
  induction values generalizing ids with
  | nil => simp
  | cons x values ih =>
    cases ids with
    | nil => simp
    | cons y ids =>
      obtain ⟨hx, hv⟩ := List.forall_mem_cons.1 hv
      obtain ⟨hy, hk⟩ := List.forall_mem_cons.1 hk
      rw [List.map_cons, List.map_cons, List.cons_prefix_cons, List.cons_prefix_cons, KeyPart.binary.injEq,
        ih hv ids hk]
      refine and_congr_left fun _ => ⟨fun h => encode_inj hx hy h, fun h => by rw [h]⟩

end Etherfold
