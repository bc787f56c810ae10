import Etherfold.Server.Framing

/-!
# The feed cursor

The position a consumer holds between polls is an opaque text: an envelope as JSON, framed. What
is handed back is opened, and whatever is not an envelope in a frame is refused in one way. The
position is the view's own and is not interpreted here: it is numbers and strings.

* `decodeFeedCursor_frame`: what a framed payload decodes to.
* `decodeFeedCursor_encode_iff`: **an envelope is read back exactly when its numbers are finite**.
-/

namespace Etherfold

variable {N : Type}

/-- A member of a view's position. -/
inductive PositionValue (N : Type) where
  | number (value : N)
  | string (text : Text)
  deriving DecidableEq, Repr

/-- What a cursor carries. The members of the position are in the order of the object's. -/
structure FeedCursorEnvelope (N : Type) where
  view : Text
  indexer : Text
  stream : Text
  position : List (Text × PositionValue N)
  deriving DecidableEq, Repr

/-- The runtime's JSON and its decoder of UTF-8, with the number of the envelope's version. -/
structure Runtime (N : Type) where
  finite : N → Bool
  cursorVersion : N
  stringify : JsonValue N → Text
  parse : Text → Option (JsonValue N)
  decodeUtf8 : List UInt8 → Option Text

namespace PositionValue

def toJson : PositionValue N → JsonValue N
  | number value => .number value
  | string text => .string text

/-- What JSON text says of it: a number that is not finite is written null. -/
def spelled (finite : N → Bool) : PositionValue N → JsonValue N
  | number value => if finite value then .number value else .null
  | string text => .string text

def Finite (finite : N → Bool) : PositionValue N → Prop
  | number value => finite value = true
  | string _ => True

end PositionValue

namespace FeedCursorEnvelope

/-- The envelope around a position, as JSON. -/
def around (version : N) (e : FeedCursorEnvelope N) (position : List (Text × JsonValue N)) : JsonValue N :=
  .object [(codeUnits "v", .number version), (codeUnits "w", .string e.view), (codeUnits "i", .string e.indexer),
    (codeUnits "s", .string e.stream), (codeUnits "a", .object position)]

def toJson (version : N) (e : FeedCursorEnvelope N) : JsonValue N :=
  e.around version (e.position.map fun member => (member.1, member.2.toJson))

/-- What the JSON text of an envelope says. -/
def spelled (finite : N → Bool) (version : N) (e : FeedCursorEnvelope N) : JsonValue N :=
  e.around version (e.position.map fun member => (member.1, member.2.spelled finite))

/-- Every number of the position is finite. -/
def Finite (finite : N → Bool) (e : FeedCursorEnvelope N) : Prop := ∀ member ∈ e.position, member.2.Finite finite

end FeedCursorEnvelope

/-- The bytes of a payload behind its checksum. -/
def frame (payload : List UInt8) : List UInt8 :=
  Word.splitBytes (fnv1a32 payload) ++ xorWithKeystream payload (fnv1a32 payload)

def encodeFeedCursor (r : Runtime N) (e : FeedCursorEnvelope N) : Text :=
  base64urlEncode (frame (encode (r.stringify (e.toJson r.cursorVersion))))

/-- A member of a position: a number or a string, and nothing else. -/
def positionValue : JsonValue N → Option (PositionValue N)
  | .number value => some (.number value)
  | .string text => some (.string text)
  | _ => none

def positionMember (member : Text × JsonValue N) : Option (Text × PositionValue N) :=
  (positionValue member.2).map fun value => (member.1, value)

/-- `decoded` as an envelope of this version. -/
def envelopeOf [DecidableEq N] (version : N) : JsonValue N → Option (FeedCursorEnvelope N)
  | .object members =>
    match members.lookup (codeUnits "v"), members.lookup (codeUnits "w"), members.lookup (codeUnits "i"),
      members.lookup (codeUnits "s"), members.lookup (codeUnits "a") with
    | some (.number v), some (.string w), some (.string i), some (.string s), some (.object a) =>
      if v = version then
        (a.mapM positionMember).map fun position => ⟨w, i, s, position⟩
      else none
    | _, _, _, _, _ => none
  | _ => none

/-- **The envelope of a cursor**, or none. -/
def decodeFeedCursor [DecidableEq N] (r : Runtime N) (cursor : Text) : Option (FeedCursorEnvelope N) :=
  match base64urlDecode cursor with
  | some (b0 :: b1 :: b2 :: b3 :: b4 :: rest) =>
    let checksum := Word.joinBytes b0 b1 b2 b3
    let payload := xorWithKeystream (b4 :: rest) checksum
    if fnv1a32 payload = checksum then ((r.decodeUtf8 payload).bind r.parse).bind (envelopeOf r.cursorVersion) else none
  | _ => none

theorem encode_ne_nil {text : Text} (h : text ≠ []) : encode text ≠ [] := by
  have hutf8 : ∀ c : Char, utf8 c ≠ [] := by
    intro c
    unfold utf8
    dsimp only
    split_ifs <;> simp
  have hcons : ∀ (c : Char) (rest : List Char), (c :: rest).flatMap utf8 ≠ [] := by
    intro c rest
    rw [List.flatMap_cons]
    exact fun hnil => hutf8 c (List.append_eq_nil_iff.1 hnil).1
  unfold encode
  cases text with
  | nil => exact absurd rfl h
  | cons u rest =>
    cases rest with
    | nil => exact hcons _ _
    | cons v rest =>
      unfold characters
      split
      · exact hcons _ _
      · exact hcons _ _

variable [DecidableEq N]

/-- **What a framed payload decodes to**: checksum, keystream and spelling leave nothing behind. -/
theorem decodeFeedCursor_frame (r : Runtime N) {payload : List UInt8} (h : payload ≠ []) :
    decodeFeedCursor r (base64urlEncode (frame payload)) =
      ((r.decodeUtf8 payload).bind r.parse).bind (envelopeOf r.cursorVersion) := by
  have hframe : frame payload ≠ [] := by
    unfold frame Word.splitBytes
    simp
  have hlength : (xorWithKeystream payload (fnv1a32 payload)).length = payload.length := length_xorFrom _ _
  have hback := xorWithKeystream_involutive payload (fnv1a32 payload)
  cases hscrambled : xorWithKeystream payload (fnv1a32 payload) with
  | nil =>
    rw [hscrambled] at hlength
    exact absurd (List.length_eq_zero_iff.1 hlength.symm) h
  | cons b4 rest =>
    rw [hscrambled] at hback
    unfold decodeFeedCursor
    rw [base64urlDecode_encode hframe, frame, hscrambled]
    unfold Word.splitBytes
    dsimp only [List.cons_append, List.nil_append]
    rw [Word.joinBytes_splitBytes (fnv1a32_unsigned payload), hback, if_pos rfl]

/-- An envelope's JSON is read as the envelope when every member of its position is one. -/
theorem envelopeOf_around (version : N) (e : FeedCursorEnvelope N) (position : List (Text × JsonValue N)) :
    envelopeOf version (e.around version position) =
      (position.mapM positionMember).map fun position => ⟨e.view, e.indexer, e.stream, position⟩ := by
  have hw : (codeUnits "w" == codeUnits "v") = false := by decide
  have hiv : (codeUnits "i" == codeUnits "v") = false := by decide
  have hiw : (codeUnits "i" == codeUnits "w") = false := by decide
  have hsv : (codeUnits "s" == codeUnits "v") = false := by decide
  have hsw : (codeUnits "s" == codeUnits "w") = false := by decide
  have hsi : (codeUnits "s" == codeUnits "i") = false := by decide
  have hav : (codeUnits "a" == codeUnits "v") = false := by decide
  have haw : (codeUnits "a" == codeUnits "w") = false := by decide
  have hai : (codeUnits "a" == codeUnits "i") = false := by decide
  have has : (codeUnits "a" == codeUnits "s") = false := by decide
  unfold envelopeOf FeedCursorEnvelope.around
  simp only [List.lookup_cons, beq_self_eq_true, hw, hiv, hiw, hsv, hsw, hsi, hav, haw, hai, has, if_true]

omit [DecidableEq N] in
/-- A member that is spelt out is read back when its number is finite, and not otherwise. -/
theorem positionMember_spelled (finite : N → Bool) (member : Text × PositionValue N) :
    positionMember (member.1, member.2.spelled finite) = some member ↔ member.2.Finite finite := by
  obtain ⟨name, held⟩ := member
  unfold positionMember PositionValue.spelled PositionValue.Finite
  cases held with
  | number value =>
    dsimp only
    by_cases hfinite : finite value = true
    · simp [positionValue, hfinite]
    · simp [positionValue, hfinite]
  | string text => simp [positionValue]

theorem envelopeOf_spelled (finite : N → Bool) (version : N) (e : FeedCursorEnvelope N) :
    envelopeOf version (e.spelled finite version) = some e ↔ e.Finite finite := by
  have hmembers : (e.position.map fun member => (member.1, member.2.spelled finite)).mapM positionMember =
      some e.position ↔ e.Finite finite := by
    rw [mapM_eq_some_iff, List.forall₂_map_left_iff, List.forall₂_same]
    simp only [positionMember_spelled]
    rfl
  unfold FeedCursorEnvelope.spelled
  rw [envelopeOf_around, Option.map_eq_some_iff, ← hmembers]
  constructor
  · rintro ⟨position, hposition, he⟩
    obtain rfl : position = e.position := congrArg FeedCursorEnvelope.position he
    exact hposition
  · exact fun h => ⟨e.position, h, rfl⟩

/-- JSON and UTF-8 as they are documented, for one envelope: the text of an object is not empty,
it is well-formed and read back from its bytes, and it parses to what it spells. -/
structure Runtime.RoundTrips (r : Runtime N) (e : FeedCursorEnvelope N) : Prop where
  printed : r.stringify (e.toJson r.cursorVersion) ≠ []
  decoded : r.decodeUtf8 (encode (r.stringify (e.toJson r.cursorVersion))) =
    some (r.stringify (e.toJson r.cursorVersion))
  parsed : r.parse (r.stringify (e.toJson r.cursorVersion)) = some (e.spelled r.finite r.cursorVersion)

/-- **An envelope is read back exactly when its numbers are finite.** -/
theorem decodeFeedCursor_encode_iff {r : Runtime N} {e : FeedCursorEnvelope N} (h : r.RoundTrips e) :
    decodeFeedCursor r (encodeFeedCursor r e) = some e ↔ e.Finite r.finite := by
  unfold encodeFeedCursor
  rw [decodeFeedCursor_frame r (encode_ne_nil h.printed), h.decoded, Option.bind_some, h.parsed, Option.bind_some]
  exact envelopeOf_spelled _ _ _

/-- **Feed cursors round-trip and their framing is exact.** A cursor that is accepted encodes to
one that decodes to the same exactly when its numbers are finite. -/
theorem feed_cursor_sound (r : Runtime N) :
    (∀ e : FeedCursorEnvelope N, e.Finite r.finite → r.RoundTrips e →
      decodeFeedCursor r (encodeFeedCursor r e) = some e) ∧
    (∀ (bytes : List UInt8) (seed : ℤ), xorWithKeystream (xorWithKeystream bytes seed) seed = bytes) ∧
    (∀ bytes : List UInt8, bytes ≠ [] → base64urlDecode (base64urlEncode bytes) = some bytes) ∧
    ∀ (cursor : Text) (e : FeedCursorEnvelope N), decodeFeedCursor r cursor = some e → r.RoundTrips e →
      (decodeFeedCursor r (encodeFeedCursor r e) = some e ↔ e.Finite r.finite) := by
  refine ⟨?_, ?_, ?_, ?_⟩
  · intro e hfinite hround
    exact (decodeFeedCursor_encode_iff hround).2 hfinite
  · intro bytes seed
    exact xorWithKeystream_involutive bytes seed
  · intro bytes hne
    exact base64urlDecode_encode hne
  · intro cursor e _ hround
    exact decodeFeedCursor_encode_iff hround

/-! ### A cursor made by hand -/

/-- A position in the stream view; `none` is the infinity a numeral too large is read as. -/
def seqEnvelope (seq : Option ℕ) : FeedCursorEnvelope (Option ℕ) :=
  ⟨codeUnits "stream", codeUnits "x", codeUnits "y", [(codeUnits "seq", .number seq)]⟩

/-- Its JSON text around a numeral. -/
def seqText (numeral : String) : Text :=
  codeUnits "\x7b\"v\":1,\"w\":\"stream\",\"i\":\"x\",\"s\":\"y\",\"a\":\x7b\"seq\":" ++ codeUnits numeral ++
    codeUnits "\x7d\x7d"

/-- The runtime on these texts. -/
def seqRuntime : Runtime (Option ℕ) where
  finite := Option.isSome
  cursorVersion := some 1
  stringify
    | .object [_, _, _, _, (_, .object [(_, .number (some seq))])] => seqText (toString seq)
    | _ => seqText "null"
  parse text :=
    if text = seqText "1e999" then some ((seqEnvelope none).toJson (some 1))
    else if text = seqText "null" then some ((seqEnvelope none).spelled Option.isSome (some 1))
    else if text = seqText "7" then some ((seqEnvelope (some 7)).toJson (some 1))
    else none
  decodeUtf8 bytes := [seqText "1e999", seqText "null", seqText "7"].find? fun text => encode text = bytes

theorem seqRuntime_seven : seqRuntime.RoundTrips (seqEnvelope (some 7)) :=
  ⟨by decide, by decide, rfl⟩

theorem seqRuntime_infinite : seqRuntime.RoundTrips (seqEnvelope none) :=
  ⟨by decide, by decide, rfl⟩

theorem feed_cursor_sound_seven :
    decodeFeedCursor seqRuntime (encodeFeedCursor seqRuntime (seqEnvelope (some 7))) = some (seqEnvelope (some 7)) :=
  (feed_cursor_sound seqRuntime).1 _ (by simp [FeedCursorEnvelope.Finite, seqEnvelope, PositionValue.Finite, seqRuntime])
    seqRuntime_seven

/-- A cursor made by hand whose position is too large a numeral is accepted, and what it is read
as is written as a cursor that is refused. -/
theorem hand_made_cursor : ∃ (cursor : Text) (e : FeedCursorEnvelope (Option ℕ)),
    decodeFeedCursor seqRuntime cursor = some e ∧ seqRuntime.RoundTrips e ∧
      decodeFeedCursor seqRuntime (encodeFeedCursor seqRuntime e) = none := by
  have hne : encode (seqText "1e999") ≠ [] := encode_ne_nil (by decide)
  have hread : seqRuntime.decodeUtf8 (encode (seqText "1e999")) = some (seqText "1e999") := by decide
  refine ⟨base64urlEncode (frame (encode (seqText "1e999"))), seqEnvelope none, ?_, seqRuntime_infinite, ?_⟩
  · rw [decodeFeedCursor_frame seqRuntime hne, hread]
    rfl
  · have hround := seqRuntime_infinite
    unfold encodeFeedCursor
    rw [decodeFeedCursor_frame seqRuntime (encode_ne_nil hround.printed), hround.decoded, Option.bind_some, hround.parsed]
    rfl

end Etherfold
