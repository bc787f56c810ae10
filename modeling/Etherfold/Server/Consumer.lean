import Etherfold.Server.Standing

/-!
# A consumer of the canonical view

One request is several reads, and the engine may append between any two of them, and
between the requests.

* `Feed`: the stream, one consumer and its request in flight.
* `Reach`: the runs of appends and reads, in any order; a page is served only in the
  states that a given condition admits.
* `PageSound`: the condition under which a page is sound.
* `consumer_exact`: **a consumer whose pages are all sound holds exactly the standing
  rows at or below its position**, whenever its cursor's row stands.
-/

namespace Etherfold

open Ledger

variable {H D : Type} {C : Chain H D}

/-- Where a request stands. -/
inductive Request where
  | idle
  /-- The mark is read. -/
  | marked (gate limit mark : ℕ)
  /-- The cursor is still canonical, or carries no hash to check. -/
  | validated (gate limit mark : ℕ)
  /-- The cursor's row no longer stands. -/
  | stale (mark : ℕ)
  deriving DecidableEq, Repr

/-- The stream and one consumer of its canonical view. -/
structure Feed (C : Chain H D) where
  cycles : List (Cycle C)
  entries : List (LogEvent H D)
  cursor : Option (CanonicalCursor H)
  request : Request

/-- Nothing appended, nothing read. -/
def Feed.start : Feed C := ⟨[], [], none, .idle⟩

/-- The position a request reads after. -/
def afterOf (cursor : Option (CanonicalCursor H)) : CanonicalPosition :=
  (cursor.map (·.toCanonicalPosition)).getD canonicalStartPosition

variable [DecidableEq H]

/-- The emission table as it stands. -/
def Feed.table (s : Feed C) : List (EmissionRow H D) := emissionTable (deltas s.cycles)

/-- The check of the cursor: only a cursor with a hash is checked. -/
def Feed.validate (s : Feed C) (gate limit mark : ℕ) : Request :=
  match s.cursor with
  | none => .validated gate limit mark
  | some cursor =>
    match cursor.blockHash with
    | none => .validated gate limit mark
    | some x =>
      if isStillCanonical s.table cursor.toCanonicalPosition x then .validated gate limit mark
      else .stale mark

/-- The page read of a request. -/
def Feed.pageRead (s : Feed C) (gate limit : ℕ) : CanonicalPage H D :=
  readCanonicalView s.table gate (afterOf s.cursor) limit

/-- The cursor a page hands out: the row it ends on, or where the consumer was. -/
def Feed.pageCursor (s : Feed C) (gate limit mark : ℕ) : CanonicalCursor H :=
  match (s.pageRead gate limit).last with
  | some (position, x) => ⟨position, some x, mark⟩
  | none => ⟨afterOf s.cursor, s.cursor.bind (·.blockHash), mark⟩

/-- The consumer takes a page. -/
def Feed.page (s : Feed C) (gate limit mark : ℕ) : Feed C :=
  { s with
    entries := s.entries ++ (s.pageRead gate limit).entries
    cursor := some (s.pageCursor gate limit mark)
    request := .idle }

/-- The consumer is sent back to the fork block, and drops what it has from there on. -/
def Feed.rewind (s : Feed C) (cursor : CanonicalCursor H) (mark : ℕ) : Feed C :=
  { s with
    entries := s.entries.filter (·.blockNumber < forkBlock s.table cursor)
    cursor := some ⟨⟨forkBlock s.table cursor, -1⟩, none, mark⟩
    request := .idle }

/-- **The runs of appends and reads.** The engine appends the deltas of a run over linked
views whose reorgs each take back a log at their lowest changed height; a page is served
only in a state `cond` admits. -/
inductive Reach (parent : H → H) (d f : ℕ) (cond : Feed C → Prop) : Feed C → Prop
  | start : Reach parent d f cond .start
  | append {s : Feed C} {v : View C} {b : ℕ} {r : Appended H D} (run : Reach parent d f cond s)
      (linked : v.Linked parent) (follows : ∀ k ∈ s.cycles.getLast?, Follows f k.view v)
      (from_le : getFromBlock (cursorAfter (deltas s.cycles)) d f ≤ b) (le_tip : b ≤ v.tip)
      (derived : generateStreamToAppend (cursorAfter (deltas s.cycles)) d
        (v.getLogs (getFromBlock (cursorAfter (deltas s.cycles)) d f) b)
        ⟨v.tip, getFromBlock (cursorAfter (deltas s.cycles)) d f, b, f⟩ = .ok r)
      (fork : ForkRetracted s.cycles ⟨v, b, r⟩) :
      Reach parent d f cond { s with cycles := s.cycles ++ [⟨v, b, r⟩] }
  | mark {s : Feed C} {gate limit : ℕ} (run : Reach parent d f cond s) (idle : s.request = .idle) :
      Reach parent d f cond { s with request := .marked gate limit (readStreamHighWaterMark s.table) }
  | validate {s : Feed C} {gate limit mark : ℕ} (run : Reach parent d f cond s)
      (marked : s.request = .marked gate limit mark) :
      Reach parent d f cond { s with request := s.validate gate limit mark }
  | rewind {s : Feed C} {cursor : CanonicalCursor H} {mark : ℕ} (run : Reach parent d f cond s)
      (stale : s.request = .stale mark) (presented : s.cursor = some cursor) :
      Reach parent d f cond (s.rewind cursor mark)
  | page {s : Feed C} {gate limit mark : ℕ} (run : Reach parent d f cond s)
      (validated : s.request = .validated gate limit mark) (sound : cond s) :
      Reach parent d f cond (s.page gate limit mark)
  | lost {s : Feed C} (run : Reach parent d f cond s) : Reach parent d f cond { s with request := .idle }

/-- **A sound page read**: the cursor's row stands when the page is read; a cursor without a
hash has seen nothing taken back below its block since its mark. -/
def PageSound (s : Feed C) : Prop :=
  ∀ cursor ∈ s.cursor,
    match cursor.blockHash with
    | some x => isStillCanonical s.table cursor.toCanonicalPosition x = true
    | none => ∀ F ∈ forkBlockSince s.table cursor.since, cursor.blockNumber ≤ F

/-- **What the consumer is promised**: while its cursor's row stands, it holds the standing
rows at or below its position, in order, and nothing else. -/
def Feed.Exact (s : Feed C) : Prop :=
  ∀ cursor ∈ s.cursor, ∀ x ∈ cursor.blockHash,
    isStillCanonical s.table cursor.toCanonicalPosition x = true →
      s.entries = ((aliveRows s.table).filter fun e => e.key ≤ cursor.key).insertionSort
        fun e e' => e.key ≤ e'.key

/-! ### What the consumer's state says about the stream -/

/-- Nothing below `F` was taken back after the first `n` entries. -/
def NoneBelow (es : List (LogEvent H D)) (n F : ℕ) : Prop :=
  ∀ e ∈ es.drop n, e.removed = true → F ≤ e.blockNumber

/-- A cursor with a hash: the consumer holds the past of that block up to its position, and
below any height that nothing was taken back under since the mark that past still lives. -/
structure Seen (C : Chain H D) (parent : H → H) (d : ℕ) (es : List (LogEvent H D)) (bound : ℕ)
    (L : Finset H) (c : CanonicalCursor H) (x : H) (entries : List (LogEvent H D)) : Prop where
  log : ∃ e ∈ C.logsOf x, e.key = c.key
  mem : ∀ e, e ∈ entries ↔
    (e ∈ C.logsOf e.blockHash ∧ Under C parent d e.blockHash x) ∧ e.key ≤ c.key
  taken : x ∈ L ∨ ∃ e ∈ es.drop c.since, e.removed = true ∧ e.blockNumber = C.numberOf x
  below : ∀ F ≤ C.numberOf x, NoneBelow es c.since F →
    F ≤ bound ∧ ∀ y, C.numberOf y < F → (y ∈ L ↔ Under C parent d y x)

/-- A cursor without a hash: unless something below its block was taken back since the mark,
the consumer holds what lives below it. -/
structure Rewound (C : Chain H D) (es : List (LogEvent H D)) (bound : ℕ) (L : Finset H)
    (c : CanonicalCursor H) (entries : List (LogEvent H D)) : Prop where
  start : c.logIndex = -1
  low : ∀ e ∈ entries, e.blockNumber < c.blockNumber
  mem : NoneBelow es c.since c.blockNumber → c.blockNumber ≤ bound ∧
    ∀ e, e.blockNumber < c.blockNumber → (e ∈ entries ↔ e.blockHash ∈ L ∧ e ∈ C.logsOf e.blockHash)

/-- The consumer's cursor, of either kind. -/
def CursorOk (C : Chain H D) (parent : H → H) (d : ℕ) (es : List (LogEvent H D)) (bound : ℕ)
    (L : Finset H) (entries : List (LogEvent H D)) : Option (CanonicalCursor H) → Prop
  | none => entries = []
  | some c => c.since ≤ es.length ∧
    match c.blockHash with
    | some x => Seen C parent d es bound L c x entries
    | none => Rewound C es bound L c entries

/-- A request knows its mark, and a stale one knows of the retraction that made it so. -/
def RequestOk (C : Chain H D) (es : List (LogEvent H D)) (cursor : Option (CanonicalCursor H)) :
    Request → Prop
  | .idle => True
  | .marked _ _ mark => mark ≤ es.length
  | .validated _ _ mark => mark ≤ es.length
  | .stale mark => mark ≤ es.length ∧ ∃ c ∈ cursor, ∃ x ∈ c.blockHash,
    ∃ e ∈ es.drop c.since, e.removed = true ∧ e.blockNumber = C.numberOf x

/-- **The invariant of the runs.** -/
structure FeedInv (parent : H → H) (d f : ℕ) (s : Feed C) (ops : List (Op H)) (ws : List H) : Prop where
  stack : Stack parent d f s.cycles ops ws
  sorted : Paging.Sorted LogEvent.key s.entries
  cursor : CursorOk C parent d (emitted (deltas s.cycles)) (coveredBelow s.cycles) (held ∅ ops)
    s.entries s.cursor
  request : RequestOk C (emitted (deltas s.cycles)) s.cursor s.request

/-! ### Appending -/

section Append

variable {parent : H → H} {d bound bound' n : ℕ} {es stream : List (LogEvent H D)} {L L' : Finset H}
  {c : CanonicalCursor H} {x : H} {entries : List (LogEvent H D)}

omit [DecidableEq H] in
/-- What an append may change: below a covered height that it takes nothing back under,
nothing; and a block that falls is taken back by an entry at its height. -/
structure Extends (C : Chain H D) (stream : List (LogEvent H D)) (bound bound' : ℕ)
    (L L' : Finset H) : Prop where
  stable : ∀ F ≤ bound, (∀ e ∈ stream, e.removed = true → F ≤ e.blockNumber) →
    F ≤ bound' ∧ ∀ x, C.numberOf x < F → (x ∈ L' ↔ x ∈ L)
  taken : ∀ x ∈ L, x ∉ L' → ∃ e ∈ stream, e.removed = true ∧ e.blockNumber = C.numberOf x

omit [DecidableEq H] in
theorem noneBelow_append (hn : n ≤ es.length) {F : ℕ} : NoneBelow (es ++ stream) n F ↔
    NoneBelow es n F ∧ ∀ e ∈ stream, e.removed = true → F ≤ e.blockNumber := by
  unfold NoneBelow
  rw [List.drop_append_of_le_length hn]
  simp only [List.mem_append, or_imp, forall_and]

omit [DecidableEq H] in
theorem mem_drop_append (hn : n ≤ es.length) {e : LogEvent H D} (he : e ∈ es.drop n) :
    e ∈ (es ++ stream).drop n := by
  rw [List.drop_append_of_le_length hn]
  exact List.mem_append_left _ he

omit [DecidableEq H] in
theorem Seen.append (h : Seen C parent d es bound L c x entries) (hn : c.since ≤ es.length)
    (hex : Extends C stream bound bound' L L') : Seen C parent d (es ++ stream) bound' L' c x entries where
  log := h.log
  mem := h.mem
  taken := by
    by_cases hx : x ∈ L'
    · exact Or.inl hx
    refine Or.inr ?_
    rcases h.taken with hxL | ⟨e, he, hrem, hnum⟩
    · obtain ⟨e, he, hrem, hnum⟩ := hex.taken x hxL hx
      refine ⟨e, ?_, hrem, hnum⟩
      rw [List.drop_append_of_le_length hn]
      exact List.mem_append_right _ he
    · exact ⟨e, mem_drop_append hn he, hrem, hnum⟩
  below := by
    intro F hF hnone
    obtain ⟨hold, hnew⟩ := (noneBelow_append hn).1 hnone
    obtain ⟨hbound, hbelow⟩ := h.below F hF hold
    obtain ⟨hbound', hstable⟩ := hex.stable F hbound hnew
    exact ⟨hbound', fun y hy => (hstable y hy).trans (hbelow y hy)⟩

omit [DecidableEq H] in
theorem Rewound.append (h : Rewound C es bound L c entries) (hn : c.since ≤ es.length)
    (hex : Extends C stream bound bound' L L') : Rewound C (es ++ stream) bound' L' c entries where
  start := h.start
  low := h.low
  mem := by
    intro hnone
    obtain ⟨hold, hnew⟩ := (noneBelow_append hn).1 hnone
    obtain ⟨hbound, hmem⟩ := h.mem hold
    obtain ⟨hbound', hstable⟩ := hex.stable _ hbound hnew
    refine ⟨hbound', fun e he => (hmem e he).trans ⟨fun hL => ?_, fun hL => ?_⟩⟩
    · have hn := C.log_number _ e hL.2
      exact ⟨(hstable _ (by omega)).2 hL.1, hL.2⟩
    · have hn := C.log_number _ e hL.2
      exact ⟨(hstable _ (by omega)).1 hL.1, hL.2⟩

omit [DecidableEq H] in
theorem CursorOk.append {cursor : Option (CanonicalCursor H)}
    (h : CursorOk C parent d es bound L entries cursor) (hex : Extends C stream bound bound' L L') :
    CursorOk C parent d (es ++ stream) bound' L' entries cursor := by
  cases cursor with
  | none => exact h
  | some c =>
    obtain ⟨hn, h⟩ := h
    refine ⟨hn.trans (by simp), ?_⟩
    cases hx : c.blockHash with
    | none =>
      rw [hx] at h
      exact Rewound.append h hn hex
    | some x =>
      rw [hx] at h
      exact Seen.append h hn hex

omit [DecidableEq H] in
theorem RequestOk.append {cursor : Option (CanonicalCursor H)} {request : Request}
    (hc : CursorOk C parent d es bound L entries cursor) (h : RequestOk C es cursor request) :
    RequestOk C (es ++ stream) cursor request := by
  have hlen : es.length ≤ (es ++ stream).length := by simp
  cases request with
  | idle => trivial
  | marked => exact h.trans hlen
  | validated => exact h.trans hlen
  | stale mark =>
    obtain ⟨hmark, c, hcur, x, hx, e, he, hrem, hnum⟩ := h
    rw [Option.mem_def] at hcur
    subst hcur
    exact ⟨hmark.trans hlen, c, rfl, x, hx, e, mem_drop_append hc.1 he, hrem, hnum⟩

end Append

section Steps

variable {parent : H → H} {d f : ℕ} {s : Feed C} {ops : List (Op H)} {ws : List H}

/-- **An append keeps the invariant.** -/
theorem FeedInv.append {v : View C} {b : ℕ} {r : Appended H D} (inv : FeedInv parent d f s ops ws)
    (hlink : v.Linked parent) (follows : ∀ k ∈ s.cycles.getLast?, Follows f k.view v)
    (from_le : getFromBlock (cursorAfter (deltas s.cycles)) d f ≤ b) (le_tip : b ≤ v.tip)
    (derived : generateStreamToAppend (cursorAfter (deltas s.cycles)) d
      (v.getLogs (getFromBlock (cursorAfter (deltas s.cycles)) d f) b)
      ⟨v.tip, getFromBlock (cursorAfter (deltas s.cycles)) d f, b, f⟩ = .ok r)
    (hfork : ForkRetracted s.cycles ⟨v, b, r⟩) :
    ∃ ops' ws', FeedInv parent d f { s with cycles := s.cycles ++ [⟨v, b, r⟩] } ops' ws' := by
  obtain ⟨δ, ws', hstack, hstream, hret, htaken, hstable⟩ :=
    inv.stack.step hlink follows from_le le_tip derived hfork
  have hem : emitted (deltas (s.cycles ++ [⟨v, b, r⟩])) = emitted (deltas s.cycles) ++ r.eventStream := by
    rw [deltas_concat, emitted_concat]
  have hex : Extends C r.eventStream (coveredBelow s.cycles) (coveredBelow (s.cycles ++ [⟨v, b, r⟩]))
      (held ∅ ops) (held ∅ (ops ++ δ.ops)) := by
    refine ⟨fun F hF hrem => hstable F hF fun y hy => ?_, fun x hx hnot => ?_⟩
    · obtain ⟨e, he, herem, rfl⟩ := (Delta.removed_iff hret).2 hy
      rw [← Delta.number he]
      exact hrem e (hstream ▸ he) herem
    · obtain ⟨e, he, herem, rfl⟩ := (Delta.removed_iff hret).2 (htaken x hx hnot)
      exact ⟨e, hstream ▸ he, herem, Delta.number he⟩
  refine ⟨ops ++ δ.ops, ws', hstack, inv.sorted, ?_, ?_⟩
  · rw [hem]
    exact inv.cursor.append hex
  · rw [hem]
    exact inv.request.append inv.cursor

omit [DecidableEq H] in
theorem noneBelow_of_forkBlock {es : List (LogEvent H D)} {n F : ℕ} :
    (∀ G ∈ ((((es.drop n).filter (·.removed)).map (·.blockNumber)).min?), F ≤ G) → NoneBelow es n F := by
  intro h e he hrem
  set heights := ((es.drop n).filter (·.removed)).map (·.blockNumber)
  have hmem : e.blockNumber ∈ heights := List.mem_map.2 ⟨e, List.mem_filter.2 ⟨he, hrem⟩, rfl⟩
  obtain ⟨G, hG⟩ := Option.isSome_iff_exists.1 (List.isSome_min?_iff.2 (List.ne_nil_of_mem hmem))
  exact (h G hG).trans ((List.min?_eq_some_iff.1 hG).2 _ hmem)

theorem Feed.table_eq (s : Feed C) : s.table = tableOf (emitted (deltas s.cycles)) := emissionTable_eq _

/-- A cursor's row stands when its block lives. -/
theorem Stack.canonical_iff {c : CanonicalCursor H} {x : H} (inv : Stack parent d f s.cycles ops ws)
    (hlog : ∃ e ∈ C.logsOf x, e.key = c.key) :
    isStillCanonical s.table c.toCanonicalPosition x = true ↔ x ∈ held ∅ ops := by
  rw [s.table_eq, isStillCanonical_tableOf]
  refine ⟨fun ⟨e, he, _, hx⟩ => ?_, fun hx => ?_⟩
  · rw [← hx]
    exact ((inv.mem_standing e).1 he).1
  · obtain ⟨e, he, hk⟩ := hlog
    have hhash := C.log_hash x e he
    refine ⟨e, (inv.mem_standing e).2 ⟨?_, ?_⟩, hk, hhash⟩
    · rw [hhash]; exact hx
    · rw [hhash]; exact he

/-- What a live row says of a reader that holds everything up to it. -/
theorem Stack.seen {c : CanonicalCursor H} {x : H} {entries : List (LogEvent H D)}
    (inv : Stack parent d f s.cycles ops ws) (hlog : ∃ e ∈ C.logsOf x, e.key = c.key)
    (hx : x ∈ held ∅ ops)
    (h : Paging.Upto LogEvent.key (· ∈ standing (emitted (deltas s.cycles))) c.key entries) :
    Seen C parent d (emitted (deltas s.cycles)) (coveredBelow s.cycles) (held ∅ ops) c x entries where
  log := hlog
  mem := by
    intro e
    rw [h.mem, inv.mem_standing]
    refine and_congr_left fun hle => ?_
    rw [and_comm]
    refine and_congr_right fun he => ?_
    obtain ⟨e', he', hk⟩ := hlog
    have hnum := number_le_of_key_le (hk ▸ hle)
    rw [C.log_number _ e he, C.log_number _ e' he'] at hnum
    exact inv.rooted.past x hx _ hnum
  taken := Or.inl hx
  below := by
    intro F hF _
    have hcov := inv.rooted.covered x hx
    exact ⟨by omega, fun y hy => inv.rooted.past x hx y (by omega)⟩

/-- A reader with a block's whole past up to a position holds what stands there, while the
block lives. -/
theorem Seen.upto {c : CanonicalCursor H} {x : H} (inv : FeedInv parent d f s ops ws)
    (h : Seen C parent d (emitted (deltas s.cycles)) (coveredBelow s.cycles) (held ∅ ops) c x s.entries)
    (hx : x ∈ held ∅ ops) :
    Paging.Upto LogEvent.key (· ∈ standing (emitted (deltas s.cycles))) c.key s.entries := by
  refine ⟨inv.sorted, fun e => ?_⟩
  rw [h.mem, inv.stack.mem_standing]
  refine and_congr_left fun hle => ?_
  rw [and_comm]
  refine and_congr_left fun he => ?_
  obtain ⟨e', he', hk⟩ := h.log
  have hnum := number_le_of_key_le (hk ▸ hle)
  rw [C.log_number _ e he, C.log_number _ e' he'] at hnum
  exact (inv.stack.rooted.past x hx _ hnum).symm

omit [DecidableEq H] in
/-- A position before every log of its height. -/
theorem key_le_start_iff {p : CanonicalPosition} (hp : p.logIndex = -1) (e : LogEvent H D) :
    e.key ≤ p.key ↔ e.blockNumber < p.blockNumber := by
  unfold LogEvent.key CanonicalPosition.key
  rw [Prod.Lex.toLex_le_toLex, hp]
  refine ⟨fun h => ?_, fun h => Or.inl h⟩
  rcases h with h | ⟨-, h⟩
  · exact h
  · simp only at h
    omega

/-- **A sound page read starts from everything that stands up to the cursor.** -/
theorem FeedInv.upto (inv : FeedInv parent d f s ops ws) (hsound : PageSound s) :
    Paging.Upto LogEvent.key (· ∈ standing (emitted (deltas s.cycles))) (afterOf s.cursor).key
      s.entries := by
  have hcur := inv.cursor
  cases hc : s.cursor with
  | none =>
    rw [hc] at hcur
    have hnil : s.entries = [] := hcur
    rw [hnil]
    refine ⟨List.Pairwise.nil, fun e => ?_⟩
    have hpos : afterOf (none : Option (CanonicalCursor H)) = canonicalStartPosition := rfl
    rw [hpos, key_le_start_iff rfl]
    simp [canonicalStartPosition]
  | some c =>
    rw [hc] at hcur
    obtain ⟨-, hcur⟩ := hcur
    have hs := hsound c hc
    cases hx : c.blockHash with
    | some x =>
      rw [hx] at hcur hs
      exact hcur.upto inv ((inv.stack.canonical_iff hcur.log).1 hs)
    | none =>
      rw [hx] at hcur hs
      have hnone : NoneBelow (emitted (deltas s.cycles)) c.since c.blockNumber := by
        refine noneBelow_of_forkBlock fun G hG => hs G ?_
        rw [s.table_eq, forkBlockSince_tableOf]
        exact hG
      obtain ⟨-, hmem⟩ := hcur.mem hnone
      refine ⟨inv.sorted, fun e => ?_⟩
      have hkey : e.key ≤ (afterOf (some c)).key ↔ e.blockNumber < c.blockNumber :=
        key_le_start_iff hcur.start e
      rw [hkey, inv.stack.mem_standing]
      refine ⟨fun he => ⟨(hmem e (hcur.low e he)).1 he, hcur.low e he⟩, fun ⟨he, hlt⟩ => (hmem e hlt).2 he⟩

/-- A reader that holds everything below a covered block. -/
theorem Stack.rewound {p : CanonicalPosition} {entries : List (LogEvent H D)} {mark : ℕ}
    (inv : Stack parent d f s.cycles ops ws) (hp : p.logIndex = -1)
    (hbound : p.blockNumber ≤ coveredBelow s.cycles)
    (h : Paging.Upto LogEvent.key (· ∈ standing (emitted (deltas s.cycles))) p.key entries) :
    Rewound C (emitted (deltas s.cycles)) (coveredBelow s.cycles) (held ∅ ops) ⟨p, none, mark⟩ entries where
  start := hp
  low := fun e he => (key_le_start_iff hp e).1 ((h.mem e).1 he).2
  mem := by
    refine fun _ => ⟨hbound, fun e he => ?_⟩
    rw [h.mem, inv.mem_standing]
    exact ⟨fun hin => hin.1, fun hin => ⟨hin, (key_le_start_iff hp e).2 he⟩⟩

/-- **A sound page keeps the invariant.** -/
theorem FeedInv.page {gate limit mark : ℕ} (inv : FeedInv parent d f s ops ws)
    (hval : s.request = .validated gate limit mark) (hsound : PageSound s) :
    FeedInv parent d f (s.page gate limit mark) ops ws := by
  have hmark : mark ≤ (emitted (deltas s.cycles)).length := by
    have := inv.request
    rw [hval] at this
    exact this
  have hupto := inv.upto hsound
  have hnext := inv.stack.page hupto gate limit
  obtain ⟨hentries, hlast⟩ := readCanonicalView_tableOf (emitted (deltas s.cycles)) gate
    (afterOf s.cursor) limit
  rw [← s.table_eq] at hentries hlast
  set page := (viewAfter (emitted (deltas s.cycles)) gate (afterOf s.cursor)).take limit with hpage
  have hentries' : (s.page gate limit mark).entries = s.entries ++ page := by
    unfold Feed.page Feed.pageRead
    rw [hentries]
  refine ⟨inv.stack, ?_, ?_, trivial⟩
  · rw [hentries']
    exact hnext.sorted
  · refine ⟨?_, ?_⟩
    · unfold Feed.pageCursor
      split <;> exact hmark
    · rw [hentries']
      unfold Feed.pageCursor Feed.pageRead
      rw [hlast]
      cases hz : page.getLast? with
      | some z =>
        rw [hz, Option.map_some, Option.getD_some] at hnext
        have hzmem : z ∈ page := List.mem_of_getLast? hz
        have hzst := (((inv.stack.after gate (afterOf s.cursor)).mem z).1 (List.mem_of_mem_take hzmem)).1
        obtain ⟨hzlive, hzlog⟩ := (inv.stack.mem_standing z).1 hzst
        exact inv.stack.seen ⟨z, hzlog, rfl⟩ hzlive hnext
      | none =>
        rw [hz, Option.map_none, Option.getD_none] at hnext
        simp only [Option.map_none]
        have hcur := inv.cursor
        cases hc : s.cursor with
        | none =>
          rw [hc] at hnext
          exact inv.stack.rewound rfl (Nat.zero_le _) hnext
        | some c =>
          have hs := hsound c hc
          rw [hc] at hcur hnext
          obtain ⟨-, hcur⟩ := hcur
          simp only [Option.bind_some]
          cases hx : c.blockHash with
          | some x =>
            rw [hx] at hcur hs
            exact inv.stack.seen hcur.log ((inv.stack.canonical_iff hcur.log).1 hs) hnext
          | none =>
            rw [hx] at hcur hs
            have hnone : NoneBelow (emitted (deltas s.cycles)) c.since c.blockNumber := by
              refine noneBelow_of_forkBlock fun G hG => hs G ?_
              rw [s.table_eq, forkBlockSince_tableOf]
              exact hG
            exact inv.stack.rewound hcur.start (hcur.mem hnone).1 hnext

/-- **The cursor check keeps the invariant.** -/
theorem FeedInv.validate {gate limit mark : ℕ} (inv : FeedInv parent d f s ops ws)
    (hmarked : s.request = .marked gate limit mark) :
    FeedInv parent d f { s with request := s.validate gate limit mark } ops ws := by
  have hmark : mark ≤ (emitted (deltas s.cycles)).length := by
    have := inv.request
    rw [hmarked] at this
    exact this
  refine ⟨inv.stack, inv.sorted, inv.cursor, ?_⟩
  have hcur := inv.cursor
  unfold Feed.validate
  cases hc : s.cursor with
  | none => exact hmark
  | some c =>
    rw [hc] at hcur
    obtain ⟨-, hcur⟩ := hcur
    cases hx : c.blockHash with
    | none =>
      simp only [hx]
      exact hmark
    | some x =>
      rw [hx] at hcur
      simp only [hx]
      split
      · exact hmark
      · rename_i hdead
        -- the row was seen standing, so an entry took its block back
        refine ⟨hmark, c, rfl, x, hx, hcur.taken.resolve_left fun hlive => ?_⟩
        exact hdead ((inv.stack.canonical_iff hcur.log).2 hlive)

/-- **A rewind keeps the invariant.** -/
theorem FeedInv.rewind {cursor : CanonicalCursor H} {mark : ℕ} (inv : FeedInv parent d f s ops ws)
    (hstale : s.request = .stale mark) (hc : s.cursor = some cursor) :
    FeedInv parent d f (s.rewind cursor mark) ops ws := by
  have hreq := inv.request
  have hcur := inv.cursor
  rw [hstale, hc] at hreq
  obtain ⟨hmark, c, hcc, x, hx, e, he, hrem, hnum⟩ := hreq
  obtain rfl : cursor = c := Option.some.inj hcc
  rw [hc] at hcur
  obtain ⟨-, hcur⟩ := hcur
  rw [Option.mem_def] at hx
  rw [hx] at hcur
  -- the fork block is the lowest height taken back since the mark
  set heights := ((((emitted (deltas s.cycles)).drop cursor.since).filter (·.removed)).map (·.blockNumber))
    with hheights
  have hmem : C.numberOf x ∈ heights := by
    rw [← hnum]
    exact List.mem_map.2 ⟨e, List.mem_filter.2 ⟨he, hrem⟩, rfl⟩
  obtain ⟨F, hF⟩ := Option.isSome_iff_exists.1 (List.isSome_min?_iff.2 (List.ne_nil_of_mem hmem))
  have hfork : forkBlock s.table cursor = F := by
    unfold forkBlock
    rw [s.table_eq, forkBlockSince_tableOf, ← hheights, hF]
    rfl
  have hle : F ≤ C.numberOf x := (List.min?_eq_some_iff.1 hF).2 _ hmem
  have hnone : NoneBelow (emitted (deltas s.cycles)) cursor.since F := by
    refine noneBelow_of_forkBlock fun G hG => ?_
    rw [← hheights, hF] at hG
    exact (Option.some.inj hG).le
  obtain ⟨hbound, hbelow⟩ := hcur.below F hle hnone
  obtain ⟨e', he', hk⟩ := hcur.log
  have hnumber : cursor.blockNumber = C.numberOf x := by
    rw [← C.log_number x e' he']
    exact (Prod.mk.inj (toLex.injective hk)).1.symm
  refine ⟨inv.stack, inv.sorted.filter _, ⟨hmark, ?_⟩, trivial⟩
  unfold Feed.rewind
  rw [hfork]
  refine ⟨rfl, fun e he => ?_, fun _ => ⟨hbound, fun e he => ?_⟩⟩
  · exact of_decide_eq_true (List.mem_filter.1 he).2
  · have hkey : e.key ≤ cursor.key := by
      unfold LogEvent.key CanonicalPosition.key
      rw [Prod.Lex.toLex_le_toLex]
      exact Or.inl (by simp only at he ⊢; omega)
    rw [List.mem_filter, hcur.mem, decide_eq_true_eq]
    refine ⟨fun ⟨⟨⟨hlog, hunder⟩, _⟩, hlt⟩ => ?_, fun ⟨hlive, hlog⟩ => ?_⟩
    · exact ⟨(hbelow _ (by rw [← C.log_number _ e hlog]; exact hlt)).2 hunder, hlog⟩
    · have hlt : C.numberOf e.blockHash < F := by rw [← C.log_number _ e hlog]; exact he
      exact ⟨⟨⟨hlog, (hbelow _ hlt).1 hlive⟩, hkey⟩, he⟩

end Steps

/-- **Every run of sound pages keeps the invariant.** -/
theorem reach_inv {parent : H → H} {d f : ℕ} {s : Feed C} (run : Reach parent d f PageSound s) :
    ∃ ops ws, FeedInv parent d f s ops ws := by
  induction run with
  | start => exact ⟨[], [], stack_start, List.Pairwise.nil, rfl, trivial⟩
  | append _ linked follows from_le le_tip derived fork ih =>
    obtain ⟨ops, ws, inv⟩ := ih
    exact inv.append linked follows from_le le_tip derived fork
  | @mark s gate limit _ _ ih =>
    obtain ⟨ops, ws, inv⟩ := ih
    refine ⟨ops, ws, inv.stack, inv.sorted, inv.cursor, ?_⟩
    rw [s.table_eq, readStreamHighWaterMark_tableOf]
    exact le_rfl
  | validate _ marked ih =>
    obtain ⟨ops, ws, inv⟩ := ih
    exact ⟨ops, ws, inv.validate marked⟩
  | rewind _ stale presented ih =>
    obtain ⟨ops, ws, inv⟩ := ih
    exact ⟨ops, ws, inv.rewind stale presented⟩
  | page _ validated sound ih =>
    obtain ⟨ops, ws, inv⟩ := ih
    exact ⟨ops, ws, inv.page validated sound⟩
  | lost _ ih =>
    obtain ⟨ops, ws, inv⟩ := ih
    exact ⟨ops, ws, inv.stack, inv.sorted, inv.cursor, trivial⟩

/-- **A consumer whose pages are all sound needs no reorg handling of its own.** -/
theorem consumer_exact {parent : H → H} {d f : ℕ} {s : Feed C} (run : Reach parent d f PageSound s) :
    s.Exact := by
  obtain ⟨ops, ws, inv⟩ := reach_inv run
  intro cursor hc x hx hcan
  have hcur := inv.cursor
  rw [Option.mem_def] at hc hx
  rw [hc] at hcur
  obtain ⟨-, hcur⟩ := hcur
  rw [hx] at hcur
  have hupto := hcur.upto inv ((inv.stack.canonical_iff hcur.log).1 hcan)
  rw [s.table_eq, aliveRows_tableOf]
  refine Paging.Sorted.ext hupto.sorted (Paging.sorted_insertionSort (inv.stack.keys.filter _)) fun e => ?_
  rw [hupto.mem, List.mem_insertionSort, List.mem_filter, decide_eq_true_eq]

/-! ### Two runs -/

/-- Blocks of three branches: the second leaves the first above height `4`, the third
leaves it above height `2`. -/
abbrev threeBranches : Chain ℕ Unit := .oneLog (· % 100) fun x => decide (x ∈ [3, 5, 105, 203, 205])

/-- The block below. -/
def branchParent (x : ℕ) : ℕ := if x = 105 then 4 else if x = 203 then 2 else x - 1

/-- The three cycles: logs at `3` and `5`, then a reorg at `5`, then a deeper one at `3`. -/
def branchCycle : Fin 3 → Cycle threeBranches
  | 0 => ⟨⟨5, id, by decide⟩, 5,
      ⟨[⟨3, 3, 0, false, ()⟩, ⟨5, 5, 0, false, ()⟩],
        ⟨0, 5, 5, [⟨3, 3, [⟨3, 3, 0, false, ()⟩]⟩, ⟨5, 5, [⟨5, 5, 0, false, ()⟩]⟩]⟩, none⟩⟩
  | 1 => ⟨⟨6, fun n => if n < 5 then n else 100 + n, by decide⟩, 6,
      ⟨[⟨5, 5, 0, true, ()⟩, ⟨105, 5, 0, false, ()⟩],
        ⟨0, 6, 6, [⟨3, 3, [⟨3, 3, 0, false, ()⟩]⟩, ⟨105, 5, [⟨105, 5, 0, false, ()⟩]⟩]⟩,
        some ⟨.contradiction, 5, 5⟩⟩⟩
  | 2 => ⟨⟨7, fun n => if n < 3 then n else 200 + n, by decide⟩, 7,
      ⟨[⟨3, 3, 0, true, ()⟩, ⟨105, 5, 0, true, ()⟩, ⟨203, 3, 0, false, ()⟩, ⟨205, 5, 0, false, ()⟩],
        ⟨1, 7, 7, [⟨203, 3, [⟨203, 3, 0, false, ()⟩]⟩, ⟨205, 5, [⟨205, 5, 0, false, ()⟩]⟩]⟩,
        some ⟨.contradiction, 3, 3⟩⟩⟩

/-- The feed after the first reorg, its consumer sent back to block `5`. -/
def rewoundFeed : Feed threeBranches :=
  ⟨[branchCycle 0, branchCycle 1], [⟨3, 3, 0, false, ()⟩], some ⟨⟨5, -1⟩, none, 4⟩, .idle⟩

theorem reach_rewoundFeed (cond : Feed threeBranches → Prop)
    (h : ∀ s : Feed threeBranches, s.cursor = none → cond s) :
    Reach branchParent 0 5 cond rewoundFeed := by
  have h1 : Reach branchParent 0 5 cond ⟨[branchCycle 0], [], none, .idle⟩ := by
    refine .append .start ?_ (by simp [Feed.start]) (by decide) (by decide) (by rfl) ?_
    · unfold View.Linked; decide
    · unfold ForkRetracted; decide
  have h2 : Reach branchParent 0 5 cond ⟨[branchCycle 0], [], none, .marked 9 9 2⟩ := .mark h1 rfl
  have h3 : Reach branchParent 0 5 cond ⟨[branchCycle 0], [], none, .validated 9 9 2⟩ :=
    .validate h2 rfl
  have h4 : Reach branchParent 0 5 cond ⟨[branchCycle 0],
      [⟨3, 3, 0, false, ()⟩, ⟨5, 5, 0, false, ()⟩], some ⟨⟨5, 0⟩, some 5, 2⟩, .idle⟩ :=
    .page h3 rfl (h _ rfl)
  have h5 : Reach branchParent 0 5 cond ⟨[branchCycle 0, branchCycle 1],
      [⟨3, 3, 0, false, ()⟩, ⟨5, 5, 0, false, ()⟩], some ⟨⟨5, 0⟩, some 5, 2⟩, .idle⟩ := by
    refine .append h4 ?_ ?_ (by decide) (by decide) (by rfl) ?_
    · unfold View.Linked; decide
    · intro k hk
      obtain rfl : branchCycle 0 = k := by simpa using hk
      exact ⟨by decide, fun n hn => absurd (show n + 5 < 5 from hn) (by omega)⟩
    · unfold ForkRetracted; decide
  have h6 : Reach branchParent 0 5 cond ⟨[branchCycle 0, branchCycle 1],
      [⟨3, 3, 0, false, ()⟩, ⟨5, 5, 0, false, ()⟩], some ⟨⟨5, 0⟩, some 5, 2⟩, .marked 9 9 4⟩ :=
    .mark h5 rfl
  have h7 : Reach branchParent 0 5 cond ⟨[branchCycle 0, branchCycle 1],
      [⟨3, 3, 0, false, ()⟩, ⟨5, 5, 0, false, ()⟩], some ⟨⟨5, 0⟩, some 5, 2⟩, .stale 4⟩ :=
    .validate h6 rfl
  exact .rewind h7 rfl rfl

/-- The consumer follows its rewind: the two live logs, and nothing else. -/
theorem consumer_exact_rewoundFeed : (rewoundFeed.page 9 9 4).entries =
    [⟨3, 3, 0, false, ()⟩, ⟨105, 5, 0, false, ()⟩] := by
  have h0 : Reach branchParent 0 5 PageSound rewoundFeed :=
    reach_rewoundFeed _ fun s hs c hc => absurd hc (by simp [hs])
  have h1 : Reach branchParent 0 5 PageSound ⟨[branchCycle 0, branchCycle 1], [⟨3, 3, 0, false, ()⟩],
      some ⟨⟨5, -1⟩, none, 4⟩, .marked 9 9 4⟩ := .mark h0 rfl
  have h2 : Reach branchParent 0 5 PageSound ⟨[branchCycle 0, branchCycle 1], [⟨3, 3, 0, false, ()⟩],
      some ⟨⟨5, -1⟩, none, 4⟩, .validated 9 9 4⟩ := .validate h1 rfl
  have h3 := Reach.page h2 rfl (by
    intro c hc
    obtain rfl : (⟨⟨5, -1⟩, none, 4⟩ : CanonicalCursor ℕ) = c := by simpa [rewoundFeed] using hc
    intro F hF
    have hnone : forkBlockSince (emissionTable (deltas [branchCycle 0, branchCycle 1])) 4 = none := by
      decide
    exact absurd (hnone.symm.trans hF) (by simp))
  refine (consumer_exact h3 _ rfl 105 rfl (by decide)).trans (by decide)

/-- **A consumer can be left with a dead log**: the deeper reorg lands between the rewind
answer and its cursor, which carries no hash to check. -/
theorem consumer_not_exact : ∃ s : Feed threeBranches,
    Reach branchParent 0 5 (fun _ => True) s ∧ ¬s.Exact := by
  have h0 := reach_rewoundFeed (fun _ => True) fun _ _ => trivial
  have h1 : Reach branchParent 0 5 (fun _ => True) { rewoundFeed with
      cycles := [branchCycle 0, branchCycle 1, branchCycle 2] } := by
    refine .append h0 ?_ ?_ (by decide) (by decide) (by rfl) ?_
    · unfold View.Linked; decide
    · intro k hk
      obtain rfl : branchCycle 1 = k := by simpa [rewoundFeed] using hk
      refine ⟨by decide, fun n hn => ?_⟩
      obtain rfl : n = 0 := by
        have : n + 5 < 6 := hn
        omega
      rfl
    · unfold ForkRetracted; decide
  have h2 : Reach branchParent 0 5 (fun _ => True) ⟨[branchCycle 0, branchCycle 1, branchCycle 2],
      [⟨3, 3, 0, false, ()⟩], some ⟨⟨5, -1⟩, none, 4⟩, .marked 9 9 8⟩ := .mark h1 rfl
  have h3 : Reach branchParent 0 5 (fun _ => True) ⟨[branchCycle 0, branchCycle 1, branchCycle 2],
      [⟨3, 3, 0, false, ()⟩], some ⟨⟨5, -1⟩, none, 4⟩, .validated 9 9 8⟩ := .validate h2 rfl
  have h4 : Reach branchParent 0 5 (fun _ => True) ⟨[branchCycle 0, branchCycle 1, branchCycle 2],
      [⟨3, 3, 0, false, ()⟩, ⟨205, 5, 0, false, ()⟩], some ⟨⟨5, 0⟩, some 205, 8⟩, .idle⟩ :=
    .page h3 rfl trivial
  refine ⟨_, h4, fun hexact => ?_⟩
  have hlist := hexact _ rfl 205 rfl (by decide)
  revert hlist
  decide

end Etherfold
