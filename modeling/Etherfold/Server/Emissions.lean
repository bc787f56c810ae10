import Etherfold.Engine.Derive

/-!
# The emission table

Every entry of a stream becomes a numbered row. A retraction adds a row of its own
and flags the row it takes back; nothing is deleted.

* `appendEmissions`, `readStreamHighWaterMark`: the writes and the mark of the source.
* `tableOf`: the table of a stream, entry by entry.
* `emissionTable_eq`: **appending delta by delta numbers the rows of the whole stream**.
* `liveBelow_append`: what later entries leave of the live rows below a height that
  none of them takes back.
-/

namespace Etherfold

variable {H D : Type}

/-- A row: an entry, its number, and whether it still stands. -/
structure EmissionRow (H D : Type) extends LogEvent H D where
  seq : ℕ
  alive : Bool
  deriving DecidableEq, Repr

/-- The highest number given out, `0` before the first. -/
def readStreamHighWaterMark (rows : List (EmissionRow H D)) : ℕ := (rows.map (·.seq)).foldr max 0

variable [DecidableEq H]

/-- The row of the log that `e` takes back falls. -/
def EmissionRow.flag (e : LogEvent H D) (r : EmissionRow H D) : EmissionRow H D :=
  if r.blockHash = e.blockHash ∧ r.logIndex = e.logIndex ∧ r.removed = false ∧ r.alive = true then
    { r with alive := false }
  else r

/-- The update a retraction makes. -/
def flagSuperseded (rows : List (EmissionRow H D)) (e : LogEvent H D) : List (EmissionRow H D) :=
  if e.removed then rows.map (EmissionRow.flag e) else rows

/-- One entry: the flag, and the row under the next number. -/
def pushEmission (table : List (EmissionRow H D) × ℕ) (e : LogEvent H D) :
    List (EmissionRow H D) × ℕ :=
  (flagSuperseded table.1 e ++ [⟨e, table.2 + 1, !e.removed⟩], table.2 + 1)

/-- **Appending a delta**, numbered from the mark. -/
def appendEmissions (rows : List (EmissionRow H D)) (emissions : List (LogEvent H D)) :
    List (EmissionRow H D) :=
  (emissions.foldl pushEmission (rows, readStreamHighWaterMark rows)).1

/-- The table after a sequence of deltas. -/
def emissionTable (deltas : List (Appended H D)) : List (EmissionRow H D) :=
  deltas.foldl (fun rows δ => appendEmissions rows δ.eventStream) []

/-! ### The table of a stream -/

/-- The table of a stream, entry by entry, numbered from `1`. -/
def tableOf (es : List (LogEvent H D)) : List (EmissionRow H D) := (es.foldl pushEmission ([], 0)).1

@[simp] theorem flag_seq (e : LogEvent H D) (r : EmissionRow H D) : (r.flag e).seq = r.seq := by
  unfold EmissionRow.flag
  split <;> rfl

@[simp] theorem flag_toLogEvent (e : LogEvent H D) (r : EmissionRow H D) :
    (r.flag e).toLogEvent = r.toLogEvent := by
  unfold EmissionRow.flag
  split <;> rfl

/-- A row that still stands was not touched. -/
theorem flag_eq_self {e : LogEvent H D} {r : EmissionRow H D} (h : (r.flag e).alive = true) :
    r.flag e = r := by
  unfold EmissionRow.flag at h ⊢
  split
  · rename_i hm
    rw [if_pos hm] at h
    cases h
  · rfl

theorem flag_alive_iff {e : LogEvent H D} {r : EmissionRow H D} (hr : r.alive = true → r.removed = false) :
    (r.flag e).alive = true ↔ r.alive = true ∧ ¬(r.blockHash = e.blockHash ∧ r.logIndex = e.logIndex) := by
  unfold EmissionRow.flag
  split
  · rename_i hm
    simp [hm]
  · rename_i hm
    refine ⟨fun h => ⟨h, fun hs => hm ⟨hs.1, hs.2, hr h, h⟩⟩, fun h => h.1⟩

theorem flagSuperseded_seq (rows : List (EmissionRow H D)) (e : LogEvent H D) :
    (flagSuperseded rows e).map (·.seq) = rows.map (·.seq) := by
  unfold flagSuperseded
  split
  · rw [List.map_map]
    exact List.map_congr_left fun r _ => flag_seq e r
  · rfl

/-- The rows of a table are numbered `1, 2, ...` up to its counter. -/
theorem foldl_pushEmission_seq (es : List (LogEvent H D)) (rows : List (EmissionRow H D)) {n : ℕ}
    (h : rows.map (·.seq) = List.range' 1 n) :
    (es.foldl pushEmission (rows, n)).1.map (·.seq) = List.range' 1 (n + es.length) ∧
      (es.foldl pushEmission (rows, n)).2 = n + es.length := by
  induction es generalizing rows n with
  | nil => exact ⟨h, rfl⟩
  | cons e es ih =>
    have hnext : (flagSuperseded rows e ++ [(⟨e, n + 1, !e.removed⟩ : EmissionRow H D)]).map (·.seq) =
        List.range' 1 (n + 1) := by
      rw [List.map_append, flagSuperseded_seq, h, List.range'_1_concat, Nat.add_comm 1 n]
      rfl
    have := ih _ hnext
    rw [List.foldl_cons, List.length_cons, Nat.add_comm es.length 1, ← Nat.add_assoc]
    exact this

theorem tableOf_seq (es : List (LogEvent H D)) : (tableOf es).map (·.seq) = List.range' 1 es.length := by
  have := (foldl_pushEmission_seq es [] (n := 0) rfl).1
  rwa [Nat.zero_add] at this

omit [DecidableEq H] in
theorem foldr_max_range' (n : ℕ) : (List.range' 1 n).foldr max 0 = n := by
  induction n with
  | zero => rfl
  | succ n ih =>
    rw [List.range'_1_concat, List.foldr_append]
    have key : ∀ (l : List ℕ) (a : ℕ), l.foldr max a = max (l.foldr max 0) a := by
      intro l a
      induction l with
      | nil => simp
      | cons x l ih => simp only [List.foldr_cons, ih]; omega
    rw [key, ih]
    simp only [List.foldr_cons, List.foldr_nil]
    omega

/-- The mark of a stream's table is the length of the stream. -/
theorem readStreamHighWaterMark_tableOf (es : List (LogEvent H D)) :
    readStreamHighWaterMark (tableOf es) = es.length := by
  unfold readStreamHighWaterMark
  rw [tableOf_seq, foldr_max_range']

theorem appendEmissions_tableOf (es es' : List (LogEvent H D)) :
    appendEmissions (tableOf es) es' = tableOf (es ++ es') := by
  have hcount : (es.foldl pushEmission (([] : List (EmissionRow H D)), 0)).2 = es.length := by
    simpa using (foldl_pushEmission_seq es ([] : List (EmissionRow H D)) (n := 0) rfl).2
  unfold appendEmissions
  rw [readStreamHighWaterMark_tableOf, tableOf, tableOf, List.foldl_append, ← hcount]

/-- **Appending delta by delta is appending the stream.** -/
theorem emissionTable_eq (deltas : List (Appended H D)) : emissionTable deltas = tableOf (emitted deltas) := by
  have key : ∀ (ds : List (Appended H D)) (es : List (LogEvent H D)),
      ds.foldl (fun rows δ => appendEmissions rows δ.eventStream) (tableOf es) =
        tableOf (es ++ emitted ds) := by
    intro ds
    induction ds with
    | nil => intro es; simp
    | cons δ ds ih =>
      intro es
      rw [List.foldl_cons, appendEmissions_tableOf, ih]
      simp [emitted]
  exact key deltas []

/-- A table loses no entry of its stream. -/
theorem tableOf_log (es : List (LogEvent H D)) : (tableOf es).map (·.toLogEvent) = es := by
  have hflag : ∀ (rows : List (EmissionRow H D)) (e : LogEvent H D),
      (flagSuperseded rows e).map (·.toLogEvent) = rows.map (·.toLogEvent) := by
    intro rows e
    unfold flagSuperseded
    split
    · rw [List.map_map]
      exact List.map_congr_left fun r _ => flag_toLogEvent e r
    · rfl
  have key : ∀ (es : List (LogEvent H D)) (rows : List (EmissionRow H D)) (n : ℕ),
      (es.foldl pushEmission (rows, n)).1.map (·.toLogEvent) = rows.map (·.toLogEvent) ++ es := by
    intro es
    induction es with
    | nil => intro rows n; simp
    | cons e es ih =>
      intro rows n
      have := ih (pushEmission (rows, n) e).1 (n + 1)
      rw [List.foldl_cons]
      refine this.trans ?_
      unfold pushEmission
      rw [List.map_append, hflag]
      simp
  have h := key es [] 0
  rwa [List.map_nil, List.nil_append] at h

theorem mem_tableOf_log {es : List (LogEvent H D)} {r : EmissionRow H D} (hr : r ∈ tableOf es) :
    r.toLogEvent ∈ es := by
  rw [← tableOf_log es]
  exact List.mem_map.2 ⟨r, hr, rfl⟩

/-! ### What stands -/

/-- Two entries of one log. -/
def LogEvent.SameLog (e e' : LogEvent H D) : Prop := e.blockHash = e'.blockHash ∧ e.logIndex = e'.logIndex

instance (e e' : LogEvent H D) : Decidable (e.SameLog e') := inferInstanceAs (Decidable (_ ∧ _))

/-- The entries that stand after one more. -/
def standStep (standing : List (LogEvent H D)) (e : LogEvent H D) : List (LogEvent H D) :=
  if e.removed then standing.filter (¬·.SameLog e) else standing ++ [e]

/-- The entries of a stream that no later entry takes back, in stream order. -/
def standing (es : List (LogEvent H D)) : List (LogEvent H D) := es.foldl standStep []

@[simp] theorem standing_concat (es : List (LogEvent H D)) (e : LogEvent H D) :
    standing (es ++ [e]) = standStep (standing es) e := by
  simp [standing]

theorem mem_standStep {l : List (LogEvent H D)} {x e : LogEvent H D} : x ∈ standStep l e ↔
    (x ∈ l ∧ (e.removed = true → ¬x.SameLog e)) ∨ (e.removed = false ∧ x = e) := by
  unfold standStep
  by_cases h : e.removed = true
  · simp [h]
  · simp [h]

/-- The standing rows of a table, as entries. -/
def aliveRows (rows : List (EmissionRow H D)) : List (LogEvent H D) :=
  (rows.filter (·.alive)).map (·.toLogEvent)

/-- Standing rows are additions. -/
def AliveAdded (rows : List (EmissionRow H D)) : Prop := ∀ r ∈ rows, r.alive = true → r.removed = false

theorem aliveAdded_push {rows : List (EmissionRow H D)} (h : AliveAdded rows) (e : LogEvent H D) (n : ℕ) :
    AliveAdded (pushEmission (rows, n) e).1 := by
  intro r hr halive
  unfold pushEmission flagSuperseded at hr
  rcases List.mem_append.1 hr with hr | hr
  · split at hr
    · obtain ⟨r', hr', rfl⟩ := List.mem_map.1 hr
      have hself := flag_eq_self halive
      rw [hself] at halive ⊢
      exact h r' hr' halive
    · exact h r hr halive
  · rw [List.mem_singleton] at hr
    subst hr
    simpa using halive

theorem aliveRows_push {rows : List (EmissionRow H D)} (h : AliveAdded rows) (e : LogEvent H D) (n : ℕ) :
    aliveRows (pushEmission (rows, n) e).1 = standStep (aliveRows rows) e := by
  unfold pushEmission standStep flagSuperseded aliveRows
  by_cases he : e.removed = true
  · have hnew : [(⟨e, n + 1, !e.removed⟩ : EmissionRow H D)].filter (·.alive) = [] := by simp [he]
    simp only [he, if_true, List.filter_append, List.map_append, List.filter_map, List.map_map,
      List.filter_filter, Bool.not_true]
    rw [he, Bool.not_true] at hnew
    rw [hnew, List.map_nil, List.append_nil]
    have hmap : (fun r : EmissionRow H D => r.toLogEvent) ∘ EmissionRow.flag e = (·.toLogEvent) := by
      funext r
      exact flag_toLogEvent e r
    rw [hmap]
    congr 1
    refine List.filter_congr fun r hr => ?_
    rw [Bool.eq_iff_iff, Function.comp_apply, flag_alive_iff (h r hr), Bool.and_eq_true,
      Function.comp_apply, decide_eq_true_eq, and_comm]
    exact Iff.rfl
  · simp [he]

/-- **The standing rows of a stream's table are its standing entries.** -/
theorem aliveRows_tableOf (es : List (LogEvent H D)) : aliveRows (tableOf es) = standing es := by
  have key : ∀ (es : List (LogEvent H D)) (rows : List (EmissionRow H D)) (n : ℕ), AliveAdded rows →
      aliveRows (es.foldl pushEmission (rows, n)).1 = es.foldl standStep (aliveRows rows) := by
    intro es
    induction es with
    | nil => intro rows n _; rfl
    | cons e es ih =>
      intro rows n h
      have := ih (pushEmission (rows, n) e).1 (n + 1) (aliveAdded_push h e n)
      rw [aliveRows_push h] at this
      exact this
  have hnil : AliveAdded ([] : List (EmissionRow H D)) := by simp [AliveAdded]
  exact key es [] 0 hnil

/-- An entry stands as long as nothing takes its log back. -/
theorem mem_standing_append {es es' : List (LogEvent H D)} {x : LogEvent H D} (hx : x ∈ standing es)
    (h : ∀ e ∈ es', e.removed = true → ¬x.SameLog e) : x ∈ standing (es ++ es') := by
  induction es' using List.reverseRecOn with
  | nil => simpa using hx
  | append_singleton es' e ih =>
    rw [← List.append_assoc, standing_concat, mem_standStep]
    refine Or.inl ⟨ih fun e' h' => h e' (List.mem_append_left _ h'), h e (by simp)⟩

/-! ### Below a height nothing later takes back -/

/-- The standing rows strictly below a height. -/
def liveBelow (rows : List (EmissionRow H D)) (F : ℕ) : List (EmissionRow H D) :=
  rows.filter fun r => r.alive && decide (r.blockNumber < F)

/-- Each log is at the height of its block. -/
def Heights (numberOf : H → ℕ) (es : List (LogEvent H D)) : Prop :=
  ∀ e ∈ es, e.blockNumber = numberOf e.blockHash

/-- One entry that takes back nothing below `F` adds at most its own row there. -/
theorem liveBelow_push {numberOf : H → ℕ} {rows : List (EmissionRow H D)} {e : LogEvent H D} {F n : ℕ}
    (hrows : ∀ r ∈ rows, r.blockNumber = numberOf r.blockHash) (he : e.blockNumber = numberOf e.blockHash)
    (hF : e.removed = true → F ≤ e.blockNumber) :
    liveBelow (pushEmission (rows, n) e).1 F = liveBelow rows F ++
      if e.removed = false ∧ e.blockNumber < F then [⟨e, n + 1, true⟩] else [] := by
  unfold pushEmission liveBelow
  simp only [List.filter_append]
  congr 1
  · unfold flagSuperseded
    split
    · rename_i hrem
      have hge := hF hrem
      rw [List.filter_map]
      have hkeep : rows.filter ((fun r : EmissionRow H D => r.alive && decide (r.blockNumber < F)) ∘
          EmissionRow.flag e) = rows.filter fun r => r.alive && decide (r.blockNumber < F) := by
        refine List.filter_congr fun r hr => ?_
        rw [Function.comp_apply, flag_toLogEvent]
        -- a flagged row is at the height of the entry
        unfold EmissionRow.flag
        split
        · rename_i hm
          have hge' : ¬r.blockNumber < F := by
            rw [hrows r hr, hm.1, ← he]
            omega
          simp [hge']
        · rfl
      rw [hkeep]
      refine (List.map_congr_left fun r hr => ?_).trans (List.map_id _)
      rw [← hkeep, List.mem_filter, Function.comp_apply, Bool.and_eq_true] at hr
      exact flag_eq_self hr.2.1
    · rfl
  · by_cases hrem : e.removed = true
    · simp [hrem]
    · by_cases hlt : e.blockNumber < F <;> simp [hrem, hlt]

/-- **Entries that take back nothing below `F`** leave the standing rows there, and add
to them the rows of what they bring there. -/
theorem liveBelow_append {numberOf : H → ℕ} {es es' : List (LogEvent H D)} {F : ℕ}
    (h : Heights numberOf (es ++ es')) (hF : ∀ e ∈ es', e.removed = true → F ≤ e.blockNumber) :
    ∃ news, liveBelow (tableOf (es ++ es')) F = liveBelow (tableOf es) F ++ news ∧
      (news = [] ↔ ∀ e ∈ es', e.removed = false → F ≤ e.blockNumber) := by
  induction es' using List.reverseRecOn with
  | nil => exact ⟨[], by simp, by simp⟩
  | append_singleton es' e ih =>
    rw [← List.append_assoc] at h ⊢
    obtain ⟨news, hlive, hnil⟩ := ih (fun e' h' => h e' (List.mem_append_left _ h'))
      fun e' h' => hF e' (List.mem_append_left _ h')
    have hrows : ∀ r ∈ tableOf (es ++ es'), r.blockNumber = numberOf r.blockHash := fun r hr =>
      h _ (List.mem_append_left _ (mem_tableOf_log hr))
    have hpush := liveBelow_push (n := (es ++ es').length) hrows (h e (by simp)) (hF e (by simp))
    have hstep : tableOf (es ++ es' ++ [e]) =
        (pushEmission (tableOf (es ++ es'), (es ++ es').length) e).1 := by
      rw [← appendEmissions_tableOf]
      unfold appendEmissions
      rw [readStreamHighWaterMark_tableOf]
      rfl
    rw [hstep, hpush, hlive, List.append_assoc]
    refine ⟨_, rfl, ?_⟩
    rw [List.append_eq_nil_iff, hnil]
    simp only [List.mem_append, List.mem_singleton, or_imp, forall_and, forall_eq]
    refine and_congr Iff.rfl ?_
    by_cases hnew : e.removed = false ∧ e.blockNumber < F
    · simp [hnew]
    · simp only [if_neg hnew, true_iff]
      intro hrem
      by_contra hlt
      exact hnew ⟨hrem, by omega⟩

end Etherfold
