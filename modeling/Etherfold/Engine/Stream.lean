import Mathlib.Data.Finset.Sort
import Mathlib.Tactic

/-!
# Logs, blocks of logs, and cursors

The data of the engine: a log as the node reports it (`LogEvent`), the logs of
one block (`EventBlock`), the sync cursor with its unconfirmed window
(`LastSync`), and the two groupings of a list of logs into blocks.

Block numbers are natural numbers and the subtractions truncate. The source
subtracts plain numbers, but only inside `min(lastToBlock + 1, ...)`, which is
then raised to `defaultFromBlock`, and inside `... - number <= finality`; neither
can tell a negative difference from zero.
-/

namespace Etherfold

/-- A log, or its retraction when `removed` is set. `data` stands for the fields
the engine only carries (address, topics, data, decoded arguments, timestamp). -/
structure LogEvent (H D : Type) where
  blockHash : H
  blockNumber : ℕ
  logIndex : ℕ
  removed : Bool
  data : D
  deriving DecidableEq, Repr

/-- The logs of one block. -/
structure EventBlock (H D : Type) where
  hash : H
  number : ℕ
  events : List (LogEvent H D)
  deriving DecidableEq, Repr

/-- A run of one block's entries in a stream: applied or retracted, never both. -/
structure StreamBlock (H D : Type) extends EventBlock H D where
  removed : Bool
  deriving DecidableEq, Repr

/-- The sync cursor. -/
structure LastSync (H D : Type) where
  lastFromBlock : ℕ
  latestBlock : ℕ
  lastToBlock : ℕ
  unconfirmedBlocks : List (EventBlock H D)
  deriving DecidableEq, Repr

variable {H D : Type}

/-- The cursor of a fold that has stored nothing yet. -/
def LastSync.fresh : LastSync H D := ⟨0, 0, 0, []⟩

/-- **Where a fold reads from next.** -/
def getFromBlock (lastSync : LastSync H D) (defaultFromBlock finality : ℕ) : ℕ :=
  if lastSync.latestBlock = 0 then defaultFromBlock
  else max (min (lastSync.lastToBlock + 1) (lastSync.latestBlock - finality)) defaultFromBlock

theorem getFromBlock_ge (c : LastSync H D) (d f : ℕ) : d ≤ getFromBlock c d f := by
  unfold getFromBlock
  split
  · exact le_rfl
  · exact le_max_right _ _

theorem getFromBlock_le (c : LastSync H D) (d f : ℕ) :
    getFromBlock c d f ≤ max (c.lastToBlock + 1) d := by
  unfold getFromBlock
  split <;> omega

variable [DecidableEq H]

/-- One step of `groupLogsPerBlock`: the log joins the group of its block hash, or
opens one. -/
def pushLog (groups : List (EventBlock H D)) (event : LogEvent H D) : List (EventBlock H D) :=
  if groups.any (·.hash = event.blockHash) then
    groups.map fun g => if g.hash = event.blockHash then { g with events := g.events ++ [event] } else g
  else groups ++ [⟨event.blockHash, event.blockNumber, [event]⟩]

/-- **The grouping of a fetch**: by block hash, in order of first appearance;
`removed` logs have no business in a fetch and are skipped. -/
def groupLogsPerBlock (logEvents : List (LogEvent H D)) : List (EventBlock H D) :=
  (logEvents.filter (!·.removed)).foldl pushLog []

/-- **The grouping of a stream**: consecutive runs of one block hash and one
verdict. -/
def groupStreamPerBlock : List (LogEvent H D) → List (StreamBlock H D)
  | [] => []
  | event :: stream =>
    match groupStreamPerBlock stream with
    | [] => [⟨⟨event.blockHash, event.blockNumber, [event]⟩, event.removed⟩]
    | g :: groups =>
      if g.hash = event.blockHash ∧ g.removed = event.removed then
        ⟨⟨event.blockHash, event.blockNumber, event :: g.events⟩, event.removed⟩ :: groups
      else ⟨⟨event.blockHash, event.blockNumber, [event]⟩, event.removed⟩ :: g :: groups

/-! ### Grouping what already comes in blocks -/

theorem foldl_pushLog_same (acc : List (EventBlock H D)) {x : H} {n : ℕ} (evs es : List (LogEvent H D))
    (hacc : ∀ g ∈ acc, g.hash ≠ x) (hes : ∀ e ∈ es, e.blockHash = x) :
    es.foldl pushLog (acc ++ [⟨x, n, evs⟩]) = acc ++ [⟨x, n, evs ++ es⟩] := by
  induction es generalizing evs with
  | nil => simp
  | cons e es ih =>
    have he : e.blockHash = x := hes e List.mem_cons_self
    have hstep : pushLog (acc ++ [⟨x, n, evs⟩]) e = acc ++ [⟨x, n, evs ++ [e]⟩] := by
      unfold pushLog
      rw [if_pos (by simp [he]), he]
      rw [List.map_append]
      congr 1
      · refine (List.map_congr_left fun g hg => ?_).trans (List.map_id _)
        rw [if_neg (hacc g hg)]; rfl
      · simp
    rw [List.foldl_cons, hstep, ih _ fun e' h' => hes e' (List.mem_cons_of_mem _ h')]
    simp

/-- A block of logs: nonempty, all of one hash and one height, none removed. -/
structure EventBlock.Ok (b : EventBlock H D) : Prop where
  events_ne : b.events ≠ []
  hash : ∀ e ∈ b.events, e.blockHash = b.hash
  number : ∀ e ∈ b.events, e.blockNumber = b.number
  live : ∀ e ∈ b.events, e.removed = false

/-- **`groupLogsPerBlock` gives back the blocks a payload was made of.** -/
theorem groupLogsPerBlock_flatMap (bs : List (EventBlock H D)) (hok : ∀ b ∈ bs, b.Ok)
    (hn : (bs.map (·.hash)).Nodup) : groupLogsPerBlock (bs.flatMap (·.events)) = bs := by
  have hlive : (bs.flatMap (·.events)).filter (!·.removed) = bs.flatMap (·.events) := by
    rw [List.filter_eq_self]
    intro e he
    obtain ⟨b, hb, he⟩ := List.mem_flatMap.1 he
    simp [(hok b hb).live e he]
  unfold groupLogsPerBlock
  rw [hlive]
  -- the groups opened so far are blocks of other hashes
  have key : ∀ acc : List (EventBlock H D), (∀ g ∈ acc, ∀ b ∈ bs, g.hash ≠ b.hash) →
      (bs.flatMap (·.events)).foldl pushLog acc = acc ++ bs := by
    clear hlive
    induction bs with
    | nil => intro acc _; simp
    | cons b bs ih =>
      intro acc hacc
      have hb := hok b List.mem_cons_self
      rw [List.map_cons, List.nodup_cons] at hn
      obtain ⟨e, es, hes⟩ := List.exists_cons_of_ne_nil hb.events_ne
      have hopen : pushLog acc e = acc ++ [⟨b.hash, b.number, [e]⟩] := by
        unfold pushLog
        rw [if_neg, hb.hash e (by simp [hes]), hb.number e (by simp [hes])]
        simp only [List.any_eq_true, decide_eq_true_eq, not_exists, not_and, hb.hash e (by simp [hes])]
        exact fun g hg => hacc g hg b List.mem_cons_self
      rw [List.flatMap_cons, List.foldl_append, hes, List.foldl_cons, hopen,
        foldl_pushLog_same acc [e] es (fun g hg => hacc g hg b List.mem_cons_self)
          (fun e' h' => hb.hash e' (by simp [hes, h']))]
      rw [ih (fun b' hb' => hok b' (List.mem_cons_of_mem _ hb')) hn.2]
      · simp only [List.append_assoc, List.singleton_append, ← hes]
      · intro g hg b' hb'
        rcases List.mem_append.1 hg with hg | hg
        · exact hacc g hg b' (List.mem_cons_of_mem _ hb')
        · rw [List.mem_singleton] at hg
          subst hg
          exact fun h => hn.1 (List.mem_map.2 ⟨b', hb', h.symm⟩)
  simpa using key [] (by simp)

/-- The groups hold the logs and nothing else, each under its block's hash. -/
structure Grouped (groups : List (EventBlock H D)) (logs : List (LogEvent H D)) : Prop where
  events : ∀ g ∈ groups, ∀ e ∈ g.events, e.blockHash = g.hash ∧ e ∈ logs
  number : ∀ g ∈ groups, ∃ e ∈ g.events, e.blockNumber = g.number
  complete : ∀ e ∈ logs, ∃ g ∈ groups, e ∈ g.events

theorem Grouped.push {groups : List (EventBlock H D)} {logs : List (LogEvent H D)}
    (h : Grouped groups logs) (e : LogEvent H D) : Grouped (pushLog groups e) (logs ++ [e]) := by
  have hlift : ∀ e' ∈ logs, e' ∈ logs ++ [e] := fun e' h' => List.mem_append_left _ h'
  unfold pushLog
  split
  · rename_i hany
    obtain ⟨g₀, hg₀, hhash⟩ := List.any_eq_true.1 hany
    rw [decide_eq_true_eq] at hhash
    -- the group of the log grows, the others stay
    have hgrow : ∀ g ∈ groups, ∀ e' ∈ g.events, e' ∈
        (if g.hash = e.blockHash then { g with events := g.events ++ [e] } else g).events := by
      intro g _ e' he'
      split
      · exact List.mem_append_left _ he'
      · exact he'
    refine ⟨?_, ?_, ?_⟩
    · intro g' hg' e' he'
      obtain ⟨g, hg, rfl⟩ := List.mem_map.1 hg'
      by_cases hh : g.hash = e.blockHash
      · rw [if_pos hh] at he' ⊢
        rcases List.mem_append.1 he' with he' | he'
        · exact ⟨(h.events g hg e' he').1, hlift e' (h.events g hg e' he').2⟩
        · rw [List.mem_singleton.1 he']
          exact ⟨hh.symm, by simp⟩
      · rw [if_neg hh] at he' ⊢
        exact ⟨(h.events g hg e' he').1, hlift e' (h.events g hg e' he').2⟩
    · intro g' hg'
      obtain ⟨g, hg, rfl⟩ := List.mem_map.1 hg'
      obtain ⟨e', he', hn⟩ := h.number g hg
      refine ⟨e', hgrow g hg e' he', ?_⟩
      split <;> exact hn
    · intro e' he'
      rcases List.mem_append.1 he' with he' | he'
      · obtain ⟨g, hg, he'⟩ := h.complete e' he'
        exact ⟨_, List.mem_map.2 ⟨g, hg, rfl⟩, hgrow g hg e' he'⟩
      · rw [List.mem_singleton.1 he']
        refine ⟨_, List.mem_map.2 ⟨g₀, hg₀, rfl⟩, ?_⟩
        rw [if_pos hhash]
        simp
  · refine ⟨?_, ?_, ?_⟩
    · intro g hg e' he'
      rcases List.mem_append.1 hg with hg | hg
      · exact ⟨(h.events g hg e' he').1, hlift e' (h.events g hg e' he').2⟩
      · rw [List.mem_singleton] at hg
        subst hg
        rw [List.mem_singleton.1 he']
        exact ⟨rfl, by simp⟩
    · intro g hg
      rcases List.mem_append.1 hg with hg | hg
      · exact h.number g hg
      · rw [List.mem_singleton] at hg
        subst hg
        exact ⟨e, List.mem_singleton_self e, rfl⟩
    · intro e' he'
      rcases List.mem_append.1 he' with he' | he'
      · obtain ⟨g, hg, he'⟩ := h.complete e' he'
        exact ⟨g, List.mem_append_left _ hg, he'⟩
      · rw [List.mem_singleton.1 he']
        exact ⟨_, List.mem_append_right _ (List.mem_singleton_self _), List.mem_singleton_self e⟩

/-- **`groupLogsPerBlock` keeps the logs of a payload**, whatever the payload. -/
theorem groupLogsPerBlock_grouped (logs : List (LogEvent H D)) (hlive : ∀ e ∈ logs, e.removed = false) :
    Grouped (groupLogsPerBlock logs) logs := by
  have hfilter : logs.filter (!·.removed) = logs := by
    rw [List.filter_eq_self]
    intro e he
    simp [hlive e he]
  unfold groupLogsPerBlock
  rw [hfilter]
  have key : ∀ (es seen : List (LogEvent H D)) (acc : List (EventBlock H D)), Grouped acc seen →
      Grouped (es.foldl pushLog acc) (seen ++ es) := by
    intro es
    induction es with
    | nil => intro seen acc h; simpa using h
    | cons e es ih =>
      intro seen acc h
      have := ih (seen ++ [e]) (pushLog acc e) (h.push e)
      simpa using this
  simpa using key logs [] [] ⟨by simp, by simp, by simp⟩

/-- A log goes to one group. -/
theorem pushLog_perm {groups : List (EventBlock H D)} (hn : (groups.map (·.hash)).Nodup) (e : LogEvent H D) :
    ((pushLog groups e).map (·.hash)).Nodup ∧
      ((pushLog groups e).flatMap (·.events)).Perm (groups.flatMap (·.events) ++ [e]) := by
  unfold pushLog
  split
  · rename_i hany
    obtain ⟨g, hg, hhash⟩ := List.any_eq_true.1 hany
    rw [decide_eq_true_eq] at hhash
    obtain ⟨l₁, l₂, rfl⟩ := List.append_of_mem hg
    rw [List.map_append, List.map_cons, List.nodup_middle, List.nodup_cons, List.mem_append, not_or] at hn
    have hother : ∀ l : List (EventBlock H D), g.hash ∉ l.map (·.hash) → (l.map fun g' =>
        if g'.hash = e.blockHash then { g' with events := g'.events ++ [e] } else g') = l := by
      intro l hl
      refine (List.map_congr_left fun g' hg' => ?_).trans (List.map_id _)
      rw [if_neg fun heq => hl (List.mem_map.2 ⟨g', hg', heq.trans hhash.symm⟩)]
      rfl
    rw [List.map_append, List.map_cons, hother l₁ hn.1.1, hother l₂ hn.1.2, if_pos hhash]
    constructor
    · rw [List.map_append, List.map_cons, List.nodup_middle, List.nodup_cons, List.mem_append, not_or]
      exact hn
    · rw [List.flatMap_append, List.flatMap_cons, List.flatMap_append, List.flatMap_cons]
      have hswap := (@List.perm_append_comm _ [e] (l₂.flatMap (·.events))).append_left
        (l₁.flatMap (·.events) ++ g.events)
      simpa only [List.append_assoc] using hswap
  · rename_i hnone
    constructor
    · rw [List.map_append, List.nodup_append]
      refine ⟨hn, List.nodup_singleton _, fun x hx y hy heq => hnone ?_⟩
      obtain ⟨g, hg, rfl⟩ := List.mem_map.1 hx
      have hy' : y = e.blockHash := by simpa using hy
      exact List.any_eq_true.2 ⟨g, hg, decide_eq_true (heq.trans hy')⟩
    · rw [List.flatMap_append]
      apply List.Perm.append_left
      rw [List.flatMap_singleton]

/-- **Every log of a payload goes to one group**, and no two groups share a hash. -/
theorem groupLogsPerBlock_perm (logs : List (LogEvent H D)) (hlive : ∀ e ∈ logs, e.removed = false) :
    ((groupLogsPerBlock logs).map (·.hash)).Nodup ∧ ((groupLogsPerBlock logs).flatMap (·.events)).Perm logs := by
  have hfilter : logs.filter (!·.removed) = logs := by
    rw [List.filter_eq_self]
    intro e he
    simp [hlive e he]
  unfold groupLogsPerBlock
  rw [hfilter]
  have key : ∀ (es : List (LogEvent H D)) (acc : List (EventBlock H D)), (acc.map (·.hash)).Nodup →
      ((es.foldl pushLog acc).map (·.hash)).Nodup ∧
        ((es.foldl pushLog acc).flatMap (·.events)).Perm (acc.flatMap (·.events) ++ es) := by
    intro es
    induction es with
    | nil =>
      intro acc hn
      rw [List.append_nil]
      exact ⟨hn, List.Perm.refl _⟩
    | cons e es ih =>
      intro acc hn
      obtain ⟨hn', hperm⟩ := pushLog_perm hn e
      obtain ⟨hnodup, hrest⟩ := ih _ hn'
      refine ⟨hnodup, hrest.trans ?_⟩
      rw [← List.singleton_append, ← List.append_assoc]
      exact hperm.append_right es
  exact key logs [] List.nodup_nil

/-- A run of one block's entries: nonempty, all of one hash, height and verdict. -/
structure StreamBlock.Ok (g : StreamBlock H D) : Prop where
  events_ne : g.events ≠ []
  hash : ∀ e ∈ g.events, e.blockHash = g.hash
  number : ∀ e ∈ g.events, e.blockNumber = g.number
  removed : ∀ e ∈ g.events, e.removed = g.removed

theorem groupStreamPerBlock_append {g : StreamBlock H D} (hg : g.Ok) {stream : List (LogEvent H D)}
    (hdiff : ∀ g' ∈ (groupStreamPerBlock stream).head?, ¬(g'.hash = g.hash ∧ g'.removed = g.removed)) :
    groupStreamPerBlock (g.events ++ stream) = g :: groupStreamPerBlock stream := by
  obtain ⟨⟨h, n, evs⟩, r⟩ := g
  obtain ⟨hne, hh, hnum, hr⟩ := hg
  simp only at hne hh hnum hr hdiff ⊢
  induction evs with
  | nil => exact absurd rfl hne
  | cons e es ih =>
    have he := hh e List.mem_cons_self
    have hn := hnum e List.mem_cons_self
    have her := hr e List.mem_cons_self
    rw [List.cons_append, groupStreamPerBlock]
    cases es with
    | nil =>
      rw [List.nil_append]
      cases hs : groupStreamPerBlock stream with
      | nil => simp [he, hn, her]
      | cons g' gs =>
        rw [hs] at hdiff
        have := hdiff g' rfl
        simp only [he, her, hn]
        rw [if_neg this]
    | cons e' es =>
      rw [ih (by simp) (fun x hx => hh x (List.mem_cons_of_mem _ hx))
        (fun x hx => hnum x (List.mem_cons_of_mem _ hx))
        (fun x hx => hr x (List.mem_cons_of_mem _ hx))]
      simp [he, hn, her]

/-- **`groupStreamPerBlock` gives back the runs a stream was made of**, when no two
neighbouring runs carry one block with one verdict. -/
theorem groupStreamPerBlock_flatMap (gs : List (StreamBlock H D)) (hok : ∀ g ∈ gs, g.Ok)
    (hc : gs.IsChain fun g g' => ¬(g'.hash = g.hash ∧ g'.removed = g.removed)) :
    groupStreamPerBlock (gs.flatMap (·.events)) = gs := by
  induction gs with
  | nil => rfl
  | cons g gs ih =>
    have hrest := ih (fun g' h' => hok g' (List.mem_cons_of_mem _ h')) hc.tail
    rw [List.flatMap_cons, groupStreamPerBlock_append (hok g List.mem_cons_self), hrest]
    rw [hrest]
    intro g' hg'
    cases gs with
    | nil => simp at hg'
    | cons g₁ gs =>
      simp only [List.head?_cons, Option.mem_def, Option.some.injEq] at hg'
      subst hg'
      exact (List.isChain_cons_cons.1 hc).1

end Etherfold
