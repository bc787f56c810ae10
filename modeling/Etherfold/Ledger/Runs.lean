import Etherfold.Ledger.Settle

/-!
# Runs of a ledger

An entry that is repeated at once makes one run with what it repeats.

* `runs`: the entries of a list, each with how often it comes in a row.
* `bare`: the list with each run said once.
* `runs_append`: runs of two lists, where they do not merge at the seam.
* `held_bare`, `retractedLater_bare`: **saying a run once changes nothing**.
-/

namespace Ledger

variable {β : Type*} [DecidableEq β]

/-- **The runs of a list**: each entry, and how often it comes in a row. -/
def runs : List β → List (β × ℕ)
  | [] => []
  | o :: ops =>
    match runs ops with
    | [] => [(o, 1)]
    | r :: rs => if r.1 = o then (o, r.2 + 1) :: rs else (o, 1) :: r :: rs

/-- The list with each run said once. -/
def bare (ops : List β) : List β := (runs ops).map (·.1)

variable {a b ops : List β} {o o' : β}

theorem runs_ne_nil (o : β) (ops : List β) : runs (o :: ops) ≠ [] := by
  unfold runs
  split
  · exact List.cons_ne_nil _ _
  · split <;> exact List.cons_ne_nil _ _

theorem bare_head? (ops : List β) : (bare ops).head? = ops.head? := by
  cases ops with
  | nil => rfl
  | cons o ops =>
    unfold bare runs
    split
    · rfl
    · split <;> rfl

theorem runs_cons_of_ne (h : ops.head? ≠ some o) : runs (o :: ops) = (o, 1) :: runs ops := by
  have hhead := bare_head? ops
  unfold bare at hhead
  rw [runs]
  split
  · rename_i hnil
    rw [hnil]
  · rename_i r rs hrs
    rw [hrs, List.map_cons, List.head?_cons] at hhead
    rw [if_neg fun heq => h (hhead.symm.trans (congrArg some heq)), hrs]

theorem runs_cons_self (o : β) (ops : List β) :
    ∃ n rs, runs (o :: ops) = (o, n + 1) :: rs ∧ runs (o :: o :: ops) = (o, n + 2) :: rs := by
  have hagain : ∀ n rs, runs (o :: ops) = (o, n + 1) :: rs → runs (o :: o :: ops) = (o, n + 2) :: rs := by
    intro n rs hrs
    rw [runs, hrs]
    exact if_pos rfl
  by_cases h : ops.head? = some o
  · cases hops : runs ops with
    | nil =>
      cases ops with
      | nil => cases h
      | cons o' ops => exact absurd hops (runs_ne_nil o' ops)
    | cons r rs =>
      have hhead := bare_head? ops
      unfold bare at hhead
      rw [hops, List.map_cons, List.head?_cons, h] at hhead
      have hrs : runs (o :: ops) = (o, r.2 + 1) :: rs := by
        rw [runs, hops]
        exact if_pos (Option.some.inj hhead)
      exact ⟨r.2, rs, hrs, hagain _ _ hrs⟩
  · have hrs := runs_cons_of_ne h
    exact ⟨0, runs ops, hrs, hagain _ _ hrs⟩

/-- The run an entry joins, with `j` of its kind before it. -/
theorem runs_replicate_append (j : ℕ) (o : β) (ops : List β) :
    ∃ n rs, runs (List.replicate j o ++ o :: ops) = (o, n + j + 1) :: rs := by
  induction j with
  | zero =>
    obtain ⟨n, rs, hrs, -⟩ := runs_cons_self o ops
    exact ⟨n, rs, hrs⟩
  | succ j ih =>
    obtain ⟨n, rs, hrs⟩ := ih
    refine ⟨n, rs, ?_⟩
    rw [List.replicate_succ, List.cons_append, runs, hrs]
    exact if_pos rfl

/-- Neighbouring runs differ. -/
theorem bare_chain (ops : List β) : (bare ops).IsChain (· ≠ ·) := by
  induction ops with
  | nil => exact List.IsChain.nil
  | cons o ops ih =>
    unfold bare at ih ⊢
    rw [runs]
    split
    · exact List.IsChain.singleton _
    · rename_i r rs hrs
      rw [hrs] at ih
      split
      · rename_i heq
        rw [List.map_cons] at ih ⊢
        rwa [heq] at ih
      · rename_i hne
        exact List.IsChain.cons_cons (Ne.symm hne) ih

/-- The runs, written out, are the list. -/
theorem flatMap_runs (ops : List β) : (runs ops).flatMap (fun r => List.replicate r.2 r.1) = ops := by
  induction ops with
  | nil => rfl
  | cons o ops ih =>
    rw [runs]
    split
    · rename_i hnil
      rw [hnil] at ih
      rw [← ih]
      rfl
    · rename_i r rs hrs
      rw [hrs, List.flatMap_cons] at ih
      split
      · rename_i heq
        rw [List.flatMap_cons, List.replicate_succ, List.cons_append]
        rw [heq] at ih
        rw [ih]
      · rw [List.flatMap_cons, List.flatMap_cons, ih]
        rfl

theorem runs_pos : ∀ r ∈ runs ops, 0 < r.2 := by
  induction ops with
  | nil => exact fun r hr => absurd hr List.not_mem_nil
  | cons o ops ih =>
    intro r hr
    rw [runs] at hr
    split at hr
    · rw [List.mem_singleton.1 hr]
      exact Nat.one_pos
    · rename_i s rs hrs
      rw [hrs] at ih
      split at hr
      · rcases List.mem_cons.1 hr with rfl | hr
        · exact Nat.succ_pos _
        · exact ih r (List.mem_cons_of_mem _ hr)
      · rcases List.mem_cons.1 hr with rfl | hr
        · exact Nat.one_pos
        · exact ih r hr

/-- A run of an entry is of an entry of the list. -/
theorem mem_of_mem_bare (h : o ∈ bare ops) : o ∈ ops := by
  obtain ⟨r, hr, rfl⟩ := List.mem_map.1 h
  rw [← flatMap_runs ops]
  exact List.mem_flatMap.2 ⟨r, hr, List.mem_replicate.2 ⟨(runs_pos r hr).ne', rfl⟩⟩

/-- **Where two lists do not merge**, their runs stay. -/
theorem runs_append (h : ∀ o ∈ a.getLast?, b.head? ≠ some o) : runs (a ++ b) = runs a ++ runs b := by
  induction a with
  | nil => rfl
  | cons o a ih =>
    cases a with
    | nil =>
      have hne : b.head? ≠ some o := h o rfl
      rw [List.singleton_append, runs_cons_of_ne hne]
      rfl
    | cons o' a =>
      have hih := ih fun x hx => h x (by rwa [List.getLast?_cons_cons])
      rw [List.cons_append, runs, hih]
      cases hrs : runs (o' :: a) with
      | nil => exact absurd hrs (runs_ne_nil o' a)
      | cons r rs =>
        rw [List.cons_append, runs, hrs]
        dsimp only
        split <;> rfl

theorem bare_append (h : ∀ o ∈ a.getLast?, b.head? ≠ some o) : bare (a ++ b) = bare a ++ bare b := by
  unfold bare
  rw [runs_append h, List.map_append]

/-- A list without repetitions is its runs. -/
theorem runs_of_chain (h : ops.IsChain (· ≠ ·)) : runs ops = ops.map fun o => (o, 1) := by
  induction ops with
  | nil => rfl
  | cons o ops ih =>
    rw [runs_cons_of_ne, ih h.tail, List.map_cons]
    cases ops with
    | nil => exact Option.some_ne_none o ∘ Eq.symm
    | cons o' ops =>
      intro heq
      exact (List.isChain_cons_cons.1 h).1 (Option.some.inj heq).symm

theorem bare_of_chain (h : ops.IsChain (· ≠ ·)) : bare ops = ops := by
  unfold bare
  rw [runs_of_chain h, List.map_map]
  exact List.map_id ops

/-- Saying the first entry again makes no run. -/
theorem bare_replicate_append (j : ℕ) (h : b.head? = some o) : bare (List.replicate j o ++ b) = bare b := by
  induction j with
  | zero => rfl
  | succ j ih =>
    rw [← ih, List.replicate_succ, List.cons_append]
    have hhead : (List.replicate j o ++ b).head? = some o := by
      cases j with
      | zero => exact h
      | succ j => rfl
    cases hl : List.replicate j o ++ b with
    | nil =>
      rw [hl] at hhead
      cases hhead
    | cons o' l =>
      rw [hl] at hhead
      cases hhead
      obtain ⟨n, rs, h1, h2⟩ := runs_cons_self o l
      unfold bare
      rw [h1, h2]
      rfl

theorem bare_append_singleton (h : a.getLast? = some o) : bare (a ++ [o]) = bare a := by
  induction a with
  | nil => cases h
  | cons x a ih =>
    cases a with
    | nil =>
      cases h
      exact bare_replicate_append 1 rfl
    | cons y a =>
      rw [List.getLast?_cons_cons] at h
      have hih := ih h
      by_cases hxy : x = y
      · subst hxy
        rw [List.cons_append]
        exact (bare_replicate_append 1 rfl).trans (hih.trans (bare_replicate_append 1 rfl).symm)
      · have hne : ∀ l : List β, (y :: l).head? ≠ some x := fun l heq => hxy (Option.some.inj heq).symm
        unfold bare at hih ⊢
        rw [List.cons_append, List.cons_append, runs_cons_of_ne (hne _), runs_cons_of_ne (hne _), List.map_cons,
          List.map_cons, ← hih]
        rfl

/-- Nor does saying the last entry again. -/
theorem bare_append_replicate (m : ℕ) (h : a.getLast? = some o) : bare (a ++ List.replicate m o) = bare a := by
  induction m with
  | zero => rw [List.replicate_zero, List.append_nil]
  | succ m ih =>
    rw [List.replicate_succ', ← List.append_assoc, bare_append_singleton, ih]
    rw [List.getLast?_append, h]
    cases m with
    | zero => rfl
    | succ m => rw [List.replicate_succ', List.getLast?_concat]; rfl

/-! ### Ledgers -/

variable {α : Type*} [DecidableEq α]

theorem apply_apply (S : Finset α) (o : Op α) : apply (apply S o) o = apply S o := by
  cases o with
  | add x => exact Finset.insert_idem x S
  | retract x => exact Finset.erase_idem

theorem held_replicate (S : Finset α) (o : Op α) (n : ℕ) :
    held S (List.replicate (n + 1) o) = apply S o := by
  induction n with
  | zero => rfl
  | succ n ih =>
    rw [List.replicate_succ', held_append, ih]
    exact apply_apply S o

/-- What reads entries one by one, a run as its first one, reads the same of them said once. -/
theorem eq_of_bare {β : Type*} {f : List (Op α) → β} (hnext : ∀ o a b, f a = f b → f (o :: a) = f (o :: b))
    (hrun : ∀ o n ops, f (List.replicate (n + 1) o ++ ops) = f (o :: ops)) (ops : List (Op α)) :
    f (bare ops) = f ops := by
  have hruns : ∀ rs : List (Op α × ℕ), (∀ r ∈ rs, 0 < r.2) →
      f (rs.map (·.1)) = f (rs.flatMap fun r => List.replicate r.2 r.1) := by
    intro rs hpos
    induction rs with
    | nil => rfl
    | cons r rs ih =>
      obtain ⟨n, hn⟩ := Nat.exists_eq_succ_of_ne_zero (hpos r List.mem_cons_self).ne'
      rw [List.map_cons, List.flatMap_cons, hn, hrun]
      exact hnext _ _ _ (ih fun s hs => hpos s (List.mem_cons_of_mem _ hs))
  unfold bare
  rw [hruns _ runs_pos, flatMap_runs]

/-- **Saying a run once changes no holding.** -/
theorem held_bare (S : Finset α) (ops : List (Op α)) : held S (bare ops) = held S ops := by
  refine congrFun (eq_of_bare (f := fun ops S => held S ops) (fun o a b h => funext fun S => ?_) (fun o n ops => ?_) ops) S
  · exact congrFun h (apply S o)
  · funext S
    rw [held_append, held_replicate]
    rfl

theorem retractedLater_replicate (x : α) (o : Op α) (n : ℕ) (ops : List (Op α)) :
    retractedLater x (List.replicate (n + 1) o ++ ops) = retractedLater x (o :: ops) := by
  induction n with
  | zero => rfl
  | succ n ih =>
    rw [List.replicate_succ, List.cons_append]
    cases o with
    | add y =>
      rw [retractedLater, ih, retractedLater]
      split <;> rfl
    | retract y =>
      rw [retractedLater, ih, retractedLater]
      split <;> rfl

/-- **Nor what is taken back next.** -/
theorem retractedLater_bare (x : α) (ops : List (Op α)) : retractedLater x (bare ops) = retractedLater x ops := by
  refine eq_of_bare (fun o a b h => ?_) (retractedLater_replicate x) ops
  cases o <;> rw [retractedLater, retractedLater, h]

end Ledger
