import Etherfold.Ledger.Basic

/-!
# Settling a ledger that is read again

A reader that already holds some items reads a ledger whose beginning it may have
read before. It passes on only what is news: it skips an addition of an item it
holds, a retraction of one it does not hold, and an addition it may skip because
the ledger takes it back later.

* `settle`: the entries passed on.
* `legal_settle`: they form a legal ledger for the reader.
* `held_settle`: **the reader ends with what reading the whole ledger gives**.
-/

namespace Ledger

variable {α : Type*} [DecidableEq α]

/-- The next entry naming the item takes it back. -/
def retractedLater (x : α) : List (Op α) → Bool
  | [] => false
  | .add y :: ops => if y = x then false else retractedLater x ops
  | .retract y :: ops => if y = x then true else retractedLater x ops

/-- **The news of a ledger** for a reader that holds `S` and may skip what passes `skip`. -/
def settle (skip : α → Bool) (S : Finset α) : List (Op α) → List (Op α)
  | [] => []
  | .retract x :: ops =>
    if x ∈ S then .retract x :: settle skip (S.erase x) ops else settle skip S ops
  | .add x :: ops =>
    if x ∈ S then settle skip S ops
    else if skip x && retractedLater x ops then settle skip S ops
    else .add x :: settle skip (insert x S) ops

variable {skip : α → Bool} {S : Finset α} {ops : List (Op α)} {x : α}

/-- **What is passed on is legal.** -/
theorem legal_settle : Legal S (settle skip S ops) := by
  induction ops generalizing S with
  | nil => trivial
  | cons o ops ih =>
    cases o with
    | add y =>
      unfold settle
      split
      · exact ih
      · rename_i hy
        split
        · exact ih
        · exact ⟨hy, ih⟩
    | retract y =>
      unfold settle
      split
      · rename_i hy
        exact ⟨hy, ih⟩
      · exact ih

/-- Nothing is passed on that the ledger does not say. -/
theorem settle_sublist : (settle skip S ops).Sublist ops := by
  induction ops generalizing S with
  | nil => exact List.Sublist.refl _
  | cons o ops ih =>
    cases o with
    | add y =>
      unfold settle
      split
      · exact ih.cons _
      · split
        · exact ih.cons _
        · exact ih.cons_cons _
    | retract y =>
      unfold settle
      split
      · exact ih.cons_cons _
      · exact ih.cons _

/-- The reader and one that reads everything differ only in items about to be taken back. -/
theorem held_settle_of {T : Finset α} (hsub : S ⊆ T)
    (hdiff : ∀ y ∈ T, y ∉ S → retractedLater y ops = true) : held S (settle skip S ops) = held T ops := by
  induction ops generalizing S T with
  | nil =>
    refine Finset.Subset.antisymm hsub fun y hy => ?_
    by_contra hnot
    have hlater := hdiff y hy hnot
    cases hlater
  | cons o ops ih =>
    cases o with
    | retract x =>
      have hrest : ∀ y ∈ T, y ∉ S → y ≠ x → retractedLater y ops = true := by
        intro y hy hnot hne
        have hlater := hdiff y hy hnot
        rwa [retractedLater, if_neg hne.symm] at hlater
      unfold settle
      split
      · rw [held_retract, held_retract]
        refine ih (Finset.erase_subset_erase x hsub) fun y hy hnot => ?_
        obtain ⟨hne, hyT⟩ := Finset.mem_erase.1 hy
        exact hrest y hyT (fun hyS => hnot (Finset.mem_erase.2 ⟨hne, hyS⟩)) hne
      · rename_i hxS
        rw [held_retract]
        refine ih (fun y hy => Finset.mem_erase.2 ⟨fun h => hxS (h ▸ hy), hsub hy⟩) fun y hy hnot => ?_
        obtain ⟨hne, hyT⟩ := Finset.mem_erase.1 hy
        exact hrest y hyT hnot hne
    | add x =>
      have hrest : ∀ y ∈ T, y ∉ S → y ≠ x → retractedLater y ops = true := by
        intro y hy hnot hne
        have hlater := hdiff y hy hnot
        rwa [retractedLater, if_neg hne.symm] at hlater
      unfold settle
      split
      · rename_i hxS
        rw [held_add, Finset.insert_eq_of_mem (hsub hxS)]
        exact ih hsub fun y hy hnot => hrest y hy hnot fun h => hnot (h ▸ hxS)
      · rename_i hxS
        -- the item is not held by the full reader either: the entry is an addition
        have hxT : x ∉ T := by
          intro hxT
          have hlater := hdiff x hxT hxS
          rw [retractedLater, if_pos rfl] at hlater
          cases hlater
        split
        · rename_i hskip
          rw [held_add]
          refine ih (hsub.trans (Finset.subset_insert x T)) fun y hy hnot => ?_
          rcases Finset.mem_insert.1 hy with rfl | hyT
          · exact (Bool.and_eq_true_iff.1 hskip).2
          · exact hrest y hyT hnot fun h => hxT (h ▸ hyT)
        · rw [held_add, held_add]
          refine ih (Finset.insert_subset_insert x hsub) fun y hy hnot => ?_
          have hne : y ≠ x := fun h => hnot (h ▸ Finset.mem_insert_self x S)
          exact hrest y ((Finset.mem_insert.1 hy).resolve_left hne)
            (fun hyS => hnot (Finset.mem_insert_of_mem hyS)) hne

/-- **Passing on the news only changes nothing in the end.** -/
theorem held_settle : held S (settle skip S ops) = held S ops :=
  held_settle_of (Finset.Subset.refl S) fun _ hy hnot => absurd hy hnot

/-- **What a reader is told about an item, in total**: whether it ends held, less whether it was
held. -/
theorem net_settle (x : α) :
    net x (settle skip S ops) = (if x ∈ held S ops then 1 else 0) - (if x ∈ S then 1 else 0) := by
  rw [net_eq legal_settle, held_settle]

/-! ### One item -/

/-- The entries of one item. -/
def about (x : α) (ops : List (Op α)) : List (Op α) := ops.filter fun o => o.key = x

theorem about_append (x : α) (a b : List (Op α)) : about x (a ++ b) = about x a ++ about x b := by
  unfold about
  apply List.filter_append

theorem about_cons_of_eq {o : Op α} (h : o.key = x) : about x (o :: ops) = o :: about x ops :=
  List.filter_cons_of_pos (decide_eq_true h)

theorem about_cons_of_ne {o : Op α} (h : o.key ≠ x) : about x (o :: ops) = about x ops :=
  List.filter_cons_of_neg (by rwa [decide_eq_true_eq])

theorem retractedLater_about (x : α) (ops : List (Op α)) : retractedLater x (about x ops) = retractedLater x ops := by
  induction ops with
  | nil => rfl
  | cons o ops ih =>
    by_cases ho : o.key = x
    · rw [about_cons_of_eq ho]
      cases o with
      | add y =>
        rw [Op.key_add] at ho
        rw [retractedLater, retractedLater, if_pos ho, if_pos ho]
      | retract y =>
        rw [Op.key_retract] at ho
        rw [retractedLater, retractedLater, if_pos ho, if_pos ho]
    · rw [about_cons_of_ne ho, ih]
      cases o with
      | add y =>
        rw [Op.key_add] at ho
        rw [retractedLater, if_neg ho]
      | retract y =>
        rw [Op.key_retract] at ho
        rw [retractedLater, if_neg ho]

theorem held_about {S T : Finset α} (h : x ∈ S ↔ x ∈ T) : x ∈ held S (about x ops) ↔ x ∈ held T ops :=
  mem_held_filter (p := fun y => y = x) rfl h

/-- **The news about an item is the news of its own entries.** -/
theorem about_settle {T : Finset α} (h : x ∈ S ↔ x ∈ T) :
    about x (settle skip S ops) = settle skip T (about x ops) := by
  induction ops generalizing S T with
  | nil => rfl
  | cons o ops ih =>
    cases o with
    | retract y =>
      by_cases hy : y = x
      · have hown : ∀ ops : List (Op α), about x (.retract y :: ops) = .retract y :: about x ops :=
          fun ops => about_cons_of_eq hy
        subst hy
        rw [hown, settle, settle]
        by_cases hmem : y ∈ S
        · have herase : y ∈ S.erase y ↔ y ∈ T.erase y := by simp
          rw [if_pos hmem, if_pos (h.1 hmem), hown, ih herase]
        · rw [if_neg hmem, if_neg (mt h.2 hmem)]
          exact ih h
      · have hother : ∀ ops : List (Op α), about x (.retract y :: ops) = about x ops :=
          fun ops => about_cons_of_ne hy
        have hne : x ≠ y := fun heq => hy heq.symm
        rw [hother, settle]
        split
        · rw [hother]
          exact ih (by simp [hne, h])
        · exact ih h
    | add y =>
      by_cases hy : y = x
      · have hown : ∀ ops : List (Op α), about x (.add y :: ops) = .add y :: about x ops :=
          fun ops => about_cons_of_eq hy
        subst hy
        rw [hown, settle, settle]
        by_cases hmem : y ∈ S
        · rw [if_pos hmem, if_pos (h.1 hmem)]
          exact ih h
        · rw [if_neg hmem, if_neg (mt h.2 hmem), retractedLater_about]
          split
          · exact ih h
          · have hinsert : y ∈ insert y S ↔ y ∈ insert y T := by simp
            rw [hown, ih hinsert]
      · have hother : ∀ ops : List (Op α), about x (.add y :: ops) = about x ops :=
          fun ops => about_cons_of_ne hy
        have hne : x ≠ y := fun heq => hy heq.symm
        rw [hother, settle]
        split
        · exact ih h
        · split
          · exact ih h
          · rw [hother]
            exact ih (by simp [hne, h])

/-- Where nothing is skipped, the news of a ledger is the news of its parts. -/
theorem settle_append {a b : List (Op α)} (h : ∀ o ∈ a, skip o.key = false) :
    settle skip S (a ++ b) = settle skip S a ++ settle skip (held S a) b := by
  induction a generalizing S with
  | nil => rfl
  | cons o a ih =>
    have hrest : ∀ o ∈ a, skip o.key = false := fun o ho => h o (List.mem_cons_of_mem _ ho)
    cases o with
    | retract y =>
      rw [List.cons_append, settle, settle, held_retract]
      split
      · rw [ih hrest]
        rfl
      · rename_i hy
        rw [ih hrest, Finset.erase_eq_of_notMem hy]
    | add y =>
      have hy : skip y = false := h _ List.mem_cons_self
      rw [List.cons_append, settle, settle, held_add, hy]
      split
      · rename_i hmem
        rw [ih hrest, Finset.insert_eq_of_mem hmem]
      · rw [Bool.false_and, Bool.false_and, if_neg Bool.false_ne_true, if_neg Bool.false_ne_true, ih hrest]
        rfl

/-- Entries of one item after which it is not held say nothing of what comes next. -/
theorem settle_append_of_notHeld {a b : List (Op α)} (hkey : ∀ o ∈ a, o.key = x) (hS : S ⊆ {x})
    (hx : x ∉ held S a) : settle skip S (a ++ b) = settle skip S a ++ settle skip ∅ b := by
  induction a generalizing S with
  | nil =>
    have hempty : S = ∅ := by
      rcases Finset.subset_singleton_iff.1 hS with h | h
      · exact h
      · rw [h] at hx
        exact absurd (Finset.mem_singleton_self x) hx
    rw [hempty]
    rfl
  | cons o a ih =>
    have hrest : ∀ o ∈ a, o.key = x := fun o ho => hkey o (List.mem_cons_of_mem _ ho)
    have hox : o.key = x := hkey o List.mem_cons_self
    cases o with
    | retract y =>
      subst hox
      have herase : S.erase y = ∅ := by
        rcases Finset.subset_singleton_iff.1 hS with h | h <;> simp [h]
      rw [held_retract, Op.key_retract] at hx
      rw [List.cons_append, settle, settle]
      split
      · rw [ih hrest ((Finset.erase_subset _ _).trans hS) hx]
        rfl
      · rename_i hy
        rw [Op.key_retract] at hS
        rw [Finset.erase_eq_of_notMem hy] at hx
        exact ih hrest hS hx
    | add y =>
      subst hox
      rw [Op.key_add] at hS hx hrest
      rw [held_add] at hx
      -- the item is taken back by the entries themselves
      have hlater : retractedLater y (a ++ b) = retractedLater y a := by
        cases a with
        | nil => exact absurd (Finset.mem_insert_self _ _) hx
        | cons o a =>
          have ho : o.key = y := hrest o List.mem_cons_self
          cases o with
          | add z =>
            rw [Op.key_add] at ho
            rw [List.cons_append, retractedLater, retractedLater, if_pos ho, if_pos ho]
          | retract z =>
            rw [Op.key_retract] at ho
            rw [List.cons_append, retractedLater, retractedLater, if_pos ho, if_pos ho]
      have hinsert : insert y S ⊆ {y} := Finset.insert_subset (Finset.mem_singleton_self y) hS
      rw [List.cons_append, settle, settle, hlater]
      split
      · rename_i hmem
        rw [Finset.insert_eq_of_mem hmem] at hx
        exact ih hrest hS hx
      · split
        · refine ih hrest hS fun hmem => hx ?_
          -- the entries name the item, so they decide
          have hnamed : y ∈ a.map Op.key := by
            cases a with
            | nil => exact absurd (Finset.mem_insert_self _ _) hx
            | cons o a => exact List.mem_map.2 ⟨o, List.mem_cons_self, hrest o List.mem_cons_self⟩
          exact (mem_held_of_key hnamed).1 hmem
        · rw [ih hrest hinsert hx]
          rfl

end Ledger
