import Etherfold.Ledger.Basic

/-!
# Entries that cancel

A retraction cancels the last addition of its item, if that still stands, and both go. An addition
of an item that stands already takes its place, and the one before it stays for good; a retraction
of an item that does not stand stays too.

* `cancel`: what stays, and whether it still stands.
* `cancel_filter`, `cancel_append_of_apart`: **items do not get in each other's way**.
* `cancel_legal`: **on a legal ledger what stays are the survivors**, in the order they were added.
* `net_cancel`: what stays counts for an item as the whole ledger does.
-/

namespace Ledger

variable {E α : Type*} [DecidableEq α] (op : E → Op α)

/-- The entry is of this item, and stands. -/
def stands (k : α) (p : E × Bool) : Bool := (op p.1).key = k && p.2

/-- What stays after one more entry. -/
def cancelNext (kept : List (E × Bool)) (e : E) : List (E × Bool) :=
  match op e with
  | .add k => (kept.map fun p => if (op p.1).key = k then (p.1, false) else p) ++ [(e, true)]
  | .retract k => if kept.any (stands op k) then kept.filter (!stands op k ·) else kept ++ [(e, false)]

/-- **What stays of a ledger**, and whether it stands. -/
def cancel (es : List E) : List (E × Bool) := es.foldl (cancelNext op) []

/-- The additions that are not taken back, each where it was made. -/
def survivors (es : List E) : List E :=
  es.foldl (fun l e =>
    match op e with
    | .add _ => l ++ [e]
    | .retract k => l.filter fun e' => (op e').key ≠ k) []

variable {op} {es as bs : List E} {e : E} {k : α}

theorem cancel_concat (es : List E) (e : E) : cancel op (es ++ [e]) = cancelNext op (cancel op es) e := by
  unfold cancel
  rw [List.foldl_append]
  rfl

theorem survivors_concat (es : List E) (e : E) : survivors op (es ++ [e]) =
    match op e with
    | .add _ => survivors op es ++ [e]
    | .retract k => (survivors op es).filter fun e' => (op e').key ≠ k := by
  unfold survivors
  rw [List.foldl_append]
  rfl

theorem mem_cancel {p : E × Bool} (h : p ∈ cancel op es) : p.1 ∈ es := by
  induction es using List.reverseRecOn generalizing p with
  | nil => cases h
  | append_singleton es e ih =>
    rw [cancel_concat] at h
    rw [List.mem_append, List.mem_singleton]
    unfold cancelNext at h
    split at h
    · rcases List.mem_append.1 h with h | h
      · obtain ⟨q, hq, rfl⟩ := List.mem_map.1 h
        left
        split
        · exact ih (p := q) hq
        · exact ih hq
      · rw [List.mem_singleton] at h
        exact .inr (by rw [h])
    · split at h
      · exact .inl (ih (List.mem_filter.1 h).1)
      · rcases List.mem_append.1 h with h | h
        · exact .inl (ih h)
        · rw [List.mem_singleton] at h
          exact .inr (by rw [h])

/-! ### Apart items -/

/-- An entry of another item. -/
theorem cancelNext_of_not {p : α → Bool} (kept : List (E × Bool)) (h : p (op e).key = false) :
    (cancelNext op kept e).filter (fun q => p (op q.1).key) = kept.filter fun q => p (op q.1).key := by
  have hne : ∀ q : E × Bool, p (op q.1).key = true → (op q.1).key ≠ (op e).key := by
    intro q hq heq
    rw [heq, h] at hq
    cases hq
  unfold cancelNext
  cases hop : op e with
  | add k =>
    rw [hop] at h hne
    simp only [Op.key_add] at h hne
    rw [List.filter_append, List.filter_map]
    have hkey : ((fun q : E × Bool => p (op q.1).key) ∘ fun q => if (op q.1).key = k then (q.1, false) else q) =
        fun q => p (op q.1).key := by
      funext q
      by_cases hq : (op q.1).key = k <;> simp [hq]
    have hsame : ((kept.filter fun q => p (op q.1).key).map fun q => if (op q.1).key = k then (q.1, false) else q) =
        kept.filter fun q => p (op q.1).key := by
      conv_rhs => rw [← List.map_id (kept.filter fun q => p (op q.1).key)]
      apply List.map_congr_left
      intro q hq
      rw [if_neg (hne q (List.mem_filter.1 hq).2)]
      rfl
    rw [hkey, hsame]
    simp [hop, h]
  | retract k =>
    rw [hop] at h hne
    simp only [Op.key_retract] at h hne
    dsimp only
    split
    · rw [List.filter_filter]
      apply List.filter_congr
      intro q _
      cases hq : p (op q.1).key with
      | false => simp
      | true => simp [stands, hne q hq]
    · rw [List.filter_append]
      simp [hop, h]

/-- An entry of one of the items. -/
theorem cancelNext_filter {p : α → Bool} (kept : List (E × Bool)) (h : p (op e).key = true) :
    (cancelNext op kept e).filter (fun q => p (op q.1).key) = cancelNext op (kept.filter fun q => p (op q.1).key) e := by
  unfold cancelNext
  cases hop : op e with
  | add k =>
    rw [hop] at h
    dsimp only
    rw [List.filter_append, List.filter_map]
    congr 1
    · congr 2
      funext q
      by_cases hq : (op q.1).key = k <;> simp [hq]
    · have hk : p k = true := h
      simp [hop, hk]
  | retract k =>
    rw [hop] at h
    have hk : p k = true := h
    have hany : (kept.filter fun q => p (op q.1).key).any (stands op k) = kept.any (stands op k) := by
      rw [List.any_filter]
      congr 1
      funext q
      by_cases hq : (op q.1).key = k <;> simp [stands, hq, hk]
    dsimp only
    rw [hany]
    split
    · rw [List.filter_filter, List.filter_filter]
      apply List.filter_congr
      intro q _
      exact Bool.and_comm _ _
    · rw [List.filter_append]
      simp [hop, hk]

/-- **What stays of some items is what stays of their entries.** -/
theorem cancel_filter (p : α → Bool) (es : List E) :
    cancel op (es.filter fun e => p (op e).key) = (cancel op es).filter fun q => p (op q.1).key := by
  induction es using List.reverseRecOn with
  | nil => rfl
  | append_singleton es e ih =>
    rw [List.filter_append, cancel_concat]
    cases hp : p (op e).key with
    | false =>
      rw [cancelNext_of_not _ hp, ← ih]
      simp [hp]
    | true =>
      rw [cancelNext_filter _ hp, ← ih, ← cancel_concat]
      simp [hp]

/-- **Ledgers of different items cancel apart.** -/
theorem cancel_append_of_apart (h : ∀ a ∈ as, ∀ b ∈ bs, (op a).key ≠ (op b).key) :
    cancel op (as ++ bs) = cancel op as ++ cancel op bs := by
  induction bs using List.reverseRecOn with
  | nil => simp [cancel]
  | append_singleton bs e ih =>
    have hne : ∀ q ∈ cancel op as, (op q.1).key ≠ (op e).key := fun q hq => h q.1 (mem_cancel hq) e (by simp)
    rw [← List.append_assoc, cancel_concat, ih fun a ha b hb => h a ha b (by simp [hb]), cancel_concat]
    unfold cancelNext
    split
    · rename_i k hk
      rw [hk] at hne
      simp only [Op.key_add] at hne
      rw [List.map_append, List.append_assoc]
      congr 1
      conv_rhs => rw [← List.map_id (cancel op as)]
      apply List.map_congr_left
      intro q hq
      rw [if_neg (hne q hq)]
      rfl
    · rename_i k hk
      rw [hk] at hne
      have hnone : (cancel op as).any (stands op k) = false := by
        rw [List.any_eq_false]
        intro q hq
        have hq := hne q hq
        simp only [Op.key_retract] at hq
        simp [stands, hq]
      rw [List.any_append, hnone, Bool.false_or]
      split
      · rw [List.filter_append]
        congr 1
        rw [List.filter_eq_self]
        intro q hq
        have hq := hne q hq
        simp only [Op.key_retract] at hq
        simp [stands, hq]
      · rw [List.append_assoc]

/-! ### Legal ledgers -/

/-- The items that survive are those that are held. -/
theorem mem_survivors_key : k ∈ (survivors op es).map (fun e => (op e).key) ↔ k ∈ held ∅ (es.map op) := by
  induction es using List.reverseRecOn with
  | nil => simp [survivors]
  | append_singleton es e ih =>
    rw [survivors_concat, List.map_append, held_append]
    cases hop : op e with
    | add k' =>
      rw [List.map_append, List.mem_append, ih, List.map_singleton, List.map_singleton, List.mem_singleton, hop]
      simp [or_comm]
    | retract k' =>
      rw [List.map_singleton, hop, held_retract, held_nil, Finset.mem_erase, ← ih, List.mem_map, List.mem_map]
      constructor
      · intro h
        obtain ⟨e', he', hk⟩ := h
        obtain ⟨hin, hne⟩ := List.mem_filter.1 he'
        exact ⟨hk ▸ of_decide_eq_true hne, e', hin, hk⟩
      · intro h
        obtain ⟨hne, e', hin, hk⟩ := h
        exact ⟨e', List.mem_filter.2 ⟨hin, decide_eq_true (hk ▸ hne)⟩, hk⟩

/-- **On a legal ledger what stays are the survivors**, and all of them stand. -/
theorem cancel_legal (h : Legal ∅ (es.map op)) : cancel op es = (survivors op es).map fun e => (e, true) := by
  induction es using List.reverseRecOn with
  | nil => rfl
  | append_singleton es e ih =>
    rw [List.map_append, legal_append] at h
    obtain ⟨hes, hlast⟩ := h
    rw [cancel_concat, ih hes, survivors_concat]
    unfold cancelNext
    cases hop : op e with
    | add k =>
      rw [List.map_singleton, hop] at hlast
      -- nothing of this item stands
      dsimp only
      rw [List.map_map, List.map_append]
      congr 1
      apply List.map_congr_left
      intro e' he'
      have hne : (op e').key ≠ k := by
        intro heq
        exact hlast.1 (mem_survivors_key.1 (List.mem_map.2 ⟨e', he', heq⟩))
      simp [hne]
    | retract k =>
      rw [List.map_singleton, hop] at hlast
      have hany : ((survivors op es).map fun e => (e, true)).any (stands op k) = true := by
        obtain ⟨e', he', hk⟩ := List.mem_map.1 (mem_survivors_key.2 hlast.1)
        exact List.any_eq_true.2 ⟨(e', true), List.mem_map.2 ⟨e', he', rfl⟩, by simp [stands, hk]⟩
      dsimp only
      rw [if_pos hany, List.filter_map]
      congr 1
      apply List.filter_congr
      intro e' _
      simp [stands]

/-! ### Counts -/

theorem net_partition {β : Type*} (x : α) (f : β → Op α) (p : β → Bool) (l : List β) :
    net x (l.map f) = net x ((l.filter p).map f) + net x ((l.filter (!p ·)).map f) := by
  induction l with
  | nil => rfl
  | cons b l ih =>
    rw [List.filter_cons, List.filter_cons]
    cases hp : p b <;> cases hf : f b <;> simp [net, ih, hf] <;> ring

/-- The count does not depend on the order. -/
theorem net_perm {x : α} {a b : List (Op α)} (h : a.Perm b) : net x a = net x b := by
  induction h with
  | nil => rfl
  | cons o _ ih => cases o <;> simp only [net, ih]
  | swap o o' l => cases o <;> cases o' <;> simp only [net] <;> ring
  | trans _ _ ih ih' => exact ih.trans ih'

/-- Where nothing is taken back the count says what was added. -/
theorem net_pos {ops : List (Op α)} {x : α} (hadds : ∀ o ∈ ops, o = .add o.key) (hx : .add x ∈ ops) : 0 < net x ops := by
  have hge : ∀ l : List (Op α), (∀ o ∈ l, o = .add o.key) → 0 ≤ net x l := by
    intro l hl
    induction l with
    | nil => simp [net]
    | cons o l ih =>
      have hrest := ih fun o' ho' => hl o' (List.mem_cons_of_mem _ ho')
      rw [hl o List.mem_cons_self, net]
      split <;> omega
  obtain ⟨l, l', rfl⟩ := List.append_of_mem hx
  have hl := hge l fun o ho => hadds o (by simp [ho])
  have hl' := hge l' fun o ho => hadds o (by simp [ho])
  rw [net_append, net, if_pos rfl]
  omega

/-- What stands is an addition. -/
theorem add_of_stands {q : E × Bool} (h : q ∈ cancel op es) (hstands : q.2 = true) : op q.1 = .add (op q.1).key := by
  induction es using List.reverseRecOn generalizing q with
  | nil => cases h
  | append_singleton es e ih =>
    rw [cancel_concat] at h
    unfold cancelNext at h
    cases hop : op e with
    | add k =>
      rw [hop] at h
      rcases List.mem_append.1 h with h | h
      · obtain ⟨r, hr, rfl⟩ := List.mem_map.1 h
        by_cases hk : (op r.1).key = k
        · rw [if_pos hk] at hstands
          cases hstands
        · rw [if_neg hk] at hstands ⊢
          exact ih hr hstands
      · rw [List.mem_singleton] at h
        rw [h, hop]
        rfl
    | retract k =>
      rw [hop] at h
      dsimp only at h
      split at h
      · exact ih (List.mem_filter.1 h).1 hstands
      · rcases List.mem_append.1 h with h | h
        · exact ih h hstands
        · rw [List.mem_singleton] at h
          rw [h] at hstands
          cases hstands

/-- At most one entry of an item stands. -/
theorem stands_le_one (k : α) (es : List E) : ((cancel op es).filter (stands op k)).length ≤ 1 := by
  induction es using List.reverseRecOn with
  | nil => simp [cancel]
  | append_singleton es e ih =>
    rw [cancel_concat]
    unfold cancelNext
    cases hop : op e with
    | add k' =>
      dsimp only
      rw [List.filter_append, List.filter_map]
      by_cases hk : k' = k
      · -- the new one stands in place of any other
        have hnone : ((cancel op es).filter ((stands op k) ∘ fun q => if (op q.1).key = k' then (q.1, false) else q)) = [] := by
          rw [List.filter_eq_nil_iff]
          intro q _
          by_cases hq : (op q.1).key = k'
          · simp [stands, hq]
          · simp [stands, hk ▸ hq, hk]
        rw [hnone]
        simp [List.filter_cons]
        split <;> simp
      · have hsame : (stands op k) ∘ (fun q => if (op q.1).key = k' then (q.1, false) else q) = stands op k := by
          funext q
          by_cases hq : (op q.1).key = k' <;> simp [stands, hq, hk]
        have hnew : [(e, true)].filter (stands op k) = [] := by simp [stands, hop, hk]
        rw [hsame, hnew, List.append_nil, List.length_map]
        exact ih
    | retract k' =>
      dsimp only
      split
      · exact (List.Sublist.length_le (List.filter_sublist.filter _)).trans ih
      · have hnew : [(e, false)].filter (stands op k) = [] := by simp [stands]
        rw [List.filter_append, hnew, List.append_nil]
        exact ih

/-- **What stays counts for an item as the whole ledger does.** -/
theorem net_cancel (x : α) (es : List E) : net x ((cancel op es).map fun q => op q.1) = net x (es.map op) := by
  induction es using List.reverseRecOn with
  | nil => rfl
  | append_singleton es e ih =>
    rw [cancel_concat, List.map_append, net_append, ← ih]
    unfold cancelNext
    cases hop : op e with
    | add k =>
      have hsame : ((fun q : E × Bool => op q.1) ∘ fun q => if (op q.1).key = k then (q.1, false) else q) = fun q => op q.1 := by
        funext q
        by_cases hq : (op q.1).key = k <;> simp [hq]
      rw [List.map_append, net_append, List.map_map, hsame]
      simp [hop]
    | retract k =>
      dsimp only
      split
      · rename_i hany
        -- exactly one addition goes, and it is of this item
        obtain ⟨q, hq, hstands⟩ := List.any_eq_true.1 hany
        have hin : q ∈ (cancel op es).filter (stands op k) := List.mem_filter.2 ⟨hq, hstands⟩
        obtain ⟨r, hr⟩ : ∃ r, (cancel op es).filter (stands op k) = [r] := by
          have hle := @stands_le_one _ _ _ op k es
          have hpos := List.length_pos_of_mem hin
          exact List.length_eq_one_iff.1 (by omega)
        rw [hr, List.mem_singleton] at hin
        simp only [stands, Bool.and_eq_true, decide_eq_true_eq] at hstands
        have hadd : op r.1 = .add k := by rw [← hin, add_of_stands hq hstands.2, hstands.1]
        have hsplit := net_partition x (fun q : E × Bool => op q.1) (stands op k) (cancel op es)
        rw [hr, List.map_singleton, hadd] at hsplit
        rw [hsplit]
        simp [net, hop]
      · rw [List.map_append, net_append]
        rfl

end Ledger
