import Etherfold.Ledger.Cancel
import Etherfold.Ledger.Settle

/-!
# Dropping an addition with its retraction

A retraction and the addition it takes back change nothing together, wherever they stand in the
ledger. A list sorted by item puts the two next to each other.

* `Paired`: a list made of neighbouring pairs, each an opening and a closing entry of one item.
* `paired_of_sorted`: **a sorted list is paired when the entries of each item are**, so a cut at
  an even place falls between pairs.
* `Matched`, `Drops`: an addition and the retraction of it, and a ledger less some of them.
* `Drops.survivors`: **what is left has the same survivors**.
* `legal_of_about`: a ledger is legal where the entries of each item are.
-/

namespace Ledger

variable {E κ α : Type*}

/-! ### Paired lists -/

/-- A list of neighbouring pairs: an entry that opens, then one of the same item that closes. -/
inductive Paired (key : E → κ) (closes : E → Bool) : List E → Prop
  | nil : Paired key closes []
  | cons {a b : E} {l : List E} : closes a = false → closes b = true → key a = key b → Paired key closes l →
      Paired key closes (a :: b :: l)

/-- The neighbours, two by two. -/
def pairsOf : List E → List (E × E)
  | a :: b :: l => (a, b) :: pairsOf l
  | _ => []

variable {key : E → κ} {closes : E → Bool} {l l' : List E} {n : ℕ}

theorem Paired.append (h : Paired key closes l) (h' : Paired key closes l') : Paired key closes (l ++ l') := by
  induction h with
  | nil => exact h'
  | cons ha hb hab _ ih => exact .cons ha hb hab ih

theorem Paired.take (h : Paired key closes l) (n : ℕ) : Paired key closes (l.take (2 * n)) := by
  induction h generalizing n with
  | nil => rw [List.take_nil]; exact .nil
  | cons ha hb hab _ ih =>
    cases n with
    | zero => exact .nil
    | succ n => exact .cons ha hb hab (ih n)

theorem Paired.drop (h : Paired key closes l) (n : ℕ) : Paired key closes (l.drop (2 * n)) := by
  induction h generalizing n with
  | nil => rw [List.drop_nil]; exact .nil
  | cons ha hb hab hl ih =>
    cases n with
    | zero => exact .cons ha hb hab hl
    | succ n => exact ih n

theorem Paired.length (h : Paired key closes l) : l.length = 2 * (pairsOf l).length := by
  induction h with
  | nil => rfl
  | cons _ _ _ _ ih =>
    rw [pairsOf, List.length_cons, List.length_cons, List.length_cons, ih]
    omega

theorem Paired.flat (h : Paired key closes l) : ((pairsOf l).flatMap fun p => [p.1, p.2]) = l := by
  induction h with
  | nil => rfl
  | cons _ _ _ _ ih => rw [pairsOf, List.flatMap_cons, ih]; rfl

/-- Each pair is an opening and a closing entry of one item, next to each other. -/
theorem Paired.mem (h : Paired key closes l) {p : E × E} (hp : p ∈ pairsOf l) :
    closes p.1 = false ∧ closes p.2 = true ∧ key p.1 = key p.2 ∧ ∃ as bs, l = as ++ p.1 :: p.2 :: bs := by
  induction h with
  | nil => cases hp
  | @cons a b l ha hb hab _ ih =>
    rw [pairsOf, List.mem_cons] at hp
    obtain rfl | hp := hp
    · exact ⟨ha, hb, hab, [], l, rfl⟩
    · obtain ⟨h1, h2, h3, as, bs, hl⟩ := ih hp
      exact ⟨h1, h2, h3, a :: b :: as, bs, by rw [hl]; rfl⟩

/-- An entry that opens is in a pair. -/
theorem Paired.exists_closing (h : Paired key closes l) {a : E} (ha : a ∈ l) (hopen : closes a = false) :
    ∃ b, (a, b) ∈ pairsOf l := by
  induction h with
  | nil => cases ha
  | @cons c d l hc hd _ _ ih =>
    rw [pairsOf]
    obtain rfl | ha := List.mem_cons.1 ha
    · exact ⟨d, List.mem_cons_self⟩
    · obtain rfl | ha := List.mem_cons.1 ha
      · rw [hd] at hopen
        cases hopen
      · obtain ⟨b, hb⟩ := ih ha
        exact ⟨b, List.mem_cons_of_mem _ hb⟩

variable [DecidableEq κ]

/-- The entries of one item in a paired list are paired. -/
theorem Paired.filter (h : Paired key closes l) (k : κ) : Paired key closes (l.filter (key · = k)) := by
  induction h with
  | nil => exact .nil
  | @cons a b l ha hb hab _ ih =>
    by_cases hk : key a = k
    · rw [List.filter_cons_of_pos (by simpa using hk), List.filter_cons_of_pos (by simpa [← hab] using hk)]
      exact .cons ha hb hab ih
    · rw [List.filter_cons_of_neg (by simpa using hk), List.filter_cons_of_neg (by simpa [← hab] using hk)]
      exact ih

/-- The pairs of one item are the pairs of its entries. -/
theorem Paired.pairsOf_filter (h : Paired key closes l) (k : κ) :
    pairsOf (l.filter (key · = k)) = (pairsOf l).filter (key ·.1 = k) := by
  induction h with
  | nil => rfl
  | @cons a b l ha hb hab _ ih =>
    by_cases hk : key a = k
    · rw [List.filter_cons_of_pos (by simpa using hk), List.filter_cons_of_pos (by simpa [← hab] using hk),
        pairsOf, pairsOf, List.filter_cons_of_pos (by simpa using hk), ih]
    · rw [List.filter_cons_of_neg (by simpa using hk), List.filter_cons_of_neg (by simpa [← hab] using hk),
        pairsOf, List.filter_cons_of_neg (by simpa using hk), ih]

/-- **A sorted list is paired when the entries of each item are.** -/
theorem paired_of_sorted [PartialOrder κ] (hsorted : l.Pairwise (key · ≤ key ·))
    (h : ∀ k, Paired key closes (l.filter (key · = k))) : Paired key closes l := by
  induction hlen : l.length using Nat.strong_induction_on generalizing l with
  | _ n ih =>
    cases l with
    | nil => exact .nil
    | cons a l =>
      obtain ⟨hle, hsorted⟩ := List.pairwise_cons.1 hsorted
      -- the first entry opens a pair of its item
      have hfirst := h (key a)
      rw [List.filter_cons_of_pos (by simp)] at hfirst
      obtain ⟨b, rest, hrest, ha, hb, hab, hpaired⟩ : ∃ b rest, l.filter (key · = key a) = b :: rest ∧
          closes a = false ∧ closes b = true ∧ key a = key b ∧ Paired key closes rest := by
        generalize l.filter (key · = key a) = m at hfirst
        cases hfirst with
        | cons ha hb hab hl => exact ⟨_, _, rfl, ha, hb, hab, hl⟩
      -- and nothing stands between: what comes first is not above the closing entry
      cases l with
      | nil => cases hrest
      | cons c l =>
        obtain ⟨hcle, hsorted⟩ := List.pairwise_cons.1 hsorted
        have hbmem : b ∈ c :: l := List.mem_of_mem_filter (hrest ▸ List.mem_cons_self)
        have hck : key c = key a := by
          refine le_antisymm ?_ (hle c List.mem_cons_self)
          obtain rfl | hbl := List.mem_cons.1 hbmem
          · exact hab.ge
          · exact (hcle b hbl).trans hab.ge
        rw [List.filter_cons_of_pos (by simpa using hck)] at hrest
        obtain ⟨rfl, rfl⟩ := List.cons.inj hrest
        refine .cons ha hb hab (ih l.length ?_ hsorted (fun k => ?_) rfl)
        · rw [← hlen, List.length_cons, List.length_cons]
          omega
        · by_cases hk : k = key a
          · rw [hk]
            exact hpaired
          · have hself := h k
            rwa [List.filter_cons_of_neg (by simpa using Ne.symm hk),
              List.filter_cons_of_neg (by simpa [hck] using Ne.symm hk)] at hself

/-! ### Matched entries -/

variable [DecidableEq α] {op : E → Op α} {es es' : List E} {x y : E}

/-- An addition, and the retraction of it: no entry between them names the item. -/
def Matched (op : E → Op α) (es : List E) (x y : E) : Prop :=
  ∃ k as bs cs, es = as ++ x :: (bs ++ y :: cs) ∧ op x = .add k ∧ op y = .retract k ∧ ∀ e ∈ bs, (op e).key ≠ k

/-- A ledger less some additions with their retractions. -/
inductive Drops (op : E → Op α) : List E → List E → Prop
  | refl (es : List E) : Drops op es es
  | pair {es as bs cs : List E} {x y : E} {k : α} : op x = .add k → op y = .retract k →
      (∀ e ∈ bs, (op e).key ≠ k) → Drops op (as ++ (bs ++ cs)) es → Drops op (as ++ x :: (bs ++ y :: cs)) es

omit [DecidableEq κ] [DecidableEq α] in
/-- Other entries may go. -/
theorem Matched.filter (h : Matched op es x y) {p : E → Bool} (hx : p x = true) (hy : p y = true) :
    Matched op (es.filter p) x y := by
  obtain ⟨k, as, bs, cs, rfl, hxk, hyk, hbs⟩ := h
  refine ⟨k, as.filter p, bs.filter p, cs.filter p, ?_, hxk, hyk, fun e he => hbs e (List.mem_of_mem_filter he)⟩
  rw [List.filter_append, List.filter_cons_of_pos hx, List.filter_append, List.filter_cons_of_pos hy]

omit [DecidableEq κ] [DecidableEq α] in
/-- Two entries next to each other among the entries of their item. -/
theorem matched_of_filter {k : α} {p : E → Bool} {as bs : List E} (hp : ∀ e ∈ es, (op e).key = k → p e = true)
    (h : es.filter p = as ++ x :: y :: bs) (hx : op x = .add k) (hy : op y = .retract k) : Matched op es x y := by
  obtain ⟨l₁, l₂, rfl, -, h₂⟩ := List.filter_eq_append_iff.1 h
  obtain ⟨m₁, m₂, rfl, hm₁, -, h₃⟩ := List.filter_eq_cons_iff.1 h₂
  obtain ⟨n₁, n₂, rfl, hn₁, -, -⟩ := List.filter_eq_cons_iff.1 h₃
  refine ⟨k, l₁ ++ m₁, n₁, n₂, by simp, hx, hy, fun e he hk => hn₁ e he (hp e ?_ hk)⟩
  simp [he]

omit [DecidableEq κ] in
theorem survivors_append_congr (h : survivors op es = survivors op es') (cs : List E) :
    survivors op (es ++ cs) = survivors op (es' ++ cs) := by
  induction cs using List.reverseRecOn with
  | nil => simpa using h
  | append_singleton cs e ih => rw [← List.append_assoc, ← List.append_assoc, survivors_concat, survivors_concat, ih]

omit [DecidableEq κ] in
theorem held_congr (h : survivors op es = survivors op es') : held ∅ (es.map op) = held ∅ (es'.map op) := by
  ext k
  rw [← mem_survivors_key, ← mem_survivors_key, h]

omit [DecidableEq κ] in
/-- An addition is out of what survives once its retraction is read. -/
theorem survivors_pair {k : α} {as bs : List E} (hx : op x = .add k) (hy : op y = .retract k)
    (hbs : ∀ e ∈ bs, (op e).key ≠ k) (has : k ∉ held ∅ (as.map op)) :
    survivors op (as ++ x :: bs ++ [y]) = survivors op (as ++ bs) := by
  rw [survivors_concat, hy]
  dsimp only
  -- by induction on what stands between: none of it names the item
  induction bs using List.reverseRecOn with
  | nil =>
    rw [List.append_nil, survivors_concat, hx]
    dsimp only
    rw [List.filter_append, List.filter_eq_self.2 ?_, List.filter_cons_of_neg (by simp [hx]), List.filter_nil,
      List.append_nil]
    intro e he
    rw [decide_eq_true_eq]
    exact fun hk => has (mem_survivors_key.1 (List.mem_map.2 ⟨e, he, hk⟩))
  | append_singleton bs e ih =>
    have hne := hbs e (by simp)
    have hih := ih fun e' he' => hbs e' (List.mem_append_left _ he')
    rw [← List.cons_append, ← List.append_assoc, ← List.append_assoc, survivors_concat, survivors_concat]
    cases hop : op e with
    | add k' =>
      dsimp only
      rw [List.filter_append, hih, List.filter_cons_of_pos (by simpa using hne), List.filter_nil]
    | retract k' =>
      dsimp only
      rw [← hih, List.filter_filter, List.filter_filter]
      exact List.filter_congr fun e' _ => Bool.and_comm _ _

omit [DecidableEq κ] in
/-- What one pair leaves is legal. -/
theorem legal_pair {k : α} {as bs cs : List E} (hx : op x = .add k) (hy : op y = .retract k)
    (hbs : ∀ e ∈ bs, (op e).key ≠ k) (h : Legal ∅ ((as ++ x :: (bs ++ y :: cs)).map op)) :
    k ∉ held ∅ (as.map op) ∧ Legal ∅ ((as ++ (bs ++ cs)).map op) := by
  simp only [List.map_append, List.map_cons, hx, hy, legal_append, Legal] at h ⊢
  obtain ⟨has, hk, hmid, -, hrest⟩ := h
  refine ⟨hk, has, hmid.of_agree fun z hz => ?_, ?_⟩
  · obtain ⟨o, ho, rfl⟩ := List.mem_map.1 hz
    obtain ⟨e, he, rfl⟩ := List.mem_map.1 ho
    rw [Finset.mem_insert, or_iff_right (hbs e he)]
  · have hheld := held_congr (survivors_pair hx hy hbs hk)
    simp only [List.map_append, List.map_cons, List.map_nil, hx, hy, held_append, held_add, held_retract,
      held_nil] at hheld
    rwa [← hheld]

omit [DecidableEq κ] in
/-- **What is left has the same survivors**, in the same order. -/
theorem Drops.survivors (h : Drops op es es') (hlegal : Legal ∅ (es.map op)) :
    survivors op es' = survivors op es := by
  induction h with
  | refl => rfl
  | @pair es as bs cs x y k hx hy hbs _ ih =>
    obtain ⟨hk, hleft⟩ := legal_pair hx hy hbs hlegal
    have hpair := survivors_append_congr (survivors_pair hx hy hbs hk) cs
    rw [ih hleft, ← List.append_assoc, ← hpair]
    simp

omit [DecidableEq κ] [DecidableEq α] in
/-- A ledger less matched entries, no two of which are the same. -/
theorem drops_filter [DecidableEq E] {ps : List (E × E)} (hn : es.Nodup)
    (hps : (ps.flatMap fun p => [p.1, p.2]).Nodup) (h : ∀ p ∈ ps, Matched op es p.1 p.2) :
    Drops op es (es.filter (· ∉ ps.flatMap fun p => [p.1, p.2])) := by
  induction ps generalizing es with
  | nil => simpa using .refl es
  | cons p ps ih =>
    obtain ⟨x, y⟩ := p
    rw [List.flatMap_cons, List.nodup_append] at hps
    obtain ⟨-, hnodup, hdisj⟩ := hps
    obtain ⟨k, as, bs, cs, rfl, hx, hy, hbs⟩ := h (x, y) List.mem_cons_self
    -- the entries of this pair are nowhere else
    have hleft : (as ++ x :: (bs ++ y :: cs)).filter (fun e => e ∉ [x, y]) = as ++ (bs ++ cs) := by
      simp only [List.nodup_append, List.nodup_cons, List.mem_append, List.mem_cons] at hn
      have hkeep : ∀ l : List E, x ∉ l → y ∉ l → l.filter (fun e => e ∉ [x, y]) = l := by
        intro l hxl hyl
        rw [List.filter_eq_self]
        intro e he
        rw [decide_eq_true_eq, List.mem_cons, List.mem_singleton]
        rintro (rfl | rfl)
        · exact hxl he
        · exact hyl he
      rw [List.filter_append, List.filter_cons_of_neg (by simp), List.filter_append,
        List.filter_cons_of_neg (by simp), hkeep as, hkeep bs, hkeep cs] <;> grind
    have hless : (as ++ (bs ++ cs)).Nodup := hleft ▸ hn.filter _
    have hrest := ih hless hnodup fun p hp => by
      rw [← hleft]
      refine (h p (List.mem_cons_of_mem _ hp)).filter ?_ ?_
      · exact decide_eq_true fun hmem => hdisj _ hmem _ (List.mem_flatMap.2 ⟨p, hp, by simp⟩) rfl
      · exact decide_eq_true fun hmem => hdisj _ hmem _ (List.mem_flatMap.2 ⟨p, hp, by simp⟩) rfl
    refine .pair hx hy hbs ?_
    rw [← hleft, List.filter_filter] at hrest
    rw [← hleft]
    convert hrest using 2
    funext e
    simp only [List.flatMap_cons, List.mem_append, not_or, Bool.decide_and, Bool.and_comm]

/-! ### One item at a time -/

omit [DecidableEq κ] in
/-- Items are legal together when each is. -/
theorem legal_of_about {S : Finset α} {ops : List (Op α)}
    (h : ∀ x, Legal S (about x ops)) : Legal S ops := by
  induction ops generalizing S with
  | nil => trivial
  | cons o ops ih =>
    have hself := h o.key
    rw [about_cons_of_eq rfl] at hself
    have hother : ∀ x, x ≠ o.key → Legal S (about x ops) := fun x hx => by
      have hx' := h x
      rwa [about_cons_of_ne (Ne.symm hx)] at hx'
    have hkeys : ∀ x, ∀ y ∈ (about x ops).map Op.key, y = x := by
      intro x y hy
      obtain ⟨o', ho', rfl⟩ := List.mem_map.1 hy
      exact of_decide_eq_true (List.mem_filter.1 ho').2
    cases o with
    | add y =>
      refine ⟨hself.1, ih fun x => ?_⟩
      by_cases hx : x = y
      · rw [hx]
        exact hself.2
      · refine (hother x hx).of_agree fun z hz => ?_
        rw [hkeys x z hz, Finset.mem_insert, or_iff_right hx]
    | retract y =>
      refine ⟨hself.1, ih fun x => ?_⟩
      by_cases hx : x = y
      · rw [hx]
        exact hself.2
      · refine (hother x hx).of_agree fun z hz => ?_
        rw [hkeys x z hz, Finset.mem_erase, and_iff_right hx]

end Ledger
