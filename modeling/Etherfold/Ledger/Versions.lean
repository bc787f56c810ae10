import Mathlib.Data.List.Basic
import Mathlib.Tactic

/-!
# Versions of one key

The history of one key is a list of versions, oldest first, each valid on a
half-open range of heights. Writing closes the live version and opens another;
cutting the history at a height drops what was opened above it and opens again
what was closed above it.

* `current_cutAt`: after a cut the live version is the one that was open there.
* `asOf_sublist_iff`: **a thinned history answers for a height as the whole one does**
  exactly when it kept the version open there.
-/

namespace Versions

/-- A value and the heights it stands at, `lower` included, `upper` not. -/
structure Version (V : Type*) where
  values : V
  lower : ℕ
  upper : Option ℕ
  deriving DecidableEq, Repr

variable {V : Type*}

/-- The version stands at height `k`. -/
def Version.openAt (k : ℤ) (v : Version V) : Bool := (v.lower : ℤ) ≤ k && v.upper.all fun x : ℕ => k < (x : ℤ)

/-- The version standing now. -/
def current (vs : List (Version V)) : Option (Version V) := vs.find? (·.upper.isNone)

/-- The version standing at height `k`. -/
def asOf (k : ℤ) (vs : List (Version V)) : Option (Version V) := vs.find? (·.openAt k)

/-- Close the live version at height `n`. -/
def closeLive (n : ℕ) : List (Version V) → List (Version V)
  | [] => []
  | v :: vs => if v.upper = none then { v with upper := some n } :: vs else v :: closeLive n vs

/-- Write at height `n`: close what is live, and open the new value if there is one. -/
def write (n : ℕ) (value : Option V) (vs : List (Version V)) : List (Version V) :=
  closeLive n vs ++ (value.map fun values => ⟨values, n, none⟩).toList

/-- A version closed above the cut is live again. -/
def Version.reopen (k : ℤ) (v : Version V) : Version V :=
  if v.upper.any fun x : ℕ => k < (x : ℤ) then { v with upper := none } else v

/-- Cut the history at height `k`. -/
def cutAt (k : ℤ) (vs : List (Version V)) : List (Version V) :=
  (vs.filter fun v => (v.lower : ℤ) ≤ k).map (·.reopen k)

/-- The version stands at some height. -/
def Version.Stands (v : Version V) : Prop := ∀ x, v.upper = some x → v.lower < x

/-- Each version ends before the next one begins, and none before it begins. -/
structure Chained (vs : List (Version V)) : Prop where
  ordered : vs.Pairwise fun a b => ∃ x, a.upper = some x ∧ x ≤ b.lower
  closed : ∀ v ∈ vs, ∀ x, v.upper = some x → v.lower ≤ x

theorem Version.openAt_iff {k : ℤ} {v : Version V} :
    v.openAt k = true ↔ (v.lower : ℤ) ≤ k ∧ ∀ x, v.upper = some x → k < (x : ℤ) := by
  unfold Version.openAt
  cases v.upper <;> simp

@[simp] theorem Version.reopen_values (k : ℤ) (v : Version V) : (v.reopen k).values = v.values := by
  unfold Version.reopen
  split <;> rfl

@[simp] theorem Version.reopen_lower (k : ℤ) (v : Version V) : (v.reopen k).lower = v.lower := by
  unfold Version.reopen
  split <;> rfl

/-- What closes a version after a cut closed it before, at or below the cut. -/
theorem Version.reopen_upper {k : ℤ} {v : Version V} {x : ℕ} :
    (v.reopen k).upper = some x ↔ v.upper = some x ∧ (x : ℤ) ≤ k := by
  unfold Version.reopen
  cases hv : v.upper with
  | none => simp [hv]
  | some y =>
    simp only [Option.any_some, decide_eq_true_eq]
    split
    · refine ⟨fun h => (by cases h), fun h => ?_⟩
      obtain ⟨hxy, hle⟩ := h
      cases hxy
      omega
    · rw [hv]
      refine ⟨fun h => ⟨h, ?_⟩, fun h => h.1⟩
      cases h
      omega

/-- **After a cut the live version is the one that stood there.** -/
theorem current_cutAt (k : ℤ) (vs : List (Version V)) :
    current (cutAt k vs) = (asOf k vs).map (·.reopen k) := by
  unfold current cutAt asOf
  rw [List.find?_map, List.find?_filter]
  congr 2
  funext v
  rw [Bool.eq_iff_iff, decide_eq_true_eq, decide_eq_true_eq]
  show _ ∧ (v.reopen k).upper.isNone = true ↔ _
  unfold Version.openAt Version.reopen
  cases hv : v.upper with
  | none => simp [hv]
  | some x => by_cases hx : k < (x : ℤ) <;> simp [hx, hv]

/-- Of two versions one ends before the other begins. -/
theorem Chained.apart {vs : List (Version V)} (h : Chained vs) {a b : Version V} (ha : a ∈ vs) (hb : b ∈ vs)
    (hne : a ≠ b) : (∃ x, a.upper = some x ∧ x ≤ b.lower) ∨ ∃ x, b.upper = some x ∧ x ≤ a.lower :=
  List.Pairwise.forall_of_forall_of_flip (l := vs)
    (R := fun a b => a ≠ b → (∃ x, a.upper = some x ∧ x ≤ b.lower) ∨ ∃ x, b.upper = some x ∧ x ≤ a.lower)
    (fun _ _ hv => absurd rfl hv) (h.ordered.imp fun hab _ => .inl hab)
    (h.ordered.imp fun hab _ => .inr hab) ha hb hne

/-- At most one version stands at a height. -/
theorem Chained.eq_of_openAt {vs : List (Version V)} (h : Chained vs) {k : ℤ} {a b : Version V}
    (ha : a ∈ vs) (hb : b ∈ vs) (hak : a.openAt k = true) (hbk : b.openAt k = true) : a = b := by
  obtain ⟨halo, hahi⟩ := Version.openAt_iff.1 hak
  obtain ⟨hblo, hbhi⟩ := Version.openAt_iff.1 hbk
  by_contra hne
  rcases h.apart ha hb hne with ⟨x, hx, hle⟩ | ⟨x, hx, hle⟩
  · have := hahi x hx
    omega
  · have := hbhi x hx
    omega

/-- Versions that begin together are one, as soon as one of them stands. -/
theorem Chained.eq_of_reopen {vs : List (Version V)} (h : Chained vs) {k : ℤ} {a b : Version V}
    (ha : a ∈ vs) (hb : b ∈ vs) (hstands : a.Stands) (hle : (a.lower : ℤ) ≤ k)
    (heq : b.reopen k = a.reopen k) : b = a := by
  have hlower : b.lower = a.lower := by rw [← Version.reopen_lower k b, heq, Version.reopen_lower]
  by_contra hne
  rcases h.apart hb ha hne with ⟨x, hx, hxa⟩ | ⟨x, hx, hxb⟩
  · -- `b` is closed where `a` begins, and stays closed by the cut
    have hup : (b.reopen k).upper = some x := Version.reopen_upper.2 ⟨hx, by omega⟩
    rw [heq] at hup
    have hstand := hstands x (Version.reopen_upper.1 hup).1
    omega
  · have hstand := hstands x hx
    omega

/-- No two versions stand at one height. -/
theorem Chained.disjoint {vs : List (Version V)} (h : Chained vs) :
    vs.Pairwise fun a b => ∀ k, ¬(a.openAt k = true ∧ b.openAt k = true) := by
  refine h.ordered.imp ?_
  intro a b hab k hopen
  obtain ⟨x, hx, hle⟩ := hab
  have hlt := (Version.openAt_iff.1 hopen.1).2 x hx
  have hlo := (Version.openAt_iff.1 hopen.2).1
  omega

/-- At most one version is live. -/
theorem Chained.length_live_le {vs : List (Version V)} (h : Chained vs) :
    (vs.filter (·.upper.isNone)).length ≤ 1 := by
  have hfilter := h.ordered.filter (·.upper.isNone)
  cases hlive : vs.filter (·.upper.isNone) with
  | nil => simp
  | cons a rest =>
    cases rest with
    | nil => simp
    | cons b rest =>
      rw [hlive] at hfilter
      obtain ⟨x, hx, -⟩ := (List.pairwise_cons.1 hfilter).1 b List.mem_cons_self
      have ha : a ∈ vs.filter (·.upper.isNone) := by rw [hlive]; exact List.mem_cons_self
      have hnone := (List.mem_filter.1 ha).2
      rw [hx] at hnone
      cases hnone

theorem asOf_eq_some_iff {vs : List (Version V)} (h : Chained vs) {k : ℤ} {v : Version V} :
    asOf k vs = some v ↔ v ∈ vs ∧ v.openAt k = true := by
  refine ⟨fun hv => ⟨List.mem_of_find?_eq_some hv, ?_⟩, fun hv => ?_⟩
  · simpa using List.find?_some hv
  · obtain ⟨hmem, hopen⟩ := hv
    unfold asOf
    obtain ⟨w, hw⟩ := Option.isSome_iff_exists.1 (List.find?_isSome.2 ⟨v, hmem, hopen⟩)
    rw [hw, h.eq_of_openAt (List.mem_of_find?_eq_some hw) hmem (by simpa using List.find?_some hw) hopen]

theorem Chained.sublist {vs us : List (Version V)} (h : Chained us) (hs : vs.Sublist us) : Chained vs :=
  ⟨h.ordered.sublist hs, fun v hv => h.closed v (hs.subset hv)⟩

/-- A thinned history that kept the version standing at a height answers with it. -/
theorem asOf_of_kept {vs us : List (Version V)} (h : Chained us) (hs : vs.Sublist us) {k : ℤ}
    (hkept : ∀ v ∈ us, v.openAt k = true → v ∈ vs) : asOf k vs = asOf k us := by
  cases hu : asOf k us with
  | none =>
    unfold asOf at hu ⊢
    rw [List.find?_eq_none] at hu ⊢
    exact fun v hv => hu v (hs.subset hv)
  | some v =>
    obtain ⟨hv, hopen⟩ := (asOf_eq_some_iff h).1 hu
    exact (asOf_eq_some_iff (h.sublist hs)).2 ⟨hkept v hv hopen, hopen⟩

/-- **A thinned history answers for a height as the whole one does** exactly when it kept the
version standing there. -/
theorem asOf_sublist_iff {vs us : List (Version V)} (h : Chained us) (hs : vs.Sublist us) {k : ℤ} :
    (asOf k vs).map (·.values) = (asOf k us).map (·.values) ↔ ∀ v ∈ us, v.openAt k = true → v ∈ vs := by
  refine ⟨fun heq v hv hopen => ?_, fun hkept => congrArg _ (asOf_of_kept h hs hkept)⟩
  rw [(asOf_eq_some_iff h).2 ⟨hv, hopen⟩] at heq
  obtain ⟨w, hw, -⟩ := Option.map_eq_some_iff.1 heq
  obtain ⟨hmem, hwopen⟩ := (asOf_eq_some_iff (h.sublist hs)).1 hw
  rwa [h.eq_of_openAt hv (hs.subset hmem) hopen hwopen]

/-! ### What writing and cutting keep -/

/-- At most one version is live, so closing the first closes them all. -/
theorem closeLive_eq_map {vs : List (Version V)} (h : Chained vs) (n : ℕ) :
    closeLive n vs = vs.map fun v => if v.upper = none then { v with upper := some n } else v := by
  induction vs with
  | nil => rfl
  | cons v vs ih =>
    obtain ⟨hv, hvs⟩ := List.pairwise_cons.1 h.ordered
    unfold closeLive
    split
    · rename_i hlive
      rw [List.map_cons, if_pos hlive]
      cases vs with
      | nil => rfl
      | cons w ws =>
        obtain ⟨x, hx, -⟩ := hv w List.mem_cons_self
        rw [hlive] at hx
        cases hx
    · rename_i hclosed
      rw [List.map_cons, if_neg hclosed, ih ⟨hvs, fun w hw => h.closed w (List.mem_cons_of_mem _ hw)⟩]

/-- What is written is what stands now. -/
theorem current_write {vs : List (Version V)} (h : Chained vs) (n : ℕ) (value : Option V) :
    current (write n value vs) = value.map fun values => ⟨values, n, none⟩ := by
  unfold current write
  have hclosed : (closeLive n vs).find? (·.upper.isNone) = none := by
    rw [closeLive_eq_map h, List.find?_eq_none]
    intro w hw
    obtain ⟨v, -, rfl⟩ := List.mem_map.1 hw
    cases hv : v.upper <;> simp [hv]
  rw [List.find?_append, hclosed]
  cases value <;> rfl

theorem values_of_mem_closeLive {n : ℕ} {vs : List (Version V)} {w : Version V} (h : w ∈ closeLive n vs) :
    ∃ v ∈ vs, v.values = w.values := by
  induction vs with
  | nil => cases h
  | cons v vs ih =>
    unfold closeLive at h
    split at h
    · rcases List.mem_cons.1 h with rfl | h
      · exact ⟨v, List.mem_cons_self, rfl⟩
      · exact ⟨w, List.mem_cons_of_mem _ h, rfl⟩
    · rcases List.mem_cons.1 h with rfl | h
      · exact ⟨w, List.mem_cons_self, rfl⟩
      · obtain ⟨u, hu, hvalues⟩ := ih h
        exact ⟨u, List.mem_cons_of_mem _ hu, hvalues⟩

/-- A version holds what it was written with. -/
theorem values_of_mem_write {n : ℕ} {value : Option V} {vs : List (Version V)} {w : Version V}
    (h : w ∈ write n value vs) : (∃ v ∈ vs, v.values = w.values) ∨ value = some w.values := by
  rcases List.mem_append.1 h with h | h
  · exact .inl (values_of_mem_closeLive h)
  · cases value with
    | none => cases h
    | some values =>
      rw [Option.map_some, Option.toList_some, List.mem_singleton] at h
      rw [h]
      exact .inr rfl

/-- Every height the versions name is one of `N`. -/
def Within (N : ℕ → Prop) (vs : List (Version V)) : Prop :=
  ∀ v ∈ vs, N v.lower ∧ ∀ x, v.upper = some x → N x

theorem Chained.write {vs : List (Version V)} (h : Chained vs) {n : ℕ} (hn : Within (· ≤ n) vs)
    (value : Option V) : Chained (write n value vs) := by
  have hclosed : ∀ w ∈ closeLive n vs, ∃ x, w.upper = some x ∧ w.lower ≤ x ∧ x ≤ n := by
    intro w hw
    rw [closeLive_eq_map h, List.mem_map] at hw
    obtain ⟨v, hv, rfl⟩ := hw
    split
    · exact ⟨n, rfl, (hn v hv).1, le_rfl⟩
    · rename_i hup
      obtain ⟨x, hx⟩ := Option.ne_none_iff_exists'.1 hup
      exact ⟨x, hx, h.closed v hv x hx, (hn v hv).2 x hx⟩
  unfold Versions.write
  refine ⟨List.pairwise_append.2 ⟨?_, ?_, ?_⟩, ?_⟩
  · rw [closeLive_eq_map h, List.pairwise_map]
    refine h.ordered.imp ?_
    intro a b hab
    obtain ⟨x, hx, hle⟩ := hab
    rw [if_neg (by simp [hx])]
    refine ⟨x, hx, hle.trans_eq ?_⟩
    split <;> rfl
  · cases value <;> simp
  · intro a ha b hb
    obtain ⟨x, hx, -, hle⟩ := hclosed a ha
    cases value with
    | none => cases hb
    | some values =>
      rw [Option.map_some, Option.toList_some, List.mem_singleton] at hb
      exact ⟨x, hx, by rw [hb]; exact hle⟩
  · intro w hw x hx
    rcases List.mem_append.1 hw with hw | hw
    · obtain ⟨y, hy, hle, -⟩ := hclosed w hw
      rw [hy] at hx
      cases hx
      exact hle
    · cases value with
      | none => cases hw
      | some values =>
        rw [Option.map_some, Option.toList_some, List.mem_singleton] at hw
        rw [hw] at hx
        cases hx

theorem Within.write {N : ℕ → Prop} {vs : List (Version V)} (h : Within N vs) {n : ℕ} (hn : N n)
    (value : Option V) : Within N (write n value vs) := by
  have hclose : ∀ w ∈ closeLive n vs, N w.lower ∧ ∀ x, w.upper = some x → N x := by
    induction vs with
    | nil => simp [closeLive]
    | cons v vs ih =>
      have hvs : Within N vs := fun w hw => h w (List.mem_cons_of_mem _ hw)
      intro w hw
      unfold closeLive at hw
      split at hw
      · rcases List.mem_cons.1 hw with rfl | hw
        · exact ⟨(h v List.mem_cons_self).1, fun x hx => by cases hx; exact hn⟩
        · exact hvs w hw
      · rcases List.mem_cons.1 hw with rfl | hw
        · exact h w List.mem_cons_self
        · exact ih hvs w hw
  intro w hw
  rcases List.mem_append.1 hw with hw | hw
  · exact hclose w hw
  · cases value with
    | none => cases hw
    | some values =>
      rw [Option.map_some, Option.toList_some, List.mem_singleton] at hw
      rw [hw]
      exact ⟨hn, fun x hx => by cases hx⟩

theorem mem_cutAt {k : ℤ} {vs : List (Version V)} {w : Version V} :
    w ∈ cutAt k vs ↔ ∃ v ∈ vs, (v.lower : ℤ) ≤ k ∧ v.reopen k = w := by
  unfold cutAt
  simp only [List.mem_map, List.mem_filter, decide_eq_true_eq, and_assoc]

theorem Chained.cutAt {vs : List (Version V)} (h : Chained vs) (k : ℤ) : Chained (cutAt k vs) := by
  refine ⟨?_, ?_⟩
  · unfold Versions.cutAt
    rw [List.pairwise_map, List.pairwise_filter]
    refine h.ordered.imp ?_
    intro a b hab ha hb
    obtain ⟨x, hx, hle⟩ := hab
    rw [decide_eq_true_eq] at hb
    exact ⟨x, Version.reopen_upper.2 ⟨hx, by omega⟩, by rwa [Version.reopen_lower]⟩
  · intro w hw x hx
    obtain ⟨v, hv, -, rfl⟩ := mem_cutAt.1 hw
    rw [Version.reopen_lower]
    exact h.closed v hv x (Version.reopen_upper.1 hx).1

theorem Within.cutAt {N : ℕ → Prop} {vs : List (Version V)} (h : Within N vs) (k : ℤ) :
    Within (fun n => N n ∧ (n : ℤ) ≤ k) (cutAt k vs) := by
  intro w hw
  obtain ⟨v, hv, hle, rfl⟩ := mem_cutAt.1 hw
  rw [Version.reopen_lower]
  refine ⟨⟨(h v hv).1, hle⟩, fun x hx => ?_⟩
  obtain ⟨hup, hxk⟩ := Version.reopen_upper.1 hx
  exact ⟨(h v hv).2 x hup, hxk⟩

/-- A cut above every height changes nothing. -/
theorem cutAt_of_within {k : ℤ} {vs : List (Version V)} (h : Within (fun n => (n : ℤ) ≤ k) vs) :
    cutAt k vs = vs := by
  unfold cutAt
  have hkept : vs.filter (fun v => (v.lower : ℤ) ≤ k) = vs :=
    List.filter_eq_self.2 fun v hv => decide_eq_true (h v hv).1
  rw [hkept]
  refine (List.map_congr_left fun v hv => ?_).trans (List.map_id _)
  have hclosed : ¬(v.upper.any fun x : ℕ => k < (x : ℤ)) = true := by
    intro hany
    obtain ⟨x, hx, hlt⟩ := (Option.any_eq_true _ _).1 hany
    have hle := (h v hv).2 x hx
    rw [decide_eq_true_eq] at hlt
    omega
  unfold Version.reopen
  rw [if_neg hclosed]
  rfl

/-- What a height above the cut closes is open after the cut. -/
theorem cutAt_closeLive {k : ℤ} {n : ℕ} (h : k < n) (vs : List (Version V)) :
    cutAt k (closeLive n vs) = cutAt k vs := by
  induction vs with
  | nil => rfl
  | cons v vs ih =>
    have hcons : ∀ (w : Version V) (ws : List (Version V)), cutAt k (w :: ws) =
        (if (w.lower : ℤ) ≤ k then [w.reopen k] else []) ++ cutAt k ws := by
      intro w ws
      unfold cutAt
      rw [List.filter_cons]
      by_cases hw : (w.lower : ℤ) ≤ k <;> simp [hw]
    unfold closeLive
    split
    · rename_i hlive
      have hreopen : Version.reopen k { v with upper := some n } = v.reopen k := by
        obtain ⟨values, lower, upper⟩ := v
        cases hlive
        unfold Version.reopen
        simp [h]
      rw [hcons, hcons, hreopen]
    · rw [hcons, hcons, ih]

/-- **A write above the cut is cut away.** -/
theorem cutAt_write {k : ℤ} {n : ℕ} (h : k < n) (value : Option V) (vs : List (Version V)) :
    cutAt k (write n value vs) = cutAt k vs := by
  have hclose := cutAt_closeLive h vs
  unfold write
  unfold cutAt at hclose ⊢
  rw [List.filter_append, List.map_append, hclose]
  cases value with
  | none => simp
  | some values => simp [h]

/-- A second cut below the first is the cut there. -/
theorem cutAt_cutAt {k h : ℤ} (hle : h ≤ k) (vs : List (Version V)) : cutAt h (cutAt k vs) = cutAt h vs := by
  unfold cutAt
  rw [List.filter_map, List.map_map, List.filter_filter]
  have hkeep : ∀ v : Version V, (((fun w : Version V => decide ((w.lower : ℤ) ≤ h)) ∘ Version.reopen k) v &&
      decide ((v.lower : ℤ) ≤ k)) = decide ((v.lower : ℤ) ≤ h) := by
    intro v
    rw [Function.comp_apply, Version.reopen_lower, ← Bool.decide_and, decide_eq_decide]
    omega
  simp only [hkeep]
  refine List.map_congr_left fun v _ => ?_
  rw [Function.comp_apply]
  unfold Version.reopen
  cases hv : v.upper with
  | none => simp [hv]
  | some x =>
    by_cases hx : k < (x : ℤ)
    · simp [hx, show h < (x : ℤ) by omega]
    · simp [hx, hv]

/-! ### A thinned history next to the whole one -/

/-- `vs` is `us` without some versions, each of them closed at a height of `P`. -/
structure Thinned (P : ℕ → Prop) (vs us : List (Version V)) : Prop where
  sublist : vs.Sublist us
  missing : ∀ v ∈ us, v ∉ vs → ∃ x, v.upper = some x ∧ P x

theorem Thinned.refl (P : ℕ → Prop) (vs : List (Version V)) : Thinned P vs vs :=
  ⟨List.Sublist.refl _, fun _ hv hgone => absurd hv hgone⟩

theorem Thinned.trans {P Q : ℕ → Prop} {ws vs us : List (Version V)} (h : Thinned Q ws vs)
    (h' : Thinned P vs us) : Thinned (fun x => P x ∨ Q x) ws us := by
  refine ⟨h.sublist.trans h'.sublist, fun v hv hgone => ?_⟩
  by_cases hin : v ∈ vs
  · obtain ⟨x, hx, hq⟩ := h.missing v hin hgone
    exact ⟨x, hx, .inr hq⟩
  · obtain ⟨x, hx, hp⟩ := h'.missing v hv hin
    exact ⟨x, hx, .inl hp⟩

theorem Thinned.mono {P Q : ℕ → Prop} {vs us : List (Version V)} (h : Thinned P vs us)
    (hPQ : ∀ x, P x → Q x) : Thinned Q vs us := by
  refine ⟨h.sublist, fun v hv hgone => ?_⟩
  obtain ⟨x, hx, hp⟩ := h.missing v hv hgone
  exact ⟨x, hx, hPQ x hp⟩

theorem sublist_write {vs us : List (Version V)} (h : Chained us) (hs : vs.Sublist us) (n : ℕ)
    (value : Option V) : (write n value vs).Sublist (write n value us) := by
  unfold write
  rw [closeLive_eq_map h, closeLive_eq_map (h.sublist hs)]
  exact (hs.map _).append (List.Sublist.refl _)

theorem sublist_cutAt {vs us : List (Version V)} (hs : vs.Sublist us) (k : ℤ) :
    (cutAt k vs).Sublist (cutAt k us) :=
  (hs.filter _).map _

theorem Thinned.write {P : ℕ → Prop} {vs us : List (Version V)} (h : Chained us) (ht : Thinned P vs us)
    (n : ℕ) (value : Option V) : Thinned P (write n value vs) (write n value us) := by
  refine ⟨sublist_write h ht.sublist n value, fun w hw hmiss => ?_⟩
  unfold Versions.write at hw hmiss
  rw [closeLive_eq_map h] at hw
  rw [closeLive_eq_map (h.sublist ht.sublist)] at hmiss
  rcases List.mem_append.1 hw with hw | hw
  · obtain ⟨v, hv, rfl⟩ := List.mem_map.1 hw
    have hgone : v ∉ vs := fun hin =>
      hmiss (List.mem_append_left _ (List.mem_map.2 ⟨v, hin, rfl⟩))
    obtain ⟨x, hx, hle⟩ := ht.missing v hv hgone
    rw [if_neg (by simp [hx])]
    exact ⟨x, hx, hle⟩
  · exact absurd (List.mem_append_right _ hw) hmiss

/-- A cut above where the missing versions were closed opens none of them. -/
theorem Thinned.cutAt {P : ℕ → Prop} {k : ℤ} {vs us : List (Version V)} (ht : Thinned P vs us)
    (hk : ∀ x : ℕ, P x → (x : ℤ) ≤ k) : Thinned P (cutAt k vs) (cutAt k us) := by
  refine ⟨sublist_cutAt ht.sublist k, fun w hw hmiss => ?_⟩
  obtain ⟨v, hv, hle, rfl⟩ := mem_cutAt.1 hw
  have hgone : v ∉ vs := fun hin => hmiss (mem_cutAt.2 ⟨v, hin, hle, rfl⟩)
  obtain ⟨x, hx, hp⟩ := ht.missing v hv hgone
  exact ⟨x, Version.reopen_upper.2 ⟨hx, hk x hp⟩, hp⟩

/-- Every missing version is closed, and at a height of `Q` if it ever stood. -/
def Lost (Q : ℕ → Prop) (vs us : List (Version V)) : Prop :=
  ∀ v ∈ us, v ∉ vs → ∃ x, v.upper = some x ∧ (v.lower < x → Q x)

theorem Lost.write {Q : ℕ → Prop} {vs us : List (Version V)} (h : Chained us) (hs : vs.Sublist us)
    (hl : Lost Q vs us) (n : ℕ) (value : Option V) : Lost Q (write n value vs) (write n value us) := by
  intro w hw hmiss
  unfold Versions.write at hw hmiss
  rw [closeLive_eq_map h] at hw
  rw [closeLive_eq_map (h.sublist hs)] at hmiss
  rcases List.mem_append.1 hw with hw | hw
  · obtain ⟨v, hv, rfl⟩ := List.mem_map.1 hw
    have hgone : v ∉ vs := fun hin => hmiss (List.mem_append_left _ (List.mem_map.2 ⟨v, hin, rfl⟩))
    obtain ⟨x, hx, hq⟩ := hl v hv hgone
    rw [if_neg (by simp [hx])]
    exact ⟨x, hx, hq⟩
  · exact absurd (List.mem_append_right _ hw) hmiss

/-- What a cut may open again must not be missing. -/
theorem Lost.cutAt {Q : ℕ → Prop} {k : ℤ} {vs us : List (Version V)} (hl : Lost Q vs us) {P : ℕ → Prop}
    (hk : ∀ v ∈ us, v ∉ vs → v.Stands → (v.lower : ℤ) ≤ k → ∃ x : ℕ, v.upper = some x ∧ (x : ℤ) ≤ k ∧ P x) :
    Lost P (cutAt k vs) (cutAt k us) := by
  intro w hw hmiss
  obtain ⟨v, hv, hle, rfl⟩ := mem_cutAt.1 hw
  have hgone : v ∉ vs := fun hin => hmiss (mem_cutAt.2 ⟨v, hin, hle, rfl⟩)
  obtain ⟨x, hx, -⟩ := hl v hv hgone
  by_cases hstands : v.Stands
  · obtain ⟨y, hy, hyk, hp⟩ := hk v hv hgone hstands hle
    exact ⟨y, Version.reopen_upper.2 ⟨hy, hyk⟩, fun _ => hp⟩
  · have hempty : x ≤ v.lower := by
      by_contra hlt
      refine hstands fun y hy => ?_
      rw [hx] at hy
      cases hy
      omega
    refine ⟨x, Version.reopen_upper.2 ⟨hx, by omega⟩, fun hlt => ?_⟩
    rw [Version.reopen_lower] at hlt
    omega

end Versions
