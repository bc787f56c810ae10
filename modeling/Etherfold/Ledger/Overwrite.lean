import Etherfold.Ledger.Above
import Etherfold.Ledger.Page

/-!
# One version a height

A store that identifies a version by where it begins keeps at most one for each height: a write
at a height puts its version over the one that began there, which ended there too.

* `mem_overwrite`, `overwrite_sublist`: a write that overwrites.
* `alike_overwrite`: **it is told apart from a write that keeps both by no read**.
-/

namespace Versions

variable {V : Type*} {vs us : List (Version V)} {n : ℕ} {c k : ℤ}

/-- In ascending order of where they begin, at most one a height. -/
abbrev ByLower (vs : List (Version V)) : Prop := Paging.Sorted Version.lower vs

/-- Close the live version and put another over whatever begins at `n`. -/
def overwrite (n : ℕ) (value : Option V) (vs : List (Version V)) : List (Version V) :=
  match value with
  | none => closeLive n vs
  | some values => (closeLive n vs).filter (·.lower < n) ++ [⟨values, n, none⟩]

theorem mem_closeLive (h : Chained vs) {v : Version V} : v ∈ closeLive n vs ↔
    (v ∈ vs ∧ v.upper ≠ none) ∨ ∃ w ∈ vs, w.upper = none ∧ v = { w with upper := some n } := by
  have hwrite : v ∈ write n none vs ↔ _ := mem_write h
  unfold write at hwrite
  simpa using hwrite

/-- A row that is not live has nothing to close. -/
theorem closeLive_of_current_none (h : Chained vs) (hnone : current vs = none) (n : ℕ) : closeLive n vs = vs := by
  rw [closeLive_eq_map h]
  conv_rhs => rw [← List.map_id vs]
  refine List.map_congr_left fun v hv => if_neg fun hlive => ?_
  have hsome := (current_eq_some_iff h).2 ⟨hv, hlive⟩
  rw [hnone] at hsome
  cases hsome

theorem byLower_closeLive (h : Chained vs) (hs : ByLower vs) (n : ℕ) : ByLower (closeLive n vs) := by
  rw [closeLive_eq_map h]
  refine List.pairwise_map.2 (hs.imp fun {a b} hab => ?_)
  split <;> split <;> exact hab

theorem mem_overwrite {value : Option V} {v : Version V} : v ∈ overwrite n value vs ↔
    (v ∈ closeLive n vs ∧ (value.isSome = true → v.lower < n)) ∨ ∃ values ∈ value, v = ⟨values, n, none⟩ := by
  unfold overwrite
  cases value with
  | none => simp
  | some values => simp [List.mem_filter]

theorem byLower_overwrite (h : Chained vs) (hs : ByLower vs) (n : ℕ) (value : Option V) :
    ByLower (overwrite n value vs) := by
  have hclosed := byLower_closeLive h hs n
  cases value with
  | none => exact hclosed
  | some values =>
    refine List.pairwise_append.2 ⟨hclosed.filter _, List.pairwise_singleton _ _, fun a ha b hb => ?_⟩
    rw [List.mem_singleton.1 hb]
    simpa using (List.mem_filter.1 ha).2

/-- What overwriting leaves out. -/
theorem overwrite_sublist (n : ℕ) (value : Option V) (vs : List (Version V)) :
    (overwrite n value vs).Sublist (write n value vs) := by
  unfold write
  cases value with
  | none => simp [overwrite]
  | some values => exact List.filter_sublist.append (List.Sublist.refl _)

/-- **Overwriting leaves out only what never stood.** -/
theorem alike_overwrite (h : Chained vs) (hw : Within (· ≤ n) vs) (c : ℤ) (value : Option V) :
    AlikeAbove c (overwrite n value vs) (write n value vs) := by
  intro v hv
  refine ⟨fun hin => (overwrite_sublist n value vs).subset hin, fun hin => ?_⟩
  unfold write at hin
  rw [List.mem_append, Option.mem_toList, Option.map_eq_some_iff] at hin
  rw [mem_overwrite]
  rcases hin with hin | ⟨values, hvalues, heq⟩
  · refine .inl ⟨hin, fun _ => ?_⟩
    -- a closed version begins where it ended at the latest, and this one stood
    rcases (mem_closeLive h).1 hin with ⟨hvs, hup⟩ | ⟨w, hw', hlive, rfl⟩
    · obtain ⟨x, hx⟩ := Option.ne_none_iff_exists'.1 hup
      have hlt := hv.1 x hx
      have hle := (hw v hvs).2 x hx
      omega
    · exact hv.1 n rfl
  · exact .inr ⟨values, hvalues, heq.symm⟩

theorem chained_overwrite (h : Chained vs) (hw : Within (· ≤ n) vs) (value : Option V) :
    Chained (overwrite n value vs) :=
  (h.write hw value).sublist (overwrite_sublist n value vs)

/-- What a write that overwrites leaves live. -/
theorem current_overwrite (h : Chained vs) (hw : Within (· ≤ n) vs) (value : Option V) :
    current (overwrite n value vs) = value.map fun values => ⟨values, n, none⟩ := by
  rw [(alike_overwrite h hw 0 value).current (chained_overwrite h hw value) (h.write hw value), current_write h]

theorem within_overwrite {N : ℕ → Prop} (hw : Within N vs) (hN : N n) (value : Option V) :
    Within N (overwrite n value vs) :=
  fun v hv => hw.write hN value v ((overwrite_sublist n value vs).subset hv)

theorem byLower_cutAt (hs : ByLower vs) (k : ℤ) : ByLower (cutAt k vs) := by
  unfold cutAt
  refine List.pairwise_map.2 ((hs.filter _).imp fun {a b} hab => ?_)
  rw [Version.reopen_lower, Version.reopen_lower]
  exact hab

end Versions
