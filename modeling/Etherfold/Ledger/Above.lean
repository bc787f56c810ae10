import Etherfold.Ledger.Versions

/-!
# Two histories alike above a height

Two histories of one key may differ in versions that never stood, and in versions that ended
at or below some height. Neither is seen by a read above that height, nor by a cut there.

* `AlikeAbove.asOf`, `AlikeAbove.current`: **they answer alike** above the height and now.
* `AlikeAbove.write`, `AlikeAbove.cutAt`: writing and cutting keep them alike.
* `AlikeAbove.deleteClosed`, `AlikeAbove.thinned`: so does deleting what ended at or below a
  height, in both at once or a little here and there.
-/

namespace Versions

variable {V : Type*} {c k : ℤ} {vs us ws : List (Version V)}

/-- The version stood above height `c`. -/
def Version.Reaches (c : ℤ) (v : Version V) : Prop := v.Stands ∧ ∀ x, v.upper = some x → c < (x : ℤ)

/-- The same versions, of those that stood above `c`. -/
def AlikeAbove (c : ℤ) (vs us : List (Version V)) : Prop := ∀ v : Version V, v.Reaches c → (v ∈ vs ↔ v ∈ us)

theorem Version.reaches_of_live {v : Version V} (h : v.upper = none) : v.Reaches c := by
  refine ⟨fun x hx => ?_, fun x hx => ?_⟩ <;> · rw [h] at hx; cases hx

theorem Version.reaches_of_openAt {v : Version V} (hk : c ≤ k) (h : v.openAt k = true) : v.Reaches c := by
  obtain ⟨hlo, hhi⟩ := Version.openAt_iff.1 h
  refine ⟨fun x hx => ?_, fun x hx => ?_⟩ <;> · have hlt := hhi x hx; omega

namespace AlikeAbove

theorem refl (c : ℤ) (vs : List (Version V)) : AlikeAbove c vs vs := fun _ _ => Iff.rfl

theorem symm (h : AlikeAbove c vs us) : AlikeAbove c us vs := fun v hv => (h v hv).symm

theorem trans (h : AlikeAbove c vs us) (h' : AlikeAbove c us ws) : AlikeAbove c vs ws :=
  fun v hv => (h v hv).trans (h' v hv)

theorem mono {c' : ℤ} (h : AlikeAbove c vs us) (hle : c ≤ c') : AlikeAbove c' vs us := by
  refine fun v hv => h v ⟨hv.1, fun x hx => ?_⟩
  have hlt := hv.2 x hx
  omega

/-- **They answer alike for a height above.** -/
theorem asOf (h : AlikeAbove c vs us) (hvs : Chained vs) (hus : Chained us) (hk : c ≤ k) :
    Versions.asOf k vs = Versions.asOf k us := by
  refine Option.ext fun v => ?_
  rw [asOf_eq_some_iff hvs, asOf_eq_some_iff hus]
  refine and_congr_left fun hopen => h v (Version.reaches_of_openAt hk hopen)

end AlikeAbove

/-- The live version of a history is its only one. -/
theorem current_eq_some_iff (h : Chained vs) {v : Version V} : current vs = some v ↔ v ∈ vs ∧ v.upper = none := by
  unfold current
  constructor
  · intro hv
    refine ⟨List.mem_of_find?_eq_some hv, ?_⟩
    simpa using List.find?_some hv
  · intro ⟨hmem, hlive⟩
    obtain ⟨w, hw⟩ := Option.isSome_iff_exists.1
      (List.find?_isSome.2 ⟨v, hmem, by rw [hlive]; rfl⟩ : (vs.find? (·.upper.isNone)).isSome = true)
    have hwlive : w.upper = none := by simpa using List.find?_some hw
    -- both stand at every height from where the later one begins
    have hopen : ∀ u : Version V, u.upper = none → u.lower ≤ max v.lower w.lower →
        u.openAt (max v.lower w.lower : ℕ) = true := by
      intro u hu hle
      rw [Version.openAt_iff]
      refine ⟨by exact_mod_cast hle, fun x hx => ?_⟩
      rw [hu] at hx
      cases hx
    rw [hw, h.eq_of_openAt (List.mem_of_find?_eq_some hw) hmem (hopen w hwlive (le_max_right _ _))
      (hopen v hlive (le_max_left _ _))]

/-- What a history is made of after a write. -/
theorem mem_write (h : Chained vs) {n : ℕ} {value : Option V} {v : Version V} : v ∈ write n value vs ↔
    (v ∈ vs ∧ v.upper ≠ none) ∨ (∃ w ∈ vs, w.upper = none ∧ v = { w with upper := some n }) ∨
      ∃ values ∈ value, v = ⟨values, n, none⟩ := by
  unfold write
  rw [closeLive_eq_map h, List.mem_append, List.mem_map, ← or_assoc]
  refine or_congr ?_ ?_
  · constructor
    · rintro ⟨w, hw, rfl⟩
      split
      · rename_i hlive
        exact .inr ⟨w, hw, hlive, rfl⟩
      · rename_i hclosed
        exact .inl ⟨hw, hclosed⟩
    · rintro (⟨hv, hclosed⟩ | ⟨w, hw, hlive, rfl⟩)
      · exact ⟨v, hv, if_neg hclosed⟩
      · exact ⟨w, hw, if_pos hlive⟩
  · cases value with
    | none => simp
    | some values => simp

namespace AlikeAbove

/-- **They hold the same live version.** -/
theorem current (h : AlikeAbove c vs us) (hvs : Chained vs) (hus : Chained us) :
    Versions.current vs = Versions.current us := by
  refine Option.ext fun v => ?_
  rw [current_eq_some_iff hvs, current_eq_some_iff hus]
  exact and_congr_left fun hlive => h v (Version.reaches_of_live hlive)

theorem write (h : AlikeAbove c vs us) (hvs : Chained vs) (hus : Chained us) (n : ℕ) (value : Option V) :
    AlikeAbove c (write n value vs) (write n value us) := by
  intro v hv
  rw [mem_write hvs, mem_write hus]
  refine or_congr (and_congr_left fun _ => h v hv) (or_congr_left ?_)
  refine exists_congr fun w => ?_
  constructor
  · intro ⟨hw, hlive, heq⟩
    exact ⟨(h w (Version.reaches_of_live hlive)).1 hw, hlive, heq⟩
  · intro ⟨hw, hlive, heq⟩
    exact ⟨(h w (Version.reaches_of_live hlive)).2 hw, hlive, heq⟩

/-- A cut above the height opens again only versions both hold. -/
theorem cutAt (h : AlikeAbove c vs us) (hk : c ≤ k) : AlikeAbove c (cutAt k vs) (cutAt k us) := by
  intro v hv
  rw [mem_cutAt, mem_cutAt]
  refine exists_congr fun w => ?_
  have hsame : (w.lower : ℤ) ≤ k ∧ w.reopen k = v → (w ∈ vs ↔ w ∈ us) := by
    intro ⟨hle, heq⟩
    apply h w
    refine ⟨fun x hx => ?_, fun x hx => ?_⟩ <;>
      · by_cases hxk : (x : ℤ) ≤ k
        · -- closed at or below the cut, and so it stays
          have hup : v.upper = some x := heq ▸ Version.reopen_upper.2 ⟨hx, hxk⟩
          have hlow : v.lower = w.lower := by rw [← heq, Version.reopen_lower]
          have hst := hv.1 x hup
          have hc := hv.2 x hup
          omega
        · omega
  constructor
  · intro ⟨hw, hcut⟩
    exact ⟨(hsame hcut).1 hw, hcut⟩
  · intro ⟨hw, hcut⟩
    exact ⟨(hsame hcut).2 hw, hcut⟩

end AlikeAbove

/-- A cut below every height leaves nothing. -/
theorem cutAt_of_neg (hk : k < 0) (vs : List (Version V)) : cutAt k vs = [] := by
  rw [List.eq_nil_iff_forall_not_mem]
  intro w hw
  obtain ⟨v, -, hle, -⟩ := mem_cutAt.1 hw
  omega

/-- What is left where nothing that ended at or below a height is. -/
theorem Thinned.mem_iff {f : ℕ} (h : Thinned (· ≤ f) ws vs) (hws : ∀ v ∈ ws, ∀ x, v.upper = some x → f < x)
    {v : Version V} : v ∈ ws ↔ v ∈ vs ∧ ∀ x, v.upper = some x → f < x := by
  refine ⟨fun hv => ⟨h.sublist.subset hv, hws v hv⟩, fun ⟨hv, habove⟩ => ?_⟩
  by_contra hgone
  obtain ⟨x, hx, hle⟩ := h.missing v hv hgone
  have hlt := habove x hx
  omega

namespace AlikeAbove

/-- Both lose everything that ended at or below a height. -/
theorem deleteClosed {vs' us' : List (Version V)} {f : ℕ} (h : AlikeAbove c vs us)
    (hvs : ∀ v, v ∈ vs' ↔ v ∈ vs ∧ ∀ x, v.upper = some x → f < x)
    (hus : ∀ v, v ∈ us' ↔ v ∈ us ∧ ∀ x, v.upper = some x → f < x) : AlikeAbove c vs' us' := by
  intro v hv
  rw [hvs, hus]
  exact and_congr_left fun _ => h v hv

/-- Both lose what ended at or below a height, until neither has any. -/
theorem thinned_both {vs' us' : List (Version V)} {f : ℕ} (h : AlikeAbove c vs us) (hvs : Thinned (· ≤ f) vs' vs)
    (hus : Thinned (· ≤ f) us' us) (hvs' : ∀ v ∈ vs', ∀ x, v.upper = some x → f < x)
    (hus' : ∀ v ∈ us', ∀ x, v.upper = some x → f < x) : AlikeAbove c vs' us' :=
  h.deleteClosed (fun _ => hvs.mem_iff hvs') fun _ => hus.mem_iff hus'

/-- One of them loses some of what ended at or below a height. -/
theorem thinned {f : ℕ} (h : AlikeAbove c vs us) (ht : Thinned (· ≤ f) ws vs) : AlikeAbove (max c f) ws us := by
  have hws : AlikeAbove (max c f) ws vs := by
    intro v hv
    refine ⟨fun hin => ht.sublist.subset hin, fun hin => ?_⟩
    by_contra hgone
    obtain ⟨x, hx, hle⟩ := ht.missing v hin hgone
    have hlt := hv.2 x hx
    omega
  exact hws.trans (h.mono (le_max_left _ _))

end AlikeAbove

end Versions
