import Mathlib.Data.List.Nodup
import Mathlib.Data.List.Perm.Basic
import Mathlib.Tactic

/-!
# Values collected under their keys

A map from keys to lists of values, in the order the keys came, filled by
pushing one value after another.

* `mem_collect`: **a key holds its values**, in the order they came.
-/

namespace Etherfold

/-- An insertion-ordered map from keys to lists of values. -/
abbrev Multimap (K V : Type*) := List (K × List V)

namespace Multimap

variable {K V : Type*} [DecidableEq K]

/-- Add a value under its key, which is made where there is none. -/
def push (m : Multimap K V) (pair : K × V) : Multimap K V :=
  if m.any (·.1 = pair.1) then
    m.map fun entry => if entry.1 = pair.1 then (entry.1, entry.2 ++ [pair.2]) else entry
  else m ++ [(pair.1, [pair.2])]

/-- What the map holds under a key. -/
def get (m : Multimap K V) (key : K) : Option (List V) := (m.find? (·.1 = key)).map (·.2)

/-- Pairs pushed one after another. -/
def collect (pairs : List (K × V)) : Multimap K V := pairs.foldl push []

/-- The values of the pairs under a key. -/
def valuesAt (pairs : List (K × V)) (key : K) : List V := (pairs.filter (·.1 = key)).map (·.2)

theorem any_key {m : Multimap K V} {key : K} :
    m.any (·.1 = key) = true ↔ key ∈ m.map (·.1) := by
  simp [List.any_eq_true, List.mem_map]

theorem push_keys (m : Multimap K V) (pair : K × V) :
    (m.push pair).map (·.1) = if pair.1 ∈ m.map (·.1) then m.map (·.1) else m.map (·.1) ++ [pair.1] := by
  unfold push
  by_cases h : pair.1 ∈ m.map (·.1)
  · rw [if_pos (any_key.2 h), if_pos h, List.map_map]
    apply List.map_congr_left
    intro entry _
    simp only [Function.comp_apply]
    split <;> rfl
  · rw [if_neg (mt any_key.1 h), if_neg h, List.map_append]
    rfl

theorem collect_concat (pairs : List (K × V)) (pair : K × V) :
    collect (pairs ++ [pair]) = (collect pairs).push pair := by
  simp [collect]

theorem valuesAt_concat (pairs : List (K × V)) (pair : K × V) (key : K) :
    valuesAt (pairs ++ [pair]) key =
      if pair.1 = key then valuesAt pairs key ++ [pair.2] else valuesAt pairs key := by
  unfold valuesAt
  rw [List.filter_append, List.map_append]
  by_cases h : pair.1 = key <;> simp [h]

theorem mem_valuesAt {pairs : List (K × V)} {key : K} {value : V} :
    value ∈ valuesAt pairs key ↔ (key, value) ∈ pairs := by
  simp [valuesAt]

theorem mem_collect_keys {pairs : List (K × V)} {key : K} :
    key ∈ (collect pairs).map (·.1) ↔ key ∈ pairs.map (·.1) := by
  induction pairs using List.reverseRecOn with
  | nil => simp [collect]
  | append_singleton pairs pair ih =>
    rw [collect_concat, push_keys]
    by_cases h : pair.1 ∈ (collect pairs).map (·.1)
    · rw [if_pos h, ih, List.map_append, List.mem_append, List.map_singleton, List.mem_singleton]
      refine ⟨.inl, fun hk => ?_⟩
      rcases hk with hk | rfl
      · exact hk
      · exact ih.1 h
    · rw [if_neg h, List.map_append, List.mem_append, List.mem_append, ih]
      rfl

theorem collect_keys_nodup (pairs : List (K × V)) : ((collect pairs).map (·.1)).Nodup := by
  induction pairs using List.reverseRecOn with
  | nil => simp [collect]
  | append_singleton pairs pair ih =>
    rw [collect_concat, push_keys]
    split
    · exact ih
    · rename_i h
      exact List.nodup_append.2 ⟨ih, by simp, fun a ha b hb => by
        rw [List.mem_singleton.1 hb]
        exact fun heq => h (heq ▸ ha)⟩

/-- **A key holds its values**, in the order they came. -/
theorem mem_collect {pairs : List (K × V)} {entry : K × List V} :
    entry ∈ collect pairs ↔ entry.1 ∈ pairs.map (·.1) ∧ entry.2 = valuesAt pairs entry.1 := by
  induction pairs using List.reverseRecOn generalizing entry with
  | nil => simp [collect]
  | append_singleton pairs pair ih =>
    obtain ⟨key, values⟩ := entry
    rw [collect_concat, valuesAt_concat, List.map_append, List.mem_append, List.map_singleton,
      List.mem_singleton]
    unfold push
    by_cases h : pair.1 ∈ (collect pairs).map (·.1)
    · rw [if_pos (any_key.2 h), List.mem_map]
      have hin := mem_collect_keys.1 h
      constructor
      · rintro ⟨⟨key', values'⟩, hmem, heq⟩
        obtain ⟨hkey, hvalues⟩ := ih.1 hmem
        dsimp only at heq hkey hvalues
        by_cases hk : key' = pair.1
        · rw [if_pos hk] at heq
          injection heq with h1 h2
          subst h1 h2
          exact ⟨.inl hkey, by rw [if_pos hk.symm, hvalues]⟩
        · rw [if_neg hk] at heq
          injection heq with h1 h2
          subst h1 h2
          exact ⟨.inl hkey, by rw [if_neg (Ne.symm hk), hvalues]⟩
      · rintro ⟨hkey, hvalues⟩
        dsimp only at hvalues
        have hold : key ∈ pairs.map (·.1) := by
          rcases hkey with hkey | hkey
          · exact hkey
          · rw [show key = pair.1 from hkey]
            exact hin
        refine ⟨(key, valuesAt pairs key), ih.2 ⟨hold, rfl⟩, ?_⟩
        dsimp only
        by_cases hk : key = pair.1
        · rw [if_pos hk, hvalues, if_pos hk.symm]
        · rw [if_neg hk, hvalues, if_neg (Ne.symm hk)]
    · rw [if_neg (mt any_key.1 h), List.mem_append, List.mem_singleton]
      have hout : pair.1 ∉ pairs.map (·.1) := mt mem_collect_keys.2 h
      have hnone : valuesAt pairs pair.1 = [] := by
        rw [List.eq_nil_iff_forall_not_mem]
        intro value hv
        exact hout (List.mem_map.2 ⟨_, mem_valuesAt.1 hv, rfl⟩)
      constructor
      · rintro (hmem | heq)
        · obtain ⟨hkey, hvalues⟩ := ih.1 hmem
          have hk : pair.1 ≠ key := fun hk => hout (hk ▸ hkey)
          exact ⟨.inl hkey, by rw [if_neg hk]; exact hvalues⟩
        · injection heq with h1 h2
          subst h1 h2
          exact ⟨.inr rfl, by simp [hnone]⟩
      · rintro ⟨hkey | rfl, hvalues⟩
        · dsimp only at hvalues
          have hk : pair.1 ≠ key := fun hk => hout (hk ▸ hkey)
          rw [if_neg hk] at hvalues
          exact .inl (ih.2 ⟨hkey, hvalues⟩)
        · dsimp only at hvalues
          rw [if_pos rfl, hnone] at hvalues
          exact .inr (by rw [hvalues]; rfl)

theorem get_collect {pairs : List (K × V)} {key : K} :
    (collect pairs).get key = if key ∈ pairs.map (·.1) then some (valuesAt pairs key) else none := by
  unfold get
  cases hfind : (collect pairs).find? (·.1 = key) with
  | none =>
    rw [if_neg, Option.map_none]
    intro hkey
    obtain ⟨entry, hentry, hk⟩ := List.mem_map.1 (mem_collect_keys.2 hkey)
    exact List.find?_eq_none.1 hfind entry hentry (by simpa using hk)
  | some entry =>
    have hk : entry.1 = key := by simpa using List.find?_some hfind
    obtain ⟨hkey, hvalues⟩ := mem_collect.1 (List.mem_of_find?_eq_some hfind)
    rw [if_pos (hk ▸ hkey), Option.map_some, hvalues, hk]

end Multimap

end Etherfold
