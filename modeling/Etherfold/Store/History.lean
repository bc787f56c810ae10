import Etherfold.Store.Reads

/-!
# The blocks a store is made of

What the store holds of a key is what the blocks it recorded write to it in order.

* `cutAt_history`: **cutting what blocks wrote leaves what the blocks up to the cut wrote**.
* `MemoryStateStore.Represents`: the store next to the blocks it is made of, kept by every
  operation but a prune.
-/

namespace Etherfold

open Versions

/-- A block and the mutations it was applied with. -/
structure AppliedBlock (K V H : Type) where
  block : BlockPointer H
  mutations : List (Mutation K V)

section History

variable {K V H C : Type} [DecidableEq K]

/-- What blocks write to a key, one after another. -/
def history (key : K) (applied : List (AppliedBlock K V H)) : List (Version V) :=
  applied.foldl (fun vs b => writes b.block.number key b.mutations vs) []

theorem history_concat (key : K) (applied : List (AppliedBlock K V H)) (b : AppliedBlock K V H) :
    history key (applied ++ [b]) = writes b.block.number key b.mutations (history key applied) := by
  unfold history
  rw [List.foldl_append]
  rfl

theorem within_writes {N : ℕ → Prop} {number : ℕ} (hN : N number) (key : K) (ms : List (Mutation K V))
    {vs : List (Version V)} (h : Within N vs) : Within N (writes number key ms vs) := by
  induction ms generalizing vs with
  | nil => exact h
  | cons m ms ih =>
    unfold writes
    rw [List.foldl_cons]
    split
    · exact ih (h.write hN m.values)
    · exact ih h

/-- The heights of a key's versions are those of the blocks. -/
theorem within_history {N : ℕ → Prop} (key : K) {applied : List (AppliedBlock K V H)}
    (h : ∀ b ∈ applied, N b.block.number) : Within N (history key applied) := by
  induction applied using List.reverseRecOn with
  | nil => intro v hv; cases hv
  | append_singleton applied b ih =>
    rw [history_concat]
    apply within_writes (h b (by simp))
    exact ih fun b' hb' => h b' (List.mem_append_left _ hb')

theorem writes_of_notMem {number : ℕ} {key : K} {ms : List (Mutation K V)} (h : ∀ m ∈ ms, m.key ≠ key)
    (vs : List (Version V)) : writes number key ms vs = vs := by
  induction ms with
  | nil => rfl
  | cons m ms ih =>
    unfold writes
    rw [List.foldl_cons, if_neg (h m List.mem_cons_self)]
    exact ih fun m' hm' => h m' (List.mem_cons_of_mem _ hm')

/-- A key that one mutation touches is written once. -/
theorem writes_of_mem {number : ℕ} {ms : List (Mutation K V)} (h : (ms.map (·.key)).Nodup) {m : Mutation K V}
    (hm : m ∈ ms) (vs : List (Version V)) : writes number m.key ms vs = write number m.values vs := by
  induction ms generalizing vs with
  | nil => cases hm
  | cons a ms ih =>
    rw [List.map_cons, List.nodup_cons] at h
    unfold writes
    rw [List.foldl_cons]
    rcases List.mem_cons.1 hm with rfl | hm
    · rw [if_pos rfl]
      exact writes_of_notMem (fun b hb heq => h.1 (List.mem_map.2 ⟨b, hb, heq⟩)) _
    · have hne : ¬a.key = m.key := fun heq => h.1 (List.mem_map.2 ⟨m, hm, heq.symm⟩)
      rw [if_neg hne]
      exact ih h.2 hm vs

theorem exists_upsert_of_writes {number : ℕ} {key : K} {ms : List (Mutation K V)} {vs : List (Version V)}
    {w : Version V} (h : w ∈ writes number key ms vs) :
    (∃ v ∈ vs, v.values = w.values) ∨ .upsert key w.values ∈ ms := by
  induction ms generalizing vs with
  | nil => exact .inl ⟨w, h, rfl⟩
  | cons m ms ih =>
    unfold writes at h
    rw [List.foldl_cons] at h
    rcases ih h with ⟨v, hv, hvalues⟩ | hin
    · split at hv
      · rename_i hkey
        rcases values_of_mem_write hv with ⟨u, hu, huv⟩ | hvalue
        · exact .inl ⟨u, hu, huv.trans hvalues⟩
        · refine .inr ?_
          cases m with
          | upsert k values =>
            cases hvalue
            subst hkey
            rw [← hvalues]
            exact List.mem_cons_self
          | delete k => cases hvalue
      · exact .inl ⟨v, hv, hvalues⟩
    · exact .inr (List.mem_cons_of_mem _ hin)

/-- Every version was written by a block. -/
theorem exists_upsert_of_history {key : K} {applied : List (AppliedBlock K V H)} {w : Version V}
    (h : w ∈ history key applied) : ∃ b ∈ applied, .upsert key w.values ∈ b.mutations := by
  induction applied using List.reverseRecOn generalizing w with
  | nil => cases h
  | append_singleton applied b ih =>
    rw [history_concat] at h
    rcases exists_upsert_of_writes h with ⟨v, hv, hvalues⟩ | hin
    · obtain ⟨b', hb', hin⟩ := ih hv
      rw [hvalues] at hin
      exact ⟨b', List.mem_append_left _ hb', hin⟩
    · exact ⟨b, by simp, hin⟩


theorem cutAt_writes {k : ℤ} {number : ℕ} (h : k < number) (key : K) (ms : List (Mutation K V))
    (vs : List (Version V)) : cutAt k (writes number key ms vs) = cutAt k vs := by
  induction ms generalizing vs with
  | nil => rfl
  | cons m ms ih =>
    unfold writes
    rw [List.foldl_cons]
    split
    · exact (ih _).trans (cutAt_write h m.values vs)
    · exact ih vs

/-- **Cutting what blocks wrote leaves what the blocks up to the cut wrote.** -/
theorem cutAt_history (k : ℤ) (key : K) {applied : List (AppliedBlock K V H)}
    (h : applied.Pairwise fun a b => a.block.number < b.block.number) :
    cutAt k (history key applied) = history key (applied.filter fun b => (b.block.number : ℤ) ≤ k) := by
  induction applied using List.reverseRecOn with
  | nil => rfl
  | append_singleton applied b ih =>
    obtain ⟨hpre, -, hlast⟩ := List.pairwise_append.1 h
    rw [List.filter_append]
    by_cases hb : (b.block.number : ℤ) ≤ k
    · have hall : applied.filter (fun b => (b.block.number : ℤ) ≤ k) = applied := by
        refine List.filter_eq_self.2 fun a ha => decide_eq_true ?_
        have hab := hlast a ha b (List.mem_singleton_self b)
        omega
      rw [hall, List.filter_cons_of_pos (by simpa using hb), List.filter_nil]
      apply cutAt_of_within
      apply within_history
      intro a ha
      rcases List.mem_append.1 ha with ha | ha
      · have hab := hlast a ha b (List.mem_singleton_self b)
        omega
      · rw [List.mem_singleton.1 ha]
        exact hb
    · rw [List.filter_cons_of_neg (by simpa using hb), List.filter_nil, List.append_nil, history_concat,
        cutAt_writes (by omega), ih hpre]

namespace MemoryStateStore

/-- **The store is made of these blocks**, in order. -/
structure Represents (s : MemoryStateStore K V H C) (applied : List (AppliedBlock K V H)) : Prop where
  wellFormed : s.WellFormed
  blocks : s.blocks = applied.map (·.block)
  distinct : applied.Pairwise fun a b => a.block.hash ≠ b.block.hash
  versions : ∀ key, versionsOf s.rows key = history key applied

theorem Represents.ascending {s : MemoryStateStore K V H C} {applied : List (AppliedBlock K V H)}
    (h : s.Represents applied) : applied.Pairwise fun a b => a.block.number < b.block.number := by
  have hblocks := h.wellFormed.ascending
  rw [h.blocks, List.pairwise_map] at hblocks
  exact hblocks

theorem Represents.tip {s : MemoryStateStore K V H C} {applied : List (AppliedBlock K V H)}
    (h : s.Represents applied) : s.tip = (applied.map (·.block.number)).max? := by
  rw [h.wellFormed.tip, h.blocks, List.map_map]
  rfl

theorem represents_new {setting : Option RetentionSetting} {finalityDepth : Option ℕ}
    {s : MemoryStateStore K V H C} (h : new setting finalityDepth = .ok s) : s.Represents [] := by
  have hwell := wellFormed_new h
  unfold new at h
  split at h
  · cases h
  · cases h
    exact ⟨hwell, rfl, List.Pairwise.nil, fun _ => rfl⟩

variable [DecidableEq H]

/-- A block above everything recorded is accepted. -/
theorem applyBlock_accepted {s : MemoryStateStore K V H C} (hs : s.WellFormed) {block : BlockPointer H}
    (habove : ∀ b ∈ s.blocks, b.number < block.number ∧ b.hash ≠ block.hash)
    (mutations : List (Mutation K V)) (cursor : Option (String × C)) :
    ∃ s', s.applyBlock block mutations cursor = .ok s' := by
  have hnumber : s.blocks.any (·.number = block.number) = false := by
    rw [List.any_eq_false]
    intro b hb
    have hlt := (habove b hb).1
    rw [decide_eq_true_eq]
    omega
  have hhash : s.blocks.find? (·.hash = block.hash) = none := by
    rw [List.find?_eq_none]
    intro b hb
    rw [decide_eq_true_eq]
    exact (habove b hb).2
  have htip : s.tip.filter (block.number ≤ ·) = none := by
    rw [Option.filter_eq_none_iff]
    intro tip htip
    rw [hs.tip, List.max?_eq_some_iff] at htip
    obtain ⟨b, hb, hbn⟩ := List.mem_map.1 htip.1
    have hlt := (habove b hb).1
    rw [decide_eq_true_eq]
    omega
  unfold applyBlock
  rw [hnumber, hhash, htip]
  exact ⟨_, rfl⟩

/-- What an applied block leaves of the store besides its rows and blocks. -/
structure AfterBlock (s s' : MemoryStateStore K V H C) (block : BlockPointer H) (cursor : Option (String × C)) : Prop where
  provided : s'.provided = s.provided
  finalityDepth : s'.finalityDepth = s.finalityDepth
  tip : s'.tip = some block.number
  cursors : s'.cursors = cursor.elim s.cursors fun p => Function.update s.cursors p.1 (some p.2)

theorem afterBlock {s s' : MemoryStateStore K V H C} {block : BlockPointer H}
    {mutations : List (Mutation K V)} {cursor : Option (String × C)}
    (h : s.applyBlock block mutations cursor = .ok s') : AfterBlock s s' block cursor := by
  unfold MemoryStateStore.applyBlock at h
  split at h
  · cases h
  split at h
  · cases h
  split at h
  · cases h
  · cases h
    exact ⟨rfl, rfl, rfl, by cases cursor <;> rfl⟩

theorem Represents.applyBlock {s s' : MemoryStateStore K V H C} {applied : List (AppliedBlock K V H)}
    (hs : s.Represents applied) {block : BlockPointer H} {mutations : List (Mutation K V)}
    {cursor : Option (String × C)} (h : s.applyBlock block mutations cursor = .ok s') :
    s'.Represents (applied ++ [⟨block, mutations⟩]) := by
  obtain ⟨habove, hblocks, -, hversions, -⟩ := applyBlock_ok hs.wellFormed h
  refine ⟨hs.wellFormed.applyBlock h, ?_, ?_, fun key => ?_⟩
  · rw [hblocks, hs.blocks, List.map_append]
    rfl
  · refine List.pairwise_append.2 ⟨hs.distinct, List.pairwise_singleton _ _, fun a ha b hb => ?_⟩
    rw [List.mem_singleton.1 hb]
    exact (habove a.block (by rw [hs.blocks]; exact List.mem_map_of_mem ha)).2
  · rw [hversions, hs.versions, history_concat]

omit [DecidableEq H] in
theorem Represents.revertTo {s : MemoryStateStore K V H C} {applied : List (AppliedBlock K V H)}
    (hs : s.Represents applied) (k : ℤ) :
    (s.revertTo k).Represents (applied.filter fun b => (b.block.number : ℤ) ≤ k) := by
  refine ⟨hs.wellFormed.revertTo k, ?_, hs.distinct.filter _, fun key => ?_⟩
  · show s.blocks.filter _ = _
    rw [hs.blocks, List.filter_map]
    rfl
  · rw [versionsOf_revertTo hs.wellFormed.nodup, hs.versions, cutAt_history k key hs.ascending]

omit [DecidableEq H] in
/-- Moving a cursor moves nothing else. -/
theorem Represents.writeCursor {s : MemoryStateStore K V H C} {applied : List (AppliedBlock K V H)}
    (hs : s.Represents applied) (key : String) (value : C) : (s.writeCursor key value).Represents applied :=
  ⟨⟨hs.wellFormed.nodup, hs.wellFormed.ascending, hs.wellFormed.tip, hs.wellFormed.chained,
    hs.wellFormed.within⟩, hs.blocks, hs.distinct, hs.versions⟩

end MemoryStateStore

end History

end Etherfold
