import Mathlib.Data.List.Destutter

/-!
# Messages that arrive more than once

A receiver that a message leaves as it is when it arrives a second time in a row need not count
deliveries: any run of copies is one delivery.

* `foldl_destutter`: **what a sequence of deliveries leaves, each counted once**.
-/

namespace Redelivery

variable {σ M : Type*} [DecidableEq M] {step : σ → M → σ}

/-- Messages the receiver does not mind to see again at once. -/
def Settles (step : σ → M → σ) (messages : List M) : Prop :=
  ∀ m ∈ messages, ∀ s, step (step s m) m = step s m

theorem foldl_destutter' {m : M} {messages : List M} (h : Settles step (m :: messages)) (s : σ) :
    (List.destutter' (· ≠ ·) m messages).foldl step s = (m :: messages).foldl step s := by
  induction messages generalizing m s with
  | nil => rfl
  | cons next messages ih =>
    obtain ⟨hm, hrest⟩ := List.forall_mem_cons.1 h
    obtain ⟨-, htail⟩ := List.forall_mem_cons.1 hrest
    rw [List.destutter'_cons]
    split
    · rw [List.foldl_cons, ih hrest]
      rfl
    · -- the copy changes nothing
      rename_i hsame
      rw [ih (List.forall_mem_cons.2 ⟨hm, htail⟩), ← not_ne_iff.1 hsame, List.foldl_cons, List.foldl_cons,
        List.foldl_cons, hm]

/-- **Copies in a row are one delivery.** -/
theorem foldl_destutter {messages : List M} (h : Settles step messages) (s : σ) :
    (messages.destutter (· ≠ ·)).foldl step s = messages.foldl step s := by
  cases messages with
  | nil => rfl
  | cons m messages => exact foldl_destutter' h s

end Redelivery
