import Mathlib.Tactic

/-!
# Retention

How much superseded history a store keeps, as configured, and the height at or
below which a closed version may be deleted.
-/

namespace Etherfold

/-- What a deployment asks for. A window that is not a whole number of blocks, a duration
and a count of updates are refused before they become a setting. -/
inductive RetentionSetting where
  | unbounded
  | revertOnly
  | blocks (blocks : ℕ)
  deriving DecidableEq, Repr

/-- What a store provides. -/
inductive Retention where
  | unbounded
  | revertOnly
  | window (blocks : ℕ)
  deriving DecidableEq, Repr

/-- Why a setting is refused, with the numbers its message names. -/
inductive RetentionError where
  | windowWithoutDepth (blocks : ℕ)
  | windowBelowDepth (blocks finalityDepth : ℕ)
  deriving DecidableEq, Repr

def defaultRetention : Retention := .unbounded

/-- Read a setting next to the finality depth it must not go under. -/
def resolveRetention (setting : Option RetentionSetting) (finalityDepth : Option ℕ) :
    Except RetentionError Retention :=
  match setting with
  | none => .ok defaultRetention
  | some .revertOnly => .ok .revertOnly
  | some .unbounded => .ok .unbounded
  | some (.blocks blocks) =>
    match finalityDepth with
    | none => .error (.windowWithoutDepth blocks)
    | some depth => if blocks < depth then .error (.windowBelowDepth blocks depth) else .ok (.window blocks)

/-- **The height at or below which a closed version may go.** A store younger than its
retention has its floor at genesis. -/
def retentionFloor (retention : Retention) (tip : ℕ) (finalityDepth : Option ℕ) : Option ℕ :=
  match retention with
  | .unbounded => none
  | .window blocks => some (tip - blocks)
  | .revertOnly => finalityDepth.map (tip - ·)

/-- A resolved window reaches at least as far back as a reorg. -/
theorem resolveRetention_window {setting : Option RetentionSetting} {finalityDepth : Option ℕ} {n : ℕ}
    (h : resolveRetention setting finalityDepth = .ok (.window n)) :
    ∃ depth, finalityDepth = some depth ∧ depth ≤ n := by
  unfold resolveRetention at h
  split at h
  · cases h
  · cases h
  · cases h
  · split at h
    · cases h
    · rename_i depth
      split at h
      · cases h
      · rename_i hle
        cases h
        exact ⟨depth, rfl, not_lt.1 hle⟩

/-- **The floor of a resolved retention is never above the last block a reorg can reach.** -/
theorem retentionFloor_le {setting : Option RetentionSetting} {depth tip floor : ℕ} {retention : Retention}
    (h : resolveRetention setting (some depth) = .ok retention)
    (hfloor : retentionFloor retention tip (some depth) = some floor) : floor ≤ tip - depth := by
  unfold retentionFloor at hfloor
  split at hfloor
  · cases hfloor
  · cases hfloor
    obtain ⟨d, hd, hle⟩ := resolveRetention_window h
    cases hd
    omega
  · cases hfloor
    exact le_rfl

end Etherfold
