import Mathlib.Data.Int.Notation
import Mathlib.Data.Nat.Notation
import Mathlib.Tactic.Common

/-!
# Helpers of the editor

Source: `gatod.util.clamp` of `samples/gatod_engine/src/bootstrap/core.ptjs`, for indices.
-/

namespace GatoCore.Gatod

/-- `clamp(n, 0, max)`. -/
def clampIndex (n : ℤ) (max : ℕ) : ℕ := (Min.min (max : ℤ) n).toNat

end GatoCore.Gatod
