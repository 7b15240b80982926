import Mathlib.Analysis.SpecialFunctions.Complex.Arg
import Mathlib.Analysis.Real.Sqrt
import GatoCore.Doom.World

/-!
# `Math` over the reals

The functions of `Math` that the demo calls, as the real functions they stand for.
-/

namespace GatoCore.Doom

noncomputable def realMath : JsMath ℝ where
  PI := Real.pi
  cos := Real.cos
  sin := Real.sin
  atan2 y x := Complex.arg ⟨x, y⟩
  sqrt := Real.sqrt
  pi_pos := Real.pi_pos

theorem realMath_exactSqrt : realMath.ExactSqrt :=
  ⟨Real.sqrt_nonneg, fun _ hx => Real.mul_self_sqrt hx⟩

end GatoCore.Doom
