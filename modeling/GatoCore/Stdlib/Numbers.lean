import Mathlib.Data.Int.Notation
import Mathlib.Algebra.Order.Ring.Unbundled.Rat

/-!
# Numbers

Source: `intOr` of `stdlib/ptstdlib.js`.

A number of JavaScript by its value. `-0` is `0`.
-/

namespace GatoCore.Stdlib

inductive JsNumber where
  | nan
  | infinity (negative : Bool)
  | finite (q : ℚ)
  deriving DecidableEq

namespace JsNumber

def isFinite : JsNumber → Bool
  | finite _ => true
  | _ => false

/-- `a > b`, for a number `b` that is finite. -/
def gt : JsNumber → ℚ → Bool
  | nan, _ => false
  | infinity negative, _ => !negative
  | finite q, b => b < q

/-- `a <= b`, for a number `b` that is finite. -/
def le : JsNumber → ℚ → Bool
  | nan, _ => false
  | infinity negative, _ => negative
  | finite q, b => q ≤ b

/-- `a < b`, for a number `b` that is finite. -/
def lt : JsNumber → ℚ → Bool
  | nan, _ => false
  | infinity negative, _ => negative
  | finite q, b => q < b

theorem not_lt_or_not_gt (n : JsNumber) : (!n.lt 0 || !n.gt 0) = true := by
  cases n with
  | nan => rfl
  | infinity negative => cases negative <;> rfl
  | finite q => simpa [lt, gt] using le_total 0 q

/-- `a === b`. -/
def strictEq (a b : JsNumber) : Bool := a ≠ nan && a = b

/-- `a - b` without its rounding, which does not change its sign. -/
def sub : JsNumber → JsNumber → JsNumber
  | nan, _ | _, nan => nan
  | infinity s, infinity t => if s = t then nan else infinity s
  | infinity s, finite _ => infinity s
  | finite _, infinity t => infinity (!t)
  | finite a, finite b => finite (a - b)

/-- `!a` -/
def isFalsy (n : JsNumber) : Bool := n = nan || n = finite 0

/-- `n || fallback` -/
def orElse (n : JsNumber) (fallback : ℕ) : JsNumber := if n.isFalsy then finite fallback else n

end JsNumber

def intOr (n : JsNumber) (fallback : ℕ) : ℕ :=
  match n with
  | .finite q => q.floor.toNat
  | _ => fallback

end GatoCore.Stdlib
