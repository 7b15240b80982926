import GatoCore.Stdlib.Numbers
import Mathlib.Algebra.Order.Field.Power
import Mathlib.Algebra.Order.Floor.Semiring
import Mathlib.Data.Rat.Floor
import Mathlib.Tactic.GCongr
import Mathlib.Tactic.NormNum
import Mathlib.Tactic.Positivity

/-!
# Arithmetic of doubles

The operations of JavaScript on numbers by their values, over what is known of the rounding: it
stays between the numbers of the format that the exact result is between.
-/

namespace GatoCore.Stdlib

/-- The numbers `m * 2 ^ e` of a format that are not negative. -/
def Format (bits : ℕ) (least greatest : ℤ) (q : ℚ) : Prop :=
  ∃ (m : ℕ) (e : ℤ), m ≤ 2 ^ bits ∧ least ≤ e ∧ e ≤ greatest ∧ q = m * 2 ^ e

def DoubleFormat : ℚ → Prop := Format 53 (-1074) 970

def SingleFormat : ℚ → Prop := Format 24 (-149) 103

/-- A function that stays between the numbers of a format. -/
def RoundsIn (format : ℚ → Prop) (exact : ℚ → ℚ) (round : ℚ → JsNumber) : Prop :=
  ∀ q a b, format a → format b → exact a ≤ q → q ≤ exact b → ∃ r, round q = .finite r ∧
    a ≤ r ∧ r ≤ b

/-- The rounding of the engine: to a double, to an element of a `Float32Array`, and of the square
root of a number that is not negative. -/
structure Rounding where
  double : ℚ → JsNumber
  single : ℚ → JsNumber
  sqrt : ℚ → JsNumber
  double_rounds : RoundsIn DoubleFormat id double
  single_rounds : RoundsIn SingleFormat id single
  sqrt_rounds : RoundsIn DoubleFormat (fun a => a * a) sqrt

namespace JsNumber

variable (r : Rounding)

/-- `a + b` -/
def add : JsNumber → JsNumber → JsNumber
  | nan, _ | _, nan => nan
  | infinity s, infinity t => if s = t then infinity s else nan
  | infinity s, finite _ | finite _, infinity s => infinity s
  | finite a, finite b => r.double (a + b)

/-- `a * b` -/
def mul : JsNumber → JsNumber → JsNumber
  | nan, _ | _, nan => nan
  | infinity s, infinity t => infinity (s ^^ t)
  | infinity s, finite q | finite q, infinity s => if q = 0 then nan else infinity (s ^^ q < 0)
  | finite a, finite b => r.double (a * b)

/-- `a / b`, for a `b` other than `-0` -/
def div : JsNumber → JsNumber → JsNumber
  | nan, _ | _, nan => nan
  | infinity _, infinity _ => nan
  | infinity s, finite q => infinity (s ^^ q < 0)
  | finite _, infinity _ => finite 0
  | finite a, finite b =>
      if b = 0 then (if a = 0 then nan else infinity (a < 0)) else r.double (a / b)

/-- `Math.sqrt(a)` -/
def sqrt : JsNumber → JsNumber
  | nan => nan
  | infinity negative => if negative then nan else infinity false
  | finite q => if q < 0 then nan else r.sqrt q

/-- An element of a `Float32Array` after a number was stored in it. -/
def toSingle : JsNumber → JsNumber
  | finite q => r.single q
  | n => n

/-- `Number(a.toFixed(6))` -/
def toFixed6 : JsNumber → JsNumber
  | finite q =>
      if 10 ^ 21 ≤ |q| then finite q
      else
        let digits : ℚ := ⌊|q| * 10 ^ 6 + 1 / 2⌋
        r.double ((if q < 0 then -digits else digits) / 10 ^ 6)
  | n => n

end JsNumber

/-! ## Bounds -/

/-- A finite number between two bounds. -/
def Between (low high : ℚ) (n : JsNumber) : Prop := ∃ q, n = .finite q ∧ low ≤ q ∧ q ≤ high

/-- A number that is zero or between two bounds. -/
def Graded (low high : ℚ) (n : JsNumber) : Prop := n = .finite 0 ∨ Between low high n

section Bounds

variable {r : Rounding} {a b c d : ℚ} {x y : JsNumber}

theorem doubleFormat_zero : DoubleFormat 0 := ⟨0, 0, by norm_num, by norm_num, by norm_num, by simp⟩

theorem doubleFormat_mul {m : ℕ} {e : ℤ} (hm : m ≤ 2 ^ 53) (hlow : -1074 ≤ e) (hhigh : e ≤ 970) :
    DoubleFormat (m * 2 ^ e) := ⟨m, e, hm, hlow, hhigh, rfl⟩

theorem doubleFormat_pow {e : ℤ} (hlow : -1074 ≤ e) (hhigh : e ≤ 970) : DoubleFormat (2 ^ e) :=
  ⟨1, e, by norm_num, hlow, hhigh, by simp⟩

theorem Rounding.double_zero : r.double 0 = .finite 0 := by
  obtain ⟨q, hq, hlow, hhigh⟩ :=
    r.double_rounds 0 0 0 doubleFormat_zero doubleFormat_zero (le_refl _) (le_refl _)
  rw [hq, le_antisymm hhigh hlow]

theorem Rounding.sqrt_zero : r.sqrt 0 = .finite 0 := by
  obtain ⟨q, hq, hlow, hhigh⟩ :=
    r.sqrt_rounds 0 0 0 doubleFormat_zero doubleFormat_zero (by norm_num) (by norm_num)
  rw [hq, le_antisymm hhigh hlow]

theorem Graded.between (h : Graded a b x) (hne : x ≠ .finite 0) : Between a b x :=
  h.resolve_left hne

theorem Graded.mono (h : Graded a b x) (hlow : c ≤ a) (hhigh : b ≤ d) : Graded c d x := by
  rcases h with hzero | ⟨q, hq, hqa, hqb⟩
  · exact .inl hzero
  · exact .inr ⟨q, hq, hlow.trans hqa, hqb.trans hhigh⟩

/-- A sum of numbers of one lower bound. -/
theorem Graded.add (hx : Graded a b x) (hy : Graded a c y) (ha : 0 ≤ a) (hb : 0 ≤ b) (hc : 0 ≤ c)
    (hlow : DoubleFormat a) (hhigh : DoubleFormat (b + c)) : Graded a (b + c) (x.add r y) := by
  rcases hx with rfl | ⟨p, rfl, hp, hp'⟩
  · rcases hy with rfl | ⟨q, rfl, hq, hq'⟩
    · rw [JsNumber.add, add_zero, Rounding.double_zero]
      exact .inl rfl
    · rw [JsNumber.add, zero_add]
      exact .inr (r.double_rounds q _ _ hlow hhigh hq (hq'.trans (le_add_of_nonneg_left hb)))
  · rcases hy with rfl | ⟨q, rfl, hq, hq'⟩
    · rw [JsNumber.add, add_zero]
      exact .inr (r.double_rounds p _ _ hlow hhigh hp (hp'.trans (le_add_of_nonneg_right hc)))
    · exact .inr (r.double_rounds (p + q) _ _ hlow hhigh
        (hp.trans (le_add_of_nonneg_right (ha.trans hq))) (add_le_add hp' hq'))

theorem Between.mul (hx : Between a b x) (hy : Between c d y) (ha : 0 ≤ a) (hc : 0 ≤ c)
    (hlow : DoubleFormat (a * c)) (hhigh : DoubleFormat (b * d)) :
    Between (a * c) (b * d) (x.mul r y) := by
  obtain ⟨p, rfl, hp, hp'⟩ := hx
  obtain ⟨q, rfl, hq, hq'⟩ := hy
  exact r.double_rounds (p * q) _ _ hlow hhigh (mul_le_mul hp hq hc (ha.trans hp))
    (mul_le_mul hp' hq' (hc.trans hq) ((ha.trans hp).trans hp'))

theorem Between.div (hx : Between a b x) (hy : Between c d y) (ha : 0 ≤ a) (hc : 0 < c)
    (hlow : DoubleFormat (a / d)) (hhigh : DoubleFormat (b / c)) :
    Between (a / d) (b / c) (x.div r y) := by
  obtain ⟨p, rfl, hp, hp'⟩ := hx
  obtain ⟨q, rfl, hq, hq'⟩ := hy
  have hpos : 0 < q := hc.trans_le hq
  rw [JsNumber.div, if_neg hpos.ne']
  exact r.double_rounds (p / q) _ _ hlow hhigh (div_le_div₀ (ha.trans hp) hp hpos hq')
    (div_le_div₀ ((ha.trans hp).trans hp') hp' hc hq)

theorem Between.sqrt (hx : Between (a * a) (b * b) x) (hlow : DoubleFormat a)
    (hhigh : DoubleFormat b) : Between a b (x.sqrt r) := by
  obtain ⟨q, rfl, hq, hq'⟩ := hx
  rw [JsNumber.sqrt, if_neg (not_lt.mpr ((mul_self_nonneg a).trans hq))]
  exact r.sqrt_rounds q a b hlow hhigh hq hq'

theorem sqrt_zero : (JsNumber.finite 0).sqrt r = .finite 0 := by
  rw [JsNumber.sqrt, if_neg (lt_irrefl 0), Rounding.sqrt_zero]

theorem zero_mul_of_graded (hx : Graded a b x) : (JsNumber.finite 0).mul r x = .finite 0 := by
  rcases hx with rfl | ⟨q, rfl, -, -⟩ <;> rw [JsNumber.mul, zero_mul, Rounding.double_zero]

theorem mul_zero_of_graded (hx : Graded a b x) : x.mul r (.finite 0) = .finite 0 := by
  rcases hx with rfl | ⟨q, rfl, -, -⟩ <;> rw [JsNumber.mul, mul_zero, Rounding.double_zero]

theorem zero_div_of_between (hx : Between a b x) (ha : 0 < a) :
    (JsNumber.finite 0).div r x = .finite 0 := by
  obtain ⟨q, rfl, hq, -⟩ := hx
  rw [JsNumber.div, if_neg (ha.trans_le hq).ne', zero_div, Rounding.double_zero]

/-! ### Powers of two -/

variable {e f g h : ℤ}

theorem Between.mul_pow (hx : Between (2 ^ e) (2 ^ f) x) (hy : Between (2 ^ g) (2 ^ h) y)
    (hlow : -1074 ≤ e + g) (hle : e + g ≤ f + h) (hhigh : f + h ≤ 970) :
    Between (2 ^ (e + g)) (2 ^ (f + h)) (x.mul r y) := by
  have hlowFormat := doubleFormat_pow hlow (hle.trans hhigh)
  have hhighFormat := doubleFormat_pow (hlow.trans hle) hhigh
  rw [zpow_add₀ two_ne_zero] at hlowFormat hhighFormat
  rw [zpow_add₀ two_ne_zero, zpow_add₀ two_ne_zero]
  exact hx.mul hy (by positivity) (by positivity) hlowFormat hhighFormat

theorem Graded.mul_pow (hx : Graded (2 ^ e) (2 ^ f) x) (hy : Graded (2 ^ g) (2 ^ h) y)
    (hlow : -1074 ≤ e + g) (hle : e + g ≤ f + h) (hhigh : f + h ≤ 970) :
    Graded (2 ^ (e + g)) (2 ^ (f + h)) (x.mul r y) := by
  rcases hx with rfl | hx
  · exact .inl (zero_mul_of_graded hy)
  · rcases hy with rfl | hy
    · exact .inl (mul_zero_of_graded (.inr hx))
    · exact .inr (hx.mul_pow hy hlow hle hhigh)

theorem Graded.div_pow (hx : Graded (2 ^ e) (2 ^ f) x) (hy : Between (2 ^ g) (2 ^ h) y)
    (hlow : -1074 ≤ e - h) (hle : e - h ≤ f - g) (hhigh : f - g ≤ 970) :
    Graded (2 ^ (e - h)) (2 ^ (f - g)) (x.div r y) := by
  have hlowFormat := doubleFormat_pow hlow (hle.trans hhigh)
  have hhighFormat := doubleFormat_pow (hlow.trans hle) hhigh
  rw [zpow_sub₀ two_ne_zero] at hlowFormat hhighFormat
  rw [zpow_sub₀ two_ne_zero, zpow_sub₀ two_ne_zero]
  rcases hx with rfl | hx
  · exact .inl (zero_div_of_between hy (by positivity))
  · exact .inr (hx.div hy (by positivity) (by positivity) hlowFormat hhighFormat)

theorem Between.sqrt_pow (hx : Between (2 ^ g) (2 ^ h) x) (hg : g = e + e) (hh : h = f + f)
    (hlow : -1074 ≤ e) (hle : e ≤ f) (hhigh : f ≤ 970) : Between (2 ^ e) (2 ^ f) (x.sqrt r) := by
  rw [hg, hh, zpow_add₀ two_ne_zero, zpow_add₀ two_ne_zero] at hx
  exact hx.sqrt (doubleFormat_pow hlow (hle.trans hhigh)) (doubleFormat_pow (hlow.trans hle) hhigh)

theorem Graded.sqrt_pow (hx : Graded (2 ^ g) (2 ^ h) x) (hg : g = e + e) (hh : h = f + f)
    (hlow : -1074 ≤ e) (hle : e ≤ f) (hhigh : f ≤ 970) : Graded (2 ^ e) (2 ^ f) (x.sqrt r) := by
  rcases hx with rfl | hx
  · exact .inl sqrt_zero
  · exact .inr (hx.sqrt_pow hg hh hlow hle hhigh)

/-- One more term of a sum. -/
theorem Graded.add_term {n : ℕ} (hx : Graded (2 ^ e) (n * 2 ^ f) x)
    (hy : Graded (2 ^ e) (2 ^ f) y) (hn : n + 1 ≤ 2 ^ 53) (hlow : -1074 ≤ e) (hle : e ≤ f)
    (hhigh : f ≤ 970) : Graded (2 ^ e) ((n + 1 : ℕ) * 2 ^ f) (x.add r y) := by
  have hsum : ((n + 1 : ℕ) : ℚ) * 2 ^ f = n * 2 ^ f + 2 ^ f := by
    push_cast
    ring
  rw [hsum]
  refine hx.add hy (by positivity) (by positivity) (by positivity)
    (doubleFormat_pow hlow (hle.trans hhigh)) ?_
  rw [← hsum]
  exact doubleFormat_mul hn (hlow.trans hle) hhigh

/-- The terms of a sum that has fewer than `2 ^ k` of them. -/
theorem Graded.le_pow {n k : ℕ} (hx : Graded (2 ^ e) (n * 2 ^ f) x) (hn : n ≤ 2 ^ k) :
    Graded (2 ^ e) (2 ^ (k + f)) x := by
  refine hx.mono (le_refl _) ?_
  rw [zpow_add₀ two_ne_zero, zpow_natCast]
  gcongr
  exact_mod_cast hn

theorem Graded.single_pow (hx : Graded (2 ^ e) (2 ^ f) x) (hlow : -149 ≤ e) (hle : e ≤ f)
    (hhigh : f ≤ 103) : Graded (2 ^ e) (2 ^ f) (x.toSingle r) := by
  have hformat : ∀ k : ℤ, -149 ≤ k → k ≤ 103 → SingleFormat (2 ^ k) := fun k hk hk' =>
    ⟨1, k, by norm_num, hk, hk', by simp⟩
  rcases hx with rfl | ⟨q, rfl, hq, hq'⟩
  · have hzero : SingleFormat 0 := ⟨0, 0, by norm_num, by norm_num, by norm_num, by simp⟩
    obtain ⟨s, hs, hslow, hshigh⟩ :=
      r.single_rounds 0 0 0 hzero hzero (le_refl _) (le_refl _)
    rw [JsNumber.toSingle, hs, le_antisymm hshigh hslow]
    exact .inl rfl
  · exact .inr (r.single_rounds q _ _ (hformat e hlow (hle.trans hhigh))
      (hformat f (hlow.trans hle) hhigh) hq hq')

/-- `toFixed` of a finite number that is not negative is finite. -/
theorem toFixed6_finite {q : ℚ} (hq : 0 ≤ q) : ∃ s, (JsNumber.finite q).toFixed6 r = .finite s := by
  rw [JsNumber.toFixed6, abs_of_nonneg hq]
  split
  · exact ⟨q, rfl⟩
  · rename_i hlt
    simp only [if_neg (not_lt.mpr hq)]
    have hfloor : (0 : ℚ) ≤ ⌊q * 10 ^ 6 + 1 / 2⌋ := by
      exact_mod_cast Int.floor_nonneg.mpr (by positivity)
    have hle := Int.floor_le (q * 10 ^ 6 + 1 / 2)
    have hhigh : (⌊q * 10 ^ 6 + 1 / 2⌋ : ℚ) / 10 ^ 6 ≤ 2 ^ (70 : ℤ) := by
      rw [div_le_iff₀ (by norm_num)]
      norm_num at hlt hle ⊢
      linarith
    obtain ⟨s, hs, -⟩ := r.double_rounds _ 0 (2 ^ (70 : ℤ)) doubleFormat_zero
      (doubleFormat_pow (by norm_num) (by norm_num)) (div_nonneg hfloor (by positivity)) hhigh
    exact ⟨s, hs⟩

end Bounds

end GatoCore.Stdlib
