import Mathlib.Data.Nat.Size
import Mathlib.Algebra.Ring.Parity
import Mathlib.Data.Nat.Prime.Basic
import Mathlib.Tactic.Common
import Mathlib.Tactic.Ring

/-!
# Natural numbers as doubles

A double holds 53 significant bits. `nearest n` is the double a natural number is rounded to, ties
to even; from the middle between the largest double and `2 ^ 1024` on it is the infinite one, for
which `2 ^ 1024` stands.
-/

namespace GatoCore.Lib.Binary64

/-- What stands for the infinite double. -/
def infinity : ℕ := 2 ^ 1024

/-- The exponent of the unit in the last place of a number that takes `n.size` bits. -/
def ulpExponent (n : ℕ) : ℕ := n.size - 53

/-- `n` rounded to a multiple of `2 ^ e`, ties to even. -/
def roundAt (e n : ℕ) : ℕ :=
  let down := n / 2 ^ e
  let rest := n % 2 ^ e
  if 2 ^ e < 2 * rest ∨ (2 * rest = 2 ^ e ∧ down % 2 = 1) then (down + 1) * 2 ^ e else down * 2 ^ e

def nearest (n : ℕ) : ℕ := min (roundAt (ulpExponent n) n) infinity

/-! ## Rounding to one exponent -/

theorem roundAt_eq (e n : ℕ) : roundAt e n =
    if 2 ^ e < 2 * (n % 2 ^ e) ∨ (2 * (n % 2 ^ e) = 2 ^ e ∧ n / 2 ^ e % 2 = 1)
    then (n / 2 ^ e + 1) * 2 ^ e else n / 2 ^ e * 2 ^ e := rfl

theorem dvd_roundAt (e n : ℕ) : 2 ^ e ∣ roundAt e n := by
  rw [roundAt_eq]
  split <;> exact Nat.dvd_mul_left _ _

theorem roundAt_of_dvd {e n : ℕ} (h : 2 ^ e ∣ n) : roundAt e n = n := by
  have hpos : 0 < 2 ^ e := Nat.two_pow_pos e
  rw [roundAt_eq, Nat.mod_eq_zero_of_dvd h, if_neg (by omega), Nat.div_mul_cancel h]

theorem roundAt_le (e n : ℕ) : roundAt e n ≤ (n / 2 ^ e + 1) * 2 ^ e := by
  rw [roundAt_eq]
  split
  · exact Nat.le_refl _
  · exact Nat.mul_le_mul_right _ (Nat.le_succ _)

theorem le_roundAt (e n : ℕ) : n / 2 ^ e * 2 ^ e ≤ roundAt e n := by
  rw [roundAt_eq]
  split
  · exact Nat.mul_le_mul_right _ (Nat.le_succ _)
  · exact Nat.le_refl _

theorem roundAt_mono {e m n : ℕ} (h : m ≤ n) : roundAt e m ≤ roundAt e n := by
  rcases Nat.lt_or_eq_of_le (Nat.div_le_div_right (c := 2 ^ e) h) with hlt | heq
  · exact (roundAt_le e m).trans ((Nat.mul_le_mul_right _ hlt).trans (le_roundAt e n))
  · -- in one cell, what is rounded up stays rounded up
    have hmod : m % 2 ^ e ≤ n % 2 ^ e := by
      have hm := Nat.div_add_mod m (2 ^ e)
      have hn := Nat.div_add_mod n (2 ^ e)
      rw [heq] at hm
      omega
    rw [roundAt_eq, roundAt_eq, heq]
    split
    · rw [if_pos (by omega)]
    · split
      · exact Nat.mul_le_mul_right _ (Nat.le_succ _)
      · exact Nat.le_refl _

/-- A number that is rounded up goes up by half a cell at most. -/
theorem roundAt_up {e n : ℕ} (h : n < roundAt e n) : 2 * (roundAt e n - n) ≤ 2 ^ e := by
  have hn := Nat.div_add_mod n (2 ^ e)
  have hmul : (n / 2 ^ e + 1) * 2 ^ e = 2 ^ e * (n / 2 ^ e) + 2 ^ e := by
    rw [Nat.add_mul, Nat.mul_comm, Nat.one_mul]
  rw [roundAt_eq] at h ⊢
  split
  · rw [hmul]
    omega
  · rename_i hdown
    rw [if_neg hdown, Nat.mul_comm] at h
    omega

/-! ## The nearest double -/

theorem pow_ulp_dvd {n s : ℕ} (h : n.size ≤ s) (hs : 0 < s) : 2 ^ ulpExponent n ∣ 2 ^ s := by
  refine Nat.pow_dvd_pow 2 ?_
  rw [ulpExponent]
  omega

theorem pow_le_of_size {n s : ℕ} (h : n.size = s + 1) : 2 ^ s ≤ n := by
  by_contra hlt
  have hle := Nat.size_le.mpr (Nat.lt_of_not_le hlt)
  omega

/-- The rounded number has as many bits, or is the next power of two. -/
theorem roundAt_le_pow (n : ℕ) : roundAt (ulpExponent n) n ≤ 2 ^ n.size := by
  have hle := roundAt_mono (e := ulpExponent n) (Nat.lt_size_self n).le
  rcases Nat.eq_zero_or_pos n.size with hzero | hpos
  · obtain rfl := Nat.size_eq_zero.mp hzero
    decide
  · rwa [roundAt_of_dvd (pow_ulp_dvd (Nat.le_refl _) hpos)] at hle

theorem nearest_mono {m n : ℕ} (h : m ≤ n) : nearest m ≤ nearest n := by
  refine min_le_min_right _ ?_
  rcases Nat.lt_or_eq_of_le (Nat.size_le_size h) with hlt | heq
  · -- a power of two stands between them
    obtain ⟨s, hs⟩ := Nat.exists_eq_add_one_of_ne_zero (Nat.ne_of_gt (Nat.zero_lt_of_lt hlt))
    have hpow := roundAt_mono (e := ulpExponent n) (pow_le_of_size hs)
    have hdvd : 2 ^ ulpExponent n ∣ 2 ^ s := by
      refine Nat.pow_dvd_pow 2 ?_
      rw [ulpExponent]
      omega
    rw [roundAt_of_dvd hdvd] at hpow
    exact (roundAt_le_pow m).trans ((Nat.pow_le_pow_right (by decide) (by omega)).trans hpow)
  · rw [ulpExponent, heq]
    exact roundAt_mono h

theorem infinity_eq_pow : ∃ s, s = 1024 ∧ infinity = 2 ^ s := ⟨_, rfl, rfl⟩

theorem nearest_of_dvd {n : ℕ} (h : 2 ^ ulpExponent n ∣ n) (hn : n ≤ infinity) : nearest n = n := by
  rw [nearest, roundAt_of_dvd h, min_eq_left hn]

theorem dvd_pow_two (s : ℕ) : 2 ^ ulpExponent (2 ^ s) ∣ 2 ^ s := by
  rw [ulpExponent, Nat.size_pow]
  exact Nat.pow_dvd_pow 2 (by omega)

theorem dvd_nearest (n : ℕ) : 2 ^ ulpExponent (nearest n) ∣ nearest n := by
  rcases Nat.le_total (roundAt (ulpExponent n) n) infinity with hle | hle
  · rw [nearest, min_eq_left hle]
    rcases Nat.lt_or_eq_of_le (roundAt_le_pow n) with hlt | heq
    · refine (Nat.pow_dvd_pow 2 ?_).trans (dvd_roundAt (ulpExponent n) n)
      exact Nat.sub_le_sub_right (Nat.size_le.mpr hlt) 53
    · rw [heq]
      exact dvd_pow_two _
  · obtain ⟨s, -, hinf⟩ := infinity_eq_pow
    rw [nearest, min_eq_right hle, hinf]
    exact dvd_pow_two s

/-- A double is the double nearest to it. -/
theorem nearest_nearest (n : ℕ) : nearest (nearest n) = nearest n :=
  nearest_of_dvd (dvd_nearest n) (min_le_right _ _)

/-- Natural numbers of at most 53 bits are doubles. -/
theorem nearest_of_lt {n : ℕ} (h : n < 2 ^ 53) : nearest n = n := by
  have hsize := Nat.size_le.mpr h
  have hzero : ulpExponent n = 0 := Nat.sub_eq_zero_of_le hsize
  refine nearest_of_dvd ?_ (h.le.trans ?_)
  · rw [hzero]
    exact Nat.one_dvd n
  · obtain ⟨s, hs, hinf⟩ := infinity_eq_pow
    rw [hinf]
    exact Nat.pow_le_pow_right (by decide) (by omega)

/-- Rounding does not move a number across a bound of 53 bits. -/
theorem nearest_le_iff {n c : ℕ} (hc : c + 1 < 2 ^ 53) : nearest n ≤ c ↔ n ≤ c := by
  constructor
  · intro h
    by_contra hn
    have hmono : nearest (c + 1) ≤ nearest n := nearest_mono (by omega)
    rw [nearest_of_lt hc] at hmono
    omega
  · intro h
    rwa [nearest_of_lt (by omega)]

/-- What lies between two numbers with one nearest double has the same nearest double. -/
theorem nearest_between {a b c d : ℕ} (ha : nearest a = d) (hc : nearest c = d) (hab : a ≤ b)
    (hbc : b ≤ c) : nearest b = d :=
  le_antisymm ((nearest_mono hbc).trans_eq hc) (ha.symm.trans_le (nearest_mono hab))

/-- The half-way point of two consecutive multiples of a power of ten is not the double of the
lower one: it would have too few factors of two. -/
theorem nearest_ne_midpoint {a m d : ℕ} (hmid : 2 * d = (2 * a + 1) * 10 ^ m)
    (hinf : d < infinity) : nearest (a * 10 ^ m) ≠ d := by
  intro hnear
  have hlt : a * 10 ^ m < d := by
    have hpos : 0 < 10 ^ m := Nat.pow_pos (by decide)
    have hexp : (2 * a + 1) * 10 ^ m = 2 * (a * 10 ^ m) + 10 ^ m := by ring
    omega
  rw [nearest, min_def] at hnear
  split at hnear
  · set e := ulpExponent (a * 10 ^ m)
    have hup := roundAt_up (hnear.symm ▸ hlt)
    rw [hnear] at hup
    have hgap : 2 * (d - a * 10 ^ m) = 10 ^ m := by
      have hexp : (2 * a + 1) * 10 ^ m = 2 * (a * 10 ^ m) + 10 ^ m := by ring
      omega
    rw [hgap] at hup
    have hdvd : 2 ^ (e + 1) ∣ (2 * a + 1) * 10 ^ m := by
      rw [← hmid, Nat.pow_succ, Nat.mul_comm]
      exact Nat.mul_dvd_mul_left 2 (hnear ▸ dvd_roundAt e _)
    have hodd : Nat.Coprime (2 ^ (e + 1)) ((2 * a + 1) * 5 ^ m) := by
      refine Nat.Coprime.pow_left _ (Nat.coprime_two_left.mpr ?_)
      exact Odd.mul ⟨a, rfl⟩ (Odd.pow (by decide))
    have hsplit : (2 * a + 1) * 10 ^ m = (2 * a + 1) * 5 ^ m * 2 ^ m := by
      rw [Nat.mul_assoc, ← Nat.mul_pow]
    rw [hsplit] at hdvd
    have hle := (Nat.pow_dvd_pow_iff_le_right (by decide)).mp (hodd.dvd_of_dvd_mul_left hdvd)
    have hten : (2 : ℕ) ^ (e + 1) ≤ 10 ^ m :=
      (Nat.pow_le_pow_right (by decide) hle).trans (Nat.pow_le_pow_left (by decide) m)
    have hpow : (2 : ℕ) ^ e < 2 ^ (e + 1) := Nat.pow_lt_pow_right (by decide) (Nat.lt_succ_self e)
    omega
  · omega

example : nearest 9007199254740993 = 9007199254740992 := by decide +kernel

end GatoCore.Lib.Binary64
