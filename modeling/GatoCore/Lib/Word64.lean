import Mathlib.Algebra.Ring.Nat
import Mathlib.Algebra.Ring.Int.Defs
import Mathlib.Data.Int.Notation
import Mathlib.Tactic.Common

/-!
# Words, flags and division of an x86-64 machine

The flags `cmp` leaves and the conditions that read them, a write to the low byte of a register,
and the signed division of a double word.
-/

namespace GatoCore.Lib

/-! ## Comparison -/

/-- The flags a comparison sets. -/
structure Flags where
  zero : Bool
  sign : Bool
  overflow : Bool
deriving DecidableEq

/-- The conditions of the signed comparisons. -/
inductive Cond where
  | e
  | ne
  | l
  | le
  | g
  | ge
deriving DecidableEq, Repr

/-- The flags `cmp a, b` sets. -/
def cmpFlags (a b : BitVec 64) : Flags :=
  { zero := a - b = 0
    sign := (a - b).msb
    overflow := a.msb ≠ b.msb ∧ (a - b).msb ≠ a.msb }

def Cond.holds (f : Flags) : Cond → Bool
  | .e => f.zero
  | .ne => !f.zero
  | .l => f.sign ≠ f.overflow
  | .le => f.zero || f.sign ≠ f.overflow
  | .g => !f.zero && f.sign = f.overflow
  | .ge => f.sign = f.overflow

theorem cmpFlags_zero (a b : BitVec 64) : (cmpFlags a b).zero = decide (a = b) := by
  simp [cmpFlags, BitVec.sub_eq_iff_eq_add]

/-- The sign and the overflow flag differ when the first operand is the smaller one. -/
theorem cmpFlags_less (a b : BitVec 64) :
    ((cmpFlags a b).sign ≠ (cmpFlags a b).overflow) ↔ a.toInt < b.toInt := by
  have ha : a.toInt < 2 ^ 63 := a.toInt_lt
  have ha' : -2 ^ 63 ≤ a.toInt := a.le_toInt
  have hb : b.toInt < 2 ^ 63 := b.toInt_lt
  have hb' : -2 ^ 63 ≤ b.toInt := b.le_toInt
  have hsub : (a - b).toInt = (a.toInt - b.toInt).bmod (2 ^ 64) := BitVec.toInt_sub
  rw [Int.bmod_eq_emod] at hsub
  simp only [cmpFlags, BitVec.msb_eq_toInt]
  generalize (a - b).toInt = d at hsub ⊢
  -- the difference wraps around exactly when it leaves the range of a word
  by_cases hza : a.toInt < 0 <;> by_cases hzb : b.toInt < 0 <;> by_cases hzd : d < 0 <;>
    simp [hza, hzb, hzd] <;> split at hsub <;> omega

theorem Cond.holds_l (a b : BitVec 64) : Cond.l.holds (cmpFlags a b) = a.slt b := by
  rw [BitVec.slt_eq_decide]
  exact decide_eq_decide.mpr (cmpFlags_less a b)

theorem Cond.holds_ge (a b : BitVec 64) : Cond.ge.holds (cmpFlags a b) = b.sle a := by
  rw [BitVec.sle_eq_decide]
  refine decide_eq_decide.mpr ?_
  rw [← not_iff_not, Int.not_le]
  exact cmpFlags_less a b

theorem Cond.holds_le (a b : BitVec 64) : Cond.le.holds (cmpFlags a b) = a.sle b := by
  have hl : (decide ((cmpFlags a b).sign ≠ (cmpFlags a b).overflow)) = a.slt b := holds_l a b
  rw [Cond.holds, cmpFlags_zero, hl, BitVec.sle_eq_slt_or_eq, Bool.or_comm]
  rfl

theorem Cond.holds_g (a b : BitVec 64) : Cond.g.holds (cmpFlags a b) = b.slt a := by
  have hge : (decide ((cmpFlags a b).sign = (cmpFlags a b).overflow)) = b.sle a := holds_ge a b
  rw [Cond.holds, cmpFlags_zero, hge, BitVec.slt_eq_sle_and_ne, Bool.and_comm]
  congr 1
  rw [bne_comm]
  rfl

/-! ## The low byte -/

/-- The low byte of a register. -/
def lowByte (w : BitVec 64) : BitVec 8 := w.setWidth 8

/-- A register after a write to its low byte. -/
def setLowByte (w : BitVec 64) (b : BitVec 8) : BitVec 64 := (w.extractLsb' 8 56) ++ b

@[simp] theorem lowByte_setLowByte (w : BitVec 64) (b : BitVec 8) :
    lowByte (setLowByte w b) = b := BitVec.setWidth_append_eq_right

/-! ## Division -/

/-- The quotient and the remainder of the double word `hi:lo` by a signed divisor; division by
zero and a quotient that does not fit trap. -/
def idivResult (hi lo divisor : BitVec 64) : Option (BitVec 64 × BitVec 64) :=
  let dividend : ℤ := hi.toInt * 2 ^ 64 + lo.toNat
  let quotient := dividend.tdiv divisor.toInt
  if divisor = 0 ∨ quotient < -2 ^ 63 ∨ 2 ^ 63 ≤ quotient then none
  else some (BitVec.ofInt 64 quotient, BitVec.ofInt 64 (dividend.tmod divisor.toInt))

/-- The sign of a word in all bits of another. -/
def signWord (a : BitVec 64) : BitVec 64 := if a.msb then -1 else 0

theorem signWord_extends (a : BitVec 64) :
    (signWord a).toInt * 2 ^ 64 + (a.toNat : ℤ) = a.toInt := by
  rw [BitVec.toInt_eq_msb_cond a, signWord]
  split
  · rw [show (-1 : BitVec 64).toInt = -1 from rfl]
    omega
  · rw [show (0 : BitVec 64).toInt = 0 from rfl]
    omega

/-- Signed division after the dividend was extended by its sign. -/
theorem idivResult_signWord {a b : BitVec 64} (hb : b ≠ 0)
    (hfits : a.toInt.tdiv b.toInt < 2 ^ 63) :
    idivResult (signWord a) a b = some (a.sdiv b, a.srem b) := by
  have hlow : -2 ^ 63 ≤ a.toInt.tdiv b.toInt := by
    have ha : a.toInt < 2 ^ 63 := a.toInt_lt
    have ha' : -2 ^ 63 ≤ a.toInt := a.le_toInt
    have habs : (a.toInt.tdiv b.toInt).natAbs ≤ a.toInt.natAbs :=
      Int.natAbs_tdiv _ _ ▸ Nat.div_le_self _ _
    omega
  have hq : BitVec.ofInt 64 (a.toInt.tdiv b.toInt) = a.sdiv b := by
    apply BitVec.eq_of_toInt_eq
    rw [BitVec.toInt_ofInt, BitVec.toInt_sdiv]
  have hr : BitVec.ofInt 64 (a.toInt.tmod b.toInt) = a.srem b := by
    rw [← BitVec.toInt_srem, BitVec.ofInt_toInt]
  simp only [idivResult, signWord_extends, hq, hr]
  rw [if_neg]
  rintro (h | h | h)
  · exact hb h
  · exact absurd hlow (Int.not_le.mpr h)
  · exact absurd hfits (Int.not_lt.mpr h)

/-- A signed division that traps: by zero, or of the least word by -1. -/
def divFaults (a b : BitVec 64) : Bool := b = 0 || a.sdivOverflow b

theorem tdiv_lt_of_not_sdivOverflow {a b : BitVec 64} (h : a.sdivOverflow b = false) :
    a.toInt.tdiv b.toInt < 2 ^ 63 := by
  rw [BitVec.sdivOverflow_eq] at h
  have hne : a ≠ BitVec.intMin 64 ∨ b ≠ -1#64 := by
    by_contra! hboth
    rw [hboth.1, hboth.2] at h
    cases h
  rw [← BitVec.toInt_sdiv_of_ne_or_ne a b hne]
  exact BitVec.toInt_lt

/-- The divisor that makes a signed division trap after the dividend was extended by its sign. -/
theorem idivResult_signWord_eq_none_iff (a b : BitVec 64) :
    idivResult (signWord a) a b = none ↔ divFaults a b = true := by
  rw [divFaults, Bool.or_eq_true, decide_eq_true_eq]
  constructor
  · intro hnone
    by_cases hb : b = 0
    · exact .inl hb
    · cases hover : a.sdivOverflow b with
      | true => exact .inr rfl
      | false =>
          rw [idivResult_signWord hb (tdiv_lt_of_not_sdivOverflow hover)] at hnone
          cases hnone
  · rintro (rfl | hover)
    · simp [idivResult]
    · simp only [BitVec.sdivOverflow_eq, Bool.and_eq_true, decide_eq_true_eq] at hover
      obtain ⟨⟨-, rfl⟩, rfl⟩ := hover
      decide

/-! ## Counts -/

theorem toInt_ofNat_of_lt {n : ℕ} (h : n < 2 ^ 63) : (BitVec.ofNat 64 n).toInt = n := by
  have hnat : (BitVec.ofNat 64 n).toNat = n := Nat.mod_eq_of_lt (by omega)
  rw [BitVec.toInt_eq_toNat_of_lt (by omega), hnat]

theorem slt_ofNat {k l : ℕ} (hk : k < 2 ^ 63) (hl : l < 2 ^ 63) :
    (BitVec.ofNat 64 k).slt (BitVec.ofNat 64 l) = decide (k < l) := by
  rw [BitVec.slt_eq_decide, toInt_ofNat_of_lt hk, toInt_ofNat_of_lt hl]
  exact decide_eq_decide.mpr Int.ofNat_lt

end GatoCore.Lib
