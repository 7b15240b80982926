import Mathlib.Data.Finset.Card
import Mathlib.Data.Finset.Image
import Mathlib.Data.Nat.Bitwise
import Mathlib.Algebra.BigOperators.Group.List.Basic
import Mathlib.Tactic.Ring
import Mathlib.Order.Interval.Finset.Nat

/-!
# Sets of numbers in words

A word stands for the set of its bits, and a list of words of one width for the set of the places of
its bits, counted on from word to word. Clearing the lowest bit of a word takes one element out of
its set.
-/

namespace GatoCore.Lib

variable {w : ℕ}

/-! ## The bits of a word -/

def bitsOf (x : BitVec w) : Finset ℕ := (Finset.range w).filter fun i => x.getLsbD i = true

@[simp] theorem mem_bitsOf {x : BitVec w} {i : ℕ} : i ∈ bitsOf x ↔ x.getLsbD i = true := by
  rw [bitsOf, Finset.mem_filter, Finset.mem_range]
  exact and_iff_right_of_imp BitVec.lt_of_getLsbD

theorem bitsOf_eq_empty {x : BitVec w} : bitsOf x = ∅ ↔ x = 0#w := by
  constructor
  · intro h
    apply BitVec.eq_of_getLsbD_eq
    intro i _
    rw [BitVec.getLsbD_zero, Bool.eq_false_iff]
    intro hi
    exact Finset.notMem_empty i (h ▸ mem_bitsOf.mpr hi)
  · rintro rfl
    ext i
    simp

/-- A number that is not zero has a lowest bit. -/
theorem exists_lowest_bit {n : ℕ} (h : n ≠ 0) : ∃ t q, n = 2 ^ (t + 1) * q + 2 ^ t := by
  induction n using Nat.strong_induction_on with
  | h n ih =>
    rcases Nat.mod_two_eq_zero_or_one n with heven | hodd
    · obtain ⟨t, q, hq⟩ := ih (n / 2) (by omega) (by omega)
      refine ⟨t + 1, q, ?_⟩
      have hn : n = 2 * (n / 2) := by omega
      rw [hn, hq]
      ring
    · exact ⟨0, n / 2, by omega⟩

/-- Below its lowest bit a number changes when one is taken away, above it does not. -/
theorem testBit_and_pred (t q i : ℕ) :
    ((2 ^ (t + 1) * q + 2 ^ t) &&& (2 ^ (t + 1) * q + 2 ^ t - 1)).testBit i =
      ((2 ^ (t + 1) * q + 2 ^ t).testBit i && decide (i ≠ t)) := by
  have hlt : 2 ^ t < 2 ^ (t + 1) := Nat.pow_lt_pow_right (by decide) (by omega)
  have hpred : 2 ^ (t + 1) * q + 2 ^ t - 1 = 2 ^ (t + 1) * q + (2 ^ t - 1) := by
    have := Nat.one_le_two_pow (n := t)
    omega
  rw [hpred, Nat.testBit_and, Nat.testBit_two_pow_mul_add _ hlt,
    Nat.testBit_two_pow_mul_add _ (by omega)]
  by_cases hi : i < t + 1
  · rw [if_pos hi, if_pos hi, Nat.testBit_two_pow, Nat.testBit_two_pow_sub_one]
    by_cases heq : t = i
    · simp [heq]
    · simp [heq]
  · have hne : i ≠ t := by omega
    rw [if_neg hi, if_neg hi, Bool.and_self, decide_eq_true hne, Bool.and_true]

/-- `x & (x - 1)` has all bits of `x` but one. -/
theorem bitsOf_and_sub_one {x : BitVec w} (h : x ≠ 0#w) :
    ∃ t ∈ bitsOf x, bitsOf (x &&& (x - 1#w)) = (bitsOf x).erase t := by
  have hpos : x.toNat ≠ 0 := fun hzero => h (BitVec.eq_of_toNat_eq (by simpa using hzero))
  obtain ⟨t, q, hx⟩ := exists_lowest_bit hpos
  have hw : 1 < 2 ^ w := by
    have := x.isLt
    by_contra hsmall
    omega
  have hpred : (x - 1#w).toNat = x.toNat - 1 := by
    have hone : (1#w).toNat = 1 := by
      rw [BitVec.toNat_ofNat, Nat.mod_eq_of_lt hw]
    rw [BitVec.toNat_sub_of_le, hone]
    rw [BitVec.le_def, hone]
    omega
  have hbit : ∀ i, (x &&& (x - 1#w)).getLsbD i = (x.getLsbD i && decide (i ≠ t)) := by
    intro i
    rw [← BitVec.testBit_toNat, BitVec.toNat_and, hpred, ← BitVec.testBit_toNat, hx]
    exact testBit_and_pred t q i
  refine ⟨t, ?_, ?_⟩
  · rw [mem_bitsOf, ← BitVec.testBit_toNat, hx,
      Nat.testBit_two_pow_mul_add _ (Nat.pow_lt_pow_right (by decide) (by omega)),
      if_pos (by omega), Nat.testBit_two_pow_self]
  · ext i
    rw [mem_bitsOf, hbit, Finset.mem_erase, mem_bitsOf, Bool.and_eq_true, decide_eq_true_iff]
    exact and_comm

theorem card_bitsOf_and_sub_one {x : BitVec w} (h : x ≠ 0#w) :
    (bitsOf (x &&& (x - 1#w))).card + 1 = (bitsOf x).card := by
  obtain ⟨t, ht, herase⟩ := bitsOf_and_sub_one h
  rw [herase, Finset.card_erase_add_one ht]

theorem card_bitsOf_le (x : BitVec w) : (bitsOf x).card ≤ w := by
  calc (bitsOf x).card ≤ (Finset.range w).card := Finset.card_filter_le _ _
    _ = w := Finset.card_range w

/-! ## Words in a row -/

/-- The places of the bits of the words. -/
def wordsSet (words : List (BitVec w)) : Finset ℕ :=
  (Finset.range (w * words.length)).filter fun i =>
    (words.getD (i / w) 0#w).getLsbD (i % w) = true

theorem mem_wordsSet (hw : 0 < w) {words : List (BitVec w)} {i : ℕ} :
    i ∈ wordsSet words ↔ (words.getD (i / w) 0#w).getLsbD (i % w) = true := by
  rw [wordsSet, Finset.mem_filter, Finset.mem_range]
  refine and_iff_right_of_imp fun h => ?_
  by_contra hlen
  have hdiv : words.length ≤ i / w := (Nat.le_div_iff_mul_le hw).mpr (by rw [Nat.mul_comm]; omega)
  rw [List.getD_eq_default _ _ hdiv, BitVec.getLsbD_zero] at h
  cases h

theorem wordsSet_cons (hw : 0 < w) (x : BitVec w) (words : List (BitVec w)) :
    wordsSet (x :: words) = bitsOf x ∪ (wordsSet words).image (w + ·) := by
  ext i
  rw [mem_wordsSet hw, Finset.mem_union, mem_bitsOf, Finset.mem_image]
  constructor
  · intro h
    by_cases hi : i < w
    · rw [Nat.div_eq_of_lt hi, Nat.mod_eq_of_lt hi] at h
      exact .inl h
    · obtain ⟨j, rfl⟩ : ∃ j, i = w + j := ⟨i - w, by omega⟩
      rw [Nat.add_div_left _ hw, Nat.add_mod_left] at h
      exact .inr ⟨j, (mem_wordsSet hw).mpr h, rfl⟩
  · rintro (h | ⟨j, hj, rfl⟩)
    · have hi := BitVec.lt_of_getLsbD h
      rw [Nat.div_eq_of_lt hi, Nat.mod_eq_of_lt hi]
      exact h
    · rw [Nat.add_div_left _ hw, Nat.add_mod_left]
      exact (mem_wordsSet hw).mp hj

theorem card_wordsSet (hw : 0 < w) (words : List (BitVec w)) :
    (wordsSet words).card = (words.map fun x => (bitsOf x).card).sum := by
  induction words with
  | nil => simp [wordsSet]
  | cons x words ih =>
      have hdisjoint : Disjoint (bitsOf x) ((wordsSet words).image (w + ·)) := by
        rw [Finset.disjoint_left]
        rintro i hi hi'
        obtain ⟨j, -, rfl⟩ := Finset.mem_image.mp hi'
        have := BitVec.lt_of_getLsbD (mem_bitsOf.mp hi)
        omega
      rw [wordsSet_cons hw, Finset.card_union_of_disjoint hdisjoint,
        Finset.card_image_of_injective _ (add_right_injective w), ih, List.map_cons, List.sum_cons]

theorem wordsSet_replicate_zero (hw : 0 < w) (n : ℕ) :
    wordsSet (List.replicate n 0#w) = ∅ := by
  ext i
  rw [mem_wordsSet hw, List.getD_eq_getElem?_getD, List.getElem?_replicate]
  split <;> simp

/-- A word that is replaced gives its own places new bits. -/
theorem mem_wordsSet_set (hw : 0 < w) {words : List (BitVec w)} {k : ℕ} (hk : k < words.length)
    (y : BitVec w) (i : ℕ) :
    i ∈ wordsSet (words.set k y) ↔
      if i / w = k then y.getLsbD (i % w) = true else i ∈ wordsSet words := by
  rw [mem_wordsSet hw, List.getD_eq_getElem?_getD, List.getElem?_set]
  by_cases hi : i / w = k
  · rw [if_pos hi.symm, if_pos hk, if_pos hi]
    rfl
  · rw [if_neg (Ne.symm hi), if_neg hi, mem_wordsSet hw, List.getD_eq_getElem?_getD]

/-- A place is its word and its bit in there. -/
theorem ext_place {i j : ℕ} : i = j ↔ i / w = j / w ∧ i % w = j % w := by
  constructor
  · rintro rfl
    exact ⟨rfl, rfl⟩
  · rintro ⟨hdiv, hmod⟩
    rw [← Nat.div_add_mod i w, ← Nat.div_add_mod j w, hdiv, hmod]

end GatoCore.Lib
