import GatoCore.Lib.ShortestDecimal

/-!
# Immediates

A constant of the code is a double, and it is written as the text of that double. The assembler
reads a decimal integer of at most 64 bits there, or refuses the line.
-/

namespace GatoCore.Native

open GatoCore.Lib GatoCore.Lib.Binary64

/-- The assembler reads digits as a decimal integer, unless a zero in front makes them octal; what
takes more than 64 bits is no immediate. -/
def asmInteger (text : List Char) : Option ℕ :=
  if text ≠ [] ∧ text.all Char.isDigit = true ∧ (text.head? = some '0' → text.length = 1) ∧
      Nat.ofDigitChars 10 text 0 < 2 ^ 64 then
    some (Nat.ofDigitChars 10 text 0)
  else none

/-- The immediate of a `cmp`: 32 bits, extended by their sign. -/
def asmSigned (text : List Char) : Option (BitVec 64) := do
  let value ← asmInteger text
  if -2 ^ 31 ≤ (BitVec.ofNat 64 value).toInt ∧ (BitVec.ofNat 64 value).toInt < 2 ^ 31 then
    some (BitVec.ofNat 64 value)
  else none

@[simp] theorem asmSigned_zero : asmSigned ['0'] = some 0 := by decide

/-! ## Digits -/

theorem head?_toDigits : ∀ n : ℕ, (Nat.toDigits 10 n).head? = some '0' → n = 0 := by
  intro n
  induction n using Nat.strongRecOn with
  | ind n ih =>
      intro h
      rcases Nat.lt_or_ge n 10 with hlt | hge
      · rw [Nat.toDigits_of_lt_base hlt] at h
        interval_cases n
        all_goals first | rfl | exact absurd h (by decide)
      · rw [Nat.toDigits_of_base_le (by decide) hge,
          List.head?_append_of_ne_nil _ Nat.toDigits_ne_nil] at h
        have hzero := ih (n / 10) (Nat.div_lt_self (by omega) (by decide)) h
        omega

theorem asmInteger_toDigits (n : ℕ) :
    asmInteger (Nat.toDigits 10 n) = if n < 2 ^ 64 then some n else none := by
  have hdigits : (Nat.toDigits 10 n).all Char.isDigit = true :=
    List.all_eq_true.mpr fun c hc => Nat.isDigit_of_mem_toDigits (by decide) (by decide) hc
  have hzero : (Nat.toDigits 10 n).head? = some '0' → (Nat.toDigits 10 n).length = 1 := by
    intro h
    rw [head?_toDigits n h]
    rfl
  rw [asmInteger, Nat.ofDigitChars_ten_toDigits]
  by_cases hfits : n < 2 ^ 64
  · rw [if_pos ⟨Nat.toDigits_ne_nil, hdigits, hzero, hfits⟩, if_pos hfits]
  · rw [if_neg fun h => hfits h.2.2.2, if_neg hfits]

theorem asmInteger_eq_none {text : List Char} {c : Char} (hmem : c ∈ text)
    (hc : c.isDigit = false) : asmInteger text = none := by
  refine if_neg fun h => ?_
  have hdigit := List.all_eq_true.mp h.2.1 c hmem
  rw [hc] at hdigit
  cases hdigit

/-! ## Doubles -/

section Doubles

variable {d v : ℕ}

/-- The text of a double is an immediate if what the double is written as fits in 64 bits. -/
theorem asmInteger_numberText :
    asmInteger (numberText d) = some v ↔ d ≠ infinity ∧ shortest d < 2 ^ 64 ∧ shortest d = v := by
  rw [numberText]
  split
  next hinf =>
    rw [asmInteger_eq_none (c := 'I') (by decide) (by decide)]
    exact ⟨nofun, fun h => absurd hinf h.1⟩
  next hinf =>
    split
    next hsmall =>
      rw [asmInteger_toDigits]
      constructor
      · intro h
        split at h
        next hfits => exact ⟨hinf, hfits, Option.some.inj h⟩
        next => cases h
      · rintro ⟨-, hfits, rfl⟩
        exact if_pos hfits
    next hlarge =>
      rw [asmInteger_eq_none (c := 'e') (by simp) (by decide)]
      refine ⟨nofun, fun h => absurd ?_ hlarge⟩
      exact h.2.1.trans (by decide)

/-- A double is read back as itself if it fits in 64 bits and no shorter decimal tells it from the
others. -/
theorem asmInteger_numberText_self (hd : nearest d = d) :
    asmInteger (numberText d) = some d ↔ d < 2 ^ 64 ∧ Shortest d d := by
  rw [asmInteger_numberText]
  constructor
  · rintro ⟨hinf, hfits, heq⟩
    have hlt : d < infinity := Nat.lt_of_le_of_ne (hd ▸ min_le_right _ _) hinf
    exact ⟨heq ▸ hfits, (shortest_eq_iff hd hlt).mp heq⟩
  · rintro ⟨hfits, hshortest⟩
    have hlt : d < infinity := hfits.trans (by decide +kernel)
    have heq := (shortest_eq_iff hd hlt).mpr hshortest
    exact ⟨hlt.ne, heq.symm ▸ hfits, heq⟩

theorem asmInteger_numberText_of_lt (h : d < 2 ^ 53) : asmInteger (numberText d) = some d :=
  (asmInteger_numberText_self (nearest_of_lt h)).mpr ⟨h.trans (by decide), shortest_of_lt h⟩

/-- A double that is read as another number is read as another word. -/
theorem ofNat_ne_of_asmInteger (hd : nearest d = d) (h : asmInteger (numberText d) = some v)
    (hne : v ≠ d) : BitVec.ofNat 64 v ≠ BitVec.ofNat 64 d := by
  obtain ⟨hinf, hfits, heq⟩ := asmInteger_numberText.mp h
  have hlt : d < infinity := Nat.lt_of_le_of_ne (hd ▸ min_le_right _ _) hinf
  have hrounds := ((shortest_eq_iff hd hlt).mp heq).rounds
  rw [heq] at hfits
  -- only `2 ^ 64` could be written as a smaller number, and it is not
  have hsmall : d < 2 ^ 64 := by
    rcases Nat.lt_trichotomy d (2 ^ 64) with hsmall | rfl | hlarge
    · exact hsmall
    · rw [← heq] at hfits
      exact absurd hfits (by decide +kernel)
    · have hmono := nearest_mono hfits.le
      rw [hrounds, nearest_of_dvd (dvd_pow_two 64) (by decide +kernel)] at hmono
      omega
  intro hword
  have hnat := congrArg BitVec.toNat hword
  rw [BitVec.toNat_ofNat, BitVec.toNat_ofNat, Nat.mod_eq_of_lt hfits, Nat.mod_eq_of_lt hsmall]
    at hnat
  exact hne hnat

end Doubles

end GatoCore.Native
