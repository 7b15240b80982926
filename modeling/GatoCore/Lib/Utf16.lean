import GatoCore.Lib.Utf8

/-!
# UTF-16

The code units of a text, and how its bytes and its units are related.
-/

namespace GatoCore.Lib

/-- The UTF-16 code units of a character. -/
def utf16Units (c : Char) : List ℕ :=
  if c.toNat < 0x10000 then [c.toNat]
  else [0xD800 + (c.toNat - 0x10000) / 0x400, 0xDC00 + (c.toNat - 0x10000) % 0x400]

/-- The code units of a text. -/
def utf16 (t : List Char) : List ℕ := t.flatMap utf16Units

@[simp] theorem utf16_nil : utf16 [] = [] := rfl

@[simp] theorem utf16_cons (c : Char) (t : List Char) : utf16 (c :: t) = utf16Units c ++ utf16 t :=
  List.flatMap_cons

def isHighSurrogate (u : ℕ) : Bool := 0xD800 ≤ u && u < 0xDC00

def isLowSurrogate (u : ℕ) : Bool := 0xDC00 ≤ u && u < 0xE000

/-- A character is one unit that is no surrogate, or a pair of them. -/
theorem utf16Units_cases (c : Char) :
    (utf16Units c = [c.toNat] ∧ isHighSurrogate c.toNat = false) ∨
      ∃ high low, utf16Units c = [high, low] ∧ isHighSurrogate high = true ∧
        isLowSurrogate low = true := by
  have hvalid := toNat_valid c
  unfold utf16Units
  split
  next hlt =>
    refine Or.inl ⟨rfl, ?_⟩
    simp only [isHighSurrogate, Bool.and_eq_false_iff, decide_eq_false_iff_not]
    omega
  next hge =>
    refine Or.inr ⟨_, _, rfl, ?_, ?_⟩
    · simp only [isHighSurrogate, Bool.and_eq_true, decide_eq_true_eq]
      omega
    · simp only [isLowSurrogate, Bool.and_eq_true, decide_eq_true_eq]
      omega

/-- The only character with a unit of its own code. -/
theorem toNat_eq_of_utf16Units {c : Char} {u : ℕ} (h : utf16Units c = [u]) : c.toNat = u := by
  unfold utf16Units at h
  split at h
  · exact List.singleton_inj.mp h
  · cases h

theorem utf16Units_of_lt {c : Char} (h : c.toNat < 0x10000) : utf16Units c = [c.toNat] := if_pos h

/-- Three bytes a unit are enough. -/
theorem length_utf8_le (t : List Char) : (utf8 t).length ≤ 3 * (utf16 t).length := by
  induction t with
  | nil => exact Nat.le_refl _
  | cons c t ih =>
      have hchar : (String.utf8EncodeChar c).length ≤ 3 * (utf16Units c).length := by
        rw [utf8EncodeChar_eq]
        unfold codeBytes utf16Units
        split_ifs <;> simp
        omega
      rw [utf8_cons, utf16_cons, List.length_append, List.length_append]
      omega

/-- In a text of ASCII characters, characters, bytes and units are the same in number. -/
theorem utf16_of_ascii {t : List Char} (h : Ascii t) : utf16 t = t.map Char.toNat := by
  induction t with
  | nil => rfl
  | cons c t ih =>
      have hc := h c List.mem_cons_self
      rw [utf16_cons, utf16Units_of_lt (by omega), ih fun d hd => h d (List.mem_cons_of_mem c hd)]
      rfl

theorem utf8_of_ascii {t : List Char} (h : Ascii t) : utf8 t = t.map charByte := by
  induction t with
  | nil => rfl
  | cons c t ih =>
      rw [utf8_cons, utf8EncodeChar_ascii (h c List.mem_cons_self),
        ih fun d hd => h d (List.mem_cons_of_mem c hd)]
      rfl

/-- A text of one byte is one ASCII character. -/
theorem eq_of_utf8_singleton {t : List Char} {b : UInt8} (h : utf8 t = [b]) :
    ∃ c, t = [c] ∧ c.toNat < 128 ∧ b = charByte c := by
  have hascii : Ascii t := by
    by_contra hascii
    have hlt := length_lt_utf8 hascii
    rw [h, List.length_singleton, Nat.lt_one_iff, List.length_eq_zero_iff] at hlt
    subst hlt
    cases h
  rw [utf8_of_ascii hascii, List.map_eq_singleton_iff] at h
  obtain ⟨c, rfl, hc⟩ := h
  exact ⟨c, rfl, hascii c List.mem_cons_self, hc.symm⟩

end GatoCore.Lib
