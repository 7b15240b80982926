import Mathlib.Data.List.Infix
import Mathlib.Tactic.Common

/-!
# UTF-8 and search

ASCII bytes stand for themselves wherever they appear, so ASCII texts are found by their bytes. Any
other text is longer in bytes than in characters, and no shorter pattern finds it.
-/

namespace GatoCore.Lib

/-- The bytes of a text. -/
def utf8 (t : List Char) : List UInt8 := t.flatMap String.utf8EncodeChar

@[simp] theorem utf8_nil : utf8 [] = [] := rfl

@[simp] theorem utf8_cons (c : Char) (t : List Char) :
    utf8 (c :: t) = String.utf8EncodeChar c ++ utf8 t := List.flatMap_cons

@[simp] theorem utf8_append (s t : List Char) : utf8 (s ++ t) = utf8 s ++ utf8 t :=
  List.flatMap_append

def Ascii (t : List Char) : Prop := ∀ c ∈ t, c.toNat < 128

theorem utf8EncodeChar_ascii {c : Char} (h : c.toNat < 128) :
    String.utf8EncodeChar c = [UInt8.ofNat c.toNat] :=
  if_pos (by change c.toNat ≤ 127; omega)

/-- The bytes of any other character are not ASCII. -/
theorem le_of_mem_utf8EncodeChar {c : Char} (h : 128 ≤ c.toNat) {b : UInt8}
    (hb : b ∈ String.utf8EncodeChar c) : 128 ≤ b.toNat := by
  have hv : ¬ c.val.toNat ≤ 127 := by change ¬ c.toNat ≤ 127; omega
  simp only [String.utf8EncodeChar, if_neg hv] at hb
  split at hb
  · simp only [List.mem_cons, List.not_mem_nil, or_false] at hb
    rcases hb with rfl | rfl
    all_goals simp only [UInt8.toNat_ofNat']; omega
  · split at hb
    · simp only [List.mem_cons, List.not_mem_nil, or_false] at hb
      rcases hb with rfl | rfl | rfl
      all_goals simp only [UInt8.toNat_ofNat']; omega
    · simp only [List.mem_cons, List.not_mem_nil, or_false] at hb
      rcases hb with rfl | rfl | rfl | rfl
      all_goals simp only [UInt8.toNat_ofNat']; omega

theorem utf8EncodeChar_ne_nil (c : Char) : String.utf8EncodeChar c ≠ [] := by
  unfold String.utf8EncodeChar
  simp only
  split
  · simp
  · split
    · simp
    · split <;> simp

/-- A text that is not ASCII has more bytes than characters. -/
theorem length_lt_utf8 {t : List Char} (h : ¬ Ascii t) : t.length < (utf8 t).length := by
  have hle : ∀ t : List Char, t.length ≤ (utf8 t).length := by
    intro t
    induction t with
    | nil => exact Nat.le_refl _
    | cons c t ih =>
        have hpos := List.length_pos_iff.mpr (utf8EncodeChar_ne_nil c)
        rw [utf8_cons, List.length_cons, List.length_append]
        omega
  induction t with
  | nil => exact (h (by simp [Ascii])).elim
  | cons c t ih =>
      rw [utf8_cons, List.length_cons, List.length_append]
      by_cases hc : c.toNat < 128
      · have ht : ¬ Ascii t := by
          intro ht
          refine h ?_
          intro d hd
          rcases List.mem_cons.mp hd with rfl | hd
          · exact hc
          · exact ht d hd
        have := ih ht
        rw [utf8EncodeChar_ascii hc, List.length_singleton]
        omega
      · have hlong : 1 < (String.utf8EncodeChar c).length := by
          have hv : ¬ c.val.toNat ≤ 127 := by change ¬ c.toNat ≤ 127; omega
          simp only [String.utf8EncodeChar, if_neg hv]
          split
          · simp
          · split <;> simp
        have := hle t
        omega

/-! ## ASCII patterns -/

section Search

variable {α : Type}

/-- A pattern is not found at elements that are not its first. -/
theorem infix_append_iff_of_not_mem {p : α} {ps xs ys : List α} (h : p ∉ xs) :
    p :: ps <:+: xs ++ ys ↔ p :: ps <:+: ys := by
  induction xs with
  | nil => rfl
  | cons x xs ih =>
      rw [List.mem_cons, not_or] at h
      obtain ⟨hx, hxs⟩ := h
      rw [List.cons_append, List.infix_cons_iff, ih hxs]
      constructor
      · rintro (hstarts | hfound)
        · exact (hx (List.cons_prefix_cons.mp hstarts).1).elim
        · exact hfound
      · exact Or.inr

end Search

/-- The byte of a character, without the rest of its code. -/
def charByte (c : Char) : UInt8 := UInt8.ofNat c.toNat

theorem charByte_inj {c d : Char} (hc : c.toNat < 128) (hd : d.toNat < 128)
    (h : charByte c = charByte d) : c = d := by
  have hbytes := congrArg UInt8.toNat h
  simp only [charByte, UInt8.toNat_ofNat'] at hbytes
  rw [← Char.ofNat_toNat c, ← Char.ofNat_toNat d, show c.toNat = d.toNat by omega]

theorem charByte_not_mem {c d : Char} (hc : c.toNat < 128) (hd : ¬ d.toNat < 128) :
    charByte c ∉ String.utf8EncodeChar d := by
  intro hmem
  have hle := le_of_mem_utf8EncodeChar (by omega) hmem
  simp only [charByte, UInt8.toNat_ofNat'] at hle
  omega

theorem prefix_utf8_iff {s : List Char} (hs : Ascii s) (t : List Char) :
    s.map charByte <+: utf8 t ↔ s <+: t := by
  induction s generalizing t with
  | nil => simp
  | cons c s ih =>
      have hc : c.toNat < 128 := hs c List.mem_cons_self
      have ih := ih fun d hd => hs d (List.mem_cons_of_mem _ hd)
      cases t with
      | nil => simp
      | cons d t =>
          rw [utf8_cons, List.map_cons, List.cons_prefix_cons]
          by_cases hd : d.toNat < 128
          · rw [utf8EncodeChar_ascii hd, List.singleton_append, List.cons_prefix_cons, ih]
            constructor
            · rintro ⟨hbyte, hrest⟩
              exact ⟨charByte_inj hc hd hbyte, hrest⟩
            · rintro ⟨rfl, hrest⟩
              exact ⟨rfl, hrest⟩
          · constructor
            · intro hstarts
              obtain ⟨b, bs, hbs⟩ := List.exists_cons_of_ne_nil (utf8EncodeChar_ne_nil d)
              rw [hbs, List.cons_append, List.cons_prefix_cons] at hstarts
              have hmem : charByte c ∈ String.utf8EncodeChar d := by
                rw [hbs, hstarts.1]
                exact List.mem_cons_self
              exact (charByte_not_mem hc hd hmem).elim
            · rintro ⟨rfl, -⟩
              exact (hd hc).elim

/-- The bytes of an ASCII text are found where the text is. -/
theorem infix_utf8_iff {s : List Char} (hs : Ascii s) (t : List Char) :
    s.map charByte <:+: utf8 t ↔ s <:+: t := by
  cases s with
  | nil => simp
  | cons c s =>
      have hc : c.toNat < 128 := hs c List.mem_cons_self
      induction t with
      | nil => simp
      | cons d t ih =>
          rw [utf8_cons, List.infix_cons_iff, ← show _ ↔ c :: s <:+: t from ih]
          by_cases hd : d.toNat < 128
          · have hstarts := prefix_utf8_iff hs (d :: t)
            rw [utf8_cons] at hstarts
            rw [← hstarts, utf8EncodeChar_ascii hd, List.singleton_append, List.infix_cons_iff]
          · rw [List.map_cons, infix_append_iff_of_not_mem (charByte_not_mem hc hd)]
            constructor
            · exact Or.inr
            · rintro (hstarts | hfound)
              · obtain ⟨rfl, -⟩ := List.cons_prefix_cons.mp hstarts
                exact (hd hc).elim
              · exact hfound

/-! ## Other patterns -/

/-- The bytes of the character with a code. -/
def codeBytes (v : ℕ) : List UInt8 :=
  if v ≤ 0x7f then [UInt8.ofNat v]
  else if v ≤ 0x7ff then [UInt8.ofNat (v / 64 % 0x20 + 0xc0), UInt8.ofNat (v % 0x40 + 0x80)]
  else if v ≤ 0xffff then
    [UInt8.ofNat (v / 4096 % 0x10 + 0xe0), UInt8.ofNat (v / 64 % 0x40 + 0x80),
      UInt8.ofNat (v % 0x40 + 0x80)]
  else
    [UInt8.ofNat (v / 262144 % 0x08 + 0xf0), UInt8.ofNat (v / 4096 % 0x40 + 0x80),
      UInt8.ofNat (v / 64 % 0x40 + 0x80), UInt8.ofNat (v % 0x40 + 0x80)]

theorem utf8EncodeChar_eq (c : Char) : String.utf8EncodeChar c = codeBytes c.toNat := rfl

theorem toNat_charOfNat {v : ℕ} (h : v.isValidChar) : (Char.ofNat v).toNat = v := by
  rw [Char.ofNat, dif_pos h]
  rfl

/-- What is shown of codes holds of characters. -/
theorem exists_other (f : List UInt8 → List UInt8) {c : Char}
    (h : ∃ v, v ≠ c.toNat ∧ v.isValidChar ∧ f (codeBytes v) = f (codeBytes c.toNat)) :
    ∃ d : Char, d ≠ c ∧ f (String.utf8EncodeChar d) = f (String.utf8EncodeChar c) := by
  obtain ⟨v, hne, hvalid, hf⟩ := h
  refine ⟨Char.ofNat v, ?_, ?_⟩
  · rintro rfl
    exact hne (toNat_charOfNat hvalid).symm
  · rw [utf8EncodeChar_eq, utf8EncodeChar_eq, toNat_charOfNat hvalid, hf]

theorem toNat_valid (c : Char) : c.toNat < 0xd800 ∨ (0xdfff < c.toNat ∧ c.toNat < 0x110000) :=
  c.valid

/-- Another character has the same bytes after the first. -/
theorem exists_other_lead (c : Char) (h : ¬ c.toNat < 128) :
    ∃ d : Char, d ≠ c ∧ (String.utf8EncodeChar d).tail = (String.utf8EncodeChar c).tail := by
  have hvalid := toNat_valid c
  apply exists_other List.tail
  generalize c.toNat = v at *
  by_cases h2 : v ≤ 0x7ff
  · obtain ⟨w, hne, hlo, hhi, h0⟩ : ∃ w, w ≠ v ∧ 0x7f < w ∧ w ≤ 0x7ff ∧ w % 0x40 = v % 0x40 := by
      by_cases hv : v / 64 = 2
      · exact ⟨v % 64 + 192, by omega, by omega, by omega, by omega⟩
      · exact ⟨v % 64 + 128, by omega, by omega, by omega, by omega⟩
    refine ⟨w, hne, Or.inl (by omega), ?_⟩
    simp [codeBytes, show ¬ w ≤ 0x7f by omega, show ¬ v ≤ 0x7f by omega, h2, hhi, h0]
  · by_cases h3 : v ≤ 0xffff
    · obtain ⟨w, hne, hlo, hhi, h0, h1⟩ : ∃ w, w ≠ v ∧ 0x7ff < w ∧ w < 0xd800 ∧
          w % 0x40 = v % 0x40 ∧ w / 64 % 0x40 = v / 64 % 0x40 := by
        by_cases hv : v / 4096 = 1
        · exact ⟨v % 4096 + 8192, by omega, by omega, by omega, by omega, by omega⟩
        · exact ⟨v % 4096 + 4096, by omega, by omega, by omega, by omega, by omega⟩
      refine ⟨w, hne, Or.inl hhi, ?_⟩
      simp [codeBytes, show ¬ w ≤ 0x7f by omega, show ¬ v ≤ 0x7f by omega, h2,
        show ¬ w ≤ 0x7ff by omega, h3, show w ≤ 0xffff by omega, h0, h1]
    · obtain ⟨w, hne, hlo, hhi, h0, h1, h4⟩ : ∃ w, w ≠ v ∧ 0xffff < w ∧ w < 0x110000 ∧
          w % 0x40 = v % 0x40 ∧ w / 64 % 0x40 = v / 64 % 0x40 ∧
          w / 4096 % 0x40 = v / 4096 % 0x40 := by
        by_cases hv : v / 262144 = 1
        · exact ⟨v % 262144 + 524288, by omega, by omega, by omega, by omega, by omega, by omega⟩
        · exact ⟨v % 262144 + 262144, by omega, by omega, by omega, by omega, by omega, by omega⟩
      refine ⟨w, hne, Or.inr ⟨by omega, hhi⟩, ?_⟩
      simp [codeBytes, show ¬ w ≤ 0x7f by omega, show ¬ v ≤ 0x7f by omega, h2,
        show ¬ w ≤ 0x7ff by omega, h3, show ¬ w ≤ 0xffff by omega, h0, h1, h4]

/-- Another character has the same bytes before the last. -/
theorem exists_other_last (c : Char) (h : ¬ c.toNat < 128) :
    ∃ d : Char, d ≠ c ∧
      (String.utf8EncodeChar d).dropLast = (String.utf8EncodeChar c).dropLast := by
  have hvalid := toNat_valid c
  apply exists_other List.dropLast
  generalize c.toNat = v at *
  obtain ⟨w, hne, hw⟩ : ∃ w, w ≠ v ∧ w / 64 = v / 64 := by
    by_cases hv : v % 2 = 0
    · exact ⟨v + 1, by omega, by omega⟩
    · exact ⟨v - 1, by omega, by omega⟩
  refine ⟨w, hne, ?_, ?_⟩
  · simp only [Nat.isValidChar]
    omega
  · have h3 : w / 4096 = v / 4096 := by omega
    have h4 : w / 262144 = v / 262144 := by omega
    have hlow : ¬ w ≤ 0x7f := by omega
    have hlow' : ¬ v ≤ 0x7f := by omega
    have hmid : w ≤ 0x7ff ↔ v ≤ 0x7ff := by omega
    have hhigh : w ≤ 0xffff ↔ v ≤ 0xffff := by omega
    simp only [codeBytes, if_neg hlow, if_neg hlow', hmid, hhigh, hw, h3, h4]
    split
    · rfl
    · split <;> rfl

/-- A text with no more characters that is not the text does not contain it. -/
theorem not_infix_of_length_le {α : Type} {s t : List α} (hlen : t.length ≤ s.length)
    (hne : t ≠ s) :
    ¬ s <:+: t := by
  intro h
  exact hne (h.eq_of_length (Nat.le_antisymm h.length_le hlen)).symm

/-- A pattern shorter than the bytes of a text does not find it: it misses the text itself, or it is
found in a text that lacks a character of it or has another there. -/
theorem not_detects {s : List Char} {p : List UInt8} (h : p.length < (utf8 s).length) :
    ¬ ∀ t, p <:+: utf8 t ↔ s <:+: t := by
  intro hdetects
  -- another text as long, or a shorter one, must not be found
  have hother : ∀ t : List Char, t.length ≤ s.length → t ≠ s → ¬ p <:+: utf8 t := by
    intro t hlen hne hfound
    exact not_infix_of_length_le hlen hne ((hdetects t).mp hfound)
  obtain ⟨u, v, huv⟩ := (hdetects s).mpr List.infix_rfl
  cases u with
  | cons b u =>
      -- the pattern starts after the first byte
      cases s with
      | nil => simp at h
      | cons c s =>
          have htail : u ++ p ++ v = (String.utf8EncodeChar c).tail ++ utf8 s := by
            rw [utf8_cons] at huv
            obtain ⟨b', bs, hbs⟩ := List.exists_cons_of_ne_nil (utf8EncodeChar_ne_nil c)
            rw [hbs, List.cons_append, List.cons_append, List.cons_append] at huv
            rw [hbs, List.tail_cons]
            exact (List.cons.inj huv).2
          by_cases hc : c.toNat < 128
          · rw [utf8EncodeChar_ascii hc, List.tail_cons, List.nil_append] at htail
            exact hother s (Nat.le_succ _) (by simp) ⟨u, v, htail⟩
          · obtain ⟨d, hdc, hd⟩ := exists_other_lead c hc
            refine hother (d :: s) (Nat.le_refl _) (by simp [hdc]) ?_
            obtain ⟨b', bs, hbs⟩ := List.exists_cons_of_ne_nil (utf8EncodeChar_ne_nil d)
            refine ⟨b' :: u, v, ?_⟩
            rw [← hd, hbs, List.tail_cons] at htail
            rw [utf8_cons, hbs, List.cons_append, List.cons_append, List.cons_append, htail]
  | nil =>
      -- the pattern ends before the last byte
      rw [List.nil_append] at huv
      rcases List.eq_nil_or_concat s with rfl | ⟨s, c, rfl⟩
      · simp at h
      · have hv : v ≠ [] := by
          rintro rfl
          rw [List.append_nil] at huv
          rw [huv] at h
          exact absurd h (Nat.lt_irrefl _)
        have hdrop : p ++ v.dropLast = utf8 s ++ (String.utf8EncodeChar c).dropLast := by
          rw [List.concat_eq_append, utf8_append, utf8_cons, utf8_nil, List.append_nil] at huv
          rw [← List.dropLast_append_of_ne_nil hv, huv,
            List.dropLast_append_of_ne_nil (utf8EncodeChar_ne_nil c)]
        by_cases hc : c.toNat < 128
        · rw [utf8EncodeChar_ascii hc, List.dropLast_singleton, List.append_nil] at hdrop
          refine hother s (by simp) ?_ ⟨[], v.dropLast, hdrop⟩
          intro hsame
          have := congrArg List.length hsame
          simp at this
        · obtain ⟨d, hdc, hd⟩ := exists_other_last c hc
          refine hother (s ++ [d]) (by simp) (by simp [hdc]) ?_
          rw [utf8_append, utf8_cons, utf8_nil, List.append_nil,
            ← List.dropLast_append_getLast (utf8EncodeChar_ne_nil d), hd, ← List.append_assoc,
            ← hdrop, List.append_assoc]
          exact List.infix_append' [] p _

/-! ## The bytes of a string -/

theorem toList_eq_data (bytes : ByteArray) : bytes.toList = bytes.data.toList := by
  have hloop : ∀ i r, ByteArray.toList.loop bytes i r = r.reverse ++ bytes.data.toList.drop i := by
    intro i r
    induction i, r using ByteArray.toList.loop.induct bytes with
    | case1 i r hlt ih =>
        rw [ByteArray.toList.loop, if_pos hlt, ih, List.reverse_cons, List.append_assoc,
          List.drop_eq_getElem_cons (i := i) (by simpa using hlt)]
        simp [ByteArray.get!, getElem!_pos, hlt]
    | case2 i r hge =>
        rw [ByteArray.toList.loop, if_neg hge, List.drop_eq_nil_of_le (by simpa using hge),
          List.append_nil]
  rw [ByteArray.toList, hloop]
  rfl

theorem toUTF8_toList (s : String) : s.toUTF8.toList = utf8 s.toList := by
  rw [toList_eq_data, String.toUTF8_eq_toByteArray, ← String.utf8Encode_toList, List.utf8Encode,
    List.toList_data_toByteArray]
  rfl

end GatoCore.Lib
