import GatoCore.Lib.Machine
import GatoCore.Lib.WordBits
import GatoCore.Stdlib.Numbers

/-!
# The bit set

Source: `bitset` of `specialFactories` in `stdlib/ptstdlib.js`.

The bits are in the words of a `Uint32Array`. The operators of JavaScript take 32 bits with a sign:
a word whose last bit is set is a negative number in between, and so is the index of the word for a
bit from `2 ^ 31` on.
-/

namespace GatoCore.Stdlib

open GatoCore.Lib

/-! ## The operations -/

/-- The buffer of a typed array takes less than 2 GB. -/
def validBufferLength (bytes : ℕ) : Bool := bytes < 2 ^ 31

structure Bitset where
  bits : ℕ
  palavras : List (BitVec 32)
deriving DecidableEq

/-- `none` is the exception of `new Uint32Array`. -/
def bitsetFactory (bits : JsNumber) : Option Bitset :=
  let totalBits := intOr bits 0
  let words := (totalBits + 31) / 32
  if validBufferLength (4 * words) then some ⟨totalBits, List.replicate words 0#32⟩ else none

inductive BitsetOp (ι : Type) where
  | ativar (bit : ι)
  | limpar (bit : ι)
  | alternar (bit : ι)
  | zerar

inductive BitsetAnswer where
  | bool (b : Bool)
  | number (n : ℕ)
deriving DecidableEq

/-- What the operators make of a whole number. -/
def toInt32 (n : ℤ) : BitVec 32 := BitVec.ofInt 32 n

/-- `bit >> 5`. -/
def word (bit : ℕ) : ℤ := ((toInt32 bit).sshiftRight 5).toInt

/-- `1 << (bit & 31)`. -/
def mask (bit : ℕ) : BitVec 32 := 1#32 <<< (toInt32 bit &&& 31#32).toNat

namespace Bitset

def valid (s : Bitset) (bit : ℕ) : Bool := bit < s.bits

/-- `words[i]` as an operand; there is nothing outside the array. -/
def load (s : Bitset) (i : ℤ) : BitVec 32 := if i < 0 then 0#32 else s.palavras.getD i.toNat 0#32

/-- `words[i] = x`; outside the array nothing is stored. -/
def store (s : Bitset) (i : ℤ) (x : BitVec 32) : Bitset :=
  if i < 0 then s else { s with palavras := s.palavras.set i.toNat x }

def ativar (s : Bitset) (bit : JsNumber) : Bitset × Bool :=
  let bit := intOr bit 0
  if s.valid bit then (s.store (word bit) (s.load (word bit) ||| mask bit), true) else (s, false)

def limpar (s : Bitset) (bit : JsNumber) : Bitset × Bool :=
  let bit := intOr bit 0
  if s.valid bit then (s.store (word bit) (s.load (word bit) &&& ~~~mask bit), true) else (s, false)

def alternar (s : Bitset) (bit : JsNumber) : Bitset × Bool :=
  let bit := intOr bit 0
  if s.valid bit then (s.store (word bit) (s.load (word bit) ^^^ mask bit), true) else (s, false)

def contem (s : Bitset) (bit : JsNumber) : Bool :=
  let bit := intOr bit 0
  if s.valid bit then s.load (word bit) &&& mask bit ≠ 0#32 else false

def zerar (s : Bitset) : Bitset := { s with palavras := s.palavras.map fun _ => 0#32 }

/-- The loop `while (value)` of `contar`: `value &= value - 1` leaves a number with a sign. -/
def countBits : ℕ → ℤ → ℕ → Option ℕ
  | 0, _, _ => none
  | fuel + 1, value, total =>
      if value = 0 then some total
      else countBits fuel (toInt32 value &&& toInt32 (value - 1)).toInt (total + 1)

/-- `none` when some word needs more than `fuel` turns of the loop. -/
def contar (fuel : ℕ) (s : Bitset) : Option ℕ :=
  s.palavras.foldlM (fun total value => countBits fuel value.toNat total) 0

end Bitset

def bitsetStep : Machine Bitset (BitsetOp JsNumber) BitsetAnswer
  | s, .ativar bit => ((s.ativar bit).1, .bool (s.ativar bit).2)
  | s, .limpar bit => ((s.limpar bit).1, .bool (s.limpar bit).2)
  | s, .alternar bit => ((s.alternar bit).1, .bool (s.alternar bit).2)
  | s, .zerar => (s.zerar, .number 0)

/-! ## The abstract set -/

/-- A set of numbers below `n`. -/
def setStep (n : ℕ) : Machine (Finset ℕ) (BitsetOp ℕ) BitsetAnswer
  | S, .ativar i => (if i < n then insert i S else S, .bool (i < n))
  | S, .limpar i => (if i < n then S.erase i else S, .bool (i < n))
  | S, .alternar i =>
      (if i < n then (if i ∈ S then S.erase i else insert i S) else S, .bool (i < n))
  | _, .zerar => (∅, .number 0)

/-- An operation of a program, whose argument is a number. -/
def BitsetOp.onNumber : BitsetOp ℕ → BitsetOp JsNumber
  | ativar i => .ativar (.finite i)
  | limpar i => .limpar (.finite i)
  | alternar i => .alternar (.finite i)
  | zerar => .zerar

/-- The number an operation is about. -/
def BitsetOp.target : BitsetOp ℕ → Option ℕ
  | ativar i | limpar i | alternar i => some i
  | zerar => none

@[simp] theorem intOr_natCast (i fallback : ℕ) : intOr (.finite i) fallback = i := by
  have hfloor : (i : ℚ).floor = i := Rat.floor_intCast i
  rw [intOr, hfloor, Int.toNat_natCast]

/-! ## Words and masks -/

theorem toInt_toInt32 {i : ℕ} (h : i < 2 ^ 31) : (toInt32 i).toInt = i := by
  rw [toInt32, BitVec.toInt_ofInt]
  exact Int.bmod_eq_of_le (by omega) (by omega)

theorem word_eq {i : ℕ} (h : i < 2 ^ 31) : word i = (i / 32 : ℕ) := by
  rw [word, BitVec.toInt_sshiftRight, toInt_toInt32 h, Int.shiftRight_eq_div_pow]
  rfl

theorem toNat_and_31 (i : ℕ) : (toInt32 i &&& 31#32).toNat = i % 32 := by
  have h31 : (31#32).toNat = 2 ^ 5 - 1 := rfl
  have hi : (toInt32 i).toNat = i % 2 ^ 32 := by
    rw [toInt32, BitVec.toNat_ofInt]
    omega
  rw [BitVec.toNat_and, h31, Nat.and_two_pow_sub_one_eq_mod, hi]
  omega

theorem getLsbD_mask (i j : ℕ) : (mask i).getLsbD j = decide (j = i % 32) := by
  rw [mask, toNat_and_31, BitVec.getLsbD_shiftLeft]
  have hlt : i % 32 < 32 := Nat.mod_lt _ (by decide)
  by_cases hj : j = i % 32
  · subst hj
    simp [hlt]
  · by_cases hlow : j < i % 32
    · simp [hj, hlow]
    · have : j - i % 32 ≠ 0 := by omega
      simp [hj, this]

/-- A word and a mask have the bit of the mask in common or nothing. -/
theorem and_mask_ne_zero (x : BitVec 32) (i : ℕ) :
    x &&& mask i ≠ 0#32 ↔ x.getLsbD (i % 32) = true := by
  constructor
  · intro h
    by_contra hbit
    apply h
    apply BitVec.eq_of_getLsbD_eq
    intro j _
    rw [BitVec.getLsbD_and, getLsbD_mask, BitVec.getLsbD_zero]
    by_cases hj : j = i % 32
    · rw [hj, Bool.eq_false_iff.mpr hbit, Bool.false_and]
    · rw [decide_eq_false hj, Bool.and_false]
  · intro hbit hzero
    have h := congrArg (fun y => y.getLsbD (i % 32)) hzero
    simp only [BitVec.getLsbD_and, getLsbD_mask, BitVec.getLsbD_zero, hbit, decide_true,
      Bool.and_true, Bool.true_eq_false] at h

/-! ## The representation -/

/-- The words hold the set `S` of numbers below `n`. -/
structure Represents (n : ℕ) (s : Bitset) (S : Finset ℕ) : Prop where
  bits : s.bits = n
  length : s.palavras.length = (n + 31) / 32
  set : wordsSet s.palavras = S
  below : S ⊆ Finset.range n

section Represents

variable {n : ℕ} {s : Bitset} {S : Finset ℕ}

theorem Represents.valid (h : Represents n s S) (i : ℕ) : s.valid i = decide (i < n) := by
  rw [Bitset.valid, h.bits]

theorem Represents.word_lt (h : Represents n s S) {i : ℕ} (hi : i < n) :
    i / 32 < s.palavras.length := by
  rw [h.length]
  omega

theorem load_word (hn : n < 2 ^ 31) {i : ℕ} (hi : i < n) :
    s.load (word i) = s.palavras.getD (i / 32) 0#32 := by
  rw [Bitset.load, word_eq (hi.trans hn), if_neg (by omega), Int.toNat_natCast]

theorem Represents.mem_iff (h : Represents n s S) (i : ℕ) :
    i ∈ S ↔ (s.palavras.getD (i / 32) 0#32).getLsbD (i % 32) = true := by
  rw [← h.set, mem_wordsSet (by decide)]

theorem Represents.contem (h : Represents n s S) (hn : n < 2 ^ 31) (i : ℕ) :
    s.contem (.finite i) = decide (i ∈ S) := by
  rw [Bitset.contem, intOr_natCast, h.valid]
  by_cases hi : i < n
  · rw [decide_eq_true hi, if_pos rfl, load_word hn hi]
    exact decide_eq_decide.mpr ((and_mask_ne_zero _ _).trans (h.mem_iff i).symm)
  · rw [decide_eq_false hi, if_neg Bool.false_ne_true]
    refine (decide_eq_false fun hmem => hi ?_).symm
    exact Finset.mem_range.mp (h.below hmem)

/-- A word is replaced by one that differs in the bit of `i` only. -/
theorem Represents.store (h : Represents n s S) (hn : n < 2 ^ 31) {i : ℕ} (hi : i < n)
    {x : BitVec 32} {T : Finset ℕ} (hT : T ⊆ Finset.range n)
    (hx : ∀ j, x.getLsbD j =
      if j = i % 32 then decide (i ∈ T) else (s.palavras.getD (i / 32) 0#32).getLsbD j)
    (hrest : ∀ j ≠ i, j ∈ T ↔ j ∈ S) : Represents n (s.store (word i) x) T := by
  have hstore : s.store (word i) x = { s with palavras := s.palavras.set (i / 32) x } := by
    rw [Bitset.store, word_eq (hi.trans hn), if_neg (by omega), Int.toNat_natCast]
  rw [hstore]
  refine ⟨h.bits, by rw [List.length_set, h.length], ?_, hT⟩
  ext j
  rw [mem_wordsSet_set (by decide) (h.word_lt hi), hx]
  by_cases hj : j = i
  · subst hj
    simp
  · rw [hrest j hj]
    by_cases hword : j / 32 = i / 32
    · have hbit : j % 32 ≠ i % 32 := fun hbit => hj (ext_place.mpr ⟨hword, hbit⟩)
      rw [if_pos hword, if_neg hbit, h.mem_iff, hword]
    · rw [if_neg hword, h.set]

/-- A set bit, a cleared bit and a toggled bit. -/
theorem Represents.ativar (h : Represents n s S) (hn : n < 2 ^ 31) {i : ℕ} (hi : i < n) :
    Represents n (s.store (word i) (s.load (word i) ||| mask i)) (insert i S) := by
  refine h.store hn hi ?_ ?_ ?_
  · exact Finset.insert_subset (Finset.mem_range.mpr hi) h.below
  · intro j
    rw [load_word hn hi, BitVec.getLsbD_or, getLsbD_mask]
    by_cases hj : j = i % 32
    · simp [hj]
    · simp [hj]
  · intro j hj
    rw [Finset.mem_insert]
    exact or_iff_right hj

theorem Represents.limpar (h : Represents n s S) (hn : n < 2 ^ 31) {i : ℕ} (hi : i < n) :
    Represents n (s.store (word i) (s.load (word i) &&& ~~~mask i)) (S.erase i) := by
  refine h.store hn hi ?_ ?_ ?_
  · exact (Finset.erase_subset i S).trans h.below
  · intro j
    rw [load_word hn hi, BitVec.getLsbD_and, BitVec.getLsbD_not, getLsbD_mask]
    by_cases hj : j = i % 32
    · simp [hj]
    · rw [if_neg hj, decide_eq_false hj]
      by_cases hlt : j < 32
      · simp [hlt]
      · rw [BitVec.getLsbD_of_ge _ _ (by omega), Bool.false_and]
  · intro j hj
    rw [Finset.mem_erase]
    exact and_iff_right hj

theorem Represents.alternar (h : Represents n s S) (hn : n < 2 ^ 31) {i : ℕ} (hi : i < n) :
    Represents n (s.store (word i) (s.load (word i) ^^^ mask i))
      (if i ∈ S then S.erase i else insert i S) := by
  refine h.store hn hi ?_ ?_ ?_
  · split
    · exact (Finset.erase_subset i S).trans h.below
    · exact Finset.insert_subset (Finset.mem_range.mpr hi) h.below
  · intro j
    rw [load_word hn hi, BitVec.getLsbD_xor, getLsbD_mask]
    by_cases hj : j = i % 32
    · subst hj
      rw [if_pos rfl, decide_eq_true rfl, Bool.xor_true]
      by_cases hmem : i ∈ S
      · rw [if_pos hmem, (h.mem_iff i).mp hmem]
        simp
      · rw [if_neg hmem, Bool.eq_false_iff.mpr fun hbit => hmem ((h.mem_iff i).mpr hbit)]
        simp
    · rw [if_neg hj, decide_eq_false hj, Bool.xor_false]
  · intro j hj
    split
    · rw [Finset.mem_erase]
      exact and_iff_right hj
    · rw [Finset.mem_insert]
      exact or_iff_right hj

theorem Represents.zerar (h : Represents n s S) : Represents n s.zerar ∅ := by
  refine ⟨h.bits, by rw [Bitset.zerar, List.length_map, h.length], ?_, Finset.empty_subset _⟩
  rw [Bitset.zerar, List.map_const', wordsSet_replicate_zero (by decide)]

end Represents

/-- Related states answer alike and stay related. -/
theorem bitsetStep_simulates {n : ℕ} (hn : n < 2 ^ 31) :
    Machine.Simulates (Represents n) (bitsetStep.comap BitsetOp.onNumber) (setStep n) := by
  intro s S o h
  cases o with
  | ativar i =>
      show Represents n (s.ativar (.finite i)).1 _ ∧ BitsetAnswer.bool (s.ativar (.finite i)).2 = _
      rw [Bitset.ativar, intOr_natCast, h.valid, setStep]
      by_cases hi : i < n
      · simpa [hi] using h.ativar hn hi
      · simpa [hi] using h
  | limpar i =>
      show Represents n (s.limpar (.finite i)).1 _ ∧ BitsetAnswer.bool (s.limpar (.finite i)).2 = _
      rw [Bitset.limpar, intOr_natCast, h.valid, setStep]
      by_cases hi : i < n
      · simpa [hi] using h.limpar hn hi
      · simpa [hi] using h
  | alternar i =>
      show Represents n (s.alternar (.finite i)).1 _ ∧
        BitsetAnswer.bool (s.alternar (.finite i)).2 = _
      rw [Bitset.alternar, intOr_natCast, h.valid, setStep]
      by_cases hi : i < n
      · simpa [hi] using h.alternar hn hi
      · simpa [hi] using h
  | zerar => exact ⟨h.zerar, rfl⟩

/-! ## Counting -/

/-- A word read as a number, or as a number with a sign, is the word again as an operand. -/
structure Reads (value : ℤ) (x : BitVec 32) : Prop where
  operand : toInt32 value = x
  zero_iff : value = 0 ↔ x = 0#32

theorem reads_toNat (x : BitVec 32) : Reads x.toNat x := by
  constructor
  · rw [toInt32, BitVec.ofInt_natCast, BitVec.ofNat_toNat, BitVec.setWidth_eq]
  · rw [BitVec.toNat_eq]
    simp

theorem reads_toInt (x : BitVec 32) : Reads x.toInt x := by
  constructor
  · exact BitVec.ofInt_toInt
  · rw [← BitVec.toInt_inj]
    simp

theorem Reads.pred {value : ℤ} {x : BitVec 32} (h : Reads value x) :
    toInt32 value &&& toInt32 (value - 1) = x &&& (x - 1#32) := by
  have hpred : toInt32 (value - 1) = toInt32 value - 1#32 := by
    rw [toInt32, sub_eq_add_neg, BitVec.ofInt_add, BitVec.ofInt_neg, ← BitVec.sub_eq_add_neg]
    rfl
  rw [hpred, h.operand]

/-- Each turn of the loop takes one bit away, from the first one on a number with a sign. -/
theorem countBits_eq {fuel : ℕ} : ∀ {value : ℤ} {x : BitVec 32} (total : ℕ), Reads value x →
    (bitsOf x).card < fuel → Bitset.countBits fuel value total =
        some (total + (bitsOf x).card) := by
  induction fuel with
  | zero => exact fun _ _ hfuel => absurd hfuel (Nat.not_lt_zero _)
  | succ fuel ih =>
      intro value x total h hfuel
      rw [Bitset.countBits]
      by_cases hzero : value = 0
      · rw [if_pos hzero, bitsOf_eq_empty.mpr (h.zero_iff.mp hzero)]
        rfl
      · rw [if_neg hzero, h.pred]
        have hcard := card_bitsOf_and_sub_one fun hx => hzero (h.zero_iff.mpr hx)
        rw [ih (total + 1) (reads_toInt _) (by omega)]
        congr 1
        omega

theorem foldlM_countBits {fuel : ℕ} (hfuel : 32 < fuel) (words : List (BitVec 32)) : ∀ total : ℕ,
    words.foldlM (fun total value => Bitset.countBits fuel value.toNat total) total =
      some (total + (words.map fun x => (bitsOf x).card).sum) := by
  induction words with
  | nil => exact fun total => rfl
  | cons x words ih =>
      intro total
      rw [List.foldlM_cons, countBits_eq total (reads_toNat x) ((card_bitsOf_le x).trans_lt hfuel)]
      show words.foldlM _ (total + (bitsOf x).card) = _
      rw [ih, List.map_cons, List.sum_cons, Nat.add_assoc]

theorem Represents.contar {n : ℕ} {s : Bitset} {S : Finset ℕ} (h : Represents n s S) {fuel : ℕ}
    (hfuel : 32 < fuel) : s.contar fuel = some S.card := by
  rw [Bitset.contar, foldlM_countBits hfuel, ← card_wordsSet (by decide), h.set, Nat.zero_add]

/-! ## Runs -/

/-- An operation leaves the numbers it is not about alone, and one about a number that is not below
`n` does nothing. -/
structure Local (n : ℕ) (s : Bitset) (o : BitsetOp ℕ) : Prop where
  refused : ∀ i, o.target = some i → n ≤ i → bitsetStep s o.onNumber = (s, .bool false)
  others : ∀ i, o.target = some i → ∀ j ≠ i,
    (bitsetStep s o.onNumber).1.contem (.finite j) = s.contem (.finite j)

theorem mem_setStep_of_ne {n i : ℕ} {o : BitsetOp ℕ} (ho : o.target = some i) {j : ℕ} (hj : j ≠ i)
    (S : Finset ℕ) : j ∈ (setStep n S o).1 ↔ j ∈ S := by
  cases o with
  | ativar k =>
      cases ho
      show j ∈ (if _ then _ else _) ↔ _
      split
      · exact Finset.mem_insert.trans (or_iff_right hj)
      · exact Iff.rfl
  | limpar k =>
      cases ho
      show j ∈ (if _ then _ else _) ↔ _
      split
      · exact Finset.mem_erase.trans (and_iff_right hj)
      · exact Iff.rfl
  | alternar k =>
      cases ho
      show j ∈ (if _ then (if _ then _ else _) else _) ↔ _
      split
      · split
        · exact Finset.mem_erase.trans (and_iff_right hj)
        · exact Finset.mem_insert.trans (or_iff_right hj)
      · exact Iff.rfl
  | zerar => cases ho

theorem Represents.isLocal {n : ℕ} (hn : n < 2 ^ 31) {s : Bitset} {S : Finset ℕ}
    (h : Represents n s S) (o : BitsetOp ℕ) : Local n s o := by
  constructor
  · intro i ho hi
    have hvalid : s.valid i = false := by
      rw [h.valid]
      exact decide_eq_false (Nat.not_lt.mpr hi)
    cases o with
    | ativar k =>
        cases ho
        simp [BitsetOp.onNumber, bitsetStep, Bitset.ativar, hvalid]
    | limpar k =>
        cases ho
        simp [BitsetOp.onNumber, bitsetStep, Bitset.limpar, hvalid]
    | alternar k =>
        cases ho
        simp [BitsetOp.onNumber, bitsetStep, Bitset.alternar, hvalid]
    | zerar => cases ho
  · intro i ho j hj
    have hnext : Represents n (bitsetStep s o.onNumber).1 (setStep n S o).1 :=
      (bitsetStep_simulates hn s S o h).1
    rw [hnext.contem hn, h.contem hn]
    exact decide_eq_decide.mpr (mem_setStep_of_ne ho hj S)

theorem represents_factory {bits : JsNumber} (hn : intOr bits 0 < 2 ^ 31) :
    ∃ start, bitsetFactory bits = some start ∧ Represents (intOr bits 0) start ∅ := by
  have hvalid : validBufferLength (4 * ((intOr bits 0 + 31) / 32)) = true := by
    rw [validBufferLength, decide_eq_true_iff]
    omega
  refine ⟨_, if_pos hvalid, rfl, List.length_replicate, ?_, Finset.empty_subset _⟩
  exact wordsSet_replicate_zero (by decide) _

/-- A bit set is the set its operations make, and its loop counts the elements. -/
theorem bitset_refines_set (bits : JsNumber) (hn : intOr bits 0 < 2 ^ 31) :
    ∃ start, bitsetFactory bits = some start ∧ ∀ ops : List (BitsetOp ℕ),
      let s := (bitsetStep.run start (ops.map BitsetOp.onNumber)).1
      let S := ((setStep (intOr bits 0)).run ∅ ops).1
      S ⊆ Finset.range (intOr bits 0) ∧
      (bitsetStep.run start (ops.map BitsetOp.onNumber)).2 =
        ((setStep (intOr bits 0)).run ∅ ops).2 ∧
      (∀ i : ℕ, s.contem (.finite i) = decide (i ∈ S)) ∧
      (∀ fuel > 32, s.contar fuel = some S.card) ∧
      ∀ o, Local (intOr bits 0) s o := by
  obtain ⟨start, hstart, hempty⟩ := represents_factory hn
  refine ⟨start, hstart, fun ops => ?_⟩
  obtain ⟨h, hanswers⟩ := (bitsetStep_simulates hn).run hempty ops
  rw [Machine.comap_run] at h hanswers
  exact ⟨h.below, hanswers, h.contem hn, fun fuel hfuel => h.contar hfuel, h.isLocal hn⟩

theorem bitset_refines_set_last_bit :
    ∃ start, bitsetFactory (.finite 32) = some start ∧ ∀ ops : List (BitsetOp ℕ),
      let s := (bitsetStep.run start (ops.map BitsetOp.onNumber)).1
      let S := ((setStep (intOr (.finite 32) 0)).run ∅ ops).1
      S ⊆ Finset.range (intOr (.finite 32) 0) ∧
      (bitsetStep.run start (ops.map BitsetOp.onNumber)).2 =
        ((setStep (intOr (.finite 32) 0)).run ∅ ops).2 ∧
      (∀ i : ℕ, s.contem (.finite i) = decide (i ∈ S)) ∧
      (∀ fuel > 32, s.contar fuel = some S.card) ∧
      ∀ o, Local (intOr (.finite 32) 0) s o :=
  bitset_refines_set (.finite 32) (by decide)

/-- The last bit of a word makes the loop run over negative numbers. -/
example : ((bitsetStep.run ⟨32, [0#32]⟩
    [.ativar (.finite 31), .ativar (.finite 3), .alternar (.finite 3)]).1).contar 33 = some 1 := by
  decide +kernel

end GatoCore.Stdlib
