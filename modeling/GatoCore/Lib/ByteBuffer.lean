import Mathlib.Algebra.Ring.Nat
import Mathlib.Data.List.Basic
import Mathlib.Tactic.Common

/-!
# Byte buffers

A buffer of fixed length is read and written at offsets; an access that does not fit in it fails.
Numbers are little-endian.
-/

namespace GatoCore.Lib

/-! ## Numbers -/

/-- The value of little-endian bytes. -/
def leValue : List UInt8 → ℕ
  | [] => 0
  | b :: bs => b.toNat + 256 * leValue bs

/-- The `k` low bytes of a number. -/
def leBytes : ℕ → ℕ → List UInt8
  | 0, _ => []
  | k + 1, n => UInt8.ofNat n :: leBytes k (n / 256)

@[simp] theorem length_leBytes (k n : ℕ) : (leBytes k n).length = k := by
  induction k generalizing n with
  | zero => rfl
  | succ k ih => rw [leBytes, List.length_cons, ih]

theorem leValue_leBytes (k n : ℕ) : leValue (leBytes k n) = n % 256 ^ k := by
  induction k generalizing n with
  | zero => rw [leBytes, leValue, Nat.pow_zero, Nat.mod_one]
  | succ k ih =>
      have hbyte : (UInt8.ofNat n).toNat = n % 256 := UInt8.toNat_ofNat'
      rw [leBytes, leValue, ih, hbyte, Nat.pow_succ', Nat.mod_mul]

/-! ## Accesses -/

variable {α : Type}

/-- The `n` entries from an offset on. -/
def readAt (buffer : List α) (offset n : ℕ) : Option (List α) :=
  if offset + n ≤ buffer.length then some ((buffer.drop offset).take n) else none

/-- The buffer with `data` written from an offset on. -/
def writeAt (buffer : List α) (offset : ℕ) (data : List α) : Option (List α) :=
  if offset + data.length ≤ buffer.length then
    some (buffer.take offset ++ data ++ buffer.drop (offset + data.length))
  else none

theorem readAt_append {before data after : List α} {offset n : ℕ} (hoffset : offset = before.length)
    (hn : n = data.length) : readAt (before ++ data ++ after) offset n = some data := by
  subst hoffset hn
  rw [readAt, if_pos (by simp), List.append_assoc, List.drop_left, List.take_left]

theorem readAt_isSome {buffer : List α} {offset n : ℕ} (h : offset + n ≤ buffer.length) :
    ∃ data, readAt buffer offset n = some data := ⟨_, if_pos h⟩

/-- A write over a part of the same length. -/
theorem writeAt_append {before old after data : List α} {offset : ℕ}
    (hoffset : offset = before.length) (hlen : old.length = data.length) :
    writeAt (before ++ old ++ after) offset data = some (before ++ data ++ after) := by
  subst hoffset
  have hle : before.length + data.length ≤ (before ++ old ++ after).length := by
    rw [List.length_append, List.length_append]
    omega
  have htake : (before ++ old ++ after).take before.length = before := by
    rw [List.append_assoc, List.take_left]
  have hdrop : (before ++ old ++ after).drop (before.length + data.length) = after := by
    rw [← hlen, ← List.length_append, List.drop_left]
  rw [writeAt, if_pos hle, htake, hdrop]

/-- A write at the end of what is written already, into space that is still blank. -/
theorem writeAt_blank {before data : List α} {blank : α} {offset n : ℕ}
    (hoffset : offset = before.length) :
    writeAt (before ++ List.replicate (data.length + n) blank) offset data
      = some (before ++ data ++ List.replicate n blank) := by
  rw [← List.replicate_append_replicate, ← List.append_assoc]
  exact writeAt_append hoffset (List.length_replicate ..)

theorem length_of_writeAt {buffer data out : List α} {offset : ℕ}
    (h : writeAt buffer offset data = some out) : out.length = buffer.length := by
  rw [writeAt] at h
  split at h
  next hle =>
    cases h
    simp only [List.length_append, List.length_take, List.length_drop]
    omega
  next => cases h

/-- A write changes nothing outside its place. -/
theorem getElem?_writeAt {buffer data out : List α} {offset i : ℕ}
    (h : writeAt buffer offset data = some out) (hi : i < offset ∨ offset + data.length ≤ i) :
    out[i]? = buffer[i]? := by
  rw [writeAt] at h
  split at h
  next hle =>
    cases h
    have htake : (buffer.take offset).length = offset := List.length_take_of_le (by omega)
    rw [List.append_assoc]
    rcases hi with hlt | hge
    · rw [List.getElem?_append_left (by omega), List.getElem?_take_of_lt hlt]
    · rw [List.getElem?_append_right (by omega), List.getElem?_append_right (by omega),
        List.getElem?_drop, htake]
      congr 1
      omega
  next => cases h

end GatoCore.Lib
