import Mathlib.Data.Fin.Basic
import Mathlib.Data.ZMod.Defs
import Mathlib.Logic.Function.Basic
import Mathlib.Tactic.Common

/-!
# Rings of cells

`n` cells filled in turn: the cell filled first is filled again after `n` more. What was written
stays there, however long one waits, exactly when the values written are periodic.
-/

namespace GatoCore.Lib

/-- The cells, and the one filled next. -/
structure Ring (n : ℕ) (α : Type) where
  cells : Fin n → α
  next : Fin n

namespace Ring

variable {n : ℕ} {α : Type}

/-- Entries `n` apart are equal. -/
def Periodic (n : ℕ) (xs : List α) : Prop :=
  ∀ i x y, xs[i]? = some x → xs[i + n]? = some y → x = y

theorem Periodic.of_dvd {xs : List α} (h : Periodic n xs) {i j : ℕ} {x y : α}
    (hx : xs[i]? = some x) (hy : xs[i + j]? = some y) (hdvd : n ∣ j) : x = y := by
  obtain ⟨k, rfl⟩ := hdvd
  induction k generalizing y with
  | zero => simpa [hx] using hy
  | succ k ih =>
      have hidx : i + n * (k + 1) = i + n * k + n := by rw [Nat.mul_succ, Nat.add_assoc]
      rw [hidx] at hy
      have hlt : i + n * k < xs.length := by
        have := (List.getElem?_eq_some_iff.mp hy).1
        omega
      have hz : xs[i + n * k]? = some xs[i + n * k] := List.getElem?_eq_getElem hlt
      exact (ih hz).trans (h _ _ _ hz hy)

variable [NeZero n]

def push (r : Ring n α) (x : α) : Ring n α :=
  ⟨Function.update r.cells r.next x, r.next + 1⟩

def pushAll (r : Ring n α) (xs : List α) : Ring n α := xs.foldl push r

@[simp] theorem pushAll_nil (r : Ring n α) : r.pushAll [] = r := rfl

@[simp] theorem pushAll_cons (r : Ring n α) (x : α) (xs : List α) :
    r.pushAll (x :: xs) = (r.push x).pushAll xs := rfl

theorem pushAll_append (r : Ring n α) (xs ys : List α) :
    r.pushAll (xs ++ ys) = (r.pushAll xs).pushAll ys := List.foldl_append

@[simp] theorem push_cells_next (r : Ring n α) (x : α) : (r.push x).cells r.next = x := by
  simp [push]

/-- The next cell after some pushes. -/
theorem pushAll_next (r : Ring n α) (xs : List α) :
    ((r.pushAll xs).next : ℕ) = (r.next + xs.length) % n := by
  induction xs generalizing r with
  | nil => simp [Nat.mod_eq_of_lt r.next.isLt]
  | cons x xs ih =>
      rw [pushAll_cons, ih]
      simp only [push, Fin.val_add, List.length_cons]
      rw [Fin.val_one', Nat.add_mod_mod, Nat.mod_add_mod]
      congr 1
      omega

/-- Two pushes fill the same cell when a multiple of `n` lies between them. -/
theorem pushAll_next_eq_iff (r : Ring n α) (xs : List α) :
    (r.pushAll xs).next = r.next ↔ n ∣ xs.length := by
  rw [Fin.ext_iff, pushAll_next]
  have hlt : (r.next : ℕ) % n = r.next := Nat.mod_eq_of_lt r.next.isLt
  constructor
  · intro h
    have hmod : r.next + xs.length ≡ r.next + 0 [MOD n] := by
      rw [Nat.ModEq, h, Nat.add_zero, hlt]
    exact (Nat.modEq_zero_iff_dvd).mp (Nat.ModEq.add_left_cancel' _ hmod)
  · intro h
    rw [Nat.add_mod, Nat.mod_eq_zero_of_dvd h, Nat.add_zero, Nat.mod_mod, hlt]

/-- What was pushed is in its cell at every later moment. -/
def Kept (r : Ring n α) (xs : List α) : Prop :=
  ∀ pre x mid post, xs = pre ++ x :: (mid ++ post) →
    (r.pushAll (pre ++ x :: mid)).cells (r.pushAll pre).next = x

/-- A push fills the cell of an earlier one when `n` divides their distance, and leaves it alone
otherwise. -/
theorem cells_pushAll_concat (r : Ring n α) (x y : α) (mid : List α) :
    (r.pushAll (x :: (mid ++ [y]))).cells r.next =
      if n ∣ mid.length + 1 then y else (r.pushAll (x :: mid)).cells r.next := by
  rw [← List.cons_append, pushAll_append, pushAll_cons, pushAll_nil]
  have hnext := pushAll_next_eq_iff r (x :: mid)
  rw [List.length_cons] at hnext
  simp only [push]
  by_cases hdvd : n ∣ mid.length + 1
  · rw [if_pos hdvd, hnext.mpr hdvd, Function.update_self]
  · have hne : r.next ≠ (r.pushAll (x :: mid)).next := fun heq => hdvd (hnext.mp heq.symm)
    rw [if_neg hdvd, Function.update_of_ne hne]

theorem Kept.periodic {r : Ring n α} {xs : List α} (h : r.Kept xs) : Periodic n xs := by
  intro i x y hx hy
  obtain ⟨hi, rfl⟩ := List.getElem?_eq_some_iff.mp hx
  obtain ⟨hj, rfl⟩ := List.getElem?_eq_some_iff.mp hy
  -- the values between the two, and then the later of them
  have hn : 0 < n := Nat.pos_of_ne_zero (NeZero.ne n)
  have hrest : xs.drop (i + 1) =
      (xs.drop (i + 1)).take (n - 1) ++ xs[i + n] :: xs.drop (i + n + 1) := by
    have hdrop : (xs.drop (i + 1)).drop (n - 1) = xs[i + n] :: xs.drop (i + n + 1) := by
      rw [List.drop_drop, ← List.drop_eq_getElem_cons hj]
      congr 1
      omega
    rw [← hdrop, List.take_append_drop]
  have hsplit : xs = xs.take i ++ xs[i] ::
      (((xs.drop (i + 1)).take (n - 1) ++ [xs[i + n]]) ++ xs.drop (i + n + 1)) := by
    rw [List.append_assoc, List.singleton_append, ← hrest, ← List.drop_eq_getElem_cons hi,
      List.take_append_drop]
  have hlen : ((xs.drop (i + 1)).take (n - 1)).length + 1 = n := by
    rw [List.length_take, List.length_drop]
    omega
  have hkept := h _ _ _ _ hsplit
  rw [pushAll_append, cells_pushAll_concat, hlen, if_pos dvd_rfl] at hkept
  exact hkept.symm

theorem Periodic.kept {xs : List α} (h : Periodic n xs) (r : Ring n α) : r.Kept xs := by
  rintro pre x mid post hxs
  rw [pushAll_append]
  -- by the number of values pushed after `x`
  induction mid using List.reverseRecOn generalizing post with
  | nil => simp
  | append_singleton mid y ih =>
      rw [cells_pushAll_concat]
      split
      · rename_i hdvd
        have hx : xs[pre.length]? = some x := by simp [hxs]
        have hy : xs[pre.length + (mid.length + 1)]? = some y := by
          rw [hxs]
          simp
        exact (h.of_dvd hx hy hdvd).symm
      · exact ih (y :: post) (by simpa using hxs)

/-- What is pushed stays in its cell exactly when it is periodic. -/
theorem kept_iff_periodic (r : Ring n α) (xs : List α) : r.Kept xs ↔ Periodic n xs :=
  ⟨Kept.periodic, fun h => h.kept r⟩

end Ring

end GatoCore.Lib
