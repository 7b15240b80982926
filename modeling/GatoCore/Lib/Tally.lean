import Mathlib.Algebra.Ring.Nat
import Mathlib.Data.List.Induction
import Mathlib.Data.List.Nodup
import Mathlib.Tactic.Common

/-!
# Tallies

A tally counts keys as they come; a new key is entered at the end with the count one.
-/

namespace GatoCore.Lib

variable {κ : Type} [DecidableEq κ]

/-- `acc[key] = (acc[key] || 0) + 1`. -/
def bump (key : κ) : List (κ × ℕ) → List (κ × ℕ)
  | [] => [(key, 1)]
  | (k, n) :: rest => if k = key then (k, n + 1) :: rest else (k, n) :: bump key rest

def tally (keys : List κ) : List (κ × ℕ) := keys.foldl (fun acc key => bump key acc) []

/-- `acc[key]`. -/
def entry (key : κ) : List (κ × ℕ) → Option ℕ
  | [] => none
  | (k, n) :: rest => if k = key then some n else entry key rest

attribute [local grind =] bump entry

theorem entry_bump (key k : κ) (acc : List (κ × ℕ)) :
    entry k (bump key acc) = if key = k then some ((entry key acc).getD 0 + 1) else
        entry k acc := by
  induction acc with
  | nil => rfl
  | cons first rest ih =>
      obtain ⟨k', n⟩ := first
      rw [bump]
      by_cases h' : k' = key
      · subst h'
        rw [if_pos rfl, entry, entry, entry, if_pos rfl]
        split <;> rfl
      · rw [if_neg h', entry, ih, entry, entry, if_neg h']
        by_cases h : k' = k
        · subst h
          rw [if_pos rfl, if_neg (Ne.symm h'), if_pos rfl]
        · rw [if_neg h, if_neg h]

theorem sum_bump (key : κ) (acc : List (κ × ℕ)) :
    ((bump key acc).map Prod.snd).sum = (acc.map Prod.snd).sum + 1 := by
  induction acc with
  | nil => rfl
  | cons entry rest ih =>
      obtain ⟨k, n⟩ := entry
      rw [bump]
      split
      · simp only [List.map_cons, List.sum_cons]
        omega
      · simp only [List.map_cons, List.sum_cons, ih]
        omega

theorem tally_concat (keys : List κ) (key : κ) : tally (keys ++ [key]) = bump key (tally keys) := by
  rw [tally, List.foldl_append]
  rfl

/-- A key is entered with its count. -/
theorem entry_tally (keys : List κ) (k : κ) :
    entry k (tally keys) = if k ∈ keys then some (keys.countP (· = k)) else none := by
  induction keys using List.reverseRecOn with
  | nil => rfl
  | append_singleton keys key ih =>
      rw [tally_concat, entry_bump]
      by_cases h : key = k
      · subst h
        have hcount : (keys ++ [key]).countP (· = key) = keys.countP (· = key) + 1 := by
          simp [List.countP_append]
        rw [if_pos rfl, ih, if_pos List.mem_concat_self, hcount]
        by_cases hmem : key ∈ keys
        · rw [if_pos hmem]
          rfl
        · have hzero : keys.countP (· = key) = 0 := by
            rw [List.countP_eq_zero]
            rintro k' hk' heq
            exact hmem (of_decide_eq_true heq ▸ hk')
          rw [if_neg hmem, hzero]
          rfl
      · have hcount : (keys ++ [key]).countP (· = k) = keys.countP (· = k) := by
          simp [List.countP_append, h]
        rw [if_neg h, ih, hcount]
        simp [Ne.symm h]

/-- The counts add up to the number of keys. -/
theorem sum_tally (keys : List κ) : ((tally keys).map Prod.snd).sum = keys.length := by
  induction keys using List.reverseRecOn with
  | nil => rfl
  | append_singleton keys key ih =>
      rw [tally_concat, sum_bump, ih, List.length_append]
      rfl

end GatoCore.Lib
