import Mathlib.Algebra.BigOperators.Group.List.Basic
import Mathlib.Tactic.Common

/-!
# Relative paths up to detours

A sequence of steps through a tree of named nodes, each one up or down, is the same walk as some
steps up followed by some steps down. These normal forms are a monoid under concatenation: going
down and up again cancels, going up and down does not.
-/

namespace GatoCore.Lib

variable {α : Type}

/-- One component of a path. -/
inductive PathStep (α : Type) where
  | up
  | name (a : α)
deriving DecidableEq, Repr

/-- First up, then down. -/
@[ext]
structure RelPath (α : Type) where
  ups : ℕ
  names : List α
deriving DecidableEq, Repr

namespace RelPath

instance : One (RelPath α) := ⟨⟨0, []⟩⟩

/-- The steps up of the second path cancel the last names of the first one. -/
instance : Mul (RelPath α) :=
  ⟨fun p q => ⟨p.ups + (q.ups - p.names.length),
    p.names.take (p.names.length - q.ups) ++ q.names⟩⟩

@[simp] theorem one_ups : (1 : RelPath α).ups = 0 := rfl

@[simp] theorem one_names : (1 : RelPath α).names = [] := rfl

theorem mul_ups (p q : RelPath α) : (p * q).ups = p.ups + (q.ups - p.names.length) := rfl

theorem mul_names (p q : RelPath α) :
    (p * q).names = p.names.take (p.names.length - q.ups) ++ q.names := rfl

theorem mul_assoc' (p q r : RelPath α) : p * q * r = p * (q * r) := by
  ext1
  · simp only [mul_ups, mul_names, List.length_append, List.length_take]
    omega
  · simp only [mul_ups, mul_names, List.length_append, List.length_take, List.take_append,
      List.take_take]
    rw [← List.append_assoc]
    congr 2
    · congr 1
      omega
    · congr 1
      omega

instance : Monoid (RelPath α) where
  mul_assoc := mul_assoc'
  one_mul p := by ext1 <;> simp [mul_ups, mul_names]
  mul_one p := by ext1 <;> simp [mul_ups, mul_names]

/-- Walking a path twice leads where walking it once does when it goes down as far as it goes
up. -/
theorem mul_self_iff (p : RelPath α) : p * p = p ↔ p.names.length = p.ups := by
  constructor
  · intro h
    have hups := congrArg ups h
    have hlen := congrArg (List.length ∘ names) h
    simp only [mul_ups, Function.comp, mul_names, List.length_append, List.length_take] at hups hlen
    omega
  · intro h
    ext1
    · simp [mul_ups, h]
    · simp [mul_names, h]

def ofStep : PathStep α → RelPath α
  | .up => ⟨1, []⟩
  | .name a => ⟨0, [a]⟩

/-- The normal form of a sequence of steps. -/
def reduce (steps : List (PathStep α)) : RelPath α := (steps.map ofStep).prod

@[simp] theorem reduce_nil : reduce ([] : List (PathStep α)) = 1 := rfl

@[simp] theorem reduce_cons (s : PathStep α) (steps : List (PathStep α)) :
    reduce (s :: steps) = ofStep s * reduce steps := by
  simp [reduce]

@[simp] theorem reduce_append (a b : List (PathStep α)) :
    reduce (a ++ b) = reduce a * reduce b := by
  simp [reduce]

/-- The steps of a normal form. -/
def steps (p : RelPath α) : List (PathStep α) :=
  List.replicate p.ups .up ++ p.names.map .name

theorem reduce_replicate_up (n : ℕ) :
    reduce (List.replicate n (.up : PathStep α)) = ⟨n, []⟩ := by
  induction n with
  | zero => rfl
  | succ n ih =>
      rw [List.replicate_succ, reduce_cons, ih]
      ext1
      · simp [ofStep, mul_ups]
        omega
      · simp [ofStep, mul_names]

theorem reduce_map_name (names : List α) : reduce (names.map .name) = ⟨0, names⟩ := by
  induction names with
  | nil => rfl
  | cons a names ih =>
      rw [List.map_cons, reduce_cons, ih]
      ext1 <;> simp [ofStep, mul_ups, mul_names]

@[simp] theorem reduce_steps (p : RelPath α) : reduce p.steps = p := by
  rw [steps, reduce_append, reduce_replicate_up, reduce_map_name]
  ext1 <;> simp [mul_ups, mul_names]

/-- The names of a product come from its factors. -/
theorem mem_names_mul {p q : RelPath α} {a : α} (h : a ∈ (p * q).names) :
    a ∈ p.names ∨ a ∈ q.names := by
  rw [mul_names, List.mem_append] at h
  exact h.imp_left List.mem_of_mem_take

theorem mem_names_reduce {steps : List (PathStep α)} {a : α} (h : a ∈ (reduce steps).names) :
    .name a ∈ steps := by
  induction steps with
  | nil => simp at h
  | cons s steps ih =>
      rw [reduce_cons] at h
      rcases mem_names_mul h with h | h
      · cases s with
        | up => simp [ofStep] at h
        | name b =>
            have : a = b := by simpa [ofStep] using h
            simp [this]
      · exact List.mem_cons_of_mem _ (ih h)

end RelPath

end GatoCore.Lib
