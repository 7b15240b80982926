import Mathlib.Computability.StateTransition

/-!
# Machines with a call stack

A machine takes its steps in the activation on top of its stack. The activation goes on, calls
another one, or returns a value to the one below. A run that ends with an empty stack is a tree of
activations: between a call and its return the callee runs from its entry to its own return, and
the callers below it are left alone.
-/

namespace GatoCore.Lib

open StateTransition

variable {F V W : Type*}

/-- What a step of an activation does. -/
inductive CallAction (F V W : Type*) where
  | next (f : F) (w : W)
  | call (callee : F) (w : W)
  | ret (v : V) (w : W)

/-- `F` is the type of activations, `V` of the values they return and `W` of what they share. -/
structure CallMachine (F V W : Type*) where
  step : F → W → Option (CallAction F V W)
  /-- The caller after its callee has returned a value. -/
  resume : F → V → Option F

inductive CallStack (F V W : Type*) where
  | running (frames : List F) (w : W)
  | finished (v : V) (w : W)

namespace CallMachine

variable (M : CallMachine F V W)

/-- A value returned to the activation below. -/
def returnTo (v : V) (w : W) : List F → Option (CallStack F V W)
  | [] => some (.finished v w)
  | f :: rest => (M.resume f v).map fun f => .running (f :: rest) w

/-- The configuration after a step of the activation on top of `rest`. -/
def after (f : F) (rest : List F) : CallAction F V W → Option (CallStack F V W)
  | .next f' w => some (.running (f' :: rest) w)
  | .call g w => some (.running (g :: f :: rest) w)
  | .ret v w => M.returnTo v w rest

def next : CallStack F V W → Option (CallStack F V W)
  | .running (f :: rest) w => (M.step f w).bind (M.after f rest)
  | .running [] _ => none
  | .finished _ _ => none

/-- `Completes ok f w v w'`: the activation goes from `f` to its return of `v`, and wherever a step
is taken, in it or in an activation it calls, the activation is `ok`. -/
inductive Completes (ok : F → W → Prop) : F → W → V → W → Prop
  | ret {f : F} {w w' : W} {v : V} : ok f w → M.step f w = some (.ret v w') →
      Completes ok f w v w'
  | next {f f' : F} {w w₁ w' : W} {v : V} : ok f w → M.step f w = some (.next f' w₁) →
      Completes ok f' w₁ v w' → Completes ok f w v w'
  | call {f g f' : F} {w w₁ w₂ w' : W} {u v : V} : ok f w → M.step f w = some (.call g w₁) →
      Completes ok g w₁ u w₂ → M.resume f u = some f' → Completes ok f' w₂ v w' →
      Completes ok f w v w'

/-- The activations of a stack return one after the other. -/
inductive Unwinds (ok : F → W → Prop) : CallStack F V W → V → W → Prop
  | finished {v : V} {w : W} : Unwinds ok (.finished v w) v w
  | running {f : F} {rest : List F} {w w₁ w' : W} {u v : V} {c : CallStack F V W} :
      M.Completes ok f w u w₁ → M.returnTo u w₁ rest = some c → Unwinds ok c v w' →
      Unwinds ok (.running (f :: rest) w) v w'

variable {M} {ok : F → W → Prop}

/-- One step in front of a stack that unwinds. -/
theorem Unwinds.step {f : F} {rest : List F} {w w' : W} {v : V} {c : CallStack F V W}
    (hok : ok f w) (hstep : M.next (.running (f :: rest) w) = some c) (h : M.Unwinds ok c v w') :
    M.Unwinds ok (.running (f :: rest) w) v w' := by
  obtain ⟨action, haction, hafter⟩ := Option.bind_eq_some_iff.mp hstep
  cases action with
  | next f' w₁ =>
      cases hafter
      rcases h with _ | ⟨hf', hreturn, hrest⟩
      exact .running (.next hok haction hf') hreturn hrest
  | call g w₁ =>
      cases hafter
      rcases h with _ | ⟨hg, hreturn, hrest⟩
      obtain ⟨f', hresume, rfl⟩ := Option.map_eq_some_iff.mp hreturn
      rcases hrest with _ | ⟨hf', hreturn', hrest'⟩
      exact .running (.call hok haction hg hresume hf') hreturn' hrest'
  | ret u w₁ => exact .running (.ret hok haction) hafter h

/-- A run to the end unwinds the stack it starts with. -/
theorem unwinds_of_reaches {c : CallStack F V W} {v : V} {w' : W}
    (h : Reaches M.next c (.finished v w'))
    (hok : ∀ f rest w, Reaches M.next c (.running (f :: rest) w) → ok f w) :
    M.Unwinds ok c v w' := by
  induction h using Relation.ReflTransGen.head_induction_on with
  | refl => exact .finished
  | @head c c' hstep _ ih =>
      have ih := ih fun f rest w hreach => hok f rest w (.head hstep hreach)
      cases c with
      | finished u w => cases hstep
      | running frames w =>
          cases frames with
          | nil => cases hstep
          | cons f rest => exact .step (hok f rest w .refl) hstep ih

/-- A run of one activation to the end. -/
theorem completes_of_reaches {f : F} {w w' : W} {v : V}
    (h : Reaches M.next (.running [f] w) (.finished v w'))
    (hok : ∀ g rest u, Reaches M.next (.running [f] w) (.running (g :: rest) u) → ok g u) :
    M.Completes ok f w v w' := by
  rcases unwinds_of_reaches h hok with _ | ⟨hf, hreturn, hrest⟩
  cases hreturn
  cases hrest
  exact hf

end CallMachine

end GatoCore.Lib
