import GatoCore.Lib.CallStack
import GatoCore.Native.AllocCorrect
import GatoCore.Native.EmitCorrect

/-!
# Activations of the intermediate representation

The small steps of a unit are those of a machine with a call stack, so a run of `main` to its end is
a tree of activations. The activations follow the IR with every temp its own place; the allocated
code follows each of them as long as it reads no temp that was lost.
-/

namespace GatoCore.Native

open GatoCore.Lib StateTransition

/-! ## The call machine of a unit -/

section Machine

variable {R : Runtime} {L : Type} [DecidableEq L] (place : Placement L) (unit : IRUnit)

/-- An activation that goes on by itself. -/
def goesOn : Option (Config R L) → Option (CallAction (Frame R L) R.Value R.World)
  | some (.running [f] w) => some (.next f w)
  | _ => none

/-- The effect of one instruction, seen from its activation. -/
def activationStep (f : Frame R L) (w : R.World) :
    Instr → Option (CallAction (Frame R L) R.Value R.World)
  | .call _ symbol args _ => do
      let args ← f.readAll place args
      let fn ← unit.lookup symbol
      return .call (entryFrame fn args) w
  | .ret value _ => do return .ret (← f.read place value) w
  | inst => goesOn (execInstr place unit f [] w inst)

/-- The unit as a machine with a call stack. -/
def activations : CallMachine (Frame R L) R.Value R.World where
  step f w := (f.fn.instructions[f.pc]?).bind (activationStep place unit f w)
  resume f v :=
    match f.fn.instructions[f.pc]? with
    | some (.call dest _ _ _) => f.define place dest v
    | _ => none

def Config.toStack : Config R L → CallStack (Frame R L) R.Value R.World
  | .running frames w => .running frames w
  | .finished v w => .finished v w

variable {place unit}

theorem returnTo_toStack (v : R.Value) (w : R.World) (rest : List (Frame R L)) :
    (activations place unit).returnTo v w rest = (returnTo place v w rest).map Config.toStack := by
  cases rest with
  | nil => rfl
  | cons f rest =>
      rw [CallMachine.returnTo, returnTo]
      dsimp only [activations]
      cases f.fn.instructions[f.pc]? with
      | none => rfl
      | some inst =>
          cases inst with
          | call dest symbol args type =>
              rw [Option.map_map]
              rfl
          | _ => rfl

/-- An instruction that defines a temp. -/
theorem define_toStack (f : Frame R L) (rest : List (Frame R L)) (w : R.World)
    (o : Option (Frame R L)) :
    (goesOn (o.bind fun f => some (Config.running [f] w))).bind
      ((activations place unit).after f rest) =
    (o.bind fun f => some (Config.running (f :: rest) w)).map Config.toStack := by
  cases o <;> rfl

/-- One instruction above the rest of the stack. -/
theorem activationStep_toStack (f : Frame R L) (rest : List (Frame R L)) (w : R.World)
    (inst : Instr) :
    (activationStep place unit f w inst).bind ((activations place unit).after f rest) =
      (execInstr place unit f rest w inst).map Config.toStack := by
  cases inst with
  | call dest symbol args type =>
      simp only [activationStep, execInstr]
      cases f.readAll place args with
      | none => rfl
      | some vals => cases unit.lookup symbol <;> rfl
  | ret value type =>
      simp only [activationStep, execInstr]
      cases f.read place value with
      | none => rfl
      | some v => exact returnTo_toStack v w rest
  | constInt dest value type => exact define_toStack f rest w _
  | constStr dest label =>
      simp only [activationStep, execInstr]
      cases R.address unit.consts label with
      | none => rfl
      | some v => exact define_toStack f rest w _
  | constPtr dest label type =>
      simp only [activationStep, execInstr]
      cases R.address unit.consts label with
      | none => rfl
      | some v => exact define_toStack f rest w _
  | loadLocal dest slot type =>
      simp only [activationStep, execInstr]
      cases f.locals slot with
      | none => rfl
      | some v => exact define_toStack f rest w _
  | storeLocal slot type value =>
      simp only [activationStep, execInstr]
      cases f.read place value <;> rfl
  | neg dest value =>
      simp only [activationStep, execInstr]
      cases f.readWord place value with
      | none => rfl
      | some x => exact define_toStack f rest w _
  | not dest value =>
      simp only [activationStep, execInstr]
      cases f.readWord place value with
      | none => rfl
      | some x => exact define_toStack f rest w _
  | bin dest op left right =>
      simp only [activationStep, execInstr]
      cases f.readWord place left with
      | none => rfl
      | some a =>
          cases f.readWord place right with
          | none => rfl
          | some b =>
              simp only [Option.bind_eq_bind, Option.bind_some]
              cases op.eval a b with
              | none => rfl
              | some v => exact define_toStack f rest w _
  | cmp dest cmp left right =>
      simp only [activationStep, execInstr]
      cases f.readWord place left with
      | none => rfl
      | some a =>
          cases f.readRight place right with
          | none => rfl
          | some b => exact define_toStack f rest w _
  | callRuntime dest symbol args type =>
      simp only [activationStep, execInstr]
      cases f.readAll place args with
      | none => rfl
      | some vals =>
          simp only [Option.bind_eq_bind, Option.bind_some]
          cases R.call symbol vals w with
          | none => rfl
          | some result => exact define_toStack f rest result.2 _
  | print value type =>
      simp only [activationStep, execInstr]
      cases f.read place value with
      | none => rfl
      | some v =>
          simp only [Option.bind_eq_bind, Option.bind_some]
          cases R.call (.print type) [v] w <;> rfl
  | label name => rfl
  | jmp label => exact define_toStack f rest w _
  | br cond thenLabel elseLabel =>
      simp only [activationStep, execInstr]
      cases f.readWord place cond with
      | none => rfl
      | some x => exact define_toStack f rest w _

theorem next_toStack (c : Config R L) :
    (activations place unit).next c.toStack = (step place unit c).map Config.toStack := by
  cases c with
  | finished v w => rfl
  | running frames w =>
      cases frames with
      | nil => rfl
      | cons f rest =>
          rw [Config.toStack, CallMachine.next, step, activations]
          dsimp only
          cases f.fn.instructions[f.pc]? with
          | none => rfl
          | some inst => exact activationStep_toStack f rest w inst

theorem reaches_toStack {c c' : Config R L} (h : Reaches (step place unit) c c') :
    Reaches (activations place unit).next c.toStack c'.toStack := by
  induction h with
  | refl => exact .refl
  | @tail b d _ hstep ih =>
      refine ih.tail ?_
      rw [Option.mem_def, next_toStack, show step place unit b = some d from hstep]
      rfl

/-- The configurations of the call machine are those of the unit. -/
theorem reaches_of_toStack {c : Config R L} {s : CallStack (Frame R L) R.Value R.World}
    (h : Reaches (activations place unit).next c.toStack s) :
    ∃ c', s = c'.toStack ∧ Reaches (step place unit) c c' := by
  induction h with
  | refl => exact ⟨c, rfl, .refl⟩
  | tail _ hstep ih =>
      obtain ⟨b, rfl, hb⟩ := ih
      rw [Option.mem_def, next_toStack] at hstep
      obtain ⟨d, hd, rfl⟩ := Option.map_eq_some_iff.mp hstep
      exact ⟨d, rfl, hb.tail hd⟩

theorem define_fn {f f' : Frame R L} {t : ℕ} {v : R.Value} (h : f.define place t v = some f') :
    f'.fn = f.fn := by
  obtain ⟨l, -, rfl⟩ := Option.map_eq_some_iff.mp h
  rfl

omit [DecidableEq L] in
theorem jump_fn {f f' : Frame R L} {l : Label} (h : f.jump l = some f') : f'.fn = f.fn := by
  obtain ⟨i, -, rfl⟩ := Option.map_eq_some_iff.mp h
  rfl

omit [DecidableEq L] in
/-- A definition that is the whole effect of an instruction. -/
theorem fn_of_define {o : Option (Frame R L)} {f f' : Frame R L} {w w' : R.World}
    (ho : ∀ f₁, o = some f₁ → f₁.fn = f.fn)
    (h : (o.bind fun f => some (Config.running [f] w)) = some (.running [f'] w')) :
    f'.fn = f.fn := by
  obtain ⟨f₁, hf₁, h⟩ := Option.bind_eq_some_iff.mp h
  cases h
  exact ho _ hf₁

omit [DecidableEq L] in
theorem goesOn_eq_some {c : Option (Config R L)} {f : Frame R L} {w : R.World}
    (h : goesOn c = some (.next f w)) : c = some (.running [f] w) := by
  unfold goesOn at h
  split at h
  · cases h
    rfl
  · cases h

omit [DecidableEq L] in
/-- It neither returns nor calls. -/
theorem goesOn_next {c : Option (Config R L)} {action : CallAction (Frame R L) R.Value R.World}
    (h : goesOn c = some action) : ∃ f w, action = .next f w := by
  unfold goesOn at h
  split at h
  · cases h
    exact ⟨_, _, rfl⟩
  · cases h

/-- An instruction that goes on in its activation. -/
theorem activationStep_next {f f' : Frame R L} {w w' : R.World} {inst : Instr}
    (h : activationStep place unit f w inst = some (.next f' w')) :
    execInstr place unit f [] w inst = some (.running [f'] w') ∧
      (∀ dest symbol args type, inst ≠ .call dest symbol args type) ∧
      ∀ value type, inst ≠ .ret value type := by
  cases inst with
  | call dest symbol args type =>
      obtain ⟨vals, -, h⟩ := Option.bind_eq_some_iff.mp h
      obtain ⟨fn, -, h⟩ := Option.bind_eq_some_iff.mp h
      cases h
  | ret value type =>
      obtain ⟨v, -, h⟩ := Option.bind_eq_some_iff.mp h
      cases h
  | _ => exact ⟨goesOn_eq_some h, by simp, by simp⟩

/-- An activation that returns. -/
theorem activationStep_ret {f : Frame R L} {w w' : R.World} {v : R.Value} {inst : Instr}
    (h : activationStep place unit f w inst = some (.ret v w')) :
    ∃ value type, inst = .ret value type ∧ f.read place value = some v ∧ w' = w := by
  cases inst with
  | ret value type =>
      obtain ⟨u, hu, h⟩ := Option.bind_eq_some_iff.mp h
      cases h
      exact ⟨value, type, rfl, hu, rfl⟩
  | call dest symbol args type =>
      obtain ⟨vals, -, h⟩ := Option.bind_eq_some_iff.mp h
      obtain ⟨fn, -, h⟩ := Option.bind_eq_some_iff.mp h
      cases h
  | label name => cases h
  | _ =>
      obtain ⟨f', w₁, hnext⟩ := goesOn_next h
      cases hnext

/-- An activation that calls another one. -/
theorem activationStep_call {f g : Frame R L} {w w' : R.World} {inst : Instr}
    (h : activationStep place unit f w inst = some (.call g w')) :
    ∃ dest symbol args type vals fn, inst = .call dest symbol args type ∧
      f.readAll place args = some vals ∧ unit.lookup symbol = some fn ∧
      g = entryFrame fn vals ∧ w' = w := by
  cases inst with
  | ret value type =>
      obtain ⟨u, -, h⟩ := Option.bind_eq_some_iff.mp h
      cases h
  | call dest symbol args type =>
      obtain ⟨vals, hvals, h⟩ := Option.bind_eq_some_iff.mp h
      obtain ⟨fn, hfn, h⟩ := Option.bind_eq_some_iff.mp h
      cases h
      exact ⟨dest, symbol, args, type, vals, fn, rfl, hvals, hfn, rfl, rfl⟩
  | label name => cases h
  | _ =>
      obtain ⟨f', w₁, hnext⟩ := goesOn_next h
      cases hnext

/-- It stays in its function. -/
theorem activationStep_fn {f f' : Frame R L} {w w' : R.World} {inst : Instr}
    (h : activationStep place unit f w inst = some (.next f' w')) : f'.fn = f.fn := by
  obtain ⟨hexec, hcall, hret⟩ := activationStep_next h
  have hdefine : ∀ {t v} f₁, f.define place t v = some f₁ → f₁.fn = f.fn := fun _ h => define_fn h
  have hjump : ∀ {l} f₁, f.jump l = some f₁ → f₁.fn = f.fn := fun _ h => jump_fn h
  cases inst with
  | call dest symbol args type => exact absurd rfl (hcall _ _ _ _)
  | ret value type => exact absurd rfl (hret _ _)
  | constInt dest value type => exact fn_of_define hdefine hexec
  | constStr dest label =>
      obtain ⟨v, -, hexec⟩ := Option.bind_eq_some_iff.mp hexec
      exact fn_of_define hdefine hexec
  | constPtr dest label type =>
      obtain ⟨v, -, hexec⟩ := Option.bind_eq_some_iff.mp hexec
      exact fn_of_define hdefine hexec
  | loadLocal dest slot type =>
      obtain ⟨v, -, hexec⟩ := Option.bind_eq_some_iff.mp hexec
      exact fn_of_define hdefine hexec
  | storeLocal slot type value =>
      obtain ⟨v, -, hexec⟩ := Option.bind_eq_some_iff.mp hexec
      cases hexec
      rfl
  | neg dest value =>
      obtain ⟨x, -, hexec⟩ := Option.bind_eq_some_iff.mp hexec
      exact fn_of_define hdefine hexec
  | not dest value =>
      obtain ⟨x, -, hexec⟩ := Option.bind_eq_some_iff.mp hexec
      exact fn_of_define hdefine hexec
  | bin dest op left right =>
      obtain ⟨a, -, hexec⟩ := Option.bind_eq_some_iff.mp hexec
      obtain ⟨b, -, hexec⟩ := Option.bind_eq_some_iff.mp hexec
      obtain ⟨v, -, hexec⟩ := Option.bind_eq_some_iff.mp hexec
      exact fn_of_define hdefine hexec
  | cmp dest cmp left right =>
      obtain ⟨a, -, hexec⟩ := Option.bind_eq_some_iff.mp hexec
      obtain ⟨b, -, hexec⟩ := Option.bind_eq_some_iff.mp hexec
      exact fn_of_define hdefine hexec
  | callRuntime dest symbol args type =>
      obtain ⟨vals, -, hexec⟩ := Option.bind_eq_some_iff.mp hexec
      obtain ⟨result, -, hexec⟩ := Option.bind_eq_some_iff.mp hexec
      exact fn_of_define hdefine hexec
  | print value type =>
      obtain ⟨v, -, hexec⟩ := Option.bind_eq_some_iff.mp hexec
      obtain ⟨result, -, hexec⟩ := Option.bind_eq_some_iff.mp hexec
      cases hexec
      rfl
  | label name =>
      cases hexec
      rfl
  | jmp label => exact fn_of_define hjump hexec
  | br cond thenLabel elseLabel =>
      obtain ⟨x, -, hexec⟩ := Option.bind_eq_some_iff.mp hexec
      exact fn_of_define hjump hexec

/-- A run of an activation to the end of the unit, `ok` in every configuration on the way. -/
theorem completes_of_reaches_finished {ok : Frame R L → R.World → Prop} {f : Frame R L}
    {w w' : R.World} {v : R.Value}
    (h : Reaches (step place unit) (.running [f] w) (.finished v w'))
    (hok : ∀ g rest u, Reaches (step place unit) (.running [f] w) (.running (g :: rest) u) →
      ok g u) : (activations place unit).Completes ok f w v w' := by
  refine CallMachine.completes_of_reaches (reaches_toStack h) ?_
  intro g rest u hreach
  obtain ⟨c, hc, hreach⟩ : ∃ c, _ = Config.toStack c ∧ _ :=
    reaches_of_toStack (show Reaches _ (Config.running [f] w).toStack _ from hreach)
  cases c with
  | finished _ _ => cases hc
  | running frames _ =>
      cases hc
      exact hok g rest u hreach

end Machine

end GatoCore.Native
