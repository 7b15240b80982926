import GatoCore.Lib.Word64
import GatoCore.Native.LowerCorrect
import GatoCore.Native.StaticTypes

/-!
# Operands of a logical operator

Source: `lowerExpr` for `&&` and `||`, of `compiler/ptjs_native.js`.

The code of `a && b` is that of `a`, then that of `b`, then the conjunction: there is no branch, so
`b` is evaluated whatever `a` gave. This module says when that shows: what the code of an operand
does first of what another activation or the user can see. An `identificar` shows too, since the
texts of the runtime's earlier answers stand in the buffers it writes.
-/

namespace GatoCore.Native

open Relation GatoCore.Lib

variable {R : Runtime} {unit : IRUnit}

/-! ## Evaluation up to the first effect -/

/-- How the evaluation of an operand goes: to a value, to a call, an `observar`, an `identificar` or
a division that traps, or to a variable without a value or a function of the runtime without a
result. -/
inductive Quiet (R : Runtime) (α : Type) where
  | value (a : α) (w : R.World)
  | effect
  | stuck

def Quiet.andThen {α β : Type} (q : Quiet R α) (k : α → R.World → Quiet R β) : Quiet R β :=
  match q with
  | .value a w => k a w
  | .effect => .effect
  | .stuck => .stuck

def Quiet.ofOption {α : Type} : Option (α × R.World) → Quiet R α
  | some (a, w) => .value a w
  | none => .stuck

/-- A function of the runtime that prints or writes in a buffer of the runtime. `identificar` of a
null answers a constant. -/
def RuntimeFn.isVisible : RuntimeFn → Bool
  | .print _ | .observar _ | .stringCharAt => true
  | .identificar type => type ≠ .null
  | _ => false

/-- A unary operator whose function of the runtime is visible, on a value of a static type. -/
def UnaryOp.isVisible (op : UnaryOp) (type : Option Ty) : Bool :=
  match op with
  | .identificar => (RuntimeFn.identificar (runtimeTypeOf type)).isVisible
  | .observar => (RuntimeFn.observar (runtimeTypeOf type)).isVisible
  | _ => false

/-- A unary operator on a value of a static type. -/
def quietUnary (op : UnaryOp) (type : Option Ty) (v : R.Value) (w : R.World) :
    Option (R.Value × R.World) :=
  match op with
  | .neg => (R.toWord v).map fun x => (R.ofWord (-x), w)
  | .not => (R.toWord v).map fun x => (R.ofWord (wordOfBool (x = 0)), w)
  | .tamanhoDe => R.call (lengthFn type) [v] w
  | .tipoDe => some (R.text (typeDisplayName type), w)
  | .identificar => R.call (.identificar (runtimeTypeOf type)) [v] w
  | .observar => R.call (.observar (runtimeTypeOf type)) [v] w

/-- Whether an operator is a division that traps on two values. -/
def traps (op : BinaryOp) (a b : R.Value) : Bool :=
  (op = .div || op = .mod) &&
    ((R.toWord a).bind fun x => (R.toWord b).map fun y => divFaults x y) = some true

theorem lengthFn_isVisible (type : Option Ty) : (lengthFn type).isVisible = false := by
  unfold lengthFn
  split <;> rfl

def quietBinary (op : BinaryOp) (a b : R.Value) : Option R.Value := do
  let x ← R.toWord a
  let y ← R.toWord b
  match op.cmpOp, op.binOp with
  | some cmp, _ => return R.ofWord (wordOfBool (cmp.eval x y))
  | none, some bin => return R.ofWord (← bin.eval x y)
  | none, none => none

/-- What the evaluator reads of its surroundings. -/
structure Surroundings (R : Runtime) where
  table : FunctionTable
  types : String → Option (Option Ty)
  valueOf : String → Option R.Value

mutual
/-- An expression evaluated with its operands from left to right, up to the first effect. -/
def quietly (s : Surroundings R) : Expr → R.World → Quiet R R.Value
  | .identifier name, w => .ofOption ((s.valueOf name).map (·, w))
  | .unary op e, w => (quietly s e w).andThen fun v w =>
      if op.isVisible (e.staticType s.table s.types) then .effect
      else .ofOption (quietUnary op (e.staticType s.table s.types) v w)
  | .binary op l r, w => (quietly s l w).andThen fun a w => (quietly s r w).andThen fun b w =>
      if traps op a b then .effect else .ofOption ((quietBinary op a b).map (·, w))
  | .call _ args, w => (quietlyArgs s args w).andThen fun _ _ => .effect
  | literal, w => .ofOption (literal.const?.map fun c => (R.const c, w))

def quietlyArgs (s : Surroundings R) : List Expr → R.World → Quiet R (List R.Value)
  | [], w => .value [] w
  | arg :: args, w => (quietly s arg w).andThen fun v w =>
      (quietlyArgs s args w).andThen fun vs w => .value (v :: vs) w
end

/-! ## Effects of a code -/

/-- An instruction the activation is about to run that others can see. -/
def IsEffect (f : Frame R ℕ) : Instr → Prop
  | .call _ _ _ _ | .print _ _ => True
  | .callRuntime _ fn _ _ => fn.isVisible
  | .bin _ bin left right => (bin = .div ∨ bin = .mod) ∧
      ∃ x y, f.readWord tempPlacement left = some x ∧ f.readWord tempPlacement right = some y ∧
        divFaults x y
  | _ => False

def AtEffect (f : Frame R ℕ) : Prop :=
  ∃ inst, f.fn.instructions[f.pc]? = some inst ∧ IsEffect f inst

section Runs

variable (unit : IRUnit) (rest : List (Frame R ℕ)) (stop : ℕ)

/-- A step of the activation inside the code before `stop`. -/
def InsideStep (p q : Frame R ℕ × R.World) : Prop :=
  p.1.pc < stop ∧
    step tempPlacement unit (.running (p.1 :: rest) p.2) = some (.running (q.1 :: rest) q.2)

/-- The activation comes to an effect before it leaves the code before `stop`. -/
def EffectOccurs (f : Frame R ℕ) (w : R.World) : Prop :=
  ∃ q, ReflTransGen (InsideStep unit rest stop) (f, w) q ∧ q.1.pc < stop ∧ AtEffect q.1

/-- A run inside the code without effects. -/
def Calm : Frame R ℕ × R.World → Frame R ℕ × R.World → Prop :=
  ReflTransGen fun p q => InsideStep unit rest stop p q ∧ ¬AtEffect p.1

/-- A code does what a quiet evaluation says: it runs calmly to a value, or to an effect, or to
where it has no step. -/
def Comes {α : Type} (f : Frame R ℕ) (w : R.World) (result : α → Frame R ℕ → Prop) :
    Quiet R α → Prop
  | .value a w' => ∃ f', Calm unit rest stop (f, w) (f', w') ∧ result a f'
  | .effect => ∃ q, Calm unit rest stop (f, w) q ∧ q.1.pc < stop ∧ AtEffect q.1
  | .stuck => ∃ q, Calm unit rest stop (f, w) q ∧ ¬AtEffect q.1 ∧
      step tempPlacement unit (.running (q.1 :: rest) q.2) = none

end Runs

section Rules

variable {rest : List (Frame R ℕ)} {stop : ℕ} {f : Frame R ℕ} {w : R.World}

theorem InsideStep.mono {stop' : ℕ} (h : stop ≤ stop') {p q : Frame R ℕ × R.World}
    (hstep : InsideStep unit rest stop p q) : InsideStep unit rest stop' p q :=
  ⟨hstep.1.trans_le h, hstep.2⟩

theorem InsideStep.unique {p q q' : Frame R ℕ × R.World} (h : InsideStep unit rest stop p q)
    (h' : InsideStep unit rest stop p q') : q = q' := by
  have heq := h.2.symm.trans h'.2
  obtain ⟨f₁, w₁⟩ := q
  obtain ⟨f₂, w₂⟩ := q'
  cases heq
  rfl

theorem Calm.mono {stop' : ℕ} (h : stop ≤ stop') {p q : Frame R ℕ × R.World}
    (hcalm : Calm unit rest stop p q) : Calm unit rest stop' p q := by
  refine ReflTransGen.mono ?_ _ _ hcalm
  rintro p q ⟨hstep, hquiet⟩
  exact ⟨hstep.mono h, hquiet⟩

theorem Calm.reaches {p q : Frame R ℕ × R.World} (hcalm : Calm unit rest stop p q) :
    ReflTransGen (InsideStep unit rest stop) p q := by
  refine ReflTransGen.mono ?_ _ _ hcalm
  rintro p q ⟨hstep, -⟩
  exact hstep

/-- A calm run that cannot go on inside the code has come to no effect. -/
theorem Calm.not_effectOccurs {q : Frame R ℕ × R.World} (h : Calm unit rest stop (f, w) q)
    (hq : q.1.pc < stop → ¬AtEffect q.1 ∧
      step tempPlacement unit (.running (q.1 :: rest) q.2) = none) :
    ¬EffectOccurs unit rest stop f w := by
  rintro ⟨g, hreach, hlt, heffect⟩
  suffices hends : ∀ p, Calm unit rest stop p q →
      ReflTransGen (InsideStep unit rest stop) p g → False from hends _ h hreach
  intro p hcalm
  induction hcalm using ReflTransGen.head_induction_on with
  | refl =>
      intro hreach
      rcases ReflTransGen.cases_head hreach with rfl | ⟨r, hstep, -⟩
      · exact (hq hlt).1 heffect
      · have hnone := (hq hstep.1).2.symm.trans hstep.2
        cases hnone
  | head hstep _ ih =>
      intro hreach
      rcases ReflTransGen.cases_head hreach with rfl | ⟨r, hstep', hrest⟩
      · exact hstep.2 heffect
      · exact ih (hstep.1.unique hstep' ▸ hrest)

/-- A code that does what a quiet evaluation says has an effect exactly when the evaluation has. -/
theorem Comes.effectOccurs_iff {α : Type} {result : α → Frame R ℕ → Prop} {q : Quiet R α}
    (h : Comes unit rest stop f w result q) (hresult : ∀ a f', result a f' → f'.pc = stop) :
    EffectOccurs unit rest stop f w ↔ q = .effect := by
  cases q with
  | value a w' =>
      obtain ⟨f', hcalm, hf'⟩ := h
      have hnot := hcalm.not_effectOccurs fun hlt => absurd (hresult a f' hf') hlt.ne
      exact ⟨fun heffect => absurd heffect hnot, nofun⟩
  | effect =>
      obtain ⟨g, hcalm, hlt, heffect⟩ := h
      exact ⟨fun _ => rfl, fun _ => ⟨g, hcalm.reaches, hlt, heffect⟩⟩
  | stuck =>
      obtain ⟨g, hcalm, hnot, hnone⟩ := h
      exact ⟨fun heffect => absurd heffect (hcalm.not_effectOccurs fun _ => ⟨hnot, hnone⟩), nofun⟩

/-- One code after another. -/
theorem Comes.andThen {α β : Type} {stop' : ℕ} {first : α → Frame R ℕ → Prop}
    {second : β → Frame R ℕ → Prop} {q : Quiet R α} {k : α → R.World → Quiet R β}
    (h : Comes unit rest stop f w first q) (hle : stop ≤ stop')
    (hk : ∀ a f' w', first a f' → Comes unit rest stop' f' w' second (k a w')) :
    Comes unit rest stop' f w second (q.andThen k) := by
  cases q with
  | value a w' =>
      obtain ⟨f', hcalm, hf'⟩ := h
      have hcalm := hcalm.mono hle
      show Comes unit rest stop' f w second (k a w')
      have hnext := hk a f' w' hf'
      -- the second part starts where the first one came to its end
      cases hkq : k a w' with
      | value b w₂ =>
          rw [hkq] at hnext
          obtain ⟨f₂, hcalm₂, hf₂⟩ := hnext
          exact ⟨f₂, hcalm.trans hcalm₂, hf₂⟩
      | effect =>
          rw [hkq] at hnext
          obtain ⟨g, hcalm₂, hg⟩ := hnext
          exact ⟨g, hcalm.trans hcalm₂, hg⟩
      | stuck =>
          rw [hkq] at hnext
          obtain ⟨g, hcalm₂, hg⟩ := hnext
          exact ⟨g, hcalm.trans hcalm₂, hg⟩
  | effect =>
      obtain ⟨g, hcalm, hlt, heffect⟩ := h
      exact ⟨g, hcalm.mono hle, hlt.trans_le hle, heffect⟩
  | stuck =>
      obtain ⟨g, hcalm, hg⟩ := h
      exact ⟨g, hcalm.mono hle, hg⟩

section Instruction

variable {inst : Instr} {α : Type} {result : α → Frame R ℕ → Prop}

theorem Comes.effect (hinst : f.fn.instructions[f.pc]? = some inst) (hlt : f.pc < stop)
    (heffect : IsEffect f inst) : Comes unit rest stop f w result .effect :=
  ⟨(f, w), .refl, hlt, inst, hinst, heffect⟩

theorem not_atEffect (hinst : f.fn.instructions[f.pc]? = some inst) (h : ¬IsEffect f inst) :
    ¬AtEffect f := by
  rintro ⟨inst', hinst', heffect⟩
  rw [hinst] at hinst'
  cases hinst'
  exact h heffect

/-- An instruction without an effect that computes a value when there is one. -/
theorem Comes.instr {o : Option (α × R.World)} {next : α → Frame R ℕ}
    (hinst : f.fn.instructions[f.pc]? = some inst) (hlt : f.pc < stop) (hquiet : ¬IsEffect f inst)
    (hexec : execInstr tempPlacement unit f rest w inst =
      o.map fun r => .running (next r.1 :: rest) r.2)
    (hresult : ∀ a w', o = some (a, w') → result a (next a)) :
    Comes unit rest stop f w result (.ofOption o) := by
  have hstep : step tempPlacement unit (.running (f :: rest) w) =
      o.map fun r => .running (next r.1 :: rest) r.2 := (step_running hinst).trans hexec
  cases o with
  | none => exact ⟨(f, w), .refl, not_atEffect hinst hquiet, hstep⟩
  | some r =>
      obtain ⟨a, w'⟩ := r
      exact ⟨next a, .single ⟨⟨hlt, hstep⟩, not_atEffect hinst hquiet⟩, hresult a w' rfl⟩

/-- One instruction without an effect before the rest of a code. -/
theorem Comes.step {f' : Frame R ℕ} {w' : R.World} {q : Quiet R α}
    (hinst : f.fn.instructions[f.pc]? = some inst) (hlt : f.pc < stop) (hquiet : ¬IsEffect f inst)
    (hexec : execInstr tempPlacement unit f rest w inst = some (.running (f' :: rest) w'))
    (h : Comes unit rest stop f' w' result q) : Comes unit rest stop f w result q := by
  have hcalm : Calm unit rest stop (f, w) (f', w') :=
    .single ⟨⟨hlt, (step_running hinst).trans hexec⟩, not_atEffect hinst hquiet⟩
  cases q with
  | value a w₂ =>
      obtain ⟨g, hrun, hg⟩ := h
      exact ⟨g, hcalm.trans hrun, hg⟩
  | effect =>
      obtain ⟨g, hrun, hg⟩ := h
      exact ⟨g, hcalm.trans hrun, hg⟩
  | stuck =>
      obtain ⟨g, hrun, hg⟩ := h
      exact ⟨g, hcalm.trans hrun, hg⟩

end Instruction

end Rules

/-! ## The code of an expression -/

/-- A frame at the start of the code between two contexts, and one at its end. -/
structure CodeRun (ctx ctx' : LoweringContext) (f f' : Frame R ℕ) : Prop where
  fn : f'.fn = f.fn
  pc : f'.pc = ctx'.instructions.length
  locals : f'.locals = f.locals
  temps : ∀ t < ctx.tempCount, f'.temps t = f.temps t

/-- The code between two contexts leaves a value in a temp. -/
def Computes (ctx ctx' : LoweringContext) (f : Frame R ℕ) (t : ℕ) (v : R.Value)
    (f' : Frame R ℕ) : Prop :=
  CodeRun ctx ctx' f f' ∧ f'.temps t = some v

/-- A frame at the start of a code reads its surroundings from its slots. -/
structure Stands (final ctx : LoweringContext) (s : Surroundings R) (f : Frame R ℕ) : Prop where
  fn : f.fn = final.toFunction
  pc : f.pc = ctx.instructions.length
  valueOf : ∀ name, s.valueOf name = (ctx.locals name).bind fun loc => f.locals loc.slot
  types : s.types = ctx.scope.types

section Code

variable {ctx ctx₁ ctx₂ final : LoweringContext} {s : Surroundings R} {f f₁ f₂ : Frame R ℕ}
  {rest : List (Frame R ℕ)} {w : R.World}

theorem CodeRun.refl (hpc : f.pc = ctx.instructions.length) : CodeRun ctx ctx f f :=
  ⟨rfl, hpc, rfl, fun _ _ => rfl⟩

theorem CodeRun.trans (h : CodeRun ctx ctx₁ f f₁) (h' : CodeRun ctx₁ ctx₂ f₁ f₂)
    (hle : ctx.tempCount ≤ ctx₁.tempCount) : CodeRun ctx ctx₂ f f₂ :=
  { fn := h'.fn.trans h.fn
    pc := h'.pc
    locals := h'.locals.trans h.locals
    temps := fun t ht => (h'.temps t (ht.trans_le hle)).trans (h.temps t ht) }

/-- The next temp defined at the end. -/
theorem CodeRun.set {inst : Instr} (h : CodeRun ctx ctx₁ f f₁) (hle : ctx.tempCount ≤
    ctx₁.tempCount)
    (hctx : ctx₂.instructions = ctx₁.instructions ++ [inst]) (v : R.Value) :
    CodeRun ctx ctx₂ f (f₁.set ctx₁.tempCount v) := by
  refine ⟨h.fn, ?_, h.locals, ?_⟩
  · simp [h.pc, hctx]
  · intro t ht
    rw [Frame.set_temps_of_ne _ _ _ (by omega)]
    exact h.temps t ht

theorem CodeRun.computes {inst : Instr} (h : CodeRun ctx ctx₁ f f₁)
    (hle : ctx.tempCount ≤ ctx₁.tempCount)
    (hctx : ctx₂.instructions = ctx₁.instructions ++ [inst]) (v : R.Value) :
    Computes ctx ctx₂ f ctx₁.tempCount v (f₁.set ctx₁.tempCount v) :=
  ⟨h.set hle hctx v, by simp⟩

/-- The instruction after a code. -/
theorem CodeRun.instr {inst : Instr} (h : CodeRun ctx ctx₁ f f₁)
    (hctx : ctx₂.instructions = ctx₁.instructions ++ [inst]) (hfn : f.fn = final.toFunction)
    (hgrows : ctx₂.Grows final) : f₁.fn.instructions[f₁.pc]? = some inst := by
  have hpre := hgrows.instructions
  rw [hctx] at hpre
  rw [h.fn, hfn, h.pc]
  exact getElem?_of_code hpre

theorem CodeRun.lt {inst : Instr} (h : CodeRun ctx ctx₁ f f₁)
    (hctx : ctx₂.instructions = ctx₁.instructions ++ [inst]) :
    f₁.pc < ctx₂.instructions.length := by
  rw [h.pc, hctx, List.length_append, List.length_singleton]
  exact Nat.lt_succ_self _

theorem Stands.after (hs : Stands final ctx s f) (h : CodeRun ctx ctx₁ f f₁)
    (hlocals : ctx₁.locals = ctx.locals) (hscope : ctx₁.scope = ctx.scope) :
    Stands final ctx₁ s f₁ := by
  refine ⟨h.fn.trans hs.fn, h.pc, ?_, ?_⟩
  · intro name
    rw [hlocals, h.locals]
    exact hs.valueOf name
  · rw [hscope]
    exact hs.types

/-- A node with one instruction after the code before it. -/
theorem Comes.define {inst : Instr} {o : Option (R.Value × R.World)} (h : CodeRun ctx ctx₁ f f₁)
    (hle : ctx.tempCount ≤ ctx₁.tempCount)
    (hctx : ctx₂.instructions = ctx₁.instructions ++ [inst]) (hfn : f.fn = final.toFunction)
    (hgrows : ctx₂.Grows final) (hquiet : ¬IsEffect f₁ inst)
    (hexec : execInstr tempPlacement unit f₁ rest w inst =
      o.map fun r => .running (f₁.set ctx₁.tempCount r.1 :: rest) r.2) :
    Comes unit rest ctx₂.instructions.length f₁ w (Computes ctx ctx₂ f ctx₁.tempCount)
      (.ofOption o) :=
  .instr (h.instr hctx hfn hgrows) (h.lt hctx) hquiet hexec fun v _ _ => h.computes hle hctx v

/-- A unary node: an effect, or one instruction after the code of the operand. -/
theorem Comes.unary {e : Expr} {op : UnaryOp} {t : ℕ} {type : Option Ty} {inst : Instr}
    (h : Comes unit rest ctx₁.instructions.length f w (Computes ctx ctx₁ f t) (quietly s e w))
    (hle : ctx.tempCount ≤ ctx₁.tempCount)
    (hctx : ctx₂.instructions = ctx₁.instructions ++ [inst]) (hfn : f.fn = final.toFunction)
    (hgrows : ctx₂.Grows final) (htype : type = e.staticType s.table s.types)
    (heffect : ∀ f₁ : Frame R ℕ, IsEffect f₁ inst ↔ op.isVisible type = true)
    (hexec : ∀ (v : R.Value) (f₁ : Frame R ℕ) (w₁ : R.World), f₁.temps t = some v →
      execInstr tempPlacement unit f₁ rest w₁ inst =
        (quietUnary op type v w₁).map fun r =>
          .running (f₁.set ctx₁.tempCount r.1 :: rest) r.2) :
    Comes unit rest ctx₂.instructions.length f w (Computes ctx ctx₂ f ctx₁.tempCount)
      (quietly s (.unary op e) w) := by
  have hlen : ctx₁.instructions.length ≤ ctx₂.instructions.length := by
    rw [hctx, List.length_append]
    exact Nat.le_add_right _ _
  rw [quietly, ← htype]
  refine h.andThen hlen ?_
  intro v f₁ w₁ hv
  split
  next hvisible =>
    exact .effect (hv.1.instr hctx hfn hgrows) (hv.1.lt hctx) ((heffect f₁).mpr hvisible)
  next hquiet =>
    exact .define hv.1 hle hctx hfn hgrows (fun h => hquiet ((heffect f₁).mp h))
      (hexec v f₁ w₁ hv.2)

/-- The operands of a binary node. -/
theorem Comes.operands {α : Type} {l r : Expr} {a b : Operand} {stop : ℕ}
    {result : α → Frame R ℕ → Prop} {k : R.Value → R.Value → R.World → Quiet R α}
    (ha : ExprLowers s.table ctx l a ctx₁) (hb : ExprLowers s.table ctx₁ r b ctx₂)
    (hstop : ctx₂.instructions.length ≤ stop) (hs : Stands final ctx s f)
    (hl : Comes unit rest ctx₁.instructions.length f w (Computes ctx ctx₁ f a.temp) (quietly s l w))
    (hr : ∀ (f₁ : Frame R ℕ) (w₁ : R.World), Stands final ctx₁ s f₁ →
      Comes unit rest ctx₂.instructions.length f₁ w₁ (Computes ctx₁ ctx₂ f₁ b.temp)
        (quietly s r w₁))
    (hk : ∀ (x y : R.Value) (f₂ : Frame R ℕ) (w₂ : R.World), CodeRun ctx ctx₂ f f₂ →
      f₂.temps a.temp = some x → f₂.temps b.temp = some y →
      Comes unit rest stop f₂ w₂ result (k x y w₂)) :
    Comes unit rest stop f w result
      ((quietly s l w).andThen fun x w => (quietly s r w).andThen fun y w => k x y w) := by
  refine hl.andThen (hb.grows.length.trans hstop) ?_
  rintro x f₁ w₁ ⟨hrun₁, hx⟩
  have hs₁ := hs.after hrun₁ ha.facts.chain.locals.1 ha.scope
  refine (hr f₁ w₁ hs₁).andThen hstop ?_
  rintro y f₂ w₂ ⟨hrun₂, hy⟩
  refine hk x y f₂ w₂ (hrun₁.trans hrun₂ ha.grows.tempCount) ?_ hy
  rw [hrun₂.temps a.temp ha.facts.temp_lt]
  exact hx

theorem Frame.readWord_of_temps {t : ℕ} {v : R.Value} (h : f.temps t = some v) :
    f.readWord tempPlacement t = R.toWord v := by
  simp [Frame.readWord, h]

theorem quietly_literal {e : Expr} {consts consts' : ConstTables} {c : ConstValue}
    (h : buildConstValue consts e = .ok (c, consts')) (s : Surroundings R) (w : R.World) :
    quietly s e w = .ofOption (e.const?.map fun k => (R.const k, w)) := by
  cases e with
  | number _ | string _ | bool _ | null | array _ => simp [quietly]
  | _ => cases h

theorem ConstValue.not_isEffect_instr (c : ConstValue) (dest : ℕ) (f : Frame R ℕ) :
    ¬IsEffect f (c.instr dest) := by
  unfold ConstValue.instr
  split <;> exact fun h => h

/-! ### Binary nodes -/

theorem traps_of_cmpOp {op : BinaryOp} {cmp : CmpOp} (h : op.cmpOp = some cmp) (x y : R.Value) :
    traps op x y = false := by
  cases op <;> cases h <;> rfl

theorem traps_of_isLogical {op : BinaryOp} (h : op.isLogical = true) (x y : R.Value) :
    traps op x y = false := by
  cases op <;> cases h <;> rfl

theorem quietBinary_cmp {op : BinaryOp} {cmp : CmpOp} (h : op.cmpOp = some cmp) (x y : R.Value) :
    quietBinary op x y = (R.toWord x).bind fun a => (R.toWord y).bind fun b =>
      some (R.ofWord (wordOfBool (cmp.eval a b))) := by
  rw [quietBinary, h]
  rfl

theorem quietBinary_bin {op : BinaryOp} {bin : BinOp} (h : op.binOp = some bin) (x y : R.Value) :
    quietBinary op x y = (R.toWord x).bind fun a => (R.toWord y).bind fun b =>
      (bin.eval a b).map R.ofWord := by
  have hcmp : op.cmpOp = none := by cases op <;> cases h <;> rfl
  rw [quietBinary, h, hcmp]
  simp only [Option.bind_eq_bind, Option.pure_def, Option.map_eq_bind, Function.comp_def]

theorem exec_cmp {op : BinaryOp} {cmp : CmpOp} {x y : R.Value} {a b dest : ℕ}
    (hop : op.cmpOp = some cmp) (hx : f.temps a = some x) (hy : f.temps b = some y) :
    execInstr tempPlacement unit f rest w (.cmp dest cmp a (.temp b)) =
      ((quietBinary op x y).map (·, w)).map fun r => .running (f.set dest r.1 :: rest) r.2 := by
  simp only [execInstr, Frame.readRight, Frame.readWord_of_temps hx, Frame.readWord_of_temps hy,
    Option.bind_eq_bind, Frame.define_tempPlacement, Option.bind_some, Option.pure_def,
    quietBinary_cmp hop]
  cases R.toWord x with
  | none => rfl
  | some u => cases R.toWord y <;> rfl

theorem exec_bin {op : BinaryOp} {bin : BinOp} {x y : R.Value} {a b dest : ℕ}
    (hop : op.binOp = some bin) (hx : f.temps a = some x) (hy : f.temps b = some y) :
    execInstr tempPlacement unit f rest w (.bin dest bin a b) =
      ((quietBinary op x y).map (·, w)).map fun r => .running (f.set dest r.1 :: rest) r.2 := by
  simp only [execInstr, Frame.readWord_of_temps hx, Frame.readWord_of_temps hy,
    Option.bind_eq_bind, Frame.define_tempPlacement, Option.bind_some, Option.pure_def,
    quietBinary_bin hop]
  cases R.toWord x with
  | none => rfl
  | some u =>
      cases R.toWord y with
      | none => rfl
      | some v =>
          simp only [Option.bind_some]
          cases bin.eval u v <;> rfl

theorem exec_runtime {fn : RuntimeFn} {v : R.Value} {t dest : ℕ} {type : Option Ty}
    (hv : f.temps t = some v) :
    execInstr tempPlacement unit f rest w (.callRuntime dest fn [t] type) =
      (R.call fn [v] w).map fun r => .running (f.set dest r.1 :: rest) r.2 := by
  simp only [execInstr, readAll_singleton hv, Option.bind_eq_bind, Frame.define_tempPlacement,
    Option.bind_some, Option.pure_def]
  cases R.call fn [v] w <;> rfl

/-- A division is an effect exactly when it traps on the values of its operands. -/
theorem isEffect_bin_iff {op : BinaryOp} {bin : BinOp} {x y : R.Value} {a b dest : ℕ}
    (hop : op.binOp = some bin) (hx : f.temps a = some x) (hy : f.temps b = some y) :
    IsEffect f (.bin dest bin a b) ↔ traps op x y = true := by
  rw [IsEffect, Frame.readWord_of_temps hx, Frame.readWord_of_temps hy, traps, Bool.and_eq_true,
    Bool.or_eq_true, decide_eq_true_eq, decide_eq_true_eq, decide_eq_true_eq]
  have hdiv : (bin = .div ∨ bin = .mod) ↔ (op = .div ∨ op = .mod) := by
    cases op <;> cases hop <;> simp
  rw [hdiv]
  apply and_congr_right
  intro _
  simp only [Option.bind_eq_some_iff, Option.map_eq_some_iff, exists_and_left]

/-- The context after a logical node whose operands are in two temps. -/
def LoweringContext.combine (ctx : LoweringContext) (bin : BinOp) (a b : ℕ) : LoweringContext :=
  ((ctx.define (some .bool) (.cmp ctx.tempCount .ne a (.imm 0))).define (some .bool)
    (.cmp (ctx.tempCount + 1) .ne b (.imm 0))).define (some .bool)
    (.bin (ctx.tempCount + 2) bin ctx.tempCount (ctx.tempCount + 1))

/-- The test of an operand against zero, in front of the rest of a code. -/
theorem Comes.test {α : Type} {x : R.Value} {t stop : ℕ} {result : α → Frame R ℕ → Prop}
    {k : Word → Option α} (h : CodeRun ctx ctx₁ f f₁)
    (hctx : ctx₂.instructions = ctx₁.instructions ++ [.cmp ctx₁.tempCount .ne t (.imm 0)])
    (hfn : f.fn = final.toFunction) (hgrows : ctx₂.Grows final)
    (hstop : ctx₂.instructions.length ≤ stop) (hx : f₁.temps t = some x)
    (hk : ∀ u : Word, Comes unit rest stop
      (f₁.set ctx₁.tempCount (R.ofWord (wordOfBool (u ≠ 0)))) w result
      (.ofOption ((k u).map (·, w)))) :
    Comes unit rest stop f₁ w result (.ofOption (((R.toWord x).bind k).map (·, w))) := by
  have hinst := h.instr hctx hfn hgrows
  have hlt := (h.lt hctx).trans_le hstop
  have hquiet : ¬IsEffect f₁ (.cmp ctx₁.tempCount .ne t (.imm 0)) := fun h => h
  cases hword : R.toWord x with
  | none =>
      have hexec : execInstr tempPlacement unit f₁ rest w (.cmp ctx₁.tempCount .ne t (.imm 0)) =
          none := by
        simp [execInstr, Frame.readWord_of_temps hx, hword]
      exact ⟨(f₁, w), .refl, not_atEffect hinst hquiet, (step_running hinst).trans hexec⟩
  | some u =>
      exact .step hinst hlt hquiet (exec_cmpZero ((Frame.readWord_of_temps hx).trans hword)) (hk u)

theorem eval_wordOfBool {op : BinaryOp} {bin : BinOp} (hlog : op.isLogical = true)
    (hbin : op.binOp = some bin) (u v : Word) :
    bin.eval (wordOfBool (u ≠ 0)) (wordOfBool (v ≠ 0)) = bin.eval u v := by
  cases op <;> cases hlog <;> cases hbin <;> by_cases hu : u = 0 <;> by_cases hv : v = 0 <;>
    simp [BinOp.eval, wordOfBool, hu, hv]

/-- Both operands are made booleans before they are combined, one instruction each. -/
theorem Comes.logical {op : BinaryOp} {bin : BinOp} {x y : R.Value} {a b : ℕ}
    (hlog : op.isLogical = true) (hbin : op.binOp = some bin) (hrun : CodeRun ctx ctx₂ f f₂)
    (hle : ctx.tempCount ≤ ctx₂.tempCount) (hfn : f.fn = final.toFunction)
    (hg : (ctx₂.combine bin a b).Grows final) (hblt : b < ctx₂.tempCount)
    (hx : f₂.temps a = some x) (hy : f₂.temps b = some y) :
    Comes unit rest (ctx₂.combine bin a b).instructions.length f₂ w
      (Computes ctx (ctx₂.combine bin a b) f (ctx₂.tempCount + 2))
      (.ofOption ((quietBinary op x y).map (·, w))) := by
  have hg₂ := ((LoweringContext.Grows.refl _).define (some .bool)
    (.bin (ctx₂.tempCount + 2) bin ctx₂.tempCount (ctx₂.tempCount + 1))).trans hg
  have hg₁ := ((LoweringContext.Grows.refl _).define (some .bool)
    (.cmp (ctx₂.tempCount + 1) .ne b (.imm 0))).trans hg₂
  rw [quietBinary_bin hbin]
  refine .test hrun rfl hfn hg₁ (by simp [LoweringContext.combine]) hx ?_
  intro u
  have hrun₁ : CodeRun ctx (ctx₂.define (some .bool) (.cmp ctx₂.tempCount .ne a (.imm 0))) f
      (f₂.set ctx₂.tempCount (R.ofWord (wordOfBool (u ≠ 0)))) := hrun.set hle rfl _
  have hy₁ : (f₂.set ctx₂.tempCount (R.ofWord (wordOfBool (u ≠ 0)))).temps b = some y := by
    rw [Frame.set_temps_of_ne _ _ _ hblt.ne]
    exact hy
  have hcount : (ctx₂.define (some .bool) (.cmp ctx₂.tempCount .ne a (.imm 0))).tempCount =
      ctx₂.tempCount + 1 := by simp
  have hctx₂ : ((ctx₂.define (some .bool) (.cmp ctx₂.tempCount .ne a (.imm 0))).define (some .bool)
      (.cmp (ctx₂.tempCount + 1) .ne b (.imm 0))).instructions =
      (ctx₂.define (some .bool) (.cmp ctx₂.tempCount .ne a (.imm 0))).instructions ++
        [.cmp (ctx₂.define (some .bool) (.cmp ctx₂.tempCount .ne a (.imm 0))).tempCount .ne b
          (.imm 0)] := by
    rw [hcount]
    rfl
  refine .test hrun₁ hctx₂ hfn hg₂ (by simp [LoweringContext.combine]) hy₁ ?_
  intro v
  have hrun₂ := hrun₁.set (hle.trans (by simp)) hctx₂ (R.ofWord (wordOfBool (v ≠ 0)))
  have hcount₂ : ((ctx₂.define (some .bool) (.cmp ctx₂.tempCount .ne a (.imm 0))).define
      (some .bool) (.cmp (ctx₂.tempCount + 1) .ne b (.imm 0))).tempCount = ctx₂.tempCount + 2 := by
    simp
  rw [hcount] at hrun₂ ⊢
  -- the combination, on two booleans
  have hleft : ((f₂.set ctx₂.tempCount (R.ofWord (wordOfBool (u ≠ 0)))).set (ctx₂.tempCount + 1)
      (R.ofWord (wordOfBool (v ≠ 0)))).temps ctx₂.tempCount =
      some (R.ofWord (wordOfBool (u ≠ 0))) := by
    rw [Frame.set_temps_of_ne _ _ _ (Nat.ne_of_lt (Nat.lt_succ_self _)), Frame.set_temps_self]
  have hright : ((f₂.set ctx₂.tempCount (R.ofWord (wordOfBool (u ≠ 0)))).set (ctx₂.tempCount + 1)
      (R.ofWord (wordOfBool (v ≠ 0)))).temps (ctx₂.tempCount + 1) =
      some (R.ofWord (wordOfBool (v ≠ 0))) := Frame.set_temps_self _ _ _
  have hval : quietBinary op (R.ofWord (wordOfBool (u ≠ 0))) (R.ofWord (wordOfBool (v ≠ 0))) =
      (bin.eval u v).map R.ofWord := by
    rw [quietBinary_bin hbin, R.toWord_ofWord, R.toWord_ofWord, Option.bind_some,
      Option.bind_some, eval_wordOfBool hlog hbin]
  have hquiet : ¬IsEffect ((f₂.set ctx₂.tempCount (R.ofWord (wordOfBool (u ≠ 0)))).set
      (ctx₂.tempCount + 1) (R.ofWord (wordOfBool (v ≠ 0))))
      (.bin (ctx₂.tempCount + 2) bin ctx₂.tempCount (ctx₂.tempCount + 1)) := by
    rw [isEffect_bin_iff hbin hleft hright, traps_of_isLogical hlog]
    exact Bool.false_ne_true
  rw [← hval, ← hcount₂]
  exact .define hrun₂ (hle.trans (by simp; omega)) rfl hfn hg hquiet
    (by rw [hcount₂]; exact exec_bin hbin hleft hright)

end Code

mutual
/-- The code of an expression does what its quiet evaluation says. -/
theorem ExprLowers.comes {s : Surroundings R} {final : LoweringContext}
    (hext : final.consts.Extends unit.consts) (hr : unit.consts.Ranked) (rest : List (Frame R ℕ))
    {ctx ctx' : LoweringContext} {e : Expr} {v : Operand} :
    ExprLowers s.table ctx e v ctx' → ctx'.Grows final → ∀ (f : Frame R ℕ) (w : R.World),
      Stands final ctx s f → Comes unit rest ctx'.instructions.length f w
        (Computes ctx ctx' f v.temp) (quietly s e w)
  | @ExprLowers.literal _ _ _ constant consts hc, hg, f, w, hs => by
      obtain ⟨k, hk, -, hres⟩ := buildConstValue_resolves hr hc (hg.consts.trans hext)
      -- a constant is a value in every state
      have hquiet : quietly s e w = .ofOption (some (R.const k, w)) := by
        rw [quietly_literal hc, hk]
        rfl
      rw [hquiet]
      refine .define (CodeRun.refl hs.pc) (Nat.le_refl _) rfl hs.fn hg ?_ ?_
      · exact ConstValue.not_isEffect_instr constant ctx.tempCount f
      · exact ConstValue.exec_instr hr hres f rest w ctx.tempCount
  | @ExprLowers.identifier _ _ name loc hloc, hg, f, w, hs => by
      rw [quietly, hs.valueOf, hloc]
      refine .define (CodeRun.refl hs.pc) (Nat.le_refl _) rfl hs.fn hg (fun h => h) ?_
      simp only [execInstr, Option.bind_some]
      cases f.locals loc.slot <;> rfl
  | .neg ha _, hg, f, w, hs => by
      have hg₁ := ((LoweringContext.Grows.refl _).define _ _).trans hg
      refine .unary (ha.comes hext hr rest hg₁ f w hs) ha.grows.tempCount rfl hs.fn hg
        (hs.types ▸ ha.staticType) (fun _ => ⟨nofun, nofun⟩) ?_
      intro x f₁ w₁ hx
      simp only [execInstr, Frame.readWord_of_temps hx, quietUnary]
      cases R.toWord x <;> rfl
  | .not ha _, hg, f, w, hs => by
      have hg₁ := ((LoweringContext.Grows.refl _).define _ _).trans hg
      refine .unary (ha.comes hext hr rest hg₁ f w hs) ha.grows.tempCount rfl hs.fn hg
        (hs.types ▸ ha.staticType) (fun _ => ⟨nofun, nofun⟩) ?_
      intro x f₁ w₁ hx
      simp only [execInstr, Frame.readWord_of_temps hx, quietUnary]
      cases R.toWord x <;> rfl
  | .tamanhoDe ha _, hg, f, w, hs => by
      have hg₁ := ((LoweringContext.Grows.refl _).define _ _).trans hg
      refine .unary (ha.comes hext hr rest hg₁ f w hs) ha.grows.tempCount rfl hs.fn hg
        (hs.types ▸ ha.staticType) (fun f₁ => ?_) fun x f₁ w₁ hx => exec_runtime hx
      rw [IsEffect, lengthFn_isVisible]
      exact ⟨nofun, nofun⟩
  | @ExprLowers.tipoDe _ _ ctx₁ _ a ha, hg, f, w, hs => by
      have hext₁ := internString_extends ctx₁.consts (typeDisplayName a.type)
      have hg₁ := (((LoweringContext.Grows.refl _).withConsts hext₁).define _ _).trans hg
      refine .unary (ha.comes hext hr rest hg₁ f w hs) ha.grows.tempCount rfl hs.fn hg
        (hs.types ▸ ha.staticType) (fun _ => ⟨nofun, nofun⟩) ?_
      intro x f₁ w₁ hx
      obtain ⟨i, hi, hget⟩ := internString_entry ctx₁.consts (typeDisplayName a.type)
      have hget := getElem?_extend (hg.consts.trans hext).strings hget
      rw [hi]
      simp [execInstr, Runtime.address, hget, quietUnary]
  | .identificar ha, hg, f, w, hs => by
      have hg₁ := ((LoweringContext.Grows.refl _).define _ _).trans hg
      exact .unary (ha.comes hext hr rest hg₁ f w hs) ha.grows.tempCount rfl hs.fn hg
        (hs.types ▸ ha.staticType) (fun _ => Iff.rfl) fun x f₁ w₁ hx => exec_runtime hx
  | .observar ha, hg, f, w, hs => by
      have hg₁ := ((LoweringContext.Grows.refl _).define _ _).trans hg
      exact .unary (ha.comes hext hr rest hg₁ f w hs) ha.grows.tempCount rfl hs.fn hg
        (hs.types ▸ ha.staticType) (fun _ => Iff.rfl) fun x f₁ w₁ hx => exec_runtime hx
  | .compare ha hb hcmp _, hg, f, w, hs => by
      have hg₂ := ((LoweringContext.Grows.refl _).define _ _).trans hg
      rw [quietly]
      refine .operands ha hb (by simp) hs (ha.comes hext hr rest (hb.grows.trans hg₂) f w hs)
        (hb.comes hext hr rest hg₂) ?_
      intro x y f₂ w₂ hrun hx hy
      rw [traps_of_cmpOp hcmp, if_neg Bool.false_ne_true]
      exact .define hrun (ha.grows.trans hb.grows).tempCount rfl hs.fn hg (fun h => h)
        (exec_cmp hcmp hx hy)
  | .logical ha hb hlog hbin _ _, hg, f, w, hs => by
      have hg₂ := ((((LoweringContext.Grows.refl _).define _ _).define _ _).define _ _).trans hg
      rw [quietly]
      refine .operands ha hb (by simp) hs (ha.comes hext hr rest (hb.grows.trans hg₂) f w hs)
        (hb.comes hext hr rest hg₂) ?_
      intro x y f₂ w₂ hrun hx hy
      rw [traps_of_isLogical hlog, if_neg Bool.false_ne_true]
      exact .logical hlog hbin hrun (ha.grows.trans hb.grows).tempCount hs.fn hg
        hb.facts.temp_lt hx hy
  | .arith ha hb _ hbin _ _, hg, f, w, hs => by
      have hg₂ := ((LoweringContext.Grows.refl _).define _ _).trans hg
      rw [quietly]
      refine .operands ha hb (by simp) hs (ha.comes hext hr rest (hb.grows.trans hg₂) f w hs)
        (hb.comes hext hr rest hg₂) ?_
      intro x y f₂ w₂ hrun hx hy
      split
      -- the one operator that can stop the machine
      next hdivides =>
        exact .effect (hrun.instr rfl hs.fn hg) (hrun.lt rfl)
          ((isEffect_bin_iff hbin hx hy).mpr hdivides)
      next hdivides =>
        exact .define hrun (ha.grows.trans hb.grows).tempCount rfl hs.fn hg
          (fun h => hdivides ((isEffect_bin_iff hbin hx hy).mp h)) (exec_bin hbin hx hy)
  | .call _ _ _ hargs, hg, f, w, hs => by
      have hg₁ := ((LoweringContext.Grows.refl _).define _ _).trans hg
      rw [quietly]
      refine (hargs.comes hext hr rest hg₁ f w hs).andThen (by simp) ?_
      intro vs f₁ w₁ hrun
      exact .effect (hrun.instr rfl hs.fn hg) (hrun.lt rfl) (by trivial)

theorem ArgsLower.comes {s : Surroundings R} {final : LoweringContext}
    (hext : final.consts.Extends unit.consts) (hr : unit.consts.Ranked) (rest : List (Frame R ℕ))
    {ctx ctx' : LoweringContext} {types : List (Option Ty)} {args : List Expr}
    {vs : List Operand} :
    ArgsLower s.table ctx types args vs ctx' → ctx'.Grows final →
      ∀ (f : Frame R ℕ) (w : R.World), Stands final ctx s f →
        Comes unit rest ctx'.instructions.length f w (fun _ => CodeRun ctx ctx' f)
          (quietlyArgs s args w)
  | .nil, _, f, w, hs => ⟨f, .refl, .refl hs.pc⟩
  | .cons ha _ hargs, hg, f, w, hs => by
      have hgrows := hargs.facts.1.grows
      rw [quietlyArgs]
      refine (ha.comes hext hr rest (hgrows.trans hg) f w hs).andThen hgrows.length ?_
      rintro x f₁ w₁ ⟨hrun, -⟩
      have hs₁ := hs.after hrun ha.facts.chain.locals.1 ha.scope
      refine (hargs.comes hext hr rest hg f₁ w₁ hs₁).andThen (Nat.le_refl _) ?_
      intro xs f₂ w₂ hrun₂
      exact ⟨f₂, .refl, hrun.trans hrun₂ ha.grows.tempCount⟩
end

end GatoCore.Native
