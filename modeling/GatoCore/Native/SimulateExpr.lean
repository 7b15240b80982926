import GatoCore.Native.Eval
import GatoCore.Native.InferFacts
import GatoCore.Native.LowerFacts

/-!
# Lowering preserves meaning: expressions

A forward simulation from the evaluator of the syntax tree to the step relation of the unit, by
induction on the evaluator's fuel. This module has the frames, the constants and the expressions. A
frame stays related to the environment of its activation through the final context of its function:
every assigned name has its local there, the code of a node is a segment of the final code, and the
constants of a node keep their meaning in the unit.
-/

namespace GatoCore.Native

open StateTransition GatoCore.Lib

variable {R : Runtime} {unit : IRUnit}

/-! ## Steps of a frame -/

/-- `f` after an instruction that defines `t`. -/
def Frame.set (f : Frame R ℕ) (t : ℕ) (v : R.Value) : Frame R ℕ :=
  { f with pc := f.pc + 1, temps := Function.update f.temps t (some v) }

section FrameSimp

variable (f : Frame R ℕ) (t : ℕ) (v : R.Value)

@[simp] theorem Frame.define_tempPlacement : f.define tempPlacement t v = some (f.set t v) := rfl

@[simp] theorem Frame.read_tempPlacement : f.read tempPlacement t = f.temps t := rfl

@[simp] theorem Frame.set_fn : (f.set t v).fn = f.fn := rfl

@[simp] theorem Frame.set_pc : (f.set t v).pc = f.pc + 1 := rfl

@[simp] theorem Frame.set_locals : (f.set t v).locals = f.locals := rfl

@[simp] theorem Frame.set_temps_self : (f.set t v).temps t = some v := by simp [Frame.set]

theorem Frame.set_temps_of_ne {u : ℕ} (h : u ≠ t) : (f.set t v).temps u = f.temps u := by
  simp [Frame.set, Function.update_of_ne h]

end FrameSimp

theorem step_running {f : Frame R ℕ} {rest : List (Frame R ℕ)} {w : R.World} {inst : Instr}
    (h : f.fn.instructions[f.pc]? = some inst) :
    step tempPlacement unit (.running (f :: rest) w) =
      execInstr tempPlacement unit f rest w inst := by
  simp [step, h]

/-- A frame that runs from the start of the code between two contexts to its end, its slots
untouched. -/
structure ExprRun (unit : IRUnit) (rest : List (Frame R ℕ)) (ctx ctx' : LoweringContext)
    (f f' : Frame R ℕ) (w w' : R.World) : Prop where
  reaches : Reaches (step tempPlacement unit) (.running (f :: rest) w) (.running (f' :: rest) w')
  fn : f'.fn = f.fn
  pc : f'.pc = ctx'.instructions.length
  locals : f'.locals = f.locals
  temps : ∀ t < ctx.tempCount, f'.temps t = f.temps t

theorem ExprRun.refl {rest : List (Frame R ℕ)} {ctx : LoweringContext} {f : Frame R ℕ}
    {w : R.World} (hpc : f.pc = ctx.instructions.length) : ExprRun unit rest ctx ctx f f w w :=
  ⟨.refl, rfl, hpc, rfl, fun _ _ => rfl⟩

theorem ExprRun.trans {rest : List (Frame R ℕ)} {ctx ctx₁ ctx₂ : LoweringContext}
    {f f₁ f₂ : Frame R ℕ} {w w₁ w₂ : R.World} (h : ExprRun unit rest ctx ctx₁ f f₁ w w₁)
    (h' : ExprRun unit rest ctx₁ ctx₂ f₁ f₂ w₁ w₂) (hle : ctx.tempCount ≤ ctx₁.tempCount) :
    ExprRun unit rest ctx ctx₂ f f₂ w w₂ :=
  { reaches := h.reaches.trans h'.reaches
    fn := h'.fn.trans h.fn
    pc := h'.pc
    locals := h'.locals.trans h.locals
    temps := fun t ht => (h'.temps t (ht.trans_le hle)).trans (h.temps t ht) }

/-- The instruction at the end of a run. -/
theorem ExprRun.instr {rest : List (Frame R ℕ)} {ctx ctx₁ ctx₂ final : LoweringContext}
    {f f₁ : Frame R ℕ} {w w₁ : R.World} {inst : Instr}
    (h : ExprRun unit rest ctx ctx₁ f f₁ w w₁)
    (hctx : ctx₂.instructions = ctx₁.instructions ++ [inst])
    (hfn : f.fn = final.toFunction) (hgrows : ctx₂.Grows final) :
    f₁.fn.instructions[f₁.pc]? = some inst := by
  have hpre := hgrows.instructions
  rw [hctx] at hpre
  rw [h.fn, hfn, h.pc]
  exact getElem?_of_code hpre

/-- The next temp is defined at the end of the run, in any number of steps. -/
theorem ExprRun.set {rest : List (Frame R ℕ)} {ctx ctx₁ ctx₂ : LoweringContext}
    {f f₁ : Frame R ℕ} {w w₁ w₂ : R.World} {inst : Instr} {value : R.Value}
    (h : ExprRun unit rest ctx ctx₁ f f₁ w w₁) (hle : ctx.tempCount ≤ ctx₁.tempCount)
    (hctx : ctx₂.instructions = ctx₁.instructions ++ [inst])
    (hreach : Reaches (step tempPlacement unit) (.running (f₁ :: rest) w₁)
      (.running (f₁.set ctx₁.tempCount value :: rest) w₂)) :
    ExprRun unit rest ctx ctx₂ f (f₁.set ctx₁.tempCount value) w w₂ := by
  refine ⟨h.reaches.trans hreach, h.fn, ?_, h.locals, ?_⟩
  · simp [h.pc, hctx]
  · intro t ht
    rw [Frame.set_temps_of_ne _ _ _ (by omega)]
    exact h.temps t ht

/-- One defining instruction at the end of the run. -/
theorem ExprRun.define {rest : List (Frame R ℕ)} {ctx ctx₁ ctx₂ final : LoweringContext}
    {f f₁ : Frame R ℕ} {w w₁ w₂ : R.World} {inst : Instr} {value : R.Value}
    (h : ExprRun unit rest ctx ctx₁ f f₁ w w₁) (hle : ctx.tempCount ≤ ctx₁.tempCount)
    (hctx : ctx₂.instructions = ctx₁.instructions ++ [inst])
    (hfn : f.fn = final.toFunction) (hgrows : ctx₂.Grows final)
    (hexec : execInstr tempPlacement unit f₁ rest w₁ inst =
      some (.running (f₁.set ctx₁.tempCount value :: rest) w₂)) :
    ExprRun unit rest ctx ctx₂ f (f₁.set ctx₁.tempCount value) w w₂ := by
  refine h.set hle hctx (.single ?_)
  rw [Option.mem_def, step_running (h.instr hctx hfn hgrows), hexec]

/-- An expression whose last instruction computes its value. -/
theorem ExprRun.computes {rest : List (Frame R ℕ)} {ctx ctx₁ ctx₂ final : LoweringContext}
    {f f₁ : Frame R ℕ} {w w₁ w₂ : R.World} {inst : Instr} {type : Option Ty} (tv : TypedValue R)
    (h : ExprRun unit rest ctx ctx₁ f f₁ w w₁) (hle : ctx.tempCount ≤ ctx₁.tempCount)
    (hctx : ctx₂.instructions = ctx₁.instructions ++ [inst])
    (hfn : f.fn = final.toFunction) (hgrows : ctx₂.Grows final) (htype : type = some tv.type)
    (hexec : execInstr tempPlacement unit f₁ rest w₁ inst =
      some (.running (f₁.set ctx₁.tempCount tv.value :: rest) w₂)) :
    ∃ f', ExprRun unit rest ctx ctx₂ f f' w w₂ ∧ f'.temps ctx₁.tempCount = some tv.value ∧
      type = some tv.type :=
  ⟨_, h.define hle hctx hfn hgrows hexec, by simp, htype⟩

/-! ## Constants keep their meaning -/

theorem mapM_some_congr {α β : Type} {f g : α → Option β} :
    ∀ {xs : List α} {ys : List β}, xs.mapM f = some ys →
      (∀ x ∈ xs, ∀ y, f x = some y → g x = some y) → xs.mapM g = some ys
  | [], ys, h, _ => by simpa using h
  | x :: xs, ys, h, hfg => by
      simp only [List.mapM_cons, Option.bind_eq_bind, Option.bind_eq_some_iff, Option.pure_def,
        Option.some.injEq] at h ⊢
      obtain ⟨y, hy, ys', hys, rfl⟩ := h
      exact ⟨y, hfg x (by simp) y hy, ys',
        mapM_some_congr hys fun x' hx' => hfg x' (by simp [hx']), rfl⟩

/-- In ranked tables a constant below `m` resolves with fuel `m` if it resolves at all. -/
theorem ConstTables.Ranked.resolve_below {tables : ConstTables} (hr : tables.Ranked) :
    ∀ {n m : ℕ} {c : ConstValue} {k : Const}, tables.resolve n c = some k → c.Below m →
      tables.resolve m c = some k
  | n, m, ⟨type, .imm value⟩, k, h, _ => by
      rw [ConstTables.resolve] at h ⊢
      exact h
  | n, m, ⟨type, .label (.str i)⟩, k, h, _ => by
      rw [ConstTables.resolve] at h ⊢
      exact h
  | 0, m, ⟨type, .label (.arr i)⟩, k, h, _ => by
      rw [ConstTables.resolve] at h
      cases h
  | n + 1, 0, ⟨type, .label (.arr i)⟩, k, _, hb => absurd (hb i rfl) (Nat.not_lt_zero i)
  | n + 1, m + 1, ⟨type, .label (.arr i)⟩, k, h, hb => by
      rw [ConstTables.resolve] at h ⊢
      obtain ⟨entry, hentry, h⟩ := Option.bind_eq_some_iff.mp h
      obtain ⟨items, hitems, rfl⟩ := Option.map_eq_some_iff.mp h
      have him : i ≤ m := Nat.lt_succ_iff.mp (hb i rfl)
      have hitems' : entry.items.mapM (tables.resolve m) = some items :=
        mapM_some_congr hitems fun c hc k hk =>
          hr.resolve_below hk ((hr i entry hentry c hc).mono him)
      simp [hentry, hitems']

mutual
/-- A literal the compiler accepts stands for the constant the evaluator gives it. -/
theorem buildConstValue_resolves {tables : ConstTables} (hr : tables.Ranked) :
    ∀ {e : Expr} {consts consts' : ConstTables} {c : ConstValue},
      buildConstValue consts e = .ok (c, consts') → consts'.Extends tables →
      ∃ k, e.const? = some k ∧ k.type = c.type ∧
        tables.resolve tables.arrayList.length c = some k
  | .number value, _, _, _, h, _ => by
      cases h
      exact ⟨.imm .i64 value, rfl, rfl, by rw [ConstTables.resolve]⟩
  | .bool value, _, _, _, h, _ => by
      cases h
      exact ⟨_, rfl, rfl, by rw [ConstTables.resolve]⟩
  | .null, _, _, _, h, _ => by
      cases h
      exact ⟨.imm .null 0, rfl, rfl, by rw [ConstTables.resolve]⟩
  | .string value, consts, _, _, h, hext => by
      obtain ⟨rfl, rfl⟩ := buildConstValue_string h
      obtain ⟨i, hi, hget⟩ := internString_entry consts value
      refine ⟨.text value, rfl, rfl, ?_⟩
      rw [hi, ConstTables.resolve, getElem?_extend hext.strings hget]
      rfl
  | .array items, consts, _, _, h, hext => by
      obtain ⟨values, itemType, consts₁, hitems, rfl, rfl⟩ := buildConstValue_array h
      obtain ⟨i, hi, hget⟩ := internArray_entry consts₁ values (itemType.getD .null)
      have htyped := (buildConstItems_extends hitems).2
      obtain ⟨ks, hks, htypes, _, hnil, hres⟩ := buildConstItems_resolves hr hitems
        ((internArray_extends _ htyped).trans hext)
      have hget := getElem?_extend hext.arrays hget
      refine ⟨.list (itemType.getD .null) ks, ?_, rfl, ?_⟩
      · rw [Expr.const?, hks]
        cases ks with
        | nil =>
            rw [hnil rfl]
            rfl
        | cons k ks =>
            have hk : itemType = some k.type := (htypes k (by simp)).symm
            have hall : ∀ k' ∈ ks, k'.type = k.type := fun k' hk' =>
              Option.some.inj ((htypes k' (by simp [hk'])).trans hk)
            simpa [hk] using hall
      · have hlt := (List.getElem?_eq_some_iff.mp hget).1
        obtain ⟨m, hm⟩ : ∃ m, tables.arrayList.length = m + 1 := ⟨_, (Nat.succ_pred_eq_of_pos
          (by omega)).symm⟩
        have hres' : values.mapM (tables.resolve m) = some ks :=
          mapM_some_congr hres fun c hc k hk =>
            hr.resolve_below hk ((hr i _ hget c hc).mono (by omega))
        rw [hi, hm, ConstTables.resolve, hget]
        simp [hres']
  | .identifier _, _, _, _, h, _ => by cases h
  | .unary _ _, _, _, _, h, _ => by cases h
  | .binary _ _ _, _, _, _, h, _ => by cases h
  | .call _ _, _, _, _, h, _ => by cases h

theorem buildConstItems_resolves {tables : ConstTables} (hr : tables.Ranked) :
    ∀ {items : List Expr} {consts consts' : ConstTables} {itemType itemType' : Option Ty}
      {values : List ConstValue},
      buildConstItems consts itemType items = .ok (values, itemType', consts') →
      consts'.Extends tables →
      ∃ ks, Expr.consts? items = some ks ∧ (∀ k ∈ ks, some k.type = itemType') ∧
        (∀ type, itemType = some type → itemType' = some type) ∧
        (ks = [] → itemType' = itemType) ∧
        values.mapM (tables.resolve tables.arrayList.length) = some ks
  | [], _, _, _, _, _, h, _ => by
      cases h
      exact ⟨[], rfl, by simp, fun _ => id, by simp, rfl⟩
  | item :: items, consts, consts', itemType, itemType', values, h, hext => by
      obtain ⟨c, consts₁, cs, hc, hty, hcs, rfl⟩ := buildConstItems_cons h
      obtain ⟨k, hk, hkt, hres⟩ := buildConstValue_resolves hr hc
        ((buildConstItems_extends hcs).1.trans hext)
      obtain ⟨ks, hks, htypes, hkeep, hnil, hress⟩ := buildConstItems_resolves hr hcs hext
      have hitem : itemType' = some c.type := hkeep c.type rfl
      refine ⟨k :: ks, by simp [Expr.consts?, hk, hks], ?_, ?_, by simp, ?_⟩
      · intro k' hk'
        rcases List.mem_cons.mp hk' with rfl | hk'
        · rw [hitem, hkt]
        · exact htypes k' hk'
      · intro type htype
        rcases hty with hnone | hsome
        · rw [hnone] at htype
          cases htype
        · rw [hitem, ← hsome, htype]
      · simp [hres, hress]
end

theorem address_of_resolve {tables : ConstTables} (hr : tables.Ranked) {n : ℕ} {type : Ty}
    {label : DataLabel} {k : Const} (h : tables.resolve n ⟨type, .label label⟩ = some k) :
    R.address tables label = some (R.const k) := by
  cases label with
  | str i =>
      rw [ConstTables.resolve] at h
      obtain ⟨value, hvalue, rfl⟩ := Option.map_eq_some_iff.mp h
      simp [Runtime.address, hvalue, Runtime.const]
  | arr i =>
      cases n with
      | zero =>
          rw [ConstTables.resolve] at h
          cases h
      | succ n =>
          rw [ConstTables.resolve] at h
          obtain ⟨entry, hentry, h⟩ := Option.bind_eq_some_iff.mp h
          obtain ⟨items, hitems, rfl⟩ := Option.map_eq_some_iff.mp h
          have hlt := (List.getElem?_eq_some_iff.mp hentry).1
          have hitems' : entry.items.mapM (tables.resolve tables.arrayList.length) = some items :=
            mapM_some_congr hitems fun c hc k hk =>
              hr.resolve_below hk ((hr i entry hentry c hc).mono hlt.le)
          simp [Runtime.address, hentry, hitems', Runtime.const]

/-! ## Environments and frames -/

/-- Every assigned name has its value, and its type, in the slot of its local. -/
def EnvMatch (locals : String → Option Local) (env : Env R) (slots : ℕ → Option R.Value) : Prop :=
  ∀ x v, env x = some v → ¬ IsHiddenName x ∧
    ∃ loc, locals x = some loc ∧ loc.type = some v.type ∧ slots loc.slot = some v.value

/-- A context whose function is part of the unit. -/
structure Placed (unit : IRUnit) (final : LoweringContext) : Prop where
  labels : (labelsOf final.instructions).Nodup
  slots : final.SlotsOk
  consts : final.consts.Extends unit.consts

/-- A frame of the function of `final` at the start of the code of `ctx`. -/
structure Located (unit : IRUnit) (final ctx : LoweringContext) (env : Env R) (f : Frame R ℕ) :
    Prop where
  placed : Placed unit final
  fn : f.fn = final.toFunction
  pc : f.pc = ctx.instructions.length
  env : EnvMatch final.locals env f.locals

theorem ExprRun.located {rest : List (Frame R ℕ)} {ctx ctx' final : LoweringContext} {env : Env R}
    {f f' : Frame R ℕ} {w w' : R.World} (h : ExprRun unit rest ctx ctx' f f' w w')
    (hf : Located unit final ctx env f) : Located unit final ctx' env f' :=
  ⟨hf.placed, h.fn.trans hf.fn, h.pc, by rw [h.locals]; exact hf.env⟩

/-! ## Expressions -/

section Expressions

variable {Γ : EvalContext}

/-- The code of an expression computes the value the evaluator gives it with fuel `n`. -/
def SimExpr (R : Runtime) (Γ : EvalContext) (unit : IRUnit) (n : ℕ) : Prop :=
  ∀ {ctx ctx' final : LoweringContext} {e : Expr} {v : Operand} {env : Env R}
    {tv : TypedValue R} {f : Frame R ℕ} (rest : List (Frame R ℕ)) {w w' : R.World},
    ExprLowers Γ.table ctx e v ctx' → evalExpr Γ n env e w = some (tv, w') →
    ctx'.Grows final → Located unit final ctx env f →
    ∃ f', ExprRun unit rest ctx ctx' f f' w w' ∧ f'.temps v.temp = some tv.value ∧
      v.type = some tv.type

/-- The types and temps of lowered arguments against their values. -/
def ArgsMatch (f : Frame R ℕ) (vs : List Operand) (tvs : List (TypedValue R)) : Prop :=
  List.Forall₂ (fun v tv => f.temps v.temp = some tv.value ∧ v.type = some tv.type) vs tvs

def SimArgs (R : Runtime) (Γ : EvalContext) (unit : IRUnit) (n : ℕ) : Prop :=
  ∀ {ctx ctx' final : LoweringContext} {types : List (Option Ty)} {args : List Expr}
    {vs : List Operand} {env : Env R} {tvs : List (TypedValue R)} {f : Frame R ℕ}
    (rest : List (Frame R ℕ)) {w w' : R.World},
    ArgsLower Γ.table ctx types args vs ctx' → evalArgs Γ n env args w = some (tvs, w') →
    ctx'.Grows final → Located unit final ctx env f →
    ∃ f', ExprRun unit rest ctx ctx' f f' w w' ∧ ArgsMatch f' vs tvs

/-- A frame about to return `v`. -/
structure Returning (f : Frame R ℕ) (v : TypedValue R) (returnType : Option Ty) : Prop where
  ret : ∃ t type, f.fn.instructions[f.pc]? = some (.ret t type) ∧ f.temps t = some v.value
  type : returnType = some v.type

/-- The activation of a function returns the value the evaluator gives the call. -/
def SimCall (R : Runtime) (Γ : EvalContext) (unit : IRUnit) (n : ℕ) : Prop :=
  ∀ {name : String} {fd : FunctionDecl} {callee : FnMeta} {type : Ty} {tvs : List (TypedValue R)}
    {tv : TypedValue R} (rest : List (Frame R ℕ)) {w w' : R.World},
    Γ.function name = some fd → fd.params.length = tvs.length →
    Γ.table.lookup name = some callee → callee.paramTypes = tvs.map (fun v => some v.type) →
    callee.returnType = some type →
    callFunction Γ n type (bindParams fd.params tvs) fd.body w = some (tv, w') →
    ∃ fn f', unit.lookup (.fn name) = some fn ∧
      Reaches (step tempPlacement unit) (.running (entryFrame fn (tvs.map (·.value)) :: rest) w)
        (.running (f' :: rest) w') ∧ Returning f' tv (some type)

theorem evalExpr_literal {consts consts' : ConstTables} {c : ConstValue} {e : Expr}
    (h : buildConstValue consts e = .ok (c, consts')) (n : ℕ) (env : Env R) (w : R.World) :
    evalExpr Γ (n + 1) env e w = e.const?.map fun k => (⟨k.type, R.const k⟩, w) := by
  cases e with
  | number _ | string _ | bool _ | null | array _ =>
      simp [evalExpr, Option.map_eq_bind]
  | _ => cases h

theorem ConstValue.exec_instr {c : ConstValue} {k : Const} {n : ℕ}
    (hr : unit.consts.Ranked) (hres : unit.consts.resolve n c = some k) (f : Frame R ℕ)
    (rest : List (Frame R ℕ)) (w : R.World) (dest : ℕ) :
    execInstr tempPlacement unit f rest w (c.instr dest) =
      some (.running (f.set dest (R.const k) :: rest) w) := by
  obtain ⟨type, value⟩ := c
  cases value with
  | imm value =>
      rw [ConstTables.resolve] at hres
      cases hres
      simp [ConstValue.instr, execInstr, Runtime.const]
  | label label =>
      simp [ConstValue.instr, execInstr, address_of_resolve hr hres]

theorem simExpr_literal {n : ℕ} (hr : unit.consts.Ranked) {ctx final : LoweringContext} {e : Expr}
    {c : ConstValue} {consts : ConstTables} {env : Env R} {tv : TypedValue R} {f : Frame R ℕ}
    (rest : List (Frame R ℕ)) {w w' : R.World}
    (hc : buildConstValue ctx.consts e = .ok (c, consts))
    (he : evalExpr Γ (n + 1) env e w = some (tv, w'))
    (hg : ((ctx.withConsts consts).define (some c.type) (c.instr ctx.tempCount)).Grows final)
    (hf : Located unit final ctx env f) :
    ∃ f', ExprRun unit rest ctx ((ctx.withConsts consts).define (some c.type)
        (c.instr ctx.tempCount)) f f' w w' ∧
      f'.temps ctx.tempCount = some tv.value ∧ some c.type = some tv.type := by
  obtain ⟨k, hk, htype, hres⟩ := buildConstValue_resolves hr hc (hg.consts.trans hf.placed.consts)
  rw [evalExpr_literal hc, hk] at he
  cases he
  have hexec := ConstValue.exec_instr hr hres f rest w ctx.tempCount
  exact (ExprRun.refl hf.pc).computes _ le_rfl rfl hf.fn hg (by rw [htype]) hexec

theorem TypedValue.word_eq_some {v : TypedValue R} {a : Word} (h : v.word = some a) :
    R.toWord v.value = some a := by
  unfold TypedValue.word at h
  split at h
  · exact h
  · cases h

theorem Frame.readWord_of_word {f : Frame R ℕ} {t : ℕ} {v : TypedValue R} {a : Word}
    (hval : f.temps t = some v.value) (h : v.word = some a) :
    f.readWord tempPlacement t = some a := by
  simp [Frame.readWord, hval, TypedValue.word_eq_some h]

section Exec

variable {f : Frame R ℕ} {rest : List (Frame R ℕ)} {w w' : R.World} {dest : ℕ}

theorem exec_callRuntime {fn : RuntimeFn} {args : List ℕ} {vals : List R.Value} {type : Option Ty}
    {v : R.Value} (hargs : f.readAll tempPlacement args = some vals)
    (hcall : R.call fn vals w = some (v, w')) :
    execInstr tempPlacement unit f rest w (.callRuntime dest fn args type) =
      some (.running (f.set dest v :: rest) w') := by
  simp [execInstr, hargs, hcall]

theorem exec_cmpZero {t : ℕ} {x : Word} (hx : f.readWord tempPlacement t = some x) :
    execInstr tempPlacement unit f rest w (.cmp dest .ne t (.imm 0)) =
      some (.running (f.set dest (R.ofWord (wordOfBool (x ≠ 0))) :: rest) w) := by
  simp [execInstr, hx, Frame.readRight, CmpOp.eval]

theorem runtimeResult_eq_some {type : Ty} {fn : RuntimeFn} {args : List R.Value}
    {tv : TypedValue R} (h : runtimeResult type fn args w = some (tv, w')) :
    R.call fn args w = some (tv.value, w') ∧ tv.type = type := by
  obtain ⟨⟨v, w₁⟩, hcall, h⟩ := Option.map_eq_some_iff.mp h
  cases h
  exact ⟨hcall, rfl⟩

theorem readAll_singleton {t : ℕ} {v : R.Value} (h : f.temps t = some v) :
    f.readAll tempPlacement [t] = some [v] := by
  simp [Frame.readAll, h]

theorem lengthOf_eq_some {v tv : TypedValue R} (h : lengthOf v w = some (tv, w')) :
    R.call (lengthFn (some v.type)) [v.value] w = some (tv.value, w') ∧ tv.type = .i64 := by
  unfold lengthOf at h
  split at h
  · rename_i hty
    rw [hty]
    exact runtimeResult_eq_some h
  · rename_i hty
    rw [hty]
    exact runtimeResult_eq_some h
  · cases h

theorem itemOf_eq_some {v tv : TypedValue R} {i : Word} (h : itemOf v i w = some (tv, w')) :
    R.call (itemFn (some v.type) (some tv.type)) [v.value, R.ofWord i] w = some (tv.value, w') ∧
      bindingType (some v.type) = some tv.type := by
  unfold itemOf at h
  split at h
  case h_5 => cases h
  all_goals
    rename_i hty
    obtain ⟨hcall, htype⟩ := runtimeResult_eq_some h
    rw [hty, htype]
    first
    | exact ⟨hcall, rfl⟩
    | skip
  rename_i item h₁ h₂
  cases item <;> first | exact ⟨hcall, rfl⟩ | simp at h₁ h₂

theorem evalBinary_cmp {op : BinaryOp} {cmp : CmpOp} {l r tv : TypedValue R}
    (hop : op.cmpOp = some cmp) (h : evalBinary op l r = some tv) :
    ∃ a b, l.word = some a ∧ r.word = some b ∧ tv =
        wordValue R .bool (wordOfBool (cmp.eval a b)) := by
  unfold evalBinary at h
  simp only [Option.bind_eq_bind, Option.bind_eq_some_iff] at h
  obtain ⟨a, ha, b, hb, h⟩ := h
  refine ⟨a, b, ha, hb, ?_⟩
  cases op <;> cases hop <;>
    simp only [evalBinary.numeric, Option.map_some, Option.pure_def] at h <;> split at h <;>
    cases h <;> rfl

theorem evalBinary_bin {op : BinaryOp} {bin : BinOp} {l r tv : TypedValue R}
    (hop : op.binOp = some bin) (h : evalBinary op l r = some tv) :
    ∃ a b c, l.word = some a ∧ r.word = some b ∧ bin.eval a b = some c ∧
      tv = wordValue R (if op.isLogical then .bool else .i64) c := by
  unfold evalBinary at h
  simp only [Option.bind_eq_bind, Option.bind_eq_some_iff] at h
  obtain ⟨a, ha, b, hb, h⟩ := h
  cases op <;> cases hop
  case and | or => exact ⟨a, b, _, ha, hb, rfl, by simpa [BinaryOp.isLogical] using h.symm⟩
  all_goals
    simp only [evalBinary.numeric] at h
    split at h
    · obtain ⟨c, hc, rfl⟩ := Option.map_eq_some_iff.mp h
      exact ⟨a, b, c, ha, hb, hc, rfl⟩
    · cases h

end Exec

mutual
/-- The variables a statement may assign. -/
def Stmt.assigned : Stmt → List String
  | .define name _ => [name]
  | .assign name _ => [name]
  | .ifElse _ thenBody elseBody => assignedNames thenBody ++ assignedNames elseBody
  | .while _ body => assignedNames body
  | .forEach binding _ body => binding :: assignedNames body
  | _ => []

def assignedNames : List Stmt → List String
  | [] => []
  | s :: body => s.assigned ++ assignedNames body
end

/-- What the simulation needs of the program around one activation. -/
structure Linked (Γ : EvalContext) (unit : IRUnit) : Prop where
  flat : Γ.scoping = .flat
  ranked : unit.consts.Ranked
  table : TableFor Γ.functions Γ.table
  function : ∀ {name : String} {fd : FunctionDecl}, Γ.function name = some fd →
    ∃ consts final, unit.lookup (.fn name) = some final.toFunction ∧
      BodyLowers Γ.table (startContext Γ.table consts fd) fd.body final ∧
      final.consts.Extends unit.consts
  params : ∀ fd ∈ Γ.functions, ∀ x ∈ fd.params, ¬ IsHiddenName x
  assigned : ∀ fd ∈ Γ.functions, ∀ x ∈ assignedNames fd.body, ¬ IsHiddenName x

/-- With every parameter type known, the values of checked arguments have these types. -/
theorem ArgsLower.types_eq {table : FunctionTable} {f : Frame R ℕ} {ctx ctx' : LoweringContext}
    {types : List (Option Ty)} {args : List Expr} {vs : List Operand} {tvs : List (TypedValue R)}
    (h : ArgsLower table ctx types args vs ctx') (hmatch : ArgsMatch f vs tvs)
    (hlen : args.length = types.length) (hsome : ∀ type ∈ types, type.isSome) :
    types = tvs.map fun v => some v.type := by
  rw [← h.operandTypes hlen hsome]
  clear h hlen hsome
  induction hmatch with
  | nil => rfl
  | cons hv _ ih => rw [List.map_cons, List.map_cons, hv.2, ih]

theorem ArgsMatch.readAll {f : Frame R ℕ} {vs : List Operand} {tvs : List (TypedValue R)}
    (h : ArgsMatch f vs tvs) :
    f.readAll tempPlacement (vs.map (·.temp)) = some (tvs.map (·.value)) := by
  induction h with
  | nil => rfl
  | cons hv _ ih =>
      rw [Frame.readAll] at ih
      simp [Frame.readAll, hv.1, ih]

/-- The steps of a call: into the callee, to its `ret` and back. -/
theorem reaches_call {n : ℕ} (hcall : SimCall R Γ unit n) {name : String} {fd : FunctionDecl}
    {callee : FnMeta} {type : Ty} {dest : ℕ} {args : List ℕ} {returnType : Option Ty}
    {tvs : List (TypedValue R)} {tv : TypedValue R} {f : Frame R ℕ} (rest : List (Frame R ℕ))
    {w w' : R.World} (hinst : f.fn.instructions[f.pc]? =
    some (.call dest (.fn name) args returnType))
    (hargs : f.readAll tempPlacement args = some (tvs.map (·.value)))
    (hfd : Γ.function name = some fd) (hlen : fd.params.length = tvs.length)
    (hcallee : Γ.table.lookup name = some callee)
    (htypes : callee.paramTypes = tvs.map fun v => some v.type)
    (hret : callee.returnType = some type)
    (heval : callFunction Γ n type (bindParams fd.params tvs) fd.body w = some (tv, w')) :
    Reaches (step tempPlacement unit) (.running (f :: rest) w)
      (.running (f.set dest tv.value :: rest) w') ∧ tv.type = type := by
  obtain ⟨fn, g, hlookup, hreach, hg⟩ := hcall (f :: rest) hfd hlen hcallee htypes hret heval
  obtain ⟨t, ty, hrinst, hval⟩ := hg.ret
  refine ⟨?_, (Option.some.inj hg.type).symm⟩
  have henter : step tempPlacement unit (.running (f :: rest) w) =
      some (.running (entryFrame fn (tvs.map (·.value)) :: f :: rest) w) := by
    rw [step_running hinst]
    simp [execInstr, hargs, hlookup]
  have hleave : step tempPlacement unit (.running (g :: f :: rest) w') =
      some (.running (f.set dest tv.value :: rest) w') := by
    rw [step_running hrinst]
    simp [execInstr, hval, returnTo, hinst]
  exact .head henter (hreach.tail hleave)

theorem evalExpr_unary {n : ℕ} {op : UnaryOp} {e : Expr} {env : Env R} {tv : TypedValue R}
    {w w' : R.World} (h : evalExpr Γ (n + 1) env (.unary op e) w = some (tv, w')) :
    ∃ a w₁, evalExpr Γ n env e w = some (a, w₁) ∧ evalUnary op a w₁ = some (tv, w') := by
  simp only [evalExpr, Option.bind_eq_bind, Option.bind_eq_some_iff] at h
  obtain ⟨⟨a, w₁⟩, hea, h⟩ := h
  exact ⟨a, w₁, hea, h⟩

/-- A unary node: its operand, then one instruction. -/
theorem simExpr_unary {n : ℕ} (ihE : SimExpr R Γ unit n) {op : UnaryOp}
    {ctx ctx₁ ctx₂ final : LoweringContext} {e : Expr} {a : Operand} {type : Option Ty}
    {inst : Instr} {env : Env R} {tv : TypedValue R} {f : Frame R ℕ} {rest : List (Frame R ℕ)}
    {w w' : R.World} (ha : ExprLowers Γ.table ctx e a ctx₁)
    (he : evalExpr Γ (n + 1) env (.unary op e) w = some (tv, w'))
    (hgrows : ctx₁.Grows ctx₂) (hg : ctx₂.Grows final) (hf : Located unit final ctx env f)
    (hctx : ctx₂.instructions = ctx₁.instructions ++ [inst])
    (hstep : ∀ (f₁ : Frame R ℕ) (a' : TypedValue R) (w₁ : R.World),
      f₁.temps a.temp = some a'.value → a.type = some a'.type →
      evalUnary op a' w₁ = some (tv, w') → type = some tv.type ∧
        execInstr tempPlacement unit f₁ rest w₁ inst =
          some (.running (f₁.set ctx₁.tempCount tv.value :: rest) w')) :
    ∃ f', ExprRun unit rest ctx ctx₂ f f' w w' ∧ f'.temps ctx₁.tempCount = some tv.value ∧
      type = some tv.type := by
  obtain ⟨a', w₁, hea, hop⟩ := evalExpr_unary he
  obtain ⟨f₁, hrun, hval, htype⟩ := ihE rest ha hea (hgrows.trans hg) hf
  obtain ⟨hres, hexec⟩ := hstep f₁ a' w₁ hval htype hop
  exact hrun.computes _ ha.grows.tempCount hctx hf.fn hg hres hexec

/-- A binary node: its operands, from left to right. -/
theorem simExpr_operands {n : ℕ} (ihE : SimExpr R Γ unit n) {op : BinaryOp}
    {ctx ctx₁ ctx₂ final : LoweringContext} {l r : Expr} {a b : Operand} {env : Env R}
    {tv : TypedValue R} {f : Frame R ℕ} (rest : List (Frame R ℕ)) {w w' : R.World}
    (ha : ExprLowers Γ.table ctx l a ctx₁) (hb : ExprLowers Γ.table ctx₁ r b ctx₂)
    (he : evalExpr Γ (n + 1) env (.binary op l r) w = some (tv, w'))
    (hg : ctx₂.Grows final) (hf : Located unit final ctx env f) :
    ∃ f₂ a' b', ExprRun unit rest ctx ctx₂ f f₂ w w' ∧ f₂.temps a.temp = some a'.value ∧
      f₂.temps b.temp = some b'.value ∧ evalBinary op a' b' = some tv := by
  simp only [evalExpr, Option.bind_eq_bind, Option.bind_eq_some_iff, Option.pure_def,
    Option.some.injEq, Prod.mk.injEq] at he
  obtain ⟨⟨a', w₁⟩, hea, ⟨b', w₂⟩, heb, tv', hop, rfl, rfl⟩ := he
  obtain ⟨f₁, hrun₁, hval₁, _⟩ := ihE rest ha hea (hb.grows.trans hg) hf
  obtain ⟨f₂, hrun₂, hval₂, _⟩ := ihE rest hb heb hg (hrun₁.located hf)
  refine ⟨f₂, a', b', hrun₁.trans hrun₂ ha.grows.tempCount, ?_, hval₂, hop⟩
  rw [hrun₂.temps a.temp ha.facts.temp_lt]
  exact hval₁

/-- Both operands of a logical node are made booleans before they are combined. -/
theorem simExpr_logical {ctx ctx₂ final : LoweringContext} {a b : ℕ} {bin : BinOp} {x y z : Word}
    {f f₂ : Frame R ℕ} {rest : List (Frame R ℕ)} {w w' : R.World}
    (hrun : ExprRun unit rest ctx ctx₂ f f₂ w w') (hle : ctx.tempCount ≤ ctx₂.tempCount)
    (hfn : f.fn = final.toFunction) (hbin : bin = .and ∨ bin = .or)
    (hg : (((ctx₂.define (some .bool) (.cmp ctx₂.tempCount .ne a (.imm 0))).define (some .bool)
          (.cmp (ctx₂.tempCount + 1) .ne b (.imm 0))).define (some .bool)
          (.bin (ctx₂.tempCount + 2) bin ctx₂.tempCount (ctx₂.tempCount + 1))).Grows final)
    (ha : f₂.readWord tempPlacement a = some x) (hb : f₂.readWord tempPlacement b = some y)
    (hblt : b < ctx₂.tempCount) (hz : bin.eval x y = some z) :
    ∃ f', ExprRun unit rest ctx (((ctx₂.define (some .bool)
        (.cmp ctx₂.tempCount .ne a (.imm 0))).define (some .bool)
        (.cmp (ctx₂.tempCount + 1) .ne b (.imm 0))).define (some .bool)
        (.bin (ctx₂.tempCount + 2) bin ctx₂.tempCount (ctx₂.tempCount + 1))) f f' w w' ∧
      f'.temps (ctx₂.tempCount + 2) = some (R.ofWord z) := by
  -- each operand becomes a truth value first, and the word operation joins the two
  have hrun₁ := hrun.define hle rfl hfn
    ((((LoweringContext.Grows.refl _).define _ _).define _ _).trans hg) (exec_cmpZero ha)
  have hb₁ : (f₂.set ctx₂.tempCount (R.ofWord (wordOfBool (x ≠ 0)))).readWord tempPlacement b =
      some y := by
    rw [Frame.readWord, Frame.read_tempPlacement, Frame.set_temps_of_ne _ _ _ hblt.ne]
    exact hb
  have hcount : (ctx₂.define (some .bool) (.cmp ctx₂.tempCount .ne a (.imm 0))).tempCount =
      ctx₂.tempCount + 1 := by simp
  have hrun₂ := hrun₁.define (hle.trans (by simp)) rfl hfn
    (((LoweringContext.Grows.refl _).define _ _).trans hg) (by rw [hcount]; exact exec_cmpZero hb₁)
  rw [hcount] at hrun₂
  have hz' : bin.eval (wordOfBool (x ≠ 0)) (wordOfBool (y ≠ 0)) = some z := by
    rw [← hz]
    rcases hbin with rfl | rfl <;> by_cases hx : x = 0 <;> by_cases hy : y = 0 <;>
      simp [BinOp.eval, wordOfBool, hx, hy]
  have hne : ctx₂.tempCount ≠ ctx₂.tempCount + 1 := by omega
  have hread₁ : ((f₂.set ctx₂.tempCount (R.ofWord (wordOfBool (x ≠ 0)))).set (ctx₂.tempCount + 1)
      (R.ofWord (wordOfBool (y ≠ 0)))).readWord tempPlacement ctx₂.tempCount =
      some (wordOfBool (x ≠ 0)) := by
    rw [Frame.readWord, Frame.read_tempPlacement, Frame.set_temps_of_ne _ _ _ hne,
      Frame.set_temps_self, Option.bind_some, R.toWord_ofWord]
  have hread₂ : ((f₂.set ctx₂.tempCount (R.ofWord (wordOfBool (x ≠ 0)))).set (ctx₂.tempCount + 1)
      (R.ofWord (wordOfBool (y ≠ 0)))).readWord tempPlacement (ctx₂.tempCount + 1) =
      some (wordOfBool (y ≠ 0)) := by
    rw [Frame.readWord, Frame.read_tempPlacement, Frame.set_temps_self, Option.bind_some,
      R.toWord_ofWord]
  have hexec : execInstr tempPlacement unit ((f₂.set ctx₂.tempCount
      (R.ofWord (wordOfBool (x ≠ 0)))).set (ctx₂.tempCount + 1) (R.ofWord (wordOfBool (y ≠ 0))))
      rest w' (.bin (ctx₂.tempCount + 2) bin ctx₂.tempCount (ctx₂.tempCount + 1)) =
      some (.running (((f₂.set ctx₂.tempCount (R.ofWord (wordOfBool (x ≠ 0)))).set
        (ctx₂.tempCount + 1) (R.ofWord (wordOfBool (y ≠ 0)))).set (ctx₂.tempCount + 2)
        (R.ofWord z) :: rest) w') := by
    simp only [execInstr, hread₁, hread₂, hz', Option.bind_eq_bind, Option.bind_some,
      Frame.define_tempPlacement, Option.pure_def]
  have hcount₂ : ((ctx₂.define (some .bool) (.cmp ctx₂.tempCount .ne a (.imm 0))).define
      (some .bool) (.cmp (ctx₂.tempCount + 1) .ne b (.imm 0))).tempCount = ctx₂.tempCount + 2 := by
    simp
  have hrun₃ := hrun₂.computes (wordValue R .bool z) (hle.trans (by simp; omega)) rfl hfn hg
    rfl (by rw [hcount₂]; exact hexec)
  rw [hcount₂] at hrun₃
  obtain ⟨f', hrun', hval, _⟩ := hrun₃
  exact ⟨f', hrun', hval⟩

/-- A call: its arguments, from left to right, and then the activation of the callee. -/
theorem simExpr_call {n : ℕ} (hΓ : Linked Γ unit) (ihA : SimArgs R Γ unit n)
    (ihC : SimCall R Γ unit n) {ctx ctx₁ final : LoweringContext} {name : String} {callee : FnMeta}
    {args : List Expr} {vs : List Operand} {env : Env R} {v : TypedValue R} {f : Frame R ℕ}
    (rest : List (Frame R ℕ)) {w w' : R.World} (hcallee : Γ.table.lookup name = some callee)
    (hlen : args.length = callee.paramTypes.length)
    (hargs : ArgsLower Γ.table ctx callee.paramTypes args vs ctx₁)
    (he : evalExpr Γ (n + 1) env (.call (.identifier name) args) w = some (v, w'))
    (hg : (ctx₁.define callee.returnType
      (.call ctx₁.tempCount (.fn name) (vs.map (·.temp)) callee.returnType)).Grows final)
    (hf : Located unit final ctx env f) :
    ∃ f', ExprRun unit rest ctx (ctx₁.define callee.returnType
        (.call ctx₁.tempCount (.fn name) (vs.map (·.temp)) callee.returnType)) f f' w w' ∧
      f'.temps ctx₁.tempCount = some v.value ∧ callee.returnType = some v.type := by
  simp only [evalExpr, Option.bind_eq_bind, Option.bind_eq_some_iff] at he
  obtain ⟨⟨tvs, w₁⟩, heargs, fd, hfd, he⟩ := he
  split at he
  · rename_i hparams
    obtain ⟨type, hret, he⟩ := Option.bind_eq_some_iff.mp he
    have hg₁ := ((LoweringContext.Grows.refl ctx₁).define callee.returnType
      (.call ctx₁.tempCount (.fn name) (vs.map (·.temp)) callee.returnType)).trans hg
    obtain ⟨f₁, hrun, hmatch⟩ := ihA rest hargs heargs hg₁ hf
    have hret : callee.returnType = some type := by
      rw [FunctionTable.returnType, hcallee] at hret
      exact hret
    -- the parameters of the callee get arguments of their types
    have htypes := hargs.types_eq hmatch hlen
      (hΓ.table.paramTypes callee (List.mem_of_find?_eq_some hcallee))
    obtain ⟨hreach, htype⟩ := reaches_call ihC rest (hrun.instr rfl hf.fn hg) hmatch.readAll hfd
      hparams hcallee htypes hret he
    exact ⟨_, hrun.set hargs.facts.1.tempCount_le rfl hreach, by simp, by rw [hret, htype]⟩
  · cases he

theorem simExpr_succ {n : ℕ} (hΓ : Linked Γ unit) (ihE : SimExpr R Γ unit n)
    (ihA : SimArgs R Γ unit n) (ihC : SimCall R Γ unit n) : SimExpr R Γ unit (n + 1) := by
  intro ctx ctx' final e v env tv f rest w w' hl he hg hf
  cases hl with
  | literal hc => exact simExpr_literal hΓ.ranked rest hc he hg hf
  | @identifier _ name loc hloc =>
      simp only [evalExpr, Option.bind_eq_bind, Option.bind_eq_some_iff, Option.pure_def,
        Option.some.injEq, Prod.mk.injEq] at he
      obtain ⟨tv', htv, rfl, rfl⟩ := he
      obtain ⟨hhid, loc', hloc', htype, hslot⟩ := hf.env name tv' htv
      have : loc = loc' := Option.some.inj ((hg.locals hhid hloc).symm.trans hloc')
      subst this
      exact (ExprRun.refl hf.pc).computes _ le_rfl rfl hf.fn hg htype (by simp [execInstr, hslot])
  | @neg _ ctx₁ e a ha hty =>
      refine simExpr_unary ihE ha he ((LoweringContext.Grows.refl _).define _ _) hg hf rfl ?_
      intro f₁ a' w₁ hval _ hop
      simp only [evalUnary] at hop
      split at hop
      · obtain ⟨x, hx, hop⟩ := Option.map_eq_some_iff.mp hop
        cases hop
        exact ⟨rfl, by simp [execInstr, Frame.readWord_of_word hval hx, wordValue]⟩
      · cases hop
  | @not _ ctx₁ e a ha hty =>
      refine simExpr_unary ihE ha he ((LoweringContext.Grows.refl _).define _ _) hg hf rfl ?_
      intro f₁ a' w₁ hval _ hop
      simp only [evalUnary] at hop
      obtain ⟨x, hx, hop⟩ := Option.map_eq_some_iff.mp hop
      cases hop
      exact ⟨rfl, by simp [execInstr, Frame.readWord_of_word hval hx, wordValue]⟩
  | @tamanhoDe _ ctx₁ e a ha hty =>
      refine simExpr_unary ihE ha he ((LoweringContext.Grows.refl _).define _ _) hg hf rfl ?_
      intro f₁ a' w₁ hval htype hop
      obtain ⟨hcall, hres⟩ := lengthOf_eq_some hop
      rw [← htype] at hcall
      exact ⟨by rw [hres], exec_callRuntime (readAll_singleton hval) hcall⟩
  | @tipoDe _ ctx₁ e a ha =>
      have hext := internString_extends ctx₁.consts (typeDisplayName a.type)
      refine simExpr_unary ihE ha he
        (((LoweringContext.Grows.refl _).withConsts hext).define _ _) hg hf rfl ?_
      intro f₁ a' w₁ hval htype hop
      simp only [evalUnary] at hop
      cases hop
      -- the name of the type was interned when the operand had been lowered
      obtain ⟨i, hi, hget⟩ := internString_entry ctx₁.consts (typeDisplayName a.type)
      have hget := getElem?_extend (hg.consts.trans hf.placed.consts).strings hget
      rw [hi]
      exact ⟨rfl, by simp [execInstr, Runtime.address, hget, htype]⟩
  | @identificar _ ctx₁ e a ha =>
      refine simExpr_unary ihE ha he ((LoweringContext.Grows.refl _).define _ _) hg hf rfl ?_
      intro f₁ a' w₁ hval htype hop
      simp only [evalUnary] at hop
      obtain ⟨hcall, hres⟩ := runtimeResult_eq_some hop
      rw [htype]
      exact ⟨by rw [hres], exec_callRuntime (readAll_singleton hval) hcall⟩
  | @observar _ ctx₁ e a ha =>
      refine simExpr_unary ihE ha he ((LoweringContext.Grows.refl _).define _ _) hg hf rfl ?_
      intro f₁ a' w₁ hval htype hop
      simp only [evalUnary] at hop
      obtain ⟨hcall, hres⟩ := runtimeResult_eq_some hop
      rw [htype]
      exact ⟨by rw [hres], exec_callRuntime (readAll_singleton hval) hcall⟩
  | @compare _ ctx₁ ctx₂ op cmp l r a b ha hb hcmp _ =>
      obtain ⟨f₂, a', b', hrun, hva, hvb, hop⟩ := simExpr_operands ihE rest ha hb he
        (((LoweringContext.Grows.refl _).define _ _).trans hg) hf
      obtain ⟨x, y, hx, hy, rfl⟩ := evalBinary_cmp hcmp hop
      exact hrun.computes _ (ha.grows.trans hb.grows).tempCount rfl hf.fn hg rfl
        (by simp [execInstr, Frame.readWord_of_word hva hx, Frame.readRight,
          Frame.readWord_of_word hvb hy, wordValue])
  | @logical _ ctx₁ ctx₂ op bin l r a b ha hb hlog hbin _ _ =>
      obtain ⟨f₂, a', b', hrun, hva, hvb, hop⟩ := simExpr_operands ihE rest ha hb he
        (((((LoweringContext.Grows.refl _).define _ _).define _ _).define _ _).trans hg) hf
      obtain ⟨x, y, z, hx, hy, hz, rfl⟩ := evalBinary_bin hbin hop
      have hor : bin = .and ∨ bin = .or := by
        cases op <;> simp_all [BinaryOp.isLogical, BinaryOp.binOp]
      obtain ⟨f', hrun', hval⟩ := simExpr_logical hrun (ha.grows.trans hb.grows).tempCount hf.fn hor
        hg (Frame.readWord_of_word hva hx) (Frame.readWord_of_word hvb hy) hb.facts.temp_lt hz
      exact ⟨f', hrun', hval, by simp [wordValue, hlog]⟩
  | @arith _ ctx₁ ctx₂ op bin l r a b ha hb hlog hbin _ _ =>
      obtain ⟨f₂, a', b', hrun, hva, hvb, hop⟩ := simExpr_operands ihE rest ha hb he
        (((LoweringContext.Grows.refl _).define _ _).trans hg) hf
      obtain ⟨x, y, z, hx, hy, hz, rfl⟩ := evalBinary_bin hbin hop
      exact hrun.computes _ (ha.grows.trans hb.grows).tempCount rfl hf.fn hg
        (by simp [wordValue, hlog])
        (by simp [execInstr, Frame.readWord_of_word hva hx, Frame.readWord_of_word hvb hy, hz,
          wordValue])
  | call hname hcallee hlen hargs => exact simExpr_call hΓ ihA ihC rest hcallee hlen hargs he hg hf

theorem simArgs_succ {n : ℕ} (ihE : SimExpr R Γ unit n) (ihA : SimArgs R Γ unit n) :
    SimArgs R Γ unit (n + 1) := by
  intro ctx ctx' final types args vs env tvs f rest w w' hl he hg hf
  cases hl with
  | nil =>
      simp only [evalArgs] at he
      cases he
      exact ⟨f, .refl hf.pc, .nil⟩
  | @cons _ ctx₁ _ _ arg args v vs hv hty hvs =>
      simp only [evalArgs, Option.bind_eq_bind, Option.bind_eq_some_iff, Option.pure_def,
        Option.some.injEq, Prod.mk.injEq] at he
      obtain ⟨⟨tv, w₁⟩, hev, ⟨tvs', w₂⟩, hevs, rfl, rfl⟩ := he
      have hgrows := hvs.facts.1.grows
      obtain ⟨f₁, hrun₁, hval, htype⟩ := ihE rest hv hev (hgrows.trans hg) hf
      obtain ⟨f₂, hrun₂, hmatch⟩ := ihA rest hvs hevs hg (hrun₁.located hf)
      refine ⟨f₂, hrun₁.trans hrun₂ hv.grows.tempCount, .cons ⟨?_, htype⟩ hmatch⟩
      rw [hrun₂.temps v.temp hv.facts.temp_lt]
      exact hval

end Expressions

end GatoCore.Native
