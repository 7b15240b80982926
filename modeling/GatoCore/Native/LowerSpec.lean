import GatoCore.Lib.StateExcept
import GatoCore.Native.Lower

/-!
# What a successful lowering does

`ExprLowers` and `StmtLowers` say, one constructor per successful path of `lowerExpr` and
`lowerStatement`, how the context changes. Every later proof about lowered code is an induction on
these relations; the monadic code is taken apart here once.

A context carries all instructions emitted so far, so the code of a node starts at position
`ctx.instructions.length` of the function it ends up in.
-/

namespace GatoCore.Native

open GatoCore.Lib

namespace LoweringContext

/-- A new temp together with the instruction that defines it. -/
@[simps!]
def define (ctx : LoweringContext) (type : Option Ty) (inst : Instr) : LoweringContext :=
  (ctx.withTemp type).withInstr inst

section TempCount

variable (ctx : LoweringContext)

@[simp] theorem withLocal_tempCount (loc : Local) : (ctx.withLocal loc).tempCount = ctx.tempCount :=
  rfl

@[simp] theorem withInstr_tempCount (inst : Instr) :
    (ctx.withInstr inst).tempCount = ctx.tempCount := rfl

@[simp] theorem withLabels_tempCount (n : ℕ) : (ctx.withLabels n).tempCount = ctx.tempCount := rfl

@[simp] theorem withConsts_tempCount (consts : ConstTables) :
    (ctx.withConsts consts).tempCount = ctx.tempCount := rfl

@[simp] theorem withTemp_tempCount (type : Option Ty) :
    (ctx.withTemp type).tempCount = ctx.tempCount + 1 := by simp [tempCount]

@[simp] theorem define_tempCount (type : Option Ty) (inst : Instr) :
    (ctx.define type inst).tempCount = ctx.tempCount + 1 := by simp [define]

end TempCount

end LoweringContext

/-- `ensureLocal`: the existing local of that type, or a new one. -/
inductive EnsuresLocal (ctx : LoweringContext) (name : String) (type : Option Ty) :
    Local → LoweringContext → Prop
  | existing {loc : Local} : ctx.locals name = some loc → loc.type = type →
      EnsuresLocal ctx name type loc ctx
  | fresh : ctx.locals name = none →
      EnsuresLocal ctx name type (ctx.freshLocal name type false)
        (ctx.withLocal (ctx.freshLocal name type false))

/-! ## Expressions -/

mutual
inductive ExprLowers (table : FunctionTable) :
    LoweringContext → Expr → Operand → LoweringContext → Prop
  | literal {ctx : LoweringContext} {e : Expr} {constant : ConstValue} {consts : ConstTables} :
      buildConstValue ctx.consts e = .ok (constant, consts) →
      ExprLowers table ctx e ⟨ctx.tempCount, some constant.type⟩
        ((ctx.withConsts consts).define (some constant.type) (constant.instr ctx.tempCount))
  | identifier {ctx : LoweringContext} {name : String} {loc : Local} :
      ctx.locals name = some loc →
      ExprLowers table ctx (.identifier name) ⟨ctx.tempCount, loc.type⟩
        (ctx.define loc.type (.loadLocal ctx.tempCount loc.slot loc.type))
  | neg {ctx ctx₁ : LoweringContext} {e : Expr} {v : Operand} :
      ExprLowers table ctx e v ctx₁ → v.type = some .i64 →
      ExprLowers table ctx (.unary .neg e) ⟨ctx₁.tempCount, some .i64⟩
        (ctx₁.define (some .i64) (.neg ctx₁.tempCount v.temp))
  | not {ctx ctx₁ : LoweringContext} {e : Expr} {v : Operand} :
      ExprLowers table ctx e v ctx₁ → isIntLikeType v.type = true →
      ExprLowers table ctx (.unary .not e) ⟨ctx₁.tempCount, some .bool⟩
        (ctx₁.define (some .bool) (.not ctx₁.tempCount v.temp))
  | tamanhoDe {ctx ctx₁ : LoweringContext} {e : Expr} {v : Operand} :
      ExprLowers table ctx e v ctx₁ → (v.type = some .str ∨ isArrayType v.type = true) →
      ExprLowers table ctx (.unary .tamanhoDe e) ⟨ctx₁.tempCount, some .i64⟩
        (ctx₁.define (some .i64)
          (.callRuntime ctx₁.tempCount (lengthFn v.type) [v.temp] (some .i64)))
  | tipoDe {ctx ctx₁ : LoweringContext} {e : Expr} {v : Operand} :
      ExprLowers table ctx e v ctx₁ →
      ExprLowers table ctx (.unary .tipoDe e) ⟨ctx₁.tempCount, some .str⟩
        ((ctx₁.withConsts (internString ctx₁.consts (typeDisplayName v.type)).2).define (some .str)
          (.constStr ctx₁.tempCount (internString ctx₁.consts (typeDisplayName v.type)).1))
  | identificar {ctx ctx₁ : LoweringContext} {e : Expr} {v : Operand} :
      ExprLowers table ctx e v ctx₁ →
      ExprLowers table ctx (.unary .identificar e) ⟨ctx₁.tempCount, some .str⟩
        (ctx₁.define (some .str)
          (.callRuntime ctx₁.tempCount (.identificar (runtimeTypeOf v.type)) [v.temp] (some .str)))
  | observar {ctx ctx₁ : LoweringContext} {e : Expr} {v : Operand} :
      ExprLowers table ctx e v ctx₁ →
      ExprLowers table ctx (.unary .observar e) ⟨ctx₁.tempCount, v.type⟩
        (ctx₁.define v.type
          (.callRuntime ctx₁.tempCount (.observar (runtimeTypeOf v.type)) [v.temp] v.type))
  | compare {ctx ctx₁ ctx₂ : LoweringContext} {op : BinaryOp} {cmp : CmpOp} {l r : Expr}
      {a b : Operand} :
      ExprLowers table ctx l a ctx₁ → ExprLowers table ctx₁ r b ctx₂ →
      op.cmpOp = some cmp → comparable op a.type b.type = true →
      ExprLowers table ctx (.binary op l r) ⟨ctx₂.tempCount, some .bool⟩
        (ctx₂.define (some .bool) (.cmp ctx₂.tempCount cmp a.temp (.temp b.temp)))
  | logical {ctx ctx₁ ctx₂ : LoweringContext} {op : BinaryOp} {bin : BinOp} {l r : Expr}
      {a b : Operand} :
      ExprLowers table ctx l a ctx₁ → ExprLowers table ctx₁ r b ctx₂ →
      op.isLogical = true → op.binOp = some bin →
      isIntLikeType a.type = true → isIntLikeType b.type = true →
      ExprLowers table ctx (.binary op l r) ⟨ctx₂.tempCount + 2, some .bool⟩
        (((ctx₂.define (some .bool) (.cmp ctx₂.tempCount .ne a.temp (.imm 0))).define (some .bool)
          (.cmp (ctx₂.tempCount + 1) .ne b.temp (.imm 0))).define (some .bool)
          (.bin (ctx₂.tempCount + 2) bin ctx₂.tempCount (ctx₂.tempCount + 1)))
  | arith {ctx ctx₁ ctx₂ : LoweringContext} {op : BinaryOp} {bin : BinOp} {l r : Expr}
      {a b : Operand} :
      ExprLowers table ctx l a ctx₁ → ExprLowers table ctx₁ r b ctx₂ →
      op.isLogical = false → op.binOp = some bin →
      a.type = some .i64 → b.type = some .i64 →
      ExprLowers table ctx (.binary op l r) ⟨ctx₂.tempCount, some .i64⟩
        (ctx₂.define (some .i64) (.bin ctx₂.tempCount bin a.temp b.temp))
  | call {ctx ctx₁ : LoweringContext} {name : String} {callee : FnMeta} {args : List Expr}
      {vs : List Operand} :
      name ≠ defaultsKey → table.lookup name = some callee →
      args.length = callee.paramTypes.length →
      ArgsLower table ctx callee.paramTypes args vs ctx₁ →
      ExprLowers table ctx (.call (.identifier name) args) ⟨ctx₁.tempCount, callee.returnType⟩
        (ctx₁.define callee.returnType
          (.call ctx₁.tempCount (.fn name) (vs.map (·.temp)) callee.returnType))

/-- The arguments of a call against the parameter types from the current one on. -/
inductive ArgsLower (table : FunctionTable) :
    LoweringContext → List (Option Ty) → List Expr → List Operand → LoweringContext → Prop
  | nil {ctx : LoweringContext} {types : List (Option Ty)} : ArgsLower table ctx types [] [] ctx
  | cons {ctx ctx₁ ctx₂ : LoweringContext} {types : List (Option Ty)} {arg : Expr}
      {args : List Expr} {v : Operand} {vs : List Operand} :
      ExprLowers table ctx arg v ctx₁ →
      (types.head?.join = none ∨ types.head?.join = v.type) →
      ArgsLower table ctx₁ types.tail args vs ctx₂ →
      ArgsLower table ctx types (arg :: args) (v :: vs) ctx₂
end

theorem emitConstValue_run {constant : ConstValue} {ctx ctx' : LoweringContext} {v : Operand}
    (h : (emitConstValue constant).run ctx = .ok (v, ctx')) :
    v = ⟨ctx.tempCount, some constant.type⟩ ∧
      ctx' = ctx.define (some constant.type) (constant.instr ctx.tempCount) := by
  simp only [emitConstValue, newTemp, emit, run_bind_ok, run_modifyGet_ok, run_modify_ok,
    run_pure_ok, Prod.mk.injEq] at h
  obtain ⟨_, _, ⟨rfl, rfl⟩, _, _, ⟨_, rfl⟩, rfl, rfl⟩ := h
  exact ⟨rfl, rfl⟩

theorem buildConst_run {e : Expr} {ctx ctx' : LoweringContext} {constant : ConstValue}
    (h : (buildConst e).run ctx = .ok (constant, ctx')) :
    ∃ consts, buildConstValue ctx.consts e = .ok (constant, consts) ∧
      ctx' = ctx.withConsts consts := by
  simp only [buildConst, run_bind_ok, run_get_ok, run_lift_ok, run_set_ok, run_pure_ok,
    Prod.mk.injEq] at h
  obtain ⟨_, _, ⟨rfl, rfl⟩, ⟨_, consts⟩, _, ⟨hb, rfl⟩, _, _, ⟨_, rfl⟩, rfl, rfl⟩ := h
  exact ⟨consts, hb, rfl⟩

theorem lowerLiteral_run {table : FunctionTable} {e : Expr} {ctx ctx' : LoweringContext}
    {v : Operand}
    (h : (do emitConstValue (← buildConst e) : LowerM Operand).run ctx = .ok (v, ctx')) :
    ExprLowers table ctx e v ctx' := by
  obtain ⟨constant, ctx₁, hb, he⟩ := run_bind_ok.mp h
  obtain ⟨consts, hc, rfl⟩ := buildConst_run hb
  obtain ⟨rfl, rfl⟩ := emitConstValue_run he
  exact .literal hc

theorem lowerUnary_run {table : FunctionTable} {op : UnaryOp} {e : Expr} {v r : Operand}
    {ctx ctx₁ ctx' : LoweringContext} (he : ExprLowers table ctx e v ctx₁)
    (h : (lowerUnary op v).run ctx₁ = .ok (r, ctx')) :
    ExprLowers table ctx (.unary op e) r ctx' := by
  cases op with
  | neg =>
      simp only [lowerUnary] at h
      split at h
      · exact (run_throw_bind_ok.mp h).elim
      · rename_i hty
        simp only [newTemp, emit, run_bind_ok, run_modifyGet_ok, run_modify_ok, run_pure_ok,
          Prod.mk.injEq] at h
        obtain ⟨_, _, ⟨rfl, rfl⟩, _, _, ⟨_, rfl⟩, rfl, rfl⟩ := h
        exact .neg he (not_not.mp hty)
  | not =>
      simp only [lowerUnary] at h
      split at h
      · exact (run_throw_bind_ok.mp h).elim
      · rename_i hty
        simp only [newTemp, emit, run_bind_ok, run_modifyGet_ok, run_modify_ok, run_pure_ok,
          Prod.mk.injEq] at h
        obtain ⟨_, _, ⟨rfl, rfl⟩, _, _, ⟨_, rfl⟩, rfl, rfl⟩ := h
        exact .not he (by simpa using hty)
  | tamanhoDe =>
      simp only [lowerUnary] at h
      split at h
      · exact (run_throw_bind_ok.mp h).elim
      · rename_i hty
        simp only [newTemp, emit, run_bind_ok, run_modifyGet_ok, run_modify_ok, run_pure_ok,
          Prod.mk.injEq] at h
        obtain ⟨_, _, ⟨rfl, rfl⟩, _, _, ⟨_, rfl⟩, rfl, rfl⟩ := h
        refine .tamanhoDe he ?_
        by_contra hne
        rw [not_or] at hne
        exact hty ⟨hne.1, by simpa using hne.2⟩
  | tipoDe =>
      simp only [lowerUnary, newTemp, emit, internText, run_bind_ok, run_modifyGet_ok,
        run_modify_ok, run_pure_ok, Prod.mk.injEq] at h
      obtain ⟨_, _, ⟨rfl, rfl⟩, _, _, ⟨rfl, rfl⟩, _, _, ⟨_, rfl⟩, rfl, rfl⟩ := h
      exact .tipoDe he
  | identificar =>
      simp only [lowerUnary, newTemp, emit, run_bind_ok, run_modifyGet_ok, run_modify_ok,
        run_pure_ok, Prod.mk.injEq] at h
      obtain ⟨_, _, ⟨rfl, rfl⟩, _, _, ⟨_, rfl⟩, rfl, rfl⟩ := h
      exact .identificar he
  | observar =>
      simp only [lowerUnary, newTemp, emit, run_bind_ok, run_modifyGet_ok, run_modify_ok,
        run_pure_ok, Prod.mk.injEq] at h
      obtain ⟨_, _, ⟨rfl, rfl⟩, _, _, ⟨_, rfl⟩, rfl, rfl⟩ := h
      exact .observar he

theorem lowerBinary_run {table : FunctionTable} {op : BinaryOp} {l r : Expr} {a b v : Operand}
    {ctx ctx₁ ctx₂ ctx' : LoweringContext} (hl : ExprLowers table ctx l a ctx₁)
    (hr : ExprLowers table ctx₁ r b ctx₂)
    (h : (lowerBinary op a b).run ctx₂ = .ok (v, ctx')) :
    ExprLowers table ctx (.binary op l r) v ctx' := by
  simp only [lowerBinary] at h
  split at h
  · rename_i cmp hcmp
    split at h
    · exact (run_throw_bind_ok.mp h).elim
    · rename_i hty
      simp only [newTemp, emit, run_bind_ok, run_modifyGet_ok, run_modify_ok, run_pure_ok,
        Prod.mk.injEq] at h
      obtain ⟨_, _, ⟨rfl, rfl⟩, _, _, ⟨_, rfl⟩, rfl, rfl⟩ := h
      exact .compare hl hr hcmp (by simpa using hty)
  · rename_i bin _ hbin
    split at h
    · rename_i hlog
      split at h
      · exact (run_throw_bind_ok.mp h).elim
      · rename_i hty
        simp only [newTemp, emit, run_bind_ok, run_modifyGet_ok, run_modify_ok, run_pure_ok,
          Prod.mk.injEq] at h
        obtain ⟨_, _, ⟨rfl, rfl⟩, _, _, ⟨rfl, rfl⟩, _, _, ⟨_, rfl⟩, _, _, ⟨_, rfl⟩, _, _,
          ⟨rfl, rfl⟩, _, _, ⟨_, rfl⟩, rfl, rfl⟩ := h
        have htys : isIntLikeType a.type = true ∧ isIntLikeType b.type = true := by
          simpa using hty
        -- the two temps of the operands are allocated before their `cmp`s are emitted
        have := ExprLowers.logical hl hr hlog hbin htys.1 htys.2
        simpa [LoweringContext.define, LoweringContext.withTemp, LoweringContext.withInstr,
          LoweringContext.tempCount] using this
    · rename_i hlog
      split at h
      · exact (run_throw_bind_ok.mp h).elim
      · rename_i hty
        simp only [newTemp, emit, run_bind_ok, run_modifyGet_ok, run_modify_ok, run_pure_ok,
          Prod.mk.injEq] at h
        obtain ⟨_, _, ⟨rfl, rfl⟩, _, _, ⟨_, rfl⟩, rfl, rfl⟩ := h
        rw [not_or, not_not, not_not] at hty
        exact .arith hl hr (by simpa using hlog) hbin hty.1 hty.2
  · exact (run_throw_ok.mp h).elim

/-- Only direct calls by name are lowered. -/
theorem lowerExpr_call_other {table : FunctionTable} {callee : Expr} {args : List Expr}
    (hne : ∀ name, callee ≠ .identifier name) {ctx : LoweringContext}
    {r : Operand × LoweringContext} :
    (lowerExpr table (.call callee args)).run ctx ≠ .ok r := by
  rw [lowerExpr]
  · exact fun h => (run_throw_ok.mp h).elim
  · exact hne

mutual
/-- A run of `lowerExpr` that succeeds is described by `ExprLowers`. -/
theorem lowerExpr_lowers {table : FunctionTable} :
    ∀ {e : Expr} {ctx ctx' : LoweringContext} {v : Operand},
      (lowerExpr table e).run ctx = .ok (v, ctx') → ExprLowers table ctx e v ctx'
  | .number _, _, _, _, h => lowerLiteral_run (by rwa [lowerExpr] at h)
  | .string _, _, _, _, h => lowerLiteral_run (by rwa [lowerExpr] at h)
  | .bool _, _, _, _, h => lowerLiteral_run (by rwa [lowerExpr] at h)
  | .null, _, _, _, h => lowerLiteral_run (by rwa [lowerExpr] at h)
  | .array _, _, _, _, h => lowerLiteral_run (by rwa [lowerExpr] at h)
  | .identifier name, ctx, ctx', v, h => by
      rw [lowerExpr] at h
      simp only [run_bind_ok, run_get_ok, Prod.mk.injEq] at h
      obtain ⟨_, _, ⟨rfl, rfl⟩, h⟩ := h
      split at h
      · exact (run_throw_ok.mp h).elim
      · rename_i loc hloc
        simp only [newTemp, emit, run_bind_ok, run_modifyGet_ok, run_modify_ok, run_pure_ok,
          Prod.mk.injEq] at h
        obtain ⟨_, _, ⟨rfl, rfl⟩, _, _, ⟨_, rfl⟩, rfl, rfl⟩ := h
        exact .identifier hloc
  | .unary op e, ctx, ctx', v, h => by
      rw [lowerExpr] at h
      obtain ⟨a, ctx₁, he, hu⟩ := run_bind_ok.mp h
      exact lowerUnary_run (lowerExpr_lowers he) hu
  | .binary op l r, ctx, ctx', v, h => by
      rw [lowerExpr] at h
      obtain ⟨a, ctx₁, hl, h⟩ := run_bind_ok.mp h
      obtain ⟨b, ctx₂, hr, hb⟩ := run_bind_ok.mp h
      exact lowerBinary_run (lowerExpr_lowers hl) (lowerExpr_lowers hr) hb
  | .call callee args, ctx, ctx', v, h => by
      cases callee with
      | identifier name =>
          rw [lowerExpr] at h
          split at h
          · exact (run_throw_bind_ok.mp h).elim
          · rename_i hname
            split at h
            · exact (run_throw_ok.mp h).elim
            · rename_i callee hcallee
              split at h
              · exact (run_throw_bind_ok.mp h).elim
              · rename_i hlen
                obtain ⟨temps, ctx₁, hargs, h⟩ := run_bind_ok.mp h
                simp only [newTemp, emit, run_bind_ok, run_modifyGet_ok, run_modify_ok,
                  run_pure_ok, Prod.mk.injEq] at h
                obtain ⟨_, _, ⟨rfl, rfl⟩, _, _, ⟨_, rfl⟩, rfl, rfl⟩ := h
                obtain ⟨vs, rfl, hvs⟩ := lowerArgs_lowers hargs
                exact .call hname hcallee (not_not.mp hlen) hvs
      | _ => exact absurd h (lowerExpr_call_other (by simp))

theorem lowerArgs_lowers {table : FunctionTable} {name : String} :
    ∀ {args : List Expr} {types : List (Option Ty)} {ctx ctx' : LoweringContext}
      {temps : List ℕ}, (lowerArgs table name types args).run ctx = .ok (temps, ctx') →
      ∃ vs : List Operand, temps = vs.map (·.temp) ∧ ArgsLower table ctx types args vs ctx'
  | [], _, _, _, _, h => by
      simp only [lowerArgs, run_pure_ok, Prod.mk.injEq] at h
      obtain ⟨rfl, rfl⟩ := h
      exact ⟨[], rfl, .nil⟩
  | arg :: args, types, ctx, ctx', temps, h => by
      rw [lowerArgs] at h
      obtain ⟨v, ctx₁, hv, h⟩ := run_bind_ok.mp h
      dsimp only at h
      split at h
      · exact (run_throw_bind_ok.mp h).elim
      · rename_i hty
        simp only [run_bind_ok, run_pure_ok, Prod.mk.injEq] at h
        obtain ⟨rest, _, hrest, rfl, rfl⟩ := h
        obtain ⟨vs, rfl, hvs⟩ := lowerArgs_lowers hrest
        refine ⟨v :: vs, rfl, .cons (lowerExpr_lowers hv) ?_ hvs⟩
        by_contra hne
        exact hty (not_or.mp hne)
end

/-! ## Statements

The contexts between the parts of a compound statement. In each of them `base` is the context
after the test or the iterable, whose counters name the labels, temps and slots of the statement. -/

namespace LoweringContext

/-- A label of the statement that starts at `base`. -/
def labelAt (base : LoweringContext) (kind : LabelKind) (i : ℕ) : Label :=
  ⟨kind, base.labelCount + i⟩

/-- `se`: from the test to the start of the first branch. -/
def ifHead (base : LoweringContext) (test : Operand) : LoweringContext :=
  ((base.withLabels 3).withInstr
    (.br test.temp (base.labelAt .thenL 0) (base.labelAt .elseL 1))).withInstr
    (.label (base.labelAt .thenL 0))

/-- `se`: between the branches. -/
def ifMiddle (base ctx : LoweringContext) : LoweringContext :=
  (ctx.withInstr (.jmp (base.labelAt .ifend 2))).withInstr (.label (base.labelAt .elseL 1))

/-- `se`: after the second branch. -/
def ifTail (base ctx : LoweringContext) : LoweringContext :=
  ctx.withInstr (.label (base.labelAt .ifend 2))

/-- `enquanto`: before the test. -/
def whileHead (base : LoweringContext) : LoweringContext :=
  (base.withLabels 3).withInstr (.label (base.labelAt .loop 0))

/-- `enquanto`: from the test to the start of the body. -/
def whileTest (base ctx : LoweringContext) (test : Operand) : LoweringContext :=
  (ctx.withInstr (.br test.temp (base.labelAt .body 1) (base.labelAt .loopend 2))).withInstr
    (.label (base.labelAt .body 1))

/-- `enquanto`: after the body. -/
def whileTail (base ctx : LoweringContext) : LoweringContext :=
  (ctx.withInstr (.jmp (base.labelAt .loop 0))).withInstr (.label (base.labelAt .loopend 2))

/-- The hidden local that holds the iterable of a `para cada`. -/
def eachLocal (base : LoweringContext) (iterable : Operand) : Local :=
  base.freshLocal (eachName base.labelCount) iterable.type false

/-- The hidden local that holds the index of a `para cada`. -/
def iterLocal (base : LoweringContext) : Local :=
  { name := iterName base.labelCount, type := some .i64, slot := base.localList.length + 1
    isParam := false }

/-- `para cada`: the iterable and the index are stored. -/
def forEachInit (base : LoweringContext) (iterable : Operand) : LoweringContext :=
  (((((base.withLocal (base.eachLocal iterable)).withInstr
    (.storeLocal base.localList.length iterable.type iterable.temp)).withLocal
    base.iterLocal).define (some .i64) (.constInt base.tempCount 0 (some .i64))).withInstr
    (.storeLocal (base.localList.length + 1) (some .i64) base.tempCount)).withLabels 3

/-- `para cada`: up to the loop label. -/
def forEachStart (base : LoweringContext) (iterable : Operand) : LoweringContext :=
  (base.forEachInit iterable).withInstr (.label (base.labelAt .foreach 0))

/-- `para cada`: the test of the index against the length. -/
def forEachCond (base : LoweringContext) (iterable : Operand) : LoweringContext :=
  ((((base.forEachStart iterable).define (some .i64)
    (.loadLocal (base.tempCount + 1) (base.localList.length + 1) (some .i64))).define
    iterable.type (.loadLocal (base.tempCount + 2) base.localList.length iterable.type)).define
    (some .i64) (.callRuntime (base.tempCount + 3) (lengthFn iterable.type)
      [base.tempCount + 2] (some .i64))).define (some .bool)
    (.cmp (base.tempCount + 4) .lt (base.tempCount + 1) (.temp (base.tempCount + 3)))

/-- `para cada`: from the test to the start of the body. -/
def forEachTest (base : LoweringContext) (iterable : Operand) : LoweringContext :=
  ((base.forEachCond iterable).withInstr
    (.br (base.tempCount + 4) (base.labelAt .foreachBody 1) (base.labelAt .foreachEnd 2))).withInstr
    (.label (base.labelAt .foreachBody 1))

/-- `para cada`: the item is read and stored in the local of the binding. -/
def forEachItem (base ctx : LoweringContext) (iterable : Operand) (loc : Local) :
    LoweringContext :=
  (ctx.define loc.type (.callRuntime (base.tempCount + 5) (itemFn iterable.type loc.type)
    [base.tempCount + 2, base.tempCount + 1] loc.type)).withInstr
    (.storeLocal loc.slot loc.type (base.tempCount + 5))

/-- `para cada`: the index moves on after the body. -/
def forEachStep (base ctx : LoweringContext) : LoweringContext :=
  ((ctx.define (some .i64) (.constInt ctx.tempCount 1 (some .i64))).define (some .i64)
    (.bin (ctx.tempCount + 1) .add (base.tempCount + 1) ctx.tempCount)).withInstr
    (.storeLocal (base.localList.length + 1) (some .i64) (ctx.tempCount + 1))

/-- `para cada`: after the body. -/
def forEachTail (base ctx : LoweringContext) : LoweringContext :=
  ((base.forEachStep ctx).withInstr (.jmp (base.labelAt .foreach 0))).withInstr
    (.label (base.labelAt .foreachEnd 2))

end LoweringContext

/-- `defaultValue`. -/
inductive DefaultLowers (table : FunctionTable) (ctx : LoweringContext) (type : Option Ty) :
    Operand → LoweringContext → Prop
  | array : isArrayType type = true →
      DefaultLowers table ctx type ⟨ctx.tempCount, type⟩
        (ctx.define type (.constInt ctx.tempCount 0 type))
  | literal {v : Operand} {ctx' : LoweringContext} : isArrayType type = false →
      ExprLowers table ctx (typeDefaultValue type) v ctx' →
      DefaultLowers table ctx type v ctx'

mutual
inductive StmtLowers (table : FunctionTable) : LoweringContext → Stmt → LoweringContext → Prop
  | define {ctx ctx₁ ctx₂ : LoweringContext} {name : String} {e : Expr} {v : Operand}
      {loc : Local} :
      ExprLowers table ctx e v ctx₁ → EnsuresLocal ctx₁ name v.type loc ctx₂ →
      StmtLowers table ctx (.define name e)
        (ctx₂.withInstr (.storeLocal loc.slot loc.type v.temp))
  | assign {ctx ctx₁ : LoweringContext} {name : String} {e : Expr} {v : Operand} {loc : Local} :
      ctx.locals name = some loc → ExprLowers table ctx e v ctx₁ → loc.type = v.type →
      StmtLowers table ctx (.assign name e)
        (ctx₁.withInstr (.storeLocal loc.slot loc.type v.temp))
  | show {ctx ctx₁ : LoweringContext} {e : Expr} {v : Operand} :
      ExprLowers table ctx e v ctx₁ →
      StmtLowers table ctx (.show e) (ctx₁.withInstr (.print v.temp (runtimeTypeOf v.type)))
  | exprStmt {ctx ctx₁ : LoweringContext} {e : Expr} {v : Operand} :
      ExprLowers table ctx e v ctx₁ → StmtLowers table ctx (.exprStmt e) ctx₁
  | ret {ctx ctx₁ : LoweringContext} {e : Expr} {v : Operand} :
      ExprLowers table ctx e v ctx₁ → v.type = ctx₁.returnType →
      StmtLowers table ctx (.ret (some e)) (ctx₁.withInstr (.ret v.temp v.type))
  | retDefault {ctx ctx₁ : LoweringContext} {v : Operand} :
      DefaultLowers table ctx ctx.returnType v ctx₁ → v.type = ctx₁.returnType →
      StmtLowers table ctx (.ret none) (ctx₁.withInstr (.ret v.temp v.type))
  | ifElse {ctx base ctx₂ ctx₃ : LoweringContext} {test : Expr} {t : Operand}
      {thenBody elseBody : List Stmt} :
      ExprLowers table ctx test t base → isIntLikeType t.type = true →
      StmtsLower table (base.ifHead t) thenBody ctx₂ →
      StmtsLower table (base.ifMiddle ctx₂) elseBody ctx₃ →
      StmtLowers table ctx (.ifElse test thenBody elseBody) (base.ifTail ctx₃)
  | while {base ctx₁ ctx₂ : LoweringContext} {test : Expr} {t : Operand} {body : List Stmt} :
      ExprLowers table base.whileHead test t ctx₁ → isIntLikeType t.type = true →
      StmtsLower table (base.whileTest ctx₁ t) body ctx₂ →
      StmtLowers table base (.while test body) (base.whileTail ctx₂)
  | forEach {ctx base ctx₁ ctx₂ : LoweringContext} {binding : String} {iterable : Expr}
      {v : Operand} {loc : Local} {body : List Stmt} :
      ExprLowers table ctx iterable v base →
      EnsuresLocal (base.forEachTest v) binding (bindingType v.type) loc ctx₁ →
      StmtsLower table (base.forEachItem ctx₁ v loc) body ctx₂ →
      StmtLowers table ctx (.forEach binding iterable body) (base.forEachTail ctx₂)

inductive StmtsLower (table : FunctionTable) :
    LoweringContext → List Stmt → LoweringContext → Prop
  | nil {ctx : LoweringContext} : StmtsLower table ctx [] ctx
  | cons {ctx ctx₁ ctx₂ : LoweringContext} {s : Stmt} {body : List Stmt} :
      StmtLowers table ctx s ctx₁ → StmtsLower table ctx₁ body ctx₂ →
      StmtsLower table ctx (s :: body) ctx₂
end

theorem ensureLocal_run {name : String} {type : Option Ty} {loc : Local}
    {ctx ctx' : LoweringContext} (h : (ensureLocal name type).run ctx = .ok (loc, ctx')) :
    EnsuresLocal ctx name type loc ctx' := by
  simp only [ensureLocal, run_bind_ok, run_get_ok, Prod.mk.injEq] at h
  obtain ⟨_, _, ⟨rfl, rfl⟩, h⟩ := h
  split at h
  · rename_i hnone
    simp only [addLocal, run_modifyGet_ok, Prod.mk.injEq] at h
    obtain ⟨rfl, rfl⟩ := h
    exact .fresh hnone
  · rename_i loc' hloc
    split at h
    · exact (run_throw_bind_ok.mp h).elim
    · rename_i hty
      simp only [run_pure_ok, Prod.mk.injEq] at h
      obtain ⟨rfl, rfl⟩ := h
      exact .existing hloc (not_not.mp hty)

theorem defaultValue_run {table : FunctionTable} {type : Option Ty} {v : Operand}
    {ctx ctx' : LoweringContext} (h : (defaultValue type).run ctx = .ok (v, ctx')) :
    DefaultLowers table ctx type v ctx' := by
  unfold defaultValue at h
  split at h
  · rename_i harr
    simp only [newTemp, emit, run_bind_ok, run_modifyGet_ok, run_modify_ok, run_pure_ok,
      Prod.mk.injEq] at h
    obtain ⟨_, _, ⟨rfl, rfl⟩, _, _, ⟨_, rfl⟩, rfl, rfl⟩ := h
    exact .array harr
  · rename_i harr
    exact .literal (by simpa using harr) (lowerLiteral_run h)

theorem lowerReturn_run {v : Operand} {ctx ctx' : LoweringContext} {u : Unit}
    (h : (lowerReturn v).run ctx = .ok (u, ctx')) :
    v.type = ctx.returnType ∧ ctx' = ctx.withInstr (.ret v.temp v.type) := by
  simp only [lowerReturn, run_bind_ok, run_get_ok, Prod.mk.injEq] at h
  obtain ⟨_, _, ⟨rfl, rfl⟩, h⟩ := h
  split at h
  · exact (run_throw_bind_ok.mp h).elim
  · rename_i hty
    simp only [emit, run_modify_ok, Prod.mk.injEq] at h
    exact ⟨not_not.mp hty, h.2.symm⟩

theorem lowerTruthy_run {type : Option Ty} {ctx ctx' : LoweringContext} {u : Unit}
    (h : (lowerTruthy type).run ctx = .ok (u, ctx')) : isIntLikeType type = true ∧ ctx' = ctx := by
  unfold lowerTruthy at h
  split at h
  · rename_i hty
    simp only [run_pure_ok, Prod.mk.injEq] at h
    exact ⟨hty, h.2.symm⟩
  · exact (run_throw_ok.mp h).elim

theorem defaultValue_i64_run {v : Operand} {ctx ctx' : LoweringContext}
    (h : (defaultValue (some .i64)).run ctx = .ok (v, ctx')) :
    v = ⟨ctx.tempCount, some .i64⟩ ∧
      ctx' = ctx.define (some .i64) (.constInt ctx.tempCount 0 (some .i64)) := by
  obtain ⟨constant, ctx₁, hb, he⟩ := run_bind_ok.mp h
  obtain ⟨consts, hc, rfl⟩ := buildConst_run hb
  obtain ⟨rfl, rfl⟩ := emitConstValue_run he
  rw [typeDefaultValue, buildConstValue] at hc
  cases hc
  exact ⟨rfl, rfl⟩

/-- What `lowerForEachStart` returns. -/
def LoweringContext.forEachNames (base : LoweringContext) (iterable : Operand) : ForEachNames :=
  ⟨base.eachLocal iterable, base.iterLocal, base.labelAt .foreach 0, base.labelAt .foreachBody 1,
    base.labelAt .foreachEnd 2⟩

theorem lowerForEachStart_run {iterable : Operand} {names : ForEachNames}
    {base ctx' : LoweringContext}
    (h : (lowerForEachStart iterable).run base = .ok (names, ctx')) :
    names = base.forEachNames iterable ∧ ctx' = base.forEachStart iterable := by
  simp only [lowerForEachStart, addLocal, emit, newLabel, run_bind_ok, run_get_ok,
    run_modifyGet_ok, run_modify_ok, run_pure_ok, Prod.mk.injEq] at h
  obtain ⟨_, _, ⟨rfl, rfl⟩, _, _, ⟨rfl, rfl⟩, _, _, ⟨_, rfl⟩, _, _, ⟨rfl, rfl⟩, _, _, ⟨rfl, rfl⟩,
    zero, _, hzero, _, _, ⟨_, rfl⟩, _, _, ⟨rfl, rfl⟩, _, _, ⟨rfl, rfl⟩, _, _, ⟨rfl, rfl⟩,
    _, _, ⟨_, rfl⟩, rfl, rfl⟩ := h
  obtain ⟨rfl, rfl⟩ := defaultValue_i64_run hzero
  simp [LoweringContext.forEachNames, LoweringContext.forEachStart, LoweringContext.forEachInit,
    LoweringContext.labelAt,
    LoweringContext.eachLocal, LoweringContext.iterLocal, LoweringContext.freshLocal,
    LoweringContext.withLabels]

theorem lowerForEachTest_run {iterable : Operand} {temps : ℕ × ℕ} {base ctx' : LoweringContext}
    (h : (lowerForEachTest (base.forEachNames iterable) iterable.type).run
      (base.forEachStart iterable) = .ok (temps, ctx')) :
    temps = (base.tempCount + 1, base.tempCount + 2) ∧ ctx' = base.forEachTest iterable := by
  simp only [lowerForEachTest, newTemp, emit, run_bind_ok, run_modifyGet_ok, run_modify_ok,
    run_pure_ok, Prod.mk.injEq] at h
  obtain ⟨_, _, ⟨rfl, rfl⟩, _, _, ⟨_, rfl⟩, _, _, ⟨rfl, rfl⟩, _, _, ⟨_, rfl⟩, _, _, ⟨rfl, rfl⟩,
    _, _, ⟨_, rfl⟩, _, _, ⟨rfl, rfl⟩, _, _, ⟨_, rfl⟩, _, _, ⟨_, rfl⟩, _, _, ⟨_, rfl⟩, rfl,
    rfl⟩ := h
  simp [LoweringContext.forEachTest, LoweringContext.forEachCond, LoweringContext.define,
    LoweringContext.forEachNames,
    LoweringContext.forEachStart, LoweringContext.forEachInit, LoweringContext.iterLocal,
      LoweringContext.eachLocal,
    LoweringContext.freshLocal]

theorem EnsuresLocal.tempCount {ctx ctx' : LoweringContext} {name : String} {type : Option Ty}
    {loc : Local} (h : EnsuresLocal ctx name type loc ctx') : ctx'.tempCount = ctx.tempCount := by
  cases h <;> rfl

@[simp] theorem LoweringContext.forEachStart_tempCount (base : LoweringContext)
    (iterable : Operand) : (base.forEachStart iterable).tempCount = base.tempCount + 1 := by
  simp [forEachStart, forEachInit]

@[simp] theorem LoweringContext.forEachTest_tempCount (base : LoweringContext)
    (iterable : Operand) : (base.forEachTest iterable).tempCount = base.tempCount + 5 := by
  simp [forEachTest, forEachCond]

theorem lowerForEachItem_run {binding : String} {iterable : Operand} {u : Unit}
    {base ctx' : LoweringContext}
    (h : (lowerForEachItem binding iterable.type (base.tempCount + 1) (base.tempCount + 2)).run
      (base.forEachTest iterable) = .ok (u, ctx')) :
    ∃ loc ctx₁, EnsuresLocal (base.forEachTest iterable) binding (bindingType iterable.type) loc
        ctx₁ ∧ ctx' = base.forEachItem ctx₁ iterable loc := by
  obtain ⟨loc, ctx₁, hloc, h⟩ := run_bind_ok.mp h
  have hens := ensureLocal_run hloc
  simp only [newTemp, emit, run_bind_ok, run_modifyGet_ok, run_modify_ok, Prod.mk.injEq] at h
  obtain ⟨_, _, ⟨rfl, rfl⟩, _, _, ⟨_, rfl⟩, _, rfl⟩ := h
  refine ⟨loc, ctx₁, hens, ?_⟩
  simp [LoweringContext.forEachItem, LoweringContext.define, hens.tempCount]

theorem lowerForEachTail_run {iterable : Operand} {u : Unit} {base ctx ctx' : LoweringContext}
    (h : (lowerForEachTail (base.forEachNames iterable) (base.tempCount + 1)).run ctx
      = .ok (u, ctx')) :
    ctx' = base.forEachTail ctx := by
  simp only [lowerForEachTail, newTemp, emit, run_bind_ok, run_modifyGet_ok, run_modify_ok,
    Prod.mk.injEq] at h
  obtain ⟨_, _, ⟨rfl, rfl⟩, _, _, ⟨_, rfl⟩, _, _, ⟨rfl, rfl⟩, _, _, ⟨_, rfl⟩, _, _, ⟨_, rfl⟩,
    _, _, ⟨_, rfl⟩, _, rfl⟩ := h
  simp [LoweringContext.forEachTail, LoweringContext.forEachStep, LoweringContext.define,
    LoweringContext.forEachNames,
    LoweringContext.iterLocal]

mutual
/-- A run of `lowerStatement` that succeeds is described by `StmtLowers`. -/
theorem lowerStatement_lowers {table : FunctionTable} :
    ∀ {s : Stmt} {ctx ctx' : LoweringContext} {u : Unit},
      (lowerStatement table s).run ctx = .ok (u, ctx') → StmtLowers table ctx s ctx'
  | .define name e, ctx, ctx', _, h => by
      rw [lowerStatement] at h
      obtain ⟨v, ctx₁, he, h⟩ := run_bind_ok.mp h
      obtain ⟨loc, ctx₂, hloc, h⟩ := run_bind_ok.mp h
      simp only [emit, run_modify_ok, Prod.mk.injEq] at h
      obtain ⟨-, rfl⟩ := h
      exact .define (lowerExpr_lowers he) (ensureLocal_run hloc)
  | .assign name e, ctx, ctx', _, h => by
      rw [lowerStatement] at h
      simp only [run_bind_ok, run_get_ok, Prod.mk.injEq] at h
      obtain ⟨_, _, ⟨rfl, rfl⟩, h⟩ := h
      split at h
      · exact (run_throw_ok.mp h).elim
      · rename_i loc hloc
        obtain ⟨v, ctx₁, he, h⟩ := run_bind_ok.mp h
        split at h
        · exact (run_throw_bind_ok.mp h).elim
        · rename_i hty
          simp only [emit, run_modify_ok, Prod.mk.injEq] at h
          obtain ⟨-, rfl⟩ := h
          exact .assign hloc (lowerExpr_lowers he) (not_not.mp hty)
  | .show e, ctx, ctx', _, h => by
      rw [lowerStatement] at h
      obtain ⟨v, ctx₁, he, h⟩ := run_bind_ok.mp h
      simp only [emit, run_modify_ok, Prod.mk.injEq] at h
      obtain ⟨-, rfl⟩ := h
      exact .show (lowerExpr_lowers he)
  | .exprStmt e, ctx, ctx', _, h => by
      rw [lowerStatement] at h
      obtain ⟨v, ctx₁, he, h⟩ := run_bind_ok.mp h
      simp only [run_pure_ok, Prod.mk.injEq] at h
      obtain ⟨-, rfl⟩ := h
      exact .exprStmt (lowerExpr_lowers he)
  | .ret (some e), ctx, ctx', _, h => by
      rw [lowerStatement] at h
      obtain ⟨v, ctx₁, he, h⟩ := run_bind_ok.mp h
      obtain ⟨hty, rfl⟩ := lowerReturn_run h
      exact .ret (lowerExpr_lowers he) hty
  | .ret none, ctx, ctx', _, h => by
      rw [lowerStatement] at h
      simp only [run_bind_ok, run_get_ok, Prod.mk.injEq] at h
      obtain ⟨_, _, ⟨rfl, rfl⟩, v, ctx₁, hv, h⟩ := h
      obtain ⟨hty, rfl⟩ := lowerReturn_run h
      exact .retDefault (defaultValue_run hv) hty
  | .ifElse test thenBody elseBody, ctx, ctx', _, h => by
      rw [lowerStatement] at h
      obtain ⟨t, base, ht, h⟩ := run_bind_ok.mp h
      obtain ⟨_, _, htruthy, hrest⟩ := run_bind_ok.mp h
      obtain ⟨hty, rfl⟩ := lowerTruthy_run htruthy
      simp only [newLabel, emit, run_bind_ok, run_modifyGet_ok, run_modify_ok,
        Prod.mk.injEq] at hrest
      obtain ⟨_, _, ⟨rfl, rfl⟩, _, _, ⟨rfl, rfl⟩, _, _, ⟨rfl, rfl⟩, _, _, ⟨_, rfl⟩, _, _,
        ⟨_, rfl⟩, _, ctx₂, hthen, _, _, ⟨_, rfl⟩, _, _, ⟨_, rfl⟩, _, ctx₃, helse, _, rfl⟩ := hrest
      exact .ifElse (lowerExpr_lowers ht) hty (lowerStatementList_lowers hthen)
        (lowerStatementList_lowers helse)
  | .while test body, base, ctx', _, h => by
      rw [lowerStatement] at h
      simp only [newLabel, emit, run_bind_ok, run_modifyGet_ok, run_modify_ok,
        Prod.mk.injEq] at h
      obtain ⟨_, _, ⟨rfl, rfl⟩, _, _, ⟨rfl, rfl⟩, _, _, ⟨rfl, rfl⟩, _, _, ⟨_, rfl⟩, t, ctx₁, ht,
        _, _, htruthy, _, _, ⟨_, rfl⟩, _, _, ⟨_, rfl⟩, _, ctx₂, hbody, _, _, ⟨_, rfl⟩, _,
        rfl⟩ := h
      obtain ⟨hty, rfl⟩ := lowerTruthy_run htruthy
      exact .while (lowerExpr_lowers ht) hty (lowerStatementList_lowers hbody)
  | .forEach binding iterable body, ctx, ctx', _, h => by
      rw [lowerStatement] at h
      obtain ⟨v, base, hv, h⟩ := run_bind_ok.mp h
      obtain ⟨names, _, hstart, h⟩ := run_bind_ok.mp h
      obtain ⟨rfl, rfl⟩ := lowerForEachStart_run hstart
      obtain ⟨temps, _, htest, h⟩ := run_bind_ok.mp h
      obtain ⟨rfl, rfl⟩ := lowerForEachTest_run htest
      obtain ⟨_, _, hitem, h⟩ := run_bind_ok.mp h
      obtain ⟨loc, ctx₁, hloc, rfl⟩ := lowerForEachItem_run hitem
      obtain ⟨_, ctx₂, hbody, h⟩ := run_bind_ok.mp h
      obtain rfl := lowerForEachTail_run h
      exact .forEach (lowerExpr_lowers hv) hloc (lowerStatementList_lowers hbody)

theorem lowerStatementList_lowers {table : FunctionTable} :
    ∀ {body : List Stmt} {ctx ctx' : LoweringContext} {u : Unit},
      (lowerStatementList table body).run ctx = .ok (u, ctx') → StmtsLower table ctx body ctx'
  | [], _, _, _, h => by
      simp only [lowerStatementList, run_pure_ok, Prod.mk.injEq] at h
      obtain ⟨-, rfl⟩ := h
      exact .nil
  | s :: body, ctx, ctx', _, h => by
      rw [lowerStatementList] at h
      obtain ⟨_, ctx₁, hs, hbody⟩ := run_bind_ok.mp h
      exact .cons (lowerStatement_lowers hs) (lowerStatementList_lowers hbody)
end

/-! ## Functions and programs -/

/-- The function object `finish` builds from its context. -/
def LoweringContext.toFunction (ctx : LoweringContext) : IRFunction :=
  { name := ctx.name, symbol := ctx.symbol, returnType := ctx.returnType, params := ctx.params
    locals := ctx.localList, instructions := ctx.instructions, tempTypes := ctx.tempTypes }

/-- A whole body from the context `start`, with the `ret` that `finish` may add. -/
inductive BodyLowers (table : FunctionTable) (start : LoweringContext) (body : List Stmt) :
    LoweringContext → Prop
  | returns {ctx : LoweringContext} : StmtsLower table start body ctx →
      endsInRet ctx.instructions = true → BodyLowers table start body ctx
  | fallsOff {ctx ctx₁ : LoweringContext} {v : Operand} : StmtsLower table start body ctx →
      endsInRet ctx.instructions = false → DefaultLowers table ctx ctx.returnType v ctx₁ →
      BodyLowers table start body (ctx₁.withInstr (.ret v.temp v.type))

theorem lowerBody_lowers {table : FunctionTable} {consts consts' : ConstTables} {name : String}
    {returnType : Option Ty} {params : List (String × Option Ty)} {body : List Stmt}
    {fn : IRFunction}
    (h : lowerBody table consts name returnType params body = .ok (fn, consts')) :
    ∃ ctx, BodyLowers table (newContext consts name returnType params) body ctx ∧
      fn = ctx.toFunction ∧ consts' = ctx.consts := by
  unfold lowerBody at h
  obtain ⟨⟨_, ctx⟩, hbody, h⟩ := except_bind_ok.mp h
  obtain ⟨⟨fn', ctx'⟩, hfinish, h⟩ := except_bind_ok.mp h
  cases h
  have hbody := lowerStatementList_lowers hbody
  simp only [finish, run_bind_ok, run_get_ok, Prod.mk.injEq] at hfinish
  obtain ⟨_, _, ⟨rfl, rfl⟩, hfinish⟩ := hfinish
  split at hfinish
  · rename_i hret
    simp only [emit, run_bind_ok, run_get_ok, run_modify_ok, run_pure_ok,
      Prod.mk.injEq] at hfinish
    obtain ⟨_, _, ⟨rfl, rfl⟩, v, ctx₁, hv, _, _, ⟨_, rfl⟩, _, _, ⟨rfl, rfl⟩, rfl, rfl⟩ := hfinish
    exact ⟨_, .fallsOff hbody (by simpa using hret) (defaultValue_run hv), rfl, rfl⟩
  · rename_i hret
    simp only [run_bind_ok, run_get_ok, run_pure_ok, Prod.mk.injEq] at hfinish
    obtain ⟨_, _, ⟨rfl, rfl⟩, rfl, rfl⟩ := hfinish
    exact ⟨_, .returns hbody (by simpa using hret), rfl, rfl⟩

/-- The parameters `lowerProgram` passes to the context of a function. -/
def paramsOf (table : FunctionTable) (fn : FunctionDecl) : List (String × Option Ty) :=
  fn.params.zip (((table.lookup fn.name).map (·.paramTypes)).getD [])

/-- The context a function of the program starts in. -/
def startContext (table : FunctionTable) (consts : ConstTables) (fn : FunctionDecl) :
    LoweringContext :=
  newContext consts fn.name (table.returnType fn.name) (paramsOf table fn)

/-- The context the top-level body starts in. -/
def mainContext (consts : ConstTables) : LoweringContext :=
  newContext consts mainName (some .i64) []

/-- The functions of a program in order, the constant tables threaded through. -/
inductive FunctionsLower (table : FunctionTable) :
    ConstTables → List FunctionDecl → List IRFunction → ConstTables → Prop
  | nil {consts : ConstTables} : FunctionsLower table consts [] [] consts
  | cons {consts consts' : ConstTables} {fn : FunctionDecl} {fns : List FunctionDecl}
      {lowered : List IRFunction} {ctx : LoweringContext} :
      fn.params.length ≤ maxParams →
      BodyLowers table (startContext table consts fn) fn.body ctx →
      FunctionsLower table ctx.consts fns lowered consts' →
      FunctionsLower table consts (fn :: fns) (ctx.toFunction :: lowered) consts'

theorem lowerFunctions_lowers {table : FunctionTable} :
    ∀ {fns : List FunctionDecl} {consts consts' : ConstTables} {lowered : List IRFunction},
      lowerFunctions table consts fns = .ok (lowered, consts') →
      FunctionsLower table consts fns lowered consts'
  | [], _, _, _, h => by
      cases h
      exact .nil
  | fn :: fns, consts, consts', lowered, h => by
      rw [lowerFunctions] at h
      obtain ⟨⟨ir, consts₁⟩, hfn, h⟩ := except_bind_ok.mp h
      obtain ⟨⟨rest, consts₂⟩, hrest, h⟩ := except_bind_ok.mp h
      cases h
      unfold lowerFunction at hfn
      dsimp only at hfn
      split at hfn
      · cases hfn
      · rename_i hparams
        obtain ⟨ctx, hbody, rfl, rfl⟩ := lowerBody_lowers hfn
        exact .cons (Nat.le_of_not_gt hparams) hbody (lowerFunctions_lowers hrest)

/-- A unit `lowerProgram` produces: its functions, then `main`. -/
inductive ProgramLowers (program : Program) (table : FunctionTable) : IRUnit → Prop
  | intro {consts : ConstTables} {lowered : List IRFunction} {ctx : LoweringContext} :
      FunctionsLower table emptyTables program.functions lowered consts →
      BodyLowers table (mainContext consts) program.body ctx →
      ProgramLowers program table
        { functions := lowered ++ [ctx.toFunction], consts := ctx.consts }

theorem lowerProgram_lowers {program : Program} {table : FunctionTable} {unit : IRUnit}
    (h : lowerProgram program table = .ok unit) : ProgramLowers program table unit := by
  unfold lowerProgram at h
  obtain ⟨⟨lowered, consts⟩, hfns, h⟩ := except_bind_ok.mp h
  obtain ⟨⟨main, consts'⟩, hmain, h⟩ := except_bind_ok.mp h
  cases h
  obtain ⟨ctx, hbody, rfl, rfl⟩ := lowerBody_lowers hmain
  exact .intro (lowerFunctions_lowers hfns) hbody

theorem compileProgram_lowers {program : Program} {unit : IRUnit}
    (h : compileProgram program = .ok unit) :
    ∃ table, analyzeProgram program = .ok table ∧ ProgramLowers program table unit := by
  obtain ⟨table, htable, h⟩ := except_bind_ok.mp h
  exact ⟨table, htable, lowerProgram_lowers h⟩

end GatoCore.Native
