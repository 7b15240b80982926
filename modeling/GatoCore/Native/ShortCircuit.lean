import GatoCore.Native.NativeRuntime
import GatoCore.Native.QuietCode

/-!
# Logical operators

Source: `lowerExpr` for `&&` and `||`, of `compiler/ptjs_native.js`.

Where a program has `a && b` or `a || b`, the code of `b` follows that of `a` and is run in any
case.
-/

namespace GatoCore.Native

open Relation StateTransition GatoCore.Lib

/-! ## Occurrences -/

/-- `left && right` or `left || right`. -/
structure LogicalExpr where
  op : BinaryOp
  left : Expr
  right : Expr

mutual
/-- The logical operators in an expression. -/
def Expr.logicals : Expr → List LogicalExpr
  | .array items => logicalsOf items
  | .unary _ e => e.logicals
  | .binary op l r => (if op.isLogical then [⟨op, l, r⟩] else []) ++ (l.logicals ++ r.logicals)
  | .call callee args => callee.logicals ++ logicalsOf args
  | _ => []

def logicalsOf : List Expr → List LogicalExpr
  | [] => []
  | e :: es => e.logicals ++ logicalsOf es
end

mutual
def Stmt.logicals : Stmt → List LogicalExpr
  | .define _ e => e.logicals
  | .assign _ e => e.logicals
  | .show e => e.logicals
  | .exprStmt e => e.logicals
  | .ret none => []
  | .ret (some e) => e.logicals
  | .ifElse test thenBody elseBody =>
      test.logicals ++ (bodyLogicals thenBody ++ bodyLogicals elseBody)
  | .while test body => test.logicals ++ bodyLogicals body
  | .forEach _ iterable body => iterable.logicals ++ bodyLogicals body

def bodyLogicals : List Stmt → List LogicalExpr
  | [] => []
  | s :: body => s.logicals ++ bodyLogicals body
end

def Program.logicals (program : Program) : List LogicalExpr :=
  program.functions.flatMap (fun fn => bodyLogicals fn.body) ++ bodyLogicals program.body

/-- The operands of a logical operator, lowered one after the other on the way to a context. -/
structure LoweredAt (table : FunctionTable) (e : LogicalExpr)
    (before middle after : LoweringContext)
    (left right : Operand) : Prop where
  logical : e.op.isLogical = true
  lowersLeft : ExprLowers table before e.left left middle
  lowersRight : ExprLowers table middle e.right right after

def LoweredIn (table : FunctionTable) (final : LoweringContext) (e : LogicalExpr) : Prop :=
  ∃ before middle after left right,
    LoweredAt table e before middle after left right ∧ after.Grows final

section Occurrences

variable {table : FunctionTable}

theorem LoweredIn.mono {ctx ctx' : LoweringContext} {e : LogicalExpr} (h : LoweredIn table ctx e)
    (hg : ctx.Grows ctx') : LoweredIn table ctx' e := by
  obtain ⟨before, middle, after, left, right, hat, hgrows⟩ := h
  exact ⟨before, middle, after, left, right, hat, hgrows.trans hg⟩

mutual
/-- There is no operator in a literal. -/
theorem buildConstValue_logicals : ∀ {e : Expr} {consts consts' : ConstTables} {c : ConstValue},
    buildConstValue consts e = .ok (c, consts') → e.logicals = []
  | .number _, _, _, _, _ => rfl
  | .string _, _, _, _, _ => rfl
  | .bool _, _, _, _, _ => rfl
  | .null, _, _, _, _ => rfl
  | .array items, _, _, _, h => by
      obtain ⟨values, itemType, consts₁, hitems, -, -⟩ := buildConstValue_array h
      rw [Expr.logicals, buildConstItems_logicals hitems]
  | .identifier _, _, _, _, h => by cases h
  | .unary _ _, _, _, _, h => by cases h
  | .binary _ _ _, _, _, _, h => by cases h
  | .call _ _, _, _, _, h => by cases h

theorem buildConstItems_logicals : ∀ {items : List Expr} {consts consts' : ConstTables}
    {itemType itemType' : Option Ty} {values : List ConstValue},
    buildConstItems consts itemType items = .ok (values, itemType', consts') →
      logicalsOf items = []
  | [], _, _, _, _, _, _ => rfl
  | item :: items, _, _, _, _, _, h => by
      obtain ⟨c, consts₁, cs, hc, -, hcs, -⟩ := buildConstItems_cons h
      rw [logicalsOf, buildConstValue_logicals hc, buildConstItems_logicals hcs, List.append_nil]
end

/-- The operators of a binary node: its own, and those of its operands. -/
theorem logicals_binary {ctx ctx₁ ctx₂ : LoweringContext} {op : BinaryOp} {l r : Expr}
    {a b : Operand} (ha : ExprLowers table ctx l a ctx₁) (hb : ExprLowers table ctx₁ r b ctx₂)
    (hl : ∀ o ∈ l.logicals, LoweredIn table ctx₁ o)
    (hr : ∀ o ∈ r.logicals, LoweredIn table ctx₂ o) :
    ∀ o ∈ (Expr.binary op l r).logicals, LoweredIn table ctx₂ o := by
  intro o ho
  rw [Expr.logicals] at ho
  rcases List.mem_append.mp ho with ho | ho
  · split at ho
    next hlog =>
      obtain rfl := List.mem_singleton.mp ho
      exact ⟨ctx, ctx₁, ctx₂, a, b, ⟨hlog, ha, hb⟩, .refl _⟩
    next => cases ho
  · rcases List.mem_append.mp ho with ho | ho
    · exact (hl o ho).mono hb.grows
    · exact hr o ho

mutual
/-- Every operator in an expression is lowered on the way. -/
theorem ExprLowers.logicals {ctx ctx' : LoweringContext} {e : Expr} {v : Operand} :
    ExprLowers table ctx e v ctx' → ∀ o ∈ e.logicals, LoweredIn table ctx' o
  | .literal hc, o, ho => by
      rw [buildConstValue_logicals hc] at ho
      cases ho
  | .identifier _, o, ho => by cases ho
  | .neg ha _, o, ho => (ha.logicals o ho).mono ((LoweringContext.Grows.refl _).define _ _)
  | .not ha _, o, ho => (ha.logicals o ho).mono ((LoweringContext.Grows.refl _).define _ _)
  | .tamanhoDe ha _, o, ho => (ha.logicals o ho).mono ((LoweringContext.Grows.refl _).define _ _)
  | .tipoDe ha, o, ho => (ha.logicals o ho).mono
      (((LoweringContext.Grows.refl _).withConsts (internString_extends _ _)).define _ _)
  | .identificar ha, o, ho => (ha.logicals o ho).mono ((LoweringContext.Grows.refl _).define _ _)
  | .observar ha, o, ho => (ha.logicals o ho).mono ((LoweringContext.Grows.refl _).define _ _)
  | .compare ha hb _ _, o, ho =>
      (logicals_binary ha hb ha.logicals hb.logicals o ho).mono
        ((LoweringContext.Grows.refl _).define _ _)
  | .logical ha hb _ _ _ _, o, ho =>
      (logicals_binary ha hb ha.logicals hb.logicals o ho).mono
        ((((LoweringContext.Grows.refl _).define _ _).define _ _).define _ _)
  | .arith ha hb _ _ _ _, o, ho =>
      (logicals_binary ha hb ha.logicals hb.logicals o ho).mono
        ((LoweringContext.Grows.refl _).define _ _)
  | .call _ _ _ hargs, o, ho => by
      change o ∈ [] ++ logicalsOf _ at ho
      exact (hargs.logicals o ho).mono ((LoweringContext.Grows.refl _).define _ _)

theorem ArgsLower.logicals {ctx ctx' : LoweringContext} {types : List (Option Ty)}
    {args : List Expr} {vs : List Operand} :
    ArgsLower table ctx types args vs ctx' → ∀ o ∈ logicalsOf args, LoweredIn table ctx' o
  | .nil, o, ho => by cases ho
  | .cons ha _ hargs, o, ho => by
      rw [logicalsOf] at ho
      rcases List.mem_append.mp ho with ho | ho
      · exact (ha.logicals o ho).mono hargs.facts.1.grows
      · exact hargs.logicals o ho
end

mutual
/-- Every operator in a statement is lowered on the way. -/
theorem StmtLowers.logicals {ctx ctx' : LoweringContext} {s : Stmt} :
    StmtLowers table ctx s ctx' → ∀ o ∈ s.logicals, LoweredIn table ctx' o
  | .define he hloc, o, ho =>
      (he.logicals o ho).mono (((LoweringContext.Grows.refl _).trans hloc.grows).withInstr _)
  | .assign _ he _, o, ho => (he.logicals o ho).mono ((LoweringContext.Grows.refl _).withInstr _)
  | .show he, o, ho => (he.logicals o ho).mono ((LoweringContext.Grows.refl _).withInstr _)
  | .exprStmt he, o, ho => he.logicals o ho
  | .ret he _, o, ho => (he.logicals o ho).mono ((LoweringContext.Grows.refl _).withInstr _)
  | .retDefault _ _, o, ho => by cases ho
  | .ifElse ht _ hthen helse, o, ho => by
      rw [Stmt.logicals] at ho
      rcases List.mem_append.mp ho with ho | ho
      · exact (ht.logicals o ho).mono
          ((((((LoweringContext.Grows.refl _).ifHead _).trans hthen.grows).ifMiddle _).trans
            helse.grows).ifTail _)
      · rcases List.mem_append.mp ho with ho | ho
        · exact (hthen.logicals o ho).mono
            ((((LoweringContext.Grows.refl _).ifMiddle _).trans helse.grows).ifTail _)
        · exact (helse.logicals o ho).mono ((LoweringContext.Grows.refl _).ifTail _)
  | .while ht _ hbody, o, ho => by
      rw [Stmt.logicals] at ho
      rcases List.mem_append.mp ho with ho | ho
      · exact (ht.logicals o ho).mono
          ((((LoweringContext.Grows.refl _).whileTest _ _).trans hbody.grows).whileTail _)
      · exact (hbody.logicals o ho).mono ((LoweringContext.Grows.refl _).whileTail _)
  | .forEach hv hloc hbody, o, ho => by
      rw [Stmt.logicals] at ho
      rcases List.mem_append.mp ho with ho | ho
      · exact (hv.logicals o ho).mono
          ((((((LoweringContext.Grows.refl _).forEachTest _).trans hloc.grows).forEachItem _ _
            _).trans hbody.grows).forEachTail _)
      · exact (hbody.logicals o ho).mono ((LoweringContext.Grows.refl _).forEachTail _)

theorem StmtsLower.logicals {ctx ctx' : LoweringContext} {body : List Stmt} :
    StmtsLower table ctx body ctx' → ∀ o ∈ bodyLogicals body, LoweredIn table ctx' o
  | .nil, o, ho => by cases ho
  | .cons hs hbody, o, ho => by
      rw [bodyLogicals] at ho
      rcases List.mem_append.mp ho with ho | ho
      · exact (hs.logicals o ho).mono hbody.grows
      · exact hbody.logicals o ho
end

theorem BodyLowers.logicals {start final : LoweringContext} {body : List Stmt}
    (h : BodyLowers table start body final) : ∀ o ∈ bodyLogicals body, LoweredIn table final o := by
  intro o ho
  cases h with
  | returns hs _ => exact hs.logicals o ho
  | fallsOff hs _ hv =>
      exact (hs.logicals o ho).mono
        (((LoweringContext.Grows.refl _).trans hv.facts.chain.grows).withInstr _)

/-- Every function of the program is lowered to one of the unit. -/
theorem FunctionsLower.exists_body {consts consts' : ConstTables} {fns : List FunctionDecl}
    {lowered : List IRFunction} (h : FunctionsLower table consts fns lowered consts') :
    ∀ fn ∈ fns, ∃ consts₁ final, BodyLowers table (startContext table consts₁ fn) fn.body final ∧
      final.toFunction ∈ lowered ∧ final.consts.Extends consts' := by
  induction h with
  | nil => nofun
  | @cons consts _ fn fns _ ctx _ hbody hrest ih =>
      intro g hg
      rcases List.mem_cons.mp hg with rfl | hg
      · exact ⟨consts, ctx, hbody, List.mem_cons_self, hrest.extends_consts⟩
      · obtain ⟨consts₁, final, hgBody, hmem, hext⟩ := ih g hg
        exact ⟨consts₁, final, hgBody, List.mem_cons_of_mem _ hmem, hext⟩

end Occurrences

/-! ## Sites -/

/-- A place in a unit where the operands of a logical operator are lowered. -/
structure Site (unit : IRUnit) where
  expr : LogicalExpr
  table : FunctionTable
  before : LoweringContext
  middle : LoweringContext
  after : LoweringContext
  final : LoweringContext
  left : Operand
  right : Operand
  lowered : LoweredAt table expr before middle after left right
  grows : after.Grows final
  member : final.toFunction ∈ unit.functions
  consts : final.consts.Extends unit.consts
  ranked : unit.consts.Ranked

/-- Whether the left operand decides the result alone. -/
def BinaryOp.decides (op : BinaryOp) (x : Word) : Prop :=
  if op = .and then x = 0 else x ≠ 0

namespace Site

variable {unit : IRUnit} (site : Site unit)

section Frames

variable {R : Runtime} (f : Frame R ℕ)

/-- The left operand has just been evaluated. -/
structure At : Prop where
  fn : f.fn = site.final.toFunction
  pc : f.pc = site.middle.instructions.length

def Decided : Prop :=
  ∃ x, f.readWord tempPlacement site.left.temp = some x ∧ site.expr.op.decides x

/-- What the right operand is evaluated in. -/
def surroundings : Surroundings R where
  table := site.table
  types := site.middle.scope.types
  valueOf name := (site.middle.locals name).bind fun loc => f.locals loc.slot

/-- The right operand has no effect when the left one decides. -/
def ShortCircuits (rest : List (Frame R ℕ)) (w : R.World) : Prop :=
  site.Decided f → ¬EffectOccurs unit rest site.after.instructions.length f w

variable {f}

/-- The code of the right operand has the effect its evaluation has. -/
theorem effectOccurs_iff (rest : List (Frame R ℕ)) (w : R.World) (hf : site.At f) :
    EffectOccurs unit rest site.after.instructions.length f w ↔
      quietly (site.surroundings f) site.expr.right w = .effect := by
  have hstands : Stands site.final site.middle (site.surroundings f) f :=
    ⟨hf.fn, hf.pc, fun _ => rfl, rfl⟩
  have hcomes := site.lowered.lowersRight.comes (s := site.surroundings f) site.consts site.ranked
    rest site.grows f w hstands
  exact hcomes.effectOccurs_iff fun _ _ h => h.1.pc

/-- After the left operand the run is at the right one, whatever the value. -/
theorem reaches_right {Γ : EvalContext} (hΓ : Linked Γ unit) (htable : site.table = Γ.table)
    {env : Env R} {n : ℕ} {tv : TypedValue R} {w w' : R.World}
    (he : evalExpr Γ n env site.expr.left w = some (tv, w'))
    (hf : Located unit site.final site.before env f) (rest : List (Frame R ℕ)) :
    ∃ f', Reaches (step tempPlacement unit) (.running (f :: rest) w) (.running (f' :: rest) w') ∧
      site.At f' ∧ f'.temps site.left.temp = some tv.value := by
  have hleft := site.lowered.lowersLeft
  rw [htable] at hleft
  have hg := site.lowered.lowersRight.grows.trans site.grows
  obtain ⟨f', hrun, hval, -⟩ := (simulates R hΓ n).expr rest hleft he hg hf
  exact ⟨f', hrun.reaches, ⟨hrun.fn.trans hf.fn, hrun.pc⟩, hval⟩

end Frames

end Site

/-- Every logical operator of a program has its place in the unit. -/
theorem exists_site {program : Program} {unit : IRUnit} (h : compileProgram program = .ok unit)
    {e : LogicalExpr} (he : e ∈ program.logicals) : ∃ site : Site unit, site.expr = e := by
  obtain ⟨table, -, hlowers⟩ := compileProgram_lowers h
  cases hlowers with
  | @intro consts lowered ctx hfns hbody =>
  have hext : consts.Extends ctx.consts := hbody.grows.consts
  have hranked : ctx.consts.Ranked := (hfns.extends_consts.trans hext).ranked emptyTables_ranked
  rcases List.mem_append.mp he with he | he
  · obtain ⟨fn, hfn, he⟩ := List.mem_flatMap.mp he
    obtain ⟨consts₁, final, hfnBody, hmem, hfinal⟩ := hfns.exists_body fn hfn
    obtain ⟨before, middle, after, left, right, hat, hgrows⟩ := hfnBody.logicals e he
    exact ⟨⟨e, table, before, middle, after, final, left, right, hat, hgrows,
      List.mem_append_left _ hmem, hfinal.trans hext, hranked⟩, rfl⟩
  · obtain ⟨before, middle, after, left, right, hat, hgrows⟩ := hbody.logicals e he
    exact ⟨⟨e, table, before, middle, after, ctx, left, right, hat, hgrows,
      List.mem_append_right _ List.mem_cons_self, .refl _, hranked⟩, rfl⟩

/-- `mostrar falso && observar 1` -/
def observedProgram : Program :=
  { functions := []
    body := [.show (.binary .and (.bool false) (.unary .observar (.number 1)))] }

/-- The context between the operands. -/
def observedMiddle : LoweringContext :=
  (mainContext emptyTables).define (some .bool) (.constInt 0 0 (some .bool))

def observedAfter : LoweringContext :=
  (observedMiddle.define (some .i64) (.constInt 1 1 (some .i64))).define (some .i64)
    (.callRuntime 2 (.observar .i64) [1] (some .i64))

def observedFinal : LoweringContext :=
  ((observedAfter.combine .and 0 2).withInstr (.print 5 .bool)).define (some .i64)
    (.constInt 6 0 (some .i64)) |>.withInstr (.ret 6 (some .i64))

def observedUnit : IRUnit := ⟨[observedFinal.toFunction], emptyTables⟩

theorem observedProgram_compiles : compileProgram observedProgram = .ok observedUnit := rfl

/-- The place of its `&&`. -/
def observedSite : Site observedUnit where
  expr := ⟨.and, .bool false, .unary .observar (.number 1)⟩
  table := []
  before := mainContext emptyTables
  middle := observedMiddle
  after := observedAfter
  final := observedFinal
  left := ⟨0, some .bool⟩
  right := ⟨2, some .i64⟩
  lowered := ⟨rfl, @ExprLowers.literal [] _ _ ⟨.bool, .imm 0⟩ emptyTables rfl,
    .observar (@ExprLowers.literal [] observedMiddle (.number 1) ⟨.i64, .imm 1⟩ emptyTables rfl)⟩
  grows := (((((LoweringContext.Grows.refl observedAfter).define _ _).define _ _).define _ _
    |>.withInstr _).define _ _).withInstr _
  member := List.mem_singleton_self _
  consts := .refl _
  ranked := emptyTables_ranked

/-- `falso` is in its temp. -/
def observedFrame : Frame nativeRuntime ℕ :=
  (entryFrame observedFinal.toFunction []).set 0 (nativeRuntime.ofWord 0)

theorem observedFrame_at : observedSite.At observedFrame := ⟨rfl, rfl⟩

end GatoCore.Native
