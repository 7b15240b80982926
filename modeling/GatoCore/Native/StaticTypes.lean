import GatoCore.Native.LowerFacts

/-!
# The types lowering gives to names

What `LoweringContext` knows at each point of a body, as a function of the text alone: the type of
every name it has a local for, and the number of labels it has made. The names of a function share
one table, so a name keeps the type of its first local.
-/

namespace GatoCore.Native

structure Scope where
  types : String → Option (Option Ty)
  labels : ℕ

namespace Scope

/-- `ensureLocal`: a new name gets the type. -/
def declare (scope : Scope) (name : String) (type : Option Ty) : Scope :=
  match scope.types name with
  | none => { scope with types := Function.update scope.types name (some type) }
  | some _ => scope

/-- The labels of a compound statement. -/
def addLabels (scope : Scope) : Scope := { scope with labels := scope.labels + 3 }

/-- The hidden locals of a `para cada`, and its labels. -/
def hide (scope : Scope) (iterable : Option Ty) : Scope :=
  { types := Function.update (Function.update scope.types (eachName scope.labels) (some iterable))
      (iterName scope.labels) (some (some .i64))
    labels := scope.labels + 3 }

end Scope

mutual
/-- The type of the value `lowerExpr` returns. -/
def Expr.staticType (table : FunctionTable) (types : String → Option (Option Ty)) : Expr → Option Ty
  | .number _ => some .i64
  | .string _ => some .str
  | .bool _ => some .bool
  | .null => some .null
  | .array items => some (.array (itemsType table types items))
  | .identifier name => (types name).join
  | .unary .neg _ => some .i64
  | .unary .not _ => some .bool
  | .unary .tamanhoDe _ => some .i64
  | .unary .tipoDe _ => some .str
  | .unary .identificar _ => some .str
  | .unary .observar e => e.staticType table types
  | .binary op _ _ => if op.isLogical || op.isComparison then some .bool else some .i64
  | .call (.identifier name) _ => table.returnType name
  | .call _ _ => none

/-- The type of the items of a list literal. -/
def itemsType (table : FunctionTable) (types : String → Option (Option Ty)) : List Expr → Ty
  | [] => .null
  | e :: _ => (e.staticType table types).getD .null
end

mutual
/-- The scope after a statement. -/
def Stmt.scopeAfter (table : FunctionTable) : Stmt → Scope → Scope
  | .define name e, scope => scope.declare name (e.staticType table scope.types)
  | .ifElse _ thenBody elseBody, scope =>
      scopeAfterBody table elseBody (scopeAfterBody table thenBody scope.addLabels)
  | .while _ body, scope => scopeAfterBody table body scope.addLabels
  | .forEach binding iterable body, scope =>
      let type := iterable.staticType table scope.types
      scopeAfterBody table body ((scope.hide type).declare binding (bindingType type))
  | _, scope => scope

def scopeAfterBody (table : FunctionTable) : List Stmt → Scope → Scope
  | [], scope => scope
  | s :: body, scope => scopeAfterBody table body (s.scopeAfter table scope)
end

mutual
/-- The statements in a statement, each with the scope it is lowered in. -/
def Stmt.points (table : FunctionTable) : Stmt → Scope → List (Scope × Stmt)
  | .ifElse test thenBody elseBody, scope =>
      (scope, .ifElse test thenBody elseBody) :: (bodyPoints table thenBody scope.addLabels ++
        bodyPoints table elseBody (scopeAfterBody table thenBody scope.addLabels))
  | .while test body, scope =>
      (scope, .while test body) :: bodyPoints table body scope.addLabels
  | .forEach binding iterable body, scope =>
      let type := iterable.staticType table scope.types
      (scope, .forEach binding iterable body) ::
        bodyPoints table body ((scope.hide type).declare binding (bindingType type))
  | s, scope => [(scope, s)]

def bodyPoints (table : FunctionTable) : List Stmt → Scope → List (Scope × Stmt)
  | [], _ => []
  | s :: body, scope => s.points table scope ++ bodyPoints table body (s.scopeAfter table scope)
end

/-- The scope at the start of a function. -/
def paramScope (params : List (String × Option Ty)) : Scope :=
  { types := params.foldl (fun types p => Function.update types p.1 (some p.2)) fun _ => none
    labels := 0 }

/-! ## Lowering follows the scopes -/

def LoweringContext.scope (ctx : LoweringContext) : Scope :=
  { types := fun name => (ctx.locals name).map (·.type), labels := ctx.labelCount }

section Contexts

variable (ctx : LoweringContext)

@[simp] theorem scope_withInstr (inst : Instr) : (ctx.withInstr inst).scope = ctx.scope := rfl

@[simp] theorem scope_define (type : Option Ty) (inst : Instr) :
    (ctx.define type inst).scope = ctx.scope := rfl

@[simp] theorem scope_withConsts (consts : ConstTables) :
    (ctx.withConsts consts).scope = ctx.scope := rfl

theorem scope_withLocal (loc : Local) : (ctx.withLocal loc).scope =
    { ctx.scope with types := Function.update ctx.scope.types loc.name (some loc.type) } := by
  simp only [LoweringContext.scope, LoweringContext.withLocal_locals,
    LoweringContext.withLocal_labelCount, Scope.mk.injEq, and_true]
  funext name
  by_cases h : name = loc.name
  · subst h
    simp
  · simp [h]

theorem scope_withLabels (n : ℕ) :
    (ctx.withLabels n).scope = { ctx.scope with labels := ctx.scope.labels + n } := rfl

end Contexts

theorem DefChain.scope {lo : ℕ} {ctx ctx' : LoweringContext} (h : DefChain lo ctx ctx') :
    ctx'.scope = ctx.scope := by
  unfold LoweringContext.scope
  rw [h.locals.1, h.labelCount]

theorem EnsuresLocal.scope {ctx ctx' : LoweringContext} {name : String} {type : Option Ty}
    {loc : Local} (h : EnsuresLocal ctx name type loc ctx') :
    ctx'.scope = ctx.scope.declare name type := by
  cases h with
  | existing hloc _ =>
      have : ctx.scope.types name = some loc.type := by simp [LoweringContext.scope, hloc]
      rw [Scope.declare, this]
  | fresh hloc =>
      have : ctx.scope.types name = none := by simp [LoweringContext.scope, hloc]
      rw [Scope.declare, this, scope_withLocal]
      rfl

mutual
/-- The type of a constant is that of its literal. -/
theorem buildConstValue_type {table : FunctionTable} {types : String → Option (Option Ty)} :
    ∀ {e : Expr} {consts consts' : ConstTables} {c : ConstValue},
      buildConstValue consts e = .ok (c, consts') → e.staticType table types = some c.type
  | .number _, _, _, _, h => by cases h; rfl
  | .string _, _, _, _, h => by
      obtain ⟨rfl, -⟩ := buildConstValue_string h
      rfl
  | .bool _, _, _, _, h => by cases h; rfl
  | .null, _, _, _, h => by cases h; rfl
  | .array items, _, _, _, h => by
      obtain ⟨values, itemType, consts₁, hitems, rfl, -⟩ := buildConstValue_array h
      rw [Expr.staticType, buildConstItems_type hitems]
  | .identifier _, _, _, _, h => by cases h
  | .unary _ _, _, _, _, h => by cases h
  | .binary _ _ _, _, _, _, h => by cases h
  | .call _ _, _, _, _, h => by cases h

theorem buildConstItems_type {table : FunctionTable} {types : String → Option (Option Ty)} :
    ∀ {items : List Expr} {consts consts' : ConstTables} {itemType : Option Ty}
      {values : List ConstValue},
      buildConstItems consts none items = .ok (values, itemType, consts') →
      itemsType table types items = itemType.getD .null
  | [], _, _, _, _, h => by cases h; rfl
  | item :: items, _, _, _, _, h => by
      obtain ⟨c, consts₁, cs, hc, -, hcs, rfl⟩ := buildConstItems_cons h
      rw [itemsType, buildConstValue_type hc, buildConstItems_keeps hcs]
end

theorem BinaryOp.isComparison_of_cmpOp {op : BinaryOp} {cmp : CmpOp} (h : op.cmpOp = some cmp) :
    op.isComparison = true := by
  cases op <;> first | rfl | cases h

theorem BinaryOp.isComparison_of_binOp {op : BinaryOp} {bin : BinOp} (h : op.binOp = some bin) :
    op.isComparison = false := by
  cases op <;> first | rfl | cases h

/-- A lowered value has the static type of its expression. -/
theorem ExprLowers.staticType {table : FunctionTable} {ctx ctx' : LoweringContext} {e : Expr}
    {v : Operand} : ExprLowers table ctx e v ctx' → v.type = e.staticType table ctx.scope.types
  | .literal hc => (buildConstValue_type hc).symm
  | .identifier hloc => by simp [Expr.staticType, LoweringContext.scope, hloc]
  | .neg _ _ => rfl
  | .not _ _ => rfl
  | .tamanhoDe _ _ => rfl
  | .tipoDe _ => rfl
  | .identificar _ => rfl
  | .observar he => he.staticType
  | .compare _ _ hcmp _ => by
      simp [Expr.staticType, BinaryOp.isComparison_of_cmpOp hcmp]
  | .logical _ _ hlog _ _ _ => by simp [Expr.staticType, hlog]
  | .arith _ _ hlog hbin _ _ => by
      simp [Expr.staticType, hlog, BinaryOp.isComparison_of_binOp hbin]
  | .call _ hcallee _ _ => by
      simp [Expr.staticType, FunctionTable.returnType, hcallee]

theorem ExprLowers.scope {table : FunctionTable} {ctx ctx' : LoweringContext} {e : Expr}
    {v : Operand} (h : ExprLowers table ctx e v ctx') : ctx'.scope = ctx.scope :=
  h.facts.chain.scope

theorem scope_ifHead (base : LoweringContext) (t : Operand) :
    (base.ifHead t).scope = base.scope.addLabels := rfl

theorem scope_whileHead (base : LoweringContext) : base.whileHead.scope = base.scope.addLabels :=
  rfl

theorem scope_forEachTest (base : LoweringContext) (v : Operand) :
    (base.forEachTest v).scope = base.scope.hide v.type := by
  simp only [LoweringContext.forEachTest, LoweringContext.forEachCond, LoweringContext.forEachStart,
    LoweringContext.forEachInit, scope_withInstr, scope_define, scope_withLabels, scope_withLocal]
  rfl

mutual
/-- A statement changes the scope as its text says. -/
theorem StmtLowers.scope {table : FunctionTable} {ctx ctx' : LoweringContext} {s : Stmt} :
    StmtLowers table ctx s ctx' → ctx'.scope = s.scopeAfter table ctx.scope
  | .define he hloc => by
      rw [scope_withInstr, hloc.scope, he.scope, he.staticType]
      rfl
  | .assign _ he _ => he.scope
  | .show he => he.scope
  | .exprStmt he => he.scope
  | .ret he _ => he.scope
  | .retDefault hv _ => hv.facts.chain.scope
  | @StmtLowers.ifElse _ _ base ctx₂ ctx₃ _ t _ _ ht _ hthen helse => by
      have hmiddle : (base.ifMiddle ctx₂).scope = ctx₂.scope := rfl
      have htail : (base.ifTail ctx₃).scope = ctx₃.scope := rfl
      rw [htail, helse.scope, hmiddle, hthen.scope, scope_ifHead, ht.scope]
      rfl
  | @StmtLowers.while _ _ ctx₁ ctx₂ _ t _ ht _ hbody => by
      have htest : (ctx.whileTest ctx₁ t).scope = ctx₁.scope := rfl
      have htail : (ctx.whileTail ctx₂).scope = ctx₂.scope := rfl
      rw [htail, hbody.scope, htest, ht.scope, scope_whileHead]
      rfl
  | @StmtLowers.forEach _ _ base ctx₁ ctx₂ _ _ v loc _ hv hloc hbody => by
      have hitem : (base.forEachItem ctx₁ v loc).scope = ctx₁.scope := rfl
      have htail : (base.forEachTail ctx₂).scope = ctx₂.scope := rfl
      rw [htail, hbody.scope, hitem, hloc.scope, scope_forEachTest, hv.scope, hv.staticType]
      rfl

theorem StmtsLower.scope {table : FunctionTable} {ctx ctx' : LoweringContext}
    {body : List Stmt} : StmtsLower table ctx body ctx' →
      ctx'.scope = scopeAfterBody table body ctx.scope
  | .nil => rfl
  | .cons hs hbody => by
      rw [hbody.scope, hs.scope]
      rfl
end

theorem scope_addParams : ∀ (ps : List (String × Option Ty)) (ctx : LoweringContext),
    (addParams ctx ps).scope =
      { types := ps.foldl (fun types p => Function.update types p.1 (some p.2)) ctx.scope.types
        labels := ctx.labelCount }
  | [], _ => rfl
  | (name, type) :: ps, ctx => by
      have hparam : (ctx.withParam (ctx.freshLocal name type true)).scope.types =
          Function.update ctx.scope.types name (some type) :=
        congrArg Scope.types (scope_withLocal ctx (ctx.freshLocal name type true))
      rw [addParams, scope_addParams ps, hparam]
      rfl

theorem scope_newContext (consts : ConstTables) (name : String) (returnType : Option Ty)
    (params : List (String × Option Ty)) :
    (newContext consts name returnType params).scope = paramScope params := by
  rw [newContext, scope_addParams]
  rfl

end GatoCore.Native
