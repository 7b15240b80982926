import Mathlib.Logic.Function.Basic
import GatoCore.Native.Syntax

/-!
# Type inference

Source: `inferExpressionType`, `inferStatements` and `analyzeProgram`.

The functions mutate the entries of `functionTable`, so they run in a state monad over the table;
`createCompileError` ends the compilation, so they run over `Except` with the message. The key
`__defaults__` of the table holds no function: looking its parameters up throws a `TypeError`.
-/

namespace GatoCore.Native

/-- An entry of `functionTable`. -/
structure FnMeta where
  name : String
  paramTypes : List (Option Ty)
  returnType : Option Ty
deriving DecidableEq, Repr

abbrev FunctionTable := List FnMeta

namespace FunctionTable

def lookup (table : FunctionTable) (name : String) : Option FnMeta :=
  table.find? (·.name = name)

def modify (table : FunctionTable) (name : String) (f : FnMeta → FnMeta) : FunctionTable :=
  table.map fun m => if m.name = name then f m else m

/-- `functionTable[name].paramTypes[i]`. -/
def paramType (table : FunctionTable) (name : String) (i : ℕ) : Option Ty :=
  (table.lookup name).bind fun m => (m.paramTypes[i]?).join

/-- `functionTable[name].returnType`. -/
def returnType (table : FunctionTable) (name : String) : Option Ty :=
  (table.lookup name).bind (·.returnType)

def setParamType (table : FunctionTable) (name : String) (i : ℕ) (type : Option Ty) :
    FunctionTable :=
  table.modify name fun m => { m with paramTypes := m.paramTypes.set i type }

def setReturnType (table : FunctionTable) (name : String) (type : Option Ty) : FunctionTable :=
  table.modify name fun m => { m with returnType := type }

end FunctionTable

/-- The inference environment; `cloneMap` is the identity on it. -/
abbrev TypeEnv := String → Option Ty

abbrev InferM := StateT FunctionTable (Except String)

def defaultsKey : String := "__defaults__"

def BinaryOp.isLogical : BinaryOp → Bool
  | .and | .or => true
  | _ => false

def BinaryOp.isComparison : BinaryOp → Bool
  | .eq | .ne | .lt | .le | .gt | .ge => true
  | _ => false

/-! ## Expressions -/

mutual
def inferExpressionType (env : TypeEnv) : Expr → InferM (Option Ty)
  | .number _ => return some .i64
  | .bool _ => return some .bool
  | .null => return some .null
  | .string _ => return some .str
  | .array items => do
      let arrType ← inferItems env none items
      return some (.array (arrType.getD .null))
  | .identifier name => return env name
  | .unary .neg _ => return some .i64
  | .unary .not _ => return some .bool
  | .unary .tamanhoDe _ => return some .i64
  | .unary .tipoDe _ => return some .str
  | .unary .identificar _ => return some .str
  | .unary .observar expr => do
      let type ← inferExpressionType env expr
      return some (type.getD .i64)
  | .binary op left right => do
      let leftInfo ← inferExpressionType env left
      let rightInfo ← inferExpressionType env right
      if op.isLogical || op.isComparison then
        return some .bool
      else if leftInfo = some .str ∨ rightInfo = some .str then
        throw "backend nativo ainda nao suporta aritmetica com texto"
      else
        return some .i64
  | .call (.identifier name) args => do
      if name = defaultsKey then
        throw "TypeError: cannot read property 'length' of undefined"
      match (← get).lookup name with
      | none => throw ("funcao desconhecida `" ++ name ++ "`")
      | some callee =>
          if args.length ≠ callee.paramTypes.length then
            throw ("quantidade invalida de argumentos em `" ++ name ++ "`")
          inferArgs env name 0 args
          return some (((← get).returnType name).getD defaultReturnType)
  | .call _ _ => throw "somente chamadas diretas por nome sao suportadas no backend nativo"

/-- The loop over `expr.items` in the `Array` case. -/
def inferItems (env : TypeEnv) (arrType : Option Ty) : List Expr → InferM (Option Ty)
  | [] => return arrType
  | item :: items => do
      let nextItemType := (← inferExpressionType env item).getD .null
      match arrType with
      | none => inferItems env (some nextItemType) items
      | some type =>
          if type ≠ nextItemType then
            throw "array nativo exige itens homogeneos"
          inferItems env (some type) items

/-- The loop over `expr.args` in the `Call` case, from argument `i` on. -/
def inferArgs (env : TypeEnv) (name : String) (i : ℕ) : List Expr → InferM Unit
  | [] => return ()
  | arg :: args => do
      let argType ← inferExpressionType env arg
      match mergeType ((← get).paramType name i) (some (argType.getD defaultParamType)) with
      | none =>
          throw ("tipos conflitantes no parametro " ++ toString (i + 1) ++ " de `" ++ name ++ "`")
      | some merged =>
          modify fun table => table.setParamType name i merged
          inferArgs env name (i + 1) args
end

/-! ## Statements -/

/-- The type of a `para cada` binding over an iterable of type `type`. -/
def bindingType (type : Option Ty) : Option Ty :=
  if type = some .str then some .str else arrayItemType type

/-- The tail of the `Return` case: merge `type` into `meta.returnType`. -/
def mergeReturn (metaName : String) (type : Ty) : InferM Bool := do
  let current := (← get).returnType metaName
  match mergeType current (some type) with
  | none => throw ("retornos conflitantes em `" ++ metaName ++ "`")
  | some merged =>
      if merged ≠ current then
        modify fun table => table.setReturnType metaName merged
        return true
      else
        return false

mutual
/-- One iteration of the loop of `inferStatements`; `metaName` names the function whose body is
inferred. The result is the environment after the statement and whether a return type changed. -/
def inferStatement (metaName : String) (env : TypeEnv) : Stmt → InferM (TypeEnv × Bool)
  | .define name expr => do
      let type := (← inferExpressionType env expr).getD defaultParamType
      return (Function.update env name (some type), false)
  | .assign name expr => do
      let type := ((← inferExpressionType env expr).or (env name)).getD defaultParamType
      match env name with
      | none => return (Function.update env name (some type), false)
      | some old =>
          if old ≠ type then
            throw ("atribuicao mistura tipos em `" ++ name ++ "`")
          return (env, false)
  | .show expr => do
      let _ ← inferExpressionType env expr
      return (env, false)
  | .exprStmt expr => do
      let _ ← inferExpressionType env expr
      return (env, false)
  | .ret (some expr) => do
      let type := (← inferExpressionType env expr).getD defaultReturnType
      return (env, ← mergeReturn metaName type)
  | .ret none => do
      let type := ((← get).returnType metaName).getD defaultReturnType
      return (env, ← mergeReturn metaName type)
  | .ifElse test thenBody elseBody => do
      let _ ← inferExpressionType env test
      let (_, changedThen) ← inferStatements metaName env thenBody
      let (_, changedElse) ← inferStatements metaName env elseBody
      return (env, changedThen || changedElse)
  | .while test body => do
      let _ ← inferExpressionType env test
      let (_, changed) ← inferStatements metaName env body
      return (env, changed)
  | .forEach binding iterable body => do
      let type ← inferExpressionType env iterable
      if !isArrayType type && type ≠ some .str then
        throw "`para cada` nativo exige lista ou texto"
      let env := Function.update env binding (bindingType type)
      let (_, changed) ← inferStatements metaName env body
      return (env, changed)

def inferStatements (metaName : String) (env : TypeEnv) : List Stmt → InferM (TypeEnv × Bool)
  | [] => return (env, false)
  | stmt :: body => do
      let (env, changed) ← inferStatement metaName env stmt
      let (env, changedRest) ← inferStatements metaName env body
      return (env, changed || changedRest)
end

/-! ## Programs -/

/-- `env` at the start of a function body; a repeated parameter name keeps its last type. -/
def paramEnv (params : List String) (paramTypes : List (Option Ty)) : TypeEnv :=
  (params.zip paramTypes).foldl
    (fun env p => Function.update env p.1 (some (p.2.getD defaultParamType))) (fun _ => none)

/-- The function table before the first pass. -/
def declareFunctions (table : FunctionTable) : List FunctionDecl → Except String FunctionTable
  | [] => .ok table
  | fn :: fns =>
      if fn.name = defaultsKey ∨ (table.lookup fn.name).isSome then
        .error ("funcao duplicada `" ++ fn.name ++ "`")
      else
        declareFunctions
          (table ++ [{ name := fn.name, paramTypes := fn.params.map fun _ => none
                       returnType := none }]) fns

/-- The visit of one function in a pass. -/
def inferFunction (fn : FunctionDecl) : InferM Bool := do
  let paramTypes := (((← get).lookup fn.name).map (·.paramTypes)).getD []
  let (_, changed) ← inferStatements fn.name (paramEnv fn.params paramTypes) fn.body
  return changed

/-- One pass over the functions in declaration order. -/
def inferPass : List FunctionDecl → InferM Bool
  | [] => return false
  | fn :: fns => do
      let changed ← inferFunction fn
      let changedRest ← inferPass fns
      return changed || changedRest

/-- At most `n` passes, stopping after one that changes no return type. -/
def inferPasses (fns : List FunctionDecl) : ℕ → InferM Unit
  | 0 => return ()
  | n + 1 => do
      if ← inferPass fns then
        inferPasses fns n

/-- The last loop of `analyzeProgram`: fill in the defaults. -/
def finalizeTable (table : FunctionTable) : FunctionTable :=
  table.map fun m =>
    { m with
      paramTypes := m.paramTypes.map fun type => some (type.getD defaultParamType)
      returnType := some (m.returnType.getD defaultReturnType) }

def analyzeProgram (program : Program) : Except String FunctionTable := do
  let table ← declareFunctions [] program.functions
  let (_, table) ← (inferPasses program.functions 6).run table
  return finalizeTable table

end GatoCore.Native
