import GatoCore.Native.Exec
import GatoCore.Native.Infer

/-!
# A direct evaluator of the syntax tree

What a program means, stated on the tree: one environment per activation, operands and arguments
from left to right (both operands of `&&` and `||`), 64-bit wrapping integers, the test of an
`enquanto` before each iteration, the iterable of a `para cada` once and its items in index order.
A value carries its type, which selects the runtime functions as the static type does in the
compiler. The evaluator needs fuel for loops and calls; it has no result when the fuel runs out,
when it reads an unassigned variable, when it divides by zero and when a runtime call has none.

Under `Scoping.flat` the environment is one map from names to values, as in the compiler. Under
`Scoping.block` a `definir` lives to the end of its block, as in the engine, where
`js_parse_pt_block` pushes a scope and `js_parse_pt_define` declares a `let`.
-/

namespace GatoCore.Native

/-- A value with its type. -/
structure TypedValue (R : Runtime) where
  type : Ty
  value : R.Value

/-- Variables of one activation. -/
abbrev Env (R : Runtime) := String → Option (TypedValue R)

inductive Scoping where
  | flat
  | block
deriving DecidableEq, Repr

/-- How a statement ends. -/
inductive Outcome (R : Runtime) where
  | normal (env : Env R)
  | returned (v : TypedValue R)

/-! ## Literals -/

def Const.type : Const → Ty
  | .imm type _ => type
  | .text _ => .str
  | .list itemType _ => .array itemType

mutual
/-- The constant a literal stands for; a list literal holds items of one type. -/
def Expr.const? : Expr → Option Const
  | .number value => some (.imm .i64 value)
  | .string value => some (.text value)
  | .bool value => some (.imm .bool (if value then 1 else 0))
  | .null => some (.imm .null 0)
  | .array items => do
      let consts ← Expr.consts? items
      match consts with
      | [] => return .list .null []
      | c :: cs => if cs.all (·.type = c.type) then return .list c.type (c :: cs) else none
  | _ => none

def Expr.consts? : List Expr → Option (List Const)
  | [] => some []
  | item :: items => do
      let c ← Expr.const? item
      let cs ← Expr.consts? items
      return c :: cs
end

section Values

variable (R : Runtime)

def Runtime.const : Const → R.Value
  | .imm _ value => R.ofWord (BitVec.ofNat 64 value)
  | .text value => R.text value
  | .list itemType items => R.list itemType items

def wordValue (type : Ty) (w : Word) : TypedValue R := ⟨type, R.ofWord w⟩

/-- What a function that returns nothing returns. -/
def defaultTypedValue : Ty → TypedValue R
  | .str => ⟨.str, R.text ""⟩
  | type => wordValue R type 0

end Values

/-! ## Operators -/

section Operators

variable {R : Runtime}

/-- The word of a value of a number-like type. -/
def TypedValue.word (v : TypedValue R) : Option Word :=
  if isIntLikeType (some v.type) then R.toWord v.value else none

def runtimeResult (type : Ty) (fn : RuntimeFn) (args : List R.Value) (w : R.World) :
    Option (TypedValue R × R.World) :=
  (R.call fn args w).map fun r => (⟨type, r.1⟩, r.2)

/-- `tamanho de`. -/
def lengthOf (v : TypedValue R) (w : R.World) : Option (TypedValue R × R.World) :=
  match v.type with
  | .str => runtimeResult .i64 .strlen [v.value] w
  | .array _ => runtimeResult .i64 .arrayLen [v.value] w
  | _ => none

def evalUnary (op : UnaryOp) (v : TypedValue R) (w : R.World) :
    Option (TypedValue R × R.World) :=
  match op with
  | .neg => if v.type = .i64 then v.word.map fun a => (wordValue R .i64 (-a), w) else none
  | .not => v.word.map fun a => (wordValue R .bool (wordOfBool (a = 0)), w)
  | .tamanhoDe => lengthOf v w
  | .tipoDe => some (⟨.str, R.text (typeDisplayName (some v.type))⟩, w)
  | .identificar => runtimeResult .str (.identificar (runtimeTypeOf (some v.type))) [v.value] w
  | .observar => runtimeResult v.type (.observar (runtimeTypeOf (some v.type))) [v.value] w

def evalBinary (op : BinaryOp) (l r : TypedValue R) : Option (TypedValue R) := do
  let a ← l.word
  let b ← r.word
  match op with
  | .and => return wordValue R .bool (wordOfBool (a ≠ 0 && b ≠ 0))
  | .or => return wordValue R .bool (wordOfBool (a ≠ 0 || b ≠ 0))
  | .eq => if l.type = r.type then return wordValue R .bool (wordOfBool (a = b)) else none
  | .ne => if l.type = r.type then return wordValue R .bool (wordOfBool (a ≠ b)) else none
  | .lt => numeric .bool (some (wordOfBool (a.slt b)))
  | .le => numeric .bool (some (wordOfBool (a.sle b)))
  | .gt => numeric .bool (some (wordOfBool (b.slt a)))
  | .ge => numeric .bool (some (wordOfBool (b.sle a)))
  | .add => numeric .i64 (some (a + b))
  | .sub => numeric .i64 (some (a - b))
  | .mul => numeric .i64 (some (a * b))
  | .div => numeric .i64 (if b = 0 then none else some (a.sdiv b))
  | .mod => numeric .i64 (if b = 0 then none else some (a.srem b))
where
  /-- A result only two numbers have. -/
  numeric (type : Ty) (result : Option Word) : Option (TypedValue R) :=
    if l.type = .i64 ∧ r.type = .i64 then result.map (wordValue R type) else none

/-- Item `i` of a text or a list. -/
def itemOf (v : TypedValue R) (i : Word) (w : R.World) : Option (TypedValue R × R.World) :=
  match v.type with
  | .str => runtimeResult .str .stringCharAt [v.value, R.ofWord i] w
  | .array .str => runtimeResult .str .arrayGetPtr [v.value, R.ofWord i] w
  | .array (.array item) => runtimeResult (.array item) .arrayGetPtr [v.value, R.ofWord i] w
  | .array item => runtimeResult item .arrayGetI64 [v.value, R.ofWord i] w
  | _ => none

end Operators

/-! ## Blocks -/

/-- The names a `definir` introduces directly in a block. -/
def declaredNames : List Stmt → List String
  | [] => []
  | .define name _ :: body => name :: declaredNames body
  | _ :: body => declaredNames body

section Blocks

variable {R : Runtime}

/-- The environment with the names of a new scope not yet initialised. -/
def enterScope (scoping : Scoping) (names : List String) (env : Env R) : Env R :=
  match scoping with
  | .flat => env
  | .block => fun x => if x ∈ names then none else env x

/-- The environment after a scope: its names are the outer ones again. -/
def leaveScope (scoping : Scoping) (names : List String) (outer inner : Env R) : Env R :=
  match scoping with
  | .flat => inner
  | .block => fun x => if x ∈ names then outer x else inner x

def leaveBlock (scoping : Scoping) (names : List String) (outer : Env R) :
    Outcome R → Outcome R
  | .normal inner => .normal (leaveScope scoping names outer inner)
  | .returned v => .returned v

/-- The parameters of an activation; a repeated name keeps its last argument. -/
def bindParams (params : List String) (args : List (TypedValue R)) : Env R :=
  (params.zip args).foldl (fun env p => Function.update env p.1 (some p.2)) fun _ => none

end Blocks

/-! ## Expressions and statements -/

/-- What the evaluator reads of the program: its functions and the type each one returns. -/
structure EvalContext where
  scoping : Scoping
  functions : List FunctionDecl
  table : FunctionTable

def EvalContext.function (Γ : EvalContext) (name : String) : Option FunctionDecl :=
  Γ.functions.find? (·.name = name)

variable {R : Runtime}

mutual
def evalExpr (Γ : EvalContext) : ℕ → Env R → Expr → R.World → Option (TypedValue R × R.World)
  | 0, _, _, _ => none
  | n + 1, env, e, w =>
      match e with
      | .identifier name => do return (← env name, w)
      | .unary op e => do
          let (v, w) ← evalExpr Γ n env e w
          evalUnary op v w
      | .binary op l r => do
          let (a, w) ← evalExpr Γ n env l w
          let (b, w) ← evalExpr Γ n env r w
          return (← evalBinary op a b, w)
      | .call (.identifier name) args => do
          let (vs, w) ← evalArgs Γ n env args w
          let fn ← Γ.function name
          if fn.params.length = vs.length then
            callFunction Γ n (← Γ.table.returnType name) (bindParams fn.params vs) fn.body w
          else none
      | .call _ _ => none
      | literal => do
          let c ← literal.const?
          return (⟨c.type, R.const c⟩, w)

def evalArgs (Γ : EvalContext) :
    ℕ → Env R → List Expr → R.World → Option (List (TypedValue R) × R.World)
  | 0, _, _, _ => none
  | _ + 1, _, [], w => some ([], w)
  | n + 1, env, e :: es, w => do
      let (v, w) ← evalExpr Γ n env e w
      let (vs, w) ← evalArgs Γ n env es w
      return (v :: vs, w)

/-- One activation: its body, then the default value if the body does not return. -/
def callFunction (Γ : EvalContext) :
    ℕ → Ty → Env R → List Stmt → R.World → Option (TypedValue R × R.World)
  | 0, _, _, _, _ => none
  | n + 1, returnType, env, body, w => do
      let (outcome, w) ← evalStmts Γ n returnType env body w
      match outcome with
      | .normal _ => return (defaultTypedValue R returnType, w)
      | .returned v => return (v, w)

def evalStmt (Γ : EvalContext) :
    ℕ → Ty → Env R → Stmt → R.World → Option (Outcome R × R.World)
  | 0, _, _, _, _ => none
  | n + 1, returnType, env, s, w =>
      match s with
      | .define name e => do
          let (v, w) ← evalExpr Γ n env e w
          return (.normal (Function.update env name (some v)), w)
      | .assign name e => do
          let (v, w) ← evalExpr Γ n env e w
          -- a `let` is not assignable before its `definir`
          if Γ.scoping = .block ∧ (env name).isNone then none
          else return (.normal (Function.update env name (some v)), w)
      | .show e => do
          let (v, w) ← evalExpr Γ n env e w
          let (_, w) ← R.call (.print (runtimeTypeOf (some v.type))) [v.value] w
          return (.normal env, w)
      | .exprStmt e => do
          let (_, w) ← evalExpr Γ n env e w
          return (.normal env, w)
      | .ret (some e) => do
          let (v, w) ← evalExpr Γ n env e w
          return (.returned v, w)
      | .ret none => some (.returned (defaultTypedValue R returnType), w)
      | .ifElse test thenBody elseBody => do
          let (v, w) ← evalExpr Γ n env test w
          let t ← v.word
          evalBlock Γ n returnType env (if t ≠ 0 then thenBody else elseBody) w
      | .while test body => do
          let (v, w) ← evalExpr Γ n env test w
          let t ← v.word
          if t ≠ 0 then
            let (outcome, w) ← evalBlock Γ n returnType env body w
            match outcome with
            | .normal env => evalStmt Γ n returnType env (.while test body) w
            | .returned v => return (.returned v, w)
          else
            return (.normal env, w)
      | .forEach binding iterable body => do
          let inner := enterScope Γ.scoping [binding] env
          let (v, w) ← evalExpr Γ n inner iterable w
          let (outcome, w) ← evalForEach Γ n returnType inner binding v 0 body w
          return (leaveBlock Γ.scoping [binding] env outcome, w)

/-- The iterations of a `para cada` over `v` from index `i` on. -/
def evalForEach (Γ : EvalContext) :
    ℕ → Ty → Env R → String → TypedValue R → Word → List Stmt → R.World →
      Option (Outcome R × R.World)
  | 0, _, _, _, _, _, _, _ => none
  | n + 1, returnType, env, binding, v, i, body, w => do
      let (len, w) ← lengthOf v w
      if i.slt (← len.word) then
        let (item, w) ← itemOf v i w
        let (outcome, w) ←
          evalBlock Γ n returnType (Function.update env binding (some item)) body w
        match outcome with
        | .normal env => evalForEach Γ n returnType env binding v (i + 1) body w
        | .returned v => return (.returned v, w)
      else
        return (.normal env, w)

/-- A body between its delimiters. -/
def evalBlock (Γ : EvalContext) :
    ℕ → Ty → Env R → List Stmt → R.World → Option (Outcome R × R.World)
  | 0, _, _, _, _ => none
  | n + 1, returnType, env, body, w => do
      let names := declaredNames body
      let (outcome, w) ←
        evalStmts Γ n returnType (enterScope Γ.scoping names env) body w
      return (leaveBlock Γ.scoping names env outcome, w)

def evalStmts (Γ : EvalContext) :
    ℕ → Ty → Env R → List Stmt → R.World → Option (Outcome R × R.World)
  | 0, _, _, _, _ => none
  | _ + 1, _, env, [], w => some (.normal env, w)
  | n + 1, returnType, env, s :: body, w => do
      let (outcome, w) ← evalStmt Γ n returnType env s w
      match outcome with
      | .normal env => evalStmts Γ n returnType env body w
      | .returned v => return (.returned v, w)
end

/-- Run the top-level body of a program; the value is that of `main`. -/
def evalProgram (scoping : Scoping) (program : Program) (table : FunctionTable) (n : ℕ)
    (w : R.World) : Option (TypedValue R × R.World) :=
  callFunction ⟨scoping, program.functions, table⟩ n .i64 (fun _ => none) program.body w

end GatoCore.Native
