import Mathlib.Data.List.Basic

/-!
# The native PTJS subset: syntax and static types

Source: `compiler/ptjs_native.js`, the node kinds built by `Parser.prototype.parse*` and the
type helpers from `mergeType` to `arrayUsesPointerItems`.

A node keeps every field of the parser's node except `line` and `col`, which only decorate the
text of error messages. A `Number` node carries the (non-negative integral) value of
`Number(token.value)`. The compiler's types are JavaScript strings or `null`; the strings are the
inductive `Ty` and a nullable type is an `Option Ty`.
-/

namespace GatoCore.Native

/-! ## Syntax trees -/

/-- The operators `parseUnary` builds a `Unary` node for. -/
inductive UnaryOp where
  | neg
  | not
  | tamanhoDe
  | tipoDe
  | identificar
  | observar
deriving DecidableEq, Repr

/-- The operators `precedence` knows. -/
inductive BinaryOp where
  | and
  | or
  | eq
  | ne
  | lt
  | le
  | gt
  | ge
  | add
  | sub
  | mul
  | div
  | mod
deriving DecidableEq, Repr

inductive Expr where
  | number (value : ℕ)
  | string (value : String)
  | bool (value : Bool)
  | null
  | array (items : List Expr)
  | identifier (name : String)
  | unary (op : UnaryOp) (expr : Expr)
  | binary (op : BinaryOp) (left right : Expr)
  | call (callee : Expr) (args : List Expr)

inductive Stmt where
  | define (name : String) (expr : Expr)
  | assign (name : String) (expr : Expr)
  | show (expr : Expr)
  | exprStmt (expr : Expr)
  | ret (expr : Option Expr)
  | ifElse (test : Expr) (thenBody elseBody : List Stmt)
  | while (test : Expr) (body : List Stmt)
  | forEach (binding : String) (iterable : Expr) (body : List Stmt)

/-- A `Function` node. -/
structure FunctionDecl where
  name : String
  params : List String
  body : List Stmt

structure Program where
  functions : List FunctionDecl
  body : List Stmt

/-! ## Identifiers -/

mutual
def Expr.identifiers : Expr → List String
  | .identifier name => [name]
  | .array items => identifiersOf items
  | .unary _ e => e.identifiers
  | .binary _ l r => l.identifiers ++ r.identifiers
  | .call callee args => callee.identifiers ++ identifiersOf args
  | _ => []

def identifiersOf : List Expr → List String
  | [] => []
  | e :: es => e.identifiers ++ identifiersOf es
end

mutual
def Stmt.identifiers : Stmt → List String
  | .define name e => name :: e.identifiers
  | .assign name e => name :: e.identifiers
  | .show e => e.identifiers
  | .exprStmt e => e.identifiers
  | .ret none => []
  | .ret (some e) => e.identifiers
  | .ifElse test thenBody elseBody =>
      test.identifiers ++ (bodyIdentifiers thenBody ++ bodyIdentifiers elseBody)
  | .while test body => test.identifiers ++ bodyIdentifiers body
  | .forEach binding iterable body => binding :: (iterable.identifiers ++ bodyIdentifiers body)

def bodyIdentifiers : List Stmt → List String
  | [] => []
  | s :: body => s.identifiers ++ bodyIdentifiers body
end

def FunctionDecl.identifiers (fn : FunctionDecl) : List String :=
  fn.name :: (fn.params ++ bodyIdentifiers fn.body)

/-- Every identifier of a program: names of functions, parameters and variables. -/
def Program.identifiers (program : Program) : List String :=
  program.functions.flatMap FunctionDecl.identifiers ++ bodyIdentifiers program.body

/-- The name begins with `__`, as the names the compiler makes up do. -/
def IsReserved (name : String) : Prop := "__".toList <+: name.toList

instance (name : String) : Decidable (IsReserved name) :=
  inferInstanceAs (Decidable ("__".toList <+: name.toList))

/-! ## Static types -/

/-- The type strings `i64`, `bool`, `null`, `str` and `array<item>`. -/
inductive Ty where
  | i64
  | bool
  | null
  | str
  | array (item : Ty)
deriving DecidableEq, Repr

/-- `snippets/ir/types.json`. -/
def defaultParamType : Ty := .i64

/-- `snippets/ir/types.json`. -/
def defaultReturnType : Ty := .i64

/-- `mergeType`; the string `__conflict__` is `none` in the outer `Option`. -/
def mergeType (current next : Option Ty) : Option (Option Ty) :=
  match current, next with
  | none, next => some next
  | some t, none => some (some t)
  | some t, some u => if t = u then some (some t) else none

def isArrayType : Option Ty → Bool
  | some (.array _) => true
  | _ => false

/-- `arrayItemType`: `null` on anything that is not a list type. -/
def arrayItemType : Option Ty → Option Ty
  | some (.array item) => some item
  | _ => none

/-- The keys of the `print`, `observe` and `identify` tables of `runtime_calls.json`. -/
inductive RuntimeTy where
  | i64
  | bool
  | null
  | str
  | array
deriving DecidableEq, Repr

/-- `runtimeTypeOf` as a key of the runtime tables; a missing type is `null` in the source, and the
property of a table under `null` is the one called `null`. -/
def runtimeTypeOf : Option Ty → RuntimeTy
  | none => .null
  | some .i64 => .i64
  | some .bool => .bool
  | some .null => .null
  | some .str => .str
  | some (.array _) => .array

def typeDisplayName : Option Ty → String
  | some (.array _) => "lista"
  | some .i64 => "numero"
  | some .str => "texto"
  | some .bool => "booleano"
  | some .null => "nulo"
  | none => "objeto"

/-- `typeDefaultValue`, a literal node. -/
def typeDefaultValue : Option Ty → Expr
  | some (.array _) => .null
  | some .str => .string ""
  | some .bool => .bool false
  | some .null => .null
  | some .i64 => .number 0
  | none => .number 0

def isIntLikeType : Option Ty → Bool
  | some .i64 => true
  | some .bool => true
  | some .null => true
  | _ => false

def canCompareTypes (left right : Option Ty) : Bool :=
  (left = right && isIntLikeType left) || (left = some .i64 && right = some .i64)

def arrayUsesPointerItems : Option Ty → Bool
  | some .str => true
  | type => isArrayType type

end GatoCore.Native
