import GatoCore.Native.Syntax

/-!
# The intermediate representation

Source: the objects `LoweringContext.prototype.emit` pushes, the constant tables of `lowerProgram`
and `snippets/asm/runtime_calls.json`.

Names the compiler assembles from strings stay structured here: a control label
`.<symbol>_<kind>_<index>` is a `Label` (the symbol is that of the enclosing function), a data
label `.LC<i>` or `.LARR_<i>` is a `DataLabel`, and `ptjs_fn_<name>` or `main` is a `Symbol`.
-/

namespace GatoCore.Native

/-! ## Names -/

/-- The second component of the names `newLabel` builds. -/
inductive LabelKind where
  | thenL
  | elseL
  | ifend
  | loop
  | body
  | loopend
  | foreach
  | foreachBody
  | foreachEnd
deriving DecidableEq, Repr

/-- `"." + symbol + "_" + kind + "_" + index`. -/
structure Label where
  kind : LabelKind
  index : ℕ
deriving DecidableEq, Repr

/-- A label of the data sections: `.LC<i>` for texts and `.LARR_<i>` for lists. -/
inductive DataLabel where
  | str (index : ℕ)
  | arr (index : ℕ)
deriving DecidableEq, Repr

/-- The symbol of a generated function. -/
inductive Symbol where
  | main
  | fn (name : String)
deriving DecidableEq, Repr

/-- The functions of `runtime/native_runtime.c` the compiler calls. -/
inductive RuntimeFn where
  | print (type : RuntimeTy)
  | observar (type : RuntimeTy)
  | identificar (type : RuntimeTy)
  | strlen
  | arrayLen
  | arrayGetI64
  | arrayGetPtr
  | stringCharAt
deriving DecidableEq, Repr

/-! ## Constants -/

/-- `value` and `valueKind` of a constant. -/
inductive ConstOperand where
  | imm (value : ℕ)
  | label (label : DataLabel)
deriving DecidableEq, Repr

/-- The result of `buildConstValue`. -/
structure ConstValue where
  type : Ty
  value : ConstOperand
deriving DecidableEq, Repr

/-- An entry of `unit.arrayList`; its labels are its position. -/
structure ArrayConst where
  itemType : Ty
  items : List ConstValue
deriving DecidableEq, Repr

/-- The constant tables of a unit. `stringLabels` and `arrayLabels` map a value to the position at
which it was pushed, so the lists alone determine them. -/
structure ConstTables where
  stringList : List String
  arrayList : List ArrayConst
deriving DecidableEq, Repr

/-! ## Instructions -/

/-- The operators of a `bin` instruction. -/
inductive BinOp where
  | add
  | sub
  | mul
  | div
  | mod
  | and
  | or
deriving DecidableEq, Repr

/-- The operators of a `cmp` instruction. -/
inductive CmpOp where
  | eq
  | ne
  | lt
  | le
  | gt
  | ge
deriving DecidableEq, Repr

/-- The right operand of a `cmp`, selected by `rightKind`. -/
inductive CmpRight where
  | imm (value : ℕ)
  | temp (temp : ℕ)
deriving DecidableEq, Repr

/-- One object of `fn.instructions`. -/
inductive Instr where
  | constInt (dest : ℕ) (value : ℕ) (valueType : Option Ty)
  | constStr (dest : ℕ) (label : DataLabel)
  | constPtr (dest : ℕ) (label : DataLabel) (valueType : Option Ty)
  | loadLocal (dest slot : ℕ) (type : Option Ty)
  | storeLocal (slot : ℕ) (type : Option Ty) (value : ℕ)
  | neg (dest value : ℕ)
  | not (dest value : ℕ)
  | bin (dest : ℕ) (bin : BinOp) (left right : ℕ)
  | cmp (dest : ℕ) (cmp : CmpOp) (left : ℕ) (right : CmpRight)
  | call (dest : ℕ) (symbol : Symbol) (args : List ℕ) (returnType : Option Ty)
  | callRuntime (dest : ℕ) (symbol : RuntimeFn) (args : List ℕ) (returnType : Option Ty)
  | print (value : ℕ) (valueType : RuntimeTy)
  | label (name : Label)
  | jmp (label : Label)
  | br (cond : ℕ) (thenLabel elseLabel : Label)
  | ret (value : ℕ) (valueType : Option Ty)
deriving DecidableEq, Repr

/-- An entry of `localList`. -/
structure Local where
  name : String
  type : Option Ty
  slot : ℕ
  isParam : Bool
deriving DecidableEq, Repr

/-- What `finish` returns. `tempTypes` lists the types of the temps `0, 1, ...`. -/
structure IRFunction where
  name : String
  symbol : Symbol
  returnType : Option Ty
  params : List Local
  locals : List Local
  instructions : List Instr
  tempTypes : List (Option Ty)
deriving DecidableEq, Repr

/-- What `lowerProgram` returns. -/
structure IRUnit where
  functions : List IRFunction
  consts : ConstTables
deriving DecidableEq, Repr

/-! ## Temps and labels of an instruction -/

/-- `tempUses`. -/
def tempUses : Instr → List ℕ
  | .storeLocal _ _ value => [value]
  | .neg _ value => [value]
  | .not _ value => [value]
  | .bin _ _ left right => [left, right]
  | .cmp _ _ left (.imm _) => [left]
  | .cmp _ _ left (.temp right) => [left, right]
  | .call _ _ args _ => args
  | .callRuntime _ _ args _ => args
  | .print value _ => [value]
  | .br cond _ _ => [cond]
  | .ret value _ => [value]
  | _ => []

/-- `tempDefs`. -/
def tempDefs : Instr → List ℕ
  | .constInt dest _ _ => [dest]
  | .constStr dest _ => [dest]
  | .constPtr dest _ _ => [dest]
  | .loadLocal dest _ _ => [dest]
  | .neg dest _ => [dest]
  | .not dest _ => [dest]
  | .bin dest _ _ _ => [dest]
  | .cmp dest _ _ _ => [dest]
  | .call dest _ _ _ => [dest]
  | .callRuntime dest _ _ _ => [dest]
  | _ => []

/-- The labels control may jump to from an instruction. -/
def jumpTargets : Instr → List Label
  | .jmp label => [label]
  | .br _ thenLabel elseLabel => [thenLabel, elseLabel]
  | _ => []

/-- Control reaches the next instruction of the list after this one. -/
def fallsThrough : Instr → Bool
  | .jmp _ => false
  | .br _ _ _ => false
  | .ret _ _ => false
  | _ => true

/-- The position control continues at when it jumps to `label`. -/
def labelIndex (code : List Instr) (label : Label) : Option ℕ :=
  code.findIdx? (· = .label label)

/-- Control may pass from position `i` to position `j`. -/
def Edge (code : List Instr) (i j : ℕ) : Prop :=
  ∃ inst, code[i]? = some inst ∧
    (fallsThrough inst = true ∧ j = i + 1 ∨ ∃ l ∈ jumpTargets inst, labelIndex code l = some j)

end GatoCore.Native
