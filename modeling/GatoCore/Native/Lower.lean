import Mathlib.Tactic.Simps.Basic
import GatoCore.Native.Infer
import GatoCore.Native.IR

/-!
# Lowering to the intermediate representation

Source: `buildConstValue`, `internString`, `internArray`, the methods of `LoweringContext` and
`lowerProgram`.

The context object is the state of a monad over `Except`. The table `unit` shared by all contexts
is passed from one function to the next as `consts`.
-/

namespace GatoCore.Native

/-! ## Constants -/

/-- The position `unit.stringLabels` has for a text. The assignment to its property `__proto__` has
no effect, so that text is never found. -/
def stringPosition (consts : ConstTables) (value : String) : Option ℕ :=
  if value = "__proto__" then none else consts.stringList.idxOf? value

/-- `internString`. -/
def internString (consts : ConstTables) (value : String) : DataLabel × ConstTables :=
  match stringPosition consts value with
  | some i => (.str i, consts)
  | none =>
      (.str consts.stringList.length, { consts with stringList := consts.stringList ++ [value] })

/-- `internArray`; the key `serializeArrayConst` determines the item type and the items. -/
def internArray (consts : ConstTables) (items : List ConstValue) (itemType : Ty) :
    DataLabel × ConstTables :=
  match consts.arrayList.idxOf? ⟨itemType, items⟩ with
  | some i => (.arr i, consts)
  | none =>
      (.arr consts.arrayList.length,
        { consts with arrayList := consts.arrayList ++ [⟨itemType, items⟩] })

mutual
def buildConstValue (consts : ConstTables) : Expr → Except String (ConstValue × ConstTables)
  | .number value => .ok (⟨.i64, .imm value⟩, consts)
  | .string value =>
      let (label, consts) := internString consts value
      .ok (⟨.str, .label label⟩, consts)
  | .bool value => .ok (⟨.bool, .imm (if value then 1 else 0)⟩, consts)
  | .null => .ok (⟨.null, .imm 0⟩, consts)
  | .array items => do
      let (values, itemType, consts) ← buildConstItems consts none items
      let itemType := itemType.getD .null
      let (label, consts) := internArray consts values itemType
      .ok (⟨.array itemType, .label label⟩, consts)
  | _ => .error "array nativo aceita apenas valores constantes"

/-- The loop over the items of an `Array` node. -/
def buildConstItems (consts : ConstTables) (itemType : Option Ty) :
    List Expr → Except String (List ConstValue × Option Ty × ConstTables)
  | [] => .ok ([], itemType, consts)
  | item :: items => do
      let (inferred, consts) ← buildConstValue consts item
      if itemType ≠ none ∧ itemType ≠ some inferred.type then
        .error "array nativo exige itens homogeneos"
      let (values, itemType, consts) ← buildConstItems consts (some inferred.type) items
      .ok (inferred :: values, itemType, consts)
end

/-! ## The lowering context -/

/-- The fields of a `LoweringContext` object that lowering reads or writes. -/
structure LoweringContext where
  consts : ConstTables
  name : String
  symbol : Symbol
  returnType : Option Ty
  instructions : List Instr
  locals : String → Option Local
  localList : List Local
  tempTypes : List (Option Ty)
  labelCount : ℕ
  params : List Local

/-- A lowered value: its temp and its static type. -/
structure Operand where
  temp : ℕ
  type : Option Ty
deriving DecidableEq, Repr

namespace LoweringContext

def tempCount (ctx : LoweringContext) : ℕ := ctx.tempTypes.length

@[simps]
def withLocal (ctx : LoweringContext) (loc : Local) : LoweringContext :=
  { ctx with
    locals := Function.update ctx.locals loc.name (some loc)
    localList := ctx.localList ++ [loc] }

/-- The entry `addLocal` makes for a name. -/
def freshLocal (ctx : LoweringContext) (name : String) (type : Option Ty) (isParam : Bool) :
    Local :=
  { name := name, type := type, slot := ctx.localList.length, isParam := isParam }

@[simps]
def withTemp (ctx : LoweringContext) (type : Option Ty) : LoweringContext :=
  { ctx with tempTypes := ctx.tempTypes ++ [type] }

@[simps]
def withInstr (ctx : LoweringContext) (inst : Instr) : LoweringContext :=
  { ctx with instructions := ctx.instructions ++ [inst] }

@[simps]
def withLabels (ctx : LoweringContext) (n : ℕ) : LoweringContext :=
  { ctx with labelCount := ctx.labelCount + n }

@[simps]
def withConsts (ctx : LoweringContext) (consts : ConstTables) : LoweringContext :=
  { ctx with consts := consts }

@[simps]
def withParam (ctx : LoweringContext) (loc : Local) : LoweringContext :=
  { ctx with
    locals := Function.update ctx.locals loc.name (some loc)
    localList := ctx.localList ++ [loc]
    params := ctx.params ++ [loc] }

end LoweringContext

abbrev LowerM := StateT LoweringContext (Except String)

def addLocal (name : String) (type : Option Ty) (isParam : Bool) : LowerM Local :=
  modifyGet fun ctx =>
    (ctx.freshLocal name type isParam, ctx.withLocal (ctx.freshLocal name type isParam))

def ensureLocal (name : String) (type : Option Ty) : LowerM Local := do
  match (← get).locals name with
  | none => addLocal name type false
  | some loc =>
      if loc.type ≠ type then
        throw ("variavel `" ++ name ++ "` muda de tipo no backend nativo")
      return loc

def newTemp (type : Option Ty) : LowerM ℕ :=
  modifyGet fun ctx => (ctx.tempCount, ctx.withTemp type)

def emit (inst : Instr) : LowerM Unit :=
  modify fun ctx => ctx.withInstr inst

def newLabel (kind : LabelKind) : LowerM Label :=
  modifyGet fun ctx => (⟨kind, ctx.labelCount⟩, ctx.withLabels 1)

/-- `lowerTruthy`; the returned temp is the one passed in. -/
def lowerTruthy (valueType : Option Ty) : LowerM Unit :=
  if isIntLikeType valueType then return ()
  else throw "condicoes nativas aceitam numero, booleano ou nulo"

/-- `buildConstValue(this.unit, expr, this.inputPath)`. -/
def buildConst (expr : Expr) : LowerM ConstValue := do
  let ctx ← get
  let (constant, consts) ← buildConstValue ctx.consts expr
  set (ctx.withConsts consts)
  return constant

/-- `internString(this.unit, value)`. -/
def internText (value : String) : LowerM DataLabel :=
  modifyGet fun ctx =>
    ((internString ctx.consts value).1, ctx.withConsts (internString ctx.consts value).2)

/-- The instruction `emitConstValue` emits. -/
def ConstValue.instr (constant : ConstValue) (dest : ℕ) : Instr :=
  match constant.value with
  | .label label => .constPtr dest label (some constant.type)
  | .imm value => .constInt dest value (some constant.type)

def emitConstValue (constant : ConstValue) : LowerM Operand := do
  let dest ← newTemp (some constant.type)
  emit (constant.instr dest)
  return ⟨dest, some constant.type⟩

def defaultValue (type : Option Ty) : LowerM Operand := do
  if isArrayType type then
    let dest ← newTemp type
    emit (.constInt dest 0 type)
    return ⟨dest, type⟩
  else
    emitConstValue (← buildConst (typeDefaultValue type))

/-! ## Expressions -/

/-- The `bin` operator of an arithmetic node. -/
def BinaryOp.binOp : BinaryOp → Option BinOp
  | .and => some .and
  | .or => some .or
  | .add => some .add
  | .sub => some .sub
  | .mul => some .mul
  | .div => some .div
  | .mod => some .mod
  | _ => none

/-- The `cmp` operator of a comparison node. -/
def BinaryOp.cmpOp : BinaryOp → Option CmpOp
  | .eq => some .eq
  | .ne => some .ne
  | .lt => some .lt
  | .le => some .le
  | .gt => some .gt
  | .ge => some .ge
  | _ => none

/-- The test guarding the comparison case of `lowerExpr`. -/
def comparable (op : BinaryOp) (left right : Option Ty) : Bool :=
  ((op = .eq || op = .ne) && canCompareTypes left right) ||
    (left = some .i64 && right = some .i64)

/-- `strlen` for a text, `array_len` for anything else. -/
def lengthFn (type : Option Ty) : RuntimeFn :=
  if type = some .str then .strlen else .arrayLen

/-- The `Unary` case of `lowerExpr` after its operand. -/
def lowerUnary (op : UnaryOp) (left : Operand) : LowerM Operand :=
  match op with
  | .neg => do
      if left.type ≠ some .i64 then
        throw "negacao nativa exige numero"
      let dest ← newTemp (some .i64)
      emit (.neg dest left.temp)
      return ⟨dest, some .i64⟩
  | .not => do
      if !isIntLikeType left.type then
        throw "operador `!` nativo exige numero, booleano ou nulo"
      let dest ← newTemp (some .bool)
      emit (.not dest left.temp)
      return ⟨dest, some .bool⟩
  | .tamanhoDe => do
      if left.type ≠ some .str ∧ !isArrayType left.type then
        throw "`tamanho de` nativo suporta texto ou lista"
      let dest ← newTemp (some .i64)
      emit (.callRuntime dest (lengthFn left.type) [left.temp] (some .i64))
      return ⟨dest, some .i64⟩
  | .tipoDe => do
      let dest ← newTemp (some .str)
      let label ← internText (typeDisplayName left.type)
      emit (.constStr dest label)
      return ⟨dest, some .str⟩
  | .identificar => do
      let dest ← newTemp (some .str)
      emit (.callRuntime dest (.identificar (runtimeTypeOf left.type)) [left.temp] (some .str))
      return ⟨dest, some .str⟩
  | .observar => do
      let dest ← newTemp left.type
      emit (.callRuntime dest (.observar (runtimeTypeOf left.type)) [left.temp] left.type)
      return ⟨dest, left.type⟩

/-- The `Binary` case of `lowerExpr` after its operands. -/
def lowerBinary (op : BinaryOp) (left right : Operand) : LowerM Operand :=
  match op.cmpOp, op.binOp with
  | some cmp, _ => do
      if !comparable op left.type right.type then
        throw "comparacoes nativas hoje suportam numeros e igualdade escalar"
      let dest ← newTemp (some .bool)
      emit (.cmp dest cmp left.temp (.temp right.temp))
      return ⟨dest, some .bool⟩
  | none, some bin => do
      if op.isLogical then
        if !isIntLikeType left.type || !isIntLikeType right.type then
          throw "operacao booleana nativa exige numero, booleano ou nulo"
        let boolLeft ← newTemp (some .bool)
        let boolRight ← newTemp (some .bool)
        emit (.cmp boolLeft .ne left.temp (.imm 0))
        emit (.cmp boolRight .ne right.temp (.imm 0))
        let dest ← newTemp (some .bool)
        emit (.bin dest bin boolLeft boolRight)
        return ⟨dest, some .bool⟩
      else
        if left.type ≠ some .i64 ∨ right.type ≠ some .i64 then
          throw "aritmetica nativa suporta apenas numeros"
        let dest ← newTemp (some .i64)
        emit (.bin dest bin left.temp right.temp)
        return ⟨dest, some .i64⟩
  | none, none => throw "operador binario desconhecido"

mutual
def lowerExpr (table : FunctionTable) : Expr → LowerM Operand
  | .number value => do emitConstValue (← buildConst (.number value))
  | .bool value => do emitConstValue (← buildConst (.bool value))
  | .null => do emitConstValue (← buildConst .null)
  | .string value => do emitConstValue (← buildConst (.string value))
  | .array items => do emitConstValue (← buildConst (.array items))
  | .identifier name => do
      match (← get).locals name with
      | none => throw ("variavel desconhecida `" ++ name ++ "`")
      | some loc =>
          let dest ← newTemp loc.type
          emit (.loadLocal dest loc.slot loc.type)
          return ⟨dest, loc.type⟩
  | .unary op expr => do
      let left ← lowerExpr table expr
      lowerUnary op left
  | .binary op left right => do
      let left ← lowerExpr table left
      let right ← lowerExpr table right
      lowerBinary op left right
  | .call (.identifier name) args => do
      if name = defaultsKey then
        throw "TypeError: cannot read property 'length' of undefined"
      match table.lookup name with
      | none => throw ("funcao desconhecida `" ++ name ++ "`")
      | some callee =>
          if args.length ≠ callee.paramTypes.length then
            throw ("quantidade invalida de argumentos em `" ++ name ++ "`")
          let temps ← lowerArgs table name callee.paramTypes args
          let dest ← newTemp callee.returnType
          emit (.call dest (.fn name) temps callee.returnType)
          return ⟨dest, callee.returnType⟩
  | .call _ _ => throw "somente chamadas diretas por nome sao suportadas"

/-- The loop over `expr.args`; `paramTypes` are the parameter types from the current one on. -/
def lowerArgs (table : FunctionTable) (name : String) (paramTypes : List (Option Ty)) :
    List Expr → LowerM (List ℕ)
  | [] => return []
  | arg :: args => do
      let argInfo ← lowerExpr table arg
      let paramType := paramTypes.head?.join
      if paramType ≠ none ∧ paramType ≠ argInfo.type then
        throw ("tipo de argumento invalido em `" ++ name ++ "`")
      let temps ← lowerArgs table name paramTypes.tail args
      return argInfo.temp :: temps
end

/-! ## Statements -/

/-- `"__each_" + labelCount`. -/
def eachName (n : ℕ) : String := "__each_" ++ toString n

/-- `"__iter_" + labelCount`. -/
def iterName (n : ℕ) : String := "__iter_" ++ toString n

/-- The runtime function that reads an item of an iterable. -/
def itemFn (iterable item : Option Ty) : RuntimeFn :=
  if iterable = some .str then .stringCharAt
  else if arrayUsesPointerItems item then .arrayGetPtr
  else .arrayGetI64

/-- The hidden locals and the labels of a `para cada`. -/
structure ForEachNames where
  iterableLocal : Local
  indexLocal : Local
  loopLabel : Label
  bodyLabel : Label
  exitLabel : Label

/-- The `ForEach` case of `lowerStatement` up to the loop label. -/
def lowerForEachStart (iterable : Operand) : LowerM ForEachNames := do
  let iterableLocal ← addLocal (eachName (← get).labelCount) iterable.type false
  emit (.storeLocal iterableLocal.slot iterable.type iterable.temp)
  let indexLocal ← addLocal (iterName (← get).labelCount) (some .i64) false
  let indexZero ← defaultValue (some .i64)
  emit (.storeLocal indexLocal.slot (some .i64) indexZero.temp)
  let eachLoopLabel ← newLabel .foreach
  let eachBodyLabel ← newLabel .foreachBody
  let eachExitLabel ← newLabel .foreachEnd
  emit (.label eachLoopLabel)
  return ⟨iterableLocal, indexLocal, eachLoopLabel, eachBodyLabel, eachExitLabel⟩

/-- The test of a `para cada`, up to the body label. The result is the temps of the index and of
the iterable. -/
def lowerForEachTest (names : ForEachNames) (type : Option Ty) : LowerM (ℕ × ℕ) := do
  let indexTemp ← newTemp (some .i64)
  emit (.loadLocal indexTemp names.indexLocal.slot (some .i64))
  let iterableTemp ← newTemp type
  emit (.loadLocal iterableTemp names.iterableLocal.slot type)
  let limitTemp ← newTemp (some .i64)
  emit (.callRuntime limitTemp (lengthFn type) [iterableTemp] (some .i64))
  let condTemp ← newTemp (some .bool)
  emit (.cmp condTemp .lt indexTemp (.temp limitTemp))
  emit (.br condTemp names.bodyLabel names.exitLabel)
  emit (.label names.bodyLabel)
  return (indexTemp, iterableTemp)

/-- The load of the item of a `para cada` into the local of its binding. -/
def lowerForEachItem (binding : String) (type : Option Ty) (indexTemp iterableTemp : ℕ) :
    LowerM Unit := do
  let itemLocal ← ensureLocal binding (bindingType type)
  let itemTemp ← newTemp itemLocal.type
  emit (.callRuntime itemTemp (itemFn type itemLocal.type) [iterableTemp, indexTemp]
    itemLocal.type)
  emit (.storeLocal itemLocal.slot itemLocal.type itemTemp)

/-- The `ForEach` case of `lowerStatement` after the body. -/
def lowerForEachTail (names : ForEachNames) (indexTemp : ℕ) : LowerM Unit := do
  let incValue ← newTemp (some .i64)
  emit (.constInt incValue 1 (some .i64))
  let nextIndex ← newTemp (some .i64)
  emit (.bin nextIndex .add indexTemp incValue)
  emit (.storeLocal names.indexLocal.slot (some .i64) nextIndex)
  emit (.jmp names.loopLabel)
  emit (.label names.exitLabel)

/-- `Return` after its value. -/
def lowerReturn (value : Operand) : LowerM Unit := do
  let ctx ← get
  if value.type ≠ ctx.returnType then
    throw ("retorno nao bate com o tipo de `" ++ ctx.name ++ "`")
  emit (.ret value.temp value.type)

mutual
def lowerStatement (table : FunctionTable) : Stmt → LowerM Unit
  | .define name expr => do
      let value ← lowerExpr table expr
      let loc ← ensureLocal name value.type
      emit (.storeLocal loc.slot loc.type value.temp)
  | .assign name expr => do
      match (← get).locals name with
      | none => throw ("variavel desconhecida `" ++ name ++ "`")
      | some loc =>
          let value ← lowerExpr table expr
          if loc.type ≠ value.type then
            throw ("atribuicao invalida para `" ++ name ++ "`")
          emit (.storeLocal loc.slot loc.type value.temp)
  | .show expr => do
      let value ← lowerExpr table expr
      emit (.print value.temp (runtimeTypeOf value.type))
  | .exprStmt expr => do
      let _ ← lowerExpr table expr
  | .ret (some expr) => do
      let value ← lowerExpr table expr
      lowerReturn value
  | .ret none => do
      let value ← defaultValue (← get).returnType
      lowerReturn value
  | .ifElse test thenBody elseBody => do
      let test ← lowerExpr table test
      lowerTruthy test.type
      let thenLabel ← newLabel .thenL
      let elseLabel ← newLabel .elseL
      let endLabel ← newLabel .ifend
      emit (.br test.temp thenLabel elseLabel)
      emit (.label thenLabel)
      lowerStatementList table thenBody
      emit (.jmp endLabel)
      emit (.label elseLabel)
      lowerStatementList table elseBody
      emit (.label endLabel)
  | .while test body => do
      let loopLabel ← newLabel .loop
      let bodyLabel ← newLabel .body
      let exitLabel ← newLabel .loopend
      emit (.label loopLabel)
      let test ← lowerExpr table test
      lowerTruthy test.type
      emit (.br test.temp bodyLabel exitLabel)
      emit (.label bodyLabel)
      lowerStatementList table body
      emit (.jmp loopLabel)
      emit (.label exitLabel)
  | .forEach binding iterable body => do
      let iterable ← lowerExpr table iterable
      let names ← lowerForEachStart iterable
      let (indexTemp, iterableTemp) ← lowerForEachTest names iterable.type
      lowerForEachItem binding iterable.type indexTemp iterableTemp
      lowerStatementList table body
      lowerForEachTail names indexTemp

def lowerStatementList (table : FunctionTable) : List Stmt → LowerM Unit
  | [] => return ()
  | stmt :: body => do
      lowerStatement table stmt
      lowerStatementList table body
end

/-! ## Functions and programs -/

def Instr.isRet : Instr → Bool
  | .ret _ _ => true
  | _ => false

/-- The test of `finish`: the last instruction is a `ret`. -/
def endsInRet (code : List Instr) : Bool :=
  (code.getLast?.map Instr.isRet).getD false

def finish : LowerM IRFunction := do
  if !endsInRet (← get).instructions then
    let fallback ← defaultValue (← get).returnType
    emit (.ret fallback.temp fallback.type)
  let ctx ← get
  return { name := ctx.name, symbol := ctx.symbol, returnType := ctx.returnType
           params := ctx.params, locals := ctx.localList
           instructions := ctx.instructions, tempTypes := ctx.tempTypes }

/-- The name `lowerProgram` gives the context of the top-level body. -/
def mainName : String := "__main__"

def symbolOf (name : String) : Symbol :=
  if name = mainName then .main else .fn name

/-- A `LoweringContext` before its parameters are added. -/
def emptyContext (consts : ConstTables) (name : String) (returnType : Option Ty) :
    LoweringContext :=
  { consts := consts, name := name, symbol := symbolOf name, returnType := returnType
    instructions := [], locals := fun _ => none, localList := [], tempTypes := []
    labelCount := 0, params := [] }

/-- The loop of the constructor over `params`. -/
def addParams (ctx : LoweringContext) : List (String × Option Ty) → LoweringContext
  | [] => ctx
  | (name, type) :: params =>
      addParams (ctx.withParam (ctx.freshLocal name type true)) params

/-- `new LoweringContext(unit, ...)`. -/
def newContext (consts : ConstTables) (name : String) (returnType : Option Ty)
    (params : List (String × Option Ty)) : LoweringContext :=
  addParams (emptyContext consts name returnType) params

/-- Lower one body in a fresh context; the constant tables are threaded through. -/
def lowerBody (table : FunctionTable) (consts : ConstTables) (name : String)
    (returnType : Option Ty) (params : List (String × Option Ty)) (body : List Stmt) :
    Except String (IRFunction × ConstTables) := do
  let (_, ctx) ← (lowerStatementList table body).run (newContext consts name returnType params)
  let (fn, ctx) ← finish.run ctx
  return (fn, ctx.consts)

/-- `snippets.callconv.arg_regs.length`. -/
def maxParams : ℕ := 6

def lowerFunction (table : FunctionTable) (consts : ConstTables) (fn : FunctionDecl) :
    Except String (IRFunction × ConstTables) :=
  let paramTypes := ((table.lookup fn.name).map (·.paramTypes)).getD []
  if fn.params.length > maxParams then
    .error "backend nativo suporta ate 6 parametros por funcao"
  else
    lowerBody table consts fn.name (table.returnType fn.name)
      (fn.params.zip paramTypes) fn.body

def lowerFunctions (table : FunctionTable) (consts : ConstTables) :
    List FunctionDecl → Except String (List IRFunction × ConstTables)
  | [] => .ok ([], consts)
  | fn :: fns => do
      let (lowered, consts) ← lowerFunction table consts fn
      let (rest, consts) ← lowerFunctions table consts fns
      return (lowered :: rest, consts)

def emptyTables : ConstTables := { stringList := [], arrayList := [] }

def lowerProgram (program : Program) (table : FunctionTable) : Except String IRUnit := do
  let (functions, consts) ← lowerFunctions table emptyTables program.functions
  let (main, consts) ← lowerBody table consts mainName (some .i64) [] program.body
  return { functions := functions ++ [main], consts := consts }

/-- `compileToUnit` after parsing. -/
def compileProgram (program : Program) : Except String IRUnit := do
  let table ← analyzeProgram program
  lowerProgram program table

end GatoCore.Native
