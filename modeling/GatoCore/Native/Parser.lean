import GatoCore.Lib.Binary64
import GatoCore.Lib.Reader
import GatoCore.Native.Syntax
import GatoCore.Native.Tokens

/-!
# The native parser

Source: `Parser` and its methods in `compiler/ptjs_native.js`.

The state is the list of tokens from `index` on. A function takes a bound on the depth of its calls
and the number of its turns; what runs out of it is the failure `outOfFuel`. The loops take their
body as a turn, which also says whether the loop goes on. The tokens of type `number` are digits.
-/

namespace GatoCore.Native

open GatoCore.Lib

/-- How parsing fails. -/
inductive ParseFailure where
  /-- `fatal`. -/
  | fatal (message : String)
  /-- A property of `undefined` was read. -/
  | undefinedRead
  | outOfFuel
deriving DecidableEq, Repr

abbrev ParseM := Reader Token ParseFailure

namespace Parser

/-! ## The cursor -/

def current : ParseM (Option Token) := return (← get).head?

/-- `peek(1)`. -/
def peekNext : ParseM (Option Token) := return (← get).tail.head?

/-- `this.index += 1`. -/
def advance : ParseM PUnit := do set (← get).tail

/-- The test of `at`; no value is the value `undefined` of the argument. -/
def Matches (type : TokenType) (value : Option String) (token : Token) : Prop :=
  token.type = type ∧ ∀ v, value = some v → token.value = v

instance (type : TokenType) (value : Option String) (token : Token) :
    Decidable (Matches type value token) :=
  match value with
  | none => decidable_of_iff (token.type = type) (by simp [Matches])
  | some v => decidable_of_iff (token.type = type ∧ token.value = v) (by simp [Matches])

/-- `at`. -/
def atToken (type : TokenType) (value : Option String) : ParseM Bool := do
  match ← current with
  | none => return false
  | some token => return decide (Matches type value token)

/-- `match`. -/
def matchToken (type : TokenType) (value : Option String) : ParseM (Option Token) := do
  if ← atToken type value then
    let token ← current
    advance
    return token
  else return none

/-- `error`. -/
def fail {α : Type} (message : String) : ParseM α := do
  match ← current with
  | none => throw .undefinedRead
  | some token =>
      throw (.fatal ("erro de parse em " ++ toString token.line ++ ":" ++ toString token.col ++
        ": " ++ message))

/-- The message of `expect` without a label. -/
def expected (type : TokenType) (value : Option String) : String :=
  type.text ++ " " ++ value.getD "undefined" ++ " esperado"

/-- `expect`; its result is only used where the token is there. -/
def expect (type : TokenType) (value : Option String) (label : Option String) : ParseM Token := do
  match ← current with
  | none => fail (label.getD (expected type value))
  | some token =>
      if Matches type value token then
        advance
        return token
      else fail (label.getD (expected type value))

/-! ## Expressions -/

/-- The operators `precedence` has a case for. -/
def binaryOp : String → Option BinaryOp
  | "||" => some .or
  | "&&" => some .and
  | "==" => some .eq
  | "!=" => some .ne
  | "<" => some .lt
  | "<=" => some .le
  | ">" => some .gt
  | ">=" => some .ge
  | "+" => some .add
  | "-" => some .sub
  | "*" => some .mul
  | "/" => some .div
  | "%" => some .mod
  | _ => none

/-- `precedence`, for the operators it knows. -/
def precedence : BinaryOp → ℕ
  | .or => 1
  | .and => 2
  | .eq | .ne => 3
  | .lt | .le | .gt | .ge => 4
  | .add | .sub => 5
  | .mul | .div | .mod => 6

/-- `Number(token.value)`. -/
def numberOf (text : String) : ℕ :=
  Binary64.nearest (text.toList.foldl (fun n ch => 10 * n + (ch.toNat - '0'.toNat)) 0)

/-- The body of the `do … while` over arguments and over items. -/
def listTurn (parseExpression : ParseM Expr) (items : List Expr) : ParseM (List Expr × Bool) := do
  let item ← parseExpression
  let comma ← matchToken .punct (some ",")
  return (items ++ [item], comma.isSome)

/-- Arguments or items up to their closing token. -/
def parseList (parseExpression : ParseM Expr) (fuel : ℕ) (close label : String) :
    ParseM (List Expr) := do
  if ← atToken .punct (some close) then
    let _ ← expect .punct (some close) (some label)
    return []
  else
    let items ← loop .outOfFuel (listTurn parseExpression) fuel []
    let _ ← expect .punct (some close) (some label)
    return items

/-- The loop of `parseBinary`; an operator without precedence has the precedence `-1`. -/
def binaryTurn (parseBinary : ℕ → ParseM Expr) (minPrec : ℕ) (left : Expr) :
    ParseM (Expr × Bool) := do
  if ← atToken .operator none then
    match ((← current).bind fun token => binaryOp token.value) with
    | none => return (left, false)
    | some op =>
        if precedence op < minPrec then return (left, false)
        else
          advance
          let right ← parseBinary (precedence op + 1)
          return (.binary op left right, true)
  else return (left, false)

/-- The loop of `parsePostfix`. -/
def callTurn (parseExpression : ParseM Expr) (fuel : ℕ) (expr : Expr) : ParseM (Expr × Bool) := do
  match ← matchToken .punct (some "(") with
  | none => return (expr, false)
  | some _ =>
      let args ← parseList parseExpression fuel ")" "')' esperado"
      return (.call expr args, true)

/-- `parsePrimary`. -/
def parsePrimary (parseExpression : ParseM Expr) (fuel : ℕ) : ParseM Expr := do
  if (← atToken .identifier (some "true")) || (← atToken .identifier (some "verdadeiro")) then
    advance
    return .bool true
  else if (← atToken .identifier (some "false")) || (← atToken .identifier (some "falso")) then
    advance
    return .bool false
  else if (← atToken .identifier (some "null")) || (← atToken .identifier (some "nulo")) then
    advance
    return .null
  else match ← matchToken .number none with
  | some token => return .number (numberOf token.value)
  | none => match ← matchToken .string none with
  | some token => return .string token.value
  | none => match ← matchToken .identifier none with
  | some token => return .identifier token.value
  | none => match ← matchToken .punct (some "[") with
  | some _ => return .array (← parseList parseExpression fuel "]" "`]` esperado")
  | none => match ← matchToken .punct (some "(") with
  | some _ =>
      let expr ← parseExpression
      let _ ← expect .punct (some ")") (some "')' esperado")
      return expr
  | none => fail "expressao esperada"

/-- `parseUnary`. -/
def parseUnaryWith (parseUnary parsePostfix : ParseM Expr) : ParseM Expr := do
  match ← matchToken .operator (some "-") with
  | some _ => return .unary .neg (← parseUnary)
  | none => match ← matchToken .operator (some "!") with
  | some _ => return .unary .not (← parseUnary)
  | none =>
  if ← atToken .keyword (some "tamanho") then
    advance
    let _ ← expect .keyword (some "de") (some "`de` esperado apos `tamanho`")
    return .unary .tamanhoDe (← parseUnary)
  else if ← atToken .keyword (some "tipo") then
    advance
    let _ ← expect .keyword (some "de") (some "`de` esperado apos `tipo`")
    return .unary .tipoDe (← parseUnary)
  else if ← atToken .keyword (some "identificar") then
    advance
    return .unary .identificar (← parseUnary)
  else if ← atToken .keyword (some "observar") then
    advance
    return .unary .observar (← parseUnary)
  else parsePostfix

mutual
def parseExpression : ℕ → ParseM Expr
  | 0 => throw .outOfFuel
  | fuel + 1 => parseBinary fuel 0

def parseBinary : ℕ → ℕ → ParseM Expr
  | 0, _ => throw .outOfFuel
  | fuel + 1, minPrec => do
      let left ← parseUnary fuel
      loop .outOfFuel (binaryTurn (fun prec => parseBinary fuel prec) minPrec) fuel left

def parseUnary : ℕ → ParseM Expr
  | 0 => throw .outOfFuel
  | fuel + 1 => parseUnaryWith (parseUnary fuel) (parsePostfix fuel)

def parsePostfix : ℕ → ParseM Expr
  | 0 => throw .outOfFuel
  | fuel + 1 => do
      let expr ← parsePrimary (parseExpression fuel) fuel
      loop .outOfFuel (callTurn (parseExpression fuel) fuel) fuel expr
end

/-! ## Statements -/

/-- `terminators[this.current().value]`: the names every object answers to are true too. -/
def Terminates (terminators : List String) (value : String) : Prop :=
  value ∈ terminators ∨ value ∈ objectPrototypeKeys

instance (terminators : List String) (value : String) : Decidable (Terminates terminators value) :=
  inferInstanceAs (Decidable (_ ∨ _))

def parseDefine (parseExpression : ParseM Expr) : ParseM Stmt := do
  let _ ← expect .keyword (some "definir") none
  let name ← expect .identifier none (some "nome esperado em definir")
  let _ ← expect .keyword (some "como") (some "`como` esperado em definir")
  return .define name.value (← parseExpression)

def parseAssign (parseExpression : ParseM Expr) : ParseM Stmt := do
  let name ← expect .identifier none none
  let _ ← expect .operator (some "=") (some "'=' esperado")
  return .assign name.value (← parseExpression)

def parseShow (parseExpression : ParseM Expr) : ParseM Stmt := do
  let _ ← expect .keyword (some "mostrar") none
  return .show (← parseExpression)

def parseReturn (parseExpression : ParseM Expr) : ParseM Stmt := do
  let _ ← expect .keyword (some "retornar") none
  if (← atToken .eof none) || (← atToken .keyword (some "fim")) ||
      (← atToken .keyword (some "senão")) then
    return .ret none
  else return .ret (some (← parseExpression))

def parseIf (parseExpression : ParseM Expr) (parseBlock : List String → ParseM (List Stmt)) :
    ParseM Stmt := do
  let _ ← expect .keyword (some "se") none
  let test ← parseExpression
  let _ ← expect .keyword (some "então") (some "`então` esperado")
  let thenBody ← parseBlock ["senão", "fim"]
  match ← matchToken .keyword (some "senão") with
  | some _ =>
      let elseBody ← parseBlock ["fim"]
      let _ ← expect .keyword (some "fim") (some "`fim` esperado")
      return .ifElse test thenBody elseBody
  | none =>
      let _ ← expect .keyword (some "fim") (some "`fim` esperado")
      return .ifElse test thenBody []

def parseWhile (parseExpression : ParseM Expr) (parseBlock : List String → ParseM (List Stmt)) :
    ParseM Stmt := do
  let _ ← expect .keyword (some "enquanto") none
  let test ← parseExpression
  let _ ← expect .keyword (some "faça") (some "`faça` esperado")
  let body ← parseBlock ["fim"]
  let _ ← expect .keyword (some "fim") (some "`fim` esperado")
  return .while test body

def parseForEach (parseExpression : ParseM Expr) (parseBlock : List String → ParseM (List Stmt)) :
    ParseM Stmt := do
  let _ ← expect .keyword (some "para") none
  let _ ← expect .keyword (some "cada") (some "`cada` esperado")
  let binding ← expect .identifier none (some "binding esperado em `para cada`")
  let _ ← expect .keyword (some "em") (some "`em` esperado")
  let iterable ← parseExpression
  let _ ← expect .keyword (some "faça") (some "`faça` esperado")
  let body ← parseBlock ["fim"]
  let _ ← expect .keyword (some "fim") (some "`fim` esperado")
  return .forEach binding.value iterable body

/-- The last test of `parseStatement`; `peek(1)` is only read after an identifier. -/
def atAssign : ParseM Bool := do
  if ← atToken .identifier none then
    match ← peekNext with
    | none => throw .undefinedRead
    | some token => return decide (Matches .operator (some "=") token)
  else return false

def parseStatementWith (parseExpression : ParseM Expr)
    (parseBlock : List String → ParseM (List Stmt)) : ParseM Stmt := do
  if ← atToken .keyword (some "definir") then parseDefine parseExpression
  else if ← atToken .keyword (some "mostrar") then parseShow parseExpression
  else if ← atToken .keyword (some "retornar") then parseReturn parseExpression
  else if ← atToken .keyword (some "se") then parseIf parseExpression parseBlock
  else if ← atToken .keyword (some "enquanto") then parseWhile parseExpression parseBlock
  else if ← atToken .keyword (some "para") then parseForEach parseExpression parseBlock
  else if ← atAssign then parseAssign parseExpression
  else return .exprStmt (← parseExpression)

/-- The loop of `parseBlock`. -/
def blockTurn (parseStatement : ParseM Stmt) (terminators : List String) (body : List Stmt) :
    ParseM (List Stmt × Bool) := do
  if ← atToken .eof none then return (body, false)
  else if (← atToken .keyword none) && ((← current).any fun token =>
      decide (Terminates terminators token.value)) then return (body, false)
  else return (body ++ [← parseStatement], true)

mutual
def parseStatement : ℕ → ParseM Stmt
  | 0 => throw .outOfFuel
  | fuel + 1 =>
      parseStatementWith (parseExpression fuel) (fun terminators => parseBlock fuel terminators)

def parseBlock : ℕ → List String → ParseM (List Stmt)
  | 0, _ => throw .outOfFuel
  | fuel + 1, terminators => loop .outOfFuel (blockTurn (parseStatement fuel) terminators) fuel []
end

/-! ## Programs -/

/-- The body of the `do … while` over parameters. -/
def paramTurn (params : List String) : ParseM (List String × Bool) := do
  let param ← expect .identifier none (some "parametro esperado")
  let comma ← matchToken .punct (some ",")
  return (params ++ [param.value], comma.isSome)

def parseParams (fuel : ℕ) : ParseM (List String) := do
  match ← matchToken .punct (some "(") with
  | none => return []
  | some _ =>
      if ← atToken .punct (some ")") then
        let _ ← expect .punct (some ")") (some "')' esperado")
        return []
      else
        let params ← loop .outOfFuel paramTurn fuel []
        let _ ← expect .punct (some ")") (some "')' esperado")
        return params

def parseFunction (fuel : ℕ) : ParseM FunctionDecl := do
  let _ ← expect .keyword (some "função") (some "função esperada")
  let name ← expect .identifier none (some "nome de função esperado")
  let params ← parseParams fuel
  let _ ← expect .keyword (some "faça") (some "`faça` esperado")
  let body ← parseBlock fuel ["fim"]
  let _ ← expect .keyword (some "fim") (some "`fim` esperado")
  return { name := name.value, params := params, body := body }

/-- The loop of `parseProgram`. -/
def programTurn (fuel : ℕ) (program : Program) : ParseM (Program × Bool) := do
  if ← atToken .eof none then return (program, false)
  else if ← atToken .keyword (some "função") then
    let fn ← parseFunction fuel
    return ({ program with functions := program.functions ++ [fn] }, true)
  else
    let stmt ← parseStatement fuel
    return ({ program with body := program.body ++ [stmt] }, true)

def parseProgram (fuel : ℕ) : ParseM Program :=
  loop .outOfFuel (programTurn fuel) fuel { functions := [], body := [] }

/-- `new Parser(tokens).parseProgram()`, and the tokens from the final `index` on. -/
def parse (tokens : List Token) : Except ParseFailure (Program × List Token) :=
  (parseProgram (7 * tokens.length + 8)).run tokens

end Parser

end GatoCore.Native
