import GatoCore.Native.Parser
import GatoCore.Native.Words

/-!
# Printed programs

A program is printed as the list of what its tokens show, with parentheses only where the order of
the operators asks for them, and as a text with blanks behind every token.
-/

namespace GatoCore.Native

open Lexer

/-! ## Lexemes -/

/-- A token without its place. -/
structure Lexeme where
  type : TokenType
  value : String
deriving DecidableEq, Repr

def Token.lexeme (token : Token) : Lexeme := ⟨token.type, token.value⟩

namespace Lexeme

def keyword (word : String) : Lexeme := ⟨.keyword, word⟩

def ident (name : String) : Lexeme := ⟨.identifier, name⟩

def operator (symbol : String) : Lexeme := ⟨.operator, symbol⟩

def punct (symbol : String) : Lexeme := ⟨.punct, symbol⟩

def eof : Lexeme := ⟨.eof, ""⟩

end Lexeme

open Lexeme

/-! ## Expressions -/

/-- The order of the operators: `||`, `&&`, equality, comparison, sums, products. -/
def BinaryOp.level : BinaryOp → ℕ
  | .or => 1
  | .and => 2
  | .eq | .ne => 3
  | .lt | .le | .gt | .ge => 4
  | .add | .sub => 5
  | .mul | .div | .mod => 6

/-- The level of a unary operator and of its operand. -/
def unaryLevel : ℕ := 7

/-- The level of what is called. -/
def calleeLevel : ℕ := 8

def BinaryOp.symbol : BinaryOp → String
  | .and => "&&"
  | .or => "||"
  | .eq => "=="
  | .ne => "!="
  | .lt => "<"
  | .le => "<="
  | .gt => ">"
  | .ge => ">="
  | .add => "+"
  | .sub => "-"
  | .mul => "*"
  | .div => "/"
  | .mod => "%"

def UnaryOp.print : UnaryOp → List Lexeme
  | .neg => [operator "-"]
  | .not => [operator "!"]
  | .tamanhoDe => [keyword "tamanho", keyword "de"]
  | .tipoDe => [keyword "tipo", keyword "de"]
  | .identificar => [keyword "identificar"]
  | .observar => [keyword "observar"]

def parenthesize (needed : Bool) (lexemes : List Lexeme) : List Lexeme :=
  if needed then punct "(" :: (lexemes ++ [punct ")"]) else lexemes

mutual
/-- An expression where operators below a level stand in parentheses. -/
def Expr.print : Expr → ℕ → List Lexeme
  | .number value, _ => [⟨.number, String.ofList (Nat.toDigits 10 value)⟩]
  | .string value, _ => [⟨.string, value⟩]
  | .bool value, _ => [ident (if value then "verdadeiro" else "falso")]
  | .null, _ => [ident "nulo"]
  | .array items, _ => punct "[" :: (printItems items ++ [punct "]"])
  | .identifier name, _ => [ident name]
  | .unary op e, level => parenthesize (unaryLevel < level) (op.print ++ e.print unaryLevel)
  | .binary op l r, level =>
      parenthesize (op.level < level)
        (l.print op.level ++ operator op.symbol :: r.print (op.level + 1))
  | .call callee args, _ =>
      callee.print calleeLevel ++ punct "(" :: (printItems args ++ [punct ")"])

def printItems : List Expr → List Lexeme
  | [] => []
  | e :: es => e.print 0 ++ printMore es

/-- Items behind another one. -/
def printMore : List Expr → List Lexeme
  | [] => []
  | e :: es => punct "," :: (e.print 0 ++ printMore es)
end

/-! ## Programs -/

mutual
def Stmt.print : Stmt → List Lexeme
  | .define name e => keyword "definir" :: ident name :: keyword "como" :: e.print 0
  | .assign name e => ident name :: operator "=" :: e.print 0
  | .show e => keyword "mostrar" :: e.print 0
  | .exprStmt e => e.print 0
  | .ret none => [keyword "retornar"]
  | .ret (some e) => keyword "retornar" :: e.print 0
  | .ifElse test thenBody elseBody =>
      keyword "se" :: (test.print 0 ++ keyword "então" :: (printBody thenBody ++
        ((if elseBody.isEmpty then [] else keyword "senão" :: printBody elseBody) ++
          [keyword "fim"])))
  | .while test body =>
      keyword "enquanto" :: (test.print 0 ++ keyword "faça" :: (printBody body ++ [keyword "fim"]))
  | .forEach binding iterable body =>
      keyword "para" :: keyword "cada" :: ident binding :: keyword "em" ::
        (iterable.print 0 ++ keyword "faça" :: (printBody body ++ [keyword "fim"]))

def printBody : List Stmt → List Lexeme
  | [] => []
  | s :: body => s.print ++ printBody body
end

def printParams : List String → List Lexeme
  | [] => []
  | [param] => [ident param]
  | param :: params => ident param :: punct "," :: printParams params

def FunctionDecl.print (fn : FunctionDecl) : List Lexeme :=
  keyword "função" :: ident fn.name :: punct "(" ::
    (printParams fn.params ++ punct ")" :: keyword "faça" ::
      (printBody fn.body ++ [keyword "fim"]))

def Program.print (program : Program) : List Lexeme :=
  program.functions.flatMap FunctionDecl.print ++ printBody program.body

/-! ## Texts -/

/-- The characters of a text between double quotes. -/
def escape : List Char → List Char
  | [] => []
  | ch :: rest =>
      if ch = '"' ∨ ch = '\\' then '\\' :: ch :: escape rest else ch :: escape rest

def Lexeme.text (lexeme : Lexeme) : List Char :=
  match lexeme.type with
  | .string => '"' :: (escape lexeme.value.toList ++ ['"'])
  | _ => lexeme.value.toList

/-- What stands behind a token. -/
structure IsGap (gap : List Char) : Prop where
  ne_nil : gap ≠ []
  blank : ∀ ch ∈ gap, isBlank ch = true

/-- The text of a list of lexemes, with a gap behind each. -/
def printText (gap : ℕ → List Char) : List Lexeme → List Char
  | [] => []
  | lexeme :: lexemes => lexeme.text ++ (gap 0 ++ printText (fun i => gap (i + 1)) lexemes)

/-! ## Programs that can be read back -/

/-- The tokenizer makes an identifier of the name. -/
structure IsName (name : String) : Prop where
  word : IsWord name.toList
  token : ∀ line col,
    wordToken name line col = { type := .identifier, value := name, line := line, col := col }

/-- The names `parsePrimary` takes for constants. -/
def constantNames : List String := ["true", "verdadeiro", "false", "falso", "null", "nulo"]

section Printable

variable (isVariable : String → Prop)

mutual
/-- The integers are doubles; what is read as a variable may be one. -/
def Expr.Printable : Expr → Prop
  | .number value => value < 2 ^ 53
  | .identifier name => isVariable name
  | .array items => ItemsPrintable items
  | .unary _ e => e.Printable
  | .binary _ l r => l.Printable ∧ r.Printable
  | .call callee args => callee.Printable ∧ ItemsPrintable args
  | .string _ | .bool _ | .null => True

def ItemsPrintable : List Expr → Prop
  | [] => True
  | e :: es => e.Printable ∧ ItemsPrintable es
end

/-- The statement ends in an expression. -/
def Stmt.EndsInExpr : Stmt → Prop
  | .define _ _ | .assign _ _ | .show _ | .exprStmt _ | .ret (some _) => True
  | .ret none | .ifElse _ _ _ | .while _ _ | .forEach _ _ _ => False

/-- An expression statement that begins with `-` or `(`. -/
def Stmt.Continues : Stmt → Prop
  | .exprStmt e => (e.print 0).head? = some (operator "-") ∨ (e.print 0).head? = some (punct "(")
  | _ => False

/-- One statement may stand directly behind another. -/
structure Separate (s t : Stmt) : Prop where
  boundary : s.EndsInExpr → ¬t.Continues
  returns : s ≠ .ret none

mutual
def Stmt.Printable : Stmt → Prop
  | .define name e | .assign name e => IsName name ∧ e.Printable isVariable
  | .show e | .exprStmt e | .ret (some e) => e.Printable isVariable
  | .ret none => True
  | .ifElse test thenBody elseBody =>
      test.Printable isVariable ∧ BodyPrintable thenBody ∧ BodyPrintable elseBody
  | .while test body => test.Printable isVariable ∧ BodyPrintable body
  | .forEach binding iterable body =>
      IsName binding ∧ iterable.Printable isVariable ∧ BodyPrintable body

def BodyPrintable : List Stmt → Prop
  | [] => True
  | s :: body => s.Printable ∧ (∀ t ∈ body.head?, Separate s t) ∧ BodyPrintable body
end

structure FunctionDecl.Printable (fn : FunctionDecl) : Prop where
  name : IsName fn.name
  params : ∀ param ∈ fn.params, IsName param
  body : BodyPrintable isVariable fn.body

structure Program.Printable (program : Program) : Prop where
  functions : ∀ fn ∈ program.functions, fn.Printable isVariable
  body : BodyPrintable isVariable program.body

end Printable

end GatoCore.Native
