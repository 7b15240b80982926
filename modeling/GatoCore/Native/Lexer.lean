import GatoCore.Native.Tokens

/-!
# The native tokenizer

Source: `tokenize` in `compiler/ptjs_native.js`, with `snippets/keywords/core_pt.json` and
`snippets/keywords/aliases_pt.json`.

The source text is the list of its characters; a column counts UTF-16 units, as the index of the
source does. A word under which `aliases` has an inherited property becomes a token whose value is
that property, an object. It stands here as the text under which every later table looks it up.
-/

namespace GatoCore.Native

namespace Lexer

/-- How tokenizing fails. -/
inductive LexFailure where
  /-- `fatal`. -/
  | fatal (message : String)
  | outOfFuel
deriving DecidableEq, Repr

/-! ## The cursor -/

/-- `index`, as what is left of the source, with `line` and `col`. -/
structure Cursor where
  rest : List Char
  line : ℕ
  col : ℕ
deriving DecidableEq, Repr

/-- The number of UTF-16 units of a character. -/
def units (ch : Char) : ℕ := if ch.toNat < 65536 then 1 else 2

/-- `advance` over the character in front of `rest`. -/
def Cursor.over (cursor : Cursor) (ch : Char) (rest : List Char) : Cursor :=
  if ch = '\n' then { rest := rest, line := cursor.line + 1, col := 1 }
  else { rest := rest, line := cursor.line, col := cursor.col + units ch }

/-! ## Classes of characters -/

def isDigit (ch : Char) : Bool := '0' ≤ ch && ch ≤ '9'

def isIdStart (ch : Char) : Bool :=
  ('a' ≤ ch && ch ≤ 'z') || ('A' ≤ ch && ch ≤ 'Z') || ch = '_' || 128 ≤ ch.toNat

def isIdContinue (ch : Char) : Bool := isIdStart ch || isDigit ch

def isBlank (ch : Char) : Bool := ch = ' ' || ch = '\t' || ch = '\r' || ch = '\n'

/-! ## Words -/

/-- `snippets.aliases`. -/
def aliases : List (String × String) :=
  [("funcao", "função"), ("entao", "então"), ("senao", "senão"), ("faca", "faça")]

/-- `snippets.keywords.keywords`. -/
def keywords : List String :=
  ["definir", "como", "mostrar", "se", "então", "senão", "fim", "enquanto", "para", "cada", "em",
    "faça", "função", "retornar", "de", "tamanho", "tipo", "identificar", "observar"]

/-- `String(Object.prototype[key])`. -/
def inheritedText (key : String) : String :=
  if key = "__proto__" then "[object Object]"
  else "function " ++ (if key = "constructor" then "Object" else key) ++
    "() \x7b\n    [native code]\n\x7d"

/-- `aliases[value]`, where it is true. -/
def aliasOf (value : String) : Option String :=
  match aliases.lookup value with
  | some canonical => some canonical
  | none => if value ∈ objectPrototypeKeys then some (inheritedText value) else none

/-- `keywordSet[value]`, as a truth value. -/
def inKeywordSet (value : String) : Bool := value ∈ keywords || value ∈ objectPrototypeKeys

/-- The token `readWord` makes of a word. -/
def wordToken (word : String) (line col : ℕ) : Token :=
  let value := (aliasOf word).getD word
  { type := if inKeywordSet value then .keyword else .identifier, value := value, line := line
    col := col }

/-! ## Reading -/

/-- `skipWhitespace`; `comment` is true inside the loop over a comment. -/
def skipWhitespace : Bool → List Char → Cursor → Cursor
  | _, [], cursor => cursor
  | true, ch :: rest, cursor =>
      skipWhitespace (ch ≠ '\n') rest (cursor.over ch rest)
  | false, ch :: rest, cursor =>
      if isBlank ch then skipWhitespace false rest (cursor.over ch rest)
      else if ch = '#' || (ch = '/' && rest.head? = some '/') then
        skipWhitespace true rest (cursor.over ch rest)
      else cursor

/-- The loop of `readNumber` and of `readWord`. -/
def readWhile (p : Char → Bool) : List Char → Cursor → List Char × Cursor
  | [], cursor => ([], cursor)
  | ch :: rest, cursor =>
      if p ch then
        let (value, after) := readWhile p rest (cursor.over ch rest)
        (ch :: value, after)
      else ([], cursor)

/-- The `switch` of `readString`. -/
def unescape : Char → Char
  | 'n' => '\n'
  | 't' => '\t'
  | 'r' => '\r'
  | ch => ch

/-- `readString` after the opening quote; `none` is a string without its closing quote. -/
def readString (quote : Char) : List Char → Cursor → Option (List Char × Cursor)
  | [], _ => none
  | ch :: rest, cursor =>
      if ch = quote then some ([], cursor.over ch rest)
      else if ch = '\\' then
        match rest with
        | [] => none
        | esc :: rest => do
            let (out, after) ← readString quote rest ((cursor.over ch (esc :: rest)).over esc rest)
            return (unescape esc :: out, after)
      else do
        let (out, after) ← readString quote rest (cursor.over ch rest)
        return (ch :: out, after)

/-- The operators of two characters. -/
def isPair (first second : Char) : Bool :=
  (second = '=' && (first = '=' || first = '!' || first = '<' || first = '>')) ||
    (first = '&' && second = '&') || (first = '|' && second = '|')

def isOperator (ch : Char) : Bool :=
  ch = '+' || ch = '-' || ch = '*' || ch = '/' || ch = '%' || ch = '<' || ch = '>' || ch = '=' ||
    ch = '!'

def isPunct (ch : Char) : Bool := ch = '(' || ch = ')' || ch = ',' || ch = '[' || ch = ']'

/-- `line:col`, as messages show it. -/
def Cursor.place (cursor : Cursor) : String := toString cursor.line ++ ":" ++ toString cursor.col

/-- One token from a cursor at its first character. -/
def readToken (ch : Char) (rest : List Char) (cursor : Cursor) :
    Except LexFailure (Token × Cursor) :=
  let token := fun type (value : List Char) =>
    { type := type, value := String.ofList value, line := cursor.line, col := cursor.col : Token }
  let after := cursor.over ch rest
  if ch = '"' || ch = '\'' then
    match readString ch rest after with
    | some (out, after) => .ok (token .string out, after)
    | none => .error (.fatal ("string nao terminada em " ++ cursor.place))
  else if isDigit ch then
    let (value, after) := readWhile isDigit rest after
    .ok (token .number (ch :: value), after)
  else if isIdStart ch then
    let (value, after) := readWhile isIdContinue rest after
    .ok (wordToken (String.ofList (ch :: value)) cursor.line cursor.col, after)
  else match rest with
    | second :: rest' =>
        if isPair ch second then .ok (token .operator [ch, second], after.over second rest')
        else readSingle ch cursor after
    | [] => readSingle ch cursor after
where
  /-- The operators and the punctuation of one character. -/
  readSingle (ch : Char) (cursor after : Cursor) : Except LexFailure (Token × Cursor) :=
    let token := fun type =>
      { type := type, value := String.ofList [ch], line := cursor.line, col := cursor.col : Token }
    if isOperator ch then .ok (token .operator, after)
    else if isPunct ch then .ok (token .punct, after)
    else .error (.fatal ("token inesperado `" ++ String.ofList [ch] ++ "` em " ++ cursor.place))

/-- The loop of `tokenize`, for at most `fuel` tokens. -/
def tokenizeFrom : ℕ → Cursor → Except LexFailure (List Token)
  | 0, _ => .error .outOfFuel
  | fuel + 1, cursor =>
      let start := skipWhitespace false cursor.rest cursor
      match start.rest with
      | [] => .ok [{ type := .eof, value := "", line := start.line, col := start.col }]
      | ch :: rest => do
          let (token, after) ← readToken ch rest start
          return token :: (← tokenizeFrom fuel after)

/-- `tokenize`. -/
def tokenize (source : List Char) : Except LexFailure (List Token) :=
  tokenizeFrom (source.length + 1) { rest := source, line := 1, col := 1 }

end Lexer

end GatoCore.Native
