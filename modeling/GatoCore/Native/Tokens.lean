import Mathlib.Data.List.Basic

/-!
# Tokens

Source: `makeToken` and its callers in `tokenize`, `compiler/ptjs_native.js`.
-/

namespace GatoCore.Native

/-- The `type` of a token. -/
inductive TokenType where
  | string
  | number
  | keyword
  | identifier
  | operator
  | punct
  | eof
deriving DecidableEq, Repr

/-- The text of the field, as messages show it. -/
def TokenType.text : TokenType → String
  | .string => "string"
  | .number => "number"
  | .keyword => "keyword"
  | .identifier => "identifier"
  | .operator => "operator"
  | .punct => "punct"
  | .eof => "eof"

structure Token where
  type : TokenType
  value : String
  line : ℕ
  col : ℕ
deriving DecidableEq, Repr

/-- The names every plain object answers to. -/
def objectPrototypeKeys : List String :=
  ["__proto__", "__defineGetter__", "__defineSetter__", "__lookupGetter__", "__lookupSetter__",
    "constructor", "hasOwnProperty", "isPrototypeOf", "propertyIsEnumerable", "toLocaleString",
    "toString", "valueOf"]

end GatoCore.Native
