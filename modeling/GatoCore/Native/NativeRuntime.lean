import Mathlib.Data.List.Basic
import GatoCore.Native.Exec

/-!
# The C runtime

Source: `runtime/native_runtime.c`.

A `const char *` is either the address of a constant or one of the static buffers of the runtime,
whose contents are part of its state; a list is the address of a constant descriptor and is
represented by what it describes. A word that is not zero is no address the runtime can read: a
call that would dereference one has no result. Texts are their bytes before the terminator.
-/

namespace GatoCore.Native

/-! ## Texts and output -/

abbrev Bytes := List UInt8

def bytesOf (s : String) : Bytes := s.toUTF8.toList

/-- The bytes a C function reads of a string constant: up to the first NUL. -/
def cString (s : String) : Bytes := (bytesOf s).takeWhile (· ≠ 0)

/-- A `const char *` that is not null. -/
inductive TextAddress where
  /-- A constant of the program or of the runtime. -/
  | rodata (bytes : Bytes)
  /-- `slots[i]` of `ptjs_string_char_at`. -/
  | slot (i : Fin 16)
  /-- `buffer[i]` of the `ptjs_identificar_*` function for a type. -/
  | buffer (type : RuntimeTy) (i : Fin 4)
deriving DecidableEq

inductive NativeValue where
  | word (w : Word)
  | text (address : TextAddress)
  | list (itemType : Ty) (items : List Const)

/-- The static variables of the runtime, and the standard output. -/
structure NativeWorld where
  stdout : Bytes
  slots : Fin 16 → Bytes
  nextSlot : Fin 16
  buffers : RuntimeTy → Fin 4 → Bytes
  nextBuffer : RuntimeTy → Fin 4

namespace NativeWorld

def initial : NativeWorld :=
  { stdout := [], slots := fun _ => [], nextSlot := 0, buffers := fun _ _ => []
    nextBuffer := fun _ => 0 }

def write (w : NativeWorld) (bytes : Bytes) : NativeWorld :=
  { w with stdout := w.stdout ++ bytes }

def read (w : NativeWorld) : TextAddress → Bytes
  | .rodata bytes => bytes
  | .slot i => w.slots i
  | .buffer type i => w.buffers type i

/-- Fill the next slot of `ptjs_string_char_at`. -/
def pushSlot (w : NativeWorld) (bytes : Bytes) : TextAddress × NativeWorld :=
  (.slot w.nextSlot,
    { w with slots := Function.update w.slots w.nextSlot bytes, nextSlot := w.nextSlot + 1 })

/-- Fill the next buffer of a `ptjs_identificar_*` function. -/
def pushBuffer (w : NativeWorld) (type : RuntimeTy) (bytes : Bytes) : TextAddress × NativeWorld :=
  (.buffer type (w.nextBuffer type),
    { w with
      buffers := Function.update w.buffers type
        (Function.update (w.buffers type) (w.nextBuffer type) bytes)
      nextBuffer := Function.update w.nextBuffer type (w.nextBuffer type + 1) })

end NativeWorld

/-! ## Formatting -/

/-- `printf("%lld")`. -/
def formatInt (w : Word) : Bytes := bytesOf (toString w.toInt)

def formatBool (w : Word) : Bytes := bytesOf (if w ≠ 0 then "true" else "false")

/-- The `switch` of `ptjs_write_escaped_quoted`. -/
def escapeByte (b : UInt8) : Bytes :=
  if b = 92 then [92, 92]
  else if b = 34 then [92, 34]
  else if b = 10 then [92, 110]
  else if b = 13 then [92, 114]
  else if b = 9 then [92, 116]
  else [b]

/-- `ptjs_write_escaped_quoted`. -/
def quoted (bytes : Bytes) : Bytes := 34 :: bytes.flatMap escapeByte ++ [34]

def separated (sep : Bytes) : List Bytes → Bytes
  | [] => []
  | [x] => x
  | x :: xs => x ++ sep ++ separated sep xs

mutual
/-- `ptjs_write_value_inline`; the tag of an item is that of its constant. -/
def valueInline : Const → Bytes
  | .imm .bool value => formatBool (BitVec.ofNat 64 value)
  | .imm .null _ => bytesOf "null"
  | .imm _ value => formatInt (BitVec.ofNat 64 value)
  | .text value => quoted (cString value)
  | .list _ items => bytesOf "[" ++ separated (bytesOf ", ") (valuesInline items) ++ bytesOf "]"

def valuesInline : List Const → List Bytes
  | [] => []
  | c :: cs => valueInline c :: valuesInline cs
end

/-- `ptjs_write_array_inline` of a descriptor. -/
def listInline (itemType : Ty) (items : List Const) : Bytes := valueInline (.list itemType items)

/-- `ptjs_hash_bytes`. -/
def hashBytes (bytes : Bytes) : BitVec 32 :=
  bytes.foldl (fun hash b => (hash ^^^ BitVec.ofNat 32 b.toNat) * 0x01000193) 0x811c9dc5

def hexDigit (n : ℕ) : UInt8 := UInt8.ofNat (if n < 10 then 48 + n else 87 + n)

/-- `printf("%08x")`. -/
def formatHash (hash : BitVec 32) : Bytes :=
  (List.range 8).map fun i => hexDigit (hash.toNat / 16 ^ (7 - i) % 16)

/-- `ptjs_tag_name` of the tag `arrayTagFromType` gives an item type. -/
def tagName : Ty → String
  | .i64 => "numero"
  | .str => "texto"
  | .bool => "booleano"
  | .null => "nulo"
  | .array _ => "lista"

/-! ## The functions -/

/-- A `const char *` argument: the text it points to, empty for a null pointer. -/
def NativeWorld.textArg (w : NativeWorld) : NativeValue → Option Bytes
  | .word v => if v = 0 then some [] else none
  | .text address => some (w.read address)
  | .list _ _ => none

/-- A `const ptjs_array_t *` argument: its items, none for a null pointer. -/
def listArg : NativeValue → Option (Option (Ty × List Const))
  | .word v => if v = 0 then some none else none
  | .text _ => none
  | .list itemType items => some (some (itemType, items))

def wordArg : NativeValue → Option Word
  | .word v => some v
  | _ => none

def nativeConst : Const → NativeValue
  | .imm _ value => .word (BitVec.ofNat 64 value)
  | .text value => .text (.rodata (cString value))
  | .list itemType items => .list itemType items

/-- What `ptjs_print_*` and `ptjs_observar_*` write for a value. -/
def NativeWorld.shown (w : NativeWorld) (type : RuntimeTy) (v : NativeValue) : Option Bytes :=
  match type with
  | .i64 => (wordArg v).map formatInt
  | .bool => (wordArg v).map formatBool
  | .null => some (bytesOf "null")
  | .str => (w.textArg v).map quoted
  | .array => (listArg v).map fun
      | none => bytesOf "null"
      | some (itemType, items) => listInline itemType items

/-- `ptjs_print_*`. -/
def nativePrint (type : RuntimeTy) (v : NativeValue) (w : NativeWorld) :
    Option (NativeValue × NativeWorld) := do
  let bytes ← w.shown type v
  return (.word 0, w.write (bytes ++ bytesOf "\n"))

def RuntimeTy.displayName : RuntimeTy → String
  | .i64 => "numero"
  | .bool => "booleano"
  | .null => "nulo"
  | .str => "texto"
  | .array => "lista"

/-- The value a `ptjs_observar_*` function returns. -/
def observed (type : RuntimeTy) (v : NativeValue) : Option NativeValue :=
  match type with
  | .bool => (wordArg v).map fun w => .word (wordOfBool (w ≠ 0))
  | .null => some (.word 0)
  | _ => some v

/-- `ptjs_observar_*`. -/
def nativeObservar (type : RuntimeTy) (v : NativeValue) (w : NativeWorld) :
    Option (NativeValue × NativeWorld) := do
  let bytes ← w.shown type v
  let result ← observed type v
  return (result, w.write
    (bytesOf ("[observar tipo=" ++ type.displayName ++ "] ") ++ bytes ++ bytesOf "\n"))

/-- The text a `ptjs_identificar_*` function formats; none of them reaches the buffer size. -/
def NativeWorld.identity (w : NativeWorld) (type : RuntimeTy) (v : NativeValue) : Option Bytes :=
  match type with
  | .i64 => (wordArg v).map fun a => bytesOf "numero:" ++ formatInt a
  | .bool => (wordArg v).map fun a => bytesOf "booleano:" ++ formatBool a
  | .null => some (bytesOf "nulo")
  | .str => (w.textArg v).map fun bytes =>
      bytesOf ("texto:" ++ toString bytes.length ++ ":") ++ formatHash (hashBytes bytes)
  | .array => (listArg v).map fun
      | none => bytesOf "lista:0:nulo"
      | some (itemType, items) =>
          bytesOf ("lista:" ++ toString items.length ++ ":" ++ tagName itemType)

/-- `ptjs_identificar_*`; that of a null value returns a constant. -/
def nativeIdentificar (type : RuntimeTy) (v : NativeValue) (w : NativeWorld) :
    Option (NativeValue × NativeWorld) := do
  let bytes ← w.identity type v
  if type = .null then
    return (.text (.rodata bytes), w)
  else
    let (address, w) := w.pushBuffer type bytes
    return (.text address, w)

/-- `ptjs_array_get_i64` and `ptjs_array_get_ptr`: the word at an index, zero out of range. -/
def nativeArrayGet (v i : NativeValue) : Option NativeValue := do
  let index ← wordArg i
  match ← listArg v with
  | none => return .word 0
  | some (_, items) =>
      if index.toInt < 0 then return .word 0
      else return ((items[index.toNat]?).map nativeConst).getD (.word 0)

/-- `ptjs_string_char_at`. -/
def nativeStringCharAt (v i : NativeValue) (w : NativeWorld) :
    Option (NativeValue × NativeWorld) := do
  let index ← wordArg i
  let bytes ← w.textArg v
  if index.toInt < 0 then
    return (.text (.rodata []), w)
  else
    match bytes[index.toNat]? with
    | none => return (.text (.rodata []), w)
    | some byte =>
        let (address, w) := w.pushSlot [byte]
        return (.text address, w)

def nativeCall : RuntimeFn → List NativeValue → NativeWorld → Option (NativeValue × NativeWorld)
  | .print type, [v], w => nativePrint type v w
  | .observar type, [v], w => nativeObservar type v w
  | .identificar type, [v], w => nativeIdentificar type v w
  | .strlen, [v], w => (w.textArg v).map fun bytes => (.word (BitVec.ofNat 64 bytes.length), w)
  | .arrayLen, [v], w => (listArg v).map fun
      | none => (.word 0, w)
      | some (_, items) => (.word (BitVec.ofNat 64 items.length), w)
  | .arrayGetI64, [v, i], w => (nativeArrayGet v i).map fun r => (r, w)
  | .arrayGetPtr, [v, i], w => (nativeArrayGet v i).map fun r => (r, w)
  | .stringCharAt, [v, i], w => nativeStringCharAt v i w
  | _, _, _ => none

/-- The runtime of `native_runtime.c`. -/
def nativeRuntime : Runtime where
  Value := NativeValue
  World := NativeWorld
  ofWord := .word
  toWord := wordArg
  toWord_ofWord := fun _ => rfl
  text := fun s => .text (.rodata (cString s))
  list := .list
  call := nativeCall

/-- What has been printed when a run is over. -/
def finalStdout {L : Type} : Config nativeRuntime L → Option Bytes
  | .finished _ w => some (NativeWorld.stdout w)
  | .running _ _ => none

end GatoCore.Native
