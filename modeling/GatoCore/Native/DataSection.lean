import Mathlib.Data.List.TakeWhile
import GatoCore.Lib.Word64
import GatoCore.Native.NativeRuntime
import GatoCore.Native.SimulateExpr

/-!
# The data sections

Source: `escapeAsmString`, `arrayTagFromType` and the data part of `renderAssembly`, and
`ptjs_array_len`, `ptjs_array_get_i64`, `ptjs_array_get_ptr`, `ptjs_write_array_inline` and
`ptjs_write_value_inline` of `runtime/native_runtime.c`.

The texts of a unit are laid out as bytes in `.rodata` and its lists as words in `.data.rel.ro`. An
address is a section and an offset in it, in bytes or in words of eight bytes; a word is an integer
or the address of a label. A C function that would read a word that is no address, or outside the
sections, has no result.
-/

namespace GatoCore.Native

open GatoCore.Lib

/-! ## Rendering -/

/-- `text.replace(/c/g, by)`. -/
def replaceAll (c : Char) (new : List Char) (text : List Char) : List Char :=
  text.flatMap fun d => if d = c then new else [d]

def escapeAsmString (value : String) : List Char :=
  let text := replaceAll '\\' ['\\', '\\'] value.toList
  let text := replaceAll '"' ['\\', '"'] text
  let text := replaceAll '\n' ['\\', 'n'] text
  let text := replaceAll '\r' ['\\', 'r'] text
  replaceAll '\t' ['\\', 't'] text

def arrayTagFromType : Ty → ℕ
  | .array _ => 5
  | .i64 => 1
  | .str => 2
  | .bool => 3
  | .null => 4

/-- A label of the data sections: that of a constant, or `.LARR_ITEMS_<i>`. -/
inductive DataName where
  | const (label : DataLabel)
  | items (index : ℕ)
deriving DecidableEq

/-- A line of the data sections. -/
inductive DataLine where
  | label (name : DataName)
  | asciz (text : List Char)
  | quad (value : ℕ)
  | quadLabel (name : DataName)
deriving DecidableEq

/-- The lines of a text. -/
def stringLines (value : String) (i : ℕ) : List DataLine :=
  [.label (.const (.str i)), .asciz (escapeAsmString value)]

def itemLine (item : ConstValue) : DataLine :=
  match item.value with
  | .imm value => .quad value
  | .label label => .quadLabel (.const label)

/-- The lines of a list. -/
def arrayLines (entry : ArrayConst) (i : ℕ) : List DataLine :=
  .label (.items i) :: entry.items.map itemLine ++
    [.label (.const (.arr i)), .quad entry.items.length, .quad (arrayTagFromType entry.itemType),
      .quadLabel (.items i)]

/-- The lines of the entries of a table; the first one has the position `i`. -/
def tableLines {α : Type} (entryLines : α → ℕ → List DataLine) : List α → ℕ → List DataLine
  | [], _ => []
  | entry :: entries, i => entryLines entry i ++ tableLines entryLines entries (i + 1)

def rodataLines (tables : ConstTables) : List DataLine := tableLines stringLines tables.stringList 0

def dataLines (tables : ConstTables) : List DataLine := tableLines arrayLines tables.arrayList 0

/-! ## Assembling -/

/-- The character an escape stands for; numeric escapes are not represented. -/
def asmEscape : Char → Option Char
  | 'b' => some '\x08'
  | 'f' => some '\x0c'
  | 'n' => some '\n'
  | 'r' => some '\r'
  | 't' => some '\t'
  | '"' => some '"'
  | '\\' => some '\\'
  | _ => none

/-- The characters of the operand of `.asciz`, after its opening quote. -/
def asmString : List Char → Option (List Char)
  | [] => none
  | ['"'] => some []
  | '"' :: _ => none
  | '\\' :: c :: text => do return (← asmEscape c) :: (← asmString text)
  | c :: text => do return c :: (← asmString text)

/-- The bytes of a line of `.rodata`. -/
def lineBytes : DataLine → Bytes
  | .asciz text =>
      (asmString (text ++ ['"'])).elim [] fun chars => bytesOf (String.ofList chars) ++ [0]
  | _ => []

/-- A word of `.data.rel.ro` before it is linked. -/
inductive DataWord where
  | int (value : Word)
  | label (name : DataName)

/-- The words of a line of `.data.rel.ro`. -/
def lineWords : DataLine → List DataWord
  | .quad value => [.int (BitVec.ofNat 64 value)]
  | .quadLabel name => [.label name]
  | _ => []

/-- Where a label stands in a section whose lines have the given cells. -/
def labelOffset {γ : Type} (cells : DataLine → List γ) (name : DataName) :
    List DataLine → Option ℕ
  | [] => none
  | line :: lines =>
      if line = .label name then some 0
      else (labelOffset cells name lines).map fun n => (cells line).length + n

/-- An address in one of the sections. -/
inductive Address where
  | rodata (offset : ℕ)
  | data (offset : ℕ)
deriving DecidableEq

/-- A machine word, with the addresses it may hold. -/
inductive MemWord where
  | int (value : Word)
  | address (address : Address)
deriving DecidableEq

/-- The sections of a linked program. -/
structure Image where
  bytes : Bytes
  words : List DataWord
  address : DataName → Option Address

def image (tables : ConstTables) : Image where
  bytes := (rodataLines tables).flatMap lineBytes
  words := (dataLines tables).flatMap lineWords
  address
    | .const (.str i) => (labelOffset lineBytes (.const (.str i)) (rodataLines tables)).map .rodata
    | name => (labelOffset lineWords name (dataLines tables)).map .data

namespace Image

variable (img : Image)

/-- The word at an address. -/
def word : Address → Option MemWord
  | .rodata _ => none
  | .data n =>
      match img.words[n]? with
      | none => none
      | some (.int value) => some (.int value)
      | some (.label name) => (img.address name).map .address

/-- The word `k` words after an address. -/
def wordAt (address : Address) (k : ℕ) : Option MemWord :=
  match address with
  | .rodata _ => none
  | .data n => img.word (.data (n + k))

/-- The text that starts at an address; it ends at a NUL. -/
def cText : Address → Option Bytes
  | .data _ => none
  | .rodata n =>
      if 0 ∈ img.bytes.drop n then some ((img.bytes.drop n).takeWhile (· ≠ 0)) else none

/-- The word of a constant. -/
def operand : ConstOperand → Option MemWord
  | .imm value => some (.int (BitVec.ofNat 64 value))
  | .label label => (img.address (.const label)).map .address

end Image

/-! ## The C runtime -/

def MemWord.asInt : MemWord → Option Word
  | .int value => some value
  | .address _ => none

def MemWord.asAddress : MemWord → Option Address
  | .int _ => none
  | .address a => some a

section Runtime

variable (img : Image)

/-- The fields of a `ptjs_array_t`. -/
structure ArrayFields where
  length : Word
  elementTag : Word
  items : Address

def readArray (a : Address) : Option ArrayFields := do
  let length ← (← img.wordAt a 0).asInt
  let elementTag ← (← img.wordAt a 1).asInt
  let items ← (← img.wordAt a 2).asAddress
  return { length, elementTag, items }

/-- A `const ptjs_array_t *`: its fields, none for a null pointer. -/
def arrayArg : MemWord → Option (Option ArrayFields)
  | .int value => if value = 0 then some none else none
  | .address a => (readArray img a).map some

def ptjsArrayLen (value : MemWord) : Option Word := do
  match ← arrayArg img value with
  | none => return 0
  | some fields => return fields.length

/-- `ptjs_array_get_i64` and `ptjs_array_get_ptr`. -/
def ptjsArrayGet (value : MemWord) (index : Word) : Option MemWord := do
  match ← arrayArg img value with
  | none => return .int 0
  | some fields =>
      if index.toInt < 0 ∨ index.toInt ≥ fields.length.toInt then return .int 0
      else img.wordAt fields.items index.toNat

/-- `ptjs_write_array_inline`, with what it calls to write an item. -/
def ptjsWriteArrayInline (writeValue : MemWord → Word → Option Bytes) (value : MemWord) :
    Option Bytes := do
  match ← arrayArg img value with
  | none => return bytesOf "null"
  | some fields =>
      let items ← (List.range fields.length.toInt.toNat).mapM fun index => do
        writeValue (← img.wordAt fields.items index) fields.elementTag
      return bytesOf "[" ++ separated (bytesOf ", ") items ++ bytesOf "]"

/-- `ptjs_write_value_inline`, for lists nested less than `fuel` deep. -/
def ptjsWriteValueInline : ℕ → MemWord → Word → Option Bytes
  | 0, _, _ => none
  | fuel + 1, raw, tag =>
      if tag = 1 then raw.asInt.map formatInt
      else if tag = 2 then
        match raw with
        | .int value => if value = 0 then some (quoted []) else none
        | .address a => (img.cText a).map quoted
      else if tag = 3 then
        match raw with
        | .int value => some (formatBool value)
        | .address _ => some (bytesOf "true")
      else if tag = 4 then some (bytesOf "null")
      else if tag = 5 then ptjsWriteArrayInline img (ptjsWriteValueInline fuel) raw
      else some (bytesOf "<desconhecido>")

/-- `value->element_tag`. -/
def elementTag (value : MemWord) : Option Word := do
  match ← arrayArg img value with
  | none => none
  | some fields => return fields.elementTag

end Runtime

/-! ## What a literal must be in memory -/

mutual
/-- The C runtime reads a literal from a word with a tag: every integer, truth value, text and item
in order, at every level. -/
def Represents (img : Image) : MemWord → Word → Expr → Prop
  | raw, tag, .number value => tag = 1 ∧ ∃ w, raw = .int w ∧ w.toInt = value
  | raw, tag, .string value => tag = 2 ∧ ∃ a, raw = .address a ∧ img.cText a = some (bytesOf value)
  | raw, tag, .bool value => tag = 3 ∧ raw = .int (wordOfBool value)
  | raw, tag, .null => tag = 4 ∧ raw = .int 0
  | raw, tag, .array items =>
      tag = 5 ∧ (ptjsArrayLen img raw).map BitVec.toInt = some (items.length : ℤ) ∧
        ∃ itemTag, elementTag img raw = some itemTag ∧ (items = [] → itemTag = 4) ∧
          RepresentsItems img raw itemTag 0 items
  | _, _, _ => False

/-- The items of a list from the position `i` on. -/
def RepresentsItems (img : Image) : MemWord → Word → ℕ → List Expr → Prop
  | _, _, _, [] => True
  | list, itemTag, i, e :: es =>
      (∃ raw, ptjsArrayGet img list (BitVec.ofNat 64 i) = some raw ∧ Represents img raw itemTag e) ∧
        RepresentsItems img list itemTag (i + 1) es
end

mutual
/-- A literal of integers below `2 ^ 53` and texts without a NUL; its lists are JavaScript
arrays. -/
def Expr.Fits : Expr → Prop
  | .number value => value < 2 ^ 53
  | .string value => 0 ∉ bytesOf value
  | .array items => items.length < 2 ^ 32 ∧ Expr.AllFit items
  | _ => True

def Expr.AllFit : List Expr → Prop
  | [] => True
  | e :: es => e.Fits ∧ Expr.AllFit es
end

/-- The constants of a unit grow by texts and literals. -/
inductive Interned : ConstTables → ConstTables → Prop where
  | refl (tables : ConstTables) : Interned tables tables
  | string {a b : ConstTables} (h : Interned a b) (value : String) :
      Interned a (internString b value).2
  | literal {a b c : ConstTables} (h : Interned a b) {e : Expr} {value : ConstValue}
      (hbuild : buildConstValue b e = .ok (value, c)) : Interned a c

theorem Interned.extends {a b : ConstTables} (h : Interned a b) : a.Extends b := by
  induction h with
  | refl => exact .refl _
  | string _ value ih => exact ih.trans (internString_extends _ value)
  | literal _ hbuild ih => exact ih.trans (buildConstValue_extends hbuild).1

/-! ## Texts -/

/-- What `escapeAsmString` makes of a character. -/
def escapeChar (c : Char) : List Char :=
  if c = '\\' then ['\\', '\\']
  else if c = '"' then ['\\', '"']
  else if c = '\n' then ['\\', 'n']
  else if c = '\r' then ['\\', 'r']
  else if c = '\t' then ['\\', 't']
  else [c]

theorem replaceAll_flatMap (c : Char) (new : List Char) (f : Char → List Char)
    (text : List Char) :
    replaceAll c new (text.flatMap f) = text.flatMap fun d => replaceAll c new (f d) :=
  List.flatMap_assoc

theorem escapeAsmString_eq (value : String) :
    escapeAsmString value = value.toList.flatMap escapeChar := by
  have hid : value.toList = value.toList.flatMap fun c => [c] := by simp
  unfold escapeAsmString
  rw [hid]
  simp only [replaceAll_flatMap]
  rw [← hid]
  refine List.flatMap_congr fun c _ => ?_
  unfold escapeChar
  -- a character one of the replacements takes, or none of them
  by_cases h1 : c = '\\'
  · subst h1; rfl
  by_cases h2 : c = '"'
  · subst h2; rfl
  by_cases h3 : c = '\n'
  · subst h3; rfl
  by_cases h4 : c = '\r'
  · subst h4; rfl
  by_cases h5 : c = '\t'
  · subst h5; rfl
  simp [replaceAll, h1, h2, h3, h4, h5]

theorem asmString_cons {c : Char} {text : List Char} (h1 : c ≠ '\\') (h2 : c ≠ '"') :
    asmString (c :: text) = (asmString text).map (c :: ·) := by
  rw [asmString]
  · cases asmString text <;> rfl
  all_goals grind

theorem asmString_escape_append {c d : Char} (h : asmEscape d = some c) (text : List Char) :
    asmString (['\\', d] ++ text) = (asmString text).map (c :: ·) := by
  rw [List.cons_append, List.singleton_append, asmString, h]
  cases asmString text <;> rfl

theorem asmString_escapeChar (c : Char) (text : List Char) :
    asmString (escapeChar c ++ text) = (asmString text).map (c :: ·) := by
  unfold escapeChar
  split
  · next h => exact asmString_escape_append (by rw [h]; rfl) text
  split
  · next h => exact asmString_escape_append (by rw [h]; rfl) text
  split
  · next h => exact asmString_escape_append (by rw [h]; rfl) text
  split
  · next h => exact asmString_escape_append (by rw [h]; rfl) text
  split
  · next h => exact asmString_escape_append (by rw [h]; rfl) text
  · next h1 h2 _ _ _ => exact asmString_cons h1 h2

/-- The assembler reads back the text that was escaped. -/
theorem asmString_escape (text : List Char) :
    asmString (text.flatMap escapeChar ++ ['"']) = some text := by
  induction text with
  | nil => rfl
  | cons c text ih =>
      rw [List.flatMap_cons, List.append_assoc, asmString_escapeChar, ih]
      rfl

theorem lineBytes_asciz (value : String) :
    lineBytes (.asciz (escapeAsmString value)) = bytesOf value ++ [0] := by
  rw [lineBytes, escapeAsmString_eq, asmString_escape, Option.elim_some, String.ofList_toList]

/-! ## Layout -/

section Layout

variable {γ α : Type}

/-- A label stands after the cells of the lines before it. -/
theorem labelOffset_append (cells : DataLine → List γ) {name : DataName} {pre : List DataLine}
    (hpre : .label name ∉ pre) (post : List DataLine) :
    labelOffset cells name (pre ++ .label name :: post) = some (pre.flatMap cells).length := by
  induction pre with
  | nil => simp [labelOffset]
  | cons line pre ih =>
      obtain ⟨hne, hpre⟩ := not_or.mp (List.mem_cons.not.mp hpre)
      rw [List.cons_append, labelOffset, if_neg fun h => hne h.symm, ih hpre]
      simp

/-- The lines of one entry of a table, and those around it. -/
theorem tableLines_split (entryLines : α → ℕ → List DataLine) {entries : List α} {i : ℕ}
    {entry : α} (h : entries[i]? = some entry) (k : ℕ) :
    tableLines entryLines entries k = tableLines entryLines (entries.take i) k ++
      (entryLines entry (k + i) ++ tableLines entryLines (entries.drop (i + 1)) (k + i + 1)) := by
  induction entries generalizing i k with
  | nil => cases h
  | cons e entries ih =>
      cases i with
      | zero =>
          cases h
          simp [tableLines]
      | succ i =>
          rw [List.getElem?_cons_succ] at h
          rw [tableLines, ih h (k + 1)]
          simp [tableLines, Nat.add_assoc, Nat.add_comm 1 i]

/-- The lines of the first entries have labels of the first positions only. -/
theorem not_mem_tableLines {entryLines : α → ℕ → List DataLine} {line : DataLine} {n : ℕ}
    (hne : ∀ entry j, j < n → line ∉ entryLines entry j) {entries : List α} {k : ℕ}
    (hlen : k + entries.length ≤ n) : line ∉ tableLines entryLines entries k := by
  induction entries generalizing k with
  | nil => simp [tableLines]
  | cons e entries ih =>
      rw [List.length_cons] at hlen
      rw [tableLines, List.mem_append, not_or]
      exact ⟨hne e k (by omega), ih (by omega)⟩

end Layout

/-- A text of the table stands at its label, with a NUL after it. -/
theorem image_string {tables : ConstTables} {i : ℕ} {value : String}
    (h : tables.stringList[i]? = some value) :
    ∃ n rest, (image tables).address (.const (.str i)) = some (.rodata n) ∧
      (image tables).bytes.drop n = bytesOf value ++ 0 :: rest := by
  have hlines := tableLines_split stringLines h 0
  have hpre : .label (.const (.str i)) ∉ tableLines stringLines (tables.stringList.take i) 0 := by
    refine not_mem_tableLines (n := i) (fun entry j hj => ?_) (by simp)
    simp [stringLines, hj.ne']
  refine ⟨((tableLines stringLines (tables.stringList.take i) 0).flatMap lineBytes).length,
    (tableLines stringLines (tables.stringList.drop (i + 1)) (0 + i + 1)).flatMap lineBytes, ?_, ?_⟩
  · simp only [image, rodataLines]
    rw [hlines, Nat.zero_add, stringLines, List.cons_append, labelOffset_append _ hpre]
    rfl
  · simp only [image, rodataLines]
    rw [hlines, List.flatMap_append, List.drop_left, List.flatMap_append, stringLines,
      List.flatMap_cons, List.flatMap_singleton, lineBytes_asciz]
    simp [lineBytes]

/-- The word of an item before it is linked. -/
def itemWord (item : ConstValue) : DataWord :=
  match item.value with
  | .imm value => .int (BitVec.ofNat 64 value)
  | .label label => .label (.const label)

theorem lineWords_itemLine (item : ConstValue) : lineWords (itemLine item) = [itemWord item] := by
  unfold itemLine itemWord
  cases item.value <;> rfl

/-- A list of the table stands at its label: its length, its tag and the label of its items. -/
theorem image_array {tables : ConstTables} {i : ℕ} {entry : ArrayConst}
    (h : tables.arrayList[i]? = some entry) :
    ∃ n m, (image tables).address (.const (.arr i)) = some (.data n) ∧
      (image tables).address (.items i) = some (.data m) ∧
      (image tables).words[n]? = some (.int (BitVec.ofNat 64 entry.items.length)) ∧
      (image tables).words[n + 1]? =
        some (.int (BitVec.ofNat 64 (arrayTagFromType entry.itemType))) ∧
      (image tables).words[n + 2]? = some (.label (.items i)) ∧
      ∀ j item, entry.items[j]? = some item →
        (image tables).words[m + j]? = some (itemWord item) := by
  have hlines := tableLines_split arrayLines h 0
  rw [Nat.zero_add] at hlines
  have hnotItem : ∀ {name : DataName} {items : List ConstValue},
      .label name ∉ items.map itemLine := by
    intro name items hmem
    obtain ⟨item, -, heq⟩ := List.mem_map.mp hmem
    unfold itemLine at heq
    split at heq <;> cases heq
  have hpre : ∀ name, name = .items i ∨ name = .const (.arr i) →
      .label name ∉ tableLines arrayLines (tables.arrayList.take i) 0 := by
    intro name hname
    refine not_mem_tableLines (n := i) (fun entry j hj => ?_) (by simp)
    have hi : i ≠ j := hj.ne'
    rcases hname with rfl | rfl <;> simp [arrayLines, hnotItem, hi]
  generalize hP : tableLines arrayLines (tables.arrayList.take i) 0 = before at hlines hpre
  generalize hS : tableLines arrayLines (tables.arrayList.drop (i + 1)) (i + 1) = rest at hlines
  have hitems : (entry.items.map itemLine).flatMap lineWords = entry.items.map itemWord := by
    rw [List.flatMap_map, List.map_eq_flatMap]
    exact List.flatMap_congr fun item _ => lineWords_itemLine item
  have hwords : (image tables).words = before.flatMap lineWords ++ (entry.items.map itemWord ++
      ([DataWord.int (BitVec.ofNat 64 entry.items.length),
        .int (BitVec.ofNat 64 (arrayTagFromType entry.itemType)), .label (.items i)] ++
        rest.flatMap lineWords)) := by
    simp only [image, dataLines]
    rw [hlines]
    simp [arrayLines, hitems, lineWords]
  refine ⟨(before.flatMap lineWords).length + entry.items.length,
    (before.flatMap lineWords).length, ?_, ?_, ?_, ?_, ?_, ?_⟩
  · -- the items stand between the two labels
    have hsplit : tableLines arrayLines tables.arrayList 0 =
        (before ++ DataLine.label (.items i) :: entry.items.map itemLine) ++
          DataLine.label (.const (.arr i)) ::
            ([DataLine.quad entry.items.length, .quad (arrayTagFromType entry.itemType),
            .quadLabel (.items i)] ++ rest) := by
      rw [hlines]
      simp [arrayLines]
    have hnot : .label (.const (.arr i)) ∉
        before ++ DataLine.label (.items i) :: entry.items.map itemLine := by
      simp [hpre, hnotItem]
    simp only [image, dataLines]
    rw [hsplit, labelOffset_append _ hnot]
    simp [lineWords, hitems]
  · have hsplit : tableLines arrayLines tables.arrayList 0 = before ++ DataLine.label (.items i) ::
        (entry.items.map itemLine ++ ([DataLine.label (.const (.arr i)), .quad entry.items.length,
          .quad (arrayTagFromType entry.itemType), .quadLabel (.items i)] ++ rest)) := by
      rw [hlines]
      simp [arrayLines]
    simp only [image, dataLines]
    rw [hsplit, labelOffset_append _ (hpre _ (.inl rfl))]
    rfl
  · rw [hwords, List.getElem?_append_right (by omega), List.getElem?_append_right (by simp)]
    simp
  · rw [hwords, List.getElem?_append_right (by omega), List.getElem?_append_right (by simp; omega)]
    simp [Nat.add_assoc]
  · rw [hwords, List.getElem?_append_right (by omega), List.getElem?_append_right (by simp; omega)]
    simp [Nat.add_assoc]
  · intro j item hj
    have hlt := (List.getElem?_eq_some_iff.mp hj).1
    rw [hwords, List.getElem?_append_right (by omega), List.getElem?_append_left (by simp; omega)]
    simp [hj]

/-! ## Reading -/

theorem cText_image {tables : ConstTables} {i : ℕ} {value : String}
    (h : tables.stringList[i]? = some value) (hnul : 0 ∉ bytesOf value) :
    ∃ a, (image tables).address (.const (.str i)) = some a ∧
      (image tables).cText a = some (bytesOf value) := by
  obtain ⟨n, rest, haddress, hbytes⟩ := image_string h
  have hpos : ∀ b ∈ bytesOf value, decide (b ≠ 0) = true :=
    fun b hb => decide_eq_true fun heq => hnul (heq ▸ hb)
  refine ⟨.rodata n, haddress, ?_⟩
  rw [Image.cText, hbytes, if_pos (by simp), List.takeWhile_append_of_pos hpos]
  simp

/-- The fields of a list of the table, and the words of its items. -/
theorem readArray_image {tables : ConstTables} {i : ℕ} {entry : ArrayConst}
    (h : tables.arrayList[i]? = some entry) :
    ∃ a items, (image tables).address (.const (.arr i)) = some a ∧
      readArray (image tables) a = some ⟨BitVec.ofNat 64 entry.items.length,
        BitVec.ofNat 64 (arrayTagFromType entry.itemType), items⟩ ∧
      ∀ j item, entry.items[j]? = some item →
        (image tables).wordAt items j = (image tables).operand item.value := by
  obtain ⟨n, m, harr, hitems, hlen, htag, hlabel, hwords⟩ := image_array h
  refine ⟨.data n, .data m, harr, ?_, fun j item hj => ?_⟩
  · simp [readArray, Image.wordAt, Image.word, hlen, htag, hlabel, hitems, MemWord.asInt,
      MemWord.asAddress]
  · rw [Image.wordAt, Image.word, hwords j item hj]
    unfold itemWord Image.operand
    cases item.value <;> rfl

theorem ptjsArrayGet_of_readArray {img : Image} {a items : Address} {tag : Word} {len j : ℕ}
    (h : readArray img a = some ⟨BitVec.ofNat 64 len, tag, items⟩) (hlen : len < 2 ^ 32)
    (hj : j < len) : ptjsArrayGet img (.address a) (BitVec.ofNat 64 j) = img.wordAt items j := by
  have hidx : (BitVec.ofNat 64 j).toInt = j := toInt_ofNat_of_lt (by omega)
  have hbound : (BitVec.ofNat 64 len).toInt = len := toInt_ofNat_of_lt (by omega)
  have hnat : (BitVec.ofNat 64 j).toNat = j := Nat.mod_eq_of_lt (by omega)
  have hin : ¬ ((BitVec.ofNat 64 j).toInt < 0 ∨
      (BitVec.ofNat 64 j).toInt ≥ (BitVec.ofNat 64 len).toInt) := by
    rw [hidx, hbound]
    omega
  simp only [ptjsArrayGet, arrayArg, h, Option.map_some, Option.bind_eq_bind, Option.bind_some]
  rw [if_neg hin, hnat]

/-! ## Literals in memory -/

theorem RepresentsItems.of_forall {img : Image} {list : MemWord} {tag : Word} :
    ∀ {items : List Expr} {i : ℕ},
      (∀ j e, items[j]? = some e →
        ∃ raw, ptjsArrayGet img list (BitVec.ofNat 64 (i + j)) = some raw ∧
          Represents img raw tag e) →
      RepresentsItems img list tag i items
  | [], _, _ => trivial
  | e :: items, i, h => by
      refine ⟨h 0 e rfl, RepresentsItems.of_forall fun j e' hj => ?_⟩
      have := h (j + 1) e' hj
      rwa [Nat.add_comm j 1, ← Nat.add_assoc] at this

mutual
/-- A literal the compiler accepts is in memory as it was written. -/
theorem represents_of_build (tables : ConstTables) :
    ∀ {e : Expr} {consts consts' : ConstTables} {c : ConstValue},
      buildConstValue consts e = .ok (c, consts') → consts'.Extends tables → e.Fits →
      ∃ raw, (image tables).operand c.value = some raw ∧
        Represents (image tables) raw (BitVec.ofNat 64 (arrayTagFromType c.type)) e
  | .number value, _, _, _, h, _, hfits => by
      cases h
      have hlt : value < 2 ^ 53 := hfits
      exact ⟨_, rfl, rfl, _, rfl, toInt_ofNat_of_lt (by omega)⟩
  | .bool value, _, _, _, h, _, _ => by
      cases h
      refine ⟨_, rfl, rfl, ?_⟩
      cases value <;> rfl
  | .null, _, _, _, h, _, _ => by
      cases h
      exact ⟨_, rfl, rfl, rfl⟩
  | .string value, consts, _, _, h, hext, hfits => by
      obtain ⟨rfl, rfl⟩ := buildConstValue_string h
      -- an interned text keeps its entry in every larger table
      obtain ⟨i, hi, hget⟩ := internString_entry consts value
      obtain ⟨a, haddress, htext⟩ := cText_image (getElem?_extend hext.strings hget) hfits
      refine ⟨.address a, ?_, rfl, a, rfl, htext⟩
      rw [hi, Image.operand, haddress]
      rfl
  | .array items, consts, _, _, h, hext, hfits => by
      obtain ⟨values, itemType, consts₁, hitems, rfl, rfl⟩ := buildConstValue_array h
      obtain ⟨i, hi, hget⟩ := internArray_entry consts₁ values (itemType.getD .null)
      have htyped := (buildConstItems_extends hitems).2
      obtain ⟨hlen, -, hnil, hvalues⟩ := represents_of_buildItems tables hitems
        ((internArray_extends _ htyped).trans hext) hfits.2
      obtain ⟨a, list, haddress, hread, hwords⟩ :=
        readArray_image (getElem?_extend hext.arrays hget)
      have hshort : values.length < 2 ^ 32 := hlen ▸ hfits.1
      refine ⟨.address a, ?_, rfl, ?_, BitVec.ofNat 64 (arrayTagFromType (itemType.getD .null)), ?_,
        ?_, ?_⟩
      · rw [hi, Image.operand, haddress]
        rfl
      · simp only [ptjsArrayLen, arrayArg, hread, Option.map_some, Option.bind_eq_bind,
          Option.bind_some]
        exact congrArg some ((toInt_ofNat_of_lt (by omega)).trans (by rw [hlen]))
      · simp [elementTag, arrayArg, hread]
      · intro hempty
        rw [hnil hempty]
        rfl
      · refine RepresentsItems.of_forall fun j e hj => ?_
        have hlt : j < values.length := hlen ▸ (List.getElem?_eq_some_iff.mp hj).1
        obtain ⟨c, hc, htype, raw, hraw, hrep⟩ := hvalues j e hj
        refine ⟨raw, ?_, ?_⟩
        · rw [Nat.zero_add, ptjsArrayGet_of_readArray hread hshort hlt, hwords j c hc, hraw]
        · rw [htype]
          exact hrep
  | .identifier _, _, _, _, h, _, _ => by cases h
  | .unary _ _, _, _, _, h, _, _ => by cases h
  | .binary _ _ _, _, _, _, h, _, _ => by cases h
  | .call _ _, _, _, _, h, _, _ => by cases h

theorem represents_of_buildItems (tables : ConstTables) :
    ∀ {items : List Expr} {consts consts' : ConstTables} {itemType itemType' : Option Ty}
      {values : List ConstValue},
      buildConstItems consts itemType items = .ok (values, itemType', consts') →
      consts'.Extends tables → Expr.AllFit items →
      values.length = items.length ∧
        (∀ type, itemType = some type → itemType' = some type) ∧
        (items = [] → itemType' = itemType) ∧
        ∀ (j : ℕ) (e : Expr), items[j]? = some e → ∃ c, values[j]? = some c ∧
          itemType'.getD .null = c.type ∧
          ∃ raw, (image tables).operand c.value = some raw ∧
            Represents (image tables) raw (BitVec.ofNat 64 (arrayTagFromType c.type)) e
  | [], _, _, _, _, _, h, _, _ => by
      cases h
      exact ⟨rfl, fun _ => id, fun _ => rfl, by simp⟩
  | item :: items, consts, consts', itemType, itemType', values, h, hext, hfits => by
      obtain ⟨c, consts₁, cs, hc, hty, hcs, rfl⟩ := buildConstItems_cons h
      obtain ⟨raw, hraw, hrep⟩ := represents_of_build tables hc
        ((buildConstItems_extends hcs).1.trans hext) hfits.1
      obtain ⟨hlen, hkeep, -, hrest⟩ := represents_of_buildItems tables hcs hext hfits.2
      have hitem : itemType' = some c.type := hkeep c.type rfl
      refine ⟨by simp [hlen], ?_, by simp, fun j e hj => ?_⟩
      · intro type htype
        rcases hty with hnone | hsome
        · rw [hnone] at htype
          cases htype
        · rw [hitem, ← hsome, htype]
      · cases j with
        | zero =>
            cases hj
            exact ⟨c, rfl, by rw [hitem, Option.getD_some], raw, hraw, hrep⟩
        | succ j => exact hrest j e hj
end

/-! ## Printing -/

theorem mapM_range {β : Type} {f : ℕ → Option β} {ys : List β}
    (h : ∀ (j : ℕ) (y : β), ys[j]? = some y → f j = some y) :
    (List.range ys.length).mapM f = some ys := by
  induction ys using List.reverseRecOn with
  | nil => rfl
  | append_singleton ys y ih =>
      have hinit : (List.range ys.length).mapM f = some ys := ih fun j z hz => h j z (by
        rw [List.getElem?_append_left (List.getElem?_eq_some_iff.mp hz).1]
        exact hz)
      have hlast : f ys.length = some y := h _ y (by simp)
      rw [List.length_append, List.length_singleton, List.range_succ, List.mapM_append, hinit]
      simp [hlast]

theorem length_valuesInline : ∀ ks : List Const, (valuesInline ks).length = ks.length
  | [] => rfl
  | _ :: ks => by rw [valuesInline, List.length_cons, List.length_cons, length_valuesInline ks]

theorem length_of_consts? : ∀ {items : List Expr} {ks : List Const},
    Expr.consts? items = some ks → ks.length = items.length
  | [], ks, h => by cases h; rfl
  | item :: items, ks, h => by
      rw [Expr.consts?] at h
      obtain ⟨c, -, h⟩ := Option.bind_eq_some_iff.mp h
      obtain ⟨cs, hcs, h⟩ := Option.bind_eq_some_iff.mp h
      cases h
      rw [List.length_cons, List.length_cons, length_of_consts? hcs]

theorem const?_array {items : List Expr} {k : Const} (h : (Expr.array items).const? = some k) :
    ∃ type ks, Expr.consts? items = some ks ∧ k = .list type ks := by
  rw [Expr.const?] at h
  obtain ⟨ks, hks, h⟩ := Option.bind_eq_some_iff.mp h
  cases ks with
  | nil =>
      cases h
      exact ⟨_, [], hks, rfl⟩
  | cons c cs =>
      simp only at h
      split at h
      · cases h
        exact ⟨_, c :: cs, hks, rfl⟩
      · cases h

theorem fields_of_elementTag {img : Image} {raw : MemWord} {tag : Word}
    (h : elementTag img raw = some tag) :
    ∃ fields, arrayArg img raw = some (some fields) ∧ fields.elementTag = tag := by
  obtain ⟨fields, hfields, h⟩ := Option.bind_eq_some_iff.mp h
  cases fields with
  | none => cases h
  | some fields =>
      cases h
      exact ⟨fields, hfields, rfl⟩

theorem ptjsWriteValueInline_list (img : Image) (fuel : ℕ) (raw : MemWord) :
    ptjsWriteValueInline img (fuel + 1) raw 5 =
      ptjsWriteArrayInline img (ptjsWriteValueInline img fuel) raw := by
  cases raw <;> rfl

theorem cString_of_not_mem {value : String} (h : 0 ∉ bytesOf value) :
    cString value = bytesOf value := by
  apply List.takeWhile_eq_self_iff.mpr
  intro b hb
  exact decide_eq_true fun heq => h (heq ▸ hb)

mutual
/-- A literal in memory prints as the constant it stands for, whatever its depth. -/
theorem write_of_represents {img : Image} :
    ∀ {e : Expr} {raw : MemWord} {tag : Word} {k : Const}, Represents img raw tag e →
      e.const? = some k → e.Fits →
      ∃ n, ∀ fuel, n ≤ fuel → ptjsWriteValueInline img fuel raw tag = some (valueInline k)
  | .number value, _, _, _, ⟨rfl, w, rfl, hw⟩, hk, hfits => by
      cases hk
      have hlt : value < 2 ^ 53 := hfits
      refine ⟨1, fun fuel hfuel => ?_⟩
      obtain ⟨fuel, rfl⟩ := Nat.exists_eq_add_of_le' hfuel
      rw [ptjsWriteValueInline, if_pos rfl, MemWord.asInt, Option.map_some, valueInline, formatInt,
        formatInt, hw, toInt_ofNat_of_lt (by omega)]
      all_goals nofun
  | .string value, _, _, _, ⟨rfl, a, rfl, ha⟩, hk, hfits => by
      cases hk
      refine ⟨1, fun fuel hfuel => ?_⟩
      obtain ⟨fuel, rfl⟩ := Nat.exists_eq_add_of_le' hfuel
      rw [ptjsWriteValueInline, if_neg (by decide), if_pos rfl, ha, valueInline,
        cString_of_not_mem hfits]
      rfl
  | .bool value, _, _, _, ⟨rfl, rfl⟩, hk, _ => by
      cases hk
      refine ⟨1, fun fuel hfuel => ?_⟩
      obtain ⟨fuel, rfl⟩ := Nat.exists_eq_add_of_le' hfuel
      rw [ptjsWriteValueInline, if_neg (by decide), if_neg (by decide), if_pos rfl]
      cases value <;> rfl
  | .null, _, _, _, ⟨rfl, rfl⟩, hk, _ => by
      cases hk
      refine ⟨1, fun fuel hfuel => ?_⟩
      obtain ⟨fuel, rfl⟩ := Nat.exists_eq_add_of_le' hfuel
      rw [ptjsWriteValueInline, if_neg (by decide), if_neg (by decide), if_neg (by decide),
        if_pos rfl]
      rfl
  | .array items, raw, _, k, ⟨rfl, hlen, itemTag, htag, _, hitems⟩, hk, hfits => by
      obtain ⟨type, ks, hks, rfl⟩ := const?_array hk
      obtain ⟨fields, harg, rfl⟩ := fields_of_elementTag htag
      obtain ⟨n, hn⟩ := write_of_representsItems hitems hks hfits.2
      have hlength : fields.length.toInt = (items.length : ℤ) := by
        simpa [ptjsArrayLen, harg] using hlen
      refine ⟨n + 1, fun fuel hfuel => ?_⟩
      obtain ⟨fuel, rfl⟩ : ∃ m, fuel = m + 1 := ⟨fuel - 1, by omega⟩
      -- the reader takes one item after the other, as many as the length word says
      have hcount : fields.length.toInt.toNat = (valuesInline ks).length := by
        rw [hlength, length_valuesInline, length_of_consts? hks]
        rfl
      have hparts : (List.range (valuesInline ks).length).mapM (fun index => do
          ptjsWriteValueInline img fuel (← img.wordAt fields.items index) fields.elementTag) =
            some (valuesInline ks) := by
        refine mapM_range fun j y hj => ?_
        obtain ⟨raw', hget, hwrite⟩ := hn fuel (by omega) j y hj
        have hlt : j < items.length := by
          rw [← length_of_consts? hks, ← length_valuesInline]
          exact (List.getElem?_eq_some_iff.mp hj).1
        have hshort := hfits.1
        have hidx : (BitVec.ofNat 64 j).toInt = j := toInt_ofNat_of_lt (by omega)
        have hnat : (BitVec.ofNat 64 j).toNat = j := Nat.mod_eq_of_lt (by omega)
        have hin : ¬ ((BitVec.ofNat 64 j).toInt < 0 ∨
            (BitVec.ofNat 64 j).toInt ≥ fields.length.toInt) := by
          rw [hidx, hlength]
          omega
        simp only [ptjsArrayGet, harg, Option.bind_eq_bind, Option.bind_some, Nat.zero_add] at hget
        rw [if_neg hin, hnat] at hget
        simp [hget, hwrite]
      rw [ptjsWriteValueInline_list]
      simp only [ptjsWriteArrayInline, harg, Option.bind_eq_bind, Option.bind_some, hcount]
      simp only [Option.bind_eq_bind] at hparts
      rw [hparts]
      rfl
  | .identifier _, _, _, _, h, _, _ => h.elim
  | .unary _ _, _, _, _, h, _, _ => h.elim
  | .binary _ _ _, _, _, _, h, _, _ => h.elim
  | .call _ _, _, _, _, h, _, _ => h.elim

theorem write_of_representsItems {img : Image} :
    ∀ {items : List Expr} {list : MemWord} {tag : Word} {i : ℕ} {ks : List Const},
      RepresentsItems img list tag i items → Expr.consts? items = some ks → Expr.AllFit items →
      ∃ n, ∀ fuel, n ≤ fuel → ∀ (j : ℕ) (y : Bytes), (valuesInline ks)[j]? = some y →
        ∃ raw, ptjsArrayGet img list (BitVec.ofNat 64 (i + j)) = some raw ∧
          ptjsWriteValueInline img fuel raw tag = some y
  | [], _, _, _, _, _, hks, _ => by
      cases hks
      exact ⟨0, fun _ _ j y hj => by simp [valuesInline] at hj⟩
  | e :: items, list, tag, i, ks, ⟨⟨raw, hget, hrep⟩, hitems⟩, hks, hfits => by
      rw [Expr.consts?] at hks
      obtain ⟨k, hk, hrest⟩ := Option.bind_eq_some_iff.mp hks
      obtain ⟨ks', hks', h⟩ := Option.bind_eq_some_iff.mp hrest
      cases h
      obtain ⟨n, hn⟩ := write_of_represents hrep hk hfits.1
      obtain ⟨m, hm⟩ := write_of_representsItems hitems hks' hfits.2
      refine ⟨max n m, fun fuel hfuel j y hj => ?_⟩
      rw [valuesInline] at hj
      cases j with
      | zero =>
          cases hj
          exact ⟨raw, hget, hn fuel (by omega)⟩
      | succ j =>
          rw [List.getElem?_cons_succ] at hj
          obtain ⟨raw', hget', hwrite⟩ := hm fuel (by omega) j y hj
          rw [Nat.add_assoc, Nat.add_comm 1 j] at hget'
          exact ⟨raw', hget', hwrite⟩
end

/-! ## Sharing -/

mutual
/-- Literals that stand for the same constant are equal. -/
theorem const?_injective : ∀ {e e' : Expr} {k : Const},
    e.const? = some k → e'.const? = some k → e = e'
  | .number _, e', _, h, h' => by
      cases h
      cases e' with
      | number _ => cases h'; rfl
      | array items =>
          obtain ⟨_, _, _, hk⟩ := const?_array h'
          cases hk
      | _ => cases h'
  | .string _, e', _, h, h' => by
      cases h
      cases e' with
      | string _ => cases h'; rfl
      | array items =>
          obtain ⟨_, _, _, hk⟩ := const?_array h'
          cases hk
      | _ => cases h'
  | .bool b, e', _, h, h' => by
      cases h
      cases e' with
      | bool b' => cases b <;> cases b' <;> first | rfl | cases h'
      | array items =>
          obtain ⟨_, _, _, hk⟩ := const?_array h'
          cases hk
      | _ => cases h'
  | .null, e', _, h, h' => by
      cases h
      cases e' with
      | null => rfl
      | array items =>
          obtain ⟨_, _, _, hk⟩ := const?_array h'
          cases hk
      | _ => cases h'
  | .array items, e', _, h, h' => by
      obtain ⟨type, ks, hks, rfl⟩ := const?_array h
      cases e' with
      | array items' =>
          obtain ⟨type', ks', hks', hk⟩ := const?_array h'
          cases hk
          rw [consts?_injective hks hks']
      | _ => cases h'
  | .identifier _, _, _, h, _ => by cases h
  | .unary _ _, _, _, h, _ => by cases h
  | .binary _ _ _, _, _, h, _ => by cases h
  | .call _ _, _, _, h, _ => by cases h

theorem consts?_injective : ∀ {es es' : List Expr} {ks : List Const},
    Expr.consts? es = some ks → Expr.consts? es' = some ks → es = es'
  | [], es', ks, h, h' => by
      cases h
      have := length_of_consts? h'
      exact (List.length_eq_zero_iff.mp this.symm).symm
  | e :: es, es', ks, h, h' => by
      rw [Expr.consts?] at h
      obtain ⟨k, hk, h⟩ := Option.bind_eq_some_iff.mp h
      obtain ⟨ks, hks, h⟩ := Option.bind_eq_some_iff.mp h
      cases h
      cases es' with
      | nil => cases h'
      | cons e' es' =>
          rw [Expr.consts?] at h'
          obtain ⟨k', hk', h'⟩ := Option.bind_eq_some_iff.mp h'
          obtain ⟨ks', hks', h'⟩ := Option.bind_eq_some_iff.mp h'
          cases h'
          rw [const?_injective hk hk', consts?_injective hks hks']
end

theorem resolve_label (tables : ConstTables) (n : ℕ) (type type' : Ty) (label : DataLabel) :
    tables.resolve n ⟨type, .label label⟩ = tables.resolve n ⟨type', .label label⟩ := by
  cases label with
  | str i => rw [ConstTables.resolve, ConstTables.resolve]
  | arr i => cases n <;> rw [ConstTables.resolve, ConstTables.resolve]

/-- Two list literals of a unit have the same label only if they are equal. -/
theorem eq_of_value_eq {before after before' after' : ConstTables} {items items' : List Expr}
    {c c' : ConstValue} (hranked : before.Ranked)
    (h : buildConstValue before (.array items) = .ok (c, after)) (hlater : Interned after before')
    (h' : buildConstValue before' (.array items') = .ok (c', after'))
    (hvalue : c'.value = c.value) :
    items' = items := by
  have hext : after.Extends after' := hlater.extends.trans (buildConstValue_extends h').1
  have hranked' : after'.Ranked := hext.ranked ((buildConstValue_extends h).1.ranked hranked)
  obtain ⟨k, hk, -, hres⟩ := buildConstValue_resolves hranked' h hext
  obtain ⟨k', hk', -, hres'⟩ := buildConstValue_resolves hranked' h' (.refl _)
  obtain ⟨values, itemType, consts₁, -, rfl, -⟩ := buildConstValue_array h
  obtain ⟨values', itemType', consts₁', -, rfl, -⟩ := buildConstValue_array h'
  simp only at hvalue
  rw [hvalue, resolve_label _ _ _ (.array (itemType.getD .null)), hres] at hres'
  cases hres'
  cases const?_injective hk' hk
  rfl

theorem ranked_empty : ConstTables.Ranked ⟨[], []⟩ := by
  intro i entry h
  cases h

/-- **Constant lists decode to what was written.** Whatever else a unit interns before and after a
list literal, the C runtime reads the literal from the data sections, item by item and at every
level, and prints it; and another literal has its label only if it is the same. -/
theorem constant_lists_decode {before after tables : ConstTables} {items : List Expr}
    {c : ConstValue} (hbefore : Interned ⟨[], []⟩ before)
    (h : buildConstValue before (.array items) = .ok (c, after)) (hafter : Interned after tables)
    (hfits : (Expr.array items).Fits) :
    (∃ raw k, (image tables).operand c.value = some raw ∧
      Represents (image tables) raw 5 (.array items) ∧ (Expr.array items).const? = some k ∧
      ∃ n, ∀ fuel, n ≤ fuel →
        ptjsWriteArrayInline (image tables) (ptjsWriteValueInline (image tables) fuel) raw =
          some (valueInline k)) ∧
      ∀ items' before' after' c', Interned after before' →
        buildConstValue before' (.array items') = .ok (c', after') → c'.value = c.value →
        items' = items := by
  have hranked : before.Ranked := hbefore.extends.ranked ranked_empty
  constructor
  · obtain ⟨raw, hraw, hrep⟩ := represents_of_build tables h hafter.extends hfits
    obtain ⟨values, itemType, consts₁, -, rfl, -⟩ := buildConstValue_array h
    have hranked' := hafter.extends.ranked ((buildConstValue_extends h).1.ranked hranked)
    obtain ⟨k, hk, -, -⟩ := buildConstValue_resolves hranked' h hafter.extends
    obtain ⟨n, hn⟩ := write_of_represents hrep hk hfits
    refine ⟨raw, k, hraw, hrep, hk, n, fun fuel hfuel => ?_⟩
    rw [← ptjsWriteValueInline_list]
    exact hn (fuel + 1) (by omega)
  · intro items' before' after' c' hlater h' hvalue
    exact eq_of_value_eq hranked h hlater h' hvalue

/-- `[[7], [8, 9]]`. -/
def nestedList : List Expr := [.array [.number 7], .array [.number 8, .number 9]]

theorem constant_lists_decode_nested :
    ∃ c after, buildConstValue ⟨[], []⟩ (.array nestedList) = .ok (c, after) ∧
      ∃ raw, (image after).operand c.value = some raw ∧
        Represents (image after) raw 5 (.array nestedList) := by
  refine ⟨_, _, rfl, ?_⟩
  obtain ⟨⟨raw, k, hraw, hrep, -⟩, -⟩ := constant_lists_decode (.refl _) rfl (.refl _)
    (show (Expr.array nestedList).Fits by simp [nestedList, Expr.Fits, Expr.AllFit])
  exact ⟨raw, hraw, hrep⟩

end GatoCore.Native
