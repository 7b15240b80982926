import GatoCore.Lib.Utf8
import GatoCore.Native.DataSection
import GatoCore.Native.Peephole
import GatoCore.Native.Words

/-!
# Texts on their way through the compiler

Source: the `.rodata` part of `renderAssembly`, `applyPeephole`, `ptjs_print_str` of
`runtime/native_runtime.c` and `readString`.

A text is escaped for the assembler and, when it is printed, for the reader. Both ways escape the
same five characters, and the tokenizer and the assembler undo both alike.
-/

namespace GatoCore.Native

open Lexer Peephole GatoCore.Lib

/-! ## In the assembly -/

def ascizPrefix : List Char := "  .asciz \"".toList

/-- The line of a text in `.rodata`. -/
def ascizLine (value : String) : List Char := ascizPrefix ++ escapeAsmString value ++ ['"']

/-- What the assembler makes of a line of `.rodata`: the bytes of a text or a label. -/
def rodataItem (line : List Char) : Option (List Char ⊕ Bytes) :=
  if ascizPrefix <+: line then
    (asmString (line.drop ascizPrefix.length)).map fun chars =>
      .inr (bytesOf (String.ofList chars) ++ [0])
  else if line.head? = some '.' ∧ line.getLast? = some ':' then some (.inl line.dropLast)
  else none

/-- The labels and texts of an assembly, in their order. -/
def rodataItems (assembly : List Char) : List (List Char ⊕ Bytes) :=
  (assembly.splitOn '\n').filterMap rodataItem

/-! ## The property -/

/-- What is printed for a text and what is assembled for it stand for that text. -/
structure TextKept (value : String) : Prop where
  assembled : rodataItem (ascizLine value) = some (.inr (bytesOf value ++ [0]))
  /-- The text stays where it stands among the labels and the other texts. -/
  optimized : ∀ before after : List (List Char), (∀ line ∈ before ++ after, '\n' ∉ line) →
    rodataItems (applyPeephole (['\n'].intercalate (before ++ ascizLine value :: after))) =
      before.filterMap rodataItem ++ .inr (bytesOf value ++ [0]) :: after.filterMap rodataItem
  /-- The printed line is read as one token. -/
  printed : ∀ w : NativeWorld, ∃ (line : String) (stop : Cursor),
    nativePrint .str (nativeConst (.text value)) w = some (.word 0, w.write (bytesOf line)) ∧
      tokenize line.toList = .ok
        [{ type := .string, value := value, line := 1, col := 1 },
          { type := .eof, value := "", line := stop.line, col := stop.col }]

/-! ## Kept lines -/

/-- A line whose first character behind white space is a dot is matched by no rule. -/
theorem kept_of_dot {line rest : List Char} (hne : line ≠ [])
    (hdot : line.dropWhile Peephole.isSpace = '.' :: rest) : Kept line := by
  refine ⟨hne, ?_⟩
  have hstart : ∀ rule ∈ rules, rule.op.isPrefixOf ('.' :: rest) = false := by
    intro rule hrule
    simp only [rules, List.mem_cons, List.not_mem_nil, or_false] at hrule
    rcases hrule with rfl | rfl | rfl | rfl | rfl | rfl
    all_goals rfl
  intro rule hrule
  rw [Rule.test, hdot, hstart rule hrule]
  rfl

theorem kept_of_rodataItem {line : List Char} (h : (rodataItem line).isSome) : Kept line := by
  rw [rodataItem] at h
  split at h
  next hstart =>
    obtain ⟨text, rfl⟩ := hstart
    exact kept_of_dot (List.cons_ne_nil _ _) rfl
  next =>
    split at h
    next hlabel =>
      cases line with
      | nil => cases hlabel.1
      | cons ch rest =>
          obtain rfl : ch = '.' := Option.some.inj hlabel.1
          exact kept_of_dot (List.cons_ne_nil _ _) rfl
    next => cases h

/-- The optimiser keeps all labels and texts. -/
theorem rodataItems_applyPeephole (assembly : List Char) :
    rodataItems (applyPeephole assembly) = rodataItems assembly := by
  have hfilter : ∀ lines : List (List Char), lines.filterMap rodataItem =
      (lines.filter fun line => decide (Kept line)).filterMap rodataItem := by
    intro lines
    induction lines with
    | nil => rfl
    | cons line lines ih =>
        by_cases hkept : Kept line
        · rw [List.filter_cons_of_pos (by simpa using hkept), List.filterMap_cons,
            List.filterMap_cons, ih]
        · have hnone : rodataItem line = none := by
            rw [← Option.not_isSome_iff_eq_none]
            exact fun hsome => hkept (kept_of_rodataItem hsome)
          rw [List.filter_cons_of_neg (by simpa using hkept), List.filterMap_cons_none hnone, ih]
  rw [rodataItems, rodataItems, hfilter, hfilter (assembly.splitOn '\n'), filter_applyPeephole]

theorem rodataItem_ascizLine (value : String) :
    rodataItem (ascizLine value) = some (.inr (bytesOf value ++ [0])) := by
  have hstart : ascizPrefix <+: ascizLine value := ⟨_, (List.append_assoc _ _ _).symm⟩
  rw [rodataItem, if_pos hstart, ascizLine, List.append_assoc, List.drop_left,
    escapeAsmString_eq, asmString_escape, Option.map_some, String.ofList_toList]

/-- Escaping leaves no newline in a text. -/
theorem newline_notMem_escape (text : List Char) : '\n' ∉ text.flatMap escapeChar := by
  intro hmem
  obtain ⟨ch, -, hch⟩ := List.mem_flatMap.mp hmem
  rw [escapeChar] at hch
  split at hch
  · exact absurd hch (by decide)
  split at hch
  · exact absurd hch (by decide)
  split at hch
  · exact absurd hch (by decide)
  split at hch
  · exact absurd hch (by decide)
  split at hch
  · exact absurd hch (by decide)
  next hnewline _ _ => exact hnewline (List.mem_singleton.mp hch).symm

theorem newline_notMem_ascizLine (value : String) : '\n' ∉ ascizLine value := by
  rw [ascizLine, escapeAsmString_eq, List.mem_append, List.mem_append]
  rintro ((hstart | htext) | hquote)
  · exact absurd hstart (by decide)
  · exact newline_notMem_escape _ htext
  · exact absurd hquote (by decide)

theorem rodataItems_around (value : String) {before after : List (List Char)}
    (hlines : ∀ line ∈ before ++ after, '\n' ∉ line) :
    rodataItems (applyPeephole (['\n'].intercalate (before ++ ascizLine value :: after))) =
      before.filterMap rodataItem ++ .inr (bytesOf value ++ [0]) ::
        after.filterMap rodataItem := by
  have hall : ∀ line ∈ before ++ ascizLine value :: after, '\n' ∉ line := by
    intro line hline
    rcases List.mem_append.mp hline with hbefore | hrest
    · exact hlines line (List.mem_append_left _ hbefore)
    · rcases List.mem_cons.mp hrest with rfl | hafter
      · exact newline_notMem_ascizLine value
      · exact hlines line (List.mem_append_right _ hafter)
  rw [rodataItems_applyPeephole, rodataItems, List.splitOn_intercalate _ hall (by simp),
    List.filterMap_append, List.filterMap_cons_some (rodataItem_ascizLine value)]

/-! ## In print -/

/-- The bytes of the five escaped characters are theirs alone. -/
theorem flatMap_escapeByte_char (ch : Char) :
    (String.utf8EncodeChar ch).flatMap escapeByte = utf8 (escapeChar ch) := by
  -- below 128 the character is its own byte; above, no byte of it is an escape
  rcases Nat.lt_or_ge ch.toNat 128 with hascii | hother
  · have hbyte : ∀ special : Char, special.toNat < 128 →
        (charByte ch = charByte special ↔ ch = special) :=
      fun special hspecial => ⟨charByte_inj hascii hspecial, congrArg charByte⟩
    have hescape : escapeByte (charByte ch) = utf8 (escapeChar ch) := by
      have hsingle : utf8 [ch] = [charByte ch] := by
        rw [utf8_cons, utf8_nil, List.append_nil, utf8EncodeChar_ascii hascii]
        rfl
      have hbackslash := hbyte '\\' (by decide)
      have hquote := hbyte '"' (by decide)
      have hnewline := hbyte '\n' (by decide)
      have hreturn := hbyte '\r' (by decide)
      have htab := hbyte '\t' (by decide)
      rw [escapeByte, escapeChar]
      split
      next h => rw [if_pos (hbackslash.mp h)]; rfl
      next h =>
        rw [if_neg fun heq => h (hbackslash.mpr heq)]
        split
        next h => rw [if_pos (hquote.mp h)]; rfl
        next h =>
          rw [if_neg fun heq => h (hquote.mpr heq)]
          split
          next h => rw [if_pos (hnewline.mp h)]; rfl
          next h =>
            rw [if_neg fun heq => h (hnewline.mpr heq)]
            split
            next h => rw [if_pos (hreturn.mp h)]; rfl
            next h =>
              rw [if_neg fun heq => h (hreturn.mpr heq)]
              split
              next h => rw [if_pos (htab.mp h)]; rfl
              next h => rw [if_neg fun heq => h (htab.mpr heq), hsingle]
    rw [utf8EncodeChar_ascii hascii, List.flatMap_singleton]
    exact hescape
  · have hbytes : ∀ b ∈ String.utf8EncodeChar ch, escapeByte b = [b] := by
      intro b hb
      have hle := le_of_mem_utf8EncodeChar hother hb
      have hne : ∀ special : UInt8, special.toNat < 128 → b ≠ special := by
        rintro special hspecial rfl
        omega
      rw [escapeByte, if_neg (hne 92 (by decide)), if_neg (hne 34 (by decide)),
        if_neg (hne 10 (by decide)), if_neg (hne 13 (by decide)), if_neg (hne 9 (by decide))]
    have hchar : escapeChar ch = [ch] := by
      have hne : ∀ special : Char, special.toNat < 128 → ch ≠ special := by
        rintro special hspecial rfl
        omega
      rw [escapeChar, if_neg (hne _ (by decide)), if_neg (hne _ (by decide)),
        if_neg (hne _ (by decide)), if_neg (hne _ (by decide)), if_neg (hne _ (by decide))]
    rw [hchar, utf8_cons, utf8_nil, List.append_nil, List.flatMap_congr hbytes]
    exact List.flatMap_singleton' _

theorem quoted_utf8 (text : List Char) :
    quoted (utf8 text) = utf8 ('"' :: text.flatMap escapeChar ++ ['"']) := by
  have hflat : (utf8 text).flatMap escapeByte = utf8 (text.flatMap escapeChar) := by
    rw [utf8, List.flatMap_assoc, utf8, List.flatMap_assoc]
    exact List.flatMap_congr fun ch _ => flatMap_escapeByte_char ch
  rw [quoted, hflat, utf8_append, utf8_cons]
  rfl

/-- The bytes of a text without the character NUL have no zero among them. -/
theorem zero_notMem_bytesOf {value : String} (hnul : '\x00' ∉ value.toList) :
    0 ∉ bytesOf value := by
  rw [bytesOf, toUTF8_toList, utf8]
  intro hmem
  obtain ⟨ch, hch, hbyte⟩ := List.mem_flatMap.mp hmem
  rcases Nat.lt_or_ge ch.toNat 128 with hascii | hother
  · rw [utf8EncodeChar_ascii hascii, List.mem_singleton] at hbyte
    have heq : ch = '\x00' := charByte_inj hascii (by decide) hbyte.symm
    exact hnul (heq ▸ hch)
  · have hle := le_of_mem_utf8EncodeChar hother hbyte
    exact absurd hle (by decide)

theorem bytesOf_ofList (text : List Char) : bytesOf (String.ofList text) = utf8 text := by
  rw [bytesOf, toUTF8_toList, String.toList_ofList]

theorem nativePrint_text {value : String} (hnul : '\x00' ∉ value.toList) (w : NativeWorld) :
    nativePrint .str (nativeConst (.text value)) w = some (.word 0, w.write (bytesOf
      (String.ofList ('"' :: value.toList.flatMap escapeChar ++ ['"', '\n'])))) := by
  have hshown : w.shown .str (nativeConst (.text value)) = some (quoted (bytesOf value)) := by
    rw [← cString_of_not_mem (zero_notMem_bytesOf hnul)]
    rfl
  have hbytes : quoted (bytesOf value) ++ bytesOf "\n" =
      bytesOf (String.ofList ('"' :: value.toList.flatMap escapeChar ++ ['"', '\n'])) := by
    have hnewline : bytesOf "\n" = utf8 ['\n'] := bytesOf_ofList ['\n']
    rw [bytesOf, toUTF8_toList, quoted_utf8, hnewline, bytesOf_ofList, ← utf8_append,
      List.append_assoc]
    rfl
  rw [nativePrint, hshown, ← hbytes]
  rfl

/-! ## Reading back -/

theorem readString_escapeChar (ch : Char) (more : List Char) (cursor : Cursor) :
    ∃ next, readString '"' (escapeChar ch ++ more) cursor =
      (readString '"' more next).map fun read => (ch :: read.1, read.2) := by
  have hescape : ∀ (d : Char), unescape d = ch → ∃ next,
      readString '"' (['\\', d] ++ more) cursor =
        (readString '"' more next).map fun read => (ch :: read.1, read.2) := by
    rintro d rfl
    refine ⟨(cursor.over '\\' (d :: more)).over d more, ?_⟩
    rw [List.cons_append, List.singleton_append, readString.eq_def]
    show (readString '"' more ((cursor.over '\\' (d :: more)).over d more) >>= fun read =>
      pure (unescape d :: read.1, read.2)) = _
    cases readString '"' more _ with
    | none => rfl
    | some read => rfl
  rw [escapeChar]
  split
  next h => exact hescape '\\' h.symm
  split
  next h => exact hescape '"' h.symm
  split
  next h => exact hescape 'n' h.symm
  split
  next h => exact hescape 'r' h.symm
  split
  next h => exact hescape 't' h.symm
  next hbackslash hquote _ _ _ =>
    refine ⟨cursor.over ch more, ?_⟩
    rw [List.singleton_append, readString.eq_def]
    simp only [hquote, hbackslash, if_false]
    cases readString '"' more _ with
    | none => rfl
    | some read => rfl

/-- The tokenizer reads back the text that was escaped. -/
theorem readString_escape (rest : List Char) : ∀ (text : List Char) (cursor : Cursor),
    ∃ after, readString '"' (text.flatMap escapeChar ++ '"' :: rest) cursor = some (text, after) ∧
      after.rest = rest := by
  intro text
  induction text with
  | nil =>
      intro cursor
      refine ⟨cursor.over '"' rest, ?_, over_rest _ _ _⟩
      show readString '"' ('"' :: rest) cursor = _
      rw [readString.eq_def]
      rfl
  | cons ch text ih =>
      intro cursor
      obtain ⟨next, hchar⟩ :=
        readString_escapeChar ch (text.flatMap escapeChar ++ '"' :: rest) cursor
      obtain ⟨after, hread, hafter⟩ := ih next
      refine ⟨after, ?_, hafter⟩
      rw [List.flatMap_cons, List.append_assoc, hchar, hread]
      rfl

/-- A quoted text on a line of its own is one token. -/
theorem tokenize_quoted (text : List Char) :
    ∃ stop : Cursor, tokenize ('"' :: text.flatMap escapeChar ++ ['"', '\n']) = .ok
      [{ type := .string, value := String.ofList text, line := 1, col := 1 },
        { type := .eof, value := "", line := stop.line, col := stop.col }] := by
  set body := text.flatMap escapeChar ++ ['"', '\n'] with hbody
  set source := '"' :: body
  set start : Cursor := { rest := source, line := 1, col := 1 }
  obtain ⟨after, hread, hafter⟩ := readString_escape ['\n'] text (start.over '"' body)
  refine ⟨skipWhitespace false after.rest after, ?_⟩
  have htoken : readToken '"' body start =
      .ok ({ type := .string, value := String.ofList text, line := 1, col := 1 }, after) := by
    rw [readToken.eq_def]
    simp only [decide_true, Bool.true_or, if_true]
    rw [hbody, hread]
  have hend : (skipWhitespace false after.rest after).rest = [] := by
    rw [hafter]
    rfl
  show tokenizeFrom (body.length + 1 + 1) start = _
  rw [tokenizeFrom_succ]
  show (readToken '"' body start >>= fun read =>
    tokenizeFrom (body.length + 1) read.2 >>= fun rest => pure (read.1 :: rest)) = _
  rw [htoken]
  show (tokenizeFrom (body.length + 1) after >>= fun rest => pure (_ :: rest)) = _
  rw [tokenizeFrom_succ, hend]
  rfl

/-! ## The whole way -/

/-- A text without the character NUL is assembled, optimised, printed and read as itself. -/
theorem textKept {value : String} (hnul : '\x00' ∉ value.toList) : TextKept value := by
  refine ⟨rodataItem_ascizLine value, fun before after => rodataItems_around value, fun w => ?_⟩
  obtain ⟨stop, htokens⟩ := tokenize_quoted value.toList
  refine ⟨_, stop, nativePrint_text hnul w, ?_⟩
  rw [String.toList_ofList, htokens, String.ofList_toList]

theorem textKept_mixed : TextKept "çã\\\"\n\r\t'😀;#" :=
  textKept (by decide)

end GatoCore.Native
