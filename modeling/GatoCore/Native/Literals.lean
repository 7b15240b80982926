import GatoCore.Native.DataSection
import GatoCore.Native.Emit
import GatoCore.Native.ParserTotal
import GatoCore.Native.Words

/-!
# Integer literals

A literal is a text of digits, then the double `Number` makes of it, then the text of that double in
a line of the assembly, then what the assembler reads there.
-/

namespace GatoCore.Native

open Lexer GatoCore.Native.Parser GatoCore.Lib GatoCore.Lib.Binary64

structure IsDigits (digits : List Char) : Prop where
  ne_nil : digits ≠ []
  all : ∀ ch ∈ digits, isDigit ch = true

/-- The value of a decimal literal. -/
def decimalValue (digits : List Char) : ℕ := Nat.ofDigitChars 10 digits 0

/-- The immediate of a line of code, as it is written. -/
def Line.immediate : Line → Option (List Char)
  | .movImm _ text => some text
  | .cmpImm _ text => some text
  | _ => none

/-- The number of a line of data, as it is written. -/
def DataLine.immediate : DataLine → Option (List Char)
  | .quad value => some (numberText value)
  | _ => none

/-- The lines an expression is lowered and emitted to hold one integer, which is `value`. -/
structure Emits (e : Expr) (value : ℕ) : Prop where
  code : ∀ (table : FunctionTable) (ctx ctx' : LoweringContext) (v : Operand),
    ExprLowers table ctx e v ctx' →
    ∃ inst, ctx'.instructions = ctx.instructions ++ [inst] ∧
      ∀ fn alloc lines, emitInstruction fn alloc inst = some lines →
        ∃ text, lines.filterMap Line.immediate = [text] ∧ asmInteger text = some value
  item : ∀ (consts consts' : ConstTables) (c : ConstValue),
    buildConstValue consts e = .ok (c, consts') →
    ∃ text, (itemLine c).immediate = some text ∧ asmInteger text = some value

/-- Wherever the literal stands in a source text, the node made of its token is emitted as an
integer of the literal's value. -/
def LiteralKept (digits : List Char) : Prop :=
  ∀ (source post : List Char) (start after : Cursor) (ch : Char) (rest : List Char) (token : Token),
    Starts source start → start.rest = ch :: rest → ch :: rest = digits ++ post →
    ClassEnds isDigit post → readToken ch rest start = .ok (token, after) →
    ∀ (parseExpression : ParseM Expr) (fuel : ℕ) (later later' : List Token) (e : Expr),
      (parsePrimary parseExpression fuel).run (token :: later) = .ok (e, later') →
      Emits e (decimalValue digits)

/-! ## Reading and parsing -/

theorem readToken_digits {digits post : List Char} (hdigits : IsDigits digits)
    (hpost : ClassEnds isDigit post) (cursor : Cursor) {ch : Char} {rest : List Char}
    (hrest : ch :: rest = digits ++ post) :
    ∃ after, readToken ch rest cursor =
      .ok ({ type := .number, value := String.ofList digits, line := cursor.line
             col := cursor.col }, after) ∧ after.rest = post := by
  obtain ⟨first, value, rfl⟩ := List.exists_cons_of_ne_nil hdigits.ne_nil
  rw [List.cons_append] at hrest
  obtain ⟨rfl, rfl⟩ := List.cons.inj hrest
  obtain ⟨hfirst, hvalue⟩ := List.forall_mem_cons.mp hdigits.all
  have hquote : (ch = '"' || ch = '\'') = false := by
    rw [Bool.eq_false_iff]
    intro h
    simp only [Bool.or_eq_true, decide_eq_true_eq] at h
    rcases h with rfl | rfl
    all_goals exact absurd hfirst (by decide)
  obtain ⟨after, hread, hafter⟩ :=
    readWhile_append hpost value (cursor.over ch (value ++ post)) hvalue (over_rest _ _ _)
  refine ⟨after, ?_, hafter⟩
  simp only [readToken, hquote, hfirst, hread, Bool.false_eq_true, if_false, if_true]

theorem atToken_run {α : Type} {type : TokenType} {value : Option String} {token : Token}
    {tokens : List Token} {f : Bool → ParseM α} :
    (atToken type value >>= f).run (token :: tokens) =
      (f (decide (Matches type value token))).run (token :: tokens) := rfl

/-- A token of type `number` is parsed to its number. -/
theorem parsePrimary_number {token : Token} (htype : token.type = .number)
    (parseExpression : ParseM Expr) (fuel : ℕ) (later : List Token) :
    (parsePrimary parseExpression fuel).run (token :: later) =
      .ok (.number (numberOf token.value), later) := by
  have hother : ∀ value, decide (Matches .identifier value token) = false := by
    intro value
    refine decide_eq_false fun hm => ?_
    exact absurd (hm.1.symm.trans htype) (by decide)
  have hnumber : Matches .number none token := ⟨htype, nofun⟩
  rw [parsePrimary, atToken_run, hother, atToken_run, hother, Bool.or_self,
    if_neg Bool.false_ne_true, atToken_run, hother, atToken_run, hother, Bool.or_self,
    if_neg Bool.false_ne_true, atToken_run, hother, atToken_run, hother, Bool.or_self,
    if_neg Bool.false_ne_true, StateT.run_bind, matchToken_run, if_pos hnumber]
  rfl

/-! ## What is written -/

/-- A number is emitted as an integer if its text is one. -/
theorem emits_number_iff {d value : ℕ} :
    Emits (.number d) value ↔ asmInteger (numberText d) = some value := by
  constructor
  · intro h
    obtain ⟨text, htext, hvalue⟩ := h.item emptyTables emptyTables ⟨.i64, .imm d⟩ rfl
    cases htext
    exact hvalue
  · intro hvalue
    constructor
    · intro table ctx ctx' v hlowers
      cases hlowers with
      | literal hconst =>
          rw [buildConstValue] at hconst
          cases hconst
          refine ⟨_, rfl, fun fn alloc lines hlines => ⟨_, ?_, hvalue⟩⟩
          have hdirect : emitDirect fn alloc ctx.tempCount (.movImm · (numberText d)) =
            some lines := hlines
          rw [emitDirect] at hdirect
          obtain ⟨loc, -, hloc⟩ := Option.bind_eq_some_iff.mp hdirect
          cases loc with
          | reg name =>
              cases hloc
              rfl
          | spill slot =>
              cases hloc
              rfl
    · intro consts consts' c hconst
      rw [buildConstValue] at hconst
      cases hconst
      exact ⟨_, rfl, hvalue⟩

/-! ## Literals -/

theorem numberOf_ofList (digits : List Char) :
    numberOf (String.ofList digits) = nearest (decimalValue digits) := by
  rw [numberOf, decimalValue, Nat.ofDigitChars_eq_foldl, String.toList_ofList]

theorem isBlank_of_isDigit {ch : Char} (h : isDigit ch = true) :
    isBlank ch = false ∧ ch ≠ '#' ∧ ch ≠ '/' := by
  refine ⟨?_, ?_, ?_⟩
  · rw [Bool.eq_false_iff]
    intro hblank
    simp only [isBlank, Bool.or_eq_true, decide_eq_true_eq] at hblank
    rcases hblank with ((rfl | rfl) | rfl) | rfl
    all_goals exact absurd h (by decide)
  · rintro rfl
    exact absurd h (by decide)
  · rintro rfl
    exact absurd h (by decide)

theorem Lexer.Starts.digits {digits : List Char} (h : IsDigits digits) :
    Starts digits { rest := digits, line := 1, col := 1 } := by
  obtain ⟨ch, rest, rfl⟩ := List.exists_cons_of_ne_nil h.ne_nil
  have hfirst : Starts (ch :: rest) _ := .first
  rw [skipWhitespace] at hfirst
  obtain ⟨hblank, hhash, hslash⟩ := isBlank_of_isDigit (h.all ch List.mem_cons_self)
  simpa [hblank, hhash, hslash] using hfirst

theorem literalKept_iff_text {digits : List Char} (hdigits : IsDigits digits) :
    LiteralKept digits ↔
      asmInteger (numberText (nearest (decimalValue digits))) = some (decimalValue digits) := by
  constructor
  · intro h
    obtain ⟨ch, rest, hsource⟩ := List.exists_cons_of_ne_nil hdigits.ne_nil
    have hend : ClassEnds isDigit [] := nofun
    have hrest : ch :: rest = digits ++ [] := by rw [List.append_nil, hsource]
    obtain ⟨after, hread, -⟩ := readToken_digits hdigits hend
      { rest := digits, line := 1, col := 1 } hrest
    have hemits := h digits [] _ after ch rest _ (.digits hdigits) hsource hrest hend hread
      (pure .null) 0 [] [] _ (parsePrimary_number rfl _ _ _)
    rw [numberOf_ofList] at hemits
    exact emits_number_iff.mp hemits
  · intro htext source post start after ch rest token _ _ hrest hend hread parseExpression fuel
      later later' e hparse
    obtain ⟨after', hread', -⟩ := readToken_digits hdigits hend start hrest
    rw [hread'] at hread
    cases hread
    rw [parsePrimary_number rfl, numberOf_ofList] at hparse
    cases hparse
    exact emits_number_iff.mpr htext

/-- A literal is kept if it fits in 64 bits and is what its double is written as: nothing with fewer
digits, and nothing closer with as many, has the same nearest double. -/
theorem literalKept_iff {digits : List Char} (hdigits : IsDigits digits) :
    LiteralKept digits ↔ decimalValue digits < 2 ^ 64 ∧
      Shortest (nearest (decimalValue digits)) (decimalValue digits) := by
  rw [literalKept_iff_text hdigits, asmInteger_numberText]
  have hle : nearest (decimalValue digits) ≤ infinity := min_le_right _ _
  constructor
  · rintro ⟨hinf, hsmall, hshortest⟩
    have hlt := Nat.lt_of_le_of_ne hle hinf
    exact ⟨hshortest ▸ hsmall, (shortest_eq_iff (nearest_nearest _) hlt).mp hshortest⟩
  · rintro ⟨hsmall, hshortest⟩
    have hlt : nearest (decimalValue digits) < infinity := by
      refine (nearest_mono hsmall.le).trans_lt ?_
      decide +kernel
    have heq := (shortest_eq_iff (nearest_nearest _) hlt).mpr hshortest
    exact ⟨hlt.ne, heq.symm ▸ hsmall, heq⟩

theorem literalKept_iff_largest : LiteralKept "9007199254740991".toList := by
  refine (literalKept_iff ⟨by decide, List.all_eq_true.mp (by decide)⟩).mpr ⟨by decide, ?_⟩
  rw [nearest_of_lt (by decide)]
  exact shortest_of_lt (by decide)

/-- The first literal that changes fits in 64 bits. -/
theorem large_literal_changes : IsDigits "9007199254740993".toList ∧
    decimalValue "9007199254740993".toList < 2 ^ 63 ∧ ¬ LiteralKept "9007199254740993".toList ∧
    numberText (numberOf "9007199254740993") = "9007199254740992".toList := by
  have hdigits : IsDigits "9007199254740993".toList := ⟨by decide, List.all_eq_true.mp (by decide)⟩
  refine ⟨hdigits, by decide, ?_, by decide +kernel⟩
  rw [literalKept_iff_text hdigits]
  decide +kernel

end GatoCore.Native
