import GatoCore.Native.Identifiers
import GatoCore.Native.ReadBackProgram

/-!
# From a program to its text and back

The tokenizer makes of a printed text the lexemes that were printed: each of them is read as itself
in front of a blank. The parser makes the program of them.
-/

namespace GatoCore.Native

open GatoCore.Lib Lexer Lexeme

/-! ## Lexemes in front of a blank -/

/-- In front of a blank, the text of the lexeme is read as the lexeme. -/
structure Lexeme.Legible (ℓ : Lexeme) (ch : Char) (tail : List Char) : Prop where
  text : ℓ.text = ch :: tail
  blank : isBlank ch = false
  hash : ch ≠ '#'
  slash : ch = '/' → tail = []
  read : ∀ (cursor : Cursor) (b : Char) (post : List Char), isBlank b = true →
    ∃ token after, readToken ch (tail ++ b :: post) cursor = .ok (token, after) ∧
      token.lexeme = ℓ ∧ after.rest = b :: post

theorem eq_of_isBlank {b : Char} (h : isBlank b = true) :
    b = ' ' ∨ b = '\t' ∨ b = '\r' ∨ b = '\n' := by
  simp only [isBlank, Bool.or_eq_true, decide_eq_true_eq] at h
  rcases h with ((h | h) | h) | h
  · exact .inl h
  · exact .inr (.inl h)
  · exact .inr (.inr (.inl h))
  · exact .inr (.inr (.inr h))

/-- A blank is of no other class. -/
theorem class_of_isBlank {b : Char} (h : isBlank b = true) :
    isIdContinue b = false ∧ isDigit b = false ∧ b ≠ '/' ∧ b ≠ '=' ∧ b ≠ '&' ∧ b ≠ '|' := by
  rcases eq_of_isBlank h with rfl | rfl | rfl | rfl
  all_goals decide

theorem classEnds_of_isBlank {p : Char → Bool} {b : Char} (hp : p b = false) (post : List Char) :
    ClassEnds p (b :: post) := by
  rintro ch hch
  obtain rfl := Option.some.inj hch
  exact hp

/-! ### Words and numbers -/

theorem legible_word {word : String} (hword : IsWord word.toList) {type : TokenType}
    (htoken : ∀ line col, wordToken word line col =
      { type := type, value := word, line := line, col := col })
    (htype : type ≠ .string) : ∃ ch tail, (⟨type, word⟩ : Lexeme).Legible ch tail := by
  obtain ⟨ch, tail, hvalue, hch⟩ := hword.start
  obtain ⟨hblank, hhash, hslash⟩ := isBlank_of_isIdStart hch
  refine ⟨ch, tail, ?_, hblank, hhash, fun h => absurd h hslash, ?_⟩
  · rw [← hvalue, Lexeme.text]
    split
    next h => exact absurd h htype
    next => rfl
  · intro cursor b post hb
    have hends := classEnds_of_isBlank (class_of_isBlank hb).1 post
    have hrest : ch :: (tail ++ b :: post) = word.toList ++ b :: post := by
      rw [hvalue, List.cons_append]
    obtain ⟨after, hread, hafter⟩ := readToken_word hword hends cursor hrest
    rw [String.ofList_toList, htoken] at hread
    exact ⟨_, after, hread, rfl, hafter⟩

theorem legible_ident {name : String} (h : IsName name) :
    ∃ ch tail, (ident name).Legible ch tail := legible_word h.word h.token nofun

theorem isName_of_plain {word : String} (hword : IsWord word.toList)
    (halias : word ∉ aliases.map Prod.fst) (hkeyword : word ∉ keywords)
    (hplain : word ∉ objectPrototypeKeys) : IsName word :=
  ⟨hword, wordToken_plain halias hkeyword hplain⟩

theorem isWord_of_all {word : List Char} {ch : Char} {rest : List Char} (h : word = ch :: rest)
    (hstart : isIdStart ch = true) (hall : word.all isIdContinue = true) : IsWord word :=
  ⟨⟨ch, rest, h, hstart⟩, List.all_eq_true.mp hall⟩

theorem legible_keyword {word : String} (h : word ∈ keywords) :
    ∃ ch tail, (keyword word).Legible ch tail := by
  have hwords : ∀ word ∈ keywords, (word.toList.head?.any isIdStart) = true ∧
      word.toList.all isIdContinue = true ∧ (aliasOf word).getD word = word := by decide +kernel
  obtain ⟨hstart, hall, hvalue⟩ := hwords word h
  obtain ⟨ch, hhead, hch⟩ := (Option.any_eq_true _ _).mp hstart
  obtain ⟨rest, hrest⟩ := List.head?_eq_some_iff.mp hhead
  refine legible_word (isWord_of_all hrest hch hall) ?_ nofun
  intro line col
  have hset : inKeywordSet word = true := by simp [inKeywordSet, h]
  simp [wordToken, hvalue, hset]

theorem isDigits_toDigits (n : ℕ) : IsDigits (Nat.toDigits 10 n) := by
  refine ⟨Nat.toDigits_ne_nil, ?_⟩
  intro ch hch
  have hdigit : ch.isDigit = true := Nat.isDigit_of_mem_toDigits (by decide) (by decide) hch
  rw [Char.isDigit, Bool.and_eq_true, decide_eq_true_eq, decide_eq_true_eq] at hdigit
  rw [isDigit, Bool.and_eq_true, decide_eq_true_eq, decide_eq_true_eq]
  exact hdigit

theorem legible_number (n : ℕ) :
    ∃ ch tail, (⟨.number, String.ofList (Nat.toDigits 10 n)⟩ : Lexeme).Legible ch tail := by
  have hdigits := isDigits_toDigits n
  obtain ⟨ch, tail, hvalue⟩ := List.exists_cons_of_ne_nil hdigits.ne_nil
  rw [hvalue] at hdigits ⊢
  obtain ⟨hblank, hhash, hslash⟩ := isBlank_of_isDigit (hdigits.all ch List.mem_cons_self)
  refine ⟨ch, tail, String.toList_ofList, hblank, hhash, fun h => absurd h hslash, ?_⟩
  intro cursor b post hb
  have hends := classEnds_of_isBlank (class_of_isBlank hb).2.1 post
  have hrest : (ch :: tail) ++ b :: post = ch :: (tail ++ b :: post) := rfl
  obtain ⟨after, hread, hafter⟩ := readToken_digits hdigits hends cursor hrest
  exact ⟨_, after, hread, rfl, hafter⟩

/-! ### Texts -/

theorem readString_escaped (post : List Char) : ∀ (text : List Char) (cursor : Cursor),
    ∃ after, readString '"' (escape text ++ '"' :: post) cursor = some (text, after) ∧
      after.rest = post := by
  intro text
  induction text with
  | nil =>
      intro cursor
      refine ⟨cursor.over '"' post, ?_, over_rest _ _ _⟩
      show readString '"' ('"' :: post) cursor = _
      rw [readString.eq_def]
      rfl
  | cons ch text ih =>
      intro cursor
      rw [escape]
      split
      next hescaped =>
        -- what is escaped stands for itself
        have hunescape : unescape ch = ch := by
          rcases hescaped with rfl | rfl
          all_goals rfl
        obtain ⟨after, hread, hafter⟩ :=
          ih ((cursor.over '\\' (ch :: (escape text ++ '"' :: post))).over
          ch (escape text ++ '"' :: post))
        refine ⟨after, ?_, hafter⟩
        show readString '"' ('\\' :: ch :: (escape text ++ '"' :: post)) cursor = _
        rw [readString.eq_def]
        show (readString '"' (escape text ++ '"' :: post) _ >>= fun read =>
          pure (unescape ch :: read.1, read.2)) = _
        rw [hread, hunescape]
        rfl
      next hplain =>
        rw [not_or] at hplain
        obtain ⟨after, hread, hafter⟩ := ih (cursor.over ch (escape text ++ '"' :: post))
        refine ⟨after, ?_, hafter⟩
        show readString '"' (ch :: (escape text ++ '"' :: post)) cursor = _
        rw [readString.eq_def]
        simp only [hplain.1, hplain.2, if_false]
        rw [hread]
        rfl

theorem legible_string (value : String) :
    ∃ ch tail, (⟨.string, value⟩ : Lexeme).Legible ch tail := by
  refine ⟨'"', escape value.toList ++ ['"'], rfl, rfl, by decide, nofun, ?_⟩
  intro cursor b post hb
  obtain ⟨after, hread, hafter⟩ := readString_escaped (b :: post) value.toList
    (cursor.over '"' (escape value.toList ++ ['"'] ++ b :: post))
  refine ⟨{ type := .string, value := value, line := cursor.line, col := cursor.col }, after, ?_,
    rfl, hafter⟩
  rw [readToken.eq_def]
  simp only [decide_true, Bool.true_or, if_true]
  rw [List.append_assoc, List.singleton_append] at hread ⊢
  rw [hread]
  simp only [String.ofList_toList]

/-! ### Operators and punctuation -/

theorem legible_pair {first second : Char} (h : isPair first second = true) :
    ∃ ch tail, (operator (String.ofList [first, second])).Legible ch tail := by
  have hclass : first ≠ '"' ∧ first ≠ '\'' ∧ isDigit first = false ∧ isIdStart first = false ∧
      isBlank first = false ∧ first ≠ '#' ∧ first ≠ '/' := by
    simp only [isPair, Bool.or_eq_true, Bool.and_eq_true, decide_eq_true_eq] at h
    rcases h with (⟨-, ((rfl | rfl) | rfl) | rfl⟩ | ⟨rfl, -⟩) | ⟨rfl, -⟩
    all_goals decide
  obtain ⟨hquote, hapostrophe, hdigit, hstart, hblank, hhash, hslash⟩ := hclass
  refine ⟨first, [second], String.toList_ofList, hblank, hhash, fun h => absurd h hslash, ?_⟩
  intro cursor b post _
  refine ⟨{ type := .operator, value := String.ofList [first, second], line := cursor.line
            col := cursor.col }, (cursor.over first (second :: b :: post)).over second (b :: post),
    ?_, rfl, over_rest _ _ _⟩
  simp only [readToken, hquote, hapostrophe, hdigit, hstart, h, decide_false, Bool.or_self,
    Bool.false_eq_true, if_false, if_true, List.singleton_append]

/-- The characters that are tokens of their own. -/
def singleType (ch : Char) : Option TokenType :=
  if isOperator ch then some .operator else if isPunct ch then some .punct else none

theorem legible_single {ch : Char} {type : TokenType} (h : singleType ch = some type) :
    ∃ ch' tail, (⟨type, String.ofList [ch]⟩ : Lexeme).Legible ch' tail := by
  have hclass : ch ≠ '"' ∧ ch ≠ '\'' ∧ isDigit ch = false ∧ isIdStart ch = false ∧
      isBlank ch = false ∧ ch ≠ '#' := by
    have hor : isOperator ch = true ∨ isPunct ch = true := by
      rw [singleType] at h
      split_ifs at h with hoperator hpunct
      · exact .inl hoperator
      · exact .inr hpunct
    simp only [isOperator, isPunct, Bool.or_eq_true, decide_eq_true_eq] at hor
    rcases hor with ((((((((rfl | rfl) | rfl) | rfl) | rfl) | rfl) | rfl) | rfl) | rfl) |
      ((((rfl | rfl) | rfl) | rfl) | rfl)
    all_goals decide
  obtain ⟨hquote, hapostrophe, hdigit, hstart, hblank, hhash⟩ := hclass
  have htext : (⟨type, String.ofList [ch]⟩ : Lexeme).text = [ch] := by
    rw [singleType] at h
    split_ifs at h
    all_goals
      cases h
      exact String.toList_ofList
  refine ⟨ch, [], htext, hblank, hhash, fun _ => rfl, ?_⟩
  intro cursor b post hb
  obtain ⟨-, -, -, heq, hand, hbar⟩ := class_of_isBlank hb
  have hpair : isPair ch b = false := by simp [isPair, heq, hand, hbar]
  refine ⟨{ type := type, value := String.ofList [ch], line := cursor.line, col := cursor.col },
    cursor.over ch (b :: post), ?_, rfl, over_rest _ _ _⟩
  have hsingle : readToken.readSingle ch cursor (cursor.over ch (b :: post)) =
      .ok ({ type := type, value := String.ofList [ch], line := cursor.line, col := cursor.col },
        cursor.over ch (b :: post)) := by
    rw [readToken.readSingle]
    rw [singleType] at h
    split_ifs at h with hoperator hpunct
    · cases h
      simp only [hoperator, if_true]
    · cases h
      simp only [hoperator, hpunct, if_true, if_false, Bool.false_eq_true]
  simp only [readToken, hquote, hapostrophe, hdigit, hstart, hpair, decide_false, Bool.or_self,
    Bool.false_eq_true, if_false, List.nil_append, hsingle]

theorem legible_operator (op : BinaryOp) : ∃ ch tail, (operator op.symbol).Legible ch tail := by
  cases op with
  | and => exact legible_pair (rfl : isPair '&' '&' = true)
  | or => exact legible_pair (rfl : isPair '|' '|' = true)
  | eq => exact legible_pair (rfl : isPair '=' '=' = true)
  | ne => exact legible_pair (rfl : isPair '!' '=' = true)
  | lt => exact legible_single (rfl : singleType '<' = some .operator)
  | le => exact legible_pair (rfl : isPair '<' '=' = true)
  | gt => exact legible_single (rfl : singleType '>' = some .operator)
  | ge => exact legible_pair (rfl : isPair '>' '=' = true)
  | add => exact legible_single (rfl : singleType '+' = some .operator)
  | sub => exact legible_single (rfl : singleType '-' = some .operator)
  | mul => exact legible_single (rfl : singleType '*' = some .operator)
  | div => exact legible_single (rfl : singleType '/' = some .operator)
  | mod => exact legible_single (rfl : singleType '%' = some .operator)

/-! ## Texts of lexemes -/

/-- Blanks are skipped up to where nothing more is. -/
theorem skipWhitespace_blanks {text : List Char}
    (hstop : ∀ cursor, skipWhitespace false text cursor = cursor) :
    ∀ (blanks : List Char) (cursor : Cursor), (∀ ch ∈ blanks, isBlank ch = true) →
      cursor.rest = blanks ++ text →
      (skipWhitespace false (blanks ++ text) cursor).rest = text := by
  intro blanks
  induction blanks with
  | nil =>
      intro cursor _ hrest
      rw [List.nil_append, hstop]
      exact hrest
  | cons ch blanks ih =>
      intro cursor hblanks _
      obtain ⟨hch, hblanks⟩ := List.forall_mem_cons.mp hblanks
      rw [List.cons_append, skipWhitespace, if_pos hch]
      exact ih _ hblanks (over_rest _ _ _)

theorem Lexeme.Legible.stop {ℓ : Lexeme} {ch : Char} {tail : List Char} (h : ℓ.Legible ch tail)
    {b : Char} (hb : isBlank b = true) (post : List Char) (cursor : Cursor) :
    skipWhitespace false (ch :: (tail ++ b :: post)) cursor = cursor := by
  have hcomment : (ch = '#' || (ch = '/' && (tail ++ b :: post).head? = some '/')) = false := by
    rw [Bool.or_eq_false_iff, Bool.and_eq_false_iff, decide_eq_false_iff_not,
      decide_eq_false_iff_not, decide_eq_false_iff_not]
    refine ⟨h.hash, ?_⟩
    by_cases hslash : ch = '/'
    · rw [h.slash hslash]
      exact .inr fun heq => (class_of_isBlank hb).2.2.1 (Option.some.inj heq)
    · exact .inl hslash
  rw [skipWhitespace, if_neg (by simp [h.blank]), hcomment]
  rfl

/-- Every text of lexemes, with blanks in front, is read as the lexemes. -/
theorem tokenizeFrom_printText : ∀ (lexemes : List Lexeme) (gap : ℕ → List Char)
    (blanks : List Char) (fuel : ℕ) (cursor : Cursor),
    (∀ ℓ ∈ lexemes, ∃ ch tail, ℓ.Legible ch tail) → (∀ i, IsGap (gap i)) →
    (∀ ch ∈ blanks, isBlank ch = true) → cursor.rest = blanks ++ printText gap lexemes →
    lexemes.length < fuel →
    ∃ tokens, tokenizeFrom fuel cursor = .ok tokens ∧
      tokens.map Token.lexeme = lexemes ++ [eof] := by
  intro lexemes
  induction lexemes with
  | nil =>
      intro gap blanks fuel cursor _ _ hblanks hrest hfuel
      obtain ⟨fuel, rfl⟩ := Nat.exists_eq_add_one_of_ne_zero (Nat.ne_of_gt hfuel)
      have hend : (skipWhitespace false cursor.rest cursor).rest = [] := by
        rw [hrest]
        exact skipWhitespace_blanks (fun _ => rfl) blanks cursor hblanks hrest
      refine ⟨[{ type := .eof, value := ""
                 line := (skipWhitespace false cursor.rest cursor).line
                 col := (skipWhitespace false cursor.rest cursor).col }], ?_, rfl⟩
      rw [tokenizeFrom_succ, hend]
  | cons ℓ lexemes ih =>
      intro gap blanks fuel cursor hlegible hgap hblanks hrest hfuel
      obtain ⟨fuel, rfl⟩ := Nat.exists_eq_add_one_of_ne_zero
        (Nat.ne_of_gt (Nat.zero_lt_of_lt hfuel))
      obtain ⟨⟨ch, tail, hℓ⟩, hlexemes⟩ := List.forall_mem_cons.mp hlegible
      obtain ⟨b, gap₀, hgap₀⟩ := List.exists_cons_of_ne_nil (hgap 0).ne_nil
      have hb : isBlank b = true := (hgap 0).blank b (hgap₀ ▸ List.mem_cons_self)
      set later := printText (fun i => gap (i + 1)) lexemes with hlater
      have htext : printText gap (ℓ :: lexemes) = ch :: (tail ++ b :: (gap₀ ++ later)) := by
        rw [printText, hℓ.text, hgap₀, List.cons_append, List.cons_append]
      have hstart : (skipWhitespace false cursor.rest cursor).rest =
          ch :: (tail ++ b :: (gap₀ ++ later)) := by
        rw [hrest, htext]
        rw [htext] at hrest
        exact skipWhitespace_blanks (hℓ.stop hb _) blanks cursor hblanks hrest
      obtain ⟨token, after, hread, htoken, hafter⟩ :=
        hℓ.read (skipWhitespace false cursor.rest cursor) b (gap₀ ++ later) hb
      obtain ⟨tokens, htokens, hmap⟩ := ih (fun i => gap (i + 1)) (b :: gap₀) fuel after hlexemes
        (fun i => hgap (i + 1)) (hgap₀ ▸ (hgap 0).blank) hafter (Nat.lt_of_succ_lt_succ hfuel)
      refine ⟨token :: tokens, ?_, ?_⟩
      · rw [tokenizeFrom_succ, hstart]
        simp only [hread, htokens, bind, Except.bind]
        rfl
      · rw [List.map_cons, htoken, hmap, List.cons_append]

theorem length_printText (gap : ℕ → List Char) (hgap : ∀ i, IsGap (gap i)) :
    ∀ lexemes : List Lexeme, lexemes.length ≤ (printText gap lexemes).length := by
  intro lexemes
  induction lexemes generalizing gap with
  | nil => exact Nat.le_refl _
  | cons ℓ lexemes ih =>
      have hlexemes := ih (fun i => gap (i + 1)) (fun i => hgap (i + 1))
      have hpos : 0 < (gap 0).length := List.length_pos_iff.mpr (hgap 0).ne_nil
      rw [printText, List.length_append, List.length_append, List.length_cons]
      omega

theorem tokenize_printText {lexemes : List Lexeme}
    (hlegible : ∀ ℓ ∈ lexemes, ∃ ch tail, ℓ.Legible ch tail) {gap : ℕ → List Char}
    (hgap : ∀ i, IsGap (gap i)) :
    ∃ tokens, tokenize (printText gap lexemes) = .ok tokens ∧
      tokens.map Token.lexeme = lexemes ++ [eof] :=
  tokenizeFrom_printText lexemes gap [] _ _ hlegible hgap nofun rfl
    (Nat.lt_succ_of_le (length_printText gap hgap lexemes))

/-! ## Printed programs are legible -/

/-- Each of the lexemes is read as itself. -/
def AllLegible (lexemes : List Lexeme) : Prop := ∀ ℓ ∈ lexemes, ∃ ch tail, ℓ.Legible ch tail

namespace AllLegible

variable {ℓ : Lexeme} {lexemes lexemes' : List Lexeme}

theorem nil : AllLegible [] := nofun

theorem cons (h : ∃ ch tail, ℓ.Legible ch tail) (hlexemes : AllLegible lexemes) :
    AllLegible (ℓ :: lexemes) := List.forall_mem_cons.mpr ⟨h, hlexemes⟩

theorem append (h : AllLegible lexemes) (h' : AllLegible lexemes') :
    AllLegible (lexemes ++ lexemes') := List.forall_mem_append.mpr ⟨h, h'⟩

theorem keyword {word : String} (hword : word ∈ keywords) (h : AllLegible lexemes) :
    AllLegible (Lexeme.keyword word :: lexemes) := .cons (legible_keyword hword) h

theorem ident {name : String} (hname : IsName name) (h : AllLegible lexemes) :
    AllLegible (Lexeme.ident name :: lexemes) := .cons (legible_ident hname) h

theorem single {ch : Char} {type : TokenType} (hch : singleType ch = some type)
    (h : AllLegible lexemes) : AllLegible (⟨type, String.ofList [ch]⟩ :: lexemes) :=
  .cons (legible_single hch) h

theorem parenthesize (needed : Bool) (h : AllLegible lexemes) :
    AllLegible (parenthesize needed lexemes) := by
  rw [GatoCore.Native.parenthesize]
  split
  · exact .single (rfl : singleType '(' = some .punct)
      (h.append (.single (rfl : singleType ')' = some .punct) .nil))
  · exact h

end AllLegible

theorem isName_constant : ∀ name ∈ constantNames, IsName name := by
  have hnames : ∀ name ∈ constantNames, (name.toList.head?.any isIdStart) = true ∧
      name.toList.all isIdContinue = true ∧ name ∉ aliases.map Prod.fst ∧ name ∉ keywords ∧
      name ∉ objectPrototypeKeys := by decide +kernel
  intro name hname
  obtain ⟨hstart, hall, halias, hkeyword, hplain⟩ := hnames name hname
  obtain ⟨ch, hhead, hch⟩ := (Option.any_eq_true _ _).mp hstart
  obtain ⟨rest, hrest⟩ := List.head?_eq_some_iff.mp hhead
  exact isName_of_plain (isWord_of_all hrest hch hall) halias hkeyword hplain

theorem legible_unaryOperator (op : UnaryOp) : AllLegible op.print := by
  cases op with
  | neg => exact .single (rfl : singleType '-' = some .operator) .nil
  | not => exact .single (rfl : singleType '!' = some .operator) .nil
  | tamanhoDe => exact .keyword (by decide) (.keyword (by decide) .nil)
  | tipoDe => exact .keyword (by decide) (.keyword (by decide) .nil)
  | identificar => exact .keyword (by decide) .nil
  | observar => exact .keyword (by decide) .nil

section Printed

variable {isVariable : String → Prop}

mutual
theorem legible_expr (hvar : ∀ name, isVariable name → IsName name) :
    ∀ {e : Expr} (level : ℕ), e.Printable isVariable → AllLegible (e.print level)
  | .number value, _, _ => .cons (legible_number value) .nil
  | .string value, _, _ => .cons (legible_string value) .nil
  | .bool true, _, _ => .ident (isName_constant "verdadeiro" (by decide)) .nil
  | .bool false, _, _ => .ident (isName_constant "falso" (by decide)) .nil
  | .null, _, _ => .ident (isName_constant "nulo" (by decide)) .nil
  | .identifier _, _, h => .ident (hvar _ h) .nil
  | .array items, _, h => by
      rw [Expr.print]
      exact .single (rfl : singleType '[' = some .punct) ((legible_items hvar h).append
        (.single (rfl : singleType ']' = some .punct) .nil))
  | .unary op e, level, h => by
      rw [Expr.print]
      exact ((legible_unaryOperator op).append
        (legible_expr hvar (e := e) unaryLevel h)).parenthesize _
  | .binary op l r, level, h => by
      rw [Expr.print]
      exact ((legible_expr hvar op.level h.1).append (.cons (legible_operator op)
        (legible_expr hvar (op.level + 1) h.2))).parenthesize _
  | .call callee args, _, h => by
      rw [Expr.print]
      exact (legible_expr hvar calleeLevel h.1).append (.single (rfl : singleType '(' = some .punct)
        ((legible_items hvar h.2).append (.single (rfl : singleType ')' = some .punct) .nil)))

theorem legible_items (hvar : ∀ name, isVariable name → IsName name) :
    ∀ {items : List Expr}, ItemsPrintable isVariable items → AllLegible (printItems items)
  | [], _ => .nil
  | e :: es, h => by
      rw [printItems]
      exact (legible_expr hvar 0 h.1).append (legible_more hvar h.2)

theorem legible_more (hvar : ∀ name, isVariable name → IsName name) :
    ∀ {items : List Expr}, ItemsPrintable isVariable items → AllLegible (printMore items)
  | [], _ => .nil
  | e :: es, h => by
      rw [printMore]
      exact .single (rfl : singleType ',' = some .punct)
        ((legible_expr hvar 0 h.1).append (legible_more hvar h.2))
end

mutual
theorem legible_stmt (hvar : ∀ name, isVariable name → IsName name) :
    ∀ {s : Stmt}, s.Printable isVariable → AllLegible s.print
  | .define name e, h => .keyword (by decide) (.ident h.1
      (.keyword (by decide) (legible_expr hvar 0 h.2)))
  | .assign name e, h => .ident h.1
      (.single (rfl : singleType '=' = some .operator) (legible_expr hvar 0 h.2))
  | .show e, h => .keyword (by decide) (legible_expr hvar 0 h)
  | .exprStmt e, h => legible_expr hvar 0 h
  | .ret none, _ => .keyword (by decide) .nil
  | .ret (some e), h => .keyword (by decide) (legible_expr hvar 0 h)
  | .ifElse test thenBody elseBody, h => by
      obtain ⟨htest, hthen, helse⟩ := h
      have hbody := legible_body hvar helse
      rw [Stmt.print]
      refine .keyword (by decide) ((legible_expr hvar 0 htest).append (.keyword (by decide)
        ((legible_body hvar hthen).append (.append ?_ (.keyword (by decide) .nil)))))
      split
      · exact .nil
      · exact .keyword (by decide) hbody
  | .while test body, h => by
      rw [Stmt.print]
      exact .keyword (by decide) ((legible_expr hvar 0 h.1).append (.keyword (by decide)
        ((legible_body hvar h.2).append (.keyword (by decide) .nil))))
  | .forEach binding iterable body, h => by
      rw [Stmt.print]
      exact .keyword (by decide) (.keyword (by decide) (.ident h.1 (.keyword (by decide)
        ((legible_expr hvar 0 h.2.1).append (.keyword (by decide)
          ((legible_body hvar h.2.2).append (.keyword (by decide) .nil)))))))

theorem legible_body (hvar : ∀ name, isVariable name → IsName name) :
    ∀ {body : List Stmt}, BodyPrintable isVariable body → AllLegible (printBody body)
  | [], _ => .nil
  | s :: body, h => by
      rw [printBody]
      exact (legible_stmt hvar h.1).append (legible_body hvar h.2.2)
end

theorem legible_params : ∀ {params : List String}, (∀ param ∈ params, IsName param) →
    AllLegible (printParams params)
  | [], _ => .nil
  | [param], h => .ident (h param List.mem_cons_self) .nil
  | param :: _ :: _, h => .ident (h param List.mem_cons_self)
      (.single (rfl : singleType ',' = some .punct)
        (legible_params fun param hparam => h param (List.mem_cons_of_mem _ hparam)))

theorem legible_program (hvar : ∀ name, isVariable name → IsName name) {program : Program}
    (h : program.Printable isVariable) : AllLegible program.print := by
  have hfunction : ∀ fn ∈ program.functions, AllLegible fn.print := by
    intro fn hfn
    have hprintable := h.functions fn hfn
    rw [FunctionDecl.print]
    exact .keyword (by decide) (.ident hprintable.name
      (.single (rfl : singleType '(' = some .punct) ((legible_params hprintable.params).append
        (.single (rfl : singleType ')' = some .punct) (.keyword (by decide)
          ((legible_body hvar hprintable.body).append (.keyword (by decide) .nil)))))))
  rw [Program.print]
  refine .append ?_ (legible_body hvar h.body)
  intro ℓ hℓ
  obtain ⟨fn, hfn, hmem⟩ := List.mem_flatMap.mp hℓ
  exact hfunction fn hfn ℓ hmem

end Printed

/-- A program whose variables are none of the names of the constants is printed, tokenized and
parsed as itself. -/
theorem parse_tokenize_print {program : Program} (h : program.Printable Parser.IsVariable)
    {gap : ℕ → List Char} (hgap : ∀ i, IsGap (gap i)) :
    ∃ tokens rest, tokenize (printText gap program.print) = .ok tokens ∧
      Parser.parse tokens = .ok (program, rest) := by
  obtain ⟨tokens, htokens, hlexemes⟩ :=
    tokenize_printText (legible_program (fun _ hname => hname.1) h) hgap
  obtain ⟨rest, hparse, -⟩ := Parser.parse_print h hlexemes
  exact ⟨tokens, rest, htokens, hparse⟩

/-! ## Two programs -/

def oneBlank (_ : ℕ) : List Char := [' ']

theorem isGap_oneBlank (i : ℕ) : IsGap (oneBlank i) :=
  ⟨List.cons_ne_nil _ _, List.forall_mem_singleton.mpr rfl⟩

/-- `função dobro(x) faça retornar x * 2 fim mostrar -(1 + dobro(3)) < 4`. -/
def doublingProgram : Program where
  functions :=
    [{ name := "dobro"
       params := ["x"]
       body := [.ret (some (.binary .mul (.identifier "x") (.number 2)))] }]
  body := [.show (.binary .lt
    (.unary .neg (.binary .add (.number 1) (.call (.identifier "dobro") [.number 3])))
    (.number 4))]

theorem isVariable_x : Parser.IsVariable "x" :=
  ⟨isName_of_plain (isWord_of_all rfl rfl rfl) (by decide) (by decide) (by decide), by decide⟩

theorem isVariable_dobro : Parser.IsVariable "dobro" :=
  ⟨isName_of_plain (isWord_of_all rfl rfl rfl) (by decide) (by decide) (by decide), by decide⟩

theorem doublingProgram_printable : doublingProgram.Printable Parser.IsVariable where
  functions := by
    rintro fn hfn
    obtain rfl := List.mem_singleton.mp hfn
    have htwo : (2 : ℕ) < 2 ^ 53 := by decide
    refine ⟨isVariable_dobro.1, ?_, ⟨⟨isVariable_x, htwo⟩, nofun, trivial⟩⟩
    rintro param hparam
    obtain rfl := List.mem_singleton.mp hparam
    exact isVariable_x.1
  body := by
    have hsmall : (1 : ℕ) < 2 ^ 53 ∧ (3 : ℕ) < 2 ^ 53 ∧ (4 : ℕ) < 2 ^ 53 := by decide
    exact ⟨⟨⟨hsmall.1, isVariable_dobro, hsmall.2.1, trivial⟩, hsmall.2.2⟩, nofun, trivial⟩

theorem parse_tokenize_print_double :
    ∃ tokens rest, tokenize (printText oneBlank doublingProgram.print) = .ok tokens ∧
      Parser.parse tokens = .ok (doublingProgram, rest) :=
  parse_tokenize_print doublingProgram_printable isGap_oneBlank

/-- `mostrar true`, where `true` is a variable. -/
def trueProgram : Program where
  functions := []
  body := [.show (.identifier "true")]

/-- The name is an identifier for the tokenizer and a constant for the parser. -/
theorem true_read_as_constant :
    trueProgram.Printable IsName ∧ (∀ i, IsGap (oneBlank i)) ∧
      ¬ ∃ tokens rest, tokenize (printText oneBlank trueProgram.print) = .ok tokens ∧
        Parser.parse tokens = .ok (trueProgram, rest) := by
  refine ⟨⟨nofun, isName_constant "true" (by decide), nofun, trivial⟩, isGap_oneBlank, ?_⟩
  rintro ⟨tokens, rest, htokens, hparse⟩
  -- the program that is read has no variables
  have hread : ((tokenize (printText oneBlank trueProgram.print)).toOption.bind fun tokens =>
      (Parser.parse tokens).toOption.map fun read => bodyIdentifiers read.1.body) = some [] := by
    decide +kernel
  rw [htokens] at hread
  change ((Parser.parse tokens).toOption.map fun read => bodyIdentifiers read.1.body) = _ at hread
  rw [hparse] at hread
  have hread : some (bodyIdentifiers trueProgram.body) = some [] := hread
  exact absurd hread (by decide)

end GatoCore.Native
