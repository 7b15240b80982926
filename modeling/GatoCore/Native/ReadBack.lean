import GatoCore.Native.Literals
import GatoCore.Native.ParserTotal
import GatoCore.Native.Printed

/-!
# Reading printed programs back

The parser on the lexemes of a printed program. An operand on the left stands at the level of its
operator, so the loop over operators takes up where it ends: the tree grows to the right as it does
under `GoesOn`.
-/

namespace GatoCore.Native

open GatoCore.Lib Lexeme

/-- The test of `at`, on a lexeme. -/
def Lexeme.fits (lexeme : Lexeme) (type : TokenType) (value : Option String) : Bool :=
  lexeme.type = type && value.all fun v => lexeme.value = v

namespace Parser

/-- The reader on tokens that show the lexemes. -/
abbrev Reads {α : Type} (p : ParseM α) (input : List Lexeme) (a : α) (rest : List Lexeme) : Prop :=
  Yields Token.lexeme p input a rest

/-! ## Primitives -/

theorem decide_matches (type : TokenType) (value : Option String) (token : Token) :
    decide (Matches type value token) = token.lexeme.fits type value := by
  rw [Bool.eq_iff_iff, decide_eq_true_eq, Lexeme.fits, Bool.and_eq_true, decide_eq_true_eq]
  apply and_congr_right
  intro _
  cases value with
  | none => exact ⟨fun _ => rfl, fun _ => nofun⟩
  | some v =>
      rw [Option.all_some, decide_eq_true_eq]
      exact ⟨fun h => h v rfl, fun h _ hv => Option.some.inj hv ▸ h⟩

namespace Reads

variable {α β : Type} {type : TokenType} {value : Option String} {ℓ : Lexeme}
  {rest after : List Lexeme} {b : β}

/-- A reader that looks at the first token. -/
theorem of_cons {p : ParseM β}
    (h : ∀ token tokens, token.lexeme = ℓ → tokens.map Token.lexeme = rest →
      ∃ left, p.run (token :: tokens) = .ok (b, left) ∧ left.map Token.lexeme = after) :
    Reads p (ℓ :: rest) b after := by
  intro entries hentries
  obtain ⟨token, tokens, rfl, hhead, htail⟩ := List.map_eq_cons_iff.mp hentries
  exact h token tokens hhead htail

theorem test {f : Bool → ParseM β} (h : Reads (f (ℓ.fits type value)) (ℓ :: rest) b after) :
    Reads (atToken type value >>= f) (ℓ :: rest) b after := by
  refine of_cons ?_
  rintro token tokens rfl rfl
  rw [← decide_matches] at h
  exact h (token :: tokens) rfl

/-- Two tests of one token. -/
theorem test_or {v w : String} {p q : ParseM β}
    (h : Reads (if ℓ.fits type (some v) || ℓ.fits type (some w) then p else q)
    (ℓ :: rest) b after) :
    Reads (do if (← atToken type (some v)) || (← atToken type (some w)) then p else q)
      (ℓ :: rest) b after := .test (.test h)

theorem advance {f : PUnit → ParseM β} (h : Reads (f ⟨⟩) rest b after) :
    Reads (Parser.advance >>= f) (ℓ :: rest) b after := by
  refine of_cons ?_
  rintro token tokens - rfl
  exact h tokens rfl

theorem current {f : Option Token → ParseM β}
    (h : ∀ token : Token, token.lexeme = ℓ → Reads (f (some token)) (ℓ :: rest) b after) :
    Reads (Parser.current >>= f) (ℓ :: rest) b after := by
  refine of_cons ?_
  rintro token tokens rfl rfl
  exact h token rfl (token :: tokens) rfl

theorem peek {next : Lexeme} {f : Option Token → ParseM β}
    (h : ∀ token : Token, token.lexeme = next →
      Reads (f (some token)) (ℓ :: next :: rest) b after) :
    Reads (peekNext >>= f) (ℓ :: next :: rest) b after := by
  refine of_cons ?_
  rintro token tokens rfl htail
  obtain ⟨second, tokens, rfl, hsecond, rfl⟩ := List.map_eq_cons_iff.mp htail
  exact h second hsecond (token :: second :: tokens) (by rw [← hsecond]; rfl)

theorem match_yes {f : Option Token → ParseM β} (hfits : ℓ.fits type value = true)
    (h : ∀ token : Token, token.lexeme = ℓ → Reads (f (some token)) rest b after) :
    Reads (matchToken type value >>= f) (ℓ :: rest) b after := by
  refine of_cons ?_
  rintro token tokens rfl rfl
  rw [← decide_matches, decide_eq_true_eq] at hfits
  rw [StateT.run_bind, matchToken_run, if_pos hfits]
  exact h token rfl tokens rfl

theorem match_no {f : Option Token → ParseM β} (hfits : ℓ.fits type value = false)
    (h : Reads (f none) (ℓ :: rest) b after) :
    Reads (matchToken type value >>= f) (ℓ :: rest) b after := by
  refine of_cons ?_
  rintro token tokens rfl rfl
  rw [← decide_matches, decide_eq_false_iff_not] at hfits
  rw [StateT.run_bind, matchToken_run, if_neg hfits]
  exact h (token :: tokens) rfl

theorem expect {label : Option String} {f : Token → ParseM β} (hfits : ℓ.fits type value = true)
    (h : ∀ token : Token, token.lexeme = ℓ → Reads (f token) rest b after) :
    Reads (Parser.expect type value label >>= f) (ℓ :: rest) b after := by
  refine of_cons ?_
  rintro token tokens rfl rfl
  rw [← decide_matches, decide_eq_true_eq] at hfits
  have hrun : (Parser.expect type value label).run (token :: tokens) = .ok (token, tokens) := by
    show (if Matches type value token then _ else _ : ParseM Token).run _ = _
    rw [if_pos hfits]
    rfl
  rw [StateT.run_bind, hrun]
  exact h token rfl tokens rfl

end Reads

/-! ## Where an expression ends -/

/-- An expression at this level does not go on here: there is neither an operator of the level nor
the parenthesis of a call. -/
def Ends (level : ℕ) (after : List Lexeme) : Prop :=
  ∃ ℓ rest, after = ℓ :: rest ∧ ℓ ≠ punct "(" ∧
    ∀ op : BinaryOp, ℓ = operator op.symbol → op.level < level

theorem precedence_eq_level (op : BinaryOp) : precedence op = op.level := by
  cases op <;> rfl

theorem binaryOp_symbol (op : BinaryOp) : binaryOp op.symbol = some op := by
  cases op <;> rfl

theorem symbol_of_binaryOp {value : String} {op : BinaryOp} (h : binaryOp value = some op) :
    value = op.symbol := by
  unfold binaryOp at h
  split at h
  all_goals cases h
  all_goals rfl

theorem level_lt_unaryLevel (op : BinaryOp) : op.level < unaryLevel := by
  cases op <;> decide

section Ends

variable {level level' : ℕ} {after : List Lexeme}

theorem Ends.mono (h : Ends level after) (hle : level ≤ level') : Ends level' after := by
  obtain ⟨ℓ, rest, hafter, hparen, hop⟩ := h
  exact ⟨ℓ, rest, hafter, hparen, fun op heq => (hop op heq).trans_le hle⟩

theorem Ends.unary (h : Ends level after) : Ends unaryLevel after := by
  obtain ⟨ℓ, rest, hafter, hparen, -⟩ := h
  exact ⟨ℓ, rest, hafter, hparen, fun op _ => level_lt_unaryLevel op⟩

/-- Behind an operand on the left stands its operator. -/
theorem ends_operator {op : BinaryOp} (rest : List Lexeme) :
    Ends (op.level + 1) (operator op.symbol :: rest) := by
  refine ⟨_, rest, rfl, nofun, ?_⟩
  intro op' heq
  have hsymbol : op.symbol = op'.symbol := congrArg Lexeme.value heq
  have hsome := (binaryOp_symbol op).symm.trans (hsymbol ▸ binaryOp_symbol op')
  cases hsome
  exact Nat.lt_succ_self _

theorem ends_punct {symbol : String} (h : symbol ≠ "(") (rest : List Lexeme) :
    Ends level (punct symbol :: rest) :=
  ⟨_, rest, rfl, fun heq => h (congrArg Lexeme.value heq), nofun⟩

theorem ends_keyword (word : String) (rest : List Lexeme) : Ends level (keyword word :: rest) :=
  ⟨_, rest, rfl, nofun, nofun⟩

/-- The loop over calls ends here. -/
theorem Ends.callTurn (h : Ends level after) (parseExpression : ParseM Expr) (fuel : ℕ) (e : Expr) :
    Reads (callTurn parseExpression fuel e) after (e, false) after := by
  obtain ⟨ℓ, rest, rfl, hparen, -⟩ := h
  refine .match_no ?_ (.pure _ _)
  rw [Bool.eq_false_iff]
  intro hfits
  rw [Lexeme.fits, Bool.and_eq_true, decide_eq_true_eq, Option.all_some, decide_eq_true_eq] at hfits
  obtain ⟨type, value⟩ := ℓ
  obtain ⟨rfl, rfl⟩ := hfits
  exact hparen rfl

/-- The loop over operators ends here. -/
theorem Ends.binaryTurn (h : Ends level after) (parseBinary : ℕ → ParseM Expr) (e : Expr) :
    Reads (binaryTurn parseBinary level e) after (e, false) after := by
  obtain ⟨ℓ, rest, rfl, -, hop⟩ := h
  refine .test ?_
  by_cases hfits : ℓ.fits .operator none = true
  · rw [if_pos hfits]
    refine .current ?_
    rintro token rfl
    cases hbinary : binaryOp token.value with
    | none =>
        simp only [Option.bind_some, hbinary]
        exact .pure _ _
    | some op =>
        simp only [Option.bind_some, hbinary]
        have hlexeme : token.lexeme = operator op.symbol := by
          rw [Lexeme.fits, Bool.and_eq_true, decide_eq_true_eq] at hfits
          rw [Token.lexeme, symbol_of_binaryOp hbinary, operator]
          exact congrArg (Lexeme.mk · _) hfits.1
        rw [if_pos (precedence_eq_level op ▸ hop op hlexeme)]
        exact .pure _ _
  · rw [if_neg hfits]
    exact .pure _ _

end Ends

/-! ## Turns -/

theorem reads_binaryTurn {parseBinary : ℕ → ParseM Expr} {bound : ℕ} {op : BinaryOp}
    {l r : Expr} {input after : List Lexeme} (hbound : bound ≤ op.level)
    (hright : Reads (parseBinary (op.level + 1)) input r after) :
    Reads (binaryTurn parseBinary bound l) (operator op.symbol :: input)
      (.binary op l r, true) after := by
  refine .test (.current ?_)
  intro token htoken
  have hvalue : token.value = op.symbol := congrArg Lexeme.value htoken
  have hop : (some token).bind (fun token => binaryOp token.value) = some op := by
    rw [Option.bind_some, hvalue, binaryOp_symbol]
  simp only [hop]
  rw [precedence_eq_level, if_neg (Nat.not_lt.mpr hbound)]
  exact .advance (.bind hright (.pure _ _))

/-- Items with commas between them, in front of something else. -/
theorem reads_items {parseExpression : ParseM Expr} {close : String} {after : List Lexeme}
    (hclose : close ≠ "(") (hcomma : close ≠ ",") : ∀ (es : List Expr) (e : Expr) (acc : List Expr)
    (n : ℕ), (∀ item ∈ e :: es, ∀ rest, Ends 0 rest →
      Reads parseExpression (item.print 0 ++ rest) item rest) → es.length < n →
    Reads (loop .outOfFuel (listTurn parseExpression) n acc)
      (e.print 0 ++ (printMore es ++ punct close :: after)) (acc ++ e :: es)
      (punct close :: after) := by
  intro es
  induction es with
  | nil =>
      intro e acc n hitems hn
      obtain ⟨n, rfl⟩ := Nat.exists_eq_add_one_of_ne_zero (Nat.ne_of_gt (Nat.zero_lt_of_lt hn))
      refine .loop_last (.bind (hitems e List.mem_cons_self _ (ends_punct hclose _)) ?_)
      refine Reads.match_no ?_ (.pure _ _)
      simp [Lexeme.fits, punct, hcomma]
  | cons e' es ih =>
      intro e acc n hitems hn
      obtain ⟨n, rfl⟩ := Nat.exists_eq_add_one_of_ne_zero (Nat.ne_of_gt (Nat.zero_lt_of_lt hn))
      rw [printMore, List.cons_append, List.append_assoc]
      have hends : Ends 0 (punct "," :: (e'.print 0 ++ (printMore es ++ punct close :: after))) :=
        ends_punct (by decide) _
      have hfirst := hitems e List.mem_cons_self _ hends
      have hrest :=
        ih e' (acc ++ [e]) n (fun item hitem => hitems item (List.mem_cons_of_mem _ hitem))
        (Nat.lt_of_succ_lt_succ hn)
      rw [List.append_assoc, List.singleton_append] at hrest
      exact .loop_next (.bind hfirst (Reads.match_yes rfl fun _ _ => .pure _ _)) hrest

/-- A list up to its closing token. -/
theorem reads_parseList {parseExpression : ParseM Expr} {fuel : ℕ} {close : String}
    (hclose : close ≠ "(") (hcomma : close ≠ ",") (label : String) {items : List Expr}
    {after : List Lexeme}
    (hitems : ∀ item ∈ items, (∀ rest, Ends 0 rest →
      Reads parseExpression (item.print 0 ++ rest) item rest) ∧
      ∃ ℓ tail, item.print 0 = ℓ :: tail ∧ ℓ ≠ punct close)
    (hfuel : items.length ≤ fuel) :
    Reads (parseList parseExpression fuel close label) (printItems items ++ punct close :: after)
      items after := by
  have hend : ∀ (found : List Expr), Reads (do
      let _ ← expect .punct (some close) (some label)
      return found) (punct close :: after) found after := by
    intro found
    refine .expect ?_ fun _ _ => .pure _ _
    simp [Lexeme.fits, punct]
  cases items with
  | nil =>
      refine .test ?_
      rw [if_pos (by simp [Lexeme.fits, punct])]
      exact hend []
  | cons e es =>
      obtain ⟨-, ℓ, tail, hprint, hne⟩ := hitems e List.mem_cons_self
      have hread : Reads (do
          let items ← loop .outOfFuel (listTurn parseExpression) fuel []
          let _ ← expect .punct (some close) (some label)
          return items) (e.print 0 ++ (printMore es ++ punct close :: after)) (e :: es) after :=
        .bind (reads_items hclose hcomma es e [] fuel (fun item hitem => (hitems item hitem).1)
          hfuel) (hend (e :: es))
      rw [printItems, List.append_assoc]
      rw [hprint, List.cons_append] at hread ⊢
      refine .test ?_
      rw [if_neg]
      · exact hread
      · intro hfits
        rw [Lexeme.fits, Bool.and_eq_true, decide_eq_true_eq, Option.all_some,
          decide_eq_true_eq] at hfits
        obtain ⟨type, value⟩ := ℓ
        obtain ⟨rfl, rfl⟩ := hfits
        exact hne rfl

theorem reads_callTurn {parseExpression : ParseM Expr} {fuel : ℕ} {callee : Expr}
    {args : List Expr} {input after : List Lexeme}
    (hargs : Reads (parseList parseExpression fuel ")" "')' esperado") input args after) :
    Reads (callTurn parseExpression fuel callee) (punct "(" :: input)
      (.call callee args, true) after :=
  .match_yes rfl fun _ _ => .bind hargs (.pure _ _)

/-! ## Primary expressions -/

section Primary

variable (parseExpression : ParseM Expr) (fuel : ℕ) (rest : List Lexeme)

theorem reads_bool (value : Bool) : Reads (parsePrimary parseExpression fuel)
    (ident (if value then "verdadeiro" else "falso") :: rest) (.bool value) rest := by
  cases value with
  | true => exact .test_or (.advance (.pure _ _))
  | false => exact .test_or (.test_or (.advance (.pure _ _)))

theorem reads_null : Reads (parsePrimary parseExpression fuel) (ident "nulo" :: rest) .null rest :=
  .test_or (.test_or (.test_or (.advance (.pure _ _))))

theorem reads_number (value : String) : Reads (parsePrimary parseExpression fuel)
    (⟨.number, value⟩ :: rest) (.number (numberOf value)) rest := by
  refine .test_or (.test_or (.test_or (.match_yes rfl ?_)))
  intro token htoken
  have hvalue : token.value = value := congrArg Lexeme.value htoken
  exact hvalue ▸ .pure _ _

theorem reads_string (value : String) : Reads (parsePrimary parseExpression fuel)
    (⟨.string, value⟩ :: rest) (.string value) rest := by
  refine .test_or (.test_or (.test_or (.match_no rfl (.match_yes rfl ?_))))
  intro token htoken
  have hvalue : token.value = value := congrArg Lexeme.value htoken
  exact hvalue ▸ .pure _ _

theorem reads_identifier {name : String} (h : name ∉ constantNames) :
    Reads (parsePrimary parseExpression fuel) (ident name :: rest) (.identifier name) rest := by
  have hfits : ∀ word ∈ constantNames, (ident name).fits .identifier (some word) = false := by
    intro word hword
    rw [Lexeme.fits, Option.all_some, Bool.and_eq_false_iff, decide_eq_false_iff_not,
      decide_eq_false_iff_not]
    right
    rintro rfl
    exact h hword
  have hother : ∀ {v w : String} {p q : ParseM Expr}, v ∈ constantNames → w ∈ constantNames →
      Reads q (ident name :: rest) (.identifier name) rest →
      Reads (do
        if (← atToken .identifier (some v)) || (← atToken .identifier (some w)) then p else q)
        (ident name :: rest) (.identifier name) rest := by
    intro v w p q hv hw hq
    refine .test_or ?_
    rw [hfits v hv, hfits w hw]
    exact hq
  refine hother (by decide) (by decide) (hother (by decide) (by decide)
    (hother (by decide) (by decide) ?_))
  refine .match_no rfl (.match_no rfl (.match_yes rfl ?_))
  intro token htoken
  have hvalue : token.value = name := congrArg Lexeme.value htoken
  exact hvalue ▸ .pure _ _

variable {parseExpression} {fuel} {rest}

theorem reads_array {items : List Expr} {input : List Lexeme}
    (hitems : Reads (parseList parseExpression fuel "]" "`]` esperado") input items rest) :
    Reads (parsePrimary parseExpression fuel) (punct "[" :: input) (.array items) rest :=
  .test_or (.test_or (.test_or (.match_no rfl (.match_no rfl (.match_no rfl (.match_yes rfl
    fun _ _ => .bind hitems (.pure _ _)))))))

theorem reads_parenthesized {e : Expr} {input : List Lexeme}
    (he : Reads parseExpression input e (punct ")" :: rest)) :
    Reads (parsePrimary parseExpression fuel) (punct "(" :: input) e rest :=
  .test_or (.test_or (.test_or (.match_no rfl (.match_no rfl (.match_no rfl (.match_no rfl
    (.match_yes rfl fun _ _ => .bind he (Reads.expect rfl fun _ _ => .pure _ _))))))))

end Primary

/-! ## Unary expressions -/

/-- What a primary expression begins with. -/
inductive OpensPrimary : Lexeme → Prop
  | number (value : String) : OpensPrimary ⟨.number, value⟩
  | string (value : String) : OpensPrimary ⟨.string, value⟩
  | name (name : String) : OpensPrimary (ident name)
  | bracket : OpensPrimary (punct "[")
  | paren : OpensPrimary (punct "(")

/-- What an expression begins with. -/
inductive Opens : Lexeme → Prop
  | primary {ℓ : Lexeme} : OpensPrimary ℓ → Opens ℓ
  | neg : Opens (operator "-")
  | not : Opens (operator "!")
  | word {w : String} : w ∈ ["tamanho", "tipo", "identificar", "observar"] → Opens (keyword w)

theorem reads_unaryOperator {parseUnary parsePostfix : ParseM Expr} (op : UnaryOp) {e : Expr}
    {input rest : List Lexeme} (he : Reads parseUnary input e rest) :
    Reads (parseUnaryWith parseUnary parsePostfix) (op.print ++ input) (.unary op e) rest := by
  cases op with
  | neg => exact .match_yes rfl fun _ _ => .bind he (.pure _ _)
  | not => exact .match_no rfl (.match_yes rfl fun _ _ => .bind he (.pure _ _))
  | tamanhoDe =>
      exact .match_no rfl (.match_no rfl (.test (.advance (.expect rfl fun _ _ =>
        .bind he (.pure _ _)))))
  | tipoDe =>
      exact .match_no rfl (.match_no rfl (.test (.test (.advance (.expect rfl fun _ _ =>
        .bind he (.pure _ _))))))
  | identificar =>
      exact .match_no rfl (.match_no rfl (.test (.test (.test (.advance (.bind he (.pure _ _)))))))
  | observar =>
      exact .match_no rfl (.match_no rfl (.test (.test (.test (.test (.advance
        (.bind he (.pure _ _))))))))

theorem reads_postfix {parseUnary parsePostfix : ParseM Expr} {ℓ : Lexeme} (hℓ : OpensPrimary ℓ)
    {e : Expr} {input rest : List Lexeme} (he : Reads parsePostfix (ℓ :: input) e rest) :
    Reads (parseUnaryWith parseUnary parsePostfix) (ℓ :: input) e rest := by
  cases hℓ with
  | number _ | string _ | name _ =>
      exact .match_no rfl (.match_no rfl (.test (.test (.test (.test he)))))
  | bracket | paren =>
      exact .match_no rfl (.match_no rfl (.test (.test (.test (.test he)))))

/-! ## Expressions -/

theorem print_unary_level (op : UnaryOp) (e : Expr) {level : ℕ} (h : level ≤ unaryLevel) :
    (Expr.unary op e).print level = op.print ++ e.print unaryLevel := by
  rw [Expr.print, parenthesize, if_neg]
  simpa using h

theorem print_binary_level (op : BinaryOp) (l r : Expr) {level : ℕ} (h : level ≤ op.level) :
    (Expr.binary op l r).print level =
      l.print op.level ++ operator op.symbol :: r.print (op.level + 1) := by
  rw [Expr.print, parenthesize, if_neg]
  simpa using h

theorem print_binary_parens (op : BinaryOp) (l r : Expr) {level : ℕ} (h : op.level < level) :
    (Expr.binary op l r).print level =
      punct "(" :: ((Expr.binary op l r).print 0 ++ [punct ")"]) := by
  rw [print_binary_level op l r (Nat.zero_le _), Expr.print, parenthesize, if_pos]
  simpa using h

theorem print_unary_parens (op : UnaryOp) (e : Expr) :
    (Expr.unary op e).print calleeLevel =
      punct "(" :: ((Expr.unary op e).print 0 ++ [punct ")"]) := by
  rw [print_unary_level op e (Nat.zero_le _)]
  rfl

/-- The parser reads the expression back, wherever it stands. -/
structure ReadBack (e : Expr) : Prop where
  head : ∃ ℓ tail, e.print calleeLevel = ℓ :: tail ∧ OpensPrimary ℓ
  primary : ∀ (fuel : ℕ) (after : List Lexeme), 5 * (e.print calleeLevel).length ≤ fuel →
    ∃ first mid n, Reads (parsePrimary (parseExpression fuel) fuel)
        (e.print calleeLevel ++ after) first mid ∧
      GoesOn Token.lexeme (callTurn (parseExpression fuel) fuel) first mid n e after ∧
      n < (e.print calleeLevel).length
  unary : ∀ (fuel : ℕ) (after : List Lexeme), Ends unaryLevel after →
    5 * (e.print unaryLevel).length + 2 ≤ fuel →
    Reads (parseUnary fuel) (e.print unaryLevel ++ after) e after
  binary : ∀ (level bound fuel : ℕ) (after : List Lexeme), bound ≤ level → level ≤ unaryLevel →
    Ends (level + 1) after → 5 * (e.print level).length + 2 ≤ fuel →
    ∃ first mid n, Reads (parseUnary fuel) (e.print level ++ after) first mid ∧
      GoesOn Token.lexeme (binaryTurn (fun prec => parseBinary fuel prec) bound) first mid
        n e after ∧
      n < (e.print level).length

namespace ReadBack

variable {e : Expr} {level fuel : ℕ} {after : List Lexeme}

theorem operand (h : ReadBack e) (hlevel : level ≤ unaryLevel) (hends : Ends level after)
    (hfuel : 5 * (e.print level).length + 3 ≤ fuel) :
    Reads (parseBinary fuel level) (e.print level ++ after) e after := by
  obtain ⟨fuel, rfl⟩ := Nat.exists_eq_add_one_of_ne_zero (n := fuel) (by omega)
  obtain ⟨first, mid, n, hfirst, hgoes, hn⟩ :=
    h.binary level level fuel after (Nat.le_refl _) hlevel
    (hends.mono (Nat.le_succ _)) (Nat.le_of_succ_le_succ hfuel)
  exact .bind hfirst (hgoes.stops (hends.binaryTurn _ e) (by omega))

theorem expression (h : ReadBack e) (hends : Ends 0 after)
    (hfuel : 5 * (e.print 0).length + 4 ≤ fuel) :
    Reads (parseExpression fuel) (e.print 0 ++ after) e after := by
  obtain ⟨fuel, rfl⟩ := Nat.exists_eq_add_one_of_ne_zero (n := fuel) (by omega)
  exact h.operand (Nat.zero_le _) hends (Nat.le_of_succ_le_succ hfuel)

end ReadBack

theorem print_opens : ∀ (e : Expr) (level : ℕ), ∃ ℓ tail, e.print level = ℓ :: tail ∧ Opens ℓ
  | .number _, _ => ⟨_, [], rfl, .primary (.number _)⟩
  | .string _, _ => ⟨_, [], rfl, .primary (.string _)⟩
  | .bool _, _ => ⟨_, [], rfl, .primary (.name _)⟩
  | .null, _ => ⟨_, [], rfl, .primary (.name _)⟩
  | .array _, _ => ⟨_, _, rfl, .primary .bracket⟩
  | .identifier _, _ => ⟨_, [], rfl, .primary (.name _)⟩
  | .unary op e, level => by
      rw [Expr.print, parenthesize]
      split
      · exact ⟨_, _, rfl, .primary .paren⟩
      · cases op with
        | neg => exact ⟨_, _, rfl, .neg⟩
        | not => exact ⟨_, _, rfl, .not⟩
        | tamanhoDe | tipoDe | identificar | observar => exact ⟨_, _, rfl, .word (by decide)⟩
  | .binary op l r, level => by
      rw [Expr.print, parenthesize]
      split
      · exact ⟨_, _, rfl, .primary .paren⟩
      · obtain ⟨ℓ, tail, hprint, hopens⟩ := print_opens l op.level
        exact ⟨ℓ, _, by rw [hprint, List.cons_append], hopens⟩
  | .call callee args, level => by
      obtain ⟨ℓ, tail, hprint, hopens⟩ := print_opens callee calleeLevel
      exact ⟨ℓ, _, by rw [Expr.print, hprint, List.cons_append], hopens⟩

theorem length_print_pos (e : Expr) (level : ℕ) : 0 < (e.print level).length := by
  obtain ⟨ℓ, tail, hprint, -⟩ := print_opens e level
  rw [hprint]
  exact Nat.succ_pos _

theorem length_printMore (es : List Expr) : es.length ≤ (printMore es).length ∧
    ∀ e ∈ es, (e.print 0).length ≤ (printMore es).length := by
  induction es with
  | nil => exact ⟨Nat.le_refl _, nofun⟩
  | cons e es ih =>
      simp only [printMore, List.length_cons, List.length_append]
      refine ⟨by omega, ?_⟩
      intro item hitem
      rcases List.mem_cons.mp hitem with rfl | hitem
      · omega
      · have hlen := ih.2 item hitem
        omega

theorem length_printItems (es : List Expr) : es.length ≤ (printItems es).length ∧
    ∀ e ∈ es, (e.print 0).length ≤ (printItems es).length := by
  cases es with
  | nil => exact ⟨Nat.le_refl _, nofun⟩
  | cons e es =>
      have hmore := length_printMore es
      have hpos := length_print_pos e 0
      simp only [printItems, List.length_cons, List.length_append]
      refine ⟨by omega, ?_⟩
      intro item hitem
      rcases List.mem_cons.mp hitem with rfl | hitem
      · omega
      · have hlen := hmore.2 item hitem
        omega

namespace ReadBack

section Primary

variable {e : Expr} (head : ∃ ℓ tail, e.print calleeLevel = ℓ :: tail ∧ OpensPrimary ℓ)
  (primary : ∀ (fuel : ℕ) (after : List Lexeme), 5 * (e.print calleeLevel).length ≤ fuel →
    ∃ first mid n, Reads (parsePrimary (parseExpression fuel) fuel)
        (e.print calleeLevel ++ after) first mid ∧
      GoesOn Token.lexeme (callTurn (parseExpression fuel) fuel) first mid n e after ∧
      n < (e.print calleeLevel).length)
include head primary

theorem unary_of_primary {level fuel : ℕ} {after : List Lexeme} (hends : Ends level after)
    (hfuel : 5 * (e.print calleeLevel).length + 2 ≤ fuel) :
    Reads (parseUnary fuel) (e.print calleeLevel ++ after) e after := by
  obtain ⟨fuel, rfl⟩ := Nat.exists_eq_add_of_le' (show 2 ≤ fuel by omega)
  obtain ⟨ℓ, tail, hprint, hopens⟩ := head
  obtain ⟨first, mid, n, hfirst, hgoes, hn⟩ := primary fuel after (by omega)
  have hpostfix : Reads (parsePostfix (fuel + 1)) (e.print calleeLevel ++ after) e after :=
    .bind hfirst (hgoes.stops (hends.callTurn _ fuel e) (by omega))
  rw [hprint, List.cons_append] at hpostfix ⊢
  exact reads_postfix hopens hpostfix

/-- An expression that no operator stands in front of. -/
theorem of_primary (hprint : ∀ level ≤ unaryLevel, e.print level = e.print calleeLevel) :
    ReadBack e where
  head := head
  primary := primary
  unary fuel after hends hfuel := by
    rw [hprint _ (Nat.le_refl _)] at hfuel ⊢
    exact unary_of_primary head primary hends hfuel
  binary level bound fuel after _ hlevel hends hfuel := by
    rw [hprint level hlevel] at hfuel ⊢
    exact ⟨e, after, 0, unary_of_primary head primary hends hfuel, .start,
      (length_print_pos e _)⟩

end Primary

/-- One token. -/
theorem of_token {e : Expr} {ℓ : Lexeme} (hprint : ∀ level, e.print level = [ℓ])
    (hopens : OpensPrimary ℓ)
    (hreads : ∀ (p : ParseM Expr) (fuel : ℕ) (after : List Lexeme),
      Reads (parsePrimary p fuel) (ℓ :: after) e after) : ReadBack e := by
  refine of_primary ⟨ℓ, [], hprint _, hopens⟩ ?_ fun level _ => by rw [hprint, hprint]
  intro fuel after _
  rw [hprint]
  exact ⟨e, after, 0, hreads _ fuel after, .start, Nat.zero_lt_one⟩

section Lists

variable {items : List Expr} (hitems : ∀ item ∈ items, ReadBack item)
include hitems

theorem list {fuel : ℕ} {close : String} (hclose : close ∈ [")", "]"]) (label : String)
    (hfuel : 5 * (printItems items).length + 4 ≤ fuel) (after : List Lexeme) :
    Reads (parseList (parseExpression fuel) fuel close label)
      (printItems items ++ punct close :: after) items after := by
  obtain ⟨hlength, hprint⟩ := length_printItems items
  have hparen : close ≠ "(" := by
    rintro rfl
    exact absurd hclose (by decide)
  have hcomma : close ≠ "," := by
    rintro rfl
    exact absurd hclose (by decide)
  refine reads_parseList hparen hcomma label ?_ (by omega)
  intro item hitem
  have hle := hprint item hitem
  refine ⟨fun rest hends => (hitems item hitem).expression hends (by omega), ?_⟩
  obtain ⟨ℓ, tail, hhead, hopens⟩ := print_opens item 0
  refine ⟨ℓ, tail, hhead, ?_⟩
  rintro rfl
  cases hopens with
  | primary hopens =>
      cases hopens
      all_goals exact absurd hclose (by decide)

theorem array : ReadBack (.array items) := by
  refine of_primary ⟨_, _, rfl, .bracket⟩ ?_ fun _ _ => rfl
  intro fuel after hfuel
  simp only [Expr.print, List.length_cons, List.length_append, List.length_nil] at hfuel ⊢
  refine ⟨.array items, after, 0, ?_, .start, Nat.succ_pos _⟩
  rw [List.cons_append, List.append_assoc]
  exact reads_array (list hitems (by decide) _ (by omega) after)

theorem call {callee : Expr} (hcallee : ReadBack callee) : ReadBack (.call callee items) := by
  have hhead : ∃ ℓ tail, (Expr.call callee items).print calleeLevel = ℓ :: tail ∧
      OpensPrimary ℓ := by
    obtain ⟨ℓ, tail, hprint, hopens⟩ := hcallee.head
    exact ⟨ℓ, _, by rw [Expr.print, hprint, List.cons_append], hopens⟩
  refine of_primary hhead ?_ fun _ _ => rfl
  intro fuel after hfuel
  simp only [Expr.print, List.length_cons, List.length_append, List.length_nil] at hfuel ⊢
  obtain ⟨first, mid, n, hfirst, hgoes, hn⟩ := hcallee.primary fuel
    (punct "(" :: (printItems items ++ punct ")" :: after)) (by omega)
  have hargs : Reads (parseList (parseExpression fuel) fuel ")" "')' esperado")
      (printItems items ++ punct ")" :: after) items after :=
    list hitems (by decide) _ (by omega) after
  refine ⟨first, mid, n + 1, ?_, .turn hgoes (reads_callTurn hargs), by omega⟩
  rw [List.append_assoc, List.cons_append, List.append_assoc]
  exact hfirst

end Lists

/-- In parentheses. -/
theorem primary_of_parens {e : Expr} (hprint : e.print calleeLevel = punct "(" :: (e.print 0 ++
    [punct ")"])) (hread : ∀ (fuel : ℕ) (after : List Lexeme), Ends 0 after →
      5 * (e.print 0).length + 4 ≤ fuel →
      Reads (parseExpression fuel) (e.print 0 ++ after) e after) :
    ∀ (fuel : ℕ) (after : List Lexeme), 5 * (e.print calleeLevel).length ≤ fuel →
      ∃ first mid n, Reads (parsePrimary (parseExpression fuel) fuel)
          (e.print calleeLevel ++ after) first mid ∧
        GoesOn Token.lexeme (callTurn (parseExpression fuel) fuel) first mid n e after ∧
        n < (e.print calleeLevel).length := by
  intro fuel after hfuel
  rw [hprint] at hfuel ⊢
  simp only [List.length_cons, List.length_append, List.length_nil] at hfuel
  refine ⟨e, after, 0, ?_, .start, Nat.succ_pos _⟩
  rw [List.cons_append, List.append_assoc]
  exact reads_parenthesized (hread fuel _ (ends_punct (by decide) _) (by omega))

theorem unaryOperator {e : Expr} (op : UnaryOp) (h : ReadBack e) : ReadBack (.unary op e) := by
  have hpos : 0 < op.print.length := by cases op <;> decide
  have hunary : ∀ (fuel : ℕ) (after : List Lexeme), Ends unaryLevel after →
      5 * (op.print ++ e.print unaryLevel).length + 2 ≤ fuel →
      Reads (parseUnary fuel) ((op.print ++ e.print unaryLevel) ++ after) (.unary op e) after := by
    intro fuel after hends hfuel
    rw [List.length_append] at hfuel
    obtain ⟨fuel, rfl⟩ := Nat.exists_eq_add_one_of_ne_zero (n := fuel) (by omega)
    rw [List.append_assoc]
    exact reads_unaryOperator op (h.unary fuel after hends (by omega))
  have hexpr : ∀ (fuel : ℕ) (after : List Lexeme), Ends 0 after →
      5 * ((Expr.unary op e).print 0).length + 4 ≤ fuel →
      Reads (parseExpression fuel) ((Expr.unary op e).print 0 ++ after) (.unary op e) after := by
    intro fuel after hends hfuel
    rw [print_unary_level op e (Nat.zero_le _)] at hfuel ⊢
    obtain ⟨fuel, rfl⟩ := Nat.exists_eq_add_of_le' (show 2 ≤ fuel by omega)
    obtain ⟨fuel, rfl⟩ := Nat.exists_eq_add_one_of_ne_zero (n := fuel) (by omega)
    exact .bind (hunary (fuel + 1) after hends.unary (by omega)) (.loop_last (hends.binaryTurn _ _))
  refine ⟨⟨_, _, print_unary_parens op e, .paren⟩, primary_of_parens (print_unary_parens op e)
    hexpr,
    ?_, ?_⟩
  · rw [print_unary_level op e (Nat.le_refl _)]
    exact hunary
  · intro level bound fuel after _ hlevel hends hfuel
    rw [print_unary_level op e hlevel] at hfuel ⊢
    refine ⟨_, after, 0, hunary fuel after hends.unary hfuel, .start, ?_⟩
    rw [List.length_append]
    omega

theorem binaryOperator {l r : Expr} (op : BinaryOp) (hl : ReadBack l) (hr : ReadBack r) :
    ReadBack (.binary op l r) := by
  have hlt := level_lt_unaryLevel op
  -- without parentheses, from the reading of the left operand
  have hplain : ∀ (level bound fuel : ℕ) (after : List Lexeme), level ≤ op.level → bound ≤ level →
      Ends (level + 1) after → 5 * ((Expr.binary op l r).print level).length + 2 ≤ fuel →
      ∃ first mid n, Reads (parseUnary fuel) ((Expr.binary op l r).print level ++ after) first mid ∧
        GoesOn Token.lexeme (binaryTurn (fun prec => parseBinary fuel prec) bound) first mid n
          (.binary op l r) after ∧ n < ((Expr.binary op l r).print level).length := by
    intro level bound fuel after hlevel hbound hends hfuel
    rw [print_binary_level op l r hlevel, List.length_append, List.length_cons] at hfuel
    rw [print_binary_level op l r hlevel, List.length_append, List.length_cons, List.append_assoc,
      List.cons_append]
    obtain ⟨first, mid, n, hfirst, hgoes, hn⟩ := hl.binary op.level bound fuel
      (operator op.symbol :: (r.print (op.level + 1) ++ after)) (hbound.trans hlevel) hlt.le
      (ends_operator _) (by omega)
    have hright :
        Reads (parseBinary fuel (op.level + 1)) (r.print (op.level + 1) ++ after) r after :=
      hr.operand hlt (hends.mono (Nat.succ_le_succ hlevel)) (by omega)
    exact ⟨first, mid, n + 1, hfirst,
      .turn hgoes (reads_binaryTurn (hbound.trans hlevel) hright), by omega⟩
  have hexpr : ∀ (fuel : ℕ) (after : List Lexeme), Ends 0 after →
      5 * ((Expr.binary op l r).print 0).length + 4 ≤ fuel →
      Reads (parseExpression fuel) ((Expr.binary op l r).print 0 ++ after) (.binary op l r)
          after := by
    intro fuel after hends hfuel
    obtain ⟨fuel, rfl⟩ := Nat.exists_eq_add_of_le' (show 2 ≤ fuel by omega)
    obtain ⟨first, mid, n, hfirst, hgoes, hn⟩ :=
      hplain 0 0 fuel after (Nat.zero_le _) (Nat.le_refl _)
      (hends.mono (Nat.zero_le _)) (by omega)
    exact .bind hfirst (hgoes.stops (hends.binaryTurn _ _) (by omega))
  have hparens : (Expr.binary op l r).print calleeLevel = _ :=
    print_binary_parens op l r (hlt.trans (by decide))
  have hhead : ∃ ℓ tail, (Expr.binary op l r).print calleeLevel = ℓ :: tail ∧ OpensPrimary ℓ :=
    ⟨_, _, hparens, .paren⟩
  have hprimary := primary_of_parens hparens hexpr
  refine ⟨hhead, hprimary, ?_, ?_⟩
  · intro fuel after hends hfuel
    rw [print_binary_parens op l r hlt, ← hparens] at hfuel ⊢
    exact unary_of_primary hhead hprimary hends hfuel
  · intro level bound fuel after hbound _ hends hfuel
    rcases Nat.lt_or_ge op.level level with hlevel | hlevel
    · rw [print_binary_parens op l r hlevel, ← hparens] at hfuel ⊢
      exact ⟨_, after, 0, unary_of_primary hhead hprimary hends hfuel, .start,
        length_print_pos _ _⟩
    · exact hplain level bound fuel after hlevel hbound hends hfuel

end ReadBack

/-- What `parsePrimary` takes for a variable. -/
def IsVariable (name : String) : Prop := IsName name ∧ name ∉ constantNames

mutual
/-- Every expression is read back. -/
theorem Expr.readBack : ∀ {e : Expr}, e.Printable IsVariable → ReadBack e
  | .number value, h => by
      refine .of_token (fun _ => rfl) (.number _) ?_
      intro p fuel after
      have hread := reads_number p fuel after (String.ofList (Nat.toDigits 10 value))
      rwa [numberOf_ofList, decimalValue, Nat.ofDigitChars_ten_toDigits,
        Binary64.nearest_of_lt h] at hread
  | .string value, _ =>
      .of_token (fun _ => rfl) (.string _) fun p fuel after => reads_string p fuel after value
  | .bool value, _ =>
      .of_token (fun _ => rfl) (.name _) fun p fuel after => reads_bool p fuel after value
  | .null, _ => .of_token (fun _ => rfl) (.name _) fun p fuel after => reads_null p fuel after
  | .identifier name, h =>
      .of_token (fun _ => rfl) (.name _) fun p fuel after => reads_identifier p fuel after h.2
  | .array items, h => .array (itemsReadBack h)
  | .unary op e, h => .unaryOperator op (Expr.readBack h)
  | .binary op l r, h => .binaryOperator op (Expr.readBack h.1) (Expr.readBack h.2)
  | .call callee args, h => .call (itemsReadBack h.2) (Expr.readBack h.1)

theorem itemsReadBack : ∀ {items : List Expr}, ItemsPrintable IsVariable items →
    ∀ item ∈ items, ReadBack item
  | [], _, item, hitem => nomatch hitem
  | e :: es, h, item, hitem => by
      rcases List.mem_cons.mp hitem with heq | hitem
      · exact heq ▸ Expr.readBack h.1
      · exact itemsReadBack h.2 item hitem
end

end Parser

end GatoCore.Native
