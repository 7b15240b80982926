import GatoCore.Native.Parser

/-!
# The parser always answers

On tokens that end in their only `eof` the parser reports an error or gets to that `eof`: no token
past it is read, and the bound on calls and turns is never met, since every turn of a loop that
goes on takes a token away.
-/

namespace GatoCore.Native

open GatoCore.Lib

namespace Parser

/-- The last token, and no other, is an `eof`. -/
inductive EndsInEof : List Token → Prop
  | eof {e : Token} : e.type = .eof → EndsInEof [e]
  | cons {token : Token} {tokens : List Token} : token.type ≠ .eof → EndsInEof tokens →
      EndsInEof (token :: tokens)

/-- A parse error. -/
def IsError (e : ParseFailure) : Prop := ∃ message, e = .fatal message

/-- The parser reports an error, or leaves at most `limit` tokens. -/
def Within {α : Type} (limit : ℕ) (p : ParseM α) (input : List Token) : Prop :=
  Meets p input IsError fun _ rest => EndsInEof rest ∧ rest.length ≤ limit

/-- On every input up to a length, the parser takes a token. -/
def Consumes {α : Type} (p : ParseM α) (bound : ℕ) : Prop :=
  ∀ input, EndsInEof input → input.length ≤ bound → Within (input.length - 1) p input

/-- A turn of a loop that goes on takes a token. -/
def TurnsOn {σ : Type} (turn : ParseM (σ × Bool)) (input : List Token) : Prop :=
  Meets turn input IsError fun r rest =>
    EndsInEof rest ∧ rest.length ≤ input.length ∧ (r.2 = true → rest.length < input.length)

theorem EndsInEof.exists_head {input : List Token} (h : EndsInEof input) :
    ∃ token tokens, input = token :: tokens := by
  cases h with
  | eof _ => exact ⟨_, _, rfl⟩
  | cons _ _ => exact ⟨_, _, rfl⟩

theorem EndsInEof.length_pos {input : List Token} (h : EndsInEof input) : 0 < input.length := by
  cases h with
  | eof _ => exact Nat.zero_lt_one
  | cons _ _ => exact Nat.succ_pos _

/-! ## Primitives -/

section Rules

variable {α β : Type} {p : ParseM α} {f : α → ParseM β} {input : List Token} {limit mid : ℕ}

theorem Within.pure {a : α} (h : EndsInEof input) (hle : input.length ≤ limit) :
    Within limit (pure a) input := Meets.pure ⟨h, hle⟩

theorem Within.bind (hp : Within mid p input)
    (hf : ∀ a rest, EndsInEof rest → rest.length ≤ mid → Within limit (f a) rest) :
    Within limit (p >>= f) input :=
  Meets.bind hp fun a rest h => hf a rest h.1 h.2

theorem Within.mono (hp : Within mid p input) (h : mid ≤ limit) : Within limit p input :=
  Meets.mono hp fun _ _ hrest => ⟨hrest.1, Nat.le_trans hrest.2 h⟩

variable {failure : ParseFailure → Prop} {post : β → List Token → Prop} {type : TokenType}
  {value : Option String} {token : Token} {tokens : List Token}

theorem meets_at {f : Bool → ParseM β}
    (h : Meets (f (decide (Matches type value token))) (token :: tokens) failure post) :
    Meets (atToken type value >>= f) (token :: tokens) failure post := h

theorem meets_advance {f : PUnit → ParseM β} (h : Meets (f ⟨⟩) tokens failure post) :
    Meets (advance >>= f) (token :: tokens) failure post := h

theorem meets_current {f : Option Token → ParseM β}
    (h : Meets (f (some token)) (token :: tokens) failure post) :
    Meets (current >>= f) (token :: tokens) failure post := h

theorem meets_peek {next : Token} {f : Option Token → ParseM β}
    (h : Meets (f (some next)) (token :: next :: tokens) failure post) :
    Meets (peekNext >>= f) (token :: next :: tokens) failure post := h

theorem matchToken_run : (matchToken type value).run (token :: tokens) =
    if Matches type value token then .ok (some token, tokens) else .ok (none, token :: tokens) := by
  have hrun : (matchToken type value).run (token :: tokens) =
      (if decide (Matches type value token) = true then (do
        let token ← current
        advance
        return token) else return none : ParseM (Option Token)).run (token :: tokens) := rfl
  rw [hrun]
  split
  next h => rw [if_pos (of_decide_eq_true h)]; rfl
  next h => rw [if_neg fun hm => h (decide_eq_true hm)]; rfl

theorem meets_match {f : Option Token → ParseM β}
    (hyes : Matches type value token → Meets (f (some token)) tokens failure post)
    (hno : ¬ Matches type value token → Meets (f none) (token :: tokens) failure post) :
    Meets (matchToken type value >>= f) (token :: tokens) failure post := by
  unfold Meets
  rw [StateT.run_bind, matchToken_run]
  by_cases hm : Matches type value token
  · rw [if_pos hm]
    exact hyes hm
  · rw [if_neg hm]
    exact hno hm

end Rules

/-- A token of another type is not the last one. -/
theorem EndsInEof.tail {token : Token} {tokens : List Token} (h : EndsInEof (token :: tokens))
    {type : TokenType} {value : Option String} (hm : Matches type value token)
    (htype : type ≠ .eof) : EndsInEof tokens := by
  cases h with
  | eof he => exact absurd (hm.1.symm.trans he) htype
  | cons _ htail => exact htail

theorem fail_within {α : Type} {input : List Token} (h : EndsInEof input) (message : String)
    (limit : ℕ) : Within limit (fail message : ParseM α) input := by
  cases h with
  | eof _ => exact ⟨_, rfl⟩
  | cons _ _ => exact ⟨_, rfl⟩

theorem expect_within {input : List Token} (h : EndsInEof input) {type : TokenType}
    (htype : type ≠ .eof) (value label : Option String) :
    Within (input.length - 1) (expect type value label) input := by
  obtain ⟨token, tokens, rfl⟩ := h.exists_head
  refine meets_current ?_
  show Meets (if Matches type value token then _ else _) _ _ _
  split
  next hm => exact ⟨h.tail hm htype, Nat.le_refl _⟩
  next hm => exact fail_within h _ _

/-! ## Expressions -/

section Expressions

variable {parseExpression : ParseM Expr} {bound : ℕ} (hexpr : Consumes parseExpression bound)
include hexpr

theorem listTurn_turnsOn (items : List Expr) {input : List Token} (h : EndsInEof input)
    (hle : input.length ≤ bound) :
    Meets (listTurn parseExpression items) input IsError fun _ rest =>
      EndsInEof rest ∧ rest.length < input.length := by
  have hpos := h.length_pos
  refine Meets.bind (hexpr input h hle) ?_
  rintro item rest ⟨hrest, hlen⟩
  cases hrest with
  | eof he =>
      refine meets_match (fun hm => absurd (hm.1.symm.trans he) (by decide)) fun _ => ?_
      exact Meets.pure ⟨.eof he, by omega⟩
  | cons hne htail =>
      refine meets_match (fun _ => ?_) fun _ => ?_
      · exact Meets.pure ⟨htail, by rw [List.length_cons] at hlen; omega⟩
      · exact Meets.pure ⟨.cons hne htail, by omega⟩

theorem parseList_within {fuel : ℕ} (hfuel : bound < fuel) {input : List Token}
    (h : EndsInEof input) (hle : input.length ≤ bound) (close label : String) :
    Within (input.length - 1) (parseList parseExpression fuel close label) input := by
  have hclose : ∀ {rest : List Token} {items : List Expr}, EndsInEof rest →
      rest.length ≤ input.length → Within (input.length - 1) (do
        let _ ← expect .punct (some close) (some label)
        return items) rest := by
    intro rest items hrest hlen
    refine (expect_within hrest (by decide) _ _).bind fun _ rest' hrest' hlen' => ?_
    exact Within.pure hrest' (by omega)
  have hitems : Within (input.length - 1) (do
      let items ← loop .outOfFuel (listTurn parseExpression) fuel []
      let _ ← expect .punct (some close) (some label)
      return items) input := by
    refine Meets.bind (loop_meets (fun rest => EndsInEof rest ∧ rest.length ≤ input.length)
      ?_ fuel [] input ⟨h, Nat.le_refl _⟩ (by omega)) ?_
    · rintro items rest ⟨hrest, hlen⟩
      refine (listTurn_turnsOn hexpr items hrest (by omega)).mono ?_
      rintro r rest' ⟨hrest', hlt⟩
      exact ⟨⟨hrest', by omega⟩, fun _ => hlt⟩
    · rintro items rest ⟨hrest, hlen⟩
      exact hclose hrest hlen
  obtain ⟨token, tokens, rfl⟩ := h.exists_head
  refine meets_at ?_
  split
  · exact hclose h (Nat.le_refl _)
  · exact hitems

theorem callTurn_turnsOn {fuel : ℕ} (hfuel : bound < fuel) (expr : Expr) {input : List Token}
    (h : EndsInEof input) (hle : input.length ≤ bound + 1) :
    TurnsOn (callTurn parseExpression fuel expr) input := by
  obtain ⟨token, tokens, rfl⟩ := h.exists_head
  rw [List.length_cons] at hle
  refine meets_match (fun hm => ?_) fun _ => ?_
  · have htail := h.tail hm (by decide)
    have hpos := htail.length_pos
    refine Meets.bind (parseList_within hexpr hfuel htail (by omega) _ _) ?_
    rintro args rest ⟨hrest, hlen⟩
    refine Meets.pure ⟨hrest, ?_, fun _ => ?_⟩
    · rw [List.length_cons]
      omega
    · rw [List.length_cons]
      omega
  · exact Meets.pure ⟨h, Nat.le_refl _, fun hagain => absurd hagain (by simp)⟩

theorem parsePrimary_within {fuel : ℕ} (hfuel : bound < fuel) {input : List Token}
    (h : EndsInEof input) (hle : input.length ≤ bound + 1) :
    Within (input.length - 1) (parsePrimary parseExpression fuel) input := by
  obtain ⟨token, tokens, rfl⟩ := h.exists_head
  rw [List.length_cons] at hle ⊢
  -- a token that is not the last one is taken, and something made of it
  have htaken : ∀ {α : Type} {type : TokenType} {value : Option String} (a : α),
      Matches type value token → type ≠ .eof → Within (tokens.length + 1 - 1) (pure a) tokens :=
    fun a hm htype => Within.pure (h.tail hm htype) (Nat.le_refl _)
  have hword : ∀ {type : TokenType} {v w : String} {e : Expr} {p : ParseM Expr}, type ≠ .eof →
      Within (tokens.length + 1 - 1) p (token :: tokens) →
      Within (tokens.length + 1 - 1) (if (decide (Matches type (some v) token) ||
        decide (Matches type (some w) token)) = true then (do advance; return e) else p)
        (token :: tokens) := by
    intro type v w e p htype hp
    split
    next hm =>
      rcases Bool.or_eq_true _ _ ▸ hm with hm | hm
      · exact meets_advance (htaken e (of_decide_eq_true hm) htype)
      · exact meets_advance (htaken e (of_decide_eq_true hm) htype)
    next => exact hp
  refine meets_at (meets_at (hword (by decide) ?_))
  refine meets_at (meets_at (hword (by decide) ?_))
  refine meets_at (meets_at (hword (by decide) ?_))
  refine meets_match (fun hm => htaken _ hm (by decide)) fun _ => ?_
  refine meets_match (fun hm => htaken _ hm (by decide)) fun _ => ?_
  refine meets_match (fun hm => htaken _ hm (by decide)) fun _ => ?_
  refine meets_match (fun hm => ?_) fun _ => ?_
  · refine (parseList_within hexpr hfuel (h.tail hm (by decide)) (by omega) _ _).bind ?_
    intro items rest hrest hlen
    exact Within.pure hrest (by omega)
  refine meets_match (fun hm => ?_) fun _ => ?_
  · refine (hexpr tokens (h.tail hm (by decide)) (by omega)).bind ?_
    intro expr rest hrest hlen
    refine (expect_within hrest (by decide) _ _).bind ?_
    intro _ rest' hrest' hlen'
    exact Within.pure hrest' (by omega)
  · exact fail_within h _ _

end Expressions

theorem parseUnaryWith_within {parseUnary parsePostfix : ParseM Expr} {input : List Token}
    (h : EndsInEof input)
    (hunary : ∀ rest, EndsInEof rest → rest.length < input.length →
      Within (rest.length - 1) parseUnary rest)
    (hprimary : Within (input.length - 1) parsePostfix input) :
    Within (input.length - 1) (parseUnaryWith parseUnary parsePostfix) input := by
  obtain ⟨token, tokens, rfl⟩ := h.exists_head
  rw [List.length_cons] at hunary hprimary ⊢
  -- the operand of an operator
  have hoperand : ∀ (op : UnaryOp) {rest : List Token}, EndsInEof rest →
      rest.length ≤ tokens.length → Within (tokens.length + 1 - 1)
        (do return Expr.unary op (← parseUnary)) rest := by
    intro op rest hrest hlen
    refine (hunary rest hrest (by omega)).bind ?_
    intro expr rest' hrest' hlen'
    exact Within.pure hrest' (by omega)
  -- an operator of two words
  have hde : ∀ {type : TokenType} {value : Option String} (op : UnaryOp) (label : Option String),
      Matches type value token → type ≠ .eof → Within (tokens.length + 1 - 1) (do
        let _ ← expect .keyword (some "de") label
        return Expr.unary op (← parseUnary)) tokens := by
    intro type value op label hm htype
    refine (expect_within (h.tail hm htype) (by decide) _ _).bind ?_
    intro _ rest hrest hlen
    exact hoperand op hrest (by omega)
  refine meets_match (fun hm => hoperand _ (h.tail hm (by decide)) (Nat.le_refl _)) fun _ => ?_
  refine meets_match (fun hm => hoperand _ (h.tail hm (by decide)) (Nat.le_refl _)) fun _ => ?_
  refine meets_at ?_
  split
  next hm => exact meets_advance (hde .tamanhoDe _ (of_decide_eq_true hm) (by decide))
  refine meets_at ?_
  split
  next hm => exact meets_advance (hde .tipoDe _ (of_decide_eq_true hm) (by decide))
  refine meets_at ?_
  split
  next hm =>
    exact meets_advance (hoperand _ (h.tail (of_decide_eq_true hm) (by decide)) (Nat.le_refl _))
  refine meets_at ?_
  split
  next hm =>
    exact meets_advance (hoperand _ (h.tail (of_decide_eq_true hm) (by decide)) (Nat.le_refl _))
  exact hprimary

theorem binaryTurn_turnsOn {parseBinary : ℕ → ParseM Expr} {input : List Token}
    (h : EndsInEof input)
    (hright : ∀ prec rest, EndsInEof rest → rest.length < input.length →
      Within (rest.length - 1) (parseBinary prec) rest) (minPrec : ℕ) (left : Expr) :
    TurnsOn (binaryTurn parseBinary minPrec left) input := by
  obtain ⟨token, tokens, rfl⟩ := h.exists_head
  have hstop : TurnsOn (pure (left, false) : ParseM (Expr × Bool)) (token :: tokens) :=
    Meets.pure ⟨h, Nat.le_refl _, fun hagain => absurd hagain (by simp)⟩
  refine meets_at ?_
  split
  next hm =>
    refine meets_current ?_
    split
    · exact hstop
    next op _ =>
      split
      · exact hstop
      · have htail := h.tail (of_decide_eq_true hm) (by decide)
        refine meets_advance (Meets.bind (hright _ tokens htail (Nat.lt_succ_self _)) ?_)
        rintro right rest ⟨hrest, hlen⟩
        refine Meets.pure ⟨hrest, ?_, fun _ => ?_⟩
        · rw [List.length_cons]
          omega
        · rw [List.length_cons]
          omega
  next => exact hstop

/-- One case for each function; the bound goes down with every call, the tokens with some. -/
theorem expressions_within (fuel : ℕ) : ∀ input, EndsInEof input →
    (5 * input.length + 5 ≤ fuel → Within (input.length - 1) (parseExpression fuel) input) ∧
    (5 * input.length + 4 ≤ fuel → ∀ minPrec,
      Within (input.length - 1) (parseBinary fuel minPrec) input) ∧
    (5 * input.length + 3 ≤ fuel → Within (input.length - 1) (parseUnary fuel) input) ∧
    (5 * input.length + 2 ≤ fuel → Within (input.length - 1) (parsePostfix fuel) input) := by
  induction fuel with
  | zero =>
      intro input h
      refine ⟨fun hle => ?_, fun hle => ?_, fun hle => ?_, fun hle => ?_⟩
      all_goals omega
  | succ fuel ih =>
      intro input h
      have hpos := h.length_pos
      have hexpr : 5 * input.length + 2 ≤ fuel + 1 →
          Consumes (parseExpression fuel) (input.length - 1) :=
        fun hle rest hrest hlen => (ih rest hrest).1 (by omega)
      refine ⟨fun hle => ?_, fun hle => ?_, fun hle => ?_, fun hle => ?_⟩
      · rw [parseExpression]
        exact (ih input h).2.1 (by omega) 0
      · intro minPrec
        rw [parseBinary]
        refine ((ih input h).2.2.1 (by omega)).bind ?_
        intro left rest hrest hlen
        refine loop_meets (fun rest => EndsInEof rest ∧ rest.length ≤ input.length - 1)
          ?_ fuel left rest ⟨hrest, hlen⟩ (by omega)
        rintro left rest ⟨hrest, hlen⟩
        refine (binaryTurn_turnsOn hrest (fun prec r hr hlt => ?_) minPrec left).mono ?_
        · exact (ih r hr).2.1 (by omega) prec
        · rintro r rest' ⟨hrest', hlen', hagain⟩
          exact ⟨⟨hrest', by omega⟩, hagain⟩
      · rw [parseUnary]
        refine parseUnaryWith_within h (fun rest hrest hlt => ?_) ?_
        · exact (ih rest hrest).2.2.1 (by omega)
        · exact (ih input h).2.2.2 (by omega)
      · rw [parsePostfix]
        refine (parsePrimary_within (hexpr hle) (by omega) h (by omega)).bind ?_
        intro expr rest hrest hlen
        refine loop_meets (fun rest => EndsInEof rest ∧ rest.length ≤ input.length - 1)
          ?_ fuel expr rest ⟨hrest, hlen⟩ (by omega)
        rintro expr rest ⟨hrest, hlen⟩
        refine (callTurn_turnsOn (hexpr hle) (by omega) expr hrest (by omega)).mono ?_
        rintro r rest' ⟨hrest', hlen', hagain⟩
        exact ⟨⟨hrest', by omega⟩, hagain⟩

theorem parseExpression_consumes {fuel bound : ℕ} (hle : 5 * bound + 5 ≤ fuel) :
    Consumes (parseExpression fuel) bound :=
  fun input h hlen => (expressions_within fuel input h).1 (by omega)

/-! ## Statements -/

section Statements

variable {parseExpression : ParseM Expr} {bound : ℕ} (hexpr : Consumes parseExpression bound)
  {parseBlock : List String → ParseM (List Stmt)} {input : List Token} (h : EndsInEof input)
  (hle : input.length ≤ bound)
  (hblock : ∀ terminators rest, EndsInEof rest → rest.length < input.length →
    Within rest.length (parseBlock terminators) rest)

section Plain

include hexpr h hle

theorem parseDefine_within : Within (input.length - 1) (parseDefine parseExpression) input := by
  have hpos := h.length_pos
  refine (expect_within h (by decide) _ _).bind fun _ r₁ h₁ hl₁ => ?_
  refine (expect_within h₁ (by decide) _ _).bind fun name r₂ h₂ hl₂ => ?_
  refine (expect_within h₂ (by decide) _ _).bind fun _ r₃ h₃ hl₃ => ?_
  refine (hexpr r₃ h₃ (by omega)).bind fun expr r₄ h₄ hl₄ => ?_
  exact Within.pure h₄ (by omega)

theorem parseAssign_within : Within (input.length - 1) (parseAssign parseExpression) input := by
  refine (expect_within h (by decide) _ _).bind fun name r₁ h₁ hl₁ => ?_
  refine (expect_within h₁ (by decide) _ _).bind fun _ r₂ h₂ hl₂ => ?_
  refine (hexpr r₂ h₂ (by omega)).bind fun expr r₃ h₃ hl₃ => ?_
  exact Within.pure h₃ (by omega)

theorem parseShow_within : Within (input.length - 1) (parseShow parseExpression) input := by
  refine (expect_within h (by decide) _ _).bind fun _ r₁ h₁ hl₁ => ?_
  refine (hexpr r₁ h₁ (by omega)).bind fun expr r₂ h₂ hl₂ => ?_
  exact Within.pure h₂ (by omega)

theorem parseReturn_within : Within (input.length - 1) (parseReturn parseExpression) input := by
  refine (expect_within h (by decide) _ _).bind fun _ r₁ h₁ hl₁ => ?_
  obtain ⟨token, tokens, rfl⟩ := h₁.exists_head
  refine meets_at (meets_at (meets_at ?_))
  split
  · exact Within.pure h₁ hl₁
  · refine (hexpr _ h₁ (by omega)).bind fun expr r₂ h₂ hl₂ => ?_
    exact Within.pure h₂ (by omega)

end Plain

include hexpr h hle hblock

theorem parseIf_within : Within (input.length - 1) (parseIf parseExpression parseBlock) input := by
  have hpos := h.length_pos
  refine (expect_within h (by decide) _ _).bind fun _ r₁ h₁ hl₁ => ?_
  refine (hexpr r₁ h₁ (by omega)).bind fun test r₂ h₂ hl₂ => ?_
  refine (expect_within h₂ (by decide) _ _).bind fun _ r₃ h₃ hl₃ => ?_
  refine (hblock _ r₃ h₃ (by omega)).bind fun thenBody r₄ h₄ hl₄ => ?_
  have hend : ∀ {rest : List Token} (elseBody : List Stmt), EndsInEof rest →
      rest.length ≤ r₄.length → Within (input.length - 1) (do
        let _ ← expect .keyword (some "fim") (some "`fim` esperado")
        return Stmt.ifElse test thenBody elseBody) rest := by
    intro rest elseBody hrest hlen
    refine (expect_within hrest (by decide) _ _).bind fun _ r₅ h₅ hl₅ => ?_
    exact Within.pure h₅ (by omega)
  obtain ⟨token, tokens, rfl⟩ := h₄.exists_head
  refine meets_match (fun hm => ?_) fun _ => hend [] h₄ (Nat.le_refl _)
  rw [List.length_cons] at hl₄ hend
  refine (hblock _ tokens (h₄.tail hm (by decide)) (by omega)).bind fun elseBody r₅ h₅ hl₅ => ?_
  exact hend elseBody h₅ (by omega)

theorem parseWhile_within :
    Within (input.length - 1) (parseWhile parseExpression parseBlock) input := by
  have hpos := h.length_pos
  refine (expect_within h (by decide) _ _).bind fun _ r₁ h₁ hl₁ => ?_
  refine (hexpr r₁ h₁ (by omega)).bind fun test r₂ h₂ hl₂ => ?_
  refine (expect_within h₂ (by decide) _ _).bind fun _ r₃ h₃ hl₃ => ?_
  refine (hblock _ r₃ h₃ (by omega)).bind fun body r₄ h₄ hl₄ => ?_
  refine (expect_within h₄ (by decide) _ _).bind fun _ r₅ h₅ hl₅ => ?_
  exact Within.pure h₅ (by omega)

theorem parseForEach_within :
    Within (input.length - 1) (parseForEach parseExpression parseBlock) input := by
  have hpos := h.length_pos
  refine (expect_within h (by decide) _ _).bind fun _ r₁ h₁ hl₁ => ?_
  refine (expect_within h₁ (by decide) _ _).bind fun _ r₂ h₂ hl₂ => ?_
  refine (expect_within h₂ (by decide) _ _).bind fun binding r₃ h₃ hl₃ => ?_
  refine (expect_within h₃ (by decide) _ _).bind fun _ r₄ h₄ hl₄ => ?_
  refine (hexpr r₄ h₄ (by omega)).bind fun iterable r₅ h₅ hl₅ => ?_
  refine (expect_within h₅ (by decide) _ _).bind fun _ r₆ h₆ hl₆ => ?_
  refine (hblock _ r₆ h₆ (by omega)).bind fun body r₇ h₇ hl₇ => ?_
  refine (expect_within h₇ (by decide) _ _).bind fun _ r₈ h₈ hl₈ => ?_
  exact Within.pure h₈ (by omega)

omit hexpr hle hblock in
/-- After an identifier there is a token to look at. -/
theorem atAssign_meets : Meets atAssign input IsError fun _ rest => rest = input := by
  cases h with
  | eof he =>
      refine meets_at ?_
      rw [if_neg (fun hm => absurd ((of_decide_eq_true hm).1.symm.trans he) (by decide))]
      exact Meets.pure rfl
  | cons hne htail =>
      obtain ⟨next, rest, rfl⟩ := htail.exists_head
      refine meets_at ?_
      split
      · refine meets_peek ?_
        exact Meets.pure rfl
      · exact Meets.pure rfl

theorem parseStatementWith_within :
    Within (input.length - 1) (parseStatementWith parseExpression parseBlock) input := by
  have hplain : Within (input.length - 1) (do
      if ← atAssign then parseAssign parseExpression
      else return .exprStmt (← parseExpression)) input := by
    refine Meets.bind (atAssign_meets h) ?_
    intro b rest hsame
    rw [hsame]
    split
    · exact parseAssign_within hexpr h hle
    · refine (hexpr input h hle).bind fun expr rest hrest hlen => ?_
      exact Within.pure hrest hlen
  have hdefine := parseDefine_within hexpr h hle
  have hshow := parseShow_within hexpr h hle
  have hreturn := parseReturn_within hexpr h hle
  have hif := parseIf_within hexpr h hle hblock
  have hwhile := parseWhile_within hexpr h hle hblock
  have heach := parseForEach_within hexpr h hle hblock
  obtain ⟨token, tokens, rfl⟩ := h.exists_head
  refine meets_at ?_
  split
  · exact hdefine
  refine meets_at ?_
  split
  · exact hshow
  refine meets_at ?_
  split
  · exact hreturn
  refine meets_at ?_
  split
  · exact hif
  refine meets_at ?_
  split
  · exact hwhile
  refine meets_at ?_
  split
  · exact heach
  exact hplain

end Statements

theorem blockTurn_turnsOn {parseStatement : ParseM Stmt} {input : List Token}
    (h : EndsInEof input) (hstmt : Within (input.length - 1) parseStatement input)
    (terminators : List String) (body : List Stmt) :
    TurnsOn (blockTurn parseStatement terminators body) input := by
  have hpos := h.length_pos
  obtain ⟨token, tokens, rfl⟩ := h.exists_head
  have hstop : TurnsOn (pure (body, false) : ParseM (List Stmt × Bool)) (token :: tokens) :=
    Meets.pure ⟨h, Nat.le_refl _, fun hagain => absurd hagain (by simp)⟩
  refine meets_at ?_
  split
  · exact hstop
  refine meets_at (meets_current ?_)
  split
  · exact hstop
  refine Meets.bind hstmt ?_
  rintro stmt rest ⟨hrest, hlen⟩
  exact Meets.pure ⟨hrest, by omega, fun _ => by omega⟩

theorem statements_within (fuel : ℕ) : ∀ input, EndsInEof input →
    (7 * input.length + 6 ≤ fuel → Within (input.length - 1) (parseStatement fuel) input) ∧
    (7 * input.length + 7 ≤ fuel → ∀ terminators,
      Within input.length (parseBlock fuel terminators) input) := by
  induction fuel with
  | zero =>
      intro input h
      refine ⟨fun hle => ?_, fun hle => ?_⟩
      all_goals omega
  | succ fuel ih =>
      intro input h
      have hpos := h.length_pos
      refine ⟨fun hle => ?_, fun hle => ?_⟩
      · rw [parseStatement]
        have hexpr : Consumes (parseExpression fuel) input.length :=
          parseExpression_consumes (by omega)
        refine parseStatementWith_within hexpr h (Nat.le_refl _) ?_
        intro terminators rest hrest hlt
        exact (ih rest hrest).2 (by omega) terminators
      · intro terminators
        rw [parseBlock]
        refine loop_meets (fun rest => EndsInEof rest ∧ rest.length ≤ input.length)
          ?_ fuel [] input ⟨h, Nat.le_refl _⟩ (by omega)
        rintro body rest ⟨hrest, hlen⟩
        refine (blockTurn_turnsOn hrest ((ih rest hrest).1 (by omega)) terminators body).mono ?_
        rintro r rest' ⟨hrest', hlen', hagain⟩
        exact ⟨⟨hrest', by omega⟩, hagain⟩

/-! ## Programs -/

theorem paramTurn_turnsOn (params : List String) {input : List Token} (h : EndsInEof input) :
    Meets (paramTurn params) input IsError fun _ rest =>
      EndsInEof rest ∧ rest.length < input.length := by
  have hpos := h.length_pos
  refine Meets.bind (expect_within h (by decide) _ _) ?_
  rintro param rest ⟨hrest, hlen⟩
  obtain ⟨token, tokens, rfl⟩ := hrest.exists_head
  refine meets_match (fun hm => ?_) fun _ => ?_
  · refine Meets.pure ⟨hrest.tail hm (by decide), ?_⟩
    rw [List.length_cons] at hlen
    omega
  · exact Meets.pure ⟨hrest, by omega⟩

theorem parseParams_within {fuel : ℕ} {input : List Token} (h : EndsInEof input)
    (hfuel : input.length < fuel) : Within input.length (parseParams fuel) input := by
  obtain ⟨token, tokens, rfl⟩ := h.exists_head
  refine meets_match (fun hm => ?_) fun _ => Within.pure h (Nat.le_refl _)
  have htail := h.tail hm (by decide)
  have hclose : ∀ {rest : List Token} {params : List String}, EndsInEof rest →
      rest.length ≤ tokens.length → Within (token :: tokens).length (do
        let _ ← expect .punct (some ")") (some "')' esperado")
        return params) rest := by
    intro rest params hrest hlen
    refine (expect_within hrest (by decide) _ _).bind fun _ rest' hrest' hlen' => ?_
    exact Within.pure hrest' (by rw [List.length_cons]; omega)
  have hparams : Within (token :: tokens).length (do
      let params ← loop .outOfFuel paramTurn fuel []
      let _ ← expect .punct (some ")") (some "')' esperado")
      return params) tokens := by
    rw [List.length_cons] at hfuel
    refine Meets.bind (loop_meets (fun rest => EndsInEof rest ∧ rest.length ≤ tokens.length)
      ?_ fuel [] tokens ⟨htail, Nat.le_refl _⟩ (by omega)) ?_
    · rintro params rest ⟨hrest, hlen⟩
      refine (paramTurn_turnsOn params hrest).mono ?_
      rintro r rest' ⟨hrest', hlt⟩
      exact ⟨⟨hrest', by omega⟩, fun _ => hlt⟩
    · rintro params rest ⟨hrest, hlen⟩
      exact hclose hrest hlen
  obtain ⟨next, rest, rfl⟩ := htail.exists_head
  refine meets_at ?_
  split
  · exact hclose htail (Nat.le_refl _)
  · exact hparams

theorem parseFunction_within {fuel : ℕ} {input : List Token} (h : EndsInEof input)
    (hfuel : 7 * input.length ≤ fuel) : Within (input.length - 1) (parseFunction fuel) input := by
  have hpos := h.length_pos
  refine (expect_within h (by decide) _ _).bind fun _ r₁ h₁ hl₁ => ?_
  refine (expect_within h₁ (by decide) _ _).bind fun name r₂ h₂ hl₂ => ?_
  refine (parseParams_within h₂ (by omega)).bind fun params r₃ h₃ hl₃ => ?_
  refine (expect_within h₃ (by decide) _ _).bind fun _ r₄ h₄ hl₄ => ?_
  have hpos' := h₃.length_pos
  refine ((statements_within fuel r₄ h₄).2 (by omega) _).bind fun body r₅ h₅ hl₅ => ?_
  refine (expect_within h₅ (by decide) _ _).bind fun _ r₆ h₆ hl₆ => ?_
  exact Within.pure h₆ (by omega)

/-- The last turn of the loop over the program is at the `eof`. -/
theorem programTurn_meets {fuel : ℕ} {input : List Token} (h : EndsInEof input)
    (hfuel : 7 * input.length + 6 ≤ fuel) (program : Program) :
    Meets (programTurn fuel program) input IsError fun r rest =>
      (EndsInEof rest ∧ rest.length ≤ input.length) ∧
        (r.2 = true → rest.length < input.length) ∧
        (r.2 = false → ∃ e, rest = [e] ∧ e.type = .eof) := by
  have hpos := h.length_pos
  have hgoes : ∀ {α : Type} {p : ParseM α} (add : α → Program), Within (input.length - 1) p input →
      Meets (do let part ← p; return (add part, true)) input IsError fun r rest =>
        (EndsInEof rest ∧ rest.length ≤ input.length) ∧
          (r.2 = true → rest.length < input.length) ∧
          (r.2 = false → ∃ e, rest = [e] ∧ e.type = .eof) := by
    intro α p add hp
    refine Meets.bind hp ?_
    rintro part rest ⟨hrest, hlen⟩
    exact Meets.pure ⟨⟨hrest, by omega⟩, fun _ => by omega, fun hstop => by cases hstop⟩
  have hfunction := hgoes (fun fn => { program with functions := program.functions ++ [fn] })
    (show Within _ (parseFunction fuel) input from parseFunction_within h (by omega))
  have hstmt := hgoes (fun stmt => { program with body := program.body ++ [stmt] })
    ((statements_within fuel input h).1 (by omega))
  cases h with
  | eof he =>
      refine meets_at ?_
      rw [if_pos (decide_eq_true ⟨he, nofun⟩)]
      refine Meets.pure ⟨⟨.eof he, Nat.le_refl _⟩, nofun, fun _ => ⟨_, rfl, he⟩⟩
  | cons hne htail =>
      refine meets_at ?_
      rw [if_neg fun hm => hne (of_decide_eq_true hm).1]
      refine meets_at ?_
      split
      · exact hfunction
      · exact hstmt

/-- The loops of the parser, each with a bound that suffices for its body. -/
structure LoopsAdvance (input : List Token) : Prop where
  program : ∀ fuel, 7 * input.length + 6 ≤ fuel → ∀ program,
    TurnsOn (programTurn fuel program) input
  block : ∀ fuel, 7 * input.length + 6 ≤ fuel → ∀ terminators body,
    TurnsOn (blockTurn (parseStatement fuel) terminators body) input
  binary : ∀ fuel, 5 * input.length ≤ fuel + 1 → ∀ minPrec left,
    TurnsOn (binaryTurn (fun prec => parseBinary fuel prec) minPrec left) input
  calls : ∀ fuel, 5 * input.length ≤ fuel → ∀ expr,
    TurnsOn (callTurn (parseExpression fuel) fuel expr) input
  /-- The `do … while` loops take a token in their last turn too. -/
  items : ∀ fuel, 5 * input.length + 5 ≤ fuel → ∀ items,
    Meets (listTurn (parseExpression fuel) items) input IsError fun _ rest =>
      EndsInEof rest ∧ rest.length < input.length
  params : ∀ params, Meets (paramTurn params) input IsError fun _ rest =>
    EndsInEof rest ∧ rest.length < input.length

theorem loops_advance {input : List Token} (h : EndsInEof input) : LoopsAdvance input := by
  have hpos := h.length_pos
  refine ⟨?_, ?_, ?_, ?_, ?_, ?_⟩
  · intro fuel hfuel program
    refine (programTurn_meets h hfuel program).mono ?_
    rintro r rest ⟨⟨hrest, hlen⟩, hagain, -⟩
    exact ⟨hrest, hlen, hagain⟩
  · intro fuel hfuel terminators body
    exact blockTurn_turnsOn h ((statements_within fuel input h).1 hfuel) terminators body
  · intro fuel hfuel minPrec left
    refine binaryTurn_turnsOn h (fun prec rest hrest hlt => ?_) minPrec left
    exact (expressions_within fuel rest hrest).2.1 (by omega) prec
  · intro fuel hfuel expr
    have hexpr : Consumes (parseExpression fuel) (input.length - 1) :=
      parseExpression_consumes (by omega)
    exact callTurn_turnsOn hexpr (by omega) expr h (by omega)
  · intro fuel hfuel items
    exact listTurn_turnsOn (parseExpression_consumes hfuel) items h (Nat.le_refl _)
  · intro params
    exact paramTurn_turnsOn params h

/-- Every list of tokens that ends in its only `eof` is parsed up to that `eof` or rejected with an
error at a token; on the way every turn of a loop that goes on takes a token. -/
theorem parse_total {tokens : List Token} (h : EndsInEof tokens) :
    ((∃ program e, parse tokens = .ok (program, [e]) ∧ e.type = .eof) ∨
      ∃ message, parse tokens = .error (.fatal message)) ∧
    ∀ input, EndsInEof input → LoopsAdvance input := by
  refine ⟨?_, fun input hinput => loops_advance hinput⟩
  have hrun : Meets (parseProgram (7 * tokens.length + 8)) tokens IsError fun _ rest =>
      (EndsInEof rest ∧ rest.length ≤ tokens.length) ∧ ∃ e, rest = [e] ∧ e.type = .eof := by
    refine loop_meets_exit (fun rest => EndsInEof rest ∧ rest.length ≤ tokens.length)
      (fun rest => ∃ e, rest = [e] ∧ e.type = .eof) ?_ _ _ tokens ⟨h, Nat.le_refl _⟩ (by omega)
    rintro program rest ⟨hrest, hlen⟩
    refine (programTurn_meets hrest (by omega) program).mono ?_
    rintro r rest' ⟨⟨hrest', hlen'⟩, hagain, hstop⟩
    exact ⟨⟨hrest', by omega⟩, hagain, hstop⟩
  rcases hrun.cases with ⟨program, rest, hok, -, e, rfl, he⟩ | ⟨e, herror, message, rfl⟩
  · exact .inl ⟨program, e, hok, he⟩
  · exact .inr ⟨message, herror⟩

/-- `mostrar -(1)`. -/
def showTokens : List Token :=
  [⟨.keyword, "mostrar", 1, 1⟩, ⟨.operator, "-", 1, 9⟩, ⟨.punct, "(", 1, 10⟩, ⟨.number, "1", 1, 11⟩,
    ⟨.punct, ")", 1, 12⟩, ⟨.eof, "", 1, 13⟩]

theorem showTokens_endsInEof : EndsInEof showTokens := by
  refine .cons ?_ (.cons ?_ (.cons ?_ (.cons ?_ (.cons ?_ (.eof rfl)))))
  all_goals decide

theorem parse_total_show :
    ∃ program e, parse showTokens = .ok (program, [e]) ∧ e.type = .eof := by
  rcases (parse_total showTokens_endsInEof).1 with hok | ⟨message, herror⟩
  · exact hok
  · have hparsed : (parse showTokens).toOption.isSome = true := by decide +kernel
    rw [herror] at hparsed
    cases hparsed

end Parser

end GatoCore.Native
