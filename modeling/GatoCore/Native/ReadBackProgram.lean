import GatoCore.Native.ReadBack

/-!
# Reading printed statements and programs back

A statement ends where the next one begins, without a token between them. The parser finds the end
when the next statement begins with neither an operator nor a parenthesis.
-/

namespace GatoCore.Native

open GatoCore.Lib Lexeme

namespace Parser

/-! ## Where a statement begins and ends -/

/-- The keywords `parseStatement` tests. -/
def statementWords : List String :=
  ["definir", "mostrar", "retornar", "se", "enquanto", "para"]

/-- The keywords in front of a statement or of an operand. -/
def startWords : List String :=
  statementWords ++ ["tamanho", "tipo", "identificar", "observar"]

/-- What a statement begins with. -/
inductive Begins : Lexeme → Prop
  | word {w : String} : w ∈ startWords → Begins (keyword w)
  | primary {ℓ : Lexeme} : OpensPrimary ℓ → Begins ℓ
  | neg : Begins (operator "-")
  | not : Begins (operator "!")

/-- What a list of statements ends in front of. -/
def closers : List Lexeme := [eof, keyword "fim", keyword "senão"]

/-- The statement is read to its end in front of this. -/
structure Follows (s : Stmt) (after : List Lexeme) : Prop where
  expr : s.EndsInExpr → Ends 0 after
  assign : ∃ ℓ rest, after = ℓ :: rest ∧ ℓ ≠ operator "="
  ret : s = .ret none → ∃ ℓ rest, after = ℓ :: rest ∧ ℓ ∈ closers

theorem Opens.begins {ℓ : Lexeme} (h : Opens ℓ) : Begins ℓ := by
  cases h with
  | primary h => exact .primary h
  | neg => exact .neg
  | not => exact .not
  | word h =>
      refine .word ?_
      simp only [List.mem_cons, List.not_mem_nil, or_false] at h
      rcases h with rfl | rfl | rfl | rfl
      all_goals decide

theorem print_begins (s : Stmt) : ∃ ℓ tail, s.print = ℓ :: tail ∧ Begins ℓ := by
  cases s with
  | define _ _ | «show» _ | ifElse _ _ _ | «while» _ _ | forEach _ _ _ =>
      exact ⟨_, _, rfl, .word (by decide)⟩
  | ret value => cases value <;> exact ⟨_, _, rfl, .word (by decide)⟩
  | assign _ _ => exact ⟨_, _, rfl, .primary (.name _)⟩
  | exprStmt e =>
      obtain ⟨ℓ, tail, hprint, hopens⟩ := print_opens e 0
      exact ⟨ℓ, tail, hprint, hopens.begins⟩

theorem follows_closer (s : Stmt) {close : Lexeme} (hclose : close ∈ closers)
    (rest : List Lexeme) : Follows s (close :: rest) := by
  have hne : close ≠ punct "(" ∧ (∀ op : BinaryOp, close ≠ operator op.symbol) ∧
      close ≠ operator "=" := by
    simp only [closers, List.mem_cons, List.not_mem_nil, or_false] at hclose
    rcases hclose with rfl | rfl | rfl
    all_goals
      refine ⟨?_, ?_, ?_⟩
      · rintro ⟨⟩
      · rintro op ⟨⟩
      · rintro ⟨⟩
  refine ⟨fun _ => ⟨close, rest, rfl, hne.1, fun op heq => absurd heq (hne.2.1 op)⟩,
    ⟨close, rest, rfl, hne.2.2⟩, fun _ => ⟨close, rest, rfl, hclose⟩⟩

/-- A statement in front of one it may stand in front of. -/
theorem follows_statement {s t : Stmt} (h : Separate s t) (rest : List Lexeme) :
    Follows s (t.print ++ rest) := by
  obtain ⟨ℓ, tail, hprint, hbegins⟩ := print_begins t
  rw [hprint, List.cons_append]
  refine ⟨fun hexpr => ⟨ℓ, _, rfl, ?_, ?_⟩, ⟨ℓ, _, rfl, ?_⟩, fun hret => absurd hret h.returns⟩
  · rintro rfl
    refine h.boundary hexpr ?_
    cases t with
    | exprStmt e => exact .inr (congrArg List.head? hprint)
    | define _ _ | assign _ _ | «show» _ | ifElse _ _ _ | «while» _ _ | forEach _ _ _ =>
        cases hprint
    | ret value => cases value <;> cases hprint
  · intro op heq
    cases hbegins with
    | word _ => cases heq
    | primary hprimary => cases hprimary <;> cases heq
    | not => cases op <;> exact absurd heq (by decide)
    | neg =>
        refine absurd ?_ (h.boundary hexpr)
        cases t with
        | exprStmt e => exact .inl (congrArg List.head? hprint)
        | define _ _ | assign _ _ | «show» _ | ifElse _ _ _ | «while» _ _ | forEach _ _ _ =>
            cases hprint
        | ret value => cases value <;> cases hprint
  · cases hbegins with
    | word _ => exact nofun
    | primary hprimary => cases hprimary <;> exact nofun
    | neg => exact fun heq => absurd heq (by decide)
    | not => exact fun heq => absurd heq (by decide)

/-! ## Assignments and expression statements -/

/-- Behind a name in front there is something other than `=`. -/
def NotAssign (input : List Lexeme) : Prop :=
  ∀ ℓ rest, input = ℓ :: rest → ℓ.type = .identifier →
    ∃ next more, rest = next :: more ∧ next ≠ operator "="

theorem notAssign_print : ∀ (e : Expr) (level : ℕ) {after : List Lexeme},
    (∃ ℓ rest, after = ℓ :: rest ∧ ℓ ≠ operator "=") → NotAssign (e.print level ++ after)
  | .number _, _, _, _ => by
      rintro ℓ rest heq htype
      cases heq
      cases htype
  | .string _, _, _, _ => by
      rintro ℓ rest heq htype
      cases heq
      cases htype
  | .array _, _, _, _ => by
      rintro ℓ rest heq htype
      cases heq
      cases htype
  | .bool _, _, _, hafter => by
      rintro ℓ rest heq -
      cases heq
      exact hafter
  | .null, _, _, hafter => by
      rintro ℓ rest heq -
      cases heq
      exact hafter
  | .identifier _, _, _, hafter => by
      rintro ℓ rest heq -
      cases heq
      exact hafter
  | .unary op e, level, _, _ => by
      rintro ℓ rest heq htype
      rw [Expr.print, parenthesize] at heq
      split at heq
      · cases heq
        cases htype
      · cases op
        all_goals
          cases heq
          cases htype
  | .binary op l r, level, after, _ => by
      rw [Expr.print, parenthesize]
      split
      · rintro ℓ rest heq htype
        cases heq
        cases htype
      · rw [List.append_assoc]
        refine notAssign_print l op.level ⟨operator op.symbol, _, rfl, ?_⟩
        cases op <;> exact fun heq => absurd heq (by decide)
  | .call callee args, level, after, _ => by
      rw [Expr.print, List.append_assoc]
      exact notAssign_print callee calleeLevel ⟨punct "(", _, rfl, by decide⟩

theorem reads_atAssign {ℓ : Lexeme} {rest : List Lexeme} (h : NotAssign (ℓ :: rest)) :
    Reads atAssign (ℓ :: rest) false (ℓ :: rest) := by
  refine .test ?_
  split
  next hfits =>
    have htype : ℓ.type = .identifier := by
      rw [Lexeme.fits, Bool.and_eq_true, decide_eq_true_eq] at hfits
      exact hfits.1
    obtain ⟨next, more, rfl, hne⟩ := h ℓ rest rfl htype
    refine .peek ?_
    rintro token rfl
    have hno : decide (Matches .operator (some "=") token) = false := by
      rw [decide_matches, Bool.eq_false_iff]
      intro hfits'
      rw [Lexeme.fits, Bool.and_eq_true, decide_eq_true_eq, Option.all_some,
        decide_eq_true_eq] at hfits'
      refine hne ?_
      rw [operator, ← hfits'.1, ← hfits'.2]
    show Reads (pure (decide (Matches .operator (some "=") token))) _ _ _
    rw [hno]
    exact .pure _ _
  next => exact .pure _ _

section Statements

variable {parseExpression : ParseM Expr} {parseBlock : List String → ParseM (List Stmt)}
  {input rest : List Lexeme} {e : Expr} {name : String}

theorem reads_define (he : Reads parseExpression input e rest) :
    Reads (parseStatementWith parseExpression parseBlock)
      (keyword "definir" :: ident name :: keyword "como" :: input) (.define name e) rest := by
  refine .test (.expect rfl fun _ _ => .expect rfl fun token htoken => .expect rfl fun _ _ =>
    .bind he ?_)
  have hvalue : token.value = name := congrArg Lexeme.value htoken
  exact hvalue ▸ .pure _ _

theorem reads_assign (he : Reads parseExpression input e rest) :
    Reads (parseStatementWith parseExpression parseBlock)
      (ident name :: operator "=" :: input) (.assign name e) rest := by
  have hassign : Reads atAssign (ident name :: operator "=" :: input) true
      (ident name :: operator "=" :: input) := by
    refine .test (.peek ?_)
    intro token htoken
    have hyes : decide (Matches .operator (some "=") token) = true := by
      rw [decide_matches, htoken]
      rfl
    show Reads (pure (decide (Matches .operator (some "=") token))) _ _ _
    rw [hyes]
    exact .pure _ _
  refine .test (.test (.test (.test (.test (.test (.bind hassign (Reads.expect rfl
    fun token htoken => .expect rfl fun _ _ => .bind he ?_)))))))
  have hvalue : token.value = name := congrArg Lexeme.value htoken
  exact hvalue ▸ .pure _ _

theorem reads_show (he : Reads parseExpression input e rest) :
    Reads (parseStatementWith parseExpression parseBlock) (keyword "mostrar" :: input) (.show e)
      rest :=
  .test (.test (.expect rfl fun _ _ => .bind he (.pure _ _)))

theorem reads_return {ℓ : Lexeme} (hℓ : Opens ℓ)
    (he : Reads parseExpression (ℓ :: input) e rest) :
    Reads (parseStatementWith parseExpression parseBlock) (keyword "retornar" :: ℓ :: input)
      (.ret (some e)) rest := by
  refine .test (.test (.test (.expect rfl fun _ _ => .test (.test (.test ?_)))))
  have hno : (ℓ.fits .eof none || ℓ.fits .keyword (some "fim") ||
      ℓ.fits .keyword (some "senão")) = false := by
    cases hℓ with
    | primary h => cases h <;> rfl
    | neg | not => rfl
    | word h =>
        simp only [List.mem_cons, List.not_mem_nil, or_false] at h
        rcases h with rfl | rfl | rfl | rfl
        all_goals rfl
  rw [hno]
  exact .bind he (.pure _ _)

theorem reads_returnNothing {ℓ : Lexeme} (hℓ : ℓ ∈ closers) :
    Reads (parseStatementWith parseExpression parseBlock) (keyword "retornar" :: ℓ :: rest)
      (.ret none) (ℓ :: rest) := by
  refine .test (.test (.test (.expect rfl fun _ _ => .test (.test (.test ?_)))))
  have hyes : (ℓ.fits .eof none || ℓ.fits .keyword (some "fim") ||
      ℓ.fits .keyword (some "senão")) = true := by
    simp only [closers, List.mem_cons, List.not_mem_nil, or_false] at hℓ
    rcases hℓ with rfl | rfl | rfl
    all_goals rfl
  rw [hyes]
  exact .pure _ _

theorem reads_exprStmt {ℓ : Lexeme} (hℓ : Opens ℓ) (hassign : NotAssign (ℓ :: input))
    (he : Reads parseExpression (ℓ :: input) e rest) :
    Reads (parseStatementWith parseExpression parseBlock) (ℓ :: input) (.exprStmt e) rest := by
  have hfits : ∀ w ∈ statementWords, ℓ.fits .keyword (some w) = false := by
    cases hℓ with
    | primary h => cases h <;> exact fun w _ => rfl
    | neg | not => exact fun w _ => rfl
    | word h =>
        simp only [List.mem_cons, List.not_mem_nil, or_false] at h
        rcases h with rfl | rfl | rfl | rfl
        all_goals decide
  have htest : ∀ {w : String} {p q : ParseM Stmt}, w ∈ statementWords →
      Reads q (ℓ :: input) (.exprStmt e) rest →
      Reads (do if ← atToken .keyword (some w) then p else q) (ℓ :: input) (.exprStmt e) rest := by
    intro w p q hw hq
    refine .test ?_
    rw [hfits w hw]
    exact hq
  refine htest (by decide) (htest (by decide) (htest (by decide) (htest (by decide)
    (htest (by decide) (htest (by decide) ?_)))))
  exact .bind (reads_atAssign hassign) (.bind he (.pure _ _))

section Blocks

variable {mid mid' : List Lexeme} {thenBody elseBody body : List Stmt}

theorem reads_if (he : Reads parseExpression input e (keyword "então" :: mid))
    (hthen : Reads (parseBlock ["senão", "fim"]) mid thenBody (keyword "fim" :: rest)) :
    Reads (parseStatementWith parseExpression parseBlock) (keyword "se" :: input)
      (.ifElse e thenBody []) rest :=
  .test (.test (.test (.test (.expect rfl fun _ _ => .bind he (Reads.expect rfl fun _ _ =>
    .bind hthen (Reads.match_no rfl (.expect rfl fun _ _ => .pure _ _)))))))

theorem reads_ifElse (he : Reads parseExpression input e (keyword "então" :: mid))
    (hthen : Reads (parseBlock ["senão", "fim"]) mid thenBody (keyword "senão" :: mid'))
    (helse : Reads (parseBlock ["fim"]) mid' elseBody (keyword "fim" :: rest)) :
    Reads (parseStatementWith parseExpression parseBlock) (keyword "se" :: input)
      (.ifElse e thenBody elseBody) rest :=
  .test (.test (.test (.test (.expect rfl fun _ _ => .bind he (Reads.expect rfl fun _ _ =>
    .bind hthen (Reads.match_yes rfl fun _ _ => .bind helse (Reads.expect rfl fun _ _ =>
      .pure _ _)))))))

theorem reads_while (he : Reads parseExpression input e (keyword "faça" :: mid))
    (hbody : Reads (parseBlock ["fim"]) mid body (keyword "fim" :: rest)) :
    Reads (parseStatementWith parseExpression parseBlock) (keyword "enquanto" :: input)
      (.while e body) rest :=
  .test (.test (.test (.test (.test (.expect rfl fun _ _ => .bind he (Reads.expect rfl fun _ _ =>
    .bind hbody (Reads.expect rfl fun _ _ => .pure _ _)))))))

theorem reads_forEach (he : Reads parseExpression input e (keyword "faça" :: mid))
    (hbody : Reads (parseBlock ["fim"]) mid body (keyword "fim" :: rest)) :
    Reads (parseStatementWith parseExpression parseBlock)
      (keyword "para" :: keyword "cada" :: ident name :: keyword "em" :: input)
      (.forEach name e body) rest := by
  refine .test (.test (.test (.test (.test (.test (.expect rfl fun _ _ => .expect rfl fun _ _ =>
    .expect rfl fun token htoken => .expect rfl fun _ _ => .bind he (Reads.expect rfl fun _ _ =>
      .bind hbody (Reads.expect rfl fun _ _ => ?_))))))))
  have hvalue : token.value = name := congrArg Lexeme.value htoken
  exact hvalue ▸ .pure _ _

end Blocks

end Statements

/-! ## Blocks -/

/-- Statements up to what closes them, for a loop that takes one in each turn. -/
theorem reads_body {σ : Type} {turn : σ → ParseM (σ × Bool)} {add : σ → Stmt → σ}
    {p : ParseM Stmt} {close : Lexeme} {after : List Lexeme} {isVariable : String → Prop}
    (hclose : close ∈ closers)
    (hturn : ∀ (acc : σ) (ℓ : Lexeme) (input rest : List Lexeme) (s : Stmt), Begins ℓ →
      Reads p (ℓ :: input) s rest → Reads (turn acc) (ℓ :: input) (add acc s, true) rest)
    (hlast : ∀ acc, Reads (turn acc) (close :: after) (acc, false) (close :: after)) :
    ∀ (body : List Stmt) (acc : σ) (n : ℕ), BodyPrintable isVariable body →
      (∀ s ∈ body, ∀ rest, Follows s rest → Reads p (s.print ++ rest) s rest) → body.length < n →
      Reads (loop .outOfFuel turn n acc) (printBody body ++ close :: after) (body.foldl add acc)
        (close :: after) := by
  intro body
  induction body with
  | nil =>
      intro acc n _ _ hn
      obtain ⟨n, rfl⟩ := Nat.exists_eq_add_one_of_ne_zero (Nat.ne_of_gt (Nat.zero_lt_of_lt hn))
      exact .loop_last (hlast acc)
  | cons s body ih =>
      intro acc n hbody hreads hn
      obtain ⟨n, rfl⟩ := Nat.exists_eq_add_one_of_ne_zero (Nat.ne_of_gt (Nat.zero_lt_of_lt hn))
      have hfollows : Follows s (printBody body ++ close :: after) := by
        cases body with
        | nil => exact follows_closer s hclose after
        | cons t body =>
            rw [printBody, List.append_assoc]
            exact follows_statement (hbody.2.1 t rfl) _
      have hfirst := hreads s List.mem_cons_self _ hfollows
      have hrest := ih (add acc s) n hbody.2.2 (fun t ht => hreads t (List.mem_cons_of_mem _ ht))
        (Nat.lt_of_succ_lt_succ hn)
      obtain ⟨ℓ, tail, hprint, hbegins⟩ := print_begins s
      rw [printBody, List.append_assoc]
      rw [hprint, List.cons_append] at hfirst ⊢
      exact .loop_next (hturn acc ℓ _ _ s hbegins hfirst) hrest

/-- A statement does not begin with what ends a block. -/
theorem reads_blockTurn {p : ParseM Stmt} {terminators : List String}
    (hterminators : terminators ⊆ ["senão", "fim"]) (body : List Stmt) {ℓ : Lexeme}
    (hℓ : Begins ℓ) {input rest : List Lexeme} {s : Stmt} (hs : Reads p (ℓ :: input) s rest) :
    Reads (blockTurn p terminators body) (ℓ :: input) (body ++ [s], true) rest := by
  have hgoes : Reads (do return (body ++ [← p], true)) (ℓ :: input) (body ++ [s], true) rest :=
    .bind hs (.pure _ _)
  cases hℓ with
  | primary h =>
      cases h
      all_goals exact .test (.test (.current fun token _ => hgoes))
  | neg | not => exact .test (.test (.current fun token _ => hgoes))
  | @word w h =>
      refine .test (.test (.current fun token htoken => ?_))
      have hvalue : token.value = w := congrArg Lexeme.value htoken
      have hnot : ¬Terminates terminators token.value := by
        have hfree : ∀ w ∈ startWords, w ∉ ["senão", "fim"] ∧ w ∉ objectPrototypeKeys := by decide
        rw [hvalue]
        rintro (hmem | hmem)
        · exact (hfree w h).1 (hterminators hmem)
        · exact (hfree w h).2 hmem
      simp only [Option.any_some, decide_eq_false hnot, Bool.and_false]
      exact hgoes

theorem reads_blockEnd {p : ParseM Stmt} {terminators : List String} {word : String}
    (hword : word ∈ terminators) (body : List Stmt) (after : List Lexeme) :
    Reads (blockTurn p terminators body) (keyword word :: after) (body, false)
      (keyword word :: after) := by
  refine .test (.test (.current fun token htoken => ?_))
  have hvalue : token.value = word := congrArg Lexeme.value htoken
  have hyes : Terminates terminators token.value := .inl (hvalue ▸ hword)
  simp only [Option.any_some, decide_eq_true hyes, Bool.and_true]
  exact .pure _ _

/-- The parser reads the statement back. -/
def ReadsBack (s : Stmt) : Prop :=
  ∀ (fuel : ℕ) (after : List Lexeme), Follows s after → 5 * s.print.length + 5 ≤ fuel →
    Reads (parseStatement fuel) (s.print ++ after) s after

theorem length_printBody (body : List Stmt) : body.length ≤ (printBody body).length ∧
    ∀ s ∈ body, s.print.length ≤ (printBody body).length := by
  induction body with
  | nil => exact ⟨Nat.le_refl _, nofun⟩
  | cons s body ih =>
      obtain ⟨ℓ, tail, hprint, -⟩ := print_begins s
      have hpos : 0 < s.print.length := by
        rw [hprint]
        exact Nat.succ_pos _
      simp only [printBody, List.length_cons, List.length_append]
      refine ⟨by omega, ?_⟩
      intro t ht
      rcases List.mem_cons.mp ht with rfl | ht
      · omega
      · have hlen := ih.2 t ht
        omega

theorem reads_block {isVariable : String → Prop} {body : List Stmt}
    (hbody : BodyPrintable isVariable body) (hreads : ∀ s ∈ body, ReadsBack s)
    {terminators : List String} (hterminators : terminators ⊆ ["senão", "fim"]) {word : String}
    (hword : word ∈ terminators) {fuel : ℕ} (hfuel : 5 * (printBody body).length + 6 ≤ fuel)
    (after : List Lexeme) :
    Reads (parseBlock fuel terminators) (printBody body ++ keyword word :: after) body
      (keyword word :: after) := by
  obtain ⟨fuel, rfl⟩ := Nat.exists_eq_add_one_of_ne_zero (n := fuel) (by omega)
  obtain ⟨hlength, hprint⟩ := length_printBody body
  have hclose : keyword word ∈ closers := by
    have hmem := hterminators hword
    simp only [List.mem_cons, List.not_mem_nil, or_false] at hmem
    rcases hmem with rfl | rfl
    all_goals decide
  have hadd : ∀ (body acc : List Stmt),
      body.foldl (fun body s => body ++ [s]) acc = acc ++ body := by
    intro body
    induction body with
    | nil => exact fun acc => (List.append_nil acc).symm
    | cons s body ih =>
        intro acc
        rw [List.foldl_cons, ih, List.append_assoc, List.singleton_append]
  have hloop := reads_body hclose
    (fun (acc : List Stmt) ℓ input rest s hℓ hs => reads_blockTurn hterminators acc hℓ hs)
    (fun acc => reads_blockEnd hword acc after) body [] fuel hbody
    (fun s hs rest hfollows => hreads s hs fuel rest hfollows (by have := hprint s hs; omega))
    (by omega)
  rw [hadd] at hloop
  exact hloop

mutual
/-- Every statement is read back. -/
theorem Stmt.readsBack : ∀ {s : Stmt}, s.Printable IsVariable → ReadsBack s
  | .define name e, h, fuel, after, hfollows, hfuel => by
      obtain ⟨fuel, rfl⟩ := Nat.exists_eq_add_one_of_ne_zero (n := fuel) (by omega)
      rw [Stmt.print, List.length_cons, List.length_cons, List.length_cons] at hfuel
      exact reads_define ((Expr.readBack h.2).expression (hfollows.expr trivial) (by omega))
  | .assign name e, h, fuel, after, hfollows, hfuel => by
      obtain ⟨fuel, rfl⟩ := Nat.exists_eq_add_one_of_ne_zero (n := fuel) (by omega)
      rw [Stmt.print, List.length_cons, List.length_cons] at hfuel
      exact reads_assign ((Expr.readBack h.2).expression (hfollows.expr trivial) (by omega))
  | .show e, h, fuel, after, hfollows, hfuel => by
      obtain ⟨fuel, rfl⟩ := Nat.exists_eq_add_one_of_ne_zero (n := fuel) (by omega)
      rw [Stmt.print, List.length_cons] at hfuel
      exact reads_show ((Expr.readBack h).expression (hfollows.expr trivial) (by omega))
  | .exprStmt e, h, fuel, after, hfollows, hfuel => by
      obtain ⟨fuel, rfl⟩ := Nat.exists_eq_add_one_of_ne_zero (n := fuel) (by omega)
      rw [Stmt.print] at hfuel ⊢
      have hread : Reads (parseExpression fuel) (e.print 0 ++ after) e after :=
        (Expr.readBack h).expression (hfollows.expr trivial) (by omega)
      -- an expression must not be taken for an assignment
      have hassign := notAssign_print e 0 hfollows.assign
      obtain ⟨ℓ, tail, hprint, hopens⟩ := print_opens e 0
      rw [hprint, List.cons_append] at hread hassign ⊢
      exact reads_exprStmt hopens hassign hread
  | .ret none, _, fuel, after, hfollows, hfuel => by
      obtain ⟨fuel, rfl⟩ := Nat.exists_eq_add_one_of_ne_zero (n := fuel) (by omega)
      obtain ⟨ℓ, rest, rfl, hℓ⟩ := hfollows.ret rfl
      exact reads_returnNothing hℓ
  | .ret (some e), h, fuel, after, hfollows, hfuel => by
      obtain ⟨fuel, rfl⟩ := Nat.exists_eq_add_one_of_ne_zero (n := fuel) (by omega)
      rw [Stmt.print, List.length_cons] at hfuel
      have hread : Reads (parseExpression fuel) (e.print 0 ++ after) e after :=
        (Expr.readBack h).expression (hfollows.expr trivial) (by omega)
      obtain ⟨ℓ, tail, hprint, hopens⟩ := print_opens e 0
      rw [Stmt.print]
      rw [hprint, List.cons_append] at hread
      rw [hprint, List.cons_append, List.cons_append]
      exact reads_return hopens hread
  | .ifElse test thenBody elseBody, h, fuel, after, hfollows, hfuel => by
      obtain ⟨fuel, rfl⟩ := Nat.exists_eq_add_one_of_ne_zero (n := fuel) (by omega)
      obtain ⟨htest, hthen, helse⟩ := h
      have htestRead := Expr.readBack htest
      have hthenRead := bodyReadsBack hthen
      cases elseBody with
      | nil =>
          simp only [Stmt.print, List.isEmpty_nil, if_true, List.nil_append, List.length_cons,
            List.length_append] at hfuel
          simp only [Stmt.print, List.isEmpty_nil, if_true, List.nil_append, List.append_assoc,
            List.cons_append]
          exact reads_if (htestRead.expression (ends_keyword _ _) (by omega))
            (reads_block hthen hthenRead (List.Subset.refl _) (by decide) (by omega) after)
      | cons s elseBody =>
          have helseRead := bodyReadsBack helse
          simp only [Stmt.print, List.isEmpty_cons, Bool.false_eq_true, if_false, List.length_cons,
            List.length_append] at hfuel
          simp only [Stmt.print, List.isEmpty_cons, Bool.false_eq_true, if_false, List.nil_append,
            List.append_assoc, List.cons_append]
          exact reads_ifElse (htestRead.expression (ends_keyword _ _) (by omega))
            (reads_block hthen hthenRead (List.Subset.refl _) (by decide) (by omega) _)
            (reads_block helse helseRead (by decide) (by decide) (by omega) after)
  | .while test body, h, fuel, after, hfollows, hfuel => by
      obtain ⟨fuel, rfl⟩ := Nat.exists_eq_add_one_of_ne_zero (n := fuel) (by omega)
      simp only [Stmt.print, List.length_cons, List.length_append] at hfuel
      simp only [Stmt.print, List.append_assoc, List.cons_append, List.nil_append]
      exact reads_while ((Expr.readBack h.1).expression (ends_keyword _ _) (by omega))
        (reads_block h.2 (bodyReadsBack h.2) (by decide) (by decide) (by omega) after)
  | .forEach binding iterable body, h, fuel, after, hfollows, hfuel => by
      obtain ⟨fuel, rfl⟩ := Nat.exists_eq_add_one_of_ne_zero (n := fuel) (by omega)
      simp only [Stmt.print, List.length_cons, List.length_append] at hfuel
      simp only [Stmt.print, List.append_assoc, List.cons_append, List.nil_append]
      exact reads_forEach ((Expr.readBack h.2.1).expression (ends_keyword _ _) (by omega))
        (reads_block h.2.2 (bodyReadsBack h.2.2) (by decide) (by decide) (by omega) after)

theorem bodyReadsBack : ∀ {body : List Stmt}, BodyPrintable IsVariable body →
    ∀ s ∈ body, ReadsBack s
  | [], _, _, hs => nomatch hs
  | t :: body, h, s, hs => by
      rcases List.mem_cons.mp hs with heq | hs
      · exact heq ▸ Stmt.readsBack h.1
      · exact bodyReadsBack h.2.2 s hs
end

/-! ## Functions -/

/-- Parameters with commas between them, in front of the parenthesis. -/
theorem reads_paramNames (after : List Lexeme) : ∀ (params : List String) (acc : List String)
    (n : ℕ), params ≠ [] → params.length ≤ n →
    Reads (loop .outOfFuel paramTurn n acc) (printParams params ++ punct ")" :: after)
      (acc ++ params) (punct ")" :: after)
  | [], _, _, hne, _ => absurd rfl hne
  | [param], acc, n, _, hn => by
      obtain ⟨n, rfl⟩ := Nat.exists_eq_add_one_of_ne_zero (Nat.ne_of_gt hn)
      refine .loop_last (Reads.expect rfl fun token htoken => ?_)
      have hvalue : token.value = param := congrArg Lexeme.value htoken
      exact Reads.match_no rfl (hvalue ▸ .pure _ _)
  | param :: next :: params, acc, n, _, hn => by
      obtain ⟨n, rfl⟩ := Nat.exists_eq_add_one_of_ne_zero (Nat.ne_of_gt (Nat.zero_lt_of_lt hn))
      have hrest := reads_paramNames after (next :: params) (acc ++ [param]) n
        (List.cons_ne_nil _ _) (Nat.le_of_succ_le_succ hn)
      rw [List.append_assoc, List.singleton_append] at hrest
      refine .loop_next (Reads.expect rfl fun token htoken => ?_) hrest
      have hvalue : token.value = param := congrArg Lexeme.value htoken
      exact Reads.match_yes rfl fun _ _ => hvalue ▸ .pure _ _

theorem reads_params (params : List String) {fuel : ℕ} (hfuel : params.length ≤ fuel)
    (after : List Lexeme) :
    Reads (parseParams fuel) (punct "(" :: (printParams params ++ punct ")" :: after)) params
      after := by
  refine Reads.match_yes rfl fun _ _ => ?_
  have hend : ∀ found : List String, Reads (do
      let _ ← expect .punct (some ")") (some "')' esperado")
      return found) (punct ")" :: after) found after := fun _ => .expect rfl fun _ _ => .pure _ _
  cases params with
  | nil => exact .test (hend [])
  | cons param params =>
      have hloop := reads_paramNames after (param :: params) [] fuel
        (List.cons_ne_nil _ _) hfuel
      have hread : Reads (do
          let params ← loop .outOfFuel paramTurn fuel []
          let _ ← expect .punct (some ")") (some "')' esperado")
          return params) (printParams (param :: params) ++ punct ")" :: after) (param :: params)
          after := .bind hloop (hend (param :: params))
      cases params with
      | nil => exact .test hread
      | cons next params => exact .test hread

theorem length_printParams : ∀ params : List String, params.length ≤ (printParams params).length
  | [] => Nat.le_refl _
  | [_] => Nat.le_refl _
  | param :: next :: params => by
      have hrest := length_printParams (next :: params)
      show _ ≤ (ident param :: punct "," :: printParams (next :: params)).length
      simp only [List.length_cons] at hrest ⊢
      omega

/-- Every function is read back. -/
theorem reads_function {fn : FunctionDecl} (h : fn.Printable IsVariable) {fuel : ℕ}
    (hfuel : 5 * fn.print.length ≤ fuel) (after : List Lexeme) :
    Reads (parseFunction fuel) (fn.print ++ after) fn after := by
  have hparams := length_printParams fn.params
  simp only [FunctionDecl.print, List.length_cons, List.length_append] at hfuel
  simp only [FunctionDecl.print, List.append_assoc, List.cons_append, List.nil_append]
  refine .expect rfl fun _ _ => .expect rfl fun token htoken => ?_
  have hvalue : token.value = fn.name := congrArg Lexeme.value htoken
  rw [hvalue]
  refine .bind (reads_params fn.params (by omega) _) (Reads.expect rfl fun _ _ => ?_)
  exact .bind (reads_block h.body (bodyReadsBack h.body) (by decide) (by decide) (by omega) after)
    (Reads.expect rfl fun _ _ => .pure _ _)

/-! ## Programs -/

theorem reads_programStatement {fuel : ℕ} (program : Program) {ℓ : Lexeme} (hℓ : Begins ℓ)
    {input rest : List Lexeme} {s : Stmt} (hs : Reads (parseStatement fuel) (ℓ :: input) s rest) :
    Reads (programTurn fuel program) (ℓ :: input)
      ({ program with body := program.body ++ [s] }, true) rest := by
  have hword : ℓ.fits .eof none = false ∧ ℓ.fits .keyword (some "função") = false := by
    cases hℓ with
    | primary h => cases h <;> exact ⟨rfl, rfl⟩
    | neg | not => exact ⟨rfl, rfl⟩
    | @word w h =>
        have hfree : ∀ w ∈ startWords, (keyword w).fits .keyword (some "função") = false := by
          decide
        exact ⟨rfl, hfree w h⟩
  refine .test ?_
  rw [hword.1]
  refine .test ?_
  rw [hword.2]
  exact .bind hs (.pure _ _)

theorem reads_programFunction {fuel : ℕ} (program : Program) {fn : FunctionDecl}
    (h : fn.Printable IsVariable) (hfuel : 5 * fn.print.length ≤ fuel) (after : List Lexeme) :
    Reads (programTurn fuel program) (fn.print ++ after)
      ({ program with functions := program.functions ++ [fn] }, true) after := by
  have hread := reads_function h hfuel after
  exact .test (.test (.bind hread (.pure _ _)))

theorem reads_programEnd (fuel : ℕ) (program : Program) :
    Reads (programTurn fuel program) [eof] (program, false) [eof] := .test (.pure _ _)

/-- The functions first, then the statements. -/
theorem reads_functions {fuel : ℕ} {body : List Stmt} (hbody : BodyPrintable IsVariable body)
    (hfuel : 5 * (printBody body).length + 5 ≤ fuel) :
    ∀ (functions : List FunctionDecl) (program : Program) (n : ℕ),
      (∀ fn ∈ functions, fn.Printable IsVariable ∧ 5 * fn.print.length ≤ fuel) →
      functions.length + body.length < n →
      Reads (loop .outOfFuel (programTurn fuel) n program)
        (functions.flatMap FunctionDecl.print ++ (printBody body ++ [eof]))
        { functions := program.functions ++ functions, body := program.body ++ body } [eof] := by
  intro functions
  induction functions with
  | nil =>
      intro program n _ hn
      have hadd : ∀ (body : List Stmt) (program : Program),
          body.foldl (fun program s => { program with body := program.body ++ [s] }) program =
            { functions := program.functions ++ [], body := program.body ++ body } := by
        intro body
        induction body with
        | nil =>
            intro program
            rw [List.append_nil, List.append_nil]
            rfl
        | cons s body ih =>
            intro program
            rw [List.foldl_cons, ih, List.append_assoc, List.singleton_append]
      rw [← hadd]
      refine reads_body (by decide) (fun program ℓ input rest s hℓ hs =>
        reads_programStatement program hℓ hs) (reads_programEnd fuel) body program n hbody ?_
        (by simpa using hn)
      intro s hs rest hfollows
      have hprint := (length_printBody body).2 s hs
      exact bodyReadsBack hbody s hs fuel rest hfollows (by omega)
  | cons fn functions ih =>
      intro program n hfunctions hn
      obtain ⟨hfn, hrest⟩ := List.forall_mem_cons.mp hfunctions
      obtain ⟨n, rfl⟩ := Nat.exists_eq_add_one_of_ne_zero (Nat.ne_of_gt (Nat.zero_lt_of_lt hn))
      have hnext := ih { program with functions := program.functions ++ [fn] } n hrest
        (by rw [List.length_cons] at hn; omega)
      rw [List.append_assoc, List.singleton_append] at hnext
      rw [List.flatMap_cons, List.append_assoc]
      exact .loop_next (reads_programFunction program hfn.1 hfn.2 _) hnext

theorem length_flatMap_print (functions : List FunctionDecl) :
    functions.length ≤ (functions.flatMap FunctionDecl.print).length ∧
      ∀ fn ∈ functions, fn.print.length ≤ (functions.flatMap FunctionDecl.print).length := by
  induction functions with
  | nil => exact ⟨Nat.le_refl _, nofun⟩
  | cons fn functions ih =>
      have hpos : 0 < fn.print.length := Nat.succ_pos _
      rw [List.flatMap_cons, List.length_cons, List.length_append]
      refine ⟨by omega, ?_⟩
      intro fn' hfn'
      rcases List.mem_cons.mp hfn' with rfl | hfn'
      · omega
      · have hlen := ih.2 fn' hfn'
        omega

/-- The parser reads the tokens of a printed program back, and leaves the token of its end. -/
theorem parse_print {program : Program} (h : program.Printable IsVariable) {tokens : List Token}
    (htokens : tokens.map Token.lexeme = program.print ++ [eof]) :
    ∃ rest, parse tokens = .ok (program, rest) ∧ rest.map Token.lexeme = [eof] := by
  have hlength : tokens.length = program.print.length + 1 := by
    rw [← List.length_map, htokens, List.length_append, List.length_singleton]
  obtain ⟨hcount, hprint⟩ := length_flatMap_print program.functions
  obtain ⟨hcount', hprint'⟩ := length_printBody program.body
  rw [Program.print, List.length_append] at hlength
  have hfuel : ∀ fn ∈ program.functions,
      fn.Printable IsVariable ∧ 5 * fn.print.length ≤ 7 * tokens.length + 8 := by
    intro fn hfn
    have hfnPrint := hprint fn hfn
    exact ⟨h.functions fn hfn, by omega⟩
  have hread := reads_functions h.body (by omega) program.functions
    { functions := [], body := [] } (7 * tokens.length + 8) hfuel (by omega)
  obtain ⟨rest, hrun, hrest⟩ := hread tokens (by rw [htokens, Program.print, List.append_assoc])
  exact ⟨rest, hrun, hrest⟩

end Parser

end GatoCore.Native
