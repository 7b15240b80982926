import GatoCore.Native.Lexer

/-!
# Words of a source text

Where a maximal word stands in front of the tokenizer, the token is the one `readWord` makes of
that word, and the tokenizer goes on behind it.
-/

namespace GatoCore.Native

namespace Lexer

/-- Characters that `readWord` reads to their end. -/
structure IsWord (word : List Char) : Prop where
  start : ∃ ch rest, word = ch :: rest ∧ isIdStart ch = true
  all : ∀ ch ∈ word, isIdContinue ch = true

/-- The word does not go on here. -/
def ClassEnds (p : Char → Bool) (post : List Char) : Prop :=
  ∀ ch, post.head? = some ch → p ch = false

/-- The cursors at which the loop of `tokenize` reads a token or stops. -/
inductive Starts (source : List Char) : Cursor → Prop
  | first : Starts source (skipWhitespace false source { rest := source, line := 1, col := 1 })
  | next {cursor after : Cursor} {ch : Char} {rest : List Char} {token : Token} :
      Starts source cursor → cursor.rest = ch :: rest →
      readToken ch rest cursor = .ok (token, after) →
      Starts source (skipWhitespace false after.rest after)

/-! ## Characters -/

theorem char_le_iff {a b : Char} : a ≤ b ↔ a.toNat ≤ b.toNat := by
  rw [Char.le_def, UInt32.le_iff_toNat_le]
  rfl

/-- A character that can start a word starts nothing else. -/
theorem isIdStart_only {ch : Char} (h : isIdStart ch = true) :
    ch ≠ '"' ∧ ch ≠ '\'' ∧ isDigit ch = false := by
  refine ⟨?_, ?_, ?_⟩
  · rintro rfl
    exact absurd h (by decide)
  · rintro rfl
    exact absurd h (by decide)
  · rw [Bool.eq_false_iff]
    intro hdigit
    simp only [isIdStart, isDigit, Bool.or_eq_true, Bool.and_eq_true, decide_eq_true_eq,
      char_le_iff] at h hdigit
    have hbounds : 48 ≤ ch.toNat ∧ ch.toNat ≤ 57 := hdigit
    rcases h with ((⟨hlow, -⟩ | ⟨hlow, -⟩) | rfl) | hhigh
    · have h97 : 97 ≤ ch.toNat := hlow
      omega
    · have h65 : 65 ≤ ch.toNat := hlow
      omega
    · exact absurd hdigit (by decide)
    · omega

theorem isBlank_of_isIdStart {ch : Char} (h : isIdStart ch = true) :
    isBlank ch = false ∧ ch ≠ '#' ∧ ch ≠ '/' := by
  refine ⟨?_, ?_, ?_⟩
  · rw [Bool.eq_false_iff]
    intro hblank
    simp only [isBlank, Bool.or_eq_true, decide_eq_true_eq] at hblank
    rcases hblank with ((rfl | rfl) | rfl) | rfl
    all_goals exact absurd h (by decide)
  · rintro rfl
    exact absurd h (by decide)
  · rintro rfl
    exact absurd h (by decide)

/-! ## Reading a word -/

theorem over_rest (cursor : Cursor) (ch : Char) (rest : List Char) :
    (cursor.over ch rest).rest = rest := by
  rw [Cursor.over]
  split <;> rfl

theorem readWhile_append {p : Char → Bool} {post : List Char} (hpost : ClassEnds p post) :
    ∀ (value : List Char) (cursor : Cursor), (∀ ch ∈ value, p ch = true) →
      cursor.rest = value ++ post →
      ∃ after, readWhile p (value ++ post) cursor = (value, after) ∧ after.rest = post := by
  intro value
  induction value with
  | nil =>
      intro cursor _ hrest
      refine ⟨cursor, ?_, hrest⟩
      cases post with
      | nil => rfl
      | cons ch post =>
          have hstop := hpost ch rfl
          show readWhile p (ch :: post) cursor = _
          rw [readWhile, if_neg (by simp [hstop])]
  | cons ch value ih =>
      intro cursor hall _
      obtain ⟨hch, hvalue⟩ := List.forall_mem_cons.mp hall
      obtain ⟨after, hread, hafter⟩ := ih (cursor.over ch (value ++ post)) hvalue (over_rest _ _ _)
      refine ⟨after, ?_, hafter⟩
      rw [List.cons_append, readWhile, if_pos hch, hread]

theorem readToken_word {word post : List Char} (hword : IsWord word)
    (hpost : ClassEnds isIdContinue post) (cursor : Cursor) {ch : Char} {rest : List Char}
    (hrest : ch :: rest = word ++ post) :
    ∃ after, readToken ch rest cursor =
      .ok (wordToken (String.ofList word) cursor.line cursor.col, after) ∧ after.rest = post := by
  obtain ⟨first, value, rfl, hfirst⟩ := hword.start
  rw [List.cons_append] at hrest
  obtain ⟨rfl, rfl⟩ := List.cons.inj hrest
  obtain ⟨hquote, hapostrophe, hdigit⟩ := isIdStart_only hfirst
  have hvalue : ∀ c ∈ value, isIdContinue c = true :=
    fun c hc => hword.all c (List.mem_cons_of_mem _ hc)
  obtain ⟨after, hread, hafter⟩ :=
    readWhile_append hpost value (cursor.over ch (value ++ post)) hvalue (over_rest _ _ _)
  refine ⟨after, ?_, hafter⟩
  simp only [readToken, hquote, hapostrophe, hdigit, hfirst, hread, decide_false, Bool.or_self,
    Bool.false_eq_true, if_false, if_true]

/-! ## The token is in the result -/

theorem tokenizeFrom_succ (fuel : ℕ) (cursor : Cursor) :
    tokenizeFrom (fuel + 1) cursor =
      match (skipWhitespace false cursor.rest cursor).rest with
      | [] => .ok [{ type := .eof, value := ""
                     line := (skipWhitespace false cursor.rest cursor).line
                     col := (skipWhitespace false cursor.rest cursor).col }]
      | ch :: rest => do
          let (token, after) ← readToken ch rest (skipWhitespace false cursor.rest cursor)
          return token :: (← tokenizeFrom fuel after) := rfl

/-- At a start, what is still to be read gives the rest of the tokens. -/
theorem Starts.suffix {source : List Char} {tokens : List Token}
    (htokens : tokenize source = .ok tokens) {start : Cursor} (h : Starts source start) :
    ∃ fuel cursor later, skipWhitespace false cursor.rest cursor = start ∧
      tokenizeFrom fuel cursor = .ok later ∧ later <:+ tokens := by
  induction h with
  | first => exact ⟨_, _, tokens, rfl, htokens, List.suffix_rfl⟩
  | @next start after ch rest token _ hrest hread ih =>
      obtain ⟨fuel, cursor, later, rfl, hlater, hsuffix⟩ := ih
      cases fuel with
      | zero => cases hlater
      | succ fuel =>
          rw [tokenizeFrom_succ, hrest] at hlater
          simp only [hread, bind, Except.bind] at hlater
          split at hlater
          · cases hlater
          next more hmore =>
            cases hlater
            exact ⟨fuel, after, more, rfl, hmore, (List.suffix_cons _ _).trans hsuffix⟩

/-- The token of a word is among the tokens of the text. -/
theorem wordToken_mem {source word post : List Char} {tokens : List Token}
    (htokens : tokenize source = .ok tokens) {start : Cursor} (h : Starts source start)
    (hrest : start.rest = word ++ post) (hword : IsWord word)
    (hpost : ClassEnds isIdContinue post) :
    wordToken (String.ofList word) start.line start.col ∈ tokens ∧
      ∃ after, Starts source (skipWhitespace false after.rest after) ∧ after.rest = post := by
  obtain ⟨first, value, hvalue, -⟩ := hword.start
  have hfront : start.rest = first :: (value ++ post) := by
    rw [hrest, hvalue]
    rfl
  obtain ⟨after, hread, hafter⟩ :=
    readToken_word hword hpost start (hfront.symm.trans hrest)
  refine ⟨?_, after, .next h hfront hread, hafter⟩
  obtain ⟨fuel, cursor, later, hstart, hlater, hsuffix⟩ := h.suffix htokens
  cases fuel with
  | zero => cases hlater
  | succ fuel =>
      rw [tokenizeFrom_succ, hstart, hfront] at hlater
      simp only [hread, bind, Except.bind] at hlater
      split at hlater
      · cases hlater
      · cases hlater
        exact hsuffix.subset List.mem_cons_self

/-! ## The value of the token -/

theorem lookup_eq_none_of_notMem {word : String} :
    ∀ {table : List (String × String)}, word ∉ table.map Prod.fst → table.lookup word = none := by
  intro table
  induction table with
  | nil =>
      intro _
      rfl
  | cons entry table ih =>
      intro h
      rw [List.map_cons, List.mem_cons, not_or] at h
      obtain ⟨key, canonical⟩ := entry
      have hne : (word == key) = false := beq_eq_false_iff_ne.mpr h.1
      rw [List.lookup_cons, hne]
      exact ih h.2

/-- A word that is no key of any of the tables. -/
theorem wordToken_plain {word : String} (halias : word ∉ aliases.map Prod.fst)
    (hkeyword : word ∉ keywords) (hplain : word ∉ objectPrototypeKeys) (line col : ℕ) :
    wordToken word line col = { type := .identifier, value := word, line := line, col := col } := by
  have hnone : aliasOf word = none := by
    rw [aliasOf, lookup_eq_none_of_notMem halias]
    simp [hplain]
  have hset : inKeywordSet word = false := by simp [inKeywordSet, hkeyword, hplain]
  simp [wordToken, hnone, hset]

/-- A word that every object answers to. -/
theorem wordToken_inherited : ∀ word ∈ objectPrototypeKeys, ∀ line col,
    wordToken word line col =
        { type := .identifier, value := inheritedText word, line := line, col := col } ∧
      inheritedText word ≠ word ∧ inheritedText word ∉ objectPrototypeKeys ∧
      tokenize word.toList = .ok [wordToken word 1 1,
        { type := .eof, value := "", line := 1, col := 1 + word.length }] := by
  have hvalues : ∀ word ∈ objectPrototypeKeys, (aliasOf word).getD word = inheritedText word ∧
      inKeywordSet (inheritedText word) = false ∧ inheritedText word ≠ word ∧
      inheritedText word ∉ objectPrototypeKeys ∧
      tokenize word.toList = .ok [wordToken word 1 1,
        { type := .eof, value := "", line := 1, col := 1 + word.length }] := by
    decide +kernel
  intro word hword line col
  obtain ⟨hvalue, hset, hne, hnot, htokens⟩ := hvalues word hword
  exact ⟨by simp [wordToken, hvalue, hset], hne, hnot, htokens⟩

end Lexer

end GatoCore.Native
