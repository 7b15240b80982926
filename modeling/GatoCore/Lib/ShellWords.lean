import Mathlib.Data.List.Basic
import Mathlib.Tactic.Common

/-!
# Words of a shell command

How a POSIX shell reads one simple command without expansions: blanks end a word, single and double
quotes and backslashes quote, and quote removal drops the quotes. A text that is anything else (an
operator, a second line, an expansion, a pattern, a comment, an assignment, a reserved word, an
open quote) has no words here.
-/

namespace GatoCore.Lib

/-- The quoting around the next character. -/
inductive Quoting where
  | plain
  | escaped
  | single
  | double
  | doubleEscaped
deriving DecidableEq, Repr

/-- The word being read: what it is after quote removal, and whether some of it was quoted. -/
structure ShellWord where
  text : List Char
  quoted : Bool
deriving DecidableEq, Repr

structure ShellScan where
  quoting : Quoting
  word : Option ShellWord
  words : List ShellWord
deriving DecidableEq, Repr

def ShellScan.init : ShellScan := ⟨.plain, none, []⟩

namespace ShellScan

/-- The word so far; one begins where there was none. -/
def current (s : ShellScan) : ShellWord := s.word.getD ⟨[], false⟩

/-- A blank ends the word, if there is one. -/
def endWord (s : ShellScan) : ShellScan :=
  ⟨.plain, none, s.words ++ s.word.toList⟩

/-- One more character of the word. -/
def push (s : ShellScan) (c : Char) (q : Quoting) : ShellScan :=
  { s with quoting := q, word := some { s.current with text := s.current.text ++ [c] } }

/-- Enter a quotation; the word is a quoted one from here on. -/
def quote (s : ShellScan) (q : Quoting) : ShellScan :=
  { s with quoting := q, word := some { s.current with quoted := true } }

/-- Leave the quotation without adding to the word. -/
def resume (s : ShellScan) (q : Quoting) : ShellScan := { s with quoting := q }

end ShellScan

/-- Characters that are operators, expansions, patterns, assignments, comments or the end of the
command where nothing quotes them. -/
def shellSpecial (c : Char) : Bool :=
  c ∈ ['\n', '|', '&', ';', '<', '>', '(', ')', '$', '\x60', '*', '?', '[', ']', '#', '~', '=',
    '{', '}', '!', '\x00']

/-- What a backslash quotes inside double quotes. -/
def doubleEscapable (c : Char) : Bool := c ∈ ['$', '\x60', '"', '\\']

def shellStep (s : ShellScan) (c : Char) : Option ShellScan :=
  match s.quoting with
  | .plain =>
      if c = ' ' ∨ c = '\t' then some s.endWord
      else if c = '\'' then some (s.quote .single)
      else if c = '"' then some (s.quote .double)
      else if c = '\\' then some (s.resume .escaped)
      else if shellSpecial c then none
      else some (s.push c .plain)
  | .escaped =>
      -- a quoted newline is a line continuation
      if c = '\n' then some (s.resume .plain) else some ((s.quote .plain).push c .plain)
  | .single => if c = '\'' then some (s.resume .plain) else some (s.push c .single)
  | .double =>
      if c = '"' then some (s.resume .plain)
      else if c = '\\' then some (s.resume .doubleEscaped)
      else if c = '$' ∨ c = '\x60' then none
      else some (s.push c .double)
  | .doubleEscaped =>
      if c = '\n' then some (s.resume .double)
      else if doubleEscapable c then some (s.push c .double)
      else some ((s.push '\\' .double).push c .double)

/-- Read a text from a state on. -/
def shellScan (s : ShellScan) : List Char → Option ShellScan
  | [] => some s
  | c :: cs => (shellStep s c).bind fun s' => shellScan s' cs

theorem shellScan_append (s : ShellScan) (cs ds : List Char) :
    shellScan s (cs ++ ds) = (shellScan s cs).bind fun s' => shellScan s' ds := by
  induction cs generalizing s with
  | nil => rfl
  | cons c cs ih =>
      rw [List.cons_append, shellScan, shellScan]
      cases shellStep s c with
      | none => rfl
      | some s' => exact ih s'

def reservedWords : List String :=
  ["case", "do", "done", "elif", "else", "esac", "fi", "for", "if", "in", "then", "until", "while"]

/-- Only an unquoted word can be reserved. -/
def ShellWord.reserved (w : ShellWord) : Bool :=
  !w.quoted && reservedWords.any fun r => decide (r.toList = w.text)

/-- The words of the simple command that a text is: its command name and arguments. -/
def shellWords (command : List Char) : Option (List (List Char)) := do
  let s ← shellScan .init command
  if s.quoting ≠ .plain then none
  else
    let words := s.endWord.words
    if words.head?.any ShellWord.reserved then none
    else return words.map ShellWord.text

/-! ## Quoted words -/

/-- Where a word may begin, `q` is read as the one quoted word `v`. -/
def QuotedAs (q v : List Char) : Prop :=
  ∀ words, shellScan ⟨.plain, none, words⟩ q = some ⟨.plain, some ⟨v, true⟩, words⟩

/-- Text inside a quotation that is read character by character: each piece adds one character and
leaves the quotation as it was. -/
theorem shellScan_flatMap {q : Quoting} {piece : Char → List Char}
    (hpiece : ∀ c v words, shellScan ⟨q, some ⟨v, true⟩, words⟩ (piece c)
      = some ⟨q, some ⟨v ++ [c], true⟩, words⟩) (cs : List Char) :
    ∀ v words, shellScan ⟨q, some ⟨v, true⟩, words⟩ (cs.flatMap piece)
      = some ⟨q, some ⟨v ++ cs, true⟩, words⟩ := by
  induction cs with
  | nil =>
      intro v words
      rw [List.flatMap_nil, shellScan, List.append_nil]
  | cons c cs ih =>
      intro v words
      rw [List.flatMap_cons, shellScan_append, hpiece, Option.bind_some, ih, List.append_assoc,
        List.singleton_append]

/-- Quoted words between single blanks are read as those words. -/
theorem shellScan_intercalate {qs vs : List (List Char)} (h : List.Forall₂ QuotedAs qs vs) :
    ∀ words, ∃ s, shellScan ⟨.plain, none, words⟩ ([' '].intercalate qs) = some s ∧
      s.quoting = .plain ∧ s.endWord.words = words ++ vs.map (⟨·, true⟩) := by
  induction h with
  | nil =>
      intro words
      exact ⟨_, rfl, rfl, rfl⟩
  | @cons q v qs vs hq hqs ih =>
      intro words
      cases hqs with
      | nil =>
          refine ⟨⟨.plain, some ⟨v, true⟩, words⟩, ?_, rfl, rfl⟩
          rw [List.intercalate_singleton, hq]
      | @cons q' v' qs vs hq' hqs =>
          obtain ⟨s, hs, hplain, hwords⟩ := ih (words ++ [⟨v, true⟩])
          refine ⟨s, ?_, hplain, ?_⟩
          · -- the blank ends the word `v`
            have hblank : shellScan ⟨.plain, some ⟨v, true⟩, words⟩ [' ']
                = some ⟨.plain, none, words ++ [⟨v, true⟩]⟩ := rfl
            rw [List.intercalate_cons_cons, shellScan_append, shellScan_append, hq,
              Option.bind_some, hblank, Option.bind_some, hs]
          · rw [hwords, List.append_assoc]
            rfl

/-- A quotation of every word is read as exactly those words. -/
theorem shellWords_intercalate {qs vs : List (List Char)} (h : List.Forall₂ QuotedAs qs vs) :
    shellWords ([' '].intercalate qs) = some vs := by
  obtain ⟨s, hs, hplain, hwords⟩ := shellScan_intercalate h []
  rw [List.nil_append] at hwords
  have hreserved : s.endWord.words.head?.any ShellWord.reserved = false := by
    rw [hwords]
    cases vs with
    | nil => rfl
    | cons v vs => rfl
  have htexts : s.endWord.words.map ShellWord.text = vs := by
    rw [hwords, List.map_map]
    exact List.map_id vs
  simp only [shellWords, ShellScan.init, hs, hplain, hreserved, htexts, Option.bind_eq_bind,
    Option.bind_some, ne_eq, not_true_eq_false, if_false, Bool.false_eq_true, Option.pure_def]

end GatoCore.Lib
