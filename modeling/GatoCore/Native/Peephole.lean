import Mathlib.Data.List.Induction
import GatoCore.Lib.Lists

/-!
# The peephole optimiser

Source: `applyPeephole` with the rules of `snippets/peephole/base.json` and
`snippets/peephole/arithmetic.json`.

Every rule is a regular expression from the first to the last character of a line,
`^\s*op\s+([a-z0-9]+),\s*operand\s*$`, whose match is replaced by the empty text. The classes that
follow each other in it have no character in common, so it matches in one way at most.
-/

namespace GatoCore.Native

open GatoCore.Lib

namespace Peephole

/-- `\s`. -/
def isSpace (ch : Char) : Bool :=
  (9 ≤ ch.toNat && ch.toNat ≤ 13) || ch.toNat = 32 || ch.toNat = 0xa0 || ch.toNat = 0x1680 ||
    (0x2000 ≤ ch.toNat && ch.toNat ≤ 0x200a) || ch.toNat = 0x2028 || ch.toNat = 0x2029 ||
    ch.toNat = 0x202f || ch.toNat = 0x205f || ch.toNat = 0x3000 || ch.toNat = 0xfeff

/-- `[a-z0-9]`. -/
def isRegChar (ch : Char) : Bool := ('a' ≤ ch && ch ≤ 'z') || ('0' ≤ ch && ch ≤ '9')

/-- The second operand of a rule: `\1` or a number. -/
inductive RuleOperand where
  | same
  | number (text : List Char)

/-- A rule with its `pattern`; every `replace` is the empty text. -/
structure Rule where
  op : List Char
  operand : RuleOperand

def rules : List Rule :=
  [⟨['m', 'o', 'v'], .same⟩, ⟨['a', 'd', 'd'], .number ['0']⟩, ⟨['s', 'u', 'b'], .number ['0']⟩,
    ⟨['i', 'm', 'u', 'l'], .number ['1']⟩, ⟨['o', 'r'], .number ['0']⟩,
    ⟨['a', 'n', 'd'], .number ['-', '1']⟩]

/-- The operand at the front, then white space up to the end of the line. -/
def RuleOperand.test (operand : RuleOperand) (register line : List Char) : Bool :=
  let text := match operand with
    | .same => register
    | .number text => text
  text.isPrefixOf line && (line.drop text.length).all isSpace

/-- `regex.test(next)`. -/
def Rule.test (rule : Rule) (line : List Char) : Bool :=
  let line := line.dropWhile isSpace
  let args := line.drop rule.op.length
  let first := args.dropWhile isSpace
  let register := first.takeWhile isRegChar
  rule.op.isPrefixOf line && (args.head?.map isSpace).getD false && register ≠ [] &&
    match first.dropWhile isRegChar with
    | ',' :: second => rule.operand.test register (second.dropWhile isSpace)
    | _ => false

/-- The function `lines.map` is called with. -/
def applyRules (line : List Char) : List Char :=
  rules.foldl (fun next rule => if rule.test next then [] else next) line

/-- The `while` loop, for at most `n` more iterations. -/
def passes : ℕ → List (List Char) → List (List Char)
  | 0, lines => lines
  | n + 1, lines => if lines.map applyRules = lines then lines else passes n (lines.map applyRules)

/-- The `filter`; `previous` is `array[index - 1]`. -/
def dropRepeated : Option (List Char) → List (List Char) → List (List Char)
  | _, [] => []
  | previous, line :: lines =>
      if line = [] ∧ previous = some [] then dropRepeated (some line) lines
      else line :: dropRepeated (some line) lines

/-- `text.replace(/\n*$/, "\n")`. -/
def endInNewline (text : List Char) : List Char :=
  (text.reverse.dropWhile (· = '\n')).reverse ++ ['\n']

def applyPeephole (assembly : List Char) : List Char :=
  endInNewline (['\n'].intercalate (dropRepeated none (passes 4 (assembly.splitOn '\n'))))

/-! ## The lines that are kept -/

/-- The line is not empty, and no rule matches it. -/
def Kept (line : List Char) : Prop := line ≠ [] ∧ ∀ rule ∈ rules, rule.test line = false

instance (line : List Char) : Decidable (Kept line) :=
  inferInstanceAs (Decidable (line ≠ [] ∧ ∀ rule ∈ rules, rule.test line = false))

theorem applyRules_of_kept {line : List Char} (h : Kept line) : applyRules line = line := by
  have hfold : ∀ (some : List Rule), (∀ rule ∈ some, rule.test line = false) →
      some.foldl (fun next rule => if rule.test next then [] else next) line = line := by
    intro some
    induction some with
    | nil => exact fun _ => rfl
    | cons rule some ih =>
        intro hall
        obtain ⟨hrule, hsome⟩ := List.forall_mem_cons.mp hall
        rw [List.foldl_cons, hrule, if_neg Bool.false_ne_true]
        exact ih hsome
  exact hfold rules h.2

/-- What a rule matches becomes empty, and stays so. -/
theorem applyRules_of_not_kept {line : List Char} (h : ¬ Kept line) : applyRules line = [] := by
  have hnil : ∀ (some : List Rule),
      some.foldl (fun next rule => if rule.test next then [] else next) ([] : List Char) = [] := by
    intro some
    induction some with
    | nil => rfl
    | cons rule some ih =>
        rw [List.foldl_cons]
        split
        all_goals exact ih
  by_cases hempty : line = []
  · rw [hempty]
    exact hnil rules
  · have hmatch : ∃ rule ∈ rules, rule.test line = true := by
      by_contra hnone
      push Not at hnone
      exact h ⟨hempty, fun rule hrule => Bool.eq_false_iff.mpr (hnone rule hrule)⟩
    have hfold : ∀ (some : List Rule), (∃ rule ∈ some, rule.test line = true) →
        some.foldl (fun next rule => if rule.test next then [] else next) line = [] := by
      intro some
      induction some with
      | nil => exact fun ⟨_, hrule, _⟩ => absurd hrule List.not_mem_nil
      | cons rule some ih =>
          rintro ⟨match', hmem, htest⟩
          rw [List.foldl_cons]
          split
          · exact hnil some
          · rename_i hno
            rcases List.mem_cons.mp hmem with rfl | hmem
            · exact absurd htest hno
            · exact ih ⟨match', hmem, htest⟩
    exact hfold rules hmatch

theorem not_kept_nil : ¬ Kept [] := fun h => h.1 rfl

/-- One pass over the lines keeps the kept ones. -/
theorem filter_map_applyRules (lines : List (List Char)) :
    (lines.map applyRules).filter (fun line => decide (Kept line)) =
      lines.filter fun line => decide (Kept line) := by
  induction lines with
  | nil => rfl
  | cons line lines ih =>
      rw [List.map_cons]
      by_cases hkept : Kept line
      · rw [applyRules_of_kept hkept, List.filter_cons_of_pos (by simpa using hkept),
          List.filter_cons_of_pos (by simpa using hkept), ih]
      · rw [applyRules_of_not_kept hkept, List.filter_cons_of_neg (by simpa using not_kept_nil),
          List.filter_cons_of_neg (by simpa using hkept), ih]

theorem filter_passes : ∀ (n : ℕ) (lines : List (List Char)),
    (passes n lines).filter (fun line => decide (Kept line)) =
      lines.filter fun line => decide (Kept line) := by
  intro n
  induction n with
  | zero => exact fun _ => rfl
  | succ n ih =>
      intro lines
      rw [passes]
      split
      · rfl
      · rw [ih, filter_map_applyRules]

theorem filter_dropRepeated : ∀ (lines : List (List Char)) (previous : Option (List Char)),
    (dropRepeated previous lines).filter (fun line => decide (Kept line)) =
      lines.filter fun line => decide (Kept line) := by
  intro lines
  induction lines with
  | nil => exact fun _ => rfl
  | cons line lines ih =>
      intro previous
      rw [dropRepeated]
      split
      next hblank =>
        rw [hblank.1, List.filter_cons_of_neg (by simpa using not_kept_nil), ih]
      next => rw [List.filter_cons, List.filter_cons, ih]

theorem filter_endInNewline (text : List Char) :
    ((endInNewline text).splitOn '\n').filter (fun line => decide (Kept line)) =
      (text.splitOn '\n').filter fun line => decide (Kept line) := by
  -- a newline at the end only adds an empty line
  have hend : ∀ text : List Char, ((text ++ ['\n']).splitOn '\n').filter
      (fun line => decide (Kept line)) = (text.splitOn '\n').filter fun line =>
          decide (Kept line) := by
    intro text
    rw [List.splitOn_append_cons_self, List.splitOn_nil, List.filter_append,
      List.filter_cons_of_neg (by simpa using not_kept_nil), List.filter_nil, List.append_nil]
  rw [endInNewline, hend]
  induction text using List.reverseRecOn with
  | nil => rfl
  | append_singleton text ch ih =>
      rw [List.reverse_append, List.reverse_singleton, List.singleton_append, List.dropWhile_cons]
      split
      next hch => rw [ih, of_decide_eq_true hch, hend]
      next => rw [List.reverse_cons, List.reverse_reverse]

/-! ## Lines stay lines -/

theorem applyRules_subset (line : List Char) : applyRules line ⊆ line := by
  by_cases hkept : Kept line
  · rw [applyRules_of_kept hkept]
    exact List.Subset.refl _
  · rw [applyRules_of_not_kept hkept]
    exact List.nil_subset _

/-- No line of the result has a newline in it. -/
theorem newline_notMem_passes : ∀ (n : ℕ) (lines : List (List Char)),
    (∀ line ∈ lines, '\n' ∉ line) → ∀ line ∈ passes n lines, '\n' ∉ line := by
  intro n
  induction n with
  | zero => exact fun _ h => h
  | succ n ih =>
      intro lines h
      rw [passes]
      split
      · exact h
      · refine ih _ fun line hline => ?_
        obtain ⟨before, hbefore, rfl⟩ := List.mem_map.mp hline
        exact fun hmem => h before hbefore (applyRules_subset before hmem)

theorem passes_ne_nil : ∀ (n : ℕ) {lines : List (List Char)}, lines ≠ [] → passes n lines ≠ [] := by
  intro n
  induction n with
  | zero => exact fun h => h
  | succ n ih =>
      intro lines h
      rw [passes]
      split
      · exact h
      · exact ih (by simpa using h)

theorem dropRepeated_sublist : ∀ (lines : List (List Char)) (previous : Option (List Char)),
    (dropRepeated previous lines).Sublist lines := by
  intro lines
  induction lines with
  | nil => exact fun _ => List.Sublist.refl _
  | cons line lines ih =>
      intro previous
      rw [dropRepeated]
      split
      · exact (ih _).cons _
      · exact (ih _).cons_cons _

theorem dropRepeated_ne_nil {lines : List (List Char)} (h : lines ≠ []) :
    dropRepeated none lines ≠ [] := by
  obtain ⟨line, rest, rfl⟩ := List.exists_cons_of_ne_nil h
  rw [dropRepeated, if_neg fun hblank => nomatch hblank.2]
  exact List.cons_ne_nil _ _

/-- The rules and the clean-up of blank lines keep all other lines, in their order. -/
theorem filter_applyPeephole (assembly : List Char) :
    ((applyPeephole assembly).splitOn '\n').filter (fun line => decide (Kept line)) =
      (assembly.splitOn '\n').filter fun line => decide (Kept line) := by
  have hlines : ∀ line ∈ dropRepeated none (passes 4 (assembly.splitOn '\n')), '\n' ∉ line := by
    intro line hline
    refine newline_notMem_passes 4 (assembly.splitOn '\n') ?_ line
      ((dropRepeated_sublist _ _).subset hline)
    exact fun before hbefore => (mem_splitOn hbefore).1
  have hne := dropRepeated_ne_nil (passes_ne_nil 4 (List.splitOn_ne_nil '\n' assembly))
  rw [applyPeephole, filter_endInNewline, List.splitOn_intercalate _ hlines hne,
    filter_dropRepeated, filter_passes]

end Peephole

end GatoCore.Native
