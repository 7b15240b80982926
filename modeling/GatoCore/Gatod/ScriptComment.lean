import GatoCore.Gatod.ScriptDirty

/-!
# Commenting a line and commenting it again

The branch that takes a comment away removes the first `// ` of the line and then the first `//` of
what is left. On a line the other branch has commented, the first replacement has already restored
the line, and the second one takes away a marker of the line itself where it has one.
-/

namespace GatoCore.Gatod

open GatoCore.Lib GatoCore.Stdlib

/-! ## Replacing the first occurrence -/

section Replace

attribute [local grind =] replaceFirst

variable {pattern new text : Text}

theorem replaceFirst_append (hpattern : pattern ≠ []) :
    replaceFirst pattern new (pattern ++ text) = new ++ text := by
  obtain ⟨c, rest, rfl⟩ := List.exists_cons_of_ne_nil hpattern
  have hprefix : (c :: rest).isPrefixOf (c :: (rest ++ text)) = true := by
    rw [List.isPrefixOf_iff_prefix]
    exact List.prefix_append (c :: rest) text
  rw [List.cons_append, replaceFirst, if_pos hprefix, ← List.cons_append, List.drop_left]

theorem replaceFirst_of_not_infix (h : ¬ pattern <:+: text) :
    replaceFirst pattern new text = text := by
  induction text with
  | nil =>
      have hpattern : pattern ≠ [] := by
        rintro rfl
        exact h (List.infix_refl [])
      rw [replaceFirst, if_neg hpattern]
  | cons c text ih =>
      have hprefix : ¬ pattern.isPrefixOf (c :: text) = true := by
        rw [List.isPrefixOf_iff_prefix]
        exact fun hp => h hp.isInfix
      have htext : ¬ pattern <:+: text := fun hi => h (hi.trans (List.suffix_cons c text).isInfix)
      rw [replaceFirst, if_neg hprefix, ih htext]

/-- Where the pattern occurs, the text loses its length. -/
theorem length_replaceFirst (h : pattern <:+: text) :
    (replaceFirst pattern [] text).length + pattern.length = text.length := by
  induction text with
  | nil =>
      obtain rfl : pattern = [] := List.infix_nil.mp h
      rfl
  | cons c text ih =>
      rw [replaceFirst]
      by_cases hprefix : pattern.isPrefixOf (c :: text) = true
      · have hle := (List.isPrefixOf_iff_prefix.mp hprefix).length_le
        rw [if_pos hprefix, List.nil_append, List.length_drop]
        exact Nat.sub_add_cancel hle
      · have htext : pattern <:+: text := by
          rcases List.infix_cons_iff.mp h with hp | hi
          · exact absurd (List.isPrefixOf_iff_prefix.mpr hp) hprefix
          · exact hi
        rw [if_neg hprefix, List.length_cons, List.length_cons, ← ih htext]
        exact Nat.add_right_comm _ _ _

theorem replaceFirst_sublist : (replaceFirst pattern [] text).Sublist text := by
  induction text with
  | nil =>
      rw [replaceFirst, ite_self]
  | cons c text ih =>
      rw [replaceFirst]
      split
      · exact List.drop_sublist _ _
      · exact ih.cons_cons c

end Replace

/-! ## One line -/

section Line

variable {line : Text}

/-- The trimmed line starts with the marker. -/
def IsComment (line : Text) : Prop := "//".toList <+: NullClaw.trim line

instance : DecidablePred IsComment := fun line =>
  inferInstanceAs (Decidable ("//".toList <+: NullClaw.trim line))

/-- No blank stands before the marker, and what is trimmed at the end stands behind it. -/
theorem isComment_commented : IsComment ("// ".toList ++ line) := by
  have hreverse : ("// ".toList ++ line).reverse = (' ' :: line).reverse ++ ['/', '/'] := by
    simp
  rw [IsComment, NullClaw.trim]
  have hfront : ("// ".toList ++ line).dropWhile NullClaw.isJsSpace = "// ".toList ++ line := rfl
  rw [hfront, hreverse, List.dropWhile_append]
  split
  · exact List.prefix_refl _
  · rw [List.reverse_append]
    exact List.prefix_append _ _

theorem toggleLine_of_not_isComment (h : ¬ IsComment line) :
    Scripts.toggleLine line = "// ".toList ++ line := by
  rw [Scripts.toggleLine, if_neg]
  rwa [List.isPrefixOf_iff_prefix]

/-- The second replacement is left with the line as it was. -/
theorem toggleLine_commented :
    Scripts.toggleLine ("// ".toList ++ line) = replaceFirst "//".toList [] line := by
  have h : "//".toList.isPrefixOf (NullClaw.trim ("// ".toList ++ line)) = true :=
    List.isPrefixOf_iff_prefix.mpr isComment_commented
  rw [Scripts.toggleLine, if_pos h, replaceFirst_append (by decide), List.nil_append]

theorem toggleLine_toggleLine (h : ¬ IsComment line) :
    Scripts.toggleLine (Scripts.toggleLine line) = line ↔ ¬ "//".toList <:+: line := by
  rw [toggleLine_of_not_isComment h, toggleLine_commented]
  constructor
  · intro heq hinfix
    have hlen := length_replaceFirst hinfix
    rw [heq] at hlen
    exact absurd hlen (Nat.ne_of_gt (Nat.lt_add_of_pos_right (by decide)))
  · exact replaceFirst_of_not_infix

theorem newline_not_mem_toggleLine (h : ¬ IsComment line) (hline : '\n' ∉ line) :
    '\n' ∉ Scripts.toggleLine line := by
  rw [toggleLine_of_not_isComment h, List.mem_append]
  rintro (hc | hc)
  · exact absurd hc (by decide)
  · exact hline hc

theorem newline_not_mem_toggleLine_toggleLine (h : ¬ IsComment line) (hline : '\n' ∉ line) :
    '\n' ∉ Scripts.toggleLine (Scripts.toggleLine line) := by
  rw [toggleLine_of_not_isComment h, toggleLine_commented]
  exact fun hc => hline (replaceFirst_sublist.subset hc)

end Line

/-! ## The lines of a text -/

section Lines

variable {codigo : Text} {lines : List Text}

theorem intercalate_scriptLines : ['\n'].intercalate (scriptLines codigo) = codigo := by
  rw [scriptLines]
  split
  · next h => rw [h]; rfl
  · exact List.intercalate_splitOn '\n'

theorem newline_not_mem_scriptLines {line : Text} (h : line ∈ scriptLines codigo) :
    '\n' ∉ line := by
  rw [scriptLines] at h
  split at h
  · exact absurd h List.not_mem_nil
  · exact (mem_splitOn h).1

/-- Lines joined and split again are the same, unless they are no line or one empty line. -/
theorem scriptLines_intercalate (hne : lines ≠ []) (hone : lines ≠ [[]])
    (hlines : ∀ line ∈ lines, '\n' ∉ line) :
    scriptLines (['\n'].intercalate lines) = lines := by
  have hsplit := List.splitOn_intercalate '\n' hlines hne
  have hcodigo : ['\n'].intercalate lines ≠ [] := by
    intro h
    rw [h] at hsplit
    exact hone hsplit.symm
  rw [scriptLines, if_neg hcodigo, hsplit]

theorem scriptLines_of_ne_nil (h : scriptLines codigo ≠ []) :
    scriptLines codigo = codigo.splitOn '\n' := by
  rw [scriptLines]
  split
  · next hcodigo => exact absurd (if_pos hcodigo) h
  · rfl

end Lines

/-! ## The selected script -/

section Editor

variable {s : Scripts} {i : ℕ} {script : Script}

theorem selectedIndex_congr {s' : Scripts} (hid : s'.selected_script_id = s.selected_script_id)
    (hscripts : s'.scripts.map Script.id = s.scripts.map Script.id) :
    s'.selectedIndex = s.selectedIndex := by
  have hfind : s'.scripts.findIdx? (fun item => item.id = s'.selected_script_id) =
      s.scripts.findIdx? fun item => item.id = s.selected_script_id := by
    have h := congrArg (List.findIdx? fun id => decide (id = s.selected_script_id)) hscripts
    rw [List.findIdx?_map, List.findIdx?_map] at h
    rw [hid]
    exact h
  have hnil : s'.scripts = [] ↔ s.scripts = [] := by
    rw [← List.map_eq_nil_iff (f := Script.id), hscripts, List.map_eq_nil_iff]
  rw [Scripts.selectedIndex, Scripts.selectedIndex, hfind]
  simp only [hnil]

/-- The scripts with another text for one of them. -/
def withCode (scripts : List Script) (i : ℕ) (codigo : Text) : List Script :=
  scripts.modify i fun script => { script with codigo := codigo }

theorem map_id_withCode (scripts : List Script) (i : ℕ) (codigo : Text) :
    (withCode scripts i codigo).map Script.id = scripts.map Script.id := by
  apply List.ext_getElem?
  intro j
  rw [List.getElem?_map, List.getElem?_map, withCode, List.getElem?_modify]
  cases scripts[j]? with
  | none => rfl
  | some script =>
      show some (if i = j then { script with codigo := codigo } else script).id = some script.id
      split <;> rfl

theorem getElem?_withCode {scripts : List Script} {codigo : Text} (h : scripts[i]? = some script) :
    (withCode scripts i codigo)[i]? = some { script with codigo := codigo } := by
  rw [withCode, List.getElem?_modify, h]
  exact congrArg some (if_pos rfl)

theorem withCode_withCode (scripts : List Script) (i : ℕ) (codigo codigo' : Text) :
    withCode (withCode scripts i codigo) i codigo' = withCode scripts i codigo' := by
  rw [withCode, withCode, List.modify_modify_eq]
  rfl

theorem withCode_eq_self {scripts : List Script} {codigo : Text} (h : scripts[i]? = some script) :
    withCode scripts i codigo = scripts ↔ codigo = script.codigo := by
  constructor
  · intro heq
    have hget : (withCode scripts i codigo)[i]? = some { script with codigo := codigo } :=
      getElem?_withCode h
    rw [heq, h] at hget
    exact (congrArg Script.codigo (Option.some.inj hget)).symm
  · rintro rfl
    apply List.ext_getElem?
    intro j
    rw [withCode, List.getElem?_modify]
    by_cases hj : i = j
    · obtain rfl := hj
      rw [h]
      exact congrArg some (if_pos rfl)
    · simp [hj]

theorem syncEditor_line (h : s.selectedScript = some script) :
    s.syncEditor.line = min s.line (s.lines.length - 1) := by
  rw [Scripts.syncEditor, h]

theorem syncEditor_selected_script_id : s.syncEditor.selected_script_id = s.selected_script_id := by
  rw [Scripts.syncEditor]
  split <;> rfl

theorem updateSelectedScript_spec (hi : s.selectedIndex = some i) (lines : List Text) :
    (s.updateSelectedScript lines).1.scripts = withCode s.scripts i (['\n'].intercalate lines) ∧
      (s.updateSelectedScript lines).1.selected_script_id = s.selected_script_id ∧
      (s.updateSelectedScript lines).1.line = s.line := by
  rw [Scripts.updateSelectedScript, hi]
  exact ⟨rfl, rfl, rfl⟩

/-- What one application does to the scripts, the selection and the line. -/
theorem toggleScriptComment_spec (hi : s.selectedIndex = some i) (hlines : s.lines ≠ []) :
    s.toggleScriptComment.1.scripts = withCode s.scripts i
        (['\n'].intercalate (s.lines.modify s.syncEditor.line Scripts.toggleLine)) ∧
      s.toggleScriptComment.1.selected_script_id = s.selected_script_id ∧
      s.toggleScriptComment.1.line = s.syncEditor.line := by
  let edited : Scripts := { s.syncEditor with ultima_acao := "Linha comentada".toList }
  have hindex : edited.selectedIndex = some i :=
    (selectedIndex_congr syncEditor_selected_script_id
      (congrArg (List.map Script.id) syncEditor_eq.1)).trans hi
  obtain ⟨hscripts, hid, hline⟩ := updateSelectedScript_spec hindex
    (s.lines.modify s.syncEditor.line Scripts.toggleLine)
  rw [Scripts.toggleScriptComment, if_neg hlines]
  refine ⟨hscripts.trans ?_, hid.trans syncEditor_selected_script_id, hline⟩
  show withCode s.syncEditor.scripts i _ = _
  rw [syncEditor_eq.1]

theorem lines_eq (h : s.selectedScript = some script) : s.lines = scriptLines script.codigo := by
  rw [Scripts.lines, h]
  rfl

end Editor

/-! ## Two applications -/

/-- The line the editor is at. -/
def Scripts.selectedLine (s : Scripts) : Option Text := s.lines[s.syncEditor.line]?

/-- One application changes only the line, and a second one restores all scripts. -/
structure CommentUndone (s : Scripts) : Prop where
  restored : s.toggleScriptComment.1.toggleScriptComment.1.scripts = s.scripts
  onlyLine : ∃ line, s.toggleScriptComment.1.lines = s.lines.set s.syncEditor.line line
  otherScripts : ∀ i, s.selectedIndex ≠ some i →
    s.toggleScriptComment.1.scripts[i]? = s.scripts[i]?

section Twice

variable {s : Scripts} {line : Text}

/-- The script, its place and its lines, where a line is selected. -/
theorem selected_of_selectedLine (h : s.selectedLine = some line) :
    ∃ i script, s.selectedIndex = some i ∧ s.scripts[i]? = some script ∧
      s.selectedScript = some script ∧ s.lines = scriptLines script.codigo ∧ s.lines ≠ [] := by
  have hne : s.lines ≠ [] := List.ne_nil_of_mem (List.mem_of_getElem? h)
  rcases hscript : s.selectedScript with _ | script
  · rw [Scripts.lines, hscript] at hne
    exact absurd rfl hne
  · obtain ⟨i, hi, hget⟩ := Option.bind_eq_some_iff.mp hscript
    exact ⟨i, script, hi, hget, rfl, lines_eq hscript, hne⟩

theorem modify_ne_single {lines : List Text} {k : ℕ} (hget : lines[k]? = some line)
    (h : ¬ IsComment line) : lines.modify k Scripts.toggleLine ≠ [[]] := by
  intro hone
  have hget' : (lines.modify k Scripts.toggleLine)[k]? = some (Scripts.toggleLine line) := by
    rw [List.getElem?_modify_eq, hget]
    rfl
  rw [hone] at hget'
  have hnil : Scripts.toggleLine line = [] :=
    List.mem_singleton.mp (List.mem_of_getElem? hget')
  rw [toggleLine_of_not_isComment h] at hnil
  exact List.cons_ne_nil _ _ hnil

theorem newline_not_mem_modify {lines : List Text} {k : ℕ} {f : Text → Text}
    (hlines : ∀ l ∈ lines, '\n' ∉ l) (hf : ∀ l, lines[k]? = some l → '\n' ∉ f l) :
    ∀ l ∈ lines.modify k f, '\n' ∉ l := by
  intro l hl
  obtain ⟨j, hj⟩ := List.mem_iff_getElem?.mp hl
  rw [List.getElem?_modify] at hj
  rcases hget : lines[j]? with _ | old
  · rw [hget] at hj
    cases hj
  · rw [hget] at hj
    obtain rfl : (if k = j then f old else old) = l := Option.some.inj hj
    split
    · next hkj => exact hf old (hkj ▸ hget)
    · exact hlines old (List.mem_of_getElem? hget)

/-- One application leaves the same script selected, with its new text. -/
theorem toggleScriptComment_selected {i : ℕ} {script : Script} (hi : s.selectedIndex = some i)
    (hget : s.scripts[i]? = some script) (hne : s.lines ≠ []) :
    s.toggleScriptComment.1.selectedIndex = some i ∧
      s.toggleScriptComment.1.selectedScript = some { script with
        codigo := ['\n'].intercalate (s.lines.modify s.syncEditor.line Scripts.toggleLine) } := by
  obtain ⟨hscripts, hid, -⟩ := toggleScriptComment_spec hi hne
  have hindex : s.toggleScriptComment.1.selectedIndex = some i := by
    rw [selectedIndex_congr hid, hi]
    rw [hscripts, map_id_withCode]
  refine ⟨hindex, ?_⟩
  rw [Scripts.selectedScript, hindex, hscripts]
  exact getElem?_withCode hget

/-- The lines after one application. -/
theorem toggleScriptComment_lines (hline : s.selectedLine = some line) (h : ¬ IsComment line) :
    s.toggleScriptComment.1.lines = s.lines.modify s.syncEditor.line Scripts.toggleLine := by
  obtain ⟨i, script, hi, hget, hscript, hlines, hne⟩ := selected_of_selectedLine hline
  obtain ⟨-, hafter⟩ := toggleScriptComment_selected hi hget hne
  rw [lines_eq hafter]
  apply scriptLines_intercalate
  · exact fun hnil => hne (List.modify_eq_nil_iff.mp hnil)
  · exact modify_ne_single hline h
  · apply newline_not_mem_modify
    · rw [hlines]
      exact fun l hl => newline_not_mem_scriptLines hl
    · intro l hl
      obtain rfl : line = l := Option.some.inj (hline.symm.trans hl)
      apply newline_not_mem_toggleLine h
      exact newline_not_mem_scriptLines (hlines ▸ List.mem_of_getElem? hline)

/-- The second application is at the same line of the same script. -/
theorem toggleScriptComment_twice (hline : s.selectedLine = some line) (h : ¬ IsComment line)
    {i : ℕ} (hi : s.selectedIndex = some i) :
    s.toggleScriptComment.1.toggleScriptComment.1.scripts = withCode s.scripts i
      (['\n'].intercalate (s.lines.modify s.syncEditor.line
        (Scripts.toggleLine ∘ Scripts.toggleLine))) := by
  obtain ⟨i', script, hi', hget, hscript, hlines, hne⟩ := selected_of_selectedLine hline
  obtain rfl : i' = i := Option.some.inj (hi'.symm.trans hi)
  obtain ⟨hscripts, hid, hplace⟩ := toggleScriptComment_spec hi hne
  have hafter := toggleScriptComment_lines hline h
  obtain ⟨hindex, hscript'⟩ := toggleScriptComment_selected hi hget hne
  have hne' : s.toggleScriptComment.1.lines ≠ [] := by
    rw [hafter]
    exact fun hnil => hne (List.modify_eq_nil_iff.mp hnil)
  -- the line is within bounds already, and there are as many lines as before
  have hplace' : s.toggleScriptComment.1.syncEditor.line = s.syncEditor.line := by
    rw [syncEditor_line hscript', hplace, hafter, List.length_modify, syncEditor_line hscript]
    exact min_eq_left (min_le_right _ _)
  obtain ⟨htwice, -, -⟩ := toggleScriptComment_spec hindex hne'
  rw [htwice, hscripts, withCode_withCode, hplace', hafter, List.modify_modify_eq]

/-- The text is restored exactly where the line is. -/
theorem restored_iff (hline : s.selectedLine = some line) (h : ¬ IsComment line) :
    s.toggleScriptComment.1.toggleScriptComment.1.scripts = s.scripts ↔
      Scripts.toggleLine (Scripts.toggleLine line) = line := by
  obtain ⟨i, script, hi, hget, hscript, hlines, hne⟩ := selected_of_selectedLine hline
  have hnewline : ∀ l ∈ s.lines, '\n' ∉ l := by
    rw [hlines]
    exact fun l hl => newline_not_mem_scriptLines hl
  rw [toggleScriptComment_twice hline h hi, withCode_eq_self hget]
  constructor
  · intro hcodigo
    -- lines without a break are what their text is split into
    have hsplit := List.splitOn_intercalate '\n'
      (newline_not_mem_modify (f := Scripts.toggleLine ∘ Scripts.toggleLine) hnewline
        (k := s.syncEditor.line) fun l hl =>
          Option.some.inj (hline.symm.trans hl) ▸ newline_not_mem_toggleLine_toggleLine h
            (hnewline line (List.mem_of_getElem? hline)))
      (fun hnil => hne (List.modify_eq_nil_iff.mp hnil))
    have hsame : s.lines.modify s.syncEditor.line (Scripts.toggleLine ∘ Scripts.toggleLine) =
        s.lines := by
      rw [← hsplit, hcodigo, hlines, scriptLines_of_ne_nil (hlines ▸ hne)]
    have hat : (s.lines.modify s.syncEditor.line
        (Scripts.toggleLine ∘ Scripts.toggleLine))[s.syncEditor.line]? =
          s.lines[s.syncEditor.line]? := congrArg (·[s.syncEditor.line]?) hsame
    rw [List.getElem?_modify_eq, show s.lines[s.syncEditor.line]? = some line from hline] at hat
    exact Option.some.inj hat
  · intro hback
    have hsame : s.lines.modify s.syncEditor.line (Scripts.toggleLine ∘ Scripts.toggleLine) =
        s.lines := by
      apply List.ext_getElem?
      intro j
      rw [List.getElem?_modify]
      by_cases hj : s.syncEditor.line = j
      · obtain rfl := hj
        rw [show s.lines[s.syncEditor.line]? = some line from hline]
        exact congrArg some ((if_pos rfl).trans hback)
      · simp [hj]
    rw [hsame, hlines, intercalate_scriptLines]

/-- Commenting a line that is no comment is undone by commenting it again exactly where the marker
does not occur in the line. -/
theorem comment_undone_iff (hline : s.selectedLine = some line) (h : ¬ IsComment line) :
    CommentUndone s ↔ ¬ "//".toList <:+: line := by
  rw [← toggleLine_toggleLine h, ← restored_iff hline h]
  obtain ⟨i, script, hi, hget, hscript, hlines, hne⟩ := selected_of_selectedLine hline
  refine ⟨CommentUndone.restored, fun hrestored => ⟨hrestored, ⟨Scripts.toggleLine line, ?_⟩, ?_⟩⟩
  · rw [toggleScriptComment_lines hline h, List.modify_eq_set_getElem?]
    rw [show s.lines[s.syncEditor.line]? = some line from hline]
    rfl
  · intro j hj
    have hij : i ≠ j := fun hij => hj (hij ▸ hi)
    rw [(toggleScriptComment_spec hi hne).1, withCode, List.getElem?_modify]
    simp [hij]

end Twice

/-! ## A line with an address -/

def scriptWithLine (line : Text) : Scripts :=
  { newScripts with
    scripts := [{ id := "s".toList
                  nome := "s.ptjs".toList
                  linguagem := "PTJS".toList
                  efeito := []
                  codigo := line }] }

theorem comment_undone_iff_plain :
    CommentUndone (scriptWithLine "  retornar no".toList) ↔
      ¬ "//".toList <:+: "  retornar no".toList :=
  comment_undone_iff (by decide +kernel) (by decide +kernel)

def addressLine : Text := "definir url como \"http://exemplo\"".toList

/-- The slashes of the address are gone. -/
theorem comment_loses_slashes :
    (scriptWithLine addressLine).selectedLine = some addressLine ∧ ¬ IsComment addressLine ∧
      ¬ CommentUndone (scriptWithLine addressLine) ∧
      (scriptWithLine addressLine).toggleScriptComment.1.toggleScriptComment.1.lines =
        ["definir url como \"http:exemplo\"".toList] := by
  refine ⟨rfl, ?_, ?_, ?_⟩
  · decide +kernel
  · rintro ⟨hrestored, -, -⟩
    revert hrestored
    decide +kernel
  · decide +kernel

end GatoCore.Gatod
