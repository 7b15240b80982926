import GatoCore.Gatod.Scripts
import GatoCore.Lib.Lists
import GatoCore.Stdlib.FileFrame

/-!
# What the dirty flag says

The editor has one flag for all scripts. Saving a script clears it, whether the others are saved or
not; as long as a script is saved only when the others are, the flag tells the truth.
-/

namespace GatoCore.Gatod

open GatoCore.Lib GatoCore.Stdlib

section Saved

variable {W : Type} (host : HostDirs) (fs : FileSystem W) (base raiz : Text)

/-- Where the file of a script is. -/
def scriptPlace (script : Script) : Location :=
  filePlace host base raiz (Scripts.scriptTarget script.nome)

/-- The file of the script holds its code. -/
def Saved (script : Script) (w : W) : Prop :=
  fs.load (scriptPlace host base raiz script) w = some script.codigo

def AllSaved (s : Scripts × W) : Prop := ∀ script ∈ s.1.scripts, Saved host fs base raiz script s.2

/-- The flag the editor shows is about the selected script, the flag itself about all of them. -/
structure TellsTruth (s : Scripts × W) : Prop where
  selected : s.1.editorDirty = false → ∀ script, s.1.selectedScript = some script →
    Saved host fs base raiz script s.2
  all : s.1.dirty = false → AllSaved host fs base raiz s

/-- The write of `saveSelectedScript` succeeds. -/
def WriteSucceeds (s : Scripts × W) (script : Script) : Prop :=
  (Workspace.escreverTexto host fs raiz (Scripts.scriptTarget script.nome) script.codigo
    (Workspace.criarDiretorio host fs raiz dot true s.2).2).1.isOk = true

/-- When `saveSelectedScript` writes: the directory of the scripts and those above the file are
made. -/
def worldAtWrite (s : Scripts × W) (script : Script) : W :=
  (mkdirHost host fs (dirnamePath (localPath host raiz (Scripts.scriptTarget script.nome))) true
    (Workspace.criarDiretorio host fs raiz dot true s.2).2).2

/-- A script is saved to a file that keeps what is written to it, and when the others are saved:
those in other files as they are there, and those in its file have its code. -/
def ScriptEvent.Sound (s : Scripts × W) : ScriptEvent → Prop
  | .save => ∀ script, s.1.selectedScript = some script → WriteSucceeds host fs raiz s script →
      fs.Stores (scriptPlace host base raiz script) script.codigo
          (worldAtWrite host fs raiz s script) ∧
        ∀ other ∈ s.1.scripts,
          if scriptPlace host base raiz other = scriptPlace host base raiz script then
            other.codigo = script.codigo
          else Saved host fs base raiz other s.2
  | _ => True

/-- This holds of every event where it happens. -/
def AllSavesSound (s : Scripts × W) (events : List ScriptEvent) : Prop :=
  ∀ pre e post, events = pre ++ e :: post →
    e.Sound host fs base raiz (scriptRun host fs raiz s pre)

end Saved

/-! ## Scripts that are only looked at -/

section Look

variable {s : Scripts}

theorem syncEditor_eq : s.syncEditor.scripts = s.scripts ∧ s.syncEditor.dirty = s.dirty := by
  rw [Scripts.syncEditor]
  split <;> exact ⟨rfl, rfl⟩

theorem cycleScriptSnippet_eq (delta : ℤ) : (s.cycleScriptSnippet delta).scripts = s.scripts ∧
    (s.cycleScriptSnippet delta).dirty = s.dirty := by
  simp only [Scripts.cycleScriptSnippet]
  split <;> exact ⟨rfl, rfl⟩

theorem syncSelectionsFromCursors_eq : s.syncSelectionsFromCursors.scripts = s.scripts ∧
    s.syncSelectionsFromCursors.dirty = s.dirty := by
  rw [Scripts.syncSelectionsFromCursors]
  split <;> exact ⟨rfl, rfl⟩

theorem cycleSelectedScript_eq (direction : ℤ) :
    (s.cycleSelectedScript direction).scripts = s.scripts ∧
      (s.cycleSelectedScript direction).dirty = s.dirty := by
  rw [Scripts.cycleSelectedScript]
  generalize s.cycledIndex (if direction = 0 then 1 else direction) = index
  by_cases hneg : index < 0
  · rw [if_pos hneg]
    exact ⟨rfl, rfl⟩
  · rw [if_neg hneg]
    cases s.scripts[index.toNat]? with
    | none => exact ⟨rfl, rfl⟩
    | some script => exact ⟨rfl, rfl⟩

theorem selectedScript_mem {script : Script} (h : s.selectedScript = some script) :
    script ∈ s.scripts := by
  obtain ⟨i, -, hi⟩ := Option.bind_eq_some_iff.mp h
  exact List.mem_of_getElem? hi

/-- A change of the selected script sets the flag, unless there is none. -/
theorem updateSelectedScript_dirty (lines : List Text) :
    (s.updateSelectedScript lines).1.dirty = true ∨
      (s.updateSelectedScript lines).1.scripts = s.scripts ∧
        (s.updateSelectedScript lines).1.dirty = s.dirty := by
  rw [Scripts.updateSelectedScript]
  split
  · exact .inr ⟨rfl, rfl⟩
  · exact .inl rfl

theorem insertScriptSnippet_dirty : s.insertScriptSnippet.1.dirty = true ∨
    s.insertScriptSnippet.1.scripts = s.scripts ∧ s.insertScriptSnippet.1.dirty = s.dirty := by
  obtain ⟨hscripts, hdirty⟩ := syncEditor_eq (s := s)
  rw [Scripts.insertScriptSnippet]
  split
  · exact .inr ⟨hscripts, hdirty⟩
  · refine (updateSelectedScript_dirty _).imp_right ?_
    rintro ⟨hs, hd⟩
    exact ⟨hs.trans hscripts, hd.trans hdirty⟩

theorem toggleScriptComment_dirty : s.toggleScriptComment.1.dirty = true ∨
    s.toggleScriptComment.1.scripts = s.scripts ∧ s.toggleScriptComment.1.dirty = s.dirty := by
  obtain ⟨hscripts, hdirty⟩ := syncEditor_eq (s := s)
  rw [Scripts.toggleScriptComment]
  split
  · exact .inr ⟨hscripts, hdirty⟩
  · refine (updateSelectedScript_dirty _).imp_right ?_
    rintro ⟨hs, hd⟩
    exact ⟨hs.trans hscripts, hd.trans hdirty⟩

end Look

/-! ## One event -/

section Event

variable {W : Type} {host : HostDirs} {fs : FileSystem W} {base raiz : Text} {s : Scripts × W}

/-- The flag is set, or every script is saved. -/
def Honest (host : HostDirs) (fs : FileSystem W) (base raiz : Text) (s : Scripts × W) : Prop :=
  s.1.dirty = false → AllSaved host fs base raiz s

theorem Honest.tellsTruth (h : Honest host fs base raiz s) : TellsTruth host fs base raiz s := by
  refine ⟨?_, h⟩
  intro hdirty script hscript
  rw [Scripts.editorDirty, hscript] at hdirty
  exact h hdirty script (selectedScript_mem hscript)

/-- Events that leave the scripts, the flag and the files. -/
theorem Honest.of_eq (h : Honest host fs base raiz s) {s' : Scripts}
    (heq : s'.scripts = s.1.scripts ∧ s'.dirty = s.1.dirty) :
    Honest host fs base raiz (s', s.2) := by
  intro hdirty script hscript
  exact h (heq.2 ▸ hdirty) script (heq.1 ▸ hscript)

theorem Honest.of_update (h : Honest host fs base raiz s) {s' : Scripts}
    (heq : s'.dirty = true ∨ s'.scripts = s.1.scripts ∧ s'.dirty = s.1.dirty) :
    Honest host fs base raiz (s', s.2) := by
  rcases heq with hdirty | heq
  · intro hclean
    rw [hdirty] at hclean
    cases hclean
  · exact h.of_eq heq

theorem Honest.save (hhost : HasBase host base) (hf : fs.Framed) (h : Honest host fs base raiz s)
    (hsound : ScriptEvent.Sound host fs base raiz s .save) :
    Honest host fs base raiz (scriptEvent host fs raiz s .save) := by
  simp only [scriptEvent, Scripts.saveSelectedScript]
  cases hscript : s.1.selectedScript with
  | none => exact h
  | some script =>
      -- saving makes the directory first, which leaves the files
      have hdir := mkdirHost_load host hf.mkdir_load (localPath host raiz (orDot dot)) true
      obtain ⟨hok, hother⟩ := escreverTexto_frame hhost hf raiz (Scripts.scriptTarget script.nome)
        script.codigo (Workspace.criarDiretorio host fs raiz dot true s.2).2
      have hload : ∀ l, fs.load l (Workspace.criarDiretorio host fs raiz dot true s.2).2 =
          fs.load l s.2 := fun l => hdir l s.2
      have hsucceeds : WriteSucceeds host fs raiz s script ↔ (Workspace.escreverTexto host fs raiz
          (Scripts.scriptTarget script.nome) script.codigo
          (Workspace.criarDiretorio host fs raiz dot true s.2).2).1.isOk = true := Iff.rfl
      dsimp only
      rcases hres : Workspace.escreverTexto host fs raiz (Scripts.scriptTarget script.nome)
        script.codigo (Workspace.criarDiretorio host fs raiz dot true s.2).2 with ⟨res, w'⟩
      rw [hres] at hok hother hsucceeds
      cases hreturned : res.isOk with
      | false =>
          intro hdirty other hmem
          exact (hother _ (.inl hreturned)).trans ((hload _).trans (h hdirty other hmem))
      | true =>
          intro _ other hmem
          obtain ⟨hstores, hothers⟩ := hsound script hscript (hsucceeds.mpr hreturned)
          have hcond := hothers other hmem
          -- a script with the same file is saved with it; the files of the others are left
          by_cases hplace : scriptPlace host base raiz other = scriptPlace host base raiz script
          · rw [if_pos hplace] at hcond
            rw [Saved, hplace, hcond]
            exact hok hstores hreturned
          · rw [if_neg hplace] at hcond
            have hcut : (scriptPlace host base raiz other).cut ≠
                scriptPlace host base raiz script := by rwa [scriptPlace, filePlace_cut hhost]
            exact (hother _ (.inr hcut)).trans ((hload _).trans hcond)

theorem Honest.event (hhost : HasBase host base) (hf : fs.Framed) (h : Honest host fs base raiz s)
    {e : ScriptEvent} (hsound : e.Sound host fs base raiz s) :
    Honest host fs base raiz (scriptEvent host fs raiz s e) := by
  cases e with
  | insert => exact h.of_update insertScriptSnippet_dirty
  | comment => exact h.of_update toggleScriptComment_dirty
  | cycle direction => exact h.of_eq (cycleSelectedScript_eq direction)
  | line delta => exact h.of_eq (syncEditor_eq (s := s.1))
  | snippet delta => exact h.of_eq (cycleScriptSnippet_eq delta)
  | cursor delta size => exact h
  | row row => exact h.of_eq (syncSelectionsFromCursors_eq (s := { s.1 with panel_cursor := row }))
  | pointer rel => exact h.of_eq (syncEditor_eq (s := s.1))
  | step => exact h.of_eq syncSelectionsFromCursors_eq
  | save => exact h.save hhost hf hsound

end Event

/-! ## Whole runs -/

section Run

variable {W : Type} {host : HostDirs} {fs : FileSystem W} {base raiz : Text} {s : Scripts × W}

theorem Honest.run (hhost : HasBase host base) (hf : fs.Framed) {events : List ScriptEvent}
    (h : Honest host fs base raiz s) (hsound : AllSavesSound host fs base raiz s events) :
    Honest host fs base raiz (scriptRun host fs raiz s events) := by
  induction events generalizing s with
  | nil => exact h
  | cons e events ih =>
      obtain ⟨hhead, htail⟩ := forall_split_cons.mp hsound
      exact ih (h.event hhost hf hhead) htail

/-- From a project whose scripts are all saved, the flag tells the truth in every state of a run
that saves a script only when the others are saved. -/
theorem dirty_flag_tells_truth (hhost : HasBase host base) (hf : fs.Framed)
    (hsaved : AllSaved host fs base raiz s) {events : List ScriptEvent}
    (hsound : AllSavesSound host fs base raiz s events) :
    ∀ pre post, events = pre ++ post →
      TellsTruth host fs base raiz (scriptRun host fs raiz s pre) := by
  rintro pre post rfl
  have hstart : Honest host fs base raiz s := fun _ => hsaved
  exact (hstart.run hhost hf (forall_split_append.mp hsound).1).tellsTruth

theorem listDisk_framed : listDisk.Framed where
  store_load := by
    intro l t w w' h l' hl
    obtain rfl := Option.some.inj h
    show List.lookup l'.cut ((l.cut, t) :: w) = List.lookup l'.cut w
    rw [List.lookup_cons, beq_false_of_ne hl]
  mkdir_load := fun _ _ _ => rfl

theorem allSaved_listDisk {s : Scripts × List (Location × Text)} :
    AllSaved host listDisk base raiz s ↔ ∀ script ∈ s.1.scripts,
      s.2.lookup (scriptPlace host base raiz script).cut = some script.codigo := Iff.rfl

/-- A save that is sound whether the write succeeds or not. -/
theorem sound_save_listDisk {s : Scripts × List (Location × Text)}
    (h : ∀ script ∈ s.1.selectedScript.toList, ∀ other ∈ s.1.scripts,
      if scriptPlace host base raiz other = scriptPlace host base raiz script then
        other.codigo = script.codigo
      else s.2.lookup (scriptPlace host base raiz other).cut = some other.codigo) :
    ScriptEvent.Sound host listDisk base raiz s .save := by
  intro script hscript _
  refine ⟨listDisk_stores _ _ _, fun other hmem => ?_⟩
  exact h script (Option.mem_toList.mpr hscript) other hmem

def editorHost : HostDirs := { ptBaseDir := some "/s".toList, getcwd := "/".toList }

def smallScript (nome : Text) : Script :=
  { id := nome, nome := nome, linguagem := [], efeito := [], codigo := "x".toList }

/-- Two scripts that are saved in the runtime directory. -/
def savedProject : Scripts × List (Location × Text) :=
  ({ newScripts with
      scripts := [smallScript "a".toList, smallScript "b".toList]
      selected_script_id := "a".toList },
    [(.absolute ["r".toList, "scripts".toList, "a".toList], "x".toList),
      (.absolute ["r".toList, "scripts".toList, "b".toList], "x".toList)])

theorem savedProject_saved :
    AllSaved editorHost listDisk "/s".toList "/r".toList savedProject :=
  allSaved_listDisk.mpr (by decide +kernel)

theorem dirty_flag_tells_truth_saved :
    TellsTruth editorHost listDisk "/s".toList "/r".toList
      (scriptRun editorHost listDisk "/r".toList savedProject [.insert, .save]) := by
  have hsound : AllSavesSound editorHost listDisk "/s".toList "/r".toList savedProject
      [.insert, .save] := by
    refine forall_split_cons.mpr ⟨trivial, forall_split_cons.mpr ⟨?_, forall_split_nil⟩⟩
    exact sound_save_listDisk (by decide +kernel)
  exact dirty_flag_tells_truth ⟨rfl, by decide, by decide⟩ listDisk_framed savedProject_saved hsound
    [.insert, .save] [] rfl

/-- The first script is changed and the second one saved: the flag is cleared, and the file of the
first script is old. -/
theorem save_hides_edits :
    ¬∀ (s : Scripts × List (Location × Text)) (events : List ScriptEvent),
      AllSaved editorHost listDisk "/s".toList "/r".toList s →
      TellsTruth editorHost listDisk "/s".toList "/r".toList
        (scriptRun editorHost listDisk "/r".toList s events) := by
  intro h
  have hall := (h savedProject [ScriptEvent.insert, ScriptEvent.cycle 1, ScriptEvent.save]
    savedProject_saved).all (by decide +kernel)
  exact absurd (allSaved_listDisk.mp hall) (by decide +kernel)

end Run

end GatoCore.Gatod
