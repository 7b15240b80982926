import GatoCore.Gatod.Util
import GatoCore.NullClaw.Cron
import GatoCore.Stdlib.Workspace

/-!
# The script editor

Source: `defaultScripts`, `defaultScriptSnippets`, `selectedSnippet`, `scriptLines`,
`scriptEditorState`, `moveScriptEditorCursor`, `cycleScriptSnippet`, `updateSelectedScript`,
`insertScriptSnippet`, `toggleScriptComment`, `saveSelectedScript`, `selectedScript`,
`cycleSelectedScript`, `moveCursor`, `syncSelectionsFromCursors` and `ensureRuntime` of
`samples/gatod_engine/src/engine/api.ptjs`, as far as they read or change the scripts, their editor
and the cursor of their panel.
-/

namespace GatoCore.Gatod

open GatoCore.Lib GatoCore.Stdlib

structure Script where
  id : Text
  nome : Text
  linguagem : Text
  efeito : Text
  codigo : Text
  deriving DecidableEq

structure Snippet where
  id : Text
  label : Text
  lines : List Text
  deriving DecidableEq

def defaultScripts : List Script :=
  [{ id := "script_player_controller".toList
     nome := "PlayerController.ptjs".toList
     linguagem := "PTJS".toList
     efeito := "player_controller".toList
     codigo := ['\n'].intercalate
       ["função _processar(no, estado, dt) faça".toList,
        "  se estado.modo == \"play\" então".toList,
        "    observar no.nome".toList,
        "  fim".toList,
        "fim".toList] },
   { id := "script_pulse".toList
     nome := "PulseSprite.ptjs".toList
     linguagem := "PTJS".toList
     efeito := "pulse".toList
     codigo := ['\n'].intercalate
       ["função _processar(no, estado, dt) faça".toList,
        "  definir escala como 1".toList,
        "  retornar escala".toList,
        "fim".toList] },
   { id := "script_patrol".toList
     nome := "EnemyPatrol.ptjs".toList
     linguagem := "PTJS".toList
     efeito := "enemy_patrol".toList
     codigo := ['\n'].intercalate
       ["função _physics(no, estado, dt) faça".toList,
        "  definir alvo como no.base_x".toList,
        "  retornar alvo".toList,
        "fim".toList] }]

def defaultScriptSnippets : List Snippet :=
  [{ id := "processar".toList
     label := "_processar".toList
     lines := ["função _processar(no, estado, dt) faça".toList, "  retornar no".toList,
       "fim".toList] },
   { id := "physics".toList
     label := "_physics".toList
     lines := ["função _physics(no, estado, dt) faça".toList, "  retornar no".toList,
       "fim".toList] },
   { id := "input".toList
     label := "_input".toList
     lines := ["função _input(no, entrada) faça".toList, "  retornar entrada".toList,
       "fim".toList] }]

/-- `scripts`, `selected_script_id`, `script_editor` and `panel_cursor.script`. -/
structure Scripts where
  scripts : List Script
  selected_script_id : Text
  line : ℕ
  dirty : Bool
  snippet_index : ℤ
  ultima_acao : Text
  ultimo_salvo_em : Text
  panel_cursor : ℕ

/-- The scripts of `createProject`. -/
def newScripts : Scripts where
  scripts := defaultScripts
  selected_script_id := "script_player_controller".toList
  line := 0
  dirty := false
  snippet_index := 0
  ultima_acao := "Editor pronto".toList
  ultimo_salvo_em := []
  panel_cursor := 0

/-- `text.replace(pattern, by)` for a text `pattern`: its first occurrence. -/
def replaceFirst (pattern new : Text) : Text → Text
  | [] => if pattern = [] then new else []
  | c :: text =>
      if pattern.isPrefixOf (c :: text) then new ++ (c :: text).drop pattern.length
      else c :: replaceFirst pattern new text

def scriptLines (codigo : Text) : List Text := if codigo = [] then [] else codigo.splitOn '\n'

namespace Scripts

/-! ## Selection -/

/-- Where `selectedScript` finds the script. -/
def selectedIndex (s : Scripts) : Option ℕ :=
  match s.scripts.findIdx? fun item => item.id = s.selected_script_id with
  | some i => some i
  | none => if s.scripts = [] then none else some 0

def selectedScript (s : Scripts) : Option Script := s.selectedIndex.bind fun i => s.scripts[i]?

/-- The lines of the selected script. -/
def lines (s : Scripts) : List Text :=
  (s.selectedScript.map fun script => scriptLines script.codigo).getD []

/-- What `scriptEditorState` does to the indices. -/
def syncEditor (s : Scripts) : Scripts :=
  match s.selectedScript with
  | none => s
  | some _ =>
      { s with
        line := min s.line (s.lines.length - 1)
        snippet_index := clampIndex s.snippet_index (defaultScriptSnippets.length - 1) }

/-- The field `dirty` of what `scriptEditorState` returns. -/
def editorDirty (s : Scripts) : Bool := s.selectedScript.isSome && s.dirty

/-- The field `snippet`. -/
def editorSnippet (s : Scripts) : Option Snippet :=
  s.selectedScript.bind fun _ => defaultScriptSnippets[s.syncEditor.snippet_index.toNat]?

/-! ## Cursors -/

def moveScriptEditorCursor (delta : ℤ) (s : Scripts) : Scripts :=
  { s.syncEditor with line := clampIndex (s.syncEditor.line + delta) (s.lines.length - 1) }

/-- There is no snippet, and the call throws, where the index has become negative. -/
def cycleScriptSnippet (delta : ℤ) (s : Scripts) : Scripts :=
  let count : ℤ := defaultScriptSnippets.length
  let index : ℤ := (s.snippet_index + delta + count).tmod count
  if index < 0 then { s with snippet_index := index }
  else
    { s with
      snippet_index := index
      ultima_acao := "Snippet: ".toList ++
        ((defaultScriptSnippets[index.toNat]?.map Snippet.label).getD []) }

/-- `moveCursor` of the panel of the scripts. -/
def moveCursor (delta : ℤ) (size : ℕ) (s : Scripts) : Scripts :=
  { s with panel_cursor := clampIndex (s.panel_cursor + delta) (size - 1) }

/-- The part of `syncSelectionsFromCursors`. -/
def syncSelectionsFromCursors (s : Scripts) : Scripts :=
  match s.scripts[min s.panel_cursor (s.scripts.length - 1)]? with
  | none => s
  | some script =>
      { s with
        panel_cursor := min s.panel_cursor (s.scripts.length - 1)
        selected_script_id := script.id }

/-- A click into the panel of the scripts. -/
def handlePanelPointer (row : ℕ) (s : Scripts) : Scripts :=
  { s with panel_cursor := row }.syncSelectionsFromCursors

/-- A click at a line of the selected script. -/
def handleScriptContextPointer (rel : ℤ) (s : Scripts) : Scripts :=
  let start := s.syncEditor.line - 3
  { s.syncEditor with line := clampIndex (start + rel) (s.lines.length - 1) }

/-- The index `cycleSelectedScript` selects. -/
def cycledIndex (delta : ℤ) (s : Scripts) : ℤ :=
  match s.scripts.findIdx? fun item => item.id = s.selected_script_id with
  | none => 0
  | some i => ((i : ℤ) + delta + s.scripts.length).tmod s.scripts.length

/-- The call throws, and nothing is selected, when the index is negative. -/
def cycleSelectedScript (direction : ℤ) (s : Scripts) : Scripts :=
  let index := s.cycledIndex (if direction = 0 then 1 else direction)
  if index < 0 then s
  else
    match s.scripts[index.toNat]? with
    | none => s
    | some script => { s with selected_script_id := script.id, line := 0 }

/-! ## Editing -/

def updateSelectedScript (lines : List Text) (s : Scripts) : Scripts × Bool :=
  match s.selectedIndex with
  | none => (s, false)
  | some i =>
      ({ s with
          scripts := s.scripts.modify i fun script =>
            { script with codigo := ['\n'].intercalate lines }
          dirty := true }, true)

def insertScriptSnippet (s : Scripts) : Scripts × Bool :=
  match s.editorSnippet with
  | none => (s.syncEditor, false)
  | some snippet =>
      let lines := s.lines
      let at' := min lines.length (s.syncEditor.line + 1)
      { s.syncEditor with
        line := at'
        ultima_acao := "Snippet inserido: ".toList ++ snippet.label
      }.updateSelectedScript (lines.take at' ++ snippet.lines ++ lines.drop at')

def toggleLine (line : Text) : Text :=
  if "//".toList.isPrefixOf (NullClaw.trim line) then
    replaceFirst "//".toList [] (replaceFirst "// ".toList [] line)
  else "// ".toList ++ line

def toggleScriptComment (s : Scripts) : Scripts × Bool :=
  if s.lines = [] then (s.syncEditor, false)
  else
    { s.syncEditor with ultima_acao := "Linha comentada".toList }.updateSelectedScript
      (s.lines.modify s.syncEditor.line toggleLine)

/-! ## Saving -/

/-- The name of the file of a script in the workspace. -/
def scriptTarget (nome : Text) : Text := "scripts/".toList ++ nome

section Save

variable {W : Type} (host : HostDirs) (fs : FileSystem W) (raiz : Text)

def saveSelectedScript (s : Scripts) (w : W) : Scripts × W × Bool :=
  match s.selectedScript with
  | none => (s, w, false)
  | some script =>
      let w := (Workspace.criarDiretorio host fs raiz dot true w).2
      let target := scriptTarget script.nome
      let (res, w) := Workspace.escreverTexto host fs raiz target script.codigo w
      if res.isOk then
        ({ s with
            dirty := false
            ultimo_salvo_em := target
            ultima_acao := "Script salvo".toList }, w, true)
      else (s, w, false)

end Save

end Scripts

/-! ## Runs -/

inductive ScriptEvent where
  | insert
  | comment
  | cycle (direction : ℤ)
  | line (delta : ℤ)
  | snippet (delta : ℤ)
  | cursor (delta : ℤ) (size : ℕ)
  | row (row : ℕ)
  | pointer (rel : ℤ)
  | step
  | save

section Runs

variable {W : Type} (host : HostDirs) (fs : FileSystem W) (raiz : Text)

def scriptEvent (s : Scripts × W) : ScriptEvent → Scripts × W
  | .insert => (s.1.insertScriptSnippet.1, s.2)
  | .comment => (s.1.toggleScriptComment.1, s.2)
  | .cycle direction => (s.1.cycleSelectedScript direction, s.2)
  | .line delta => (s.1.moveScriptEditorCursor delta, s.2)
  | .snippet delta => (s.1.cycleScriptSnippet delta, s.2)
  | .cursor delta size => (s.1.moveCursor delta size, s.2)
  | .row row => (s.1.handlePanelPointer row, s.2)
  | .pointer rel => (s.1.handleScriptContextPointer rel, s.2)
  | .step => (s.1.syncSelectionsFromCursors, s.2)
  | .save =>
      let (s', w, _) := s.1.saveSelectedScript host fs raiz s.2
      (s', w)

def scriptRun (s : Scripts × W) (events : List ScriptEvent) : Scripts × W :=
  events.foldl (scriptEvent host fs raiz) s

end Runs

end GatoCore.Gatod
