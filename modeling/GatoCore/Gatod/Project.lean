import GatoCore.Gatod.Scene
import GatoCore.Gatod.Scripts
import GatoCore.Gatod.Timeline

/-!
# The project of the editor and its step

Source: `createProject`, `defaultAudioBuses`, `scriptForNode`, `importAssets`, `moveCursor`,
`syncSelectionsFromCursors`, `readInputVector`, `applyScripts`, `mixAudio` and `step` of
`samples/gatod_engine/src/engine/api.ptjs`, and `handlePanelPointer` and `handleCommand` of
`samples/gatod_engine/src/editor/runtime.ptjs`. The logs, the profiler and the events of the plugins
are left out; no plugin reacts to an event.
-/

namespace GatoCore.Gatod

open GatoCore.Lib GatoCore.Stdlib

/-- The arithmetic of the engine. Nothing is assumed of it. -/
class JsArithmetic (N : Type) extends Coordinates N, Sub N, Mul N, Div N where
  nan : N
  ofText : Text → N
  ofRat : ℚ → N
  lt : N → N → Bool
  le : N → N → Bool
  min : N → N → N
  max : N → N → N
  abs : N → N
  sin : N → N
  floor : N → N
  round : N → N

inductive Panel where
  | project
  | scene
  | assets
  | inspector
  | script
  | timeline
  | output
  deriving DecidableEq

structure Bus (N : Type) where
  nivel : N
  peak : N
  clipping : Bool

/-- The keys that are held down. -/
structure InputState where
  right : Bool
  left : Bool
  down : Bool
  up : Bool
  d : Bool
  a : Bool
  s : Bool
  w : Bool
  space : Bool

/-- `panel_cursor.script` and `panel_cursor.timeline` are in `scripts` and `timeline`. -/
structure Project (N : Type) where
  scene : Scene N
  timeline : Timeline
  scripts : Scripts
  /-- The names of the assets. -/
  assets : List Text
  selected_asset_id : Text
  cursor : Panel → ℕ
  /-- Whether `modo` is `"play"`. -/
  play : Bool
  show_grid : Bool
  focus_panel : Panel
  palette_aberta : Bool
  input_state : InputState
  audio_buses : List (Bus N)
  ultima_colisao : Bool
  frame : ℕ

variable {N : Type} [JsArithmetic N] [DecidableEq N]

/-! ## Values -/

def rat (q : ℚ) : N := JsArithmetic.ofRat q

/-- `Number(v)`. -/
def toNumber : Option (Json N) → N
  | none => JsArithmetic.nan
  | some .null => rat 0
  | some (.bool b) => rat (if b then 1 else 0)
  | some (.number n) => n
  | some v => JsArithmetic.ofText v.toText

def isTextual : Option (Json N) → Bool
  | some (.text _) => true
  | some (.array _) => true
  | some (.object _) => true
  | _ => false

def textOf (v : Option (Json N)) : Text := (v.map Json.toText).getD "undefined".toList

/-- `v + w`. -/
def addValues (v w : Option (Json N)) : Json N :=
  if isTextual v || isTextual w then .text (textOf v ++ textOf w)
  else .number (toNumber v + toNumber w)

/-- `gatod.util.clamp`. -/
def clampNumber (v : Json N) (min max : N) : N :=
  JsArithmetic.max min (JsArithmetic.min max (toNumber (some v)))

/-! ## The nodes that a step looks up -/

def isNamed (nome : Text) (campos : NodeFields N) : Bool := campos.nome.strictEq (.text nome)

def isKind (tipo_no : Text) (campos : NodeFields N) : Bool :=
  campos.tipo_no.strictEq (.text tipo_no)

def isPlayer : NodeFields N → Bool := isNamed "Player".toList

def isEnemy : NodeFields N → Bool := isNamed "Enemy".toList

def isCamera : NodeFields N → Bool := isKind "Camera2D".toList

def isHudLabel (campos : NodeFields N) : Bool :=
  isKind "Label".toList campos && isNamed "Status".toList campos

/-- The first node that meets a condition. -/
def findFirst (p : NodeFields N → Bool) (root : Node N) : Option (Node N) := root.find? p

def readFirst (p : NodeFields N → Bool) (key : String) (root : Node N) : Option (Json N) :=
  (findFirst p root).bind fun node => node.campos.get? key.toList

/-- The field is set. A value that is undefined is left out. -/
def writeFirst (p : NodeFields N → Bool) (key : String) (v : Option (Json N)) (root : Node N) :
    Node N :=
  match v with
  | none => root
  | some v => (root.modify? p fun node : Node N => node.set key.toList v).getD root

/-- `Math.abs(a[key] - b[key]) < (a[size] + b[size]) / 2`. -/
def overlap (key size : String) (root : Node N) : Bool :=
  JsArithmetic.lt
    (JsArithmetic.abs (toNumber (readFirst isPlayer key root) - toNumber
      (readFirst isEnemy key root)))
    (toNumber (some (addValues (readFirst isPlayer size root) (readFirst isEnemy size root))) / rat
      2)

/-! ## The parts of a step -/

def readInputVector (input : InputState) : ℤ × ℤ :=
  let flag := fun b : Bool => if b then (1 : ℤ) else 0
  (flag (input.right || input.d) - flag (input.left || input.a),
    flag (input.down || input.s) - flag (input.up || input.w))

/-- The names of the nodes for the timeline. Ids and names are texts. -/
def nodeNames (root : Node N) : NodeNames
  | .text t => (findNode root (.text t)).map fun node => .text node.nome.toText
  | _ => none

def movePlayer (input : InputState) (dt : N) (root : Node N) : Node N :=
  let vector := readInputVector input
  let velocidade := toNumber (readFirst isPlayer "velocidade" root)
  let x := clampNumber (addValues (readFirst isPlayer "x" root)
    (some (.number (rat vector.1 * velocidade * dt))))
    (rat 24) (rat (320 - 24))
  let root := writeFirst isPlayer "x" (some (.number x)) root
  let y := clampNumber (addValues (readFirst isPlayer "y" root)
    (some (.number (rat vector.2 * velocidade * dt))))
    (rat 24) (rat (180 - 24))
  let root := writeFirst isPlayer "y" (some (.number y)) root
  let size : Json N := .number (rat (if input.space then 28 else 24))
  writeFirst isPlayer "altura" (some size) (writeFirst isPlayer "largura" (some size) root)

namespace Project

def scriptForNode (p : Project N) (id : Json N) : Option Script :=
  (p.scene.script_por_no.get? id.toText).bind fun scriptId =>
    p.scripts.scripts.find? fun item => item.id = scriptId

/-- The effect of the script of the first node that meets a condition. -/
def effectOf (p : Project N) (q : NodeFields N → Bool) (root : Node N) : Option Text :=
  (findFirst q root).bind fun node => (p.scriptForNode node.id).map Script.efeito

def applyScripts (p : Project N) (dt : N) (root : Node N) : Node N :=
  let pulse : N := rat 22 + JsArithmetic.floor
    ((JsArithmetic.sin (((p.frame : ℕ) : N) * dt * rat 5) + rat 1) * rat 3)
  let root' :=
    if p.effectOf isPlayer root = some "pulse".toList then
      writeFirst isPlayer "altura" (some (.number pulse))
        (writeFirst isPlayer "largura" (some (.number pulse)) root)
    else root
  if p.effectOf isEnemy root = some "enemy_patrol".toList then
    writeFirst isEnemy "cor"
      (some (.text (if p.play then "#ff5f7a".toList else "#dd5555".toList))) root'
  else root'

def followPlayer (root : Node N) : Node N :=
  match findFirst isCamera root, findFirst isPlayer root with
  | some camera, some player =>
      match camera.campos.get? "seguir".toList with
      | some seguir =>
          if seguir.strictEq player.id then
            let root := writeFirst isCamera "x" (readFirst isPlayer "x" root) root
            writeFirst isCamera "y" (readFirst isPlayer "y" root) root
          else root
      | none => root
  | _, _ => root

/-- `Math.round(node[key])` in a text. -/
def roundText (v : Option (Json N)) : Text := NumberText.print (JsArithmetic.round (toNumber v))

/-- There is no text where the call throws: `player.x` of a player that there is not. -/
def hudText (p : Project N) (root : Node N) : Option Text :=
  if p.play then
    (findFirst isPlayer root).map fun _ =>
      "Play | Player ".toList ++ roundText (readFirst isPlayer "x" root) ++
        ',' :: roundText (readFirst isPlayer "y" root)
  else
    some ("Editor | ".toList ++
      (((findNode root p.scene.selected_node_id).map fun node => node.nome.toText).getD
        "sem selecao".toList))

def updateHud (p : Project N) (root : Node N) : Option (Node N) :=
  match findFirst isHudLabel root with
  | none => some root
  | some _ => (p.hudText root).map fun t => writeFirst isHudLabel "texto" (some (.text t)) root

/-- `rows[clamp(cursor, 0, rows.length - 1)]`; there is no outcome where it has no field `id`. -/
def rowAt {α : Type} (rows : List α) (cursor : ℕ) : Option α := rows[min cursor (rows.length - 1)]?

def setCursor (p : Project N) (panel : Panel) (n : ℕ) : Project N :=
  { p with cursor := Function.update p.cursor panel n }

def syncScene (p : Project N) : Option (Project N) :=
  let rows := flattenNodes p.scene.scene_root
  if rows = [] then some p
  else
    (rowAt rows (p.cursor .scene)).map fun row =>
      { p.setCursor .scene (min (p.cursor .scene) (rows.length - 1)) with
        scene := { p.scene with selected_node_id := row.id } }

def syncAssets (p : Project N) : Option (Project N) :=
  if p.assets = [] then some p
  else
    (rowAt p.assets (p.cursor .assets)).map fun row =>
      { p.setCursor .assets (min (p.cursor .assets) (p.assets.length - 1)) with
        selected_asset_id := row }

def syncSelectionsFromCursors (p : Project N) : Option (Project N) :=
  p.syncScene.bind fun p => p.syncAssets.map fun p =>
    { p with
      scripts := p.scripts.syncSelectionsFromCursors
      timeline := p.timeline.syncSelectionsFromCursors }

def syncTimelineMetadata (p : Project N) : Project N :=
  { p with timeline := p.timeline.syncTimelineMetadata (nodeNames p.scene.scene_root) }

def setLevel (bus : Bus N) (nivel : N) : Bus N :=
  { nivel := nivel
    peak := JsArithmetic.max nivel (bus.peak * rat (92 / 100))
    clipping := JsArithmetic.le (rat (95 / 100)) nivel }

/-- There is no outcome where the call throws: the level of a bus that there is not. -/
def mixAudio (p : Project N) (collisionActive : Bool) : Option (Project N) :=
  match p.audio_buses with
  | master :: music :: sfx :: ui :: others =>
      let pulse : N := (JsArithmetic.sin (((p.frame : ℕ) : N) / rat 8) + rat 1) / rat 2
      let musicLevel : N :=
        if p.timeline.reproduzindo then rat (24 / 100) + pulse * rat (22 / 100) else rat (8 / 100)
      let sfxLevel : N :=
        if collisionActive then rat (92 / 100)
        else if p.input_state.space || p.play then rat (44 / 100) else rat (12 / 100)
      let uiLevel : N :=
        if p.palette_aberta then rat (58 / 100)
        else if p.focus_panel = .script ∨ p.focus_panel = .timeline then rat (34 / 100)
        else rat (14 / 100)
      let masterLevel := JsArithmetic.min (rat 1)
        (musicLevel * rat (42 / 100) + sfxLevel * rat (4 / 10) + uiLevel * rat (18 / 100))
      some { p with
        audio_buses := setLevel master masterLevel :: setLevel music musicLevel ::
          setLevel sfx sfxLevel :: setLevel ui uiLevel :: others }
  | _ => none

/-- The first track moves the enemy. -/
def animateEnemy (fl : ℚ → ℚ) (p : Project N) (root : Node N) : Node N :=
  match p.timeline.trilhas with
  | [] => root
  | track :: _ =>
      writeFirst isEnemy "x"
        (some (.number (rat (sampleTrackValue fl track.keys p.timeline.cursor)))) root

/-- Whether the player and the enemy touch. -/
def collides (p : Project N) (root : Node N) : Bool :=
  p.play && (findFirst isPlayer root).isSome && (findFirst isEnemy root).isSome &&
    overlap "x" "largura" root && overlap "y" "altura" root

def advanceTimeline (fl : ℚ → ℚ) (p : Project N) : Project N :=
  if p.timeline.reproduzindo then
    { p with
      timeline :=
        { p.timeline with
          cursor := jsMod (fl (p.timeline.cursor + 1)) p.timeline.duracao_frames } }
  else p

/-- There is no outcome where the call throws. -/
def step (fl : ℚ → ℚ) (dt : N) (p : Project N) : Option (Project N) :=
  p.syncSelectionsFromCursors.bind fun p =>
    let p := p.syncTimelineMetadata
    let root := p.scene.scene_root
    let root :=
      if p.play ∧ (findFirst isPlayer root).isSome then movePlayer p.input_state dt root else root
    let root := p.animateEnemy fl root
    let root := followPlayer (p.applyScripts dt root)
    (p.updateHud root).bind fun root =>
      let collisionActive := p.collides root
      let p := { p with scene := { p.scene with scene_root := root } }.advanceTimeline fl
      (p.mixAudio collisionActive).map fun p =>
        { p with ultima_colisao := collisionActive, frame := p.frame + 1 }

/-! ## Commands -/

/-- What the clock, the random numbers and the files give a command. `importados` are the names of
the files in the directory of the imports. -/
structure CommandInput (N W : Type) where
  agora : N
  relogio : ℕ → N
  caminhos : List ℕ → N
  inteiro : N
  sorte : N
  importados : List Text
  mundo : W

def addNode (kind : String) (agora : N) (p : Project N) : Project N :=
  { p with scene := p.scene.addNode kind.toList agora }

def importAssets (importados : List Text) (p : Project N) : Project N :=
  importados.foldl
    (fun p nome =>
      if nome ∈ p.assets then p
      else { p with assets := p.assets ++ [nome], selected_asset_id := nome }) p

def attachSelectedScript (p : Project N) : Project N :=
  { p with
    scene := p.scene.attachSelectedScript (p.scripts.selectedScript.map Script.id) }

/-- `moveCursor`. -/
def moveCursor (panel : Panel) (delta : ℤ) (size : ℕ) (p : Project N) : Project N :=
  match panel with
  | .script => { p with scripts := p.scripts.moveCursor delta size }
  | .timeline => { p with timeline := p.timeline.moveCursor delta size }
  | panel => p.setCursor panel (clampIndex (p.cursor panel + delta) (size - 1))

/-- `panel_cursor[panel] = row`. -/
def setRow (panel : Panel) (row : ℕ) (p : Project N) : Project N :=
  match panel with
  | .script => { p with scripts := { p.scripts with panel_cursor := row } }
  | .timeline => { p with timeline := { p.timeline with panel_cursor := row } }
  | panel => p.setCursor panel row

/-- A click into a panel. -/
def handlePanelPointer (panel : Panel) (row : ℕ) (p : Project N) : Option (Project N) :=
  let p := { p.setRow panel row with focus_panel := panel }
  if panel = .scene ∨ panel = .assets ∨ panel = .script ∨ panel = .timeline then
    p.syncSelectionsFromCursors
  else some p

section Commands

variable {W : Type} (fl : ℚ → ℚ) (host : HostDirs) (fs : FileSystem W) (raiz : Text)

/-- There is no outcome where the call throws. -/
def handleCommand (input : CommandInput N W) (name : Text) (p : Project N) : Option (Project N) :=
  if name = "new_scene".toList then
    some ({ p with scene := p.scene.startScene input.relogio }.setCursor .scene
      0).syncTimelineMetadata
  else if name = "save_scene".toList then some { p with scene := p.scene.saveScene }
  else if name = "load_scene".toList then
    (p.scene.loadScene input.caminhos).map fun scene =>
      if p.scene.arquivo.isSome then { p with scene := scene }.syncTimelineMetadata else p
  else if name = "play".toList then some { p with play := true }
  else if name = "stop".toList then some { p with play := false }
  else if name = "play_toggle".toList then some { p with play := !p.play }
  else if name = "add_sprite".toList then some (p.addNode "sprite" input.agora)
  else if name = "add_label".toList then some (p.addNode "label" input.agora)
  else if name = "add_control".toList then some (p.addNode "control" input.agora)
  else if name = "add_camera".toList then some (p.addNode "camera" input.agora)
  else if name = "duplicate_node".toList then
    (p.scene.duplicateSelected input.caminhos input.inteiro input.sorte).map fun scene =>
      { p with scene := scene }
  else if name = "delete_node".toList then some { p with scene := p.scene.deleteSelected }
  else if name = "toggle_grid".toList then some { p with show_grid := !p.show_grid }
  else if name = "import_asset".toList then some (p.importAssets input.importados)
  else if name = "attach_script".toList then some p.attachSelectedScript
  else if name = "cycle_script".toList then
    some { p with scripts := p.scripts.cycleSelectedScript 1 }
  else if name = "save_script".toList then
    some { p with scripts := (p.scripts.saveSelectedScript host fs raiz input.mundo).1 }
  else if name = "insert_script_snippet".toList then
    some { p with scripts := p.scripts.insertScriptSnippet.1 }
  else if name = "timeline_add_key".toList then
    some { p with timeline := (p.timeline.addTimelineKey fl).1 }
  else if name = "timeline_remove_key".toList then
    some { p with timeline := p.timeline.removeTimelineKey.1 }
  else some p

end Commands

end Project

/-! ## Runs -/

/-- What happens to a project. A script event has the files at its time. -/
inductive ProjectEvent (N W : Type) where
  | command (input : Project.CommandInput N W) (name : Text)
  | cursor (panel : Panel) (delta : ℤ) (size : ℕ)
  | row (panel : Panel) (row : ℕ)
  | focus (panel : Panel)
  | palette (aberta : Bool)
  | input (state : InputState)
  | script (e : ScriptEvent) (mundo : W)
  | timeline (e : TimelineEvent)
  | step (dt : N)

section Runs

variable {W : Type} (fl : ℚ → ℚ) (host : HostDirs) (fs : FileSystem W) (raiz : Text)

/-- The project after an event; there is none where the event throws. -/
def projectEvent (p : Project N) : ProjectEvent N W → Option (Project N)
  | .command input name => p.handleCommand fl host fs raiz input name
  | .cursor panel delta size => some (p.moveCursor panel delta size)
  | .row panel row => p.handlePanelPointer panel row
  | .focus panel => some { p with focus_panel := panel }
  | .palette aberta => some { p with palette_aberta := aberta }
  | .input state => some { p with input_state := state }
  | .script e mundo => some { p with scripts := (scriptEvent host fs raiz (p.scripts, mundo) e).1 }
  | .timeline e => (timelineEvent fl p.timeline e).map fun next => { p with timeline := next.1 }
  | .step dt => p.step fl dt

end Runs

/-! ## The first project -/

def noKeys : InputState := ⟨false, false, false, false, false, false, false, false, false⟩

/-- `createProject`, next to the scene file there is already. `relogio` is the clock when each node
of the scene is made. -/
def createProject (arquivo : Option Text) (relogio : ℕ → N) : Project N :=
  let scene : Scene N := newScene arquivo relogio
  let enemy := scene.scene_root.filhos[2]?
  { scene := scene
    timeline :=
      { defaultTimeline with
        trilhas := defaultTimeline.trilhas.map fun track =>
          { track with
            node_id := (enemy.map fun node : Node N => Json.text node.id.toText).getD .null
            node_name := (enemy.map fun node : Node N => Json.text node.nome.toText).getD
              track.node_name } }
    scripts := newScripts
    assets := ["player_color".toList, "enemy_color".toList, "MainScene".toList, "UITheme".toList,
      "GridPalette".toList]
    selected_asset_id := "player_color".toList
    cursor := fun panel => if panel = .scene then 1 else 0
    play := false
    show_grid := true
    focus_panel := .scene
    palette_aberta := false
    input_state := noKeys
    audio_buses := List.replicate 4 ⟨rat 0, rat 0, false⟩
    ultima_colisao := false
    frame := 0 }

end GatoCore.Gatod
