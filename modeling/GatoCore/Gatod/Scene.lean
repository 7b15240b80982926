import GatoCore.Gatod.Nodes

/-!
# Editing a scene

Source: `flattenNodes`, `findNode`, `findParent`, `defaultTiles`, `createDefaultScene`,
`createProject`, `selectedNode`, `selectNode`, `createNodeFromTemplate`, `addNode`,
`duplicateSelected`, `deleteSelected`, `saveScene`, `loadScene` and `attachSelectedScript` of
`samples/gatod_engine/src/engine/api.ptjs`, the command `new_scene` of `handleCommand` of
`samples/gatod_engine/src/editor/runtime.ptjs`, and `gatod.util.id` of
`samples/gatod_engine/src/bootstrap/core.ptjs`, as far as they read or change the scene, the
selected node and the scripts of the nodes.

The file of the scene is its content: what `saveScene` last wrote.
-/

namespace GatoCore.Gatod

open GatoCore.Lib GatoCore.Stdlib

/-- Numbers that are coordinates. A finite one can be moved by 18. -/
class Coordinates (N : Type) extends NumberText N, Add N where
  finite_add : ∀ x : N, finite x → finite (x + ((18 : ℕ) : N))

variable {N : Type} [Coordinates N] [DecidableEq N]

/-! ## The tree -/

/-- `node.id === id`. -/
def hasId (id : Json N) (campos : NodeFields N) : Bool := campos.id.strictEq id

def flattenNodes (node : Node N) : List (Node N) := node.subtrees

def findNode (node : Node N) (id : Json N) : Option (Node N) := node.find? (hasId id)

def findParent (node : Node N) (id : Json N) : Option (Node N) := node.parentOf? (hasId id) none

/-! ## New nodes -/

def config (fields : List (Text × Json N)) : JsObject (Json N) := ⟨[], fields⟩

def defaultTiles : List (Json N) :=
  (List.range 12).flatMap fun y => (List.range 20).map fun x =>
    if x = 0 ∨ y = 0 ∨ x = 20 - 1 ∨ y = 12 - 1 then num 2
    else if (x + y) % 5 = 0 then num 1
    else num 0

/-! The variables of `createDefaultScene`. -/

def rootNode (agora : N) : Node N :=
  no2d agora (some (.text "Main".toList)) (config [("x".toList, num 0), ("y".toList, num 0)])

def tilesNode (agora : N) : Node N :=
  tilemap agora
    (config [("nome".toList, .text "TileMap".toList), ("largura_mapa".toList, num 20),
      ("altura_mapa".toList, num 12), ("tamanho_tile".toList, num 16),
      ("tiles".toList, .array defaultTiles)])

def playerNode (agora : N) : Node N :=
  sprite2d agora (some (.text "Player".toList))
    (config [("x".toList, num 72), ("y".toList, num 88), ("largura".toList, num 24),
      ("altura".toList, num 24), ("cor".toList, .text "#44cc88".toList),
      ("collider".toList, .bool true), ("velocidade".toList, num 90)])

def enemyNode (agora : N) : Node N :=
  sprite2d agora (some (.text "Enemy".toList))
    (config [("x".toList, num 220), ("y".toList, num 88), ("largura".toList, num 24),
      ("altura".toList, num 24), ("cor".toList, .text "#dd5555".toList),
      ("collider".toList, .bool true), ("base_x".toList, num 220)])

def cameraNode (agora : N) (player : Node N) : Node N :=
  camera2d agora
    (config [("nome".toList, .text "Camera2D".toList), ("x".toList, num 160), ("y".toList, num 90),
      ("zoom".toList, num 1), ("seguir".toList, player.id)])

def hudNode (agora : N) : Node N :=
  controle agora (some (.text "HUD".toList))
    (config [("x".toList, num 8), ("y".toList, num 8), ("largura".toList, num 160),
      ("altura".toList, num 28), ("cor".toList, .text "#1d2733".toList)])

def statusNode (agora : N) : Node N :=
  label agora (some (.text "Status".toList))
    (config [("x".toList, num 14), ("y".toList, num 14),
      ("texto".toList, .text "Editor pronto".toList)])

/-- `relogio` is the clock when each of the seven records is made. -/
def createDefaultScene (relogio : ℕ → N) : Node N :=
  let root := rootNode (relogio 0)
  let tiles := tilesNode (relogio 1)
  let player := playerNode (relogio 2)
  let enemy := enemyNode (relogio 3)
  let camera := cameraNode (relogio 4) player
  let hud := (hudNode (relogio 5)).adicionar_filho (statusNode (relogio 6))
  ((((root.adicionar_filho tiles).adicionar_filho player).adicionar_filho enemy).adicionar_filho
    camera).adicionar_filho hud

def createNodeFromTemplate (agora : N) (kind : Text) : Node N :=
  if kind = "sprite".toList then
    sprite2d agora (some (.text "Sprite".toList))
      (config [("x".toList, num 100), ("y".toList, num 70), ("largura".toList, num 24),
        ("altura".toList, num 24), ("cor".toList, .text "#66aaff".toList)])
  else if kind = "label".toList then
    label agora (some (.text "Label".toList))
      (config [("x".toList, num 18), ("y".toList, num 36),
        ("texto".toList, .text "Novo label".toList)])
  else if kind = "control".toList then
    controle agora (some (.text "Panel".toList))
      (config [("x".toList, num 12), ("y".toList, num 40), ("largura".toList, num 120),
        ("altura".toList, num 36), ("cor".toList, .text "#263341".toList)])
  else if kind = "camera".toList then
    camera2d agora
      (config [("nome".toList, .text "Camera2D".toList), ("x".toList, num 160),
        ("y".toList, num 90), ("zoom".toList, num 1)])
  else
    no2d agora (some (.text "Node2D".toList)) (config [("x".toList, num 0), ("y".toList, num 0)])

/-! ## The scene of the project -/

structure Scene (N : Type) where
  scene_root : Node N
  selected_node_id : Json N
  script_por_no : JsObject Text
  arquivo : Option Text

/-- The scene of `createProject`; `arquivo` is the scene file there is already. -/
def newScene (arquivo : Option Text) (relogio : ℕ → N) : Scene N :=
  let root := createDefaultScene relogio
  let player := root.filhos[1]?.map Node.id
  let enemy := root.filhos[2]?.map Node.id
  { scene_root := root
    selected_node_id := ((player.bind (findNode root)).map Node.id).getD .null
    script_por_no :=
      (JsObject.empty.set ((player.map Json.toText).getD [])
        "script_player_controller".toList).set ((enemy.map Json.toText).getD [])
        "script_patrol".toList
    arquivo := arquivo }

namespace Scene

def selectedNode (s : Scene N) : Option (Node N) := findNode s.scene_root s.selected_node_id

def selectNode (id : Json N) (s : Scene N) : Scene N :=
  if id.truthy ∧ (findNode s.scene_root id).isSome then { s with selected_node_id := id } else s

/-- Whether the kind of a node takes no children. -/
def takesNoChild (node : Node N) : Bool :=
  match node.tipo_no with
  | .text t => "Camera".toList.isPrefixOf t || t = "Label".toList
  | _ => false

def addNode (kind : Text) (agora : N) (s : Scene N) : Scene N :=
  let node := createNodeFromTemplate agora kind
  let atRoot := s.scene_root.adicionar_filho node
  { s with
    scene_root :=
      match s.selectedNode with
      | none => atRoot
      | some parent =>
          if takesNoChild parent then atRoot
          else (s.scene_root.modify? (hasId s.selected_node_id) (RoseTree.push node)).getD atRoot
    selected_node_id := node.id }

/-- `gatod.util.id("node")`. -/
def newId (inteiro sorte : N) : Text :=
  "node_".toList ++ NumberText.print inteiro ++ '_' :: NumberText.print sorte

/-- `copy[key] += 18`, for a number. -/
def moveField (key : Text) (node : Node N) : Node N :=
  match node.campos.get? key with
  | some (.number n) => node.set key (.number (n + ((18 : ℕ) : N)))
  | _ => node

/-- The changes to the copy of a node. -/
def renameCopy (inteiro sorte : N) (node copy : Node N) : Node N :=
  let copy := copy.set "id".toList (.text (newId inteiro sorte))
  let copy := copy.set "nome".toList (.text (node.nome.toText ++ "_copy".toList))
  moveField "y".toList (moveField "x".toList copy)

/-- There is no outcome where the call throws. -/
def duplicateSelected (relogio : List ℕ → N) (inteiro sorte : N) (s : Scene N) :
    Option (Scene N) :=
  match s.selectedNode with
  | none => some s
  | some node =>
      if hasId s.selected_node_id s.scene_root.campos then some s
      else
        (hydrateNode relogio (exportNode node)).map fun copy =>
          let copy := renameCopy inteiro sorte node copy
          match s.scene_root.modifyParent? (hasId node.id) (RoseTree.push copy) with
          | none => s
          | some root => { s with scene_root := root, selected_node_id := copy.id }

def deleteSelected (s : Scene N) : Scene N :=
  match s.selectedNode with
  | none => s
  | some node =>
      if hasId s.selected_node_id s.scene_root.campos then s
      else
        match findParent s.scene_root node.id,
            s.scene_root.modifyParent? (hasId node.id) (RoseTree.prune (hasId node.id)) with
        | some parent, some root => { s with scene_root := root, selected_node_id := parent.id }
        | _, _ => s

/-- `script` is the id of the selected script. -/
def attachSelectedScript (script : Option Text) (s : Scene N) : Scene N :=
  match s.selectedNode, script with
  | some node, some id => { s with script_por_no := s.script_por_no.set node.id.toText id }
  | _, _ => s

/-- The command `new_scene`. -/
def startScene (relogio : ℕ → N) (s : Scene N) : Scene N :=
  let root := createDefaultScene relogio
  { s with scene_root := root, selected_node_id := root.id }

def saveScene (s : Scene N) : Scene N := { s with arquivo := some (packScene s.scene_root) }

/-- There is no outcome where the call throws. -/
def loadScene (relogio : List ℕ → N) (s : Scene N) : Option (Scene N) :=
  match s.arquivo with
  | none => some s
  | some text =>
      (loadPackedScene relogio text).map fun root =>
        { s with scene_root := root, selected_node_id := root.id }

end Scene

/-! ## Runs -/

/-- An operation with what the clock and the random numbers give it. -/
inductive SceneOp (N : Type) where
  | select (id : Json N)
  | add (kind : Text) (agora : N)
  | duplicate (relogio : List ℕ → N) (inteiro sorte : N)
  | delete
  | attach (script : Option Text)
  | new_scene (relogio : ℕ → N)
  | save
  | load (relogio : List ℕ → N)

def sceneOp (s : Scene N) : SceneOp N → Option (Scene N)
  | .select id => some (s.selectNode id)
  | .add kind agora => some (s.addNode kind agora)
  | .duplicate relogio inteiro sorte => s.duplicateSelected relogio inteiro sorte
  | .delete => some s.deleteSelected
  | .attach script => some (s.attachSelectedScript script)
  | .new_scene relogio => some (s.startScene relogio)
  | .save => some s.saveScene
  | .load relogio => s.loadScene relogio

end GatoCore.Gatod
