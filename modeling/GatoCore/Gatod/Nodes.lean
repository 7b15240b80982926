import GatoCore.Lib.JsonText
import GatoCore.Lib.RoseTree
import GatoCore.Stdlib.NameParts

/-!
# Nodes of a scene

Source: `createNodeRecord`, `shallowClone` and the factories of nodes of `stdlib/ptstdlib.js`,
`gatod.util.clone` of `samples/gatod_engine/src/bootstrap/core.ptjs`, and `exportNode`,
`hydrateNode`, `packScene` and `loadPackedScene` of `samples/gatod_engine/src/engine/api.ptjs`.

The fields of a node are those that hold data: every record also has the functions `adicionar_filho`
and `remover_filho`, which come last and are not exported. A config has none of the keys `filhos`,
`adicionar_filho`, `remover_filho` and `__proto__`.
-/

namespace GatoCore.Gatod

open GatoCore.Lib GatoCore.Stdlib

/-- The fields of a node in their order: indices, those that every record is made with, and the
others, which come after `filhos`. -/
structure NodeFields (N : Type) where
  indices : List (ℕ × Json N)
  tipo_recurso : Json N
  tipo_no : Json N
  id : Json N
  nome : Json N
  visivel : Json N
  outros : List (List Char × Json N)

/-- A record with its children. -/
abbrev Node (N : Type) := RoseTree (NodeFields N)

variable {N : Type}

/-- `node[key] = v`. -/
def NodeFields.set (f : NodeFields N) (key : Text) (v : Json N) : NodeFields N :=
  if key = "tipo_recurso".toList then { f with tipo_recurso := v }
  else if key = "tipo_no".toList then { f with tipo_no := v }
  else if key = "id".toList then { f with id := v }
  else if key = "nome".toList then { f with nome := v }
  else if key = "visivel".toList then { f with visivel := v }
  else
    match asIndex key with
    | some n => { f with indices := JsObject.setIndex n v f.indices }
    | none => { f with outros := JsObject.setName key v f.outros }

/-- `node[key]`, for a field that holds data. -/
def NodeFields.get? (f : NodeFields N) (key : Text) : Option (Json N) :=
  if key = "tipo_recurso".toList then some f.tipo_recurso
  else if key = "tipo_no".toList then some f.tipo_no
  else if key = "id".toList then some f.id
  else if key = "nome".toList then some f.nome
  else if key = "visivel".toList then some f.visivel
  else
    match asIndex key with
    | some n => f.indices.lookup n
    | none => f.outros.lookup key

namespace Node

@[match_pattern]
abbrev mk (campos : NodeFields N) (filhos : List (Node N)) : Node N := RoseTree.node campos filhos

abbrev campos (node : Node N) : NodeFields N := node.value

abbrev filhos (node : Node N) : List (Node N) := node.children

def id (node : Node N) : Json N := node.campos.id

def nome (node : Node N) : Json N := node.campos.nome

def tipo_no (node : Node N) : Json N := node.campos.tipo_no

/-- `node[key] = v`. -/
def set (node : Node N) (key : Text) (v : Json N) : Node N := mk (node.campos.set key v) node.filhos

def adicionar_filho (node child : Node N) : Node N := RoseTree.push child node

end Node

/-! ## Records -/

/-- What the record takes over of a value of its config. -/
def shallowClone : Json N → Json N
  | .object o => .object (o.filterKeys fun key => key ≠ "__proto__".toList)
  | v => v

section Factories

variable [NumberText N] [DecidableEq N]

/-- `v || w`, where `v` may be undefined. -/
def orElse (v : Option (Json N)) (w : Json N) : Json N := (v.map fun v => v.or w).getD w

def generatedId (agora : N) (typeName : Text) : Text :=
  sanitizeNamePart (NumberText.print agora) (typeName.map Char.toLower) ++
    '_' :: NumberText.print agora

def createNodeRecord (agora : N) (typeName : Text) (name : Option (Json N))
    (config : JsObject (Json N)) (defaults : List (Text × Json N)) : Node N :=
  let node : NodeFields N :=
    { indices := []
      tipo_recurso := .text "no".toList
      tipo_no := .text typeName
      id := orElse (config.get? "id".toList) (.text (generatedId agora typeName))
      nome := orElse name (.text typeName)
      visivel := .bool (((config.get? "visivel".toList).map Json.isNotFalse).getD true)
      outros := defaults }
  .mk (config.entries.foldl (fun node e => node.set e.1 (shallowClone e.2)) node) []

def num (n : ℕ) : Json N := .number n

def no (agora : N) (name : Option (Json N)) (config : JsObject (Json N)) : Node N :=
  createNodeRecord agora "Node".toList name config []

def no2d (agora : N) (name : Option (Json N)) (config : JsObject (Json N)) : Node N :=
  createNodeRecord agora "Node2D".toList name config
    [("x".toList, num 0), ("y".toList, num 0), ("rotacao".toList, num 0),
     ("escala_x".toList, num 1), ("escala_y".toList, num 1)]

def no3d (agora : N) (name : Option (Json N)) (config : JsObject (Json N)) : Node N :=
  createNodeRecord agora "Node3D".toList name config
    [("x".toList, num 0), ("y".toList, num 0), ("z".toList, num 0),
     ("rotacao_x".toList, num 0), ("rotacao_y".toList, num 0), ("rotacao_z".toList, num 0),
     ("escala_x".toList, num 1), ("escala_y".toList, num 1), ("escala_z".toList, num 1)]

def controle (agora : N) (name : Option (Json N)) (config : JsObject (Json N)) : Node N :=
  createNodeRecord agora "Control".toList name config
    [("x".toList, num 0), ("y".toList, num 0), ("largura".toList, num 180),
     ("altura".toList, num 48), ("texto".toList, .text [])]

def label (agora : N) (name : Option (Json N)) (config : JsObject (Json N)) : Node N :=
  createNodeRecord agora "Label".toList name config
    [("x".toList, num 0), ("y".toList, num 0),
     ("texto".toList, orElse name (.text "Label".toList)), ("cor".toList, .text "#f0f0f0".toList)]

def camera2d (agora : N) (config : JsObject (Json N)) : Node N :=
  createNodeRecord agora "Camera2D".toList
    (some (orElse (config.get? "nome".toList) (.text "Camera2D".toList))) config
    [("x".toList, orElse (config.get? "x".toList) (num 0)),
     ("y".toList, orElse (config.get? "y".toList) (num 0)),
     ("zoom".toList, orElse (config.get? "zoom".toList) (num 1)),
     ("seguir".toList, orElse (config.get? "seguir".toList) .null)]

def camera3d (agora : N) (config : JsObject (Json N)) : Node N :=
  createNodeRecord agora "Camera3D".toList
    (some (orElse (config.get? "nome".toList) (.text "Camera3D".toList))) config
    [("x".toList, orElse (config.get? "x".toList) (num 0)),
     ("y".toList, orElse (config.get? "y".toList) (num 0)),
     ("z".toList, orElse (config.get? "z".toList) (num 0)),
     ("fov".toList, orElse (config.get? "fov".toList) (num 70))]

def sprite2d (agora : N) (name : Option (Json N)) (config : JsObject (Json N)) : Node N :=
  createNodeRecord agora "Sprite2D".toList name config
    [("x".toList, num 0), ("y".toList, num 0), ("largura".toList, num 24),
     ("altura".toList, num 24), ("cor".toList, .text "#44aa88".toList)]

def defaultPalette : JsObject (Json N) :=
  ⟨[(0, .text "#22303d".toList), (1, .text "#355c4d".toList), (2, .text "#5c4d35".toList)], []⟩

def tilemap (agora : N) (config : JsObject (Json N)) : Node N :=
  createNodeRecord agora "TileMap".toList
    (some (orElse (config.get? "nome".toList) (.text "TileMap".toList))) config
    [("x".toList, num 0), ("y".toList, num 0),
     ("largura_mapa".toList, orElse (config.get? "largura_mapa".toList) (num 16)),
     ("altura_mapa".toList, orElse (config.get? "altura_mapa".toList) (num 10)),
     ("tamanho_tile".toList, orElse (config.get? "tamanho_tile".toList) (num 16)),
     ("tiles".toList,
       match config.get? "tiles".toList with
       | some (.array tiles) => .array tiles
       | _ => .array []),
     ("paleta".toList,
       match config.get? "paleta".toList with
       | some (.object paleta) => shallowClone (.object paleta)
       | _ => .object defaultPalette)]

/-! ## Export -/

/-- `JSON.parse(JSON.stringify(v))`. -/
def clone (v : Json N) : Json N := (Json.parse (Json.stringify 0 v)).getD v

mutual
def exportNode : Node N → Json N
  | .mk f filhos =>
      .object
        { indices := f.indices.map fun e => (e.1, clone e.2)
          names :=
            [("tipo_recurso".toList, clone f.tipo_recurso), ("tipo_no".toList, clone f.tipo_no),
             ("id".toList, clone f.id), ("nome".toList, clone f.nome),
             ("visivel".toList, clone f.visivel), ("filhos".toList, .array (exportNodes filhos))] ++
            f.outros.map fun e => (e.1, clone e.2) }
def exportNodes : List (Node N) → List (Json N)
  | [] => []
  | node :: nodes => exportNode node :: exportNodes nodes
end

/-! ## Hydration -/

/-- The text a value is. -/
def asText : Option (Json N) → Option Text
  | some (.text t) => some t
  | _ => none

/-- `node.nome = nome`, where the record has a name. -/
def withNome (node : Node N) (nome : Option (Json N)) : Node N :=
  match nome with
  | some v => node.set "nome".toList v
  | none => node

/-- A node without its children. -/
def hydrateRecord (agora : N) (raw : JsObject (Json N)) : Node N :=
  let nome := raw.get? "nome".toList
  let kept := raw.filterKeys fun key => key ≠ "filhos".toList ∧ key ≠ "nome".toList
  let config : JsObject (Json N) :=
    ⟨kept.indices.map fun e => (e.1, clone e.2), kept.names.map fun e => (e.1, clone e.2)⟩
  let tipo := asText (raw.get? "tipo_no".toList)
  if tipo = some "Node2D".toList then no2d agora nome config
  else if tipo = some "Sprite2D".toList then sprite2d agora nome config
  else if tipo = some "Camera2D".toList then withNome (camera2d agora config) nome
  else if tipo = some "Control".toList then controle agora nome config
  else if tipo = some "Label".toList then label agora nome config
  else if tipo = some "TileMap".toList then withNome (tilemap agora config) nome
  else no agora nome config

/-- The own fields of a value that is no object. -/
def ownFields : Json N → JsObject (Json N)
  | .object o => o
  | .array items => ⟨items.zipIdx.map fun e => (e.2, e.1), []⟩
  | .text t => ⟨t.zipIdx.map fun e => (e.2, .text [e.1]), []⟩
  | _ => JsObject.empty

-- `relogio` is the clock when the record at a path is made.
mutual
/-- There is no node where the call throws. -/
def hydrateNode (relogio : List ℕ → N) : Json N → Option (Node N)
  | .null => none
  | .object ⟨indices, names⟩ =>
      (hydrateFilhos relogio names).map fun filhos =>
        filhos.foldl Node.adicionar_filho (hydrateRecord (relogio []) ⟨indices, names⟩)
  | raw => some (hydrateRecord (relogio []) (ownFields raw))
/-- The nodes of the field `filhos`. -/
def hydrateFilhos (relogio : List ℕ → N) : List (Text × Json N) → Option (List (Node N))
  | [] => some []
  | (key, v) :: rest =>
      if key = "filhos".toList then hydrateChildren relogio v else hydrateFilhos relogio rest
def hydrateChildren (relogio : List ℕ → N) : Json N → Option (List (Node N))
  | .array items => hydrateNodes relogio 0 items
  | v => if v.truthy then none else some []
def hydrateNodes (relogio : List ℕ → N) (i : ℕ) : List (Json N) → Option (List (Node N))
  | [] => some []
  | raw :: raws =>
      (hydrateNode (fun path => relogio (i :: path)) raw).bind fun node =>
        (hydrateNodes relogio (i + 1) raws).map fun nodes => node :: nodes
end

/-! ## Packed scenes -/

def packScene (root : Node N) : Text := Json.stringify 2 (exportNode root)

/-- There is no scene where the call throws. -/
def loadPackedScene (relogio : List ℕ → N) (text : Text) : Option (Node N) :=
  (Json.parse text).bind (hydrateNode relogio)

end Factories

end GatoCore.Gatod
