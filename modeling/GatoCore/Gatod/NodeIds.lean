import GatoCore.Gatod.Pack
import GatoCore.Gatod.Scene

/-!
# Ids of nodes

An id is made of the kind of a node and the clock, or of the clock and a random number, and the copy
of a node keeps the ids of its children. The ids of a scene stay different exactly in the runs where
every new id is new and no node with children is duplicated.
-/

namespace GatoCore.Gatod

open GatoCore.Lib GatoCore.Stdlib

variable {N : Type}

/-! ## Different ids -/

def idText (campos : NodeFields N) : Option Text := asText (some campos.id)

def idTexts (root : Node N) : List (Option Text) := root.values.map idText

/-- Every id is a text, and no two are the same. -/
def UniqueIds (root : Node N) : Prop := (idTexts root).Nodup ∧ none ∉ idTexts root

instance (root : Node N) : Decidable (UniqueIds root) := inferInstanceAs (Decidable (_ ∧ _))

theorem UniqueIds.id_eq {root : Node N} (h : UniqueIds root) {f : NodeFields N}
    (hf : f ∈ root.values) : ∃ t, f.id = .text t := by
  have hsome : idText f ≠ none := fun hnone => h.2 (hnone ▸ List.mem_map_of_mem hf)
  rw [idText] at hsome
  cases hid : f.id with
  | text t => exact ⟨t, rfl⟩
  | _ =>
      rw [hid] at hsome
      exact absurd rfl hsome

section Found

variable [DecidableEq N]

theorem hasId_text (t : Text) (campos : NodeFields N) :
    hasId (.text t) campos = decide (idText campos = some t) := by
  rw [hasId, idText]
  cases campos.id <;> simp [Json.strictEq, asText]

/-- No more than one node has an id. -/
theorem UniqueIds.countP_le {root : Node N} (h : UniqueIds root) {f : NodeFields N}
    (hf : f ∈ root.values) : root.values.countP (hasId f.id) ≤ 1 := by
  obtain ⟨t, ht⟩ := h.id_eq hf
  have hcount : root.values.countP (hasId (.text t)) = (idTexts root).count (some t) := by
    rw [idTexts, List.count, List.countP_map]
    refine List.countP_congr fun g _ => ?_
    rw [hasId_text]
    simp
  rw [ht, hcount]
  exact List.nodup_iff_count_le_one.mp h.1 _

theorem UniqueIds.hasId_self {root : Node N} (h : UniqueIds root) {f : NodeFields N}
    (hf : f ∈ root.values) : hasId f.id f = true := by
  obtain ⟨t, ht⟩ := h.id_eq hf
  rw [hasId, ht]
  exact decide_eq_true rfl

/-- An id finds the node it is the id of. -/
theorem UniqueIds.findNode_eq {root node : Node N} (h : UniqueIds root)
    (hnode : node ∈ flattenNodes root) : findNode root node.id = some node := by
  have hvalue : node.value ∈ root.values := List.mem_map_of_mem hnode
  exact RoseTree.find?_of_mem hnode (h.hasId_self hvalue) (h.countP_le hvalue)

/-- The parent that is found is the node that has the child. -/
theorem UniqueIds.findParent_eq {root parent child : Node N} (h : UniqueIds root)
    (hparent : parent ∈ flattenNodes root) (hchild : child ∈ parent.filhos) :
    findParent root child.id = some parent := by
  have hvalue : child.value ∈ root.values := by
    rw [RoseTree.values_eq]
    exact List.mem_cons_of_mem _ (RoseTree.child_value_mem hchild hparent)
  exact RoseTree.parentOf?_child hchild (h.hasId_self hvalue) hparent (h.countP_le hvalue)

theorem selected_eq {s : Scene N} (h : UniqueIds s.scene_root) {node : Node N}
    (hsel : s.selectedNode = some node) :
    node ∈ flattenNodes s.scene_root ∧ s.selected_node_id = node.id := by
  rw [Scene.selectedNode, findNode, RoseTree.find?_eq] at hsel
  have hmem := List.mem_of_find?_eq_some hsel
  have hid := List.find?_some hsel
  refine ⟨hmem, ?_⟩
  obtain ⟨t, ht⟩ := h.id_eq (List.mem_map_of_mem hmem)
  rw [hasId, ht] at hid
  rw [show node.id = .text t from ht]
  cases hselected : s.selected_node_id with
  | text t' =>
      rw [hselected] at hid
      rw [of_decide_eq_true hid]
  | _ =>
      rw [hselected] at hid
      cases hid

/-- The selected node, when it is not the root, is found once, below the root. -/
theorem selected_once {s : Scene N} (h : UniqueIds s.scene_root) {node : Node N}
    (hsel : s.selectedNode = some node)
    (hroot : hasId s.selected_node_id s.scene_root.campos = false) :
    s.scene_root.values.countP (hasId node.id) = 1 ∧
      (RoseTree.valuesAll s.scene_root.filhos).countP (hasId node.id) = 1 := by
  obtain ⟨hmem, hid⟩ := selected_eq h hsel
  have hvalue : node.value ∈ s.scene_root.values := List.mem_map_of_mem hmem
  have hle := h.countP_le hvalue
  have hpos : 0 < s.scene_root.values.countP (hasId node.id) :=
    RoseTree.countP_pos hvalue (h.hasId_self hvalue)
  have hone : s.scene_root.values.countP (hasId node.id) = 1 := le_antisymm hle hpos
  refine ⟨hone, ?_⟩
  rw [hid] at hroot
  cases hnode : s.scene_root with
  | node f filhos =>
      rw [hnode] at hone hroot
      rw [RoseTree.values_node, List.countP_cons, if_neg (by simpa using hroot)] at hone
      exact hone

theorem exists_findParent {s : Scene N} (h : UniqueIds s.scene_root) {node : Node N}
    (hsel : s.selectedNode = some node)
    (hroot : hasId s.selected_node_id s.scene_root.campos = false) :
    ∃ parent, findParent s.scene_root node.id = some parent := by
  obtain ⟨hmem, hid⟩ := selected_eq h hsel
  rcases RoseTree.exists_parent hmem with rfl | ⟨parent, hparent, hchild⟩
  · have hself := h.hasId_self (List.mem_map_of_mem (RoseTree.self_mem_subtrees s.scene_root))
    rw [hid] at hroot
    exact absurd (hself.symm.trans hroot) (by decide)
  · exact ⟨parent, h.findParent_eq hparent hchild⟩

/-- `deleteSelected` takes the selected node out of the scene with its subtree, and nothing else. -/
theorem UniqueIds.deleteSelected_eq {s : Scene N} (h : UniqueIds s.scene_root) {node : Node N}
    (hsel : s.selectedNode = some node)
    (hroot : hasId s.selected_node_id s.scene_root.campos = false) :
    s.deleteSelected.scene_root = RoseTree.erase (hasId node.id) s.scene_root ∧
      ∃ pre post, s.scene_root.values = pre ++ node.values ++ post ∧
        s.deleteSelected.scene_root.values = pre ++ post := by
  obtain ⟨hone, hbelow⟩ := selected_once h hsel hroot
  obtain ⟨parent, hparent⟩ := exists_findParent h hsel hroot
  have herase : s.deleteSelected.scene_root = RoseTree.erase (hasId node.id) s.scene_root := by
    rw [Scene.deleteSelected, hsel]
    simp only [hroot, Bool.false_eq_true, if_false, hparent, RoseTree.modifyParent?_prune hbelow]
  refine ⟨herase, ?_⟩
  rw [herase]
  obtain ⟨-, hid⟩ := selected_eq h hsel
  rw [Scene.selectedNode, findNode, hid] at hsel
  rw [hid] at hroot
  exact RoseTree.values_erase hroot hsel hone

end Found

/-! ## New nodes -/

theorem set_id {f : NodeFields N} {key : Text} {v : Json N} (h : key ≠ "id".toList) :
    (f.set key v).id = f.id := by
  unfold NodeFields.set
  split_ifs
  · rfl
  · rfl
  · rfl
  · rfl
  · cases asIndex key <;> rfl

theorem set_nome {f : NodeFields N} {key : Text} {v : Json N} (h : key ≠ "nome".toList) :
    (f.set key v).nome = f.nome := by
  unfold NodeFields.set
  split_ifs
  · rfl
  · rfl
  · rfl
  · rfl
  · cases asIndex key <;> rfl

theorem setEntries_id {es : List (Text × Json N)} (h : "id".toList ∉ es.map Prod.fst)
    (f : NodeFields N) : (f.setEntries es).id = f.id := by
  induction es generalizing f with
  | nil => rfl
  | cons e es ih =>
      rw [List.map_cons, List.mem_cons, not_or] at h
      exact (ih h.2 (f.set e.1 e.2)).trans (set_id (Ne.symm h.1))

theorem setEntries_nome {es : List (Text × Json N)} (h : "nome".toList ∉ es.map Prod.fst)
    (f : NodeFields N) : (f.setEntries es).nome = f.nome := by
  induction es generalizing f with
  | nil => rfl
  | cons e es ih =>
      rw [List.map_cons, List.mem_cons, not_or] at h
      exact (ih h.2 (f.set e.1 e.2)).trans (set_nome (Ne.symm h.1))

section New

variable [Coordinates N]

/-- What the keys of a config in the source are. -/
def LiteralKeys (keys : List Text) : Prop :=
  keys.Nodup ∧ ∀ key ∈ keys, asIndex key = none ∧ key ∉ ownKeys

instance (keys : List Text) : Decidable (LiteralKeys keys) :=
  inferInstanceAs (Decidable (_ ∧ _))

theorem isConfig_config {fields : List (Text × Json N)} (hkeys : LiteralKeys (fields.map Prod.fst))
    (hvalues : ∀ e ∈ fields, e.2.Canonical) : IsConfig (config fields) where
  canonical := .object
    ⟨.nil, fun _ h => absurd h List.not_mem_nil, hkeys.1,
      fun e he => (hkeys.2 e.1 (List.mem_map_of_mem he)).1⟩ hvalues
  keys e he := (hkeys.2 e.1 (List.mem_map_of_mem he)).2

variable [DecidableEq N]

omit [Coordinates N] [DecidableEq N] in
theorem map_fst_shallowClone (fields : List (Text × Json N)) :
    ((config fields).entries.map fun e => (e.1, shallowClone e.2)).map Prod.fst =
      fields.map Prod.fst := by
  rw [List.map_map]
  rfl

/-- A record whose config has no id has one of its kind and the clock. -/
theorem createNodeRecord_id {fields : List (Text × Json N)}
    (hkeys : "id".toList ∉ fields.map Prod.fst) (agora : N) (typeName : Text)
    (name : Option (Json N)) (defaults : List (Text × Json N)) :
    (createNodeRecord agora typeName name (config fields) defaults).id =
      .text (generatedId agora typeName) := by
  have hget : (config fields).get? "id".toList = none := by
    cases hget : (config fields).get? "id".toList with
    | none => rfl
    | some v => exact absurd (List.mem_map_of_mem (mem_entries_of_get? (by decide) hget)) hkeys
  rw [createNodeRecord_eq]
  refine (setEntries_id ?_ _).trans ?_
  · rw [map_fst_shallowClone]
    exact hkeys
  · rw [hget]
    rfl

theorem createNodeRecord_nome {fields : List (Text × Json N)}
    (hkeys : "nome".toList ∉ fields.map Prod.fst) (agora : N) (typeName : Text)
    (name : Option (Json N)) (defaults : List (Text × Json N)) :
    (createNodeRecord agora typeName name (config fields) defaults).nome =
      orElse name (.text typeName) := by
  rw [createNodeRecord_eq]
  refine (setEntries_nome ?_ _).trans rfl
  rw [map_fst_shallowClone]
  exact hkeys

/-- The name that a config begins with. -/
theorem createNodeRecord_nome_cons {t : Text} {fields : List (Text × Json N)}
    (hkeys : "nome".toList ∉ fields.map Prod.fst) (agora : N) (typeName : Text)
    (name : Option (Json N)) (defaults : List (Text × Json N)) :
    (createNodeRecord agora typeName name (config (("nome".toList, .text t) :: fields))
      defaults).nome = .text t := by
  rw [createNodeRecord_eq]
  have hrest : "nome".toList ∉
      ((config fields).entries.map fun e => (e.1, shallowClone e.2)).map Prod.fst := by
    rw [map_fst_shallowClone]
    exact hkeys
  exact (setEntries_nome hrest _).trans rfl

/-- A record as a factory of the editor makes it. -/
structure IsNew (typeName : Text) (agora : N) (node : Node N) : Prop where
  built : Built node
  id : node.id = .text (generatedId agora typeName)
  filhos : node.filhos = []

/-- The type of the node that a template makes. -/
def templateType (kind : Text) : Text :=
  if kind = "sprite".toList then "Sprite2D".toList
  else if kind = "label".toList then "Label".toList
  else if kind = "control".toList then "Control".toList
  else if kind = "camera".toList then "Camera2D".toList
  else "Node2D".toList

omit [DecidableEq N] in
theorem canonical_num {n : ℕ} (h : n < 2 ^ 53) : (num n : Json N).Canonical := (kept_num h).1

theorem truthy_of_eq_text {v : Json N} {t : Text} (h : v = .text t) (ht : t ≠ []) :
    v.truthy = true := by
  rw [h]
  simpa using ht

/-- What the keys of a config without a name and an id are. -/
def PlainKeys (keys : List Text) : Prop :=
  LiteralKeys keys ∧ "id".toList ∉ keys ∧ "nome".toList ∉ keys

instance (keys : List Text) : Decidable (PlainKeys keys) :=
  inferInstanceAs (Decidable (_ ∧ _ ∧ _))

/-- A record that has its name from the argument of the factory. -/
theorem isNew_of_name (fabrica : Fabrica) {agora : N} {typeName name : Text}
    {fields defaults : List (Text × Json N)}
    (heq : fabricar fabrica agora (some name) (config fields) =
      createNodeRecord agora typeName (some (.text name)) (config fields) defaults)
    (hname : name ≠ []) (hkeys : PlainKeys (fields.map Prod.fst))
    (hvalues : ∀ e ∈ fields, e.2.Canonical) :
    IsNew typeName agora (fabricar fabrica agora (some name) (config fields)) where
  built := by
    refine .factory fabrica agora (some name) (isConfig_config hkeys.1 hvalues) ?_
    rw [heq]
    refine truthy_of_eq_text ((createNodeRecord_nome hkeys.2.2 _ _ _ _).trans ?_) hname
    exact orElse_of_truthy (truthy_of_eq_text rfl hname) _
  id := by
    rw [heq]
    exact createNodeRecord_id hkeys.2.1 _ _ _ _
  filhos := fabricar_filhos _ _ _ _

/-- A record that has its name from the first field of its config. -/
theorem isNew_of_config (fabrica : Fabrica) {agora : N} {typeName t : Text}
    {name : Option (Json N)} {fields defaults : List (Text × Json N)}
    (heq : fabricar fabrica agora none (config (("nome".toList, .text t) :: fields)) =
      createNodeRecord agora typeName name (config (("nome".toList, .text t) :: fields)) defaults)
    (ht : t ≠ []) (hkeys : PlainKeys (fields.map Prod.fst))
    (hvalues : ∀ e ∈ fields, e.2.Canonical) :
    IsNew typeName agora
      (fabricar fabrica agora none (config (("nome".toList, .text t) :: fields))) where
  built := by
    have hliteral : LiteralKeys ((("nome".toList, Json.text t) :: fields).map Prod.fst) := by
      refine ⟨List.nodup_cons.mpr ⟨hkeys.2.2, hkeys.1.1⟩, List.forall_mem_cons.mpr ⟨?_, hkeys.1.2⟩⟩
      exact (by decide : asIndex "nome".toList = none ∧ "nome".toList ∉ ownKeys)
    refine .factory fabrica agora none
      (isConfig_config hliteral (List.forall_mem_cons.mpr ⟨.text t, hvalues⟩)) ?_
    rw [heq]
    exact truthy_of_eq_text (createNodeRecord_nome_cons hkeys.2.2 _ _ _ _) ht
  id := by
    rw [heq]
    refine createNodeRecord_id ?_ _ _ _ _
    rw [List.map_cons, List.mem_cons, not_or]
    exact ⟨(by decide : "id".toList ≠ "nome".toList), hkeys.2.1⟩
  filhos := fabricar_filhos _ _ _ _

theorem isNew_createNodeFromTemplate (agora : N) (kind : Text) :
    IsNew (templateType kind) agora (createNodeFromTemplate agora kind) := by
  unfold templateType createNodeFromTemplate
  split_ifs
  · refine isNew_of_name .sprite2d rfl (by decide) ?_ ?_
    · simp only [List.map_cons, List.map_nil]
      decide
    · simp [canonical_num, Json.Canonical.text]
  · refine isNew_of_name .label rfl (by decide) ?_ ?_
    · simp only [List.map_cons, List.map_nil]
      decide
    · simp [canonical_num, Json.Canonical.text]
  · refine isNew_of_name .controle rfl (by decide) ?_ ?_
    · simp only [List.map_cons, List.map_nil]
      decide
    · simp [canonical_num, Json.Canonical.text]
  · refine isNew_of_config .camera2d rfl (by decide) ?_ ?_
    · simp only [List.map_cons, List.map_nil]
      decide
    · simp [canonical_num]
  · refine isNew_of_name .no2d rfl (by decide) ?_ ?_
    · simp only [List.map_cons, List.map_nil]
      decide
    · simp [canonical_num]

/-! ## The default scene -/

theorem isNew_rootNode (agora : N) : IsNew "Node2D".toList agora (rootNode agora) := by
  refine isNew_of_name .no2d rfl (by decide) ?_ ?_
  · simp only [List.map_cons, List.map_nil]
    decide
  · simp [canonical_num]

omit [DecidableEq N] in
theorem canonical_defaultTiles : (Json.array defaultTiles : Json N).Canonical := by
  refine .array ?_
  intro v hv
  obtain ⟨y, -, hy⟩ := List.mem_flatMap.mp hv
  obtain ⟨x, -, rfl⟩ := List.mem_map.mp hy
  split_ifs <;> exact canonical_num (by decide)

theorem isNew_tilesNode (agora : N) : IsNew "TileMap".toList agora (tilesNode agora) := by
  refine isNew_of_config .tilemap rfl (by decide) ?_ ?_
  · simp only [List.map_cons, List.map_nil]
    decide
  · simp [canonical_num, canonical_defaultTiles]

theorem isNew_playerNode (agora : N) : IsNew "Sprite2D".toList agora (playerNode agora) := by
  refine isNew_of_name .sprite2d rfl (by decide) ?_ ?_
  · simp only [List.map_cons, List.map_nil]
    decide
  · simp [canonical_num, Json.Canonical.text, Json.Canonical.bool]

theorem isNew_enemyNode (agora : N) : IsNew "Sprite2D".toList agora (enemyNode agora) := by
  refine isNew_of_name .sprite2d rfl (by decide) ?_ ?_
  · simp only [List.map_cons, List.map_nil]
    decide
  · simp [canonical_num, Json.Canonical.text, Json.Canonical.bool]

theorem isNew_cameraNode (agora : N) {player : Node N} (hplayer : player.id.Canonical) :
    IsNew "Camera2D".toList agora (cameraNode agora player) := by
  refine isNew_of_config .camera2d rfl (by decide) ?_ ?_
  · simp only [List.map_cons, List.map_nil]
    decide
  · simp [canonical_num, hplayer]

theorem isNew_hudNode (agora : N) : IsNew "Control".toList agora (hudNode agora) := by
  refine isNew_of_name .controle rfl (by decide) ?_ ?_
  · simp only [List.map_cons, List.map_nil]
    decide
  · simp [canonical_num, Json.Canonical.text]

theorem isNew_statusNode (agora : N) : IsNew "Label".toList agora (statusNode agora) := by
  refine isNew_of_name .label rfl (by decide) ?_ ?_
  · simp only [List.map_cons, List.map_nil]
    decide
  · simp [canonical_num, Json.Canonical.text]

/-- The ids of a node without children. -/
theorem IsNew.idTexts_eq {typeName : Text} {agora : N} {node : Node N}
    (h : IsNew typeName agora node) : idTexts node = [some (generatedId agora typeName)] := by
  have hid := h.id
  have hfilhos := h.filhos
  cases node with
  | node f filhos =>
      rw [Node.filhos, RoseTree.children_node] at hfilhos
      subst hfilhos
      rw [idTexts, RoseTree.values_node, RoseTree.valuesAll_nil, List.map_cons,
        List.map_nil, idText,
        show f.id = _ from hid]
      rfl

omit [Coordinates N] [DecidableEq N] in
theorem idTexts_adicionar_filho (node child : Node N) :
    idTexts (node.adicionar_filho child) = idTexts node ++ idTexts child := by
  rw [idTexts, Node.adicionar_filho, RoseTree.values_push, List.map_append, idTexts, idTexts]

theorem createDefaultScene_built (relogio : ℕ → N) : Built (createDefaultScene relogio) := by
  have hplayer : (playerNode (relogio 2)).id.Canonical := by
    rw [(isNew_playerNode (relogio 2)).id]
    exact .text _
  exact .child (.child (.child (.child (.child (isNew_rootNode _).built (isNew_tilesNode _).built)
    (isNew_playerNode _).built) (isNew_enemyNode _).built) (isNew_cameraNode _ hplayer).built)
    (.child (isNew_hudNode _).built (isNew_statusNode _).built)

theorem idTexts_createDefaultScene (relogio : ℕ → N) :
    idTexts (createDefaultScene relogio) =
      [some (generatedId (relogio 0) "Node2D".toList),
       some (generatedId (relogio 1) "TileMap".toList),
       some (generatedId (relogio 2) "Sprite2D".toList),
       some (generatedId (relogio 3) "Sprite2D".toList),
       some (generatedId (relogio 4) "Camera2D".toList),
       some (generatedId (relogio 5) "Control".toList),
       some (generatedId (relogio 6) "Label".toList)] := by
  have hplayer : (playerNode (relogio 2)).id.Canonical := by
    rw [(isNew_playerNode (relogio 2)).id]
    exact .text _
  simp only [createDefaultScene, idTexts_adicionar_filho, (isNew_rootNode _).idTexts_eq,
    (isNew_tilesNode _).idTexts_eq, (isNew_playerNode _).idTexts_eq,
    (isNew_enemyNode _).idTexts_eq, (isNew_cameraNode _ hplayer).idTexts_eq,
    (isNew_hudNode _).idTexts_eq, (isNew_statusNode _).idTexts_eq, List.cons_append,
    List.nil_append]

/-- The part of an id that its kind gives. -/
def kindPart (typeName : Text) : Text :=
  stripUnderscores (replaceRuns false (typeName.map Char.toLower))

omit [DecidableEq N] in
theorem generatedId_eq {typeName part : Text} (h : kindPart typeName = part) (hpart : part ≠ [])
    (agora : N) : generatedId agora typeName = part ++ '_' :: NumberText.print agora := by
  have hne : stripUnderscores (replaceRuns false (typeName.map Char.toLower)) ≠ [] := by
    rw [← h] at hpart
    exact hpart
  rw [generatedId, sanitizeNamePart]
  simp only [hne, if_false]
  rw [← h, kindPart]

/-- Only the ids of the two sprites can be the same. -/
theorem uniqueIds_createDefaultScene (relogio : ℕ → N) :
    UniqueIds (createDefaultScene relogio) ↔
      NumberText.print (relogio 2) ≠ NumberText.print (relogio 3) := by
  rw [UniqueIds, idTexts_createDefaultScene,
    generatedId_eq (show kindPart "Node2D".toList = "node2d".toList by decide) (by decide),
    generatedId_eq (show kindPart "TileMap".toList = "tilemap".toList by decide) (by decide),
    generatedId_eq (show kindPart "Sprite2D".toList = "sprite2d".toList by decide) (by decide),
    generatedId_eq (show kindPart "Sprite2D".toList = "sprite2d".toList by decide) (by decide),
    generatedId_eq (show kindPart "Camera2D".toList = "camera2d".toList by decide) (by decide),
    generatedId_eq (show kindPart "Control".toList = "control".toList by decide) (by decide),
    generatedId_eq (show kindPart "Label".toList = "label".toList by decide) (by decide)]
  simp

/-! ## The condition -/

/-- Every id that an operation makes is new, and a node that is duplicated has no children. -/
def Fresh (s : Scene N) : SceneOp N → Prop
  | .add kind agora => some (generatedId agora (templateType kind)) ∉ idTexts s.scene_root
  | .duplicate _ inteiro sorte =>
      ∀ node, s.selectedNode = some node →
        hasId s.selected_node_id s.scene_root.campos = false →
        node.filhos = [] ∧ some (Scene.newId inteiro sorte) ∉ idTexts s.scene_root
  | .new_scene relogio => NumberText.print (relogio 2) ≠ NumberText.print (relogio 3)
  | _ => True

/-- What every scene of a run is while the ids are different. -/
structure Sound (s : Scene N) : Prop where
  packable : Packable s.scene_root
  unique : UniqueIds s.scene_root
  arquivo : ∀ text, s.arquivo = some text →
    ∃ root : Node N, text = packScene root ∧ Packable root ∧ UniqueIds root

omit [Coordinates N] [DecidableEq N] in
theorem uniqueIds_of_perm {root root' : Node N} {extra : List (NodeFields N)}
    (h : List.Perm root'.values (extra ++ root.values)) :
    UniqueIds root' ↔
      (extra.map idText ++ idTexts root).Nodup ∧ none ∉ extra.map idText ++ idTexts root := by
  have hperm : List.Perm (idTexts root') (extra.map idText ++ idTexts root) := by
    rw [idTexts, idTexts, ← List.map_append]
    exact h.map idText
  rw [UniqueIds, hperm.nodup_iff, hperm.mem_iff]

omit [Coordinates N] [DecidableEq N] in
/-- One record more. -/
theorem uniqueIds_of_perm_cons {root root' : Node N} (h : UniqueIds root) {f : NodeFields N}
    {t : Text} (hf : f.id = .text t) (hperm : List.Perm root'.values (f :: root.values)) :
    UniqueIds root' ↔ some t ∉ idTexts root := by
  have hid : idText f = some t := by
    rw [idText, hf]
    rfl
  rw [uniqueIds_of_perm (show List.Perm root'.values ([f] ++ root.values) from hperm),
    List.map_singleton, hid, List.singleton_append,
    List.nodup_cons, List.mem_cons, not_or]
  exact ⟨fun hall => hall.1.1, fun hnew => ⟨⟨hnew, h.1⟩, by simp, h.2⟩⟩

omit [Coordinates N] [DecidableEq N] in
theorem UniqueIds.of_sublist {root root' : Node N} (h : UniqueIds root)
    (hsub : List.Sublist root'.values root.values) : UniqueIds root' :=
  ⟨h.1.sublist (hsub.map idText), fun hnone => h.2 ((hsub.map idText).subset hnone)⟩

/-! ## What each operation does to the records -/

theorem values_addNode (kind : Text) (agora : N) (s : Scene N) :
    List.Perm (s.addNode kind agora).scene_root.values
      ((createNodeFromTemplate agora kind).values ++ s.scene_root.values) := by
  have hroot := RoseTree.adds_push (createNodeFromTemplate agora kind) s.scene_root
  unfold Scene.addNode
  cases hsel : s.selectedNode with
  | none => exact hroot
  | some parent =>
      simp only
      split_ifs
      · exact hroot
      · cases hmodify : s.scene_root.modify? (hasId s.selected_node_id)
            (RoseTree.push (createNodeFromTemplate agora kind)) with
        | none => exact hroot
        | some root => exact RoseTree.values_modify? (RoseTree.adds_push _) hmodify

omit [Coordinates N] in
theorem values_deleteSelected {s : Scene N} (h : UniqueIds s.scene_root) :
    List.Sublist s.deleteSelected.scene_root.values s.scene_root.values := by
  cases hsel : s.selectedNode with
  | none =>
      rw [Scene.deleteSelected, hsel]
  | some node =>
      cases hroot : hasId s.selected_node_id s.scene_root.campos with
      | true =>
          rw [Scene.deleteSelected, hsel]
          simp only [hroot, if_true]
          exact List.Sublist.refl _
      | false =>
          obtain ⟨-, pre, post, hvalues, hdelete⟩ := h.deleteSelected_eq hsel hroot
          rw [hvalues, hdelete, List.append_assoc]
          exact (List.sublist_append_right _ _).append_left pre

/-! ## Copies -/

omit [DecidableEq N] in
theorem Regular.set_kept {typeName key : Text} {f : NodeFields N} {v : Json N}
    (h : Regular typeName [] f) (hkey : key ∉ ownKeys) (hv : Kept v) :
    Regular typeName [] (f.set key v) := by
  have hpending : Regular typeName [key] f :=
    { h with
      id := h.id.imp_left (fun hmem => absurd hmem List.not_mem_nil)
      nome := h.nome.imp_left (fun hmem => absurd hmem List.not_mem_nil)
      kept_outros := fun e he => (h.kept_outros e he).imp_left
        (fun hmem => absurd hmem List.not_mem_nil) }
  exact hpending.set hkey hv

omit [DecidableEq N] in
theorem Regular.kept_get? {typeName key : Text} {f : NodeFields N} {v : Json N}
    (h : Regular typeName [] f) (hkey : key ∉ recordKeys) (hindex : asIndex key = none)
    (hget : f.get? key = some v) : Kept v := by
  simp only [recordKeys, List.mem_cons, List.not_mem_nil, or_false, not_or] at hkey
  obtain ⟨h1, h2, h3, h4, h5⟩ := hkey
  rw [NodeFields.get?, if_neg h1, if_neg h2, if_neg h3, if_neg h4, if_neg h5, hindex] at hget
  have hmem : (key, v) ∈ (⟨[], f.outros⟩ : JsObject (Json N)).entries :=
    mem_entries_of_get? hindex (by rw [JsObject.get?, hindex]; exact hget)
  exact (h.kept_outros (key, v) hmem).resolve_left List.not_mem_nil

/-- What is changed in a copy besides its id and its name. -/
theorem moveField_good (key : Text) {node : Node N}
    (hkey : key ∉ recordKeys ∧ asIndex key = none ∧ key ∉ ownKeys)
    (h : GoodRecord node.campos) :
    GoodRecord (Scene.moveField key node).campos ∧
      (Scene.moveField key node).id = node.id ∧ (Scene.moveField key node).filhos =
          node.filhos := by
  obtain ⟨hrecord, hindex, hown⟩ := hkey
  have hid : key ≠ "id".toList := fun heq => hrecord (heq ▸ by decide)
  have hnome : key ≠ "nome".toList := fun heq => hrecord (heq ▸ by decide)
  obtain ⟨⟨typeName, hregular⟩, htruthy⟩ := h
  unfold Scene.moveField
  cases hget : node.campos.get? key with
  | none => exact ⟨⟨⟨typeName, hregular⟩, htruthy⟩, rfl, rfl⟩
  | some v =>
      cases v with
      | number n =>
          have hfinite : NumberText.finite n := by
            cases (hregular.kept_get? hrecord hindex hget).1 with
            | number hn => exact hn
          have hkept : Kept (.number (n + ((18 : ℕ) : N)) : Json N) :=
            ⟨.number (Coordinates.finite_add n hfinite), rfl⟩
          refine ⟨⟨⟨typeName, hregular.set_kept hown hkept⟩, ?_⟩, set_id hid, rfl⟩
          rw [← htruthy]
          exact congrArg Json.truthy (set_nome hnome)
      | _ => exact ⟨⟨⟨typeName, hregular⟩, htruthy⟩, rfl, rfl⟩

theorem renameCopy_good (inteiro sorte : N) {node : Node N} (h : GoodRecord node.campos) :
    let copy := Scene.renameCopy inteiro sorte node node
    GoodRecord copy.campos ∧ copy.id = .text (Scene.newId inteiro sorte) ∧
      copy.filhos = node.filhos := by
  obtain ⟨⟨typeName, hregular⟩, -⟩ := h
  let named := (node.set "id".toList (.text (Scene.newId inteiro sorte))).set "nome".toList
    (.text (node.nome.toText ++ "_copy".toList))
  have hnamed : GoodRecord named.campos := by
    refine ⟨⟨typeName, ?_⟩, ?_⟩
    · exact (hregular.set_kept (by decide) (kept_text _)).set_kept (by decide) (kept_text _)
    · exact truthy_of_eq_text (v := named.campos.nome) rfl (by simp)
  obtain ⟨hx, hidx, hfilhosx⟩ := moveField_good "x".toList (by decide) hnamed
  obtain ⟨hy, hidy, hfilhosy⟩ := moveField_good "y".toList (by decide) hx
  exact ⟨hy, hidy.trans hidx, hfilhosy.trans hfilhosx⟩

/-- A node that is not the root is duplicated below its parent. -/
theorem duplicateSelected_eq {s : Scene N} (h : Sound s) {node : Node N}
    (hsel : s.selectedNode = some node)
    (hroot : hasId s.selected_node_id s.scene_root.campos = false) (relogio : List ℕ → N)
    (inteiro sorte : N) :
    ∃ root : Node N,
      s.duplicateSelected relogio inteiro sorte =
        some { s with
          scene_root := root
          selected_node_id := .text (Scene.newId inteiro sorte) } ∧
      List.Perm root.values
        ((Scene.renameCopy inteiro sorte node node).values ++ s.scene_root.values) := by
  obtain ⟨hmem, -⟩ := selected_eq h.unique hsel
  have hgood : ∀ f ∈ node.values, GoodRecord f := fun f hf =>
    packable_iff.mp h.packable f ((RoseTree.values_sublist hmem).subset hf)
  have hload := hydrateNode_exportNode node relogio (packable_iff.mpr hgood)
  have hself : GoodRecord node.campos :=
    hgood _ (List.mem_map_of_mem (RoseTree.self_mem_subtrees node))
  obtain ⟨-, hid, -⟩ := renameCopy_good inteiro sorte hself
  obtain ⟨-, hbelow⟩ := selected_once h.unique hsel hroot
  cases hmodify : s.scene_root.modifyParent? (hasId node.id)
      (RoseTree.push (Scene.renameCopy inteiro sorte node node)) with
  | none =>
      have hzero := List.countP_eq_zero.mpr fun f hf => by
        simpa using RoseTree.modifyParent?_eq_none.mp hmodify f hf
      rw [hbelow] at hzero
      cases hzero
  | some root =>
      refine ⟨root, ?_, RoseTree.values_modifyParent? (RoseTree.adds_push _) hmodify⟩
      rw [Scene.duplicateSelected, hsel]
      simp only [hroot, Bool.false_eq_true, if_false, hload, Option.map_some, hmodify, hid]

/-! ## One operation -/

theorem packable_of_perm {root root' : Node N} {extra : List (NodeFields N)}
    (h : Packable root) (hextra : ∀ f ∈ extra, GoodRecord f)
    (hperm : List.Perm root'.values (extra ++ root.values)) : Packable root' := by
  rw [packable_iff] at h ⊢
  intro f hf
  rcases List.mem_append.mp (hperm.subset hf) with hmem | hmem
  · exact hextra f hmem
  · exact h f hmem

theorem Sound.add {s : Scene N} (h : Sound s) (kind : Text) (agora : N) :
    (UniqueIds (s.addNode kind agora).scene_root ↔ Fresh s (.add kind agora)) ∧
      (Fresh s (.add kind agora) → Sound (s.addNode kind agora)) := by
  have hnew := isNew_createNodeFromTemplate agora kind
  have hperm := values_addNode kind agora s
  have hvalues : (createNodeFromTemplate agora kind).values =
      [(createNodeFromTemplate agora kind).campos] := by
    rw [RoseTree.values_eq, show RoseTree.children _ = [] from hnew.filhos, RoseTree.valuesAll_nil]
  have hcons := hvalues ▸ hperm
  have hiff := uniqueIds_of_perm_cons h.unique hnew.id hcons
  refine ⟨hiff, fun hfresh => ⟨?_, hiff.mpr hfresh, h.arquivo⟩⟩
  exact packable_of_perm h.packable (packable_iff.mp hnew.built.packable) hperm

theorem Sound.duplicate {s : Scene N} (h : Sound s) (relogio : List ℕ → N) (inteiro sorte : N) :
    ∃ s', s.duplicateSelected relogio inteiro sorte = some s' ∧
      (UniqueIds s'.scene_root ↔ Fresh s (.duplicate relogio inteiro sorte)) ∧
      (Fresh s (.duplicate relogio inteiro sorte) → Sound s') := by
  cases hsel : s.selectedNode with
  | none =>
      refine ⟨s, by rw [Scene.duplicateSelected, hsel], ⟨fun _ => ?_, fun _ => h.unique⟩,
        fun _ => h⟩
      intro node hnode
      rw [hsel] at hnode
      cases hnode
  | some node =>
      cases hroot : hasId s.selected_node_id s.scene_root.campos with
      | true =>
          refine ⟨s, ?_, ⟨fun _ => ?_, fun _ => h.unique⟩, fun _ => h⟩
          · rw [Scene.duplicateSelected, hsel]
            simp only [hroot, if_true]
          · intro _ _ hfalse
            rw [hroot] at hfalse
            cases hfalse
      | false =>
          obtain ⟨root, hcall, hperm⟩ := duplicateSelected_eq h hsel hroot relogio inteiro sorte
          obtain ⟨hmem, -⟩ := selected_eq h.unique hsel
          have hgood : ∀ f ∈ node.values, GoodRecord f := fun f hf =>
            packable_iff.mp h.packable f ((RoseTree.values_sublist hmem).subset hf)
          obtain ⟨hcopy, hid, hfilhos⟩ := renameCopy_good inteiro sorte
            (hgood _ (List.mem_map_of_mem (RoseTree.self_mem_subtrees node)))
          have hvalues : (Scene.renameCopy inteiro sorte node node).values =
              (Scene.renameCopy inteiro sorte node node).campos :: RoseTree.valuesAll
                  node.filhos := by
            rw [RoseTree.values_eq, show RoseTree.children _ = node.filhos from hfilhos]
          rw [hvalues] at hperm
          have hfresh : Fresh s (.duplicate relogio inteiro sorte) ↔
              node.filhos = [] ∧ some (Scene.newId inteiro sorte) ∉ idTexts s.scene_root := by
            constructor
            · intro hall
              exact hall node hsel hroot
            · rintro hnew node' hnode' -
              rw [hsel] at hnode'
              obtain rfl := Option.some.inj hnode'
              exact hnew
          refine ⟨_, hcall, ?_⟩
          rw [hfresh]
          cases hchildren : node.filhos with
          | nil =>
              rw [hchildren, RoseTree.valuesAll_nil] at hperm
              have hiff := uniqueIds_of_perm_cons h.unique hid hperm
              refine ⟨by rw [hiff]; simp, fun hnew => ⟨?_, hiff.mpr hnew.2, h.arquivo⟩⟩
              exact packable_of_perm h.packable
                (List.forall_mem_cons.mpr ⟨hcopy, fun f hf => absurd hf List.not_mem_nil⟩) hperm
          -- the copy keeps the children of the node, so their ids stand twice
          | cons child filhos =>
              have hnot : ¬ UniqueIds root := by
                intro hunique
                have hchild : child.value ∈ RoseTree.valuesAll node.filhos :=
                  RoseTree.value_mem_valuesAll (hchildren ▸ List.mem_cons_self)
                have hold : child.value ∈ s.scene_root.values := by
                  refine (RoseTree.values_sublist hmem).subset ?_
                  rw [RoseTree.values_eq]
                  exact List.mem_cons_of_mem _ hchild
                have hnodup := ((uniqueIds_of_perm hperm).mp hunique).1
                rw [List.map_cons, List.cons_append] at hnodup
                exact (List.nodup_append.mp (List.nodup_cons.mp hnodup).2).2.2 _
                  (List.mem_map_of_mem hchild) _ (List.mem_map_of_mem hold) rfl
              refine ⟨⟨fun hunique => absurd hunique hnot, fun hnew => ?_⟩, fun hnew => ?_⟩
              · cases hnew.1
              · cases hnew.1

theorem Sound.delete {s : Scene N} (h : Sound s) : Sound s.deleteSelected := by
  have hsub := values_deleteSelected h.unique
  refine ⟨?_, h.unique.of_sublist hsub, ?_⟩
  · exact packable_iff.mpr fun f hf => packable_iff.mp h.packable f (hsub.subset hf)
  · have harquivo : s.deleteSelected.arquivo = s.arquivo := by
      unfold Scene.deleteSelected
      cases s.selectedNode with
      | none => rfl
      | some node =>
          simp only
          split_ifs
          · rfl
          · cases findParent s.scene_root node.id with
            | none => rfl
            | some parent =>
                cases s.scene_root.modifyParent? (hasId node.id)
                  (RoseTree.prune (hasId node.id)) <;> rfl
    rw [harquivo]
    exact h.arquivo

theorem Sound.startScene {s : Scene N} (h : Sound s) {relogio : ℕ → N}
    (hclock : NumberText.print (relogio 2) ≠ NumberText.print (relogio 3)) :
    Sound (s.startScene relogio) :=
  ⟨(createDefaultScene_built relogio).packable, (uniqueIds_createDefaultScene relogio).mpr hclock,
    h.arquivo⟩

theorem Sound.load {s : Scene N} (h : Sound s) (relogio : List ℕ → N) :
    ∃ s', s.loadScene relogio = some s' ∧ Sound s' := by
  cases harquivo : s.arquivo with
  | none => exact ⟨s, by rw [Scene.loadScene, harquivo], h⟩
  | some text =>
      obtain ⟨root, rfl, hpackable, hunique⟩ := h.arquivo text harquivo
      refine ⟨{ s with scene_root := root, selected_node_id := root.id }, ?_,
        ⟨hpackable, hunique, h.arquivo⟩⟩
      rw [Scene.loadScene, harquivo]
      simp only [hpackable.load relogio, Option.map_some]

/-- No operation throws, and it keeps the ids different exactly where what it makes is new. -/
theorem Sound.step {s : Scene N} (h : Sound s) (op : SceneOp N) :
    ∃ s', sceneOp s op = some s' ∧ (UniqueIds s'.scene_root ↔ Fresh s op) ∧
      (Fresh s op → Sound s') := by
  -- Most operations leave the records alone, or some of them out.
  have hkeep : ∀ {s' : Scene N}, sceneOp s op = some s' → Sound s' → (Fresh s op ↔ True) →
      ∃ s', sceneOp s op = some s' ∧ (UniqueIds s'.scene_root ↔ Fresh s op) ∧
        (Fresh s op → Sound s') := by
    intro s' hop hs' hfresh
    exact ⟨s', hop, by rw [hfresh]; exact ⟨fun _ => trivial, fun _ => hs'.unique⟩, fun _ => hs'⟩
  cases op with
  | select id =>
      refine hkeep rfl ?_ Iff.rfl
      unfold Scene.selectNode
      split_ifs
      · exact ⟨h.packable, h.unique, h.arquivo⟩
      · exact h
  | add kind agora => exact ⟨_, rfl, h.add kind agora⟩
  | duplicate relogio inteiro sorte => exact h.duplicate relogio inteiro sorte
  | delete => exact hkeep rfl h.delete Iff.rfl
  | attach script =>
      refine hkeep rfl ?_ Iff.rfl
      unfold Scene.attachSelectedScript
      cases s.selectedNode with
      | none => exact h
      | some node =>
          cases script with
          | none => exact h
          | some id => exact ⟨h.packable, h.unique, h.arquivo⟩
  | new_scene relogio =>
      exact ⟨_, rfl, uniqueIds_createDefaultScene relogio, fun hclock => h.startScene hclock⟩
  | save =>
      refine hkeep rfl ⟨h.packable, h.unique, ?_⟩ Iff.rfl
      intro text htext
      exact ⟨s.scene_root, (Option.some.inj htext).symm, h.packable, h.unique⟩
  | load relogio =>
      obtain ⟨s', hload, hs'⟩ := h.load relogio
      exact hkeep hload hs' Iff.rfl

/-! ## Runs -/

/-- The scenes of a run, the first one included. -/
def sceneStates (s : Scene N) : List (SceneOp N) → List (Scene N)
  | [] => [s]
  | op :: ops =>
      s :: match sceneOp s op with
        | some s' => sceneStates s' ops
        | none => []

/-- Every operation of a run makes new ids only. -/
def FreshRun (s : Scene N) : List (SceneOp N) → Prop
  | [] => True
  | op :: ops => Fresh s op ∧ ∀ s', sceneOp s op = some s' → FreshRun s' ops

/-- What the ids of a scene are good for. -/
structure Addressed (s : Scene N) : Prop where
  unique : UniqueIds s.scene_root
  findNode_eq : ∀ node ∈ flattenNodes s.scene_root, findNode s.scene_root node.id = some node
  findParent_eq : ∀ parent ∈ flattenNodes s.scene_root, ∀ child ∈ parent.filhos,
    findParent s.scene_root child.id = some parent
  delete_eq : ∀ node, s.selectedNode = some node →
    hasId s.selected_node_id s.scene_root.campos = false →
    s.deleteSelected.scene_root = RoseTree.erase (hasId node.id) s.scene_root ∧
      ∃ pre post, s.scene_root.values = pre ++ node.values ++ post ∧
        s.deleteSelected.scene_root.values = pre ++ post

omit [Coordinates N] in
theorem addressed_iff (s : Scene N) : Addressed s ↔ UniqueIds s.scene_root := by
  constructor
  · exact Addressed.unique
  · intro h
    exact
      { unique := h
        findNode_eq := fun _ => h.findNode_eq
        findParent_eq := fun _ hparent _ => h.findParent_eq hparent
        delete_eq := fun _ => h.deleteSelected_eq }

theorem mem_sceneStates_self (s : Scene N) (ops : List (SceneOp N)) : s ∈ sceneStates s ops := by
  cases ops with
  | nil => exact List.mem_singleton_self s
  | cons op ops => exact List.mem_cons_self

theorem Sound.run {s : Scene N} (h : Sound s) (ops : List (SceneOp N)) :
    (∀ s' ∈ sceneStates s ops, Addressed s') ↔ FreshRun s ops := by
  induction ops generalizing s with
  | nil =>
      simp only [sceneStates, List.mem_singleton, forall_eq, addressed_iff, FreshRun, iff_true]
      exact h.unique
  | cons op ops ih =>
      obtain ⟨s', hop, hiff, hsound⟩ := h.step op
      simp only [sceneStates, FreshRun, hop, List.forall_mem_cons, Option.some.injEq, forall_eq']
      constructor
      · rintro ⟨-, hall⟩
        have hfresh := hiff.mp (hall s' (mem_sceneStates_self s' ops)).unique
        exact ⟨hfresh, (ih (hsound hfresh)).mp hall⟩
      · rintro ⟨hfresh, hrest⟩
        exact ⟨(addressed_iff s).mpr h.unique, (ih (hsound hfresh)).mpr hrest⟩

/-- A scene that was saved before the project was made, with different ids. -/
structure SavedScene (N : Type) [NumberText N] [Coordinates N] [DecidableEq N] where
  root : Node N
  packable : Packable root
  unique : UniqueIds root

/-- A new project next to the file of a saved scene, or without one. -/
def sceneBeside (saved : Option (SavedScene N)) (relogio : ℕ → N) : Scene N :=
  newScene (saved.map fun file => packScene file.root) relogio

theorem sceneBeside_sound {saved : Option (SavedScene N)} {relogio : ℕ → N}
    (hclock : NumberText.print (relogio 2) ≠ NumberText.print (relogio 3)) :
    Sound (sceneBeside saved relogio) := by
  refine ⟨(createDefaultScene_built relogio).packable,
    (uniqueIds_createDefaultScene relogio).mpr hclock, ?_⟩
  intro text h
  obtain ⟨file, -, htext⟩ := Option.map_eq_some_iff.mp h
  exact ⟨file.root, htext.symm, file.packable, file.unique⟩

/-- The ids of every scene of a run from `createProject` are different, and address their nodes,
exactly where every operation makes new ids only. -/
theorem sceneStates_addressed (saved : Option (SavedScene N)) (relogio : ℕ → N)
    (ops : List (SceneOp N)) :
    (∀ s ∈ sceneStates (sceneBeside saved relogio) ops, Addressed s) ↔
      NumberText.print (relogio 2) ≠ NumberText.print (relogio 3) ∧
        FreshRun (sceneBeside saved relogio) ops := by
  constructor
  · intro hall
    have hclock := (uniqueIds_createDefaultScene relogio).mp
      (hall _ (mem_sceneStates_self _ ops)).unique
    exact ⟨hclock, ((sceneBeside_sound hclock).run ops).mp hall⟩
  · rintro ⟨hclock, hfresh⟩
    exact ((sceneBeside_sound hclock).run ops).mpr hfresh

end New

instance : Coordinates ℕ where
  finite_add _ _ := rfl

/-- The copy of the panel has a child with the id of the panel's child. -/
theorem duplicate_hud_same_ids :
    ¬ ∀ s ∈ sceneStates (newScene none fun i => i)
        [.select (.text "control_5".toList), .duplicate (fun _ => 7) 8 42], Addressed s := by
  intro h
  have hsome : ∃ s ∈ sceneStates (newScene none fun i => i)
      [.select (.text "control_5".toList), .duplicate (fun _ => 7) 8 42],
        ¬ UniqueIds s.scene_root := by
    have hany : (sceneStates (newScene none fun i => i)
        [.select (.text "control_5".toList), .duplicate (fun _ => 7) 8 42]).any
          (fun s => !decide (UniqueIds s.scene_root)) = true := by
      decide +kernel
    obtain ⟨s, hs, hnot⟩ := List.any_eq_true.mp hany
    exact ⟨s, hs, by simpa using hnot⟩
  obtain ⟨s, hs, hnot⟩ := hsome
  exact hnot (h s hs).unique

end GatoCore.Gatod
