import GatoCore.Gatod.StepTotal

/-!
# The selected node and the cursor of its panel

The operations on the scene set `selected_node_id`, and each step sets it again, to the id of the
row the cursor of the panel is on. No operation but `new_scene` moves that cursor: the node it has
selected stays selected exactly where the cursor is on its row already.
-/

namespace GatoCore.Gatod

open GatoCore.Lib GatoCore.Stdlib

variable {N : Type}

/-- The ids of the rows of the panel. -/
def idsOf (root : Node N) : List (Json N) := root.values.map NodeFields.id

section Steps

variable [DecidableEq N] [JsArithmetic N]

namespace Project

/-- What is left of a project by a step that throws: the text of the panel is not written. There are
four buses, and nothing else throws. -/
def thrown (fl : ℚ → ℚ) (dt : N) (p : Project N) : Project N :=
  match p.syncSelectionsFromCursors with
  | none => p
  | some p =>
      let p := p.syncTimelineMetadata
      { p with scene := { p.scene with scene_root := p.moved fl dt } }

/-- The project after a call of `step`. -/
def afterStep (fl : ℚ → ℚ) (dt : N) (p : Project N) : Project N :=
  (p.step fl dt).getD (p.thrown fl dt)

end Project

/-- The commands that select a node themselves. -/
def selectingCommands : List Text :=
  ["new_scene".toList, "load_scene".toList, "add_sprite".toList, "add_label".toList,
    "add_control".toList, "add_camera".toList, "duplicate_node".toList, "delete_node".toList]

/-- Neither a cursor is moved nor a panel clicked, and no node is selected. -/
def ProjectEvent.Idle {W : Type} : ProjectEvent N W → Prop
  | .cursor _ _ _ => False
  | .row _ _ => False
  | .command _ name => name ∉ selectingCommands
  | _ => True

section Runs

variable {W : Type} (fl : ℚ → ℚ) (host : HostDirs) (fs : FileSystem W) (raiz : Text)

/-- The project after an event, also where a step throws. -/
def eventAfter (p : Project N) : ProjectEvent N W → Option (Project N)
  | .step dt => some (p.afterStep fl dt)
  | e => projectEvent fl host fs raiz p e

def runAfter (p : Project N) : List (ProjectEvent N W) → Option (Project N)
  | [] => some p
  | e :: es => (eventAfter fl host fs raiz p e).bind fun p' => runAfter p' es

/-- However many steps and other events follow, the node stays selected while it is in the scene. -/
def StaysSelected (q : Project N) : Prop :=
  ∀ es : List (ProjectEvent N W), (∀ e ∈ es, e.Idle) → ∀ r, runAfter fl host fs raiz q es = some r →
    q.scene.selected_node_id ∈ idsOf r.scene.scene_root →
      r.scene.selected_node_id = q.scene.selected_node_id

end Runs

/-- The cursor of the panel is on the row of the selected node. -/
def CursorOnSelection (q : Project N) : Prop :=
  (Project.rowAt (flattenNodes q.scene.scene_root) (q.cursor .scene)).map Node.id =
    some q.scene.selected_node_id

/-- The operation selects a node: there is one to select, or one that is not the root. -/
def SceneOp.Selects (s : Scene N) : SceneOp N → Prop
  | .select id => id.truthy ∧ (findNode s.scene_root id).isSome
  | .add _ _ => True
  | .duplicate _ _ _ => ∃ node, s.selectedNode = some node ∧
      (findParent s.scene_root node.id).isSome
  | .delete => ∃ node, s.selectedNode = some node ∧ (findParent s.scene_root node.id).isSome
  | _ => False

/-! ## What a step does to the selection -/

omit [DecidableEq N] [JsArithmetic N] in
theorem unwritten_id : Unwritten (N := N) NodeFields.id :=
  fun _ _ _ _ hid => set_id hid

omit [DecidableEq N] [JsArithmetic N] in
/-- The row the cursor is on, as a place in the ids. -/
theorem rowAt_ids (root : Node N) (cursor : ℕ) :
    (Project.rowAt (flattenNodes root) cursor).map Node.id =
      (idsOf root)[min cursor ((idsOf root).length - 1)]? := by
  have hids : idsOf root = (flattenNodes root).map Node.id := by
    rw [idsOf, RoseTree.values, List.map_map]
    rfl
  rw [hids, List.length_map, List.getElem?_map]
  rfl

omit [DecidableEq N] [JsArithmetic N] in
theorem setCursor_self (p : Project N) (panel : Panel) (n : ℕ) :
    (p.setCursor panel n).cursor panel = n := by
  show Function.update p.cursor panel n panel = n
  exact Function.update_self panel n p.cursor

omit [DecidableEq N] [JsArithmetic N] in
theorem setCursor_of_ne (p : Project N) {panel other : Panel} (h : other ≠ panel) (n : ℕ) :
    (p.setCursor panel n).cursor other = p.cursor other := by
  show Function.update p.cursor panel n other = p.cursor other
  exact Function.update_of_ne h n p.cursor

/-- What the synchronisation takes from the cursor. -/
structure Synced (p p' : Project N) : Prop where
  scene_root : p'.scene.scene_root = p.scene.scene_root
  cursor : p'.cursor .scene = min (p.cursor .scene) ((idsOf p.scene.scene_root).length - 1)
  selected : (idsOf p.scene.scene_root)[p'.cursor .scene]? = some p'.scene.selected_node_id

omit [DecidableEq N] [JsArithmetic N] in
theorem syncScene_synced {p p' : Project N} (h : p.syncScene = some p') : Synced p p' := by
  have hlength : (flattenNodes p.scene.scene_root).length = (idsOf p.scene.scene_root).length := by
    rw [idsOf, RoseTree.values, List.length_map, List.length_map]
    rfl
  have hrows : flattenNodes p.scene.scene_root ≠ [] :=
    List.ne_nil_of_mem (RoseTree.self_mem_subtrees _)
  rw [Project.syncScene] at h
  simp only at h
  rw [if_neg hrows] at h
  obtain ⟨row, hrow, rfl⟩ := Option.map_eq_some_iff.mp h
  have hid := rowAt_ids p.scene.scene_root (p.cursor .scene)
  rw [hrow, ← hlength] at hid
  constructor
  · rfl
  · rw [← hlength]
    exact setCursor_self p .scene _
  · show (idsOf p.scene.scene_root)[(p.setCursor .scene _).cursor .scene]? = some row.id
    rw [setCursor_self]
    exact hid.symm

omit [DecidableEq N] [JsArithmetic N] in
theorem syncSelectionsFromCursors_synced {p p' : Project N}
    (h : p.syncSelectionsFromCursors = some p') : Synced p p' := by
  obtain ⟨p₁, hscene, h⟩ := Option.bind_eq_some_iff.mp h
  obtain ⟨p₂, hassets, rfl⟩ := Option.map_eq_some_iff.mp h
  have hsynced := syncScene_synced hscene
  -- the cursor of the assets is another one
  have hkeep : p₂.scene = p₁.scene ∧ p₂.cursor .scene = p₁.cursor .scene := by
    rw [Project.syncAssets] at hassets
    split_ifs at hassets
    · obtain rfl := Option.some.inj hassets
      exact ⟨rfl, rfl⟩
    · obtain ⟨row, -, rfl⟩ := Option.map_eq_some_iff.mp hassets
      have hne : Panel.scene ≠ Panel.assets := by decide
      exact ⟨rfl, setCursor_of_ne p₁ hne (min (p₁.cursor .assets) (p₁.assets.length - 1))⟩
  obtain ⟨hscene₂, hcursor₂⟩ := hkeep
  constructor
  · show p₂.scene.scene_root = _
    rw [hscene₂]
    exact hsynced.scene_root
  · show p₂.cursor .scene = _
    rw [hcursor₂]
    exact hsynced.cursor
  · show (idsOf p.scene.scene_root)[p₂.cursor .scene]? = some p₂.scene.selected_node_id
    rw [hscene₂, hcursor₂]
    exact hsynced.selected

/-- What a step leaves of the ids, the cursor and the selection. -/
structure Stepped (p p' : Project N) : Prop where
  ids : idsOf p'.scene.scene_root = idsOf p.scene.scene_root
  cursor : p'.cursor .scene = min (p.cursor .scene) ((idsOf p.scene.scene_root).length - 1)
  selected : (idsOf p.scene.scene_root)[p'.cursor .scene]? = some p'.scene.selected_node_id

theorem updateHud_ids {p : Project N} {root root' : Node N} (h : p.updateHud root = some root') :
    idsOf root' = idsOf root := by
  rw [Project.updateHud] at h
  split at h
  · obtain rfl := Option.some.inj h
    rfl
  · obtain ⟨t, -, rfl⟩ := Option.map_eq_some_iff.mp h
    exact unwritten_id.writeFirst _ _ _ (by decide) (by decide)

/-- The last part of a step writes the nodes and nothing else of the scene. -/
theorem finish_scene {fl : ℚ → ℚ} {p p' : Project N} {root : Node N}
    (h : p.finish fl root = some p') :
    p'.scene = { p.scene with scene_root := root } ∧ p'.cursor = p.cursor := by
  have hadvance : ∀ p : Project N, (p.advanceTimeline fl).scene = p.scene ∧
      (p.advanceTimeline fl).cursor = p.cursor := by
    intro p
    rw [Project.advanceTimeline]
    split <;> exact ⟨rfl, rfl⟩
  have hmix : ∀ {p p' : Project N} {b : Bool}, p.mixAudio b = some p' →
      p'.scene = p.scene ∧ p'.cursor = p.cursor := by
    intro p p' b hp
    rw [Project.mixAudio] at hp
    split at hp
    · obtain rfl := Option.some.inj hp
      exact ⟨rfl, rfl⟩
    · cases hp
  obtain ⟨p₁, hp₁, rfl⟩ := Option.map_eq_some_iff.mp h
  obtain ⟨hscene, hcursor⟩ := hmix hp₁
  exact ⟨hscene.trans (hadvance _).1, hcursor.trans (hadvance _).2⟩

/-- A step call follows the cursor, whether it throws or not. -/
theorem afterStep_stepped (fl : ℚ → ℚ) (dt : N) (p : Project N) :
    Stepped p (p.afterStep fl dt) := by
  obtain ⟨p₁, hsync, -⟩ := p.syncSelectionsFromCursors_core
  obtain ⟨hroot, hcursor, hselected⟩ := syncSelectionsFromCursors_synced hsync
  have hmoved : idsOf (p₁.syncTimelineMetadata.moved fl dt) = idsOf p.scene.scene_root := by
    rw [← hroot]
    exact Project.map_view_moved unwritten_id fl dt p₁.syncTimelineMetadata
  rw [Project.afterStep]
  rcases hstep : p.step fl dt with _ | p'
  · rw [Option.getD_none, Project.thrown, hsync]
    exact ⟨hmoved, hcursor, hselected⟩
  · rw [Option.getD_some]
    rw [Project.step_eq, hsync, Option.bind_some] at hstep
    obtain ⟨root, hhud, hfinish⟩ := Option.bind_eq_some_iff.mp hstep
    obtain ⟨hscene, hcursor'⟩ := finish_scene hfinish
    refine ⟨?_, ?_, ?_⟩
    · rw [hscene]
      exact (updateHud_ids hhud).trans hmoved
    · rw [hcursor']
      exact hcursor
    · rw [hscene, hcursor']
      exact hselected

/-! ## Idle runs -/

/-- The ids are these, and the cursor is on the row of the selected one. -/
structure Follows (ids : List (Json N)) (selected : Json N) (r : Project N) : Prop where
  ids_eq : idsOf r.scene.scene_root = ids
  row : ids[min (r.cursor .scene) (ids.length - 1)]? = some selected
  selected_eq : r.scene.selected_node_id = selected

variable {ids : List (Json N)} {selected : Json N}

theorem Follows.step {r : Project N} (h : Follows ids selected r) (fl : ℚ → ℚ) (dt : N) :
    Follows ids selected (r.afterStep fl dt) := by
  obtain ⟨hids, hcursor, hselected⟩ := afterStep_stepped fl dt r
  rw [h.ids_eq] at hids hcursor hselected
  have hat : ids[(r.afterStep fl dt).cursor .scene]? = some selected := by
    rw [hcursor]
    exact h.row
  refine ⟨hids, ?_, Option.some.inj (hselected.symm.trans hat)⟩
  -- the cursor is within the rows already
  rw [min_eq_left (hcursor ▸ min_le_right _ _)]
  exact hat

/-- What an idle event but a step does not touch. -/
def sceneView (p : Project N) : Node N × Json N × ℕ :=
  (p.scene.scene_root, p.scene.selected_node_id, p.cursor .scene)

omit [DecidableEq N] [JsArithmetic N] in
theorem Follows.of_view {r r' : Project N} (h : Follows ids selected r)
    (hview : sceneView r' = sceneView r) : Follows ids selected r' := by
  obtain ⟨hroot, hselected, hcursor⟩ : r'.scene.scene_root = r.scene.scene_root ∧
      r'.scene.selected_node_id = r.scene.selected_node_id ∧ r'.cursor .scene = r.cursor .scene :=
    ⟨congrArg Prod.fst hview, congrArg (fun v => v.2.1) hview, congrArg (fun v => v.2.2) hview⟩
  constructor
  · rw [hroot]
    exact h.ids_eq
  · rw [hcursor]
    exact h.row
  · rw [hselected]
    exact h.selected_eq

section Events

variable {W : Type} {fl : ℚ → ℚ} {host : HostDirs} {fs : FileSystem W} {raiz : Text}

omit [DecidableEq N] [JsArithmetic N] in
theorem sceneView_importAssets (importados : List Text) (p : Project N) :
    sceneView (p.importAssets importados) = sceneView p := by
  unfold Project.importAssets
  induction importados generalizing p with
  | nil => rfl
  | cons nome importados ih =>
      rw [List.foldl_cons, ih]
      split_ifs <;> rfl

theorem sceneView_attachSelectedScript (p : Project N) :
    sceneView p.attachSelectedScript = sceneView p := by
  unfold Project.attachSelectedScript Scene.attachSelectedScript sceneView
  split <;> rfl

theorem keeps_idle_handleCommand (input : Project.CommandInput N W) {name : Text}
    (hname : name ∉ selectingCommands) (p : Project N) :
    Keeps sceneView p (p.handleCommand fl host fs raiz input name) := by
  have hnot : ∀ command ∈ selectingCommands, name ≠ command :=
    fun command hmem heq => hname (heq ▸ hmem)
  unfold Project.handleCommand
  refine keeps_ite (fun h => absurd h (hnot _ (by decide))) ?_
  refine keeps_ite (fun _ => keeps_some rfl) ?_
  refine keeps_ite (fun h => absurd h (hnot _ (by decide))) ?_
  iterate 3 refine keeps_ite (fun _ => keeps_some rfl) ?_
  iterate 6 refine keeps_ite (fun h => absurd h (hnot _ (by decide))) ?_
  refine keeps_ite (fun _ => keeps_some rfl) ?_
  refine keeps_ite (fun _ => keeps_some (sceneView_importAssets _ p)) ?_
  refine keeps_ite (fun _ => keeps_some (sceneView_attachSelectedScript p)) ?_
  iterate 5 refine keeps_ite (fun _ => keeps_some rfl) ?_
  exact keeps_some rfl

theorem Follows.event {r r' : Project N} (h : Follows ids selected r) {e : ProjectEvent N W}
    (hidle : e.Idle) (he : eventAfter fl host fs raiz r e = some r') :
    Follows ids selected r' := by
  cases e with
  | command input name => exact h.of_view (keeps_idle_handleCommand input hidle r r' he)
  | cursor panel delta size => exact hidle.elim
  | row panel row => exact hidle.elim
  | focus panel =>
      obtain rfl := Option.some.inj he
      exact h.of_view rfl
  | palette aberta =>
      obtain rfl := Option.some.inj he
      exact h.of_view rfl
  | input state =>
      obtain rfl := Option.some.inj he
      exact h.of_view rfl
  | script e mundo =>
      obtain rfl := Option.some.inj he
      exact h.of_view rfl
  | timeline e =>
      obtain ⟨next, -, rfl⟩ := Option.map_eq_some_iff.mp he
      exact h.of_view rfl
  | step dt =>
      obtain rfl := Option.some.inj he
      exact h.step fl dt

theorem Follows.run (es : List (ProjectEvent N W)) : ∀ {r r' : Project N},
    Follows ids selected r → (∀ e ∈ es, e.Idle) → runAfter fl host fs raiz r es = some r' →
      Follows ids selected r' := by
  induction es with
  | nil =>
      intro r r' h _ hrun
      obtain rfl := Option.some.inj hrun
      exact h
  | cons e es ih =>
      intro r r' h hidle hrun
      obtain ⟨hidle, hrest⟩ := List.forall_mem_cons.mp hidle
      obtain ⟨r₁, he, hrun⟩ := Option.bind_eq_some_iff.mp hrun
      exact ih (h.event hidle he) hrest hrun

/-- A node of the scene that is selected stays selected exactly where the cursor is on its row. -/
theorem staysSelected_iff {q : Project N}
    (hmem : q.scene.selected_node_id ∈ idsOf q.scene.scene_root) :
    StaysSelected fl host fs raiz q ↔ CursorOnSelection q := by
  rw [CursorOnSelection, rowAt_ids]
  constructor
  · intro h
    -- one step is enough
    obtain ⟨hids, hcursor, hselected⟩ := afterStep_stepped fl (rat 0) q
    have hstay := h [.step (rat 0)] (by simp [ProjectEvent.Idle]) _ rfl (hids ▸ hmem)
    rw [← hcursor, hselected, hstay]
  · intro hrow es hidle r hrun _
    have hfollows : Follows (idsOf q.scene.scene_root) q.scene.selected_node_id q :=
      ⟨rfl, hrow, rfl⟩
    exact (hfollows.run es hidle hrun).selected_eq

end Events

/-! ## The node an operation selects is in the scene -/

section Operations

omit [JsArithmetic N] in
theorem eq_of_strictEq : ∀ {v w : Json N}, v.strictEq w = true → v = w
  | .null, .null, _ => rfl
  | .bool _, .bool _, h => congrArg Json.bool (of_decide_eq_true h)
  | .number _, .number _, h => congrArg Json.number (of_decide_eq_true h)
  | .text _, .text _, h => congrArg Json.text (of_decide_eq_true h)

omit [JsArithmetic N] in
theorem eq_some_of_strictEq {o : Option (Json N)} {v : Json N}
    (h : o.any (fun w => w.strictEq v) = true) : o = some v := by
  obtain ⟨w, rfl, hw⟩ := (Option.any_eq_true _ _).mp h
  rw [eq_of_strictEq hw]

omit [JsArithmetic N] in
theorem findNode_id {root node : Node N} {id : Json N} (h : findNode root id = some node) :
    node.id = id ∧ id ∈ idsOf root := by
  rw [findNode, RoseTree.find?_eq] at h
  have hfound := List.find?_some h
  have hid : node.id = id := eq_of_strictEq hfound
  have hmem : node.value ∈ root.values := List.mem_map_of_mem (List.mem_of_find?_eq_some h)
  exact ⟨hid, hid ▸ List.mem_map_of_mem hmem⟩

omit [JsArithmetic N] in
/-- A node with a parent is not the root, and a change of its parent is made. -/
theorem below_of_findParent {s : Scene N} {node parent : Node N}
    (hsel : s.selectedNode = some node) (hparent : findParent s.scene_root node.id = some parent)
    (g : Node N → Node N) :
    hasId s.selected_node_id s.scene_root.campos = false ∧
      ∃ root, s.scene_root.modifyParent? (hasId node.id) g = some root := by
  have hid := (findNode_id hsel).1
  rw [← hid]
  rcases hroot : s.scene_root with ⟨f, filhos⟩
  rw [hroot, findParent, RoseTree.parentOf?] at hparent
  split_ifs at hparent with hself
  · refine ⟨Bool.eq_false_iff.mpr hself, ?_⟩
    apply Option.ne_none_iff_exists'.mp
    intro hnone
    have hfilhos : ∀ f ∈ RoseTree.valuesAll filhos, hasId node.id f = false :=
      RoseTree.modifyParent?_eq_none.mp hnone
    rw [RoseTree.parentIn?_eq_none hfilhos] at hparent
    cases hparent

theorem mem_ids_of_selects {s s' : Scene N} {op : SceneOp N} (hop : op.Selects s)
    (h : sceneOp s op = some s') : s'.selected_node_id ∈ idsOf s'.scene_root := by
  cases op with
  | select id =>
      obtain rfl := Option.some.inj h
      obtain ⟨htruthy, hfound⟩ := hop
      obtain ⟨node, hnode⟩ := Option.isSome_iff_exists.mp hfound
      rw [Scene.selectNode, if_pos ⟨htruthy, hfound⟩]
      exact (findNode_id hnode).2
  | add kind agora =>
      obtain rfl := Option.some.inj h
      -- the new node is pushed into the selected parent, so its id is among the ids after
      apply List.mem_map_of_mem (f := NodeFields.id)
      rw [(values_addNode kind agora s).mem_iff]
      apply List.mem_append_left
      rw [RoseTree.values_eq]
      exact List.mem_cons_self
  | duplicate relogio inteiro sorte =>
      obtain ⟨node, hsel, hparent⟩ := hop
      obtain ⟨parent, hparent⟩ := Option.isSome_iff_exists.mp hparent
      rw [sceneOp, Scene.duplicateSelected, hsel] at h
      simp only at h
      rw [(below_of_findParent hsel hparent id).1] at h
      obtain ⟨copy, -, rfl⟩ := Option.map_eq_some_iff.mp h
      obtain ⟨-, root, hroot⟩ := below_of_findParent hsel hparent
        (RoseTree.push (Scene.renameCopy inteiro sorte node copy))
      simp only [hroot]
      apply List.mem_map_of_mem (f := NodeFields.id)
      rw [(RoseTree.values_modifyParent? (RoseTree.adds_push _) hroot).mem_iff]
      apply List.mem_append_left
      rw [RoseTree.values_eq]
      exact List.mem_cons_self
  | delete =>
      obtain rfl := Option.some.inj h
      obtain ⟨node, hsel, hparent⟩ := hop
      obtain ⟨parent, hparent⟩ := Option.isSome_iff_exists.mp hparent
      obtain ⟨hbelow, root, hroot⟩ := below_of_findParent hsel hparent
        (RoseTree.prune (hasId node.id))
      rw [Scene.deleteSelected, hsel]
      simp only [hbelow, hparent, hroot]
      have hself : hasId node.id s.scene_root.value = false := by
        rw [(findNode_id hsel).1]
        exact hbelow
      obtain ⟨parent', hparent', hmem⟩ := RoseTree.exists_parent_mem
        (fun t => by cases t; rfl) hself hroot
      obtain rfl := Option.some.inj (hparent.symm.trans hparent')
      exact List.mem_map_of_mem hmem
  | _ => exact hop.elim

/-- The node that an operation has selected stays selected, through steps and other idle events,
exactly where the operation leaves the cursor of the panel on the row of that node. -/
theorem selected_stays_iff {W : Type} (fl : ℚ → ℚ) (host : HostDirs) (fs : FileSystem W)
    (raiz : Text) (p : Project N) {op : SceneOp N} (hop : op.Selects p.scene) {scene : Scene N}
    (h : sceneOp p.scene op = some scene) :
    StaysSelected fl host fs raiz { p with scene := scene } ↔
      CursorOnSelection { p with scene := scene } :=
  staysSelected_iff (mem_ids_of_selects hop h)

end Operations

end Steps

/-! ## A new project, whose cursor is on the tile map -/

def tilesSelected : Project ℕ :=
  let p := createProject none fun i => i
  { p with scene := p.scene.selectNode (.text "tilemap_1".toList) }

def spriteAdded : Project ℕ :=
  let p := createProject none fun i => i
  { p with scene := p.scene.addNode "sprite".toList 7 }

theorem tiles_stay_selected : StaysSelected id editorHost listDisk "/r".toList tilesSelected := by
  have hselects : SceneOp.Selects (createProject none fun i => i : Project ℕ).scene
      (.select (.text "tilemap_1".toList)) := ⟨by decide +kernel, by decide +kernel⟩
  refine (selected_stays_iff id editorHost listDisk "/r".toList _ hselects rfl).mpr ?_
  have hid : tilesSelected.scene.selected_node_id = .text "tilemap_1".toList :=
    eq_of_strictEq (by decide +kernel)
  refine Eq.trans ?_ (congrArg some hid.symm)
  exact eq_some_of_strictEq (by decide +kernel)

/-- The new sprite is selected until the next step. -/
theorem added_sprite_deselected :
    sceneOp (createProject none fun i => i : Project ℕ).scene (.add "sprite".toList 7) =
        some spriteAdded.scene ∧
      spriteAdded.scene.selected_node_id = .text "sprite2d_7".toList ∧
      (spriteAdded.afterStep id 0).scene.selected_node_id = .text "tilemap_1".toList ∧
      ¬ StaysSelected id editorHost listDisk "/r".toList spriteAdded := by
  have hselected : spriteAdded.scene.selected_node_id = .text "sprite2d_7".toList :=
    eq_of_strictEq (by decide +kernel)
  have hafter : (spriteAdded.afterStep id 0).scene.selected_node_id =
      .text "tilemap_1".toList := eq_of_strictEq (by decide +kernel)
  refine ⟨rfl, hselected, hafter, fun h => ?_⟩
  have hmem : spriteAdded.scene.selected_node_id ∈
      idsOf (spriteAdded.afterStep id 0).scene.scene_root := by
    rw [hselected]
    exact List.mem_iff_getElem?.mpr ⟨3, eq_some_of_strictEq (by decide +kernel)⟩
  have hstay := h [.step 0] (by simp [ProjectEvent.Idle]) _ rfl hmem
  rw [hafter, hselected] at hstay
  have htexts : "tilemap_1".toList = "sprite2d_7".toList := Json.text.inj hstay
  revert htexts
  decide

end GatoCore.Gatod
