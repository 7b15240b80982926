import GatoCore.Gatod.NodeIds
import GatoCore.Gatod.Project
import GatoCore.Gatod.ScriptDirty

/-!
# Where a step of the editor throws

A step reads the first node that is named `Player` wherever it uses it. All places but the text of
the panel ask first whether there is one.
-/

namespace GatoCore.Gatod

open GatoCore.Lib GatoCore.Stdlib

variable {N : Type}

/-! ## What the lookups see -/

/-- What tells the node that a step looks up. -/
def looks (campos : NodeFields N) : Json N × Json N := (campos.nome, campos.tipo_no)

def looksOf (root : Node N) : List (Json N × Json N) := root.values.map looks

theorem looks_set {f : NodeFields N} {key : Text} {v : Json N} (hnome : key ≠ "nome".toList)
    (htipo : key ≠ "tipo_no".toList) : looks (f.set key v) = looks f := by
  unfold looks NodeFields.set
  split_ifs
  · rfl
  · rfl
  · rfl
  · cases asIndex key <;> rfl

/-- A key that is neither the name nor the kind. -/
def KeepsLooks (key : String) : Prop := key.toList ≠ "nome".toList ∧ key.toList ≠ "tipo_no".toList

instance (key : String) : Decidable (KeepsLooks key) := inferInstanceAs (Decidable (_ ∧ _))

/-- What a step never writes: it is seen neither in the fields it does write nor in the id. -/
def Unwritten {β : Type} (view : NodeFields N → β) : Prop :=
  ∀ (key : String) (v : Json N) (f : NodeFields N), KeepsLooks key → key.toList ≠ "id".toList →
    view (f.set key.toList v) = view f

theorem unwritten_looks : Unwritten (looks (N := N)) := fun _ _ _ hkey _ => looks_set hkey.1 hkey.2

section Views

variable {β : Type} {view : NodeFields N → β}

theorem Unwritten.set (hview : Unwritten view) {node : Node N} {key : String} {v : Json N}
    (hkey : KeepsLooks key) (hid : key.toList ≠ "id".toList) :
    (node.set key.toList v).values.map view = node.values.map view := by
  rw [RoseTree.values_eq, RoseTree.values_eq node, List.map_cons, List.map_cons]
  congr 1
  exact hview key v node.value hkey hid

theorem Unwritten.writeFirst (hview : Unwritten view) (p : NodeFields N → Bool) {key : String}
    (v : Option (Json N)) (root : Node N) (hkey : KeepsLooks key)
    (hid : key.toList ≠ "id".toList) :
    (writeFirst p key v root).values.map view = root.values.map view := by
  cases v with
  | none => rfl
  | some v =>
      change ((root.modify? p fun node : Node N => node.set key.toList v).getD root).values.map
        view = _
      cases h : root.modify? p fun node : Node N => node.set key.toList v with
      | none => rfl
      | some root' => exact RoseTree.map_values_modify? (fun node => hview.set hkey hid) h

end Views

/-- Whether a node is found is seen from the names and the kinds. -/
theorem findFirst_isSome_of_looks {p : NodeFields N → Bool} {q : Json N × Json N → Bool}
    (hp : ∀ f, p f = q (looks f)) {root root' : Node N} (h : looksOf root' = looksOf root) :
    (findFirst p root').isSome = (findFirst p root).isSome := by
  have hany : ∀ r : Node N, (findFirst p r).isSome = (looksOf r).any q := by
    intro r
    unfold findFirst looksOf
    rw [RoseTree.find?_isSome, List.any_map]
    exact congrArg (fun f => List.any r.values f) (funext hp)
  rw [hany, hany, h]

variable [DecidableEq N]

theorem isSome_isPlayer {root root' : Node N} (h : looksOf root' = looksOf root) :
    (findFirst isPlayer root').isSome = (findFirst isPlayer root).isSome :=
  findFirst_isSome_of_looks (q := fun l => l.1.strictEq (.text "Player".toList)) (fun _ => rfl) h

theorem isSome_isHudLabel {root root' : Node N} (h : looksOf root' = looksOf root) :
    (findFirst isHudLabel root').isSome = (findFirst isHudLabel root).isSome :=
  findFirst_isSome_of_looks
    (q := fun l => l.2.strictEq (.text "Label".toList) && l.1.strictEq (.text "Status".toList))
    (fun _ => rfl) h

/-! ## The parts of a step keep what is not written -/

variable [JsArithmetic N]

section Parts

variable {β : Type} {view : NodeFields N → β}

theorem Unwritten.movePlayer (hview : Unwritten view) (input : InputState) (dt : N)
    (root : Node N) :
    (movePlayer input dt root).values.map view = root.values.map view := by
  unfold GatoCore.Gatod.movePlayer
  simp only
  rw [hview.writeFirst _ _ _ (by decide) (by decide), hview.writeFirst _ _ _ (by decide)
    (by decide),
    hview.writeFirst _ _ _ (by decide) (by decide), hview.writeFirst _ _ _ (by decide) (by decide)]

theorem Unwritten.animateEnemy (hview : Unwritten view) (fl : ℚ → ℚ) (p : Project N)
    (root : Node N) : (p.animateEnemy fl root).values.map view = root.values.map view := by
  unfold Project.animateEnemy
  cases p.timeline.trilhas with
  | nil => rfl
  | cons track tracks => exact hview.writeFirst _ _ _ (by decide) (by decide)

theorem Unwritten.applyScripts (hview : Unwritten view) (p : Project N) (dt : N) (root : Node N) :
    (p.applyScripts dt root).values.map view = root.values.map view := by
  have hpulse : ∀ v : Json N,
      (if p.effectOf isPlayer root = some "pulse".toList then
        GatoCore.Gatod.writeFirst isPlayer "altura" (some v)
          (GatoCore.Gatod.writeFirst isPlayer "largura" (some v) root)
        else root).values.map view = root.values.map view := by
    intro v
    split_ifs
    · rw [hview.writeFirst _ _ _ (by decide) (by decide),
        hview.writeFirst _ _ _ (by decide) (by decide)]
    · rfl
  unfold Project.applyScripts
  by_cases henemy : p.effectOf isEnemy root = some "enemy_patrol".toList
  · simp only
    rw [if_pos henemy, hview.writeFirst _ _ _ (by decide) (by decide)]
    exact hpulse _
  · simp only
    rw [if_neg henemy]
    exact hpulse _

omit [JsArithmetic N] in
theorem Unwritten.followPlayer (hview : Unwritten view) (root : Node N) :
    (Project.followPlayer root).values.map view = root.values.map view := by
  unfold Project.followPlayer
  split
  · split
    · split_ifs
      · simp only
        rw [hview.writeFirst _ _ _ (by decide) (by decide),
          hview.writeFirst _ _ _ (by decide) (by decide)]
      · rfl
    · rfl
  · rfl

end Parts

namespace Project

/-- The nodes before the text of the panel is written. -/
def moved (fl : ℚ → ℚ) (dt : N) (p : Project N) : Node N :=
  followPlayer (p.applyScripts dt (p.animateEnemy fl
    (if p.play ∧ (findFirst isPlayer p.scene.scene_root).isSome then
      movePlayer p.input_state dt p.scene.scene_root else p.scene.scene_root)))

/-- What a step makes of the nodes once the text of the panel is written. -/
def finish (fl : ℚ → ℚ) (p : Project N) (root : Node N) : Option (Project N) :=
  let p' := { p with scene := { p.scene with scene_root := root } }.advanceTimeline fl
  (p'.mixAudio (p.collides root)).map fun p' =>
    { p' with ultima_colisao := p.collides root, frame := p'.frame + 1 }

theorem step_eq (fl : ℚ → ℚ) (dt : N) (p : Project N) :
    p.step fl dt = p.syncSelectionsFromCursors.bind fun p =>
      (p.syncTimelineMetadata.updateHud (p.syncTimelineMetadata.moved fl dt)).bind
        (p.syncTimelineMetadata.finish fl) := rfl

/-- Nothing that is not written has changed until then. -/
theorem map_view_moved {β : Type} {view : NodeFields N → β} (hview : Unwritten view) (fl : ℚ → ℚ)
    (dt : N) (p : Project N) :
    (p.moved fl dt).values.map view = p.scene.scene_root.values.map view := by
  unfold moved
  rw [hview.followPlayer, hview.applyScripts, hview.animateEnemy]
  split_ifs
  · exact hview.movePlayer _ _ _
  · rfl

/-! ## The parts of a step that throw -/

/-- The text of the panel is made of the player, and there is none. -/
def Crashes (p : Project N) : Prop :=
  p.play = true ∧ findFirst isPlayer p.scene.scene_root = none ∧
    findFirst isHudLabel p.scene.scene_root ≠ none

/-- The four buses that `mixAudio` sets. -/
def HasBuses (p : Project N) : Prop := 4 ≤ p.audio_buses.length

theorem hudText_eq_none {p : Project N} {root : Node N} :
    p.hudText root = none ↔ p.play = true ∧ findFirst isPlayer root = none := by
  unfold hudText
  by_cases hplay : p.play = true
  · rw [if_pos hplay, Option.map_eq_none_iff]
    exact ⟨fun h => ⟨hplay, h⟩, fun h => h.2⟩
  · rw [if_neg hplay]
    exact ⟨fun h => by simp at h, fun h => absurd h.1 hplay⟩

theorem updateHud_eq_none {p : Project N} {root : Node N} :
    p.updateHud root = none ↔
      p.play = true ∧ findFirst isPlayer root = none ∧ findFirst isHudLabel root ≠ none := by
  unfold updateHud
  cases h : findFirst isHudLabel root with
  | none => simp
  | some label =>
      simp only
      rw [Option.map_eq_none_iff, hudText_eq_none]
      simp

theorem rowAt_ne_none {α : Type} {rows : List α} (h : rows ≠ []) (cursor : ℕ) :
    ∃ row, rowAt rows cursor = some row := by
  have hpos : 0 < rows.length := List.length_pos_iff.mpr h
  have hlt : min cursor (rows.length - 1) < rows.length := by omega
  exact ⟨rows[min cursor (rows.length - 1)], List.getElem?_eq_getElem hlt⟩

/-- What a step reads besides the selections and the timeline. -/
def core (p : Project N) : Node N × Bool × List (Bus N) × ℕ :=
  (p.scene.scene_root, p.play, p.audio_buses, p.frame)

omit [DecidableEq N] [JsArithmetic N] in
theorem syncScene_core (p : Project N) : ∃ p', p.syncScene = some p' ∧ p'.core = p.core := by
  unfold syncScene
  simp only
  split_ifs with h
  · exact ⟨p, rfl, rfl⟩
  · obtain ⟨row, hrow⟩ := rowAt_ne_none h (p.cursor .scene)
    rw [hrow]
    exact ⟨_, rfl, rfl⟩

omit [DecidableEq N] [JsArithmetic N] in
theorem syncAssets_core (p : Project N) : ∃ p', p.syncAssets = some p' ∧ p'.core = p.core := by
  unfold syncAssets
  split_ifs with h
  · exact ⟨p, rfl, rfl⟩
  · obtain ⟨row, hrow⟩ := rowAt_ne_none h (p.cursor .assets)
    rw [hrow]
    exact ⟨_, rfl, rfl⟩

omit [DecidableEq N] [JsArithmetic N] in
theorem syncSelectionsFromCursors_core (p : Project N) :
    ∃ p', p.syncSelectionsFromCursors = some p' ∧ p'.core = p.core := by
  obtain ⟨p₁, h₁, hcore₁⟩ := p.syncScene_core
  obtain ⟨p₂, h₂, hcore₂⟩ := p₁.syncAssets_core
  unfold syncSelectionsFromCursors
  rw [h₁, Option.bind_some, h₂]
  exact ⟨_, rfl, hcore₂.trans hcore₁⟩

omit [DecidableEq N] in
theorem mixAudio_eq_some {p : Project N} (h : p.HasBuses) (collisionActive : Bool) :
    ∃ p', p.mixAudio collisionActive = some p' ∧ p'.frame = p.frame ∧ p'.HasBuses := by
  unfold HasBuses at h
  unfold mixAudio
  rcases hbuses : p.audio_buses with _ | ⟨master, _ | ⟨music, _ | ⟨sfx, _ | ⟨ui, others⟩⟩⟩⟩
  all_goals rw [hbuses] at h
  · simp at h
  · simp at h
  · simp at h
  · simp at h
  · exact ⟨_, rfl, rfl, by unfold HasBuses; simp⟩

/-- A step throws exactly where the text of the panel does. -/
theorem step_cases (fl : ℚ → ℚ) (dt : N) {p : Project N} (h : p.HasBuses) :
    (p.Crashes ∧ p.step fl dt = none) ∨
      (¬ p.Crashes ∧ ∃ p', p.step fl dt = some p' ∧ p'.frame = p.frame + 1 ∧ p'.HasBuses) := by
  obtain ⟨p₁, hsync, hcore⟩ := p.syncSelectionsFromCursors_core
  unfold core at hcore
  simp only [Prod.mk.injEq] at hcore
  obtain ⟨hroot, hplay, hbuses, hframe⟩ := hcore
  have hbuses₁ : p₁.HasBuses := by
    unfold HasBuses
    rw [hbuses]
    exact h
  rw [step_eq, hsync, Option.bind_some]
  set p₂ := p₁.syncTimelineMetadata with hp₂
  set root := p₂.moved fl dt with hroot₂
  -- no part before the panel changes a name or a kind
  have hlooks : looksOf root = looksOf p.scene.scene_root := by
    rw [hroot₂, ← hroot]
    exact map_view_moved unwritten_looks fl dt p₂
  have hcrash : p₂.updateHud root = none ↔ p.Crashes := by
    have hplayer := isSome_isPlayer hlooks
    have hlabel := isSome_isHudLabel hlooks
    rw [updateHud_eq_none, show p₂.play = p.play from hplay]
    unfold Crashes
    rw [← Option.not_isSome_iff_eq_none, hplayer, ← Option.isSome_iff_ne_none, hlabel,
      Option.not_isSome_iff_eq_none, Option.isSome_iff_ne_none]
  cases hhud : p₂.updateHud root with
  | none => exact Or.inl ⟨hcrash.mp hhud, rfl⟩
  | some root' =>
      refine Or.inr ⟨fun hc => ?_, ?_⟩
      · rw [hcrash.mpr hc] at hhud
        cases hhud
      · rw [Option.bind_some]
        unfold finish
        simp only
        set p₃ := { p₂ with scene := { p₂.scene with scene_root := root' } }.advanceTimeline
          fl with hp₃
        have hframe₃ : p₃.frame = p.frame := by
          rw [hp₃, ← hframe]
          unfold advanceTimeline
          split_ifs <;> rfl
        have hbuses₃ : p₃.HasBuses := by
          rw [hp₃]
          unfold advanceTimeline
          split_ifs
          · exact hbuses₁
          · exact hbuses₁
        obtain ⟨p₄, hmix, hframe₄, hbuses₄⟩ := mixAudio_eq_some hbuses₃ (p₂.collides root')
        rw [hmix]
        exact ⟨_, rfl, by simp only [hframe₄, hframe₃], hbuses₄⟩

/-- A step that ends, and counts one frame. -/
def StepDone (fl : ℚ → ℚ) (p : Project N) (dt : N) : Prop :=
  ∃ p', p.step fl dt = some p' ∧ p'.frame = p.frame + 1

theorem stepDone_iff (fl : ℚ → ℚ) (dt : N) {p : Project N} (h : p.HasBuses) :
    p.StepDone fl dt ↔ ¬ p.Crashes := by
  rcases step_cases fl dt h with ⟨hcrash, hnone⟩ | ⟨hsafe, p', hsome, hframe, _⟩
  · constructor
    · rintro ⟨p', hsome, _⟩
      rw [hnone] at hsome
      cases hsome
    · exact fun hsafe => absurd hcrash hsafe
  · exact ⟨fun _ => hsafe, fun _ => ⟨p', hsome, hframe⟩⟩

end Project

/-! ## Runs -/

section Runs

variable {W : Type} (fl : ℚ → ℚ) (host : HostDirs) (fs : FileSystem W) (raiz : Text)

/-- At every step of a run, the project and the seconds meet a condition. -/
def AtSteps (Q : Project N → N → Prop) (p : Project N) : List (ProjectEvent N W) → Prop
  | [] => True
  | e :: es =>
      (match e with
        | .step dt => Q p dt
        | _ => True) ∧
      ∀ p', projectEvent fl host fs raiz p e = some p' → AtSteps Q p' es

variable {fl host fs raiz}

omit [DecidableEq N] [JsArithmetic N] in
theorem importAssets_audio_buses (importados : List Text) (p : Project N) :
    (p.importAssets importados).audio_buses = p.audio_buses := by
  unfold Project.importAssets
  induction importados generalizing p with
  | nil => rfl
  | cons nome importados ih =>
      rw [List.foldl_cons, ih]
      split_ifs <;> rfl

/-- The outcomes have what is seen of a project. -/
def Keeps {β : Type} (view : Project N → β) (p : Project N) (o : Option (Project N)) : Prop :=
  ∀ p', o = some p' → view p' = view p

section Keeps

variable {β : Type} {view : Project N → β} {p p' : Project N} {o o' : Option (Project N)}

omit [DecidableEq N] [JsArithmetic N] in
theorem keeps_some (h : view p' = view p) : Keeps view p (some p') := by
  rintro _ ⟨rfl⟩
  exact h

omit [DecidableEq N] [JsArithmetic N] in
theorem keeps_map {α : Type} {o : Option α} {f : α → Project N} (h : ∀ a, view (f a) = view p) :
    Keeps view p (o.map f) := by
  intro p' hp'
  obtain ⟨a, _, rfl⟩ := Option.map_eq_some_iff.mp hp'
  exact h a

omit [DecidableEq N] [JsArithmetic N] in
theorem keeps_ite {c : Prop} [Decidable c] (ho : c → Keeps view p o) (ho' : Keeps view p o') :
    Keeps view p (if c then o else o') := by
  split_ifs with hc
  · exact ho hc
  · exact ho'

end Keeps

/-- The outcomes have the buses of a project. -/
def KeepsBuses (p : Project N) (o : Option (Project N)) : Prop := Keeps Project.audio_buses p o

theorem keepsBuses_handleCommand (input : Project.CommandInput N W) (name : Text)
    (p : Project N) : KeepsBuses p (p.handleCommand fl host fs raiz input name) := by
  unfold Project.handleCommand
  iterate 2 refine keeps_ite (fun _ => keeps_some rfl) ?_
  refine keeps_ite (fun _ => keeps_map fun scene => ?_) ?_
  · split_ifs <;> rfl
  iterate 7 refine keeps_ite (fun _ => keeps_some rfl) ?_
  refine keeps_ite (fun _ => keeps_map fun scene => rfl) ?_
  iterate 2 refine keeps_ite (fun _ => keeps_some rfl) ?_
  refine keeps_ite (fun _ => keeps_some (importAssets_audio_buses _ _)) ?_
  iterate 6 refine keeps_ite (fun _ => keeps_some rfl) ?_
  exact keeps_some rfl

omit [DecidableEq N] [JsArithmetic N] in
theorem keepsBuses_handlePanelPointer (panel : Panel) (row : ℕ) (p : Project N) :
    KeepsBuses p (p.handlePanelPointer panel row) := by
  have hrow : (p.setRow panel row).audio_buses = p.audio_buses := by cases panel <;> rfl
  unfold Project.handlePanelPointer
  refine keeps_ite (fun _ => ?_) (keeps_some hrow)
  intro p' hp'
  obtain ⟨p₁, hsync, hcore⟩ := Project.syncSelectionsFromCursors_core
    { p.setRow panel row with focus_panel := panel }
  obtain rfl := Option.some.inj (hsync.symm.trans hp')
  exact (congrArg (fun c => c.2.2.1) hcore).trans hrow

theorem hasBuses_projectEvent {p p' : Project N} (hp : p.HasBuses) {e : ProjectEvent N W}
    (h : projectEvent fl host fs raiz p e = some p') : p'.HasBuses := by
  have hkeep : p'.audio_buses = p.audio_buses → p'.HasBuses := by
    intro hbuses
    unfold Project.HasBuses
    rw [hbuses]
    exact hp
  -- no event takes the audio buses away, and a step keeps them
  cases e with
  | command input name => exact hkeep (keepsBuses_handleCommand input name p p' h)
  | cursor panel delta size =>
      obtain rfl := Option.some.inj h
      refine hkeep ?_
      cases panel <;> rfl
  | row panel row => exact hkeep (keepsBuses_handlePanelPointer panel row p p' h)
  | focus panel =>
      obtain rfl := Option.some.inj h
      exact hkeep rfl
  | palette aberta =>
      obtain rfl := Option.some.inj h
      exact hkeep rfl
  | input state =>
      obtain rfl := Option.some.inj h
      exact hkeep rfl
  | script e mundo =>
      obtain rfl := Option.some.inj h
      exact hkeep rfl
  | timeline e =>
      obtain ⟨next, _, rfl⟩ := Option.map_eq_some_iff.mp h
      exact hkeep rfl
  | step dt =>
      rcases Project.step_cases fl dt hp with ⟨_, hnone⟩ | ⟨_, p'', hsome, _, hbuses⟩
      · exact absurd (hnone.symm.trans h) nofun
      · rw [← Option.some.inj (hsome.symm.trans h)]
        exact hbuses

/-- At every step, the property is the condition. -/
theorem atSteps_congr {Q R : Project N → N → Prop}
    (hQR : ∀ p dt, p.HasBuses → (Q p dt ↔ R p dt)) (es : List (ProjectEvent N W)) :
    ∀ {p : Project N}, p.HasBuses →
      (AtSteps fl host fs raiz Q p es ↔ AtSteps fl host fs raiz R p es) := by
  induction es with
  | nil => exact fun _ => Iff.rfl
  | cons e es ih =>
      intro p hp
      unfold AtSteps
      refine and_congr ?_ (forall₂_congr fun p' h => ih (hasBuses_projectEvent hp h))
      cases e with
      | step dt => exact hQR p dt hp
      | _ => exact Iff.rfl

instance : JsArithmetic ℕ where
  nan := 0
  ofText _ := 0
  ofRat q := q.floor.toNat
  lt a b := decide (a < b)
  le a b := decide (a ≤ b)
  min := Nat.min
  max := Nat.max
  abs n := n
  sin _ := 0
  floor n := n
  round n := n

def noInput : Project.CommandInput ℕ (List (Location × Text)) where
  agora := 0
  relogio _ := 0
  caminhos _ := 0
  inteiro := 0
  sorte := 0
  importados := []
  mundo := []

end Runs

end GatoCore.Gatod
