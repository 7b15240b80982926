import GatoCore.Doom.GameInvariant

/-!
# Whether the demo can be won

The third enemy starts in the middle of a wall. Every line that `visibleLine` samples to or from
that place has a sample next to it, in the wall; so nobody hits the enemy, it never sees the player
and never moves, and the condition of victory never holds.
-/

namespace GatoCore.Doom

open GatoCore.Lib

variable {K : Type} [Field K] [LinearOrder K] [IsStrictOrderedRing K] [FloorRing K]

/-! ## Lines to and from the inside of a wall -/

/-- All within a tenth of a place is wall. -/
def Walled (map : GameMap K) (x y : K) : Prop :=
  ∀ x' y', |x' - x| ≤ 0.10 → |y' - y| ≤ 0.10 → isWall map x' y' = true

omit [FloorRing K] in
/-- Neither coordinate is farther than the distance. -/
theorem abs_le_distance {M : JsMath K} (hM : M.ExactSqrt) (x1 y1 x2 y2 : K) :
    |x2 - x1| ≤ distance M x1 y1 x2 y2 ∧ |y2 - y1| ≤ distance M x1 y1 x2 y2 := by
  have hsum : 0 ≤ (x2 - x1) * (x2 - x1) + (y2 - y1) * (y2 - y1) :=
    add_nonneg (mul_self_nonneg _) (mul_self_nonneg _)
  have hsquare := hM.mul_self _ hsum
  have hnonneg := hM.nonneg ((x2 - x1) * (x2 - x1) + (y2 - y1) * (y2 - y1))
  constructor
  · refine abs_le_of_sq_le_sq ?_ hnonneg
    rw [pow_two, pow_two, distance, hsquare]
    exact le_add_of_nonneg_right (mul_self_nonneg _)
  · refine abs_le_of_sq_le_sq ?_ hnonneg
    rw [pow_two, pow_two, distance, hsquare]
    exact le_add_of_nonneg_left (mul_self_nonneg _)

omit [IsStrictOrderedRing K] in
theorem lineSteps_pos (M : JsMath K) (x1 y1 x2 y2 : K) : 0 < lineSteps M x1 y1 x2 y2 := by
  rw [lineSteps]
  have := le_max_left (1 : ℤ) ⌈distance M x1 y1 x2 y2 / 0.10⌉
  omega

/-- One step of the walk is a tenth at most. -/
theorem distance_le_steps (M : JsMath K) (x1 y1 x2 y2 : K) :
    distance M x1 y1 x2 y2 ≤ 0.10 * (lineSteps M x1 y1 x2 y2 : K) := by
  have hpos := lineSteps_pos M x1 y1 x2 y2
  have hceil : ⌈distance M x1 y1 x2 y2 / 0.10⌉ ≤ (lineSteps M x1 y1 x2 y2 : ℤ) := by
    rw [lineSteps]
    have := le_max_right (1 : ℤ) ⌈distance M x1 y1 x2 y2 / 0.10⌉
    omega
  have hle : distance M x1 y1 x2 y2 / 0.10 ≤ (lineSteps M x1 y1 x2 y2 : K) := by
    have := Int.ceil_le.mp hceil
    exact_mod_cast this
  rw [div_le_iff₀ (by norm_num)] at hle
  linarith

/-- The share of one step in a difference. -/
theorem abs_step_le {M : JsMath K} {x1 y1 x2 y2 d : K} (hd : |d| ≤ distance M x1 y1 x2 y2) :
    |d * (1 / (lineSteps M x1 y1 x2 y2 : K))| ≤ 0.10 := by
  have hpos : (0 : K) < lineSteps M x1 y1 x2 y2 := by exact_mod_cast lineSteps_pos M x1 y1 x2 y2
  rw [abs_mul, abs_of_pos (one_div_pos.mpr hpos), mul_one_div, div_le_iff₀ hpos]
  exact hd.trans (distance_le_steps M x1 y1 x2 y2)

omit [IsStrictOrderedRing K] in
/-- A sample of a visible line is not in a wall. -/
theorem isWall_sample {M : JsMath K} {map : GameMap K} {x1 y1 x2 y2 : K}
    (h : visibleLine M map x1 y1 x2 y2 = true) (idx : ℕ) (hpos : 0 < idx)
    (hlt : idx < lineSteps M x1 y1 x2 y2) :
    isWall map (x1 + (x2 - x1) * (idx / (lineSteps M x1 y1 x2 y2 : K)))
      (y1 + (y2 - y1) * (idx / (lineSteps M x1 y1 x2 y2 : K))) = false := by
  have hmem : idx ∈ List.range' 1 (lineSteps M x1 y1 x2 y2 - 1) := by
    rw [List.mem_range'_1]
    omega
  have hsample := List.all_eq_true.mp h idx hmem
  simpa using hsample

/-- Who stands inside a wall sees nobody outside. -/
theorem isWall_of_visibleLine_from {M : JsMath K} (hM : M.ExactSqrt) {map : GameMap K}
    {x1 y1 x2 y2 : K} (hwalled : Walled map x1 y1) (h : visibleLine M map x1 y1 x2 y2 = true) :
    isWall map x2 y2 = true := by
  obtain ⟨hx, hy⟩ := abs_le_distance hM x1 y1 x2 y2
  by_cases hone : lineSteps M x1 y1 x2 y2 = 1
  · -- the line is too short to be sampled: both ends are in the wall
    have hshort := distance_le_steps M x1 y1 x2 y2
    rw [hone, Nat.cast_one, mul_one] at hshort
    exact hwalled x2 y2 (hx.trans hshort) (hy.trans hshort)
  · -- the first sample is a step away from the wall's inside
    have hpos := lineSteps_pos M x1 y1 x2 y2
    have hsample := isWall_sample h 1 Nat.one_pos (by omega)
    rw [Nat.cast_one] at hsample
    have hwall := hwalled (x1 + (x2 - x1) * (1 / (lineSteps M x1 y1 x2 y2 : K)))
      (y1 + (y2 - y1) * (1 / (lineSteps M x1 y1 x2 y2 : K)))
      (by rw [add_sub_cancel_left]; exact abs_step_le hx)
      (by rw [add_sub_cancel_left]; exact abs_step_le hy)
    rw [hsample] at hwall
    cases hwall

/-- Who stands inside a wall is seen by nobody outside. -/
theorem isWall_of_visibleLine_to {M : JsMath K} (hM : M.ExactSqrt) {map : GameMap K}
    {x1 y1 x2 y2 : K} (hwalled : Walled map x2 y2) (h : visibleLine M map x1 y1 x2 y2 = true) :
    isWall map x1 y1 = true := by
  obtain ⟨hx, hy⟩ := abs_le_distance hM x1 y1 x2 y2
  have hpos := lineSteps_pos M x1 y1 x2 y2
  by_cases hone : lineSteps M x1 y1 x2 y2 = 1
  · have hshort := distance_le_steps M x1 y1 x2 y2
    rw [hone, Nat.cast_one, mul_one] at hshort
    exact hwalled x1 y1 (by rw [abs_sub_comm]; exact hx.trans hshort)
      (by rw [abs_sub_comm]; exact hy.trans hshort)
  · -- the last sample is a step away from the end
    have hsample := isWall_sample h (lineSteps M x1 y1 x2 y2 - 1) (by omega) (by omega)
    have hsteps : (lineSteps M x1 y1 x2 y2 : K) ≠ 0 := by
      exact_mod_cast hpos.ne'
    have hlast : ∀ a b : K, a + (b - a) * ((lineSteps M x1 y1 x2 y2 - 1 : ℕ) /
        (lineSteps M x1 y1 x2 y2 : K)) - b = -((b - a) * (1 / (lineSteps M x1 y1 x2 y2 : K))) := by
      intro a b
      rw [Nat.cast_sub hpos, Nat.cast_one]
      field_simp
      ring
    have hwall := hwalled _ _ (by rw [hlast x1 x2, abs_neg]; exact abs_step_le hx)
      (by rw [hlast y1 y2, abs_neg]; exact abs_step_le hy)
    rw [hsample] at hwall
    cases hwall

/-! ## The third enemy -/

/-- An enemy that lives inside a wall. -/
def Entity.Trapped (map : GameMap K) : Entity K → Prop
  | .enemy e => e.alive = true ∧ Walled map e.x e.y
  | .pickup _ => False

/-- The cell of the third enemy is a wall. -/
theorem walled_imp_c : Walled (makeDemoMap : GameMap K) 11.5 11.5 := by
  have hfloor : ∀ z : K, |z - 11.5| ≤ 0.10 → ⌊z⌋ = 11 := by
    intro z hz
    rw [abs_le] at hz
    rw [Int.floor_eq_iff]
    norm_num at hz ⊢
    constructor <;> linarith [hz.1, hz.2]
  intro x' y' hx hy
  rw [isWall, hfloor x' hx, hfloor y' hy]
  rfl

/-- Every trapped enemy is there still, trapped. -/
def KeepsTrapped (s s' : Estado K) : Prop :=
  List.Forall₂ (fun e e' => e.Trapped s.map → e'.Trapped s.map) s.entities s'.entities

omit [IsStrictOrderedRing K] in
theorem trapped_visitPickup (M : JsMath K) (map : GameMap K) (s : Estado K) (e : Entity K) :
    e.Trapped map → (visitPickup M s e).2.Trapped map := by
  cases e with
  | enemy e => exact id
  | pickup p => exact False.elim

/-- A trapped enemy does not see the player, so all it does is turn and wait. -/
theorem trapped_visitEnemy {M : JsMath K} (hM : M.ExactSqrt) (dt : K) {s : Estado K}
    (hout : isWall s.map s.player.x s.player.y = false) (e : Entity K) :
    e.Trapped s.map → (visitEnemy M dt s e).2.Trapped s.map := by
  cases e with
  | pickup p => exact False.elim
  | enemy e =>
      rintro ⟨halive, hwalled⟩
      have hblind : visibleLine M s.map e.x e.y s.player.x s.player.y = false := by
        rw [← Bool.not_eq_true]
        intro hsees
        rw [isWall_of_visibleLine_from hM hwalled hsees] at hout
        cases hout
      rw [visitEnemy, if_pos halive]
      simp only [updateEnemy, hblind, Bool.false_eq_true, if_false]
      exact ⟨halive, hwalled⟩

omit [IsStrictOrderedRing K] in
theorem keepsTrapped_refl (s : Estado K) : KeepsTrapped s s :=
  List.forall₂_same.mpr fun _ _ => id

theorem keepsTrapped_update {M : JsMath K} (hM : M.ExactSqrt) {s : Estado K} (dt : K)
    (hout : isWall s.map s.player.x s.player.y = false) : KeepsTrapped s (update M s dt) := by
  obtain ⟨hplace, henemies⟩ := forEntities_forall₂
    (R := fun e e' => e.Trapped s.map → e'.Trapped s.map) (cool dt s)
    (samePlace_visitEnemy M dt) fun t e ht => by
      have hmap : t.map = s.map := ht.map
      have hx : t.player.x = s.player.x := ht.x
      have hy : t.player.y = s.player.y := ht.y
      rw [← hmap]
      refine trapped_visitEnemy hM dt ?_ e
      rw [hmap, hx, hy]
      exact hout
  obtain ⟨_, hpickups⟩ := forEntities_forall₂
    (R := fun e e' => e.Trapped s.map → e'.Trapped s.map)
    ((cool dt s).forEntities (visitEnemy M dt)) (samePlace_visitPickup M)
    fun t e _ => trapped_visitPickup M s.map t e
  have hsettle : ∀ t : Estado K, (settle t).entities = t.entities := by
    intro t
    rw [settle]
    split
    next => rfl
    next => split <;> rfl
  rw [KeepsTrapped, update, hsettle]
  exact forall₂_of_common henemies.flip hpickups fun _ _ _ _ h h' he => h' (h he)

/-- A shot hits an enemy in sight only, and no trapped enemy is. -/
theorem keepsTrapped_fire {M : JsMath K} (hM : M.ExactSqrt) {s : Estado K}
    (hout : isWall s.map s.player.x s.player.y = false) : KeepsTrapped s (fire M s).1 := by
  have hrefl := keepsTrapped_refl s
  rw [fire]
  split
  next => exact hrefl
  next =>
    split
    next => exact hrefl
    next =>
      split
      next => exact hrefl
      next =>
        simp only
        split
        next => exact hrefl
        next idx hidx =>
          obtain ⟨e, he, halive, hsees⟩ := pickTarget_spec hidx
          have hfree : ¬ (Entity.enemy e).Trapped s.map := by
            rintro ⟨_, hwalled⟩
            have hwall := isWall_of_visibleLine_to hM hwalled hsees
            have hwall : isWall s.map s.player.x s.player.y = true := hwall
            rw [hout] at hwall
            cases hwall
          have hset : ∀ e' : Entity K, List.Forall₂ (fun e e' => e.Trapped s.map → e'.Trapped s.map)
              s.entities (s.entities.set idx e') := by
            intro e'
            exact forall₂_set (fun _ => id) he fun htrapped => absurd htrapped hfree
          simp only [he]
          rw [hitEnemy]
          split
          next => exact hset _
          next => exact hset _

theorem keepsTrapped_call {M : JsMath K} (hM : M.ExactSqrt) {s : Estado K} (c : Chamada K)
    (hout : isWall s.map s.player.x s.player.y = false) : KeepsTrapped s (call M s c) := by
  cases c with
  | step input dt => exact keepsTrapped_refl s
  | fire => exact keepsTrapped_fire hM hout
  | update dt => exact keepsTrapped_update hM dt hout

/-- In every state of every run the third enemy lives inside its wall. -/
theorem Run.trapped {s : Estado K} (h : Run JsMath.ExactSqrt createDemo s) :
    s.map = makeDemoMap ∧ ∃ e : Enemy K, s.entities[2]? = some (.enemy e) ∧
      (Entity.enemy e).Trapped makeDemoMap := by
  refine ⟨h.keepsOut.map, ?_⟩
  induction h with
  | refl => exact ⟨_, rfl, rfl, walled_imp_c⟩
  | @tail s M c hrun hM _ ih =>
      obtain ⟨e, he, htrapped⟩ := ih
      have hmap : s.map = makeDemoMap := hrun.keepsOut.map
      have hkeeps := keepsTrapped_call hM c hrun.player_out
      obtain ⟨hlt, hget⟩ := List.getElem?_eq_some_iff.mp he
      have hlt' : 2 < (call M s c).entities.length := by rwa [← hkeeps.length_eq]
      have hentry := hkeeps.get hlt hlt'
      rw [List.get_eq_getElem, List.get_eq_getElem, hget, hmap] at hentry
      have htrapped := hentry htrapped
      cases he' : (call M s c).entities[2] with
      | pickup p =>
          rw [he'] at htrapped
          exact htrapped.elim
      | enemy e' =>
          rw [he'] at htrapped
          exact ⟨e', by rw [List.getElem?_eq_getElem hlt', he'], htrapped⟩

/-! ## Victory -/

/-- There is a place outside the walls from which an enemy is seen. -/
def Enemy.CanBeHit (M : JsMath K) (map : GameMap K) (e : Enemy K) : Prop :=
  ∃ x y, isWall map x y = false ∧ visibleLine M map x y e.x e.y = true

/-- Every enemy that lives can be hit from somewhere. -/
def Winnable (M : JsMath K) (s : Estado K) : Prop :=
  ∀ e : Enemy K, .enemy e ∈ s.entities → e.alive = true → e.CanBeHit M s.map

/-- Victory is declared when no enemy is left. -/
theorem aliveEnemies_of_victory {M : JsMath K} {s : Estado K} {c : Chamada K}
    (hs : s.mode ≠ .victory) (h : (call M s c).mode = .victory) :
    aliveEnemies (call M s c) = [] := by
  cases c with
  | step input dt => exact absurd h hs
  | fire =>
      have hmode : (fire M s).1.mode = s.mode := by
        rw [fire]
        split
        next => rfl
        next =>
          split
          next => rfl
          next =>
            split
            next => rfl
            next =>
              simp only
              split
              next => rfl
              next =>
                split
                next =>
                  rw [hitEnemy]
                  split <;> rfl
                next => rfl
      exact absurd (hmode ▸ h) hs
  | update dt =>
      have hmode : (tryCollect M ((cool dt s).forEntities (visitEnemy M dt))).mode = s.mode :=
        (forEntities_forall₂ _ (samePlace_visitPickup M) fun t e _ =>
          staysOut_visitPickup M s.map t e).1.mode.trans
        (forEntities_forall₂ (R := fun _ _ => True) (cool dt s) (samePlace_visitEnemy M dt)
          fun _ _ _ => trivial).1.mode
      rw [call, update, settle] at h ⊢
      split at h
      next => cases h
      next =>
        split at h
        next hdone =>
          rw [if_neg ‹_›, if_pos hdone]
          exact List.length_eq_zero_iff.mp hdone.1
        next => exact absurd (hmode ▸ h) hs

/-- No run ever gets the demo into a state from which every living enemy can be hit, and none ends
in victory. -/
theorem not_winnable {s : Estado K} (h : Run JsMath.ExactSqrt createDemo s) {M : JsMath K}
    (hM : M.ExactSqrt) : ¬ Winnable M s ∧ s.mode ≠ .victory := by
  constructor
  · obtain ⟨hmap, e, he, halive, hwalled⟩ := h.trapped
    intro hwin
    obtain ⟨x, y, hout, hsees⟩ := hwin e (List.mem_of_getElem? he) halive
    rw [hmap] at hout hsees
    rw [isWall_of_visibleLine_to hM hwalled hsees] at hout
    cases hout
  · induction h with
    | refl => exact fun hmode => by cases hmode
    | @tail s M c hrun hM' hdt ih =>
        intro hvictory
        have hnone := aliveEnemies_of_victory ih hvictory
        obtain ⟨_, e, he, halive, _⟩ := (hrun.tail M c hM' hdt).trapped
        have hmem : .enemy e ∈ aliveEnemies (call M s c) :=
          List.mem_filter.mpr ⟨List.mem_of_getElem? he, halive⟩
        rw [hnone] at hmem
        cases hmem

theorem not_winnable_shot :
    ¬ Winnable realMath (fire realMath createDemo).1 ∧
      (fire realMath createDemo).1.mode ≠ .victory :=
  not_winnable (.tail realMath .fire .refl realMath_exactSqrt le_rfl) realMath_exactSqrt

/-- The demo starts with an enemy nobody can hit. -/
theorem createDemo_not_winnable :
    ¬ ∀ s : Estado ℝ, Run JsMath.ExactSqrt createDemo s → s.mode = .playing →
      Winnable realMath s := by
  intro h
  obtain ⟨x, y, hout, hsees⟩ := h createDemo .refl rfl
    ⟨"imp_c", 11.5, 11.5, 36, 0.70, 7, true, 0, none⟩ (by simp [createDemo, spawnDemo]) rfl
  have hwall : isWall createDemo.map x y = true :=
    isWall_of_visibleLine_to realMath_exactSqrt walled_imp_c hsees
  rw [hout] at hwall
  cases hwall

end GatoCore.Doom
