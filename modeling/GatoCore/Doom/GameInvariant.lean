import Mathlib.Data.List.Forall2
import Mathlib.Algebra.BigOperators.Group.List.Basic
import GatoCore.Lib.Lists
import GatoCore.Doom.Game
import GatoCore.Doom.RealMath

/-!
# What every run of the demo keeps

The books of the game balance in every state a run reaches, nobody enters a wall, and who is dead
stays counted. The loops visit one entity after the other, so the invariant is a statement about a
state and the list of entities as it is in the middle of a loop.
-/

namespace GatoCore.Doom

open GatoCore.Lib

variable {K : Type} [Field K] [LinearOrder K] [IsStrictOrderedRing K] [FloorRing K]

/-! ## Loops over the entities -/

section Loops

variable {visit : Estado K → Entity K → Estado K × Entity K}

omit [Field K] [LinearOrder K] [IsStrictOrderedRing K] [FloorRing K] in
/-- What one visit keeps of the state and all entities, the loop keeps. -/
theorem eachEntity_keeps {P : Estado K → List (Entity K) → Prop}
    (h : ∀ s before e after, P s (before ++ e :: after) →
      P (visit s e).1 (before ++ (visit s e).2 :: after)) :
    ∀ (es before : List (Entity K)) (s : Estado K), P s (before ++ es) →
      P (eachEntity visit s es).1 (before ++ (eachEntity visit s es).2) := by
  intro es
  induction es with
  | nil => exact fun before s hs => hs
  | cons e es ih =>
      intro before s hs
      have hvisit := h s before e es hs
      rw [← List.singleton_append, ← List.append_assoc] at hvisit
      have hrest := ih _ _ hvisit
      rw [List.append_assoc, List.singleton_append] at hrest
      exact hrest

omit [Field K] [LinearOrder K] [IsStrictOrderedRing K] [FloorRing K] in
/-- What one visit makes of an entity, the loop makes of every one. -/
theorem eachEntity_forall₂ {P : Estado K → Prop} {R : Entity K → Entity K → Prop}
    (h : ∀ s e, P s → P (visit s e).1 ∧ R e (visit s e).2) :
    ∀ (es : List (Entity K)) (s : Estado K), P s →
      P (eachEntity visit s es).1 ∧ List.Forall₂ R es (eachEntity visit s es).2 := by
  intro es
  induction es with
  | nil => exact fun s hs => ⟨hs, .nil⟩
  | cons e es ih =>
      intro s hs
      obtain ⟨hs, he⟩ := h s e hs
      obtain ⟨hs, hes⟩ := ih _ hs
      exact ⟨hs, .cons he hes⟩

end Loops

/-! ## The books -/

section Books

/-- The ammunition a collected pickup gave. -/
def Entity.ammoGiven : Entity K → ℤ
  | .pickup p => if p.subtype = .ammo ∧ p.alive = false then p.amount else 0
  | .enemy _ => 0

def Entity.isDeadEnemy : Entity K → Bool
  | .enemy e => !e.alive
  | .pickup _ => false

def Entity.isCollected : Entity K → Bool
  | .pickup p => !p.alive
  | .enemy _ => false

/-- An enemy is dead exactly when it has no hit points left. -/
def Entity.DeadIffSpent : Entity K → Prop
  | .enemy e => e.alive = false ↔ e.hp ≤ 0
  | .pickup _ => True

/-- Damage and amounts are not negative. -/
def Entity.Sensible : Entity K → Prop
  | .enemy e => 0 ≤ e.damage
  | .pickup p => 0 ≤ p.amount

/-- What holds of a state and the entities in it. -/
structure Balanced (s : Estado K) (es : List (Entity K)) : Prop where
  health : 0 ≤ s.player.health ∧ s.player.health ≤ 100
  armor : 0 ≤ s.player.armor ∧ s.player.armor ≤ 100
  ammo : 0 ≤ s.player.ammo
  shots : s.player.ammo + s.stats.shots = 20 + (es.map Entity.ammoGiven).sum
  kills : s.stats.kills = (es.countP Entity.isDeadEnemy : ℤ)
  dead : ∀ e ∈ es, e.DeadIffSpent
  pickups : s.stats.pickups = (es.countP Entity.isCollected : ℤ)
  hits : s.stats.hits ≤ s.stats.shots
  sensible : ∀ e ∈ es, e.Sensible

/-- The entry of an entity in a count. -/
def entry (b : Bool) : ℤ := if b then 1 else 0

omit [Field K] [LinearOrder K] [IsStrictOrderedRing K] [FloorRing K] in
theorem countP_split (p : Entity K → Bool) (before after : List (Entity K)) (e : Entity K) :
    ((before ++ e :: after).countP p : ℤ) = before.countP p + entry (p e) + after.countP p := by
  rw [List.countP_append, List.countP_cons, entry]
  split <;> push_cast <;> ring

omit [Field K] [LinearOrder K] [IsStrictOrderedRing K] [FloorRing K] in
/-- The books read the player's counters and the statistics only. -/
theorem Balanced.of_books {s s' : Estado K} {es : List (Entity K)} (h : Balanced s es)
    (hhealth : s'.player.health = s.player.health) (harmor : s'.player.armor = s.player.armor)
    (hammo : s'.player.ammo = s.player.ammo) (hstats : s'.stats = s.stats) : Balanced s' es := by
  obtain ⟨h₁, h₂, h₃, h₄, h₅, h₆, h₇, h₈, h₉⟩ := h
  rw [← hhealth] at h₁
  rw [← harmor] at h₂
  rw [← hammo] at h₃
  rw [← hammo, ← hstats] at h₄
  rw [← hstats] at h₅ h₇ h₈
  exact ⟨h₁, h₂, h₃, h₄, h₅, h₆, h₇, h₈, h₉⟩

omit [Field K] [LinearOrder K] [IsStrictOrderedRing K] [FloorRing K] in
/-- One entity is replaced: the books stay balanced when its own entries are made good. -/
theorem Balanced.replace {s s' : Estado K} {before after : List (Entity K)} {e e' : Entity K}
    (h : Balanced s (before ++ e :: after))
    (hhealth : 0 ≤ s'.player.health ∧ s'.player.health ≤ 100)
    (harmor : 0 ≤ s'.player.armor ∧ s'.player.armor ≤ 100)
    (hammo : 0 ≤ s'.player.ammo)
    (hshots : s'.player.ammo + s'.stats.shots - e'.ammoGiven
      = s.player.ammo + s.stats.shots - e.ammoGiven)
    (hkills : s'.stats.kills - entry e'.isDeadEnemy = s.stats.kills - entry e.isDeadEnemy)
    (hdead : e.DeadIffSpent → e'.DeadIffSpent)
    (hpickups : s'.stats.pickups - entry e'.isCollected = s.stats.pickups - entry e.isCollected)
    (hhits : s'.stats.hits ≤ s'.stats.shots) (hsensible : e.Sensible → e'.Sensible) :
    Balanced s' (before ++ e' :: after) := by
  have hmem : e ∈ before ++ e :: after := by simp
  have hother : ∀ d ∈ before ++ e' :: after, d = e' ∨ d ∈ before ++ e :: after := by
    intro d hd
    rcases List.mem_append.mp hd with hd | hd
    · exact .inr (List.mem_append_left _ hd)
    · rcases List.mem_cons.mp hd with rfl | hd
      · exact .inl rfl
      · exact .inr (List.mem_append_right _ (List.mem_cons_of_mem _ hd))
  have hsum := h.shots
  have hcount := h.kills
  have hcollected := h.pickups
  rw [List.map_append, List.map_cons, List.sum_append, List.sum_cons] at hsum
  rw [countP_split] at hcount hcollected
  refine ⟨hhealth, harmor, hammo, ?_, ?_, ?_, ?_, hhits, ?_⟩
  · rw [List.map_append, List.map_cons, List.sum_append, List.sum_cons]
    omega
  · rw [countP_split]
    omega
  · intro d hd
    rcases hother d hd with rfl | hd
    · exact hdead (h.dead e hmem)
    · exact h.dead d hd
  · rw [countP_split]
    omega
  · intro d hd
    rcases hother d hd with rfl | hd
    · exact hsensible (h.sensible e hmem)
    · exact h.sensible d hd

omit [Field K] [LinearOrder K] [IsStrictOrderedRing K] [FloorRing K] in
theorem Balanced.collect {s : Estado K} {before after : List (Entity K)} {p : Pickup K}
    (h : Balanced s (before ++ .pickup p :: after)) (halive : p.alive = true) :
    Balanced (collectPickup s p).1 (before ++ .pickup (collectPickup s p).2 :: after) := by
  have hamount : 0 ≤ p.amount := h.sensible (.pickup p) (by simp)
  obtain ⟨hhealth, hhealth'⟩ := h.health
  obtain ⟨harmor, harmor'⟩ := h.armor
  have hammo := h.ammo
  rw [collectPickup, if_pos halive]
  cases hkind : p.subtype with
  | medkit =>
      refine h.replace ?_ h.armor hammo ?_ rfl (fun _ => trivial) ?_ h.hits (fun _ => hamount)
      · simp only [clamp]
        omega
      · simp [Entity.ammoGiven, hkind]
      · simp [Entity.isCollected, halive, entry]
  | ammo =>
      refine h.replace h.health h.armor (by simp only; omega) ?_ rfl (fun _ => trivial) ?_ h.hits
        (fun _ => hamount)
      · simp only [Entity.ammoGiven, hkind, halive, and_self, if_true, Bool.true_eq_false,
          and_false, if_false]
        omega
      · simp [Entity.isCollected, halive, entry]
  | armor =>
      refine h.replace h.health ?_ hammo ?_ rfl (fun _ => trivial) ?_ h.hits (fun _ => hamount)
      · simp only [clamp]
        omega
      · simp [Entity.ammoGiven, hkind]
      · simp [Entity.isCollected, halive, entry]

omit [LinearOrder K] [IsStrictOrderedRing K] [FloorRing K] in
/-- A bite: the armor takes what it can of half the damage, the health takes the rest. -/
theorem Balanced.hurt {s : Estado K} {before after : List (Entity K)} {e : Enemy K}
    (h : Balanced s (before ++ .enemy e :: after)) :
    Balanced (hurtPlayer s e).1 (before ++ .enemy (hurtPlayer s e).2 :: after) := by
  have hdamage : 0 ≤ e.damage := h.sensible (.enemy e) (by simp)
  obtain ⟨hhealth, hhealth'⟩ := h.health
  obtain ⟨harmor, harmor'⟩ := h.armor
  refine h.replace ?_ ?_ h.ammo rfl rfl id rfl h.hits id
  · simp only [hurtPlayer]
    omega
  · simp only [hurtPlayer]
    omega

end Books

/-! ## Visits and calls keep the books -/

omit [IsStrictOrderedRing K] [FloorRing K] in
theorem Balanced.visitPickup (M : JsMath K) {s : Estado K} {before after : List (Entity K)}
    {e : Entity K} (h : Balanced s (before ++ e :: after)) :
    Balanced (visitPickup M s e).1 (before ++ (visitPickup M s e).2 :: after) := by
  cases e with
  | enemy e => exact h
  | pickup p =>
      rw [Doom.visitPickup]
      split
      next hnear =>
        rw [Bool.and_eq_true] at hnear
        exact h.collect hnear.1
      next => exact h

omit [IsStrictOrderedRing K] in
theorem Balanced.updateEnemy (M : JsMath K) (dt : K) {s : Estado K}
    {before after : List (Entity K)} {e : Enemy K} (h : Balanced s (before ++ .enemy e :: after)) :
    Balanced (updateEnemy M dt s e).1 (before ++ .enemy (updateEnemy M dt s e).2 :: after) := by
  -- turning, cooling down and walking are not in the books
  have hsame : ∀ e' : Enemy K, e'.hp = e.hp → e'.alive = e.alive → e'.damage = e.damage →
      Balanced s (before ++ .enemy e' :: after) := by
    intro e' hhp halive hdamage
    refine h.replace h.health h.armor h.ammo rfl ?_ ?_ rfl h.hits ?_
    · simp only [Entity.isDeadEnemy, halive]
    · simp only [Entity.DeadIffSpent, halive, hhp]
      exact id
    · simp only [Entity.Sensible, hdamage]
      exact id
  have hchase : ∀ (e' : Enemy K) (dist angle : K), e'.hp = e.hp → e'.alive = e.alive →
      e'.damage = e.damage →
      Balanced s (before ++ .enemy (chase M dt s.map dist angle e') :: after) := by
    intro e' dist angle hhp halive hdamage
    rw [chase]
    split
    next => exact hsame _ hhp halive hdamage
    next => exact hsame _ hhp halive hdamage
  simp only [Doom.updateEnemy]
  split
  next =>
    split
    next => exact Balanced.hurt (hchase _ _ _ rfl rfl rfl)
    next => exact hchase _ _ _ rfl rfl rfl
  next => exact hsame _ rfl rfl rfl

omit [IsStrictOrderedRing K] in
theorem Balanced.visitEnemy (M : JsMath K) (dt : K) {s : Estado K}
    {before after : List (Entity K)} {e : Entity K} (h : Balanced s (before ++ e :: after)) :
    Balanced (visitEnemy M dt s e).1 (before ++ (visitEnemy M dt s e).2 :: after) := by
  cases e with
  | pickup p => exact h
  | enemy e =>
      rw [Doom.visitEnemy]
      split
      next => exact h.updateEnemy M dt
      next => exact h

omit [Field K] [LinearOrder K] [IsStrictOrderedRing K] [FloorRing K] in
theorem Balanced.hitEnemy {s : Estado K} {before after : List (Entity K)} {e : Enemy K}
    (hes : s.entities = before ++ .enemy e :: after) (halive : e.alive = true)
    (h : Balanced s s.entities) (hspare : s.stats.hits < s.stats.shots) :
    Balanced (hitEnemy s before.length e) (hitEnemy s before.length e).entities := by
  rw [hes] at h
  have hset : ∀ e' : Enemy K, s.entities.set before.length (.enemy e')
      = before ++ .enemy e' :: after := by
    intro e'
    rw [hes, List.set_append_right _ _ (Nat.le_refl _), Nat.sub_self, List.set_cons_zero]
  simp only [Doom.hitEnemy]
  split
  next hspent =>
    simp only [hset]
    refine h.replace h.health h.armor h.ammo rfl ?_ ?_ rfl ?_ id
    · simp [Entity.isDeadEnemy, halive, entry]
    · exact fun _ => iff_of_true rfl hspent
    · simp only
      omega
  next hleft =>
    simp only [hset]
    refine h.replace h.health h.armor h.ammo rfl rfl ?_ rfl ?_ id
    · intro _
      exact iff_of_false (by simp [halive]) hleft
    · simp only
      omega

/-- Whoever is picked as a target is an enemy that lives and is seen. -/
theorem targetScore_isSome {M : JsMath K} {s : Estado K} {d : Entity K}
    (h : (targetScore M s d).isSome = true) :
    ∃ e, d = .enemy e ∧ e.alive = true ∧
      visibleLine M s.map s.player.x s.player.y e.x e.y = true := by
  cases d with
  | pickup p => cases h
  | enemy e =>
      simp only [targetScore] at h
      split at h
      next halive =>
        split at h
        next => cases h
        next =>
          split at h
          next hsees => exact ⟨e, rfl, halive, hsees⟩
          next => cases h
      next => cases h

theorem foldl_betterTarget {M : JsMath K} {s : Estado K} {es : List (Entity K × ℕ)} :
    ∀ {best : Option (ℕ × K)} {idx : ℕ} {score : K},
      es.foldl (betterTarget M s) best = some (idx, score) →
      best = some (idx, score) ∨ ∃ d, (d, idx) ∈ es ∧ (targetScore M s d).isSome = true := by
  induction es with
  | nil => exact fun h => .inl h
  | cons p es ih =>
      intro best idx score h
      rcases ih h with hbest | ⟨d, hd, hscore⟩
      · rw [betterTarget] at hbest
        split at hbest
        next => exact .inl hbest
        next sc hsc =>
          have hseen : (targetScore M s p.1).isSome = true := by rw [hsc]; rfl
          split at hbest
          next =>
            cases hbest
            exact .inr ⟨p.1, List.mem_cons_self, hseen⟩
          next =>
            split at hbest
            next =>
              cases hbest
              exact .inr ⟨p.1, List.mem_cons_self, hseen⟩
            next => exact .inl hbest
      · exact .inr ⟨d, List.mem_cons_of_mem _ hd, hscore⟩

theorem pickTarget_spec {M : JsMath K} {s : Estado K} {idx : ℕ} (h : pickTarget M s = some idx) :
    ∃ e, s.entities[idx]? = some (.enemy e) ∧ e.alive = true ∧
      visibleLine M s.map s.player.x s.player.y e.x e.y = true := by
  obtain ⟨⟨idx', score⟩, hfold, rfl⟩ := Option.map_eq_some_iff.mp h
  rcases foldl_betterTarget hfold with hnone | ⟨d, hd, hscore⟩
  · cases hnone
  · obtain ⟨e, rfl, halive, hsees⟩ := targetScore_isSome hscore
    exact ⟨e, List.mk_mem_zipIdx_iff_getElem?.mp hd, halive, hsees⟩

theorem Balanced.fire (M : JsMath K) {s : Estado K} (h : Balanced s s.entities) :
    Balanced (fire M s).1 (fire M s).1.entities := by
  rw [Doom.fire]
  split
  next => exact h
  next =>
    split
    next => exact h
    next =>
      split
      next => exact h.of_books rfl rfl rfl rfl
      next hammo =>
        have hshoot : Balanced (shoot s) (shoot s).entities := by
          refine ⟨h.health, h.armor, ?_, ?_, h.kills, h.dead, h.pickups, ?_, h.sensible⟩
          · show 0 ≤ s.player.ammo - 1
            omega
          · show s.player.ammo - 1 + (s.stats.shots + 1)
              = 20 + (s.entities.map Entity.ammoGiven).sum
            rw [← h.shots]
            ring
          · show s.stats.hits ≤ s.stats.shots + 1
            exact Int.le_add_one h.hits
        -- the shot is counted before the hit
        have hspare : (shoot s).stats.hits < (shoot s).stats.shots :=
          Int.lt_add_one_of_le h.hits
        simp only
        split
        next => exact hshoot.of_books rfl rfl rfl rfl
        next idx hidx =>
          obtain ⟨e, he, halive, _⟩ := pickTarget_spec hidx
          simp only [he]
          obtain ⟨hlt, hget⟩ := List.getElem?_eq_some_iff.mp he
          have hsplit : (shoot s).entities = (shoot s).entities.take idx ++
              .enemy e :: (shoot s).entities.drop (idx + 1) := by
            rw [← hget, List.getElem_cons_drop, List.take_append_drop]
          have hlen : ((shoot s).entities.take idx).length = idx :=
            List.length_take_of_le (Nat.le_of_lt hlt)
          have hhit := Balanced.hitEnemy hsplit halive hshoot hspare
          rwa [hlen] at hhit

omit [Field K] [LinearOrder K] [IsStrictOrderedRing K] [FloorRing K] in
theorem Balanced.forEntities {visit : Estado K → Entity K → Estado K × Entity K} {s : Estado K}
    (hvisit : ∀ s before e after, Balanced s (before ++ e :: after) →
      Balanced (visit s e).1 (before ++ (visit s e).2 :: after))
    (h : Balanced s s.entities) :
    Balanced (s.forEntities visit) (s.forEntities visit).entities := by
  have hloop := eachEntity_keeps (P := Balanced) hvisit s.entities [] s h
  exact hloop.of_books rfl rfl rfl rfl

omit [IsStrictOrderedRing K] in
theorem Balanced.update (M : JsMath K) (dt : K) {s : Estado K} (h : Balanced s s.entities) :
    Balanced (update M s dt) (update M s dt).entities := by
  have hcool : Balanced (cool dt s) (cool dt s).entities := h.of_books rfl rfl rfl rfl
  have henemies := hcool.forEntities fun _ _ _ _ hs => hs.visitEnemy M dt
  have hpickups := henemies.forEntities fun _ _ _ _ hs => hs.visitPickup M
  have hsettle :
      ∀ t : Estado K, Balanced t t.entities → Balanced (settle t) (settle t).entities := by
    intro t ht
    rw [settle]
    split
    next => exact ht.of_books rfl rfl rfl rfl
    next =>
      split
      next => exact ht.of_books rfl rfl rfl rfl
      next => exact ht
  exact hsettle _ hpickups

theorem Player.step_books (M : JsMath K) (player : Player K) (map : GameMap K) (input : Input K)
    (dt : K) : (player.step M map input dt).health = player.health ∧
      (player.step M map input dt).armor = player.armor ∧
      (player.step M map input dt).ammo = player.ammo := by
  simp only [Player.step]
  refine ⟨?_, ?_, ?_⟩ <;> split <;> split <;> rfl

theorem Balanced.call (M : JsMath K) (c : Chamada K) {s : Estado K} (h : Balanced s s.entities) :
    Balanced (call M s c) (call M s c).entities := by
  cases c with
  | step input dt =>
      obtain ⟨hhealth, harmor, hammo⟩ := Player.step_books M s.player s.map input dt
      exact h.of_books hhealth harmor hammo rfl
  | fire => exact h.fire M
  | update dt => exact h.update M dt

/-! ## Walls -/

/-- Where the entity `e` becomes `e'`, an enemy outside the walls stays outside. -/
def StaysOut (map : GameMap K) : Entity K → Entity K → Prop
  | .enemy e, .enemy e' => isWall map e.x e.y = false → isWall map e'.x e'.y = false
  | .pickup _, .pickup _ => True
  | _, _ => False

omit [IsStrictOrderedRing K] in
theorem StaysOut.refl (map : GameMap K) (e : Entity K) : StaysOut map e e := by
  cases e with
  | enemy e => exact id
  | pickup p => exact trivial

omit [IsStrictOrderedRing K] in
theorem StaysOut.trans {map : GameMap K} {e e' e'' : Entity K} (h : StaysOut map e e')
    (h' : StaysOut map e' e'') : StaysOut map e e'' := by
  cases e with
  | enemy e =>
      cases e' with
      | pickup p => exact h.elim
      | enemy e' =>
          cases e'' with
          | pickup p => exact h'.elim
          | enemy e'' => exact fun hout => h' (h hout)
  | pickup p =>
      cases e' with
      | enemy e' => exact h.elim
      | pickup p' =>
          cases e'' with
          | enemy e'' => exact h'.elim
          | pickup p'' => exact trivial

/-- The same map, the player outside the walls, and every entity staying outside them. -/
structure KeepsOut (s s' : Estado K) : Prop where
  map : s'.map = s.map
  player : isWall s.map s.player.x s.player.y = false → isWall s'.map s'.player.x s'.player.y =
    false
  entities : List.Forall₂ (StaysOut s.map) s.entities s'.entities

omit [IsStrictOrderedRing K] in
theorem KeepsOut.refl (s : Estado K) : KeepsOut s s :=
  ⟨rfl, id, List.forall₂_same.mpr fun e _ => StaysOut.refl s.map e⟩

omit [IsStrictOrderedRing K] in
theorem KeepsOut.trans {s s' s'' : Estado K} (h : KeepsOut s s') (h' : KeepsOut s' s'') :
    KeepsOut s s'' := by
  refine ⟨h'.map.trans h.map, fun hout => h'.player (h.player hout), ?_⟩
  have hlater := h'.entities
  rw [h.map] at hlater
  exact forall₂_of_common h.entities.flip hlater fun _ _ _ _ hab hbc => StaysOut.trans hab hbc

/-- The map, where the player stands and the mode. -/
structure SamePlace (s s' : Estado K) : Prop where
  map : s'.map = s.map
  mode : s'.mode = s.mode
  x : s'.player.x = s.player.x
  y : s'.player.y = s.player.y

omit [IsStrictOrderedRing K] in
theorem SamePlace.keepsOut {s s' : Estado K} (h : SamePlace s s')
    (hentities : List.Forall₂ (StaysOut s.map) s.entities s'.entities) : KeepsOut s s' := by
  refine ⟨h.map, fun hout => ?_, hentities⟩
  rw [h.map, h.x, h.y]
  exact hout

omit [Field K] [LinearOrder K] [IsStrictOrderedRing K] [FloorRing K] in
theorem samePlace_collectPickup (s : Estado K) (p : Pickup K) :
    SamePlace s (collectPickup s p).1 := by
  rw [collectPickup]
  split
  next =>
    cases p.subtype with
    | medkit => exact ⟨rfl, rfl, rfl, rfl⟩
    | ammo => exact ⟨rfl, rfl, rfl, rfl⟩
    | armor => exact ⟨rfl, rfl, rfl, rfl⟩
  next => exact ⟨rfl, rfl, rfl, rfl⟩

omit [IsStrictOrderedRing K] [FloorRing K] in
theorem samePlace_visitPickup (M : JsMath K) (s : Estado K) (e : Entity K) :
    SamePlace s (visitPickup M s e).1 := by
  cases e with
  | enemy e => exact ⟨rfl, rfl, rfl, rfl⟩
  | pickup p =>
      rw [visitPickup]
      split
      next => exact samePlace_collectPickup s p
      next => exact ⟨rfl, rfl, rfl, rfl⟩

omit [IsStrictOrderedRing K] in
theorem samePlace_updateEnemy (M : JsMath K) (dt : K) (s : Estado K) (e : Enemy K) :
    SamePlace s (updateEnemy M dt s e).1 := by
  simp only [updateEnemy]
  split
  next => split <;> exact ⟨rfl, rfl, rfl, rfl⟩
  next => exact ⟨rfl, rfl, rfl, rfl⟩

omit [IsStrictOrderedRing K] in
theorem samePlace_visitEnemy (M : JsMath K) (dt : K) (s : Estado K) (e : Entity K) :
    SamePlace s (visitEnemy M dt s e).1 := by
  cases e with
  | pickup p => exact ⟨rfl, rfl, rfl, rfl⟩
  | enemy e =>
      rw [visitEnemy]
      split
      next => exact samePlace_updateEnemy M dt s e
      next => exact ⟨rfl, rfl, rfl, rfl⟩

omit [Field K] [LinearOrder K] [IsStrictOrderedRing K] [FloorRing K] in
theorem SamePlace.trans {s s' s'' : Estado K} (h : SamePlace s s') (h' : SamePlace s' s'') :
    SamePlace s s'' :=
  ⟨h'.map.trans h.map, h'.mode.trans h.mode, h'.x.trans h.x, h'.y.trans h.y⟩

omit [Field K] [LinearOrder K] [IsStrictOrderedRing K] [FloorRing K] in
/-- A loop whose visits leave the player where it is. -/
theorem forEntities_forall₂ {visit : Estado K → Entity K → Estado K × Entity K}
    {R : Entity K → Entity K → Prop} (s₀ : Estado K)
    (hplace : ∀ s e, SamePlace s (visit s e).1)
    (hvisit : ∀ s e, SamePlace s₀ s → R e (visit s e).2) :
    SamePlace s₀ (s₀.forEntities visit) ∧
      List.Forall₂ R s₀.entities (s₀.forEntities visit).entities := by
  obtain ⟨hsame, hentities⟩ := eachEntity_forall₂ (P := SamePlace s₀)
    (fun s e hs => ⟨hs.trans (hplace s e), hvisit s e hs⟩) s₀.entities s₀ ⟨rfl, rfl, rfl, rfl⟩
  exact ⟨⟨hsame.map, hsame.mode, hsame.x, hsame.y⟩, hentities⟩

omit [IsStrictOrderedRing K] in
theorem staysOut_visitPickup (M : JsMath K) (map : GameMap K) (s : Estado K) (e : Entity K) :
    StaysOut map e (visitPickup M s e).2 := by
  cases e with
  | enemy e => exact id
  | pickup p =>
      rw [visitPickup]
      split <;> exact trivial

omit [IsStrictOrderedRing K] in
theorem staysOut_visitEnemy (M : JsMath K) (dt : K) (s : Estado K) (e : Entity K) :
    StaysOut s.map e (visitEnemy M dt s e).2 := by
  cases e with
  | pickup p => exact trivial
  | enemy e =>
      rw [visitEnemy]
      split
      next =>
        intro hout
        have hchase : ∀ (e' : Enemy K) (dist angle : K), e'.x = e.x → e'.y = e.y →
            isWall s.map (chase M dt s.map dist angle e').x (chase M dt s.map dist angle e').y
              = false := by
          intro e' dist angle hx hy
          rw [← hx, ← hy] at hout
          rw [chase]
          split
          next => exact isWall_tryMove _ _ hout
          next => exact hout
        simp only [updateEnemy]
        split
        next =>
          split
          next => exact hchase _ _ _ rfl rfl
          next => exact hchase _ _ _ rfl rfl
        next => exact hout
      next => exact id

theorem keepsOut_step (M : JsMath K) (s : Estado K) (input : Input K) (dt : K) :
    KeepsOut s { s with player := s.player.step M s.map input dt } := by
  refine ⟨rfl, fun hout => ?_, List.forall₂_same.mpr fun e _ => StaysOut.refl s.map e⟩
  have hmove : ∀ (player : Player K) (dx dy : K), isWall s.map player.x player.y = false →
      isWall s.map (player.tryMove s.map dx dy).x (player.tryMove s.map dx dy).y = false :=
    fun _ dx dy h => isWall_tryMove dx dy h
  simp only [Player.step]
  split
  next =>
    refine hmove _ _ _ ?_
    split
    next => exact hmove _ _ _ hout
    next => exact hout
  next =>
    split
    next => exact hmove _ _ _ hout
    next => exact hout

omit [IsStrictOrderedRing K] in
theorem keepsOut_hitEnemy {s : Estado K} {idx : ℕ} {e : Enemy K}
    (he : s.entities[idx]? = some (.enemy e)) : KeepsOut s (hitEnemy s idx e) := by
  have hset : ∀ e' : Enemy K, e'.x = e.x → e'.y = e.y →
      List.Forall₂ (StaysOut s.map) s.entities (s.entities.set idx (.enemy e')) := by
    intro e' hx hy
    refine forall₂_set (StaysOut.refl s.map) he ?_
    intro hout
    rw [hx, hy]
    exact hout
  rw [hitEnemy]
  split
  next => exact SamePlace.keepsOut ⟨rfl, rfl, rfl, rfl⟩ (hset _ rfl rfl)
  next => exact SamePlace.keepsOut ⟨rfl, rfl, rfl, rfl⟩ (hset _ rfl rfl)

theorem keepsOut_fire (M : JsMath K) (s : Estado K) : KeepsOut s (fire M s).1 := by
  have hsame : ∀ s' : Estado K, SamePlace s s' → s'.entities = s.entities → KeepsOut s s' := by
    intro s' hplace hentities
    refine hplace.keepsOut ?_
    rw [hentities]
    exact List.forall₂_same.mpr fun e _ => StaysOut.refl s.map e
  rw [fire]
  split
  next => exact KeepsOut.refl s
  next =>
    split
    next => exact KeepsOut.refl s
    next =>
      split
      next => exact hsame _ ⟨rfl, rfl, rfl, rfl⟩ rfl
      next =>
        have hshoot : KeepsOut s (shoot s) := hsame _ ⟨rfl, rfl, rfl, rfl⟩ rfl
        simp only
        split
        next => exact hsame _ ⟨rfl, rfl, rfl, rfl⟩ rfl
        next idx _ =>
          split
          next e he => exact hshoot.trans (keepsOut_hitEnemy he)
          next => exact hshoot

omit [IsStrictOrderedRing K] in
theorem keepsOut_update (M : JsMath K) (s : Estado K) (dt : K) : KeepsOut s (update M s dt) := by
  have hcool : KeepsOut s (cool dt s) :=
    ⟨rfl, id, List.forall₂_same.mpr fun e _ => StaysOut.refl s.map e⟩
  have henemies : KeepsOut (cool dt s) ((cool dt s).forEntities (visitEnemy M dt)) := by
    obtain ⟨hplace, hall⟩ := forEntities_forall₂ (cool dt s) (samePlace_visitEnemy M dt)
      fun t e ht => by
        have hout := staysOut_visitEnemy M dt t e
        rwa [ht.map] at hout
    exact hplace.keepsOut hall
  have hpickups : ∀ t : Estado K, KeepsOut t (tryCollect M t) := by
    intro t
    obtain ⟨hplace, hall⟩ := forEntities_forall₂ t (samePlace_visitPickup M)
      fun t' e _ => staysOut_visitPickup M t.map t' e
    exact hplace.keepsOut hall
  have hsettle : ∀ t : Estado K, KeepsOut t (settle t) := by
    intro t
    have hrefl : List.Forall₂ (StaysOut t.map) t.entities t.entities :=
      List.forall₂_same.mpr fun e _ => StaysOut.refl t.map e
    rw [settle]
    split
    next => exact ⟨rfl, id, hrefl⟩
    next =>
      split
      next => exact ⟨rfl, id, hrefl⟩
      next => exact KeepsOut.refl t
  exact (hcool.trans henemies).trans ((hpickups _).trans (hsettle _))

theorem keepsOut_call (M : JsMath K) (s : Estado K) (c : Chamada K) : KeepsOut s (call M s c) := by
  cases c with
  | step input dt => exact keepsOut_step M s input dt
  | fire => exact keepsOut_fire M s
  | update dt => exact keepsOut_update M s dt

/-! ## Runs -/

omit [LinearOrder K] [IsStrictOrderedRing K] [FloorRing K] in
theorem balanced_createDemo : Balanced (createDemo : Estado K) createDemo.entities where
  health := ⟨show (0 : ℤ) ≤ 100 by decide, show (100 : ℤ) ≤ 100 by decide⟩
  armor := ⟨show (0 : ℤ) ≤ 0 by decide, show (0 : ℤ) ≤ 100 by decide⟩
  ammo := show (0 : ℤ) ≤ 20 by decide
  shots := rfl
  kills := rfl
  dead := by simp [createDemo, spawnDemo, Entity.DeadIffSpent]
  pickups := rfl
  hits := show (0 : ℤ) ≤ 0 by decide
  sensible := by simp [createDemo, spawnDemo, Entity.Sensible]

/-- The player starts outside the walls. -/
theorem isWall_start : isWall (makeDemoMap : GameMap K) 2.5 2.5 = false := by
  have hfloor : ⌊(2.5 : K)⌋ = 2 := by
    rw [Int.floor_eq_iff]
    norm_num
  rw [isWall, hfloor]
  rfl

theorem Run.balanced {law : JsMath K → Prop} {s : Estado K} (h : Run law createDemo s) :
    Balanced s s.entities := by
  induction h with
  | refl => exact balanced_createDemo
  | tail M c _ _ _ ih => exact ih.call M c

theorem Run.keepsOut {law : JsMath K → Prop} {s s' : Estado K} (h : Run law s s') :
    KeepsOut s s' := by
  induction h with
  | refl => exact KeepsOut.refl s
  | tail M c _ _ _ ih => exact ih.trans (keepsOut_call M _ c)

theorem Run.player_out {law : JsMath K → Prop} {s : Estado K} (h : Run law createDemo s) :
    isWall s.map s.player.x s.player.y = false := h.keepsOut.player isWall_start

theorem Run.trans {law : JsMath K → Prop} {s s' s'' : Estado K} (h : Run law s s')
    (h' : Run law s' s'') : Run law s s'' := by
  induction h' with
  | refl => exact h
  | tail M c _ hlaw hdt ih => exact ih.tail M c hlaw hdt

/-- In every state of every run the player is on the map and outside the walls and the books are
balanced; and an enemy outside the walls at one point of a run is outside them from then on. -/
theorem run_invariant {law : JsMath K → Prop} {s s' : Estado K} (hs : Run law createDemo s)
    (hs' : Run law s s') :
    isWall s'.map s'.player.x s'.player.y = false ∧
    (0 ≤ s'.player.x ∧ s'.player.x < s'.map.width ∧ 0 ≤ s'.player.y ∧
      s'.player.y < s'.map.height) ∧
    Balanced s' s'.entities ∧
    ∀ (i : ℕ) (e : Enemy K), s.entities[i]? = some (.enemy e) → isWall s.map e.x e.y = false →
      ∃ e' : Enemy K, s'.entities[i]? = some (.enemy e') ∧ isWall s'.map e'.x e'.y = false := by
  have hrun := hs.trans hs'
  refine ⟨hrun.player_out, isWall_eq_false_bounds hrun.player_out, hrun.balanced, ?_⟩
  intro i e hi hout
  have hkeeps := hs'.keepsOut
  obtain ⟨hlt, hget⟩ := List.getElem?_eq_some_iff.mp hi
  have hlt' : i < s'.entities.length := by rwa [← hkeeps.entities.length_eq]
  have hstays := hkeeps.entities.get hlt hlt'
  rw [List.get_eq_getElem, List.get_eq_getElem, hget] at hstays
  cases he' : s'.entities[i] with
  | pickup p =>
      rw [he'] at hstays
      exact hstays.elim
  | enemy e' =>
      rw [he'] at hstays
      refine ⟨e', by rw [List.getElem?_eq_getElem hlt', he'], ?_⟩
      rw [hkeeps.map]
      exact hstays hout

/-- After a shot and an update. -/
theorem run_invariant_shot :
    let s := update realMath (fire realMath createDemo).1 0.05
    isWall s.map s.player.x s.player.y = false ∧
    (0 ≤ s.player.x ∧ s.player.x < s.map.width ∧ 0 ≤ s.player.y ∧ s.player.y < s.map.height) ∧
    Balanced s s.entities ∧
    ∃ e : Enemy ℝ, s.entities[0]? = some (.enemy e) ∧ isWall s.map e.x e.y = false := by
  have hshot : Run (fun _ => True) (createDemo : Estado ℝ) (fire realMath createDemo).1 :=
    .tail realMath .fire .refl trivial le_rfl
  have hrun : Run (fun _ => True) (createDemo : Estado ℝ)
      (update realMath (fire realMath createDemo).1 0.05) :=
    .tail realMath (.update 0.05) hshot trivial (show (0 : ℝ) ≤ 0.05 by norm_num)
  obtain ⟨hplayer, hbounds, hbooks, henemy⟩ := run_invariant Run.refl hrun
  refine ⟨hplayer, hbounds, hbooks, henemy 0 _ rfl ?_⟩
  have hx : ⌊(6.5 : ℝ)⌋ = 6 := by
    rw [Int.floor_eq_iff]
    norm_num
  have hy : ⌊(2.5 : ℝ)⌋ = 2 := by
    rw [Int.floor_eq_iff]
    norm_num
  rw [isWall, hx, hy]
  rfl

end GatoCore.Doom
