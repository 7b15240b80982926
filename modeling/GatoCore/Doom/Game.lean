import GatoCore.Doom.World

/-!
# The state of the demo and what changes it

Source: `wrapAngle` and `angleDiff` of `samples/doom_ptjs/src/bootstrap/core.ptjs`, `create` and
`step` of `game/player.ptjs`, `spawnDemo`, `collectPickup`, `tryCollect`, `updateEnemy`,
`pickTarget`, `fire` and `update` of `game/entities.ptjs` and `createDemo` of `game/state.ptjs`.

Health, armor, ammunition, hit points and the statistics are integers in every state; positions,
angles and times are elements of the field. Sounds, the frame counter, the metrics and what only the
renderer reads are left out.
-/

namespace GatoCore.Doom

variable {K : Type} [Field K] [LinearOrder K] [IsStrictOrderedRing K] [FloorRing K]

/-! ## Angles of `doom.util` -/

def JsMath.tau (M : JsMath K) : K := M.PI * 2

theorem JsMath.tau_pos (M : JsMath K) : 0 < M.tau := mul_pos M.pi_pos two_pos

/-- Each turn of a loop brings its distance to the bound one `tau` down. -/
theorem turns_lt {gap tau : K} (hgap : 0 < gap) (htau : 0 < tau) :
    ⌈(gap - tau) / tau⌉.toNat < ⌈gap / tau⌉.toNat := by
  have hdiv : (gap - tau) / tau = gap / tau - 1 := by
    field_simp
  have hpos : 0 < ⌈gap / tau⌉ := Int.ceil_pos.mpr (div_pos hgap htau)
  rw [hdiv, Int.ceil_sub_one]
  omega

/-- The first loop of `wrapAngle`. -/
def wrapUp {K : Type} [Field K] [LinearOrder K] [IsStrictOrderedRing K] [FloorRing K]
    (M : JsMath K) (angle : K) : K :=
  if angle < -M.PI then wrapUp M (angle + M.tau) else angle
termination_by ⌈(-M.PI - angle) / M.tau⌉.toNat
decreasing_by
  have hgap : 0 < -M.PI - angle := sub_pos.mpr ‹_›
  have hnext : -M.PI - (angle + M.tau) = -M.PI - angle - M.tau := by ring
  rw [hnext]
  exact turns_lt hgap M.tau_pos

/-- The second loop of `wrapAngle`. -/
def wrapDown {K : Type} [Field K] [LinearOrder K] [IsStrictOrderedRing K] [FloorRing K]
    (M : JsMath K) (angle : K) : K :=
  if angle > M.PI then wrapDown M (angle - M.tau) else angle
termination_by ⌈(angle - M.PI) / M.tau⌉.toNat
decreasing_by
  have hgap : 0 < angle - M.PI := sub_pos.mpr ‹_›
  have hnext : angle - M.tau - M.PI = angle - M.PI - M.tau := by ring
  rw [hnext]
  exact turns_lt hgap M.tau_pos

def wrapAngle (M : JsMath K) (angle : K) : K := wrapDown M (wrapUp M angle)

def angleDiff (M : JsMath K) (target source : K) : K := wrapAngle M (target - source)

/-! ## The data -/

structure Player (K : Type) where
  x : K
  y : K
  angle : K
  move_speed : K
  turn_speed : K
  strafe_speed : K
  health : ℤ
  armor : ℤ
  ammo : ℤ
  cooldown : K

inductive Subtype where
  | medkit
  | ammo
  | armor
deriving DecidableEq, Repr

/-- An entity of kind `enemy`. -/
structure Enemy (K : Type) where
  id : String
  x : K
  y : K
  hp : ℤ
  speed : K
  damage : ℤ
  alive : Bool
  cooldown : K
  /-- Set by the first update. -/
  angle : Option K

/-- An entity of kind `pickup`. -/
structure Pickup (K : Type) where
  id : String
  subtype : Subtype
  x : K
  y : K
  amount : ℤ
  alive : Bool

inductive Entity (K : Type) where
  | enemy (e : Enemy K)
  | pickup (p : Pickup K)

inductive Mode where
  | title
  | playing
  | game_over
  | victory
deriving DecidableEq, Repr

structure Stats where
  kills : ℤ
  total_kills : ℤ
  pickups : ℤ
  total_pickups : ℤ
  shots : ℤ
  hits : ℤ
deriving DecidableEq, Repr

structure Estado (K : Type) where
  map : GameMap K
  player : Player K
  entities : List (Entity K)
  mode : Mode
  message : String
  weapon_flash : ℤ
  weapon_kick : ℤ
  damage_flash : ℤ
  stats : Stats

def Player.create (map : GameMap K) : Player K where
  x := map.start_x
  y := map.start_y
  angle := map.start_angle
  move_speed := 2.4
  turn_speed := 1.8
  strafe_speed := 1.6
  health := 100
  armor := 0
  ammo := 20
  cooldown := 0

def spawnDemo : List (Entity K) :=
  [.enemy ⟨"imp_a", 6.5, 2.5, 30, 0.78, 5, true, 0, none⟩,
   .enemy ⟨"imp_b", 10.5, 6.5, 32, 0.72, 6, true, 0, none⟩,
   .enemy ⟨"imp_c", 11.5, 11.5, 36, 0.70, 7, true, 0, none⟩,
   .pickup ⟨"medkit_a", .medkit, 5.5, 4.5, 25, true⟩,
   .pickup ⟨"ammo_a", .ammo, 8.5, 3.5, 8, true⟩,
   .pickup ⟨"armor_a", .armor, 11.5, 9.5, 20, true⟩]

def createDemo : Estado K where
  map := makeDemoMap
  player := Player.create makeDemoMap
  entities := spawnDemo
  mode := .playing
  message := "WASD move | Q/E strafe | ESPACO atira | M mapa | X sai"
  weapon_flash := 0
  weapon_kick := 0
  damage_flash := 0
  stats := ⟨0, 3, 0, 3, 0, 0⟩

/-! ## `doom.player` -/

/-- The keys of a turn; one that is absent is 0. -/
structure Input (K : Type) where
  forward : K
  backward : K
  strafe_right : K
  strafe_left : K
  turn_right : K
  turn_left : K

/-- `tryMove` of a player. -/
def Player.tryMove (player : Player K) (map : GameMap K) (dx dy : K) : Player K :=
  let place := Doom.tryMove map player.x player.y dx dy
  { player with x := place.1, y := place.2 }

def Player.step (M : JsMath K) (player : Player K) (map : GameMap K) (input : Input K) (dt : K) :
    Player K :=
  let forward := input.forward - input.backward
  let strafe := input.strafe_right - input.strafe_left
  let turn := input.turn_right - input.turn_left
  let moveStep := player.move_speed * dt
  let strafeStep := player.strafe_speed * dt
  let player := { player with angle := player.angle + turn * player.turn_speed * dt }
  let player :=
    if forward ≠ 0 then
      player.tryMove map (M.cos player.angle * moveStep * forward)
        (M.sin player.angle * moveStep * forward)
    else player
  let player :=
    if strafe ≠ 0 then
      player.tryMove map (M.cos (player.angle + M.PI / 2) * strafeStep * strafe)
        (M.sin (player.angle + M.PI / 2) * strafeStep * strafe)
    else player
  { player with angle := wrapAngle M player.angle }

/-! ## `doom.entities` -/

def Entity.isAliveEnemy : Entity K → Bool
  | .enemy e => e.alive
  | .pickup _ => false

def aliveEnemies (s : Estado K) : List (Entity K) := s.entities.filter Entity.isAliveEnemy

def collectPickup (s : Estado K) (p : Pickup K) : Estado K × Pickup K :=
  if p.alive then
    let s := { s with stats := { s.stats with pickups := s.stats.pickups + 1 } }
    let s :=
      match p.subtype with
      | .medkit =>
          { s with
            player := { s.player with health := clamp (s.player.health + p.amount) 0 100 }
            message := "Medkit + " ++ toString p.amount }
      | .ammo =>
          { s with
            player := { s.player with ammo := s.player.ammo + p.amount }
            message := "Municao + " ++ toString p.amount }
      | .armor =>
          { s with
            player := { s.player with armor := clamp (s.player.armor + p.amount) 0 100 }
            message := "Armadura + " ++ toString p.amount }
    (s, { p with alive := false })
  else (s, p)

/-- A loop over the entities: each may change itself and the rest of the state. -/
def eachEntity (visit : Estado K → Entity K → Estado K × Entity K) :
    Estado K → List (Entity K) → Estado K × List (Entity K)
  | s, [] => (s, [])
  | s, e :: es =>
      let (s, e) := visit s e
      let (s, es) := eachEntity visit s es
      (s, e :: es)

def Estado.forEntities (s : Estado K) (visit : Estado K → Entity K → Estado K × Entity K) :
    Estado K :=
  let r := eachEntity visit s s.entities
  { r.1 with entities := r.2 }

/-- The body of the loop of `tryCollect`. -/
def visitPickup (M : JsMath K) (s : Estado K) : Entity K → Estado K × Entity K
  | .pickup p =>
      if p.alive && decide (distance M s.player.x s.player.y p.x p.y < 0.65) then
        ((collectPickup s p).1, .pickup (collectPickup s p).2)
      else (s, .pickup p)
  | e => (s, e)

def tryCollect (M : JsMath K) (s : Estado K) : Estado K := s.forEntities (visitPickup M)

/-- The damage an enemy in reach does, and its pause after it. -/
def hurtPlayer (s : Estado K) (e : Enemy K) : Estado K × Enemy K :=
  let armorAbsorb := min s.player.armor (e.damage / 2)
  ({ s with
      player :=
        { s.player with
          armor := s.player.armor - armorAbsorb
          health := max 0 (s.player.health - (e.damage - armorAbsorb)) }
      damage_flash := 3
      message := "Voce sofreu " ++ toString (e.damage - armorAbsorb) ++ " de dano" },
    { e with cooldown := 1.15 })

/-- `tryMove` of an enemy. -/
def Enemy.tryMove (e : Enemy K) (map : GameMap K) (dx dy : K) : Enemy K :=
  let place := Doom.tryMove map e.x e.y dx dy
  { e with x := place.1, y := place.2 }

/-- The walk of an enemy that sees the player, at a distance and an angle. -/
def chase (M : JsMath K) (dt : K) (map : GameMap K) (dist angle : K) (e : Enemy K) : Enemy K :=
  if dist > 1.05 ∧ dist < 7.0 then
    e.tryMove map (M.cos angle * e.speed * dt) (M.sin angle * e.speed * dt)
  else e

def updateEnemy (M : JsMath K) (dt : K) (s : Estado K) (e : Enemy K) : Estado K × Enemy K :=
  let player := s.player
  let dist := distance M e.x e.y player.x player.y
  let angle := M.atan2 (player.y - e.y) (player.x - e.x)
  let e := { e with cooldown := max 0 (e.cooldown - dt), angle := some angle }
  if visibleLine M s.map e.x e.y player.x player.y then
    let e := chase M dt s.map dist angle e
    if dist ≤ 1.35 ∧ e.cooldown ≤ 0 then hurtPlayer s e else (s, e)
  else (s, e)

/-- The body of the loop of `update`. -/
def visitEnemy (M : JsMath K) (dt : K) (s : Estado K) : Entity K → Estado K × Entity K
  | .enemy e =>
      if e.alive then ((updateEnemy M dt s e).1, .enemy (updateEnemy M dt s e).2)
      else (s, .enemy e)
  | e => (s, e)

/-- The score of an entity as a target; `none` where the loop of `pickTarget` continues. -/
def targetScore (M : JsMath K) (s : Estado K) : Entity K → Option K
  | .enemy e =>
      if e.alive then
        let dx := e.x - s.player.x
        let dy := e.y - s.player.y
        let dist := M.sqrt (dx * dx + dy * dy)
        let angle := M.atan2 dy dx
        let delta := |angleDiff M angle s.player.angle|
        if delta > 0.22 then none
        else if visibleLine M s.map s.player.x s.player.y e.x e.y then some (delta * 10 + dist)
        else none
      else none
  | .pickup _ => none

/-- One turn of the loop: the best target so far, by its index, and its score. -/
def betterTarget (M : JsMath K) (s : Estado K) (best : Option (ℕ × K)) (e : Entity K × ℕ) :
    Option (ℕ × K) :=
  match targetScore M s e.1 with
  | none => best
  | some score =>
      match best with
      | none => some (e.2, score)
      | some (_, bestScore) => if score < bestScore then some (e.2, score) else best

def pickTarget (M : JsMath K) (s : Estado K) : Option ℕ :=
  (s.entities.zipIdx.foldl (betterTarget M s) none).map Prod.fst

/-- What a shot does to the target it hits. -/
def hitEnemy (s : Estado K) (idx : ℕ) (e : Enemy K) : Estado K :=
  let hp := e.hp - 40
  let stats := { s.stats with hits := s.stats.hits + 1 }
  if hp ≤ 0 then
    { s with
      entities := s.entities.set idx (.enemy { e with hp := hp, alive := false })
      stats := { stats with kills := stats.kills + 1 }
      message := "Inimigo abatido" }
  else
    { s with
      entities := s.entities.set idx (.enemy { e with hp := hp })
      stats := stats
      message := "Acerto confirmado" }

/-- The state after the trigger was pulled, before the target is known. -/
def shoot (s : Estado K) : Estado K :=
  { s with
    player := { s.player with ammo := s.player.ammo - 1, cooldown := 0.35 }
    weapon_flash := 2
    weapon_kick := 3
    stats := { s.stats with shots := s.stats.shots + 1 } }

def fire (M : JsMath K) (s : Estado K) : Estado K × Bool :=
  if s.mode ≠ .playing then (s, false)
  else if s.player.cooldown > 0 then (s, false)
  else if s.player.ammo ≤ 0 then ({ s with message := "Sem municao" }, false)
  else
    let s := shoot s
    match pickTarget M s with
    | none => ({ s with message := "Tiro errou" }, false)
    | some idx =>
        match s.entities[idx]? with
        | some (.enemy e) => (hitEnemy s idx e, true)
        | _ => (s, false)

/-- What `update` does before the loop over the enemies. -/
def cool (dt : K) (s : Estado K) : Estado K :=
  { s with
    player := { s.player with cooldown := max 0 (s.player.cooldown - dt) }
    weapon_flash := max 0 (s.weapon_flash - 1)
    weapon_kick := max 0 (s.weapon_kick - 1)
    damage_flash := max 0 (s.damage_flash - 1) }

/-- The end of `update`: whether the player died or reached the exit. -/
def settle (s : Estado K) : Estado K :=
  if s.player.health ≤ 0 then { s with mode := .game_over, message := "Voce morreu" }
  else if (aliveEnemies s).length = 0 ∧ isExit s.map s.player.x s.player.y then
    { s with mode := .victory, message := "Saida alcancada" }
  else s

def update (M : JsMath K) (s : Estado K) (dt : K) : Estado K :=
  settle (tryCollect M ((cool dt s).forEntities (visitEnemy M dt)))

/-! ## Runs -/

/-- A call of the game: `player.step` with the player and the map of the state, `entities.fire` or
`entities.update`. -/
inductive Chamada (K : Type) where
  | step (input : Input K) (dt : K)
  | fire
  | update (dt : K)

/-- The time a call lets pass. -/
def Chamada.dt : Chamada K → K
  | .step _ dt => dt
  | .fire => 0
  | .update dt => dt

def call (M : JsMath K) (s : Estado K) : Chamada K → Estado K
  | .step input dt => { s with player := s.player.step M s.map input dt }
  | .fire => (fire M s).1
  | .update dt => update M s dt

/-- What a run leads to, every call with functions of `Math` of its own that obey `law`: the
displacements of a call are any numbers then. -/
inductive Run (law : JsMath K → Prop) (s : Estado K) : Estado K → Prop where
  | refl : Run law s s
  | tail {s' : Estado K} (M : JsMath K) (c : Chamada K) :
      Run law s s' → law M → 0 ≤ c.dt → Run law s (call M s' c)

end GatoCore.Doom
