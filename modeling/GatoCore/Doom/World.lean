import Mathlib.Algebra.Order.Floor.Ring
import Mathlib.Algebra.Order.Field.Basic
import Mathlib.Tactic.Linarith
import Mathlib.Tactic.NormNum
import Mathlib.Tactic.Ring
import Mathlib.Tactic.FieldSimp

/-!
# The map of the demo

Source: `doom.util.clamp` and `distance` of `samples/doom_ptjs/src/bootstrap/core.ptjs`,
`makeDemoMap`, `cell`, `isWall` and `isExit` of `game/world.ptjs`, `tryMove` of `game/player.ptjs`
and `visibleLine` of `game/entities.ptjs`.

Numbers are exact: the elements of an ordered field with a floor. The functions of `Math` that are
not field operations are a `JsMath`; nothing is assumed of them but a positive `PI`, and what a
result needs of the square root is `JsMath.ExactSqrt`.
-/

namespace GatoCore.Doom

variable {K : Type} [Field K] [LinearOrder K] [IsStrictOrderedRing K] [FloorRing K]

/-- The object `Math`, as far as it is used. -/
structure JsMath (K : Type) [Zero K] [LT K] where
  PI : K
  cos : K → K
  sin : K → K
  atan2 : K → K → K
  sqrt : K → K
  pi_pos : 0 < PI

/-- The square root is one. -/
structure JsMath.ExactSqrt (M : JsMath K) : Prop where
  nonneg : ∀ x, 0 ≤ M.sqrt x
  mul_self : ∀ x, 0 ≤ x → M.sqrt x * M.sqrt x = x

/-! ## `doom.util` -/

def clamp {α : Type} [Max α] [Min α] (value min max : α) : α := Max.max min (Min.min max value)

def distance (M : JsMath K) (x1 y1 x2 y2 : K) : K :=
  let dx := x2 - x1
  let dy := y2 - y1
  M.sqrt (dx * dx + dy * dy)

/-! ## `doom.world` -/

structure GameMap (K : Type) where
  width : ℤ
  height : ℤ
  rows : List (List Char)
  start_x : K
  start_y : K
  start_angle : K
  exit_x : K
  exit_y : K

def demoRows : List (List Char) :=
  ["################".toList,
   "#..............#".toList,
   "#..............#".toList,
   "#...##.........#".toList,
   "#..............#".toList,
   "#......##......#".toList,
   "#..............#".toList,
   "#...........>..#".toList,
   "#..............#".toList,
   "#......##......#".toList,
   "#..............#".toList,
   "#.........##...#".toList,
   "#..............#".toList,
   "#..............#".toList,
   "#..............#".toList,
   "################".toList]

def makeDemoMap : GameMap K where
  width := 16
  height := 16
  rows := demoRows
  start_x := 2.5
  start_y := 2.5
  start_angle := 0
  exit_x := 12.5
  exit_y := 7.5

/-- `none` is `undefined`. -/
def GameMap.cell (map : GameMap K) (x y : ℤ) : Option Char :=
  if x < 0 ∨ y < 0 ∨ x ≥ map.width ∨ y ≥ map.height then some '#'
  else (map.rows[y.toNat]?).bind fun row => row[x.toNat]?

def isWall (map : GameMap K) (x y : K) : Bool := map.cell ⌊x⌋ ⌊y⌋ == some '#'

def isExit (map : GameMap K) (x y : K) : Bool := map.cell ⌊x⌋ ⌊y⌋ == some '>'

/-- `tryMove` for whatever stands at a position: one axis, then the other from where that led. -/
def tryMove (map : GameMap K) (x y dx dy : K) : K × K :=
  let nextX := x + dx
  let nextY := y + dy
  let x := if isWall map nextX y then x else nextX
  let y := if isWall map x nextY then y else nextY
  (x, y)

/-- How many samples of the line `visibleLine` takes, one more than it looks at. -/
def lineSteps (M : JsMath K) (x1 y1 x2 y2 : K) : ℕ :=
  (max 1 ⌈distance M x1 y1 x2 y2 / 0.10⌉).toNat

def visibleLine (M : JsMath K) (map : GameMap K) (x1 y1 x2 y2 : K) : Bool :=
  let steps := lineSteps M x1 y1 x2 y2
  (List.range' 1 (steps - 1)).all fun idx =>
    let ratio : K := idx / steps
    !isWall map (x1 + (x2 - x1) * ratio) (y1 + (y2 - y1) * ratio)

/-! ## Walls -/

omit [IsStrictOrderedRing K] in
/-- Whatever is not in a wall is on the map. -/
theorem isWall_eq_false_bounds {map : GameMap K} {x y : K} (h : isWall map x y = false) :
    0 ≤ x ∧ x < map.width ∧ 0 ≤ y ∧ y < map.height := by
  rw [isWall, GameMap.cell] at h
  split at h
  next => cases h
  next hin =>
    push Not at hin
    obtain ⟨hx, hy, hw, hh⟩ := hin
    exact ⟨Int.floor_nonneg.mp hx, Int.floor_lt.mp hw, Int.floor_nonneg.mp hy, Int.floor_lt.mp hh⟩

omit [IsStrictOrderedRing K] in
/-- A move never enters a wall. -/
theorem isWall_tryMove {map : GameMap K} {x y : K} (dx dy : K) (h : isWall map x y = false) :
    isWall map (tryMove map x y dx dy).1 (tryMove map x y dx dy).2 = false := by
  -- the first axis, then the second one from where the first one led
  have hfirst : ∀ x', (x' = if isWall map (x + dx) y then x else x + dx) →
      isWall map x' y = false := by
    intro x' hx'
    subst hx'
    split
    next => exact h
    next hfree => exact Bool.eq_false_iff.mpr hfree
  have hsecond : ∀ x', isWall map x' y = false →
      isWall map x' (if isWall map x' (y + dy) then y else y + dy) = false := by
    intro x' hx'
    split
    next => exact hx'
    next hfree => exact Bool.eq_false_iff.mpr hfree
  exact hsecond _ (hfirst _ rfl)

end GatoCore.Doom
