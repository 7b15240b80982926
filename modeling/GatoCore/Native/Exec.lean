import Mathlib.Computability.StateTransition
import GatoCore.Native.IR

/-!
# Executing the intermediate representation

A unit runs as a small-step machine: a stack of activations, each with its own temps and local
slots, and the state of the C runtime. The C runtime is a parameter (`Runtime`): its values, its
memory together with everything it has printed, and its functions. Reading a temp or a slot that
was never written, dividing by zero and calling a symbol that does not exist have no step.

The step function takes the place where each temp lives as a parameter. With every temp its own
place it is the meaning of the IR; with the places chosen by the register allocator it is the
meaning of the allocated code.
-/

namespace GatoCore.Native

/-- A machine integer. -/
abbrev Word := BitVec 64

/-- A constant of the program text: what a data label stands for. -/
inductive Const where
  | imm (type : Ty) (value : ℕ)
  | text (value : String)
  | list (itemType : Ty) (items : List Const)

/-- The C runtime as the generated code sees it. `World` is its memory and everything printed so
far; a call that does not return has no result. -/
structure Runtime where
  Value : Type
  World : Type
  /-- An integer, a boolean, the null value or a null pointer. -/
  ofWord : Word → Value
  /-- The bits of a value, where it is one of those. -/
  toWord : Value → Option Word
  toWord_ofWord : ∀ w, toWord (ofWord w) = some w
  /-- The address of a text constant. -/
  text : String → Value
  /-- The address of a list constant. -/
  list : Ty → List Const → Value
  call : RuntimeFn → List Value → World → Option (Value × World)

/-! ## Constants -/

/-- What a constant stands for, following at most `n` list labels. -/
def ConstTables.resolve (tables : ConstTables) : ℕ → ConstValue → Option Const
  | _, ⟨type, .imm value⟩ => some (.imm type value)
  | _, ⟨_, .label (.str i)⟩ => tables.stringList[i]?.map .text
  | 0, ⟨_, .label (.arr _)⟩ => none
  | n + 1, ⟨_, .label (.arr i)⟩ =>
      tables.arrayList[i]?.bind fun entry =>
        (entry.items.mapM (tables.resolve n)).map (.list entry.itemType)

/-- The address of a data label. -/
def Runtime.address (R : Runtime) (tables : ConstTables) : DataLabel → Option R.Value
  | .str i => tables.stringList[i]?.map R.text
  | .arr i =>
      tables.arrayList[i]?.bind fun entry =>
        (entry.items.mapM (tables.resolve tables.arrayList.length)).map (R.list entry.itemType)

/-! ## Arithmetic -/

def wordOfBool (b : Bool) : Word := if b then 1 else 0

/-- A `bin` instruction on words. -/
def BinOp.eval : BinOp → Word → Word → Option Word
  | .add, a, b => some (a + b)
  | .sub, a, b => some (a - b)
  | .mul, a, b => some (a * b)
  | .div, a, b => if b = 0 then none else some (a.sdiv b)
  | .mod, a, b => if b = 0 then none else some (a.srem b)
  | .and, a, b => some (wordOfBool (a ≠ 0 && b ≠ 0))
  | .or, a, b => some (wordOfBool (a ≠ 0 || b ≠ 0))

/-- A `cmp` instruction on words, signed. -/
def CmpOp.eval : CmpOp → Word → Word → Bool
  | .eq, a, b => a = b
  | .ne, a, b => a ≠ b
  | .lt, a, b => a.slt b
  | .le, a, b => a.sle b
  | .gt, a, b => b.slt a
  | .ge, a, b => b.sle a

/-! ## Configurations -/

/-- One activation; `L` is the type of the places temps live in. -/
structure Frame (R : Runtime) (L : Type) where
  fn : IRFunction
  pc : ℕ
  temps : L → Option R.Value
  locals : ℕ → Option R.Value

inductive Config (R : Runtime) (L : Type) where
  | running (frames : List (Frame R L)) (world : R.World)
  | finished (value : R.Value) (world : R.World)

/-- The place of each temp of a function. -/
abbrev Placement (L : Type) := IRFunction → ℕ → Option L

/-- Every temp is a place of its own. -/
def tempPlacement : Placement ℕ := fun _ t => some t

section Step

variable {R : Runtime} {L : Type} [DecidableEq L] (place : Placement L)

def Frame.read (f : Frame R L) (t : ℕ) : Option R.Value :=
  (place f.fn t).bind f.temps

def Frame.readAll (f : Frame R L) (ts : List ℕ) : Option (List R.Value) :=
  ts.mapM (f.read place)

def Frame.readWord (f : Frame R L) (t : ℕ) : Option Word :=
  (f.read place t).bind R.toWord

/-- Write a temp and go on with the next instruction. -/
def Frame.define (f : Frame R L) (t : ℕ) (v : R.Value) : Option (Frame R L) :=
  (place f.fn t).map fun l =>
    { f with pc := f.pc + 1, temps := Function.update f.temps l (some v) }

def Frame.next (f : Frame R L) : Frame R L := { f with pc := f.pc + 1 }

/-- Continue at a label. -/
def Frame.jump (f : Frame R L) (label : Label) : Option (Frame R L) :=
  (labelIndex f.fn.instructions label).map fun i => { f with pc := i }

/-- A map filled entry by entry holds what it held before or one of the entries. -/
theorem foldl_update_eq_some {α β γ : Type} [DecidableEq α] (key : γ → α) (val : γ → β) {x : α}
    {v : β} : ∀ (ps : List γ) (m : α → Option β),
      ps.foldl (fun m p => Function.update m (key p) (some (val p))) m x = some v →
      m x = some v ∨ ∃ p ∈ ps, key p = x ∧ val p = v
  | [], m, h => .inl h
  | p :: ps, m, h => by
      rcases foldl_update_eq_some key val ps _ h with hupd | ⟨q, hq, hkey, hval⟩
      · dsimp only at hupd
        by_cases hx : x = key p
        · subst hx
          rw [Function.update_self] at hupd
          exact .inr ⟨p, List.mem_cons_self, rfl, Option.some.inj hupd⟩
        · rw [Function.update_of_ne hx] at hupd
          exact .inl hupd
      · exact .inr ⟨q, List.mem_cons_of_mem _ hq, hkey, hval⟩

/-- The local slots at function entry: each argument is in the slot of its parameter. -/
def entryLocals (params : List Local) (args : List R.Value) : ℕ → Option R.Value :=
  (params.zip args).foldl (fun m p => Function.update m p.1.slot (some p.2)) fun _ => none

def entryFrame (fn : IRFunction) (args : List R.Value) : Frame R L :=
  { fn := fn, pc := 0, temps := fun _ => none, locals := entryLocals fn.params args }

def IRUnit.lookup (unit : IRUnit) (symbol : Symbol) : Option IRFunction :=
  unit.functions.find? (·.symbol = symbol)

/-- The right operand of a `cmp`. -/
def Frame.readRight (f : Frame R L) : CmpRight → Option Word
  | .imm value => some (BitVec.ofNat 64 value)
  | .temp t => f.readWord place t

/-- A value returned to the activation below. -/
def returnTo (v : R.Value) (w : R.World) : List (Frame R L) → Option (Config R L)
  | [] => some (.finished v w)
  | caller :: rest =>
      match caller.fn.instructions[caller.pc]? with
      | some (.call dest _ _ _) =>
          (caller.define place dest v).map fun f => .running (f :: rest) w
      | _ => none

/-- The effect of one instruction on the activation `f` above `rest`. -/
def execInstr (unit : IRUnit) (f : Frame R L) (rest : List (Frame R L)) (w : R.World) :
    Instr → Option (Config R L)
  | .constInt dest value _ => do
      let f ← f.define place dest (R.ofWord (BitVec.ofNat 64 value))
      return .running (f :: rest) w
  | .constStr dest label => do
      let f ← f.define place dest (← R.address unit.consts label)
      return .running (f :: rest) w
  | .constPtr dest label _ => do
      let f ← f.define place dest (← R.address unit.consts label)
      return .running (f :: rest) w
  | .loadLocal dest slot _ => do
      let f ← f.define place dest (← f.locals slot)
      return .running (f :: rest) w
  | .storeLocal slot _ value => do
      let v ← f.read place value
      return .running ({ f.next with locals := Function.update f.locals slot (some v) } :: rest) w
  | .neg dest value => do
      let f ← f.define place dest (R.ofWord (-(← f.readWord place value)))
      return .running (f :: rest) w
  | .not dest value => do
      let f ← f.define place dest (R.ofWord (wordOfBool ((← f.readWord place value) = 0)))
      return .running (f :: rest) w
  | .bin dest bin left right => do
      let v ← bin.eval (← f.readWord place left) (← f.readWord place right)
      let f ← f.define place dest (R.ofWord v)
      return .running (f :: rest) w
  | .cmp dest cmp left right => do
      let v := cmp.eval (← f.readWord place left) (← f.readRight place right)
      let f ← f.define place dest (R.ofWord (wordOfBool v))
      return .running (f :: rest) w
  | .call _ symbol args _ => do
      let args ← f.readAll place args
      let fn ← unit.lookup symbol
      return .running (entryFrame fn args :: f :: rest) w
  | .callRuntime dest symbol args _ => do
      let (v, w) ← R.call symbol (← f.readAll place args) w
      let f ← f.define place dest v
      return .running (f :: rest) w
  | .print value valueType => do
      let (_, w) ← R.call (.print valueType) [← f.read place value] w
      return .running (f.next :: rest) w
  | .label _ => some (.running (f.next :: rest) w)
  | .jmp label => do
      let f ← f.jump label
      return .running (f :: rest) w
  | .br cond thenLabel elseLabel => do
      let f ← f.jump (if (← f.readWord place cond) ≠ 0 then thenLabel else elseLabel)
      return .running (f :: rest) w
  | .ret value _ => do
      let v ← f.read place value
      returnTo place v w rest

/-- One step of a unit. -/
def step (unit : IRUnit) : Config R L → Option (Config R L)
  | .finished _ _ => none
  | .running [] _ => none
  | .running (f :: rest) w =>
      (f.fn.instructions[f.pc]?).bind (execInstr place unit f rest w)

end Step

/-- The start of a unit: the entry of `main`, the last function `lowerProgram` pushes. -/
def initialConfig {R : Runtime} {L : Type} (unit : IRUnit) (w : R.World) :
    Option (Config R L) :=
  unit.functions.getLast?.map fun fn => .running [entryFrame fn []] w

/-- Exactly `n` steps. -/
def runSteps {R : Runtime} {L : Type} [DecidableEq L] (place : Placement L) (unit : IRUnit) :
    ℕ → Config R L → Option (Config R L)
  | 0, c => some c
  | n + 1, c => (step place unit c).bind (runSteps place unit n)

section Runs

open StateTransition

variable {R : Runtime} {L : Type} [DecidableEq L] {place : Placement L} {unit : IRUnit}

theorem reaches_of_finished {v : R.Value} {w : R.World} {c : Config R L}
    (h : Reaches (step place unit) (.finished v w) c) : c = .finished v w := by
  rcases Relation.ReflTransGen.cases_head h with rfl | ⟨c', hc', -⟩
  · rfl
  · cases hc'

/-- A unit runs to one end. -/
theorem finished_unique {c : Config R L} {v v' : R.Value} {w w' : R.World}
    (h : Reaches (step place unit) c (.finished v w))
    (h' : Reaches (step place unit) c (.finished v' w')) :
    Config.finished v w = (.finished v' w' : Config R L) := by
  rcases reaches_total h h' with hrun | hrun
  · exact (reaches_of_finished hrun).symm
  · exact reaches_of_finished hrun

end Runs

end GatoCore.Native
