import Mathlib.Data.List.Sort
import GatoCore.Native.IR

/-!
# Register allocation

Source: `allocateTemps`, `snippets/alloc/register_classes.json` and
`snippets/asm/callconv_sysv_amd64.json`.

A linear scan: the live range of a temp is the stretch of the instruction list from its first to
its last occurrence, and the ranges are visited in the order of their starts. A range that finds
no free register either takes the register of the active range that ends last, which moves to a
spill slot, or is spilled itself.
-/

namespace GatoCore.Native

/-! ## Registers -/

/-- The general registers the generated code names; `rbp` and `rsp` only address the stack. -/
inductive Reg where
  | rax
  | rbx
  | rcx
  | rdx
  | rsi
  | rdi
  | r8
  | r9
  | r12
  | r13
  | r14
  | r15
deriving DecidableEq, Repr

/-- `registers.allocatable`. -/
def allocatable : List Reg := [.rbx, .r12, .r13, .r14, .r15]

/-- `registers.callee_saved`. -/
def calleeSaved : List Reg := [.rbx, .r12, .r13, .r14, .r15]

/-- `callconv.arg_regs`. -/
def argRegs : List Reg := [.rdi, .rsi, .rdx, .rcx, .r8, .r9]

/-- Where a temp lives. -/
inductive Location where
  | reg (name : Reg)
  | spill (slot : ℕ)
deriving DecidableEq, Repr

/-! ## Live ranges -/

/-- The tables `starts` and `ends`. -/
structure Ranges where
  starts : ℕ → Option ℕ
  ends : ℕ → Option ℕ

/-- Set an entry that is undefined. -/
def setUndefined (table : ℕ → Option ℕ) (t idx : ℕ) : ℕ → Option ℕ :=
  fun u => if u = t then (table u).or (some idx) else table u

def Ranges.addDef (idx : ℕ) (r : Ranges) (t : ℕ) : Ranges :=
  { starts := setUndefined r.starts t idx, ends := setUndefined r.ends t idx }

def Ranges.addUse (idx : ℕ) (r : Ranges) (t : ℕ) : Ranges :=
  { starts := setUndefined r.starts t idx, ends := Function.update r.ends t (some idx) }

/-- The body of the loop over the instructions. -/
def Ranges.addInstr (r : Ranges) (idx : ℕ) (inst : Instr) : Ranges :=
  (tempUses inst).foldl (Ranges.addUse idx) ((tempDefs inst).foldl (Ranges.addDef idx) r)

def liveRanges (code : List Instr) : Ranges :=
  code.zipIdx.foldl (fun r p => r.addInstr p.2 p.1)
    { starts := fun _ => none, ends := fun _ => none }

/-- An entry of `intervals`; `stop` is its field `end`. -/
structure Interval where
  temp : ℕ
  start : ℕ
  stop : ℕ
deriving DecidableEq, Repr

/-- The comparison `intervals` is sorted by. -/
def Interval.le (a b : Interval) : Prop :=
  if a.start ≠ b.start then a.start ≤ b.start else a.stop ≤ b.stop

instance : DecidableRel Interval.le := fun a b =>
  inferInstanceAs (Decidable (if a.start ≠ b.start then a.start ≤ b.start else a.stop ≤ b.stop))

/-- The range of a temp that occurs in the code; lowered code mentions all its temps. -/
def Ranges.interval (r : Ranges) (t : ℕ) : Option Interval := do
  return { temp := t, start := ← r.starts t, stop := ← r.ends t }

def intervals (fn : IRFunction) : List Interval :=
  ((List.range fn.tempTypes.length).filterMap (liveRanges fn.instructions).interval).insertionSort
    Interval.le

/-! ## The scan -/

/-- An entry of `active`; `stop` is its field `end`. -/
structure Active where
  temp : ℕ
  reg : Reg
  stop : ℕ
deriving DecidableEq, Repr

structure AllocState where
  freeRegs : List Reg
  active : List Active
  locations : ℕ → Option Location
  spillCount : ℕ

def sortActive (active : List Active) : List Active :=
  active.insertionSort fun a b => a.stop ≤ b.stop

namespace AllocState

def expireOld (st : AllocState) (current : Interval) : AllocState :=
  let active := sortActive st.active
  { st with
    freeRegs := st.freeRegs ++ (active.takeWhile (·.stop < current.start)).map (·.reg)
    active := active.dropWhile (·.stop < current.start) }

/-- `freeRegs.shift()` for the current interval. -/
def takeReg (st : AllocState) (current : Interval) (reg : Reg) (freeRegs : List Reg) :
    AllocState :=
  { st with
    freeRegs := freeRegs
    active := sortActive (st.active ++ [⟨current.temp, reg, current.stop⟩])
    locations := Function.update st.locations current.temp (some (.reg reg)) }

/-- The current interval takes the register of the victim, the last entry of `active`. -/
def evict (st : AllocState) (current : Interval) (victim : Active) : AllocState :=
  { st with
    active := sortActive ((sortActive st.active).dropLast ++
      [⟨current.temp, victim.reg, current.stop⟩])
    locations := Function.update (Function.update st.locations current.temp
      (some (.reg victim.reg))) victim.temp (some (.spill st.spillCount))
    spillCount := st.spillCount + 1 }

/-- The current interval gets a spill slot. -/
def spill (st : AllocState) (current : Interval) : AllocState :=
  { st with
    active := sortActive st.active
    locations := Function.update st.locations current.temp (some (.spill st.spillCount))
    spillCount := st.spillCount + 1 }

/-- The body of the loop over `intervals` after `expireOld`. -/
def assign (st : AllocState) (current : Interval) : AllocState :=
  match st.freeRegs with
  | reg :: freeRegs => st.takeReg current reg freeRegs
  | [] =>
      match (sortActive st.active).getLast? with
      | some victim =>
          if victim.stop > current.stop then st.evict current victim else st.spill current
      | none => st.spill current

def scan (st : AllocState) (intervals : List Interval) : AllocState :=
  intervals.foldl (fun st current => (st.expireOld current).assign current) st

end AllocState

def initialAlloc : AllocState :=
  { freeRegs := allocatable, active := [], locations := fun _ => none, spillCount := 0 }

/-! ## The result -/

/-- What `allocateTemps` returns. -/
structure Allocation where
  locations : ℕ → Option Location
  spillCount : ℕ
  usedRegs : List Reg

/-- The loop over `locations` that collects the registers in use. -/
def collectRegs (locations : ℕ → Option Location) (temps : List ℕ) : List Reg :=
  temps.foldl (fun used t =>
    match locations t with
    | some (.reg r) => if r ∈ used then used else used ++ [r]
    | _ => used) []

def allocateTemps (fn : IRFunction) : Allocation :=
  let st := initialAlloc.scan (intervals fn)
  { locations := st.locations
    spillCount := st.spillCount
    usedRegs := (collectRegs st.locations (List.range fn.tempTypes.length)).insertionSort
      fun a b => calleeSaved.idxOf a ≤ calleeSaved.idxOf b }

end GatoCore.Native
