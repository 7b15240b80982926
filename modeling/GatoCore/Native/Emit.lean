import GatoCore.Native.Asm

/-!
# Emitting assembly

Source: `frameFor`, `localOffset`, `spillOffset`, `loadTempInto`, `storeTempFrom`,
`emitBooleanize`, `emitInstruction`, `applyPeephole`, `renderAssembly` and the templates
`prologue.tpl` and `epilogue.tpl`.

A failure of the compiler (`fatal`, or a property read of an undefined location) is `none`. Blank
lines and indentation are not represented.
-/

namespace GatoCore.Native

open GatoCore.Lib GatoCore.Lib.Binary64

/-! ## The frame -/

def localOffset (slot : ℕ) : ℕ := (slot + 1) * 8

def spillOffset (fn : IRFunction) (spillSlot : ℕ) : ℕ := (fn.locals.length + spillSlot + 1) * 8

structure FrameLayout where
  frameBytes : ℕ
  savedRegs : List Reg
deriving DecidableEq, Repr

/-- The loop of `frameFor`, for at most `fuel` tests. -/
def padFrame (currentMod : ℕ) : ℕ → ℕ → Option ℕ
  | 0, _ => none
  | fuel + 1, frameBytes =>
      if frameBytes % 16 ≠ currentMod then padFrame currentMod fuel (frameBytes + 8)
      else some frameBytes

/-- `frameFor`; two tests are enough. -/
def frameFor (fn : IRFunction) (alloc : Allocation) : Option FrameLayout := do
  let rawBytes := (fn.locals.length + alloc.spillCount) * 8
  let currentMod := if alloc.usedRegs.length % 2 = 0 then 0 else 8
  let frameBytes ← padFrame currentMod 2 rawBytes
  return { frameBytes := frameBytes, savedRegs := alloc.usedRegs }

/-! ## Temps -/

section Emit

variable (fn : IRFunction) (alloc : Allocation)

def loadTempInto (temp : ℕ) (target : Reg) : Option (List Line) := do
  match ← alloc.locations temp with
  | .reg name => return if name = target then [] else [.mov target name]
  | .spill slot => return [.load target (spillOffset fn slot)]

def storeTempFrom (temp : ℕ) (source : Reg) : Option (List Line) := do
  match ← alloc.locations temp with
  | .reg name => return if name = source then [] else [.mov name source]
  | .spill slot => return [.store (spillOffset fn slot) source]

/-- The lines for an instruction that makes a value in a register: in the place of its
destination, or through `rax`. -/
def emitDirect (dest : ℕ) (line : Reg → Line) : Option (List Line) := do
  match ← alloc.locations dest with
  | .reg name => return [line name]
  | .spill slot => return [line .rax, .store (spillOffset fn slot) .rax]

def emitBooleanize (reg scratch : Reg) : List Line :=
  [.cmpImm reg ['0'], .set .ne, .movzx scratch] ++ if scratch = reg then [] else [.mov reg scratch]

/-- `snippets.binops`; `/` and `%` have no entry. -/
def BinOp.alu : BinOp → Option AluOp
  | .add => some .add
  | .sub => some .sub
  | .mul => some .imul
  | .and => some .and
  | .or => some .or
  | .div => none
  | .mod => none

/-- `snippets.cmps`. -/
def CmpOp.cond : CmpOp → Cond
  | .eq => .e
  | .ne => .ne
  | .lt => .l
  | .le => .le
  | .gt => .g
  | .ge => .ge

/-- The loop over the arguments of a call, with the argument registers from the current one on. -/
def loadArgs : List ℕ → List Reg → Option (List Line)
  | [], _ => some []
  | _ :: _, [] => none
  | arg :: args, reg :: regs => do
      return (← loadTempInto fn alloc arg reg) ++ (← loadArgs args regs)

/-- `call` and `call_runtime`. -/
def emitCall (dest : ℕ) (target : CallTarget) (args : List ℕ) : Option (List Line) := do
  if args.length > argRegs.length then none
  return (← loadArgs fn alloc args argRegs) ++ [.call target] ++
    (← storeTempFrom fn alloc dest .rax)

def emitInstruction : Instr → Option (List Line)
  | .constInt dest value _ => emitDirect fn alloc dest (.movImm · (numberText value))
  | .constStr dest label => emitDirect fn alloc dest (.lea · label)
  | .constPtr dest label _ => emitDirect fn alloc dest (.lea · label)
  | .loadLocal dest slot _ => emitDirect fn alloc dest (.load · (localOffset slot))
  | .storeLocal slot _ value => do
      return (← loadTempInto fn alloc value .rax) ++ [.store (localOffset slot) .rax]
  | .neg dest value => do
      return (← loadTempInto fn alloc value .rax) ++ [.neg .rax] ++
        (← storeTempFrom fn alloc dest .rax)
  | .not dest value => do
      return (← loadTempInto fn alloc value .rax) ++ [.cmpImm .rax ['0'], .set .e, .movzx .rax] ++
        (← storeTempFrom fn alloc dest .rax)
  | .bin dest bin left right => do
      if bin = .div ∨ bin = .mod then
        return (← loadTempInto fn alloc left .rax) ++ [.cqo] ++
          (← loadTempInto fn alloc right .rcx) ++ [.idiv .rcx] ++
          (← storeTempFrom fn alloc dest (if bin = .div then .rax else .rdx))
      else if bin = .and ∨ bin = .or then
        return (← loadTempInto fn alloc left .rax) ++ emitBooleanize .rax .rax ++
          (← loadTempInto fn alloc right .rcx) ++ emitBooleanize .rcx .rcx ++
          [.alu (← bin.alu) .rax .rcx] ++ (← storeTempFrom fn alloc dest .rax)
      else
        return (← loadTempInto fn alloc left .rax) ++ (← loadTempInto fn alloc right .rcx) ++
          [.alu (← bin.alu) .rax .rcx] ++ (← storeTempFrom fn alloc dest .rax)
  | .cmp dest cmp left (.imm value) => do
      return (← loadTempInto fn alloc left .rax) ++
        [.cmpImm .rax (numberText value), .set cmp.cond, .movzx .rax] ++
          (← storeTempFrom fn alloc dest .rax)
  | .cmp dest cmp left (.temp right) => do
      return (← loadTempInto fn alloc left .rax) ++ (← loadTempInto fn alloc right .rcx) ++
        [.cmp .rax .rcx, .set cmp.cond, .movzx .rax] ++ (← storeTempFrom fn alloc dest .rax)
  | .call dest symbol args _ => emitCall fn alloc dest (.fn symbol) args
  | .callRuntime dest symbol args _ => emitCall fn alloc dest (.runtime symbol) args
  | .print value valueType => do
      return (← loadTempInto fn alloc value .rdi) ++ [.call (.runtime (.print valueType))]
  | .label name => some [.label (.control name)]
  | .jmp label => some [.jmp (.control label)]
  | .br cond thenLabel elseLabel => do
      return (← loadTempInto fn alloc cond .rax) ++
        [.cmpImm .rax ['0'], .jne (.control thenLabel), .jmp (.control elseLabel)]
  | .ret value _ => do
      return (← loadTempInto fn alloc value .rax) ++ [.jmp .epilogue]

end Emit

/-! ## Functions -/

/-- The instructions of a function one after another. -/
def emitInstructions (fn : IRFunction) (alloc : Allocation) : List Instr → Option (List Line)
  | [] => some []
  | inst :: code => do
      return (← emitInstruction fn alloc inst) ++ (← emitInstructions fn alloc code)

/-- `prologue.tpl`; the stack is only adjusted by a frame that is not empty. -/
def prologue (frame : FrameLayout) : List Line :=
  [.pushRbp, .enter] ++ frame.savedRegs.map .push ++
    if frame.frameBytes = 0 then [] else [.subRsp frame.frameBytes]

/-- `epilogue.tpl`. -/
def epilogue (frame : FrameLayout) : List Line :=
  (if frame.frameBytes = 0 then [] else [.addRsp frame.frameBytes]) ++
    frame.savedRegs.reverse.map .pop ++ [.popRbp, .ret]

/-- The loop that stores the parameters. -/
def storeParams : List Local → List Reg → Option (List Line)
  | [], _ => some []
  | _ :: _, [] => none
  | param :: params, reg :: regs => do
      return .store (localOffset param.slot) reg :: (← storeParams params regs)

/-- The rules of `peephole/base.json` and `peephole/arithmetic.json` that can match a line of code:
they blank a move of a register to itself and a change of the stack pointer by zero. -/
def peephole : Line → Option Line
  | .mov dst src => if dst = src then none else some (.mov dst src)
  | .subRsp bytes => if bytes = 0 then none else some (.subRsp bytes)
  | .addRsp bytes => if bytes = 0 then none else some (.addRsp bytes)
  | line => some line

/-- The lines `renderAssembly` emits for one function, after `applyPeephole`. -/
def renderFunction (fn : IRFunction) : Option (List Line) := do
  let alloc := allocateTemps fn
  let frame ← frameFor fn alloc
  let params ← storeParams fn.params argRegs
  let body ← emitInstructions fn alloc fn.instructions
  return (prologue frame ++ params ++ body ++ [Line.label .epilogue] ++ epilogue frame).filterMap
    peephole

/-- The code of a unit, one entry per function. -/
def renderAssembly (unit : IRUnit) : Option (List (Symbol × List Line)) :=
  unit.functions.mapM fun fn => (renderFunction fn).map fun lines => (fn.symbol, lines)

end GatoCore.Native
