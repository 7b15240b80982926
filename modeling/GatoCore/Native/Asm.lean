import GatoCore.Lib.Word64
import GatoCore.Native.Alloc
import GatoCore.Native.Exec
import GatoCore.Native.Immediates

/-!
# The target machine

The part of x86-64 the generated code uses, one `Line` for each line of text the compiler emits. An
immediate is a text, which the assembler may read as another number or refuse.
Stack addresses are integers and every access is to a word at a multiple of eight from the stack
pointer, so the memory is a function from addresses to words. What lies outside the generated
code is a `Host`: the addresses of the data labels, the bits of an address that is read as a
number, and the functions of the C runtime.
-/

namespace GatoCore.Native

open GatoCore.Lib

/-! ## Lines -/

/-- A label inside one function: a label of the IR, or the label of the epilogue. -/
inductive AsmLabel where
  | control (label : Label)
  | epilogue
deriving DecidableEq, Repr

/-- `snippets.binops`. -/
inductive AluOp where
  | add
  | sub
  | imul
  | and
  | or
deriving DecidableEq, Repr

/-- The operand of a `call`. -/
inductive CallTarget where
  | fn (symbol : Symbol)
  | runtime (symbol : RuntimeFn)
deriving DecidableEq, Repr

inductive Line where
  /-- `mov reg, imm` -/
  | movImm (dst : Reg) (text : List Char)
  | mov (dst src : Reg)
  /-- `mov reg, QWORD PTR [rbp-offset]` -/
  | load (dst : Reg) (offset : ℕ)
  /-- `mov QWORD PTR [rbp-offset], reg` -/
  | store (offset : ℕ) (src : Reg)
  /-- `lea reg, [rip+label]` -/
  | lea (dst : Reg) (label : DataLabel)
  | neg (reg : Reg)
  | cmp (left right : Reg)
  | cmpImm (left : Reg) (text : List Char)
  /-- `setcc al` -/
  | set (cond : Cond)
  /-- `movzx reg, al` -/
  | movzx (dst : Reg)
  | cqo
  | idiv (reg : Reg)
  | alu (op : AluOp) (dst src : Reg)
  | call (target : CallTarget)
  | label (name : AsmLabel)
  | jmp (label : AsmLabel)
  | jne (label : AsmLabel)
  | push (reg : Reg)
  | pop (reg : Reg)
  | pushRbp
  | popRbp
  /-- `mov rbp, rsp` -/
  | enter
  | subRsp (bytes : ℕ)
  | addRsp (bytes : ℕ)
  | ret
deriving DecidableEq, Repr

/-! ## States -/

/-- A word of the stack. -/
inductive Cell where
  | word (value : Word)
  | address (value : ℤ)
  /-- The address of a line of a generated function. -/
  | code (symbol : Symbol) (line : ℕ)
deriving DecidableEq

/-- `W` is the state of the C runtime. The flags are unknown after an instruction that leaves them
to the result of an operation nothing tests. -/
structure Machine (W : Type) where
  regs : Reg → Word
  rbp : ℤ
  rsp : ℤ
  flags : Option Flags
  memory : ℤ → Cell
  world : W

/-- What the generated code does not contain. -/
structure Host (W : Type) where
  /-- The 64 bits of a word of the stack. -/
  bits : Cell → Word
  bits_word : ∀ w, bits (.word w) = w
  dataAddress : DataLabel → Word
  callRuntime : RuntimeFn → Machine W → Option (Machine W)

namespace Machine

variable {W : Type}

@[simps]
def setReg (m : Machine W) (r : Reg) (w : Word) : Machine W :=
  { m with regs := Function.update m.regs r w }

@[simps]
def setFlags (m : Machine W) (flags : Option Flags) : Machine W := { m with flags := flags }

@[simps]
def setMemory (m : Machine W) (a : ℤ) (c : Cell) : Machine W :=
  { m with memory := Function.update m.memory a c }

@[simps]
def setRsp (m : Machine W) (a : ℤ) : Machine W := { m with rsp := a }

@[simps]
def setRbp (m : Machine W) (a : ℤ) : Machine W := { m with rbp := a }

/-- `push` of a word that is already made. -/
@[simps!]
def pushCell (m : Machine W) (c : Cell) : Machine W :=
  (m.setRsp (m.rsp - 8)).setMemory (m.rsp - 8) c

/-- The address of `[rbp-offset]`. -/
def slot (m : Machine W) (offset : ℕ) : ℤ := m.rbp - offset

/-- The word `[rbp-offset]`. -/
def slotWord (host : Host W) (m : Machine W) (offset : ℕ) : Word :=
  host.bits (m.memory (m.slot offset))

end Machine

/-! ## Instructions -/

def AluOp.eval : AluOp → Word → Word → Word
  | .add, a, b => a + b
  | .sub, a, b => a - b
  | .imul, a, b => a * b
  | .and, a, b => a &&& b
  | .or, a, b => a ||| b

/-- What happens after a line. -/
inductive Control where
  | next
  | jump (label : AsmLabel)
  | call (symbol : Symbol)
  | ret
deriving DecidableEq, Repr

variable {W : Type} (host : Host W)

/-- The effect of a line on the state; a line the assembler refuses has none. A `call` of a
generated function and a `ret` are left to the caller of this function. -/
def execLine : Line → Machine W → Option (Control × Machine W)
  | .movImm dst text, m => do
      let value ← asmInteger text
      some (.next, m.setReg dst (BitVec.ofNat 64 value))
  | .mov dst src, m => some (.next, m.setReg dst (m.regs src))
  | .load dst offset, m => some (.next, m.setReg dst (m.slotWord host offset))
  | .store offset src, m => some (.next, m.setMemory (m.slot offset) (.word (m.regs src)))
  | .lea dst label, m => some (.next, m.setReg dst (host.dataAddress label))
  | .neg r, m => some (.next, (m.setReg r (-(m.regs r))).setFlags none)
  | .cmp a b, m => some (.next, m.setFlags (some (cmpFlags (m.regs a) (m.regs b))))
  | .cmpImm a text, m => do
      let word ← asmSigned text
      some (.next, m.setFlags (some (cmpFlags (m.regs a) word)))
  | .set cond, m => do
      let f ← m.flags
      some (.next, m.setReg .rax
        (setLowByte (m.regs .rax) (if cond.holds f then 1 else 0)))
  | .movzx dst, m => some (.next, m.setReg dst ((lowByte (m.regs .rax)).setWidth 64))
  | .cqo, m => some (.next, m.setReg .rdx (signWord (m.regs .rax)))
  | .idiv r, m => do
      let (q, rem) ← idivResult (m.regs .rdx) (m.regs .rax) (m.regs r)
      some (.next, ((m.setReg .rax q).setReg .rdx rem).setFlags none)
  | .alu op dst src, m =>
      some (.next, (m.setReg dst (op.eval (m.regs dst) (m.regs src))).setFlags none)
  | .call (.fn g), m => some (.call g, m)
  | .call (.runtime fn), m => (host.callRuntime fn m).map fun m => (.next, m)
  | .label _, m => some (.next, m)
  | .jmp l, m => some (.jump l, m)
  | .jne l, m => do
      let f ← m.flags
      some (if f.zero then .next else .jump l, m)
  | .push r, m => some (.next, m.pushCell (.word (m.regs r)))
  | .pop r, m => some (.next, (m.setReg r (host.bits (m.memory m.rsp))).setRsp (m.rsp + 8))
  | .pushRbp, m => some (.next, m.pushCell (.address m.rbp))
  | .popRbp, m =>
      match m.memory m.rsp with
      | .address a => some (.next, (m.setRbp a).setRsp (m.rsp + 8))
      | _ => none
  | .enter, m => some (.next, m.setRbp m.rsp)
  | .subRsp bytes, m => some (.next, (m.setRsp (m.rsp - bytes)).setFlags none)
  | .addRsp bytes, m => some (.next, (m.setRsp (m.rsp + bytes)).setFlags none)
  | .ret, m => some (.ret, m)

/-- Run a stretch of lines; `callee` is the effect of a whole call of a generated function. -/
def execLines (callee : Symbol → Machine W → Option (Machine W)) :
    List Line → Machine W → Option (Control × Machine W)
  | [], m => some (.next, m)
  | line :: lines, m =>
      match execLine host line m with
      | none => none
      | some (.next, m) => execLines callee lines m
      | some (.call g, m) => (callee g m).bind (execLines callee lines)
      | some (control, m) => some (control, m)

end GatoCore.Native
