import GatoCore.Native.Emit

/-!
# Instruction selection

The lines of one instruction, run on a machine whose registers and stack words hold the values of
the temps and the locals, leave the machine in the state after the instruction.
-/

namespace GatoCore.Native

open GatoCore.Lib GatoCore.Lib.Binary64

/-! ## The IR over machine words -/

/-- The C runtime over machine words. -/
structure WordRuntime (W : Type) where
  text : String → Word
  list : Ty → List Const → Word
  call : RuntimeFn → List Word → W → Option (Word × W)

@[simps]
def WordRuntime.toRuntime {W : Type} (R : WordRuntime W) : Runtime where
  Value := Word
  World := W
  ofWord := id
  toWord := some
  toWord_ofWord := fun _ => rfl
  text := R.text
  list := R.list
  call := R.call

/-- What one instruction does to its activation, a call of a function taken as one step. -/
inductive InstrResult (R : Runtime) where
  | next (f : Frame R Location) (w : R.World)
  | returned (v : R.Value) (w : R.World)

/-- The meaning of an instruction in the places of an allocation; `callee` is what the functions of
the unit compute. -/
def instrResult {R : Runtime} (unit : IRUnit) (place : Placement Location)
    (callee : Symbol → List R.Value → R.World → Option (R.Value × R.World))
    (f : Frame R Location) (w : R.World) : Instr → Option (InstrResult R)
  | .call dest symbol args _ => do
      let (v, w) ← callee symbol (← f.readAll place args) w
      return .next (← f.define place dest v) w
  | .ret value _ => do return .returned (← f.read place value) w
  | inst =>
      match execInstr place unit f [] w inst with
      | some (.running [f] w) => some (.next f w)
      | _ => none

/-! ## The machine holds a state of the IR -/

variable {W : Type} (host : Host W)

/-- The word at a place. -/
def Machine.readLoc (m : Machine W) (fn : IRFunction) : Location → Word
  | .reg r => m.regs r
  | .spill s => m.slotWord host (spillOffset fn s)

/-- A place the allocation may use. -/
def Allocation.Place (alloc : Allocation) : Location → Prop
  | .reg r => r ∈ allocatable
  | .spill s => s < alloc.spillCount

/-- Every temp is in an allocatable register or a spill slot of the frame. -/
def Allocation.Valid (alloc : Allocation) : Prop :=
  ∀ t loc, alloc.locations t = some loc → alloc.Place loc

/-- Each place and each local's stack word hold their IR value. -/
structure Holds {R : WordRuntime W} (alloc : Allocation) (m : Machine W)
    (f : Frame R.toRuntime Location) (w : W) : Prop where
  temps : ∀ loc v, alloc.Place loc → f.temps loc = some v → m.readLoc host f.fn loc = v
  locals : ∀ s v, s < f.fn.locals.length → f.locals s = some v →
    m.slotWord host (localOffset s) = v
  world : m.world = w

/-- The frame of the function lies above the stack pointer. -/
def Machine.FrameAllocated (m : Machine W) (fn : IRFunction) (alloc : Allocation) : Prop :=
  m.rsp + 8 * (fn.locals.length + alloc.spillCount : ℕ) ≤ m.rbp

/-- The machine keeps everything that belongs to the activation. -/
structure Machine.Keeps (m m' : Machine W) : Prop where
  regs : ∀ r ∈ calleeSaved, m'.regs r = m.regs r
  rbp : m'.rbp = m.rbp
  rsp : m'.rsp = m.rsp
  memory : ∀ a, m.rsp ≤ a → m'.memory a = m.memory a

/-- The first argument registers hold these values. -/
def Machine.HoldsArgs (m : Machine W) (vals : List Word) : Prop :=
  ∀ (i : ℕ) (v : Word), vals[i]? = some v → ∃ r, argRegs[i]? = some r ∧ m.regs r = v

/-- A callee that computes `meaning` and follows the System V convention. -/
def SysV (call : Machine W → Option (Machine W)) (meaning : List Word → W → Option (Word × W)) :
    Prop :=
  ∀ m vals v w, m.HoldsArgs vals → meaning vals m.world = some (v, w) →
    ∃ m', call m = some m' ∧ m.Keeps m' ∧ m'.regs .rax = v ∧ m'.world = w

/-- The machine keeps the places and the locals of the activation except those listed. -/
structure Machine.KeepsFrame (fn : IRFunction) (alloc : Allocation) (locs : List Location)
    (slots : List ℕ) (m m' : Machine W) : Prop where
  rbp : m'.rbp = m.rbp
  rsp : m'.rsp = m.rsp
  places : ∀ loc, alloc.Place loc → loc ∉ locs → m'.readLoc host fn loc = m.readLoc host fn loc
  locals : ∀ s < fn.locals.length, s ∉ slots →
    m'.slotWord host (localOffset s) = m.slotWord host (localOffset s)

/-! ## What the machine keeps -/

namespace Machine

variable {m m₁ m₂ : Machine W}

theorem Keeps.refl (m : Machine W) : m.Keeps m := ⟨fun _ _ => rfl, rfl, rfl, fun _ _ => rfl⟩

theorem Keeps.trans (h : m.Keeps m₁) (h' : m₁.Keeps m₂) : m.Keeps m₂ :=
  { regs := fun r hr => (h'.regs r hr).trans (h.regs r hr)
    rbp := h'.rbp.trans h.rbp
    rsp := h'.rsp.trans h.rsp
    memory := fun a ha => (h'.memory a (h.rsp ▸ ha)).trans (h.memory a ha) }

/-- A scratch register may be written. -/
theorem Keeps.setReg (h : m.Keeps m₁) {r : Reg} (hr : r ∉ calleeSaved) (v : Word) :
    m.Keeps (m₁.setReg r v) := by
  refine ⟨fun r' hr' => ?_, h.rbp, h.rsp, h.memory⟩
  have hne : r' ≠ r := by
    rintro rfl
    exact hr hr'
  rw [setReg_regs, Function.update_of_ne hne]
  exact h.regs r' hr'

theorem Keeps.setFlags (h : m.Keeps m₁) (flags : Option Flags) : m.Keeps (m₁.setFlags flags) :=
  ⟨h.regs, h.rbp, h.rsp, h.memory⟩

variable {fn : IRFunction} {alloc : Allocation}

/-- A stack word of the frame. -/
theorem Keeps.slotWord (h : m.Keeps m₁) {offset : ℕ} (hin : m.rsp + offset ≤ m.rbp) :
    m₁.slotWord host offset = m.slotWord host offset := by
  rw [Machine.slotWord, Machine.slotWord, slot, slot, h.rbp, h.memory _ (by omega)]

theorem FrameAllocated.spill (h : m.FrameAllocated fn alloc) {s : ℕ} (hs : s < alloc.spillCount) :
    m.rsp + spillOffset fn s ≤ m.rbp := by
  unfold FrameAllocated at h
  unfold spillOffset
  push_cast at h ⊢
  omega

theorem FrameAllocated.local (h : m.FrameAllocated fn alloc) {s : ℕ} (hs : s < fn.locals.length) :
    m.rsp + localOffset s ≤ m.rbp := by
  unfold FrameAllocated at h
  unfold localOffset
  push_cast at h ⊢
  omega

theorem Keeps.readLoc (h : m.Keeps m₁) (hf : m.FrameAllocated fn alloc) {loc : Location}
    (hloc : alloc.Place loc) : m₁.readLoc host fn loc = m.readLoc host fn loc := by
  cases loc with
  | reg r => exact h.regs r hloc
  | spill s => exact h.slotWord host (hf.spill hloc)

theorem Keeps.keepsFrame (h : m.Keeps m₁) (hf : m.FrameAllocated fn alloc) :
    m.KeepsFrame host fn alloc [] [] m₁ :=
  ⟨h.rbp, h.rsp, fun _ hloc _ => h.readLoc host hf hloc,
    fun _ hs _ => h.slotWord host (hf.local hs)⟩

/-- Write a place. -/
def writeLoc (m : Machine W) (fn : IRFunction) (v : Word) : Location → Machine W
  | .reg r => m.setReg r v
  | .spill s => m.setMemory (m.slot (spillOffset fn s)) (.word v)

theorem writeLoc_rbp (m : Machine W) (v : Word) (loc : Location) :
    (m.writeLoc fn v loc).rbp = m.rbp := by
  cases loc <;> rfl

theorem writeLoc_rsp (m : Machine W) (v : Word) (loc : Location) :
    (m.writeLoc fn v loc).rsp = m.rsp := by
  cases loc <;> rfl

theorem writeLoc_world (m : Machine W) (v : Word) (loc : Location) :
    (m.writeLoc fn v loc).world = m.world := by
  cases loc <;> rfl

/-- A stack word after a write to another one. -/
theorem slotWord_setMemory_of_ne (m : Machine W) {a b : ℕ} (hab : a ≠ b) (c : Cell) :
    (m.setMemory (m.slot b) c).slotWord host a = m.slotWord host a := by
  have hne : m.rbp - (a : ℤ) ≠ m.rbp - (b : ℤ) := by omega
  rw [slotWord, slotWord, slot, slot, setMemory_rbp, setMemory_memory, slot,
    Function.update_of_ne hne]

theorem readLoc_writeLoc (m : Machine W) (v : Word) (loc : Location) :
    (m.writeLoc fn v loc).readLoc host fn loc = v := by
  cases loc with
  | reg r => simp [writeLoc, readLoc]
  | spill s => simp [writeLoc, readLoc, slotWord, slot, host.bits_word]

theorem readLoc_writeLoc_of_ne (m : Machine W) (v : Word) {loc loc' : Location} (hne : loc' ≠ loc) :
    (m.writeLoc fn v loc).readLoc host fn loc' = m.readLoc host fn loc' := by
  cases loc with
  | reg r =>
      cases loc' with
      | reg r' =>
          have hr : r' ≠ r := fun h => hne (congrArg _ h)
          simp [writeLoc, readLoc, Function.update_of_ne hr]
      | spill s' => rfl
  | spill s =>
      cases loc' with
      | reg r' => rfl
      | spill s' =>
          have hs : spillOffset fn s' ≠ spillOffset fn s := by
            have : s' ≠ s := fun h => hne (congrArg _ h)
            unfold spillOffset
            omega
          exact m.slotWord_setMemory_of_ne host hs _

/-- The locals lie above the spill slots. -/
theorem slotWord_writeLoc (m : Machine W) (v : Word) (loc : Location) {s : ℕ}
    (hs : s < fn.locals.length) :
    (m.writeLoc fn v loc).slotWord host (localOffset s) = m.slotWord host (localOffset s) := by
  cases loc with
  | reg r => rfl
  | spill s' =>
      have hne : localOffset s ≠ spillOffset fn s' := by
        unfold localOffset spillOffset
        omega
      exact m.slotWord_setMemory_of_ne host hne _

/-- A result computed in scratch registers and then written to its place. -/
theorem Keeps.writeLoc (h : m.Keeps m₁) (hf : m.FrameAllocated fn alloc) (v : Word)
    (loc : Location) : m.KeepsFrame host fn alloc [loc] [] (m₁.writeLoc fn v loc) := by
  refine ⟨(writeLoc_rbp _ _ _).trans h.rbp, (writeLoc_rsp _ _ _).trans h.rsp, ?_, ?_⟩
  · intro loc' hloc' hne
    rw [readLoc_writeLoc_of_ne host _ _ (by simpa using hne)]
    exact h.readLoc host hf hloc'
  · intro s hs _
    rw [slotWord_writeLoc host _ _ _ hs]
    exact h.slotWord host (hf.local hs)

end Machine

/-! ## Runs of lines -/

section Lines

attribute [local grind =] execLine execLines loadTempInto storeTempFrom emitDirect

variable {host} {callee : Symbol → Machine W → Option (Machine W)} {m m₁ : Machine W}
  {fn : IRFunction} {alloc : Allocation}

theorem execLines_cons {line : Line} (h : execLine host line m = some (.next, m₁))
    (lines : List Line) :
    execLines host callee (line :: lines) m = execLines host callee lines m₁ := by
  rw [execLines, h]

theorem execLines_append {a : List Line} (h : execLines host callee a m = some (.next, m₁))
    (b : List Line) : execLines host callee (a ++ b) m = execLines host callee b m₁ := by
  induction a generalizing m with
  | nil =>
      cases h
      rfl
  | cons line a ih =>
      rw [List.cons_append, execLines]
      rw [execLines] at h
      cases hline : execLine host line m with
      | none => simp [hline] at h
      | some r =>
          obtain ⟨control, m₂⟩ := r
          cases control with
          | next =>
              simp only [hline] at h ⊢
              exact ih h
          | call g =>
              simp only [hline] at h ⊢
              cases hcall : callee g m₂ with
              | none => simp [hcall] at h
              | some m₃ =>
                  simp only [hcall, Option.bind_some] at h ⊢
                  exact ih h
          | jump l => simp [hline] at h
          | ret => simp [hline] at h

theorem execLine_movImm {text : List Char} {value : ℕ} (h : asmInteger text = some value) (r : Reg)
    (m : Machine W) :
    execLine host (.movImm r text) m = some (.next, m.setReg r (BitVec.ofNat 64 value)) := by
  rw [execLine, h]
  rfl

variable (host) (callee)

theorem loadTempInto_runs {t : ℕ} {loc : Location} (h : alloc.locations t = some loc)
    (target : Reg) : ∃ lines, loadTempInto fn alloc t target = some lines ∧
      ∀ m, execLines host callee lines m =
        some (.next, m.setReg target (m.readLoc host fn loc)) := by
  cases loc with
  | reg name =>
      by_cases hname : name = target
      · refine ⟨[], by simp [loadTempInto, h, hname], fun m => ?_⟩
        subst hname
        simp [execLines, Machine.setReg, Machine.readLoc]
      · exact ⟨[.mov target name], by simp [loadTempInto, h, hname], fun m => rfl⟩
  | spill slot =>
      exact ⟨[.load target (spillOffset fn slot)], by simp [loadTempInto, h], fun m => rfl⟩

theorem storeTempFrom_runs {t : ℕ} {loc : Location} (h : alloc.locations t = some loc)
    (source : Reg) : ∃ lines, storeTempFrom fn alloc t source = some lines ∧
      ∀ m, execLines host callee lines m =
        some (.next, m.writeLoc fn (m.regs source) loc) := by
  cases loc with
  | reg name =>
      by_cases hname : name = source
      · refine ⟨[], by simp [storeTempFrom, h, hname], fun m => ?_⟩
        subst hname
        simp [execLines, Machine.writeLoc, Machine.setReg]
      · exact ⟨[.mov name source], by simp [storeTempFrom, h, hname], fun m => rfl⟩
  | spill slot =>
      exact ⟨[.store (spillOffset fn slot) source], by simp [storeTempFrom, h], fun m => rfl⟩

/-- A line that makes a value in any register makes it in any place. -/
theorem emitDirect_runs {t : ℕ} {loc : Location} (h : alloc.locations t = some loc)
    {line : Reg → Line} {v : Word} {m : Machine W}
    (hline : ∀ r, execLine host (line r) m = some (.next, m.setReg r v)) :
    ∃ lines m₁, emitDirect fn alloc t line = some lines ∧ m.Keeps m₁ ∧ m₁.world = m.world ∧
      execLines host callee lines m = some (.next, m₁.writeLoc fn v loc) := by
  cases loc with
  | reg name =>
      refine ⟨[line name], m, by simp [emitDirect, h], .refl m, rfl, ?_⟩
      rw [execLines_cons (hline name)]
      rfl
  | spill slot =>
      refine ⟨[line .rax, .store (spillOffset fn slot) .rax], m.setReg .rax v,
        by simp [emitDirect, h], (Machine.Keeps.refl m).setReg (by decide) v, rfl, ?_⟩
      rw [execLines_cons (hline .rax)]
      simp [execLines, execLine, Machine.writeLoc]

end Lines

/-! ## Reading and writing the state of the IR -/

section State

variable {host} {callee : Symbol → Machine W → Option (Machine W)} {R : WordRuntime W}
  {alloc : Allocation} {m m₁ : Machine W} {f : Frame R.toRuntime Location} {w : W}

/-- The placement of one allocation. -/
def Allocation.placement (alloc : Allocation) : Placement Location := fun _ => alloc.locations

/-- The value of a temp is at its place. -/
def Machine.TempIs (host : Host W) (m : Machine W) (fn : IRFunction) (alloc : Allocation) (t : ℕ)
    (v : Word) : Prop :=
  ∃ loc, alloc.locations t = some loc ∧ alloc.Place loc ∧ m.readLoc host fn loc = v

theorem Holds.read (hm : Holds host alloc m f w) (hvalid : alloc.Valid) {t : ℕ} {v : Word}
    (h : f.read alloc.placement t = some v) : m.TempIs host f.fn alloc t v := by
  obtain ⟨loc, hloc, hv⟩ := Option.bind_eq_some_iff.mp h
  exact ⟨loc, hloc, hvalid t loc hloc, hm.temps loc v (hvalid t loc hloc) hv⟩

theorem Holds.readWord (hm : Holds host alloc m f w) (hvalid : alloc.Valid) {t : ℕ} {x : Word}
    (h : f.readWord alloc.placement t = some x) : m.TempIs host f.fn alloc t x := by
  obtain ⟨v, hv, hx⟩ := Option.bind_eq_some_iff.mp h
  cases hx
  exact hm.read hvalid hv

theorem Holds.readAll (hm : Holds host alloc m f w) (hvalid : alloc.Valid) :
    ∀ {ts : List ℕ} {vals : List Word}, f.readAll alloc.placement ts = some vals →
      List.Forall₂ (m.TempIs host f.fn alloc) ts vals
  | [], vals, h => by
      cases h
      exact .nil
  | t :: ts, vals, h => by
      rw [Frame.readAll, List.mapM_cons] at h
      obtain ⟨v, hv, h⟩ := Option.bind_eq_some_iff.mp h
      obtain ⟨vs, hvs, h⟩ := Option.bind_eq_some_iff.mp h
      cases h
      exact .cons (hm.read hvalid hv) (Holds.readAll hm hvalid hvs)

/-- Load a temp after other scratch registers were written. -/
theorem Machine.TempIs.load (host : Host W) (callee : Symbol → Machine W → Option (Machine W))
    {fn : IRFunction} {t : ℕ} {v : Word} (h : m.TempIs host fn alloc t v)
    (hf : m.FrameAllocated fn alloc) (target : Reg) :
    ∃ lines, loadTempInto fn alloc t target = some lines ∧
      ∀ m₁, m.Keeps m₁ → execLines host callee lines m₁ = some (.next, m₁.setReg target v) := by
  obtain ⟨loc, hloc, hplace, rfl⟩ := h
  obtain ⟨lines, hlines, hexec⟩ := loadTempInto_runs host callee hloc target
  refine ⟨lines, hlines, fun m₁ hk => ?_⟩
  rw [hexec, hk.readLoc host hf hplace]

theorem Machine.TempIs.loadArgs {fn : IRFunction} (hf : m.FrameAllocated fn alloc) {args : List ℕ}
    {vals : List Word} (h : List.Forall₂ (m.TempIs host fn alloc) args vals) :
    ∀ {regs : List Reg}, args.length ≤ regs.length → regs.Nodup → (∀ r ∈ regs, r ∉ calleeSaved) →
      ∃ lines, Native.loadArgs fn alloc args regs = some lines ∧ ∀ m₁, m.Keeps m₁ → ∃ m₂,
        execLines host callee lines m₁ = some (.next, m₂) ∧ m.Keeps m₂ ∧ m₂.world = m₁.world ∧
        (∀ r ∉ regs, m₂.regs r = m₁.regs r) ∧
        ∀ (i : ℕ) (v : Word), vals[i]? = some v → ∃ r, regs[i]? = some r ∧ m₂.regs r = v := by
  induction h with
  | nil => exact fun {regs} _ _ _ => ⟨[], by simp [Native.loadArgs], fun m₁ hk =>
      ⟨m₁, rfl, hk, rfl, fun _ _ => rfl, by simp⟩⟩
  | @cons t v ts vs ht _ ih =>
      intro regs hlen hnodup hscratch
      cases regs with
      | nil => simp at hlen
      | cons r regs =>
          rw [List.nodup_cons] at hnodup
          obtain ⟨first, hfirst, hexec⟩ := ht.load host callee hf r
          obtain ⟨rest, hrest, hruns⟩ := ih (Nat.le_of_succ_le_succ hlen) hnodup.2
            fun r' hr' => hscratch r' (List.mem_cons_of_mem _ hr')
          refine ⟨first ++ rest, by simp [Native.loadArgs, hfirst, hrest], fun m₁ hk => ?_⟩
          have hk' := hk.setReg (hscratch r List.mem_cons_self) v
          obtain ⟨m₂, hexec₂, hk₂, hworld, hother, hvals⟩ := hruns _ hk'
          refine ⟨m₂, ?_, hk₂, hworld, ?_, ?_⟩
          · rw [execLines_append (hexec m₁ hk), hexec₂]
          · intro r' hr'
            rw [List.mem_cons, not_or] at hr'
            rw [hother r' hr'.2, Machine.setReg_regs, Function.update_of_ne hr'.1]
          · rintro (_ | i) u hu
            · cases hu
              refine ⟨r, rfl, ?_⟩
              rw [hother r hnodup.1]
              simp
            · exact hvals i u hu

/-- The state of the IR after a definition, and of the machine after the write of its place. -/
theorem Holds.define (hm : Holds host alloc m f w) (hf : m.FrameAllocated f.fn alloc)
    (hk : m.Keeps m₁) {dest : ℕ} {v : Word} {f' : Frame R.toRuntime Location} {loc : Location}
    (hloc : alloc.locations dest = some loc) (hf' : f.define alloc.placement dest v = some f') :
    Holds host alloc (m₁.writeLoc f.fn v loc) f' m₁.world := by
  unfold Frame.define Allocation.placement at hf'
  rw [hloc] at hf'
  cases hf'
  have hkeep := hk.writeLoc host hf v loc
  refine ⟨?_, ?_, Machine.writeLoc_world _ _ _⟩
  · intro loc' u hplace hu
    by_cases heq : loc' = loc
    · subst heq
      simp only [Function.update_self] at hu
      exact (Machine.readLoc_writeLoc host _ _ _).trans (Option.some.inj hu)
    · rw [hkeep.places loc' hplace (by simpa using heq)]
      exact hm.temps loc' u hplace (by simpa [Function.update_of_ne heq] using hu)
  · intro s u hs hu
    rw [hkeep.locals s hs (by simp)]
    exact hm.locals s u hs hu

/-- The state of the IR after an instruction that defines nothing. -/
theorem Holds.next (hm : Holds host alloc m f w) (hf : m.FrameAllocated f.fn alloc)
    (hk : m.Keeps m₁) (pc : ℕ) : Holds host alloc m₁ { f with pc := pc } m₁.world :=
  { temps := fun loc v hplace hv => (hk.readLoc host hf hplace).trans (hm.temps loc v hplace hv)
    locals := fun s v hs hv => (hk.slotWord host (hf.local hs)).trans (hm.locals s v hs hv)
    world := rfl }

end State

/-! ## One instruction -/

/-- The assembler reads the constants of the instruction as they are. -/
def Instr.Written : Instr → Prop
  | .constInt _ value _ => asmInteger (numberText value) = some value
  | .cmp _ _ _ (.imm value) => asmSigned (numberText value) = some (BitVec.ofNat 64 value)
  | _ => True

/-- The places an instruction writes. -/
def Instr.writtenLocs (inst : Instr) (alloc : Allocation) : List Location :=
  (tempDefs inst).filterMap alloc.locations

/-- The local slots an instruction writes. -/
def Instr.writtenSlots : Instr → List ℕ
  | .storeLocal slot _ _ => [slot]
  | _ => []

/-- Control goes where the program counter of the IR goes. -/
def Follows {R : WordRuntime W} (f f' : Frame R.toRuntime Location) : Control → Prop
  | .next => f'.pc = f.pc + 1
  | .jump (.control l) => labelIndex f.fn.instructions l = some f'.pc
  | _ => False

/-- The machine is in the state the IR reached. -/
def Reflects {R : WordRuntime W} (alloc : Allocation) (f : Frame R.toRuntime Location)
    (control : Control) (m : Machine W) : InstrResult R.toRuntime → Prop
  | .next f' w => Holds host alloc m f' w ∧ Follows f f' control
  | .returned v w => control = .jump .epilogue ∧ m.regs .rax = v ∧ m.world = w

/-- The lines of an instruction lead to the state the IR reaches and write nothing else. -/
def EmitsTo {R : WordRuntime W} (callee : Symbol → Machine W → Option (Machine W))
    (alloc : Allocation) (m : Machine W) (f : Frame R.toRuntime Location) (inst : Instr)
    (r : InstrResult R.toRuntime) : Prop :=
  ∃ lines control m', emitInstruction f.fn alloc inst = some lines ∧
    execLines host callee lines m = some (control, m') ∧
    m.KeepsFrame host f.fn alloc (inst.writtenLocs alloc) inst.writtenSlots m' ∧
    Reflects host alloc f control m' r

/-- Lines that leave a value in a register and keep the activation. -/
def Makes (callee : Symbol → Machine W → Option (Machine W)) (m : Machine W) (lines : List Line)
    (source : Reg) (v : Word) (w : W) : Prop :=
  ∃ m₁, execLines host callee lines m = some (.next, m₁) ∧ m.Keeps m₁ ∧ m₁.regs source = v ∧
    m₁.world = w

section Instruction

variable {host} {callee : Symbol → Machine W → Option (Machine W)} {R : WordRuntime W}
  {alloc : Allocation} {m m₁ : Machine W} {f f' : Frame R.toRuntime Location} {w : W}
  {inst : Instr} {dest : ℕ}

theorem define_location {v : Word} (h : f.define alloc.placement dest v = some f') :
    ∃ loc, alloc.locations dest = some loc := by
  obtain ⟨loc, hloc, _⟩ := Option.map_eq_some_iff.mp h
  exact ⟨loc, hloc⟩

theorem define_pc {v : Word} (h : f.define alloc.placement dest v = some f') :
    f'.pc = f.pc + 1 := by
  obtain ⟨loc, _, rfl⟩ := Option.map_eq_some_iff.mp h
  rfl

theorem Instr.writtenLocs_of_defs {loc : Location} (hd : tempDefs inst = [dest])
    (hloc : alloc.locations dest = some loc) : inst.writtenLocs alloc = [loc] := by
  simp [Instr.writtenLocs, hd, hloc]

theorem Instr.writtenSlots_of_defs (hd : tempDefs inst = [dest]) : inst.writtenSlots = [] := by
  cases inst <;> first | rfl | cases hd

variable (hm : Holds host alloc m f w) (hf : m.FrameAllocated f.fn alloc)
include hm hf

/-- An instruction whose value is made in a register and then moved to its place. -/
theorem EmitsTo.of_register (source : Reg) (lines : List Line) (hd : tempDefs inst = [dest])
    {v : Word} {w' : W} (hdef : f.define alloc.placement dest v = some f')
    (hemit : ∀ st, storeTempFrom f.fn alloc dest source = some st →
      emitInstruction f.fn alloc inst = some (lines ++ st))
    (hmakes : Makes host callee m lines source v w') :
    EmitsTo host callee alloc m f inst (.next f' w') := by
  obtain ⟨m₁, hexec, hk, hv, rfl⟩ := hmakes
  obtain ⟨loc, hloc⟩ := define_location hdef
  obtain ⟨st, hst, hstore⟩ := storeTempFrom_runs host callee hloc source
  refine ⟨lines ++ st, .next, m₁.writeLoc f.fn v loc, hemit st hst, ?_, ?_, ?_, define_pc hdef⟩
  · rw [execLines_append hexec, hstore, hv]
  · rw [Instr.writtenLocs_of_defs hd hloc, Instr.writtenSlots_of_defs hd]
    exact hk.writeLoc host hf v loc
  · exact hm.define hf hk hloc hdef

/-- An instruction whose value is made in its place. -/
theorem EmitsTo.of_direct (hd : tempDefs inst = [dest]) {v : Word}
    (hdef : f.define alloc.placement dest v = some f') {line : Reg → Line}
    (hemit : emitInstruction f.fn alloc inst = emitDirect f.fn alloc dest line)
    (hline : ∀ r, execLine host (line r) m = some (.next, m.setReg r v)) :
    EmitsTo host callee alloc m f inst (.next f' w) := by
  obtain ⟨loc, hloc⟩ := define_location hdef
  obtain ⟨lines, m₁, hlines, hk, hworld, hexec⟩ := emitDirect_runs host callee hloc hline
  refine ⟨lines, .next, _, hemit.trans hlines, hexec, ?_, ?_, define_pc hdef⟩
  · rw [Instr.writtenLocs_of_defs hd hloc, Instr.writtenSlots_of_defs hd]
    exact hk.writeLoc host hf v loc
  · rw [← hm.world, ← hworld]
    exact hm.define hf hk hloc hdef

omit hm hf in
theorem setWidth_bit (b : Bool) : (if b then (1 : BitVec 8) else 0).setWidth 64 = wordOfBool b := by
  cases b <;> rfl

omit hm hf in
/-- The value of a comparison, from the flags to `rax`. -/
theorem execLines_setcc (host : Host W) (callee : Symbol → Machine W → Option (Machine W))
    (cond : Cond) {flags : Flags} (hflags : m₁.flags = some flags) (hk : m.Keeps m₁) :
    ∃ m₂, execLines host callee [.set cond, .movzx .rax] m₁ = some (.next, m₂) ∧ m.Keeps m₂ ∧
      m₂.regs .rax = wordOfBool (cond.holds flags) ∧ m₂.world = m₁.world := by
  let bit : BitVec 8 := if cond.holds flags then 1 else 0
  have hset : execLine host (.set cond) m₁ =
      some (.next, m₁.setReg .rax (setLowByte (m₁.regs .rax) bit)) := by
    rw [execLine, hflags]
    rfl
  refine ⟨(m₁.setReg .rax (setLowByte (m₁.regs .rax) bit)).setReg .rax (bit.setWidth 64), ?_,
    (hk.setReg (by decide) _).setReg (by decide) _, ?_, rfl⟩
  · rw [execLines_cons hset]
    simp [execLines, execLine]
  · rw [Machine.setReg_regs, Function.update_self]
    exact setWidth_bit _

variable (hvalid : alloc.Valid)
include hvalid

theorem emits_neg {value : ℕ} {x : Word} (hx : f.readWord alloc.placement value = some x)
    (hdef : f.define alloc.placement dest (-x) = some f') :
    EmitsTo host callee alloc m f (.neg dest value) (.next f' w) := by
  obtain ⟨load, hload, hrun⟩ := (hm.readWord hvalid hx).load host callee hf .rax
  have hk : m.Keeps (m.setReg .rax x) := (Machine.Keeps.refl m).setReg (by decide) x
  refine .of_register hm hf .rax (load ++ [Line.neg .rax]) rfl hdef ?_
    ⟨((m.setReg .rax x).setReg .rax (-x)).setFlags none, ?_,
      (hk.setReg (by decide) _).setFlags _, by simp, hm.world⟩
  · intro st hst
    simp [emitInstruction, hload, hst]
  · rw [execLines_append (hrun m (.refl m))]
    simp [execLines, execLine]

theorem emits_not {value : ℕ} {x : Word} (hx : f.readWord alloc.placement value = some x)
    (hdef : f.define alloc.placement dest (wordOfBool (x = 0)) = some f') :
    EmitsTo host callee alloc m f (.not dest value) (.next f' w) := by
  obtain ⟨load, hload, hrun⟩ := (hm.readWord hvalid hx).load host callee hf .rax
  have hk : m.Keeps ((m.setReg .rax x).setFlags (some (cmpFlags x 0))) :=
    ((Machine.Keeps.refl m).setReg (by decide) x).setFlags _
  obtain ⟨m₂, hexec, hk₂, hv, hworld⟩ := execLines_setcc host callee .e rfl hk
  refine .of_register hm hf .rax (load ++ [Line.cmpImm .rax ['0'], .set .e, .movzx .rax]) rfl hdef
    ?_
    ⟨m₂, ?_, hk₂, ?_, hworld.trans hm.world⟩
  · intro st hst
    simp [emitInstruction, hload, hst]
  · rw [execLines_append (hrun m (.refl m)), ← hexec]
    exact execLines_cons (by simp [execLine]) _
  · rw [hv, Cond.holds, cmpFlags_zero]

/-- The two operands of a binary instruction in `rax` and `rcx`. -/
theorem Holds.loadPair (callee : Symbol → Machine W → Option (Machine W)) {left right : ℕ}
    {a b : Word} (ha : f.readWord alloc.placement left = some a)
    (hb : f.readWord alloc.placement right = some b) :
    ∃ first second, loadTempInto f.fn alloc left .rax = some first ∧
      loadTempInto f.fn alloc right .rcx = some second ∧
      execLines host callee (first ++ second) m =
        some (.next, (m.setReg .rax a).setReg .rcx b) := by
  obtain ⟨first, hfirst, hrun₁⟩ := (hm.readWord hvalid ha).load host callee hf .rax
  obtain ⟨second, hsecond, hrun₂⟩ := (hm.readWord hvalid hb).load host callee hf .rcx
  refine ⟨first, second, hfirst, hsecond, ?_⟩
  rw [execLines_append (hrun₁ m (.refl m))]
  exact hrun₂ _ ((Machine.Keeps.refl m).setReg (by decide) a)

theorem emits_alu {op : BinOp} {alu : AluOp} {left right : ℕ} {a b : Word}
    (ha : f.readWord alloc.placement left = some a)
    (hb : f.readWord alloc.placement right = some b) (halu : op.alu = some alu)
    (hdiv : ¬(op = .div ∨ op = .mod)) (hlogical : ¬(op = .and ∨ op = .or))
    (hdef : f.define alloc.placement dest (alu.eval a b) = some f') :
    EmitsTo host callee alloc m f (.bin dest op left right) (.next f' w) := by
  obtain ⟨first, second, hfirst, hsecond, hrun⟩ := hm.loadPair hf hvalid callee ha hb
  have hk : m.Keeps ((m.setReg .rax a).setReg .rcx b) :=
    ((Machine.Keeps.refl m).setReg (by decide) a).setReg (by decide) b
  refine .of_register hm hf .rax (first ++ second ++ [Line.alu alu .rax .rcx]) rfl hdef ?_
    ⟨(((m.setReg .rax a).setReg .rcx b).setReg .rax (alu.eval a b)).setFlags none, ?_,
      (hk.setReg (by decide) _).setFlags _, by simp, hm.world⟩
  · intro st hst
    simp [emitInstruction, hdiv, hlogical, halu, hfirst, hsecond, hst]
  · rw [execLines_append hrun]
    simp [execLines, execLine, Function.update_of_ne]

/-- Division and remainder. -/
theorem emits_div {op : BinOp} {left right : ℕ} {a b : Word}
    (ha : f.readWord alloc.placement left = some a)
    (hb : f.readWord alloc.placement right = some b) (hdiv : op = .div ∨ op = .mod)
    (hzero : b ≠ 0) (hfits : a.toInt.tdiv b.toInt < 2 ^ 63)
    (hdef : f.define alloc.placement dest (if op = .div then a.sdiv b else a.srem b) = some f') :
    EmitsTo host callee alloc m f (.bin dest op left right) (.next f' w) := by
  obtain ⟨first, hfirst, hrun₁⟩ := (hm.readWord hvalid ha).load host callee hf .rax
  obtain ⟨second, hsecond, hrun₂⟩ := (hm.readWord hvalid hb).load host callee hf .rcx
  -- the extension of the dividend writes `rdx`, which holds no operand
  have hk₁ : m.Keeps ((m.setReg .rax a).setReg .rdx (signWord a)) :=
    ((Machine.Keeps.refl m).setReg (by decide) a).setReg (by decide) _
  have hk₂ := hk₁.setReg (r := .rcx) (by decide) b
  refine .of_register hm hf (if op = .div then .rax else .rdx)
    (first ++ [Line.cqo] ++ second ++ [Line.idiv .rcx]) rfl hdef ?_
    ⟨(((((m.setReg .rax a).setReg .rdx (signWord a)).setReg .rcx b).setReg .rax
      (a.sdiv b)).setReg .rdx (a.srem b)).setFlags none, ?_,
      ((hk₂.setReg (by decide) _).setReg (by decide) _).setFlags _, ?_, hm.world⟩
  · intro st hst
    simp [emitInstruction, hdiv, hfirst, hsecond, hst]
  · have hcqo : execLines host callee (first ++ [Line.cqo]) m =
        some (.next, (m.setReg .rax a).setReg .rdx (signWord a)) := by
      rw [execLines_append (hrun₁ m (.refl m))]
      simp [execLines, execLine]
    rw [List.append_assoc (first ++ [Line.cqo]), execLines_append hcqo,
      execLines_append (hrun₂ _ hk₁)]
    simp [execLines, execLine, idivResult_signWord hzero hfits]
  · rcases hdiv with rfl | rfl <;> simp

omit hm hf hvalid in
theorem CmpOp.cond_holds (cmp : CmpOp) (a b : Word) :
    cmp.cond.holds (cmpFlags a b) = cmp.eval a b := by
  cases cmp with
  | eq => exact cmpFlags_zero a b
  | ne =>
      rw [cond, Cond.holds, cmpFlags_zero]
      simp [eval]
  | lt => exact Cond.holds_l a b
  | le => exact Cond.holds_le a b
  | gt => exact Cond.holds_g a b
  | ge => exact Cond.holds_ge a b

theorem emits_cmp {cmp : CmpOp} {left : ℕ} {right : CmpRight} {a b : Word}
    (hwritten : (Instr.cmp dest cmp left right).Written)
    (ha : f.readWord alloc.placement left = some a)
    (hb : f.readRight alloc.placement right = some b)
    (hdef : f.define alloc.placement dest (wordOfBool (cmp.eval a b)) = some f') :
    EmitsTo host callee alloc m f (.cmp dest cmp left right) (.next f' w) := by
  cases right with
  | imm value =>
      cases hb
      obtain ⟨load, hload, hrun⟩ := (hm.readWord hvalid ha).load host callee hf .rax
      have hk : m.Keeps ((m.setReg .rax a).setFlags (some (cmpFlags a (BitVec.ofNat 64 value)))) :=
        ((Machine.Keeps.refl m).setReg (by decide) a).setFlags _
      obtain ⟨m₂, hexec, hk₂, hv, hworld⟩ := execLines_setcc host callee cmp.cond rfl hk
      refine .of_register hm hf .rax
        (load ++ [Line.cmpImm .rax (numberText value), .set cmp.cond, .movzx .rax]) rfl
        hdef ?_ ⟨m₂, ?_, hk₂, hv.trans (congrArg _ (cmp.cond_holds a _)), hworld.trans hm.world⟩
      · intro st hst
        simp [emitInstruction, hload, hst]
      · have hword : asmSigned (numberText value) = some (BitVec.ofNat 64 value) := hwritten
        rw [execLines_append (hrun m (.refl m)), ← hexec]
        exact execLines_cons (by simp [execLine, hword]) _
  | temp right =>
      obtain ⟨first, second, hfirst, hsecond, hrun⟩ := hm.loadPair hf hvalid callee ha hb
      have hk : m.Keeps (((m.setReg .rax a).setReg .rcx b).setFlags (some (cmpFlags a b))) :=
        (((Machine.Keeps.refl m).setReg (by decide) a).setReg (by decide) b).setFlags _
      obtain ⟨m₂, hexec, hk₂, hv, hworld⟩ := execLines_setcc host callee cmp.cond rfl hk
      refine .of_register hm hf .rax
        (first ++ second ++ [Line.cmp .rax .rcx, .set cmp.cond, .movzx .rax]) rfl
        hdef ?_ ⟨m₂, ?_, hk₂, hv.trans (congrArg _ (cmp.cond_holds a b)), hworld.trans hm.world⟩
      · intro st hst
        simp [emitInstruction, hfirst, hsecond, hst]
      · rw [execLines_append hrun, ← hexec]
        exact execLines_cons (by simp [execLine]) _

theorem emits_storeLocal {slot value : ℕ} {type : Option Ty} {v : Word}
    (hslot : slot < f.fn.locals.length) (hv : f.read alloc.placement value = some v) :
    EmitsTo host callee alloc m f (.storeLocal slot type value)
      (.next { f.next with locals := Function.update f.locals slot (some v) } w) := by
  obtain ⟨load, hload, hrun⟩ := (hm.read hvalid hv).load host callee hf .rax
  have hk : m.Keeps (m.setReg .rax v) := (Machine.Keeps.refl m).setReg (by decide) v
  have hspill : ∀ s, spillOffset f.fn s ≠ localOffset slot := by
    intro s
    unfold spillOffset localOffset
    omega
  have hlocal : ∀ s, s ≠ slot → localOffset s ≠ localOffset slot := by
    intro s hs
    unfold localOffset
    omega
  let m' := (m.setReg .rax v).setMemory ((m.setReg .rax v).slot (localOffset slot)) (.word v)
  have hplaces : ∀ loc, alloc.Place loc → m'.readLoc host f.fn loc = m.readLoc host f.fn loc := by
    intro loc hplace
    rw [← hk.readLoc host hf hplace]
    cases loc with
    | reg r => rfl
    | spill s => exact Machine.slotWord_setMemory_of_ne host _ (hspill s) _
  have hothers : ∀ s < f.fn.locals.length, s ≠ slot →
      m'.slotWord host (localOffset s) = m.slotWord host (localOffset s) := by
    intro s hs hne
    rw [← hk.slotWord host (hf.local hs)]
    exact Machine.slotWord_setMemory_of_ne host _ (hlocal s hne) _
  refine ⟨load ++ [Line.store (localOffset slot) .rax], .next, m', by simp [emitInstruction, hload],
    ?_, ⟨rfl, rfl, fun loc hplace _ => hplaces loc hplace, ?_⟩, ⟨?_, ?_, hm.world⟩, rfl⟩
  · rw [execLines_append (hrun m (.refl m))]
    simp [execLines, execLine, m']
  · intro s hs hne
    exact hothers s hs (by simpa [Instr.writtenSlots] using hne)
  · intro loc u hplace hu
    exact (hplaces loc hplace).trans (hm.temps loc u hplace hu)
  · intro s u hs hu
    by_cases heq : s = slot
    · subst heq
      simp only [Function.update_self] at hu
      rw [← Option.some.inj hu]
      simp [m', Machine.slotWord, Machine.slot, host.bits_word]
    · rw [hothers s hs heq]
      exact hm.locals s u hs (by simpa [Function.update_of_ne heq] using hu)

/-- The argument registers after the loads of a call. -/
theorem Holds.loadArgs (callee : Symbol → Machine W → Option (Machine W)) {args : List ℕ}
    {vals : List Word} (hargs : args.length ≤ argRegs.length)
    (hvals : f.readAll alloc.placement args = some vals) :
    ∃ lines m₂, Native.loadArgs f.fn alloc args argRegs = some lines ∧
      execLines host callee lines m = some (.next, m₂) ∧ m.Keeps m₂ ∧ m₂.world = w ∧
      m₂.HoldsArgs vals := by
  obtain ⟨lines, hlines, hruns⟩ :=
    Machine.TempIs.loadArgs hf (hm.readAll hvalid hvals) hargs (by decide) (by decide)
  obtain ⟨m₂, hexec, hk, hworld, _, hregs⟩ := hruns m (.refl m)
  exact ⟨lines, m₂, hlines, hexec, hk, hworld.trans hm.world, hregs⟩

/-- A call, of a function of the unit or of the runtime. -/
theorem emits_call {target : CallTarget} {args : List ℕ} {vals : List Word}
    {meaning : List Word → W → Option (Word × W)} {call : Machine W → Option (Machine W)}
    {v : Word} {w' : W} (hcall : SysV call meaning)
    (htarget : ∀ m, execLines host callee [.call target] m = (call m).map fun m => (.next, m))
    (hargs : args.length ≤ argRegs.length)
    (hvals : f.readAll alloc.placement args = some vals) (hv : meaning vals w = some (v, w'))
    (hd : tempDefs inst = [dest])
    (hemit : emitInstruction f.fn alloc inst = emitCall f.fn alloc dest target args)
    (hdef : f.define alloc.placement dest v = some f') :
    EmitsTo host callee alloc m f inst (.next f' w') := by
  obtain ⟨lines, m₂, hlines, hexec, hk, hworld, hregs⟩ := hm.loadArgs hf hvalid callee hargs hvals
  obtain ⟨m₃, hm₃, hk₃, hrax, hworld₃⟩ := hcall m₂ vals v w' hregs (by rw [hworld, hv])
  refine .of_register hm hf .rax (lines ++ [Line.call target]) hd hdef ?_
    ⟨m₃, ?_, hk.trans hk₃, hrax, hworld₃⟩
  · intro st hst
    rw [hemit]
    simp [emitCall, Nat.not_lt.mpr hargs, hlines, hst]
  · rw [execLines_append hexec, htarget, hm₃]
    rfl

theorem emits_print {value : ℕ} {type : RuntimeTy} {v u : Word} {w' : W}
    (hcall : SysV (host.callRuntime (.print type)) (R.call (.print type)))
    (hread : f.read alloc.placement value = some v)
    (hv : R.call (.print type) [v] w = some (u, w')) :
    EmitsTo host callee alloc m f (.print value type) (.next f.next w') := by
  obtain ⟨load, hload, hrun⟩ := (hm.read hvalid hread).load host callee hf .rdi
  have hk : m.Keeps (m.setReg .rdi v) := (Machine.Keeps.refl m).setReg (by decide) v
  have hargs : (m.setReg .rdi v).HoldsArgs [v] := by
    rintro (_ | i) x hx
    · cases hx
      exact ⟨.rdi, rfl, by simp⟩
    · simp at hx
  obtain ⟨m₃, hm₃, hk₃, _, rfl⟩ :=
    hcall _ [v] u w' hargs (by rw [Machine.setReg_world, hm.world, hv])
  refine ⟨load ++ [Line.call (.runtime (.print type))], .next, m₃,
    by simp [emitInstruction, hload], ?_, ?_, ?_, rfl⟩
  · rw [execLines_append (hrun m (.refl m))]
    simp [execLines, execLine, hm₃]
  · exact (hk.trans hk₃).keepsFrame host hf
  · exact hm.next hf (hk.trans hk₃) _

theorem emits_br {cond : ℕ} {x : Word} {thenLabel elseLabel : Label}
    (hx : f.readWord alloc.placement cond = some x)
    (hjump : f.jump (if x ≠ 0 then thenLabel else elseLabel) = some f') :
    EmitsTo host callee alloc m f (.br cond thenLabel elseLabel) (.next f' w) := by
  obtain ⟨load, hload, hrun⟩ := (hm.readWord hvalid hx).load host callee hf .rax
  have hk : m.Keeps ((m.setReg .rax x).setFlags (some (cmpFlags x 0))) :=
    ((Machine.Keeps.refl m).setReg (by decide) x).setFlags _
  obtain ⟨i, hi, rfl⟩ := Option.map_eq_some_iff.mp hjump
  refine ⟨load ++ [Line.cmpImm .rax ['0'], .jne (.control thenLabel), .jmp (.control elseLabel)],
    .jump (.control (if x ≠ 0 then thenLabel else elseLabel)), _, by simp [emitInstruction, hload],
    ?_, hk.keepsFrame host hf, ?_, hi⟩
  · rw [execLines_append (hrun m (.refl m))]
    by_cases hzero : x = 0#64 <;> simp [execLines, execLine, cmpFlags_zero, hzero]
  · have := hm.next hf hk i
    rwa [Machine.setFlags_world, Machine.setReg_world, hm.world] at this

theorem emits_ret {value : ℕ} {type : Option Ty} {v : Word}
    (hv : f.read alloc.placement value = some v) :
    EmitsTo host callee alloc m f (.ret value type) (.returned v w) := by
  obtain ⟨load, hload, hrun⟩ := (hm.read hvalid hv).load host callee hf .rax
  have hk : m.Keeps (m.setReg .rax v) := (Machine.Keeps.refl m).setReg (by decide) v
  refine ⟨load ++ [Line.jmp .epilogue], .jump .epilogue, m.setReg .rax v,
    by simp [emitInstruction, hload], ?_, hk.keepsFrame host hf, rfl, by simp, hm.world⟩
  rw [execLines_append (hrun m (.refl m))]
  simp [execLines, execLine]

end Instruction

/-- An instruction that runs to the next instruction of the same activation. -/
theorem instrResult_eq_some {R : Runtime} {unit : IRUnit} {place : Placement Location}
    {callee : Symbol → List R.Value → R.World → Option (R.Value × R.World)}
    {f : Frame R Location} {w : R.World} {inst : Instr} {r : InstrResult R}
    (hcall : ∀ dest symbol args type, inst ≠ .call dest symbol args type)
    (hret : ∀ value type, inst ≠ .ret value type)
    (h : instrResult unit place callee f w inst = some r) :
    ∃ f' w', execInstr place unit f [] w inst = some (.running [f'] w') ∧ r = .next f' w' := by
  have heq : instrResult unit place callee f w inst =
      match execInstr place unit f [] w inst with
      | some (.running [f] w) => some (.next f w)
      | _ => none := by
    cases inst <;> first | rfl | exact absurd rfl (hcall _ _ _ _) | exact absurd rfl (hret _ _)
  rw [heq] at h
  split at h
  · rename_i f' w' hexec
    cases h
    exact ⟨f', w', hexec, rfl⟩
  · cases h

/-! ## All instructions -/

/-- The slots an instruction names are slots of the function, its arguments fit in registers, and
it is not a logical connective. -/
def Instr.Selectable (fn : IRFunction) : Instr → Prop
  | .loadLocal _ slot _ => slot < fn.locals.length
  | .storeLocal slot _ _ => slot < fn.locals.length
  | .bin _ op _ _ => ¬(op = .and ∨ op = .or)
  | .call _ _ args _ => args.length ≤ argRegs.length
  | .callRuntime _ _ args _ => args.length ≤ argRegs.length
  | _ => True

/-- The quotient of a division fits in a word. -/
def Instr.QuotientFits {R : Runtime} (place : Placement Location) (f : Frame R Location) :
    Instr → Prop
  | .bin _ op left right => op = .div ∨ op = .mod → ∀ a b, f.readWord place left = some a →
      f.readWord place right = some b → a.toInt.tdiv b.toInt < 2 ^ 63
  | _ => True

/-- A `bin` instruction that is not a logical connective. -/
theorem emits_bin {R : WordRuntime W} {callee : Symbol → Machine W → Option (Machine W)}
    {alloc : Allocation} {m : Machine W} {f f' : Frame R.toRuntime Location} {w : W}
    (hm : Holds host alloc m f w) (hf : m.FrameAllocated f.fn alloc) (hvalid : alloc.Valid)
    {dest left right : ℕ} {op : BinOp} {a b v : Word}
    (ha : f.readWord alloc.placement left = some a)
    (hb : f.readWord alloc.placement right = some b) (hv : op.eval a b = some v)
    (hlogical : ¬(op = .and ∨ op = .or))
    (hfits : op = .div ∨ op = .mod → a.toInt.tdiv b.toInt < 2 ^ 63)
    (hdef : f.define alloc.placement dest v = some f') :
    EmitsTo host callee alloc m f (.bin dest op left right) (.next f' w) := by
  cases op with
  | add =>
      cases hv
      exact emits_alu hm hf hvalid ha hb rfl (by decide) hlogical hdef
  | sub =>
      cases hv
      exact emits_alu hm hf hvalid ha hb rfl (by decide) hlogical hdef
  | mul =>
      cases hv
      exact emits_alu hm hf hvalid ha hb rfl (by decide) hlogical hdef
  | div =>
      rw [BinOp.eval] at hv
      split at hv
      · cases hv
      · rename_i hzero
        cases hv
        exact emits_div hm hf hvalid ha hb (.inl rfl) hzero (hfits (.inl rfl)) hdef
  | mod =>
      rw [BinOp.eval] at hv
      split at hv
      · cases hv
      · rename_i hzero
        cases hv
        exact emits_div hm hf hvalid ha hb (.inr rfl) hzero (hfits (.inr rfl)) hdef
  | and => exact absurd (.inl rfl) hlogical
  | or => exact absurd (.inr rfl) hlogical

/-- The lines of an instruction that goes on to the next one lead to the state after it, if those of
an operator do. -/
theorem emits_step {R : WordRuntime W} (unit : IRUnit)
    {callee : Symbol → Machine W → Option (Machine W)} {alloc : Allocation} {m : Machine W}
    {f f' : Frame R.toRuntime Location} {w w' : W} {inst : Instr}
    (hdata : ∀ l v, R.toRuntime.address unit.consts l = some v → host.dataAddress l = v)
    (hruntime : ∀ g, SysV (host.callRuntime g) (R.call g)) (hvalid : alloc.Valid)
    (hf : m.FrameAllocated f.fn alloc) (hm : Holds host alloc m f w) (hwritten : inst.Written)
    (hload : ∀ dest slot type, inst = .loadLocal dest slot type → slot < f.fn.locals.length)
    (hstore : ∀ slot type value, inst = .storeLocal slot type value → slot < f.fn.locals.length)
    (hargs : ∀ dest g args type, inst = .callRuntime dest g args type →
      args.length ≤ argRegs.length)
    (hbin : ∀ dest op left right a b v, inst = .bin dest op left right →
      f.readWord alloc.placement left = some a → f.readWord alloc.placement right = some b →
      op.eval a b = some v → f.define alloc.placement dest v = some f' →
      EmitsTo host callee alloc m f inst (.next f' w))
    (hcall : ∀ dest symbol args type, inst ≠ .call dest symbol args type)
    (hret : ∀ value type, inst ≠ .ret value type)
    (hstep : execInstr alloc.placement unit f [] w inst = some (.running [f'] w')) :
    EmitsTo host callee alloc m f inst (.next f' w') := by
  cases inst with
  | call dest symbol args type => exact absurd rfl (hcall _ _ _ _)
  | ret value type => exact absurd rfl (hret _ _)
  | constInt dest value type =>
      obtain ⟨f₁, hdef, hstep⟩ := Option.bind_eq_some_iff.mp hstep
      cases hstep
      exact .of_direct hm hf rfl hdef rfl fun r => execLine_movImm hwritten r m
  | constStr dest label =>
      obtain ⟨v, hv, hstep⟩ := Option.bind_eq_some_iff.mp hstep
      obtain ⟨f₁, hdef, hstep⟩ := Option.bind_eq_some_iff.mp hstep
      cases hstep
      refine .of_direct hm hf rfl hdef rfl fun r => ?_
      rw [execLine, hdata label v hv]
  | constPtr dest label type =>
      obtain ⟨v, hv, hstep⟩ := Option.bind_eq_some_iff.mp hstep
      obtain ⟨f₁, hdef, hstep⟩ := Option.bind_eq_some_iff.mp hstep
      cases hstep
      refine .of_direct hm hf rfl hdef rfl fun r => ?_
      rw [execLine, hdata label v hv]
  | loadLocal dest slot type =>
      obtain ⟨v, hv, hstep⟩ := Option.bind_eq_some_iff.mp hstep
      obtain ⟨f₁, hdef, hstep⟩ := Option.bind_eq_some_iff.mp hstep
      cases hstep
      refine .of_direct hm hf rfl hdef rfl fun r => ?_
      rw [execLine, hm.locals slot v (hload _ _ _ rfl) hv]
  | storeLocal slot type value =>
      obtain ⟨v, hv, hstep⟩ := Option.bind_eq_some_iff.mp hstep
      cases hstep
      exact emits_storeLocal hm hf hvalid (hstore _ _ _ rfl) hv
  | neg dest value =>
      obtain ⟨x, hx, hstep⟩ := Option.bind_eq_some_iff.mp hstep
      obtain ⟨f₁, hdef, hstep⟩ := Option.bind_eq_some_iff.mp hstep
      cases hstep
      exact emits_neg hm hf hvalid hx hdef
  | not dest value =>
      obtain ⟨x, hx, hstep⟩ := Option.bind_eq_some_iff.mp hstep
      obtain ⟨f₁, hdef, hstep⟩ := Option.bind_eq_some_iff.mp hstep
      cases hstep
      exact emits_not hm hf hvalid hx hdef
  | bin dest op left right =>
      obtain ⟨a, ha, hstep⟩ := Option.bind_eq_some_iff.mp hstep
      obtain ⟨b, hb, hstep⟩ := Option.bind_eq_some_iff.mp hstep
      obtain ⟨v, hv, hstep⟩ := Option.bind_eq_some_iff.mp hstep
      obtain ⟨f₁, hdef, hstep⟩ := Option.bind_eq_some_iff.mp hstep
      cases hstep
      exact hbin _ _ _ _ _ _ _ rfl ha hb hv hdef
  | cmp dest cmp left right =>
      obtain ⟨a, ha, hstep⟩ := Option.bind_eq_some_iff.mp hstep
      obtain ⟨b, hb, hstep⟩ := Option.bind_eq_some_iff.mp hstep
      obtain ⟨f₁, hdef, hstep⟩ := Option.bind_eq_some_iff.mp hstep
      cases hstep
      exact emits_cmp hm hf hvalid hwritten ha hb hdef
  | callRuntime dest symbol args type =>
      obtain ⟨vals, hvals, hstep⟩ := Option.bind_eq_some_iff.mp hstep
      obtain ⟨⟨v, w₁⟩, hv, hstep⟩ := Option.bind_eq_some_iff.mp hstep
      obtain ⟨f₁, hdef, hstep⟩ := Option.bind_eq_some_iff.mp hstep
      cases hstep
      refine emits_call hm hf hvalid (hruntime symbol) (fun m => ?_) (hargs _ _ _ _ rfl) hvals hv
        rfl rfl hdef
      cases hrun : host.callRuntime symbol m <;> simp [execLines, execLine, hrun]
  | print value type =>
      obtain ⟨v, hread, hstep⟩ := Option.bind_eq_some_iff.mp hstep
      obtain ⟨⟨u, w₁⟩, hv, hstep⟩ := Option.bind_eq_some_iff.mp hstep
      cases hstep
      exact emits_print hm hf hvalid (hruntime _) hread hv
  | label name =>
      cases hstep
      refine ⟨_, .next, m, rfl, rfl, (Machine.Keeps.refl m).keepsFrame host hf, ?_, rfl⟩
      exact hm.world ▸ hm.next hf (.refl m) _
  | jmp target =>
      obtain ⟨f₁, hjump, hstep⟩ := Option.bind_eq_some_iff.mp hstep
      cases hstep
      obtain ⟨i, hi, rfl⟩ := Option.map_eq_some_iff.mp hjump
      refine ⟨_, .jump (.control target), m, rfl, rfl,
        (Machine.Keeps.refl m).keepsFrame host hf, ?_, hi⟩
      exact hm.world ▸ hm.next hf (.refl m) _
  | br cond thenLabel elseLabel =>
      obtain ⟨x, hx, hstep⟩ := Option.bind_eq_some_iff.mp hstep
      obtain ⟨f₁, hjump, hstep⟩ := Option.bind_eq_some_iff.mp hstep
      cases hstep
      exact emits_br hm hf hvalid hx hjump

/-- The lines of an instruction whose constants are written as they are compute what the instruction
does, for every placement of the temps and for callees that follow the System V convention. -/
theorem emits_instr {R : WordRuntime W} (unit : IRUnit)
    {callee : Symbol → Machine W → Option (Machine W)}
    (meaning : Symbol → List Word → W → Option (Word × W)) {alloc : Allocation} {m : Machine W}
    {f : Frame R.toRuntime Location} {w : W} {inst : Instr} {r : InstrResult R.toRuntime}
    (hdata : ∀ l v, R.toRuntime.address unit.consts l = some v → host.dataAddress l = v)
    (hruntime : ∀ g, SysV (host.callRuntime g) (R.call g))
    (hcallee : ∀ g, SysV (callee g) (meaning g)) (hvalid : alloc.Valid)
    (hf : m.FrameAllocated f.fn alloc) (hm : Holds host alloc m f w)
    (hselect : inst.Selectable f.fn) (hfits : inst.QuotientFits alloc.placement f)
    (hwritten : inst.Written)
    (hstep : instrResult unit alloc.placement meaning f w inst = some r) :
    EmitsTo host callee alloc m f inst r := by
  by_cases hcall : ∃ dest symbol args type, inst = .call dest symbol args type
  · obtain ⟨dest, symbol, args, type, rfl⟩ := hcall
    obtain ⟨vals, hvals, hstep⟩ := Option.bind_eq_some_iff.mp hstep
    obtain ⟨⟨v, w'⟩, hv, hstep⟩ := Option.bind_eq_some_iff.mp hstep
    obtain ⟨f', hdef, hstep⟩ := Option.bind_eq_some_iff.mp hstep
    cases hstep
    refine emits_call hm hf hvalid (hcallee symbol) (fun m => ?_) hselect hvals hv rfl rfl hdef
    cases hrun : callee symbol m <;> simp [execLines, execLine, hrun]
  · by_cases hret : ∃ value type, inst = .ret value type
    · obtain ⟨value, type, rfl⟩ := hret
      obtain ⟨v, hv, hstep⟩ := Option.bind_eq_some_iff.mp hstep
      cases hstep
      exact emits_ret hm hf hvalid hv
    · -- every other instruction stays in its activation
      have hcall : ∀ dest symbol args type, inst ≠ .call dest symbol args type :=
        fun _ _ _ _ heq => hcall ⟨_, _, _, _, heq⟩
      have hret : ∀ value type, inst ≠ .ret value type := fun _ _ heq => hret ⟨_, _, heq⟩
      obtain ⟨f', w', hexec, rfl⟩ := instrResult_eq_some hcall hret hstep
      refine emits_step host unit hdata hruntime hvalid hf hm hwritten ?_ ?_ ?_ ?_ hcall hret hexec
      · rintro dest slot type rfl
        exact hselect
      · rintro slot type value rfl
        exact hselect
      · rintro dest g args type rfl
        exact hselect
      · rintro dest op left right a b v rfl ha hb hv hdef
        exact emits_bin host hm hf hvalid ha hb hv hselect (fun h => hfits h a b ha hb) hdef

/-! ## A call of the runtime -/

/-- `observar` of integers over words: it prints its argument and returns it. -/
def observarRuntime : WordRuntime (List Word) where
  text := fun _ => 0
  list := fun _ _ => 0
  call
    | .observar .i64, [v], printed => some (v, printed ++ [v])
    | _, _, _ => none

/-- A machine code function that computes it. -/
def observarHost : Host (List Word) where
  bits
    | .word w => w
    | .address a => BitVec.ofInt 64 a
    | .code _ line => BitVec.ofNat 64 line
  bits_word := fun _ => rfl
  dataAddress := fun _ => 0
  callRuntime
    | .observar .i64, m =>
        some { m.setReg .rax (m.regs .rdi) with world := m.world ++ [m.regs .rdi] }
    | _, _ => none

theorem observarHost_sysV (g : RuntimeFn) :
    SysV (observarHost.callRuntime g) (observarRuntime.call g) := by
  intro m vals v w hargs hv
  unfold observarRuntime at hv
  dsimp only at hv
  split at hv
  · cases hv
    obtain ⟨r, hr, hrv⟩ := hargs 0 v rfl
    cases hr
    refine ⟨_, rfl, ⟨fun r hr => ?_, rfl, rfl, fun _ _ => rfl⟩, by simpa using hrv, by simp [hrv]⟩
    have hne : r ≠ .rax := by
      rintro rfl
      exact absurd hr (by decide)
    simp [Function.update_of_ne hne]
  · cases hv

/-- `t1 = call_runtime ptjs_observar_i64(t0)`. -/
def observarInstr : Instr := .callRuntime 1 (.observar .i64) [0] (some .i64)

def observarFn : IRFunction :=
  { name := "f", symbol := .fn "f", returnType := some .i64, params := [], locals := []
    instructions := [observarInstr], tempTypes := [some .i64, some .i64] }

/-- The argument is in a spill slot and the result in a register. -/
def observarAlloc : Allocation :=
  { locations := fun t =>
      if t = 0 then some (.spill 0) else if t = 1 then some (.reg .rbx) else none
    spillCount := 1
    usedRegs := [.rbx] }

def observarMachine : Machine (List Word) :=
  { regs := fun _ => 0, rbp := 96, rsp := 80, flags := none
    memory := fun a => if a = 88 then .word 7 else .word 0, world := [] }

def observarFrame : Frame observarRuntime.toRuntime Location :=
  { fn := observarFn, pc := 0, temps := fun loc => if loc = .spill 0 then some (7 : Word) else none
    locals := fun _ => none }

theorem observarAlloc_valid : observarAlloc.Valid := by
  intro t loc h
  unfold observarAlloc at h
  dsimp only at h
  split at h
  · cases h
    exact Nat.zero_lt_one
  · split at h
    · cases h
      exact List.mem_cons_self
    · cases h

theorem observarMachine_holds :
    Holds observarHost observarAlloc observarMachine observarFrame [] := by
  refine ⟨fun loc v _ hv => ?_, fun s v hs _ => absurd hs (Nat.not_lt_zero s), rfl⟩
  unfold observarFrame at hv
  dsimp only at hv
  split at hv
  · rename_i hloc
    subst hloc
    cases hv
    rfl
  · cases hv

/-! ## Constants -/

/-- The lines of an instruction compute what the instruction does, for every placement of the temps,
on every machine that holds a state of the IR, with callees that follow the System V convention. -/
def EmittedRight (inst : Instr) : Prop :=
  ∀ {W : Type} (host : Host W) (R : WordRuntime W) (unit : IRUnit)
    (callee : Symbol → Machine W → Option (Machine W))
    (meaning : Symbol → List Word → W → Option (Word × W)) (alloc : Allocation) (m : Machine W)
    (f : Frame R.toRuntime Location) (w : W) (r : InstrResult R.toRuntime),
    (∀ l v, R.toRuntime.address unit.consts l = some v → host.dataAddress l = v) →
    (∀ g, SysV (host.callRuntime g) (R.call g)) → (∀ g, SysV (callee g) (meaning g)) →
    alloc.Valid → m.FrameAllocated f.fn alloc → Holds host alloc m f w →
    inst.Selectable f.fn → inst.QuotientFits alloc.placement f →
    instrResult unit alloc.placement meaning f w inst = some r →
    EmitsTo host callee alloc m f inst r

/-- The constants of an instruction. -/
def Instr.constants : Instr → List ℕ
  | .constInt _ value _ => [value]
  | .cmp _ _ _ (.imm value) => [value]
  | _ => []

/-- The constant of a `const_int` is below `2 ^ 64` and what its double is written as; that of a
`cmp` also fits in 32 bits with their sign. -/
def Instr.ConstantsFit : Instr → Prop
  | .constInt _ value _ => value < 2 ^ 64 ∧ Shortest value value
  | .cmp _ _ _ (.imm value) =>
      (value < 2 ^ 31 ∨ 2 ^ 64 - 2 ^ 31 ≤ value ∧ value < 2 ^ 64) ∧ Shortest value value
  | _ => True

theorem asmSigned_eq_some {text : List Char} {word : Word} :
    asmSigned text = some word ↔ ∃ value, asmInteger text = some value ∧
      BitVec.ofNat 64 value = word ∧ -2 ^ 31 ≤ word.toInt ∧ word.toInt < 2 ^ 31 := by
  rw [asmSigned, Option.bind_eq_bind, Option.bind_eq_some_iff]
  refine exists_congr fun value => and_congr_right fun _ => ?_
  constructor
  · intro h
    split at h
    next hfits =>
      cases h
      exact ⟨rfl, hfits⟩
    next => cases h
  · rintro ⟨rfl, hfits⟩
    exact if_pos hfits

theorem signed32_iff {value : ℕ} (h : value < 2 ^ 64) :
    (-2 ^ 31 ≤ (BitVec.ofNat 64 value).toInt ∧ (BitVec.ofNat 64 value).toInt < 2 ^ 31) ↔
      (value < 2 ^ 31 ∨ 2 ^ 64 - 2 ^ 31 ≤ value ∧ value < 2 ^ 64) := by
  rw [BitVec.toInt_eq_toNat_cond, BitVec.toNat_ofNat, Nat.mod_eq_of_lt h]
  split <;> omega

/-- A double that a `cmp` reads as it is. -/
theorem asmSigned_numberText_self {d : ℕ} (hd : nearest d = d) :
    asmSigned (numberText d) = some (BitVec.ofNat 64 d) ↔
      (d < 2 ^ 31 ∨ 2 ^ 64 - 2 ^ 31 ≤ d ∧ d < 2 ^ 64) ∧ Shortest d d := by
  rw [asmSigned_eq_some]
  constructor
  · rintro ⟨value, hvalue, hword, hfits⟩
    obtain rfl : value = d := by
      by_contra hne
      exact ofNat_ne_of_asmInteger hd hvalue hne hword
    obtain ⟨hlt, hshortest⟩ := (asmInteger_numberText_self hd).mp hvalue
    exact ⟨(signed32_iff hlt).mp hfits, hshortest⟩
  · rintro ⟨hrange, hshortest⟩
    have hlt : d < 2 ^ 64 := by omega
    exact ⟨d, (asmInteger_numberText_self hd).mpr ⟨hlt, hshortest⟩, rfl,
      (signed32_iff hlt).mpr hrange⟩

theorem Instr.written_iff {inst : Instr} (hdoubles : ∀ d ∈ inst.constants, nearest d = d) :
    inst.Written ↔ inst.ConstantsFit := by
  cases inst with
  | constInt dest value type =>
      exact asmInteger_numberText_self (hdoubles value (by simp [constants]))
  | cmp dest cmp left right =>
      cases right with
      | imm value => exact asmSigned_numberText_self (hdoubles value (by simp [constants]))
      | temp right => exact Iff.rfl
  | _ => exact Iff.rfl

/-! ### Machines that tell constants apart -/

/-- Every temp is in `rbx`. -/
def probeAlloc : Allocation :=
  { locations := fun _ => some (.reg .rbx), spillCount := 0, usedRegs := [.rbx] }

def probeFrame (a : Word) : Frame observarRuntime.toRuntime Location :=
  { fn := { observarFn with instructions := [] }, pc := 0, locals := fun _ => none
    temps
      | .reg _ => some a
      | .spill _ => none }

def probeMachine (a : Word) : Machine (List Word) :=
  { regs := fun _ => a, rbp := 0, rsp := 0, flags := none, memory := fun _ => .word 0, world := [] }

theorem probeAlloc_valid : probeAlloc.Valid := by
  intro t loc h
  cases h
  exact List.mem_cons_self

theorem probe_holds (a : Word) :
    Holds observarHost probeAlloc (probeMachine a) (probeFrame a) [] := by
  refine ⟨fun loc v _ hv => ?_, fun s v hs _ => absurd hs (Nat.not_lt_zero s), rfl⟩
  cases loc with
  | reg r => exact Option.some.inj hv
  | spill s => cases hv

/-- What an instruction leaves in `rbx` where every register holds `a`. -/
theorem EmittedRight.probe {inst : Instr} (h : EmittedRight inst) (a : Word)
    (hselect : inst.Selectable (probeFrame a).fn)
    (hfits : inst.QuotientFits probeAlloc.placement (probeFrame a)) {x : Word} {w : List Word}
    {f : Frame observarRuntime.toRuntime Location} (hx : f.temps (.reg .rbx) = some x)
    (hstep : instrResult ⟨[], ⟨[], []⟩⟩ probeAlloc.placement (fun _ _ _ => none) (probeFrame a) []
      inst = some (.next f w)) :
    ∃ lines control m, emitInstruction (probeFrame a).fn probeAlloc inst = some lines ∧
      execLines observarHost (fun _ _ => none) lines (probeMachine a) = some (control, m) ∧
      m.regs .rbx = x := by
  have hcallee : ∀ g : Symbol, SysV ((fun _ _ => none : Symbol → Machine (List Word) → _) g)
      ((fun _ _ _ => none : Symbol → List Word → List Word → _) g) := by
    intro g m vals v w _ hv
    cases hv
  have hdata : ∀ l v, observarRuntime.toRuntime.address ⟨[], []⟩ l = some v →
      observarHost.dataAddress l = v := by
    intro l v hv
    cases l <;> cases hv
  obtain ⟨lines, control, m, hlines, hexec, -, hreflects⟩ := h observarHost observarRuntime
    ⟨[], ⟨[], []⟩⟩ _ _ probeAlloc (probeMachine a) (probeFrame a) [] _ hdata observarHost_sysV
    hcallee probeAlloc_valid (Int.le_refl 0) (probe_holds a) hselect hfits hstep
  exact ⟨lines, control, m, hlines, hexec, hreflects.1.temps _ _ List.mem_cons_self hx⟩

/-- The lines of a comparison with a constant that is read as `word`. -/
theorem probe_compares (a : Word) (cmp : CmpOp) {text : List Char} {word : Word}
    (h : asmSigned text = some word) : ∃ m, execLines observarHost (fun _ _ => none)
      [.mov .rax .rbx, .cmpImm .rax text, .set cmp.cond, .movzx .rax, .mov .rbx .rax]
      (probeMachine a) = some (.next, m) ∧ m.regs .rbx = wordOfBool (cmp.eval a word) := by
  have hk : (probeMachine a).Keeps
      (((probeMachine a).setReg .rax a).setFlags (some (cmpFlags a word))) :=
    ((Machine.Keeps.refl _).setReg (by decide) a).setFlags _
  obtain ⟨m₂, hset, -, hrax, -⟩ :=
    execLines_setcc observarHost (fun _ _ => none) cmp.cond rfl hk
  refine ⟨m₂.setReg .rbx (m₂.regs .rax), ?_, ?_⟩
  · rw [execLines_cons rfl, execLines_cons (by rw [execLine, h]; rfl)]
    exact execLines_append hset [.mov .rbx .rax]
  · rw [Machine.setReg_regs, Function.update_self, hrax, cmp.cond_holds]

theorem wordOfBool_injective {b c : Bool} (h : wordOfBool b = wordOfBool c) : b = c := by
  cases b <;> cases c <;> first | rfl | exact absurd h (by decide)

/-- A comparison tells two words apart with one of them. -/
theorem CmpOp.eval_injective {cmp : CmpOp} {b c : Word} (h : ∀ a, cmp.eval a b = cmp.eval a c) :
    b = c := by
  have hb := h b
  have hc := h c
  cases cmp with
  | eq => simpa [eval] using hb
  | ne => simpa [eval] using hb
  | lt =>
      have hcb : c.toInt ≤ b.toInt := by simpa [eval, BitVec.slt] using hb
      have hbc : b.toInt ≤ c.toInt := by simpa [eval, BitVec.slt] using hc
      exact BitVec.eq_of_toInt_eq (le_antisymm hbc hcb)
  | le =>
      have hbc : b.toInt ≤ c.toInt := by simpa [eval, BitVec.sle] using hb
      have hcb : c.toInt ≤ b.toInt := by simpa [eval, BitVec.sle] using hc
      exact BitVec.eq_of_toInt_eq (le_antisymm hbc hcb)
  | gt =>
      have hbc : b.toInt ≤ c.toInt := by simpa [eval, BitVec.slt] using hb
      have hcb : c.toInt ≤ b.toInt := by simpa [eval, BitVec.slt] using hc
      exact BitVec.eq_of_toInt_eq (le_antisymm hbc hcb)
  | ge =>
      have hcb : c.toInt ≤ b.toInt := by simpa [eval, BitVec.sle] using hb
      have hbc : b.toInt ≤ c.toInt := by simpa [eval, BitVec.sle] using hc
      exact BitVec.eq_of_toInt_eq (le_antisymm hbc hcb)

/-- An instruction with a constant that is not read as it is does something else somewhere. -/
theorem EmittedRight.written {inst : Instr} (hdoubles : ∀ d ∈ inst.constants, nearest d = d)
    (h : EmittedRight inst) : inst.Written := by
  cases inst with
  | constInt dest value type =>
      obtain ⟨lines, control, m, hlines, hexec, hrbx⟩ := h.probe 0 trivial trivial
        (x := BitVec.ofNat 64 value) rfl rfl
      cases hlines
      rw [execLines, execLine] at hexec
      cases hread : asmInteger (numberText value) with
      | none => simp [hread] at hexec
      | some value' =>
          rw [hread] at hexec
          cases hexec
          by_contra hne
          refine ofNat_ne_of_asmInteger (hdoubles value (by simp [Instr.constants])) hread ?_ ?_
          · rintro rfl
            exact hne hread
          · simpa using hrbx
  | cmp dest cmp left right =>
      cases right with
      | imm value =>
          cases hread : asmSigned (numberText value) with
          | none =>
              obtain ⟨lines, control, m, hlines, hexec, -⟩ := h.probe 0 trivial trivial
                (x := wordOfBool (cmp.eval 0 (BitVec.ofNat 64 value))) rfl rfl
              cases hlines
              simp [execLines, execLine, hread] at hexec
          | some word =>
              have heval : ∀ a, cmp.eval a (BitVec.ofNat 64 value) = cmp.eval a word := by
                intro a
                obtain ⟨lines, control, m, hlines, hexec, hrbx⟩ := h.probe a trivial trivial
                  (x := wordOfBool (cmp.eval a (BitVec.ofNat 64 value))) rfl rfl
                obtain ⟨m', hrun, hrbx'⟩ := probe_compares a cmp hread
                cases hlines
                cases hrun.symm.trans hexec
                exact wordOfBool_injective (hrbx.symm.trans hrbx')
              exact hread.trans (congrArg some (CmpOp.eval_injective heval).symm)
      | temp right => trivial
  | _ => trivial

/-- The lines of an instruction compute it exactly if its constants fit. The constants are doubles,
like every number of the compiler. -/
theorem emitInstruction_correct_iff {inst : Instr}
    (hdoubles : ∀ d ∈ inst.constants, nearest d = d) : EmittedRight inst ↔ inst.ConstantsFit := by
  rw [← Instr.written_iff hdoubles]
  constructor
  · exact fun h => h.written hdoubles
  · intro hwritten W host R unit callee meaning alloc m f w r hdata hruntime hcallee hvalid hf hm
      hselect hfits hstep
    exact emits_instr host unit meaning hdata hruntime hcallee hvalid hf hm hselect hfits hwritten
      hstep

theorem emitInstruction_correct_iff_observar :
    EmitsTo observarHost (fun _ _ => none) observarAlloc observarMachine observarFrame observarInstr
      (.next { observarFrame with
        pc := 1, temps := Function.update observarFrame.temps (.reg .rbx) (some (7 : Word)) }
            [7]) := by
  have hdoubles : ∀ d ∈ observarInstr.constants, nearest d = d := by
    simp [observarInstr, Instr.constants]
  refine (emitInstruction_correct_iff hdoubles).mpr trivial observarHost observarRuntime
    ⟨[observarFn], ⟨[], []⟩⟩ _ (fun _ _ _ => none) _ _ _ [] _ ?_ observarHost_sysV ?_
    observarAlloc_valid ?_ observarMachine_holds ?_ trivial rfl
  · intro l v h
    cases l <;> cases h
  · intro g m vals v w _ h
    cases h
  · unfold Machine.FrameAllocated
    decide
  · exact Nat.le_of_ble_eq_true rfl

/-- `2 ^ 57` is a double and a word, and it is written as another number. -/
theorem large_constant_emitted : nearest (2 ^ 57) = 2 ^ 57 ∧
    numberText (2 ^ 57) = "144115188075855870".toList ∧
    ¬ EmittedRight (.constInt 0 (2 ^ 57) (some .i64)) := by
  have hdouble : nearest (2 ^ 57) = 2 ^ 57 := by decide +kernel
  refine ⟨hdouble, by decide +kernel, fun h => ?_⟩
  have hwritten : asmInteger (numberText (2 ^ 57)) = some (2 ^ 57) :=
    h.written (by simpa [Instr.constants] using hdouble)
  revert hwritten
  decide +kernel

/-! ## Logical connectives -/

/-- The lines of a `bin` instruction leave `v` in the place of its destination. -/
def BinStores (callee : Symbol → Machine W → Option (Machine W)) (fn : IRFunction)
    (alloc : Allocation) (m : Machine W) (dest : ℕ) (op : BinOp) (left right : ℕ) (v : Word) :
    Prop :=
  ∃ lines m' loc, emitInstruction fn alloc (.bin dest op left right) = some lines ∧
    execLines host callee lines m = some (.next, m') ∧ alloc.locations dest = some loc ∧
    m'.readLoc host fn loc = v

section Logical

variable {host} {callee : Symbol → Machine W → Option (Machine W)} {fn : IRFunction}
  {alloc : Allocation} {m : Machine W}

theorem setLowByte_wordOfBool (b c : Bool) :
    setLowByte (wordOfBool b) (if c then 1 else 0) = wordOfBool c := by
  cases b <;> cases c <;> decide

/-- The lines of `emitBooleanize` for a register that is its own scratch register; they write the
low byte of `rax` too. -/
theorem emitBooleanize_runs (host : Host W) (callee : Symbol → Machine W → Option (Machine W))
    (reg : Reg) {m₁ : Machine W} (hreg : reg ∉ calleeSaved) (hk : m.Keeps m₁) :
    ∃ m₂, execLines host callee (emitBooleanize reg reg) m₁ = some (.next, m₂) ∧ m.Keeps m₂ ∧
      m₂.regs reg = wordOfBool (m₁.regs reg ≠ 0) ∧
      (.rax ≠ reg → m₂.regs .rax =
        setLowByte (m₁.regs .rax) (if decide (m₁.regs reg ≠ 0) then 1 else 0)) := by
  have hcond : Cond.ne.holds (cmpFlags (m₁.regs reg) 0) = decide (m₁.regs reg ≠ 0) := by
    rw [Cond.holds, cmpFlags_zero]
    simp
  let bit : BitVec 8 := if decide (m₁.regs reg ≠ 0) then 1 else 0
  let m₂ := (m₁.setFlags (some (cmpFlags (m₁.regs reg) 0))).setReg .rax
    (setLowByte (m₁.regs .rax) bit)
  have hset : execLine host (.set .ne) (m₁.setFlags (some (cmpFlags (m₁.regs reg) 0))) =
      some (.next, m₂) := by
    simp only [m₂, bit, ← hcond]
    rfl
  have hbits : (lowByte (m₂.regs .rax)).setWidth 64 = wordOfBool (m₁.regs reg ≠ 0) := by
    rw [← setWidth_bit]
    simp [m₂, bit]
  have hlines : emitBooleanize reg reg = [.cmpImm reg ['0'], .set .ne, .movzx reg] := by
    simp [emitBooleanize]
  refine ⟨m₂.setReg reg (wordOfBool (m₁.regs reg ≠ 0)), ?_,
    ((hk.setFlags _).setReg (by decide) _).setReg hreg _, by simp, fun hne => ?_⟩
  · have hcmp : execLine host (.cmpImm reg ['0']) m₁ =
        some (.next, m₁.setFlags (some (cmpFlags (m₁.regs reg) 0))) := rfl
    rw [hlines, execLines_cons hcmp, execLines_cons hset, execLines_cons rfl, hbits, execLines]
  · rw [Machine.setReg_regs, Function.update_of_ne hne]
    simp [m₂, bit]

/-- The truth value of the second operand is computed in the low byte of `rax`, which holds that
of the first one. -/
theorem booleanize_both (hf : m.FrameAllocated fn alloc)
    (callee : Symbol → Machine W → Option (Machine W)) {left right : ℕ} {l r : Word}
    (hl : m.TempIs host fn alloc left l) (hr : m.TempIs host fn alloc right r) :
    ∃ first second m₁, loadTempInto fn alloc left .rax = some first ∧
      loadTempInto fn alloc right .rcx = some second ∧
      execLines host callee
        (first ++ (emitBooleanize .rax .rax ++ (second ++ emitBooleanize .rcx .rcx))) m =
        some (.next, m₁) ∧ m₁.regs .rax = wordOfBool (r ≠ 0) ∧
      m₁.regs .rcx = wordOfBool (r ≠ 0) := by
  obtain ⟨first, hfirst, hrun₁⟩ := hl.load host callee hf .rax
  obtain ⟨second, hsecond, hrun₂⟩ := hr.load host callee hf .rcx
  have hk₁ : m.Keeps (m.setReg .rax l) := (Machine.Keeps.refl m).setReg (by decide) l
  obtain ⟨m₂, hbool₁, hk₂, hrax, _⟩ := emitBooleanize_runs host callee .rax (by decide) hk₁
  have hk₃ : m.Keeps (m₂.setReg .rcx r) := hk₂.setReg (by decide) r
  obtain ⟨m₄, hbool₂, _, hrcx, hlow⟩ := emitBooleanize_runs host callee .rcx (by decide) hk₃
  refine ⟨first, second, m₄, hfirst, hsecond, ?_, ?_, ?_⟩
  · rw [execLines_append (hrun₁ m (.refl m)), execLines_append hbool₁,
      execLines_append (hrun₂ m₂ hk₂), hbool₂]
  · have hrax' : (m₂.setReg .rcx r).regs .rax = wordOfBool ((m.setReg .rax l).regs .rax ≠ 0) := by
      rw [Machine.setReg_regs, Function.update_of_ne (by decide), hrax]
    rw [hlow (by decide), hrax', setLowByte_wordOfBool]
    simp
  · rw [hrcx]
    simp

/-- Both connectives leave the truth value of the second operand. -/
theorem logical_stores (callee : Symbol → Machine W → Option (Machine W))
    (hf : m.FrameAllocated fn alloc) {dest left right : ℕ} {op : BinOp}
    (hop : op = .and ∨ op = .or) {l r : Word} (hl : m.TempIs host fn alloc left l)
    (hr : m.TempIs host fn alloc right r) {loc : Location} (hloc : alloc.locations dest =
    some loc) :
    ∃ lines m', emitInstruction fn alloc (.bin dest op left right) = some lines ∧
      execLines host callee lines m = some (.next, m') ∧
      m'.readLoc host fn loc = wordOfBool (r ≠ 0) := by
  obtain ⟨first, second, m₁, hfirst, hsecond, hrun, hrax, hrcx⟩ := booleanize_both hf callee hl hr
  obtain ⟨st, hst, hstore⟩ : ∃ st, storeTempFrom fn alloc dest .rax = some st ∧ _ :=
    storeTempFrom_runs host callee hloc .rax
  obtain ⟨alu, halu, hself⟩ : ∃ alu, op.alu = some alu ∧ ∀ w, alu.eval w w = w := by
    rcases hop with rfl | rfl
    · exact ⟨.and, rfl, fun w => BitVec.and_self⟩
    · exact ⟨.or, rfl, fun w => BitVec.or_self⟩
  have hdiv : ¬(op = .div ∨ op = .mod) := by
    rcases hop with rfl | rfl <;> decide
  refine ⟨first ++ (emitBooleanize .rax .rax ++ (second ++ emitBooleanize .rcx .rcx)) ++
    (.alu alu .rax .rcx :: st), _, ?_, ?_, Machine.readLoc_writeLoc host
      ((m₁.setReg .rax (wordOfBool (r ≠ 0))).setFlags none) _ loc⟩
  · simp [emitInstruction, hdiv, hop, halu, hfirst, hsecond, hst]
  · have halu' : execLine host (.alu alu .rax .rcx) m₁ =
        some (.next, (m₁.setReg .rax (wordOfBool (r ≠ 0))).setFlags none) := by
      rw [execLine, hrax, hrcx, hself]
    rw [execLines_append hrun, execLines_cons halu', hstore]
    simp

theorem binStores_logical (hf : m.FrameAllocated fn alloc) {dest left right : ℕ} {op : BinOp}
    (hop : op = .and ∨ op = .or) {l r : Word} (hl : m.TempIs host fn alloc left l)
    (hr : m.TempIs host fn alloc right r) {loc : Location} (hloc : alloc.locations dest = some loc)
    (v : Word) :
    BinStores host callee fn alloc m dest op left right v ↔ wordOfBool (r ≠ 0) = v := by
  obtain ⟨lines, m', hlines, hexec, hv⟩ := logical_stores callee hf hop hl hr hloc
  constructor
  · rintro ⟨lines', m'', loc', hlines', hexec', hloc', hv'⟩
    rw [hlines] at hlines'
    rw [hloc] at hloc'
    cases hlines'
    cases hloc'
    rw [hexec] at hexec'
    cases hexec'
    exact hv.symm.trans hv'
  · rintro rfl
    exact ⟨lines, m', loc, hlines, hexec, hloc, hv⟩

/-- Both connectives leave the truth value of the right operand, which is the value of `&&` when
the left operand is not zero and of `||` when it is. -/
theorem emitInstruction_logical_iff (callee : Symbol → Machine W → Option (Machine W))
    (hf : m.FrameAllocated fn alloc) {dest left right : ℕ} {l r : Word}
    (hl : m.TempIs host fn alloc left l) (hr : m.TempIs host fn alloc right r) {loc : Location}
    (hloc : alloc.locations dest = some loc) :
    (BinStores host callee fn alloc m dest .and left right (wordOfBool (l ≠ 0 ∧ r ≠ 0)) ↔
      l ≠ 0 ∨ r = 0) ∧
    (BinStores host callee fn alloc m dest .or left right (wordOfBool (l ≠ 0 ∨ r ≠ 0)) ↔
      l = 0 ∨ r ≠ 0) := by
  constructor
  · rw [binStores_logical hf (.inl rfl) hl hr hloc]
    by_cases hl0 : l = 0#64 <;> by_cases hr0 : r = 0#64 <;> simp [hl0, hr0, wordOfBool]
  · rw [binStores_logical hf (.inr rfl) hl hr hloc]
    by_cases hl0 : l = 0#64 <;> by_cases hr0 : r = 0#64 <;> simp [hl0, hr0, wordOfBool]

end Logical

/-- The operands of a connective in `rbx` and `r12`, and its destination in a spill slot. -/
def logicalAlloc : Allocation :=
  { locations := fun t =>
      if t = 0 then some (.reg .rbx) else if t = 1 then some (.reg .r12)
      else if t = 2 then some (.spill 0) else none
    spillCount := 1
    usedRegs := [.rbx, .r12] }

/-- A machine with the operands `0` and `1`. -/
def logicalMachine : Machine (List Word) :=
  { observarMachine with regs := fun r => if r = .r12 then 1 else 0 }

theorem logicalMachine_left : logicalMachine.TempIs observarHost observarFn logicalAlloc 0 0 :=
  ⟨.reg .rbx, rfl, List.mem_cons_self, rfl⟩

theorem logicalMachine_right : logicalMachine.TempIs observarHost observarFn logicalAlloc 1 1 :=
  ⟨.reg .r12, rfl, List.mem_cons_of_mem _ List.mem_cons_self, rfl⟩

theorem logicalMachine_frame : logicalMachine.FrameAllocated observarFn logicalAlloc := by
  unfold Machine.FrameAllocated
  decide

theorem emitInstruction_logical_iff_zero_one :
    (BinStores observarHost (fun _ _ => none) observarFn logicalAlloc logicalMachine 2 .and 0 1
      (wordOfBool ((0 : Word) ≠ 0 ∧ (1 : Word) ≠ 0)) ↔ (0 : Word) ≠ 0 ∨ (1 : Word) = 0) ∧
    (BinStores observarHost (fun _ _ => none) observarFn logicalAlloc logicalMachine 2 .or 0 1
      (wordOfBool ((0 : Word) ≠ 0 ∨ (1 : Word) ≠ 0)) ↔ (0 : Word) = 0 ∨ (1 : Word) ≠ 0) :=
  emitInstruction_logical_iff _ logicalMachine_frame logicalMachine_left logicalMachine_right rfl

/-- `0 && 1` leaves 1. -/
theorem and_zero_one_stores_one :
    ¬BinStores observarHost (fun _ _ => none) observarFn logicalAlloc logicalMachine 2 .and 0 1
      (wordOfBool ((0 : Word) ≠ 0 ∧ (1 : Word) ≠ 0)) := by
  rw [binStores_logical logicalMachine_frame (.inl rfl) logicalMachine_left
    logicalMachine_right rfl]
  decide

end GatoCore.Native
