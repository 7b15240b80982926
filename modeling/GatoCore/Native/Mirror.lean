import GatoCore.Native.Activations
import GatoCore.Native.EntryExit

/-!
# The machine follows an activation

A function may store to the words where its prologue saved the registers of its caller; it then
gives back other registers than it was called with. The machine therefore holds the values an
activation will still read: its locals and its live temps. A call of a function that spoils
registers is harmless where no live temp is in one.
-/

namespace GatoCore.Native

open GatoCore.Lib

variable {W : Type}

/-! ## Operators -/

/-- The operands on which the lines of an operator compute it: `idiv` faults on a quotient that
does not fit, and both connectives leave the truth value of the right operand. -/
def BinOp.Computes : BinOp → Word → Word → Prop
  | .div, a, b | .mod, a, b => a.toInt.tdiv b.toInt < 2 ^ 63
  | .and, a, b => a ≠ 0 ∨ b = 0
  | .or, a, b => a = 0 ∨ b ≠ 0
  | _, _, _ => True

/-- The value of a connective that is computed. -/
theorem BinOp.Computes.eval_logical {op : BinOp} {a b : Word} (h : op.Computes a b)
    (hop : op = .and ∨ op = .or) : op.eval a b = some (wordOfBool (b ≠ 0)) := by
  rcases hop with rfl | rfl
  · rcases h with ha | rfl
    · have ha : a ≠ 0#64 := ha
      simp [BinOp.eval, ha]
    · simp [BinOp.eval]
  · rcases h with rfl | hb
    · simp [BinOp.eval]
    · have hb : b ≠ 0#64 := hb
      simp [BinOp.eval, hb]

/-- The operator an activation is at is computed by its lines. -/
def Frame.Computes {R : Runtime} (f : Frame R ℕ) : Prop :=
  ∀ dest op left right a b, f.fn.instructions[f.pc]? = some (.bin dest op left right) →
    f.readWord tempPlacement left = some a → f.readWord tempPlacement right = some b →
    op.Computes a b

section Logical

variable {host : Host W} {callee : Symbol → Machine W → Option (Machine W)} {R : WordRuntime W}
  {alloc : Allocation} {m : Machine W} {f f' : Frame R.toRuntime Location} {w : W}

theorem execLine_world {line : Line} {m m' : Machine W} {control : Control}
    (hcall : ∀ target, line ≠ .call target) (h : execLine host line m = some (control, m')) :
    m'.world = m.world := by
  cases line with
  | call target => exact absurd rfl (hcall target)
  | movImm dst text =>
      obtain ⟨value, -, hm'⟩ := Option.bind_eq_some_iff.mp h
      cases hm'
      rfl
  | cmpImm left text =>
      obtain ⟨word, -, hm'⟩ := Option.bind_eq_some_iff.mp h
      cases hm'
      rfl
  | set cond =>
      obtain ⟨flags, -, hm'⟩ := Option.bind_eq_some_iff.mp h
      cases hm'
      rfl
  | idiv r =>
      obtain ⟨result, -, hm'⟩ := Option.bind_eq_some_iff.mp h
      cases hm'
      rfl
  | jne l =>
      obtain ⟨flags, -, hm'⟩ := Option.bind_eq_some_iff.mp h
      cases hm'
      rfl
  | popRbp =>
      rw [execLine] at h
      split at h
      · cases h
        rfl
      · cases h
  | _ =>
      cases h
      rfl

/-- Without calls the state of the C runtime stays as it is. -/
theorem execLines_world {lines : List Line}
    (hcalls : ∀ line ∈ lines, ∀ target, line ≠ .call target) :
    ∀ {m m' : Machine W} {control : Control},
      execLines host callee lines m = some (control, m') → m'.world = m.world := by
  induction lines with
  | nil =>
      intro m m' control h
      cases h
      rfl
  | cons line lines ih =>
      intro m m' control h
      obtain ⟨hline, hlines⟩ := List.forall_mem_cons.mp hcalls
      rw [execLines] at h
      split at h
      next => cases h
      next m₁ hstep => exact (ih hlines h).trans (execLine_world hline hstep)
      next g m₁ hstep => exact absurd (execLine_call hstep) (hline _)
      next control' m₁ _ _ hstep =>
        cases h
        exact execLine_world hline hstep

theorem StraightBut.no_call {lines : List Line} (h : StraightBut [] lines) :
    ∀ line ∈ lines, ∀ target, line ≠ .call target := by
  rintro line hline target rfl
  rcases h _ hline with h | h
  · exact h
  · exact absurd h List.not_mem_nil

/-- A connective whose value is the truth value of its right operand. -/
theorem emits_logical (hm : Holds host alloc m f w) (hf : m.FrameAllocated f.fn alloc)
    (hvalid : alloc.Valid) {dest left right : ℕ} {op : BinOp} {a b : Word}
    (ha : f.readWord alloc.placement left = some a)
    (hb : f.readWord alloc.placement right = some b) (hop : op = .and ∨ op = .or)
    (hdef : f.define alloc.placement dest (wordOfBool (b ≠ 0)) = some f') :
    EmitsTo host callee alloc m f (.bin dest op left right) (.next f' w) := by
  have hl := hm.readWord hvalid ha
  have hr := hm.readWord hvalid hb
  obtain ⟨first, hfirst, hrun₁⟩ := hl.load host callee hf .rax
  obtain ⟨second, hsecond, hrun₂⟩ := hr.load host callee hf .rcx
  have hk₁ : m.Keeps (m.setReg .rax a) := (Machine.Keeps.refl m).setReg (by decide) a
  obtain ⟨m₂, hbool₁, hk₂, -, -⟩ := emitBooleanize_runs host callee .rax (by decide) hk₁
  have hk₃ : m.Keeps (m₂.setReg .rcx b) := hk₂.setReg (by decide) b
  obtain ⟨m₄, hbool₂, hk₄, hrcx, -⟩ := emitBooleanize_runs host callee .rcx (by decide) hk₃
  obtain ⟨first', second', m₁, hfirst', hsecond', hexec, hrax, hrcx'⟩ :=
    booleanize_both hf callee hl hr
  cases hfirst.symm.trans hfirst'
  cases hsecond.symm.trans hsecond'
  have hlines : execLines host callee
      (first ++ (emitBooleanize .rax .rax ++ (second ++ emitBooleanize .rcx .rcx))) m =
      some (.next, m₄) := by
    rw [execLines_append (hrun₁ m (.refl m)), execLines_append hbool₁,
      execLines_append (hrun₂ m₂ hk₂), hbool₂]
  cases hlines.symm.trans hexec
  have hworld : m₄.world = w := by
    refine (execLines_world ?_ hlines).trans hm.world
    have hmoves := moves_straight f.fn alloc []
    have hfirst : StraightBut [] first := hmoves.loadTempInto (by decide) hfirst
    have hsecond : StraightBut [] second := hmoves.loadTempInto (by decide) hsecond
    refine StraightBut.no_call ?_
    exact hfirst.append ((booleanize_straight .rax).append
      (hsecond.append (booleanize_straight .rcx)))
  obtain ⟨alu, halu, hself⟩ : ∃ alu, op.alu = some alu ∧ ∀ x, alu.eval x x = x := by
    rcases hop with rfl | rfl
    · exact ⟨.and, rfl, fun x => BitVec.and_self⟩
    · exact ⟨.or, rfl, fun x => BitVec.or_self⟩
  have hdiv : ¬(op = .div ∨ op = .mod) := by
    rcases hop with rfl | rfl <;> decide
  refine .of_register hm hf .rax
    (first ++ (emitBooleanize .rax .rax ++ (second ++ emitBooleanize .rcx .rcx)) ++
      [Line.alu alu .rax .rcx]) rfl hdef ?_
    ⟨(m₄.setReg .rax (wordOfBool (b ≠ 0))).setFlags none, ?_, (hk₄.setReg (by decide) _).setFlags _,
      by simp, hworld⟩
  · intro st hst
    simp [emitInstruction, hdiv, hop, halu, hfirst, hsecond, hst]
  · rw [execLines_append hlines]
    simp only [execLines, execLine, hrax, hrcx', hself]

end Logical

/-! ## Registers across calls -/

/-- The function stores to a word where its prologue saved a register, or calls one that does. -/
inductive Spoils (unit : IRUnit) (code : List (Symbol × List Line)) : Symbol → Prop
  | store {s : Symbol} {line : Line} : line ∈ linesOf code s →
      ¬ line.SparesSaves (frameOf unit s) → Spoils unit code s
  | call {s g : Symbol} : .call (.fn g) ∈ linesOf code s → Spoils unit code g →
      Spoils unit code s

/-- No temp in a register is live across a call of a function that spoils registers. -/
def SafeCalls (unit : IRUnit) (code : List (Symbol × List Line)) : Prop :=
  ∀ fn ∈ unit.functions, ∀ (pc dest : ℕ) (g : Symbol) (args : List ℕ) (type : Option Ty),
    fn.instructions[pc]? = some (.call dest g args type) → Spoils unit code g →
    ∀ t r, (allocateTemps fn).locations t = some (.reg r) → LiveAt fn.instructions (pc + 1) t →
      t = dest

/-- The lines an activation of `s` may execute: if `s` does not spoil registers, none stores over
them. -/
def Sparing (unit : IRUnit) (code : List (Symbol × List Line)) (s : Symbol) :
    Symbol → Line → Prop :=
  fun s' line => ¬ Spoils unit code s → line.SparesSaves (frameOf unit s')

theorem sparing_line {unit : IRUnit} {code : List (Symbol × List Line)} {s : Symbol} {line : Line}
    (h : line ∈ linesOf code s) : Sparing unit code s s line := by
  intro hspoils
  by_contra hstore
  exact hspoils (.store h hstore)

theorem sparing_callee {unit : IRUnit} {code : List (Symbol × List Line)} {s g : Symbol}
    (hcall : .call (.fn g) ∈ linesOf code s) {s' : Symbol} {line : Line}
    (h : Sparing unit code g s' line) : Sparing unit code s s' line :=
  fun hspoils => h fun hg => hspoils (.call hcall hg)

theorem spares_sparing (unit : IRUnit) (code : List (Symbol × List Line)) (s : Symbol) :
    Spares (Sparing unit code s) (frameOf unit) (¬ Spoils unit code s) :=
  fun hspoils _ _ _ h => h hspoils

theorem Runs.mono {host : Host W} {code : List (Symbol × List Line)}
    {allowed allowed' : Symbol → Line → Prop}
    (hallowed : ∀ s line, allowed s line → allowed' s line)
    {s : Symbol} {m m' : Machine W} {i : ℕ} (h : Runs host code allowed s m i m') :
    Runs host code allowed' s m i m' := by
  induction h with
  | entry => exact .entry
  | next _ hline hline' hstep ih => exact ih.next hline (hallowed _ _ hline') hstep
  | jump _ hline hline' hstep hlabel ih => exact ih.jump hline (hallowed _ _ hline') hstep hlabel
  | call _ hline _ hret ih ihcallee => exact ih.call hline ihcallee hret

/-! ## The machine and an activation -/

/-- A compiled unit on a machine: what lowering guarantees of its code, that its constants are
written as they are, that the machine has the data and the C runtime of `R`, and that calls are
safe. -/
structure Setting (unit : IRUnit) (code : List (Symbol × List Line)) (host : Host W)
    (R : WordRuntime W) : Prop where
  temps : ∀ fn ∈ unit.functions, TempsOk fn.instructions fn.tempTypes.length
  slots : ∀ fn ∈ unit.functions, fn.SlotsIn
  params : ∀ fn ∈ unit.functions, (fn.params.map (·.slot)).Nodup
  written : ∀ fn ∈ unit.functions, ∀ inst ∈ fn.instructions, inst.Written
  rendered : renderAssembly unit = some code
  data : ∀ l v, R.toRuntime.address unit.consts l = some v → host.dataAddress l = v
  runtime : ∀ g, SysV (host.callRuntime g) (R.call g)
  frames : host.KeepsFrames
  safe : SafeCalls unit code

/-- The machine holds the locals and the live temps of the activation. -/
structure Mirrors {R : WordRuntime W} (host : Host W) (unit : IRUnit) (m : Machine W)
    (f : Frame R.toRuntime ℕ) (w : W) : Prop where
  holds : ∃ g, SameFrame unit f g ∧ Holds host (allocateTemps f.fn) m g w
  allocated : m.FrameAllocated f.fn (allocateTemps f.fn)

/-- The activation of the allocated code in the machine. -/
theorem Mirrors.frame {R : WordRuntime W} {host : Host W} {unit : IRUnit} {m : Machine W}
    {f : Frame R.toRuntime ℕ} {w : W} (h : Mirrors host unit m f w) :
    ∃ g, SameFrame unit f g ∧ Holds host (allocateTemps g.fn) m g w ∧
      m.FrameAllocated g.fn (allocateTemps g.fn) := by
  obtain ⟨g, hsame, hholds⟩ := h.holds
  refine ⟨g, hsame, ?_, ?_⟩
  · rw [hsame.fn]
    exact hholds
  · rw [hsame.fn]
    exact h.allocated

theorem allocateTemps_valid (fn : IRFunction) : (allocateTemps fn).Valid := by
  intro t loc hloc
  cases loc with
  | reg r => exact allocateTemps_reg_mem hloc
  | spill s => exact allocateTemps_spill_lt hloc

/-- Only the places of its own function matter to an instruction. -/
theorem execInstr_placement {R : Runtime} (unit : IRUnit) (g : Frame R Location) (w : R.World)
    (inst : Instr) : execInstr (allocateTemps g.fn).placement unit g [] w inst =
      execInstr allocPlacement unit g [] w inst := by
  cases inst <;> rfl

/-! ## One instruction -/

section Instruction

variable {unit : IRUnit} {code : List (Symbol × List Line)} {host : Host W} {R : WordRuntime W}
  (hset : Setting unit code host R) {callee : Symbol → Machine W → Option (Machine W)}
  {m : Machine W} {f f' : Frame R.toRuntime ℕ} {w w' : W} {inst : Instr} {lines : List Line}
include hset

omit hset in
/-- The value of an operator that is computed is what its lines leave. -/
theorem emits_computed {alloc : Allocation} {g g' : Frame R.toRuntime Location}
    (hm : Holds host alloc m g w) (hf : m.FrameAllocated g.fn alloc) (hvalid : alloc.Valid)
    {dest left right : ℕ} {op : BinOp} {a b v : Word}
    (ha : g.readWord alloc.placement left = some a)
    (hb : g.readWord alloc.placement right = some b) (hv : op.eval a b = some v)
    (hok : op.Computes a b) (hdef : g.define alloc.placement dest v = some g') :
    EmitsTo host callee alloc m g (.bin dest op left right) (.next g' w) := by
  by_cases hop : op = .and ∨ op = .or
  · cases hv.symm.trans (hok.eval_logical hop)
    exact emits_logical hm hf hvalid ha hb hop hdef
  · refine emits_bin host hm hf hvalid ha hb hv hop ?_ hdef
    rintro (rfl | rfl)
    · exact hok
    · exact hok

/-- The lines of an instruction that goes on lead to the state after it. -/
theorem Setting.emits {alloc : Allocation} {g g' : Frame R.toRuntime Location}
    (hm : Holds host alloc m g w) (hf : m.FrameAllocated g.fn alloc) (hvalid : alloc.Valid)
    (hslots : inst.SlotsIn g.fn.locals.length) (hwritten : inst.Written)
    (hlines : emitInstruction g.fn alloc inst = some lines)
    (hok : ∀ dest op left right a b, inst = .bin dest op left right →
      g.readWord alloc.placement left = some a → g.readWord alloc.placement right = some b →
      op.Computes a b)
    (hcall : ∀ dest symbol args type, inst ≠ .call dest symbol args type)
    (hret : ∀ value type, inst ≠ .ret value type)
    (hstep : execInstr alloc.placement unit g [] w inst = some (.running [g'] w')) :
    EmitsTo host callee alloc m g inst (.next g' w') := by
  refine emits_step host unit hset.data hset.runtime hvalid hf hm hwritten ?_ ?_ ?_ ?_ hcall hret
    hstep
  · rintro dest slot type rfl
    exact hslots
  · rintro slot type value rfl
    exact hslots
  · rintro dest g args type rfl
    obtain ⟨-, -, hargs, -⟩ := emitCall_eq_some hlines
    exact hargs
  · rintro dest op left right a b v rfl ha hb hv hdef
    exact emits_computed hm hf hvalid ha hb hv (hok _ _ _ _ a b rfl ha hb) hdef

/-- Where control is after the lines of an instruction that goes on. -/
def Leads (f f' : Frame R.toRuntime ℕ) : Control → Prop
  | .next => f'.pc = f.pc + 1
  | .jump (.control l) => labelIndex f.fn.instructions l = some f'.pc
  | _ => False

/-- The lines of an instruction that goes on. -/
theorem Mirrors.instr (hm : Mirrors host unit m f w) (hcomputes : f.Computes)
    (hinst : f.fn.instructions[f.pc]? = some inst)
    (hlines : emitInstruction f.fn (allocateTemps f.fn) inst = some lines)
    (hstep : activationStep tempPlacement unit f w inst = some (.next f' w')) :
    ∃ control m', execLines host callee lines m = some (control, m') ∧
      Mirrors host unit m' f' w' ∧ Leads f f' control := by
  obtain ⟨g, hsame, hholds, hallocated⟩ := hm.frame
  obtain ⟨hexec, hcall, hret⟩ := activationStep_next hstep
  have hfn := activationStep_fn hstep
  -- the allocated code makes the same step
  have hrel := execInstr_same hset.temps hsame hinst .nil w
  rw [hexec] at hrel
  obtain ⟨g', hg', hsame'⟩ : ∃ g', execInstr allocPlacement unit g [] w inst =
      some (.running [g'] w') ∧ SameFrame unit f' g' := by
    generalize execInstr allocPlacement unit g [] w inst = c at hrel
    rcases hrel with hconfig | _
    rcases hconfig with ⟨hframes⟩ | _
    rcases hframes with _ | ⟨hframe, hnil⟩
    cases hnil
    exact ⟨_, rfl, hframe⟩
  rw [← hsame.fn] at hlines
  have hword : ∀ {t x}, t ∈ tempUses inst →
      g.readWord (allocateTemps g.fn).placement t = some x →
      f.readWord tempPlacement t = some x := by
    intro t x ht hx
    rw [← hsame.readWord hset.temps hinst ht]
    exact hx
  replace hg' := (execInstr_placement unit g w inst).trans hg'
  have hslots := (hset.slots f.fn hsame.mem).code inst (List.mem_of_getElem? hinst)
  rw [← hsame.fn] at hslots
  have hemits : EmitsTo host callee (allocateTemps g.fn) m g inst (.next g' w') := by
    have hwritten := hset.written f.fn hsame.mem inst (List.mem_of_getElem? hinst)
    refine hset.emits hholds hallocated (allocateTemps_valid _) hslots hwritten hlines ?_ hcall hret
      hg'
    rintro dest op left right a b rfl ha hb
    exact hcomputes dest op left right a b hinst (hword (by simp [tempUses]) ha)
      (hword (by simp [tempUses]) hb)
  obtain ⟨lines', control, m', hlines', hrun, hkeeps, hholds', hfollows⟩ := hemits
  cases hlines.symm.trans hlines'
  have hfn' : g'.fn = g.fn := hsame'.fn.trans (hfn.trans hsame.fn.symm)
  refine ⟨control, m', hrun, ⟨⟨g', hsame', ?_⟩, ?_⟩, ?_⟩
  · rw [hfn, ← hsame.fn]
    exact hholds'
  · rw [hfn, ← hsame.fn]
    show m'.rsp + _ ≤ m'.rbp
    rw [hkeeps.rsp, hkeeps.rbp]
    exact hallocated
  · cases control with
    | next =>
        show f'.pc = f.pc + 1
        rw [← hsame'.pc, ← hsame.pc]
        exact hfollows
    | jump l =>
        cases l with
        | control l =>
            show labelIndex f.fn.instructions l = some f'.pc
            rw [← hsame'.pc, ← hsame.fn]
            exact hfollows
        | epilogue => exact hfollows
    | call s => exact hfollows
    | ret => exact hfollows

end Instruction

/-! ## Calls -/

theorem renderAssembly_lookup {functions : List IRFunction} {s : Symbol} {fn : IRFunction} :
    ∀ {code : List (Symbol × List Line)},
      (functions.mapM fun fn => (renderFunction fn).map fun lines => (fn.symbol, lines)) =
        some code →
      functions.find? (·.symbol = s) = some fn → renderFunction fn = some (linesOf code s) := by
  induction functions with
  | nil =>
      intro code _ hfind
      cases hfind
  | cons first functions ih =>
      intro code h hfind
      rw [List.mapM_cons] at h
      obtain ⟨entry, hentry, h⟩ := Option.bind_eq_some_iff.mp h
      obtain ⟨rest, hrest, h⟩ := Option.bind_eq_some_iff.mp h
      cases h
      obtain ⟨lines, hlines, rfl⟩ := Option.map_eq_some_iff.mp hentry
      by_cases hs : first.symbol = s
      · have hof : linesOf ((first.symbol, lines) :: rest) s = lines := by simp [linesOf, hs]
        rw [List.find?_cons_of_pos (by simpa using hs)] at hfind
        rw [hof, ← hlines, Option.some.inj hfind]
      · rw [List.find?_cons_of_neg (by simpa using hs)] at hfind
        have hof : linesOf ((first.symbol, lines) :: rest) s = linesOf rest s := by
          simp [linesOf, hs]
        rw [hof]
        exact ih hrest hfind

/-- The values an activation keeps when only its stack is left to it. -/
def forgetRegs {α : Type} (temps : Location → Option α) : Location → Option α
  | .reg _ => none
  | .spill s => temps (.spill s)

/-- What is left of an activation when the function it calls has returned. -/
theorem Holds.left_over {R : WordRuntime W} {host : Host W} {m m₄ : Machine W}
    {f : Frame R.toRuntime Location} {w : W} {alloc : Allocation} {spoiled : Prop}
    (hholds : Holds host alloc m f w) (hf : m.FrameAllocated f.fn alloc)
    (hrbp : m₄.rbp = m.rbp) (hrsp : m₄.rsp = m.rsp)
    (hmemory : ∀ a, m.rsp ≤ a → m₄.memory a = m.memory a)
    (hregs : ¬ spoiled → ∀ r ∈ calleeSaved, m₄.regs r = m.regs r) :
    ∃ temps, Holds host alloc m₄ { f with temps := temps } m₄.world ∧
      ∀ loc, temps loc = f.temps loc ∨ spoiled ∧ ∃ r, loc = .reg r := by
  by_cases hspoiled : spoiled
  · -- the stack of the activation is as it was, and its registers are not read
    have hkeeps : m.Keeps { m₄ with regs := m.regs } := ⟨fun _ _ => rfl, hrbp, hrsp, hmemory⟩
    have hnext := hholds.next hf hkeeps f.pc
    refine ⟨forgetRegs f.temps, ⟨?_, hnext.locals, rfl⟩, ?_⟩
    · intro loc v hplace hv
      cases loc with
      | reg r => cases hv
      | spill s => exact hnext.temps (.spill s) v hplace hv
    · intro loc
      cases loc with
      | reg r => exact .inr ⟨hspoiled, r, rfl⟩
      | spill s => exact .inl rfl
  · have hkeeps : m.Keeps m₄ := ⟨hregs hspoiled, hrbp, hrsp, hmemory⟩
    exact ⟨f.temps, hholds.next hf hkeeps f.pc, fun _ => .inl rfl⟩

/-- A call gives the stack of its caller back when it returns. -/
theorem Returns.stack {m m₂ m₃ : Machine W} {c : Cell} {kept : Prop}
    (hret : Returns (m₂.pushCell c) kept m₃) (hkeeps : m.Keeps m₂) :
    m₃.rbp = m.rbp ∧ m₃.rsp + 8 = m.rsp ∧ ∀ a, m.rsp ≤ a → m₃.memory a = m.memory a := by
  refine ⟨hret.rbp.trans hkeeps.rbp, ?_, ?_⟩
  · have hstack : m₃.rsp = m₂.rsp - 8 := hret.rsp
    rw [hstack, hkeeps.rsp]
    omega
  · intro a ha
    have habove : (m₂.pushCell c).rsp ≤ a := by
      show m₂.rsp - 8 ≤ a
      rw [hkeeps.rsp]
      omega
    -- the word the call has pushed is below the stack of the caller
    have hcell : (m₂.pushCell c).memory a = m₂.memory a := by
      refine Function.update_of_ne ?_ _ _
      rw [hkeeps.rsp]
      omega
    exact (hret.caller a habove).trans (hcell.trans (hkeeps.memory a ha))

section Call

variable {unit : IRUnit} {code : List (Symbol × List Line)} {host : Host W} {R : WordRuntime W}
  (hset : Setting unit code host R)
include hset

/-- From the entry of a function to its first instruction. -/
theorem Setting.enters {s : Symbol} {fn : IRFunction} {frame : FrameLayout}
    {params body : List Line} (hlookup : unit.lookup s = some fn)
    (hlaid : LaidOut fn frame params body (linesOf code s)) {m₀ : Machine W} {args : List Word}
    {w : W} (hargs : m₀.HoldsArgs args) (hworld : m₀.world = w) :
    ∃ m, Runs host code (Sparing unit code s) s m₀ (lineOf fn frame params 0) m ∧
      Mirrors host unit m (entryFrame fn args : Frame R.toRuntime ℕ) w := by
  have hmem : fn ∈ unit.functions := List.mem_of_find?_eq_some hlookup
  obtain ⟨m₁, hpro, hbody⟩ := prologue_inBody host (fun _ _ => none) frame m₀ False
  obtain ⟨hworld₁, hregs₁⟩ := prologue_quiet hpro
  have hargs₁ : ∀ (i : ℕ) v, args[i]? = some v → ∃ r, argRegs[i]? = some r ∧ m₁.regs r = v := by
    rw [hregs₁]
    exact hargs
  obtain ⟨m₂, hstores, hrbp, hrsp, hworld₂, -, hslots⟩ :=
    storeParams_runs hlaid.storeParams (hset.params fn hmem) hargs₁
  have hexec : execLines host (fun _ _ => none) (prologue frame ++ params) m₀ =
      some (.next, m₂) := by
    rw [execLines_append hpro, hstores]
  have hdrop : (linesOf code s).drop 0 = (prologue frame ++ params) ++
      (body.filterMap peephole ++ ([.label .epilogue] ++ epilogue frame)) := by
    rw [List.drop_zero, hlaid.lines]
    simp only [List.append_assoc]
  have hzero : lineOf fn frame params 0 = 0 + (prologue frame ++ params).length := by
    simp [lineOf, linesBefore, emitInstructions]
  have hcalls : ∀ line ∈ prologue frame ++ params, ∀ g, line ≠ .call (.fn g) :=
    fun _ hline _ => (hlaid.head_plain hline).2 _
  have hallowed : ∀ line ∈ prologue frame ++ params, Sparing unit code s s line := by
    intro line hline
    refine sparing_line ?_
    rw [List.drop_zero] at hdrop
    rw [hdrop]
    exact List.mem_append_left _ hline
  obtain ⟨hrun, -⟩ := Runs.stretch .entry hdrop hallowed hcalls hexec
  refine ⟨m₂, hzero ▸ hrun rfl, ⟨entryFrame fn args, ?_, ?_⟩, ?_⟩
  · -- no temp is defined before the first instruction
    exact ⟨hmem, rfl, rfl, rfl, fun t ht => absurd ht.1 (Nat.not_lt_zero _)⟩
  · refine ⟨?_, ?_, (hworld₂.trans hworld₁).trans hworld⟩
    · intro loc v _ hv
      cases hv
    · intro slot v _ hv
      obtain ⟨p, hp, rfl, rfl⟩ := entryLocals_mem hv
      exact hslots p hp
  · obtain ⟨frame', hframe', -, hbytes, -⟩ := frameFor_eq fn (allocateTemps fn)
    cases hlaid.frameFor.symm.trans hframe'
    have hrbp₁ := hbody.rbp
    have hrsp₁ := hbody.rsp
    show m₂.rsp + _ ≤ m₂.rbp
    rw [hrbp, hrsp, hrbp₁, hrsp₁]
    show _ + ((8 * (fn.locals.length + (allocateTemps fn).spillCount : ℕ) : ℕ) : ℤ) ≤ _
    omega

/-- The store of a call's value, after the function that was called has returned. -/
theorem Mirrors.afterCall {callee : Symbol → Machine W → Option (Machine W)} {m m₂ m₃ : Machine W}
    {f f' : Frame R.toRuntime ℕ} {w w' : W} {v : Word} {c : Cell} {dest : ℕ} {g : Symbol}
    {args : List ℕ} {type : Option Ty} {store : List Line} (hm : Mirrors host unit m f w)
    (hinst : f.fn.instructions[f.pc]? = some (.call dest g args type)) (hkeeps : m.Keeps m₂)
    (hret : Returns (m₂.pushCell c) (¬ Spoils unit code g) m₃) (hrax : m₃.regs .rax = v)
    (hworld : m₃.world = w') (hdef : f.define tempPlacement dest v = some f')
    (hstore : storeTempFrom f.fn (allocateTemps f.fn) dest .rax = some store) :
    ∃ m', execLines host callee store (m₃.setRsp (m₃.rsp + 8)) = some (.next, m') ∧
      Mirrors host unit m' f' w' := by
  obtain ⟨g₀, hsame, hholds, hallocated⟩ := hm.frame
  have hrel := hsame.define hset.temps hinst (show tempDefs _ = [dest] from rfl) v
  rw [hdef] at hrel
  obtain ⟨g₂, hg₂, hsame₂⟩ : ∃ g₂, g₀.define allocPlacement dest v = some g₂ ∧
      SameFrame unit f' g₂ := by
    generalize g₀.define allocPlacement dest v = o at hrel
    rcases hrel with hframe | _
    exact ⟨_, rfl, hframe⟩
  obtain ⟨loc, hloc, rfl⟩ := Option.map_eq_some_iff.mp hg₂
  rw [← hsame.fn] at hstore
  -- the stack is that of the call
  obtain ⟨hrbp, hrsp, hmemory⟩ := hret.stack hkeeps
  have hregs : ¬ Spoils unit code g → ∀ r ∈ calleeSaved, m₃.regs r = m.regs r :=
    fun hspoils r hr => (hret.regs hspoils r hr).trans (hkeeps.regs r hr)
  obtain ⟨temps, hholds', htemps⟩ : ∃ temps,
      Holds host (allocateTemps g₀.fn) (m₃.setRsp (m₃.rsp + 8)) { g₀ with temps := temps }
        (m₃.setRsp (m₃.rsp + 8)).world ∧
      ∀ loc, temps loc = g₀.temps loc ∨ Spoils unit code g ∧ ∃ r, loc = .reg r :=
    hholds.left_over hallocated hrbp hrsp hmemory hregs
  have hallocated' : (m₃.setRsp (m₃.rsp + 8)).FrameAllocated g₀.fn (allocateTemps g₀.fn) := by
    show m₃.rsp + 8 + _ ≤ m₃.rbp
    rw [hrsp, hrbp]
    exact hallocated
  obtain ⟨store', hstore', hruns⟩ := storeTempFrom_runs host callee hloc .rax
  cases hstore.symm.trans hstore'
  have hholds'' := hholds'.define hallocated' (.refl _) hloc
    (show Frame.define (allocateTemps g₀.fn).placement _ dest v = some _ from
      Option.map_eq_some_iff.mpr ⟨loc, hloc, rfl⟩)
  have hvalue : (m₃.setRsp (m₃.rsp + 8)).regs .rax = v := hrax
  rw [← hvalue] at hholds''
  -- the values still read are where they were
  have htemps' : Agrees (allocPlacement f'.fn) (LiveAt f'.fn.instructions f'.pc) f'.temps
      (Function.update temps loc (some v)) := by
    intro t hlive
    have hagrees := hsame₂.temps t hlive
    rw [← hagrees]
    cases hplace : allocPlacement f'.fn t with
    | none => rfl
    | some l =>
        show Function.update temps loc (some v) l = Function.update g₀.temps loc (some v) l
        by_cases hl : l = loc
        · rw [hl, Function.update_self, Function.update_self]
        · rw [Function.update_of_ne hl, Function.update_of_ne hl]
          rcases htemps l with h | ⟨hspoils, r, rfl⟩
          · exact h
          · -- a register the callee has spoiled holds no live temp but the one that is written
            cases hdef
            have hdest :=
              hset.safe f.fn hsame.mem f.pc dest g args type hinst hspoils t r hplace hlive
            subst hdest
            rw [← hsame.fn] at hplace
            exact absurd (Option.some.inj (hplace.symm.trans hloc)) hl
  refine ⟨_, hruns _, ⟨{ g₀ with pc := g₀.pc + 1, temps := Function.update temps loc (some v) },
    ⟨hsame₂.mem, hsame₂.fn, hsame₂.pc, hsame₂.locals, htemps'⟩, ?_⟩, ?_⟩
  · cases hdef
    subst hworld
    rw [← hvalue]
    exact hsame.fn ▸ hholds''
  · cases hdef
    show (Machine.writeLoc _ _ _ loc).rsp + _ ≤ (Machine.writeLoc _ _ _ loc).rbp
    rw [Machine.writeLoc_rsp, Machine.writeLoc_rbp, ← hsame.fn]
    exact hallocated'

end Call

end GatoCore.Native
