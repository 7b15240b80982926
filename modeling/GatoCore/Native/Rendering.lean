import GatoCore.Lib.Lists
import GatoCore.Native.AllocCorrect
import GatoCore.Native.EntryExit
import GatoCore.Native.InferFacts

/-!
# Every accepted program is rendered

The emitter gives up on a call with more arguments than argument registers, and it reads a place for
every temp. Lowering refuses a function with more parameters than registers and a call whose
arguments are not as many as the parameters, and the allocation gives every temp that occurs a
place, so the emitter does not stop behind them.
-/

namespace GatoCore.Native

open GatoCore.Lib

/-! ## Arguments -/

/-- The arguments of a call fit in registers. -/
def Instr.CallsFit : Instr → Prop
  | .call _ _ args _ => args.length ≤ argRegs.length
  | .callRuntime _ _ args _ => args.length ≤ argRegs.length
  | _ => True

/-- No function of the table has more parameters than there are registers for them. -/
def FunctionTable.Fits (table : FunctionTable) : Prop :=
  ∀ name entry, table.lookup name = some entry → entry.paramTypes.length ≤ argRegs.length

def LoweringContext.CallsFit (ctx : LoweringContext) : Prop :=
  ∀ inst ∈ ctx.instructions, inst.CallsFit

section Steps

variable {ctx ctx' : LoweringContext} (h : ctx.CallsFit)
include h

/-- A stretch of code after a context. -/
theorem LoweringContext.CallsFit.append {code : List Instr}
    (hcode : ctx'.instructions = ctx.instructions ++ code)
    (hfit : ∀ inst ∈ code, inst.CallsFit) : ctx'.CallsFit := by
  intro inst hinst
  rw [hcode] at hinst
  rcases List.mem_append.mp hinst with hinst | hinst
  · exact h inst hinst
  · exact hfit inst hinst

theorem LoweringContext.CallsFit.withInstr {inst : Instr} (hinst : inst.CallsFit) :
    (ctx.withInstr inst).CallsFit :=
  h.append rfl (List.forall_mem_singleton.mpr hinst)

theorem LoweringContext.CallsFit.define {type : Option Ty} {inst : Instr}
    (hinst : inst.CallsFit) : (ctx.define type inst).CallsFit :=
  h.append rfl (List.forall_mem_singleton.mpr hinst)

theorem LoweringContext.CallsFit.withConsts (consts : ConstTables) :
    (ctx.withConsts consts).CallsFit := h

end Steps

theorem ConstValue.instr_callsFit (c : ConstValue) (dest : ℕ) : (c.instr dest).CallsFit := by
  rw [ConstValue.instr]
  split <;> trivial

/-- A call of the C runtime with one argument. -/
theorem Instr.callsFit_one (dest : ℕ) (fn : RuntimeFn) (arg : ℕ) (type : Option Ty) :
    (Instr.callRuntime dest fn [arg] type).CallsFit := by
  simp [Instr.CallsFit, argRegs]

theorem ArgsLower.length_eq {table : FunctionTable} {ctx ctx' : LoweringContext}
    {types : List (Option Ty)} {args : List Expr} {vs : List Operand}
    (h : ArgsLower table ctx types args vs ctx') : vs.length = args.length := by
  induction args generalizing ctx types vs with
  | nil =>
      cases h
      rfl
  | cons arg args ih =>
      cases h with
      | cons _ _ hvs => rw [List.length_cons, List.length_cons, ih hvs]

section Lowered

variable {table : FunctionTable}

mutual
theorem ExprLowers.callsFit (htable : table.Fits) {ctx ctx' : LoweringContext} {e : Expr}
    {v : Operand} : ExprLowers table ctx e v ctx' → ctx.CallsFit → ctx'.CallsFit
  | .literal _, h => (h.withConsts _).define (ConstValue.instr_callsFit _ _)
  | .identifier _, h => h.define trivial
  | .neg he _, h => (he.callsFit htable h).define trivial
  | .not he _, h => (he.callsFit htable h).define trivial
  | .tamanhoDe he _, h => (he.callsFit htable h).define (Instr.callsFit_one _ _ _ _)
  | .tipoDe he, h => ((he.callsFit htable h).withConsts _).define trivial
  | .identificar he, h => (he.callsFit htable h).define (Instr.callsFit_one _ _ _ _)
  | .observar he, h => (he.callsFit htable h).define (Instr.callsFit_one _ _ _ _)
  | .compare hl hr _ _, h => by
      refine (hr.callsFit htable (hl.callsFit htable h)).define ?_
      trivial
  | .logical hl hr _ _ _ _, h => by
      refine (((hr.callsFit htable (hl.callsFit htable h)).define ?_).define ?_).define ?_
      all_goals trivial
  | .arith hl hr _ _ _ _, h => by
      refine (hr.callsFit htable (hl.callsFit htable h)).define ?_
      trivial
  | .call _ hcallee hlen hargs, h => by
      refine (hargs.callsFit htable h).define ?_
      rw [Instr.CallsFit, List.length_map, hargs.length_eq, hlen]
      exact htable _ _ hcallee

theorem ArgsLower.callsFit (htable : table.Fits) {ctx ctx' : LoweringContext}
    {types : List (Option Ty)} {args : List Expr} {vs : List Operand} :
    ArgsLower table ctx types args vs ctx' → ctx.CallsFit → ctx'.CallsFit
  | .nil, h => h
  | .cons hv _ hvs, h => hvs.callsFit htable (hv.callsFit htable h)
end

theorem EnsuresLocal.callsFit {ctx ctx' : LoweringContext} {name : String} {type : Option Ty}
    {loc : Local} (hloc : EnsuresLocal ctx name type loc ctx') (h : ctx.CallsFit) :
    ctx'.CallsFit := by
  cases hloc with
  | existing _ _ => exact h
  | fresh _ => exact h.append (List.append_nil _).symm (fun _ hi => absurd hi List.not_mem_nil)

theorem DefaultLowers.callsFit (htable : table.Fits) {ctx ctx' : LoweringContext}
    {type : Option Ty} {v : Operand} (hv : DefaultLowers table ctx type v ctx')
    (h : ctx.CallsFit) : ctx'.CallsFit := by
  cases hv with
  | array _ => exact h.define trivial
  | literal _ he => exact he.callsFit htable h

section Parts

variable {base ctx : LoweringContext} (h : ctx.CallsFit)
include h

theorem LoweringContext.CallsFit.ifHead (t : Operand) : (ctx.ifHead t).CallsFit :=
  h.append (ctx.ifHead_instructions t) (by simp [Instr.CallsFit])

theorem LoweringContext.CallsFit.ifMiddle : (base.ifMiddle ctx).CallsFit :=
  h.append (base.ifMiddle_instructions ctx) (by simp [Instr.CallsFit])

theorem LoweringContext.CallsFit.ifTail : (base.ifTail ctx).CallsFit :=
  h.append (base.ifTail_instructions ctx) (by simp [Instr.CallsFit])

theorem LoweringContext.CallsFit.whileHead : ctx.whileHead.CallsFit :=
  h.append ctx.whileHead_instructions (by simp [Instr.CallsFit])

theorem LoweringContext.CallsFit.whileTest (t : Operand) : (base.whileTest ctx t).CallsFit :=
  h.append (base.whileTest_instructions ctx t) (by simp [Instr.CallsFit])

theorem LoweringContext.CallsFit.whileTail : (base.whileTail ctx).CallsFit :=
  h.append (base.whileTail_instructions ctx) (by simp [Instr.CallsFit])

/-- The head of a `para cada` asks for the length. -/
theorem LoweringContext.CallsFit.forEachTest (v : Operand) : (ctx.forEachTest v).CallsFit := by
  have hstart : (ctx.forEachStart v).CallsFit :=
    h.append (ctx.forEachStart_instructions v) (by simp [Instr.CallsFit])
  have hcond : (ctx.forEachCond v).CallsFit :=
    hstart.append (ctx.forEachCond_instructions v) (by simp [Instr.CallsFit, argRegs])
  exact hcond.append (ctx.forEachTest_instructions v) (by simp [Instr.CallsFit])

/-- The body of a `para cada` asks for the item. -/
theorem LoweringContext.CallsFit.forEachItem (v : Operand) (loc : Local) :
    (base.forEachItem ctx v loc).CallsFit :=
  h.append (base.forEachItem_instructions ctx v loc) (by simp [Instr.CallsFit, argRegs])

theorem LoweringContext.CallsFit.forEachTail : (base.forEachTail ctx).CallsFit := by
  have hstep : (base.forEachStep ctx).CallsFit :=
    h.append (base.forEachStep_instructions ctx) (by simp [Instr.CallsFit])
  exact hstep.append (base.forEachTail_instructions ctx) (by simp [Instr.CallsFit])

end Parts

mutual
theorem StmtLowers.callsFit (htable : table.Fits) {ctx ctx' : LoweringContext} {s : Stmt} :
    StmtLowers table ctx s ctx' → ctx.CallsFit → ctx'.CallsFit
  | .define he hloc, h => (hloc.callsFit (he.callsFit htable h)).withInstr trivial
  | .assign _ he _, h => (he.callsFit htable h).withInstr trivial
  | .show he, h => (he.callsFit htable h).withInstr trivial
  | .exprStmt he, h => he.callsFit htable h
  | .ret he _, h => (he.callsFit htable h).withInstr trivial
  | .retDefault hv _, h => (hv.callsFit htable h).withInstr trivial
  | .ifElse ht _ hthen helse, h =>
      have hbranch := hthen.callsFit htable ((ht.callsFit htable h).ifHead _)
      (helse.callsFit htable hbranch.ifMiddle).ifTail
  | .while ht _ hbody, h =>
      have htest := (ht.callsFit htable h.whileHead).whileTest _
      (hbody.callsFit htable htest).whileTail
  | .forEach hv hloc hbody, h =>
      have hlocal := hloc.callsFit ((hv.callsFit htable h).forEachTest _)
      (hbody.callsFit htable (hlocal.forEachItem _ _)).forEachTail

theorem StmtsLower.callsFit (htable : table.Fits) {ctx ctx' : LoweringContext}
    {body : List Stmt} : StmtsLower table ctx body ctx' → ctx.CallsFit → ctx'.CallsFit
  | .nil, h => h
  | .cons hs hbody, h => hbody.callsFit htable (hs.callsFit htable h)
end

theorem BodyLowers.callsFit (htable : table.Fits) {start final : LoweringContext}
    {body : List Stmt} (hbody : BodyLowers table start body final) (h : start.CallsFit) :
    final.CallsFit := by
  cases hbody with
  | returns hs _ => exact hs.callsFit htable h
  | fallsOff hs _ hv => exact (hv.callsFit htable (hs.callsFit htable h)).withInstr trivial

end Lowered

/-! ## Lines -/

section Emit

variable (fn : IRFunction) {alloc : Allocation}

theorem exists_loadTempInto {t : ℕ} (ht : alloc.locations t ≠ none) (target : Reg) :
    ∃ lines, loadTempInto fn alloc t target = some lines := by
  obtain ⟨loc, hloc⟩ := Option.ne_none_iff_exists'.mp ht
  cases loc with
  | reg name => exact ⟨_, by rw [loadTempInto, hloc]; rfl⟩
  | spill slot => exact ⟨_, by rw [loadTempInto, hloc]; rfl⟩

theorem exists_storeTempFrom {t : ℕ} (ht : alloc.locations t ≠ none) (source : Reg) :
    ∃ lines, storeTempFrom fn alloc t source = some lines := by
  obtain ⟨loc, hloc⟩ := Option.ne_none_iff_exists'.mp ht
  cases loc with
  | reg name => exact ⟨_, by rw [storeTempFrom, hloc]; rfl⟩
  | spill slot => exact ⟨_, by rw [storeTempFrom, hloc]; rfl⟩

theorem exists_emitDirect {t : ℕ} (ht : alloc.locations t ≠ none) (line : Reg → Line) :
    ∃ lines, emitDirect fn alloc t line = some lines := by
  obtain ⟨loc, hloc⟩ := Option.ne_none_iff_exists'.mp ht
  cases loc with
  | reg name => exact ⟨_, by rw [emitDirect, hloc]; rfl⟩
  | spill slot => exact ⟨_, by rw [emitDirect, hloc]; rfl⟩

theorem exists_loadArgs {args : List ℕ} (hargs : ∀ t ∈ args, alloc.locations t ≠ none) :
    ∀ {regs : List Reg}, args.length ≤ regs.length →
      ∃ lines, loadArgs fn alloc args regs = some lines := by
  induction args with
  | nil => exact fun _ => ⟨[], rfl⟩
  | cons arg args ih =>
      intro regs hlen
      cases regs with
      | nil => exact absurd hlen (Nat.not_succ_le_zero _)
      | cons reg regs =>
          obtain ⟨harg, hargs⟩ := List.forall_mem_cons.mp hargs
          obtain ⟨first, hfirst⟩ := exists_loadTempInto fn harg reg
          obtain ⟨rest, hrest⟩ := ih hargs (Nat.le_of_succ_le_succ hlen)
          exact ⟨first ++ rest, by rw [loadArgs, hfirst, hrest]; rfl⟩

theorem exists_emitCall {dest : ℕ} (target : CallTarget) {args : List ℕ}
    (hdest : alloc.locations dest ≠ none) (hargs : ∀ t ∈ args, alloc.locations t ≠ none)
    (hlen : args.length ≤ argRegs.length) :
    ∃ lines, emitCall fn alloc dest target args = some lines := by
  obtain ⟨loads, hloads⟩ := exists_loadArgs fn hargs hlen
  obtain ⟨store, hstore⟩ := exists_storeTempFrom fn hdest .rax
  exact ⟨_, by rw [emitCall, if_neg (Nat.not_lt.mpr hlen), hloads, hstore]; rfl⟩

/-- An instruction whose temps have a place and whose arguments have a register. -/
theorem exists_emitInstruction {inst : Instr} (hfit : inst.CallsFit)
    (huses : ∀ t ∈ tempUses inst, alloc.locations t ≠ none)
    (hdefs : ∀ t ∈ tempDefs inst, alloc.locations t ≠ none) :
    ∃ lines, emitInstruction fn alloc inst = some lines := by
  have hload : ∀ t target, t ∈ tempUses inst →
      ∃ lines, loadTempInto fn alloc t target = some lines :=
    fun t target ht => exists_loadTempInto fn (huses t ht) target
  have hstore : ∀ t source, t ∈ tempDefs inst →
      ∃ lines, storeTempFrom fn alloc t source = some lines :=
    fun t source ht => exists_storeTempFrom fn (hdefs t ht) source
  cases inst with
  | constInt dest value type => exact exists_emitDirect fn (hdefs dest (by simp [tempDefs])) _
  | constStr dest label => exact exists_emitDirect fn (hdefs dest (by simp [tempDefs])) _
  | constPtr dest label type => exact exists_emitDirect fn (hdefs dest (by simp [tempDefs])) _
  | loadLocal dest slot type => exact exists_emitDirect fn (hdefs dest (by simp [tempDefs])) _
  | storeLocal slot type value =>
      obtain ⟨load, hvalue⟩ := hload value .rax (by simp [tempUses])
      simp [emitInstruction, hvalue]
  | neg dest value =>
      obtain ⟨load, hvalue⟩ := hload value .rax (by simp [tempUses])
      obtain ⟨store, hdest⟩ := hstore dest .rax (by simp [tempDefs])
      simp [emitInstruction, hvalue, hdest]
  | not dest value =>
      obtain ⟨load, hvalue⟩ := hload value .rax (by simp [tempUses])
      obtain ⟨store, hdest⟩ := hstore dest .rax (by simp [tempDefs])
      simp [emitInstruction, hvalue, hdest]
  | bin dest op left right =>
      obtain ⟨first, hleft⟩ := hload left .rax (by simp [tempUses])
      obtain ⟨second, hright⟩ := hload right .rcx (by simp [tempUses])
      obtain ⟨store, hdest⟩ := hstore dest .rax (by simp [tempDefs])
      -- `idiv` leaves the remainder in `rdx`
      obtain ⟨store', hdest'⟩ := hstore dest .rdx (by simp [tempDefs])
      cases op <;> simp [emitInstruction, BinOp.alu, hleft, hright, hdest, hdest']
  | cmp dest op left right =>
      obtain ⟨first, hleft⟩ := hload left .rax (by cases right <;> simp [tempUses])
      obtain ⟨store, hdest⟩ := hstore dest .rax (by simp [tempDefs])
      cases right with
      | imm value => simp [emitInstruction, hleft, hdest]
      | temp right =>
          obtain ⟨second, hright⟩ := hload right .rcx (by simp [tempUses])
          simp [emitInstruction, hleft, hright, hdest]
  | call dest symbol args type =>
      exact exists_emitCall fn _ (hdefs dest (by simp [tempDefs])) huses hfit
  | callRuntime dest symbol args type =>
      exact exists_emitCall fn _ (hdefs dest (by simp [tempDefs])) huses hfit
  | print value valueType =>
      obtain ⟨load, hvalue⟩ := hload value .rdi (by simp [tempUses])
      simp [emitInstruction, hvalue]
  | label name => exact ⟨_, rfl⟩
  | jmp target => exact ⟨_, rfl⟩
  | br cond thenTarget elseTarget =>
      obtain ⟨load, hcond⟩ := hload cond .rax (by simp [tempUses])
      simp [emitInstruction, hcond]
  | ret value type =>
      obtain ⟨load, hvalue⟩ := hload value .rax (by simp [tempUses])
      simp [emitInstruction, hvalue]

theorem exists_emitInstructions {code : List Instr}
    (h : ∀ inst ∈ code, ∃ lines, emitInstruction fn alloc inst = some lines) :
    ∃ lines, emitInstructions fn alloc code = some lines := by
  induction code with
  | nil => exact ⟨[], rfl⟩
  | cons inst code ih =>
      obtain ⟨hinst, hcode⟩ := List.forall_mem_cons.mp h
      obtain ⟨first, hfirst⟩ := hinst
      obtain ⟨rest, hrest⟩ := ih hcode
      exact ⟨first ++ rest, by rw [emitInstructions, hfirst, hrest]; rfl⟩

theorem exists_storeParams {params : List Local} : ∀ {regs : List Reg},
    params.length ≤ regs.length → ∃ lines, storeParams params regs = some lines := by
  induction params with
  | nil => exact fun _ => ⟨[], rfl⟩
  | cons param params ih =>
      intro regs hlen
      cases regs with
      | nil => exact absurd hlen (Nat.not_succ_le_zero _)
      | cons reg regs =>
          obtain ⟨rest, hrest⟩ := ih (Nat.le_of_succ_le_succ hlen)
          exact ⟨_, by rw [storeParams, hrest]; rfl⟩

end Emit

/-! ## Programs -/

/-- A function with its temps in order, its parameters and arguments in registers. -/
theorem exists_renderFunction {fn : IRFunction}
    (htemps : TempsOk fn.instructions fn.tempTypes.length)
    (hfit : ∀ inst ∈ fn.instructions, inst.CallsFit)
    (hparams : fn.params.length ≤ argRegs.length) : ∃ lines, renderFunction fn = some lines := by
  obtain ⟨frame, hframe, -⟩ := frameFor_eq fn (allocateTemps fn)
  obtain ⟨params, hstores⟩ := exists_storeParams hparams
  -- a temp that occurs is live somewhere, so the allocation has met it
  have hemit : ∀ inst ∈ fn.instructions,
      ∃ lines, emitInstruction fn (allocateTemps fn) inst = some lines := by
    intro inst hinst
    obtain ⟨i, hi⟩ := List.mem_iff_getElem?.mp hinst
    refine exists_emitInstruction fn (hfit inst hinst) ?_ ?_
    · intro t ht
      exact htemps.located (i := i) (.inr (by rw [usesAt, hi]; exact ht))
    · intro t ht
      exact htemps.located (i := i) (.inl (by rw [defsAt, hi]; exact ht))
  obtain ⟨body, hbody⟩ := exists_emitInstructions fn hemit
  exact ⟨_, by simp only [renderFunction, hframe, hstores, hbody]; rfl⟩

theorem newContext_callsFit (consts : ConstTables) (name : String) (type : Option Ty)
    (ps : List (String × Option Ty)) : (newContext consts name type ps).CallsFit := by
  intro inst hinst
  rw [newContext, (addParams_fields _ ps).1] at hinst
  exact absurd hinst List.not_mem_nil

theorem newContext_params_length (consts : ConstTables) (name : String) (type : Option Ty)
    (ps : List (String × Option Ty)) :
    (newContext consts name type ps).params.length = ps.length := by
  have hslots := congrArg List.length (addParams_slots_range ps (emptyContext consts name type))
  simpa [newContext, emptyContext] using hslots

/-- The code of one body. -/
theorem BodyLowers.renders {table : FunctionTable} (htable : table.Fits) {consts : ConstTables}
    {name : String} {type : Option Ty} {ps : List (String × Option Ty)} {body : List Stmt}
    {final : LoweringContext} (h : BodyLowers table (newContext consts name type ps) body final)
    (hps : ps.length ≤ argRegs.length)
    (htemps : TempsOk final.toFunction.instructions final.toFunction.tempTypes.length) :
    ∃ lines, renderFunction final.toFunction = some lines := by
  refine exists_renderFunction htemps (h.callsFit htable (newContext_callsFit _ _ _ _)) ?_
  rw [LoweringContext.toFunction, h.grows.params, newContext_params_length]
  exact hps

theorem FunctionsLower.params_le {table : FunctionTable} {consts consts' : ConstTables}
    {fns : List FunctionDecl} {lowered : List IRFunction}
    (h : FunctionsLower table consts fns lowered consts') :
    ∀ fn ∈ fns, fn.params.length ≤ maxParams := by
  induction h with
  | nil => exact fun _ hfn => absurd hfn List.not_mem_nil
  | cons hparams _ _ ih => exact List.forall_mem_cons.mpr ⟨hparams, ih⟩

/-- The emitter does not stop on a program the compiler has accepted so far. -/
theorem accepted_program_renders {program : Program} {unit : IRUnit}
    (hcompile : compileProgram program = .ok unit) : ∃ code, renderAssembly unit = some code := by
  obtain ⟨table, hanalyze, hlower⟩ := compileProgram_lowers hcompile
  have htable := analyzeProgram_tableFor hanalyze
  have htemps := hlower.tempsOk
  cases hlower with
  | @intro consts lowered ctx hfns hbody =>
      -- the parameters of every entry are those of a function that lowering has let pass
      have hfits : table.Fits := by
        intro name entry hentry
        obtain ⟨fn, hfn, -, hlen⟩ := htable.exists_function hentry
        rw [← hlen]
        exact hfns.params_le fn hfn
      refine exists_mapM ?_
      intro ir hir
      obtain ⟨lines, hlines⟩ : ∃ lines, renderFunction ir = some lines := by
        have hok := htemps ir hir
        rcases List.mem_append.mp hir with hir | hir
        · obtain ⟨fn, -, consts₁, final, hparams, hfn, rfl⟩ := hfns.origin ir hir
          refine hfn.renders hfits ?_ hok
          rw [paramsOf, List.length_zip]
          exact (Nat.min_le_left _ _).trans hparams
        · cases List.mem_singleton.mp hir
          exact hbody.renders hfits (Nat.zero_le _) hok
      exact ⟨(ir.symbol, lines), by rw [hlines]; rfl⟩

/-- `função f(a) faça retornar a fim mostrar 1 + f(7)`. -/
theorem accepted_program_renders_pass : ∃ (unit : IRUnit) (code : List (Symbol × List Line)),
    compileProgram passProgram = .ok unit ∧ renderAssembly unit = some code := by
  obtain ⟨unit, hcompile⟩ : ∃ unit, compileProgram passProgram = .ok unit :=
    except_eq_ok_of_isSome (by decide +kernel)
  obtain ⟨code, hrender⟩ := accepted_program_renders hcompile
  exact ⟨unit, code, hcompile, hrender⟩

end GatoCore.Native
