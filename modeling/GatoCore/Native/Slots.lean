import GatoCore.Native.LowerFacts

/-!
# Local slots

Lowered code only names slots its function has: the slot of a name in scope, of a hidden local of
a `para cada`, or of a parameter.
-/

namespace GatoCore.Native

/-- The slots an instruction names are slots of the function. -/
def Instr.SlotsIn (count : ℕ) : Instr → Prop
  | .loadLocal _ slot _ => slot < count
  | .storeLocal slot _ _ => slot < count
  | _ => True

attribute [local simp] Instr.SlotsIn

theorem Instr.SlotsIn.mono {m n : ℕ} {inst : Instr} (h : inst.SlotsIn m) (hmn : m ≤ n) :
    inst.SlotsIn n := by
  cases inst with
  | loadLocal _ slot _ => exact Nat.lt_of_lt_of_le h hmn
  | storeLocal slot _ _ => exact Nat.lt_of_lt_of_le h hmn
  | _ => trivial

/-- The function names no slot it does not have. -/
structure IRFunction.SlotsIn (fn : IRFunction) : Prop where
  params : ∀ param ∈ fn.params, param.slot < fn.locals.length
  code : ∀ inst ∈ fn.instructions, inst.SlotsIn fn.locals.length

/-- The code and the names of a context only name its slots. -/
structure LoweringContext.NamesSlots (ctx : LoweringContext) : Prop where
  names : ctx.SlotsOk
  code : ∀ inst ∈ ctx.instructions, inst.SlotsIn ctx.localList.length

theorem LoweringContext.SlotsOk.lt {ctx : LoweringContext} (h : ctx.SlotsOk) {name : String}
    {loc : Local} (hloc : ctx.locals name = some loc) : loc.slot < ctx.localList.length :=
  (List.getElem?_eq_some_iff.mp (h name loc hloc).2).1

section Steps

variable {ctx ctx' : LoweringContext} (h : ctx.NamesSlots)
include h

/-- A stretch of code after a context. -/
theorem LoweringContext.NamesSlots.append (hgrows : ctx.Grows ctx') {code : List Instr}
    (hcode : ctx'.instructions = ctx.instructions ++ code)
    (hslots : ∀ inst ∈ code, inst.SlotsIn ctx'.localList.length) : ctx'.NamesSlots := by
  refine ⟨hgrows.slotsOk h.names, ?_⟩
  intro inst hinst
  rw [hcode] at hinst
  rcases List.mem_append.mp hinst with hinst | hinst
  · exact (h.code inst hinst).mono hgrows.localCount
  · exact hslots inst hinst

theorem LoweringContext.NamesSlots.withInstr {inst : Instr}
    (hinst : inst.SlotsIn ctx.localList.length) : (ctx.withInstr inst).NamesSlots := by
  refine h.append ((LoweringContext.Grows.refl ctx).withInstr inst) rfl ?_
  intro i hi
  cases List.mem_singleton.mp hi
  exact hinst

theorem LoweringContext.NamesSlots.define {type : Option Ty} {inst : Instr}
    (hinst : inst.SlotsIn ctx.localList.length) : (ctx.define type inst).NamesSlots := by
  refine h.append ((LoweringContext.Grows.refl ctx).define type inst) rfl ?_
  intro i hi
  cases List.mem_singleton.mp hi
  exact hinst

theorem LoweringContext.NamesSlots.withConsts (consts : ConstTables) :
    (ctx.withConsts consts).NamesSlots := ⟨h.names, h.code⟩

end Steps

/-! ## Expressions -/

theorem ConstValue.instr_slotsIn (c : ConstValue) (dest count : ℕ) :
    (c.instr dest).SlotsIn count := by
  rw [ConstValue.instr]
  split <;> trivial

mutual
theorem ExprLowers.namesSlots {table : FunctionTable} {ctx ctx' : LoweringContext} {e : Expr}
    {v : Operand} : ExprLowers table ctx e v ctx' → ctx.NamesSlots → ctx'.NamesSlots
  | .literal _, h => (h.withConsts _).define (ConstValue.instr_slotsIn _ _ _)
  | .identifier hloc, h => h.define (h.names.lt hloc)
  | .neg he _, h => (he.namesSlots h).define trivial
  | .not he _, h => (he.namesSlots h).define trivial
  | .tamanhoDe he _, h => (he.namesSlots h).define trivial
  | .tipoDe he, h => ((he.namesSlots h).withConsts _).define trivial
  | .identificar he, h => (he.namesSlots h).define trivial
  | .observar he, h => (he.namesSlots h).define trivial
  | .compare hl hr _ _, h => by
      refine (hr.namesSlots (hl.namesSlots h)).define ?_
      trivial
  | .logical hl hr _ _ _ _, h => by
      refine (((hr.namesSlots (hl.namesSlots h)).define ?_).define ?_).define ?_
      all_goals trivial
  | .arith hl hr _ _ _ _, h => by
      refine (hr.namesSlots (hl.namesSlots h)).define ?_
      trivial
  | .call _ _ _ hargs, h => by
      refine (hargs.namesSlots h).define ?_
      trivial

theorem ArgsLower.namesSlots {table : FunctionTable} {ctx ctx' : LoweringContext}
    {types : List (Option Ty)} {args : List Expr} {vs : List Operand} :
    ArgsLower table ctx types args vs ctx' → ctx.NamesSlots → ctx'.NamesSlots
  | .nil, h => h
  | .cons hv _ hvs, h => hvs.namesSlots (hv.namesSlots h)
end

/-! ## Statements -/

theorem EnsuresLocal.namesSlots {ctx ctx' : LoweringContext} {name : String} {type : Option Ty}
    {loc : Local} (hloc : EnsuresLocal ctx name type loc ctx') (h : ctx.NamesSlots) :
    ctx'.NamesSlots ∧ loc.slot < ctx'.localList.length := by
  have hgrows := hloc.grows
  cases hloc with
  | existing hloc htype => exact ⟨h, h.names.lt hloc⟩
  | fresh hnone =>
      refine ⟨h.append hgrows (List.append_nil _).symm (fun _ hi => absurd hi List.not_mem_nil), ?_⟩
      simp [LoweringContext.freshLocal]

theorem DefaultLowers.namesSlots {table : FunctionTable} {ctx ctx' : LoweringContext}
    {type : Option Ty} {v : Operand} (hv : DefaultLowers table ctx type v ctx')
    (h : ctx.NamesSlots) : ctx'.NamesSlots := by
  cases hv with
  | array _ => exact h.define trivial
  | literal _ he => exact he.namesSlots h

section Parts

variable {base ctx : LoweringContext} (h : ctx.NamesSlots)
include h

theorem LoweringContext.NamesSlots.ifHead (t : Operand) : (ctx.ifHead t).NamesSlots :=
  h.append ((Grows.refl ctx).ifHead t) (ctx.ifHead_instructions t) (by simp [Instr.SlotsIn])

theorem LoweringContext.NamesSlots.ifMiddle (base : LoweringContext) :
    (base.ifMiddle ctx).NamesSlots :=
  h.append ((Grows.refl ctx).ifMiddle base) (base.ifMiddle_instructions ctx)
    (by simp [Instr.SlotsIn])

theorem LoweringContext.NamesSlots.ifTail (base : LoweringContext) :
    (base.ifTail ctx).NamesSlots :=
  h.append ((Grows.refl ctx).ifTail base) (base.ifTail_instructions ctx) (by simp [Instr.SlotsIn])

theorem LoweringContext.NamesSlots.whileHead : ctx.whileHead.NamesSlots :=
  h.append (Grows.refl ctx).whileHead ctx.whileHead_instructions (by simp [Instr.SlotsIn])

theorem LoweringContext.NamesSlots.whileTest (base : LoweringContext) (t : Operand) :
    (base.whileTest ctx t).NamesSlots :=
  h.append ((Grows.refl ctx).whileTest base t) (base.whileTest_instructions ctx t)
    (by simp [Instr.SlotsIn])

theorem LoweringContext.NamesSlots.whileTail (base : LoweringContext) :
    (base.whileTail ctx).NamesSlots :=
  h.append ((Grows.refl ctx).whileTail base) (base.whileTail_instructions ctx)
    (by simp [Instr.SlotsIn])

/-- The two hidden locals of a `para cada` have the slots its code names. -/
theorem LoweringContext.NamesSlots.forEachTest (v : Operand) : (ctx.forEachTest v).NamesSlots := by
  have hcode : (ctx.forEachTest v).instructions = ctx.instructions ++ ([Instr.storeLocal
      ctx.localList.length v.type v.temp, .constInt ctx.tempCount 0 (some .i64),
      .storeLocal (ctx.localList.length + 1) (some .i64) ctx.tempCount,
      .label (ctx.labelAt .foreach 0)] ++ [Instr.loadLocal (ctx.tempCount + 1)
      (ctx.localList.length + 1) (some .i64), .loadLocal (ctx.tempCount + 2) ctx.localList.length
      v.type, .callRuntime (ctx.tempCount + 3) (lengthFn v.type) [ctx.tempCount + 2] (some .i64),
      .cmp (ctx.tempCount + 4) .lt (ctx.tempCount + 1) (.temp (ctx.tempCount + 3))] ++
      [Instr.br (ctx.tempCount + 4) (ctx.labelAt .foreachBody 1) (ctx.labelAt .foreachEnd 2),
        .label (ctx.labelAt .foreachBody 1)]) := by
    rw [ctx.forEachTest_instructions, ctx.forEachCond_instructions, ctx.forEachStart_instructions]
    simp only [List.append_assoc]
  refine h.append ((Grows.refl ctx).forEachTest v) hcode ?_
  simp [Instr.SlotsIn, ctx.forEachTest_localList v]

theorem LoweringContext.NamesSlots.forEachItem (base : LoweringContext) (v : Operand) {loc : Local}
    (hloc : loc.slot < ctx.localList.length) : (base.forEachItem ctx v loc).NamesSlots := by
  refine h.append ((Grows.refl ctx).forEachItem base v loc)
    (base.forEachItem_instructions ctx v loc) ?_
  have hcount : (base.forEachItem ctx v loc).localList = ctx.localList := rfl
  simp [Instr.SlotsIn, hcount, hloc]

theorem LoweringContext.NamesSlots.forEachTail (base : LoweringContext)
    (hcount : base.localList.length + 1 < ctx.localList.length) :
    (base.forEachTail ctx).NamesSlots := by
  have hcode := base.forEachTail_instructions ctx
  rw [base.forEachStep_instructions, List.append_assoc] at hcode
  refine h.append ((Grows.refl ctx).forEachTail base) hcode ?_
  have hsame : (base.forEachTail ctx).localList = ctx.localList := by
    simp only [LoweringContext.forEachTail, LoweringContext.forEachStep, LoweringContext.define,
      LoweringContext.withInstr, LoweringContext.withTemp]
  simp [Instr.SlotsIn, hsame, hcount]

end Parts

mutual
theorem StmtLowers.namesSlots {table : FunctionTable} {ctx ctx' : LoweringContext} {s : Stmt} :
    StmtLowers table ctx s ctx' → ctx.NamesSlots → ctx'.NamesSlots
  | .define he hloc, h =>
      have hlocal := hloc.namesSlots (he.namesSlots h)
      hlocal.1.withInstr hlocal.2
  | .assign hloc he _, h =>
      (he.namesSlots h).withInstr (Nat.lt_of_lt_of_le (h.names.lt hloc) he.grows.localCount)
  | .show he, h => (he.namesSlots h).withInstr trivial
  | .exprStmt he, h => he.namesSlots h
  | .ret he _, h => (he.namesSlots h).withInstr trivial
  | .retDefault hv _, h => (hv.namesSlots h).withInstr trivial
  | .ifElse ht _ hthen helse, h =>
      have hbranch := hthen.namesSlots ((ht.namesSlots h).ifHead _)
      (helse.namesSlots (hbranch.ifMiddle _)).ifTail _
  | .while ht _ hbody, h =>
      have htest := (ht.namesSlots h.whileHead).whileTest _ _
      (hbody.namesSlots htest).whileTail _
  | @StmtLowers.forEach _ _ base _ _ _ _ v loc _ hv hloc hbody, h => by
      have hlocal := hloc.namesSlots ((hv.namesSlots h).forEachTest v)
      have hitem := hlocal.1.forEachItem base v hlocal.2
      refine (hbody.namesSlots hitem).forEachTail base ?_
      -- the two hidden locals stay
      have htest : (base.forEachTest v).localList.length = base.localList.length + 2 := by
        rw [base.forEachTest_localList, List.length_append]
        rfl
      have hbinding := hloc.grows.localCount
      have hafter := hbody.grows.localCount
      rw [htest] at hbinding
      exact Nat.lt_of_lt_of_le hbinding hafter

theorem StmtsLower.namesSlots {table : FunctionTable} {ctx ctx' : LoweringContext}
    {body : List Stmt} : StmtsLower table ctx body ctx' → ctx.NamesSlots → ctx'.NamesSlots
  | .nil, h => h
  | .cons hs hbody, h => hbody.namesSlots (hs.namesSlots h)
end

/-! ## Functions -/

theorem BodyLowers.namesSlots {table : FunctionTable} {start final : LoweringContext}
    {body : List Stmt} (hbody : BodyLowers table start body final) (h : start.NamesSlots) :
    final.NamesSlots := by
  cases hbody with
  | returns hs _ => exact hs.namesSlots h
  | fallsOff hs _ hv => exact (hv.namesSlots (hs.namesSlots h)).withInstr trivial

/-- A parameter's slot is its place among the locals. -/
theorem addParams_slots : ∀ (ps : List (String × Option Ty)) (ctx : LoweringContext),
    (∀ param ∈ ctx.params, param.slot < ctx.localList.length) →
    ∀ param ∈ (addParams ctx ps).params, param.slot < (addParams ctx ps).localList.length := by
  intro ps
  induction ps with
  | nil => exact fun _ h => h
  | cons p ps ih =>
      intro ctx h
      refine ih _ ?_
      intro param hparam
      rw [LoweringContext.withParam_params] at hparam
      rw [LoweringContext.withParam_localList, List.length_append]
      rcases List.mem_append.mp hparam with hparam | hparam
      · exact Nat.lt_of_lt_of_le (h param hparam) (Nat.le_add_right _ _)
      · cases List.mem_singleton.mp hparam
        exact Nat.lt_succ_self _

theorem newContext_namesSlots (consts : ConstTables) (name : String) (type : Option Ty)
    (ps : List (String × Option Ty)) : (newContext consts name type ps).NamesSlots := by
  refine ⟨newContext_slotsOk consts name type ps, ?_⟩
  intro inst hinst
  rw [newContext, (addParams_fields _ ps).1] at hinst
  exact absurd hinst List.not_mem_nil

/-- Every function of a lowered program names only its own slots. -/
theorem ProgramLowers.slotsIn {program : Program} {table : FunctionTable} {unit : IRUnit}
    (h : ProgramLowers program table unit) : ∀ fn ∈ unit.functions, fn.SlotsIn := by
  intro fn hfn
  obtain ⟨consts, name, type, params, body, final, hbody, rfl⟩ := h.exists_body fn hfn
  refine ⟨?_, (hbody.namesSlots (newContext_namesSlots consts name type params)).code⟩
  intro param hparam
  have hgrows := hbody.grows
  rw [LoweringContext.toFunction, hgrows.params] at hparam
  have hslot := addParams_slots params _ (fun p hp => absurd hp List.not_mem_nil) param hparam
  exact Nat.lt_of_lt_of_le hslot hgrows.localCount

end GatoCore.Native
