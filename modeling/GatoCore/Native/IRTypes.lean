import GatoCore.Native.Exec
import GatoCore.Native.InferFacts
import GatoCore.Native.StaticTypes

/-!
# Types of the intermediate representation

The typing rules a unit should obey: what the slots, temps, functions and constants hold is known
statically, and every runtime function is called on values of the type it is for. The code of a
body obeys them exactly when each of its `para cada` goes over a text or a list.
-/

namespace GatoCore.Native

/-! ## Rules -/

/-- What the types in the code of a function depend on. -/
structure TypingContext where
  table : FunctionTable
  consts : ConstTables
  slots : List (Option Ty)
  temps : List (Option Ty)
  returnType : Option Ty

def TypingContext.HasTemp (Γ : TypingContext) (t : ℕ) (type : Ty) : Prop :=
  Γ.temps[t]? = some (some type)

def TypingContext.HasSlot (Γ : TypingContext) (slot : ℕ) (type : Ty) : Prop :=
  Γ.slots[slot]? = some (some type)

/-- The argument types and the result type of a runtime function. -/
inductive RuntimeFn.HasSignature : RuntimeFn → List Ty → Ty → Prop
  | observar (type : Ty) : HasSignature (.observar (runtimeTypeOf (some type))) [type] type
  | identificar (type : Ty) : HasSignature (.identificar (runtimeTypeOf (some type))) [type] .str
  | strlen : HasSignature .strlen [.str] .i64
  | arrayLen (item : Ty) : HasSignature .arrayLen [.array item] .i64
  | arrayGetI64 {item : Ty} : arrayUsesPointerItems (some item) = false →
      HasSignature .arrayGetI64 [.array item, .i64] item
  | arrayGetPtr {item : Ty} : arrayUsesPointerItems (some item) = true →
      HasSignature .arrayGetPtr [.array item, .i64] item
  | stringCharAt : HasSignature .stringCharAt [.str, .i64] .str

/-- The operands of a `bin` and its result have one type. -/
def BinOp.type : BinOp → Ty
  | .and | .or => .bool
  | _ => .i64

def CmpRight.Typed (Γ : TypingContext) (type : Ty) : CmpRight → Prop
  | .imm _ => True
  | .temp t => Γ.HasTemp t type

/-- The typing rule of each instruction. -/
def Instr.Typed (Γ : TypingContext) : Instr → Prop
  | .constInt dest value type => ∃ τ, type = some τ ∧ Γ.HasTemp dest τ ∧
      (isIntLikeType type = true ∨ isArrayType type = true ∧ value = 0)
  | .constStr dest data => Γ.HasTemp dest .str ∧ Γ.consts.labelType data = some .str
  | .constPtr dest data type => ∃ τ, type = some τ ∧ Γ.HasTemp dest τ ∧
      Γ.consts.labelType data = some τ
  | .loadLocal dest slot type => ∃ τ, type = some τ ∧ Γ.HasTemp dest τ ∧ Γ.HasSlot slot τ
  | .storeLocal slot type value => ∃ τ, type = some τ ∧ Γ.HasSlot slot τ ∧ Γ.HasTemp value τ
  | .neg dest value => Γ.HasTemp dest .i64 ∧ Γ.HasTemp value .i64
  | .not dest value => Γ.HasTemp dest .bool ∧
      ∃ τ, Γ.HasTemp value τ ∧ isIntLikeType (some τ) = true
  | .bin dest op left right =>
      Γ.HasTemp dest op.type ∧ Γ.HasTemp left op.type ∧ Γ.HasTemp right op.type
  | .cmp dest _ left right => Γ.HasTemp dest .bool ∧
      ∃ τ, Γ.HasTemp left τ ∧ isIntLikeType (some τ) = true ∧ right.Typed Γ τ
  | .call dest symbol args type => ∃ name entry τ, symbol = .fn name ∧
      Γ.table.lookup name = some entry ∧
      List.Forall₂ (fun t paramType => Γ.temps[t]? = some paramType) args entry.paramTypes ∧
      type = entry.returnType ∧ type = some τ ∧ Γ.HasTemp dest τ
  | .callRuntime dest fn args type => ∃ τs τ, fn.HasSignature τs τ ∧
      List.Forall₂ Γ.HasTemp args τs ∧ type = some τ ∧ Γ.HasTemp dest τ
  | .print value valueType => ∃ τ, Γ.HasTemp value τ ∧ valueType = runtimeTypeOf (some τ)
  | .br cond _ _ => ∃ τ, Γ.HasTemp cond τ ∧ isIntLikeType (some τ) = true
  | .ret value type => ∃ τ, type = Γ.returnType ∧ type = some τ ∧ Γ.HasTemp value τ
  | .label _ => True
  | .jmp _ => True

/-- The typing context of a function. -/
def IRFunction.typing (fn : IRFunction) (table : FunctionTable) (consts : ConstTables) :
    TypingContext :=
  { table := table, consts := consts, slots := fn.locals.map (·.type), temps := fn.tempTypes
    returnType := fn.returnType }

/-- A well-typed unit. -/
structure UnitTyped (table : FunctionTable) (unit : IRUnit) : Prop where
  consts : unit.consts.Typed
  code : ∀ fn ∈ unit.functions, ∀ inst ∈ fn.instructions, inst.Typed (fn.typing table unit.consts)
  params : ∀ fn ∈ unit.functions, ∀ p ∈ fn.params, fn.locals[p.slot]? = some p
  callee : ∀ name fn, unit.lookup (.fn name) = some fn → ∃ entry, table.lookup name = some entry ∧
    fn.params.map (·.type) = entry.paramTypes ∧ fn.returnType = entry.returnType

/-! ## Iterables -/

/-- A type `para cada` can go over. -/
def isIterable (type : Option Ty) : Bool := type = some .str || isArrayType type

/-- The iterable of the statement, if it is a `para cada`, is a text or a list. -/
def Stmt.iterates (table : FunctionTable) (scope : Scope) : Stmt → Bool
  | .forEach _ iterable _ => isIterable (iterable.staticType table scope.types)
  | _ => true

/-- Every `para cada` of a body goes over a text or a list. -/
def bodyIterates (table : FunctionTable) (body : List Stmt) (scope : Scope) : Bool :=
  (bodyPoints table body scope).all fun p => p.2.iterates table p.1

/-! ## Lowered code obeys the rules -/

/-- A context whose types, constants and locals are those of the function so far. -/
structure TypingContext.Covers (Γ : TypingContext) (ctx : LoweringContext) : Prop where
  consts : ctx.consts.Extends Γ.consts
  slots : ctx.localList.map (·.type) <+: Γ.slots
  temps : ctx.tempTypes <+: Γ.temps
  returnType : ctx.returnType = Γ.returnType

def CodeTyped (Γ : TypingContext) (ctx : LoweringContext) : Prop :=
  ∀ inst ∈ ctx.instructions, inst.Typed Γ

/-- Every name has a type. -/
structure LocalsTyped (ctx : LoweringContext) : Prop where
  slotsOk : ctx.SlotsOk
  known : ∀ {x loc}, ctx.locals x = some loc → ∃ τ, loc.type = some τ

/-- The entries of the table are complete. -/
structure TableTyped (table : FunctionTable) : Prop where
  paramTypes : ∀ name entry, table.lookup name = some entry →
    ∀ type ∈ entry.paramTypes, type.isSome
  returnType : ∀ name entry, table.lookup name = some entry → ∃ τ, entry.returnType = some τ

section Lowered

variable {Γ : TypingContext}

theorem TypingContext.Covers.of_grows {ctx ctx' : LoweringContext} (h : Γ.Covers ctx')
    (hg : ctx.Grows ctx') : Γ.Covers ctx :=
  ⟨hg.consts.trans h.consts, (hg.localList.map _).trans h.slots, hg.tempTypes.trans h.temps,
    hg.returnType.symm.trans h.returnType⟩

theorem TypingContext.Covers.of_define {ctx : LoweringContext} {type : Option Ty} {inst : Instr}
    (h : Γ.Covers (ctx.define type inst)) : Γ.Covers ctx :=
  h.of_grows ((LoweringContext.Grows.refl ctx).define type inst)

theorem TypingContext.Covers.of_withInstr {ctx : LoweringContext} {inst : Instr}
    (h : Γ.Covers (ctx.withInstr inst)) : Γ.Covers ctx :=
  h.of_grows ((LoweringContext.Grows.refl ctx).withInstr inst)

/-- The temp a definition makes has the type it was made with. -/
theorem TypingContext.Covers.defined {ctx : LoweringContext} {τ : Ty} {inst : Instr}
    (h : Γ.Covers (ctx.define (some τ) inst)) : Γ.HasTemp ctx.tempCount τ :=
  getElem?_extend h.temps (by simp [LoweringContext.tempCount])

/-- The value of an expression has its type. -/
theorem TypingContext.Covers.operand {ctx ctx' : LoweringContext} {v : Operand} {τ : Ty}
    (h : Γ.Covers ctx') (hv : ExprFacts ctx ctx' v) (hτ : v.type = some τ) :
    Γ.HasTemp v.temp τ :=
  getElem?_extend h.temps (hτ ▸ hv.type_eq)

theorem TypingContext.Covers.slot {ctx : LoweringContext} {loc : Local} {τ : Ty}
    (h : Γ.Covers ctx) (hloc : ctx.localList[loc.slot]? = some loc) (hτ : loc.type = some τ) :
    Γ.HasSlot loc.slot τ :=
  getElem?_extend h.slots (by simp [hloc, hτ])

theorem CodeTyped.append {ctx ctx' : LoweringContext} (h : CodeTyped Γ ctx) (insts : List Instr)
    (heq : ctx'.instructions = ctx.instructions ++ insts)
    (hinsts : ∀ inst ∈ insts, inst.Typed Γ) : CodeTyped Γ ctx' := by
  intro inst hinst
  rw [heq] at hinst
  rcases List.mem_append.mp hinst with hinst | hinst
  · exact h inst hinst
  · exact hinsts inst hinst

theorem CodeTyped.instr {ctx ctx' : LoweringContext} (h : CodeTyped Γ ctx) {inst : Instr}
    (heq : ctx'.instructions = ctx.instructions ++ [inst]) (hinst : inst.Typed Γ) :
    CodeTyped Γ ctx' := by
  refine h.append [inst] heq ?_
  intro i hi
  exact List.mem_singleton.mp hi ▸ hinst

theorem LocalsTyped.of_chain {lo : ℕ} {ctx ctx' : LoweringContext} (h : LocalsTyped ctx)
    (hchain : DefChain lo ctx ctx') : LocalsTyped ctx' := by
  refine ⟨hchain.grows.slotsOk h.slotsOk, ?_⟩
  intro x loc hloc
  rw [hchain.locals.1] at hloc
  exact h.known hloc

theorem ConstValue.typed_instr {c : ConstValue} {dest : ℕ} (hc : c.Typed Γ.consts)
    (hdest : Γ.HasTemp dest c.type) : (c.instr dest).Typed Γ := by
  obtain ⟨type, value⟩ := c
  cases value with
  | imm value => exact ⟨type, rfl, hdest, .inl hc⟩
  | label label => exact ⟨type, rfl, hdest, hc⟩

theorem lengthFn_signature {type : Option Ty} (h : isIterable type = true) :
    ∃ τ, type = some τ ∧ (lengthFn type).HasSignature [τ] .i64 := by
  rcases type with _ | _ | _ | _ | _ | item
  · cases h
  · cases h
  · cases h
  · cases h
  · exact ⟨.str, rfl, .strlen⟩
  · exact ⟨.array item, rfl, .arrayLen item⟩

/-- The operands of a comparison. -/
theorem comparable_types {op : BinaryOp} {a b : Option Ty} (h : comparable op a b = true) :
    ∃ τ, a = some τ ∧ b = some τ ∧ isIntLikeType (some τ) = true := by
  rcases a with _ | _ | _ | _ | _ | _ <;>
    simp [comparable, canCompareTypes, isIntLikeType] at h ⊢ <;> tauto

/-- What the typing of an expression gives: its code obeys the rules and its value has a type. -/
structure ExprTyped (Γ : TypingContext) (ctx' : LoweringContext) (v : Operand) : Prop where
  code : CodeTyped Γ ctx'
  known : ∃ τ, v.type = some τ

theorem ExprTyped.of_instr {ctx : LoweringContext} {τ : Ty} {inst : Instr} (h : CodeTyped Γ ctx)
    (hinst : inst.Typed Γ) : ExprTyped Γ (ctx.define (some τ) inst) ⟨ctx.tempCount, some τ⟩ :=
  ⟨h.instr rfl hinst, τ, rfl⟩

theorem exists_intLike {type : Option Ty} (h : isIntLikeType type = true) :
    ∃ τ, type = some τ ∧ isIntLikeType (some τ) = true := by
  cases type with
  | none => cases h
  | some τ => exact ⟨τ, rfl, h⟩

theorem BinaryOp.type_of_isLogical {op : BinaryOp} {bin : BinOp} (hlog : op.isLogical = true)
    (hbin : op.binOp = some bin) : bin.type = .bool := by
  cases op <;> cases hlog <;> cases hbin <;> rfl

theorem BinaryOp.type_of_not_isLogical {op : BinaryOp} {bin : BinOp} (hlog : op.isLogical = false)
    (hbin : op.binOp = some bin) : bin.type = .i64 := by
  cases op <;> cases hlog <;> cases hbin <;> rfl

mutual
theorem ExprLowers.typed (htable : TableTyped Γ.table) {ctx ctx' : LoweringContext} {e : Expr}
    {v : Operand} : ExprLowers Γ.table ctx e v ctx' → Γ.Covers ctx' → LocalsTyped ctx →
      CodeTyped Γ ctx → ExprTyped Γ ctx' v
  | .literal hc, hcov, _, h =>
      .of_instr h (ConstValue.typed_instr
        ((buildConstValue_extends hc).2.mono hcov.consts.strings hcov.consts.arrays) hcov.defined)
  | @ExprLowers.identifier _ _ _ loc hloc, hcov, hlocals, h => by
      obtain ⟨τ, hτ⟩ := hlocals.known hloc
      obtain ⟨-, hget⟩ := hlocals.slotsOk _ _ hloc
      rw [hτ] at hcov ⊢
      exact .of_instr h ⟨τ, rfl, hcov.defined, hcov.of_define.slot hget hτ⟩
  | .neg he hty, hcov, hlocals, h =>
      .of_instr (he.typed htable hcov.of_define hlocals h).code
        ⟨hcov.defined, hcov.of_define.operand he.facts hty⟩
  | .not he hty, hcov, hlocals, h => by
      obtain ⟨τ, hτ, hint⟩ := exists_intLike hty
      exact .of_instr (he.typed htable hcov.of_define hlocals h).code
        ⟨hcov.defined, τ, hcov.of_define.operand he.facts hτ, hint⟩
  | .tamanhoDe he hty, hcov, hlocals, h => by
      obtain ⟨τ, hτ, hsig⟩ := lengthFn_signature (by simpa [isIterable] using hty)
      exact .of_instr (he.typed htable hcov.of_define hlocals h).code ⟨[τ], .i64, hsig,
        .cons (hcov.of_define.operand he.facts hτ) .nil, rfl, hcov.defined⟩
  | .tipoDe he, hcov, hlocals, h => by
      have hcov₁ := hcov.of_define.of_grows
        ((LoweringContext.Grows.refl _).withConsts (internString_extends _ _))
      refine .of_instr (he.typed htable hcov₁ hlocals h).code ⟨hcov.defined, ?_⟩
      exact ConstTables.labelType_mono hcov.consts.strings hcov.consts.arrays
        (internString_labelType _ _)
  | .identificar he, hcov, hlocals, h => by
      obtain ⟨hcode, τ, hτ⟩ := he.typed htable hcov.of_define hlocals h
      rw [hτ] at hcov ⊢
      exact .of_instr hcode ⟨[τ], .str, .identificar τ,
        .cons (hcov.of_define.operand he.facts hτ) .nil, rfl, hcov.defined⟩
  | .observar he, hcov, hlocals, h => by
      obtain ⟨hcode, τ, hτ⟩ := he.typed htable hcov.of_define hlocals h
      rw [hτ] at hcov ⊢
      exact .of_instr hcode ⟨[τ], τ, .observar τ,
        .cons (hcov.of_define.operand he.facts hτ) .nil, rfl, hcov.defined⟩
  | .compare hl hr _ hty, hcov, hlocals, h => by
      have hcov₂ := hcov.of_define
      have hl' := hl.typed htable (hcov₂.of_grows hr.grows) hlocals h
      have hr' := hr.typed htable hcov₂ (hlocals.of_chain hl.facts.chain) hl'.code
      obtain ⟨ha, hb⟩ := hl.facts.both hr.facts
      obtain ⟨τ, hτ, hτ', hint⟩ := comparable_types hty
      exact .of_instr hr'.code
        ⟨hcov.defined, τ, hcov₂.operand ha hτ, hint, hcov₂.operand hb hτ'⟩
  | @ExprLowers.logical _ _ _ ctx₂ _ bin _ _ a b hl hr hlog hbin htyl htyr, hcov, hlocals, h => by
      have hcov₂ := hcov.of_define.of_define.of_define
      have hl' := hl.typed htable (hcov₂.of_grows hr.grows) hlocals h
      have hr' := hr.typed htable hcov₂ (hlocals.of_chain hl.facts.chain) hl'.code
      obtain ⟨ha, hb⟩ := hl.facts.both hr.facts
      obtain ⟨τ, hτ, hint⟩ := exists_intLike htyl
      obtain ⟨τ', hτ', hint'⟩ := exists_intLike htyr
      have hleft : Γ.HasTemp ctx₂.tempCount .bool := hcov.of_define.of_define.defined
      have hright : Γ.HasTemp (ctx₂.tempCount + 1) .bool := by
        simpa using hcov.of_define.defined
      have hdest : Γ.HasTemp (ctx₂.tempCount + 2) .bool := by
        simpa using hcov.defined
      refine ⟨?_, .bool, rfl⟩
      refine hr'.code.append [.cmp ctx₂.tempCount .ne a.temp (.imm 0),
        .cmp (ctx₂.tempCount + 1) .ne b.temp (.imm 0),
        .bin (ctx₂.tempCount + 2) bin ctx₂.tempCount (ctx₂.tempCount + 1)] (by simp) ?_
      simp only [List.mem_cons, List.not_mem_nil, or_false, forall_eq_or_imp, forall_eq]
      refine ⟨⟨hleft, τ, hcov₂.operand ha hτ, hint, trivial⟩,
        ⟨hright, τ', hcov₂.operand hb hτ', hint', trivial⟩, ?_⟩
      rw [Instr.Typed, BinaryOp.type_of_isLogical hlog hbin]
      exact ⟨hdest, hleft, hright⟩
  | .arith hl hr hlog hbin htyl htyr, hcov, hlocals, h => by
      have hcov₂ := hcov.of_define
      have hl' := hl.typed htable (hcov₂.of_grows hr.grows) hlocals h
      have hr' := hr.typed htable hcov₂ (hlocals.of_chain hl.facts.chain) hl'.code
      obtain ⟨ha, hb⟩ := hl.facts.both hr.facts
      refine .of_instr hr'.code ?_
      rw [Instr.Typed, BinaryOp.type_of_not_isLogical hlog hbin]
      exact ⟨hcov.defined, hcov₂.operand ha htyl, hcov₂.operand hb htyr⟩
  | .call _ hlookup hlen hargs, hcov, hlocals, h => by
      obtain ⟨τ, hτ⟩ := htable.returnType _ _ hlookup
      have htypes := hargs.operandTypes hlen (htable.paramTypes _ _ hlookup)
      have hcode := hargs.typed htable hcov.of_define hlocals h
      have hvs := hargs.facts.2
      rw [hτ] at hcov ⊢
      refine .of_instr hcode ⟨_, _, τ, rfl, hlookup, ?_, hτ.symm, rfl, hcov.defined⟩
      rw [← htypes, List.forall₂_map_left_iff, List.forall₂_map_right_iff, List.forall₂_same]
      intro v hv
      exact getElem?_extend hcov.of_define.temps (hvs v hv).type_eq

theorem ArgsLower.typed (htable : TableTyped Γ.table) {ctx ctx' : LoweringContext}
    {types : List (Option Ty)} {args : List Expr} {vs : List Operand} :
    ArgsLower Γ.table ctx types args vs ctx' → Γ.Covers ctx' → LocalsTyped ctx →
      CodeTyped Γ ctx → CodeTyped Γ ctx'
  | .nil, _, _, h => h
  | .cons hv _ hvs, hcov, hlocals, h =>
      hvs.typed htable hcov (hlocals.of_chain hv.facts.chain)
        (hv.typed htable (hcov.of_grows hvs.facts.1.grows) hlocals h).code
end

theorem DefaultLowers.typed (htable : TableTyped Γ.table) {ctx ctx' : LoweringContext}
    {type : Option Ty} {v : Operand} (hv : DefaultLowers Γ.table ctx type v ctx')
    (hcov : Γ.Covers ctx') (hlocals : LocalsTyped ctx) (h : CodeTyped Γ ctx) :
    ExprTyped Γ ctx' v := by
  cases hv with
  | literal _ he => exact he.typed htable hcov hlocals h
  | array harr =>
      cases type with
      | none => cases harr
      | some τ => exact .of_instr h ⟨τ, rfl, hcov.defined, .inr ⟨harr, rfl⟩⟩

/-- What the typing of a statement gives. -/
structure StmtTyped (Γ : TypingContext) (ctx : LoweringContext) : Prop where
  code : CodeTyped Γ ctx
  locals : LocalsTyped ctx

theorem LocalsTyped.withInstr {ctx : LoweringContext} (h : LocalsTyped ctx) (inst : Instr) :
    LocalsTyped (ctx.withInstr inst) :=
  ⟨h.slotsOk, h.known⟩

theorem LocalsTyped.withLabels {ctx : LoweringContext} (h : LocalsTyped ctx) (n : ℕ) :
    LocalsTyped (ctx.withLabels n) :=
  ⟨h.slotsOk, h.known⟩

theorem LocalsTyped.define {ctx : LoweringContext} (h : LocalsTyped ctx) (type : Option Ty)
    (inst : Instr) : LocalsTyped (ctx.define type inst) :=
  ⟨h.slotsOk, h.known⟩

theorem LocalsTyped.withLocal {ctx : LoweringContext} (h : LocalsTyped ctx) {loc : Local} {τ : Ty}
    (hslot : loc.slot = ctx.localList.length) (hτ : loc.type = some τ) :
    LocalsTyped (ctx.withLocal loc) := by
  refine ⟨h.slotsOk.withLocal hslot, ?_⟩
  intro x l hl
  rw [LoweringContext.withLocal_locals] at hl
  by_cases hx : x = loc.name
  · subst hx
    rw [Function.update_self] at hl
    cases hl
    exact ⟨τ, hτ⟩
  · rw [Function.update_of_ne hx] at hl
    exact h.known hl

theorem EnsuresLocal.typed {ctx ctx' : LoweringContext} {name : String} {type : Option Ty}
    {loc : Local} {τ : Ty} (hloc : EnsuresLocal ctx name type loc ctx') (hτ : type = some τ)
    (h : LocalsTyped ctx) :
    LocalsTyped ctx' ∧ loc.type = some τ ∧ ctx'.localList[loc.slot]? = some loc := by
  cases hloc with
  | existing hget hty => exact ⟨h, hty.trans hτ, (h.slotsOk _ _ hget).2⟩
  | fresh _ => exact ⟨h.withLocal rfl hτ, hτ, by simp [LoweringContext.freshLocal]⟩

theorem itemFn_signature {type : Option Ty} (h : isIterable type = true) :
    ∃ τ item, type = some τ ∧ bindingType type = some item ∧
      (itemFn type (bindingType type)).HasSignature [τ, .i64] item := by
  rcases type with _ | _ | _ | _ | _ | item
  · cases h
  · cases h
  · cases h
  · cases h
  · exact ⟨.str, .str, rfl, rfl, .stringCharAt⟩
  · refine ⟨.array item, item, rfl, rfl, ?_⟩
    cases hptr : arrayUsesPointerItems (some item) with
    | false =>
        have : itemFn (some (.array item)) (some item) = .arrayGetI64 := by simp [itemFn, hptr]
        exact this ▸ .arrayGetI64 hptr
    | true =>
        have : itemFn (some (.array item)) (some item) = .arrayGetPtr := by simp [itemFn, hptr]
        exact this ▸ .arrayGetPtr hptr

theorem forEachTest_tempTypes (base : LoweringContext) (v : Operand) :
    (base.forEachTest v).tempTypes =
      base.tempTypes ++ [some .i64, some .i64, v.type, some .i64, some .bool] := by
  simp [LoweringContext.forEachTest, LoweringContext.forEachCond, LoweringContext.forEachStart,
    LoweringContext.forEachInit]

/-- The loop of a `para cada` over a text or a list, up to the start of its body. -/
theorem forEachItem_typed {base ctx₁ : LoweringContext} {v : Operand} {binding : String}
    {loc : Local} (hiter : isIterable v.type = true)
    (hloc : EnsuresLocal (base.forEachTest v) binding (bindingType v.type) loc ctx₁)
    (hcov : Γ.Covers (base.forEachItem ctx₁ v loc)) (hbase : LocalsTyped base)
    (hv : Γ.temps[v.temp]? = some v.type) (h : CodeTyped Γ base) :
    StmtTyped Γ (base.forEachItem ctx₁ v loc) := by
  obtain ⟨τ, item, hτ, hitem, hsig⟩ := itemFn_signature hiter
  obtain ⟨τ', hτ', hlen⟩ := lengthFn_signature hiter
  obtain rfl : τ' = τ := Option.some.inj (hτ'.symm.trans hτ)
  have hlocals : LocalsTyped (base.forEachTest v) :=
    ((((((((((hbase.withLocal rfl hτ).withInstr _).withLocal
      (by simp [LoweringContext.iterLocal]) rfl).define _ _).withInstr _).withLabels 3).withInstr
      _).define _ _).define _ _).define _ _).define _ _ |>.withInstr _ |>.withInstr _
  obtain ⟨hlocals₁, hlocτ, hget⟩ := hloc.typed hitem hlocals
  have hcov₁ : Γ.Covers ctx₁ :=
    hcov.of_grows ((LoweringContext.Grows.refl ctx₁).forEachItem base v loc)
  have hcovt : Γ.Covers (base.forEachTest v) := hcov₁.of_grows hloc.grows
  -- the five temps and the two slots of the loop
  have htemp : ∀ i type, [some .i64, some .i64, v.type, some .i64, some .bool][i]? = some type →
      Γ.temps[base.tempCount + i]? = some type := by
    intro i type hi
    refine getElem?_extend hcovt.temps ?_
    rw [forEachTest_tempTypes, LoweringContext.tempCount,
      List.getElem?_append_right (Nat.le_add_right _ _), Nat.add_sub_cancel_left]
    exact hi
  have hslot : ∀ i type, [v.type, some .i64][i]? = some type →
      Γ.slots[base.localList.length + i]? = some type := by
    intro i type hi
    refine getElem?_extend hcovt.slots ?_
    rw [base.forEachTest_localList v, List.map_append,
      List.getElem?_append_right (by simp)]
    simpa [LoweringContext.eachLocal, LoweringContext.iterLocal,
      LoweringContext.freshLocal] using hi
  have hiterable : Γ.HasTemp (base.tempCount + 2) τ' := htemp 2 _ (by rw [← hτ]; rfl)
  have hindex : Γ.HasTemp (base.tempCount + 1) .i64 := htemp 1 _ rfl
  have heach : Γ.HasSlot base.localList.length τ' := hslot 0 _ (by rw [← hτ]; rfl)
  have hcount : Γ.HasSlot (base.localList.length + 1) .i64 := hslot 1 _ rfl
  have hstart : CodeTyped Γ (base.forEachStart v) := by
    refine h.append _ (base.forEachStart_instructions v) ?_
    simp only [List.mem_cons, List.not_mem_nil, or_false, forall_eq_or_imp, forall_eq]
    exact ⟨⟨τ', hτ, heach, hv.trans (congrArg some hτ)⟩, ⟨.i64, rfl, htemp 0 _ rfl, .inl rfl⟩,
      ⟨.i64, rfl, hcount, htemp 0 _ rfl⟩, trivial⟩
  have hcond : CodeTyped Γ (base.forEachCond v) := by
    refine hstart.append _ (base.forEachCond_instructions v) ?_
    simp only [List.mem_cons, List.not_mem_nil, or_false, forall_eq_or_imp, forall_eq]
    exact ⟨⟨.i64, rfl, hindex, hcount⟩, ⟨τ', hτ, hiterable, heach⟩,
      ⟨[τ'], .i64, hlen, .cons hiterable .nil, rfl, htemp 3 _ rfl⟩,
      ⟨htemp 4 _ rfl, .i64, hindex, rfl, htemp 3 _ rfl⟩⟩
  have htest : CodeTyped Γ (base.forEachTest v) := by
    refine hcond.append _ (base.forEachTest_instructions v) ?_
    simp only [List.mem_cons, List.not_mem_nil, or_false, forall_eq_or_imp, forall_eq]
    exact ⟨⟨.bool, htemp 4 _ rfl, rfl⟩, trivial⟩
  have hlast : Γ.HasTemp (base.tempCount + 5) item := by
    have hcount₁ : ctx₁.tempCount = base.tempCount + 5 := by
      rw [hloc.tempCount, LoweringContext.forEachTest_tempCount]
    have := hcov.of_withInstr
    rw [hlocτ] at this
    exact hcount₁ ▸ this.defined
  refine ⟨?_, (hlocals₁.define _ _).withInstr _⟩
  refine htest.append _ (hloc.instructions ▸ base.forEachItem_instructions ctx₁ v loc) ?_
  simp only [List.mem_cons, List.not_mem_nil, or_false, forall_eq_or_imp, forall_eq]
  refine ⟨⟨[τ', .i64], item, ?_, .cons hiterable (.cons hindex .nil), hlocτ, hlast⟩,
    ⟨item, hlocτ, hcov₁.slot hget hlocτ, hlast⟩⟩
  rw [hlocτ, ← hitem]
  exact hsig

/-- The end of the loop of a `para cada`. -/
theorem forEachTail_typed {base ctx₁ ctx₂ : LoweringContext} {v : Operand} {binding : String}
    {loc : Local} (hloc : EnsuresLocal (base.forEachTest v) binding (bindingType v.type) loc ctx₁)
    (hbody : (base.forEachItem ctx₁ v loc).Grows ctx₂) (hcov : Γ.Covers (base.forEachTail ctx₂))
    (h : CodeTyped Γ ctx₂) : CodeTyped Γ (base.forEachTail ctx₂) := by
  have hcovs : Γ.Covers (base.forEachStep ctx₂) := hcov.of_withInstr.of_withInstr
  have hcov₂ := hcov.of_grows ((LoweringContext.Grows.refl ctx₂).forEachTail base)
  have hgrows := (hloc.grows.forEachItem base v loc).trans hbody
  have hcovt : Γ.Covers (base.forEachTest v) := hcov₂.of_grows hgrows
  have hone : Γ.HasTemp ctx₂.tempCount .i64 := hcovs.of_withInstr.of_define.defined
  have hnext : Γ.HasTemp (ctx₂.tempCount + 1) .i64 := by
    simpa using hcovs.of_withInstr.defined
  have hindex : Γ.HasTemp (base.tempCount + 1) .i64 := by
    refine getElem?_extend hcovt.temps ?_
    rw [forEachTest_tempTypes, LoweringContext.tempCount,
      List.getElem?_append_right (Nat.le_add_right _ _), Nat.add_sub_cancel_left]
    rfl
  have hcount : Γ.HasSlot (base.localList.length + 1) .i64 := by
    refine getElem?_extend hcovt.slots ?_
    rw [base.forEachTest_localList v, List.map_append, List.getElem?_append_right (by simp)]
    simp [LoweringContext.iterLocal]
  have hstep : CodeTyped Γ (base.forEachStep ctx₂) := by
    refine h.append _ (base.forEachStep_instructions ctx₂) ?_
    simp only [List.mem_cons, List.not_mem_nil, or_false, forall_eq_or_imp, forall_eq]
    exact ⟨⟨.i64, rfl, hone, .inl rfl⟩, ⟨hnext, hindex, hone⟩, ⟨.i64, rfl, hcount, hnext⟩⟩
  refine hstep.append _ (base.forEachTail_instructions ctx₂) ?_
  simp [Instr.Typed]

/-- The code of the statements obeys the rules when each `para cada` in them goes over a text or a
list. -/
def BodyTyped (Γ : TypingContext) (ctx : LoweringContext) (body : List Stmt)
    (ctx' : LoweringContext) : Prop :=
  Γ.Covers ctx' → (∀ p ∈ bodyPoints Γ.table body ctx.scope, p.2.iterates Γ.table p.1 = true) →
    StmtTyped Γ ctx → StmtTyped Γ ctx'

theorem StmtTyped.ifElse (htable : TableTyped Γ.table) {ctx base ctx₂ ctx₃ : LoweringContext}
    {test : Expr} {t : Operand} {thenBody elseBody : List Stmt}
    (ht : ExprLowers Γ.table ctx test t base) (hty : isIntLikeType t.type = true)
    (hthen : StmtsLower Γ.table (base.ifHead t) thenBody ctx₂)
    (helse : StmtsLower Γ.table (base.ifMiddle ctx₂) elseBody ctx₃)
    (hthenTyped : BodyTyped Γ (base.ifHead t) thenBody ctx₂)
    (helseTyped : BodyTyped Γ (base.ifMiddle ctx₂) elseBody ctx₃)
    (hcov : Γ.Covers (base.ifTail ctx₃))
    (hiter : ∀ p ∈ (Stmt.ifElse test thenBody elseBody).points Γ.table ctx.scope,
      p.2.iterates Γ.table p.1 = true)
    (h : StmtTyped Γ ctx) : StmtTyped Γ (base.ifTail ctx₃) := by
  rw [Stmt.points, List.forall_mem_cons, List.forall_mem_append] at hiter
  have hcov₃ := hcov.of_grows ((LoweringContext.Grows.refl ctx₃).ifTail base)
  have hcov₂ :=
    hcov₃.of_grows (((LoweringContext.Grows.refl ctx₂).ifMiddle base).trans helse.grows)
  have hcovb := hcov₂.of_grows (((LoweringContext.Grows.refl base).ifHead t).trans hthen.grows)
  obtain ⟨τ, hτ, hint⟩ := exists_intLike hty
  have htest := (ht.typed htable hcovb h.locals h.code).code
  have hlocals := h.locals.of_chain ht.facts.chain
  -- the second body is lowered from the end of the first, whose labels it keeps
  have hhead : StmtTyped Γ (base.ifHead t) := by
    refine ⟨htest.append _ (base.ifHead_instructions t) ?_,
      ((hlocals.withLabels 3).withInstr _).withInstr _⟩
    simp only [List.mem_cons, List.not_mem_nil, or_false, forall_eq_or_imp, forall_eq]
    exact ⟨⟨τ, hcovb.operand ht.facts hτ, hint⟩, trivial⟩
  have hscope : (base.ifHead t).scope = ctx.scope.addLabels := by rw [scope_ifHead, ht.scope]
  have hthen' := hthenTyped hcov₂ (hscope ▸ hiter.2.1) hhead
  have hmiddle : StmtTyped Γ (base.ifMiddle ctx₂) := by
    refine ⟨hthen'.code.append _ (base.ifMiddle_instructions ctx₂) ?_,
      (hthen'.locals.withInstr _).withInstr _⟩
    simp [Instr.Typed]
  have hscope₂ : (base.ifMiddle ctx₂).scope =
      scopeAfterBody Γ.table thenBody ctx.scope.addLabels := by
    rw [← hscope, ← hthen.scope]
    rfl
  have helse' := helseTyped hcov₃ (hscope₂ ▸ hiter.2.2) hmiddle
  exact ⟨helse'.code.instr (base.ifTail_instructions ctx₃) trivial, helse'.locals.withInstr _⟩

theorem StmtTyped.while (htable : TableTyped Γ.table) {ctx ctx₁ ctx₂ : LoweringContext}
    {test : Expr} {t : Operand} {body : List Stmt}
    (ht : ExprLowers Γ.table ctx.whileHead test t ctx₁) (hty : isIntLikeType t.type = true)
    (hbody : StmtsLower Γ.table (ctx.whileTest ctx₁ t) body ctx₂)
    (hbodyTyped : BodyTyped Γ (ctx.whileTest ctx₁ t) body ctx₂)
    (hcov : Γ.Covers (ctx.whileTail ctx₂))
    (hiter : ∀ p ∈ (Stmt.while test body).points Γ.table ctx.scope,
      p.2.iterates Γ.table p.1 = true)
    (h : StmtTyped Γ ctx) : StmtTyped Γ (ctx.whileTail ctx₂) := by
  rw [Stmt.points, List.forall_mem_cons] at hiter
  have hcov₂ := hcov.of_grows ((LoweringContext.Grows.refl ctx₂).whileTail ctx)
  have hcov₁ := hcov₂.of_grows
    (((LoweringContext.Grows.refl ctx₁).whileTest ctx t).trans hbody.grows)
  obtain ⟨τ, hτ, hint⟩ := exists_intLike hty
  have hhead : StmtTyped Γ ctx.whileHead :=
    ⟨h.code.instr ctx.whileHead_instructions trivial, (h.locals.withLabels 3).withInstr _⟩
  have htest := (ht.typed htable hcov₁ hhead.locals hhead.code).code
  have hstart : StmtTyped Γ (ctx.whileTest ctx₁ t) := by
    refine ⟨htest.append _ (ctx.whileTest_instructions ctx₁ t) ?_,
      ((hhead.locals.of_chain ht.facts.chain).withInstr _).withInstr _⟩
    simp only [List.mem_cons, List.not_mem_nil, or_false, forall_eq_or_imp, forall_eq]
    exact ⟨⟨τ, hcov₁.operand ht.facts hτ, hint⟩, trivial⟩
  have hscope : (ctx.whileTest ctx₁ t).scope = ctx.scope.addLabels := by
    rw [← scope_whileHead, ← ht.scope]
    rfl
  have hbody' := hbodyTyped hcov₂ (hscope ▸ hiter.2) hstart
  refine ⟨hbody'.code.append _ (ctx.whileTail_instructions ctx₂) ?_,
    (hbody'.locals.withInstr _).withInstr _⟩
  simp [Instr.Typed]

theorem StmtTyped.forEach (htable : TableTyped Γ.table) {ctx base ctx₁ ctx₂ : LoweringContext}
    {binding : String} {iterable : Expr} {v : Operand} {loc : Local} {body : List Stmt}
    (hv : ExprLowers Γ.table ctx iterable v base)
    (hloc : EnsuresLocal (base.forEachTest v) binding (bindingType v.type) loc ctx₁)
    (hbody : StmtsLower Γ.table (base.forEachItem ctx₁ v loc) body ctx₂)
    (hbodyTyped : BodyTyped Γ (base.forEachItem ctx₁ v loc) body ctx₂)
    (hcov : Γ.Covers (base.forEachTail ctx₂))
    (hiter : ∀ p ∈ (Stmt.forEach binding iterable body).points Γ.table ctx.scope,
      p.2.iterates Γ.table p.1 = true)
    (h : StmtTyped Γ ctx) : StmtTyped Γ (base.forEachTail ctx₂) := by
  rw [Stmt.points, List.forall_mem_cons] at hiter
  have hcov₂ := hcov.of_grows ((LoweringContext.Grows.refl ctx₂).forEachTail base)
  have hcovi := hcov₂.of_grows hbody.grows
  have hcovb := hcovi.of_grows ((((LoweringContext.Grows.refl base).forEachTest v).trans
    hloc.grows).forEachItem base v loc)
  have hiterable : isIterable v.type = true := by
    rw [hv.staticType]
    exact hiter.1
  have hitem := forEachItem_typed hiterable hloc hcovi (h.locals.of_chain hv.facts.chain)
    (getElem?_extend hcovb.temps hv.facts.type_eq) (hv.typed htable hcovb h.locals h.code).code
  have hscope : (base.forEachItem ctx₁ v loc).scope =
      (ctx.scope.hide (iterable.staticType Γ.table ctx.scope.types)).declare binding
        (bindingType (iterable.staticType Γ.table ctx.scope.types)) := by
    rw [← hv.staticType, ← hv.scope, ← scope_forEachTest, ← hloc.scope]
    rfl
  have hbody' := hbodyTyped hcov₂ (hscope ▸ hiter.2) hitem
  exact ⟨forEachTail_typed hloc hbody.grows hcov hbody'.code,
    ((((hbody'.locals.define _ _).define _ _).withInstr _).withInstr _).withInstr _⟩

mutual
/-- The code of a statement obeys the rules when each `para cada` in it goes over a text or a
list. -/
theorem StmtLowers.typed (htable : TableTyped Γ.table) {ctx ctx' : LoweringContext} {s : Stmt} :
    StmtLowers Γ.table ctx s ctx' → Γ.Covers ctx' →
      (∀ p ∈ s.points Γ.table ctx.scope, p.2.iterates Γ.table p.1 = true) →
      StmtTyped Γ ctx → StmtTyped Γ ctx'
  | .define he hloc, hcov, _, h => by
      have hcov₂ := hcov.of_withInstr
      obtain ⟨hcode, τ, hτ⟩ := he.typed htable (hcov₂.of_grows hloc.grows) h.locals h.code
      obtain ⟨hlocals, hlocτ, hget⟩ := hloc.typed hτ (h.locals.of_chain he.facts.chain)
      refine ⟨?_, hlocals.withInstr _⟩
      refine hcode.append [_] (by rw [← hloc.instructions]; rfl) ?_
      simp only [List.mem_singleton, forall_eq]
      exact ⟨τ, hlocτ, hcov₂.slot hget hlocτ, (hcov₂.of_grows hloc.grows).operand he.facts hτ⟩
  | .assign hloc he hty, hcov, _, h => by
      have hcov₁ := hcov.of_withInstr
      obtain ⟨hcode, τ, hτ⟩ := he.typed htable hcov₁ h.locals h.code
      have hlocals := h.locals.of_chain he.facts.chain
      refine ⟨hcode.instr rfl ?_, hlocals.withInstr _⟩
      have hget := getElem?_extend he.grows.localList (h.locals.slotsOk _ _ hloc).2
      exact ⟨τ, hty.trans hτ, hcov₁.slot hget (hty.trans hτ), hcov₁.operand he.facts hτ⟩
  | .show he, hcov, _, h => by
      have hcov₁ := hcov.of_withInstr
      obtain ⟨hcode, τ, hτ⟩ := he.typed htable hcov₁ h.locals h.code
      refine ⟨hcode.instr rfl ?_, (h.locals.of_chain he.facts.chain).withInstr _⟩
      exact ⟨τ, hcov₁.operand he.facts hτ, by rw [hτ]⟩
  | .exprStmt he, hcov, _, h =>
      ⟨(he.typed htable hcov h.locals h.code).code, h.locals.of_chain he.facts.chain⟩
  | .ret he hty, hcov, _, h => by
      have hcov₁ := hcov.of_withInstr
      obtain ⟨hcode, τ, hτ⟩ := he.typed htable hcov₁ h.locals h.code
      refine ⟨hcode.instr rfl ?_, (h.locals.of_chain he.facts.chain).withInstr _⟩
      exact ⟨τ, hty.trans hcov₁.returnType, hτ, hcov₁.operand he.facts hτ⟩
  | .retDefault hv hty, hcov, _, h => by
      have hcov₁ := hcov.of_withInstr
      obtain ⟨hcode, τ, hτ⟩ := hv.typed htable hcov₁ h.locals h.code
      refine ⟨hcode.instr rfl ?_, (h.locals.of_chain hv.facts.chain).withInstr _⟩
      exact ⟨τ, hty.trans hcov₁.returnType, hτ, hcov₁.operand hv.facts hτ⟩
  | .ifElse ht hty hthen helse, hcov, hiter, h =>
      .ifElse htable ht hty hthen helse (hthen.typed htable) (helse.typed htable) hcov hiter h
  | .while ht hty hbody, hcov, hiter, h =>
      .while htable ht hty hbody (hbody.typed htable) hcov hiter h
  | .forEach hv hloc hbody, hcov, hiter, h =>
      .forEach htable hv hloc hbody (hbody.typed htable) hcov hiter h

theorem StmtsLower.typed (htable : TableTyped Γ.table) {ctx ctx' : LoweringContext}
    {body : List Stmt} : StmtsLower Γ.table ctx body ctx' → BodyTyped Γ ctx body ctx'
  | .nil, _, _, h => h
  | .cons hs hbody, hcov, hiter, h => by
      rw [bodyPoints, List.forall_mem_append] at hiter
      rw [← hs.scope] at hiter
      exact hbody.typed htable hcov hiter.2
        (hs.typed htable (hcov.of_grows hbody.grows) hiter.1 h)
end

/-! ## The rules need iterables -/

theorem CodeTyped.of_grows {ctx ctx' : LoweringContext} (h : CodeTyped Γ ctx')
    (hg : ctx.Grows ctx') : CodeTyped Γ ctx :=
  fun inst hinst => h inst (hg.instructions.subset hinst)

theorem isIterable_of_signature {type : Option Ty} {τs : List Ty} {τ : Ty}
    (h : (lengthFn type).HasSignature τs τ) : ∃ σ, τs = [σ] ∧ isIterable (some σ) = true := by
  unfold lengthFn at h
  split at h
  · cases h
    exact ⟨.str, rfl, rfl⟩
  · cases h
    exact ⟨_, rfl, rfl⟩

/-- A typed loop goes over a text or a list. -/
theorem isIterable_of_forEachCond {base : LoweringContext} {v : Operand}
    (hcov : Γ.Covers (base.forEachTest v)) (h : CodeTyped Γ (base.forEachCond v)) :
    isIterable v.type = true := by
  have hmem : Instr.callRuntime (base.tempCount + 3) (lengthFn v.type) [base.tempCount + 2]
      (some .i64) ∈ (base.forEachCond v).instructions := by
    rw [base.forEachCond_instructions v]
    simp
  obtain ⟨τs, τ, hsig, hargs, -, -⟩ := h _ hmem
  obtain ⟨σ, rfl, hσ⟩ := isIterable_of_signature hsig
  have htemp : Γ.temps[base.tempCount + 2]? = some v.type := by
    refine getElem?_extend hcov.temps ?_
    rw [forEachTest_tempTypes, LoweringContext.tempCount,
      List.getElem?_append_right (Nat.le_add_right _ _), Nat.add_sub_cancel_left]
    rfl
  cases hargs with
  | cons harg _ =>
      rw [TypingContext.HasTemp, htemp] at harg
      rw [Option.some.inj harg]
      exact hσ

mutual
theorem StmtLowers.iterates {ctx ctx' : LoweringContext} {s : Stmt} :
    StmtLowers Γ.table ctx s ctx' → Γ.Covers ctx' → CodeTyped Γ ctx' →
      ∀ p ∈ s.points Γ.table ctx.scope, p.2.iterates Γ.table p.1 = true
  | .define _ _, _, _ => by simp [Stmt.points, Stmt.iterates]
  | .assign _ _ _, _, _ => by simp [Stmt.points, Stmt.iterates]
  | .show _, _, _ => by simp [Stmt.points, Stmt.iterates]
  | .exprStmt _, _, _ => by simp [Stmt.points, Stmt.iterates]
  | .ret _ _, _, _ => by simp [Stmt.points, Stmt.iterates]
  | .retDefault _ _, _, _ => by simp [Stmt.points, Stmt.iterates]
  | @StmtLowers.ifElse _ _ base ctx₂ ctx₃ _ t thenBody elseBody ht _ hthen helse, hcov, h => by
      have hg₃ := (LoweringContext.Grows.refl ctx₃).ifTail base
      have hg₂ := (((LoweringContext.Grows.refl ctx₂).ifMiddle base).trans helse.grows).trans hg₃
      have hscope : (base.ifHead t).scope = ctx.scope.addLabels := by rw [scope_ifHead, ht.scope]
      have hscope₂ : (base.ifMiddle ctx₂).scope =
          scopeAfterBody Γ.table thenBody ctx.scope.addLabels := by
        rw [← hscope, ← hthen.scope]
        rfl
      have hthen' := hthen.iterates (hcov.of_grows hg₂) (h.of_grows hg₂)
      have helse' := helse.iterates (hcov.of_grows hg₃) (h.of_grows hg₃)
      rw [hscope] at hthen'
      rw [hscope₂] at helse'
      rw [Stmt.points, List.forall_mem_cons, List.forall_mem_append]
      exact ⟨rfl, hthen', helse'⟩
  | @StmtLowers.while _ _ ctx₁ ctx₂ _ t body ht _ hbody, hcov, h => by
      have hg₂ := (LoweringContext.Grows.refl ctx₂).whileTail ctx
      have hscope : (ctx.whileTest ctx₁ t).scope = ctx.scope.addLabels := by
        rw [← scope_whileHead, ← ht.scope]
        rfl
      have hbody' := hbody.iterates (hcov.of_grows hg₂) (h.of_grows hg₂)
      rw [hscope] at hbody'
      rw [Stmt.points, List.forall_mem_cons]
      exact ⟨rfl, hbody'⟩
  | @StmtLowers.forEach _ _ base ctx₁ ctx₂ binding iterable v loc body hv hloc hbody, hcov, h => by
      have hg₂ := (LoweringContext.Grows.refl ctx₂).forEachTail base
      have hgt := (hloc.grows.forEachItem base v loc).trans (hbody.grows.trans hg₂)
      have hgc : (base.forEachCond v).Grows (base.forEachTest v) :=
        ((LoweringContext.Grows.refl _).withInstr _).withInstr _
      have hiter := isIterable_of_forEachCond (hcov.of_grows hgt) (h.of_grows (hgc.trans hgt))
      rw [hv.staticType] at hiter
      have hscope : (base.forEachItem ctx₁ v loc).scope =
          (ctx.scope.hide (iterable.staticType Γ.table ctx.scope.types)).declare binding
            (bindingType (iterable.staticType Γ.table ctx.scope.types)) := by
        rw [← hv.staticType, ← hv.scope, ← scope_forEachTest, ← hloc.scope]
        rfl
      have hbody' := hbody.iterates (hcov.of_grows hg₂) (h.of_grows hg₂)
      rw [hscope] at hbody'
      rw [Stmt.points, List.forall_mem_cons]
      exact ⟨hiter, hbody'⟩

theorem StmtsLower.iterates {ctx ctx' : LoweringContext} {body : List Stmt} :
    StmtsLower Γ.table ctx body ctx' → Γ.Covers ctx' → CodeTyped Γ ctx' →
      ∀ p ∈ bodyPoints Γ.table body ctx.scope, p.2.iterates Γ.table p.1 = true
  | .nil, _, _ => nofun
  | .cons hs hbody, hcov, h => by
      rw [bodyPoints, List.forall_mem_append, ← hs.scope]
      exact ⟨hs.iterates (hcov.of_grows hbody.grows) (h.of_grows hbody.grows),
        hbody.iterates hcov h⟩
end

/-! ## Whole bodies -/

/-- The default value of a type has that type. -/
theorem DefaultLowers.type_eq {table : FunctionTable} {ctx ctx' : LoweringContext} {τ : Ty}
    {v : Operand} (h : DefaultLowers table ctx (some τ) v ctx') : v.type = some τ := by
  cases h with
  | array _ => rfl
  | literal harr he =>
      rw [he.staticType]
      cases τ with
      | array _ => cases harr
      | _ => rfl

/-- The code of a body obeys the rules exactly when each `para cada` in it goes over a text or a
list. -/
theorem BodyLowers.codeTyped_iff (htable : TableTyped Γ.table) {start final : LoweringContext}
    {body : List Stmt} (h : BodyLowers Γ.table start body final) (hcov : Γ.Covers final)
    (hnil : start.instructions = []) (hlocals : LocalsTyped start)
    (hret : ∃ ρ, Γ.returnType = some ρ) :
    CodeTyped Γ final ↔ bodyIterates Γ.table body start.scope = true := by
  have hstart : StmtTyped Γ start := ⟨by simp [CodeTyped, hnil], hlocals⟩
  rw [bodyIterates, List.all_eq_true]
  cases h with
  | returns hs _ =>
      exact ⟨fun hcode => hs.iterates hcov hcode, fun hiter =>
        (hs.typed htable hcov hiter hstart).code⟩
  | @fallsOff ctx ctx₁ v hs _ hv =>
      have hcov₁ := hcov.of_withInstr
      have hg := hv.facts.chain.grows
      constructor
      · intro hcode
        exact hs.iterates (hcov₁.of_grows hg) (hcode.of_grows (hg.withInstr _))
      · intro hiter
        have hbody := hs.typed htable (hcov₁.of_grows hg) hiter hstart
        obtain ⟨hcode, τ, hτ⟩ := hv.typed htable hcov₁ hbody.locals hbody.code
        obtain ⟨ρ, hρ⟩ := hret
        have htype : ctx.returnType = some ρ := (hcov₁.of_grows hg).returnType.trans hρ
        have hvtype : v.type = Γ.returnType := by
          rw [htype] at hv
          rw [hv.type_eq, hρ]
        exact hcode.instr rfl ⟨τ, hvtype, hτ, hcov₁.operand hv.facts hτ⟩

end Lowered

/-! ## Whole units -/

/-- The locals and parameters of a context after its parameters are added. -/
theorem addParams_localsTyped : ∀ (ps : List (String × Option Ty)) (ctx : LoweringContext),
    (∀ p ∈ ps, ∃ τ, p.2 = some τ) → LocalsTyped ctx →
    (∀ p ∈ ctx.params, ctx.localList[p.slot]? = some p) →
    LocalsTyped (addParams ctx ps) ∧
      (∀ p ∈ (addParams ctx ps).params, (addParams ctx ps).localList[p.slot]? = some p) ∧
      (addParams ctx ps).params.map (·.type) = ctx.params.map (·.type) ++ ps.map (·.2)
  | [], ctx, _, h, hparams => ⟨h, hparams, by simp [addParams]⟩
  | (name, type) :: ps, ctx, hps, h, hparams => by
      obtain ⟨τ, hτ⟩ := hps _ List.mem_cons_self
      have hlocal : LocalsTyped (ctx.withLocal (ctx.freshLocal name type true)) :=
        h.withLocal rfl hτ
      have hnext : LocalsTyped (ctx.withParam (ctx.freshLocal name type true)) :=
        ⟨hlocal.slotsOk, hlocal.known⟩
      obtain ⟨hlocals, hslots, htypes⟩ := addParams_localsTyped ps _
        (fun p hp => hps p (List.mem_cons_of_mem _ hp)) hnext (by
          intro p hp
          rcases List.mem_append.mp hp with hp | hp
          · exact getElem?_extend (List.prefix_append _ _) (hparams p hp)
          · rw [List.mem_singleton.mp hp]
            simp [LoweringContext.freshLocal])
      refine ⟨hlocals, hslots, ?_⟩
      rw [addParams, htypes]
      simp [LoweringContext.freshLocal]

section Bodies

variable {table : FunctionTable} {consts final : ConstTables} {name : String}
  {returnType : Option Ty} {params : List (String × Option Ty)} {body : List Stmt}
  {ctx : LoweringContext}

theorem newContext_localsTyped (hps : ∀ p ∈ params, ∃ τ, p.2 = some τ) :
    LocalsTyped (newContext consts name returnType params) ∧
      (∀ p ∈ (newContext consts name returnType params).params,
        (newContext consts name returnType params).localList[p.slot]? = some p) ∧
      (newContext consts name returnType params).params.map (·.type) = params.map (·.2) :=
  addParams_localsTyped params _ hps ⟨nofun, nofun⟩ nofun

/-- The code of one function obeys the rules exactly when its `para cada` go over texts and
lists. -/
theorem BodyLowers.function_typed_iff (htable : TableTyped table)
    (h : BodyLowers table (newContext consts name returnType params) body ctx)
    (hext : ctx.consts.Extends final) (hps : ∀ p ∈ params, ∃ τ, p.2 = some τ)
    (hret : ∃ ρ, returnType = some ρ) :
    (∀ inst ∈ ctx.toFunction.instructions, inst.Typed (ctx.toFunction.typing table final)) ↔
      bodyIterates table body (paramScope params) = true := by
  have hcov : (ctx.toFunction.typing table final).Covers ctx :=
    ⟨hext, List.prefix_rfl, List.prefix_rfl, rfl⟩
  obtain ⟨hnil, htype, -, -, -⟩ := addParams_fields (emptyContext consts name returnType) params
  have hret' : ∃ ρ, (ctx.toFunction.typing table final).returnType = some ρ := by
    obtain ⟨ρ, hρ⟩ := hret
    exact ⟨ρ, (h.grows.returnType.trans htype).trans hρ⟩
  rw [← scope_newContext consts name returnType params]
  exact @BodyLowers.codeTyped_iff (ctx.toFunction.typing table final) htable _ _ _ h hcov hnil
    (newContext_localsTyped hps).1 hret'

theorem BodyLowers.params_slots
    (h : BodyLowers table (newContext consts name returnType params) body ctx)
    (hps : ∀ p ∈ params, ∃ τ, p.2 = some τ) :
    ∀ p ∈ ctx.toFunction.params, ctx.toFunction.locals[p.slot]? = some p := by
  intro p hp
  have hp' : p ∈ (newContext consts name returnType params).params := h.grows.params ▸ hp
  exact getElem?_extend h.grows.localList ((newContext_localsTyped hps).2.1 p hp')

theorem BodyLowers.params_types
    (h : BodyLowers table (newContext consts name returnType params) body ctx)
    (hps : ∀ p ∈ params, ∃ τ, p.2 = some τ) :
    ctx.toFunction.params.map (·.type) = params.map (·.2) := by
  have hparams : ctx.toFunction.params = (newContext consts name returnType params).params :=
    h.grows.params
  rw [hparams]
  exact (newContext_localsTyped hps).2.2

end Bodies

theorem TableFor.typed {fns : List FunctionDecl} {table : FunctionTable} (h : TableFor fns table) :
    TableTyped table := by
  refine ⟨?_, ?_⟩
  · intro name entry hentry type htype
    exact h.paramTypes entry (List.mem_of_find?_eq_some hentry) type htype
  · intro name entry hentry
    exact Option.isSome_iff_exists.mp (h.returnType entry (List.mem_of_find?_eq_some hentry))

theorem TableFor.paramsOf_typed {fns : List FunctionDecl} {table : FunctionTable}
    (h : TableFor fns table) {fn : FunctionDecl} (hfn : fn ∈ fns) :
    ∀ p ∈ paramsOf table fn, ∃ τ, p.2 = some τ := by
  obtain ⟨entry, hentry, -⟩ := h.exists_entry hfn
  intro p hp
  rw [paramsOf, hentry] at hp
  exact Option.isSome_iff_exists.mp
    (h.typed.paramTypes _ _ hentry p.2 (List.of_mem_zip (a := p.1) (b := p.2) hp).2)

theorem TableFor.returnType_known {fns : List FunctionDecl} {table : FunctionTable}
    (h : TableFor fns table) {fn : FunctionDecl} (hfn : fn ∈ fns) :
    ∃ ρ, table.returnType fn.name = some ρ := by
  obtain ⟨entry, hentry, -⟩ := h.exists_entry hfn
  obtain ⟨ρ, hρ⟩ := h.typed.returnType _ _ hentry
  exact ⟨ρ, by rw [FunctionTable.returnType, hentry]; exact hρ⟩

theorem FunctionsLower.typed_iff {fns all : List FunctionDecl} {table : FunctionTable}
    {consts consts' final : ConstTables} {lowered : List IRFunction} (htable : TableFor all table)
    (hsub : ∀ fn ∈ fns, fn ∈ all) (h : FunctionsLower table consts fns lowered consts')
    (hfinal : consts'.Extends final) :
    (∀ ir ∈ lowered, ∀ inst ∈ ir.instructions, inst.Typed (ir.typing table final)) ↔
      ∀ fn ∈ fns, bodyIterates table fn.body (paramScope (paramsOf table fn)) = true := by
  induction h with
  | nil => simp
  | cons _ hbody hrest ih =>
      rw [List.forall_mem_cons] at hsub
      rw [List.forall_mem_cons, List.forall_mem_cons, ih hsub.2 hfinal]
      exact and_congr_left fun _ => hbody.function_typed_iff htable.typed
        (hrest.extends_consts.trans hfinal) (htable.paramsOf_typed hsub.1)
        (htable.returnType_known hsub.1)

theorem ProgramLowers.constsTyped {program : Program} {table : FunctionTable} {unit : IRUnit}
    (h : ProgramLowers program table unit) : unit.consts.Typed := by
  cases h with
  | intro hfns hbody => exact hbody.grows.consts.typed (hfns.extends_consts.typed nofun)

/-- A function of a unit found by its symbol has the types of its entry. -/
theorem ProgramLowers.callee_typed {program : Program} {table : FunctionTable} {unit : IRUnit}
    (h : ProgramLowers program table unit) (htable : TableFor program.functions table)
    {name : String} {ir : IRFunction} (hir : unit.lookup (.fn name) = some ir) :
    ∃ entry, table.lookup name = some entry ∧ ir.params.map (·.type) = entry.paramTypes ∧
      ir.returnType = entry.returnType := by
  have hsymbol : ir.symbol = .fn name := by simpa using List.find?_some hir
  have hmem := List.mem_of_find?_eq_some hir
  cases h with
  | intro hfns hbody =>
      rcases List.mem_append.mp hmem with hmem | hmem
      · obtain ⟨fn, hfn, consts₁, final, -, hfnBody, rfl⟩ := hfns.origin ir hmem
        obtain ⟨entry, hentry, hlen⟩ := htable.exists_entry hfn
        have hname : fn.name = name := by
          have hstart : final.toFunction.symbol = symbolOf fn.name :=
            hfnBody.grows.symbol.trans (addParams_fields _ _).2.2.1
          rw [hsymbol, symbolOf] at hstart
          split at hstart
          · cases hstart
          · exact (Symbol.fn.inj hstart).symm
        have hret : final.returnType = table.returnType fn.name :=
          hfnBody.grows.returnType.trans (addParams_fields _ _).2.1
        refine ⟨entry, hname ▸ hentry, ?_, ?_⟩
        · rw [hfnBody.params_types (htable.paramsOf_typed hfn), paramsOf, hentry]
          exact List.map_snd_zip hlen.ge
        · exact hret.trans (by rw [FunctionTable.returnType, hentry]; rfl)
      · rw [List.mem_singleton.mp hmem] at hsymbol
        have hmain := hbody.grows.symbol.trans (addParams_fields _ _).2.2.1
        cases hsymbol.symm.trans hmain

/-- A unit is well typed exactly when every `para cada` of its program goes over a text or a
list. -/
theorem ProgramLowers.unitTyped_iff {program : Program} {table : FunctionTable} {unit : IRUnit}
    (h : ProgramLowers program table unit) (htable : TableFor program.functions table) :
    UnitTyped table unit ↔
      (∀ fn ∈ program.functions,
        bodyIterates table fn.body (paramScope (paramsOf table fn)) = true) ∧
      bodyIterates table program.body (paramScope []) = true := by
  have hconsts := h.constsTyped
  have hcallee : ∀ name ir, unit.lookup (.fn name) = some ir → ∃ entry,
      table.lookup name = some entry ∧ ir.params.map (·.type) = entry.paramTypes ∧
        ir.returnType = entry.returnType := fun name ir hir => h.callee_typed htable hir
  cases h with
  | @intro consts lowered ctx hfns hbody =>
      have hcode : (∀ ir ∈ lowered ++ [ctx.toFunction], ∀ inst ∈ ir.instructions,
          inst.Typed (ir.typing table ctx.consts)) ↔ _ :=
        List.forall_mem_append.trans (and_congr
          (hfns.typed_iff htable (fun fn hfn => hfn) hbody.grows.consts)
          (List.forall_mem_singleton.trans
            (hbody.function_typed_iff htable.typed (.refl _) nofun ⟨.i64, rfl⟩)))
      refine ⟨fun hunit => hcode.mp hunit.code, fun hiter =>
        ⟨hconsts, hcode.mpr hiter, ?_, hcallee⟩⟩
      intro ir hir
      rcases List.mem_append.mp hir with hir | hir
      · obtain ⟨fn, hfn, consts₁, final, -, hfnBody, rfl⟩ := hfns.origin ir hir
        exact hfnBody.params_slots (htable.paramsOf_typed hfn)
      · rw [List.mem_singleton.mp hir]
        exact hbody.params_slots nofun

end GatoCore.Native
