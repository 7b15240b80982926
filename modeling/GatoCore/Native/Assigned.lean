import GatoCore.Lib.Regions
import GatoCore.Native.Scopes

/-!
# Definite assignment

A slot is made when its name is first lowered, not when it is first stored to. Which slots have
been stored to on every path is computed here from the text. A path through the code reaches a
`load_local` before any `store_local` to its slot exactly when the text reads a name whose slot is
not among them.
-/

namespace GatoCore.Native

open GatoCore.Lib

/-! ## The analysis -/

/-- A point of a function: the slot of each name known there, the number of locals and labels so
far, and the slots stored to on every path to the point. No path leads to it if there is no such
list. -/
structure Flow where
  slots : String → Option ℕ
  count : ℕ
  labels : ℕ
  assigned : Option (List ℕ)

namespace Flow

def store (flow : Flow) (slot : ℕ) : Flow :=
  { flow with assigned := flow.assigned.map (slot :: ·) }

/-- `ensureLocal`. -/
def declare (flow : Flow) (name : String) : Flow :=
  match flow.slots name with
  | some _ => flow
  | none =>
      { flow with slots := Function.update flow.slots name (some flow.count)
                  count := flow.count + 1 }

/-- The store to a name that has a slot. -/
def assign (flow : Flow) (name : String) : Flow :=
  match flow.slots name with
  | some slot => flow.store slot
  | none => flow

def addLabels (flow : Flow) : Flow := { flow with labels := flow.labels + 3 }

/-- The hidden locals of a `para cada`, stored to before its loop. -/
def hide (flow : Flow) : Flow :=
  { slots := Function.update (Function.update flow.slots (eachName flow.labels) (some flow.count))
      (iterName flow.labels) (some (flow.count + 1))
    count := flow.count + 2
    labels := flow.labels + 3
    assigned := flow.assigned.map fun l => (flow.count + 1) :: flow.count :: l }

/-- `retornar`. -/
def stop (flow : Flow) : Flow := { flow with assigned := none }

/-- The names and labels of `flow`, reached from another point. -/
def resume (flow other : Flow) : Flow := { flow with assigned := other.assigned }

/-- The end of a `se`, reached from both branches. -/
def join (flow other : Flow) : Flow :=
  { flow with
    assigned := match flow.assigned, other.assigned with
      | none, assigned => assigned
      | assigned, none => assigned
      | some l, some l' => some (l.filter (· ∈ l')) }

/-- The name has a value on every path. -/
def isAssigned (flow : Flow) (name : String) : Bool :=
  match flow.assigned with
  | none => true
  | some l => (flow.slots name).all (· ∈ l)

end Flow

/-- The variables a statement itself reads, not those of the blocks in it. -/
def Stmt.reads : Stmt → List String
  | .define _ e => e.reads
  | .assign _ e => e.reads
  | .show e => e.reads
  | .exprStmt e => e.reads
  | .ret e => (e.map Expr.reads).getD []
  | .ifElse test _ _ => test.reads
  | .while test _ => test.reads
  | .forEach _ iterable _ => iterable.reads

mutual
def Stmt.flowAfter : Stmt → Flow → Flow
  | .define name _, flow => (flow.declare name).assign name
  | .assign name _, flow => flow.assign name
  | .ret _, flow => flow.stop
  | .ifElse _ thenBody elseBody, flow =>
      let thenEnd := bodyFlowAfter thenBody flow.addLabels
      (bodyFlowAfter elseBody (thenEnd.resume flow)).join thenEnd
  | .while _ body, flow => (bodyFlowAfter body flow.addLabels).resume flow
  | .forEach binding _ body, flow =>
      (bodyFlowAfter body ((flow.hide.declare binding).assign binding)).resume flow.hide
  | _, flow => flow

def bodyFlowAfter : List Stmt → Flow → Flow
  | [], flow => flow
  | s :: body, flow => bodyFlowAfter body (s.flowAfter flow)
end

mutual
/-- The statements in a statement, each with the point before it. -/
def Stmt.flowPoints : Stmt → Flow → List (Flow × Stmt)
  | .ifElse test thenBody elseBody, flow =>
      (flow, .ifElse test thenBody elseBody) :: (bodyFlowPoints thenBody flow.addLabels ++
        bodyFlowPoints elseBody ((bodyFlowAfter thenBody flow.addLabels).resume flow))
  | .while test body, flow =>
      (flow, .while test body) :: bodyFlowPoints body flow.addLabels
  | .forEach binding iterable body, flow =>
      (flow, .forEach binding iterable body) ::
        bodyFlowPoints body ((flow.hide.declare binding).assign binding)
  | s, flow => [(flow, s)]

def bodyFlowPoints : List Stmt → Flow → List (Flow × Stmt)
  | [], _ => []
  | s :: body, flow => s.flowPoints flow ++ bodyFlowPoints body (s.flowAfter flow)
end

/-- The start of a function: the parameters are in their slots. -/
def paramFlow (params : List String) : Flow :=
  { slots := params.zipIdx.foldl (fun slots p => Function.update slots p.1 (some p.2)) fun _ => none
    count := params.length
    labels := 0
    assigned := some (List.range params.length) }

/-- Every name a body reads has a value on every path there. -/
def assignedBeforeRead (body : List Stmt) (flow : Flow) : Bool :=
  (bodyFlowPoints body flow).all fun p => p.2.reads.all p.1.isAssigned

/-! ## Open slots -/

/-- Some path to the point has no store to the slot. -/
def Flow.Open (flow : Flow) (slot : ℕ) : Prop := ∃ l, flow.assigned = some l ∧ slot ∉ l

section Open

variable {flow other : Flow} {slot x : ℕ}

theorem open_store : (flow.store x).Open slot ↔ flow.Open slot ∧ slot ≠ x := by
  constructor
  · rintro ⟨l, hl, hslot⟩
    obtain ⟨l', hl', rfl⟩ := Option.map_eq_some_iff.mp hl
    rw [List.mem_cons, not_or] at hslot
    exact ⟨⟨l', hl', hslot.2⟩, hslot.1⟩
  · rintro ⟨⟨l, hl, hslot⟩, hne⟩
    refine ⟨x :: l, ?_, ?_⟩
    · rw [Flow.store, hl, Option.map_some]
    · rw [List.mem_cons, not_or]
      exact ⟨hne, hslot⟩

@[simp] theorem open_declare (name : String) : (flow.declare name).Open slot ↔ flow.Open slot := by
  unfold Flow.declare
  split <;> rfl

@[simp] theorem open_addLabels : flow.addLabels.Open slot ↔ flow.Open slot := Iff.rfl

@[simp] theorem open_resume : (flow.resume other).Open slot ↔ other.Open slot := Iff.rfl

theorem open_stop : ¬ flow.stop.Open slot := by
  rintro ⟨l, hl, -⟩
  cases hl

theorem open_hide :
    flow.hide.Open slot ↔ (flow.Open slot ∧ slot ≠ flow.count) ∧ slot ≠ flow.count + 1 := by
  have hhide : flow.hide.assigned = ((flow.store flow.count).store (flow.count + 1)).assigned := by
    simp [Flow.hide, Flow.store, Function.comp_def]
  rw [← open_store, ← open_store, Flow.Open, Flow.Open, hhide]

theorem open_join : (flow.join other).Open slot ↔ other.Open slot ∨ flow.Open slot := by
  unfold Flow.Open Flow.join
  cases hflow : flow.assigned with
  | none => simp
  | some l =>
      cases hother : other.assigned with
      | none => simp
      | some l' =>
          simp only [Option.some.injEq, exists_eq_left', List.mem_filter, decide_eq_true_eq]
          tauto

theorem open_assign {name : String} (h : flow.slots name = some x) :
    (flow.assign name).Open slot ↔ flow.Open slot ∧ slot ≠ x := by
  rw [Flow.assign, h]
  exact open_store

theorem isAssigned_iff {name : String} (h : flow.slots name = some x) :
    flow.isAssigned name = true ↔ ¬ flow.Open x := by
  unfold Flow.isAssigned Flow.Open
  cases flow.assigned with
  | none => simp
  | some l => simp [h]

end Open

/-! ## The graph of a slot -/

/-- The slot an instruction stores to. -/
def Instr.stored : Instr → Option ℕ
  | .storeLocal slot _ _ => some slot
  | _ => none

/-- The slot an instruction loads. -/
def Instr.loaded : Instr → Option ℕ
  | .loadLocal _ slot _ => some slot
  | _ => none

/-- The control flow of a code, as the stores and loads of one slot see it. -/
def slotGraph (code : List Instr) (slot : ℕ) : KillGraph :=
  { edge := Edge code
    kill := fun i => code[i]?.bind Instr.stored = some slot
    use := fun i => code[i]?.bind Instr.loaded = some slot }

section Graph

variable {code pre : List Instr} {slot i : ℕ}

theorem edge_next {inst : Instr} (h : code[i]? = some inst) (hfalls : fallsThrough inst = true)
    {j : ℕ} : Edge code i j ↔ j = i + 1 := by
  have htargets : jumpTargets inst = [] := by
    cases inst <;> first | rfl | cases hfalls
  simp [Edge, h, hfalls, htargets]

theorem edge_jmp (hnd : (labelsOf code).Nodup) {l : Label} (h : code[i]? = some (.jmp l)) {x : ℕ}
    (hx : code[x]? = some (.label l)) {j : ℕ} : Edge code i j ↔ j = x ∨ j = x := by
  simp only [Edge, h, Option.some.injEq, exists_eq_left', fallsThrough, jumpTargets,
    List.mem_singleton, exists_eq_left, labelIndex_of_nodup hnd hx, reduceCtorEq, false_and,
    false_or, or_self]
  exact eq_comm

theorem edge_br (hnd : (labelsOf code).Nodup) {t : ℕ} {l l' : Label}
    (h : code[i]? = some (.br t l l')) {x y : ℕ} (hx : code[x]? = some (.label l))
    (hy : code[y]? = some (.label l')) {j : ℕ} : Edge code i j ↔ j = x ∨ j = y := by
  simp only [Edge, h, Option.some.injEq, exists_eq_left', fallsThrough, jumpTargets,
    List.mem_cons, List.not_mem_nil, or_false, exists_eq_or_imp, exists_eq_left,
    labelIndex_of_nodup hnd hx, labelIndex_of_nodup hnd hy, reduceCtorEq, false_and, false_or]
  exact or_congr eq_comm eq_comm

theorem plain_label {l : Label} (h : code[i]? = some (.label l)) : (slotGraph code slot).Plain i :=
  { edge := edge_next h rfl
    kill := by simp [slotGraph, h, Instr.stored]
    use := by simp [slotGraph, h, Instr.loaded] }

theorem jump_jmp (hnd : (labelsOf code).Nodup) {l : Label} (h : code[i]? = some (.jmp l)) {x : ℕ}
    (hx : code[x]? = some (.label l)) : (slotGraph code slot).Jump i x x :=
  { edge := edge_jmp hnd h hx
    kill := by simp [slotGraph, h, Instr.stored]
    use := by simp [slotGraph, h, Instr.loaded] }

theorem jump_br (hnd : (labelsOf code).Nodup) {t : ℕ} {l l' : Label}
    (h : code[i]? = some (.br t l l')) {x y : ℕ} (hx : code[x]? = some (.label l))
    (hy : code[y]? = some (.label l')) : (slotGraph code slot).Jump i x y :=
  { edge := edge_br hnd h hx hy
    kill := by simp [slotGraph, h, Instr.stored]
    use := by simp [slotGraph, h, Instr.loaded] }

/-- Code without jumps and without stores. -/
theorem region_segment (slot : ℕ) (entry : Prop) : ∀ {seg pre : List Instr}, pre ++ seg <+: code →
    (∀ inst ∈ seg, fallsThrough inst = true ∧ inst.stored = none) →
    (slotGraph code slot).Region pre.length (pre ++ seg).length entry entry
      (entry ∧ slot ∈ seg.filterMap Instr.loaded)
  | [], pre, _, _ => by
      rw [List.append_nil]
      exact (KillGraph.Region.refl _ entry).congr Iff.rfl (by simp)
  | inst :: seg, pre, hcode, hseg => by
      rw [List.forall_mem_cons] at hseg
      rw [List.append_cons] at hcode ⊢
      have hget : code[pre.length]? = some inst :=
        getElem?_of_code ((List.prefix_append _ seg).trans hcode)
      have hfirst := @KillGraph.Region.next (slotGraph code slot) _
        (edge_next hget hseg.1.1) (by simp [slotGraph, hget, hseg.1.2]) entry
      have hrest := region_segment slot entry hcode hseg.2
      rw [show (pre ++ [inst]).length = pre.length + 1 by simp] at hrest
      refine (hfirst.trans hrest).congr Iff.rfl ?_
      rw [← and_or_left, List.filterMap_cons]
      cases hload : inst.loaded with
      | none => simp [slotGraph, hget, hload]
      | some x => simp [slotGraph, hget, hload, eq_comm]

/-- Code without jumps and without loads. -/
theorem region_straight (slot : ℕ) : ∀ {seg pre : List Instr} (entry : Prop), pre ++ seg <+: code →
    (∀ inst ∈ seg, fallsThrough inst = true ∧ inst.loaded = none) →
    (slotGraph code slot).Region pre.length (pre ++ seg).length entry
      (entry ∧ slot ∉ seg.filterMap Instr.stored) False
  | [], pre, entry, _, _ => by
      rw [List.append_nil]
      exact (KillGraph.Region.refl _ entry).congr (by simp) Iff.rfl
  | inst :: seg, pre, entry, hcode, hseg => by
      rw [List.forall_mem_cons] at hseg
      rw [List.append_cons] at hcode ⊢
      have hget : code[pre.length]? = some inst :=
        getElem?_of_code ((List.prefix_append _ seg).trans hcode)
      have huse : ¬ (slotGraph code slot).use pre.length := by simp [slotGraph, hget, hseg.1.2]
      have hlen : (pre ++ [inst]).length = pre.length + 1 := by simp
      by_cases hkill : inst.stored = some slot
      · -- nothing is left of the fact after the store
        have hstop : (slotGraph code slot).kill pre.length := by simp [slotGraph, hget, hkill]
        have hfirst := KillGraph.Region.stop (fun _ => hstop) entry
        have hrest := region_straight slot False hcode hseg.2
        rw [hlen] at hrest
        exact (hfirst.trans hrest).congr (by simp [hkill]) (by simp [huse])
      · have hfirst := @KillGraph.Region.next (slotGraph code slot) _ (edge_next hget hseg.1.1)
          (by simpa [slotGraph, hget] using hkill) entry
        have hrest := region_straight slot entry hcode hseg.2
        rw [hlen] at hrest
        refine (hfirst.trans hrest).congr ?_ (by simp [huse])
        rw [List.filterMap_cons]
        cases hstore : inst.stored with
        | none => rfl
        | some x =>
            have hne : slot ≠ x := fun hx => hkill (hx ▸ hstore)
            simp [hne]

theorem region_ret {value : ℕ} {type : Option Ty} (slot : ℕ) (entry : Prop)
    (hcode : pre ++ [Instr.ret value type] <+: code) :
    (slotGraph code slot).Region pre.length (pre ++ [Instr.ret value type]).length entry False
      False := by
  have hget := getElem?_of_code hcode
  rw [List.length_append, List.length_singleton]
  refine (KillGraph.Region.stop ?_ entry).congr Iff.rfl ?_
  · intro j hj
    simp [slotGraph, Edge, hget, fallsThrough, jumpTargets] at hj
  · simp [slotGraph, hget, Instr.loaded]

end Graph

/-! ## Code of expressions -/

/-- Code that only defines temps, and loads the slots of the names in `reads`. -/
def ExprCode (ctx ctx' : LoweringContext) (reads : List String) : Prop :=
  ∃ seg, ctx'.instructions = ctx.instructions ++ seg ∧ (∀ inst ∈ seg, tempDefs inst ≠ []) ∧
    ∀ slot, slot ∈ seg.filterMap Instr.loaded ↔
      ∃ x ∈ reads, (ctx.locals x).map (·.slot) = some slot

section ExprCode

variable {ctx ctx₁ ctx₂ : LoweringContext} {reads reads' : List String}

theorem ExprCode.refl (ctx : LoweringContext) : ExprCode ctx ctx [] :=
  ⟨[], by simp, by simp, by simp⟩

theorem ExprCode.trans (h : ExprCode ctx ctx₁ reads) (hlocals : ctx₁.locals = ctx.locals)
    (h' : ExprCode ctx₁ ctx₂ reads') : ExprCode ctx ctx₂ (reads ++ reads') := by
  obtain ⟨seg, hseg, hdefs, hloads⟩ := h
  obtain ⟨seg', hseg', hdefs', hloads'⟩ := h'
  refine ⟨seg ++ seg', by rw [hseg', hseg, List.append_assoc],
    List.forall_mem_append.mpr ⟨hdefs, hdefs'⟩, ?_⟩
  intro slot
  rw [hlocals] at hloads'
  simp only [List.filterMap_append, List.mem_append, exists_or, or_and_right, hloads slot,
    hloads' slot]

/-- One instruction more, that is not a load. -/
theorem ExprCode.append (h : ExprCode ctx ctx₁ reads) {inst : Instr}
    (hcode : ctx₂.instructions = ctx₁.instructions ++ [inst]) (hdefs : tempDefs inst ≠ [])
    (hload : inst.loaded = none) : ExprCode ctx ctx₂ reads := by
  obtain ⟨seg, hseg, hsegDefs, hloads⟩ := h
  refine ⟨seg ++ [inst], by rw [hcode, hseg, List.append_assoc],
    List.forall_mem_append.mpr ⟨hsegDefs, List.forall_mem_singleton.mpr hdefs⟩, ?_⟩
  intro slot
  rw [← hloads slot]
  simp [hload]

mutual
theorem ExprLowers.exprCode {table : FunctionTable} {ctx ctx' : LoweringContext} {e : Expr}
    {v : Operand} : ExprLowers table ctx e v ctx' → ExprCode ctx ctx' e.reads
  | @ExprLowers.literal _ _ _ constant _ hc => by
      rw [buildConstValue_reads hc]
      refine (ExprCode.refl ctx).append rfl (by simp [ConstValue.instr_defs]) ?_
      unfold ConstValue.instr
      split <;> rfl
  | .identifier hloc => by
      refine ⟨[_], rfl, by simp [tempDefs], ?_⟩
      intro slot
      simp [Expr.reads, hloc, Instr.loaded, eq_comm]
  | .neg he _ => he.exprCode.append rfl (by simp [tempDefs]) rfl
  | .not he _ => he.exprCode.append rfl (by simp [tempDefs]) rfl
  | .tamanhoDe he _ => he.exprCode.append rfl (by simp [tempDefs]) rfl
  | .tipoDe he => he.exprCode.append rfl (by simp [tempDefs]) rfl
  | .identificar he => he.exprCode.append rfl (by simp [tempDefs]) rfl
  | .observar he => he.exprCode.append rfl (by simp [tempDefs]) rfl
  | .compare hl hr _ _ =>
      (hl.exprCode.trans hl.facts.chain.locals.1 hr.exprCode).append rfl (by simp [tempDefs]) rfl
  | @ExprLowers.logical _ _ _ ctx₂ _ _ _ _ a b hl hr _ _ _ _ => by
      have hboth := hl.exprCode.trans hl.facts.chain.locals.1 hr.exprCode
      have hleft : ExprCode ctx (ctx₂.define (some .bool) (.cmp ctx₂.tempCount .ne a.temp (.imm 0)))
          _ := hboth.append rfl (by simp [tempDefs]) rfl
      have hright : ExprCode ctx ((ctx₂.define (some .bool)
          (.cmp ctx₂.tempCount .ne a.temp (.imm 0))).define (some .bool)
          (.cmp (ctx₂.tempCount + 1) .ne b.temp (.imm 0))) _ :=
        hleft.append rfl (by simp [tempDefs]) rfl
      exact hright.append rfl (by simp [tempDefs]) rfl
  | .arith hl hr _ _ _ _ =>
      (hl.exprCode.trans hl.facts.chain.locals.1 hr.exprCode).append rfl (by simp [tempDefs]) rfl
  | .call _ _ _ hargs => hargs.exprCode.append rfl (by simp [tempDefs]) rfl

theorem ArgsLower.exprCode {table : FunctionTable} {ctx ctx' : LoweringContext}
    {types : List (Option Ty)} {args : List Expr} {vs : List Operand} :
    ArgsLower table ctx types args vs ctx' → ExprCode ctx ctx' (readsOf args)
  | .nil => .refl ctx
  | .cons he _ hargs => he.exprCode.trans he.facts.chain.locals.1 hargs.exprCode
end

theorem DefaultLowers.exprCode {table : FunctionTable} {ctx ctx' : LoweringContext}
    {type : Option Ty} {v : Operand} (h : DefaultLowers table ctx type v ctx') :
    ExprCode ctx ctx' [] := by
  cases h with
  | array _ => exact (ExprCode.refl ctx).append rfl (by simp [tempDefs]) rfl
  | literal _ he =>
      have hreads : (typeDefaultValue type).reads = [] := by
        unfold typeDefaultValue
        split <;> rfl
      exact hreads ▸ he.exprCode

end ExprCode

/-! ## Lowering follows the analysis -/

/-- The names, locals and labels of a point are those of the context. -/
structure FlowMatch (flow : Flow) (ctx : LoweringContext) : Prop where
  slots : ∀ x, flow.slots x = (ctx.locals x).map (·.slot)
  count : flow.count = ctx.localList.length
  labels : flow.labels = ctx.labelCount

section Lowered

variable {flow : Flow} {ctx ctx' : LoweringContext} {code : List Instr} {slot : ℕ}

theorem FlowMatch.of_chain {lo : ℕ} (h : FlowMatch flow ctx) (hchain : DefChain lo ctx ctx') :
    FlowMatch flow ctx' := by
  obtain ⟨hlocals, hlist⟩ := hchain.locals
  exact ⟨by rw [hlocals]; exact h.slots, by rw [hlist]; exact h.count,
    by rw [hchain.labelCount]; exact h.labels⟩

theorem falls_of_tempDefs {inst : Instr} (h : tempDefs inst ≠ []) :
    fallsThrough inst = true ∧ inst.stored = none := by
  cases inst <;> first | exact ⟨rfl, rfl⟩ | exact absurd rfl h

theorem ExprCode.region {reads : List String} (h : ExprCode ctx ctx' reads)
    (hcode : ctx'.instructions <+: code) (hflow : FlowMatch flow ctx) (slot : ℕ)
    (entry : Prop) :
    (slotGraph code slot).Region ctx.instructions.length ctx'.instructions.length entry entry
      (entry ∧ ∃ x ∈ reads, flow.slots x = some slot) := by
  obtain ⟨seg, hseg, hdefs, hloads⟩ := h
  rw [hseg] at hcode ⊢
  refine (region_segment slot entry hcode ?_).congr Iff.rfl ?_
  · exact fun inst hinst => falls_of_tempDefs (hdefs inst hinst)
  · simp only [hloads slot, hflow.slots]

theorem FlowMatch.ensures {name : String} {type : Option Ty} {loc : Local}
    (h : FlowMatch flow ctx) (hloc : EnsuresLocal ctx name type loc ctx') :
    FlowMatch (flow.declare name) ctx' ∧ (flow.declare name).slots name = some loc.slot := by
  cases hloc with
  | existing hname _ =>
      have hslot : flow.slots name = some loc.slot := by rw [h.slots, hname, Option.map_some]
      rw [Flow.declare, hslot]
      exact ⟨h, hslot⟩
  | fresh hname =>
      have hslot : flow.slots name = none := by rw [h.slots, hname, Option.map_none]
      rw [Flow.declare, hslot]
      refine ⟨⟨?_, ?_, h.labels⟩, ?_⟩
      · intro x
        by_cases hx : x = name
        · subst hx
          simp [LoweringContext.freshLocal, h.count]
        · simp [LoweringContext.freshLocal, hx, h.slots]
      · simp [h.count]
      · simp [LoweringContext.freshLocal, h.count]

theorem FlowMatch.assign (h : FlowMatch flow ctx) (name : String) :
    FlowMatch (flow.assign name) ctx := by
  unfold Flow.assign
  split <;> exact ⟨h.slots, h.count, h.labels⟩

theorem FlowMatch.forEachTest (h : FlowMatch flow ctx) (v : Operand) :
    FlowMatch flow.hide (ctx.forEachTest v) := by
  constructor
  · intro x
    simp only [Flow.hide, LoweringContext.forEachTest, LoweringContext.forEachCond,
      LoweringContext.forEachStart, LoweringContext.forEachInit,
      LoweringContext.withInstr_locals, LoweringContext.define_locals,
      LoweringContext.withLabels_locals, LoweringContext.withLocal_locals,
      LoweringContext.eachLocal, LoweringContext.iterLocal, LoweringContext.freshLocal,
      h.labels, h.count]
    by_cases hiter : x = iterName ctx.labelCount
    · subst hiter
      simp
    · by_cases heach : x = eachName ctx.labelCount
      · subst heach
        simp [hiter]
      · simp [hiter, heach, h.slots]
  · rw [LoweringContext.forEachTest_localList, List.length_append]
    simp [Flow.hide, h.count]
  · simp [Flow.hide, LoweringContext.forEachTest, LoweringContext.forEachCond,
      LoweringContext.forEachStart, LoweringContext.forEachInit, h.labels]

theorem FlowMatch.forEachTail (h : FlowMatch flow ctx) (base : LoweringContext) :
    FlowMatch flow (base.forEachTail ctx) := by
  constructor
  · simp [LoweringContext.forEachTail, LoweringContext.forEachStep, h.slots]
  · simp [LoweringContext.forEachTail, LoweringContext.forEachStep, h.count]
  · simp [LoweringContext.forEachTail, LoweringContext.forEachStep, h.labels]

/-- The text reads a name at a point where its slot, `slot`, may not have been stored to. -/
def Misses (slot : ℕ) (points : List (Flow × Stmt)) : Prop :=
  ∃ p ∈ points, p.1.Open slot ∧ ∃ x ∈ p.2.reads, p.1.slots x = some slot

theorem misses_cons {p : Flow × Stmt} {points : List (Flow × Stmt)} :
    Misses slot (p :: points) ↔
      (p.1.Open slot ∧ ∃ x ∈ p.2.reads, p.1.slots x = some slot) ∨ Misses slot points := by
  simp only [Misses, List.mem_cons, exists_eq_or_imp]

theorem misses_append {points points' : List (Flow × Stmt)} :
    Misses slot (points ++ points') ↔ Misses slot points ∨ Misses slot points' := by
  simp only [Misses, List.mem_append, or_and_right, exists_or]

theorem misses_singleton {s : Stmt} : Misses slot [(flow, s)] ↔
    flow.Open slot ∧ ∃ x ∈ s.reads, flow.slots x = some slot := by
  rw [misses_cons, or_iff_left (by simp [Misses])]

/-- What the code between two contexts does with a slot is what the analysis says. -/
def Analysed (code : List Instr) (slot : ℕ) (ctx ctx' : LoweringContext) (flow flow' : Flow)
    (points : List (Flow × Stmt)) : Prop :=
  (slotGraph code slot).Region ctx.instructions.length ctx'.instructions.length (flow.Open slot)
    (flow'.Open slot) (Misses slot points)

/-- An expression, then a store of its value. -/
theorem analysed_store {s : Stmt} {ctx₁ ctx₂ : LoweringContext} {value x : ℕ} {type : Option Ty}
    {flow' : Flow} (he : ExprCode ctx ctx₁ s.reads)
    (hinstrs : ctx₂.instructions = ctx₁.instructions)
    (hcode : (ctx₂.withInstr (.storeLocal x type value)).instructions <+: code)
    (hflow : FlowMatch flow ctx) (hopen : flow'.Open slot ↔ flow.Open slot ∧ slot ≠ x) :
    Analysed code slot ctx (ctx₂.withInstr (.storeLocal x type value)) flow flow' [(flow, s)] := by
  rw [LoweringContext.withInstr_instructions, hinstrs] at hcode
  have hfirst := he.region ((List.prefix_append _ _).trans hcode) hflow slot (flow.Open slot)
  have hstore := region_straight slot (flow.Open slot) hcode
    (List.forall_mem_singleton.mpr ⟨rfl, rfl⟩)
  rw [Analysed, LoweringContext.withInstr_instructions, hinstrs]
  refine (hfirst.trans hstore).congr ?_ ?_
  · simp [hopen, Instr.stored]
  · rw [or_false, misses_singleton]

/-- An expression alone. -/
theorem analysed_expr {s : Stmt} (he : ExprCode ctx ctx' s.reads)
    (hcode : ctx'.instructions <+: code) (hflow : FlowMatch flow ctx) :
    Analysed code slot ctx ctx' flow flow [(flow, s)] :=
  (he.region hcode hflow slot (flow.Open slot)).congr Iff.rfl misses_singleton.symm

/-- An expression, then an instruction that is neither a store, a load nor a jump. -/
theorem analysed_use {s : Stmt} {ctx₁ : LoweringContext} {inst : Instr}
    (he : ExprCode ctx ctx₁ s.reads) (hcode : (ctx₁.withInstr inst).instructions <+: code)
    (hflow : FlowMatch flow ctx) (hfalls : fallsThrough inst = true)
    (hstore : inst.stored = none) (hload : inst.loaded = none) :
    Analysed code slot ctx (ctx₁.withInstr inst) flow flow [(flow, s)] := by
  have hfirst := he.region ((List.prefix_append _ _).trans hcode) hflow slot (flow.Open slot)
  have hinst := region_segment slot (flow.Open slot) hcode
    (List.forall_mem_singleton.mpr ⟨hfalls, hstore⟩)
  refine (hfirst.trans hinst).congr Iff.rfl ?_
  rw [misses_singleton, or_iff_left (by simp [hload])]

/-- An expression, then `ret`. -/
theorem analysed_ret {s : Stmt} {ctx₁ : LoweringContext} {value : ℕ} {type : Option Ty}
    (he : ExprCode ctx ctx₁ s.reads)
    (hcode : (ctx₁.withInstr (.ret value type)).instructions <+: code)
    (hflow : FlowMatch flow ctx) :
    Analysed code slot ctx (ctx₁.withInstr (.ret value type)) flow flow.stop [(flow, s)] := by
  have hfirst := he.region ((List.prefix_append _ _).trans hcode) hflow slot (flow.Open slot)
  have hret := region_ret slot (flow.Open slot) hcode
  refine (hfirst.trans hret).congr ?_ ?_
  · rw [false_iff]
    exact open_stop
  · rw [misses_singleton, or_false]

theorem length_add_two (pre : List Instr) (x y : Instr) :
    (pre ++ [x, y]).length = pre.length + 2 := by simp

theorem getElem?_second {pre : List Instr} {x y : Instr} (h : pre ++ [x, y] <+: code) :
    code[pre.length + 1]? = some y := by
  obtain ⟨rest, rfl⟩ := h
  simp

theorem getElem?_first {pre : List Instr} {x y : Instr} (h : pre ++ [x, y] <+: code) :
    code[pre.length]? = some x := by
  obtain ⟨rest, rfl⟩ := h
  simp

theorem analysed_ifElse {base ctx₂ ctx₃ : LoweringContext} {test : Expr} {t : Operand}
    {thenBody elseBody : List Stmt} {thenEnd elseEnd : Flow}
    {thenPoints elsePoints : List (Flow × Stmt)} (hnd : (labelsOf code).Nodup)
    (hcode : (base.ifTail ctx₃).instructions <+: code) (hflow : FlowMatch flow ctx)
    (ht : ExprCode ctx base test.reads) (hgrows₂ : (base.ifHead t).Grows ctx₂)
    (hgrows₃ : (base.ifMiddle ctx₂).Grows ctx₃)
    (hthen : Analysed code slot (base.ifHead t) ctx₂ flow thenEnd thenPoints)
    (helse : Analysed code slot (base.ifMiddle ctx₂) ctx₃ flow elseEnd elsePoints) :
    Analysed code slot ctx (base.ifTail ctx₃) flow (elseEnd.join thenEnd)
      ((flow, .ifElse test thenBody elseBody) :: (thenPoints ++ elsePoints)) := by
  have hcode₃ : ctx₃.instructions <+: code := (List.prefix_append _ _).trans hcode
  have hmiddle := hgrows₃.instructions.trans hcode₃
  rw [LoweringContext.ifMiddle_instructions] at hmiddle
  have hhead := hgrows₂.instructions.trans ((List.prefix_append _ _).trans hmiddle)
  rw [LoweringContext.ifHead_instructions] at hhead
  have htest := ht.region ((List.prefix_append _ _).trans hhead) hflow slot (flow.Open slot)
  have hbranch : (slotGraph code slot).Region base.instructions.length
      (ctx₃.instructions.length + 1) (flow.Open slot) (thenEnd.Open slot ∨ elseEnd.Open slot)
      (Misses slot thenPoints ∨ Misses slot elsePoints) := by
    rw [Analysed, LoweringContext.ifHead_instructions, length_add_two] at hthen
    rw [Analysed, LoweringContext.ifMiddle_instructions, length_add_two] at helse
    exact .branch (jump_br hnd (getElem?_first hhead) (getElem?_second hhead)
        (getElem?_second hmiddle)) (plain_label (getElem?_second hhead)) hthen
      (jump_jmp hnd (getElem?_first hmiddle) (getElem?_of_code hcode))
      (plain_label (getElem?_second hmiddle)) helse (plain_label (getElem?_of_code hcode))
  rw [Analysed, LoweringContext.ifTail_instructions, List.length_append, List.length_singleton]
  refine (htest.trans hbranch).congr open_join.symm ?_
  rw [misses_cons, misses_append]
  rfl

theorem analysed_while {ctx₁ ctx₂ : LoweringContext} {test : Expr} {t : Operand} {body : List Stmt}
    {bodyEnd : Flow} {points : List (Flow × Stmt)} (hnd : (labelsOf code).Nodup)
    (hcode : (ctx.whileTail ctx₂).instructions <+: code) (hflow : FlowMatch flow ctx)
    (ht : ExprCode ctx.whileHead ctx₁ test.reads) (hgrows₁ : ctx.whileHead.Grows ctx₁)
    (hgrows₂ : (ctx.whileTest ctx₁ t).Grows ctx₂)
    (hbody : Analysed code slot (ctx.whileTest ctx₁ t) ctx₂ flow bodyEnd points) :
    Analysed code slot ctx (ctx.whileTail ctx₂) flow (bodyEnd.resume flow)
      ((flow, .while test body) :: points) := by
  rw [LoweringContext.whileTail_instructions] at hcode
  have htestCode := hgrows₂.instructions.trans ((List.prefix_append _ _).trans hcode)
  rw [LoweringContext.whileTest_instructions] at htestCode
  have hheadCode := hgrows₁.instructions.trans ((List.prefix_append _ _).trans htestCode)
  rw [LoweringContext.whileHead_instructions] at hheadCode
  have hheadFlow : FlowMatch flow.addLabels ctx.whileHead :=
    ⟨hflow.slots, hflow.count, congrArg (· + 3) hflow.labels⟩
  have htest := ht.region ((List.prefix_append _ _).trans htestCode) hheadFlow slot (flow.Open slot)
  rw [LoweringContext.whileHead_instructions, List.length_append, List.length_singleton] at htest
  rw [Analysed, LoweringContext.whileTest_instructions, length_add_two] at hbody
  have hloop := KillGraph.Region.loop (plain_label (getElem?_of_code hheadCode)) htest
    (jump_br hnd (getElem?_first htestCode) (getElem?_second htestCode) (getElem?_second hcode))
    (plain_label (getElem?_second htestCode)) hbody
    (jump_jmp hnd (getElem?_first hcode) (getElem?_of_code hheadCode))
    (plain_label (getElem?_second hcode))
  rw [Analysed, LoweringContext.whileTail_instructions, length_add_two]
  refine hloop.congr Iff.rfl ?_
  rw [misses_cons]
  rfl

/-- The item of a `para cada`, its body, and the step of its index. -/
theorem region_iteration {base ctx₁ ctx₂ : LoweringContext} {v : Operand} {loc : Local}
    {itemFlow bodyEnd : Flow} {points : List (Flow × Stmt)} {entry : Prop}
    (hcode : (base.forEachStep ctx₂).instructions <+: code)
    (hinstrs : ctx₁.instructions = (base.forEachTest v).instructions)
    (hgrows : (base.forEachItem ctx₁ v loc).Grows ctx₂)
    (hitem : itemFlow.Open slot ↔ entry ∧ slot ≠ loc.slot)
    (hbody : Analysed code slot (base.forEachItem ctx₁ v loc) ctx₂ itemFlow bodyEnd points) :
    (slotGraph code slot).Region (base.forEachTest v).instructions.length
      (base.forEachStep ctx₂).instructions.length entry
      (bodyEnd.Open slot ∧ slot ≠ base.localList.length + 1) (Misses slot points) := by
  have hitemCode := hgrows.instructions.trans
    (((LoweringContext.Grows.refl ctx₂).forEachStep base).instructions.trans hcode)
  have hfirst : (slotGraph code slot).Region (base.forEachTest v).instructions.length
      (base.forEachItem ctx₁ v loc).instructions.length entry (itemFlow.Open slot) False := by
    rw [LoweringContext.forEachItem_instructions, hinstrs] at hitemCode ⊢
    refine (region_straight slot entry hitemCode (by simp [fallsThrough, Instr.loaded])).congr ?_
      Iff.rfl
    simp only [hitem, Instr.stored, List.filterMap_cons, List.filterMap_nil, List.mem_singleton,
      ne_eq]
  have hstep : (slotGraph code slot).Region ctx₂.instructions.length
      (base.forEachStep ctx₂).instructions.length (bodyEnd.Open slot)
      (bodyEnd.Open slot ∧ slot ≠ base.localList.length + 1) False := by
    rw [LoweringContext.forEachStep_instructions] at hcode ⊢
    refine (region_straight slot _ hcode (by simp [fallsThrough, Instr.loaded])).congr ?_ Iff.rfl
    simp only [Instr.stored, List.filterMap_cons, List.filterMap_nil, List.mem_singleton, ne_eq]
  refine ((hfirst.trans hbody).trans hstep).congr Iff.rfl ?_
  rw [false_or, or_false]

theorem analysed_forEach {base ctx₁ ctx₂ : LoweringContext} {binding : String} {iterable : Expr}
    {v : Operand} {loc : Local} {body : List Stmt} {itemFlow bodyEnd : Flow}
    {points : List (Flow × Stmt)} (hnd : (labelsOf code).Nodup)
    (hcode : (base.forEachTail ctx₂).instructions <+: code) (hflow : FlowMatch flow ctx)
    (hbase : FlowMatch flow base) (hv : ExprCode ctx base iterable.reads)
    (hinstrs : ctx₁.instructions = (base.forEachTest v).instructions)
    (hgrows : (base.forEachItem ctx₁ v loc).Grows ctx₂)
    (hitem : itemFlow.Open slot ↔ flow.hide.Open slot ∧ slot ≠ loc.slot)
    (hbody : Analysed code slot (base.forEachItem ctx₁ v loc) ctx₂ itemFlow bodyEnd points) :
    Analysed code slot ctx (base.forEachTail ctx₂) flow (bodyEnd.resume flow.hide)
      ((flow, .forEach binding iterable body) :: points) := by
  rw [LoweringContext.forEachTail_instructions] at hcode
  have hstepCode := (List.prefix_append _ _).trans hcode
  have htestCode : (base.forEachTest v).instructions <+: code := by
    rw [← hinstrs]
    exact ((LoweringContext.Grows.refl ctx₁).forEachItem base v loc).instructions.trans
      (hgrows.instructions.trans (((LoweringContext.Grows.refl ctx₂).forEachStep
        base).instructions.trans hstepCode))
  rw [LoweringContext.forEachTest_instructions] at htestCode
  have hcondCode := (List.prefix_append _ _).trans htestCode
  rw [LoweringContext.forEachCond_instructions] at hcondCode
  have hstartCode := (List.prefix_append _ _).trans hcondCode
  rw [LoweringContext.forEachStart, LoweringContext.withInstr_instructions] at hstartCode
  have hinitCode := (List.prefix_append _ _).trans hstartCode
  -- the iterable, and the stores of the hidden locals
  have hinit : (slotGraph code slot).Region base.instructions.length
      (base.forEachInit v).instructions.length (flow.Open slot) (flow.hide.Open slot) False := by
    rw [LoweringContext.forEachInit_instructions] at hinitCode ⊢
    refine (region_straight slot _ hinitCode (by simp [fallsThrough, Instr.loaded])).congr ?_
      Iff.rfl
    simp only [open_hide, hbase.count, Instr.stored, List.filterMap_cons, List.filterMap_nil,
      List.mem_cons, List.not_mem_nil, or_false, not_or, ne_eq, and_assoc]
  have hbaseCode := ((LoweringContext.Grows.refl base).forEachInit v).instructions.trans hinitCode
  have hiterable := hv.region hbaseCode hflow slot (flow.Open slot)
  -- the test loads only the hidden locals
  have htest : (slotGraph code slot).Region ((base.forEachInit v).instructions.length + 1)
      (base.forEachCond v).instructions.length (flow.hide.Open slot) (flow.hide.Open slot)
      False := by
    rw [show (base.forEachInit v).instructions.length + 1 =
      (base.forEachStart v).instructions.length by simp [LoweringContext.forEachStart],
      LoweringContext.forEachCond_instructions]
    refine (region_segment slot _ hcondCode (by simp [fallsThrough, Instr.stored])).congr Iff.rfl ?_
    rw [open_hide, hbase.count]
    simp only [Instr.loaded, List.filterMap_cons, List.filterMap_nil, List.mem_cons,
      List.not_mem_nil]
    tauto
  have hiteration := region_iteration hstepCode hinstrs hgrows hitem hbody
  rw [LoweringContext.forEachTest_instructions, length_add_two] at hiteration
  have hloop := KillGraph.Region.loop (plain_label (getElem?_of_code hstartCode)) htest
    (jump_br hnd (getElem?_first htestCode) (getElem?_second htestCode) (getElem?_second hcode))
    (plain_label (getElem?_second htestCode)) hiteration
    (jump_jmp hnd (getElem?_first hcode) (getElem?_of_code hstartCode))
    (plain_label (getElem?_second hcode))
  rw [Analysed, LoweringContext.forEachTail_instructions, length_add_two]
  refine ((hiterable.trans hinit).trans hloop).congr Iff.rfl ?_
  rw [misses_cons, or_false, false_or]
  rfl

mutual
/-- The analysis of a statement describes the paths through its code. -/
theorem StmtLowers.analysed {table : FunctionTable} {ctx ctx' : LoweringContext} {s : Stmt} :
    StmtLowers table ctx s ctx' → (labelsOf code).Nodup → ctx'.instructions <+: code →
      ∀ {flow : Flow}, FlowMatch flow ctx → FlowMatch (s.flowAfter flow) ctx' ∧
        Analysed code slot ctx ctx' flow (s.flowAfter flow) (s.flowPoints flow)
  | @StmtLowers.define _ _ _ ctx₂ name _ _ _ he hloc, hnd, hcode, flow, h => by
      obtain ⟨hmatch, hslot⟩ := (h.of_chain he.facts.chain).ensures hloc
      have hassign := hmatch.assign name
      refine ⟨⟨hassign.slots, hassign.count, hassign.labels⟩, ?_⟩
      exact analysed_store he.exprCode hloc.instructions hcode h
        ((open_assign hslot).trans (by rw [open_declare]))
  | @StmtLowers.assign _ _ ctx₁ name _ _ loc hloc he _, hnd, hcode, flow, h => by
      have hslot : flow.slots name = some loc.slot := by rw [h.slots, hloc, Option.map_some]
      have hassign := (h.of_chain he.facts.chain).assign name
      refine ⟨⟨hassign.slots, hassign.count, hassign.labels⟩, ?_⟩
      exact analysed_store he.exprCode rfl hcode h (open_assign hslot)
  | .show he, hnd, hcode, flow, h => by
      have hmatch := h.of_chain he.facts.chain
      exact ⟨⟨hmatch.slots, hmatch.count, hmatch.labels⟩,
        analysed_use he.exprCode hcode h rfl rfl rfl⟩
  | .exprStmt he, hnd, hcode, flow, h =>
      ⟨h.of_chain he.facts.chain, analysed_expr he.exprCode hcode h⟩
  | .ret he _, hnd, hcode, flow, h => by
      have hmatch := h.of_chain he.facts.chain
      exact ⟨⟨hmatch.slots, hmatch.count, hmatch.labels⟩, analysed_ret he.exprCode hcode h⟩
  | .retDefault hv _, hnd, hcode, flow, h => by
      have hmatch := h.of_chain hv.facts.chain
      exact ⟨⟨hmatch.slots, hmatch.count, hmatch.labels⟩, analysed_ret hv.exprCode hcode h⟩
  | @StmtLowers.ifElse _ _ base ctx₂ ctx₃ _ t _ _ ht _ hthen helse, hnd, hcode, flow, h => by
      have hbase := h.of_chain ht.facts.chain
      have hhead : FlowMatch flow.addLabels (base.ifHead t) :=
        ⟨hbase.slots, hbase.count, congrArg (· + 3) hbase.labels⟩
      -- both bodies are code of the function, so that their labels differ
      have hcode₃ : ctx₃.instructions <+: code := (List.prefix_append _ _).trans hcode
      have hcode₂ : ctx₂.instructions <+: code :=
        ((LoweringContext.Grows.refl ctx₂).ifMiddle base).instructions.trans
          (helse.grows.instructions.trans hcode₃)
      obtain ⟨hmatch₂, hregion₂⟩ := hthen.analysed hnd hcode₂ hhead
      obtain ⟨hmatch₃, hregion₃⟩ := helse.analysed hnd hcode₃
        (show FlowMatch (Flow.resume _ flow) (base.ifMiddle ctx₂) from
          ⟨hmatch₂.slots, hmatch₂.count, hmatch₂.labels⟩)
      exact ⟨⟨hmatch₃.slots, hmatch₃.count, hmatch₃.labels⟩,
        analysed_ifElse hnd hcode h ht.exprCode hthen.grows helse.grows hregion₂ hregion₃⟩
  | @StmtLowers.while _ _ ctx₁ ctx₂ _ t _ ht _ hbody, hnd, hcode, flow, h => by
      have hhead : FlowMatch flow.addLabels ctx.whileHead :=
        ⟨h.slots, h.count, congrArg (· + 3) h.labels⟩
      have htest := hhead.of_chain ht.facts.chain
      have hcode₂ : ctx₂.instructions <+: code :=
        ((LoweringContext.Grows.refl ctx₂).whileTail ctx).instructions.trans hcode
      obtain ⟨hmatch, hregion⟩ := hbody.analysed hnd hcode₂
        (show FlowMatch flow.addLabels (ctx.whileTest ctx₁ t) from
          ⟨htest.slots, htest.count, htest.labels⟩)
      exact ⟨⟨hmatch.slots, hmatch.count, hmatch.labels⟩,
        analysed_while hnd hcode h ht.exprCode ht.grows hbody.grows hregion⟩
  | @StmtLowers.forEach _ _ base ctx₁ ctx₂ binding iterable v loc body hv hloc hbody, hnd, hcode,
      flow, h => by
      have hbase := h.of_chain hv.facts.chain
      obtain ⟨hmatch₁, hslot⟩ := (hbase.forEachTest v).ensures hloc
      have hassign := hmatch₁.assign binding
      have hcode₂ : ctx₂.instructions <+: code :=
        ((LoweringContext.Grows.refl ctx₂).forEachTail base).instructions.trans hcode
      obtain ⟨hmatch, hregion⟩ := hbody.analysed hnd hcode₂
        (show FlowMatch (Flow.assign _ binding) (base.forEachItem ctx₁ v loc) from
          ⟨hassign.slots, hassign.count, hassign.labels⟩)
      have htail : FlowMatch ((Stmt.forEach binding iterable body).flowAfter flow) ctx₂ :=
        ⟨hmatch.slots, hmatch.count, hmatch.labels⟩
      refine ⟨htail.forEachTail base, ?_⟩
      exact analysed_forEach hnd hcode h hbase hv.exprCode hloc.instructions hbody.grows
        ((open_assign hslot).trans (by rw [open_declare])) hregion

theorem StmtsLower.analysed {table : FunctionTable} {ctx ctx' : LoweringContext}
    {body : List Stmt} : StmtsLower table ctx body ctx' → (labelsOf code).Nodup →
      ctx'.instructions <+: code → ∀ {flow : Flow}, FlowMatch flow ctx →
      FlowMatch (bodyFlowAfter body flow) ctx' ∧
        Analysed code slot ctx ctx' flow (bodyFlowAfter body flow) (bodyFlowPoints body flow)
  | .nil, _, _, flow, h => ⟨h, (KillGraph.Region.refl _ _).congr Iff.rfl (by
      simp [Misses, bodyFlowPoints])⟩
  | .cons hs hbody, hnd, hcode, flow, h => by
      obtain ⟨hmatch, hregion⟩ := hs.analysed hnd (hbody.grows.instructions.trans hcode) h
      obtain ⟨hmatch', hregion'⟩ := hbody.analysed hnd hcode hmatch
      exact ⟨hmatch', (hregion.trans hregion').congr Iff.rfl misses_append.symm⟩
end

end Lowered

/-! ## Functions -/

/-- On every path from the entry of a function to a load, the slot is that of a parameter or has
been stored to. -/
def InitialisedLoads (fn : IRFunction) : Prop :=
  ∀ (path : List ℕ) (i dest slot : ℕ) (type : Option Ty),
    List.IsChain (Edge fn.instructions) (path ++ [i]) → (path ++ [i]).head? = some 0 →
    fn.instructions[i]? = some (.loadLocal dest slot type) →
    (∃ p ∈ fn.params, p.slot = slot) ∨
      ∃ k ∈ path, ∃ type value, fn.instructions[k]? = some (.storeLocal slot type value)

theorem stored_eq_some {inst : Instr} {slot : ℕ} :
    inst.stored = some slot ↔ ∃ type value, inst = .storeLocal slot type value := by
  cases inst <;> simp [Instr.stored]

theorem loaded_eq_some {inst : Instr} {slot : ℕ} :
    inst.loaded = some slot ↔ ∃ dest type, inst = .loadLocal dest slot type := by
  cases inst <;> simp [Instr.loaded]

theorem slotGraph_kill {code : List Instr} {slot i : ℕ} : (slotGraph code slot).kill i ↔
    ∃ type value, code[i]? = some (.storeLocal slot type value) := by
  simp only [slotGraph, Option.bind_eq_some_iff, stored_eq_some]
  grind

theorem slotGraph_use {code : List Instr} {slot i : ℕ} : (slotGraph code slot).use i ↔
    ∃ dest type, code[i]? = some (.loadLocal dest slot type) := by
  simp only [slotGraph, Option.bind_eq_some_iff, loaded_eq_some]
  grind

/-- The property of a function, slot by slot. -/
theorem initialisedLoads_iff_clear {fn : IRFunction} : InitialisedLoads fn ↔
    ∀ slot, (∀ p ∈ fn.params, p.slot ≠ slot) → ¬ ∃ i, i < fn.instructions.length ∧
      (slotGraph fn.instructions slot).Clear 0 i ∧ (slotGraph fn.instructions slot).use i := by
  constructor
  · rintro h slot hslot ⟨i, hi, hclear, huse⟩
    obtain ⟨path, hchain, hhead, hpath⟩ := KillGraph.clear_iff_path.mp hclear
    obtain ⟨dest, type, hload⟩ := slotGraph_use.mp huse
    rcases h path i dest slot type hchain hhead hload with ⟨p, hp, hpslot⟩ | ⟨k, hk, hstore⟩
    · exact hslot p hp hpslot
    · exact hpath k hk (slotGraph_kill.mpr hstore)
  · intro h path i dest slot type hchain hhead hload
    by_contra hne
    rw [not_or] at hne
    refine h slot (fun p hp hpslot => hne.1 ⟨p, hp, hpslot⟩) ⟨i, ?_, ?_, ?_⟩
    · exact (List.getElem?_eq_some_iff.mp hload).1
    · refine KillGraph.clear_iff_path.mpr ⟨path, hchain, hhead, ?_⟩
      exact fun k hk hkill => hne.2 ⟨k, hk, slotGraph_kill.mp hkill⟩
    · exact slotGraph_use.mpr ⟨dest, type, hload⟩

theorem assignedBeforeRead_iff {body : List Stmt} {flow : Flow} :
    assignedBeforeRead body flow = true ↔ ∀ slot, ¬ Misses slot (bodyFlowPoints body flow) := by
  simp only [assignedBeforeRead, List.all_eq_true]
  constructor
  · rintro h slot ⟨p, hp, hopen, x, hx, hslot⟩
    exact (isAssigned_iff hslot).mp (h p hp x hx) hopen
  · intro h p hp x hx
    cases hslot : p.1.slots x with
    | none =>
        unfold Flow.isAssigned
        cases p.1.assigned with
        | none => rfl
        | some l => rw [hslot]; rfl
    | some slot => exact (isAssigned_iff hslot).mpr fun hopen => h slot ⟨p, hp, hopen, x, hx, hslot⟩

theorem open_paramFlow {params : List String} {slot : ℕ} :
    (paramFlow params).Open slot ↔ params.length ≤ slot := by
  simp [paramFlow, Flow.Open]

/-- The slots of parameters are numbered in order. -/
theorem addParams_match : ∀ (ps : List (String × Option Ty)) {ctx : LoweringContext} {flow : Flow},
    FlowMatch flow ctx → ctx.params.map (·.slot) = List.range ctx.localList.length →
      FlowMatch { flow with
        slots := ((ps.map (·.1)).zipIdx flow.count).foldl
          (fun slots p => Function.update slots p.1 (some p.2)) flow.slots
        count := flow.count + ps.length } (addParams ctx ps) ∧
      (addParams ctx ps).params.map (·.slot) = List.range (addParams ctx ps).localList.length
  | [], ctx, flow, h, hparams => ⟨⟨h.slots, h.count, h.labels⟩, hparams⟩
  | (name, type) :: ps, ctx, flow, h, hparams => by
      have hstep : FlowMatch
          { flow with slots := Function.update flow.slots name (some flow.count)
                      count := flow.count + 1 }
          (ctx.withParam (ctx.freshLocal name type true)) := by
        refine ⟨?_, ?_, h.labels⟩
        · intro x
          by_cases hx : x = name
          · subst hx
            simp [LoweringContext.freshLocal, h.count]
          · simp [LoweringContext.freshLocal, hx, h.slots]
        · simp [h.count]
      have hparams' : (ctx.withParam (ctx.freshLocal name type true)).params.map (·.slot) =
          List.range (ctx.withParam (ctx.freshLocal name type true)).localList.length := by
        simp [LoweringContext.freshLocal, hparams, List.range_succ]
      obtain ⟨hmatch, hslots⟩ := addParams_match ps hstep hparams'
      refine ⟨⟨hmatch.slots, ?_, hmatch.labels⟩, hslots⟩
      rw [addParams, ← hmatch.count, List.length_cons]
      show flow.count + (ps.length + 1) = flow.count + 1 + ps.length
      omega

theorem newContext_match (consts : ConstTables) (name : String) (returnType : Option Ty)
    (ps : List (String × Option Ty)) :
    FlowMatch (paramFlow (ps.map (·.1))) (newContext consts name returnType ps) ∧
      (newContext consts name returnType ps).params.map (·.slot) = List.range ps.length := by
  have hempty : FlowMatch ⟨fun _ => none, 0, 0, none⟩ (emptyContext consts name returnType) :=
    ⟨fun _ => rfl, rfl, rfl⟩
  obtain ⟨hmatch, hslots⟩ := addParams_match ps hempty rfl
  have hcount : ps.length = (newContext consts name returnType ps).localList.length :=
    (Nat.zero_add _).symm.trans hmatch.count
  refine ⟨⟨hmatch.slots, ?_, hmatch.labels⟩, ?_⟩
  · simpa [paramFlow] using hcount
  · rw [hcount]
    exact hslots

/-- The analysis of a body, whole. -/
theorem BodyLowers.region {table : FunctionTable} {start final : LoweringContext}
    {body : List Stmt} {flow : Flow} {slot : ℕ} (h : BodyLowers table start body final)
    (hnil : start.instructions = []) (hflow : FlowMatch flow start) :
    ∃ exit, (slotGraph final.instructions slot).Region 0 final.instructions.length (flow.Open slot)
      exit (Misses slot (bodyFlowPoints body flow)) := by
  have hnd := h.labels_nodup hnil
  have hlen : start.instructions.length = 0 := by rw [hnil]; rfl
  cases h with
  | returns hbody _ =>
      obtain ⟨-, hregion⟩ := hbody.analysed hnd List.prefix_rfl hflow
      rw [Analysed, hlen] at hregion
      exact ⟨_, hregion⟩
  | @fallsOff ctx ctx₁ v hbody _ hv =>
      have hcode := List.prefix_refl (ctx₁.withInstr (.ret v.temp v.type)).instructions
      have hcode₁ := (List.prefix_append _ _).trans hcode
      obtain ⟨hmatch, hregion⟩ :=
        hbody.analysed hnd (hv.facts.chain.grows.instructions.trans hcode₁)
        hflow
      rw [Analysed, hlen] at hregion
      have hvalue := hv.exprCode.region hcode₁ hmatch slot ((bodyFlowAfter body flow).Open slot)
      have hret := region_ret slot ((bodyFlowAfter body flow).Open slot) hcode
      refine ⟨_, (hregion.trans (hvalue.trans hret)).congr Iff.rfl ?_⟩
      simp

theorem BodyLowers.initialisedLoads_iff {table : FunctionTable} {consts : ConstTables}
    {name : String} {returnType : Option Ty} {ps : List (String × Option Ty)} {body : List Stmt}
    {final : LoweringContext}
    (h : BodyLowers table (newContext consts name returnType ps) body final) :
    InitialisedLoads final.toFunction ↔
      assignedBeforeRead body (paramFlow (ps.map (·.1))) = true := by
  obtain ⟨hmatch, hparams⟩ := newContext_match consts name returnType ps
  have hnil : (newContext consts name returnType ps).instructions = [] := (addParams_fields _ _).1
  have hslots : ∀ slot, (∀ p ∈ final.toFunction.params, p.slot ≠ slot) ↔
      (paramFlow (ps.map (·.1))).Open slot := by
    intro slot
    have hfinal : final.toFunction.params = (newContext consts name returnType ps).params :=
      h.grows.params
    rw [open_paramFlow, List.length_map, ← not_lt, ← List.mem_range, ← hparams, hfinal,
      List.mem_map]
    simp only [not_exists, not_and, ne_eq]
  have huses : ∀ slot, (paramFlow (ps.map (·.1))).Open slot →
      ((∃ i, i < final.instructions.length ∧ (slotGraph final.instructions slot).Clear 0 i ∧
        (slotGraph final.instructions slot).use i) ↔
        Misses slot (bodyFlowPoints body (paramFlow (ps.map (·.1))))) := by
    intro slot hopen
    obtain ⟨exit, hregion⟩ := h.region hnil hmatch
    refine hregion.uses_iff hopen ?_
    rintro j ⟨inst, hinst, -⟩
    simp at hinst
  rw [initialisedLoads_iff_clear, assignedBeforeRead_iff]
  constructor
  · intro hinit slot hmiss
    obtain ⟨exit, hregion⟩ := h.region hnil hmatch
    have hopen := hregion.entry_of_used hmiss
    exact hinit slot ((hslots slot).mpr hopen) ((huses slot hopen).mpr hmiss)
  · intro hassigned slot hslot huse
    exact hassigned slot ((huses slot ((hslots slot).mp hslot)).mp huse)

/-! ## Programs -/

theorem TableFor.paramsOf_names {fns : List FunctionDecl} {table : FunctionTable}
    (h : TableFor fns table) {fn : FunctionDecl} (hfn : fn ∈ fns) :
    (paramsOf table fn).map (·.1) = fn.params := by
  obtain ⟨entry, hentry, hlen⟩ := h.exists_entry hfn
  rw [paramsOf, hentry]
  exact List.map_fst_zip hlen.le

theorem FunctionsLower.initialisedLoads_iff {table : FunctionTable} {consts consts' : ConstTables}
    {fns : List FunctionDecl} {lowered : List IRFunction}
    (h : FunctionsLower table consts fns lowered consts')
    (hnames : ∀ fn ∈ fns, (paramsOf table fn).map (·.1) = fn.params) :
    (∀ ir ∈ lowered, InitialisedLoads ir) ↔
      ∀ fn ∈ fns, assignedBeforeRead fn.body (paramFlow fn.params) = true := by
  induction h with
  | nil => simp
  | cons _ hbody _ ih =>
      rw [List.forall_mem_cons] at hnames
      rw [List.forall_mem_cons, List.forall_mem_cons, ih hnames.2, ← hnames.1]
      exact and_congr_left' hbody.initialisedLoads_iff

/-- No load of a compiled program reads an uninitialised slot exactly when the text of the program
assigns every name before it is read. -/
theorem noUninitialisedLoad_iff {program : Program} {table : FunctionTable} {unit : IRUnit}
    (htable : analyzeProgram program = .ok table) (h : lowerProgram program table = .ok unit) :
    (∀ fn ∈ unit.functions, InitialisedLoads fn) ↔
      (∀ fn ∈ program.functions, assignedBeforeRead fn.body (paramFlow fn.params) = true) ∧
      assignedBeforeRead program.body (paramFlow []) = true := by
  have htable := analyzeProgram_tableFor htable
  cases lowerProgram_lowers h with
  | intro hfns hbody =>
      rw [List.forall_mem_append, List.forall_mem_singleton,
        hfns.initialisedLoads_iff fun fn hfn => htable.paramsOf_names hfn]
      exact and_congr_right' hbody.initialisedLoads_iff

/-- `se 0 então definir x como 1 fim`, then `mostrar x`. -/
def skippedProgram : Program :=
  { functions := []
    body := [.ifElse (.number 0) [.define "x" (.number 1)] [], .show (.identifier "x")] }

/-- The path through the empty branch loads the slot of `x`, which nothing has stored to. -/
theorem skippedProgram_not_initialised :
    analyzeProgram skippedProgram = .ok [] ∧
      ∃ unit, lowerProgram skippedProgram [] = .ok unit ∧
        ¬ ∀ fn ∈ unit.functions, InitialisedLoads fn := by
  have htable : analyzeProgram skippedProgram = .ok [] := by decide +kernel
  obtain ⟨unit, hlower⟩ : ∃ unit, lowerProgram skippedProgram [] = .ok unit :=
    except_eq_ok_of_isSome (by decide +kernel)
  refine ⟨htable, unit, hlower, ?_⟩
  intro hall
  cases lowerProgram_lowers hlower with
  | intro hfns hbody =>
      have hmain := (List.forall_mem_append.mp hall).2 _ List.mem_cons_self
      have hassigned := hbody.initialisedLoads_iff.mp hmain
      revert hassigned
      decide +kernel

/-- Both branches of a `se` give `x` a value. -/
def bothBranchesProgram : Program :=
  { functions := [⟨"sinal", ["n"],
      [.ifElse (.binary .lt (.identifier "n") (.number 0))
        [.define "x" (.unary .neg (.number 1))] [.define "x" (.number 1)],
       .ret (some (.identifier "x"))]⟩]
    body := [.show (.call (.identifier "sinal") [.number 5])] }

def bothBranchesTable : FunctionTable := [⟨"sinal", [some .i64], some .i64⟩]

theorem noUninitialisedLoad_iff_bothBranches :
    ∃ unit, lowerProgram bothBranchesProgram bothBranchesTable = .ok unit ∧
      ∀ fn ∈ unit.functions, InitialisedLoads fn := by
  obtain ⟨unit, hlower⟩ : ∃ unit, lowerProgram bothBranchesProgram bothBranchesTable = .ok unit :=
    except_eq_ok_of_isSome (by decide +kernel)
  refine ⟨unit, hlower, (noUninitialisedLoad_iff (by decide +kernel) hlower).mpr ⟨?_, ?_⟩⟩
  · decide +kernel
  · decide +kernel

end GatoCore.Native
