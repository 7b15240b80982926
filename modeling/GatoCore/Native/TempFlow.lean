import GatoCore.Native.AllocFacts
import GatoCore.Native.LowerFacts

/-!
# How temps flow through lowered code

Lowering numbers temps in the order in which their definitions stand in the code, and a statement
only uses temps it has defined itself. So a temp is live from its definition to its last use, and
no jump, backward ones included, leads to a place where a temp is live that was not live at the
jump.
-/

namespace GatoCore.Native

/-- The number of temps defined before position `p`. -/
def defCount (code : List Instr) (p : ℕ) : ℕ := ((code.take p).flatMap tempDefs).length

theorem defCount_mono (code : List Instr) {p q : ℕ} (h : p ≤ q) :
    defCount code p ≤ defCount code q := by
  obtain ⟨rest, hrest⟩ := List.take_prefix_take_left (l := code) h
  rw [defCount, defCount, ← hrest, List.flatMap_append, List.length_append]
  exact Nat.le_add_right _ _

theorem defCount_append_of_le {code : List Instr} {p : ℕ} (hp : p ≤ code.length)
    (rest : List Instr) : defCount (code ++ rest) p = defCount code p := by
  rw [defCount, defCount, List.take_append_of_le_length hp]

theorem defCount_length (code : List Instr) :
    defCount code code.length = (code.flatMap tempDefs).length := by
  rw [defCount, List.take_length]

/-! ## Definitions in order -/

/-- The temps are defined once each, in order. -/
def OrderedDefs (ctx : LoweringContext) : Prop :=
  ctx.instructions.flatMap tempDefs = List.range ctx.tempCount

theorem OrderedDefs.defCount {ctx : LoweringContext} (h : OrderedDefs ctx) {code : List Instr}
    (hcode : ctx.instructions <+: code) :
    defCount code ctx.instructions.length = ctx.tempCount := by
  obtain ⟨rest, rfl⟩ := hcode
  rw [defCount_append_of_le (Nat.le_refl _), defCount_length, h, List.length_range]

/-- The code between two contexts: its definitions go on in order, and it uses temps from `lo` on
that are defined before the use. -/
structure CodeFacts (lo : ℕ) (ctx ctx' : LoweringContext) : Prop where
  grows : ctx.instructions <+: ctx'.instructions
  ordered : OrderedDefs ctx → OrderedDefs ctx'
  uses : OrderedDefs ctx → ∀ k t, ctx.instructions.length ≤ k → t ∈ usesAt ctx'.instructions k →
    lo ≤ t ∧ t < defCount ctx'.instructions k

theorem usesAt_of_code {a code : List Instr} (h : a <+: code) {k : ℕ} (hk : k < a.length) :
    usesAt code k = usesAt a k := by
  obtain ⟨rest, rfl⟩ := h
  exact usesAt_append_of_lt hk rest

theorem defCount_of_code {a code : List Instr} (h : a <+: code) {k : ℕ} (hk : k ≤ a.length) :
    defCount code k = defCount a k := by
  obtain ⟨rest, rfl⟩ := h
  exact defCount_append_of_le hk rest

namespace CodeFacts

variable {lo : ℕ} {a b c : LoweringContext}

theorem refl (lo : ℕ) (ctx : LoweringContext) : CodeFacts lo ctx ctx :=
  ⟨List.prefix_rfl, id, fun _ _ _ hk ht => absurd (lt_of_mem_usesAt ht) (Nat.not_lt.mpr hk)⟩

theorem trans (h : CodeFacts lo a b) (h' : CodeFacts lo b c) : CodeFacts lo a c := by
  refine ⟨h.grows.trans h'.grows, h'.ordered ∘ h.ordered, ?_⟩
  intro ha k t hk ht
  rcases Nat.lt_or_ge k b.instructions.length with hlt | hge
  · rw [usesAt_of_code h'.grows hlt] at ht
    rw [defCount_of_code h'.grows hlt.le]
    exact h.uses ha k t hk ht
  · exact h'.uses (h.ordered ha) k t hge ht

theorem mono {lo' : ℕ} (h : CodeFacts lo' a b) (hlo : lo ≤ lo') : CodeFacts lo a b :=
  ⟨h.grows, h.ordered, fun ha k t hk ht =>
    ⟨hlo.trans (h.uses ha k t hk ht).1, (h.uses ha k t hk ht).2⟩⟩

/-- A change of context that touches neither the code nor the temps. -/
theorem congr (h : CodeFacts lo a b) (hi : c.instructions = b.instructions)
    (ht : c.tempCount = b.tempCount) : CodeFacts lo a c := by
  refine ⟨hi ▸ h.grows, fun ha => ?_, fun ha => hi ▸ h.uses ha⟩
  rw [OrderedDefs, hi, ht]
  exact h.ordered ha

/-- One instruction more, with the temp it defines if it defines one. -/
theorem emit (h : CodeFacts lo a b) {inst : Instr}
    (hi : c.instructions = b.instructions ++ [inst])
    (hd : List.range c.tempCount = List.range b.tempCount ++ tempDefs inst)
    (hu : ∀ t ∈ tempUses inst, lo ≤ t ∧ t < b.tempCount) : CodeFacts lo a c := by
  refine ⟨hi ▸ h.grows.trans (List.prefix_append _ _), ?_, ?_⟩
  · intro ha
    have hb : b.instructions.flatMap tempDefs = _ := h.ordered ha
    simp [OrderedDefs, hi, hd, hb]
  · intro ha k t hk ht
    rw [hi] at ht ⊢
    have hlt := lt_of_mem_usesAt ht
    rw [List.length_append, List.length_singleton] at hlt
    rw [defCount_append_of_le (by omega)]
    rcases Nat.lt_succ_iff_lt_or_eq.mp hlt with hlt | rfl
    · rw [usesAt_append_of_lt hlt] at ht
      exact h.uses ha k t hk ht
    · rw [usesAt_length] at ht
      rw [(h.ordered ha).defCount List.prefix_rfl]
      exact hu t ht

theorem withInstr (h : CodeFacts lo a b) {inst : Instr} (hd : tempDefs inst = [])
    (hu : ∀ t ∈ tempUses inst, lo ≤ t ∧ t < b.tempCount) : CodeFacts lo a (b.withInstr inst) :=
  h.emit rfl (by simp [hd]) hu

theorem define (h : CodeFacts lo a b) {type : Option Ty} {inst : Instr}
    (hd : tempDefs inst = [b.tempCount]) (hu : ∀ t ∈ tempUses inst, lo ≤ t ∧ t < b.tempCount) :
    CodeFacts lo a (b.define type inst) :=
  h.emit rfl (by simp [hd, List.range_succ]) hu

end CodeFacts

/-- A block of instructions that takes the number of temps from `n` to `n'`. -/
def BlockOk (lo : ℕ) : ℕ → List Instr → ℕ → Prop
  | n, [], n' => n' = n
  | n, inst :: seg, n' =>
      (tempDefs inst = [] ∨ tempDefs inst = [n]) ∧ (∀ t ∈ tempUses inst, lo ≤ t ∧ t < n) ∧
        BlockOk lo (n + (tempDefs inst).length) seg n'

theorem CodeFacts.block {lo : ℕ} {a c : LoweringContext} :
    ∀ {seg : List Instr} {b : LoweringContext}, CodeFacts lo a b →
      c.instructions = b.instructions ++ seg → BlockOk lo b.tempCount seg c.tempCount →
      CodeFacts lo a c
  | [], b, h, hi, hok => h.congr (by simpa using hi) hok
  | inst :: seg, b, h, hi, hok => by
      obtain ⟨hdefs, huses, hrest⟩ := hok
      rcases hdefs with hdefs | hdefs
      · refine (h.withInstr hdefs huses).block (by simpa using hi) ?_
        simpa [hdefs] using hrest
      · have h₁ : CodeFacts lo a (b.define none inst) := h.define hdefs huses
        refine h₁.block (by simpa using hi) ?_
        simpa [hdefs] using hrest

theorem DefChain.codeFacts {lo : ℕ} {ctx ctx' : LoweringContext} (h : DefChain lo ctx ctx') :
    CodeFacts lo ctx ctx' := by
  induction h with
  | refl => exact .refl _ _
  | @step ctx₁ consts type inst _ hs ih =>
      have hc : CodeFacts lo ctx (ctx₁.withConsts consts) := ih.congr rfl rfl
      exact hc.define hs.defs hs.uses

theorem ExprFacts.codeFacts {ctx ctx' : LoweringContext} {v : Operand}
    (h : ExprFacts ctx ctx' v) : CodeFacts ctx.tempCount ctx ctx' := h.chain.codeFacts

/-- An instruction that only reads the value of the expression before it. -/
theorem ExprFacts.codeFacts_use {ctx ctx₁ ctx₂ : LoweringContext} {v : Operand} {inst : Instr}
    (h : ExprFacts ctx ctx₁ v) (hi : ctx₂.instructions = ctx₁.instructions)
    (ht : ctx₂.tempCount = ctx₁.tempCount) (hd : tempDefs inst = [])
    (hu : tempUses inst = [v.temp]) : CodeFacts ctx.tempCount ctx (ctx₂.withInstr inst) := by
  refine (h.codeFacts.congr hi ht).withInstr hd ?_
  intro t htu
  rw [hu, List.mem_singleton] at htu
  rw [htu, ht]
  exact ⟨h.temp_ge, h.temp_lt⟩

section Parts

attribute [local simp] BlockOk tempDefs tempUses

variable {lo : ℕ} {ctx base : LoweringContext} (h : CodeFacts lo ctx base)
include h

theorem CodeFacts.ifHead {t : Operand} (hlo : lo ≤ t.temp) (ht : t.temp < base.tempCount) :
    CodeFacts lo ctx (base.ifHead t) :=
  h.block (base.ifHead_instructions t) (by simp [BlockOk, tempDefs, tempUses, hlo, ht])

theorem CodeFacts.ifMiddle (c : LoweringContext) : CodeFacts lo ctx (c.ifMiddle base) :=
  h.block (c.ifMiddle_instructions base) (by simp [BlockOk, tempDefs, tempUses])

theorem CodeFacts.ifTail (c : LoweringContext) : CodeFacts lo ctx (c.ifTail base) :=
  h.block (c.ifTail_instructions base) (by simp [BlockOk, tempDefs, tempUses])

theorem CodeFacts.whileHead : CodeFacts lo ctx base.whileHead :=
  h.block base.whileHead_instructions (by simp [BlockOk, tempDefs, tempUses])

theorem CodeFacts.whileTest (c : LoweringContext) {t : Operand} (hlo : lo ≤ t.temp)
    (ht : t.temp < base.tempCount) : CodeFacts lo ctx (c.whileTest base t) :=
  h.block (c.whileTest_instructions base t) (by simp [BlockOk, tempDefs, tempUses, hlo, ht])

theorem CodeFacts.whileTail (c : LoweringContext) : CodeFacts lo ctx (c.whileTail base) :=
  h.block (c.whileTail_instructions base) (by simp [BlockOk, tempDefs, tempUses])

theorem CodeFacts.forEachInit {v : Operand} (hlo : lo ≤ v.temp) (hv : v.temp < base.tempCount) :
    CodeFacts lo ctx (base.forEachInit v) := by
  refine h.block (base.forEachInit_instructions v) ?_
  simp [BlockOk, tempDefs, tempUses, hlo, hv]
  omega

theorem CodeFacts.forEachStart {v : Operand} (hlo : lo ≤ v.temp) (hv : v.temp < base.tempCount) :
    CodeFacts lo ctx (base.forEachStart v) :=
  (h.forEachInit hlo hv).withInstr rfl (by simp [tempUses])

end Parts

/-- The test of a `para cada` after its start. -/
theorem forEachTest_codeFacts (base : LoweringContext) (v : Operand) :
    CodeFacts (base.tempCount + 1) (base.forEachStart v) (base.forEachTest v) := by
  have h : CodeFacts (base.tempCount + 1) (base.forEachStart v) (base.forEachCond v) := by
    refine (CodeFacts.refl _ _).block (base.forEachCond_instructions v) ?_
    simp [BlockOk, tempDefs, tempUses]
  refine h.block (base.forEachTest_instructions v) ?_
  simp [BlockOk, tempDefs, tempUses]

/-- The item of a `para cada` after its test. -/
theorem forEachItem_codeFacts {base ctx₁ : LoweringContext} {v : Operand} {binding : String}
    {type : Option Ty} {loc : Local} (hloc : EnsuresLocal (base.forEachTest v) binding type
    loc ctx₁) :
    CodeFacts (base.tempCount + 1) (base.forEachTest v) (base.forEachItem ctx₁ v loc) := by
  have h : CodeFacts (base.tempCount + 1) (base.forEachTest v) ctx₁ :=
    (CodeFacts.refl _ _).congr hloc.instructions hloc.tempCount
  refine h.block (base.forEachItem_instructions ctx₁ v loc) ?_
  simp [BlockOk, tempDefs, tempUses, hloc.tempCount]

/-- The end of a `para cada` after its body, up to the jump back. -/
theorem forEachStep_codeFacts {base ctx₂ : LoweringContext}
    (h : base.tempCount + 6 ≤ ctx₂.tempCount) :
    CodeFacts (base.tempCount + 1) ctx₂ (base.forEachStep ctx₂) := by
  refine (CodeFacts.refl _ _).block (base.forEachStep_instructions ctx₂) ?_
  simp [BlockOk, tempDefs, tempUses]
  omega

theorem CodeFacts.forEachTail {lo : ℕ} {ctx base ctx₂ : LoweringContext}
    (h : CodeFacts lo ctx (base.forEachStep ctx₂)) : CodeFacts lo ctx (base.forEachTail ctx₂) := by
  refine h.block (base.forEachTail_instructions ctx₂) ?_
  simp [BlockOk, tempDefs, tempUses]

mutual
theorem StmtLowers.codeFacts {table : FunctionTable} {ctx ctx' : LoweringContext} {s : Stmt} :
    StmtLowers table ctx s ctx' → CodeFacts ctx.tempCount ctx ctx'
  | .define he hloc => he.facts.codeFacts_use hloc.instructions hloc.tempCount rfl rfl
  | .assign _ he _ => he.facts.codeFacts_use rfl rfl rfl rfl
  | .show he => he.facts.codeFacts_use rfl rfl rfl rfl
  | .exprStmt he => he.facts.codeFacts
  | .ret he _ => he.facts.codeFacts_use rfl rfl rfl rfl
  | .retDefault hv _ => hv.facts.codeFacts_use rfl rfl rfl rfl
  | .ifElse ht _ hthen helse => by
      have hhead := ht.facts.codeFacts.ifHead ht.facts.temp_ge ht.facts.temp_lt
      have hlo := ht.grows.tempCount
      have hthen' := hhead.trans (hthen.codeFacts.mono (by simpa using hlo))
      have hlo' := hthen.grows.tempCount
      refine ((hthen'.ifMiddle _).trans (helse.codeFacts.mono ?_)).ifTail _
      simp only [LoweringContext.ifHead_tempCount, LoweringContext.ifMiddle_tempCount] at hlo' ⊢
      omega
  | .while ht _ hbody => by
      have hhead := (CodeFacts.refl ctx.tempCount ctx).whileHead
      have htest := hhead.trans (ht.facts.codeFacts.mono (by simp))
      have hge := ht.facts.temp_ge
      have hlo := ht.grows.tempCount
      simp only [LoweringContext.whileHead_tempCount] at hge hlo
      refine ((htest.whileTest _ hge ht.facts.temp_lt).trans (hbody.codeFacts.mono ?_)).whileTail _
      simpa using hlo
  | @StmtLowers.forEach _ _ base ctx₁ ctx₂ _ _ v loc _ hv hloc hbody => by
      have hlo := hv.grows.tempCount
      have hbase := hbody.grows.tempCount
      simp only [LoweringContext.forEachItem_tempCount, hloc.tempCount,
        LoweringContext.forEachTest_tempCount] at hbase
      have hstart := hv.facts.codeFacts.forEachStart hv.facts.temp_ge hv.facts.temp_lt
      have htest := hstart.trans ((forEachTest_codeFacts base v).mono (by omega))
      have hitem := htest.trans ((forEachItem_codeFacts hloc).mono (by omega))
      have hbody' := hitem.trans (hbody.codeFacts.mono (by simp [hloc.tempCount]; omega))
      exact (hbody'.trans ((forEachStep_codeFacts (by omega)).mono (by omega))).forEachTail

theorem StmtsLower.codeFacts {table : FunctionTable} {ctx ctx' : LoweringContext}
    {body : List Stmt} : StmtsLower table ctx body ctx' → CodeFacts ctx.tempCount ctx ctx'
  | .nil => .refl _ _
  | .cons hs hbody => hs.codeFacts.trans (hbody.codeFacts.mono hs.grows.tempCount)
end

/-! ## Jumps -/

/-- The temp is defined before position `p` and used there or later. -/
def LiveAt (code : List Instr) (p t : ℕ) : Prop :=
  t < defCount code p ∧ ∃ k, p ≤ k ∧ t ∈ usesAt code k

/-- What is live at `j` is live at `i`. -/
def Carries (code : List Instr) (i j : ℕ) : Prop := ∀ t, LiveAt code j t → LiveAt code i t

/-- The instruction at `i` only jumps to places where nothing new is live. -/
def JumpsCarry (code : List Instr) (i : ℕ) : Prop :=
  ∀ inst, code[i]? = some inst → ∀ l ∈ jumpTargets inst, ∀ j, labelIndex code l = some j →
    Carries code i j

theorem carries_forward {code : List Instr} {i j : ℕ} (hij : i ≤ j)
    (h : ∀ k t, j ≤ k → t ∈ usesAt code k → t < defCount code i ∨ defCount code j ≤ t) :
    Carries code i j := by
  rintro t ⟨hdef, k, hk, hu⟩
  refine ⟨(h k t hk hu).resolve_right (Nat.not_le.mpr hdef), k, hij.trans hk, hu⟩

theorem carries_backward {code : List Instr} {i j : ℕ} (hji : j ≤ i)
    (h : ∀ k t, j ≤ k → k < i → t ∈ usesAt code k → defCount code j ≤ t) : Carries code i j := by
  rintro t ⟨hdef, k, hk, hu⟩
  refine ⟨hdef.trans_le (defCount_mono code hji), k, ?_, hu⟩
  by_contra hlt
  exact Nat.not_le.mpr hdef (h k t hk (Nat.not_le.mp hlt) hu)

theorem defCount_succ (code : List Instr) (i : ℕ) :
    defCount code (i + 1) = defCount code i + (defsAt code i).length := by
  rw [defCount, defCount, List.take_add_one, List.flatMap_append, List.length_append, defsAt]
  cases code[i]? <;> simp

/-- A branch to the label that follows it. -/
theorem carries_next {code : List Instr} {i : ℕ} (hd : defsAt code i = []) :
    Carries code i (i + 1) := by
  refine carries_forward (Nat.le_succ i) fun k t _ _ => ?_
  rw [defCount_succ, hd]
  exact Nat.lt_or_ge _ _

theorem jumpsCarry_of_nil {code : List Instr} {i : ℕ} {inst : Instr} (h : code[i]? = some inst)
    (hj : jumpTargets inst = []) : JumpsCarry code i := by
  intro inst' h' l hl
  rw [h] at h'
  cases h'
  simp [hj] at hl

/-- A jump whose targets are known. -/
theorem jumpsCarry_of_targets {code : List Instr} (hnd : (labelsOf code).Nodup) {i : ℕ}
    {inst : Instr} (h : code[i]? = some inst)
    (hj : ∀ l ∈ jumpTargets inst, ∃ j, code[j]? = some (.label l) ∧ Carries code i j) :
    JumpsCarry code i := by
  intro inst' h' l hl j' hj'
  rw [h] at h'
  cases h'
  obtain ⟨j, hlabel, hc⟩ := hj l hl
  rw [labelIndex_of_nodup hnd hlabel] at hj'
  cases hj'
  exact hc

/-- The code between two contexts in a whole function: nothing after it uses its temps. -/
structure Fits (code : List Instr) (ctx ctx' : LoweringContext) : Prop where
  labels : (labelsOf code).Nodup
  ordered : OrderedDefs ctx
  grows : ctx'.instructions <+: code
  after : ∀ k t, ctx'.instructions.length ≤ k → t ∈ usesAt code k →
    t < ctx.tempCount ∨ ctx'.tempCount ≤ t

/-- Every jump between two contexts is to a place where nothing new is live. -/
def JumpsBetween (code : List Instr) (ctx ctx' : LoweringContext) : Prop :=
  ∀ i, ctx.instructions.length ≤ i → i < ctx'.instructions.length → JumpsCarry code i

theorem JumpsBetween.trans {code : List Instr} {a b c : LoweringContext}
    (h : JumpsBetween code a b) (h' : JumpsBetween code b c) : JumpsBetween code a c := by
  intro i hai hic
  rcases Nat.lt_or_ge i b.instructions.length with hlt | hge
  · exact h i hai hlt
  · exact h' i hge hic

/-- A block of instructions, each looked at in turn. -/
theorem JumpsBetween.block {code seg : List Instr} {b c : LoweringContext}
    (hi : c.instructions = b.instructions ++ seg) (hcode : c.instructions <+: code)
    (h : ∀ m inst, seg[m]? = some inst → code[b.instructions.length + m]? = some inst →
      JumpsCarry code (b.instructions.length + m)) : JumpsBetween code b c := by
  intro i hbi hic
  obtain ⟨m, rfl⟩ := Nat.exists_eq_add_of_le hbi
  rw [hi, List.length_append, Nat.add_lt_add_iff_left] at hic
  obtain ⟨rest, rfl⟩ := hcode
  have hget : (c.instructions ++ rest)[b.instructions.length + m]? = some seg[m] := by
    rw [hi, List.append_assoc, List.getElem?_append_right (Nat.le_add_right _ _),
      Nat.add_sub_cancel_left, List.getElem?_append_left hic, List.getElem?_eq_getElem hic]
  exact h m _ (List.getElem?_eq_getElem hic) hget

/-- A block without jumps. -/
theorem JumpsBetween.straight {code seg : List Instr} {b c : LoweringContext}
    (hi : c.instructions = b.instructions ++ seg) (hcode : c.instructions <+: code)
    (h : ∀ inst ∈ seg, jumpTargets inst = []) : JumpsBetween code b c :=
  .block hi hcode fun _ inst hm hget => jumpsCarry_of_nil hget (h inst (List.mem_of_getElem? hm))

theorem jumpTargets_of_tempDefs {inst : Instr} {t : ℕ} (h : tempDefs inst = [t]) :
    jumpTargets inst = [] := by
  cases inst <;> first | rfl | cases h

theorem DefChain.jumpsBetween {lo : ℕ} {ctx ctx' : LoweringContext} (h : DefChain lo ctx ctx')
    {code : List Instr} (hcode : ctx'.instructions <+: code) : JumpsBetween code ctx ctx' := by
  induction h with
  | refl => exact fun i h₁ h₂ => absurd h₂ (Nat.not_lt.mpr h₁)
  | @step ctx₁ consts type inst _ hs ih =>
      have hpre : ctx₁.instructions <+: code := (List.prefix_append _ [inst]).trans hcode
      refine (ih hpre).trans ?_
      refine JumpsBetween.straight (show _ = _ ++ [inst] from rfl) hcode ?_
      simpa using jumpTargets_of_tempDefs hs.defs

namespace Fits

variable {code : List Instr} {ctx ctx' : LoweringContext} (hf : Fits code ctx ctx')
include hf

/-- A jump forward to a label after which only temps of its own are used. -/
theorem forward {b : LoweringContext} (hb : CodeFacts b.tempCount b ctx') (hbo : OrderedDefs b)
    (hle : b.tempCount ≤ ctx'.tempCount) {i : ℕ} (hi : i ≤ b.instructions.length)
    (hctx : ctx.tempCount ≤ defCount code i) : Carries code i b.instructions.length := by
  refine carries_forward hi fun k t hk hu => ?_
  rw [hbo.defCount (hb.grows.trans hf.grows)]
  rcases Nat.lt_or_ge k ctx'.instructions.length with hlt | hge
  · rw [usesAt_of_code hf.grows hlt] at hu
    exact .inr (hb.uses hbo k t hk hu).1
  · exact (hf.after k t hge hu).imp (·.trans_le hctx) hle.trans

/-- A part of the code, when the rest of it leaves the temps of the part alone. -/
theorem inner {a b : LoweringContext} (ha : OrderedDefs a) (hlo : ctx.tempCount ≤ a.tempCount)
    (hb : b.instructions <+: ctx'.instructions) (hle : b.tempCount ≤ ctx'.tempCount)
    (hrest : ∀ k t, b.instructions.length ≤ k → t ∈ usesAt ctx'.instructions k →
      t < a.tempCount ∨ b.tempCount ≤ t) : Fits code a b := by
  refine ⟨hf.labels, ha, hb.trans hf.grows, fun k t hk hu => ?_⟩
  rcases Nat.lt_or_ge k ctx'.instructions.length with hlt | hge
  · rw [usesAt_of_code hf.grows hlt] at hu
    exact hrest k t hk hu
  · exact (hf.after k t hge hu).imp (·.trans_le hlo) hle.trans

end Fits

theorem defsAt_eq_nil {code : List Instr} {i : ℕ} {inst : Instr} (h : code[i]? = some inst)
    (hd : tempDefs inst = []) : defsAt code i = [] := by
  simp [defsAt, h, hd]

section Jumps

variable {table : FunctionTable} {code : List Instr} {ctx base ctx₁ ctx₂ ctx₃ : LoweringContext}

/-- The label that ends a compound statement. -/
theorem Fits.exit (hf : Fits code ctx ctx₁) {l : Label} {pre : LoweringContext}
    (hpre : CodeFacts ctx.tempCount ctx pre)
    (hi : ctx₁.instructions = pre.instructions ++ [Instr.label l]) (ht : ctx₁.tempCount =
    pre.tempCount)
    {i : ℕ} (hi' : i ≤ pre.instructions.length) (hctx : ctx.tempCount ≤ defCount code i) :
    ∃ j, code[j]? = some (.label l) ∧ Carries code i j := by
  refine ⟨pre.instructions.length, getElem?_of_code (hi ▸ hf.grows), ?_⟩
  have hlabel : CodeFacts pre.tempCount pre ctx₁ := by
    refine (CodeFacts.refl _ pre).block hi ?_
    simp [BlockOk, tempDefs, tempUses, ht]
  exact hf.forward hlabel (hpre.ordered hf.ordered) ht.ge hi' hctx

/-- A branch, and the label of its first target. -/
theorem jumps_branch (hnd : (labelsOf code).Nodup) {t : ℕ} {l₁ l₂ : Label}
    (hi : ctx₁.instructions = ctx.instructions ++ [Instr.br t l₁ l₂, .label l₁])
    (hcode : ctx₁.instructions <+: code)
    (hother : ∃ j, code[j]? = some (.label l₂) ∧ Carries code ctx.instructions.length j) :
    JumpsBetween code ctx ctx₁ := by
  refine .block hi hcode ?_
  rintro (_ | _ | m) inst hm hget
  · cases hm
    refine jumpsCarry_of_targets hnd hget ?_
    simp only [jumpTargets, List.mem_cons, List.not_mem_nil, or_false]
    rintro l (rfl | rfl)
    · refine ⟨ctx.instructions.length + 1, ?_, carries_next (defsAt_eq_nil hget rfl)⟩
      obtain ⟨rest, rfl⟩ := hcode
      simp [hi]
    · exact hother
  · cases hm
    exact jumpsCarry_of_nil hget rfl
  · cases hm

/-- A jump, and the label after it. -/
theorem jumps_jmp (hnd : (labelsOf code).Nodup) {l l' : Label}
    (hi : ctx₁.instructions = ctx.instructions ++ [Instr.jmp l, .label l'])
    (hcode : ctx₁.instructions <+: code)
    (htarget : ∃ j, code[j]? = some (.label l) ∧ Carries code ctx.instructions.length j) :
    JumpsBetween code ctx ctx₁ := by
  refine .block hi hcode ?_
  rintro (_ | _ | m) inst hm hget
  · cases hm
    exact jumpsCarry_of_targets hnd hget (by simpa [jumpTargets] using htarget)
  · cases hm
    exact jumpsCarry_of_nil hget rfl
  · cases hm

theorem jumps_ifElse {test : Expr} {t : Operand} {thenBody elseBody : List Stmt}
    (ht : ExprLowers table ctx test t base)
    (hthen : StmtsLower table (base.ifHead t) thenBody ctx₂)
    (helse : StmtsLower table (base.ifMiddle ctx₂) elseBody ctx₃)
    (hf : Fits code ctx (base.ifTail ctx₃))
    (ihthen : Fits code (base.ifHead t) ctx₂ → JumpsBetween code (base.ifHead t) ctx₂)
    (ihelse : Fits code (base.ifMiddle ctx₂) ctx₃ → JumpsBetween code (base.ifMiddle ctx₂) ctx₃) :
    JumpsBetween code ctx (base.ifTail ctx₃) := by
  -- every part grows into the whole
  have g₃ : ctx₃.Grows (base.ifTail ctx₃) := (LoweringContext.Grows.refl ctx₃).ifTail base
  have gmid := helse.grows.trans g₃
  have g₂ := ((LoweringContext.Grows.refl ctx₂).ifMiddle base).trans gmid
  have ghead := hthen.grows.trans g₂
  have gbase := ((LoweringContext.Grows.refl base).ifHead t).trans ghead
  have hlo := ht.grows.tempCount
  have hlo₂ := hthen.grows.tempCount
  rw [LoweringContext.ifHead_tempCount] at hlo₂
  have cbase := ht.facts.codeFacts
  have chead := cbase.ifHead ht.facts.temp_ge ht.facts.temp_lt
  have cthen := chead.trans (hthen.codeFacts.mono (by simpa using hlo))
  have cmid := cthen.ifMiddle base
  have celse := cmid.trans (helse.codeFacts.mono (by simp; omega))
  -- the second branch starts after the jump that ends the first
  let jump := ctx₂.withInstr (.jmp (base.labelAt .ifend 2))
  have cjump : CodeFacts ctx₂.tempCount jump (base.ifTail ctx₃) := by
    have h : CodeFacts ctx₂.tempCount jump (base.ifMiddle ctx₂) :=
      (CodeFacts.refl _ jump).withInstr rfl (by simp [tempUses])
    exact (h.trans (helse.codeFacts.mono (by simp))).ifTail _
  have hhead : JumpsBetween code base (base.ifHead t) := by
    refine jumps_branch hf.labels (base.ifHead_instructions t)
      (ghead.instructions.trans hf.grows) ⟨jump.instructions.length,
        getElem?_of_code (gmid.instructions.trans hf.grows), ?_⟩
    have hd := (cbase.ordered hf.ordered).defCount (gbase.instructions.trans hf.grows)
    exact hf.forward cjump ((cthen.withInstr rfl (by simp [tempUses])).ordered hf.ordered)
      g₂.tempCount (((LoweringContext.Grows.refl base).ifHead t).trans hthen.grows
        |>.withInstr _ |>.length) (hd ▸ hlo)
  have hmid : JumpsBetween code ctx₂ (base.ifMiddle ctx₂) := by
    refine jumps_jmp hf.labels (base.ifMiddle_instructions ctx₂)
      (gmid.instructions.trans hf.grows) ?_
    have hd := (cthen.ordered hf.ordered).defCount (g₂.instructions.trans hf.grows)
    exact hf.exit celse (base.ifTail_instructions ctx₃) (by simp)
      (((LoweringContext.Grows.refl ctx₂).ifMiddle base).trans helse.grows).length (by omega)
  have htail : JumpsBetween code ctx₃ (base.ifTail ctx₃) :=
    .straight (base.ifTail_instructions ctx₃) hf.grows (by simp [jumpTargets])
  have fthen : Fits code (base.ifHead t) ctx₂ := by
    refine hf.inner (chead.ordered hf.ordered) (by simpa using hlo) g₂.instructions g₂.tempCount ?_
    have crest : CodeFacts ctx₂.tempCount ctx₂ (base.ifTail ctx₃) :=
      ((CodeFacts.refl _ ctx₂).withInstr rfl (by simp [tempUses])).trans cjump
    exact fun k u hk hu => .inr (crest.uses (cthen.ordered hf.ordered) k u hk hu).1
  have felse : Fits code (base.ifMiddle ctx₂) ctx₃ := by
    refine hf.inner (cmid.ordered hf.ordered) (by simp; omega) g₃.instructions g₃.tempCount ?_
    have crest := (CodeFacts.refl ctx₃.tempCount ctx₃).ifTail base
    exact fun k u hk hu => .inr (crest.uses (celse.ordered hf.ordered) k u hk hu).1
  exact (ht.facts.chain.jumpsBetween (gbase.instructions.trans hf.grows)).trans (hhead.trans
    ((ihthen fthen).trans (hmid.trans ((ihelse felse).trans htail))))

theorem jumps_while {test : Expr} {t : Operand} {body : List Stmt}
    (ht : ExprLowers table base.whileHead test t ctx₁)
    (hbody : StmtsLower table (base.whileTest ctx₁ t) body ctx₂)
    (hf : Fits code base (base.whileTail ctx₂))
    (ihbody : Fits code (base.whileTest ctx₁ t) ctx₂ →
      JumpsBetween code (base.whileTest ctx₁ t) ctx₂) :
    JumpsBetween code base (base.whileTail ctx₂) := by
  have g₂ : ctx₂.Grows (base.whileTail ctx₂) := (LoweringContext.Grows.refl ctx₂).whileTail base
  have gtest := hbody.grows.trans g₂
  have g₁ := ((LoweringContext.Grows.refl ctx₁).whileTest base t).trans gtest
  have ghead := ht.grows.trans g₁
  have hlo := ht.grows.tempCount
  have hge := ht.facts.temp_ge
  rw [LoweringContext.whileHead_tempCount] at hlo hge
  have chead := (CodeFacts.refl base.tempCount base).whileHead
  have c₁ := chead.trans (ht.facts.codeFacts.mono (by simp))
  have ctest := c₁.whileTest base hge ht.facts.temp_lt
  have c₂ := ctest.trans (hbody.codeFacts.mono (by simpa using hlo))
  -- the exit label follows the jump back
  have cjump : CodeFacts base.tempCount base (ctx₂.withInstr (.jmp (base.labelAt .loop 0))) :=
    c₂.withInstr rfl (by simp [tempUses])
  have hexit : (base.whileTail ctx₂).instructions =
      (ctx₂.withInstr (.jmp (base.labelAt .loop 0))).instructions ++
        [Instr.label (base.labelAt .loopend 2)] := rfl
  have hhead : JumpsBetween code base base.whileHead :=
    .straight base.whileHead_instructions (ghead.instructions.trans hf.grows)
      (by simp [jumpTargets])
  have htest : JumpsBetween code ctx₁ (base.whileTest ctx₁ t) := by
    refine jumps_branch hf.labels (base.whileTest_instructions ctx₁ t)
      (gtest.instructions.trans hf.grows) ?_
    have hd := (c₁.ordered hf.ordered).defCount (g₁.instructions.trans hf.grows)
    exact hf.exit cjump hexit (by simp)
      (((LoweringContext.Grows.refl ctx₁).whileTest base t).trans hbody.grows
        |>.withInstr _ |>.length) (by omega)
  have htail : JumpsBetween code ctx₂ (base.whileTail ctx₂) := by
    refine jumps_jmp hf.labels (base.whileTail_instructions ctx₂) hf.grows
      ⟨base.instructions.length, getElem?_of_code (ghead.instructions.trans hf.grows), ?_⟩
    have hd := hf.ordered.defCount (chead.grows.trans (ghead.instructions.trans hf.grows))
    refine carries_backward c₂.grows.length_le fun k u hk hlt hu => ?_
    rw [usesAt_of_code (g₂.instructions.trans hf.grows) hlt] at hu
    rw [hd]
    exact (c₂.uses hf.ordered k u hk hu).1
  have fbody : Fits code (base.whileTest ctx₁ t) ctx₂ := by
    refine hf.inner (ctest.ordered hf.ordered) (by simpa using hlo) g₂.instructions
      g₂.tempCount ?_
    have crest := (CodeFacts.refl ctx₂.tempCount ctx₂).whileTail base
    exact fun k u hk hu => .inr (crest.uses (c₂.ordered hf.ordered) k u hk hu).1
  exact hhead.trans ((ht.facts.chain.jumpsBetween (g₁.instructions.trans hf.grows)).trans
    (htest.trans ((ihbody fbody).trans htail)))

theorem jumps_forEach {binding : String} {iterable : Expr} {v : Operand} {loc : Local}
    {body : List Stmt} (hv : ExprLowers table ctx iterable v base)
    (hloc : EnsuresLocal (base.forEachTest v) binding (bindingType v.type) loc ctx₁)
    (hbody : StmtsLower table (base.forEachItem ctx₁ v loc) body ctx₂)
    (hf : Fits code ctx (base.forEachTail ctx₂))
    (ihbody : Fits code (base.forEachItem ctx₁ v loc) ctx₂ →
      JumpsBetween code (base.forEachItem ctx₁ v loc) ctx₂) :
    JumpsBetween code ctx (base.forEachTail ctx₂) := by
  have gstep : (base.forEachStep ctx₂).Grows (base.forEachTail ctx₂) :=
    ((LoweringContext.Grows.refl _).withInstr _).withInstr _
  have g₂ := ((LoweringContext.Grows.refl ctx₂).forEachStep base).trans gstep
  have gitem := hbody.grows.trans g₂
  have g₁ := ((LoweringContext.Grows.refl ctx₁).forEachItem base v loc).trans gitem
  have gtest := hloc.grows.trans g₁
  have gcond : (base.forEachCond v).Grows (base.forEachTail ctx₂) :=
    (((LoweringContext.Grows.refl _).withInstr _).withInstr _).trans gtest
  have gstart := (LoweringContext.Grows.forEachCond base v).trans gcond
  have gbase := ((LoweringContext.Grows.refl base).forEachStart v).trans gstart
  have hlo := hv.grows.tempCount
  have hlo₂ := hbody.grows.tempCount
  simp only [LoweringContext.forEachItem_tempCount, hloc.tempCount,
    LoweringContext.forEachTest_tempCount] at hlo₂
  have cstart := hv.facts.codeFacts.forEachStart hv.facts.temp_ge hv.facts.temp_lt
  have ctest := forEachTest_codeFacts base v
  have citem := ctest.trans (forEachItem_codeFacts hloc)
  have c₂ := citem.trans (hbody.codeFacts.mono (by simp [hloc.tempCount]))
  have ostart := cstart.ordered hf.ordered
  have hstart : JumpsBetween code base (base.forEachStart v) :=
    .straight (base.forEachStart_instructions v) (gstart.instructions.trans hf.grows)
      (by simp [jumpTargets])
  have hcond : JumpsBetween code (base.forEachStart v) (base.forEachCond v) :=
    .straight (base.forEachCond_instructions v) (gcond.instructions.trans hf.grows)
      (by simp [jumpTargets])
  have cstep := c₂.trans (forEachStep_codeFacts (by omega))
  -- the exit label follows the jump back
  have cjump : CodeFacts ctx.tempCount ctx
      ((base.forEachStep ctx₂).withInstr (.jmp (base.labelAt .foreach 0))) :=
    (cstart.trans (cstep.mono (by omega))).withInstr rfl (by simp [tempUses])
  have hexit : (base.forEachTail ctx₂).instructions =
      ((base.forEachStep ctx₂).withInstr (.jmp (base.labelAt .foreach 0))).instructions ++
        [Instr.label (base.labelAt .foreachEnd 2)] := rfl
  have hdstart := ostart.defCount (gstart.instructions.trans hf.grows)
  have htest : JumpsBetween code (base.forEachCond v) (base.forEachTest v) := by
    refine jumps_branch hf.labels (base.forEachTest_instructions v)
      (gtest.instructions.trans hf.grows) (hf.exit cjump hexit (by simp) ?_ ?_)
    · exact ((((((LoweringContext.Grows.refl (base.forEachCond v)).withInstr _).withInstr _).trans
        hloc.grows).forEachItem base v loc).trans hbody.grows).forEachStep base |>.withInstr _
        |>.length
    · have hle := defCount_mono code (LoweringContext.Grows.forEachCond base v).length
      rw [hdstart, LoweringContext.forEachStart_tempCount] at hle
      omega
  have hitem : JumpsBetween code (base.forEachTest v) (base.forEachItem ctx₁ v loc) := by
    refine .straight (hloc.instructions ▸ base.forEachItem_instructions ctx₁ v loc)
      (gitem.instructions.trans hf.grows) (by simp [jumpTargets])
  have hstep : JumpsBetween code ctx₂ (base.forEachStep ctx₂) :=
    .straight (base.forEachStep_instructions ctx₂) (gstep.instructions.trans hf.grows)
      (by simp [jumpTargets])
  have htail : JumpsBetween code (base.forEachStep ctx₂) (base.forEachTail ctx₂) := by
    refine jumps_jmp hf.labels (base.forEachTail_instructions ctx₂) hf.grows
      ⟨(base.forEachInit v).instructions.length,
        getElem?_of_code (gstart.instructions.trans hf.grows), ?_⟩
    have cloop : CodeFacts (base.tempCount + 1) (base.forEachInit v) (base.forEachStep ctx₂) :=
      ((CodeFacts.refl _ _).withInstr rfl (by simp [tempUses])).trans cstep
    have oinit : OrderedDefs (base.forEachInit v) :=
      (hv.facts.codeFacts.forEachInit hv.facts.temp_ge hv.facts.temp_lt).ordered hf.ordered
    have hd := oinit.defCount (cloop.grows.trans (gstep.instructions.trans hf.grows))
    refine carries_backward cloop.grows.length_le fun k u hk hlt hu => ?_
    rw [usesAt_of_code (gstep.instructions.trans hf.grows) hlt] at hu
    rw [hd, LoweringContext.forEachInit_tempCount]
    exact (cloop.uses oinit k u hk hu).1
  have fbody : Fits code (base.forEachItem ctx₁ v loc) ctx₂ := by
    refine hf.inner (citem.ordered ostart) (by simp [hloc.tempCount]; omega) g₂.instructions
      g₂.tempCount fun k u hk hu => ?_
    -- after the body the loop uses its index, which is older, and two temps of its own
    obtain ⟨m, rfl⟩ := Nat.exists_eq_add_of_le hk
    rw [LoweringContext.forEachTail_instructions, LoweringContext.forEachStep_instructions,
      List.append_assoc, usesAt, List.getElem?_append_right (Nat.le_add_right _ _),
      Nat.add_sub_cancel_left] at hu
    rcases m with _ | _ | _ | _ | _ | m <;> simp [tempUses, hloc.tempCount] at hu ⊢ <;> omega
  exact (hv.facts.chain.jumpsBetween (gbase.instructions.trans hf.grows)).trans (hstart.trans
    (hcond.trans (htest.trans (hitem.trans ((ihbody fbody).trans (hstep.trans htail))))))

/-- An expression and one instruction that does not jump. -/
theorem ExprFacts.jumps_use {v : Operand} (h : ExprFacts ctx ctx₁ v)
    (hi : ctx₂.instructions = ctx₁.instructions) {inst : Instr} (hj : jumpTargets inst = [])
    (hf : Fits code ctx (ctx₂.withInstr inst)) : JumpsBetween code ctx (ctx₂.withInstr inst) := by
  have hcode : (ctx₂.withInstr inst).instructions = ctx₁.instructions ++ [inst] := by simp [hi]
  have hpre : ctx₁.instructions <+: code :=
    (hcode ▸ List.prefix_append _ _ : ctx₁.instructions <+: _).trans hf.grows
  exact (h.chain.jumpsBetween hpre).trans (.straight hcode hf.grows (by simpa using hj))

mutual
theorem StmtLowers.jumps {ctx ctx' : LoweringContext} {s : Stmt} :
    StmtLowers table ctx s ctx' → Fits code ctx ctx' → JumpsBetween code ctx ctx'
  | .define he hloc, hf => he.facts.jumps_use hloc.instructions rfl hf
  | .assign _ he _, hf => he.facts.jumps_use rfl rfl hf
  | .show he, hf => he.facts.jumps_use rfl rfl hf
  | .exprStmt he, hf => he.facts.chain.jumpsBetween hf.grows
  | .ret he _, hf => he.facts.jumps_use rfl rfl hf
  | .retDefault hv _, hf => hv.facts.jumps_use rfl rfl hf
  | .ifElse ht _ hthen helse, hf => jumps_ifElse ht hthen helse hf hthen.jumps helse.jumps
  | .while ht _ hbody, hf => jumps_while ht hbody hf hbody.jumps
  | .forEach hv hloc hbody, hf => jumps_forEach hv hloc hbody hf hbody.jumps

theorem StmtsLower.jumps {ctx ctx' : LoweringContext} {body : List Stmt} :
    StmtsLower table ctx body ctx' → Fits code ctx ctx' → JumpsBetween code ctx ctx'
  | .nil, _ => fun i h₁ h₂ => absurd h₂ (Nat.not_lt.mpr h₁)
  | .cons hs hbody, hf => by
      have ho := hs.codeFacts.ordered hf.ordered
      have hfirst := hf.inner hf.ordered (Nat.le_refl _) hbody.grows.instructions
        hbody.grows.tempCount fun k u hk hu => .inr (hbody.codeFacts.uses ho k u hk hu).1
      have hrest := hf.inner ho hs.grows.tempCount List.prefix_rfl (Nat.le_refl _)
        fun k u hk hu => absurd (lt_of_mem_usesAt hu) (Nat.not_lt.mpr hk)
      exact (hs.jumps hfirst).trans (hbody.jumps hrest)
end

end Jumps

/-! ## Whole functions -/

/-- The temps of a whole function. -/
structure TempsOk (code : List Instr) (n : ℕ) : Prop where
  defs : code.flatMap tempDefs = List.range n
  uses : ∀ k t, t ∈ usesAt code k → t < defCount code k
  jumps : ∀ i, JumpsCarry code i

theorem BodyLowers.codeFacts {table : FunctionTable} {start final : LoweringContext}
    {body : List Stmt} (h : BodyLowers table start body final) :
    CodeFacts start.tempCount start final := by
  cases h with
  | returns hs _ => exact hs.codeFacts
  | fallsOff hs _ hv =>
      exact hs.codeFacts.trans ((hv.facts.codeFacts_use rfl rfl rfl rfl).mono hs.grows.tempCount)

theorem BodyLowers.jumps {table : FunctionTable} {start final : LoweringContext}
    {body : List Stmt} (h : BodyLowers table start body final) {code : List Instr}
    (hf : Fits code start final) : JumpsBetween code start final := by
  cases h with
  | returns hs _ => exact hs.jumps hf
  | @fallsOff ctx ctx₁ v hs _ hv =>
      have ho := hs.codeFacts.ordered hf.ordered
      have cret : CodeFacts ctx.tempCount ctx (ctx₁.withInstr (.ret v.temp v.type)) :=
        hv.facts.codeFacts_use rfl rfl rfl rfl
      have gret : ctx.Grows (ctx₁.withInstr (.ret v.temp v.type)) :=
        hv.facts.chain.grows.withInstr _
      have hbody := hf.inner hf.ordered (Nat.le_refl _) gret.instructions gret.tempCount
        fun k u hk hu => .inr (cret.uses ho k u hk hu).1
      have hret := hf.inner ho hs.grows.tempCount List.prefix_rfl (Nat.le_refl _)
        fun k u hk hu => absurd (lt_of_mem_usesAt hu) (Nat.not_lt.mpr hk)
      exact (hs.jumps hbody).trans (hv.facts.jumps_use rfl rfl hret)

theorem BodyLowers.tempsOk {table : FunctionTable} {start final : LoweringContext}
    {body : List Stmt} (h : BodyLowers table start body final) (hnil : start.instructions = [])
    (htemps : start.tempTypes = []) : TempsOk final.instructions final.tempCount := by
  have ho : OrderedDefs start := by simp [OrderedDefs, hnil, htemps, LoweringContext.tempCount]
  have hf : Fits final.instructions start final :=
    ⟨h.labels_nodup hnil, ho, List.prefix_rfl, fun k u hk hu =>
      absurd (lt_of_mem_usesAt hu) (Nat.not_lt.mpr hk)⟩
  refine ⟨h.codeFacts.ordered ho, fun k u hu => (h.codeFacts.uses ho k u (by simp [hnil]) hu).2, ?_⟩
  intro i
  rcases Nat.lt_or_ge i final.instructions.length with hlt | hge
  · exact h.jumps hf i (by simp [hnil]) hlt
  · intro inst hinst
    rw [List.getElem?_eq_none hge] at hinst
    cases hinst

/-- Every function of a unit `lowerProgram` produces. -/
theorem ProgramLowers.tempsOk {program : Program} {table : FunctionTable} {unit : IRUnit}
    (h : ProgramLowers program table unit) :
    ∀ fn ∈ unit.functions, TempsOk fn.instructions fn.tempTypes.length := by
  intro fn hfn
  obtain ⟨consts, name, type, params, body, final, hbody, rfl⟩ := h.exists_body fn hfn
  have hfields := addParams_fields (emptyContext consts name type) params
  exact hbody.tempsOk hfields.1 hfields.2.2.2.2

end GatoCore.Native
