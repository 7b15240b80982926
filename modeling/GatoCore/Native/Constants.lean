import GatoCore.Native.EmitCorrect
import GatoCore.Native.Names

/-!
# The constants of the code

Besides 0 and 1 the constants of the code are the numbers of the program, so the code is written as
it is if they are.
-/

namespace GatoCore.Native

open GatoCore.Lib GatoCore.Lib.Binary64

/-! ## Numbers -/

mutual
def Expr.numbers : Expr → List ℕ
  | .number value => [value]
  | .array items => numbersOf items
  | .unary _ e => e.numbers
  | .binary _ l r => l.numbers ++ r.numbers
  | .call callee args => callee.numbers ++ numbersOf args
  | _ => []

def numbersOf : List Expr → List ℕ
  | [] => []
  | e :: es => e.numbers ++ numbersOf es
end

mutual
def Stmt.numbers : Stmt → List ℕ
  | .define _ e => e.numbers
  | .assign _ e => e.numbers
  | .show e => e.numbers
  | .exprStmt e => e.numbers
  | .ret none => []
  | .ret (some e) => e.numbers
  | .ifElse test thenBody elseBody =>
      test.numbers ++ (bodyNumbers thenBody ++ bodyNumbers elseBody)
  | .while test body => test.numbers ++ bodyNumbers body
  | .forEach _ iterable body => iterable.numbers ++ bodyNumbers body

def bodyNumbers : List Stmt → List ℕ
  | [] => []
  | s :: body => s.numbers ++ bodyNumbers body
end

/-- Every number of a program, those in its lists included. -/
def Program.numbers (program : Program) : List ℕ :=
  program.functions.flatMap (fun fn => bodyNumbers fn.body) ++ bodyNumbers program.body

/-- The numbers are read by the assembler as they are. -/
def NumbersWritten (numbers : List ℕ) : Prop :=
  ∀ d ∈ numbers, asmInteger (numberText d) = some d

theorem NumbersWritten.left {a b : List ℕ} (h : NumbersWritten (a ++ b)) : NumbersWritten a :=
  fun d hd => h d (List.mem_append_left b hd)

theorem NumbersWritten.right {a b : List ℕ} (h : NumbersWritten (a ++ b)) : NumbersWritten b :=
  fun d hd => h d (List.mem_append_right a hd)

/-! ## Code -/

/-- The constants of the code so far. -/
def CodeWritten (ctx : LoweringContext) : Prop := ∀ inst ∈ ctx.instructions, inst.Written

theorem CodeWritten.append {ctx ctx' : LoweringContext} (h : CodeWritten ctx) (insts : List Instr)
    (heq : ctx'.instructions = ctx.instructions ++ insts)
    (hinsts : ∀ inst ∈ insts, inst.Written) : CodeWritten ctx' := by
  intro inst hinst
  rw [heq] at hinst
  rcases List.mem_append.mp hinst with hinst | hinst
  · exact h inst hinst
  · exact hinsts inst hinst

theorem CodeWritten.instr {ctx ctx' : LoweringContext} (h : CodeWritten ctx) {inst : Instr}
    (heq : ctx'.instructions = ctx.instructions ++ [inst]) (hinst : inst.Written) :
    CodeWritten ctx' := by
  refine h.append [inst] heq ?_
  intro i hi
  exact List.mem_singleton.mp hi ▸ hinst

theorem constInt_written {value : ℕ} (h : value < 2 ^ 53) (dest : ℕ) (type : Option Ty) :
    (Instr.constInt dest value type).Written := asmInteger_numberText_of_lt h

theorem cmp_zero_written (dest left : ℕ) (cmp : CmpOp) :
    (Instr.cmp dest cmp left (.imm 0)).Written :=
  (asmSigned_numberText_self (nearest_of_lt (by decide))).mpr
    ⟨.inl (by decide), shortest_of_lt (by decide)⟩

theorem ConstValue.instr_written {consts consts' : ConstTables} {e : Expr} {c : ConstValue}
    (hnumbers : NumbersWritten e.numbers) (h : buildConstValue consts e = .ok (c, consts'))
    (dest : ℕ) : (c.instr dest).Written := by
  cases e with
  | number value =>
      cases h
      exact hnumbers value (by simp [Expr.numbers])
  | bool value =>
      cases h
      refine constInt_written ?_ dest _
      split <;> decide
  | null =>
      cases h
      exact constInt_written (by decide) dest _
  | string value =>
      cases h
      trivial
  | array items =>
      rw [buildConstValue] at h
      obtain ⟨_, -, h⟩ := except_bind_ok.mp h
      cases h
      trivial
  | _ => cases h

section Lowering

variable {table : FunctionTable} {ctx ctx' : LoweringContext}

mutual
theorem ExprLowers.written {ctx ctx' : LoweringContext} {e : Expr} {v : Operand} :
    ExprLowers table ctx e v ctx' → NumbersWritten e.numbers → CodeWritten ctx → CodeWritten ctx'
  | .literal hc, hn, h => h.instr rfl (ConstValue.instr_written hn hc _)
  | .identifier _, _, h => h.instr rfl trivial
  | .neg he _, hn, h => (he.written hn h).instr rfl trivial
  | .not he _, hn, h => (he.written hn h).instr rfl trivial
  | .tamanhoDe he _, hn, h => (he.written hn h).instr rfl trivial
  | .tipoDe he, hn, h => (he.written hn h).instr rfl trivial
  | .identificar he, hn, h => (he.written hn h).instr rfl trivial
  | .observar he, hn, h => (he.written hn h).instr rfl trivial
  | .compare hl hr _ _, hn, h =>
      (hr.written hn.right (hl.written hn.left h)).instr rfl trivial
  | @ExprLowers.logical _ _ _ ctx₂ _ bin _ _ a b hl hr _ _ _ _, hn, h => by
      have hr' := hr.written hn.right (hl.written hn.left h)
      refine hr'.append [.cmp ctx₂.tempCount .ne a.temp (.imm 0),
        .cmp (ctx₂.tempCount + 1) .ne b.temp (.imm 0),
        .bin (ctx₂.tempCount + 2) bin ctx₂.tempCount (ctx₂.tempCount + 1)] (by simp) ?_
      simp only [List.forall_mem_cons]
      exact ⟨cmp_zero_written _ _ _, cmp_zero_written _ _ _, trivial, nofun⟩
  | .arith hl hr _ _ _ _, hn, h =>
      (hr.written hn.right (hl.written hn.left h)).instr rfl trivial
  | .call _ _ _ hargs, hn, h => (hargs.written hn.right h).instr rfl trivial

theorem ArgsLower.written {ctx ctx' : LoweringContext} {types : List (Option Ty)}
    {args : List Expr} {vs : List Operand} :
    ArgsLower table ctx types args vs ctx' → NumbersWritten (numbersOf args) → CodeWritten ctx →
      CodeWritten ctx'
  | .nil, _, h => h
  | .cons hv _ hvs, hn, h => hvs.written hn.right (hv.written hn.left h)
end

theorem DefaultLowers.written {type : Option Ty} {v : Operand}
    (hv : DefaultLowers table ctx type v ctx') (h : CodeWritten ctx) : CodeWritten ctx' := by
  cases hv with
  | array _ => exact h.instr rfl (constInt_written (by decide) _ _)
  | literal _ he =>
      refine he.written ?_ h
      intro d hd
      have hzero : d = 0 := by
        revert hd
        unfold typeDefaultValue
        split <;> simp [Expr.numbers]
      exact hzero ▸ asmInteger_numberText_of_lt (by decide)

mutual
theorem StmtLowers.written {ctx ctx' : LoweringContext} {s : Stmt} :
    StmtLowers table ctx s ctx' → NumbersWritten s.numbers → CodeWritten ctx → CodeWritten ctx'
  | .define he hloc, hn, h =>
      (he.written hn h).append [_] (by rw [← hloc.instructions]; rfl)
        (by simp [Instr.Written])
  | .assign _ he _, hn, h => (he.written hn h).instr rfl trivial
  | .show he, hn, h => (he.written hn h).instr rfl trivial
  | .exprStmt he, hn, h => he.written hn h
  | .ret he _, hn, h => (he.written hn h).instr rfl trivial
  | .retDefault hv _, _, h => (hv.written h).instr rfl trivial
  | @StmtLowers.ifElse _ _ base ctx₂ ctx₃ _ t _ _ ht _ hthen helse, hn, h => by
      have hhead : CodeWritten (base.ifHead t) :=
        (ht.written hn.left h).append _ (base.ifHead_instructions t) (by simp [Instr.Written])
      have hmiddle : CodeWritten (base.ifMiddle ctx₂) :=
        (hthen.written hn.right.left hhead).append _ (base.ifMiddle_instructions ctx₂)
          (by simp [Instr.Written])
      exact (helse.written hn.right.right hmiddle).instr (base.ifTail_instructions ctx₃) trivial
  | @StmtLowers.while _ _ ctx₁ ctx₂ _ t _ ht _ hbody, hn, h => by
      have hhead : CodeWritten ctx.whileHead := h.instr ctx.whileHead_instructions trivial
      have htest : CodeWritten (ctx.whileTest ctx₁ t) :=
        (ht.written hn.left hhead).append _ (ctx.whileTest_instructions ctx₁ t)
          (by simp [Instr.Written])
      exact (hbody.written hn.right htest).append _ (ctx.whileTail_instructions ctx₂)
        (by simp [Instr.Written])
  | @StmtLowers.forEach _ _ base ctx₁ ctx₂ _ _ v loc _ hv hloc hbody, hn, h => by
      -- the loop writes a zero and a one of its own
      have hzero : ∀ dest type, (Instr.constInt dest 0 type).Written :=
        constInt_written (by decide)
      have hone : ∀ dest type, (Instr.constInt dest 1 type).Written :=
        constInt_written (by decide)
      have hstart : CodeWritten (base.forEachStart v) :=
        (hv.written hn.left h).append _ (base.forEachStart_instructions v) (by
          simp only [List.forall_mem_cons]
          exact ⟨trivial, hzero _ _, trivial, trivial, nofun⟩)
      have hcond : CodeWritten (base.forEachCond v) :=
        hstart.append _ (base.forEachCond_instructions v) (by simp [Instr.Written])
      have htest : CodeWritten (base.forEachTest v) :=
        hcond.append _ (base.forEachTest_instructions v) (by simp [Instr.Written])
      have hread : CodeWritten (base.forEachItem ctx₁ v loc) :=
        htest.append _ (hloc.instructions ▸ base.forEachItem_instructions ctx₁ v loc)
          (by simp [Instr.Written])
      have hstep : CodeWritten (base.forEachStep ctx₂) :=
        (hbody.written hn.right hread).append _ (base.forEachStep_instructions ctx₂) (by
          simp only [List.forall_mem_cons]
          exact ⟨hone _ _, trivial, trivial, nofun⟩)
      exact hstep.append _ (base.forEachTail_instructions ctx₂) (by simp [Instr.Written])

theorem StmtsLower.written {ctx ctx' : LoweringContext} {body : List Stmt} :
    StmtsLower table ctx body ctx' → NumbersWritten (bodyNumbers body) → CodeWritten ctx →
      CodeWritten ctx'
  | .nil, _, h => h
  | .cons hs hbody, hn, h => hbody.written hn.right (hs.written hn.left h)
end

theorem BodyLowers.written {start final : LoweringContext} {body : List Stmt}
    (h : BodyLowers table start body final) (hnil : start.instructions = [])
    (hn : NumbersWritten (bodyNumbers body)) : CodeWritten final := by
  have hstart : CodeWritten start := by
    intro inst hinst
    rw [hnil] at hinst
    cases hinst
  cases h with
  | returns hs _ => exact hs.written hn hstart
  | fallsOff hs _ hv => exact (hv.written (hs.written hn hstart)).instr rfl trivial

end Lowering

/-- The code of a program whose numbers are written as they are. -/
theorem ProgramLowers.written {program : Program} {table : FunctionTable} {unit : IRUnit}
    (h : ProgramLowers program table unit) (hn : NumbersWritten program.numbers) :
    ∀ fn ∈ unit.functions, ∀ inst ∈ fn.instructions, inst.Written := by
  cases h with
  | intro hfns hbody =>
      intro fn hfn
      rcases List.mem_append.mp hfn with hfn | hfn
      · obtain ⟨decl, hdecl, consts, final, -, hlowers, rfl⟩ := hfns.origin fn hfn
        refine hlowers.written (addParams_fields _ _).1 fun d hd => hn d ?_
        exact List.mem_append_left _ (List.mem_flatMap.mpr ⟨decl, hdecl, hd⟩)
      · cases List.mem_singleton.mp hfn
        exact hbody.written (addParams_fields _ _).1 hn.right

end GatoCore.Native
