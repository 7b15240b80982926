import Mathlib.Data.List.Perm.Basic
import GatoCore.Native.StaticTypes

/-!
# The names the compiler makes up

Source: the constructor of `LoweringContext`, `newLabel`, the names of the hidden locals of a
`para cada`, the symbol of a call, the labels of `internString` and `internArray`, and the function
and epilogue labels of `renderAssembly`.

Names are built by gluing words, identifiers and counters together. Here they are the texts the
assembler sees.
-/

namespace GatoCore.Native

/-! ## Texts -/

def decimal (n : ℕ) : List Char := Nat.toDigits 10 n

def Symbol.text : Symbol → List Char
  | .main => ['m', 'a', 'i', 'n']
  | .fn name => ['p', 't', 'j', 's', '_', 'f', 'n', '_'] ++ name.toList

def LabelKind.text : LabelKind → List Char
  | .thenL => ['t', 'h', 'e', 'n']
  | .elseL => ['e', 'l', 's', 'e']
  | .ifend => ['i', 'f', 'e', 'n', 'd']
  | .loop => ['l', 'o', 'o', 'p']
  | .body => ['b', 'o', 'd', 'y']
  | .loopend => ['l', 'o', 'o', 'p', 'e', 'n', 'd']
  | .foreach => ['f', 'o', 'r', 'e', 'a', 'c', 'h']
  | .foreachBody => ['f', 'o', 'r', 'e', 'a', 'c', 'h', '_', 'b', 'o', 'd', 'y']
  | .foreachEnd => ['f', 'o', 'r', 'e', 'a', 'c', 'h', '_', 'e', 'n', 'd']

/-- `newLabel`. -/
def Label.text (symbol : Symbol) (l : Label) : List Char :=
  '.' :: symbol.text ++ '_' :: l.kind.text ++ '_' :: decimal l.index

/-- `epilogueLabel` of `renderAssembly`. -/
def epilogueText (symbol : Symbol) : List Char := '.' :: symbol.text ++ ['_', 'r', 'e', 't']

def DataLabel.text : DataLabel → List Char
  | .str i => ['.', 'L', 'C'] ++ decimal i
  | .arr i => ['.', 'L', 'A', 'R', 'R', '_'] ++ decimal i

/-- `itemsLabel` of `internArray`. -/
def itemsText (i : ℕ) : List Char :=
  ['.', 'L', 'A', 'R', 'R', '_', 'I', 'T', 'E', 'M', 'S', '_'] ++ decimal i

def RuntimeTy.text : RuntimeTy → String
  | .i64 => "i64"
  | .bool => "bool"
  | .null => "null"
  | .str => "str"
  | .array => "array"

/-- The functions of `native_runtime.c`. -/
def RuntimeFn.text : RuntimeFn → String
  | .print type => "ptjs_print_" ++ type.text
  | .observar type => "ptjs_observar_" ++ type.text
  | .identificar type => "ptjs_identificar_" ++ type.text
  | .strlen => "ptjs_strlen"
  | .arrayLen => "ptjs_array_len"
  | .arrayGetI64 => "ptjs_array_get_i64"
  | .arrayGetPtr => "ptjs_array_get_ptr"
  | .stringCharAt => "ptjs_string_char_at"

/-! ## The names of a unit -/

/-- The labels a function defines: its symbol, those of its code and that of its epilogue. -/
def functionLabels (symbol : Symbol) (labels : List Label) : List (List Char) :=
  symbol.text :: (labels.map (Label.text symbol) ++ [epilogueText symbol])

/-- The labels of the data sections. -/
def dataLabels (consts : ConstTables) : List (List Char) :=
  (List.range consts.stringList.length).map (fun i => (DataLabel.str i).text) ++
    (List.range consts.arrayList.length).flatMap fun i => [itemsText i, (DataLabel.arr i).text]

/-- The labels defined in the assembly of a unit. -/
def definedLabels (unit : IRUnit) : List (List Char) :=
  dataLabels unit.consts ++
    unit.functions.flatMap fun fn => functionLabels fn.symbol (labelsOf fn.instructions)

/-- The names an instruction refers to. -/
def Instr.references (symbol : Symbol) : Instr → List (List Char)
  | .constStr _ data => [data.text]
  | .constPtr _ data _ => [data.text]
  | .call _ callee _ _ => [callee.text]
  | .callRuntime _ fn _ _ => [fn.text.toList]
  | .print _ type => [(RuntimeFn.print type).text.toList]
  | .jmp target => [target.text symbol]
  | .br _ thenLabel elseLabel => [thenLabel.text symbol, elseLabel.text symbol]
  | .ret _ _ => [epilogueText symbol]
  | _ => []

/-- The names the words of a list refer to. -/
def ConstValue.references (c : ConstValue) : List (List Char) :=
  match c.value with
  | .imm _ => []
  | .label label => [label.text]

/-- The names the assembly of a unit refers to. -/
def references (unit : IRUnit) : List (List Char) :=
  ((List.range unit.consts.arrayList.length).map itemsText ++
    unit.consts.arrayList.flatMap fun entry => entry.items.flatMap ConstValue.references) ++
    unit.functions.flatMap fun fn => fn.instructions.flatMap (Instr.references fn.symbol)

/-! ## ControlStmt statements -/

inductive ControlStmt where
  | se
  | enquanto
  | paraCada
deriving DecidableEq

namespace ControlStmt

/-- The labels of a control statement, from the counter `n` on. -/
def labels (n : ℕ) : ControlStmt → List Label
  | .se => [⟨.thenL, n⟩, ⟨.elseL, n + 1⟩, ⟨.ifend, n + 2⟩]
  | .enquanto => [⟨.loop, n⟩, ⟨.body, n + 1⟩, ⟨.loopend, n + 2⟩]
  | .paraCada => [⟨.foreach, n⟩, ⟨.foreachBody, n + 1⟩, ⟨.foreachEnd, n + 2⟩]

/-- The hidden locals of a control statement. -/
def hidden (n : ℕ) : ControlStmt → List String
  | .paraCada => [eachName n, iterName n]
  | _ => []

end ControlStmt

mutual
/-- The control statements of a statement, outer ones first. -/
def Stmt.controls : Stmt → List ControlStmt
  | .ifElse _ thenBody elseBody => .se :: (bodyControls thenBody ++ bodyControls elseBody)
  | .while _ body => .enquanto :: bodyControls body
  | .forEach _ _ body => .paraCada :: bodyControls body
  | _ => []

def bodyControls : List Stmt → List ControlStmt
  | [] => []
  | s :: body => s.controls ++ bodyControls body
end

/-- The labels of control statements; each takes three numbers. -/
def controlLabels (n : ℕ) : List ControlStmt → List Label
  | [] => []
  | c :: cs => c.labels n ++ controlLabels (n + 3) cs

/-- The hidden locals of control statements. -/
def hiddenNames (n : ℕ) : List ControlStmt → List String
  | [] => []
  | c :: cs => c.hidden n ++ hiddenNames (n + 3) cs

/-! ## Variables -/

mutual
/-- The names an expression looks up as variables. -/
def Expr.variables : Expr → List String
  | .identifier name => [name]
  | .array items => variablesOf items
  | .unary _ e => e.variables
  | .binary _ l r => l.variables ++ r.variables
  | .call _ args => variablesOf args
  | _ => []

def variablesOf : List Expr → List String
  | [] => []
  | e :: es => e.variables ++ variablesOf es
end

mutual
def Stmt.variables : Stmt → List String
  | .define name e => name :: e.variables
  | .assign name e => name :: e.variables
  | .show e => e.variables
  | .exprStmt e => e.variables
  | .ret none => []
  | .ret (some e) => e.variables
  | .ifElse test thenBody elseBody =>
      test.variables ++ (bodyVariables thenBody ++ bodyVariables elseBody)
  | .while test body => test.variables ++ bodyVariables body
  | .forEach binding iterable body => binding :: (iterable.variables ++ bodyVariables body)

def bodyVariables : List Stmt → List String
  | [] => []
  | s :: body => s.variables ++ bodyVariables body
end

/-- The variables of each body of a program, with the body. -/
def Program.bodies (program : Program) : List (List String × List Stmt) :=
  program.functions.map (fun fn => (fn.params ++ bodyVariables fn.body, fn.body)) ++
    [(bodyVariables program.body, program.body)]

/-! ## Freshness -/

/-- No hidden local of the code of a body is looked up by the name of a variable. -/
def KeepsHidden (body : List String × List Stmt) (ir : IRFunction) : Prop :=
  ∀ loc ∈ ir.locals, loc.name ∈ hiddenNames 0 (bodyControls body.2) → loc.name ∉ body.1

/-- The names of a compiled program are fresh: no label is defined twice, every name referred to is
defined, and no variable has the name of a hidden local. -/
structure NamesFresh (program : Program) (unit : IRUnit) : Prop where
  labels : (definedLabels unit).Nodup
  references : ∀ r ∈ references unit, r ∈ definedLabels unit ∨ ∃ fn : RuntimeFn, r = fn.text.toList
  hidden : List.Forall₂ KeepsHidden program.bodies unit.functions

/-! ## Texts determine names -/

theorem decimal_injective {m n : ℕ} (h : decimal m = decimal n) : m = n := by
  have := congrArg (fun cs => Nat.ofDigitChars 10 cs 0) h
  simpa [decimal] using this

theorem underscore_not_mem_decimal (n : ℕ) : '_' ∉ decimal n := Nat.underscore_not_in_toDigits

theorem isDigit_of_mem_decimal {n : ℕ} {c : Char} (h : c ∈ decimal n) : c.isDigit = true :=
  Nat.isDigit_of_mem_toDigits (by omega) (by omega) h

/-- A text is cut at its last underscore in one way. -/
theorem append_underscore_inj {a b d e : List Char} (hd : '_' ∉ d) (he : '_' ∉ e) :
    a ++ '_' :: d = b ++ '_' :: e ↔ a = b ∧ d = e := by
  constructor
  · intro h
    rw [List.append_eq_append_iff] at h
    rcases h with ⟨c, rfl, hc⟩ | ⟨c, rfl, hc⟩
    · cases c with
      | nil => exact ⟨by simp, (List.cons.inj hc).2⟩
      | cons x c =>
          have hmem : '_' ∈ d := by
            rw [(List.cons.inj hc).2]
            simp
          exact absurd hmem hd
    · cases c with
      | nil => exact ⟨by simp, (List.cons.inj hc).2.symm⟩
      | cons x c =>
          have hmem : '_' ∈ e := by
            rw [(List.cons.inj hc).2]
            simp
          exact absurd hmem he
  · rintro ⟨rfl, rfl⟩
    rfl

theorem Symbol.text_injective {a b : Symbol} (h : a.text = b.text) : a = b := by
  cases a <;> cases b <;> simp [Symbol.text] at h ⊢
  exact String.toList_inj.mp h

/-- The part of a label kind before its last word. -/
def LabelKind.stem : LabelKind → List Char
  | .foreachBody => ['_', 'f', 'o', 'r', 'e', 'a', 'c', 'h']
  | .foreachEnd => ['_', 'f', 'o', 'r', 'e', 'a', 'c', 'h']
  | _ => []

/-- The last word of a label kind. -/
def LabelKind.word : LabelKind → List Char
  | .foreachBody => ['b', 'o', 'd', 'y']
  | .foreachEnd => ['e', 'n', 'd']
  | kind => kind.text

theorem LabelKind.text_eq (kind : LabelKind) (a : List Char) :
    a ++ '_' :: kind.text = (a ++ kind.stem) ++ '_' :: kind.word := by
  cases kind <;> simp [LabelKind.text, LabelKind.stem, LabelKind.word]

theorem LabelKind.underscore_not_mem_word (kind : LabelKind) : '_' ∉ kind.word := by
  cases kind <;> decide

/-- Only the two bodies end in the same word. -/
theorem LabelKind.eq_of_word_eq {a b : LabelKind} (h : a.word = b.word) :
    a = b ∨ (a = .body ∧ b = .foreachBody) ∨ (a = .foreachBody ∧ b = .body) := by
  revert h
  cases a <;> cases b <;> decide

/-- Labels of functions with the same text: the same label, or the bodies of an `enquanto` and of a
`para cada` of two functions whose names differ by `_foreach`. -/
theorem Label.text_eq_iff {s t : Symbol} {l m : Label} :
    l.text s = m.text t ↔ (s = t ∧ l = m) ∨ (l.index = m.index ∧
      ((l.kind = .body ∧ m.kind = .foreachBody ∧ s.text = t.text ++
        ['_', 'f', 'o', 'r', 'e', 'a', 'c', 'h']) ∨
        (l.kind = .foreachBody ∧ m.kind = .body ∧ t.text = s.text ++
            ['_', 'f', 'o', 'r', 'e', 'a', 'c', 'h']))) := by
  obtain ⟨k, i⟩ := l
  obtain ⟨k', j⟩ := m
  have hcut : Label.text s ⟨k, i⟩ = Label.text t ⟨k', j⟩ ↔
      (s.text ++ k.stem = t.text ++ k'.stem ∧ k.word = k'.word) ∧ i = j := by
    unfold Label.text
    rw [append_underscore_inj (underscore_not_mem_decimal _) (underscore_not_mem_decimal _),
      List.cons_append, List.cons_append, List.cons.injEq, LabelKind.text_eq, LabelKind.text_eq,
      append_underscore_inj k.underscore_not_mem_word k'.underscore_not_mem_word]
    simp only [true_and]
    exact and_congr_right fun _ => ⟨decimal_injective, fun h => h ▸ rfl⟩
  rw [hcut]
  constructor
  · rintro ⟨⟨hstem, hword⟩, rfl⟩
    rcases LabelKind.eq_of_word_eq hword with rfl | ⟨rfl, rfl⟩ | ⟨rfl, rfl⟩
    · exact .inl ⟨Symbol.text_injective (List.append_cancel_right hstem), rfl⟩
    · exact .inr ⟨rfl, .inl ⟨rfl, rfl, by simpa [LabelKind.stem] using hstem⟩⟩
    · exact .inr ⟨rfl, .inr ⟨rfl, rfl, by simpa [LabelKind.stem] using hstem.symm⟩⟩
  · rintro (⟨rfl, heq⟩ | ⟨hidx, ⟨rfl, rfl, hs⟩ | ⟨rfl, rfl, hs⟩⟩)
    · cases heq
      exact ⟨⟨rfl, rfl⟩, rfl⟩
    · exact ⟨⟨by simpa [LabelKind.stem] using hs, rfl⟩, hidx⟩
    · exact ⟨⟨by simpa [LabelKind.stem] using hs.symm, rfl⟩, hidx⟩

/-! ## The labels of a body -/

theorem controlLabels_append (n : ℕ) (a b : List ControlStmt) :
    controlLabels n (a ++ b) = controlLabels n a ++ controlLabels (n + 3 * a.length) b := by
  induction a generalizing n with
  | nil => simp [controlLabels]
  | cons c a ih =>
      have hcount : n + 3 + 3 * a.length = n + 3 * (a.length + 1) := by omega
      rw [List.cons_append, controlLabels, ih, controlLabels, List.append_assoc, List.length_cons,
        hcount]

/-- The labels placed between two contexts are those of the control statements between them. -/
structure PlacesLabels (ctx ctx' : LoweringContext) (controls : List ControlStmt) : Prop where
  count : ctx'.labelCount = ctx.labelCount + 3 * controls.length
  placed : ∃ new, labelsOf ctx'.instructions = labelsOf ctx.instructions ++ new ∧
    new.Perm (controlLabels ctx.labelCount controls)

theorem PlacesLabels.of_eq {ctx ctx' : LoweringContext} (hcount : ctx'.labelCount = ctx.labelCount)
    (h : labelsOf ctx'.instructions = labelsOf ctx.instructions) : PlacesLabels ctx ctx' [] :=
  ⟨by simpa using hcount, [], by simpa using h, .refl _⟩

theorem PlacesLabels.of_chain {lo : ℕ} {ctx ctx₁ ctx' : LoweringContext} (h : DefChain lo ctx ctx₁)
    (hcount : ctx'.labelCount = ctx₁.labelCount)
    (h' : labelsOf ctx'.instructions = labelsOf ctx₁.instructions) : PlacesLabels ctx ctx' [] :=
  .of_eq (hcount.trans h.labelCount) (h'.trans h.labelsOf)

theorem PlacesLabels.trans {a b c : LoweringContext} {cs cs' : List ControlStmt}
    (h : PlacesLabels a b cs) (h' : PlacesLabels b c cs') : PlacesLabels a c (cs ++ cs') := by
  obtain ⟨new, heq, hperm⟩ := h.placed
  obtain ⟨new', heq', hperm'⟩ := h'.placed
  refine ⟨?_, new ++ new', by rw [heq', heq, List.append_assoc], ?_⟩
  · rw [h'.count, h.count, List.length_append]
    omega
  · rw [controlLabels_append, ← h.count]
    exact hperm.append hperm'

/-- A control statement: three labels of its own around those of its parts. -/
theorem PlacesLabels.compound {ctx ctx' : LoweringContext} (base a b a' b' : LoweringContext)
    {c : ControlStmt} {cs cs' : List ControlStmt} {k₀ k₁ k₂ : LabelKind}
    (hc : c.labels base.labelCount = [base.labelAt k₀ 0, base.labelAt k₁ 1, base.labelAt k₂ 2])
    (hbase : base.labelCount = ctx.labelCount)
    (ha : labelsOf a.instructions = labelsOf ctx.instructions ++ [base.labelAt k₀ 0])
    (hac : a.labelCount = base.labelCount + 3) (hab : PlacesLabels a b cs)
    (hb : labelsOf a'.instructions = labelsOf b.instructions ++ [base.labelAt k₁ 1])
    (hb' : a'.labelCount = b.labelCount) (hab' : PlacesLabels a' b' cs')
    (hend : labelsOf ctx'.instructions = labelsOf b'.instructions ++ [base.labelAt k₂ 2])
    (hend' : ctx'.labelCount = b'.labelCount) : PlacesLabels ctx ctx' (c :: (cs ++ cs')) := by
  obtain ⟨new, heq, hperm⟩ := hab.placed
  obtain ⟨new', heq', hperm'⟩ := hab'.placed
  have hcount := hab.count
  have hcount' := hab'.count
  refine ⟨?_, base.labelAt k₀ 0 :: new ++ base.labelAt k₁ 1 :: new' ++ [base.labelAt k₂ 2], ?_, ?_⟩
  · rw [List.length_cons, List.length_append]
    omega
  · rw [hend, heq', hb, heq, ha]
    simp
  · rw [controlLabels, ← hbase, hc, controlLabels_append]
    have hinner : (new ++ new').Perm (controlLabels (base.labelCount + 3) cs ++
        controlLabels (base.labelCount + 3 + 3 * cs.length) cs') := by
      rw [hac] at hperm
      rw [hb', hcount, hac] at hperm'
      exact hperm.append hperm'
    refine List.Perm.trans ?_ (hinner.append_left _)
    -- the second and third label move before the labels of the parts
    have hmove : (new ++ base.labelAt k₁ 1 :: new' ++ [base.labelAt k₂ 2]).Perm
        (base.labelAt k₁ 1 :: base.labelAt k₂ 2 :: (new ++ new')) := by
      refine (List.perm_append_singleton _ _).trans ?_
      refine (List.Perm.cons _ List.perm_middle).trans ?_
      exact .swap _ _ _
    simpa using hmove.cons (base.labelAt k₀ 0)

mutual
/-- The labels of a statement are those of its control statements. -/
theorem StmtLowers.placesLabels {table : FunctionTable} {ctx ctx' : LoweringContext} {s : Stmt} :
    StmtLowers table ctx s ctx' → PlacesLabels ctx ctx' s.controls
  | .define he hloc =>
      .of_chain he.facts.chain hloc.labelCount (by simp [labelsOf, hloc.instructions])
  | .assign _ he _ => .of_chain he.facts.chain rfl (by simp [labelsOf])
  | .show he => .of_chain he.facts.chain rfl (by simp [labelsOf])
  | .exprStmt he => .of_chain he.facts.chain rfl rfl
  | .ret he _ => .of_chain he.facts.chain rfl (by simp [labelsOf])
  | .retDefault hv _ => .of_chain hv.facts.chain rfl (by simp [labelsOf])
  | @StmtLowers.ifElse _ _ base ctx₂ ctx₃ _ t _ _ ht _ hthen helse =>
      .compound base (base.ifHead t) ctx₂ (base.ifMiddle ctx₂) ctx₃ rfl ht.facts.chain.labelCount
        (by rw [labelsOf_ifHead, ht.facts.chain.labelsOf]) (by simp [LoweringContext.ifHead])
        hthen.placesLabels (labelsOf_ifMiddle _ _) (by simp [LoweringContext.ifMiddle])
        helse.placesLabels (labelsOf_ifTail _ _) (by simp [LoweringContext.ifTail])
  | @StmtLowers.while _ _ ctx₁ ctx₂ _ t _ ht _ hbody =>
      .compound ctx ctx.whileHead ctx₁ (ctx.whileTest ctx₁ t) ctx₂ rfl rfl (labelsOf_whileHead _)
        (by simp [LoweringContext.whileHead]) (.of_chain ht.facts.chain rfl rfl)
        (labelsOf_whileTest _ _ _) (by simp [LoweringContext.whileTest])
        hbody.placesLabels (labelsOf_whileTail _ _) (by simp [LoweringContext.whileTail])
  | @StmtLowers.forEach _ _ base ctx₁ ctx₂ _ _ v loc _ hv hloc hbody =>
      .compound base (base.forEachStart v) (base.forEachStart v) (base.forEachItem ctx₁ v loc) ctx₂
        rfl hv.facts.chain.labelCount
        (by rw [labelsOf_forEachStart, hv.facts.chain.labelsOf])
        (by simp [LoweringContext.forEachStart, LoweringContext.forEachInit]) (.of_eq rfl rfl)
        (by rw [labelsOf_forEachItem, hloc.instructions, labelsOf_forEachTest])
        (by rw [forEachItem_labelCount, hloc.labelCount, forEachTest_labelCount])
        hbody.placesLabels (labelsOf_forEachTail _ _)
        (by simp [LoweringContext.forEachTail, LoweringContext.forEachStep])

theorem StmtsLower.placesLabels {table : FunctionTable} {ctx ctx' : LoweringContext}
    {body : List Stmt} : StmtsLower table ctx body ctx' → PlacesLabels ctx ctx' (bodyControls body)
  | .nil => .of_eq rfl rfl
  | .cons hs hbody => hs.placesLabels.trans hbody.placesLabels
end

/-! ## References -/

/-- The labels, constants and functions an instruction refers to exist. -/
def Instr.Resolves (table : FunctionTable) (consts : ConstTables) (labels : List Label) :
    Instr → Prop
  | .constStr _ data => ∃ type, consts.labelType data = some type
  | .constPtr _ data _ => ∃ type, consts.labelType data = some type
  | .call _ callee _ _ => ∃ name entry, callee = .fn name ∧ table.lookup name = some entry
  | .jmp target => target ∈ labels
  | .br _ thenLabel elseLabel => thenLabel ∈ labels ∧ elseLabel ∈ labels
  | _ => True

section Resolves

variable {table : FunctionTable} {consts : ConstTables} {labels : List Label}

/-- The code of a context, against the constants and labels of the whole function. -/
def Resolved (table : FunctionTable) (consts : ConstTables) (labels : List Label)
    (ctx : LoweringContext) : Prop :=
  ∀ inst ∈ ctx.instructions, inst.Resolves table consts labels

/-- A context on the way to one with the given constants and labels. -/
structure Within (consts : ConstTables) (labels : List Label) (ctx : LoweringContext) : Prop where
  consts : ctx.consts.Extends consts
  labels : labelsOf ctx.instructions ⊆ labels

theorem Within.of_grows {ctx ctx' : LoweringContext} (h : Within consts labels ctx')
    (hg : ctx.Grows ctx') : Within consts labels ctx := by
  refine ⟨hg.consts.trans h.consts, ?_⟩
  obtain ⟨rest, hrest⟩ := hg.instructions
  intro l hl
  apply h.labels
  rw [← hrest, labelsOf_append]
  exact List.mem_append_left _ hl

theorem Within.mem_labels {ctx ctx' : LoweringContext} (h : Within consts labels ctx')
    (hg : ctx.Grows ctx') {ls : List Label} {l : Label}
    (hl : labelsOf ctx.instructions = ls ++ [l]) : l ∈ labels := by
  apply (h.of_grows hg).labels
  rw [hl]
  exact List.mem_append_right _ (List.mem_singleton_self l)

theorem Resolved.append {ctx ctx' : LoweringContext} (h : Resolved table consts labels ctx)
    (insts : List Instr) (heq : ctx'.instructions = ctx.instructions ++ insts)
    (hinsts : ∀ inst ∈ insts, inst.Resolves table consts labels) :
    Resolved table consts labels ctx' := by
  intro inst hinst
  rw [heq] at hinst
  rcases List.mem_append.mp hinst with hinst | hinst
  · exact h inst hinst
  · exact hinsts inst hinst

theorem Resolved.instr {ctx ctx' : LoweringContext} (h : Resolved table consts labels ctx)
    {inst : Instr} (heq : ctx'.instructions = ctx.instructions ++ [inst])
    (hinst : inst.Resolves table consts labels) : Resolved table consts labels ctx' := by
  refine h.append [inst] heq ?_
  intro i hi
  exact List.mem_singleton.mp hi ▸ hinst

theorem ConstValue.resolves_instr {c : ConstValue} (h : c.Typed consts) (dest : ℕ) :
    (c.instr dest).Resolves table consts labels := by
  obtain ⟨type, value⟩ := c
  cases value with
  | imm value => trivial
  | label label => exact ⟨type, h⟩

theorem Within.of_define {ctx : LoweringContext} {type : Option Ty} {inst : Instr}
    (h : Within consts labels (ctx.define type inst)) : Within consts labels ctx :=
  h.of_grows ((LoweringContext.Grows.refl ctx).define type inst)

mutual
/-- Everything the code of an expression refers to exists. -/
theorem ExprLowers.resolved {ctx ctx' : LoweringContext} {e : Expr} {v : Operand} :
    ExprLowers table ctx e v ctx' → Within consts labels ctx' →
      Resolved table consts labels ctx → Resolved table consts labels ctx'
  | .literal hc, hw, h =>
      h.instr rfl (ConstValue.resolves_instr
        ((buildConstValue_extends hc).2.mono hw.consts.strings hw.consts.arrays) _)
  | .identifier _, _, h => h.instr rfl trivial
  | .neg he _, hw, h => (he.resolved hw.of_define h).instr rfl trivial
  | .not he _, hw, h => (he.resolved hw.of_define h).instr rfl trivial
  | .tamanhoDe he _, hw, h => (he.resolved hw.of_define h).instr rfl trivial
  | .tipoDe he, hw, h =>
      have hw₁ := hw.of_define.of_grows
        ((LoweringContext.Grows.refl _).withConsts (internString_extends _ _))
      (he.resolved hw₁ h).instr rfl ⟨_, ConstTables.labelType_mono hw.consts.strings
        hw.consts.arrays (internString_labelType _ _)⟩
  | .identificar he, hw, h => (he.resolved hw.of_define h).instr rfl trivial
  | .observar he, hw, h => (he.resolved hw.of_define h).instr rfl trivial
  | .compare hl hr _ _, hw, h =>
      (hr.resolved hw.of_define (hl.resolved (hw.of_define.of_grows hr.grows) h)).instr rfl trivial
  | @ExprLowers.logical _ _ _ ctx₂ _ bin _ _ a b hl hr _ _ _ _, hw, h => by
      have hw₂ := hw.of_define.of_define.of_define
      have hr' := hr.resolved hw₂ (hl.resolved (hw₂.of_grows hr.grows) h)
      refine hr'.append [.cmp ctx₂.tempCount .ne a.temp (.imm 0),
        .cmp (ctx₂.tempCount + 1) .ne b.temp (.imm 0),
        .bin (ctx₂.tempCount + 2) bin ctx₂.tempCount (ctx₂.tempCount + 1)] (by simp) ?_
      simp [Instr.Resolves]
  | .arith hl hr _ _ _ _, hw, h =>
      (hr.resolved hw.of_define (hl.resolved (hw.of_define.of_grows hr.grows) h)).instr rfl trivial
  | .call _ hlookup _ hargs, hw, h =>
      (hargs.resolved hw.of_define h).instr rfl ⟨_, _, rfl, hlookup⟩

theorem ArgsLower.resolved {ctx ctx' : LoweringContext} {types : List (Option Ty)}
    {args : List Expr} {vs : List Operand} :
    ArgsLower table ctx types args vs ctx' → Within consts labels ctx' →
      Resolved table consts labels ctx → Resolved table consts labels ctx'
  | .nil, _, h => h
  | .cons hv _ hvs, hw, h => hvs.resolved hw (hv.resolved (hw.of_grows hvs.facts.1.grows) h)
end

theorem DefaultLowers.resolved {ctx ctx' : LoweringContext} {type : Option Ty} {v : Operand}
    (hv : DefaultLowers table ctx type v ctx') (hw : Within consts labels ctx')
    (h : Resolved table consts labels ctx) : Resolved table consts labels ctx' := by
  cases hv with
  | array _ => exact h.instr rfl trivial
  | literal _ he => exact he.resolved hw h

theorem Within.of_withInstr {ctx : LoweringContext} {inst : Instr}
    (h : Within consts labels (ctx.withInstr inst)) : Within consts labels ctx :=
  h.of_grows ((LoweringContext.Grows.refl ctx).withInstr inst)

mutual
theorem StmtLowers.resolved {ctx ctx' : LoweringContext} {s : Stmt} :
    StmtLowers table ctx s ctx' → Within consts labels ctx' →
      Resolved table consts labels ctx → Resolved table consts labels ctx'
  | .define he hloc, hw, h => by
      have hvalue := he.resolved (hw.of_withInstr.of_grows hloc.grows) h
      refine hvalue.append [_] (by rw [← hloc.instructions]; rfl) ?_
      simp [Instr.Resolves]
  | .assign _ he _, hw, h => (he.resolved hw.of_withInstr h).instr rfl trivial
  | .show he, hw, h => (he.resolved hw.of_withInstr h).instr rfl trivial
  | .exprStmt he, hw, h => he.resolved hw h
  | .ret he _, hw, h => (he.resolved hw.of_withInstr h).instr rfl trivial
  | .retDefault hv _, hw, h => (hv.resolved hw.of_withInstr h).instr rfl trivial
  | @StmtLowers.ifElse _ _ base ctx₂ ctx₃ _ t _ _ ht _ hthen helse, hw, h => by
      have hg₃ := (LoweringContext.Grows.refl ctx₃).ifTail base
      have hg₂ := ((LoweringContext.Grows.refl ctx₂).ifMiddle base).trans (helse.grows.trans hg₃)
      have hg₁ := hthen.grows.trans hg₂
      -- the labels that the jumps name are set later in the same code
      have hthenL : base.labelAt .thenL 0 ∈ labels := hw.mem_labels hg₁ (labelsOf_ifHead base t)
      have helseL : base.labelAt .elseL 1 ∈ labels :=
        hw.mem_labels (helse.grows.trans hg₃) (labelsOf_ifMiddle base ctx₂)
      have hend : base.labelAt .ifend 2 ∈ labels :=
        hw.mem_labels (.refl _) (labelsOf_ifTail base ctx₃)
      have htest := ht.resolved
        (hw.of_grows (((LoweringContext.Grows.refl base).ifHead t).trans hg₁)) h
      have hhead : Resolved table consts labels (base.ifHead t) :=
        htest.append _ (base.ifHead_instructions t) (by simp [Instr.Resolves, hthenL, helseL])
      have hthen' := hthen.resolved (hw.of_grows hg₂) hhead
      have hmiddle : Resolved table consts labels (base.ifMiddle ctx₂) :=
        hthen'.append _ (base.ifMiddle_instructions ctx₂) (by simp [Instr.Resolves, hend])
      exact (helse.resolved (hw.of_grows hg₃) hmiddle).instr (base.ifTail_instructions ctx₃) trivial
  | @StmtLowers.while _ _ ctx₁ ctx₂ _ t _ ht _ hbody, hw, h => by
      have hg₂ := (LoweringContext.Grows.refl ctx₂).whileTail ctx
      have hg₁ := ((LoweringContext.Grows.refl ctx₁).whileTest ctx t).trans (hbody.grows.trans hg₂)
      have hloop : ctx.labelAt .loop 0 ∈ labels :=
        hw.mem_labels (ht.grows.trans hg₁) (labelsOf_whileHead ctx)
      have hbodyL : ctx.labelAt .body 1 ∈ labels :=
        hw.mem_labels (hbody.grows.trans hg₂) (labelsOf_whileTest ctx ctx₁ t)
      have hend : ctx.labelAt .loopend 2 ∈ labels :=
        hw.mem_labels (.refl _) (labelsOf_whileTail ctx ctx₂)
      have hhead : Resolved table consts labels ctx.whileHead :=
        h.instr ctx.whileHead_instructions trivial
      have htest : Resolved table consts labels (ctx.whileTest ctx₁ t) :=
        (ht.resolved (hw.of_grows hg₁) hhead).append _ (ctx.whileTest_instructions ctx₁ t)
          (by simp [Instr.Resolves, hbodyL, hend])
      exact (hbody.resolved (hw.of_grows hg₂) htest).append _ (ctx.whileTail_instructions ctx₂)
        (by simp [Instr.Resolves, hloop])
  | @StmtLowers.forEach _ _ base ctx₁ ctx₂ _ _ v loc _ hv hloc hbody, hw, h => by
      have hg₂ := (LoweringContext.Grows.refl ctx₂).forEachTail base
      have hgi := hbody.grows.trans hg₂
      have hg₁ := ((LoweringContext.Grows.refl ctx₁).forEachItem base v loc).trans hgi
      have hgt := hloc.grows.trans hg₁
      have hgs := (((LoweringContext.Grows.forEachCond base v).withInstr _).withInstr _).trans hgt
      have hloop : base.labelAt .foreach 0 ∈ labels :=
        hw.mem_labels hgs (labelsOf_forEachStart base v)
      have hbodyL : base.labelAt .foreachBody 1 ∈ labels :=
        hw.mem_labels hgt (labelsOf_forEachTest base v)
      have hend : base.labelAt .foreachEnd 2 ∈ labels :=
        hw.mem_labels (.refl _) (labelsOf_forEachTail base ctx₂)
      have hitem := hv.resolved
        (hw.of_grows (((LoweringContext.Grows.refl base).forEachTest v).trans hgt)) h
      have hstart : Resolved table consts labels (base.forEachStart v) :=
        hitem.append _ (base.forEachStart_instructions v) (by simp [Instr.Resolves])
      have hcond : Resolved table consts labels (base.forEachCond v) :=
        hstart.append _ (base.forEachCond_instructions v) (by simp [Instr.Resolves])
      have htest : Resolved table consts labels (base.forEachTest v) :=
        hcond.append _ (base.forEachTest_instructions v) (by simp [Instr.Resolves, hbodyL, hend])
      have hread : Resolved table consts labels (base.forEachItem ctx₁ v loc) :=
        htest.append _ (hloc.instructions ▸ base.forEachItem_instructions ctx₁ v loc)
          (by simp [Instr.Resolves])
      have hstep : Resolved table consts labels (base.forEachStep ctx₂) :=
        (hbody.resolved (hw.of_grows hg₂) hread).append _ (base.forEachStep_instructions ctx₂)
          (by simp [Instr.Resolves])
      exact hstep.append _ (base.forEachTail_instructions ctx₂) (by simp [Instr.Resolves, hloop])

theorem StmtsLower.resolved {ctx ctx' : LoweringContext} {body : List Stmt} :
    StmtsLower table ctx body ctx' → Within consts labels ctx' →
      Resolved table consts labels ctx → Resolved table consts labels ctx'
  | .nil, _, h => h
  | .cons hs hbody, hw, h => hbody.resolved hw (hs.resolved (hw.of_grows hbody.grows) h)
end

theorem BodyLowers.resolved {start final : LoweringContext} {body : List Stmt}
    (h : BodyLowers table start body final) (hnil : start.instructions = [])
    (hconsts : final.consts.Extends consts) :
    Resolved table consts (labelsOf final.instructions) final := by
  have hw : Within consts (labelsOf final.instructions) final := ⟨hconsts, List.Subset.refl _⟩
  have hstart : Resolved table consts (labelsOf final.instructions) start := by
    intro inst hinst
    rw [hnil] at hinst
    cases hinst
  cases h with
  | returns hs _ => exact hs.resolved hw hstart
  | fallsOff hs _ hv =>
      have hw₁ := hw.of_withInstr
      exact (hv.resolved hw₁ (hs.resolved (hw₁.of_grows hv.facts.chain.grows) hstart)).instr rfl
        trivial

end Resolves

/-! ## Hidden locals -/

theorem hiddenNames_append (n : ℕ) (a b : List ControlStmt) :
    hiddenNames n (a ++ b) = hiddenNames n a ++ hiddenNames (n + 3 * a.length) b := by
  induction a generalizing n with
  | nil => simp [hiddenNames]
  | cons c a ih =>
      have hcount : n + 3 + 3 * a.length = n + 3 * (a.length + 1) := by omega
      rw [List.cons_append, hiddenNames, ih, hiddenNames, List.append_assoc, List.length_cons,
        hcount]

/-- The names of the locals of a context. -/
def LoweringContext.localNames (ctx : LoweringContext) : List String :=
  ctx.localList.map (·.name)

theorem LoweringContext.Grows.localNames {ctx ctx' : LoweringContext} (h : ctx.Grows ctx') :
    ctx.localNames ⊆ ctx'.localNames :=
  (h.localList.map _).subset

mutual
/-- The hidden names of a statement are names of locals. -/
theorem StmtLowers.hiddenNames_subset {table : FunctionTable} {ctx ctx' : LoweringContext}
    {s : Stmt} : StmtLowers table ctx s ctx' →
      hiddenNames ctx.labelCount s.controls ⊆ ctx'.localNames
  | .define _ _ => nofun
  | .assign _ _ _ => nofun
  | .show _ => nofun
  | .exprStmt _ => nofun
  | .ret _ _ => nofun
  | .retDefault _ _ => nofun
  | @StmtLowers.ifElse _ _ base ctx₂ ctx₃ _ t thenBody elseBody ht _ hthen helse => by
      have hcount : (base.ifMiddle ctx₂).labelCount = ctx.labelCount + 3 +
          3 * (bodyControls thenBody).length := by
        have h₁ := hthen.placesLabels.count
        have h₂ := ht.facts.chain.labelCount
        simp only [LoweringContext.ifHead, LoweringContext.ifMiddle,
          LoweringContext.withInstr_labelCount, LoweringContext.withLabels_labelCount] at h₁ ⊢
        omega
      have hthen' := hthen.hiddenNames_subset
      have helse' := helse.hiddenNames_subset
      rw [hcount] at helse'
      have hhead : (base.ifHead t).labelCount = ctx.labelCount + 3 := by
        have := ht.facts.chain.labelCount
        simp only [LoweringContext.ifHead, LoweringContext.withInstr_labelCount,
          LoweringContext.withLabels_labelCount]
        omega
      rw [hhead] at hthen'
      rw [Stmt.controls, hiddenNames, hiddenNames_append]
      have hgrows := (LoweringContext.Grows.refl ctx₂).ifMiddle base |>.trans helse.grows
      exact List.append_subset.mpr ⟨nofun, List.append_subset.mpr
        ⟨List.Subset.trans hthen' hgrows.localNames, helse'⟩⟩
  | @StmtLowers.while _ _ ctx₁ ctx₂ _ t body ht _ hbody => by
      have hcount : (ctx.whileTest ctx₁ t).labelCount = ctx.labelCount + 3 := by
        simpa [LoweringContext.whileTest, LoweringContext.whileHead] using ht.facts.chain.labelCount
      have hbody' := hbody.hiddenNames_subset
      rw [hcount] at hbody'
      exact List.append_subset.mpr ⟨nofun, hbody'⟩
  | @StmtLowers.forEach _ _ base ctx₁ ctx₂ binding iterable v loc body hv hloc hbody => by
      have hbase := hv.facts.chain.labelCount
      have hcount : (base.forEachItem ctx₁ v loc).labelCount = ctx.labelCount + 3 := by
        rw [forEachItem_labelCount, hloc.labelCount, forEachTest_labelCount]
        simp [LoweringContext.forEachStart, LoweringContext.forEachInit, hbase]
      have hbody' := hbody.hiddenNames_subset
      rw [hcount] at hbody'
      have hgrows := (((LoweringContext.Grows.forEachCond base v).withInstr _).withInstr _).trans
        (hloc.grows.trans (((LoweringContext.Grows.refl ctx₁).forEachItem base v loc).trans
          hbody.grows))
      have htail : ctx₂.Grows (base.forEachTail ctx₂) :=
        (LoweringContext.Grows.refl ctx₂).forEachTail base
      have hown :
          ControlStmt.hidden ctx.labelCount .paraCada ⊆ (base.forEachStart v).localNames := by
        rw [← hbase]
        simp [ControlStmt.hidden, LoweringContext.localNames, LoweringContext.forEachStart,
          LoweringContext.forEachInit, LoweringContext.eachLocal, LoweringContext.iterLocal,
          LoweringContext.freshLocal]
      rw [Stmt.controls, hiddenNames]
      refine List.append_subset.mpr ⟨?_, ?_⟩
      · exact List.Subset.trans hown (hgrows.trans htail).localNames
      · exact List.Subset.trans hbody' htail.localNames

theorem StmtsLower.hiddenNames_subset {table : FunctionTable} {ctx ctx' : LoweringContext}
    {body : List Stmt} : StmtsLower table ctx body ctx' →
      hiddenNames ctx.labelCount (bodyControls body) ⊆ ctx'.localNames
  | .nil => nofun
  | .cons hs hbody => by
      have hrest := hbody.hiddenNames_subset
      rw [hs.placesLabels.count] at hrest
      rw [bodyControls, hiddenNames_append]
      exact List.append_subset.mpr
        ⟨List.Subset.trans hs.hiddenNames_subset hbody.grows.localNames, hrest⟩
end

end GatoCore.Native
