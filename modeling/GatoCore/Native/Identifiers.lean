import GatoCore.Native.InferFacts
import GatoCore.Native.LowerFacts
import GatoCore.Native.Names
import GatoCore.Native.Words

/-!
# Where identifiers are looked up

Function tables, inference environments and the locals of a lowering context are plain objects: a
lookup also answers for the names every object inherits. Three kinds of names answer without a
declaration: the inherited ones, the key of the defaults in the function table, and the names
`para cada` makes up for its own locals.
-/

namespace GatoCore.Native

open Lexer GatoCore.Lib

/-! ## What a program declares -/

mutual
/-- The variables a statement introduces; in an inference environment an assignment to an unknown
variable introduces it as well. -/
def Stmt.declared (assigning : Bool) : Stmt → List String
  | .define name _ => [name]
  | .assign name _ => if assigning then [name] else []
  | .ifElse _ thenBody elseBody =>
      bodyDeclared assigning thenBody ++ bodyDeclared assigning elseBody
  | .while _ body => bodyDeclared assigning body
  | .forEach binding _ body => binding :: bodyDeclared assigning body
  | .show _ | .exprStmt _ | .ret _ => []

def bodyDeclared (assigning : Bool) : List Stmt → List String
  | [] => []
  | stmt :: body => stmt.declared assigning ++ bodyDeclared assigning body
end

/-! ## The objects the compiler consults -/

/-- `object[name]` is not `undefined`: the object has the key or inherits it. -/
def Answers (own : Prop) (name : String) : Prop := own ∨ name ∈ objectPrototypeKeys

/-- The function tables of a compilation. -/
inductive TableOf (program : Program) : FunctionTable → Prop
  /-- In front of the function that is declared next. -/
  | declaring {n : ℕ} {table : FunctionTable} :
      declareFunctions [] (program.functions.take n) = .ok table → TableOf program table
  /-- During inference, which changes types only. -/
  | inferring {table table' : FunctionTable} {calls rets : List String} :
      declareFunctions [] program.functions = .ok table → Commits calls rets table table' →
      TableOf program table'
  | analyzed {table : FunctionTable} : analyzeProgram program = .ok table → TableOf program table

/-- The environments in front of the statements of a function, with the statements still to be
inferred in them. -/
inductive EnvOf (fn : FunctionDecl) : TypeEnv → List Stmt → Prop
  | start {paramTypes : List (Option Ty)} : EnvOf fn (paramEnv fn.params paramTypes) fn.body
  | next {env env' : TypeEnv} {stmt : Stmt} {body : List Stmt} {table table' : FunctionTable}
      {changed : Bool} :
      EnvOf fn env (stmt :: body) →
      (inferStatement fn.name env stmt).run table = .ok ((env', changed), table') →
      EnvOf fn env' body
  | thenBody {env : TypeEnv} {test : Expr} {thenBody elseBody body : List Stmt} :
      EnvOf fn env (.ifElse test thenBody elseBody :: body) → EnvOf fn env thenBody
  | elseBody {env : TypeEnv} {test : Expr} {thenBody elseBody body : List Stmt} :
      EnvOf fn env (.ifElse test thenBody elseBody :: body) → EnvOf fn env elseBody
  | whileBody {env : TypeEnv} {test : Expr} {inner body : List Stmt} :
      EnvOf fn env (.while test inner :: body) → EnvOf fn env inner
  | forEachBody {env : TypeEnv} {binding : String} {iterable : Expr} {inner body : List Stmt}
      {type : Option Ty} :
      EnvOf fn env (.forEach binding iterable inner :: body) →
      EnvOf fn (Function.update env binding type) inner

/-- The contexts the bodies of a program start in, with the parameters. -/
inductive BodyStarts (program : Program) (table : FunctionTable) :
    LoweringContext → List String → List Stmt → Prop
  | function {consts : ConstTables} {fn : FunctionDecl} : fn ∈ program.functions →
      BodyStarts program table (startContext table consts fn) fn.params fn.body
  | main {consts : ConstTables} : BodyStarts program table (mainContext consts) [] program.body

/-- The contexts in which lowering looks a name up, with the statements still to be lowered in
them. -/
inductive ContextOf (table : FunctionTable) (start : LoweringContext) (body : List Stmt) :
    LoweringContext → List Stmt → Prop
  | start : ContextOf table start body start body
  | next {ctx ctx' : LoweringContext} {stmt : Stmt} {rest : List Stmt} :
      ContextOf table start body ctx (stmt :: rest) → StmtLowers table ctx stmt ctx' →
      ContextOf table start body ctx' rest
  /-- Inside an expression, behind one of its operands. -/
  | operand {ctx ctx' : LoweringContext} {e : Expr} {v : Operand} {rest : List Stmt} :
      ContextOf table start body ctx rest → ExprLowers table ctx e v ctx' →
      ContextOf table start body ctx' []
  | thenBody {ctx base : LoweringContext} {test : Expr} {t : Operand}
      {thenBody elseBody rest : List Stmt} :
      ContextOf table start body ctx (.ifElse test thenBody elseBody :: rest) →
      ExprLowers table ctx test t base →
      ContextOf table start body (base.ifHead t) thenBody
  | elseBody {ctx base ctx₂ : LoweringContext} {test : Expr} {t : Operand}
      {thenBody elseBody rest : List Stmt} :
      ContextOf table start body ctx (.ifElse test thenBody elseBody :: rest) →
      ExprLowers table ctx test t base → StmtsLower table (base.ifHead t) thenBody ctx₂ →
      ContextOf table start body (base.ifMiddle ctx₂) elseBody
  | whileHead {ctx : LoweringContext} {test : Expr} {inner rest : List Stmt} :
      ContextOf table start body ctx (.while test inner :: rest) →
      ContextOf table start body ctx.whileHead []
  | whileBody {ctx ctx₁ : LoweringContext} {test : Expr} {t : Operand} {inner rest : List Stmt} :
      ContextOf table start body ctx (.while test inner :: rest) →
      ExprLowers table ctx.whileHead test t ctx₁ →
      ContextOf table start body (ctx.whileTest ctx₁ t) inner
  /-- Where the local of the binding is looked up. -/
  | binding {ctx base : LoweringContext} {binding : String} {iterable : Expr} {v : Operand}
      {inner rest : List Stmt} :
      ContextOf table start body ctx (.forEach binding iterable inner :: rest) →
      ExprLowers table ctx iterable v base →
      ContextOf table start body (base.forEachTest v) []
  | forEachBody {ctx base ctx₁ : LoweringContext} {binding : String} {iterable : Expr}
      {v : Operand} {loc : Local} {inner rest : List Stmt} :
      ContextOf table start body ctx (.forEach binding iterable inner :: rest) →
      ExprLowers table ctx iterable v base →
      EnsuresLocal (base.forEachTest v) binding (bindingType v.type) loc ctx₁ →
      ContextOf table start body (base.forEachItem ctx₁ v loc) inner

/-! ## The property -/

/-- The tokenizer makes one identifier token of the word, wherever it finds it. -/
def LexesAsItself (word : String) : Prop :=
  ∀ (source post : List Char) (tokens : List Token) (start : Cursor),
    tokenize source = .ok tokens → Starts source start → start.rest = word.toList ++ post →
    ClassEnds isIdContinue post →
    { type := .identifier, value := word, line := start.line, col := start.col } ∈ tokens ∧
      ∃ after, Starts source (skipWhitespace false after.rest after) ∧ after.rest = post

/-- A lookup of the name succeeds only if the program declares it. -/
structure OnlyDeclared (name : String) : Prop where
  functions : ∀ (program : Program) (table : FunctionTable), TableOf program table →
    Answers (name = defaultsKey ∨ (table.lookup name).isSome) name →
    name ∈ program.functions.map (·.name)
  environments : ∀ (fn : FunctionDecl) (env : TypeEnv) (rest : List Stmt), EnvOf fn env rest →
    Answers (env name).isSome name → name ∈ fn.params ++ bodyDeclared true fn.body
  locals : ∀ (program : Program) (table : FunctionTable) (start ctx : LoweringContext)
    (params : List String) (body rest : List Stmt), analyzeProgram program = .ok table →
    BodyStarts program table start params body → ContextOf table start body ctx rest →
    Answers (ctx.locals name).isSome name → name ∈ params ++ bodyDeclared false body

/-- The names `para cada` makes up: each statement with labels takes three numbers. -/
def IsLoopName (name : String) : Prop := ∃ k, name = eachName (3 * k) ∨ name = iterName (3 * k)

/-! ## Function tables -/

theorem declareFunctions_prefix :
    ∀ {fns : List FunctionDecl} {t t' : FunctionTable} {name : String},
      declareFunctions t fns = .ok t' → name ∈ t'.shape.map Prod.fst →
      name ∈ t.shape.map Prod.fst ∨ name ∈ fns.map (·.name) := by
  intro fns
  induction fns with
  | nil =>
      intro t t' name h hname
      cases h
      exact .inl hname
  | cons fn fns ih =>
      intro t t' name h hname
      rw [declareFunctions] at h
      split at h
      · cases h
      · rcases ih h hname with hhere | hlater
        · rw [FunctionTable.shape, List.map_append, List.map_append, List.mem_append] at hhere
          rcases hhere with hold | hnew
          · exact .inl hold
          · rw [List.map_singleton, List.map_singleton, List.mem_singleton] at hnew
            exact .inr (hnew ▸ List.mem_cons_self)
        · exact .inr (List.mem_cons_of_mem _ hlater)

theorem FunctionTable.name_mem_shape {table : FunctionTable} {name : String}
    (h : (table.lookup name).isSome) : name ∈ table.shape.map Prod.fst := by
  rw [lookup, List.find?_isSome] at h
  obtain ⟨entry, hentry, hname⟩ := h
  rw [shape, List.map_map]
  exact List.mem_map.mpr ⟨entry, hentry, of_decide_eq_true hname⟩

theorem TableOf.declared {program : Program} {table : FunctionTable} (h : TableOf program table)
    {name : String} (hname : (table.lookup name).isSome) :
    name ∈ program.functions.map (·.name) := by
  have hkey := FunctionTable.name_mem_shape hname
  cases h with
  | @declaring n _ hdeclare =>
      rcases declareFunctions_prefix hdeclare hkey with hnil | hfn
      · cases hnil
      · rw [List.map_take] at hfn
        exact List.mem_of_mem_take hfn
  | inferring hdeclare hcommits =>
      rw [hcommits.shape] at hkey
      rcases declareFunctions_prefix hdeclare hkey with hnil | hfn
      · cases hnil
      · exact hfn
  | analyzed hanalyze =>
      obtain ⟨entry, hentry⟩ := Option.isSome_iff_exists.mp hname
      obtain ⟨fn, hfn, rfl, -⟩ := (analyzeProgram_tableFor hanalyze).exists_function hentry
      exact List.mem_map_of_mem hfn

/-! ## Inference environments -/

theorem isSome_update {env : TypeEnv} {key name : String} {type : Option Ty}
    (h : (Function.update env key type name).isSome) : (env name).isSome ∨ name = key := by
  by_cases heq : name = key
  · exact .inr heq
  · rw [Function.update_of_ne heq] at h
    exact .inl h

theorem paramEnv_declared {params : List String} {paramTypes : List (Option Ty)} {name : String}
    (h : (paramEnv params paramTypes name).isSome) : name ∈ params := by
  have hfold : ∀ (pairs : List (String × Option Ty)) (env : TypeEnv),
      (pairs.foldl (fun (env : TypeEnv) p => Function.update env p.1
        (some (p.2.getD defaultParamType))) env name).isSome →
      (env name).isSome ∨ name ∈ pairs.map Prod.fst := by
    intro pairs
    induction pairs with
    | nil => exact fun env hsome => .inl hsome
    | cons pair pairs ih =>
        intro env hsome
        rcases ih _ hsome with hhere | hlater
        · rcases isSome_update hhere with hold | rfl
          · exact .inl hold
          · exact .inr List.mem_cons_self
        · exact .inr (List.mem_cons_of_mem _ hlater)
  rcases hfold _ _ h with hnone | hpair
  · cases hnone
  · obtain ⟨⟨_, _⟩, hzip, rfl⟩ := List.mem_map.mp hpair
    exact (List.of_mem_zip hzip).1

/-- A statement adds the names it introduces to the environment, and no other. -/
theorem inferStatement_declared {metaName : String} {stmt : Stmt} {env env' : TypeEnv}
    {table table' : FunctionTable} {changed : Bool}
    (h : (inferStatement metaName env stmt).run table = .ok ((env', changed), table'))
    {name : String} (hname : (env' name).isSome) :
    (env name).isSome ∨ name ∈ stmt.declared true := by
  cases stmt with
  | define key expr =>
      simp only [inferStatement, run_bind_ok, run_pure_ok, Prod.mk.injEq] at h
      obtain ⟨_, _, _, ⟨rfl, _⟩, _⟩ := h
      exact (isSome_update hname).imp_right List.mem_singleton.mpr
  | assign key expr =>
      simp only [inferStatement, run_bind_ok] at h
      obtain ⟨type, t, _, h⟩ := h
      split at h
      · simp only [run_pure_ok, Prod.mk.injEq] at h
        obtain ⟨⟨rfl, _⟩, _⟩ := h
        exact (isSome_update hname).imp_right List.mem_singleton.mpr
      · split at h
        · exact (run_throw_bind_ok.mp h).elim
        · simp only [run_pure_ok, Prod.mk.injEq] at h
          obtain ⟨⟨rfl, _⟩, _⟩ := h
          exact .inl hname
  | «show» expr =>
      simp only [inferStatement, run_bind_ok, run_pure_ok, Prod.mk.injEq] at h
      obtain ⟨_, _, _, ⟨rfl, _⟩, _⟩ := h
      exact .inl hname
  | exprStmt expr =>
      simp only [inferStatement, run_bind_ok, run_pure_ok, Prod.mk.injEq] at h
      obtain ⟨_, _, _, ⟨rfl, _⟩, _⟩ := h
      exact .inl hname
  | ret value =>
      cases value with
      | none =>
          simp only [inferStatement, run_bind_ok, run_get_ok, run_pure_ok, Prod.mk.injEq] at h
          obtain ⟨_, _, _, _, _, _, ⟨rfl, _⟩, _⟩ := h
          exact .inl hname
      | some expr =>
          simp only [inferStatement, run_bind_ok, run_pure_ok, Prod.mk.injEq] at h
          obtain ⟨_, _, _, _, _, _, ⟨rfl, _⟩, _⟩ := h
          exact .inl hname
  | ifElse test thenBody elseBody =>
      simp only [inferStatement, run_bind_ok, run_pure_ok, Prod.mk.injEq] at h
      obtain ⟨_, _, _, _, _, _, _, _, _, ⟨rfl, _⟩, _⟩ := h
      exact .inl hname
  | «while» test body =>
      simp only [inferStatement, run_bind_ok, run_pure_ok, Prod.mk.injEq] at h
      obtain ⟨_, _, _, _, _, _, ⟨rfl, _⟩, _⟩ := h
      exact .inl hname
  | forEach binding iterable body =>
      simp only [inferStatement, run_bind_ok] at h
      obtain ⟨type, t, _, h⟩ := h
      split at h
      · exact (run_throw_bind_ok.mp h).elim
      · simp only [run_bind_ok, run_pure_ok, Prod.mk.injEq] at h
        obtain ⟨_, _, _, ⟨rfl, _⟩, _⟩ := h
        exact (isSome_update hname).imp_right fun heq =>
          List.mem_cons.mpr (.inl heq)

/-- The environment knows names of the function only, and what is still to be inferred introduces
names of the function only. -/
theorem EnvOf.declared {fn : FunctionDecl} {env : TypeEnv} {rest : List Stmt}
    (h : EnvOf fn env rest) :
    (∀ name, (env name).isSome → name ∈ fn.params ++ bodyDeclared true fn.body) ∧
      bodyDeclared true rest ⊆ bodyDeclared true fn.body := by
  induction h with
  | start => exact ⟨fun name hname => List.mem_append_left _ (paramEnv_declared hname), fun _ => id⟩
  | next _ hrun ih =>
      obtain ⟨henv, hrest⟩ := ih
      rw [bodyDeclared, List.append_subset] at hrest
      refine ⟨fun name hname => ?_, hrest.2⟩
      rcases inferStatement_declared hrun hname with hold | hnew
      · exact henv name hold
      · exact List.mem_append_right _ (hrest.1 hnew)
  | thenBody _ ih =>
      obtain ⟨henv, hrest⟩ := ih
      rw [bodyDeclared, Stmt.declared, List.append_subset, List.append_subset] at hrest
      exact ⟨henv, hrest.1.1⟩
  | elseBody _ ih =>
      obtain ⟨henv, hrest⟩ := ih
      rw [bodyDeclared, Stmt.declared, List.append_subset, List.append_subset] at hrest
      exact ⟨henv, hrest.1.2⟩
  | whileBody _ ih =>
      obtain ⟨henv, hrest⟩ := ih
      rw [bodyDeclared, Stmt.declared, List.append_subset] at hrest
      exact ⟨henv, hrest.1⟩
  | forEachBody _ ih =>
      obtain ⟨henv, hrest⟩ := ih
      rw [bodyDeclared, Stmt.declared, List.append_subset, List.cons_subset] at hrest
      refine ⟨fun name hname => ?_, hrest.1.2⟩
      rcases isSome_update hname with hold | rfl
      · exact henv name hold
      · exact List.mem_append_right _ hrest.1.1

/-! ## Lowering contexts -/

/-- The locals of the context are those of `names` and of the loops in front of it. -/
structure From (names : List String) (ctx : LoweringContext) : Prop where
  locals : ∀ name, (ctx.locals name).isSome → name ∈ names ∨ IsLoopName name
  labels : 3 ∣ ctx.labelCount

namespace From

variable {names : List String} {ctx ctx' : LoweringContext}

theorem of_eq (h : From names ctx) (hlocals : ctx'.locals = ctx.locals)
    (hcount : ctx'.labelCount = ctx.labelCount) : From names ctx' :=
  ⟨hlocals ▸ h.locals, hcount ▸ h.labels⟩

theorem withLabels (h : From names ctx) : From names (ctx.withLabels 3) :=
  ⟨h.locals, (Nat.dvd_add_right h.labels).mpr (Nat.dvd_refl 3)⟩

theorem withLocal (h : From names ctx) {loc : Local}
    (hloc : loc.name ∈ names ∨ IsLoopName loc.name) : From names (ctx.withLocal loc) := by
  refine ⟨fun name hname => ?_, h.labels⟩
  rw [LoweringContext.withLocal_locals] at hname
  by_cases heq : name = loc.name
  · exact heq ▸ hloc
  · rw [Function.update_of_ne heq] at hname
    exact h.locals name hname

theorem expr (h : From names ctx) {table : FunctionTable} {e : Expr} {v : Operand}
    (he : ExprLowers table ctx e v ctx') : From names ctx' :=
  h.of_eq he.facts.chain.locals.1 he.facts.chain.labelCount

theorem ensures (h : From names ctx) {name : String} {type : Option Ty} {loc : Local}
    (hloc : EnsuresLocal ctx name type loc ctx') (hname : name ∈ names) : From names ctx' := by
  cases hloc with
  | existing => exact h
  | fresh => exact h.withLocal (.inl hname)

theorem ifHead (h : From names ctx) (t : Operand) : From names (ctx.ifHead t) :=
  h.withLabels.of_eq rfl rfl

theorem ifMiddle (h : From names ctx) (base : LoweringContext) : From names (base.ifMiddle ctx) :=
  h.of_eq rfl rfl

theorem ifTail (h : From names ctx) (base : LoweringContext) : From names (base.ifTail ctx) :=
  h.of_eq rfl rfl

theorem whileHead (h : From names ctx) : From names ctx.whileHead := h.withLabels.of_eq rfl rfl

theorem whileTest (h : From names ctx) (base : LoweringContext) (t : Operand) :
    From names (base.whileTest ctx t) := h.of_eq rfl rfl

theorem whileTail (h : From names ctx) (base : LoweringContext) : From names (base.whileTail ctx) :=
  h.of_eq rfl rfl

theorem forEachTest (h : From names ctx) (v : Operand) : From names (ctx.forEachTest v) := by
  obtain ⟨k, hk⟩ := h.labels
  have hnames : From names ((ctx.withLocal (ctx.eachLocal v)).withLocal ctx.iterLocal) :=
    (h.withLocal (.inr ⟨k, .inl (hk ▸ rfl)⟩)).withLocal (.inr ⟨k, .inr (hk ▸ rfl)⟩)
  exact hnames.withLabels.of_eq rfl rfl

theorem forEachItem (h : From names ctx) (base : LoweringContext) (v : Operand) (loc : Local) :
    From names (base.forEachItem ctx v loc) := h.of_eq rfl rfl

theorem forEachTail (h : From names ctx) (base : LoweringContext) :
    From names (base.forEachTail ctx) := by
  refine h.of_eq ?_ ?_
  all_goals
    simp only [LoweringContext.forEachTail, LoweringContext.forEachStep, LoweringContext.define,
      LoweringContext.withInstr, LoweringContext.withTemp]

theorem default (h : From names ctx) {table : FunctionTable} {type : Option Ty} {v : Operand}
    (hv : DefaultLowers table ctx type v ctx') : From names ctx' :=
  h.of_eq hv.facts.chain.locals.1 hv.facts.chain.labelCount

end From

mutual
/-- A statement adds the names it introduces to the locals, and loop names. -/
theorem StmtLowers.from {table : FunctionTable} {names : List String} {ctx ctx' : LoweringContext}
    {s : Stmt} : StmtLowers table ctx s ctx' → From names ctx → s.declared false ⊆ names →
      From names ctx'
  | .define he hloc, h, hnames =>
      ((h.expr he).ensures hloc (hnames List.mem_cons_self)).of_eq rfl rfl
  | .assign _ he _, h, _ => (h.expr he).of_eq rfl rfl
  | .show he, h, _ => (h.expr he).of_eq rfl rfl
  | .exprStmt he, h, _ => h.expr he
  | .ret he _, h, _ => (h.expr he).of_eq rfl rfl
  | .retDefault hv _, h, _ => (h.default hv).of_eq rfl rfl
  | .ifElse ht _ hthen helse, h, hnames => by
      rw [Stmt.declared, List.append_subset] at hnames
      exact (helse.from ((hthen.from ((h.expr ht).ifHead _) hnames.1).ifMiddle _) hnames.2).ifTail _
  | .while ht _ hbody, h, hnames =>
      (hbody.from ((h.whileHead.expr ht).whileTest _ _) hnames).whileTail _
  | .forEach hv hloc hbody, h, hnames => by
      rw [Stmt.declared, List.cons_subset] at hnames
      exact (hbody.from ((((h.expr hv).forEachTest _).ensures hloc hnames.1).forEachItem _ _ _)
        hnames.2).forEachTail _

theorem StmtsLower.from {table : FunctionTable} {names : List String} {ctx ctx' : LoweringContext}
    {body : List Stmt} : StmtsLower table ctx body ctx' → From names ctx →
      bodyDeclared false body ⊆ names → From names ctx'
  | .nil, h, _ => h
  | .cons hs hbody, h, hnames => by
      rw [bodyDeclared, List.append_subset] at hnames
      exact hbody.from (hs.from h hnames.1) hnames.2
end

/-- What holds of the first context holds wherever a name is looked up. -/
theorem ContextOf.from {table : FunctionTable} {start ctx : LoweringContext} {body rest : List Stmt}
    {names : List String} (h : ContextOf table start body ctx rest) (hstart : From names start)
    (hbody : bodyDeclared false body ⊆ names) :
    From names ctx ∧ bodyDeclared false rest ⊆ names := by
  induction h with
  | start => exact ⟨hstart, hbody⟩
  | next _ hs ih =>
      obtain ⟨hctx, hrest⟩ := ih
      rw [bodyDeclared, List.append_subset] at hrest
      exact ⟨hs.from hctx hrest.1, hrest.2⟩
  | operand _ he ih => exact ⟨ih.1.expr he, nofun⟩
  | thenBody _ ht ih =>
      obtain ⟨hctx, hrest⟩ := ih
      rw [bodyDeclared, Stmt.declared, List.append_subset, List.append_subset] at hrest
      exact ⟨(hctx.expr ht).ifHead _, hrest.1.1⟩
  | elseBody _ ht hthen ih =>
      obtain ⟨hctx, hrest⟩ := ih
      rw [bodyDeclared, Stmt.declared, List.append_subset, List.append_subset] at hrest
      exact ⟨(hthen.from ((hctx.expr ht).ifHead _) hrest.1.1).ifMiddle _, hrest.1.2⟩
  | whileHead _ ih => exact ⟨ih.1.whileHead, nofun⟩
  | whileBody _ ht ih =>
      obtain ⟨hctx, hrest⟩ := ih
      rw [bodyDeclared, Stmt.declared, List.append_subset] at hrest
      exact ⟨(hctx.whileHead.expr ht).whileTest _ _, hrest.1⟩
  | binding _ hv ih => exact ⟨(ih.1.expr hv).forEachTest _, nofun⟩
  | forEachBody _ hv hloc ih =>
      obtain ⟨hctx, hrest⟩ := ih
      rw [bodyDeclared, Stmt.declared, List.append_subset, List.cons_subset] at hrest
      exact ⟨(((hctx.expr hv).forEachTest _).ensures hloc hrest.1.1).forEachItem _ _ _, hrest.1.2⟩

/-! ## The words that are kept -/

theorem Lexer.Starts.word {word : String} (hword : IsWord word.toList) :
    Starts word.toList { rest := word.toList, line := 1, col := 1 } := by
  obtain ⟨ch, rest, hvalue, hch⟩ := hword.start
  obtain ⟨hblank, hhash, hslash⟩ := isBlank_of_isIdStart hch
  have hfirst : Starts word.toList _ := .first
  rw [hvalue, skipWhitespace] at hfirst
  simpa [hvalue, hblank, hhash, hslash] using hfirst

theorem lexesAsItself_iff {word : String} (hword : IsWord word.toList)
    (halias : word ∉ aliases.map Prod.fst) (hkeyword : word ∉ keywords) :
    LexesAsItself word ↔ word ∉ objectPrototypeKeys := by
  constructor
  · intro h hinherited
    obtain ⟨hvalue, hne, -, htokens⟩ := wordToken_inherited word hinherited 1 1
    obtain ⟨hmem, -⟩ := h word.toList [] _ _ htokens (.word hword) (by simp) (by simp [ClassEnds])
    rw [hvalue] at hmem
    rcases List.mem_cons.mp hmem with heq | heof
    · exact hne (congrArg Token.value heq).symm
    · cases List.mem_singleton.mp heof
  · intro hplain source post tokens start htokens hstart hrest hpost
    obtain ⟨hmem, hafter⟩ := wordToken_mem htokens hstart hrest hword hpost
    rw [String.ofList_toList, wordToken_plain halias hkeyword hplain] at hmem
    exact ⟨hmem, hafter⟩

theorem From.start {program : Program} {table : FunctionTable} {start : LoweringContext}
    {params : List String} {body : List Stmt} (h : BodyStarts program table start params body)
    (names : List String) : From (params ++ names) start := by
  have hparams : ∀ (ps : List (String × Option Ty)) (ctx : LoweringContext),
      From (params ++ names) ctx → (∀ p ∈ ps, p.1 ∈ params) →
      From (params ++ names) (addParams ctx ps) := by
    intro ps
    induction ps with
    | nil => exact fun ctx hctx _ => hctx
    | cons p ps ih =>
        intro ctx hctx hps
        obtain ⟨hp, hps⟩ := List.forall_mem_cons.mp hps
        have hlocal : From (params ++ names) (ctx.withLocal (ctx.freshLocal p.1 p.2 true)) :=
          hctx.withLocal (.inl (List.mem_append_left _ hp))
        exact ih _ (hlocal.of_eq rfl rfl) hps
  cases h with
  | function =>
      exact hparams _ _ ⟨nofun, Nat.dvd_zero 3⟩ fun p hp => (List.of_mem_zip hp).1
  | main => exact ⟨nofun, Nat.dvd_zero 3⟩

theorem OnlyDeclared.of_plain {name : String} (hplain : name ∉ objectPrototypeKeys)
    (hdefaults : name ≠ defaultsKey) (hloop : ¬ IsLoopName name) : OnlyDeclared name := by
  refine ⟨?_, ?_, ?_⟩
  · rintro program table htable ((hkey | hsome) | hinherited)
    · exact absurd hkey hdefaults
    · exact htable.declared hsome
    · exact absurd hinherited hplain
  · rintro fn env rest henv (hsome | hinherited)
    · exact henv.declared.1 name hsome
    · exact absurd hinherited hplain
  · rintro program table start ctx params body rest - hstart hctx (hsome | hinherited)
    · obtain ⟨hfrom, -⟩ := hctx.from (.start hstart _) (List.subset_append_right _ _)
      rcases hfrom.locals name hsome with hdeclared | hname
      · exact hdeclared
      · exact absurd hname hloop
    · exact absurd hinherited hplain

/-! ## The names that answer without a declaration -/

/-- `k` empty statements `se verdadeiro`, then a loop over the empty text. -/
def loopsAfter (k : ℕ) : Program :=
  { functions := []
    body := List.replicate k (.ifElse (.bool true) [] []) ++ [.forEach "c" (.string "") []] }

theorem ContextOf.skip {table : FunctionTable} {start : LoweringContext} {body rest : List Stmt} :
    ∀ {k : ℕ} {ctx : LoweringContext},
      ContextOf table start body ctx (List.replicate k (.ifElse (.bool true) [] []) ++ rest) →
      ∃ ctx', ContextOf table start body ctx' rest ∧ ctx'.labelCount = ctx.labelCount + 3 * k := by
  intro k
  induction k with
  | zero => exact fun h => ⟨_, h, rfl⟩
  | succ k ih =>
      intro ctx h
      have hs : StmtLowers table ctx (.ifElse (.bool true) [] []) _ :=
        .ifElse (.literal rfl) rfl .nil .nil
      obtain ⟨ctx', hctx', hcount⟩ := ih (h.next hs)
      refine ⟨ctx', hctx', hcount.trans ?_⟩
      show ctx.labelCount + 3 + 3 * k = ctx.labelCount + 3 * (k + 1)
      omega

theorem isSome_forEachTest {base : LoweringContext} (v : Operand) {name : String}
    (h : name = eachName base.labelCount ∨ name = iterName base.labelCount) :
    ((base.forEachTest v).locals name).isSome := by
  show (Function.update (Function.update base.locals (eachName base.labelCount) _)
    (iterName base.labelCount) _ name).isSome
  rw [Function.update_apply, Function.update_apply]
  rcases h with rfl | rfl
  · split <;> simp
  · rw [if_pos rfl]
    rfl

theorem bodyDeclared_skip (k : ℕ) (rest : List Stmt) :
    bodyDeclared false (List.replicate k (.ifElse (.bool true) [] []) ++ rest) =
      bodyDeclared false rest := by
  induction k with
  | zero => rfl
  | succ k ih => exact ih

theorem IsLoopName.not_onlyDeclared {name : String} (h : IsLoopName name) :
    ¬ OnlyDeclared name := by
  intro honly
  obtain ⟨k, hname⟩ := id h
  have hanalyze : analyzeProgram (loopsAfter k) = .ok [] := rfl
  have hstart : ContextOf [] (mainContext emptyTables) (loopsAfter k).body
      (mainContext emptyTables) (loopsAfter k).body := .start
  obtain ⟨ctx, hctx, hcount⟩ := hstart.skip
  have hv : ExprLowers [] ctx (.string "") _ _ := .literal rfl
  have hbinding := hctx.binding hv
  have hbase := hv.facts.chain.labelCount
  have hzero : (mainContext emptyTables).labelCount = 0 := rfl
  rw [hcount, hzero, Nat.zero_add] at hbase
  have hmem := honly.locals (loopsAfter k) [] _ _ [] _ _ hanalyze .main hbinding
    (.inl (isSome_forEachTest _ (hbase ▸ hname)))
  rw [List.nil_append, loopsAfter, bodyDeclared_skip] at hmem
  obtain rfl : name = "c" := List.mem_singleton.mp hmem
  exact absurd (IsHiddenName.isReserved ⟨_, hname⟩) (by decide)

/-- A name that only declarations answer to. -/
theorem onlyDeclared_iff {name : String} :
    OnlyDeclared name ↔
      name ∉ objectPrototypeKeys ∧ name ≠ defaultsKey ∧ ¬ IsLoopName name := by
  refine ⟨fun h => ⟨?_, ?_, ?_⟩, fun ⟨hplain, hdefaults, hloop⟩ => .of_plain hplain hdefaults hloop⟩
  · intro hinherited
    cases h.functions (loopsAfter 0) [] (.analyzed rfl) (.inr hinherited)
  · intro hdefaults
    cases h.functions (loopsAfter 0) [] (.analyzed rfl) (.inl (.inl hdefaults))
  · exact fun hloop => hloop.not_onlyDeclared h

/-- A word is kept as itself and answers only where it is declared, unless every object inherits
it, the function table holds its defaults under it, or a loop has it for its own locals. -/
theorem identifier_kept {word : String} (hword : IsWord word.toList)
    (halias : word ∉ aliases.map Prod.fst) (hkeyword : word ∉ keywords) :
    LexesAsItself word ∧ OnlyDeclared word ↔
      word ∉ objectPrototypeKeys ∧ word ≠ defaultsKey ∧ ¬ IsLoopName word := by
  rw [lexesAsItself_iff hword halias hkeyword, onlyDeclared_iff]
  constructor
  · exact fun h => h.2
  · exact fun h => ⟨h.1, h⟩

theorem isWord_total : IsWord "total".toList :=
  ⟨⟨'t', ['o', 't', 'a', 'l'], rfl, rfl⟩, List.all_eq_true.mp rfl⟩

theorem identifier_kept_total : LexesAsItself "total" ∧ OnlyDeclared "total" :=
  (identifier_kept isWord_total (by decide) (by decide)).mpr
    ⟨by decide, by decide, fun ⟨_, h⟩ => absurd (IsHiddenName.isReserved ⟨_, h⟩) (by decide)⟩

theorem constructor_not_kept : IsWord "constructor".toList ∧
    "constructor" ∉ aliases.map Prod.fst ∧ "constructor" ∉ keywords ∧
    tokenize "constructor".toList = .ok
      [{ type := .identifier, value := "function Object() \x7b\n    [native code]\n\x7d",
          line := 1, col := 1 },
        { type := .eof, value := "", line := 1, col := 12 }] ∧
    ¬ LexesAsItself "constructor" ∧ ¬ OnlyDeclared "constructor" := by
  have hword : IsWord "constructor".toList :=
    ⟨⟨'c', "onstructor".toList, rfl, rfl⟩, List.all_eq_true.mp rfl⟩
  refine ⟨hword, by decide, by decide, by decide +kernel, ?_, ?_⟩
  · rw [lexesAsItself_iff hword (by decide) (by decide)]
    decide
  · rw [onlyDeclared_iff]
    exact fun h => absurd h.1 (by decide)

end GatoCore.Native
