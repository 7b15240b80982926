import GatoCore.Native.LowerCorrect
import GatoCore.Native.StaticTypes

/-!
# Block scopes

In the engine a `definir` lives to the end of its block: `js_parse_pt_block` pushes a scope, and
`js_parse_pt_for_each` one more for its binding. The compiler has one table of names for each
function. The two agree on a program that declares no name in a block where that name is visible
already and that uses no name of a block that has ended.
-/

namespace GatoCore.Native

open StateTransition GatoCore.Lib

/-! ## Names in the text -/

mutual
/-- The variables an expression reads. -/
def Expr.reads : Expr → List String
  | .identifier name => [name]
  | .array items => readsOf items
  | .unary _ e => e.reads
  | .binary _ l r => l.reads ++ r.reads
  | .call _ args => readsOf args
  | _ => []

def readsOf : List Expr → List String
  | [] => []
  | e :: es => e.reads ++ readsOf es
end

/-- The variables a statement itself reads or assigns, not those of the blocks in it. -/
def Stmt.uses : Stmt → List String
  | .define _ e => e.reads
  | .assign name e => name :: e.reads
  | .show e => e.reads
  | .exprStmt e => e.reads
  | .ret e => (e.map Expr.reads).getD []
  | .ifElse test _ _ => test.reads
  | .while test _ => test.reads
  | .forEach _ iterable _ => iterable.reads

/-- A point of a function: the names in scope there, and all names the text above it declares. -/
structure LexicalScope where
  visible : List String
  declared : List String

namespace LexicalScope

def declare (scope : LexicalScope) (name : String) : LexicalScope :=
  { visible := name :: scope.visible, declared := name :: scope.declared }

/-- After a block that ends with the scope `inner`. -/
def close (scope inner : LexicalScope) : LexicalScope :=
  { scope with declared := inner.declared }

end LexicalScope

mutual
def Stmt.lexicalAfter : Stmt → LexicalScope → LexicalScope
  | .define name _, scope => scope.declare name
  | .ifElse _ thenBody elseBody, scope =>
      let middle := scope.close (bodyLexicalAfter thenBody scope)
      middle.close (bodyLexicalAfter elseBody middle)
  | .while _ body, scope => scope.close (bodyLexicalAfter body scope)
  | .forEach binding _ body, scope =>
      scope.close (bodyLexicalAfter body (scope.declare binding))
  | _, scope => scope

def bodyLexicalAfter : List Stmt → LexicalScope → LexicalScope
  | [], scope => scope
  | s :: body, scope => bodyLexicalAfter body (s.lexicalAfter scope)
end

mutual
/-- The statements in a statement, each with the scope it stands in. -/
def Stmt.lexicalPoints : Stmt → LexicalScope → List (LexicalScope × Stmt)
  | .ifElse test thenBody elseBody, scope =>
      (scope, .ifElse test thenBody elseBody) :: (bodyLexicalPoints thenBody scope ++
        bodyLexicalPoints elseBody (scope.close (bodyLexicalAfter thenBody scope)))
  | .while test body, scope => (scope, .while test body) :: bodyLexicalPoints body scope
  | .forEach binding iterable body, scope =>
      (scope, .forEach binding iterable body) :: bodyLexicalPoints body (scope.declare binding)
  | s, scope => [(scope, s)]

def bodyLexicalPoints : List Stmt → LexicalScope → List (LexicalScope × Stmt)
  | [], _ => []
  | s :: body, scope => s.lexicalPoints scope ++ bodyLexicalPoints body (s.lexicalAfter scope)
end

/-- A block of the statement declares a name that is visible around it. -/
def Stmt.shadows (visible : List String) : Stmt → Bool
  | .ifElse _ thenBody elseBody =>
      (declaredNames thenBody).any (· ∈ visible) || (declaredNames elseBody).any (· ∈ visible)
  | .while _ body => (declaredNames body).any (· ∈ visible)
  | .forEach binding _ body =>
      binding ∈ visible || (declaredNames body).any (· ∈ binding :: visible)
  | _ => false

/-- The scope a function starts in. -/
def paramLexicalScope (params : List String) : LexicalScope := ⟨params, params⟩

/-- The points of a program, function by function. -/
def Program.lexicalPoints (program : Program) : List (LexicalScope × Stmt) :=
  program.functions.flatMap (fun fn => bodyLexicalPoints fn.body (paramLexicalScope fn.params)) ++
    bodyLexicalPoints program.body (paramLexicalScope [])

/-! ## Agreement of the two scopings -/

section Agreement

variable {R : Runtime}

/-- The environment `b` of block scoping against the environment `f` of flat scoping, in which the
names of blocks that have ended are still there. -/
structure EnvAgree (visible : List String) (b f : Env R) : Prop where
  value : ∀ x v, b x = some v → f x = some v
  visible : ∀ x v, b x = some v → x ∈ visible

def OutcomeAgree (visible : List String) : Outcome R → Outcome R → Prop
  | .normal b, .normal f => EnvAgree visible b f
  | .returned v, .returned v' => v = v'
  | _, _ => False

variable {visible : List String} {b f : Env R}

theorem EnvAgree.update (h : EnvAgree visible b f) (x : String) (v : TypedValue R) :
    EnvAgree (x :: visible) (Function.update b x (some v)) (Function.update f x (some v)) := by
  constructor
  · intro y u hy
    by_cases hxy : y = x
    · subst hxy
      rw [Function.update_self] at hy ⊢
      exact hy
    · rw [Function.update_of_ne hxy] at hy ⊢
      exact h.value y u hy
  · intro y u hy
    by_cases hxy : y = x
    · rw [hxy]
      exact List.mem_cons_self
    · rw [Function.update_of_ne hxy] at hy
      exact List.mem_cons_of_mem _ (h.visible y u hy)

theorem EnvAgree.mono {visible' : List String} (h : EnvAgree visible b f)
    (hsub : visible ⊆ visible') : EnvAgree visible' b f :=
  ⟨h.value, fun x v hx => hsub (h.visible x v hx)⟩

/-- A scope whose names are not visible around it. -/
theorem EnvAgree.enter (h : EnvAgree visible b f) (names : List String) :
    EnvAgree visible (enterScope .block names b) f := by
  constructor
  · intro x v hx
    simp only [enterScope] at hx
    split at hx
    · cases hx
    · exact h.value x v hx
  · intro x v hx
    simp only [enterScope] at hx
    split at hx
    · cases hx
    · exact h.visible x v hx

theorem EnvAgree.leave {names : List String} {b' f' : Env R} (h : EnvAgree visible b f)
    (hnames : ∀ x ∈ names, x ∉ visible) (h' : EnvAgree (names ++ visible) b' f') :
    EnvAgree visible (leaveScope .block names b b') f' := by
  constructor
  · intro x v hx
    simp only [leaveScope] at hx
    split at hx
    · next hmem => exact absurd (h.visible x v hx) (hnames x hmem)
    · exact h'.value x v hx
  · intro x v hx
    simp only [leaveScope] at hx
    split at hx
    · exact h.visible x v hx
    · next hmem => exact (List.mem_append.mp (h'.visible x v hx)).resolve_left hmem

theorem OutcomeAgree.leave {names : List String} {o o' : Outcome R} (h : EnvAgree visible b f)
    (hnames : ∀ x ∈ names, x ∉ visible) (ho : OutcomeAgree (names ++ visible) o o') :
    OutcomeAgree visible (leaveBlock .block names b o) (leaveBlock .flat names f o') := by
  cases o with
  | normal b' =>
      cases o' with
      | normal f' => exact h.leave hnames ho
      | returned _ => cases ho
  | returned v =>
      cases o' with
      | normal _ => cases ho
      | returned _ => exact ho

/-- No block in the text declares a name that is visible around it. -/
def ShadowFree (points : List (LexicalScope × Stmt)) : Prop :=
  ∀ p ∈ points, p.2.shadows p.1.visible = false

theorem any_eq_false_iff_disjoint {names visible : List String} :
    names.any (· ∈ visible) = false ↔ ∀ x ∈ names, x ∉ visible := by
  simp

theorem Stmt.lexicalAfter_visible (s : Stmt) (scope : LexicalScope) :
    (s.lexicalAfter scope).visible = declaredNames [s] ++ scope.visible := by
  cases s <;> simp [Stmt.lexicalAfter, declaredNames, LexicalScope.declare, LexicalScope.close]

theorem declaredNames_cons (s : Stmt) (body : List Stmt) :
    declaredNames (s :: body) = declaredNames [s] ++ declaredNames body := by
  cases s <;> rfl

/-- The names visible at the end of a block. -/
theorem bodyLexicalAfter_visible : ∀ (body : List Stmt) (scope : LexicalScope),
    (bodyLexicalAfter body scope).visible ⊆ declaredNames body ++ scope.visible
  | [], scope => List.Subset.refl _
  | s :: body, scope => by
      intro x hx
      rw [bodyLexicalAfter] at hx
      have hmem := bodyLexicalAfter_visible body _ hx
      rw [s.lexicalAfter_visible] at hmem
      rw [declaredNames_cons]
      simp only [List.mem_append] at hmem ⊢
      tauto

/-- What the evaluator computes with fuel `n` under block scoping, it computes under flat
scoping. -/
structure ScopingsAgree (R : Runtime) (functions : List FunctionDecl)
    (table : FunctionTable) (n : ℕ) :
    Prop where
  expr : ∀ {visible : List String} {b f : Env R} {e : Expr} {w : R.World}
    {r : TypedValue R × R.World}, EnvAgree visible b f →
    evalExpr ⟨.block, functions, table⟩ n b e w = some r →
    evalExpr ⟨.flat, functions, table⟩ n f e w = some r
  args : ∀ {visible : List String} {b f : Env R} {es : List Expr} {w : R.World}
    {r : List (TypedValue R) × R.World}, EnvAgree visible b f →
    evalArgs ⟨.block, functions, table⟩ n b es w = some r →
    evalArgs ⟨.flat, functions, table⟩ n f es w = some r
  call : ∀ {scope : LexicalScope} {type : Ty} {b f : Env R} {body : List Stmt} {w : R.World}
    {r : TypedValue R × R.World}, ShadowFree (bodyLexicalPoints body scope) →
    EnvAgree scope.visible b f →
    callFunction ⟨.block, functions, table⟩ n type b body w = some r →
    callFunction ⟨.flat, functions, table⟩ n type f body w = some r
  stmt : ∀ {scope : LexicalScope} {type : Ty} {b f : Env R} {s : Stmt} {w w' : R.World}
    {o : Outcome R}, ShadowFree (s.lexicalPoints scope) → EnvAgree scope.visible b f →
    evalStmt ⟨.block, functions, table⟩ n type b s w = some (o, w') →
    ∃ o', evalStmt ⟨.flat, functions, table⟩ n type f s w = some (o', w') ∧
      OutcomeAgree (s.lexicalAfter scope).visible o o'
  forEach : ∀ {scope : LexicalScope} {type : Ty} {b f : Env R} {binding : String}
    {v : TypedValue R} {i : Word} {body : List Stmt} {w w' : R.World} {o : Outcome R},
    binding ∈ scope.visible → ShadowFree (bodyLexicalPoints body scope) →
    (∀ x ∈ declaredNames body, x ∉ scope.visible) → EnvAgree scope.visible b f →
    evalForEach ⟨.block, functions, table⟩ n type b binding v i body w = some (o, w') →
    ∃ o', evalForEach ⟨.flat, functions, table⟩ n type f binding v i body w = some (o', w') ∧
      OutcomeAgree scope.visible o o'
  block : ∀ {scope : LexicalScope} {type : Ty} {b f : Env R} {body : List Stmt} {w w' : R.World}
    {o : Outcome R}, ShadowFree (bodyLexicalPoints body scope) →
    (∀ x ∈ declaredNames body, x ∉ scope.visible) → EnvAgree scope.visible b f →
    evalBlock ⟨.block, functions, table⟩ n type b body w = some (o, w') →
    ∃ o', evalBlock ⟨.flat, functions, table⟩ n type f body w = some (o', w') ∧
      OutcomeAgree scope.visible o o'
  stmts : ∀ {scope : LexicalScope} {type : Ty} {b f : Env R} {body : List Stmt} {w w' : R.World}
    {o : Outcome R}, ShadowFree (bodyLexicalPoints body scope) → EnvAgree scope.visible b f →
    evalStmts ⟨.block, functions, table⟩ n type b body w = some (o, w') →
    ∃ o', evalStmts ⟨.flat, functions, table⟩ n type f body w = some (o', w') ∧
      OutcomeAgree (bodyLexicalAfter body scope).visible o o'

variable {functions : List FunctionDecl} {table : FunctionTable} {n : ℕ}

theorem OutcomeAgree.mono {visible' : List String} {o o' : Outcome R}
    (h : OutcomeAgree visible o o') (hsub : visible ⊆ visible') : OutcomeAgree visible' o o' := by
  cases o with
  | normal _ =>
      cases o' with
      | normal _ => exact EnvAgree.mono h hsub
      | returned _ => cases h
  | returned _ =>
      cases o' with
      | normal _ => cases h
      | returned _ => exact h

/-- The parameters are the same under both scopings. -/
theorem EnvAgree.bindParams (params : List String) (vs : List (TypedValue R)) :
    EnvAgree params (bindParams params vs) (bindParams params vs) := by
  refine ⟨fun _ _ => id, ?_⟩
  intro x v hx
  rcases foldl_update_eq_some (fun p : String × TypedValue R => p.1) (·.2) _ _ hx with
    hnone | ⟨p, hp, rfl, -⟩
  · cases hnone
  · exact (List.of_mem_zip hp).1

theorem ScopingsAgree.expr_succ (ih : ScopingsAgree R functions table n)
    (hfns : ∀ fn ∈ functions, ShadowFree (bodyLexicalPoints fn.body (paramLexicalScope fn.params)))
    {e : Expr} {w : R.World} {r : TypedValue R × R.World} (h : EnvAgree visible b f)
    (he : evalExpr ⟨.block, functions, table⟩ (n + 1) b e w = some r) :
    evalExpr ⟨.flat, functions, table⟩ (n + 1) f e w = some r := by
  cases e with
  | identifier name =>
      simp only [evalExpr, Option.bind_eq_bind, Option.bind_eq_some_iff] at he ⊢
      obtain ⟨v, hv, he⟩ := he
      exact ⟨v, h.value name v hv, he⟩
  | unary op e =>
      simp only [evalExpr, Option.bind_eq_bind, Option.bind_eq_some_iff] at he ⊢
      obtain ⟨p, hp, he⟩ := he
      exact ⟨p, ih.expr h hp, he⟩
  | binary op l r =>
      simp only [evalExpr, Option.bind_eq_bind, Option.bind_eq_some_iff] at he ⊢
      obtain ⟨p, hp, q, hq, he⟩ := he
      exact ⟨p, ih.expr h hp, q, ih.expr h hq, he⟩
  | call callee args =>
      cases callee with
      | identifier name =>
          simp only [evalExpr, Option.bind_eq_bind, Option.bind_eq_some_iff] at he ⊢
          obtain ⟨p, hp, fn, hfn, he⟩ := he
          refine ⟨p, ih.args h hp, fn, hfn, ?_⟩
          split at he
          · next hlen =>
              rw [if_pos hlen]
              simp only [Option.bind_eq_some_iff] at he ⊢
              obtain ⟨type, htype, he⟩ := he
              have hmem : fn ∈ functions := List.mem_of_find?_eq_some hfn
              exact ⟨type, htype, ih.call (hfns fn hmem) (EnvAgree.bindParams _ _) he⟩
          · cases he
      | _ => exact he
  | _ => exact he

theorem ScopingsAgree.args_succ (ih : ScopingsAgree R functions table n) {es : List Expr}
    {w : R.World}
    {r : List (TypedValue R) × R.World} (h : EnvAgree visible b f)
    (he : evalArgs ⟨.block, functions, table⟩ (n + 1) b es w = some r) :
    evalArgs ⟨.flat, functions, table⟩ (n + 1) f es w = some r := by
  cases es with
  | nil => exact he
  | cons e es =>
      simp only [evalArgs, Option.bind_eq_bind, Option.bind_eq_some_iff] at he ⊢
      obtain ⟨p, hp, q, hq, he⟩ := he
      exact ⟨p, ih.expr h hp, q, ih.args h hq, he⟩

variable {scope : LexicalScope} {type : Ty}

theorem ScopingsAgree.call_succ (ih : ScopingsAgree R functions table n) {body : List Stmt}
    {w : R.World}
    {r : TypedValue R × R.World} (hfree : ShadowFree (bodyLexicalPoints body scope))
    (h : EnvAgree scope.visible b f)
    (he : callFunction ⟨.block, functions, table⟩ (n + 1) type b body w = some r) :
    callFunction ⟨.flat, functions, table⟩ (n + 1) type f body w = some r := by
  simp only [callFunction, Option.bind_eq_bind, Option.bind_eq_some_iff] at he ⊢
  obtain ⟨⟨o, w'⟩, hbody, he⟩ := he
  obtain ⟨o', hbody', hagree⟩ := ih.stmts hfree h hbody
  refine ⟨(o', w'), hbody', ?_⟩
  cases o with
  | normal _ =>
      cases o' with
      | normal _ => exact he
      | returned _ => cases hagree
  | returned v =>
      cases o' with
      | normal _ => cases hagree
      | returned _ =>
          obtain rfl : v = _ := hagree
          exact he

theorem ScopingsAgree.stmts_succ (ih : ScopingsAgree R functions table n) {body : List Stmt}
    {w w' : R.World}
    {o : Outcome R} (hfree : ShadowFree (bodyLexicalPoints body scope))
    (h : EnvAgree scope.visible b f)
    (he : evalStmts ⟨.block, functions, table⟩ (n + 1) type b body w = some (o, w')) :
    ∃ o', evalStmts ⟨.flat, functions, table⟩ (n + 1) type f body w = some (o', w') ∧
      OutcomeAgree (bodyLexicalAfter body scope).visible o o' := by
  cases body with
  | nil =>
      cases he
      exact ⟨.normal f, rfl, h⟩
  | cons s body =>
      obtain ⟨hs, hbody⟩ := List.forall_mem_append.mp hfree
      simp only [evalStmts, Option.bind_eq_bind, Option.bind_eq_some_iff] at he ⊢
      obtain ⟨⟨o₁, w₁⟩, hstep, he⟩ := he
      obtain ⟨o₁', hstep', hagree⟩ := ih.stmt hs h hstep
      cases o₁ with
      | normal b₁ =>
          cases o₁' with
          | normal f₁ =>
              obtain ⟨o', hrest, ho⟩ := ih.stmts hbody hagree he
              exact ⟨o', ⟨_, hstep', hrest⟩, ho⟩
          | returned _ => cases hagree
      | returned v =>
          cases o₁' with
          | normal _ => cases hagree
          | returned _ =>
              obtain rfl : v = _ := hagree
              cases he
              exact ⟨.returned v, ⟨_, hstep', rfl⟩, rfl⟩

theorem ScopingsAgree.block_succ (ih : ScopingsAgree R functions table n) {body : List Stmt}
    {w w' : R.World}
    {o : Outcome R} (hfree : ShadowFree (bodyLexicalPoints body scope))
    (hnames : ∀ x ∈ declaredNames body, x ∉ scope.visible) (h : EnvAgree scope.visible b f)
    (he : evalBlock ⟨.block, functions, table⟩ (n + 1) type b body w = some (o, w')) :
    ∃ o', evalBlock ⟨.flat, functions, table⟩ (n + 1) type f body w = some (o', w') ∧
      OutcomeAgree scope.visible o o' := by
  simp only [evalBlock, Option.bind_eq_bind, Option.bind_eq_some_iff, Option.pure_def,
    Option.some.injEq, Prod.mk.injEq] at he ⊢
  obtain ⟨⟨o₁, w₁⟩, hbody, rfl, rfl⟩ := he
  obtain ⟨o₁', hbody', hagree⟩ := ih.stmts hfree (h.enter _) hbody
  refine ⟨_, ⟨(o₁', w₁), hbody', rfl, rfl⟩, ?_⟩
  exact OutcomeAgree.leave h hnames (hagree.mono (bodyLexicalAfter_visible body scope))

theorem ScopingsAgree.forEach_succ (ih : ScopingsAgree R functions table n) {binding : String}
    {v : TypedValue R} {i : Word} {body : List Stmt} {w w' : R.World} {o : Outcome R}
    (hbinding : binding ∈ scope.visible) (hfree : ShadowFree (bodyLexicalPoints body scope))
    (hnames : ∀ x ∈ declaredNames body, x ∉ scope.visible) (h : EnvAgree scope.visible b f)
    (he : evalForEach ⟨.block, functions, table⟩ (n + 1) type b binding v i body w = some (o, w')) :
    ∃ o', evalForEach ⟨.flat, functions, table⟩ (n + 1) type f binding v i body w = some (o', w') ∧
      OutcomeAgree scope.visible o o' := by
  simp only [evalForEach, Option.bind_eq_bind, Option.bind_eq_some_iff] at he ⊢
  obtain ⟨⟨len, w₁⟩, hlen, l, hl, he⟩ := he
  split at he
  · next hlt =>
      obtain ⟨⟨item, w₂⟩, hitem, he⟩ := Option.bind_eq_some_iff.mp he
      obtain ⟨⟨o₁, w₃⟩, hbody, he⟩ := Option.bind_eq_some_iff.mp he
      have hitemAgree : EnvAgree scope.visible (Function.update b binding (some item))
          (Function.update f binding (some item)) :=
        (h.update binding item).mono (List.cons_subset.mpr ⟨hbinding, List.Subset.refl _⟩)
      obtain ⟨o₁', hbody', hagree⟩ := ih.block hfree hnames hitemAgree hbody
      cases o₁ with
      | normal b₁ =>
          cases o₁' with
          | normal f₁ =>
              obtain ⟨o', hrest, ho⟩ := ih.forEach hbinding hfree hnames hagree he
              refine ⟨o', ⟨_, hlen, l, hl, ?_⟩, ho⟩
              rw [if_pos hlt]
              exact Option.bind_eq_some_iff.mpr
                ⟨_, hitem, Option.bind_eq_some_iff.mpr ⟨_, hbody', hrest⟩⟩
          | returned _ => cases hagree
      | returned r =>
          cases o₁' with
          | normal _ => cases hagree
          | returned _ =>
              obtain rfl : r = _ := hagree
              cases he
              refine ⟨.returned r, ⟨_, hlen, l, hl, ?_⟩, rfl⟩
              rw [if_pos hlt]
              exact Option.bind_eq_some_iff.mpr
                ⟨_, hitem, Option.bind_eq_some_iff.mpr ⟨_, hbody', rfl⟩⟩
  · next hlt =>
      cases he
      refine ⟨.normal f, ⟨_, hlen, l, hl, ?_⟩, h⟩
      rw [if_neg hlt]
      rfl

theorem ScopingsAgree.while_succ (ih : ScopingsAgree R functions table n) {test : Expr}
    {body : List Stmt} {w w' : R.World} {o : Outcome R}
    (hfree : ShadowFree ((Stmt.while test body).lexicalPoints scope))
    (h : EnvAgree scope.visible b f)
    (he : evalStmt ⟨.block, functions, table⟩ (n + 1) type b (.while test body) w = some (o, w')) :
    ∃ o', evalStmt ⟨.flat, functions, table⟩ (n + 1) type f (.while test body) w = some (o', w') ∧
      OutcomeAgree scope.visible o o' := by
  obtain ⟨hshadow, hbody⟩ := List.forall_mem_cons.mp hfree
  rw [Stmt.shadows, any_eq_false_iff_disjoint] at hshadow
  simp only [evalStmt, Option.bind_eq_bind, Option.bind_eq_some_iff] at he ⊢
  obtain ⟨⟨v, w₁⟩, hv, t, ht, he⟩ := he
  split at he
  · next htrue =>
      obtain ⟨⟨o₁, w₂⟩, hblock, he⟩ := Option.bind_eq_some_iff.mp he
      obtain ⟨o₁', hblock', hagree⟩ := ih.block hbody hshadow h hblock
      cases o₁ with
      | normal b₁ =>
          cases o₁' with
          | normal f₁ =>
              obtain ⟨o', hrest, ho⟩ := ih.stmt hfree hagree he
              refine ⟨o', ⟨_, ih.expr h hv, t, ht, ?_⟩, ho⟩
              rw [if_pos htrue]
              exact Option.bind_eq_some_iff.mpr ⟨_, hblock', hrest⟩
          | returned _ => cases hagree
      | returned r =>
          cases o₁' with
          | normal _ => cases hagree
          | returned _ =>
              obtain rfl : r = _ := hagree
              cases he
              refine ⟨.returned r, ⟨_, ih.expr h hv, t, ht, ?_⟩, rfl⟩
              rw [if_pos htrue]
              exact Option.bind_eq_some_iff.mpr ⟨_, hblock', rfl⟩
  · next hfalse =>
      cases he
      refine ⟨.normal f, ⟨_, ih.expr h hv, t, ht, ?_⟩, h⟩
      rw [if_neg hfalse]
      rfl

theorem ScopingsAgree.stmt_succ (ih : ScopingsAgree R functions table n) {s : Stmt} {w w' : R.World}
    {o : Outcome R} (hfree : ShadowFree (s.lexicalPoints scope)) (h : EnvAgree scope.visible b f)
    (he : evalStmt ⟨.block, functions, table⟩ (n + 1) type b s w = some (o, w')) :
    ∃ o', evalStmt ⟨.flat, functions, table⟩ (n + 1) type f s w = some (o', w') ∧
      OutcomeAgree (s.lexicalAfter scope).visible o o' := by
  cases s with
  | define name e =>
      simp only [evalStmt, Option.bind_eq_bind, Option.bind_eq_some_iff] at he ⊢
      obtain ⟨⟨v, w₁⟩, hv, he⟩ := he
      cases he
      exact ⟨_, ⟨_, ih.expr h hv, rfl⟩, h.update name v⟩
  | assign name e =>
      simp only [evalStmt, Option.bind_eq_bind, Option.bind_eq_some_iff] at he ⊢
      obtain ⟨⟨v, w₁⟩, hv, he⟩ := he
      split at he
      · cases he
      · next hsome =>
          cases he
          refine ⟨_, ⟨_, ih.expr h hv, rfl⟩, ?_⟩
          -- an assigned name has a value, so it is visible
          obtain ⟨u, hu⟩ : ∃ u, b name = some u := by
            cases hb : b name with
            | none => exact absurd ⟨trivial, by rw [hb]; rfl⟩ hsome
            | some u => exact ⟨u, rfl⟩
          exact (h.update name v).mono
            (List.cons_subset.mpr ⟨h.visible name u hu, List.Subset.refl _⟩)
  | «show» e =>
      simp only [evalStmt, Option.bind_eq_bind, Option.bind_eq_some_iff] at he ⊢
      obtain ⟨⟨v, w₁⟩, hv, r, hr, he⟩ := he
      cases he
      exact ⟨_, ⟨_, ih.expr h hv, r, hr, rfl⟩, h⟩
  | exprStmt e =>
      simp only [evalStmt, Option.bind_eq_bind, Option.bind_eq_some_iff] at he ⊢
      obtain ⟨⟨v, w₁⟩, hv, he⟩ := he
      cases he
      exact ⟨_, ⟨_, ih.expr h hv, rfl⟩, h⟩
  | ret e =>
      cases e with
      | none =>
          cases he
          exact ⟨_, rfl, rfl⟩
      | some e =>
          simp only [evalStmt, Option.bind_eq_bind, Option.bind_eq_some_iff] at he ⊢
          obtain ⟨⟨v, w₁⟩, hv, he⟩ := he
          cases he
          exact ⟨_, ⟨_, ih.expr h hv, rfl⟩, rfl⟩
  | ifElse test thenBody elseBody =>
      obtain ⟨hshadow, hbodies⟩ := List.forall_mem_cons.mp hfree
      obtain ⟨hthen, helse⟩ := List.forall_mem_append.mp hbodies
      rw [Stmt.shadows, Bool.or_eq_false_iff, any_eq_false_iff_disjoint,
        any_eq_false_iff_disjoint] at hshadow
      simp only [evalStmt, Option.bind_eq_bind, Option.bind_eq_some_iff] at he ⊢
      obtain ⟨⟨v, w₁⟩, hv, t, ht, he⟩ := he
      split at he
      · next htrue =>
          obtain ⟨o', hbody, ho⟩ := ih.block hthen hshadow.1 h he
          exact ⟨o', ⟨_, ih.expr h hv, t, ht, by rw [if_pos htrue]; exact hbody⟩, ho⟩
      · next hfalse =>
          obtain ⟨o', hbody, ho⟩ := ih.block helse hshadow.2 h he
          exact ⟨o', ⟨_, ih.expr h hv, t, ht, by rw [if_neg hfalse]; exact hbody⟩, ho⟩
  | «while» test body =>
      obtain ⟨o', hrun, ho⟩ := ih.while_succ hfree h he
      exact ⟨o', hrun, ho⟩
  | forEach binding iterable body =>
      obtain ⟨hshadow, hbody⟩ := List.forall_mem_cons.mp hfree
      rw [Stmt.shadows, Bool.or_eq_false_iff, any_eq_false_iff_disjoint,
        decide_eq_false_iff_not] at hshadow
      simp only [evalStmt, Option.bind_eq_bind, Option.bind_eq_some_iff, Option.pure_def,
        Option.some.injEq, Prod.mk.injEq] at he ⊢
      obtain ⟨⟨v, w₁⟩, hv, ⟨o₁, w₂⟩, hloop, rfl, rfl⟩ := he
      have hinner : EnvAgree scope.visible (enterScope .block [binding] b) f := h.enter _
      have hbinding : binding ∈ (scope.declare binding).visible := List.mem_cons_self
      obtain ⟨o₁', hloop', hagree⟩ := ih.forEach hbinding hbody hshadow.2
        (hinner.mono (List.subset_cons_self _ _)) hloop
      refine ⟨_, ⟨_, ih.expr hinner hv, (o₁', w₂), hloop', rfl, rfl⟩, ?_⟩
      refine OutcomeAgree.leave h ?_ hagree
      rw [List.forall_mem_singleton]
      exact hshadow.1

/-- Under block scoping a program without shadowing does what it does under flat scoping. -/
theorem scopings_agree (R : Runtime) {functions : List FunctionDecl} (table : FunctionTable)
    (hfns : ∀ fn ∈ functions, ShadowFree (bodyLexicalPoints fn.body (paramLexicalScope fn.params)))
    (n : ℕ) : ScopingsAgree R functions table n := by
  induction n with
  | zero => constructor <;> intros <;> contradiction
  | succ n ih =>
      exact { expr := fun h he => ih.expr_succ hfns h he
              args := fun h he => ih.args_succ h he
              call := fun hfree h he => ih.call_succ hfree h he
              stmt := fun hfree h he => ih.stmt_succ hfree h he
              forEach := fun hb hfree hn h he => ih.forEach_succ hb hfree hn h he
              block := fun hfree hn h he => ih.block_succ hfree hn h he
              stmts := fun hfree h he => ih.stmts_succ hfree h he }

end Agreement

/-! ## Names the compiler knows -/

/-- Every name with a local is hidden or is declared in the text above. -/
def DeclaredAbove (scope : Scope) (lexical : LexicalScope) : Prop :=
  ∀ x, (scope.types x).isSome → IsHiddenName x ∨ x ∈ lexical.declared

section Known

variable {table : FunctionTable} {scope : Scope} {lexical : LexicalScope}

theorem DeclaredAbove.declare (h : DeclaredAbove scope lexical) (name : String)
    (type : Option Ty) : DeclaredAbove (scope.declare name type) (lexical.declare name) := by
  intro x hx
  by_cases hname : x = name
  · exact .inr (hname ▸ List.mem_cons_self)
  · have hold : (scope.types x).isSome := by
      unfold Scope.declare at hx
      split at hx
      · simpa [hname] using hx
      · exact hx
    exact (h x hold).imp_right (List.mem_cons_of_mem _)

theorem DeclaredAbove.hide (h : DeclaredAbove scope lexical) (type : Option Ty) :
    DeclaredAbove (scope.hide type) lexical := by
  intro x hx
  by_cases heach : x = eachName scope.labels
  · exact .inl ⟨_, .inl heach⟩
  · by_cases hiter : x = iterName scope.labels
    · exact .inl ⟨_, .inr hiter⟩
    · refine h x ?_
      simpa [Scope.hide, heach, hiter] using hx

mutual
theorem DeclaredAbove.after : ∀ (s : Stmt) {scope : Scope} {lexical : LexicalScope},
    DeclaredAbove scope lexical →
      DeclaredAbove (s.scopeAfter table scope) (s.lexicalAfter lexical)
  | .define name _, _, _, h => h.declare name _
  | .assign _ _, _, _, h | .show _, _, _, h | .exprStmt _, _, _, h | .ret _, _, _, h => h
  | .ifElse _ thenBody elseBody, scope, lexical, h => by
      have hthen : DeclaredAbove (scopeAfterBody table thenBody scope.addLabels)
          (lexical.close (bodyLexicalAfter thenBody lexical)) :=
        DeclaredAbove.afterBody thenBody h
      exact DeclaredAbove.afterBody elseBody hthen
  | .while _ body, scope, lexical, h => by
      have hhead : DeclaredAbove scope.addLabels lexical := h
      exact DeclaredAbove.afterBody body hhead
  | .forEach binding _ body, scope, lexical, h =>
      DeclaredAbove.afterBody body ((h.hide _).declare binding _)

theorem DeclaredAbove.afterBody : ∀ (body : List Stmt) {scope : Scope} {lexical : LexicalScope},
    DeclaredAbove scope lexical →
      DeclaredAbove (scopeAfterBody table body scope) (bodyLexicalAfter body lexical)
  | [], _, _, h => h
  | s :: body, _, _, h => DeclaredAbove.afterBody body (DeclaredAbove.after s h)
end

mutual
/-- A literal the compiler accepts reads no variable. -/
theorem buildConstValue_reads : ∀ {e : Expr} {consts consts' : ConstTables} {c : ConstValue},
    buildConstValue consts e = .ok (c, consts') → e.reads = []
  | .number _, _, _, _, _ | .string _, _, _, _, _ | .bool _, _, _, _, _ | .null, _, _, _, _ => rfl
  | .array items, _, _, _, h => by
      obtain ⟨values, itemType, consts₁, hitems, -, -⟩ := buildConstValue_array h
      exact buildConstItems_reads hitems
  | .identifier _, _, _, _, h => by cases h
  | .unary _ _, _, _, _, h => by cases h
  | .binary _ _ _, _, _, _, h => by cases h
  | .call _ _, _, _, _, h => by cases h

theorem buildConstItems_reads : ∀ {items : List Expr} {consts consts' : ConstTables}
    {itemType itemType' : Option Ty} {values : List ConstValue},
    buildConstItems consts itemType items = .ok (values, itemType', consts') → readsOf items = []
  | [], _, _, _, _, _, _ => rfl
  | item :: items, _, _, _, _, _, h => by
      obtain ⟨c, consts₁, cs, hc, -, hcs, rfl⟩ := buildConstItems_cons h
      rw [readsOf, buildConstValue_reads hc, buildConstItems_reads hcs]
      rfl
end

mutual
/-- Every variable an accepted expression reads has a local. -/
theorem ExprLowers.reads_known {ctx ctx' : LoweringContext} {e : Expr} {v : Operand} :
    ExprLowers table ctx e v ctx' → ∀ x ∈ e.reads, (ctx.scope.types x).isSome
  | .literal hc, x, hx => by
      rw [buildConstValue_reads hc] at hx
      cases hx
  | .identifier hloc, x, hx => by
      obtain rfl := List.mem_singleton.mp hx
      simp [LoweringContext.scope, hloc]
  | .neg he _, x, hx => he.reads_known x hx
  | .not he _, x, hx => he.reads_known x hx
  | .tamanhoDe he _, x, hx => he.reads_known x hx
  | .tipoDe he, x, hx => he.reads_known x hx
  | .identificar he, x, hx => he.reads_known x hx
  | .observar he, x, hx => he.reads_known x hx
  | .compare hl hr _ _, x, hx | .logical hl hr _ _ _ _, x, hx | .arith hl hr _ _ _ _, x, hx =>
      (List.mem_append.mp hx).elim (hl.reads_known x) fun hx => hl.scope ▸ hr.reads_known x hx
  | .call _ _ _ hargs, x, hx => hargs.reads_known x hx

theorem ArgsLower.reads_known {ctx ctx' : LoweringContext} {types : List (Option Ty)}
    {args : List Expr} {vs : List Operand} :
    ArgsLower table ctx types args vs ctx' → ∀ x ∈ readsOf args, (ctx.scope.types x).isSome
  | .nil, x, hx => by cases hx
  | .cons he _ hargs, x, hx =>
      (List.mem_append.mp hx).elim (he.reads_known x) fun hx => he.scope ▸ hargs.reads_known x hx
end

/-- The names used at a point are declared above it. -/
def UsesDeclared (points : List (LexicalScope × Stmt)) : Prop :=
  ∀ p ∈ points, ∀ x ∈ p.2.uses, IsHiddenName x ∨ x ∈ p.1.declared

theorem UsesDeclared.singleton {s : Stmt}
    (h : ∀ x ∈ s.uses, IsHiddenName x ∨ x ∈ lexical.declared) : UsesDeclared [(lexical, s)] :=
  List.forall_mem_singleton.mpr h

mutual
/-- The compiler accepts a statement only if the text above declares the names it uses. -/
theorem StmtLowers.usesDeclared {ctx ctx' : LoweringContext} {s : Stmt} :
    StmtLowers table ctx s ctx' → ∀ {lexical : LexicalScope}, DeclaredAbove ctx.scope lexical →
      UsesDeclared (s.lexicalPoints lexical)
  | .define he _, _, h => .singleton fun x hx => h x (he.reads_known x hx)
  | .assign hloc he _, _, h => .singleton fun x hx => by
      rcases List.mem_cons.mp hx with rfl | hx
      · exact h x (by simp [LoweringContext.scope, hloc])
      · exact h x (he.reads_known x hx)
  | .show he, _, h => .singleton fun x hx => h x (he.reads_known x hx)
  | .exprStmt he, _, h => .singleton fun x hx => h x (he.reads_known x hx)
  | .ret he _, _, h => .singleton fun x hx => h x (he.reads_known x hx)
  | .retDefault _ _, _, _ => .singleton nofun
  | @StmtLowers.ifElse _ _ base ctx₂ ctx₃ _ t thenBody _ ht _ hthen helse, lexical, h => by
      have hhead : DeclaredAbove (base.ifHead t).scope lexical := by
        rw [scope_ifHead, ht.scope]
        exact h
      have hmiddle : DeclaredAbove (base.ifMiddle ctx₂).scope
          (lexical.close (bodyLexicalAfter thenBody lexical)) := by
        have hscope : (base.ifMiddle ctx₂).scope = ctx₂.scope := rfl
        rw [hscope, hthen.scope]
        exact DeclaredAbove.afterBody thenBody hhead
      refine List.forall_mem_cons.mpr ⟨fun x hx => h x (ht.reads_known x hx), ?_⟩
      exact List.forall_mem_append.mpr ⟨hthen.usesDeclared hhead, helse.usesDeclared hmiddle⟩
  | @StmtLowers.while _ _ ctx₁ ctx₂ _ t _ ht _ hbody, lexical, h => by
      have hhead : DeclaredAbove ctx.whileHead.scope lexical := h
      have htest : DeclaredAbove (ctx.whileTest ctx₁ t).scope lexical := by
        have hscope : (ctx.whileTest ctx₁ t).scope = ctx₁.scope := rfl
        rw [hscope, ht.scope]
        exact hhead
      exact List.forall_mem_cons.mpr
        ⟨fun x hx => hhead x (ht.reads_known x hx), hbody.usesDeclared htest⟩
  | @StmtLowers.forEach _ _ base ctx₁ ctx₂ binding _ v loc _ hv hloc hbody, lexical, h => by
      have hitem : DeclaredAbove (base.forEachItem ctx₁ v loc).scope (lexical.declare binding) := by
        have hscope : (base.forEachItem ctx₁ v loc).scope = ctx₁.scope := rfl
        rw [hscope, hloc.scope, scope_forEachTest, hv.scope]
        exact (h.hide _).declare binding _
      exact List.forall_mem_cons.mpr
        ⟨fun x hx => h x (hv.reads_known x hx), hbody.usesDeclared hitem⟩

theorem StmtsLower.usesDeclared {ctx ctx' : LoweringContext} {body : List Stmt} :
    StmtsLower table ctx body ctx' → ∀ {lexical : LexicalScope}, DeclaredAbove ctx.scope lexical →
      UsesDeclared (bodyLexicalPoints body lexical)
  | .nil, _, _ => nofun
  | @StmtsLower.cons _ _ _ _ s _ hs hbody, lexical, h => by
      refine List.forall_mem_append.mpr ⟨hs.usesDeclared h, hbody.usesDeclared ?_⟩
      rw [hs.scope]
      exact DeclaredAbove.after s h
end

theorem DeclaredAbove.ofParams (params : List (String × Option Ty)) {names : List String}
    (hnames : ∀ p ∈ params, p.1 ∈ names) :
    DeclaredAbove (paramScope params) (paramLexicalScope names) := by
  intro x hx
  obtain ⟨type, htype⟩ := Option.isSome_iff_exists.mp hx
  rcases foldl_update_eq_some (fun p : String × Option Ty => p.1) (·.2) _ _ htype with
    hnone | ⟨p, hp, rfl, -⟩
  · cases hnone
  · exact .inr (hnames p hp)

theorem BodyLowers.usesDeclared {start final : LoweringContext} {body : List Stmt}
    (h : BodyLowers table start body final) {lexical : LexicalScope}
    (hstart : DeclaredAbove start.scope lexical) :
    UsesDeclared (bodyLexicalPoints body lexical) := by
  cases h with
  | returns hbody _ => exact hbody.usesDeclared hstart
  | fallsOff hbody _ _ => exact hbody.usesDeclared hstart

theorem FunctionsLower.usesDeclared {consts consts' : ConstTables} {fns : List FunctionDecl}
    {lowered : List IRFunction} (h : FunctionsLower table consts fns lowered consts') :
    ∀ fn ∈ fns, UsesDeclared (bodyLexicalPoints fn.body (paramLexicalScope fn.params)) := by
  induction h with
  | nil => exact nofun
  | @cons consts _ fn fns _ _ _ hbody _ ih =>
      refine List.forall_mem_cons.mpr ⟨hbody.usesDeclared ?_, ih⟩
      rw [startContext, scope_newContext]
      exact DeclaredAbove.ofParams _ fun p hp => (List.of_mem_zip hp).1

/-- An accepted program uses only names declared above. -/
theorem ProgramLowers.usesDeclared {program : Program} {unit : IRUnit}
    (h : ProgramLowers program table unit) : UsesDeclared program.lexicalPoints := by
  cases h with
  | intro hfns hbody =>
      refine List.forall_mem_append.mpr ⟨?_, hbody.usesDeclared ?_⟩
      · intro p hp
        obtain ⟨fn, hfn, hp⟩ := List.mem_flatMap.mp hp
        exact hfns.usesDeclared fn hfn p hp
      · rw [mainContext, scope_newContext]
        exact DeclaredAbove.ofParams [] nofun

end Known

/-! ## Programs -/

mutual
theorem Expr.reads_subset : ∀ (e : Expr) {x : String}, x ∈ e.reads → x ∈ e.identifiers
  | .identifier _, x, h => h
  | .array items, x, h => readsOf_subset items h
  | .unary _ e, x, h => e.reads_subset h
  | .binary _ l r, x, h =>
      List.mem_append.mpr ((List.mem_append.mp h).imp l.reads_subset r.reads_subset)
  | .call _ args, x, h => List.mem_append_right _ (readsOf_subset args h)
  | .number _, x, h | .string _, x, h | .bool _, x, h | .null, x, h => by cases h

theorem readsOf_subset : ∀ (es : List Expr) {x : String}, x ∈ readsOf es → x ∈ identifiersOf es
  | [], x, h => by cases h
  | e :: es, x, h =>
      List.mem_append.mpr ((List.mem_append.mp h).imp e.reads_subset (readsOf_subset es))
end

theorem Stmt.uses_subset (s : Stmt) {x : String} (h : x ∈ s.uses) : x ∈ s.identifiers := by
  cases s with
  | define name e => exact List.mem_cons_of_mem _ (e.reads_subset h)
  | assign name e =>
      rcases List.mem_cons.mp h with rfl | h
      · exact List.mem_cons_self
      · exact List.mem_cons_of_mem _ (e.reads_subset h)
  | «show» e => exact e.reads_subset h
  | exprStmt e => exact e.reads_subset h
  | ret e =>
      cases e with
      | none => cases h
      | some e => exact e.reads_subset h
  | ifElse test _ _ => exact List.mem_append_left _ (test.reads_subset h)
  | «while» test _ => exact List.mem_append_left _ (test.reads_subset h)
  | forEach binding iterable _ =>
      exact List.mem_cons_of_mem _ (List.mem_append_left _ (iterable.reads_subset h))

mutual
/-- The names used at the points of a statement are among its identifiers. -/
theorem Stmt.points_identifiers : ∀ (s : Stmt) {scope : LexicalScope} {p : LexicalScope × Stmt},
    p ∈ s.lexicalPoints scope → ∀ x ∈ p.2.identifiers, x ∈ s.identifiers
  | .ifElse test thenBody elseBody, scope, p, hp, x, hx => by
      rcases List.mem_cons.mp hp with rfl | hp
      · exact hx
      · refine List.mem_append_right _ (List.mem_append.mpr ?_)
        exact (List.mem_append.mp hp).imp (fun hp => body_points_identifiers thenBody hp x hx)
          fun hp => body_points_identifiers elseBody hp x hx
  | .while test body, scope, p, hp, x, hx => by
      rcases List.mem_cons.mp hp with rfl | hp
      · exact hx
      · exact List.mem_append_right _ (body_points_identifiers body hp x hx)
  | .forEach binding iterable body, scope, p, hp, x, hx => by
      rcases List.mem_cons.mp hp with rfl | hp
      · exact hx
      · exact List.mem_cons_of_mem _
          (List.mem_append_right _ (body_points_identifiers body hp x hx))
  | .define _ _, scope, p, hp, x, hx | .assign _ _, scope, p, hp, x, hx
  | .show _, scope, p, hp, x, hx | .exprStmt _, scope, p, hp, x, hx
  | .ret _, scope, p, hp, x, hx => by
      obtain rfl := List.mem_singleton.mp hp
      exact hx

theorem body_points_identifiers : ∀ (body : List Stmt) {scope : LexicalScope}
    {p : LexicalScope × Stmt}, p ∈ bodyLexicalPoints body scope → ∀ x ∈ p.2.identifiers,
      x ∈ bodyIdentifiers body
  | [], scope, p, hp, x, hx => by cases hp
  | s :: body, scope, p, hp, x, hx =>
      List.mem_append.mpr ((List.mem_append.mp hp).imp (fun hp => s.points_identifiers hp x hx)
        fun hp => body_points_identifiers body hp x hx)
end

theorem Program.uses_subset {program : Program} {p : LexicalScope × Stmt}
    (hp : p ∈ program.lexicalPoints) {x : String} (hx : x ∈ p.2.uses) :
    x ∈ program.identifiers := by
  have hid := p.2.uses_subset hx
  rcases List.mem_append.mp hp with hp | hp
  · obtain ⟨fn, hfn, hp⟩ := List.mem_flatMap.mp hp
    refine List.mem_append_left _ (List.mem_flatMap.mpr ⟨fn, hfn, ?_⟩)
    exact List.mem_cons_of_mem _ (List.mem_append_right _ (body_points_identifiers _ hp x hid))
  · exact List.mem_append_right _ (body_points_identifiers _ hp x hid)

/-- The unit runs as the program does under block scoping, and no name is used outside its block. -/
structure BlockScoped (program : Program) (table : FunctionTable) (unit : IRUnit) : Prop where
  runs : ∀ (R : Runtime) (n : ℕ) (w w' : R.World) (v : TypedValue R),
    evalProgram .block program table n w = some (v, w') →
    ∃ c, initialConfig unit w = some c ∧
      Reaches (step tempPlacement unit) c (.finished v.value w')
  uses : ∀ p ∈ program.lexicalPoints, ∀ x ∈ p.2.uses, x ∈ p.1.visible

/-- The compiler keeps block scopes in a program where no block declares a name visible around it
and every name declared above is used only where it is visible. -/
theorem lowerProgram_blockScoped {program : Program} {table : FunctionTable} {unit : IRUnit}
    (hanalyze : analyzeProgram program = .ok table) (hlower : lowerProgram program table = .ok unit)
    (hmain : ∀ fn ∈ program.functions, fn.name ≠ mainName)
    (hnames : ∀ x ∈ program.identifiers, ¬ IsHiddenName x)
    (hfree : ShadowFree program.lexicalPoints)
    (hended : ∀ p ∈ program.lexicalPoints, ∀ x ∈ p.2.uses, x ∈ p.1.declared → x ∈ p.1.visible) :
    BlockScoped program table unit := by
  have hlowers := lowerProgram_lowers hlower
  obtain ⟨hfns, hbody⟩ := List.forall_mem_append.mp hfree
  constructor
  · intro R n w w' v heval
    have hagrees := scopings_agree R table
      (fun fn hfn p hp => hfns p (List.mem_flatMap.mpr ⟨fn, hfn, hp⟩)) n
    have hempty : @EnvAgree R (paramLexicalScope []).visible (fun _ => none) (fun _ => none) :=
      ⟨nofun, nofun⟩
    exact hlowers.reaches_of_names (analyzeProgram_tableFor hanalyze) hmain hnames
      (hagrees.call hbody hempty heval)
  · intro p hp x hx
    rcases hlowers.usesDeclared p hp x hx with hhid | hdeclared
    · exact absurd hhid (hnames x (Program.uses_subset hp hx))
    · exact hended p hp x hx hdeclared

/-- `definir x como 1`, and in a block `definir x como 2`. -/
def shadowProgram : Program :=
  { functions := []
    body := [.define "x" (.number 1), .ifElse (.number 1) [.define "x" (.number 2)] [],
      .show (.identifier "x")] }

/-- The engine prints 1; the compiled program prints 2. -/
theorem shadowProgram_not_blockScoped :
    analyzeProgram shadowProgram = .ok [] ∧
      ∃ unit, lowerProgram shadowProgram [] = .ok unit ∧ ¬ BlockScoped shadowProgram [] unit := by
  have htable : analyzeProgram shadowProgram = .ok [] := by decide +kernel
  obtain ⟨unit, hlower⟩ : ∃ unit, lowerProgram shadowProgram [] = .ok unit :=
    except_eq_ok_of_isSome (by decide +kernel)
  have hnames : ∀ x ∈ shadowProgram.identifiers, ¬ IsReserved x := by decide
  refine ⟨htable, unit, hlower, ?_⟩
  intro hscoped
  have hblock : (evalProgram .block shadowProgram [] 10 NativeWorld.initial).map
      (fun r : TypedValue nativeRuntime × NativeWorld => r.2.stdout) =
      some (bytesOf "1\n") := by decide +kernel
  have hflat : (evalProgram .flat shadowProgram [] 10 NativeWorld.initial).map
      (fun r : TypedValue nativeRuntime × NativeWorld => r.2.stdout) =
      some (bytesOf "2\n") := by decide +kernel
  obtain ⟨⟨v₁, w₁⟩, hblock, hout₁⟩ := Option.map_eq_some_iff.mp hblock
  obtain ⟨⟨v₂, w₂⟩, hflat, hout₂⟩ := Option.map_eq_some_iff.mp hflat
  obtain ⟨c₁, hc₁, hrun₁⟩ := hscoped.runs nativeRuntime 10 _ _ _ hblock
  obtain ⟨c₂, hc₂, hrun₂⟩ := (lowerProgram_lowers hlower).reaches_of_names
    (analyzeProgram_tableFor htable) nofun (fun x hx => mt IsHiddenName.isReserved (hnames x hx))
      hflat
  obtain rfl : c₁ = c₂ := Option.some.inj (hc₁.symm.trans hc₂)
  obtain ⟨-, rfl⟩ := Config.finished.inj (finished_unique hrun₁ hrun₂)
  exact absurd (hout₁.symm.trans hout₂) (by decide +kernel)

/-- A function whose loop has names of its own. -/
def blocksProgram : Program :=
  { functions := [⟨"soma", ["n"],
      [.define "total" (.number 0),
       .while (.binary .gt (.identifier "n") (.number 0))
        [.define "passo" (.identifier "n"),
         .assign "total" (.binary .add (.identifier "total") (.identifier "passo")),
         .assign "n" (.binary .sub (.identifier "n") (.number 1))],
       .ret (some (.identifier "total"))]⟩]
    body := [.show (.call (.identifier "soma") [.number 3])] }

def blocksTable : FunctionTable := [⟨"soma", [some .i64], some .i64⟩]

theorem lowerProgram_blockScoped_soma :
    ∃ unit, lowerProgram blocksProgram blocksTable = .ok unit ∧
      BlockScoped blocksProgram blocksTable unit := by
  obtain ⟨unit, hlower⟩ : ∃ unit, lowerProgram blocksProgram blocksTable = .ok unit :=
    except_eq_ok_of_isSome (by decide +kernel)
  have htable : analyzeProgram blocksProgram = .ok blocksTable := by decide +kernel
  have hnames : ∀ x ∈ blocksProgram.identifiers, ¬ IsReserved x := by decide
  refine ⟨unit, hlower, lowerProgram_blockScoped htable hlower (by decide)
    (fun x hx => mt IsHiddenName.isReserved (hnames x hx)) ?_ ?_⟩
  · unfold ShadowFree
    decide +kernel
  · decide +kernel

end GatoCore.Native
