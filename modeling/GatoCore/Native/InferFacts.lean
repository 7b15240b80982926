import Mathlib.Data.List.Nodup
import Mathlib.Logic.Relation
import GatoCore.Lib.StateExcept
import GatoCore.Native.Infer

/-!
# What inference does to the function table

Inference changes the table in two ways only: a call merges the type of an argument into a
parameter of the called function, and a `retornar` merges a type into the return type of the
function it stands in. Every other fact about the final table is derived from these commits.
-/

namespace GatoCore.Native

open GatoCore.Lib Relation

/-! ## The calls and returns inference looks at -/

mutual
/-- The functions whose parameters inference of an expression commits; the operands of most unary
operators are not visited. -/
def Expr.inferredCalls : Expr → List String
  | .array items => inferredCallsOf items
  | .unary .observar e => e.inferredCalls
  | .binary _ l r => l.inferredCalls ++ r.inferredCalls
  | .call (.identifier name) args => name :: inferredCallsOf args
  | _ => []

def inferredCallsOf : List Expr → List String
  | [] => []
  | e :: es => e.inferredCalls ++ inferredCallsOf es
end

mutual
def Stmt.inferredCalls : Stmt → List String
  | .define _ e => e.inferredCalls
  | .assign _ e => e.inferredCalls
  | .show e => e.inferredCalls
  | .exprStmt e => e.inferredCalls
  | .ret (some e) => e.inferredCalls
  | .ret none => []
  | .ifElse test thenBody elseBody =>
      test.inferredCalls ++ (bodyCalls thenBody ++ bodyCalls elseBody)
  | .while test body => test.inferredCalls ++ bodyCalls body
  | .forEach _ iterable body => iterable.inferredCalls ++ bodyCalls body

def bodyCalls : List Stmt → List String
  | [] => []
  | s :: body => s.inferredCalls ++ bodyCalls body
end

mutual
def Stmt.hasReturn : Stmt → Bool
  | .ret _ => true
  | .ifElse _ thenBody elseBody => bodyReturns thenBody || bodyReturns elseBody
  | .while _ body => bodyReturns body
  | .forEach _ _ body => bodyReturns body
  | _ => false

def bodyReturns : List Stmt → Bool
  | [] => false
  | s :: body => s.hasReturn || bodyReturns body
end

/-! ## Commits -/

/-- One change of the table: a parameter of a function in `calls`, or the return type of a function
in `rets`. -/
inductive Commit (calls rets : List String) : FunctionTable → FunctionTable → Prop
  | param {table : FunctionTable} {name : String} {i : ℕ} {type : Ty} {merged : Option Ty} :
      name ∈ calls → mergeType (table.paramType name i) (some type) = some merged →
      Commit calls rets table (table.setParamType name i merged)
  | ret {table : FunctionTable} {name : String} {type : Ty} {merged : Option Ty} :
      name ∈ rets → mergeType (table.returnType name) (some type) = some merged →
      Commit calls rets table (table.setReturnType name merged)

abbrev Commits (calls rets : List String) : FunctionTable → FunctionTable → Prop :=
  ReflTransGen (Commit calls rets)

theorem Commit.mono {calls calls' rets rets' : List String} (hc : calls ⊆ calls')
    (hr : rets ⊆ rets') {t t' : FunctionTable} (h : Commit calls rets t t') :
    Commit calls' rets' t t' := by
  cases h with
  | param hname hm => exact .param (hc hname) hm
  | ret hname hm => exact .ret (hr hname) hm

theorem Commits.mono {calls calls' rets rets' : List String} (hc : calls ⊆ calls')
    (hr : rets ⊆ rets') {t t' : FunctionTable} (h : Commits calls rets t t') :
    Commits calls' rets' t t' :=
  ReflTransGen.mono (fun _ _ => Commit.mono hc hr) _ _ h

theorem Commits.append {c₁ c₂ rets : List String} {t t₁ t₂ : FunctionTable}
    (h : Commits c₁ rets t t₁) (h' : Commits c₂ rets t₁ t₂) : Commits (c₁ ++ c₂) rets t t₂ :=
  (h.mono (List.subset_append_left _ _) (List.Subset.refl _)).trans
    (h'.mono (List.subset_append_right _ _) (List.Subset.refl _))

/-! ## What a run of inference went through -/

section Runs

variable {env : TypeEnv} {t t' : FunctionTable} {type : Option Ty}

/-- Both operands are inferred, and a text is compared only. -/
theorem inferExpressionType_binary_run {op : BinaryOp} {l r : Expr}
    (h : (inferExpressionType env (.binary op l r)).run t = .ok (type, t')) :
    ∃ a b t₁, (inferExpressionType env l).run t = .ok (a, t₁) ∧
      (inferExpressionType env r).run t₁ = .ok (b, t') ∧
      ((op.isLogical || op.isComparison) = true ∨ a ≠ some .str ∧ b ≠ some .str) ∧
      type = if op.isLogical || op.isComparison then some .bool else some .i64 := by
  rw [inferExpressionType] at h
  obtain ⟨a, t₁, hl, h⟩ := run_bind_ok.mp h
  obtain ⟨b, t₂, hr, h⟩ := run_bind_ok.mp h
  -- connectives and comparisons come before the check of texts
  split at h
  · rename_i hop
    simp only [run_pure_ok, Prod.mk.injEq] at h
    obtain ⟨rfl, rfl⟩ := h
    exact ⟨a, b, t₁, hl, hr, .inl hop, (if_pos hop).symm⟩
  · rename_i hop
    split at h
    · exact (run_throw_ok.mp h).elim
    · rename_i htext
      simp only [run_pure_ok, Prod.mk.injEq] at h
      obtain ⟨rfl, rfl⟩ := h
      exact ⟨a, b, t₁, hl, hr, .inr (not_or.mp htext), (if_neg hop).symm⟩

/-- A function is called by its name, and its result is read after the arguments. -/
theorem inferExpressionType_call_run {callee : Expr} {args : List Expr}
    (h : (inferExpressionType env (.call callee args)).run t = .ok (type, t')) :
    ∃ name, callee = .identifier name ∧ (inferArgs env name 0 args).run t = .ok ((), t') ∧
      type = some ((t'.returnType name).getD defaultReturnType) := by
  cases callee with
  | identifier name =>
      rw [inferExpressionType] at h
      split at h
      · exact (run_throw_bind_ok.mp h).elim
      · simp only [run_bind_ok, run_get_ok, Prod.mk.injEq] at h
        obtain ⟨_, _, ⟨rfl, rfl⟩, h⟩ := h
        split at h
        · exact (run_throw_ok.mp h).elim
        · split at h
          · exact (run_throw_bind_ok.mp h).elim
          · simp only [run_bind_ok, run_get_ok, run_pure_ok, Prod.mk.injEq] at h
            obtain ⟨_, t₁, hargs, _, _, ⟨rfl, rfl⟩, rfl, rfl⟩ := h
            exact ⟨name, rfl, hargs, rfl⟩
  | _ =>
      rw [inferExpressionType] at h
      · exact (run_throw_ok.mp h).elim
      · simp

/-- An argument is inferred and merged into its parameter before the next one is. -/
theorem inferArgs_cons_run {name : String} {i : ℕ} {arg : Expr} {args : List Expr} {u : Unit}
    (h : (inferArgs env name i (arg :: args)).run t = .ok (u, t')) :
    ∃ seen t₁ merged, (inferExpressionType env arg).run t = .ok (seen, t₁) ∧
      mergeType (t₁.paramType name i) (some (seen.getD defaultParamType)) = some merged ∧
      (inferArgs env name (i + 1) args).run (t₁.setParamType name i merged) = .ok (u, t') := by
  rw [inferArgs] at h
  simp only [run_bind_ok, run_get_ok, Prod.mk.injEq] at h
  obtain ⟨seen, t₁, harg, _, _, ⟨rfl, rfl⟩, h⟩ := h
  split at h
  · exact (run_throw_ok.mp h).elim
  · rename_i merged hmerge
    simp only [run_bind_ok, run_modify_ok, Prod.mk.injEq] at h
    obtain ⟨_, _, ⟨_, rfl⟩, h⟩ := h
    exact ⟨seen, t₁, merged, harg, hmerge, h⟩

end Runs

mutual
theorem inferExpressionType_commits {env : TypeEnv} :
    ∀ {e : Expr} {t t' : FunctionTable} {type : Option Ty},
      (inferExpressionType env e).run t = .ok (type, t') → Commits e.inferredCalls [] t t'
  | .number _, _, _, _, h | .bool _, _, _, _, h | .null, _, _, _, h | .string _, _, _, _, h
  | .identifier _, _, _, _, h | .unary .neg _, _, _, _, h | .unary .not _, _, _, _, h
  | .unary .tamanhoDe _, _, _, _, h | .unary .tipoDe _, _, _, _, h
  | .unary .identificar _, _, _, _, h => by
      simp only [inferExpressionType, run_pure_ok, Prod.mk.injEq] at h
      obtain ⟨_, rfl⟩ := h
      exact .refl
  | .array items, _, _, _, h => by
      rw [inferExpressionType] at h
      obtain ⟨_, t₁, hitems, h⟩ := run_bind_ok.mp h
      simp only [run_pure_ok, Prod.mk.injEq] at h
      obtain ⟨_, rfl⟩ := h
      exact inferItems_commits hitems
  | .unary .observar e, _, _, _, h => by
      rw [inferExpressionType] at h
      obtain ⟨_, t₁, he, h⟩ := run_bind_ok.mp h
      simp only [run_pure_ok, Prod.mk.injEq] at h
      obtain ⟨_, rfl⟩ := h
      rw [Expr.inferredCalls]
      exact inferExpressionType_commits he
  | .binary op l r, _, _, _, h => by
      obtain ⟨a, b, t₁, hl, hr, -, -⟩ := inferExpressionType_binary_run h
      exact (inferExpressionType_commits hl).append (inferExpressionType_commits hr)
  | .call callee args, _, _, _, h => by
      obtain ⟨name, rfl, hargs, -⟩ := inferExpressionType_call_run h
      exact inferArgs_commits hargs

theorem inferItems_commits {env : TypeEnv} :
    ∀ {items : List Expr} {arrType : Option Ty} {t t' : FunctionTable} {type : Option Ty},
      (inferItems env arrType items).run t = .ok (type, t') →
      Commits (inferredCallsOf items) [] t t'
  | [], _, _, _, _, h => by
      simp only [inferItems, run_pure_ok, Prod.mk.injEq] at h
      obtain ⟨_, rfl⟩ := h
      exact .refl
  | item :: items, none, _, _, _, h => by
      rw [inferItems] at h
      obtain ⟨_, t₁, hitem, h⟩ := run_bind_ok.mp h
      exact (inferExpressionType_commits hitem).append (inferItems_commits h)
  | item :: items, some type, _, _, _, h => by
      rw [inferItems] at h
      obtain ⟨_, t₁, hitem, h⟩ := run_bind_ok.mp h
      dsimp only at h
      split at h
      · exact (run_throw_bind_ok.mp h).elim
      · exact (inferExpressionType_commits hitem).append (inferItems_commits h)

theorem inferArgs_commits {env : TypeEnv} {name : String} :
    ∀ {args : List Expr} {i : ℕ} {t t' : FunctionTable} {u : Unit},
      (inferArgs env name i args).run t = .ok (u, t') →
      Commits (name :: inferredCallsOf args) [] t t'
  | [], _, _, _, _, h => by
      simp only [inferArgs, run_pure_ok, Prod.mk.injEq] at h
      obtain ⟨_, rfl⟩ := h
      exact .refl
  | arg :: args, i, _, _, _, h => by
      obtain ⟨seen, t₁, merged, harg, hm, h⟩ := inferArgs_cons_run h
      have hrest := inferArgs_commits h
      have h₁ := (inferExpressionType_commits harg).mono
        (show _ ⊆ name :: inferredCallsOf (arg :: args) by
          intro x hx
          simp [inferredCallsOf, hx]) (List.Subset.refl _)
      refine h₁.trans (.head (.param (List.mem_cons_self ..) hm) (hrest.mono ?_ ?_))
      · intro x hx
        rcases List.mem_cons.mp hx with rfl | hx
        · exact List.mem_cons_self ..
        · simp [inferredCallsOf, hx]
      · exact List.Subset.refl _
end

theorem mergeReturn_commits {metaName : String} {type : Ty} {t t' : FunctionTable} {b : Bool}
    (h : (mergeReturn metaName type).run t = .ok (b, t')) : Commits [] [metaName] t t' := by
  simp only [mergeReturn, run_bind_ok, run_get_ok, Prod.mk.injEq] at h
  obtain ⟨_, _, ⟨rfl, rfl⟩, h⟩ := h
  split at h
  · exact (run_throw_ok.mp h).elim
  · rename_i merged hm
    split at h
    · simp only [run_bind_ok, run_modify_ok, run_pure_ok, Prod.mk.injEq] at h
      obtain ⟨_, _, ⟨_, rfl⟩, _, rfl⟩ := h
      exact .single (.ret (List.mem_singleton_self _) hm)
    · simp only [run_pure_ok, Prod.mk.injEq] at h
      obtain ⟨_, rfl⟩ := h
      exact .refl

theorem Commits.calls_append {c₁ c₂ r₁ r₂ rets : List String} {t t₁ t₂ : FunctionTable}
    (h : Commits c₁ r₁ t t₁) (h' : Commits c₂ r₂ t₁ t₂) (hr₁ : r₁ ⊆ rets) (hr₂ : r₂ ⊆ rets) :
    Commits (c₁ ++ c₂) rets t t₂ :=
  (h.mono (List.Subset.refl _) hr₁).append (h'.mono (List.Subset.refl _) hr₂)

/-- The function inference may commit a return type of. -/
def retsOf (metaName : String) (returns : Bool) : List String :=
  if returns then [metaName] else []

theorem retsOf_mono {metaName : String} {a b : Bool} (h : a = true → b = true) :
    retsOf metaName a ⊆ retsOf metaName b := by
  cases a with
  | false => simp [retsOf]
  | true => simp [retsOf, h rfl]

mutual
theorem inferStatement_commits {metaName : String} :
    ∀ {s : Stmt} {env : TypeEnv} {t t' : FunctionTable} {r : TypeEnv × Bool},
      (inferStatement metaName env s).run t = .ok (r, t') →
      Commits s.inferredCalls (retsOf metaName s.hasReturn) t t'
  | .define name e, _, _, _, _, h => by
      rw [inferStatement] at h
      obtain ⟨_, t₁, he, h⟩ := run_bind_ok.mp h
      simp only [run_pure_ok, Prod.mk.injEq] at h
      obtain ⟨_, rfl⟩ := h
      exact inferExpressionType_commits he
  | .assign name e, env, _, _, _, h => by
      rw [inferStatement] at h
      obtain ⟨_, t₁, he, h⟩ := run_bind_ok.mp h
      have hcommits := inferExpressionType_commits he
      dsimp only at h
      split at h
      · simp only [run_pure_ok, Prod.mk.injEq] at h
        obtain ⟨_, rfl⟩ := h
        exact hcommits
      · split at h
        · exact (run_throw_bind_ok.mp h).elim
        · simp only [run_pure_ok, Prod.mk.injEq] at h
          obtain ⟨_, rfl⟩ := h
          exact hcommits
  | .show e, _, _, _, _, h | .exprStmt e, _, _, _, _, h => by
      rw [inferStatement] at h
      obtain ⟨_, t₁, he, h⟩ := run_bind_ok.mp h
      simp only [run_pure_ok, Prod.mk.injEq] at h
      obtain ⟨_, rfl⟩ := h
      exact inferExpressionType_commits he
  | .ret (some e), _, _, _, _, h => by
      rw [inferStatement] at h
      obtain ⟨_, t₁, he, h⟩ := run_bind_ok.mp h
      simp only [run_bind_ok, run_pure_ok, Prod.mk.injEq] at h
      obtain ⟨_, t₂, hm, _, rfl⟩ := h
      have := (inferExpressionType_commits he).calls_append (mergeReturn_commits hm)
        (List.nil_subset _) (List.Subset.refl _)
      rw [List.append_nil] at this
      exact this
  | .ret none, _, _, _, _, h => by
      rw [inferStatement] at h
      simp only [run_bind_ok, run_get_ok, run_pure_ok, Prod.mk.injEq] at h
      obtain ⟨_, _, ⟨rfl, rfl⟩, _, t₂, hm, _, rfl⟩ := h
      exact mergeReturn_commits hm
  | .ifElse test thenBody elseBody, _, _, _, _, h => by
      rw [inferStatement] at h
      obtain ⟨_, t₁, ht, h⟩ := run_bind_ok.mp h
      obtain ⟨_, t₂, hthen, h⟩ := run_bind_ok.mp h
      obtain ⟨_, t₃, helse, h⟩ := run_bind_ok.mp h
      simp only [run_pure_ok, Prod.mk.injEq] at h
      obtain ⟨_, rfl⟩ := h
      refine (inferExpressionType_commits ht).calls_append
        ((inferStatements_commits hthen).calls_append (inferStatements_commits helse) ?_ ?_)
        (List.nil_subset _) (List.Subset.refl _)
      · exact retsOf_mono (by simp +contextual [Stmt.hasReturn])
      · exact retsOf_mono (by simp +contextual [Stmt.hasReturn])
  | .while test body, _, _, _, _, h => by
      rw [inferStatement] at h
      obtain ⟨_, t₁, ht, h⟩ := run_bind_ok.mp h
      obtain ⟨_, t₂, hbody, h⟩ := run_bind_ok.mp h
      simp only [run_pure_ok, Prod.mk.injEq] at h
      obtain ⟨_, rfl⟩ := h
      exact (inferExpressionType_commits ht).calls_append (inferStatements_commits hbody)
        (List.nil_subset _) (List.Subset.refl _)
  | .forEach binding iterable body, _, _, _, _, h => by
      rw [inferStatement] at h
      obtain ⟨_, t₁, ht, h⟩ := run_bind_ok.mp h
      split at h
      · exact (run_throw_bind_ok.mp h).elim
      · obtain ⟨_, t₂, hbody, h⟩ := run_bind_ok.mp h
        simp only [run_pure_ok, Prod.mk.injEq] at h
        obtain ⟨_, rfl⟩ := h
        exact (inferExpressionType_commits ht).calls_append (inferStatements_commits hbody)
          (List.nil_subset _) (List.Subset.refl _)

theorem inferStatements_commits {metaName : String} :
    ∀ {body : List Stmt} {env : TypeEnv} {t t' : FunctionTable} {r : TypeEnv × Bool},
      (inferStatements metaName env body).run t = .ok (r, t') →
      Commits (bodyCalls body) (retsOf metaName (bodyReturns body)) t t'
  | [], _, _, _, _, h => by
      simp only [inferStatements, run_pure_ok, Prod.mk.injEq] at h
      obtain ⟨_, rfl⟩ := h
      exact .refl
  | s :: body, _, _, _, _, h => by
      rw [inferStatements] at h
      obtain ⟨_, t₁, hs, h⟩ := run_bind_ok.mp h
      obtain ⟨_, t₂, hbody, h⟩ := run_bind_ok.mp h
      simp only [run_pure_ok, Prod.mk.injEq] at h
      obtain ⟨_, rfl⟩ := h
      refine (inferStatement_commits hs).calls_append (inferStatements_commits hbody) ?_ ?_
      · exact retsOf_mono (by simp +contextual [bodyReturns])
      · exact retsOf_mono (by simp +contextual [bodyReturns])
end

/-! ## The shape of the table -/

/-- The functions of a table and how many parameters each has. -/
def FunctionTable.shape (table : FunctionTable) : List (String × ℕ) :=
  table.map fun m => (m.name, m.paramTypes.length)

theorem FunctionTable.shape_setParamType (table : FunctionTable) (name : String) (i : ℕ)
    (type : Option Ty) : (table.setParamType name i type).shape = table.shape := by
  simp only [shape, setParamType, modify, List.map_map]
  refine List.map_congr_left fun m _ => ?_
  simp only [Function.comp]
  split <;> simp

theorem FunctionTable.shape_setReturnType (table : FunctionTable) (name : String)
    (type : Option Ty) : (table.setReturnType name type).shape = table.shape := by
  simp only [shape, setReturnType, modify, List.map_map]
  refine List.map_congr_left fun m _ => ?_
  simp only [Function.comp]
  split <;> simp

theorem Commits.shape {calls rets : List String} {t t' : FunctionTable}
    (h : Commits calls rets t t') : t'.shape = t.shape := by
  induction h with
  | refl => rfl
  | tail _ hc ih =>
      cases hc with
      | param => rw [FunctionTable.shape_setParamType, ih]
      | ret => rw [FunctionTable.shape_setReturnType, ih]

theorem inferFunction_commits {fn : FunctionDecl} {t t' : FunctionTable} {b : Bool}
    (h : (inferFunction fn).run t = .ok (b, t')) : ∃ calls rets, Commits calls rets t t' := by
  simp only [inferFunction, run_bind_ok, run_get_ok, run_pure_ok, Prod.mk.injEq] at h
  obtain ⟨_, _, ⟨rfl, rfl⟩, _, _, hbody, _, rfl⟩ := h
  exact ⟨_, _, inferStatements_commits hbody⟩

theorem Commits.both {c₁ c₂ r₁ r₂ : List String} {t t₁ t₂ : FunctionTable}
    (h : Commits c₁ r₁ t t₁) (h' : Commits c₂ r₂ t₁ t₂) : Commits (c₁ ++ c₂) (r₁ ++ r₂) t t₂ :=
  h.calls_append h' (List.subset_append_left _ _) (List.subset_append_right _ _)

theorem inferPass_commits :
    ∀ {fns : List FunctionDecl} {t t' : FunctionTable} {b : Bool},
      (inferPass fns).run t = .ok (b, t') →
      ∃ calls rets, Commits calls rets t t'
  | [], _, _, _, h => by
      simp only [inferPass, run_pure_ok, Prod.mk.injEq] at h
      obtain ⟨_, rfl⟩ := h
      exact ⟨[], [], .refl⟩
  | fn :: fns, _, _, _, h => by
      rw [inferPass] at h
      obtain ⟨_, t₁, hfn, h⟩ := run_bind_ok.mp h
      obtain ⟨_, t₂, hfns, h⟩ := run_bind_ok.mp h
      simp only [run_pure_ok, Prod.mk.injEq] at h
      obtain ⟨_, rfl⟩ := h
      obtain ⟨_, _, hfirst⟩ := inferFunction_commits hfn
      obtain ⟨_, _, hrest⟩ := inferPass_commits hfns
      exact ⟨_, _, hfirst.both hrest⟩

theorem inferPasses_commits {fns : List FunctionDecl} :
    ∀ {n : ℕ} {t t' : FunctionTable} {u : Unit},
      (inferPasses fns n).run t = .ok (u, t') → ∃ calls rets, Commits calls rets t t'
  | 0, _, _, _, h => by
      simp only [inferPasses, run_pure_ok, Prod.mk.injEq] at h
      obtain ⟨_, rfl⟩ := h
      exact ⟨[], [], .refl⟩
  | n + 1, _, _, _, h => by
      rw [inferPasses] at h
      obtain ⟨changed, t₁, hpass, h⟩ := run_bind_ok.mp h
      obtain ⟨_, _, hfirst⟩ := inferPass_commits hpass
      split at h
      · obtain ⟨_, _, hrest⟩ := inferPasses_commits h
        exact ⟨_, _, hfirst.both hrest⟩
      · simp only [run_pure_ok, Prod.mk.injEq] at h
        obtain ⟨_, rfl⟩ := h
        exact ⟨_, _, hfirst⟩

theorem inferPasses_shape {fns : List FunctionDecl} {n : ℕ} {t t' : FunctionTable} {u : Unit}
    (h : (inferPasses fns n).run t = .ok (u, t')) : t'.shape = t.shape := by
  obtain ⟨_, _, hcommits⟩ := inferPasses_commits h
  exact hcommits.shape

theorem declareFunctions_shape :
    ∀ {fns : List FunctionDecl} {t t' : FunctionTable}, declareFunctions t fns = .ok t' →
      (t.shape.map (·.1)).Nodup →
      t'.shape = t.shape ++ fns.map (fun fn => (fn.name, fn.params.length)) ∧
        (t'.shape.map (·.1)).Nodup ∧ ∀ fn ∈ fns, fn.name ≠ defaultsKey
  | [], _, _, h, hnd => by
      cases h
      simp [hnd]
  | fn :: fns, t, t', h, hnd => by
      rw [declareFunctions] at h
      split at h
      · cases h
      · rename_i hname
        rw [not_or] at hname
        have hfresh : fn.name ∉ t.shape.map (·.1) := by
          intro hmem
          obtain ⟨_, hp, hpn⟩ := List.mem_map.mp hmem
          obtain ⟨m, hm, rfl⟩ := List.mem_map.mp hp
          refine hname.2 ?_
          rw [FunctionTable.lookup, List.find?_isSome]
          exact ⟨m, hm, by simpa using hpn⟩
        obtain ⟨hshape, hnd', hkeys⟩ := declareFunctions_shape h (by
          simp only [FunctionTable.shape, List.map_append, List.map_cons, List.map_nil]
            at hnd hfresh ⊢
          exact List.nodup_append.mpr ⟨hnd, by simp, by
            intro a ha b hb
            rw [List.mem_singleton] at hb
            subst hb
            rintro rfl
            exact hfresh ha⟩)
        refine ⟨?_, hnd', ?_⟩
        · rw [hshape]
          simp [FunctionTable.shape]
        · intro g hg
          rcases List.mem_cons.mp hg with rfl | hg
          · exact hname.1
          · exact hkeys g hg

/-- What later phases rely on: one entry per function, in order, with all its types known. -/
structure TableFor (fns : List FunctionDecl) (table : FunctionTable) : Prop where
  shape : table.shape = fns.map fun fn => (fn.name, fn.params.length)
  nodup : (fns.map (·.name)).Nodup
  keys : ∀ fn ∈ fns, fn.name ≠ defaultsKey
  paramTypes : ∀ m ∈ table, ∀ type ∈ m.paramTypes, type.isSome
  returnType : ∀ m ∈ table, m.returnType.isSome

theorem finalizeTable_shape (table : FunctionTable) :
    (finalizeTable table).shape = table.shape := by
  simp [finalizeTable, FunctionTable.shape]

theorem analyzeProgram_tableFor {program : Program} {table : FunctionTable}
    (h : analyzeProgram program = .ok table) : TableFor program.functions table := by
  unfold analyzeProgram at h
  obtain ⟨t₀, hdecl, h⟩ := except_bind_ok.mp h
  obtain ⟨⟨_, t₁⟩, hpasses, h⟩ := except_bind_ok.mp h
  cases h
  obtain ⟨hshape, hnd, hkeys⟩ := declareFunctions_shape hdecl (by simp [FunctionTable.shape])
  have hshape' : (finalizeTable t₁).shape =
      program.functions.map fun fn => (fn.name, fn.params.length) := by
    rw [finalizeTable_shape, inferPasses_shape hpasses, hshape]
    rfl
  refine ⟨hshape', ?_, hkeys, ?_, ?_⟩
  · rw [hshape] at hnd
    simpa [FunctionTable.shape, Function.comp_def] using hnd
  · intro m hm type htype
    obtain ⟨m', _, rfl⟩ := List.mem_map.mp hm
    obtain ⟨type', _, rfl⟩ := List.mem_map.mp htype
    rfl
  · intro m hm
    obtain ⟨m', _, rfl⟩ := List.mem_map.mp hm
    rfl

section Shape

variable {fns : List FunctionDecl} {table : FunctionTable}

/-- The entry of a name is that of a function. -/
theorem exists_function_of_shape
    (hshape : table.shape = fns.map fun fn => (fn.name, fn.params.length)) {name : String}
    {entry : FnMeta} (hentry : table.lookup name = some entry) :
    ∃ fn ∈ fns, fn.name = name ∧ fn.params.length = entry.paramTypes.length := by
  have hname : entry.name = name := by simpa using List.find?_some hentry
  have hmem : (entry.name, entry.paramTypes.length) ∈ table.shape :=
    List.mem_map.mpr ⟨entry, List.mem_of_find?_eq_some hentry, rfl⟩
  rw [hshape] at hmem
  obtain ⟨fn, hfn, heq⟩ := List.mem_map.mp hmem
  obtain ⟨hfst, hsnd⟩ := Prod.mk.inj heq
  exact ⟨fn, hfn, hfst.trans hname, hsnd⟩

/-- Every function has an entry, with one type for each parameter. -/
theorem exists_entry_of_shape
    (hshape : table.shape = fns.map fun fn => (fn.name, fn.params.length))
    (hnodup : (fns.map (·.name)).Nodup) {fn : FunctionDecl} (hfn : fn ∈ fns) :
    ∃ entry, table.lookup fn.name = some entry ∧ fn.params.length = entry.paramTypes.length := by
  have hmem : (fn.name, fn.params.length) ∈ table.shape := by
    rw [hshape]
    exact List.mem_map.mpr ⟨fn, hfn, rfl⟩
  obtain ⟨m, hm, heq⟩ := List.mem_map.mp hmem
  have hsome : (table.lookup fn.name).isSome := by
    rw [FunctionTable.lookup, List.find?_isSome]
    exact ⟨m, hm, by simpa using (Prod.mk.inj heq).1⟩
  obtain ⟨entry, hentry⟩ := Option.isSome_iff_exists.mp hsome
  obtain ⟨g, hg, hname, hlen⟩ := exists_function_of_shape hshape hentry
  have hgfn : g = fn := List.inj_on_of_nodup_map hnodup hg hfn hname
  exact ⟨entry, hentry, hgfn ▸ hlen⟩

theorem TableFor.exists_function (h : TableFor fns table) {name : String} {entry : FnMeta}
    (hentry : table.lookup name = some entry) :
    ∃ fn ∈ fns, fn.name = name ∧ fn.params.length = entry.paramTypes.length :=
  exists_function_of_shape h.shape hentry

theorem TableFor.exists_entry (h : TableFor fns table) {fn : FunctionDecl} (hfn : fn ∈ fns) :
    ∃ entry, table.lookup fn.name = some entry ∧ fn.params.length = entry.paramTypes.length :=
  exists_entry_of_shape h.shape h.nodup hfn

end Shape

end GatoCore.Native
