import GatoCore.Native.StaticTypes

/-!
# Lowering a text again

Whether a text is lowered depends on the types of the names in scope and on the entries of the
function table, not on the constants that were interned before it or on the order of the table.
-/

namespace GatoCore.Native

open GatoCore.Lib

/-! ## The order of the table -/

section Congr

variable {table table' : FunctionTable}

mutual
theorem lowerExpr_congr (h : ∀ name, table'.lookup name = table.lookup name) :
    ∀ e : Expr, lowerExpr table' e = lowerExpr table e
  | .number _ | .string _ | .bool _ | .null | .array _ | .identifier _ => by
      rw [lowerExpr, lowerExpr]
  | .unary op e => by rw [lowerExpr, lowerExpr, lowerExpr_congr h e]
  | .binary op l r => by rw [lowerExpr, lowerExpr, lowerExpr_congr h l, lowerExpr_congr h r]
  | .call (.identifier name) args => by
      rw [lowerExpr, lowerExpr, h name]
      simp only [lowerArgs_congr h name _ args]
  | .call (.number _) _ | .call (.string _) _ | .call (.bool _) _ | .call .null _
  | .call (.array _) _ | .call (.unary _ _) _ | .call (.binary _ _ _) _ | .call (.call _ _) _ => by
      rw [lowerExpr, lowerExpr]
      all_goals nofun

theorem lowerArgs_congr (h : ∀ name, table'.lookup name = table.lookup name) (name : String) :
    ∀ (types : List (Option Ty)) (args : List Expr),
    lowerArgs table' name types args = lowerArgs table name types args
  | _, [] => by rw [lowerArgs, lowerArgs]
  | types, arg :: args => by
      rw [lowerArgs, lowerArgs, lowerExpr_congr h arg, lowerArgs_congr h name types.tail args]
end

mutual
theorem lowerStatement_congr (h : ∀ name, table'.lookup name = table.lookup name) :
    ∀ s : Stmt, lowerStatement table' s = lowerStatement table s
  | .define _ e | .assign _ e | .show e | .exprStmt e | .ret (some e) => by
      rw [lowerStatement, lowerStatement, lowerExpr_congr h e]
  | .ret none => by rw [lowerStatement, lowerStatement]
  | .ifElse test thenBody elseBody => by
      rw [lowerStatement, lowerStatement, lowerExpr_congr h test,
        lowerStatementList_congr h thenBody, lowerStatementList_congr h elseBody]
  | .while test body => by
      rw [lowerStatement, lowerStatement, lowerExpr_congr h test, lowerStatementList_congr h body]
  | .forEach _ iterable body => by
      rw [lowerStatement, lowerStatement, lowerExpr_congr h iterable,
        lowerStatementList_congr h body]

theorem lowerStatementList_congr (h : ∀ name, table'.lookup name = table.lookup name) :
    ∀ body : List Stmt, lowerStatementList table' body = lowerStatementList table body
  | [] => by rw [lowerStatementList, lowerStatementList]
  | s :: body => by
      rw [lowerStatementList, lowerStatementList, lowerStatement_congr h s,
        lowerStatementList_congr h body]
end

theorem lowerBody_congr (h : ∀ name, table'.lookup name = table.lookup name)
    (consts : ConstTables) (name : String) (returnType : Option Ty)
    (params : List (String × Option Ty)) (body : List Stmt) :
    lowerBody table' consts name returnType params body =
      lowerBody table consts name returnType params body := by
  rw [lowerBody, lowerBody, lowerStatementList_congr h]

theorem lowerFunction_congr (h : ∀ name, table'.lookup name = table.lookup name)
    (consts : ConstTables) (fn : FunctionDecl) :
    lowerFunction table' consts fn = lowerFunction table consts fn := by
  rw [lowerFunction, lowerFunction, h fn.name, FunctionTable.returnType, FunctionTable.returnType,
    h fn.name]
  simp only [lowerBody_congr h]

end Congr

/-! ## The constants -/

mutual
theorem buildConstValue_again : ∀ {e : Expr} {consts consts' : ConstTables} {c : ConstValue},
    buildConstValue consts e = .ok (c, consts') →
    ∀ start, ∃ r, buildConstValue start e = .ok r
  | .number _, _, _, _, _, _ | .string _, _, _, _, _, _ | .bool _, _, _, _, _, _
  | .null, _, _, _, _, _ => by
      rw [buildConstValue]
      exact ⟨_, rfl⟩
  | .array items, _, _, _, h, start => by
      obtain ⟨_, _, _, hitems, -, -⟩ := buildConstValue_array h
      obtain ⟨_, hagain⟩ := buildConstItems_again hitems start
      rw [buildConstValue, hagain]
      exact ⟨_, rfl⟩
  | .identifier _, _, _, _, h, _ | .unary _ _, _, _, _, h, _ | .binary _ _ _, _, _, _, h, _
  | .call _ _, _, _, _, h, _ => by cases h

theorem buildConstItems_again :
    ∀ {items : List Expr} {consts consts' : ConstTables} {itemType itemType' : Option Ty}
      {values : List ConstValue},
      buildConstItems consts itemType items = .ok (values, itemType', consts') →
      ∀ start, ∃ r, buildConstItems start itemType items = .ok r
  | [], _, _, _, _, _, _, _ => ⟨_, rfl⟩
  | item :: items, _, _, itemType, _, _, h, start => by
      obtain ⟨c, _, _, hc, htype, hitems, -⟩ := buildConstItems_cons h
      obtain ⟨⟨c', start₁⟩, hc'⟩ := buildConstValue_again hc start
      -- a constant has the type of its literal, whatever was interned before it
      have hsame : c'.type = c.type := by
        have hliteral : ∀ {consts consts' : ConstTables} {c : ConstValue},
            buildConstValue consts item = .ok (c, consts') →
              item.staticType [] (fun _ => none) = some c.type := buildConstValue_type
        exact Option.some.inj ((hliteral hc').symm.trans (hliteral hc))
      obtain ⟨_, hagain⟩ := buildConstItems_again hitems start₁
      rw [buildConstItems, hc']
      dsimp only [bind, Except.bind]
      rw [hsame, hagain]
      rcases htype with rfl | rfl
      · exact ⟨_, rfl⟩
      · rw [if_neg (fun hne => hne.2 rfl)]
        exact ⟨_, rfl⟩
end

theorem lowerLiteral_again {e : Expr} {consts consts' : ConstTables} {c : ConstValue}
    (h : buildConstValue consts e = .ok (c, consts')) (ctx : LoweringContext) :
    ∃ r, (do emitConstValue (← buildConst e) : LowerM Operand).run ctx = .ok r := by
  obtain ⟨⟨c', consts₁⟩, hc⟩ := buildConstValue_again h ctx.consts
  refine ⟨_, run_bind_ok.mpr ⟨c', ctx.withConsts consts₁, ?_, rfl⟩⟩
  rw [buildConst]
  refine run_bind_ok.mpr ⟨ctx, ctx, rfl, run_bind_ok.mpr ⟨(c', consts₁), ctx, ?_, rfl⟩⟩
  exact run_lift_ok.mpr ⟨hc, rfl⟩

theorem defaultValue_again (type : Option Ty) (ctx : LoweringContext) :
    ∃ r, (defaultValue type).run ctx = .ok r := by
  rw [defaultValue]
  split
  · exact ⟨_, rfl⟩
  · have hconst : ∃ r, buildConstValue emptyTables (typeDefaultValue type) = .ok r := by
      rcases type with _ | _ | _ | _ | _ | item
      all_goals
        rw [typeDefaultValue, buildConstValue]
        exact ⟨_, rfl⟩
    obtain ⟨⟨c, consts⟩, hc⟩ := hconst
    exact lowerLiteral_again hc ctx

/-! ## Expressions -/

section Again

variable {table : FunctionTable}

theorem lowerUnary_again {op : UnaryOp} {v v' : Operand} {ctx : LoweringContext}
    {r : Operand × LoweringContext} (h : (lowerUnary op v).run ctx = .ok r)
    (hv : v'.type = v.type) (ctx' : LoweringContext) :
    ∃ r', (lowerUnary op v').run ctx' = .ok r' := by
  cases op with
  | neg | not | tamanhoDe =>
      rw [lowerUnary] at h ⊢
      rw [hv]
      split at h
      · exact (run_throw_bind_ok.mp h).elim
      · rename_i hty
        rw [if_neg hty]
        exact ⟨_, rfl⟩
  | tipoDe | identificar | observar => exact ⟨_, rfl⟩

theorem lowerBinary_again {op : BinaryOp} {a b a' b' : Operand} {ctx : LoweringContext}
    {r : Operand × LoweringContext} (h : (lowerBinary op a b).run ctx = .ok r)
    (ha : a'.type = a.type) (hb : b'.type = b.type) (ctx' : LoweringContext) :
    ∃ r', (lowerBinary op a' b').run ctx' = .ok r' := by
  rw [lowerBinary] at h ⊢
  rw [ha, hb]
  split at h
  · split at h
    · exact (run_throw_bind_ok.mp h).elim
    · rename_i hty
      rw [if_neg hty]
      exact ⟨_, rfl⟩
  · split at h
    · split at h
      · exact (run_throw_bind_ok.mp h).elim
      · rename_i hlog hty
        rw [if_pos hlog, if_neg hty]
        exact ⟨_, rfl⟩
    · split at h
      · exact (run_throw_bind_ok.mp h).elim
      · rename_i hlog hty
        rw [if_neg hlog, if_neg hty]
        exact ⟨_, rfl⟩
  · exact (run_throw_ok.mp h).elim

/-- Two lowerings of an expression in one scope give its value the same type. -/
theorem lowerExpr_same {e : Expr} {ctx ctx' c c' : LoweringContext} {v v' : Operand}
    (h : (lowerExpr table e).run ctx = .ok (v, c))
    (h' : (lowerExpr table e).run ctx' = .ok (v', c')) (hscope : ctx'.scope = ctx.scope) :
    v'.type = v.type ∧ c'.scope = c.scope := by
  have hlow := lowerExpr_lowers h
  have hlow' := lowerExpr_lowers h'
  rw [hlow.staticType, hlow'.staticType, hlow.scope, hlow'.scope, hscope]
  exact ⟨rfl, rfl⟩

mutual
theorem lowerExpr_again : ∀ {e : Expr} {ctx ctx' : LoweringContext}
    {r : Operand × LoweringContext}, (lowerExpr table e).run ctx = .ok r →
    ctx'.scope = ctx.scope → ∃ r', (lowerExpr table e).run ctx' = .ok r'
  | .number _, _, ctx', _, h, _ | .string _, _, ctx', _, h, _ | .bool _, _, ctx', _, h, _
  | .null, _, ctx', _, h, _ | .array _, _, ctx', _, h, _ => by
      rw [lowerExpr] at h ⊢
      obtain ⟨c, _, hc, -⟩ := run_bind_ok.mp h
      obtain ⟨_, hconst, -⟩ := buildConst_run hc
      exact lowerLiteral_again hconst ctx'
  | .identifier name, ctx, ctx', _, h, hscope => by
      rw [lowerExpr] at h ⊢
      simp only [run_bind_ok, run_get_ok, Prod.mk.injEq] at h
      obtain ⟨_, _, ⟨rfl, rfl⟩, h⟩ := h
      have htypes : (ctx'.locals name).map (·.type) = (ctx.locals name).map (·.type) :=
        congrFun (congrArg Scope.types hscope) name
      cases hloc : ctx.locals name with
      | none =>
          rw [hloc] at h
          exact (run_throw_ok.mp h).elim
      | some loc =>
          rw [hloc, Option.map_some] at htypes
          obtain ⟨loc', hloc', -⟩ := Option.map_eq_some_iff.mp htypes
          refine exists_run_bind rfl ?_
          rw [hloc']
          exact ⟨_, rfl⟩
  | .unary op e, _, ctx', _, h, hscope => by
      rw [lowerExpr] at h ⊢
      obtain ⟨v, c, he, hop⟩ := run_bind_ok.mp h
      obtain ⟨⟨v', c'⟩, he'⟩ := lowerExpr_again he hscope
      exact exists_run_bind he' (lowerUnary_again hop (lowerExpr_same he he' hscope).1 c')
  | .binary op l r, _, ctx', _, h, hscope => by
      rw [lowerExpr] at h ⊢
      obtain ⟨a, c₁, hl, h⟩ := run_bind_ok.mp h
      obtain ⟨b, c₂, hr, hop⟩ := run_bind_ok.mp h
      obtain ⟨⟨a', c₁'⟩, hl'⟩ := lowerExpr_again hl hscope
      obtain ⟨ha, hscope₁⟩ := lowerExpr_same hl hl' hscope
      obtain ⟨⟨b', c₂'⟩, hr'⟩ := lowerExpr_again hr hscope₁
      obtain ⟨hb, -⟩ := lowerExpr_same hr hr' hscope₁
      exact exists_run_bind hl' (exists_run_bind hr' (lowerBinary_again hop ha hb c₂'))
  | .call callee args, ctx, ctx', _, h, hscope => by
      cases callee with
      | identifier name =>
          rw [lowerExpr] at h ⊢
          split at h
          · exact (run_throw_bind_ok.mp h).elim
          · rename_i hname
            rw [if_neg hname]
            split at h
            · exact (run_throw_ok.mp h).elim
            · split at h
              · exact (run_throw_bind_ok.mp h).elim
              · rename_i hlen
                rw [if_neg hlen]
                obtain ⟨temps, c, hargs, -⟩ := run_bind_ok.mp h
                obtain ⟨⟨temps', c'⟩, hargs'⟩ := lowerArgs_again hargs hscope
                exact exists_run_bind hargs' ⟨_, rfl⟩
      | _ => exact absurd h (lowerExpr_call_other (by simp))

theorem lowerArgs_again {name : String} : ∀ {args : List Expr} {types : List (Option Ty)}
    {ctx ctx' : LoweringContext} {r : List ℕ × LoweringContext},
    (lowerArgs table name types args).run ctx = .ok r → ctx'.scope = ctx.scope →
    ∃ r', (lowerArgs table name types args).run ctx' = .ok r'
  | [], _, _, ctx', _, _, _ => by
      rw [lowerArgs]
      exact ⟨_, rfl⟩
  | arg :: args, types, _, ctx', _, h, hscope => by
      rw [lowerArgs] at h ⊢
      obtain ⟨v, c, hv, h⟩ := run_bind_ok.mp h
      obtain ⟨⟨v', c'⟩, hv'⟩ := lowerExpr_again hv hscope
      obtain ⟨htype, hscope'⟩ := lowerExpr_same hv hv' hscope
      dsimp only at h
      split at h
      · exact (run_throw_bind_ok.mp h).elim
      · rename_i hty
        obtain ⟨temps, c₁, hrest, -⟩ := run_bind_ok.mp h
        obtain ⟨⟨temps', c₁'⟩, hrest'⟩ := lowerArgs_again hrest hscope'
        refine exists_run_bind hv' ?_
        dsimp only
        rw [htype, if_neg hty]
        exact exists_run_bind hrest' ⟨_, rfl⟩
end

/-! ## Statements -/

theorem ensureLocal_again {name : String} {type : Option Ty} {ctx ctx' : LoweringContext}
    {r : Local × LoweringContext} (h : (ensureLocal name type).run ctx = .ok r)
    (hscope : ctx'.scope = ctx.scope) : ∃ r', (ensureLocal name type).run ctx' = .ok r' := by
  have htypes : (ctx'.locals name).map (·.type) = (ctx.locals name).map (·.type) :=
    congrFun (congrArg Scope.types hscope) name
  obtain ⟨loc, c⟩ := r
  cases hens : ensureLocal_run h with
  | existing hloc hty =>
      rw [hloc, Option.map_some] at htypes
      obtain ⟨loc', hloc', hty'⟩ := Option.map_eq_some_iff.mp htypes
      refine exists_run_bind rfl ?_
      rw [hloc']
      dsimp only
      rw [if_neg (not_not.mpr (hty'.trans hty))]
      exact ⟨_, rfl⟩
  | fresh hloc =>
      rw [hloc, Option.map_none, Option.map_eq_none_iff] at htypes
      refine exists_run_bind rfl ?_
      rw [htypes]
      exact ⟨_, rfl⟩

theorem ensureLocal_same {name : String} {type : Option Ty} {ctx ctx' c c' : LoweringContext}
    {loc loc' : Local} (h : (ensureLocal name type).run ctx = .ok (loc, c))
    (h' : (ensureLocal name type).run ctx' = .ok (loc', c')) (hscope : ctx'.scope = ctx.scope) :
    c'.scope = c.scope := by
  rw [(ensureLocal_run h).scope, (ensureLocal_run h').scope, hscope]

theorem lowerReturn_again {v v' : Operand} {ctx ctx' : LoweringContext}
    {r : Unit × LoweringContext} (h : (lowerReturn v).run ctx = .ok r) (hv : v'.type = v.type)
    (hreturn : ctx'.returnType = ctx.returnType) : ∃ r', (lowerReturn v').run ctx' = .ok r' := by
  have hty := (lowerReturn_run h).1
  refine exists_run_bind rfl ?_
  dsimp only
  rw [if_neg (not_not.mpr ((hv.trans hty).trans hreturn.symm))]
  exact ⟨_, rfl⟩

theorem lowerForEachStart_again (v : Operand) (ctx : LoweringContext) :
    (lowerForEachStart v).run ctx = .ok (ctx.forEachNames v, ctx.forEachStart v) := by
  have hrun : ∃ r, (lowerForEachStart v).run ctx = .ok r := by
    rw [lowerForEachStart]
    refine exists_run_bind rfl (exists_run_bind rfl (exists_run_bind rfl (exists_run_bind rfl
      (exists_run_bind rfl ?_))))
    obtain ⟨⟨zero, c⟩, hzero⟩ := defaultValue_again (some .i64) _
    exact exists_run_bind hzero ⟨_, rfl⟩
  obtain ⟨⟨names, c⟩, hrun⟩ := hrun
  obtain ⟨rfl, rfl⟩ := lowerForEachStart_run hrun
  exact hrun

theorem lowerForEachTest_again (v : Operand) (ctx : LoweringContext) :
    (lowerForEachTest (ctx.forEachNames v) v.type).run (ctx.forEachStart v) =
      .ok ((ctx.tempCount + 1, ctx.tempCount + 2), ctx.forEachTest v) := by
  have hrun : ∃ r, (lowerForEachTest (ctx.forEachNames v) v.type).run (ctx.forEachStart v) =
      .ok r := ⟨_, rfl⟩
  obtain ⟨⟨temps, c⟩, hrun⟩ := hrun
  obtain ⟨rfl, rfl⟩ := lowerForEachTest_run hrun
  exact hrun

theorem lowerForEachItem_again {binding : String} {type : Option Ty} {i j i' j' : ℕ}
    {ctx ctx' : LoweringContext} {r : Unit × LoweringContext}
    (h : (lowerForEachItem binding type i j).run ctx = .ok r) (hscope : ctx'.scope = ctx.scope) :
    ∃ r', (lowerForEachItem binding type i' j').run ctx' = .ok r' := by
  rw [lowerForEachItem] at h ⊢
  obtain ⟨loc, c, hloc, -⟩ := run_bind_ok.mp h
  obtain ⟨⟨loc', c'⟩, hloc'⟩ := ensureLocal_again hloc hscope
  exact exists_run_bind hloc' ⟨_, rfl⟩

theorem lowerForEachItem_same {binding : String} {type : Option Ty} {i j i' j' : ℕ}
    {ctx ctx' c c' : LoweringContext} {u u' : Unit}
    (h : (lowerForEachItem binding type i j).run ctx = .ok (u, c))
    (h' : (lowerForEachItem binding type i' j').run ctx' = .ok (u', c'))
    (hscope : ctx'.scope = ctx.scope) (hreturn : ctx'.returnType = ctx.returnType) :
    c'.scope = c.scope ∧ c'.returnType = c.returnType := by
  rw [lowerForEachItem] at h h'
  obtain ⟨loc, c₁, hloc, h⟩ := run_bind_ok.mp h
  obtain ⟨loc', c₁', hloc', h'⟩ := run_bind_ok.mp h'
  simp only [newTemp, emit, run_bind_ok, run_modifyGet_ok, run_modify_ok, Prod.mk.injEq] at h h'
  obtain ⟨_, _, ⟨rfl, rfl⟩, _, _, ⟨_, rfl⟩, _, rfl⟩ := h
  obtain ⟨_, _, ⟨rfl, rfl⟩, _, _, ⟨_, rfl⟩, _, rfl⟩ := h'
  constructor
  · show c₁'.scope = c₁.scope
    exact ensureLocal_same hloc hloc' hscope
  · show c₁'.returnType = c₁.returnType
    rw [(ensureLocal_run hloc).grows.returnType, (ensureLocal_run hloc').grows.returnType, hreturn]

theorem DefaultLowers.same {type : Option Ty} {ctx ctx' c c' : LoweringContext} {v v' : Operand}
    (h : DefaultLowers table ctx type v c) (h' : DefaultLowers table ctx' type v' c') :
    v'.type = v.type := by
  cases h with
  | array harr =>
      cases h' with
      | array _ => rfl
      | literal hno _ => exact absurd harr (ne_true_of_eq_false hno)
  | literal hno he =>
      cases h' with
      | array harr => exact absurd harr (ne_true_of_eq_false hno)
      | literal _ he' =>
          rw [he.staticType, he'.staticType]
          rcases type with _ | _ | _ | _ | _ | item
          all_goals rfl

theorem lowerStatementList_same {body : List Stmt} {ctx ctx' c c' : LoweringContext} {u u' : Unit}
    (h : (lowerStatementList table body).run ctx = .ok (u, c))
    (h' : (lowerStatementList table body).run ctx' = .ok (u', c')) (hscope : ctx'.scope = ctx.scope)
    (hreturn : ctx'.returnType = ctx.returnType) :
    c'.scope = c.scope ∧ c'.returnType = c.returnType := by
  have hlow := lowerStatementList_lowers h
  have hlow' := lowerStatementList_lowers h'
  rw [hlow.scope, hlow'.scope, hscope, hlow.grows.returnType, hlow'.grows.returnType]
  exact ⟨rfl, hreturn⟩

/-- A statement that is lowered is lowered in every context with its names and result. -/
def LowersAgain (table : FunctionTable) (s : Stmt) : Prop :=
  ∀ ⦃ctx ctx' : LoweringContext⦄ ⦃r : Unit × LoweringContext⦄,
    (lowerStatement table s).run ctx = .ok r → ctx'.scope = ctx.scope →
    ctx'.returnType = ctx.returnType → ∃ r', (lowerStatement table s).run ctx' = .ok r'

def BodyLowersAgain (table : FunctionTable) (body : List Stmt) : Prop :=
  ∀ ⦃ctx ctx' : LoweringContext⦄ ⦃r : Unit × LoweringContext⦄,
    (lowerStatementList table body).run ctx = .ok r → ctx'.scope = ctx.scope →
    ctx'.returnType = ctx.returnType → ∃ r', (lowerStatementList table body).run ctx' = .ok r'

theorem LowersAgain.define {name : String} {e : Expr} : LowersAgain table (.define name e) := by
  intro _ _ _ h hscope _
  rw [lowerStatement] at h ⊢
  obtain ⟨v, c, he, h⟩ := run_bind_ok.mp h
  obtain ⟨loc, c₁, hloc, -⟩ := run_bind_ok.mp h
  obtain ⟨⟨v', c'⟩, he'⟩ := lowerExpr_again he hscope
  obtain ⟨htype, hscope'⟩ := lowerExpr_same he he' hscope
  obtain ⟨⟨loc', c₁'⟩, hloc'⟩ := ensureLocal_again hloc hscope'
  refine exists_run_bind he' ?_
  rw [htype]
  exact exists_run_bind hloc' ⟨_, rfl⟩

theorem LowersAgain.assign {name : String} {e : Expr} : LowersAgain table (.assign name e) := by
  intro ctx ctx' _ h hscope _
  rw [lowerStatement] at h ⊢
  simp only [run_bind_ok, run_get_ok, Prod.mk.injEq] at h
  obtain ⟨_, _, ⟨rfl, rfl⟩, h⟩ := h
  have htypes : (ctx'.locals name).map (·.type) = (ctx.locals name).map (·.type) :=
    congrFun (congrArg Scope.types hscope) name
  cases hloc : ctx.locals name with
  | none =>
      rw [hloc] at h
      exact (run_throw_ok.mp h).elim
  | some loc =>
      rw [hloc] at h
      rw [hloc, Option.map_some] at htypes
      obtain ⟨loc', hloc', hty'⟩ := Option.map_eq_some_iff.mp htypes
      obtain ⟨v, c, he, h⟩ := run_bind_ok.mp h
      obtain ⟨⟨v', c'⟩, he'⟩ := lowerExpr_again he hscope
      obtain ⟨htype, -⟩ := lowerExpr_same he he' hscope
      refine exists_run_bind rfl ?_
      rw [hloc']
      refine exists_run_bind he' ?_
      split at h
      · exact (run_throw_bind_ok.mp h).elim
      · rename_i hty
        rw [hty', htype, if_neg hty]
        exact ⟨_, rfl⟩

theorem LowersAgain.«show» {e : Expr} : LowersAgain table (.show e) := by
  intro _ _ _ h hscope _
  rw [lowerStatement] at h ⊢
  obtain ⟨v, c, he, -⟩ := run_bind_ok.mp h
  obtain ⟨⟨v', c'⟩, he'⟩ := lowerExpr_again he hscope
  exact exists_run_bind he' ⟨_, rfl⟩

theorem LowersAgain.exprStmt {e : Expr} : LowersAgain table (.exprStmt e) := by
  intro _ _ _ h hscope _
  rw [lowerStatement] at h ⊢
  obtain ⟨v, c, he, -⟩ := run_bind_ok.mp h
  obtain ⟨⟨v', c'⟩, he'⟩ := lowerExpr_again he hscope
  exact exists_run_bind he' ⟨_, rfl⟩

theorem LowersAgain.ret {e : Expr} : LowersAgain table (.ret (some e)) := by
  intro _ _ _ h hscope hreturn
  rw [lowerStatement] at h ⊢
  obtain ⟨v, c, he, hret⟩ := run_bind_ok.mp h
  obtain ⟨⟨v', c'⟩, he'⟩ := lowerExpr_again he hscope
  obtain ⟨htype, -⟩ := lowerExpr_same he he' hscope
  refine exists_run_bind he' (lowerReturn_again hret htype ?_)
  rw [(lowerExpr_lowers he).grows.returnType, (lowerExpr_lowers he').grows.returnType, hreturn]

theorem LowersAgain.retDefault : LowersAgain table (.ret none) := by
  intro ctx ctx' _ h _ hreturn
  rw [lowerStatement] at h ⊢
  simp only [run_bind_ok, run_get_ok, Prod.mk.injEq] at h
  obtain ⟨_, _, ⟨rfl, rfl⟩, v, c, hv, hret⟩ := h
  obtain ⟨⟨v', c'⟩, hv'⟩ := defaultValue_again ctx.returnType ctx'
  have hlow : DefaultLowers table ctx ctx.returnType v c := defaultValue_run hv
  have hlow' : DefaultLowers table ctx' ctx.returnType v' c' := defaultValue_run hv'
  refine exists_run_bind rfl ?_
  rw [hreturn]
  refine exists_run_bind hv' (lowerReturn_again hret (hlow.same hlow') ?_)
  rw [hlow.facts.chain.grows.returnType, hlow'.facts.chain.grows.returnType, hreturn]

theorem LowersAgain.ifElse {test : Expr} {thenBody elseBody : List Stmt}
    (hthenBody : BodyLowersAgain table thenBody) (helseBody : BodyLowersAgain table elseBody) :
    LowersAgain table (.ifElse test thenBody elseBody) := by
  intro _ _ _ h hscope hreturn
  rw [lowerStatement] at h ⊢
  obtain ⟨t, _, ht, h⟩ := run_bind_ok.mp h
  obtain ⟨_, base, htruthy, hrest⟩ := run_bind_ok.mp h
  obtain ⟨hty, rfl⟩ := lowerTruthy_run htruthy
  simp only [newLabel, emit, run_bind_ok, run_modifyGet_ok, run_modify_ok,
    Prod.mk.injEq] at hrest
  obtain ⟨_, _, ⟨rfl, rfl⟩, _, _, ⟨rfl, rfl⟩, _, _, ⟨rfl, rfl⟩, _, _, ⟨_, rfl⟩, _, _,
    ⟨_, rfl⟩, _, c₁, hthen, _, _, ⟨_, rfl⟩, _, _, ⟨_, rfl⟩, _, c₂, helse, -⟩ := hrest
  obtain ⟨⟨t', base'⟩, ht'⟩ := lowerExpr_again ht hscope
  obtain ⟨htype, hscope'⟩ := lowerExpr_same ht ht' hscope
  have hreturn' : base'.returnType = base.returnType := by
    rw [(lowerExpr_lowers ht).grows.returnType, (lowerExpr_lowers ht').grows.returnType,
      hreturn]
  have hhead : (base'.ifHead t').scope = (base.ifHead t).scope := by
    rw [scope_ifHead, scope_ifHead, hscope']
  obtain ⟨⟨_, c₁'⟩, hthen'⟩ := hthenBody hthen hhead hreturn'
  obtain ⟨hscope₁, hreturn₁⟩ := lowerStatementList_same hthen hthen' hhead hreturn'
  have hmiddle : (base'.ifMiddle c₁').scope = (base.ifMiddle c₁).scope := hscope₁
  obtain ⟨⟨_, c₂'⟩, helse'⟩ := helseBody helse hmiddle hreturn₁
  refine exists_run_bind ht' ?_
  rw [htype, lowerTruthy, if_pos hty]
  refine exists_run_bind rfl (exists_run_bind rfl (exists_run_bind rfl (exists_run_bind rfl
    (exists_run_bind rfl (exists_run_bind rfl (exists_run_bind hthen' ?_))))))
  exact exists_run_bind rfl (exists_run_bind rfl (exists_run_bind helse' ⟨_, rfl⟩))

theorem LowersAgain.«while» {test : Expr} {body : List Stmt} (hagain : BodyLowersAgain table body) :
    LowersAgain table (.while test body) := by
  intro base base' _ h hscope hreturn
  rw [lowerStatement] at h ⊢
  simp only [newLabel, emit, run_bind_ok, run_modifyGet_ok, run_modify_ok,
    Prod.mk.injEq] at h
  obtain ⟨_, _, ⟨rfl, rfl⟩, _, _, ⟨rfl, rfl⟩, _, _, ⟨rfl, rfl⟩, _, _, ⟨_, rfl⟩, t, _, ht,
    _, c₁, htruthy, _, _, ⟨_, rfl⟩, _, _, ⟨_, rfl⟩, _, c₂, hbody, -⟩ := h
  obtain ⟨hty, rfl⟩ := lowerTruthy_run htruthy
  have hhead : base'.whileHead.scope = base.whileHead.scope := by
    rw [scope_whileHead, scope_whileHead, hscope]
  obtain ⟨⟨t', c₁'⟩, ht'⟩ := lowerExpr_again ht hhead
  obtain ⟨htype, hscope'⟩ := lowerExpr_same ht ht' hhead
  have hreturn' : c₁'.returnType = c₁.returnType := by
    rw [(lowerExpr_lowers ht).grows.returnType, (lowerExpr_lowers ht').grows.returnType]
    exact hreturn
  have htest : (base'.whileTest c₁' t').scope = (base.whileTest c₁ t).scope := hscope'
  obtain ⟨⟨_, c₂'⟩, hbody'⟩ := hagain hbody htest hreturn'
  refine exists_run_bind rfl (exists_run_bind rfl (exists_run_bind rfl (exists_run_bind rfl
    (exists_run_bind ht' ?_))))
  rw [htype, lowerTruthy, if_pos hty]
  exact exists_run_bind rfl (exists_run_bind rfl (exists_run_bind rfl
    (exists_run_bind hbody' ⟨_, rfl⟩)))

theorem LowersAgain.forEach {binding : String} {iterable : Expr} {body : List Stmt}
    (hagain : BodyLowersAgain table body) :
    LowersAgain table (.forEach binding iterable body) := by
  intro _ _ _ h hscope hreturn
  rw [lowerStatement] at h ⊢
  obtain ⟨v, base, hv, h⟩ := run_bind_ok.mp h
  obtain ⟨names, _, hstart, h⟩ := run_bind_ok.mp h
  obtain ⟨rfl, rfl⟩ := lowerForEachStart_run hstart
  obtain ⟨temps, _, htest, h⟩ := run_bind_ok.mp h
  obtain ⟨rfl, rfl⟩ := lowerForEachTest_run htest
  obtain ⟨_, c₁, hitem, h⟩ := run_bind_ok.mp h
  obtain ⟨_, c₂, hbody, -⟩ := run_bind_ok.mp h
  obtain ⟨⟨v', base'⟩, hv'⟩ := lowerExpr_again hv hscope
  obtain ⟨htype, hscope'⟩ := lowerExpr_same hv hv' hscope
  have hstart' : (base'.forEachTest v').scope = (base.forEachTest v).scope := by
    rw [scope_forEachTest, scope_forEachTest, hscope', htype]
  obtain ⟨⟨_, c₁'⟩, hitem'⟩ := lowerForEachItem_again hitem hstart'
  have hreturn' : (base'.forEachTest v').returnType = (base.forEachTest v).returnType := by
    rw [((lowerExpr_lowers hv).grows.forEachTest v).returnType,
      ((lowerExpr_lowers hv').grows.forEachTest v').returnType, hreturn]
  obtain ⟨hscope₁, hreturn₁⟩ := lowerForEachItem_same hitem hitem' hstart' hreturn'
  obtain ⟨⟨_, c₂'⟩, hbody'⟩ := hagain hbody hscope₁ hreturn₁
  refine exists_run_bind hv' (exists_run_bind (lowerForEachStart_again v' base')
    (exists_run_bind (lowerForEachTest_again v' base') ?_))
  rw [htype]
  exact exists_run_bind hitem' (exists_run_bind hbody' ⟨_, rfl⟩)

mutual
theorem lowerStatement_again : ∀ {s : Stmt}, LowersAgain table s
  | .define _ _ => .define
  | .assign _ _ => .assign
  | .show _ => .show
  | .exprStmt _ => .exprStmt
  | .ret (some _) => .ret
  | .ret none => .retDefault
  | .ifElse _ _ _ => .ifElse lowerStatementList_again lowerStatementList_again
  | .while _ _ => .while lowerStatementList_again
  | .forEach _ _ _ => .forEach lowerStatementList_again

theorem lowerStatementList_again : ∀ {body : List Stmt}, BodyLowersAgain table body
  | [] => by
      intro _ _ _ _ _ _
      rw [lowerStatementList]
      exact ⟨_, rfl⟩
  | s :: body => by
      intro _ _ _ h hscope hreturn
      rw [lowerStatementList] at h ⊢
      obtain ⟨_, c, hs, hbody⟩ := run_bind_ok.mp h
      obtain ⟨⟨_, c'⟩, hs'⟩ := lowerStatement_again hs hscope hreturn
      have hlow := lowerStatement_lowers hs
      have hlow' := lowerStatement_lowers hs'
      refine exists_run_bind hs' (lowerStatementList_again hbody ?_ ?_)
      · rw [hlow.scope, hlow'.scope, hscope]
      · rw [hlow.grows.returnType, hlow'.grows.returnType, hreturn]
end

/-! ## Functions and programs -/

theorem finish_again (ctx : LoweringContext) : ∃ r, finish.run ctx = .ok r := by
  rw [finish]
  refine exists_run_bind rfl ?_
  split
  · obtain ⟨⟨v, c⟩, hv⟩ := defaultValue_again ctx.returnType ctx
    exact exists_run_bind rfl (exists_run_bind hv ⟨_, rfl⟩)
  · exact ⟨_, rfl⟩

theorem lowerBody_again {consts : ConstTables} {name : String} {returnType : Option Ty}
    {params : List (String × Option Ty)} {body : List Stmt} {r : IRFunction × ConstTables}
    (h : lowerBody table consts name returnType params body = .ok r) (start : ConstTables) :
    ∃ r', lowerBody table start name returnType params body = .ok r' := by
  rw [lowerBody] at h ⊢
  obtain ⟨⟨_, c⟩, hbody, -⟩ := except_bind_ok.mp h
  have hscope : (newContext start name returnType params).scope =
      (newContext consts name returnType params).scope := by
    rw [scope_newContext, scope_newContext]
  have hreturn : (newContext start name returnType params).returnType =
      (newContext consts name returnType params).returnType := by
    rw [newContext, newContext, (addParams_fields _ params).2.1, (addParams_fields _ params).2.1]
    rfl
  obtain ⟨⟨_, c'⟩, hbody'⟩ := lowerStatementList_again hbody hscope hreturn
  obtain ⟨⟨fn, final⟩, hfinish⟩ := finish_again c'
  exact ⟨_, except_bind_ok.mpr ⟨((), c'), hbody', except_bind_ok.mpr ⟨(fn, final), hfinish, rfl⟩⟩⟩

theorem lowerFunction_again {consts : ConstTables} {fn : FunctionDecl}
    {r : IRFunction × ConstTables} (h : lowerFunction table consts fn = .ok r)
    (start : ConstTables) : ∃ r', lowerFunction table start fn = .ok r' := by
  rw [lowerFunction] at h ⊢
  split at h
  · cases h
  · rename_i hparams
    rw [if_neg hparams]
    exact lowerBody_again h start

/-- Functions are lowered when each of them is. -/
theorem lowerFunctions_ok_iff {fns : List FunctionDecl} : ∀ {consts : ConstTables},
    (∃ r, lowerFunctions table consts fns = .ok r) ↔
      ∀ fn ∈ fns, ∃ r, lowerFunction table emptyTables fn = .ok r := by
  induction fns with
  | nil => exact ⟨fun _ => nofun, fun _ => ⟨_, rfl⟩⟩
  | cons fn fns ih =>
      intro consts
      rw [List.forall_mem_cons, lowerFunctions]
      constructor
      · rintro ⟨r, h⟩
        obtain ⟨⟨lowered, consts₁⟩, hfn, h⟩ := except_bind_ok.mp h
        obtain ⟨rest, hrest, -⟩ := except_bind_ok.mp h
        exact ⟨lowerFunction_again hfn emptyTables, ih.mp ⟨rest, hrest⟩⟩
      · rintro ⟨⟨_, hfn⟩, hfns⟩
        obtain ⟨⟨lowered, consts₁⟩, hfn'⟩ := lowerFunction_again hfn consts
        obtain ⟨⟨rest, consts₂⟩, hrest⟩ := ih.mpr hfns
        exact ⟨_, except_bind_ok.mpr ⟨_, hfn', except_bind_ok.mpr ⟨_, hrest, rfl⟩⟩⟩

/-- A program is lowered when each of its functions is, and its own body. -/
theorem lowerProgram_ok_iff {program : Program} : (∃ unit, lowerProgram program table = .ok unit) ↔
    (∀ fn ∈ program.functions, ∃ r, lowerFunction table emptyTables fn = .ok r) ∧
      ∃ r, lowerBody table emptyTables mainName (some .i64) [] program.body = .ok r := by
  rw [lowerProgram]
  constructor
  · rintro ⟨unit, h⟩
    obtain ⟨⟨functions, consts⟩, hfns, h⟩ := except_bind_ok.mp h
    obtain ⟨main, hmain, -⟩ := except_bind_ok.mp h
    exact ⟨lowerFunctions_ok_iff.mp ⟨_, hfns⟩, lowerBody_again hmain emptyTables⟩
  · rintro ⟨hfns, _, hmain⟩
    obtain ⟨⟨functions, consts⟩, hlowered⟩ := lowerFunctions_ok_iff.mpr hfns
    obtain ⟨⟨main, final⟩, hmain'⟩ := lowerBody_again hmain consts
    exact ⟨_, except_bind_ok.mpr ⟨_, hlowered, except_bind_ok.mpr ⟨_, hmain', rfl⟩⟩⟩

end Again

end GatoCore.Native
