import GatoCore.Native.DeclarationOrder

/-!
# Which programs inference accepts

Inference reads the functions in the order of the text. The parameters of a function are known once
a call of it was read, its result once a `retornar` of it was read, and until then they count as
numbers. The first pass reads every call and every `retornar` that is ever read, so a later pass has
nothing to add: a program is accepted when the first reading sees every type right, and a second
one, that starts with all that is known, does so as well.
-/

namespace GatoCore.Native

open GatoCore.Lib

/-! ## What is seen in a reading -/

/-- The type inference sees of an expression, with the results of `rets` known. -/
def Expr.seenType (table : FunctionTable) (rets : List String) (env : TypeEnv) : Expr → Option Ty
  | .identifier name => env name
  | .unary .observar e => some ((e.seenType table rets env).getD defaultParamType)
  | .call (.identifier name) _ =>
      if name ∈ rets then table.returnType name else some defaultReturnType
  | e => e.staticType table fun _ => none

mutual
/-- Every argument that is read is seen with the type of its parameter, and no operand of
arithmetic is seen as a text. The operands of the other unary operators are not read. -/
def Expr.SeenRight (table : FunctionTable) (rets : List String) (env : TypeEnv) : Expr → Prop
  | .unary .observar e => e.SeenRight table rets env
  | .binary op l r =>
      l.SeenRight table rets env ∧ r.SeenRight table rets env ∧
        ((op.isLogical || op.isComparison) = true ∨
          l.seenType table rets env ≠ some .str ∧ r.seenType table rets env ≠ some .str)
  | .call (.identifier name) args => ArgsSeenRight table rets env name 0 args
  | _ => True

def ArgsSeenRight (table : FunctionTable) (rets : List String) (env : TypeEnv) (name : String)
    (i : ℕ) : List Expr → Prop
  | [] => True
  | arg :: args =>
      arg.SeenRight table rets env ∧
        table.paramType name i = some ((arg.seenType table rets env).getD defaultParamType) ∧
        ArgsSeenRight table rets env name (i + 1) args
end

/-- The names after a statement; those of a nested body are gone. -/
def Stmt.seenEnv (table : FunctionTable) (rets : List String) (env : TypeEnv) : Stmt → TypeEnv
  | .define name e =>
      Function.update env name (some ((e.seenType table rets env).getD defaultParamType))
  | .assign name e =>
      if env name = none then
        Function.update env name (some ((e.seenType table rets env).getD defaultParamType))
      else env
  | .forEach binding iterable _ =>
      Function.update env binding (bindingType (iterable.seenType table rets env))
  | _ => env

mutual
/-- Every type a statement of the function `metaName` needs is seen right. -/
def Stmt.SeenRight (table : FunctionTable) (metaName : String) (rets : List String)
    (env : TypeEnv) : Stmt → Prop
  | .define _ e => e.SeenRight table rets env
  | .assign name e =>
      e.SeenRight table rets env ∧
        ∀ old, env name = some old → (e.seenType table rets env).getD old = old
  | .show e => e.SeenRight table rets env
  | .exprStmt e => e.SeenRight table rets env
  | .ret (some e) =>
      e.SeenRight table rets env ∧
        table.returnType metaName = some ((e.seenType table rets env).getD defaultReturnType)
  | .ret none => metaName ∈ rets ∨ table.returnType metaName = some defaultReturnType
  | .ifElse test thenBody elseBody =>
      test.SeenRight table rets env ∧ BodySeenRight table metaName rets env thenBody ∧
        BodySeenRight table metaName (rets ++ retsOf metaName (bodyReturns thenBody)) env elseBody
  | .while test body =>
      test.SeenRight table rets env ∧ BodySeenRight table metaName rets env body
  | .forEach binding iterable body =>
      iterable.SeenRight table rets env ∧
        (isArrayType (iterable.seenType table rets env) = true ∨
          iterable.seenType table rets env = some .str) ∧
        BodySeenRight table metaName rets
          (Function.update env binding (bindingType (iterable.seenType table rets env))) body

def BodySeenRight (table : FunctionTable) (metaName : String) (rets : List String)
    (env : TypeEnv) : List Stmt → Prop
  | [] => True
  | s :: body =>
      s.SeenRight table metaName rets env ∧
        BodySeenRight table metaName (rets ++ retsOf metaName s.hasReturn)
          (s.seenEnv table rets env) body
end

/-- The names at the start of a function; its parameters are known once it was called. -/
def FunctionDecl.seenEnv (table : FunctionTable) (called : List String) (fn : FunctionDecl) :
    TypeEnv :=
  paramEnv fn.params
    (if fn.name ∈ called then ((table.lookup fn.name).map (·.paramTypes)).getD []
      else fn.params.map fun _ => none)

/-- One reading of the functions, with the calls and returns read before it. -/
def ReadRight (table : FunctionTable) : List String → List String → List FunctionDecl → Prop
  | _, _, [] => True
  | called, rets, fn :: fns =>
      BodySeenRight table fn.name rets (fn.seenEnv table called) fn.body ∧
        ReadRight table (called ++ bodyCalls fn.body)
          (rets ++ retsOf fn.name (bodyReturns fn.body)) fns

/-- The functions whose parameters a reading commits. -/
def readCalls (fns : List FunctionDecl) : List String := fns.flatMap fun fn => bodyCalls fn.body

/-- The functions whose results a reading commits. -/
def readReturns (fns : List FunctionDecl) : List String :=
  fns.flatMap fun fn => retsOf fn.name (bodyReturns fn.body)

/-- The types of the table are those two readings of the text give. -/
structure ReadsOff (program : Program) (table : FunctionTable) : Prop where
  nodup : (program.functions.map (·.name)).Nodup
  keys : ∀ fn ∈ program.functions, fn.name ≠ defaultsKey
  first : ReadRight table [] [] program.functions
  second : readReturns program.functions ≠ [] →
    ReadRight table (readCalls program.functions) (readReturns program.functions)
      program.functions
  params : ∀ name ∉ readCalls program.functions, ∀ i type,
    table.paramType name i = some type → type = defaultParamType
  returns : ∀ name ∉ readReturns program.functions, ∀ type,
    table.returnType name = some type → type = defaultReturnType

/-- The table gives every parameter and result a type, and the program meets the checks of
lowering under it. -/
structure Consistent (program : Program) (table : FunctionTable) : Prop where
  shape : table.shape = program.functions.map fun fn => (fn.name, fn.params.length)
  paramTypes : ∀ m ∈ table, ∀ type ∈ m.paramTypes, type.isSome
  returnType : ∀ m ∈ table, m.returnType.isSome
  lowers : ∃ unit, lowerProgram program table = .ok unit

/-! ## What a reading learns -/

/-- The types of the table are added for the parameters of `calls` and the results of `rets`. -/
structure Learns (table : FunctionTable) (calls rets : List String) (K K' : FunctionTable) :
    Prop where
  shape : K'.shape = K.shape
  params : ∀ name i,
    K'.paramType name i = if name ∈ calls then table.paramType name i else K.paramType name i
  returns : ∀ name,
    K'.returnType name = if name ∈ rets then table.returnType name else K.returnType name

theorem Learns.refl {table : FunctionTable} (K : FunctionTable) : Learns table [] [] K K :=
  ⟨rfl, fun _ _ => (if_neg List.not_mem_nil).symm, fun _ => (if_neg List.not_mem_nil).symm⟩

theorem if_mem_append {α : Type} {name : String} {a b : List String} {x y : α} :
    (if name ∈ b then x else if name ∈ a then x else y) = if name ∈ a ++ b then x else y := by
  by_cases hb : name ∈ b
  · rw [if_pos hb, if_pos (List.mem_append_right a hb)]
  · by_cases ha : name ∈ a
    · rw [if_neg hb, if_pos ha, if_pos (List.mem_append_left b ha)]
    · rw [if_neg hb, if_neg ha, if_neg fun h => (List.mem_append.mp h).elim ha hb]

theorem Learns.trans {table : FunctionTable} {calls calls' rets rets' : List String}
    {K K₁ K₂ : FunctionTable} (h : Learns table calls rets K K₁)
    (h' : Learns table calls' rets' K₁ K₂) :
    Learns table (calls ++ calls') (rets ++ rets') K K₂ := by
  refine ⟨h'.shape.trans h.shape, ?_, ?_⟩
  · intro name i
    rw [h'.params, h.params, if_mem_append]
  · intro name
    rw [h'.returns, h.returns, if_mem_append]

/-- The results that are known are those of `rets`, with the types of the table. -/
structure KnowsResults (table : FunctionTable) (rets : List String) (K : FunctionTable) :
    Prop where
  shape : K.shape = table.shape
  returns : ∀ name, K.returnType name = if name ∈ rets then table.returnType name else none

theorem KnowsResults.learn {table : FunctionTable} {calls rets rets' : List String}
    {K K' : FunctionTable} (h : KnowsResults table rets K) (hl : Learns table calls rets' K K') :
    KnowsResults table (rets ++ rets') K' := by
  refine ⟨hl.shape.trans h.shape, ?_⟩
  intro name
  rw [hl.returns, h.returns, if_mem_append]

theorem FunctionTable.lookup_of_shape : ∀ {K table : FunctionTable} {name : String}
    {entry : FnMeta}, K.shape = table.shape → table.lookup name = some entry →
    ∃ m, K.lookup name = some m ∧ m.paramTypes.length = entry.paramTypes.length
  | [], [], _, _, _, h => by cases h
  | [], _ :: _, _, _, hshape, _ => by cases hshape
  | _ :: _, [], _, _, hshape, _ => by cases hshape
  | m :: K, entry₀ :: table, name, entry, hshape, h => by
      obtain ⟨hhead, htail⟩ := List.cons.inj hshape
      obtain ⟨hname, hlen⟩ := Prod.mk.inj hhead
      rw [lookup, List.find?_cons] at h ⊢
      rw [hname]
      split at h
      · obtain rfl := Option.some.inj h
        exact ⟨m, rfl, hlen⟩
      · exact lookup_of_shape htail h

/-- A parameter that is there gets the type. -/
theorem FunctionTable.paramType_setParamType_self {K : FunctionTable} {name : String} {m : FnMeta}
    {i : ℕ} (h : K.lookup name = some m) (hi : i < m.paramTypes.length) (type : Option Ty) :
    (K.setParamType name i type).paramType name i = type := by
  have hm : m.name = name := by simpa using List.find?_some h
  rw [paramType, lookup_setParamType, h, Option.map_some, Option.bind_some, if_pos hm,
    List.getElem?_set_self hi, Option.join_some]

theorem FunctionTable.paramType_setParamType_of_ne (K : FunctionTable) {name other : String}
    {i j : ℕ} (type : Option Ty) (h : ¬ (other = name ∧ j = i)) :
    (K.setParamType name i type).paramType other j = K.paramType other j := by
  rcases K.paramType_setParamType name i type other j with heq | ⟨hname, hj, -⟩
  · exact heq
  · exact absurd ⟨hname, hj⟩ h

/-- A function has no parameters past its last. -/
theorem FunctionTable.paramType_eq_none {K : FunctionTable} {name : String} {m : FnMeta}
    (h : K.lookup name = some m) {i : ℕ} (hi : m.paramTypes.length ≤ i) :
    K.paramType name i = none := by
  rw [paramType, h, Option.bind_some, List.getElem?_eq_none hi, Option.join_none]

theorem FunctionTable.returnType_setReturnType_self {K : FunctionTable} {name : String}
    {m : FnMeta} (h : K.lookup name = some m) (type : Option Ty) :
    (K.setReturnType name type).returnType name = type := by
  have hm : m.name = name := by simpa using List.find?_some h
  rw [returnType, lookup_setReturnType, h, Option.map_some, Option.bind_some, if_pos hm]

/-! ## Expressions -/

mutual
/-- Inference gives a constant its type and commits nothing. -/
theorem inferExpressionType_const {env : TypeEnv} : ∀ {e : Expr} {consts consts' : ConstTables}
    {c : ConstValue} {K : FunctionTable}, buildConstValue consts e = .ok (c, consts') →
    (inferExpressionType env e).run K = .ok (some c.type, K)
  | .number _, _, _, _, _, h | .bool _, _, _, _, _, h | .null, _, _, _, _, h => by
      cases h
      rw [inferExpressionType]
      rfl
  | .string _, _, _, _, _, h => by
      obtain ⟨rfl, -⟩ := buildConstValue_string h
      rw [inferExpressionType]
      rfl
  | .array items, _, _, _, _, h => by
      obtain ⟨values, itemType, _, hitems, rfl, -⟩ := buildConstValue_array h
      rw [inferExpressionType]
      exact run_bind_ok.mpr ⟨itemType, _, inferItems_const hitems, rfl⟩
  | .identifier _, _, _, _, _, h | .unary _ _, _, _, _, _, h | .binary _ _ _, _, _, _, _, h
  | .call _ _, _, _, _, _, h => by cases h

theorem inferItems_const {env : TypeEnv} :
    ∀ {items : List Expr} {consts consts' : ConstTables} {itemType itemType' : Option Ty}
      {values : List ConstValue} {K : FunctionTable},
      buildConstItems consts itemType items = .ok (values, itemType', consts') →
      (inferItems env itemType items).run K = .ok (itemType', K)
  | [], _, _, _, _, _, _, h => by
      cases h
      rw [inferItems]
      rfl
  | item :: items, _, _, itemType, _, _, K, h => by
      obtain ⟨c, _, _, hc, htype, hitems, -⟩ := buildConstItems_cons h
      rw [inferItems.eq_def]
      refine run_bind_ok.mpr ⟨some c.type, K, inferExpressionType_const hc, ?_⟩
      rcases htype with rfl | rfl
      · exact inferItems_const hitems
      · dsimp only [Option.getD_some]
        rw [if_neg (not_not.mpr rfl)]
        exact inferItems_const hitems
end

section Runs

variable {table : FunctionTable} {rets : List String} {env : TypeEnv}

theorem seenType_binary (op : BinaryOp) (l r : Expr) :
    (Expr.binary op l r).seenType table rets env =
      if (op.isLogical || op.isComparison) = true then some .bool else some .i64 := by
  rw [Expr.seenType, Expr.staticType]
  all_goals
    intros
    contradiction

theorem KnowsResults.expr {calls : List String} {K K' : FunctionTable}
    (h : KnowsResults table rets K) (hl : Learns table calls [] K K') :
    KnowsResults table rets K' := by
  have hknows := h.learn hl
  rwa [List.append_nil] at hknows

mutual
/-- A call is read right when its arguments are, and it makes the parameters known. -/
theorem inferExpressionType_learns (hT : TableTyped table) :
    ∀ {e : Expr} {ctx c : LoweringContext} {v : Operand} {K K' : FunctionTable}
      {type : Option Ty}, ExprLowers table ctx e v c →
      (inferExpressionType env e).run K = .ok (type, K') → KnowsResults table rets K →
      K'.Kept table →
      type = e.seenType table rets env ∧ e.SeenRight table rets env ∧
        Learns table e.inferredCalls [] K K'
  | .number _, _, _, _, K, _, _, _, h, _, _ | .string _, _, _, _, K, _, _, _, h, _, _
  | .bool _, _, _, _, K, _, _, _, h, _, _ | .null, _, _, _, K, _, _, _, h, _, _
  | .identifier _, _, _, _, K, _, _, _, h, _, _
  | .unary .neg _, _, _, _, K, _, _, _, h, _, _ | .unary .not _, _, _, _, K, _, _, _, h, _, _
  | .unary .tamanhoDe _, _, _, _, K, _, _, _, h, _, _
  | .unary .tipoDe _, _, _, _, K, _, _, _, h, _, _
  | .unary .identificar _, _, _, _, K, _, _, _, h, _, _ => by
      simp only [inferExpressionType, run_pure_ok, Prod.mk.injEq] at h
      obtain ⟨rfl, rfl⟩ := h
      exact ⟨rfl, trivial, .refl K⟩
  | .array items, _, _, _, K, _, _, hlow, h, _, _ => by
      obtain ⟨c, _, hc, -⟩ := hlow.const_of_array
      rw [inferExpressionType_const hc] at h
      obtain ⟨rfl, rfl⟩ := Prod.mk.inj (Except.ok.inj h)
      rw [inferredCalls_of_const hc]
      exact ⟨(buildConstValue_type hc).symm, trivial, .refl K⟩
  | .unary .observar e, _, _, _, _, _, _, hlow, h, hK, hkept => by
      rw [inferExpressionType] at h
      obtain ⟨seen, K₁, he, h⟩ := run_bind_ok.mp h
      simp only [run_pure_ok, Prod.mk.injEq] at h
      obtain ⟨rfl, rfl⟩ := h
      cases hlow with
      | literal hc => cases hc
      | observar hlow =>
          obtain ⟨rfl, hright, hlearns⟩ := inferExpressionType_learns hT hlow he hK hkept
          exact ⟨rfl, hright, hlearns⟩
  | .binary op l r, _, _, _, _, K', _, hlow, h, hK, hkept => by
      obtain ⟨_, _, K₁, hl, hr, htext, rfl⟩ := inferExpressionType_binary_run h
      obtain ⟨a, b, m, n, hlowl, hlowr⟩ := hlow.operands
      obtain ⟨rfl, hrightl, hlearnsl⟩ := inferExpressionType_learns hT hlowl hl hK
        ((inferExpressionType_commits hr).kept.trans hkept)
      obtain ⟨rfl, hrightr, hlearnsr⟩ := inferExpressionType_learns hT hlowr hr (hK.expr hlearnsl)
        hkept
      exact ⟨(seenType_binary op l r).symm, ⟨hrightl, hrightr, htext⟩, hlearnsl.trans hlearnsr⟩
  | .call callee args, _, _, _, K, _, _, hlow, h, hK, hkept => by
      cases hlow with
      | literal hc => cases hc
      | @call _ _ name entry _ _ _ hlook hlen hargsLow =>
          obtain ⟨_, hname, hargs, rfl⟩ := inferExpressionType_call_run h
          cases hname
          obtain ⟨hright, hshape, hparams, hreturns⟩ := inferArgs_learns hT hargsLow hargs hK
            hkept hlook (by rw [hlen, Nat.zero_add])
          refine ⟨?_, hright, hshape, ?_, ?_⟩
          · rw [Expr.seenType, hreturns, hK.returns]
            split
            · obtain ⟨ρ, hρ⟩ := hT.returnType name entry hlook
              have hreturn : table.returnType name = some ρ := by
                rw [FunctionTable.returnType, hlook]
                exact hρ
              rw [hreturn]
              rfl
            · rfl
          · intro other j
            rw [hparams, Expr.inferredCalls, Nat.zero_add]
            by_cases hmem : other ∈ inferredCallsOf args
            · rw [if_pos (.inl hmem), if_pos (List.mem_cons_of_mem _ hmem)]
            · by_cases hname : other = name
              · subst hname
                rw [if_pos List.mem_cons_self]
                split
                · rfl
                · rename_i hout
                  have hle : entry.paramTypes.length ≤ j := by
                    rw [← hlen]
                    exact Nat.le_of_not_lt fun hlt => hout (.inr ⟨rfl, Nat.zero_le j, hlt⟩)
                  obtain ⟨m, hlookK, hlenK⟩ := FunctionTable.lookup_of_shape hK.shape hlook
                  rw [FunctionTable.paramType_eq_none hlook hle,
                    FunctionTable.paramType_eq_none hlookK (hlenK.trans_le hle)]
              · rw [if_neg, if_neg]
                · exact fun h => (List.mem_cons.mp h).elim hname hmem
                · exact fun h => h.elim hmem fun hown => hname hown.1
          · intro other
            rw [hreturns, if_neg List.not_mem_nil]

theorem inferArgs_learns (hT : TableTyped table) {name : String} {entry : FnMeta} :
    ∀ {args : List Expr} {types : List (Option Ty)} {i : ℕ} {ctx c : LoweringContext}
      {vs : List Operand} {K K' : FunctionTable} {u : Unit},
      ArgsLower table ctx types args vs c → (inferArgs env name i args).run K = .ok (u, K') →
      KnowsResults table rets K → K'.Kept table → table.lookup name = some entry →
      i + args.length = entry.paramTypes.length →
      ArgsSeenRight table rets env name i args ∧ K'.shape = K.shape ∧
        (∀ other j, K'.paramType other j =
          if other ∈ inferredCallsOf args ∨ other = name ∧ i ≤ j ∧ j < i + args.length then
            table.paramType other j else K.paramType other j) ∧
        ∀ other, K'.returnType other = K.returnType other
  | [], _, i, _, _, _, _, _, _, _, h, _, _, _, _ => by
      simp only [inferArgs, run_pure_ok, Prod.mk.injEq] at h
      obtain ⟨-, rfl⟩ := h
      refine ⟨trivial, rfl, ?_, fun _ => rfl⟩
      intro other j
      rw [if_neg]
      rintro (hmem | ⟨-, hle, hlt⟩)
      · exact List.not_mem_nil hmem
      · rw [List.length_nil] at hlt
        omega
  | arg :: args, _, i, _, _, _, K, K', _, hlow, h, hK, hkept, hlook, hlen => by
      obtain ⟨seen, K₁, merged, harg, hmerge, h⟩ := inferArgs_cons_run h
      obtain rfl := mergeType_eq hmerge
      have hcommit : Commit [name] [] K₁
          (K₁.setParamType name i (some (seen.getD defaultParamType))) :=
        .param List.mem_cons_self hmerge
      have hkept₂ := (inferArgs_commits h).kept.trans hkept
      cases hlow with
      | @cons _ m _ _ _ _ v _ hv hty hrest =>
          obtain ⟨rfl, hright, hlearns⟩ := inferExpressionType_learns hT hv harg hK
            (hcommit.kept.trans hkept₂)
          have hK₁ := hK.expr hlearns
          rw [List.length_cons] at hlen
          obtain ⟨entry₁, hlook₁, hlen₁⟩ := FunctionTable.lookup_of_shape hK₁.shape hlook
          have hself := FunctionTable.paramType_setParamType_self hlook₁
            (by omega : i < entry₁.paramTypes.length)
            (some ((arg.seenType table rets env).getD defaultParamType))
          have hparam := hkept₂.params name i _ hself
          have hK₂ : KnowsResults table rets (K₁.setParamType name i
              (some ((arg.seenType table rets env).getD defaultParamType))) := by
            refine ⟨(FunctionTable.shape_setParamType _ _ _ _).trans hK₁.shape, ?_⟩
            intro other
            rw [FunctionTable.returnType_setParamType, hK₁.returns]
          obtain ⟨hrights, hshape, hparams, hreturns⟩ := inferArgs_learns hT hrest h hK₂ hkept
            hlook (by omega)
          refine ⟨⟨hright, hparam, hrights⟩, ?_, ?_, ?_⟩
          · rw [hshape, FunctionTable.shape_setParamType, hlearns.shape]
          · intro other j
            rw [hparams, inferredCallsOf, List.length_cons]
            by_cases hlater : other ∈ inferredCallsOf args ∨
                other = name ∧ i + 1 ≤ j ∧ j < i + 1 + args.length
            · rw [if_pos hlater, if_pos]
              rcases hlater with hmem | ⟨hname, hle, hlt⟩
              · exact .inl (List.mem_append_right _ hmem)
              · exact .inr ⟨hname, by omega, by omega⟩
            · rw [if_neg hlater]
              by_cases hown : other = name ∧ j = i
              · obtain ⟨rfl, rfl⟩ := hown
                rw [hself, hparam, if_pos (.inr ⟨rfl, Nat.le_refl j, by omega⟩)]
              · rw [K₁.paramType_setParamType_of_ne _ hown, hlearns.params]
                by_cases hmem : other ∈ arg.inferredCalls
                · rw [if_pos hmem, if_pos (.inl (List.mem_append_left _ hmem))]
                · rw [if_neg hmem, if_neg]
                  rintro (h | ⟨hname, hle, hlt⟩)
                  · exact (List.mem_append.mp h).elim hmem fun h => hlater (.inl h)
                  · refine hlater (.inr ⟨hname, ?_, by omega⟩)
                    exact Nat.lt_of_le_of_ne hle fun heq => hown ⟨hname, heq.symm⟩
          · intro other
            rw [hreturns, FunctionTable.returnType_setParamType, hlearns.returns,
              if_neg List.not_mem_nil]
end

/-- A type merges with what is known of it. -/
theorem mergeType_of_known {current : Option Ty} {type : Ty}
    (h : ∀ τ, current = some τ → τ = type) : mergeType current (some type) = some (some type) := by
  cases current with
  | none => rfl
  | some τ => rw [mergeType, if_pos (h τ rfl), h τ rfl]

theorem FunctionTable.Kept.setParamType {K : FunctionTable} (h : K.Kept table) {name : String}
    {i : ℕ} {type : Ty} (htype : table.paramType name i = some type) :
    (K.setParamType name i (some type)).Kept table := by
  constructor
  · intro other j τ hτ
    rcases K.paramType_setParamType name i (some type) other j with heq | ⟨rfl, rfl, heq⟩
    · exact h.params other j τ (heq.symm.trans hτ)
    · rw [htype, ← hτ, heq]
  · intro other τ hτ
    rw [returnType_setParamType] at hτ
    exact h.returns other τ hτ

theorem FunctionTable.Kept.setReturnType {K : FunctionTable} (h : K.Kept table) {name : String}
    {type : Ty} (htype : table.returnType name = some type) :
    (K.setReturnType name (some type)).Kept table := by
  constructor
  · intro other j τ hτ
    rw [paramType_setReturnType] at hτ
    exact h.params other j τ hτ
  · intro other τ hτ
    rcases K.returnType_setReturnType name (some type) other with heq | ⟨rfl, heq⟩
    · exact h.returns other τ (heq.symm.trans hτ)
    · rw [htype, ← hτ, heq]

mutual
/-- An expression that is read right is inferred. -/
theorem inferExpressionType_accepts (hT : TableTyped table) :
    ∀ {e : Expr} {ctx c : LoweringContext} {v : Operand} {K : FunctionTable},
      ExprLowers table ctx e v c → e.SeenRight table rets env → KnowsResults table rets K →
      K.Kept table →
      ∃ K', (inferExpressionType env e).run K = .ok (e.seenType table rets env, K') ∧
        K'.Kept table
  | .number _, _, _, _, K, _, _, _, hkept | .string _, _, _, _, K, _, _, _, hkept
  | .bool _, _, _, _, K, _, _, _, hkept | .null, _, _, _, K, _, _, _, hkept
  | .identifier _, _, _, _, K, _, _, _, hkept
  | .unary .neg _, _, _, _, K, _, _, _, hkept | .unary .not _, _, _, _, K, _, _, _, hkept
  | .unary .tamanhoDe _, _, _, _, K, _, _, _, hkept
  | .unary .tipoDe _, _, _, _, K, _, _, _, hkept
  | .unary .identificar _, _, _, _, K, _, _, _, hkept => by
      rw [inferExpressionType]
      exact ⟨K, rfl, hkept⟩
  | .array items, _, _, _, K, hlow, _, _, hkept => by
      obtain ⟨c, _, hc, -⟩ := hlow.const_of_array
      have htype : (Expr.array items).seenType table rets env = some c.type :=
        buildConstValue_type hc
      rw [htype]
      exact ⟨K, inferExpressionType_const hc, hkept⟩
  | .unary .observar e, _, _, _, _, hlow, hright, hK, hkept => by
      cases hlow with
      | literal hc => cases hc
      | observar hlow =>
          obtain ⟨K', hrun, hkept'⟩ := inferExpressionType_accepts hT hlow hright hK hkept
          rw [inferExpressionType]
          exact ⟨K', run_bind_ok.mpr ⟨_, K', hrun, rfl⟩, hkept'⟩
  | .binary op l r, _, _, _, _, hlow, hright, hK, hkept => by
      obtain ⟨a, b, m, n, hlowl, hlowr⟩ := hlow.operands
      obtain ⟨hrightl, hrightr, hop⟩ := hright
      obtain ⟨K₁, hl, hkept₁⟩ := inferExpressionType_accepts hT hlowl hrightl hK hkept
      have hK₁ := hK.expr (inferExpressionType_learns hT hlowl hl hK hkept₁).2.2
      obtain ⟨K₂, hr, hkept₂⟩ := inferExpressionType_accepts hT hlowr hrightr hK₁ hkept₁
      refine ⟨K₂, ?_, hkept₂⟩
      rw [inferExpressionType]
      refine run_bind_ok.mpr ⟨_, K₁, hl, run_bind_ok.mpr ⟨_, K₂, hr, ?_⟩⟩
      rw [seenType_binary]
      by_cases hlogical : (op.isLogical || op.isComparison) = true
      · rw [if_pos hlogical, if_pos hlogical]
        rfl
      · rw [if_neg hlogical, if_neg hlogical, if_neg (not_or.mpr (hop.resolve_left hlogical))]
        rfl
  | .call callee args, _, _, _, K, hlow, hright, hK, hkept => by
      cases hlow with
      | literal hc => cases hc
      | @call _ _ name entry _ _ hname hlook hlen hargsLow =>
          obtain ⟨m, hlookK, hlenK⟩ := FunctionTable.lookup_of_shape hK.shape hlook
          have hlen' : 0 + args.length = entry.paramTypes.length := by rw [hlen, Nat.zero_add]
          obtain ⟨K', hargs, hkept'⟩ :=
            inferArgs_accepts hT hargsLow hright hK hkept hlook hlen'
          obtain ⟨-, -, -, hreturns⟩ := inferArgs_learns hT hargsLow hargs hK hkept' hlook hlen'
          refine ⟨K', ?_, hkept'⟩
          rw [inferExpressionType, if_neg hname]
          refine run_bind_ok.mpr ⟨K, K, rfl, ?_⟩
          rw [hlookK]
          dsimp only
          rw [if_neg (not_not.mpr (hlen.trans hlenK.symm))]
          refine run_bind_ok.mpr ⟨(), K', hargs, run_bind_ok.mpr ⟨K', K', rfl, ?_⟩⟩
          rw [Expr.seenType, hreturns, hK.returns]
          split
          · obtain ⟨ρ, hρ⟩ := hT.returnType name entry hlook
            have hreturn : table.returnType name = some ρ := by
              rw [FunctionTable.returnType, hlook]
              exact hρ
            rw [hreturn]
            rfl
          · rfl

theorem inferArgs_accepts (hT : TableTyped table) {name : String} {entry : FnMeta} :
    ∀ {args : List Expr} {types : List (Option Ty)} {i : ℕ} {ctx c : LoweringContext}
      {vs : List Operand} {K : FunctionTable}, ArgsLower table ctx types args vs c →
      ArgsSeenRight table rets env name i args → KnowsResults table rets K → K.Kept table →
      table.lookup name = some entry → i + args.length = entry.paramTypes.length →
      ∃ K', (inferArgs env name i args).run K = .ok ((), K') ∧ K'.Kept table
  | [], _, _, _, _, _, K, _, _, _, hkept, _, _ => by
      rw [inferArgs]
      exact ⟨K, rfl, hkept⟩
  | arg :: args, _, i, _, _, _, K, hlow, hright, hK, hkept, hlook, hlen => by
      cases hlow with
      | @cons _ m _ _ _ _ v _ hv hty hrest =>
          obtain ⟨hrightArg, hparam, hrightRest⟩ := hright
          obtain ⟨K₁, harg, hkept₁⟩ := inferExpressionType_accepts hT hv hrightArg hK hkept
          have hK₁ := hK.expr (inferExpressionType_learns hT hv harg hK hkept₁).2.2
          have hmerge : mergeType (K₁.paramType name i)
              (some ((arg.seenType table rets env).getD defaultParamType)) = some (some
                ((arg.seenType table rets env).getD defaultParamType)) := by
            refine mergeType_of_known fun τ hτ => ?_
            exact Option.some.inj ((hkept₁.params name i τ hτ).symm.trans hparam)
          have hK₂ : KnowsResults table rets (K₁.setParamType name i
              (some ((arg.seenType table rets env).getD defaultParamType))) := by
            refine ⟨(FunctionTable.shape_setParamType _ _ _ _).trans hK₁.shape, ?_⟩
            intro other
            rw [FunctionTable.returnType_setParamType, hK₁.returns]
          rw [List.length_cons] at hlen
          obtain ⟨K', hrun, hkept'⟩ := inferArgs_accepts hT hrest hrightRest hK₂
            (hkept₁.setParamType hparam) hlook (by omega)
          refine ⟨K', ?_, hkept'⟩
          rw [inferArgs]
          refine run_bind_ok.mpr ⟨_, K₁, harg, run_bind_ok.mpr ⟨K₁, K₁, rfl, ?_⟩⟩
          rw [hmerge]
          exact run_bind_ok.mpr ⟨⟨⟩, _, rfl, hrun⟩
end

/-! ## Statements -/

theorem mem_retsOf {metaName name : String} {returns : Bool} :
    name ∈ retsOf metaName returns ↔ returns = true ∧ name = metaName := by
  cases returns <;> simp [retsOf]

theorem Learns.of_mem {calls rets rets' : List String} {K K' : FunctionTable}
    (h : Learns table calls rets K K') (hrets : ∀ name, name ∈ rets ↔ name ∈ rets') :
    Learns table calls rets' K K' := by
  refine ⟨h.shape, h.params, ?_⟩
  intro name
  rw [h.returns]
  exact if_congr (hrets name) rfl rfl

/-- A return is read right, and it makes the result known. -/
theorem mergeReturn_learns {metaName : String} {entry : FnMeta} {type : Ty} {K K' : FunctionTable}
    {b : Bool} (h : (mergeReturn metaName type).run K = .ok (b, K'))
    (hK : KnowsResults table rets K) (hkept : K'.Kept table)
    (hlook : table.lookup metaName = some entry) :
    table.returnType metaName = some type ∧ Learns table [] [metaName] K K' ∧
      (b = true ↔ metaName ∉ rets) := by
  simp only [mergeReturn, run_bind_ok, run_get_ok, Prod.mk.injEq] at h
  obtain ⟨_, _, ⟨rfl, rfl⟩, h⟩ := h
  split at h
  · exact (run_throw_ok.mp h).elim
  · rename_i merged hmerge
    obtain rfl := mergeType_eq hmerge
    split at h
    · rename_i hnew
      simp only [run_bind_ok, run_modify_ok, run_pure_ok, Prod.mk.injEq] at h
      obtain ⟨_, _, ⟨_, rfl⟩, rfl, rfl⟩ := h
      obtain ⟨m, hlookK, -⟩ := FunctionTable.lookup_of_shape hK.shape hlook
      have hself := FunctionTable.returnType_setReturnType_self hlookK (some type)
      have htype := hkept.returns metaName type hself
      refine ⟨htype, ⟨FunctionTable.shape_setReturnType _ _ _, ?_, ?_⟩, ?_⟩
      · intro other j
        rw [FunctionTable.paramType_setReturnType, if_neg List.not_mem_nil]
      · intro other
        by_cases hname : other = metaName
        · rw [hname, hself, htype, if_pos List.mem_cons_self]
        · rw [if_neg fun hmem => hname (List.mem_singleton.mp hmem)]
          exact (K.returnType_setReturnType metaName _ other).resolve_right fun h => hname h.1
      · refine iff_of_true rfl fun hmem => hnew ?_
        rw [hK.returns, if_pos hmem, htype]
    · rename_i hold
      simp only [run_pure_ok, Prod.mk.injEq] at h
      obtain ⟨rfl, rfl⟩ := h
      have hknown : K.returnType metaName = some type := (not_not.mp hold).symm
      have htype := hkept.returns metaName type hknown
      refine ⟨htype, ⟨rfl, ?_, ?_⟩, ?_⟩
      · intro other j
        rw [if_neg List.not_mem_nil]
      · intro other
        by_cases hname : other = metaName
        · rw [hname, hknown, htype, if_pos List.mem_cons_self]
        · rw [if_neg fun hmem => hname (List.mem_singleton.mp hmem)]
      · refine iff_of_false Bool.false_ne_true fun hnot => ?_
        rw [hK.returns, if_neg hnot] at hknown
        cases hknown

/-- When one of two parts changes a result that was not known. -/
theorem changed_or {metaName : String} {rets : List String} {first second a b : Bool}
    (ha : a = true ↔ first = true ∧ metaName ∉ rets)
    (hb : b = true ↔ second = true ∧ metaName ∉ rets ++ retsOf metaName first) :
    (a || b) = true ↔ (first || second) = true ∧ metaName ∉ rets := by
  rw [Bool.or_eq_true, ha, hb, Bool.or_eq_true, List.mem_append, mem_retsOf]
  tauto

/-- What a statement read right leaves. -/
structure ReadsStatement (table : FunctionTable) (metaName : String) (rets : List String)
    (calls : List String) (returns : Bool) (K K' : FunctionTable) (b : Bool) : Prop where
  learns : Learns table calls (retsOf metaName returns) K K'
  changed : b = true ↔ returns = true ∧ metaName ∉ rets

theorem ReadsStatement.both {metaName : String} {calls calls' : List String}
    {first second a b : Bool} {K K₁ K₂ : FunctionTable}
    (h : ReadsStatement table metaName rets calls first K K₁ a)
    (h' : ReadsStatement table metaName (rets ++ retsOf metaName first) calls' second K₁ K₂ b) :
    ReadsStatement table metaName rets (calls ++ calls') (first || second) K K₂ (a || b) := by
  refine ⟨(h.learns.trans h'.learns).of_mem ?_, changed_or h.changed h'.changed⟩
  intro name
  rw [List.mem_append, mem_retsOf, mem_retsOf, mem_retsOf, Bool.or_eq_true]
  tauto

/-- An expression is read before the rest of a statement. -/
theorem ReadsStatement.after {metaName : String} {calls calls' : List String} {returns b : Bool}
    {K K₁ K₂ : FunctionTable} (h : Learns table calls [] K K₁)
    (h' : ReadsStatement table metaName rets calls' returns K₁ K₂ b) :
    ReadsStatement table metaName rets (calls ++ calls') returns K K₂ b :=
  ⟨h.trans h'.learns, h'.changed⟩

theorem ReadsStatement.of_expr {metaName : String} {calls : List String} {K K' : FunctionTable}
    (h : Learns table calls [] K K') :
    ReadsStatement table metaName rets calls false K K' false :=
  ⟨h, iff_of_false Bool.false_ne_true fun h => Bool.false_ne_true h.1⟩

/-- Inference that keeps to the table reads a statement right, and learns what it says. -/
def StmtLearns (table : FunctionTable) (metaName : String) (s : Stmt) : Prop :=
  ∀ ⦃rets : List String⦄ ⦃env : TypeEnv⦄ ⦃ctx c : LoweringContext⦄ ⦃K K' : FunctionTable⦄
    ⦃env' : TypeEnv⦄ ⦃b : Bool⦄, StmtLowers table ctx s c →
    (inferStatement metaName env s).run K = .ok ((env', b), K') → KnowsResults table rets K →
    K'.Kept table →
    env' = s.seenEnv table rets env ∧ s.SeenRight table metaName rets env ∧
      ReadsStatement table metaName rets s.inferredCalls s.hasReturn K K' b

def BodyLearns (table : FunctionTable) (metaName : String) (body : List Stmt) : Prop :=
  ∀ ⦃rets : List String⦄ ⦃env : TypeEnv⦄ ⦃ctx c : LoweringContext⦄ ⦃K K' : FunctionTable⦄
    ⦃env' : TypeEnv⦄ ⦃b : Bool⦄, StmtsLower table ctx body c →
    (inferStatements metaName env body).run K = .ok ((env', b), K') →
    KnowsResults table rets K → K'.Kept table →
    BodySeenRight table metaName rets env body ∧
      ReadsStatement table metaName rets (bodyCalls body) (bodyReturns body) K K' b

section Statements

variable (hT : TableTyped table) {metaName : String}
include hT

theorem StmtLearns.define {name : String} {e : Expr} :
    StmtLearns table metaName (.define name e) := by
  intro rets env _ _ _ _ _ _ hlow h hK hkept
  rw [inferStatement] at h
  obtain ⟨seen, K₁, he, h⟩ := run_bind_ok.mp h
  simp only [run_pure_ok, Prod.mk.injEq] at h
  obtain ⟨⟨rfl, rfl⟩, rfl⟩ := h
  cases hlow with
  | define hlow _ =>
      obtain ⟨rfl, hright, hlearns⟩ := inferExpressionType_learns hT hlow he hK hkept
      exact ⟨rfl, hright, .of_expr hlearns⟩

theorem StmtLearns.assign {name : String} {e : Expr} :
    StmtLearns table metaName (.assign name e) := by
  intro rets env _ _ _ _ _ _ hlow h hK hkept
  rw [inferStatement] at h
  obtain ⟨seen, K₁, he, h⟩ := run_bind_ok.mp h
  cases hlow with
  | assign _ hlow _ =>
      dsimp only at h
      cases henv : env name with
      | none =>
          rw [henv] at h
          simp only [run_pure_ok, Prod.mk.injEq] at h
          obtain ⟨⟨rfl, rfl⟩, rfl⟩ := h
          obtain ⟨rfl, hright, hlearns⟩ := inferExpressionType_learns hT hlow he hK hkept
          refine ⟨?_, ⟨hright, ?_⟩, .of_expr hlearns⟩
          · rw [Stmt.seenEnv, if_pos henv, Option.or_none]
          · intro old hold
            rw [henv] at hold
            cases hold
      | some old =>
          rw [henv] at h
          dsimp only at h
          split at h
          · exact (run_throw_bind_ok.mp h).elim
          · rename_i hsame
            simp only [run_pure_ok, Prod.mk.injEq] at h
            obtain ⟨⟨rfl, rfl⟩, rfl⟩ := h
            obtain ⟨rfl, hright, hlearns⟩ := inferExpressionType_learns hT hlow he hK hkept
            refine ⟨?_, ⟨hright, ?_⟩, .of_expr hlearns⟩
            · rw [Stmt.seenEnv, if_neg (by rw [henv]; nofun)]
            · intro old' hold
              rw [henv] at hold
              obtain rfl := Option.some.inj hold
              rw [not_not] at hsame
              cases hseen : e.seenType table rets env with
              | none => rfl
              | some τ =>
                  rw [hseen] at hsame
                  exact hsame.symm

theorem StmtLearns.«show» {e : Expr} : StmtLearns table metaName (.show e) := by
  intro _ _ _ _ _ _ _ _ hlow h hK hkept
  rw [inferStatement] at h
  obtain ⟨_, K₁, he, h⟩ := run_bind_ok.mp h
  simp only [run_pure_ok, Prod.mk.injEq] at h
  obtain ⟨⟨rfl, rfl⟩, rfl⟩ := h
  cases hlow with
  | «show» hlow =>
      obtain ⟨rfl, hright, hlearns⟩ := inferExpressionType_learns hT hlow he hK hkept
      exact ⟨rfl, hright, .of_expr hlearns⟩

theorem StmtLearns.exprStmt {e : Expr} : StmtLearns table metaName (.exprStmt e) := by
  intro _ _ _ _ _ _ _ _ hlow h hK hkept
  rw [inferStatement] at h
  obtain ⟨_, K₁, he, h⟩ := run_bind_ok.mp h
  simp only [run_pure_ok, Prod.mk.injEq] at h
  obtain ⟨⟨rfl, rfl⟩, rfl⟩ := h
  cases hlow with
  | exprStmt hlow =>
      obtain ⟨rfl, hright, hlearns⟩ := inferExpressionType_learns hT hlow he hK hkept
      exact ⟨rfl, hright, .of_expr hlearns⟩

theorem StmtLearns.ret {entry : FnMeta} (hlook : table.lookup metaName = some entry) {e : Expr} :
    StmtLearns table metaName (.ret (some e)) := by
  intro _ _ _ _ _ _ _ _ hlow h hK hkept
  rw [inferStatement] at h
  obtain ⟨seen, K₁, he, h⟩ := run_bind_ok.mp h
  simp only [run_bind_ok, run_pure_ok, Prod.mk.injEq] at h
  obtain ⟨_, K₂, hmerge, ⟨rfl, rfl⟩, rfl⟩ := h
  cases hlow with
  | ret hlow _ =>
      obtain ⟨rfl, hright, hlearns⟩ := inferExpressionType_learns hT hlow he hK
        ((mergeReturn_commits hmerge).kept.trans hkept)
      obtain ⟨htype, hlearns', hchanged⟩ :=
        mergeReturn_learns hmerge (hK.expr hlearns) hkept hlook
      have hboth := hlearns.trans hlearns'
      rw [List.append_nil] at hboth
      exact ⟨rfl, ⟨hright, htype⟩, hboth, hchanged.trans ⟨fun h => ⟨rfl, h⟩, And.right⟩⟩

omit hT in
theorem StmtLearns.retDefault {entry : FnMeta} (hlook : table.lookup metaName = some entry) :
    StmtLearns table metaName (.ret none) := by
  intro rets _ _ _ K _ _ _ _ h hK hkept
  rw [inferStatement] at h
  simp only [run_bind_ok, run_get_ok, run_pure_ok, Prod.mk.injEq] at h
  obtain ⟨_, _, ⟨rfl, rfl⟩, _, K₂, hmerge, ⟨rfl, rfl⟩, rfl⟩ := h
  obtain ⟨htype, hlearns, hchanged⟩ := mergeReturn_learns hmerge hK hkept hlook
  refine ⟨rfl, ?_, hlearns, hchanged.trans ⟨fun h => ⟨rfl, h⟩, And.right⟩⟩
  by_cases hmem : metaName ∈ rets
  · exact .inl hmem
  · rw [hK.returns, if_neg hmem] at htype
    exact .inr htype

theorem StmtLearns.ifElse {test : Expr} {thenBody elseBody : List Stmt}
    (hthenBody : BodyLearns table metaName thenBody)
    (helseBody : BodyLearns table metaName elseBody) :
    StmtLearns table metaName (.ifElse test thenBody elseBody) := by
  intro rets env _ _ _ _ _ _ hlow h hK hkept
  rw [inferStatement] at h
  obtain ⟨_, K₁, ht, h⟩ := run_bind_ok.mp h
  obtain ⟨⟨env₁, a⟩, K₂, hthen, h⟩ := run_bind_ok.mp h
  obtain ⟨⟨env₂, a'⟩, K₃, helse, h⟩ := run_bind_ok.mp h
  simp only [run_pure_ok, Prod.mk.injEq] at h
  obtain ⟨⟨rfl, rfl⟩, rfl⟩ := h
  have hkept₂ := (inferStatements_commits helse).kept.trans hkept
  cases hlow with
  | ifElse hlowt _ hlowthen hlowelse =>
      obtain ⟨rfl, hrightt, hlearns⟩ := inferExpressionType_learns hT hlowt ht hK
        ((inferStatements_commits hthen).kept.trans hkept₂)
      have hK₁ := hK.expr hlearns
      obtain ⟨hrightthen, hreadthen⟩ :=
        hthenBody hlowthen hthen hK₁ hkept₂
      obtain ⟨hrightelse, hreadelse⟩ := helseBody hlowelse helse
        (hK₁.learn hreadthen.learns) hkept
      exact ⟨rfl, ⟨hrightt, hrightthen, hrightelse⟩, .after hlearns (hreadthen.both hreadelse)⟩

theorem StmtLearns.«while» {test : Expr} {body : List Stmt}
    (hlearned : BodyLearns table metaName body) :
    StmtLearns table metaName (.while test body) := by
  intro rets env _ _ _ _ _ _ hlow h hK hkept
  rw [inferStatement] at h
  obtain ⟨_, K₁, ht, h⟩ := run_bind_ok.mp h
  obtain ⟨⟨env₁, a⟩, K₂, hbody, h⟩ := run_bind_ok.mp h
  simp only [run_pure_ok, Prod.mk.injEq] at h
  obtain ⟨⟨rfl, rfl⟩, rfl⟩ := h
  cases hlow with
  | «while» hlowt _ hlowbody =>
      obtain ⟨rfl, hrightt, hlearns⟩ := inferExpressionType_learns hT hlowt ht hK
        ((inferStatements_commits hbody).kept.trans hkept)
      obtain ⟨hrightbody, hreadbody⟩ :=
        hlearned hlowbody hbody (hK.expr hlearns) hkept
      exact ⟨rfl, ⟨hrightt, hrightbody⟩, .after hlearns hreadbody⟩

theorem StmtLearns.forEach {binding : String} {iterable : Expr} {body : List Stmt}
    (hlearned : BodyLearns table metaName body) :
    StmtLearns table metaName (.forEach binding iterable body) := by
  intro rets env _ _ _ _ _ _ hlow h hK hkept
  rw [inferStatement] at h
  obtain ⟨seen, K₁, he, h⟩ := run_bind_ok.mp h
  split at h
  · exact (run_throw_bind_ok.mp h).elim
  · rename_i hiterable
    obtain ⟨⟨env₁, a⟩, K₂, hbody, h⟩ := run_bind_ok.mp h
    simp only [run_pure_ok, Prod.mk.injEq] at h
    obtain ⟨⟨rfl, rfl⟩, rfl⟩ := h
    cases hlow with
    | forEach hlow _ hlowbody =>
        obtain ⟨rfl, hright, hlearns⟩ := inferExpressionType_learns hT hlow he hK
          ((inferStatements_commits hbody).kept.trans hkept)
        obtain ⟨hrightbody, hreadbody⟩ :=
          hlearned hlowbody hbody (hK.expr hlearns) hkept
        refine ⟨rfl, ⟨hright, ?_, hrightbody⟩, .after hlearns hreadbody⟩
        cases harray : isArrayType (iterable.seenType table rets env) with
        | true => exact .inl rfl
        | false =>
            rw [harray] at hiterable
            simpa using hiterable

end Statements

mutual
theorem inferStatement_learns (hT : TableTyped table) {metaName : String} {entry : FnMeta}
    (hlook : table.lookup metaName = some entry) : ∀ {s : Stmt}, StmtLearns table metaName s
  | .define _ _ => .define hT
  | .assign _ _ => .assign hT
  | .show _ => .show hT
  | .exprStmt _ => .exprStmt hT
  | .ret (some _) => .ret hT hlook
  | .ret none => .retDefault hlook
  | .ifElse _ _ _ =>
      .ifElse hT (inferStatements_learns hT hlook) (inferStatements_learns hT hlook)
  | .while _ _ => .while hT (inferStatements_learns hT hlook)
  | .forEach _ _ _ => .forEach hT (inferStatements_learns hT hlook)

theorem inferStatements_learns (hT : TableTyped table) {metaName : String} {entry : FnMeta}
    (hlook : table.lookup metaName = some entry) :
    ∀ {body : List Stmt}, BodyLearns table metaName body
  | [] => by
      intro _ _ _ _ K _ _ _ _ h _ _
      simp only [inferStatements, run_pure_ok, Prod.mk.injEq] at h
      obtain ⟨⟨rfl, rfl⟩, rfl⟩ := h
      exact ⟨trivial, .of_expr (.refl K)⟩
  | s :: body => by
      intro _ _ _ _ _ _ _ _ hlow h hK hkept
      rw [inferStatements] at h
      obtain ⟨⟨env₁, a⟩, K₁, hs, h⟩ := run_bind_ok.mp h
      obtain ⟨⟨env₂, a'⟩, K₂, hbody, h⟩ := run_bind_ok.mp h
      simp only [run_pure_ok, Prod.mk.injEq] at h
      obtain ⟨⟨rfl, rfl⟩, rfl⟩ := h
      cases hlow with
      | cons hlows hlowbody =>
          obtain ⟨rfl, hrights, hreads⟩ := inferStatement_learns hT hlook hlows hs hK
            ((inferStatements_commits hbody).kept.trans hkept)
          obtain ⟨hrightbody, hreadbody⟩ := inferStatements_learns hT hlook hlowbody hbody
            (hK.learn hreads.learns) hkept
          exact ⟨⟨hrights, hrightbody⟩, hreads.both hreadbody⟩
end

theorem mergeReturn_accepts {metaName : String} {type : Ty} {K : FunctionTable}
    (hkept : K.Kept table) (htype : table.returnType metaName = some type) :
    ∃ b K', (mergeReturn metaName type).run K = .ok (b, K') ∧ K'.Kept table := by
  have hmerge : mergeType (K.returnType metaName) (some type) = some (some type) :=
    mergeType_of_known fun τ hτ =>
      Option.some.inj ((hkept.returns metaName τ hτ).symm.trans htype)
  rw [mergeReturn]
  by_cases hnew : some type ≠ K.returnType metaName
  · refine ⟨true, _, run_bind_ok.mpr ⟨K, K, rfl, ?_⟩, hkept.setReturnType htype⟩
    dsimp only
    rw [hmerge]
    dsimp only
    rw [if_pos hnew]
    rfl
  · refine ⟨false, K, run_bind_ok.mpr ⟨K, K, rfl, ?_⟩, hkept⟩
    dsimp only
    rw [hmerge]
    dsimp only
    rw [if_neg hnew]
    rfl

/-- A statement that is read right is inferred. -/
def StmtAccepts (table : FunctionTable) (metaName : String) (s : Stmt) : Prop :=
  ∀ ⦃rets : List String⦄ ⦃env : TypeEnv⦄ ⦃ctx c : LoweringContext⦄ ⦃K : FunctionTable⦄,
    StmtLowers table ctx s c → s.SeenRight table metaName rets env → KnowsResults table rets K →
    K.Kept table →
    ∃ b K', (inferStatement metaName env s).run K = .ok ((s.seenEnv table rets env, b), K') ∧
      K'.Kept table

def BodyAccepts (table : FunctionTable) (metaName : String) (body : List Stmt) : Prop :=
  ∀ ⦃rets : List String⦄ ⦃env : TypeEnv⦄ ⦃ctx c : LoweringContext⦄ ⦃K : FunctionTable⦄,
    StmtsLower table ctx body c → BodySeenRight table metaName rets env body →
    KnowsResults table rets K → K.Kept table →
    ∃ env' b K', (inferStatements metaName env body).run K = .ok ((env', b), K') ∧
      K'.Kept table

section Statements

variable (hT : TableTyped table) {metaName : String}
include hT

theorem StmtAccepts.define {name : String} {e : Expr} :
    StmtAccepts table metaName (.define name e) := by
  intro _ _ _ _ _ hlow hright hK hkept
  cases hlow with
  | define hlow _ =>
      obtain ⟨K', he, hkept'⟩ := inferExpressionType_accepts hT hlow hright hK hkept
      rw [inferStatement]
      exact ⟨false, K', run_bind_ok.mpr ⟨_, K', he, rfl⟩, hkept'⟩

theorem StmtAccepts.assign {name : String} {e : Expr} :
    StmtAccepts table metaName (.assign name e) := by
  intro rets env _ _ _ hlow hright hK hkept
  cases hlow with
  | assign _ hlow _ =>
      obtain ⟨hright, hold⟩ := hright
      obtain ⟨K', he, hkept'⟩ := inferExpressionType_accepts hT hlow hright hK hkept
      rw [inferStatement, Stmt.seenEnv]
      refine ⟨false, K', run_bind_ok.mpr ⟨_, K', he, ?_⟩, hkept'⟩
      cases henv : env name with
      | none =>
          rw [if_pos rfl, Option.or_none]
          rfl
      | some old =>
          have htype : (((e.seenType table rets env).or (some old)).getD defaultParamType) =
              old := by
            have hseen := hold old henv
            cases hcase : e.seenType table rets env with
            | none => rfl
            | some τ =>
                rw [hcase] at hseen
                exact hseen
          rw [if_neg (Option.some_ne_none old)]
          dsimp only
          rw [if_neg (not_not.mpr htype.symm)]
          rfl

theorem StmtAccepts.«show» {e : Expr} : StmtAccepts table metaName (.show e) := by
  intro _ _ _ _ _ hlow hright hK hkept
  cases hlow with
  | «show» hlow =>
      obtain ⟨K', he, hkept'⟩ := inferExpressionType_accepts hT hlow hright hK hkept
      rw [inferStatement]
      exact ⟨false, K', run_bind_ok.mpr ⟨_, K', he, rfl⟩, hkept'⟩

theorem StmtAccepts.exprStmt {e : Expr} : StmtAccepts table metaName (.exprStmt e) := by
  intro _ _ _ _ _ hlow hright hK hkept
  cases hlow with
  | exprStmt hlow =>
      obtain ⟨K', he, hkept'⟩ := inferExpressionType_accepts hT hlow hright hK hkept
      rw [inferStatement]
      exact ⟨false, K', run_bind_ok.mpr ⟨_, K', he, rfl⟩, hkept'⟩

theorem StmtAccepts.ret {e : Expr} : StmtAccepts table metaName (.ret (some e)) := by
  intro _ _ _ _ _ hlow hright hK hkept
  cases hlow with
  | ret hlow _ =>
      obtain ⟨K₁, he, hkept₁⟩ := inferExpressionType_accepts hT hlow hright.1 hK hkept
      obtain ⟨b, K₂, hmerge, hkept₂⟩ := mergeReturn_accepts hkept₁ hright.2
      rw [inferStatement]
      exact ⟨b, K₂, run_bind_ok.mpr ⟨_, K₁, he, run_bind_ok.mpr ⟨b, K₂, hmerge, rfl⟩⟩, hkept₂⟩

theorem StmtAccepts.retDefault {entry : FnMeta} (hlook : table.lookup metaName = some entry) :
    StmtAccepts table metaName (.ret none) := by
  intro rets _ _ _ K _ hright hK hkept
  have htype : table.returnType metaName =
      some ((K.returnType metaName).getD defaultReturnType) := by
    rw [hK.returns]
    by_cases hmem : metaName ∈ rets
    · obtain ⟨ρ, hρ⟩ := hT.returnType metaName entry hlook
      have hreturn : table.returnType metaName = some ρ := by
        rw [FunctionTable.returnType, hlook]
        exact hρ
      rw [if_pos hmem, hreturn]
      rfl
    · rw [if_neg hmem]
      exact hright.resolve_left hmem
  obtain ⟨b, K', hmerge, hkept'⟩ := mergeReturn_accepts hkept htype
  rw [inferStatement]
  exact ⟨b, K', run_bind_ok.mpr ⟨K, K, rfl, run_bind_ok.mpr ⟨b, K', hmerge, rfl⟩⟩, hkept'⟩

theorem StmtAccepts.ifElse {entry : FnMeta} (hlook : table.lookup metaName = some entry)
    {test : Expr} {thenBody elseBody : List Stmt}
    (hthenBody : BodyAccepts table metaName thenBody)
    (helseBody : BodyAccepts table metaName elseBody) :
    StmtAccepts table metaName (.ifElse test thenBody elseBody) := by
  intro _ _ _ _ _ hlow hright hK hkept
  cases hlow with
  | ifElse hlowt _ hlowthen hlowelse =>
      obtain ⟨hrightt, hrightthen, hrightelse⟩ := hright
      obtain ⟨K₁, ht, hkept₁⟩ := inferExpressionType_accepts hT hlowt hrightt hK hkept
      have hK₁ := hK.expr (inferExpressionType_learns hT hlowt ht hK hkept₁).2.2
      obtain ⟨env₁, a, K₂, hthen, hkept₂⟩ :=
        hthenBody hlowthen hrightthen hK₁ hkept₁
      have hreads := (inferStatements_learns hT hlook hlowthen hthen hK₁ hkept₂).2
      obtain ⟨env₂, a', K₃, helse, hkept₃⟩ := helseBody hlowelse
        hrightelse (hK₁.learn hreads.learns) hkept₂
      rw [inferStatement]
      exact ⟨a || a', K₃, run_bind_ok.mpr ⟨_, K₁, ht, run_bind_ok.mpr ⟨_, K₂, hthen,
        run_bind_ok.mpr ⟨_, K₃, helse, rfl⟩⟩⟩, hkept₃⟩

theorem StmtAccepts.«while» {test : Expr} {body : List Stmt}
    (haccepted : BodyAccepts table metaName body) :
    StmtAccepts table metaName (.while test body) := by
  intro _ _ _ _ _ hlow hright hK hkept
  cases hlow with
  | «while» hlowt _ hlowbody =>
      obtain ⟨K₁, ht, hkept₁⟩ := inferExpressionType_accepts hT hlowt hright.1 hK hkept
      have hK₁ := hK.expr (inferExpressionType_learns hT hlowt ht hK hkept₁).2.2
      obtain ⟨env₁, a, K₂, hbody, hkept₂⟩ :=
        haccepted hlowbody hright.2 hK₁ hkept₁
      rw [inferStatement]
      exact ⟨a, K₂, run_bind_ok.mpr ⟨_, K₁, ht, run_bind_ok.mpr ⟨_, K₂, hbody, rfl⟩⟩, hkept₂⟩

theorem StmtAccepts.forEach {binding : String} {iterable : Expr} {body : List Stmt}
    (haccepted : BodyAccepts table metaName body) :
    StmtAccepts table metaName (.forEach binding iterable body) := by
  intro rets env _ _ _ hlow hright hK hkept
  cases hlow with
  | forEach hlow _ hlowbody =>
      obtain ⟨hright, hiterable, hrightbody⟩ := hright
      obtain ⟨K₁, he, hkept₁⟩ := inferExpressionType_accepts hT hlow hright hK hkept
      have hK₁ := hK.expr (inferExpressionType_learns hT hlow he hK hkept₁).2.2
      obtain ⟨env₁, a, K₂, hbody, hkept₂⟩ :=
        haccepted hlowbody hrightbody hK₁ hkept₁
      rw [inferStatement]
      refine ⟨a, K₂, run_bind_ok.mpr ⟨_, K₁, he, ?_⟩, hkept₂⟩
      have hpass : ¬ (!isArrayType (iterable.seenType table rets env) &&
          decide (iterable.seenType table rets env ≠ some .str)) = true := by
        rcases hiterable with h | h
        · rw [h]
          exact Bool.false_ne_true
        · rw [h]
          exact Bool.false_ne_true
      rw [if_neg hpass]
      exact run_bind_ok.mpr ⟨_, K₂, hbody, rfl⟩

end Statements

mutual
theorem inferStatement_accepts (hT : TableTyped table) {metaName : String} {entry : FnMeta}
    (hlook : table.lookup metaName = some entry) : ∀ {s : Stmt}, StmtAccepts table metaName s
  | .define _ _ => .define hT
  | .assign _ _ => .assign hT
  | .show _ => .show hT
  | .exprStmt _ => .exprStmt hT
  | .ret (some _) => .ret hT
  | .ret none => .retDefault hT hlook
  | .ifElse _ _ _ =>
      .ifElse hT hlook (inferStatements_accepts hT hlook) (inferStatements_accepts hT hlook)
  | .while _ _ => .while hT (inferStatements_accepts hT hlook)
  | .forEach _ _ _ => .forEach hT (inferStatements_accepts hT hlook)

theorem inferStatements_accepts (hT : TableTyped table) {metaName : String} {entry : FnMeta}
    (hlook : table.lookup metaName = some entry) :
    ∀ {body : List Stmt}, BodyAccepts table metaName body
  | [] => by
      intro _ env _ _ K _ _ _ hkept
      rw [inferStatements]
      exact ⟨env, false, K, rfl, hkept⟩
  | s :: body => by
      intro _ _ _ _ _ hlow hright hK hkept
      cases hlow with
      | cons hlows hlowbody =>
          obtain ⟨a, K₁, hs, hkept₁⟩ := inferStatement_accepts hT hlook hlows hright.1 hK hkept
          have hreads := (inferStatement_learns hT hlook hlows hs hK hkept₁).2.2
          obtain ⟨env₂, a', K₂, hbody, hkept₂⟩ := inferStatements_accepts hT hlook hlowbody
            hright.2 (hK.learn hreads.learns) hkept₁
          rw [inferStatements]
          exact ⟨env₂, a || a', K₂, run_bind_ok.mpr
            ⟨_, K₁, hs, run_bind_ok.mpr ⟨_, K₂, hbody, rfl⟩⟩,
            hkept₂⟩
end

end Runs

/-! ## Functions and passes -/

/-- What is known: the parameters of `called` and the results of `rets`, as the table has them. -/
structure Knows (table : FunctionTable) (called rets : List String) (K : FunctionTable) : Prop
    extends KnowsResults table rets K where
  params : ∀ name i,
    K.paramType name i = if name ∈ called then table.paramType name i else none

theorem Knows.learn {table : FunctionTable} {called calls rets rets' : List String}
    {K K' : FunctionTable} (h : Knows table called rets K) (hl : Learns table calls rets' K K') :
    Knows table (called ++ calls) (rets ++ rets') K' := by
  refine ⟨h.toKnowsResults.learn hl, ?_⟩
  intro name i
  rw [hl.params, h.params, if_mem_append]

theorem Knows.of_mem {table : FunctionTable} {called called' rets rets' : List String}
    {K : FunctionTable} (h : Knows table called rets K)
    (hcalled : ∀ name, name ∈ called ↔ name ∈ called') (hrets : ∀ name, name ∈ rets ↔
    name ∈ rets') :
    Knows table called' rets' K := by
  refine ⟨⟨h.shape, ?_⟩, ?_⟩
  · intro name
    rw [h.returns]
    exact if_congr (hrets name) rfl rfl
  · intro name i
    rw [h.params]
    exact if_congr (hcalled name) rfl rfl

theorem list_eq_of_join {a b : List (Option Ty)} (hlen : a.length = b.length)
    (h : ∀ i : ℕ, a[i]?.join = b[i]?.join) : a = b := by
  apply List.ext_getElem hlen
  intro i ha hb
  have hi := h i
  rwa [List.getElem?_eq_getElem ha, List.getElem?_eq_getElem hb, Option.join_some,
    Option.join_some] at hi

theorem paramType_of_lookup {table : FunctionTable} {name : String} {m : FnMeta}
    (h : table.lookup name = some m) (i : ℕ) : m.paramTypes[i]?.join = table.paramType name i := by
  rw [FunctionTable.paramType, h]
  rfl

section Passes

variable {table : FunctionTable} {all : List FunctionDecl} (hT : TableFor all table)
  {called rets : List String}
include hT

/-- The names a function starts with. -/
theorem Knows.paramEnv_eq {fn : FunctionDecl} (hfn : fn ∈ all) {K : FunctionTable}
    (hK : Knows table called rets K) :
    paramEnv fn.params (((K.lookup fn.name).map (·.paramTypes)).getD []) =
      fn.seenEnv table called := by
  obtain ⟨entry, hlook, hlen⟩ := hT.exists_entry hfn
  obtain ⟨m, hlookK, hlenK⟩ := FunctionTable.lookup_of_shape hK.shape hlook
  rw [FunctionDecl.seenEnv, hlookK, hlook, Option.map_some, Option.getD_some, Option.map_some,
    Option.getD_some]
  congr 1
  split
  · rename_i hmem
    refine list_eq_of_join hlenK fun i => ?_
    rw [paramType_of_lookup hlookK, paramType_of_lookup hlook, hK.params, if_pos hmem]
  · rename_i hmem
    refine list_eq_of_join (by rw [List.length_map, hlenK, hlen]) fun i => ?_
    rw [paramType_of_lookup hlookK, hK.params, if_neg hmem, List.getElem?_map]
    cases fn.params[i]? <;> rfl

theorem inferFunction_learns {fn : FunctionDecl} (hfn : fn ∈ all) (hlow : fn.LowersUnder table)
    {K K' : FunctionTable} {b : Bool} (h : (inferFunction fn).run K = .ok (b, K'))
    (hK : Knows table called rets K) (hkept : K'.Kept table) :
    BodySeenRight table fn.name rets (fn.seenEnv table called) fn.body ∧
      ReadsStatement table fn.name rets (bodyCalls fn.body) (bodyReturns fn.body) K K' b := by
  simp only [inferFunction, run_bind_ok, run_get_ok, run_pure_ok, Prod.mk.injEq] at h
  obtain ⟨_, _, ⟨rfl, rfl⟩, _, _, hbody, rfl, rfl⟩ := h
  obtain ⟨entry, hlook, -⟩ := hT.exists_entry hfn
  obtain ⟨_, _, hlow⟩ := hlow
  rw [hK.paramEnv_eq hT hfn] at hbody
  exact inferStatements_learns hT.typed hlook hlow hbody hK.toKnowsResults hkept

theorem inferFunction_accepts {fn : FunctionDecl} (hfn : fn ∈ all) (hlow : fn.LowersUnder table)
    {K : FunctionTable}
    (hright : BodySeenRight table fn.name rets (fn.seenEnv table called) fn.body)
    (hK : Knows table called rets K) (hkept : K.Kept table) :
    ∃ b K', (inferFunction fn).run K = .ok (b, K') ∧ K'.Kept table := by
  obtain ⟨entry, hlook, -⟩ := hT.exists_entry hfn
  obtain ⟨_, _, hlow⟩ := hlow
  obtain ⟨env', b, K', hbody, hkept'⟩ :=
    inferStatements_accepts hT.typed hlook hlow hright hK.toKnowsResults hkept
  rw [← hK.paramEnv_eq hT hfn] at hbody
  exact ⟨b, K', run_bind_ok.mpr ⟨K, K, rfl, run_bind_ok.mpr ⟨_, K', hbody, rfl⟩⟩, hkept'⟩

omit hT in
/-- A pass changes a result when it reads one that was not known. -/
theorem changed_cons {fn : FunctionDecl} {fns : List FunctionDecl} {a b : Bool}
    (ha : a = true ↔ bodyReturns fn.body = true ∧ fn.name ∉ rets)
    (hb : b = true ↔
      ∃ name ∈ readReturns fns, name ∉ rets ++ retsOf fn.name (bodyReturns fn.body)) :
    (a || b) = true ↔ ∃ name ∈ readReturns (fn :: fns), name ∉ rets := by
  have hcons : readReturns (fn :: fns) = retsOf fn.name (bodyReturns fn.body) ++ readReturns fns :=
    List.flatMap_cons
  rw [Bool.or_eq_true, ha, hb, hcons]
  constructor
  · rintro (⟨hreturns, hname⟩ | ⟨name, hmem, hnot⟩)
    · exact ⟨fn.name, List.mem_append_left _ (mem_retsOf.mpr ⟨hreturns, rfl⟩), hname⟩
    · exact ⟨name, List.mem_append_right _ hmem, fun h => hnot (List.mem_append_left _ h)⟩
  · rintro ⟨name, hmem, hnot⟩
    by_cases hown : name ∈ retsOf fn.name (bodyReturns fn.body)
    · obtain ⟨hreturns, rfl⟩ := mem_retsOf.mp hown
      exact .inl ⟨hreturns, hnot⟩
    · refine .inr ⟨name, (List.mem_append.mp hmem).resolve_left hown, ?_⟩
      exact fun h => (List.mem_append.mp h).elim hnot hown

/-- A pass is a reading of the functions. -/
theorem inferPass_learns : ∀ {fns : List FunctionDecl} {called rets : List String}
    {K K' : FunctionTable} {b : Bool}, (∀ fn ∈ fns, fn ∈ all ∧ fn.LowersUnder table) →
    (inferPass fns).run K = .ok (b, K') → Knows table called rets K → K'.Kept table →
    ReadRight table called rets fns ∧ Learns table (readCalls fns) (readReturns fns) K K' ∧
      (b = true ↔ ∃ name ∈ readReturns fns, name ∉ rets)
  | [], _, _, K, _, _, _, h, _, _ => by
      simp only [inferPass, run_pure_ok, Prod.mk.injEq] at h
      obtain ⟨rfl, rfl⟩ := h
      refine ⟨trivial, .refl K, iff_of_false Bool.false_ne_true ?_⟩
      rintro ⟨name, hmem, -⟩
      exact List.not_mem_nil hmem
  | fn :: fns, _, _, _, _, _, hfns, h, hK, hkept => by
      rw [inferPass] at h
      obtain ⟨a, K₁, hfn, h⟩ := run_bind_ok.mp h
      obtain ⟨a', K₂, hrest, h⟩ := run_bind_ok.mp h
      simp only [run_pure_ok, Prod.mk.injEq] at h
      obtain ⟨rfl, rfl⟩ := h
      obtain ⟨⟨hmem, hlow⟩, hfns⟩ := List.forall_mem_cons.mp hfns
      obtain ⟨_, _, hcommits⟩ := inferPass_commits hrest
      obtain ⟨hright, hreads⟩ :=
        inferFunction_learns hT hmem hlow hfn hK (hcommits.kept.trans hkept)
      obtain ⟨hrights, hlearns, hchanged⟩ :=
        inferPass_learns hfns hrest (hK.learn hreads.learns) hkept
      exact ⟨⟨hright, hrights⟩, hreads.learns.trans hlearns, changed_cons hreads.changed hchanged⟩

theorem inferPass_accepts : ∀ {fns : List FunctionDecl} {called rets : List String}
    {K : FunctionTable}, (∀ fn ∈ fns, fn ∈ all ∧ fn.LowersUnder table) →
    ReadRight table called rets fns → Knows table called rets K → K.Kept table →
    ∃ b K', (inferPass fns).run K = .ok (b, K') ∧ K'.Kept table
  | [], _, _, K, _, _, _, hkept => ⟨false, K, rfl, hkept⟩
  | fn :: fns, _, _, _, hfns, hright, hK, hkept => by
      obtain ⟨⟨hmem, hlow⟩, hfns⟩ := List.forall_mem_cons.mp hfns
      obtain ⟨a, K₁, hfn, hkept₁⟩ := inferFunction_accepts hT hmem hlow hright.1 hK hkept
      have hreads := (inferFunction_learns hT hmem hlow hfn hK hkept₁).2
      obtain ⟨a', K₂, hrest, hkept₂⟩ :=
        inferPass_accepts hfns hright.2 (hK.learn hreads.learns) hkept₁
      exact ⟨a || a', K₂, run_bind_ok.mpr ⟨a, K₁, hfn, run_bind_ok.mpr ⟨a', K₂, hrest, rfl⟩⟩,
        hkept₂⟩

/-- The passes of a program are at most two readings: the second changes nothing. -/
theorem inferPasses_learns {n : ℕ} {K K' : FunctionTable} {u : Unit}
    (hfns : ∀ fn ∈ all, fn ∈ all ∧ fn.LowersUnder table)
    (h : (inferPasses all (n + 2)).run K = .ok (u, K')) (hK : Knows table [] [] K)
    (hkept : K'.Kept table) :
    ReadRight table [] [] all ∧
      (readReturns all ≠ [] → ReadRight table (readCalls all) (readReturns all) all) ∧
      Knows table (readCalls all) (readReturns all) K' := by
  rw [inferPasses] at h
  obtain ⟨b, K₁, hpass, h⟩ := run_bind_ok.mp h
  have hsome : (∃ name ∈ readReturns all, name ∉ ([] : List String)) ↔ readReturns all ≠ [] := by
    constructor
    · rintro ⟨name, hmem, -⟩
      exact List.ne_nil_of_mem hmem
    · intro hne
      obtain ⟨name, hmem⟩ := List.exists_mem_of_ne_nil _ hne
      exact ⟨name, hmem, List.not_mem_nil⟩
  by_cases hb : b = true
  · rw [if_pos hb] at h
    obtain ⟨_, _, hcommits⟩ := inferPasses_commits h
    obtain ⟨hright, hlearns, -⟩ := inferPass_learns hT hfns hpass hK (hcommits.kept.trans hkept)
    have hK₁ : Knows table (readCalls all) (readReturns all) K₁ := hK.learn hlearns
    rw [inferPasses] at h
    obtain ⟨b', K₂, hpass', h⟩ := run_bind_ok.mp h
    have hkept₂ : K₂.Kept table := by
      split at h
      · obtain ⟨_, _, hcommits'⟩ := inferPasses_commits h
        exact hcommits'.kept.trans hkept
      · simp only [run_pure_ok, Prod.mk.injEq] at h
        exact h.2 ▸ hkept
    obtain ⟨hright', hlearns', hchanged⟩ := inferPass_learns hT hfns hpass' hK₁ hkept₂
    -- everything that is read is known by now
    have hb' : ¬ b' = true := by
      rw [hchanged]
      rintro ⟨name, hmem, hnot⟩
      exact hnot hmem
    rw [if_neg hb'] at h
    simp only [run_pure_ok, Prod.mk.injEq] at h
    obtain ⟨-, rfl⟩ := h
    refine ⟨hright, fun _ => hright', (hK₁.learn hlearns').of_mem ?_ ?_⟩
    all_goals
      intro name
      rw [List.mem_append, or_self]
  · rw [if_neg hb] at h
    simp only [run_pure_ok, Prod.mk.injEq] at h
    obtain ⟨-, rfl⟩ := h
    obtain ⟨hright, hlearns, hchanged⟩ := inferPass_learns hT hfns hpass hK hkept
    exact ⟨hright, fun hne => absurd (hchanged.mpr (hsome.mpr hne)) hb, hK.learn hlearns⟩

theorem inferPasses_accepts {n : ℕ} {K : FunctionTable}
    (hfns : ∀ fn ∈ all, fn ∈ all ∧ fn.LowersUnder table) (hfirst : ReadRight table [] [] all)
    (hsecond : readReturns all ≠ [] → ReadRight table (readCalls all) (readReturns all) all)
    (hK : Knows table [] [] K) (hkept : K.Kept table) :
    ∃ K', (inferPasses all (n + 2)).run K = .ok ((), K') ∧ K'.Kept table := by
  obtain ⟨b, K₁, hpass, hkept₁⟩ := inferPass_accepts hT hfns hfirst hK hkept
  obtain ⟨-, hlearns, hchanged⟩ := inferPass_learns hT hfns hpass hK hkept₁
  have hK₁ : Knows table (readCalls all) (readReturns all) K₁ := hK.learn hlearns
  rw [inferPasses]
  by_cases hb : b = true
  · have hne : readReturns all ≠ [] := by
      obtain ⟨name, hmem, -⟩ := hchanged.mp hb
      exact List.ne_nil_of_mem hmem
    obtain ⟨b', K₂, hpass', hkept₂⟩ := inferPass_accepts hT hfns (hsecond hne) hK₁ hkept₁
    obtain ⟨-, -, hchanged'⟩ := inferPass_learns hT hfns hpass' hK₁ hkept₂
    have hb' : ¬ b' = true := by
      rw [hchanged']
      rintro ⟨name, hmem, hnot⟩
      exact hnot hmem
    refine ⟨K₂, run_bind_ok.mpr ⟨b, K₁, hpass, ?_⟩, hkept₂⟩
    rw [if_pos hb, inferPasses]
    refine run_bind_ok.mpr ⟨b', K₂, hpass', ?_⟩
    rw [if_neg hb']
    rfl
  · refine ⟨K₁, run_bind_ok.mpr ⟨b, K₁, hpass, ?_⟩, hkept₁⟩
    rw [if_neg hb]
    rfl

end Passes

/-! ## The first table and the last -/

/-- Names that are distinct and none of which is the key of the defaults are declared. -/
theorem exists_declareFunctions : ∀ {fns : List FunctionDecl} {t : FunctionTable},
    (fns.map (·.name)).Nodup → (∀ fn ∈ fns, fn.name ≠ defaultsKey) →
    (∀ fn ∈ fns, t.lookup fn.name = none) → ∃ t', declareFunctions t fns = .ok t'
  | [], t, _, _, _ => ⟨t, rfl⟩
  | fn :: fns, t, hnodup, hkeys, hfresh => by
      rw [List.map_cons, List.nodup_cons] at hnodup
      obtain ⟨hkey, hkeys⟩ := List.forall_mem_cons.mp hkeys
      obtain ⟨hnone, hfresh⟩ := List.forall_mem_cons.mp hfresh
      rw [declareFunctions, if_neg (by rw [hnone]; exact not_or.mpr ⟨hkey, Bool.false_ne_true⟩)]
      apply exists_declareFunctions hnodup.2 hkeys
      intro g hg
      rw [FunctionTable.lookup, List.find?_append, Option.or_eq_none_iff]
      refine ⟨hfresh g hg, ?_⟩
      -- a later function has another name
      have hne : fn.name ≠ g.name := by
        intro h
        exact hnodup.1 (h ▸ List.mem_map.mpr ⟨g, hg, rfl⟩)
      rw [List.find?_singleton, if_neg (by simpa using hne)]

/-- Before the first pass nothing is known. -/
theorem knows_of_untyped {t table : FunctionTable} (hshape : t.shape = table.shape)
    (h : ∀ m ∈ t, (∀ type ∈ m.paramTypes, type = none) ∧ m.returnType = none) :
    Knows table [] [] t := by
  refine ⟨⟨hshape, ?_⟩, ?_⟩
  · intro name
    rw [if_neg List.not_mem_nil, returnType_of_untyped h]
  · intro name i
    rw [if_neg List.not_mem_nil, paramType_of_untyped h]

theorem FunctionTable.lookup_of_mem : ∀ {table : FunctionTable} {m : FnMeta},
    (table.map (·.name)).Nodup → m ∈ table → table.lookup m.name = some m
  | [], _, _, hm => absurd hm List.not_mem_nil
  | entry :: table, m, hnodup, hm => by
      rw [List.map_cons, List.nodup_cons] at hnodup
      rw [lookup, List.find?_cons]
      rcases List.mem_cons.mp hm with rfl | hm
      · rw [decide_eq_true rfl]
      · have hne : entry.name ≠ m.name := by
          intro h
          exact hnodup.1 (h ▸ List.mem_map.mpr ⟨m, hm, rfl⟩)
        rw [decide_eq_false hne]
        exact lookup_of_mem hnodup.2 hm

theorem finalizeTable_typed (t : FunctionTable) : TableTyped (finalizeTable t) := by
  constructor
  · intro name entry hlook type htype
    rw [lookup_finalizeTable, Option.map_eq_some_iff] at hlook
    obtain ⟨m, -, rfl⟩ := hlook
    obtain ⟨_, -, rfl⟩ := List.mem_map.mp htype
    rfl
  · intro name entry hlook
    rw [lookup_finalizeTable, Option.map_eq_some_iff] at hlook
    obtain ⟨m, -, rfl⟩ := hlook
    exact ⟨_, rfl⟩

/-- What is known at the end and numbers for the rest make up the table. -/
theorem finalizeTable_eq {program : Program} {table K : FunctionTable}
    (hT : TableFor program.functions table) (hoff : ReadsOff program table)
    (hK : Knows table (readCalls program.functions) (readReturns program.functions) K) :
    finalizeTable K = table := by
  have hshape : (finalizeTable K).shape = table.shape := (finalizeTable_shape K).trans hK.shape
  have hnames : table.map (·.name) = program.functions.map (·.name) := by
    simpa only [FunctionTable.shape, List.map_map, Function.comp_def] using
      congrArg (List.map Prod.fst) hT.shape
  have hnames' : (finalizeTable K).map (·.name) = table.map (·.name) := by
    simpa only [FunctionTable.shape, List.map_map, Function.comp_def] using
      congrArg (List.map Prod.fst) hshape
  have hnodup : (table.map (·.name)).Nodup := hnames ▸ hT.nodup
  refine List.ext_getElem ?_ fun i hi' hi => ?_
  · simpa only [FunctionTable.shape, List.length_map] using congrArg List.length hshape
  have hpair : ((finalizeTable K)[i].name, (finalizeTable K)[i].paramTypes.length) =
      (table[i].name, table[i].paramTypes.length) := by
    have hget : (finalizeTable K).shape[i]? = table.shape[i]? := by rw [hshape]
    simpa only [FunctionTable.shape, List.getElem?_map, List.getElem?_eq_getElem hi',
      List.getElem?_eq_getElem hi, Option.map_some, Option.some.injEq] using hget
  obtain ⟨hname, hlen⟩ := Prod.mk.inj hpair
  have hlook := FunctionTable.lookup_of_mem hnodup (List.getElem_mem hi)
  have hlook' : (finalizeTable K).lookup table[i].name = some (finalizeTable K)[i] := by
    rw [← hname]
    exact FunctionTable.lookup_of_mem (hnames' ▸ hnodup) (List.getElem_mem hi')
  refine entry_eq hT.typed (finalizeTable_typed K) hlook hlook' hlen ?_ ?_
  · intro j τ τ' hτ hτ'
    rcases paramType_finalizeTable K table[i].name j with ⟨h, -⟩ | h
    · rw [h] at hτ'
      cases hτ'
    · rw [h, hK.params] at hτ'
      obtain rfl := Option.some.inj hτ'
      split
      · rw [hτ, Option.getD_some]
      · rename_i hcalls
        exact hoff.params _ hcalls j τ hτ
  · intro ρ ρ' hρ hρ'
    rcases returnType_finalizeTable K table[i].name with ⟨h, -⟩ | h
    · rw [h] at hρ'
      cases hρ'
    · rw [h, hK.returns] at hρ'
      obtain rfl := Option.some.inj hρ'
      split
      · rw [hρ, Option.getD_some]
      · rename_i hrets
        exact hoff.returns _ hrets ρ hρ

/-! ## Acceptance -/

theorem Consistent.tableFor {program : Program} {table : FunctionTable}
    (h : Consistent program table) (hnodup : (program.functions.map (·.name)).Nodup)
    (hkeys : ∀ fn ∈ program.functions, fn.name ≠ defaultsKey) :
    TableFor program.functions table :=
  ⟨h.shape, hnodup, hkeys, h.paramTypes, h.returnType⟩

theorem Consistent.lowersUnder {program : Program} {table : FunctionTable}
    (h : Consistent program table) :
    ∀ fn ∈ program.functions, fn ∈ program.functions ∧ fn.LowersUnder table := by
  obtain ⟨unit, hunit⟩ := h.lowers
  obtain ⟨hfns, -⟩ := lowerProgram_lowers hunit
  intro fn hfn
  exact ⟨hfn, hfns.lowersUnder fn hfn⟩

theorem Accepts.consistent {program : Program} {table : FunctionTable}
    (h : Accepts program table) : Consistent program table :=
  have hT := analyzeProgram_tableFor h.1
  ⟨hT.shape, hT.paramTypes, hT.returnType, h.2⟩

/-- The table of an accepted program is read off its text. -/
theorem Accepts.readsOff {program : Program} {table : FunctionTable}
    (h : Accepts program table) : ReadsOff program table := by
  have hT := analyzeProgram_tableFor h.1
  have hanalyze := h.1
  unfold analyzeProgram at hanalyze
  obtain ⟨t₀, hdecl, hanalyze⟩ := except_bind_ok.mp hanalyze
  obtain ⟨⟨_, K⟩, hpasses, hanalyze⟩ := except_bind_ok.mp hanalyze
  have hfinal : finalizeTable K = table := Except.ok.inj hanalyze
  have hshape : t₀.shape = table.shape := by
    rw [← inferPasses_shape hpasses, ← finalizeTable_shape, hfinal]
  obtain ⟨hfirst, hsecond, hK⟩ := inferPasses_learns hT h.consistent.lowersUnder hpasses
    (knows_of_untyped hshape (declareFunctions_untyped hdecl nofun))
    (hfinal ▸ kept_finalizeTable K)
  refine ⟨hT.nodup, hT.keys, hfirst, hsecond, ?_, ?_⟩
  · intro name hname i type htype
    rw [← hfinal] at htype
    rcases paramType_finalizeTable K name i with ⟨hnone, -⟩ | hsome
    · rw [hnone] at htype
      cases htype
    · rw [hsome, hK.params, if_neg hname] at htype
      exact (Option.some.inj htype).symm
  · intro name hname type htype
    rw [← hfinal] at htype
    rcases returnType_finalizeTable K name with ⟨hnone, -⟩ | hsome
    · rw [hnone] at htype
      cases htype
    · rw [hsome, hK.returns, if_neg hname] at htype
      exact (Option.some.inj htype).symm

/-- A consistent table that is read off the text is the one inference ends with. -/
theorem Consistent.accepts {program : Program} {table : FunctionTable}
    (h : Consistent program table) (hoff : ReadsOff program table) : Accepts program table := by
  have hT := h.tableFor hoff.nodup hoff.keys
  have hfresh : ∀ fn ∈ program.functions, FunctionTable.lookup [] fn.name = none := fun _ _ => rfl
  obtain ⟨t₀, hdecl⟩ := exists_declareFunctions hoff.nodup hoff.keys hfresh
  have hshape : t₀.shape = table.shape := by
    rw [(declareFunctions_shape hdecl List.nodup_nil).1, h.shape]
    rfl
  have hK := knows_of_untyped hshape (declareFunctions_untyped hdecl nofun)
  have hkept : t₀.Kept table := by
    constructor
    · intro name i τ hτ
      rw [hK.params, if_neg List.not_mem_nil] at hτ
      cases hτ
    · intro name τ hτ
      rw [hK.returns, if_neg List.not_mem_nil] at hτ
      cases hτ
  obtain ⟨K, hpasses, hkept'⟩ :=
    inferPasses_accepts hT h.lowersUnder hoff.first hoff.second hK hkept
  obtain ⟨-, -, hK'⟩ := inferPasses_learns hT h.lowersUnder hpasses hK hkept'
  refine ⟨?_, h.lowers⟩
  rw [analyzeProgram]
  refine except_bind_ok.mpr ⟨t₀, hdecl, except_bind_ok.mpr ⟨((), K), hpasses, ?_⟩⟩
  exact congrArg Except.ok (finalizeTable_eq hT hoff hK')

/-- A program is accepted just when one of its consistent tables is read off its text. -/
theorem accepted_iff_reads_off (program : Program) :
    (∃ table, Accepts program table ∧ Consistent program table) ↔
      ∃ table, Consistent program table ∧ ReadsOff program table := by
  apply exists_congr
  intro table
  constructor
  · rintro ⟨haccepts, hconsistent⟩
    exact ⟨hconsistent, haccepts.readsOff⟩
  · rintro ⟨hconsistent, hoff⟩
    exact ⟨hconsistent.accepts hoff, hconsistent⟩

/-! A text that only the body of the program passes on is not read. -/

mutual
/-- The functions an expression calls, wherever the call stands. -/
def Expr.calls : Expr → List String
  | .array items => callsOf items
  | .unary _ e => e.calls
  | .binary _ l r => l.calls ++ r.calls
  | .call callee args =>
      (match callee with
        | .identifier name => [name]
        | callee => callee.calls) ++ callsOf args
  | _ => []

def callsOf : List Expr → List String
  | [] => []
  | e :: es => e.calls ++ callsOf es
end

mutual
def Stmt.calls : Stmt → List String
  | .define _ e | .assign _ e | .show e | .exprStmt e | .ret (some e) => e.calls
  | .ret none => []
  | .ifElse test thenBody elseBody => test.calls ++ stmtCalls thenBody ++ stmtCalls elseBody
  | .while test body => test.calls ++ stmtCalls body
  | .forEach _ iterable body => iterable.calls ++ stmtCalls body

def stmtCalls : List Stmt → List String
  | [] => []
  | s :: body => s.calls ++ stmtCalls body
end

/-- Every function is called, in a function or in the body of the program. -/
def Program.AllCalled (program : Program) : Prop :=
  ∀ fn ∈ program.functions,
    fn.name ∈ (program.functions.flatMap fun g => stmtCalls g.body) ++ stmtCalls program.body

def saudar : FunctionDecl :=
  { name := "saudar", params := ["nome"], body := [.show (.identifier "nome")] }

def saudarOi : Program :=
  { functions := [saudar], body := [.exprStmt (.call (.identifier "saudar") [.string "oi"])] }

theorem consistent_not_accepted :
    ¬ ∀ program : Program, (∃ table, Consistent program table) → program.AllCalled →
      ∃ table, Accepts program table ∧ Consistent program table := by
  intro h
  have hconsistent : Consistent saudarOi [⟨"saudar", [some .str], some .i64⟩] := by
    refine ⟨rfl, ?_, ?_, except_eq_ok_of_isSome (by decide +kernel)⟩
    · decide
    · decide
  have hcalled : saudarOi.AllCalled := by
    intro fn hfn
    rw [List.mem_singleton.mp hfn]
    decide
  obtain ⟨table, haccepts, -⟩ := h saudarOi ⟨_, hconsistent⟩ hcalled
  have hnot : (compileProgram saudarOi).toOption.isSome = false := by
    decide +kernel
  exact Bool.noConfusion (hnot.symm.trans ((exists_accepts_iff saudarOi).mp ⟨table, haccepts⟩))

end GatoCore.Native
