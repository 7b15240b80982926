import GatoCore.Native.IRTypes

/-!
# What inference sees

An entry of the function table without a type counts as a number while inference runs. The type
inference sees of an expression is thus a guess: it is that of the final table, or it is missing or
a number. Here one run of inference is set against a table that another run of it ended with: what
the run knows at any moment are guesses of that table as well.
-/

namespace GatoCore.Native

open GatoCore.Lib Relation

/-! ## Guesses -/

/-- The type seen is the type, unless it is missing or a number. -/
def Guesses (seen type : Option Ty) : Prop := ∀ τ, seen = some τ → τ ≠ .i64 → type = some τ

theorem Guesses.refl (type : Option Ty) : Guesses type type := fun _ h _ => h

theorem Guesses.of_none (type : Option Ty) : Guesses none type := nofun

theorem Guesses.of_i64 (type : Option Ty) : Guesses (some .i64) type :=
  fun _ h hne => absurd (Option.some.inj h).symm hne

theorem Guesses.default {seen type : Option Ty} (h : Guesses seen type) :
    Guesses (some (seen.getD .i64)) type := by
  cases seen with
  | none => exact .of_i64 type
  | some τ => exact h

/-- What guesses a missing type guesses every type. -/
theorem Guesses.of_guesses_none {seen : Option Ty} (h : Guesses seen none) (type : Option Ty) :
    Guesses seen type := fun τ hseen hne => nomatch h τ hseen hne

theorem Guesses.antisymm {a b : Ty} (h : Guesses (some a) (some b))
    (h' : Guesses (some b) (some a)) : a = b := by
  by_cases ha : a = .i64
  · by_cases hb : b = .i64
    · rw [ha, hb]
    · exact Option.some.inj (h' b rfl hb)
  · exact (Option.some.inj (h a rfl ha)).symm

/-- A type seen, next to the types under two tables: it guesses both, or they are the same. -/
def SeenAgrees (seen type₁ type₂ : Option Ty) : Prop :=
  (Guesses seen type₁ ∧ Guesses seen type₂) ∨ type₁ = type₂

theorem SeenAgrees.default {seen type₁ type₂ : Option Ty} (h : SeenAgrees seen type₁ type₂) :
    SeenAgrees (some (seen.getD .i64)) type₁ type₂ := by
  rcases h with ⟨h₁, h₂⟩ | h
  · exact .inl ⟨h₁.default, h₂.default⟩
  · exact .inr h

/-- A type seen that is no number is the same under both tables. -/
theorem SeenAgrees.eq_of_seen {type₁ type₂ : Option Ty} {τ : Ty}
    (h : SeenAgrees (some τ) type₁ type₂) (hne : τ ≠ .i64) : type₁ = type₂ := by
  rcases h with ⟨h₁, h₂⟩ | h
  · rw [h₁ τ rfl hne, h₂ τ rfl hne]
  · exact h

/-- The second table has the type seen where the first one has it. -/
theorem SeenAgrees.guesses {seen type₁ type₂ : Option Ty} (h : SeenAgrees seen type₁ type₂)
    (htype : seen = type₁) : Guesses seen type₂ := by
  rcases h with ⟨-, h⟩ | h
  · exact h
  · rw [htype, h]
    exact .refl type₂

/-- The same for a name, which both tables may have no type for. -/
def NameAgrees (seen : Option Ty) (type₁ type₂ : Option (Option Ty)) : Prop :=
  (Guesses seen type₁.join ∧ Guesses seen type₂.join) ∨
    ∃ type, type₁ = some type ∧ type₂ = some type

theorem NameAgrees.agrees {seen : Option Ty} {type₁ type₂ : Option (Option Ty)}
    (h : NameAgrees seen type₁ type₂) : SeenAgrees seen type₁.join type₂.join := by
  rcases h with h | ⟨type, h₁, h₂⟩
  · exact .inl h
  · rw [h₁, h₂]
    exact .inr rfl

theorem SeenAgrees.name {seen type₁ type₂ : Option Ty} (h : SeenAgrees seen type₁ type₂) :
    NameAgrees seen (some type₁) (some type₂) := by
  rcases h with h | h
  · exact .inl h
  · exact .inr ⟨type₁, rfl, congrArg some h.symm⟩

/-- Names that get a type later still agree. -/
theorem NameAgrees.mono {seen : Option Ty} {type₁ type₂ type₁' type₂' : Option (Option Ty)}
    (h : NameAgrees seen type₁ type₂) (h₁ : ∀ type, type₁ = some type → type₁' = some type)
    (h₂ : ∀ type, type₂ = some type → type₂' = some type) : NameAgrees seen type₁' type₂' := by
  have hguess : ∀ {type type' : Option (Option Ty)}, (∀ t, type = some t → type' = some t) →
      Guesses seen type.join → Guesses seen type'.join := by
    intro type type' hmono hseen
    cases type with
    | none => exact hseen.of_guesses_none _
    | some t =>
        rw [hmono t rfl]
        exact hseen
  rcases h with ⟨hg₁, hg₂⟩ | ⟨type, ht₁, ht₂⟩
  · exact .inl ⟨hguess h₁ hg₁, hguess h₂ hg₂⟩
  · exact .inr ⟨type, h₁ type ht₁, h₂ type ht₂⟩

/-! ## Tables -/

namespace FunctionTable

theorem lookup_modify (table : FunctionTable) (name other : String) {f : FnMeta → FnMeta}
    (hf : ∀ m, (f m).name = m.name) : (table.modify name f).lookup other =
      (table.lookup other).map fun m => if m.name = name then f m else m := by
  have hname : ∀ m : FnMeta, (if m.name = name then f m else m).name = m.name := by
    intro m
    split
    · exact hf m
    · rfl
  rw [lookup, modify, List.find?_map, lookup]
  congr 2
  funext m
  rw [Function.comp_apply, hname]

theorem lookup_setParamType (table : FunctionTable) (name : String) (i : ℕ) (type : Option Ty)
    (other : String) : (table.setParamType name i type).lookup other =
      (table.lookup other).map fun m =>
        if m.name = name then { m with paramTypes := m.paramTypes.set i type } else m := by
  apply lookup_modify
  intro m
  rfl

theorem lookup_setReturnType (table : FunctionTable) (name : String) (type : Option Ty)
    (other : String) : (table.setReturnType name type).lookup other =
      (table.lookup other).map fun m =>
        if m.name = name then { m with returnType := type } else m := by
  apply lookup_modify
  intro m
  rfl

theorem paramType_setParamType (table : FunctionTable) (name : String) (i : ℕ) (type : Option Ty)
    (other : String) (j : ℕ) :
    (table.setParamType name i type).paramType other j = table.paramType other j ∨
      other = name ∧ j = i ∧ (table.setParamType name i type).paramType other j = type := by
  rw [paramType, paramType, lookup_setParamType]
  cases hlook : table.lookup other with
  | none => exact .inl rfl
  | some m =>
      have hm : m.name = other := by simpa using List.find?_some hlook
      by_cases hname : m.name = name
      · by_cases hj : j = i ∧ j < m.paramTypes.length
        · obtain ⟨rfl, hlt⟩ := hj
          refine .inr ⟨hm.symm.trans hname, rfl, ?_⟩
          simp [hname, hlt]
        · refine .inl ?_
          have hget : (m.paramTypes.set i type)[j]? = m.paramTypes[j]? := by
            by_cases hi : i = j
            · have hlt : ¬ j < m.paramTypes.length := fun hlt => hj ⟨hi.symm, hlt⟩
              rw [List.getElem?_eq_none (by simpa using hlt),
                List.getElem?_eq_none (by simpa using hlt)]
            · rw [List.getElem?_set_ne hi]
          simp [hname, hget]
      · exact .inl (by simp [hname])

theorem returnType_setParamType (table : FunctionTable) (name : String) (i : ℕ)
    (type : Option Ty) (other : String) :
    (table.setParamType name i type).returnType other = table.returnType other := by
  rw [returnType, returnType, lookup_setParamType]
  cases table.lookup other with
  | none => rfl
  | some m =>
      rw [Option.map_some, Option.bind_some, Option.bind_some]
      split <;> rfl

theorem returnType_setReturnType (table : FunctionTable) (name : String) (type : Option Ty)
    (other : String) :
    (table.setReturnType name type).returnType other = table.returnType other ∨
      other = name ∧ (table.setReturnType name type).returnType other = type := by
  rw [returnType, returnType, lookup_setReturnType]
  cases hlook : table.lookup other with
  | none => exact .inl rfl
  | some m =>
      have hm : m.name = other := by simpa using List.find?_some hlook
      by_cases hname : m.name = name
      · exact .inr ⟨hm.symm.trans hname, by simp [hname]⟩
      · exact .inl (by simp [hname])

theorem paramType_setReturnType (table : FunctionTable) (name : String) (type : Option Ty)
    (other : String) (j : ℕ) :
    (table.setReturnType name type).paramType other j = table.paramType other j := by
  rw [paramType, paramType, lookup_setReturnType]
  cases table.lookup other with
  | none => rfl
  | some m =>
      rw [Option.map_some, Option.bind_some, Option.bind_some]
      split <;> rfl

/-- The types known are guesses of those of the table. -/
structure Guesses (known table : FunctionTable) : Prop where
  params : ∀ name i, Native.Guesses (known.paramType name i) (table.paramType name i)
  returns : ∀ name, Native.Guesses (known.returnType name) (table.returnType name)

/-- The types known are those of the table. -/
structure Kept (known table : FunctionTable) : Prop where
  params : ∀ name i τ, known.paramType name i = some τ → table.paramType name i = some τ
  returns : ∀ name τ, known.returnType name = some τ → table.returnType name = some τ

theorem Kept.refl (table : FunctionTable) : table.Kept table := ⟨fun _ _ _ => id, fun _ _ => id⟩

theorem Kept.trans {a b c : FunctionTable} (h : a.Kept b) (h' : b.Kept c) : a.Kept c :=
  ⟨fun name i τ hτ => h'.params name i τ (h.params name i τ hτ),
    fun name τ hτ => h'.returns name τ (h.returns name τ hτ)⟩

end FunctionTable

theorem mergeType_eq {current merged : Option Ty} {type : Ty}
    (h : mergeType current (some type) = some merged) : merged = some type := by
  cases current with
  | none => exact (Option.some.inj h).symm
  | some t =>
      rw [mergeType] at h
      split at h
      · rename_i heq
        rw [← Option.some.inj h, heq]
      · cases h

/-- A type that is known does not change when another is merged into it. -/
theorem mergeType_some {current merged : Option Ty} {type τ : Ty}
    (h : mergeType current (some type) = some merged) (hcurrent : current = some τ) :
    merged = some τ := by
  rw [hcurrent, mergeType] at h
  split at h
  · exact (Option.some.inj h).symm
  · cases h

theorem Commit.kept {calls rets : List String} {t t' : FunctionTable}
    (h : Commit calls rets t t') : t.Kept t' := by
  cases h with
  | @param name i type merged _ hmerge =>
      constructor
      · intro other j τ hτ
        rcases t.paramType_setParamType name i merged other j with hget | ⟨rfl, rfl, hget⟩
        · rw [hget, hτ]
        · rw [hget, mergeType_some hmerge hτ]
      · intro other τ hτ
        rw [FunctionTable.returnType_setParamType, hτ]
  | @ret name type merged _ hmerge =>
      constructor
      · intro other j τ hτ
        rw [FunctionTable.paramType_setReturnType, hτ]
      · intro other τ hτ
        rcases t.returnType_setReturnType name merged other with hget | ⟨rfl, hget⟩
        · rw [hget, hτ]
        · rw [hget, mergeType_some hmerge hτ]

theorem Commits.kept {calls rets : List String} {t t' : FunctionTable}
    (h : Commits calls rets t t') : t.Kept t' := by
  induction h with
  | refl => exact .refl t
  | tail _ hcommit ih => exact ih.trans hcommit.kept

/-! ## Scopes -/

/-- The names inference has types for, next to the scopes of two lowerings of the same text. -/
structure ScopesAgree (env : TypeEnv) (s₁ s₂ : Scope) : Prop where
  names : ∀ x, NameAgrees (env x) (s₁.types x) (s₂.types x)
  labels : s₁.labels = s₂.labels

/-- A local that is there or made has its type, and no other name changes. -/
theorem EnsuresLocal.declares {ctx ctx' : LoweringContext} {name : String} {type : Option Ty}
    {loc : Local} (h : EnsuresLocal ctx name type loc ctx') :
    ctx'.scope.types name = some type ∧
      (∀ x t, ctx.scope.types x = some t → ctx'.scope.types x = some t) ∧
      ctx'.scope.labels = ctx.scope.labels := by
  cases h with
  | existing hloc htype =>
      refine ⟨?_, fun _ _ => id, rfl⟩
      show (ctx.locals name).map (·.type) = some type
      rw [hloc, ← htype]
      rfl
  | fresh hloc =>
      rw [scope_withLocal]
      refine ⟨Function.update_self _ _ _, ?_, rfl⟩
      intro x t hx
      have hne : x ≠ name := by
        rintro rfl
        change (ctx.locals x).map (·.type) = some t at hx
        rw [hloc] at hx
        cases hx
      rw [← hx]
      exact Function.update_of_ne hne _ _

theorem Scope.types_hide (scope : Scope) (iterable : Option Ty) (x : String) :
    (scope.hide iterable).types x = if x = iterName scope.labels then some (some .i64)
      else if x = eachName scope.labels then some iterable else scope.types x := by
  simp only [Scope.hide, Function.update_apply]

namespace ScopesAgree

variable {env : TypeEnv} {s₁ s₂ s₁' s₂' : Scope}

theorem grow (h : ScopesAgree env s₁ s₂)
    (h₁ : ∀ x t, s₁.types x = some t → s₁'.types x = some t)
    (h₂ : ∀ x t, s₂.types x = some t → s₂'.types x = some t) (hlabels : s₁'.labels = s₂'.labels) :
    ScopesAgree env s₁' s₂' :=
  ⟨fun x => (h.names x).mono (h₁ x) (h₂ x), hlabels⟩

theorem update (h : ScopesAgree env s₁ s₂) {name : String} {seen type₁ type₂ : Option Ty}
    (hseen : SeenAgrees seen type₁ type₂) (h₁ : s₁.types name = some type₁)
    (h₂ : s₂.types name = some type₂) : ScopesAgree (Function.update env name seen) s₁ s₂ := by
  refine ⟨?_, h.labels⟩
  intro x
  by_cases hx : x = name
  · subst hx
    rw [Function.update_self, h₁, h₂]
    exact hseen.name
  · rw [Function.update_of_ne hx]
    exact h.names x

theorem addLabels (h : ScopesAgree env s₁ s₂) : ScopesAgree env s₁.addLabels s₂.addLabels :=
  ⟨h.names, congrArg (· + 3) h.labels⟩

/-- The hidden locals of a loop over values of one type. -/
theorem hide (h : ScopesAgree env s₁ s₂) (type : Option Ty) :
    ScopesAgree env (s₁.hide type) (s₂.hide type) := by
  refine ⟨?_, congrArg (· + 3) h.labels⟩
  intro x
  rw [Scope.types_hide, Scope.types_hide, h.labels]
  split
  · exact .inr ⟨_, rfl, rfl⟩
  · split
    · exact .inr ⟨_, rfl, rfl⟩
    · exact h.names x

end ScopesAgree

/-! ## Expressions -/

theorem Commits.eq_of_nil {t t' : FunctionTable} (h : Commits [] [] t t') : t' = t := by
  induction h with
  | refl => rfl
  | tail _ hcommit _ => cases hcommit <;> contradiction

mutual
theorem inferredCalls_of_const : ∀ {e : Expr} {consts consts' : ConstTables} {c : ConstValue},
    buildConstValue consts e = .ok (c, consts') → e.inferredCalls = []
  | .number _, _, _, _, _ | .string _, _, _, _, _ | .bool _, _, _, _, _ | .null, _, _, _, _ => rfl
  | .array items, _, _, _, h => by
      obtain ⟨values, itemType, consts₁, hitems, -, -⟩ := buildConstValue_array h
      rw [Expr.inferredCalls]
      exact inferredCallsOf_of_const hitems
  | .identifier _, _, _, _, h | .unary _ _, _, _, _, h | .binary _ _ _, _, _, _, h
  | .call _ _, _, _, _, h => by cases h

theorem inferredCallsOf_of_const :
    ∀ {items : List Expr} {consts consts' : ConstTables} {itemType itemType' : Option Ty}
      {values : List ConstValue},
      buildConstItems consts itemType items = .ok (values, itemType', consts') →
      inferredCallsOf items = []
  | [], _, _, _, _, _, _ => rfl
  | item :: items, _, _, _, _, _, h => by
      obtain ⟨c, consts₁, cs, hc, -, hcs, -⟩ := buildConstItems_cons h
      rw [inferredCallsOf, inferredCalls_of_const hc, inferredCallsOf_of_const hcs]
      rfl
end

/-- A list is a constant. -/
theorem ExprLowers.const_of_array {table : FunctionTable} {ctx ctx' : LoweringContext}
    {items : List Expr} {v : Operand} (h : ExprLowers table ctx (.array items) v ctx') :
    ∃ c consts, buildConstValue ctx.consts (.array items) = .ok (c, consts) ∧
      v.type = some c.type := by
  cases h with
  | literal hc => exact ⟨_, _, hc, rfl⟩

theorem ExprLowers.operands {table : FunctionTable} {ctx ctx' : LoweringContext} {op : BinaryOp}
    {l r : Expr} {v : Operand} (h : ExprLowers table ctx (.binary op l r) v ctx') :
    ∃ a b ctx₁ ctx₂, ExprLowers table ctx l a ctx₁ ∧ ExprLowers table ctx₁ r b ctx₂ := by
  cases h with
  | literal hc => cases hc
  | compare hl hr _ _ => exact ⟨_, _, _, _, hl, hr⟩
  | logical hl hr _ _ _ _ => exact ⟨_, _, _, _, hl, hr⟩
  | arith hl hr _ _ _ _ => exact ⟨_, _, _, _, hl, hr⟩

/-- The parameter types of a function from parameter `i` on. -/
structure ParamsFrom (table : FunctionTable) (name : String) (i : ℕ) (types : List (Option Ty)) :
    Prop where
  get : ∀ k, types[k]?.join = table.paramType name (i + k)
  known : ∀ type ∈ types, type.isSome

theorem ParamsFrom.of_lookup {table : FunctionTable} (htable : TableTyped table) {name : String}
    {entry : FnMeta} (h : table.lookup name = some entry) :
    ParamsFrom table name 0 entry.paramTypes := by
  refine ⟨?_, htable.paramTypes name entry h⟩
  intro k
  rw [FunctionTable.paramType, h, Nat.zero_add]
  rfl

theorem ParamsFrom.tail {table : FunctionTable} {name : String} {i : ℕ} {type : Option Ty}
    {types : List (Option Ty)} (h : ParamsFrom table name i (type :: types)) :
    ParamsFrom table name (i + 1) types := by
  refine ⟨?_, fun t ht => h.known t (List.mem_cons_of_mem _ ht)⟩
  intro k
  rw [Nat.add_right_comm i 1 k]
  exact h.get (k + 1)

/-- An argument that is lowered has the type of its parameter. -/
theorem ParamsFrom.head {table : FunctionTable} {name : String} {i : ℕ} {type : Option Ty}
    {types : List (Option Ty)} (h : ParamsFrom table name i (type :: types)) {v : Operand}
    (hv : (type :: types).head?.join = none ∨ (type :: types).head?.join = v.type) :
    table.paramType name i = v.type := by
  have hget : type = table.paramType name i := h.get 0
  obtain ⟨τ, rfl⟩ := Option.isSome_iff_exists.mp (h.known type List.mem_cons_self)
  rcases hv with hv | hv
  · cases hv
  · rw [← hget]
    exact hv

/-- A type for a parameter that the other table has as well, if it is committed at all. -/
theorem FunctionTable.Guesses.setParamType {K T₂ : FunctionTable} {name : String} {i : ℕ}
    {type : Ty} (hK : K.Guesses T₂)
    (h : (K.setParamType name i (some type)).paramType name i = some type →
      Native.Guesses (some type) (T₂.paramType name i)) :
    (K.setParamType name i (some type)).Guesses T₂ := by
  constructor
  · intro other j
    rcases K.paramType_setParamType name i (some type) other j with hget | ⟨rfl, rfl, hget⟩
    · rw [hget]
      exact hK.params other j
    · rw [hget]
      exact h hget
  · intro other
    rw [FunctionTable.returnType_setParamType]
    exact hK.returns other

theorem FunctionTable.Guesses.setReturnType {K T₂ : FunctionTable} {name : String} {type : Ty}
    (hK : K.Guesses T₂) (h : (K.setReturnType name (some type)).returnType name = some type →
      Native.Guesses (some type) (T₂.returnType name)) :
    (K.setReturnType name (some type)).Guesses T₂ := by
  constructor
  · intro other j
    rw [FunctionTable.paramType_setReturnType]
    exact hK.params other j
  · intro other
    rcases K.returnType_setReturnType name (some type) other with hget | ⟨rfl, hget⟩
    · rw [hget]
      exact hK.returns other
    · rw [hget]
      exact h hget

section Runs

variable {T₁ T₂ : FunctionTable} {env : TypeEnv}

mutual
theorem inferExpressionType_agrees (hT₁ : TableTyped T₁) (hT₂ : TableTyped T₂) :
    ∀ {e : Expr} {ctx₁ c₁ ctx₂ c₂ : LoweringContext} {v₁ v₂ : Operand} {K K' : FunctionTable}
      {type : Option Ty}, ExprLowers T₁ ctx₁ e v₁ c₁ → ExprLowers T₂ ctx₂ e v₂ c₂ →
      ScopesAgree env ctx₁.scope ctx₂.scope →
      (inferExpressionType env e).run K = .ok (type, K') → K.Guesses T₂ → K'.Kept T₁ →
      SeenAgrees type v₁.type v₂.type ∧ K'.Guesses T₂
  | .number _, _, _, _, _, v₁, v₂, K, K', _, _, _, _, h, hK, _ => by
      simp only [inferExpressionType, run_pure_ok, Prod.mk.injEq] at h
      obtain ⟨rfl, rfl⟩ := h
      exact ⟨.inl ⟨.of_i64 _, .of_i64 _⟩, hK⟩
  | .string _, _, _, _, _, _, _, _, _, _, h₁, h₂, _, h, hK, _
  | .bool _, _, _, _, _, _, _, _, _, _, h₁, h₂, _, h, hK, _
  | .null, _, _, _, _, _, _, _, _, _, h₁, h₂, _, h, hK, _
  | .unary .neg _, _, _, _, _, _, _, _, _, _, h₁, h₂, _, h, hK, _
  | .unary .not _, _, _, _, _, _, _, _, _, _, h₁, h₂, _, h, hK, _
  | .unary .tamanhoDe _, _, _, _, _, _, _, _, _, _, h₁, h₂, _, h, hK, _
  | .unary .tipoDe _, _, _, _, _, _, _, _, _, _, h₁, h₂, _, h, hK, _
  | .unary .identificar _, _, _, _, _, _, _, _, _, _, h₁, h₂, _, h, hK, _ => by
      simp only [inferExpressionType, run_pure_ok, Prod.mk.injEq] at h
      obtain ⟨-, rfl⟩ := h
      rw [h₁.staticType, h₂.staticType]
      exact ⟨.inr rfl, hK⟩
  | .array items, _, _, _, _, _, _, _, _, _, h₁, h₂, _, h, hK, _ => by
      obtain ⟨a, _, ha, hv₁⟩ := h₁.const_of_array
      obtain ⟨b, _, hb, hv₂⟩ := h₂.const_of_array
      have hcommits := inferExpressionType_commits h
      rw [inferredCalls_of_const ha] at hcommits
      obtain rfl := hcommits.eq_of_nil
      have htype : ∀ {consts consts' : ConstTables} {c : ConstValue},
          buildConstValue consts (.array items) = .ok (c, consts') →
            (Expr.array items).staticType T₁ (fun _ => none) = some c.type := buildConstValue_type
      rw [hv₁, hv₂, ← htype ha, ← htype hb]
      exact ⟨.inr rfl, hK⟩
  | .identifier name, _, _, _, _, _, _, _, _, _, h₁, h₂, hscopes, h, hK, _ => by
      simp only [inferExpressionType, run_pure_ok, Prod.mk.injEq] at h
      obtain ⟨rfl, rfl⟩ := h
      rw [h₁.staticType, h₂.staticType]
      exact ⟨(hscopes.names name).agrees, hK⟩
  | .unary .observar e, _, _, _, _, _, _, _, _, _, h₁, h₂, hscopes, h, hK, hkept => by
      rw [inferExpressionType] at h
      obtain ⟨seen, K₁, he, h⟩ := run_bind_ok.mp h
      simp only [run_pure_ok, Prod.mk.injEq] at h
      obtain ⟨rfl, rfl⟩ := h
      cases h₁ with
      | literal hc => cases hc
      | observar he₁ =>
          cases h₂ with
          | literal hc => cases hc
          | observar he₂ =>
              obtain ⟨hagrees, hK₁⟩ :=
                inferExpressionType_agrees hT₁ hT₂ he₁ he₂ hscopes he hK hkept
              exact ⟨hagrees.default, hK₁⟩
  | .binary op l r, _, _, _, _, _, _, _, K', _, h₁, h₂, hscopes, h, hK, hkept => by
      obtain ⟨_, _, K₁, hl, hr, -, rfl⟩ := inferExpressionType_binary_run h
      obtain ⟨a₁, b₁, m₁, n₁, hl₁, hr₁⟩ := h₁.operands
      obtain ⟨a₂, b₂, m₂, n₂, hl₂, hr₂⟩ := h₂.operands
      have hkept₁ := (inferExpressionType_commits hr).kept.trans hkept
      obtain ⟨-, hK₁⟩ := inferExpressionType_agrees hT₁ hT₂ hl₁ hl₂ hscopes hl hK hkept₁
      have hscopes' : ScopesAgree env m₁.scope m₂.scope := by
        rw [hl₁.scope, hl₂.scope]
        exact hscopes
      obtain ⟨-, hK'⟩ := inferExpressionType_agrees hT₁ hT₂ hr₁ hr₂ hscopes' hr hK₁ hkept
      rw [h₁.staticType, h₂.staticType]
      exact ⟨.inr rfl, hK'⟩
  | .call callee args, _, _, _, _, _, _, _, K', _, h₁, h₂, hscopes, h, hK, hkept => by
      cases h₁ with
      | literal hc => cases hc
      | @call _ _ name entry₁ _ _ _ hlook₁ hlen₁ hargs₁ =>
          cases h₂ with
          | literal hc => cases hc
          | @call _ _ _ entry₂ _ _ _ hlook₂ hlen₂ hargs₂ =>
              obtain ⟨_, hname, hargs, rfl⟩ := inferExpressionType_call_run h
              cases hname
              have hK' := inferArgs_agrees hT₁ hT₂ hargs₁ hargs₂ (.of_lookup hT₁ hlook₁)
                (.of_lookup hT₂ hlook₂) hlen₁ hlen₂ hscopes hargs hK hkept
              have hreturn₁ : T₁.returnType name = entry₁.returnType := by
                rw [FunctionTable.returnType, hlook₁]
                rfl
              have hreturn₂ : T₂.returnType name = entry₂.returnType := by
                rw [FunctionTable.returnType, hlook₂]
                rfl
              have hseen₁ : Guesses (K'.returnType name) entry₁.returnType := by
                intro τ hτ _
                rw [← hreturn₁, hkept.returns name τ hτ]
              refine ⟨.inl ⟨hseen₁.default, ?_⟩, hK'⟩
              rw [← hreturn₂]
              exact (hK'.returns name).default

theorem inferArgs_agrees (hT₁ : TableTyped T₁) (hT₂ : TableTyped T₂) {name : String} :
    ∀ {args : List Expr} {types₁ types₂ : List (Option Ty)} {i : ℕ}
      {ctx₁ c₁ ctx₂ c₂ : LoweringContext} {vs₁ vs₂ : List Operand} {K K' : FunctionTable}
      {u : Unit}, ArgsLower T₁ ctx₁ types₁ args vs₁ c₁ → ArgsLower T₂ ctx₂ types₂ args vs₂ c₂ →
      ParamsFrom T₁ name i types₁ → ParamsFrom T₂ name i types₂ → args.length = types₁.length →
      args.length = types₂.length → ScopesAgree env ctx₁.scope ctx₂.scope →
      (inferArgs env name i args).run K = .ok (u, K') → K.Guesses T₂ → K'.Kept T₁ →
      K'.Guesses T₂
  | [], _, _, _, _, _, _, _, _, _, _, _, _, _, _, _, _, _, _, _, h, hK, _ => by
      simp only [inferArgs, run_pure_ok, Prod.mk.injEq] at h
      obtain ⟨-, rfl⟩ := h
      exact hK
  | arg :: args, [], _, _, _, _, _, _, _, _, _, _, _, _, _, _, _, hlen, _, _, _, _, _ => by
      cases hlen
  | arg :: args, _, [], _, _, _, _, _, _, _, _, _, _, _, _, _, _, _, hlen, _, _, _, _ => by
      cases hlen
  | arg :: args, t₁ :: types₁, t₂ :: types₂, i, _, _, _, _, _, _, K, K', _, h₁, h₂, hp₁, hp₂,
    hlen₁, hlen₂, hscopes, h, hK, hkept => by
      obtain ⟨seen, K₁, merged, harg, hmerge, h⟩ := inferArgs_cons_run h
      cases h₁ with
      | @cons _ m₁ _ _ _ _ v₁ _ hv₁ hty₁ hrest₁ =>
          cases h₂ with
          | @cons _ m₂ _ _ _ _ v₂ _ hv₂ hty₂ hrest₂ =>
              -- the parameter keeps the type that is merged into it now
              have hcommit : Commit [name] [] K₁ (K₁.setParamType name i merged) :=
                .param List.mem_cons_self hmerge
              have hkept₂ := (inferArgs_commits h).kept.trans hkept
              obtain rfl := mergeType_eq hmerge
              obtain ⟨hagrees, hK₁⟩ := inferExpressionType_agrees hT₁ hT₂ hv₁ hv₂ hscopes harg hK
                (hcommit.kept.trans hkept₂)
              have hK₂ : (K₁.setParamType name i
                  (some (seen.getD defaultParamType))).Guesses T₂ := by
                refine hK₁.setParamType fun hget => ?_
                rw [hp₂.head hty₂]
                refine hagrees.default.guesses ?_
                rw [← hp₁.head hty₁, hkept₂.params name i _ hget]
                rfl
              have hscopes' : ScopesAgree env m₁.scope m₂.scope := by
                rw [hv₁.scope, hv₂.scope]
                exact hscopes
              exact inferArgs_agrees hT₁ hT₂ hrest₁ hrest₂ hp₁.tail hp₂.tail (Nat.succ.inj hlen₁)
                (Nat.succ.inj hlen₂) hscopes' h hK₂ hkept
end

/-! ## Statements -/

/-- What is known after a return. -/
theorem mergeReturn_guesses {metaName : String} {type : Ty} {K K' : FunctionTable} {b : Bool}
    (h : (mergeReturn metaName type).run K = .ok (b, K')) (hK : K.Guesses T₂) (hkept : K'.Kept T₁)
    (hguess : T₁.returnType metaName = some type →
      Guesses (some type) (T₂.returnType metaName)) : K'.Guesses T₂ := by
  simp only [mergeReturn, run_bind_ok, run_get_ok, Prod.mk.injEq] at h
  obtain ⟨_, _, ⟨rfl, rfl⟩, h⟩ := h
  split at h
  · exact (run_throw_ok.mp h).elim
  · rename_i merged hmerge
    obtain rfl := mergeType_eq hmerge
    split at h
    · simp only [run_bind_ok, run_modify_ok, run_pure_ok, Prod.mk.injEq] at h
      obtain ⟨_, _, ⟨_, rfl⟩, _, rfl⟩ := h
      exact hK.setReturnType fun hget => hguess (hkept.returns metaName _ hget)
    · simp only [run_pure_ok, Prod.mk.injEq] at h
      obtain ⟨-, rfl⟩ := h
      exact hK

/-- After a statement: what is known are still guesses, the names still agree, and so do those of
every outer scope. -/
structure GuessesAfter (T₂ K' : FunctionTable) (env' : TypeEnv) (start₁ start₂ end₁ end₂ : Scope) :
    Prop where
  table : K'.Guesses T₂
  names : ScopesAgree env' end₁ end₂
  outer : ∀ env, ScopesAgree env start₁ start₂ → ScopesAgree env end₁ end₂

theorem GuessesAfter.of_scopes {K' : FunctionTable} {s₁ s₂ s₁' s₂' : Scope} (hK : K'.Guesses T₂)
    (h : ScopesAgree env s₁ s₂) (h₁ : s₁' = s₁) (h₂ : s₂' = s₂) :
    GuessesAfter T₂ K' env s₁ s₂ s₁' s₂' := by
  rw [h₁, h₂]
  exact ⟨hK, h, fun _ => id⟩

/-- A name gets a type. -/
theorem GuessesAfter.declare {K' : FunctionTable} {ctx₁ ctx₂ m₁ m₂ : LoweringContext}
    {name : String} {seen type₁ type₂ : Option Ty} {loc₁ loc₂ : Local} (hK : K'.Guesses T₂)
    (h : ScopesAgree env ctx₁.scope ctx₂.scope) (hseen : SeenAgrees seen type₁ type₂)
    (h₁ : EnsuresLocal ctx₁ name type₁ loc₁ m₁) (h₂ : EnsuresLocal ctx₂ name type₂ loc₂ m₂) :
    GuessesAfter T₂ K' (Function.update env name seen) ctx₁.scope ctx₂.scope m₁.scope m₂.scope := by
  obtain ⟨hself₁, hmono₁, hlabels₁⟩ := h₁.declares
  obtain ⟨hself₂, hmono₂, hlabels₂⟩ := h₂.declares
  have houter : ∀ env, ScopesAgree env ctx₁.scope ctx₂.scope →
      ScopesAgree env m₁.scope m₂.scope := by
    intro env henv
    exact henv.grow hmono₁ hmono₂ (by rw [hlabels₁, hlabels₂, henv.labels])
  exact ⟨hK, (houter env h).update hseen hself₁ hself₂, houter⟩

/-- Inference keeps its guesses over a statement that is accepted under both tables. -/
def StmtGuesses (T₁ T₂ : FunctionTable) (metaName : String) (s : Stmt) : Prop :=
  ∀ ⦃env : TypeEnv⦄ ⦃ctx₁ c₁ ctx₂ c₂ : LoweringContext⦄ ⦃K K' : FunctionTable⦄ ⦃r : TypeEnv × Bool⦄,
    StmtLowers T₁ ctx₁ s c₁ → StmtLowers T₂ ctx₂ s c₂ →
    ctx₁.returnType = T₁.returnType metaName → ctx₂.returnType = T₂.returnType metaName →
    ScopesAgree env ctx₁.scope ctx₂.scope → (inferStatement metaName env s).run K = .ok (r, K') →
    K.Guesses T₂ → K'.Kept T₁ → GuessesAfter T₂ K' r.1 ctx₁.scope ctx₂.scope c₁.scope c₂.scope

def BodyGuesses (T₁ T₂ : FunctionTable) (metaName : String) (body : List Stmt) : Prop :=
  ∀ ⦃env : TypeEnv⦄ ⦃ctx₁ c₁ ctx₂ c₂ : LoweringContext⦄ ⦃K K' : FunctionTable⦄ ⦃r : TypeEnv × Bool⦄,
    StmtsLower T₁ ctx₁ body c₁ → StmtsLower T₂ ctx₂ body c₂ →
    ctx₁.returnType = T₁.returnType metaName → ctx₂.returnType = T₂.returnType metaName →
    ScopesAgree env ctx₁.scope ctx₂.scope →
    (inferStatements metaName env body).run K = .ok (r, K') → K.Guesses T₂ → K'.Kept T₁ →
    GuessesAfter T₂ K' r.1 ctx₁.scope ctx₂.scope c₁.scope c₂.scope

section Statements

variable (hT₁ : TableTyped T₁) (hT₂ : TableTyped T₂) {metaName : String}
include hT₁ hT₂

theorem StmtGuesses.define {name : String} {e : Expr} :
    StmtGuesses T₁ T₂ metaName (.define name e) := by
  intro env _ _ _ _ _ _ _ h₁ h₂ _ _ hscopes h hK hkept
  rw [inferStatement] at h
  obtain ⟨seen, K₁, he, h⟩ := run_bind_ok.mp h
  simp only [run_pure_ok, Prod.mk.injEq] at h
  obtain ⟨rfl, rfl⟩ := h
  cases h₁ with
  | define he₁ hloc₁ =>
      cases h₂ with
      | define he₂ hloc₂ =>
          obtain ⟨hagrees, hK₁⟩ :=
            inferExpressionType_agrees hT₁ hT₂ he₁ he₂ hscopes he hK hkept
          rw [← he₁.scope, ← he₂.scope] at hscopes ⊢
          rw [scope_withInstr, scope_withInstr]
          exact .declare hK₁ hscopes hagrees.default hloc₁ hloc₂

theorem StmtGuesses.assign {name : String} {e : Expr} :
    StmtGuesses T₁ T₂ metaName (.assign name e) := by
  intro env _ _ _ _ _ _ _ h₁ h₂ _ _ hscopes h hK hkept
  rw [inferStatement] at h
  obtain ⟨seen, K₁, he, h⟩ := run_bind_ok.mp h
  cases h₁ with
  | @assign _ m₁ _ _ v₁ loc₁ hloc₁ he₁ hty₁ =>
      cases h₂ with
      | @assign _ m₂ _ _ v₂ loc₂ hloc₂ he₂ hty₂ =>
          have htype : ∀ {ctx : LoweringContext} {loc : Local}, ctx.locals name = some loc →
              ctx.scope.types name = some loc.type := by
            intro ctx loc hloc
            show (ctx.locals name).map (·.type) = some loc.type
            rw [hloc]
            rfl
          dsimp only at h
          cases henv : env name with
          | none =>
              rw [henv] at h
              simp only [run_pure_ok, Prod.mk.injEq] at h
              obtain ⟨rfl, rfl⟩ := h
              obtain ⟨hagrees, hK₁⟩ :=
                inferExpressionType_agrees hT₁ hT₂ he₁ he₂ hscopes he hK hkept
              have hnames := hagrees.default
              rw [← hty₁, ← hty₂] at hnames
              rw [Option.or_none]
              refine ⟨hK₁, ?_, ?_⟩
              · rw [scope_withInstr, scope_withInstr, he₁.scope, he₂.scope]
                exact hscopes.update hnames (htype hloc₁) (htype hloc₂)
              · intro env' henv'
                rw [scope_withInstr, scope_withInstr, he₁.scope, he₂.scope]
                exact henv'
          | some old =>
              rw [henv] at h
              dsimp only at h
              split at h
              · exact (run_throw_bind_ok.mp h).elim
              · simp only [run_pure_ok, Prod.mk.injEq] at h
                obtain ⟨rfl, rfl⟩ := h
                obtain ⟨-, hK₁⟩ :=
                  inferExpressionType_agrees hT₁ hT₂ he₁ he₂ hscopes he hK hkept
                exact .of_scopes hK₁ hscopes he₁.scope he₂.scope

theorem StmtGuesses.«show» {e : Expr} : StmtGuesses T₁ T₂ metaName (.show e) := by
  intro _ _ _ _ _ _ _ _ h₁ h₂ _ _ hscopes h hK hkept
  rw [inferStatement] at h
  obtain ⟨_, K₁, he, h⟩ := run_bind_ok.mp h
  simp only [run_pure_ok, Prod.mk.injEq] at h
  obtain ⟨rfl, rfl⟩ := h
  cases h₁ with
  | «show» he₁ =>
      cases h₂ with
      | «show» he₂ =>
          obtain ⟨-, hK₁⟩ := inferExpressionType_agrees hT₁ hT₂ he₁ he₂ hscopes he hK hkept
          exact .of_scopes hK₁ hscopes he₁.scope he₂.scope

theorem StmtGuesses.exprStmt {e : Expr} : StmtGuesses T₁ T₂ metaName (.exprStmt e) := by
  intro _ _ _ _ _ _ _ _ h₁ h₂ _ _ hscopes h hK hkept
  rw [inferStatement] at h
  obtain ⟨_, K₁, he, h⟩ := run_bind_ok.mp h
  simp only [run_pure_ok, Prod.mk.injEq] at h
  obtain ⟨rfl, rfl⟩ := h
  cases h₁ with
  | exprStmt he₁ =>
      cases h₂ with
      | exprStmt he₂ =>
          obtain ⟨-, hK₁⟩ := inferExpressionType_agrees hT₁ hT₂ he₁ he₂ hscopes he hK hkept
          exact .of_scopes hK₁ hscopes he₁.scope he₂.scope

theorem StmtGuesses.ret {e : Expr} : StmtGuesses T₁ T₂ metaName (.ret (some e)) := by
  intro _ _ _ _ _ _ _ _ h₁ h₂ hret₁ hret₂ hscopes h hK hkept
  rw [inferStatement] at h
  obtain ⟨seen, K₁, he, h⟩ := run_bind_ok.mp h
  simp only [run_bind_ok, run_pure_ok, Prod.mk.injEq] at h
  obtain ⟨_, K₂, hmerge, rfl, rfl⟩ := h
  cases h₁ with
  | ret he₁ hty₁ =>
      cases h₂ with
      | ret he₂ hty₂ =>
          obtain ⟨hagrees, hK₁⟩ := inferExpressionType_agrees hT₁ hT₂ he₁ he₂ hscopes he hK
            ((mergeReturn_commits hmerge).kept.trans hkept)
          have hret₁' := hty₁.trans (he₁.facts.chain.grows.returnType.trans hret₁)
          have hret₂' := hty₂.trans (he₂.facts.chain.grows.returnType.trans hret₂)
          have hK₂ := mergeReturn_guesses hmerge hK₁ hkept fun htype => by
            rw [← hret₂']
            exact hagrees.default.guesses (htype.symm.trans hret₁'.symm)
          exact .of_scopes hK₂ hscopes he₁.scope he₂.scope

omit hT₁ hT₂ in
theorem StmtGuesses.retDefault : StmtGuesses T₁ T₂ metaName (.ret none) := by
  intro _ _ _ _ _ K _ _ h₁ h₂ _ _ hscopes h hK hkept
  rw [inferStatement] at h
  simp only [run_bind_ok, run_get_ok, run_pure_ok, Prod.mk.injEq] at h
  obtain ⟨_, _, ⟨rfl, rfl⟩, _, K₂, hmerge, rfl, rfl⟩ := h
  have hK₂ := mergeReturn_guesses hmerge hK hkept fun _ => (hK.returns metaName).default
  cases h₁ with
  | retDefault hv₁ _ =>
      cases h₂ with
      | retDefault hv₂ _ =>
          exact .of_scopes hK₂ hscopes hv₁.facts.chain.scope hv₂.facts.chain.scope

theorem StmtGuesses.ifElse {test : Expr} {thenBody elseBody : List Stmt}
    (hthenBody : BodyGuesses T₁ T₂ metaName thenBody)
    (helseBody : BodyGuesses T₁ T₂ metaName elseBody) :
    StmtGuesses T₁ T₂ metaName (.ifElse test thenBody elseBody) := by
  intro _ ctx₁ _ ctx₂ _ _ _ _ h₁ h₂ hret₁ hret₂ hscopes h hK hkept
  rw [inferStatement] at h
  obtain ⟨_, K₁, ht, h⟩ := run_bind_ok.mp h
  obtain ⟨⟨env₁, _⟩, K₂, hthen, h⟩ := run_bind_ok.mp h
  obtain ⟨⟨env₂, _⟩, K₃, helse, h⟩ := run_bind_ok.mp h
  simp only [run_pure_ok, Prod.mk.injEq] at h
  obtain ⟨rfl, rfl⟩ := h
  have hkept₂ := (inferStatements_commits helse).kept.trans hkept
  have hkept₁ := (inferStatements_commits hthen).kept.trans hkept₂
  cases h₁ with
  | @ifElse _ base₁ m₁ n₁ _ t₁ _ _ ht₁ _ hthen₁ helse₁ =>
      cases h₂ with
      | @ifElse _ base₂ m₂ n₂ _ t₂ _ _ ht₂ _ hthen₂ helse₂ =>
          obtain ⟨-, hK₁⟩ := inferExpressionType_agrees hT₁ hT₂ ht₁ ht₂ hscopes ht hK hkept₁
          have hhead : ∀ env, ScopesAgree env ctx₁.scope ctx₂.scope →
              ScopesAgree env (base₁.ifHead t₁).scope (base₂.ifHead t₂).scope := by
            intro env henv
            rw [scope_ifHead, scope_ifHead, ht₁.scope, ht₂.scope]
            exact henv.addLabels
          have hbase₁ := (ht₁.facts.chain.grows.ifHead t₁).returnType.trans hret₁
          have hbase₂ := (ht₂.facts.chain.grows.ifHead t₂).returnType.trans hret₂
          have hfirst := hthenBody hthen₁ hthen₂ hbase₁ hbase₂
            (hhead _ hscopes) hthen hK₁ hkept₂
          -- the second branch is inferred in the environment of the test
          have hsecond := helseBody helse₁ helse₂
            (hthen₁.grows.returnType.trans hbase₁) (hthen₂.grows.returnType.trans hbase₂)
            (hfirst.outer _ (hhead _ hscopes)) helse hfirst.table hkept
          have houter := fun env henv =>
            hsecond.outer env (hfirst.outer env (hhead env henv))
          exact ⟨hsecond.table, houter _ hscopes, houter⟩

theorem StmtGuesses.«while» {test : Expr} {body : List Stmt}
    (hguesses : BodyGuesses T₁ T₂ metaName body) :
    StmtGuesses T₁ T₂ metaName (.while test body) := by
  intro _ ctx₁ _ ctx₂ _ _ _ _ h₁ h₂ hret₁ hret₂ hscopes h hK hkept
  rw [inferStatement] at h
  obtain ⟨_, K₁, ht, h⟩ := run_bind_ok.mp h
  obtain ⟨⟨env₁, _⟩, K₂, hbody, h⟩ := run_bind_ok.mp h
  simp only [run_pure_ok, Prod.mk.injEq] at h
  obtain ⟨rfl, rfl⟩ := h
  cases h₁ with
  | @«while» _ m₁ _ _ t₁ _ ht₁ _ hbody₁ =>
      cases h₂ with
      | @«while» _ m₂ _ _ t₂ _ ht₂ _ hbody₂ =>
          have hkept₁ := (inferStatements_commits hbody).kept.trans hkept
          obtain ⟨-, hK₁⟩ :=
            inferExpressionType_agrees hT₁ hT₂ ht₁ ht₂ hscopes.addLabels ht hK hkept₁
          have htest : ∀ env, ScopesAgree env ctx₁.scope ctx₂.scope →
              ScopesAgree env m₁.scope m₂.scope := by
            intro env henv
            rw [ht₁.scope, ht₂.scope]
            exact henv.addLabels
          have hfirst := hguesses hbody₁ hbody₂
            (ht₁.facts.chain.grows.returnType.trans hret₁)
            (ht₂.facts.chain.grows.returnType.trans hret₂) (htest _ hscopes) hbody hK₁ hkept
          have houter := fun env henv => hfirst.outer env (htest env henv)
          exact ⟨hfirst.table, houter _ hscopes, houter⟩

theorem StmtGuesses.forEach {binding : String} {iterable : Expr} {body : List Stmt}
    (hguesses : BodyGuesses T₁ T₂ metaName body) :
    StmtGuesses T₁ T₂ metaName (.forEach binding iterable body) := by
  intro env ctx₁ _ ctx₂ _ _ _ _ h₁ h₂ hret₁ hret₂ hscopes h hK hkept
  rw [inferStatement] at h
  obtain ⟨seen, K₁, he, h⟩ := run_bind_ok.mp h
  split at h
  · exact (run_throw_bind_ok.mp h).elim
  · rename_i hiterable
    obtain ⟨⟨env₁, _⟩, K₂, hbody, h⟩ := run_bind_ok.mp h
    simp only [run_pure_ok, Prod.mk.injEq] at h
    obtain ⟨rfl, rfl⟩ := h
    have hkept₁ := (inferStatements_commits hbody).kept.trans hkept
    cases h₁ with
    | @forEach _ base₁ m₁ n₁ _ _ v₁ loc₁ _ hv₁ hloc₁ hbody₁ =>
        cases h₂ with
        | @forEach _ base₂ m₂ n₂ _ _ v₂ loc₂ _ hv₂ hloc₂ hbody₂ =>
            obtain ⟨hagrees, hK₁⟩ :=
              inferExpressionType_agrees hT₁ hT₂ hv₁ hv₂ hscopes he hK hkept₁
            -- a list or a text that is seen is one under both tables
            have hsame : v₁.type = v₂.type := by
              obtain ⟨τ, rfl, hne⟩ : ∃ τ, seen = some τ ∧ τ ≠ .i64 := by
                rcases seen with _ | _ | _ | _ | _ | item
                all_goals first
                  | exact absurd rfl hiterable
                  | exact ⟨_, rfl, nofun⟩
              exact hagrees.eq_of_seen hne
            have hhide : ∀ env, ScopesAgree env ctx₁.scope ctx₂.scope → ScopesAgree env
                (base₁.forEachTest v₁).scope (base₂.forEachTest v₂).scope := by
              intro env henv
              rw [scope_forEachTest, scope_forEachTest, hv₁.scope, hv₂.scope, hsame]
              exact henv.hide v₂.type
            have hbinding : SeenAgrees (bindingType seen) (bindingType v₁.type)
                (bindingType v₂.type) := .inr (congrArg bindingType hsame)
            have hfirst := GuessesAfter.declare hK₁ (hhide _ hscopes) hbinding hloc₁ hloc₂
            have hitem₁ : (base₁.forEachItem m₁ v₁ loc₁).scope = m₁.scope := rfl
            have hitem₂ : (base₂.forEachItem m₂ v₂ loc₂).scope = m₂.scope := rfl
            have hgrows₁ := ((hv₁.grows.forEachTest v₁).trans hloc₁.grows).forEachItem base₁ v₁
              loc₁
            have hgrows₂ := ((hv₂.grows.forEachTest v₂).trans hloc₂.grows).forEachItem base₂ v₂
              loc₂
            have hnames := hfirst.names
            rw [← hitem₁, ← hitem₂] at hnames
            have hsecond := hguesses hbody₁ hbody₂
              (hgrows₁.returnType.trans hret₁) (hgrows₂.returnType.trans hret₂)
              hnames hbody hfirst.table hkept
            have htail₁ : (base₁.forEachTail n₁).scope = n₁.scope := rfl
            have htail₂ : (base₂.forEachTail n₂).scope = n₂.scope := rfl
            rw [htail₁, htail₂]
            refine ⟨hsecond.table, hsecond.outer _ hnames, ?_⟩
            intro env henv
            have henv' := hfirst.outer env (hhide env henv)
            rw [← hitem₁, ← hitem₂] at henv'
            exact hsecond.outer env henv'

end Statements

mutual
theorem inferStatement_guesses (hT₁ : TableTyped T₁) (hT₂ : TableTyped T₂) {metaName : String} :
    ∀ {s : Stmt}, StmtGuesses T₁ T₂ metaName s
  | .define _ _ => .define hT₁ hT₂
  | .assign _ _ => .assign hT₁ hT₂
  | .show _ => .show hT₁ hT₂
  | .exprStmt _ => .exprStmt hT₁ hT₂
  | .ret (some _) => .ret hT₁ hT₂
  | .ret none => .retDefault
  | .ifElse _ _ _ =>
      .ifElse hT₁ hT₂ (inferStatements_guesses hT₁ hT₂) (inferStatements_guesses hT₁ hT₂)
  | .while _ _ => .while hT₁ hT₂ (inferStatements_guesses hT₁ hT₂)
  | .forEach _ _ _ => .forEach hT₁ hT₂ (inferStatements_guesses hT₁ hT₂)

theorem inferStatements_guesses (hT₁ : TableTyped T₁) (hT₂ : TableTyped T₂) {metaName : String} :
    ∀ {body : List Stmt}, BodyGuesses T₁ T₂ metaName body
  | [] => by
      intro _ _ _ _ _ _ _ _ h₁ h₂ _ _ hscopes h hK _
      simp only [inferStatements, run_pure_ok, Prod.mk.injEq] at h
      obtain ⟨rfl, rfl⟩ := h
      cases h₁
      cases h₂
      exact ⟨hK, hscopes, fun _ => id⟩
  | s :: body => by
      intro _ _ _ _ _ _ _ _ h₁ h₂ hret₁ hret₂ hscopes h hK hkept
      rw [inferStatements] at h
      obtain ⟨⟨env₁, _⟩, K₁, hs, h⟩ := run_bind_ok.mp h
      obtain ⟨⟨env₂, _⟩, K₂, hbody, h⟩ := run_bind_ok.mp h
      simp only [run_pure_ok, Prod.mk.injEq] at h
      obtain ⟨rfl, rfl⟩ := h
      cases h₁ with
      | cons hs₁ hbody₁ =>
          cases h₂ with
          | cons hs₂ hbody₂ =>
              have hfirst := inferStatement_guesses hT₁ hT₂ hs₁ hs₂ hret₁ hret₂ hscopes hs hK
                ((inferStatements_commits hbody).kept.trans hkept)
              have hsecond := inferStatements_guesses hT₁ hT₂ hbody₁ hbody₂
                (hs₁.grows.returnType.trans hret₁) (hs₂.grows.returnType.trans hret₂)
                hfirst.names hbody hfirst.table hkept
              exact ⟨hsecond.table, hsecond.names, fun env henv =>
                hsecond.outer env (hfirst.outer env henv)⟩
end

end Runs

/-! ## Functions and passes -/

/-- The environment and the scopes at the start of a function agree. -/
theorem scopesAgree_start : ∀ {params : List String} {ps types₁ types₂ : List (Option Ty)}
    {env : TypeEnv} {start₁ start₂ : String → Option (Option Ty)},
    params.length = ps.length → params.length = types₁.length → params.length = types₂.length →
    (∀ i : ℕ, Guesses ps[i]?.join types₁[i]?.join ∧ Guesses ps[i]?.join types₂[i]?.join) →
    (∀ x, NameAgrees (env x) (start₁ x) (start₂ x)) → ∀ x,
    NameAgrees
      (((params.zip ps).foldl (fun (env : TypeEnv) p =>
        Function.update env p.1 (some (p.2.getD defaultParamType))) env) x)
      (((params.zip types₁).foldl (fun (types : String → Option (Option Ty)) p =>
        Function.update types p.1 (some p.2)) start₁) x)
      (((params.zip types₂).foldl (fun (types : String → Option (Option Ty)) p =>
        Function.update types p.1 (some p.2)) start₂) x)
  | [], _, _, _, _, _, _, _, _, _, _, h => h
  | _ :: _, [], _, _, _, _, _, hlen, _, _, _, _ => by cases hlen
  | _ :: _, _ :: _, [], _, _, _, _, _, hlen, _, _, _ => by cases hlen
  | _ :: _, _ :: _, _ :: _, [], _, _, _, _, _, hlen, _, _ => by cases hlen
  | name :: params, p :: ps, t₁ :: types₁, t₂ :: types₂, env, start₁, start₂, hlen, hlen₁, hlen₂,
    hps, h => by
      simp only [List.zip_cons_cons, List.foldl_cons]
      refine scopesAgree_start (Nat.succ.inj hlen) (Nat.succ.inj hlen₁) (Nat.succ.inj hlen₂)
        (fun i => hps (i + 1)) ?_
      intro x
      by_cases hx : x = name
      · subst hx
        rw [Function.update_self, Function.update_self, Function.update_self]
        have hfirst : SeenAgrees p t₁ t₂ := .inl (hps 0)
        exact hfirst.default.name
      · rw [Function.update_of_ne hx, Function.update_of_ne hx, Function.update_of_ne hx]
        exact h x

/-- The body of a function is lowered under a table. -/
def FunctionDecl.LowersUnder (table : FunctionTable) (fn : FunctionDecl) : Prop :=
  ∃ consts ctx, StmtsLower table (startContext table consts fn) fn.body ctx

section Passes

variable {T₁ T₂ : FunctionTable} {fns fns₁ fns₂ : List FunctionDecl} (hT₁ : TableFor fns₁ T₁)
  (hT₂ : TableFor fns₂ T₂)
include hT₁ hT₂

theorem inferFunction_guesses {fn : FunctionDecl} {K K' : FunctionTable} {b : Bool}
    (hfn₁ : fn ∈ fns₁) (hfn₂ : fn ∈ fns₂)
    (hshape : K.shape = fns₁.map fun fn => (fn.name, fn.params.length))
    (h₁ : fn.LowersUnder T₁) (h₂ : fn.LowersUnder T₂)
    (h : (inferFunction fn).run K = .ok (b, K')) (hK : K.Guesses T₂) (hkept : K'.Kept T₁) :
    K'.Guesses T₂ := by
  simp only [inferFunction, run_bind_ok, run_get_ok, run_pure_ok, Prod.mk.injEq] at h
  obtain ⟨_, _, ⟨rfl, rfl⟩, _, _, hbody, -, rfl⟩ := h
  obtain ⟨consts₁, c₁, hbody₁⟩ := h₁
  obtain ⟨consts₂, c₂, hbody₂⟩ := h₂
  obtain ⟨entry, hlook, hlen⟩ := exists_entry_of_shape hshape hT₁.nodup hfn₁
  obtain ⟨entry₁, hlook₁, hlen₁⟩ := hT₁.exists_entry hfn₁
  obtain ⟨entry₂, hlook₂, hlen₂⟩ := hT₂.exists_entry hfn₂
  rw [hlook, Option.map_some, Option.getD_some] at hbody
  have hparams : ∀ {table : FunctionTable} {entry : FnMeta}, table.lookup fn.name = some entry →
      ∀ i : ℕ, entry.paramTypes[i]?.join = table.paramType fn.name i := by
    intro table entry hentry i
    rw [FunctionTable.paramType, hentry]
    rfl
  have hkept₁ := (inferStatements_commits hbody).kept.trans hkept
  have hguess : ∀ i : ℕ, Guesses entry.paramTypes[i]?.join entry₁.paramTypes[i]?.join ∧
      Guesses entry.paramTypes[i]?.join entry₂.paramTypes[i]?.join := by
    intro i
    rw [hparams hlook, hparams hlook₁, hparams hlook₂]
    exact ⟨fun τ hτ _ => hkept₁.params _ _ τ hτ, hK.params _ _⟩
  have hscopes : ScopesAgree (paramEnv fn.params entry.paramTypes)
      (startContext T₁ consts₁ fn).scope (startContext T₂ consts₂ fn).scope := by
    rw [startContext, startContext, scope_newContext, scope_newContext, paramsOf, paramsOf, hlook₁,
      hlook₂]
    exact ⟨scopesAgree_start hlen hlen₁ hlen₂ hguess
      (fun _ => .inl ⟨.of_none _, .of_none _⟩), rfl⟩
  exact (inferStatements_guesses hT₁.typed hT₂.typed hbody₁ hbody₂ (addParams_fields _ _).2.1
    (addParams_fields _ _).2.1 hscopes hbody hK hkept).table

theorem inferPass_guesses : ∀ {fns : List FunctionDecl} {K K' : FunctionTable} {b : Bool},
    (∀ fn ∈ fns, fn ∈ fns₁ ∧ fn ∈ fns₂ ∧ fn.LowersUnder T₁ ∧ fn.LowersUnder T₂) →
    K.shape = fns₁.map (fun fn => (fn.name, fn.params.length)) →
    (inferPass fns).run K = .ok (b, K') → K.Guesses T₂ → K'.Kept T₁ → K'.Guesses T₂
  | [], _, _, _, _, _, h, hK, _ => by
      simp only [inferPass, run_pure_ok, Prod.mk.injEq] at h
      obtain ⟨-, rfl⟩ := h
      exact hK
  | fn :: fns, _, _, _, hfns, hshape, h, hK, hkept => by
      rw [inferPass] at h
      obtain ⟨_, K₁, hfn, h⟩ := run_bind_ok.mp h
      obtain ⟨_, K₂, hrest, h⟩ := run_bind_ok.mp h
      simp only [run_pure_ok, Prod.mk.injEq] at h
      obtain ⟨-, rfl⟩ := h
      obtain ⟨⟨hfn₁, hfn₂, h₁, h₂⟩, hfns⟩ := List.forall_mem_cons.mp hfns
      obtain ⟨calls, rets, hcommits⟩ := inferPass_commits hrest
      have hfirst := inferFunction_guesses hT₁ hT₂ hfn₁ hfn₂ hshape h₁ h₂ hfn hK
        (hcommits.kept.trans hkept)
      refine inferPass_guesses hfns ?_ hrest hfirst hkept
      obtain ⟨calls', rets', hcommits'⟩ := inferFunction_commits hfn
      rw [hcommits'.shape, hshape]

theorem inferPasses_guesses (hfns : ∀ fn ∈ fns, fn ∈ fns₁ ∧ fn ∈ fns₂ ∧ fn.LowersUnder T₁ ∧
    fn.LowersUnder T₂) : ∀ {n : ℕ} {K K' : FunctionTable} {u : Unit},
    K.shape = fns₁.map (fun fn => (fn.name, fn.params.length)) →
    (inferPasses fns n).run K = .ok (u, K') → K.Guesses T₂ → K'.Kept T₁ → K'.Guesses T₂
  | 0, _, _, _, _, h, hK, _ => by
      simp only [inferPasses, run_pure_ok, Prod.mk.injEq] at h
      obtain ⟨-, rfl⟩ := h
      exact hK
  | n + 1, _, _, _, hshape, h, hK, hkept => by
      rw [inferPasses] at h
      obtain ⟨changed, K₁, hpass, h⟩ := run_bind_ok.mp h
      obtain ⟨calls, rets, hcommits⟩ := inferPass_commits hpass
      split at h
      · obtain ⟨_, _, hrest⟩ := inferPasses_commits h
        have hfirst := inferPass_guesses hT₁ hT₂ hfns hshape hpass hK
          (hrest.kept.trans hkept)
        exact inferPasses_guesses hfns (hcommits.shape.trans hshape) h hfirst hkept
      · simp only [run_pure_ok, Prod.mk.injEq] at h
        obtain ⟨-, rfl⟩ := h
        exact inferPass_guesses hT₁ hT₂ hfns hshape hpass hK hkept

end Passes

end GatoCore.Native
