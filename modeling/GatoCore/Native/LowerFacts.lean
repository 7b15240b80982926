import Mathlib.Logic.Relation
import Mathlib.Data.List.Infix
import Mathlib.Data.List.Nodup
import GatoCore.Native.LowerSpec

/-!
# Static facts about lowered code

The code of an expression is a chain of definitions: each instruction defines the next temp from
temps defined earlier in the same expression, and nothing else of the context changes but the
constant tables, which grow. The code of a statement only appends to the context.
-/

namespace GatoCore.Native

open Relation

/-! ## Constant tables grow -/

/-- An entry of a list is one of every longer list. -/
theorem getElem?_extend {α : Type} {a b : List α} (h : a <+: b) {i : ℕ} {x : α}
    (hi : a[i]? = some x) : b[i]? = some x := by
  obtain ⟨rest, rfl⟩ := h
  rw [List.getElem?_append_left (List.getElem?_eq_some_iff.mp hi).1]
  exact hi

/-- A constant that is no list, or one of the first `n` lists. -/
def ConstValue.Below (c : ConstValue) (n : ℕ) : Prop :=
  ∀ i, c.value = .label (.arr i) → i < n

theorem ConstValue.Below.mono {c : ConstValue} {m n : ℕ} (h : c.Below m) (hmn : m ≤ n) :
    c.Below n :=
  fun i hi => (h i hi).trans_le hmn

/-- The items of a list only refer to lists interned before it. -/
def ConstTables.Ranked (tables : ConstTables) : Prop :=
  ∀ (i : ℕ) (entry : ArrayConst), tables.arrayList[i]? = some entry →
    ∀ c ∈ entry.items, c.Below i

/-- The type of what a label points to. -/
def ConstTables.labelType (tables : ConstTables) : DataLabel → Option Ty
  | .str i => tables.stringList[i]?.map fun _ => .str
  | .arr i => tables.arrayList[i]?.map fun entry => .array entry.itemType

/-- A constant of its type: a number, or a pointer to an entry of the tables. -/
def ConstValue.Typed (tables : ConstTables) (c : ConstValue) : Prop :=
  match c.value with
  | .imm _ => isIntLikeType (some c.type) = true
  | .label label => tables.labelType label = some c.type

/-- The items of every list are constants of its item type. -/
def ConstTables.Typed (tables : ConstTables) : Prop :=
  ∀ entry ∈ tables.arrayList, ∀ c ∈ entry.items, c.type = entry.itemType ∧ c.Typed tables

theorem ConstValue.Typed.below {tables : ConstTables} {c : ConstValue} (h : c.Typed tables) :
    c.Below tables.arrayList.length := by
  intro i hi
  rw [ConstValue.Typed, hi] at h
  obtain ⟨entry, hentry, -⟩ := Option.map_eq_some_iff.mp h
  exact (List.getElem?_eq_some_iff.mp hentry).1

/-- Every label keeps its meaning. -/
structure ConstTables.Extends (a b : ConstTables) : Prop where
  strings : a.stringList <+: b.stringList
  arrays : a.arrayList <+: b.arrayList
  ranked : a.Ranked → b.Ranked
  typed : a.Typed → b.Typed

theorem ConstTables.Extends.refl (a : ConstTables) : a.Extends a :=
  ⟨List.prefix_rfl, List.prefix_rfl, id, id⟩

theorem ConstTables.Extends.trans {a b c : ConstTables} (h : a.Extends b) (h' : b.Extends c) :
    a.Extends c :=
  ⟨h.strings.trans h'.strings, h.arrays.trans h'.arrays, h'.ranked ∘ h.ranked,
    h'.typed ∘ h.typed⟩

theorem ConstTables.labelType_mono {a b : ConstTables} (hs : a.stringList <+: b.stringList)
    (ha : a.arrayList <+: b.arrayList) {label : DataLabel} {type : Ty}
    (h : a.labelType label = some type) : b.labelType label = some type := by
  cases label with
  | str i =>
      obtain ⟨s, hget, rfl⟩ := Option.map_eq_some_iff.mp h
      rw [labelType, getElem?_extend hs hget]
      rfl
  | arr i =>
      obtain ⟨entry, hget, rfl⟩ := Option.map_eq_some_iff.mp h
      rw [labelType, getElem?_extend ha hget]
      rfl

theorem ConstValue.Typed.mono {a b : ConstTables} (hs : a.stringList <+: b.stringList)
    (ha : a.arrayList <+: b.arrayList) {c : ConstValue} (h : c.Typed a) : c.Typed b := by
  unfold ConstValue.Typed at h ⊢
  split at h
  · exact h
  · exact ConstTables.labelType_mono hs ha h

theorem internString_extends (consts : ConstTables) (value : String) :
    consts.Extends (internString consts value).2 := by
  unfold internString
  split
  · exact .refl _
  · refine ⟨List.prefix_append _ _, List.prefix_rfl, fun h => h, ?_⟩
    intro h entry hentry c hc
    obtain ⟨htype, hc⟩ := h entry hentry c hc
    refine ⟨htype, ConstValue.Typed.mono ?_ ?_ hc⟩
    · exact List.prefix_append _ _
    · exact List.prefix_rfl

theorem ConstTables.Ranked.push {consts : ConstTables} (h : consts.Ranked) {entry : ArrayConst}
    (hitems : ∀ c ∈ entry.items, c.Below consts.arrayList.length) :
    ConstTables.Ranked { consts with arrayList := consts.arrayList ++ [entry] } := by
  intro i e he
  rcases lt_or_ge i consts.arrayList.length with hi | hi
  · exact h i e (by rwa [List.getElem?_append_left hi] at he)
  · rw [List.getElem?_append_right hi, List.getElem?_singleton] at he
    split at he
    · cases he
      have : i = consts.arrayList.length := by omega
      exact this ▸ hitems
    · cases he

theorem ConstTables.Typed.push {consts : ConstTables} (h : consts.Typed) {entry : ArrayConst}
    (hitems : ∀ c ∈ entry.items, c.type = entry.itemType ∧ c.Typed consts) :
    ConstTables.Typed { consts with arrayList := consts.arrayList ++ [entry] } := by
  intro e he c hc
  have hin : c.type = e.itemType ∧ c.Typed consts := by
    rcases List.mem_append.mp he with he | he
    · exact h e he c hc
    · rw [List.mem_singleton.mp he] at hc ⊢
      exact hitems c hc
  refine ⟨hin.1, ConstValue.Typed.mono ?_ ?_ hin.2⟩
  · exact List.prefix_rfl
  · exact List.prefix_append _ _

theorem internArray_extends (consts : ConstTables) {items : List ConstValue} {itemType : Ty}
    (hitems : ∀ c ∈ items, c.type = itemType ∧ c.Typed consts) :
    consts.Extends (internArray consts items itemType).2 := by
  unfold internArray
  split
  · exact .refl _
  · exact ⟨List.prefix_rfl, List.prefix_append _ _,
      fun h => h.push fun c hc => (hitems c hc).2.below, fun h => h.push hitems⟩

/-- The label `internArray` returns is that of an entry with the given items. -/
theorem internArray_entry (consts : ConstTables) (items : List ConstValue) (itemType : Ty) :
    ∃ i, (internArray consts items itemType).1 = .arr i ∧
      (internArray consts items itemType).2.arrayList[i]? = some ⟨itemType, items⟩ := by
  unfold internArray
  split
  · rename_i i hi
    obtain ⟨hlt, hget, _⟩ := List.findIdx?_eq_some_iff_getElem.mp hi
    refine ⟨i, rfl, ?_⟩
    rw [List.getElem?_eq_getElem hlt]
    simpa using hget
  · exact ⟨_, rfl, by simp⟩

theorem getElem?_of_stringPosition {consts : ConstTables} {value : String} {i : ℕ}
    (h : stringPosition consts value = some i) : consts.stringList[i]? = some value := by
  unfold stringPosition at h
  split at h
  · cases h
  · obtain ⟨hlt, hget, _⟩ := List.findIdx?_eq_some_iff_getElem.mp h
    rw [List.getElem?_eq_getElem hlt]
    simpa using hget

theorem internString_entry (consts : ConstTables) (value : String) :
    ∃ i, (internString consts value).1 = .str i ∧
      (internString consts value).2.stringList[i]? = some value := by
  unfold internString
  split
  · rename_i i hi
    exact ⟨i, rfl, getElem?_of_stringPosition hi⟩
  · exact ⟨_, rfl, by simp⟩

theorem buildConstValue_string {value : String} {consts consts' : ConstTables} {c : ConstValue}
    (h : buildConstValue consts (.string value) = .ok (c, consts')) :
    c = ⟨.str, .label (internString consts value).1⟩ ∧
      consts' = (internString consts value).2 := by
  simp only [buildConstValue, Except.ok.injEq, Prod.mk.injEq] at h
  exact ⟨h.1.symm, h.2.symm⟩

theorem buildConstValue_array {items : List Expr} {consts consts' : ConstTables} {c : ConstValue}
    (h : buildConstValue consts (.array items) = .ok (c, consts')) :
    ∃ values itemType consts₁, buildConstItems consts none items = .ok (values, itemType, consts₁) ∧
      c = ⟨.array (itemType.getD .null),
        .label (internArray consts₁ values (itemType.getD .null)).1⟩ ∧
      consts' = (internArray consts₁ values (itemType.getD .null)).2 := by
  rw [buildConstValue] at h
  obtain ⟨⟨values, itemType, consts₁⟩, hitems, h⟩ := Lib.except_bind_ok.mp h
  simp only [Except.ok.injEq, Prod.mk.injEq] at h
  exact ⟨values, itemType, consts₁, hitems, h.1.symm, h.2.symm⟩

theorem buildConstItems_cons {item : Expr} {items : List Expr} {consts consts' : ConstTables}
    {itemType itemType' : Option Ty} {values : List ConstValue}
    (h : buildConstItems consts itemType (item :: items) = .ok (values, itemType', consts')) :
    ∃ c consts₁ cs, buildConstValue consts item = .ok (c, consts₁) ∧
      (itemType = none ∨ itemType = some c.type) ∧
      buildConstItems consts₁ (some c.type) items = .ok (cs, itemType', consts') ∧
      values = c :: cs := by
  rw [buildConstItems] at h
  obtain ⟨⟨c, consts₁⟩, hc, h⟩ := Lib.except_bind_ok.mp h
  dsimp only at h
  split at h
  · cases h
  · rename_i hty
    obtain ⟨⟨cs, type, consts₂⟩, hcs, h⟩ := Lib.except_bind_ok.mp h
    cases h
    refine ⟨c, consts₁, cs, hc, ?_, hcs, rfl⟩
    by_contra hne
    exact hty (not_or.mp hne)

/-- Once an item has been seen, its type is that of all items. -/
theorem buildConstItems_keeps :
    ∀ {items : List Expr} {consts consts' : ConstTables} {type : Ty} {itemType : Option Ty}
      {values : List ConstValue},
      buildConstItems consts (some type) items = .ok (values, itemType, consts') →
      itemType = some type
  | [], _, _, _, _, _, h => by cases h; rfl
  | item :: items, _, _, _, _, _, h => by
      obtain ⟨c, consts₁, cs, -, htype, hcs, -⟩ := buildConstItems_cons h
      rcases htype with htype | htype
      · cases htype
      · cases htype
        exact buildConstItems_keeps hcs

theorem internString_labelType (consts : ConstTables) (value : String) :
    (internString consts value).2.labelType (internString consts value).1 = some .str := by
  obtain ⟨i, hi, hget⟩ := internString_entry consts value
  rw [hi, ConstTables.labelType, hget]
  rfl

theorem internArray_labelType (consts : ConstTables) (items : List ConstValue) (itemType : Ty) :
    (internArray consts items itemType).2.labelType (internArray consts items itemType).1 =
      some (.array itemType) := by
  obtain ⟨i, hi, hget⟩ := internArray_entry consts items itemType
  rw [hi, ConstTables.labelType, hget]
  rfl

mutual
theorem buildConstValue_extends :
    ∀ {e : Expr} {consts consts' : ConstTables} {c : ConstValue},
      buildConstValue consts e = .ok (c, consts') →
      consts.Extends consts' ∧ c.Typed consts'
  | .number _, _, _, _, h => by cases h; exact ⟨.refl _, rfl⟩
  | .bool _, _, _, _, h => by cases h; exact ⟨.refl _, rfl⟩
  | .null, _, _, _, h => by cases h; exact ⟨.refl _, rfl⟩
  | .string value, consts, _, _, h => by
      obtain ⟨rfl, rfl⟩ := buildConstValue_string h
      exact ⟨internString_extends consts value, internString_labelType consts value⟩
  | .array items, consts, _, _, h => by
      obtain ⟨values, itemType, consts₁, hitems, rfl, rfl⟩ := buildConstValue_array h
      obtain ⟨hext, htyped⟩ := buildConstItems_extends hitems
      exact ⟨hext.trans (internArray_extends _ htyped), internArray_labelType _ _ _⟩
  | .identifier _, _, _, _, h => by cases h
  | .unary _ _, _, _, _, h => by cases h
  | .binary _ _ _, _, _, _, h => by cases h
  | .call _ _, _, _, _, h => by cases h

theorem buildConstItems_extends :
    ∀ {items : List Expr} {consts consts' : ConstTables} {itemType itemType' : Option Ty}
      {values : List ConstValue},
      buildConstItems consts itemType items = .ok (values, itemType', consts') →
      consts.Extends consts' ∧
        ∀ c ∈ values, c.type = itemType'.getD .null ∧ c.Typed consts'
  | [], _, _, _, _, _, h => by cases h; exact ⟨.refl _, by simp⟩
  | item :: items, consts, consts', itemType, itemType', values, h => by
      obtain ⟨c, consts₁, cs, hc, _, hcs, rfl⟩ := buildConstItems_cons h
      obtain ⟨hext, htyped⟩ := buildConstValue_extends hc
      obtain ⟨hext', htyped'⟩ := buildConstItems_extends hcs
      refine ⟨hext.trans hext', ?_⟩
      intro d hd
      rcases List.mem_cons.mp hd with rfl | hd
      · rw [buildConstItems_keeps hcs]
        exact ⟨rfl, htyped.mono hext'.strings hext'.arrays⟩
      · exact htyped' d hd
end

/-! ## Expressions are chains of definitions -/

/-- One definition: the next temp, computed from temps not below `lo`. -/
structure DefStep (lo : ℕ) (ctx : LoweringContext) (consts : ConstTables) (inst : Instr) :
    Prop where
  extends_consts : ctx.consts.Extends consts
  defs : tempDefs inst = [ctx.tempCount]
  uses : ∀ t ∈ tempUses inst, lo ≤ t ∧ t < ctx.tempCount

/-- Any number of definitions. -/
inductive DefChain (lo : ℕ) (ctx : LoweringContext) : LoweringContext → Prop
  | refl : DefChain lo ctx ctx
  | step {ctx₁ : LoweringContext} {consts : ConstTables} {type : Option Ty} {inst : Instr} :
      DefChain lo ctx ctx₁ → DefStep lo ctx₁ consts inst →
      DefChain lo ctx ((ctx₁.withConsts consts).define type inst)

theorem DefChain.trans {lo : ℕ} {ctx ctx₁ ctx₂ : LoweringContext} (h : DefChain lo ctx ctx₁)
    (h' : DefChain lo ctx₁ ctx₂) : DefChain lo ctx ctx₂ := by
  induction h' with
  | refl => exact h
  | step _ hs ih => exact .step ih hs

theorem DefChain.mono {lo lo' : ℕ} (hlo : lo ≤ lo') {ctx ctx' : LoweringContext}
    (h : DefChain lo' ctx ctx') : DefChain lo ctx ctx' := by
  induction h with
  | refl => exact .refl
  | step _ hs ih =>
      exact .step ih ⟨hs.extends_consts, hs.defs, fun t ht =>
        ⟨hlo.trans (hs.uses t ht).1, (hs.uses t ht).2⟩⟩

/-- A definition that leaves the constant tables alone. -/
theorem DefChain.define {lo : ℕ} {ctx ctx₁ : LoweringContext} {type : Option Ty} {inst : Instr}
    (h : DefChain lo ctx ctx₁) (hd : tempDefs inst = [ctx₁.tempCount])
    (hu : ∀ t ∈ tempUses inst, lo ≤ t ∧ t < ctx₁.tempCount) :
    DefChain lo ctx (ctx₁.define type inst) :=
  @DefChain.step lo ctx ctx₁ ctx₁.consts type inst h ⟨.refl _, hd, hu⟩

theorem DefChain.tempTypes_prefix {lo : ℕ} {ctx ctx' : LoweringContext}
    (h : DefChain lo ctx ctx') : ctx.tempTypes <+: ctx'.tempTypes := by
  induction h with
  | refl => exact List.prefix_rfl
  | step _ _ ih => exact ih.trans (by simp)

theorem DefChain.tempCount_le {lo : ℕ} {ctx ctx' : LoweringContext} (h : DefChain lo ctx ctx') :
    ctx.tempCount ≤ ctx'.tempCount := by
  exact h.tempTypes_prefix.length_le

/-- What a node of an expression leaves: its temp is one of the chain's and has its type. -/
structure ExprFacts (ctx ctx' : LoweringContext) (v : Operand) : Prop where
  chain : DefChain ctx.tempCount ctx ctx'
  temp_ge : ctx.tempCount ≤ v.temp
  temp_lt : v.temp < ctx'.tempCount
  type_eq : ctx'.tempTypes[v.temp]? = some v.type

theorem ExprFacts.of_step {ctx ctx₁ : LoweringContext} {consts : ConstTables} {type : Option Ty}
    {inst : Instr} (h : DefChain ctx.tempCount ctx ctx₁)
    (hs : DefStep ctx.tempCount ctx₁ consts inst) :
    ExprFacts ctx ((ctx₁.withConsts consts).define type inst) ⟨ctx₁.tempCount, type⟩ :=
  { chain := h.step hs
    temp_ge := h.tempCount_le
    temp_lt := by simp
    type_eq := by simp [LoweringContext.tempCount] }

theorem ExprFacts.of_define {ctx ctx₁ : LoweringContext} {type : Option Ty} {inst : Instr}
    (h : DefChain ctx.tempCount ctx ctx₁) (hd : tempDefs inst = [ctx₁.tempCount])
    (hu : ∀ t ∈ tempUses inst, ctx.tempCount ≤ t ∧ t < ctx₁.tempCount) :
    ExprFacts ctx (ctx₁.define type inst) ⟨ctx₁.tempCount, type⟩ :=
  @ExprFacts.of_step ctx ctx₁ ctx₁.consts type inst h ⟨.refl _, hd, hu⟩

/-- The facts survive a longer chain. -/
theorem ExprFacts.extend {ctx ctx₁ ctx₂ : LoweringContext} {v : Operand}
    (h : ExprFacts ctx ctx₁ v) (h' : DefChain ctx.tempCount ctx₁ ctx₂) : ExprFacts ctx ctx₂ v :=
  { chain := h.chain.trans h'
    temp_ge := h.temp_ge
    temp_lt := h.temp_lt.trans_le h'.tempCount_le
    type_eq := getElem?_extend h'.tempTypes_prefix h.type_eq }

/-- The facts survive one more definition. -/
theorem ExprFacts.extend_define {ctx ctx₁ : LoweringContext} {u v : Operand} {type : Option Ty}
    {inst : Instr} (h : ExprFacts ctx ctx₁ v)
    (h' : ExprFacts ctx (ctx₁.define type inst) u) : ExprFacts ctx (ctx₁.define type inst) v :=
  { chain := h'.chain
    temp_ge := h.temp_ge
    temp_lt := by
      have := h.temp_lt
      simp only [LoweringContext.define_tempCount]
      omega
    type_eq := by
      rw [LoweringContext.define_tempTypes, List.getElem?_append_left h.temp_lt]
      exact h.type_eq }

/-- A unary node: one instruction on the operand. -/
theorem ExprFacts.unary {ctx ctx₁ : LoweringContext} {v : Operand} {type : Option Ty}
    {inst : Instr} (h : ExprFacts ctx ctx₁ v) (hd : tempDefs inst = [ctx₁.tempCount])
    (hu : tempUses inst = [v.temp]) :
    ExprFacts ctx (ctx₁.define type inst) ⟨ctx₁.tempCount, type⟩ := by
  refine .of_define h.chain hd ?_
  intro t ht
  rw [hu, List.mem_singleton] at ht
  subst ht
  exact ⟨h.temp_ge, h.temp_lt⟩

/-- The facts of two operands lowered one after the other, both about the last context. -/
theorem ExprFacts.both {ctx ctx₁ ctx₂ : LoweringContext} {a b : Operand}
    (ha : ExprFacts ctx ctx₁ a) (hb : ExprFacts ctx₁ ctx₂ b) :
    ExprFacts ctx ctx₂ a ∧ ExprFacts ctx ctx₂ b := by
  have hchain := hb.chain.mono ha.chain.tempCount_le
  exact ⟨ha.extend hchain,
    { chain := ha.chain.trans hchain
      temp_ge := ha.chain.tempCount_le.trans hb.temp_ge
      temp_lt := hb.temp_lt
      type_eq := hb.type_eq }⟩

/-- A binary node: one instruction on the two operands. -/
theorem ExprFacts.binary {ctx ctx₂ : LoweringContext} {a b : Operand} {type : Option Ty}
    {inst : Instr} (h : ExprFacts ctx ctx₂ a ∧ ExprFacts ctx ctx₂ b)
    (hd : tempDefs inst = [ctx₂.tempCount]) (hu : tempUses inst = [a.temp, b.temp]) :
    ExprFacts ctx (ctx₂.define type inst) ⟨ctx₂.tempCount, type⟩ := by
  refine .of_define h.1.chain hd ?_
  intro t ht
  rw [hu] at ht
  simp only [List.mem_cons, List.not_mem_nil, or_false] at ht
  rcases ht with rfl | rfl
  · exact ⟨h.1.temp_ge, h.1.temp_lt⟩
  · exact ⟨h.2.temp_ge, h.2.temp_lt⟩

theorem ConstValue.instr_defs (c : ConstValue) (dest : ℕ) : tempDefs (c.instr dest) = [dest] := by
  unfold ConstValue.instr
  split <;> rfl

theorem ConstValue.instr_uses (c : ConstValue) (dest : ℕ) : tempUses (c.instr dest) = [] := by
  unfold ConstValue.instr
  split <;> rfl

mutual
theorem ExprLowers.facts {table : FunctionTable} {ctx ctx' : LoweringContext} {e : Expr}
    {v : Operand} : ExprLowers table ctx e v ctx' → ExprFacts ctx ctx' v
  | .literal hc =>
      .of_step .refl ⟨(buildConstValue_extends hc).1, ConstValue.instr_defs _ _,
        by simp [ConstValue.instr_uses]⟩
  | .identifier _ => .of_define .refl rfl (by simp [tempUses])
  | .neg he _ => he.facts.unary rfl rfl
  | .not he _ => he.facts.unary rfl rfl
  | .tamanhoDe he _ => he.facts.unary rfl rfl
  | .tipoDe he =>
      .of_step he.facts.chain ⟨internString_extends _ _, rfl, by simp [tempUses]⟩
  | .identificar he => he.facts.unary rfl rfl
  | .observar he => he.facts.unary rfl rfl
  | .compare hl hr _ _ => .binary (hl.facts.both hr.facts) rfl rfl
  | .arith hl hr _ _ _ _ => .binary (hl.facts.both hr.facts) rfl rfl
  | @ExprLowers.logical _ _ _ ctx₂ _ bin _ _ a b hl hr _ _ _ _ => by
      obtain ⟨ha, hb⟩ := hl.facts.both hr.facts
      have h₁ : ExprFacts ctx (ctx₂.define (some .bool) (.cmp ctx₂.tempCount .ne a.temp (.imm 0)))
          ⟨ctx₂.tempCount, some .bool⟩ := ha.unary rfl rfl
      have hb₁ := hb.extend_define h₁
      have h₂ : ExprFacts ctx (LoweringContext.define _ (some .bool)
          (.cmp (ctx₂.tempCount + 1) .ne b.temp (.imm 0))) _ := hb₁.unary (by simp [tempDefs]) rfl
      have h₃ : ExprFacts ctx (LoweringContext.define _ (some .bool)
          (.bin (ctx₂.tempCount + 2) bin ctx₂.tempCount (ctx₂.tempCount + 1))) _ :=
        .binary ⟨h₁.extend_define h₂, h₂⟩ (by simp [tempDefs]) (by simp [tempUses])
      simpa using h₃
  | .call _ _ _ hargs => by
      obtain ⟨hchain, hvs⟩ := hargs.facts
      refine .of_define hchain rfl ?_
      intro t ht
      simp only [tempUses, List.mem_map] at ht
      obtain ⟨v, hv, rfl⟩ := ht
      exact ⟨(hvs v hv).temp_ge, (hvs v hv).temp_lt⟩

theorem ArgsLower.facts {table : FunctionTable} {ctx ctx' : LoweringContext}
    {types : List (Option Ty)} {args : List Expr} {vs : List Operand} :
    ArgsLower table ctx types args vs ctx' →
      DefChain ctx.tempCount ctx ctx' ∧ ∀ v ∈ vs, ExprFacts ctx ctx' v
  | .nil => ⟨.refl, by simp⟩
  | .cons hv _ hvs => by
      obtain ⟨hchain, hrest⟩ := hvs.facts
      have hv := hv.facts
      have hchain' := hchain.mono hv.chain.tempCount_le
      refine ⟨hv.chain.trans hchain', ?_⟩
      intro u hu
      rcases List.mem_cons.mp hu with rfl | hu
      · exact hv.extend hchain'
      · exact (hv.both (hrest u hu)).2
end

/-- With every parameter type known, checked arguments have these types. -/
theorem ArgsLower.operandTypes {table : FunctionTable} {ctx ctx' : LoweringContext}
    {types : List (Option Ty)} {args : List Expr} {vs : List Operand} :
    ArgsLower table ctx types args vs ctx' → args.length = types.length →
      (∀ type ∈ types, type.isSome) → vs.map (·.type) = types
  | .nil, hlen, _ => (List.eq_nil_of_length_eq_zero hlen.symm).symm
  | @ArgsLower.cons _ _ _ _ types _ _ v _ _ hty hargs, hlen, hsome => by
      cases types with
      | nil => cases hlen
      | cons type types =>
          have htype : v.type = type := by
            rcases hty with hnone | heq
            · have hknown := hsome type List.mem_cons_self
              rw [List.head?_cons, Option.join_some] at hnone
              rw [hnone] at hknown
              cases hknown
            · exact heq.symm
          rw [List.map_cons, htype, hargs.operandTypes (Nat.succ.inj hlen)
            fun t ht => hsome t (List.mem_cons_of_mem _ ht)]
          rfl

/-! ## Contexts grow -/

/-- The names `para cada` gives its own locals. The source text may use them too. -/
def IsHiddenName (name : String) : Prop :=
  ∃ n, name = eachName n ∨ name = iterName n

theorem IsHiddenName.isReserved {name : String} (h : IsHiddenName name) : IsReserved name := by
  obtain ⟨n, rfl | rfl⟩ := h
  · exact ⟨"each_".toList ++ (toString n).toList, by simp [eachName]⟩
  · exact ⟨"iter_".toList ++ (toString n).toList, by simp [iterName]⟩

/-- Every name is mapped to the entry of its slot. -/
def LoweringContext.SlotsOk (ctx : LoweringContext) : Prop :=
  ∀ x loc, ctx.locals x = some loc → loc.name = x ∧ ctx.localList[loc.slot]? = some loc

theorem LoweringContext.SlotsOk.withLocal {ctx : LoweringContext} (h : ctx.SlotsOk) {loc : Local}
    (hslot : loc.slot = ctx.localList.length) : (ctx.withLocal loc).SlotsOk := by
  intro x l hl
  rw [withLocal_locals] at hl
  by_cases hx : x = loc.name
  · subst hx
    rw [Function.update_self] at hl
    cases hl
    exact ⟨rfl, by simp [hslot]⟩
  · rw [Function.update_of_ne hx] at hl
    obtain ⟨hname, hget⟩ := h x l hl
    refine ⟨hname, ?_⟩
    rw [withLocal_localList, List.getElem?_append_left (List.getElem?_eq_some_iff.mp hget).1]
    exact hget

/-- Lowering only appends to a context; only hidden names change their local. -/
structure LoweringContext.Grows (ctx ctx' : LoweringContext) : Prop where
  instructions : ctx.instructions <+: ctx'.instructions
  tempTypes : ctx.tempTypes <+: ctx'.tempTypes
  localList : ctx.localList <+: ctx'.localList
  consts : ctx.consts.Extends ctx'.consts
  labelCount : ctx.labelCount ≤ ctx'.labelCount
  returnType : ctx'.returnType = ctx.returnType
  params : ctx'.params = ctx.params
  name : ctx'.name = ctx.name
  symbol : ctx'.symbol = ctx.symbol
  locals : ∀ {x loc}, ¬ IsHiddenName x → ctx.locals x = some loc → ctx'.locals x = some loc
  slotsOk : ctx.SlotsOk → ctx'.SlotsOk

namespace LoweringContext

theorem Grows.refl (ctx : LoweringContext) : ctx.Grows ctx :=
  ⟨List.prefix_rfl, List.prefix_rfl, List.prefix_rfl, .refl _, Nat.le_refl _, rfl, rfl, rfl, rfl,
    fun _ h => h, id⟩

theorem Grows.trans {a b c : LoweringContext} (h : a.Grows b) (h' : b.Grows c) : a.Grows c :=
  ⟨h.instructions.trans h'.instructions, h.tempTypes.trans h'.tempTypes,
    h.localList.trans h'.localList, h.consts.trans h'.consts, h.labelCount.trans h'.labelCount,
    h'.returnType.trans h.returnType, h'.params.trans h.params, h'.name.trans h.name,
    h'.symbol.trans h.symbol, fun hx hloc => h'.locals hx (h.locals hx hloc),
    h'.slotsOk ∘ h.slotsOk⟩

theorem Grows.withInstr {a b : LoweringContext} (h : a.Grows b) (inst : Instr) :
    a.Grows (b.withInstr inst) :=
  { h with instructions := h.instructions.trans (List.prefix_append _ _) }

theorem Grows.withLocal {a b : LoweringContext} (h : a.Grows b) {loc : Local}
    (hslot : loc.slot = b.localList.length)
    (hloc : IsHiddenName loc.name ∨ b.locals loc.name = none) : a.Grows (b.withLocal loc) :=
  { h with
    slotsOk := fun ha => (h.slotsOk ha).withLocal hslot
    localList := h.localList.trans (List.prefix_append _ _)
    locals := by
      intro x l hx hl
      have hbl := h.locals hx hl
      have hne : x ≠ loc.name := by
        rintro rfl
        rcases hloc with hhid | hnone
        · exact hx hhid
        · rw [hnone] at hbl
          cases hbl
      rw [withLocal_locals, Function.update_of_ne hne]
      exact hbl }

theorem Grows.withLabels {a b : LoweringContext} (h : a.Grows b) (n : ℕ) :
    a.Grows (b.withLabels n) :=
  { h with labelCount := h.labelCount.trans (Nat.le_add_right _ _) }

theorem Grows.define {a b : LoweringContext} (h : a.Grows b) (type : Option Ty) (inst : Instr) :
    a.Grows (b.define type inst) :=
  { h with
    instructions := h.instructions.trans (List.prefix_append _ _)
    tempTypes := h.tempTypes.trans (List.prefix_append _ _) }

theorem Grows.withConsts {a b : LoweringContext} (h : a.Grows b) {consts : ConstTables}
    (hc : b.consts.Extends consts) : a.Grows (b.withConsts consts) :=
  { h with consts := h.consts.trans hc }

theorem Grows.forEachCond (ctx : LoweringContext) (v : Operand) :
    (ctx.forEachStart v).Grows (ctx.forEachCond v) :=
  ((((Grows.refl _).define _ _).define _ _).define _ _).define _ _

variable {base ctx : LoweringContext} (h : base.Grows ctx)
include h

theorem Grows.tempCount : base.tempCount ≤ ctx.tempCount := h.tempTypes.length_le

theorem Grows.localCount : base.localList.length ≤ ctx.localList.length := h.localList.length_le

theorem Grows.length : base.instructions.length ≤ ctx.instructions.length :=
  h.instructions.length_le

theorem Grows.ifHead (t : Operand) : base.Grows (ctx.ifHead t) :=
  ((h.withLabels 3).withInstr _).withInstr _

theorem Grows.ifMiddle (c : LoweringContext) : base.Grows (c.ifMiddle ctx) :=
  (h.withInstr _).withInstr _

theorem Grows.ifTail (c : LoweringContext) : base.Grows (c.ifTail ctx) := h.withInstr _

theorem Grows.whileHead : base.Grows ctx.whileHead := (h.withLabels 3).withInstr _

theorem Grows.whileTest (c : LoweringContext) (t : Operand) : base.Grows (c.whileTest ctx t) :=
  (h.withInstr _).withInstr _

theorem Grows.whileTail (c : LoweringContext) : base.Grows (c.whileTail ctx) :=
  (h.withInstr _).withInstr _

theorem Grows.forEachInit (v : Operand) : base.Grows (ctx.forEachInit v) :=
  ((((h.withLocal rfl (.inl ⟨_, .inl rfl⟩)).withInstr _).withLocal (by simp [iterLocal])
    (.inl ⟨_, .inr rfl⟩)).define _ _).withInstr _ |>.withLabels 3

theorem Grows.forEachStart (v : Operand) : base.Grows (ctx.forEachStart v) :=
  (h.forEachInit v).withInstr _

theorem Grows.forEachTest (v : Operand) : base.Grows (ctx.forEachTest v) :=
  (((h.forEachStart v).trans (Grows.forEachCond ctx v)).withInstr _).withInstr _

theorem Grows.forEachItem (c : LoweringContext) (v : Operand) (loc : Local) :
    base.Grows (c.forEachItem ctx v loc) :=
  (h.define _ _).withInstr _

theorem Grows.forEachStep (c : LoweringContext) : base.Grows (c.forEachStep ctx) :=
  ((h.define _ _).define _ _).withInstr _

theorem Grows.forEachTail (c : LoweringContext) : base.Grows (c.forEachTail ctx) :=
  ((h.forEachStep c).withInstr _).withInstr _

end LoweringContext

theorem DefChain.grows {lo : ℕ} {ctx ctx' : LoweringContext} (h : DefChain lo ctx ctx') :
    ctx.Grows ctx' := by
  induction h with
  | refl => exact .refl _
  | step _ hs ih => exact (ih.withConsts hs.extends_consts).define _ _

theorem ExprLowers.grows {table : FunctionTable} {ctx ctx' : LoweringContext} {e : Expr}
    {v : Operand} (h : ExprLowers table ctx e v ctx') : ctx.Grows ctx' := h.facts.chain.grows

theorem EnsuresLocal.grows {ctx ctx' : LoweringContext} {name : String} {type : Option Ty}
    {loc : Local} (h : EnsuresLocal ctx name type loc ctx') : ctx.Grows ctx' := by
  cases h with
  | existing _ _ => exact .refl _
  | fresh hnone => exact (LoweringContext.Grows.refl ctx).withLocal rfl (.inr hnone)

theorem DefaultLowers.facts {table : FunctionTable} {ctx ctx' : LoweringContext}
    {type : Option Ty} {v : Operand} (h : DefaultLowers table ctx type v ctx') :
    ExprFacts ctx ctx' v := by
  cases h with
  | array _ => exact .of_define .refl rfl (by simp [tempUses])
  | literal _ he => exact he.facts

mutual
theorem StmtLowers.grows {table : FunctionTable} {ctx ctx' : LoweringContext} {s : Stmt} :
    StmtLowers table ctx s ctx' → ctx.Grows ctx'
  | .define he hloc => (he.grows.trans hloc.grows).withInstr _
  | .assign _ he _ => he.grows.withInstr _
  | .show he => he.grows.withInstr _
  | .exprStmt he => he.grows
  | .ret he _ => he.grows.withInstr _
  | .retDefault hv _ => hv.facts.chain.grows.withInstr _
  | .ifElse ht _ hthen helse =>
      ((((ht.grows.ifHead _).trans hthen.grows).ifMiddle _).trans helse.grows).ifTail _
  | .while ht _ hbody =>
      ((((LoweringContext.Grows.refl _).whileHead.trans ht.grows).whileTest _ _).trans
        hbody.grows).whileTail _
  | .forEach hv hloc hbody =>
      ((((hv.grows.forEachTest _).trans hloc.grows).forEachItem _ _ _).trans
        hbody.grows).forEachTail _

theorem StmtsLower.grows {table : FunctionTable} {ctx ctx' : LoweringContext}
    {body : List Stmt} : StmtsLower table ctx body ctx' → ctx.Grows ctx'
  | .nil => .refl _
  | .cons hs hbody => hs.grows.trans hbody.grows
end

/-! ## Labels -/

/-- The labels placed in a code, in order. -/
def labelsOf (code : List Instr) : List Label :=
  code.filterMap fun
    | .label name => some name
    | _ => none

@[simp] theorem labelsOf_append (a b : List Instr) : labelsOf (a ++ b) = labelsOf a ++ labelsOf b :=
  List.filterMap_append

/-- The labels placed between two contexts have fresh and pairwise distinct indices. -/
def NewLabels (ctx ctx' : LoweringContext) : Prop :=
  ∃ new : List Label, labelsOf ctx'.instructions = labelsOf ctx.instructions ++ new ∧
    (new.map (·.index)).Nodup ∧
    ∀ l ∈ new, ctx.labelCount ≤ l.index ∧ l.index < ctx'.labelCount

theorem NewLabels.refl (ctx : LoweringContext) : NewLabels ctx ctx :=
  ⟨[], by simp, by simp, by simp⟩

/-- No label placed: any change of context that keeps the labels of the code. -/
theorem NewLabels.of_eq {ctx ctx' : LoweringContext}
    (h : labelsOf ctx'.instructions = labelsOf ctx.instructions) : NewLabels ctx ctx' :=
  ⟨[], by simp [h], by simp, by simp⟩

theorem NewLabels.trans {a b c : LoweringContext} (h : NewLabels a b) (h' : NewLabels b c)
    (hab : a.labelCount ≤ b.labelCount) (hbc : b.labelCount ≤ c.labelCount) : NewLabels a c := by
  obtain ⟨new, heq, hnd, hrange⟩ := h
  obtain ⟨new', heq', hnd', hrange'⟩ := h'
  refine ⟨new ++ new', by rw [heq', heq, List.append_assoc], ?_, ?_⟩
  · rw [List.map_append, List.nodup_append]
    refine ⟨hnd, hnd', ?_⟩
    intro i hi j hj hij
    obtain ⟨l, hl, rfl⟩ := List.mem_map.mp hi
    obtain ⟨l', hl', rfl⟩ := List.mem_map.mp hj
    have h₁ := (hrange l hl).2
    have h₂ := (hrange' l' hl').1
    omega
  · intro l hl
    rcases List.mem_append.mp hl with hl | hl
    · have := hrange l hl
      omega
    · have := hrange' l hl
      omega

theorem labelsOf_define (ctx : LoweringContext) (type : Option Ty) {inst : Instr} {t : ℕ}
    (h : tempDefs inst = [t]) :
    labelsOf (ctx.define type inst).instructions = labelsOf ctx.instructions := by
  cases inst <;> simp_all [labelsOf, tempDefs]

theorem DefChain.labelsOf {lo : ℕ} {ctx ctx' : LoweringContext} (h : DefChain lo ctx ctx') :
    labelsOf ctx'.instructions = labelsOf ctx.instructions := by
  induction h with
  | refl => rfl
  | step _ hs ih => rw [labelsOf_define _ _ hs.defs, LoweringContext.withConsts_instructions, ih]

/-- The labels of a compound statement: three of its own around those of its parts. -/
theorem NewLabels.compound {ctx ctx' : LoweringContext} (base a b a' b' : LoweringContext)
    {k₀ k₁ k₂ : LabelKind}
    (hbase : base.labelCount = ctx.labelCount)
    (ha : labelsOf a.instructions = labelsOf ctx.instructions ++ [base.labelAt k₀ 0])
    (hac : a.labelCount = base.labelCount + 3) (hab : NewLabels a b)
    (hbc : a.labelCount ≤ b.labelCount)
    (hb : labelsOf a'.instructions = labelsOf b.instructions ++ [base.labelAt k₁ 1])
    (hb' : a'.labelCount = b.labelCount) (hab' : NewLabels a' b')
    (hbc' : a'.labelCount ≤ b'.labelCount)
    (hc : labelsOf ctx'.instructions = labelsOf b'.instructions ++ [base.labelAt k₂ 2])
    (hc' : ctx'.labelCount = b'.labelCount) : NewLabels ctx ctx' := by
  obtain ⟨new, heq, hnd, hrange⟩ := hab
  obtain ⟨new', heq', hnd', hrange'⟩ := hab'
  refine ⟨base.labelAt k₀ 0 :: new ++ base.labelAt k₁ 1 :: new' ++ [base.labelAt k₂ 2], ?_, ?_, ?_⟩
  · rw [hc, heq', hb, heq, ha]
    simp
  · have h₁ : ∀ l ∈ new, base.labelCount + 3 ≤ l.index ∧ l.index < b.labelCount := by
      intro l hl
      have := hrange l hl
      omega
    have h₂ : ∀ l ∈ new', b.labelCount ≤ l.index := by
      intro l hl
      have := hrange' l hl
      omega
    simp only [LoweringContext.labelAt, List.cons_append, List.map_cons, List.map_append,
      List.nodup_cons, List.nodup_append, List.mem_append, List.mem_cons, List.mem_map,
      List.map_nil, List.not_mem_nil]
    grind
  · intro l hl
    simp only [LoweringContext.labelAt, List.cons_append, List.mem_cons, List.mem_append,
      List.not_mem_nil, or_false] at hl
    rcases hl with rfl | (hl | rfl | hl) | rfl
    · simp only
      omega
    · have := hrange l hl
      omega
    · simp only
      omega
    · have := hrange' l hl
      omega
    · simp only
      omega

theorem EnsuresLocal.instructions {ctx ctx' : LoweringContext} {name : String}
    {type : Option Ty} {loc : Local} (h : EnsuresLocal ctx name type loc ctx') :
    ctx'.instructions = ctx.instructions := by
  cases h <;> rfl

theorem DefChain.labelCount {lo : ℕ} {ctx ctx' : LoweringContext} (h : DefChain lo ctx ctx') :
    ctx'.labelCount = ctx.labelCount := by
  induction h with
  | refl => rfl
  | step _ _ ih => exact ih

theorem DefChain.locals {lo : ℕ} {ctx ctx' : LoweringContext} (h : DefChain lo ctx ctx') :
    ctx'.locals = ctx.locals ∧ ctx'.localList = ctx.localList := by
  induction h with
  | refl => exact ⟨rfl, rfl⟩
  | step _ _ ih => exact ih

theorem EnsuresLocal.labelCount {ctx ctx' : LoweringContext} {name : String} {type : Option Ty}
    {loc : Local} (h : EnsuresLocal ctx name type loc ctx') : ctx'.labelCount = ctx.labelCount := by
  cases h <;> rfl

theorem NewLabels.of_chain {lo : ℕ} {ctx ctx₁ ctx' : LoweringContext} (h : DefChain lo ctx ctx₁)
    (h' : labelsOf ctx'.instructions = labelsOf ctx₁.instructions) : NewLabels ctx ctx' :=
  .of_eq (h'.trans h.labelsOf)

section LabelsOf

variable (base ctx : LoweringContext) (v : Operand)

theorem labelsOf_ifHead : labelsOf (base.ifHead v).instructions =
    labelsOf base.instructions ++ [base.labelAt .thenL 0] := by
  simp [LoweringContext.ifHead, labelsOf]

theorem labelsOf_ifMiddle : labelsOf (base.ifMiddle ctx).instructions =
    labelsOf ctx.instructions ++ [base.labelAt .elseL 1] := by
  simp [LoweringContext.ifMiddle, labelsOf]

theorem labelsOf_ifTail : labelsOf (base.ifTail ctx).instructions =
    labelsOf ctx.instructions ++ [base.labelAt .ifend 2] := by
  simp [LoweringContext.ifTail, labelsOf]

theorem labelsOf_whileHead : labelsOf base.whileHead.instructions =
    labelsOf base.instructions ++ [base.labelAt .loop 0] := by
  simp [LoweringContext.whileHead, labelsOf]

theorem labelsOf_whileTest : labelsOf (base.whileTest ctx v).instructions =
    labelsOf ctx.instructions ++ [base.labelAt .body 1] := by
  simp [LoweringContext.whileTest, labelsOf]

theorem labelsOf_whileTail : labelsOf (base.whileTail ctx).instructions =
    labelsOf ctx.instructions ++ [base.labelAt .loopend 2] := by
  simp [LoweringContext.whileTail, labelsOf]

theorem labelsOf_forEachStart : labelsOf (base.forEachStart v).instructions =
    labelsOf base.instructions ++ [base.labelAt .foreach 0] := by
  simp [LoweringContext.forEachStart, LoweringContext.forEachInit, labelsOf]

theorem labelsOf_forEachTest : labelsOf (base.forEachTest v).instructions =
    labelsOf (base.forEachStart v).instructions ++ [base.labelAt .foreachBody 1] := by
  simp [LoweringContext.forEachTest, LoweringContext.forEachCond, labelsOf]

theorem labelsOf_forEachItem (loc : Local) :
    labelsOf (base.forEachItem ctx v loc).instructions = labelsOf ctx.instructions := by
  simp [LoweringContext.forEachItem, labelsOf]

theorem labelsOf_forEachTail : labelsOf (base.forEachTail ctx).instructions =
    labelsOf ctx.instructions ++ [base.labelAt .foreachEnd 2] := by
  simp [LoweringContext.forEachTail, LoweringContext.forEachStep, labelsOf]

theorem forEachTest_labelCount :
    (base.forEachTest v).labelCount = (base.forEachStart v).labelCount := by
  simp only [LoweringContext.forEachTest, LoweringContext.forEachCond,
    LoweringContext.withInstr_labelCount,
    LoweringContext.define_labelCount]

theorem forEachItem_labelCount (loc : Local) :
    (base.forEachItem ctx v loc).labelCount = ctx.labelCount := by
  simp only [LoweringContext.forEachItem, LoweringContext.withInstr_labelCount,
    LoweringContext.define_labelCount]

end LabelsOf

mutual
theorem StmtLowers.newLabels {table : FunctionTable} {ctx ctx' : LoweringContext} {s : Stmt} :
    StmtLowers table ctx s ctx' → NewLabels ctx ctx'
  | .define he hloc => .of_chain he.facts.chain (by simp [labelsOf, hloc.instructions])
  | .assign _ he _ => .of_chain he.facts.chain (by simp [labelsOf])
  | .show he => .of_chain he.facts.chain (by simp [labelsOf])
  | .exprStmt he => .of_chain he.facts.chain rfl
  | .ret he _ => .of_chain he.facts.chain (by simp [labelsOf])
  | .retDefault hv _ => .of_chain hv.facts.chain (by simp [labelsOf])
  | @StmtLowers.ifElse _ _ base ctx₂ ctx₃ _ t _ _ ht _ hthen helse =>
      .compound base (base.ifHead t) ctx₂ (base.ifMiddle ctx₂) ctx₃ ht.facts.chain.labelCount
        (by rw [labelsOf_ifHead, ht.facts.chain.labelsOf]) (by simp [LoweringContext.ifHead])
        hthen.newLabels hthen.grows.labelCount (labelsOf_ifMiddle _ _)
        (by simp [LoweringContext.ifMiddle])
        helse.newLabels helse.grows.labelCount (labelsOf_ifTail _ _)
        (by simp [LoweringContext.ifTail])
  | @StmtLowers.while _ _ ctx₁ ctx₂ _ t _ ht _ hbody =>
      .compound ctx ctx.whileHead ctx₁ (ctx.whileTest ctx₁ t) ctx₂ rfl (labelsOf_whileHead _)
        (by simp [LoweringContext.whileHead]) (.of_eq ht.facts.chain.labelsOf) ht.grows.labelCount
        (labelsOf_whileTest _ _ _) (by simp [LoweringContext.whileTest])
        hbody.newLabels hbody.grows.labelCount (labelsOf_whileTail _ _)
        (by simp [LoweringContext.whileTail])
  | @StmtLowers.forEach _ _ base ctx₁ ctx₂ _ _ v loc _ hv hloc hbody =>
      .compound base (base.forEachStart v) (base.forEachStart v) (base.forEachItem ctx₁ v loc) ctx₂
        hv.facts.chain.labelCount
        (by rw [labelsOf_forEachStart, hv.facts.chain.labelsOf])
        (by simp [LoweringContext.forEachStart, LoweringContext.forEachInit]) (.refl _)
          (Nat.le_refl _)
        (by rw [labelsOf_forEachItem, hloc.instructions, labelsOf_forEachTest])
        (by rw [forEachItem_labelCount, hloc.labelCount, forEachTest_labelCount])
        hbody.newLabels hbody.grows.labelCount (labelsOf_forEachTail _ _)
        (by simp [LoweringContext.forEachTail, LoweringContext.forEachStep])

theorem StmtsLower.newLabels {table : FunctionTable} {ctx ctx' : LoweringContext}
    {body : List Stmt} : StmtsLower table ctx body ctx' → NewLabels ctx ctx'
  | .nil => .refl _
  | .cons hs hbody =>
      hs.newLabels.trans hbody.newLabels hs.grows.labelCount hbody.grows.labelCount
end

/-! ## The code of the compound statements -/

namespace LoweringContext

variable (base ctx : LoweringContext) (t : Operand)

theorem ifHead_instructions : (base.ifHead t).instructions = base.instructions ++
    [Instr.br t.temp (base.labelAt .thenL 0) (base.labelAt .elseL 1),
      .label (base.labelAt .thenL 0)] := by
  simp [ifHead]

theorem ifMiddle_instructions : (base.ifMiddle ctx).instructions = ctx.instructions ++
    [Instr.jmp (base.labelAt .ifend 2), .label (base.labelAt .elseL 1)] := by
  simp [ifMiddle]

theorem ifTail_instructions : (base.ifTail ctx).instructions = ctx.instructions ++
    [Instr.label (base.labelAt .ifend 2)] := rfl

theorem whileHead_instructions : base.whileHead.instructions = base.instructions ++
    [Instr.label (base.labelAt .loop 0)] := rfl

theorem whileTest_instructions : (base.whileTest ctx t).instructions = ctx.instructions ++
    [Instr.br t.temp (base.labelAt .body 1) (base.labelAt .loopend 2),
      .label (base.labelAt .body 1)] := by
  simp [whileTest]

theorem whileTail_instructions : (base.whileTail ctx).instructions = ctx.instructions ++
    [Instr.jmp (base.labelAt .loop 0), .label (base.labelAt .loopend 2)] := by
  simp [whileTail]

theorem forEachTest_instructions : (base.forEachTest t).instructions =
    (base.forEachCond t).instructions ++
      [Instr.br (base.tempCount + 4) (base.labelAt .foreachBody 1) (base.labelAt .foreachEnd 2),
        .label (base.labelAt .foreachBody 1)] := by
  simp [forEachTest]

@[simp] theorem ifHead_tempCount : (base.ifHead t).tempCount = base.tempCount := by
  simp [ifHead]

@[simp] theorem ifMiddle_tempCount : (base.ifMiddle ctx).tempCount = ctx.tempCount := by
  simp [ifMiddle]

@[simp] theorem ifTail_tempCount : (base.ifTail ctx).tempCount = ctx.tempCount := by
  simp [ifTail]

@[simp] theorem whileHead_tempCount : base.whileHead.tempCount = base.tempCount := by
  simp [whileHead]

@[simp] theorem whileTest_tempCount : (base.whileTest ctx t).tempCount = ctx.tempCount := by
  simp [whileTest]

@[simp] theorem whileTail_tempCount : (base.whileTail ctx).tempCount = ctx.tempCount := by
  simp [whileTail]

@[simp] theorem forEachInit_tempCount : (base.forEachInit t).tempCount = base.tempCount + 1 := by
  simp [forEachInit]

@[simp] theorem forEachCond_tempCount : (base.forEachCond t).tempCount = base.tempCount + 5 := by
  simp [forEachCond]

@[simp] theorem forEachItem_tempCount (loc : Local) :
    (base.forEachItem ctx t loc).tempCount = ctx.tempCount + 1 := by
  simp [forEachItem]

@[simp] theorem forEachStep_tempCount : (base.forEachStep ctx).tempCount = ctx.tempCount + 2 := by
  simp [forEachStep]

@[simp] theorem forEachTail_tempCount : (base.forEachTail ctx).tempCount = ctx.tempCount + 2 := by
  simp [forEachTail, forEachStep]

end LoweringContext

theorem LoweringContext.forEachInit_instructions (base : LoweringContext) (v : Operand) :
    (base.forEachInit v).instructions = base.instructions ++
      [Instr.storeLocal base.localList.length v.type v.temp, .constInt base.tempCount 0 (some .i64),
        .storeLocal (base.localList.length + 1) (some .i64) base.tempCount] := by
  simp [forEachInit]

theorem LoweringContext.forEachStart_instructions (base : LoweringContext) (v : Operand) :
    (base.forEachStart v).instructions = base.instructions ++
      [Instr.storeLocal base.localList.length v.type v.temp, .constInt base.tempCount 0 (some .i64),
        .storeLocal (base.localList.length + 1) (some .i64) base.tempCount,
        .label (base.labelAt .foreach 0)] := by
  simp [forEachStart, forEachInit]

theorem LoweringContext.forEachCond_instructions (base : LoweringContext) (v : Operand) :
    (base.forEachCond v).instructions = (base.forEachStart v).instructions ++
      [Instr.loadLocal (base.tempCount + 1) (base.localList.length + 1) (some .i64),
        .loadLocal (base.tempCount + 2) base.localList.length v.type,
        .callRuntime (base.tempCount + 3) (lengthFn v.type) [base.tempCount + 2] (some .i64),
        .cmp (base.tempCount + 4) .lt (base.tempCount + 1) (.temp (base.tempCount + 3))] := by
  simp [forEachCond]

theorem LoweringContext.forEachItem_instructions (base ctx : LoweringContext) (v : Operand)
    (loc : Local) :
    (base.forEachItem ctx v loc).instructions = ctx.instructions ++
      [Instr.callRuntime (base.tempCount + 5) (itemFn v.type loc.type)
        [base.tempCount + 2, base.tempCount + 1] loc.type,
        .storeLocal loc.slot loc.type (base.tempCount + 5)] := by
  simp [forEachItem]

theorem LoweringContext.forEachStep_instructions (base ctx : LoweringContext) :
    (base.forEachStep ctx).instructions = ctx.instructions ++
      [Instr.constInt ctx.tempCount 1 (some .i64),
        .bin (ctx.tempCount + 1) .add (base.tempCount + 1) ctx.tempCount,
        .storeLocal (base.localList.length + 1) (some .i64) (ctx.tempCount + 1)] := by
  simp [forEachStep]

theorem LoweringContext.forEachTail_instructions (base ctx : LoweringContext) :
    (base.forEachTail ctx).instructions = (base.forEachStep ctx).instructions ++
      [Instr.jmp (base.labelAt .foreach 0), .label (base.labelAt .foreachEnd 2)] := by
  simp [forEachTail]

theorem LoweringContext.forEachTest_localList (base : LoweringContext) (v : Operand) :
    (base.forEachTest v).localList = base.localList ++ [base.eachLocal v, base.iterLocal] := by
  simp [forEachTest, forEachCond, forEachStart, forEachInit]

/-! ## Whole bodies -/

theorem addParams_fields : ∀ (ctx : LoweringContext) (ps : List (String × Option Ty)),
    (addParams ctx ps).instructions = ctx.instructions ∧
      (addParams ctx ps).returnType = ctx.returnType ∧ (addParams ctx ps).symbol = ctx.symbol ∧
      (addParams ctx ps).consts = ctx.consts ∧ (addParams ctx ps).tempTypes = ctx.tempTypes
  | _, [] => ⟨rfl, rfl, rfl, rfl, rfl⟩
  | ctx, _ :: ps => addParams_fields (ctx.withParam _) ps

theorem newContext_slotsOk (consts : ConstTables) (name : String) (type : Option Ty)
    (ps : List (String × Option Ty)) : (newContext consts name type ps).SlotsOk := by
  suffices h : ∀ (ps : List (String × Option Ty)) (ctx : LoweringContext), ctx.SlotsOk →
      (addParams ctx ps).SlotsOk from h ps _ nofun
  intro ps
  induction ps with
  | nil => exact fun _ h => h
  | cons p ps ih => exact fun ctx h => ih _ (h.withLocal rfl)

theorem BodyLowers.grows {table : FunctionTable} {start final : LoweringContext}
    {body : List Stmt} (h : BodyLowers table start body final) : start.Grows final := by
  cases h with
  | returns hs _ => exact hs.grows
  | fallsOff hs _ hv => exact (hs.grows.trans hv.facts.chain.grows).withInstr _

theorem BodyLowers.newLabels {table : FunctionTable} {start final : LoweringContext}
    {body : List Stmt} (h : BodyLowers table start body final) : NewLabels start final := by
  cases h with
  | returns hs _ => exact hs.newLabels
  | fallsOff hs _ hv =>
      refine hs.newLabels.trans (.of_chain hv.facts.chain ?_) hs.grows.labelCount
        hv.facts.chain.labelCount.ge
      simp [labelsOf]

/-- No label is placed twice in a function. -/
theorem BodyLowers.labels_nodup {table : FunctionTable} {start final : LoweringContext}
    {body : List Stmt} (h : BodyLowers table start body final) (hnil : start.instructions = []) :
    (labelsOf final.instructions).Nodup := by
  obtain ⟨new, heq, hnd, _⟩ := h.newLabels
  rw [heq, hnil]
  exact hnd.of_map _

/-! ## Whole units -/

theorem FunctionsLower.extends_consts {table : FunctionTable} {fns : List FunctionDecl}
    {consts consts' : ConstTables} {lowered : List IRFunction}
    (h : FunctionsLower table consts fns lowered consts') : consts.Extends consts' := by
  induction h with
  | nil => exact .refl _
  | @cons consts _ fn _ _ ctx _ hbody _ ih =>
      have hstart : (startContext table consts fn).consts = consts := (addParams_fields _ _).2.2.2.1
      have := hbody.grows.consts
      rw [hstart] at this
      exact this.trans ih

/-- The functions of the program and their code. -/
theorem FunctionsLower.origin {table : FunctionTable} {consts consts' : ConstTables}
    {fns : List FunctionDecl} {lowered : List IRFunction}
    (h : FunctionsLower table consts fns lowered consts') :
    ∀ ir ∈ lowered, ∃ fn ∈ fns, ∃ consts₁ final, fn.params.length ≤ maxParams ∧
      BodyLowers table (startContext table consts₁ fn) fn.body final ∧ ir = final.toFunction := by
  induction h with
  | nil => simp
  | @cons consts _ fn fns _ ctx hparams hbody _ ih =>
      intro ir hir
      rcases List.mem_cons.mp hir with rfl | hir
      · exact ⟨fn, List.mem_cons_self, consts, ctx, hparams, hbody, rfl⟩
      · obtain ⟨g, hg, hrest⟩ := ih ir hir
        exact ⟨g, List.mem_cons_of_mem _ hg, hrest⟩

/-- Every function of a unit is the code of some body lowered in a new context. -/
theorem ProgramLowers.exists_body {program : Program} {table : FunctionTable} {unit : IRUnit}
    (h : ProgramLowers program table unit) : ∀ ir ∈ unit.functions,
    ∃ consts name returnType params body final,
      BodyLowers table (newContext consts name returnType params) body final ∧
      ir = final.toFunction := by
  cases h with
  | intro hfns hbody =>
      intro ir hir
      rcases List.mem_append.mp hir with hir | hir
      · obtain ⟨fn, _, consts, final, _, hfn, rfl⟩ := hfns.origin ir hir
        exact ⟨consts, _, _, _, _, final, hfn, rfl⟩
      · exact ⟨_, _, _, _, _, _, hbody, List.mem_singleton.mp hir⟩

/-! ## Positions in the code -/

/-- With no label placed twice, a jump goes to the position of its label. -/
theorem labelIndex_of_nodup {code : List Instr} {l : Label} (hnd : (labelsOf code).Nodup) {i : ℕ}
    (h : code[i]? = some (.label l)) : labelIndex code l = some i := by
  induction code generalizing i with
  | nil => cases h
  | cons inst code ih =>
      rw [labelIndex, List.findIdx?_cons]
      cases i with
      | zero =>
          cases h
          simp
      | succ i =>
          rw [List.getElem?_cons_succ] at h
          have hmem : l ∈ labelsOf code :=
            List.mem_filterMap.mpr ⟨_, List.mem_of_getElem? h, rfl⟩
          have hne : inst ≠ .label l := by
            rintro rfl
            exact (List.nodup_cons.mp (show (l :: labelsOf code).Nodup from hnd)).1 hmem
          have hnd' : (labelsOf code).Nodup :=
            hnd.sublist ((List.sublist_cons_self inst code).filterMap _)
          have := ih hnd' h
          rw [labelIndex] at this
          simp [hne, this]

theorem getElem?_of_code {a code : List Instr} {inst : Instr} (h : a ++ [inst] <+: code) :
    code[a.length]? = some inst := by
  obtain ⟨rest, rfl⟩ := h
  simp

end GatoCore.Native
