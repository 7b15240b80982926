import GatoCore.Native.Relowering
import GatoCore.Native.SeenTypes

/-!
# The order of the declarations

Two orders of the functions of a program that are both accepted give every function the same
types. One of them may be accepted and the other not: a call that is visited too early commits the
types of its arguments as numbers.
-/

namespace GatoCore.Native

open GatoCore.Lib

/-- `analyzeProgram` ends with the table, and `lowerProgram` lowers the program under it. -/
def Accepts (program : Program) (table : FunctionTable) : Prop :=
  analyzeProgram program = .ok table ∧ ∃ unit, lowerProgram program table = .ok unit

/-! ## The first and the last table -/

/-- The table before the first pass has no types. -/
theorem declareFunctions_untyped : ∀ {fns : List FunctionDecl} {t t' : FunctionTable},
    declareFunctions t fns = .ok t' →
    (∀ m ∈ t, (∀ type ∈ m.paramTypes, type = none) ∧ m.returnType = none) →
    ∀ m ∈ t', (∀ type ∈ m.paramTypes, type = none) ∧ m.returnType = none
  | [], _, _, h, ht => by
      cases h
      exact ht
  | fn :: fns, t, _, h, ht => by
      rw [declareFunctions] at h
      split at h
      · cases h
      · refine declareFunctions_untyped h ?_
        intro m hm
        rcases List.mem_append.mp hm with hm | hm
        · exact ht m hm
        · rw [List.mem_singleton.mp hm]
          refine ⟨?_, rfl⟩
          intro type htype
          obtain ⟨_, -, rfl⟩ := List.mem_map.mp htype
          rfl

theorem paramType_of_untyped {t : FunctionTable}
    (h : ∀ m ∈ t, (∀ type ∈ m.paramTypes, type = none) ∧ m.returnType = none) (name : String)
    (i : ℕ) : t.paramType name i = none := by
  rw [FunctionTable.paramType]
  cases hlook : t.lookup name with
  | none => rfl
  | some m =>
      rw [Option.bind_some]
      cases hget : m.paramTypes[i]? with
      | none => rfl
      | some type =>
          exact (h m (List.mem_of_find?_eq_some hlook)).1 type (List.mem_of_getElem? hget)

theorem returnType_of_untyped {t : FunctionTable}
    (h : ∀ m ∈ t, (∀ type ∈ m.paramTypes, type = none) ∧ m.returnType = none) (name : String) :
    t.returnType name = none := by
  rw [FunctionTable.returnType]
  cases hlook : t.lookup name with
  | none => rfl
  | some m => exact (h m (List.mem_of_find?_eq_some hlook)).2

theorem guesses_of_untyped {t : FunctionTable}
    (h : ∀ m ∈ t, (∀ type ∈ m.paramTypes, type = none) ∧ m.returnType = none)
    (table : FunctionTable) : t.Guesses table := by
  constructor
  · intro name i
    rw [paramType_of_untyped h]
    exact .of_none _
  · intro name
    rw [returnType_of_untyped h]
    exact .of_none _

theorem lookup_finalizeTable (t : FunctionTable) (name : String) :
    (finalizeTable t).lookup name = (t.lookup name).map fun m =>
      { m with
        paramTypes := m.paramTypes.map fun type => some (type.getD defaultParamType)
        returnType := some (m.returnType.getD defaultReturnType) } := by
  rw [FunctionTable.lookup, finalizeTable, List.find?_map, FunctionTable.lookup]
  rfl

/-- A type of the last table is the one known before it, or a number. -/
theorem paramType_finalizeTable (t : FunctionTable) (name : String) (i : ℕ) :
    (finalizeTable t).paramType name i = none ∧ t.paramType name i = none ∨
      (finalizeTable t).paramType name i = some ((t.paramType name i).getD .i64) := by
  rw [FunctionTable.paramType, FunctionTable.paramType, lookup_finalizeTable]
  cases t.lookup name with
  | none => exact .inl ⟨rfl, rfl⟩
  | some m =>
      rw [Option.map_some, Option.bind_some, Option.bind_some, List.getElem?_map]
      cases m.paramTypes[i]? with
      | none => exact .inl ⟨rfl, rfl⟩
      | some type => exact .inr rfl

theorem returnType_finalizeTable (t : FunctionTable) (name : String) :
    (finalizeTable t).returnType name = none ∧ t.returnType name = none ∨
      (finalizeTable t).returnType name = some ((t.returnType name).getD .i64) := by
  rw [FunctionTable.returnType, FunctionTable.returnType, lookup_finalizeTable]
  cases t.lookup name with
  | none => exact .inl ⟨rfl, rfl⟩
  | some m => exact .inr rfl

theorem kept_finalizeTable (t : FunctionTable) : t.Kept (finalizeTable t) := by
  constructor
  · intro name i τ hτ
    rcases paramType_finalizeTable t name i with ⟨-, h⟩ | h
    · rw [hτ] at h
      cases h
    · rw [h, hτ]
      rfl
  · intro name τ hτ
    rcases returnType_finalizeTable t name with ⟨-, h⟩ | h
    · rw [hτ] at h
      cases h
    · rw [h, hτ]
      rfl

theorem guesses_finalizeTable {t table : FunctionTable} (h : t.Guesses table) :
    (finalizeTable t).Guesses table := by
  constructor
  · intro name i
    rcases paramType_finalizeTable t name i with ⟨heq, -⟩ | heq
    · rw [heq]
      exact .of_none _
    · rw [heq]
      exact (h.params name i).default
  · intro name
    rcases returnType_finalizeTable t name with ⟨heq, -⟩ | heq
    · rw [heq]
      exact .of_none _
    · rw [heq]
      exact (h.returns name).default

/-- Entries of one function are equal when no two of their types differ. -/
theorem entry_eq {table table' : FunctionTable} (hT : TableTyped table) (hT' : TableTyped table')
    {name : String} {entry entry' : FnMeta} (hlook : table.lookup name = some entry)
    (hlook' : table'.lookup name = some entry')
    (hlen : entry'.paramTypes.length = entry.paramTypes.length)
    (hparams : ∀ i τ τ', table.paramType name i = some τ → table'.paramType name i = some τ' →
      τ = τ')
    (hreturn : ∀ ρ ρ', table.returnType name = some ρ → table'.returnType name = some ρ' →
      ρ = ρ') : entry' = entry := by
  have hname : entry'.name = entry.name := by
    have h₁ : entry.name = name := by simpa using List.find?_some hlook
    have h₂ : entry'.name = name := by simpa using List.find?_some hlook'
    rw [h₁, h₂]
  have hreturns : entry'.returnType = entry.returnType := by
    obtain ⟨ρ, hρ⟩ := hT.returnType _ _ hlook
    obtain ⟨ρ', hρ'⟩ := hT'.returnType _ _ hlook'
    rw [FunctionTable.returnType, FunctionTable.returnType, hlook, hlook', Option.bind_some,
      Option.bind_some] at hreturn
    rw [hρ, hρ', hreturn ρ ρ' hρ hρ']
  have hparamTypes : entry'.paramTypes = entry.paramTypes := by
    apply List.ext_getElem hlen
    intro i hi' hi
    obtain ⟨τ, hτ⟩ := Option.isSome_iff_exists.mp
      (hT.paramTypes _ _ hlook _ (List.getElem_mem hi))
    obtain ⟨τ', hτ'⟩ := Option.isSome_iff_exists.mp
      (hT'.paramTypes _ _ hlook' _ (List.getElem_mem hi'))
    have hp := hparams i τ τ'
    rw [FunctionTable.paramType, FunctionTable.paramType, hlook, hlook', Option.bind_some,
      Option.bind_some, List.getElem?_eq_getElem hi, List.getElem?_eq_getElem hi',
      Option.join_some, Option.join_some] at hp
    rw [hτ, hτ', hp hτ hτ']
  cases entry
  cases entry'
  cases hname
  cases hreturns
  cases hparamTypes
  rfl

/-! ## Two orders -/

theorem FunctionsLower.lowersUnder {table : FunctionTable} {consts consts' : ConstTables}
    {fns : List FunctionDecl} {lowered : List IRFunction}
    (h : FunctionsLower table consts fns lowered consts') : ∀ fn ∈ fns, fn.LowersUnder table := by
  induction h with
  | nil => nofun
  | cons _ hbody _ ih =>
      rw [List.forall_mem_cons]
      refine ⟨?_, ih⟩
      cases hbody with
      | returns hs _ => exact ⟨_, _, hs⟩
      | fallsOff hs _ _ => exact ⟨_, _, hs⟩

theorem Accepts.lowersUnder {program : Program} {table : FunctionTable}
    (h : Accepts program table) : ∀ fn ∈ program.functions, fn.LowersUnder table := by
  obtain ⟨-, unit, hunit⟩ := h
  obtain ⟨hfns, -⟩ := lowerProgram_lowers hunit
  exact hfns.lowersUnder

section Orders

variable {program program' : Program} {table table' : FunctionTable}
  (hperm : program'.functions.Perm program.functions)
include hperm

/-- The types one order ends with are guesses of those the other ends with. -/
theorem Accepts.guesses (h : Accepts program table) (h' : Accepts program' table') :
    table.Guesses table' := by
  have hT := analyzeProgram_tableFor h.1
  have hT' := analyzeProgram_tableFor h'.1
  have hanalyze := h.1
  unfold analyzeProgram at hanalyze
  obtain ⟨t₀, hdecl, hanalyze⟩ := except_bind_ok.mp hanalyze
  obtain ⟨⟨_, t₁⟩, hpasses, hanalyze⟩ := except_bind_ok.mp hanalyze
  obtain rfl : finalizeTable t₁ = table := Except.ok.inj hanalyze
  have hfns : ∀ fn ∈ program.functions, fn ∈ program.functions ∧ fn ∈ program'.functions ∧
      fn.LowersUnder (finalizeTable t₁) ∧ fn.LowersUnder table' := by
    intro fn hfn
    have hfn' := hperm.mem_iff.mpr hfn
    exact ⟨hfn, hfn', h.lowersUnder fn hfn, h'.lowersUnder fn hfn'⟩
  have hshape : t₀.shape = program.functions.map fun fn => (fn.name, fn.params.length) := by
    rw [← inferPasses_shape hpasses, ← finalizeTable_shape]
    exact hT.shape
  have hstart := guesses_of_untyped (declareFunctions_untyped hdecl nofun) table'
  exact guesses_finalizeTable
    (inferPasses_guesses hT hT' hfns hshape hpasses hstart (kept_finalizeTable t₁))

/-- Accepted orders end with the same types. -/
theorem Accepts.lookup_eq (h : Accepts program table) (h' : Accepts program' table')
    (name : String) : table'.lookup name = table.lookup name := by
  have hT := analyzeProgram_tableFor h.1
  have hT' := analyzeProgram_tableFor h'.1
  have hguess := h.guesses hperm h'
  have hguess' := h'.guesses hperm.symm h
  cases hlook : table.lookup name with
  | none =>
      rw [Option.eq_none_iff_forall_ne_some]
      intro entry' hlook'
      obtain ⟨fn, hfn, rfl, -⟩ := hT'.exists_function hlook'
      obtain ⟨entry, hentry, -⟩ := hT.exists_entry (hperm.mem_iff.mp hfn)
      rw [hlook] at hentry
      cases hentry
  | some entry =>
      obtain ⟨fn, hfn, rfl, hlen⟩ := hT.exists_function hlook
      obtain ⟨entry', hlook', hlen'⟩ := hT'.exists_entry (hperm.mem_iff.mpr hfn)
      rw [hlook', entry_eq hT.typed hT'.typed hlook hlook' (hlen'.symm.trans hlen) ?_ ?_]
      · intro i τ τ' hτ hτ'
        have hp := hguess.params fn.name i
        have hp' := hguess'.params fn.name i
        rw [hτ, hτ'] at hp hp'
        exact hp.antisymm hp'
      · intro ρ ρ' hρ hρ'
        have hr := hguess.returns fn.name
        have hr' := hguess'.returns fn.name
        rw [hρ, hρ'] at hr hr'
        exact hr.antisymm hr'

end Orders

/-- Once one order of the functions is accepted, another one is accepted just when inference ends
on it with the same types for every function. -/
theorem accepts_reordered_iff {program program' : Program} {table : FunctionTable}
    (hperm : program'.functions.Perm program.functions) (hbody : program'.body = program.body)
    (h : Accepts program table) (table' : FunctionTable) :
    Accepts program' table' ↔
      analyzeProgram program' = .ok table' ∧ ∀ name, table'.lookup name = table.lookup name := by
  constructor
  · intro h'
    exact ⟨h'.1, h.lookup_eq hperm h'⟩
  · rintro ⟨hanalyze, hlookup⟩
    refine ⟨hanalyze, lowerProgram_ok_iff.mpr ?_⟩
    obtain ⟨hfns, hmain⟩ := lowerProgram_ok_iff.mp h.2
    rw [hbody, lowerBody_congr hlookup]
    refine ⟨?_, hmain⟩
    intro fn hfn
    rw [lowerFunction_congr hlookup]
    exact hfns fn (hperm.mem_iff.mp hfn)

/-! A text that two calls pass on: seen first, it is the type of both parameters; seen last, one of
them is a number already. -/

def inicia : FunctionDecl :=
  { name := "inicia", params := []
    body := [.ret (some (.call (.identifier "repassa") [.string "texto"]))] }

def repassa : FunctionDecl :=
  { name := "repassa", params := ["x"]
    body := [.ret (some (.call (.identifier "mostra") [.identifier "x"]))] }

def mostra : FunctionDecl :=
  { name := "mostra", params := ["y"], body := [.show (.identifier "y"), .ret (some (.number 1))] }

def inOrder (functions : List FunctionDecl) : Program :=
  { functions := functions, body := [.exprStmt (.call (.identifier "inicia") [])] }

theorem accepts_reordered_iff_passed_on :
    Accepts (inOrder [inicia, mostra, repassa])
        [⟨"inicia", [], some .i64⟩, ⟨"mostra", [some .str], some .i64⟩,
          ⟨"repassa", [some .str], some .i64⟩] ↔
      analyzeProgram (inOrder [inicia, mostra, repassa]) =
          .ok [⟨"inicia", [], some .i64⟩, ⟨"mostra", [some .str], some .i64⟩,
            ⟨"repassa", [some .str], some .i64⟩] ∧
        ∀ name, FunctionTable.lookup [⟨"inicia", [], some .i64⟩, ⟨"mostra", [some .str], some .i64⟩,
            ⟨"repassa", [some .str], some .i64⟩] name =
          FunctionTable.lookup [⟨"inicia", [], some .i64⟩, ⟨"repassa", [some .str], some .i64⟩,
            ⟨"mostra", [some .str], some .i64⟩] name := by
  have haccepts : Accepts (inOrder [inicia, repassa, mostra])
      [⟨"inicia", [], some .i64⟩, ⟨"repassa", [some .str], some .i64⟩,
        ⟨"mostra", [some .str], some .i64⟩] :=
    ⟨by decide +kernel, except_eq_ok_of_isSome (by decide +kernel)⟩
  have hperm : (inOrder [inicia, mostra, repassa]).functions.Perm
      (inOrder [inicia, repassa, mostra]).functions :=
    (List.Perm.swap repassa mostra []).cons inicia
  have hbody : (inOrder [inicia, mostra, repassa]).body =
      (inOrder [inicia, repassa, mostra]).body := rfl
  exact accepts_reordered_iff hperm hbody haccepts _

theorem exists_accepts_iff (program : Program) :
    (∃ table, Accepts program table) ↔ (compileProgram program).toOption.isSome = true := by
  constructor
  · rintro ⟨table, hanalyze, unit, hlower⟩
    have hcompile : compileProgram program = .ok unit :=
      except_bind_ok.mpr ⟨table, hanalyze, hlower⟩
    rw [hcompile]
    rfl
  · intro h
    obtain ⟨unit, hcompile⟩ := except_eq_ok_of_isSome h
    obtain ⟨table, hanalyze, hlower⟩ := except_bind_ok.mp hcompile
    exact ⟨table, hanalyze, unit, hlower⟩

/-- The order decides whether a program is accepted. -/
theorem order_decides_acceptance :
    ¬ ∀ program program' : Program, program'.functions.Perm program.functions →
      program'.body = program.body →
      ((∃ table, Accepts program' table) ↔ ∃ table, Accepts program table) := by
  intro h
  have hswap := h (inOrder [inicia, repassa, mostra]) (inOrder [repassa, inicia, mostra])
    (List.Perm.swap inicia repassa [mostra]) rfl
  rw [exists_accepts_iff, exists_accepts_iff] at hswap
  have hfirst : (compileProgram (inOrder [inicia, repassa, mostra])).toOption.isSome = true := by
    decide +kernel
  have hlast : (compileProgram (inOrder [repassa, inicia, mostra])).toOption.isSome = false := by
    decide +kernel
  exact Bool.noConfusion (hlast.symm.trans (hswap.mpr hfirst))

end GatoCore.Native
