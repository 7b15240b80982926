import GatoCore.Native.NativeRuntime
import GatoCore.Native.SimulateStmt

/-!
# Lowering preserves meaning: programs

The activation of a function starts with its arguments in the slots of its parameters, so the
simulation of a body gives that of a call, and the simulation of the top-level body gives that of
the program.
-/

namespace GatoCore.Native

open StateTransition GatoCore.Lib

variable {R : Runtime} {unit : IRUnit} {Γ : EvalContext}

/-! ## The start of an activation -/

/-- One more parameter: its local, and its argument in the environment and in the slots. -/
theorem EnvMatch.withLocal {ctx : LoweringContext} {env : Env R} {slots : ℕ → Option R.Value}
    {loc : Local} {v : TypedValue R} (h : EnvMatch ctx.locals env slots) (hs : ctx.SlotsOk)
    (hname : ¬ IsHiddenName loc.name) (hslot : loc.slot = ctx.localList.length)
    (htype : loc.type = some v.type) :
    EnvMatch (ctx.withLocal loc).locals (Function.update env loc.name (some v))
      (Function.update slots loc.slot (some v.value)) := by
  intro x u hu
  rw [LoweringContext.withLocal_locals]
  by_cases hx : x = loc.name
  · subst hx
    rw [Function.update_self] at hu ⊢
    cases hu
    exact ⟨hname, loc, rfl, htype, Function.update_self ..⟩
  · rw [Function.update_of_ne hx] at hu ⊢
    obtain ⟨hhid, loc', hloc', htype', hval⟩ := h x u hu
    refine ⟨hhid, loc', hloc', htype', ?_⟩
    have hlt := (List.getElem?_eq_some_iff.mp (hs x loc' hloc').2).1
    rw [Function.update_of_ne (by omega)]
    exact hval

theorem addParams_envMatch :
    ∀ {ps : List (String × Option Ty)} {tvs : List (TypedValue R)} (ctx : LoweringContext)
      (env : Env R) (slots : ℕ → Option R.Value),
      List.Forall₂ (fun p v => p.2 = some v.type) ps tvs → (∀ p ∈ ps, ¬ IsHiddenName p.1) →
      ctx.SlotsOk → EnvMatch ctx.locals env slots →
      ∃ locs, (addParams ctx ps).params = ctx.params ++ locs ∧ (addParams ctx ps).SlotsOk ∧
        EnvMatch (addParams ctx ps).locals
          (((ps.map (·.1)).zip tvs).foldl (fun env p => Function.update env p.1 (some p.2)) env)
          ((locs.zip (tvs.map (·.value))).foldl
            (fun m p => Function.update m p.1.slot (some p.2)) slots)
  | [], [], ctx, env, slots, _, _, hs, h => ⟨[], by simp [addParams], hs, h⟩
  | (name, type) :: ps, tv :: tvs, ctx, env, slots, hty, hnames, hs, h => by
      cases hty with
      | cons htype hty =>
          have hs' : (ctx.withParam (ctx.freshLocal name type true)).SlotsOk := hs.withLocal rfl
          have h' : EnvMatch (ctx.withParam (ctx.freshLocal name type true)).locals _ _ :=
            h.withLocal hs (hnames (name, type) (by simp)) rfl htype
          obtain ⟨locs, hparams, hslots, hmatch⟩ := addParams_envMatch _ _ _ hty
            (fun p hp => hnames p (by simp [hp])) hs' h'
          refine ⟨ctx.freshLocal name type true :: locs, ?_, hslots, hmatch⟩
          rw [addParams, hparams]
          simp

/-! ## Whole bodies -/

theorem BodyLowers.placed {table : FunctionTable} {start final : LoweringContext}
    {body : List Stmt} (h : BodyLowers table start body final) (hnil : start.instructions = [])
    (hs : start.SlotsOk) (hext : final.consts.Extends unit.consts) : Placed unit final :=
  ⟨h.labels_nodup hnil, h.grows.slotsOk hs, hext⟩

theorem simCall_succ {n : ℕ} (hΓ : Linked Γ unit) (ih : SimStmts R Γ unit n) :
    SimCall R Γ unit (n + 1) := by
  intro name fd callee type tvs tv rest w w' hfd hlen hcallee htypes hret he
  obtain ⟨consts, final, hlookup, hbody, hext⟩ := hΓ.function hfd
  have hmem : fd ∈ Γ.functions := List.mem_of_find?_eq_some hfd
  have hname : fd.name = name := by simpa using List.find?_some hfd
  have hnil : (startContext Γ.table consts fd).instructions = [] := (addParams_fields _ _).1
  have hp := hbody.placed hnil (newContext_slotsOk _ _ _ _) hext
  have hps : paramsOf Γ.table fd = fd.params.zip (tvs.map fun v => some v.type) := by
    rw [paramsOf, hname, hcallee, ← htypes]
    rfl
  have hstart : (startContext Γ.table consts fd).returnType = some type := by
    rw [startContext, newContext, (addParams_fields _ _).2.1, hname]
    simp [emptyContext, FunctionTable.returnType, hcallee, hret]
  have hmatch : List.Forall₂ (fun (p : String × Option Ty) v => p.2 = some v.type)
      (paramsOf Γ.table fd) tvs := by
    rw [hps, List.forall₂_iff_get]
    refine ⟨by simp [hlen], fun i h₁ h₂ => by simp⟩
  have hhid : ∀ p ∈ paramsOf Γ.table fd, ¬ IsHiddenName p.1 := by
    rintro ⟨x, t⟩ hx
    exact hΓ.params fd hmem x (List.of_mem_zip hx).1
  obtain ⟨locs, hparams, _, henv⟩ := addParams_envMatch (emptyContext consts fd.name
    (Γ.table.returnType fd.name)) (fun _ => none) (fun _ => none) hmatch hhid (by rintro _ _ ⟨⟩)
    (by rintro _ _ ⟨⟩)
  have hfst : (paramsOf Γ.table fd).map (·.1) = fd.params := by
    rw [hps]
    exact List.map_fst_zip (by simp [hlen])
  rw [hfst] at henv
  have hlocs : final.params = locs := by
    rw [hbody.grows.params]
    exact hparams
  have hf : Located unit final (startContext Γ.table consts fd) (bindParams fd.params tvs)
      (entryFrame final.toFunction (tvs.map (·.value))) := by
    refine ⟨hp, rfl, by rw [hnil]; rfl, ?_⟩
    intro x u hu
    obtain ⟨hx, loc, hloc, htype, hval⟩ := henv x u hu
    refine ⟨hx, loc, hbody.grows.locals hx hloc, htype, ?_⟩
    rw [← hlocs] at hval
    exact hval
  obtain ⟨f', hreach, hreturn⟩ := simBody hΓ ih rest hbody hnil (hΓ.assigned fd hmem) hstart he hf
  exact ⟨_, f', hlookup, hreach, hreturn⟩

/-- The evaluator is simulated with any fuel. -/
structure Simulates (R : Runtime) (Γ : EvalContext) (unit : IRUnit) (n : ℕ) : Prop where
  expr : SimExpr R Γ unit n
  args : SimArgs R Γ unit n
  call : SimCall R Γ unit n
  stmt : SimStmt R Γ unit n
  stmts : SimStmts R Γ unit n
  block : SimBlock R Γ unit n
  forEach : SimForEach R Γ unit n

theorem simulates (R : Runtime) (hΓ : Linked Γ unit) : ∀ n, Simulates R Γ unit n
  | 0 =>
      { expr := by
          intro _ _ _ _ _ _ _ _ _ _ _ _ he
          cases he
        args := by
          intro _ _ _ _ _ _ _ _ _ _ _ _ _ he
          cases he
        call := by
          intro _ _ _ _ _ _ _ _ _ _ _ _ _ _ he
          cases he
        stmt := by
          intro _ _ _ _ _ _ _ _ _ _ _ _ _ he
          cases he
        stmts := by
          intro _ _ _ _ _ _ _ _ _ _ _ _ _ he
          cases he
        block := by
          intro _ _ _ _ _ _ _ _ _ _ _ _ _ he
          cases he
        forEach := by
          intro _ _ _ _ _ _ _ _ _ _ _ _ _ _ _ _ _ _ _ _ _ _ he
          cases he }
  | n + 1 =>
      have ih := simulates R hΓ n
      { expr := simExpr_succ hΓ ih.expr ih.args ih.call
        args := simArgs_succ ih.expr ih.args
        call := simCall_succ hΓ ih.stmts
        stmt := simStmt_succ hΓ ih.expr ih.block ih.stmt ih.forEach
        stmts := simStmts_succ ih.stmt ih.stmts
        block := simBlock_succ hΓ ih.stmts
        forEach := simForEach_succ ih.block ih.forEach }

/-! ## Programs -/

theorem startContext_symbol (table : FunctionTable) (consts : ConstTables) (fn : FunctionDecl) :
    (startContext table consts fn).symbol = symbolOf fn.name := (addParams_fields _ _).2.2.1

/-- Calling a function by its symbol finds the code of its declaration. -/
theorem FunctionsLower.lookup {table : FunctionTable} {fns : List FunctionDecl}
    {consts consts' : ConstTables} {lowered : List IRFunction}
    (h : FunctionsLower table consts fns lowered consts')
    (hmain : ∀ fn ∈ fns, fn.name ≠ mainName) {name : String} {fd : FunctionDecl}
    (hfd : fns.find? (·.name = name) = some fd) :
    ∃ consts₁ final, lowered.find? (·.symbol = .fn name) = some final.toFunction ∧
      BodyLowers table (startContext table consts₁ fd) fd.body final ∧
      final.consts.Extends consts' := by
  induction h with
  | nil => cases hfd
  | @cons consts _ fn fns lowered ctx _ hbody hrest ih =>
      have hsymbol : ctx.toFunction.symbol = .fn fn.name := by
        have := hbody.grows.symbol
        rw [startContext_symbol, symbolOf, if_neg (hmain fn (by simp))] at this
        exact this
      rw [List.find?_cons] at hfd ⊢
      by_cases hname : fn.name = name
      · simp only [hname, decide_true, Option.some.injEq] at hfd
        subst hfd
        refine ⟨consts, ctx, ?_, hbody, hrest.extends_consts⟩
        simp [hsymbol, hname]
      · simp only [hname, decide_false] at hfd
        obtain ⟨consts₁, final, hfind, hrestBody⟩ := ih (fun g hg => hmain g (by simp [hg])) hfd
        refine ⟨consts₁, final, ?_, hrestBody⟩
        simp only [hsymbol, Symbol.fn.injEq, hname, decide_false]
        exact hfind

theorem emptyTables_ranked : emptyTables.Ranked := nofun

theorem ProgramLowers.linked {program : Program} {table : FunctionTable} {unit : IRUnit}
    (h : ProgramLowers program table unit) (htable : TableFor program.functions table)
    (hmain : ∀ fn ∈ program.functions, fn.name ≠ mainName)
    (hparams : ∀ fn ∈ program.functions, ∀ x ∈ fn.params, ¬ IsHiddenName x)
    (hnames : ∀ fn ∈ program.functions, ∀ x ∈ assignedNames fn.body, ¬ IsHiddenName x) :
    Linked ⟨.flat, program.functions, table⟩ unit := by
  cases h with
  | @intro consts lowered ctx hfns hbody =>
      have hext : consts.Extends ctx.consts := hbody.grows.consts
      refine ⟨rfl, (hfns.extends_consts.trans hext).ranked emptyTables_ranked, htable, ?_, hparams,
        hnames⟩
      intro name fd hfd
      obtain ⟨consts₁, final, hfind, hfdBody, hfinal⟩ := hfns.lookup hmain hfd
      refine ⟨consts₁, final, ?_, hfdBody, hfinal.trans hext⟩
      rw [IRUnit.lookup, List.find?_append, hfind]
      rfl

/-- The program as a whole, from the entry of `main` to its return. -/
theorem ProgramLowers.reaches_finished {program : Program} {table : FunctionTable} {unit : IRUnit}
    (h : ProgramLowers program table unit)
    (hΓ : Linked ⟨.flat, program.functions, table⟩ unit)
    (hnames : ∀ x ∈ assignedNames program.body, ¬ IsHiddenName x) {n : ℕ} {w w' : R.World}
    {v : TypedValue R} (he : evalProgram .flat program table n w = some (v, w')) :
    ∃ c, initialConfig unit w = some c ∧
      Reaches (step tempPlacement unit) c (.finished v.value w') := by
  cases h with
  | @intro consts lowered ctx hfns hbody =>
      cases n with
      | zero => cases he
      | succ n =>
          have hp : Placed { functions := lowered ++ [ctx.toFunction], consts := ctx.consts } ctx :=
            hbody.placed rfl (newContext_slotsOk _ _ _ _) (.refl _)
          have hf : Located _ ctx (mainContext consts) (fun _ => none)
              (entryFrame ctx.toFunction ([] : List R.Value)) := ⟨hp, rfl, rfl, nofun⟩
          obtain ⟨f', hreach, hret⟩ := simBody hΓ (simulates R hΓ n).stmts [] hbody rfl hnames rfl
            he hf
          obtain ⟨t, type, hinst, hval⟩ := hret.ret
          refine ⟨_, by rw [initialConfig, List.getLast?_concat]; rfl, hreach.tail ?_⟩
          rw [Option.mem_def, step_running hinst]
          simp [execInstr, hval, returnTo]

mutual
theorem Stmt.assigned_subset : ∀ (s : Stmt) {x : String}, x ∈ s.assigned → x ∈ s.identifiers
  | .define _ _, x, h | .assign _ _, x, h => by
      simp only [Stmt.assigned, List.mem_singleton] at h
      simp [Stmt.identifiers, h]
  | .show _, x, h | .exprStmt _, x, h | .ret _, x, h => by simp [Stmt.assigned] at h
  | .ifElse _ thenBody elseBody, x, h => by
      simp only [Stmt.assigned, List.mem_append] at h
      rcases h with h | h
      · simp [Stmt.identifiers, assignedNames_subset thenBody h]
      · simp [Stmt.identifiers, assignedNames_subset elseBody h]
  | .while _ body, x, h => by
      simp only [Stmt.assigned] at h
      simp [Stmt.identifiers, assignedNames_subset body h]
  | .forEach _ _ body, x, h => by
      simp only [Stmt.assigned, List.mem_cons] at h
      rcases h with rfl | h
      · simp [Stmt.identifiers]
      · simp [Stmt.identifiers, assignedNames_subset body h]

theorem assignedNames_subset : ∀ (body : List Stmt) {x : String}, x ∈ assignedNames body →
    x ∈ bodyIdentifiers body
  | [], x, h => by simp [assignedNames] at h
  | s :: body, x, h => by
      simp only [assignedNames, List.mem_append] at h
      rcases h with h | h
      · simp [bodyIdentifiers, s.assigned_subset h]
      · simp [bodyIdentifiers, assignedNames_subset body h]
end

/-- A run of a program without a variable of the name of a hidden local. -/
theorem ProgramLowers.reaches_of_names {program : Program} {table : FunctionTable} {unit : IRUnit}
    (h : ProgramLowers program table unit) (htable : TableFor program.functions table)
    (hmain : ∀ fn ∈ program.functions, fn.name ≠ mainName)
    (hnames : ∀ x ∈ program.identifiers, ¬ IsHiddenName x) {n : ℕ} {w w' : R.World}
    {v : TypedValue R} (heval : evalProgram .flat program table n w = some (v, w')) :
    ∃ c, initialConfig unit w = some c ∧
      Reaches (step tempPlacement unit) c (.finished v.value w') := by
  have hids : ∀ fn ∈ program.functions, ∀ x ∈ fn.identifiers, ¬ IsHiddenName x :=
    fun fn hfn x hx => hnames x (List.mem_append_left _ (List.mem_flatMap.mpr ⟨fn, hfn, hx⟩))
  have hΓ := h.linked htable hmain
    (fun fn hfn x hx => hids fn hfn x (by simp [FunctionDecl.identifiers, hx]))
    (fun fn hfn x hx => hids fn hfn x
      (by simp [FunctionDecl.identifiers, assignedNames_subset _ hx]))
  exact h.reaches_finished hΓ
    (fun x hx => hnames x (List.mem_append_right _ (assignedNames_subset _ hx))) heval

theorem FunctionDecl.name_mem_identifiers {program : Program} {fn : FunctionDecl}
    (hfn : fn ∈ program.functions) : fn.name ∈ program.identifiers :=
  List.mem_append_left _ (List.mem_flatMap.mpr ⟨fn, hfn, List.mem_cons_self⟩)

/-- Whenever the direct evaluator of an accepted program terminates, the unit runs from the entry
of `main` to the same value and the same state of the runtime, which includes what was printed. -/
theorem lowerProgram_preserves_meaning (R : Runtime) {program : Program} {table : FunctionTable}
    {unit : IRUnit} (hanalyze : analyzeProgram program = .ok table)
    (hlower : lowerProgram program table = .ok unit)
    (hnames : ∀ x ∈ program.identifiers, ¬ IsReserved x) {n : ℕ} {w w' : R.World}
    {v : TypedValue R} (heval : evalProgram .flat program table n w = some (v, w')) :
    ∃ c, initialConfig unit w = some c ∧
      Reaches (step tempPlacement unit) c (.finished v.value w') := by
  refine (lowerProgram_lowers hlower).reaches_of_names (analyzeProgram_tableFor hanalyze)
    ?_ ?_ heval
  · intro fn hfn hmain
    have hname := hnames fn.name (FunctionDecl.name_mem_identifiers hfn)
    rw [hmain] at hname
    exact hname (by decide)
  · intro x hx hhidden
    exact hnames x hx hhidden.isReserved

/-- `função dobro(x) retornar x + x fim`, called on each item of `[1, 2]`. -/
def doubleProgram : Program :=
  { functions := [⟨"dobro", ["x"],
      [.ret (some (.binary .add (.identifier "x") (.identifier "x")))]⟩]
    body := [.forEach "item" (.array [.number 1, .number 2])
      [.show (.call (.identifier "dobro") [.identifier "item"])]] }

def doubleTable : FunctionTable := [⟨"dobro", [some .i64], some .i64⟩]

theorem lowerProgram_preserves_meaning_double :
    ∃ (unit : IRUnit) (v : TypedValue nativeRuntime) (w' : NativeWorld)
      (c : Config nativeRuntime ℕ), lowerProgram doubleProgram doubleTable = .ok unit ∧
      evalProgram .flat doubleProgram doubleTable 30 NativeWorld.initial = some (v, w') ∧
      w'.stdout = bytesOf "2\n4\n" ∧ initialConfig unit NativeWorld.initial = some c ∧
      Reaches (step tempPlacement unit) c (.finished v.value w') := by
  obtain ⟨unit, hlower⟩ : ∃ unit, lowerProgram doubleProgram doubleTable = .ok unit :=
    except_eq_ok_of_isSome (by decide +kernel)
  have hout : (evalProgram .flat doubleProgram doubleTable 30 NativeWorld.initial).map
      (fun r : TypedValue nativeRuntime × NativeWorld => r.2.stdout) =
      some (bytesOf "2\n4\n") := by decide +kernel
  obtain ⟨⟨v, w'⟩, heval, hstdout⟩ := Option.map_eq_some_iff.mp hout
  obtain ⟨c, hinit, hreach⟩ := lowerProgram_preserves_meaning nativeRuntime
    (show analyzeProgram doubleProgram = .ok doubleTable by decide +kernel) hlower (by decide) heval
  exact ⟨unit, v, w', c, hlower, heval, hstdout, hinit, hreach⟩

end GatoCore.Native
