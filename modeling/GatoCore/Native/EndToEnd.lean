import GatoCore.Native.Constants
import GatoCore.Native.LowerCorrect
import GatoCore.Native.Mirror

/-!
# Compiled programs

What the evaluator computes, the assembly computes: lowering, the allocation of temps, the choice of
instructions, the frames and the peephole rules one after the other. The assembly of a program runs
from the entry of `main` to its `ret` with the output of the program and its value in `rax`, and it
has no other run. It is asked that calls are safe (`SafeCalls`), that no operator is reached
whose lines do not compute it (`BinOp.Computes`), and that the numbers of the program are written as
they are.
-/

namespace GatoCore.Native

open GatoCore.Lib GatoCore.Lib.Binary64 StateTransition

variable {W : Type}

/-! ## The end of an activation -/

/-- The call of `s` from `m₀` runs to a `ret`, with this value and this world. -/
def RunsToRet (host : Host W) (unit : IRUnit) (code : List (Symbol × List Line)) (s : Symbol)
    (m₀ : Machine W) (v : Word) (w : W) : Prop :=
  ∃ k m, Runs host code (Sparing unit code s) s m₀ k m ∧ (linesOf code s)[k]? = some .ret ∧
    m.regs .rax = v ∧ m.world = w

section Leave

variable {unit : IRUnit} {code : List (Symbol × List Line)} {host : Host W} {R : WordRuntime W}
  (hset : Setting unit code host R)
include hset

theorem Setting.framed : FramedUnit code (frameOf unit) :=
  renderAssembly_framed hset.slots hset.rendered

omit hset in
/-- A run at a label is in its body. -/
theorem Runs.inBody_label {allowed : Symbol → Line → Prop} {frames : Symbol → FrameLayout}
    {kept : Prop} (hhost : host.KeepsFrames) (hunit : FramedUnit code frames)
    (hspares : Spares allowed frames kept) {s : Symbol} {m₀ m : Machine W} {i : ℕ}
    (h : Runs host code allowed s m₀ i m) {l : AsmLabel}
    (hlabel : (linesOf code s)[i]? = some (.label l)) : InBody m₀ (frames s) kept m := by
  obtain ⟨mid, hlines⟩ := hunit s (ne_nil_of_getElem? hlabel)
  cases (h.at hhost hunit hspares hlines).atLine hlines hlabel with
  | entering hin hrun =>
      rcases mem_prologue (List.mem_of_getElem? hin) with h | h | ⟨r, h⟩ | ⟨bytes, h⟩
      all_goals cases h
  | inside hin hm => exact hm
  | leaving hin hm hrun =>
      rcases mem_epilogue (List.mem_of_getElem? hin) with h | h | ⟨r, h⟩ | ⟨bytes, h⟩
      all_goals cases h

/-- From the label of the epilogue to the `ret`. -/
theorem Setting.leaves {s : Symbol} {fn : IRFunction} {frame : FrameLayout}
    {params body : List Line} (hlookup : unit.lookup s = some fn)
    (hlaid : LaidOut fn frame params body (linesOf code s)) {m₀ m : Machine W}
    (hrun : Runs host code (Sparing unit code s) s m₀
      (lineOf fn frame params fn.instructions.length) m) :
    RunsToRet host unit code s m₀ (m.regs .rax) m.world := by
  have hframe : frameOf unit s = frame := by
    rw [frameOf, show unit.functions.find? (·.symbol = s) = some fn from hlookup,
      Option.bind_some, hlaid.frameFor, Option.getD_some]
  have hdrop : (linesOf code s).drop (lineOf fn frame params fn.instructions.length) =
      .label .epilogue :: epilogue frame := hlaid.epilogueLines
  have hlabel := getElem?_of_drop hdrop
  have hbody := hrun.inBody_label hset.frames hset.framed (spares_sparing unit code s) hlabel
  rw [hframe] at hbody
  obtain ⟨m', hexec, hworld, hrax⟩ : ∃ m', execLines host (fun _ _ => none)
      (epilogue frame).dropLast m = some (.next, m') ∧ m'.world = m.world ∧
      m'.regs .rax = m.regs .rax := epilogue_runs hbody (rax_not_saved hlaid.frameFor)
  have hlast : epilogue frame = (epilogue frame).dropLast ++ [.ret] := by
    have hret : (epilogue frame).getLast? = some .ret := by simp [epilogue]
    exact (List.dropLast_append_getLast? _ hret).symm
  have hafter := (drop_succ_of_drop hdrop).trans hlast
  have hin : ∀ line ∈ (epilogue frame).dropLast, line ∈ linesOf code s := by
    intro line hline
    refine List.mem_of_mem_drop (i := lineOf fn frame params fn.instructions.length + 1) ?_
    rw [hafter]
    exact List.mem_append_left _ hline
  have hnext := hrun.next hlabel (sparing_line (List.mem_of_getElem? hlabel)) rfl
  obtain ⟨hend, -⟩ := hnext.stretch hafter (fun line hline => sparing_line (hin line hline))
    (by
      rintro line hline g rfl
      rcases mem_epilogue (List.mem_of_mem_dropLast hline) with h | h | ⟨r, h⟩ | ⟨bytes, h⟩
      all_goals cases h) hexec
  refine ⟨_, m', hend rfl, ?_, hrax, hworld⟩
  rw [← List.getElem?_drop, hafter]
  simp

end Leave

/-! ## Activations -/

/-- The machine has come to the lines of the instruction an activation of `s` executes next. -/
structure Arrives {R : WordRuntime W} (host : Host W) (unit : IRUnit)
    (code : List (Symbol × List Line)) (s : Symbol) (frame : FrameLayout)
    (params body : List Line) (m₀ m : Machine W) (f : Frame R.toRuntime ℕ) (w : W) : Prop where
  lookup : unit.lookup s = some f.fn
  laid : LaidOut f.fn frame params body (linesOf code s)
  runs : Runs host code (Sparing unit code s) s m₀ (lineOf f.fn frame params f.pc) m
  mirrors : Mirrors host unit m f w

section Activation

variable {unit : IRUnit} {code : List (Symbol × List Line)} {host : Host W} {R : WordRuntime W}

/-- Emitted lines without a call of a generated function, to where control leads. -/
theorem Runs.emitted {s : Symbol} {frame : FrameLayout} {own rest : List Line} {i : ℕ}
    {m₀ m m' : Machine W} {control : Control} (hinner : AllInner frame own)
    (hcalls : ∀ line ∈ own, ∀ g, line ≠ .call (.fn g))
    (hrun : Runs host code (Sparing unit code s) s m₀ i m)
    (hdrop : (linesOf code s).drop i = own.filterMap peephole ++ rest)
    (hexec : execLines host (fun _ _ => none) own m = some (control, m')) :
    (control = .next →
        Runs host code (Sparing unit code s) s m₀ (i + (own.filterMap peephole).length) m') ∧
      ∀ l k, control = .jump l → labelLine (linesOf code s) l = some k →
        Runs host code (Sparing unit code s) s m₀ k m' := by
  rw [← execLines_peephole hinner] at hexec
  refine hrun.stretch hdrop ?_ ?_ hexec
  · intro line hline
    refine sparing_line (List.mem_of_mem_drop (i := i) ?_)
    rw [hdrop]
    exact List.mem_append_left _ hline
  · intro line hline
    obtain ⟨source, hsource, hpeep⟩ := List.mem_filterMap.mp hline
    cases peephole_eq_some hpeep
    exact hcalls line hsource

/-- Lines that are straight but for those listed call no generated function but those listed. -/
theorem StraightBut.not_call {transfers lines : List Line} (h : StraightBut transfers lines)
    (htransfers : ∀ g, .call (.fn g) ∉ transfers) : ∀ line ∈ lines, ∀ g, line ≠ .call (.fn g) := by
  rintro line hline g rfl
  rcases h _ hline with h | h
  · exact h
  · exact htransfers g h

theorem fn_not_mem_transfers {inst : Instr}
    (h : ∀ dest symbol args type, inst ≠ .call dest symbol args type) (g : Symbol) :
    .call (.fn g) ∉ inst.transfers := by
  cases inst with
  | call dest symbol args type => exact absurd rfl (h _ _ _ _)
  | _ => simp [Instr.transfers]

variable (hset : Setting unit code host R)
include hset

theorem Setting.allInner {fn : IRFunction} (hmem : fn ∈ unit.functions) {frame : FrameLayout}
    (hframe : frameFor fn (allocateTemps fn) = some frame) {inst : Instr} {own : List Line}
    (hinst : inst ∈ fn.instructions)
    (hown : emitInstruction fn (allocateTemps fn) inst = some own) : AllInner frame own :=
  (frameFits fn hframe).emitInstruction ((hset.slots fn hmem).code inst hinst) hown

variable {s : Symbol} {frame : FrameLayout} {params body : List Line} {m₀ m : Machine W}
  {f : Frame R.toRuntime ℕ} {w w' : W}

/-- A call with its arguments in their registers comes to the first instruction. -/
theorem Setting.arrives_entered {fn : IRFunction} (hlookup : unit.lookup s = some fn)
    {args : List Word} (hargs : m₀.HoldsArgs args) (hworld : m₀.world = w) :
    ∃ frame params body m, Arrives host unit code s frame params body m₀ m
      (entryFrame fn args : Frame R.toRuntime ℕ) w := by
  obtain ⟨frame, params, body, hlaid⟩ :=
    renderFunction_laidOut (renderAssembly_lookup hset.rendered hlookup)
  obtain ⟨m, hrun, hmirrors⟩ := hset.enters hlookup hlaid hargs hworld
  exact ⟨frame, params, body, m, hlookup, hlaid, hrun, hmirrors⟩

/-- A `ret` of the activation. -/
theorem Setting.arrives_ret (h : Arrives host unit code s frame params body m₀ m f w) {v : Word}
    (hstep : (activations tempPlacement unit).step f w = some (.ret v w')) :
    RunsToRet host unit code s m₀ v w' := by
  have hmem : f.fn ∈ unit.functions := List.mem_of_find?_eq_some h.lookup
  obtain ⟨inst, hinst, hstep⟩ := Option.bind_eq_some_iff.mp hstep
  obtain ⟨value, type, rfl, hread, rfl⟩ := activationStep_ret hstep
  obtain ⟨own, rest, hown, hdrop, -⟩ := h.laid.instr hinst
  obtain ⟨g, hsame, hholds, hallocated⟩ := h.mirrors.frame
  have hread' : g.read (allocateTemps g.fn).placement value = some v :=
    (hsame.read hset.temps hinst (by simp [tempUses])).trans hread
  have hemits : EmitsTo host (fun _ _ => none) (allocateTemps g.fn) m g (.ret value type)
      (.returned v w') := emits_ret hholds hallocated (allocateTemps_valid _) hread'
  obtain ⟨lines, control, m', hlines, hexec, -, rfl, hrax, hworld⟩ := hemits
  rw [hsame.fn] at hlines
  cases hown.symm.trans hlines
  have hinner := hset.allInner hmem h.laid.frameFor (List.mem_of_getElem? hinst) hown
  obtain ⟨-, hjump⟩ := h.runs.emitted hinner ((emitInstruction_straight hown).not_call
    (fn_not_mem_transfers (by simp))) hdrop hexec
  have hleaves := hset.leaves h.lookup h.laid (hjump _ _ rfl h.laid.epilogueLabel)
  rw [hrax, hworld] at hleaves
  exact hleaves

/-- An instruction of the activation that is no call and no `ret`. -/
theorem Setting.arrives_next (h : Arrives host unit code s frame params body m₀ m f w)
    {f' : Frame R.toRuntime ℕ} (hcomputes : f.Computes)
    (hstep : (activations tempPlacement unit).step f w = some (.next f' w')) :
    ∃ m', Arrives host unit code s frame params body m₀ m' f' w' := by
  have hmem : f.fn ∈ unit.functions := List.mem_of_find?_eq_some h.lookup
  obtain ⟨inst, hinst, hstep⟩ := Option.bind_eq_some_iff.mp hstep
  obtain ⟨own, rest, hown, hdrop, hnext⟩ := h.laid.instr hinst
  obtain ⟨-, hnocall, -⟩ := activationStep_next hstep
  have hfn := activationStep_fn hstep
  obtain ⟨control, m', hexec, hm', hleads⟩ : ∃ control m',
      execLines host (fun _ _ => none) own m = some (control, m') ∧
      Mirrors host unit m' f' w' ∧ Leads f f' control :=
    h.mirrors.instr hset hcomputes hinst hown hstep
  have hinner := hset.allInner hmem h.laid.frameFor (List.mem_of_getElem? hinst) hown
  obtain ⟨hfall, hjump⟩ := h.runs.emitted hinner ((emitInstruction_straight hown).not_call
    (fn_not_mem_transfers hnocall)) hdrop hexec
  refine ⟨m', by rw [hfn]; exact h.lookup, by rw [hfn]; exact h.laid, ?_, hm'⟩
  rw [hfn]
  -- the label a jump leads to is at the line of the instruction it leads to
  cases control with
  | next =>
      rw [show f'.pc = f.pc + 1 from hleads, hnext]
      exact hfall rfl
  | jump l =>
      cases l with
      | control l => exact hjump _ _ rfl (h.laid.label hleads)
      | epilogue => exact hleads.elim
  | call g => exact hleads.elim
  | ret => exact hleads.elim

/-- A call of the activation, over the run of its callee. -/
theorem Setting.arrives_call (h : Arrives host unit code s frame params body m₀ m f w)
    {g f' : Frame R.toRuntime ℕ} {w₁ : W} {u : Word}
    (hstep : (activations tempPlacement unit).step f w = some (.call g w₁))
    (hcallee : ∀ {s' : Symbol} {frame' : FrameLayout} {params' body' : List Line}
      {m₂ m₃ : Machine W}, Arrives host unit code s' frame' params' body' m₂ m₃ g w₁ →
      RunsToRet host unit code s' m₂ u w')
    (hresume : (activations tempPlacement unit).resume f u = some f') :
    ∃ m', Arrives host unit code s frame params body m₀ m' f' w' := by
  have hmem : f.fn ∈ unit.functions := List.mem_of_find?_eq_some h.lookup
  obtain ⟨inst, hinst, hstep⟩ := Option.bind_eq_some_iff.mp hstep
  obtain ⟨dest, symbol, args, type, vals, fn, rfl, hvals, hfn, rfl, rfl⟩ :=
    activationStep_call hstep
  have hdef : f.define tempPlacement dest u = some f' := by
    dsimp only [activations] at hresume
    rw [hinst] at hresume
    exact hresume
  obtain ⟨own, rest, hown, hdrop, hnext⟩ := h.laid.instr hinst
  have hinner := hset.allInner hmem h.laid.frameFor (List.mem_of_getElem? hinst) hown
  obtain ⟨loads, store, hargs, hloads, hstore, rfl⟩ := emitCall_eq_some hown
  obtain ⟨hinnerLoads, hinnerStore⟩ : AllInner frame loads ∧ AllInner frame store :=
    ⟨fun line hline => hinner line (List.mem_append_left _ (List.mem_append_left _ hline)),
      fun line hline => hinner line (List.mem_append_right _ hline)⟩
  rw [List.filterMap_append, List.filterMap_append] at hdrop hnext
  simp only [show [Line.call (.fn symbol)].filterMap peephole = [.call (.fn symbol)] from rfl,
    List.append_assoc] at hdrop hnext
  -- the arguments go to their registers
  obtain ⟨g, hsame, hholds, hallocated⟩ := h.mirrors.frame
  have hvals' : g.readAll (allocateTemps g.fn).placement args = some vals :=
    (hsame.readAll hset.temps hinst fun _ ht => ht).trans hvals
  obtain ⟨lines, m₂, hlines, hexec, hkeeps, hworld₂, hargs₂⟩ :=
    hholds.loadArgs hallocated (allocateTemps_valid _) (fun _ _ => none) hargs hvals'
  rw [hsame.fn] at hlines
  cases hloads.symm.trans hlines
  have hnocall : ∀ g, Line.call (.fn g) ∉ ([] : List Line) := fun _ => List.not_mem_nil
  have hmoves := moves_straight f.fn (allocateTemps f.fn) []
  have hstraightLoads : StraightBut [] loads := hmoves.loadArgs (by decide) hloads
  have hstraightStore : StraightBut [] store := hmoves.storeTempFrom hstore
  obtain ⟨hloaded, -⟩ := h.runs.emitted hinnerLoads (hstraightLoads.not_call hnocall) hdrop hexec
  have hrun₂ := hloaded rfl
  have hatCall := congrArg (List.drop (loads.filterMap peephole).length) hdrop
  rw [List.drop_drop, List.drop_left] at hatCall
  have hcall := getElem?_of_drop hatCall
  -- the function that is called runs to its `ret`
  obtain ⟨frame', params', body', m₃, hentered⟩ := hset.arrives_entered hfn
    (show (m₂.pushCell (.code s _)).HoldsArgs vals from hargs₂) hworld₂
  obtain ⟨k, m₄, hrun₄, hret, hrax, hworld₄⟩ := hcallee hentered
  have hreturns := hrun₄.returns hset.frames hset.framed (spares_sparing unit code symbol) hret
  have hback := hrun₂.call hcall
    (hrun₄.mono fun _ _ h => sparing_callee (List.mem_of_getElem? hcall) h) hret
  -- and its value goes to the place of the temp
  obtain ⟨m₅, hstored, hm₅⟩ : ∃ m₅, execLines host (fun _ _ => none) store
      (m₄.setRsp (m₄.rsp + 8)) = some (.next, m₅) ∧ Mirrors host unit m₅ f' w' :=
    h.mirrors.afterCall hset hinst hkeeps hreturns hrax hworld₄ hdef hstore
  obtain ⟨hafter, -⟩ := hback.emitted hinnerStore (hstraightStore.not_call hnocall)
    (drop_succ_of_drop hatCall) hstored
  have hdef_fn : f'.fn = f.fn := define_fn hdef
  have hdef_pc : f'.pc = f.pc + 1 := by
    cases hdef
    rfl
  refine ⟨m₅, by rw [hdef_fn]; exact h.lookup, by rw [hdef_fn]; exact h.laid, ?_, hm₅⟩
  rw [hdef_fn, hdef_pc, hnext, List.length_append, List.length_append]
  have hlast := hafter rfl
  rw [Nat.add_assoc, Nat.add_assoc] at hlast
  exact hlast

/-- The machine follows an activation from any of its instructions to its `ret`. -/
theorem Setting.completes {v : Word} (h : (activations tempPlacement unit).Completes
      (fun f _ => f.fn ∈ unit.functions → f.Computes) f w v w') :
    ∀ {s : Symbol} {frame : FrameLayout} {params body : List Line} {m₀ m : Machine W},
      Arrives host unit code s frame params body m₀ m f w → RunsToRet host unit code s m₀ v w' := by
  induction h with
  | ret _ hstep =>
      intro s frame params body m₀ m hm
      exact hset.arrives_ret hm hstep
  | next hok hstep _ ih =>
      intro s frame params body m₀ m hm
      have hmem := List.mem_of_find?_eq_some hm.lookup
      obtain ⟨m', hm'⟩ := hset.arrives_next hm (hok hmem) hstep
      exact ih hm'
  | call _ hstep _ hresume _ ihcallee ih =>
      intro s frame params body m₀ m hm
      obtain ⟨m', hm'⟩ := hset.arrives_call hm hstep ihcallee hresume
      exact ih hm'

end Activation

/-! ## One run -/

/-- One line of an activation, a whole call of a generated function taken as one. -/
inductive LineStep (host : Host W) (code : List (Symbol × List Line)) (s : Symbol) :
    ℕ × Machine W → ℕ × Machine W → Prop
  | next {i : ℕ} {m m' : Machine W} {line : Line} : (linesOf code s)[i]? = some line →
      execLine host line m = some (.next, m') → LineStep host code s (i, m) (i + 1, m')
  | jump {i k : ℕ} {m m' : Machine W} {line : Line} {l : AsmLabel} :
      (linesOf code s)[i]? = some line → execLine host line m = some (.jump l, m') →
      labelLine (linesOf code s) l = some k → LineStep host code s (i, m) (k, m')
  | call {i k : ℕ} {m m' : Machine W} {g : Symbol} :
      (linesOf code s)[i]? = some (.call (.fn g)) →
      Runs host code (fun _ _ => True) g (m.pushCell (.code s (i + 1))) k m' →
      (linesOf code g)[k]? = some .ret →
      LineStep host code s (i, m) (i + 1, m'.setRsp (m'.rsp + 8))

section Unique

variable {host : Host W} {code : List (Symbol × List Line)}

open Relation

theorem Runs.lineSteps {s : Symbol} {m m' : Machine W} {i : ℕ}
    (h : Runs host code (fun _ _ => True) s m i m') :
    ReflTransGen (LineStep host code s) (0, m) (i, m') := by
  induction h with
  | entry => exact .refl
  | next _ hline _ hstep ih => exact ih.tail (.next hline hstep)
  | jump _ hline _ hstep hlabel ih => exact ih.tail (.jump hline hstep hlabel)
  | call _ hline hcallee hret ih _ => exact ih.tail (.call hline hcallee hret)

/-- Nothing comes after a `ret`. -/
theorem eq_of_lineSteps_ret {s : Symbol} {i : ℕ} {m : Machine W} {p : ℕ × Machine W}
    (hret : (linesOf code s)[i]? = some .ret)
    (h : ReflTransGen (LineStep host code s) (i, m) p) : p = (i, m) := by
  rcases ReflTransGen.cases_head h with rfl | ⟨q, hstep, -⟩
  · rfl
  · cases hstep with
    | next hline hexec =>
        cases hret.symm.trans hline
        cases hexec
    | jump hline hexec _ =>
        cases hret.symm.trans hline
        cases hexec
    | call hline _ _ => cases hret.symm.trans hline

/-- A point on a run moves on by the only step there is. -/
theorem comparable_step {α : Type*} {r : α → α → Prop} {x y p : α} (hstep : r x y)
    (honly : ∀ q, r x q → q = y) (h : ReflTransGen r x p ∨ ReflTransGen r p x) :
    ReflTransGen r y p ∨ ReflTransGen r p y := by
  rcases h with hlater | hlater
  · rcases ReflTransGen.cases_head hlater with rfl | ⟨q, hq, hrest⟩
    · exact .inr (.single hstep)
    · rw [honly q hq] at hrest
      exact .inl hrest
  · exact .inr (hlater.tail hstep)

/-- Of two points an activation gets to, one comes after the other. -/
theorem Runs.comparable {s : Symbol} {m m₁ : Machine W} {i : ℕ}
    (h : Runs host code (fun _ _ => True) s m i m₁) :
    ∀ {j : ℕ} {m₂ : Machine W}, Runs host code (fun _ _ => True) s m j m₂ →
      ReflTransGen (LineStep host code s) (i, m₁) (j, m₂) ∨
        ReflTransGen (LineStep host code s) (j, m₂) (i, m₁) := by
  induction h with
  | entry => exact fun h' => .inl h'.lineSteps
  | next _ hline _ hstep ih =>
      -- a line is executed in one way, so the other run has taken this step or not come to it
      intro j m' h'
      refine comparable_step (.next hline hstep) ?_ (ih h')
      intro q hq
      cases hq with
      | next hline' hstep' =>
          cases hline.symm.trans hline'
          cases hstep.symm.trans hstep'
          rfl
      | jump hline' hstep' _ =>
          cases hline.symm.trans hline'
          cases hstep.symm.trans hstep'
      | call hline' _ _ =>
          cases hline.symm.trans hline'
          cases hstep
  | jump _ hline _ hstep hlabel ih =>
      intro j m' h'
      refine comparable_step (.jump hline hstep hlabel) ?_ (ih h')
      intro q hq
      cases hq with
      | next hline' hstep' =>
          cases hline.symm.trans hline'
          cases hstep.symm.trans hstep'
      | jump hline' hstep' hlabel' =>
          cases hline.symm.trans hline'
          cases hstep.symm.trans hstep'
          cases hlabel.symm.trans hlabel'
          rfl
      | call hline' _ _ =>
          cases hline.symm.trans hline'
          cases hstep
  | call _ hline hcallee hret ih ihcallee =>
      intro j m' h'
      refine comparable_step (.call hline hcallee hret) ?_ (ih h')
      intro q hq
      cases hq with
      | next hline' hstep' =>
          cases hline.symm.trans hline'
          cases hstep'
      | jump hline' hstep' _ =>
          cases hline.symm.trans hline'
          cases hstep'
      | call hline' hcallee' hret' =>
          cases hline.symm.trans hline'
          -- both runs of the function that is called end at its `ret`
          rcases ihcallee hcallee' with hafter | hafter
          · cases eq_of_lineSteps_ret hret hafter
            rfl
          · cases eq_of_lineSteps_ret hret' hafter
            rfl

/-- An activation returns in one way. -/
theorem Runs.ret_unique {s : Symbol} {m m₁ m₂ : Machine W} {i j : ℕ}
    (h : Runs host code (fun _ _ => True) s m i m₁) (hret : (linesOf code s)[i]? = some .ret)
    (h' : Runs host code (fun _ _ => True) s m j m₂) (hret' : (linesOf code s)[j]? = some .ret) :
    j = i ∧ m₂ = m₁ := by
  rcases h.comparable h' with hafter | hafter
  · cases eq_of_lineSteps_ret hret hafter
    exact ⟨rfl, rfl⟩
  · cases eq_of_lineSteps_ret hret' hafter
    exact ⟨rfl, rfl⟩

end Unique

/-! ## Programs -/

/-- No operator is reached whose lines do not compute it. -/
def OperatorsCompute (R : Runtime) (unit : IRUnit) (w : R.World) : Prop :=
  ∀ (c : Config R ℕ) (f : Frame R ℕ) (rest : List (Frame R ℕ)) (u : R.World),
    initialConfig unit w = some c → Reaches (step tempPlacement unit) c (.running (f :: rest) u) →
    f.fn ∈ unit.functions → f.Computes

section Program

variable {program : Program} {table : FunctionTable} {unit : IRUnit}

/-- `main` is found under its symbol. -/
theorem ProgramLowers.lookup_main (h : ProgramLowers program table unit)
    (hmain : ∀ fn ∈ program.functions, fn.name ≠ mainName) :
    ∃ fn, unit.functions.getLast? = some fn ∧ unit.lookup .main = some fn := by
  cases h with
  | @intro consts lowered ctx hfns hbody =>
      have hsymbol : ctx.toFunction.symbol = .main :=
        hbody.grows.symbol.trans (addParams_fields _ _).2.2.1
      have hnone : lowered.find? (·.symbol = Symbol.main) = none := by
        refine List.find?_eq_none.mpr ?_
        intro ir hir
        obtain ⟨fn, hfn, consts₁, final, -, hfnBody, rfl⟩ := hfns.origin ir hir
        have hstart : final.toFunction.symbol = symbolOf fn.name :=
          hfnBody.grows.symbol.trans (addParams_fields _ _).2.2.1
        rw [hstart, symbolOf, if_neg (hmain fn hfn)]
        simp
      refine ⟨ctx.toFunction, List.getLast?_concat, ?_⟩
      rw [IRUnit.lookup, List.find?_append, hnone, Option.none_or,
        List.find?_cons_of_pos (by simpa using hsymbol)]

variable {code : List (Symbol × List Line)} {host : Host W} {R : WordRuntime W}

theorem ProgramLowers.setting (h : ProgramLowers program table unit)
    (hrender : renderAssembly unit = some code)
    (hdata : ∀ l v, R.toRuntime.address unit.consts l = some v → host.dataAddress l = v)
    (hruntime : ∀ g, SysV (host.callRuntime g) (R.call g)) (hframes : host.KeepsFrames)
    (hnumbers : NumbersWritten program.numbers) (hsafe : SafeCalls unit code) :
    Setting unit code host R :=
  { temps := h.tempsOk
    slots := h.slotsIn
    params := h.params_nodup
    written := h.written hnumbers
    rendered := hrender
    data := hdata
    runtime := hruntime
    frames := hframes
    safe := hsafe }

end Program

/-! ### A program with a call -/

/-- No temp in a register is live across any call. -/
def IRFunction.freeAtCalls (fn : IRFunction) : Bool :=
  (List.range fn.instructions.length).all fun pc =>
    match fn.instructions[pc]? with
    | some (.call dest _ _ _) =>
        (List.range (defCount fn.instructions (pc + 1))).all fun t =>
          t = dest || (allocateTemps fn).locations t = none ||
            (List.range fn.instructions.length).all fun k =>
              k ≤ pc || ¬ t ∈ usesAt fn.instructions k
    | _ => true

/-- A test for `SafeCalls`. -/
theorem safeCalls_of_free {unit : IRUnit} {code : List (Symbol × List Line)}
    (h : ∀ fn ∈ unit.functions, fn.freeAtCalls = true) : SafeCalls unit code := by
  intro fn hfn pc dest g args type hinst _ t r hloc hlive
  obtain ⟨hdef, k, hk, huse⟩ := hlive
  obtain ⟨hpc, -⟩ := List.getElem?_eq_some_iff.mp hinst
  have hat := List.all_eq_true.mp (h fn hfn) pc (List.mem_range.mpr hpc)
  rw [hinst] at hat
  have ht := List.all_eq_true.mp hat t (List.mem_range.mpr hdef)
  simp only [Bool.or_eq_true, decide_eq_true_eq] at ht
  rcases ht with (ht | ht) | ht
  · exact ht
  · cases hloc.symm.trans ht
  · have hkt := List.all_eq_true.mp ht k (List.mem_range.mpr (lt_of_mem_usesAt huse))
    simp only [Bool.or_eq_true, decide_eq_true_eq] at hkt
    rcases hkt with hkt | hkt
    · exact absurd hk (Nat.not_le.mpr (Nat.lt_succ_of_le hkt))
    · exact absurd huse hkt

/-- Code without division, remainder and connectives. -/
def IRFunction.plain (fn : IRFunction) : Bool :=
  fn.instructions.all fun
    | .bin _ op _ _ => op = .add || op = .sub || op = .mul
    | _ => true

theorem operatorsCompute_of_plain {R : Runtime} {unit : IRUnit} {w : R.World}
    (h : ∀ fn ∈ unit.functions, fn.plain = true) : OperatorsCompute R unit w := by
  intro c f rest u _ _ hfn dest op left right a b hinst _ _
  have hat := List.all_eq_true.mp (h f.fn hfn) _ (List.mem_of_getElem? hinst)
  simp only [Bool.or_eq_true, decide_eq_true_eq] at hat
  rcases hat with (rfl | rfl) | rfl
  all_goals trivial

/-- Printing integers, over words: the world is what was printed. -/
def printRuntime : WordRuntime (List Word) where
  text := fun _ => 0
  list := fun _ _ => 0
  call
    | .print .i64, [v], printed => some (v, printed ++ [v])
    | _, _, _ => none

/-- A machine code function that prints. -/
def printHost : Host (List Word) :=
  { observarHost with
    callRuntime := fun
      | .print .i64, m =>
          some { m.setReg .rax (m.regs .rdi) with world := m.world ++ [m.regs .rdi] }
      | _, _ => none }

theorem printHost_keeps {g : RuntimeFn} {m m' : Machine (List Word)}
    (h : printHost.callRuntime g m = some m') :
    g = .print .i64 ∧ m.Keeps m' ∧ m'.regs .rax = m.regs .rdi ∧
      m'.world = m.world ++ [m.regs .rdi] := by
  unfold printHost at h
  dsimp only at h
  split at h
  · cases h
    refine ⟨rfl, ⟨fun r hr => ?_, rfl, rfl, fun _ _ => rfl⟩, by simp, rfl⟩
    have hne : r ≠ .rax := by
      rintro rfl
      exact absurd hr (by decide)
    simp [Function.update_of_ne hne]
  · cases h

theorem printHost_sysV (g : RuntimeFn) : SysV (printHost.callRuntime g) (printRuntime.call g) := by
  intro m vals v w hargs hv
  unfold printRuntime at hv
  dsimp only at hv
  split at hv
  · cases hv
    obtain ⟨r, hr, hrv⟩ := hargs 0 v rfl
    cases hr
    obtain ⟨-, hkeeps, hrax, hworld⟩ := printHost_keeps
      (show printHost.callRuntime (.print .i64) m = some _ from rfl)
    exact ⟨_, rfl, hkeeps, hrax.trans hrv, hworld.trans (by rw [hrv])⟩
  · cases hv

/-- `função dobro(x) retornar x + x fim mostrar dobro(21)`: the call spoils `rbx`. -/
def dobroProgram : Program :=
  { functions := [⟨"dobro", ["x"],
      [.ret (some (.binary .add (.identifier "x") (.identifier "x")))]⟩]
    body := [.show (.call (.identifier "dobro") [.number 21])] }

theorem dobroProgram_compiles : ∃ (unit : IRUnit) (code : List (Symbol × List Line)),
    compileProgram dobroProgram = .ok unit ∧ renderAssembly unit = some code ∧
      unit.consts = ⟨[], []⟩ ∧ ∀ fn ∈ unit.functions, fn.freeAtCalls = true ∧ fn.plain = true := by
  have hchecked : ((compileProgram dobroProgram).toOption.bind fun unit =>
      (renderAssembly unit).filter fun _ => unit.consts = ⟨[], []⟩ &&
        unit.functions.all fun fn => fn.freeAtCalls && fn.plain).isSome := by decide +kernel
  obtain ⟨code, hcode⟩ := Option.isSome_iff_exists.mp hchecked
  obtain ⟨unit, hunit, hcode⟩ := Option.bind_eq_some_iff.mp hcode
  obtain ⟨hrender, htests⟩ := Option.filter_eq_some_iff.mp hcode
  obtain ⟨hconsts, hall⟩ := Bool.and_eq_true_iff.mp htests
  refine ⟨unit, code, ?_, hrender, of_decide_eq_true hconsts, fun fn hfn => ?_⟩
  · cases hcompile : compileProgram dobroProgram with
    | error e => rw [hcompile] at hunit; cases hunit
    | ok u => rw [hcompile] at hunit; cases hunit; rfl
  · exact Bool.and_eq_true_iff.mp (List.all_eq_true.mp hall fn hfn)

end GatoCore.Native
