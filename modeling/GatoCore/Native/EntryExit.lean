import GatoCore.Native.CodeLayout

/-!
# Entering and leaving a function

From the entry of a function, with the arguments in the argument registers, the prologue and the
stores of the parameters lead to the first instruction with every argument in the slot of its
parameter. From the label of the epilogue a function comes to its `ret` with the value in `rax`.
-/

namespace GatoCore.Native

open GatoCore.Lib

variable {W : Type}

/-! ## The prologue and the epilogue -/

section Lines

variable {host : Host W} {callee : Symbol → Machine W → Option (Machine W)}

/-- A line that only moves the stack, and a register other than `r` at most. -/
def Line.MovesStack (r : Reg) : Line → Prop
  | .pushRbp | .popRbp | .enter | .push _ | .subRsp _ | .addRsp _ => True
  | .pop q => q ≠ r
  | _ => False

theorem execLines_movesStack {lines : List Line} {r : Reg} (h : ∀ line ∈ lines, line.MovesStack r) :
    ∀ {m m' : Machine W}, execLines host callee lines m = some (.next, m') →
      m'.world = m.world ∧ m'.regs r = m.regs r := by
  induction lines with
  | nil =>
      intro m m' hexec
      cases hexec
      exact ⟨rfl, rfl⟩
  | cons line lines ih =>
      intro m m' hexec
      obtain ⟨hline, hlines⟩ := List.forall_mem_cons.mp h
      have hgo : ∀ {m₁}, execLine host line m = some (.next, m₁) →
          m₁.world = m.world ∧ m₁.regs r = m.regs r →
          m'.world = m.world ∧ m'.regs r = m.regs r := by
        rintro m₁ hstep ⟨hworld, hreg⟩
        rw [execLines_cons hstep] at hexec
        obtain ⟨hworld', hreg'⟩ := ih hlines hexec
        exact ⟨hworld'.trans hworld, hreg'.trans hreg⟩
      cases line with
      | pushRbp => exact hgo rfl ⟨rfl, rfl⟩
      | enter => exact hgo rfl ⟨rfl, rfl⟩
      | push q => exact hgo rfl ⟨rfl, rfl⟩
      | subRsp n => exact hgo rfl ⟨rfl, rfl⟩
      | addRsp n => exact hgo rfl ⟨rfl, rfl⟩
      | pop q => exact hgo rfl ⟨rfl, Function.update_of_ne (Ne.symm hline) _ _⟩
      | popRbp =>
          cases hcell : m.memory m.rsp with
          | address a =>
              have hstep : execLine host .popRbp m =
                  some (.next, (m.setRbp a).setRsp (m.rsp + 8)) := by
                rw [execLine, hcell]
              exact hgo hstep ⟨rfl, rfl⟩
          | _ =>
              rw [execLines, execLine, hcell] at hexec
              cases hexec
      | _ => exact hline.elim

theorem prologue_quiet {frame : FrameLayout} {m m' : Machine W}
    (h : execLines host callee (prologue frame) m = some (.next, m')) :
    m'.world = m.world ∧ m'.regs = m.regs := by
  have hquiet : ∀ r, m'.world = m.world ∧ m'.regs r = m.regs r := by
    intro r
    refine execLines_movesStack ?_ h
    intro line hline
    rcases mem_prologue hline with rfl | rfl | ⟨q, rfl⟩ | ⟨bytes, rfl⟩
    all_goals trivial
  exact ⟨(hquiet .rax).1, funext fun r => (hquiet r).2⟩

theorem epilogue_dropLast (frame : FrameLayout) : (epilogue frame).dropLast =
    (if frame.frameBytes = 0 then [] else [.addRsp frame.frameBytes]) ++
      (frame.savedRegs.reverse.map .pop ++ [.popRbp]) := by
  rw [epilogue, List.append_assoc,
    show ([.popRbp, .ret] : List Line) = [.popRbp] ++ [.ret] from rfl,
    ← List.append_assoc, ← List.append_assoc, List.dropLast_concat, List.append_assoc]

/-- The epilogue of a body comes to its `ret` and leaves `rax` alone. -/
theorem epilogue_runs {frame : FrameLayout} {kept : Prop} {m₀ m : Machine W}
    (hbody : InBody m₀ frame kept m) (hrax : .rax ∉ frame.savedRegs) :
    ∃ m', execLines host callee (epilogue frame).dropLast m = some (.next, m') ∧
      m'.world = m.world ∧ m'.regs .rax = m.regs .rax := by
  obtain ⟨m₁, hfree, hrsp₁, hmemory₁⟩ : ∃ m₁, execLines host callee
      (if frame.frameBytes = 0 then [] else [.addRsp frame.frameBytes]) m = some (.next, m₁) ∧
      m₁.rsp = m.rsp + frame.frameBytes ∧ m₁.memory = m.memory := by
    split
    next hzero => exact ⟨m, rfl, by rw [hzero]; omega, rfl⟩
    next => exact ⟨_, rfl, rfl, rfl⟩
  obtain ⟨m₂, hpops, -, hrsp₂, hmemory₂, -, -⟩ :=
    execLines_pops host callee frame.savedRegs.reverse m₁
  -- the word on top is the saved frame pointer
  have htop : m₂.rsp = m₀.rsp - 8 := by
    rw [hrsp₂, hrsp₁, hbody.rsp, List.length_reverse]
    omega
  have hlink : m₂.memory m₂.rsp = .address m₀.rbp := by
    rw [htop, hmemory₂, hmemory₁, hbody.link]
  obtain ⟨m', hrun⟩ : ∃ m', execLines host callee (epilogue frame).dropLast m =
      some (.next, m') := by
    rw [epilogue_dropLast, execLines_append hfree, execLines_append hpops, execLines, execLine,
      hlink]
    exact ⟨_, rfl⟩
  refine ⟨m', hrun, execLines_movesStack ?_ hrun⟩
  intro line hline
  rw [epilogue_dropLast] at hline
  rcases List.mem_append.mp hline with hline | hline
  · split at hline
    · exact absurd hline List.not_mem_nil
    · rw [List.mem_singleton.mp hline]
      trivial
  · rcases List.mem_append.mp hline with hline | hline
    · obtain ⟨q, hq, rfl⟩ := List.mem_map.mp hline
      rintro rfl
      exact hrax (List.mem_reverse.mp hq)
    · rw [List.mem_singleton.mp hline]
      trivial

end Lines

/-! ## Registers in use -/

theorem collectRegs_subset {locations : ℕ → Option Location} {r : Reg} (temps : List ℕ)
    (h : r ∈ collectRegs locations temps) : ∃ t, locations t = some (.reg r) := by
  induction temps using List.reverseRecOn with
  | nil => exact absurd h List.not_mem_nil
  | append_singleton temps u ih =>
      rw [collectRegs, List.foldl_append, List.foldl_cons, List.foldl_nil] at h
      split at h
      next q hq =>
        split at h
        · exact ih h
        · rcases List.mem_append.mp h with h | h
          · exact ih h
          · cases List.mem_singleton.mp h
            exact ⟨u, hq⟩
      next => exact ih h

/-- Only allocatable registers are saved. -/
theorem usedRegs_allocatable {fn : IRFunction} {r : Reg} (h : r ∈ (allocateTemps fn).usedRegs) :
    r ∈ allocatable := by
  rw [allocateTemps, List.mem_insertionSort] at h
  obtain ⟨t, ht⟩ := collectRegs_subset _ h
  exact allocateTemps_reg_mem ht

theorem rax_not_saved {fn : IRFunction} {frame : FrameLayout}
    (h : frameFor fn (allocateTemps fn) = some frame) : .rax ∉ frame.savedRegs := by
  obtain ⟨frame', hframe, hsaved, -, -⟩ := frameFor_eq fn (allocateTemps fn)
  cases h.symm.trans hframe
  rw [hsaved]
  intro hmem
  exact absurd (usedRegs_allocatable hmem) (by decide)

/-! ## Parameters -/

theorem addParams_slots_range : ∀ (ps : List (String × Option Ty)) (ctx : LoweringContext),
    (addParams ctx ps).params.map (·.slot) =
      ctx.params.map (·.slot) ++ List.range' ctx.localList.length ps.length
  | [], ctx => by simp [addParams]
  | (name, type) :: ps, ctx => by
      rw [addParams, addParams_slots_range ps, LoweringContext.withParam_params, List.map_append,
        LoweringContext.withParam_localList, List.length_append, List.append_assoc]
      rfl

/-- Every parameter has a slot of its own. -/
theorem ProgramLowers.params_nodup {program : Program} {table : FunctionTable} {unit : IRUnit}
    (h : ProgramLowers program table unit) :
    ∀ fn ∈ unit.functions, (fn.params.map (·.slot)).Nodup := by
  intro fn hfn
  obtain ⟨consts, name, type, params, body, final, hbody, rfl⟩ := h.exists_body fn hfn
  rw [LoweringContext.toFunction, hbody.grows.params, newContext, addParams_slots_range]
  exact List.nodup_range'

section Params

variable {host : Host W} {callee : Symbol → Machine W → Option (Machine W)}

theorem slotWord_setMemory_self (m : Machine W) (offset : ℕ) (x : Word) :
    (m.setMemory (m.slot offset) (.word x)).slotWord host offset = x := by
  show host.bits (Function.update m.memory (m.slot offset) (.word x) (m.slot offset)) = x
  rw [Function.update_self, host.bits_word]

theorem slotWord_setMemory_slot (m : Machine W) {s s' : ℕ} (hne : s ≠ s') (c : Cell) :
    (m.setMemory (m.slot (localOffset s)) c).slotWord host (localOffset s') =
      m.slotWord host (localOffset s') := by
  refine congrArg host.bits (Function.update_of_ne ?_ _ _)
  show m.rbp - (localOffset s' : ℤ) ≠ m.rbp - (localOffset s : ℤ)
  simp only [localOffset]
  omega

/-- The stores of the parameters put each argument in its slot. -/
theorem storeParams_runs {params : List Local} : ∀ {regs : List Reg} {lines : List Line}
    {args : List Word} {m : Machine W}, storeParams params regs = some lines →
      (params.map (·.slot)).Nodup →
      (∀ (i : ℕ) v, args[i]? = some v → ∃ r, regs[i]? = some r ∧ m.regs r = v) →
      ∃ m', execLines host callee lines m = some (.next, m') ∧ m'.rbp = m.rbp ∧ m'.rsp = m.rsp ∧
        m'.world = m.world ∧
        (∀ s, s ∉ params.map (·.slot) → m'.slotWord host (localOffset s) =
          m.slotWord host (localOffset s)) ∧
        ∀ p ∈ params.zip args, m'.slotWord host (localOffset p.1.slot) = p.2 := by
  induction params with
  | nil =>
      intro regs lines args m h _ _
      cases h
      refine ⟨m, rfl, rfl, rfl, rfl, fun _ _ => rfl, ?_⟩
      intro p hp
      rw [List.zip_nil_left] at hp
      exact absurd hp List.not_mem_nil
  | cons param params ih =>
      intro regs lines args m h hnodup hargs
      cases regs with
      | nil => cases h
      | cons reg regs =>
          obtain ⟨rest, hrest, h⟩ := Option.bind_eq_some_iff.mp h
          cases h
          rw [List.map_cons, List.nodup_cons] at hnodup
          -- one argument goes to its own slot; the rest run from there and leave that slot alone
          let m₁ := m.setMemory (m.slot (localOffset param.slot)) (.word (m.regs reg))
          have htail : ∀ (i : ℕ) v, args.tail[i]? = some v →
              ∃ r, regs[i]? = some r ∧ m₁.regs r = v := by
            intro i v hv
            rw [List.getElem?_tail] at hv
            exact hargs (i + 1) v hv
          obtain ⟨m', hrun, hrbp, hrsp, hworld, hother, hslots⟩ := ih hrest hnodup.2 htail
          refine ⟨m', ?_, hrbp, hrsp, hworld, ?_, ?_⟩
          · rw [execLines_cons (show execLine host _ m = some (.next, m₁) from rfl)]
            exact hrun
          · intro s hs
            rw [List.map_cons, List.mem_cons, not_or] at hs
            rw [hother s hs.2]
            exact slotWord_setMemory_slot m (Ne.symm hs.1) _
          · intro p hp
            cases args with
            | nil => exact absurd hp List.not_mem_nil
            | cons v args =>
                rcases List.mem_cons.mp hp with rfl | hp
                · obtain ⟨r, hr, hv⟩ := hargs 0 v rfl
                  cases hr
                  rw [hother _ hnodup.1, ← hv]
                  exact slotWord_setMemory_self m _ _
                · exact hslots p hp

/-- A slot that holds an argument at the entry of a function is that of its parameter. -/
theorem entryLocals_mem {R : Runtime} {params : List Local} {args : List R.Value} {s : ℕ}
    {v : R.Value} (h : entryLocals params args s = some v) :
    ∃ p ∈ params.zip args, p.1.slot = s ∧ p.2 = v := by
  rcases foldl_update_eq_some _ _ _ _ h with h | h
  · cases h
  · exact h

end Params

end GatoCore.Native
