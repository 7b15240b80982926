import GatoCore.Native.Emit

/-!
# The lines of an instruction

An instruction is emitted as lines of its own between lines that move temps. What holds of both
holds of every line emitted for it.
-/

namespace GatoCore.Native

open GatoCore.Lib GatoCore.Lib.Binary64

/-- The lines that load temps into registers a call may overwrite, and those that store them. -/
structure Moves (fn : IRFunction) (alloc : Allocation) (P : Line → Prop) : Prop where
  take : ∀ {dst : Reg} (src : Reg), dst ∉ calleeSaved → P (.mov dst src)
  put : ∀ {t : ℕ} {dst : Reg} (src : Reg), alloc.locations t = some (.reg dst) → P (.mov dst src)
  load : ∀ {t slot : ℕ} {dst : Reg}, dst ∉ calleeSaved → alloc.locations t = some (.spill slot) →
    P (.load dst (spillOffset fn slot))
  store : ∀ {t slot : ℕ} (src : Reg), alloc.locations t = some (.spill slot) →
    P (.store (spillOffset fn slot) src)

/-- The register an instruction makes its value in: that of a temp, or one a call may overwrite. -/
def MadeIn (alloc : Allocation) (r : Reg) : Prop :=
  r ∉ calleeSaved ∨ ∃ t, alloc.locations t = some (.reg r)

/-- The lines of an instruction besides those that move temps; `r` is where it makes its value. -/
def Instr.ownLines (r : Reg) : Instr → List Line
  | .constInt _ value _ => [.movImm r (numberText value)]
  | .constStr _ l | .constPtr _ l _ => [.lea r l]
  | .loadLocal _ slot _ => [.load r (localOffset slot)]
  | .storeLocal slot _ _ => [.store (localOffset slot) .rax]
  | .neg _ _ => [.neg .rax]
  | .not _ _ => [.cmpImm .rax ['0'], .set .e, .movzx .rax]
  | .bin _ op _ _ =>
      [.cqo, .idiv .rcx, .cmpImm .rax ['0'], .cmpImm .rcx ['0'], .set .ne, .movzx .rax,
        .movzx .rcx] ++ op.alu.toList.map (.alu · .rax .rcx)
  | .cmp _ op _ (.imm value) => [.cmpImm .rax (numberText value), .set op.cond, .movzx .rax]
  | .cmp _ op _ (.temp _) => [.cmp .rax .rcx, .set op.cond, .movzx .rax]
  | .call _ symbol _ _ => [.call (.fn symbol)]
  | .callRuntime _ symbol _ _ => [.call (.runtime symbol)]
  | .print _ valueType => [.call (.runtime (.print valueType))]
  | .label name => [.label (.control name)]
  | .jmp target => [.jmp (.control target)]
  | .br _ thenLabel elseLabel =>
      [.cmpImm .rax ['0'], .jne (.control thenLabel), .jmp (.control elseLabel)]
  | .ret _ _ => [.jmp .epilogue]

section Moves

variable {fn : IRFunction} {alloc : Allocation} {P : Line → Prop}

/-- The loads and the store around the line of a call. -/
theorem emitCall_eq_some {dest : ℕ} {target : CallTarget} {args : List ℕ} {lines : List Line}
    (h : emitCall fn alloc dest target args = some lines) : ∃ loads store,
      args.length ≤ argRegs.length ∧ loadArgs fn alloc args argRegs = some loads ∧
      storeTempFrom fn alloc dest .rax = some store ∧ lines = loads ++ [.call target] ++ store := by
  unfold emitCall at h
  split at h
  · cases h
  next hlen =>
    obtain ⟨loads, hloads, h⟩ := Option.bind_eq_some_iff.mp h
    obtain ⟨store, hstore, h⟩ := Option.bind_eq_some_iff.mp h
    cases h
    exact ⟨loads, store, Nat.not_lt.mp hlen, hloads, hstore, rfl⟩

theorem emitBooleanize_self (reg : Reg) :
    emitBooleanize reg reg = [.cmpImm reg ['0'], .set .ne, .movzx reg] := by
  simp [emitBooleanize]

namespace Moves

variable (hP : Moves fn alloc P)
include hP

theorem loadTempInto {t : ℕ} {target : Reg} {lines : List Line} (htarget : target ∉ calleeSaved)
    (h : loadTempInto fn alloc t target = some lines) : ∀ line ∈ lines, P line := by
  obtain ⟨loc, hloc, h⟩ := Option.bind_eq_some_iff.mp h
  cases loc with
  | reg name =>
      simp only [Option.pure_def, Option.some.injEq] at h
      subst h
      split
      · exact List.forall_mem_nil _
      · exact List.forall_mem_singleton.mpr (hP.take name htarget)
  | spill slot =>
      cases h
      exact List.forall_mem_singleton.mpr (hP.load htarget hloc)

theorem storeTempFrom {t : ℕ} {source : Reg} {lines : List Line}
    (h : storeTempFrom fn alloc t source = some lines) : ∀ line ∈ lines, P line := by
  obtain ⟨loc, hloc, h⟩ := Option.bind_eq_some_iff.mp h
  cases loc with
  | reg name =>
      simp only [Option.pure_def, Option.some.injEq] at h
      subst h
      split
      · exact List.forall_mem_nil _
      · exact List.forall_mem_singleton.mpr (hP.put source hloc)
  | spill slot =>
      cases h
      exact List.forall_mem_singleton.mpr (hP.store source hloc)

theorem emitDirect {dest : ℕ} {line : Reg → Line} {lines : List Line}
    (hline : ∀ r, MadeIn alloc r → P (line r)) (h : emitDirect fn alloc dest line = some lines) :
    ∀ line ∈ lines, P line := by
  obtain ⟨loc, hloc, h⟩ := Option.bind_eq_some_iff.mp h
  cases loc with
  | reg name =>
      cases h
      exact List.forall_mem_singleton.mpr (hline name (.inr ⟨dest, hloc⟩))
  | spill slot =>
      cases h
      refine List.forall_mem_cons.mpr ⟨hline .rax (.inl (by decide)), ?_⟩
      exact List.forall_mem_singleton.mpr (hP.store .rax hloc)

theorem loadArgs {args : List ℕ} : ∀ {regs : List Reg} {lines : List Line},
    (∀ r ∈ regs, r ∉ calleeSaved) → loadArgs fn alloc args regs = some lines →
      ∀ line ∈ lines, P line := by
  induction args with
  | nil =>
      intro regs lines _ h
      cases h
      exact List.forall_mem_nil _
  | cons arg args ih =>
      intro regs lines hregs h
      cases regs with
      | nil => cases h
      | cons reg regs =>
          obtain ⟨hreg, hregs⟩ := List.forall_mem_cons.mp hregs
          obtain ⟨first, hfirst, h⟩ := Option.bind_eq_some_iff.mp h
          obtain ⟨rest, hrest, h⟩ := Option.bind_eq_some_iff.mp h
          cases h
          exact List.forall_mem_append.mpr ⟨hP.loadTempInto hreg hfirst, ih hregs hrest⟩

theorem emitCall {dest : ℕ} {target : CallTarget} {args : List ℕ} {lines : List Line}
    (htarget : P (.call target)) (h : emitCall fn alloc dest target args = some lines) :
    ∀ line ∈ lines, P line := by
  obtain ⟨loads, store, -, hloads, hstore, rfl⟩ := emitCall_eq_some h
  have hcall := List.forall_mem_singleton.mpr htarget
  exact List.forall_mem_append.mpr ⟨List.forall_mem_append.mpr
    ⟨hP.loadArgs (by decide) hloads, hcall⟩, hP.storeTempFrom hstore⟩

theorem emit_bin {dest left right : ℕ} {bin : BinOp} {lines : List Line}
    (hown : ∀ line ∈ (Instr.bin dest bin left right).ownLines .rax, P line)
    (h : emitInstruction fn alloc (.bin dest bin left right) = some lines) :
    ∀ line ∈ lines, P line := by
  have hbool : ∀ reg ∈ [Reg.rax, .rcx], ∀ line ∈ emitBooleanize reg reg, P line := by
    intro reg hreg line hline
    rw [emitBooleanize_self] at hline
    refine hown line (List.mem_append_left _ ?_)
    simp only [List.mem_cons, List.not_mem_nil, or_false] at hreg hline
    rcases hreg with rfl | rfl <;> rcases hline with rfl | rfl | rfl <;> decide
  have halu : ∀ op, bin.alu = some op → P (.alu op .rax .rcx) := by
    intro op hop
    refine hown _ (List.mem_append_right _ (List.mem_map_of_mem ?_))
    rw [hop]
    exact List.mem_singleton_self op
  rw [emitInstruction] at h
  split at h
  · obtain ⟨lefts, hlefts, h⟩ := Option.bind_eq_some_iff.mp h
    obtain ⟨rights, hrights, h⟩ := Option.bind_eq_some_iff.mp h
    obtain ⟨store, hstore, h⟩ := Option.bind_eq_some_iff.mp h
    cases h
    simp only [List.forall_mem_append, List.forall_mem_singleton]
    exact ⟨⟨⟨⟨hP.loadTempInto (by decide) hlefts, hown _ (by simp [Instr.ownLines])⟩,
      hP.loadTempInto (by decide) hrights⟩, hown _ (by simp [Instr.ownLines])⟩,
      hP.storeTempFrom hstore⟩
  · split at h
    · obtain ⟨lefts, hlefts, h⟩ := Option.bind_eq_some_iff.mp h
      obtain ⟨rights, hrights, h⟩ := Option.bind_eq_some_iff.mp h
      obtain ⟨op, hop, h⟩ := Option.bind_eq_some_iff.mp h
      obtain ⟨store, hstore, h⟩ := Option.bind_eq_some_iff.mp h
      cases h
      simp only [List.forall_mem_append, List.forall_mem_singleton]
      exact ⟨⟨⟨⟨⟨hP.loadTempInto (by decide) hlefts, hbool .rax (by decide)⟩,
        hP.loadTempInto (by decide) hrights⟩, hbool .rcx (by decide)⟩, halu op hop⟩,
        hP.storeTempFrom hstore⟩
    · obtain ⟨lefts, hlefts, h⟩ := Option.bind_eq_some_iff.mp h
      obtain ⟨rights, hrights, h⟩ := Option.bind_eq_some_iff.mp h
      obtain ⟨op, hop, h⟩ := Option.bind_eq_some_iff.mp h
      obtain ⟨store, hstore, h⟩ := Option.bind_eq_some_iff.mp h
      cases h
      simp only [List.forall_mem_append, List.forall_mem_singleton]
      exact ⟨⟨⟨hP.loadTempInto (by decide) hlefts, hP.loadTempInto (by decide) hrights⟩,
        halu op hop⟩, hP.storeTempFrom hstore⟩

/-- What holds of the moves of temps and of the own lines of an instruction holds of every line it
is emitted as. -/
theorem emitInstruction {inst : Instr} {lines : List Line}
    (hown : ∀ r, MadeIn alloc r → ∀ line ∈ inst.ownLines r, P line)
    (h : emitInstruction fn alloc inst = some lines) : ∀ line ∈ lines, P line := by
  have hrax := hown .rax (.inl (by decide))
  cases inst with
  | constInt dest value type =>
      exact hP.emitDirect (fun r hr => hown r hr _ (List.mem_singleton_self _)) h
  | constStr dest label =>
      exact hP.emitDirect (fun r hr => hown r hr _ (List.mem_singleton_self _)) h
  | constPtr dest label type =>
      exact hP.emitDirect (fun r hr => hown r hr _ (List.mem_singleton_self _)) h
  | loadLocal dest slot type =>
      exact hP.emitDirect (fun r hr => hown r hr _ (List.mem_singleton_self _)) h
  | storeLocal slot type value =>
      obtain ⟨loads, hloads, h⟩ := Option.bind_eq_some_iff.mp h
      cases h
      exact List.forall_mem_append.mpr ⟨hP.loadTempInto (by decide) hloads, hrax⟩
  | neg dest value =>
      obtain ⟨loads, hloads, h⟩ := Option.bind_eq_some_iff.mp h
      obtain ⟨store, hstore, h⟩ := Option.bind_eq_some_iff.mp h
      cases h
      simp only [List.forall_mem_append]
      exact ⟨⟨hP.loadTempInto (by decide) hloads, hrax⟩, hP.storeTempFrom hstore⟩
  | not dest value =>
      obtain ⟨loads, hloads, h⟩ := Option.bind_eq_some_iff.mp h
      obtain ⟨store, hstore, h⟩ := Option.bind_eq_some_iff.mp h
      cases h
      simp only [List.forall_mem_append]
      exact ⟨⟨hP.loadTempInto (by decide) hloads, hrax⟩, hP.storeTempFrom hstore⟩
  | bin dest bin left right => exact hP.emit_bin hrax h
  | cmp dest cmp left right =>
      cases right with
      | imm value =>
          obtain ⟨lefts, hlefts, h⟩ := Option.bind_eq_some_iff.mp h
          obtain ⟨store, hstore, h⟩ := Option.bind_eq_some_iff.mp h
          cases h
          simp only [List.forall_mem_append]
          exact ⟨⟨hP.loadTempInto (by decide) hlefts, hrax⟩, hP.storeTempFrom hstore⟩
      | temp right =>
          obtain ⟨lefts, hlefts, h⟩ := Option.bind_eq_some_iff.mp h
          obtain ⟨rights, hrights, h⟩ := Option.bind_eq_some_iff.mp h
          obtain ⟨store, hstore, h⟩ := Option.bind_eq_some_iff.mp h
          cases h
          simp only [List.forall_mem_append]
          exact ⟨⟨⟨hP.loadTempInto (by decide) hlefts, hP.loadTempInto (by decide) hrights⟩, hrax⟩,
            hP.storeTempFrom hstore⟩
  | call dest symbol args type => exact hP.emitCall (hrax _ (List.mem_singleton_self _)) h
  | callRuntime dest symbol args type => exact hP.emitCall (hrax _ (List.mem_singleton_self _)) h
  | print value type =>
      obtain ⟨loads, hloads, h⟩ := Option.bind_eq_some_iff.mp h
      cases h
      exact List.forall_mem_append.mpr ⟨hP.loadTempInto (by decide) hloads, hrax⟩
  | label name =>
      cases h
      exact hrax
  | jmp label =>
      cases h
      exact hrax
  | br cond thenLabel elseLabel =>
      obtain ⟨loads, hloads, h⟩ := Option.bind_eq_some_iff.mp h
      cases h
      exact List.forall_mem_append.mpr ⟨hP.loadTempInto (by decide) hloads, hrax⟩
  | ret value type =>
      obtain ⟨loads, hloads, h⟩ := Option.bind_eq_some_iff.mp h
      cases h
      exact List.forall_mem_append.mpr ⟨hP.loadTempInto (by decide) hloads, hrax⟩

end Moves

end Moves

end GatoCore.Native
