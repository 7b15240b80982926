import GatoCore.Native.Stack

/-!
# Where the lines of an instruction stand

A rendered function is its prologue, the stores of its parameters, the lines of its instructions one
after the other, and its epilogue. The peephole rules drop lines without an effect, so the lines of
an instruction start where those of the instructions before it end, and a label stands where its
instruction does.
-/

namespace GatoCore.Native

open GatoCore.Lib

variable {W : Type}

/-! ## Lines the peephole rules drop -/

section Peephole

variable {host : Host W} {callee : Symbol → Machine W → Option (Machine W)} {frame : FrameLayout}

theorem peephole_eq_some {line line' : Line} (h : peephole line = some line') : line' = line := by
  cases line with
  | mov dst src =>
      rw [peephole] at h
      split at h
      · cases h
      · cases h
        rfl
  | subRsp bytes =>
      rw [peephole] at h
      split at h
      · cases h
      · cases h
        rfl
  | addRsp bytes =>
      rw [peephole] at h
      split at h
      · cases h
      · cases h
        rfl
  | _ =>
      cases h
      rfl

/-- In a body only a move of a register to itself is dropped. -/
theorem execLine_of_dropped {line : Line} (hinner : line.Inner frame.frameBytes frame.savedRegs)
    (h : peephole line = none) (m : Machine W) : execLine host line m = some (.next, m) := by
  cases line with
  | mov dst src =>
      rw [peephole] at h
      split at h
      next heq =>
        subst heq
        show some (Control.next, { m with regs := Function.update m.regs dst (m.regs dst) }) = _
        rw [Function.update_eq_self]
      next => cases h
  | subRsp bytes => exact hinner.elim
  | addRsp bytes => exact hinner.elim
  | _ => cases h

theorem execLines_peephole {lines : List Line} (h : AllInner frame lines) :
    ∀ m : Machine W, execLines host callee (lines.filterMap peephole) m =
      execLines host callee lines m := by
  induction lines with
  | nil => exact fun _ => rfl
  | cons line lines ih =>
      intro m
      have hrest := ih fun l hl => h l (List.mem_cons_of_mem _ hl)
      cases hpeep : peephole line with
      | none =>
          have hline : execLine host line m = some (.next, m) :=
            execLine_of_dropped (h line List.mem_cons_self) hpeep m
          rw [List.filterMap_cons_none hpeep, execLines_cons hline, hrest]
      | some line' =>
          cases peephole_eq_some hpeep
          rw [List.filterMap_cons_some hpeep, execLines, execLines]
          split
          · rfl
          · exact hrest _
          · exact congrArg _ (funext hrest)
          · rfl

end Peephole

/-! ## The lines of an instruction -/

/-- A line that goes on to the next one and is no place to go to. -/
def Line.Straight : Line → Prop
  | .movImm _ _ | .mov _ _ | .load _ _ | .store _ _ | .lea _ _ | .neg _ | .cmp _ _ | .cmpImm _ _
  | .set _ | .movzx _ | .cqo | .idiv _ | .alu _ _ _ => True
  | .call _ | .label _ | .jmp _ | .jne _ => False
  | .push _ | .pop _ | .pushRbp | .popRbp | .enter | .subRsp _ | .addRsp _ | .ret => False

/-- The lines of an instruction that are not straight. -/
def Instr.transfers : Instr → List Line
  | .call _ symbol _ _ => [.call (.fn symbol)]
  | .callRuntime _ symbol _ _ => [.call (.runtime symbol)]
  | .print _ valueType => [.call (.runtime (.print valueType))]
  | .label name => [.label (.control name)]
  | .jmp target => [.jmp (.control target)]
  | .br _ thenTarget elseTarget => [.jne (.control thenTarget), .jmp (.control elseTarget)]
  | .ret _ _ => [.jmp .epilogue]
  | _ => []

/-- All lines are straight, but for those listed. -/
def StraightBut (transfers lines : List Line) : Prop :=
  ∀ line ∈ lines, line.Straight ∨ line ∈ transfers

section Straight

variable {fn : IRFunction} {alloc : Allocation} {transfers : List Line}

theorem StraightBut.nil : StraightBut transfers [] := fun _ h => absurd h List.not_mem_nil

theorem StraightBut.cons {line : Line} {lines : List Line}
    (hline : line.Straight ∨ line ∈ transfers) (h : StraightBut transfers lines) :
    StraightBut transfers (line :: lines) := by
  intro l hl
  rcases List.mem_cons.mp hl with rfl | hl
  · exact hline
  · exact h l hl

theorem StraightBut.append {a b : List Line} (ha : StraightBut transfers a)
    (hb : StraightBut transfers b) : StraightBut transfers (a ++ b) := by
  intro line hline
  rcases List.mem_append.mp hline with hline | hline
  · exact ha line hline
  · exact hb line hline

theorem StraightBut.single {line : Line} (hline : line.Straight ∨ line ∈ transfers) :
    StraightBut transfers [line] := .cons hline .nil

theorem StraightBut.self (transfers : List Line) : StraightBut transfers transfers :=
  fun _ h => .inr h

theorem moves_straight (fn : IRFunction) (alloc : Allocation) (transfers : List Line) :
    Moves fn alloc fun line => line.Straight ∨ line ∈ transfers where
  take _ _ := .inl trivial
  put _ _ := .inl trivial
  load _ _ := .inl trivial
  store _ _ := .inl trivial

theorem booleanize_straight (reg : Reg) : StraightBut transfers (emitBooleanize reg reg) := by
  rw [emitBooleanize_self]
  exact .cons (.inl trivial) (.cons (.inl trivial) (.single (.inl trivial)))

theorem ownLines_straight (inst : Instr) (r : Reg) :
    StraightBut inst.transfers (inst.ownLines r) := by
  cases inst with
  | constInt dest value type => exact .single (.inl trivial)
  | constStr dest label => exact .single (.inl trivial)
  | constPtr dest label type => exact .single (.inl trivial)
  | loadLocal dest slot type => exact .single (.inl trivial)
  | storeLocal slot type value => exact .single (.inl trivial)
  | neg dest value => exact .single (.inl trivial)
  | not dest value =>
      exact .cons (.inl trivial) (.cons (.inl trivial) (.single (.inl trivial)))
  | bin dest bin left right =>
      refine .append ?_ ?_
      · exact .cons (.inl trivial) (.cons (.inl trivial) (.cons (.inl trivial) (.cons (.inl trivial)
          (.cons (.inl trivial) (.cons (.inl trivial) (.single (.inl trivial)))))))
      · intro line hline
        obtain ⟨op, -, rfl⟩ := List.mem_map.mp hline
        exact .inl trivial
  | cmp dest cmp left right =>
      cases right with
      | imm value =>
          exact .cons (.inl trivial) (.cons (.inl trivial) (.single (.inl trivial)))
      | temp right =>
          exact .cons (.inl trivial) (.cons (.inl trivial) (.single (.inl trivial)))
  | br cond thenLabel elseLabel => exact .cons (.inl trivial) (.self _)
  -- what is left consists of a transfer alone
  | call dest symbol args type => exact .self _
  | callRuntime dest symbol args type => exact .self _
  | print value type => exact .self _
  | label name => exact .self _
  | jmp label => exact .self _
  | ret value type => exact .self _

theorem emitInstruction_straight {inst : Instr} {lines : List Line}
    (h : emitInstruction fn alloc inst = some lines) : StraightBut inst.transfers lines :=
  (moves_straight fn alloc _).emitInstruction (fun r _ => ownLines_straight inst r) h

end Straight

/-! ## The lines of a function -/

/-- The parts of the lines of a function. -/
structure LaidOut (fn : IRFunction) (frame : FrameLayout) (params body lines : List Line) :
    Prop where
  frameFor : frameFor fn (allocateTemps fn) = some frame
  storeParams : storeParams fn.params argRegs = some params
  emit : emitInstructions fn (allocateTemps fn) fn.instructions = some body
  lines : lines = prologue frame ++ params ++ body.filterMap peephole ++ [.label .epilogue] ++
    epilogue frame

/-- The lines the instructions before `pc` leave after the peephole rules. -/
def linesBefore (fn : IRFunction) (pc : ℕ) : List Line :=
  ((emitInstructions fn (allocateTemps fn) (fn.instructions.take pc)).getD []).filterMap peephole

/-- The line the instruction at `pc` starts at. -/
def lineOf (fn : IRFunction) (frame : FrameLayout) (params : List Line) (pc : ℕ) : ℕ :=
  (prologue frame ++ params ++ linesBefore fn pc).length

theorem storeParams_kept {params : List Local} : ∀ {regs : List Reg} {lines : List Line},
    storeParams params regs = some lines →
      (∀ line ∈ lines, ∃ offset r, line = .store offset r) ∧
        lines.filterMap peephole = lines := by
  induction params with
  | nil =>
      intro regs lines h
      cases h
      exact ⟨fun _ hmem => absurd hmem List.not_mem_nil, rfl⟩
  | cons param params ih =>
      intro regs lines h
      cases regs with
      | nil => cases h
      | cons reg regs =>
          obtain ⟨rest, hrest, h⟩ := Option.bind_eq_some_iff.mp h
          cases h
          obtain ⟨hstores, hkept⟩ := ih hrest
          refine ⟨List.forall_mem_cons.mpr ⟨⟨_, _, rfl⟩, hstores⟩, ?_⟩
          exact congrArg (_ :: ·) hkept

theorem renderFunction_laidOut {fn : IRFunction} {lines : List Line}
    (h : renderFunction fn = some lines) :
    ∃ frame params body, LaidOut fn frame params body lines := by
  obtain ⟨frame, hframe, h⟩ := Option.bind_eq_some_iff.mp h
  obtain ⟨params, hparams, h⟩ := Option.bind_eq_some_iff.mp h
  obtain ⟨body, hbody, h⟩ := Option.bind_eq_some_iff.mp h
  cases h
  refine ⟨frame, params, body, hframe, hparams, hbody, ?_⟩
  simp only [List.filterMap_append, prologue_peephole, epilogue_peephole,
    (storeParams_kept hparams).2]
  rfl

theorem emitInstructions_append {fn : IRFunction} {alloc : Allocation} (a b : List Instr) :
    emitInstructions fn alloc (a ++ b) = (emitInstructions fn alloc a).bind fun first =>
      (emitInstructions fn alloc b).map (first ++ ·) := by
  induction a with
  | nil => simp [emitInstructions]
  | cons inst a ih =>
      rw [List.cons_append, emitInstructions, emitInstructions, ih]
      cases emitInstruction fn alloc inst with
      | none => rfl
      | some first =>
          cases emitInstructions fn alloc a with
          | none => rfl
          | some rest =>
              cases emitInstructions fn alloc b with
              | none => rfl
              | some last => simp

/-- A line of a body is a line of one of its instructions. -/
theorem mem_emitInstructions {fn : IRFunction} {alloc : Allocation} {code : List Instr} :
    ∀ {body : List Line} {line : Line}, emitInstructions fn alloc code = some body →
      line ∈ body → ∃ inst own, emitInstruction fn alloc inst = some own ∧ line ∈ own := by
  induction code with
  | nil =>
      intro body line h hline
      cases h
      exact absurd hline List.not_mem_nil
  | cons inst code ih =>
      intro body line h hline
      obtain ⟨own, hown, h⟩ := Option.bind_eq_some_iff.mp h
      obtain ⟨rest, hrest, h⟩ := Option.bind_eq_some_iff.mp h
      cases h
      rcases List.mem_append.mp hline with hline | hline
      · exact ⟨inst, own, hown, hline⟩
      · exact ih hrest hline

section Layout

variable {fn : IRFunction} {frame : FrameLayout} {params body lines : List Line}
  (h : LaidOut fn frame params body lines)
include h

/-- The lines of the instructions before, at and from after a place. -/
theorem LaidOut.split {pc : ℕ} {inst : Instr} (hinst : fn.instructions[pc]? = some inst) :
    ∃ own rest, emitInstruction fn (allocateTemps fn) inst = some own ∧
      body.filterMap peephole = linesBefore fn pc ++ (own.filterMap peephole ++ rest) ∧
      linesBefore fn (pc + 1) = linesBefore fn pc ++ own.filterMap peephole := by
  have hcode : fn.instructions = fn.instructions.take (pc + 1) ++ fn.instructions.drop (pc + 1) :=
    (List.take_append_drop _ _).symm
  have htake : fn.instructions.take (pc + 1) = fn.instructions.take pc ++ [inst] := by
    rw [List.take_add_one, hinst, Option.toList_some]
  have hbody := h.emit
  rw [hcode, emitInstructions_append, htake] at hbody
  obtain ⟨first, hfirst, hbody⟩ := Option.bind_eq_some_iff.mp hbody
  obtain ⟨after, hafter, rfl⟩ := Option.map_eq_some_iff.mp hbody
  have hupto := hfirst
  rw [emitInstructions_append] at hfirst
  obtain ⟨before, hbefore, hfirst⟩ := Option.bind_eq_some_iff.mp hfirst
  obtain ⟨own', hown', rfl⟩ := Option.map_eq_some_iff.mp hfirst
  obtain ⟨own, hown, hlast⟩ := Option.bind_eq_some_iff.mp hown'
  cases hlast
  rw [List.append_nil] at hupto ⊢
  refine ⟨own, after.filterMap peephole, hown, ?_, ?_⟩
  · rw [linesBefore, hbefore, Option.getD_some, List.filterMap_append, List.filterMap_append,
      List.append_assoc]
  · rw [linesBefore, linesBefore, htake, hupto, hbefore, Option.getD_some, Option.getD_some,
      List.filterMap_append]

/-- The lines of an instruction stand where it starts. -/
theorem LaidOut.instr {pc : ℕ} {inst : Instr} (hinst : fn.instructions[pc]? = some inst) :
    ∃ own rest, emitInstruction fn (allocateTemps fn) inst = some own ∧
      lines.drop (lineOf fn frame params pc) = own.filterMap peephole ++ rest ∧
      lineOf fn frame params (pc + 1) =
        lineOf fn frame params pc + (own.filterMap peephole).length := by
  obtain ⟨own, rest, hown, hbody, hnext⟩ := h.split hinst
  refine ⟨own, rest ++ ([.label .epilogue] ++ epilogue frame), hown, ?_, ?_⟩
  · have hlines : lines = (prologue frame ++ params ++ linesBefore fn pc) ++
        (own.filterMap peephole ++ (rest ++ ([.label .epilogue] ++ epilogue frame))) := by
      rw [h.lines, hbody]
      simp only [List.append_assoc]
    rw [hlines, lineOf, List.drop_left]
  · rw [lineOf, lineOf, hnext, ← List.append_assoc, List.length_append]

theorem LaidOut.linesBefore_length :
    linesBefore fn fn.instructions.length = body.filterMap peephole := by
  rw [linesBefore, List.take_length, h.emit, Option.getD_some]

/-- After the last instruction comes the label of the epilogue. -/
theorem LaidOut.epilogueLines :
    lines.drop (lineOf fn frame params fn.instructions.length) =
      [.label .epilogue] ++ epilogue frame := by
  have hlines : lines = (prologue frame ++ params ++ body.filterMap peephole) ++
      ([.label .epilogue] ++ epilogue frame) := by
    rw [h.lines, List.append_assoc]
  rw [hlines, lineOf, h.linesBefore_length, List.drop_left]

end Layout

/-! ## Labels -/

/-- Only the line of a label is a place to go to. -/
theorem StraightBut.label_mem {transfers lines : List Line} (h : StraightBut transfers lines)
    {l : AsmLabel} (hl : .label l ∈ lines) : .label l ∈ transfers :=
  (h _ hl).resolve_left id

theorem label_mem_transfers {inst : Instr} {l : Label}
    (h : .label (.control l) ∈ inst.transfers) : inst = .label l := by
  cases inst with
  | label name =>
      cases List.mem_singleton.mp h
      rfl
  | call _ _ _ _ => cases List.mem_singleton.mp h
  | callRuntime _ _ _ _ => cases List.mem_singleton.mp h
  | print _ _ => cases List.mem_singleton.mp h
  | jmp _ => cases List.mem_singleton.mp h
  | br _ _ _ =>
      rcases List.mem_cons.mp h with h | h
      · cases h
      · cases List.mem_singleton.mp h
  | ret _ _ => cases List.mem_singleton.mp h
  | _ => exact absurd h List.not_mem_nil

theorem epilogue_not_mem_transfers (inst : Instr) : .label .epilogue ∉ inst.transfers := by
  cases inst <;> simp [Instr.transfers]

theorem findIdx?_append_of_forall {α : Type} {p : α → Bool} {a b : List α}
    (h : ∀ x ∈ a, p x = false) : (a ++ b).findIdx? p = (b.findIdx? p).map (a.length + ·) := by
  rw [List.findIdx?_append, List.findIdx?_eq_none_iff.mpr h, Option.none_or]
  simp only [Nat.add_comm]

/-- A label in the lines of a list of instructions. -/
theorem findIdx?_emitInstructions {fn : IRFunction} {alloc : Allocation} {l : Label}
    {code : List Instr} : ∀ {body : List Line} {pc : ℕ},
      emitInstructions fn alloc code = some body → labelIndex code l = some pc →
      ∃ before, emitInstructions fn alloc (code.take pc) = some before ∧
        (body.filterMap peephole).findIdx? (· = .label (.control l)) =
          some (before.filterMap peephole).length := by
  induction code with
  | nil =>
      intro body pc _ hl
      cases hl
  | cons inst code ih =>
      intro body pc hbody hl
      obtain ⟨own, hown, hbody⟩ := Option.bind_eq_some_iff.mp hbody
      obtain ⟨rest, hrest, hbody⟩ := Option.bind_eq_some_iff.mp hbody
      cases hbody
      rw [labelIndex, List.findIdx?_cons] at hl
      by_cases heq : inst = .label l
      · subst heq
        simp only [decide_true, if_true] at hl
        cases hl
        cases hown
        refine ⟨[], rfl, ?_⟩
        simp [peephole, List.findIdx?_cons]
      · -- the lines of another instruction hold no such label
        simp only [heq, decide_false, Bool.false_eq_true, if_false] at hl
        obtain ⟨j, hj, rfl⟩ := Option.map_eq_some_iff.mp hl
        obtain ⟨before, hbefore, hfind⟩ := ih hrest hj
        refine ⟨own ++ before, by simp [emitInstructions, hown, hbefore], ?_⟩
        have hnot : ∀ line ∈ own.filterMap peephole,
            decide (line = .label (.control l)) = false := by
          intro line hline
          obtain ⟨source, hsource, hpeep⟩ := List.mem_filterMap.mp hline
          cases peephole_eq_some hpeep
          refine decide_eq_false ?_
          rintro rfl
          exact heq (label_mem_transfers ((emitInstruction_straight hown).label_mem hsource))
        rw [List.filterMap_append, findIdx?_append_of_forall hnot, hfind, List.filterMap_append,
          List.length_append]
        rfl

section Labels

variable {fn : IRFunction} {frame : FrameLayout} {params body lines : List Line}
  (h : LaidOut fn frame params body lines)
include h

/-- No line in front of the body is a label or calls a function. -/
theorem LaidOut.head_plain {line : Line} (hline : line ∈ prologue frame ++ params) :
    (∀ l, line ≠ .label l) ∧ ∀ target, line ≠ .call target := by
  rcases List.mem_append.mp hline with hline | hline
  · rcases mem_prologue hline with rfl | rfl | ⟨r, rfl⟩ | ⟨bytes, rfl⟩
    all_goals exact ⟨by simp, by simp⟩
  · obtain ⟨offset, r, rfl⟩ := (storeParams_kept h.storeParams).1 _ hline
    exact ⟨by simp, by simp⟩

theorem LaidOut.head_no_label (l : AsmLabel) :
    ∀ line ∈ prologue frame ++ params, decide (line = .label l) = false :=
  fun _ hline => decide_eq_false ((h.head_plain hline).1 l)

theorem LaidOut.label {l : Label} {pc : ℕ} (hl : labelIndex fn.instructions l = some pc) :
    labelLine lines (.control l) = some (lineOf fn frame params pc) := by
  obtain ⟨before, hbefore, hfind⟩ := findIdx?_emitInstructions h.emit hl
  have hlines : linesBefore fn pc = before.filterMap peephole := by
    rw [linesBefore, hbefore, Option.getD_some]
  rw [labelLine, h.lines, List.append_assoc, List.append_assoc,
    findIdx?_append_of_forall (h.head_no_label _), List.findIdx?_append, hfind, Option.some_or,
    Option.map_some, lineOf, hlines, ← List.length_append]

theorem LaidOut.epilogueLabel : labelLine lines .epilogue =
    some (lineOf fn frame params fn.instructions.length) := by
  -- only the instructions of the source leave labels in the body
  have hnot : ∀ line ∈ body.filterMap peephole, decide (line = .label .epilogue) = false := by
    intro line hline
    obtain ⟨source, hsource, hpeep⟩ := List.mem_filterMap.mp hline
    cases peephole_eq_some hpeep
    refine decide_eq_false ?_
    rintro rfl
    obtain ⟨inst, own, hown, hmem⟩ := mem_emitInstructions h.emit hsource
    exact epilogue_not_mem_transfers inst ((emitInstruction_straight hown).label_mem hmem)
  rw [labelLine, h.lines, List.append_assoc, List.append_assoc,
    findIdx?_append_of_forall (h.head_no_label _), findIdx?_append_of_forall hnot, lineOf,
    h.linesBefore_length, List.findIdx?_append, List.findIdx?_cons]
  simp only [decide_true, if_true, Option.some_or, Option.map_some, Nat.add_zero,
    ← List.length_append]

end Labels

end GatoCore.Native
