import GatoCore.Native.AllocFacts
import GatoCore.Native.EmitCorrect
import GatoCore.Native.EmittedLines
import GatoCore.Native.Slots

/-!
# Frames

A rendered function is a prologue, lines that do not touch the frame, and an epilogue. The prologue
saves the frame pointer and the registers in use and makes room for the locals and the spilled
temps; the epilogue takes all of it back.
-/

namespace GatoCore.Native

open GatoCore.Lib

variable {W : Type}

/-! ## Lines that leave the frame alone -/

/-- The functions of the C runtime follow the System V convention. -/
def Host.KeepsFrames (host : Host W) : Prop :=
  ∀ g m m', host.callRuntime g m = some m' → m.Keeps m'

/-- An offset of a word of a frame. -/
def InFrame (frameBytes offset : ℕ) : Prop := 8 ∣ offset ∧ 0 < offset ∧ offset ≤ frameBytes

/-- A callee-saved register may be written if the prologue saved it. -/
def Writable (saved : List Reg) (r : Reg) : Prop := r ∈ calleeSaved → r ∈ saved

/-- A line between the prologue and the epilogue. -/
def Line.Inner (frameBytes : ℕ) (saved : List Reg) : Line → Prop
  | .movImm dst _ | .mov dst _ | .lea dst _ | .neg dst | .movzx dst | .alu _ dst _ =>
      Writable saved dst
  | .load dst offset => Writable saved dst ∧ InFrame frameBytes offset
  | .store offset _ => InFrame frameBytes offset
  | .cmp _ _ | .cmpImm _ _ | .set _ | .cqo | .idiv _ | .call _ | .label _ | .jmp _ | .jne _ => True
  | .push _ | .pop _ | .pushRbp | .popRbp | .enter | .subRsp _ | .addRsp _ | .ret => False

/-- The stack words a line stores to. -/
def Line.storedAt (m : Machine W) : Line → Option ℤ
  | .store offset _ => some (m.slot offset)
  | _ => none

theorem update_of_writable {saved : List Reg} {dst r : Reg} (hdst : Writable saved dst)
    (hr : r ∈ calleeSaved) (hsaved : r ∉ saved) (regs : Reg → Word) (w : Word) :
    Function.update regs dst w r = regs r := by
  refine Function.update_of_ne ?_ _ _
  rintro rfl
  exact hsaved (hdst hr)

theorem writable_of_not_mem {saved : List Reg} {r : Reg} (h : r ∉ calleeSaved) :
    Writable saved r := fun hr => absurd hr h

/-- What an inner line leaves as it is; a call of a generated function is not executed by
`execLine`. -/
structure Machine.KeepsOutside (m m' : Machine W) (saved : List Reg) (stored : Option ℤ) :
    Prop where
  rbp : m'.rbp = m.rbp
  rsp : m'.rsp = m.rsp
  regs : ∀ r ∈ calleeSaved, r ∉ saved → m'.regs r = m.regs r
  memory : ∀ a, m.rsp ≤ a → some a ≠ stored → m'.memory a = m.memory a

namespace Machine.KeepsOutside

variable {m m₁ : Machine W} {saved : List Reg}

theorem refl (m : Machine W) (saved : List Reg) : m.KeepsOutside m saved none :=
  ⟨rfl, rfl, fun _ _ _ => rfl, fun _ _ _ => rfl⟩

theorem setReg (hk : m.KeepsOutside m₁ saved none) {dst : Reg} (hdst : Writable saved dst)
    (w : Word) : m.KeepsOutside (m₁.setReg dst w) saved none := by
  refine ⟨hk.rbp, hk.rsp, fun r hr hsaved => ?_, hk.memory⟩
  rw [Machine.setReg_regs, update_of_writable hdst hr hsaved]
  exact hk.regs r hr hsaved

theorem setFlags (hk : m.KeepsOutside m₁ saved none) (flags : Option Flags) :
    m.KeepsOutside (m₁.setFlags flags) saved none :=
  ⟨hk.rbp, hk.rsp, hk.regs, hk.memory⟩

end Machine.KeepsOutside

theorem execLine_inner {host : Host W} (hhost : host.KeepsFrames) {frameBytes : ℕ}
    {saved : List Reg} {line : Line} (hinner : line.Inner frameBytes saved) {m m' : Machine W}
    {control : Control} (h : execLine host line m = some (control, m')) :
    m.KeepsOutside m' saved (line.storedAt m) := by
  have hself := Machine.KeepsOutside.refl m saved
  have hrax : Writable saved .rax := writable_of_not_mem (by decide)
  have hrdx : Writable saved .rdx := writable_of_not_mem (by decide)
  cases line with
  | movImm dst text =>
      obtain ⟨value, -, hm'⟩ := Option.bind_eq_some_iff.mp h
      cases hm'
      exact hself.setReg hinner _
  | mov dst src =>
      cases h
      exact hself.setReg hinner _
  | load dst offset =>
      cases h
      exact hself.setReg hinner.1 _
  | store offset src =>
      cases h
      refine ⟨rfl, rfl, fun _ _ _ => rfl, fun a _ hne => ?_⟩
      exact Function.update_of_ne (fun ha => hne (congrArg some ha)) _ _
  | lea dst label =>
      cases h
      exact hself.setReg hinner _
  | neg reg =>
      cases h
      exact (hself.setReg hinner _).setFlags _
  | cmp a b =>
      cases h
      exact hself.setFlags _
  | cmpImm a text =>
      obtain ⟨word, -, hm'⟩ := Option.bind_eq_some_iff.mp h
      cases hm'
      exact hself.setFlags _
  | set cond =>
      rw [execLine] at h
      cases hf : m.flags with
      | none => simp [hf] at h
      | some f =>
          simp only [hf, Option.bind_eq_bind, Option.bind_some, Option.some.injEq,
            Prod.mk.injEq] at h
          obtain ⟨-, rfl⟩ := h
          exact hself.setReg hrax _
  | movzx dst =>
      cases h
      exact hself.setReg hinner _
  | cqo =>
      cases h
      exact hself.setReg hrdx _
  | idiv r =>
      rw [execLine] at h
      cases hq : idivResult (m.regs .rdx) (m.regs .rax) (m.regs r) with
      | none => simp [hq] at h
      | some p =>
          simp only [hq, Option.bind_eq_bind, Option.bind_some, Option.some.injEq,
            Prod.mk.injEq] at h
          obtain ⟨-, rfl⟩ := h
          exact ((hself.setReg hrax _).setReg hrdx _).setFlags _
  | alu op dst src =>
      cases h
      exact (hself.setReg hinner _).setFlags _
  | call target =>
      cases target with
      | fn g =>
          cases h
          exact hself
      | runtime g =>
          rw [execLine, Option.map_eq_some_iff] at h
          obtain ⟨m₁, hm₁, heq⟩ := h
          cases heq
          have hk := hhost g m _ hm₁
          exact ⟨hk.rbp, hk.rsp, fun r hr _ => hk.regs r hr, fun a ha _ => hk.memory a ha⟩
  | label name =>
      cases h
      exact hself
  | jmp l =>
      cases h
      exact hself
  | jne l =>
      rw [execLine] at h
      cases hf : m.flags with
      | none => simp [hf] at h
      | some f =>
          simp only [hf, Option.bind_eq_bind, Option.bind_some, Option.some.injEq,
            Prod.mk.injEq] at h
          obtain ⟨-, rfl⟩ := h
          exact hself
  -- the lines of the prologue and the epilogue stand in no instruction
  | push r => exact hinner.elim
  | pop r => exact hinner.elim
  | pushRbp => exact hinner.elim
  | popRbp => exact hinner.elim
  | enter => exact hinner.elim
  | subRsp bytes => exact hinner.elim
  | addRsp bytes => exact hinner.elim
  | ret => exact hinner.elim

/-! ## Saving and restoring registers -/

section Saves

variable (host : Host W) (callee : Symbol → Machine W → Option (Machine W))

/-- Registers pushed one after the other. -/
theorem execLines_pushes (rs : List Reg) : ∀ m : Machine W,
    ∃ m', execLines host callee (rs.map .push) m = some (.next, m') ∧ m'.regs = m.regs ∧
      m'.rbp = m.rbp ∧ m'.rsp = m.rsp - 8 * rs.length ∧
      (∀ a, m.rsp ≤ a → m'.memory a = m.memory a) ∧
      ∀ (i : ℕ) r, rs[i]? = some r → m'.memory (m.rsp - 8 - 8 * i) = .word (m.regs r) := by
  induction rs with
  | nil =>
      intro m
      exact ⟨m, rfl, rfl, rfl, by simp, fun _ _ => rfl, fun i r hi => by simp at hi⟩
  | cons r rs ih =>
      intro m
      obtain ⟨m', hrun, hregs, hrbp, hrsp, hmemory, hsaved⟩ := ih (m.pushCell (.word (m.regs r)))
      have htop : m'.memory (m.rsp - 8) = .word (m.regs r) := by
        rw [hmemory (m.rsp - 8) (le_refl _)]
        exact Function.update_self _ _ _
      refine ⟨m', ?_, hregs, hrbp, ?_, ?_, ?_⟩
      · rw [List.map_cons, execLines_cons (show execLine host (.push r) m =
          some (.next, _) from rfl),
          hrun]
      · rw [hrsp, List.length_cons]
        show m.rsp - 8 - 8 * (rs.length : ℤ) = _
        omega
      · intro a ha
        rw [hmemory a (by show m.rsp - 8 ≤ a; omega)]
        exact Function.update_of_ne (by omega) _ _
      · intro i r' hi
        cases i with
        | zero =>
            cases hi
            simpa using htop
        | succ i =>
            have hnext := hsaved i r' hi
            have haddr : m.rsp - 8 - 8 * ((i + 1 : ℕ) : ℤ) = m.rsp - 8 - 8 - 8 * (i : ℤ) := by
              omega
            rw [haddr]
            exact hnext

/-- Registers popped one after the other, of words that hold `v`. -/
theorem execLines_pops (rs : List Reg) : ∀ m : Machine W,
    ∃ m', execLines host callee (rs.map .pop) m = some (.next, m') ∧ m'.rbp = m.rbp ∧
      m'.rsp = m.rsp + 8 * rs.length ∧ m'.memory = m.memory ∧
      (∀ r, r ∉ rs → m'.regs r = m.regs r) ∧
      ∀ v : Reg → Word, (∀ (i : ℕ) r, rs[i]? = some r → m.memory (m.rsp + 8 * i) = .word (v r)) →
        ∀ r ∈ rs, m'.regs r = v r := by
  induction rs with
  | nil =>
      intro m
      exact ⟨m, rfl, rfl, by simp, rfl, fun _ _ => rfl, fun _ _ r hr => absurd hr List.not_mem_nil⟩
  | cons r rs ih =>
      intro m
      obtain ⟨m', hrun, hrbp, hrsp, hmemory, hothers, hvalues⟩ :=
        ih ((m.setReg r (host.bits (m.memory m.rsp))).setRsp (m.rsp + 8))
      refine ⟨m', ?_, hrbp, ?_, hmemory, ?_, ?_⟩
      · rw [List.map_cons, execLines_cons (show execLine host (.pop r) m =
          some (.next, _) from rfl),
          hrun]
      · rw [hrsp, List.length_cons]
        show m.rsp + 8 + 8 * (rs.length : ℤ) = _
        omega
      · intro r' hr'
        obtain ⟨hne, hr'⟩ := List.ne_and_not_mem_of_not_mem_cons hr'
        rw [hothers r' hr']
        exact Function.update_of_ne hne _ _
      · intro v hv r' hr'
        by_cases hin : r' ∈ rs
        · refine hvalues v ?_ r' hin
          intro i q hq
          have hword := hv (i + 1) q hq
          have haddr : m.rsp + 8 * ((i + 1 : ℕ) : ℤ) = m.rsp + 8 + 8 * (i : ℤ) := by omega
          rw [haddr] at hword
          exact hword
        · -- the last register of that name that is popped
          rcases List.mem_cons.mp hr' with rfl | hr'
          · have hword := hv 0 r' rfl
            have haddr : m.rsp + 8 * ((0 : ℕ) : ℤ) = m.rsp := by omega
            rw [haddr] at hword
            rw [hothers r' hin]
            simp only [Machine.setRsp_regs, Machine.setReg_regs, Function.update_self]
            rw [hword, host.bits_word]
          · exact absurd hr' hin

end Saves

/-! ## Frames -/

/-- The test of `padFrame` fails at most once. -/
theorem frameFor_eq (fn : IRFunction) (alloc : Allocation) :
    ∃ frame, frameFor fn alloc = some frame ∧ frame.savedRegs = alloc.usedRegs ∧
      8 * (fn.locals.length + alloc.spillCount) ≤ frame.frameBytes ∧
      (8 * frame.savedRegs.length + frame.frameBytes) % 16 = 0 := by
  have hpad : ∀ currentMod rawBytes, (currentMod = 0 ∨ currentMod = 8) → rawBytes % 8 = 0 →
      ∃ bytes, padFrame currentMod 2 rawBytes = some bytes ∧ rawBytes ≤ bytes ∧
        bytes % 16 = currentMod := by
    intro currentMod rawBytes hmod hraw
    by_cases hfirst : rawBytes % 16 = currentMod
    · exact ⟨rawBytes, by simp [padFrame, hfirst], Nat.le_refl _, hfirst⟩
    · have hsecond : (rawBytes + 8) % 16 = currentMod := by omega
      exact ⟨rawBytes + 8, by simp [padFrame, hfirst, hsecond], by omega, hsecond⟩
  have hraw : (fn.locals.length + alloc.spillCount) * 8 % 8 = 0 := Nat.mul_mod_left _ _
  have hmod : (if alloc.usedRegs.length % 2 = 0 then 0 else 8) = 0 ∨
      (if alloc.usedRegs.length % 2 = 0 then 0 else 8) = 8 := by
    split
    · exact .inl rfl
    · exact .inr rfl
  obtain ⟨bytes, hbytes, hle, halign⟩ := hpad _ _ hmod hraw
  refine ⟨⟨bytes, alloc.usedRegs⟩, ?_, rfl, by simp only; omega, ?_⟩
  · simp only [frameFor, hbytes, Option.bind_eq_bind, Option.bind_some, Option.pure_def]
  · simp only
    split at halign <;> omega

/-- The machine inside a function that was entered with `m₀`; `kept` says whether the callee-saved
registers and their saved words are kept too. -/
structure InBody (m₀ : Machine W) (frame : FrameLayout) (kept : Prop) (m : Machine W) : Prop where
  rbp : m.rbp = m₀.rsp - 8
  rsp : m.rsp = m₀.rsp - 8 - 8 * frame.savedRegs.length - frame.frameBytes
  caller : ∀ a, m₀.rsp ≤ a → m.memory a = m₀.memory a
  link : m.memory (m₀.rsp - 8) = .address m₀.rbp
  regs : kept → ∀ r ∈ calleeSaved, r ∉ frame.savedRegs → m.regs r = m₀.regs r
  saves : kept → ∀ (i : ℕ) r, frame.savedRegs[i]? = some r →
    m.memory (m₀.rsp - 8 - 8 - 8 * i) = .word (m₀.regs r)

/-- What a function gives back: the stack of its caller, and the registers if they were kept. -/
structure Returns (m₀ : Machine W) (kept : Prop) (m : Machine W) : Prop where
  rbp : m.rbp = m₀.rbp
  rsp : m.rsp = m₀.rsp
  caller : ∀ a, m₀.rsp ≤ a → m.memory a = m₀.memory a
  regs : kept → ∀ r ∈ calleeSaved, m.regs r = m₀.regs r

section Frame

variable {host : Host W} {callee : Symbol → Machine W → Option (Machine W)} {frame : FrameLayout}
  {m₀ : Machine W} {kept : Prop}

variable (host callee frame m₀ kept) in
theorem prologue_inBody : ∃ m, execLines host callee (prologue frame) m₀ = some (.next, m) ∧
    InBody m₀ frame kept m := by
  have hlink : execLines host callee [.pushRbp, .enter] m₀
      = some (.next, (m₀.pushCell (.address m₀.rbp)).setRbp (m₀.rsp - 8)) := rfl
  obtain ⟨m₁, hpushes, hregs, hrbp, hrsp, hmemory, hsaved⟩ :=
    execLines_pushes host callee frame.savedRegs
      ((m₀.pushCell (.address m₀.rbp)).setRbp (m₀.rsp - 8))
  have hstack : (m₀.pushCell (.address m₀.rbp)).rsp = m₀.rsp - 8 := rfl
  simp only [Machine.setRbp_rsp, Machine.setRbp_regs, Machine.setRbp_rbp, hstack]
    at hregs hrbp hrsp hmemory hsaved
  have hcaller : ∀ a, m₀.rsp ≤ a → m₁.memory a = m₀.memory a := by
    intro a ha
    rw [hmemory a (by omega)]
    exact Function.update_of_ne (by omega) _ _
  have hsavedRbp : m₁.memory (m₀.rsp - 8) = .address m₀.rbp := by
    rw [hmemory _ (le_refl _)]
    exact Function.update_self _ _ _
  have hword : ∀ (i : ℕ) r, frame.savedRegs[i]? = some r →
      m₁.memory (m₀.rsp - 8 - 8 - 8 * i) = .word (m₀.regs r) := hsaved
  have hsplit : prologue frame = [.pushRbp, .enter] ++ (frame.savedRegs.map .push ++
      if frame.frameBytes = 0 then [] else [.subRsp frame.frameBytes]) := List.append_assoc ..
  rw [hsplit, execLines_append hlink, execLines_append hpushes]
  split
  next hzero =>
    refine ⟨m₁, rfl, hrbp, ?_, hcaller, hsavedRbp, fun _ r _ _ => ?_, fun _ => hword⟩
    · rw [hrsp, hzero]
      omega
    · rw [hregs]
      rfl
  next =>
    refine ⟨_, rfl, hrbp, ?_, hcaller, hsavedRbp, fun _ r _ _ => ?_, fun _ => hword⟩
    · show m₁.rsp - frame.frameBytes = _
      rw [hrsp]
    · show m₁.regs r = _
      rw [hregs]
      rfl

/-- The epilogue of a body, up to its `ret`. -/
theorem epilogue_returns {m m' : Machine W} (hbody : InBody m₀ frame kept m)
    (h : execLines host callee (epilogue frame).dropLast m = some (.next, m')) :
    Returns m₀ kept m' := by
  have hsplit : (epilogue frame).dropLast = (if frame.frameBytes = 0 then []
      else [.addRsp frame.frameBytes]) ++ (frame.savedRegs.reverse.map .pop ++ [.popRbp]) := by
    rw [epilogue, List.append_assoc, show ([.popRbp, .ret] : List Line) = [.popRbp] ++
      [.ret] from rfl,
      ← List.append_assoc, ← List.append_assoc, List.dropLast_concat, List.append_assoc]
  rw [hsplit] at h
  -- the frame is freed
  obtain ⟨m₁, hfree, hregs₁, hrbp₁, hrsp₁, hmemory₁⟩ : ∃ m₁, execLines host callee
      (if frame.frameBytes = 0 then [] else [.addRsp frame.frameBytes]) m = some (.next, m₁) ∧
      m₁.regs = m.regs ∧ m₁.rbp = m.rbp ∧ m₁.rsp = m.rsp + frame.frameBytes ∧
      m₁.memory = m.memory := by
    split
    next hzero => exact ⟨m, rfl, rfl, rfl, by rw [hzero]; omega, rfl⟩
    next => exact ⟨_, rfl, rfl, rfl, rfl, rfl⟩
  obtain ⟨m₂, hpops, hrbp₂, hrsp₂, hmemory₂, hothers, hvalues⟩ :=
    execLines_pops host callee frame.savedRegs.reverse m₁
  rw [execLines_append hfree, execLines_append hpops, execLines, execLine] at h
  -- the word on top is the saved frame pointer
  have htop : m₂.rsp = m₀.rsp - 8 := by
    rw [hrsp₂, hrsp₁, hbody.rsp, List.length_reverse]
    omega
  have hlink : m₂.memory m₂.rsp = .address m₀.rbp := by
    rw [htop, hmemory₂, hmemory₁, hbody.link]
  rw [hlink] at h
  simp only [execLines, Option.some.injEq, Prod.mk.injEq, true_and] at h
  subst h
  refine ⟨rfl, ?_, ?_, ?_⟩
  · show m₂.rsp + 8 = _
    omega
  · intro a ha
    show m₂.memory a = _
    rw [hmemory₂, hmemory₁, hbody.caller a ha]
  · intro hkept r hr
    show m₂.regs r = _
    by_cases hsaved : r ∈ frame.savedRegs
    · refine hvalues m₀.regs ?_ r (List.mem_reverse.mpr hsaved)
      intro i q hq
      obtain ⟨hlt, hget⟩ := List.getElem?_eq_some_iff.mp hq
      rw [List.length_reverse] at hlt
      have hindex : frame.savedRegs[frame.savedRegs.length - 1 - i]? = some q := by
        rw [← List.getElem?_reverse hlt, hq]
      have hword := hbody.saves hkept _ q hindex
      rw [hmemory₁, ← hword]
      congr 1
      rw [hrsp₁, hbody.rsp]
      omega
    · rw [hothers r (by rwa [List.mem_reverse]), hregs₁]
      exact hbody.regs hkept r hr hsaved

end Frame

/-! ## The lines of a body -/

/-- The frame has room for every local and spilled temp, and saves every register in use. -/
structure FrameFits (fn : IRFunction) (alloc : Allocation) (frame : FrameLayout) : Prop where
  bytes : 8 * (fn.locals.length + alloc.spillCount) ≤ frame.frameBytes
  regs : ∀ t r, alloc.locations t = some (.reg r) → r ∈ frame.savedRegs
  spills : ∀ t s, alloc.locations t = some (.spill s) → s < alloc.spillCount

/-- All lines are inner ones. -/
def AllInner (frame : FrameLayout) (lines : List Line) : Prop :=
  ∀ line ∈ lines, line.Inner frame.frameBytes frame.savedRegs

section Inner

variable {fn : IRFunction} {alloc : Allocation} {frame : FrameLayout}

theorem AllInner.append {a b : List Line} (ha : AllInner frame a) (hb : AllInner frame b) :
    AllInner frame (a ++ b) := by
  intro line hline
  rcases List.mem_append.mp hline with hline | hline
  · exact ha line hline
  · exact hb line hline

theorem AllInner.cons {line : Line} {lines : List Line}
    (hline : line.Inner frame.frameBytes frame.savedRegs) (hlines : AllInner frame lines) :
    AllInner frame (line :: lines) := List.forall_mem_cons.mpr ⟨hline, hlines⟩

theorem AllInner.nil : AllInner frame [] := fun _ h => absurd h List.not_mem_nil

theorem AllInner.single {line : Line} (hline : line.Inner frame.frameBytes frame.savedRegs) :
    AllInner frame [line] := .cons hline .nil

variable (hfits : FrameFits fn alloc frame)
include hfits

theorem FrameFits.local {slot : ℕ} (h : slot < fn.locals.length) :
    InFrame frame.frameBytes (localOffset slot) := by
  have hbytes := hfits.bytes
  refine ⟨Dvd.intro_left _ rfl, ?_, ?_⟩
  · simp only [localOffset]
    omega
  · simp only [localOffset]
    omega

theorem FrameFits.spill {t slot : ℕ} (h : alloc.locations t = some (.spill slot)) :
    InFrame frame.frameBytes (spillOffset fn slot) := by
  have hbytes := hfits.bytes
  have hslot := hfits.spills t slot h
  refine ⟨Dvd.intro_left _ rfl, ?_, ?_⟩
  · simp only [spillOffset]
    omega
  · simp only [spillOffset]
    omega

theorem FrameFits.moves : Moves fn alloc (Line.Inner frame.frameBytes frame.savedRegs) where
  take _ hdst := writable_of_not_mem hdst
  put _ hdst := fun _ => hfits.regs _ _ hdst
  load hdst hslot := ⟨writable_of_not_mem hdst, hfits.spill hslot⟩
  store _ hslot := hfits.spill hslot

theorem FrameFits.ownLines {inst : Instr} (hslots : inst.SlotsIn fn.locals.length) {r : Reg}
    (hr : MadeIn alloc r) : AllInner frame (inst.ownLines r) := by
  have hmade : Writable frame.savedRegs r := by
    rcases hr with hr | ⟨t, ht⟩
    · exact writable_of_not_mem hr
    · exact fun _ => hfits.regs t r ht
  have hrax : Writable frame.savedRegs .rax := writable_of_not_mem (by decide)
  have hrcx : Writable frame.savedRegs .rcx := writable_of_not_mem (by decide)
  cases inst with
  | constInt dest value type => exact .single hmade
  | constStr dest label => exact .single hmade
  | constPtr dest label type => exact .single hmade
  | loadLocal dest slot type => exact .single ⟨hmade, hfits.local hslots⟩
  | storeLocal slot type value => exact .single (hfits.local hslots)
  | neg dest value => exact .single hrax
  | not dest value => exact .cons trivial (.cons trivial (.single hrax))
  | bin dest bin left right =>
      refine .append ?_ ?_
      · exact .cons trivial (.cons trivial (.cons trivial (.cons trivial (.cons trivial
          (.cons hrax (.single hrcx))))))
      · intro line hline
        obtain ⟨op, -, rfl⟩ := List.mem_map.mp hline
        exact hrax
  | cmp dest cmp left right =>
      cases right with
      | imm value => exact .cons trivial (.cons trivial (.single hrax))
      | temp right => exact .cons trivial (.cons trivial (.single hrax))
  | call dest symbol args type => exact .single trivial
  | callRuntime dest symbol args type => exact .single trivial
  | print value type => exact .single trivial
  | label name => exact .single trivial
  | jmp label => exact .single trivial
  | br cond thenLabel elseLabel => exact .cons trivial (.cons trivial (.single trivial))
  | ret value type => exact .single trivial

theorem FrameFits.emitInstruction {inst : Instr} (hslots : inst.SlotsIn fn.locals.length)
    {lines : List Line} (h : emitInstruction fn alloc inst = some lines) : AllInner frame lines :=
  hfits.moves.emitInstruction (fun _ hr => hfits.ownLines hslots hr) h

theorem FrameFits.emitInstructions {code : List Instr} :
    ∀ {lines : List Line}, (∀ inst ∈ code, inst.SlotsIn fn.locals.length) →
      emitInstructions fn alloc code = some lines → AllInner frame lines := by
  induction code with
  | nil =>
      intro lines _ h
      cases h
      exact .nil
  | cons inst code ih =>
      intro lines hslots h
      obtain ⟨hinst, hcode⟩ := List.forall_mem_cons.mp hslots
      obtain ⟨first, hfirst, h⟩ := Option.bind_eq_some_iff.mp h
      obtain ⟨rest, hrest, h⟩ := Option.bind_eq_some_iff.mp h
      cases h
      exact (hfits.emitInstruction hinst hfirst).append (ih hcode hrest)

theorem FrameFits.storeParams {params : List Local} :
    ∀ {regs : List Reg} {lines : List Line}, (∀ param ∈ params, param.slot < fn.locals.length) →
      storeParams params regs = some lines → AllInner frame lines := by
  induction params with
  | nil =>
      intro regs lines _ h
      cases h
      exact .nil
  | cons param params ih =>
      intro regs lines hslots h
      obtain ⟨hparam, hparams⟩ := List.forall_mem_cons.mp hslots
      cases regs with
      | nil => cases h
      | cons reg regs =>
          obtain ⟨rest, hrest, h⟩ := Option.bind_eq_some_iff.mp h
          cases h
          exact .cons (hfits.local hparam) (ih hparams hrest)

omit hfits in
/-- What the peephole rules leave of inner lines is inner. -/
theorem AllInner.peephole {lines : List Line} (h : AllInner frame lines) :
    AllInner frame (lines.filterMap peephole) := by
  intro line hline
  obtain ⟨source, hsource, hpeep⟩ := List.mem_filterMap.mp hline
  have hinner := h source hsource
  cases source with
  | mov dst src =>
      rw [Native.peephole] at hpeep
      split at hpeep
      · cases hpeep
      · cases hpeep
        exact hinner
  | subRsp bytes => exact hinner.elim
  | addRsp bytes => exact hinner.elim
  | _ =>
      cases hpeep
      exact hinner

end Inner

/-! ## Rendered functions -/

/-- A prologue, inner lines and an epilogue. -/
structure Framed (frame : FrameLayout) (mid lines : List Line) : Prop where
  lines : lines = prologue frame ++ mid ++ epilogue frame
  inner : AllInner frame mid

theorem frameFits (fn : IRFunction) {frame : FrameLayout}
    (h : frameFor fn (allocateTemps fn) = some frame) : FrameFits fn (allocateTemps fn) frame := by
  obtain ⟨frame', hframe, hsaved, hbytes, -⟩ := frameFor_eq fn (allocateTemps fn)
  cases h.symm.trans hframe
  refine ⟨hbytes, ?_, ?_⟩
  · intro t r ht
    rw [hsaved]
    exact allocateTemps_reg_used ht
  · intro t s ht
    exact allocateTemps_spill_lt ht

theorem prologue_peephole (frame : FrameLayout) :
    (prologue frame).filterMap peephole = prologue frame := by
  rw [prologue, List.filterMap_append, List.filterMap_append, List.filterMap_map]
  congr 1
  · congr 1
    exact List.filterMap_eq_map.symm ▸ rfl
  · split
    · rfl
    next hzero => simp [peephole, hzero]

theorem epilogue_peephole (frame : FrameLayout) :
    (epilogue frame).filterMap peephole = epilogue frame := by
  rw [epilogue, List.filterMap_append, List.filterMap_append, List.filterMap_map]
  congr 1
  congr 1
  · split
    · rfl
    next hzero => simp [peephole, hzero]
  · exact List.filterMap_eq_map.symm ▸ rfl

theorem renderFunction_framed {fn : IRFunction} (hslots : fn.SlotsIn) {lines : List Line}
    (h : renderFunction fn = some lines) :
    ∃ frame mid, frameFor fn (allocateTemps fn) = some frame ∧ Framed frame mid lines := by
  obtain ⟨frame, hframe, h⟩ := Option.bind_eq_some_iff.mp h
  obtain ⟨params, hparams, h⟩ := Option.bind_eq_some_iff.mp h
  obtain ⟨body, hbody, h⟩ := Option.bind_eq_some_iff.mp h
  cases h
  have hfits := frameFits fn hframe
  refine ⟨frame, (params ++ body ++ [Line.label .epilogue]).filterMap peephole, hframe, ?_, ?_⟩
  · simp only [List.filterMap_append, prologue_peephole, epilogue_peephole, List.append_assoc]
  · have hmid : AllInner frame (params ++ body ++ [Line.label .epilogue]) := by
      refine ((hfits.storeParams hslots.params hparams).append
        (hfits.emitInstructions hslots.code hbody)).append ?_
      exact .single trivial
    exact hmid.peephole

end GatoCore.Native
