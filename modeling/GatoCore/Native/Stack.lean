import GatoCore.Lib.Lists
import GatoCore.Native.Frames

/-!
# Activations on the stack

`Runs` follows one activation line by line; a call of a generated function is a whole activation
of its own. The run lemma says where the stack pointer is at every line, whatever the function
computes.
-/

namespace GatoCore.Native

open GatoCore.Lib

variable {W : Type}

/-! ## Runs -/

/-- The lines of a function of the unit. -/
def linesOf (code : List (Symbol × List Line)) (symbol : Symbol) : List Line :=
  ((code.find? (·.1 = symbol)).map Prod.snd).getD []

/-- The line a label stands on. -/
def labelLine (lines : List Line) (label : AsmLabel) : Option ℕ :=
  lines.findIdx? (· = .label label)

/-- `Runs s m i m'`: an activation of `s` entered with `m` gets to line `i` with `m'`. Every line
it executes, and every line the activations it calls execute, is `allowed`. -/
inductive Runs (host : Host W) (code : List (Symbol × List Line)) (allowed : Symbol → Line → Prop) :
    Symbol → Machine W → ℕ → Machine W → Prop
  | entry {s : Symbol} {m : Machine W} : Runs host code allowed s m 0 m
  | next {s : Symbol} {m m₁ m₂ : Machine W} {i : ℕ} {line : Line} :
      Runs host code allowed s m i m₁ → (linesOf code s)[i]? = some line → allowed s line →
      execLine host line m₁ = some (.next, m₂) → Runs host code allowed s m (i + 1) m₂
  | jump {s : Symbol} {m m₁ m₂ : Machine W} {i k : ℕ} {line : Line} {l : AsmLabel} :
      Runs host code allowed s m i m₁ → (linesOf code s)[i]? = some line → allowed s line →
      execLine host line m₁ = some (.jump l, m₂) → labelLine (linesOf code s) l = some k →
      Runs host code allowed s m k m₂
  /-- The return address is pushed, and `ret` of the callee takes it off. -/
  | call {s g : Symbol} {m m₁ m₂ : Machine W} {i k : ℕ} :
      Runs host code allowed s m i m₁ → (linesOf code s)[i]? = some (.call (.fn g)) →
      Runs host code allowed g (m₁.pushCell (.code s (i + 1))) k m₂ →
      (linesOf code g)[k]? = some .ret →
      Runs host code allowed s m (i + 1) (m₂.setRsp (m₂.rsp + 8))

/-! ## The run lemma -/

/-- Where an activation is, and what the stack looks like there. -/
inductive At (host : Host W) (frame : FrameLayout) (mid : List Line) (kept : Prop)
    (m₀ : Machine W) : ℕ → Machine W → Prop
  | entering {i : ℕ} {m : Machine W} : i ≤ (prologue frame).length →
      execLines host (fun _ _ => none) ((prologue frame).take i) m₀ = some (.next, m) →
      At host frame mid kept m₀ i m
  | inside {j : ℕ} {m : Machine W} : j ≤ mid.length → InBody m₀ frame kept m →
      At host frame mid kept m₀ ((prologue frame).length + j) m
  | leaving {j : ℕ} {m₁ m : Machine W} : InBody m₀ frame kept m₁ →
      execLines host (fun _ _ => none) ((epilogue frame).take j) m₁ = some (.next, m) →
      At host frame mid kept m₀ ((prologue frame).length + mid.length + j) m

/-- The parts of a function a line can be in. -/
inductive AtLine (host : Host W) (frame : FrameLayout) (mid : List Line) (kept : Prop)
    (m₀ : Machine W) (line : Line) : ℕ → Machine W → Prop
  | entering {i : ℕ} {m : Machine W} : (prologue frame)[i]? = some line →
      execLines host (fun _ _ => none) ((prologue frame).take i) m₀ = some (.next, m) →
      AtLine host frame mid kept m₀ line i m
  | inside {j : ℕ} {m : Machine W} : mid[j]? = some line → InBody m₀ frame kept m →
      AtLine host frame mid kept m₀ line ((prologue frame).length + j) m
  | leaving {j : ℕ} {m₁ m : Machine W} : (epilogue frame)[j]? = some line →
      InBody m₀ frame kept m₁ →
      execLines host (fun _ _ => none) ((epilogue frame).take j) m₁ = some (.next, m) →
      AtLine host frame mid kept m₀ line ((prologue frame).length + mid.length + j) m

/-- A run over a stretch of lines, one line further. -/
theorem execLines_take_succ {host : Host W} {lines : List Line} {i : ℕ} {line : Line}
    {m m₁ m₂ : Machine W} (hline : lines[i]? = some line)
    (h : execLines host (fun _ _ => none) (lines.take i) m = some (.next, m₁))
    (hstep : execLine host line m₁ = some (.next, m₂)) :
    execLines host (fun _ _ => none) (lines.take (i + 1)) m = some (.next, m₂) := by
  rw [List.take_add_one, hline, Option.toList_some, execLines_append h, execLines_cons hstep]
  rfl

theorem mem_prologue {frame : FrameLayout} {line : Line} (h : line ∈ prologue frame) :
    line = .pushRbp ∨ line = .enter ∨ (∃ r, line = .push r) ∨ ∃ bytes, line = .subRsp bytes := by
  simp only [prologue, List.mem_append, List.mem_cons, List.mem_map, List.not_mem_nil,
    or_false] at h
  rcases h with ((rfl | rfl) | ⟨r, -, rfl⟩) | h
  · exact .inl rfl
  · exact .inr (.inl rfl)
  · exact .inr (.inr (.inl ⟨r, rfl⟩))
  · split at h
    · exact absurd h List.not_mem_nil
    · exact .inr (.inr (.inr ⟨_, List.mem_singleton.mp h⟩))

theorem mem_epilogue {frame : FrameLayout} {line : Line} (h : line ∈ epilogue frame) :
    line = .popRbp ∨ line = .ret ∨ (∃ r, line = .pop r) ∨ ∃ bytes, line = .addRsp bytes := by
  simp only [epilogue, List.mem_append, List.mem_cons, List.mem_map, List.not_mem_nil,
    or_false] at h
  rcases h with (h | ⟨r, -, rfl⟩) | rfl | rfl
  · split at h
    · exact absurd h List.not_mem_nil
    · exact .inr (.inr (.inr ⟨_, List.mem_singleton.mp h⟩))
  · exact .inr (.inr (.inl ⟨r, rfl⟩))
  · exact .inl rfl
  · exact .inr (.inl rfl)

/-- Only the last line of an epilogue returns. -/
theorem epilogue_ret {frame : FrameLayout} {j : ℕ} (h : (epilogue frame)[j]? = some .ret) :
    (epilogue frame).take j = (epilogue frame).dropLast := by
  have hsplit : epilogue frame = (epilogue frame).dropLast ++ [.ret] := by
    have hlast : (epilogue frame).getLast? = some .ret := by simp [epilogue]
    exact (List.dropLast_append_getLast? _ hlast).symm
  have hnot : .ret ∉ (epilogue frame).dropLast := by
    rw [epilogue, List.append_assoc,
      show ([.popRbp, .ret] : List Line) = [.popRbp] ++ [.ret] from rfl,
      ← List.append_assoc, ← List.append_assoc, List.dropLast_concat]
    intro hmem
    simp only [List.mem_append, List.mem_map, List.mem_singleton, reduceCtorEq, and_false,
      exists_false, or_false] at hmem
    split at hmem
    · exact absurd hmem List.not_mem_nil
    · cases List.mem_singleton.mp hmem
  obtain ⟨hlt, -⟩ := List.getElem?_eq_some_iff.mp h
  rw [hsplit, List.length_append, List.length_singleton] at hlt
  rw [List.dropLast_eq_take]
  rcases Nat.lt_or_ge j (epilogue frame).dropLast.length with hj | hj
  · rw [hsplit, List.getElem?_append_left hj] at h
    exact absurd (List.mem_of_getElem? h) hnot
  · congr 1
    rw [List.length_dropLast] at hlt hj
    omega

section Run

variable {host : Host W} {frame : FrameLayout} {mid lines : List Line} {kept : Prop}
  {m₀ : Machine W}

theorem At.atLine (hlines : Framed frame mid lines) {i : ℕ} {m : Machine W} {line : Line}
    (hat : At host frame mid kept m₀ i m) (hline : lines[i]? = some line) :
    AtLine host frame mid kept m₀ line i m := by
  rw [hlines.lines] at hline
  -- between the epilogue's first line and the end of the body there is no line
  have hbody : ∀ {j : ℕ}, j ≤ mid.length → InBody m₀ frame kept m →
      (prologue frame ++ mid ++ epilogue frame)[(prologue frame).length + j]? = some line →
      AtLine host frame mid kept m₀ line ((prologue frame).length + j) m := by
    intro j hj hm hline
    rw [List.append_assoc, List.getElem?_append_right (Nat.le_add_right _ _),
      Nat.add_sub_cancel_left] at hline
    rcases Nat.lt_or_eq_of_le hj with hlt | rfl
    · rw [List.getElem?_append_left hlt] at hline
      exact .inside hline hm
    · rw [List.getElem?_append_right (le_refl _), Nat.sub_self] at hline
      exact .leaving hline hm rfl
  cases hat with
  | entering hi hrun =>
      rcases Nat.lt_or_eq_of_le hi with hlt | rfl
      · rw [List.append_assoc, List.getElem?_append_left hlt] at hline
        exact .entering hline hrun
      · rw [List.take_length] at hrun
        obtain ⟨m', hrun', hm'⟩ := prologue_inBody host (fun _ _ => none) frame m₀ kept
        cases hrun.symm.trans hrun'
        exact hbody (Nat.zero_le _) hm' hline
  | inside hj hm => exact hbody hj hm hline
  | leaving hm hrun =>
      refine .leaving ?_ hm hrun
      rwa [List.getElem?_append_right (by simp), List.length_append, Nat.add_sub_cancel_left]
        at hline

/-- A body after a line that stores to a word the prologue did not save a register in, or whatever
the line is if registers are not followed. -/
theorem InBody.inner (hhost : host.KeepsFrames) {m m' : Machine W} (hm : InBody m₀ frame kept m)
    {line : Line} (hinner : line.Inner frame.frameBytes frame.savedRegs)
    (hstore : kept → ∀ offset src, line = .store offset src → 8 * frame.savedRegs.length < offset)
    {control : Control} (h : execLine host line m = some (control, m')) :
    InBody m₀ frame kept m' := by
  have hk := execLine_inner hhost hinner h
  -- a store goes to a word of the frame
  have hslot : ∀ a, line.storedAt m = some a → ∃ offset src, line = .store offset src ∧
      a = m₀.rsp - 8 - offset ∧ 0 < offset := by
    intro a ha
    cases line with
    | store offset src =>
        cases ha
        refine ⟨offset, src, rfl, ?_, hinner.2.1⟩
        rw [Machine.slot, hm.rbp]
    | _ => cases ha
  have hframe := hm.rsp
  refine ⟨hk.rbp.trans hm.rbp, hk.rsp.trans hm.rsp, ?_, ?_, ?_, ?_⟩
  · intro a ha
    rw [hk.memory a (by omega), hm.caller a ha]
    intro hsome
    obtain ⟨offset, src, -, haddr, hpos⟩ := hslot a hsome.symm
    omega
  · rw [hk.memory _ (by omega), hm.link]
    intro hsome
    obtain ⟨offset, src, -, haddr, hpos⟩ := hslot _ hsome.symm
    omega
  · intro hkept r hr hsaved
    rw [hk.regs r hr hsaved, hm.regs hkept r hr hsaved]
  · intro hkept i r hi
    obtain ⟨hlt, -⟩ := List.getElem?_eq_some_iff.mp hi
    rw [hk.memory _ (by omega), hm.saves hkept i r hi]
    intro hsome
    obtain ⟨offset, src, hline, haddr, -⟩ := hslot _ hsome.symm
    have hbelow := hstore hkept offset src hline
    omega

/-- A body after a call of a generated function that gave its stack back. -/
theorem InBody.call {m m₂ : Machine W} (hm : InBody m₀ frame kept m) {c : Cell}
    (hret : Returns (m.pushCell c) kept m₂) :
    InBody m₀ frame kept (m₂.setRsp (m₂.rsp + 8)) := by
  have hstack : (m.pushCell c).rsp = m.rsp - 8 := rfl
  have hframe := hm.rsp
  have hmemory : ∀ a, m.rsp ≤ a → m₂.memory a = m.memory a := by
    intro a ha
    rw [hret.caller a (by omega)]
    exact Function.update_of_ne (by omega) _ _
  refine ⟨?_, ?_, ?_, ?_, ?_, ?_⟩
  · show m₂.rbp = _
    rw [hret.rbp]
    exact hm.rbp
  · show m₂.rsp + 8 = _
    rw [hret.rsp]
    omega
  · intro a ha
    show m₂.memory a = _
    rw [hmemory a (by omega), hm.caller a ha]
  · show m₂.memory _ = _
    rw [hmemory _ (by omega), hm.link]
  · intro hkept r hr hsaved
    show m₂.regs r = _
    rw [hret.regs hkept r hr]
    exact hm.regs hkept r hr hsaved
  · intro hkept i r hi
    obtain ⟨hlt, -⟩ := List.getElem?_eq_some_iff.mp hi
    show m₂.memory _ = _
    rw [hmemory _ (by omega), hm.saves hkept i r hi]

/-- The lines around a body only go on to the next line. -/
theorem AtLine.inside_of_control {i : ℕ} {m m' : Machine W}
    {line : Line} (hat : AtLine host frame mid kept m₀ line i m) {control : Control}
    (h : execLine host line m = some (control, m')) (hnext : control ≠ .next)
    (hret : control ≠ .ret) :
    ∃ j, i = (prologue frame).length + j ∧ mid[j]? = some line ∧ InBody m₀ frame kept m := by
  cases hat with
  | entering hline hrun =>
      rcases mem_prologue (List.mem_of_getElem? hline) with rfl | rfl | ⟨r, rfl⟩ | ⟨bytes, rfl⟩
      all_goals
        cases h
        exact absurd rfl hnext
  | inside hline hm => exact ⟨_, rfl, hline, hm⟩
  | leaving hline hm hrun =>
      rcases mem_epilogue (List.mem_of_getElem? hline) with rfl | rfl | ⟨r, rfl⟩ | ⟨bytes, rfl⟩
      · rw [execLine] at h
        split at h
        · cases h
          exact absurd rfl hnext
        · cases h
      · cases h
        exact absurd rfl hret
      · cases h
        exact absurd rfl hnext
      · cases h
        exact absurd rfl hnext

/-- An activation that returns has given its stack back. -/
theorem At.returns (hlines : Framed frame mid lines) {i : ℕ} {m : Machine W}
    (hat : At host frame mid kept m₀ i m) (hline : lines[i]? = some .ret) :
    Returns m₀ kept m := by
  cases hat.atLine hlines hline with
  | entering hin hrun =>
      rcases mem_prologue (List.mem_of_getElem? hin) with h | h | ⟨r, h⟩ | ⟨bytes, h⟩
      all_goals cases h
  | inside hin hm =>
      have hinner : Line.Inner _ _ .ret := hlines.inner _ (List.mem_of_getElem? hin)
      exact hinner.elim
  | leaving hin hm hrun =>
      rw [epilogue_ret hin] at hrun
      exact epilogue_returns hm hrun

/-- A label stands in the body. -/
theorem Framed.labelLine (hlines : Framed frame mid lines) {l : AsmLabel} {k : ℕ}
    (h : labelLine lines l = some k) : ∃ j ≤ mid.length, k = (prologue frame).length + j := by
  obtain ⟨hlt, hget, -⟩ := List.findIdx?_eq_some_iff_getElem.mp h
  have hline : lines[k]? = some (.label l) := by
    rw [List.getElem?_eq_getElem hlt, of_decide_eq_true hget]
  rw [hlines.lines, List.append_assoc] at hline
  rcases Nat.lt_or_ge k (prologue frame).length with hk | hk
  · rw [List.getElem?_append_left hk] at hline
    rcases mem_prologue (List.mem_of_getElem? hline) with h | h | ⟨r, h⟩ | ⟨bytes, h⟩
    all_goals cases h
  · rw [List.getElem?_append_right hk] at hline
    rcases Nat.lt_or_ge (k - (prologue frame).length) mid.length with hmid | hmid
    · exact ⟨k - (prologue frame).length, hmid.le, by omega⟩
    · rw [List.getElem?_append_right hmid] at hline
      rcases mem_epilogue (List.mem_of_getElem? hline) with h | h | ⟨r, h⟩ | ⟨bytes, h⟩
      all_goals cases h

theorem At.next (hhost : host.KeepsFrames) (hlines : Framed frame mid lines) {i : ℕ}
    {m m' : Machine W} {line : Line} (hat : At host frame mid kept m₀ i m)
    (hline : lines[i]? = some line)
    (hstore : kept → ∀ offset src, line = .store offset src → 8 * frame.savedRegs.length < offset)
    (h : execLine host line m = some (.next, m')) : At host frame mid kept m₀ (i + 1) m' := by
  cases hat.atLine hlines hline with
  | entering hin hrun =>
      obtain ⟨hlt, -⟩ := List.getElem?_eq_some_iff.mp hin
      exact .entering hlt (execLines_take_succ hin hrun h)
  | inside hin hm =>
      obtain ⟨hlt, -⟩ := List.getElem?_eq_some_iff.mp hin
      have hinner := hlines.inner line (List.mem_of_getElem? hin)
      exact .inside hlt (hm.inner hhost hinner hstore h)
  | leaving hin hm hrun => exact .leaving hm (execLines_take_succ hin hrun h)

end Run

section Unit

variable {host : Host W} {code : List (Symbol × List Line)} {allowed : Symbol → Line → Prop}
  {frames : Symbol → FrameLayout} {kept : Prop}

/-- Every function of the unit is framed. -/
def FramedUnit (code : List (Symbol × List Line)) (frames : Symbol → FrameLayout) : Prop :=
  ∀ s, linesOf code s ≠ [] → ∃ mid, Framed (frames s) mid (linesOf code s)

/-- The lines that store to the words of the saved registers are not allowed, if registers are
followed. -/
def Spares (allowed : Symbol → Line → Prop) (frames : Symbol → FrameLayout) (kept : Prop) : Prop :=
  kept → ∀ s offset src, allowed s (.store offset src) → 8 * (frames s).savedRegs.length < offset

theorem ne_nil_of_getElem? {α : Type} {l : List α} {i : ℕ} {a : α} (h : l[i]? = some a) :
    l ≠ [] := by
  rintro rfl
  cases h

/-- The run lemma: one case for each way a run goes on. -/
theorem Runs.at (hhost : host.KeepsFrames) (hunit : FramedUnit code frames)
    (hspares : Spares allowed frames kept) {s : Symbol} {m₀ m : Machine W} {i : ℕ}
    (h : Runs host code allowed s m₀ i m) :
    ∀ {mid}, Framed (frames s) mid (linesOf code s) → At host (frames s) mid kept m₀ i m := by
  induction h with
  | entry =>
      intro mid _
      exact .entering (Nat.zero_le _) rfl
  | next _ hline hallowed hstep ih =>
      intro mid hlines
      refine (ih hlines).next hhost hlines hline ?_ hstep
      rintro hkept offset src rfl
      exact hspares hkept _ offset src hallowed
  | jump _ hline hallowed hstep hlabel ih =>
      intro mid hlines
      obtain ⟨j, -, hmid, hm⟩ := ((ih hlines).atLine hlines hline).inside_of_control hstep
        (by simp) (by simp)
      obtain ⟨k, hk, rfl⟩ := hlines.labelLine hlabel
      refine .inside hk (hm.inner hhost (hlines.inner _ (List.mem_of_getElem? hmid)) ?_ hstep)
      rintro hkept offset src rfl
      exact hspares hkept _ offset src hallowed
  | call _ hline _ hret ih ihcallee =>
      intro mid hlines
      obtain ⟨j, rfl, hmid, hm⟩ := ((ih hlines).atLine hlines hline).inside_of_control
        (show execLine host _ _ = some (.call _, _) from rfl) (by simp) (by simp)
      obtain ⟨hlt, -⟩ := List.getElem?_eq_some_iff.mp hmid
      obtain ⟨midCallee, hcallee⟩ := hunit _ (ne_nil_of_getElem? hret)
      exact .inside hlt (hm.call ((ihcallee hcallee).returns hcallee hret))

/-- A run that gets to the `ret` of its function. -/
theorem Runs.returns (hhost : host.KeepsFrames) (hunit : FramedUnit code frames)
    (hspares : Spares allowed frames kept) {s : Symbol} {m₀ m : Machine W} {i : ℕ}
    (h : Runs host code allowed s m₀ i m) (hret : (linesOf code s)[i]? = some .ret) :
    Returns m₀ kept m := by
  obtain ⟨mid, hlines⟩ := hunit s (ne_nil_of_getElem? hret)
  exact (h.at hhost hunit hspares hlines).returns hlines hret

/-- A run at a call is in its body. -/
theorem Runs.inBody (hhost : host.KeepsFrames) (hunit : FramedUnit code frames)
    (hspares : Spares allowed frames kept) {s : Symbol} {m₀ m : Machine W} {i : ℕ}
    (h : Runs host code allowed s m₀ i m) {target : CallTarget}
    (hcall : (linesOf code s)[i]? = some (.call target)) : InBody m₀ (frames s) kept m := by
  obtain ⟨mid, hlines⟩ := hunit s (ne_nil_of_getElem? hcall)
  cases (h.at hhost hunit hspares hlines).atLine hlines hcall with
  | entering hin hrun =>
      rcases mem_prologue (List.mem_of_getElem? hin) with h | h | ⟨r, h⟩ | ⟨bytes, h⟩
      all_goals cases h
  | inside hin hm => exact hm
  | leaving hin hm hrun =>
      rcases mem_epilogue (List.mem_of_getElem? hin) with h | h | ⟨r, h⟩ | ⟨bytes, h⟩
      all_goals cases h

end Unit

/-! ## The unit of a program -/

/-- The frame `renderAssembly` gives a function. -/
def frameOf (unit : IRUnit) (symbol : Symbol) : FrameLayout :=
  ((unit.functions.find? (·.symbol = symbol)).bind fun fn =>
    frameFor fn (allocateTemps fn)).getD ⟨0, []⟩

theorem renderAssembly_find {functions : List IRFunction} :
    ∀ {code : List (Symbol × List Line)},
      (functions.mapM fun fn => (renderFunction fn).map fun lines => (fn.symbol, lines)) =
        some code →
      ∀ s, linesOf code s ≠ [] → ∃ fn ∈ functions, functions.find? (·.symbol = s) = some fn ∧
        renderFunction fn = some (linesOf code s) := by
  induction functions with
  | nil =>
      intro code h s hne
      cases h
      exact absurd rfl hne
  | cons fn functions ih =>
      intro code h s hne
      rw [List.mapM_cons] at h
      obtain ⟨entry, hentry, h⟩ := Option.bind_eq_some_iff.mp h
      obtain ⟨rest, hrest, h⟩ := Option.bind_eq_some_iff.mp h
      cases h
      obtain ⟨lines, hlines, rfl⟩ := Option.map_eq_some_iff.mp hentry
      by_cases hs : fn.symbol = s
      · have hof : linesOf ((fn.symbol, lines) :: rest) s = lines := by simp [linesOf, hs]
        exact ⟨fn, List.mem_cons_self, by simp [hs], by rw [hof, hlines]⟩
      · have hof : linesOf ((fn.symbol, lines) :: rest) s = linesOf rest s := by
          simp [linesOf, hs]
        rw [hof] at hne ⊢
        obtain ⟨fn', hmem, hfind, hrender⟩ := ih hrest s hne
        exact ⟨fn', List.mem_cons_of_mem _ hmem, by simp [hs, hfind], hrender⟩

/-- A rendered unit is framed. -/
theorem renderAssembly_framed {unit : IRUnit} (hslots : ∀ fn ∈ unit.functions, fn.SlotsIn)
    {code : List (Symbol × List Line)} (h : renderAssembly unit = some code) :
    FramedUnit code (frameOf unit) := by
  intro s hne
  obtain ⟨fn, hmem, hfind, hrender⟩ := renderAssembly_find h s hne
  obtain ⟨frame, mid, hframe, hlines⟩ := renderFunction_framed (hslots fn hmem) hrender
  refine ⟨mid, ?_⟩
  rwa [frameOf, hfind, Option.bind_some, hframe, Option.getD_some]

theorem frameOf_aligned (unit : IRUnit) (s : Symbol) :
    (8 * (frameOf unit s).savedRegs.length + (frameOf unit s).frameBytes) % 16 = 0 := by
  rw [frameOf]
  cases hfind : unit.functions.find? (·.symbol = s) with
  | none => rfl
  | some fn =>
      obtain ⟨frame, hframe, -, -, halign⟩ := frameFor_eq fn (allocateTemps fn)
      rwa [Option.bind_some, hframe, Option.getD_some]

/-! ## Stack discipline -/

/-- The offsets of the local words, then of the spill words. -/
def frameWords (fn : IRFunction) (alloc : Allocation) : List ℕ :=
  (List.range fn.locals.length).map localOffset ++
    (List.range alloc.spillCount).map (spillOffset fn)

theorem frameWords_apart (fn : IRFunction) (alloc : Allocation) :
    (frameWords fn alloc).Pairwise fun a b => a + 8 ≤ b := by
  refine List.pairwise_append.mpr ⟨?_, ?_, ?_⟩
  · refine List.pairwise_map.mpr (List.pairwise_lt_range.imp ?_)
    intro a b hab
    simp only [localOffset]
    omega
  · refine List.pairwise_map.mpr (List.pairwise_lt_range.imp ?_)
    intro a b hab
    simp only [spillOffset]
    omega
  · intro a ha b hb
    obtain ⟨slot, hslot, rfl⟩ := List.mem_map.mp ha
    obtain ⟨spill, -, rfl⟩ := List.mem_map.mp hb
    have hlt := List.mem_range.mp hslot
    simp only [localOffset, spillOffset]
    omega

theorem frameWords_inside (fn : IRFunction) (alloc : Allocation) {offset : ℕ}
    (h : offset ∈ frameWords fn alloc) :
    8 ≤ offset ∧ offset ≤ 8 * (fn.locals.length + alloc.spillCount) := by
  rcases List.mem_append.mp h with h | h
  · obtain ⟨slot, hslot, rfl⟩ := List.mem_map.mp h
    have hlt := List.mem_range.mp hslot
    simp only [localOffset]
    omega
  · obtain ⟨spill, hspill, rfl⟩ := List.mem_map.mp h
    have hlt := List.mem_range.mp hspill
    simp only [spillOffset]
    omega

/-- The activations that are open at some moment of an activation of `s`. -/
inductive Activates (host : Host W) (code : List (Symbol × List Line))
    (allowed : Symbol → Line → Prop) (s : Symbol) (m₀ : Machine W) : Symbol → Machine W → Prop
  | entry : Activates host code allowed s m₀ s m₀
  | call {g h : Symbol} {m m' : Machine W} {i : ℕ} : Activates host code allowed s m₀ g m →
      Runs host code allowed g m i m' → (linesOf code g)[i]? = some (.call (.fn h)) →
      Activates host code allowed s m₀ h (m'.pushCell (.code g (i + 1)))

section Discipline

variable {program : Program} {unit : IRUnit} {code : List (Symbol × List Line)} {host : Host W}

theorem compiled_framed (hcompile : compileProgram program = .ok unit)
    (hrender : renderAssembly unit = some code) : FramedUnit code (frameOf unit) := by
  obtain ⟨table, -, hlower⟩ := compileProgram_lowers hcompile
  exact renderAssembly_framed hlower.slotsIn hrender

/-- A body is aligned if its function was entered as a call leaves the stack. -/
theorem InBody.aligned {m₀ m : Machine W} {s : Symbol} {kept : Prop}
    (h : InBody m₀ (frameOf unit s) kept m) (hentry : m₀.rsp % 16 = 8) : m.rsp % 16 = 0 := by
  have hframe := h.rsp
  have halign := frameOf_aligned unit s
  omega

theorem spares_nothing (frames : Symbol → FrameLayout) :
    Spares (fun _ _ => True) frames False := fun h => h.elim

theorem Activates.aligned (hhost : host.KeepsFrames) (hunit : FramedUnit code (frameOf unit))
    {s g : Symbol} {m₀ m : Machine W} (hentry : m₀.rsp % 16 = 8)
    (h : Activates host code (fun _ _ => True) s m₀ g m) : m.rsp % 16 = 8 := by
  induction h with
  | entry => exact hentry
  | call _ hrun hcall ih =>
      have hbody := (hrun.inBody hhost hunit (spares_nothing _) hcall).aligned ih
      show (_ - 8 : ℤ) % 16 = 8
      omega

/-- The layout of every frame, and where the stack pointer is in every activation. -/
theorem frames_disciplined (hcompile : compileProgram program = .ok unit)
    (hrender : renderAssembly unit = some code) (hhost : host.KeepsFrames) :
    (∀ (fn : IRFunction) (alloc : Allocation), ∃ frame, frameFor fn alloc = some frame ∧
      frame.savedRegs = alloc.usedRegs ∧ ((frameWords fn alloc).Pairwise fun a b => a + 8 ≤ b) ∧
      ∀ offset ∈ frameWords fn alloc, 8 ≤ offset ∧ offset ≤ frame.frameBytes) ∧
    ∀ (s g : Symbol) (m₀ m m' : Machine W) (i : ℕ), m₀.rsp % 16 = 8 →
      Activates host code (fun _ _ => True) s m₀ g m →
      Runs host code (fun _ _ => True) g m i m' →
      (∀ target, (linesOf code g)[i]? = some (.call target) → m'.rsp % 16 = 0 ∧
        ∃ fn ∈ unit.functions, fn.symbol = g ∧
          ∀ offset ∈ frameWords fn (allocateTemps fn), m'.rsp ≤ m'.slot offset ∧
            m'.slot offset + 8 ≤ m'.rbp ∧ m'.memory m'.rbp = .address m.rbp) ∧
      ((linesOf code g)[i]? = some .ret → m'.rsp = m.rsp) := by
  have hunit := compiled_framed hcompile hrender
  refine ⟨?_, ?_⟩
  · intro fn alloc
    obtain ⟨frame, hframe, hsaved, hbytes, -⟩ := frameFor_eq fn alloc
    refine ⟨frame, hframe, hsaved, frameWords_apart fn alloc, ?_⟩
    intro offset hoffset
    have hinside := frameWords_inside fn alloc hoffset
    omega
  · intro s g m₀ m m' i hentry hactive hrun
    refine ⟨?_, ?_⟩
    · intro target hcall
      have hbody := hrun.inBody hhost hunit (spares_nothing _) hcall
      refine ⟨hbody.aligned (hactive.aligned hhost hunit hentry), ?_⟩
      obtain ⟨fn, hfn, hfind, -⟩ := renderAssembly_find hrender g (ne_nil_of_getElem? hcall)
      refine ⟨fn, hfn, by simpa using List.find?_some hfind, ?_⟩
      intro offset hoffset
      obtain ⟨frame, hframe, -, hbytes, -⟩ := frameFor_eq fn (allocateTemps fn)
      have hframeOf : frameOf unit g = frame := by
        rw [frameOf, hfind, Option.bind_some, hframe, Option.getD_some]
      have hinside := frameWords_inside fn (allocateTemps fn) hoffset
      have hrsp := hbody.rsp
      have hrbp := hbody.rbp
      rw [hframeOf] at hrsp
      refine ⟨?_, ?_, ?_⟩
      · rw [Machine.slot]
        omega
      · rw [Machine.slot]
        omega
      · rw [hrbp, hbody.link]
    · intro hret
      exact (hrun.returns hhost hunit (spares_nothing _) hret).rsp

/-! ### Saved registers -/

/-- The line is no store to a word where the prologue pushed a register. -/
def Line.SparesSaves (frame : FrameLayout) : Line → Prop
  | .store offset _ => 8 * frame.savedRegs.length < offset
  | _ => True

/-- An activation gives back the callee-saved registers if no line executed meanwhile, in it or in
the activations it calls, stores to a slot that lies over the saved registers of its function. -/
theorem registers_returned (hcompile : compileProgram program = .ok unit)
    (hrender : renderAssembly unit = some code) (hhost : host.KeepsFrames) {s : Symbol}
    {m₀ m : Machine W} {i : ℕ}
    (hrun : Runs host code (fun s line => line.SparesSaves (frameOf unit s)) s m₀ i m)
    (hret : (linesOf code s)[i]? = some .ret) :
    (∀ r ∈ calleeSaved, m.regs r = m₀.regs r) ∧ m.rbp = m₀.rbp ∧ m.rsp = m₀.rsp := by
  have hspares : Spares (fun s line => line.SparesSaves (frameOf unit s)) (frameOf unit) True :=
    fun _ s offset src h => h
  have hreturns := hrun.returns hhost (compiled_framed hcompile hrender) hspares hret
  exact ⟨hreturns.regs trivial, hreturns.rbp, hreturns.rsp⟩

end Discipline

/-! ## Stretches of lines -/

section Stretch

variable {host : Host W} {callee : Symbol → Machine W → Option (Machine W)}
  {code : List (Symbol × List Line)} {allowed : Symbol → Line → Prop} {s : Symbol} {m : Machine W}

/-- Only a call of a generated function goes to one. -/
theorem execLine_call {line : Line} {m m' : Machine W} {g : Symbol}
    (h : execLine host line m = some (.call g, m')) : line = .call (.fn g) := by
  cases line with
  | call target =>
      cases target with
      | fn g' =>
          cases h
          rfl
      | runtime fn =>
          obtain ⟨m'', -, hm''⟩ := Option.map_eq_some_iff.mp h
          cases hm''
  | movImm dst text =>
      obtain ⟨value, -, hvalue⟩ := Option.bind_eq_some_iff.mp h
      cases hvalue
  | cmpImm left text =>
      obtain ⟨word, -, hword⟩ := Option.bind_eq_some_iff.mp h
      cases hword
  | set cond =>
      obtain ⟨f, -, hf⟩ := Option.bind_eq_some_iff.mp h
      cases hf
  | idiv r =>
      obtain ⟨q, -, hq⟩ := Option.bind_eq_some_iff.mp h
      cases hq
  | jne l =>
      obtain ⟨f, -, hf⟩ := Option.bind_eq_some_iff.mp h
      simp only [Option.some.injEq, Prod.mk.injEq] at hf
      obtain ⟨hcontrol, -⟩ := hf
      split at hcontrol <;> cases hcontrol
  | popRbp =>
      rw [execLine] at h
      split at h <;> cases h
  | _ => cases h

/-- Lines without a call of a generated function, to where they lead. -/
theorem Runs.stretch {lines rest : List Line} : ∀ {i : ℕ} {m₁ m₂ : Machine W} {control : Control},
    Runs host code allowed s m i m₁ → (linesOf code s).drop i = lines ++ rest →
      (∀ line ∈ lines, allowed s line) → (∀ line ∈ lines, ∀ g, line ≠ .call (.fn g)) →
      execLines host callee lines m₁ = some (control, m₂) →
      (control = .next → Runs host code allowed s m (i + lines.length) m₂) ∧
        ∀ l k, control = .jump l → labelLine (linesOf code s) l = some k →
          Runs host code allowed s m k m₂ := by
  induction lines with
  | nil =>
      intro i m₁ m₂ control hrun _ _ _ hexec
      cases hexec
      refine ⟨fun _ => hrun, ?_⟩
      intro l k hjump
      cases hjump
  | cons line lines ih =>
      intro i m₁ m₂ control hrun hdrop hallowed hcalls hexec
      obtain ⟨hline, hallowed⟩ := List.forall_mem_cons.mp hallowed
      obtain ⟨hcall, hcalls⟩ := List.forall_mem_cons.mp hcalls
      have hget : (linesOf code s)[i]? = some line := getElem?_of_drop hdrop
      have htail : (linesOf code s).drop (i + 1) = lines ++ rest := drop_succ_of_drop hdrop
      rw [execLines] at hexec
      split at hexec
      next => cases hexec
      next m' hstep =>
        obtain ⟨hnext, hjump⟩ := ih (hrun.next hget hline hstep) htail hallowed hcalls hexec
        rw [List.length_cons, Nat.add_comm lines.length 1, ← Nat.add_assoc]
        exact ⟨hnext, hjump⟩
      next g m' hstep =>
        exact absurd (execLine_call hstep) (hcall g)
      next c m' hnext _ hstep =>
        cases hexec
        refine ⟨fun h => absurd h hnext, ?_⟩
        rintro l k rfl hlabel
        exact hrun.jump hget hline hstep hlabel

end Stretch

/-! ### Two programs -/

/-- A stretch of lines without calls and jumps. -/
theorem Runs.lines {host : Host W} {code : List (Symbol × List Line)}
    {allowed : Symbol → Line → Prop} {s : Symbol} {m : Machine W} {lines rest : List Line} {i : ℕ}
    {m₁ m₂ : Machine W} (hrun : Runs host code allowed s m i m₁)
    (hdrop : (linesOf code s).drop i = lines ++ rest) (hallowed : ∀ line ∈ lines, allowed s line)
    (hcalls : ∀ line ∈ lines, ∀ g, line ≠ .call (.fn g))
    (hexec : execLines host (fun _ _ => none) lines m₁ = some (.next, m₂)) :
    Runs host code allowed s m (i + lines.length) m₂ :=
  (hrun.stretch hdrop hallowed hcalls hexec).1 rfl

/-- `função f(a) faça retornar a fim mostrar 1 + f(7)`. -/
def passProgram : Program :=
  { functions := [⟨"f", ["a"], [.ret (some (.identifier "a"))]⟩]
    body := [.show (.binary .add (.number 1) (.call (.identifier "f") [.number 7]))] }

def passCode : List (Symbol × List Line) :=
  [(.fn "f", [.pushRbp, .enter, .push .rbx, .subRsp 8, .store 8 .rdi, .load .rbx 8, .mov .rax .rbx,
      .jmp .epilogue, .label .epilogue, .addRsp 8, .pop .rbx, .popRbp, .ret]),
    (.main, [.pushRbp, .enter, .push .rbx, .push .r12, .push .r13, .push .r14, .push .r15,
      .subRsp 8, .movImm .rbx ['1'], .movImm .r12 ['7'], .mov .rdi .r12, .call (.fn (.fn "f")),
      .mov .r13 .rax, .mov .rax .rbx, .mov .rcx .r13, .alu .add .rax .rcx, .mov .r14 .rax,
      .mov .rdi .r14, .call (.runtime (.print .i64)), .movImm .r15 ['0'], .mov .rax .r15,
      .jmp .epilogue, .label .epilogue, .addRsp 8, .pop .r15, .pop .r14, .pop .r13, .pop .r12,
      .pop .rbx, .popRbp, .ret])]

theorem exists_rendered {program : Program} {code : List (Symbol × List Line)}
    (h : (compileProgram program).toOption.bind renderAssembly = some code) :
    ∃ unit, compileProgram program = .ok unit ∧ renderAssembly unit = some code := by
  cases hunit : compileProgram program with
  | error e =>
      rw [hunit] at h
      cases h
  | ok unit =>
      rw [hunit] at h
      exact ⟨unit, rfl, h⟩

theorem passProgram_rendered :
    (compileProgram passProgram).toOption.bind renderAssembly = some passCode := by
  decide +kernel

/-- A machine about to run a function, with `x` in `rbx` and `y` in `rdi`. -/
def entryMachine (x y : Word) : Machine (List Word) :=
  { regs := fun r => if r = .rbx then x else if r = .rdi then y else 0, rbp := 2000, rsp := 1000
    flags := none, memory := fun _ => .word 0, world := [] }

theorem observarHost_keepsFrames : observarHost.KeepsFrames := by
  intro g m m' h
  unfold observarHost at h
  dsimp only at h
  split at h
  · cases h
    refine ⟨fun r hr => ?_, rfl, rfl, fun _ _ => rfl⟩
    have hne : r ≠ .rax := by
      rintro rfl
      exact absurd hr (by decide)
    simp [Function.update_of_ne hne]
  · cases h

/-- `f` stores its parameter over the word where it has pushed `rbx`. -/
theorem registers_returned_fails : ∃ (unit : IRUnit) (m : Machine (List Word)),
    compileProgram passProgram = .ok unit ∧ renderAssembly unit = some passCode ∧
      observarHost.KeepsFrames ∧
      Runs observarHost passCode (fun _ _ => True) (.fn "f") (entryMachine 1 7) 12 m ∧
      (linesOf passCode (.fn "f"))[12]? = some .ret ∧
      (entryMachine 1 7).regs .rbx = 1 ∧ m.regs .rbx = 7 := by
  obtain ⟨unit, hcompile, hrender⟩ := exists_rendered passProgram_rendered
  have hbody : Runs observarHost passCode (fun _ _ => True) (.fn "f") (entryMachine 1 7) 7 _ :=
    Runs.lines .entry (show (linesOf passCode (.fn "f")).drop 0 = [.pushRbp, .enter, .push .rbx,
      .subRsp 8, .store 8 .rdi, .load .rbx 8, .mov .rax .rbx] ++ _ from rfl) (by simp) (by simp) rfl
  have hjump := hbody.jump (show (linesOf passCode (.fn "f"))[7]? = some (.jmp .epilogue) from rfl)
    trivial rfl (show labelLine (linesOf passCode (.fn "f")) .epilogue = some 8 from rfl)
  have hend := hjump.lines (show (linesOf passCode (.fn "f")).drop 8 = [.label .epilogue,
      .addRsp 8, .pop .rbx, .popRbp] ++ _ from rfl) (by simp) (by simp) rfl
  exact ⟨unit, _, hcompile, hrender, observarHost_keepsFrames, hend, rfl, rfl, rfl⟩

/-- The stack at the call of `f` in `main`. -/
theorem frames_disciplined_pass : ∃ m : Machine (List Word),
    Runs observarHost passCode (fun _ _ => True) .main (entryMachine 0 0) 11 m ∧
      (linesOf passCode .main)[11]? = some (.call (.fn (.fn "f"))) ∧ m.rsp % 16 = 0 := by
  obtain ⟨unit, hcompile, hrender⟩ := exists_rendered passProgram_rendered
  have hrun : Runs observarHost passCode (fun _ _ => True) .main (entryMachine 0 0) 11 _ :=
    Runs.lines .entry (show (linesOf passCode .main).drop 0 = [.pushRbp, .enter, .push .rbx,
      .push .r12, .push .r13, .push .r14, .push .r15, .subRsp 8, .movImm .rbx ['1'],
      .movImm .r12 ['7'], .mov .rdi .r12] ++ _ from rfl) (by simp) (by simp) rfl
  have hcall : (linesOf passCode .main)[11]? = some (.call (.fn (.fn "f"))) := rfl
  obtain ⟨-, hruns⟩ := frames_disciplined hcompile hrender observarHost_keepsFrames
  exact ⟨_, hrun, hcall, ((hruns .main .main _ _ _ 11 rfl .entry hrun).1 _ hcall).1⟩

/-- `função f() faça retornar 7 fim mostrar 1 + f()`. -/
def answerProgram : Program :=
  { functions := [⟨"f", [], [.ret (some (.number 7))]⟩]
    body := [.show (.binary .add (.number 1) (.call (.identifier "f") []))] }

def answerCode : List (Symbol × List Line) :=
  [(.fn "f", [.pushRbp, .enter, .push .rbx, .subRsp 8, .movImm .rbx ['7'], .mov .rax .rbx,
      .jmp .epilogue, .label .epilogue, .addRsp 8, .pop .rbx, .popRbp, .ret]),
    (.main, [.pushRbp, .enter, .push .rbx, .push .r12, .push .r13, .push .r14, .movImm .rbx ['1'],
      .call (.fn (.fn "f")), .mov .r12 .rax, .mov .rax .rbx, .mov .rcx .r12, .alu .add .rax .rcx,
      .mov .r13 .rax, .mov .rdi .r13, .call (.runtime (.print .i64)), .movImm .r14 ['0'],
      .mov .rax .r14, .jmp .epilogue, .label .epilogue, .pop .r14, .pop .r13, .pop .r12, .pop .rbx,
      .popRbp, .ret])]

theorem answerProgram_rendered :
    (compileProgram answerProgram).toOption.bind renderAssembly = some answerCode := by
  decide +kernel

/-- `f` has no slots, so it gives `rbx` back. -/
theorem registers_returned_answer : ∃ (unit : IRUnit) (m : Machine (List Word)),
    compileProgram answerProgram = .ok unit ∧
      Runs observarHost answerCode (fun s line => line.SparesSaves (frameOf unit s)) (.fn "f")
        (entryMachine 1 0) 11 m ∧
      m.regs .rax = 7 ∧ m.regs .rbx = 1 ∧ m.rbp = 2000 ∧ m.rsp = 1000 := by
  obtain ⟨unit, hcompile, hrender⟩ := exists_rendered answerProgram_rendered
  have hbody : Runs observarHost answerCode (fun s line => line.SparesSaves (frameOf unit s))
      (.fn "f") (entryMachine 1 0) 6 _ :=
    Runs.lines .entry (show (linesOf answerCode (.fn "f")).drop 0 = [.pushRbp, .enter, .push .rbx,
      .subRsp 8, .movImm .rbx ['7'], .mov .rax .rbx] ++ _ from rfl) (by simp [Line.SparesSaves])
      (by simp) rfl
  have hjump := hbody.jump
    (show (linesOf answerCode (.fn "f"))[6]? = some (.jmp .epilogue) from rfl) trivial rfl
    (show labelLine (linesOf answerCode (.fn "f")) .epilogue = some 7 from rfl)
  have hend := hjump.lines (show (linesOf answerCode (.fn "f")).drop 7 = [.label .epilogue,
      .addRsp 8, .pop .rbx, .popRbp] ++ _ from rfl) (by simp [Line.SparesSaves]) (by simp) rfl
  obtain ⟨hregs, hrbp, hrsp⟩ :=
    registers_returned hcompile hrender observarHost_keepsFrames hend rfl
  exact ⟨unit, _, hcompile, hend, rfl, hregs .rbx (by decide), hrbp, hrsp⟩

end GatoCore.Native
