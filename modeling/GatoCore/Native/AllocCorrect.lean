import GatoCore.Lib.Liveness
import GatoCore.Native.NativeRuntime
import GatoCore.Native.TempFlow

/-!
# Register allocation preserves meaning

In lowered code the live ranges of the linear scan contain all places where a temp is live, back
edges included, so the allocation keeps live temps apart. A unit then runs in lockstep with its
temps in the places the allocator chose.
-/

namespace GatoCore.Native

open GatoCore.Lib

/-! ## The allocation separates live temps -/

def flowGraph (code : List Instr) : FlowGraph ℕ ℕ :=
  { edge := Edge code
    defs := fun i t => t ∈ defsAt code i
    uses := fun i t => t ∈ usesAt code i }

namespace TempsOk

variable {code : List Instr} {n : ℕ} (h : TempsOk code n)
include h

/-- The temps defined before a position are the first ones. -/
theorem take_defs (p : ℕ) : (code.take p).flatMap tempDefs = List.range (defCount code p) := by
  have hpre : (code.take p).flatMap tempDefs <+: List.range n := by
    rw [← h.defs]
    refine ⟨(code.drop p).flatMap tempDefs, ?_⟩
    rw [← List.flatMap_append, List.take_append_drop]
  have hlen := hpre.length_le
  rw [List.length_range] at hlen
  rw [List.prefix_iff_eq_take.mp hpre, List.take_range, Nat.min_eq_left hlen, defCount]

theorem defCount_le (p : ℕ) : defCount code p ≤ n := by
  rw [← List.length_range (n := n), ← h.defs, ← defCount_length]
  rcases Nat.le_total p code.length with hp | hp
  · exact defCount_mono code hp
  · rw [defCount, defCount, List.take_of_length_le hp, List.take_length]

theorem exists_def {p t : ℕ} (ht : t < defCount code p) : ∃ q < p, t ∈ defsAt code q := by
  rw [← List.mem_range, ← h.take_defs, List.mem_flatMap] at ht
  obtain ⟨inst, hmem, hdef⟩ := ht
  obtain ⟨q, hq⟩ := List.getElem?_of_mem hmem
  rw [List.getElem?_take] at hq
  split at hq
  · exact ⟨q, ‹_›, by simpa [defsAt, hq] using hdef⟩
  · cases hq

/-- A position defines at most one temp, the next one. -/
theorem mem_defsAt {p t : ℕ} (ht : t ∈ defsAt code p) : defsAt code p = [defCount code p] := by
  have hsucc : List.range (defCount code p) ++ defsAt code p =
      List.range (defCount code p + (defsAt code p).length) := by
    rw [← defCount_succ, ← h.take_defs, ← h.take_defs, List.take_add_one, List.flatMap_append,
      defsAt]
    cases code[p]? <;> simp
  obtain ⟨d, hd⟩ : ∃ d, defsAt code p = [d] := by
    unfold defsAt at ht ⊢
    cases hinst : code[p]? with
    | none => simp [hinst] at ht
    | some inst => cases inst <;> simp_all [tempDefs]
  rw [hd, List.length_singleton, List.range_succ] at hsucc
  rw [hd, List.append_cancel_left hsucc]

theorem eq_defCount {p t : ℕ} (ht : t ∈ defsAt code p) : t = defCount code p := by
  have := h.mem_defsAt ht
  rw [this] at ht
  exact List.mem_singleton.mp ht

/-- A temp is defined where it occurs first. -/
theorem le_of_occursAt {p q t : ℕ} (ht : t ∈ defsAt code p) (hocc : OccursAt code q t) :
    p ≤ q := by
  by_contra hlt
  have hmono := defCount_mono code (Nat.succ_le_of_lt (Nat.not_le.mp hlt))
  have htp := h.eq_defCount ht
  rcases hocc with hdef | huse
  · have hq := h.eq_defCount hdef
    rw [Nat.succ_eq_add_one, defCount_succ, h.mem_defsAt hdef, List.length_singleton] at hmono
    omega
  · have hq := h.uses q t huse
    have := defCount_mono code (Nat.not_le.mp hlt).le
    omega

/-- The liveness of lowered code: from the definition to the last use. -/
def liveness : (flowGraph code).Liveness where
  live := LiveAt code
  of_use := fun {p t} hu => ⟨h.uses p t hu, p, Nat.le_refl p, hu⟩
  of_edge := by
    rintro p q t ⟨inst, hinst, ⟨-, rfl⟩ | ⟨l, hl, hq⟩⟩ hlive
    · obtain ⟨hdef, k, hk, hu⟩ := hlive
      rcases Nat.lt_or_ge t (defCount code p) with hlt | hge
      · exact .inl ⟨hlt, k, by omega, hu⟩
      · rw [defCount_succ] at hdef
        -- the instruction defines a temp, and `t` is that one
        obtain ⟨d, hd⟩ := List.exists_mem_of_length_pos (show 0 < (defsAt code p).length by omega)
        have hdefs := h.mem_defsAt hd
        rw [hdefs, List.length_singleton] at hdef
        have : t = defCount code p := by omega
        exact .inr (by simp [flowGraph, hdefs, this])
    · exact .inl (h.jumps p inst hinst l hl q hq t hlive)

end TempsOk

/-- The places of the temps of a function. -/
def allocPlacement : Placement Location := fun fn => (allocateTemps fn).locations

theorem TempsOk.located {fn : IRFunction} (h : TempsOk fn.instructions fn.tempTypes.length)
    {i t : ℕ} (hocc : OccursAt fn.instructions i t) : allocPlacement fn t ≠ none := by
  refine allocateTemps_located ?_ hocc
  rcases hocc with hdef | huse
  · have hle := h.defCount_le (i + 1)
    rw [defCount_succ, h.mem_defsAt hdef, List.length_singleton] at hle
    have := h.eq_defCount hdef
    omega
  · exact (h.uses i t huse).trans_le (h.defCount_le i)

/-- **The allocation is sound.** No instruction writes the place of another temp that is live
after it. -/
theorem TempsOk.separates {fn : IRFunction} (h : TempsOk fn.instructions fn.tempTypes.length) :
    h.liveness.Separates (allocPlacement fn) := by
  intro p q t d hedge hlive hdef hne heq
  have hnotdef : t ∉ defsAt fn.instructions p := by
    intro ht
    exact hne ((h.eq_defCount ht).trans (h.eq_defCount hdef).symm)
  obtain ⟨hlt, k, hk, hu⟩ := (h.liveness.of_edge hedge hlive).resolve_right hnotdef
  obtain ⟨p₀, hp₀, hdef₀⟩ := h.exists_def hlt
  obtain ⟨i, hi, j, hj, rfl, rfl, hapart⟩ :=
    allocateTemps_apart hne (h.located (.inr hu)) heq
  obtain ⟨-, his, hie⟩ := mem_intervals.mp hi
  obtain ⟨-, hjs, hje⟩ := mem_intervals.mp hj
  -- both ranges contain `p`: the one of `t` started before and goes on, that of `d` starts here
  obtain ⟨s, _, hs, _, hsp, -⟩ := liveRanges_of_occursAt (.inl hdef₀ : OccursAt _ p₀ i.temp)
  obtain ⟨_, e, _, he, -, -, -, hke⟩ := liveRanges_of_occursAt (.inr hu : OccursAt _ k i.temp)
  obtain ⟨s', e', hs', he', hsp', hse', -⟩ :=
    liveRanges_of_occursAt (.inl hdef : OccursAt _ p j.temp)
  have hstart := h.le_of_occursAt hdef (liveRanges_starts_occursAt hjs)
  rw [his] at hs
  rw [hie] at he
  rw [hjs] at hs'
  rw [hje] at he'
  cases hs
  cases he
  cases hs'
  cases he'
  have := hke hu
  rcases hapart with hlt' | hlt' <;> omega

/-! ## Lockstep -/

section Lockstep

variable {R : Runtime} {unit : IRUnit}

/-- The same activation, with each live temp in its place. -/
structure SameFrame (unit : IRUnit) (f : Frame R ℕ) (g : Frame R Location) : Prop where
  mem : f.fn ∈ unit.functions
  fn : g.fn = f.fn
  pc : g.pc = f.pc
  locals : g.locals = f.locals
  temps : Agrees (allocPlacement f.fn) (LiveAt f.fn.instructions f.pc) f.temps g.temps

/-- The same configuration, with each live temp in its place. -/
inductive SameConfig (unit : IRUnit) : Config R ℕ → Config R Location → Prop
  | running {fs : List (Frame R ℕ)} {gs : List (Frame R Location)} {w : R.World} :
      List.Forall₂ (SameFrame unit) fs gs → SameConfig unit (.running fs w) (.running gs w)
  | finished {v : R.Value} {w : R.World} : SameConfig unit (.finished v w) (.finished v w)

theorem optionRel_bind {α β γ δ : Type} {r : α → β → Prop} {s : γ → δ → Prop} {x : Option α}
    {y : Option β} {f : α → Option γ} {g : β → Option δ} (h : Option.Rel r x y)
    (hfg : ∀ a b, r a b → Option.Rel s (f a) (g b)) : Option.Rel s (x.bind f) (y.bind g) := by
  cases h with
  | none => exact .none
  | some hab => exact hfg _ _ hab

variable (hunit : ∀ fn ∈ unit.functions, TempsOk fn.instructions fn.tempTypes.length)
  {f : Frame R ℕ} {g : Frame R Location} {inst : Instr}
  (hfg : SameFrame unit f g) (hinst : f.fn.instructions[f.pc]? = some inst)

include hunit hfg hinst

theorem SameFrame.read {t : ℕ} (ht : t ∈ tempUses inst) :
    g.read allocPlacement t = f.read tempPlacement t := by
  have hu : t ∈ usesAt f.fn.instructions f.pc := by simpa [usesAt, hinst] using ht
  have hlive := (hunit f.fn hfg.mem).liveness.of_use hu
  rw [Frame.read, hfg.fn]
  exact hfg.temps t hlive

theorem SameFrame.readWord {t : ℕ} (ht : t ∈ tempUses inst) :
    g.readWord allocPlacement t = f.readWord tempPlacement t := by
  rw [Frame.readWord, Frame.readWord, hfg.read hunit hinst ht]

theorem SameFrame.readAll {ts : List ℕ} (hts : ∀ t ∈ ts, t ∈ tempUses inst) :
    g.readAll allocPlacement ts = f.readAll tempPlacement ts := by
  induction ts with
  | nil => rfl
  | cons t ts ih =>
      have ih := ih fun u hu => hts u (List.mem_cons_of_mem _ hu)
      rw [Frame.readAll] at ih ⊢
      rw [Frame.readAll, List.mapM_cons, List.mapM_cons, ih,
        hfg.read hunit hinst (hts t List.mem_cons_self)]
      rfl

/-- The next instruction of the list, after the definition of a temp. -/
theorem SameFrame.define {d : ℕ} (hd : tempDefs inst = [d]) (v : R.Value) :
    Option.Rel (SameFrame unit) (f.define tempPlacement d v) (g.define allocPlacement d v) := by
  have hok := hunit f.fn hfg.mem
  have hdefs : defsAt f.fn.instructions f.pc = [d] := by simp [defsAt, hinst, hd]
  obtain ⟨l, hl⟩ := Option.ne_none_iff_exists'.mp
    (hok.located (.inl (by simp [hdefs]) : OccursAt _ f.pc d))
  have hedge : Edge f.fn.instructions f.pc (f.pc + 1) := by
    refine ⟨inst, hinst, .inl ⟨?_, rfl⟩⟩
    cases inst <;> first | rfl | cases hd
  rw [Frame.define, Frame.define, hfg.fn, hl]
  refine .some ⟨hfg.mem, rfl, congrArg (· + 1) hfg.pc, hfg.locals, ?_⟩
  exact hfg.temps.write hok.separates hedge (by simp [flowGraph, hdefs]) hl v

/-- The next instruction of the list, after one that defines no temp. -/
theorem SameFrame.next (hd : tempDefs inst = []) (hfall : fallsThrough inst = true) :
    SameFrame unit f.next g.next := by
  have hok := hunit f.fn hfg.mem
  have hedge : Edge f.fn.instructions f.pc (f.pc + 1) := ⟨inst, hinst, .inl ⟨hfall, rfl⟩⟩
  refine ⟨hfg.mem, hfg.fn, congrArg (· + 1) hfg.pc, hfg.locals, ?_⟩
  exact Agrees.keep hok.liveness hfg.temps hedge (by simp [flowGraph, defsAt, hinst, hd])

theorem SameFrame.jump (hd : tempDefs inst = []) {l : Label} (hl : l ∈ jumpTargets inst) :
    Option.Rel (SameFrame unit) (f.jump l) (g.jump l) := by
  have hok := hunit f.fn hfg.mem
  rw [Frame.jump, Frame.jump, hfg.fn]
  cases hj : labelIndex f.fn.instructions l with
  | none => exact .none
  | some j =>
      have hedge : Edge f.fn.instructions f.pc j := ⟨inst, hinst, .inr ⟨l, hl, hj⟩⟩
      refine .some ⟨hfg.mem, rfl, rfl, hfg.locals, ?_⟩
      exact Agrees.keep hok.liveness hfg.temps hedge
        (by simp [flowGraph, defsAt, hinst, hd])

omit hfg hinst in
/-- The return to the activation below, which stands at its call. -/
theorem returnTo_same {fs : List (Frame R ℕ)} {gs : List (Frame R Location)}
    (hrest : List.Forall₂ (SameFrame unit) fs gs) (v : R.Value) (w : R.World) :
    Option.Rel (SameConfig unit) (returnTo tempPlacement v w fs)
      (returnTo allocPlacement v w gs) := by
  cases hrest with
  | nil => exact .some .finished
  | @cons f g fs gs hfg hrest =>
      rw [returnTo, returnTo, hfg.fn, hfg.pc]
      cases hinst : f.fn.instructions[f.pc]? with
      | none => exact .none
      | some inst =>
          cases inst with
          | call dest symbol args type =>
              have h := hfg.define hunit hinst (show tempDefs _ = [dest] from rfl) v
              simp only [Option.map_eq_bind]
              exact optionRel_bind h fun _ _ h => .some (.running (.cons h hrest))
          | _ => exact .none

variable {fs : List (Frame R ℕ)} {gs : List (Frame R Location)}
  (hrest : List.Forall₂ (SameFrame unit) fs gs)
include hrest

theorem SameFrame.define_config {d : ℕ} (hd : tempDefs inst = [d]) (v : R.Value) (w : R.World) :
    Option.Rel (SameConfig unit)
      ((f.define tempPlacement d v).bind fun f => some (.running (f :: fs) w))
      ((g.define allocPlacement d v).bind fun g => some (.running (g :: gs) w)) :=
  optionRel_bind (hfg.define hunit hinst hd v) fun _ _ h => .some (.running (.cons h hrest))

section Kinds

omit hinst

theorem execConstStr_same {dest : ℕ} {label : DataLabel}
    (hinst : f.fn.instructions[f.pc]? = some (.constStr dest label)) (w : R.World) :
    Option.Rel (SameConfig unit) (execInstr tempPlacement unit f fs w (.constStr dest label))
      (execInstr allocPlacement unit g gs w (.constStr dest label)) := by
  simp only [execInstr]
  cases R.address unit.consts label with
  | none => exact .none
  | some v => exact hfg.define_config hunit hinst hrest rfl v w

theorem execConstPtr_same {dest : ℕ} {label : DataLabel} {type : Option Ty}
    (hinst : f.fn.instructions[f.pc]? = some (.constPtr dest label type)) (w : R.World) :
    Option.Rel (SameConfig unit) (execInstr tempPlacement unit f fs w (.constPtr dest label type))
      (execInstr allocPlacement unit g gs w (.constPtr dest label type)) := by
  simp only [execInstr]
  cases R.address unit.consts label with
  | none => exact .none
  | some v => exact hfg.define_config hunit hinst hrest rfl v w

theorem execLoadLocal_same {dest slot : ℕ} {type : Option Ty}
    (hinst : f.fn.instructions[f.pc]? = some (.loadLocal dest slot type)) (w : R.World) :
    Option.Rel (SameConfig unit) (execInstr tempPlacement unit f fs w (.loadLocal dest slot type))
      (execInstr allocPlacement unit g gs w (.loadLocal dest slot type)) := by
  simp only [execInstr, hfg.locals]
  cases f.locals slot with
  | none => exact .none
  | some v => exact hfg.define_config hunit hinst hrest rfl v w

theorem execStoreLocal_same {slot : ℕ} {type : Option Ty} {value : ℕ}
    (hinst : f.fn.instructions[f.pc]? = some (.storeLocal slot type value)) (w : R.World) :
    Option.Rel (SameConfig unit) (execInstr tempPlacement unit f fs w (.storeLocal slot type value))
      (execInstr allocPlacement unit g gs w (.storeLocal slot type value)) := by
  simp only [execInstr, hfg.read hunit hinst (by simp [tempUses] : value ∈ _)]
  cases f.read tempPlacement value with
  | none => exact .none
  | some v =>
      have h := hfg.next hunit hinst rfl rfl
      refine .some (.running (.cons ⟨h.mem, h.fn, h.pc, ?_, h.temps⟩ hrest))
      simp [hfg.locals]

theorem execNeg_same {dest value : ℕ}
    (hinst : f.fn.instructions[f.pc]? = some (.neg dest value)) (w : R.World) :
    Option.Rel (SameConfig unit) (execInstr tempPlacement unit f fs w (.neg dest value))
      (execInstr allocPlacement unit g gs w (.neg dest value)) := by
  simp only [execInstr, hfg.readWord hunit hinst (by simp [tempUses] : value ∈ _)]
  cases f.readWord tempPlacement value with
  | none => exact .none
  | some x => exact hfg.define_config hunit hinst hrest rfl _ w

theorem execNot_same {dest value : ℕ}
    (hinst : f.fn.instructions[f.pc]? = some (.not dest value)) (w : R.World) :
    Option.Rel (SameConfig unit) (execInstr tempPlacement unit f fs w (.not dest value))
      (execInstr allocPlacement unit g gs w (.not dest value)) := by
  simp only [execInstr, hfg.readWord hunit hinst (by simp [tempUses] : value ∈ _)]
  cases f.readWord tempPlacement value with
  | none => exact .none
  | some x => exact hfg.define_config hunit hinst hrest rfl _ w

theorem execBin_same {dest : ℕ} {bin : BinOp} {left right : ℕ}
    (hinst : f.fn.instructions[f.pc]? = some (.bin dest bin left right)) (w : R.World) :
    Option.Rel (SameConfig unit) (execInstr tempPlacement unit f fs w (.bin dest bin left right))
      (execInstr allocPlacement unit g gs w (.bin dest bin left right)) := by
  simp only [execInstr, hfg.readWord hunit hinst (by simp [tempUses] : left ∈ _),
    hfg.readWord hunit hinst (by simp [tempUses] : right ∈ _)]
  cases f.readWord tempPlacement left with
  | none => exact .none
  | some x =>
      cases f.readWord tempPlacement right with
      | none => exact .none
      | some y =>
          simp only [Option.bind_eq_bind, Option.bind_some]
          cases bin.eval x y with
          | none => exact .none
          | some z => exact hfg.define_config hunit hinst hrest rfl _ w

theorem execCmp_same {dest : ℕ} {cmp : CmpOp} {left : ℕ} {right : CmpRight}
    (hinst : f.fn.instructions[f.pc]? = some (.cmp dest cmp left right)) (w : R.World) :
    Option.Rel (SameConfig unit) (execInstr tempPlacement unit f fs w (.cmp dest cmp left right))
      (execInstr allocPlacement unit g gs w (.cmp dest cmp left right)) := by
  have hleft : left ∈ tempUses (.cmp dest cmp left right) := by
    cases right <;> simp [tempUses]
  have hright : g.readRight allocPlacement right = f.readRight tempPlacement right := by
    cases right with
    | imm value => rfl
    | temp t => exact hfg.readWord hunit hinst (by simp [tempUses])
  simp only [execInstr, hfg.readWord hunit hinst hleft, hright]
  cases f.readWord tempPlacement left with
  | none => exact .none
  | some x =>
      cases f.readRight tempPlacement right with
      | none => exact .none
      | some y => exact hfg.define_config hunit hinst hrest rfl _ w

theorem execCall_same {dest : ℕ} {symbol : Symbol} {args : List ℕ} {type : Option Ty}
    (hinst : f.fn.instructions[f.pc]? = some (.call dest symbol args type)) (w : R.World) :
    Option.Rel (SameConfig unit) (execInstr tempPlacement unit f fs w (.call dest symbol args type))
      (execInstr allocPlacement unit g gs w (.call dest symbol args type)) := by
  have hargs : g.readAll allocPlacement args = f.readAll tempPlacement args :=
    hfg.readAll hunit hinst fun t ht => ht
  simp only [execInstr, hargs]
  cases f.readAll tempPlacement args with
  | none => exact .none
  | some vals =>
      simp only [Option.bind_eq_bind, Option.bind_some]
      cases hfn : unit.lookup symbol with
      | none => exact .none
      | some fn =>
          refine .some (.running (.cons ?_ (.cons hfg hrest)))
          refine ⟨List.mem_of_find?_eq_some hfn, rfl, rfl, rfl, ?_⟩
          exact fun t ht => absurd ht.1 (Nat.not_lt_zero _)

theorem execCallRuntime_same {dest : ℕ} {symbol : RuntimeFn} {args : List ℕ}
    {type : Option Ty}
    (hinst : f.fn.instructions[f.pc]? = some (.callRuntime dest symbol args type)) (w : R.World) :
    Option.Rel (SameConfig unit)
      (execInstr tempPlacement unit f fs w (.callRuntime dest symbol args type))
      (execInstr allocPlacement unit g gs w (.callRuntime dest symbol args type)) := by
  have hargs : g.readAll allocPlacement args = f.readAll tempPlacement args :=
    hfg.readAll hunit hinst fun t ht => ht
  simp only [execInstr, hargs]
  cases f.readAll tempPlacement args with
  | none => exact .none
  | some vals =>
      simp only [Option.bind_eq_bind, Option.bind_some]
      cases R.call symbol vals w with
      | none => exact .none
      | some r => exact hfg.define_config hunit hinst hrest rfl r.1 r.2

theorem execPrint_same {value : ℕ} {type : RuntimeTy}
    (hinst : f.fn.instructions[f.pc]? = some (.print value type)) (w : R.World) :
    Option.Rel (SameConfig unit) (execInstr tempPlacement unit f fs w (.print value type))
      (execInstr allocPlacement unit g gs w (.print value type)) := by
  simp only [execInstr, hfg.read hunit hinst (by simp [tempUses] : value ∈ _)]
  cases f.read tempPlacement value with
  | none => exact .none
  | some v =>
      simp only [Option.bind_eq_bind, Option.bind_some]
      cases R.call (.print type) [v] w with
      | none => exact .none
      | some r => exact .some (.running (.cons (hfg.next hunit hinst rfl rfl) hrest))

theorem execBr_same {cond : ℕ} {thenLabel elseLabel : Label}
    (hinst : f.fn.instructions[f.pc]? = some (.br cond thenLabel elseLabel)) (w : R.World) :
    Option.Rel (SameConfig unit)
      (execInstr tempPlacement unit f fs w (.br cond thenLabel elseLabel))
      (execInstr allocPlacement unit g gs w (.br cond thenLabel elseLabel)) := by
  simp only [execInstr, hfg.readWord hunit hinst (by simp [tempUses] : cond ∈ _)]
  cases f.readWord tempPlacement cond with
  | none => exact .none
  | some x =>
      simp only [Option.bind_eq_bind, Option.bind_some]
      have hl : (if x ≠ 0 then thenLabel else elseLabel) ∈
          jumpTargets (.br cond thenLabel elseLabel) := by
        simp only [jumpTargets]
        split <;> simp
      exact optionRel_bind (hfg.jump hunit hinst rfl hl)
        fun _ _ h => .some (.running (.cons h hrest))

theorem execRet_same {value : ℕ} {type : Option Ty}
    (hinst : f.fn.instructions[f.pc]? = some (.ret value type)) (w : R.World) :
    Option.Rel (SameConfig unit) (execInstr tempPlacement unit f fs w (.ret value type))
      (execInstr allocPlacement unit g gs w (.ret value type)) := by
  simp only [execInstr, hfg.read hunit hinst (by simp [tempUses] : value ∈ _)]
  cases f.read tempPlacement value with
  | none => exact .none
  | some v => exact returnTo_same hunit hrest v w

end Kinds

/-- One instruction, case by case. -/
theorem execInstr_same (w : R.World) :
    Option.Rel (SameConfig unit) (execInstr tempPlacement unit f fs w inst)
      (execInstr allocPlacement unit g gs w inst) := by
  have hdefine := fun {d : ℕ} (hd : tempDefs inst = [d]) =>
    hfg.define_config hunit hinst hrest hd
  cases inst with
  | constInt dest value type => exact hdefine rfl _ w
  | constStr _ _ => exact execConstStr_same hunit hfg hrest hinst w
  | constPtr _ _ _ => exact execConstPtr_same hunit hfg hrest hinst w
  | loadLocal _ _ _ => exact execLoadLocal_same hunit hfg hrest hinst w
  | storeLocal _ _ _ => exact execStoreLocal_same hunit hfg hrest hinst w
  | neg _ _ => exact execNeg_same hunit hfg hrest hinst w
  | not _ _ => exact execNot_same hunit hfg hrest hinst w
  | bin _ _ _ _ => exact execBin_same hunit hfg hrest hinst w
  | cmp _ _ _ _ => exact execCmp_same hunit hfg hrest hinst w
  | call _ _ _ _ => exact execCall_same hunit hfg hrest hinst w
  | callRuntime _ _ _ _ => exact execCallRuntime_same hunit hfg hrest hinst w
  | print _ _ => exact execPrint_same hunit hfg hrest hinst w
  | label name => exact .some (.running (.cons (hfg.next hunit hinst rfl rfl) hrest))
  | jmp label =>
      exact optionRel_bind (hfg.jump hunit hinst rfl (by simp [jumpTargets]))
        fun _ _ h => .some (.running (.cons h hrest))
  | br _ _ _ => exact execBr_same hunit hfg hrest hinst w
  | ret _ _ => exact execRet_same hunit hfg hrest hinst w

omit hfg hinst hrest in
/-- One step of the two machines. -/
theorem step_same {c : Config R ℕ} {c' : Config R Location} (h : SameConfig unit c c') :
    Option.Rel (SameConfig unit) (step tempPlacement unit c) (step allocPlacement unit c') := by
  cases h with
  | finished => exact .none
  | running hframes =>
      cases hframes with
      | nil => exact .none
      | @cons f g fs gs hfg hrest =>
          simp only [step, hfg.fn, hfg.pc]
          cases hinst : f.fn.instructions[f.pc]? with
          | none => exact .none
          | some inst => exact execInstr_same hunit hfg hinst hrest _

omit hfg hinst hrest in
/-- Any number of steps of the two machines. -/
theorem runSteps_same (n : ℕ) : ∀ {c : Config R ℕ} {c' : Config R Location},
    SameConfig unit c c' → Option.Rel (SameConfig unit) (runSteps tempPlacement unit n c)
      (runSteps allocPlacement unit n c') := by
  induction n with
  | zero => exact fun h => .some h
  | succ n ih => exact fun h => optionRel_bind (step_same hunit h) fun _ _ h' => ih h'

end Lockstep

/-! ## The allocation of lowered code -/

/-- What the places of the temps of a function have to satisfy. -/
structure AllocationSound (fn : IRFunction) : Prop where
  /-- Every temp has a place: an allocatable register or a spill slot. -/
  located : ∀ i t, OccursAt fn.instructions i t →
    (∃ r ∈ allocatable, (allocateTemps fn).locations t = some (.reg r)) ∨
      ∃ s < (allocateTemps fn).spillCount, (allocateTemps fn).locations t = some (.spill s)
  spills : ∀ t u s, (allocateTemps fn).locations t = some (.spill s) →
    (allocateTemps fn).locations u = some (.spill s) → t = u
  /-- On every path, nothing is written to the place of a temp between its definition and a use. -/
  kept : ∀ (path : List ℕ) (last t : ℕ),
    List.IsChain (Edge fn.instructions) (path ++ [last]) → t ∈ usesAt fn.instructions last →
    (∀ p ∈ path, t ∉ defsAt fn.instructions p) → ∀ p ∈ path, ∀ d ∈ defsAt fn.instructions p,
      (allocateTemps fn).locations d ≠ (allocateTemps fn).locations t

theorem TempsOk.allocationSound {fn : IRFunction}
    (h : TempsOk fn.instructions fn.tempTypes.length) : AllocationSound fn := by
  refine ⟨?_, fun t u s => allocateTemps_spill_inj, ?_⟩
  · intro i t hocc
    obtain ⟨loc, hloc⟩ := Option.ne_none_iff_exists'.mp (h.located hocc)
    cases loc with
    | reg r => exact .inl ⟨r, allocateTemps_reg_mem hloc, hloc⟩
    | spill s => exact .inr ⟨s, allocateTemps_spill_lt hloc, hloc⟩
  · intro path last t hpath huse hdefs
    exact h.separates.path huse hpath hdefs

theorem initialConfig_same (unit : IRUnit) {R : Runtime} (w : R.World) :
    Option.Rel (SameConfig unit) (initialConfig unit w) (initialConfig unit w) := by
  rw [initialConfig, initialConfig]
  cases hlast : unit.functions.getLast? with
  | none => exact .none
  | some fn =>
      refine .some (.running (.cons ⟨List.mem_of_getLast? hlast, rfl, rfl, rfl, ?_⟩ .nil))
      exact fun t ht => absurd ht.1 (Nat.not_lt_zero _)

/-- The allocation of every function `lowerProgram` produces is sound on every path, and the unit
runs step for step with its temps in the places chosen. -/
theorem allocateTemps_preserves_execution {program : Program} {table : FunctionTable}
    {unit : IRUnit} (hlower : lowerProgram program table = .ok unit) :
    (∀ fn ∈ unit.functions, AllocationSound fn) ∧
      ∀ (R : Runtime) (w : R.World) (n : ℕ), Option.Rel (SameConfig unit)
        ((initialConfig unit w).bind (runSteps tempPlacement unit n))
        ((initialConfig unit w).bind (runSteps allocPlacement unit n)) := by
  have hunit := (lowerProgram_lowers hlower).tempsOk
  constructor
  · intro fn hfn
    exact (hunit fn hfn).allocationSound
  · intro R w n
    exact optionRel_bind (initialConfig_same unit w) fun _ _ h => runSteps_same hunit n h

/-- `mostrar 1 + (2 + (3 + (4 + (5 + (6 + 7)))))`: more values at once than registers. -/
def deepSumProgram : Program :=
  { functions := []
    body := [.show ([1, 2, 3, 4, 5, 6].foldr (fun n e => .binary .add (.number n) e)
      (.number 7))] }

theorem allocateTemps_preserves_execution_deepSum :
    ∃ (unit : IRUnit) (v : NativeValue) (w : NativeWorld),
      lowerProgram deepSumProgram [] = .ok unit ∧ (∀ fn ∈ unit.functions, AllocationSound fn) ∧
      w.stdout = bytesOf "28\n" ∧
      (initialConfig unit NativeWorld.initial).bind
        (@runSteps nativeRuntime _ _ allocPlacement unit 16) = some (.finished v w) := by
  obtain ⟨unit, hlower⟩ : ∃ unit, lowerProgram deepSumProgram [] = .ok unit :=
    except_eq_ok_of_isSome (by decide +kernel)
  -- the run of the IR, to be carried over to the allocated code
  have hrun : ((lowerProgram deepSumProgram []).toOption.bind fun unit =>
      ((initialConfig unit NativeWorld.initial).bind
        (@runSteps nativeRuntime _ _ tempPlacement unit 16)).bind finalStdout) =
      some (bytesOf "28\n") := by decide +kernel
  rw [hlower, Except.toOption, Option.bind_some] at hrun
  obtain ⟨c, hc, hout⟩ := Option.bind_eq_some_iff.mp hrun
  obtain ⟨hsound, hsame⟩ := allocateTemps_preserves_execution hlower
  have hrel := hsame nativeRuntime NativeWorld.initial 16
  rw [hc] at hrel
  generalize hr : (initialConfig unit NativeWorld.initial).bind
    (@runSteps nativeRuntime _ _ allocPlacement unit 16) = r at hrel
  cases hrel with
  | some hconfig =>
      cases hconfig with
      | running _ => cases hout
      | @finished v w => exact ⟨unit, v, w, hlower, hsound, by simpa [finalStdout] using hout, hr⟩

end GatoCore.Native
