import GatoCore.Native.IRTypes
import GatoCore.Native.NativeRuntime
import GatoCore.Native.SimulateExpr

/-!
# Type soundness

In a run of a well-typed unit every temp and every slot holds a value of its static type. The
runtime does not check what it is given: that its functions get what they are for is what the types
say. A runtime is described by the values of each type; that of the C runtime comes last.
-/

namespace GatoCore.Native

open StateTransition

/-! ## Runtimes with types -/

/-- The values of each type, closed under what the generated code does with them. -/
structure ValueTyping (R : Runtime) where
  HasType : R.Value → Ty → Prop
  zero : ∀ type, HasType (R.ofWord 0) type
  word : ∀ {type}, isIntLikeType (some type) = true → ∀ w, HasType (R.ofWord w) type
  address : ∀ {tables : ConstTables} {label type v}, tables.Typed →
    tables.labelType label = some type → R.address tables label = some v → HasType v type
  call : ∀ {fn : RuntimeFn} {types type vals v w w'}, fn.HasSignature types type →
    List.Forall₂ HasType vals types → R.call fn vals w = some (v, w') → HasType v type

section Soundness

variable {R : Runtime} (T : ValueTyping R)

/-- Every temp and slot of an activation that has a value has one of its type. -/
structure FrameTyped (unit : IRUnit) (f : Frame R ℕ) : Prop where
  mem : f.fn ∈ unit.functions
  temps : ∀ t v, f.temps t = some v → ∃ τ, f.fn.tempTypes[t]? = some (some τ) ∧ T.HasType v τ
  locals : ∀ s v, f.locals s = some v →
    ∃ τ, (f.fn.locals.map (·.type))[s]? = some (some τ) ∧ T.HasType v τ

/-- An activation `g` stands at a call of the function of `f`. -/
def Awaits (f g : Frame R ℕ) : Prop :=
  ∃ dest symbol args τ, g.fn.instructions[g.pc]? = some (.call dest symbol args (some τ)) ∧
    f.fn.returnType = some τ

def ConfigTyped (unit : IRUnit) : Config R ℕ → Prop
  | .running frames _ => (∀ f ∈ frames, FrameTyped T unit f) ∧ frames.IsChain Awaits
  | .finished _ _ => True

variable {T} {table : FunctionTable} {unit : IRUnit} {f : Frame R ℕ}

/-- A temp read is a value of its static type. -/
theorem FrameTyped.read (hf : FrameTyped T unit f) {t : ℕ} {τ : Ty} {v : R.Value}
    (ht : f.fn.tempTypes[t]? = some (some τ)) (hv : f.temps t = some v) : T.HasType v τ := by
  obtain ⟨σ, hσ, hvσ⟩ := hf.temps t v hv
  obtain rfl : τ = σ := by simpa using ht.symm.trans hσ
  exact hvσ

theorem FrameTyped.set (hf : FrameTyped T unit f) {t : ℕ} {τ : Ty} {v : R.Value}
    (ht : f.fn.tempTypes[t]? = some (some τ)) (hv : T.HasType v τ) :
    FrameTyped T unit (f.set t v) := by
  refine ⟨hf.mem, ?_, hf.locals⟩
  intro u x hx
  by_cases hu : u = t
  · subst hu
    rw [Frame.set_temps_self] at hx
    cases hx
    exact ⟨τ, ht, hv⟩
  · rw [Frame.set_temps_of_ne _ _ _ hu] at hx
    exact hf.temps u x hx

theorem FrameTyped.store (hf : FrameTyped T unit f) {s : ℕ} {τ : Ty} {v : R.Value}
    (hs : (f.fn.locals.map (·.type))[s]? = some (some τ)) (hv : T.HasType v τ) :
    FrameTyped T unit { f.next with locals := Function.update f.locals s (some v) } := by
  refine ⟨hf.mem, hf.temps, ?_⟩
  intro u x hx
  dsimp only at hx
  by_cases hu : u = s
  · subst hu
    rw [Function.update_self] at hx
    cases hx
    exact ⟨τ, hs, hv⟩
  · rw [Function.update_of_ne hu] at hx
    exact hf.locals u x hx

theorem FrameTyped.goto (hf : FrameTyped T unit f) (pc : ℕ) :
    FrameTyped T unit { f with pc := pc } :=
  ⟨hf.mem, hf.temps, hf.locals⟩

theorem forall₂_of_mapM {α β : Type} {f : α → Option β} :
    ∀ {xs : List α} {ys : List β}, xs.mapM f = some ys →
      List.Forall₂ (fun x y => f x = some y) xs ys
  | [], ys, h => by
      cases h
      exact .nil
  | x :: xs, ys, h => by
      simp only [List.mapM_cons, Option.bind_eq_bind, Option.bind_eq_some_iff, Option.pure_def,
        Option.some.injEq] at h
      obtain ⟨y, hy, ys', hys, rfl⟩ := h
      exact .cons hy (forall₂_of_mapM hys)

/-- The values read from temps have the types of the temps. -/
theorem FrameTyped.readAll_types (hf : FrameTyped T unit f) {ts : List ℕ} {vals : List R.Value}
    {types : List (Option Ty)}
    (hts : List.Forall₂ (fun t type => f.fn.tempTypes[t]? = some type) ts types)
    (hvals : f.readAll tempPlacement ts = some vals) :
    List.Forall₂ (fun v type => ∃ τ, type = some τ ∧ T.HasType v τ) vals types := by
  have hread := forall₂_of_mapM hvals
  clear hvals
  induction hread generalizing types with
  | nil =>
      cases hts
      exact .nil
  | cons hv _ ih =>
      cases hts with
      | cons ht hts =>
          obtain ⟨τ, hτ, hvτ⟩ := hf.temps _ _ hv
          exact .cons ⟨τ, Option.some.inj (ht.symm.trans hτ), hvτ⟩ (ih hts)

theorem FrameTyped.readAll (hf : FrameTyped T unit f) {ts : List ℕ} {vals : List R.Value}
    {types : List Ty} (hts : List.Forall₂ (fun t τ => f.fn.tempTypes[t]? = some (some τ)) ts types)
    (hvals : f.readAll tempPlacement ts = some vals) : List.Forall₂ T.HasType vals types := by
  have htyped := hf.readAll_types (List.forall₂_map_right_iff.mpr hts) hvals
  rw [List.forall₂_map_right_iff] at htyped
  refine htyped.imp ?_
  rintro v τ ⟨σ, hσ, hv⟩
  cases hσ
  exact hv

/-! ## Steps -/

/-- The top activation goes on in the same function. -/
theorem ConfigTyped.top {rest : List (Frame R ℕ)} {w w' : R.World} {f' : Frame R ℕ}
    (h : ConfigTyped T unit (.running (f :: rest) w)) (hf' : FrameTyped T unit f')
    (hfn : f'.fn = f.fn) : ConfigTyped T unit (.running (f' :: rest) w') := by
  obtain ⟨hframes, hchain⟩ := h
  rw [List.forall_mem_cons] at hframes
  refine ⟨List.forall_mem_cons.mpr ⟨hf', hframes.2⟩, ?_⟩
  cases rest with
  | nil => exact .singleton _
  | cons g rest =>
      rw [List.isChain_cons_cons] at hchain ⊢
      refine ⟨?_, hchain.2⟩
      obtain ⟨dest, symbol, args, τ, hinst, hret⟩ := hchain.1
      exact ⟨dest, symbol, args, τ, hinst, hfn ▸ hret⟩

/-- The slots at function entry hold the arguments of their parameters. -/
theorem entryLocals_eq_some {params : List Local} {args : List R.Value} {slot : ℕ} {v : R.Value}
    (h : entryLocals params args slot = some v) :
    ∃ p, (p, v) ∈ params.zip args ∧ p.slot = slot := by
  rcases foldl_update_eq_some (fun p : Local × R.Value => p.1.slot) (·.2) _ _ h with
    hnone | ⟨⟨p, u⟩, hp, hslot, rfl⟩
  · cases hnone
  · exact ⟨p, hp, hslot⟩

/-- The entry of a typed function, called on arguments of the types of its parameters. -/
theorem FrameTyped.entry (hunit : UnitTyped table unit) {fn : IRFunction}
    (hfn : fn ∈ unit.functions)
    {vals : List R.Value}
    (hvals : List.Forall₂ (fun v type => ∃ τ, type = some τ ∧ T.HasType v τ) vals
      (fn.params.map (·.type))) : FrameTyped T unit (entryFrame fn vals) := by
  refine ⟨hfn, nofun, ?_⟩
  intro slot v hv
  obtain ⟨p, hp, rfl⟩ := entryLocals_eq_some hv
  obtain ⟨τ, hτ, hvτ⟩ : ∃ τ, p.type = some τ ∧ T.HasType v τ := by
    refine List.forall₂_zip hvals.flip ?_
    rw [List.zip_map_left]
    exact List.mem_map_of_mem hp
  have hslot := hunit.params fn hfn p (List.of_mem_zip hp).1
  refine ⟨τ, ?_, hvτ⟩
  show (fn.locals.map (·.type))[p.slot]? = _
  rw [List.getElem?_map, hslot, Option.map_some, hτ]

/-- A value returned to the activation below, or out of `main`. -/
theorem returnTo_typed (hunit : UnitTyped table unit) {rest : List (Frame R ℕ)} {v : R.Value}
    {w w' : R.World} {τ : Ty} {c : Config R ℕ} (h : ConfigTyped T unit (.running (f :: rest) w))
    (hret : f.fn.returnType = some τ) (hv : T.HasType v τ)
    (hc : returnTo tempPlacement v w' rest = some c) : ConfigTyped T unit c := by
  cases rest with
  | nil =>
      cases hc
      trivial
  | cons g rest =>
      obtain ⟨hframes, hchain⟩ := h
      rw [List.forall_mem_cons] at hframes
      rw [List.isChain_cons_cons] at hchain
      obtain ⟨⟨dest, symbol, args, σ, hinst, hσ⟩, hrest⟩ := hchain
      obtain rfl : τ = σ := Option.some.inj (hret.symm.trans hσ)
      rw [returnTo, hinst] at hc
      cases hc
      have hg := hframes.2 g List.mem_cons_self
      obtain ⟨-, -, ρ, -, -, -, -, hρ, hdest⟩ :=
        hunit.code g.fn hg.mem _ (List.mem_of_getElem? hinst)
      cases hρ
      have htop : ConfigTyped T unit (.running (g :: rest) w') := ⟨hframes.2, hrest⟩
      exact htop.top (hg.set hdest hv) rfl

/-- A temp that gets a value of its type. -/
theorem ConfigTyped.define {rest : List (Frame R ℕ)} {w w' : R.World} {dest : ℕ} {τ : Ty}
    {v : R.Value} (h : ConfigTyped T unit (.running (f :: rest) w))
    (hdest : f.fn.tempTypes[dest]? = some (some τ)) (hv : T.HasType v τ) :
    ConfigTyped T unit (.running (f.set dest v :: rest) w') :=
  h.top ((h.1 f List.mem_cons_self).set hdest hv) rfl

theorem ConfigTyped.goto {rest : List (Frame R ℕ)} {w w' : R.World} {pc : ℕ}
    (h : ConfigTyped T unit (.running (f :: rest) w)) :
    ConfigTyped T unit (.running ({ f with pc := pc } :: rest) w') :=
  h.top ((h.1 f List.mem_cons_self).goto pc) rfl

/-- A call pushes an activation with the arguments in its slots. -/
theorem call_typed (hunit : UnitTyped table unit) {rest : List (Frame R ℕ)} {w : R.World}
    {dest : ℕ} {symbol : Symbol} {args : List ℕ} {type : Option Ty} {vals : List R.Value}
    {fn : IRFunction} (h : ConfigTyped T unit (.running (f :: rest) w))
    (hinst : f.fn.instructions[f.pc]? = some (.call dest symbol args type))
    (hvals : f.readAll tempPlacement args = some vals) (hfn : unit.lookup symbol = some fn) :
    ConfigTyped T unit (.running (entryFrame fn vals :: f :: rest) w) := by
  have hf := h.1 f List.mem_cons_self
  obtain ⟨name, entry, τ, rfl, hentry, hargs, rfl, hτ, -⟩ :=
    hunit.code f.fn hf.mem _ (List.mem_of_getElem? hinst)
  obtain ⟨entry', hentry', hparams, hret⟩ := hunit.callee name fn hfn
  obtain rfl : entry = entry' := Option.some.inj (hentry.symm.trans hentry')
  have hmem : fn ∈ unit.functions := List.mem_of_find?_eq_some hfn
  refine ⟨List.forall_mem_cons.mpr ⟨FrameTyped.entry hunit hmem ?_, h.1⟩, ?_⟩
  · rw [hparams]
    exact hf.readAll_types hargs hvals
  · rw [List.isChain_cons_cons]
    exact ⟨⟨dest, .fn name, args, τ, hτ ▸ hinst, hret.trans hτ⟩, h.2⟩

/-- One instruction keeps the configuration well typed. -/
theorem execInstr_typed (hunit : UnitTyped table unit) {rest : List (Frame R ℕ)} {w : R.World}
    {inst : Instr} {c : Config R ℕ} (h : ConfigTyped T unit (.running (f :: rest) w))
    (hinst : f.fn.instructions[f.pc]? = some inst)
    (hc : execInstr tempPlacement unit f rest w inst = some c) : ConfigTyped T unit c := by
  have hf := h.1 f List.mem_cons_self
  have hrule := hunit.code f.fn hf.mem inst (List.mem_of_getElem? hinst)
  cases inst with
  | constInt dest value type =>
      obtain ⟨τ, rfl, hdest, hvalue⟩ := hrule
      cases hc
      refine h.define hdest ?_
      rcases hvalue with hint | ⟨-, rfl⟩
      · exact T.word hint _
      · exact T.zero τ
  | constStr dest label =>
      obtain ⟨v, hv, hc⟩ := Option.bind_eq_some_iff.mp hc
      cases hc
      exact h.define hrule.1 (T.address hunit.consts hrule.2 hv)
  | constPtr dest label type =>
      obtain ⟨τ, rfl, hdest, hlabel⟩ := hrule
      obtain ⟨v, hv, hc⟩ := Option.bind_eq_some_iff.mp hc
      cases hc
      exact h.define hdest (T.address hunit.consts hlabel hv)
  | loadLocal dest slot type =>
      obtain ⟨τ, rfl, hdest, hslot⟩ := hrule
      obtain ⟨v, hv, hc⟩ := Option.bind_eq_some_iff.mp hc
      cases hc
      obtain ⟨σ, hσ, hvσ⟩ := hf.locals slot v hv
      -- the slot has one type in the function, whoever stored to it
      obtain rfl : τ = σ := by simpa using hslot.symm.trans hσ
      exact h.define hdest hvσ
  | storeLocal slot type value =>
      obtain ⟨τ, rfl, hslot, hvalue⟩ := hrule
      obtain ⟨v, hv, hc⟩ := Option.bind_eq_some_iff.mp hc
      cases hc
      exact h.top (hf.store hslot (hf.read hvalue hv)) rfl
  | neg dest value =>
      obtain ⟨v, hv, hc⟩ := Option.bind_eq_some_iff.mp hc
      cases hc
      exact h.define hrule.1 (T.word rfl _)
  | not dest value =>
      obtain ⟨v, hv, hc⟩ := Option.bind_eq_some_iff.mp hc
      cases hc
      exact h.define hrule.1 (T.word rfl _)
  | bin dest op left right =>
      obtain ⟨a, ha, hc⟩ := Option.bind_eq_some_iff.mp hc
      obtain ⟨b, hb, hc⟩ := Option.bind_eq_some_iff.mp hc
      obtain ⟨r, hr, hc⟩ := Option.bind_eq_some_iff.mp hc
      cases hc
      exact h.define hrule.1 (T.word (by cases op <;> rfl) _)
  | cmp dest op left right =>
      obtain ⟨a, ha, hc⟩ := Option.bind_eq_some_iff.mp hc
      obtain ⟨b, hb, hc⟩ := Option.bind_eq_some_iff.mp hc
      cases hc
      exact h.define hrule.1 (T.word rfl _)
  | call dest symbol args type =>
      obtain ⟨vals, hvals, hc⟩ := Option.bind_eq_some_iff.mp hc
      obtain ⟨fn, hfn, hc⟩ := Option.bind_eq_some_iff.mp hc
      cases hc
      exact call_typed hunit h hinst hvals hfn
  | callRuntime dest fn args type =>
      obtain ⟨types, τ, hsig, hargs, rfl, hdest⟩ := hrule
      obtain ⟨vals, hvals, hc⟩ := Option.bind_eq_some_iff.mp hc
      obtain ⟨⟨v, w'⟩, hcall, hc⟩ := Option.bind_eq_some_iff.mp hc
      cases hc
      exact h.define hdest (T.call hsig (hf.readAll hargs hvals) hcall)
  | print value type =>
      obtain ⟨v, hv, hc⟩ := Option.bind_eq_some_iff.mp hc
      obtain ⟨⟨r, w'⟩, hcall, hc⟩ := Option.bind_eq_some_iff.mp hc
      cases hc
      exact h.goto
  | label _ =>
      cases hc
      exact h.goto
  | jmp label =>
      obtain ⟨f', hf', hc⟩ := Option.bind_eq_some_iff.mp hc
      obtain ⟨pc, -, rfl⟩ := Option.map_eq_some_iff.mp hf'
      cases hc
      exact h.goto
  | br cond thenLabel elseLabel =>
      obtain ⟨b, hb, hc⟩ := Option.bind_eq_some_iff.mp hc
      obtain ⟨f', hf', hc⟩ := Option.bind_eq_some_iff.mp hc
      obtain ⟨pc, -, rfl⟩ := Option.map_eq_some_iff.mp hf'
      cases hc
      exact h.goto
  | ret value type =>
      obtain ⟨τ, hret, rfl, hvalue⟩ := hrule
      obtain ⟨v, hv, hc⟩ := Option.bind_eq_some_iff.mp hc
      exact returnTo_typed hunit h hret.symm (hf.read hvalue hv) hc

theorem step_typed (hunit : UnitTyped table unit) {c c' : Config R ℕ} (h : ConfigTyped T unit c)
    (hstep : step tempPlacement unit c = some c') : ConfigTyped T unit c' := by
  match c with
  | .finished _ _ => cases hstep
  | .running [] _ => cases hstep
  | .running (f :: rest) w =>
      obtain ⟨inst, hinst, hc⟩ := Option.bind_eq_some_iff.mp hstep
      exact execInstr_typed hunit h hinst hc

/-- The start of a unit whose `main` has no parameters. -/
theorem initialConfig_typed {w : R.World} {c : Config R ℕ} (h : initialConfig unit w = some c) :
    ConfigTyped T unit c := by
  obtain ⟨fn, hfn, rfl⟩ := Option.map_eq_some_iff.mp h
  refine ⟨List.forall_mem_singleton.mpr ⟨List.mem_of_getLast? hfn, nofun, ?_⟩, .singleton _⟩
  intro slot v hv
  obtain ⟨p, hp, -⟩ := entryLocals_eq_some hv
  simp at hp

/-- Every configuration of a run of a well-typed unit is well typed. -/
theorem reaches_typed (hunit : UnitTyped table unit) {w : R.World} {c c' : Config R ℕ}
    (hc : initialConfig unit w = some c) (hrun : Reaches (step tempPlacement unit) c c') :
    ConfigTyped T unit c' := by
  induction hrun with
  | refl => exact initialConfig_typed hc
  | tail _ hstep ih => exact step_typed hunit ih hstep

variable (T) in
/-- The runtime function called next, if one is, is the one for the types of its arguments, and its
arguments are values of these types. -/
def OperandsSound : Config R ℕ → Prop
  | .running (f :: _) _ =>
      match f.fn.instructions[f.pc]? with
      | some (.callRuntime _ fn args _) => ∀ vals, f.readAll tempPlacement args = some vals →
          ∃ types type, fn.HasSignature types type ∧ List.Forall₂ T.HasType vals types
      | some (.print value valueType) => ∀ v, f.read tempPlacement value = some v →
          ∃ type, valueType = runtimeTypeOf (some type) ∧ T.HasType v type
      | _ => True
  | _ => True

theorem ConfigTyped.operandsSound (hunit : UnitTyped table unit) {c : Config R ℕ}
    (h : ConfigTyped T unit c) : OperandsSound T c := by
  match c with
  | .finished _ _ => trivial
  | .running [] _ => trivial
  | .running (f :: rest) w =>
      have hf := h.1 f List.mem_cons_self
      rw [OperandsSound]
      split
      · next dest fn args type hinst =>
          intro vals hvals
          obtain ⟨types, τ, hsig, hargs, -⟩ :=
            hunit.code f.fn hf.mem _ (List.mem_of_getElem? hinst)
          exact ⟨types, τ, hsig, hf.readAll hargs hvals⟩
      · next value type hinst =>
          intro v hv
          obtain ⟨τ, hvalue, htype⟩ := hunit.code f.fn hf.mem _ (List.mem_of_getElem? hinst)
          exact ⟨τ, htype, hf.read hvalue hv⟩
      · trivial

end Soundness

/-! ## Values of a type -/

mutual
/-- A constant whose lists hold items of their item type. -/
def Const.WellTyped : Const → Prop
  | .imm type _ => isIntLikeType (some type) = true
  | .text _ => True
  | .list itemType items => itemsTyped itemType items

def itemsTyped (itemType : Ty) : List Const → Prop
  | [] => True
  | c :: cs => (c.type = itemType ∧ c.WellTyped) ∧ itemsTyped itemType cs
end

theorem itemsTyped_iff {itemType : Ty} {items : List Const} :
    itemsTyped itemType items ↔ ∀ c ∈ items, c.type = itemType ∧ c.WellTyped := by
  induction items with
  | nil => simp [itemsTyped]
  | cons c items ih => rw [itemsTyped, ih, List.forall_mem_cons]

/-- A number, a text or a list of the type; a text or a list may be null. -/
def NativeValue.HasType (v : NativeValue) : Ty → Prop
  | .str => v = .word 0 ∨ ∃ address, v = .text address
  | .array item => v = .word 0 ∨ ∃ items, v = .list item items ∧ itemsTyped item items
  | _ => ∃ w, v = .word w

theorem NativeValue.hasType_zero (type : Ty) : (NativeValue.word 0).HasType type := by
  cases type <;> simp [NativeValue.HasType]

theorem NativeValue.hasType_word {type : Ty} (h : isIntLikeType (some type) = true) (w : Word) :
    (NativeValue.word w).HasType type := by
  cases type <;> first | exact ⟨w, rfl⟩ | cases h

theorem NativeValue.hasType_text (address : TextAddress) :
    (NativeValue.text address).HasType .str :=
  .inr ⟨address, rfl⟩

theorem nativeConst_hasType {c : Const} (h : c.WellTyped) : (nativeConst c).HasType c.type := by
  cases c with
  | imm type value => exact NativeValue.hasType_word h _
  | text value => exact NativeValue.hasType_text _
  | list itemType items => exact .inr ⟨items, rfl, h⟩

/-- Constants resolved one by one keep the types of their items. -/
theorem itemsTyped_of_forall₂ {tables : ConstTables} {n : ℕ} {itemType : Ty}
    (hone : ∀ {c : ConstValue} {k : Const}, tables.resolve n c = some k → c.Typed tables →
      k.type = c.type ∧ k.WellTyped) {cs : List ConstValue} {ks : List Const}
    (h : List.Forall₂ (fun c k => tables.resolve n c = some k) cs ks)
    (hcs : ∀ c ∈ cs, c.type = itemType ∧ c.Typed tables) : itemsTyped itemType ks := by
  induction h with
  | nil => trivial
  | cons hk _ ih =>
      rw [List.forall_mem_cons] at hcs
      obtain ⟨htype, hwell⟩ := hone hk hcs.1.2
      exact ⟨⟨htype.trans hcs.1.1, hwell⟩, ih hcs.2⟩

/-- A typed constant stands for a value of its type. -/
theorem ConstTables.Typed.resolve_wellTyped {tables : ConstTables} (h : tables.Typed) :
    ∀ {n : ℕ} {c : ConstValue} {k : Const}, tables.resolve n c = some k → c.Typed tables →
      k.type = c.type ∧ k.WellTyped
  | n, ⟨type, .imm value⟩, k, hk, hc => by
      cases n <;> cases hk <;> exact ⟨rfl, hc⟩
  | n, ⟨type, .label (.str i)⟩, k, hk, hc => by
      obtain ⟨s, -, hs⟩ := Option.map_eq_some_iff.mp hc
      rw [ConstTables.resolve] at hk
      obtain ⟨s', -, rfl⟩ := Option.map_eq_some_iff.mp hk
      exact ⟨hs, trivial⟩
  | 0, ⟨type, .label (.arr i)⟩, k, hk, hc => by cases hk
  | n + 1, ⟨type, .label (.arr i)⟩, k, hk, hc => by
      obtain ⟨entry, hentry, htype⟩ := Option.map_eq_some_iff.mp hc
      rw [ConstTables.resolve, hentry, Option.bind_some] at hk
      obtain ⟨ks, hks, rfl⟩ := Option.map_eq_some_iff.mp hk
      exact ⟨htype, itemsTyped_of_forall₂ (fun hk hc => h.resolve_wellTyped hk hc)
        (forall₂_of_mapM hks) (h entry (List.mem_of_getElem? hentry))⟩

/-- The address of a constant is a value of its type. -/
theorem ConstTables.Typed.address_hasType {tables : ConstTables} (h : tables.Typed)
    {label : DataLabel} {type : Ty} {v : NativeValue} (hlabel : tables.labelType label = some type)
    (hv : nativeRuntime.address tables label = some v) : v.HasType type := by
  cases label with
  | str i =>
      obtain ⟨s, -, rfl⟩ := Option.map_eq_some_iff.mp hlabel
      obtain ⟨s', -, rfl⟩ := Option.map_eq_some_iff.mp hv
      exact NativeValue.hasType_text _
  | arr i =>
      obtain ⟨entry, hentry, rfl⟩ := Option.map_eq_some_iff.mp hlabel
      rw [Runtime.address, hentry, Option.bind_some] at hv
      obtain ⟨ks, hks, rfl⟩ := Option.map_eq_some_iff.mp hv
      exact .inr ⟨ks, rfl, itemsTyped_of_forall₂ (fun hk hc => h.resolve_wellTyped hk hc)
        (forall₂_of_mapM hks) (h entry (List.mem_of_getElem? hentry))⟩

/-! ## The runtime keeps types -/

theorem nativeArrayGet_hasType {item : Ty} {v i r : NativeValue} (hv : v.HasType (.array item))
    (h : nativeArrayGet v i = some r) : r.HasType item := by
  simp only [nativeArrayGet, Option.bind_eq_bind, Option.bind_eq_some_iff] at h
  obtain ⟨index, -, items?, hitems, h⟩ := h
  rcases hv with rfl | ⟨items, rfl, htyped⟩
  · cases hitems
    cases h
    exact NativeValue.hasType_zero item
  · cases hitems
    dsimp only at h
    split at h
    · cases h
      exact NativeValue.hasType_zero item
    · cases h
      cases hget : items[index.toNat]? with
      | none => exact NativeValue.hasType_zero item
      | some c =>
          obtain ⟨rfl, hwell⟩ := itemsTyped_iff.mp htyped c (List.mem_of_getElem? hget)
          exact nativeConst_hasType hwell

theorem observed_hasType {type : Ty} {v r : NativeValue} (hv : v.HasType type)
    (h : observed (runtimeTypeOf (some type)) v = some r) : r.HasType type := by
  cases type with
  | i64 =>
      cases h
      exact hv
  | bool =>
      obtain ⟨w, -, rfl⟩ := Option.map_eq_some_iff.mp h
      exact ⟨_, rfl⟩
  | null =>
      cases h
      exact ⟨_, rfl⟩
  | str =>
      cases h
      exact hv
  | array item =>
      cases h
      exact hv

theorem nativeIdentificar_hasType {type : RuntimeTy} {v r : NativeValue} {w w' : NativeWorld}
    (h : nativeIdentificar type v w = some (r, w')) : r.HasType .str := by
  simp only [nativeIdentificar, Option.bind_eq_bind, Option.bind_eq_some_iff] at h
  obtain ⟨bytes, -, h⟩ := h
  split at h
  · cases h
    exact NativeValue.hasType_text _
  · cases h
    exact NativeValue.hasType_text _

theorem nativeStringCharAt_hasType {v i r : NativeValue} {w w' : NativeWorld}
    (h : nativeStringCharAt v i w = some (r, w')) : r.HasType .str := by
  simp only [nativeStringCharAt, Option.bind_eq_bind, Option.bind_eq_some_iff] at h
  obtain ⟨index, -, bytes, -, h⟩ := h
  split at h
  · cases h
    exact NativeValue.hasType_text _
  · split at h
    · cases h
      exact NativeValue.hasType_text _
    · cases h
      exact NativeValue.hasType_text _

/-- A runtime function called as its signature says returns a value of its result type. -/
theorem nativeCall_hasType {fn : RuntimeFn} {types : List Ty} {type : Ty} {vals : List NativeValue}
    {v : NativeValue} {w w' : NativeWorld} (hsig : fn.HasSignature types type)
    (hvals : List.Forall₂ NativeValue.HasType vals types)
    (h : nativeCall fn vals w = some (v, w')) : v.HasType type := by
  cases hvals with
  | nil => cases hsig
  | @cons a _ vals _ ha hvals =>
      cases hsig with
      | observar type =>
          cases hvals
          simp only [nativeCall, nativeObservar, Option.bind_eq_bind, Option.bind_eq_some_iff,
            Option.pure_def, Option.some.injEq, Prod.mk.injEq] at h
          obtain ⟨bytes, -, r, hr, rfl, -⟩ := h
          exact observed_hasType ha hr
      | identificar type =>
          cases hvals
          exact nativeIdentificar_hasType h
      | strlen =>
          cases hvals
          obtain ⟨bytes, -, h⟩ := Option.map_eq_some_iff.mp h
          cases h
          exact ⟨_, rfl⟩
      | arrayLen item =>
          cases hvals
          obtain ⟨items?, -, h⟩ := Option.map_eq_some_iff.mp h
          cases items? <;> cases h <;> exact ⟨_, rfl⟩
      | arrayGetI64 _ =>
          cases hvals with
          | cons _ hnil =>
              cases hnil
              obtain ⟨r, hr, h⟩ := Option.map_eq_some_iff.mp h
              cases h
              exact nativeArrayGet_hasType ha hr
      | arrayGetPtr _ =>
          cases hvals with
          | cons _ hnil =>
              cases hnil
              obtain ⟨r, hr, h⟩ := Option.map_eq_some_iff.mp h
              cases h
              exact nativeArrayGet_hasType ha hr
      | stringCharAt =>
          cases hvals with
          | cons _ hnil =>
              cases hnil
              exact nativeStringCharAt_hasType h

/-- The types of the values of `native_runtime.c`. -/
def nativeTyping : ValueTyping nativeRuntime where
  HasType := NativeValue.HasType
  zero := NativeValue.hasType_zero
  word := NativeValue.hasType_word
  address := fun htables hlabel hv => htables.address_hasType hlabel hv
  call := nativeCall_hasType

/-! ## Compiled programs -/

/-- A well-typed unit none of whose runs gives a runtime function anything but values of the types
it is for. -/
def TypeSound (table : FunctionTable) (unit : IRUnit) : Prop :=
  UnitTyped table unit ∧ ∀ (w : NativeWorld) (c c' : Config nativeRuntime ℕ),
    initialConfig unit w = some c → Reaches (step tempPlacement unit) c c' →
      OperandsSound nativeTyping c'

/-- A compiled program is type sound exactly when each `para cada` goes over a text or a list. -/
theorem typeSound_iff {program : Program} {table : FunctionTable} {unit : IRUnit}
    (htable : analyzeProgram program = .ok table) (h : lowerProgram program table = .ok unit) :
    TypeSound table unit ↔
      (∀ fn ∈ program.functions,
        bodyIterates table fn.body (paramScope (paramsOf table fn)) = true) ∧
      bodyIterates table program.body (paramScope []) = true := by
  rw [← (lowerProgram_lowers h).unitTyped_iff (analyzeProgram_tableFor htable)]
  constructor
  · exact fun hsound => hsound.1
  · intro hunit
    refine ⟨hunit, ?_⟩
    intro w c c' hc hrun
    exact (reaches_typed hunit hc hrun).operandsSound hunit

/-- `para cada x em 5` in the program body. -/
def iterateNumberProgram : Program :=
  { functions := [], body := [.forEach "x" (.number 5) []] }

/-- Nothing checks the iterable of the program body: the number 5 is given to
`ptjs_array_len`. -/
theorem iterateNumberProgram_not_sound :
    analyzeProgram iterateNumberProgram = .ok [] ∧
      ∃ unit, lowerProgram iterateNumberProgram [] = .ok unit ∧ ¬ TypeSound [] unit := by
  have htable : analyzeProgram iterateNumberProgram = .ok [] := by decide +kernel
  obtain ⟨unit, hlower⟩ : ∃ unit, lowerProgram iterateNumberProgram [] = .ok unit :=
    Lib.except_eq_ok_of_isSome (by decide +kernel)
  refine ⟨htable, unit, hlower, ?_⟩
  rintro ⟨hunit, -⟩
  have hbody := (((lowerProgram_lowers hlower).unitTyped_iff
    (analyzeProgram_tableFor htable)).mp hunit).2
  revert hbody
  decide +kernel

/-- The letters of some texts, one a line. -/
def lettersProgram : Program :=
  { functions := [⟨"letras", [],
      [.forEach "s" (.array [.string "gato", .string "rede"])
        [.forEach "c" (.identifier "s") [.show (.identifier "c")]]]⟩]
    body := [.exprStmt (.call (.identifier "letras") [])] }

def lettersTable : FunctionTable := [⟨"letras", [], some .i64⟩]

theorem typeSound_iff_letters :
    ∃ unit, lowerProgram lettersProgram lettersTable = .ok unit ∧
      TypeSound lettersTable unit := by
  obtain ⟨unit, hlower⟩ : ∃ unit, lowerProgram lettersProgram lettersTable = .ok unit :=
    Lib.except_eq_ok_of_isSome (by decide +kernel)
  refine ⟨unit, hlower, (typeSound_iff (by decide +kernel) hlower).mpr ⟨?_, ?_⟩⟩
  · decide +kernel
  · decide +kernel

end GatoCore.Native
