import GatoCore.Native.SimulateExpr

/-!
# Lowering preserves meaning: statements

Between two statements of an activation the frame holds the environment in the slots of its
locals. The temps and the hidden slots of the loops around a statement are left alone by it: a
`para cada` still finds its iterable and its index after its body.
-/

namespace GatoCore.Native

open StateTransition GatoCore.Lib

variable {R : Runtime} {unit : IRUnit} {Γ : EvalContext}

/-! ## Jumps -/

/-- `f` with control elsewhere. -/
def Frame.goto (f : Frame R ℕ) (pc : ℕ) : Frame R ℕ := { f with pc := pc }

section Jumps

variable {final : LoweringContext} {code target : List Instr} {f : Frame R ℕ}
  {rest : List (Frame R ℕ)} {w : R.World} {l : Label}

theorem instr_of_code {inst : Instr} (hpre : code ++ [inst] <+: final.instructions)
    (hfn : f.fn = final.toFunction) (hpc : f.pc = code.length) :
    f.fn.instructions[f.pc]? = some inst := by
  rw [hfn, hpc]
  exact getElem?_of_code hpre

theorem instr_of_segment {seg : List Instr} {inst : Instr}
    (hpre : code ++ seg <+: final.instructions) (hfn : f.fn = final.toFunction) {i : ℕ}
    (hpc : f.pc = code.length + i) (hi : seg[i]? = some inst) :
    f.fn.instructions[f.pc]? = some inst := by
  obtain ⟨more, hmore⟩ := hpre
  have hcode : f.fn.instructions = code ++ seg ++ more := by
    rw [hfn, hmore]
    rfl
  rw [hcode, hpc, List.append_assoc, List.getElem?_append_right (Nat.le_add_right _ _),
    Nat.add_sub_cancel_left, List.getElem?_append_left (List.getElem?_eq_some_iff.mp hi).1]
  exact hi

theorem jump_eq (hp : Placed unit final) (hl : target ++ [Instr.label l] <+: final.instructions)
    (hfn : f.fn = final.toFunction) : f.jump l = some (f.goto target.length) := by
  have hcode : f.fn.instructions = final.instructions := by
    rw [hfn]
    rfl
  rw [Frame.jump, hcode, labelIndex_of_nodup hp.labels (getElem?_of_code hl)]
  rfl

theorem step_label (hpre : code ++ [Instr.label l] <+: final.instructions)
    (hfn : f.fn = final.toFunction) (hpc : f.pc = code.length) :
    step tempPlacement unit (.running (f :: rest) w) =
      some (.running (f.goto (code ++ [Instr.label l]).length :: rest) w) := by
  rw [step_running (instr_of_code hpre hfn hpc)]
  simp [execInstr, Frame.next, Frame.goto, hpc]

theorem step_jmp (hp : Placed unit final) (hpre : code ++ [Instr.jmp l] <+: final.instructions)
    (hl : target ++ [Instr.label l] <+: final.instructions) (hfn : f.fn = final.toFunction)
    (hpc : f.pc = code.length) :
    step tempPlacement unit (.running (f :: rest) w) =
      some (.running (f.goto target.length :: rest) w) := by
  rw [step_running (instr_of_code hpre hfn hpc)]
  simp [execInstr, jump_eq hp hl hfn]

/-- A branch goes to the label its condition selects. -/
theorem step_br {cond : ℕ} {l₁ l₂ : Label} {x : Word} (hp : Placed unit final)
    (hpre : code ++ [Instr.br cond l₁ l₂] <+: final.instructions)
    (hsel : (if x ≠ 0 then l₁ else l₂) = l) (hl : target ++ [Instr.label l] <+: final.instructions)
    (hfn : f.fn = final.toFunction) (hpc : f.pc = code.length)
    (hx : f.readWord tempPlacement cond = some x) :
    step tempPlacement unit (.running (f :: rest) w) =
      some (.running (f.goto target.length :: rest) w) := by
  rw [step_running (instr_of_code hpre hfn hpc)]
  simp only [execInstr, hx, Option.bind_eq_bind, Option.bind_some, hsel, jump_eq hp hl hfn,
    Option.pure_def]

/-- A jump, and past its label. -/
theorem reaches_jmp (hp : Placed unit final) (hpre : code ++ [Instr.jmp l] <+: final.instructions)
    (hl : target ++ [Instr.label l] <+: final.instructions) (hfn : f.fn = final.toFunction)
    (hpc : f.pc = code.length) :
    Reaches (step tempPlacement unit) (.running (f :: rest) w)
      (.running (f.goto (target ++ [Instr.label l]).length :: rest) w) :=
  .tail (.single (step_jmp hp hpre hl hfn hpc))
    (step_label (f := f.goto target.length) hl hfn rfl)

/-- A branch, and past its label. -/
theorem reaches_br {cond : ℕ} {l₁ l₂ : Label} {x : Word} (hp : Placed unit final)
    (hpre : code ++ [Instr.br cond l₁ l₂] <+: final.instructions)
    (hsel : (if x ≠ 0 then l₁ else l₂) = l) (hl : target ++ [Instr.label l] <+: final.instructions)
    (hfn : f.fn = final.toFunction) (hpc : f.pc = code.length)
    (hx : f.readWord tempPlacement cond = some x) :
    Reaches (step tempPlacement unit) (.running (f :: rest) w)
      (.running (f.goto (target ++ [Instr.label l]).length :: rest) w) :=
  .tail (.single (step_br hp hpre hsel hl hfn hpc hx))
    (step_label (f := f.goto target.length) hl hfn rfl)

end Jumps

/-! ## Runs of statements -/

/-- A frame that runs the code between two contexts, its temps and hidden slots kept. -/
structure StmtRun (unit : IRUnit) (rest : List (Frame R ℕ)) (ctx ctx' : LoweringContext)
    (f f' : Frame R ℕ) (w w' : R.World) : Prop where
  reaches : Reaches (step tempPlacement unit) (.running (f :: rest) w) (.running (f' :: rest) w')
  fn : f'.fn = f.fn
  pc : f'.pc = ctx'.instructions.length
  temps : ∀ t < ctx.tempCount, f'.temps t = f.temps t
  hidden : ∀ {s : ℕ} {loc : Local}, ctx.localList[s]? = some loc → IsHiddenName loc.name →
    f'.locals s = f.locals s

section Runs

variable {rest : List (Frame R ℕ)} {ctx ctx₁ ctx₂ final : LoweringContext} {f f₁ f₂ : Frame R ℕ}
  {w w₁ w₂ : R.World}

theorem ExprRun.toStmtRun (h : ExprRun unit rest ctx ctx₁ f f₁ w w₁) :
    StmtRun unit rest ctx ctx₁ f f₁ w w₁ :=
  ⟨h.reaches, h.fn, h.pc, h.temps, fun _ _ => by rw [h.locals]⟩

theorem StmtRun.trans (h : StmtRun unit rest ctx ctx₁ f f₁ w w₁)
    (h' : StmtRun unit rest ctx₁ ctx₂ f₁ f₂ w₁ w₂) (hg : ctx.Grows ctx₁) :
    StmtRun unit rest ctx ctx₂ f f₂ w w₂ :=
  { reaches := h.reaches.trans h'.reaches
    fn := h'.fn.trans h.fn
    pc := h'.pc
    temps := fun t ht => (h'.temps t (ht.trans_le hg.tempCount)).trans (h.temps t ht)
    hidden := fun hs hname => (h'.hidden (getElem?_extend hg.localList hs) hname).trans
      (h.hidden hs hname) }

/-- A run continued elsewhere by a jump or past a label. -/
theorem StmtRun.goto (h : StmtRun unit rest ctx ctx₁ f f₁ w w₁)
    (hreach : Reaches (step tempPlacement unit) (.running (f₁ :: rest) w₁)
      (.running (f₁.goto ctx₂.instructions.length :: rest) w₁)) :
    StmtRun unit rest ctx ctx₂ f (f₁.goto ctx₂.instructions.length) w w₁ :=
  ⟨h.reaches.trans hreach, h.fn, rfl, h.temps, h.hidden⟩

theorem StmtRun.located {env : Env R} (h : StmtRun unit rest ctx ctx₁ f f₁ w w₁)
    (hf : f.fn = final.toFunction) (hp : Placed unit final)
    (henv : EnvMatch final.locals env f₁.locals) : Located unit final ctx₁ env f₁ :=
  ⟨hp, h.fn.trans hf, h.pc, henv⟩

/-- `f` after a store. -/
def Frame.store (f : Frame R ℕ) (slot : ℕ) (v : R.Value) : Frame R ℕ :=
  { f.next with locals := Function.update f.locals slot (some v) }

theorem step_store {slot : ℕ} {type : Option Ty} {t : ℕ} {v : R.Value}
    (hinst : f.fn.instructions[f.pc]? = some (.storeLocal slot type t))
    (hv : f.temps t = some v) :
    step tempPlacement unit (.running (f :: rest) w) =
      some (.running (f.store slot v :: rest) w) := by
  rw [step_running hinst]
  simp [execInstr, hv, Frame.store]

/-- Two names with the same slot are the same name. -/
theorem LoweringContext.SlotsOk.inj (h : final.SlotsOk) {x y : String} {a b : Local}
    (ha : final.locals x = some a) (hb : final.locals y = some b) (hab : a.slot = b.slot) :
    x = y := by
  obtain ⟨hax, hag⟩ := h x a ha
  obtain ⟨hby, hbg⟩ := h y b hb
  rw [hab, hbg] at hag
  cases hag
  exact hax.symm.trans hby

/-- The slot of a variable is not that of a hidden local. -/
theorem LoweringContext.SlotsOk.slot_ne (h : final.SlotsOk) {x : String} {loc hid : Local} {s : ℕ}
    (hloc : final.locals x = some loc) (hx : ¬ IsHiddenName x)
    (hs : final.localList[s]? = some hid) (hname : IsHiddenName hid.name) : s ≠ loc.slot := by
  rintro rfl
  obtain ⟨hlname, hget⟩ := h x loc hloc
  rw [hs] at hget
  cases hget
  exact hx (hlname ▸ hname)

/-- Storing a variable updates the environment. -/
theorem EnvMatch.update {env : Env R} {slots : ℕ → Option R.Value} {x : String} {loc : Local}
    {v : TypedValue R} (h : EnvMatch final.locals env slots) (hs : final.SlotsOk)
    (hx : ¬ IsHiddenName x) (hloc : final.locals x = some loc) (htype : loc.type = some v.type) :
    EnvMatch final.locals (Function.update env x (some v))
      (Function.update slots loc.slot (some v.value)) := by
  intro y u hu
  by_cases hyx : y = x
  · subst hyx
    rw [Function.update_self] at hu
    cases hu
    exact ⟨hx, loc, hloc, htype, Function.update_self ..⟩
  · rw [Function.update_of_ne hyx] at hu
    obtain ⟨hy, loc', hloc', htype', hslot⟩ := h y u hu
    refine ⟨hy, loc', hloc', htype', ?_⟩
    rw [Function.update_of_ne]
    · exact hslot
    · exact fun heq => hyx (hs.inj hloc' hloc heq)

/-- Storing a hidden local leaves the environment alone. -/
theorem EnvMatch.update_hidden {env : Env R} {slots : ℕ → Option R.Value} {s : ℕ} {loc : Local}
    {v : R.Value} (h : EnvMatch final.locals env slots) (hs : final.SlotsOk)
    (hloc : final.localList[s]? = some loc) (hhid : IsHiddenName loc.name) :
    EnvMatch final.locals env (Function.update slots s (some v)) := by
  intro y u hu
  obtain ⟨hy, loc', hloc', htype', hslot⟩ := h y u hu
  refine ⟨hy, loc', hloc', htype', ?_⟩
  rw [Function.update_of_ne (hs.slot_ne hloc' hy hloc hhid).symm]
  exact hslot

/-- A store to the local of a variable at the end of a run. -/
theorem StmtRun.store {env : Env R} {x : String} {loc : Local} {v : TypedValue R} {t : ℕ}
    (h : StmtRun unit rest ctx ctx₁ f f₁ w w₁) (hp : Placed unit final)
    (hfn : f.fn = final.toFunction) (hctx : ctx.Grows final)
    (hg : (ctx₁.withInstr (.storeLocal loc.slot loc.type t)).Grows final)
    (hx : ¬ IsHiddenName x) (hloc : final.locals x = some loc) (htype : loc.type = some v.type)
    (hv : f₁.temps t = some v.value) (henv : EnvMatch final.locals env f₁.locals) :
    ∃ f', StmtRun unit rest ctx (ctx₁.withInstr (.storeLocal loc.slot loc.type t)) f f' w w₁ ∧
      EnvMatch final.locals (Function.update env x (some v)) f'.locals := by
  have hinst := instr_of_code hg.instructions (h.fn.trans hfn) h.pc
  refine ⟨f₁.store loc.slot v.value, ⟨h.reaches.tail (step_store hinst hv), h.fn, ?_, h.temps, ?_⟩,
    henv.update hp.slots hx hloc htype⟩
  · simp [Frame.store, Frame.next, h.pc]
  · intro s loc' hs hname
    have hne : s ≠ loc.slot := hp.slots.slot_ne hloc hx (getElem?_extend hctx.localList hs) hname
    rw [← h.hidden hs hname]
    exact Function.update_of_ne hne ..

end Runs

/-! ## Statements -/

/-- How a statement ends, on the frame: at the end of its code, or about to return. -/
def Ends (unit : IRUnit) (rest : List (Frame R ℕ)) (ctx ctx' final : LoweringContext)
    (f : Frame R ℕ) (w w' : R.World) : Outcome R → Prop
  | .normal env => ∃ f', StmtRun unit rest ctx ctx' f f' w w' ∧
      EnvMatch final.locals env f'.locals
  | .returned v => ∃ f', Reaches (step tempPlacement unit) (.running (f :: rest) w)
      (.running (f' :: rest) w') ∧ Returning f' v final.returnType

def SimStmt (R : Runtime) (Γ : EvalContext) (unit : IRUnit) (n : ℕ) : Prop :=
  ∀ {ctx ctx' final : LoweringContext} {s : Stmt} {env : Env R} {type : Ty} {out : Outcome R}
    {f : Frame R ℕ} (rest : List (Frame R ℕ)) {w w' : R.World},
    StmtLowers Γ.table ctx s ctx' → (∀ x ∈ s.assigned, ¬ IsHiddenName x) →
    evalStmt Γ n type env s w = some (out, w') → ctx'.Grows final →
    final.returnType = some type → Located unit final ctx env f →
    Ends unit rest ctx ctx' final f w w' out

def SimStmts (R : Runtime) (Γ : EvalContext) (unit : IRUnit) (n : ℕ) : Prop :=
  ∀ {ctx ctx' final : LoweringContext} {body : List Stmt} {env : Env R} {type : Ty}
    {out : Outcome R} {f : Frame R ℕ} (rest : List (Frame R ℕ)) {w w' : R.World},
    StmtsLower Γ.table ctx body ctx' → (∀ x ∈ assignedNames body, ¬ IsHiddenName x) →
    evalStmts Γ n type env body w = some (out, w') → ctx'.Grows final →
    final.returnType = some type → Located unit final ctx env f →
    Ends unit rest ctx ctx' final f w w' out

def SimBlock (R : Runtime) (Γ : EvalContext) (unit : IRUnit) (n : ℕ) : Prop :=
  ∀ {ctx ctx' final : LoweringContext} {body : List Stmt} {env : Env R} {type : Ty}
    {out : Outcome R} {f : Frame R ℕ} (rest : List (Frame R ℕ)) {w w' : R.World},
    StmtsLower Γ.table ctx body ctx' → (∀ x ∈ assignedNames body, ¬ IsHiddenName x) →
    evalBlock Γ n type env body w = some (out, w') → ctx'.Grows final →
    final.returnType = some type → Located unit final ctx env f →
    Ends unit rest ctx ctx' final f w w' out

/-- The iterations of a `para cada` from index `i` on, from the loop label. -/
def SimForEach (R : Runtime) (Γ : EvalContext) (unit : IRUnit) (n : ℕ) : Prop :=
  ∀ {base ctx₁ ctx₂ final : LoweringContext} {binding : String} {v : Operand} {loc : Local}
    {body : List Stmt} {env : Env R} {type : Ty} {iterable : TypedValue R} {i : Word}
    {out : Outcome R} {f : Frame R ℕ} (rest : List (Frame R ℕ)) {w w' : R.World},
    EnsuresLocal (base.forEachTest v) binding (bindingType v.type) loc ctx₁ →
    StmtsLower Γ.table (base.forEachItem ctx₁ v loc) body ctx₂ →
    ¬ IsHiddenName binding → (∀ x ∈ assignedNames body, ¬ IsHiddenName x) →
    v.type = some iterable.type →
    evalForEach Γ n type env binding iterable i body w = some (out, w') →
    (base.forEachTail ctx₂).Grows final → final.returnType = some type → Placed unit final →
    f.fn = final.toFunction → f.pc + 1 = (base.forEachStart v).instructions.length →
    EnvMatch final.locals env f.locals →
    f.locals base.localList.length = some iterable.value →
    f.locals (base.localList.length + 1) = some (R.ofWord i) →
    Ends unit rest base (base.forEachTail ctx₂) final f w w' out

section Ends

variable {rest : List (Frame R ℕ)} {ctx ctx₁ ctx₂ final : LoweringContext} {f f₁ : Frame R ℕ}
  {w w₁ w₂ : R.World} {out : Outcome R}

/-- What runs before a statement becomes part of its run. -/
theorem Ends.after (h : StmtRun unit rest ctx ctx₁ f f₁ w w₁) (hg : ctx.Grows ctx₁)
    (h' : Ends unit rest ctx₁ ctx₂ final f₁ w₁ w₂ out) :
    Ends unit rest ctx ctx₂ final f w w₂ out := by
  cases out with
  | normal env =>
      obtain ⟨f₂, hrun, henv⟩ := h'
      exact ⟨f₂, h.trans hrun hg, henv⟩
  | returned v =>
      obtain ⟨f₂, hreach, hret⟩ := h'
      exact ⟨f₂, h.reaches.trans hreach, hret⟩

/-- An iteration before the others: it keeps what the loop has to keep. -/
theorem Ends.before (hreach : Reaches (step tempPlacement unit) (.running (f :: rest) w)
      (.running (f₁ :: rest) w₁)) (hfn : f₁.fn = f.fn)
    (htemps : ∀ t < ctx.tempCount, f₁.temps t = f.temps t)
    (hhidden : ∀ {s : ℕ} {loc : Local}, ctx.localList[s]? = some loc → IsHiddenName loc.name →
      f₁.locals s = f.locals s)
    (h : Ends unit rest ctx ctx₂ final f₁ w₁ w₂ out) :
    Ends unit rest ctx ctx₂ final f w w₂ out := by
  cases out with
  | normal env =>
      obtain ⟨f₂, hrun, henv⟩ := h
      exact ⟨f₂, ⟨hreach.trans hrun.reaches, hrun.fn.trans hfn, hrun.pc,
        fun t ht => (hrun.temps t ht).trans (htemps t ht),
        fun hs hname => (hrun.hidden hs hname).trans (hhidden hs hname)⟩, henv⟩
  | returned v =>
      obtain ⟨f₂, hreach', hret⟩ := h
      exact ⟨f₂, hreach.trans hreach', hret⟩

/-- Control is moved to another position after a normal end. -/
theorem Ends.goto (h : Ends unit rest ctx ctx₁ final f w w₁ out)
    (h' : ∀ f₁ : Frame R ℕ, f₁.fn = f.fn → f₁.pc = ctx₁.instructions.length →
      Reaches (step tempPlacement unit) (.running (f₁ :: rest) w₁)
        (.running (f₁.goto ctx₂.instructions.length :: rest) w₁)) :
    Ends unit rest ctx ctx₂ final f w w₁ out := by
  cases out with
  | normal env =>
      obtain ⟨f₁, hrun, henv⟩ := h
      exact ⟨_, hrun.goto (h' f₁ hrun.fn hrun.pc), henv⟩
  | returned v => exact h

end Ends

theorem evalBlock_flat (hflat : Γ.scoping = .flat) (n : ℕ) (type : Ty) (env : Env R)
    (body : List Stmt) (w : R.World) :
    evalBlock Γ (n + 1) type env body w = evalStmts Γ n type env body w := by
  simp only [evalBlock, enterScope, hflat]
  cases h : evalStmts Γ n type env body w with
  | none => rfl
  | some r =>
      obtain ⟨out, w'⟩ := r
      cases out <;> rfl

theorem simBlock_succ {n : ℕ} (hΓ : Linked Γ unit) (ih : SimStmts R Γ unit n) :
    SimBlock R Γ unit (n + 1) := by
  intro ctx ctx' final body env type out f rest w w' hl hnames he hg htype hf
  rw [evalBlock_flat hΓ.flat] at he
  exact ih rest hl hnames he hg htype hf

theorem simStmts_succ {n : ℕ} (ihS : SimStmt R Γ unit n) (ih : SimStmts R Γ unit n) :
    SimStmts R Γ unit (n + 1) := by
  intro ctx ctx' final body env type out f rest w w' hl hnames he hg htype hf
  cases hl with
  | nil =>
      simp only [evalStmts] at he
      cases he
      exact ⟨f, (ExprRun.refl hf.pc).toStmtRun, hf.env⟩
  | @cons _ ctx₁ _ s body hs hbody =>
      simp only [evalStmts, Option.bind_eq_bind, Option.bind_eq_some_iff] at he
      obtain ⟨⟨out₁, w₁⟩, hes, he⟩ := he
      have hfirst := ihS rest hs (fun x hx => hnames x (by simp [assignedNames, hx])) hes
        (hbody.grows.trans hg) htype hf
      cases out₁ with
      | returned v =>
          cases he
          exact hfirst
      | normal env₁ =>
          obtain ⟨f₁, hrun, henv⟩ := hfirst
          exact Ends.after hrun hs.grows (ih rest hbody
            (fun x hx => hnames x (by simp [assignedNames, hx])) he hg htype
            (hrun.located hf.fn hf.placed henv))

/-- The default value of a type. -/
theorem simDefault (hr : unit.consts.Ranked) {ctx ctx' final : LoweringContext} {type : Ty}
    {v : Operand} {env : Env R} {f : Frame R ℕ} (rest : List (Frame R ℕ)) (w : R.World)
    (hl : DefaultLowers Γ.table ctx (some type) v ctx') (hg : ctx'.Grows final)
    (hf : Located unit final ctx env f) :
    ∃ f', ExprRun unit rest ctx ctx' f f' w w ∧
      f'.temps v.temp = some (defaultTypedValue R type).value ∧
      (defaultTypedValue R type).type = type := by
  have hstart : ExprRun unit rest ctx ctx f f w w := .refl hf.pc
  cases hl with
  | array harr =>
      cases type with
      | array item =>
          have hexec : execInstr tempPlacement unit f rest w
              (.constInt ctx.tempCount 0 (some (.array item))) = some (.running
                (f.set ctx.tempCount (wordValue R (.array item) 0).value :: rest) w) := by
            simp [execInstr, wordValue]
          obtain ⟨f', hrun, hval, _⟩ := hstart.computes _ le_rfl rfl hf.fn hg rfl hexec
          exact ⟨f', hrun, hval, rfl⟩
      | _ => simp [isArrayType] at harr
  | literal harr he =>
      cases type with
      | array item => simp [isArrayType] at harr
      | _ =>
          simp only [typeDefaultValue] at he
          cases he with
          | literal hc =>
              have he : evalExpr Γ 1 env _ w = _ := evalExpr_literal hc 0 env w
              obtain ⟨f', hrun, hval, htype⟩ := simExpr_literal hr rest hc he hg hf
              exact ⟨f', hrun, hval, rfl⟩

/-- A test, then a branch past one of two labels. -/
theorem simTest {n : ℕ} (ihE : SimExpr R Γ unit n) {ctx ctx₁ final : LoweringContext}
    (ctx₂ : LoweringContext)
    {target : List Instr} {e : Expr} {t : Operand} {env : Env R} {tv : TypedValue R} {x : Word}
    {l l₁ l₂ : Label} {f : Frame R ℕ} (rest : List (Frame R ℕ)) {w w' : R.World}
    (hl : ExprLowers Γ.table ctx e t ctx₁) (he : evalExpr Γ n env e w = some (tv, w'))
    (hx : tv.word = some x) (hg : ctx₁.Grows final)
    (hpre : ctx₁.instructions ++ [Instr.br t.temp l₁ l₂] <+: final.instructions)
    (hsel : (if x ≠ 0 then l₁ else l₂) = l) (hctx₂ : ctx₂.instructions = target ++ [Instr.label l])
    (hg₂ : ctx₂.Grows final)
    (hf : Located unit final ctx env f) :
    ∃ f', StmtRun unit rest ctx ctx₂ f f' w w' ∧ Located unit final ctx₂ env f' := by
  obtain ⟨f₁, hrun, hval, _⟩ := ihE rest hl he hg hf
  have hfn := hrun.fn.trans hf.fn
  have hbr : Reaches (step tempPlacement unit) (.running (f₁ :: rest) w')
      (.running (f₁.goto ctx₂.instructions.length :: rest) w') := by
    have htarget := hg₂.instructions
    rw [hctx₂] at htarget ⊢
    exact reaches_br hf.placed hpre hsel htarget hfn hrun.pc (Frame.readWord_of_word hval hx)
  have hrun₂ := hrun.toStmtRun.goto hbr
  have henv := hf.env
  rw [← hrun.locals] at henv
  exact ⟨_, hrun₂, hrun₂.located hf.fn hf.placed henv⟩

theorem EnsuresLocal.spec {ctx ctx' : LoweringContext} {name : String} {type : Option Ty}
    {loc : Local} (h : EnsuresLocal ctx name type loc ctx') :
    ctx'.locals name = some loc ∧ loc.type = type := by
  cases h with
  | existing hloc htype => exact ⟨hloc, htype⟩
  | fresh _ => exact ⟨by simp [LoweringContext.freshLocal], rfl⟩

/-- An expression stored in the local of a variable. -/
theorem simAssign {n : ℕ} (ihE : SimExpr R Γ unit n)
    {ctx ctx₁ ctx₂ final : LoweringContext} {name : String} {e : Expr} {v : Operand} {loc : Local}
    {env : Env R} {tv : TypedValue R} {f : Frame R ℕ} (rest : List (Frame R ℕ)) {w w' : R.World}
    (hl : ExprLowers Γ.table ctx e v ctx₁) (he : evalExpr Γ n env e w = some (tv, w'))
    (hinstr : ctx₂.instructions = ctx₁.instructions)
    (hg : (ctx₂.withInstr (.storeLocal loc.slot loc.type v.temp)).Grows final)
    (hg₁ : ctx₁.Grows final) (hname : ¬ IsHiddenName name)
    (hloc : final.locals name = some loc) (htype : loc.type = v.type)
    (hf : Located unit final ctx env f) :
    Ends unit rest ctx (ctx₂.withInstr (.storeLocal loc.slot loc.type v.temp)) final f w w'
      (.normal (Function.update env name (some tv))) := by
  obtain ⟨f₁, hrun, hval, hty⟩ := ihE rest hl he hg₁ hf
  have hrun₂ : StmtRun unit rest ctx ctx₂ f f₁ w w' :=
    { hrun.toStmtRun with pc := by rw [hinstr, hrun.pc] }
  have henv := hf.env
  rw [← hrun.locals] at henv
  exact hrun₂.store hf.placed hf.fn (hl.grows.trans hg₁) hg hname hloc (htype.trans hty) hval henv

section Compound

variable {n : ℕ} {final : LoweringContext} {env : Env R} {type : Ty} {out : Outcome R}
  {f : Frame R ℕ} {rest : List (Frame R ℕ)} {w w' : R.World}

theorem simIf (ihE : SimExpr R Γ unit n) (ihB : SimBlock R Γ unit n)
    {ctx base ctx₂ ctx₃ : LoweringContext} {test : Expr} {t : Operand}
    {thenBody elseBody : List Stmt} (ht : ExprLowers Γ.table ctx test t base)
    (hthen : StmtsLower Γ.table (base.ifHead t) thenBody ctx₂)
    (helse : StmtsLower Γ.table (base.ifMiddle ctx₂) elseBody ctx₃)
    (hnames : ∀ x ∈ (Stmt.ifElse test thenBody elseBody).assigned, ¬ IsHiddenName x)
    (he : evalStmt Γ (n + 1) type env (.ifElse test thenBody elseBody) w = some (out, w'))
    (hg : (base.ifTail ctx₃).Grows final) (htype : final.returnType = some type)
    (hf : Located unit final ctx env f) :
    Ends unit rest ctx (base.ifTail ctx₃) final f w w' out := by
  simp only [evalStmt, Option.bind_eq_bind, Option.bind_eq_some_iff] at he
  obtain ⟨⟨tv, w₁⟩, het, x, hx, he⟩ := he
  have hg₃ : ctx₃.Grows final := ((LoweringContext.Grows.refl ctx₃).ifTail base).trans hg
  have hgm : (base.ifMiddle ctx₂).Grows final := helse.grows.trans hg₃
  have hg₂ : ctx₂.Grows final := ((LoweringContext.Grows.refl ctx₂).ifMiddle base).trans hgm
  have hgh : (base.ifHead t).Grows final := hthen.grows.trans hg₂
  have hgb : base.Grows final := ((LoweringContext.Grows.refl base).ifHead t).trans hgh
  have hbr : base.instructions ++
      [Instr.br t.temp (base.labelAt .thenL 0) (base.labelAt .elseL 1)] <+: final.instructions :=
    (List.prefix_append _ _).trans hgh.instructions
  by_cases hx0 : x = 0
  · rw [if_neg (not_not.mpr hx0)] at he
    obtain ⟨f₁, hrun, hf₁⟩ := simTest ihE (base.ifMiddle ctx₂) rest ht het hx hgb hbr
      (if_neg (not_not.mpr hx0)) rfl hgm hf
    have hend := ihB rest helse (fun x hx => hnames x (by simp [Stmt.assigned, hx])) he
      hg₃ htype hf₁
    refine Ends.after hrun (((ht.grows.ifHead t).trans hthen.grows).ifMiddle base) (hend.goto ?_)
    intro f₂ hfn hpc
    exact .single (step_label hg.instructions (hfn.trans hf₁.fn) hpc)
  · rw [if_pos hx0] at he
    obtain ⟨f₁, hrun, hf₁⟩ := simTest ihE (base.ifHead t) rest ht het hx hgb hbr
      (if_pos hx0) rfl hgh hf
    have hend := ihB rest hthen (fun x hx => hnames x (by simp [Stmt.assigned, hx])) he
      hg₂ htype hf₁
    refine Ends.after hrun (ht.grows.ifHead t) (hend.goto ?_)
    intro f₂ hfn hpc
    exact reaches_jmp hf.placed ((List.prefix_append _ _).trans hgm.instructions) hg.instructions
      (hfn.trans hf₁.fn) hpc

theorem simWhile (ihE : SimExpr R Γ unit n) (ihB : SimBlock R Γ unit n) (ihS : SimStmt R Γ unit n)
    {base ctx₁ ctx₂ : LoweringContext} {test : Expr} {t : Operand} {body : List Stmt}
    (ht : ExprLowers Γ.table base.whileHead test t ctx₁) (htruthy : isIntLikeType t.type = true)
    (hbody : StmtsLower Γ.table (base.whileTest ctx₁ t) body ctx₂)
    (hnames : ∀ x ∈ (Stmt.while test body).assigned, ¬ IsHiddenName x)
    (he : evalStmt Γ (n + 1) type env (.while test body) w = some (out, w'))
    (hg : (base.whileTail ctx₂).Grows final) (htype : final.returnType = some type)
    (hf : Located unit final base env f) :
    Ends unit rest base (base.whileTail ctx₂) final f w w' out := by
  simp only [evalStmt, Option.bind_eq_bind, Option.bind_eq_some_iff] at he
  obtain ⟨⟨tv, w₁⟩, het, x, hx, he⟩ := he
  have hg₂ : ctx₂.Grows final := ((LoweringContext.Grows.refl ctx₂).whileTail base).trans hg
  have hgt : (base.whileTest ctx₁ t).Grows final := hbody.grows.trans hg₂
  have hg₁ : ctx₁.Grows final := ((LoweringContext.Grows.refl ctx₁).whileTest base t).trans hgt
  have hgh : base.whileHead.Grows final := ht.grows.trans hg₁
  have hbr : ctx₁.instructions ++
      [Instr.br t.temp (base.labelAt .body 1) (base.labelAt .loopend 2)] <+: final.instructions :=
    (List.prefix_append _ _).trans hgt.instructions
  -- past the loop label
  have hhead : StmtRun unit rest base base.whileHead f
      (f.goto base.whileHead.instructions.length) w w :=
    (ExprRun.refl hf.pc).toStmtRun.goto (.single (step_label hgh.instructions hf.fn hf.pc))
  have hfh : Located unit final base.whileHead env (f.goto base.whileHead.instructions.length) :=
    ⟨hf.placed, hf.fn, rfl, hf.env⟩
  have hgrowsHead := (LoweringContext.Grows.refl base).whileHead
  by_cases hx0 : x = 0
  · rw [if_neg (not_not.mpr hx0)] at he
    cases he
    obtain ⟨f₁, hrun, hf₁⟩ := simTest ihE (base.whileTail ctx₂) rest ht het hx hg₁ hbr
      (if_neg (not_not.mpr hx0)) rfl hg hfh
    exact ⟨f₁, hhead.trans hrun hgrowsHead, hf₁.env⟩
  · rw [if_pos hx0] at he
    obtain ⟨⟨out₁, w₂⟩, heb, he⟩ := Option.bind_eq_some_iff.mp he
    obtain ⟨f₁, hrun, hf₁⟩ := simTest ihE (base.whileTest ctx₁ t) rest ht het hx hg₁ hbr
      (if_pos hx0) rfl hgt hfh
    have hrun := hhead.trans hrun hgrowsHead
    have hgrowsTest := (hgrowsHead.trans ht.grows).whileTest base t
    have hend := ihB rest hbody (fun x hx => hnames x (by simp [Stmt.assigned, hx])) heb
      hg₂ htype hf₁
    cases out₁ with
    | returned v =>
        cases he
        exact Ends.after hrun hgrowsTest hend
    | normal env₁ =>
        -- back to the loop label, and the rest of the iterations
        obtain ⟨f₂, hrun₂, henv₂⟩ := hend
        have hrun₂ := hrun.trans hrun₂ hgrowsTest
        have hback : Reaches (step tempPlacement unit) (.running (f₂ :: rest) w₂)
            (.running (f₂.goto base.instructions.length :: rest) w₂) :=
          .single (step_jmp hf.placed ((List.prefix_append _ _).trans hg.instructions)
            hgh.instructions (hrun₂.fn.trans hf.fn) hrun₂.pc)
        have hrun₃ := hrun₂.goto hback
        exact Ends.after hrun₃ (.refl _) (ihS rest (.while ht htruthy hbody) hnames he hg htype
          (hrun₃.located hf.fn hf.placed henv₂))

end Compound

/-! ## The parts of a `para cada` -/

section ForEach

variable {base final : LoweringContext} {v : Operand} {f : Frame R ℕ} {rest : List (Frame R ℕ)}
  {w w' : R.World} {iterable : TypedValue R}

/-- The iterable and a zero index are stored. -/
theorem simForEachStart (unit : IRUnit) (rest : List (Frame R ℕ)) (w : R.World)
    (hg : (base.forEachStart v).Grows final) (hfn : f.fn = final.toFunction)
    (hpc : f.pc = base.instructions.length) (hv : f.temps v.temp = some iterable.value) :
    ∃ f', Reaches (step tempPlacement unit) (.running (f :: rest) w) (.running (f' :: rest) w) ∧
      f'.fn = f.fn ∧ f'.pc + 1 = (base.forEachStart v).instructions.length ∧
      (∀ t < base.tempCount, f'.temps t = f.temps t) ∧
      f'.locals = Function.update (Function.update f.locals base.localList.length
        (some iterable.value)) (base.localList.length + 1) (some (R.ofWord 0)) := by
  have hpre := hg.instructions
  rw [base.forEachStart_instructions v] at hpre ⊢
  have h₁ : step tempPlacement unit (.running (f :: rest) w) =
      some (.running (f.store base.localList.length iterable.value :: rest) w) :=
    step_store (instr_of_segment (i := 0) hpre hfn hpc rfl) hv
  have h₂ : step tempPlacement unit
      (.running (f.store base.localList.length iterable.value :: rest) w) =
      some (.running ((f.store base.localList.length iterable.value).set base.tempCount
        (R.ofWord 0) :: rest) w) := by
    refine Eq.trans (step_running (instr_of_segment (i := 1) hpre hfn (congrArg (· + 1) hpc) rfl))
      ?_
    rfl
  have h₃ : step tempPlacement unit (.running ((f.store base.localList.length iterable.value).set
      base.tempCount (R.ofWord 0) :: rest) w) = _ :=
    step_store (instr_of_segment (i := 2) hpre hfn (congrArg (· + 2) hpc) rfl)
      (Frame.set_temps_self _ _ _)
  refine ⟨_, .tail (.tail (.single h₁) h₂) h₃, rfl, ?_, ?_, rfl⟩
  · simp [Frame.store, Frame.next, hpc]
  · intro t ht
    exact Frame.set_temps_of_ne _ _ _ (by omega)

/-- The index is compared with the length of the iterable. -/
theorem simForEachTest (unit : IRUnit) (rest : List (Frame R ℕ)) {i x : Word}
    {len : TypedValue R} (hg : (base.forEachCond v).Grows final) (hfn : f.fn = final.toFunction)
    (hpc : f.pc + 1 = (base.forEachStart v).instructions.length)
    (hiter : f.locals base.localList.length = some iterable.value)
    (hindex : f.locals (base.localList.length + 1) = some (R.ofWord i))
    (htype : v.type = some iterable.type) (hlen : lengthOf iterable w = some (len, w'))
    (hx : len.word = some x) :
    ∃ f', Reaches (step tempPlacement unit) (.running (f :: rest) w) (.running (f' :: rest) w') ∧
      f'.fn = f.fn ∧ f'.pc = (base.forEachCond v).instructions.length ∧
      (∀ t < base.tempCount, f'.temps t = f.temps t) ∧ f'.locals = f.locals ∧
      f'.temps (base.tempCount + 1) = some (R.ofWord i) ∧
      f'.temps (base.tempCount + 2) = some iterable.value ∧
      f'.readWord tempPlacement (base.tempCount + 4) = some (wordOfBool (i.slt x)) := by
  have hpre := hg.instructions
  rw [base.forEachCond_instructions v] at hpre ⊢
  have hlabel : step tempPlacement unit (.running (f :: rest) w) =
      some (.running (f.next :: rest) w) := by
    have hpre' := (List.prefix_append _ _).trans hpre
    rw [base.forEachStart_instructions v] at hpre' hpc
    refine Eq.trans (step_running (instr_of_segment (i := 3) hpre' hfn (by simpa using hpc) rfl)) ?_
    rfl
  have h₁ : step tempPlacement unit (.running (f.next :: rest) w) =
      some (.running (f.next.set (base.tempCount + 1) (R.ofWord i) :: rest) w) := by
    refine Eq.trans (step_running (instr_of_segment (i := 0) hpre hfn hpc rfl)) ?_
    simp [execInstr, Frame.next, hindex]
  have h₂ : step tempPlacement unit
      (.running (f.next.set (base.tempCount + 1) (R.ofWord i) :: rest) w) =
      some (.running ((f.next.set (base.tempCount + 1) (R.ofWord i)).set (base.tempCount + 2)
        iterable.value :: rest) w) := by
    refine Eq.trans (step_running (instr_of_segment (i := 1) hpre hfn (congrArg (· + 1) hpc) rfl))
      ?_
    simp [execInstr, Frame.next, hiter]
  obtain ⟨hcall, hlenType⟩ := lengthOf_eq_some hlen
  rw [← htype] at hcall
  have h₃ : step tempPlacement unit (.running ((f.next.set (base.tempCount + 1)
      (R.ofWord i)).set (base.tempCount + 2) iterable.value :: rest) w) =
      some (.running (((f.next.set (base.tempCount + 1) (R.ofWord i)).set (base.tempCount + 2)
        iterable.value).set (base.tempCount + 3) len.value :: rest) w') := by
    refine Eq.trans (step_running (instr_of_segment (i := 2) hpre hfn (congrArg (· + 2) hpc) rfl))
      ?_
    exact exec_callRuntime (readAll_singleton (Frame.set_temps_self _ _ _)) hcall
  have h₄ : step tempPlacement unit (.running (((f.next.set (base.tempCount + 1)
      (R.ofWord i)).set (base.tempCount + 2) iterable.value).set (base.tempCount + 3)
        len.value :: rest) w') =
      some (.running ((((f.next.set (base.tempCount + 1) (R.ofWord i)).set (base.tempCount + 2)
        iterable.value).set (base.tempCount + 3) len.value).set (base.tempCount + 4)
        (R.ofWord (wordOfBool (i.slt x))) :: rest) w') := by
    refine Eq.trans (step_running (instr_of_segment (i := 3) hpre hfn (congrArg (· + 3) hpc) rfl))
      ?_
    simp [execInstr, Frame.readWord, Frame.readRight, Frame.set_temps_of_ne, R.toWord_ofWord,
      TypedValue.word_eq_some hx, CmpOp.eval]
  refine ⟨_, .tail (.tail (.tail (.tail (.single hlabel) h₁) h₂) h₃) h₄, rfl,
    by simpa [Frame.next] using hpc, ?_, rfl, ?_, ?_, ?_⟩
  · intro t ht
    rw [Frame.set_temps_of_ne _ _ _ (by omega), Frame.set_temps_of_ne _ _ _ (by omega),
      Frame.set_temps_of_ne _ _ _ (by omega), Frame.set_temps_of_ne _ _ _ (by omega)]
    rfl
  · simp [Frame.set_temps_of_ne]
  · simp [Frame.set_temps_of_ne]
  · simp [Frame.readWord, R.toWord_ofWord]

/-- The item is read and stored in the local of the binding. -/
theorem simForEachItem (rest : List (Frame R ℕ)) {ctx₁ : LoweringContext} {binding : String}
    {loc : Local} {i : Word}
    {item : TypedValue R} {env : Env R} (hg : (base.forEachItem ctx₁ v loc).Grows final)
    (hp : Placed unit final) (hfn : f.fn = final.toFunction)
    (hpc : f.pc = ctx₁.instructions.length) (hbinding : ¬ IsHiddenName binding)
    (hloc : final.locals binding = some loc) (hloct : loc.type = bindingType v.type)
    (hi : f.temps (base.tempCount + 1) = some (R.ofWord i))
    (hv : f.temps (base.tempCount + 2) = some iterable.value)
    (htype : v.type = some iterable.type) (hitem : itemOf iterable i w = some (item, w'))
    (henv : EnvMatch final.locals env f.locals) :
    Reaches (step tempPlacement unit) (.running (f :: rest) w)
        (.running ((f.set (base.tempCount + 5) item.value).store loc.slot item.value :: rest) w') ∧
      Located unit final (base.forEachItem ctx₁ v loc)
        (Function.update env binding (some item))
        ((f.set (base.tempCount + 5) item.value).store loc.slot item.value) := by
  have hpre := hg.instructions
  rw [base.forEachItem_instructions ctx₁ v loc] at hpre
  obtain ⟨hcall, hbind⟩ := itemOf_eq_some hitem
  have hlt : loc.type = some item.type := by rw [hloct, htype, hbind]
  rw [← htype, ← hlt] at hcall
  have hread : f.readAll tempPlacement [base.tempCount + 2, base.tempCount + 1] =
      some [iterable.value, R.ofWord i] := by
    simp [Frame.readAll, hi, hv]
  have h₁ : step tempPlacement unit (.running (f :: rest) w) =
      some (.running (f.set (base.tempCount + 5) item.value :: rest) w') := by
    refine Eq.trans (step_running (instr_of_segment (i := 0) hpre hfn hpc rfl)) ?_
    exact exec_callRuntime hread hcall
  have h₂ : step tempPlacement unit (.running (f.set (base.tempCount + 5) item.value :: rest) w') =
      some (.running ((f.set (base.tempCount + 5) item.value).store loc.slot item.value :: rest)
        w') :=
    step_store (instr_of_segment (i := 1) hpre hfn (congrArg (· + 1) hpc) rfl)
      (Frame.set_temps_self _ _ _)
  refine ⟨.tail (.single h₁) h₂, hp, hfn, ?_, henv.update hp.slots hbinding hloc hlt⟩
  rw [base.forEachItem_instructions ctx₁ v loc]
  simp [Frame.store, Frame.next, hpc]

/-- The index is incremented and control goes back to the loop label. -/
theorem simForEachTail (rest : List (Frame R ℕ)) (w : R.World) {ctx₂ : LoweringContext} {i : Word}
    (hg : (base.forEachTail ctx₂).Grows final) (hgs : (base.forEachStart v).Grows final)
    (hp : Placed unit final) (hfn : f.fn = final.toFunction)
    (hpc : f.pc = ctx₂.instructions.length) (hlt : base.tempCount + 1 < ctx₂.tempCount)
    (hi : f.temps (base.tempCount + 1) = some (R.ofWord i)) :
    ∃ f', Reaches (step tempPlacement unit) (.running (f :: rest) w) (.running (f' :: rest) w) ∧
      f'.fn = f.fn ∧ f'.pc + 1 = (base.forEachStart v).instructions.length ∧
      (∀ t < base.tempCount, f'.temps t = f.temps t) ∧
      f'.locals = Function.update f.locals (base.localList.length + 1)
          (some (R.ofWord (i + 1))) := by
  have hpre := hg.instructions
  rw [base.forEachTail_instructions ctx₂, base.forEachStep_instructions ctx₂, List.append_assoc,
    List.cons_append, List.cons_append, List.cons_append, List.nil_append] at hpre
  have hstart := hgs.instructions
  rw [base.forEachStart_instructions v] at hstart
  -- one, the sum, its store and the jump back
  have h₁ : step tempPlacement unit (.running (f :: rest) w) =
      some (.running (f.set ctx₂.tempCount (R.ofWord 1) :: rest) w) := by
    refine Eq.trans (step_running (instr_of_segment (i := 0) hpre hfn hpc rfl)) ?_
    rfl
  have h₂ : step tempPlacement unit (.running (f.set ctx₂.tempCount (R.ofWord 1) :: rest) w) =
      some (.running ((f.set ctx₂.tempCount (R.ofWord 1)).set (ctx₂.tempCount + 1)
        (R.ofWord (i + 1)) :: rest) w) := by
    refine Eq.trans (step_running (instr_of_segment (i := 1) hpre hfn (congrArg (· + 1) hpc) rfl))
      ?_
    have hread₁ : (f.set ctx₂.tempCount (R.ofWord 1)).readWord tempPlacement
        (base.tempCount + 1) = some i := by
      rw [Frame.readWord, Frame.read_tempPlacement, Frame.set_temps_of_ne _ _ _ hlt.ne, hi]
      exact R.toWord_ofWord i
    have hread₂ : (f.set ctx₂.tempCount (R.ofWord 1)).readWord tempPlacement ctx₂.tempCount =
        some 1 := by
      rw [Frame.readWord, Frame.read_tempPlacement, Frame.set_temps_self]
      exact R.toWord_ofWord 1
    simp only [execInstr, hread₁, hread₂, BinOp.eval, Option.bind_eq_bind, Option.bind_some,
      Frame.define_tempPlacement, Option.pure_def]
  have h₃ : step tempPlacement unit (.running ((f.set ctx₂.tempCount (R.ofWord 1)).set
      (ctx₂.tempCount + 1) (R.ofWord (i + 1)) :: rest) w) =
      some (.running (((f.set ctx₂.tempCount (R.ofWord 1)).set (ctx₂.tempCount + 1)
        (R.ofWord (i + 1))).store (base.localList.length + 1) (R.ofWord (i + 1)) :: rest) w) :=
    step_store (instr_of_segment (i := 2) hpre hfn (congrArg (· + 2) hpc) rfl)
      (Frame.set_temps_self _ _ _)
  have hjmp : ctx₂.instructions ++ [Instr.constInt ctx₂.tempCount 1 (some .i64),
      .bin (ctx₂.tempCount + 1) .add (base.tempCount + 1) ctx₂.tempCount,
      .storeLocal (base.localList.length + 1) (some .i64) (ctx₂.tempCount + 1)] ++
      [Instr.jmp (base.labelAt .foreach 0)] <+: final.instructions := by
    refine List.IsPrefix.trans ?_ hpre
    simp
  have hlabel : base.instructions ++ [Instr.storeLocal base.localList.length v.type v.temp,
      .constInt base.tempCount 0 (some .i64),
      .storeLocal (base.localList.length + 1) (some .i64) base.tempCount] ++
      [Instr.label (base.labelAt .foreach 0)] <+: final.instructions := by
    simpa using hstart
  have h₄ : step tempPlacement unit (.running (((f.set ctx₂.tempCount (R.ofWord 1)).set
      (ctx₂.tempCount + 1) (R.ofWord (i + 1))).store (base.localList.length + 1)
      (R.ofWord (i + 1)) :: rest) w) = _ :=
    step_jmp hp hjmp hlabel hfn (by simp [Frame.store, Frame.next, hpc])
  refine ⟨_, .tail (.tail (.tail (.single h₁) h₂) h₃) h₄, rfl, ?_, ?_, rfl⟩
  · rw [base.forEachStart_instructions v]
    simp [Frame.goto]
  · intro t ht
    have h₁ : t ≠ ctx₂.tempCount + 1 := by omega
    have h₂ : t ≠ ctx₂.tempCount := by omega
    exact (Frame.set_temps_of_ne _ _ _ h₁).trans (Frame.set_temps_of_ne _ _ _ h₂)

/-- The slots of a `para cada` in every later context. -/
theorem forEach_slots {ctx : LoweringContext} (h : (base.forEachTest v).Grows ctx) :
    ctx.localList[base.localList.length]? = some (base.eachLocal v) ∧
      ctx.localList[base.localList.length + 1]? = some base.iterLocal :=
  ⟨getElem?_extend h.localList (by simp [base.forEachTest_localList v]),
    getElem?_extend h.localList (by simp [base.forEachTest_localList v])⟩

end ForEach

theorem simForEach_succ {n : ℕ} (ihB : SimBlock R Γ unit n) (ih : SimForEach R Γ unit n) :
    SimForEach R Γ unit (n + 1) := by
  intro base ctx₁ ctx₂ final binding v loc body env type iterable i out f rest w w' hens hbody
    hbinding hnames hvtype he hg htype hp hfn hpc henv hiter hindex
  simp only [evalForEach, Option.bind_eq_bind, Option.bind_eq_some_iff] at he
  obtain ⟨⟨len, w₁⟩, hlen, x, hx, he⟩ := he
  have hg₂ : ctx₂.Grows final := ((LoweringContext.Grows.refl ctx₂).forEachTail base).trans hg
  have hgi : (base.forEachItem ctx₁ v loc).Grows final := hbody.grows.trans hg₂
  have hg₁ : ctx₁.Grows final :=
    ((LoweringContext.Grows.refl ctx₁).forEachItem base v loc).trans hgi
  have hgt : (base.forEachTest v).Grows final := hens.grows.trans hg₁
  have hgc : (base.forEachCond v).Grows final :=
    (((LoweringContext.Grows.refl _).withInstr _).withInstr _).trans hgt
  have hgs : (base.forEachStart v).Grows final :=
    (LoweringContext.Grows.forEachCond base v).trans hgc
  have hgb : base.Grows final := ((LoweringContext.Grows.refl base).forEachStart v).trans hgs
  have hbr : (base.forEachCond v).instructions ++
      [Instr.br (base.tempCount + 4) (base.labelAt .foreachBody 1) (base.labelAt .foreachEnd 2)] <+:
      final.instructions := (List.prefix_append _ _).trans hgt.instructions
  obtain ⟨f₁, hreach₁, hfn₁, hpc₁, htemps₁, hlocals₁, hi₁, hv₁, hcond₁⟩ :=
    simForEachTest unit rest hgc hfn hpc hiter hindex hvtype hlen hx
  have hfn₁' := hfn₁.trans hfn
  split at he
  · rename_i hlt
    rw [hlt] at hcond₁
    -- into the body: the item is read and stored
    have hbranch : Reaches (step tempPlacement unit) (.running (f₁ :: rest) w₁)
        (.running (f₁.goto ctx₁.instructions.length :: rest) w₁) := by
      rw [hens.instructions]
      exact reaches_br hp hbr (if_pos (by decide)) hgt.instructions hfn₁' hpc₁ hcond₁
    obtain ⟨⟨item, w₂⟩, hitem, he⟩ := Option.bind_eq_some_iff.mp he
    obtain ⟨⟨out₁, w₃⟩, heb, he⟩ := Option.bind_eq_some_iff.mp he
    have hloc := hg₁.locals hbinding hens.spec.1
    rw [← hlocals₁] at henv
    obtain ⟨hreach₂, hf₂⟩ := simForEachItem rest (f := f₁.goto ctx₁.instructions.length)
      hgi hp hfn₁'
      rfl hbinding hloc hens.spec.2 hi₁ hv₁ hvtype hitem henv
    have hreach := hreach₁.trans (hbranch.trans hreach₂)
    have hend := ihB rest hbody hnames heb hg₂ htype hf₂
    cases out₁ with
    | returned u =>
        cases he
        obtain ⟨f₃, hreach₃, hret⟩ := hend
        exact ⟨f₃, hreach.trans hreach₃, hret⟩
    | normal env₁ =>
        obtain ⟨f₃, hrun₃, henv₃⟩ := hend
        have hcount : (base.forEachItem ctx₁ v loc).tempCount = base.tempCount + 6 := by
          simp [LoweringContext.forEachItem, hens.tempCount]
        have hle := hbody.grows.tempCount
        -- the item is stored, so only the slot of the binding has changed
        have hgti : (base.forEachTest v).Grows (base.forEachItem ctx₁ v loc) :=
          hens.grows.forEachItem base v loc
        have hlocals₂ : ∀ {s : ℕ} {l : Local}, (base.forEachTest v).localList[s]? = some l →
            IsHiddenName l.name → f₃.locals s = f.locals s := by
          intro s l hs hname
          have hne := hp.slots.slot_ne hloc hbinding (getElem?_extend hgt.localList hs) hname
          rw [hrun₃.hidden (getElem?_extend hgti.localList hs) hname, ← hlocals₁]
          exact Function.update_of_ne hne ..
        have htemps₃ : ∀ t < base.tempCount + 5, f₃.temps t = f₁.temps t := by
          intro t ht
          rw [hrun₃.temps t (by omega)]
          exact Frame.set_temps_of_ne _ _ _ (by omega)
        obtain ⟨f₄, hreach₄, hfn₄, hpc₄, htemps₄, hlocals₄⟩ := simForEachTail rest w₃ hg hgs hp
          (hrun₃.fn.trans hf₂.fn) hrun₃.pc (by omega) ((htemps₃ _ (by omega)).trans hi₁)
        obtain ⟨heach, hiterSlot⟩ := forEach_slots (.refl (base.forEachTest v))
        refine Ends.before ((hreach.trans hrun₃.reaches).trans hreach₄)
          (hfn₄.trans (hrun₃.fn.trans (hf₂.fn.trans hfn.symm))) ?_ ?_
          (ih rest hens hbody hbinding hnames hvtype he hg htype hp
            (hfn₄.trans (hrun₃.fn.trans hf₂.fn)) hpc₄ ?_ ?_ ?_)
        · intro t ht
          rw [htemps₄ t ht, htemps₃ t (by omega), htemps₁ t ht]
        · intro s l hs hname
          have hlt := (List.getElem?_eq_some_iff.mp hs).1
          rw [hlocals₄, Function.update_of_ne (by omega)]
          exact hlocals₂
            (getElem?_extend ((LoweringContext.Grows.refl base).forEachTest v).localList hs) hname
        · rw [hlocals₄]
          exact henv₃.update_hidden hp.slots (getElem?_extend hgt.localList hiterSlot) ⟨_, .inr rfl⟩
        · rw [hlocals₄, Function.update_of_ne (by omega)]
          exact (hlocals₂ heach ⟨_, .inl rfl⟩).trans hiter
        · rw [hlocals₄, Function.update_self]
  · rename_i hlt
    rw [Bool.not_eq_true] at hlt
    rw [hlt] at hcond₁
    cases he
    have hbranch : Reaches (step tempPlacement unit) (.running (f₁ :: rest) w₁)
        (.running (f₁.goto (base.forEachTail ctx₂).instructions.length :: rest) w₁) :=
      reaches_br hp hbr (if_neg (by decide)) hg.instructions hfn₁' hpc₁ hcond₁
    refine ⟨_, ⟨hreach₁.trans hbranch, hfn₁, rfl, htemps₁, ?_⟩, ?_⟩
    · intro s l _ _
      exact congrFun hlocals₁ s
    · rw [← hlocals₁] at henv
      exact henv

/-- A `para cada`: its iterable, the two hidden slots, and the iterations from the first on. -/
theorem simForEachStmt {n : ℕ} (hΓ : Linked Γ unit) (ihE : SimExpr R Γ unit n)
    (ihF : SimForEach R Γ unit n) {ctx base ctx₁ ctx₂ final : LoweringContext} {binding : String}
    {iterable : Expr} {v : Operand} {loc : Local} {body : List Stmt} {env : Env R} {type : Ty}
    {out : Outcome R} {f : Frame R ℕ} {rest : List (Frame R ℕ)} {w w' : R.World}
    (hv : ExprLowers Γ.table ctx iterable v base)
    (hens : EnsuresLocal (base.forEachTest v) binding (bindingType v.type) loc ctx₁)
    (hbody : StmtsLower Γ.table (base.forEachItem ctx₁ v loc) body ctx₂)
    (hnames : ∀ x ∈ (Stmt.forEach binding iterable body).assigned, ¬ IsHiddenName x)
    (he : evalStmt Γ (n + 1) type env (.forEach binding iterable body) w = some (out, w'))
    (hg : (base.forEachTail ctx₂).Grows final) (htype : final.returnType = some type)
    (hf : Located unit final ctx env f) :
    Ends unit rest ctx (base.forEachTail ctx₂) final f w w' out := by
  simp only [evalStmt, hΓ.flat, enterScope, Option.bind_eq_bind, Option.bind_eq_some_iff,
    Option.pure_def, Option.some.injEq, Prod.mk.injEq] at he
  obtain ⟨⟨tv, w₁⟩, hev, ⟨out₁, w₂⟩, hef, hout, rfl⟩ := he
  have hout : out₁ = out := by
    cases out₁ <;> exact hout
  subst hout
  have hgt : (base.forEachTest v).Grows final := hens.grows.trans
    ((((LoweringContext.Grows.refl ctx₁).forEachItem base v loc).trans
      hbody.grows).forEachTail base |>.trans hg)
  have hgs : (base.forEachStart v).Grows final :=
    ((LoweringContext.Grows.forEachCond base v).withInstr _ |>.withInstr _).trans hgt
  have hgb : base.Grows final := ((LoweringContext.Grows.refl base).forEachStart v).trans hgs
  obtain ⟨f₁, hrun, hval, hty⟩ := ihE rest hv hev hgb hf
  have hf₁ := hrun.located hf
  obtain ⟨f₂, hreach, hfn, hpc, htemps, hlocals⟩ :=
    simForEachStart unit rest w₁ hgs hf₁.fn hf₁.pc hval
  obtain ⟨heach, hiterSlot⟩ := forEach_slots hgt
  refine Ends.after hrun.toStmtRun hv.grows (Ends.before hreach hfn htemps ?_
    (ihF rest hens hbody (hnames binding (by simp [Stmt.assigned]))
      (fun x hx => hnames x (by simp [Stmt.assigned, hx])) hty hef hg htype hf.placed
      (hfn.trans hf₁.fn) hpc ?_ ?_ ?_))
  -- the two hidden slots lie behind every slot of the text
  · intro s l hs _
    have hlt := (List.getElem?_eq_some_iff.mp hs).1
    rw [hlocals, Function.update_of_ne (by omega), Function.update_of_ne (by omega)]
  · rw [hlocals]
    exact (hf₁.env.update_hidden hf.placed.slots heach ⟨_, .inl rfl⟩).update_hidden
      hf.placed.slots hiterSlot ⟨_, .inr rfl⟩
  · rw [hlocals, Function.update_of_ne (by omega), Function.update_self]
  · rw [hlocals, Function.update_self]

theorem simStmt_succ {n : ℕ} (hΓ : Linked Γ unit) (ihE : SimExpr R Γ unit n)
    (ihB : SimBlock R Γ unit n) (ihS : SimStmt R Γ unit n) (ihF : SimForEach R Γ unit n) :
    SimStmt R Γ unit (n + 1) := by
  intro ctx ctx' final s env type out f rest w w' hl hnames he hg htype hf
  cases hl with
  | @define _ ctx₁ ctx₂ name e v loc hv hens =>
      simp only [evalStmt, Option.bind_eq_bind, Option.bind_eq_some_iff, Option.pure_def,
        Option.some.injEq, Prod.mk.injEq] at he
      obtain ⟨⟨tv, w₁⟩, hev, rfl, rfl⟩ := he
      have hname := hnames name (by simp [Stmt.assigned])
      have hg₂ : ctx₂.Grows final := ((LoweringContext.Grows.refl ctx₂).withInstr _).trans hg
      exact simAssign ihE rest hv hev hens.instructions hg (hens.grows.trans hg₂) hname
        (hg₂.locals hname hens.spec.1) hens.spec.2 hf
  | @assign _ ctx₁ name e v loc hloc hv hty =>
      simp only [evalStmt, hΓ.flat, Option.bind_eq_bind, Option.bind_eq_some_iff] at he
      obtain ⟨⟨tv, w₁⟩, hev, he⟩ := he
      simp only [reduceCtorEq, false_and, if_false, Option.pure_def, Option.some.injEq,
        Prod.mk.injEq] at he
      obtain ⟨rfl, rfl⟩ := he
      have hname := hnames name (by simp [Stmt.assigned])
      have hg₁ : ctx₁.Grows final := ((LoweringContext.Grows.refl ctx₁).withInstr _).trans hg
      exact simAssign ihE rest hv hev rfl hg hg₁ hname
        ((hv.grows.trans hg₁).locals hname hloc) hty hf
  | @«show» _ ctx₁ e v hv =>
      simp only [evalStmt, Option.bind_eq_bind, Option.bind_eq_some_iff, Option.pure_def,
        Option.some.injEq, Prod.mk.injEq] at he
      obtain ⟨⟨tv, w₁⟩, hev, ⟨u, w₂⟩, hprint, rfl, rfl⟩ := he
      have hg₁ : ctx₁.Grows final := ((LoweringContext.Grows.refl ctx₁).withInstr _).trans hg
      obtain ⟨f₁, hrun, hval, hty⟩ := ihE rest hv hev hg₁ hf
      have hinst := instr_of_code hg.instructions (hrun.fn.trans hf.fn) hrun.pc
      have hstep : step tempPlacement unit (.running (f₁ :: rest) w₁) =
          some (.running (f₁.next :: rest) w₂) := by
        rw [step_running hinst, hty]
        simp [execInstr, hval, hprint]
      -- printing leaves the locals, so the variables keep their values
      refine ⟨f₁.next, ⟨hrun.reaches.tail hstep, hrun.fn, ?_, hrun.temps, ?_⟩, ?_⟩
      · simp [Frame.next, hrun.pc]
      · intro s l _ _
        exact congrFun hrun.locals s
      · have henv := hf.env
        rw [← hrun.locals] at henv
        exact henv
  | @exprStmt _ _ e v hv =>
      simp only [evalStmt, Option.bind_eq_bind, Option.bind_eq_some_iff, Option.pure_def,
        Option.some.injEq, Prod.mk.injEq] at he
      obtain ⟨⟨tv, w₁⟩, hev, rfl, rfl⟩ := he
      obtain ⟨f₁, hrun, _, _⟩ := ihE rest hv hev hg hf
      exact ⟨f₁, hrun.toStmtRun, (hrun.located hf).env⟩
  | @ret _ ctx₁ e v hv hty =>
      simp only [evalStmt, Option.bind_eq_bind, Option.bind_eq_some_iff, Option.pure_def,
        Option.some.injEq, Prod.mk.injEq] at he
      obtain ⟨⟨tv, w₁⟩, hev, rfl, rfl⟩ := he
      have hg₁ : ctx₁.Grows final := ((LoweringContext.Grows.refl ctx₁).withInstr _).trans hg
      obtain ⟨f₁, hrun, hval, htv⟩ := ihE rest hv hev hg₁ hf
      have hinst := instr_of_code hg.instructions (hrun.fn.trans hf.fn) hrun.pc
      exact ⟨f₁, hrun.reaches, ⟨_, _, hinst, hval⟩, by rw [hg₁.returnType, ← hty, htv]⟩
  | @retDefault _ ctx₁ v hv hty =>
      simp only [evalStmt, Option.some.injEq, Prod.mk.injEq] at he
      obtain ⟨rfl, rfl⟩ := he
      have hg₁ : ctx₁.Grows final := ((LoweringContext.Grows.refl ctx₁).withInstr _).trans hg
      have hret : ctx.returnType = some type := by
        rw [← htype, (hv.facts.chain.grows.trans hg₁).returnType]
      rw [hret] at hv
      obtain ⟨f₁, hrun, hval, htv⟩ := simDefault hΓ.ranked rest w hv hg₁ hf
      have hinst := instr_of_code hg.instructions (hrun.fn.trans hf.fn) hrun.pc
      exact ⟨f₁, hrun.reaches, ⟨_, _, hinst, hval⟩, by rw [htype, htv]⟩
  | ifElse ht _ hthen helse => exact simIf ihE ihB ht hthen helse hnames he hg htype hf
  | «while» ht hty hbody => exact simWhile ihE ihB ihS ht hty hbody hnames he hg htype hf
  | forEach hv hens hbody => exact simForEachStmt hΓ ihE ihF hv hens hbody hnames he hg htype hf

/-! ## Activations -/

@[simp] theorem endsInRet_append (code : List Instr) (inst : Instr) :
    endsInRet (code ++ [inst]) = inst.isRet := by
  simp [endsInRet]

theorem isRet_of_tempDefs {inst : Instr} {t : ℕ} (h : tempDefs inst = [t]) :
    inst.isRet = false := by
  cases inst <;> first | rfl | cases h

/-- The code of an expression does not end in a `ret`. -/
theorem ExprFacts.endsInRet {ctx ctx' : LoweringContext} {v : Operand} (h : ExprFacts ctx ctx' v) :
    endsInRet ctx'.instructions = false := by
  cases hc : h.chain with
  | refl =>
      have := h.temp_ge
      have := h.temp_lt
      omega
  | step _ hs => simp [isRet_of_tempDefs hs.defs]

/-- Only a `retornar` ends in a `ret`. -/
theorem StmtLowers.eq_ret {table : FunctionTable} {ctx ctx' : LoweringContext} {s : Stmt}
    (h : StmtLowers table ctx s ctx') (hret : endsInRet ctx'.instructions = true) :
    ∃ e, s = .ret e := by
  cases h with
  | exprStmt he =>
      rw [he.facts.endsInRet] at hret
      cases hret
  | ret => exact ⟨_, rfl⟩
  | retDefault => exact ⟨_, rfl⟩
  | _ =>
      simp only [LoweringContext.ifTail, LoweringContext.whileTail, LoweringContext.forEachTail,
        LoweringContext.forEachStep,
        LoweringContext.withInstr_instructions, endsInRet_append, Instr.isRet,
        Bool.false_eq_true] at hret

theorem StmtsLower.last_eq_ret {table : FunctionTable} {body : List Stmt} :
    ∀ {ctx ctx' : LoweringContext}, StmtsLower table ctx body ctx' →
      endsInRet ctx'.instructions = true →
      (body = [] ∧ ctx' = ctx) ∨ ∃ init e, body = init ++ [Stmt.ret e] := by
  induction body with
  | nil =>
      intro ctx ctx' h _
      cases h
      exact .inl ⟨rfl, rfl⟩
  | cons s body ih =>
      intro ctx ctx' h hret
      cases h with
      | cons hs hbody =>
          rcases ih hbody hret with ⟨rfl, rfl⟩ | ⟨init, e, rfl⟩
          · obtain ⟨e, rfl⟩ := hs.eq_ret hret
            exact .inr ⟨[], e, rfl⟩
          · exact .inr ⟨s :: init, e, rfl⟩

/-- A body that ends in a `retornar` does not end normally. -/
theorem evalStmts_ret_ne_normal {e : Option Expr} {type : Ty} {init : List Stmt} :
    ∀ {n : ℕ} {env env' : Env R} {w w' : R.World},
      evalStmts Γ n type env (init ++ [Stmt.ret e]) w ≠ some (.normal env', w') := by
  induction init with
  | nil =>
      intro n env env' w w' h
      cases n with
      | zero => cases h
      | succ n =>
          simp only [List.nil_append, evalStmts, Option.bind_eq_bind, Option.bind_eq_some_iff] at h
          obtain ⟨⟨out, w₁⟩, hs, h⟩ := h
          cases n with
          | zero => cases hs
          | succ n =>
              cases e with
              | none =>
                  simp only [evalStmt] at hs
                  cases hs
                  cases h
              | some e =>
                  simp only [evalStmt, Option.bind_eq_bind, Option.bind_eq_some_iff,
                    Option.pure_def, Option.some.injEq, Prod.mk.injEq] at hs
                  obtain ⟨_, _, rfl, rfl⟩ := hs
                  cases h
  | cons s init ih =>
      intro n env env' w w' h
      cases n with
      | zero => cases h
      | succ n =>
          simp only [List.cons_append, evalStmts, Option.bind_eq_bind,
            Option.bind_eq_some_iff] at h
          obtain ⟨⟨out, w₁⟩, hs, h⟩ := h
          cases out with
          | normal env₁ => exact ih h
          | returned v => cases h

/-- A body from the start of its activation. -/
theorem simBody {n : ℕ} (hΓ : Linked Γ unit) (ih : SimStmts R Γ unit n)
    {start final : LoweringContext} {body : List Stmt} {env : Env R} {type : Ty}
    {tv : TypedValue R} {f : Frame R ℕ} (rest : List (Frame R ℕ)) {w w' : R.World}
    (hl : BodyLowers Γ.table start body final) (hnil : start.instructions = [])
    (hnames : ∀ x ∈ assignedNames body, ¬ IsHiddenName x) (htype : start.returnType = some type)
    (he : callFunction Γ (n + 1) type env body w = some (tv, w'))
    (hf : Located unit final start env f) :
    ∃ f', Reaches (step tempPlacement unit) (.running (f :: rest) w) (.running (f' :: rest) w') ∧
      Returning f' tv (some type) := by
  simp only [callFunction, Option.bind_eq_bind, Option.bind_eq_some_iff] at he
  obtain ⟨⟨out, w₁⟩, hbody, he⟩ := he
  cases hl with
  | returns hs hret =>
      have hfinal : final.returnType = some type := hs.grows.returnType.trans htype
      have hend := ih rest hs hnames hbody (.refl _) hfinal hf
      cases out with
      | normal env' =>
          rcases hs.last_eq_ret hret with ⟨rfl, rfl⟩ | ⟨init, e, rfl⟩
          · rw [hnil] at hret
            cases hret
          · exact absurd hbody evalStmts_ret_ne_normal
      | returned v =>
          cases he
          rwa [Ends, hfinal] at hend
  | @fallsOff ctx ctx₁ v hs hret hv =>
      have hg₁ : ctx₁.Grows (ctx₁.withInstr (.ret v.temp v.type)) :=
        (LoweringContext.Grows.refl ctx₁).withInstr _
      have hctx : ctx.returnType = some type := hs.grows.returnType.trans htype
      have hg : ctx.Grows (ctx₁.withInstr (.ret v.temp v.type)) := hv.facts.chain.grows.trans hg₁
      have hfinal := hg.returnType.trans hctx
      have hend := ih rest hs hnames hbody hg hfinal hf
      cases out with
      | normal env' =>
          cases he
          obtain ⟨f₁, hrun, henv⟩ := hend
          have hf₁ := hrun.located hf.fn hf.placed henv
          rw [hctx] at hv
          obtain ⟨f₂, hrun₂, hval, htv⟩ := simDefault hΓ.ranked rest w₁ hv hg₁ hf₁
          have hpre : ctx₁.instructions ++ [Instr.ret v.temp v.type] <+:
              (ctx₁.withInstr (.ret v.temp v.type)).instructions := List.prefix_rfl
          have hinst := instr_of_code hpre (hrun₂.fn.trans hf₁.fn) hrun₂.pc
          exact ⟨f₂, hrun.reaches.trans hrun₂.reaches, ⟨_, _, hinst, hval⟩, by rw [htv]⟩
      | returned u =>
          cases he
          rwa [Ends, hfinal] at hend

end GatoCore.Native
