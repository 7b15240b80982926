import GatoCore.Engine.Video
import Mathlib.Data.List.Induction
import Mathlib.Data.List.Infix

/-!
# Keys that stay down

Source: `js_pt_video_apply_key`, `js_pt_video_pump_events` and `js_pt_video_entrada` of
`quickjs-libc.c`.

A flag is set by what a key looks up to when it goes down and cleared by what one looks up to when
it goes up. The two may differ, since the modifiers may have changed in between.
-/

namespace GatoCore.Engine

/-! ## Flags -/

inductive InputFlag where
  | w
  | a
  | s
  | d
  | left
  | right
  | up
  | down
  | q
  | e
  | tab
  | m
  | r
  | space
  | enter
  | x
deriving DecidableEq

namespace VideoInput

def flag (input : VideoInput) : InputFlag → Bool
  | .w => input.w
  | .a => input.a
  | .s => input.s
  | .d => input.d
  | .left => input.left
  | .right => input.right
  | .up => input.up
  | .down => input.down
  | .q => input.q
  | .e => input.e
  | .tab => input.tab
  | .m => input.m
  | .r => input.r
  | .space => input.space
  | .enter => input.enter
  | .x => input.x

def setFlag (input : VideoInput) (f : InputFlag) (value : Bool) : VideoInput :=
  match f with
  | .w => { input with w := value }
  | .a => { input with a := value }
  | .s => { input with s := value }
  | .d => { input with d := value }
  | .left => { input with left := value }
  | .right => { input with right := value }
  | .up => { input with up := value }
  | .down => { input with down := value }
  | .q => { input with q := value }
  | .e => { input with e := value }
  | .tab => { input with tab := value }
  | .m => { input with m := value }
  | .r => { input with r := value }
  | .space => { input with space := value }
  | .enter => { input with enter := value }
  | .x => { input with x := value }

theorem flag_setFlag (input : VideoInput) (f g : InputFlag) (value : Bool) :
    (input.setFlag g value).flag f = if f = g then value else input.flag f := by
  cases g <;> cases f <;> rfl

@[simp] theorem flag_clear (f : InputFlag) : VideoInput.clear.flag f = false := by
  cases f <;> rfl

end VideoInput

/-- The flag of the first character of a text. -/
def charFlag : Char → Option InputFlag
  | 'w' => some .w
  | 'a' => some .a
  | 's' => some .s
  | 'd' => some .d
  | 'q' => some .q
  | 'e' => some .e
  | 'm' => some .m
  | 'r' => some .r
  | 'x' => some .x
  | ' ' => some .space
  | '\r' | '\n' => some .enter
  | _ => none

def Keysym.flag : Keysym → Option InputFlag
  | .left => some .left
  | .right => some .right
  | .up => some .up
  | .down => some .down
  | .tab => some .tab
  | .ret | .kpEnter => some .enter
  | .other _ => none

/-- What `XLookupString` says of a key. -/
structure Lookup where
  text : List Char
  keysym : Keysym

/-- The flag a lookup is about. -/
def Lookup.flag (l : Lookup) : Option InputFlag :=
  match l.text with
  | ch :: _ => charFlag (if 'A' ≤ ch ∧ ch ≤ 'Z' then ch.toLower else ch)
  | [] => l.keysym.flag

theorem jsPtVideoApplyKey_eq (input : VideoInput) (key : Char) (value : Bool) :
    jsPtVideoApplyKey input key value =
      ((charFlag key).map fun f => input.setFlag f value).getD input := by
  unfold jsPtVideoApplyKey charFlag
  split <;> simp_all [VideoInput.setFlag]

/-- Setting and clearing go by the same flag. -/
theorem applyLookup_eq (input : VideoInput) (l : Lookup) (value : Bool) :
    applyLookup input l.text l.keysym value =
      (l.flag.map fun f => input.setFlag f value).getD input := by
  obtain ⟨text, keysym⟩ := l
  cases text with
  | cons ch text => exact jsPtVideoApplyKey_eq input _ value
  | nil => cases keysym <;> rfl

theorem flag_applyLookup (input : VideoInput) (l : Lookup) (value : Bool) (f : InputFlag) :
    (applyLookup input l.text l.keysym value).flag f =
      if l.flag = some f then value else input.flag f := by
  rw [applyLookup_eq]
  cases l.flag with
  | none => rfl
  | some g =>
      rw [Option.map_some, Option.getD_some, VideoInput.flag_setFlag]
      simp only [Option.some.injEq, eq_comm]

/-! ## Histories -/

/-- What happens to the physical keys, with what each event looks up to; `focusOut` is the loss of
the focus. -/
inductive KeyEvent (K : Type) where
  | press (key : K) (lookup : Lookup)
  | release (key : K) (lookup : Lookup)
  | focusOut

variable {K : Type}

namespace KeyEvent

/-- The event X11 reports. -/
def toXEvent : KeyEvent K → XEvent
  | press _ l => .keyPress l.text l.keysym
  | release _ l => .keyRelease l.text l.keysym
  | focusOut => .focusOut

def key : KeyEvent K → Option K
  | press k _ | release k _ => some k
  | focusOut => none

end KeyEvent

/-- A window that was opened, before any event. -/
structure Opened (s : VideoState) : Prop where
  active : s.active = true
  display : s.display.isSome = true
  input : s.input = .clear

/-- What `video_entrada` reports when these events have happened. -/
def inputAfter (s : VideoState) (history : List (KeyEvent K)) : VideoInput :=
  (jsPtVideoEntrada s (history.map KeyEvent.toXEvent)).2.2

section History

variable [DecidableEq K]

/-- The flag a key that is down has set with its last press. -/
def downFlag (k : K) (history : List (KeyEvent K)) : Option InputFlag :=
  match (history.filter fun e => e.key = some k).getLast? with
  | some (.press _ l) => l.flag
  | _ => none

/-- A flag is on only while some key is down whose last press set it. -/
def NoStuck (s : VideoState) (history : List (KeyEvent K)) : Prop :=
  ∀ f, (inputAfter s history).flag f = true → ∃ k, downFlag k history = some f

/-- A key that is down and has set a flag looks up to it again, or the flag is off, or another key
that is down has set it too. -/
def Matches (s : VideoState) (history : List (KeyEvent K)) : KeyEvent K → Prop
  | .press k l | .release k l => ∀ f, downFlag k history = some f →
      l.flag = some f ∨ (inputAfter s history).flag f = false ∨
        ∃ k', k' ≠ k ∧ downFlag k' history = some f
  | .focusOut => True

end History

/-! ## Pumping -/

theorem jsPtVideoEntrada_eq {s : VideoState} (hactive : s.active = true)
    (hdisplay : s.display.isSome = true) (events : List XEvent) :
    (jsPtVideoEntrada s events).1 = events.foldl VideoState.handleEvent s := by
  obtain ⟨d, hd⟩ := Option.isSome_iff_exists.mp hdisplay
  rw [jsPtVideoEntrada, if_pos hactive, jsPtVideoPumpEvents, hactive, hd]

theorem flag_inputAfter {s : VideoState} (h : Opened s) (history : List (KeyEvent K))
    (f : InputFlag) :
    (inputAfter s history).flag f =
      ((history.map KeyEvent.toXEvent).foldl VideoState.handleEvent s).input.flag f := by
  have heq := jsPtVideoEntrada_eq h.active h.display (history.map KeyEvent.toXEvent)
  have hflag : ∀ (input : VideoInput) (b : Bool), { input with quit := b }.flag f =
      input.flag f := by
    intro input b
    cases f <;> rfl
  rw [inputAfter, ← heq]
  exact hflag _ _

theorem inputAfter_nil {s : VideoState} (h : Opened s) (f : InputFlag) :
    (inputAfter s ([] : List (KeyEvent K))).flag f = false := by
  rw [flag_inputAfter h]
  show s.input.flag f = false
  rw [h.input, VideoInput.flag_clear]

/-- The flags after one more event. -/
theorem inputAfter_concat {s : VideoState} (h : Opened s) (history : List (KeyEvent K))
    (e : KeyEvent K) (f : InputFlag) :
    (inputAfter s (history ++ [e])).flag f =
      match e with
      | .press _ l => if l.flag = some f then true else (inputAfter s history).flag f
      | .release _ l => if l.flag = some f then false else (inputAfter s history).flag f
      | .focusOut => false := by
  rw [flag_inputAfter h, flag_inputAfter h, List.map_append, List.foldl_append]
  cases e with
  | press k l => exact flag_applyLookup _ l true f
  | release k l => exact flag_applyLookup _ l false f
  | focusOut => exact VideoInput.flag_clear f

/-! ## One event -/

section Step

variable [DecidableEq K] {s : VideoState} {history : List (KeyEvent K)}

theorem downFlag_concat (k : K) (history : List (KeyEvent K)) (e : KeyEvent K) :
    downFlag k (history ++ [e]) =
      if e.key = some k then
        (match e with
          | .press _ l => l.flag
          | _ => none)
      else downFlag k history := by
  rw [downFlag, List.filter_append, List.filter_singleton]
  by_cases hk : e.key = some k
  · rw [if_pos hk, decide_eq_true hk, cond_true, List.getLast?_concat]
    cases e <;> rfl
  · rw [if_neg hk, decide_eq_false hk, cond_false, List.append_nil]
    rfl

theorem downFlag_concat_other {k k' : K} (h : k' ≠ k) {e : KeyEvent K} (he : e.key = some k) :
    downFlag k' (history ++ [e]) = downFlag k' history := by
  rw [downFlag_concat, he, if_neg fun heq => h (Option.some.inj heq).symm]

/-- A flag that was on and that the event does not touch keeps its key exactly when the event
matches. -/
theorem kept_iff (hno : NoStuck s history) {k : K} {l : Lookup} {e : KeyEvent K}
    (he : e.key = some k) (hown : ∀ f, l.flag ≠ some f → downFlag k (history ++ [e]) ≠ some f) :
    (∀ f, l.flag ≠ some f → (inputAfter s history).flag f = true →
      ∃ k', downFlag k' (history ++ [e]) = some f) ↔
    ∀ f, downFlag k history = some f →
      l.flag = some f ∨ (inputAfter s history).flag f = false ∨
        ∃ k', k' ≠ k ∧ downFlag k' history = some f := by
  constructor
  · intro hkept f hdown
    by_cases hflag : l.flag = some f
    · exact .inl hflag
    · cases hon : (inputAfter s history).flag f with
      | false => exact .inr (.inl rfl)
      | true =>
          obtain ⟨k', hk'⟩ := hkept f hflag hon
          have hne : k' ≠ k := by
            rintro rfl
            exact hown f hflag hk'
          rw [downFlag_concat_other hne he] at hk'
          exact .inr (.inr ⟨k', hne, hk'⟩)
  · intro hmatch f hflag hon
    obtain ⟨k', hk'⟩ := hno f hon
    by_cases hne : k' = k
    · subst hne
      rcases hmatch f hk' with heq | hoff | ⟨k'', hne', hk''⟩
      · exact (hflag heq).elim
      · rw [hon] at hoff
        cases hoff
      · exact ⟨k'', by rw [downFlag_concat_other hne' he, hk'']⟩
    · exact ⟨k', by rw [downFlag_concat_other hne he, hk']⟩

/-- One event keeps the flags right exactly when it matches. -/
theorem noStuck_concat_iff (hs : Opened s) (hno : NoStuck s history) (e : KeyEvent K) :
    NoStuck s (history ++ [e]) ↔ Matches s history e := by
  cases e with
  | press k l =>
      have hself : downFlag k (history ++ [.press k l]) = l.flag := by
        rw [downFlag_concat]
        exact if_pos rfl
      refine Iff.trans ?_ (kept_iff hno rfl fun f hf => by rwa [hself])
      constructor
      · intro h f hflag hon
        apply h f
        rw [inputAfter_concat hs]
        exact (if_neg hflag).trans hon
      · intro h f hon
        rw [inputAfter_concat hs] at hon
        by_cases hflag : l.flag = some f
        · exact ⟨k, hself.trans hflag⟩
        · exact h f hflag ((if_neg hflag).symm.trans hon)
  | release k l =>
      have hself : downFlag k (history ++ [.release k l]) = none := by
        rw [downFlag_concat]
        exact if_pos rfl
      refine Iff.trans ?_ (kept_iff hno rfl fun f _ => by rw [hself]; exact nofun)
      constructor
      · intro h f hflag hon
        apply h f
        rw [inputAfter_concat hs]
        exact (if_neg hflag).trans hon
      · intro h f hon
        rw [inputAfter_concat hs] at hon
        by_cases hflag : l.flag = some f
        · exact nomatch (if_pos hflag).symm.trans hon
        · exact h f hflag ((if_neg hflag).symm.trans hon)
  | focusOut =>
      refine iff_of_true (fun f hon => ?_) trivial
      rw [inputAfter_concat hs] at hon
      cases hon

end Step

/-! ## Runs -/

/-- No key is stuck in any state of a run exactly when every event of the run matches. -/
theorem no_stuck_keys_iff [DecidableEq K] (s : VideoState) (hs : Opened s)
    (history : List (KeyEvent K)) :
    (∀ pre, pre <+: history → NoStuck s pre) ↔
      ∀ pre e, pre ++ [e] <+: history → Matches s pre e := by
  constructor
  · intro h pre e hpre
    have hbefore := h pre ((List.prefix_append pre [e]).trans hpre)
    exact (noStuck_concat_iff hs hbefore e).mp (h _ hpre)
  · intro h pre
    induction pre using List.reverseRecOn with
    | nil =>
        intro _ f hon
        rw [inputAfter_nil hs] at hon
        cases hon
    | append_singleton pre e ih =>
        intro hpre
        have hbefore := ih ((List.prefix_append pre [e]).trans hpre)
        exact (noStuck_concat_iff hs hbefore e).mpr (h pre e hpre)

/-- A window with nothing in it. -/
def bareWindow : VideoState := { VideoState.start with active := true, display := some 0 }

/-- `w` goes down, Control goes down, `w` goes up. -/
def controlWhileDown : List (KeyEvent ℕ) :=
  [.press 25 ⟨['w'], .other 0x77⟩, .press 37 ⟨[], .other 0xffe3⟩,
    .release 25 ⟨['\x17'], .other 0x77⟩]

theorem no_stuck_keys_shift :
    (∀ pre, pre <+: [.press 25 ⟨['w'], .other 0x77⟩, .release 25 ⟨['W'], .other 0x57⟩] →
      NoStuck bareWindow pre) ↔
      ∀ pre (e : KeyEvent ℕ),
        pre ++ [e] <+: [.press 25 ⟨['w'], .other 0x77⟩, .release 25 ⟨['W'], .other 0x57⟩] →
          Matches bareWindow pre e :=
  no_stuck_keys_iff bareWindow ⟨rfl, rfl, rfl⟩ _

/-- The flag `w` stays on after all keys but Control are up. -/
theorem control_leaves_key_down :
    (inputAfter bareWindow controlWhileDown).flag .w = true ∧
      ¬ NoStuck bareWindow controlWhileDown := by
  have hon : (inputAfter bareWindow controlWhileDown).flag .w = true := by decide +kernel
  refine ⟨hon, fun h => ?_⟩
  obtain ⟨k, hk⟩ := h .w hon
  have hkeys : downFlag k controlWhileDown = none := by
    by_cases h25 : k = 25
    · subst h25
      decide +kernel
    · by_cases h37 : k = 37
      · subst h37
        decide +kernel
      · have h25' : (25 : ℕ) ≠ k := Ne.symm h25
        have h37' : (37 : ℕ) ≠ k := Ne.symm h37
        simp [downFlag, controlWhileDown, KeyEvent.key, h25', h37']
  rw [hkeys] at hk
  cases hk

end GatoCore.Engine
