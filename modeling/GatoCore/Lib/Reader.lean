import Mathlib.Tactic.Common

/-!
# Readers

A reader takes entries off the front of a list and may fail. `Meets` is its specification: what
holds of the result and of the rest, and of the failure. A loop whose turns shorten the list ends.
-/

namespace GatoCore.Lib

variable {τ ε α β σ : Type}

/-- A reader of a list of entries. -/
abbrev Reader (τ ε : Type) := StateT (List τ) (Except ε)

/-- What a reader does on this input. -/
def Meets (p : Reader τ ε α) (input : List τ) (failure : ε → Prop) (post : α → List τ → Prop) :
    Prop :=
  match p.run input with
  | .ok (a, rest) => post a rest
  | .error e => failure e

namespace Meets

variable {p : Reader τ ε α} {f : α → Reader τ ε β} {input : List τ} {failure : ε → Prop}
  {post post' : α → List τ → Prop} {next : β → List τ → Prop}

theorem pure {a : α} (h : post a input) : Meets (pure a) input failure post := h

theorem fail {e : ε} (h : failure e) : Meets (throw e) input failure post := h

theorem bind (hp : Meets p input failure post)
    (hf : ∀ a rest, post a rest → Meets (f a) rest failure next) :
    Meets (p >>= f) input failure next := by
  unfold Meets at hp ⊢
  rw [StateT.run_bind]
  cases hrun : p.run input with
  | error e =>
      rw [hrun] at hp
      exact hp
  | ok r =>
      rw [hrun] at hp
      exact hf r.1 r.2 hp

theorem mono (hp : Meets p input failure post) (h : ∀ a rest, post a rest → post' a rest) :
    Meets p input failure post' := by
  unfold Meets at hp ⊢
  split at hp
  · exact h _ _ hp
  · exact hp

theorem get {post : List τ → List τ → Prop} (h : post input input) :
    Meets (get : Reader τ ε (List τ)) input failure post := h

theorem set {rest : List τ} {post : PUnit → List τ → Prop} (h : post ⟨⟩ rest) :
    Meets (set rest : Reader τ ε PUnit) input failure post := h

/-- The two ways a run ends. -/
theorem cases (hp : Meets p input failure post) :
    (∃ a rest, p.run input = .ok (a, rest) ∧ post a rest) ∨
      ∃ e, p.run input = .error e ∧ failure e := by
  unfold Meets at hp
  split at hp
  next a rest hrun => exact .inl ⟨a, rest, hrun, hp⟩
  next e hrun => exact .inr ⟨e, hrun, hp⟩

end Meets

/-! ## Loops -/

/-- Turns of a loop until one says that it was the last; `fuel` bounds their number. -/
def loop (outOfFuel : ε) (turn : σ → Reader τ ε (σ × Bool)) : ℕ → σ → Reader τ ε σ
  | 0, _ => throw outOfFuel
  | fuel + 1, s => do
      let (s, again) ← turn s
      if again then loop outOfFuel turn fuel s else return s

/-- The loop rule: a turn keeps the invariant, one that is not the last shortens the list, and the
last one leaves what the loop is to leave. -/
theorem loop_meets_exit {outOfFuel : ε} {turn : σ → Reader τ ε (σ × Bool)} {failure : ε → Prop}
    (inv exit : List τ → Prop)
    (hturn : ∀ s input, inv input → Meets (turn s) input failure fun r rest =>
      inv rest ∧ (r.2 = true → rest.length < input.length) ∧ (r.2 = false → exit rest)) :
    ∀ (fuel : ℕ) (s : σ) (input : List τ), inv input → input.length < fuel →
      Meets (loop outOfFuel turn fuel s) input failure fun _ rest => inv rest ∧ exit rest := by
  intro fuel
  induction fuel with
  | zero =>
      intro s input _ hfuel
      exact absurd hfuel (Nat.not_lt_zero _)
  | succ fuel ih =>
      intro s input hinv hfuel
      refine Meets.bind (hturn s input hinv) ?_
      rintro ⟨s', again⟩ rest ⟨hrest, hlt, hexit⟩
      cases again with
      | false => exact Meets.pure ⟨hrest, hexit rfl⟩
      | true =>
          have hshorter := hlt rfl
          exact ih s' rest hrest (by omega)

theorem loop_meets {outOfFuel : ε} {turn : σ → Reader τ ε (σ × Bool)} {failure : ε → Prop}
    (inv : List τ → Prop)
    (hturn : ∀ s input, inv input → Meets (turn s) input failure fun r rest =>
      inv rest ∧ (r.2 = true → rest.length < input.length))
    (fuel : ℕ) (s : σ) (input : List τ) (hinv : inv input) (hfuel : input.length < fuel) :
    Meets (loop outOfFuel turn fuel s) input failure fun _ rest => inv rest := by
  refine (loop_meets_exit inv (fun _ => True) ?_ fuel s input hinv hfuel).mono fun _ _ h => h.1
  intro s input hinv
  refine (hturn s input hinv).mono ?_
  rintro r rest ⟨hrest, hlt⟩
  exact ⟨hrest, hlt, fun _ => trivial⟩

/-! ## Results read from what the entries show -/

/-- On entries that show this the reader has a result and leaves entries that show that. -/
def Yields {κ : Type} (view : τ → κ) (p : Reader τ ε α) (input : List κ) (a : α) (rest : List κ) :
    Prop :=
  ∀ entries : List τ, entries.map view = input →
    ∃ left, p.run entries = .ok (a, left) ∧ left.map view = rest

/-- Turns of a loop that go on, and their number. -/
inductive GoesOn {κ : Type} (view : τ → κ) (turn : σ → Reader τ ε (σ × Bool)) (s : σ)
    (input : List κ) : ℕ → σ → List κ → Prop
  | start : GoesOn view turn s input 0 s input
  | turn {n : ℕ} {s' s'' : σ} {rest rest' : List κ} : GoesOn view turn s input n s' rest →
      Yields view (turn s') rest (s'', true) rest' → GoesOn view turn s input (n + 1) s'' rest'

namespace Yields

variable {κ : Type} {view : τ → κ} {p : Reader τ ε α} {f : α → Reader τ ε β}
  {input mid rest : List κ}

theorem pure (a : α) (input : List κ) : Yields view (pure a : Reader τ ε α) input a input :=
  fun entries h => ⟨entries, rfl, h⟩

theorem bind {a : α} {b : β} (hp : Yields view p input a mid) (hf : Yields view (f a) mid b rest) :
    Yields view (p >>= f) input b rest := by
  intro entries h
  obtain ⟨left, hrun, hleft⟩ := hp entries h
  obtain ⟨left', hrun', hleft'⟩ := hf left hleft
  refine ⟨left', ?_, hleft'⟩
  rw [StateT.run_bind, hrun]
  exact hrun'

variable {outOfFuel : ε} {turn : σ → Reader τ ε (σ × Bool)} {n : ℕ} {s s' s'' : σ}

theorem loop_last (h : Yields view (turn s) input (s', false) rest) :
    Yields view (loop outOfFuel turn (n + 1) s) input s' rest :=
  h.bind (.pure s' rest)

theorem loop_next (h : Yields view (turn s) input (s', true) mid)
    (hloop : Yields view (loop outOfFuel turn n s') mid s'' rest) :
    Yields view (loop outOfFuel turn (n + 1) s) input s'' rest :=
  h.bind hloop

end Yields

namespace GoesOn

variable {κ : Type} {view : τ → κ} {outOfFuel : ε} {turn : σ → Reader τ ε (σ × Bool)}
  {s s' s'' : σ} {input mid rest : List κ} {n fuel : ℕ}

theorem loop (h : GoesOn view turn s input n s' mid) : ∀ m,
    Yields view (Lib.loop outOfFuel turn m s') mid s'' rest →
    Yields view (Lib.loop outOfFuel turn (m + n) s) input s'' rest := by
  induction h with
  | start => exact fun _ hloop => hloop
  | @turn n _ _ _ _ _ hturn ih =>
      intro m hloop
      have hnext := ih (m + 1) (.loop_next hturn hloop)
      rwa [Nat.add_right_comm] at hnext

/-- A loop whose last turn comes in time. -/
theorem stops (h : GoesOn view turn s input n s' mid)
    (hlast : Yields view (turn s') mid (s'', false) rest) (hfuel : n < fuel) :
    Yields view (Lib.loop outOfFuel turn fuel s) input s'' rest := by
  obtain ⟨m, rfl⟩ := Nat.exists_eq_add_of_lt hfuel
  rw [Nat.add_assoc, Nat.add_comm]
  exact h.loop (m + 1) (.loop_last hlast)

end GoesOn

end GatoCore.Lib
