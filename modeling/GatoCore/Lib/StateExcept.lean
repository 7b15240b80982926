import Mathlib.Tactic.Common

/-!
# Runs of a state monad over `Except`

When a run succeeds, each of its parts does: these lemmas take a successful run of a `do` block
apart, one bind at a time.
-/

namespace GatoCore.Lib

variable {σ ε α β : Type}

theorem run_bind_ok {x : StateT σ (Except ε) α} {f : α → StateT σ (Except ε) β} {s : σ}
    {r : β × σ} :
    (x >>= f).run s = .ok r ↔ ∃ a s', x.run s = .ok (a, s') ∧ (f a).run s' = .ok r := by
  rw [StateT.run_bind]
  cases h : x.run s with
  | error e => simp [bind, Except.bind]
  | ok p =>
      obtain ⟨a, s'⟩ := p
      simp [bind, Except.bind]

/-- A bind succeeds when its two parts do. -/
theorem exists_run_bind {x : StateT σ (Except ε) α} {f : α → StateT σ (Except ε) β} {s s' : σ}
    {a : α} (hx : x.run s = .ok (a, s')) (hf : ∃ r, (f a).run s' = .ok r) :
    ∃ r, (x >>= f).run s = .ok r := by
  obtain ⟨r, hr⟩ := hf
  exact ⟨r, run_bind_ok.mpr ⟨a, s', hx, hr⟩⟩

theorem run_pure_ok {a : α} {s : σ} {r : α × σ} :
    (pure a : StateT σ (Except ε) α).run s = .ok r ↔ (a, s) = r := by
  show Except.ok (a, s) = .ok r ↔ (a, s) = r
  rw [Except.ok.injEq]

theorem run_throw_ok {e : ε} {s : σ} {r : α × σ} :
    (throw e : StateT σ (Except ε) α).run s = .ok r ↔ False := by
  simp [throw, throwThe, MonadExceptOf.throw, StateT.lift, StateT.run, bind, Except.bind]

theorem run_throw_bind_ok {e : ε} {f : α → StateT σ (Except ε) β} {s : σ} {r : β × σ} :
    (throw e >>= f).run s = .ok r ↔ False := by
  simp only [run_bind_ok, run_throw_ok, false_and, exists_false]

theorem run_get_ok {s : σ} {r : σ × σ} :
    (get : StateT σ (Except ε) σ).run s = .ok r ↔ (s, s) = r := by
  simp [get, getThe, MonadStateOf.get, StateT.get, StateT.run, pure, Except.pure]

theorem run_set_ok {s t : σ} {r : PUnit × σ} :
    (set t : StateT σ (Except ε) PUnit).run s = .ok r ↔ (⟨⟩, t) = r := by
  show Except.ok (⟨⟩, t) = .ok r ↔ (⟨⟩, t) = r
  rw [Except.ok.injEq]

theorem run_modifyGet_ok {f : σ → α × σ} {s : σ} {r : α × σ} :
    (modifyGet f : StateT σ (Except ε) α).run s = .ok r ↔ f s = r := by
  simp [modifyGet, MonadStateOf.modifyGet, StateT.modifyGet, StateT.run, pure, Except.pure]

theorem run_modify_ok {f : σ → σ} {s : σ} {r : PUnit × σ} :
    (modify f : StateT σ (Except ε) PUnit).run s = .ok r ↔ (⟨⟩, f s) = r :=
  run_modifyGet_ok

theorem run_lift_ok {x : Except ε α} {s : σ} {r : α × σ} :
    (liftM x : StateT σ (Except ε) α).run s = .ok r ↔ x = .ok r.1 ∧ s = r.2 := by
  obtain ⟨a, s'⟩ := r
  cases x <;>
    simp [liftM, monadLift, MonadLift.monadLift, StateT.lift, StateT.run, bind, Except.bind,
      pure, Except.pure]

theorem except_bind_ok {x : Except ε α} {f : α → Except ε β} {r : β} :
    (x >>= f) = .ok r ↔ ∃ a, x = .ok a ∧ f a = .ok r := by
  cases x <;> simp [bind, Except.bind]

theorem except_eq_ok_of_isSome {x : Except ε α} (h : x.toOption.isSome = true) :
    ∃ a, x = .ok a := by
  cases x with
  | error _ => cases h
  | ok a => exact ⟨a, rfl⟩

end GatoCore.Lib
