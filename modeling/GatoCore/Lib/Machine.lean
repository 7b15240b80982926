import Mathlib.Tactic.Common

/-!
# Machines

A machine takes operations one after the other; each changes its state and gets an answer. Facts
about one step are carried over whole runs.
-/

namespace GatoCore.Lib

/-- One operation: the state after it and its answer. -/
abbrev Machine (σ ο ρ : Type) := σ → ο → σ × ρ

namespace Machine

variable {σ τ ο ρ : Type}

/-- The state after the operations and their answers. -/
def run (step : Machine σ ο ρ) : σ → List ο → σ × List ρ
  | s, [] => (s, [])
  | s, o :: ops =>
      let next := step s o
      let rest := run step next.1 ops
      (rest.1, next.2 :: rest.2)

section Run

variable (step : Machine σ ο ρ)

@[simp] theorem run_nil (s : σ) : step.run s [] = (s, []) := rfl

@[simp] theorem run_cons (s : σ) (o : ο) (ops : List ο) :
    step.run s (o :: ops) =
      ((step.run (step s o).1 ops).1, (step s o).2 :: (step.run (step s o).1 ops).2) := rfl

theorem run_append (s : σ) (xs ys : List ο) :
    step.run s (xs ++ ys) =
      ((step.run (step.run s xs).1 ys).1,
        (step.run s xs).2 ++ (step.run (step.run s xs).1 ys).2) := by
  induction xs generalizing s with
  | nil => simp
  | cons o xs ih => simp [ih]

end Run

/-- No operation leaves the states of `Inv`. -/
def Preserves (step : Machine σ ο ρ) (Inv : σ → Prop) : Prop :=
  ∀ s o, Inv s → Inv (step s o).1

theorem Preserves.run {step : Machine σ ο ρ} {Inv : σ → Prop} (h : step.Preserves Inv) {s : σ}
    (hs : Inv s) (ops : List ο) : Inv (step.run s ops).1 := by
  induction ops generalizing s with
  | nil => exact hs
  | cons o ops ih => exact ih (h s o hs)

/-- Related states answer alike and stay related. -/
def Simulates (R : σ → τ → Prop) (step : Machine σ ο ρ) (step' : Machine τ ο ρ) : Prop :=
  ∀ s t o, R s t → R (step s o).1 (step' t o).1 ∧ (step s o).2 = (step' t o).2

theorem Simulates.run {R : σ → τ → Prop} {step : Machine σ ο ρ} {step' : Machine τ ο ρ}
    (h : Simulates R step step') {s : σ} {t : τ} (hst : R s t) (ops : List ο) :
    R (step.run s ops).1 (step'.run t ops).1 ∧ (step.run s ops).2 = (step'.run t ops).2 := by
  induction ops generalizing s t with
  | nil => exact ⟨hst, rfl⟩
  | cons o ops ih =>
      obtain ⟨hnext, hanswer⟩ := h s t o hst
      obtain ⟨hfinal, hanswers⟩ := ih hnext
      refine ⟨hfinal, ?_⟩
      simp only [run_cons, hanswer, hanswers]

/-- A machine whose operations are written as those of another. -/
def comap {ο' : Type} (step : Machine σ ο ρ) (f : ο' → ο) : Machine σ ο' ρ :=
  fun s o => step s (f o)

theorem comap_run {ο' : Type} (step : Machine σ ο ρ) (f : ο' → ο) (s : σ) (ops : List ο') :
    (step.comap f).run s ops = step.run s (ops.map f) := by
  induction ops generalizing s with
  | nil => rfl
  | cons o ops ih => simp [comap, ih]

/-- A machine with a log of what it was asked and answered. -/
def record {γ : Type} (step : Machine σ ο ρ) (log : γ → ο × ρ → γ) : Machine (σ × γ) ο ρ :=
  fun s o => (((step s.1 o).1, log s.2 (o, (step s.1 o).2)), (step s.1 o).2)

theorem record_run {γ : Type} (step : Machine σ ο ρ) (log : γ → ο × ρ → γ) (s : σ) (g : γ)
    (ops : List ο) :
    (step.record log).run (s, g) ops =
      (((step.run s ops).1, (ops.zip (step.run s ops).2).foldl log g), (step.run s ops).2) := by
  induction ops generalizing s g with
  | nil => rfl
  | cons o ops ih =>
      have hrest := ih (step s o).1 (log g (o, (step s o).2))
      rw [run_cons, run_cons, record]
      dsimp only
      rw [hrest]
      rfl

end Machine

/-! ## Last writes -/

section LastWrite

variable {σ ο ρ ν : Type} {writes : ο → Option ν}

/-- What the last operation that writes something writes. -/
def lastWrite (writes : ο → Option ν) (ops : List ο) : Option ν := (ops.filterMap writes).getLast?

@[simp] theorem lastWrite_nil : lastWrite writes [] = none := rfl

theorem lastWrite_append (xs ys : List ο) :
    lastWrite writes (xs ++ ys) = (lastWrite writes ys).or (lastWrite writes xs) := by
  rw [lastWrite, List.filterMap_append, List.getLast?_append]
  rfl

theorem lastWrite_cons (o : ο) (ops : List ο) :
    lastWrite writes (o :: ops) = (lastWrite writes ops).or (writes o) := by
  rw [← List.singleton_append, lastWrite_append]
  cases h : writes o <;> simp [lastWrite, h]

theorem lastWrite_eq_none_iff {ops : List ο} :
    lastWrite writes ops = none ↔ ∀ o ∈ ops, writes o = none := by
  rw [lastWrite, List.getLast?_eq_none_iff, List.filterMap_eq_nil_iff]

theorem lastWrite_split {o : ο} {pre post : List ο} (hpost : ∀ later ∈ post, writes later = none) :
    lastWrite writes (pre ++ o :: post) = (writes o).or (lastWrite writes pre) := by
  rw [lastWrite_append, lastWrite_cons, lastWrite_eq_none_iff.mpr hpost, Option.none_or]

/-- A part of the state that an operation overwrites or leaves alone is, after a run, what the last
write made it. -/
theorem Machine.view_run (step : Machine σ ο ρ) (view : σ → Option ν)
    (hstep : ∀ s o, view (step s o).1 = (writes o).or (view s)) (s : σ) (ops : List ο) :
    view (step.run s ops).1 = (lastWrite writes ops).or (view s) := by
  induction ops generalizing s with
  | nil => rfl
  | cons o ops ih => rw [Machine.run_cons, ih, hstep, lastWrite_cons, Option.or_assoc]

/-- A part of the state that no operation of the run touches. -/
theorem Machine.view_run_eq (step : Machine σ ο ρ) (view : σ → ν) {ops : List ο}
    (hops : ∀ o ∈ ops, ∀ s, view (step s o).1 = view s) (s : σ) :
    view (step.run s ops).1 = view s := by
  induction ops generalizing s with
  | nil => rfl
  | cons o ops ih =>
      rw [Machine.run_cons, ih fun later hlater => hops later (List.mem_cons_of_mem _ hlater)]
      exact hops o (List.mem_cons_self ..) s

end LastWrite

end GatoCore.Lib
