import Mathlib.Data.List.Forall2
import Mathlib.Tactic.Common

/-!
# Two runs

Two pieces of stateful code are alike when from related states they end with related values and in
related states again.
-/

namespace GatoCore.Lib

variable {σ τ α β α' β' ι κ : Type}

/-- The value and the state at the end. -/
def runState (x : StateM σ α) (s : σ) : α × σ := x s

@[simp] theorem runState_pure (a : α) (s : σ) : runState (pure a) s = (a, s) := rfl

@[simp] theorem runState_bind (x : StateM σ α) (f : α → StateM σ β) (s : σ) :
    runState (x >>= f) s = runState (f (runState x s).1) (runState x s).2 := rfl

theorem runState_mapM_cons (f : ι → StateM σ α) (i : ι) (is : List ι) (s : σ) :
    runState ((i :: is).mapM f) s =
      ((runState (f i) s).1 :: (runState (is.mapM f) (runState (f i) s).2).1,
        (runState (is.mapM f) (runState (f i) s).2).2) := by
  rw [List.mapM_cons]
  rfl

theorem runState_mapM_append (f : ι → StateM σ α) (is js : List ι) (s : σ) :
    runState ((is ++ js).mapM f) s =
      ((runState (is.mapM f) s).1 ++ (runState (js.mapM f) (runState (is.mapM f) s).2).1,
        (runState (js.mapM f) (runState (is.mapM f) s).2).2) := by
  induction is generalizing s with
  | nil => rfl
  | cons i is ih => rw [List.cons_append, runState_mapM_cons, ih, runState_mapM_cons]; rfl

theorem length_runState_mapM (f : ι → StateM σ α) (is : List ι) (s : σ) :
    (runState (is.mapM f) s).1.length = is.length := by
  induction is generalizing s with
  | nil => rfl
  | cons i is ih => rw [runState_mapM_cons, List.length_cons, List.length_cons, ih]

/-- Each value comes of some state. -/
theorem forall₂_runState_mapM (f : ι → StateM σ α) (is : List ι) (s : σ) :
    List.Forall₂ (fun i a => ∃ s, (runState (f i) s).1 = a) is (runState (is.mapM f) s).1 := by
  induction is generalizing s with
  | nil => exact List.Forall₂.nil
  | cons i is ih =>
      rw [runState_mapM_cons]
      exact List.Forall₂.cons ⟨s, rfl⟩ (ih _)

def Alike (R : σ → τ → Prop) (Q : α → β → Prop) (x : StateM σ α) (y : StateM τ β) : Prop :=
  ∀ s t, R s t → Q (runState x s).1 (runState y t).1 ∧ R (runState x s).2 (runState y t).2

namespace Alike

variable {R : σ → τ → Prop} {Q : α → β → Prop} {Q' : α' → β' → Prop}

theorem pure {a : α} {b : β} (h : Q a b) :
    Alike R Q (Pure.pure a : StateM σ α) (Pure.pure b : StateM τ β) :=
  fun _ _ hst => ⟨h, hst⟩

theorem mono {Q₁ Q₂ : α → β → Prop} {x : StateM σ α} {y : StateM τ β} (h : Alike R Q₁ x y)
    (hQ : ∀ a b, Q₁ a b → Q₂ a b) : Alike R Q₂ x y :=
  fun s t hst => ⟨hQ _ _ (h s t hst).1, (h s t hst).2⟩

theorem bind {x : StateM σ α} {y : StateM τ β} {f : α → StateM σ α'} {g : β → StateM τ β'}
    (hx : Alike R Q x y) (hf : ∀ a b, Q a b → Alike R Q' (f a) (g b)) :
    Alike R Q' (x >>= f) (y >>= g) := by
  intro s t hst
  obtain ⟨hvalue, hstate⟩ := hx s t hst
  rw [runState_bind, runState_bind]
  exact hf _ _ hvalue _ _ hstate

/-- Code run for each of two lists. -/
theorem mapM {f : ι → StateM σ α} {g : κ → StateM τ β} {is : List ι} {ks : List κ}
    (h : List.Forall₂ (fun i k => Alike R Q (f i) (g k)) is ks) :
    Alike R (List.Forall₂ Q) (is.mapM f) (ks.mapM g) := by
  induction h with
  | nil => exact pure List.Forall₂.nil
  | cons hhead _ ih =>
      rw [List.mapM_cons, List.mapM_cons]
      refine hhead.bind fun a b hab => ih.bind fun as bs habs => pure ?_
      exact List.Forall₂.cons hab habs

end Alike

/-- What code run for each element of a list keeps. -/
theorem runState_mapM_keeps {P : σ → Prop} {f : ι → StateM σ α} {is : List ι}
    (h : ∀ i ∈ is, ∀ s, P s → P (runState (f i) s).2) {s : σ} (hs : P s) :
    P (runState (is.mapM f) s).2 := by
  induction is generalizing s with
  | nil => exact hs
  | cons i is ih =>
      rw [runState_mapM_cons]
      exact ih (fun j hj => h j (List.mem_cons_of_mem _ hj)) (h i List.mem_cons_self s hs)

end GatoCore.Lib
