import Mathlib.Data.List.Chain
import Mathlib.Logic.Function.Basic

/-!
# Liveness and the placement of variables

A program is a graph of points, each of which reads some variables and writes others. A liveness
assigns to each point variables whose values may still be read. A placement maps each variable to
a place, and is sound when no point writes the place of another variable that is live after it:
then the places carry the values of all live variables along every path.
-/

namespace GatoCore.Lib

variable {P T L V : Type*}

/-- The points of a program, the edges between them and what each of them writes and reads. -/
structure FlowGraph (P T : Type*) where
  edge : P → P → Prop
  defs : P → T → Prop
  uses : P → T → Prop

/-- The variables live on entry to each point, or more. -/
structure FlowGraph.Liveness (G : FlowGraph P T) where
  live : P → T → Prop
  of_use : ∀ {p t}, G.uses p t → live p t
  of_edge : ∀ {p q t}, G.edge p q → live q t → live p t ∨ G.defs p t

variable {G : FlowGraph P T}

/-- No point writes the place of another variable that is live after it. -/
def FlowGraph.Liveness.Separates (liveness : G.Liveness) (place : T → Option L) : Prop :=
  ∀ ⦃p q t d⦄, G.edge p q → liveness.live q t → G.defs p d → t ≠ d → place t ≠ place d

/-- **Along every path.** Between a point and a later use of `t` that sees no new definition of
`t`, nothing is written to the place of `t`. -/
theorem FlowGraph.Liveness.Separates.path {liveness : G.Liveness} {place : T → Option L}
    (h : liveness.Separates place) {t : T} {last : P} (huse : G.uses last t) :
    ∀ {path : List P}, List.IsChain G.edge (path ++ [last]) → (∀ p ∈ path, ¬ G.defs p t) →
      ∀ p ∈ path, ∀ d, G.defs p d → place d ≠ place t := by
  intro path hchain hdefs
  -- the variable is live on entry to every point of the path
  suffices hlive : (∀ p ∈ path, ∀ d, G.defs p d → place d ≠ place t) ∧
      ∀ p ∈ (path ++ [last]).head?, liveness.live p t from hlive.1
  induction path with
  | nil => exact ⟨by simp, by simpa using liveness.of_use huse⟩
  | cons p path ih =>
      obtain ⟨hhead, htail⟩ := List.isChain_cons.mp hchain
      obtain ⟨hrest, hlive⟩ := ih htail fun q hq => hdefs q (List.mem_cons_of_mem _ hq)
      obtain ⟨q, hq⟩ : ∃ q, (path ++ [last]).head? = some q := by
        cases path <;> exact ⟨_, rfl⟩
      have hedge : G.edge p q := hhead q hq
      have hnot : ¬ G.defs p t := hdefs p List.mem_cons_self
      constructor
      · intro r hr d hd
        rcases List.mem_cons.mp hr with rfl | hr
        · have hne : t ≠ d := fun heq => hnot (heq ▸ hd)
          exact (h hedge (hlive q hq) hd hne).symm
        · exact hrest r hr d hd
      · intro r hr
        cases hr
        exact (liveness.of_edge hedge (hlive q hq)).resolve_right hnot

/-- The places `m` hold the values `ρ` of the variables in `live`. -/
def Agrees (place : T → Option L) (live : T → Prop) (ρ : T → Option V) (m : L → Option V) : Prop :=
  ∀ t, live t → (place t).bind m = ρ t

/-- An edge out of a point that writes nothing. -/
theorem Agrees.keep (liveness : G.Liveness) {place : T → Option L} {p q : P} {ρ : T → Option V}
    {m : L → Option V} (h : Agrees place (liveness.live p) ρ m) (hedge : G.edge p q)
    (hdefs : ∀ t, ¬ G.defs p t) : Agrees place (liveness.live q) ρ m :=
  fun t ht => h t ((liveness.of_edge hedge ht).resolve_right (hdefs t))

/-- An edge out of a point that writes `d`. -/
theorem Agrees.write [DecidableEq T] [DecidableEq L] {liveness : G.Liveness}
    {place : T → Option L} (hsep : liveness.Separates place) {p q : P} {ρ : T → Option V}
    {m : L → Option V} (h : Agrees place (liveness.live p) ρ m) (hedge : G.edge p q) {d : T}
    (hd : ∀ t, G.defs p t ↔ t = d) {l : L} (hl : place d = some l) (v : V) :
    Agrees place (liveness.live q) (Function.update ρ d (some v))
      (Function.update m l (some v)) := by
  intro t ht
  by_cases htd : t = d
  · subst htd
    simp [hl]
  · have hlive : liveness.live p t :=
      (liveness.of_edge hedge ht).resolve_right fun hdef => htd ((hd t).mp hdef)
    have hne : place t ≠ some l := hl ▸ hsep hedge ht ((hd d).mpr rfl) htd
    rw [Function.update_of_ne htd, ← h t hlive]
    cases hplace : place t with
    | none => rfl
    | some k =>
        have hkl : k ≠ l := fun heq => hne (hplace.trans (congrArg some heq))
        simp [Function.update_of_ne hkl]

end GatoCore.Lib
