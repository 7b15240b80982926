import Mathlib.Data.List.Count
import Mathlib.Data.List.Nodup
import Mathlib.Data.Nat.Notation
import Mathlib.Tactic.Common

/-!
# Resources

Things that are created, used and released. Each has a number, the next one when it is created, so
that none is created twice; of the exclusive ones at most one may be alive.
-/

namespace GatoCore.Lib

/-- What is done with resources. -/
inductive Action (κ : Type) where
  | create (k : κ)
  | use (k : κ)
  | release (k : κ)
  deriving DecidableEq

/-- An action that needs the resource alive. -/
def Action.Touches {κ : Type} (k : κ) : Action κ → Prop
  | create _ => False
  | use k' => k' = k
  | release k' => k' = k

/-- Created, and not released. -/
def StillOpen {κ : Type} (acts : List (Action κ)) (k : κ) : Prop :=
  .create k ∈ acts ∧ .release k ∉ acts

/-- The resources alive, and the number of the next one. -/
structure Pool (κ : Type) where
  live : List κ
  next : ℕ

namespace Pool

variable {κ : Type} [DecidableEq κ] (number : κ → ℕ) (exclusive : κ → Bool)

/-- No action yet. -/
def empty : Pool κ := ⟨[], 0⟩

/-- The pool after an action; there is none when a resource is created that is not the next one, or
is not to be alive beside another, or when one is touched that is not alive. -/
def step (p : Pool κ) : Action κ → Option (Pool κ)
  | .create k =>
      if number k = p.next ∧ (exclusive k = true → ∀ k' ∈ p.live, exclusive k' = false) then
        some ⟨p.live ++ [k], p.next + 1⟩
      else none
  | .use k => if k ∈ p.live then some p else none
  | .release k => if k ∈ p.live then some ⟨p.live.erase k, p.next⟩ else none

def run : Pool κ → List (Action κ) → Option (Pool κ)
  | p, [] => some p
  | p, a :: acts => (p.step number exclusive a).bind fun p => run p acts

@[simp] theorem run_nil (p : Pool κ) : p.run number exclusive [] = some p := rfl

@[simp] theorem run_cons (p : Pool κ) (a : Action κ) (acts : List (Action κ)) :
    p.run number exclusive (a :: acts) =
      (p.step number exclusive a).bind fun p => p.run number exclusive acts := rfl

theorem run_append (p : Pool κ) (xs ys : List (Action κ)) :
    p.run number exclusive (xs ++ ys) =
      (p.run number exclusive xs).bind fun p => p.run number exclusive ys := by
  induction xs generalizing p with
  | nil => rfl
  | cons a xs ih =>
      rw [List.cons_append, run_cons, run_cons]
      cases p.step number exclusive a with
      | none => rfl
      | some p => exact ih p

/-- What is known of the pool after the actions. -/
structure Sound (p : Pool κ) (acts : List (Action κ)) : Prop where
  live_iff : ∀ k, k ∈ p.live ↔ StillOpen acts k
  nodup : p.live.Nodup
  number_lt : ∀ k, .create k ∈ acts → number k < p.next
  created : ∀ k, .release k ∈ acts → .create k ∈ acts
  once : ∀ k, acts.count (.release k) ≤ 1
  single : ∀ k ∈ p.live, ∀ k' ∈ p.live, exclusive k = true → exclusive k' = true → k = k'

variable {number exclusive} {p p' : Pool κ} {acts : List (Action κ)} {k : κ}

theorem sound_empty : Sound number exclusive (empty : Pool κ) [] := by
  refine ⟨?_, List.nodup_nil, ?_, ?_, ?_, ?_⟩ <;> simp [empty, StillOpen]

theorem Sound.create (h : Sound number exclusive p acts) (hk : number k = p.next)
    (hexcl : exclusive k = true → ∀ k' ∈ p.live, exclusive k' = false) :
    Sound number exclusive ⟨p.live ++ [k], p.next + 1⟩ (acts ++ [.create k]) := by
  -- the number of the new resource is `next`, above every number handed out before
  have hfresh : Action.create k ∉ acts := by
    intro hmem
    have hlt := h.number_lt k hmem
    omega
  have hlive : k ∉ p.live := by
    intro hmem
    exact hfresh ((h.live_iff k).mp hmem).1
  constructor
  · intro k'
    by_cases heq : k' = k
    · subst heq
      have hrel : Action.release k' ∉ acts := fun hrel => hfresh (h.created k' hrel)
      simp [StillOpen, hrel]
    · simp [StillOpen, heq, h.live_iff k']
  · refine h.nodup.append (List.nodup_singleton k) ?_
    intro a ha hmem
    cases List.mem_singleton.mp hmem
    exact hlive ha
  · intro k' hmem
    rcases List.mem_append.mp hmem with hmem | hmem
    · have hlt := h.number_lt k' hmem
      show number k' < p.next + 1
      omega
    · cases List.mem_singleton.mp hmem
      show number k < p.next + 1
      omega
  · intro k' hmem
    simp only [List.mem_append, List.mem_singleton, reduceCtorEq, or_false] at hmem
    exact List.mem_append_left _ (h.created k' hmem)
  · intro k'
    simpa [List.count_append] using h.once k'
  · intro a ha b hb hea heb
    rcases List.mem_append.mp ha with ha | ha
    · rcases List.mem_append.mp hb with hb | hb
      · exact h.single a ha b hb hea heb
      · cases List.mem_singleton.mp hb
        rw [hexcl heb a ha] at hea
        cases hea
    · cases List.mem_singleton.mp ha
      rcases List.mem_append.mp hb with hb | hb
      · rw [hexcl hea b hb] at heb
        cases heb
      · exact (List.mem_singleton.mp hb).symm

theorem Sound.use (h : Sound number exclusive p acts) :
    Sound number exclusive p (acts ++ [.use k]) := by
  constructor
  · intro k'
    simp [StillOpen, h.live_iff k']
  · exact h.nodup
  · intro k' hmem
    exact h.number_lt k' (by simpa using hmem)
  · intro k' hmem
    simpa using h.created k' (by simpa using hmem)
  · intro k'
    simpa [List.count_append] using h.once k'
  · exact h.single

theorem Sound.release (h : Sound number exclusive p acts) (hk : k ∈ p.live) :
    Sound number exclusive ⟨p.live.erase k, p.next⟩ (acts ++ [.release k]) := by
  obtain ⟨hcreated, hnot⟩ := (h.live_iff k).mp hk
  constructor
  · intro k'
    rw [h.nodup.mem_erase_iff, h.live_iff k']
    by_cases heq : k' = k
    · subst heq
      simp [StillOpen]
    · simp [StillOpen, heq]
  · exact h.nodup.erase k
  · intro k' hmem
    exact h.number_lt k' (by simpa using hmem)
  · intro k' hmem
    simp only [List.mem_append, List.mem_singleton, Action.release.injEq, reduceCtorEq,
      or_false] at hmem ⊢
    rcases hmem with hmem | rfl
    · exact h.created k' hmem
    · exact hcreated
  · intro k'
    rw [List.count_append]
    by_cases heq : k' = k
    · subst heq
      rw [List.count_eq_zero.mpr hnot]
      simp
    · have hzero : List.count (Action.release k') [.release k] = 0 := by simp [Ne.symm heq]
      rw [hzero]
      exact h.once k'
  · intro a ha b hb
    exact h.single a (List.mem_of_mem_erase ha) b (List.mem_of_mem_erase hb)

/-- The actions of a pool are accounted for, at every moment. -/
theorem Sound.run (h : Sound number exclusive p acts) {acts' : List (Action κ)}
    (hrun : p.run number exclusive acts' = some p') :
    Sound number exclusive p' (acts ++ acts') := by
  induction acts' generalizing p acts with
  | nil =>
      cases hrun
      simpa using h
  | cons a acts' ih =>
      obtain ⟨q, hq, hrest⟩ := Option.bind_eq_some_iff.mp hrun
      have hstep : Sound number exclusive q (acts ++ [a]) := by
        cases a with
        | create k =>
            obtain ⟨⟨hnext, hexcl⟩, hq⟩ := Option.ite_none_right_eq_some.mp hq
            cases hq
            exact h.create hnext hexcl
        | use k =>
            obtain ⟨-, hq⟩ := Option.ite_none_right_eq_some.mp hq
            cases hq
            exact h.use
        | release k =>
            obtain ⟨hk, hq⟩ := Option.ite_none_right_eq_some.mp hq
            cases hq
            exact h.release hk
      simpa using ih hstep hrest

/-- When nothing is alive at the end, everything created was released, and once. -/
theorem released_once (hrun : empty.run number exclusive acts = some p) (hp : p.live = [])
    (hk : .create k ∈ acts) : acts.count (.release k) = 1 := by
  have h : Sound number exclusive p acts := by simpa using sound_empty.run hrun
  have hrel : Action.release k ∈ acts := by
    by_contra hrel
    have hlive := (h.live_iff k).mpr ⟨hk, hrel⟩
    rw [hp] at hlive
    cases hlive
  have hpos := List.count_pos_iff.mpr hrel
  have honce := h.once k
  omega

/-- What is touched was created before, and not released. -/
theorem open_of_touches (hrun : empty.run number exclusive acts = some p)
    {pre post : List (Action κ)} {a : Action κ} (hsplit : acts = pre ++ a :: post)
    (hk : a.Touches k) : StillOpen pre k := by
  subst hsplit
  rw [run_append] at hrun
  obtain ⟨q, hq, hrest⟩ := Option.bind_eq_some_iff.mp hrun
  have h : Sound number exclusive q pre := by simpa using sound_empty.run hq
  obtain ⟨q', hstep, -⟩ := Option.bind_eq_some_iff.mp hrest
  apply (h.live_iff k).mp
  cases a with
  | create k' => cases hk
  | use k' | release k' =>
      cases hk
      exact (Option.ite_none_right_eq_some.mp hstep).1

/-- At no moment are two exclusive resources open. -/
theorem open_unique (hrun : empty.run number exclusive acts = some p)
    {pre post : List (Action κ)} (hsplit : acts = pre ++ post) {k k' : κ} (hk : exclusive k = true)
    (hk' : exclusive k' = true) (hopen : StillOpen pre k) (hopen' : StillOpen pre k') : k = k' := by
  subst hsplit
  rw [run_append] at hrun
  obtain ⟨q, hq, -⟩ := Option.bind_eq_some_iff.mp hrun
  have h : Sound number exclusive q pre := by simpa using sound_empty.run hq
  exact h.single k ((h.live_iff k).mpr hopen) k' ((h.live_iff k').mpr hopen') hk hk'

end Pool

end GatoCore.Lib
