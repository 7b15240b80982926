import Mathlib.Data.List.Perm.Basic
import Mathlib.Tactic.Common

/-!
# Moves between places

A move takes what is at one place to another and leaves nothing behind. Moves that have no place in
common do not disturb each other, and they can be taken back in every order.
-/

namespace GatoCore.Lib

variable {α β : Type}

/-- Two moves without a common place. -/
structure Apart (m m' : α × α) : Prop where
  sources : m.1 ≠ m'.1
  targets : m.2 ≠ m'.2
  source_target : m.1 ≠ m'.2
  target_source : m.2 ≠ m'.1

theorem Apart.symm {m m' : α × α} (h : Apart m m') : Apart m' m :=
  ⟨h.sources.symm, h.targets.symm, h.target_source.symm, h.source_target.symm⟩

theorem Apart.swap {m m' : α × α} (h : Apart m m') : Apart m.swap m'.swap :=
  ⟨h.targets, h.sources, h.target_source, h.source_target⟩

variable [DecidableEq α]

/-- What is at each place after a move from `m.1` to `m.2`. -/
def move (f : α → Option β) (m : α × α) : α → Option β :=
  fun x => if x = m.2 then f m.1 else if x = m.1 then none else f x

@[simp] theorem move_target (f : α → Option β) (m : α × α) : move f m m.2 = f m.1 := if_pos rfl

theorem move_of_ne {f : α → Option β} {m : α × α} {x : α} (h₁ : x ≠ m.1) (h₂ : x ≠ m.2) :
    move f m x = f x := by rw [move, if_neg h₂, if_neg h₁]

theorem moves_of_not_mem (x : α) (ms : List (α × α)) : ∀ {f : α → Option β},
    (∀ m ∈ ms, x ≠ m.1 ∧ x ≠ m.2) → ms.foldl move f x = f x := by
  induction ms with
  | nil => exact fun _ => rfl
  | cons m ms ih =>
      intro f h
      obtain ⟨hm, hms⟩ := List.forall_mem_cons.mp h
      rw [List.foldl_cons, ih hms, move_of_ne hm.1 hm.2]

/-- Moves that are apart bring everything to its target. -/
theorem moves_target {ms : List (α × α)} (h : ms.Pairwise Apart) :
    ∀ {f : α → Option β} {m : α × α}, m ∈ ms → ms.foldl move f m.2 = f m.1 := by
  induction h with
  | nil => exact fun hm => absurd hm List.not_mem_nil
  | @cons m₀ ms hm₀ _ ih =>
      intro f m hm
      rw [List.foldl_cons]
      rcases List.mem_cons.mp hm with rfl | hm
      · rw [moves_of_not_mem, move_target]
        exact fun m' hm' => ⟨(hm₀ m' hm').target_source, (hm₀ m' hm').targets⟩
      · rw [ih hm, move_of_ne (hm₀ m hm).sources.symm (hm₀ m hm).target_source.symm]

/-- Moves that are apart are taken back in every order. -/
theorem moves_back {ms order : List (α × α)} (h : ms.Pairwise Apart) (horder : order.Perm ms)
    {f after : α → Option β} (hafter : ∀ m ∈ ms, after m.2 = f m.1) {m : α × α} (hm : m ∈ ms) :
    (order.map Prod.swap).foldl move after m.1 = f m.1 := by
  have hback : (order.map Prod.swap).Pairwise Apart := by
    refine List.pairwise_map.mpr (List.Pairwise.imp Apart.swap ?_)
    exact (horder.pairwise_iff Apart.symm).mpr h
  have hswap : m.swap ∈ order.map Prod.swap :=
    List.mem_map_of_mem (horder.mem_iff.mpr hm)
  exact (moves_target hback hswap).trans (hafter m hm)

end GatoCore.Lib
