import Mathlib.Order.Defs.LinearOrder
import Mathlib.Tactic.Common
import Mathlib.Data.List.Sort

/-!
# Lists that increase in a key

Elements are compared by a key of a linear order. A list increases when every element has a smaller
key than the later ones; it can be extended in one place only, and a stable sort finds that place.
-/

namespace GatoCore.Lib

variable {α β : Type} [LinearOrder β] (f : α → β)

def Increasing (l : List α) : Prop := l.Pairwise fun a b => f a < f b

/-- The stable sort by the key. -/
def sortBy (l : List α) : List α := l.mergeSort fun a b => decide (f a ≤ f b)

instance (l : List α) : Decidable (Increasing f l) :=
  inferInstanceAs (Decidable (l.Pairwise fun a b => f a < f b))

variable {f} {l pre post : List α} {k k' : α}

theorem Increasing.nodup (h : Increasing f l) : (l.map f).Nodup := by
  rw [List.Nodup, List.pairwise_map]
  exact h.imp fun hab => hab.ne

/-- Sorting does not make two elements with one key increase. -/
theorem nodup_of_increasing_sortBy (h : Increasing f (sortBy f l)) : (l.map f).Nodup :=
  (((List.mergeSort_perm l _).map f).nodup_iff).mp h.nodup

theorem Increasing.sortBy_eq (h : Increasing f l) : sortBy f l = l := by
  apply List.mergeSort_of_pairwise
  refine List.Pairwise.imp ?_ h
  intro a b hab
  exact decide_eq_true hab.le

/-- An element in the middle has a key between the others. -/
theorem increasing_middle : Increasing f (pre ++ k :: post) ↔
    Increasing f (pre ++ post) ∧ (∀ a ∈ pre, f a < f k) ∧ ∀ b ∈ post, f k < f b := by
  simp only [Increasing, List.pairwise_append, List.pairwise_cons, List.mem_cons]
  constructor
  · rintro ⟨hpre, ⟨hk, hpost⟩, hcross⟩
    refine ⟨⟨hpre, hpost, ?_⟩, ?_, hk⟩
    · intro a ha b hb
      exact hcross a ha b (.inr hb)
    · intro a ha
      exact hcross a ha k (.inl rfl)
  · rintro ⟨⟨hpre, hpost, hcross⟩, hbefore, hafter⟩
    refine ⟨hpre, ⟨hafter, hpost⟩, ?_⟩
    rintro a ha b (rfl | hb)
    · exact hbefore a ha
    · exact hcross a ha b hb

theorem Increasing.erase (h : Increasing f (pre ++ k :: post)) : Increasing f (pre ++ post) :=
  (increasing_middle.mp h).1

/-- The place of a key that is not in the list. -/
theorem Increasing.exists_place (h : Increasing f l) {b : β} (hb : ∀ a ∈ l, f a ≠ b) :
    ∃ pre post, l = pre ++ post ∧ (∀ a ∈ pre, f a < b) ∧ ∀ a ∈ post, b < f a := by
  induction l with
  | nil => exact ⟨[], [], rfl, by simp, by simp⟩
  | cons a l ih =>
      obtain ⟨ha, hl⟩ := List.pairwise_cons.mp h
      rcases lt_or_gt_of_ne (hb a List.mem_cons_self) with hlt | hgt
      · obtain ⟨pre, post, rfl, hpre, hpost⟩ :=
          ih hl fun c hc => hb c (List.mem_cons_of_mem _ hc)
        exact ⟨a :: pre, post, rfl, List.forall_mem_cons.mpr ⟨hlt, hpre⟩, hpost⟩
      · refine ⟨[], a :: l, rfl, by simp, List.forall_mem_cons.mpr ⟨hgt, ?_⟩⟩
        intro c hc
        exact hgt.trans (ha c hc)

/-- A new element at the end is sorted into its place. -/
theorem Increasing.sortBy_append_singleton (h : Increasing f l) (hk : ∀ a ∈ l, f a ≠ f k) :
    ∃ pre post, l = pre ++ post ∧ sortBy f (l ++ [k]) = pre ++ k :: post ∧
      Increasing f (pre ++ k :: post) := by
  obtain ⟨pre, post, rfl, hpre, hpost⟩ := h.exists_place hk
  have hincreasing : Increasing f (pre ++ k :: post) := increasing_middle.mpr ⟨h, hpre, hpost⟩
  refine ⟨pre, post, rfl, ?_, hincreasing⟩
  have hperm : (pre ++ post ++ [k]).Perm (pre ++ k :: post) := by
    rw [List.append_assoc]
    exact (show (post ++ [k]).Perm ([k] ++ post) from List.perm_append_comm).append_left pre
  have hsorted : (sortBy f (pre ++ post ++ [k])).Pairwise fun a b => f a ≤ f b := by
    refine List.Pairwise.imp of_decide_eq_true (List.pairwise_mergeSort ?_ ?_ _)
    · intro a b c hab hbc
      exact decide_eq_true ((of_decide_eq_true hab).trans (of_decide_eq_true hbc))
    · intro a b
      simpa using le_total (f a) (f b)
  have hunique : ∀ a b, a ∈ pre ++ k :: post → b ∈ pre ++ k :: post → f a = f b → a = b := by
    intro a b ha hb hab
    obtain ⟨i, hi, rfl⟩ := List.mem_iff_getElem.mp ha
    obtain ⟨j, hj, rfl⟩ := List.mem_iff_getElem.mp hb
    rcases lt_trichotomy i j with hij | rfl | hij
    · exact absurd hab (List.pairwise_iff_getElem.mp hincreasing i j hi hj hij).ne
    · rfl
    · exact absurd hab (List.pairwise_iff_getElem.mp hincreasing j i hj hi hij).ne'
  have hsort := (List.mergeSort_perm (pre ++ post ++ [k]) fun a b => decide (f a ≤ f b)).trans hperm
  refine List.Perm.eq_of_pairwise ?_ hsorted (hincreasing.imp fun hab => hab.le) hsort
  intro a b ha hb hab hba
  exact hunique a b (hsort.subset ha) hb (le_antisymm hab hba)

/-- An element may be replaced by one between its neighbours. -/
theorem Increasing.replace (h : Increasing f (pre ++ k :: post))
    (hpre : ∀ a, pre.getLast? = some a → f a < f k') (hpost : ∀ b, post.head? = some b →
    f k' < f b) :
    Increasing f (pre ++ k' :: post) := by
  obtain ⟨hrest, -, -⟩ := increasing_middle.mp h
  refine increasing_middle.mpr ⟨hrest, ?_, ?_⟩
  · intro a ha
    rcases List.eq_nil_or_concat' pre with rfl | ⟨pre', last, rfl⟩
    · cases ha
    · have hlast := hpre last (by simp)
      rcases List.mem_append.mp ha with hmem | hmem
      · refine lt_trans ?_ hlast
        rw [Increasing, List.pairwise_append, List.pairwise_append] at hrest
        exact hrest.1.2.2 a hmem last (List.mem_singleton_self _)
      · rw [List.mem_singleton.mp hmem]
        exact hlast
  · intro b hb
    cases post with
    | nil => cases hb
    | cons first post' =>
        have hfirst := hpost first rfl
        rcases List.mem_cons.mp hb with rfl | hmem
        · exact hfirst
        · rw [Increasing, List.pairwise_append, List.pairwise_cons] at hrest
          exact hfirst.trans (hrest.2.1.1 b hmem)

end GatoCore.Lib
