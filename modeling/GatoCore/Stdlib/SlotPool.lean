import GatoCore.Stdlib.Structures
import Mathlib.Data.List.Perm.Basic
import Mathlib.Data.List.Nodup

/-!
# The slots of a pool

A pool knows its free indices by a stack and its occupied ones by cells that are not `undefined`.
The two agree as long as every value stored is one.
-/

namespace GatoCore.Stdlib

open GatoCore.Lib
open scoped List

variable {F R : Type}

/-! ## The indices given out -/

/-- The indices held after an event. -/
def SlotEvent.apply (held : List ℕ) : SlotEvent → List ℕ
  | granted i => i :: held
  | released i => held.erase i

/-- The indices held after some events. -/
def heldAfter (held : List ℕ) (events : List SlotEvent) : List ℕ :=
  events.foldl SlotEvent.apply held

theorem heldAfter_append (held : List ℕ) (xs ys : List SlotEvent) :
    heldAfter held (xs ++ ys) = heldAfter (heldAfter held xs) ys :=
  List.foldl_append

/-! ## Code that returns values -/

mutual

/-- The code of the caller that an operation calls, if it calls any, returns a value other than
`undefined`. -/
def Answered (seed : PoolValue F R) (s : PoolState F R) : PoolOp F R → Prop
  | .alocar value calls stored =>
      match s.free with
      | [] => True
      | idx :: free =>
          match storedValue seed value idx with
          | some _ => True
          | none =>
              AllAnswered seed { s with free := free } calls ∧
                ∃ valor, stored = .ok valor ∧ valor.isUndefined = false
  | .liberar _ => True

/-- The same of operations in a row. -/
def AllAnswered (seed : PoolValue F R) (s : PoolState F R) : List (PoolOp F R) → Prop
  | [] => True
  | op :: ops => Answered seed s op ∧ AllAnswered seed (poolOp seed s op).1 ops

end

theorem copy_defined {value : PoolValue F R} {valor : JsValue F R}
    (hdefined : value ≠ .data .undefined) (h : value.copy = some valor) :
    valor.isUndefined = false := by
  cases value with
  | coded => cases h
  | data v =>
      cases h
      cases v with
      | object plain properties => cases plain <;> rfl
      | undefined => exact absurd rfl hdefined
      | _ => rfl

/-- A value stored without code of the caller is not `undefined`. -/
theorem storedValue_defined {seed value : PoolValue F R} {idx : ℕ} {valor : JsValue F R}
    (h : storedValue seed value idx = some valor) : valor.isUndefined = false := by
  unfold storedValue at h
  split at h
  · cases h
  · split at h
    · split at h
      · cases h
        rfl
      · rename_i hseed
        exact copy_defined hseed h
    · rename_i hvalue
      exact copy_defined hvalue h

/-! ## One operation -/

/-- The indices are the free ones, those of calls that are not finished and those held; the cells of
these are the occupied ones. -/
structure Accounts (s : PoolState F R) (pending held : List ℕ) : Prop where
  perm : (s.free ++ (pending ++ held)).Perm (List.range s.cap)
  occupied : ∀ i, (s.slots i).isUndefined = false ↔ i ∈ held

namespace Accounts

variable {s : PoolState F R} {pending held : List ℕ} {idx : ℕ} {free : List ℕ}

theorem nodup (h : Accounts s pending held) : (s.free ++ (pending ++ held)).Nodup :=
  h.perm.nodup_iff.mpr List.nodup_range

theorem mem_iff (h : Accounts s pending held) (i : ℕ) :
    i ∈ s.free ∨ i ∈ pending ∨ i ∈ held ↔ i < s.cap := by
  rw [← List.mem_append, ← List.mem_append, h.perm.mem_iff, List.mem_range]

/-- An index taken from the stack. -/
theorem pop (h : Accounts s pending held) (hfree : s.free = idx :: free) :
    Accounts { s with free := free } (idx :: pending) held := by
  refine ⟨?_, h.occupied⟩
  have hperm := h.perm
  rw [hfree] at hperm
  exact List.perm_middle.trans hperm

/-- A value stored in the cell of the index taken last. -/
theorem store (h : Accounts s (idx :: pending) held) {valor : JsValue F R}
    (hvalor : valor.isUndefined = false) : Accounts (s.store idx valor) pending (idx :: held) := by
  constructor
  · have hmiddle : (s.free ++ (pending ++ idx :: held)).Perm
        (s.free ++ (idx :: pending ++ held)) := List.perm_middle.append_left _
    exact hmiddle.trans h.perm
  · intro i
    rw [PoolState.store, List.mem_cons]
    by_cases hi : i = idx
    · rw [hi]
      simp [hvalor]
    · simp [hi, h.occupied i]

theorem lt_cap (h : Accounts s pending held) (hidx : idx ∈ held) : idx < s.cap :=
  (h.mem_iff idx).mp (Or.inr (Or.inr hidx))

/-- `liberar` takes back an index exactly when it is held. -/
theorem liberar_eq (h : Accounts s pending held) (n : JsNumber) :
    s.liberar n =
      if intOr n 0 ∈ held then
        ({ s.store (intOr n 0) .undefined with free := intOr n 0 :: s.free },
          [SlotEvent.released (intOr n 0)], PoolAnswer.liberado)
      else (s, [], .erro "slot_invalido" "slot nao esta ocupado" [("indice", intOr n 0)]) := by
  rw [PoolState.liberar]
  have hiff : (intOr n 0 ≥ s.cap ∨ (s.slots (intOr n 0)).isUndefined = true) ↔
      intOr n 0 ∉ held := by
    rw [← h.occupied, Bool.not_eq_false]
    constructor
    · rintro (hcap | hundefined)
      · by_contra hdefined
        have hmem := (h.occupied _).mp (by simpa using hdefined)
        exact absurd (h.lt_cap hmem) (Nat.not_lt.mpr hcap)
      · exact hundefined
    · exact Or.inr
  by_cases hmem : intOr n 0 ∈ held
  · rw [if_neg (fun hnot => hiff.mp hnot hmem), if_pos hmem]
  · rw [if_pos (hiff.mpr hmem), if_neg hmem]

theorem release (h : Accounts s pending held) (hidx : idx ∈ held) :
    Accounts { s.store idx .undefined with free := idx :: s.free } pending (held.erase idx) := by
  have hheld : held.Nodup := (h.nodup.of_append_right).of_append_right
  constructor
  · have herase : held.Perm (idx :: held.erase idx) := List.perm_cons_erase hidx
    have hmove :
        (s.free ++ (pending ++ held)).Perm (idx :: (s.free ++ (pending ++ held.erase idx))) := by
      calc s.free ++ (pending ++ held)
          _ ~ s.free ++ (pending ++ idx :: held.erase idx) :=
            (herase.append_left _).append_left _
          _ ~ s.free ++ (idx :: (pending ++ held.erase idx)) := List.perm_middle.append_left _
          _ ~ idx :: (s.free ++ (pending ++ held.erase idx)) := List.perm_middle
    exact hmove.symm.trans h.perm
  · intro i
    rw [hheld.mem_erase_iff]
    by_cases hi : i = idx
    · subst hi
      simp [PoolState.store, JsValue.isUndefined]
    · simp [PoolState.store, hi, h.occupied i]

end Accounts

mutual

/-- An operation keeps the accounts. -/
theorem accounts_op (seed : PoolValue F R) :
    ∀ (op : PoolOp F R) (s : PoolState F R) (pending held : List ℕ), Accounts s pending held →
      Answered seed s op →
      Accounts (poolOp seed s op).1 pending (heldAfter held (poolOp seed s op).2.1)
  | .liberar n, s, pending, held, h, _ => by
      rw [poolOp, h.liberar_eq n]
      split
      · rename_i hmem
        exact h.release hmem
      · exact h
  | .alocar value calls stored, s, pending, held, h, hanswered => by
      rw [poolOp]
      cases hfree : s.free with
      | nil => exact h
      | cons idx free =>
          have hpopped := h.pop hfree
          cases hsource : storedValue seed value idx with
          | some valor =>
              simp only [hsource]
              exact hpopped.store (storedValue_defined hsource)
          | none =>
              simp only [Answered, hfree, hsource] at hanswered
              -- the popped index is pending while the code of the caller uses the pool
              obtain ⟨hcalls, valor, rfl, hvalor⟩ := hanswered
              have hcalled := accounts_calls seed calls _ _ _ hpopped hcalls
              have hstored := hcalled.store hvalor
              simp only [hsource]
              rw [heldAfter_append]
              exact hstored

theorem accounts_calls (seed : PoolValue F R) :
    ∀ (ops : List (PoolOp F R)) (s : PoolState F R) (pending held : List ℕ),
      Accounts s pending held → AllAnswered seed s ops →
      Accounts (poolCalls seed s ops).1 pending (heldAfter held (poolCalls seed s ops).2)
  | [], s, pending, held, h, _ => h
  | op :: ops, s, pending, held, h, hanswered => by
      rw [AllAnswered] at hanswered
      obtain ⟨hop, hops⟩ := hanswered
      have hfirst := accounts_op seed op s pending held h hop
      have hrest := accounts_calls seed ops _ _ _ hfirst hops
      rw [poolCalls, heldAfter_append]
      exact hrest

end

/-! ## Whole runs -/

/-- The free indices and those held are the indices of the pool, each in one place, and the pool
counts and lists as many as are held. -/
structure Partitioned (s : PoolState F R) (held : List ℕ) : Prop where
  free_nodup : s.free.Nodup
  held_nodup : held.Nodup
  disjoint : ∀ i ∈ s.free, i ∉ held
  covers : ∀ i, i < s.cap ↔ i ∈ s.free ∨ i ∈ held
  ativos_eq : s.ativos = held.length
  listar_length : s.listar.length = held.length

/-- `liberar` succeeds exactly for an index that is held, and `alocar` exactly when one is not; when
it does not it changes nothing. -/
def OutcomeRight (seed : PoolValue F R) (s : PoolState F R) (held : List ℕ) : PoolOp F R → Prop
  | .liberar n => (poolOp seed s (.liberar n)).2.2 = .liberado ↔ intOr n 0 ∈ held
  | .alocar value calls stored =>
      let next := poolOp seed s (.alocar value calls stored)
      ((∃ idx valor, next.2.2 = .alocado idx valor) ↔ ∃ i < s.cap, i ∉ held) ∧
        ((¬∃ idx valor, next.2.2 = .alocado idx valor) → next.1 = s)

theorem Accounts.partitioned {s : PoolState F R} {held : List ℕ} (h : Accounts s [] held) :
    Partitioned s held := by
  have hnodup := h.nodup
  have hheld : held.Nodup := hnodup.of_append_right
  have hlength : s.free.length + held.length = s.cap := by
    have := h.perm.length_eq
    rwa [List.nil_append, List.length_append, List.length_range] at this
  have hcovers : ∀ i, i < s.cap ↔ i ∈ s.free ∨ i ∈ held := by
    intro i
    rw [← h.mem_iff i]
    simp
  constructor
  · exact hnodup.of_append_left
  · exact hheld
  · intro i hfree hi
    exact List.disjoint_of_nodup_append hnodup hfree hi
  · exact hcovers
  · rw [PoolState.ativos]
    omega
  · have hperm : ((List.range s.cap).filter fun i => !(s.slots i).isUndefined).Perm held := by
      rw [List.perm_ext_iff_of_nodup (List.nodup_range.filter _) hheld]
      intro i
      rw [List.mem_filter, List.mem_range, Bool.not_eq_true', h.occupied]
      exact ⟨And.right, fun hi => ⟨(hcovers i).mpr (Or.inr hi), hi⟩⟩
    rw [PoolState.listar, List.filter_map, List.length_map]
    exact hperm.length_eq

theorem Accounts.outcome {s : PoolState F R} {held : List ℕ} (h : Accounts s [] held)
    {seed : PoolValue F R} {op : PoolOp F R} (hanswered : Answered seed s op) :
    OutcomeRight seed s held op := by
  cases op with
  | liberar n =>
      rw [OutcomeRight, poolOp, h.liberar_eq]
      by_cases hn : intOr n 0 ∈ held <;> simp [hn]
  | alocar value calls stored =>
      have hpart := h.partitioned
      have hexists : (∃ i < s.cap, i ∉ held) ↔ s.free ≠ [] := by
        constructor
        · rintro ⟨i, hi, hheld⟩ hfree
          rcases (hpart.covers i).mp hi with hmem | hmem
          · rw [hfree] at hmem
            cases hmem
          · exact hheld hmem
        · intro hfree
          obtain ⟨i, hi⟩ := List.exists_mem_of_ne_nil _ hfree
          exact ⟨i, (hpart.covers i).mpr (Or.inl hi), hpart.disjoint i hi⟩
      rw [OutcomeRight, hexists, poolOp]
      cases hfree : s.free with
      | nil => simp
      | cons idx free =>
          cases hsource : storedValue seed value idx with
          | some valor => simp [hsource]
          | none =>
              simp only [Answered, hfree, hsource] at hanswered
              obtain ⟨-, valor, rfl, -⟩ := hanswered
              simp [hsource]

theorem allAnswered_append {seed : PoolValue F R} {s : PoolState F R} {xs ys : List (PoolOp F R)} :
    AllAnswered seed s (xs ++ ys) ↔
      AllAnswered seed s xs ∧ AllAnswered seed (poolCalls seed s xs).1 ys := by
  induction xs generalizing s with
  | nil => simp [AllAnswered, poolCalls]
  | cons op xs ih =>
      rw [List.cons_append, AllAnswered, AllAnswered, ih, and_assoc]
      rfl

/-- What holds of a pool in a run: every operation on the way has the right outcome, and the indices
are in order at its end. -/
structure PoolKept (seed : PoolValue F R) (start : PoolState F R) (ops : List (PoolOp F R)) :
    Prop where
  outcome : ∀ pre op post, ops = pre ++ op :: post →
    OutcomeRight seed (poolCalls seed start pre).1 (heldAfter [] (poolCalls seed start pre).2) op
  partitioned : Partitioned (poolCalls seed start ops).1 (heldAfter [] (poolCalls seed start ops).2)

end GatoCore.Stdlib
