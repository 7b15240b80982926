import GatoCore.Stdlib.Structures
import Mathlib.Data.Nat.ModEq
import Mathlib.Tactic.NormNum

/-!
# The circular queue as a bounded list

The elements are those of the cells from the head on, as many as are counted.
-/

namespace GatoCore.Stdlib

open GatoCore.Lib

/-! ## The bounded list -/

/-- A list that takes no more than `cap` elements. -/
def boundedStep {α : Type} (cap : ℕ) : Machine (List α) (CircularOp α) (CircularAnswer α)
  | xs, .empurrar value =>
      if xs.length < cap then (xs ++ [value], .ok (xs.length + 1) cap) else (xs, .filaCheia cap)
  | xs, .tirar => (xs.tail, .ofOption xs.head?)
  | xs, .espiar => (xs, .ofOption xs.head?)
  | xs, .listar => (xs, .list xs)
  | _, .limpar => ([], .number 0)
  | xs, .tamanho => (xs, .number xs.length)
  | xs, .vazia => (xs, .bool (xs.length = 0))
  | xs, .cheia => (xs, .bool (xs.length = cap))

theorem boundedStep_length {α : Type} {cap : ℕ} {xs : List α} (h : xs.length ≤ cap)
    (op : CircularOp α) : (boundedStep cap xs op).1.length ≤ cap := by
  cases op with
  | empurrar value =>
      rw [boundedStep]
      split
      · rw [List.length_append]
        exact ‹xs.length < cap›
      · exact h
  | tirar =>
      show xs.tail.length ≤ cap
      rw [List.length_tail]
      omega
  | limpar => exact Nat.zero_le cap
  | _ => exact h

/-! ## The indices -/

namespace Circular

variable {α : Type} {undefined : α} {q : Circular α}

/-- How the three indices hang together. -/
structure Indexed (q : Circular α) : Prop where
  head_lt : q.head < q.cap
  count_le : q.count ≤ q.cap
  tail_eq : q.tail = (q.head + q.count) % q.cap

theorem Indexed.cap_pos (h : q.Indexed) : 0 < q.cap := Nat.zero_lt_of_lt h.head_lt

theorem Indexed.tail_lt (h : q.Indexed) : q.tail < q.cap := by
  rw [h.tail_eq]
  exact Nat.mod_lt _ h.cap_pos

/-- Cells less than a whole turn apart are different ones. -/
theorem cell_inj {head cap i j : ℕ} (hi : i < cap) (hj : j < cap)
    (h : (head + i) % cap = (head + j) % cap) : i = j := by
  have hmod : i ≡ j [MOD cap] := Nat.ModEq.add_left_cancel' head h
  rwa [Nat.ModEq, Nat.mod_eq_of_lt hi, Nat.mod_eq_of_lt hj] at hmod

theorem filaCircular_eq (undefined : α) (capacity : JsNumber) :
    filaCircular undefined capacity =
      if max 1 (intOr capacity 0) < 2 ^ 32 then
        some ⟨max 1 (intOr capacity 0), fun _ => undefined, 0, 0, 0⟩
      else none := by
  have hmax : (if intOr capacity 0 = 0 then 1 else intOr capacity 0) =
      max 1 (intOr capacity 0) := by
    split <;> omega
  rw [filaCircular, hmax]
  simp only [validArrayLength, decide_eq_true_eq]

theorem indexed_new {cap : ℕ} (h : 0 < cap) :
    (⟨cap, fun _ => undefined, 0, 0, 0⟩ : Circular α).Indexed :=
  ⟨h, Nat.zero_le _, (Nat.zero_mod _).symm⟩

/-! ## One operation -/

@[simp] theorem listar_length (q : Circular α) : q.listar.length = q.count := by
  simp [listar]

theorem listar_head? (h : q.Indexed) (hcount : q.count ≠ 0) :
    q.listar.head? = some (q.slots q.head) := by
  obtain ⟨n, hn⟩ := Nat.exists_eq_succ_of_ne_zero hcount
  rw [listar, hn, List.range_succ_eq_map]
  simp [Nat.mod_eq_of_lt h.head_lt]

theorem listar_eq_nil (hcount : q.count = 0) : q.listar = [] := by
  simp [listar, hcount]

/-- The cell at the tail is that of no element. -/
theorem empurrar_listar (h : q.Indexed) (hcount : q.count < q.cap) (value : α) :
    (q.empurrar value).1.listar = q.listar ++ [value] := by
  rw [empurrar, if_neg (Nat.not_le.mpr hcount)]
  simp only [listar]
  rw [List.range_succ, List.map_append]
  congr 1
  · apply List.map_congr_left
    intro i hi
    have hi := List.mem_range.mp hi
    apply Function.update_of_ne
    rw [h.tail_eq]
    intro hcell
    have := cell_inj (hi.trans hcount) hcount hcell
    omega
  · simp [h.tail_eq]

/-- The cell at the head is that of the first element only. -/
theorem tirar_listar (h : q.Indexed) (hcount : q.count ≠ 0) :
    (q.tirar undefined).1.listar = q.listar.tail := by
  obtain ⟨n, hn⟩ := Nat.exists_eq_succ_of_ne_zero hcount
  have hle := h.count_le
  rw [tirar, if_neg hcount]
  simp only [listar]
  rw [hn, List.range_succ_eq_map, List.map_cons, List.tail_cons, List.map_map,
    Nat.add_sub_cancel (n := n) (m := 1)]
  apply List.map_congr_left
  intro i hi
  have hi := List.mem_range.mp hi
  have hcell : (q.head + 1) % q.cap + i ≡ q.head + (i + 1) [MOD q.cap] := by
    have hmod : (q.head + 1) % q.cap ≡ q.head + 1 [MOD q.cap] := Nat.mod_modEq _ _
    have hsum := hmod.add_right i
    rwa [Nat.add_assoc, Nat.add_comm 1 i] at hsum
  have hne : (q.head + (i + 1)) % q.cap ≠ q.head := by
    intro heq
    have hzero : (q.head + 0) % q.cap = q.head := Nat.mod_eq_of_lt h.head_lt
    have := cell_inj (by omega) h.cap_pos (heq.trans hzero.symm)
    omega
  show Function.update q.slots q.head undefined (((q.head + 1) % q.cap + i) % q.cap) =
    q.slots ((q.head + (i + 1)) % q.cap)
  rw [hcell]
  exact Function.update_of_ne hne _ _

theorem indexed_step (h : q.Indexed) (op : CircularOp α) :
    (circularStep undefined q op).1.Indexed ∧ (circularStep undefined q op).1.cap = q.cap := by
  cases op with
  | empurrar value =>
      by_cases hfull : q.count ≥ q.cap
      · rw [circularStep, empurrar, if_pos hfull]
        exact ⟨h, rfl⟩
      · rw [circularStep, empurrar, if_neg hfull]
        refine ⟨⟨h.head_lt, Nat.not_le.mp hfull, ?_⟩, rfl⟩
        show (q.tail + 1) % q.cap = (q.head + (q.count + 1)) % q.cap
        rw [h.tail_eq, Nat.mod_add_mod, Nat.add_assoc]
  | tirar =>
      by_cases hempty : q.count = 0
      · rw [circularStep, tirar, if_pos hempty]
        exact ⟨h, rfl⟩
      · rw [circularStep, tirar, if_neg hempty]
        have hle := h.count_le
        refine ⟨⟨Nat.mod_lt _ h.cap_pos, ?_, ?_⟩, rfl⟩
        · show q.count - 1 ≤ q.cap
          omega
        · show q.tail = ((q.head + 1) % q.cap + (q.count - 1)) % q.cap
          rw [h.tail_eq, Nat.mod_add_mod]
          congr 1
          omega
  | limpar => exact ⟨⟨h.cap_pos, Nat.zero_le _, (Nat.zero_mod _).symm⟩, rfl⟩
  | _ => exact ⟨h, rfl⟩

/-- An operation is that of the bounded list. -/
theorem circularStep_spec (h : q.Indexed) (op : CircularOp α) :
    ((circularStep undefined q op).1.listar, (circularStep undefined q op).2) =
      boundedStep q.cap q.listar op := by
  have hhead : q.count ≠ 0 → q.listar.head? = some (q.slots q.head) := listar_head? h
  cases op with
  | empurrar value =>
      rw [boundedStep, listar_length]
      by_cases hfull : q.count < q.cap
      · rw [if_pos hfull]
        refine Prod.ext (empurrar_listar h hfull value) ?_
        simp [circularStep, empurrar, Nat.not_le.mpr hfull]
      · rw [if_neg hfull, circularStep, empurrar, if_pos (Nat.not_lt.mp hfull)]
  | tirar =>
      by_cases hempty : q.count = 0
      · simp [circularStep, tirar, boundedStep, hempty, listar_eq_nil hempty,
          CircularAnswer.ofOption]
      · refine Prod.ext (tirar_listar h hempty) ?_
        simp [circularStep, tirar, boundedStep, hempty, hhead hempty, CircularAnswer.ofOption]
  | espiar =>
      by_cases hempty : q.count = 0
      · simp [circularStep, espiar, boundedStep, hempty, listar_eq_nil hempty,
          CircularAnswer.ofOption]
      · simp [circularStep, espiar, boundedStep, hempty, hhead hempty, CircularAnswer.ofOption]
  | limpar => rfl
  | listar => rfl
  | tamanho | vazia | cheia => simp [circularStep, boundedStep]

/-! ## Whole runs -/

/-- What holds of a queue after some operations: its answers and its elements are those of the
bounded list, and the indices hang together. -/
structure Refines (undefined : α) (cap : ℕ) (start : Circular α) (ops : List (CircularOp α)) :
    Prop where
  answers : ((circularStep undefined).run start ops).2 = ((boundedStep cap).run [] ops).2
  elements : ((circularStep undefined).run start ops).1.listar = ((boundedStep cap).run [] ops).1
  bounded : ((boundedStep cap).run ([] : List α) ops).1.length ≤ cap
  capacity : ((circularStep undefined).run start ops).1.cap = cap
  count_le : ((circularStep undefined).run start ops).1.count ≤ cap
  head_lt : ((circularStep undefined).run start ops).1.head < cap
  tail_lt : ((circularStep undefined).run start ops).1.tail < cap
  tail_eq : ((circularStep undefined).run start ops).1.tail =
    (((circularStep undefined).run start ops).1.head +
      ((circularStep undefined).run start ops).1.count) % cap
  full : ((circularStep undefined).run start ops).1.count = cap → ∀ value,
    circularStep undefined ((circularStep undefined).run start ops).1 (.empurrar value) =
      (((circularStep undefined).run start ops).1, .filaCheia cap)

theorem refines_run {start : Circular α} (hstart : start.Indexed) (hempty : start.count = 0)
    (ops : List (CircularOp α)) : Refines undefined start.cap start ops := by
  have hsim : Machine.Simulates
      (fun q xs => (q.Indexed ∧ q.cap = start.cap) ∧ q.listar = xs) (circularStep undefined)
      (boundedStep start.cap) := by
    rintro q xs op ⟨⟨hq, hcap⟩, rfl⟩
    obtain ⟨hq', hcap'⟩ : (circularStep undefined q op).1.Indexed ∧ _ := indexed_step hq op
    have hop : (_, (circularStep undefined q op).2) = _ := circularStep_spec hq op
    rw [hcap] at hop
    exact ⟨⟨⟨hq', hcap'.trans hcap⟩, congrArg Prod.fst hop⟩, congrArg Prod.snd hop⟩
  obtain ⟨⟨⟨hq, hcap⟩, helements⟩, hanswers⟩ :=
    hsim.run ⟨⟨hstart, rfl⟩, listar_eq_nil hempty⟩ ops
  have hkeeps : (boundedStep start.cap).Preserves fun xs : List α => xs.length ≤ start.cap :=
    fun xs op hxs => boundedStep_length hxs op
  have hbounded : ((boundedStep start.cap).run ([] : List α) ops).1.length ≤ start.cap :=
    hkeeps.run (Nat.zero_le _) ops
  constructor
  · exact hanswers
  · exact helements
  · exact hbounded
  · exact hcap
  · rw [← hcap]
    exact hq.count_le
  · rw [← hcap]
    exact hq.head_lt
  · rw [← hcap]
    exact hq.tail_lt
  · rw [← hcap]
    exact hq.tail_eq
  · intro hfull value
    rw [circularStep, empurrar, if_pos (by rw [hfull, hcap]), hcap]

end Circular

/-- From every capacity that is a number below `2 ^ 32`, the circular queue is a list of at most
`max 1 ⌊capacity⌋` elements. -/
theorem fila_circular_refines {α : Type} (undefined : α) {capacity : ℚ} (h : capacity < 2 ^ 32) :
    ∃ (start : Circular α) (cap : ℕ), filaCircular undefined (.finite capacity) = some start ∧
      (cap : ℤ) = max 1 capacity.floor ∧
      ∀ ops, Circular.Refines undefined cap start ops := by
  have hfloor : capacity.floor < 2 ^ 32 := by
    rw [Rat.floor_lt_iff]
    exact_mod_cast h
  have hcap : max 1 capacity.floor.toNat < 2 ^ 32 := by omega
  have hpos : 0 < max 1 capacity.floor.toNat := by omega
  let start : Circular α := ⟨max 1 capacity.floor.toNat, fun _ => undefined, 0, 0, 0⟩
  refine ⟨start, start.cap, ?_, ?_, Circular.refines_run (Circular.indexed_new hpos) rfl⟩
  · rw [Circular.filaCircular_eq, intOr, if_pos hcap]
  · show ((max 1 capacity.floor.toNat : ℕ) : ℤ) = max 1 capacity.floor
    omega

/-- A queue of two and a half places. -/
theorem fila_circular_refines_two :
    ∃ (start : Circular ℕ) (cap : ℕ), filaCircular 0 (.finite (5 / 2)) = some start ∧
      (cap : ℤ) = max 1 (5 / 2 : ℚ).floor ∧ ∀ ops, Circular.Refines 0 cap start ops :=
  fila_circular_refines 0 (by norm_num)

end GatoCore.Stdlib
