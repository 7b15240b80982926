import GatoCore.Lib.Lists
import GatoCore.Stdlib.Values

/-!
# Tensors

Source: `flattenNumbers`, `inferShape` and `tensor` of `stdlib/ptstdlib.js`.

The shape of a nested array is read off its first elements, its data off all of them. The loop of
`inferShape` puts an empty array in the place of a first element that is missing, and so does not
get past it.
-/

namespace GatoCore.Stdlib

open GatoCore.Lib

variable {F R : Type}

mutual

def flattenNumbers : JsValue F R → List (JsValue F R)
  | .array items => flattenItems items
  | .number shown int32 => [.number shown int32]
  | _ => []

/-- The numbers in the elements of an array. -/
def flattenItems : List (JsValue F R) → List (JsValue F R)
  | [] => []
  | item :: items => flattenNumbers item ++ flattenItems items

end

/-- The loop of `inferShape`; `none` when it takes more than `fuel` turns. -/
def shapeLoop : ℕ → JsValue F R → List ℕ → Option (List ℕ)
  | 0, _, _ => none
  | fuel + 1, .array items, shape =>
      shapeLoop fuel (items.head?.getD (.array [])) (shape ++ [items.length])
  | _ + 1, _, shape => some shape

def inferShape (fuel : ℕ) (value : JsValue F R) : Option (List ℕ) :=
  match value with
  | .array items => shapeLoop fuel (.array items) []
  | _ => some []

structure Tensor (F R : Type) where
  forma : List (JsValue F R)
  dados : List (JsValue F R)

def tensor (fuel : ℕ) (data shape : JsValue F R) : Option (Tensor F R) :=
  match shape with
  | .array shape => some ⟨shape, flattenNumbers data⟩
  | _ => (inferShape fuel data).map fun inferred =>
      ⟨inferred.map fun n : ℕ => .int n, flattenNumbers data⟩

/-! ## Nested arrays -/

mutual

/-- Going down from first element to first element, there is no empty array. -/
def FirstsFull : JsValue F R → Prop
  | .array items => FirstFull items
  | _ => True

/-- The same of the elements of an array. -/
def FirstFull : List (JsValue F R) → Prop
  | [] => False
  | item :: _ => FirstsFull item

end

/-- A rectangular nested array of numbers, with its dimensions. -/
inductive Rectangular : List ℕ → JsValue F R → Prop
  | number (shown : Text) (int32 : ℤ) : Rectangular [] (.number shown int32)
  | array {dims : List ℕ} {items : List (JsValue F R)} (h : ∀ item ∈ items, Rectangular dims item) :
      Rectangular (items.length :: dims) (.array items)

/-- The element at an index. -/
def elementAt : JsValue F R → List ℕ → Option (JsValue F R)
  | value, [] => some value
  | .array items, i :: index => items[i]?.bind fun item => elementAt item index
  | _, _ :: _ => none

/-- The place of an index when the last one runs fastest. -/
def rowMajor : List ℕ → List ℕ → ℕ
  | _ :: dims, i :: index => i * dims.prod + rowMajor dims index
  | _, _ => 0

/-! ## The loop -/

mutual

/-- The loop ends for every value whose first elements are there. -/
theorem shapeLoop_of_firstsFull : (value : JsValue F R) → FirstsFull value →
    ∃ fuel, ∀ shape, ∃ inferred, shapeLoop fuel value shape = some inferred
  | .array items, h => by
      obtain ⟨fuel, hfuel⟩ := shapeLoop_of_firstFull items h
      exact ⟨fuel + 1, fun shape => hfuel (shape ++ [items.length])⟩
  | .undefined, _ | .null, _ | .bool _, _ | .number _ _, _ | .text _, _ | .bytes _, _
  | .function _, _ | .regexp _, _ | .object _ _, _ => ⟨1, fun shape => ⟨shape, rfl⟩⟩

theorem shapeLoop_of_firstFull : (items : List (JsValue F R)) → FirstFull items →
    ∃ fuel, ∀ shape, ∃ inferred,
      shapeLoop fuel (items.head?.getD (.array [])) shape = some inferred
  | [], h => h.elim
  | item :: _, h => shapeLoop_of_firstsFull item h

end

/-- An empty array is never left. -/
theorem shapeLoop_empty (fuel : ℕ) : ∀ shape : List ℕ,
    shapeLoop fuel (.array [] : JsValue F R) shape = none := by
  induction fuel with
  | zero => exact fun shape => rfl
  | succ fuel ih => exact fun shape => ih _

/-- Where the loop ends, the first elements were there. -/
theorem firstsFull_of_shapeLoop {fuel : ℕ} : ∀ {value : JsValue F R} {shape inferred : List ℕ},
    shapeLoop fuel value shape = some inferred → FirstsFull value := by
  induction fuel with
  | zero => exact fun h => nomatch h
  | succ fuel ih =>
      intro value shape inferred h
      cases value with
      | array items =>
          cases items with
          | nil =>
              rw [shapeLoop_empty] at h
              cases h
          | cons item items =>
              have hnext : shapeLoop fuel item (shape ++ [(item :: items).length]) =
                some inferred := h
              show FirstsFull item
              exact ih hnext
      | _ => exact trivial

theorem inferShape_terminates_iff (value : JsValue F R) :
    (∃ fuel inferred, inferShape fuel value = some inferred) ↔ FirstsFull value := by
  constructor
  · rintro ⟨fuel, inferred, h⟩
    cases value with
    | array items => exact firstsFull_of_shapeLoop h
    | _ => exact trivial
  · intro h
    obtain ⟨fuel, hfuel⟩ := shapeLoop_of_firstsFull value h
    cases value with
    | array items => exact ⟨fuel, hfuel []⟩
    | _ => exact ⟨0, [], rfl⟩

/-- The loop reads off the dimensions of a rectangular array. -/
theorem shapeLoop_rectangular {dims : List ℕ} {value : JsValue F R} (h : Rectangular dims value) :
    FirstsFull value → ∃ fuel, ∀ shape, shapeLoop fuel value shape = some (shape ++ dims) := by
  induction h with
  | number shown int32 => exact fun _ => ⟨1, fun shape => by rw [List.append_nil]; rfl⟩
  | @array dims items hitems ih =>
      intro hfull
      cases items with
      | nil => exact hfull.elim
      | cons item items =>
          obtain ⟨fuel, hfuel⟩ := ih item List.mem_cons_self hfull
          refine ⟨fuel + 1, fun shape => ?_⟩
          show shapeLoop fuel item (shape ++ [(item :: items).length]) = _
          rw [hfuel, List.append_assoc]
          rfl

/-! ## The data -/

theorem flattenItems_eq (items : List (JsValue F R)) :
    flattenItems items = items.flatMap flattenNumbers := by
  induction items with
  | nil => rfl
  | cons item items ih => rw [flattenItems, ih, List.flatMap_cons]

/-- There are as many numbers as the dimensions say. -/
theorem length_flattenNumbers {dims : List ℕ} {value : JsValue F R} (h : Rectangular dims value) :
    (flattenNumbers value).length = dims.prod := by
  induction h with
  | number shown int32 => rfl
  | @array dims items hitems ih =>
      rw [flattenNumbers, flattenItems_eq, List.length_flatMap, List.prod_cons,
        List.map_congr_left ih, List.map_const', List.sum_replicate_nat]

/-- The number at an index stands at its row-major place. -/
theorem getElem?_flattenNumbers {dims : List ℕ} {value : JsValue F R} (h : Rectangular dims value) :
    ∀ {index : List ℕ}, List.Forall₂ (· < ·) index dims →
      (flattenNumbers value)[rowMajor dims index]? = elementAt value index ∧
        rowMajor dims index < dims.prod := by
  induction h with
  | number shown int32 =>
      intro index hindex
      cases hindex
      exact ⟨rfl, Nat.one_pos⟩
  | @array dims items hitems ih =>
      intro index hindex
      cases hindex with
      | @cons i _ index _ hi hindex =>
          have hitem := List.getElem?_eq_getElem hi
          obtain ⟨hrest, hlt⟩ := ih items[i] (List.getElem_mem hi) hindex
          constructor
          · rw [flattenNumbers, flattenItems_eq, rowMajor,
              getElem?_flatMap (fun item hmem => length_flattenNumbers (hitems item hmem))
                hitem hlt,
              hrest, elementAt, hitem]
            rfl
          · rw [rowMajor, List.prod_cons]
            calc i * dims.prod + rowMajor dims index < (i + 1) * dims.prod := by
                  rw [Nat.add_mul, Nat.one_mul]
                  exact Nat.add_lt_add_left hlt _
              _ ≤ items.length * dims.prod := Nat.mul_le_mul_right _ hi

/-! ## Tensors of rectangular arrays -/

/-- The tensor of a rectangular array: its shape, and its numbers in row-major order. -/
structure Laid (dims : List ℕ) (value : JsValue F R) (t : Tensor F R) : Prop where
  forma : t.forma = dims.map fun n : ℕ => .int n
  length : dims.prod = t.dados.length
  dados : ∀ index, List.Forall₂ (· < ·) index dims →
    t.dados[rowMajor dims index]? = elementAt value index

/-- `inferShape` ends, and a rectangular array becomes a tensor that is laid out by its shape. -/
def Inferred (value : JsValue F R) : Prop :=
  (∃ fuel inferred, inferShape fuel value = some inferred) ∧
    ∀ dims, Rectangular dims value →
      ∃ fuel t, tensor fuel value .undefined = some t ∧ Laid dims value t

/-- Shapes are inferred exactly when no empty array is met on the way down. -/
theorem inferred_iff (value : JsValue F R) : Inferred value ↔ FirstsFull value := by
  constructor
  · exact fun h => (inferShape_terminates_iff value).mp h.1
  · intro hfull
    refine ⟨(inferShape_terminates_iff value).mpr hfull, fun dims h => ?_⟩
    have hshape : ∃ fuel, inferShape fuel value = some dims := by
      obtain ⟨fuel, hfuel⟩ := shapeLoop_rectangular h hfull
      cases h with
      | number shown int32 => exact ⟨0, rfl⟩
      | array hitems => exact ⟨fuel, hfuel []⟩
    obtain ⟨fuel, hfuel⟩ := hshape
    refine ⟨fuel, ⟨dims.map fun n : ℕ => .int n, flattenNumbers value⟩, ?_, rfl, ?_, ?_⟩
    · show (inferShape fuel value).map _ = _
      rw [hfuel]
      rfl
    · exact (length_flattenNumbers h).symm
    · exact fun index hindex => (getElem?_flattenNumbers h hindex).1

/-- The loop does not end for `[]`, nor for a rectangle without columns. -/
theorem empty_array_never_ends :
    ¬ (∀ value : JsValue Unit Unit, Inferred value) ∧
      (∀ fuel, inferShape fuel (.array [] : JsValue Unit Unit) = none) ∧
      ∀ fuel, inferShape fuel (.array [.array [], .array []] : JsValue Unit Unit) = none := by
  refine ⟨fun hall => ?_, fun fuel => shapeLoop_empty fuel [], fun fuel => ?_⟩
  · obtain ⟨fuel, inferred, h⟩ := (hall (.array [])).1
    rw [inferShape, shapeLoop_empty] at h
    cases h
  · cases fuel with
    | zero => rfl
    | succ fuel => exact shapeLoop_empty fuel _

end GatoCore.Stdlib
