import GatoCore.Stdlib.Bitset
import GatoCore.Stdlib.Structures

/-!
# Indices outside a structure

Source: `intOr`, `typedArraySpec` and `buildCompactVector`, and `bitset` and `pool` of
`specialFactories`, of `stdlib/ptstdlib.js`.

An index goes through `intOr` before it is compared with the capacity, and `intOr` makes zero of
whatever is negative or infinite. Such an index reaches the first element.
-/

namespace GatoCore.Stdlib

variable {F R : Type}

/-! ## Compact vectors -/

inductive TypedKind where
  | u8
  | u16
  | u32
  | i8
  | i16
  | i32
  | f32
  | f64
deriving DecidableEq

/-- What the operators of JavaScript make of a number. -/
def JsNumber.toInt32 : JsNumber → BitVec 32
  | .finite q => Stdlib.toInt32 (q.num.tdiv q.den)
  | _ => 0#32

/-- `value || 0`. -/
def JsNumber.orZero : JsNumber → JsNumber
  | .nan => .finite 0
  | n => n

/-- The element `cast` and the typed array make of a number; `fround` is the nearest number of 32
bits. -/
def TypedKind.element (fround : JsNumber → JsNumber) (kind : TypedKind) (value : JsNumber) :
    JsNumber :=
  match kind with
  | u8 => .finite (value.toInt32 &&& 0xff#32).toNat
  | u16 => .finite (value.toInt32 &&& 0xffff#32).toNat
  | u32 => .finite value.toInt32.toNat
  | i8 => .finite (value.toInt32.setWidth 8).toInt
  | i16 => .finite (value.toInt32.setWidth 16).toInt
  | i32 => .finite value.toInt32.toInt
  | f32 => fround value.orZero
  | f64 => value.orZero

structure CompactVector where
  tipo_dado : TypedKind
  dados : List JsNumber

namespace CompactVector

/-- An index outside the array stores nothing. -/
def definir (fround : JsNumber → JsNumber) (v : CompactVector) (index value : JsNumber) :
    CompactVector :=
  { v with dados := v.dados.set (intOr index 0) (v.tipo_dado.element fround value) }

def como_lista (v : CompactVector) : List JsNumber := v.dados

end CompactVector

/-! ## Calls with an index -/

inductive IndexCall (F R : Type) where
  | ativar (s : Bitset) (index : JsNumber)
  | limpar (s : Bitset) (index : JsNumber)
  | alternar (s : Bitset) (index : JsNumber)
  | liberar (s : PoolState F R) (index : JsNumber)
  | definir (v : CompactVector) (index value : JsNumber)

namespace IndexCall

def index : IndexCall F R → JsNumber
  | ativar _ i | limpar _ i | alternar _ i | liberar _ i | definir _ i _ => i

def capacity : IndexCall F R → ℕ
  | ativar s _ | limpar s _ | alternar s _ => s.bits
  | liberar s _ => s.cap
  | definir v _ _ => v.dados.length

end IndexCall

/-- A number below zero or from the capacity on. -/
def OutOfRange (cap : ℕ) : JsNumber → Prop
  | .nan => False
  | .infinity _ => True
  | .finite q => q < 0 ∨ (cap : ℚ) ≤ q

/-- Two bit sets that look the same. -/
structure Bitset.Alike (s t : Bitset) : Prop where
  contem : ∀ i, t.contem i = s.contem i
  contar : ∀ fuel, t.contar fuel = s.contar fuel

theorem Bitset.Alike.refl (s : Bitset) : s.Alike s := ⟨fun _ => rfl, fun _ => rfl⟩

/-- The call is refused, and what the structure shows stays as it was. -/
def Rejected (fround : JsNumber → JsNumber) : IndexCall F R → Prop
  | .ativar s i => (s.ativar i).2 = false ∧ s.Alike (s.ativar i).1
  | .limpar s i => (s.limpar i).2 = false ∧ s.Alike (s.limpar i).1
  | .alternar s i => (s.alternar i).2 = false ∧ s.Alike (s.alternar i).1
  | .liberar s i =>
      (∃ mensagem info, (s.liberar i).2.2 = .erro "slot_invalido" mensagem info) ∧
        (s.liberar i).1.listar = s.listar ∧ (s.liberar i).1.ativos = s.ativos
  | .definir v i value => (v.definir fround i value).como_lista = v.como_lista

/-- The first element, which the call may reach, is one the call would leave alone. -/
def FirstUntouched (fround : JsNumber → JsNumber) : IndexCall F R → Prop
  | .liberar s _ => (s.slots 0).isUndefined = true
  | .definir v _ value => v.dados.head? = some (v.tipo_dado.element fround value)
  | _ => False

/-- The index is a finite number from the capacity on, or there is nothing it could reach. -/
def Harmless (fround : JsNumber → JsNumber) (call : IndexCall F R) : Prop :=
  (∃ q : ℚ, call.index = .finite q ∧ (call.capacity : ℚ) ≤ q) ∨ call.capacity = 0 ∨
    FirstUntouched fround call

/-! ## What `intOr` makes of them -/

theorem le_intOr {cap : ℕ} {q : ℚ} (h : (cap : ℚ) ≤ q) : cap ≤ intOr (.finite q) 0 := by
  have hfloor : (cap : ℤ) ≤ q.floor := Rat.le_floor_iff.mpr h
  show cap ≤ q.floor.toNat
  omega

theorem intOr_eq_zero {cap : ℕ} {i : JsNumber} (h : OutOfRange cap i)
    (hbelow : ¬ ∃ q : ℚ, i = .finite q ∧ (cap : ℚ) ≤ q) : intOr i 0 = 0 := by
  cases i with
  | nan => exact h.elim
  | infinity _ => rfl
  | finite q =>
      have hneg : q < 0 := h.resolve_right fun hle => hbelow ⟨q, rfl, hle⟩
      have hfloor : q.floor < 0 := Rat.floor_lt_iff.mpr hneg
      show q.floor.toNat = 0
      omega

/-- An index outside the structure stays outside or becomes zero. -/
theorem normalised_cases {cap : ℕ} {i : JsNumber} (h : OutOfRange cap i) :
    (∃ q : ℚ, i = .finite q ∧ (cap : ℚ) ≤ q) ∧ cap ≤ intOr i 0 ∨
      (¬ ∃ q : ℚ, i = .finite q ∧ (cap : ℚ) ≤ q) ∧ intOr i 0 = 0 := by
  by_cases hbelow : ∃ q : ℚ, i = .finite q ∧ (cap : ℚ) ≤ q
  · obtain ⟨q, rfl, hq⟩ := hbelow
    exact .inl ⟨⟨q, rfl, hq⟩, le_intOr hq⟩
  · exact .inr ⟨hbelow, intOr_eq_zero h hbelow⟩

/-! ## The structures -/

section Structures

variable {i : JsNumber}

/-- The three operations on a bit answer alike. -/
theorem bitset_rejected_iff {s : Bitset} (h : OutOfRange s.bits i) {res : Bitset × Bool}
    {changed : Bitset} (hres : res = if s.valid (intOr i 0) then (changed, true) else (s, false)) :
    (res.2 = false ∧ s.Alike res.1) ↔
      (∃ q : ℚ, i = .finite q ∧ (s.bits : ℚ) ≤ q) ∨ s.bits = 0 ∨ False := by
  have hvalid : s.valid (intOr i 0) = decide (intOr i 0 < s.bits) := rfl
  rw [hres, or_false, hvalid]
  rcases normalised_cases h with ⟨hbeyond, hle⟩ | ⟨hbelow, hzero⟩
  · rw [decide_eq_false (Nat.not_lt.mpr hle), if_neg Bool.false_ne_true]
    exact iff_of_true ⟨rfl, Bitset.Alike.refl s⟩ (.inl hbeyond)
  · rw [hzero, or_iff_right hbelow]
    by_cases hbits : s.bits = 0
    · rw [hbits, decide_eq_false (Nat.lt_irrefl 0), if_neg Bool.false_ne_true]
      exact iff_of_true ⟨rfl, Bitset.Alike.refl s⟩ rfl
    · rw [decide_eq_true (Nat.pos_of_ne_zero hbits), if_pos rfl]
      exact iff_of_false (fun hfalse => Bool.noConfusion hfalse.1) hbits

theorem liberar_of_refused {s : PoolState F R}
    (h : intOr i 0 ≥ s.cap ∨ (s.slots (intOr i 0)).isUndefined = true) :
    s.liberar i =
      (s, [], .erro "slot_invalido" "slot nao esta ocupado" [("indice", intOr i 0)]) := if_pos h

theorem pool_rejected_iff {s : PoolState F R} (fround : JsNumber → JsNumber)
    (h : OutOfRange s.cap i) :
    Rejected fround (.liberar s i) ↔
      (∃ q : ℚ, i = .finite q ∧ (s.cap : ℚ) ≤ q) ∨ s.cap = 0 ∨
        (s.slots 0).isUndefined = true := by
  have hrefused : intOr i 0 ≥ s.cap ∨ (s.slots (intOr i 0)).isUndefined = true →
      Rejected fround (.liberar s i) := by
    intro hr
    rw [Rejected, liberar_of_refused hr]
    exact ⟨⟨_, _, rfl⟩, rfl, rfl⟩
  constructor
  · intro hrej
    rcases normalised_cases h with ⟨hbeyond, -⟩ | ⟨-, hzero⟩
    · exact .inl hbeyond
    · right
      by_contra hfree
      rw [not_or] at hfree
      obtain ⟨⟨mensagem, info, herror⟩, -⟩ := hrej
      have htaken : ¬ (intOr i 0 ≥ s.cap ∨ (s.slots (intOr i 0)).isUndefined = true) := by
        rw [hzero, not_or]
        exact ⟨fun hle => hfree.1 (Nat.le_zero.mp hle), hfree.2⟩
      rw [PoolState.liberar, if_neg htaken] at herror
      cases herror
  · rintro (⟨q, rfl, hq⟩ | hcap | hslot)
    · exact hrefused (.inl (le_intOr hq))
    · exact hrefused (.inl (by rw [hcap]; exact Nat.zero_le _))
    · rcases normalised_cases h with ⟨-, hle⟩ | ⟨-, hzero⟩
      · exact hrefused (.inl hle)
      · exact hrefused (.inr (by rw [hzero]; exact hslot))

theorem set_zero_eq_iff {α : Type} (xs : List α) (x : α) :
    xs.set 0 x = xs ↔ xs.length = 0 ∨ xs.head? = some x := by
  cases xs with
  | nil => simp
  | cons y xs =>
      rw [List.set_cons_zero, List.cons.injEq, and_iff_left rfl, List.head?_cons, Option.some.injEq]
      simp [eq_comm]

theorem vector_rejected_iff {v : CompactVector} (fround : JsNumber → JsNumber)
    (h : OutOfRange v.dados.length i) (value : JsNumber) :
    (v.definir fround i value).como_lista = v.como_lista ↔
      (∃ q : ℚ, i = .finite q ∧ (v.dados.length : ℚ) ≤ q) ∨ v.dados.length = 0 ∨
        v.dados.head? = some (v.tipo_dado.element fround value) := by
  rw [CompactVector.como_lista, CompactVector.como_lista, CompactVector.definir]
  rcases normalised_cases h with ⟨hbeyond, hle⟩ | ⟨hbelow, hzero⟩
  · exact iff_of_true (List.set_eq_of_length_le hle) (.inl hbeyond)
  · rw [hzero, or_iff_right hbelow]
    exact set_zero_eq_iff _ _

end Structures

/-- An index outside the structure is rejected exactly when it is a finite number from the capacity
on or there is nothing it could change. -/
theorem rejected_iff (fround : JsNumber → JsNumber) (call : IndexCall F R)
    (h : OutOfRange call.capacity call.index) : Rejected fround call ↔ Harmless fround call := by
  cases call with
  | ativar s i => exact bitset_rejected_iff h rfl
  | limpar s i => exact bitset_rejected_iff h rfl
  | alternar s i => exact bitset_rejected_iff h rfl
  | liberar s i => exact pool_rejected_iff fround h
  | definir v i value => exact vector_rejected_iff fround h value

theorem rejected_iff_beyond :
    Rejected id (.definir ⟨.u8, [.finite 7]⟩ (.finite 1) (.finite 9) : IndexCall Unit Unit) ↔
      Harmless id (.definir ⟨.u8, [.finite 7]⟩ (.finite 1) (.finite 9) : IndexCall Unit Unit) :=
  rejected_iff id _ (.inr (by decide))

/-- The index `-1` sets bit 0, frees slot 0 and overwrites element 0. -/
theorem negative_index_reaches_first :
    ¬ (∀ call : IndexCall Unit Unit, OutOfRange call.capacity call.index → Rejected id call) ∧
    ¬ Rejected id (.ativar ⟨8, [0#32]⟩ (.finite (-1)) : IndexCall Unit Unit) ∧
    ¬ Rejected id (.liberar ⟨2, [1], fun i => if i = 0 then .bool true else .undefined⟩
      (.finite (-1)) : IndexCall Unit Unit) ∧
    ¬ Rejected id (.definir ⟨.u8, [.finite 7]⟩ (.finite (-1)) (.finite 9) :
      IndexCall Unit Unit) := by
  have hbit : ¬ Rejected id (.ativar ⟨8, [0#32]⟩ (.finite (-1)) : IndexCall Unit Unit) := by
    rintro ⟨hfalse, -⟩
    revert hfalse
    decide +kernel
  refine ⟨fun hall => ?_, hbit, ?_, ?_⟩
  · refine hbit (hall _ (.inl ?_))
    decide +kernel
  · rintro ⟨⟨mensagem, info, herror⟩, -⟩
    cases herror
  · intro hsame
    have hhead := congrArg List.head? hsame
    revert hhead
    decide +kernel

end GatoCore.Stdlib
