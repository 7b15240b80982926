import GatoCore.Lib.Machine
import GatoCore.Stdlib.Numbers
import GatoCore.Stdlib.Values
import Mathlib.Logic.Function.Basic

/-!
# Structures of fixed capacity

Source: `fila_circular` and `pool` of `specialFactories` in `stdlib/ptstdlib.js`.

The argument of a factory or of an operation that is a number is taken as what `Number` makes of it.
A seed that is a function belongs to the caller, and so do the methods, the constructor and the
getters of a value that is copied: what they do with the pool and what they return are part of the
call.
-/

namespace GatoCore.Stdlib

open GatoCore.Lib

/-- `new Array(n)` takes no length from `2 ^ 32` on. -/
def validArrayLength (n : ℕ) : Bool := n < 2 ^ 32

/-! ## The circular queue -/

/-- Indices outside the array read `undefined`. -/
structure Circular (α : Type) where
  cap : ℕ
  slots : ℕ → α
  head : ℕ
  tail : ℕ
  count : ℕ

inductive CircularOp (α : Type) where
  | empurrar (value : α)
  | tirar
  | espiar
  | listar
  | limpar
  | tamanho
  | vazia
  | cheia

/-- What an operation returns. -/
inductive CircularAnswer (α : Type) where
  | ok (valor capacidade : ℕ)
  | erro (codigo mensagem : String) (capacidade : ℕ)
  | value (v : α)
  | null
  | number (n : ℕ)
  | bool (b : Bool)
  | list (xs : List α)

def CircularAnswer.filaCheia {α : Type} (cap : ℕ) : CircularAnswer α :=
  .erro "fila_cheia" "fila_circular atingiu capacidade maxima" cap

def CircularAnswer.ofOption {α : Type} : Option α → CircularAnswer α
  | some v => value v
  | none => null

section Circular

variable {α : Type} (undefined : α)

/-- `none` is the exception of `new Array`. -/
def filaCircular (capacity : JsNumber) : Option (Circular α) :=
  let cap := if intOr capacity 0 = 0 then 1 else intOr capacity 0
  if validArrayLength cap then some ⟨cap, fun _ => undefined, 0, 0, 0⟩ else none

namespace Circular

def empurrar (q : Circular α) (value : α) : Circular α × CircularAnswer α :=
  if q.count ≥ q.cap then (q, .filaCheia q.cap)
  else
    ({ q with
        slots := Function.update q.slots q.tail value
        tail := (q.tail + 1) % q.cap
        count := q.count + 1 }, .ok (q.count + 1) q.cap)

def tirar (q : Circular α) : Circular α × CircularAnswer α :=
  if q.count = 0 then (q, .null)
  else
    ({ q with
        slots := Function.update q.slots q.head undefined
        head := (q.head + 1) % q.cap
        count := q.count - 1 }, .value (q.slots q.head))

def espiar (q : Circular α) : CircularAnswer α := if q.count = 0 then .null else
    .value (q.slots q.head)

def listar (q : Circular α) : List α :=
  (List.range q.count).map fun i => q.slots ((q.head + i) % q.cap)

def limpar (q : Circular α) : Circular α :=
  { q with
    slots := fun i => if i < q.cap then undefined else q.slots i
    head := 0
    tail := 0
    count := 0 }

end Circular

def circularStep : Machine (Circular α) (CircularOp α) (CircularAnswer α)
  | q, .empurrar value => q.empurrar value
  | q, .tirar => q.tirar undefined
  | q, .espiar => (q, q.espiar)
  | q, .listar => (q, .list q.listar)
  | q, .limpar => (q.limpar undefined, .number 0)
  | q, .tamanho => (q, .number q.count)
  | q, .vazia => (q, .bool (q.count = 0))
  | q, .cheia => (q, .bool (q.count = q.cap))

end Circular

/-! ## The pool -/

section Pool

variable {F R : Type}

open JsValue

/-- The free indices are a stack, its top first. -/
structure PoolState (F R : Type) where
  cap : ℕ
  free : List ℕ
  slots : ℕ → JsValue F R

/-- A seed, or the argument of `alocar`. The copy of one that is coded is made by code of its own: a
method `slice`, a constructor or a getter, or the trap of a proxy. -/
inductive PoolValue (F R : Type) where
  | data (value : JsValue F R)
  | coded

/-- The operations. Where one calls code of the caller, `calls` is what that code does with the pool
and `stored` what it returns, or that it throws. -/
inductive PoolOp (F R : Type) where
  | alocar (value : PoolValue F R) (calls : List (PoolOp F R)) (stored : Except Unit (JsValue F R))
  | liberar (idx : JsNumber)

/-- An index that `alocar` has given out or `liberar` has taken back. -/
inductive SlotEvent where
  | granted (indice : ℕ)
  | released (indice : ℕ)
  deriving DecidableEq

/-- What an operation returns; `threw` is the exception of the code it called. -/
inductive PoolAnswer (F R : Type) where
  | alocado (indice : ℕ) (valor : JsValue F R)
  | liberado
  | erro (codigo mensagem : String) (info : List (String × ℕ))
  | threw

def JsValue.isUndefined : JsValue F R → Bool
  | .undefined => true
  | _ => false

/-- `none` is the exception of `new Array`. -/
def poolFactory (capacity : JsNumber) : Option (PoolState F R) :=
  let cap := intOr capacity 0
  if validArrayLength cap then some ⟨cap, List.range cap, fun _ => .undefined⟩ else none

/-- `shallowClone`; `none` where it calls code of the value. -/
def PoolValue.copy : PoolValue F R → Option (JsValue F R)
  | .data value => some (shallowClone value)
  | .coded => none

/-- The value `alocar` stores; `none` where code of the caller makes it. -/
def storedValue (seed value : PoolValue F R) (idx : ℕ) : Option (JsValue F R) :=
  match seed with
  | .data (.function _) => none
  | seed =>
      match value with
      | .data .undefined =>
          match seed with
          | .data .undefined => some (object true [("indice", int idx)])
          | seed => seed.copy
      | value => value.copy

namespace PoolState

def store (s : PoolState F R) (idx : ℕ) (stored : JsValue F R) : PoolState F R :=
  { s with slots := Function.update s.slots idx stored }

def liberar (s : PoolState F R) (n : JsNumber) : PoolState F R × List SlotEvent × PoolAnswer F R :=
  let idx := intOr n 0
  if idx ≥ s.cap ∨ (s.slots idx).isUndefined then
    (s, [], .erro "slot_invalido" "slot nao esta ocupado" [("indice", idx)])
  else
    ({ s.store idx .undefined with free := idx :: s.free }, [.released idx], .liberado)

def ativos (s : PoolState F R) : ℕ := s.cap - s.free.length

def listar (s : PoolState F R) : List (JsValue F R) :=
  ((List.range s.cap).map s.slots).filter fun item => !item.isUndefined

end PoolState

mutual

/-- One operation, and the indices given out and taken back during it. -/
def poolOp (seed : PoolValue F R) (s : PoolState F R) :
    PoolOp F R → PoolState F R × List SlotEvent × PoolAnswer F R
  | .alocar value calls stored =>
      match s.free with
      | [] => (s, [], .erro "pool_esgotado" "pool nao possui slots livres" [("capacidade", s.cap)])
      | idx :: free =>
          let popped := { s with free := free }
          match storedValue seed value idx with
          | some valor => (popped.store idx valor, [.granted idx], .alocado idx valor)
          | none =>
              let called := poolCalls seed popped calls
              match stored with
              | .error _ => (called.1, called.2, .threw)
              | .ok valor =>
                  (called.1.store idx valor, called.2 ++ [.granted idx], .alocado idx valor)
  | .liberar idx => s.liberar idx

/-- Operations in a row: those of a program, or what called code does with the pool. -/
def poolCalls (seed : PoolValue F R) (s : PoolState F R) :
    List (PoolOp F R) → PoolState F R × List SlotEvent
  | [] => (s, [])
  | op :: ops =>
      let first := poolOp seed s op
      let rest := poolCalls seed first.1 ops
      (rest.1, first.2.1 ++ rest.2)

end

end Pool

end GatoCore.Stdlib
