import Mathlib.Algebra.Ring.Nat
import GatoCore.Lib.JsObject

/-!
# JSON values

What JSON can write, over any type of numbers.
-/

namespace GatoCore.Lib

def isNumberChar (c : Char) : Bool := c.isDigit || c ∈ ['-', '+', '.', 'e', 'E']

/-- How numbers are written, and how a text of a finite one is read. `-0` is `0`. -/
class NumberText (N : Type) extends NatCast N where
  finite : N → Bool
  finite_natCast : ∀ n : ℕ, n < 2 ^ 53 → finite n
  print : N → List Char
  read : List Char → Option N
  print_ne_nil : ∀ n, finite n → print n ≠ []
  isNumberChar_of_mem : ∀ n, finite n → ∀ c ∈ print n, isNumberChar c = true
  read_print : ∀ n, finite n → read (print n) = some n

inductive Json (N : Type) where
  | null
  | bool (b : Bool)
  | number (n : N)
  | text (t : List Char)
  | array (items : List (Json N))
  | object (o : JsObject (Json N))

namespace Json

variable {N : Type}

/-- Whether a value counts as true. -/
def truthy [NatCast N] [DecidableEq N] : Json N → Bool
  | null => false
  | bool b => b
  | number n => n ≠ (0 : ℕ)
  | text t => !t.isEmpty
  | _ => true

/-- `v || w`. -/
def or [NatCast N] [DecidableEq N] (v w : Json N) : Json N := if v.truthy then v else w

/-- `v === w`, for values that are not the same array or the same object. -/
def strictEq [DecidableEq N] : Json N → Json N → Bool
  | null, null => true
  | bool a, bool b => a = b
  | number a, number b => a = b
  | text a, text b => a = b
  | _, _ => false

/-- `v === true` or another value that is not `false`. -/
def isNotFalse : Json N → Bool
  | bool b => b
  | _ => true

/-- `object[key]` of a value, `none` where it is undefined. Only an object has keys that are no
indices. -/
def field (v : Json N) (key : List Char) : Option (Json N) :=
  match v with
  | object o => o.get? key
  | _ => none

section Text

variable [NumberText N]

mutual
/-- `String(v)`. -/
def toText : Json N → List Char
  | null => ['n', 'u', 'l', 'l']
  | bool true => ['t', 'r', 'u', 'e']
  | bool false => ['f', 'a', 'l', 's', 'e']
  | number n => NumberText.print n
  | text t => t
  | array items => [','].intercalate (itemTexts items)
  | object _ => "[object Object]".toList
def itemTexts : List (Json N) → List (List Char)
  | [] => []
  | null :: items => [] :: itemTexts items
  | v :: items => toText v :: itemTexts items
end

end Text

/-- A value that JSON can write: its numbers are finite, and the keys of its objects are as the keys
of objects are. -/
inductive Canonical [NumberText N] : Json N → Prop where
  | null : Canonical null
  | bool (b : Bool) : Canonical (bool b)
  | number {n : N} : NumberText.finite n → Canonical (number n)
  | text (t : List Char) : Canonical (text t)
  | array {items : List (Json N)} : (∀ v ∈ items, Canonical v) → Canonical (array items)
  | object {o : JsObject (Json N)} :
      o.Canonical → (∀ e ∈ o.entries, Canonical e.2) → Canonical (object o)

@[simp] theorem strictEq_text [DecidableEq N] (a b : List Char) :
    strictEq (text a : Json N) (text b) = decide (a = b) := rfl

@[simp] theorem truthy_text [NatCast N] [DecidableEq N] (t : List Char) :
    (text t : Json N).truthy = !t.isEmpty := rfl

end Json

end GatoCore.Lib
