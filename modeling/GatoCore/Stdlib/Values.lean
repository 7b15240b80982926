import GatoCore.Stdlib.Paths

/-!
# Values

Source: `isPlainObject`, `shallowClone`, `makeResult`, `normalizeMaybeObject` and `makeEvent` of
`stdlib/ptstdlib.js`.

The values the library passes around, by their contents. Functions and regular expressions are
known by name only, and the other objects have properties that hold values; a name is that of no
property of `Object.prototype`.
-/

namespace GatoCore.Stdlib

/-- `bytes` is an `ArrayBuffer` or a typed array of bytes. An object is plain when its prototype is
that of the literals or `null`. -/
inductive JsValue (F R : Type) where
  | undefined
  | null
  | bool (b : Bool)
  | number (shown : Text) (int32 : ℤ)
  | text (t : Text)
  | bytes (b : List UInt8)
  | array (items : List (JsValue F R))
  | function (f : F)
  | regexp (r : R)
  | object (plain : Bool) (properties : List (String × JsValue F R))

namespace JsValue

variable {F R : Type}

/-- Whether a value counts as true. -/
def truthy : JsValue F R → Bool
  | undefined | null => false
  | bool b => b
  | number shown _ => shown ≠ "0".toList && shown ≠ "NaN".toList
  | text t => !t.isEmpty
  | _ => true

/-- `v || w`. -/
def or (v w : JsValue F R) : JsValue F R := if v.truthy then v else w

/-- `v && w`. -/
def and (v w : JsValue F R) : JsValue F R := if v.truthy then w else v

def isPlainObject : JsValue F R → Bool
  | object plain _ => plain
  | _ => false

/-- The properties `Object.assign({}, value)` copies from an object. -/
def properties : JsValue F R → List (String × JsValue F R)
  | object _ properties => properties
  | _ => []

/-- A whole number. -/
def int (n : ℤ) : JsValue F R := number (toString n).toList n

/-- A text, or `null`. -/
def ofText : Option Text → JsValue F R
  | some t => text t
  | none => null

/-- `typeof value === "string"`, with the text. -/
def asText : JsValue F R → Option Text
  | text t => some t
  | _ => none

/-- `value.name`, for a value other than `undefined` and `null`. -/
def property (v : JsValue F R) (name : String) : JsValue F R :=
  (v.properties.lookup name).getD undefined

@[simp] theorem object_property_nil (plain : Bool) (name : String) :
    (object plain [] : JsValue F R).property name = undefined := rfl

@[simp] theorem object_property_cons (plain : Bool) (name name' : String) (v : JsValue F R)
    (rest : List (String × JsValue F R)) :
    (object plain ((name', v) :: rest)).property name =
      if name = name' then v else (object plain rest).property name := by
  simp only [property, properties, List.lookup_cons]
  split <;> simp_all

@[simp] theorem asText_text (t : Text) : (text t : JsValue F R).asText = some t := rfl

@[simp] theorem truthy_object (plain : Bool) (properties : List (String × JsValue F R)) :
    (object plain properties).truthy = true := rfl

theorem or_of_truthy {v : JsValue F R} (h : v.truthy = true) (w : JsValue F R) : v.or w = v :=
  if_pos h

theorem or_of_not_truthy {v : JsValue F R} (h : v.truthy = false) (w : JsValue F R) : v.or w = w :=
  if_neg (by simp [h])

theorem and_of_truthy {v : JsValue F R} (h : v.truthy = true) (w : JsValue F R) : v.and w = w :=
  if_pos h

end JsValue

variable {F R : Type}

open JsValue

/-- What the engine makes of arrays, functions and objects: their text, and the byte they become
in a typed array. -/
structure Conversions (F R : Type) where
  shown : JsValue F R → Text
  byte : JsValue F R → UInt8

/-- Conversions for programs that make none. -/
def noConversions : Conversions Unit Unit := ⟨fun _ => [], fun _ => 0⟩

/-- `String(value)`. -/
def Conversions.string (c : Conversions F R) : JsValue F R → Text
  | .undefined => "undefined".toList
  | .null => "null".toList
  | .bool b => if b then "true".toList else "false".toList
  | .number shown _ => shown
  | .text t => t
  | value => c.shown value

/-- The byte a value becomes in a typed array. -/
def Conversions.toUint8 (c : Conversions F R) : JsValue F R → UInt8
  | .undefined | .null => 0
  | .bool b => if b then 1 else 0
  | .number _ int32 => UInt8.ofNat (int32 % 256).toNat
  | value => c.byte value

/-- `resolveHostPath` leaves what is not a text alone. -/
def resolveHostValue (dirs : HostDirs) : JsValue F R → JsValue F R
  | .text t => .text (resolveHostPath dirs t)
  | value => value

/-- What `okResult` and `errorResult` build. -/
inductive CallResult (F R α : Type) where
  | ok (valor : α)
  | erro (codigo : String) (mensagem : Text) (info : List (String × JsValue F R))

/-- The object of a result, as `makeResult` lays it out. -/
def CallResult.record : CallResult F R (JsValue F R) → JsValue F R
  | .ok valor =>
      object true [("tipo_recurso", text "resultado".toList), ("ok", bool true),
        ("valor", match valor with | undefined => null | valor => valor)]
  | .erro codigo mensagem info =>
      let erro := object true [("codigo", text codigo.toList), ("mensagem", text mensagem)]
      object true ([("tipo_recurso", text "resultado".toList), ("ok", bool false), ("valor", null),
        ("erro", erro)] ++ if info.isEmpty then [] else [("meta", object true info)])

/-- A copy has the contents of the original, and the prototype of the literals if that is plain. -/
def shallowClone : JsValue F R → JsValue F R
  | array items => array items
  | bytes b => bytes b
  | object true properties => object true properties
  | value => value

/-- `emitido` is what `nowMs()` gives. -/
def makeEvent (name : JsValue F R) (args : List (JsValue F R)) (emitido : JsValue F R) :
    JsValue F R :=
  let data := match args with
    | [] => []
    | [arg] => if arg.isPlainObject then arg.properties else [("valor", shallowClone arg)]
    | args => [("argumentos", array (args.map shallowClone))]
  object true [("tipo_recurso", text "evento".toList), ("nome", name), ("dados", object true data),
    ("emitido_em_ms", emitido)]

/-- `Object.assign(base, extra)`: a property that is there already keeps its place. -/
def assign (base extra : List (String × JsValue F R)) : List (String × JsValue F R) :=
  extra.foldl (fun properties new =>
    if properties.any (·.1 = new.1) then
      properties.map fun old => if old.1 = new.1 then new else old
    else properties ++ [new]) base

/-- The properties of the object `normalizeMaybeObject` makes of the arguments. -/
def normalizeMaybeObject : List (JsValue F R) → List (String × JsValue F R)
  | [arg] => if arg.isPlainObject then arg.properties else [("valor", shallowClone arg)]
  | args => [("argumentos", array (args.map shallowClone))]

end GatoCore.Stdlib
