import Mathlib.Data.Int.Notation
import Mathlib.Data.Nat.Notation
import Mathlib.Tactic.Common

/-!
# The names of types

Source: `js_pt_type_name`, `js_pt_try_size_of`, `js_pt_size_of`, `js_pt_type_of`, `js_pt_identify`
and `js_pt_observe` of `quickjs.c`, over `JS_IsFunction`, `JS_IsArray`, `js_resolve_proxy`,
`JS_GetPropertyInternal`, `js_proxy_get`, `js_proxy_get_own_property` and `JS_ToInt64`.

The engine holds a value of the language under one of several tags. What it knows of objects that
are no proxies, and of the code of the program, is a parameter; that code changes the world, in
which a proxy that was revoked stays so.
-/

namespace GatoCore.Engine

/-! ## Values -/

/-- The tags of the values of the language, as `JS_VALUE_GET_NORM_TAG` gives them. -/
inductive Tag where
  | bigInt
  | symbol
  | string
  | stringRope
  | object
  | int
  | bool
  | null
  | undefined
  | shortBigInt
  | float64
  deriving DecidableEq

/-- A string, in one piece or put together of two. -/
inductive JsString where
  | flat (units : List (BitVec 16))
  | rope (left right : JsString)

def JsString.units : JsString → List (BitVec 16)
  | flat units => units
  | rope left right => left.units ++ right.units

inductive ObjClass where
  | function
  | array
  | other
  deriving DecidableEq

/-- An object; `is_func` of a proxy is set when it is made. -/
inductive Obj where
  | ordinary (id : ℕ) (cls : ObjClass)
  | proxy (id : ℕ) (is_func : Bool) (target : Obj)

/-- A value of the engine; `D` are the numbers of the language. -/
inductive EngineValue (D : Type) where
  | undefined
  | null
  | bool (b : Bool)
  | int (n : BitVec 32)
  | float64 (d : D)
  | bigInt (n : ℤ)
  | shortBigInt (n : BitVec 64)
  | string (s : JsString)
  | symbol (id : ℕ)
  | object (o : Obj)

/-- A value of the language. -/
inductive LanguageValue (D : Type) where
  | undefined
  | null
  | bool (b : Bool)
  | number (d : D)
  | bigInt (n : ℤ)
  | string (units : List (BitVec 16))
  | symbol (id : ℕ)
  | object (o : Obj)

variable {D : Type}

namespace EngineValue

def tag : EngineValue D → Tag
  | undefined => .undefined
  | null => .null
  | bool _ => .bool
  | int _ => .int
  | float64 _ => .float64
  | bigInt _ => .bigInt
  | shortBigInt _ => .shortBigInt
  | string (.flat _) => .string
  | string (.rope _ _) => .stringRope
  | symbol _ => .symbol
  | object _ => .object

/-- The value of the language that is held; `ofInt32` is the number a 32-bit integer is. -/
def denotes (ofInt32 : BitVec 32 → D) : EngineValue D → LanguageValue D
  | undefined => .undefined
  | null => .null
  | bool b => .bool b
  | int n => .number (ofInt32 n)
  | float64 d => .number d
  | bigInt n => .bigInt n
  | shortBigInt n => .bigInt n.toInt
  | string s => .string s.units
  | symbol id => .symbol id
  | object o => .object o

end EngineValue

/-! ## The engine -/

/-- Why an evaluation fails; `thrown` is an exception of the program. -/
inductive Fault (D : Type) where
  | stackOverflow
  | revokedProxy
  | typeError (message : String)
  | thrown (v : EngineValue D)

abbrev Reading (D W α : Type) := Except (Fault D) α × W

/-- The properties read here. -/
inductive Atom where
  | size
  | byteLength
  | length
  deriving DecidableEq

/-- A property of an object itself. -/
structure PropertyDescriptor (D : Type) where
  getset : Bool
  configurable : Bool
  writable : Bool
  value : EngineValue D
  getter : EngineValue D

inductive Trap where
  | get
  | getOwnPropertyDescriptor

/-- What comes of a method of a handler. -/
inductive TrapResult (D : Type) where
  | missing
  | threw (err : Fault D)
  | returned (v : EngineValue D)

/-- What the engine does apart from the functions modelled here: the properties of objects that
are no proxies, along their prototypes, the methods of handlers, the checks of what they return and
the conversion of objects. None of it takes back that a proxy is revoked. -/
structure Runtime (D W : Type) where
  revoked : W → ℕ → Bool
  get : ℕ → Atom → EngineValue D → W → Reading D W (EngineValue D)
  getOwn : ℕ → Atom → W → Reading D W (Option (PropertyDescriptor D))
  trap : ℕ → Trap → Atom → EngineValue D → W → TrapResult D × W
  checkOwn : ℕ → Atom → EngineValue D → Option (PropertyDescriptor D) → W →
    Reading D W (Option (PropertyDescriptor D))
  primitiveGet : EngineValue D → Atom → W → Reading D W (EngineValue D)
  toNumber : Obj → W → Reading D W Unit
  sameValue : EngineValue D → EngineValue D → Bool
  shown : EngineValue D → W → String
  trap_revoked : ∀ {w p}, revoked w p = true →
    ∀ id trap' atom v, revoked (trap id trap' atom v w).2 p = true

section Engine

variable {W : Type} (rt : Runtime D W)

def jsIsFunction : EngineValue D → Bool
  | .object (.ordinary _ cls) => cls = .function
  | .object (.proxy _ is_func _) => is_func
  | _ => false

/-- The object a chain of proxies ends in; `depth` proxies have been passed. -/
def jsResolveProxy (w : W) : ℕ → Obj → Except (Fault D) Obj
  | _, .ordinary id cls => .ok (.ordinary id cls)
  | depth, .proxy id _ target =>
      if depth > 1000 then .error .stackOverflow
      else if rt.revoked w id then .error .revokedProxy
      else jsResolveProxy w (depth + 1) target

def jsIsArray (w : W) : EngineValue D → Except (Fault D) Bool
  | .object o =>
      (jsResolveProxy rt w 0 o).map fun
        | .ordinary _ cls => cls = .array
        | .proxy _ _ _ => false
  | _ => .ok false

/-- A property of the object itself; `stack` proxies may still be entered. -/
def jsGetOwnProperty (atom : Atom) : ℕ → Obj → W → Reading D W (Option (PropertyDescriptor D))
  | _, .ordinary id _, w => rt.getOwn id atom w
  | 0, .proxy _ _ _, w => (.error .stackOverflow, w)
  | stack + 1, .proxy id _ target, w =>
      if rt.revoked w id then (.error .revokedProxy, w)
      else
        match rt.trap id .getOwnPropertyDescriptor atom .undefined w with
        | (.threw err, w) => (.error err, w)
        | (.missing, w) => jsGetOwnProperty atom stack target w
        | (.returned v, w) =>
            if v.tag = .object ∨ v.tag = .undefined then
              match jsGetOwnProperty atom stack target w with
              | (.error err, w) => (.error err, w)
              | (.ok desc, w) => rt.checkOwn id atom v desc w
            else (.error (.typeError "proxy: inconsistent getOwnPropertyDescriptor"), w)

/-- Whether a `get` method may return the value, given the property of the target. -/
def consistentGet (v : EngineValue D) : Option (PropertyDescriptor D) → Bool
  | none => true
  | some desc =>
      if !desc.getset && !desc.configurable && !desc.writable then rt.sameValue desc.value v
      else if desc.getset && !desc.configurable then
        !(desc.getter.tag = .undefined && v.tag ≠ .undefined)
      else true

/-- `JS_GetPropertyInternal` of an object, and `js_proxy_get`. -/
def jsGetProperty (atom : Atom) (receiver : EngineValue D) :
    ℕ → Obj → W → Reading D W (EngineValue D)
  | _, .ordinary id _, w => rt.get id atom receiver w
  | 0, .proxy _ _ _, w => (.error .stackOverflow, w)
  | stack + 1, .proxy id _ target, w =>
      if rt.revoked w id then (.error .revokedProxy, w)
      else
        match rt.trap id .get atom receiver w with
        | (.threw err, w) => (.error err, w)
        | (.missing, w) => jsGetProperty atom receiver stack target w
        | (.returned v, w) =>
            match jsGetOwnProperty rt atom stack target w with
            | (.error err, w) => (.error err, w)
            | (.ok desc, w) =>
                if consistentGet rt v desc then (.ok v, w)
                else (.error (.typeError "proxy: inconsistent get"), w)

/-- A property of any value but `undefined` and `null`. -/
def jsGet (stack : ℕ) (v : EngineValue D) (atom : Atom) (w : W) : Reading D W (EngineValue D) :=
  match v with
  | .object o => jsGetProperty rt atom v stack o w
  | .string s =>
      if atom = .length then (.ok (.int (BitVec.ofNat 32 s.units.length)), w)
      else rt.primitiveGet v atom w
  | v => rt.primitiveGet v atom w

/-- `JS_ToInt64`; the number itself is not used. -/
def jsToInt64 (v : EngineValue D) (w : W) : Reading D W Unit :=
  match v with
  | .symbol _ => (.error (.typeError "cannot convert symbol to number"), w)
  | .bigInt _ | .shortBigInt _ => (.error (.typeError "cannot convert bigint to number"), w)
  | .object o => rt.toNumber o w
  | _ => (.ok (), w)

/-! ## Names and sizes -/

def jsPtTypeName (w : W) (v : EngineValue D) : Except (Fault D) String :=
  match v.tag with
  | .undefined => .ok "indefinido"
  | .null => .ok "nulo"
  | .bool => .ok "booleano"
  | .int | .float64 | .bigInt => .ok "numero"
  | .string => .ok "texto"
  | .symbol => .ok "simbolo"
  | .object =>
      if jsIsFunction v then .ok "funcao"
      else (jsIsArray rt w v).map fun is_array => if is_array then "lista" else "objeto"
  | _ => .ok "objeto"

/-- One of the three properties, if it is defined; it must be a number. -/
def sizeProperty (stack : ℕ) (v : EngineValue D) (atom : Atom) (w : W) :
    Reading D W (Option (EngineValue D)) :=
  match jsGet rt stack v atom w with
  | (.error err, w) => (.error err, w)
  | (.ok .undefined, w) => (.ok none, w)
  | (.ok prop, w) =>
      match jsToInt64 rt prop w with
      | (.error err, w) => (.error err, w)
      | (.ok (), w) => (.ok (some prop), w)

/-- `none` is `undefined`. -/
def jsPtTrySizeOf (stack : ℕ) (v : EngineValue D) (w : W) :
    Reading D W (Option (EngineValue D)) :=
  if v.tag = .null ∨ v.tag = .undefined then (.ok none, w)
  else
    match sizeProperty rt stack v .size w with
    | (.ok none, w) =>
        match sizeProperty rt stack v .byteLength w with
        | (.ok none, w) => sizeProperty rt stack v .length w
        | r => r
    | r => r

def jsPtSizeOf (stack : ℕ) (w : W) : List (EngineValue D) → Reading D W (EngineValue D)
  | [] => (.error (.typeError "tamanho de exige um valor"), w)
  | v :: _ =>
      match jsPtTrySizeOf rt stack v w with
      | (.error err, w) => (.error err, w)
      | (.ok none, w) =>
          (.error (.typeError "tamanho de nao pode ser aplicado a este valor"), w)
      | (.ok (some n), w) => (.ok n, w)

def jsPtTypeOf (w : W) : List (EngineValue D) → Except (Fault D) String
  | [] => .ok "indefinido"
  | v :: _ => jsPtTypeName rt w v

/-- The object `identificar` gives. -/
structure Identified (D : Type) where
  tipo : String
  tamanho : Option (EngineValue D)

def jsPtIdentify (stack : ℕ) (w : W) : List (EngineValue D) → Reading D W (Identified D)
  | [] => (.ok ⟨"indefinido", none⟩, w)
  | v :: _ =>
      match jsPtTypeName rt w v with
      | .error err => (.error err, w)
      | .ok tipo =>
          match jsPtTrySizeOf rt stack v w with
          | (.error err, w) => (.error err, w)
          | (.ok tamanho, w) => (.ok ⟨tipo, tamanho⟩, w)

/-- The prefix `observar` prints, what it prints after it, and what it returns. -/
def jsPtObserve (w : W) :
    List (EngineValue D) → Except (Fault D) (Option (String × String) × EngineValue D)
  | [] => .ok (none, .undefined)
  | v :: _ =>
      (jsPtTypeName rt w v).map fun tipo =>
        (some ("[observar tipo=" ++ tipo ++ "] ", rt.shown v w ++ "\n"), v)

/-! ## Revoked proxies -/

namespace Obj

/-- The proxies that stand before an object. -/
def proxies : Obj → ℕ
  | ordinary _ _ => 0
  | proxy _ _ target => target.proxies + 1

/-- One of them is revoked. -/
def Revoked (w : W) : Obj → Prop
  | ordinary _ _ => False
  | proxy id _ target => rt.revoked w id = true ∨ target.Revoked w

theorem Revoked.trap {rt : Runtime D W} {o : Obj} {w : W} (h : o.Revoked rt w) (id : ℕ) (t : Trap)
    (atom : Atom) (v : EngineValue D) : o.Revoked rt (rt.trap id t atom v w).2 := by
  induction o with
  | ordinary id cls => exact h
  | proxy id' is_func target ih =>
      rcases h with h | h
      · exact Or.inl (rt.trap_revoked h id t atom v)
      · exact Or.inr (ih h)

end Obj

variable {rt} {w : W}

/-- A chain with a revoked proxy gives no property of its own. -/
theorem jsGetOwnProperty_of_revoked {o : Obj} (h : o.Revoked rt w) (atom : Atom) (stack : ℕ) :
    ∃ err w', jsGetOwnProperty rt atom stack o w = (.error err, w') := by
  induction o generalizing stack w with
  | ordinary id cls => exact h.elim
  | proxy id is_func target ih =>
      cases stack with
      | zero => exact ⟨_, _, rfl⟩
      | succ stack =>
          rw [jsGetOwnProperty]
          split
          · exact ⟨_, _, rfl⟩
          · rename_i hrevoked
            have htarget := (h.resolve_left hrevoked).trap id .getOwnPropertyDescriptor
              atom .undefined
            split
            · exact ⟨_, _, rfl⟩
            · rename_i htrap
              rw [htrap] at htarget
              exact ih htarget stack
            · rename_i htrap
              rw [htrap] at htarget
              obtain ⟨err, w', herr⟩ := ih htarget stack
              split
              · rw [herr]
                exact ⟨_, _, rfl⟩
              · exact ⟨_, _, rfl⟩

/-- A chain with a revoked proxy gives no property: a method of a handler that stands before it is
checked against its target. -/
theorem jsGetProperty_of_revoked {o : Obj} (h : o.Revoked rt w) (atom : Atom)
    (receiver : EngineValue D) (stack : ℕ) :
    ∃ err w', jsGetProperty rt atom receiver stack o w = (.error err, w') := by
  induction o generalizing stack w with
  | ordinary id cls => exact h.elim
  | proxy id is_func target ih =>
      cases stack with
      | zero => exact ⟨_, _, rfl⟩
      | succ stack =>
          rw [jsGetProperty]
          split
          · exact ⟨_, _, rfl⟩
          · rename_i hrevoked
            have htarget := (h.resolve_left hrevoked).trap id .get atom receiver
            split
            · exact ⟨_, _, rfl⟩
            · rename_i htrap
              rw [htrap] at htarget
              exact ih htarget stack
            · rename_i htrap
              rw [htrap] at htarget
              obtain ⟨err, w', herr⟩ := jsGetOwnProperty_of_revoked htarget atom stack
              rw [herr]
              exact ⟨_, _, rfl⟩

theorem jsPtTrySizeOf_of_revoked {o : Obj} (h : o.Revoked rt w) (stack : ℕ) :
    ∃ err w', jsPtTrySizeOf rt stack (.object o) w = (.error err, w') := by
  obtain ⟨err, w', herr⟩ := jsGetProperty_of_revoked h .size (.object o) stack
  refine ⟨err, w', ?_⟩
  simp [jsPtTrySizeOf, EngineValue.tag, sizeProperty, jsGet, herr]

/-- A chain is not followed to its end for a revoked proxy or for its length. -/
theorem jsResolveProxy_error {o : Obj} {depth : ℕ} {err : Fault D}
    (h : jsResolveProxy rt w depth o = .error err) :
    o.Revoked rt w ∨ 1001 < depth + o.proxies := by
  induction o generalizing depth with
  | ordinary id cls => cases h
  | proxy id is_func target ih =>
      rw [jsResolveProxy] at h
      split at h
      · right
        simp only [Obj.proxies]
        omega
      · split at h
        · rename_i hrevoked
          exact Or.inl (Or.inl hrevoked)
        · rcases ih h with h | h
          · exact Or.inl (Or.inr h)
          · right
            simp only [Obj.proxies]
            omega

theorem jsResolveProxy_of_long {o : Obj} {depth : ℕ} (hdepth : depth ≤ 1001)
    (h : 1001 < depth + o.proxies) : ∃ err, jsResolveProxy rt w depth o = .error err := by
  induction o generalizing depth with
  | ordinary id cls =>
      simp only [Obj.proxies] at h
      omega
  | proxy id is_func target ih =>
      simp only [Obj.proxies] at h
      rw [jsResolveProxy]
      split
      · exact ⟨_, rfl⟩
      · split
        · exact ⟨_, rfl⟩
        · exact ih (by omega) (by omega)

/-! ## Names of values of the language -/

/-- The name of the type of a value of the language. -/
def LanguageValue.typeName (rt : Runtime D W) (w : W) : LanguageValue D → Except (Fault D) String
  | .undefined => .ok "indefinido"
  | .null => .ok "nulo"
  | .bool _ => .ok "booleano"
  | .number _ | .bigInt _ => .ok "numero"
  | .string _ => .ok "texto"
  | .symbol _ => .ok "simbolo"
  | .object o => jsPtTypeName rt w (.object o)

/-- The strings, numbers and bigints are named. -/
def LanguageValue.ptName : LanguageValue D → Option String
  | .number _ | .bigInt _ => some "numero"
  | .string _ => some "texto"
  | _ => none

/-- What `tipo de`, `identificar` and `observar` say of a value is the name. -/
structure SaidToBe (rt : Runtime D W) (stack : ℕ) (w : W) (x : EngineValue D) (name : String) :
    Prop where
  tipo_de : jsPtTypeOf rt w [x] = .ok name
  identificar : ∀ a, (jsPtIdentify rt stack w [x]).1 = .ok a → a.tipo = name
  observar : ∃ text, jsPtObserve rt w [x] = .ok (some ("[observar tipo=" ++ name ++ "] ", text), x)

/-- `tipo de`, `identificar` and `observar` say the same of both values. -/
structure SaidAlike (rt : Runtime D W) (stack : ℕ) (w : W) (x y : EngineValue D) : Prop where
  tipo_de : jsPtTypeOf rt w [x] = jsPtTypeOf rt w [y]
  identificar : ∀ a b, (jsPtIdentify rt stack w [x]).1 = .ok a →
    (jsPtIdentify rt stack w [y]).1 = .ok b → a.tipo = b.tipo
  observar : (jsPtObserve rt w [x]).map (fun out => out.1.map Prod.fst) =
    (jsPtObserve rt w [y]).map (fun out => out.1.map Prod.fst)

/-- `identificar` carries the size `tamanho de` returns, when it returns. -/
def SizedAlike (rt : Runtime D W) (stack : ℕ) (w : W) (x : EngineValue D) : Prop :=
  ∀ n, (∃ a, (jsPtIdentify rt stack w [x]).1 = .ok a ∧ a.tamanho = some n) ↔
    (jsPtSizeOf rt stack w [x]).1 = .ok n

/-- Strings, numbers and bigints have their names, and sizes agree. -/
structure WellNamed (ofInt32 : BitVec 32 → D) (rt : Runtime D W) (stack : ℕ) (w : W)
    (x : EngineValue D) : Prop where
  named : ∀ name, (x.denotes ofInt32).ptName = some name → SaidToBe rt stack w x name
  sized : SizedAlike rt stack w x

/-- Two values have the names they are to have, and the same. -/
structure TypeNamesAgree (ofInt32 : BitVec 32 → D) (rt : Runtime D W) (stack : ℕ) (w : W)
    (x y : EngineValue D) : Prop where
  alike : SaidAlike rt stack w x y
  left : WellNamed ofInt32 rt stack w x
  right : WellNamed ofInt32 rt stack w y

/-- The tags the switch on tags knows, and objects that are functions or can be followed to the end
of their proxies. -/
structure EngineValue.Covered (x : EngineValue D) : Prop where
  not_rope : x.tag ≠ .stringRope
  not_short : x.tag ≠ .shortBigInt
  proxies : ∀ o, x = .object o → jsIsFunction x = true ∨ o.proxies ≤ 1001

/-- Where the tag is known, the name is that of the value of the language. -/
theorem jsPtTypeName_of_covered {x : EngineValue D} (hx : x.Covered) (ofInt32 : BitVec 32 → D)
    (rt : Runtime D W) (w : W) :
    jsPtTypeName rt w x = (x.denotes ofInt32).typeName rt w := by
  cases x with
  | shortBigInt n => exact absurd rfl hx.not_short
  | string s =>
      cases s with
      | flat units => rfl
      | rope left right => exact absurd rfl hx.not_rope
  | _ => rfl

theorem jsPtIdentify_tipo {stack : ℕ} {x : EngineValue D} {a : Identified D}
    (h : (jsPtIdentify rt stack w [x]).1 = .ok a) : jsPtTypeName rt w x = .ok a.tipo := by
  rw [jsPtIdentify] at h
  split at h
  · cases h
  · rename_i tipo htipo
    split at h
    · cases h
    · cases h
      exact htipo

/-- The name `jsPtTypeName` gives is what is said of the value. -/
theorem saidToBe_of_typeName {x : EngineValue D} {name : String}
    (h : jsPtTypeName rt w x = .ok name) (stack : ℕ) : SaidToBe rt stack w x name := by
  refine ⟨h, ?_, rt.shown x w ++ "\n", ?_⟩
  · intro a ha
    have htipo := jsPtIdentify_tipo ha
    rw [h] at htipo
    exact (Except.ok.inj htipo).symm
  · rw [jsPtObserve, h]
    rfl

theorem saidAlike_of_typeName {x y : EngineValue D}
    (h : jsPtTypeName rt w x = jsPtTypeName rt w y) (stack : ℕ) : SaidAlike rt stack w x y := by
  refine ⟨h, ?_, ?_⟩
  · intro a b ha hb
    have hx := jsPtIdentify_tipo ha
    rw [h, jsPtIdentify_tipo hb] at hx
    exact (Except.ok.inj hx).symm
  · simp only [jsPtObserve, h]
    cases jsPtTypeName rt w y <;> rfl

/-- Only an object that is no function can be without a name. -/
theorem jsPtTypeName_error {x : EngineValue D} {err : Fault D}
    (h : jsPtTypeName rt w x = .error err) :
    ∃ o, x = .object o ∧ jsIsFunction x = false ∧ (o.Revoked rt w ∨ 1001 < o.proxies) := by
  cases x with
  | object o =>
      simp only [jsPtTypeName, EngineValue.tag] at h
      split at h
      · cases h
      · rename_i hfun
        refine ⟨o, rfl, by simpa using hfun, ?_⟩
        rcases hresolve : jsResolveProxy rt w 0 o with err' | o'
        · simpa using jsResolveProxy_error hresolve
        · simp [jsIsArray, hresolve, Except.map] at h
  | string s => cases s <;> cases h
  | _ => cases h

/-- `identificar` and `tamanho de` ask for the size in the same way; where the name fails, so does
the size. -/
theorem sizedAlike_of_covered {x : EngineValue D} (hx : x.Covered) (stack : ℕ) :
    SizedAlike rt stack w x := by
  intro n
  rcases htipo : jsPtTypeName rt w x with err | tipo
  · obtain ⟨o, rfl, hfun, hrevoked⟩ := jsPtTypeName_error htipo
    have hlong := (hx.proxies o rfl).resolve_left (by simp [hfun])
    obtain ⟨err', w', hsize⟩ :=
      jsPtTrySizeOf_of_revoked (hrevoked.resolve_right (by omega)) stack
    simp [jsPtIdentify, jsPtSizeOf, htipo, hsize]
  · rcases hsize : jsPtTrySizeOf rt stack x w with ⟨err | size, w'⟩
    · simp [jsPtIdentify, jsPtSizeOf, htipo, hsize]
    · cases size <;> simp [jsPtIdentify, jsPtSizeOf, htipo, hsize]

theorem wellNamed_of_covered {x : EngineValue D} (hx : x.Covered) (ofInt32 : BitVec 32 → D)
    (stack : ℕ) : WellNamed ofInt32 rt stack w x := by
  refine ⟨?_, sizedAlike_of_covered hx stack⟩
  intro name hname
  apply saidToBe_of_typeName
  rw [jsPtTypeName_of_covered hx ofInt32]
  revert hname
  cases x.denotes ofInt32 <;> simp [LanguageValue.ptName, LanguageValue.typeName]

end Engine

/-! ## The values whose names hold -/

/-- An engine in which every property is there and no proxy has methods. -/
def plainRuntime : Runtime D Unit where
  revoked _ _ := false
  get _ _ _ w := (.ok (.int 0), w)
  getOwn _ _ w := (.ok none, w)
  trap _ _ _ _ w := (.missing, w)
  checkOwn _ _ _ desc w := (.ok desc, w)
  primitiveGet _ _ w := (.ok .undefined, w)
  toNumber _ w := (.ok (), w)
  sameValue _ _ := true
  shown _ _ := ""
  trap_revoked h := by simp at h

theorem jsGetProperty_plainRuntime (atom : Atom) (receiver : EngineValue D) (o : Obj) (w : Unit) :
    jsGetProperty plainRuntime atom receiver o.proxies o w = (.ok (.int 0), w) := by
  induction o with
  | ordinary id cls => rfl
  | proxy id is_func target ih => exact ih

theorem covered_of_wellNamed {ofInt32 : BitVec 32 → D} {x : EngineValue D}
    (h : ∀ stack, WellNamed ofInt32 plainRuntime stack () x) : x.Covered := by
  refine ⟨?_, ?_, ?_⟩
  · intro htag
    cases x with
    | string s =>
        cases s with
        | flat units => cases htag
        | rope left right =>
            have hname := ((h 0).named "texto" rfl).tipo_de
            simp [jsPtTypeOf, jsPtTypeName, EngineValue.tag] at hname
    | _ => cases htag
  · intro htag
    cases x with
    | shortBigInt n =>
        have hname := ((h 0).named "numero" rfl).tipo_de
        simp [jsPtTypeOf, jsPtTypeName, EngineValue.tag] at hname
    | string s => cases s <;> cases htag
    | _ => cases htag
  · rintro o rfl
    by_contra hcovered
    obtain ⟨hfun, hlong⟩ := not_or.mp hcovered
    obtain ⟨err, herr⟩ : ∃ err, jsResolveProxy (plainRuntime (D := D)) () 0 o = .error err :=
      jsResolveProxy_of_long (Nat.zero_le 1001) (by omega)
    have hsize : (jsPtSizeOf plainRuntime o.proxies () [EngineValue.object (D := D) o]).1 =
        .ok (.int 0) := by
      simp [jsPtSizeOf, jsPtTrySizeOf, EngineValue.tag, sizeProperty, jsGet,
        jsGetProperty_plainRuntime, jsToInt64]
    obtain ⟨a, ha, -⟩ := ((h o.proxies).sized (.int 0)).mpr hsize
    have htipo := jsPtIdentify_tipo ha
    simp [jsPtTypeName, EngineValue.tag, hfun, jsIsArray, herr, Except.map] at htipo

/-- Two forms of one value have their names in every state of the engine exactly when neither is a
rope or a short bigint, nor an object behind too many proxies. -/
theorem type_names_agree_iff {ofInt32 : BitVec 32 → D} {x y : EngineValue D}
    (h : x.denotes ofInt32 = y.denotes ofInt32) :
    (∀ (W : Type) (rt : Runtime D W) (stack : ℕ) (w : W),
      TypeNamesAgree ofInt32 rt stack w x y) ↔ x.Covered ∧ y.Covered := by
  constructor
  · intro hagree
    exact ⟨covered_of_wellNamed fun stack => (hagree Unit plainRuntime stack ()).left,
      covered_of_wellNamed fun stack => (hagree Unit plainRuntime stack ()).right⟩
  · rintro ⟨hx, hy⟩ W rt stack w
    refine ⟨saidAlike_of_typeName ?_ stack, wellNamed_of_covered hx ofInt32 stack,
      wellNamed_of_covered hy ofInt32 stack⟩
    rw [jsPtTypeName_of_covered hx ofInt32, jsPtTypeName_of_covered hy ofInt32, h]

theorem type_names_agree_iff_five :
    (EngineValue.int 5).denotes BitVec.toInt = (EngineValue.float64 5).denotes BitVec.toInt ∧
      ((∀ (W : Type) (rt : Runtime ℤ W) (stack : ℕ) (w : W),
        TypeNamesAgree BitVec.toInt rt stack w (.int 5) (.float64 5)) ↔
        (EngineValue.int 5 : EngineValue ℤ).Covered ∧
          (EngineValue.float64 5 : EngineValue ℤ).Covered) :=
  ⟨rfl, type_names_agree_iff rfl⟩

/-- A text put together of two long ones. -/
def joinedText : JsString := .rope (.flat (List.replicate 600 97)) (.flat (List.replicate 600 98))

/-- The text in one piece has another name than the text put together. -/
theorem joinedText_not_agree :
    ¬∀ x y : EngineValue ℤ, x.denotes BitVec.toInt = y.denotes BitVec.toInt →
      ∀ (W : Type) (rt : Runtime ℤ W) (stack : ℕ) (w : W),
        TypeNamesAgree BitVec.toInt rt stack w x y := by
  intro h
  have hagree := h (.string (.flat joinedText.units)) (.string joinedText) rfl Unit
    plainRuntime 0 ()
  have htexto := (hagree.right.named "texto" rfl).tipo_de
  have hobjeto : jsPtTypeOf plainRuntime () [.string joinedText] =
      (.ok "objeto" : Except (Fault ℤ) String) := rfl
  exact absurd (Except.ok.inj (hobjeto.symm.trans htexto)) (by decide)

end GatoCore.Engine
