import GatoCore.Lib.Utf16
import GatoCore.Lib.Word64
import GatoCore.Native.Eval
import GatoCore.Native.TextBuffers
import Mathlib.Data.List.TakeWhile

/-!
# Texts as the two pipelines see them

Source: `ptjs_strlen` and `ptjs_string_char_at` of `runtime/native_runtime.c`, `lowerStatement` of
`compiler/ptjs_native.js` for a `para cada`, and `js_pt_try_size_of`, `js_pt_size_of`,
`js_parse_pt_for_each` and `js_string_iterator_next` of `quickjs.c`.

The runtime counts and visits the bytes of a text up to the first NUL. The engine counts its UTF-16
units and visits its code points.
-/

namespace GatoCore.Native

open GatoCore.Lib

/-! ## The engine -/

/-- The properties a text has of those `js_pt_try_size_of` asks for. -/
def stringProperty (s : String) (name : String) : Option ℤ :=
  if name = "length" then some ((utf16 s.toList).length : ℤ) else none

/-- `js_pt_try_size_of` on a value with these properties. -/
def jsPtTrySizeOf (getProperty : String → Option ℤ) : Option ℤ :=
  match getProperty "size" with
  | some n => some n
  | none =>
      match getProperty "byteLength" with
      | some n => some n
      | none => getProperty "length"

/-- `__pt_size_of` of a text; `none` is its error. -/
def jsPtSizeOf (s : String) : Option ℤ := jsPtTrySizeOf (stringProperty s)

/-- The texts the iterator of a text gives, by their units. -/
def stringIterator : List ℕ → List (List ℕ)
  | [] => []
  | [u] => [[u]]
  | u :: v :: units =>
      if isHighSurrogate u && isLowSurrogate v then [u, v] :: stringIterator units
      else [u] :: stringIterator (v :: units)

/-- What `para cada c em s` binds to `c`, one after the other. -/
def forOfTexts (s : String) : List (List ℕ) := stringIterator (utf16 s.toList)

/-! ## The native program -/

section Loop

variable (Γ : EvalContext) (returnType : Ty) (binding : String) (v : TypedValue nativeRuntime)
  (body : List Stmt)

/-- Where a `para cada` stands: before the test of its index, or before its body. -/
inductive LoopPoint where
  | head (env : Env nativeRuntime) (i : Word) (w : NativeWorld)
  | bound (env : Env nativeRuntime) (i : Word) (w : NativeWorld)

/-- Whether the test of the index is passed. -/
def loopTest (i : Word) (w : NativeWorld) : Option Bool := do
  let (len, _) ← lengthOf v w
  return i.slt (← len.word)

/-- The points a loop from an environment and a world comes to, with the texts bound on the way. -/
inductive Visits (env₀ : Env nativeRuntime) (w₀ : NativeWorld) : List Bytes → LoopPoint → Prop
  | start : Visits env₀ w₀ [] (.head env₀ 0 w₀)
  | bind {texts env i w item w' text} (visited : Visits env₀ w₀ texts (.head env i w))
      (test : loopTest v i w = some true) (fetched : itemOf v i w = some (item, w'))
      (reads : w'.textArg item.value = some text) :
      Visits env₀ w₀ (texts ++ [text]) (.bound (Function.update env binding (some item)) i w')
  | body {texts env i w n env' w'} (visited : Visits env₀ w₀ texts (.bound env i w))
      (ran : evalBlock Γ n returnType env body w = some (.normal env', w')) :
      Visits env₀ w₀ texts (.head env' (i + 1) w')

/-- The point a loop is left at. -/
def LoopPoint.Leaves : LoopPoint → Outcome nativeRuntime × NativeWorld → Prop
  | .head env i w, (.normal env', w') => loopTest v i w = some false ∧ env' = env ∧ w' = w
  | .bound env _ w, (.returned r, w') =>
      ∃ n, evalBlock Γ n returnType env body w = some (.returned r, w')
  | _, _ => False

end Loop

/-- A text of the runtime and one of the engine. -/
def SameText (bytes : Bytes) (units : List ℕ) : Prop := ∃ t, utf8 t = bytes ∧ utf16 t = units

/-- A literal is of one size, and a loop over it binds the texts the engine binds: those bound so
far at every point of it, all of them at its end. -/
structure TextsAgree (s : String) : Prop where
  size : ∀ (Γ : EvalContext) (n : ℕ) (env : Env nativeRuntime) (w : NativeWorld)
      (r : TypedValue nativeRuntime) (w' : NativeWorld),
    evalExpr Γ n env (.unary .tamanhoDe (.string s)) w = some (r, w') →
      r.word.map BitVec.toInt = jsPtSizeOf s
  items : ∀ (Γ : EvalContext) (returnType : Ty) (binding : String) (body : List Stmt)
      (env : Env nativeRuntime) (w : NativeWorld) (texts : List Bytes) (p : LoopPoint),
    Visits Γ returnType binding ⟨.str, nativeRuntime.text s⟩ body env w texts p →
      List.Forall₂ SameText texts ((forOfTexts s).take texts.length) ∧
        ∀ env' i w', p = .head env' i w' →
          loopTest ⟨.str, nativeRuntime.text s⟩ i w' = some false →
            texts.length = (forOfTexts s).length

/-! ### A loop is its points -/

section Facts

variable {Γ : EvalContext} {returnType : Ty} {binding : String} {v : TypedValue nativeRuntime}
  {body : List Stmt} {env₀ : Env nativeRuntime} {w₀ : NativeWorld} {s : String}

theorem cString_eq (s : String) : cString s = (utf8 s.toList).takeWhile (· ≠ 0) := by
  rw [cString, bytesOf, toUTF8_toList]

theorem loopTest_literal (s : String) (i : Word) (w : NativeWorld) :
    loopTest ⟨.str, nativeRuntime.text s⟩ i w =
      some (i.slt (BitVec.ofNat 64 (cString s).length)) := rfl

/-- The item at an index is a fresh buffer that holds the byte there. -/
theorem itemOf_literal {i : Word} {w : NativeWorld} {byte : UInt8} (hi : 0 ≤ i.toInt)
    (hbyte : (cString s)[i.toNat]? = some byte) :
    itemOf ⟨.str, nativeRuntime.text s⟩ i w =
      some (⟨.str, .text (w.pushSlot [byte]).1⟩, (w.pushSlot [byte]).2) := by
  show (nativeStringCharAt (.text (.rodata (cString s))) (.word i) w).map _ = _
  have hcall : nativeStringCharAt (.text (.rodata (cString s))) (.word i) w =
      some (.text (w.pushSlot [byte]).1, (w.pushSlot [byte]).2) := by
    unfold nativeStringCharAt
    show (if i.toInt < 0 then _ else _) = _
    rw [if_neg (by omega)]
    have hread : (w.read (.rodata (cString s)))[i.toNat]? = some byte := hbyte
    simp only [hread]
    rfl
  rw [hcall]
  rfl

theorem textArg_pushSlot (w : NativeWorld) (bytes : Bytes) :
    (w.pushSlot bytes).2.textArg (.text (w.pushSlot bytes).1) = some bytes := by
  show some (Function.update w.slots w.nextSlot bytes w.nextSlot) = _
  rw [Function.update_self]

/-- An item of a literal is a text the runtime can read. -/
theorem itemOf_reads {i : Word} {w w' : NativeWorld} {item : TypedValue nativeRuntime}
    (h : itemOf ⟨.str, nativeRuntime.text s⟩ i w = some (item, w')) :
    ∃ text, w'.textArg item.value = some text := by
  change (nativeStringCharAt (nativeRuntime.text s) (.word i) w).map _ = _ at h
  obtain ⟨⟨value, w''⟩, hcall, heq⟩ := Option.map_eq_some_iff.mp h
  cases heq
  rcases nativeStringCharAt_eq hcall with ⟨bytes, -, hvalue, -⟩ | ⟨-, hvalue, -⟩
  · exact ⟨_, by rw [hvalue]; rfl⟩
  · exact ⟨_, by rw [hvalue]; rfl⟩

theorem evalForEach_succ {R : Runtime} (n : ℕ) (env : Env R) (v : TypedValue R) (i : Word)
    (w : R.World) : evalForEach Γ (n + 1) returnType env binding v i body w =
      (lengthOf v w).bind fun (len, w) => len.word.bind fun l =>
        if i.slt l then
          (itemOf v i w).bind fun (item, w) =>
            (evalBlock Γ n returnType (Function.update env binding (some item)) body w).bind
              fun (outcome, w) =>
                match outcome with
                | .normal env => evalForEach Γ n returnType env binding v (i + 1) body w
                | .returned v => some (.returned v, w)
        else some (.normal env, w) := by
  rw [evalForEach]
  rfl

/-- The evaluator runs a loop through its points. -/
theorem evalForEach_leaves (n : ℕ) : ∀ {texts : List Bytes} {env : Env nativeRuntime} {i : Word}
    {w : NativeWorld} {r : Outcome nativeRuntime × NativeWorld},
    Visits Γ returnType binding ⟨.str, nativeRuntime.text s⟩ body env₀ w₀ texts (.head env i w) →
    evalForEach Γ n returnType env binding ⟨.str, nativeRuntime.text s⟩ i body w = some r →
    ∃ texts' p, Visits Γ returnType binding ⟨.str, nativeRuntime.text s⟩ body env₀ w₀ texts' p ∧
      p.Leaves Γ returnType ⟨.str, nativeRuntime.text s⟩ body r := by
  induction n with
  | zero =>
      intro texts env i w r _ hrun
      cases hrun
  | succ n ih =>
      intro texts env i w r hvisits hrun
      replace hrun := (evalForEach_succ ..).symm.trans hrun
      change (if i.slt (BitVec.ofNat 64 (cString s).length) then _ else _) = _ at hrun
      have htest := loopTest_literal s i w
      split at hrun
      next hslt =>
        obtain ⟨⟨item, w₁⟩, hitem, hrun⟩ := Option.bind_eq_some_iff.mp hrun
        obtain ⟨⟨outcome, w₂⟩, hbody, hrun⟩ := Option.bind_eq_some_iff.mp hrun
        obtain ⟨text, htext⟩ := itemOf_reads hitem
        have hbound := hvisits.bind (htest.trans (congrArg some hslt)) hitem htext
        cases outcome with
        | normal env' => exact ih (hbound.body hbody) hrun
        | returned result =>
            cases hrun
            exact ⟨_, _, hbound, n, hbody⟩
      next hslt =>
        cases hrun
        exact ⟨_, _, hvisits, htest.trans (congrArg some (eq_false_of_ne_true hslt)), rfl, rfl⟩

/-! ### Runs over a literal -/

/-- The texts bound so far are the first bytes of the literal, one each, and `i` counts them. -/
structure Progress (s : String) (texts : List Bytes) (i : Word) : Prop where
  index : i = BitVec.ofNat 64 texts.length
  le : texts.length ≤ (cString s).length
  texts_eq : texts = ((cString s).take texts.length).map fun byte => [byte]

/-- One turn of the loop binds the next byte. -/
theorem Progress.bind {texts : List Bytes} {i : Word} {w w' : NativeWorld}
    {item : TypedValue nativeRuntime} {text : Bytes} (h : Progress s texts i)
    (hlen : (cString s).length < 2 ^ 63)
    (htest : loopTest ⟨.str, nativeRuntime.text s⟩ i w = some true)
    (hitem : itemOf ⟨.str, nativeRuntime.text s⟩ i w = some (item, w'))
    (htext : w'.textArg item.value = some text) : Progress s (texts ++ [text]) (i + 1) := by
  obtain ⟨rfl, hle, heq⟩ := h
  have hk : texts.length < 2 ^ 63 := Nat.lt_of_le_of_lt hle hlen
  rw [loopTest_literal, slt_ofNat hk hlen, Option.some.injEq, decide_eq_true_eq] at htest
  have hbyte : (cString s)[(BitVec.ofNat 64 texts.length).toNat]? =
      some (cString s)[texts.length] := by
    rw [BitVec.toNat_ofNat, Nat.mod_eq_of_lt (by omega), List.getElem?_eq_getElem htest]
  rw [itemOf_literal (by rw [toInt_ofNat_of_lt hk]; omega) hbyte] at hitem
  cases hitem
  rw [textArg_pushSlot] at htext
  cases htext
  refine ⟨?_, ?_, ?_⟩
  · rw [List.length_append, List.length_singleton, BitVec.ofNat_add]
    rfl
  · rw [List.length_append, List.length_singleton]
    exact htest
  · rw [List.length_append, List.length_singleton, List.take_succ_eq_append_getElem htest,
      List.map_append, ← heq]
    rfl

/-- What the loop has bound, at every point of it. -/
theorem Visits.progress (hlen : (cString s).length < 2 ^ 63) {texts : List Bytes} {p : LoopPoint}
    (h : Visits Γ returnType binding ⟨.str, nativeRuntime.text s⟩ body env₀ w₀ texts p) :
    match p with
    | .head _ i _ => Progress s texts i
    | .bound _ i _ => Progress s texts (i + 1) := by
  induction h with
  | start => exact ⟨rfl, Nat.zero_le _, rfl⟩
  | bind _ htest hitem htext ih => exact ih.bind hlen htest hitem htext
  | body _ _ ih => exact ih

/-- A body without statements lets the loop come to every byte. -/
theorem exists_visits (Γ : EvalContext) (returnType : Ty) (binding : String)
    (env₀ : Env nativeRuntime) (w₀ : NativeWorld) (hlen : (cString s).length < 2 ^ 63) :
    ∀ k, k ≤ (cString s).length → ∃ texts env w, texts.length = k ∧
      Visits Γ returnType binding ⟨.str, nativeRuntime.text s⟩ [] env₀ w₀ texts
        (.head env (BitVec.ofNat 64 k) w) := by
  intro k
  induction k with
  | zero =>
      intro _
      exact ⟨[], env₀, w₀, rfl, .start⟩
  | succ k ih =>
      intro hk
      obtain ⟨texts, env, w, hlength, hvisits⟩ := ih (by omega)
      have htest : loopTest ⟨.str, nativeRuntime.text s⟩ (BitVec.ofNat 64 k) w = some true := by
        rw [loopTest_literal, slt_ofNat (by omega) hlen, decide_eq_true (by omega)]
      have hbyte : (cString s)[(BitVec.ofNat 64 k).toNat]? = some (cString s)[k] := by
        rw [BitVec.toNat_ofNat, Nat.mod_eq_of_lt (by omega), List.getElem?_eq_getElem]
      have hitem := itemOf_literal (w := w) (by rw [toInt_ofNat_of_lt (by omega)]; omega) hbyte
      have hbound := hvisits.bind htest hitem (textArg_pushSlot ..)
      have hempty : ∀ env w, evalBlock (R := nativeRuntime) Γ 2 returnType env [] w =
          some (.normal (leaveScope Γ.scoping [] env (enterScope Γ.scoping [] env)), w) := by
        intro env w
        simp [evalBlock, evalStmts, declaredNames, leaveBlock]
      have hlonger : (texts ++ [[(cString s)[k]]]).length = k + 1 := by
        rw [List.length_append, hlength, List.length_singleton]
      have hword : BitVec.ofNat 64 (k + 1) = BitVec.ofNat 64 k + 1 := BitVec.ofNat_add ..
      rw [hword]
      exact ⟨_, _, _, hlonger, hbound.body (hempty _ _)⟩

/-! ### The engine's texts -/

theorem stringIterator_cons {u : ℕ} (h : isHighSurrogate u = false) (units : List ℕ) :
    stringIterator (u :: units) = [u] :: stringIterator units := by
  cases units with
  | nil => rfl
  | cons v units => simp [stringIterator, h]

theorem stringIterator_pair {u v : ℕ} (hu : isHighSurrogate u = true) (hv : isLowSurrogate v = true)
    (units : List ℕ) : stringIterator (u :: v :: units) = [u, v] :: stringIterator units := by
  simp [stringIterator, hu, hv]

/-- The iterator gives the characters. -/
theorem stringIterator_utf16 (t : List Char) : stringIterator (utf16 t) = t.map utf16Units := by
  induction t with
  | nil => rfl
  | cons c t ih =>
      rw [utf16_cons, List.map_cons, ← ih]
      rcases utf16Units_cases c with ⟨hone, hu⟩ | ⟨high, low, hpair, hhigh, hlow⟩
      · rw [hone]
        exact stringIterator_cons hu _
      · rw [hpair]
        exact stringIterator_pair hhigh hlow _

/-- One byte is the text of an ASCII character only. -/
theorem SameText.ascii {byte : UInt8} {c : Char} (h : SameText [byte] (utf16Units c)) :
    c.toNat < 128 ∧ byte = charByte c := by
  obtain ⟨t, hbytes, hunits⟩ := h
  obtain ⟨d, rfl, hd, hbyte⟩ := eq_of_utf8_singleton hbytes
  rw [utf16_cons, utf16_nil, List.append_nil, utf16Units_of_lt (by omega)] at hunits
  have hcd : c = d := Char.toNat_inj.mp (toNat_eq_of_utf16Units hunits.symm)
  exact ⟨hcd ▸ hd, hcd ▸ hbyte⟩

theorem SameText.of_ascii {c : Char} (h : c.toNat < 128) :
    SameText [charByte c] (utf16Units c) := by
  refine ⟨[c], ?_, ?_⟩
  · rw [utf8_cons, utf8EncodeChar_ascii h]
    rfl
  · rw [utf16_cons, utf16_nil, List.append_nil]

/-! ### Sizes -/

theorem jsPtSizeOf_eq (s : String) : jsPtSizeOf s = some ((utf16 s.toList).length : ℤ) := rfl

/-- `tamanho de` a literal, whatever the fuel. -/
theorem word_of_tamanhoDe {n : ℕ} {env : Env nativeRuntime} {w w' : NativeWorld}
    {r : TypedValue nativeRuntime}
    (h : evalExpr Γ n env (.unary .tamanhoDe (.string s)) w = some (r, w')) :
    r.word = some (BitVec.ofNat 64 (cString s).length) := by
  match n, h with
  | 0, h => cases h
  | 1, h => cases h
  | n + 2, h =>
      cases h
      rfl

/-- Where the sizes agree they fit a word. -/
theorem length_of_size (h : (BitVec.ofNat 64 (cString s).length).toInt = (utf16 s.toList).length) :
    (cString s).length < 2 ^ 63 := by
  have hle : (cString s).length ≤ 3 * (utf16 s.toList).length := by
    rw [cString_eq]
    exact (List.takeWhile_sublist _).length_le.trans (length_utf8_le _)
  have hsigned := BitVec.toInt_eq_toNat_cond (BitVec.ofNat 64 (cString s).length)
  rw [h, BitVec.toNat_ofNat] at hsigned
  split at hsigned
  all_goals omega

/-! ### When they agree -/

theorem ne_zero_of_mem_cString {byte : UInt8} (h : byte ∈ cString s) : byte ≠ 0 := by
  simpa using List.mem_takeWhile_imp h

theorem cString_of_plain (h : ∀ c ∈ s.toList, c ≠ '\x00' ∧ c.toNat < 128) :
    cString s = s.toList.map charByte := by
  have hascii : Ascii s.toList := fun c hc => (h c hc).2
  rw [cString_eq, utf8_of_ascii hascii, List.takeWhile_eq_self_iff]
  intro byte hbyte
  obtain ⟨c, hc, rfl⟩ := List.mem_map.mp hbyte
  rw [decide_eq_true_eq]
  intro hzero
  exact (h c hc).1 (charByte_inj (hascii c hc) (by decide) hzero)

/-- Both see the same text exactly when all its characters are ASCII and none is NUL; a text has
fewer than `2 ^ 63` of them. -/
theorem textsAgree_iff (s : String) :
    TextsAgree s ↔
      (∀ c ∈ s.toList, c ≠ '\x00' ∧ c.toNat < 128) ∧ s.toList.length < 2 ^ 63 := by
  constructor
  · intro h
    have hsize := h.size ⟨.flat, [], []⟩ 2 (fun _ => none) .initial _ _ rfl
    change some (BitVec.ofNat 64 (cString s).length).toInt = _ at hsize
    rw [jsPtSizeOf_eq, Option.some.injEq] at hsize
    have hlen := length_of_size hsize
    obtain ⟨texts, env, w, hlength, hvisits⟩ := exists_visits ⟨.flat, [], []⟩ .i64 "c"
      (fun _ => none) .initial hlen _ (Nat.le_refl _)
    obtain ⟨hsame, hend⟩ := h.items _ _ _ _ _ _ _ _ hvisits
    -- a full run of the native loop is one that ends: both lists of texts are whole
    have hleft : loopTest ⟨.str, nativeRuntime.text s⟩ (BitVec.ofNat 64 (cString s).length) w =
        some false := by
      rw [loopTest_literal, slt_ofNat hlen hlen, decide_eq_false (Nat.lt_irrefl _)]
    have hbytes := (hvisits.progress hlen).texts_eq
    rw [hlength, List.take_length] at hbytes
    rw [hend _ _ _ rfl hleft, List.take_length, forOfTexts, stringIterator_utf16, hbytes,
      List.forall₂_map_left_iff, List.forall₂_map_right_iff] at hsame
    refine ⟨?_, hsame.length_eq ▸ hlen⟩
    intro c hc
    obtain ⟨i, hi, rfl⟩ := List.getElem_of_mem hc
    have hi' : i < (cString s).length := hsame.length_eq ▸ hi
    obtain ⟨hascii, hbyte⟩ := SameText.ascii ((List.forall₂_iff_get.mp hsame).2 i hi' hi)
    refine ⟨?_, hascii⟩
    intro hnul
    rw [List.get_eq_getElem, List.get_eq_getElem, hnul] at hbyte
    exact ne_zero_of_mem_cString (List.getElem_mem hi') hbyte
  · rintro ⟨hplain, hlength⟩
    have hascii : Ascii s.toList := fun c hc => (hplain c hc).2
    have hbytes := cString_of_plain hplain
    have hbytesLength : (cString s).length = s.toList.length := by rw [hbytes, List.length_map]
    have hunits : forOfTexts s = s.toList.map utf16Units := stringIterator_utf16 _
    have hlen : (cString s).length < 2 ^ 63 := hbytesLength ▸ hlength
    constructor
    · intro Γ n env w r w' heval
      rw [word_of_tamanhoDe heval, jsPtSizeOf_eq, Option.map_some, toInt_ofNat_of_lt hlen,
        hbytesLength, utf16_of_ascii hascii, List.length_map]
    · intro Γ returnType binding body env w texts p hvisits
      have hprogress := hvisits.progress hlen
      obtain ⟨j, hj⟩ : ∃ j, Progress s texts j := by
        cases p with
        | head env i w => exact ⟨_, hprogress⟩
        | bound env i w => exact ⟨_, hprogress⟩
      have hsame : List.Forall₂ SameText (((cString s).take texts.length).map fun byte => [byte])
          ((forOfTexts s).take texts.length) := by
        rw [hbytes, hunits, ← List.map_take, ← List.map_take, List.map_map,
          List.forall₂_map_left_iff, List.forall₂_map_right_iff, List.forall₂_same]
        intro c hc
        exact SameText.of_ascii (hascii c (List.mem_of_mem_take hc))
      refine ⟨?_, ?_⟩
      · rw [← hj.texts_eq] at hsame
        exact hsame
      · intro env' i w' hp hleft
        subst hp
        have hle := hj.le
        rw [loopTest_literal, hprogress.index, slt_ofNat (Nat.lt_of_le_of_lt hle hlen) hlen,
          Option.some.injEq, decide_eq_false_iff_not] at hleft
        rw [hunits, List.length_map, ← hbytesLength]
        omega

/-- The two bytes of one letter are two items. -/
theorem accented_not_agree : ¬TextsAgree "é" := by
  intro h
  have hsize := h.size ⟨.flat, [], []⟩ 2 (fun _ => none) .initial _ _ rfl
  change some (BitVec.ofNat 64 (cString "é").length).toInt = _ at hsize
  rw [cString_eq] at hsize
  revert hsize
  decide +kernel

end Facts

end GatoCore.Native
