import GatoCore.Lib.Utf8
import GatoCore.Stdlib.ScanHistory

/-!
# Scanning texts

The bytes of a text pattern are the low bytes of its characters, and the text a heuristic searches
has one character for each byte of the file; the bytes of the file are UTF-8.
-/

namespace GatoCore.Stdlib

open GatoCore.Lib

variable {F R : Type}

/-! ## Searching -/

theorem bytesIndexOf_isSome (haystack needle : List UInt8) :
    (bytesIndexOf haystack needle).isSome = true ↔ needle <:+: haystack := by
  unfold bytesIndexOf
  split
  · case isTrue hempty => simp [hempty]
  · case isFalse hne =>
    rw [List.find?_isSome]
    constructor
    · rintro ⟨i, -, hstarts⟩
      have hdrop := List.isPrefixOf_iff_prefix.mp hstarts
      exact hdrop.isInfix.trans (List.drop_suffix i haystack).isInfix
    · rintro ⟨pre, post, rfl⟩
      refine ⟨pre.length, ?_, ?_⟩
      · simp only [List.mem_range, List.length_append]
        have := List.length_pos_iff.mpr hne
        omega
      · rw [List.isPrefixOf_iff_prefix, List.append_assoc, List.drop_left]
        exact List.prefix_append _ _

/-- A character for each byte. -/
def byteChar (b : UInt8) : Char := Char.ofNat b.toNat

theorem charByte_byteChar (b : UInt8) : charByte (byteChar b) = b := by
  have hlt := b.toNat_lt
  rw [charByte, byteChar, toNat_charOfNat (Or.inl (by omega)), UInt8.ofNat_toNat]

theorem byteChar_charByte {c : Char} (h : c.toNat < 256) : byteChar (charByte c) = c := by
  have hnat : (charByte c).toNat = c.toNat := by
    simp only [charByte, UInt8.toNat_ofNat']
    omega
  rw [byteChar, hnat, Char.ofNat_toNat]

theorem latin1_eq (bytes : List UInt8) : latin1 bytes = bytes.map byteChar := rfl

/-- In a text made of bytes, a text made of bytes is found where its bytes are. -/
theorem infix_latin1_iff {s : Text} (h : ∀ c ∈ s, c.toNat < 256) (bytes : List UInt8) :
    s <:+: latin1 bytes ↔ s.map charByte <:+: bytes := by
  have hs : (s.map charByte).map byteChar = s := by
    rw [List.map_map]
    exact (List.map_congr_left fun c hc => byteChar_charByte (h c hc)).trans (List.map_id s)
  constructor
  · intro hfound
    have hbytes := hfound.map charByte
    rw [latin1_eq, List.map_map] at hbytes
    have hid : charByte ∘ byteChar = id := funext charByte_byteChar
    rwa [hid, List.map_id] at hbytes
  · intro hfound
    have htext := hfound.map byteChar
    rwa [hs] at htext

/-- A character that is no byte is in no such text. -/
theorem not_infix_latin1 {s : Text} {c : Char} (hc : c ∈ s) (hbig : 256 ≤ c.toNat)
    (bytes : List UInt8) : ¬ s <:+: latin1 bytes := by
  intro hfound
  obtain ⟨b, -, hb⟩ := List.mem_map.mp (hfound.subset hc)
  have hlt := b.toNat_lt
  rw [← hb, toNat_charOfNat (Or.inl (by omega))] at hbig
  omega

/-- The low bytes of a text find it in every file exactly when it is ASCII. -/
theorem lowBytes_detect_iff (s : Text) :
    (∀ t, s.map charByte <:+: utf8 t ↔ s <:+: t) ↔ Ascii s := by
  constructor
  · intro hdetects
    by_contra hascii
    refine not_detects ?_ hdetects
    rw [List.length_map]
    exact length_lt_utf8 hascii
  · exact fun hascii t => infix_utf8_iff hascii t

theorem latin1_detect_iff (s : Text) :
    (∀ t, s <:+: latin1 (utf8 t) ↔ s <:+: t) ↔ Ascii s := by
  by_cases hbytes : ∀ c ∈ s, c.toNat < 256
  · simp only [infix_latin1_iff hbytes]
    exact lowBytes_detect_iff s
  · constructor
    · intro hdetects
      obtain ⟨c, hc, hbig⟩ : ∃ c ∈ s, 256 ≤ c.toNat := by
        simpa only [not_forall, exists_prop, Nat.not_lt] using hbytes
      exact (not_infix_latin1 hc hbig (utf8 s) ((hdetects s).mpr List.infix_rfl)).elim
    · intro hascii
      exact (hbytes fun c hc => Nat.lt_trans (hascii c hc) (by decide)).elim

/-! ## Reports -/

/-- The scan ended well and lists a match. -/
def Reports (tipo : String) (nome : JsValue F R)
    (res : Option (CallResult F R (Varredura F R))) : Prop :=
  ∃ v, res = some (.ok v) ∧ ⟨tipo, nome⟩ ∈ v.correspondencias

/-- No other element of the list has its name. -/
def OnlyOfItsName (item : JsValue F R) (items : List (JsValue F R)) : Prop :=
  item ∈ items ∧ ∀ other ∈ items, other.property "nome" = item.property "nome" → other = item

theorem mem_matchesOf_of_only {tipo : String} {item : JsValue F R} {items : List (JsValue F R)}
    (honly : OnlyOfItsName item items) {P : JsValue F R → Bool → Prop} {verdicts : List Bool}
    (h : List.Forall₂ P items verdicts) {b : Bool} (hb : ∀ v, P item v → v = b) :
    ⟨tipo, item.property "nome"⟩ ∈ matchesOf tipo items verdicts ↔ b = true := by
  rw [matchesOf, List.mem_filterMap]
  constructor
  · rintro ⟨⟨other, verdict⟩, hzip, hsome⟩
    have hP := (List.forall₂_iff_zip.mp h).2 hzip
    cases verdict with
    | false => simp at hsome
    | true =>
        have hname : other.property "nome" = item.property "nome" := by
          simpa using congrArg Correspondencia.nome (Option.some.inj hsome)
        rw [honly.2 other (List.of_mem_zip hzip).1 hname] at hP
        exact (hb true hP).symm
  · rintro rfl
    obtain ⟨i, hi, hitem⟩ := List.mem_iff_getElem.mp honly.1
    have hlen := h.length_eq
    have hzip : (item, verdicts[i]) ∈ items.zip verdicts := by
      rw [List.mem_iff_getElem]
      exact ⟨i, by simp; omega, by simp [hitem]⟩
    refine ⟨_, hzip, ?_⟩
    rw [hb _ ((List.forall₂_iff_zip.mp h).2 hzip)]
    rfl

theorem not_mem_matchesOf {tipo tipo' : String} (h : tipo ≠ tipo') (nome : JsValue F R)
    (items : List (JsValue F R)) (verdicts : List Bool) :
    ⟨tipo, nome⟩ ∉ matchesOf tipo' items verdicts := by
  rw [matchesOf, List.mem_filterMap]
  rintro ⟨⟨other, verdict⟩, -, hsome⟩
  cases verdict with
  | false => simp at hsome
  | true => exact h (by simpa using congrArg Correspondencia.tipo (Option.some.inj hsome).symm)

section Engine

variable [DecidableEq R] (js : ScanHost F R)

/-- In every file with the bytes of a text, the engine reports the match exactly when the text
contains `s`. -/
def Detects (engine : ScanEngine F R) (tipo : String) (nome : JsValue F R) (s : Text) : Prop :=
  ∀ (t path : Text) (files : ScanFiles) (last : LastIndex R), files.existe path = true →
    files.lerBytes path = some (utf8 t) →
    (Reports tipo nome (runState (engine.varrer_arquivo js files path) last).1 ↔ s <:+: t)

variable {js}

omit [DecidableEq R] in
/-- A text pattern is searched by its low bytes. -/
theorem signatureMatches_text {s : Text} (hs : s ≠ []) (name info : JsValue F R)
    (bytes : List UInt8) :
    signatureMatches js (buildBinarySignature js name (.text s) info) bytes =
      some (decide (s.map charByte <:+: bytes)) := by
  have hpattern : (buildBinarySignature js name (.text s) info).property "padrao_bytes" =
      .bytes (s.map charByte) := by
    simp [buildBinarySignature]
    rfl
  have htruthy : (JsValue.bytes (s.map charByte) : JsValue F R).truthy = true := rfl
  have hne : s.map charByte ≠ [] := by simpa using hs
  simp only [signatureMatches, hpattern, JsValue.or_of_truthy htruthy,
    compileSignaturePattern_bytes, patternBytes, if_neg hne, Option.any_some]
  rw [Option.some.injEq, Bool.eq_iff_iff, bytesIndexOf_isSome, decide_eq_true_iff]

/-- A text rule is searched in the text. -/
theorem heuristicMatches_text (s : Text) (name info : JsValue F R) (bytes : List UInt8)
    (text : Text) (context : ScanContext F R) :
    heuristicMatches js (buildHeuristic name (.text s) info) bytes text context =
      pure (decide (s <:+: text)) := by
  have hrule : (buildHeuristic name (.text s) info : JsValue F R).property "regra" = .text s := by
    simp [buildHeuristic]
  simp only [heuristicMatches, hrule]

/-- What a file with some bytes gives. -/
theorem reports_varrer_arquivo {engine : ScanEngine F R} (hbroken : ¬ Broken js engine)
    {files : ScanFiles} {path : Text} {bytes : List UInt8} (hexiste : files.existe path = true)
    (hler : files.lerBytes path = some bytes) (last : LastIndex R) :
    ∃ found judged context,
      List.Forall₂ (fun sig v => signatureMatches js sig bytes = some v) engine.assinaturas found ∧
      List.Forall₂ (fun h v => ∃ last,
        (runState (heuristicMatches js h bytes (latin1 bytes) context) last).1 = v)
        engine.heuristicas judged ∧
      ∀ tipo nome, Reports tipo nome (runState (engine.varrer_arquivo js files path) last).1 ↔
        ⟨tipo, nome⟩ ∈ matchesOf "assinatura" engine.assinaturas found ++
          matchesOf "heuristica" engine.heuristicas judged := by
  let context : JsValue F R := .object true [("caminho", .text (resolveHostPath js.dirs path))]
  obtain ⟨found, hfound⟩ := exists_found_of_not_broken hbroken bytes
  have hscan := @varrer_bytes_of_found _ _ _ js engine (.bytes bytes) found hfound context last
  refine ⟨found, (judge js engine bytes context last).1, scanContext js bytes context,
    mapM_eq_some_iff.mp hfound, forall₂_runState_mapM _ _ _, ?_⟩
  intro tipo nome
  have hres : (runState (engine.varrer_arquivo js files path) last).1 =
      (runState (engine.varrer_bytes js (.bytes bytes) context) last).1.map .ok := by
    simp only [ScanEngine.varrer_arquivo, hexiste, Bool.not_true, Bool.false_eq_true,
      if_false, hler]
    rfl
  rw [Reports, hres, hscan]
  constructor
  · rintro ⟨v, hv, hmem⟩
    cases hv
    exact hmem
  · intro hmem
    exact ⟨_, rfl, hmem⟩

/-- What is reported of the files with the bytes of a text depends on the text alone. -/
theorem detects_iff_of_reports {engine : ScanEngine F R} {tipo : String} {nome : JsValue F R}
    {s : Text} {found : Text → Prop}
    (h : ∀ (t path : Text) (files : ScanFiles) (last : LastIndex R), files.existe path = true →
      files.lerBytes path = some (utf8 t) →
      (Reports tipo nome (runState (engine.varrer_arquivo js files path) last).1 ↔ found t)) :
    Detects js engine tipo nome s ↔ ∀ t, found t ↔ s <:+: t := by
  constructor
  · intro hdetects t
    let files : ScanFiles := ⟨fun _ => true, fun _ => some (utf8 t)⟩
    exact (h t [] files (fun _ => 0) rfl rfl).symm.trans (hdetects t [] files (fun _ => 0) rfl rfl)
  · intro hfound t path files last hexiste hler
    exact (h t path files last hexiste hler).trans (hfound t)

theorem detects_signature_iff {engine : ScanEngine F R} (hbroken : ¬ Broken js engine) {s : Text}
    (hs : s ≠ []) {name info : JsValue F R}
    (honly : OnlyOfItsName (buildBinarySignature js name (.text s) info) engine.assinaturas) :
    Detects js engine "assinatura"
        ((buildBinarySignature js name (.text s) info).property "nome") s ↔ Ascii s := by
  rw [← lowBytes_detect_iff]
  have hreports : ∀ (t path : Text) (files : ScanFiles) (last : LastIndex R),
      files.existe path = true → files.lerBytes path = some (utf8 t) →
      (Reports "assinatura" ((buildBinarySignature js name (.text s) info).property "nome")
        (runState (engine.varrer_arquivo js files path) last).1 ↔ s.map charByte <:+: utf8 t) := by
    intro t path files last hexiste hler
    obtain ⟨found, judged, context, hfound, -, hreports⟩ :=
      reports_varrer_arquivo hbroken hexiste hler last
    rw [hreports, List.mem_append, or_iff_left (not_mem_matchesOf (by decide) _ _ _),
      mem_matchesOf_of_only honly hfound (b := decide (s.map charByte <:+: utf8 t)) ?_,
      decide_eq_true_iff]
    intro v hv
    rw [signatureMatches_text hs] at hv
    exact (Option.some.inj hv).symm
  exact detects_iff_of_reports hreports

theorem detects_heuristic_iff {engine : ScanEngine F R} (hbroken : ¬ Broken js engine) {s : Text}
    {name info : JsValue F R}
    (honly : OnlyOfItsName (buildHeuristic name (.text s) info) engine.heuristicas) :
    Detects js engine "heuristica"
        ((buildHeuristic name (.text s) info : JsValue F R).property "nome") s ↔ Ascii s := by
  rw [← latin1_detect_iff]
  have hreports : ∀ (t path : Text) (files : ScanFiles) (last : LastIndex R),
      files.existe path = true → files.lerBytes path = some (utf8 t) →
      (Reports "heuristica" ((buildHeuristic name (.text s) info : JsValue F R).property "nome")
        (runState (engine.varrer_arquivo js files path) last).1 ↔ s <:+: latin1 (utf8 t)) := by
    intro t path files last hexiste hler
    obtain ⟨found, judged, context, -, hjudged, hreports⟩ :=
      reports_varrer_arquivo hbroken hexiste hler last
    rw [hreports, List.mem_append, or_iff_right (not_mem_matchesOf (by decide) _ _ _),
      mem_matchesOf_of_only honly hjudged (b := decide (s <:+: latin1 (utf8 t))) ?_,
      decide_eq_true_iff]
    rintro v ⟨last, hv⟩
    rw [heuristicMatches_text] at hv
    exact hv.symm
  exact detects_iff_of_reports hreports

variable (js)

/-- A text that is a signature or a heuristic of an engine, alone with its name, is reported in
exactly the files whose text contains it, if and only if it is ASCII. -/
theorem texts_detected_iff (engine : ScanEngine F R) (hbroken : ¬ Broken js engine) (s : Text)
    (hs : s ≠ []) (name info : JsValue F R) :
    (OnlyOfItsName (buildBinarySignature js name (.text s) info) engine.assinaturas →
      (Detects js engine "assinatura"
        ((buildBinarySignature js name (.text s) info).property "nome") s ↔ Ascii s)) ∧
    (OnlyOfItsName (buildHeuristic name (.text s) info) engine.heuristicas →
      (Detects js engine "heuristica"
        ((buildHeuristic name (.text s) info : JsValue F R).property "nome") s ↔ Ascii s)) :=
  ⟨detects_signature_iff hbroken hs, detects_heuristic_iff hbroken⟩

end Engine

/-- `assinatura_binaria("evil", "evil")`. -/
def evilSignature : JsValue Unit Unit :=
  buildBinarySignature globalA (.text "evil".toList) (.text "evil".toList) .undefined

/-- `heuristica("evil", "evil")`. -/
def evilHeuristic : JsValue Unit Unit :=
  buildHeuristic (.text "evil".toList) (.text "evil".toList) .undefined

/-- The engine with just these two. -/
theorem texts_detected_iff_evil :
    (Detects globalA ⟨[evilSignature], [evilHeuristic]⟩ "assinatura" (evilSignature.property "nome")
        "evil".toList ↔ Ascii "evil".toList) ∧
      (Detects globalA ⟨[evilSignature], [evilHeuristic]⟩ "heuristica"
        (evilHeuristic.property "nome") "evil".toList ↔ Ascii "evil".toList) := by
  have hbroken : ¬ Broken globalA ⟨[evilSignature], [evilHeuristic]⟩ := by
    rintro ⟨sig, hmem, hnone⟩
    rw [List.mem_singleton] at hmem
    subst hmem
    revert hnone
    decide
  have hboth := texts_detected_iff globalA ⟨[evilSignature], [evilHeuristic]⟩ hbroken
    "evil".toList (by decide) (.text "evil".toList) .undefined
  refine ⟨hboth.1 ⟨List.mem_singleton_self _, ?_⟩, hboth.2 ⟨List.mem_singleton_self _, ?_⟩⟩
  · intro other hmem _
    exact List.mem_singleton.mp hmem
  · intro other hmem _
    exact List.mem_singleton.mp hmem

/-- `assinatura_binaria("vírus", "é")`. -/
def acuteSignature : JsValue Unit Unit :=
  buildBinarySignature globalA (.text "vírus".toList) (.text "é".toList) .undefined

/-- `heuristica("vírus", "é")`. -/
def acuteHeuristic : JsValue Unit Unit :=
  buildHeuristic (.text "vírus".toList) (.text "é".toList) .undefined

/-- A file with the text `é` is clean. -/
theorem acute_not_detected :
    ¬ Detects globalA ⟨[acuteSignature], [acuteHeuristic]⟩ "assinatura"
        (acuteSignature.property "nome") "é".toList ∧
      ¬ Detects globalA ⟨[acuteSignature], [acuteHeuristic]⟩ "heuristica"
        (acuteHeuristic.property "nome") "é".toList := by
  let files : ScanFiles := ⟨fun _ => true, fun _ => some [0xc3, 0xa9]⟩
  have hclean :
    ((runState ((⟨[acuteSignature], [acuteHeuristic]⟩ : ScanEngine Unit Unit).varrer_arquivo
      globalA files []) fun _ => 0).1.bind fun
        | .ok v => some v.correspondencias.length
        | .erro .. => none) = some 0 := by decide
  have hnone : ∀ tipo nome, ¬ Reports tipo nome (runState
      ((⟨[acuteSignature], [acuteHeuristic]⟩ : ScanEngine Unit Unit).varrer_arquivo
        globalA files [])
      fun _ => 0).1 := by
    rintro tipo nome ⟨v, hv, hmem⟩
    rw [hv, Option.bind_some, Option.some.injEq, List.length_eq_zero_iff] at hclean
    rw [hclean] at hmem
    cases hmem
  constructor
  · intro hdetects
    exact hnone _ _ ((hdetects "é".toList [] files (fun _ => 0) rfl rfl).mpr List.infix_rfl)
  · intro hdetects
    exact hnone _ _ ((hdetects "é".toList [] files (fun _ => 0) rfl rfl).mpr List.infix_rfl)

end GatoCore.Stdlib
