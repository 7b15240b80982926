import GatoCore.Stdlib.ScanText

/-!
# Scanning for bytes

Source: `bytesIndexOf`, `compileSignaturePattern`, `signatureMatches`, `detectFileType` and
`varrer_bytes` of `stdlib/ptstdlib.js`.

A signature is read in three places: its `padrao_bytes`, its `padrao`, or itself. However it is
stored, a scan lists it exactly when its bytes stand somewhere in the file.
-/

namespace GatoCore.Stdlib

open GatoCore.Lib

variable {F R : Type}

/-! ## Searching -/

/-- The index of the loop of `bytesIndexOf` is that of the first place. -/
theorem bytesIndexOf_eq_some_iff {haystack needle : List UInt8} (hne : needle ≠ []) (i : ℕ) :
    bytesIndexOf haystack needle = some i ↔
      needle <+: haystack.drop i ∧ ∀ j < i, ¬ needle <+: haystack.drop j := by
  rw [bytesIndexOf, if_neg hne, List.find?_range_eq_some]
  constructor
  · rintro ⟨hstarts, -, hbefore⟩
    refine ⟨List.isPrefixOf_iff_prefix.mp hstarts, fun j hj hstarts' => ?_⟩
    have hj' := hbefore j hj
    rw [List.isPrefixOf_iff_prefix.mpr hstarts'] at hj'
    cases hj'
  · rintro ⟨hstarts, hbefore⟩
    refine ⟨List.isPrefixOf_iff_prefix.mpr hstarts, ?_, fun j hj => ?_⟩
    · -- the last place that is tried leaves room for the needle
      have hlen := hstarts.length_le
      have hpos := List.length_pos_iff.mpr hne
      rw [List.length_drop] at hlen
      rw [List.mem_range]
      omega
    · rw [Bool.not_eq_true', Bool.eq_false_iff]
      intro hstarts'
      exact hbefore j hj (List.isPrefixOf_iff_prefix.mp hstarts')

theorem bytesIndexOf_eq_none_iff (haystack needle : List UInt8) :
    bytesIndexOf haystack needle = none ↔ ¬ needle <:+: haystack := by
  rw [← bytesIndexOf_isSome, Bool.not_eq_true, Option.isSome_eq_false_iff,
    Option.isNone_iff_eq_none]

/-! ## Signatures -/

section Patterns

variable (js : ScanHost F R)

/-- The bytes of a value: those of a signature are in its `padrao_bytes`, a typed array or an array,
other values are converted. -/
inductive ReadsAs : JsValue F R → List UInt8 → Prop
  | value {v : JsValue F R} (h : isResource "assinatura_binaria" v = false) :
      ReadsAs v (toBytes js.conv v)
  | signature {v : JsValue F R} {p : List UInt8} (h : isResource "assinatura_binaria" v = true)
      (hp : v.property "padrao_bytes" = .bytes p) : ReadsAs v p
  | elements {v : JsValue F R} {items : List (JsValue F R)} {p : List UInt8}
      (h : isResource "assinatura_binaria" v = true) (hp : v.property "padrao_bytes" = .array items)
      (hitems : items.mapM exactByte = some p) : ReadsAs v p

/-- A signature that looks for bytes, in one of the shapes in which an engine holds it. -/
inductive BytePattern : JsValue F R → List UInt8 → Prop
  | compiled {sig : JsValue F R} {p : List UInt8}
      (hthere : (sig.property "padrao_bytes").truthy = true)
      (h : ReadsAs js (sig.property "padrao_bytes") p) : BytePattern sig p
  | given {sig : JsValue F R} {p : List UInt8}
      (hmissing : (sig.property "padrao_bytes").truthy = false)
      (hthere : (sig.property "padrao").truthy = true)
      (h : ReadsAs js (sig.property "padrao") p) : BytePattern sig p
  | bare {sig : JsValue F R} {p : List UInt8}
      (hmissing : (sig.property "padrao_bytes").truthy = false)
      (hmissing' : (sig.property "padrao").truthy = false) (h : ReadsAs js sig p) :
      BytePattern sig p

variable {js}

theorem patternBytes_bytes (p : List UInt8) :
    patternBytes (.bytes p : JsValue F R) = if p = [] then none else some p := rfl

theorem patternBytes_array {items : List (JsValue F R)} {p : List UInt8}
    (h : items.mapM exactByte = some p) :
    patternBytes (.array items) = if p = [] then none else some p := by
  cases items with
  | nil =>
      cases h
      rfl
  | cons item items =>
      have hp : p ≠ [] := by
        rintro rfl
        rw [List.mapM_cons] at h
        cases hitem : exactByte item with
        | none => simp [hitem] at h
        | some b => cases hrest : items.mapM exactByte <;> simp [hitem, hrest] at h
      rw [patternBytes, if_neg (by simp), h, if_neg hp]

/-- What `compileSignaturePattern` returns has a length, and its elements are the bytes. -/
theorem ReadsAs.compile {v : JsValue F R} {p : List UInt8} (h : ReadsAs js v p) :
    compileSignaturePattern js v ≠ .undefined ∧ compileSignaturePattern js v ≠ .null ∧
      patternBytes (compileSignaturePattern js v) = if p = [] then none else some p := by
  cases h with
  | value h =>
      rw [compileSignaturePattern, h, if_neg Bool.false_ne_true]
      refine ⟨?_, ?_, patternBytes_bytes _⟩
      all_goals rintro ⟨⟩
  | signature h hp =>
      rw [compileSignaturePattern, h, if_pos rfl, hp]
      refine ⟨?_, ?_, patternBytes_bytes _⟩
      all_goals rintro ⟨⟩
  | elements h hp hitems =>
      rw [compileSignaturePattern, h, if_pos rfl, hp]
      refine ⟨?_, ?_, patternBytes_array hitems⟩
      all_goals rintro ⟨⟩

/-- The value `signatureMatches` compiles. -/
theorem BytePattern.readsAs {sig : JsValue F R} {p : List UInt8} (h : BytePattern js sig p) :
    ReadsAs js ((sig.property "padrao_bytes").or ((sig.property "padrao").or sig)) p := by
  cases h with
  | compiled hthere h => rwa [JsValue.or_of_truthy hthere]
  | given hmissing hthere h =>
      rwa [JsValue.or_of_not_truthy hmissing, JsValue.or_of_truthy hthere]
  | bare hmissing hmissing' h =>
      rwa [JsValue.or_of_not_truthy hmissing, JsValue.or_of_not_truthy hmissing']

/-- `p` is a pattern that stands in `bytes`. -/
def Occurs (p bytes : List UInt8) : Prop := p ≠ [] ∧ p <:+: bytes

instance (p bytes : List UInt8) : Decidable (Occurs p bytes) :=
  inferInstanceAs (Decidable (p ≠ [] ∧ p <:+: bytes))

theorem BytePattern.signatureMatches {sig : JsValue F R} {p : List UInt8}
    (h : BytePattern js sig p) (bytes : List UInt8) :
    signatureMatches js sig bytes = some (decide (Occurs p bytes)) := by
  obtain ⟨hundefined, hnull, hpattern⟩ := h.readsAs.compile
  rw [Stdlib.signatureMatches]
  generalize compileSignaturePattern js _ = pattern at hundefined hnull hpattern
  have hfound : ((patternBytes pattern).any fun needle => (bytesIndexOf bytes needle).isSome) =
      decide (Occurs p bytes) := by
    rw [hpattern, Bool.eq_iff_iff, decide_eq_true_iff]
    by_cases hp : p = []
    · simp [hp, Occurs]
    · rw [if_neg hp, Option.any_some, bytesIndexOf_isSome]
      exact (and_iff_right hp).symm
  cases pattern with
  | undefined => exact (hundefined rfl).elim
  | null => exact (hnull rfl).elim
  | _ => exact congrArg some hfound

end Patterns

/-! ## Kinds of files -/

/-- The kinds that make a file suspicious. -/
def ExecutableType (kind : Text) : Prop :=
  kind = "executavel_elf".toList ∨ kind = "executavel_windows".toList

instance (kind : Text) : Decidable (ExecutableType kind) :=
  inferInstanceAs (Decidable (_ ∨ _))

theorem suspicions_text (kind : Text) :
    suspicions (.text kind : JsValue F R) = if ExecutableType kind then ["executavel"] else [] := by
  simp only [suspicions, JsValue.asText_text, ExecutableType, List.mem_cons, List.not_mem_nil,
    or_false, Option.some.injEq]
  congr 1
  rw [or_comm]

section Engine

variable [DecidableEq R] {js : ScanHost F R}

/-- The context gives the file a type. -/
def Overrides (context : JsValue F R) : Prop :=
  context.isPlainObject = true ∧ (context.property "tipo_arquivo").truthy = true

/-- The path `detectFileType` is told. -/
def pathHint (context : JsValue F R) : JsValue F R :=
  if context.isPlainObject then (context.property "caminho").or (.text []) else .text []

omit [DecidableEq R] in
theorem scanContext_tipo_arquivo {context : JsValue F R} (h : ¬ Overrides context)
    (bytes : List UInt8) :
    (scanContext js bytes context).tipo_arquivo =
      .text (detectFileType js bytes (pathHint context)) := by
  unfold scanContext pathHint
  by_cases hplain : context.isPlainObject = true
  · have htype : (context.property "tipo_arquivo").truthy = false := by
      rw [Bool.eq_false_iff]
      exact fun htruthy => h ⟨hplain, htruthy⟩
    rw [if_pos hplain, if_pos hplain]
    exact JsValue.or_of_not_truthy htype _
  · rw [if_neg hplain, if_neg hplain]
    rfl

omit [DecidableEq R] in
theorem mapM_signatureMatches {sigs : List (JsValue F R)} {patterns : List (List UInt8)}
    (h : List.Forall₂ (BytePattern js) sigs patterns) (bytes : List UInt8) :
    (sigs.mapM fun sig => signatureMatches js sig bytes) =
      some (patterns.map fun p => decide (Occurs p bytes)) := by
  induction h with
  | nil => rfl
  | cons hsig _ ih =>
      rw [List.mapM_cons, hsig.signatureMatches, ih]
      rfl

omit [DecidableEq R] in
theorem matchesOf_map_decide (tipo : String) (sigs : List (JsValue F R))
    (patterns : List (List UInt8)) (P : List UInt8 → Prop) [DecidablePred P] :
    matchesOf tipo sigs (patterns.map fun p => decide (P p)) =
      ((sigs.zip patterns).filter fun entry => P entry.2).map fun entry =>
        ⟨tipo, entry.1.property "nome"⟩ := by
  induction sigs generalizing patterns with
  | nil => rfl
  | cons sig sigs ih =>
      cases patterns with
      | nil => rfl
      | cons p patterns =>
          have hrest := ih patterns
          rw [matchesOf] at hrest ⊢
          by_cases hp : P p
          · simp [hp, hrest]
          · simp [hp, hrest]

/-- The report of a scan with signatures alone. -/
structure ExactReport (sigs : List (JsValue F R)) (patterns : List (List UInt8))
    (bytes : List UInt8) (kind : Text) (res : Varredura F R) : Prop where
  correspondencias : res.correspondencias =
    ((sigs.zip patterns).filter fun entry => Occurs entry.2 bytes).map fun entry =>
      ⟨"assinatura", entry.1.property "nome"⟩
  tipo_arquivo : res.tipo_arquivo = .text kind
  detectado : res.veredicto = "detectado" ↔ res.correspondencias ≠ []
  suspeito : res.veredicto = "suspeito" ↔ res.correspondencias = [] ∧ ExecutableType kind
  limpo : res.veredicto = "limpo" ↔ res.correspondencias = [] ∧ ¬ ExecutableType kind

omit [DecidableEq R] in
theorem verdictOf_cases (found : List (Correspondencia F R)) (kind : Text) :
    (verdictOf found (suspicions (.text kind : JsValue F R)) = "detectado" ↔ found ≠ []) ∧
    (verdictOf found (suspicions (.text kind : JsValue F R)) = "suspeito" ↔
      found = [] ∧ ExecutableType kind) ∧
    (verdictOf found (suspicions (.text kind : JsValue F R)) = "limpo" ↔
      found = [] ∧ ¬ ExecutableType kind) := by
  rw [suspicions_text, verdictOf]
  by_cases hfound : found = []
  · by_cases hkind : ExecutableType kind
    · simp [hfound, hkind]
    · simp [hfound, hkind]
  · simp [hfound]

/-- A scan lists the signatures whose bytes stand in the file, in the order in which the engine
holds them, and its verdict follows. -/
theorem varrer_bytes_exact (engine : ScanEngine F R) (patterns : List (List UInt8))
    (hpatterns : List.Forall₂ (BytePattern js) engine.assinaturas patterns)
    (hheuristics : engine.heuristicas = []) (value context : JsValue F R)
    (hcontext : ¬ Overrides context) (last : LastIndex R) :
    (∃ res, runState (engine.varrer_bytes js value context) last = (some res, last) ∧
      ExactReport engine.assinaturas patterns (toBytes js.conv value)
        (detectFileType js (toBytes js.conv value) (pathHint context)) res) ∧
    ∀ haystack needle : List UInt8, needle ≠ [] →
      (∀ i, bytesIndexOf haystack needle = some i ↔
        needle <+: haystack.drop i ∧ ∀ j < i, ¬ needle <+: haystack.drop j) ∧
      (bytesIndexOf haystack needle = none ↔ ¬ needle <:+: haystack) := by
  refine ⟨?_, fun haystack needle hne =>
    ⟨bytesIndexOf_eq_some_iff hne, bytesIndexOf_eq_none_iff haystack needle⟩⟩
  have hscan : runState (engine.varrer_bytes js value context) last = _ :=
    varrer_bytes_of_found (mapM_signatureMatches hpatterns (toBytes js.conv value)) context last
  have hkind : (scanContext js (toBytes js.conv value) context).tipo_arquivo = _ :=
    scanContext_tipo_arquivo hcontext (toBytes js.conv value)
  have hjudge : judge js engine (toBytes js.conv value) context last = ([], last) := by
    rw [judge, hheuristics]
    rfl
  rw [hjudge, hheuristics] at hscan
  refine ⟨_, hscan, ?_⟩
  have hmatches : matchesOf (F := F) (R := R) "heuristica" [] [] = [] := rfl
  rw [hmatches, List.append_nil, matchesOf_map_decide]
  obtain ⟨hdetectado, hsuspeito, hlimpo⟩ := verdictOf_cases
    (((engine.assinaturas.zip patterns).filter fun entry =>
      Occurs entry.2 (toBytes js.conv value)).map fun entry =>
        (⟨"assinatura", entry.1.property "nome"⟩ : Correspondencia F R))
    (detectFileType js (toBytes js.conv value) (pathHint context))
  rw [← hkind] at hdetectado hsuspeito hlimpo
  exact ⟨rfl, hkind, hdetectado, hsuspeito, hlimpo⟩

/-- The first pattern stands at the end of the file, the second one is longer than it. -/
theorem varrer_bytes_exact_last :
    ∃ res, runState (ScanEngine.varrer_bytes globalA
        ⟨[.object true [("nome", .text ['m', 'z']), ("padrao_bytes", .bytes [0x4d, 0x5a])],
          .text ['a', 'b', 'c', 'd']], []⟩
        (.bytes [0, 0x4d, 0x5a]) .undefined) (fun _ => 0) = (some res, fun _ => 0) ∧
      ExactReport
        [.object true [("nome", .text ['m', 'z']), ("padrao_bytes", .bytes [0x4d, 0x5a])],
          .text ['a', 'b', 'c', 'd']]
        [[0x4d, 0x5a], utf8ishBytes ['a', 'b', 'c', 'd']] [0, 0x4d, 0x5a]
        (detectFileType globalA [0, 0x4d, 0x5a] (.text [])) res :=
  (varrer_bytes_exact ⟨_, []⟩ _
    (.cons (.compiled rfl (.value rfl)) (.cons (.bare rfl rfl (.value rfl)) .nil)) rfl
    (.bytes [0, 0x4d, 0x5a]) .undefined (by simp [Overrides, JsValue.isPlainObject])
    (fun _ => 0)).1

end Engine

end GatoCore.Stdlib
