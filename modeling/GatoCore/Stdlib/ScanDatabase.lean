import GatoCore.Stdlib.ScanHistory

/-!
# The two ways of loading a database

`motor_varredura` reads the pattern of an entry from `padrao` or `regra` only, and looks for the
entry itself when there is none; `atualizar_banco` goes on to `bytes` and `texto`, or `regex` and
`texto`.
-/

namespace GatoCore.Stdlib

open GatoCore.Lib

variable {F R : Type}

/-! ## Databases -/

/-- An entry of `assinaturas`; a field it has not is `undefined`, and `info` is its `meta`. -/
structure SignatureEntry (F R : Type) where
  nome : JsValue F R
  padrao : JsValue F R
  bytes : JsValue F R
  texto : JsValue F R
  info : JsValue F R

def SignatureEntry.toValue (e : SignatureEntry F R) : JsValue F R :=
  .object true [("nome", e.nome), ("padrao", e.padrao), ("bytes", e.bytes), ("texto", e.texto),
    ("meta", e.info)]

/-- An entry of `heuristicas`. -/
structure HeuristicEntry (F R : Type) where
  nome : JsValue F R
  regra : JsValue F R
  regex : JsValue F R
  texto : JsValue F R
  info : JsValue F R

def HeuristicEntry.toValue (e : HeuristicEntry F R) : JsValue F R :=
  .object true [("nome", e.nome), ("regra", e.regra), ("regex", e.regex), ("texto", e.texto),
    ("meta", e.info)]

structure Database (F R : Type) where
  assinaturas : List (SignatureEntry F R)
  heuristicas : List (HeuristicEntry F R)

def Database.toValue (db : Database F R) : JsValue F R :=
  .object true [("assinaturas", .array (db.assinaturas.map SignatureEntry.toValue)),
    ("heuristicas", .array (db.heuristicas.map HeuristicEntry.toValue))]

section Loading

variable (js : ScanHost F R)

/-- `motor_varredura(db)`. -/
def loadedEngine (db : Database F R) : ScanEngine F R := createScanEngine js db.toValue

/-- The engine `motor_varredura()` becomes by `atualizar_banco(db, engine)`. -/
def updatedEngine (db : Database F R) : Option (ScanEngine F R) :=
  (atualizar_banco js db.toValue (some (createScanEngine js .undefined))).bind Prod.fst

/-- What is compared of a scan. -/
def findings (varredura : Option (Varredura F R)) :
    Option (List (Correspondencia F R) × String) :=
  varredura.map fun v => (v.correspondencias, v.veredicto)

variable [DecidableEq R]

/-- Both engines say the same of all bytes in all contexts, from every state. -/
def LoadsAgree (db : Database F R) : Prop :=
  ∃ updated, updatedEngine js db = some updated ∧ ∀ value context last,
    findings (runState ((loadedEngine js db).varrer_bytes js value context) last).1 =
      findings (runState (updated.varrer_bytes js value context) last).1

/-- The signature has a pattern where `motor_varredura` looks, or the one it has elsewhere is found
in no bytes. -/
def SignatureEntry.Covered (e : SignatureEntry F R) : Prop :=
  e.padrao.truthy = true ∨
    ∀ bytes, signatureMatches js (signatureOfEntry js e.toValue) bytes = some false

/-- The heuristic has a rule where `motor_varredura` looks, or the one it has elsewhere never
matches. -/
def HeuristicEntry.Covered (e : HeuristicEntry F R) : Prop :=
  e.regra.truthy = true ∨ ∀ bytes context last,
    (runState (heuristicMatches js (heuristicOfEntry e.toValue) bytes (latin1 bytes)
      (scanContext js bytes context)) last).1 = false

def Database.Covered (db : Database F R) : Prop :=
  (∀ e ∈ db.assinaturas, e.Covered js) ∧ ∀ e ∈ db.heuristicas, e.Covered js

/-- A regular expression with flag `g` or `y` that stands in a field `motor_varredura` does not read
is the rule of that entry alone. -/
def Database.Unshared (db : Database F R) : Prop :=
  ∀ pre e post r, db.heuristicas = pre ++ e :: post → e.regra.truthy = false →
    statefulRule js (heuristicOfEntry e.toValue) = some r →
    ∀ e' ∈ pre ++ post, statefulRule js (heuristicOfEntry e'.toValue) ≠ some r

end Loading

/-! ## The entries in each engine -/

section Entries

variable {js : ScanHost F R}

/-- The signature `motor_varredura` makes of an entry. -/
def SignatureEntry.loaded (js : ScanHost F R) (e : SignatureEntry F R) : JsValue F R :=
  buildBinarySignature js e.nome (e.padrao.or e.toValue) e.info

def HeuristicEntry.loaded (e : HeuristicEntry F R) : JsValue F R :=
  buildHeuristic e.nome (e.regra.or e.toValue) e.info

@[simp] theorem SignatureEntry.isResource_toValue (e : SignatureEntry F R) (kind : String) :
    isResource kind e.toValue = false := by
  simp [isResource, toValue, JsValue.asText]

@[simp] theorem HeuristicEntry.isResource_toValue (e : HeuristicEntry F R) (kind : String) :
    isResource kind e.toValue = false := by
  simp [isResource, toValue, JsValue.asText]

@[simp] theorem isResource_buildBinarySignature (name pattern info : JsValue F R) :
    isResource "assinatura_binaria" (buildBinarySignature js name pattern info) = true := by
  simp [isResource, buildBinarySignature]

@[simp] theorem isResource_buildHeuristic (name rule info : JsValue F R) :
    isResource "heuristica" (buildHeuristic name rule info) = true := by
  simp [isResource, buildHeuristic]

theorem adicionar_assinatura_entry (engine : ScanEngine F R) (e : SignatureEntry F R) :
    engine.adicionar_assinatura js e.toValue =
      { engine with assinaturas := engine.assinaturas ++ [e.loaded js] } := by
  have htruthy : e.toValue.truthy = true := rfl
  simp only [ScanEngine.adicionar_assinatura, SignatureEntry.isResource_toValue,
    JsValue.and_of_truthy htruthy]
  simp [SignatureEntry.loaded, SignatureEntry.toValue]

theorem adicionar_heuristica_entry (engine : ScanEngine F R) (e : HeuristicEntry F R) :
    engine.adicionar_heuristica e.toValue =
      { engine with heuristicas := engine.heuristicas ++ [e.loaded] } := by
  have htruthy : e.toValue.truthy = true := rfl
  simp only [ScanEngine.adicionar_heuristica, HeuristicEntry.isResource_toValue,
    JsValue.and_of_truthy htruthy]
  simp [HeuristicEntry.loaded, HeuristicEntry.toValue]

/-- A signature already built is added as it is. -/
theorem adicionar_assinatura_built (engine : ScanEngine F R) (name pattern info : JsValue F R) :
    engine.adicionar_assinatura js (buildBinarySignature js name pattern info) =
      { engine with
        assinaturas := engine.assinaturas ++ [buildBinarySignature js name pattern info] } := by
  simp [ScanEngine.adicionar_assinatura]

theorem adicionar_heuristica_built (engine : ScanEngine F R) (name rule info : JsValue F R) :
    engine.adicionar_heuristica (buildHeuristic name rule info) =
      { engine with heuristicas := engine.heuristicas ++ [buildHeuristic name rule info] } := by
  simp [ScanEngine.adicionar_heuristica]

theorem foldl_adicionar_assinatura {ι : Type} {f g : ι → JsValue F R}
    (h : ∀ (engine : ScanEngine F R) i, engine.adicionar_assinatura js (f i) =
      { engine with assinaturas := engine.assinaturas ++ [g i] }) (engine : ScanEngine F R)
    (is : List ι) :
    (is.map f).foldl (ScanEngine.adicionar_assinatura js) engine =
      { engine with assinaturas := engine.assinaturas ++ is.map g } := by
  induction is generalizing engine with
  | nil => simp
  | cons i is ih => simp [h, ih]

theorem foldl_adicionar_heuristica {ι : Type} {f g : ι → JsValue F R}
    (h : ∀ (engine : ScanEngine F R) i, engine.adicionar_heuristica (f i) =
      { engine with heuristicas := engine.heuristicas ++ [g i] }) (engine : ScanEngine F R)
    (is : List ι) :
    (is.map f).foldl ScanEngine.adicionar_heuristica engine =
      { engine with heuristicas := engine.heuristicas ++ is.map g } := by
  induction is generalizing engine with
  | nil => simp
  | cons i is ih => simp [h, ih]

theorem Database.assinaturas_toValue (db : Database F R) :
    arrayItems (db.toValue.property "assinaturas") =
      db.assinaturas.map SignatureEntry.toValue := by
  simp [Database.toValue, arrayItems]

theorem Database.heuristicas_toValue (db : Database F R) :
    arrayItems (db.toValue.property "heuristicas") =
      db.heuristicas.map HeuristicEntry.toValue := by
  simp [Database.toValue, arrayItems]

theorem loadedEngine_eq (js : ScanHost F R) (db : Database F R) :
    loadedEngine js db =
      ⟨db.assinaturas.map (SignatureEntry.loaded js), db.heuristicas.map HeuristicEntry.loaded⟩ :=
        by
  simp [loadedEngine, createScanEngine, Database.toValue, JsValue.isPlainObject,
    JsValue.properties, arrayItems, foldl_adicionar_assinatura adicionar_assinatura_entry,
    foldl_adicionar_heuristica adicionar_heuristica_entry]

/-- The signature `atualizar_banco` makes of an entry. -/
def SignatureEntry.updated (js : ScanHost F R) (e : SignatureEntry F R) : JsValue F R :=
  signatureOfEntry js e.toValue

def HeuristicEntry.updated (e : HeuristicEntry F R) : JsValue F R := heuristicOfEntry e.toValue

theorem mapM_readable_signatures (js : ScanHost F R) (es : List (SignatureEntry F R)) :
    ((es.map SignatureEntry.toValue).mapM fun sig => (readable sig).map (signatureOfEntry js)) =
      some (es.map (SignatureEntry.updated js)) := by
  induction es with
  | nil => rfl
  | cons e es ih =>
      rw [List.map_cons, List.mapM_cons, ih]
      rfl

theorem mapM_readable_heuristics (es : List (HeuristicEntry F R)) :
    ((es.map HeuristicEntry.toValue).mapM fun h => (readable h).map heuristicOfEntry) =
      some (es.map HeuristicEntry.updated) := by
  induction es with
  | nil => rfl
  | cons e es ih =>
      rw [List.map_cons, List.mapM_cons, ih]
      rfl

theorem updatedEngine_eq (js : ScanHost F R) (db : Database F R) :
    updatedEngine js db = some
      ⟨db.assinaturas.map (SignatureEntry.updated js),
        db.heuristicas.map HeuristicEntry.updated⟩ := by
  have hsig : ∀ (engine : ScanEngine F R) (e : SignatureEntry F R),
      engine.adicionar_assinatura js (e.updated js) =
        { engine with assinaturas := engine.assinaturas ++ [e.updated js] } :=
    fun engine e => adicionar_assinatura_built engine _ _ _
  have hheur : ∀ (engine : ScanEngine F R) (e : HeuristicEntry F R),
      engine.adicionar_heuristica e.updated =
        { engine with heuristicas := engine.heuristicas ++ [e.updated] } :=
    fun engine e => adicionar_heuristica_built engine _ _ _
  have hempty : createScanEngine js .undefined = ⟨[], []⟩ := rfl
  have hspec : loadDatabaseSpec js db.toValue = .ok db.toValue := rfl
  have hread : readable db.toValue = some db.toValue := rfl
  simp only [updatedEngine, atualizar_banco, hspec, hread, hempty, Option.bind_eq_bind,
    Option.bind_some, Database.assinaturas_toValue, Database.heuristicas_toValue,
    mapM_readable_signatures, mapM_readable_heuristics, Option.map_some]
  rw [foldl_adicionar_assinatura hsig, foldl_adicionar_heuristica hheur]
  rfl

/-! ## One entry in both engines -/

theorem SignatureEntry.updated_eq (js : ScanHost F R) (e : SignatureEntry F R) :
    e.updated js = buildBinarySignature js e.nome
      (e.padrao.or (e.bytes.or (e.texto.or (.text [])))) e.info := by
  simp [updated, signatureOfEntry, toValue]

theorem HeuristicEntry.updated_eq (e : HeuristicEntry F R) :
    e.updated = buildHeuristic e.nome (e.regra.or (e.regex.or (e.texto.or (.text [])))) e.info := by
  simp [updated, heuristicOfEntry, toValue]

theorem SignatureEntry.loaded_eq_updated {e : SignatureEntry F R} (h : e.padrao.truthy = true) :
    e.loaded js = e.updated js := by
  rw [updated_eq, loaded, JsValue.or_of_truthy h, JsValue.or_of_truthy h]

theorem HeuristicEntry.loaded_eq_updated {e : HeuristicEntry F R} (h : e.regra.truthy = true) :
    e.loaded = e.updated := by
  rw [updated_eq, loaded, JsValue.or_of_truthy h, JsValue.or_of_truthy h]

@[simp] theorem SignatureEntry.toBytes_toValue (conv : Conversions F R) (e : SignatureEntry F R) :
    toBytes conv e.toValue = [] := by
  simp [toValue, toBytes, dadosBytes]

/-- Without `padrao`, the engine built at once looks for no bytes. -/
theorem SignatureEntry.loaded_silent {e : SignatureEntry F R} (h : e.padrao.truthy = false)
    (bytes : List UInt8) : signatureMatches js (e.loaded js) bytes = some false := by
  have hpattern : (e.loaded js).property "padrao_bytes" = .bytes [] := by
    simp [loaded, JsValue.or_of_not_truthy h, buildBinarySignature, compileSignaturePattern]
  have htruthy : (JsValue.bytes [] : JsValue F R).truthy = true := rfl
  simp [signatureMatches, hpattern, JsValue.or_of_truthy htruthy, patternBytes]

/-- Without `regra`, the engine built at once has a rule without conditions. -/
theorem HeuristicEntry.loaded_silent [DecidableEq R] {e : HeuristicEntry F R}
    (h : e.regra.truthy = false) (bytes : List UInt8) (text : Text) (context : ScanContext F R) :
    heuristicMatches js e.loaded bytes text context = pure false := by
  have hrule : e.loaded.property "regra" = e.toValue := by
    simp [loaded, JsValue.or_of_not_truthy h, buildHeuristic]
  simp [heuristicMatches, hrule, toValue, JsValue.truthy]

theorem SignatureEntry.nome_loaded (js : ScanHost F R) (e : SignatureEntry F R) :
    (e.loaded js).property "nome" = (e.updated js).property "nome" := by
  simp [updated_eq, loaded, buildBinarySignature]

theorem HeuristicEntry.nome_loaded (e : HeuristicEntry F R) :
    e.loaded.property "nome" = e.updated.property "nome" := by
  simp [updated_eq, loaded, buildHeuristic]

/-- Matches carry the names of the items and nothing else of them. -/
theorem matchesOf_map {ι : Type} (tipo : String) {f g : ι → JsValue F R}
    (h : ∀ i, (f i).property "nome" = (g i).property "nome") (is : List ι) (verdicts : List Bool) :
    matchesOf tipo (is.map f) verdicts = matchesOf tipo (is.map g) verdicts := by
  induction is generalizing verdicts with
  | nil => rfl
  | cons i is ih =>
      cases verdicts with
      | nil => rfl
      | cons verdict verdicts =>
          have hrest := ih verdicts
          simp only [matchesOf, List.map_cons, List.zip_cons_cons, List.filterMap_cons,
            h] at hrest ⊢
          rw [hrest]

end Entries

/-! ## One scan by both engines -/

section Scans

variable [DecidableEq R] {js : ScanHost F R}

/-- The verdicts of the signatures and the heuristics, as what is compared of a scan. -/
def findingsOf (js : ScanHost F R) (db : Database F R) (bytes : List UInt8) (context : JsValue F R)
    (judged found : List Bool) : List (Correspondencia F R) × String :=
  let matched := matchesOf "assinatura" (db.assinaturas.map (SignatureEntry.updated js)) found ++
    matchesOf "heuristica" (db.heuristicas.map HeuristicEntry.updated) judged
  (matched, verdictOf matched (suspicions (scanContext js bytes context).tipo_arquivo))

theorem findings_varrer_bytes (engine : ScanEngine F R) (value context : JsValue F R)
    (last : LastIndex R) :
    findings (runState (engine.varrer_bytes js value context) last).1 =
      (engine.assinaturas.mapM fun sig => signatureMatches js sig (toBytes js.conv value)).map
        fun found =>
          let matched := matchesOf "assinatura" engine.assinaturas found ++ matchesOf "heuristica"
            engine.heuristicas (judge js engine (toBytes js.conv value) context last).1
          (matched, verdictOf matched
            (suspicions (scanContext js (toBytes js.conv value) context).tipo_arquivo)) := by
  cases hfound : engine.assinaturas.mapM
      fun sig => signatureMatches js sig (toBytes js.conv value) with
  | none =>
      simp only [ScanEngine.varrer_bytes, hfound]
      rfl
  | some found =>
      rw [varrer_bytes_of_found hfound]
      rfl

/-- The verdicts on `bytes` in the engine built at once. -/
def judgeLoaded (js : ScanHost F R) (db : Database F R) (bytes : List UInt8)
    (context : JsValue F R) (last : LastIndex R) : List Bool :=
  (runState (db.heuristicas.mapM fun e => heuristicMatches js e.loaded bytes (latin1 bytes)
    (scanContext js bytes context)) last).1

def judgeUpdated (js : ScanHost F R) (db : Database F R) (bytes : List UInt8)
    (context : JsValue F R) (last : LastIndex R) : List Bool :=
  (runState (db.heuristicas.mapM fun e => heuristicMatches js e.updated bytes (latin1 bytes)
    (scanContext js bytes context)) last).1

theorem judgeLoaded_length (db : Database F R) (bytes : List UInt8) (context : JsValue F R)
    (last : LastIndex R) : (judgeLoaded js db bytes context last).length = db.heuristicas.length :=
  length_runState_mapM _ _ _

theorem judgeUpdated_length (db : Database F R) (bytes : List UInt8) (context : JsValue F R)
    (last : LastIndex R) : (judgeUpdated js db bytes context last).length = db.heuristicas.length :=
  length_runState_mapM _ _ _

theorem findings_loaded (db : Database F R) (value context : JsValue F R) (last : LastIndex R) :
    findings (runState ((loadedEngine js db).varrer_bytes js value context) last).1 =
      (db.assinaturas.mapM fun e =>
          signatureMatches js (e.loaded js) (toBytes js.conv value)).map
        (findingsOf js db (toBytes js.conv value) context
          (judgeLoaded js db (toBytes js.conv value) context last)) := by
  rw [findings_varrer_bytes, loadedEngine_eq, List.mapM_map]
  simp only [matchesOf_map _ (SignatureEntry.nome_loaded js),
    matchesOf_map _ HeuristicEntry.nome_loaded, judge, List.mapM_map]
  rfl

theorem findings_updated (db : Database F R) (value context : JsValue F R) (last : LastIndex R) :
    findings (runState ((⟨db.assinaturas.map (SignatureEntry.updated js),
        db.heuristicas.map HeuristicEntry.updated⟩ : ScanEngine F R).varrer_bytes js value context)
        last).1 =
      (db.assinaturas.mapM fun e =>
          signatureMatches js (e.updated js) (toBytes js.conv value)).map
        (findingsOf js db (toBytes js.conv value) context
          (judgeUpdated js db (toBytes js.conv value) context last)) := by
  rw [findings_varrer_bytes, List.mapM_map]
  simp only [judge, List.mapM_map]
  rfl

theorem loadsAgree_iff (db : Database F R) :
    LoadsAgree js db ↔ ∀ value context last,
      (db.assinaturas.mapM fun e =>
          signatureMatches js (e.loaded js) (toBytes js.conv value)).map
        (findingsOf js db (toBytes js.conv value) context
          (judgeLoaded js db (toBytes js.conv value) context last)) =
      (db.assinaturas.mapM fun e =>
          signatureMatches js (e.updated js) (toBytes js.conv value)).map
        (findingsOf js db (toBytes js.conv value) context
          (judgeUpdated js db (toBytes js.conv value) context last)) := by
  simp only [LoadsAgree, updatedEngine_eq, Option.some.injEq, exists_eq_left', findings_loaded,
    findings_updated]

/-! ### What is covered agrees -/

/-- The regular expression matches nothing that is made of bytes. -/
def Dead (js : ScanHost F R) (r : R) : Prop :=
  ∀ bytes last, (runState (regexpTest js r (latin1 bytes)) last).1 = false

/-- The index of a dead expression makes no difference. -/
theorem heuristicMatches_alike_live (heuristic : JsValue F R) (bytes : List UInt8)
    (context : ScanContext F R) :
    Alike (AgreeOn fun r => ¬ Dead js r) Eq
      (heuristicMatches js heuristic bytes (latin1 bytes) context)
      (heuristicMatches js heuristic bytes (latin1 bytes) context) := by
  by_cases hdead : ∃ r, statefulRule js heuristic = some r ∧ Dead js r
  · obtain ⟨r, hr, hdead⟩ := hdead
    intro last last' hlast
    have hframe : ∀ r', ¬ Dead js r' → statefulRule js heuristic ≠ some r' := by
      intro r' hr' hsame
      rw [hr, Option.some.injEq] at hsame
      exact hr' (hsame ▸ hdead)
    constructor
    · unfold statefulRule at hr
      split at hr
      · case h_1 r' hrule =>
        split at hr
        · cases hr
          simp only [heuristicMatches, hrule]
          rw [hdead, hdead]
        · cases hr
      · cases hr
    · intro r' hr'
      rw [heuristicMatches_frame (hframe r' hr'), heuristicMatches_frame (hframe r' hr')]
      exact hlast r' hr'
  · refine heuristicMatches_alike ?_ bytes (latin1 bytes) context
    intro r hr hr'
    exact hdead ⟨r, hr, hr'⟩

theorem HeuristicEntry.Covered.alike {e : HeuristicEntry F R} (h : e.Covered js)
    (bytes : List UInt8) (context : JsValue F R) :
    Alike (AgreeOn fun r => ¬ Dead js r) Eq
      (heuristicMatches js e.loaded bytes (latin1 bytes) (scanContext js bytes context))
      (heuristicMatches js e.updated bytes (latin1 bytes) (scanContext js bytes context)) := by
  cases htruthy : e.regra.truthy with
  | true =>
      rw [loaded_eq_updated htruthy]
      exact heuristicMatches_alike_live _ _ _
  | false =>
      have hsilent := h.resolve_left (by simp [htruthy])
      rw [loaded_silent htruthy]
      intro last last' hlast
      refine ⟨(hsilent bytes context last').symm, ?_⟩
      intro r hr
      have hrule : statefulRule js e.updated ≠ some r := by
        intro hrule
        apply hr
        intro bytes' last''
        have hdead := hsilent bytes' context last''
        unfold statefulRule at hrule
        split at hrule
        · case h_1 r' hregra =>
          split at hrule
          · cases hrule
            simpa only [heuristicMatches, show (heuristicOfEntry e.toValue).property "regra" =
              .regexp r from hregra] using hdead
          · cases hrule
        · cases hrule
      rw [heuristicMatches_frame hrule]
      exact hlast r hr

theorem loadsAgree_of_covered {db : Database F R} (h : db.Covered js) : LoadsAgree js db := by
  rw [loadsAgree_iff]
  intro value context last
  have hfound : (db.assinaturas.mapM fun e =>
        signatureMatches js (e.loaded js) (toBytes js.conv value)) =
      db.assinaturas.mapM fun e => signatureMatches js (e.updated js) (toBytes js.conv value) := by
    refine mapM_congr_mem ?_
    intro e he
    cases htruthy : e.padrao.truthy with
    | true => rw [SignatureEntry.loaded_eq_updated htruthy]
    | false =>
        have hsilent := (h.1 e he).resolve_left (by simp [htruthy])
        rw [SignatureEntry.loaded_silent htruthy]
        exact (hsilent _).symm
  have hjudged : judgeLoaded js db (toBytes js.conv value) context last =
      judgeUpdated js db (toBytes js.conv value) context last := by
    have halike := Alike.mapM (R := AgreeOn fun r => ¬ Dead js r) (Q := Eq)
      (List.forall₂_same.mpr fun e he => (h.2 e he).alike (toBytes js.conv value) context)
    have hequal := (halike last last fun _ _ => rfl).1
    rwa [List.forall₂_eq_eq_eq] at hequal
  rw [hfound, hjudged]

/-! ### What agrees is covered -/

omit [DecidableEq R] in
theorem findingsOf_length {db : Database F R} {bytes : List UInt8} {context : JsValue F R}
    {judged found : List Bool} (hjudged : judged.length = db.heuristicas.length)
    (hfound : found.length = db.assinaturas.length) :
    (findingsOf js db bytes context judged found).1.length =
      found.count true + judged.count true := by
  simp only [findingsOf, List.length_append]
  rw [matchesOf_length _ (by simpa using hfound), matchesOf_length _ (by simpa using hjudged)]

/-- What the engine built at once says of a heuristic, the updated one says too. -/
theorem judge_mono {db : Database F R} (h : db.Unshared js) (bytes : List UInt8)
    (context : JsValue F R) (last : LastIndex R) :
    List.Forall₂ (fun a b => a = true → b = true) (judgeLoaded js db bytes context last)
      (judgeUpdated js db bytes context last) := by
  let Free : R → Prop := fun r =>
    ∀ e ∈ db.heuristicas, e.regra.truthy = false → statefulRule js e.updated ≠ some r
  have halike : ∀ e ∈ db.heuristicas, Alike (AgreeOn Free) (fun a b => a = true → b = true)
      (heuristicMatches js e.loaded bytes (latin1 bytes) (scanContext js bytes context))
      (heuristicMatches js e.updated bytes (latin1 bytes) (scanContext js bytes context)) := by
    intro e he
    cases htruthy : e.regra.truthy with
    | true =>
        rw [HeuristicEntry.loaded_eq_updated htruthy]
        refine (heuristicMatches_alike ?_ _ _ _).mono ?_
        · intro r hr e' he' hfalse hr'
          obtain ⟨pre, post, hsplit⟩ := List.append_of_mem he'
          have hother : e ∈ pre ++ post := by
            have hmem := hsplit ▸ he
            rcases List.mem_append.mp hmem with hpre | hpost
            · exact List.mem_append_left _ hpre
            · rcases List.mem_cons.mp hpost with rfl | hpost
              · rw [htruthy] at hfalse
                cases hfalse
              · exact List.mem_append_right _ hpost
          exact h pre e' post r hsplit hfalse hr' e hother hr
        · rintro a b rfl ha
          exact ha
    | false =>
        rw [HeuristicEntry.loaded_silent htruthy]
        intro last last' hlast
        refine ⟨(by intro hfalse; cases hfalse), ?_⟩
        intro r hr
        rw [heuristicMatches_frame (hr e he htruthy)]
        exact hlast r hr
  exact (Alike.mapM (List.forall₂_same.mpr halike) last last fun _ _ => rfl).1

/-- Both engines give the same verdicts, one by one, when they find the same. -/
theorem verdicts_eq {db : Database F R} (hagree : LoadsAgree js db) (hun : db.Unshared js)
    (hbroken : ¬ Broken js (loadedEngine js db)) (bytes : List UInt8) (context : JsValue F R)
    (last : LastIndex R) :
    (∃ found,
      List.Forall₂ (fun e b => signatureMatches js (e.loaded js) bytes = some b)
        db.assinaturas found ∧
      List.Forall₂ (fun e b => signatureMatches js (e.updated js) bytes = some b)
        db.assinaturas found) ∧
    judgeLoaded js db bytes context last = judgeUpdated js db bytes context last := by
  obtain ⟨found, hloaded⟩ := exists_found_of_not_broken hbroken bytes
  rw [loadedEngine_eq, List.mapM_map] at hloaded
  have hscan := (loadsAgree_iff db).mp hagree (.bytes bytes) context last
  simp only [toBytes] at hscan
  rw [show (db.assinaturas.mapM fun e => signatureMatches js (e.loaded js) bytes) = some found
    from hloaded, Option.map_some, eq_comm, Option.map_eq_some_iff] at hscan
  obtain ⟨found', hupdated, hsame⟩ := hscan
  have hfound : List.Forall₂ (fun e b => signatureMatches js (e.loaded js) bytes = some b)
      db.assinaturas found := mapM_eq_some_iff.mp hloaded
  have hfound' : List.Forall₂ (fun e b => signatureMatches js (e.updated js) bytes = some b)
      db.assinaturas found' := mapM_eq_some_iff.mp hupdated
  have hmono : List.Forall₂ (fun a b => a = true → b = true) found found' := by
    refine forall₂_of_common hfound hfound' ?_
    intro e _ a b ha hb hatrue
    cases htruthy : e.padrao.truthy with
    | true =>
        rw [SignatureEntry.loaded_eq_updated htruthy] at ha
        rw [← Option.some.inj (ha.symm.trans hb), hatrue]
    | false =>
        rw [SignatureEntry.loaded_silent htruthy, hatrue] at ha
        cases ha
  have hjudge := judge_mono hun bytes context last
  have hlength := congrArg List.length (congrArg Prod.fst hsame)
  rw [findingsOf_length (judgeUpdated_length _ _ _ _) hfound'.length_eq.symm,
    findingsOf_length (judgeLoaded_length _ _ _ _) hfound.length_eq.symm] at hlength
  have hle := count_true_le hmono
  have hle' := count_true_le hjudge
  obtain rfl := eq_of_count_true_le hmono (by omega)
  exact ⟨⟨found, hfound, hfound'⟩, eq_of_count_true_le hjudge (by omega)⟩

/-- The verdict of an unshared rule in its place is the one it gives at the start. -/
theorem verdict_in_place {db : Database F R} (hun : db.Unshared js)
    {pre post : List (HeuristicEntry F R)} {e : HeuristicEntry F R}
    (hsplit : db.heuristicas = pre ++ e :: post) (htruthy : e.regra.truthy = false)
    (bytes : List UInt8) (context : ScanContext F R) (last : LastIndex R) :
    (runState (heuristicMatches js e.updated bytes (latin1 bytes) context)
      (runState (pre.mapM fun e => heuristicMatches js e.updated bytes (latin1 bytes) context)
        last).2).1 =
      (runState (heuristicMatches js e.updated bytes (latin1 bytes) context) last).1 := by
  let Own : R → Prop := fun r => statefulRule js e.updated = some r
  have hkeeps : AgreeOn Own (runState (pre.mapM fun e =>
      heuristicMatches js e.updated bytes (latin1 bytes) context) last).2 last := by
    refine runState_mapM_keeps (P := fun s => AgreeOn Own s last) ?_ fun _ _ => rfl
    intro e' he' s hs r hr
    have hother : statefulRule js e'.updated ≠ some r :=
      hun pre e post r hsplit htruthy hr e' (List.mem_append_left _ he')
    rw [heuristicMatches_frame hother]
    exact hs r hr
  exact (heuristicMatches_alike (fun _ hr => hr) bytes (latin1 bytes) context _ _ hkeeps).1

theorem covered_of_loadsAgree {db : Database F R} (hagree : LoadsAgree js db)
    (hun : db.Unshared js) (hbroken : ¬ Broken js (loadedEngine js db)) : db.Covered js := by
  constructor
  · intro e he
    cases htruthy : e.padrao.truthy with
    | true => exact Or.inl htruthy
    | false =>
        refine Or.inr fun bytes => ?_
        obtain ⟨⟨found, hfound, hfound'⟩, -⟩ :=
          verdicts_eq hagree hun hbroken bytes .undefined fun _ => 0
        obtain ⟨b, hb, hb'⟩ := exists_of_forall₂ hfound hfound' he
        rw [SignatureEntry.loaded_silent htruthy] at hb
        obtain rfl := Option.some.inj hb
        exact hb'
  · intro e he
    cases htruthy : e.regra.truthy with
    | true => exact Or.inl htruthy
    | false =>
        refine Or.inr fun bytes context last => ?_
        obtain ⟨pre, post, hsplit⟩ := List.append_of_mem he
        have hsame := (verdicts_eq hagree hun hbroken bytes context last).2
        simp only [judgeLoaded, judgeUpdated, hsplit, runState_mapM_append,
          runState_mapM_cons] at hsame
        have hrest := (List.append_inj hsame
          (by rw [length_runState_mapM, length_runState_mapM])).2
        have hhead := (List.cons.inj hrest).1
        rw [verdict_in_place hun hsplit htruthy, HeuristicEntry.loaded_silent htruthy] at hhead
        exact hhead.symm

/-- A signature that cannot be compared is in both engines. -/
theorem loadsAgree_of_broken {db : Database F R} (h : Broken js (loadedEngine js db)) :
    LoadsAgree js db := by
  rw [loadsAgree_iff]
  intro value context last
  have hloaded := mapM_signatureMatches_of_broken h (toBytes js.conv value)
  rw [loadedEngine_eq, List.mapM_map] at hloaded
  have hupdated : Broken js
      ⟨db.assinaturas.map (SignatureEntry.updated js), db.heuristicas.map HeuristicEntry.updated⟩ :=
        by
    rw [loadedEngine_eq] at h
    obtain ⟨sig, hmem, hnone⟩ := h
    obtain ⟨e, he, rfl⟩ := List.mem_map.mp hmem
    refine ⟨e.updated js, List.mem_map_of_mem he, ?_⟩
    cases htruthy : e.padrao.truthy with
    | true => rwa [SignatureEntry.loaded_eq_updated htruthy] at hnone
    | false =>
        rw [SignatureEntry.loaded_silent htruthy] at hnone
        cases hnone
  have hupdated := mapM_signatureMatches_of_broken hupdated (toBytes js.conv value)
  rw [List.mapM_map] at hupdated
  simp only [Function.comp_def] at hloaded hupdated
  rw [hloaded, hupdated]
  rfl

/-- The engine built of a database and the engine updated by it find the same in all bytes when
every entry has its pattern in the first field or one that is never found, or when a signature makes
every scan a `TypeError`; and only then, unless a regular expression with flag `g` or `y` is shared
between entries. -/
theorem databases_agree_iff (db : Database F R) :
    (db.Covered js ∨ Broken js (loadedEngine js db) → LoadsAgree js db) ∧
      (db.Unshared js → LoadsAgree js db →
        db.Covered js ∨ Broken js (loadedEngine js db)) := by
  constructor
  · rintro (hcovered | hbroken)
    · exact loadsAgree_of_covered hcovered
    · exact loadsAgree_of_broken hbroken
  · intro hun hagree
    by_cases hbroken : Broken js (loadedEngine js db)
    · exact Or.inr hbroken
    · exact Or.inl (covered_of_loadsAgree hagree hun hbroken)

end Scans

/-- `{assinaturas: [{nome: "evil", texto: "evil"}], heuristicas: []}`. -/
def textoDatabase : Database Unit Unit :=
  ⟨[⟨.text "evil".toList, .undefined, .undefined, .text "evil".toList, .undefined⟩], []⟩

/-- The bytes of `evil`, clean for the engine built at once. -/
theorem textoDatabase_not_agree : ¬ LoadsAgree globalA textoDatabase := by
  rw [loadsAgree_iff]
  intro h
  have hverdict := congrArg (Option.map Prod.snd)
    (h (.bytes [101, 118, 105, 108]) .undefined fun _ => 0)
  revert hverdict
  decide

end GatoCore.Stdlib
