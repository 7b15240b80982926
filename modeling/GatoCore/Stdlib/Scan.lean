import Mathlib.Data.List.Infix
import Mathlib.Logic.Function.Basic
import GatoCore.Stdlib.Values

/-!
# The scanner

Source: `utf8ishBytes`, `toBytes`, `fnv1aHex`, `parseMagic`, `extensionOf`, `detectFileType`,
`bytesIndexOf`, `compileSignaturePattern`, `buildBinarySignature`, `buildHeuristic`,
`signatureMatches`, `heuristicMatches`, `loadDatabaseSpec`, `createScanEngine` and
`atualizar_banco` of `stdlib/ptstdlib.js`, and `js_regexp_exec` of `quickjs.c`.

An engine holds signatures, which look for bytes, and heuristics, which look at the bytes as a
text. A regular expression with flag `g` or `y` keeps the index of its last match between calls;
the other matchers keep nothing. `none` is a `TypeError`. The arrays and typed arrays have no
properties of the program's own, and the other objects no property `length`.
-/

namespace GatoCore.Stdlib

variable {F R : Type}

/-! ## The engine and the system -/

/-- The second argument of the functions that serve as rules. -/
structure ScanContext (F R : Type) where
  caminho : JsValue F R
  tipo_arquivo : JsValue F R

/-- What the library calls: conversions, `===` of objects and `toLowerCase`; the matcher of regular
expressions, which gives the end of the first match from an index on (`lre_exec`), and whether one
has flag `g` or `y`; the functions; and the databases read from elsewhere. -/
structure ScanHost (F R : Type) where
  conv : Conversions F R
  sameObject : JsValue F R → JsValue F R → Bool
  toLowerCase : Text → Text
  stateful : R → Bool
  exec : R → ℕ → Text → Option ℕ
  call : F → List UInt8 → Text → ScanContext F R → JsValue F R
  dirs : HostDirs
  loadSource : Text → CallResult F R (JsValue F R)

/-- What `existsHost` and `ler_bytes` say of paths; a file that cannot be read is an exception. -/
structure ScanFiles where
  existe : Text → Bool
  lerBytes : Text → Option (List UInt8)

/-- The property `lastIndex` of every regular expression. -/
abbrev LastIndex (R : Type) := R → ℕ

/-! ## Bytes -/

section Bytes

/-- `codePointAt(0) & 0xff`. -/
def utf8ishBytes (text : Text) : List UInt8 := text.map fun c => UInt8.ofNat c.toNat

mutual

def toBytes (conv : Conversions F R) : JsValue F R → List UInt8
  | .bytes b => b
  | .array items => items.map conv.toUint8
  | .text t => utf8ishBytes t
  | .object _ properties => dadosBytes conv properties
  | _ => []

/-- `toBytes(value.dados)`, when there is an own property `dados`. -/
def dadosBytes (conv : Conversions F R) : List (String × JsValue F R) → List UInt8
  | [] => []
  | (name, value) :: rest => if name = "dados" then toBytes conv value else dadosBytes conv rest

end

def fnv1aHex (bytes : List UInt8) : Text :=
  let hash := bytes.foldl (fun (hash : UInt32) b => (hash ^^^ b.toUInt32) * 0x01000193) 0x811c9dc5
  let digits := Nat.toDigits 16 hash.toNat
  List.replicate (8 - digits.length) '0' ++ digits

def parseMagic : List UInt8 → Option Text
  | 0x7f :: 0x45 :: 0x4c :: 0x46 :: _ => some "executavel_elf".toList
  | 0x4d :: 0x5a :: _ :: _ :: _ => some "executavel_windows".toList
  | 0x50 :: 0x4b :: 0x03 :: 0x04 :: _ => some "zip".toList
  | 0x25 :: 0x50 :: 0x44 :: 0x46 :: _ => some "pdf".toList
  | 0x0a :: 0x0d :: 0x0d :: 0x0a :: _ => some "pcapng".toList
  | 0xd4 :: 0xc3 :: 0xb2 :: 0xa1 :: _ => some "pcap".toList
  | 0xa1 :: 0xb2 :: 0xc3 :: 0xd4 :: _ => some "pcap".toList
  | _ => none

/-- The index of the first place where `needle` stands in `haystack`. -/
def bytesIndexOf (haystack needle : List UInt8) : Option ℕ :=
  if needle = [] then some 0
  else (List.range (haystack.length + 1 - needle.length)).find? fun i =>
    needle.isPrefixOf (haystack.drop i)

/-- `String.fromCharCode` of every byte. -/
def latin1 (bytes : List UInt8) : Text := bytes.map fun b => Char.ofNat b.toNat

end Bytes

section Scanner

variable (js : ScanHost F R)

def extensionOf (path : JsValue F R) : Text :=
  match path with
  | .text t =>
      let clean := ((normalizePath t).splitOn '/').getLast?.getD []
      match lastIndexOf '.' clean with
      | none => []
      | some idx => js.toLowerCase (clean.drop (idx + 1))
  | _ => []

def isPrintable (b : UInt8) : Bool :=
  b = 0x09 || b = 0x0a || b = 0x0d || (0x20 ≤ b && b ≤ 0x7e)

def detectFileType (bytes : List UInt8) (pathHint : JsValue F R) : Text :=
  match parseMagic bytes with
  | some magic => magic
  | none =>
      let ext := extensionOf js pathHint
      if ext = "json".toList then "json".toList
      else if ext ∈ ["txt".toList, "md".toList, "ptjs".toList, "js".toList] then "texto".toList
      else if ext = "pcap".toList then "pcap".toList
      else if ext = "pcapng".toList then "pcapng".toList
      else if ext = "wad".toList then "wad".toList
      else if bytes ≠ [] ∧ 9 * bytes.length ≤ 10 * (bytes.filter isPrintable).length then
        "texto".toList
      else if bytes = [] then "vazio".toList
      else "binario".toList

/-! ## Signatures -/

/-- `value.tipo_recurso === kind`, for a value that counts as true. -/
def isResource (kind : String) (value : JsValue F R) : Bool :=
  value.truthy && (value.property "tipo_recurso").asText = some kind.toList

def compileSignaturePattern (pattern : JsValue F R) : JsValue F R :=
  if isResource "assinatura_binaria" pattern then pattern.property "padrao_bytes"
  else .bytes (toBytes js.conv pattern)

@[simp] theorem compileSignaturePattern_bytes (b : List UInt8) :
    compileSignaturePattern js (.bytes b) = .bytes b := by
  simp [compileSignaturePattern, isResource, JsValue.property, JsValue.properties, JsValue.asText,
    toBytes]

@[simp] theorem compileSignaturePattern_text (t : Text) :
    compileSignaturePattern js (.text t) = .bytes (utf8ishBytes t) := by
  simp [compileSignaturePattern, isResource, JsValue.property, JsValue.properties, JsValue.asText,
    toBytes]

/-- `isPlainObject(meta) ? Object.assign({}, meta) : {}`. -/
def copyMeta (info : JsValue F R) : JsValue F R :=
  .object true (if info.isPlainObject then info.properties else [])

def buildBinarySignature (name pattern info : JsValue F R) : JsValue F R :=
  .object true [("tipo_recurso", .text "assinatura_binaria".toList),
    ("nome", name.or (.text "assinatura".toList)),
    ("padrao_bytes", compileSignaturePattern js pattern), ("meta", copyMeta info)]

def buildHeuristic (name rule info : JsValue F R) : JsValue F R :=
  .object true [("tipo_recurso", .text "heuristica".toList),
    ("nome", name.or (.text "heuristica".toList)), ("regra", rule), ("meta", copyMeta info)]

/-- The byte that is equal to an element of a pattern. -/
def exactByte : JsValue F R → Option UInt8
  | .number shown int32 =>
      if 0 ≤ int32 ∧ int32 < 256 ∧ shown = (toString int32).toList then
        some (UInt8.ofNat int32.toNat)
      else none
  | _ => none

/-- The bytes a pattern looks for, or nothing when it can be found nowhere: it has no length, the
length zero, or an element that is no byte. `.bytes` is a typed array here; an `ArrayBuffer`, which
has no length, is a pattern only after its conversion. -/
def patternBytes : JsValue F R → Option (List UInt8)
  | .bytes b => if b = [] then none else some b
  | .array items => if items = [] then none else items.mapM exactByte
  | _ => none

def signatureMatches (signature : JsValue F R) (bytes : List UInt8) : Option Bool :=
  let pattern := compileSignaturePattern js
    ((signature.property "padrao_bytes").or ((signature.property "padrao").or signature))
  match pattern with
  | .undefined | .null => none
  | _ => some ((patternBytes pattern).any fun needle => (bytesIndexOf bytes needle).isSome)

/-! ## Heuristics -/

/-- `===`. -/
def strictEquals : JsValue F R → JsValue F R → Bool
  | .undefined, .undefined => true
  | .null, .null => true
  | .bool b, .bool b' => b = b'
  | .number shown _, .number shown' _ => shown = shown' && shown ≠ "NaN".toList
  | .text t, .text t' => t = t'
  | v, w => js.sameObject v w

/-- `text.replace(/^\./, "")`. -/
def withoutDot : Text → Text
  | '.' :: t => t
  | t => t

variable [DecidableEq R]

/-- `r.test(text)`. -/
def regexpTest (r : R) (text : Text) : StateM (LastIndex R) Bool := fun last =>
  let start := if js.stateful r then last r else 0
  match if start > text.length then none else js.exec r start text with
  | none => (false, if js.stateful r then Function.update last r 0 else last)
  | some stop => (true, if js.stateful r then Function.update last r stop else last)

def heuristicMatches (heuristic : JsValue F R) (bytes : List UInt8) (text : Text)
    (context : ScanContext F R) : StateM (LastIndex R) Bool :=
  match heuristic.property "regra" with
  | .function f => pure (js.call f bytes text context).truthy
  | .regexp r => regexpTest js r text
  | .text t => pure (t <:+: text)
  | .object true rule =>
      let regra : JsValue F R := .object true rule
      let extensao := regra.property "extensao"
      let tipo := regra.property "tipo_arquivo"
      pure ((extensao.truthy && extensionOf js (context.caminho.or (.text [])) =
          withoutDot (js.conv.string extensao)) ||
        (tipo.truthy && strictEquals js tipo context.tipo_arquivo))
  | _ => pure false

/-! ## The engine -/

structure ScanEngine (F R : Type) where
  assinaturas : List (JsValue F R)
  heuristicas : List (JsValue F R)

def ScanEngine.adicionar_assinatura (engine : ScanEngine F R) (signature : JsValue F R) :
    ScanEngine F R :=
  let sig := if isResource "assinatura_binaria" signature then signature
    else buildBinarySignature js (signature.and (signature.property "nome"))
      (signature.and ((signature.property "padrao").or signature))
      (signature.and (signature.property "meta"))
  { engine with assinaturas := engine.assinaturas ++ [sig] }

def ScanEngine.adicionar_heuristica (engine : ScanEngine F R) (heuristic : JsValue F R) :
    ScanEngine F R :=
  let h := if isResource "heuristica" heuristic then heuristic
    else buildHeuristic (heuristic.and (heuristic.property "nome"))
      (heuristic.and ((heuristic.property "regra").or heuristic))
      (heuristic.and (heuristic.property "meta"))
  { engine with heuristicas := engine.heuristicas ++ [h] }

/-- The elements of an array; of another value, none. -/
def arrayItems : JsValue F R → List (JsValue F R)
  | .array items => items
  | _ => []

/-- `motor_varredura(config)`. -/
def createScanEngine (config : JsValue F R) : ScanEngine F R :=
  let cfg : JsValue F R := .object true (if config.isPlainObject then config.properties else [])
  let engine := (arrayItems (cfg.property "assinaturas")).foldl
    (ScanEngine.adicionar_assinatura js) ⟨[], []⟩
  (arrayItems (cfg.property "heuristicas")).foldl ScanEngine.adicionar_heuristica engine

structure Correspondencia (F R : Type) where
  tipo : String
  nome : JsValue F R

structure Varredura (F R : Type) where
  caminho : JsValue F R
  tipo_arquivo : JsValue F R
  tamanho_bytes : ℕ
  hash_fnv1a : Text
  correspondencias : List (Correspondencia F R)
  suspeitas : List String
  veredicto : String

/-- The names of the elements that match, in order. -/
def matchesOf (tipo : String) (items : List (JsValue F R)) (verdicts : List Bool) :
    List (Correspondencia F R) :=
  (items.zip verdicts).filterMap fun (item, verdict) =>
    if verdict then some ⟨tipo, item.property "nome"⟩ else none

def suspicions (typeName : JsValue F R) : List String :=
  if typeName.asText ∈ [some "executavel_windows".toList, some "executavel_elf".toList] then
    ["executavel"]
  else []

def verdictOf (correspondencias : List (Correspondencia F R)) (suspeitas : List String) : String :=
  if correspondencias ≠ [] then "detectado" else if suspeitas ≠ [] then "suspeito" else "limpo"

/-- What a scan knows of the file: the path of the context, and the type it gives or, without one,
the type the bytes have. -/
def scanContext (bytes : List UInt8) (context : JsValue F R) : ScanContext F R :=
  let ctx : JsValue F R := .object true (if context.isPlainObject then context.properties else [])
  let caminho := ctx.property "caminho"
  { caminho := caminho.or .null
    tipo_arquivo := (ctx.property "tipo_arquivo").or
      (.text (detectFileType js bytes (caminho.or (.text [])))) }

def report (bytes : List UInt8) (ctx : ScanContext F R)
    (correspondencias : List (Correspondencia F R)) : Varredura F R :=
  let suspeitas := suspicions ctx.tipo_arquivo
  { caminho := ctx.caminho, tipo_arquivo := ctx.tipo_arquivo, tamanho_bytes := bytes.length
    hash_fnv1a := fnv1aHex bytes, correspondencias, suspeitas
    veredicto := verdictOf correspondencias suspeitas }

def ScanEngine.varrer_bytes (engine : ScanEngine F R) (value context : JsValue F R) :
    StateM (LastIndex R) (Option (Varredura F R)) := do
  let bytes := toBytes js.conv value
  let ctx := scanContext js bytes context
  match engine.assinaturas.mapM fun sig => signatureMatches js sig bytes with
  | none => return none
  | some found =>
      let judged ← engine.heuristicas.mapM fun heuristic =>
        heuristicMatches js heuristic bytes (latin1 bytes) ctx
      return some (report bytes ctx (matchesOf "assinatura" engine.assinaturas found ++
        matchesOf "heuristica" engine.heuristicas judged))

def ScanEngine.varrer_arquivo (engine : ScanEngine F R) (files : ScanFiles) (path : Text) :
    StateM (LastIndex R) (Option (CallResult F R (Varredura F R))) := do
  if !files.existe path then
    return some (.erro "arquivo_ausente" ("arquivo nao encontrado: ".toList ++ path) [])
  match files.lerBytes path with
  | none => return none
  | some bytes =>
      let res ← engine.varrer_bytes js (.bytes bytes)
        (.object true [("caminho", .text (resolveHostPath js.dirs path))])
      return res.map .ok

/-! ## Databases -/

def loadDatabaseSpec : JsValue F R → CallResult F R (JsValue F R)
  | .text source => js.loadSource source
  | source =>
      if source.isPlainObject then .ok source
      else .erro "fonte_invalida" "fonte de banco precisa ser objeto, caminho ou URL".toList []

/-- An entry that is `undefined` or `null` has no properties to read. -/
def readable : JsValue F R → Option (JsValue F R)
  | .undefined | .null => none
  | value => some value

def signatureOfEntry (sig : JsValue F R) : JsValue F R :=
  buildBinarySignature js (sig.property "nome")
    ((sig.property "padrao").or ((sig.property "bytes").or ((sig.property "texto").or (.text []))))
    (sig.property "meta")

def heuristicOfEntry (heuristic : JsValue F R) : JsValue F R :=
  buildHeuristic (heuristic.property "nome")
    ((heuristic.property "regra").or
      ((heuristic.property "regex").or ((heuristic.property "texto").or (.text []))))
    (heuristic.property "meta")

structure Atualizacao (F R : Type) where
  assinaturas : List (JsValue F R)
  heuristicas : List (JsValue F R)
  aplicado : Bool

/-- The engine is what `target` becomes, when it is an engine. -/
def atualizar_banco (source : JsValue F R) (target : Option (ScanEngine F R)) :
    Option (Option (ScanEngine F R) × CallResult F R (Atualizacao F R)) :=
  match loadDatabaseSpec js source with
  | .erro codigo mensagem info => some (target, .erro codigo mensagem info)
  | .ok valor => do
      let spec ← readable valor
      let signatures ← (arrayItems (spec.property "assinaturas")).mapM fun sig =>
        (readable sig).map (signatureOfEntry js)
      let heuristics ← (arrayItems (spec.property "heuristicas")).mapM fun heuristic =>
        (readable heuristic).map heuristicOfEntry
      let engine := target.map fun engine =>
        heuristics.foldl ScanEngine.adicionar_heuristica
          (signatures.foldl (ScanEngine.adicionar_assinatura js) engine)
      return (engine, .ok ⟨signatures, heuristics, target.isSome⟩)

end Scanner

end GatoCore.Stdlib
