import Mathlib.Data.List.Lex
import GatoCore.Lib.Utf16
import GatoCore.Stdlib.Resolvers

/-!
# Workspaces

Source: `statHost`, `existsHost`, `mkdirHost`, `readdirHost`, `removeHost`, `renameHost`,
`readTextHost`, `writeTextHost`, `readJsonHost`, `writeJsonHost` and `createWorkspace` of
`stdlib/ptstdlib.js`, and the C builtins `ler_texto` and `escrever_texto`.

The operating system is a `FileSystem`: what each call does at a place.
-/

namespace GatoCore.Stdlib

open GatoCore.Lib

/-! ## The operating system -/

/-- The calls of the operating system, by places. A call that fails returns its `errno`, negative
where the source tests it so. -/
structure FileSystem (W : Type) where
  Info : Type
  stat : Location → W → Except ℕ Info
  mkdir : Location → W → ℤ × W
  readdir : Location → W → Except ℕ (List Text)
  remove : Location → W → ℤ × W
  rename : Location → Location → W → ℤ × W
  /-- Read a whole file. -/
  load : Location → W → Option Text
  /-- Replace a whole file; `none` when it cannot be opened. What `fwrite` and `fclose` answer is
  ignored, so the text need not be in the file afterwards. -/
  store : Location → Text → W → Option W

/-- Where the calls look for a place: a path ends at its first NUL. -/
def Location.cut : Location → Location
  | .absolute names => .absolute (walk (cText ('/' :: ['/'].intercalate names))).names
  | .relative p => .relative (walk (cText (walkText p)))

/-- The calls take C strings. -/
structure FileSystem.CStrings {W : Type} (fs : FileSystem W) : Prop where
  load_cut : ∀ l w, fs.load l.cut w = fs.load l w
  store_cut : ∀ l t w, fs.store l.cut t w = fs.store l t w

/-- A file that can be opened takes the text and keeps it. -/
def FileSystem.Stores {W : Type} (fs : FileSystem W) (l : Location) (text : Text) (w : W) : Prop :=
  ∀ w', fs.store l text w = some w' → fs.load l w' = some text ∧ (fs.stat l w').isOk = true

/-- A call on a path; the empty path names no file. -/
def onPath {α : Type} (path : Text) (noFile : α) (call : Location → α) : α :=
  match locate path with
  | some l => call l
  | none => noFile

/-! ## Results -/

/-- The field `erro` of a result and the fields of its `meta`. -/
structure Erro where
  codigo : String
  mensagem : Text
  caminhos : List Text
  errno : Option ℤ

/-- `okResult` with the path its `meta` reports, or `errorResult`. -/
inductive Resultado (α : Type) where
  | ok (valor : α) (caminho : Option Text)
  | erro (erro : Erro)

def Resultado.isOk {α : Type} : Resultado α → Bool
  | .ok _ _ => true
  | .erro _ => false

def Resultado.valor {α : Type} : Resultado α → Option α
  | .ok valor _ => some valor
  | .erro _ => none

/-! ## Host functions -/

section Host

variable {W : Type} (host : HostDirs) (fs : FileSystem W)

def statHost (path : Text) (w : W) : Resultado fs.Info :=
  match onPath (resolveHostPath host path) (.error 2) (fs.stat · w) with
  | .error err => .erro
      { codigo := "stat_falhou"
        mensagem := "nao foi possivel ler stat de '".toList ++ path ++ ['\'']
        caminhos := [resolveHostPath host path], errno := some err }
  | .ok info => .ok info (some (resolveHostPath host path))

def existsHost (path : Text) (w : W) : Bool := (statHost host fs path w).isOk

/-- `os.mkdir`, and whether it failed for another reason than that the directory exists. -/
def mkdirAt (path : Text) (w : W) : Option Erro × W :=
  let (ret, w) := onPath path (-2, w) (fs.mkdir · w)
  if ret < 0 ∧ ret ≠ -17 then
    (some { codigo := "mkdir_falhou", mensagem := "nao foi possivel criar diretorio".toList
            caminhos := [path], errno := some ret }, w)
  else (none, w)

/-- The loop of `mkdirHost`. -/
def mkdirParts : List Text → Text → W → Option Erro × W
  | [], _, w => (none, w)
  | part :: parts, current, w =>
      if part = [] then mkdirParts parts current w
      else
        let current := if current ≠ [] then joinPath current part else part
        if existsHost host fs current w then mkdirParts parts current w
        else
          match mkdirAt fs current w with
          | (some err, w) => (some err, w)
          | (none, w) => mkdirParts parts current w

def mkdirHost (path : Text) (recursive : Bool) (w : W) : Resultado Text × W :=
  let target := resolveHostPath host path
  let (err, w) :=
    if !recursive then mkdirAt fs target w
    else mkdirParts host fs ((simplifyPath target).splitOn '/')
      (if target.head? = some '/' then ['/'] else []) w
  match err with
  | some err => (.erro err, w)
  | none => (.ok target none, w)

/-- The listing without `.` and `..`, in the order of JavaScript texts. -/
def listing (names : List Text) : List Text :=
  (names.filter fun item => item ≠ dot ∧ item ≠ dotDot).mergeSort fun a b =>
    decide (a.flatMap utf16Units ≤ b.flatMap utf16Units)

def readdirHost (path : Text) (w : W) : Resultado (List Text) :=
  match onPath (resolveHostPath host (orDot path)) (.error 2) (fs.readdir · w) with
  | .error err => .erro
      { codigo := "readdir_falhou", mensagem := "nao foi possivel listar diretorio".toList
        caminhos := [resolveHostPath host (orDot path)], errno := some err }
  | .ok names => .ok (listing names) none

def removeHost (path : Text) (w : W) : Resultado Bool × W :=
  let (ret, w) := onPath (resolveHostPath host path) (-2, w) (fs.remove · w)
  if ret < 0 then
    (.erro { codigo := "remove_falhou", mensagem := "nao foi possivel remover caminho".toList
             caminhos := [resolveHostPath host path], errno := some ret }, w)
  else (.ok true none, w)

def renameHost (fromPath toPath : Text) (w : W) : Resultado (Text × Text) × W :=
  let (ret, w) := onPath (resolveHostPath host fromPath) (-2, w) fun l =>
    onPath (resolveHostPath host toPath) (-2, w) fun l' => fs.rename l l' w
  if ret < 0 then
    (.erro { codigo := "rename_falhou", mensagem := "nao foi possivel renomear caminho".toList
             caminhos := [resolveHostPath host fromPath, resolveHostPath host toPath]
             errno := some ret }, w)
  else (.ok (resolveHostPath host fromPath, resolveHostPath host toPath) none, w)

/-- The builtin `ler_texto`; `none` is an exception. -/
def lerTexto (path : Text) (w : W) : Option Text := do
  let resolved ← jsPtResolvePath host (cText path)
  onPath resolved none (fs.load · w)

/-- The builtin `escrever_texto`, which returns the size of the text. -/
def escreverTexto (path text : Text) (w : W) : Option (ℕ × W) := do
  let resolved ← jsPtResolvePath host (cText path)
  let w ← onPath resolved none (fs.store · text w)
  return (utf8Length text, w)

/-- The error a failed builtin leaves; the text of the exception is not represented. -/
def textError (codigo : String) (caminho : Text) : Erro :=
  { codigo := codigo, mensagem := [], caminhos := [caminho], errno := none }

def readTextHost (path : Text) (w : W) : Resultado Text :=
  match lerTexto host fs path w with
  | some text => .ok text (some (resolveHostPath host path))
  | none => .erro (textError "leitura_falhou" (resolveHostPath host path))

def writeTextHost (path text : Text) (w : W) : Resultado ℕ × W :=
  match escreverTexto host fs path text w with
  | some (size, w) => (.ok size (some (resolveHostPath host path)), w)
  | none => (.erro (textError "escrita_falhou" (resolveHostPath host path)), w)

variable {J : Type} (parse : Text → Option J) (stringify : J → Text)

/-- `parse` is `JSON.parse`, which fails on a text that is not JSON. -/
def readJsonHost (path : Text) (w : W) : Resultado J :=
  match readTextHost host fs path w with
  | .erro err => .erro err
  | .ok text _ =>
      match parse text with
      | some value => .ok value (some (resolveHostPath host path))
      | none => .erro (textError "json_invalido" (resolveHostPath host path))

/-- `stringify` is `JSON.stringify` with an indentation of two. -/
def writeJsonHost (path : Text) (value : J) (w : W) : Resultado ℕ × W :=
  writeTextHost host fs path (stringify value ++ ['\n']) w

/-! ## `createWorkspace` -/

/-- The field `raiz`. -/
def resolvedRoot (root : Text) : Text := resolveHostPath host root

variable (raiz : Text)

/-- `caminho`. -/
def localPath (rel : Text) : Text :=
  if rel = [] then raiz else resolveHostPath host (joinPath raiz rel)

namespace Workspace

def listar (rel : Text) (w : W) : Resultado (List Text) :=
  readdirHost host fs (localPath host raiz (orDot rel)) w

def existe (rel : Text) (w : W) : Bool := existsHost host fs (localPath host raiz rel) w

def stat (rel : Text) (w : W) : Resultado fs.Info := statHost host fs (localPath host raiz rel) w

def criarDiretorio (rel : Text) (recursive : Bool) (w : W) : Resultado Text × W :=
  mkdirHost host fs (localPath host raiz (orDot rel)) recursive w

def lerTexto (rel : Text) (w : W) : Resultado Text :=
  readTextHost host fs (localPath host raiz rel) w

def escreverTexto (rel text : Text) (w : W) : Resultado ℕ × W :=
  let target := localPath host raiz rel
  writeTextHost host fs target text (mkdirHost host fs (dirnamePath target) true w).2

def lerJson (rel : Text) (w : W) : Resultado J :=
  readJsonHost host fs parse (localPath host raiz rel) w

def escreverJson (rel : Text) (value : J) (w : W) : Resultado ℕ × W :=
  let target := localPath host raiz rel
  writeJsonHost host fs stringify target value (mkdirHost host fs (dirnamePath target) true w).2

def remover (rel : Text) (w : W) : Resultado Bool × W :=
  removeHost host fs (localPath host raiz rel) w

def renomear (origem destino : Text) (w : W) : Resultado (Text × Text) × W :=
  renameHost host fs (localPath host raiz origem) (localPath host raiz destino) w

end Workspace

end Host

/-! ## One place for every operation -/

/-- The place of a path relative to another place. -/
def joinPlace : Location → RelPath Text → Location
  | .absolute names, w => .absolute (⟨0, names⟩ * w : RelPath Text).names
  | .relative p, w => .relative (p * w)

/-- The root of a workspace joined with a relative name. -/
def workspacePlace (raiz rel : Text) : Location :=
  joinPlace ((locate raiz).getD (.relative 1)) (walk (normalizePath rel))

/-- The directory at `l` was there, or was made. -/
def Ensured {W : Type} (fs : FileSystem W) (l : Location) (w w' : W) : Prop :=
  (∃ info, fs.stat l w = .ok info) ∧ w' = w ∨
  ∃ ret, fs.mkdir l w = (ret, w') ∧ (0 ≤ ret ∨ ret = -17)

/-- Every operation of a workspace on `rel` acts on the file at `l`. The builtins address it even
when the path does not fit their buffer and they fail. -/
structure ActsOn {W : Type} (host : HostDirs) (fs : FileSystem W) (base raiz rel : Text)
    (l : Location) : Prop where
  caminho : locate (localPath host raiz rel) = some l
  builtin : locate (jsPtPathText base (cText (localPath host raiz rel))) = some l.cut
  existe : ∀ w, Workspace.existe host fs raiz rel w = (fs.stat l w).isOk
  stat : ∀ w, (Workspace.stat host fs raiz rel w).valor = (fs.stat l w).toOption
  listar : ∀ w,
    (Workspace.listar host fs raiz rel w).valor = (fs.readdir l w).toOption.map listing
  criarDiretorio : ∀ w, (Workspace.criarDiretorio host fs raiz rel false w).2 = (fs.mkdir l w).2
  criarDiretorios : ∀ (w w' : W) (target : Text),
    Workspace.criarDiretorio host fs raiz rel true w = (.ok target none, w') →
      l = .absolute [] ∨ ∃ w₁, Ensured fs l w₁ w'
  lerTexto : ∀ w, (jsPtResolvePath host (cText (localPath host raiz rel))).isSome →
    (Workspace.lerTexto host fs raiz rel w).valor = fs.load l w
  escreverTexto : ∀ (text : Text) (w : W),
    (jsPtResolvePath host (cText (localPath host raiz rel))).isSome →
      ∃ w₁, (Workspace.escreverTexto host fs raiz rel text w).2 = (fs.store l text w₁).getD w₁
  lerJson : ∀ {J : Type} (parse : Text → Option J) (w : W),
    (jsPtResolvePath host (cText (localPath host raiz rel))).isSome →
      (Workspace.lerJson host fs parse raiz rel w).valor = (fs.load l w).bind parse
  escreverJson : ∀ {J : Type} (stringify : J → Text) (value : J) (w : W),
    (jsPtResolvePath host (cText (localPath host raiz rel))).isSome →
      ∃ w₁, (Workspace.escreverJson host fs stringify raiz rel value w).2 =
        (fs.store l (stringify value ++ ['\n']) w₁).getD w₁
  remover : ∀ w, (Workspace.remover host fs raiz rel w).2 = (fs.remove l w).2
  renomear : ∀ (destino : Text) (l' : Location) (w : W),
    locate (resolveHostPath host (localPath host raiz destino)) = some l' →
      (Workspace.renomear host fs raiz rel destino w).2 = (fs.rename l l' w).2
  /-- What was written is read again, and it exists. -/
  roundTrip : ∀ (text : Text) (size : ℕ) (c : Option Text) (w w' : W),
    Workspace.escreverTexto host fs raiz rel text w = (.ok size c, w') →
      (Workspace.lerTexto host fs raiz rel w').valor = some text ∧
        Workspace.existe host fs raiz rel w' = true

/-- Every operation on every relative name acts on the root joined with the name. -/
def Coherent {W : Type} (host : HostDirs) (fs : FileSystem W) (base root : Text) : Prop :=
  ∀ rel, isAbsolutePath rel = false →
    ActsOn host fs base (resolvedRoot host root) rel
      (workspacePlace (resolvedRoot host root) rel)

/-- A file of a workspace whose path fits the buffer of the builtin keeps what is written to it,
once the directories above it are made. -/
def KeepsTexts {W : Type} (host : HostDirs) (fs : FileSystem W) (raiz : Text) : Prop :=
  ∀ rel, isAbsolutePath rel = false →
    (jsPtResolvePath host (cText (localPath host raiz rel))).isSome →
      ∀ text w, fs.Stores (workspacePlace raiz rel) text
        (mkdirHost host fs (dirnamePath (localPath host raiz rel)) true w).2

end GatoCore.Stdlib
