import GatoCore.NullClaw.Cron
import GatoCore.Stdlib.WorkspaceFacts
import Mathlib.Data.List.DropRight

/-!
# Tools of the agent

Source: `dirnameSimples`, the workspaces at the head, `appendMemory` and the tools `ls`, `read`,
`write` and `scan` of `buildTools` of `samples/nullclaw.ptjs`, on top of `createWorkspace`,
`createScanEngine` and `varrer_arquivo` of `stdlib/ptstdlib.js` and the C builtins `arquivo_existe`
and `ler_bytes`.

A tool answers and changes the file system; beside this the model lists the paths the operating
system gets from it, which are C strings. No tool reads the configuration, so that `workspace_only`
decides nothing.
-/

namespace GatoCore.NullClaw

open GatoCore.Lib GatoCore.Stdlib

/-! ## Accesses -/

/-- What a call of the operating system does to a path. -/
inductive FileUse where
  | stat
  | read
  | list
  | create
  | overwrite
  deriving DecidableEq

structure Access where
  use : FileUse
  path : Text
  deriving DecidableEq

/-- Every file the access reaches lies at or below the root. -/
def Access.Within (host : HostDirs) (raiz : Text) (a : Access) : Prop :=
  ∀ r, locate raiz = some r → ∀ l, locate a.path = some l →
    placeNames host.getcwd r <+: placeNames host.getcwd l

/-- A question whether a path exists is no access to the file. -/
def Confined (host : HostDirs) (raiz : Text) (accesses : List Access) : Prop :=
  ∀ a ∈ accesses, a.use ≠ .stat → a.Within host raiz

section Host

variable {W : Type} (host : HostDirs) (fs : FileSystem W)

/-- The access of a builtin that resolves a path itself, unless the path does not fit. -/
def builtinAccess (use : FileUse) (path : Text) : List Access :=
  (jsPtResolvePath host (cText path)).toList.map (Access.mk use)

/-- The accesses of `mkdirParts`. -/
def mkdirPartsAccesses : List Text → Text → W → List Access
  | [], _, _ => []
  | part :: parts, current, w =>
      if part = [] then mkdirPartsAccesses parts current w
      else
        let current := if current ≠ [] then joinPath current part else part
        ⟨.stat, cText (resolveHostPath host current)⟩ ::
          if existsHost host fs current w then mkdirPartsAccesses parts current w
          else
            ⟨.create, cText current⟩ ::
              match mkdirAt fs current w with
              | (some _, _) => []
              | (none, w) => mkdirPartsAccesses parts current w

/-- The accesses of `mkdirHost` with its parents. -/
def mkdirAccesses (path : Text) (w : W) : List Access :=
  mkdirPartsAccesses host fs ((simplifyPath (resolveHostPath host path)).splitOn '/')
    (if (resolveHostPath host path).head? = some '/' then ['/'] else []) w

/-- The accesses of the operation `escrever_texto` of a workspace, and of `escrever_json`. -/
def writeAccesses (target : Text) (w : W) : List Access :=
  mkdirAccesses host fs (dirnamePath target) w ++ builtinAccess host .overwrite target

/-! ## Builtins on bytes -/

/-- The builtin `arquivo_existe`; `none` is an exception. -/
def arquivoExiste (path : Text) (w : W) : Option Bool :=
  (jsPtResolvePath host (cText path)).map fun resolved =>
    onPath resolved false fun l => (fs.stat l w).isOk

/-- The builtin `ler_bytes`; `none` is an exception. -/
def lerBytes (path : Text) (w : W) : Option Text := lerTexto host fs path w

end Host

/-! ## The sample's workspaces -/

/-- The same function as `dirnamePath`. -/
def dirnameSimples (path : Text) : Text := dirnamePath path

/-- `/^(\/|[A-Za-z]:[\\/])/`. -/
def startsAbsolute : Text → Bool
  | '/' :: _ => true
  | c :: ':' :: d :: _ => c.isAlpha && (d = '/' || d = '\\')
  | _ => false

/-- `SCRIPT_PATH`. -/
def scriptPath (cwd scriptArg : Text) : Text :=
  if startsAbsolute scriptArg then normalizePath scriptArg
  else (normalizePath cwd).rdropWhile (· = '/') ++
    '/' :: (normalizePath scriptArg).dropWhile (· = '/')

/-- `SAMPLE_DIR`. -/
def sampleDir (cwd scriptArg : Text) : Text := dirnameSimples (scriptPath cwd scriptArg)

section Workspaces

variable (host : HostDirs) (dir : Text)

/-- The root of `ROOT`. -/
def sampleRoot : Text := resolvedRoot host dir

/-- The root of `STATE`. -/
def stateRoot : Text := resolvedRoot host (dir ++ "/nullclaw_state".toList)

/-- The root of `USER_WS`. -/
def userRoot : Text := resolvedRoot host (dir ++ "/nullclaw_workspace".toList)

def memoryFile : Text := localPath host (stateRoot host dir) "memory.json".toList

end Workspaces

/-! ## The tools -/

/-- What a tool answers, or how it ends without an answer. -/
inductive ToolAnswer where
  | text (answer : Text)
  | json (erro : Erro)
  /-- The result of scanning the bytes of a file, and the path it reports. -/
  | scanned (path bytes : Text)
  | absent (path : Text)
  | thrown

/-- `sair(1)` of `escreverJson` counts as thrown. -/
structure ToolRun (W : Type) where
  answer : ToolAnswer
  accesses : List Access
  after : W

/-- `text || default`. -/
def orDefault (text default : Text) : Text := if text = [] then default else text

/-- `text.split(/\s+/)`. -/
def splitSpaces : Text → List Text
  | [] => [[]]
  | c :: text =>
      if isJsSpace c then
        if text.head?.any isJsSpace then splitSpaces text else [] :: splitSpaces text
      else
        match splitSpaces text with
        | part :: parts => (c :: part) :: parts
        | [] => [[c]]

inductive Tool where
  | ls
  | read
  | write
  | scan
  deriving DecidableEq

section Tools

/- `remember` is what a new entry makes of the text of `memory.json`: the text that is saved, or
`none` where what was read has no method `push`. -/
variable {W : Type} (host : HostDirs) (fs : FileSystem W) (dir : Text)
  (remember : Option Text → Text → Option Text)

def ls (payload : Text) (w : W) : ToolRun W :=
  let target := orDefault payload dot
  { answer :=
      match Workspace.listar host fs (userRoot host dir) target w with
      | .ok names _ => .text (['\n'].intercalate names)
      | .erro erro => .json erro
    accesses :=
      [⟨.list, cText (resolveHostPath host
        (orDot (localPath host (userRoot host dir) (orDot target))))⟩]
    after := w }

def read (payload : Text) (w : W) : ToolRun W :=
  let target := orDefault payload "AGENTS.md".toList
  { answer :=
      match Workspace.lerTexto host fs (userRoot host dir) target w with
      | .ok text _ => .text text
      | .erro erro => .json erro
    accesses := builtinAccess host .read (localPath host (userRoot host dir) target)
    after := w }

/-- Whether the entry was saved, with what `appendMemory` does to the files. -/
def appendMemory (texto : Text) (w : W) : Bool × List Access × W :=
  let loaded := (Workspace.lerTexto host fs (stateRoot host dir) "memory.json".toList w).valor
  match remember loaded texto with
  | none => (false, builtinAccess host .read (memoryFile host dir), w)
  | some saved =>
      let (res, w') :=
        Workspace.escreverTexto host fs (stateRoot host dir) "memory.json".toList saved w
      (res.isOk, builtinAccess host .read (memoryFile host dir) ++
        writeAccesses host fs (memoryFile host dir) w, w')

def write (payload : Text) (w : W) : ToolRun W :=
  let parts := splitSpaces payload
  let target := orDefault (parts.headD []) "nota.txt".toList
  let content := orDefault ([' '].intercalate parts.tail) "conteudo vazio".toList
  let w₁ := (Workspace.escreverTexto host fs (userRoot host dir) target (content ++ ['\n']) w).2
  let (saved, accesses, w₂) := appendMemory host fs dir remember
    ("arquivo ".toList ++ target ++ " atualizado".toList) w₁
  { answer := if saved then .text ("ok: ".toList ++ target) else .thrown
    accesses := writeAccesses host fs (localPath host (userRoot host dir) target) w ++ accesses
    after := w₂ }

/-- `varrer_arquivo` of the engine. -/
def engineScan (path : Text) (w : W) : ToolRun W :=
  if existsHost host fs path w then
    { answer :=
        match lerBytes host fs path w with
        | some bytes => .scanned (resolveHostPath host path) bytes
        | none => .thrown
      accesses := ⟨.stat, cText (resolveHostPath host path)⟩ :: builtinAccess host .read path
      after := w }
  else
    { answer := .absent path
      accesses := [⟨.stat, cText (resolveHostPath host path)⟩]
      after := w }

/-- The global `varrer_arquivo`. -/
def varrerArquivo (path : Text) (w : W) : ToolRun W :=
  match arquivoExiste host fs path w with
  | none => { answer := .thrown, accesses := [], after := w }
  | some false => { answer := .absent path, accesses := builtinAccess host .stat path, after := w }
  | some true =>
      { answer :=
          match lerBytes host fs path w with
          | some bytes => .scanned path bytes
          | none => .thrown
        accesses := builtinAccess host .stat path ++ builtinAccess host .read path
        after := w }

def scan (payload : Text) (w : W) : ToolRun W :=
  let target := orDefault payload "AGENTS.md".toList
  let path := localPath host (userRoot host dir) target
  let run :=
    if Workspace.existe host fs (userRoot host dir) target w then engineScan host fs path w
    else varrerArquivo host fs (localPath host (sampleRoot host dir) target) w
  { run with accesses := ⟨.stat, cText (resolveHostPath host path)⟩ :: run.accesses }

def runTool : Tool → Text → W → ToolRun W
  | .ls => ls host fs dir
  | .read => read host fs dir
  | .write => write host fs dir remember
  | .scan => scan host fs dir

end Tools

end GatoCore.NullClaw
