import Mathlib.Algebra.Ring.Nat
import Mathlib.Data.List.Basic
import Mathlib.Data.List.TakeWhile
import GatoCore.Lib.RelPath

/-!
# Paths of the standard library

Source: `baseDir`, `normalizePath`, `isAbsolutePath`, `dirnamePath`, `joinPath`, `simplifyPath` and
`resolveHostPath` of `stdlib/ptstdlib.js`, and `js_pt_path_is_abs`, `js_pt_path_join`,
`js_pt_dirname` and `js_pt_resolve_path` of `quickjs-libc.c` on POSIX (`pt_dirname` of `qjs.c` is
the same function).

A text is the list of its characters; a C string is what stands before the first NUL. What a path
means to the operating system is its `locate`: a place below the root or relative to the current
directory, in a file system without symbolic links.
-/

namespace GatoCore.Stdlib

open GatoCore.Lib

abbrev Text := List Char

instance : LawfulBEq Text := List.instLawfulBEq

def dot : Text := ['.']

def dotDot : Text := ['.', '.']

/-! ## The standard library -/

def normalizePath (path : Text) : Text := path.map fun c => if c = '\\' then '/' else c

/-- `/^[A-Za-z]:\//`. -/
def hasDrive : Text → Bool
  | c :: ':' :: '/' :: _ => c.isAlpha
  | _ => false

def isAbsolutePath (path : Text) : Bool :=
  (normalizePath path).head? = some '/' || hasDrive (normalizePath path)

/-- `text.lastIndexOf(c)`. -/
def lastIndexOf (c : Char) (text : Text) : Option ℕ :=
  (text.reverse.idxOf? c).map fun i => text.length - 1 - i

def dirnamePath (path : Text) : Text :=
  match lastIndexOf '/' (normalizePath path) with
  | none => dot
  | some 0 => ['/']
  | some idx => (normalizePath path).take idx

/-- `text || "."`. -/
def orDot (text : Text) : Text := if text = [] then dot else text

def joinPath (base part : Text) : Text :=
  let baseText := normalizePath (orDot base)
  let partText := normalizePath (orDot part)
  if baseText = [] ∨ baseText = dot then partText
  else if partText = [] ∨ partText = dot then baseText
  else if isAbsolutePath partText then partText
  else if baseText.getLast? = some '/' then baseText ++ partText
  else baseText ++ '/' :: partText

/-- The body of the loop of `simplifyPath`. -/
def simplifyPart (absolute : Bool) (out : List Text) (part : Text) : List Text :=
  if part = [] ∨ part = dot then out
  else if part = dotDot then
    if out ≠ [] ∧ out.getLast? ≠ some dotDot then out.dropLast
    else if !absolute then out ++ [dotDot]
    else out
  else out ++ [part]

/-- The prefix, the rest and whether the path is absolute, before the loop of `simplifyPath`. -/
def splitDrive (text : Text) : Text × Text × Bool :=
  if hasDrive text then (text.take 2, text.drop 2, true) else ([], text, isAbsolutePath text)

def simplifyPath (path : Text) : Text :=
  let (drive, text, absolute) := splitDrive (normalizePath path)
  let out := (text.splitOn '/').foldl (simplifyPart absolute) []
  drive ++ (if absolute then ['/'] else []) ++ ['/'].intercalate out

/-- What the path functions read of the host: the global `__pt_base_dir`, when it is a text, and
the current directory. -/
structure HostDirs where
  ptBaseDir : Option Text
  getcwd : Text

/-- The pair `[dir, 0]` that `os.getcwd()` returns, as a text. -/
def getcwdText (host : HostDirs) : Text := host.getcwd ++ [',', '0']

def baseDir (host : HostDirs) : Text :=
  match host.ptBaseDir with
  | some dir => if dir.length ≠ 0 then dir else getcwdText host
  | none => getcwdText host

def resolveHostPath (host : HostDirs) (path : Text) : Text :=
  if isAbsolutePath path then simplifyPath path
  else simplifyPath (joinPath (baseDir host) path)

/-! ## The C builtins -/

/-- The C string of a text ends at its first NUL. -/
def cText (text : Text) : Text := text.takeWhile (· ≠ '\x00')

theorem nul_not_mem_cText (text : Text) : '\x00' ∉ cText text := by
  intro h
  have := List.mem_takeWhile_imp h
  simp at this

theorem cText_of_not_mem {text : Text} (h : '\x00' ∉ text) : cText text = text := by
  refine List.takeWhile_eq_self_iff.mpr fun c hc => ?_
  have hne : c ≠ '\x00' := fun heq => h (heq ▸ hc)
  simpa using hne

theorem cText_append {a : Text} (h : '\x00' ∉ a) (b : Text) : cText (a ++ b) = a ++ cText b := by
  refine List.takeWhile_append_of_pos fun c hc => ?_
  have hne : c ≠ '\x00' := fun heq => h (heq ▸ hc)
  simpa using hne

/-- The size of a text as a C string, without the terminator. -/
def utf8Length (text : Text) : ℕ := (text.map Char.utf8Size).sum

/-- `snprintf` into a buffer of `PATH_MAX` bytes; `none` when it does not fit. -/
def printToBuffer (text : Text) : Option Text := if utf8Length text ≥ 4096 then none else some text

def jsPtPathIsAbs (path : Text) : Bool := path.head? = some '/'

/-- What `js_pt_path_join` writes. -/
def jsPtPathText (base path : Text) : Text :=
  if jsPtPathIsAbs path then path
  else if base.length = 0 then path
  else base ++
    (if base.getLast? = some '/' ∨ base.getLast? = some '\\' then [] else ['/']) ++ path

def jsPtPathJoin (base path : Text) : Option Text := printToBuffer (jsPtPathText base path)

/-- The last position of a slash or a backslash. -/
def lastSeparator (path : Text) : Option ℕ :=
  (path.reverse.findIdx? fun c => c = '/' ∨ c = '\\').map fun i => path.length - 1 - i

/-- `pt_dirname` and `js_pt_dirname`, for a path shorter than `PATH_MAX`. -/
def ptDirname (path : Text) : Text :=
  match lastSeparator path with
  | none => dot
  | some 0 => path.take 1
  | some len => path.take len

/-- `path` is a C string; the base directory is read as one. -/
def jsPtResolvePath (host : HostDirs) (path : Text) : Option Text :=
  if jsPtPathIsAbs path then printToBuffer path
  else jsPtPathJoin (cText (host.ptBaseDir.getD host.getcwd)) path

/-! ## Locations -/

/-- The step a component of a path makes. -/
def pathStep (part : Text) : Option (PathStep Text) :=
  if part = [] ∨ part = dot then none
  else if part = dotDot then some .up
  else some (.name part)

/-- The steps of a path. -/
def pathSteps (text : Text) : List (PathStep Text) := (text.splitOn '/').filterMap pathStep

/-- A path without its detours. -/
def walk (text : Text) : RelPath Text := RelPath.reduce (pathSteps text)

/-- A place in a file system without symbolic links: below the root, or relative to the current
directory. -/
inductive Location where
  | absolute (names : List Text)
  | relative (path : RelPath Text)
deriving DecidableEq

/-- The place a path denotes; the empty path denotes none, and the parent of the root is the
root. -/
def locate (text : Text) : Option Location :=
  if text = [] then none
  else if text.head? = some '/' then some (.absolute (walk text).names)
  else some (.relative (walk text))

/-- The names down to a place; a relative path starts at the current directory. -/
def placeNames (cwd : Text) : Location → List Text
  | .absolute names => names
  | .relative p => (walk cwd * p).names

end GatoCore.Stdlib
