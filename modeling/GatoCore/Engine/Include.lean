import GatoCore.Stdlib.Paths

/-!
# Including files

Source: `js_pt_incluir`, `js_pt_ler_texto` and `js_pt_arquivo_existe` of `quickjs-libc.c`.

The directory relative paths start from is the global `__pt_base_dir`; `incluir` sets it to the
directory of the file it evaluates and sets it back afterwards. The code of a file is represented
by what it does with paths, a `Script`.
-/

namespace GatoCore.Engine

open GatoCore.Stdlib

/-! ## Scripts -/

/-- How an evaluation ends. -/
inductive Outcome where
  | returned
  | threw
deriving DecidableEq

/-- What evaluating a file does with paths. Each node has the state of the program when it is
reached, and goes on with the answer to its call; an exception that is not caught is an answer
followed by `finish .threw`. -/
inductive Script (W : Type) where
  | finish (out : Outcome) (w : W)
  | incluir (path : Text) (w : W) (next : Outcome → W → Script W)
  | lerTexto (path : Text) (w : W) (next : Option Text → Script W)
  | arquivoExiste (path : Text) (w : W) (next : Option Bool → Script W)

/-- What the engine does not decide: the file system, what a text does when it is evaluated, the
current directory, and whether the global can be set. -/
structure Host (W : Type) where
  load : Text → W → Option Text
  stat : Text → W → Bool
  eval : Text → W → Script W
  getcwd : Option Text
  writable : Bool

/-- The value of `__pt_base_dir`, when it is a text. -/
abbrev BaseDir := Option Text

/-! ## Runs -/

/-- A call with a path made while `file` is evaluated, and the path it opens; `none` when the path
does not fit the buffer or there is no directory to start from. -/
structure PathCall where
  file : Text
  path : Text
  resolved : Option Text
deriving DecidableEq

/-- The end of an evaluation, the state of the program and the global after it, and the calls it
made. -/
structure Result (W : Type) where
  out : Outcome
  world : W
  base : BaseDir
  calls : List PathCall

section Run

variable {W : Type} (host : Host W)

/-- The directory relative paths start from. -/
def startDir (base : BaseDir) : Option Text :=
  match base with
  | some dir => some (cText dir)
  | none => host.getcwd

/-- The path a builtin opens, when there is a directory to start from. -/
def openedPath (base : BaseDir) (path : Text) : Option Text :=
  if jsPtPathIsAbs (cText path) then printToBuffer (cText path)
  else (startDir host base).bind (jsPtPathJoin · (cText path))

/-- `js_pt_incluir`; `evaluate` is `JS_Eval` of the file. -/
def jsPtIncluir (evaluate : Text → Script W → BaseDir → Option (Result W)) (base : BaseDir)
    (path : Text) (w : W) : Option (Result W) :=
  match startDir host base with
  | none => some ⟨.threw, w, base, []⟩
  | some baseDir =>
      match jsPtPathJoin baseDir (cText path) with
      | none => some ⟨.threw, w, base, []⟩
      | some resolved =>
          match host.load resolved w with
          | none => some ⟨.threw, w, base, []⟩
          | some text =>
              if !host.writable then some ⟨.threw, w, base, []⟩
              else
                (evaluate resolved (host.eval text w) (some (ptDirname resolved))).map fun r =>
                  -- the global is set back, whatever the evaluation left there
                  { r with base := base.map cText }

/-- The evaluation of the code of `file`, for at most `fuel` calls in a row and in depth. -/
def evalScript : ℕ → Text → Script W → BaseDir → Option (Result W)
  | 0, _, _, _ => none
  | _ + 1, _, .finish out w, base => some ⟨out, w, base, []⟩
  | fuel + 1, file, .incluir path w next, base => do
      let r ← jsPtIncluir host (evalScript fuel) base path w
      let r' ← evalScript fuel file (next r.out r.world) r.base
      let call : PathCall :=
        ⟨file, cText path, (startDir host base).bind (jsPtPathJoin · (cText path))⟩
      return { r' with calls := call :: r.calls ++ r'.calls }
  | fuel + 1, file, .lerTexto path w next, base => do
      let resolved := openedPath host base path
      let r ← evalScript fuel file (next (resolved.bind (host.load · w))) base
      return { r with calls := ⟨file, cText path, resolved⟩ :: r.calls }
  | fuel + 1, file, .arquivoExiste path w next, base => do
      let resolved := openedPath host base path
      let r ← evalScript fuel file (next (resolved.map (host.stat · w))) base
      return { r with calls := ⟨file, cText path, resolved⟩ :: r.calls }

end Run

/-! ## Directories -/

/-- The directory of a file: what stands before the last slash, the root for a file below it, and
the current directory for a name without slashes. -/
def directoryOf (file : Text) : Text :=
  if '/' ∈ file then
    let dir := (file.reverse.dropWhile (· ≠ '/')).tail.reverse
    if dir = [] then ['/'] else dir
  else dot

/-- A relative path below a directory, when it fits the buffer. -/
def pathIn (dir path : Text) : Option Text :=
  printToBuffer (dir ++ (if dir.getLast? = some '/' then [] else ['/']) ++ path)

/-- A relative path leads from the directory of the file that is being evaluated. -/
def PathCall.FromOwnDirectory (c : PathCall) : Prop :=
  c.path.head? ≠ some '/' → c.resolved = pathIn (directoryOf c.file) c.path

/-- A path without backslashes. -/
def PathCall.Plain (c : PathCall) : Prop := '\\' ∉ c.path

/-! ## The directory of a path -/

theorem findIdx?_reverse_append {p : Char → Bool} {a b : Text} {c : Char} (hc : p c = true)
    (hb : ∀ d ∈ b, p d = false) : (a ++ c :: b).reverse.findIdx? p = some b.length := by
  have hrev : (a ++ c :: b).reverse = b.reverse ++ c :: a.reverse := by simp
  have hnone : b.reverse.findIdx? p = none :=
    List.findIdx?_eq_none_iff.mpr fun d hd => hb d (List.mem_reverse.mp hd)
  rw [hrev, List.findIdx?_append, hnone]
  simp [List.findIdx?_cons, hc]

/-- The file name of a path. -/
theorem exists_last_slash {file : Text} (h : '/' ∈ file) :
    ∃ dir name, file = dir ++ '/' :: name ∧ '/' ∉ name := by
  obtain ⟨as, bs, hfile, has⟩ := List.eq_append_cons_of_mem (List.mem_reverse.mpr h)
  refine ⟨bs.reverse, as.reverse, ?_, by simpa using has⟩
  have hrev := congrArg List.reverse hfile
  simpa using hrev

/-- On a path without backslashes `js_pt_dirname` is the directory of the file. -/
theorem ptDirname_eq_directoryOf {file : Text} (h : '\\' ∉ file) :
    ptDirname file = directoryOf file := by
  by_cases hslash : '/' ∈ file
  · obtain ⟨dir, name, rfl, hname⟩ := exists_last_slash hslash
    have hsep : lastSeparator (dir ++ '/' :: name) = some dir.length := by
      have hb : ∀ d ∈ name, decide (d = '/' ∨ d = '\\') = false := by
        intro d hd
        have hd1 : d ≠ '/' := fun heq => hname (heq ▸ hd)
        have hd2 : d ≠ '\\' := fun heq => h (heq ▸ by simp [hd])
        simp [hd1, hd2]
      rw [lastSeparator, findIdx?_reverse_append (by decide) hb]
      simp
    have hdrop : (dir ++ '/' :: name).reverse.dropWhile (· ≠ '/') = '/' :: dir.reverse := by
      have hrev : (dir ++ '/' :: name).reverse = name.reverse ++ '/' :: dir.reverse := by simp
      have hall : ∀ d ∈ name.reverse, decide (d ≠ '/') = true := by
        intro d hd
        have : d ≠ '/' := fun heq => hname (heq ▸ List.mem_reverse.mp hd)
        simp [this]
      rw [hrev, List.dropWhile_append_of_pos hall]
      simp
    rw [ptDirname, hsep, directoryOf, if_pos hslash, hdrop]
    cases dir with
    | nil => rfl
    | cons c dir => simp
  · have hsep : lastSeparator file = none := by
      have hall : ∀ d ∈ file.reverse, decide (d = '/' ∨ d = '\\') = false := by
        intro d hd
        have hd' : d ∈ file := List.mem_reverse.mp hd
        have hd1 : d ≠ '/' := fun heq => hslash (heq ▸ hd')
        have hd2 : d ≠ '\\' := fun heq => h (heq ▸ hd')
        simp [hd1, hd2]
      rw [lastSeparator, List.findIdx?_eq_none_iff.mpr hall]
      rfl
    rw [ptDirname, hsep, directoryOf, if_neg hslash]

theorem mem_ptDirname {file : Text} {c : Char} (h : c ∈ ptDirname file) : c = '.' ∨ c ∈ file := by
  unfold ptDirname at h
  split at h
  · left
    simpa [dot] using h
  · exact .inr (List.mem_of_mem_take h)
  · exact .inr (List.mem_of_mem_take h)

theorem ptDirname_ne_nil (file : Text) : ptDirname file ≠ [] := by
  unfold ptDirname
  split
  · simp [dot]
  · rename_i hsep
    intro h
    rcases List.take_eq_nil_iff.mp h with h | h
    · cases h
    · rw [h] at hsep
      cases hsep
  · rename_i len hne hsep
    intro h
    rcases List.take_eq_nil_iff.mp h with h | h
    · exact hne (h ▸ rfl)
    · rw [h] at hsep
      cases hsep

/-! ## Plain paths -/

/-- A path of the file system that the discipline is about. -/
structure PlainPath (path : Text) : Prop where
  no_nul : '\x00' ∉ path
  no_backslash : '\\' ∉ path

theorem PlainPath.ptDirname {file : Text} (h : PlainPath file) : PlainPath (ptDirname file) := by
  constructor
  · intro hc
    rcases mem_ptDirname hc with hc | hc
    · exact absurd hc (by decide)
    · exact h.no_nul hc
  · intro hc
    rcases mem_ptDirname hc with hc | hc
    · exact absurd hc (by decide)
    · exact h.no_backslash hc

theorem jsPtPathJoin_eq_some {base path resolved : Text} (h : jsPtPathJoin base path =
    some resolved) :
    resolved = jsPtPathText base path := by
  unfold jsPtPathJoin printToBuffer at h
  split at h
  · cases h
  · exact (Option.some.inj h).symm

theorem PlainPath.join {base path resolved : Text} (hb : PlainPath base) (hp : PlainPath path)
    (h : jsPtPathJoin base path = some resolved) : PlainPath resolved := by
  rw [jsPtPathJoin_eq_some h]
  unfold jsPtPathText
  split_ifs
  · exact hp
  · exact hp
  · exact ⟨by simp [hb.no_nul, hp.no_nul], by simp [hb.no_backslash, hp.no_backslash]⟩
  · exact ⟨by simp [hb.no_nul, hp.no_nul], by simp [hb.no_backslash, hp.no_backslash]⟩

/-- A relative path joined to the directory of a file. -/
theorem jsPtPathJoin_ptDirname {file path : Text} (hf : PlainPath file)
    (hp : path.head? ≠ some '/') :
    jsPtPathJoin (Stdlib.ptDirname file) path = pathIn (directoryOf file) path := by
  have habs : jsPtPathIsAbs path = false := by simp [jsPtPathIsAbs, hp]
  have hlen : (Stdlib.ptDirname file).length ≠ 0 := by simpa using ptDirname_ne_nil file
  have hlast : (Stdlib.ptDirname file).getLast? ≠ some '\\' :=
    fun h => hf.ptDirname.no_backslash (List.mem_of_getLast? h)
  rw [jsPtPathJoin, jsPtPathText, pathIn, ← ptDirname_eq_directoryOf hf.no_backslash]
  simp [habs, hlen, hlast]

/-! ## The discipline -/

section Discipline

variable {W : Type} {host : Host W}

/-- What an evaluation that starts in the directory of its file keeps. -/
def Disciplined (base : Text) (r : Result W) : Prop :=
  (∀ c ∈ r.calls, c.Plain) → r.base = some base ∧ ∀ c ∈ r.calls, c.FromOwnDirectory

theorem startDir_some {base : Text} (h : PlainPath base) :
    startDir host (some base) = some base := by
  rw [startDir, cText_of_not_mem h.no_nul]

/-- One include sets the global back and keeps the discipline of the evaluation. -/
theorem jsPtIncluir_disciplined {evaluate : Text → Script W → BaseDir → Option (Result W)}
    (heval : ∀ file script r, PlainPath file →
      evaluate file script (some (ptDirname file)) = some r → Disciplined (ptDirname file) r)
    {base path : Text} {w : W} {r : Result W} (hb : PlainPath base) (hp : '\\' ∉ cText path)
    (h : jsPtIncluir host evaluate (some base) path w = some r) : Disciplined base r := by
  have hpath : PlainPath (cText path) := ⟨nul_not_mem_cText path, hp⟩
  intro hplain
  rw [jsPtIncluir, startDir_some hb] at h
  dsimp only at h
  split at h
  · cases h
    exact ⟨rfl, by simp⟩
  · rename_i resolved hjoin
    split at h
    · cases h
      exact ⟨rfl, by simp⟩
    · split at h
      · cases h
        exact ⟨rfl, by simp⟩
      · obtain ⟨r', hr', rfl⟩ := Option.map_eq_some_iff.mp h
        refine ⟨by simp [cText_of_not_mem hb.no_nul], ?_⟩
        exact (heval resolved _ r' (hb.join hpath hjoin) hr' hplain).2

theorem startDir_join (host : Host W) {file : Text} (hf : PlainPath file) {path : Text}
    (hp : path.head? ≠ some '/') :
    (startDir host (some (ptDirname file))).bind (jsPtPathJoin · path) =
      pathIn (directoryOf file) path := by
  rw [startDir_some hf.ptDirname, Option.bind_some, jsPtPathJoin_ptDirname hf hp]

theorem openedPath_relative {file : Text} (hf : PlainPath file) {path : Text}
    (hp : (cText path).head? ≠ some '/') :
    openedPath host (some (ptDirname file)) path = pathIn (directoryOf file) (cText path) := by
  have habs : ¬jsPtPathIsAbs (cText path) = true := by simp [jsPtPathIsAbs, hp]
  rw [openedPath, if_neg habs]
  exact startDir_join host hf hp

/-- A builtin called before the rest of the file. -/
theorem Disciplined.cons {file : Text} (hf : PlainPath file) {path : Text} {r : Result W}
    (h : Disciplined (ptDirname file) r) : Disciplined (ptDirname file)
      { r with calls := ⟨file, cText path, openedPath host (some (ptDirname file)) path⟩ ::
        r.calls } := by
  intro hplain
  obtain ⟨hbase, hcalls⟩ := h fun c hc => hplain c (List.mem_cons_of_mem _ hc)
  refine ⟨hbase, fun c hc => ?_⟩
  rcases List.mem_cons.mp hc with rfl | hc
  · exact openedPath_relative hf
  · exact hcalls c hc

/-- The calls of a file start from its directory, before and after the files it includes. -/
theorem evalScript_disciplined : ∀ (fuel : ℕ) (file : Text) (script : Script W) (r : Result W),
    PlainPath file → evalScript host fuel file script (some (ptDirname file)) = some r →
      Disciplined (ptDirname file) r
  | 0, _, _, _, _, h => by cases h
  | fuel + 1, file, .finish out w, r, _, h => by
      cases h
      exact fun _ => ⟨rfl, by simp⟩
  | fuel + 1, file, .incluir path w next, r, hf, h => by
      obtain ⟨r₁, hincl, h⟩ := Option.bind_eq_some_iff.mp h
      obtain ⟨r₂, hrest, h⟩ := Option.bind_eq_some_iff.mp h
      cases h
      intro hplain
      have hcall := hplain _ List.mem_cons_self
      -- the include sets the global back, so the rest runs in the same directory
      obtain ⟨hbase, hcalls⟩ := jsPtIncluir_disciplined (evalScript_disciplined fuel)
        hf.ptDirname hcall hincl fun c hc => hplain c (by simp [hc])
      rw [hbase] at hrest
      obtain ⟨hbase', hcalls'⟩ := evalScript_disciplined fuel file _ r₂ hf hrest
        fun c hc => hplain c (by simp [hc])
      refine ⟨hbase', fun c hc => ?_⟩
      rcases List.mem_append.mp hc with hc | hc
      · rcases List.mem_cons.mp hc with rfl | hc
        · exact startDir_join host hf
        · exact hcalls c hc
      · exact hcalls' c hc
  | fuel + 1, file, .lerTexto path w next, r, hf, h => by
      obtain ⟨r₁, hrest, h⟩ := Option.bind_eq_some_iff.mp h
      cases h
      exact (evalScript_disciplined fuel file _ r₁ hf hrest).cons hf
  | fuel + 1, file, .arquivoExiste path w next, r, hf, h => by
      obtain ⟨r₁, hrest, h⟩ := Option.bind_eq_some_iff.mp h
      cases h
      exact (evalScript_disciplined fuel file _ r₁ hf hrest).cons hf

end Discipline

/-- After an `incluir` the global is what it was, and every relative path of every file it
evaluates leads from the directory of that file. -/
theorem include_discipline {W : Type} (host : Host W) (fuel : ℕ) {base : Text} (path : Text) (w : W)
    {r : Result W} (hbase : PlainPath base) (hpath : '\\' ∉ path)
    (hrun : jsPtIncluir host (evalScript host fuel) (some base) path w = some r)
    (hcalls : ∀ c ∈ r.calls, c.Plain) :
    r.base = some base ∧ ∀ c ∈ r.calls, c.FromOwnDirectory := by
  have hp : '\\' ∉ cText path := fun h => hpath (List.takeWhile_subset _ h)
  exact jsPtIncluir_disciplined (evalScript_disciplined fuel) hbase hp hrun hcalls

/-- `a.ptjs` includes `sub/b.ptjs`, which throws after it looked for a file, and reads
`dados.txt`. -/
def nestedHost : Host Unit where
  load path _ :=
    if path = "/p/a.ptjs".toList then some "a".toList
    else if path = "/p/sub/b.ptjs".toList then some "b".toList
    else none
  stat _ _ := false
  eval text w :=
    if text = "a".toList then
      .incluir "sub/b.ptjs".toList w fun _ w =>
        .lerTexto "dados.txt".toList w fun _ => .finish .returned w
    else .arquivoExiste "c.txt".toList w fun _ => .finish .threw w
  getcwd := none
  writable := true

/-- The result of the include of `a.ptjs`. -/
def nestedResult : Result Unit :=
  { out := .returned, world := (), base := some "/p".toList
    calls :=
      [⟨"/p/a.ptjs".toList, "sub/b.ptjs".toList, some "/p/sub/b.ptjs".toList⟩,
        ⟨"/p/sub/b.ptjs".toList, "c.txt".toList, some "/p/sub/c.txt".toList⟩,
        ⟨"/p/a.ptjs".toList, "dados.txt".toList, some "/p/dados.txt".toList⟩] }

theorem include_discipline_nested :
    nestedResult.base = some "/p".toList ∧ ∀ c ∈ nestedResult.calls, c.FromOwnDirectory := by
  refine include_discipline nestedHost 5 "a.ptjs".toList () ⟨?_, ?_⟩ ?_ ?_ ?_
  · decide
  · decide
  · decide
  · rfl
  · unfold PathCall.Plain
    decide

end GatoCore.Engine
