import Mathlib.Data.List.TakeWhile
import GatoCore.Lib.ShellWords
import GatoCore.Stdlib.PathFacts

/-!
# Commands through the shell

Source: `shellEscape`, `shellJoin` and `popenCaptureHost` of `stdlib/ptstdlib.js`, and
`js_std_popen` of the engine, which hands the command to the C library as a C string.

The shell and the processes it starts are outside the source: what `popen` does is a parameter, and
`RunsWords` says of it that a simple command is run as its words.
-/

namespace GatoCore.Stdlib

open GatoCore.Lib

/-! ## Quoting -/

/-- What `shellEscape` writes for one character. -/
def escapeQuote (c : Char) : Text :=
  if c = '\'' then ['\'', '"', '\'', '"', '\''] else [c]

def shellEscape (arg : Text) : Text := '\'' :: arg.flatMap escapeQuote ++ ['\'']

def shellJoin (args : List Text) : Text := [' '].intercalate (args.map shellEscape)

/-! ## Processes -/

/-- What a process answers: `readAsString` and `close` of the file `popen` opened. -/
structure Saida where
  saida : Text
  status : ℤ
deriving DecidableEq, Repr

/-- How `std.popen` can end. -/
inductive Aberto where
  | lancou (err : Text)
  | nulo
  | processo (resposta : Saida)
deriving DecidableEq, Repr

/-- The module `std` of the host: what `popen` of the C library does with a command. -/
structure StdHost (W : Type) where
  popen : Text → W → Aberto × W

/-- A C string ends at the first NUL. -/
def cString (t : Text) : Text := t.takeWhile fun c => decide (c ≠ '\x00')

/-- The first argument of `popenCaptureHost`. -/
inductive Comando where
  | lista (itens : List Text)
  | unico (item : Text)
deriving DecidableEq, Repr

def Comando.argv : Comando → List Text
  | .lista itens => itens
  | .unico item => [item]

/-- What `popenCaptureHost` answers: `errorResult` with the command in its `meta`, or `okResult`. -/
inductive Captura where
  | erro (codigo : String) (mensagem : Text) (comando : Option Text)
  | ok (argv : List Text) (comando saida : Text) (exit_code : ℤ) (ok : Bool)
deriving DecidableEq, Repr

variable {W : Type}

def popenCaptureHost (host : Option (StdHost W)) (args : Comando) (w : W) : Captura × W :=
  let argv := args.argv
  let command := shellJoin argv
  match host with
  | none => (.erro "host_std_ausente" "std.popen nao disponivel".toList none, w)
  | some std =>
      match std.popen (cString command) w with
      | (.nulo, w) =>
          (.erro "popen_falhou" "nao foi possivel abrir processo".toList (some command), w)
      | (.lancou err, w) => (.erro "popen_falhou" err (some command), w)
      | (.processo r, w) => (.ok argv command r.saida r.status (decide (r.status = 0)), w)

/-- The shell runs a simple command: the command its first word names, with exactly its words as
arguments. -/
def StdHost.RunsWords (std : StdHost W) (exec : List Text → W → Saida × W) : Prop :=
  ∀ command argv, argv ≠ [] → shellWords command = some argv →
    ∀ w, std.popen command w = (.processo (exec argv w).1, (exec argv w).2)

/-! ## Quoting is exact -/

/-- A quote leaves the single quotation, is quoted by double quotes, and the quotation goes on. -/
theorem shellScan_escapeQuote (c : Char) (v : List Char) (words : List ShellWord) :
    shellScan ⟨.single, some ⟨v, true⟩, words⟩ (escapeQuote c)
      = some ⟨.single, some ⟨v ++ [c], true⟩, words⟩ := by
  by_cases hc : c = '\''
  · subst hc
    rfl
  · have hstep : shellStep ⟨.single, some ⟨v, true⟩, words⟩ c
        = some ⟨.single, some ⟨v ++ [c], true⟩, words⟩ := if_neg hc
    rw [escapeQuote, if_neg hc, shellScan, hstep, Option.bind_some, shellScan]

theorem quotedAs_shellEscape (arg : Text) : QuotedAs (shellEscape arg) arg := by
  intro words
  have hopen : shellStep ⟨.plain, none, words⟩ '\'' = some ⟨.single, some ⟨[], true⟩, words⟩ := rfl
  have hclose : shellScan ⟨.single, some ⟨arg, true⟩, words⟩ ['\'']
      = some ⟨.plain, some ⟨arg, true⟩, words⟩ := rfl
  rw [shellEscape, List.cons_append, shellScan, hopen, Option.bind_some, shellScan_append,
    shellScan_flatMap shellScan_escapeQuote, Option.bind_some, List.nil_append, hclose]

theorem shellWords_shellJoin (args : List Text) : shellWords (shellJoin args) = some args := by
  refine shellWords_intercalate ?_
  rw [List.forall₂_map_left_iff]
  exact List.forall₂_same.mpr fun arg _ => quotedAs_shellEscape arg

/-! ## The C string is the whole command -/

theorem mem_shellEscape {c : Char} {arg : Text} (h : c ∈ shellEscape arg) :
    c = '\'' ∨ c = '"' ∨ c ∈ arg := by
  rw [shellEscape, List.cons_append, List.mem_cons, List.mem_append, List.mem_flatMap,
    List.mem_singleton] at h
  rcases h with h | ⟨d, hd, h⟩ | h
  · exact .inl h
  · rw [escapeQuote] at h
    split at h
    · rcases List.mem_cons.mp h with h | h
      · exact .inl h
      · simp only [List.mem_cons, List.not_mem_nil, or_false] at h
        rcases h with rfl | rfl | rfl | rfl
        · exact .inr (.inl rfl)
        · exact .inl rfl
        · exact .inr (.inl rfl)
        · exact .inl rfl
    · rw [List.mem_singleton] at h
      subst h
      exact .inr (.inr hd)
  · exact .inl h

theorem nul_not_mem_shellJoin {args : List Text} (h : ∀ arg ∈ args, '\x00' ∉ arg) :
    '\x00' ∉ shellJoin args := by
  intro hmem
  rcases mem_intercalate hmem with hblank | ⟨q, hq, hmem⟩
  · exact absurd hblank (by decide)
  · obtain ⟨arg, harg, rfl⟩ := List.mem_map.mp hq
    rcases mem_shellEscape hmem with hquote | hquote | hmem
    · exact absurd hquote (by decide)
    · exact absurd hquote (by decide)
    · exact h arg harg hmem

theorem cString_of_no_nul {t : Text} (h : '\x00' ∉ t) : cString t = t := by
  refine List.takeWhile_eq_self_iff.mpr ?_
  intro c hc
  simp only [decide_eq_true_eq]
  rintro rfl
  exact h hc

/-- Read back by the shell's rules, the command of NUL-free arguments is those arguments, and so
`popenCaptureHost` runs them and nothing else. -/
theorem popenCaptureHost_runs_argv (args : Comando) (hnul : ∀ arg ∈ args.argv, '\x00' ∉ arg) :
    shellWords (shellJoin args.argv) = some args.argv ∧
    ∀ (std : StdHost W) (exec : List Text → W → Saida × W), std.RunsWords exec → args.argv ≠ [] →
      ∀ w, popenCaptureHost (some std) args w =
        (.ok args.argv (shellJoin args.argv) (exec args.argv w).1.saida (exec args.argv w).1.status
          (decide ((exec args.argv w).1.status = 0)), (exec args.argv w).2) := by
  refine ⟨shellWords_shellJoin args.argv, ?_⟩
  intro std exec hrun hne w
  have hcommand : cString (shellJoin args.argv) = shellJoin args.argv :=
    cString_of_no_nul (nul_not_mem_shellJoin hnul)
  rw [popenCaptureHost, hcommand, hrun _ _ hne (shellWords_shellJoin args.argv)]

/-- A shell that keeps a record of the commands it ran. -/
def recordingShell : StdHost (List (List Text)) where
  popen command w :=
    match shellWords command with
    | some argv => (.processo ⟨[], 0⟩, w ++ [argv])
    | none => (.nulo, w)

theorem recordingShell_runsWords :
    recordingShell.RunsWords fun argv w => (⟨[], 0⟩, w ++ [argv]) := by
  intro command argv _ hwords w
  simp only [recordingShell, hwords]

/-- A quote, a command substitution, a newline and an empty argument. -/
def trickyArgs : List Text :=
  ["eco".toList, "it's; $(id)".toList, "a\nb\\\"".toList, []]

theorem popenCaptureHost_runs_trickyArgs :
    shellWords (shellJoin trickyArgs) = some trickyArgs ∧
    popenCaptureHost (some recordingShell) (.lista trickyArgs) []
      = (.ok trickyArgs (shellJoin trickyArgs) [] 0 true, [trickyArgs]) := by
  have hnul : ∀ arg ∈ (Comando.lista trickyArgs).argv, '\x00' ∉ arg := by decide
  obtain ⟨hwords, hrun⟩ := popenCaptureHost_runs_argv (W := List (List Text))
    (.lista trickyArgs) hnul
  exact ⟨hwords, hrun recordingShell _ recordingShell_runsWords (List.cons_ne_nil _ _) []⟩

end GatoCore.Stdlib
