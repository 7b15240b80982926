import GatoCore.Stdlib.Paths

/-!
# Sandboxes

Source: `isPlainObject`, `execHost` and `specialFactories.sandbox` of `stdlib/ptstdlib.js`, and
`js_os_exec` of `quickjs-libc.c`.

`executar` runs a command when its first argument is in `comandos_permitidos`. The conversion of a
value to a text is code of the program: it may throw, change the state and answer differently the
next time; so may the methods `slice` and `map` of an array that has its own. An object without an
own property `__proto__` is the list of its properties.
-/

namespace GatoCore.Stdlib

/-- JavaScript code: it ends with a value or an exception, and in a state. -/
abbrev Js (S E α : Type) := ExceptT E (StateM S) α

/-- Code within a `try`. -/
def attempt {S E α : Type} (x : Js S E α) : Js S E (Except E α) := ExceptT.mk (.ok <$> x.run)

/-! ## Values -/

/-- A value as `execHost` sees it. An object is plain when its prototype is that of the literals or
`null`; reading its properties may run getters. -/
inductive Value (S E : Type) where
  | undefined
  | bool (b : Bool)
  | number (shown : Text) (int32 : ℤ)
  | text (t : Text)
  | object (plain : Bool) (shown : S → Except E Text × S)
      (properties : S → Except E (List (String × Value S E)) × S)

variable {S E : Type}

/-- `String(value)`. -/
def Value.toText : Value S E → Js S E Text
  | .undefined => pure "undefined".toList
  | .bool b => pure (if b then "true".toList else "false".toList)
  | .number shown _ => pure shown
  | .text t => pure t
  | .object _ shown _ => ExceptT.mk shown

/-- `isPlainObject(value) ? Object.assign({}, value) : {}`. -/
def Value.assign : Value S E → Js S E (List (String × Value S E))
  | .object true _ properties => ExceptT.mk properties
  | _ => pure []

def Value.isPlainObject : Value S E → Bool
  | .object plain _ _ => plain
  | _ => false

/-- `typeof value === "string"`, with the text. -/
def Value.asText : Value S E → Option Text
  | .text t => some t
  | _ => none

/-- `typeof value === "number"`, with what `JS_ToInt32` makes of it. -/
def Value.asNumber : Value S E → Option ℤ
  | .number _ n => some n
  | _ => none

/-- `value === false`. -/
def Value.isFalse : Value S E → Bool
  | .bool b => !b
  | _ => false

/-- `opts[name]`. -/
def property (opts : List (String × Value S E)) (name : String) : Value S E :=
  (opts.lookup name).getD .undefined

/-- `list.indexOf(text) >= 0`: no other value is equal to a text. -/
def includesText (list : List (Value S E)) (t : Text) : Bool :=
  list.any fun v => v.asText = some t

/-! ## The operating system -/

/-- The options of `os.exec`, as `execHost` normalizes them. -/
structure ExecOptions (S E : Type) where
  block : Bool
  cwd : Option Text
  env : Option (List (String × Value S E))
  usePath : Bool
  file : Option Text
  stdio : List (Option ℤ)

/-- A program to run. -/
structure Process where
  file : Text
  argv : List Text
  env : Option (List (String × Text))
  cwd : Option Text
  usePath : Bool
  stdio : List (Option ℤ)
  block : Bool

/-- What the library does not decide: the directories, whether there is a module `os`, the errors
of the engine and their text, and the system: whether `fork` succeeds, and the value `os.exec` has
after it has run a program. -/
structure ExecHost (S E : Type) where
  dirs : HostDirs
  hasOs : Bool
  typeError : String → E
  errorText : E → Js S E Text
  canFork : Bool
  spawn : Process → StateM S ℤ

/-- What a call to `execHost` returns. -/
inductive ExecResult where
  | exited (argv : List Text) (cwd : Option Text) (exitCode : ℤ) (ok : Bool)
  | started (argv : List Text) (cwd : Option Text) (pid : ℤ) (ativo : Bool)
  | erro (codigo : String) (mensagem : Text) (info : List Text)

/-- The result of a call, with the file of the program it launched. -/
structure ExecCall where
  launched : Option Text
  result : ExecResult

section Exec

variable (host : ExecHost S E)

/-- The texts of the values of an environment. -/
def buildEnvp (env : List (String × Value S E)) : Js S E (List (String × Text)) :=
  env.mapM fun entry => do return (entry.1, cText (← entry.2.toText))

/-- `js_os_exec` up to `fork`. -/
def jsOsProcess (argv : List Text) (options : ExecOptions S E) : Js S E Process := do
  match argv with
  | [] => throw (host.typeError "invalid number of arguments")
  | command :: _ =>
      if argv.length > 65535 then throw (host.typeError "invalid number of arguments")
      let env ← options.env.mapM buildEnvp
      return { file := cText (options.file.getD command), argv := argv.map cText, env
               cwd := options.cwd.map cText, usePath := options.usePath, stdio := options.stdio
               block := options.block }

def jsOsExec (argv : List Text) (options : ExecOptions S E) : Js S E (Process × ℤ) := do
  let process ← jsOsProcess host argv options
  if !host.canFork then throw (host.typeError "fork error")
  return (process, ← host.spawn process)

/-! ## The library -/

/-- The field `env` of the object `normalized` of `execHost`. -/
def normalizeEnv (env : Value S E) : Js S E (Option (List (String × Value S E))) :=
  if env.isPlainObject then some <$> env.assign else pure none

/-- The object `normalized` of `execHost`. -/
def normalizeOptions (opts : List (String × Value S E)) : Js S E (ExecOptions S E) := do
  let env ← normalizeEnv (property opts "env")
  return { block := !(property opts "block").isFalse
           cwd := (property opts "cwd").asText.map (resolveHostPath host.dirs)
           env
           usePath := !(property opts "usePath").isFalse
           file := (property opts "file").asText
           stdio := ["stdin", "stdout", "stderr"].map fun name => (property opts name).asNumber }

/-- `execHost` after its arguments are converted. -/
def execTexts (argv : List Text) (opts : List (String × Value S E)) : Js S E ExecCall := do
  if !host.hasOs then
    return ⟨none, .erro "host_os_ausente" "modulo os nao disponivel".toList []⟩
  let normalized ← normalizeOptions host opts
  match ← attempt (jsOsExec host argv normalized) with
  | .error err => return ⟨none, .erro "exec_falhou" (← host.errorText err) argv⟩
  | .ok (process, ret) =>
      -- an empty text counts as no directory
      let cwd := normalized.cwd.filter (· ≠ [])
      return ⟨some process.file,
        if normalized.block then .exited argv cwd ret (ret = 0)
        else .started argv cwd ret (0 < ret)⟩

/-- What `executar` and `execHost` ask of the value `argv`: whether its `length` is truthy, its
first element, and the texts of all its elements, or its own text when it is no array. -/
structure Argv (S E : Type) where
  hasLength : Js S E Bool
  first : Js S E (Value S E)
  texts : Js S E (List Text)

def Argv.ofList (items : List (Value S E)) : Argv S E where
  hasLength := pure !items.isEmpty
  first := pure (items.headD .undefined)
  texts := items.mapM Value.toText

/-- The argument of `executar`. An array may have methods `slice` and `map` of its own, so that
`slice` gives anything. -/
inductive Args (S E : Type) where
  | array (items : List (Value S E))
  | single (value : Value S E)
  | sliced (slice : Js S E (Argv S E))

/-- `Array.isArray(args) ? args.slice() : [args]`. -/
def Args.argv : Args S E → Js S E (Argv S E)
  | .array items => pure (.ofList items)
  | .single value => pure (.ofList [value])
  | .sliced slice => slice

def execHost (argv : Argv S E) (options : Value S E) : Js S E ExecCall := do
  let texts ← argv.texts
  let opts ← options.assign
  execTexts host texts opts

/-- `executar` of a sandbox; `allowed` is the array `comandos_permitidos`, if there is one. -/
def executar (allowed : Option (List (Value S E))) (args : Args S E) (options : Value S E) :
    Js S E ExecCall := do
  let argv ← args.argv
  match allowed with
  | none => execHost host argv options
  | some list =>
      if ← argv.hasLength then
        if includesText list (← (← argv.first).toText) then execHost host argv options
        else
          return ⟨none, .erro "comando_bloqueado" "comando nao permitido pela sandbox".toList
            [← (← argv.first).toText]⟩
      else execHost host argv options

/-! ## What a call must be -/

/-- The end of a piece of code and the state it leaves. -/
def runJs {α : Type} (x : Js S E α) (s : S) : Except E α × S := x.run.run s

/-- A call launched a program of the list, or it launched nothing and returned
`comando_bloqueado`. -/
def Sandboxed (list : List (Value S E)) : Except E ExecCall → Prop
  | .ok ⟨some file, _⟩ => includesText list file = true
  | .ok ⟨none, .erro codigo _ _⟩ => codigo = "comando_bloqueado"
  | _ => False

/-- The file `os.exec` runs: the option `file` when it is a text, else the first argument. -/
def programFile (command : Text) (opts : List (String × Value S E)) : Text :=
  cText ((property opts "file").asText.getD command)

/-- A value that has one text, whenever it is asked for it. -/
def Value.Says (v : Value S E) (t : Text) : Prop := ∀ s, (runJs v.toText s).1 = .ok t

/-- A value that has a text whenever it is asked for it. -/
def Value.Speaks (v : Value S E) : Prop := ∀ s, ∃ t, (runJs v.toText s).1 = .ok t

/-- An environment whose variables have texts, if there is one. -/
def EnvFits (opts : List (String × Value S E)) : Prop :=
  (property opts "env").isPlainObject = true → ∀ s, ∃ env,
    (runJs (property opts "env").assign s).1 = .ok env ∧ ∀ entry ∈ env, entry.2.Speaks

/-- Options that can be read, and that leave the choice of the program to the command or choose one
of the list. -/
def OptionsFit (list : List (Value S E)) (command : Text) (options : Value S E) : Prop :=
  ∀ s, ∃ opts, (runJs options.assign s).1 = .ok opts ∧
    includesText list (programFile command opts) = true ∧ EnvFits opts

/-- The items of an argument without methods of its own. -/
def Args.plainItems : Args S E → Option (List (Value S E))
  | .array items => some items
  | .single value => some [value]
  | .sliced _ => none

/-- The first argument has one text, and either it is not in the list, or it is and nothing keeps
the command from running: the other arguments have texts, the options can be read, and they name no
program outside the list. -/
def KeepsSandbox (list : List (Value S E)) (args : Args S E) (options : Value S E) : Prop :=
  ∃ first rest t, args.plainItems = some (first :: rest) ∧ first.Says t ∧
    (includesText list t = true →
      host.hasOs = true ∧ host.canFork = true ∧ rest.length < 65535 ∧
        (∀ v ∈ rest, v.Speaks) ∧ OptionsFit list t options)

/-- A value without code of its own: its texts and its properties are there. -/
inductive Value.Data : Value S E → Prop
  | undefined : Data .undefined
  | bool (b : Bool) : Data (.bool b)
  | number (shown : Text) (int32 : ℤ) : Data (.number shown int32)
  | text (t : Text) : Data (.text t)
  | object (plain : Bool) (t : Text) {props : List (String × Value S E)}
      (h : ∀ p ∈ props, Data p.2) :
      Data (.object plain (fun s => (.ok t, s)) fun s => (.ok props, s))

/-- An argument without code of its own. -/
inductive Args.Data : Args S E → Prop
  | array {items : List (Value S E)} (h : ∀ v ∈ items, v.Data) : Data (.array items)
  | single {v : Value S E} (h : v.Data) : Data (.single v)

end Exec

/-! ## Runs -/

section Runs

variable {host : ExecHost S E} {α β : Type}

theorem runJs_bind (x : Js S E α) (f : α → Js S E β) (s : S) :
    runJs (x >>= f) s = match runJs x s with
      | (.ok a, s') => runJs (f a) s'
      | (.error e, s') => (.error e, s') := by
  simp only [runJs, ExceptT.run_bind, StateT.run_bind]
  rcases h : x.run.run s with ⟨r, s'⟩
  cases r <;> rfl

@[simp] theorem runJs_pure (a : α) (s : S) : runJs (pure a : Js S E α) s = (.ok a, s) := rfl

@[simp] theorem runJs_throw (e : E) (s : S) : runJs (throw e : Js S E α) s = (.error e, s) := rfl

theorem runJs_attempt (x : Js S E α) (s : S) :
    runJs (attempt x) s = (.ok (runJs x s).1, (runJs x s).2) := rfl

/-- Code that ends well in every state. -/
def Ends (x : Js S E α) (p : α → Prop) : Prop := ∀ s, ∃ a s', runJs x s = (.ok a, s') ∧ p a

theorem ends_iff {x : Js S E α} {p : α → Prop} :
    Ends x p ↔ ∀ s, ∃ a, (runJs x s).1 = .ok a ∧ p a := by
  refine forall_congr' fun s => exists_congr fun a => ?_
  rcases runJs x s with ⟨r, s'⟩
  simp

theorem Ends.pure {p : α → Prop} {a : α} (h : p a) : Ends (pure a : Js S E α) p :=
  fun s => ⟨a, s, rfl, h⟩

theorem Ends.bind {x : Js S E α} {f : α → Js S E β} {p : α → Prop} {q : β → Prop} (hx : Ends x p)
    (hf : ∀ a, p a → Ends (f a) q) : Ends (x >>= f) q := by
  intro s
  obtain ⟨a, s₁, hrun, ha⟩ := hx s
  obtain ⟨b, s₂, hrun', hb⟩ := hf a ha s₁
  exact ⟨b, s₂, by rw [runJs_bind, hrun]; exact hrun', hb⟩

theorem Ends.mapM {α : Type} {f : α → Js S E β} : ∀ {xs : List α},
    (∀ x ∈ xs, Ends (f x) fun _ => True) → Ends (xs.mapM f) fun ys => ys.length = xs.length
  | [], _ => by
      rw [List.mapM_nil]
      exact .pure rfl
  | x :: xs, h => by
      rw [List.mapM_cons]
      refine (h x List.mem_cons_self).bind fun y _ => ?_
      refine (Ends.mapM fun z hz => h z (List.mem_cons_of_mem _ hz)).bind fun ys hys => ?_
      exact .pure (congrArg (· + 1) hys)

theorem Value.Speaks.ends {v : Value S E} (h : v.Speaks) : Ends v.toText fun _ => True :=
  ends_iff.mpr fun s => (h s).imp fun _ ht => ⟨ht, trivial⟩

theorem Value.Says.ends {v : Value S E} {t : Text} (h : v.Says t) : Ends v.toText (· = t) :=
  ends_iff.mpr fun s => ⟨t, h s, rfl⟩

/-! ### Calls that keep the sandbox -/

/-- A call that launches a program of the list. -/
def LaunchesAllowed (list : List (Value S E)) (call : ExecCall) : Prop :=
  ∃ file, call.launched = some file ∧ includesText list file = true

theorem sandboxed_of_ends {list : List (Value S E)} {x : Js S E ExecCall} {p : ExecCall → Prop}
    (h : Ends x p) (hp : ∀ call, p call → Sandboxed list (.ok call)) (s : S) :
    Sandboxed list (runJs x s).1 := by
  obtain ⟨call, s', hrun, hcall⟩ := h s
  rw [hrun]
  exact hp call hcall

theorem sandboxed_of_launchesAllowed {list : List (Value S E)} {call : ExecCall}
    (h : LaunchesAllowed list call) : Sandboxed list (.ok call : Except E ExecCall) := by
  obtain ⟨file, hlaunched, hfile⟩ := h
  obtain ⟨launched, result⟩ := call
  cases hlaunched
  exact hfile

theorem ends_normalizeOptions {opts : List (String × Value S E)} (h : EnvFits opts) :
    Ends (normalizeOptions host opts) fun normalized =>
      normalized.file = (property opts "file").asText ∧
        ∀ env, normalized.env = some env → ∀ entry ∈ env, entry.2.Speaks := by
  unfold normalizeOptions
  have henv : Ends (normalizeEnv (property opts "env"))
      fun found => ∀ env, found = some env → ∀ entry ∈ env, entry.2.Speaks := by
    unfold normalizeEnv
    by_cases hplain : (property opts "env").isPlainObject = true
    · rw [if_pos hplain, map_eq_pure_bind]
      refine (ends_iff.mpr (h hplain)).bind fun env hspeaks => .pure ?_
      rintro _ ⟨⟩
      exact hspeaks
    · rw [if_neg hplain]
      exact .pure fun env hnone => nomatch hnone
  exact henv.bind fun env hspeaks => .pure ⟨rfl, hspeaks⟩

theorem ends_jsOsProcess {command : Text} {rest : List Text} {options : ExecOptions S E}
    (hfew : rest.length < 65535)
    (henv : ∀ env, options.env = some env → ∀ entry ∈ env, entry.2.Speaks) :
    Ends (jsOsProcess host (command :: rest) options) fun process =>
      process.file = cText (options.file.getD command) := by
  have hargc : ¬(command :: rest).length > 65535 := by
    rw [List.length_cons]
    omega
  have hbuild : Ends (options.env.mapM buildEnvp) fun _ => True := by
    cases hfound : options.env with
    | none => exact .pure trivial
    | some env =>
        have hvars : Ends (buildEnvp env) fun vars => vars.length = env.length := by
          refine Ends.mapM fun entry hentry => ?_
          exact (henv env hfound entry hentry).ends.bind fun _ _ => .pure trivial
        rw [Option.mapM_some, map_eq_pure_bind]
        exact hvars.bind fun _ _ => .pure trivial
  unfold jsOsProcess
  simp only [hargc, if_false]
  exact hbuild.bind fun env _ => .pure rfl

theorem ends_execTexts {list : List (Value S E)} {command : Text} {rest : List Text}
    {opts : List (String × Value S E)} (hos : host.hasOs = true) (hfork : host.canFork = true)
    (hfew : rest.length < 65535) (henv : EnvFits opts)
    (hfile : includesText list (programFile command opts) = true) :
    Ends (execTexts host (command :: rest) opts) (LaunchesAllowed list) := by
  unfold execTexts
  simp only [hos, Bool.not_true, Bool.false_eq_true, if_false]
  refine (ends_normalizeOptions henv).bind fun normalized hnormalized => ?_
  have hexec : Ends (jsOsExec host (command :: rest) normalized) fun r =>
      r.1.file = programFile command opts := by
    unfold jsOsExec
    refine (ends_jsOsProcess hfew hnormalized.2).bind fun process hprocess => ?_
    simp only [hfork, Bool.not_true, Bool.false_eq_true, if_false]
    rw [hnormalized.1] at hprocess
    intro s
    exact ⟨_, _, rfl, hprocess⟩
  intro s
  obtain ⟨⟨process, ret⟩, s', hrun, hprocess⟩ := hexec s
  have hlaunch : includesText list process.file = true := hprocess ▸ hfile
  rw [runJs_bind, runJs_attempt, hrun]
  exact ⟨_, s', rfl, process.file, rfl, hlaunch⟩

theorem ends_execHost {list : List (Value S E)} {first : Value S E} {rest : List (Value S E)}
    {t : Text} {options : Value S E} (hfirst : first.Says t) (hos : host.hasOs = true)
    (hfork : host.canFork = true) (hfew : rest.length < 65535) (hrest : ∀ v ∈ rest, v.Speaks)
    (hoptions : OptionsFit list t options) :
    Ends (execHost host (.ofList (first :: rest)) options) (LaunchesAllowed list) := by
  have htexts : Ends ((first :: rest).mapM Value.toText) fun texts =>
      ∃ more, texts = t :: more ∧ more.length = rest.length := by
    rw [List.mapM_cons]
    refine hfirst.ends.bind ?_
    rintro _ rfl
    refine (Ends.mapM fun v hv => (hrest v hv).ends).bind fun more hmore => ?_
    exact .pure ⟨more, rfl, hmore⟩
  unfold execHost
  refine htexts.bind ?_
  rintro _ ⟨more, rfl, hmore⟩
  refine (ends_iff.mpr hoptions).bind fun opts hopts => ?_
  exact ends_execTexts hos hfork (hmore ▸ hfew) hopts.2 hopts.1

/-- The condition is enough, in every state and whatever the code of the values does. -/
theorem KeepsSandbox.sandboxed {list : List (Value S E)} {args : Args S E} {options : Value S E}
    (h : KeepsSandbox host list args options) (s : S) :
    Sandboxed list (runJs (executar host (some list) args options) s).1 := by
  obtain ⟨first, rest, t, hitems, hfirst, hrun⟩ := h
  have hargv : args.argv = pure (.ofList (first :: rest)) := by
    cases args with
    | array items => cases hitems; rfl
    | single value => cases hitems; rfl
    | sliced slice => cases hitems
  have hcall : executar host (some list) args options = (do
      if includesText list (← first.toText) then execHost host (.ofList (first :: rest)) options
      else
        return ⟨none, .erro "comando_bloqueado" "comando nao permitido pela sandbox".toList
          [← first.toText]⟩) := by
    rw [executar, hargv]
    rfl
  rw [hcall]
  -- the text of the first argument is the same at the check and at the launch
  cases hin : includesText list t with
  | true =>
      obtain ⟨hos, hfork, hfew, hrest, hoptions⟩ := hrun hin
      refine sandboxed_of_ends (hfirst.ends.bind ?_) (fun _ => sandboxed_of_launchesAllowed) s
      rintro _ rfl
      rw [if_pos hin]
      exact ends_execHost hfirst hos hfork hfew hrest hoptions
  | false =>
      refine sandboxed_of_ends (p := fun call => call.launched = none ∧ ∃ mensagem info,
        call.result = .erro "comando_bloqueado" mensagem info) (hfirst.ends.bind ?_) ?_ s
      · rintro _ rfl
        rw [if_neg (by simp [hin])]
        exact hfirst.ends.bind fun _ _ => .pure ⟨rfl, _, _, rfl⟩
      · rintro ⟨launched, result⟩ ⟨rfl, mensagem, info, rfl⟩
        rfl

/-! ### Values without code of their own -/

/-- A bind that ends well does so in both of its parts. -/
theorem runJs_bind_ok {x : Js S E α} {f : α → Js S E β} {s s' : S} {b : β} :
    runJs (x >>= f) s = (.ok b, s') ↔
      ∃ a s₁, runJs x s = (.ok a, s₁) ∧ runJs (f a) s₁ = (.ok b, s') := by
  rw [runJs_bind]
  rcases runJs x s with ⟨r, s₁⟩
  cases r with
  | ok a =>
      constructor
      · intro h
        exact ⟨a, s₁, rfl, h⟩
      · rintro ⟨_, _, ⟨⟩, h⟩
        exact h
  | error e =>
      constructor
      · rintro ⟨⟩
      · rintro ⟨_, _, ⟨⟩, -⟩

/-- Code that keeps the sandbox in every end does so after each part that must end well. -/
theorem sandboxed_bind {list : List (Value S E)} {x : Js S E α} {f : α → Js S E ExecCall} {s : S} :
    Sandboxed list (runJs (x >>= f) s).1 ↔
      ∃ a s₁, runJs x s = (.ok a, s₁) ∧ Sandboxed list (runJs (f a) s₁).1 := by
  rw [runJs_bind]
  rcases runJs x s with ⟨r, s₁⟩
  cases r <;> simp [Sandboxed]

theorem normalizeOptions_file {opts : List (String × Value S E)} {normalized : ExecOptions S E}
    {s s' : S} (h : runJs (normalizeOptions host opts) s = (.ok normalized, s')) :
    normalized.file = (property opts "file").asText := by
  unfold normalizeOptions at h
  obtain ⟨env, s₁, -, h⟩ := runJs_bind_ok.mp h
  rw [runJs_pure] at h
  cases h
  rfl

theorem jsOsProcess_file {command : Text} {rest : List Text} {options : ExecOptions S E}
    {process : Process} {s s' : S}
    (h : runJs (jsOsProcess host (command :: rest) options) s = (.ok process, s')) :
    process.file = cText (options.file.getD command) := by
  unfold jsOsProcess at h
  simp only at h
  split at h
  · simp at h
  · obtain ⟨-, s₁, -, h⟩ := runJs_bind_ok.mp h
    obtain ⟨env, s₂, -, h⟩ := runJs_bind_ok.mp h
    rw [runJs_pure] at h
    cases h
    rfl

theorem jsOsExec_ok {argv : List Text} {options : ExecOptions S E} {s s' : S} {r : Process × ℤ}
    (h : runJs (jsOsExec host argv options) s = (.ok r, s')) :
    host.canFork = true ∧ ∃ s₁, runJs (jsOsProcess host argv options) s = (.ok r.1, s₁) := by
  unfold jsOsExec at h
  obtain ⟨process, s₁, hprocess, h⟩ := runJs_bind_ok.mp h
  cases hfork : host.canFork with
  | false => simp [hfork] at h
  | true =>
      simp only [hfork, Bool.not_true, Bool.false_eq_true, if_false] at h
      obtain ⟨ret, s₂, -, h⟩ := runJs_bind_ok.mp h
      rw [runJs_pure] at h
      cases h
      exact ⟨rfl, s₁, hprocess⟩

/-- What a call of `execHost` needs to keep the sandbox. -/
theorem runs_of_sandboxed {list : List (Value S E)} {argv : List Text}
    {opts : List (String × Value S E)} {s : S}
    (h : Sandboxed list (runJs (execTexts host argv opts) s).1) :
    host.hasOs = true ∧ host.canFork = true ∧ ∃ command rest, argv = command :: rest ∧
      rest.length < 65535 ∧ includesText list (programFile command opts) = true := by
  unfold execTexts at h
  by_cases hos : host.hasOs = true
  · simp only [hos, Bool.not_true, Bool.false_eq_true, if_false] at h
    obtain ⟨normalized, s₁, hnorm, h⟩ := sandboxed_bind.mp h
    obtain ⟨r, s₂, hrun, h⟩ := sandboxed_bind.mp h
    -- what os.exec throws is caught and becomes an answer that launches nothing
    rw [runJs_attempt] at hrun
    cases hrun
    rcases hexec : runJs (jsOsExec host argv normalized) s₁ with ⟨e | ⟨process, ret⟩, s₂⟩
    · rw [hexec] at h
      obtain ⟨_, _, _, h⟩ := sandboxed_bind.mp h
      simp [Sandboxed] at h
    · rw [hexec] at h
      obtain ⟨hfork, s₃, hprocess⟩ := jsOsExec_ok hexec
      refine ⟨hos, hfork, ?_⟩
      cases argv with
      | nil => simp [jsOsProcess] at hprocess
      | cons command rest =>
          refine ⟨command, rest, rfl, ?_, ?_⟩
          · by_contra hmany
            have hargc : 65535 < rest.length + 1 := by omega
            simp [jsOsProcess, hargc] at hprocess
          · have hfile : includesText list process.file = true := h
            rw [jsOsProcess_file hprocess, normalizeOptions_file hnorm] at hfile
            exact hfile
  · simp [hos, Sandboxed] at h

theorem Value.Data.toText {v : Value S E} (h : v.Data) : ∃ t, v.toText = pure t := by
  cases h with
  | undefined => exact ⟨_, rfl⟩
  | bool b => exact ⟨_, rfl⟩
  | number shown int32 => exact ⟨_, rfl⟩
  | text t => exact ⟨_, rfl⟩
  | object plain t h => exact ⟨t, rfl⟩

theorem Value.Data.speaks {v : Value S E} (h : v.Data) : v.Speaks := by
  obtain ⟨t, ht⟩ := h.toText
  intro s
  rw [ht]
  exact ⟨t, rfl⟩

theorem Value.Data.assign {v : Value S E} (h : v.Data) :
    ∃ props, v.assign = pure props ∧ ∀ p ∈ props, p.2.Data := by
  cases h with
  | undefined => exact ⟨[], rfl, by simp⟩
  | bool b => exact ⟨[], rfl, by simp⟩
  | number shown int32 => exact ⟨[], rfl, by simp⟩
  | text t => exact ⟨[], rfl, by simp⟩
  | @object plain t props h =>
      cases plain with
      | true => exact ⟨props, rfl, h⟩
      | false => exact ⟨[], rfl, by simp⟩

theorem data_property {opts : List (String × Value S E)} (h : ∀ p ∈ opts, p.2.Data)
    (name : String) : (property opts name).Data := by
  unfold property
  cases hfound : opts.lookup name with
  | none => exact .undefined
  | some v =>
      obtain ⟨pre, post, hopts, -⟩ := List.lookup_eq_some_iff.mp hfound
      exact h (name, v) (hopts ▸ by simp)

theorem envFits_of_data {opts : List (String × Value S E)} (h : ∀ p ∈ opts, p.2.Data) :
    EnvFits opts := by
  intro _ s
  obtain ⟨env, henv, hdata⟩ := (data_property h "env").assign
  exact ⟨env, by rw [henv]; rfl, fun entry hentry => (hdata entry hentry).speaks⟩

theorem mapM_toText_of_data : ∀ {items : List (Value S E)}, (∀ v ∈ items, v.Data) →
    ∃ texts, items.mapM Value.toText = pure texts ∧ texts.length = items.length
  | [], _ => ⟨[], List.mapM_nil, rfl⟩
  | v :: items, h => by
      obtain ⟨t, ht⟩ := (h v List.mem_cons_self).toText
      obtain ⟨texts, htexts, hlen⟩ :=
        mapM_toText_of_data fun w hw => h w (List.mem_cons_of_mem _ hw)
      refine ⟨t :: texts, ?_, congrArg (· + 1) hlen⟩
      rw [List.mapM_cons, ht, htexts]
      rfl

theorem plainItems_of_data {args : Args S E} (h : args.Data) :
    ∃ items, args.plainItems = some items ∧ args.argv = pure (.ofList items) ∧
      ∀ v ∈ items, v.Data := by
  cases h with
  | array h => exact ⟨_, rfl, rfl, h⟩
  | single h => exact ⟨_, rfl, rfl, by simpa using h⟩

theorem runs_of_sandboxed_execHost {list items : List (Value S E)} {options : Value S E}
    (hitems : ∀ v ∈ items, v.Data) (hoptions : options.Data) {s : S}
    (h : Sandboxed list (runJs (execHost host (.ofList items) options) s).1) :
    host.hasOs = true ∧ host.canFork = true ∧ ∃ first rest t, items = first :: rest ∧
      first.toText = pure t ∧ rest.length < 65535 ∧ OptionsFit list t options := by
  obtain ⟨texts, htexts, hlen⟩ := mapM_toText_of_data hitems
  obtain ⟨opts, hopts, hdata⟩ := hoptions.assign
  have hcall : execHost host (.ofList items) options = execTexts host texts opts := by
    rw [execHost, Argv.ofList, htexts, hopts]
    rfl
  rw [hcall] at h
  obtain ⟨hos, hfork, command, more, rfl, hfew, hfile⟩ := runs_of_sandboxed h
  cases items with
  | nil => simp at hlen
  | cons first rest =>
      obtain ⟨t, ht⟩ := (hitems first List.mem_cons_self).toText
      obtain ⟨more', hmore, -⟩ :=
        mapM_toText_of_data fun v hv => hitems v (List.mem_cons_of_mem _ hv)
      have hcons :
          (first :: rest).mapM Value.toText = (pure (t :: more') : Js S E (List Text)) := by
        rw [List.mapM_cons, ht, hmore]
        rfl
      -- data has one text, so the first of the texts is that of the first item
      have htext : command = t := by
        have hrun := congrArg (fun x : Js S E (List Text) => (runJs x s).1)
          (htexts.symm.trans hcons)
        have hlist : command :: more = t :: more' := Except.ok.inj hrun
        exact (List.cons.inj hlist).1
      subst htext
      refine ⟨hos, hfork, first, rest, command, rfl, ht, ?_, fun s => ⟨opts, ?_, hfile, ?_⟩⟩
      · simp only [List.length_cons, Nat.add_right_cancel_iff] at hlen
        omega
      · rw [hopts]
        rfl
      · exact envFits_of_data hdata

end Runs

/-- A host whose programs all end with success. -/
def quietHost : ExecHost Unit Unit where
  dirs := ⟨some "/".toList, "/".toList⟩
  hasOs := true
  typeError _ := ()
  errorText _ := pure []
  canFork := true
  spawn _ := pure 0

/-- `{ file: path }`. -/
def fileOption (path : Text) : Value Unit Unit :=
  .object true (fun s => (.ok "[object Object]".toList, s))
    fun s => (.ok [("file", .text path)], s)

def lsOnly : List (Value Unit Unit) := [.text "ls".toList]

end GatoCore.Stdlib
