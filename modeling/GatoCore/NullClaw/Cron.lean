import GatoCore.Stdlib.Numbers
import GatoCore.Stdlib.Paths

/-!
# Scheduled tasks

Source: `parseDuration`, `nextCronMs`, `cronTaskRecord`, `runCronTask`, `processCronDue`, `cmdCron`,
`loadCron` and `saveCron` of `samples/nullclaw.ptjs`.

Times are in milliseconds. `fl` gives the floating-point number of an exact one. The readings of the
clock and what the agent answers are part of each operation. A state that is saved goes through
JSON, which turns the numbers that are not finite into `null`.
-/

namespace GatoCore.NullClaw

open GatoCore.Stdlib

/-! ## Schedules -/

/-- The white space `trim` takes away. -/
def isJsSpace (c : Char) : Bool :=
  c.toNat ∈ [0x9, 0xA, 0xB, 0xC, 0xD, 0x20, 0xA0, 0x1680, 0x2028, 0x2029, 0x202F, 0x205F, 0x3000,
    0xFEFF] || (0x2000 ≤ c.toNat && c.toNat ≤ 0x200A)

def trim (text : Text) : Text :=
  ((text.dropWhile isJsSpace).reverse.dropWhile isJsSpace).reverse

def digitsValue (digits : Text) : ℕ := digits.foldl (fun n c => 10 * n + (c.toNat - '0'.toNat)) 0

section Arithmetic

variable (fl : ℚ → JsNumber)

def times (n : JsNumber) (factor : ℚ) : JsNumber :=
  match n with
  | .finite q => fl (q * factor)
  | n => n

def plus (nowMs : ℚ) (n : JsNumber) : JsNumber :=
  match n with
  | .finite q => fl (nowMs + q)
  | n => n

/-- Only the letters of ASCII matter to the pattern. -/
def parseDuration (texto : Text) : Option JsNumber :=
  let raw := (trim texto).map Char.toLower
  let digits := raw.takeWhile Char.isDigit
  let n := fl (digitsValue digits)
  if digits = [] then none
  else
    match raw.dropWhile Char.isDigit with
    | ['m', 's'] => some n
    | ['s'] => some (times fl n 1000)
    | ['m'] => some (times fl (times fl n 60) 1000)
    | ['h'] => some (times fl (times fl (times fl n 60) 60) 1000)
    | ['d'] => some (times fl (times fl (times fl (times fl n 24) 60) 60) 1000)
    | _ => none

/-- The time value of `new Date(ms)`, where that is a date. -/
def timeValue (ms : ℚ) : Option ℤ :=
  let t := if 0 ≤ ms then ms.floor else ms.ceil
  if -8640000000000000 ≤ t ∧ t ≤ 8640000000000000 then some t else none

def timeNumber (t : ℤ) : JsNumber :=
  match timeValue t with
  | some t => .finite t
  | none => .nan

/-- The minute of the hour of a time, and the hour after that. -/
def minuteOfHour (t : ℤ) (minute : ℕ) : ℤ := t / 3600000 * 3600000 + minute * 60000

def everyHourTail : Text := " * * * *".toList

/-- The time after `nowMs` at which a schedule is due. -/
def nextCronMs (expression : Text) (nowMs : ℚ) : JsNumber :=
  let raw := trim expression
  match parseDuration fl raw with
  | some duration => plus fl nowMs duration
  | none =>
      if raw = "* * * * *".toList then fl (nowMs + 60000)
      else
        match everyMinutes raw with
        | some every => plus fl nowMs (times fl (times fl (fl every) 60) 1000)
        | none =>
            match atMinute raw with
            | some minute =>
                match timeValue nowMs with
                | none => .nan
                | some t =>
                    let next := timeNumber (minuteOfHour t minute)
                    if next.le nowMs then timeNumber (minuteOfHour t minute + 3600000) else next
            | none =>
                if raw = "0 * * * *".toList then
                  match timeValue nowMs with
                  | none => .nan
                  | some t => timeNumber (minuteOfHour t 0 + 3600000)
                else fl (nowMs + 60000)
where
  /-- `^\*\/\d+ \* \* \* \*$`. -/
  everyMinutes (raw : Text) : Option ℕ :=
    match raw with
    | '*' :: '/' :: rest =>
        let digits := rest.takeWhile Char.isDigit
        if digits ≠ [] ∧ rest.dropWhile Char.isDigit = everyHourTail then some (digitsValue digits)
        else none
    | _ => none
  /-- `^\d{1,2} \* \* \* \*$`. -/
  atMinute (raw : Text) : Option ℕ :=
    let digits := raw.takeWhile Char.isDigit
    if 1 ≤ digits.length ∧ digits.length ≤ 2 ∧ raw.dropWhile Char.isDigit = everyHourTail then
      some (digitsValue digits)
    else none

end Arithmetic

/-! ## Tasks -/

/-- The field `meta` of a task. -/
structure TaskMeta where
  once : Bool
  model : Option Text
  deriving DecidableEq

/-- `nextMs` is `none` where it is `null`; an argument that is not there is `none`. -/
structure CronTask where
  id : Text
  kind : Text
  expression : Option Text
  payload : Option Text
  taskMeta : TaskMeta
  enabled : Bool
  nextMs : Option JsNumber
  createdAtMs : ℚ
  deriving DecidableEq

structure CronRun where
  taskId : Text
  ranAtMs : ℚ
  output : Text
  deriving DecidableEq

structure CronState where
  tasks : List CronTask
  runs : List CronRun
  deriving DecidableEq

def CronTask.persist (t : CronTask) : CronTask :=
  { t with nextMs := t.nextMs.filter JsNumber.isFinite }

/-- What is read of a state that was saved. -/
def CronState.persist (s : CronState) : CronState :=
  { s with tasks := s.tasks.map CronTask.persist }

/-- `String(expression || "")`. -/
def CronTask.schedule (t : CronTask) : Text := t.expression.getD []

/-- `!(!task.enabled || task.next_ms > now)`; `null` counts as `0`. -/
def CronTask.due (t : CronTask) (now : ℚ) : Bool :=
  t.enabled && !(t.nextMs.getD (.finite 0)).gt now

/-! ## Heartbeats -/

/-- What a task finds when it runs: the clock and the answer of the agent. -/
structure TaskReply where
  ranAtMs : ℚ
  answer : Text

/-- The clock at a heartbeat, and what the tasks find in the order of the list. -/
structure Beat where
  now : ℚ
  replies : ℕ → TaskReply

def runCronTask (t : CronTask) (reply : TaskReply) : CronRun :=
  { taskId := t.id
    ranAtMs := reply.ranAtMs
    output :=
      if t.kind = "command".toList then "command: ".toList ++ t.payload.getD "undefined".toList
      else if t.kind = "agent".toList then reply.answer
      else "unsupported task".toList }

section Heartbeat

variable (fl : ℚ → JsNumber)

def CronTask.reschedule (t : CronTask) (now : ℚ) : CronTask :=
  if t.due now then { t with nextMs := some (nextCronMs fl t.schedule now) } else t

/-- The runs of the tasks that are due, from the task with a number on. -/
def dueRuns (beat : Beat) : ℕ → List CronTask → List CronRun
  | _, [] => []
  | i, t :: tasks =>
      (if t.due beat.now then [runCronTask t (beat.replies i)] else []) ++
        dueRuns beat (i + 1) tasks

/-- The state after the tasks that are due, and whether there was one. -/
def processCronDue (s : CronState) (beat : Beat) : CronState × Bool :=
  ({ tasks := s.tasks.map fun t => t.reschedule fl beat.now
     runs := s.runs ++ dueRuns beat 0 s.tasks },
    s.tasks.any fun t => t.due beat.now)

end Heartbeat

/-! ## Commands -/

/-- The readings of the clock and the random number of a command; `idMs` is the text of a
reading. -/
structure CronEnv where
  idMs : Text
  random : ℕ
  nextMs : ℚ
  createdMs : ℚ

/-- `argv[idx + 1]` for the first place of a flag. -/
def valorFlag (argv : List Text) (flag : String) : Option Text :=
  match argv.dropWhile (· ≠ flag.toList) with
  | _ :: value :: _ => some value
  | _ => none

def temFlag (argv : List Text) (flag : String) : Bool := flag.toList ∈ argv

/-- What the arguments of `cron` ask for. -/
inductive CronCommand where
  | list
  | runs
  | add (kind : String) (expression payload : Option Text) (taskMeta : TaskMeta)
  | run (id : Option Text)
  | setEnabled (id : Option Text) (enabled : Bool)
  | remove (id : Option Text)
  | update (id : Option Text) (argv : List Text)
  | unsupported (sub : Text)

def cronCommand (argv : List Text) : CronCommand :=
  let sub := argv.headD "list".toList
  let model := valorFlag argv "--model"
  if sub = "list".toList ∨ sub = [] then .list
  else if sub = "runs".toList then .runs
  else if sub = "add".toList then .add "command" argv[1]? argv[2]? ⟨false, none⟩
  else if sub = "add-agent".toList then .add "agent" argv[1]? argv[2]? ⟨false, model⟩
  else if sub = "once".toList then .add "command" argv[1]? argv[2]? ⟨true, none⟩
  else if sub = "once-agent".toList then .add "agent" argv[1]? argv[2]? ⟨true, model⟩
  else if sub = "run".toList then .run argv[1]?
  else if sub = "pause".toList then .setEnabled argv[1]? false
  else if sub = "resume".toList then .setEnabled argv[1]? true
  else if sub = "remove".toList then .remove argv[1]?
  else if sub = "update".toList then .update argv[1]? argv
  else .unsupported sub

section Commands

variable (fl : ℚ → JsNumber)

def cronTaskRecord (kind : String) (expression payload : Option Text) (taskMeta : TaskMeta)
    (env : CronEnv) : CronTask :=
  { id := "cron-".toList ++ env.idMs ++ '-' :: (toString env.random).toList
    kind := kind.toList
    expression := expression
    payload := payload
    taskMeta := taskMeta
    enabled := true
    nextMs := some (nextCronMs fl (expression.getD []) env.nextMs)
    createdAtMs := env.createdMs }

/-- The task that `update` makes of one. -/
def CronTask.update (t : CronTask) (argv : List Text) (env : CronEnv) : CronTask :=
  let expression := (valorFlag argv "--expression").or t.expression
  let flag := if t.kind = "agent".toList then "--prompt" else "--command"
  { t with
    expression := expression
    payload := (valorFlag argv flag).or t.payload
    nextMs := some (nextCronMs fl (expression.getD []) env.nextMs)
    enabled := (t.enabled || temFlag argv "--enable") && !temFlag argv "--disable" }

/-- The state a command saves, where it saves one. -/
def CronCommand.apply (env : CronEnv) (s : CronState) : CronCommand → Option CronState
  | .add kind expression payload taskMeta =>
      some { s with tasks := s.tasks ++ [cronTaskRecord fl kind expression payload taskMeta env] }
  | .setEnabled id enabled =>
      some { s with
        tasks := s.tasks.map fun t => if id = some t.id then { t with enabled := enabled } else t }
  | .remove id => some { s with tasks := s.tasks.filter fun t => id ≠ some t.id }
  | .update id argv =>
      some { s with
        tasks := s.tasks.map fun t => if id = some t.id then t.update fl argv env else t }
  | _ => none

/-- The file after a command. -/
def cmdCron (argv : List Text) (env : CronEnv) (file : CronState) : CronState :=
  match (cronCommand argv).apply fl env file with
  | some s => s.persist
  | none => file

end Commands

end GatoCore.NullClaw
