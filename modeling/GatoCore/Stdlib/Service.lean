import GatoCore.Lib.Lists
import GatoCore.Lib.Machine
import GatoCore.Stdlib.Values

/-!
# Services

Source: `createService`, `execHost`, `waitPidHost` and `killHost` of `stdlib/ptstdlib.js`, and
`js_os_waitpid` of `quickjs-libc.c`.

A service starts a process, asks for its end and signals it. What the system answers is part of the
operation: `fork` gives a positive number to the parent, and `waitpid` of one process fails, gives
that process, or, when it does not wait, zero.
-/

namespace GatoCore.Stdlib

open GatoCore.Lib

/-! ## The system -/

abbrev Pid := {p : ℤ // 0 < p}

/-- What comes of `os.exec`. -/
inductive ExecReply where
  | ausente
  | falhou (err : Text)
  | started (pid : Pid)

/-- What comes of `os.waitpid`; only a call with `WNOHANG` comes back while the process runs, and
leaves the status as it was. -/
inductive WaitReply : Bool → Type where
  | ausente {nohang : Bool} : WaitReply nohang
  | falhou {nohang : Bool} (errno : ℕ) : WaitReply nohang
  | concluido {nohang : Bool} (status : ℤ) : WaitReply nohang
  | emExecucao (status : ℤ) : WaitReply true

/-- The array `os.waitpid` returns, if there is a module `os`. -/
def WaitReply.ret (pid : Pid) : {nohang : Bool} → WaitReply nohang → Option (ℤ × ℤ)
  | _, .ausente => none
  | _, .falhou errno => some (-(errno + 1), 0)
  | _, .concluido status => some (pid, status)
  | _, .emExecucao status => some (0, status)

variable {F R : Type}

/-- A call that reaches the system; `exec` is one that launches a process. -/
inductive HostCall (F R : Type) where
  | exec (argv : List Text) (cwd : Option Text) (env : Option (List (String × JsValue F R)))
      (pid : Pid)
  | waitpid (pid : Pid) (nohang : Bool) (ret : ℤ)
  | kill (pid : Pid) (sig : ℤ)

/-- The calls made and the result. -/
abbrev ServiceAnswer (F R : Type) :=
  List (HostCall F R) × CallResult F R (List (String × JsValue F R))

def semOs : CallResult F R (List (String × JsValue F R)) :=
  .erro "host_os_ausente" "modulo os nao disponivel".toList []

/-- The value of `waitPidHost`. -/
structure Waited where
  pid : ℤ
  status : ℤ
  concluido : Bool
  ativo : Bool

def Waited.fields (w : Waited) : List (String × JsValue F R) :=
  [("pid", .int w.pid), ("status", .int w.status), ("concluido", .bool w.concluido),
    ("ativo", .bool w.ativo)]

def waitPidHost (pid : Pid) : Option (ℤ × ℤ) → CallResult F R Waited
  | none => .erro "host_os_ausente" "modulo os nao disponivel".toList []
  | some (ret, status) =>
      if ret < 0 then
        .erro "waitpid_falhou" "nao foi possivel aguardar processo".toList
          [("pid", .int pid), ("errno", .int ret)]
      else .ok { pid := ret, status, concluido := ret = pid, ativo := ret = 0 }

/-- The call `waitPidHost` makes. -/
def waitCalls (pid : Pid) (nohang : Bool) : Option (ℤ × ℤ) → List (HostCall F R)
  | none => []
  | some (ret, _) => [.waitpid pid nohang ret]

def SIGTERM : ℤ := 15

/-- `ret` is what `os.kill` returns, if there is a module `os`. -/
def killHost (pid : Pid) (signalNumber : Option ℤ) (ret : Option ℤ) : ServiceAnswer F R :=
  let sig := (signalNumber.filter (· ≠ 0)).getD SIGTERM
  match ret with
  | none => ([], semOs)
  | some ret =>
      ([.kill pid sig],
        if ret < 0 then
          .erro "kill_falhou" "nao foi possivel sinalizar processo".toList
            [("pid", .int pid), ("signal", .int sig), ("errno", .int ret)]
        else .ok [("pid", .int pid), ("signal", .int sig)])

/-! ## The service -/

structure Service (F R : Type) where
  nome : JsValue F R
  comando : List (JsValue F R)
  cwd : JsValue F R
  env : Option (List (String × JsValue F R))
  pid : Option Pid
  ativo : Bool
  ultimo_status : Option ℤ

section Methods

variable (conv : Conversions F R) (dirs : HostDirs)

def createService (config : JsValue F R) : Service F R :=
  let cfg : JsValue F R := .object true (if config.isPlainObject then config.properties else [])
  { nome := (cfg.property "nome").or (.text "servico".toList)
    comando := match cfg.property "comando" with
      | .array items => items
      | _ => []
    cwd := if (cfg.property "cwd").truthy then resolveHostValue dirs (cfg.property "cwd") else .null
    env := if (cfg.property "env").isPlainObject then some (cfg.property "env").properties else none
    pid := none, ativo := false, ultimo_status := none }

/-- `execHost(this.comando, {block: false, cwd: this.cwd, env: this.env})`. -/
def Service.exec (s : Service F R) (reply : ExecReply) : ServiceAnswer F R :=
  let argv := s.comando.map conv.string
  let cwd := s.cwd.asText.map (resolveHostPath dirs)
  match reply with
  | .ausente => ([], semOs)
  | .falhou err => ([], .erro "exec_falhou" err [("argv", .array (argv.map .text))])
  | .started pid =>
      ([.exec argv cwd s.env pid],
        .ok [("argv", .array (argv.map .text)), ("cwd", .ofText (cwd.filter (· ≠ []))),
          ("pid", .int pid), ("ativo", .bool true)])

def Service.iniciar (s : Service F R) (reply : ExecReply) : Service F R × ServiceAnswer F R :=
  if s.comando = [] then
    (s, [], .erro "comando_ausente" "servico precisa de comando".toList [])
  else
    match s.ativo, s.pid with
    | true, some pid => (s, [], .ok [("pid", .int pid), ("ativo", .bool true)])
    | _, _ =>
        match reply with
        | .started pid =>
            ({ s with pid := some pid, ativo := true, ultimo_status := none },
              s.exec conv dirs reply)
        | _ => (s, s.exec conv dirs reply)

/-- The value `status` returns. -/
def Service.report (s : Service F R) : List (String × JsValue F R) :=
  [("nome", s.nome), ("ativo", .bool s.ativo), ("pid", s.pid.elim .null fun pid => .int pid),
    ("status", s.ultimo_status.elim .null .int)]

def Service.status (s : Service F R) (reply : WaitReply true) : Service F R × ServiceAnswer F R :=
  match s.pid with
  | none => (s, [], .ok { s with ativo := false }.report)
  | some pid =>
      let res : CallResult F R Waited := waitPidHost pid (reply.ret pid)
      let next := match res with
        | .ok valor =>
            if valor.concluido then { s with ativo := false, ultimo_status := some valor.status }
            else if valor.ativo then { s with ativo := true }
            else s
        | .erro .. => s
      (next, waitCalls pid true (reply.ret pid), .ok next.report)

def Service.aguardar (s : Service F R) (reply : WaitReply false) :
    Service F R × ServiceAnswer F R :=
  match s.pid with
  | none => (s, [], .erro "pid_ausente" "servico nao foi iniciado".toList [])
  | some pid =>
      match (waitPidHost pid (reply.ret pid) : CallResult F R Waited) with
      | .ok valor =>
          ({ s with ativo := false, ultimo_status := some valor.status },
            waitCalls pid false (reply.ret pid), .ok valor.fields)
      | .erro codigo mensagem info =>
          (s, waitCalls pid false (reply.ret pid), .erro codigo mensagem info)

def Service.parar (s : Service F R) (signalNumber : Option ℤ) (ret : Option ℤ) :
    Service F R × ServiceAnswer F R :=
  match s.pid with
  | none => (s, [], .ok [("ativo", .bool false), ("pid", .null)])
  | some pid => (s, killHost pid signalNumber ret)

inductive ServiceOp where
  | iniciar (reply : ExecReply)
  | status (reply : WaitReply true)
  | aguardar (reply : WaitReply false)
  | parar (signalNumber : Option ℤ) (ret : Option ℤ)

def serviceStep : Machine (Service F R) ServiceOp (ServiceAnswer F R)
  | s, .iniciar reply => s.iniciar conv dirs reply
  | s, .status reply => s.status reply
  | s, .aguardar reply => s.aguardar reply
  | s, .parar signalNumber ret => s.parar signalNumber ret

/-- The service after some operations. -/
def serviceAfter (config : JsValue F R) (ops : List ServiceOp) : Service F R :=
  ((serviceStep conv dirs).run (createService dirs config) ops).1

/-- The calls that reach the system during some operations. -/
def callsOf (s : Service F R) (ops : List ServiceOp) : List (HostCall F R) :=
  ((serviceStep conv dirs).run s ops).2.flatMap Prod.fst

/-! ## What the calls must be -/

/-- The child: the process last launched, until `waitpid` gives it. -/
def childAfter (child : Option Pid) : HostCall F R → Option Pid
  | .exec _ _ _ pid => some pid
  | .waitpid pid _ ret => if ret = pid ∧ child = some pid then none else child
  | .kill _ _ => child

/-- Only the child is signalled, and nothing is launched while there is one. -/
def HostCall.Allowed (child : Option Pid) : HostCall F R → Prop
  | .exec _ _ _ _ => child = none
  | .waitpid _ _ _ => True
  | .kill pid _ => child = some pid

/-- Every call is allowed where it is made. -/
def Disciplined (child : Option Pid) (calls : List (HostCall F R)) : Prop :=
  ∀ pre call post, calls = pre ++ call :: post → call.Allowed (pre.foldl childAfter child)

/-- `parar` is called, with a module `os`, only while no end of the process has been noted. -/
def StopsUnfinished (config : JsValue F R) (ops : List ServiceOp) : Prop :=
  ∀ pre signalNumber ret post, ops = pre ++ .parar signalNumber (some ret) :: post →
    (serviceAfter conv dirs config pre).pid = none ∨
      (serviceAfter conv dirs config pre).ultimo_status = none

end Methods

/-! ## One operation -/

section Steps

/-- The child, as the service knows it. -/
def Service.child (s : Service F R) : Option Pid :=
  if s.ultimo_status = none then s.pid else none

/-- A service with a child is active. -/
def Service.Tracked (s : Service F R) : Prop := s.child ≠ none → s.ativo = true

/-- What is asked of one operation. -/
def ServiceOp.StopsChild (s : Service F R) : ServiceOp → Prop
  | .parar _ (some _) => s.pid = none ∨ s.ultimo_status = none
  | _ => True

/-- An operation calls what it may, exactly when it does not stop a process that has ended, and the
service knows its child afterwards. -/
structure StepFacts (s : Service F R) (op : ServiceOp) (next : Service F R × ServiceAnswer F R) :
    Prop where
  tracked : next.1.Tracked
  child : next.2.1.foldl childAfter s.child = next.1.child
  allowed : Disciplined s.child next.2.1 ↔ op.StopsChild s

@[simp] theorem disciplined_nil (child : Option Pid) :
    Disciplined child ([] : List (HostCall F R)) := forall_split_nil

@[simp] theorem disciplined_singleton (child : Option Pid) (call : HostCall F R) :
    Disciplined child [call] ↔ call.Allowed child := by
  unfold Disciplined
  rw [forall_split_cons]
  exact and_iff_left forall_split_nil

theorem disciplined_append (child : Option Pid) (xs ys : List (HostCall F R)) :
    Disciplined child (xs ++ ys) ↔
      Disciplined child xs ∧ Disciplined (xs.foldl childAfter child) ys := by
  unfold Disciplined
  rw [forall_split_append]
  simp only [List.foldl_append]

theorem Service.child_eq_some {s : Service F R} {pid : Pid} :
    s.child = some pid ↔ s.pid = some pid ∧ s.ultimo_status = none := by
  unfold child
  split <;> simp_all

/-- Nothing was called and the child is the same. -/
theorem StepFacts.of_no_call {s next : Service F R} {op : ServiceOp}
    {res : CallResult F R (List (String × JsValue F R))} (htracked : next.Tracked)
    (hchild : s.child = next.child) (hop : op.StopsChild s) :
    StepFacts s op (next, [], res) := by
  refine ⟨htracked, hchild, ?_⟩
  simp [hop]

theorem iniciar_facts (conv : Conversions F R) (dirs : HostDirs) {s : Service F R}
    (hs : s.Tracked) (reply : ExecReply) :
    StepFacts s (.iniciar reply) (s.iniciar conv dirs reply) := by
  unfold Service.iniciar
  split
  · exact StepFacts.of_no_call hs rfl trivial
  · split
    · exact StepFacts.of_no_call hs rfl trivial
    · case h_2 hidle =>
      cases reply with
      | ausente => exact StepFacts.of_no_call hs rfl trivial
      | falhou err => exact StepFacts.of_no_call hs rfl trivial
      | started pid =>
          have hnone : s.child = none := by
            cases hchild : s.child with
            | none => rfl
            | some p =>
                have hativo : s.ativo = true := hs (by rw [hchild]; simp)
                exact (hidle p hativo (Service.child_eq_some.mp hchild).1).elim
          constructor
          · intro _
            rfl
          · simp [Service.exec, childAfter, Service.child]
          · simp [Service.exec, HostCall.Allowed, hnone, ServiceOp.StopsChild]

/-- `waitpid` was called. -/
theorem StepFacts.of_wait {s next : Service F R} {op : ServiceOp} {pid : Pid} {nohang : Bool}
    {ret : ℤ} {res : CallResult F R (List (String × JsValue F R))} (htracked : next.Tracked)
    (hchild : childAfter s.child (.waitpid pid nohang ret : HostCall F R) = next.child)
    (hop : op.StopsChild s) : StepFacts s op (next, [.waitpid pid nohang ret], res) := by
  refine ⟨htracked, hchild, ?_⟩
  simp [hop, HostCall.Allowed]

/-- After an end is noted there is no child. -/
theorem childAfter_concluido {s : Service F R} {pid : Pid} (hpid : s.pid = some pid)
    (nohang : Bool) : childAfter s.child (.waitpid pid nohang pid : HostCall F R) = none := by
  simp [childAfter, Service.child, hpid]

theorem childAfter_other (child : Option Pid) {pid : Pid} {ret : ℤ} (hret : ret ≠ pid)
    (nohang : Bool) : childAfter child (.waitpid pid nohang ret : HostCall F R) = child := by
  simp [childAfter, hret]

theorem tracked_of_noted {s : Service F R} (status : ℤ) :
    ({ s with ativo := false, ultimo_status := some status } : Service F R).Tracked := by
  intro h
  exact (h rfl).elim

theorem status_facts {s : Service F R} (hs : s.Tracked) (reply : WaitReply true) :
    StepFacts s (.status reply) (s.status reply) := by
  unfold Service.status
  split
  · exact StepFacts.of_no_call hs rfl trivial
  · case h_2 pid hpid =>
    have hpos : (0 : ℤ) < pid := pid.2
    cases reply with
    | ausente => exact StepFacts.of_no_call hs rfl trivial
    | falhou errno =>
        have hneg : -((errno : ℤ) + 1) < 0 := by omega
        simp only [WaitReply.ret, waitPidHost, hneg, if_true, waitCalls]
        exact StepFacts.of_wait hs (childAfter_other _ (by omega) _) trivial
    | concluido status =>
        have hnonneg : ¬ (pid : ℤ) < 0 := by omega
        simp only [WaitReply.ret, waitPidHost, hnonneg, if_false, waitCalls, decide_true, if_true]
        exact StepFacts.of_wait (tracked_of_noted status) (childAfter_concluido hpid _) trivial
    | emExecucao status =>
        have hne : (0 : ℤ) ≠ pid := by omega
        simp only [WaitReply.ret, waitPidHost, waitCalls, hne, decide_false, decide_true]
        exact StepFacts.of_wait (fun _ => rfl) (childAfter_other _ hne _) trivial

theorem aguardar_facts {s : Service F R} (hs : s.Tracked) (reply : WaitReply false) :
    StepFacts s (.aguardar reply) (s.aguardar reply) := by
  unfold Service.aguardar
  split
  · exact StepFacts.of_no_call hs rfl trivial
  · case h_2 pid hpid =>
    have hpos : (0 : ℤ) < pid := pid.2
    cases reply with
    | ausente => exact StepFacts.of_no_call hs rfl trivial
    | falhou errno =>
        have hneg : -((errno : ℤ) + 1) < 0 := by omega
        simp only [WaitReply.ret, waitPidHost, hneg, if_true, waitCalls]
        exact StepFacts.of_wait hs (childAfter_other _ (by omega) _) trivial
    | concluido status =>
        have hnonneg : ¬ (pid : ℤ) < 0 := by omega
        simp only [WaitReply.ret, waitPidHost, hnonneg, if_false, waitCalls]
        exact StepFacts.of_wait (tracked_of_noted status) (childAfter_concluido hpid _) trivial

theorem parar_facts {s : Service F R} (hs : s.Tracked) (signalNumber ret : Option ℤ) :
    StepFacts s (.parar signalNumber ret) (s.parar signalNumber ret) := by
  unfold Service.parar
  split
  · case h_1 hpid =>
    refine StepFacts.of_no_call hs rfl ?_
    cases ret with
    | none => trivial
    | some ret => exact Or.inl hpid
  · case h_2 pid hpid =>
    cases ret with
    | none => exact StepFacts.of_no_call hs rfl trivial
    | some ret =>
        refine ⟨hs, rfl, ?_⟩
        simp only [killHost, disciplined_singleton, HostCall.Allowed, Service.child_eq_some,
          ServiceOp.StopsChild, hpid, true_and, reduceCtorEq, false_or]

theorem serviceStep_facts (conv : Conversions F R) (dirs : HostDirs) {s : Service F R}
    (hs : s.Tracked) (op : ServiceOp) : StepFacts s op (serviceStep conv dirs s op) := by
  cases op with
  | iniciar reply => exact iniciar_facts conv dirs hs reply
  | status reply => exact status_facts hs reply
  | aguardar reply => exact aguardar_facts hs reply
  | parar signalNumber ret => exact parar_facts hs signalNumber ret

end Steps

/-! ## Whole runs -/

section Runs

variable (conv : Conversions F R) (dirs : HostDirs)

theorem createService_tracked (config : JsValue F R) :
    (createService dirs config).Tracked := by
  intro h
  exact (h rfl).elim

@[simp] theorem callsOf_nil (s : Service F R) : callsOf conv dirs s [] = [] := rfl

theorem callsOf_cons (s : Service F R) (op : ServiceOp) (ops : List ServiceOp) :
    callsOf conv dirs s (op :: ops) =
      (serviceStep conv dirs s op).2.1 ++ callsOf conv dirs (serviceStep conv dirs s op).1 ops :=
  rfl

/-- Induction on the operations; the service knows its child before each. -/
theorem disciplined_callsOf_iff {s : Service F R} (hs : s.Tracked) (ops : List ServiceOp) :
    Disciplined s.child (callsOf conv dirs s ops) ↔
      ∀ pre op post, ops = pre ++ op :: post →
        op.StopsChild ((serviceStep conv dirs).run s pre).1 := by
  induction ops generalizing s with
  | nil => simp
  | cons op ops ih =>
      have hop := serviceStep_facts conv dirs hs op
      rw [callsOf_cons, disciplined_append, hop.allowed, hop.child, ih hop.tracked,
        forall_split_cons]
      rfl

theorem stopsUnfinished_iff (config : JsValue F R) (ops : List ServiceOp) :
    StopsUnfinished conv dirs config ops ↔
      ∀ pre op post, ops = pre ++ op :: post →
        op.StopsChild (serviceAfter conv dirs config pre) := by
  constructor
  · intro h pre op post hops
    match op with
    | .parar signalNumber (some ret) => exact h pre signalNumber ret post hops
    | .parar _ none => trivial
    | .iniciar _ => trivial
    | .status _ => trivial
    | .aguardar _ => trivial
  · intro h pre signalNumber ret post hops
    exact h pre _ post hops

/-- A service signals nothing but its child and launches nothing beside it, exactly when `parar` is
never called after the end of the process was noted and before the next launch. -/
theorem service_disciplined_iff (config : JsValue F R) (ops : List ServiceOp) :
    Disciplined none (callsOf conv dirs (createService dirs config) ops) ↔
      StopsUnfinished conv dirs config ops := by
  rw [stopsUnfinished_iff]
  exact disciplined_callsOf_iff conv dirs (createService_tracked dirs config) ops

end Runs

/-- A service that runs `sleep`. -/
def sleepService : JsValue Unit Unit := .object true [("comando", .array [.text "sleep".toList])]

/-- The process 42 is launched, waited for until it ends, and then signalled. -/
def stoppedAfterEnd : List ServiceOp :=
  [.iniciar (.started ⟨42, by decide⟩), .aguardar (.concluido 0), .parar none (some 0)]

theorem stoppedAfterEnd_not_disciplined :
    ¬ Disciplined none (callsOf noConversions ⟨none, []⟩
      (createService ⟨none, []⟩ sleepService) stoppedAfterEnd) := by
  intro h
  have hkill := h [.exec ["sleep".toList] none none ⟨42, by decide⟩,
    .waitpid ⟨42, by decide⟩ false 42] (.kill ⟨42, by decide⟩ 15) [] rfl
  simp [HostCall.Allowed, childAfter] at hkill

end GatoCore.Stdlib
