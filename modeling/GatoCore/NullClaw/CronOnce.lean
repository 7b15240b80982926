import GatoCore.NullClaw.Cron
import Mathlib.Data.List.Basic
import Mathlib.Data.List.Nodup
import Mathlib.Tactic.Linarith
import Mathlib.Tactic.NormNum
import Mathlib.Tactic.Positivity

/-!
# Tasks that are to run once

A task that was run is given a next time like every other, whether it was added with `once` or not.
So it runs once as long as no heartbeat comes at that time or later.
-/

namespace GatoCore.NullClaw

open GatoCore.Stdlib

variable (fl : ℚ → JsNumber)

/-! ## Heartbeats -/

/-- A heartbeat: a state in which a task ran is saved, and what is saved is loaded. -/
def heartbeat (s : CronState) (beat : Beat) : CronState :=
  let processed := processCronDue fl s beat
  if processed.2 then processed.1.persist else s

def heartbeats (s : CronState) (beats : List Beat) : CronState := beats.foldl (heartbeat fl) s

/-- The runs of a task. -/
def runsOf (id : Text) (s : CronState) : ℕ := s.runs.countP fun run => run.taskId = id

/-- When a task that ran at a time is due again, as it is read back. -/
def CronTask.dueAgain (t : CronTask) (now : ℚ) : JsNumber :=
  ((some (nextCronMs fl t.schedule now)).filter JsNumber.isFinite).getD (.finite 0)

/-- From the first heartbeat on at which a task is due, none comes when it is due again. -/
def Quiet (t : CronTask) : List ℚ → Prop
  | [] => True
  | now :: times =>
      if t.due now then ∀ later ∈ times, (t.dueAgain fl now).gt later = true else Quiet t times

/-! ## One task -/

variable {fl}

@[simp] theorem persist_persist (t : CronTask) : t.persist.persist = t.persist := by
  simp only [CronTask.persist, Option.filter_filter, Bool.and_self]

@[simp] theorem persist_id (t : CronTask) : t.persist.id = t.id := rfl

@[simp] theorem runCronTask_taskId (t : CronTask) (reply : TaskReply) :
    (runCronTask t reply).taskId = t.id := rfl

@[simp] theorem reschedule_id (t : CronTask) (now : ℚ) : (t.reschedule fl now).id = t.id := by
  rw [CronTask.reschedule]
  split <;> rfl

theorem reschedule_of_not_due {t : CronTask} {now : ℚ} (h : t.due now = false) :
    t.reschedule fl now = t := if_neg (by simp [h])

theorem CronState.persist_persist (s : CronState) : s.persist.persist = s.persist := by
  simp [CronState.persist, Function.comp_def]

/-- How often a task runs. -/
def firings (fl : ℚ → JsNumber) : CronTask → List ℚ → ℕ
  | _, [] => 0
  | t, now :: times =>
      (if t.due now then 1 else 0) + firings fl (t.reschedule fl now).persist times

theorem firings_eq_zero_iff {t : CronTask} (ht : t.persist = t) (times : List ℚ) :
    firings fl t times = 0 ↔ ∀ later ∈ times, t.due later = false := by
  induction times with
  | nil => simp [firings]
  | cons now times ih =>
      rw [firings, List.forall_mem_cons]
      cases hdue : t.due now with
      | true => simp
      | false =>
          rw [reschedule_of_not_due hdue, ht]
          simpa using ih

/-- A task runs at most once exactly when it is not due again. -/
theorem firings_le_one_iff {t : CronTask} (ht : t.persist = t) (times : List ℚ) :
    firings fl t times ≤ 1 ↔ Quiet fl t times := by
  induction times with
  | nil => simp [firings, Quiet]
  | cons now times ih =>
      rw [firings, Quiet]
      cases hdue : t.due now with
      | false =>
          rw [reschedule_of_not_due hdue, ht]
          simpa using ih
      | true =>
          have henabled : t.enabled = true := by
            rw [CronTask.due, Bool.and_eq_true] at hdue
            exact hdue.1
          have hlater : ∀ later, ((t.reschedule fl now).persist).due later =
              !(t.dueAgain fl now).gt later := by
            intro later
            rw [CronTask.reschedule, if_pos hdue]
            simp [CronTask.due, CronTask.persist, CronTask.dueAgain, henabled]
          have hzero : firings fl (t.reschedule fl now).persist times = 0 ↔ _ :=
            firings_eq_zero_iff (persist_persist (t.reschedule fl now)) times
          simp only [hlater, Bool.not_eq_false'] at hzero
          rw [if_pos rfl, if_pos rfl, ← hzero]
          omega

/-! ## Kinds of schedules -/

/-- A time after every run, or a minute of the hour. -/
inductive ScheduleKind where
  | every (ms : JsNumber)
  | atMinute (minute : ℕ)

/-- What a schedule says; one that cannot be read says every minute. -/
def scheduleKind (fl : ℚ → JsNumber) (expression : Text) : ScheduleKind :=
  let raw := trim expression
  match parseDuration fl raw, nextCronMs.everyMinutes raw, nextCronMs.atMinute raw with
  | some duration, _, _ => .every duration
  | none, some minutes, _ => .every (times fl (times fl (fl minutes) 60) 1000)
  | none, none, some minute => .atMinute minute
  | none, none, none => .every (.finite 60000)

theorem everyMinutes_everyMinute : nextCronMs.everyMinutes "* * * * *".toList = none := by decide

theorem atMinute_everyMinute : nextCronMs.atMinute "* * * * *".toList = none := by decide

theorem atMinute_everyHour : nextCronMs.atMinute "0 * * * *".toList = some 0 := by decide

theorem nextCronMs_every {expression : Text} {ms : JsNumber}
    (h : scheduleKind fl expression = .every ms) (now : ℚ) :
    nextCronMs fl expression now = plus fl now ms := by
  rw [scheduleKind] at h
  rw [nextCronMs]
  cases hduration : parseDuration fl (trim expression) with
  | some duration =>
      rw [hduration] at h
      cases h
      rfl
  | none =>
      cases hminutes : nextCronMs.everyMinutes (trim expression) with
      | some minutes =>
          rw [hduration, hminutes] at h
          cases h
          have hstar : trim expression ≠ "* * * * *".toList := by
            intro heq
            rw [heq, everyMinutes_everyMinute] at hminutes
            cases hminutes
          simp only [if_neg hstar]
      | none =>
          cases hminute : nextCronMs.atMinute (trim expression) with
          | some minute =>
              rw [hduration, hminutes, hminute] at h
              cases h
          | none =>
              rw [hduration, hminutes, hminute] at h
              cases h
              have hzero : trim expression ≠ "0 * * * *".toList := by
                intro heq
                rw [heq, atMinute_everyHour] at hminute
                cases hminute
              simp only [if_neg hzero, ite_self]
              rfl

theorem timeValue_eq {ms : ℚ} (hlow : -8640000000000000 ≤ ms) (hhigh : ms ≤ 8640000000000000) :
    ∃ t : ℤ, timeValue ms = some t ∧ -8640000000000000 ≤ t ∧ (t : ℚ) < ms + 1 ∧ ms < t + 1 := by
  rw [timeValue]
  by_cases hms : 0 ≤ ms
  · have hpos : 0 ≤ ms.floor := Rat.le_floor_iff.mpr (by exact_mod_cast hms)
    have htop : ms.floor ≤ 8640000000000000 := by
      have hle := (Rat.floor_le ms).trans hhigh
      exact_mod_cast hle
    simp only [if_pos hms]
    exact ⟨ms.floor, if_pos ⟨by omega, htop⟩, by omega,
      (Rat.floor_le ms).trans_lt (lt_add_one ms), by exact_mod_cast Rat.lt_floor_add_one ms⟩
  · have hneg : ms.ceil ≤ 0 := Rat.ceil_le_iff.mpr (by exact_mod_cast (not_le.mp hms).le)
    have hbottom : -8640000000000000 ≤ ms.ceil := by
      have hge := hlow.trans Rat.le_ceil
      exact_mod_cast hge
    simp only [if_neg hms]
    exact ⟨ms.ceil, if_pos ⟨hbottom, by omega⟩, hbottom, Rat.ceil_lt,
      Rat.le_ceil.trans_lt (lt_add_one _)⟩

theorem timeNumber_eq {t : ℤ} (hlow : -8640000000000000 ≤ t) (hhigh : t ≤ 8640000000000000) :
    timeNumber t = .finite t := by
  have hvalue : timeValue t = some t := by
    rw [timeValue, Rat.floor_intCast, Rat.ceil_intCast, ite_self]
    exact if_pos ⟨hlow, hhigh⟩
  rw [timeNumber, hvalue]

/-- A schedule at a minute is neither a duration nor a number of minutes. -/
theorem matches_of_atMinute {expression : Text} {minute : ℕ}
    (h : scheduleKind fl expression = .atMinute minute) :
    parseDuration fl (trim expression) = none ∧
      nextCronMs.everyMinutes (trim expression) = none ∧
      nextCronMs.atMinute (trim expression) = some minute := by
  rw [scheduleKind] at h
  rcases hduration : parseDuration fl (trim expression) with _ | duration
  · rcases hminutes : nextCronMs.everyMinutes (trim expression) with _ | minutes
    · rcases hminute : nextCronMs.atMinute (trim expression) with _ | found
      · rw [hduration, hminutes, hminute] at h
        cases h
      · rw [hduration, hminutes, hminute] at h
        cases h
        exact ⟨rfl, rfl, rfl⟩
    · rw [hduration, hminutes] at h
      cases h
  · rw [hduration] at h
    cases h

/-- Where the minute of the hour of a time lies. -/
theorem minuteOfHour_bounds {t : ℤ} (ht : -8640000000000000 ≤ t) (minute : ℕ) :
    (minuteOfHour t minute : ℚ) ≤ t + minute * 60000 ∧
      (t : ℚ) + 1 ≤ minuteOfHour t minute - minute * 60000 + 3600000 ∧
      -8640000000000000 ≤ minuteOfHour t minute ∧
      minuteOfHour t minute % 3600000 = minute % 60 * 60000 := by
  have hbounds : minuteOfHour t minute ≤ t + minute * 60000 ∧
      t + 1 ≤ minuteOfHour t minute - minute * 60000 + 3600000 ∧
      -8640000000000000 ≤ minuteOfHour t minute ∧
      minuteOfHour t minute % 3600000 = minute % 60 * 60000 := by
    rw [minuteOfHour]
    omega
  obtain ⟨hfrom, hto, hlowest, hmod⟩ := hbounds
  exact ⟨by exact_mod_cast hfrom, by exact_mod_cast hto, hlowest, hmod⟩

/-- The next time at a minute of the hour: it is after `now`, and within the hour when the minute
is one of an hour. -/
theorem nextCronMs_atMinute {expression : Text} {minute : ℕ}
    (h : scheduleKind fl expression = .atMinute minute) {now : ℚ}
    (hlow : -8640000000000000 ≤ now)
    (hhigh : now + (minute / 60 + 1 : ℕ) * 3600000 ≤ 8640000000000000) :
    ∃ next : ℤ, nextCronMs fl expression now = .finite next ∧ now < next ∧
      (next : ℚ) ≤ now + (minute / 60 + 1 : ℕ) * 3600000 ∧
      next % 3600000 = minute % 60 * 60000 := by
  obtain ⟨hduration, hminutes, hminute⟩ := matches_of_atMinute h
  have hstar : trim expression ≠ "* * * * *".toList := by
    intro heq
    rw [heq, atMinute_everyMinute] at hminute
    cases hminute
  have htop : now ≤ 8640000000000000 := by
    have : (0 : ℚ) ≤ (minute / 60 + 1 : ℕ) * 3600000 := by positivity
    linarith
  obtain ⟨t, ht, hbottom, hle, hge⟩ := timeValue_eq hlow htop
  obtain ⟨hfrom, hto, hlowest, hmod⟩ := minuteOfHour_bounds hbottom minute
  have hminutes60 : (minute : ℚ) * 60000 + 60000 ≤ (minute / 60 + 1 : ℕ) * 3600000 := by
    have : minute * 60000 + 60000 ≤ (minute / 60 + 1) * 3600000 := by omega
    exact_mod_cast this
  have hfits : minuteOfHour t minute ≤ 8640000000000000 := by
    have : (minuteOfHour t minute : ℚ) ≤ 8640000000000000 := by linarith
    exact_mod_cast this
  have hnext : nextCronMs fl expression now =
      if (minuteOfHour t minute : ℚ) ≤ now then timeNumber (minuteOfHour t minute + 3600000)
      else .finite (minuteOfHour t minute) := by
    rw [nextCronMs]
    simp only [hduration, hminutes, hminute, if_neg hstar, ht, timeNumber_eq hlowest hfits,
      JsNumber.le, decide_eq_true_eq]
  by_cases hpast : (minuteOfHour t minute : ℚ) ≤ now
  · -- the minute of this hour is over: it is that of the next one
    have hhour : (3600000 : ℚ) ≤ (minute / 60 + 1 : ℕ) * 3600000 := by
      have : 3600000 ≤ (minute / 60 + 1) * 3600000 := by omega
      exact_mod_cast this
    have hfits' : minuteOfHour t minute + 3600000 ≤ 8640000000000000 := by
      have : (minuteOfHour t minute : ℚ) + 3600000 ≤ 8640000000000000 := by linarith
      exact_mod_cast this
    refine ⟨minuteOfHour t minute + 3600000, ?_, ?_, ?_, by omega⟩
    · rw [hnext, if_pos hpast, timeNumber_eq (by omega) hfits']
    · push_cast
      have : (0 : ℚ) ≤ minute * 60000 := by positivity
      linarith
    · push_cast at hhour ⊢
      linarith
  · refine ⟨minuteOfHour t minute, ?_, not_le.mp hpast, by linarith, hmod⟩
    rw [hnext, if_neg hpast]

/-- A task is due at a heartbeat and has a next time: it is quiet until then. -/
theorem quiet_of_due {t : CronTask} {now next : ℚ} (hdue : t.due now = true)
    (hnext : nextCronMs fl t.schedule now = .finite next) (later : List ℚ) :
    Quiet fl t (now :: later) ↔ ∀ time ∈ later, time < next := by
  rw [Quiet, if_pos hdue, CronTask.dueAgain, hnext]
  simp [JsNumber.isFinite, JsNumber.gt, Option.filter]

/-- A task that runs after a time: no heartbeat may come once that time is over. -/
theorem quiet_every {t : CronTask} {now ms next : ℚ} (hdue : t.due now = true)
    (hkind : scheduleKind fl t.schedule = .every (.finite ms))
    (hnext : fl (now + ms) = .finite next) (later : List ℚ) :
    Quiet fl t (now :: later) ↔ ∀ time ∈ later, time < next :=
  quiet_of_due hdue ((nextCronMs_every hkind now).trans hnext) later

/-- A task that runs at a minute of the hour: none may come from the next such minute on. -/
theorem quiet_atMinute {t : CronTask} {now : ℚ} {minute : ℕ} (hdue : t.due now = true)
    (hkind : scheduleKind fl t.schedule = .atMinute minute) (hlow : -8640000000000000 ≤ now)
    (hhigh : now + (minute / 60 + 1 : ℕ) * 3600000 ≤ 8640000000000000) :
    ∃ next : ℤ, now < next ∧ (next : ℚ) ≤ now + (minute / 60 + 1 : ℕ) * 3600000 ∧
      next % 3600000 = minute % 60 * 60000 ∧
      ∀ later, Quiet fl t (now :: later) ↔ ∀ time ∈ later, time < next := by
  obtain ⟨next, hnext, hafter, hwithin, hmod⟩ := nextCronMs_atMinute hkind hlow hhigh
  exact ⟨next, hafter, hwithin, hmod, quiet_of_due hdue hnext⟩

/-! ## The runs of a task -/

theorem countP_dueRuns (id : Text) (beat : Beat) (i : ℕ) (tasks : List CronTask) :
    (dueRuns beat i tasks).countP (fun run => run.taskId = id) =
      tasks.countP fun t => t.id = id ∧ t.due beat.now := by
  induction tasks generalizing i with
  | nil => rfl
  | cons t tasks ih =>
      rw [dueRuns, List.countP_append, ih, List.countP_cons, Nat.add_comm]
      congr 1
      cases hdue : t.due beat.now <;> by_cases hid : t.id = id <;> simp [hid]

/-- A heartbeat saves what it leads to; nothing changes where it does not. -/
theorem heartbeat_eq {s : CronState} (hs : s.persist = s) (beat : Beat) :
    heartbeat fl s beat = (processCronDue fl s beat).1.persist := by
  rw [heartbeat]
  cases hany : (processCronDue fl s beat).2 with
  | true => exact if_pos rfl
  | false =>
      have hnone : ∀ t ∈ s.tasks, t.due beat.now = false := by
        intro t ht
        have hall := List.any_eq_false.mp hany t ht
        simpa using hall
      have htasks : s.tasks.map (fun t => t.reschedule fl beat.now) = s.tasks := by
        rw [List.map_congr_left fun t ht => reschedule_of_not_due (hnone t ht), List.map_id']
      have hruns : ∀ (i : ℕ) (tasks : List CronTask), (∀ t ∈ tasks, t.due beat.now = false) →
          dueRuns beat i tasks = [] := by
        intro i tasks hdue
        induction tasks generalizing i with
        | nil => rfl
        | cons t tasks ih =>
            obtain ⟨ht, hrest⟩ := List.forall_mem_cons.mp hdue
            rw [dueRuns, ih _ hrest, ht]
            rfl
      have hsame : (processCronDue fl s beat).1 = s := by
        rw [processCronDue, htasks, hruns 0 s.tasks hnone, List.append_nil]
      rw [hsame, hs]
      rfl

/-- A task whose id no other task has. -/
structure Sole (s : CronState) (t : CronTask) : Prop where
  loaded : s.persist = s
  count : s.tasks.countP (fun t' => t'.id = t.id) = 1
  mem : t ∈ s.tasks

theorem countP_eq_of_sole {s : CronState} {t : CronTask} (h : Sole s t) (P : CronTask → Bool) :
    s.tasks.countP (fun t' => t'.id = t.id ∧ P t') = if P t then 1 else 0 := by
  obtain ⟨pre, post, hsplit⟩ := List.append_of_mem h.mem
  have hcount := h.count
  rw [hsplit, List.countP_append, List.countP_cons_of_pos (by simp)] at hcount
  have hzero : ∀ l : List CronTask, l.countP (fun t' => t'.id = t.id) = 0 →
      l.countP (fun t' => t'.id = t.id ∧ P t') = 0 := by
    intro l hl
    rw [List.countP_eq_zero] at hl ⊢
    intro t' ht'
    have := hl t' ht'
    simp only [decide_eq_true_eq] at this
    simp [this]
  rw [hsplit, List.countP_append, List.countP_cons, hzero pre (by omega), hzero post (by omega)]
  simp

theorem Sole.heartbeat {s : CronState} {t : CronTask} (h : Sole s t) (beat : Beat) :
    Sole (heartbeat fl s beat) (t.reschedule fl beat.now).persist := by
  rw [heartbeat_eq h.loaded]
  refine ⟨CronState.persist_persist _, ?_, ?_⟩
  · simp only [CronState.persist, processCronDue, List.countP_map, Function.comp_def, persist_id,
      reschedule_id]
    exact h.count
  · exact List.mem_map_of_mem (List.mem_map_of_mem h.mem)

theorem runsOf_heartbeat {s : CronState} {t : CronTask} (h : Sole s t) (beat : Beat) :
    runsOf t.id (heartbeat fl s beat) = runsOf t.id s + if t.due beat.now then 1 else 0 := by
  rw [heartbeat_eq h.loaded, ← countP_eq_of_sole h fun t' => t'.due beat.now]
  show (s.runs ++ dueRuns beat 0 s.tasks).countP _ = _
  rw [List.countP_append, countP_dueRuns]
  rfl

/-- The runs that heartbeats add are those of the task on its own. -/
theorem runsOf_heartbeats {s : CronState} {t : CronTask} (h : Sole s t) (beats : List Beat) :
    runsOf t.id (heartbeats fl s beats) =
      runsOf t.id s + firings fl t (beats.map Beat.now) := by
  induction beats generalizing s t with
  | nil => rfl
  | cons beat beats ih =>
      have hrest := ih (show Sole (heartbeat fl s beat) _ from h.heartbeat beat)
      rw [persist_id, reschedule_id, runsOf_heartbeat h] at hrest
      rw [heartbeats, List.foldl_cons, List.map_cons, firings, ← Nat.add_assoc]
      exact hrest

/-! ## Tasks added with `once` -/

theorem sole_cmdCron {argv : List Text} {env : CronEnv} {file : CronState} {kind : String}
    {expression payload : Option Text} {taskMeta : TaskMeta}
    (hargv : cronCommand argv = .add kind expression payload taskMeta)
    (hid : ∀ t ∈ file.tasks, t.id ≠ (cronTaskRecord fl kind expression payload taskMeta env).id) :
    Sole (cmdCron fl argv env file)
      (cronTaskRecord fl kind expression payload taskMeta env).persist := by
  have hfile : cmdCron fl argv env file =
      { file with tasks := file.tasks ++
          [cronTaskRecord fl kind expression payload taskMeta env] }.persist := by
    simp only [cmdCron, hargv, CronCommand.apply]
  rw [hfile]
  refine ⟨CronState.persist_persist _, ?_, ?_⟩
  · simp only [CronState.persist, List.map_append, List.map_cons, List.map_nil,
      List.countP_append, List.countP_map]
    simp only [Function.comp_def, persist_id]
    simp
    intro t ht
    exact decide_eq_false (hid t ht)
  · exact List.mem_map_of_mem (List.mem_append_right _ (List.mem_singleton_self _))

/-- A task added with `once`, whose id no other task has, runs at most once exactly when no
heartbeat comes at the time at which it is due again. -/
theorem once_runs_once_iff {argv : List Text} {env : CronEnv} {file : CronState} {kind : String}
    {expression payload model : Option Text}
    (hargv : cronCommand argv = .add kind expression payload ⟨true, model⟩)
    (hid : ∀ t ∈ file.tasks,
      t.id ≠ (cronTaskRecord fl kind expression payload ⟨true, model⟩ env).id)
    (beats : List Beat) :
    let s := cmdCron fl argv env file
    let t := (cronTaskRecord fl kind expression payload ⟨true, model⟩ env).persist
    runsOf t.id (heartbeats fl s beats) ≤ runsOf t.id s + 1 ↔
      Quiet fl t (beats.map Beat.now) := by
  intro s t
  have hsole : Sole s t := sole_cmdCron hargv hid
  rw [runsOf_heartbeats hsole beats, ← firings_le_one_iff (persist_persist _)]
  exact Nat.add_le_add_iff_left

/-- The numbers of a clock that is exact. -/
def exactNumbers : ℚ → JsNumber := .finite

def emptyCron : CronState := ⟨[], []⟩

/-- A command at time zero. -/
def envAtZero : CronEnv := ⟨"0".toList, 0, 0, 0⟩

/-- A heartbeat at which tasks run at once. -/
def beatAt (now : ℚ) : Beat := ⟨now, fun _ => ⟨now, []⟩⟩

/-- A task that is due after a second, with heartbeats for less than two. -/
theorem once_runs_once_iff_second :
    let s := cmdCron exactNumbers ["once".toList, "1s".toList, "x".toList] envAtZero emptyCron
    let t := (cronTaskRecord exactNumbers "command" (some "1s".toList) (some "x".toList)
      ⟨true, none⟩ envAtZero).persist
    runsOf t.id (heartbeats exactNumbers s ([500, 1000, 1500].map beatAt)) ≤ runsOf t.id s + 1 ↔
      Quiet exactNumbers t (([500, 1000, 1500].map beatAt).map Beat.now) :=
  once_runs_once_iff rfl (by simp [emptyCron]) ([500, 1000, 1500].map beatAt)

/-- A task that is due after a second, with heartbeats at one and at two: it runs twice. -/
theorem secondBeat_runs_again :
    ¬∀ (argv : List Text) (env : CronEnv) (kind : String) (expression payload model : Option Text)
      (beats : List Beat), cronCommand argv = .add kind expression payload ⟨true, model⟩ →
      let s := cmdCron exactNumbers argv env emptyCron
      let t := (cronTaskRecord exactNumbers kind expression payload ⟨true, model⟩ env).persist
      runsOf t.id (heartbeats exactNumbers s beats) ≤ runsOf t.id s + 1 := by
  intro h
  have hruns := h ["once".toList, "1s".toList, "x".toList] envAtZero "command" (some "1s".toList)
    (some "x".toList) none ([1000, 2000].map beatAt) rfl
  revert hruns
  decide +kernel

end GatoCore.NullClaw
