import GatoCore.Lib.Lists
import GatoCore.NullClaw.CronOnce

/-!
# The file of the scheduled tasks

Source: `cmdGateway` and `cmdCron` of `samples/nullclaw.ptjs`.

The gateway keeps a copy of `cron.json` from one heartbeat to the next and saves it whole. Commands
of other processes come between its steps.
-/

namespace GatoCore.NullClaw

open GatoCore.Lib GatoCore.Stdlib

/-! ## The gateway and the commands -/

/-- Where the gateway is in a heartbeat. -/
inductive GatewayPhase where
  | waiting
  | processed (changed : Bool)
  | saved
  deriving DecidableEq

/-- The file and the copy of the gateway; `loaded` is what the copy was when it was loaded. -/
structure CronWorld where
  file : CronState
  memory : CronState
  loaded : CronState
  phase : GatewayPhase

/-- A whole command of another process, or a step of the gateway. -/
inductive CronEvent where
  | command (argv : List Text) (env : CronEnv)
  | process (beat : Beat)
  | save
  | load

/-- The gateway has loaded the file. -/
def gatewayStart (file : CronState) : CronWorld := ⟨file, file, file, .waiting⟩

section Steps

variable (fl : ℚ → JsNumber)

/-- What an event leads to, where it can happen: the steps of the gateway have their order. -/
def cronEvent (w : CronWorld) : CronEvent → Option CronWorld
  | .command argv env => some { w with file := cmdCron fl argv env w.file }
  | .process beat =>
      match w.phase with
      | .waiting =>
          let processed := processCronDue fl w.memory beat
          some { w with memory := processed.1, phase := .processed processed.2 }
      | _ => none
  | .save =>
      match w.phase with
      | .processed true => some { w with file := w.memory.persist, phase := .saved }
      | _ => none
  | .load =>
      match w.phase with
      | .processed false | .saved =>
          some { w with memory := w.file, loaded := w.file, phase := .waiting }
      | _ => none

def cronRun (w : CronWorld) : List CronEvent → Option CronWorld
  | [] => some w
  | e :: events => (cronEvent fl w e).bind fun w' => cronRun w' events

/-- The commands and the heartbeats one after the other, each on what the one before left. A
heartbeat counts where it saves. -/
def replay (s : CronState) (pending : Option Beat) : List CronEvent → CronState
  | [] => s
  | .command argv env :: events => replay (cmdCron fl argv env s) pending events
  | .process beat :: events => replay s (some beat) events
  | .save :: events =>
      match pending with
      | some beat => replay (heartbeat fl s beat) none events
      | none => replay s none events
  | .load :: events => replay s none events

end Steps

/-! ## What must not be lost -/

/-- What the commands say of a task; when it is due is left to the gateway. -/
def CronTask.settings (t : CronTask) : CronTask := { t with nextMs := none }

/-- What the file says of the tasks with an id. -/
def settingsOf (id : Text) (s : CronState) : List CronTask :=
  (s.tasks.filter fun t => t.id = id).map CronTask.settings

/-- A command is about the tasks with an id. -/
def CronCommand.Touches (env : CronEnv) (id : Text) : CronCommand → Prop
  | .add kind expression payload taskMeta =>
      (cronTaskRecord .finite kind expression payload taskMeta env).id = id
  | .setEnabled id' _ | .remove id' | .update id' _ => id' = some id
  | _ => False

/-- An event is a command about the tasks with an id. -/
def CronEvent.Touches (id : Text) : CronEvent → Prop
  | .command argv env => (cronCommand argv).Touches env id
  | _ => False

/-- What a command made of the tasks with an id is in the file as long as no later command is about
them; the file is that of the replay; and a heartbeat runs only tasks that the file has enabled. -/
structure NothingLost (fl : ℚ → JsNumber) (file : CronState) (events : List CronEvent) : Prop where
  present : ∀ pre argv env post, events = pre ++ .command argv env :: post → ∀ id,
    (∀ e ∈ post, ¬e.Touches id) → ∀ w w',
    cronRun fl (gatewayStart file) (pre ++ [CronEvent.command argv env]) = some w →
    cronRun fl (gatewayStart file) events = some w' →
    settingsOf id w'.file = settingsOf id w.file
  replayed : ∀ w, cronRun fl (gatewayStart file) events = some w →
    w.file = replay fl file none events
  enabled : ∀ pre beat post, events = pre ++ .process beat :: post → ∀ w,
    cronRun fl (gatewayStart file) pre = some w → ∀ t ∈ w.memory.tasks, t.due beat.now = true →
    ∃ t' ∈ w.file.tasks, t'.id = t.id ∧ t'.enabled = true

/-- The file is as the gateway loaded it when it runs a task and when it saves. -/
def CronEvent.Undisturbed (w : CronWorld) : CronEvent → Prop
  | .process beat => (∃ t ∈ w.memory.tasks, t.due beat.now = true) → w.file = w.memory
  | .save => w.file = w.loaded
  | _ => True

/-- This holds of every event where it happens. -/
def AllUndisturbed (fl : ℚ → JsNumber) (w : CronWorld) (events : List CronEvent) : Prop :=
  ∀ pre e post, events = pre ++ e :: post → ∀ w', cronRun fl w pre = some w' → e.Undisturbed w'

/-! ## Settings -/

variable {fl : ℚ → JsNumber}

@[simp] theorem settings_persist (t : CronTask) : t.persist.settings = t.settings := rfl

@[simp] theorem settings_reschedule (t : CronTask) (now : ℚ) :
    (t.reschedule fl now).settings = t.settings := by
  rw [CronTask.reschedule]
  split <;> rfl

/-- Tasks that are changed one by one, with the same settings and ids. -/
theorem settingsOf_map {s s' : CronState} {f : CronTask → CronTask} (h : s'.tasks = s.tasks.map f)
    (hid : ∀ t, (f t).id = t.id) {id : Text} (hf : ∀ t, t.id = id → (f t).settings = t.settings) :
    settingsOf id s' = settingsOf id s := by
  rw [settingsOf, settingsOf, h, List.filter_map, List.map_map]
  simp only [Function.comp_def, hid]
  apply List.map_congr_left
  intro t ht
  exact hf t (by simpa using (List.mem_filter.mp ht).2)

@[simp] theorem settingsOf_persist (id : Text) (s : CronState) :
    settingsOf id s.persist = settingsOf id s :=
  settingsOf_map (f := CronTask.persist) rfl persist_id fun t _ => settings_persist t

@[simp] theorem settingsOf_processCronDue (id : Text) (s : CronState) (beat : Beat) :
    settingsOf id (processCronDue fl s beat).1 = settingsOf id s :=
  settingsOf_map (f := fun t => t.reschedule fl beat.now) rfl (fun t => reschedule_id t beat.now)
    fun t _ => settings_reschedule t beat.now

/-- A command leaves the tasks it is not about. -/
theorem settingsOf_cmdCron {argv : List Text} {env : CronEnv} {id : Text}
    (h : ¬(cronCommand argv).Touches env id) (file : CronState) :
    settingsOf id (cmdCron fl argv env file) = settingsOf id file := by
  rw [cmdCron]
  cases hcommand : cronCommand argv with
  | add kind expression payload taskMeta =>
      rw [hcommand] at h
      have hid : (cronTaskRecord fl kind expression payload taskMeta env).id ≠ id := h
      simp only [CronCommand.apply, settingsOf_persist]
      simp [settingsOf, hid]
  | setEnabled id' enabled =>
      rw [hcommand] at h
      have hid : id' ≠ some id := h
      simp only [CronCommand.apply, settingsOf_persist]
      refine settingsOf_map rfl ?_ ?_
      · intro t
        split <;> rfl
      · rintro t rfl
        rw [if_neg hid]
  | remove id' =>
      rw [hcommand] at h
      have hid : id' ≠ some id := h
      simp only [CronCommand.apply, settingsOf_persist]
      rw [settingsOf, settingsOf, List.filter_filter]
      congr 1
      apply List.filter_congr
      intro t _
      by_cases ht : t.id = id
      · simp [ht, hid]
      · simp [ht]
  | update id' argv' =>
      rw [hcommand] at h
      have hid : id' ≠ some id := h
      simp only [CronCommand.apply, settingsOf_persist]
      refine settingsOf_map rfl ?_ ?_
      · intro t
        split <;> rfl
      · rintro t rfl
        rw [if_neg hid]
  | _ => rfl

/-! ## One event -/

/-- What the copy of the gateway is to what it loaded; `pending` is the heartbeat under way. -/
structure Held (fl : ℚ → JsNumber) (w : CronWorld) (pending : Option Beat) : Prop where
  waiting : w.phase = .waiting → w.memory = w.loaded
  processed : ∀ changed, w.phase = .processed changed → ∃ beat, pending = some beat ∧
    (w.memory, changed) = processCronDue fl w.loaded beat

/-- The heartbeat under way after an event. -/
def CronEvent.pending (before : Option Beat) : CronEvent → Option Beat
  | .command _ _ => before
  | .process beat => some beat
  | _ => none

theorem held_start (file : CronState) : Held fl (gatewayStart file) none :=
  ⟨fun _ => rfl, fun _ h => by cases h⟩

theorem Held.event {w w' : CronWorld} {pending : Option Beat} (h : Held fl w pending)
    {e : CronEvent} (he : cronEvent fl w e = some w') : Held fl w' (e.pending pending) := by
  cases e with
  | command argv env =>
      obtain rfl := Option.some.inj he
      exact ⟨h.waiting, h.processed⟩
  | process beat =>
      rw [cronEvent] at he
      split at he
      · rename_i hphase
        obtain rfl := Option.some.inj he
        refine ⟨fun hnot => (by cases hnot), ?_⟩
        intro changed hchanged
        refine ⟨beat, rfl, ?_⟩
        cases hchanged
        rw [← h.waiting hphase]
      · cases he
  | save =>
      rw [cronEvent] at he
      split at he
      · obtain rfl := Option.some.inj he
        exact ⟨fun hnot => (by cases hnot), fun _ hnot => (by cases hnot)⟩
      · cases he
  | load =>
      rw [cronEvent] at he
      split at he
      · obtain rfl := Option.some.inj he
        exact ⟨fun _ => rfl, fun _ hnot => by cases hnot⟩
      · obtain rfl := Option.some.inj he
        exact ⟨fun _ => rfl, fun _ hnot => by cases hnot⟩
      · cases he

/-- What a save makes of the file, if that is as the gateway loaded it. -/
theorem save_file {w w' : CronWorld} {pending : Option Beat} (h : Held fl w pending)
    (he : cronEvent fl w .save = some w') (hundisturbed : w.file = w.loaded) :
    ∃ beat, pending = some beat ∧ w'.file = heartbeat fl w.file beat := by
  rw [cronEvent] at he
  split at he
  · rename_i hphase
    obtain rfl := Option.some.inj he
    obtain ⟨beat, hpending, hmemory⟩ := h.processed true hphase
    refine ⟨beat, hpending, ?_⟩
    rw [heartbeat, hundisturbed, ← hmemory]
    rfl
  · cases he

theorem settingsOf_heartbeat (id : Text) (s : CronState) (beat : Beat) :
    settingsOf id (heartbeat fl s beat) = settingsOf id s := by
  rw [heartbeat]
  split
  · rw [settingsOf_persist, settingsOf_processCronDue]
  · rfl

/-- An event that is no command about an id leaves what the file says of it. -/
theorem settingsOf_event {w w' : CronWorld} {pending : Option Beat} (h : Held fl w pending)
    {e : CronEvent} (he : cronEvent fl w e = some w') (hundisturbed : e.Undisturbed w) {id : Text}
    (hid : ¬e.Touches id) : settingsOf id w'.file = settingsOf id w.file := by
  cases e with
  | command argv env =>
      obtain rfl := Option.some.inj he
      exact settingsOf_cmdCron hid w.file
  | process beat =>
      rw [cronEvent] at he
      split at he
      · obtain rfl := Option.some.inj he
        rfl
      · cases he
  | save =>
      obtain ⟨beat, -, hfile⟩ := save_file h he hundisturbed
      rw [hfile, settingsOf_heartbeat]
  | load =>
      rw [cronEvent] at he
      split at he
      · obtain rfl := Option.some.inj he
        rfl
      · obtain rfl := Option.some.inj he
        rfl
      · cases he

/-- An event does to the file what it does in the replay. -/
theorem replay_event {w w' : CronWorld} {pending : Option Beat} (h : Held fl w pending)
    {e : CronEvent} (he : cronEvent fl w e = some w') (hundisturbed : e.Undisturbed w)
    (events : List CronEvent) :
    replay fl w.file pending (e :: events) = replay fl w'.file (e.pending pending) events := by
  cases e with
  | command argv env =>
      obtain rfl := Option.some.inj he
      rfl
  | process beat =>
      rw [cronEvent] at he
      split at he
      · obtain rfl := Option.some.inj he
        rfl
      · cases he
  | save =>
      obtain ⟨beat, rfl, hfile⟩ := save_file h he hundisturbed
      rw [replay, hfile]
      rfl
  | load =>
      rw [cronEvent] at he
      split at he
      · obtain rfl := Option.some.inj he
        rfl
      · obtain rfl := Option.some.inj he
        rfl
      · cases he

/-! ## Runs -/

theorem cronRun_append {w : CronWorld} (xs ys : List CronEvent) :
    cronRun fl w (xs ++ ys) = (cronRun fl w xs).bind fun w' => cronRun fl w' ys := by
  induction xs generalizing w with
  | nil => rfl
  | cons e xs ih =>
      rw [List.cons_append, cronRun, cronRun, Option.bind_assoc]
      congr 1
      funext w'
      exact ih

theorem allUndisturbed_cons {w w' : CronWorld} {e : CronEvent} {events : List CronEvent}
    (he : cronEvent fl w e = some w') :
    AllUndisturbed fl w (e :: events) ↔ e.Undisturbed w ∧ AllUndisturbed fl w' events := by
  have hsplit := forall_split_cons (a := e) (l := events)
    (P := fun pre e => ∀ w', cronRun fl w pre = some w' → e.Undisturbed w')
  rw [AllUndisturbed, hsplit]
  simp [cronRun, he, AllUndisturbed]

/-- The gateway after some events, none of which disturbs it. -/
theorem held_run {w w' : CronWorld} {pending : Option Beat} (h : Held fl w pending)
    {events : List CronEvent} (hrun : cronRun fl w events = some w') :
    ∃ pending', Held fl w' pending' := by
  induction events generalizing w pending with
  | nil =>
      obtain rfl := Option.some.inj hrun
      exact ⟨pending, h⟩
  | cons e events ih =>
      obtain ⟨next, he, hrest⟩ := Option.bind_eq_some_iff.mp hrun
      exact ih (h.event he) hrest

theorem settingsOf_run {w w' : CronWorld} {pending : Option Beat} (h : Held fl w pending)
    {events : List CronEvent} (hrun : cronRun fl w events = some w')
    (hall : AllUndisturbed fl w events) {id : Text} (hid : ∀ e ∈ events, ¬e.Touches id) :
    settingsOf id w'.file = settingsOf id w.file := by
  induction events generalizing w pending with
  | nil =>
      obtain rfl := Option.some.inj hrun
      rfl
  | cons e events ih =>
      obtain ⟨next, he, hrest⟩ := Option.bind_eq_some_iff.mp hrun
      obtain ⟨hundisturbed, hlater⟩ := (allUndisturbed_cons he).mp hall
      obtain ⟨hide, hids⟩ := List.forall_mem_cons.mp hid
      rw [ih (h.event he) hrest hlater hids, settingsOf_event h he hundisturbed hide]

theorem replay_run {w w' : CronWorld} {pending : Option Beat} (h : Held fl w pending)
    {events : List CronEvent} (hrun : cronRun fl w events = some w')
    (hall : AllUndisturbed fl w events) : w'.file = replay fl w.file pending events := by
  induction events generalizing w pending with
  | nil =>
      obtain rfl := Option.some.inj hrun
      rfl
  | cons e events ih =>
      obtain ⟨next, he, hrest⟩ := Option.bind_eq_some_iff.mp hrun
      obtain ⟨hundisturbed, hlater⟩ := (allUndisturbed_cons he).mp hall
      rw [replay_event h he hundisturbed, ih (h.event he) hrest hlater]

/-- Nothing is lost in a run in which the file is as the gateway loaded it whenever it runs a task
and whenever it saves. -/
theorem nothing_lost {file : CronState} {events : List CronEvent}
    (hall : AllUndisturbed fl (gatewayStart file) events) : NothingLost fl file events := by
  constructor
  · rintro pre argv env post rfl id hid w w' hw hw'
    have hsplit : pre ++ CronEvent.command argv env :: post =
        (pre ++ [CronEvent.command argv env]) ++ post := by simp
    rw [hsplit, cronRun_append, hw] at hw'
    obtain ⟨pending, hheld⟩ := held_run (held_start file) hw
    refine settingsOf_run hheld hw' ?_ hid
    intro pre' e post' hpost next hnext
    refine hall (pre ++ CronEvent.command argv env :: pre') e post' (by simp [hpost]) next ?_
    have hsplit' : pre ++ CronEvent.command argv env :: pre' =
        (pre ++ [CronEvent.command argv env]) ++ pre' := by simp
    rw [hsplit', cronRun_append, hw]
    exact hnext
  · intro w hw
    exact replay_run (held_start file) hw hall
  · intro pre beat post hevents w hw t ht hdue
    have hfile := hall pre (.process beat) post hevents w hw ⟨t, ht, hdue⟩
    refine ⟨t, by rwa [hfile], rfl, ?_⟩
    rw [CronTask.due, Bool.and_eq_true] at hdue
    exact hdue.1

/-! ## A task that is paused and one that is removed -/

/-- A file with one task, due after a second. -/
def oneTask : CronState :=
  cmdCron exactNumbers ["add".toList, "1s".toList, "x".toList] envAtZero emptyCron

theorem allUndisturbed_nil (w : CronWorld) : AllUndisturbed fl w [] := by
  intro pre e post hsplit
  simp at hsplit

theorem load_of_unchanged {w : CronWorld} (h : w.phase = .processed false) :
    cronEvent fl w .load = some ⟨w.file, w.file, w.file, .waiting⟩ := by
  rw [cronEvent, h]

theorem save_of_changed {w : CronWorld} (h : w.phase = .processed true) :
    cronEvent fl w .save = some ⟨w.memory.persist, w.memory, w.loaded, .saved⟩ := by
  rw [cronEvent, h]

/-- The task runs and is saved; then it is paused before it is due again, and the gateway has seen
that. -/
theorem nothing_lost_paused :
    let events : List CronEvent := [.process (beatAt 1000), .save, .load,
      .command ["pause".toList, "cron-0-0".toList] envAtZero, .process (beatAt 1500), .load,
      .process (beatAt 3000), .load]
    AllUndisturbed exactNumbers (gatewayStart oneTask) events ∧
      NothingLost exactNumbers oneTask events := by
  intro events
  have hall : AllUndisturbed exactNumbers (gatewayStart oneTask) events := by
    refine (allUndisturbed_cons rfl).mpr ⟨fun _ => rfl, ?_⟩
    refine (allUndisturbed_cons (save_of_changed (by decide +kernel))).mpr ⟨rfl, ?_⟩
    refine (allUndisturbed_cons rfl).mpr ⟨trivial, ?_⟩
    refine (allUndisturbed_cons rfl).mpr ⟨trivial, ?_⟩
    refine (allUndisturbed_cons rfl).mpr ⟨fun hdue => absurd hdue (by decide +kernel), ?_⟩
    refine (allUndisturbed_cons (load_of_unchanged (by decide +kernel))).mpr ⟨trivial, ?_⟩
    refine (allUndisturbed_cons rfl).mpr ⟨fun hdue => absurd hdue (by decide +kernel), ?_⟩
    exact (allUndisturbed_cons (load_of_unchanged (by decide +kernel))).mpr
      ⟨trivial, allUndisturbed_nil _⟩
  exact ⟨hall, nothing_lost hall⟩

/-- The task is removed, and the gateway runs it from its copy. -/
theorem removed_not_nothingLost :
    ¬∀ (file : CronState) (events : List CronEvent), NothingLost exactNumbers file events := by
  intro h
  have hlost := h oneTask [.command ["remove".toList, "cron-0-0".toList] envAtZero,
    .process (beatAt 1000), .save, .load]
  have henabled := hlost.enabled [.command ["remove".toList, "cron-0-0".toList] envAtZero]
    (beatAt 1000) [.save, .load] rfl _ rfl
  revert henabled
  decide +kernel

end GatoCore.NullClaw
