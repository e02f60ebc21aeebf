import UnixShell.Foundation.Journals
import UnixShell.Scheduler.Lifecycle
import UnixShell.Server.Bursts
import UnixShell.Server.Footprint

/-! # What the console says of a task

`scheduler_logger` prints lines for some of the scheduler's events, and the executor prints
one in each later round once the child goes on. A state that was printed last for a task is
not printed again. That each task is shown in the order of its life, with bursts that do not
grow, and that nothing is left out for being repeated, holds in every run.
-/
namespace UnixShell.Server
open Foundation Scheduler

/-- The states that `log_task_state` is called with. -/
inductive StateWord
  | created
  | started
  | running
  | waiting
  deriving DecidableEq, Repr

inductive Line
  | state (clientNumber : ℤ) (word : StateWord) (value : ℤ)
  /-- `log_sent_and_ended`. -/
  | sentAndEnded (clientNumber endedValue : ℤ) (bytesSent : ℕ)
  deriving DecidableEq, Repr

structure Console where
  /-- The field of that name in each context. -/
  lastState : ContextRef → Option StateWord
  /-- The lines with the tasks that they are about, the last one first. -/
  lines : List (TaskRef × Line)
  /-- The calls of `log_task_state` that print nothing. -/
  suppressed : ℕ

section Logger
variable (tasks : TaskRef → Task) (contexts : ContextRef → TaskContext) (console : Console)

def logTaskState (t : TaskRef) (word : StateWord) (value : ℤ) : Console :=
  let printed := (t,Line.state (tasks t).clientNumber word value)
  match (tasks t).userData with
  | none => { console with lines := printed :: console.lines }
  | some k =>
    if console.lastState k = some word then { console with suppressed := console.suppressed + 1 }
    else { console with
      lastState := Function.update console.lastState k (some word)
      lines := printed :: console.lines }

def endedValue (task : Task) : ℤ := if task.type = .shell then -1 else task.remainingBurst

def bytesSent (task : Task) : ℕ :=
  match task.userData with
  | none => 0
  | some k => (contexts k).bytesSentTotal

def logSentAndEnded (t : TaskRef) : Console :=
  { console with
    lines := (t,.sentAndEnded (tasks t).clientNumber (endedValue (tasks t))
      (bytesSent contexts (tasks t))) :: console.lines }

/-- The events that it knows; it prints nothing for the others. -/
def schedulerLogger : Event → Console
  | .log .enqueue t _ => logTaskState tasks console t .created (tasks t).remainingBurst
  | .log .dispatch t _ =>
    if (tasks t).roundsCompleted = 0 then
      logTaskState tasks console t .started (tasks t).remainingBurst
    else console
  | .log .waiting t _ => logTaskState tasks console t .waiting (tasks t).remainingBurst
  | .log .finish t _ => logSentAndEnded tasks contexts console t
  | .log .cancel t _ => logSentAndEnded tasks contexts console t
  | _ => console

end Logger

/-- The task whose slice begins: `execute_program_task` has got its child to run. -/
def slicing (tasks : TaskRef → Task) (w w' : World) : Option TaskRef :=
  match w.round,w'.round with
  | some r,some r' =>
    if r.pc = .program ∧ r'.pc = .loopTest ∧ 0 < (tasks r.task).roundsCompleted then some r.task
    else none
  | _,_ => none

/-- What one step of the server prints about tasks. -/
def noteLines {Q : Type} (console : Console) (s s' : State Q) : Console :=
  let tasks := s'.sched.tasks
  let console := (newEvents s.sched.toCore s'.sched.toCore).foldr
    (fun e console => schedulerLogger tasks s.world.contexts console e) console
  match slicing tasks s.world s'.world with
  | some t => logTaskState tasks console t .running (tasks t).remainingBurst
  | none => console

def silentConsole : Console := ⟨fun _ => none,[],0⟩

/-- What has been shown of a task last. -/
inductive Shown
  | unseen
  | state (word : StateWord) (value : ℤ)
  | ended
  deriving DecidableEq, Repr

/-- The lines that may follow, and what is shown then. -/
def showStep : Shown → TaskRef × Line → Option Shown
  | .unseen,(_,.state _ .created value) =>
    if value = -1 ∨ 0 < value then some (.state .created value) else none
  | .state .created burst,(_,.state _ .started value) =>
    if value = burst then some (.state .started value) else none
  | .state .started burst,(_,.state _ .waiting value)
  | .state .running burst,(_,.state _ .waiting value) =>
    if 0 < value ∧ value ≤ burst then some (.state .waiting value) else none
  | .state .waiting burst,(_,.state _ .running value) =>
    if value = burst then some (.state .running value) else none
  | .state word burst,(_,.sentAndEnded _ value _) =>
    if word ≠ .created ∧ value ≤ burst then some .ended else none
  | _,_ => none

def Shown.word : Shown → Option StateWord
  | .state word _ => some word
  | _ => none

section Recorded
variable {console : Console} {shown : TaskRef → Shown} {tasks : TaskRef → Task}
  {contexts : ContextRef → TaskContext} {t : TaskRef} {p p' : Shown} {word : StateWord} {value : ℤ}

/-- A state that may follow is not the last one. -/
theorem showStep_state {clientNumber : ℤ}
    (h : showStep p (t,.state clientNumber word value) = some p') :
    p ≠ .ended ∧ p.word ≠ some word ∧ p' = .state word value := by
  unfold showStep at h
  split at h
  all_goals try split_ifs at h
  all_goals simp_all [Shown.word]

theorem showStep_ended {clientNumber : ℤ} {bytes : ℕ}
    (h : showStep p (t,.sentAndEnded clientNumber value bytes) = some p') : p' = .ended := by
  unfold showStep at h
  split at h
  all_goals try split_ifs at h
  all_goals simp_all

/-- The console shows each task as it has been told to, and has left nothing out. -/
structure Recorded (console : Console) (shown : TaskRef → Shown) : Prop where
  kept : Kept showStep Prod.fst .unseen console.lines shown
  last : ∀ t, shown t ≠ .ended → console.lastState t = (shown t).word
  suppressed : console.suppressed = 0

theorem recorded_silent : Recorded silentConsole fun _ => .unseen :=
  ⟨kept_nil,fun _ _ => rfl,rfl⟩

theorem Recorded.state (h : Recorded console shown) (hu : (tasks t).userData = some t)
    (hs : showStep (shown t) (t,.state (tasks t).clientNumber word value) = some p) :
    Recorded (logTaskState tasks console t word value) (Function.update shown t p) := by
  obtain ⟨hne,hword,rfl⟩ := showStep_state hs
  have hlast : console.lastState t ≠ some word := by
    rw [h.last t hne]
    exact hword
  have hprints : logTaskState tasks console t word value = { console with
      lastState := Function.update console.lastState t (some word)
      lines := (t,.state (tasks t).clientNumber word value) :: console.lines } := by
    simp only [logTaskState,hu,if_neg hlast]
  rw [hprints]
  refine ⟨h.kept.cons ?_ fun u hu => Function.update_of_ne hu _ _,fun u hu => ?_,h.suppressed⟩
  · rw [Function.update_self]
    exact hs
  · by_cases hut : u = t
    · subst hut
      simp [Shown.word]
    · rw [Function.update_of_ne hut] at hu ⊢
      exact (Function.update_of_ne hut _ _).trans (h.last u hu)

theorem Recorded.ended (h : Recorded console shown)
    (hs : showStep (shown t) (t,.sentAndEnded (tasks t).clientNumber (endedValue (tasks t))
      (bytesSent contexts (tasks t))) = some p) :
    Recorded (logSentAndEnded tasks contexts console t) (Function.update shown t .ended) := by
  obtain rfl := showStep_ended hs
  refine ⟨h.kept.cons ?_ fun u hu => Function.update_of_ne hu _ _,fun u hu => ?_,h.suppressed⟩
  · rw [Function.update_self]
    exact hs
  · by_cases hut : u = t
    · subst hut
      rw [Function.update_self] at hu
      exact (hu rfl).elim
    · rw [Function.update_of_ne hut] at hu ⊢
      exact h.last u hu

end Recorded

section Rounds

/-- In `server_task_executor`, before the child of a program goes on. -/
def ExecutorPc.begins : ExecutorPc → Bool
  | .start | .shell | .program => true
  | _ => false

/-- A second of a slice has begun, and whether the child has exited is not known yet. -/
def ExecutorPc.slept : ExecutorPc → Bool
  | .sleeping | .draining .tick | .sending .tick _ _ | .decrement | .reap => true
  | _ => false

/-- On the way out with a result that does not send the task back. -/
def ExecutorPc.leaves : ExecutorPc → Bool
  | .exiting exit _ | .returned exit => exitResult exit ≠ .requeue
  | _ => false

/-- What is shown of a task in the queue. -/
def shownInQueue (rounds : ℕ) (burst : ℤ) : Shown :=
  .state (if rounds = 0 then .created else .waiting) burst

/-- What is shown of a task that has been dispatched, until its slice begins. -/
def shownAtDispatch (rounds : ℕ) (burst : ℤ) : Shown :=
  .state (if rounds = 0 then .started else .waiting) burst

/-- What is shown of a task in the middle of its round. A round that fails before its slice
begins is never shown as running. -/
inductive ShownInRound (rounds : ℕ) (burst : ℤ) (pc : ExecutorPc) : Shown → Prop
  | beginning : pc.begins = true → ShownInRound rounds burst pc (shownAtDispatch rounds burst)
  | slice {word : StateWord} {value : ℤ} : pc.begins = false → burst ≤ value →
      (pc.slept = true → 0 < value) →
      word = .started ∨ word = .running ∨ word = .waiting ∧ pc.leaves = true →
      ShownInRound rounds burst pc (.state word value)

variable {v : View} {r : Round} {i : Input} {pc pc' : ExecutorPc} {x : Option Action}
  {events : List ServerEvent} {rounds : ℕ} {p : Shown}

/-- The value shown is no less than what is left. -/
theorem ShownInRound.shown {burst : ℤ} (h : ShownInRound rounds burst pc p) :
    ∃ word value, p = .state word value ∧ burst ≤ value ∧ word ≠ .created := by
  cases h with
  | beginning _ =>
    refine ⟨_,_,rfl,le_rfl,?_⟩
    split <;> simp
  | @slice word value _ hle _ hword =>
    refine ⟨word,value,rfl,hle,?_⟩
    rcases hword with rfl | rfl | ⟨rfl,_⟩ <;> simp

/-- Moves at the beginning of a round: the slice begins, or the round is given up. -/
theorem shift_begins (h : Shift v r pc i pc' x events) (hb : pc.begins = true) :
    x = none ∧ (pc'.begins = true ∨ pc = .program ∧ pc' = .loopTest ∨
      pc'.begins = false ∧ pc'.slept = false ∧ pc'.leaves = true) := by
  cases h with
  | noContext _ | shell _ | program _ | shellNoLine | shellDone | shellNoOutput | running =>
    exact ⟨rfl,by simp [ExecutorPc.begins,ExecutorPc.slept,ExecutorPc.leaves,exitResult]⟩
  | early he =>
    refine ⟨rfl,Or.inr (Or.inr ⟨rfl,rfl,?_⟩)⟩
    rcases he with rfl | rfl | rfl <;> rfl
  | _ => cases hb

/-- Later moves take nothing but seconds off the burst, and a second is never the first one to
be counted below zero. -/
theorem shift_slice (h : Shift v r pc i pc' x events) (hb : pc.begins = false) {value : ℤ}
    (hle : v.task.remainingBurst ≤ value) (hs : pc.slept = true → 0 < value) :
    pc'.begins = false ∧ burstAfter v.task.remainingBurst x ≤ value ∧
      (pc'.slept = true → 0 < value) ∧ (pc.leaves = true → pc'.leaves = true) := by
  have hno : ∀ {p : Prop}, false = true → p := fun hc => absurd hc Bool.false_ne_true
  cases h with
  | noContext _ | shell _ | program _ | shellNoLine | shellDone | shellNoOutput | running
  | early he => cases hb
  | tick _ hpos _ => exact ⟨rfl,hle,fun _ => hpos.trans_le hle,id⟩
  | decrement _ => exact ⟨rfl,by simp only [burstAfter]; omega,hs,id⟩
  | reaped => exact ⟨rfl,(hs rfl).le,hno,id⟩
  | drained hd =>
    cases hd with
    | tick => exact ⟨rfl,hle,hs,id⟩
    | _ => exact ⟨rfl,hle,hno,hno⟩
  | @chunk _ site bytes _ _ =>
    refine ⟨rfl,hle,fun hc => hs ?_,hno⟩
    cases site <;> first | rfl | cases hc
  | appended _ => exact ⟨rfl,hle,hs,id⟩
  | @piece site bytes piece rest connection _ =>
    split
    · refine ⟨rfl,hle,fun hc => hs ?_,hno⟩
      cases site <;> first | rfl | cases hc
    · refine ⟨rfl,hle,fun hc => hs ?_,hno⟩
      cases site <;> first | rfl | cases hc
  | sendFailed => exact ⟨rfl,hle,hno,hno⟩
  | noDecrement _ | slept => exact ⟨rfl,hle,hs,id⟩
  | op _ | opFailed | mark _ _ | done => exact ⟨rfl,hle,hno,id⟩
  | _ => exact ⟨rfl,hle,hno,hno⟩

/-- A move within the round, but for the one that the executor prints a line about. -/
theorem ShownInRound.shift (h : Shift v r pc i pc' x events)
    (hin : ShownInRound rounds v.task.remainingBurst pc p)
    (hn : ¬ (pc = .program ∧ pc' = .loopTest ∧ 0 < rounds)) :
    ShownInRound rounds (burstAfter v.task.remainingBurst x) pc' p := by
  cases hin with
  | beginning hb =>
    obtain ⟨rfl,hnext⟩ := shift_begins h hb
    rcases hnext with hb' | ⟨hp,hp'⟩ | ⟨hb',hs,hl⟩
    · exact .beginning hb'
    · have hzero : rounds = 0 := by
        by_contra hne
        exact hn ⟨hp,hp',Nat.pos_of_ne_zero hne⟩
      subst hp'
      rw [shownAtDispatch,if_pos hzero]
      exact .slice rfl le_rfl nofun (Or.inl rfl)
    · refine .slice hb' le_rfl (fun hc => by rw [hs] at hc; cases hc) ?_
      split
      · exact Or.inl rfl
      · exact Or.inr (Or.inr ⟨rfl,hl⟩)
  | slice hb hle hs hword =>
    obtain ⟨hb',hle',hs',hl⟩ := shift_slice h hb hle hs
    refine .slice hb' hle' hs' ?_
    rcases hword with hword | hword | ⟨hword,hleaves⟩
    · exact Or.inl hword
    · exact Or.inr (Or.inl hword)
    · exact Or.inr (Or.inr ⟨hword,hl hleaves⟩)

end Rounds

section Told
variable {s s' : State TaskLists} {a : ServerAction} {shown : TaskRef → Shown} {t : TaskRef}
  {console : Console} {new : List Event} {p : Shown}

/-- The scheduler thread has finished the task, or cancelled it. -/
def endLogged (t : TaskRef) (events : List Event) : Prop :=
  .log .finish t 0 ∈ events ∨ .log .cancel t 0 ∈ events

/-- The events that the logger prints a line for, in some rounds at least. -/
def prints : Event → Bool
  | .log .preemptRequest _ _ | .log .fail _ _ | .unlinked _ | .cleanup _ => false
  | _ => true

/-- What the console says of a task agrees with where the scheduler has it. -/
structure Telling (s : State TaskLists) (shown : TaskRef → Shown) : Prop where
  unseen : ∀ t, shown t = .unseen ↔ s.sched.allocated ≤ t
  waiting : ∀ t ∈ s.sched.queue.waiting, shown t =
    shownInQueue (s.sched.tasks t).roundsCompleted (s.sched.tasks t).remainingBurst
  round : ∀ r, s.world.round = some r → ShownInRound (s.sched.tasks r.task).roundsCompleted
    (s.sched.tasks r.task).remainingBurst r.pc (shown r.task)
  shell : ∀ t < s.sched.allocated, (s.sched.tasks t).type = .shell →
    ∀ word value, shown t = .state word value → value = -1
  ended : ∀ t, shown t = .ended ↔ endLogged t s.sched.events

theorem telling_init : Telling (serverInit TaskLists) fun _ => .unseen := by
  refine ⟨fun t => ⟨fun _ => Nat.zero_le t,fun _ => rfl⟩,nofun,nofun,
    fun t ht => absurd ht (Nat.not_lt_zero t),fun t => ?_⟩
  simp [endLogged,serverInit,schedulerInit]

/-- The fields of a record that are printed. -/
structure SameLook (task task' : Task) : Prop where
  rounds : task'.roundsCompleted = task.roundsCompleted
  burst : task'.remainingBurst = task.remainingBurst
  type : task'.type = task.type

theorem step_look {s s' : System TaskLists} {y : Action} (he : Scheduler.step s y = some s')
    (hf : y ≠ .finish) (hb : ∀ b, y ≠ .setBurst b) (ht : t < s.allocated) :
    SameLook (s.tasks t) (s'.tasks t) := by
  refine ⟨?_,?_,(step_continues he ht).type⟩
  · rcases step_roundsCompleted he ht with hr | ⟨hy,_⟩
    · exact hr
    · exact (hf hy).elim
  · rcases step_remainingBurst he ht with hr | ⟨b,_,hy,_⟩
    · exact hr
    · exact (hb b hy).elim

/-- A step after which something else may be shown of one task. -/
theorem Telling.turn (h : Telling s shown) (hc : Consistent s)
    (hn : ∀ u, u ≠ t → (s'.sched.allocated ≤ u ↔ s.sched.allocated ≤ u))
    (hp : p = .unseen ↔ s'.sched.allocated ≤ t)
    (hw : ∀ u ∈ s'.sched.queue.waiting, u ≠ t → u ∈ s.sched.queue.waiting)
    (hwt : t ∈ s'.sched.queue.waiting → p =
      shownInQueue (s'.sched.tasks t).roundsCompleted (s'.sched.tasks t).remainingBurst)
    (hlook : ∀ u < s.sched.allocated, u ≠ t → SameLook (s.sched.tasks u) (s'.sched.tasks u))
    (hr : ∀ r, s'.world.round = some r → r.task ≠ t → s.world.round = some r)
    (hrt : ∀ r, s'.world.round = some r → r.task = t → ShownInRound
      (s'.sched.tasks t).roundsCompleted (s'.sched.tasks t).remainingBurst r.pc p)
    (hshell : (s'.sched.tasks t).type = .shell → ∀ word value, p = .state word value → value = -1)
    (he : ∀ u, u ≠ t → (endLogged u s'.sched.events ↔ endLogged u s.sched.events))
    (het : p = .ended ↔ endLogged t s'.sched.events) :
    Telling s' (Function.update shown t p) := by
  obtain ⟨place,hplaced⟩ := hc.sched.placed
  constructor
  · intro u
    by_cases hu : u = t
    · subst hu
      rw [Function.update_self]
      exact hp
    · rw [Function.update_of_ne hu,hn u hu]
      exact h.unseen u
  · intro u hm
    by_cases hu : u = t
    · subst hu
      rw [Function.update_self]
      exact hwt hm
    · have hold := hw u hm hu
      have hsame := hlook u (hplaced.waiting_lt hold) hu
      rw [Function.update_of_ne hu,hsame.rounds,hsame.burst]
      exact h.waiting u hold
  · intro r hround
    by_cases hu : r.task = t
    · rw [hu,Function.update_self]
      exact hrt r hround hu
    · have hold := hr r hround hu
      have hsame := hlook r.task (hc.task_lt hold) hu
      rw [Function.update_of_ne hu,hsame.rounds,hsame.burst]
      exact h.round r hold
  · intro u hlt hty word value hs
    by_cases hu : u = t
    · subst hu
      rw [Function.update_self] at hs
      exact hshell hty word value hs
    · have hold : u < s.sched.allocated := Nat.lt_of_not_le fun hle =>
        Nat.not_le.mpr hlt ((hn u hu).mpr hle)
      rw [Function.update_of_ne hu] at hs
      exact h.shell u hold ((hlook u hold hu).type ▸ hty) word value hs
  · intro u
    by_cases hu : u = t
    · subst hu
      rw [Function.update_self]
      exact het
    · rw [Function.update_of_ne hu,he u hu]
      exact h.ended u

theorem foldr_silent {tasks : TaskRef → Task} {contexts : ContextRef → TaskContext}
    (h : ∀ e ∈ new, prints e = false) :
    new.foldr (fun e console => schedulerLogger tasks contexts console e) console = console := by
  induction new with
  | nil => rfl
  | cons e new ih =>
    rw [List.foldr_cons,ih fun e he => h e (List.mem_cons_of_mem _ he)]
    have he := h e List.mem_cons_self
    unfold prints at he
    split at he <;> first | rfl | cases he

theorem endLogged_silent {events : List Event} (h : ∀ e ∈ new, prints e = false) :
    endLogged t (new ++ events) ↔ endLogged t events := by
  have hnot : ∀ e : Event, prints e = true → (e ∈ new ++ events ↔ e ∈ events) := by
    intro e he
    rw [List.mem_append]
    refine ⟨fun hm => hm.resolve_left fun hm => ?_,Or.inr⟩
    rw [h e hm] at he
    cases he
  rw [endLogged,endLogged,hnot _ rfl,hnot _ rfl]

theorem slicing_same {tasks : TaskRef → Task} {w w' : World} (h : w'.round = w.round) :
    slicing tasks w w' = none := by
  unfold slicing
  rw [h]
  cases w.round with
  | none => rfl
  | some r =>
    refine if_neg ?_
    rintro ⟨hp,hp',_⟩
    rw [hp] at hp'
    cases hp'

theorem noteLines_logged (hev : s'.sched.events = new ++ s.sched.events)
    (hs : slicing s'.sched.tasks s.world s'.world = none) : noteLines console s s' =
      new.foldr (fun e console => schedulerLogger s'.sched.tasks s.world.contexts console e)
        console := by
  simp only [noteLines,newEvents_eq hev,hs]

/-- What the console shows, as a state of the server. -/
def Told (s : State TaskLists) (console : Console) : Prop :=
  ∃ shown, Telling s shown ∧ Recorded console shown

/-- A step that prints nothing, and after which nothing else is true of any task. -/
theorem told_silent (h : Telling s shown) (hp : Recorded console shown) (hc : Consistent s)
    (hev : s'.sched.events = new ++ s.sched.events) (hnew : ∀ e ∈ new, prints e = false)
    (hn : s'.sched.allocated = s.sched.allocated)
    (hw : ∀ u ∈ s'.sched.queue.waiting, u ∈ s.sched.queue.waiting)
    (hlook : ∀ u < s.sched.allocated, SameLook (s.sched.tasks u) (s'.sched.tasks u))
    (hr : s'.world.round = s.world.round) : Told s' (noteLines console s s') := by
  obtain ⟨place,hplaced⟩ := hc.sched.placed
  rw [noteLines_logged hev (slicing_same hr),foldr_silent hnew]
  refine ⟨shown,⟨fun u => ?_,fun u hu => ?_,fun r hround => ?_,fun u hlt hty => ?_,fun u => ?_⟩,hp⟩
  · rw [hn]
    exact h.unseen u
  · have hsame := hlook u (hplaced.waiting_lt (hw u hu))
    rw [hsame.rounds,hsame.burst]
    exact h.waiting u (hw u hu)
  · rw [hr] at hround
    have hsame := hlook r.task (hc.task_lt hround)
    rw [hsame.rounds,hsame.burst]
    exact h.round r hround
  · rw [hn] at hlt
    exact h.shell u hlt ((hlook u hlt).type ▸ hty)
  · rw [hev,endLogged_silent hnew]
    exact h.ended u

end Told

section Steps
variable {s s' : State TaskLists} {a : ServerAction} {shown : TaskRef → Shown} {t : TaskRef}
  {console : Console}

/-- The record of a new task: it has a burst, unless it is a shell command. -/
theorem submit_record {s s' : System TaskLists} {request : TaskRequest}
    (he : Scheduler.step s (.submit request) = some s') :
    (s'.tasks s.allocated).roundsCompleted = 0 ∧
      ((s'.tasks s.allocated).type = .shell → (s'.tasks s.allocated).remainingBurst = -1) ∧
      ((s'.tasks s.allocated).remainingBurst = -1 ∨
        0 < (s'.tasks s.allocated).remainingBurst) := by
  have hpos := s.config.defaultProgramBurst_pos
  obtain rfl := Option.some.inj he
  have hrecord : (submittedTask s (schedulerCreateTask request)).roundsCompleted = 0 ∧
      ((submittedTask s (schedulerCreateTask request)).type = .shell →
        (submittedTask s (schedulerCreateTask request)).remainingBurst = -1) ∧
      ((submittedTask s (schedulerCreateTask request)).remainingBurst = -1 ∨
        0 < (submittedTask s (schedulerCreateTask request)).remainingBurst) := by
    unfold submittedTask
    dsimp only
    split
    · exact ⟨rfl,fun _ => rfl,Or.inl rfl⟩
    · rename_i hne
      split
      · exact ⟨rfl,fun hty => (hne hty).elim,Or.inr hpos⟩
      · rename_i hle
        exact ⟨rfl,fun hty => (hne hty).elim,Or.inr (lt_of_not_ge hle)⟩
  rw [schedulerSubmitTask_tasks,Function.update_self]
  dsimp only
  split <;> exact hrecord

/-- A submission prints that its task is created. -/
theorem submit_prints {s s' : System TaskLists} {request : TaskRequest}
    (he : Scheduler.step s (.submit request) = some s') :
    ∃ new, s'.events = new ++ s.events ∧
      (∀ contexts console, new.foldr (fun e console => schedulerLogger s'.tasks contexts console e)
        console = logTaskState s'.tasks console s.allocated .created
          (s'.tasks s.allocated).remainingBurst) ∧
      ∀ u, endLogged u (new ++ s.events) ↔ endLogged u s.events := by
  obtain rfl := Option.some.inj he
  rcases submit_log (schedulerCreateTask request) with hlog | ⟨c,_,hlog⟩
  · exact ⟨[.log .enqueue s.allocated 0],hlog,fun _ _ => rfl,fun u => by simp [endLogged]⟩
  · exact ⟨[.log .preemptRequest c 0,.log .enqueue s.allocated 0],hlog,fun _ _ => rfl,
      fun u => by simp [endLogged]⟩

theorem told_submit (h : Telling s shown) (hp : Recorded console shown) (hc : Consistent s)
    (hc' : Consistent s') {request : TaskRequest} (hr : s'.world.round = s.world.round)
    (he : Scheduler.step s.sched (.submit request) = some s'.sched) :
    Told s' (noteLines console s s') := by
  obtain ⟨hrounds,hshell,hvalue⟩ := submit_record he
  obtain ⟨new,hev,hprints,hends⟩ := submit_prints he
  have hunseen : shown s.sched.allocated = .unseen := (h.unseen _).mpr le_rfl
  have hse : s'.sched = schedulerSubmitTask s.sched (schedulerCreateTask request) :=
    (Option.some.inj he).symm
  have hn : s'.sched.allocated = s.sched.allocated + 1 := by simp [hse]
  have hlt : s.sched.allocated < s'.sched.allocated := by omega
  have hshow : showStep (shown s.sched.allocated) (s.sched.allocated,
      .state (s'.sched.tasks s.sched.allocated).clientNumber .created
        (s'.sched.tasks s.sched.allocated).remainingBurst) =
      some (.state .created (s'.sched.tasks s.sched.allocated).remainingBurst) := by
    rw [hunseen]
    exact if_pos hvalue
  rw [noteLines_logged hev (slicing_same hr),hprints]
  refine ⟨_,h.turn hc (fun u hu => ?_) ?_ (fun u hm hu => ?_) (fun _ => ?_)
    (fun u hlt _ => step_look he (by simp) (by simp) hlt) (fun r hround _ => hr ▸ hround)
    (fun r hround hrt => ?_) (fun hty word value hv => ?_) (fun u _ => hev ▸ hends u) ?_,
    hp.state (hc'.named _ hlt) hshow⟩
  · rw [hn]
    exact ⟨Nat.le_of_succ_le,fun hle => Nat.lt_of_le_of_ne hle (Ne.symm hu)⟩
  · exact ⟨(fun hc => by cases hc),fun hle => absurd hlt (Nat.not_lt.mpr hle)⟩
  · rw [hse] at hm
    simp only [schedulerSubmitTask_frame,enqueue_lists,List.mem_append,List.mem_singleton] at hm
    exact hm.resolve_right hu
  · rw [shownInQueue,if_pos hrounds]
  · rw [hr] at hround
    exact absurd (hrt ▸ hc.task_lt hround) (lt_irrefl _)
  · cases hv
    exact hshell hty
  · refine ⟨(fun hc => by cases hc),fun hl => ?_⟩
    rw [hev,hends,← h.ended,hunseen] at hl
    cases hl

/-- Another thread's step. -/
theorem told_outside (h : Telling s shown) (hp : Recorded console shown) (hc : Consistent s)
    (hc' : Consistent s') (hr : s'.world.round = s.world.round)
    (hs : s'.sched = s.sched ∨
      ∃ y, y.outside = true ∧ Scheduler.step s.sched y = some s'.sched) :
    Told s' (noteLines console s s') := by
  rcases hs with hs | ⟨y,hy,he⟩
  · exact told_silent h hp hc (show s'.sched.events = [] ++ s.sched.events by rw [hs]; rfl)
      (by simp) (by rw [hs]) (by rw [hs]; exact fun _ => id) (fun _ _ => hs ▸ ⟨rfl,rfl,rfl⟩) hr
  have hlook : y ≠ .finish → (∀ b, y ≠ .setBurst b) → ∀ u < s.sched.allocated,
      SameLook (s.sched.tasks u) (s'.sched.tasks u) := fun hf hb u hu => step_look he hf hb hu
  cases y with
  | submit request => exact told_submit h hp hc hc' hr he
  | cancel thread client =>
    obtain ⟨_,hse⟩ := step_cancel he
    obtain ⟨new,hev,hnew⟩ := cancel_events s.sched thread client
    rw [← hse] at hev
    refine told_silent h hp hc hev (fun e hm => ?_) (by rw [hse]; simp [schedulerCancelClientTasks])
      (fun u hm => ?_) (hlook (by simp) (by simp)) hr
    · obtain ⟨u,rfl⟩ := hnew e hm
      rfl
    · rw [hse] at hm
      simp only [schedulerCancelClientTasks,cancelCurrent_frame,unlinkClient_lists] at hm
      exact List.mem_of_mem_filter hm
  | free thread =>
    obtain ⟨c,_,hq,hev,ha,_⟩ := freeNext_eq he
    exact told_silent h hp hc (show s'.sched.events = [.cleanup c] ++ _ from hev)
      (by simp [prints]) ha (by rw [hq]; exact fun _ => id) (hlook (by simp) (by simp)) hr
  | requestStop =>
    have hse : s'.sched = schedulerRequestStop s.sched := (Option.some.inj he).symm
    exact told_silent h hp hc (show s'.sched.events = [] ++ _ by rw [hse]; rfl) (by simp)
      (by rw [hse]; rfl) (by rw [hse]; exact fun _ => id) (hlook (by simp) (by simp)) hr
  | _ => cases hy

end Steps

section Rounds
variable {s s' : State TaskLists} {a : ServerAction} {shown : TaskRef → Shown} {console : Console}

theorem enter_idle {s s' : System TaskLists} (he : Scheduler.step s .enter = some s')
    (hm : s'.main.task = none) : Quiet s s' := by
  cases step_stepped he with
  | quiet hq => exact hq
  | dispatch _ _ => cases hm

theorem enter_dispatch {s s' : System TaskLists} {t : TaskRef} {quantum : ℤ}
    (he : Scheduler.step s .enter = some s') (hm : s'.main = .executing t quantum) :
    s'.events = .log .dispatch t quantum :: s.events ∧
      s'.allocated = s.allocated ∧ s'.queue.waiting = s.queue.waiting.erase t := by
  obtain ⟨_,hev⟩ := step_enter_executing he hm
  cases step_stepped he with
  | quiet hq =>
    have hsame := hq.events.symm.trans hev
    exact absurd (congrArg List.length hsame) (by simp)
  | dispatch _ hd =>
    obtain ⟨_,rfl⟩ := dequeue_some hd
    cases hm
    exact ⟨hev,rfl,rfl⟩

/-- A dispatch is shown in the first round only. -/
theorem told_dispatch (h : Telling s shown) (hp : Recorded console shown) (hc : Consistent s)
    (hc' : Consistent s') {t : TaskRef} {quantum : ℤ} (hr : s.world.round = none)
    (he : Scheduler.step s.sched .enter = some s'.sched) (ht : t ∈ s.sched.queue.waiting)
    (hm : s'.sched.main = .executing t quantum)
    (hw : s'.world.round = some (newRound t t quantum)) : Told s' (noteLines console s s') := by
  obtain ⟨place,hplaced⟩ := hc.sched.placed
  obtain ⟨hev,hn,hwait⟩ := enter_dispatch he hm
  have hlt := hplaced.waiting_lt ht
  have hlook : ∀ u < s.sched.allocated, SameLook (s.sched.tasks u) (s'.sched.tasks u) :=
    fun u hu => step_look he (by simp) (by simp) hu
  have hsame := hlook t hlt
  have hshown := h.waiting t ht
  have hended : ¬ endLogged t s.sched.events := by
    rw [← h.ended,hshown]
    exact nofun
  have hlog : ∀ u, endLogged u s'.sched.events ↔ endLogged u s.sched.events := fun u => by
    rw [hev]
    simp [endLogged]
  have htelling : Telling s' (Function.update shown t (shownAtDispatch
      (s'.sched.tasks t).roundsCompleted (s'.sched.tasks t).remainingBurst)) := by
    refine h.turn hc (fun _ _ => by rw [hn]) ?_ (fun u hm _ => ?_) (fun hm => ?_)
      (fun u hu _ => hlook u hu) (fun r hround hne => ?_) (fun r hround _ => ?_)
      (fun hty word value hv => ?_) (fun u _ => hlog u) ?_
    · exact ⟨nofun,fun hle => absurd hlt (Nat.not_lt.mpr (hn ▸ hle))⟩
    · rw [hwait] at hm
      exact List.mem_of_mem_erase hm
    · rw [hwait] at hm
      exact (List.Nodup.not_mem_erase hplaced.waiting_nodup hm).elim
    · rw [hw] at hround
      exact (hne (Option.some.inj hround ▸ rfl)).elim
    · rw [hw] at hround
      exact Option.some.inj hround ▸ .beginning rfl
    · cases hv
      rw [hsame.burst]
      exact h.shell t hlt (hsame.type ▸ hty) _ _ hshown
    · exact ⟨nofun,fun hl => (hended ((hlog t).mp hl)).elim⟩
  refine ⟨_,htelling,?_⟩
  have hslicing : slicing s'.sched.tasks s.world s'.world = none := by
    simp only [slicing,hr]
  rw [noteLines_logged (show s'.sched.events = [_] ++ _ from hev) hslicing,List.foldr_cons,
    List.foldr_nil,schedulerLogger,shownAtDispatch]
  split_ifs with hfirst
  · refine hp.state (hc'.named t (hn ▸ hlt)) ?_
    rw [hshown,shownInQueue,if_pos (hsame.rounds ▸ hfirst),hsame.burst]
    exact if_pos rfl
  · rw [hsame.rounds] at hfirst
    rw [hsame.burst,← show shown t = .state .waiting (s.sched.tasks t).remainingBurst by
      rw [hshown,shownInQueue,if_neg hfirst],Function.update_eq_self]
    exact hp

/-- The end of a round: its task goes back, or is ended for one of three reasons. -/
theorem finish_ends {s s' : System TaskLists} {t : TaskRef} {quantum : ℤ} {r : TaskRunResult}
    (hm : s.main = .returned t quantum r) (he : Scheduler.step s .finish = some s') :
    s'.allocated = s.allocated ∧ (∀ u, u ≠ t → s'.tasks u = s.tasks u) ∧
      (s'.tasks t).remainingBurst = (s.tasks t).remainingBurst ∧
      (s'.tasks t).type = (s.tasks t).type ∧
      (mayRequeue (s.tasks t) r ∧ s'.events = .log .waiting t quantum :: s.events ∧
          s'.queue.waiting = s.queue.waiting ++ [t] ∧ (s'.tasks t).roundsCompleted ≠ 0 ∨
        ∃ event, (event = .cancel ∨ event = .finish ∨ event = .fail) ∧
          s'.events = .cleanup t :: .log event t 0 :: s.events ∧
          s'.queue.waiting = s.queue.waiting) := by
  obtain ⟨t',quantum',r',hm',rfl⟩ := step_finish he
  cases hm.symm.trans hm'
  rcases finish_cases s t quantum r with ⟨hr,hs⟩ | ⟨_,state,event,hs,_,hev,_⟩
  · rw [hs]
    refine ⟨rfl,fun u hu => Function.update_of_ne hu _ _,?_,?_,Or.inl ⟨hr,rfl,?_,?_⟩⟩
    · simp
    · simp
    · simp only [requeueTask_frame,enqueue_lists]
    · simp
  · rw [hs]
    refine ⟨rfl,fun u hu => Function.update_of_ne hu _ _,?_,?_,Or.inr ⟨event,hev,rfl,rfl⟩⟩
    · simp
    · simp

/-- After a round there is none, and only its task is told of. -/
theorem Telling.over (h : Telling s shown) (hc : Consistent s) {r : Round} {p : Shown}
    (hr : s.world.round = some r) (hr' : s'.world.round = none)
    (hn : s'.sched.allocated = s.sched.allocated)
    (hother : ∀ u, u ≠ r.task → s'.sched.tasks u = s.sched.tasks u)
    (hw : ∀ u ∈ s'.sched.queue.waiting, u ≠ r.task → u ∈ s.sched.queue.waiting)
    (hwt : r.task ∈ s'.sched.queue.waiting → p = shownInQueue
      (s'.sched.tasks r.task).roundsCompleted (s'.sched.tasks r.task).remainingBurst)
    (hp : p ≠ .unseen)
    (hshell : (s'.sched.tasks r.task).type = .shell →
      ∀ word value, p = .state word value → value = -1)
    (he : ∀ u, u ≠ r.task → (endLogged u s'.sched.events ↔ endLogged u s.sched.events))
    (het : p = .ended ↔ endLogged r.task s'.sched.events) :
    Telling s' (Function.update shown r.task p) := by
  have hgone : ∀ {r' : Round} {P : Prop}, s'.world.round = some r' → P := fun hround => by
    rw [hr'] at hround
    cases hround
  refine h.turn hc (fun _ _ => by rw [hn]) ⟨fun hu => (hp hu).elim,fun hge => ?_⟩ hw hwt
    (fun u _ hu => ?_) (fun _ hround _ => hgone hround) (fun _ hround _ => hgone hround) hshell he
    het
  · exact absurd (hc.task_lt hr) (Nat.not_lt.mpr (hn ▸ hge))
  · rw [hother u hu]
    exact ⟨rfl,rfl,rfl⟩

/-- A task that goes back has been shown as started or running. -/
theorem told_requeue (h : Telling s shown) (hp : Recorded console shown) (hc : Consistent s)
    (hc' : Consistent s') {r : Round} {word : StateWord} {value : ℤ}
    (hr : s.world.round = some r) (hr' : s'.world.round = none)
    (hn : s'.sched.allocated = s.sched.allocated)
    (hother : ∀ u, u ≠ r.task → s'.sched.tasks u = s.sched.tasks u)
    (hev : s'.sched.events = .log .waiting r.task r.quantum :: s.sched.events)
    (hwait : s'.sched.queue.waiting = s.sched.queue.waiting ++ [r.task])
    (hrounds : (s'.sched.tasks r.task).roundsCompleted ≠ 0)
    (hs : shown r.task = .state word value) (hword : word = .started ∨ word = .running)
    (hvalue : 0 < (s'.sched.tasks r.task).remainingBurst ∧
      (s'.sched.tasks r.task).remainingBurst ≤ value)
    (hshell : (s'.sched.tasks r.task).type = .shell → value = -1) :
    Told s' (noteLines console s s') := by
  have hlog : ∀ u, endLogged u s'.sched.events ↔ endLogged u s.sched.events := fun u => by
    rw [hev]
    simp [endLogged]
  have hslicing : slicing s'.sched.tasks s.world s'.world = none := by
    simp only [slicing,hr,hr']
  have hlt := hc.task_lt hr
  have hshow : showStep (shown r.task) (r.task,.state (s'.sched.tasks r.task).clientNumber .waiting
      (s'.sched.tasks r.task).remainingBurst) =
      some (.state .waiting (s'.sched.tasks r.task).remainingBurst) := by
    rw [hs]
    rcases hword with rfl | rfl <;> exact if_pos hvalue
  rw [noteLines_logged (show s'.sched.events = [_] ++ _ from hev) hslicing]
  refine ⟨_,h.over (p := .state .waiting (s'.sched.tasks r.task).remainingBurst) hc hr hr' hn hother
    (fun u hm hu => ?_) (fun _ => ?_) nofun (fun hty word' value' hv => ?_) (fun u _ => hlog u) ?_,
    hp.state (hc'.named r.task (hn ▸ hlt)) hshow⟩
  · rw [hwait] at hm
    exact (List.mem_append.mp hm).resolve_right fun hm => hu (List.mem_singleton.mp hm)
  · rw [shownInQueue,if_neg hrounds]
  · have hneg := hshell hty
    omega
  · refine ⟨nofun,fun hl => ?_⟩
    rw [hlog,← h.ended,hs] at hl
    cases hl

/-- A failed task is not shown any more, another one is shown as ended. -/
theorem told_ended (h : Telling s shown) (hp : Recorded console shown) (hc : Consistent s)
    {r : Round} {event : LogEvent} {word : StateWord} {value : ℤ}
    (hr : s.world.round = some r) (hr' : s'.world.round = none)
    (hn : s'.sched.allocated = s.sched.allocated)
    (hother : ∀ u, u ≠ r.task → s'.sched.tasks u = s.sched.tasks u)
    (hevent : event = .cancel ∨ event = .finish ∨ event = .fail)
    (hev : s'.sched.events = .cleanup r.task :: .log event r.task 0 :: s.sched.events)
    (hwait : s'.sched.queue.waiting = s.sched.queue.waiting)
    (hs : shown r.task = .state word value) (hword : word ≠ .created)
    (hvalue : (s'.sched.tasks r.task).remainingBurst ≤ value)
    (hshell : (s'.sched.tasks r.task).type = .shell → value = -1) :
    Told s' (noteLines console s s') := by
  have hslicing : slicing s'.sched.tasks s.world s'.world = none := by
    simp only [slicing,hr,hr']
  have hnot : ¬ endLogged r.task s.sched.events := by
    rw [← h.ended,hs]
    exact nofun
  have hqueue : ∀ {P : Prop}, r.task ∈ s'.sched.queue.waiting → P := fun hm =>
    (hc.not_waiting hr (hwait ▸ hm)).elim
  rw [noteLines_logged (show s'.sched.events = [_,_] ++ _ from hev) hslicing]
  by_cases hfail : event = .fail
  · subst hfail
    have hlog : ∀ u, endLogged u s'.sched.events ↔ endLogged u s.sched.events := fun u => by
      rw [hev]
      simp [endLogged]
    refine ⟨shown,?_,hp⟩
    rw [← Function.update_eq_self r.task shown,hs]
    refine h.over hc hr hr' hn hother (fun u hm _ => hwait ▸ hm) hqueue nofun
      (fun hty word' value' hv => ?_) (fun u _ => hlog u)
      ⟨nofun,fun hl => (hnot ((hlog _).mp hl)).elim⟩
    cases hv
    exact hshell hty
  · have hlogger : [Event.cleanup r.task,.log event r.task 0].foldr
        (fun e console => schedulerLogger s'.sched.tasks s.world.contexts console e) console =
        logSentAndEnded s'.sched.tasks s.world.contexts console r.task := by
      rcases hevent with rfl | rfl | rfl
      · rfl
      · rfl
      · exact (hfail rfl).elim
    have hended : endedValue (s'.sched.tasks r.task) ≤ value := by
      rw [endedValue]
      split_ifs with hty
      · exact (hshell hty).ge
      · exact hvalue
    have hshow : showStep (shown r.task) (r.task,.sentAndEnded
        (s'.sched.tasks r.task).clientNumber (endedValue (s'.sched.tasks r.task))
        (bytesSent s.world.contexts (s'.sched.tasks r.task))) = some .ended := by
      rw [hs]
      cases word <;> first | exact (hword rfl).elim | exact if_pos ⟨nofun,hended⟩
    rw [hlogger]
    refine ⟨_,h.over (p := .ended) hc hr hr' hn hother (fun u hm _ => hwait ▸ hm) hqueue nofun nofun
      (fun u hu => ?_) ⟨fun _ => ?_,fun _ => rfl⟩,hp.ended hshow⟩
    · rw [hev]
      simp [endLogged,hu]
    · rw [hev]
      rcases hevent with rfl | rfl | rfl
      · exact Or.inr (by simp)
      · exact Or.inl (by simp)
      · exact (hfail rfl).elim

theorem told_finish (h : Telling s shown) (hp : Recorded console shown) (hc : Consistent s)
    (hc' : Consistent s') {r : Round} {exit : Exit} (hr : s.world.round = some r)
    (hpc : r.pc = .returned exit) (he : Scheduler.step s.sched .finish = some s'.sched)
    (hr' : s'.world.round = none) : Told s' (noteLines console s s') := by
  have hmain : s.sched.main = .returned r.task r.quantum (exitResult exit) := by
    rw [(hc.running r hr).1,mainOf,hpc]
  obtain ⟨hn,hother,hburst,htype,hends⟩ := finish_ends hmain he
  have hround := h.round r hr
  rw [hpc] at hround
  cases hs : shown r.task with
  | unseen | ended =>
    obtain ⟨_,_,hv,_⟩ := hround.shown
    cases hs.symm.trans hv
  | state word value =>
    have hshell : (s'.sched.tasks r.task).type = .shell → value = -1 :=
      fun hty => h.shell r.task (hc.task_lt hr) (htype ▸ hty) word value hs
    obtain ⟨_,_,hv,_,hcreated⟩ := hround.shown
    cases hs.symm.trans hv
    rw [hs] at hround
    cases hround with
    | beginning hb => cases hb
    | slice _ hle _ hword =>
      rw [← hburst] at hle
      rcases hends with ⟨hreq,hev,hwait,hrounds⟩ | ⟨event,hevent,hev,hwait⟩
      · have hleaves : (ExecutorPc.returned exit).leaves = false := by
          simp [ExecutorPc.leaves,hreq.1]
        have hgoes : word = .started ∨ word = .running := by
          rcases hword with hword | hword | ⟨_,hl⟩
          · exact Or.inl hword
          · exact Or.inr hword
          · rw [hleaves] at hl
            cases hl
        exact told_requeue h hp hc hc' hr hr' hn hother hev hwait hrounds hs hgoes
          ⟨hburst ▸ hreq.2.2,hle⟩ hshell
      · exact told_ended h hp hc hr hr' hn hother hevent hev hwait hs hcreated hle hshell

end Rounds

section Runs
variable {s s' : State TaskLists} {a : ServerAction} {shown : TaskRef → Shown} {console : Console}

/-- What a move of the executor leaves alone in the scheduler. -/
structure SchedKept (r : Round) (s s' : System TaskLists) : Prop where
  events : s'.events = s.events
  allocated : s'.allocated = s.allocated
  waiting : s'.queue.waiting = s.queue.waiting
  other : ∀ u, u ≠ r.task → s'.tasks u = s.tasks u
  rounds : (s'.tasks r.task).roundsCompleted = (s.tasks r.task).roundsCompleted
  type : (s'.tasks r.task).type = (s.tasks r.task).type

theorem moved_kept {r : Round} {i : Input} {m : Move} (hc : Consistent s)
    (hr : s.world.round = some r) (hm : Moved (view s.sched.toCore s.world r) r i m)
    (hs : m.action = none ∧ s'.sched = s.sched ∨
      ∃ y, m.action = some y ∧ Scheduler.step s.sched y = some s'.sched) :
    SchedKept r s.sched s'.sched := by
  rcases hs with ⟨_,hs⟩ | ⟨y,hy,hs⟩
  · rw [hs]
    exact ⟨rfl,rfl,rfl,fun _ _ => rfl,rfl,rfl⟩
  rcases shift_main hm.shift with ⟨_,_,hx | ⟨b,hx⟩⟩ | ⟨exit,_,_,hx⟩
  · rw [hy] at hx
    cases hx
  · obtain rfl := Option.some.inj (hy.symm.trans hx)
    obtain ⟨t,quantum,hmain,hse⟩ := step_setBurst hs
    obtain rfl : r.task = t := by
      have htask := congrArg MainThread.task ((hc.running r hr).1.symm.trans hmain)
      rw [mainOf_task] at htask
      exact Option.some.inj htask
    rw [hse]
    exact ⟨rfl,rfl,rfl,fun u hu => Function.update_of_ne hu _ _,by simp [setTask],by simp [setTask]⟩
  · obtain rfl := Option.some.inj (hy.symm.trans hx)
    obtain ⟨t,quantum,_,hse⟩ := step_result hs
    rw [hse]
    exact ⟨rfl,rfl,rfl,fun _ _ => rfl,rfl,rfl⟩

/-- The executor prints that a later round has begun to run. -/
theorem told_exec (h : Telling s shown) (hp : Recorded console shown) (hc : Consistent s)
    (hc' : Consistent s') {r : Round} {i : Input} {m : Move} (hr : s.world.round = some r)
    (hm : Moved (view s.sched.toCore s.world r) r i m) (hw : s'.world = applyMove s.world m)
    (hs : m.action = none ∧ s'.sched = s.sched ∨
      ∃ y, m.action = some y ∧ Scheduler.step s.sched y = some s'.sched) :
    Told s' (noteLines console s s') := by
  have hkept := moved_kept hc hr hm hs
  have hlt := hc.task_lt hr
  have hburst := moved_burst (by rw [(hc.running r hr).1,mainOf_task]) hlt hs
  have hround := h.round r hr
  have hround' : s'.world.round = some m.round := by
    rw [hw]
    rfl
  have hcurrent : ∀ r', s'.world.round = some r' → r' = m.round := fun r' hr' =>
    Option.some.inj (hr'.symm.trans hround')
  have hstate : ∃ word value, shown r.task = .state word value := by
    obtain ⟨word,value,hv,_⟩ := hround.shown
    exact ⟨word,value,hv⟩
  have hnot : ¬ endLogged r.task s.sched.events := by
    obtain ⟨word,value,hv⟩ := hstate
    rw [← h.ended,hv]
    exact nofun
  have hturn : ∀ (word : StateWord) (value : ℤ),
      ShownInRound (s'.sched.tasks r.task).roundsCompleted (s'.sched.tasks r.task).remainingBurst
        m.round.pc (.state word value) →
      ((s'.sched.tasks r.task).type = .shell → value = -1) →
      Telling s' (Function.update shown r.task (.state word value)) := by
    intro word value hin hshell
    refine h.turn (p := .state word value) hc (fun _ _ => by rw [hkept.allocated]) ?_
      (fun u hu _ => hkept.waiting ▸ hu) (fun hu => ?_) (fun u _ hu => ?_)
      (fun r' hr' hne => ?_) (fun r' hr' _ => ?_) (fun hty word' value' hv => ?_)
      (fun u _ => by rw [hkept.events]) ?_
    · exact ⟨nofun,fun hge => absurd hlt (Nat.not_lt.mpr (hkept.allocated ▸ hge))⟩
    · exact (hc.not_waiting hr (hkept.waiting ▸ hu)).elim
    · rw [hkept.other u hu]
      exact ⟨rfl,rfl,rfl⟩
    · rw [hcurrent r' hr',hm.task] at hne
      exact (hne rfl).elim
    · rw [hcurrent r' hr']
      exact hin
    · cases hv
      exact hshell hty
    · exact ⟨nofun,fun hl => (hnot (hkept.events ▸ hl)).elim⟩
  have hlogged : ∀ slice, slicing s'.sched.tasks s.world s'.world = slice →
      noteLines console s s' = match slice with
        | some t => logTaskState s'.sched.tasks console t .running (s'.sched.tasks t).remainingBurst
        | none => console := by
    rintro slice rfl
    simp only [noteLines,newEvents_eq (show s'.sched.events = [] ++ _ from hkept.events),
      List.foldr_nil]
  have hslice : slicing s'.sched.tasks s.world s'.world =
      if r.pc = .program ∧ m.round.pc = .loopTest ∧ 0 < (s.sched.tasks r.task).roundsCompleted then
        some r.task else none := by
    simp only [slicing,hr,hround',hkept.rounds]
  by_cases hbegins : r.pc = .program ∧ m.round.pc = .loopTest ∧
      0 < (s.sched.tasks r.task).roundsCompleted
  · rw [if_pos hbegins] at hslice
    obtain ⟨hpc,hpc',hpos⟩ := hbegins
    have hquiet := (shift_begins hm.shift (by rw [hpc]; rfl)).1
    rw [hquiet] at hburst
    have hshown : shown r.task = .state .waiting (s.sched.tasks r.task).remainingBurst := by
      generalize shown r.task = p at hround
      cases hround with
      | beginning _ => rw [shownAtDispatch,if_neg hpos.ne']
      | slice hb _ _ _ =>
        rw [hpc] at hb
        cases hb
    rw [hlogged _ hslice]
    refine ⟨_,hturn .running (s'.sched.tasks r.task).remainingBurst ?_ ?_,
      hp.state (hc'.named r.task (hkept.allocated ▸ hlt)) ?_⟩
    · rw [hpc']
      exact .slice rfl le_rfl nofun (Or.inr (Or.inl rfl))
    · intro hty
      rw [hburst]
      exact h.shell r.task hlt (hkept.type ▸ hty) _ _ hshown
    · rw [hshown]
      exact if_pos hburst
  · rw [if_neg hbegins] at hslice
    rw [hlogged _ hslice]
    obtain ⟨word,value,hv⟩ := hstate
    refine ⟨shown,?_,hp⟩
    rw [← Function.update_eq_self r.task shown,hv]
    refine hturn word value ?_ fun hty => h.shell r.task hlt (hkept.type ▸ hty) word value hv
    rw [hkept.rounds,hburst,← hv]
    exact hround.shift hm.shift hbegins

theorem told_step (h : Told s console) (hc : Consistent s) (he : serverStep s a = some s') :
    Told s' (noteLines console s s') := by
  have hc' := step_consistent hc he
  obtain ⟨shown,ht,hp⟩ := h
  cases serverStep_shape hc he with
  | outside _ hw hs =>
    exact told_outside ht hp hc hc' hw.round (hs.imp id fun ⟨y,hy,_,hs⟩ => ⟨y,hy,hs⟩)
  | exec hr hm hw hs => exact told_exec ht hp hc hc' hr hm hw hs
  | idle hr hs hmain hw =>
    have hq := enter_idle hs hmain
    exact told_silent ht hp hc (show s'.sched.events = [] ++ _ from hq.events) (by simp)
      hq.allocated (by rw [hq.queue_eq]; exact fun _ => id)
      (fun u hu => step_look hs (by simp) (by simp) hu) (by rw [hw])
  | dispatch hr hs hwait hmain _ hw =>
    exact told_dispatch ht hp hc hc' hr hs hwait hmain (by rw [hw]; rfl)
  | finish hr hpc hs _ hr' _ => exact told_finish ht hp hc hc' hr hpc hs hr'

theorem reaches_told {s : State TaskLists}
    (h : Reaches (Fires (withHistory serverStep noteLines)) (serverInit TaskLists,silentConsole)
      (s,console)) : Consistent s ∧ Told s console := by
  have hrun := h.invariant (P := fun u => Consistent u.1 ∧ Told u.1 u.2)
    (fun u a v ⟨hc,ht⟩ he => by
      obtain ⟨hs,hn⟩ := fires_withHistory he
      rw [hn]
      exact ⟨step_consistent hc hs,told_step ht hc hs⟩)
    ⟨consistent_init,_,telling_init,recorded_silent⟩
  exact hrun

/-- The console is a matter of what both servers have in common. -/
theorem console_refines {c : State TaskLinks}
    (h : Reaches (Fires (withHistory serverStep noteLines)) (serverInit TaskLinks,silentConsole)
      (c,console)) :
    ∃ l : State TaskLists, Reaches (Fires (withHistory serverStep noteLines))
      (serverInit TaskLists,silentConsole) (l,console) ∧ ServerRefines c l := by
  obtain ⟨as,hrun⟩ := h
  have hS : ∀ (s : State TaskLinks × Console) (x : ServerAction) (s' : State TaskLinks × Console)
      (l : State TaskLists × Console), (ServerRefines s.1 l.1 ∧ s.2 = l.2) →
      Fires (withHistory serverStep noteLines) s x s' →
        ∃ l', Fires (withHistory serverStep noteLines) l x l' ∧
          ServerRefines s'.1 l'.1 ∧ s'.2 = l'.2 := by
    rintro ⟨s,console⟩ x ⟨s',console'⟩ ⟨l,_⟩ ⟨hr,rfl⟩ he
    replace hr : ServerRefines s l := hr
    obtain ⟨hs,hn⟩ := fires_withHistory he
    obtain ⟨l',hl,hr'⟩ := serverStep_refines hr hs
    refine ⟨(l',noteLines console l l'),?_,hr',hn.trans ?_⟩
    · simp only [Fires,withHistory,hl,Option.map_some]
    · show noteLines console s s' = noteLines console l l'
      simp only [noteLines]
      rw [hr.sched.core,hr.world,show s'.world = l'.world from hr'.world,
        show s'.sched.toCore = l'.sched.toCore from hr'.sched.core]
  obtain ⟨⟨l,_⟩,hl,hr,rfl⟩ :=
    hrun.simulate (t := (serverInit TaskLists,silentConsole)) hS ⟨serverRefines_init,rfl⟩
  exact ⟨l,⟨as,hl⟩,hr⟩

/-- What has been shown of a task last, from where the scheduler has it. -/
structure Displays (s : State TaskLinks) (t : TaskRef) (p : Shown) : Prop where
  unseen : p = .unseen ↔ s.sched.allocated ≤ t
  waiting : InPlace s.sched t .waiting → p =
    shownInQueue (s.sched.tasks t).roundsCompleted (s.sched.tasks t).remainingBurst
  current : s.sched.currentTask = some t → ∃ word value, p = .state word value ∧
    (s.sched.tasks t).remainingBurst ≤ value ∧ word ≠ .created
  /-- A task that fails, and one that is taken out of the queue, is never shown as ended. -/
  ended : p = .ended ↔ endLogged t s.sched.events

/-- In every run: no line is suppressed, and the lines about each task, in their order, tell its
life as far as it has gone. -/
theorem console_displays {s : State TaskLinks}
    (h : Reaches (Fires (withHistory serverStep noteLines)) (serverInit TaskLinks,silentConsole)
      (s,console)) : console.suppressed = 0 ∧ ∀ t, ∃ p,
        replay showStep .unseen (journal Prod.fst t console.lines) = some p ∧ Displays s t p := by
  obtain ⟨l,hl,hr⟩ := console_refines h
  obtain ⟨hc,shown,ht,hp⟩ := reaches_told hl
  obtain ⟨place,hplaced⟩ := hc.sched.placed
  refine ⟨hp.suppressed,fun t => ⟨shown t,hp.kept t,?_,fun hwait => ?_,fun hcur => ?_,?_⟩⟩
  · rw [hr.sched.core]
    exact ht.unseen t
  · rw [hr.sched.core]
    refine ht.waiting t ((hplaced.waiting_iff t).mpr ?_)
    exact (hr.sched.inPlace_iff hplaced t .waiting).mp hwait
  · rw [hr.sched.core] at hcur ⊢
    cases hround : l.world.round with
    | none =>
      have hidle := hc.idle hround
      rw [hc.sched.counted.main_task,hcur] at hidle
      cases hidle
    | some r =>
      obtain rfl : r.task = t := Option.some.inj ((hc.current hround).symm.trans hcur)
      exact (ht.round r hround).shown
  · rw [hr.sched.core]
    exact ht.ended t

/-- A demo of five seconds loses the processor to a shell command, and exits in its second
round. -/
def resumedDemo : List ServerAction :=
  [.accept 4,.request 0 (.program "./demo 5".toList ["./demo".toList,"5".toList] 5),.enter,
   .exec .go,.exec (.started true),.accept 5,.request 1 (.shell "ls".toList),.exec .go,
   .exec .go,.exec .readAgain,.exec .go,.exec .go,.exec .go,.exec .readAgain,.exec .go,.exec .go,
   .exec .go,.finish,.enter,.exec .go,.exec (.shellRun true false (some "a".toList) true),
   .exec .go,.exec .go,.finish,.enter,.exec .go,.exec (.resumed true),.exec .go,.childExit 1,
   .exec .go,.exec .readEof,.exec .go,.exec .go,.exec .go,.exec .go,.exec .go,.exec .go,.exec .go,
   .finish]

theorem console_displays_resumedDemo : ∃ (s : State TaskLinks) (console : Console),
    exec (withHistory serverStep noteLines) (serverInit TaskLinks,silentConsole) resumedDemo =
      some (s,console) ∧
    (console.suppressed = 0 ∧ ∀ t, ∃ p,
      replay showStep .unseen (journal Prod.fst t console.lines) = some p ∧ Displays s t p) ∧
    (journal Prod.fst 0 console.lines).reverse.map Prod.snd =
      [.state 1 .created 5,.state 1 .started 5,.state 1 .waiting 4,.state 1 .running 4,
        .sentAndEnded 1 0 0] := by
  obtain ⟨⟨s,console⟩,he⟩ := Option.isSome_iff_exists.mp (show (exec
    (withHistory serverStep noteLines) (serverInit TaskLinks,silentConsole) resumedDemo).isSome =
      true from rfl)
  refine ⟨s,console,he,console_displays (reaches_of_exec he),?_⟩
  cases he
  rfl

end Runs

end UnixShell.Server
