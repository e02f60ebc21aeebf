import Mathlib.Algebra.Order.BigOperators.Group.List
import Mathlib.Algebra.Order.Ring.Nat
import UnixShell.Scheduler.Preemption

/-! # Draining

Without new submissions each dispatch is paid for by the bursts that wait: a shell task
runs once, and a program comes back with less than it had. The scheduler thread pays for
its other steps with the signals that are left, so it comes to rest, and then nothing waits.
-/
namespace UnixShell.Scheduler
open Foundation TaskQueue

section Measures
variable (tasks : TaskRef → Task)

/-- The dispatches that a waiting task can take. -/
def share (t : TaskRef) : ℕ := (max 1 (tasks t).remainingBurst).toNat

def potential (waiting : List TaskRef) : ℕ := (waiting.map (share tasks)).sum

variable {tasks}

theorem potential_congr {tasks' : TaskRef → Task} {waiting : List TaskRef}
    (h : ∀ t ∈ waiting, (tasks' t).remainingBurst = (tasks t).remainingBurst) :
    potential tasks' waiting = potential tasks waiting := by
  unfold potential
  congr 1
  apply List.map_congr_left
  intro t ht
  rw [share,share,h t ht]

theorem potential_sublist {ws ws' : List TaskRef} (h : ws'.Sublist ws) :
    potential tasks ws' ≤ potential tasks ws :=
  (h.map (share tasks)).sum_le_sum fun _ _ => Nat.zero_le _

theorem potential_erase (tasks : TaskRef → Task) {ws : List TaskRef} {t : TaskRef} (h : t ∈ ws) :
    potential tasks (ws.erase t) + share tasks t = potential tasks ws := by
  have hperm := (List.perm_cons_erase h).map (share tasks)
  have hsum := hperm.sum_eq
  rw [List.map_cons,List.sum_cons] at hsum
  unfold potential
  omega

theorem potential_append_singleton {ws : List TaskRef} {t : TaskRef} :
    potential tasks (ws ++ [t]) = potential tasks ws + share tasks t := by
  simp [potential]

end Measures

/-- A step of the scheduler thread itself; the stores of the executor come in between. -/
def Action.ofThread : Action → Bool
  | .enter | .result _ | .finish => true
  | _ => false

/-- The thread waits for a signal that was not sent, or has left its loop. -/
def MainThread.AtRest : MainThread → Prop
  | .blocked false | .exited => True
  | _ => False

/-- `n`, or the burst of the task that the step dispatches. -/
def noteBurst (n : ℤ) (s s' : Core) : ℤ :=
  match s.main.task, s'.main with
  | none, .executing t _ => (s'.tasks t).remainingBurst
  | _, _ => n

/-- Nothing is submitted, and a program's round that asks for another one has lowered its
burst below `n`, where the round began. -/
def Drained (s : Core) (n : ℤ) : Action → Prop
  | .submit _ => False
  | .setBurst remaining => KeepsShellBurst s (.setBurst remaining)
  | .result .requeue =>
    ∀ t ∈ s.main.task, (s.tasks t).type = .program → (s.tasks t).remainingBurst < n
  | _ => True

/-- What the round in progress can put back. -/
def carried (s : Core) (n : ℤ) : ℕ :=
  match s.main with
  | .executing t _ => if (s.tasks t).type = .program then (n-1).toNat else 0
  | .returned t _ r => if mayRequeue (s.tasks t) r then (s.tasks t).remainingBurst.toNat else 0
  | _ => 0

def MainThread.phase : MainThread → ℕ
  | .executing .. => 5
  | .returned .. => 4
  | .top | .blocked true => 1
  | .blocked false | .exited => 0

section Lists
variable {s s' : System TaskLists} {x : Action} {n : ℤ}

def debt (s : System TaskLists) (n : ℤ) : ℕ :=
  potential s.tasks s.queue.waiting + carried s.toCore n

/-- Four steps for a dispatch to come, two for a signal, and the rest of the turn. -/
def weight (s : System TaskLists) (n : ℤ) : ℕ :=
  4*debt s n+2*s.queuedSignalCount+s.main.phase

/-- What a step takes from the debt and from the weight. -/
structure Spends (s s' : System TaskLists) (n : ℤ) (x : Action) : Prop where
  debt : debt s' (noteBurst n s.toCore s'.toCore) + dispatches s'.events ≤
    debt s n + dispatches s.events
  weight : ¬ s.main.AtRest → weight s' (noteBurst n s.toCore s'.toCore) +
    (if x.ofThread then 1 else 0) ≤ weight s n

theorem waiting_burst (hi : Invariant s) (he : step s x = some s') {t : TaskRef}
    (ht : t ∈ s.queue.waiting) : (s'.tasks t).remainingBurst = (s.tasks t).remainingBurst := by
  obtain ⟨place,hp⟩ := hi.placed
  rcases step_remainingBurst he (hp.waiting_lt ht) with hb | ⟨r,quantum,_,hm,_⟩
  · exact hb
  · have hc : s.currentTask = some t := by rw [← hi.counted.main_task,hm]; rfl
    exact absurd ht (hp.current_not_waiting hc)

theorem noteBurst_of_main {c c' : Core} (hm : c'.main = c.main) : noteBurst n c c' = n := by
  unfold noteBurst
  rw [hm]
  cases c.main <;> rfl

/-- While the thread stays where it is, its task can only lose the right to another round. -/
theorem carried_aside (hi : Invariant s) (he : step s x = some s') (hm : s'.main = s.main) :
    carried s'.toCore n ≤ carried s.toCore n := by
  obtain ⟨place,hp⟩ := hi.placed
  have hlt : ∀ t, s.main.task = some t → t < s.allocated := by
    intro t ht
    exact hp.current_lt (hi.counted.main_task ▸ ht)
  unfold carried
  rw [hm]
  cases hmain : s.main with
  | executing t quantum =>
    have hcontinues := step_continues he (hlt t (by rw [hmain]; rfl))
    simp only [hcontinues.type]
    exact le_rfl
  | returned t quantum r =>
    have ht := hlt t (by rw [hmain]; rfl)
    have hcontinues := step_continues he ht
    have hburst : (s'.tasks t).remainingBurst = (s.tasks t).remainingBurst := by
      rcases step_remainingBurst he ht with hb | ⟨_,_,_,hexec,_⟩
      · exact hb
      · rw [hmain] at hexec
        cases hexec
    simp only [hburst]
    by_cases hr : mayRequeue (s'.tasks t) r
    · have hr' : mayRequeue (s.tasks t) r := by
        refine ⟨hr.1,?_,hburst ▸ hr.2.2⟩
        by_contra hc
        have := hcontinues.cancelRequested (by simpa using hc)
        rw [hr.2.1] at this
        cases this
      rw [if_pos hr,if_pos hr']
    · rw [if_neg hr]
      exact Nat.zero_le _
  | _ => exact le_rfl

/-- The thread stays where it is, and nothing new waits. -/
theorem Spends.aside (hi : Invariant s) (he : step s x = some s')
    (hw : s'.queue.waiting.Sublist s.queue.waiting) (hm : s'.main = s.main)
    (hs : s'.queuedSignalCount = s.queuedSignalCount)
    (hd : dispatches s'.events = dispatches s.events) (hx : x.ofThread = false) :
    Spends s s' n x := by
  have hnote : noteBurst n s.toCore s'.toCore = n := noteBurst_of_main hm
  have hpotential : potential s'.tasks s'.queue.waiting ≤ potential s.tasks s.queue.waiting := by
    rw [potential_congr fun t ht => waiting_burst hi he (hw.subset ht)]
    exact potential_sublist hw
  have hcarried : carried s'.toCore n ≤ carried s.toCore n := carried_aside hi he hm
  have hdebt : Scheduler.debt s' n ≤ Scheduler.debt s n := Nat.add_le_add hpotential hcarried
  constructor
  · rw [hnote,hd]
    omega
  · intro _
    rw [hnote,hx]
    simp only [Scheduler.weight,hm,hs]
    simp
    omega

theorem dispatches_append (new : List Event) {events : List Event}
    (h : ∀ e ∈ new, Event.dispatched e = none) :
    dispatches (new ++ events) = dispatches events := by
  have hzero : new.countP (fun e => (Event.dispatched e).isSome) = 0 :=
    List.countP_eq_zero.mpr fun e he => by simp [h e he]
  rw [dispatches,List.countP_append,hzero,Nat.zero_add]
  rfl

theorem carried_of_task_eq_none {c : Core} (h : c.main.task = none) : carried c n = 0 := by
  unfold carried
  cases hm : c.main with
  | executing t quantum =>
    rw [hm] at h
    cases h
  | returned t quantum r =>
    rw [hm] at h
    cases h
  | _ => rfl

theorem noteBurst_of_task {c c' : Core} (h : c.main.task ≠ none ∨ c'.main.task = none) :
    noteBurst n c c' = n := by
  unfold noteBurst
  split
  · rename_i hc hc'
    rw [hc,hc'] at h
    simp [MainThread.task] at h
  · rfl

theorem phase_of_task_eq_none {m : MainThread} (h : m.task = none) (hrest : ¬ m.AtRest) :
    m.phase = 1 := by
  cases m with
  | top => rfl
  | blocked signalled =>
    cases signalled with
    | true => rfl
    | false => exact (hrest trivial).elim
  | exited => exact (hrest trivial).elim
  | executing t quantum => cases h
  | returned t quantum r => cases h

/-- A dispatch is paid for by the task's own share. -/
theorem dispatch_spends (hn : s.main.task = none) {t : TaskRef} {quantum : ℤ}
    (ht : t ∈ s.queue.waiting) (hsig : s'.queuedSignalCount + 1 = s.queuedSignalCount)
    (hq : s'.queue.waiting = s.queue.waiting.erase t) (hm : s'.main = .executing t quantum)
    (hev : s'.events = .log .dispatch t quantum :: s.events)
    (hb : ∀ u, (s'.tasks u).remainingBurst = (s.tasks u).remainingBurst) :
    Spends s s' n .enter := by
  have hnote : noteBurst n s.toCore s'.toCore = (s.tasks t).remainingBurst := by
    simp only [noteBurst,hn,hm,hb]
  have hdispatches : dispatches s'.events = dispatches s.events + 1 := by
    rw [hev]
    exact List.countP_cons_of_pos rfl
  have hdebt : debt s' (s.tasks t).remainingBurst + 1 ≤ debt s n := by
    have hpotential := potential_erase s.tasks ht
    have hshare : share s.tasks t = (max 1 (s.tasks t).remainingBurst).toNat := rfl
    have hleft : potential s'.tasks s'.queue.waiting =
        potential s.tasks (s.queue.waiting.erase t) := by
      rw [hq]
      exact potential_congr fun u _ => hb u
    simp only [debt,hleft,carried,hm]
    split_ifs <;> omega
  constructor
  · rw [hnote,hdispatches]
    omega
  · intro hrest
    have hphase := phase_of_task_eq_none hn hrest
    rw [hnote]
    simp only [weight,hm,MainThread.phase,Action.ofThread,if_true] at *
    omega

/-- A turn of the loop that dispatches nothing. -/
theorem turn_spends {s' : System TaskLists} (hn : s.main.task = none) (hn' : s'.main.task = none)
    (ht : s'.tasks = s.tasks) (hq : s'.queue = s.queue) (hev : s'.events = s.events)
    (hw : 2*s'.queuedSignalCount+s'.main.phase+1 ≤ 2*s.queuedSignalCount+1) :
    Spends s s' n .enter := by
  have hnote : noteBurst n s.toCore s'.toCore = n := noteBurst_of_task (Or.inr hn')
  have hdebt : debt s' n = debt s n := by
    simp only [debt,carried_of_task_eq_none hn,carried_of_task_eq_none hn',ht,hq]
  constructor
  · rw [hnote,hdebt,hev]
  · intro hrest
    have hp := phase_of_task_eq_none hn hrest
    rw [hnote]
    simp only [weight,hdebt,Action.ofThread,if_true]
    omega

theorem enter_spends (hn : s.main.task = none) : Spends s (schedulerMainEnter s) n .enter := by
  rcases enter_cases s with ⟨hz,hx,he⟩ | ⟨hx,he⟩ | ⟨hz,hx,q,hd,he⟩ | ⟨hz,hx,t,q,hd,he⟩
  · rw [he]
    apply turn_spends hn
    · rfl
    · rfl
    · rfl
    · rfl
    · simp [MainThread.phase]
  · rw [he]
    apply turn_spends hn
    · rfl
    · rfl
    · rfl
    · rfl
    · simp only [MainThread.phase]
      omega
  · obtain ⟨rfl,_⟩ := dequeue_none hd
    rw [he]
    apply turn_spends hn
    · rfl
    · rfl
    · rfl
    · rfl
    · simp only [MainThread.phase]
      omega
  · obtain ⟨ht,rfl⟩ := dequeue_some hd
    rw [he]
    apply dispatch_spends hn (nextTask_mem ht)
    · simp only [dispatchTask_frame]
      omega
    · rfl
    · rfl
    · rfl
    · intro u
      exact field_update Task.remainingBurst rfl

/-- A round that is sent back takes along what it carried. -/
theorem finish_spends {t : TaskRef} {quantum : ℤ} {r : TaskRunResult}
    (hm : s.main = .returned t quantum r) :
    Spends s (schedulerMainFinish s t quantum r) n .finish := by
  have hnote : noteBurst n s.toCore (schedulerMainFinish s t quantum r).toCore = n := by
    apply noteBurst_of_task
    left
    simp [hm,MainThread.task]
  have hcarried : carried s.toCore n =
      if mayRequeue (s.tasks t) r then (s.tasks t).remainingBurst.toNat else 0 := by
    simp only [carried,hm]
  rcases finish_cases s t quantum r with ⟨hr,he⟩ | ⟨hr,state,event,he,_,hev,_⟩
  · rw [he] at hnote ⊢
    have hpos := hr.2.2
    have hb : ∀ u, ((requeueTask { s with currentTask := none, main := .top } t
        quantum).tasks u).remainingBurst = (s.tasks u).remainingBurst := by
      intro u
      exact field_update Task.remainingBurst rfl
    have hdebt : debt (requeueTask { s with currentTask := none, main := .top } t quantum) n =
        debt s n := by
      have hshare : share s.tasks t = (max 1 (s.tasks t).remainingBurst).toNat := rfl
      have hleft : potential (requeueTask { s with currentTask := none, main := .top } t
          quantum).tasks (s.queue.waiting ++ [t]) =
            potential s.tasks s.queue.waiting + share s.tasks t := by
        rw [← potential_append_singleton]
        apply potential_congr
        intro u _
        exact hb u
      have hnone : carried (requeueTask { s with currentTask := none, main := .top } t
          quantum).toCore n = 0 := carried_of_task_eq_none rfl
      rw [debt,debt,hnone,hcarried,if_pos hr]
      simp only [requeueTask_frame,enqueue_lists] at hleft ⊢
      omega
    constructor
    · rw [hnote,hdebt]
      apply Nat.add_le_add_left
      apply Nat.le_of_eq
      apply dispatches_append [.log .waiting t quantum]
      simp [Event.dispatched]
    · intro _
      rw [hnote]
      simp only [weight,hdebt,hm,requeueTask_frame,MainThread.phase,Action.ofThread,if_true]
      omega
  · rw [he] at hnote ⊢
    have hdebt : debt (finalizeTask { s with currentTask := none, main := .top } t state event) n ≤
        debt s n := by
      have hleft : potential (finalizeTask { s with currentTask := none, main := .top } t state
          event).tasks s.queue.waiting = potential s.tasks s.queue.waiting := by
        apply potential_congr
        intro u _
        exact field_update Task.remainingBurst rfl
      simp only [debt,finalizeTask_frame] at hleft ⊢
      rw [hleft]
      simp [carried]
    constructor
    · rw [hnote]
      apply Nat.add_le_add hdebt
      apply Nat.le_of_eq
      apply dispatches_append [.cleanup t,.log event t 0]
      rcases hev with rfl | rfl | rfl <;> simp [Event.dispatched]
    · intro _
      rw [hnote]
      simp only [weight,hm,finalizeTask_frame,MainThread.phase,Action.ofThread,if_true]
      omega

/-- A round that returns gives up what it did not ask to put back. -/
theorem result_spends (hi : Invariant s) (ho : ShellOrder s) {t : TaskRef} {quantum : ℤ}
    {r : TaskRunResult} (hm : s.main = .executing t quantum)
    (hok : Drained s.toCore n (.result r)) :
    Spends s { s with main := .returned t quantum r } n (.result r) := by
  have hnote : noteBurst n s.toCore ({ s with main := .returned t quantum r } : Core) = n := by
    apply noteBurst_of_task
    left
    simp [hm,MainThread.task]
  obtain ⟨place,hp⟩ := hi.placed
  have hlt : t < s.allocated := hp.current_lt (by rw [← hi.counted.main_task,hm]; rfl)
  have hcarried : carried { s with main := .returned t quantum r } n ≤ carried s.toCore n := by
    simp only [carried,hm]
    by_cases hr : mayRequeue (s.tasks t) r
    · have hpos := hr.2.2
      obtain rfl := hr.1
      cases hty : (s.tasks t).type with
      | shell =>
        have hb := ho.burst t hlt hty
        omega
      | program =>
        have hb := hok t (by rw [hm]; rfl) hty
        rw [if_pos hr,if_pos rfl]
        omega
    · rw [if_neg hr]
      exact Nat.zero_le _
  have hdebt : debt { s with main := .returned t quantum r } n ≤ debt s n :=
    Nat.add_le_add_left hcarried _
  constructor
  · rw [hnote]
    exact Nat.add_le_add_right hdebt _
  · intro _
    rw [hnote]
    simp only [weight,hm,MainThread.phase,Action.ofThread,if_true]
    omega

theorem signal_of_not_atRest {m : MainThread} (h : ¬ m.AtRest) : m.signal = m := by
  cases m with
  | blocked signalled =>
    cases signalled with
    | true => rfl
    | false => exact (h trivial).elim
  | _ => rfl

theorem step_spends (hi : Invariant s) (ho : ShellOrder s) (hok : Drained s.toCore n x)
    (he : step s x = some s') : Spends s s' n x := by
  cases x with
  | submit request => exact hok.elim
  | cancel thread client =>
    obtain ⟨_,rfl⟩ := step_cancel he
    obtain ⟨new,hev,hnew⟩ := cancel_events s thread client
    apply Spends.aside hi he
    · simp only [schedulerCancelClientTasks,cancelCurrent_frame,unlinkClient_lists]
      exact List.filter_sublist
    · simp [schedulerCancelClientTasks]
    · simp [schedulerCancelClientTasks]
    · rw [hev]
      apply dispatches_append
      intro e hm
      obtain ⟨t,rfl⟩ := hnew e hm
      rfl
    · rfl
  | free thread =>
    obtain ⟨c,_,hq,hev,_,_,_,_,hsig,_,_,_,hmain,_⟩ := freeNext_eq he
    apply Spends.aside hi he
    · rw [hq]
      exact List.Sublist.refl _
    · exact hmain
    · exact hsig
    · rw [hev]
      apply dispatches_append [.cleanup c]
      simp [Event.dispatched]
    · rfl
  | requestStop =>
    by_cases hrest : s.main.AtRest
    · cases he
      have htask : s.main.task = none := by
        cases hm : s.main with
        | executing t quantum => simp [hm,MainThread.AtRest] at hrest
        | returned t quantum r => simp [hm,MainThread.AtRest] at hrest
        | _ => rfl
      have htask' : s.main.signal.task = none := by
        rw [MainThread.signal_task]
        exact htask
      constructor
      · rw [noteBurst_of_task (Or.inr htask')]
        apply Nat.add_le_add_right
        apply Nat.add_le_add_left
        rw [carried_of_task_eq_none htask']
        exact Nat.zero_le _
      · intro h
        exact (h hrest).elim
    · have hmain := signal_of_not_atRest hrest
      have hs := he
      cases he
      exact Spends.aside hi hs (List.Sublist.refl _) hmain rfl rfl rfl
  | enter =>
    obtain ⟨hn,_,rfl⟩ := step_enter he
    exact enter_spends hn
  | setBurst remaining =>
    obtain ⟨t,quantum,_,rfl⟩ := step_setBurst he
    exact Spends.aside hi he (List.Sublist.refl _) rfl rfl rfl rfl
  | result r =>
    obtain ⟨t,quantum,hmain,rfl⟩ := step_result he
    exact result_spends hi ho hmain hok
  | finish =>
    obtain ⟨t,quantum,r,hmain,rfl⟩ := step_finish he
    exact finish_spends hmain

end Lists

end UnixShell.Scheduler
