import UnixShell.Scheduler.Draining
import UnixShell.Scheduler.Stopping
import UnixShell.Scheduler.Wakeups

/-! # The scheduler comes to rest

The debt bounds the dispatches of a whole run and the weight its turns. A thread at rest
has nothing to do, unless a task came after the loop was left.
-/
namespace UnixShell.Scheduler
open Foundation TaskQueue

section Steps
variable {Q : Type} [TaskQueue Q]

/-- Steps without submissions, with the burst at the last dispatch as a note. -/
def DrainStep : System Q × ℤ → Action → System Q × ℤ → Prop :=
  FiresIf (fun p x => Drained p.1.toCore p.2 x)
    (withHistory step fun n s s' => noteBurst n s.toCore s'.toCore)

def InRound (p : System Q × ℤ) (x : Action) (q : System Q × ℤ) : Prop :=
  x ≠ .finish ∧ DrainStep p x q

def BusyStep (p : System Q × ℤ) (x : Action) (q : System Q × ℤ) : Prop :=
  ¬ p.1.main.AtRest ∧ DrainStep p x q

/-- The round in progress in the first state, if there is one, has just returned. -/
def RoundOver (p : System Q × ℤ) (v : System Q × ℤ) : Prop :=
  p.1.main.task = none ∧ v = p ∨
    ∃ as t quantum r, Runs InRound p as v ∧ p.1.main.task = some t ∧ v.1.main = .returned t quantum r

theorem drained_keeps {s : Core} {n : ℤ} {x : Action} (h : Drained s n x) :
    KeepsShellBurst s x := by
  cases x with
  | setBurst remaining => exact h
  | submit request => exact h.elim
  | _ => trivial

theorem drainStep_iff {p q : System Q × ℤ} {x : Action} : DrainStep p x q ↔
    Drained p.1.toCore p.2 x ∧ step p.1 x = some q.1 ∧
      q.2 = noteBurst p.2 p.1.toCore q.1.toCore := by
  constructor
  · rintro ⟨hok,he⟩
    exact ⟨hok,fires_withHistory he⟩
  · rintro ⟨hok,he,hn⟩
    refine ⟨hok,?_⟩
    simp only [withHistory,he,Option.map_some]
    rw [← hn]

/-- A thread that is not at rest has a turn to take. -/
theorem busy_enabled {p : System Q × ℤ} (hrest : ¬ p.1.main.AtRest) :
    ∃ x q, x.ofThread = true ∧ DrainStep p x q := by
  have hgo : ∀ x s', x.ofThread = true → Drained p.1.toCore p.2 x → step p.1 x = some s' →
      ∃ x q, x.ofThread = true ∧ DrainStep p x q := by
    intro x s' hx hok he
    refine ⟨x,(s',noteBurst p.2 p.1.toCore s'.toCore),hx,?_⟩
    exact drainStep_iff.mpr ⟨hok,he,rfl⟩
  cases hm : p.1.main with
  | top =>
    apply hgo .enter (schedulerMainEnter p.1) rfl trivial
    simp only [step,hm]
  | blocked signalled =>
    apply hgo .enter (schedulerMainEnter p.1) rfl trivial
    simp only [step,hm]
  | executing t quantum =>
    apply hgo (.result .complete) { p.1 with main := .returned t quantum .complete } rfl trivial
    simp only [step,hm]
  | returned t quantum r =>
    apply hgo .finish (schedulerMainFinish p.1 t quantum r) rfl trivial
    simp only [step,hm]
  | exited =>
    rw [hm] at hrest
    exact (hrest trivial).elim

end Steps

section Lists
variable {p q : System TaskLists × ℤ} {x : Action} {as : List Action}

/-- What the steps keep and rely on. -/
def Ordered (s : System TaskLists) : Prop := Invariant s ∧ ShellOrder s

theorem DrainStep.ordered (h : Ordered p.1) (he : DrainStep p x q) : Ordered q.1 := by
  obtain ⟨hok,hs,_⟩ := drainStep_iff.mp he
  exact ⟨step_invariant h.1 hs,step_shellOrder h.2 h.1 (drained_keeps hok) hs⟩

theorem DrainStep.debt_le (h : Ordered p.1) (he : DrainStep p x q) :
    debt q.1 q.2 + dispatches q.1.events ≤ debt p.1 p.2 + dispatches p.1.events := by
  obtain ⟨hok,hs,hn⟩ := drainStep_iff.mp he
  rw [hn]
  exact (step_spends h.1 h.2 hok hs).debt

theorem run_debt (h : Ordered p.1) (hrun : Runs DrainStep p as q) :
    debt q.1 q.2 + dispatches q.1.events ≤ debt p.1 p.2 + dispatches p.1.events := by
  have hstep : ∀ u x v, (Ordered u.1 ∧
      debt u.1 u.2 + dispatches u.1.events ≤ debt p.1 p.2 + dispatches p.1.events) →
      DrainStep u x v → Ordered v.1 ∧
        debt v.1 v.2 + dispatches v.1.events ≤ debt p.1 p.2 + dispatches p.1.events := by
    intro u x v hu he
    have hle := he.debt_le hu.1
    exact ⟨he.ordered hu.1,hle.trans hu.2⟩
  exact (hrun.invariant hstep ⟨h,le_rfl⟩).2

/-- Each turn of a thread that is not at rest costs something. -/
theorem run_weight (h : Ordered p.1) (hrun : Runs BusyStep p as q) :
    as.countP Action.ofThread ≤ weight p.1 p.2 := by
  have htrace := hrun.trace
    (P := fun bs u => Ordered u.1 ∧ weight u.1 u.2 + bs.countP Action.ofThread ≤ weight p.1 p.2)
    (by
      rintro bs u x v ⟨hu,hw⟩ ⟨hrest,he⟩
      refine ⟨he.ordered hu,?_⟩
      obtain ⟨hok,hs,hn⟩ := drainStep_iff.mp he
      have hspends := (step_spends hu.1 hu.2 hok hs).weight hrest
      rw [List.countP_append,List.countP_singleton,hn]
      omega)
    ⟨h,by rw [List.countP_nil,Nat.add_zero]⟩
  omega

/-- A step that does not end a round adds to the queue only what is submitted. -/
theorem step_waiting_sublist {s s' : System TaskLists} (he : step s x = some s')
    (hx : x ≠ .finish) (hok : ∀ request, x ≠ .submit request) :
    s'.queue.waiting.Sublist s.queue.waiting := by
  cases step_stepped he with
  | submit request => exact (hok request rfl).elim
  | cancel =>
    simp only [schedulerCancelClientTasks,cancelCurrent_frame,unlinkClient_lists]
    exact List.filter_sublist
  | free hf =>
    obtain ⟨c,_,hq,_⟩ := freeNext_eq hf
    rw [hq]
    exact List.Sublist.refl _
  | quiet hq =>
    rw [hq.queue_eq]
  | dispatch _ hd =>
    obtain ⟨_,rfl⟩ := dequeue_some hd
    exact List.erase_sublist
  | setBurst => exact List.Sublist.refl _
  | requeue => exact (hx rfl).elim
  | finalize => exact (hx rfl).elim

/-- While a round lasts nothing is dispatched, and what waits can only become less. -/
theorem inRound_spends (h : Ordered p.1) (he : InRound p x q) {t : TaskRef}
    (ht : p.1.main.task = some t) :
    q.1.main.task = some t ∧ dispatches q.1.events = dispatches p.1.events ∧
      potential q.1.tasks q.1.queue.waiting ≤ potential p.1.tasks p.1.queue.waiting := by
  obtain ⟨hx,hdrain⟩ := he
  obtain ⟨hok,hs,_⟩ := drainStep_iff.mp hdrain
  have hsub : q.1.queue.waiting.Sublist p.1.queue.waiting := by
    apply step_waiting_sublist hs hx
    rintro request rfl
    exact hok
  have hpotential : potential q.1.tasks q.1.queue.waiting ≤
      potential p.1.tasks p.1.queue.waiting := by
    rw [potential_congr fun u hu => waiting_burst h.1 hs (hsub.subset hu)]
    exact potential_sublist hsub
  rcases step_dispatches hs with ⟨_,hc,new,hev,hnew⟩ | ⟨_,hnone,_⟩
  · refine ⟨?_,?_,hpotential⟩
    · have hcur := hc.resolve_right fun hf => hx hf.1
      rw [(hdrain.ordered h).1.counted.main_task,hcur,← h.1.counted.main_task]
      exact ht
    · rw [hev]
      exact dispatches_append new hnew
  · rw [hnone] at ht
    cases ht

theorem run_inRound (h : Ordered p.1) (hrun : Runs InRound p as q) {t : TaskRef}
    (ht : p.1.main.task = some t) :
    Ordered q.1 ∧ dispatches q.1.events = dispatches p.1.events ∧
      potential q.1.tasks q.1.queue.waiting ≤ potential p.1.tasks p.1.queue.waiting := by
  have hinv := hrun.invariant
    (P := fun u => Ordered u.1 ∧ u.1.main.task = some t ∧
      dispatches u.1.events = dispatches p.1.events ∧
      potential u.1.tasks u.1.queue.waiting ≤ potential p.1.tasks p.1.queue.waiting)
    (by
      rintro u x v ⟨hu,htask,hd,hpot⟩ he
      obtain ⟨htask',hd',hpot'⟩ := inRound_spends hu he htask
      exact ⟨he.2.ordered hu,htask',hd'.trans hd,hpot'.trans hpot⟩)
    ⟨h,ht,rfl,le_rfl⟩
  exact ⟨hinv.1,hinv.2.2⟩

/-- After the round in progress the waiting tasks and the one put back pay for what comes. -/
theorem dispatches_after_round {v : System TaskLists × ℤ} (h : Ordered p.1) (hv : RoundOver p v)
    (hrun : Runs DrainStep v as q) : dispatches q.1.events ≤
      dispatches p.1.events + potential p.1.tasks p.1.queue.waiting + carried v.1.toCore v.2 := by
  rcases hv with ⟨_,rfl⟩ | ⟨bs,t,quantum,r,hround,ht,_⟩
  · have hdebt := run_debt h hrun
    unfold debt at hdebt
    omega
  · obtain ⟨hordered,hd,hpot⟩ := run_inRound h hround ht
    have hdebt := run_debt hordered hrun
    unfold debt at hdebt
    omega

/-- A shell task gets into the queue by its submission only. -/
theorem shell_enters (h : Ordered p.1) (he : DrainStep p x q) {t : TaskRef}
    (ht : t < p.1.allocated) (hty : (p.1.tasks t).type = .shell) :
    q.1.events.countP (Event.enters t) = p.1.events.countP (Event.enters t) := by
  obtain ⟨hok,hs,_⟩ := drainStep_iff.mp he
  rcases step_waiting hs ht with ⟨_,hcount⟩ | ⟨_,quantum,r,_,hr⟩
  · exact hcount
  · have hburst := h.2.burst t ht hty
    have hpos := hr.2.2
    omega

/-- A shell task that waits leaves the queue once, and none comes back. -/
theorem run_shell (h : Ordered p.1) (hb : Balanced p.1.events p.1.queue.waiting)
    (hrun : Runs DrainStep p as q) {t : TaskRef} (ht : t < p.1.allocated)
    (hty : (p.1.tasks t).type = .shell) :
    q.1.events.countP (Event.leaves t) + q.1.queue.waiting.count t =
      p.1.events.countP (Event.leaves t) + p.1.queue.waiting.count t := by
  have hinv := hrun.invariant
    (P := fun u => Ordered u.1 ∧ Balanced u.1.events u.1.queue.waiting ∧ t < u.1.allocated ∧
      (u.1.tasks t).type = .shell ∧
      u.1.events.countP (Event.enters t) = p.1.events.countP (Event.enters t))
    (by
      rintro u x v ⟨hu,hbal,hlt,htype,hcount⟩ he
      obtain ⟨_,hs,_⟩ := drainStep_iff.mp he
      refine ⟨he.ordered hu,step_balanced hbal hs,?_,?_,?_⟩
      · rcases step_allocated hs with ⟨ha,_⟩ | ⟨_,ha,_⟩
        · rw [ha]
          exact hlt
        · rw [ha]
          exact Nat.lt_succ_of_lt hlt
      · rw [(step_continues hs hlt).type]
        exact htype
      · rw [shell_enters hu he hlt htype]
        exact hcount)
    ⟨h,hb,ht,hty,rfl⟩
  obtain ⟨_,hbal,_,_,hcount⟩ := hinv
  rw [← hbal t,← hb t]
  exact hcount

/-- A thread at rest has nothing left to do, if the loop was left with nothing to do. -/
theorem atRest_idle {s : System TaskLists} (h : Invariant s) (hrest : s.main.AtRest)
    (hexit : s.main = .exited → s.queue.waiting = []) :
    s.queue.waiting = [] ∧ s.activeTaskCount = 0 ∧ (s.stopRequested = true → s.main = .exited) := by
  cases hm : s.main with
  | blocked signalled =>
    cases signalled with
    | true =>
      rw [hm] at hrest
      exact hrest.elim
    | false =>
      obtain ⟨hw,ha,hst⟩ := h.counted.blocked_idle hm
      refine ⟨hw,ha,?_⟩
      rw [hst]
      intro hc
      cases hc
  | exited =>
    have hw := hexit hm
    have hcur : s.currentTask = none := by rw [← h.counted.main_task,hm]; rfl
    refine ⟨hw,?_,fun _ => rfl⟩
    rw [h.counted.active,hw,hcur]
    rfl
  | top =>
    rw [hm] at hrest
    exact hrest.elim
  | executing t quantum =>
    rw [hm] at hrest
    exact hrest.elim
  | returned t quantum r =>
    rw [hm] at hrest
    exact hrest.elim

/-- Without submissions a queue that is empty when the loop is left stays so. -/
theorem run_exited (h : Ordered p.1) (hexit : p.1.main = .exited → p.1.queue.waiting = [])
    (hrun : Runs DrainStep p as q) :
    Ordered q.1 ∧ (q.1.main = .exited → q.1.queue.waiting = []) := by
  apply hrun.invariant
    (P := fun u => Ordered u.1 ∧ (u.1.main = .exited → u.1.queue.waiting = []))
  · rintro u x v ⟨hu,hw⟩ he
    obtain ⟨hok,hs,_⟩ := drainStep_iff.mp he
    refine ⟨he.ordered hu,?_⟩
    apply step_exited_waiting hu.1 hs _ hw
    rintro request rfl
    exact hok.elim
  · exact ⟨h,hexit⟩

end Lists

section Linked
variable {s : System TaskLinks}

/-- The scheduler drains from `s`, whatever the burst `n` at which a round in progress began. -/
structure Drains (s : System TaskLinks) : Prop where
  dispatches : ∀ n as v p, RoundOver (s,n) v → Runs DrainStep v as p →
    dispatches p.1.events ≤ dispatches s.events +
      potential s.tasks (waitingRecords s.allocated s.queue) + carried v.1.toCore v.2
  /-- Each way out of the queue is a dispatch or a cancellation. -/
  shell : ∀ n as p, Runs DrainStep (s,n) as p → ∀ t < s.allocated, (s.tasks t).type = .shell →
    p.1.events.countP (Event.leaves t) + (waitingRecords p.1.allocated p.1.queue).count t =
      s.events.countP (Event.leaves t) + (waitingRecords s.allocated s.queue).count t
  ends : ∀ n, ∃ bound, ∀ as p, Runs BusyStep (s,n) as p → as.countP Action.ofThread ≤ bound
  goesOn : ∀ n as p, Runs DrainStep (s,n) as p → ¬ p.1.main.AtRest →
    ∃ x q, x.ofThread = true ∧ DrainStep p x q
  rests : ∀ n as p, Runs DrainStep (s,n) as p → p.1.main.AtRest →
    waitingRecords p.1.allocated p.1.queue = [] ∧ p.1.activeTaskCount = 0 ∧
      (p.1.stopRequested = true → p.1.main = .exited)

def DrainRefines (p : System TaskLinks × ℤ) (l : System TaskLists × ℤ) : Prop :=
  Refines p.1 l.1 ∧ p.2 = l.2

theorem drainStep_refines {p q : System TaskLinks × ℤ} {l : System TaskLists × ℤ} {x : Action}
    (h : DrainRefines p l) (he : DrainStep p x q) : ∃ l', DrainStep l x l' ∧ DrainRefines q l' := by
  obtain ⟨hr,hn⟩ := h
  obtain ⟨hok,hs,hn'⟩ := drainStep_iff.mp he
  obtain ⟨l',hs',hr'⟩ := step_refines hr hs
  refine ⟨(l',q.2),drainStep_iff.mpr ⟨?_,hs',?_⟩,hr',rfl⟩
  · rw [← hr.core,← hn]
    exact hok
  · rw [hn',hr.core,hr'.core,hn]

section Runs
variable {p q : System TaskLinks × ℤ} {l : System TaskLists × ℤ} {as : List Action}

theorem runs_drain_refines (h : DrainRefines p l) (hrun : Runs DrainStep p as q) :
    ∃ l', Runs DrainStep l as l' ∧ DrainRefines q l' := by
  refine hrun.simulate (S := DrainRefines) ?_ h
  intro p x q l hr he
  exact drainStep_refines hr he

/-- A side condition on core and action is the same on both sides. -/
theorem runs_where_refines {G : Core → Action → Prop} (h : DrainRefines p l)
    (hrun : Runs (fun p x q => G p.1.toCore x ∧ DrainStep p x q) p as q) :
    ∃ l', Runs (fun p x q => G p.1.toCore x ∧ DrainStep p x q) l as l' ∧ DrainRefines q l' := by
  refine hrun.simulate (S := DrainRefines) ?_ h
  rintro p x q l hr ⟨hx,he⟩
  obtain ⟨l',he',hr'⟩ := drainStep_refines hr he
  refine ⟨l',⟨?_,he'⟩,hr'⟩
  rw [← hr.1.core]
  exact hx

theorem runs_inRound_refines (h : DrainRefines p l) (hrun : Runs InRound p as q) :
    ∃ l', Runs InRound l as l' ∧ DrainRefines q l' :=
  runs_where_refines (G := fun _ x => x ≠ .finish) h hrun

theorem runs_busy_refines (h : DrainRefines p l) (hrun : Runs BusyStep p as q) :
    ∃ l', Runs BusyStep l as l' ∧ DrainRefines q l' :=
  runs_where_refines (G := fun c _ => ¬ c.main.AtRest) h hrun

theorem roundOver_refines (h : DrainRefines p l) (hv : RoundOver p q) :
    ∃ l', RoundOver l l' ∧ DrainRefines q l' := by
  rcases hv with ⟨hm,rfl⟩ | ⟨bs,t,quantum,r,hrun,hm,hm'⟩
  · refine ⟨l,Or.inl ⟨?_,rfl⟩,h⟩
    rw [← h.1.core]
    exact hm
  · obtain ⟨l',hrun',hr'⟩ := runs_inRound_refines h hrun
    refine ⟨l',Or.inr ⟨bs,t,quantum,r,hrun',?_,?_⟩,hr'⟩
    · rw [← h.1.core]
      exact hm
    · rw [← hr'.1.core]
      exact hm'

end Runs

theorem drains_of_refines {l : System TaskLists} (hr : Refines s l) (ho : Ordered l)
    (hb : Balanced l.events l.queue.waiting)
    (hexit : l.main = .exited → l.queue.waiting = []) : Drains s := by
  have hstart : ∀ n, DrainRefines (s,n) (l,n) := fun n => ⟨hr,rfl⟩
  refine ⟨?_,?_,?_,?_,?_⟩
  · intro n as v p hv hrun
    obtain ⟨w,hw,hrv⟩ := roundOver_refines (hstart n) hv
    obtain ⟨q,hq,hrq,_⟩ := runs_drain_refines hrv hrun
    rw [hr.waitingRecords,hr.core,hrq.core,hrv.1.core,hrv.2]
    exact dispatches_after_round (p := (l,n)) ho hw hq
  · intro n as p hrun t ht hty
    obtain ⟨q,hq,hrq,_⟩ := runs_drain_refines (hstart n) hrun
    rw [hr.core] at ht hty
    rw [hr.waitingRecords,hrq.waitingRecords,hr.core,hrq.core]
    exact run_shell (p := (l,n)) ho hb hq ht hty
  · intro n
    refine ⟨weight l n,?_⟩
    intro as p hrun
    obtain ⟨q,hq,_⟩ := runs_busy_refines (hstart n) hrun
    exact run_weight (p := (l,n)) ho hq
  · intro n as p hrun hrest
    exact busy_enabled hrest
  · intro n as p hrun hrest
    obtain ⟨q,hq,hrq,_⟩ := runs_drain_refines (hstart n) hrun
    obtain ⟨hoq,hwq⟩ := run_exited (p := (l,n)) ho hexit hq
    rw [hrq.core] at hrest
    rw [hrq.waitingRecords,hrq.core]
    exact atRest_idle hoq.1 hrest hwq

/-- A loop that was left with a task waiting does not take it. -/
theorem not_drains_of_stranded (h : Stranded s) : ¬ Drains s := by
  obtain ⟨hm,t,ht,_⟩ := h
  intro hd
  have hrest : s.main.AtRest := by rw [hm]; trivial
  have hw := (hd.rests 0 [] (s,0) (Runs.refl _) hrest).1
  rw [hw] at ht
  cases ht

/-- The scheduler drains unless a task already waits for a loop that was left. -/
theorem drains_iff (h : ReachableIf KeepsShellBurst s) : Drains s ↔ ¬ Stranded s := by
  constructor
  · intro hd hs
    exact not_drains_of_stranded hs hd
  · intro hn
    obtain ⟨l,hl,hr⟩ := reachableIf_refines h
    have hi := hr.invariant
    apply drains_of_refines hr ⟨hi,reachable_shellOrder hl⟩ (reachable_balanced hl.reachable)
    intro hm
    apply List.eq_nil_iff_forall_not_mem.mpr
    intro t ht
    obtain ⟨place,hp⟩ := hi.placed
    refine hn ⟨by rw [hr.core]; exact hm,t,by rw [hr.waitingRecords]; exact ht,?_⟩
    rw [hr.core,hi.numbered.taskId t (hp.waiting_lt ht)]
    omega

/-- A program is in its first round and a shell task waits. -/
def shellBehindProgram : List Action :=
  [.submit { type := .program, clientNumber := 1, commandText := none, predictedBurst := 4,
             userData := none },
    .enter,
    .submit { type := .shell, clientNumber := 2, commandText := none, predictedBurst := -1,
              userData := none }]

theorem drains_iff_shellBehindProgram :
    ∃ s, exec (guarded (fun s => KeepsShellBurst s.toCore) step)
      (schedulerInit TaskLinks none true) shellBehindProgram = some s ∧ Drains s := by
  obtain ⟨s,he⟩ := Option.isSome_iff_exists.mp
    (show (exec (guarded (fun s => KeepsShellBurst s.toCore) step)
      (schedulerInit TaskLinks none true) shellBehindProgram).isSome = true from rfl)
  have hreach : ReachableIf KeepsShellBurst s := ⟨none,true,reaches_of_guarded he⟩
  refine ⟨s,he,(drains_iff hreach).mpr ?_⟩
  cases he
  rintro ⟨hm,_⟩
  cases hm

theorem lateSubmission_not_drains :
    ∃ s, exec (guarded (fun s => KeepsShellBurst s.toCore) step)
      (schedulerInit TaskLinks none true) lateSubmission = some s ∧ ¬ Drains s := by
  obtain ⟨s,he⟩ := Option.isSome_iff_exists.mp
    (show (exec (guarded (fun s => KeepsShellBurst s.toCore) step)
      (schedulerInit TaskLinks none true) lateSubmission).isSome = true from rfl)
  refine ⟨s,he,not_drains_of_stranded ?_⟩
  cases he
  exact ⟨rfl,0,by decide,by decide⟩

end Linked

end UnixShell.Scheduler
