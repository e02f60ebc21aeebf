import UnixShell.Scheduler.Accounting

/-! # The linked scheduler refines the list scheduler

The waiting links represent the waiting list and every thread's `to_free` chain its
freeing list, over one shared map of links. The operations keep this up because the
lists are disjoint; so each step of the linked scheduler is the same step of the
list scheduler, with all other data equal.
-/
namespace UnixShell.Scheduler
open Foundation TaskQueue

structure Represents (l : TaskLinks) (q : TaskLists) : Prop where
  holds : l.queue.Holds q.waiting
  toFree : ∀ thread, Linked l.queue.next (l.toFree thread) (q.toFree thread)

/-- Waiting and freeing lists, and the freeing lists of two threads, share no record. -/
structure Separated (q : TaskLists) : Prop where
  waiting_toFree : ∀ thread t, t ∈ q.toFree thread → t ∉ q.waiting
  toFree_toFree : ∀ thread thread' t, t ∈ q.toFree thread → t ∈ q.toFree thread' → thread = thread'

theorem Placed.separated {s : System TaskLists} {place : TaskRef → Option Place}
    (h : Placed s place) : Separated s.queue :=
  ⟨fun thread _ hf hw => h.waiting_not_freeing hw thread hf,
    fun _ _ _ hf hf' => h.freeing_unique hf hf'⟩

section Queue
variable {l : TaskLinks} {q : TaskLists} {t : TaskRef} {fuel : ℕ} {tasks : TaskRef → Task}

theorem Represents.waitingRecords (h : Represents l q) (hf : q.waiting.length ≤ fuel) :
    waitingRecords fuel l = q.waiting := by
  rw [Scheduler.waitingRecords,h.holds.linked.visits_eq hf,withPrevious_map_snd]

theorem Represents.enqueue (h : Represents l q) (hd : Separated q) (hw : t ∉ q.waiting)
    (hf : ∀ thread, t ∉ q.toFree thread) :
    Represents (enqueueTaskLocked l t) (TaskQueue.enqueue q t) := by
  refine ⟨h.holds.append hw,fun thread => (h.toFree thread).frame ?_⟩
  intro u hu
  apply LinkedQueue.append_next_of_ne
  · rintro rfl
    exact hf thread hu
  · rw [h.holds.tail_eq]
    intro hl
    exact hd.waiting_toFree thread u hu (List.mem_of_getLast? hl)

/-- Taking out the record at a cursor erases it from the list and clears its link. -/
theorem takeOut_holds {waiting : List TaskRef} (h : l.queue.Holds waiting)
    {found : Option TaskRef × TaskRef} (hm : found ∈ withPrevious none waiting) :
    (takeOut l found).2.queue.Holds (waiting.erase found.2) ∧
      (takeOut l found).2.queue.next found.2 = none := by
  obtain ⟨pre,post,rfl,hprev⟩ := exists_split_of_mem_withPrevious hm
  have hnot : found.2 ∉ pre ++ post := h.not_mem
  have herase : (pre ++ found.2 :: post).erase found.2 = pre ++ post := by
    rw [List.erase_append_right _ (fun hin => hnot (List.mem_append_left _ hin)),
      List.erase_cons_head]
  have hu := h.unlink
  rw [← hprev] at hu
  rw [herase]
  exact ⟨hu.setNext hnot none,Function.update_self _ _ _⟩

theorem Represents.takeOut (h : Represents l q) (hd : Separated q)
    {found : Option TaskRef × TaskRef} (hm : found ∈ withPrevious none q.waiting) :
    Represents (takeOut l found).2 { q with waiting := q.waiting.erase found.2 } := by
  refine ⟨(takeOut_holds h.holds hm).1,fun thread => (h.toFree thread).frame (fun u hu => ?_)⟩
  obtain ⟨pre,post,hsplit,hprev⟩ := exists_split_of_mem_withPrevious hm
  have hnw := hd.waiting_toFree thread u hu
  rw [hsplit] at hnw
  have hne : u ≠ found.2 := by
    rintro rfl
    exact hnw (by simp)
  have hnp : found.1 ≠ some u := by
    rw [hprev]
    intro hl
    exact hnw (List.mem_append_left _ (List.mem_of_getLast? hl))
  simp only [Scheduler.takeOut,LinkedQueue.setNext,Function.update_of_ne hne]
  exact LinkedQueue.unlink_next_of_ne hnp

variable {waiting : List TaskRef}

theorem type_eq_program (hshell : waiting.find? (isShell tasks) = none) (ht : t ∈ waiting) :
    (tasks t).type = .program := by
  have hn := List.find?_eq_none.mp hshell t ht
  cases hty : (tasks t).type with
  | shell => simp [isShell,hty] at hn
  | program => rfl

/-- Where no shell task waits the scan skips nothing. -/
theorem scan_eq_twoLeast (hshell : waiting.find? (isShell tasks) = none) :
    (withPrevious none waiting).foldl (fun best cursor =>
      if (tasks cursor.2).type = .program then keepTwo (Shorter tasks) best cursor else best)
      (none,none) = twoLeast (Shorter tasks) (withPrevious none waiting) := by
  have hall : (withPrevious none waiting).filter
      (fun cursor => decide ((tasks cursor.2).type = .program)) = withPrevious none waiting :=
    List.filter_eq_self.mpr (fun p hp =>
      decide_eq_true (type_eq_program hshell (snd_mem_of_mem_withPrevious hp)))
  have hfold : ((withPrevious none waiting).filter
      (fun cursor => decide ((tasks cursor.2).type = .program))).foldl
        (keepTwo (Shorter tasks)) (none,none) =
      (withPrevious none waiting).foldl (fun best cursor =>
        if decide ((tasks cursor.2).type = .program) = true then keepTwo (Shorter tasks) best cursor
        else best) (none,none) := List.foldl_filter
  simp only [decide_eq_true_eq] at hfold
  rw [← hfold,hall,twoLeast]

/-- Over programs only, the scan ends with the two least of them. -/
theorem scan_two_least (hshell : waiting.find? (isShell tasks) = none) (hnd : waiting.Nodup)
    (hkey : ∀ t ∈ waiting, ∀ u ∈ waiting, burstKey tasks t = burstKey tasks u → t = u) :
    IsTwoLeast (fun p => burstKey tasks p.2) (withPrevious none waiting)
      ((withPrevious none waiting).foldl (fun best cursor =>
        if (tasks cursor.2).type = .program then keepTwo (Shorter tasks) best cursor else best)
        (none,none)) := by
  have hlt : ∀ a b : Option TaskRef × TaskRef,
      Shorter tasks a b ↔ burstKey tasks a.2 < burstKey tasks b.2 := by
    intro a b
    simp only [Shorter,burstKey_lt]
  have hmap : ((withPrevious none waiting).map Prod.snd).Pairwise (· ≠ ·) := by
    rw [withPrevious_map_snd]; exact hnd
  have hdist : (withPrevious none waiting).Pairwise
      (fun x y => burstKey tasks x.2 ≠ burstKey tasks y.2) :=
    (List.pairwise_map.mp hmap).imp_of_mem (fun hx hy hne he =>
      hne (hkey _ (snd_mem_of_mem_withPrevious hx) _ (snd_mem_of_mem_withPrevious hy) he))
  rw [scan_eq_twoLeast hshell]
  exact twoLeast_spec hlt hdist

/-- What the runner-up rule picks from the scan is the next task of the policy. -/
theorem nextTask_of_pick (last : ℤ) {pick : Option (Option TaskRef × TaskRef)}
    (hshell : waiting.find? (isShell tasks) = none)
    (hkey : ∀ t ∈ waiting, ∀ u ∈ waiting, burstKey tasks t = burstKey tasks u → t = u)
    (h : IsPick (fun found => burstKey tasks found.2)
      (fun found => decide ((tasks found.2).taskId = last)) (withPrevious none waiting) pick) :
    pick.map Prod.snd = nextTask tasks last waiting ∧
      ∀ found, pick = some found → found ∈ withPrevious none waiting := by
  unfold nextTask
  rw [hshell]
  cases pick with
  | none =>
    have hw : waiting = [] := by
      rw [← withPrevious_map_snd none waiting,show withPrevious none waiting = [] from h,
        List.map_nil]
    subst hw
    exact ⟨rfl,fun found hf => by cases hf⟩
  | some found =>
    rcases h with h | ⟨hm,hne,hmin⟩
    · have hw : waiting = [found.2] := by
        rw [← withPrevious_map_snd none waiting,h,List.map_singleton]
      refine ⟨?_,fun f hf => by cases hf; rw [h]; exact List.mem_singleton_self _⟩
      subst hw
      by_cases hl : (tasks found.2).taskId = last <;> simp [hl]
    · refine ⟨?_,fun f hf => by cases hf; exact hm⟩
      have hfw := snd_mem_of_mem_withPrevious hm
      have hff : found.2 ∈ waiting.filter (fun t => (tasks t).taskId ≠ last) :=
        List.mem_filter.mpr ⟨hfw,by simpa using hne⟩
      cases harg : (waiting.filter (fun t => (tasks t).taskId ≠ last)).argmin (burstKey tasks) with
      | none =>
        rw [List.argmin_eq_none.mp harg] at hff
        cases hff
      | some m =>
        have hmf := List.argmin_mem harg
        obtain ⟨hmw,hml⟩ := List.mem_filter.mp hmf
        obtain ⟨x,hx,rfl⟩ : ∃ x ∈ withPrevious none waiting, x.2 = m := by
          rw [← withPrevious_map_snd none waiting] at hmw
          exact List.mem_map.mp hmw
        have hle := hmin x hx (by simpa using hml)
        have hge := List.le_of_mem_argmin hff harg
        simpa using hkey _ hfw _ hmw (le_antisymm hle hge)

theorem Represents.dequeue (last : ℤ) (h : Represents l q) (hd : Separated q)
    (hf : q.waiting.length ≤ fuel)
    (hkey : ∀ t ∈ q.waiting, ∀ u ∈ q.waiting, burstKey tasks t = burstKey tasks u → t = u)
    (hid : ∀ t ∈ q.waiting, ∀ u ∈ q.waiting, (tasks t).taskId = (tasks u).taskId → t = u) :
    (TaskQueue.dequeue fuel tasks last l).1 = (TaskQueue.dequeue fuel tasks last q).1 ∧
      Represents (TaskQueue.dequeue fuel tasks last l).2
        (TaskQueue.dequeue fuel tasks last q).2 := by
  have hv : visits l.queue.next fuel none l.queue.head = withPrevious none q.waiting :=
    h.holds.linked.visits_eq hf
  have hfind : ((withPrevious none q.waiting).find? (fun c => isShell tasks c.2)).map Prod.snd =
      q.waiting.find? (isShell tasks) := by
    conv_rhs => rw [← withPrevious_map_snd none q.waiting,List.find?_map]
    rfl
  change (dequeueNextTaskLocked fuel tasks last l).1 = _ ∧
    Represents (dequeueNextTaskLocked fuel tasks last l).2 _
  simp only [dequeueNextTaskLocked,hv]
  cases hs : (withPrevious none q.waiting).find? (fun c => isShell tasks c.2) with
  | some found =>
    rw [hs] at hfind
    have hn : nextTask tasks last q.waiting = some found.2 := by
      unfold nextTask
      rw [← hfind]
      rfl
    simp only [TaskQueue.dequeue,hn]
    exact ⟨rfl,h.takeOut hd (List.mem_of_find?_eq_some hs)⟩
  | none =>
    rw [hs] at hfind
    have havoid : ∀ x ∈ withPrevious none q.waiting, ∀ y ∈ withPrevious none q.waiting,
        decide ((tasks x.2).taskId = last) = true → decide ((tasks y.2).taskId = last) = true →
        x = y := by
      intro x hx y hy hax hay
      have hnd : ((withPrevious none q.waiting).map Prod.snd).Nodup := by
        rw [withPrevious_map_snd]; exact h.holds.nodup
      exact List.inj_on_of_nodup_map hnd hx hy
        (hid _ (snd_mem_of_mem_withPrevious hx) _ (snd_mem_of_mem_withPrevious hy)
          ((of_decide_eq_true hax).trans (of_decide_eq_true hay).symm))
    have hscan := (scan_two_least hfind.symm h.holds.nodup hkey).pickAvoiding havoid
    obtain ⟨hn,hm⟩ := nextTask_of_pick last hfind.symm hkey hscan
    simp only [chooseShortestProgramLocked,hv]
    simp only [TaskQueue.dequeue,← hn]
    split
    · rename_i hnone
      rw [hnone]
      exact ⟨rfl,h⟩
    · rename_i found hsome
      rw [hsome] at hm ⊢
      exact ⟨rfl,h.takeOut hd (hm found rfl)⟩

/-- What the removal loop makes of a queue whose nodes in `front` it has passed: matches leave
for the local chain in reverse order, the others stay in order, and links outside the list
do not change. -/
structure Removed (tasks : TaskRef → Task) (client : ℤ) (front rest fs : List TaskRef)
    (queue : LinkedQueue TaskRef) (r : List TaskRef × LinkedQueue TaskRef × Option TaskRef) :
    Prop where
  removed : r.1 = rest.filter (ownedBy tasks client)
  holds : r.2.1.Holds (front ++ rest.filter (fun t => !ownedBy tasks client t))
  chain : Linked r.2.1.next r.2.2 ((rest.filter (ownedBy tasks client)).reverse ++ fs)
  frame : ∀ t, t ∉ front ++ rest → r.2.1.next t = queue.next t

section Removal
variable {client : ℤ} {a : TaskRef} {front rest fs : List TaskRef} {queue : LinkedQueue TaskRef}
  {first : Option TaskRef} {r : List TaskRef × LinkedQueue TaskRef × Option TaskRef}

theorem not_mem_of_not_mem_cons (h : t ∉ front ++ a :: rest) : t ∉ front ++ rest := by
  simp only [List.mem_append,List.mem_cons,not_or] at h ⊢
  exact ⟨h.1,h.2.2⟩

theorem getLast?_ne (h : t ∉ front ++ rest) : front.getLast? ≠ some t := fun hl =>
  h (List.mem_append_left _ (List.mem_of_getLast? hl))

/-- A match: the chain has grown by it and the list has lost it. -/
theorem Removed.match (ho : (tasks a).clientNumber = client)
    (h : Removed tasks client front rest (a :: fs)
      ((queue.unlink front.getLast? a).setNext a first) r) :
    Removed tasks client front (a :: rest) fs queue (a :: r.1,r.2) := by
  have hown : ownedBy tasks client a = true := decide_eq_true ho
  refine ⟨?_,?_,?_,fun t ht => ?_⟩
  · rw [List.filter_cons_of_pos hown,h.removed]
  · rw [List.filter_cons_of_neg (by simp [hown])]
    exact h.holds
  · rw [List.filter_cons_of_pos hown,List.reverse_cons,List.append_assoc]
    exact h.chain
  · have hta : t ≠ a := by
      rintro rfl
      exact ht (by simp)
    calc _ = ((queue.unlink front.getLast? a).setNext a first).next t :=
          h.frame t (not_mem_of_not_mem_cons ht)
      _ = (queue.unlink front.getLast? a).next t := Function.update_of_ne hta _ _
      _ = queue.next t := LinkedQueue.unlink_next_of_ne (getLast?_ne ht)

theorem Removed.other (ho : (tasks a).clientNumber ≠ client)
    (h : Removed tasks client (front ++ [a]) rest fs queue r) :
    Removed tasks client front (a :: rest) fs queue r := by
  have hown : ¬ ownedBy tasks client a = true := by simpa [ownedBy] using ho
  refine ⟨?_,?_,?_,fun t ht => h.frame t (by simpa using ht)⟩
  · rw [List.filter_cons_of_neg hown,h.removed]
  · rw [List.filter_cons_of_pos (by simpa using hown)]
    simpa using h.holds
  · rw [List.filter_cons_of_neg hown]
    exact h.chain

end Removal

/-- The removal loop from any point of the list. -/
theorem cancelLoop_removed (tasks : TaskRef → Task) (client : ℤ) (rest : List TaskRef) :
    ∀ {n : ℕ} {front fs : List TaskRef} {queue : LinkedQueue TaskRef} {first : Option TaskRef},
      queue.Holds (front ++ rest) → Linked queue.next first fs → (∀ t ∈ fs, t ∉ front ++ rest) →
      rest.length ≤ n → Removed tasks client front rest fs queue
        (cancelLoop tasks client n front.getLast? rest.head? queue first) := by
  induction rest with
  | nil =>
    intro n front fs queue first hq hfs _ _
    have hnil : cancelLoop tasks client n front.getLast? ([] : List TaskRef).head? queue first =
        ([],queue,first) := by
      cases n <;> rfl
    rw [hnil]
    exact ⟨rfl,by simpa using hq,by simpa using hfs,fun _ _ => rfl⟩
  | cons a rest ih =>
    intro n front fs queue first hq hfs hdis hn
    obtain ⟨n,rfl⟩ : ∃ m, n = m + 1 := ⟨n - 1,by simp at hn; omega⟩
    have hafter : queue.next a = rest.head? := hq.linked.after.head_eq
    have ha : a ∉ front ++ rest := hq.not_mem
    have hrest : rest.length ≤ n := by simpa using hn
    by_cases ho : (tasks a).clientNumber = client
    · have hnext : (queue.unlink front.getLast? a).next a = rest.head? :=
        (LinkedQueue.unlink_next_of_ne (getLast?_ne ha)).trans hafter
      have hq' := hq.unlink.setNext ha first
      have hfs' : Linked (queue.unlink front.getLast? a).next first fs := hfs.frame (fun t ht =>
        LinkedQueue.unlink_next_of_ne (getLast?_ne (hdis t ht)))
      have hafs : a ∉ fs := fun hin => hdis a hin (by simp)
      have hdis' : ∀ t ∈ a :: fs, t ∉ front ++ rest := by
        intro t ht
        rcases List.mem_cons.mp ht with rfl | ht
        · exact ha
        · exact not_mem_of_not_mem_cons (hdis t ht)
      simp only [List.head?_cons,cancelLoop,if_pos ho,hnext]
      exact (ih hq' (hfs'.push hafs) hdis' hrest).match ho
    · have hq' : queue.Holds ((front ++ [a]) ++ rest) := by simpa using hq
      have hdis' : ∀ t ∈ fs, t ∉ (front ++ [a]) ++ rest := by simpa using hdis
      have hlast : (front ++ [a]).getLast? = some a := by simp
      have hr := ih hq' hfs hdis' hrest
      rw [hlast] at hr
      simp only [List.head?_cons,cancelLoop,if_neg ho,hafter]
      exact hr.other ho

theorem Represents.unlinkClient (tasks : TaskRef → Task) (h : Represents l q) (hd : Separated q)
    (hf : q.waiting.length ≤ fuel) (thread : ThreadId) (client : ℤ) :
    (TaskQueue.unlinkClient fuel tasks thread client l).1 =
        (TaskQueue.unlinkClient fuel tasks thread client q).1 ∧
      Represents (TaskQueue.unlinkClient fuel tasks thread client l).2
        (TaskQueue.unlinkClient fuel tasks thread client q).2 := by
  have hq : l.queue.Holds ([] ++ q.waiting) := h.holds
  have hr := cancelLoop_removed tasks client q.waiting hq Linked.nil (by simp) hf
  rw [List.getLast?_nil,← h.holds.head_eq] at hr
  refine ⟨hr.removed,hr.holds,?_⟩
  intro thread'
  change Linked _ (Function.update l.toFree thread _ thread')
    (Function.update q.toFree thread _ thread')
  by_cases ht : thread' = thread
  · subst ht
    rw [Function.update_self,Function.update_self]
    have hc := hr.chain
    rw [List.append_nil] at hc
    exact hc
  · rw [Function.update_of_ne ht,Function.update_of_ne ht]
    exact (h.toFree thread').frame (fun t hm => hr.frame t (hd.waiting_toFree thread' t hm))

theorem Represents.popFree (h : Represents l q) (thread : ThreadId) :
    Represents (TaskQueue.popFree l thread) (TaskQueue.popFree q thread) := by
  refine ⟨h.holds,fun thread' => ?_⟩
  change Linked l.queue.next (Function.update l.toFree thread _ thread')
    (Function.update q.toFree thread _ thread')
  by_cases ht : thread' = thread
  · subst ht
    rw [Function.update_self,Function.update_self]
    have hl := h.toFree thread'
    revert hl
    generalize l.toFree thread' = first
    generalize q.toFree thread' = chain
    intro hl
    cases hl with
    | nil => exact Linked.nil
    | cons hl => exact hl
  · rw [Function.update_of_ne ht,Function.update_of_ne ht]
    exact h.toFree thread'

theorem Represents.toFree_eq (h : Represents l q) (thread : ThreadId) :
    TaskQueue.toFree l thread = TaskQueue.toFree q thread := (h.toFree thread).head_eq

end Queue

/-- The list scheduler stands for the linked one: equal data, and the lists that the
links represent. -/
structure Refines (c : System TaskLinks) (a : System TaskLists) : Prop where
  core : c.toCore = a.toCore
  queue : Represents c.queue a.queue
  invariant : Invariant a

theorem refines_init (config : Option SchedulerConfig) (hasCleanup : Bool) :
    Refines (schedulerInit TaskLinks config hasCleanup)
      (schedulerInit TaskLists config hasCleanup) :=
  ⟨rfl,⟨⟨Linked.nil,rfl⟩,fun _ => Linked.nil⟩,invariant_init config hasCleanup⟩

section Steps
variable {core : Core} {l : TaskLinks} {q : TaskLists}

/-- Two schedulers with one core take the same branch of every test on it. -/
theorem requestPreemption_agree (core : Core) (l : TaskLinks) (q : TaskLists) (incoming : Task) :
    (requestPreemption ⟨core,l⟩ incoming).toCore =
      (requestPreemption ⟨core,q⟩ incoming).toCore := by
  unfold requestPreemption
  cases hc : core.currentTask with
  | none => rfl
  | some c =>
    have hp : shouldPreemptCurrentLocked (⟨core,l⟩ : System TaskLinks) incoming =
      shouldPreemptCurrentLocked (⟨core,q⟩ : System TaskLists) incoming := rfl
    simp only [hp]
    split <;> rfl

theorem cancelCurrent_agree (client : ℤ) :
    (cancelCurrent ⟨core,l⟩ client).toCore = (cancelCurrent ⟨core,q⟩ client).toCore := by
  unfold cancelCurrent
  cases hc : core.currentTask with
  | none => rfl
  | some c =>
    simp only
    split <;> rfl

theorem submittedTask_agree {c : System TaskLinks} {a : System TaskLists} (h : c.toCore = a.toCore)
    (task : Task) : submittedTask c task = submittedTask a task := by
  unfold submittedTask
  rw [h]

theorem submit_agree (task : Task) :
    (schedulerSubmitTask ⟨core,l⟩ task).toCore = (schedulerSubmitTask ⟨core,q⟩ task).toCore := by
  rw [schedulerSubmitTask_eq,schedulerSubmitTask_eq]
  have h := requestPreemption_agree (queuedTask ⟨core,l⟩ task).toCore
    (enqueue l core.allocated) (enqueue q core.allocated)
    (submittedTask (⟨core,l⟩ : System TaskLinks) task)
  exact congrArg (fun c : Core => { c with main := c.main.signal }) h

theorem cancel_agree (thread : ThreadId) (client : ℤ)
    (h : (unlinkClient core.allocated core.tasks thread client l).1 =
      (unlinkClient core.allocated core.tasks thread client q).1) :
    (schedulerCancelClientTasks ⟨core,l⟩ thread client).toCore =
      (schedulerCancelClientTasks ⟨core,q⟩ thread client).toCore := by
  unfold schedulerCancelClientTasks
  simp only [h]
  exact cancelCurrent_agree client

theorem free_agree {thread : ThreadId} {c' : System TaskLinks}
    (h : toFree l thread = toFree q thread) (he : freeNext ⟨core,l⟩ thread = some c') :
    ∃ a', freeNext ⟨core,q⟩ thread = some a' ∧ c'.toCore = a'.toCore ∧
      c'.queue = popFree l thread ∧ a'.queue = popFree q thread := by
  simp only [freeNext] at he ⊢
  rw [h] at he
  cases hf : toFree q thread with
  | none => simp [hf] at he
  | some t =>
    simp only [hf,Option.some.injEq] at he
    subst he
    refine ⟨_,rfl,?_⟩
    by_cases hb : core.hasCleanup <;> simp [hb,cleanupTask,setTask]

theorem enter_agree
    (h : (dequeue core.allocated core.tasks core.lastSelectedTaskId l).1 =
      (dequeue core.allocated core.tasks core.lastSelectedTaskId q).1) :
    (schedulerMainEnter ⟨core,l⟩).toCore = (schedulerMainEnter ⟨core,q⟩).toCore := by
  let core' : Core := { core with queuedSignalCount := core.queuedSignalCount - 1 }
  unfold schedulerMainEnter
  by_cases hb : core.queuedSignalCount = 0 ∧ ¬ mayExit (⟨core,q⟩ : System TaskLists)
  · have hb' : core.queuedSignalCount = 0 ∧ ¬ mayExit (⟨core,l⟩ : System TaskLinks) := hb
    simp only [if_pos hb,if_pos hb']
  · have hb' : ¬ (core.queuedSignalCount = 0 ∧ ¬ mayExit (⟨core,l⟩ : System TaskLinks)) := hb
    simp only [if_neg hb,if_neg hb']
    by_cases hx : mayExit (⟨core',q⟩ : System TaskLists)
    · have hx' : mayExit (⟨core',l⟩ : System TaskLinks) := hx
      rw [if_pos hx,if_pos hx']
    · have hx' : ¬ mayExit (⟨core',l⟩ : System TaskLinks) := hx
      rw [if_neg hx,if_neg hx']
      rcases hl : dequeue core.allocated core.tasks core.lastSelectedTaskId l with ⟨fl,l'⟩
      rcases hq : dequeue core.allocated core.tasks core.lastSelectedTaskId q with ⟨fq,q'⟩
      rw [hl,hq] at h
      obtain rfl : fl = fq := h
      cases fl <;> rfl

theorem finish_agree (t : TaskRef) (quantum : ℤ) (r : TaskRunResult) :
    (schedulerMainFinish ⟨core,l⟩ t quantum r).toCore =
      (schedulerMainFinish ⟨core,q⟩ t quantum r).toCore := by
  unfold schedulerMainFinish
  simp only
  split
  · rfl
  · split
    · rfl
    · split <;> rfl

theorem Represents.enter (hr : Represents l q)
    (h : Represents (TaskQueue.dequeue core.allocated core.tasks core.lastSelectedTaskId l).2
      (TaskQueue.dequeue core.allocated core.tasks core.lastSelectedTaskId q).2) :
    Represents (schedulerMainEnter ⟨core,l⟩).queue (schedulerMainEnter ⟨core,q⟩).queue := by
  rw [enter_queue,enter_queue]
  by_cases hx : mayExit (⟨core,q⟩ : System TaskLists) ∨ core.queuedSignalCount = 0
  · have hx' : mayExit (⟨core,l⟩ : System TaskLinks) ∨ core.queuedSignalCount = 0 := hx
    rw [if_pos hx,if_pos hx']
    exact hr
  · have hx' : ¬ (mayExit (⟨core,l⟩ : System TaskLinks) ∨ core.queuedSignalCount = 0) := hx
    rw [if_neg hx,if_neg hx']
    exact h

/-- The choice of a scheduler state, where all the keys and numbers are distinct. -/
theorem Represents.dequeue_next (hr : Represents l q)
    (hi : Invariant (⟨core,q⟩ : System TaskLists)) :
    (TaskQueue.dequeue core.allocated core.tasks core.lastSelectedTaskId l).1 =
        (TaskQueue.dequeue core.allocated core.tasks core.lastSelectedTaskId q).1 ∧
      Represents (TaskQueue.dequeue core.allocated core.tasks core.lastSelectedTaskId l).2
        (TaskQueue.dequeue core.allocated core.tasks core.lastSelectedTaskId q).2 := by
  obtain ⟨place,hp⟩ := hi.placed
  refine hr.dequeue core.lastSelectedTaskId hp.separated hp.waiting_length_le ?_ ?_
  · exact fun t ht u hu => hi.burstKey_inj (hp.waiting_lt ht) (hp.waiting_lt hu)
  · exact fun t ht u hu => hi.taskId_inj (hp.waiting_lt ht) (hp.waiting_lt hu)

variable {c c' : System TaskLinks} {a : System TaskLists}

/-- Lockstep refinement: the list scheduler takes the same step. -/
theorem step_refines {x : Action} (h : Refines c a) (he : step c x = some c') :
    ∃ a', step a x = some a' ∧ Refines c' a' := by
  rcases c with ⟨core,l⟩
  rcases a with ⟨core',q⟩
  obtain rfl : core = core' := h.core
  have hr : Represents l q := h.queue
  have hi := h.invariant
  obtain ⟨place,hp⟩ := hi.placed
  have hd : Separated q := hp.separated
  have hlen : q.waiting.length ≤ core.allocated := hp.waiting_length_le
  -- the invariant follows the list scheduler, so only data and links are to be compared
  have hgo : ∀ a', step (⟨core,q⟩ : System TaskLists) x = some a' → c'.toCore = a'.toCore →
      Represents c'.queue a'.queue → ∃ a', step (⟨core,q⟩ : System TaskLists) x = some a' ∧
        Refines c' a' := fun a' ha hc hq => ⟨a',ha,hc,hq,step_invariant hi ha⟩
  cases x with
  | submit request =>
    cases he
    refine hgo _ rfl (submit_agree _) ?_
    simp only [schedulerSubmitTask_frame]
    exact hr.enqueue hd (fun hm => (hp.waiting_lt hm).ne rfl)
      (fun thread hm => (hp.freeing_lt hm).ne rfl)
  | cancel thread client =>
    simp only [step,hr.toFree_eq thread] at he
    split at he
    · rename_i hf
      cases he
      have hu := hr.unlinkClient core.tasks hd hlen thread client
      refine hgo _ (if_pos hf) (cancel_agree thread client hu.1) ?_
      simp only [schedulerCancelClientTasks,cancelCurrent_frame]
      exact hu.2
    · cases he
  | free thread =>
    obtain ⟨a',ha,hc,hl,hq⟩ := free_agree (hr.toFree_eq thread) he
    refine hgo a' ha hc ?_
    rw [hl,hq]
    exact hr.popFree thread
  | requestStop => cases he; exact hgo _ rfl rfl hr
  | enter =>
    have hdeq := hr.dequeue_next hi
    have hqueue := hr.enter hdeq.2
    simp only [step] at he
    split at he
    · rename_i hm
      cases he
      exact hgo _ (by simp only [step,hm]) (enter_agree hdeq.1) hqueue
    · rename_i hm
      cases he
      exact hgo _ (by simp only [step,hm]) (enter_agree hdeq.1) hqueue
    · cases he
  | setBurst remaining =>
    simp only [step] at he
    split at he
    · rename_i t quantum hm
      cases he
      exact hgo (setTask ⟨core,q⟩ t { core.tasks t with remainingBurst := remaining })
        (by simp only [step,hm]) rfl hr
    · cases he
  | result r =>
    simp only [step] at he
    split at he
    · rename_i t quantum hm
      cases he
      exact hgo ⟨{ core with main := .returned t quantum r },q⟩ (by simp only [step,hm]) rfl hr
    · cases he
  | finish =>
    simp only [step] at he
    split at he
    · rename_i t quantum r hm
      cases he
      refine hgo (schedulerMainFinish ⟨core,q⟩ t quantum r) (by simp only [step,hm])
        (finish_agree t quantum r) ?_
      have hcur : core.currentTask = some t := by rw [← hi.counted.main_task,hm]; rfl
      rw [finish_queue,finish_queue]
      split
      · exact hr.enqueue hd (hp.current_not_waiting hcur) (hp.current_not_freeing hcur)
      · exact hr
    · cases he

end Steps

/-- Every run of the linked scheduler is a run of the list scheduler. -/
theorem runs_refines {c c' : System TaskLinks} {a : System TaskLists} {as : List Action}
    (h : Refines c a) (hrun : Runs (Fires step) c as c') :
    ∃ a', Runs (Fires step) a as a' ∧ Refines c' a' := by
  have hS : ∀ (s : System TaskLinks) (x : Action) (s' : System TaskLinks) (l : System TaskLists),
      Refines s l → Fires step s x s' → ∃ l', Fires step l x l' ∧ Refines s' l' :=
    fun _ _ _ _ hr he => step_refines hr he
  exact hrun.simulate hS h

theorem reachable_refines {c : System TaskLinks} (h : Reachable c) :
    ∃ a : System TaskLists, Reachable a ∧ Refines c a := by
  obtain ⟨config,hasCleanup,as,hrun⟩ := h
  obtain ⟨a,ha,hr⟩ := runs_refines (refines_init config hasCleanup) hrun
  exact ⟨a,⟨config,hasCleanup,as,ha⟩,hr⟩

theorem reachableIf_refines {ok : Core → Action → Prop} {c : System TaskLinks}
    (h : ReachableIf ok c) : ∃ a : System TaskLists, ReachableIf ok a ∧ Refines c a := by
  obtain ⟨config,hasCleanup,as,hrun⟩ := h
  have hS : ∀ (s : System TaskLinks) (x : Action) (s' : System TaskLinks) (l : System TaskLists),
      Refines s l → FiresIf (fun s => ok s.toCore) step s x s' →
        ∃ l', FiresIf (fun s => ok s.toCore) step l x l' ∧ Refines s' l' := by
    rintro s x s' l hr ⟨hok,he⟩
    obtain ⟨l',he',hr'⟩ := step_refines hr he
    have hok' : ok l.toCore x := by rw [← hr.core]; exact hok
    exact ⟨l',⟨hok',he'⟩,hr'⟩
  obtain ⟨a,ha,hr⟩ := hrun.simulate hS (refines_init config hasCleanup)
  exact ⟨a,⟨config,hasCleanup,as,ha⟩,hr⟩

namespace Refines
variable {c : System TaskLinks} {a : System TaskLists}

/-- Walking the links from the head finds the waiting list. -/
theorem waitingRecords (h : Refines c a) :
    waitingRecords c.allocated c.queue = a.queue.waiting := by
  obtain ⟨place,hp⟩ := h.invariant.placed
  have hlen := hp.waiting_length_le
  rw [← h.core] at hlen
  exact h.queue.waitingRecords hlen

theorem toFreeRecords (h : Refines c a) (thread : ThreadId) :
    toFreeRecords c.allocated thread c.queue = a.queue.toFree thread := by
  obtain ⟨place,hp⟩ := h.invariant.placed
  have hlen := hp.toFree_length_le thread
  rw [← h.core] at hlen
  rw [Scheduler.toFreeRecords,(h.queue.toFree thread).visits_eq hlen,withPrevious_map_snd]

end Refines

end UnixShell.Scheduler
