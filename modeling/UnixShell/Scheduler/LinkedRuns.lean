import UnixShell.Foundation.Runs
import UnixShell.Scheduler.Refinement

/-! # Any sequence of queue operations

The append and the three unlinking sites in any order, over one heap of records.
What a call reads of the records is its own: the fields may change in between. The
loops are bounded by a number that is at least the number of calls.
-/
namespace UnixShell.Scheduler
open Foundation

inductive QueueCall
  | enqueue (task : TaskRef)
  | dequeue (tasks : TaskRef → Task) (lastSelectedTaskId : ℤ)
  | cancel (tasks : TaskRef → Task) (thread : ThreadId) (clientNumber : ℤ)

section Calls
variable (fuel : ℕ)

/-- What the call returns, and the links it leaves. -/
def queueCall (l : TaskLinks) : QueueCall → Option TaskRef × TaskLinks
  | .enqueue t => (none,enqueueTaskLocked l t)
  | .dequeue tasks last => dequeueNextTaskLocked fuel tasks last l
  | .cancel tasks thread client => (none,(unlinkClientTasks fuel tasks thread client l).2)

/-- A record is queued only while it is not in the queue. -/
def Admits (l : TaskLinks) : QueueCall → Prop
  | .enqueue t => t ∉ waitingRecords fuel l
  | .dequeue _ _ => True
  | .cancel _ _ _ => True

instance (l : TaskLinks) (call : QueueCall) : Decidable (Admits fuel l call) :=
  match call with
  | .enqueue t => inferInstanceAs (Decidable (t ∉ waitingRecords fuel l))
  | .dequeue _ _ => inferInstanceAs (Decidable True)
  | .cancel _ _ _ => inferInstanceAs (Decidable True)

def queueStep (l : TaskLinks) (call : QueueCall) : Option TaskLinks :=
  if Admits fuel l call then some (queueCall fuel l call).2 else none

/-- The run starts from the queue that `scheduler_init` leaves. -/
def queueRun (calls : List QueueCall) : Option TaskLinks :=
  exec (queueStep fuel) (TaskQueue.empty : TaskLinks) calls

end Calls

/-- From the head the links visit these records, each once, and end; the tail is the last. -/
structure Visits (queue : LinkedQueue TaskRef) (xs : List TaskRef) : Prop where
  linked : Linked queue.next queue.head xs
  nodup : xs.Nodup
  tail_eq : queue.tail = xs.getLast?
  tail_eq_none : queue.tail = none ↔ xs = []

theorem visits_of_holds {queue : LinkedQueue TaskRef} {xs : List TaskRef} (h : queue.Holds xs) :
    Visits queue xs := by
  refine ⟨h.linked,h.nodup,h.tail_eq,?_⟩
  rw [h.tail_eq]
  exact List.getLast?_eq_none_iff

/-- What a call is on the lists before and after it. -/
def IsListCall (call : QueueCall) (returned : Option TaskRef) (l' : TaskLinks)
    (xs ys : List TaskRef) : Prop :=
  match call with
  | .enqueue t => ys = xs ++ [t]
  | .dequeue _ _ =>
    match returned with
    | none => xs = [] ∧ ys = []
    | some t => t ∈ xs ∧ ys = xs.erase t ∧ l'.queue.next t = none
  | .cancel tasks _ client => ys = xs.filter (fun t => (tasks t).clientNumber ≠ client)

section Steps
variable {fuel : ℕ} {l : TaskLinks} {xs : List TaskRef}

theorem scan_names (tasks : TaskRef → Task) (xs : List TaskRef) :
    Names (withPrevious none xs) (twoLeast (Shorter tasks) (withPrevious none xs)) :=
  twoLeast_names (withPrevious none xs)

/-- Both scans take out a record that they visit, and nothing only where nothing waits. -/
theorem dequeue_isListCall (h : l.queue.Holds xs) (hf : xs.length ≤ fuel)
    (tasks : TaskRef → Task) (last : ℤ) :
    ∃ ys, (dequeueNextTaskLocked fuel tasks last l).2.queue.Holds ys ∧
      IsListCall (.dequeue tasks last) (dequeueNextTaskLocked fuel tasks last l).1
        (dequeueNextTaskLocked fuel tasks last l).2 xs ys := by
  have hv : visits l.queue.next fuel none l.queue.head = withPrevious none xs :=
    h.linked.visits_eq hf
  have hout : ∀ found ∈ withPrevious none xs, ∃ ys, (takeOut l found).2.queue.Holds ys ∧
      IsListCall (.dequeue tasks last) (takeOut l found).1 (takeOut l found).2 xs ys := by
    intro found hm
    obtain ⟨hh,hn⟩ := takeOut_holds h hm
    exact ⟨xs.erase found.2,hh,snd_mem_of_mem_withPrevious hm,rfl,hn⟩
  simp only [dequeueNextTaskLocked,hv]
  cases hs : (withPrevious none xs).find? (fun cursor => isShell tasks cursor.2) with
  | some found => exact hout found (List.mem_of_find?_eq_some hs)
  | none =>
    have hshell : xs.find? (isShell tasks) = none := by
      rw [← withPrevious_map_snd none xs,List.find?_map,Option.map_eq_none_iff]
      exact hs
    obtain ⟨hmem,hnone⟩ := (scan_names tasks xs).pickAvoiding
      (fun found => (tasks found.2).taskId = last)
    simp only [chooseShortestProgramLocked,hv,scan_eq_twoLeast hshell]
    split
    · rename_i hp
      have hxs : xs = [] := by
        rw [← withPrevious_map_snd none xs,hnone hp,List.map_nil]
      subst hxs
      exact ⟨[],h,rfl,rfl⟩
    · rename_i found hp
      exact hout found (hmem found hp)

theorem cancel_isListCall (h : l.queue.Holds xs) (hf : xs.length ≤ fuel)
    (tasks : TaskRef → Task) (thread : ThreadId) (client : ℤ) :
    (unlinkClientTasks fuel tasks thread client l).2.queue.Holds
      (xs.filter (fun t => (tasks t).clientNumber ≠ client)) := by
  have hq : l.queue.Holds ([] ++ xs) := h
  have hr := cancelLoop_removed tasks client xs hq Linked.nil (by simp) hf
  rw [List.getLast?_nil,← h.head_eq] at hr
  have hh := hr.holds
  simp only [List.nil_append] at hh
  have hp : (fun t => !ownedBy tasks client t) =
      fun t => decide ((tasks t).clientNumber ≠ client) := by
    funext t
    simp [ownedBy]
  rw [← hp]
  exact hh

theorem queueCall_isListCall {call : QueueCall} (h : l.queue.Holds xs) (hf : xs.length ≤ fuel)
    (ha : Admits fuel l call) :
    ∃ ys, (queueCall fuel l call).2.queue.Holds ys ∧
      IsListCall call (queueCall fuel l call).1 (queueCall fuel l call).2 xs ys := by
  cases call with
  | enqueue t =>
    have hw : waitingRecords fuel l = xs := by
      rw [waitingRecords,h.linked.visits_eq hf,withPrevious_map_snd]
    have ht : t ∉ xs := by
      rw [← hw]
      exact ha
    exact ⟨xs ++ [t],h.append ht,rfl⟩
  | dequeue tasks last => exact dequeue_isListCall h hf tasks last
  | cancel tasks thread client => exact ⟨_,cancel_isListCall h hf tasks thread client,rfl⟩

/-- No call makes the list longer by more than one. -/
theorem IsListCall.length_le {call : QueueCall} {returned : Option TaskRef} {l' : TaskLinks}
    {ys : List TaskRef} (h : IsListCall call returned l' xs ys) : ys.length ≤ xs.length + 1 := by
  cases call with
  | enqueue t =>
    obtain rfl : ys = xs ++ [t] := h
    simp
  | dequeue tasks last =>
    cases returned with
    | none =>
      obtain ⟨rfl,rfl⟩ : xs = [] ∧ ys = [] := h
      simp
    | some t =>
      obtain ⟨_,rfl,_⟩ : t ∈ xs ∧ ys = xs.erase t ∧ l'.queue.next t = none := h
      exact (List.length_erase_le).trans (Nat.le_succ _)
  | cancel tasks thread client =>
    obtain rfl : ys = xs.filter (fun t => (tasks t).clientNumber ≠ client) := h
    exact (List.length_filter_le _ _).trans (Nat.le_succ _)

/-- The list a run leaves is no longer than the run. -/
theorem queueRun_holds {calls : List QueueCall} (hf : calls.length ≤ fuel)
    (he : queueRun fuel calls = some l) : ∃ xs, l.queue.Holds xs ∧ xs.length ≤ calls.length := by
  induction calls using List.reverseRecOn generalizing l with
  | nil =>
    cases he
    exact ⟨[],⟨Linked.nil,rfl⟩,le_rfl⟩
  | append_singleton calls call ih =>
    rw [queueRun,exec,List.foldlM_append] at he
    obtain ⟨l₀,h₀,he⟩ := Option.bind_eq_some_iff.mp he
    have hlen : calls.length ≤ fuel := by
      simp only [List.length_append,List.length_singleton] at hf
      omega
    obtain ⟨xs,hx,hxl⟩ := ih hlen h₀
    simp only [List.foldlM_cons,List.foldlM_nil,queueStep] at he
    split at he
    · rename_i ha
      cases he
      obtain ⟨ys,hy,hc⟩ := queueCall_isListCall hx (hxl.trans hlen) ha
      refine ⟨ys,hy,?_⟩
      have := hc.length_le
      simp only [List.length_append,List.length_singleton]
      omega
    · cases he

end Steps

/-- After any sequence of calls the links visit a list, and the next call, whatever it is,
is the list operation it stands for. -/
theorem queue_refines_list {fuel : ℕ} {calls : List QueueCall} {call : QueueCall} {l : TaskLinks}
    (hf : calls.length ≤ fuel) (he : queueRun fuel calls = some l) (ha : Admits fuel l call) :
    ∃ xs ys, Visits l.queue xs ∧ Visits (queueCall fuel l call).2.queue ys ∧
      IsListCall call (queueCall fuel l call).1 (queueCall fuel l call).2 xs ys := by
  obtain ⟨xs,hx,hl⟩ := queueRun_holds hf he
  obtain ⟨ys,hy,hc⟩ := queueCall_isListCall hx (hl.trans hf) ha
  exact ⟨xs,ys,visits_of_holds hx,visits_of_holds hy,hc⟩

def shellInTheMiddle (t : TaskRef) : Task :=
  { blankTask with type := if t = 1 then .shell else .program }

theorem queue_refines_list_middle :
    ∃ l, queueRun 3 [.enqueue 0,.enqueue 1,.enqueue 2] = some l ∧ ∃ xs ys, Visits l.queue xs ∧
      Visits (queueCall 3 l (.dequeue shellInTheMiddle 0)).2.queue ys ∧
      IsListCall (.dequeue shellInTheMiddle 0) (queueCall 3 l (.dequeue shellInTheMiddle 0)).1
        (queueCall 3 l (.dequeue shellInTheMiddle 0)).2 xs ys := by
  obtain ⟨l,he⟩ := Option.isSome_iff_exists.mp
    (show (queueRun 3 [.enqueue 0,.enqueue 1,.enqueue 2]).isSome = true from rfl)
  exact ⟨l,he,queue_refines_list (by decide) he trivial⟩

end UnixShell.Scheduler
