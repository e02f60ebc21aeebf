import UnixShell.Foundation.LinkedQueue
import UnixShell.Foundation.RunnerUp
import UnixShell.Scheduler.Task
import Mathlib.Data.List.MinMax
import Mathlib.Data.Prod.Lex

/-! # The waiting queue, linked and as a list

The operations of the source work on links; the second instance says on plain
lists what they are for. Loop counters are bounded by the number of records.
-/
namespace UnixShell.Scheduler
open Foundation

/-- The operations by which the scheduler touches its queues. The loops of the
linked instance take the number of records that exist as their bound. -/
class TaskQueue (Q : Type) where
  empty : Q
  enqueue : Q → TaskRef → Q
  dequeue : ℕ → (TaskRef → Task) → ℤ → Q → Option TaskRef × Q
  /-- Moves the records of one client to the caller's list; the records moved. -/
  unlinkClient : ℕ → (TaskRef → Task) → ThreadId → ℤ → Q → List TaskRef × Q
  /-- The first record of the caller's list. -/
  toFree : Q → ThreadId → Option TaskRef
  popFree : Q → ThreadId → Q

/-- Queue pointers, links, and each cancelling thread's local `to_free`. -/
structure TaskLinks where
  queue : LinkedQueue TaskRef
  toFree : ThreadId → Option TaskRef

section Linked
variable (fuel : ℕ) (tasks : TaskRef → Task)

def enqueueTaskLocked (q : TaskLinks) (task : TaskRef) : TaskLinks :=
  { q with queue := q.queue.append task }

/-- The order of the scan: shorter remaining burst, then earlier arrival. -/
def Shorter (a b : Option TaskRef × TaskRef) : Prop :=
  (tasks a.2).remainingBurst < (tasks b.2).remainingBurst ∨
    ((tasks a.2).remainingBurst = (tasks b.2).remainingBurst ∧
      (tasks a.2).arrivalOrder < (tasks b.2).arrivalOrder)

instance : DecidableRel (Shorter tasks) :=
  fun _ _ => inferInstanceAs (Decidable (_ ∨ (_ ∧ _)))

def isShell (task : TaskRef) : Bool := (tasks task).type = .shell

/-- Takes out the record at a cursor whose predecessor is known. -/
def takeOut (q : TaskLinks) (found : Option TaskRef × TaskRef) : Option TaskRef × TaskLinks :=
  (some found.2,{ q with queue := (q.queue.unlink found.1 found.2).setNext found.2 none })

def chooseShortestProgramLocked (lastSelectedTaskId : ℤ) (q : TaskLinks) :
    Option TaskRef × TaskLinks :=
  let two := (visits q.queue.next fuel none q.queue.head).foldl
    (fun best cursor =>
      if (tasks cursor.2).type = .program then keepTwo (Shorter tasks) best cursor else best)
    (none,none)
  match pickAvoiding (fun found => (tasks found.2).taskId = lastSelectedTaskId) two with
  | none => (none,q)
  | some found => takeOut q found

def dequeueNextTaskLocked (lastSelectedTaskId : ℤ) (q : TaskLinks) :
    Option TaskRef × TaskLinks :=
  match (visits q.queue.next fuel none q.queue.head).find? (fun cursor => isShell tasks cursor.2) with
  | some found => takeOut q found
  | none => chooseShortestProgramLocked fuel tasks lastSelectedTaskId q

/-- The removal loop of `scheduler_cancel_client_tasks`. A match is unlinked and
pushed on `to_free`; the records removed are returned in the order of the queue. -/
def cancelLoop (clientNumber : ℤ) :
    ℕ → Option TaskRef → Option TaskRef → LinkedQueue TaskRef → Option TaskRef →
      List TaskRef × LinkedQueue TaskRef × Option TaskRef
  | 0, _, _, q, toFree => ([],q,toFree)
  | _ + 1, _, none, q, toFree => ([],q,toFree)
  | n + 1, previous, some cursor, q, toFree =>
    if (tasks cursor).clientNumber = clientNumber then
      let q := q.unlink previous cursor
      let rest := q.next cursor
      let r := cancelLoop clientNumber n previous rest (q.setNext cursor toFree) (some cursor)
      (cursor :: r.1,r.2)
    else cancelLoop clientNumber n (some cursor) (q.next cursor) q toFree

def unlinkClientTasks (thread : ThreadId) (clientNumber : ℤ) (q : TaskLinks) :
    List TaskRef × TaskLinks :=
  let r := cancelLoop tasks clientNumber fuel none q.queue.head q.queue none
  (r.1,{ queue := r.2.1, toFree := Function.update q.toFree thread r.2.2 })

/-- `scheduler_waiting_count`, with the records it steps over. -/
def waitingRecords (q : TaskLinks) : List TaskRef :=
  (visits q.queue.next fuel none q.queue.head).map Prod.snd

/-- The records a cancelling thread has still to free. -/
def toFreeRecords (thread : ThreadId) (q : TaskLinks) : List TaskRef :=
  (visits q.queue.next fuel none (q.toFree thread)).map Prod.snd

end Linked

instance : TaskQueue TaskLinks where
  empty :=
    { queue := { next := fun _ => none, head := none, tail := none }, toFree := fun _ => none }
  enqueue := enqueueTaskLocked
  dequeue := dequeueNextTaskLocked
  unlinkClient := unlinkClientTasks
  toFree q thread := q.toFree thread
  popFree q thread :=
    { q with toFree := Function.update q.toFree thread ((q.toFree thread).bind q.queue.next) }

/-- The waiting tasks in queue order, and each caller's records still to be freed. -/
structure TaskLists where
  waiting : List TaskRef
  toFree : ThreadId → List TaskRef

/-- Shortest remaining burst first, ties by arrival. -/
def BurstKey : Type := ℤ ×ₗ ℕ

-- the orders of the parts are named because the search may end at one that does not compute
instance : LinearOrder BurstKey :=
  @Prod.Lex.instLinearOrder ℤ ℕ Int.instLinearOrder Nat.instLinearOrder

section Lists
variable (tasks : TaskRef → Task)

def burstKey (task : TaskRef) : BurstKey :=
  toLex ((tasks task).remainingBurst,(tasks task).arrivalOrder)

theorem burstKey_lt {t u : TaskRef} : burstKey tasks t < burstKey tasks u ↔
    (tasks t).remainingBurst < (tasks u).remainingBurst ∨
      (tasks t).remainingBurst = (tasks u).remainingBurst ∧
        (tasks t).arrivalOrder < (tasks u).arrivalOrder :=
  Prod.Lex.toLex_lt_toLex

/-- The dispatch policy: the first shell task; else the least program that was not
selected last; else whatever waits. -/
def nextTask (lastSelectedTaskId : ℤ) (waiting : List TaskRef) : Option TaskRef :=
  match waiting.find? (isShell tasks) with
  | some shell => some shell
  | none =>
    match (waiting.filter (fun t => (tasks t).taskId ≠ lastSelectedTaskId)).argmin
        (burstKey tasks) with
    | some program => some program
    | none => waiting.head?

def ownedBy (clientNumber : ℤ) (task : TaskRef) : Bool := (tasks task).clientNumber = clientNumber

end Lists

instance : TaskQueue TaskLists where
  empty := { waiting := [], toFree := fun _ => [] }
  enqueue q task := { q with waiting := q.waiting ++ [task] }
  dequeue _ tasks last q :=
    match nextTask tasks last q.waiting with
    | none => (none,q)
    | some task => (some task,{ q with waiting := q.waiting.erase task })
  unlinkClient _ tasks thread client q :=
    (q.waiting.filter (ownedBy tasks client),
      { waiting := q.waiting.filter (fun t => !ownedBy tasks client t)
        toFree := Function.update q.toFree thread
          (q.waiting.filter (ownedBy tasks client)).reverse })
  toFree q thread := (q.toFree thread).head?
  popFree q thread := { q with toFree := Function.update q.toFree thread (q.toFree thread).tail }

end UnixShell.Scheduler
