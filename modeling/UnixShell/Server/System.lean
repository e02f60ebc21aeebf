import UnixShell.Server.Executor

/-! # Client threads, the accept loop and the whole server

A client thread is cut at its critical sections and system calls as the executor is.
A step of the server asks the scheduler for at most one of its steps; what the
scheduler calls back (start of a round, cleanup of a task) happens inside that step.
The descriptor table holds the sockets: `accept` may return any free number.
-/
namespace UnixShell.Server
open Foundation Scheduler

inductive ClientPc
  | receiving
  | farewell (pieces : List Piece)
  | waiting (context : ContextRef)
  | peeking (context : ContextRef)
  /-- In `handle_task_response`, before the answer is read off the context. -/
  | answering (context : ContextRef)
  /-- About to call `scheduler_cancel_client_tasks`, from `wait_for_task` or `handle_client`. -/
  | cancelling (context : Option ContextRef)
  | freeing (context : Option ContextRef)
  | responding (context : ContextRef) (pieces : List Piece)
  | idleCheck (context : ContextRef)
  | printing (context : ContextRef)
  | releasing (context : ContextRef) (again : Bool)
  | closing
  | gone
  deriving DecidableEq, Repr

structure Client where
  socketFd : Fd
  clientNumber : ℤ
  pc : ClientPc
  deriving DecidableEq, Repr

/-- A received command, after it was parsed and its records were allocated. -/
inductive Request
  | exit
  | program (command : Text) (argv : List Text) (iterations : ℤ)
  | shell (command : Text)
  /-- Some allocation failed. -/
  | unavailable
  deriving DecidableEq, Repr

structure World where
  contexts : ContextRef → TaskContext
  /-- The thread that submitted each task. -/
  owner : ContextRef → ThreadId
  round : Option Round
  procs : Processes
  nextPid : Pid
  clock : Clock
  clients : ThreadId → Client
  nextThread : ThreadId
  sockets : Fd → Option ThreadId
  log : List ServerEvent

structure State (Q : Type) where
  sched : System Q
  world : World

inductive ServerAction
  | accept (fd : Fd)
  | request (c : ThreadId) (request : Request)
  | hangup (c : ThreadId)
  | poll (c : ThreadId)
  | fetch (c : ThreadId)
  | peek (c : ThreadId) (closed : Bool)
  | cancel (c : ThreadId)
  | cleanupNext (c : ThreadId)
  | cancelled (c : ThreadId)
  | send (c : ThreadId) (ok : Bool)
  | checkIdle (c : ThreadId)
  | print (c : ThreadId)
  | release (c : ThreadId)
  | close (c : ThreadId)
  | requestStop
  | enter
  | exec (input : Input)
  | finish
  | childWrite (pid : Pid) (bytes : Text)
  | childExit (pid : Pid)
  deriving DecidableEq, Repr

section World
variable (w : World)

def setContext (k : ContextRef) (context : TaskContext) : World :=
  { w with contexts := Function.update w.contexts k context }

def setPc (c : ThreadId) (pc : ClientPc) : World :=
  { w with clients := Function.update w.clients c { w.clients c with pc := pc } }

def record (e : ServerEvent) : World := { w with log := e :: w.log }

def releaseContext (k : ContextRef) : World :=
  let released := taskContextRelease (w.contexts k) w.procs
  { (setContext w k released.1) with procs := released.2 }

def serverTaskCleanup (task : Task) : World :=
  match task.userData with
  | none => w
  | some k => releaseContext w k

/-- The connection behind a descriptor number. -/
def connectionOf (fd : Option Fd) : Option ThreadId := fd.bind w.sockets

/-- `print_summary_if_needed`. -/
def printSummaryIfNeeded : World :=
  if w.clock.hadPreemption = true ∧ w.clock.timeline ≠ [] then
    { (record w (.printed w.clock.timeline)) with
      clock := { timeline := [], hadPreemption := false, currentSliceStartTime := 0 } }
  else w

def createShellTask (client : Client) (command : Text) (k : ContextRef) :
    TaskRequest × TaskContext :=
  ({ type := .shell, clientNumber := client.clientNumber, commandText := some command,
     predictedBurst := -1, userData := some k },
    taskContextCreate)

/-- `create_program_task` and `create_generic_program_task`, given the argument vector
and the burst that they read off the command. -/
def createProgramTask (client : Client) (command : Text) (argv : List Text) (iterations : ℤ)
    (k : ContextRef) : TaskRequest × TaskContext :=
  ({ type := .program, clientNumber := client.clientNumber, commandText := some command,
     predictedBurst := iterations, userData := some k },
    { taskContextCreate with
      argv := some argv
      initialBurst := iterations
      socketFd := some client.socketFd })

/-- The context gets the name of the task that the submission allocates. -/
def submitTask (c : ThreadId) (k : ContextRef) (created : TaskRequest × TaskContext) :
    Option Action × World :=
  (some (.submit created.1),
    { (setPc (setContext w k created.2) c (.waiting k)) with
      owner := Function.update w.owner k c })

def handleRequest (c : ThreadId) (k : ContextRef) : Request → Option Action × World
  | .exit => (none,setPc w c (.farewell (packetPieces .serverExit [])))
  | .program command argv iterations =>
    submitTask w c k (createProgramTask (w.clients c) command argv iterations k)
  | .shell command => submitTask w c k (createShellTask (w.clients c) command k)
  | .unavailable => (none,setPc w c .closing)

/-- One `send_all` of a client thread. The result of the farewell is not looked at. -/
def clientSend (c : ThreadId) (ok : Bool) : Option World :=
  match (w.clients c).pc,ok,connectionOf w (some (w.clients c).socketFd) with
  | .responding k (piece :: rest),true,some connection =>
    let w := record w (.answer connection k piece)
    if rest = [] then some (record (setPc w c (.idleCheck k)) (.answered k))
    else some (setPc w c (.responding k rest))
  | .responding k (_ :: _),false,_ => some (setPc w c (.releasing k false))
  | .farewell (piece :: rest),true,some connection =>
    let w := record w (.farewell connection piece)
    some (setPc w c (if rest = [] then .closing else .farewell rest))
  | .farewell (_ :: _),false,_ => some (setPc w c .closing)
  | _,_,_ => none

end World

/-- What the executor sees of the scheduler and of the world. -/
def view (core : Core) (w : World) (r : Round) : View where
  task := core.tasks r.task
  shouldCancel := schedulerTaskShouldCancel core r.task
  shouldPreempt := schedulerTaskShouldPreempt core r.task
  context := w.contexts r.context
  connection := connectionOf w (w.contexts r.context).socketFd
  procs := w.procs
  nextPid := w.nextPid
  clock := w.clock

def applyMove (w : World) (m : Move) : World :=
  { (setContext w m.round.context m.context) with
    round := some m.round
    procs := m.procs
    nextPid := m.nextPid
    clock := m.clock
    log := m.events ++ w.log }

/-- What an action asks of the scheduler, and the world before the scheduler's callbacks. -/
def respond (core : Core) (toFree : ThreadId → Option TaskRef) (w : World) :
    ServerAction → Option (Option Action × World)
  | .accept fd =>
    if w.sockets fd = none then
      some (none,{ w with
        clients := Function.update w.clients w.nextThread
          { socketFd := fd, clientNumber := w.nextThread + 1, pc := .receiving }
        nextThread := w.nextThread + 1
        sockets := Function.update w.sockets fd (some w.nextThread) })
    else none
  | .request c request =>
    match (w.clients c).pc with
    | .receiving => some (handleRequest w c core.allocated request)
    | _ => none
  | .hangup c =>
    match (w.clients c).pc with
    | .receiving => some (none,setPc w c (.cancelling none))
    | _ => none
  | .poll c =>
    match (w.clients c).pc with
    | .waiting k =>
      some (none,setPc w c (if (w.contexts k).done then .answering k else .peeking k))
    | _ => none
  | .fetch c =>
    match (w.clients c).pc with
    | .answering k =>
      some (none,setPc w c (.responding k
        (packetPieces (w.contexts k).responseStatus (w.contexts k).output)))
    | _ => none
  | .peek c closed =>
    match (w.clients c).pc with
    | .peeking k => some (none,setPc w c (if closed then .cancelling (some k) else .waiting k))
    | _ => none
  | .cancel c =>
    match (w.clients c).pc with
    | .cancelling k =>
      some (some (.cancel c (w.clients c).clientNumber),setPc w c (.freeing k))
    | _ => none
  | .cleanupNext c => some (some (.free c),w)
  | .cancelled c =>
    match (w.clients c).pc,toFree c with
    | .freeing none,none => some (none,setPc w c .closing)
    | .freeing (some k),none => some (none,setPc w c (.releasing k false))
    | _,_ => none
  | .send c ok => (clientSend w c ok).map (fun w => (none,w))
  | .checkIdle c =>
    match (w.clients c).pc with
    | .idleCheck k =>
      some (none,setPc w c
        (if schedulerHasActiveWork core then .releasing k true else .printing k))
    | _ => none
  | .print c =>
    match (w.clients c).pc with
    | .printing k => some (none,setPc (printSummaryIfNeeded w) c (.releasing k true))
    | _ => none
  | .release c =>
    match (w.clients c).pc with
    | .releasing k again =>
      some (none,setPc (releaseContext w k) c (if again then .receiving else .closing))
    | _ => none
  | .close c =>
    match (w.clients c).pc with
    | .closing =>
      some (none,setPc { w with
        sockets := Function.update w.sockets (w.clients c).socketFd none } c .gone)
    | _ => none
  | .requestStop => some (some .requestStop,w)
  | .enter => some (some .enter,w)
  | .exec input =>
    match w.round with
    | some r => (serverTaskExecutor (view core w r) r input).map
        (fun m => (m.action,applyMove w m))
    | none => none
  | .finish => some (some .finish,w)
  | .childWrite pid bytes =>
    if (w.procs pid).state = .running then
      let written := { w.procs pid with pipe := (w.procs pid).pipe ++ bytes }
      some (none,{ w with procs := Function.update w.procs pid written })
    else none
  | .childExit pid =>
    if (w.procs pid).state = .running then
      some (none,{ w with procs := setState w.procs pid .zombie })
    else none

/-- The locals of `execute_program_task` when it is called. -/
def newRound (t : TaskRef) (k : ContextRef) (quantum : ℤ) : Round where
  task := t
  context := k
  quantum := quantum
  slice := 0
  slicesRun := 0
  sliceEnd := 0
  pc := .start

def startRound (core : Core) (w : World) (t : TaskRef) (quantum : ℤ) : World :=
  record { w with round := some (newRound t ((core.tasks t).userData.getD t) quantum) } (.invoked t)

/-- The call of the executor after a dispatch, and the calls of the cleanup hook. -/
def callbacks (action : Action) (core : Core) (w : World) : World :=
  match action,core.events.head? with
  | .enter,_ =>
    match core.main with
    | .executing t quantum => startRound core w t quantum
    | _ => w
  | .finish,some (.cleanup t) => serverTaskCleanup { w with round := none } (core.tasks t)
  | .finish,_ => { w with round := none }
  | .free _,some (.cleanup t) => serverTaskCleanup w (core.tasks t)
  | _,_ => w

def serverStep {Q : Type} [TaskQueue Q] (s : State Q) (a : ServerAction) : Option (State Q) :=
  match respond s.sched.toCore (TaskQueue.toFree s.sched.queue) s.world a with
  | none => none
  | some (none,w) => some { s with world := w }
  | some (some action,w) =>
    (Scheduler.step s.sched action).map
      (fun sched => { sched := sched, world := callbacks action sched.toCore w })

def demoDefaultBurst : ℤ := 5

def serverConfig : SchedulerConfig where
  firstRoundQuantum := 3
  laterRoundQuantum := 7
  defaultProgramBurst := demoDefaultBurst

def serverInit (Q : Type) [TaskQueue Q] : State Q where
  sched := schedulerInit Q (some serverConfig) true
  world := {
    contexts := fun _ => taskContextCreate
    owner := fun _ => 0
    round := none
    procs := fun _ => { state := .reaped, pipe := [] }
    nextPid := 1
    clock := { timeline := [], hadPreemption := false, currentSliceStartTime := 0 }
    clients := fun _ => { socketFd := 0, clientNumber := 0, pc := .gone }
    nextThread := 0
    sockets := fun _ => none
    log := [] }

def ServerReachable {Q : Type} [TaskQueue Q] (s : State Q) : Prop :=
  Reaches (Fires serverStep) (serverInit Q) s

def ServerReachableIf {Q : Type} [TaskQueue Q] (ok : Core → World → ServerAction → Prop)
    (s : State Q) :
    Prop :=
  Reaches (FiresIf (fun s => ok s.sched.toCore s.world) serverStep) (serverInit Q) s

end UnixShell.Server
