import UnixShell.Server.Threads

/-! # Clients that disconnect

The process around the server: the connections that their peers have closed, and `send_all`
call by call. A `send` with flags 0 on a connection that no longer takes bytes raises
`SIGPIPE`, and nothing in the server changes what that signal does by default.
-/
namespace UnixShell.Server
open Foundation Scheduler

/-- How one `send` ends. -/
inductive SendAnswer
  | accepted (count : ℕ)
  | interrupted
  | failed
  /-- `EPIPE`, with `SIGPIPE`. -/
  | broken
  deriving DecidableEq, Repr

/-- What one turn of the loop of `send_all` leads to. -/
inductive SendTurn
  | goesOn (totalSent : ℕ)
  | returns (ok : Bool)
  | killed
  deriving DecidableEq, Repr

/-- One turn of `send_all`, where the kernel takes a byte at least and no more than offered. -/
def sendAll (length totalSent : ℕ) : SendAnswer → Option SendTurn
  | .accepted count =>
    if 0 < count ∧ totalSent + count ≤ length then
      some (if totalSent + count = length then .returns true else .goesOn (totalSent + count))
    else none
  | .interrupted => some (.goesOn totalSent)
  | .failed => some (.returns false)
  | .broken => some .killed

def Piece.length : Piece → ℕ
  | .status _ => 4
  | .size _ => 4
  | .payload bytes => bytes.length

structure ServerProcess (Q : Type) where
  server : State Q
  /-- The connections that their peers have closed. -/
  closed : ThreadId → Bool
  /-- `total_sent` in the `send_all` of each client thread and of the scheduler thread. -/
  clientSent : ThreadId → ℕ
  executorSent : ℕ
  /-- No signal has ended the process. -/
  running : Bool

/-- A client thread, or the scheduler thread. -/
abbrev Sender := Option ThreadId

inductive ProcessAction
  /-- The peer of a connection closes it. -/
  | closes (connection : ThreadId)
  | send (sender : Sender) (answer : SendAnswer)
  /-- A step of the server that is no return from `send_all`. -/
  | other (a : ServerAction)
  deriving DecidableEq, Repr

/-- The piece that a thread is in `send_all` with. -/
def pieceOf (w : World) : Sender → Option Piece
  | some c =>
    match (w.clients c).pc with
    | .responding _ (piece :: _) => some piece
    | .farewell (piece :: _) => some piece
    | _ => none
  | none =>
    match w.round with
    | some r =>
      match r.pc with
      | .sending _ _ (piece :: _) => some piece
      | _ => none
    | none => none

/-- The connection that a thread sends on. -/
def peerOf (w : World) : Sender → Option ThreadId
  | some c => connectionOf w (some (w.clients c).socketFd)
  | none => w.round.bind fun r => connectionOf w (w.contexts r.context).socketFd

/-- The step of the server in which `send_all` returns. -/
def returned (ok : Bool) : Sender → ServerAction
  | some c => .send c ok
  | none => .exec (.sent ok)

def ServerAction.returns : ServerAction → Bool
  | .send _ _ => true
  | .exec (.sent _) => true
  | _ => false

/-- Bytes are taken on an open descriptor only, and a pipe breaks only where the peer has
closed it. -/
def mayAnswer (closed : ThreadId → Bool) (peer : Option ThreadId) : SendAnswer → Bool
  | .accepted _ => peer.isSome
  | .broken => peer.any closed
  | _ => true

section Process
variable {Q : Type} [TaskQueue Q]

def setSent (p : ServerProcess Q) (sender : Sender) (totalSent : ℕ) : ServerProcess Q :=
  match sender with
  | some c => { p with clientSent := Function.update p.clientSent c totalSent }
  | none => { p with executorSent := totalSent }

def sentBy (p : ServerProcess Q) : Sender → ℕ
  | some c => p.clientSent c
  | none => p.executorSent

def sendTurn (p : ServerProcess Q) (sender : Sender) : SendTurn → Option (ServerProcess Q)
  | .goesOn totalSent => some (setSent p sender totalSent)
  | .returns ok =>
    (serverStep p.server (returned ok sender)).map
      (fun s => setSent { p with server := s } sender 0)
  | .killed => some { p with running := false }

def processStep (p : ServerProcess Q) (a : ProcessAction) : Option (ServerProcess Q) :=
  if p.running then
    match a with
    | .closes connection =>
      some { p with closed := Function.update p.closed connection true }
    | .send sender answer =>
      match pieceOf p.server.world sender with
      | some piece =>
        if mayAnswer p.closed (peerOf p.server.world sender) answer then
          (sendAll piece.length (sentBy p sender) answer).bind (sendTurn p sender)
        else none
      | none => none
    | .other a =>
      if a.returns then none
      else (serverStep p.server a).map (fun s => { p with server := s })
  else none

def processInit (Q : Type) [TaskQueue Q] : ServerProcess Q where
  server := serverInit Q
  closed := fun _ => false
  clientSent := fun _ => 0
  executorSent := 0
  running := true

/-- `send_all` has returned -1, and its caller is on its error path. -/
inductive ErrorPath (w w' : World) : Sender → Prop
  | response {c : ThreadId} {k : ContextRef} {pieces : List Piece} :
      (w.clients c).pc = .responding k pieces → (w'.clients c).pc = .releasing k false →
      w'.round = w.round → ErrorPath w w' (some c)
  | farewell {c : ThreadId} {pieces : List Piece} :
      (w.clients c).pc = .farewell pieces → (w'.clients c).pc = .closing →
      w'.round = w.round → ErrorPath w w' (some c)
  | progress {r : Round} {site : Site} {chunk : Text} {pieces : List Piece} :
      w.round = some r → r.pc = .sending site chunk pieces →
      w'.round = some { r with
        pc := .exiting (.drainFailed site) (exitOps (.drainFailed site)) } → ErrorPath w w' none

/-- The scheduler, the tasks and the other clients do not notice. -/
structure Unaffected (sender : Sender) (s s' : State Q) : Prop where
  sched : s'.sched = s.sched
  contexts : s'.world.contexts = s.world.contexts
  procs : s'.world.procs = s.world.procs
  clock : s'.world.clock = s.world.clock
  sockets : s'.world.sockets = s.world.sockets
  clients : ∀ d, sender ≠ some d → s'.world.clients d = s.world.clients d

/-- One `send`: `send_all` is made again, or it returns to its caller. -/
structure SendReturns (sender : Sender) (p p' : ServerProcess Q) : Prop where
  running : p'.running = true
  outcome : p'.server = p.server ∨
    serverStep p.server (returned true sender) = some p'.server ∨
    ErrorPath p.server.world p'.server.world sender ∧ Unaffected sender p.server p'.server

variable {s s' : State Q} {p p' : ServerProcess Q} {piece : Piece} {sender : Sender}
  {answer : SendAnswer} {a : ProcessAction}

theorem send_errorPath {c : ThreadId} (hpiece : pieceOf s.world (some c) = some piece)
    (he : serverStep s (.send c false) = some s') :
    ErrorPath s.world s'.world (some c) ∧ Unaffected (some c) s s' := by
  have hclient : ∃ w, clientSend s.world c false = some w ∧ s' = { s with world := w } := by
    rcases serverStep_cases he with ⟨w,hr,rfl⟩ | ⟨y,w,sched,hr,hs,rfl⟩
    · obtain ⟨w',hw,hr'⟩ := Option.map_eq_some_iff.mp hr
      cases hr'
      exact ⟨w,hw,rfl⟩
    · obtain ⟨w',hw,hr'⟩ := Option.map_eq_some_iff.mp hr
      cases hr'
  obtain ⟨w,hw,rfl⟩ := hclient
  have hother : ∀ pc d, (some c : Sender) ≠ some d →
      (setPc s.world c pc).clients d = s.world.clients d := by
    intro pc d hd
    apply Function.update_of_ne
    rintro rfl
    exact hd rfl
  have hpc : ∀ pc, ((setPc s.world c pc).clients c).pc = pc := by
    intro pc
    simp [setPc]
  unfold pieceOf at hpiece
  dsimp only at hpiece
  unfold clientSend at hw
  split at hpiece
  · rename_i k piece rest hp
    rw [hp] at hw
    cases hw
    exact ⟨.response hp (hpc _) rfl,rfl,rfl,rfl,rfl,rfl,hother _⟩
  · rename_i piece rest hp
    rw [hp] at hw
    cases hw
    exact ⟨.farewell hp (hpc _) rfl,rfl,rfl,rfl,rfl,rfl,hother _⟩
  · cases hpiece

theorem progress_errorPath (hpiece : pieceOf s.world none = some piece)
    (he : serverStep s (.exec (.sent false)) = some s') :
    ErrorPath s.world s'.world none ∧ Unaffected none s s' := by
  obtain ⟨r,m,hr,hm,hw,hs⟩ := serverStep_executor he
  unfold pieceOf at hpiece
  rw [hr] at hpiece
  dsimp only at hpiece
  split at hpiece
  · rename_i site chunk piece rest hp
    unfold serverTaskExecutor at hm
    rw [hp] at hm
    obtain rfl := Option.some.inj hm
    have hsched : s'.sched = s.sched := by
      rcases hs with ⟨_,hs⟩ | ⟨y,hy,_⟩
      · exact hs
      · cases hy
    refine ⟨.progress hr hp ?_,hsched,?_,?_,?_,?_,?_⟩
    · rw [hw,drained_false]
      rfl
    · rw [hw]
      exact Function.update_eq_self _ _
    · rw [hw]
      rfl
    · rw [hw]
      rfl
    · rw [hw]
      rfl
    · intro d _
      rw [hw]
      rfl
  · cases hpiece

omit [TaskQueue Q] in
theorem setSent_server (p : ServerProcess Q) (sender : Sender) (totalSent : ℕ) :
    (setSent p sender totalSent).server = p.server := by
  cases sender <;> rfl

omit [TaskQueue Q] in
theorem setSent_running (p : ServerProcess Q) (sender : Sender) (totalSent : ℕ) :
    (setSent p sender totalSent).running = p.running := by
  cases sender <;> rfl

/-- A `send` that raises no signal. -/
theorem send_returns (he : processStep p (.send sender answer) = some p')
    (ha : answer ≠ .broken) : SendReturns sender p p' := by
  unfold processStep at he
  split at he
  · rename_i hrun
    dsimp only at he
    split at he
    · rename_i piece hpiece
      split at he
      · obtain ⟨turn,hturn,he⟩ := Option.bind_eq_some_iff.mp he
        cases turn with
        | goesOn totalSent =>
          cases he
          exact ⟨by rw [setSent_running]; exact hrun,Or.inl (setSent_server _ _ _)⟩
        | returns ok =>
          obtain ⟨s,hs,rfl⟩ := Option.map_eq_some_iff.mp he
          refine ⟨by rw [setSent_running]; exact hrun,Or.inr ?_⟩
          rw [setSent_server]
          cases ok with
          | true => exact Or.inl hs
          | false =>
            right
            cases sender with
            | some c => exact send_errorPath hpiece hs
            | none => exact progress_errorPath hpiece hs
        | killed =>
          -- only a broken pipe raises the signal
          unfold sendAll at hturn
          split at hturn
          · split at hturn
            · have hturn' := Option.some.inj hturn
              split at hturn' <;> cases hturn'
            · cases hturn
          · cases hturn
          · cases hturn
          · exact (ha rfl).elim
      · cases he
    · cases he
  · cases he

theorem processStep_running (he : processStep p a = some p')
    (ha : ∀ sender, a ≠ .send sender .broken) : p'.running = true := by
  cases a with
  | send sender answer =>
    apply (send_returns he _).running
    rintro rfl
    exact ha sender rfl
  | closes connection =>
    unfold processStep at he
    split at he
    · rename_i hrun
      cases he
      exact hrun
    · cases he
  | other a =>
    unfold processStep at he
    split at he
    · rename_i hrun
      dsimp only at he
      split at he
      · cases he
      · obtain ⟨s,_,rfl⟩ := Option.map_eq_some_iff.mp he
        exact hrun
    · cases he

theorem broken_ends (he : processStep p (.send sender .broken) = some p') :
    p'.running = false := by
  unfold processStep at he
  split at he
  · dsimp only at he
    split at he
    · split at he
      · cases he
        rfl
      · cases he
    · cases he
  · cases he

end Process

variable (actions : List ProcessAction)

/-- A disconnecting client does not take the server down: in a run the process goes on, and
each `send_all` ends by returning to its caller. -/
structure Outlives : Prop where
  running : ∀ pre post p, actions = pre ++ post →
    exec processStep (processInit TaskLinks) pre = some p → p.running = true
  returns : ∀ pre sender answer post p p', actions = pre ++ .send sender answer :: post →
    exec processStep (processInit TaskLinks) pre = some p →
    processStep p (.send sender answer) = some p' → SendReturns sender p p'

/-- No `send` is called on a connection that its peer has closed and that takes no more. -/
def NoBrokenPipe : Prop :=
  ∀ pre sender post p p', actions = pre ++ .send sender .broken :: post →
    exec processStep (processInit TaskLinks) pre = some p →
    processStep p (.send sender .broken) ≠ some p'

/-- The client of a demo leaves while its progress is sent; another client's command waits. -/
def leavesDuringProgress : List ProcessAction :=
  [.other (.accept 4),
   .other (.request 0 (.program "./demo 3".toList ["./demo".toList,"3".toList] 3)),
   .other .enter,.other (.exec .go),.other (.exec (.started true)),.other (.exec .go),
   .other (.childWrite 1 "Demo 0/3\n".toList),.other (.accept 5),
   .other (.request 1 (.shell "ls".toList)),.other (.exec .go),
   .other (.exec (.readSome 512 true)),.send none (.accepted 4),.closes 0,.send none .broken]

end UnixShell.Server
