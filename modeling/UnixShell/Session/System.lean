import UnixShell.Protocol.Commands
import UnixShell.Server.Arguments
import UnixShell.Server.Dialogue

/-! # A session: one client and its thread in the server

The main loop of a client is put beside the server, with the bytes of its commands on the
way between them. The other clients, the scheduler thread and the children move as they
do in the server. A `recv` that is interrupted is made again and is no step here.
-/
namespace UnixShell.Session
open Foundation Scheduler Server
open UnixShell.Protocol (Bytes bufferSize fgets trimNewline commandBytes recvLoop Received)

/-- Where the client stands: before `fgets`, in `send_all` with the bytes that it has still to
send, in `receive_response`, or behind its loop with the socket closed. -/
inductive ClientMain
  | prompt
  | sending (command rest : Bytes)
  | awaiting
  | closed
  deriving DecidableEq, Repr

/-- Where `handle_client` stands between two commands: in `recv_command`, back from it with
`recv_result` and the string in `command`, or out of the loop. -/
inductive Listening
  | reading (buffer : Bytes)
  | returned (result : ℤ) (command : Bytes)
  | left
  deriving DecidableEq, Repr

structure Connection where
  server : State TaskLinks
  /-- What is typed and not read yet. -/
  input : Bytes
  main : ClientMain
  /-- The calls of `receive_response` that have returned. -/
  replies : ℕ
  /-- Bytes that the client has sent and the server has not received. -/
  upstream : Bytes
  listening : Listening
  /-- The history: whether a `recv` has failed, the commands sent, those that the thread was
  handed, and those among them that became tasks, with their contexts. -/
  failed : Bool
  sent : List Bytes
  received : List Bytes
  asked : List (Bytes × ContextRef)

inductive SessionAction
  /-- `fgets` and `trim_newline`. -/
  | read
  /-- One `send` of the client takes a byte and at most so many more. -/
  | push (more : ℕ)
  /-- A final packet has come in. -/
  | reply
  /-- The client is ended: by the status of a packet, by a call that fails, or from outside. -/
  | quit
  /-- One `recv` of the server gets a byte, or finds the end of the stream. -/
  | recv
  | recvFails
  /-- The loop of `handle_client` goes on with the command. -/
  | command (request : Request)
  /-- The branch with the reason "client disconnected". -/
  | disconnect
  /-- The `recv` of `task_context_socket_closed` fails. -/
  | peekFails
  | server (a : ServerAction)
  deriving DecidableEq, Repr

/-- One turn of the loop of `recv_command` with a byte. -/
def recvByte (size : ℕ) (buffer : Bytes) (byte : UInt8) : Listening :=
  if byte = 0 then .returned buffer.length buffer
  else if (buffer ++ [byte]).length + 1 < size then .reading (buffer ++ [byte])
  else .returned (buffer ++ [byte]).length (buffer ++ [byte])

def exitCommand : Bytes := [101,120,105,116]

/-- The string, a character for each byte. -/
def textOf (command : Bytes) : Text := command.map (fun byte => Char.ofNat byte.toNat)

/-- The requests that `handle_client` may make of a command where allocation succeeds. A
program that cannot be built from its string is left to the shell. -/
def Fits (command : Bytes) : Request → Prop
  | .exit => command = exitCommand
  | .program text _ _ => command ≠ exitCommand ∧ text = textOf command ∧
    (isDemoCommand (some text) = true ∨ isProgramCommand (some text) = true)
  | .shell text => command ≠ exitCommand ∧ text = textOf command
  | .unavailable => False

instance (command : Bytes) : (request : Request) → Decidable (Fits command request)
  | .exit => inferInstanceAs (Decidable (_ = _))
  | .program _ _ _ => inferInstanceAs (Decidable (_ ∧ _ ∧ (_ ∨ _)))
  | .shell _ => inferInstanceAs (Decidable (_ ∧ _))
  | .unavailable => inferInstanceAs (Decidable False)

section Steps
variable (c : ThreadId)

/-- The final packets on the connection: answers, and the farewell with its second part. -/
def finalPackets (w : World) : ℕ :=
  (finals w c).length + w.log.countP (fun e =>
    match e with
    | .farewell connection (.size _) => connection = c
    | _ => false)

/-- Steps of the server that are not the session's own. The end of the connection is seen only
where the client has closed it and nothing is left to read. -/
def free (σ : Connection) : ServerAction → Bool
  | .request d _ => d ≠ c
  | .hangup d => d ≠ c
  | .peek d closed => d ≠ c || !closed || (σ.main = .closed && σ.upstream = [])
  | _ => true

def sessionStep (σ : Connection) : SessionAction → Option Connection
  | .read =>
    match σ.main with
    | .prompt =>
      match fgets bufferSize σ.input with
      | none => some { σ with main := .closed }
      | some (line,rest) =>
        let command := trimNewline line
        some { σ with input := rest, main := .sending command (commandBytes command) }
    | _ => none
  | .push more =>
    match σ.main with
    | .sending command (byte :: rest) =>
      let σ := { σ with upstream := σ.upstream ++ byte :: rest.take more }
      if rest.drop more = [] then
        some { σ with main := .awaiting, sent := σ.sent ++ [command] }
      else some { σ with main := .sending command (rest.drop more) }
    | _ => none
  | .reply =>
    match σ.main with
    | .awaiting =>
      if σ.replies < finalPackets c σ.server.world then
        some { σ with main := .prompt, replies := σ.replies + 1 }
      else none
    | _ => none
  | .quit => some { σ with main := .closed }
  | .recv =>
    match (σ.server.world.clients c).pc,σ.listening,σ.upstream with
    | .receiving,.reading buffer,byte :: rest =>
      some { σ with upstream := rest, listening := recvByte bufferSize buffer byte }
    | .receiving,.reading buffer,[] =>
      if σ.main = .closed then some { σ with listening := .returned 0 buffer } else none
    | _,_,_ => none
  | .recvFails =>
    match (σ.server.world.clients c).pc,σ.listening with
    | .receiving,.reading buffer =>
      some { σ with listening := .returned (-1) buffer, failed := true }
    | _,_ => none
  | .command request =>
    match σ.listening with
    | .returned result command =>
      if 0 < result ∧ Fits command request then
        (serverStep σ.server (.request c request)).map (fun server => { σ with
          server := server
          listening := .reading []
          received := σ.received ++ [command]
          asked := if command = exitCommand then σ.asked
            else σ.asked ++ [(command,σ.server.sched.allocated)] })
      else none
    | _ => none
  | .disconnect =>
    match σ.listening with
    | .returned result _ =>
      if result ≤ 0 then
        (serverStep σ.server (.hangup c)).map
          (fun server => { σ with server := server, listening := .left })
      else none
    | _ => none
  | .peekFails =>
    (serverStep σ.server (.peek c true)).map (fun server => { σ with server := server })
  | .server a =>
    if free c σ a then (serverStep σ.server a).map (fun server => { σ with server := server })
    else none

end Steps

def sessionInit (input : Bytes) : Connection where
  server := serverInit TaskLinks
  input := input
  main := .prompt
  replies := 0
  upstream := []
  listening := .reading []
  failed := false
  sent := []
  received := []
  asked := []

section Receive
variable {size : ℕ} {buffer input : Bytes} {answers : List Answer} {byte : UInt8}

/-- The loop of `recv_command`, byte by byte. -/
theorem recvLoop_byte (extra : ℕ) (h : buffer.length + 1 < size) :
    recvLoop size (.moved extra :: answers) buffer (byte :: input) =
      match recvByte size buffer byte with
      | .returned result command => some ⟨result,command,⟨input,answers⟩⟩
      | .reading buffer => recvLoop size answers buffer input
      | .left => none := by
  rw [recvLoop,if_pos h]
  unfold recvByte
  by_cases hb : byte = 0
  · simp only [if_pos hb]
  · simp only [if_neg hb]
    by_cases hr : (buffer ++ [byte]).length + 1 < size
    · simp only [if_pos hr]
    · simp only [if_neg hr]
      rw [recvLoop.eq_def,if_neg hr]

end Receive

end UnixShell.Session
