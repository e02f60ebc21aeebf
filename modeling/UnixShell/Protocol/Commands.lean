import UnixShell.Protocol.Framing
import Mathlib.Data.List.TakeWhile

/-! # Commands on a connection

The client sends a line with the byte that ends a string; the server reads byte by byte
until it sees that byte or its buffer is full. Both ends use a buffer of the same size.
-/
namespace UnixShell.Protocol
open Foundation

def bufferSize : ℕ := 1024

section Client

/-- At most so many bytes, up to a newline. -/
def readLine : ℕ → Bytes → Bytes × Bytes
  | 0, input => ([],input)
  | _ + 1, [] => ([],[])
  | n + 1, byte :: input =>
    if byte = newline then ([byte],input)
    else
      let rest := readLine n input
      (byte :: rest.1,rest.2)

/-- A line of at most `size - 1` bytes, and nothing at the end of the input. -/
def fgets (size : ℕ) (input : Bytes) : Option (Bytes × Bytes) :=
  let line := readLine (size - 1) input
  if line.1 = [] then none else some line

/-- The string that starts at the first byte of a buffer. -/
def cString (buffer : Bytes) : Bytes := buffer.takeWhile (· ≠ 0)

def trimNewline (text : Bytes) : Bytes := (cString text).takeWhile (· ≠ newline)

/-- What `send_all` gets for one command. -/
def commandBytes (command : Bytes) : Bytes := command ++ [0]

def sendCommands (answers : List Answer) (commands : List Bytes) : Sent UInt8 :=
  writeParts false answers (commands.map commandBytes)

end Client

section Server

/-- What `recv_command` returns, the string in the buffer, and the input it leaves. -/
structure Received where
  result : ℤ
  text : Bytes
  left : Source UInt8

/-- The loop of `recv_command`; it may still be in `recv` when the answers are used up. -/
def recvLoop (size : ℕ) (answers : List Answer) (buffer input : Bytes) : Option Received :=
  if buffer.length + 1 < size then
    match answers,input with
    | [],_ => none
    | .interrupted :: answers,input => recvLoop size answers buffer input
    | .failed :: answers,input => some ⟨-1,buffer,⟨input,answers⟩⟩
    | .moved _ :: answers,[] => some ⟨0,buffer,⟨[],answers⟩⟩
    | .moved _ :: answers,byte :: input =>
      if byte = 0 then some ⟨buffer.length,buffer,⟨input,answers⟩⟩
      else recvLoop size answers (buffer ++ [byte]) input
  else some ⟨buffer.length,buffer,⟨input,answers⟩⟩
termination_by structural answers

def recvCommand (size : ℕ) (s : Source UInt8) : Option Received :=
  if size = 0 then some ⟨-1,[],s⟩ else recvLoop size s.answers [] s.unread

/-- Calls of `recv_command` one after another: their results, strings and inputs left. -/
def recvCommands (size : ℕ) : ℕ → Source UInt8 → Option (List (ℤ × Bytes × Bytes) × Source UInt8)
  | 0, s => some ([],s)
  | n + 1, s => do
    let received ← recvCommand size s
    let rest ← recvCommands size n received.left
    return ((received.result,received.text,received.left.unread) :: rest.1,rest.2)

end Server

/-- A non-empty string that the client's buffer can hold. -/
structure Command where
  bytes : Bytes
  nonempty : bytes ≠ []
  nul_free : 0 ∉ bytes
  length_lt : bytes.length < bufferSize

/-- The commands on the connection. -/
def wire (commands : List Command) : Bytes :=
  (commands.map (fun command => commandBytes command.bytes)).flatten

/-- Each call returns the length and the string of its command and stops in front of the next. -/
def exactly (following : Bytes) : List Command → List (ℤ × Bytes × Bytes)
  | [] => []
  | command :: commands =>
    (command.bytes.length,command.bytes,wire commands ++ following) :: exactly following commands

theorem trimNewline_nul_free (text : Bytes) : 0 ∉ trimNewline text := by
  intro h
  have hm := (List.takeWhile_sublist _).subset h
  simpa using List.mem_takeWhile_imp hm

section Server
variable {size m : ℕ} {answers : List Answer} {buffer text : Bytes}

/-- A string that ends before the buffer is full is read with the byte that ends it. -/
theorem recvLoop_command (following : Bytes) (h : Supply true answers (text.length + 1 + m))
    (hn : 0 ∉ text) (hl : buffer.length + text.length + 1 < size) :
    ∃ rest, Supply true rest m ∧ recvLoop size answers buffer (text ++ 0 :: following) =
      some ⟨(buffer ++ text).length,buffer ++ text,⟨following,rest⟩⟩ := by
  induction answers generalizing buffer text with
  | nil =>
    have he : text.length + 1 + m ≤ 0 := h.enough
    omega
  | cons answer answers ih =>
    have hroom : buffer.length + 1 < size := by omega
    cases answer with
    | moved extra =>
      cases text with
      | nil =>
        have hm : Supply true (.moved extra :: answers) (m + 1) :=
          h.mono (by simp only [List.length_nil]; omega)
        refine ⟨answers,hm.tail,?_⟩
        simp [recvLoop,hroom]
      | cons byte text =>
        simp only [List.mem_cons,not_or] at hn
        simp only [List.length_cons] at h hl
        have hs : Supply true answers (text.length + 1 + m) :=
          Supply.tail (n := text.length + 1 + m) (h.mono (by omega))
        have hl' : (buffer ++ [byte]).length + text.length + 1 < size := by simp; omega
        obtain ⟨rest,hr,he⟩ := ih hs hn.2 hl'
        refine ⟨rest,hr,?_⟩
        have hb : ¬ byte = 0 := fun hb => hn.1 hb.symm
        simp only [recvLoop,if_pos hroom,List.cons_append,if_neg hb,he,List.append_assoc,
          List.nil_append]
    | interrupted =>
      obtain ⟨rest,hr,he⟩ := ih h.tail_interrupted hn hl
      refine ⟨rest,hr,?_⟩
      rw [recvLoop,if_pos hroom]
      exact he
    | failed => exact ((h.clean .failed List.mem_cons_self).1 rfl).elim

/-- A string that fills the buffer is returned before the byte that ends it is read. -/
theorem recvLoop_full (following : Bytes) (h : Supply true answers (text.length + m))
    (hn : 0 ∉ text) (hl : buffer.length + text.length + 1 = size) :
    ∃ rest, Supply true rest m ∧ recvLoop size answers buffer (text ++ following) =
      some ⟨(buffer ++ text).length,buffer ++ text,⟨following,rest⟩⟩ := by
  induction answers generalizing buffer text with
  | nil =>
    have he : text.length + m ≤ 0 := h.enough
    obtain rfl : text = [] := List.length_eq_zero_iff.mp (by omega)
    refine ⟨[],h.mono (by simp),?_⟩
    have hfull : ¬ buffer.length + 1 < size := by simp at hl; omega
    rw [recvLoop.eq_def,if_neg hfull]
    simp
  | cons answer answers ih =>
    cases text with
    | nil =>
      refine ⟨answer :: answers,h.mono (by simp),?_⟩
      have hfull : ¬ buffer.length + 1 < size := by simp at hl; omega
      rw [recvLoop.eq_def,if_neg hfull]
      simp
    | cons byte text =>
      have hroom : buffer.length + 1 < size := by simp at hl; omega
      cases answer with
      | moved extra =>
        simp only [List.mem_cons,not_or] at hn
        simp only [List.length_cons] at h hl
        have hs : Supply true answers (text.length + m) :=
          Supply.tail (n := text.length + m) (h.mono (by omega))
        have hl' : (buffer ++ [byte]).length + text.length + 1 = size := by simp; omega
        obtain ⟨rest,hr,he⟩ := ih hs hn.2 hl'
        refine ⟨rest,hr,?_⟩
        have hb : ¬ byte = 0 := fun hb => hn.1 hb.symm
        simp only [recvLoop,if_pos hroom,List.cons_append,if_neg hb,he,List.append_assoc,
          List.nil_append]
      | interrupted =>
        obtain ⟨rest,hr,he⟩ := ih h.tail_interrupted hn hl
        refine ⟨rest,hr,?_⟩
        rw [recvLoop,if_pos hroom]
        exact he
      | failed => exact ((h.clean .failed List.mem_cons_self).1 rfl).elim

theorem recvCommand_left {command : Command} (following : Bytes)
    (hs : command.bytes.length ≤ bufferSize - 2)
    (h : Supply true answers ((commandBytes command.bytes).length + m)) :
    ∃ rest, Supply true rest m ∧
      recvCommand bufferSize ⟨commandBytes command.bytes ++ following,answers⟩ =
        some ⟨command.bytes.length,command.bytes,⟨following,rest⟩⟩ := by
  have hlen : (commandBytes command.bytes).length = command.bytes.length + 1 := by
    simp [commandBytes]
  rw [hlen] at h
  have hl : ([] : Bytes).length + command.bytes.length + 1 < bufferSize := by
    simp only [bufferSize,List.length_nil] at hs ⊢
    omega
  obtain ⟨rest,hr,he⟩ := recvLoop_command following h command.nul_free hl
  refine ⟨rest,hr,?_⟩
  have hne : ¬ bufferSize = 0 := by decide
  have hsplit : commandBytes command.bytes ++ following = command.bytes ++ 0 :: following := by
    simp [commandBytes]
  rw [recvCommand,if_neg hne,hsplit]
  exact he

/-- A command as long as the buffer allows leaves the byte that ends it to the next call. -/
theorem recvCommand_stuck {command : Command} (following : Bytes)
    (hs : ¬ command.bytes.length ≤ bufferSize - 2)
    (h : Supply true answers ((commandBytes command.bytes).length + m)) :
    ∃ rest, recvCommand bufferSize ⟨commandBytes command.bytes ++ following,answers⟩ =
      some ⟨command.bytes.length,command.bytes,⟨0 :: following,rest⟩⟩ := by
  have hlt := command.length_lt
  have hs' : Supply true answers (command.bytes.length + m) := h.mono (by simp [commandBytes])
  have hl : ([] : Bytes).length + command.bytes.length + 1 = bufferSize := by
    simp only [bufferSize,List.length_nil] at hs hlt ⊢
    omega
  obtain ⟨rest,_,he⟩ := recvLoop_full (0 :: following) hs' command.nul_free hl
  refine ⟨rest,?_⟩
  have hne : ¬ bufferSize = 0 := by decide
  have hsplit : commandBytes command.bytes ++ following = command.bytes ++ 0 :: following := by
    simp [commandBytes]
  rw [recvCommand,if_neg hne,hsplit]
  exact he

theorem wire_cons (command : Command) (commands : List Command) :
    wire (command :: commands) = commandBytes command.bytes ++ wire commands := rfl

theorem recvCommands_succ {n : ℕ} {s : Source UInt8} {r : Received}
    (h : recvCommand size s = some r) : recvCommands size (n + 1) s =
      (recvCommands size n r.left).map
        (fun rest => ((r.result,r.text,r.left.unread) :: rest.1,rest.2)) := by
  simp only [recvCommands,h,Option.bind_eq_bind,Option.bind_some]
  cases recvCommands size n r.left <;> rfl

theorem recvCommands_wire_iff {commands : List Command} (following : Bytes)
    (h : Supply true answers ((wire commands).length)) :
    (∃ rest, recvCommands bufferSize commands.length ⟨wire commands ++ following,answers⟩ =
        some (exactly following commands,⟨following,rest⟩)) ↔
      ∀ command ∈ commands, command.bytes.length ≤ bufferSize - 2 := by
  induction commands generalizing answers with
  | nil => exact iff_of_true ⟨answers,rfl⟩ (by simp)
  | cons command commands ih =>
    rw [wire_cons,List.length_append] at h
    rw [wire_cons,List.length_cons,List.append_assoc,List.forall_mem_cons]
    by_cases hs : command.bytes.length ≤ bufferSize - 2
    · obtain ⟨a₁,h₁,he⟩ := recvCommand_left (wire commands ++ following) hs h
      rw [← ih h₁,and_iff_right hs,recvCommands_succ he]
      constructor
      · rintro ⟨rest,hr⟩
        obtain ⟨r,hrest,heq⟩ := Option.map_eq_some_iff.mp hr
        obtain ⟨hlist,hleft⟩ := Prod.mk.inj heq
        refine ⟨rest,?_⟩
        rw [hrest,← hleft,← (List.cons.inj hlist).2]
      · rintro ⟨rest,hr⟩
        exact ⟨rest,by rw [hr]; rfl⟩
    · obtain ⟨a₁,he⟩ := recvCommand_stuck (wire commands ++ following) hs h
      rw [recvCommands_succ he]
      refine iff_of_false ?_ (fun hall => hs hall.1)
      rintro ⟨rest,hr⟩
      obtain ⟨r,_,heq⟩ := Option.map_eq_some_iff.mp hr
      have hhead := (List.cons.inj (Prod.mk.inj heq).1).1
      have hleft := congrArg (fun p : ℤ × Bytes × Bytes => p.2.2.length) hhead
      simp at hleft

end Server

theorem sendCommands_ok {sends left : List Answer} {commands : List Command}
    (h : (sendCommands sends (commands.map Command.bytes)).outcome = .ok left) :
    (sendCommands sends (commands.map Command.bytes)).wire = wire commands := by
  rw [sendCommands,writeParts_ok h,List.map_map]
  rfl

/-- However the bytes are sent and received, the calls return the commands one by one exactly
where none of them fills the buffer. -/
theorem commands_framed_iff {commands : List Command} {sends recvs left : List Answer}
    (following : Bytes)
    (hsend : (sendCommands sends (commands.map Command.bytes)).outcome = .ok left)
    (hrecv : Supply true recvs (sendCommands sends (commands.map Command.bytes)).wire.length) :
    (∃ rest, recvCommands bufferSize commands.length
        ⟨(sendCommands sends (commands.map Command.bytes)).wire ++ following,recvs⟩ =
        some (exactly following commands,⟨following,rest⟩)) ↔
      ∀ command ∈ commands, command.bytes.length ≤ bufferSize - 2 := by
  rw [sendCommands_ok hsend] at hrecv ⊢
  exact recvCommands_wire_iff following hrecv

def listTwice : List Command :=
  [⟨[108,115],by decide,by decide,by decide⟩,⟨[108,115,32,47],by decide,by decide,by decide⟩]

theorem listTwice_framed : ∃ rest, recvCommands bufferSize 2
    ⟨(sendCommands [.moved 9,.moved 1,.moved 9] (listTwice.map Command.bytes)).wire ++ [7],
      .interrupted :: (List.replicate 8 0).map Answer.moved⟩ =
    some (exactly [7] listTwice,⟨[7],rest⟩) := by
  have hsend : (sendCommands [.moved 9,.moved 1,.moved 9] (listTwice.map Command.bytes)).outcome =
      .ok [] := by decide
  exact (commands_framed_iff [7] hsend ⟨by decide,by decide⟩).mpr (by decide)

/-- A line of 1023 bytes, the longest one `fgets` returns. -/
def longCommand : Command where
  bytes := List.replicate (bufferSize - 1) 97
  nonempty := List.ne_nil_of_length_pos (by rw [List.length_replicate]; decide)
  nul_free h := absurd (List.eq_of_mem_replicate h) (by decide)
  length_lt := by rw [List.length_replicate]; decide

theorem longCommand_length : longCommand.bytes.length = bufferSize - 1 := List.length_replicate

theorem longCommand_not_framed : ¬ ∃ rest, recvCommands bufferSize 1
    ⟨(sendCommands ((List.replicate bufferSize 0).map Answer.moved) [longCommand.bytes]).wire ++ [],
      (List.replicate bufferSize 0).map Answer.moved⟩ =
    some (exactly [] [longCommand],⟨[],rest⟩) := by
  have hlen : (wire [longCommand]).length = bufferSize := by
    rw [wire_cons,List.length_append,commandBytes,List.length_append,longCommand_length]
    rfl
  have hs : ∀ retry, Supply retry ((List.replicate bufferSize 0).map Answer.moved)
      (wire [longCommand]).length := by
    intro retry
    rw [hlen]
    simpa only [List.length_replicate] using Supply.moved (List.replicate bufferSize 0)
  have hpart : Supply false ((List.replicate bufferSize 0).map Answer.moved)
      ([commandBytes longCommand.bytes].flatten.length + 0) := hs false
  obtain ⟨left,_,hsent⟩ := writeParts_complete hpart
  have hwire : (sendCommands ((List.replicate bufferSize 0).map Answer.moved)
      [longCommand.bytes]).wire = wire [longCommand] := congrArg Sent.wire hsent
  rw [hwire]
  intro h
  have hall := (recvCommands_wire_iff [] (hs true)).mp h longCommand (List.mem_singleton_self _)
  rw [longCommand_length] at hall
  exact absurd hall (by decide)

end UnixShell.Protocol
