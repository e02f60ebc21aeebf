import UnixShell.Session.System

/-! # The commands on the way

The client sends commands and the thread receives them byte by byte. As long as no command
is empty and none fills the buffer, what lies between them is a row of whole commands and
the beginning of one more, and each string that `recv_command` returns is one command.
-/
namespace UnixShell.Session
open Foundation Scheduler Server
open UnixShell.Protocol (Bytes bufferSize fgets trimNewline trimNewline_nul_free commandBytes
  Command wire wire_cons)

/-- The line that is read next leaves a command, and one that leaves room in the buffer. -/
def leavesCommand (σ : Connection) : SessionAction → Bool
  | .read =>
    match fgets bufferSize σ.input with
    | some (line,_) => trimNewline line ≠ [] && (trimNewline line).length ≤ bufferSize - 2
    | none => true
  | _ => true

section Wire
variable {text rest part : Bytes} {commands : List Command}

theorem split_nul {a b x y : Bytes} (ha : 0 ∉ a) (hb : 0 ∉ b) (h : a ++ 0 :: x = b ++ 0 :: y) :
    a = b ∧ x = y := by
  induction a generalizing b with
  | nil =>
    cases b with
    | nil => exact ⟨rfl,(List.cons.inj h).2⟩
    | cons byte b =>
      have hbyte : (0 : UInt8) = byte := (List.cons.inj h).1
      exact (hb (hbyte ▸ List.mem_cons_self)).elim
  | cons byte a ih =>
    cases b with
    | nil =>
      have hbyte : byte = 0 := (List.cons.inj h).1
      exact (ha (hbyte ▸ List.mem_cons_self)).elim
    | cons byte' b =>
      obtain ⟨hbyte,htail⟩ := List.cons.inj h
      obtain ⟨hab,hxy⟩ := ih (fun hm => ha (List.mem_cons_of_mem _ hm))
        (fun hm => hb (List.mem_cons_of_mem _ hm)) htail
      exact ⟨by rw [hbyte,hab],hxy⟩

theorem wire_cons_append (command : Command) (commands : List Command) (part : Bytes) :
    wire (command :: commands) ++ part = command.bytes ++ 0 :: (wire commands ++ part) := by
  simp [wire_cons,commandBytes]

/-- The byte that ends a string ends the first command. -/
theorem wire_nul (ht : 0 ∉ text) (hp : 0 ∉ part) (h : text ++ 0 :: rest = wire commands ++ part) :
    ∃ command left, commands = command :: left ∧ command.bytes = text ∧
      rest = wire left ++ part := by
  cases commands with
  | nil =>
    have hmem : (0 : UInt8) ∈ part := by
      rw [show part = text ++ 0 :: rest from h.symm]
      simp
    exact (hp hmem).elim
  | cons command left =>
    rw [wire_cons_append] at h
    obtain ⟨he,hrest⟩ := split_nul ht command.nul_free h
    exact ⟨command,left,rfl,he.symm,hrest⟩

/-- Before that byte there is no more than a command. -/
theorem wire_length {n : ℕ} (ht : 0 ∉ text) (hc : ∀ command ∈ commands, command.bytes.length ≤ n)
    (hp : part.length ≤ n) (h : text ++ rest = wire commands ++ part) : text.length ≤ n := by
  cases commands with
  | nil =>
    have hlen := congrArg List.length (show text ++ rest = part from h)
    rw [List.length_append] at hlen
    omega
  | cons command left =>
    rw [wire_cons_append] at h
    by_contra hlt
    have hshort := hc command List.mem_cons_self
    have hpre : command.bytes ++ [0] <+: text ++ rest :=
      ⟨wire left ++ part,by rw [h]; simp⟩
    have hle : (command.bytes ++ [0]).length ≤ text.length := by simp; omega
    have hin := List.prefix_of_prefix_length_le hpre (List.prefix_append text rest) hle
    exact ht (hin.subset (by simp))

theorem wire_append (before after : List Command) :
    wire (before ++ after) = wire before ++ wire after := by
  simp [wire]

theorem wire_eq_nil (ht : 0 ∉ text) (h : text = wire commands ++ part) : commands = [] := by
  cases commands with
  | nil => rfl
  | cons command left =>
    rw [wire_cons_append] at h
    exact (ht (by rw [h]; simp)).elim

end Wire

section Client
variable {c : ThreadId} {σ σ' : Connection} {a : SessionAction} {received : List Bytes}
  {text : Bytes}

/-- The beginning of a command that is being sent, as far as it has been. -/
def SentPart (part : Bytes) : ClientMain → Prop
  | .sending command rest => part ++ rest = commandBytes command ∧ 0 ∉ command ∧ command ≠ [] ∧
    command.length ≤ bufferSize - 2
  | .closed => True
  | _ => part = []

/-- After the commands received and some text there are whole commands on the way, and the
beginning of one more. -/
structure Stream (σ : Connection) (received : List Bytes) (text : Bytes) (commands : List Command)
    (part : Bytes) : Prop where
  sent : σ.sent = received ++ commands.map Command.bytes
  bytes : text ++ σ.upstream = wire commands ++ part
  short : ∀ command ∈ commands, command.bytes.length ≤ bufferSize - 2
  nul_free : 0 ∉ part
  length_le : part.length ≤ bufferSize - 2
  main : SentPart part σ.main

/-- The steps of the client, which the thread does not see. -/
inductive ClientMove (σ σ' : Connection) : Prop
  | ended : σ' = { σ with main := .closed } → ClientMove σ σ'
  | typed {command rest : Bytes} : σ.main = .prompt → 0 ∉ command → command ≠ [] →
      command.length ≤ bufferSize - 2 →
      σ' = { σ with input := rest, main := .sending command (commandBytes command) } →
      ClientMove σ σ'
  | pushed {command : Bytes} {byte : UInt8} {moved rest : Bytes} :
      σ.main = .sending command (byte :: (moved ++ rest)) → rest ≠ [] →
      σ' = { σ with upstream := σ.upstream ++ byte :: moved, main := .sending command rest } →
      ClientMove σ σ'
  | pushedAll {command : Bytes} {byte : UInt8} {moved : Bytes} :
      σ.main = .sending command (byte :: moved) →
      σ' = { σ with
        upstream := σ.upstream ++ byte :: moved
        main := .awaiting
        sent := σ.sent ++ [command] } → ClientMove σ σ'
  | replied : σ.main = .awaiting →
      σ' = { σ with main := .prompt, replies := σ.replies + 1 } → ClientMove σ σ'

theorem clientMove_read (hl : leavesCommand σ .read = true)
    (he : sessionStep c σ .read = some σ') : ClientMove σ σ' := by
  simp only [sessionStep] at he
  split at he
  · rename_i hm
    split at he
    · exact .ended (Option.some.inj he).symm
    · rename_i line rest hf
      simp only [leavesCommand,hf,Bool.and_eq_true,decide_eq_true_eq] at hl
      exact .typed hm (trimNewline_nul_free line) hl.1 hl.2 (Option.some.inj he).symm
  · cases he

theorem clientMove_push {more : ℕ} (he : sessionStep c σ (.push more) = some σ') :
    ClientMove σ σ' := by
  simp only [sessionStep] at he
  split at he
  · rename_i command byte rest hm
    have hsplit : rest = rest.take more ++ rest.drop more := (List.take_append_drop _ _).symm
    split at he
    · rename_i hnil
      rw [hnil,List.append_nil] at hsplit
      rw [← hsplit] at he
      exact .pushedAll hm (Option.some.inj he).symm
    · rename_i hne
      exact .pushed (hm.trans (by rw [← hsplit])) hne (Option.some.inj he).symm
  · cases he

theorem clientMove_reply (he : sessionStep c σ .reply = some σ') : ClientMove σ σ' := by
  simp only [sessionStep] at he
  split at he
  · rename_i hm
    split at he
    · exact .replied hm (Option.some.inj he).symm
    · cases he
  · cases he

/-- The thread's side of the session is left alone. -/
structure SameThread (σ σ' : Connection) : Prop where
  server : σ'.server = σ.server
  listening : σ'.listening = σ.listening
  failed : σ'.failed = σ.failed
  received : σ'.received = σ.received
  asked : σ'.asked = σ.asked

theorem ClientMove.sameThread (h : ClientMove σ σ') : SameThread σ σ' := by
  cases h with
  | ended he => exact he ▸ ⟨rfl,rfl,rfl,rfl,rfl⟩
  | typed _ _ _ _ he => exact he ▸ ⟨rfl,rfl,rfl,rfl,rfl⟩
  | pushed _ _ he => exact he ▸ ⟨rfl,rfl,rfl,rfl,rfl⟩
  | pushedAll _ he => exact he ▸ ⟨rfl,rfl,rfl,rfl,rfl⟩
  | replied _ he => exact he ▸ ⟨rfl,rfl,rfl,rfl,rfl⟩

/-- A client that has closed its socket sends no more. -/
theorem ClientMove.closed (h : ClientMove σ σ') (hm : σ.main = .closed) :
    σ'.main = .closed ∧ σ'.upstream = σ.upstream ∧ σ'.sent = σ.sent := by
  cases h with
  | ended he => exact he ▸ ⟨rfl,rfl,rfl⟩
  | typed hp => cases hm.symm.trans hp
  | pushed hp => cases hm.symm.trans hp
  | pushedAll hp => cases hm.symm.trans hp
  | replied hp => cases hm.symm.trans hp

/-- As long as a byte is missing, what has been sent is a part of the string. -/
theorem part_prefix {command part rest : Bytes} (h : part ++ rest = commandBytes command)
    (hr : rest ≠ []) : part <+: command := by
  have hdrop := congrArg List.dropLast h
  rw [List.dropLast_append_of_ne_nil hr,commandBytes,List.dropLast_concat] at hdrop
  exact ⟨rest.dropLast,hdrop⟩

/-- The stream is a matter of the bytes and of the client alone. -/
theorem Stream.congr {commands : List Command} {part : Bytes}
    (h : Stream σ received text commands part) (hs : σ'.sent = σ.sent)
    (hu : σ'.upstream = σ.upstream) (hm : σ'.main = σ.main) :
    Stream σ' received text commands part where
  sent := hs.trans h.sent
  bytes := hu ▸ h.bytes
  short := h.short
  nul_free := h.nul_free
  length_le := h.length_le
  main := hm ▸ h.main

theorem Stream.append {commands : List Command} {part : Bytes}
    (h : Stream σ received text commands part) (moved : Bytes) :
    text ++ (σ.upstream ++ moved) = wire commands ++ (part ++ moved) := by
  calc text ++ (σ.upstream ++ moved)
      = (text ++ σ.upstream) ++ moved := (List.append_assoc _ _ _).symm
    _ = wire commands ++ (part ++ moved) := by rw [h.bytes,List.append_assoc]

/-- What the client does next keeps the row of commands in order. -/
theorem Stream.move {commands : List Command} {part : Bytes}
    (h : Stream σ received text commands part) (hm : ClientMove σ σ') :
    ∃ commands' part', Stream σ' received text commands' part' := by
  cases hm with
  | ended he =>
    subst he
    exact ⟨commands,part,h.sent,h.bytes,h.short,h.nul_free,h.length_le,trivial⟩
  | @typed command rest hp hnul hne hlen he =>
    subst he
    have hpart : part = [] := by
      have hmain := h.main
      rwa [hp] at hmain
    refine ⟨commands,part,h.sent,h.bytes,h.short,h.nul_free,h.length_le,?_⟩
    exact ⟨by rw [hpart,List.nil_append],hnul,hne,hlen⟩
  | @pushed command byte moved rest hp hr he =>
    subst he
    have hmain := h.main
    rw [hp] at hmain
    obtain ⟨hbytes,hnul,hne,hlen⟩ := hmain
    have hsplit : (part ++ byte :: moved) ++ rest = commandBytes command := by
      rw [← hbytes]
      simp
    have hpre := part_prefix hsplit hr
    exact ⟨commands,part ++ byte :: moved,h.sent,h.append _,h.short,
      fun hz => hnul (hpre.subset hz),hpre.length_le.trans hlen,hsplit,hnul,hne,hlen⟩
  | @pushedAll command byte moved hp he =>
    subst he
    have hmain := h.main
    rw [hp] at hmain
    obtain ⟨hbytes,hnul,hne,hlen⟩ := hmain
    have hlt : command.length < bufferSize := by
      simp only [bufferSize] at hlen ⊢
      omega
    -- the command is complete on the wire, and the next one has not begun
    refine ⟨commands ++ [⟨command,hne,hnul,hlt⟩],[],?_,?_,?_,by simp,by simp,rfl⟩
    · simp [h.sent]
    · calc text ++ (σ.upstream ++ byte :: moved)
          = wire commands ++ (part ++ byte :: moved) := h.append _
        _ = wire (commands ++ [⟨command,hne,hnul,hlt⟩]) ++ [] := by
          rw [hbytes,wire_append]
          simp [wire]
    · intro command' hc
      rcases List.mem_append.mp hc with hc | hc
      · exact h.short command' hc
      · rw [List.mem_singleton.mp hc]
        exact hlen
  | replied hp he =>
    subst he
    have hpart : part = [] := by
      have hmain := h.main
      rwa [hp] at hmain
    exact ⟨commands,part,h.sent,h.bytes,h.short,h.nul_free,h.length_le,hpart⟩

end Client

section Thread
variable {c : ThreadId} {σ σ' : Connection} {listening : Listening}

/-- What `recv_command` has come back with. -/
inductive Returned (σ : Connection) (result : ℤ) (text : Bytes) : Prop
  | command {commands : List Command} {part : Bytes} : 0 < result →
      Stream σ (σ.received ++ [text]) [] commands part → Returned σ result text
  | ended : result ≤ 0 → σ.main = .closed → σ.upstream = [] → σ.sent = σ.received →
      Returned σ result text
  | failed {commands : List Command} {part : Bytes} : result ≤ 0 → σ.failed = true →
      Stream σ σ.received text commands part → Returned σ result text

/-- The thread has been handed the commands in front of what it is reading. -/
def Heard (σ : Connection) : Listening → Prop
  | .reading buffer => 0 ∉ buffer ∧ buffer.length + 1 < bufferSize ∧
    ∃ commands part, Stream σ σ.received buffer commands part
  | .returned result text => Returned σ result text
  | .left => True

theorem heard_init (input : Bytes) : Heard (sessionInit input) (.reading []) :=
  ⟨List.not_mem_nil,by decide,[],[],rfl,rfl,by simp,List.not_mem_nil,Nat.zero_le _,rfl⟩

theorem Heard.move (h : Heard σ listening) (hm : ClientMove σ σ') : Heard σ' listening := by
  have hs := hm.sameThread
  cases listening with
  | reading buffer =>
    obtain ⟨hnul,hlen,commands,part,hst⟩ := h
    rw [← hs.received] at hst
    exact ⟨hnul,hlen,hst.move hm⟩
  | returned result text =>
    cases h with
    | command hpos hst =>
      rw [← hs.received] at hst
      obtain ⟨commands',part',hst'⟩ := hst.move hm
      exact .command hpos hst'
    | ended hle hc hu hsent =>
      obtain ⟨hc',hu',hsent'⟩ := hm.closed hc
      exact .ended hle hc' (hu'.trans hu) (hsent'.trans (hsent.trans hs.received.symm))
    | failed hle hf hst =>
      rw [← hs.received] at hst
      obtain ⟨commands',part',hst'⟩ := hst.move hm
      exact .failed hle (hs.failed.trans hf) hst'
  | left => trivial

theorem Heard.server (h : Heard σ listening) (server : State TaskLinks) :
    Heard { σ with server := server } listening := by
  cases listening with
  | reading buffer =>
    obtain ⟨hnul,hlen,commands,part,hst⟩ := h
    exact ⟨hnul,hlen,commands,part,hst.congr rfl rfl rfl⟩
  | returned result text =>
    cases h with
    | command hpos hst => exact .command hpos (hst.congr rfl rfl rfl)
    | ended hle hc hu hsent => exact .ended hle hc hu hsent
    | failed hle hf hst => exact .failed hle hf (hst.congr rfl rfl rfl)
  | left => trivial

/-- A byte that comes in ends the command that is next, or belongs to it. -/
theorem heard_byte {buffer rest : Bytes} {byte : UInt8} (h : Heard σ (.reading buffer))
    (hu : σ.upstream = byte :: rest)
    (he : σ' = { σ with upstream := rest, listening := recvByte bufferSize buffer byte }) :
    Heard σ' σ'.listening := by
  obtain ⟨hnul,hlen,commands,part,hst⟩ := h
  have hbytes := hst.bytes
  rw [hu] at hbytes
  subst he
  change Heard _ (recvByte bufferSize buffer byte)
  by_cases hb : byte = 0
  · subst hb
    obtain ⟨command,left,rfl,htext,hrest⟩ := wire_nul hnul hst.nul_free hbytes
    have hpos : 0 < (buffer.length : ℤ) := by
      rw [← htext]
      exact_mod_cast List.length_pos_iff.mpr command.nonempty
    have hshort : ∀ command' ∈ left, command'.bytes.length ≤ bufferSize - 2 :=
      fun command' hc => hst.short command' (List.mem_cons_of_mem _ hc)
    have hsent : σ.sent = (σ.received ++ [buffer]) ++ left.map Command.bytes := by
      simp [hst.sent,htext]
    rw [recvByte,if_pos rfl]
    exact .command hpos ⟨hsent,hrest,hshort,hst.nul_free,hst.length_le,hst.main⟩
  · have hnul' : 0 ∉ buffer ++ [byte] := by
      intro hz
      rcases List.mem_append.mp hz with hz | hz
      · exact hnul hz
      · exact hb (List.mem_singleton.mp hz).symm
    have hbytes' : (buffer ++ [byte]) ++ rest = wire commands ++ part := by
      rw [← hbytes]
      simp
    have hle := wire_length hnul' hst.short hst.length_le hbytes'
    have hroom : (buffer ++ [byte]).length + 1 < bufferSize := by
      simp only [bufferSize] at hle ⊢
      omega
    rw [recvByte,if_neg hb,if_pos hroom]
    exact ⟨hnul',hroom,commands,part,hst.sent,hbytes',hst.short,hst.nul_free,hst.length_le,hst.main⟩

theorem heard_recv (h : Heard σ σ.listening) (he : sessionStep c σ .recv = some σ') :
    Heard σ' σ'.listening := by
  simp only [sessionStep] at he
  split at he
  · rename_i buffer byte rest _ hl hu
    rw [hl] at h
    exact heard_byte h hu (Option.some.inj he).symm
  · rename_i buffer _ hl hu
    split at he
    · rename_i hclosed
      obtain rfl := Option.some.inj he
      rw [hl] at h
      obtain ⟨hnul,_,commands,part,hst⟩ := h
      have htext : buffer = wire commands ++ part := by
        have hbytes := hst.bytes
        rwa [hu,List.append_nil] at hbytes
      have hsent := hst.sent
      rw [wire_eq_nil hnul htext,List.map_nil,List.append_nil] at hsent
      exact .ended le_rfl hclosed hu hsent
    · cases he
  · cases he

theorem heard_recvFails (h : Heard σ σ.listening) (he : sessionStep c σ .recvFails = some σ') :
    Heard σ' σ'.listening := by
  simp only [sessionStep] at he
  split at he
  · rename_i buffer _ hl
    obtain rfl := Option.some.inj he
    rw [hl] at h
    obtain ⟨_,_,commands,part,hst⟩ := h
    exact .failed (by decide) rfl (hst.congr rfl rfl rfl)
  · cases he

/-- The command is taken out of the buffer. -/
theorem heard_command {result : ℤ} {command : Bytes} (h : Returned σ result command)
    (hpos : 0 < result) (hr : σ'.received = σ.received ++ [command]) (hs : σ'.sent = σ.sent)
    (hu : σ'.upstream = σ.upstream) (hm : σ'.main = σ.main) : Heard σ' (.reading []) := by
  cases h with
  | @command commands part _ hst =>
    rw [← hr] at hst
    exact ⟨List.not_mem_nil,by decide,commands,part,hst.congr hs hu hm⟩
  | ended hle => exact (hle.not_gt hpos).elim
  | failed hle => exact (hle.not_gt hpos).elim

end Thread

end UnixShell.Session
