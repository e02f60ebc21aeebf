import UnixShell.Protocol.Framing
import UnixShell.Server.Readings
import UnixShell.Server.Transcripts

/-! # What a client is told

The bytes on a connection are those of the pieces that the two threads of the server have
written. A client that calls `receive_response` once for each command gets the answers to
its commands in order, and shows on the way what the server has read from the child of that
command.
-/
namespace UnixShell.Session
open Foundation Scheduler Server Protocol

/-- The bytes of a text: a character stands for one byte. -/
def bytesOf (text : Text) : Bytes := text.map fun c => UInt8.ofNat c.toNat

def statusWord : Status → UInt32
  | .serverContinue => Protocol.serverContinue
  | .serverExit => Protocol.serverExit
  | .serverProgress => Protocol.serverProgress

def pieceBytes : Piece → Bytes
  | .status status => htonl (statusWord status)
  | .size size => htonl (UInt32.ofNat size)
  | .payload text => bytesOf text

/-- What the calls of `send_all` have put on a connection. -/
def bytesOn (w : World) (c : ThreadId) : Bytes := (pieces (sentOn c) w.log).flatMap pieceBytes

/-- The progress packets and the final packet of one command. -/
structure Reply where
  chunks : List Text
  status : Status
  output : Text

def Reply.pieces (r : Reply) : List Piece :=
  r.chunks.flatMap (packetPieces .serverProgress) ++ packetPieces r.status r.output

def Reply.bytes (r : Reply) : Bytes :=
  frames (r.chunks.map bytesOf) (statusWord r.status) (bytesOf r.output)

/-- What one call of `receive_response` prints and returns. -/
def Reply.received (r : Reply) : Bytes × Response :=
  ((r.chunks.map bytesOf).flatMap printPayload,
    { status := statusWord r.status, size := r.output.length, payload := bytesOf r.output })

/-- One call of `receive_response` for each command, until one fails. -/
def receiveReplies (malloc : ℕ → Bool) : ℕ → Source UInt8 → List (Bytes × Response)
  | 0, _ => []
  | n + 1, s =>
    match receiveResponse malloc s with
    | (shown,.ok (response,s)) => (shown,response) :: receiveReplies malloc n s
    | (_,.error _) => []

section Bytes

@[simp] theorem bytesOf_length (text : Text) : (bytesOf text).length = text.length :=
  List.length_map ..

theorem packet_bytes (status : Status) (payload : Text) :
    (packetPieces status payload).flatMap pieceBytes = frame (statusWord status) (bytesOf payload) := by
  by_cases hp : payload = []
  · subst hp
    rfl
  · simp [packetPieces,pieceBytes,frame,hp]

theorem chunks_bytes (chunks : List Text) :
    (chunks.flatMap (packetPieces .serverProgress)).flatMap pieceBytes =
      (chunks.map bytesOf).flatMap (frame Protocol.serverProgress) := by
  induction chunks with
  | nil => rfl
  | cons chunk chunks ih =>
    rw [List.flatMap_cons,List.flatMap_append,packet_bytes,ih,List.map_cons,List.flatMap_cons]
    rfl

theorem Reply.pieces_bytes (r : Reply) : r.pieces.flatMap pieceBytes = r.bytes := by
  rw [Reply.pieces,List.flatMap_append,chunks_bytes,packet_bytes,Reply.bytes,frames]

theorem statusWord_ne {status : Status} (h : status ≠ .serverProgress) :
    statusWord status ≠ Protocol.serverProgress := by
  cases status <;> first | decide | exact (h rfl).elim

theorem payloads_chunks (chunks : List Text) :
    payloads (chunks.flatMap (packetPieces .serverProgress)) = chunks.flatten := by
  induction chunks with
  | nil => rfl
  | cons chunk chunks ih =>
    rw [List.flatMap_cons,payloads_append,payloads_packet,ih,List.flatten_cons]

end Bytes

section Receiving
variable {replies : List Reply} {answers : List Answer} {m : ℕ}

/-- A reply whose packets the client can tell apart and hold. -/
structure Reply.Sized (r : Reply) : Prop where
  status : r.status ≠ .serverProgress
  chunks : ∀ chunk ∈ r.chunks, chunk.length < 2 ^ 32
  output : r.output.length < 2 ^ 32

/-- A client takes its replies one by one, and what follows them is left on the wire. -/
theorem receiveReplies_bytes (following : Bytes) (h : ∀ r ∈ replies, r.Sized)
    (ha : Supply false answers (replies.flatMap Reply.bytes).length) :
    receiveReplies (fun _ => true) replies.length
      ⟨replies.flatMap Reply.bytes ++ following,answers⟩ = replies.map Reply.received := by
  induction replies generalizing answers with
  | nil => rfl
  | cons r replies ih =>
    have hr := h r List.mem_cons_self
    rw [List.flatMap_cons,List.length_append] at ha
    have hfuel : (r.chunks.map bytesOf).length < answers.length :=
      (length_lt_frames _ (statusWord r.status) (bytesOf r.output)).trans_le
        ((Nat.le_add_right _ _).trans ha.length_le)
    have hchunks : ∀ chunk ∈ r.chunks.map bytesOf, chunk.length < 2 ^ 32 := by
      intro chunk hc
      obtain ⟨text,ht,rfl⟩ := List.mem_map.mp hc
      rw [bytesOf_length]
      exact hr.chunks text ht
    obtain ⟨rest,hrest,hreceive⟩ : ∃ rest,
        Supply false rest (replies.flatMap Reply.bytes).length ∧
          receivePackets (fun _ => true) answers.length 0
            ⟨r.bytes ++ (replies.flatMap Reply.bytes ++ following),answers⟩ =
              ((r.chunks.map bytesOf).flatMap printPayload,
                .ok (⟨statusWord r.status,(bytesOf r.output).length,bytesOf r.output⟩,
                  ⟨replies.flatMap Reply.bytes ++ following,rest⟩)) :=
      receivePackets_frames _ (statusWord_ne hr.status) hchunks
        (by rw [bytesOf_length]; exact hr.output) (fun _ _ => rfl) hfuel ha
    have hfirst : receiveResponse (fun _ => true)
        ⟨(r :: replies).flatMap Reply.bytes ++ following,answers⟩ =
          (r.received.1,.ok (r.received.2,⟨replies.flatMap Reply.bytes ++ following,rest⟩)) := by
      rw [List.flatMap_cons,List.append_assoc]
      rw [bytesOf_length] at hreceive
      exact hreceive
    rw [List.length_cons,receiveReplies,hfirst]
    simp only [ih (fun r hr => h r (List.mem_cons_of_mem _ hr)) hrest,List.map_cons]

end Receiving

section Answered
variable {s : State TaskLists} {n : ℕ} {c : ThreadId} {k : ContextRef}

/-- The tasks of a thread that have their final packet, in order. -/
def replied (w : World) (n : ℕ) (c : ThreadId) : List ContextRef :=
  (asked w n c).filter fun k => .answered k ∈ w.log

/-- Only the last task may be open. -/
theorem asked_replied (h : Carried s) : ∃ rest,
    asked s.world s.sched.allocated c = replied s.world s.sched.allocated c ++ rest := by
  by_cases hall : ∀ k ∈ asked s.world s.sched.allocated c, .answered k ∈ s.world.log
  · refine ⟨[],?_⟩
    rw [List.append_nil,replied,List.filter_eq_self.mpr fun k hk => decide_eq_true (hall k hk)]
  · push Not at hall
    obtain ⟨k,hk,hna⟩ := hall
    obtain ⟨hlt,rfl⟩ := mem_asked.mp hk
    have hlast := asked_last hlt rfl (h.latest k hlt hna)
    have hbefore : ∀ j ∈ asked s.world k (s.world.owner k), .answered j ∈ s.world.log := by
      intro j hj
      obtain ⟨hjk,ho⟩ := mem_asked.mp hj
      by_contra hnj
      exact Nat.not_lt.mpr (h.latest j (hjk.trans hlt) hnj k hlt ho.symm) hjk
    refine ⟨[k],?_⟩
    rw [replied,hlast,List.filter_append,
      List.filter_eq_self.mpr fun j hj => decide_eq_true (hbefore j hj)]
    simp [hna]

/-- A reply is what was written for a task, and its chunks are what was read from the child. -/
structure Tells (w : World) (taken : ContextRef → Text) (k : ContextRef) (r : Reply) : Prop where
  written : pieces (sentFor k) w.log = r.pieces
  read : streams (w.contexts k) = true → r.chunks.flatten = taken k

/-- An answered task has whole progress packets and a whole final packet. -/
theorem reply_of_answered {taken : ContextRef → Text} (hm : Marked s) (hset : Settled s)
    (hp : Packets s) (htaken : Taken s taken) (hf : .sendFailed k ∉ s.world.log)
    (ha : .answered k ∈ s.world.log) :
    ∃ r : Reply, Tells s.world taken k r ∧ r.status ≠ .serverProgress := by
  have hone := hp.oneAnswer hm hset k
  have hdone : .setDone k ∈ s.world.log := by
    rw [← hm.done_iff]
    obtain ⟨status,output,_,_,hfull⟩ := (hp.answers k).prefix_of
    exact (hp.answers k).done (by rw [hfull ha]; simp [packetPieces])
  obtain ⟨chunks,_,hchunks⟩ := hone.progress hf
  obtain ⟨status,output,hne,_,hfinal⟩ := hone.final
  refine ⟨⟨chunks,status,output⟩,⟨?_,fun hs => ?_⟩,hne⟩
  · rw [hone.order,hchunks hdone,hfinal ha,Reply.pieces]
  · rw [htaken.balance k hs hf,inTransit_done hset ((hm.done_iff k).mpr hdone),streamed,
      hchunks hdone,payloads_chunks]
    exact (List.append_nil _).symm

/-- The sizes that are written for a reply bound its parts. -/
theorem Reply.sized_of_pieces {r : Reply} (hs : r.status ≠ .serverProgress)
    (h : ∀ size, .size size ∈ r.pieces → size < 2 ^ 32) : r.Sized := by
  refine ⟨hs,fun chunk hc => h _ ?_,h _ ?_⟩
  · refine List.mem_append_left _ (List.mem_flatMap.mpr ⟨chunk,hc,?_⟩)
    simp [packetPieces]
  · refine List.mem_append_right _ ?_
    simp [packetPieces]

end Answered

section Replies
variable {s : State TaskLists} {taken : ContextRef → Text} {c : ThreadId}

/-- The replies of a thread: one for each answered task, as it was written. -/
theorem replies_written (hm : Marked s) (hset : Settled s) (hp : Packets s)
    (htaken : Taken s taken) (ks : List ContextRef)
    (h : ∀ k ∈ ks, .sendFailed k ∉ s.world.log ∧ .answered k ∈ s.world.log) :
    ∃ replies : List Reply, List.Forall₂ (Tells s.world taken) ks replies ∧
      ∀ r ∈ replies, r.status ≠ .serverProgress := by
  induction ks with
  | nil => exact ⟨[],.nil,by simp⟩
  | cons k ks ih =>
    obtain ⟨hf,ha⟩ := h k List.mem_cons_self
    obtain ⟨r,hr,hne⟩ := reply_of_answered hm hset hp htaken hf ha
    obtain ⟨replies,hreplies,hall⟩ := ih fun j hj => h j (List.mem_cons_of_mem _ hj)
    refine ⟨r :: replies,.cons hr hreplies,fun r' hr' => ?_⟩
    rcases List.mem_cons.mp hr' with rfl | hr'
    · exact hne
    · exact hall r' hr'

theorem flatMap_replies {f : ContextRef → List Piece} {p : ContextRef → Reply → Prop}
    {ks : List ContextRef} {replies : List Reply} (h : List.Forall₂ p ks replies)
    (hp : ∀ k r, p k r → f k = r.pieces) : ks.flatMap f = replies.flatMap Reply.pieces := by
  induction h with
  | nil => rfl
  | cons hr _ ih => rw [List.flatMap_cons,List.flatMap_cons,hp _ _ hr,ih]

theorem received_of_carried (h : Carried s) (hm : Marked s) (hset : Settled s) (hp : Packets s)
    (htaken : Taken s taken)
    (hsent : ∀ k ∈ asked s.world s.sched.allocated c, .sendFailed k ∉ s.world.log)
    (hsize : ∀ size, .size size ∈ pieces (sentOn c) s.world.log → size < 2 ^ 32) :
    ∃ replies : List Reply,
      List.Forall₂ (Tells s.world taken) (replied s.world s.sched.allocated c) replies ∧
      ∀ answers following, Supply false answers (bytesOn s.world c).length →
        receiveReplies (fun _ => true) replies.length ⟨bytesOn s.world c ++ following,answers⟩ =
          replies.map Reply.received := by
  obtain ⟨replies,hreplies,hne⟩ :=
    replies_written hm hset hp htaken (replied s.world s.sched.allocated c) fun k hk => by
      obtain ⟨hk,ha⟩ := List.mem_filter.mp hk
      exact ⟨hsent k hk,of_decide_eq_true ha⟩
  obtain ⟨rest,hrest⟩ := asked_replied (c := c) h
  have hpieces : ∃ later,
      pieces (sentOn c) s.world.log = replies.flatMap Reply.pieces ++ later := by
    rw [h.order,Server.carried,hrest,List.flatMap_append,
      flatMap_replies hreplies (f := fun k => pieces (sentFor k) s.world.log)
        fun k r hr => hr.written,
      List.append_assoc]
    exact ⟨_,rfl⟩
  obtain ⟨later,hlater⟩ := hpieces
  have hbytes : bytesOn s.world c = replies.flatMap Reply.bytes ++ later.flatMap pieceBytes := by
    rw [bytesOn,hlater,List.flatMap_append,List.flatMap_assoc]
    exact congrArg (· ++ _) (List.flatMap_congr fun r _ => r.pieces_bytes)
  refine ⟨replies,hreplies,fun answers following ha => ?_⟩
  rw [hbytes,List.append_assoc]
  refine receiveReplies_bytes _ (fun r hr => Reply.sized_of_pieces (hne r hr) fun size hs => ?_)
    (ha.mono ?_)
  · refine hsize size ?_
    rw [hlater]
    exact List.mem_append_left _ (List.mem_flatMap.mpr ⟨r,hr,hs⟩)
  · rw [hbytes,List.length_append]
    exact Nat.le_add_right _ _

/-- However its bytes are cut on the way, a client is told the answers to its commands in order:
each call prints what was read from the child of that command, and returns its answer. -/
theorem replies_received {s : State TaskLinks} {taken : ContextRef → Text}
    (h : Reaches (annotated (fun core w a => keepsApart core w a = true) noteRead)
      (serverInit TaskLinks,fun _ => []) (s,taken)) (c : ThreadId)
    (hsent : ∀ k ∈ asked s.world s.sched.allocated c, .sendFailed k ∉ s.world.log)
    (hsize : ∀ size, .size size ∈ pieces (sentOn c) s.world.log → size < 2 ^ 32) :
    ∃ replies : List Reply,
      List.Forall₂ (Tells s.world taken) (replied s.world s.sched.allocated c) replies ∧
      ∀ answers following, Supply false answers (bytesOn s.world c).length →
        receiveReplies (fun _ => true) replies.length ⟨bytesOn s.world c ++ following,answers⟩ =
          replies.map Reply.received := by
  obtain ⟨l,hl,hr⟩ := annotated_refines serverRefines_init h
  obtain ⟨hm,hset,hp,_,hcar⟩ := reachable_carried (annotated_checked hl)
  rw [hr.world,hr.sched.core] at *
  exact received_of_carried hcar hm hset hp (annotated_taken hl) hsent hsize

/-- The first client of the two conversations reads its reply byte by byte. -/
theorem replies_received_twoConversations :
    ∃ s : State TaskLinks × (ContextRef → Text), exec
        (guarded (fun s a => keepsApart s.1.sched.toCore s.1.world a = true)
          (withLabels serverStep fun taken s => noteRead taken s.sched.toCore s.world))
        (serverInit TaskLinks,fun _ => []) twoConversations = some s ∧
      ∃ r : Reply, r.chunks.flatten = "x".toList ∧
        receiveReplies (fun _ => true) 1
          ⟨bytesOn s.1.world 0,(List.replicate 21 0).map Answer.moved⟩ = [r.received] := by
  obtain ⟨s,he⟩ := Option.isSome_iff_exists.mp
    (show (exec (guarded (fun (s : State TaskLinks × (ContextRef → Text)) a =>
        keepsApart s.1.sched.toCore s.1.world a = true)
      (withLabels serverStep fun taken s => noteRead taken s.sched.toCore s.world))
      (serverInit TaskLinks,fun _ => []) twoConversations).isSome = true from rfl)
  have hreach := reaches_of_guarded he
  have hsent : ∀ k ∈ asked s.1.world s.1.sched.allocated 0, .sendFailed k ∉ s.1.world.log := by
    cases he
    decide
  have hpieces : pieces (sentOn 0) s.1.world.log = packetPieces .serverProgress "x".toList ++
      packetPieces .serverContinue [] ++ [.status .serverExit] := by
    cases he
    decide
  have hsize : ∀ size, .size size ∈ pieces (sentOn 0) s.1.world.log → size < 2 ^ 32 := by
    rw [hpieces]
    simp [packetPieces]
  have hreplied : replied s.1.world s.1.sched.allocated 0 = [0] := by
    cases he
    decide
  have hread : streams (s.1.world.contexts 0) = true ∧ s.2 0 = "x".toList := by
    cases he
    decide
  have hbytes : (bytesOn s.1.world 0).length = 21 := by
    rw [bytesOn,hpieces]
    rfl
  obtain ⟨replies,hreplies,hall⟩ := replies_received hreach 0 hsent hsize
  have hreceived := hall ((List.replicate 21 0).map Answer.moved) []
    (hbytes.symm ▸ Supply.moved (List.replicate 21 0))
  rw [hreplied] at hreplies
  cases hreplies with
  | cons hr hrest =>
    cases hrest
    rw [List.append_nil] at hreceived
    exact ⟨s,he,_,(hr.read hread.1).trans hread.2,hreceived⟩

end Replies

end UnixShell.Session
