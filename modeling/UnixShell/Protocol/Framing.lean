import UnixShell.Foundation.Transfers
import Mathlib.Algebra.Ring.Nat

/-! # Packets on a connection

A packet is a status word, a size word and a payload, written by as many calls of
`send_all` and read back by as many calls of `recv_all`. Calls move parts of what they
are asked for in any way; the client's input is everything up to the end of the stream.
-/
namespace UnixShell.Protocol
open Foundation

abbrev Bytes := List UInt8

def serverContinue : UInt32 := 0
def serverExit : UInt32 := 1
def serverProgress : UInt32 := 2

def newline : UInt8 := 10

/-- The bytes of a word in network order, as they lie in memory. -/
def htonl (n : UInt32) : Bytes :=
  [UInt8.ofNat (n.toNat / 2 ^ 24),UInt8.ofNat (n.toNat / 2 ^ 16),UInt8.ofNat (n.toNat / 2 ^ 8),
    UInt8.ofNat n.toNat]

def ntohl : Bytes → UInt32
  | [a,b,c,d] => UInt32.ofNat (a.toNat * 2 ^ 24 + b.toNat * 2 ^ 16 + c.toNat * 2 ^ 8 + d.toNat)
  | _ => 0

@[simp] theorem htonl_length (n : UInt32) : (htonl n).length = 4 := rfl

theorem ntohl_htonl (n : UInt32) : ntohl (htonl n) = n := by
  apply UInt32.toNat_inj.mp
  have hn : n.toNat < 2 ^ 32 := n.toNat_lt
  simp only [htonl,ntohl,UInt8.toNat_ofNat',UInt32.toNat_ofNat']
  omega

section Sender

/-- The `send_all` calls of `send_response`. -/
def responseParts (status : UInt32) (payload : Bytes) : List Bytes :=
  [htonl status,htonl (UInt32.ofNat payload.length)] ++ if payload = [] then [] else [payload]

def sendResponse (answers : List Answer) (status : UInt32) (payload : Bytes) : Sent UInt8 :=
  writeParts true answers (responseParts status payload)

/-- What `task_context_drain_pipe` sends for the bytes of one `read`. -/
def sendProgress (answers : List Answer) (chunk : Bytes) : Sent UInt8 :=
  writeParts true answers [htonl serverProgress,htonl (UInt32.ofNat chunk.length),chunk]

/-- One call of `task_context_drain_pipe`, given what its reads return. -/
def drainChunks : List Answer → List Bytes → Sent UInt8
  | answers, [] => ⟨[],.ok answers⟩
  | answers, chunk :: chunks =>
    (sendProgress answers chunk).andThen (fun answers => drainChunks answers chunks)

/-- The drains of one task and its response. -/
def transmit (status : UInt32) (payload : Bytes) : List Answer → List (List Bytes) → Sent UInt8
  | answers, [] => sendResponse answers status payload
  | answers, chunks :: drains =>
    (drainChunks answers chunks).andThen (fun answers => transmit status payload answers drains)

end Sender

section Receiver

structure Response where
  status : UInt32
  size : ℕ
  payload : Bytes
  deriving DecidableEq, Repr

/-- The client's `recv_all`: an interrupted call is a failure to it. -/
def recvAll (n : ℕ) (s : Source UInt8) : Except Stop (Bytes × Source UInt8) :=
  readExactly false n s

/-- The body of the loop in `receive_response` up to the complete payload. -/
def receivePacket (allocated : Bool) (s : Source UInt8) : Except Stop (Response × Source UInt8) := do
  let (networkStatus,s) ← recvAll 4 s
  let (networkReplySize,s) ← recvAll 4 s
  let payloadSize := (ntohl networkReplySize).toNat
  if allocated then
    let (payload,s) ← recvAll payloadSize s
    return (⟨ntohl networkStatus,payloadSize,payload⟩,s)
  else throw .failed

/-- A payload on the terminal, with a newline where it lacks one. -/
def printPayload (payload : Bytes) : Bytes :=
  if payload = [] then []
  else if payload.getLast? = some newline then payload
  else payload ++ [newline]

/-- The loop of `receive_response`: what it prints, and the first packet that is not one of
progress. The allocations are counted. -/
def receivePackets (malloc : ℕ → Bool) :
    ℕ → ℕ → Source UInt8 → Bytes × Except Stop (Response × Source UInt8)
  | 0, _, _ => ([],.error .waiting)
  | fuel + 1, i, s =>
    match receivePacket (malloc i) s with
    | .error e => ([],.error e)
    | .ok (packet,s) =>
      if packet.status = serverProgress then
        let rest := receivePackets malloc fuel (i + 1) s
        (printPayload packet.payload ++ rest.1,rest.2)
      else ([],.ok (packet,s))

/-- Every packet takes two answers at least, so the loop is never cut short. -/
def receiveResponse (malloc : ℕ → Bool) (s : Source UInt8) :
    Bytes × Except Stop (Response × Source UInt8) :=
  receivePackets malloc s.answers.length 0 s

end Receiver

/-- The bytes of one packet. -/
def frame (status : UInt32) (payload : Bytes) : Bytes :=
  htonl status ++ (htonl (UInt32.ofNat payload.length) ++ payload)

/-- The bytes of progress packets and the response behind them. -/
def frames (progress : List Bytes) (status : UInt32) (payload : Bytes) : Bytes :=
  progress.flatMap (frame serverProgress) ++ frame status payload

@[simp] theorem frame_length (status : UInt32) (payload : Bytes) :
    (frame status payload).length = payload.length + 8 := by
  simp [frame]
  omega

section Sending
variable {answers : List Answer} {m : ℕ}

theorem responseParts_flatten (status : UInt32) (payload : Bytes) :
    (responseParts status payload).flatten = frame status payload := by
  by_cases hp : payload = []
  · subst hp
    simp [responseParts,frame]
  · simp [responseParts,frame,hp]

theorem sendResponse_complete {status : UInt32} {payload : Bytes}
    (h : Supply true answers ((frame status payload).length + m)) :
    ∃ rest, Supply true rest m ∧
      sendResponse answers status payload = ⟨frame status payload,.ok rest⟩ := by
  rw [← responseParts_flatten] at h ⊢
  exact writeParts_complete h

theorem sendProgress_complete {chunk : Bytes}
    (h : Supply true answers ((frame serverProgress chunk).length + m)) :
    ∃ rest, Supply true rest m ∧
      sendProgress answers chunk = ⟨frame serverProgress chunk,.ok rest⟩ := by
  have hf : [htonl serverProgress,htonl (UInt32.ofNat chunk.length),chunk].flatten =
      frame serverProgress chunk := by
    simp [frame]
  rw [← hf] at h ⊢
  exact writeParts_complete h

theorem sendResponse_ok {status : UInt32} {payload : Bytes} {left : List Answer}
    (h : (sendResponse answers status payload).outcome = .ok left) :
    (sendResponse answers status payload).wire = frame status payload :=
  (writeParts_ok h).trans (responseParts_flatten status payload)

theorem sendProgress_ok {chunk : Bytes} {left : List Answer}
    (h : (sendProgress answers chunk).outcome = .ok left) :
    (sendProgress answers chunk).wire = frame serverProgress chunk := by
  refine (writeParts_ok h).trans ?_
  simp [frame]

theorem drainChunks_ok {chunks : List Bytes} {left : List Answer}
    (h : (drainChunks answers chunks).outcome = .ok left) :
    (drainChunks answers chunks).wire = chunks.flatMap (frame serverProgress) := by
  induction chunks generalizing answers with
  | nil => rfl
  | cons chunk chunks ih =>
    obtain ⟨answers',hf,hs,hw⟩ := Sent.andThen_ok h
    rw [drainChunks,hw,sendProgress_ok hf,ih hs,List.flatMap_cons]

theorem drainChunks_complete {chunks : List Bytes}
    (h : Supply true answers ((chunks.flatMap (frame serverProgress)).length + m)) :
    ∃ rest, Supply true rest m ∧
      drainChunks answers chunks = ⟨chunks.flatMap (frame serverProgress),.ok rest⟩ := by
  induction chunks generalizing answers with
  | nil => exact ⟨answers,h.mono (by omega),rfl⟩
  | cons chunk chunks ih =>
    have hlen : (frame serverProgress chunk).length +
        ((chunks.flatMap (frame serverProgress)).length + m) ≤
          ((chunk :: chunks).flatMap (frame serverProgress)).length + m := by
      rw [List.flatMap_cons,List.length_append]
      omega
    obtain ⟨answers',ha,hs⟩ := sendProgress_complete (h.mono hlen)
    obtain ⟨rest,hr,hd⟩ := ih ha
    refine ⟨rest,hr,?_⟩
    rw [drainChunks,Sent.andThen_complete hs,hd,List.flatMap_cons]

theorem transmit_ok {status : UInt32} {payload : Bytes} {drains : List (List Bytes)}
    {left : List Answer} (h : (transmit status payload answers drains).outcome = .ok left) :
    (transmit status payload answers drains).wire = frames drains.flatten status payload := by
  induction drains generalizing answers with
  | nil => exact sendResponse_ok h
  | cons chunks drains ih =>
    obtain ⟨answers',hf,hs,hw⟩ := Sent.andThen_ok h
    rw [transmit,hw,drainChunks_ok hf,ih hs]
    simp [frames]

/-- Whatever is written in parts, the connection carries the packets one after another. -/
theorem transmit_complete {status : UInt32} {payload : Bytes} {drains : List (List Bytes)}
    (h : Supply true answers ((frames drains.flatten status payload).length + m)) :
    ∃ rest, Supply true rest m ∧ transmit status payload answers drains =
      ⟨frames drains.flatten status payload,.ok rest⟩ := by
  induction drains generalizing answers with
  | nil => exact sendResponse_complete h
  | cons chunks drains ih =>
    have hsplit : frames (chunks :: drains).flatten status payload =
        chunks.flatMap (frame serverProgress) ++ frames drains.flatten status payload := by
      simp [frames]
    have hlen : (chunks.flatMap (frame serverProgress)).length +
        ((frames drains.flatten status payload).length + m) ≤
          (frames (chunks :: drains).flatten status payload).length + m := by
      rw [hsplit,List.length_append]
      omega
    obtain ⟨answers',ha,hs⟩ := drainChunks_complete (h.mono hlen)
    obtain ⟨rest,hr,hd⟩ := ih ha
    refine ⟨rest,hr,?_⟩
    rw [transmit,Sent.andThen_complete hs,hd,hsplit]

end Sending

section Receiving
variable {answers : List Answer} {malloc : ℕ → Bool} {status size : UInt32}
  {payload following : Bytes} {m n : ℕ}

/-- Two words and as many bytes as the second one says. -/
theorem receivePacket_sized (status : UInt32) (following : Bytes) (hs : payload.length = size.toNat)
    (h : Supply false answers (payload.length + 8 + m)) :
    ∃ rest, Supply false rest m ∧
      receivePacket true ⟨htonl status ++ (htonl size ++ (payload ++ following)),answers⟩ =
        .ok (⟨status,payload.length,payload⟩,⟨following,rest⟩) := by
  have h4 : Supply false answers (4 + (4 + (payload.length + m))) := h.mono (by omega)
  obtain ⟨a₁,h₁,hr₁⟩ := readExactly_append (htonl size ++ (payload ++ following))
    h4 (htonl_length status)
  obtain ⟨a₂,h₂,hr₂⟩ := readExactly_append (payload ++ following) h₁
    (htonl_length size)
  obtain ⟨a₃,h₃,hr₃⟩ := readExactly_append following h₂ rfl
  refine ⟨a₃,h₃,?_⟩
  rw [hs] at hr₃ ⊢
  simp only [receivePacket,recvAll,hr₁,hr₂,hr₃,ntohl_htonl,bind,Except.bind,if_true,pure,
    Except.pure]

theorem toNat_ofNat_length (hl : payload.length < 2 ^ 32) :
    payload.length = (UInt32.ofNat payload.length).toNat := by
  rw [UInt32.toNat_ofNat',Nat.mod_eq_of_lt hl]

theorem receivePacket_frame (following : Bytes) (hl : payload.length < 2 ^ 32)
    (h : Supply false answers ((frame status payload).length + m)) :
    ∃ rest, Supply false rest m ∧
      receivePacket true ⟨frame status payload ++ following,answers⟩ =
        .ok (⟨status,payload.length,payload⟩,⟨following,rest⟩) := by
  rw [frame_length] at h
  obtain ⟨rest,hr,hp⟩ := receivePacket_sized status following (toNat_ofNat_length hl) h
  refine ⟨rest,hr,?_⟩
  rw [← hp]
  simp [frame]

/-- Without memory for the payload the packet is given up, its header read. -/
theorem receivePacket_no_memory
    (h : Supply false answers ((frame status payload).length + m)) :
    receivePacket false ⟨frame status payload ++ following,answers⟩ = .error .failed := by
  rw [frame_length] at h
  have h4 : Supply false answers (4 + (4 + (payload.length + m))) := h.mono (by omega)
  have hf : frame status payload ++ following =
      htonl status ++ (htonl (UInt32.ofNat payload.length) ++ (payload ++ following)) := by
    simp [frame]
  obtain ⟨a₁,h₁,hr₁⟩ := readExactly_append
    (htonl (UInt32.ofNat payload.length) ++ (payload ++ following)) h4 (htonl_length status)
  obtain ⟨a₂,_,hr₂⟩ := readExactly_append (payload ++ following) h₁
    (htonl_length (UInt32.ofNat payload.length))
  rw [hf]
  simp only [receivePacket,recvAll,hr₁,hr₂,bind,Except.bind]
  rfl

/-- A word of a stream that is cut off somewhere. -/
theorem readExactly_take (word : UInt32) (tail : Bytes) (n : ℕ) (h : Supply false answers (4 + m)) :
    (n < 4 ∧ readExactly false 4 ⟨(htonl word ++ tail).take n,answers⟩ = .error .failed) ∨
    (4 ≤ n ∧ ∃ rest, Supply false rest m ∧
      readExactly false 4 ⟨(htonl word ++ tail).take n,answers⟩ =
        .ok (htonl word,⟨tail.take (n - 4),rest⟩)) := by
  by_cases hn : n < 4
  · refine Or.inl ⟨hn,readExactly_short (h.mono (by omega)) ?_⟩
    simp only [List.length_take]
    omega
  · have hsplit : (htonl word ++ tail).take n = htonl word ++ tail.take (n - 4) := by
      rw [List.take_append,htonl_length,List.take_of_length_le (by simp; omega)]
    rw [hsplit]
    exact Or.inr ⟨by omega,readExactly_append _ h (htonl_length word)⟩

/-- A stream that ends inside a packet. -/
theorem receivePacket_short (hl : payload.length < 2 ^ 32) (b : Bool)
    (hn : n < (frame status payload).length)
    (h : Supply false answers ((frame status payload).length + m)) :
    receivePacket b ⟨(frame status payload).take n,answers⟩ = .error .failed := by
  rw [frame_length] at hn h
  have h4 : Supply false answers (4 + (4 + (payload.length + m))) := h.mono (by omega)
  rw [frame]
  rcases readExactly_take status (htonl (UInt32.ofNat payload.length) ++ payload) n h4
    with ⟨_,hr⟩ | ⟨h₁,a₁,hs₁,hr₁⟩
  · simp only [receivePacket,recvAll,hr,bind,Except.bind]
  · rcases readExactly_take (UInt32.ofNat payload.length) payload (n - 4) hs₁
      with ⟨_,hr⟩ | ⟨h₂,a₂,hs₂,hr₂⟩
    · simp only [receivePacket,recvAll,hr₁,hr,bind,Except.bind]
    · have hlen : (payload.take (n - 4 - 4)).length < payload.length := by
        rw [List.length_take]
        omega
      have hr := readExactly_short (s := ⟨payload.take (n - 4 - 4),a₂⟩) (hs₂.mono (by omega)) hlen
      simp only [receivePacket,recvAll,hr₁,hr₂,ntohl_htonl,bind,Except.bind,
        ← toNat_ofNat_length hl,hr]
      cases b <;> rfl

end Receiving

section Loop
variable {answers : List Answer} {malloc : ℕ → Bool} {status : UInt32}
  {payload following : Bytes} {progress : List Bytes} {fuel i m n : ℕ}

@[simp] theorem frames_nil (status : UInt32) (payload : Bytes) :
    frames [] status payload = frame status payload := rfl

@[simp] theorem frames_cons (chunk : Bytes) (progress : List Bytes) (status : UInt32)
    (payload : Bytes) : frames (chunk :: progress) status payload =
      frame serverProgress chunk ++ frames progress status payload := by
  simp [frames]

theorem length_lt_frames (progress : List Bytes) (status : UInt32) (payload : Bytes) :
    progress.length < (frames progress status payload).length := by
  induction progress with
  | nil => simp
  | cons chunk progress ih =>
    simp only [List.length_cons,frames_cons,List.length_append,frame_length]
    omega

theorem supply_frames_cons {chunk : Bytes}
    (h : Supply false answers ((frames (chunk :: progress) status payload).length + m)) :
    Supply false answers ((frame serverProgress chunk).length +
      ((frames progress status payload).length + m)) := by
  apply h.mono
  rw [frames_cons,List.length_append]
  omega

/-- The packets are read one by one, each progress packet printed on the way. -/
theorem receivePackets_frames (following : Bytes) (hs : status ≠ serverProgress)
    (hp : ∀ chunk ∈ progress, chunk.length < 2 ^ 32) (hl : payload.length < 2 ^ 32)
    (ha : ∀ j ≤ progress.length, malloc (i + j) = true) (hf : progress.length < fuel)
    (h : Supply false answers ((frames progress status payload).length + m)) :
    ∃ rest, Supply false rest m ∧
      receivePackets malloc fuel i ⟨frames progress status payload ++ following,answers⟩ =
        (progress.flatMap printPayload,.ok (⟨status,payload.length,payload⟩,⟨following,rest⟩)) := by
  induction progress generalizing answers i fuel with
  | nil =>
    obtain ⟨fuel,rfl⟩ : ∃ k, fuel = k + 1 := ⟨fuel - 1,by simp at hf; omega⟩
    obtain ⟨rest,hr,hrec⟩ := receivePacket_frame following hl h
    refine ⟨rest,hr,?_⟩
    have hm : malloc i = true := ha 0 le_rfl
    simp only [frames_nil,receivePackets,hm,hrec,if_neg hs,List.flatMap_nil]
  | cons chunk progress ih =>
    obtain ⟨fuel,rfl⟩ : ∃ k, fuel = k + 1 := ⟨fuel - 1,by simp at hf; omega⟩
    obtain ⟨a₁,h₁,hrec⟩ := receivePacket_frame (frames progress status payload ++ following)
      (hp chunk List.mem_cons_self) (supply_frames_cons h)
    have ha' : ∀ j ≤ progress.length, malloc (i + 1 + j) = true := by
      intro j hj
      rw [Nat.add_assoc,Nat.add_comm 1 j]
      exact ha (j + 1) (by simp only [List.length_cons]; omega)
    obtain ⟨rest,hr,hrest⟩ := ih (fun c hc => hp c (List.mem_cons_of_mem _ hc)) ha'
      (by simp at hf; omega) h₁
    refine ⟨rest,hr,?_⟩
    have hm : malloc i = true := ha 0 (Nat.zero_le _)
    simp only [frames_cons,List.append_assoc,receivePackets,hm,hrec,if_true,hrest,
      List.flatMap_cons]

/-- Without memory for one of the payloads the call fails. -/
theorem receivePackets_no_memory (hp : ∀ chunk ∈ progress, chunk.length < 2 ^ 32)
    (ha : ∃ j ≤ progress.length, malloc (i + j) = false) (hf : progress.length < fuel)
    (h : Supply false answers ((frames progress status payload).length + m)) :
    (receivePackets malloc fuel i ⟨frames progress status payload ++ following,answers⟩).2 =
      .error .failed := by
  induction progress generalizing answers i fuel with
  | nil =>
    obtain ⟨fuel,rfl⟩ : ∃ k, fuel = k + 1 := ⟨fuel - 1,by simp at hf; omega⟩
    obtain ⟨j,hj,hm⟩ := ha
    obtain rfl : j = 0 := by simpa using hj
    simp only [Nat.add_zero] at hm
    simp only [frames_nil,receivePackets,hm,receivePacket_no_memory h]
  | cons chunk progress ih =>
    obtain ⟨fuel,rfl⟩ : ∃ k, fuel = k + 1 := ⟨fuel - 1,by simp at hf; omega⟩
    simp only [frames_cons,List.append_assoc,receivePackets]
    cases hm : malloc i with
    | false => rw [receivePacket_no_memory (supply_frames_cons h)]
    | true =>
      obtain ⟨a₁,h₁,hrec⟩ := receivePacket_frame (frames progress status payload ++ following)
        (hp chunk List.mem_cons_self) (supply_frames_cons h)
      simp only [hrec,if_true]
      obtain ⟨j,hj,hmj⟩ := ha
      obtain ⟨j,rfl⟩ : ∃ k, j = k + 1 := by
        cases j with
        | zero => simp [hm] at hmj
        | succ j => exact ⟨j,rfl⟩
      refine ih (fun c hc => hp c (List.mem_cons_of_mem _ hc)) ⟨j,by simpa using hj,?_⟩
        (by simp at hf; omega) h₁
      rw [← hmj]
      congr 1
      omega

/-- A stream that ends before the last of the packets is complete. -/
theorem receivePackets_short (hp : ∀ chunk ∈ progress, chunk.length < 2 ^ 32)
    (hl : payload.length < 2 ^ 32) (hn : n < (frames progress status payload).length)
    (hf : progress.length < fuel)
    (h : Supply false answers ((frames progress status payload).length + m)) :
    (receivePackets malloc fuel i ⟨(frames progress status payload).take n,answers⟩).2 =
      .error .failed := by
  induction progress generalizing answers i fuel n with
  | nil =>
    obtain ⟨fuel,rfl⟩ : ∃ k, fuel = k + 1 := ⟨fuel - 1,by simp at hf; omega⟩
    simp only [frames_nil,receivePackets,receivePacket_short hl (malloc i) hn h]
  | cons chunk progress ih =>
    obtain ⟨fuel,rfl⟩ : ∃ k, fuel = k + 1 := ⟨fuel - 1,by simp at hf; omega⟩
    have hc := hp chunk List.mem_cons_self
    simp only [frames_cons,receivePackets,List.take_append]
    by_cases hin : n < (frame serverProgress chunk).length
    · have htake : (frames progress status payload).take
          (n - (frame serverProgress chunk).length) = [] := by
        rw [Nat.sub_eq_zero_of_le hin.le,List.take_zero]
      rw [htake,List.append_nil,receivePacket_short hc (malloc i) hin (supply_frames_cons h)]
    · rw [List.take_of_length_le (Nat.le_of_not_lt hin)]
      cases malloc i with
      | false => rw [receivePacket_no_memory (supply_frames_cons h)]
      | true =>
        obtain ⟨a₁,h₁,hrec⟩ := receivePacket_frame
          ((frames progress status payload).take
            (n - (frame serverProgress chunk).length)) hc (supply_frames_cons h)
        simp only [hrec,if_true]
        refine ih (fun c hc => hp c (List.mem_cons_of_mem _ hc)) ?_ (by simp at hf; omega) h₁
        simp only [frames_cons,List.length_append] at hn
        omega

/-- However the writes and the reads are cut, the client gets the packets as they were sent:
it prints those of progress in order and returns the last one, or it fails for want of memory
or because the stream ends early. -/
theorem response_round_trip {drains : List (List Bytes)} {sends : List Answer} {cuts : List ℕ}
    (malloc : ℕ → Bool) (following : Bytes) (hs : status ≠ serverProgress)
    (hp : ∀ chunk ∈ drains.flatten, chunk.length < 2 ^ 32) (hl : payload.length < 2 ^ 32)
    (hsend : Supply true sends (frames drains.flatten status payload).length)
    (hrecv : (frames drains.flatten status payload).length ≤ cuts.length) :
    let sent := transmit status payload sends drains
    let receive := fun stream : Bytes => receiveResponse malloc ⟨stream,cuts.map Answer.moved⟩
    (∃ left, sent.outcome = .ok left) ∧
    ((∀ i ≤ drains.flatten.length, malloc i = true) → ∃ left,
      receive (sent.wire ++ following) = (drains.flatten.flatMap printPayload,
        .ok (⟨status,payload.length,payload⟩,⟨following,left⟩))) ∧
    ((∃ i ≤ drains.flatten.length, malloc i = false) →
      (receive (sent.wire ++ following)).2 = .error .failed) ∧
    ∀ n < sent.wire.length, (receive (sent.wire.take n)).2 = .error .failed := by
  obtain ⟨left,_,hsent⟩ := transmit_complete (m := 0) hsend
  have hcuts : Supply false _ _ := (Supply.moved cuts).mono hrecv
  have hfuel : drains.flatten.length < (cuts.map Answer.moved).length := by
    rw [List.length_map]
    exact (length_lt_frames _ status payload).trans_le hrecv
  simp only [hsent,receiveResponse]
  refine ⟨⟨left,rfl⟩,fun ha => ?_,fun ha => ?_,fun n hn => ?_⟩
  · obtain ⟨rest,_,hr⟩ := receivePackets_frames (i := 0) (m := 0) following hs hp hl
      (by simpa using ha) hfuel hcuts
    exact ⟨rest,hr⟩
  · exact receivePackets_no_memory (i := 0) (m := 0) hp (by simpa using ha) hfuel hcuts
  · exact receivePackets_short (i := 0) (m := 0) hp hl hn hfuel hcuts

/-- Two chunks and a response of two bytes, sent and read byte by byte. -/
theorem response_round_trip_bytewise : ∃ left,
    receiveResponse (fun _ => true)
      ⟨(transmit serverContinue [1,2] (.interrupted :: List.replicate 29 (.moved 0))
        [[[104,105]],[[10]]]).wire ++ [7],(List.replicate 29 0).map Answer.moved⟩ =
      ([104,105,10,10],.ok (⟨serverContinue,2,[1,2]⟩,⟨[7],left⟩)) :=
  (response_round_trip (fun _ => true) [7] (by decide) (by decide) (by decide)
    ⟨by decide,by decide⟩ (by decide)).2.1 (fun _ _ => rfl)

end Loop

end UnixShell.Protocol
