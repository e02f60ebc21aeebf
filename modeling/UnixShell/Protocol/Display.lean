import UnixShell.Protocol.Framing
import Mathlib.Algebra.Order.Group.Unbundled.Int

/-! # What the terminal shows of a program's output

The bytes a child writes reach the client in the chunks in which its pipe is read, each
in a packet of its own, or at the end in the response. The client puts a newline behind
every packet that lacks one.
-/
namespace UnixShell.Protocol
open Foundation

/-- What a `read` into the buffer of `task_context_drain_pipe` can return. -/
structure Chunk where
  bytes : Bytes
  nonempty : bytes ≠ []
  length_le : bytes.length ≤ 512

/-- The fields of a task context that decide what becomes of the output. -/
structure ProgramOutput where
  initialBurst : ℤ
  socketFd : Option ℕ
  output : Bytes
  bytesSentTotal : ℕ

def newOutput (initialBurst : ℤ) (socketFd : Option ℕ) : ProgramOutput where
  initialBurst := initialBurst
  socketFd := socketFd
  output := []
  bytesSentTotal := 0

def streams (context : ProgramOutput) : Bool :=
  decide (0 < context.initialBurst) && context.socketFd.isSome

/-- One drain, up to a read that finds nothing; the appended bytes find memory. -/
def taskContextDrainPipe : ProgramOutput → List Answer → List Chunk → ProgramOutput × Sent UInt8
  | context, answers, [] => (context,⟨[],.ok answers⟩)
  | context, answers, chunk :: chunks =>
    if streams context then
      let sent := sendProgress answers chunk.bytes
      let rest := fun answers => taskContextDrainPipe
        { context with bytesSentTotal := context.bytesSentTotal + chunk.bytes.length } answers chunks
      (match sent.outcome with
        | .error _ => context
        | .ok answers => (rest answers).1,
        sent.andThen (fun answers => (rest answers).2))
    else
      taskContextDrainPipe { context with output := context.output ++ chunk.bytes } answers chunks

/-- The drains of a program task and the response with what they have stored. -/
def runProgram : ProgramOutput → List Answer → List (List Chunk) → Sent UInt8
  | context, answers, [] => sendResponse answers serverContinue context.output
  | context, answers, chunks :: drains =>
    let drained := taskContextDrainPipe context answers chunks
    drained.2.andThen (fun answers => runProgram drained.1 answers drains)

/-- What the client writes to its terminal for one command. -/
def commandOutput (malloc : ℕ → Bool) (s : Source UInt8) : Bytes :=
  let received := receiveResponse malloc s
  received.1 ++
    match received.2 with
    | .ok (reply,_) => printPayload reply.payload
    | .error _ => []

/-- The output itself, or with a newline where it lacks one at its end. -/
def Unchanged (output shown : Bytes) : Prop :=
  shown = output ∨ (output.getLast? ≠ some newline ∧ shown = output ++ [newline])

instance (output shown : Bytes) : Decidable (Unchanged output shown) :=
  inferInstanceAs (Decidable (_ ∨ (_ ∧ _)))

section Server
variable {context : ProgramOutput} {answers : List Answer}

theorem drainPipe_streams (hs : streams context = true) (answers : List Answer)
    (chunks : List Chunk) :
    (taskContextDrainPipe context answers chunks).2 = drainChunks answers (chunks.map Chunk.bytes) ∧
      (taskContextDrainPipe context answers chunks).1.output = context.output ∧
      streams (taskContextDrainPipe context answers chunks).1 = true := by
  induction chunks generalizing context answers with
  | nil => exact ⟨rfl,rfl,hs⟩
  | cons chunk chunks ih =>
    have hrest := @ih { context with
      bytesSentTotal := context.bytesSentTotal + chunk.bytes.length } hs
    simp only [taskContextDrainPipe,if_pos hs,List.map_cons,drainChunks]
    constructor
    · congr 1
      funext left
      exact (hrest left).1
    · cases (sendProgress answers chunk.bytes).outcome with
      | error e => exact ⟨rfl,hs⟩
      | ok left => exact (hrest left).2

theorem drainPipe_stores (hs : streams context = false) (answers : List Answer)
    (chunks : List Chunk) :
    taskContextDrainPipe context answers chunks =
      ({ context with output := context.output ++ chunks.flatMap Chunk.bytes },
        ⟨[],.ok answers⟩) := by
  induction chunks generalizing context with
  | nil => simp [taskContextDrainPipe]
  | cons chunk chunks ih =>
    have hs' : ¬ streams context = true := by simp [hs]
    simp only [taskContextDrainPipe,if_neg hs']
    rw [@ih { context with output := context.output ++ chunk.bytes } hs]
    simp

theorem runProgram_streams (hs : streams context = true) (answers : List Answer)
    (drains : List (List Chunk)) : runProgram context answers drains =
      transmit serverContinue context.output answers (drains.map (List.map Chunk.bytes)) := by
  induction drains generalizing context answers with
  | nil => rfl
  | cons chunks drains ih =>
    obtain ⟨hd,ho,hst⟩ := drainPipe_streams hs answers chunks
    simp only [runProgram,List.map_cons,transmit,hd]
    congr 1
    funext left
    rw [ih hst left,ho]

theorem runProgram_stores (hs : streams context = false) (answers : List Answer)
    (drains : List (List Chunk)) : runProgram context answers drains =
      sendResponse answers serverContinue
        (context.output ++ drains.flatten.flatMap Chunk.bytes) := by
  induction drains generalizing context with
  | nil => simp [runProgram]
  | cons chunks drains ih =>
    have hrest := @ih { context with
      output := context.output ++ chunks.flatMap Chunk.bytes } hs
    simp only [runProgram,drainPipe_stores hs,Sent.andThen,List.nil_append,hrest]
    simp

end Server

section Terminal
variable {chunk : Bytes} {chunks : List Bytes}

/-- The client adds a newline to it. -/
def lacksNewline (chunk : Bytes) : Bool := chunk.getLast? ≠ some newline

theorem printPayload_length (hc : chunk ≠ []) : (printPayload chunk).length =
    chunk.length + if lacksNewline chunk then 1 else 0 := by
  by_cases hl : chunk.getLast? = some newline <;> simp [printPayload,lacksNewline,hc,hl]

theorem printPayload_of_newline (h : chunk.getLast? = some newline) :
    printPayload chunk = chunk := by
  simp [printPayload,h]

theorem flatMap_printPayload_length (hc : ∀ chunk ∈ chunks, chunk ≠ []) :
    (chunks.flatMap printPayload).length = chunks.flatten.length + chunks.countP lacksNewline := by
  induction chunks with
  | nil => rfl
  | cons chunk chunks ih =>
    have hlen := printPayload_length (hc chunk List.mem_cons_self)
    have hrest := ih (fun c h => hc c (List.mem_cons_of_mem _ h))
    simp only [List.flatMap_cons,List.flatten_cons,List.length_append,List.countP_cons]
    omega

theorem flatMap_printPayload (h : ∀ chunk ∈ chunks, chunk.getLast? = some newline) :
    chunks.flatMap printPayload = chunks.flatten := by
  induction chunks with
  | nil => rfl
  | cons chunk chunks ih =>
    rw [List.flatMap_cons,List.flatten_cons,printPayload_of_newline (h chunk List.mem_cons_self),
      ih (fun c hc => h c (List.mem_cons_of_mem _ hc))]

theorem unchanged_printPayload (output : Bytes) : Unchanged output (printPayload output) := by
  by_cases ho : output = []
  · exact Or.inl (by simp [printPayload,ho])
  · by_cases hl : output.getLast? = some newline
    · exact Or.inl (printPayload_of_newline hl)
    · exact Or.inr ⟨hl,by simp [printPayload,ho,hl]⟩

/-- Newlines may be added behind the last chunk only. -/
theorem unchanged_flatMap_iff (hc : ∀ chunk ∈ chunks, chunk ≠ []) :
    Unchanged chunks.flatten (chunks.flatMap printPayload) ↔
      ∀ chunk ∈ chunks.dropLast, chunk.getLast? = some newline := by
  rcases List.eq_nil_or_concat chunks with rfl | ⟨init,last,rfl⟩
  · simp [Unchanged]
  · have hlast : last ≠ [] := hc last (by simp)
    have hend : (init.concat last).flatten.getLast? = last.getLast? := by
      rw [List.concat_eq_append,List.flatten_append,List.flatten_singleton,List.getLast?_append]
      cases hl : last.getLast? with
      | none => exact (hlast (List.getLast?_eq_none_iff.mp hl)).elim
      | some b => rfl
    have hinit : (init.concat last).dropLast = init := by simp
    have hlen := flatMap_printPayload_length hc
    rw [hinit]
    constructor
    · intro h
      -- one newline at most, and that one behind the last chunk
      have hzero : init.countP lacksNewline = 0 := by
        have hcount : (init.concat last).countP lacksNewline =
            init.countP lacksNewline + if lacksNewline last then 1 else 0 := by
          simp [List.countP_append,List.countP_singleton]
        rcases h with h | ⟨hl,h⟩
        · rw [h] at hlen
          omega
        · have hlack : lacksNewline last = true := by
            rw [hend] at hl
            exact decide_eq_true hl
          rw [h,List.length_append,List.length_singleton] at hlen
          rw [hlack,if_pos rfl] at hcount
          omega
      intro chunk hm
      have hn := List.countP_eq_zero.mp hzero chunk hm
      simpa [lacksNewline] using hn
    · intro h
      have hflat := flatMap_printPayload h
      simp only [List.concat_eq_append,List.flatMap_append,List.flatMap_singleton,hflat] at hend ⊢
      rw [List.flatten_append,List.flatten_singleton] at hend ⊢
      rcases unchanged_printPayload last with hp | ⟨hl,hp⟩
      · exact Or.inl (by rw [hp])
      · exact Or.inr ⟨by rw [hend]; exact hl,by rw [hp,List.append_assoc]⟩

theorem printPayload_length_le (payload : Bytes) :
    (printPayload payload).length ≤ payload.length + 1 := by
  by_cases hp : payload = []
  · simp [printPayload,hp]
  · rw [printPayload_length hp]
    split <;> omega

/-- A payload that its size word cannot count is cut off. -/
theorem unchanged_take_iff (output : Bytes) :
    Unchanged output (printPayload (output.take (output.length % 2 ^ 32))) ↔
      output.length < 2 ^ 32 := by
  constructor
  · intro h
    by_contra hlong
    have hle := printPayload_length_le (output.take (output.length % 2 ^ 32))
    rw [List.length_take] at hle
    have hshown : output.length ≤ (printPayload (output.take (output.length % 2 ^ 32))).length := by
      rcases h with h | ⟨_,h⟩
      · rw [h]
      · rw [h,List.length_append]
        omega
    have hexact : output.length = 2 ^ 32 := by omega
    rw [hexact] at hshown
    simp [printPayload] at hshown
  · intro h
    rw [Nat.mod_eq_of_lt h,List.take_length]
    exact unchanged_printPayload output

end Terminal

section Session
variable {malloc : ℕ → Bool} {cuts : List ℕ} {output : Bytes}

theorem commandOutput_frames {progress : List Bytes} (following : Bytes)
    (ha : ∀ i, malloc i = true) (hp : ∀ chunk ∈ progress, chunk.length < 2 ^ 32)
    (hrecv : (frames progress serverContinue []).length ≤ cuts.length) :
    commandOutput malloc ⟨frames progress serverContinue [] ++ following,cuts.map Answer.moved⟩ =
      progress.flatMap printPayload := by
  have hcuts : Supply false _ _ := (Supply.moved cuts).mono hrecv
  have hfuel : progress.length < (cuts.map Answer.moved).length := by
    rw [List.length_map]
    exact (length_lt_frames progress serverContinue []).trans_le hrecv
  obtain ⟨rest,_,hr⟩ := receivePackets_frames (i := 0) (m := 0) following
    (by decide) hp (show ([] : Bytes).length < 2 ^ 32 by decide) (fun j _ => ha _) hfuel hcuts
  simp only [commandOutput,receiveResponse,hr]
  simp [printPayload]

theorem commandOutput_frame (following : Bytes) (ha : ∀ i, malloc i = true)
    (hrecv : (frame serverContinue output).length ≤ cuts.length) :
    commandOutput malloc ⟨frame serverContinue output ++ following,cuts.map Answer.moved⟩ =
      printPayload (output.take (output.length % 2 ^ 32)) := by
  let size := UInt32.ofNat output.length
  have hsize : size.toNat = output.length % 2 ^ 32 := UInt32.toNat_ofNat'
  have hlen : (output.take size.toNat).length = size.toNat := by
    rw [List.length_take,hsize]
    omega
  rw [frame_length] at hrecv
  have hcuts : Supply false (cuts.map Answer.moved) ((output.take size.toNat).length + 8 + 0) := by
    refine (Supply.moved cuts).mono (le_trans ?_ hrecv)
    rw [List.length_take]
    omega
  obtain ⟨rest,_,hr⟩ := receivePacket_sized serverContinue
    (output.drop size.toNat ++ following) hlen hcuts
  have hf : frame serverContinue output ++ following = htonl serverContinue ++ (htonl size ++
      (output.take size.toNat ++ (output.drop size.toNat ++ following))) := by
    rw [← List.append_assoc (output.take _),List.take_append_drop]
    simp [frame,size]
  obtain ⟨fuel,hfuel⟩ : ∃ k, (cuts.map Answer.moved).length = k + 1 :=
    ⟨cuts.length - 1,by rw [List.length_map]; omega⟩
  have hs : serverContinue ≠ serverProgress := by decide
  rw [← hsize]
  simp only [commandOutput,receiveResponse,hf,hfuel,receivePackets,ha,hr,if_neg hs,
    List.nil_append]

/-- The terminal shows the output unchanged exactly where no chunk but the last needs a
newline, or where the output is stored and its size can be told. -/
theorem output_unchanged_iff {initialBurst : ℤ} {socketFd : Option ℕ}
    {drains : List (List Chunk)} {sends left : List Answer} (following : Bytes)
    (ha : ∀ i, malloc i = true)
    (hsend : (runProgram (newOutput initialBurst socketFd) sends drains).outcome = .ok left)
    (hrecv : (runProgram (newOutput initialBurst socketFd) sends drains).wire.length ≤
      cuts.length) :
    Unchanged (drains.flatten.flatMap Chunk.bytes) (commandOutput malloc
        ⟨(runProgram (newOutput initialBurst socketFd) sends drains).wire ++ following,
          cuts.map Answer.moved⟩) ↔
      if streams (newOutput initialBurst socketFd) then
        ∀ chunk ∈ drains.flatten.dropLast, chunk.bytes.getLast? = some newline
      else (drains.flatten.flatMap Chunk.bytes).length < 2 ^ 32 := by
  by_cases hs : streams (newOutput initialBurst socketFd) = true
  · rw [runProgram_streams hs] at hsend hrecv ⊢
    rw [transmit_ok hsend] at hrecv ⊢
    have hflat : (drains.map (List.map Chunk.bytes)).flatten = drains.flatten.map Chunk.bytes :=
      List.map_flatten.symm
    have hp : ∀ chunk ∈ drains.flatten.map Chunk.bytes, chunk.length < 2 ^ 32 := by
      intro bytes hm
      obtain ⟨chunk,_,rfl⟩ := List.mem_map.mp hm
      exact chunk.length_le.trans_lt (by decide)
    have hc : ∀ chunk ∈ drains.flatten.map Chunk.bytes, chunk ≠ [] := by
      intro bytes hm
      obtain ⟨chunk,_,rfl⟩ := List.mem_map.mp hm
      exact chunk.nonempty
    rw [hflat] at hrecv ⊢
    change Unchanged _ (commandOutput malloc
      ⟨frames (drains.flatten.map Chunk.bytes) serverContinue [] ++ following,_⟩) ↔ _
    rw [commandOutput_frames following ha hp hrecv,List.flatMap_def,unchanged_flatMap_iff hc,
      if_pos hs,← List.map_dropLast,List.forall_mem_map]
  · rw [runProgram_stores (by simpa using hs)] at hsend hrecv ⊢
    rw [sendResponse_ok hsend] at hrecv ⊢
    have hout : (newOutput initialBurst socketFd).output ++ drains.flatten.flatMap Chunk.bytes =
        drains.flatten.flatMap Chunk.bytes := rfl
    rw [hout] at hrecv ⊢
    rw [commandOutput_frame following ha hrecv,unchanged_take_iff,if_neg hs]

/-- A line and the beginning of another one. -/
def lineAndLetter : List (List Chunk) :=
  [[⟨[97,newline],by decide,by decide⟩],[⟨[98],by decide,by decide⟩]]

theorem lineAndLetter_unchanged : Unchanged (lineAndLetter.flatten.flatMap Chunk.bytes)
    (commandOutput (fun _ => true)
      ⟨(runProgram (newOutput 5 (some 4)) (List.replicate 10 (.moved 9)) lineAndLetter).wire ++ [],
        (List.replicate 30 9).map Answer.moved⟩) := by
  have hsend : (runProgram (newOutput 5 (some 4)) (List.replicate 10 (.moved 9))
      lineAndLetter).outcome = .ok [.moved 9,.moved 9] := rfl
  exact (output_unchanged_iff [] (fun _ => rfl) hsend (by decide)).mpr (by decide)

/-- Two letters that are read one after the other end up on two lines. -/
def twoLetters : List (List Chunk) :=
  [[⟨[97],by decide,by decide⟩],[⟨[98],by decide,by decide⟩]]

theorem twoLetters_changed : ¬ Unchanged (twoLetters.flatten.flatMap Chunk.bytes)
    (commandOutput (fun _ => true)
      ⟨(runProgram (newOutput 5 (some 4)) (List.replicate 10 (.moved 9)) twoLetters).wire,
        (List.replicate 30 9).map Answer.moved⟩) := by
  decide

end Session

end UnixShell.Protocol
