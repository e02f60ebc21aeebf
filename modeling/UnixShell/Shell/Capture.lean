import Mathlib.Algebra.Group.Nat.Defs
import UnixShell.Parser.Pointers
import UnixShell.Shell.Invocation

/-! # Captured output

`shell_execute_line_capture` runs a line in a child and collects what comes out of a pipe in a
buffer that doubles. A size is a number below a power of two, and a sum or a product is cut
down to it. The writes to the buffer are recorded with the size that the block has then.
-/
namespace UnixShell.Shell
open Foundation UnixShell.Parser

/-- Cells of a block of memory. One that was never written holds nothing known. -/
abbrev Block := List (Option Char)

def chunkSize : ℕ := 4096

/-- What one `read` returns. -/
structure Chunk where
  bytes : Text
  nonempty : bytes ≠ []
  fits : bytes.length ≤ chunkSize

def output (chunks : List Chunk) : Text := chunks.flatMap Chunk.bytes

inductive ChildStatus
  | exited (code : ℕ)
  | signaled
  deriving DecidableEq, Repr

/-- `WIFEXITED` and the exit status one. -/
def ChildStatus.requestsExit : ChildStatus → Bool
  | .exited code => code = 1
  | .signaled => false

/-- What the calls of one capture answer, and what a command prints and how its shell ends. -/
structure Calls where
  pipe : Bool
  fork : Bool
  dup2Out : Bool
  dup2Err : Bool
  waitpid : Bool
  printed : Execution → List Chunk
  /-- The read behind the last chunk fails. -/
  readFails : Bool
  killed : Execution → Bool
  malloc : ℕ → Bool
  realloc : ℕ → Bool
  parserAlloc : ℕ → Bool

namespace Calls
variable (calls : Calls) (line : Text)

/-- What the child comes to execute, if both descriptors could be redirected. -/
def child : Option Execution :=
  if calls.dup2Out && calls.dup2Err then some (shellExecuteLine calls.parserAlloc (some line))
  else none

/-- The chunks that come out of the pipe. -/
def chunks : List Chunk :=
  match calls.child line with
  | none => []
  | some .exitRequest => []
  | some execution => calls.printed execution

def status : ChildStatus :=
  match calls.child line with
  -- `EXIT_FAILURE`
  | none => .exited 1
  | some .exitRequest => .exited 1
  | some execution => if calls.killed execution then .signaled else .exited 0

end Calls

section Child
variable {calls : Calls} {line : Text}

/-- Only a line other than the exit makes the child print. -/
theorem chunks_of_ne (hout : calls.dup2Out = true) (herr : calls.dup2Err = true)
    (hexit : cutLine line ≠ exitText) :
    calls.chunks line = calls.printed (shellExecuteLine calls.parserAlloc (some line)) := by
  have hchild : calls.child line = some (shellExecuteLine calls.parserAlloc (some line)) := by
    rw [Calls.child,hout,herr]
    rfl
  rw [Calls.chunks,hchild]
  cases hrun : shellExecuteLine calls.parserAlloc (some line) with
  | exitRequest => exact absurd (shellExecuteLine_exit_iff.mp hrun) hexit
  | _ => rfl

end Child

/-- A write of some cells, and the size of the block. -/
structure Store where
  offset : ℕ
  length : ℕ
  size : ℕ
  deriving DecidableEq, Repr

def Store.InBounds (s : Store) : Prop := s.offset + s.length ≤ s.size

/-- The variables of the read loop. -/
structure Capturing where
  buffer : Option Block
  totalSize : ℕ
  capacity : ℕ
  mallocs : ℕ
  reallocs : ℕ
  stores : List Store
  deriving DecidableEq, Repr

def Capturing.start : Capturing := ⟨none,0,0,0,0,[]⟩

/-- What is returned, with the output that the caller gets and its size. -/
structure Captured where
  exitRequested : Bool
  output : Option Block
  size : ℕ
  reallocs : ℕ
  stores : List Store
  deriving DecidableEq, Repr

def blockSize : Option Block → ℕ
  | none => 0
  | some block => block.length

/-- A string and the byte that ends it. -/
def stringBlock (text : Text) : Block := text.map some ++ [some nul]

def memcpy (block : Block) (offset : ℕ) (bytes : Text) : Block :=
  block.take offset ++ bytes.map some ++ block.drop (offset + bytes.length)

/-- The cells that a block keeps, and the new ones. -/
def resize (buffer : Option Block) (size : ℕ) : Block :=
  (buffer.getD []).take size ++ List.replicate (size - blockSize buffer) none

section Capture
variable (w : ℕ)

/-- The doubling loop, if it ends within so many turns. -/
def growCapacity : ℕ → ℕ → ℕ → Option ℕ
  | 0, _, _ => none
  | fuel + 1, newCapacity, needed =>
    if newCapacity < needed then growCapacity fuel (newCapacity * 2 % 2 ^ w) needed
    else some newCapacity

/-- The copy of a chunk behind what there is. -/
def appendChunk (chunk : Chunk) (c : Capturing) : Capturing :=
  { c with
    buffer := c.buffer.map (fun block => memcpy block c.totalSize chunk.bytes)
    totalSize := (c.totalSize + chunk.bytes.length) % 2 ^ w
    stores := c.stores ++ [⟨c.totalSize,chunk.bytes.length,blockSize c.buffer⟩] }

def bufferMessage : Text := "Failed to allocate captured output buffer.\n".toList

variable (calls : Calls)

/-- `duplicate_text`. -/
def duplicateText (text : Text) (c : Capturing) : Option Block × Capturing :=
  (if calls.malloc c.mallocs then some (stringBlock text) else none,
    { c with mallocs := c.mallocs + 1 })

/-- The message takes the place of the buffer. -/
def refuseBuffer (c : Capturing) : Capturing :=
  let (message,c) := duplicateText calls bufferMessage c
  { c with buffer := message, totalSize := if message.isSome then bufferMessage.length else 0 }

/-- The read loop, and whether it was left by its `break`. -/
def captureLoop (fuel : ℕ) : List Chunk → Capturing → Option (Capturing × Bool)
  | [], c => some (c,false)
  | chunk :: chunks, c =>
    let needed := (c.totalSize + chunk.bytes.length + 1) % 2 ^ w
    if c.capacity < needed then
      match growCapacity w fuel (if c.capacity = 0 then 4096 else c.capacity) needed with
      | none => none
      | some newCapacity =>
        let resized := { c with reallocs := c.reallocs + 1 }
        if calls.realloc c.reallocs then
          captureLoop fuel chunks (appendChunk w chunk { resized with
            buffer := some (resize c.buffer newCapacity)
            capacity := newCapacity })
        else some (refuseBuffer calls resized,true)
    else captureLoop fuel chunks (appendChunk w chunk c)

/-- A message for the caller instead of the output. -/
def report (message : Text) (exitRequested : Bool) (c : Capturing) : Captured :=
  let (copy,c) := duplicateText calls message c
  ⟨exitRequested,copy,if copy.isSome then message.length else 0,c.reallocs,c.stores⟩

/-- The terminator behind the output. -/
def terminate (block : Block) (exitRequested : Bool) (c : Capturing) : Captured :=
  ⟨exitRequested,some (block.set c.totalSize (some nul)),c.totalSize,c.reallocs,
    c.stores ++ [⟨c.totalSize,1,block.length⟩]⟩

/-- What follows the read loop. -/
def finishCapture (status : ChildStatus) (broke : Bool) (c : Capturing) : Captured :=
  if !calls.waitpid then
    report calls "Failed to wait for capture process.\n".toList false c
  else if calls.readFails && !broke then
    report calls "Failed to read captured output bytes.\n".toList status.requestsExit c
  else
    match c.buffer with
    | some block => terminate block status.requestsExit c
    | none =>
      if calls.malloc c.mallocs then
        terminate [none] status.requestsExit { c with mallocs := c.mallocs + 1 }
      else report calls bufferMessage status.requestsExit { c with mallocs := c.mallocs + 1 }

def shellExecuteLineCapture (fuel : ℕ) (line : Text) : Option Captured :=
  if !calls.pipe then
    some (report calls "Failed to create capture pipe.\n".toList false .start)
  else if !calls.fork then
    some (report calls "Failed to fork capture process.\n".toList false .start)
  else
    (captureLoop w calls fuel (calls.chunks line) .start).map
      (fun ended => finishCapture calls (calls.status line) ended.2 ended.1)

end Capture

/-- The caller gets this text, its length, and a NUL behind it. -/
def Captured.Holds (r : Captured) (text : Text) : Prop :=
  r.size = text.length ∧ ∃ block, r.output = some block ∧
    block.take (text.length + 1) = stringBlock text

section Growth
variable {w k needed : ℕ}

/-- Doubling ends at a power of two that is enough, and below the range. -/
theorem growCapacity_some (fuel : ℕ) (hk : k < w) (hneeded : needed ≤ 2 ^ (w - 1))
    (hfuel : w ≤ fuel + k) :
    ∃ k' ≥ k, k' < w ∧ growCapacity w fuel (2 ^ k) needed = some (2 ^ k') ∧ needed ≤ 2 ^ k' := by
  induction fuel generalizing k with
  | zero => omega
  | succ fuel ih =>
    by_cases hlt : 2 ^ k < needed
    · have hk' : k + 1 < w := by
        by_contra hge
        have hle : 2 ^ (w - 1) ≤ 2 ^ k := Nat.pow_le_pow_right (by decide) (by omega)
        omega
      obtain ⟨k',hle,hlt',hgrow,henough⟩ := ih hk' (by omega)
      refine ⟨k',by omega,hlt',?_,henough⟩
      have hpow : 2 ^ (k + 1) < 2 ^ w := Nat.pow_lt_pow_right (by decide) hk'
      rw [growCapacity,if_pos hlt,← Nat.pow_succ,Nat.mod_eq_of_lt hpow]
      exact hgrow
    · exact ⟨k,le_rfl,hk,by rw [growCapacity,if_neg hlt],not_lt.mp hlt⟩

end Growth

/-- The read loop has collected some output, all of it in the buffer. -/
structure Collecting (w : ℕ) (calls : Calls) (out : Text) (c : Capturing) : Prop where
  total : c.totalSize = out.length
  room : c.capacity = 0 ∧ c.buffer = none ∧ out = [] ∨
    ∃ k block, 12 ≤ k ∧ k < w ∧ c.capacity = 2 ^ k ∧ c.buffer = some block ∧
      block.length = 2 ^ k ∧ out.length + 1 ≤ 2 ^ k ∧ block.take out.length = out.map some
  stores : ∀ s ∈ c.stores, s.InBounds
  granted : ∀ n < c.reallocs, calls.realloc n = true

/-- The message stands in the buffer, since a block could not be had. -/
structure Unbuffered (calls : Calls) (c : Capturing) : Prop where
  buffer : c.buffer = some (stringBlock bufferMessage)
  total : c.totalSize = bufferMessage.length
  stores : ∀ s ∈ c.stores, s.InBounds
  refused : ∃ n < c.reallocs, calls.realloc n = false

section Loop
variable {w fuel k : ℕ} {calls : Calls} {out : Text} {c : Capturing} {block : Block}
  {chunk : Chunk} {chunks : List Chunk}

theorem memcpy_take {bytes : Text} (htake : block.take out.length = out.map some) :
    (memcpy block out.length bytes).take (out ++ bytes).length = (out ++ bytes).map some := by
  have hlen : (out.map some ++ bytes.map some).length = (out ++ bytes).length := by simp
  rw [memcpy,htake,List.map_append,← hlen,List.take_left]

theorem memcpy_length {bytes : Text} {offset : ℕ} (h : offset + bytes.length ≤ block.length) :
    (memcpy block offset bytes).length = block.length := by
  simp only [memcpy,List.length_append,List.length_take,List.length_map,List.length_drop]
  omega

theorem resize_length {buffer : Option Block} {size : ℕ} (h : blockSize buffer ≤ size) :
    (resize buffer size).length = size := by
  cases buffer with
  | none => simp [resize,blockSize]
  | some block =>
    simp only [blockSize] at h
    simp only [resize,blockSize,Option.getD_some,List.length_append,List.length_take,
      List.length_replicate]
    omega

/-- A chunk for which there is room is appended. -/
theorem Collecting.append (hk : 12 ≤ k) (hkw : k < w) (htotal : c.totalSize = out.length)
    (hcapacity : c.capacity = 2 ^ k) (hbuffer : c.buffer = some block)
    (hlen : block.length = 2 ^ k) (htake : block.take out.length = out.map some)
    (hstores : ∀ s ∈ c.stores, s.InBounds) (hgranted : ∀ n < c.reallocs, calls.realloc n = true)
    (hroom : (out ++ chunk.bytes).length + 1 ≤ 2 ^ k) :
    Collecting w calls (out ++ chunk.bytes) (appendChunk w chunk c) := by
  have hpow : 2 ^ k < 2 ^ w := Nat.pow_lt_pow_right (by decide) hkw
  rw [List.length_append] at hroom
  constructor
  · show (c.totalSize + chunk.bytes.length) % 2 ^ w = _
    rw [htotal,List.length_append]
    exact Nat.mod_eq_of_lt (by omega)
  · refine Or.inr ⟨k,memcpy block c.totalSize chunk.bytes,hk,hkw,hcapacity,?_,?_,?_,?_⟩
    · show c.buffer.map _ = _
      rw [hbuffer]
      rfl
    · rw [memcpy_length (by omega),hlen]
    · rw [List.length_append]
      exact hroom
    · rw [htotal]
      exact memcpy_take htake
  · refine List.forall_mem_append.mpr ⟨hstores,List.forall_mem_singleton.mpr ?_⟩
    show c.totalSize + chunk.bytes.length ≤ blockSize c.buffer
    rw [hbuffer,htotal,blockSize]
    omega
  · exact hgranted

/-- A larger block keeps what was collected. -/
theorem Collecting.resized (h : Collecting w calls out c) {size : ℕ} (hsize : c.capacity ≤ size) :
    (resize c.buffer size).length = size ∧
      (resize c.buffer size).take out.length = out.map some := by
  rcases h.room with ⟨hcapacity,hbuffer,rfl⟩ | ⟨k,block,_,_,hcapacity,hbuffer,hlen,hroom,htake⟩
  · rw [hbuffer]
    exact ⟨resize_length (Nat.zero_le _),rfl⟩
  · rw [hbuffer]
    have hblock : blockSize (some block) ≤ size := by
      rw [blockSize]
      omega
    refine ⟨resize_length hblock,?_⟩
    have hle : out.length ≤ (block.take size).length := by
      rw [List.length_take]
      omega
    rw [resize,Option.getD_some,List.take_append_of_le_length hle,List.take_take,
      Nat.min_eq_left (by omega),htake]

/-- The capacity that the doubling starts from. -/
theorem Collecting.capacity (h : Collecting w calls out c) (hw : 12 < w) :
    ∃ k, 12 ≤ k ∧ k < w ∧ (if c.capacity = 0 then 4096 else c.capacity) = 2 ^ k ∧
      c.capacity ≤ 2 ^ k := by
  rcases h.room with ⟨hcapacity,_⟩ | ⟨k,block,hk,hkw,hcapacity,_⟩
  · exact ⟨12,le_rfl,hw,(if_pos hcapacity).trans (by decide),by omega⟩
  · have hpos := Nat.two_pow_pos k
    refine ⟨k,hk,hkw,?_,hcapacity.le⟩
    rw [if_neg (by omega),hcapacity]

theorem captureLoop_ends (hw : 12 < w) (hfuel : w ≤ fuel) (hmalloc : ∀ n, calls.malloc n = true)
    (h : Collecting w calls out c) (htotal : (out ++ output chunks).length < 2 ^ (w - 1)) :
    ∃ c', captureLoop w calls fuel chunks c = some (c',false) ∧
        Collecting w calls (out ++ output chunks) c' ∨
      captureLoop w calls fuel chunks c = some (c',true) ∧ Unbuffered calls c' := by
  induction chunks generalizing out c with
  | nil =>
    refine ⟨c,Or.inl ⟨rfl,?_⟩⟩
    rw [output,List.flatMap_nil,List.append_nil]
    exact h
  | cons chunk chunks ih =>
    have hcons : out ++ output (chunk :: chunks) = (out ++ chunk.bytes) ++ output chunks := by
      rw [output,List.flatMap_cons,List.append_assoc]
      rfl
    have hpow : 2 ^ (w - 1) < 2 ^ w := Nat.pow_lt_pow_right (by decide) (by omega)
    rw [hcons] at htotal ⊢
    have hsum : (out ++ chunk.bytes).length + 1 ≤ 2 ^ (w - 1) := by
      rw [List.length_append] at htotal
      omega
    have hneeded : (c.totalSize + chunk.bytes.length + 1) % 2 ^ w =
        (out ++ chunk.bytes).length + 1 := by
      rw [h.total,List.length_append] at *
      exact Nat.mod_eq_of_lt (by omega)
    simp only [captureLoop,hneeded]
    by_cases hlt : c.capacity < (out ++ chunk.bytes).length + 1
    · obtain ⟨k,hk,hkw,hstart,hle⟩ := h.capacity hw
      obtain ⟨k',hge,hlt',hgrow,henough⟩ := growCapacity_some fuel hkw hsum (by omega)
      rw [if_pos hlt,hstart,hgrow]
      by_cases hok : calls.realloc c.reallocs = true
      · have hsize : c.capacity ≤ 2 ^ k' := hle.trans (Nat.pow_le_pow_right (by decide) hge)
        obtain ⟨hlen,htake⟩ := h.resized hsize
        simp only [if_pos hok]
        refine ih (Collecting.append (hk.trans hge) hlt' h.total rfl rfl hlen htake h.stores ?_
          henough) htotal
        intro n hn
        rcases Nat.lt_succ_iff_lt_or_eq.mp hn with hn | rfl
        · exact h.granted n hn
        · exact hok
      · simp only [if_neg hok]
        refine ⟨_,Or.inr ⟨rfl,?_,?_,h.stores,c.reallocs,Nat.lt_succ_self _,by simpa using hok⟩⟩
        · simp [refuseBuffer,duplicateText,hmalloc]
        · simp [refuseBuffer,duplicateText,hmalloc]
    · rw [if_neg hlt]
      rcases h.room with ⟨hcapacity,_⟩ | ⟨k,block,hk,hkw,hcapacity,hbuffer,hlen,_,htake⟩
      · omega
      · exact ih (Collecting.append hk hkw h.total hcapacity hbuffer hlen htake h.stores h.granted
          (by omega)) htotal

end Loop

section Finish
variable {w fuel : ℕ} {calls : Calls} {line out : Text} {c : Capturing} {block : Block}

/-- The terminator goes behind what the block holds. -/
theorem set_terminator (hroom : out.length + 1 ≤ block.length)
    (htake : block.take out.length = out.map some) :
    (block.set out.length (some nul)).take (out.length + 1) = stringBlock out := by
  rw [List.take_add_one,List.take_set_of_le le_rfl,htake,List.getElem?_set_self (by omega)]
  rfl

theorem terminate_holds (out : Text) (block : Block) (e : Bool)
    (htotal : c.totalSize = out.length) (hroom : out.length + 1 ≤ block.length)
    (htake : block.take out.length = out.map some) (hstores : ∀ s ∈ c.stores, s.InBounds) :
    (terminate block e c).Holds out ∧ ∀ s ∈ (terminate block e c).stores, s.InBounds := by
  refine ⟨⟨htotal,_,rfl,?_⟩,?_⟩
  · rw [htotal]
    exact set_terminator hroom htake
  · refine List.forall_mem_append.mpr ⟨hstores,List.forall_mem_singleton.mpr ?_⟩
    show c.totalSize + 1 ≤ block.length
    omega

/-- Everything was collected. -/
theorem Collecting.finish (h : Collecting w calls out c) (hmalloc : ∀ n, calls.malloc n = true)
    (hwait : calls.waitpid = true) (hread : calls.readFails = false) (status : ChildStatus) :
    (finishCapture calls status false c).Holds out ∧
      (∀ s ∈ (finishCapture calls status false c).stores, s.InBounds) ∧
      (finishCapture calls status false c).reallocs = c.reallocs := by
  rcases h.room with ⟨_,hbuffer,rfl⟩ | ⟨k,block,_,_,_,hbuffer,hlen,hroom,htake⟩
  · have hfinish : finishCapture calls status false c =
        terminate [none] status.requestsExit { c with mallocs := c.mallocs + 1 } := by
      simp [finishCapture,hwait,hread,hbuffer,hmalloc]
    obtain ⟨hholds,hstores⟩ := terminate_holds [] [none] status.requestsExit
      (c := { c with mallocs := c.mallocs + 1 }) h.total le_rfl rfl h.stores
    rw [hfinish]
    exact ⟨hholds,hstores,rfl⟩
  · have hfinish : finishCapture calls status false c = terminate block status.requestsExit c := by
      simp [finishCapture,hwait,hread,hbuffer]
    obtain ⟨hholds,hstores⟩ := terminate_holds out block status.requestsExit h.total
      (hroom.trans_eq hlen.symm) htake h.stores
    rw [hfinish]
    exact ⟨hholds,hstores,rfl⟩

/-- The message is all there is. -/
theorem Unbuffered.finish (h : Unbuffered calls c) (hwait : calls.waitpid = true)
    (status : ChildStatus) :
    (finishCapture calls status true c).Holds bufferMessage ∧
      (∀ s ∈ (finishCapture calls status true c).stores, s.InBounds) ∧
      (finishCapture calls status true c).reallocs = c.reallocs := by
  have hfinish : finishCapture calls status true c =
      terminate (stringBlock bufferMessage) status.requestsExit c := by
    simp [finishCapture,hwait,h.buffer]
  obtain ⟨hholds,hstores⟩ := terminate_holds bufferMessage (stringBlock bufferMessage)
    status.requestsExit h.total (by decide) (by decide) h.stores
  rw [hfinish]
  exact ⟨hholds,hstores,rfl⟩

/-- However the chunks come and whichever block is refused, every write is in bounds, and the
caller gets either all of the output or the message. -/
theorem capture_complete (hw : 12 < w) (hfuel : w ≤ fuel) (hpipe : calls.pipe = true)
    (hfork : calls.fork = true) (hwait : calls.waitpid = true)
    (hmalloc : ∀ n, calls.malloc n = true) (hread : calls.readFails = false)
    (htotal : (output (calls.chunks line)).length < 2 ^ (w - 1)) :
    ∃ r, shellExecuteLineCapture w calls fuel line = some r ∧ (∀ s ∈ r.stores, s.InBounds) ∧
      ((∀ n < r.reallocs, calls.realloc n = true) → r.Holds (output (calls.chunks line))) ∧
      ((∃ n < r.reallocs, calls.realloc n = false) → r.Holds bufferMessage) := by
  have hstart : Collecting w calls [] .start :=
    ⟨rfl,Or.inl ⟨rfl,rfl,rfl⟩,fun s hs => (by cases hs),fun n hn => (by cases hn)⟩
  have hrun : ∀ c broke, captureLoop w calls fuel (calls.chunks line) .start = some (c,broke) →
      shellExecuteLineCapture w calls fuel line =
        some (finishCapture calls (calls.status line) broke c) := by
    intro c broke hloop
    simp [shellExecuteLineCapture,hpipe,hfork,hloop]
  obtain ⟨c,⟨hloop,hc⟩ | ⟨hloop,hc⟩⟩ := captureLoop_ends hw hfuel hmalloc hstart htotal
  · rw [List.nil_append] at hc
    obtain ⟨hholds,hstores,hcount⟩ := hc.finish hmalloc hwait hread (calls.status line)
    refine ⟨_,hrun c false hloop,hstores,fun _ => hholds,?_⟩
    rintro ⟨n,hn,hfail⟩
    rw [hc.granted n (hcount ▸ hn)] at hfail
    cases hfail
  · obtain ⟨hholds,hstores,hcount⟩ := hc.finish hwait (calls.status line)
    refine ⟨_,hrun c true hloop,hstores,?_,fun _ => hholds⟩
    intro hall
    obtain ⟨n,hn,hfail⟩ := hc.refused
    rw [hall n (hcount.symm ▸ hn)] at hfail
    cases hfail

end Finish

/-- Two chunks, the second of which needs a larger block that cannot be had. -/
def halfwayChunks : List Chunk :=
  [⟨['a','b'],by decide,by decide⟩,⟨List.replicate chunkSize 'c',
    List.ne_nil_of_length_pos (by rw [List.length_replicate]; decide),
    List.length_replicate.le⟩]

theorem halfwayChunks_length : (output halfwayChunks).length = 2 + chunkSize := by
  have hbytes : output halfwayChunks = ['a','b'] ++ List.replicate chunkSize 'c' := by
    rw [output,halfwayChunks,List.flatMap_cons,List.flatMap_singleton]
  rw [hbytes,List.length_append,List.length_replicate]
  rfl

/-- Every call is granted but the second `realloc`. -/
def halfwayCalls : Calls where
  pipe := true
  fork := true
  dup2Out := true
  dup2Err := true
  waitpid := true
  printed _ := halfwayChunks
  readFails := false
  killed _ := false
  malloc _ := true
  realloc n := n = 0
  parserAlloc _ := true

theorem halfwayCalls_chunks : halfwayCalls.chunks ['a'] = halfwayChunks :=
  chunks_of_ne rfl rfl (by decide)

theorem halfway_captured : ∃ r, shellExecuteLineCapture 64 halfwayCalls 64 ['a'] = some r ∧
    (∀ s ∈ r.stores, s.InBounds) ∧
    ((∀ n < r.reallocs, halfwayCalls.realloc n = true) →
      r.Holds (output (halfwayCalls.chunks ['a']))) ∧
    ((∃ n < r.reallocs, halfwayCalls.realloc n = false) → r.Holds bufferMessage) := by
  refine capture_complete (by decide) le_rfl rfl rfl rfl (fun _ => rfl) rfl ?_
  rw [halfwayCalls_chunks,halfwayChunks_length]
  decide

end UnixShell.Shell
