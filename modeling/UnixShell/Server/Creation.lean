import UnixShell.Foundation.Requests
import UnixShell.Server.Demo

/-! # The memory of a request

Every block that `handle_client` has asked for from a command to the end of its task: the
scratch copy and the argument vector, the context with its mutex and its condition variable,
the task, and the outputs that the rounds of the task set. Initialising a mutex or a condition
variable is a request as well, and may be refused. The buffer that
`shell_execute_line_capture` hands back counts as one request.
-/
namespace UnixShell.Server.Creation
open Foundation
open UnixShell.Parser (blank)

/-- What is asked for. -/
inductive Object
  | line (s : Text)
  | argv (capacity : ℕ)
  | word (s : Text)
  /-- The copy of the default count. -/
  | count
  | context
  | mutex
  | ready
  | task
  | text (s : Text)
  | output
  deriving DecidableEq, Repr

/-- What a copy says. -/
def Object.string : Object → Text
  | .word s => s
  | .count => defaultCount
  | _ => []

/-- A pointer of an argument vector. -/
inductive Entry
  | unset
  | null
  | copy (block : ℕ) (object : Object)
  deriving DecidableEq, Repr

structure Argv where
  block : ℕ
  entries : List Entry
  deriving DecidableEq, Repr

def Argv.store (v : Argv) (i : ℕ) (e : Entry) (h : Heap Object) : Argv × Heap Object :=
  ({ v with entries := v.entries.set i e },
    if i < v.entries.length then h.touch v.block else h.stray v.block)

/-- The loop of `free_string_array`; what was never written is freed like a pointer. -/
def freeEntries (v : ℕ) (h : Heap Object) : List Entry → Heap Object
  | [] => h.stray v
  | .unset :: entries => freeEntries v ((h.touch v).stray v) entries
  | .null :: _ => h.touch v
  | .copy b _ :: entries => freeEntries v ((h.touch v).free b) entries

def freeStringArray (v : Argv) (h : Heap Object) : Heap Object :=
  (freeEntries v.block h v.entries).free v.block

/-- The context, as far as it owns anything. -/
structure Context where
  block : ℕ
  mutex : ℕ
  ready : ℕ
  refcount : ℤ
  done : Bool
  argv : Option Argv
  output : Option ℕ
  deriving DecidableEq, Repr

structure TaskRecord where
  block : ℕ
  commandText : ℕ
  deriving DecidableEq, Repr

def freeArgv : Option Argv → Heap Object → Heap Object
  | none, h => h
  | some v, h => freeStringArray v h

def taskContextRelease (c : Context) (h : Heap Object) : Context × Heap Object :=
  let h := (h.touch c.block).touch c.mutex
  let c := { c with refcount := c.refcount - 1 }
  if c.refcount = 0 then
    (c,((((freeArgv c.argv h).freePointer c.output).free c.ready).free c.mutex).free c.block)
  else (c,h)

def schedulerDestroyTask (t : TaskRecord) (h : Heap Object) : Heap Object :=
  ((h.touch t.block).free t.commandText).free t.block

section Creating
variable (alloc : ℕ → Bool)

/-- Room for one more pointer and the NULL behind it. What `realloc` adds is cleared, from
`argc` on, or not. -/
def grow (cleared : Bool) (v : Argv) (argc : ℕ) (h : Heap Object) : Option Argv × Heap Object :=
  if v.entries.length ≤ argc + 1 then
    match h.ask alloc (.argv (2 * v.entries.length)) with
    | (none,h) => (none,h)
    | (some b,h) =>
      (some ⟨b,if cleared then
          v.entries.take argc ++ List.replicate (2 * v.entries.length - argc) .null
        else v.entries ++ List.replicate v.entries.length .unset⟩,h.free v.block)
  else (some v,h)

/-- The token loop over the scratch copy: the vector and the number of words in it. -/
def fill (cleared : Bool) (spell : ℕ → Text → Text) (line : ℕ) :
    ℕ → Text → Argv → ℕ → Heap Object → Option (Argv × ℕ) × Heap Object
  | 0, _, v, argc, h => (some (v,argc),h)
  | fuel + 1, scan, v, argc, h =>
    match strtokR scan with
    | none => (some (v,argc),h.touch line)
    | some (token,scan) =>
      match grow alloc cleared v argc (h.touch line) with
      | (none,h) => (none,freeStringArray v h)
      | (some v,h) =>
        match h.ask alloc (.word (spell argc token)) with
        | (none,h) =>
          let (v,h) := v.store argc .null h
          (none,freeStringArray v h)
        | (some b,h) =>
          let (v,h) := v.store argc (.copy b (.word (spell argc token))) h
          fill cleared spell line fuel scan v (argc + 1) h

def splitCommandArgv (command : Text) (h : Heap Object) : Option Argv × Heap Object :=
  match h.ask alloc (.line command) with
  | (none,h) => (none,h)
  | (some line,h) =>
    match h.ask alloc (.argv argvCapacity) with
    | (none,h) => (none,h.free line)
    | (some b,h) =>
      -- every call of `strtok_r` takes at least one character
      match fill alloc false (fun _ token => token) line (command.length + 1) command
          ⟨b,List.replicate argvCapacity .null⟩ 0 h with
      | (none,h) => (none,h.free line)
      | (some (v,argc),h) =>
        let (v,h) := v.store argc .null h
        (some v,h.free line)

/-- The default count goes into the vector. -/
def storeCount (v : Argv) (index : ℕ) (h : Heap Object) : Option Argv × Heap Object :=
  match h.ask alloc .count with
  | (none,h) =>
    let (v,h) := v.store index .null h
    (none,freeStringArray v h)
  | (some b,h) =>
    let (v,h) := v.store index (.copy b .count) h
    (some v,h)

/-- A word that `build_demo_argv` takes for the number of iterations. -/
def Counts (word : Text) : Prop :=
  (strtol word).2 ≠ word ∧ (strtol word).2 = [] ∧ 0 < (strtol word).1

instance (word : Text) : Decidable (Counts word) := inferInstanceAs (Decidable (_ ∧ _ ∧ _))

/-- The vector with a count in it, and the number of its words. -/
def countIterations (v : Argv) (argc : ℕ) (h : Heap Object) :
    Option (Argv × ℕ) × Heap Object :=
  if 2 ≤ argc then
    match (v.entries[1]? : Option Entry) with
    | some (.copy b object) =>
      let h := (h.touch v.block).touch b
      if Counts object.string then (some (v,argc),h)
      else
        match storeCount alloc v 1 (h.free b) with
        | (none,h) => (none,h)
        | (some v,h) => (some (v,argc),h)
    | _ => (none,h.stray v.block)
  else
    match storeCount alloc v argc h with
    | (none,h) => (none,h)
    | (some v,h) => (some (v,argc + 1),h)

def buildDemoArgv (command : Text) (h : Heap Object) : Option Argv × Heap Object :=
  match h.ask alloc (.line command) with
  | (none,h) => (none,h)
  | (some line,h) =>
    match strtokR command with
    | none => (none,(h.touch line).free line)
    | some (token,_) =>
      if isDemoCommand (some token) then
        match (h.touch line).ask alloc (.argv argvCapacity) with
        | (none,h) => (none,h.free line)
        | (some b,h) =>
          match fill alloc true demoCopy line (command.length + 1) command
              ⟨b,List.replicate argvCapacity .null⟩ 0 h with
          | (none,h) => (none,h.free line)
          | (some (v,argc),h) =>
            match countIterations alloc v argc h with
            | (none,h) => (none,h.free line)
            | (some (v,argc),h) =>
              let (v,h) := v.store argc .null h
              (some v,h.free line)
      else (none,(h.touch line).free line)

def taskContextCreate (h : Heap Object) : Option Context × Heap Object :=
  match h.ask alloc .context with
  | (none,h) => (none,h)
  | (some c,h) =>
    match (h.touch c).ask alloc .mutex with
    | (none,h) => (none,h.free c)
    | (some m,h) =>
      match h.ask alloc .ready with
      | (none,h) => (none,(h.free m).free c)
      | (some r,h) => (some ⟨c,m,r,2,false,none,none⟩,h)

def schedulerCreateTask (command : Text) (h : Heap Object) : Option TaskRecord × Heap Object :=
  match h.ask alloc .task with
  | (none,h) => (none,h)
  | (some t,h) =>
    match (h.touch t).ask alloc (.text command) with
    | (none,h) => (none,h.free t)
    | (some s,h) => (some ⟨t,s⟩,h)

/-- The end of all three of the functions that create a task. -/
def createTask (c : Context) (command : Text) (h : Heap Object) :
    Option (TaskRecord × Context) × Heap Object :=
  match schedulerCreateTask alloc command h with
  | (none,h) => (none,(taskContextRelease c h).2)
  | (some t,h) => (some (t,c),h.touch c.block)

def createShellTask (command : Text) (h : Heap Object) :
    Option (TaskRecord × Context) × Heap Object :=
  match taskContextCreate alloc h with
  | (none,h) => (none,h)
  | (some c,h) => createTask alloc c command h

/-- A program's vector goes into its context. -/
def createWithArgv (v : Argv) (command : Text) (h : Heap Object) :
    Option (TaskRecord × Context) × Heap Object :=
  match taskContextCreate alloc h with
  | (none,h) => (none,freeStringArray v h)
  | (some c,h) => createTask alloc { c with argv := some v } command (h.touch c.block)

def createProgramTask (command : Text) (h : Heap Object) :
    Option (TaskRecord × Context) × Heap Object :=
  match buildDemoArgv alloc command h with
  | (none,h) => (none,h)
  | (some v,h) => createWithArgv alloc v command h

def createGenericProgramTask (command : Text) (h : Heap Object) :
    Option (TaskRecord × Context) × Heap Object :=
  match splitCommandArgv alloc command h with
  | (none,h) => (none,h)
  | (some v,h) => createWithArgv alloc v command h

/-- The ways in which `handle_client` gets a task for a command, in turn. -/
def attempts (command : Text) :
    List (Text → Heap Object → Option (TaskRecord × Context) × Heap Object) :=
  (if isDemoCommand (some command) then [createProgramTask alloc] else []) ++
    (if isProgramCommand (some command) then [createGenericProgramTask alloc] else []) ++
    [createShellTask alloc]

/-- The first attempt that succeeds. What would follow a fault is left out. -/
def firstTask (command : Text) :
    List (Text → Heap Object → Option (TaskRecord × Context) × Heap Object) → Heap Object →
      Option (TaskRecord × Context) × Heap Object
  | [], h => (none,h)
  | create :: creates, h =>
    match create command h with
    | (some made,h) => (some made,h)
    | (none,h) => if h.faults = [] then firstTask command creates h else (none,h)

section Executing

/-- The old output is given up for the new one, and not freed. -/
def taskContextSetDone (output : Option ℕ) (c : Context) (h : Heap Object) :
    Context × Heap Object :=
  ({ c with output := output, done := true },(h.touch c.block).touch c.mutex)

/-- A way out of a round with a message, which is set if there is memory for it. -/
def fail (c : Context) (h : Heap Object) : Context × Heap Object :=
  match h.ask alloc .output with
  | (none,h) => (c,h)
  | (some b,h) => taskContextSetDone (some b) c h

/-- `malloc` for the first bytes and `realloc` for more, which gives the old block back. -/
def taskContextAppend (c : Context) (h : Heap Object) : Option Context × Heap Object :=
  match (h.touch c.block).ask alloc .output with
  | (none,h) => (none,h)
  | (some b,h) => (some { c with output := some b },(h.freePointer c.output).touch b)

/-- A chunk that `task_context_drain_pipe` keeps. Where it cannot, the round fails. -/
def drainChunk (c : Context) (h : Heap Object) : Context × Heap Object :=
  match taskContextAppend alloc c h with
  | (some c,h) => (c,h)
  | (none,h) => fail alloc c h

def executeShellTask (t : TaskRecord) (command : Text) (c : Context) (h : Heap Object) :
    Context × Heap Object :=
  match (h.touch t.commandText).ask alloc (.line command) with
  | (none,h) => fail alloc c h
  | (some line,h) =>
    match h.ask alloc .output with
    | (some b,h) => taskContextSetDone (some b) c (h.free line)
    | (none,h) => fail alloc c (h.free line)

/-- What the rounds of a task and the thread of its client do with the output. -/
inductive Use
  | shell
  | chunk
  | fail
  /-- `set_done` with the output itself. -/
  | finish
  /-- `handle_task_response` reads the pointer of a task that is done. -/
  | fetch
  /-- `send_response` reads what it points to. -/
  | send
  deriving DecidableEq, Repr

/-- A context, and the client thread's copy of the pointer to its output. -/
structure Held where
  context : Context
  payload : Option ℕ
  deriving DecidableEq, Repr

def perform (t : TaskRecord) (command : Text) (s : Held) (h : Heap Object) :
    Use → Held × Heap Object
  | .shell =>
    let (c,h) := executeShellTask alloc t command s.context h
    ({ s with context := c },h)
  | .chunk =>
    let (c,h) := drainChunk alloc s.context h
    ({ s with context := c },h)
  | .fail =>
    let (c,h) := fail alloc s.context h
    ({ s with context := c },h)
  | .finish =>
    let (c,h) := taskContextSetDone s.context.output s.context h
    ({ s with context := c },h)
  | .fetch =>
    (if s.context.done then { s with payload := s.context.output } else s,
      (h.touch s.context.block).touch s.context.mutex)
  | .send =>
    match s.payload with
    | none => (s,h)
    | some b => (s,h.touch b)

/-- What would follow a fault is left out. -/
def performAll (t : TaskRecord) (command : Text) :
    List Use → Held → Heap Object → Held × Heap Object
  | [], s, h => (s,h)
  | u :: us, s, h =>
    match perform alloc t command s h u with
    | (s,h) => if h.faults = [] then performAll t command us s h else (s,h)

end Executing

/-- Who lets go of the context first. The scheduler may do so, and free the task, before
`scheduler_submit_task` has read the number that it returns. -/
inductive Parting
  | client
  | scheduler
  | overtaken
  deriving DecidableEq, Repr

/-- What comes of a task. -/
structure Ending where
  uses : List Use
  parting : Parting
  deriving DecidableEq, Repr

def serverTaskCleanup (t : TaskRecord) (c : Context) (h : Heap Object) : Context × Heap Object :=
  let (c,h) := taskContextRelease c ((h.touch t.block).touch c.block)
  (c,schedulerDestroyTask t h)

/-- From the submission of a task to the end of its context. -/
def finish (e : Ending) (command : Text) (t : TaskRecord) (c : Context) (h : Heap Object) :
    Heap Object :=
  match performAll alloc t command e.uses ⟨c,none⟩ (h.touch t.block) with
  | (s,h) =>
    if h.faults = [] then
      match e.parting with
      | .client =>
        let (c,h) := taskContextRelease s.context (h.touch t.block)
        (serverTaskCleanup t c h).2
      | .scheduler =>
        let (c,h) := serverTaskCleanup t s.context (h.touch t.block)
        (taskContextRelease c h).2
      | .overtaken => (serverTaskCleanup t s.context h).2.touch t.block
    else h

def exitCommand : Text := ['e','x','i','t']

/-- The memory of `handle_client` over the commands that it receives, each with what comes of
its task. -/
def serve : List (Text × Ending) → Heap Object → Heap Object
  | [], h => h
  | (command,e) :: rest, h =>
    if command = exitCommand then h
    else
      match firstTask command (attempts alloc command) h with
      | (none,h) => h
      | (some (t,c),h) =>
        match finish alloc e command t c h with
        | h => if h.faults = [] then serve rest h else h

end Creating

/-- What an entry says, without its block. -/
def Entry.slot : Entry → Slot
  | .unset => .unset
  | .null => .null
  | .copy _ object => .copy object.string

def Argv.slots (v : Argv) : List Slot := v.entries.map Entry.slot

/-- The same result for the same requests, which the other model counts from a number on. -/
structure Agrees {α β : Type} (f : α → β) (n : ℕ) (r : Option α × Heap Object)
    (r' : Option β × Storage) : Prop where
  result : r.1.map f = r'.1
  requests : r.2.requests = n + r'.2.requests

section Agreement
variable {alloc : ℕ → Bool} {n argc : ℕ} {v : Argv} {h : Heap Object} {m : Storage}

@[simp] theorem slots_length (v : Argv) : v.slots.length = v.entries.length := List.length_map _

@[simp] theorem store_slots (v : Argv) (i : ℕ) (e : Entry) (h : Heap Object) :
    (v.store i e h).1.slots = v.slots.set i e.slot := List.map_set

@[simp] theorem store_requests (v : Argv) (i : ℕ) (e : Entry) (h : Heap Object) :
    (v.store i e h).2.requests = h.requests := by
  unfold Argv.store
  dsimp only
  split_ifs <;> simp

@[simp] theorem freeEntries_requests (b : ℕ) (h : Heap Object) (entries : List Entry) :
    (freeEntries b h entries).requests = h.requests := by
  induction entries generalizing h with
  | nil => rfl
  | cons e entries ih => cases e <;> simp [freeEntries,ih]

@[simp] theorem freeStringArray_requests (v : Argv) (h : Heap Object) :
    (freeStringArray v h).requests = h.requests := by
  simp [freeStringArray]

/-- A request of both models. -/
theorem ask_cases (alloc : ℕ → Bool) (hreq : h.requests = n + m.requests) (k : Object) :
    (alloc (n + m.requests) = true ∧ ∃ b h', h.ask alloc k = (some b,h') ∧
      h'.requests = n + (m.requests + 1)) ∨
    (alloc (n + m.requests) = false ∧ ∃ h', h.ask alloc k = (none,h') ∧
      h'.requests = n + (m.requests + 1)) := by
  rw [Heap.ask,hreq]
  cases ha : alloc (n + m.requests) with
  | true => exact Or.inl ⟨rfl,_,_,rfl,by rw [hreq]; rfl⟩
  | false => exact Or.inr ⟨rfl,_,rfl,by rw [hreq]; rfl⟩

theorem grow_agrees (hreq : h.requests = n + m.requests) :
    Agrees Argv.slots n (grow alloc false v argc h)
      (growArgv (fun i => alloc (n + i)) v.slots argc m) ∧
    Agrees Argv.slots n (grow alloc true v argc h)
      (growDemoArgv (fun i => alloc (n + i)) v.slots argc m) := by
  unfold grow growArgv growDemoArgv
  rw [slots_length]
  by_cases hfull : v.entries.length ≤ argc + 1
  · simp only [if_pos hfull]
    rcases ask_cases alloc hreq (.argv (2 * v.entries.length)) with
      ⟨ha,b,h',he,hreq'⟩ | ⟨ha,h',he,hreq'⟩
    · simp only [he,ha,if_true,Bool.false_eq_true,if_false]
      refine ⟨⟨?_,(Heap.free_requests _ _).trans hreq'⟩,?_,(Heap.free_requests _ _).trans hreq'⟩ <;>
        simp [Argv.slots,Entry.slot]
    · simp only [he,ha,Bool.false_eq_true,if_false]
      exact ⟨⟨rfl,hreq'⟩,rfl,hreq'⟩
  · simp only [if_neg hfull]
    exact ⟨⟨rfl,hreq⟩,rfl,hreq⟩

/-- What is done behind the loop of `split_command_argv`. -/
def withNull : Option (Argv × ℕ) × Heap Object → Option Argv × Heap Object
  | (none,h) => (none,h)
  | (some (v,argc),h) => (some (v.store argc .null h).1,(v.store argc .null h).2)

theorem splitLoop_agrees {line fuel : ℕ} {scan : Text} (hfuel : scan.length < fuel)
    (hreq : h.requests = n + m.requests) :
    Agrees Argv.slots n (withNull (fill alloc false (fun _ w => w) line fuel scan v argc h))
      (splitLoop (fun i => alloc (n + i)) fuel scan v.slots argc m) := by
  induction fuel generalizing scan v argc h m with
  | zero => exact absurd hfuel (Nat.not_lt_zero _)
  | succ fuel ih =>
    rw [fill,splitLoop]
    cases hs : strtokR scan with
    | none =>
      refine ⟨by simp [withNull,Entry.slot],?_⟩
      simpa [withNull,Storage.write] using hreq
    | some r =>
      obtain ⟨token,rest⟩ := r
      have hrest := (strtokR_some hs).2
      dsimp only
      obtain ⟨hg,-⟩ := @grow_agrees alloc n argc v (h.touch line) m
        ((Heap.touch_requests _ _).trans hreq)
      cases hgrow : grow alloc false v argc (h.touch line) with
      | mk w h' =>
        cases hgrow' : growArgv (fun i => alloc (n + i)) v.slots argc m with
        | mk slots m' =>
          rw [hgrow,hgrow'] at hg
          obtain ⟨hw,hreq'⟩ := hg
          cases w with
          | none =>
            cases hw
            exact ⟨rfl,(freeStringArray_requests _ _).trans hreq'⟩
          | some w =>
            cases hw
            rcases ask_cases alloc hreq' (.word token) with
              ⟨ha,b,h'',he,hreq''⟩ | ⟨ha,h'',he,hreq''⟩
            · simp only [he,ha,if_true]
              have hstore : (w.store argc (.copy b (.word token)) h'').1.slots =
                  w.slots.set argc (.copy token) := store_slots ..
              rw [← hstore]
              exact ih (Nat.lt_of_lt_of_le hrest (Nat.lt_succ_iff.mp hfuel))
                ((store_requests ..).trans hreq'')
            · simp only [he,ha,Bool.false_eq_true,if_false]
              refine ⟨rfl,?_⟩
              simpa [withNull,freeStringArray_requests,Storage.write,Storage.request,
                Server.freeStringArray] using hreq''

/-- The two models of `split_command_argv` agree. -/
theorem splitCommandArgv_agrees (alloc : ℕ → Bool) (command : Text) (h : Heap Object) :
    Agrees Argv.slots h.requests (splitCommandArgv alloc command h)
      (Server.splitCommandArgv (fun i => alloc (h.requests + i)) (some command)) := by
  unfold splitCommandArgv Server.splitCommandArgv
  rcases ask_cases alloc (m := .start) (h := h) rfl (.line command) with
    ⟨ha,line,h',he,hreq⟩ | ⟨ha,h',he,hreq⟩
  · have ha : alloc (h.requests + 0) = true := ha
    simp only [he,ha,if_true]
    rcases ask_cases alloc (m := Storage.start.request) hreq (.argv argvCapacity) with
      ⟨ha,b,h'',he,hreq'⟩ | ⟨ha,h'',he,hreq'⟩
    · have ha : alloc (h.requests + 1) = true := ha
      simp only [he,ha,if_true]
      have hloop := @splitLoop_agrees alloc _ 0 ⟨b,List.replicate argvCapacity .null⟩ h''
        Storage.start.request.request line _ command (Nat.lt_succ_self _) hreq'
      cases hf : fill alloc false (fun _ w => w) line (command.length + 1) command
          ⟨b,List.replicate argvCapacity .null⟩ 0 h'' with
      | mk r h₃ =>
        rw [hf] at hloop
        cases r with
        | none => exact ⟨hloop.result,(Heap.free_requests _ _).trans hloop.requests⟩
        | some p => exact ⟨hloop.result,(Heap.free_requests _ _).trans hloop.requests⟩
    · have ha : alloc (h.requests + 1) = false := ha
      simp only [he,ha,Bool.false_eq_true,if_false]
      exact ⟨rfl,(Heap.free_requests _ _).trans hreq'⟩
  · have ha : alloc (h.requests + 0) = false := ha
    simp only [he,ha,Bool.false_eq_true,if_false]
    exact ⟨rfl,hreq⟩

/-- The vector with the number of its words. -/
def Argv.counted (p : Argv × ℕ) : List Slot × ℕ := (p.1.slots,p.2)

theorem demoLoop_agrees {line fuel : ℕ} {scan : Text} (hfuel : scan.length < fuel)
    (hreq : h.requests = n + m.requests) :
    Agrees Argv.counted n (fill alloc true demoCopy line fuel scan v argc h)
      (demoLoop (fun i => alloc (n + i)) fuel scan v.slots argc m) := by
  induction fuel generalizing scan v argc h m with
  | zero => exact absurd hfuel (Nat.not_lt_zero _)
  | succ fuel ih =>
    rw [fill,demoLoop]
    cases hs : strtokR scan with
    | none => exact ⟨rfl,(Heap.touch_requests _ _).trans hreq⟩
    | some r =>
      obtain ⟨token,rest⟩ := r
      have hrest := (strtokR_some hs).2
      dsimp only
      obtain ⟨-,hg⟩ := @grow_agrees alloc n argc v (h.touch line) m
        ((Heap.touch_requests _ _).trans hreq)
      cases hgrow : grow alloc true v argc (h.touch line) with
      | mk w h' =>
        cases hgrow' : growDemoArgv (fun i => alloc (n + i)) v.slots argc m with
        | mk slots m' =>
          rw [hgrow,hgrow'] at hg
          obtain ⟨hw,hreq'⟩ := hg
          cases w with
          | none =>
            cases hw
            exact ⟨rfl,(freeStringArray_requests _ _).trans hreq'⟩
          | some w =>
            cases hw
            rcases ask_cases alloc hreq' (.word (demoCopy argc token)) with
              ⟨ha,b,h'',he,hreq''⟩ | ⟨ha,h'',he,hreq''⟩
            · simp only [he,ha,if_true]
              have hstore : (w.store argc (.copy b (.word (demoCopy argc token))) h'').1.slots =
                  w.slots.set argc (.copy (demoCopy argc token)) := store_slots ..
              rw [← hstore]
              exact ih (Nat.lt_of_lt_of_le hrest (Nat.lt_succ_iff.mp hfuel))
                ((store_requests ..).trans hreq'')
            · simp only [he,ha,Bool.false_eq_true,if_false]
              refine ⟨rfl,?_⟩
              simpa [freeStringArray_requests,Storage.write,Storage.request,
                Server.freeStringArray] using hreq''

theorem storeDefault_agrees (hreq : h.requests = n + m.requests) (index : ℕ) :
    Agrees Argv.slots n (storeCount alloc v index h)
      (storeDefault (fun i => alloc (n + i)) v.slots index m) := by
  unfold storeCount storeDefault
  rcases ask_cases alloc hreq .count with ⟨ha,b,h',he,hreq'⟩ | ⟨ha,h',he,hreq'⟩
  · simp only [he,ha,if_true]
    exact ⟨congrArg some (store_slots ..),(store_requests v index (.copy b .count) h').trans hreq'⟩
  · simp only [he,ha,Bool.false_eq_true,if_false]
    refine ⟨rfl,?_⟩
    simpa [Storage.write,Storage.request,Server.freeStringArray] using hreq'

theorem countIterations_agrees (hreq : h.requests = n + m.requests)
    (hcopy : 2 ≤ argc → ∃ w, v.slots[1]? = some (.copy w)) :
    Agrees Argv.counted n (countIterations alloc v argc h)
      ((Server.countIterations (fun i => alloc (n + i)) v.slots argc m).1.map
          fun r => (r.1,r.2.1),
        (Server.countIterations (fun i => alloc (n + i)) v.slots argc m).2) := by
  unfold countIterations Server.countIterations
  by_cases htwo : 2 ≤ argc
  · obtain ⟨w,hw⟩ := hcopy htwo
    obtain ⟨e,he,hslot⟩ : ∃ e, (v.entries[1]? : Option Entry) = some e ∧ e.slot = .copy w := by
      rw [Argv.slots,List.getElem?_map] at hw
      exact Option.map_eq_some_iff.mp hw
    cases e with
    | unset => cases hslot
    | null => cases hslot
    | copy b o =>
      obtain rfl : o.string = w := by cases hslot; rfl
      simp only [if_pos htwo,he,hw,slotText]
      by_cases hcounts : Counts o.string
      · have hcounts' := hcounts
        unfold Counts at hcounts'
        rw [if_pos hcounts,if_pos hcounts']
        exact ⟨rfl,by simpa using hreq⟩
      · have hcounts' := hcounts
        unfold Counts at hcounts'
        rw [if_neg hcounts,if_neg hcounts']
        have hstore := @storeDefault_agrees alloc n v
          (((h.touch v.block).touch b).free b) m (by simpa using hreq) 1
        cases hc : storeCount alloc v 1 (((h.touch v.block).touch b).free b) with
        | mk r h' =>
          cases hd : storeDefault (fun i => alloc (n + i)) v.slots 1 m with
          | mk r' m' =>
            rw [hc,hd] at hstore
            obtain ⟨hr,hreq'⟩ := hstore
            cases r <;> cases hr <;> exact ⟨rfl,hreq'⟩
  · simp only [if_neg htwo]
    have hstore := @storeDefault_agrees alloc n v h m hreq argc
    cases hc : storeCount alloc v argc h with
    | mk r h' =>
      cases hd : storeDefault (fun i => alloc (n + i)) v.slots argc m with
      | mk r' m' =>
        rw [hc,hd] at hstore
        obtain ⟨hr,hreq'⟩ := hstore
        cases r <;> cases hr <;> exact ⟨rfl,hreq'⟩

theorem second_copy {slots : List Slot} {ws : List Text} (h : Server.Stocked slots ws)
    (htwo : 2 ≤ ws.length) : ∃ w, slots[1]? = some (.copy w) := by
  have hfront : (slots.take ws.length)[1]? = slots[1]? := List.getElem?_take_of_lt htwo
  rw [← hfront,h.front,List.getElem?_map,List.getElem?_eq_getElem htwo]
  exact ⟨_,rfl⟩

/-- The end of `build_demo_argv`, behind its loop. -/
theorem demoEnd_agrees (line : ℕ) (hcount : Agrees Argv.counted n (countIterations alloc v argc h)
      ((Server.countIterations (fun i => alloc (n + i)) v.slots argc m).1.map
          fun r => (r.1,r.2.1),
        (Server.countIterations (fun i => alloc (n + i)) v.slots argc m).2)) :
    Agrees Argv.slots n
      (match countIterations alloc v argc h with
        | (none,h) => (none,h.free line)
        | (some (v,argc),h) => (some (v.store argc .null h).1,(v.store argc .null h).2.free line))
      ((match Server.countIterations (fun i => alloc (n + i)) v.slots argc m with
          | (none,m) => (none,m)
          | (some (slots,argc,iterations),m) =>
            (some (slots.set argc .null,iterations),m.write argc slots.length) :
          Option (List Slot × ℤ) × Storage).1.map Prod.fst,
        (match Server.countIterations (fun i => alloc (n + i)) v.slots argc m with
          | (none,m) => (none,m)
          | (some (slots,argc,iterations),m) =>
            (some (slots.set argc .null,iterations),m.write argc slots.length) :
          Option (List Slot × ℤ) × Storage).2) := by
  cases hc : countIterations alloc v argc h with
  | mk r h' =>
    cases hd : Server.countIterations (fun i => alloc (n + i)) v.slots argc m with
    | mk r' m' =>
      rw [hc,hd] at hcount
      obtain ⟨hr,hreq⟩ := hcount
      cases r with
      | none =>
        obtain rfl := Option.map_eq_none_iff.mp (Eq.symm hr)
        exact ⟨rfl,(Heap.free_requests _ _).trans hreq⟩
      | some p =>
        obtain ⟨x,rfl,hx⟩ := Option.map_eq_some_iff.mp (Eq.symm hr)
        obtain ⟨slots,argc',iterations⟩ := x
        cases hx
        exact ⟨congrArg some (store_slots ..),
          (Heap.free_requests _ _).trans ((store_requests ..).trans hreq)⟩

/-- The two models of `build_demo_argv` agree. -/
theorem buildDemoArgv_agrees (alloc : ℕ → Bool) (command : Text) (h : Heap Object) :
    Agrees Argv.slots h.requests (buildDemoArgv alloc command h)
      ((Server.buildDemoArgv (fun i => alloc (h.requests + i)) command).1.map Prod.fst,
        (Server.buildDemoArgv (fun i => alloc (h.requests + i)) command).2) := by
  unfold buildDemoArgv Server.buildDemoArgv
  rcases ask_cases alloc (m := .start) (h := h) rfl (.line command) with
    ⟨ha,line,h₁,he,hreq₁⟩ | ⟨ha,h₁,he,hreq₁⟩
  · have ha : alloc (h.requests + 0) = true := ha
    have htouch : (h₁.touch line).requests = h.requests + 1 := (Heap.touch_requests _ _).trans hreq₁
    simp only [he,ha,if_true]
    cases hs : strtokR command with
    | none => exact ⟨rfl,(Heap.free_requests _ _).trans htouch⟩
    | some r =>
      obtain ⟨token,rest⟩ := r
      dsimp only
      by_cases hdemo : isDemoCommand (some token) = true
      · rw [if_pos hdemo,if_pos hdemo]
        rcases ask_cases alloc (m := Storage.start.request) htouch (.argv argvCapacity)
          with ⟨ha,b,h₂,he,hreq₂⟩ | ⟨ha,h₂,he,hreq₂⟩
        · have ha : alloc (h.requests + 1) = true := ha
          simp only [he,ha,if_true]
          have hloop := @demoLoop_agrees alloc _ 0 ⟨b,List.replicate argvCapacity .null⟩ h₂
            Storage.start.request.request line _ command (Nat.lt_succ_self _) hreq₂
          have hempty : Argv.slots ⟨b,List.replicate argvCapacity .null⟩ =
              List.replicate argvCapacity .null := rfl
          rw [hempty] at hloop
          cases hfill : fill alloc true demoCopy line (command.length + 1) command
              ⟨b,List.replicate argvCapacity .null⟩ 0 h₂ with
          | mk r h₃ =>
            cases hloop' : demoLoop (fun i => alloc (h.requests + i)) (command.length + 1) command
                (List.replicate argvCapacity .null) 0 Storage.start.request.request with
            | mk r' m₃ =>
              rw [hfill,hloop'] at hloop
              obtain ⟨hr,hreq₃⟩ := hloop
              cases r with
              | none =>
                cases hr
                exact ⟨rfl,(Heap.free_requests _ _).trans hreq₃⟩
              | some p =>
                obtain ⟨v,argc⟩ := p
                cases hr
                have hstart : Server.Stocked (List.replicate argvCapacity .null) [] :=
                  ⟨⟨rfl,by decide⟩,le_rfl⟩
                have hstocked := demoLoop_stocked (Nat.lt_succ_self _) hstart hloop'
                rw [List.nil_append,List.length_nil] at hstocked
                have hcount := @countIterations_agrees alloc _ argc v h₃ m₃ hreq₃
                  (fun htwo => second_copy hstocked.1 (htwo.trans_eq hstocked.2))
                exact demoEnd_agrees line hcount
        · have ha : alloc (h.requests + 1) = false := ha
          simp only [he,ha,Bool.false_eq_true,if_false]
          exact ⟨rfl,(Heap.free_requests _ _).trans hreq₂⟩
      · rw [if_neg hdemo,if_neg hdemo]
        exact ⟨rfl,(Heap.free_requests _ _).trans htouch⟩
  · have ha : alloc (h.requests + 0) = false := ha
    simp only [he,ha,Bool.false_eq_true,if_false]
    exact ⟨rfl,hreq₁⟩

end Agreement
end UnixShell.Server.Creation
