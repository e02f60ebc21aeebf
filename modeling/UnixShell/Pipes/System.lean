import UnixShell.Foundation.Descriptors
import UnixShell.Foundation.Runs
import UnixShell.Parser.Lines

/-! # Running a pipeline

The shell's loop over the commands and every child it has forked, each with its own
descriptor table, interleaved in any order. The answers of the calls that may fail are
the labels of the steps; a descriptor that a call hands out is one that is not open.
-/
namespace UnixShell.Pipes
open Foundation UnixShell.Parser

/-- `O_RDONLY`, and `O_WRONLY | O_CREAT | O_TRUNC` with mode 0644. -/
inductive OpenFlags
  | readOnly
  | writeCreateTruncate
  deriving DecidableEq, Repr

/-- A pipe is known by the index of the command that writes to it. -/
inductive File (φ : Type*)
  | inherited (f : φ)
  | readEnd (pipe : ℕ)
  | writeEnd (pipe : ℕ)
  | opened (name : Text) (flags : OpenFlags)
  deriving DecidableEq, Repr

def stdinFileno : ℕ := 0
def stdoutFileno : ℕ := 1
def stderrFileno : ℕ := 2

/-- What a child does between `fork` and `execvp`. -/
inductive ChildOp
  | dup2 (old new : ℕ)
  | openOnto (name : Text) (flags : OpenFlags) (target : ℕ)
  | close (fd : ℕ)
  deriving DecidableEq, Repr

/-- One redirection of a command, where it has it. -/
def redirection (file : Option Text) (flags : OpenFlags) (target : ℕ) : List ChildOp :=
  match file with
  | some name => [.openOnto name flags target]
  | none => []

/-- `prev_read_fd` is none for -1, and `pipe_fd` is none for the last command. -/
def childOps (cmd : Command) (prevReadFd : Option ℕ) (pipeFd : Option (ℕ × ℕ)) : List ChildOp :=
  (match prevReadFd with
    | some fd => [.dup2 fd stdinFileno]
    | none => []) ++
  (match pipeFd with
    | some (_,w) => [.dup2 w stdoutFileno]
    | none => []) ++
  redirection cmd.inputFile .readOnly stdinFileno ++
  redirection cmd.outputFile .writeCreateTruncate stdoutFileno ++
  redirection cmd.errorFile .writeCreateTruncate stderrFileno ++
  (match prevReadFd with
    | some fd => [.close fd]
    | none => []) ++
  (match pipeFd with
    | some (r,w) => [.close r,.close w]
    | none => [])

inductive Phase
  | preparing
  | program
  | exited
  deriving DecidableEq, Repr

structure Child (φ : Type*) where
  cmd : Command
  table : Descriptors (File φ)
  todo : List ChildOp
  phase : Phase
  stderr : List String

/-- `ERR_COMMAND_IN_PIPE_SEQUENCE`. -/
def errCommandInPipeSequence : String := "Command not found in pipe sequence."

inductive ChildInput
  | runs
  | opens (answer : Option ℕ)
  | execvp (succeeds : Bool)
  | exits
  deriving DecidableEq, Repr

variable {φ : Type*}

namespace Child

/-- The next call of the child is `execvp`. -/
def AtExecvp (c : Child φ) : Prop := c.phase = .preparing ∧ c.todo = []

/-- An exit closes every descriptor. -/
def exit (c : Child φ) : Child φ := {c with table := .empty, todo := [], phase := .exited}

def step (c : Child φ) (input : ChildInput) : Option (Child φ) :=
  match c.phase, input, c.todo with
  | .preparing, .runs, .dup2 old new :: rest =>
    some {c with table := c.table.dup2 old new, todo := rest}
  | .preparing, .runs, .close fd :: rest =>
    some {c with table := c.table.close fd, todo := rest}
  | .preparing, .opens (some fd), .openOnto name flags target :: rest =>
    if c.table fd = none then
      some {c with
        table := c.table.install fd (.opened name flags)
        todo := .dup2 fd target :: .close fd :: rest}
    else none
  | .preparing, .opens none, .openOnto .. :: _ => some {c with stderr := c.stderr ++ ["open"]}.exit
  | .preparing, .execvp true, [] => some {c with phase := .program}
  | .preparing, .execvp false, [] =>
    some {c with stderr := c.stderr ++ [errCommandInPipeSequence]}.exit
  -- a signal may end the child before its program does
  | .preparing, .exits, _ => some c.exit
  | .program, .exits, _ => some c.exit
  | _, _, _ => none

end Child

/-- Where the shell stands: the last two also carry the index waited for and the result. -/
inductive Pc
  | malloc
  | loop
  | pipe
  | fork
  | closePrevious
  | closeWrite
  | wait (k : ℕ)
  | returned (code : ℤ)
  deriving DecidableEq, Repr

structure State (φ : Type*) where
  pc : Pc
  i : ℕ
  prevReadFd : Option ℕ
  pipeFd : Option (ℕ × ℕ)
  table : Descriptors (File φ)
  -- `pids`, with the processes
  children : List (Child φ)
  waited : List ℕ
  stderr : List String

inductive Action
  | runs
  | malloc (succeeds : Bool)
  | pipe (answer : Option (ℕ × ℕ))
  | fork (succeeds : Bool)
  | child (j : ℕ) (input : ChildInput)
  deriving DecidableEq, Repr

def numCommands : Option Pipeline → ℕ
  | some p => p.numCommands
  | none => 0

def command (p : Option Pipeline) (i : ℕ) : Option Command := p.bind fun p => p.commands[i]?

/-- The shell's table at entry. -/
def entry (e : Descriptors φ) : Descriptors (File φ) := e.map .inherited

/-- A call of `execute_pipeline`; NULL and an empty pipeline are turned down at once. -/
def start (p : Option Pipeline) (e : Descriptors φ) : State φ :=
  ⟨if numCommands p = 0 then .returned (-1) else .malloc,0,none,none,entry e,[],[],[]⟩

namespace State

/-- `return -1` after a call that failed. -/
def fail (s : State φ) (call : String) : State φ :=
  {s with pc := .returned (-1), stderr := s.stderr ++ [call]}

/-- The pipe that the command at `i` writes to, which the last command has none of. -/
def outgoing (n : ℕ) (s : State φ) : Option (ℕ × ℕ) := if s.i+1 < n then s.pipeFd else none

/-- The child has the shell's table and variables. -/
def forked (n : ℕ) (s : State φ) (cmd : Command) : Child φ :=
  ⟨cmd,s.table,childOps cmd s.prevReadFd (s.outgoing n),.preparing,[]⟩

/-- The shell's operations that ask for no answer; `waitpid` blocks until the child has exited. -/
def runs (n : ℕ) (s : State φ) : Option (State φ) :=
  match s.pc with
  | .loop =>
    if s.i < n then
      if s.i+1 < n then some {s with pc := .pipe} else some {s with pc := .fork}
    else some {s with pc := .wait 0}
  | .closePrevious =>
    match s.prevReadFd with
    | some fd => some {s with pc := .closeWrite, table := s.table.close fd}
    | none => some {s with pc := .closeWrite}
  | .closeWrite =>
    if s.i+1 < n then
      match s.pipeFd with
      | some (r,w) =>
        some {s with pc := .loop, i := s.i+1, table := s.table.close w, prevReadFd := some r}
      | none => none
    else some {s with pc := .loop, i := s.i+1, prevReadFd := none}
  | .wait k =>
    if k < n then
      match s.children[k]? with
      | some c =>
        if c.phase = .exited then some {s with pc := .wait (k+1), waited := s.waited ++ [k]}
        else none
      | none => none
    else some {s with pc := .returned 0}
  | _ => none

end State

def step (p : Option Pipeline) (s : State φ) : Action → Option (State φ)
  | .runs => s.runs (numCommands p)
  | .malloc succeeds =>
    if s.pc = .malloc then
      if succeeds then some {s with pc := .loop} else some (s.fail "malloc")
    else none
  | .pipe answer =>
    if s.pc = .pipe then
      match answer with
      | some (r,w) =>
        if s.table r = none ∧ s.table w = none ∧ r ≠ w then
          some {s with
            pc := .fork
            pipeFd := some (r,w)
            table := (s.table.install r (.readEnd s.i)).install w (.writeEnd s.i)}
        else none
      | none => some (s.fail "pipe")
    else none
  | .fork succeeds =>
    if s.pc = .fork then
      if succeeds then
        match command p s.i with
        | some cmd =>
          some {s with
            pc := .closePrevious
            children := s.children ++ [s.forked (numCommands p) cmd]}
        | none => none
      else some (s.fail "fork")
    else none
  | .child j input =>
    match s.children[j]? with
    | some c => (c.step input).map fun d => {s with children := s.children.set j d}
    | none => none

section Cases
variable {p : Option Pipeline} {s t : State φ} {a : Action}

/-- Everything that a step can do. -/
inductive Stepped (p : Option Pipeline) (s : State φ) : Action → State φ → Prop
  | mallocs (hpc : s.pc = .malloc) : Stepped p s (.malloc true) {s with pc := .loop}
  | mallocFails (hpc : s.pc = .malloc) : Stepped p s (.malloc false) (s.fail "malloc")
  | enterPipe (hpc : s.pc = .loop) (hi : s.i+1 < numCommands p) :
      Stepped p s .runs {s with pc := .pipe}
  | enterFork (hpc : s.pc = .loop) (hi : s.i+1 = numCommands p) :
      Stepped p s .runs {s with pc := .fork}
  | leave (hpc : s.pc = .loop) (hi : numCommands p ≤ s.i) : Stepped p s .runs {s with pc := .wait 0}
  | pipes (hpc : s.pc = .pipe) {r w : ℕ} (hr : s.table r = none) (hw : s.table w = none)
      (hne : r ≠ w) :
      Stepped p s (.pipe (some (r,w))) {s with
        pc := .fork
        pipeFd := some (r,w)
        table := (s.table.install r (.readEnd s.i)).install w (.writeEnd s.i)}
  | pipeFails (hpc : s.pc = .pipe) : Stepped p s (.pipe none) (s.fail "pipe")
  | forks (hpc : s.pc = .fork) {cmd : Command} (hc : command p s.i = some cmd) :
      Stepped p s (.fork true) {s with
        pc := .closePrevious
        children := s.children ++ [s.forked (numCommands p) cmd]}
  | forkFails (hpc : s.pc = .fork) : Stepped p s (.fork false) (s.fail "fork")
  | closes (hpc : s.pc = .closePrevious) {fd : ℕ} (hp : s.prevReadFd = some fd) :
      Stepped p s .runs {s with pc := .closeWrite, table := s.table.close fd}
  | keeps (hpc : s.pc = .closePrevious) (hp : s.prevReadFd = none) :
      Stepped p s .runs {s with pc := .closeWrite}
  | advance (hpc : s.pc = .closeWrite) (hi : s.i+1 < numCommands p) {r w : ℕ}
      (hp : s.pipeFd = some (r,w)) :
      Stepped p s .runs {s with
        pc := .loop, i := s.i+1, table := s.table.close w, prevReadFd := some r}
  | last (hpc : s.pc = .closeWrite) (hi : numCommands p ≤ s.i+1) :
      Stepped p s .runs {s with pc := .loop, i := s.i+1, prevReadFd := none}
  | waits {k : ℕ} (hpc : s.pc = .wait k) (hk : k < numCommands p) {c : Child φ}
      (hc : s.children[k]? = some c) (he : c.phase = .exited) :
      Stepped p s .runs {s with pc := .wait (k+1), waited := s.waited ++ [k]}
  | returns {k : ℕ} (hpc : s.pc = .wait k) (hk : numCommands p ≤ k) :
      Stepped p s .runs {s with pc := .returned 0}
  | child {j : ℕ} {input : ChildInput} {c d : Child φ} (hc : s.children[j]? = some c)
      (hd : c.step input = some d) :
      Stepped p s (.child j input) {s with children := s.children.set j d}

theorem runs_stepped (h : s.runs (numCommands p) = some t) : Stepped p s .runs t := by
  unfold State.runs at h
  split at h
  · rename_i hpc
    split_ifs at h with hi hi'
    · cases h; exact .enterPipe hpc hi'
    · cases h; exact .enterFork hpc (by omega)
    · cases h; exact .leave hpc (by omega)
  · rename_i hpc
    split at h
    · rename_i fd hp
      cases h
      exact .closes hpc hp
    · rename_i hp
      cases h
      exact .keeps hpc hp
  · rename_i hpc
    split_ifs at h with hi
    · split at h
      · rename_i r w hp
        cases h
        exact .advance hpc hi hp
      · cases h
    · cases h
      exact .last hpc (by omega)
  · rename_i k hpc
    split_ifs at h with hk
    · split at h
      · rename_i c hc
        split_ifs at h with he
        cases h
        exact .waits hpc hk hc he
      · cases h
    · cases h
      exact .returns hpc (by omega)
  · cases h

theorem step_stepped (h : step p s a = some t) : Stepped p s a t := by
  cases a with
  | runs => exact runs_stepped h
  | malloc succeeds =>
    simp only [step] at h
    split_ifs at h with hpc hs <;> cases h
    · rw [hs]
      exact .mallocs hpc
    · rw [eq_false_of_ne_true hs]
      exact .mallocFails hpc
  | pipe answer =>
    simp only [step] at h
    split_ifs at h with hpc
    cases answer with
    | none =>
      cases h
      exact .pipeFails hpc
    | some fds =>
      rcases fds with ⟨r,w⟩
      simp only at h
      split_ifs at h with hf
      cases h
      exact .pipes hpc hf.1 hf.2.1 hf.2.2
  | fork succeeds =>
    simp only [step] at h
    split_ifs at h with hpc hs
    · split at h
      · rename_i cmd hc
        cases h
        rw [hs]
        exact .forks hpc hc
      · cases h
    · cases h
      rw [eq_false_of_ne_true hs]
      exact .forkFails hpc
  | child j input =>
    simp only [step] at h
    split at h
    · rename_i c hc
      obtain ⟨d,hd,rfl⟩ := Option.map_eq_some_iff.mp h
      exact .child hc hd
    · cases h

end Cases

end UnixShell.Pipes
