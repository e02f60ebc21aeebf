import UnixShell.Parser.Tokens

/-! # Parsing a line into a pipeline

Allocation is an oracle on the number of requests made so far: any request may
fail. A run records each array element it writes and each command it frees,
with the size the array has at that moment where that varies, and the lines it
prints to `stderr`; the loop that reads an argument vector to free it is left
to the parser's memory. The argument vector of a command is the list of the
entries written to it; those after them are still the NULLs of `calloc`.
-/
namespace UnixShell.Parser

/-- `MAX_TOKENS`: the size of every argument vector. -/
def maxTokens : ℕ := 100

inductive Access
  | argv (index : ℕ)
  | commands (index capacity : ℕ)
  | token (index : ℕ)
  deriving DecidableEq, Repr

/-- The element exists. -/
def Access.InBounds : Access → Prop
  | .argv i => i < maxTokens
  | .commands i capacity => i < capacity
  | .token i => i < tokenBuffer

instance : DecidablePred Access.InBounds := fun a =>
  match a with
  | .argv i => inferInstanceAs (Decidable (i < maxTokens))
  | .commands i capacity => inferInstanceAs (Decidable (i < capacity))
  | .token i => inferInstanceAs (Decidable (i < tokenBuffer))

structure Machine where
  allocations : ℕ
  accesses : List Access
  stderr : List String
  deriving DecidableEq, Repr

namespace Machine

def start : Machine := ⟨0,[],[]⟩

def allocate (m : Machine) : Machine := {m with allocations := m.allocations+1}

def touch (m : Machine) (as : List Access) : Machine := {m with accesses := m.accesses ++ as}

def print (m : Machine) (s : String) : Machine := {m with stderr := m.stderr ++ [s]}

/-- A call of `next_token`. -/
def read (m : Machine) (r : TokenRead) : Machine :=
  {m with accesses := m.accesses ++ r.writes.map Access.token, stderr := m.stderr ++ r.stderr}

@[simp] theorem allocate_accesses (m : Machine) : m.allocate.accesses = m.accesses := rfl
@[simp] theorem touch_accesses (m : Machine) (as : List Access) :
    (m.touch as).accesses = m.accesses ++ as := rfl
@[simp] theorem print_accesses (m : Machine) (s : String) : (m.print s).accesses = m.accesses := rfl
@[simp] theorem read_accesses (m : Machine) (r : TokenRead) :
    (m.read r).accesses = m.accesses ++ r.writes.map Access.token := rfl

end Machine

inductive Redirect
  | input
  | output
  | error
  deriving DecidableEq, Repr

/-- The operator a token is, if it is one. -/
def redirectOf (token : Text) : Option Redirect :=
  if token = ['<'] then some .input
  else if token = ['>'] then some .output
  else if token = ['2','>'] then some .error
  else none

/-- `ERR_MISSING_INPUT`, `ERR_MISSING_OUTPUT` and `ERR_MISSING_ERROR_FILE`. -/
def Redirect.missing : Redirect → String
  | .input => "Input file not specified."
  | .output => "Output file not specified."
  | .error => "Error output file not specified."

def errMissingPipeCommand : String := "Command missing after pipe."
def errEmptyPipe : String := "Empty command between pipes."

structure Command where
  argv : List (Option Text)
  inputFile : Option Text
  outputFile : Option Text
  errorFile : Option Text
  deriving DecidableEq, Repr

namespace Command

/-- The slot after its fields are reset and its argument vector is allocated. -/
def fresh : Command := ⟨[],none,none,none⟩

/-- `cmd->argv[argc++] = entry`. -/
def push (cmd : Command) (entry : Option Text) : Command := {cmd with argv := cmd.argv ++ [entry]}

def redirect (cmd : Command) : Redirect → Option Text → Command
  | .input, file => {cmd with inputFile := file}
  | .output, file => {cmd with outputFile := file}
  | .error, file => {cmd with errorFile := file}

/-- Some redirection field is not NULL. -/
def redirected (cmd : Command) : Bool :=
  cmd.inputFile.isSome || cmd.outputFile.isSome || cmd.errorFile.isSome

@[simp] theorem push_argv (cmd : Command) (entry : Option Text) :
    (cmd.push entry).argv = cmd.argv ++ [entry] := rfl

@[simp] theorem push_redirected (cmd : Command) (entry : Option Text) :
    (cmd.push entry).redirected = cmd.redirected := rfl

@[simp] theorem redirect_argv (cmd : Command) (op : Redirect) (file : Option Text) :
    (cmd.redirect op file).argv = cmd.argv := by
  cases op <;> rfl

@[simp] theorem redirect_some_redirected (cmd : Command) (op : Redirect) (file : Text) :
    (cmd.redirect op (some file)).redirected = true := by
  cases op <;> simp [redirect,redirected]

end Command

structure Pipeline where
  commands : List Command
  numCommands : ℕ
  deriving DecidableEq, Repr

/-- The pipeline while it is filled: the commands parsed, the size of their array, and
whether a segment of redirections only waits for its error. -/
structure Building where
  commands : List Command
  capacity : ℕ
  deferredEmptySegment : Bool
  deriving DecidableEq, Repr

def initialCapacity : ℕ := 4

def Building.start : Building := ⟨[],initialCapacity,false⟩

/-- The message for a segment without a command, before the segments in `rest`. -/
def emptySegment (rest : List Text) : String :=
  if rest = [] then errMissingPipeCommand else errEmptyPipe

/-- `free_commands` on the first `count` commands. -/
def freeCommands (b : Building) (count : ℕ) (m : Machine) : Machine :=
  m.touch ((List.range count).map fun i => .commands i b.capacity)

variable (alloc : ℕ → Bool)

/-- `strdup`, with the next request. -/
def strdup (m : Machine) (s : Text) : Option Text × Machine :=
  (if alloc m.allocations then some s else none,m.allocate)

/-- The token loop of one segment, or none once a redirection lacks its file. -/
def parseTokens : ℕ → Text → Command → Machine → Option Command × Machine
  | 0, _, cmd, m => (some cmd,m)
  | fuel+1, scan, cmd, m =>
    let r := nextToken scan
    let m := m.read r
    match r.token with
    | none => (some cmd,m)
    | some token =>
      match redirectOf token with
      | some op =>
        let r := nextToken r.input
        let m := m.read r
        match r.token with
        | none => (none,m.print op.missing)
        | some file =>
          if (redirectOf file).isSome then (none,m.print op.missing)
          else
            let (copy,m) := strdup alloc m file
            parseTokens fuel r.input (cmd.redirect op copy) m
      | none =>
        let (copy,m) := strdup alloc m token
        parseTokens fuel r.input (cmd.push copy) (m.touch [.argv cmd.argv.length])

/-- The array is doubled when it is full, and its new half is cleared. -/
def grow (b : Building) (m : Machine) : Option Building × Machine :=
  if b.commands.length = b.capacity then
    if alloc m.allocations then
      (some {b with capacity := b.capacity*2},
        m.allocate.touch ((List.range' b.capacity b.capacity).map
          fun i => .commands i (b.capacity*2)))
    else (none,m.allocate)
  else (some b,m)

/-- The end of a segment's turn, once its tokens are read. -/
def closeCommand (rest : List Text) (b : Building) (cmd : Command) (m : Machine) :
    Option Building × Machine :=
  if cmd.argv.length = 0 then
    -- the slot is used again by the next segment
    if rest ≠ [] ∧ cmd.redirected = true then (some {b with deferredEmptySegment := true},m)
    else (none,freeCommands b (b.commands.length+1) (m.print (emptySegment rest)))
  else (some {b with commands := b.commands ++ [cmd]},m.touch [.argv cmd.argv.length])

/-- A segment's turn from the slot it fills. -/
def fillCommand (trimmed : Text) (rest : List Text) (b : Building) (m : Machine) :
    Option Building × Machine :=
  if alloc m.allocations then
    -- one call reads at least one character, so this many turns are enough
    match parseTokens alloc (trimmed.length+1) trimmed Command.fresh m.allocate with
    | (none,m) => (none,freeCommands b (b.commands.length+1) m)
    | (some cmd,m) => closeCommand rest b cmd m
  else (none,freeCommands b b.commands.length m.allocate)

/-- The body of the segment loop, or none where it returns NULL; `rest` is what is still to come. -/
def parseSegment (segment : Text) (rest : List Text) (b : Building) (m : Machine) :
    Option Building × Machine :=
  if trimWhitespace segment = [] then
    (none,freeCommands b b.commands.length (m.print (emptySegment rest)))
  else
    match grow alloc b m with
    | (none,m) => (none,freeCommands b b.commands.length m)
    | (some b,m) =>
      fillCommand alloc (trimWhitespace segment) rest b
        (m.touch [.commands b.commands.length b.capacity])

/-- What follows the segment loop. -/
def finishLine (b : Building) (m : Machine) : Option Pipeline × Machine :=
  if b.commands.length = 0 then (none,m)
  else if b.deferredEmptySegment then
    (none,freeCommands b b.commands.length (m.print errEmptyPipe))
  else (some ⟨b.commands,b.commands.length⟩,m)

def parseSegments : List Text → Building → Machine → Option Pipeline × Machine
  | [], b, m => finishLine b m
  | segment :: rest, b, m =>
    match parseSegment alloc segment rest b m with
    | (none,m) => (none,m)
    | (some b,m) => parseSegments rest b m

/-- What `strsep` cuts out of the line, whose trailing blanks are already gone. -/
def segments (line : Text) : List Text := (trimTrailing line).splitOn '|'

def parseLine : Option Text → Option Pipeline × Machine
  | none => (none,.start)
  | some line =>
    if trimWhitespace line = [] then (none,.start)
    else if alloc 0 then
      if alloc 1 then
        parseSegments alloc (segments line) .start Machine.start.allocate.allocate
      else (none,Machine.start.allocate.allocate)
    else (none,Machine.start.allocate)

end UnixShell.Parser
