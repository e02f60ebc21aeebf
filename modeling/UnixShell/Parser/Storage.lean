import UnixShell.Foundation.Heaps
import UnixShell.Parser.Grammar

/-! # The parser's memory

Every block that `parse_line` asks for, in the order it asks, and every pointer it keeps: the
pipeline, the command array, an argument vector for each command, and the copies of the
words. The array's elements are kept as the memory has them, also the one behind the last
command, whose argument vector may be freed already. An argument vector has `maxTokens`
slots, and whoever stores or reads behind them is at fault; what the run does from there on
says nothing.
-/
namespace UnixShell.Parser.Storage
open Foundation

/-- What a block is asked for; `pids` is the array of `execute_pipeline`. -/
inductive Object
  | pipeline
  | commands
  | argv
  | copy (s : Text)
  | pids
  deriving DecidableEq, Repr

/-- The block of a copy, with what it says. -/
abbrev Copy := ℕ × Text

/-- An element of the command array. Behind the entries written, the argument vector still
holds the NULLs of `calloc`. -/
structure Slot where
  argv : Option ℕ
  entries : List (Option Copy)
  inputFile : Option Copy
  outputFile : Option Copy
  errorFile : Option Copy
  deriving DecidableEq, Repr

namespace Slot

def cleared : Slot := ⟨none,[],none,none,none⟩

/-- The element after its fields are reset and its argument vector is allocated. -/
def fresh (v : ℕ) : Slot := ⟨some v,[],none,none,none⟩

/-- `cmd->argv[argc++] = entry`. -/
def push (s : Slot) (entry : Option Copy) : Slot := {s with entries := s.entries ++ [entry]}

/-- The pointer to the old file name is overwritten. -/
def redirect (s : Slot) : Redirect → Option Copy → Slot
  | .input, file => {s with inputFile := file}
  | .output, file => {s with outputFile := file}
  | .error, file => {s with errorFile := file}

def redirected (s : Slot) : Bool :=
  s.inputFile.isSome || s.outputFile.isSome || s.errorFile.isSome

/-- What the element says. -/
def command (s : Slot) : Command :=
  ⟨s.entries.map (·.map Prod.snd),s.inputFile.map Prod.snd,s.outputFile.map Prod.snd,
    s.errorFile.map Prod.snd⟩

@[simp] theorem push_argv (s : Slot) (entry : Option Copy) : (s.push entry).argv = s.argv := rfl

@[simp] theorem redirect_argv (s : Slot) (op : Redirect) (file : Option Copy) :
    (s.redirect op file).argv = s.argv := by
  cases op <;> rfl

@[simp] theorem redirect_entries (s : Slot) (op : Redirect) (file : Option Copy) :
    (s.redirect op file).entries = s.entries := by
  cases op <;> rfl

@[simp] theorem fresh_argv (v : ℕ) : (fresh v).argv = some v := rfl

@[simp] theorem command_fresh (v : ℕ) : (fresh v).command = .fresh := rfl

@[simp] theorem command_push (s : Slot) (entry : Option Copy) :
    (s.push entry).command = s.command.push (entry.map Prod.snd) := by
  simp [command,push,Command.push]

@[simp] theorem command_redirect (s : Slot) (op : Redirect) (file : Option Copy) :
    (s.redirect op file).command = s.command.redirect op (file.map Prod.snd) := by
  cases op <;> rfl

@[simp] theorem command_redirected (s : Slot) : s.command.redirected = s.redirected := by
  simp [command,redirected,Command.redirected]

theorem command_argc (s : Slot) : s.command.argv.length = s.entries.length := by
  simp [command]

end Slot

/-- The pipeline while it is filled, and its command array as it stands in memory. -/
structure Stored where
  pipeline : ℕ
  commands : ℕ
  slots : ℕ → Slot
  capacity : ℕ
  count : ℕ
  deferredEmptySegment : Bool

namespace Stored

def start (pipeline commands : ℕ) : Stored :=
  ⟨pipeline,commands,fun _ => .cleared,initialCapacity,0,false⟩

/-- The element at `cmd_count`. -/
def slot (st : Stored) : Slot := st.slots st.count

def write (st : Stored) (s : Slot) : Stored :=
  {st with slots := Function.update st.slots st.count s}

@[simp] theorem write_slot (st : Stored) (s : Slot) : (st.write s).slot = s :=
  Function.update_self ..

@[simp] theorem write_count (st : Stored) (s : Slot) : (st.write s).count = st.count := rfl

end Stored

/-- `argv[i]`, read or stored to. -/
def touchEntry (h : Heap Object) (v i : ℕ) : Heap Object :=
  if i < maxTokens then h.touch v else h.stray v

/-- The loop over an argument vector from `argv[i]` on; it ends at the first NULL. -/
def freeEntries (v i : ℕ) (h : Heap Object) : List (Option Copy) → Heap Object
  | [] => touchEntry h v i
  | none :: _ => touchEntry h v i
  | some c :: entries => freeEntries v (i+1) ((touchEntry h v i).free c.1) entries

/-- `cmd->argv[argc]`. -/
def touchVector (h : Heap Object) (s : Slot) : Heap Object :=
  match s.argv with
  | some v => touchEntry h v s.entries.length
  | none => h

def freeVector (h : Heap Object) (s : Slot) : Heap Object :=
  match s.argv with
  | some v => (freeEntries v 0 h s.entries).free v
  | none => h

def freeSlot (commands : ℕ) (h : Heap Object) (s : Slot) : Heap Object :=
  (((freeVector (h.touch commands) s).freePointer (s.inputFile.map Prod.fst)).freePointer
    (s.outputFile.map Prod.fst)).freePointer (s.errorFile.map Prod.fst)

/-- The loop of `free_commands` and of `free_pipeline` over the first `count` elements. -/
def freeCommands (st : Stored) (count : ℕ) (h : Heap Object) : Heap Object :=
  (List.range count).foldl (fun h i => freeSlot st.commands h (st.slots i)) h

/-- The way out of `parse_line` on every error. -/
def discard (st : Stored) (count : ℕ) (h : Heap Object) : Heap Object :=
  ((freeCommands st count h).free st.commands).free st.pipeline

/-- `free_pipeline`. -/
def freePipeline (st : Stored) (h : Heap Object) : Heap Object := discard st st.count h

variable (alloc : ℕ → Bool)

def strdup (h : Heap Object) (s : Text) : Option Copy × Heap Object :=
  ((h.request (.copy s) (alloc h.requests)).1.map (·,s),(h.request (.copy s) (alloc h.requests)).2)

/-- The token loop of one segment, with whether it ended at a redirection without a file. -/
def parseTokens (commands v : ℕ) : ℕ → Text → Slot → Heap Object → Bool × Slot × Heap Object
  | 0, _, s, h => (false,s,h)
  | fuel+1, scan, s, h =>
    let r := nextToken scan
    match r.token with
    | none => (false,s,h)
    | some token =>
      match redirectOf token with
      | some op =>
        let r := nextToken r.input
        match r.token with
        | none => (true,s,h)
        | some file =>
          if (redirectOf file).isSome then (true,s,h)
          else
            let (copy,h) := strdup alloc h file
            parseTokens commands v fuel r.input (s.redirect op copy) (h.touch commands)
      | none =>
        let (copy,h) := strdup alloc h token
        parseTokens commands v fuel r.input (s.push copy)
          (touchEntry (h.touch commands) v s.entries.length)

/-- `realloc` moves the array, and its new half is cleared. -/
def grow (st : Stored) (h : Heap Object) : Option Stored × Heap Object :=
  if st.count = st.capacity then
    match h.request .commands (alloc h.requests) with
    | (some b,h) =>
      (some {st with
        commands := b
        slots := fun i => if st.capacity ≤ i ∧ i < st.capacity*2 then .cleared else st.slots i
        capacity := st.capacity*2},h.free st.commands)
    | (none,h) => (none,h)
  else (some st,h)

def closeCommand (rest : List Text) (st : Stored) (h : Heap Object) :
    Option Stored × Heap Object :=
  if st.slot.entries.length = 0 then
    if rest ≠ [] ∧ st.slot.redirected = true then
      -- the element keeps the pointer to its vector, and the file names
      (some {st with deferredEmptySegment := true},h.freePointer st.slot.argv)
    else (none,discard st (st.count+1) h)
  else (some {st with count := st.count+1},touchVector (h.touch st.commands) st.slot)

def fillCommand (trimmed : Text) (rest : List Text) (st : Stored) (h : Heap Object) :
    Option Stored × Heap Object :=
  match (h.touch st.commands).request .argv (alloc h.requests) with
  | (none,h) => (none,discard (st.write .cleared) st.count h)
  | (some v,h) =>
    match parseTokens alloc st.commands v (trimmed.length+1) trimmed (.fresh v) h with
    | (true,s,h) => (none,discard (st.write s) (st.count+1) h)
    | (false,s,h) => closeCommand rest (st.write s) h

def parseSegment (segment : Text) (rest : List Text) (st : Stored) (h : Heap Object) :
    Option Stored × Heap Object :=
  if trimWhitespace segment = [] then (none,discard st st.count h)
  else
    match grow alloc st h with
    | (none,h) => (none,discard st st.count h)
    | (some st,h) => fillCommand alloc (trimWhitespace segment) rest st h

def finishLine (st : Stored) (h : Heap Object) : Option Stored × Heap Object :=
  if st.count = 0 then (none,(h.free st.commands).free st.pipeline)
  else if st.deferredEmptySegment then (none,discard st st.count h)
  else (some st,h)

def parseSegments : List Text → Stored → Heap Object → Option Stored × Heap Object
  | [], st, h => finishLine st h
  | segment :: rest, st, h =>
    match parseSegment alloc segment rest st h with
    | (none,h) => (none,h)
    | (some st,h) => parseSegments rest st h

def parseLine (line : Text) (h : Heap Object) : Option Stored × Heap Object :=
  if trimWhitespace line = [] then (none,h)
  else
    match h.request .pipeline (alloc h.requests) with
    | (none,h) => (none,h)
    | (some pipeline,h) =>
      match h.request .commands (alloc h.requests) with
      | (none,h) => (none,h.free pipeline)
      | (some commands,h) => parseSegments alloc (segments line) (.start pipeline commands) h

section Tokens
variable (alloc : ℕ → Bool) {commands v fuel : ℕ} {p t f : Text} {op : Redirect} (s : Slot)
variable (h : Heap Object)

theorem parseTokens_stop (hp : (nextToken p).token = none) :
    parseTokens alloc commands v (fuel+1) p s h = (false,s,h) := by
  simp only [parseTokens,hp]

theorem parseTokens_argument (hp : (nextToken p).token = some t) (ht : redirectOf t = none) :
    parseTokens alloc commands v (fuel+1) p s h =
      parseTokens alloc commands v fuel (nextToken p).input (s.push (strdup alloc h t).1)
        (touchEntry ((strdup alloc h t).2.touch commands) v s.entries.length) := by
  simp only [parseTokens,hp,ht]

theorem parseTokens_lacking (hp : (nextToken p).token = some t) (ht : redirectOf t = some op)
    (hf : ∀ f, (nextToken (nextToken p).input).token = some f → (redirectOf f).isSome = true) :
    parseTokens alloc commands v (fuel+1) p s h = (true,s,h) := by
  cases hn : (nextToken (nextToken p).input).token with
  | none => simp only [parseTokens,hp,ht,hn]
  | some f => simp only [parseTokens,hp,ht,hn,hf f hn,if_true]

theorem parseTokens_file (hp : (nextToken p).token = some t) (ht : redirectOf t = some op)
    (hn : (nextToken (nextToken p).input).token = some f) (hf : ¬(redirectOf f).isSome = true) :
    parseTokens alloc commands v (fuel+1) p s h =
      parseTokens alloc commands v fuel (nextToken (nextToken p).input).input
        (s.redirect op (strdup alloc h f).1) ((strdup alloc h f).2.touch commands) := by
  simp only [parseTokens,hp,ht,hn,hf,Bool.false_eq_true,if_false]

end Tokens

section Requests
variable (st : Stored) (h : Heap Object)

@[simp] theorem touchEntry_requests (v i : ℕ) : (touchEntry h v i).requests = h.requests := by
  unfold touchEntry
  split <;> simp

@[simp] theorem freeEntries_requests (v i : ℕ) (cs : List (Option Copy)) :
    (freeEntries v i h cs).requests = h.requests := by
  induction cs generalizing i h with
  | nil => exact touchEntry_requests h v i
  | cons c cs ih =>
    cases c with
    | none => exact touchEntry_requests h v i
    | some c => simp [freeEntries,ih]

@[simp] theorem freeSlot_requests (commands : ℕ) (s : Slot) :
    (freeSlot commands h s).requests = h.requests := by
  unfold freeSlot freeVector
  split <;> simp

@[simp] theorem discard_requests (count : ℕ) : (discard st count h).requests = h.requests := by
  have hcommands : (freeCommands st count h).requests = h.requests := by
    induction count with
    | zero => rfl
    | succ n ih =>
      rw [freeCommands,List.range_succ,List.foldl_append]
      exact (freeSlot_requests ..).trans ih
  simp [discard,hcommands]

@[simp] theorem touchVector_requests (s : Slot) : (touchVector h s).requests = h.requests := by
  unfold touchVector
  split <;> simp

end Requests

/-- The pipeline as it is parsed, without its memory. -/
def Stored.building (st : Stored) : Building :=
  ⟨(List.range st.count).map fun i => (st.slots i).command,st.capacity,st.deferredEmptySegment⟩

/-- What `parse_line` returns. -/
def Stored.result (st : Stored) : Pipeline := ⟨st.building.commands,st.count⟩

theorem building_length (st : Stored) : st.building.commands.length = st.count := by
  simp [Stored.building]

/-- The two runs have asked for memory equally often, and have the same result. -/
def Agrees {α β : Type*} (base : ℕ) (f : β → α) (out : Option α × Machine)
    (out' : Option β × Heap Object) : Prop :=
  out.1 = out'.1.map f ∧ out'.2.requests = base + out.2.allocations

section Machines
variable (m : Machine)

@[simp] theorem allocate_allocations : m.allocate.allocations = m.allocations+1 := rfl

@[simp] theorem touch_allocations (as : List Access) : (m.touch as).allocations = m.allocations := rfl

@[simp] theorem print_allocations (line : String) : (m.print line).allocations = m.allocations := rfl

@[simp] theorem read_allocations (r : TokenRead) : (m.read r).allocations = m.allocations := rfl

@[simp] theorem freeCommands_allocations (b : Building) (count : ℕ) :
    (Parser.freeCommands b count m).allocations = m.allocations := rfl

end Machines

section Refinement
variable {alloc : ℕ → Bool} {base : ℕ}

theorem strdup_refines {h : Heap Object} {m : Machine} (hm : h.requests = base + m.allocations)
    (t : Text) :
    (strdup alloc h t).1.map Prod.snd = (Parser.strdup (fun n => alloc (base + n)) m t).1 ∧
      (strdup alloc h t).2.requests = base + m.allocations + 1 := by
  rw [strdup,Parser.strdup,Heap.request_requests,hm]
  cases ha : alloc (base + m.allocations) <;> simp [Heap.request]

theorem parseTokens_refines (commands v fuel : ℕ) (p : Text) (s : Slot) {h : Heap Object}
    {m : Machine} (hm : h.requests = base + m.allocations) :
    let out := parseTokens alloc commands v fuel p s h
    Agrees base Slot.command (Parser.parseTokens (fun n => alloc (base + n)) fuel p s.command m)
      (if out.1 then none else some out.2.1,out.2.2) := by
  induction fuel generalizing p s h m with
  | zero => exact ⟨rfl,hm⟩
  | succ fuel ih =>
    cases hp : (nextToken p).token with
    | none =>
      rw [parseTokens_stop _ _ _ hp,Parser.parseTokens_stop _ _ _ _ hp]
      exact ⟨rfl,hm⟩
    | some t =>
      cases ht : redirectOf t with
      | none =>
        obtain ⟨hcopy,hreq⟩ := @strdup_refines alloc base h (m.read (nextToken p)) hm t
        rw [parseTokens_argument _ _ _ hp ht,Parser.parseTokens_argument _ _ _ _ hp ht,← hcopy,
          ← Slot.command_push]
        exact ih _ _ (by simp [hreq,Nat.add_assoc])
      | some op =>
        by_cases hf : ∃ f, (nextToken (nextToken p).input).token = some f ∧
            ¬(redirectOf f).isSome = true
        · obtain ⟨f,hn,hf⟩ := hf
          obtain ⟨hcopy,hreq⟩ := @strdup_refines alloc base h
            ((m.read (nextToken p)).read (nextToken (nextToken p).input)) hm f
          rw [parseTokens_file _ _ _ hp ht hn hf,Parser.parseTokens_file _ _ _ _ hp ht hn hf,← hcopy,
            ← Slot.command_redirect]
          exact ih _ _ (by simp [hreq,Nat.add_assoc])
        · have hlack : ∀ f, (nextToken (nextToken p).input).token = some f →
              (redirectOf f).isSome = true := fun f hn => by_contra fun hno => hf ⟨f,hn,hno⟩
          rw [parseTokens_lacking _ _ _ hp ht hlack,Parser.parseTokens_lacking _ _ _ _ hp ht hlack]
          exact ⟨rfl,hm⟩

theorem grow_refines (st : Stored) {h : Heap Object} {m : Machine}
    (hm : h.requests = base + m.allocations) :
    Agrees base Stored.building (Parser.grow (fun n => alloc (base + n)) st.building m)
      (grow alloc st h) := by
  unfold Parser.grow grow
  rw [building_length]
  have hcap : st.building.capacity = st.capacity := rfl
  rw [hcap,hm]
  split_ifs with hfull ha
  · simp only [ha,Heap.request,if_true]
    refine ⟨?_,by simp [hm,Nat.add_assoc]⟩
    simp only [Option.map_some,Stored.building,Option.some.injEq,Building.mk.injEq,and_true]
    refine List.map_congr_left fun i hi => ?_
    have hlt := List.mem_range.mp hi
    rw [if_neg (by omega)]
  · simp only [ha,Heap.request]
    exact ⟨rfl,by simp [hm,Nat.add_assoc]⟩
  · exact ⟨rfl,hm⟩

theorem closeCommand_refines (rest : List Text) (st : Stored) {h : Heap Object} {m : Machine}
    (hm : h.requests = base + m.allocations) :
    Agrees base Stored.building (Parser.closeCommand rest st.building st.slot.command m)
      (closeCommand rest st h) := by
  unfold Parser.closeCommand closeCommand
  rw [Slot.command_argc,Slot.command_redirected]
  split_ifs with hargc hdefer
  · exact ⟨rfl,by simpa using hm⟩
  · exact ⟨rfl,by simpa using hm⟩
  · refine ⟨?_,by simpa using hm⟩
    simp [Stored.building,List.range_succ,Stored.slot]

theorem write_building (st : Stored) (s : Slot) : (st.write s).building = st.building := by
  simp only [Stored.building,Stored.write,Building.mk.injEq,and_true]
  refine List.map_congr_left fun i hi => ?_
  rw [Function.update_of_ne (List.mem_range.mp hi).ne]

theorem fillCommand_refines (trimmed : Text) (rest : List Text) (st : Stored) {h : Heap Object}
    {m : Machine} (hm : h.requests = base + m.allocations) :
    Agrees base Stored.building
      (Parser.fillCommand (fun n => alloc (base + n)) trimmed rest st.building m)
      (fillCommand alloc trimmed rest st h) := by
  unfold Parser.fillCommand fillCommand
  rw [hm]
  split_ifs with ha
  · simp only [ha,Heap.request,if_true,Heap.touch_requests]
    have hreq : (⟨h.requests+1,(h.requests,.argv) :: (h.touch st.commands).live,
        (h.touch st.commands).faults⟩ : Heap Object).requests = base + m.allocate.allocations := by
      simp [hm,Nat.add_assoc]
    have htokens := @parseTokens_refines alloc base st.commands h.requests (trimmed.length+1)
      trimmed (.fresh h.requests) _ _ hreq
    rw [Slot.command_fresh] at htokens
    split
    next m' hp =>
      rw [hp] at htokens
      split
      next s h' hout =>
        simp only [hout] at htokens
        exact ⟨rfl,by simpa using htokens.2⟩
      next s h' hout =>
        simp only [hout] at htokens
        cases htokens.1
    next cmd m' hp =>
      rw [hp] at htokens
      split
      next s h' hout =>
        simp only [hout] at htokens
        cases htokens.1
      next s h' hout =>
        simp only [hout] at htokens
        obtain rfl : cmd = s.command := Option.some.inj htokens.1
        have hclose := closeCommand_refines rest (st.write s) htokens.2
        rwa [write_building,Stored.write_slot] at hclose
  · simp only [ha,Heap.request]
    exact ⟨rfl,by simp [hm,Nat.add_assoc]⟩

theorem parseSegment_refines (segment : Text) (rest : List Text) (st : Stored) {h : Heap Object}
    {m : Machine} (hm : h.requests = base + m.allocations) :
    Agrees base Stored.building
      (Parser.parseSegment (fun n => alloc (base + n)) segment rest st.building m)
      (parseSegment alloc segment rest st h) := by
  unfold Parser.parseSegment parseSegment
  split_ifs with hblank
  · exact ⟨rfl,by simpa using hm⟩
  · obtain ⟨hgrow,hreq⟩ := @grow_refines alloc base st h m hm
    cases hg : grow alloc st h with
    | mk o h' =>
      cases hg' : Parser.grow (fun n => alloc (base + n)) st.building m with
      | mk b m' =>
        rw [hg,hg'] at hgrow hreq
        dsimp only at hgrow hreq
        cases o with
        | none =>
          rw [hgrow]
          exact ⟨rfl,by simpa using hreq⟩
        | some st' =>
          rw [hgrow]
          exact fillCommand_refines _ rest st' hreq

theorem finishLine_refines (st : Stored) {h : Heap Object} {m : Machine}
    (hm : h.requests = base + m.allocations) :
    Agrees base Stored.result (Parser.finishLine st.building m) (finishLine st h) := by
  have hdeferred : st.building.deferredEmptySegment = st.deferredEmptySegment := rfl
  unfold Parser.finishLine finishLine
  rw [building_length,hdeferred]
  split_ifs
  · exact ⟨rfl,by simpa using hm⟩
  · exact ⟨rfl,by simpa using hm⟩
  · exact ⟨rfl,hm⟩

theorem parseSegments_refines (segs : List Text) (st : Stored) {h : Heap Object} {m : Machine}
    (hm : h.requests = base + m.allocations) :
    Agrees base Stored.result
      (Parser.parseSegments (fun n => alloc (base + n)) segs st.building m)
      (parseSegments alloc segs st h) := by
  induction segs generalizing st h m with
  | nil => exact finishLine_refines st hm
  | cons segment rest ih =>
    obtain ⟨hseg,hreq⟩ := @parseSegment_refines alloc base segment rest st h m hm
    unfold Parser.parseSegments parseSegments
    cases hg : parseSegment alloc segment rest st h with
    | mk o h' =>
      cases hg' : Parser.parseSegment (fun n => alloc (base + n)) segment rest st.building m with
      | mk b m' =>
        rw [hg,hg'] at hseg hreq
        dsimp only at hseg hreq
        cases o with
        | none =>
          rw [hseg]
          exact ⟨rfl,hreq⟩
        | some st' =>
          rw [hseg]
          exact ih st' hreq

/-- With its memory, the parser returns the pipeline it returns without it. -/
theorem parseLine_refines (alloc : ℕ → Bool) (line : Text) (h : Heap Object) :
    (parseLine alloc line h).1.map Stored.result =
      (Parser.parseLine (fun n => alloc (h.requests + n)) (some line)).1 := by
  simp only [Parser.parseLine,parseLine,Nat.add_zero]
  split_ifs with hblank ha hb
  · rfl
  · simp only [ha,Heap.request,if_true,hb]
    exact (@parseSegments_refines alloc h.requests (segments line) (.start _ _) _
      Machine.start.allocate.allocate rfl).1.symm
  · simp only [ha,Heap.request,if_true,hb]
    rfl
  · simp only [ha,Heap.request]
    rfl

end Refinement

end UnixShell.Parser.Storage
