import UnixShell.Foundation.ReadAhead
import UnixShell.Parser.Overruns
import UnixShell.Parser.Pointers
import UnixShell.Shell.Invocation

/-! # The interactive shell

`shell_run_interactive` executes what `fgets` returns, up to the first exit. A line that
does not fit into the buffer is returned in several parts, and the loop takes each of them
for a command. The shell shares the descriptor of its standard input with its children, and
one that leaves by `exit` puts the offset of a file back to where its copy of the stream
stands, so that the shell reads that text again. Behind a line that overruns the parser's
arrays nothing can be said of the run.
-/
namespace UnixShell.Shell
open Foundation UnixShell.Parser
open UnixShell.Parser.Storage (StaysInside staysInside staysInside_iff)

/-- `MAX_LINE`. -/
def maxLine : ℕ := 1024

/-- What `fork` returns to `run_command_basic`, and what the calls of its child return. -/
structure BasicCalls where
  fork : Bool
  openInput : Bool
  dup2Input : Bool
  openOutput : Bool
  openError : Bool
  execvp : Bool
  deriving DecidableEq, Repr

/-- What the shell does not decide: whether its standard input is a file, how much a read at an
offset delivers at most, what the calls of a turn return, and where the processes that share
the descriptor have moved it when the shell comes back to its prompt. -/
structure Outside where
  seekable : Bool
  delivers : ℕ → ℕ
  calls : ℕ → BasicCalls
  others : ℕ → ℕ → ℕ

/-- The child's standard input is the file of its redirection. -/
def BasicCalls.replaces (c : BasicCalls) (cmd : Command) : Bool :=
  cmd.inputFile.isSome && c.openInput && c.dup2Input

/-- The child does not become a program. -/
def BasicCalls.exits (c : BasicCalls) (cmd : Command) : Bool :=
  cmd.inputFile.isSome && !c.openInput || cmd.outputFile.isSome && !c.openOutput ||
    cmd.errorFile.isSome && !c.openError || !c.execvp

/-- A child leaves by `exit` with the shell's standard input. -/
def BasicCalls.rewinds (c : BasicCalls) (cmd : Command) : Bool :=
  c.fork && c.exits cmd && !c.replaces cmd

/-- `fgets`: what is read, or NULL at the end of the input. -/
def fgets (w : Outside) (text : Text) (size : ℕ) (s : ReadAhead Char) :
    Option (Text × ReadAhead Char) :=
  let r := s.nextLine text w.delivers '\n' (size - 1)
  if r.1 = [] then none else some r

/-- What a buffer holds as a string. -/
def cString (buffer : Text) : Text := buffer.takeWhile (· ≠ nul)

/-- A turn of the loop: the text ahead of it and behind it, the command that it hands to
`shell_execute_line`, cut at its newline, unless `fgets` returns NULL, and whether the parser
then stays inside its arrays. -/
structure Turn where
  ahead : Text
  command : Option Text
  behind : Text
  inside : Bool
  deriving DecidableEq, Repr

section Run
variable (w : Outside) (text : Text) (alloc : ℕ → ℕ → Bool)

/-- The standard input when the execution of a line is done. The children of a pipeline leave
by `_exit`, which moves nothing. -/
def stdinAfter (k : ℕ) (string : Text) (s : ReadAhead Char) : ReadAhead Char :=
  let s :=
    match shellExecuteLine (alloc k) (some string) with
    | .basic cmd => if w.seekable && (w.calls k).rewinds cmd then s.rewind else s
    | _ => s
  {s with offset := w.others k s.offset}

/-- The turn, and the standard input of the next one if there is any. -/
def takeTurn (k : ℕ) (s : ReadAhead Char) : Turn × Option (ReadAhead Char) :=
  match fgets w text maxLine s with
  | none => (⟨s.unread text,none,s.unread text,true⟩,none)
  | some (buffer,s') =>
    let string := cString buffer
    let inside := decide (cutLine string = exitText ∨ StaysInside (alloc k) (cutLine string))
    (⟨s.unread text,some (cutLine string),s'.unread text,inside⟩,
      if shellExecuteLine (alloc k) (some string) = .exitRequest ∨ inside = false then none
      else some (stdinAfter w alloc k string s'))

/-- The turns from a prompt on, each with the standard input that it finds. -/
def turnsFrom : ℕ → ℕ → ReadAhead Char → List (ReadAhead Char × Turn)
  | 0, _, _ => []
  | fuel+1, k, s =>
    (s,(takeTurn w text alloc k s).1) ::
      match (takeTurn w text alloc k s).2 with
      | none => []
      | some s' => turnsFrom fuel (k+1) s'

def shellRunInteractive (fuel : ℕ) : List (ReadAhead Char × Turn) :=
  turnsFrom w text alloc fuel 0 .start

end Run

/-- The line does not fit into the buffer with its newline. -/
def TooLong (line : Text) : Prop := maxLine < line.length + 2

/-- The lines up to the first exit. -/
def commandLines (lines : List Text) : List Text := upTo (· = exitText) lines

/-- A turn for each of these lines, at its place in the text, and one that finds the end where
there is no exit. -/
def commandTurns : List Text → List Turn
  | [] => [⟨[],none,[],true⟩]
  | line :: lines =>
    ⟨joinLines '\n' (line :: lines),some line,joinLines '\n' lines,true⟩ ::
      if line = exitText then [] else commandTurns lines

/-- Every line is one command. Those that are too long may be left out, but not in part. -/
def EachLineOnce (turns : List Turn) (lines : List Text) : Prop :=
  ∃ refused : Turn → Bool, (∀ t, refused t = true → ∃ line ∈ t.command, TooLong line) ∧
    turns = (commandTurns lines).filter fun t => !refused t

/-- The next line is in the stream's buffer, or the descriptor stands where the shell has left
it. -/
def Ready (text : Text) (s : ReadAhead Char) : Prop :=
  s.Settled text ∨ s.Holds '\n' (maxLine - 1)

section Lines
variable {lines : List Text} {line : Text} {t : Turn}

theorem forall_commandLines {P : Text → Prop} : (∀ l ∈ commandLines (line :: lines), P l) ↔
    P line ∧ (line ≠ exitText → ∀ l ∈ commandLines lines, P l) := by
  by_cases h : line = exitText <;> simp [commandLines,upTo,h]

theorem cString_of_nul_free {text : Text} (h : nul ∉ text) : cString text = text := by
  apply List.takeWhile_eq_self_iff.mpr
  intro c hc
  simp only [decide_eq_true_eq]
  rintro rfl
  exact h hc

theorem cutLine_newline (h : '\n' ∉ line) : cutLine (line ++ ['\n']) = line := by
  have hall : ∀ c ∈ line, decide (c ≠ '\n') = true := by
    intro c hc
    simp only [decide_eq_true_eq]
    rintro rfl
    exact h hc
  rw [cutLine,List.takeWhile_append_of_pos hall]
  simp

theorem nul_free_joinLines (h : ∀ l ∈ lines, nul ∉ l) : nul ∉ joinLines '\n' lines := by
  rw [joinLines,List.mem_flatMap]
  rintro ⟨l,hl,hmem⟩
  rcases List.mem_append.mp hmem with hmem | hmem
  · exact h l hl hmem
  · revert hmem
    decide

theorem ahead_length (h : t ∈ commandTurns lines) :
    t.ahead.length ≤ (joinLines '\n' lines).length := by
  induction lines with
  | nil =>
    obtain rfl := List.mem_singleton.mp h
    exact Nat.le_refl _
  | cons line lines ih =>
    rcases List.mem_cons.mp h with rfl | h
    · exact Nat.le_refl _
    · split_ifs at h
      · cases h
      · refine (ih h).trans ?_
        rw [joinLines_cons,List.length_append,List.length_cons]
        omega

/-- A turn that finds all the text ahead of it is the first. -/
theorem first_of_ahead (h : t ∈ commandTurns (line :: lines))
    (ha : t.ahead = joinLines '\n' (line :: lines)) :
    t = ⟨joinLines '\n' (line :: lines),some line,joinLines '\n' lines,true⟩ := by
  rcases List.mem_cons.mp h with rfl | h
  · rfl
  · split_ifs at h
    · cases h
    · have hlen := ahead_length h
      rw [ha,joinLines_cons,List.length_append,List.length_cons] at hlen
      omega

end Lines

section Turns
variable {w : Outside} {text : Text} {alloc : ℕ → ℕ → Bool} {k fuel : ℕ} {s : ReadAhead Char}
variable {lines : List Text} {line rest : Text}

theorem turn_ahead (w : Outside) (text : Text) (alloc : ℕ → ℕ → Bool) (k : ℕ)
    (s : ReadAhead Char) : (takeTurn w text alloc k s).1.ahead = s.unread text := by
  unfold takeTurn
  split <;> rfl

/-- Executing a line leaves the stream as it is. -/
theorem unread_stdinAfter (w : Outside) (text : Text) (alloc : ℕ → ℕ → Bool) (k : ℕ)
    (string : Text) (s : ReadAhead Char) :
    (stdinAfter w alloc k string s).unread text = s.unread text := by
  unfold stdinAfter
  split
  · split_ifs
    · unfold ReadAhead.rewind
      split_ifs <;> rfl
    · rfl
  · rfl

/-- What holds of the standard input at a prompt and at each that comes after it. -/
theorem forall_turnsFrom {P : ReadAhead Char → Prop} :
    (∀ p ∈ turnsFrom w text alloc (fuel+1) k s, P p.1) ↔
      P s ∧ ∀ s', (takeTurn w text alloc k s).2 = some s' →
        ∀ p ∈ turnsFrom w text alloc fuel (k+1) s', P p.1 := by
  rw [turnsFrom,List.forall_mem_cons]
  cases (takeTurn w text alloc k s).2 with
  | none => simp
  | some s' => simp

/-- At the end of its text a stream that is ready finds it. -/
theorem turn_end_iff (w : Outside) (alloc : ℕ → ℕ → Bool) (k : ℕ) (hunread : s.unread text = []) :
    takeTurn w text alloc k s = (⟨[],none,[],true⟩,none) ↔ Ready text s := by
  constructor
  · intro h
    unfold takeTurn at h
    split at h
    next hnone =>
      rw [fgets] at hnone
      split_ifs at hnone with hline
      exact .inl (ReadAhead.settled_of_end hunread hline)
    · cases congrArg (·.1.command) h
  · intro h
    have hnone : fgets w text maxLine s = none := by
      rw [fgets,if_pos]
      rw [(ReadAhead.nextLine_unread h w.delivers).1,hunread]
      rfl
    rw [takeTurn,hnone,hunread]

theorem fgets_some {buffer : Text} {s' : ReadAhead Char}
    (h : fgets w text maxLine s = some (buffer,s')) :
    s.nextLine text w.delivers '\n' (maxLine-1) = (buffer,s') := by
  rw [fgets] at h
  split_ifs at h
  exact Option.some.inj h

/-- `fgets` returns no NUL of a text without one. -/
theorem cString_fgets {buffer : Text} {s' : ReadAhead Char} (htext : nul ∉ text)
    (hahead : nul ∉ s.unread text) (h : fgets w text maxLine s = some (buffer,s')) :
    cString buffer = buffer := by
  apply cString_of_nul_free
  intro hmem
  have htaken := (ReadAhead.nextLine_coming text w.delivers '\n' (maxLine-1) s).1
  rw [fgets_some h] at htaken
  have hcoming : nul ∈ s.coming text := by
    rw [← takeLine_append '\n' (maxLine-1) (s.coming text),← htaken]
    exact List.mem_append_left _ hmem
  rcases List.mem_append.mp hcoming with hmem | hmem
  · exact hahead (List.mem_append_left _ hmem)
  · exact htext (List.mem_of_mem_drop hmem)

/-- What `fgets` returns of a line that is its own. -/
theorem fgets_line (h : Ready text s) (hnewline : '\n' ∉ line) (hfit : ¬ TooLong line)
    (hunread : s.unread text = line ++ '\n' :: rest) :
    ∃ s', fgets w text maxLine s = some (line ++ ['\n'],s') ∧ s'.unread text = rest := by
  obtain ⟨hline,hrest⟩ := ReadAhead.nextLine_unread h w.delivers
  have hlen : line.length < maxLine - 1 := by
    simp only [TooLong,maxLine] at hfit ⊢
    omega
  rw [hunread,takeLine_of_lt hnewline hlen] at hline hrest
  have hne : (s.nextLine text w.delivers '\n' (maxLine-1)).1 ≠ [] := by simp [hline]
  exact ⟨_,(if_neg hne).trans (congrArg some (Prod.ext hline rfl)),hrest⟩

/-- A ready stream gives the shell the line, and the text behind it stays. -/
theorem turn_line (w : Outside) (alloc : ℕ → ℕ → Bool) (k : ℕ) (h : Ready text s)
    (hline : '\n' ∉ line ∧ nul ∉ line) (hfit : ¬ TooLong line)
    (hterm : Terminated (segments line)) (hunread : s.unread text = line ++ '\n' :: rest) :
    (takeTurn w text alloc k s).1 = ⟨s.unread text,some line,rest,true⟩ ∧
      (line = exitText → (takeTurn w text alloc k s).2 = none) ∧
      (line ≠ exitText →
        ∃ s', (takeTurn w text alloc k s).2 = some s' ∧ s'.unread text = rest) := by
  obtain ⟨hnewline,hnul⟩ := hline
  obtain ⟨s',hread,hrest⟩ := fgets_line (w := w) h hnewline hfit hunread
  have hstring : cString (line ++ ['\n']) = line ++ ['\n'] := by
    apply cString_of_nul_free
    rw [List.mem_append,not_or]
    exact ⟨hnul,by decide⟩
  have hinside : StaysInside (alloc k) line := by
    refine staysInside (alloc k) ?_ hterm
    simp only [TooLong,maxLine] at hfit
    omega
  simp only [takeTurn,hread,hstring,cutLine_newline hnewline,hinside,or_true,decide_true,hrest,
    shellExecuteLine_exit_iff,Bool.true_eq_false,or_false]
  refine ⟨trivial,fun hexit => if_pos hexit,fun hexit => ?_⟩
  exact ⟨_,if_neg hexit,(unread_stdinAfter ..).trans hrest⟩

theorem terminated_exitText : Terminated (segments exitText) := by
  have hsegments : segments exitText = [exitText] := by decide
  rw [hsegments]
  exact ⟨by decide +kernel,fun _ => trivial⟩

/-- A turn that took its line from its place found the stream ready, and the line was neither too
long nor, with memory enough, too much for the parser. -/
theorem turn_line_ready (htext : nul ∉ text) (hahead : nul ∉ s.unread text) (hline : '\n' ∉ line)
    (hunread : s.unread text = line ++ '\n' :: rest) {ahead : Text}
    (hturn : (takeTurn w text alloc k s).1 = ⟨ahead,some line,rest,true⟩) :
    Ready text s ∧ ¬ TooLong line ∧ ((∀ n, alloc k n = true) → Terminated (segments line)) ∧
      (line = exitText → (takeTurn w text alloc k s).2 = none) ∧
      (line ≠ exitText →
        ∃ s', (takeTurn w text alloc k s).2 = some s' ∧ s'.unread text = rest) := by
  cases hread : fgets w text maxLine s with
  | none =>
    rw [takeTurn,hread] at hturn
    cases congrArg Turn.command hturn
  | some r =>
    obtain ⟨buffer,s'⟩ := r
    simp only [takeTurn,hread] at hturn ⊢
    obtain ⟨_,hcommand,hbehind,hinside⟩ := Turn.mk.inj hturn
    have hcut : cutLine (cString buffer) = line := Option.some.inj hcommand
    have hnext := fgets_some hread
    have hstring := cString_fgets htext hahead hread
    have hready : Ready text s := by
      refine ReadAhead.settled_of_line w.delivers hunread ?_ ?_
      · rw [hnext,← hcut,hstring]
        rfl
      · rw [hnext]
        exact hbehind
    have hfit : ¬ TooLong line := by
      intro hlong
      have hrest := (ReadAhead.nextLine_unread hready w.delivers).2
      have hlen : maxLine - 1 ≤ line.length := by
        simp only [TooLong,maxLine] at hlong ⊢
        omega
      rw [hnext,hunread,takeLine_of_le hline hlen,hbehind] at hrest
      have hlens := congrArg List.length hrest
      simp only [List.length_append,List.length_cons] at hlens
      omega
    rw [decide_eq_true_eq,hcut] at hinside
    refine ⟨hready,hfit,fun hfull => ?_,fun hexit => ?_,fun hexit => ?_⟩
    · rcases hinside with rfl | hinside
      · exact terminated_exitText
      · refine (staysInside_iff hfull ?_).mp hinside
        simp only [TooLong,maxLine] at hfit
        omega
    · rw [if_pos]
      exact .inl (shellExecuteLine_exit_iff.mpr (hcut.trans hexit))
    · refine ⟨_,if_neg ?_,(unread_stdinAfter ..).trans hbehind⟩
      rw [shellExecuteLine_exit_iff,hcut,not_or]
      exact ⟨hexit,by simp [hinside]⟩

/-- Lines that fit are handed over one by one, while the stream is ready for each. -/
theorem turnsFrom_lines (hlines : ∀ l ∈ lines, '\n' ∉ l ∧ nul ∉ l)
    (hunread : s.unread text = joinLines '\n' lines)
    (hfit : ∀ l ∈ commandLines lines, ¬ TooLong l ∧ Terminated (segments l))
    (hready : ∀ p ∈ turnsFrom w text alloc fuel k s, Ready text p.1)
    (hfuel : lines.length < fuel) :
    (turnsFrom w text alloc fuel k s).map Prod.snd = commandTurns lines := by
  induction lines generalizing fuel k s with
  | nil =>
    obtain ⟨n,rfl⟩ := Nat.exists_eq_succ_of_ne_zero (Nat.ne_zero_of_lt hfuel)
    have hend := (turn_end_iff w alloc k hunread).mpr (forall_turnsFrom.mp hready).1
    simp only [turnsFrom,hend,List.map_cons,List.map_nil]
    rfl
  | cons line lines ih =>
    obtain ⟨n,rfl⟩ := Nat.exists_eq_succ_of_ne_zero (Nat.ne_zero_of_lt hfuel)
    obtain ⟨hline,htail⟩ := List.forall_mem_cons.mp hlines
    obtain ⟨hfirst,hfits⟩ := forall_commandLines.mp hfit
    obtain ⟨hnow,hlater⟩ := forall_turnsFrom.mp hready
    rw [joinLines_cons] at hunread
    obtain ⟨hturn,hend,hnext⟩ := turn_line w alloc k hnow hline hfirst.1 hfirst.2 hunread
    rw [turnsFrom,List.map_cons,hturn,commandTurns,joinLines_cons,hunread]
    by_cases hexit : line = exitText
    · rw [hend hexit,if_pos hexit]
      rfl
    · obtain ⟨s',hs',hrest⟩ := hnext hexit
      rw [hs',if_neg hexit]
      congr 1
      exact ih htail hrest (hfits hexit) (hlater s' hs') (Nat.lt_of_succ_lt_succ hfuel)

/-- Where each line was one command, the stream was ready for each, and each fitted. -/
theorem turnsFrom_ready (hlines : ∀ l ∈ lines, '\n' ∉ l ∧ nul ∉ l) (htext : nul ∉ text)
    (hunread : s.unread text = joinLines '\n' lines) (hfuel : lines.length < fuel)
    (honce : EachLineOnce ((turnsFrom w text alloc fuel k s).map Prod.snd) lines) :
    (∀ l ∈ commandLines lines, ¬ TooLong l ∧
      ((∀ k n, alloc k n = true) → Terminated (segments l))) ∧
    ∀ p ∈ turnsFrom w text alloc fuel k s, Ready text p.1 := by
  obtain ⟨refused,hrefused,hturns⟩ := honce
  induction lines generalizing fuel k s with
  | nil =>
    obtain ⟨n,rfl⟩ := Nat.exists_eq_succ_of_ne_zero (Nat.ne_zero_of_lt hfuel)
    have hmem : (takeTurn w text alloc k s).1 ∈ (commandTurns []).filter fun t => !refused t := by
      rw [← hturns]
      exact List.mem_cons_self
    have hfirst := List.mem_singleton.mp (List.mem_of_mem_filter hmem)
    have hnone : (takeTurn w text alloc k s).2 = none := by
      unfold takeTurn at hfirst ⊢
      split
      · rfl
      next hread =>
        rw [hread] at hfirst
        cases congrArg Turn.command hfirst
    have hready := (turn_end_iff _ _ _ hunread).mp (Prod.ext hfirst hnone)
    refine ⟨fun l hl => (by cases hl),forall_turnsFrom.mpr ⟨hready,fun s' hs' => ?_⟩⟩
    rw [hnone] at hs'
    cases hs'
  | cons line lines ih =>
    obtain ⟨n,rfl⟩ := Nat.exists_eq_succ_of_ne_zero (Nat.ne_zero_of_lt hfuel)
    obtain ⟨hline,htail⟩ := List.forall_mem_cons.mp hlines
    have hmem : (takeTurn w text alloc k s).1 ∈
        (commandTurns (line :: lines)).filter fun t => !refused t := by
      rw [← hturns]
      exact List.mem_cons_self
    have hfirst := first_of_ahead (List.mem_of_mem_filter hmem)
      ((turn_ahead w text alloc k s).trans hunread)
    have hkept := (List.mem_filter.mp hmem).2
    have hahead : nul ∉ s.unread text := by
      rw [hunread]
      exact nul_free_joinLines fun l hl => (hlines l hl).2
    obtain ⟨hready,hfit,hterm,hend,hnext⟩ :=
      turn_line_ready htext hahead hline.1 (hunread.trans (joinLines_cons ..)) hfirst
    rw [hfirst] at hkept
    rw [turnsFrom,List.map_cons,hfirst,commandTurns,List.filter_cons,if_pos hkept,
      List.cons.injEq] at hturns
    rw [forall_commandLines,forall_turnsFrom]
    by_cases hexit : line = exitText
    · refine ⟨⟨⟨hfit,fun hfull => hterm (hfull k)⟩,fun hne => absurd hexit hne⟩,hready,?_⟩
      intro s' hs'
      rw [hend hexit] at hs'
      cases hs'
    · obtain ⟨s',hs',hrest⟩ := hnext hexit
      rw [hs',if_neg hexit] at hturns
      obtain ⟨hfits,hreadies⟩ := ih htail hrest (Nat.lt_of_succ_lt_succ hfuel) hturns.2
      refine ⟨⟨⟨hfit,fun hfull => hterm (hfull k)⟩,fun _ => hfits⟩,hready,?_⟩
      intro s'' hs''
      rw [hs'] at hs''
      cases hs''
      exact hreadies

/-- Whatever requests fail, each line is one command exactly where no line up to the first exit
is too long for the buffer or has too many words for the parser, and the descriptor stands where
the shell left it whenever the shell reads from it. -/
theorem eachLineOnce_iff (w : Outside) (hlines : ∀ l ∈ lines, '\n' ∉ l ∧ nul ∉ l)
    (hfuel : lines.length < fuel) :
    (∀ alloc, EachLineOnce ((shellRunInteractive w (joinLines '\n' lines) alloc fuel).map Prod.snd)
      lines) ↔
    (∀ l ∈ commandLines lines, l.length + 2 ≤ maxLine ∧ Terminated (segments l)) ∧
      ∀ alloc, ∀ p ∈ shellRunInteractive w (joinLines '\n' lines) alloc fuel,
        Ready (joinLines '\n' lines) p.1 := by
  have htext := nul_free_joinLines fun l hl => (hlines l hl).2
  constructor
  · intro h
    have hready := fun alloc => turnsFrom_ready hlines htext rfl hfuel (h alloc)
    refine ⟨fun l hl => ?_,fun alloc => (hready alloc).2⟩
    obtain ⟨hfit,hterm⟩ := (hready fun _ _ => true).1 l hl
    exact ⟨not_lt.mp hfit,hterm fun _ _ => rfl⟩
  · rintro ⟨hfit,hready⟩ alloc
    refine ⟨fun _ => false,fun t ht => (by cases ht),?_⟩
    have hturns := turnsFrom_lines hlines rfl
      (fun l hl => ⟨not_lt.mpr (hfit l hl).1,(hfit l hl).2⟩) (hready alloc) hfuel
    exact hturns.trans (by simp)

/-- A stream that nobody moves is ready whenever it is read: the input is no file, or no child
leaves by `exit` with it, and the others leave the descriptor where it is. -/
theorem ready_of_unmoved (hothers : ∀ k offset, w.others k offset = offset)
    (hchildren : w.seekable = false ∨ ∀ k cmd, (w.calls k).rewinds cmd = false)
    (hs : s.filled = s.offset) (text : Text) (alloc : ℕ → ℕ → Bool) (fuel k : ℕ) :
    ∀ p ∈ turnsFrom w text alloc fuel k s, Ready text p.1 := by
  induction fuel generalizing k s with
  | zero => exact fun p hp => (by cases hp)
  | succ fuel ih =>
    refine forall_turnsFrom.mpr ⟨.inl (congrArg text.drop hs.symm),fun s' hs' => ih ?_ (k+1)⟩
    unfold takeTurn at hs'
    split at hs'
    · cases hs'
    next buffer s₁ hread =>
      have hplace : s₁.filled = s₁.offset := by
        have hbuffer := ReadAhead.nextLine_buffer text w.delivers '\n' (maxLine-1) s
        rw [fgets_some hread] at hbuffer
        rcases hbuffer with ⟨_,hfilled,hoffset⟩ | ⟨_,hfilled⟩
        · rw [hfilled,hoffset,hs]
        · exact hfilled
      have hstays : ∀ cmd, (w.seekable && (w.calls k).rewinds cmd) = false := by
        intro cmd
        rcases hchildren with h | h
        · rw [h,Bool.false_and]
        · rw [h,Bool.and_false]
      dsimp only at hs'
      split_ifs at hs'
      obtain rfl := Option.some.inj hs'
      unfold stdinAfter
      split
      · simp only [hstays,Bool.false_eq_true,if_false,hothers,hplace]
      · simp only [hothers,hplace]

end Turns

/-- A pipe of which a read delivers two characters, and programs that do not read from it. -/
def quietPipe : Outside := ⟨false,fun _ => 1,fun _ => ⟨true,true,true,true,true,true⟩,fun _ o => o⟩

def twoLines : List Text := ["echo a".toList,exitText,"echo b".toList]

theorem twoLines_once : commandLines twoLines = ["echo a".toList,exitText] ∧
    ∀ alloc, EachLineOnce ((shellRunInteractive quietPipe (joinLines '\n' twoLines) alloc 4).map
      Prod.snd) twoLines := by
  have hlines : commandLines twoLines = ["echo a".toList,exitText] := by decide
  have hsegments : segments "echo a".toList = ["echo a".toList] := by decide
  refine ⟨hlines,(eachLineOnce_iff quietPipe (by decide) (by decide)).mpr ⟨fun l hl => ?_,
    fun alloc => ready_of_unmoved (fun _ _ => rfl) (.inl rfl) rfl _ alloc 4 0⟩⟩
  rw [hlines,List.mem_pair] at hl
  rcases hl with rfl | rfl
  · refine ⟨by decide,?_⟩
    rw [hsegments]
    exact ⟨by decide +kernel,fun _ => trivial⟩
  · exact ⟨by decide,terminated_exitText⟩

/-- A command name of a thousand letters and more, and an exit at its end. -/
def longLine : Text := List.replicate (maxLine - 1) 'a' ++ exitText

theorem longLine_parts : ¬ EachLineOnce ((shellRunInteractive quietPipe
    (joinLines '\n' [longLine]) (fun _ _ => true) 2).map Prod.snd) [longLine] := by
  have hletters : ∀ c ∈ longLine, c = 'a' ∨ c ∈ exitText := by
    intro c hc
    rcases List.mem_append.mp hc with hc | hc
    · exact .inl (List.eq_of_mem_replicate hc)
    · exact .inr hc
  have hlines : ∀ l ∈ [longLine], '\n' ∉ l ∧ nul ∉ l := by
    intro l hl
    obtain rfl := List.mem_singleton.mp hl
    constructor <;> intro h <;> rcases hletters _ h with h | h <;> revert h <;> decide
  have hlen : longLine.length = 1027 := by
    rw [longLine,List.length_append,List.length_replicate]
    rfl
  intro honce
  obtain ⟨hfits,_⟩ := turnsFrom_ready hlines (nul_free_joinLines fun l hl => (hlines l hl).2) rfl
    (by decide) honce
  apply (forall_commandLines.mp hfits).1.1
  simp only [TooLong,hlen,maxLine]
  omega

/-- A file of which a read delivers all, and no program by the name of the first line. -/
def failingFile : Outside :=
  ⟨true,fun _ => 4095,fun k => ⟨true,true,true,true,true,k ≠ 0⟩,fun _ o => o⟩

/-- The child of the first line has put the file back to where the second begins. -/
example : (shellRunInteractive failingFile "x\nls\n".toList (fun _ _ => true) 9).map
    (fun p => p.2.command) = [some ['x'],some ['l','s'],some ['l','s'],none] := by
  decide +kernel

end UnixShell.Shell
