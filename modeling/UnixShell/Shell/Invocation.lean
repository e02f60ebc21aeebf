import UnixShell.Parser.Bounds
import UnixShell.Parser.Plain
import UnixShell.Server.Arguments

/-! # One command line in both shells

The local shell executes what the parser makes of a line; the server runs a program with
the words of the command. They perform the same invocation exactly where the line has
nothing but words.
-/
namespace UnixShell.Shell
open Foundation UnixShell.Parser
open UnixShell.Server (isDemoCommand isProgramCommand programInvocation programInvocation_full)

/-- What `shell_execute_line` does with a line. -/
inductive Execution
  | exitRequest
  | nothing
  | basic (cmd : Command)
  | pipeline (p : Pipeline)
  deriving DecidableEq, Repr

def exitText : Text := ['e','x','i','t']

/-- The line up to its newline. -/
def cutLine (line : Text) : Text := line.takeWhile (· ≠ '\n')

def shellExecuteLine (alloc : ℕ → Bool) : Option Text → Execution
  | none => .exitRequest
  | some line =>
    if cutLine line = exitText then .exitRequest
    else
      match (parseLine alloc (some (cutLine line))).1 with
      | none => .nothing
      | some p =>
        if p.numCommands = 1 then .basic (p.commands.headD .fresh) else .pipeline p

/-- The server executes a command's words, and the shell executes the same vector alone. -/
def SameInvocation (alloc : ℕ → Bool) (command : Text) : Prop :=
  ∃ argv, programInvocation alloc command = some argv ∧
    (parseLine alloc (some command)).1 = some (plainPipeline [argv]) ∧
    (∀ a ∈ (parseLine alloc (some command)).2.accesses, a.InBounds) ∧
    shellExecuteLine alloc (some command) = .basic ⟨argv.map some,none,none,none⟩

/-- Nothing but words, as many as an argument vector holds in front of its NULL. -/
structure OnlyWords (command : Text) : Prop where
  oneLine : '\n' ∉ command
  oneSegment : '|' ∉ command
  plain : Plain command
  noOperator : ∀ w ∈ words blank command, redirectOf w = none
  fits : (words blank command).length < maxTokens

section Segments
variable {alloc : ℕ → Bool} {line : Text} {ws : List Text}

/-- What the token loop gets of a line without bars. -/
def trimmedLine (line : Text) : Text := trimWhitespace (trimTrailing line)

theorem exists_trimmedLine (line : Text) : ∃ pre post, (∀ c ∈ pre, blank c = true) ∧
    (∀ c ∈ post, blank c = true) ∧ line = pre ++ trimmedLine line ++ post := by
  let body := (trimTrailing line).dropWhile blank
  have hline : trimTrailing line ++ line.rtakeWhile blank = line :=
    List.rdropWhile_append_rtakeWhile
  have hfront : (trimTrailing line).takeWhile blank ++ body = trimTrailing line :=
    List.takeWhile_append_dropWhile
  have hback : trimTrailing body ++ body.rtakeWhile blank = body :=
    List.rdropWhile_append_rtakeWhile
  refine ⟨(trimTrailing line).takeWhile blank,body.rtakeWhile blank ++ line.rtakeWhile blank,
    fun c hc => List.mem_takeWhile_imp hc,fun c hc => ?_,?_⟩
  · rcases List.mem_append.mp hc with hc | hc
    · exact List.mem_rtakeWhile_imp hc
    · exact List.mem_rtakeWhile_imp hc
  · conv_lhs => rw [← hline,← hfront,← hback]
    simp [trimmedLine,trimWhitespace,body]

theorem words_trimmedLine (line : Text) : words blank (trimmedLine line) = words blank line := by
  obtain ⟨pre,post,hpre,hpost,hline⟩ := exists_trimmedLine line
  conv_rhs => rw [hline]
  rw [words_append_separators hpost,words_separators_append hpre]

theorem mem_trimmedLine {c : Char} (hc : blank c = false) : c ∈ trimmedLine line ↔ c ∈ line := by
  obtain ⟨pre,post,hpre,hpost,hline⟩ := exists_trimmedLine line
  have hnot : ∀ s : Text, (∀ d ∈ s, blank d = true) → c ∉ s := by
    intro s hs hmem
    rw [hs c hmem] at hc
    cases hc
  conv_rhs => rw [hline]
  simp [hnot pre hpre,hnot post hpost]

theorem plain_trimmedLine : Plain (trimmedLine line) ↔ Plain line := by
  constructor
  · intro h c hc
    by_cases hblank : blank c = true
    · exact plain_of_blank (s := [c]) (by simpa using hblank) c List.mem_cons_self
    · exact h c ((mem_trimmedLine (by simpa using hblank)).mpr hc)
  · intro h c hc
    by_cases hblank : blank c = true
    · exact plain_of_blank (s := [c]) (by simpa using hblank) c List.mem_cons_self
    · exact h c ((mem_trimmedLine (by simpa using hblank)).mp hc)

theorem mem_trimTrailing_bar : '|' ∈ trimTrailing line ↔ '|' ∈ line := by
  have hline : trimTrailing line ++ line.rtakeWhile blank = line :=
    List.rdropWhile_append_rtakeWhile
  have hnot : '|' ∉ line.rtakeWhile blank := by
    intro h
    exact absurd (List.mem_rtakeWhile_imp h) (by decide)
  conv_rhs => rw [← hline]
  simp [hnot]

theorem segments_eq_singleton_iff : (segments line).length = 1 ↔ '|' ∉ line := by
  rw [← mem_trimTrailing_bar,segments,length_splitOn,Nat.add_eq_right,List.count_eq_zero]

theorem segments_singleton (h : '|' ∉ line) : segments line = [trimTrailing line] :=
  List.splitOn_eq_singleton (mem_trimTrailing_bar.not.mpr h)

theorem fits_singleton (h : '|' ∉ line) :
    Fits (segments line) ↔ (reading (trimmedLine line)).Bounded := by
  rw [segments_singleton h]
  exact and_iff_left fun _ => trivial

/-- The tokens are the arguments, and the vector is theirs, where none is an operator. -/
theorem extend_eq_plain_iff {r : Reading} (hl : r.lacking = none) :
    Command.fresh.extend r = ⟨ws.map some,none,none,none⟩ ↔ r = ⟨ws,[],none⟩ := by
  constructor
  · intro h
    have hargv := congrArg Command.argv h
    have hredirected := congrArg Command.redirected h
    rw [fresh_extend_argv] at hargv
    have hfiles : r.files = [] := by
      by_contra hn
      rw [extend_redirected Command.fresh hn] at hredirected
      cases hredirected
    have harguments : r.arguments = ws :=
      List.map_injective_iff.mpr (fun _ _ => Option.some.inj) hargv
    rw [← harguments,← hl,← hfiles]
  · rintro rfl
    exact extend_plain ws

theorem readTokens_eq_plain_iff {ts : List Text} :
    readTokens ts = ⟨ws,[],none⟩ ↔ ts = ws ∧ ∀ w ∈ ws, redirectOf w = none := by
  constructor
  · intro h
    have hall := operators_show ts (congrArg Reading.lacking h) (congrArg Reading.files h)
    have hts : ts = ws := by
      rw [readTokens_plain hall] at h
      exact congrArg Reading.arguments h
    exact ⟨hts,hts ▸ hall⟩
  · rintro ⟨rfl,hall⟩
    exact readTokens_plain hall

/-- When the parser makes one plain command of a line. -/
theorem parseLine_plain_iff (hfull : ∀ n, alloc n = true) :
    (parseLine alloc (some line)).1 = some (plainPipeline [ws]) ↔
      '|' ∉ line ∧ tokens (trimmedLine line) = ws ∧ ws ≠ [] ∧
        ∀ w ∈ ws, redirectOf w = none := by
  rw [parseLine_full hfull]
  constructor
  · intro h
    split at h
    next hwf =>
      obtain ⟨hcmds,hlen⟩ := Pipeline.mk.inj (Option.some.inj h)
      have hbar := segments_eq_singleton_iff.mp hlen
      have hseg := segments_singleton hbar
      rw [hseg] at hwf hcmds
      obtain ⟨hlacking,hne⟩ := hwf _ List.mem_cons_self
      have hread := (extend_eq_plain_iff hlacking).mp (List.cons.inj hcmds).1
      have harguments : (segmentReading (trimTrailing line)).arguments = ws :=
        congrArg Reading.arguments hread
      obtain ⟨htokens,hall⟩ := readTokens_eq_plain_iff.mp hread
      exact ⟨hbar,htokens,harguments ▸ hne,hall⟩
    · cases h
  · rintro ⟨hbar,htokens,hne,hall⟩
    have hread : segmentReading (trimTrailing line) = ⟨ws,[],none⟩ :=
      readTokens_eq_plain_iff.mpr ⟨htokens,hall⟩
    have hwf : (segmentReading (trimTrailing line)).WellFormed := by
      rw [hread]
      exact ⟨rfl,hne⟩
    rw [segments_singleton hbar,if_pos (by simpa using hwf)]
    simp [segmentCommand,hread,extend_plain,plainPipeline]

end Segments

section Invocations
variable {alloc : ℕ → Bool} {line : Text} {ws : List Text} {cmd : Command}

theorem shellExecuteLine_exit_iff :
    shellExecuteLine alloc (some line) = .exitRequest ↔ cutLine line = exitText := by
  simp only [shellExecuteLine]
  by_cases h : cutLine line = exitText
  · rw [if_pos h]
    exact iff_of_true rfl h
  · rw [if_neg h]
    refine iff_of_false ?_ h
    split
    · simp
    · split <;> simp

theorem shellExecuteLine_basic_iff (hfull : ∀ n, alloc n = true) :
    shellExecuteLine alloc (some line) = .basic cmd ↔ cutLine line ≠ exitText ∧
      (parseLine alloc (some (cutLine line))).1 = some ⟨[cmd],1⟩ := by
  have hparse := parseLine_full hfull (cutLine line)
  by_cases hexit : cutLine line = exitText
  · simp [shellExecuteLine,hexit]
  · simp only [shellExecuteLine,hexit,if_false,ne_eq,not_false_eq_true,true_and]
    by_cases hwf : ∀ s ∈ segments (cutLine line), (segmentReading s).WellFormed
    · rw [hparse,if_pos hwf]
      cases hsegs : segments (cutLine line) with
      | nil => exact absurd hsegs (segments_ne_nil _)
      | cons segment rest => cases rest <;> simp
    · rw [hparse,if_neg hwf]
      simp

theorem isProgramCommand_head (h : isProgramCommand (some line) = true) :
    ∃ c p, line = c :: p ∧ (c = '/' ∨ c = '.') := by
  cases line with
  | nil => simp [isProgramCommand] at h
  | cons c p =>
    refine ⟨c,p,rfl,?_⟩
    simp only [isProgramCommand,List.getElem?_cons_zero,Option.some.injEq,Bool.or_eq_true,
      Bool.and_eq_true,decide_eq_true_eq] at h
    exact h.imp id And.left

theorem content_trimmedLine (line : Text) : content (trimmedLine line) ≤ content line := by
  obtain ⟨pre,post,_,_,hline⟩ := exists_trimmedLine line
  have hsum := congrArg content hline
  simp only [content_append] at hsum
  omega

/-- A line that is cut at a newline loses a character of its words. -/
theorem no_newline_of_words (h : tokens (trimmedLine (cutLine line)) = words blank line) :
    '\n' ∉ line := by
  intro hn
  have hle := (content_tokens (trimmedLine (cutLine line))).1
  have htrim := content_trimmedLine (cutLine line)
  have hline : cutLine line ++ line.dropWhile (· ≠ '\n') = line := List.takeWhile_append_dropWhile
  have hrest : 0 < content (line.dropWhile (· ≠ '\n')) := by
    by_contra hzero
    have hblank := content_le_iff.mp (Nat.eq_zero_of_not_pos hzero)
    rw [← hline,List.mem_append] at hn
    rcases hn with hn | hn
    · exact absurd (List.mem_takeWhile_imp hn) (by decide)
    · exact absurd (hblank _ hn) (by decide)
  have hsum := congrArg content hline
  have hwords : content (words blank line).flatten = content line := by
    rw [flatten_words]
    simp [content,List.countP_filter]
  rw [content_append] at hsum
  rw [h,hwords] at hle
  omega

theorem cutLine_of_no_newline (h : '\n' ∉ line) : cutLine line = line := by
  refine List.takeWhile_eq_self_iff.mpr fun c hc => ?_
  simpa using fun he : c = '\n' => h (he ▸ hc)

/-- The server and the local shell perform one invocation for a line exactly where it has
nothing but words. -/
theorem sameInvocation_iff (hfull : ∀ n, alloc n = true) {command : Text}
    (hlen : command.length ≤ 1023) (hd : isDemoCommand (some command) = false)
    (hp : isProgramCommand (some command) = true) :
    SameInvocation alloc command ↔ OnlyWords command := by
  have hserver := programInvocation_full hfull hd hp
  constructor
  · rintro ⟨argv,hargv,hparse,hbounds,hshell⟩
    obtain rfl : words blank command = argv := Option.some.inj (hserver.symm.trans hargv)
    obtain ⟨hbar,htokens,_,hall⟩ := (parseLine_plain_iff hfull).mp hparse
    obtain ⟨_,hcut⟩ := (shellExecuteLine_basic_iff hfull).mp hshell
    obtain ⟨_,hcutTokens,_,_⟩ := (parseLine_plain_iff hfull).mp hcut
    have hfits : Fits (segments command) := by
      by_contra hn
      obtain ⟨a,ha,hout⟩ := parseLine_overruns hfull hn
      exact hout (hbounds a ha)
    have hread : reading (trimmedLine command) = ⟨words blank command,[],none⟩ :=
      readTokens_eq_plain_iff.mpr ⟨htokens,hall⟩
    have hroom := (fits_singleton hbar).mp hfits
    rw [hread] at hroom
    refine ⟨no_newline_of_words hcutTokens,hbar,?_,hall,hroom.2 rfl⟩
    rw [← words_trimmedLine,tokens_eq_words_iff,plain_trimmedLine] at htokens
    exact htokens
  · intro h
    have htokens : tokens (trimmedLine command) = words blank command := by
      rw [← words_trimmedLine,tokens_eq_words_iff,plain_trimmedLine]
      exact h.plain
    have hread : reading (trimmedLine command) = ⟨words blank command,[],none⟩ :=
      readTokens_eq_plain_iff.mpr ⟨htokens,h.noOperator⟩
    obtain ⟨c,p,hc,hstart⟩ := isProgramCommand_head hp
    have hne : words blank command ≠ [] := by
      rw [hc]
      exact words_ne_nil (by rcases hstart with rfl | rfl <;> rfl) p
    have hexit : command ≠ exitText := by
      rw [hc]
      rintro he
      obtain rfl := (List.cons.inj he).1
      exact absurd hstart (by decide)
    have hparse := (parseLine_plain_iff hfull).mpr ⟨h.oneSegment,htokens,hne,h.noOperator⟩
    have hcut := cutLine_of_no_newline h.oneLine
    refine ⟨words blank command,hserver,hparse,?_,?_⟩
    · apply parseLine_inBounds alloc hlen
      rw [fits_singleton h.oneSegment,hread]
      exact ⟨h.fits.le,fun _ => h.fits⟩
    · rw [shellExecuteLine_basic_iff hfull,hcut]
      exact ⟨hexit,hparse⟩

end Invocations

/-- `/bin/echo a` and, behind a tab, `b`. -/
def plainEcho : Text :=
  ['/','b','i','n','/','e','c','h','o',' ','a','\t','b']

theorem plainEcho_same : SameInvocation (fun _ => true) plainEcho :=
  (sameInvocation_iff (fun _ => rfl) (by decide) (by decide) (by decide)).mpr
    ⟨by decide,by decide,by decide +kernel,by decide +kernel,by decide +kernel⟩

/-- `/bin/echo 'a b'` -/
def quotedEcho : Text :=
  ['/','b','i','n','/','e','c','h','o',' ','\'','a',' ','b','\'']

theorem quotedEcho_differs : isProgramCommand (some quotedEcho) = true ∧
    isDemoCommand (some quotedEcho) = false ∧
    (parseLine (fun _ => true) (some quotedEcho)).1.isSome = true ∧
    ¬ SameInvocation (fun _ => true) quotedEcho := by
  refine ⟨by decide,by decide,by decide +kernel,?_⟩
  rintro ⟨argv,hargv,hparse,_⟩
  have hserver : programInvocation (fun _ => true) quotedEcho =
      some [['/','b','i','n','/','e','c','h','o'],['\'','a'],['b','\'']] := by decide +kernel
  obtain rfl := Option.some.inj (hserver.symm.trans hargv)
  revert hparse
  decide +kernel

end UnixShell.Shell
