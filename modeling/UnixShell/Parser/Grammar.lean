import UnixShell.Parser.Lines

/-! # What a line says

The words of a segment are what `next_token` reads from it one after another.
Read as a command they are arguments, redirections with their files, and the
operator that lacks its file, where the reading ends. The parser computes just
this, whatever the allocator does, and when nothing fails it returns the
pipeline of these readings or nothing.
-/
namespace UnixShell.Parser

/-- The tokens of a text, up to its end or an unmatched quote. -/
def tokens (s : Text) : List Text :=
  match _h : (nextToken s).token with
  | none => []
  | some t => t :: tokens (nextToken s).input
termination_by s.length
decreasing_by exact nextToken_shorter _h

theorem tokens_none {s : Text} (h : (nextToken s).token = none) : tokens s = [] := by
  rw [tokens]
  split
  · rfl
  next t ht => rw [h] at ht; cases ht

theorem tokens_some {s t : Text} (h : (nextToken s).token = some t) :
    tokens s = t :: tokens (nextToken s).input := by
  rw [tokens]
  split
  next hn => rw [h] at hn; cases hn
  next t' ht => rw [h] at ht; cases ht; rfl

/-- A token list read as a command. -/
structure Reading where
  arguments : List Text
  files : List (Redirect × Text)
  lacking : Option Redirect
  deriving DecidableEq, Repr

namespace Reading

def empty : Reading := ⟨[],[],none⟩

def argument (r : Reading) (t : Text) : Reading := {r with arguments := t :: r.arguments}

def file (r : Reading) (op : Redirect) (t : Text) : Reading := {r with files := (op,t) :: r.files}

@[simp] theorem argument_arguments (r : Reading) (t : Text) :
    (r.argument t).arguments = t :: r.arguments := rfl
@[simp] theorem argument_files (r : Reading) (t : Text) : (r.argument t).files = r.files := rfl
@[simp] theorem file_arguments (r : Reading) (op : Redirect) (t : Text) :
    (r.file op t).arguments = r.arguments := rfl
@[simp] theorem file_files (r : Reading) (op : Redirect) (t : Text) :
    (r.file op t).files = (op,t) :: r.files := rfl

/-- The tokens make a command: every redirection has its file and there is a program to run. -/
def WellFormed (r : Reading) : Prop := r.lacking = none ∧ r.arguments ≠ []

instance (r : Reading) : Decidable r.WellFormed :=
  inferInstanceAs (Decidable (r.lacking = none ∧ r.arguments ≠ []))

end Reading

def readTokens : List Text → Reading
  | [] => .empty
  | t :: ts =>
    match redirectOf t with
    | none => (readTokens ts).argument t
    | some op =>
      match ts with
      | [] => ⟨[],[],some op⟩
      | f :: ts =>
        if (redirectOf f).isSome then ⟨[],[],some op⟩ else (readTokens ts).file op f

section ReadTokens
variable {t f : Text} {op : Redirect} {ts : List Text}

theorem readTokens_argument (ht : redirectOf t = none) :
    readTokens (t :: ts) = (readTokens ts).argument t := by
  cases ts <;> simp [readTokens,ht]

theorem readTokens_end (ht : redirectOf t = some op) : readTokens [t] = ⟨[],[],some op⟩ := by
  simp [readTokens,ht]

theorem readTokens_lacking (ht : redirectOf t = some op) (hf : (redirectOf f).isSome = true) :
    readTokens (t :: f :: ts) = ⟨[],[],some op⟩ := by
  simp [readTokens,ht,hf]

theorem readTokens_file (ht : redirectOf t = some op) (hf : ¬(redirectOf f).isSome = true) :
    readTokens (t :: f :: ts) = (readTokens ts).file op f := by
  simp [readTokens,ht,hf]

end ReadTokens

def reading (s : Text) : Reading := readTokens (tokens s)

/-- The command after the rest of its tokens is read and nothing fails. -/
def Command.extend (cmd : Command) (r : Reading) : Command :=
  r.files.foldl (fun cmd f => cmd.redirect f.1 (some f.2))
    {cmd with argv := cmd.argv ++ r.arguments.map some}

namespace Command

@[simp] theorem extend_empty (cmd : Command) : cmd.extend .empty = cmd := by
  simp [extend,Reading.empty]

theorem extend_argument (cmd : Command) (r : Reading) (t : Text) :
    cmd.extend (r.argument t) = (cmd.push (some t)).extend r := by
  simp [extend,Reading.argument,push]

theorem extend_file (cmd : Command) (r : Reading) (op : Redirect) (t : Text) :
    cmd.extend (r.file op t) = (cmd.redirect op (some t)).extend r := by
  cases op <;> simp [extend,Reading.file,redirect]

end Command

/-- The turns of the token loop over a segment, by what each call of `next_token` gives. -/
inductive Reads : Text → Reading → Prop
  | stop {s : Text} (hs : (nextToken s).token = none) : Reads s .empty
  | argument {s t : Text} {r : Reading} (hs : (nextToken s).token = some t)
      (ht : redirectOf t = none) (hr : Reads (nextToken s).input r) : Reads s (r.argument t)
  | lacking {s t : Text} {op : Redirect} (hs : (nextToken s).token = some t)
      (ht : redirectOf t = some op)
      (hf : ∀ f, (nextToken (nextToken s).input).token = some f → (redirectOf f).isSome = true) :
      Reads s ⟨[],[],some op⟩
  | file {s t f : Text} {op : Redirect} {r : Reading} (hs : (nextToken s).token = some t)
      (ht : redirectOf t = some op) (hn : (nextToken (nextToken s).input).token = some f)
      (hf : ¬(redirectOf f).isSome = true)
      (hr : Reads (nextToken (nextToken s).input).input r) : Reads s (r.file op f)

theorem reads_reading (s : Text) : Reads s (reading s) := by
  induction hn : s.length using Nat.strong_induction_on generalizing s with
  | _ n ih =>
    subst hn
    unfold reading
    cases hs : (nextToken s).token with
    | none =>
      rw [tokens_none hs]
      exact .stop hs
    | some t =>
      have hlt := nextToken_shorter hs
      rw [tokens_some hs]
      cases ht : redirectOf t with
      | none =>
        rw [readTokens_argument ht]
        exact .argument hs ht (ih _ hlt _ rfl)
      | some op =>
        cases hf : (nextToken (nextToken s).input).token with
        | none =>
          rw [tokens_none hf,readTokens_end ht]
          exact .lacking hs ht (by intro f h; rw [hf] at h; cases h)
        | some f =>
          rw [tokens_some hf]
          by_cases hop : (redirectOf f).isSome = true
          · rw [readTokens_lacking ht hop]
            exact .lacking hs ht (by intro g h; rw [hf] at h; cases h; exact hop)
          · rw [readTokens_file ht hop]
            exact .file hs ht hf hop (ih _ ((nextToken_shorter hf).trans hlt) _ rfl)

section Turns
variable (alloc : ℕ → Bool) (fuel : ℕ) {s t f : Text} {op : Redirect} (cmd : Command) (m : Machine)

theorem parseTokens_stop (hs : (nextToken s).token = none) :
    parseTokens alloc (fuel+1) s cmd m = (some cmd,m.read (nextToken s)) := by
  simp only [parseTokens,hs]

theorem parseTokens_argument (hs : (nextToken s).token = some t) (ht : redirectOf t = none) :
    parseTokens alloc (fuel+1) s cmd m =
      parseTokens alloc fuel (nextToken s).input
        (cmd.push (strdup alloc (m.read (nextToken s)) t).1)
        ((m.read (nextToken s)).allocate.touch [.argv cmd.argv.length]) := by
  simp only [parseTokens,hs,ht,strdup]

theorem parseTokens_lacking (hs : (nextToken s).token = some t) (ht : redirectOf t = some op)
    (hf : ∀ f, (nextToken (nextToken s).input).token = some f → (redirectOf f).isSome = true) :
    parseTokens alloc (fuel+1) s cmd m =
      (none,((m.read (nextToken s)).read (nextToken (nextToken s).input)).print op.missing) := by
  cases hn : (nextToken (nextToken s).input).token with
  | none => simp only [parseTokens,hs,ht,hn]
  | some f => simp only [parseTokens,hs,ht,hn,hf f hn,if_true]

theorem parseTokens_file (hs : (nextToken s).token = some t) (ht : redirectOf t = some op)
    (hn : (nextToken (nextToken s).input).token = some f) (hf : ¬(redirectOf f).isSome = true) :
    parseTokens alloc (fuel+1) s cmd m =
      parseTokens alloc fuel (nextToken (nextToken s).input).input
        (cmd.redirect op (strdup alloc
          ((m.read (nextToken s)).read (nextToken (nextToken s).input)) f).1)
        ((m.read (nextToken s)).read (nextToken (nextToken s).input)).allocate := by
  simp only [parseTokens,hs,ht,hn,hf,Bool.false_eq_true,if_false,strdup]

end Turns

/-- What the token loop makes of a reading, also when copies fail. -/
structure Follows (r : Reading) (cmd : Command) (out : Option Command) : Prop where
  rejected : out = none ↔ r.lacking ≠ none
  argc : ∀ c, out = some c → c.argv.length = cmd.argv.length+r.arguments.length
  redirected : ∀ c, out = some c → c.redirected = true → cmd.redirected = true ∨ r.files ≠ []

namespace Follows
variable {r : Reading} {cmd : Command} {out : Option Command}

theorem argument {copy : Option Text} (h : Follows r (cmd.push copy) out) (t : Text) :
    Follows (r.argument t) cmd out where
  rejected := h.rejected
  argc c hc := by
    have hlen := h.argc c hc
    simp only [Command.push_argv,List.length_append,List.length_singleton] at hlen
    simp only [Reading.argument_arguments,List.length_cons]
    omega
  redirected c hc hd := by simpa using h.redirected c hc hd

theorem file {op : Redirect} {copy : Option Text} (h : Follows r (cmd.redirect op copy) out)
    (f : Text) : Follows (r.file op f) cmd out where
  rejected := h.rejected
  argc c hc := by simpa using h.argc c hc
  redirected _ _ _ := .inr (by simp)

end Follows

theorem parseTokens_follows (alloc : ℕ → Bool) {fuel : ℕ} {s : Text} {r : Reading}
    (hr : Reads s r) (hfuel : s.length < fuel) (cmd : Command) (m : Machine) :
    Follows r cmd (parseTokens alloc fuel s cmd m).1 := by
  induction hr generalizing fuel cmd m with
  | stop hs =>
    obtain ⟨n,rfl⟩ := Nat.exists_eq_add_of_lt hfuel
    rw [parseTokens_stop _ _ _ _ hs]
    exact ⟨by simp [Reading.empty],by simp [Reading.empty],by simp [Reading.empty]⟩
  | argument hs ht hr ih =>
    obtain ⟨n,rfl⟩ := Nat.exists_eq_add_of_lt hfuel
    rw [parseTokens_argument _ _ _ _ hs ht]
    have hlt := nextToken_shorter hs
    exact (ih (by omega) _ _).argument _
  | lacking hs ht hf =>
    obtain ⟨n,rfl⟩ := Nat.exists_eq_add_of_lt hfuel
    rw [parseTokens_lacking _ _ _ _ hs ht hf]
    exact ⟨by simp,by simp,by simp⟩
  | file hs ht hn hf hr ih =>
    obtain ⟨n,rfl⟩ := Nat.exists_eq_add_of_lt hfuel
    rw [parseTokens_file _ _ _ _ hs ht hn hf]
    have hlt := nextToken_shorter hs
    have hlt' := nextToken_shorter hn
    exact (ih (by omega) _ _).file _

/-- When nothing fails, a reading that lacks no file is the command's extension by it. -/
theorem parseTokens_extend {alloc : ℕ → Bool} (hfull : ∀ n, alloc n = true) {fuel : ℕ} {s : Text}
    {r : Reading} (hr : Reads s r) (hfuel : s.length < fuel) (hl : r.lacking = none)
    (cmd : Command) (m : Machine) :
    (parseTokens alloc fuel s cmd m).1 = some (cmd.extend r) := by
  induction hr generalizing fuel cmd m with
  | stop hs =>
    obtain ⟨n,rfl⟩ := Nat.exists_eq_add_of_lt hfuel
    rw [parseTokens_stop _ _ _ _ hs,Command.extend_empty]
  | argument hs ht hr ih =>
    obtain ⟨n,rfl⟩ := Nat.exists_eq_add_of_lt hfuel
    have hlt := nextToken_shorter hs
    rw [parseTokens_argument _ _ _ _ hs ht,ih (by omega) hl,Command.extend_argument]
    simp only [strdup,hfull,if_true]
  | lacking hs ht hf => cases hl
  | file hs ht hn hf hr ih =>
    obtain ⟨n,rfl⟩ := Nat.exists_eq_add_of_lt hfuel
    have hlt := nextToken_shorter hs
    have hlt' := nextToken_shorter hn
    rw [parseTokens_file _ _ _ _ hs ht hn hf,ih (by omega) hl,Command.extend_file]
    simp only [strdup,hfull,if_true]


/-- What a segment says. -/
def segmentReading (segment : Text) : Reading := reading (trimWhitespace segment)

/-- The command a segment gives. -/
def segmentCommand (segment : Text) : Command := Command.fresh.extend (segmentReading segment)

theorem foldl_redirect_argv (fs : List (Redirect × Text)) (cmd : Command) :
    (fs.foldl (fun cmd f => cmd.redirect f.1 (some f.2)) cmd).argv = cmd.argv := by
  induction fs generalizing cmd with
  | nil => rfl
  | cons f fs ih => rw [List.foldl_cons,ih,Command.redirect_argv]

theorem foldl_redirect_redirected (fs : List (Redirect × Text)) (cmd : Command)
    (h : cmd.redirected = true) :
    (fs.foldl (fun cmd f => cmd.redirect f.1 (some f.2)) cmd).redirected = true := by
  induction fs generalizing cmd with
  | nil => exact h
  | cons f fs ih => exact ih _ (Command.redirect_some_redirected cmd f.1 f.2)

@[simp] theorem fresh_extend_argv (r : Reading) :
    (Command.fresh.extend r).argv = r.arguments.map some := by
  rw [Command.extend,foldl_redirect_argv]
  simp [Command.fresh]

theorem extend_redirected (cmd : Command) {r : Reading} (h : r.files ≠ []) :
    (cmd.extend r).redirected = true := by
  unfold Command.extend
  cases hf : r.files with
  | nil => exact absurd hf h
  | cons f fs =>
    exact foldl_redirect_redirected fs _ (Command.redirect_some_redirected _ f.1 f.2)

theorem segmentReading_blank {segment : Text} (h : trimWhitespace segment = []) :
    segmentReading segment = .empty := by
  rw [segmentReading,reading,h,tokens_none rfl]
  rfl

/-- The parser comes to the segments after this one: its redirections have their files, and
there is a program to run or the error about that is put off. -/
def Reading.GoesOn (r : Reading) (rest : List Text) : Prop :=
  r.lacking = none ∧ (r.arguments ≠ [] ∨ rest ≠ [] ∧ r.files ≠ [])

section AnyAllocator
variable {alloc : ℕ → Bool} {segment : Text} {rest : List Text} {b b' : Building} {m : Machine}

theorem closeCommand_goesOn {cmd : Command} {r : Reading}
    (hf : Follows r Command.fresh (some cmd)) (h : (closeCommand rest b cmd m).1 = some b') :
    r.GoesOn rest := by
  have hlen := hf.argc cmd rfl
  have hl : r.lacking = none := by
    by_contra hl
    cases hf.rejected.mpr hl
  unfold closeCommand at h
  split at h
  next hargc =>
    split at h
    next hd =>
      rcases hf.redirected cmd rfl hd.2 with hx | hx
      · cases hx
      · exact ⟨hl,.inr ⟨hd.1,hx⟩⟩
    · cases h
  next hargc =>
    refine ⟨hl,.inl ?_⟩
    rintro hnil
    simp [hnil,Command.fresh] at hlen
    exact hargc (by simp [hlen])

theorem fillCommand_goesOn {trimmed : Text}
    (h : (fillCommand alloc trimmed rest b m).1 = some b') : (reading trimmed).GoesOn rest := by
  have hf := parseTokens_follows alloc (reads_reading trimmed)
    (Nat.lt_succ_self trimmed.length) Command.fresh m.allocate
  unfold fillCommand at h
  split at h
  · split at h
    · cases h
    next cmd m' hp =>
      rw [hp] at hf
      exact closeCommand_goesOn hf h
  · cases h

theorem parseSegment_goesOn (h : (parseSegment alloc segment rest b m).1 = some b') :
    (segmentReading segment).GoesOn rest := by
  unfold parseSegment at h
  split at h
  · cases h
  · split at h
    · cases h
    · exact fillCommand_goesOn h

end AnyAllocator

/-- The pipeline after a segment that did not end the parse. -/
structure Advanced (r : Reading) (b b' : Building) : Prop where
  command : r.arguments ≠ [] → b'.commands = b.commands ++ [Command.fresh.extend r] ∧
    b'.deferredEmptySegment = b.deferredEmptySegment
  postponed : r.arguments = [] → b'.deferredEmptySegment = true

section Full
variable {alloc : ℕ → Bool} (hfull : ∀ n, alloc n = true)
variable {segment : Text} {rest : List Text} {r : Reading}

theorem closeCommand_full (h : r.GoesOn rest) (b : Building) (m : Machine) :
    ∃ b', (closeCommand rest b (Command.fresh.extend r) m).1 = some b' ∧ Advanced r b b' := by
  unfold closeCommand
  by_cases ha : r.arguments = []
  · rcases h.2 with hn | ⟨hrest,hfiles⟩
    · exact absurd ha hn
    · have hd := extend_redirected Command.fresh hfiles
      simp only [fresh_extend_argv,List.length_map,ha,List.length_nil,if_true,hd,and_true,hrest,
        ne_eq,not_false_eq_true]
      exact ⟨_,rfl,fun hn => absurd ha hn,fun _ => rfl⟩
  · have hlen : (Command.fresh.extend r).argv.length ≠ 0 := by simpa using ha
    rw [if_neg hlen]
    exact ⟨_,rfl,fun _ => ⟨rfl,rfl⟩,fun hn => absurd hn ha⟩

include hfull

theorem fillCommand_full {trimmed : Text} (h : (reading trimmed).GoesOn rest) (b : Building)
    (m : Machine) :
    ∃ b', (fillCommand alloc trimmed rest b m).1 = some b' ∧ Advanced (reading trimmed) b b' := by
  have hp := parseTokens_extend hfull (reads_reading trimmed) (Nat.lt_succ_self trimmed.length)
    h.1 Command.fresh m.allocate
  unfold fillCommand
  rw [if_pos (hfull _)]
  split
  next hnone => rw [hnone] at hp; cases hp
  next cmd m' hsome =>
    rw [hsome] at hp
    cases hp
    exact closeCommand_full h b m'

theorem grow_full (b : Building) (m : Machine) :
    ∃ cap, (grow alloc b m).1 = some {b with capacity := cap} := by
  unfold grow
  split
  · exact ⟨b.capacity*2,by rw [hfull]; rfl⟩
  · exact ⟨b.capacity,rfl⟩

theorem parseSegment_full (h : (segmentReading segment).GoesOn rest) (b : Building) (m : Machine) :
    ∃ b', (parseSegment alloc segment rest b m).1 = some b' ∧
      Advanced (segmentReading segment) b b' := by
  have ht : trimWhitespace segment ≠ [] := by
    intro ht
    rw [segmentReading_blank ht] at h
    rcases h.2 with hn | ⟨_,hn⟩ <;> exact hn rfl
  obtain ⟨cap,hg⟩ := grow_full hfull b m
  unfold parseSegment
  rw [if_neg ht]
  split
  next hnone => rw [hnone] at hg; cases hg
  next b₁ m₁ hsome =>
    rw [hsome] at hg
    cases hg
    obtain ⟨b',hb,hadv⟩ := fillCommand_full hfull h {b with capacity := cap}
      (m₁.touch [.commands b.commands.length cap])
    exact ⟨b',hb,hadv.command,hadv.postponed⟩

/-- One command a segment, and a pipeline only when every segment makes a command. -/
theorem parseSegments_full (segs : List Text) (b : Building) (m : Machine)
    (hne : b.commands ≠ [] ∨ segs ≠ []) :
    (parseSegments alloc segs b m).1 =
      if b.deferredEmptySegment = false ∧ ∀ s ∈ segs, (segmentReading s).WellFormed then
        some ⟨b.commands ++ segs.map segmentCommand,b.commands.length+segs.length⟩
      else none := by
  induction segs generalizing b m with
  | nil =>
    have hb : b.commands.length ≠ 0 := by simpa using hne
    simp only [parseSegments,finishLine,hb,if_false]
    cases b.deferredEmptySegment <;> simp
  | cons s segs ih =>
    simp only [parseSegments,List.forall_mem_cons]
    rcases hp : parseSegment alloc s segs b m with ⟨_ | b',m'⟩
    · have hs : ¬(segmentReading s).WellFormed := by
        intro hs
        have hg : (segmentReading s).GoesOn segs := ⟨hs.1,.inl hs.2⟩
        obtain ⟨b',hb,_⟩ := parseSegment_full hfull hg b m
        rw [hp] at hb
        cases hb
      simp [hs]
    · have hg : (segmentReading s).GoesOn segs := parseSegment_goesOn (by rw [hp])
      obtain ⟨_,hb,hadv⟩ := parseSegment_full hfull hg b m
      rw [hp] at hb
      cases hb
      by_cases ha : (segmentReading s).arguments = []
      · have hs : ¬(segmentReading s).WellFormed := fun hs => hs.2 ha
        have hsegs : segs ≠ [] := hg.2.elim (absurd ha) And.left
        rw [ih b' m' (.inr hsegs),hadv.postponed ha]
        simp [hs]
      · have hs : (segmentReading s).WellFormed := ⟨hg.1,ha⟩
        obtain ⟨hcmds,hdef⟩ := hadv.command ha
        rw [ih b' m' (.inl (by simp [hcmds])),hcmds,hdef]
        simp only [hs,true_and,List.map_cons,List.append_assoc,List.singleton_append,
          List.length_append,List.length_cons,segmentCommand]
        congr 3
        simp only [List.length_nil]
        omega

end Full

section Splitting
variable {α : Type*} [BEq α] {a : α} {xs : List α}

/-- Each separator ends one part, and the end of the list the last. -/
theorem length_splitOn : (xs.splitOn a).length = xs.count a+1 := by
  induction xs with
  | nil => simp
  | cons x xs ih =>
    rw [List.splitOn_cons_eq_if_modifyHead,List.count_cons]
    split
    · rw [List.length_cons,ih]
    · rw [List.length_modifyHead,ih,Nat.add_zero]

theorem length_le_of_mem_splitOn {part : List α} (h : part ∈ xs.splitOn a) :
    part.length ≤ xs.length := by
  induction xs generalizing part with
  | nil => simpa using h
  | cons x xs ih =>
    rw [List.splitOn_cons_eq_if_modifyHead] at h
    rw [List.length_cons]
    split at h
    · rcases List.mem_cons.mp h with rfl | h
      · exact Nat.zero_le _
      · exact (ih h).trans (Nat.le_succ _)
    · cases hs : xs.splitOn a with
      | nil => exact absurd hs (List.splitOn_ne_nil a xs)
      | cons p ps =>
        rw [hs] at h ih
        rcases List.mem_cons.mp h with rfl | h
        · exact Nat.succ_le_succ (ih List.mem_cons_self)
        · exact (ih (List.mem_cons_of_mem p h)).trans (Nat.le_succ _)

end Splitting

theorem segments_ne_nil (line : Text) : segments line ≠ [] := List.splitOn_ne_nil _ _

/-- A line of blanks is one empty segment. -/
theorem segments_blank {line : Text} (h : trimWhitespace line = []) : segments line = [[]] := by
  have hall := List.rdropWhile_eq_nil_iff.mp h
  have hdrop : line.dropWhile blank = [] := by
    cases hd : line.dropWhile blank with
    | nil => rfl
    | cons c p =>
      rw [hd] at hall
      exact absurd (hall c List.mem_cons_self) (not_blank_of_dropWhile hd)
  have htrail : trimTrailing line = [] :=
    List.rdropWhile_eq_nil_iff.mpr (List.dropWhile_eq_nil_iff.mp hdrop)
  rw [segments,htrail,List.splitOn_nil]

/-- The whole parser when no request fails: the commands of the segments, or nothing. -/
theorem parseLine_full {alloc : ℕ → Bool} (hfull : ∀ n, alloc n = true) (line : Text) :
    (parseLine alloc (some line)).1 =
      if ∀ s ∈ segments line, (segmentReading s).WellFormed then
        some ⟨(segments line).map segmentCommand,(segments line).length⟩
      else none := by
  simp only [parseLine,hfull,if_true]
  split
  next hblank =>
    have hs : ¬(segmentReading []).WellFormed := by
      rw [segmentReading_blank rfl]
      exact fun h => h.2 rfl
    simp [segments_blank hblank,hs]
  · rw [parseSegments_full hfull _ _ _ (.inr (segments_ne_nil line))]
    simp [Building.start]

end UnixShell.Parser
