import UnixShell.Parser.Bounds
import UnixShell.Parser.Plain

/-! # The lines that the parser accepts

On a line without quotes the words are cut at blanks, and a word's part in its command
shows in the word itself and the one in front of it. The parser accepts the lines in whose
segments every operator has a file and some word is left over, and it says once why it
does not accept one.
-/
namespace UnixShell.Parser
open Foundation

section Grammar
variable {ws : List Text} {w t : Text} {op : Redirect} {before : Option Redirect}

/-- Each word with the operator that the word in front of it is; `before` is for the first. -/
def behind (before : Option Redirect) (ws : List Text) : List (Option Redirect × Text) :=
  (before :: ws.map redirectOf).zip ws

/-- The words that are neither an operator nor the file name of one. -/
def remaining (ws : List Text) : List Text :=
  ((behind none ws).filter fun x => x.1 = none ∧ redirectOf x.2 = none).map Prod.snd

/-- The word after the last such operator. -/
def fileAfter (op : Redirect) (ws : List Text) : Option Text :=
  (((behind none ws).filter fun x => x.1 = some op).map Prod.snd).getLast?

/-- Every operator is followed by a word that is none. -/
def OperatorsHaveFiles (ws : List Text) : Prop :=
  ∀ i w, ws[i]? = some w → redirectOf w ≠ none → ∃ f, ws[i+1]? = some f ∧ redirectOf f = none

/-- The words of a segment that the parser accepts. -/
def Grammatical (ws : List Text) : Prop := OperatorsHaveFiles ws ∧ remaining ws ≠ []

def commandOf (ws : List Text) : Command :=
  ⟨(remaining ws).map some,fileAfter .input ws,fileAfter .output ws,fileAfter .error ws⟩

theorem behind_cons : behind before (w :: ws) = (before,w) :: behind (redirectOf w) ws := rfl

/-- The words by what stands in front of them, in a list whose first word is an argument. -/
theorem operatorsHaveFiles_argument (ht : redirectOf t = none) :
    OperatorsHaveFiles (t :: ws) ↔ OperatorsHaveFiles ws := by
  constructor
  · intro h i w hw hop
    exact h (i+1) w hw hop
  · intro h i w hw hop
    cases i with
    | zero =>
      cases hw
      exact absurd ht hop
    | succ i => exact h i w hw hop

theorem operatorsHaveFiles_file {f : Text} (hf : redirectOf f = none) :
    OperatorsHaveFiles (t :: f :: ws) ↔ OperatorsHaveFiles ws := by
  refine Iff.trans ?_ (operatorsHaveFiles_argument hf)
  constructor
  · intro h i w hw hop
    exact h (i+1) w hw hop
  · intro h i w hw hop
    cases i with
    | zero => exact ⟨f,rfl,hf⟩
    | succ i => exact h i w hw hop

/-- What the reading has of the words, whatever stands before them. -/
structure Read (ws : List Text) (r : Reading) : Prop where
  lacking : r.lacking = none ↔ OperatorsHaveFiles ws
  arguments : r.lacking = none → r.arguments = remaining ws
  atMost : r.arguments.length ≤ (remaining ws).length
  files : r.lacking = none → ∀ op,
    ((r.files.filter fun x => x.1 = op).map Prod.snd) =
      ((behind none ws).filter fun x => x.1 = some op).map Prod.snd

theorem remaining_argument (ht : redirectOf t = none) :
    remaining (t :: ws) = t :: remaining ws := by
  simp [remaining,behind_cons,ht]

theorem remaining_file {f : Text} (ht : redirectOf t = some op) (hf : redirectOf f = none) :
    remaining (t :: f :: ws) = remaining ws := by
  simp [remaining,behind_cons,ht,hf]

theorem Read.argument {r : Reading} (h : Read ws r) (ht : redirectOf t = none) :
    Read (t :: ws) (r.argument t) := by
  constructor
  · rw [operatorsHaveFiles_argument ht]
    exact h.lacking
  · intro hl
    rw [Reading.argument_arguments,remaining_argument ht,h.arguments hl]
  · rw [remaining_argument ht]
    exact Nat.succ_le_succ h.atMost
  · intro hl op
    rw [Reading.argument_files,h.files hl op]
    simp [behind_cons,ht]

theorem Read.file {r : Reading} {f : Text} (h : Read ws r) (ht : redirectOf t = some op)
    (hf : redirectOf f = none) : Read (t :: f :: ws) (r.file op f) := by
  constructor
  · rw [operatorsHaveFiles_file hf]
    exact h.lacking
  · intro hl
    rw [Reading.file_arguments,remaining_file ht hf,h.arguments hl]
  · rw [remaining_file ht hf]
    exact h.atMost
  · intro hl op'
    have hfiles := h.files hl op'
    simp only [behind_cons,ht,hf,Reading.file_files]
    by_cases hop : op = op'
    · simp [hop,hfiles]
    · simp [hop,hfiles]

theorem Read.lacks (h : ¬ OperatorsHaveFiles ws) : Read ws ⟨[],[],some op⟩ := by
  constructor
  · exact iff_of_false (by simp) h
  · intro hl
    cases hl
  · exact Nat.zero_le _
  · intro hl
    cases hl

theorem read_readTokens (ws : List Text) : Read ws (readTokens ws) := by
  induction ws using readTokens.induct with
  | case1 =>
    constructor
    · exact iff_of_true rfl fun i w hw => by cases hw
    · exact fun _ => rfl
    · exact le_rfl
    · exact fun _ _ => rfl
  | case2 t ts ht ih =>
    rw [readTokens_argument ht]
    exact ih.argument ht
  | case3 t op ht =>
    rw [readTokens_end ht]
    apply Read.lacks
    intro h
    obtain ⟨f,hf,_⟩ := h 0 t rfl (by simp [ht])
    cases hf
  | case4 t op ht f ts hf =>
    rw [readTokens_lacking ht hf]
    apply Read.lacks
    intro h
    obtain ⟨g,hg,hnone⟩ := h 0 t rfl (by simp [ht])
    cases hg
    simp [hnone] at hf
  | case5 t op ht f ts hf ih =>
    rw [readTokens_file ht hf]
    exact ih.file ht (by simpa using hf)

theorem wellFormed_iff_grammatical : (readTokens ws).WellFormed ↔ Grammatical ws := by
  have h := read_readTokens ws
  constructor
  · rintro ⟨hl,ha⟩
    exact ⟨h.lacking.mp hl,h.arguments hl ▸ ha⟩
  · rintro ⟨hfiles,hr⟩
    have hl := h.lacking.mpr hfiles
    exact ⟨hl,h.arguments hl ▸ hr⟩

instance : DecidablePred Grammatical := fun _ => decidable_of_iff _ wellFormed_iff_grammatical

/-- The field that an operator sets. -/
def Command.file (cmd : Command) : Redirect → Option Text
  | .input => cmd.inputFile
  | .output => cmd.outputFile
  | .error => cmd.errorFile

theorem file_redirect (cmd : Command) (op op' : Redirect) (file : Option Text) :
    (cmd.redirect op file).file op' = if op = op' then file else cmd.file op' := by
  cases op <;> cases op' <;> rfl

/-- The last file given to an operator stays. -/
theorem file_foldl_redirect (fs : List (Redirect × Text)) (cmd : Command) (op : Redirect) :
    (fs.foldl (fun cmd f => cmd.redirect f.1 (some f.2)) cmd).file op =
      (((fs.filter fun x => x.1 = op).map Prod.snd).getLast?).or (cmd.file op) := by
  induction fs generalizing cmd with
  | nil => rfl
  | cons f fs ih =>
    rw [List.foldl_cons,ih,file_redirect]
    by_cases hop : f.1 = op
    · rw [List.filter_cons_of_pos (by simpa using hop),List.map_cons,List.getLast?_cons,if_pos hop]
      cases ((fs.filter fun x => x.1 = op).map Prod.snd).getLast? <;> rfl
    · rw [List.filter_cons_of_neg (by simpa using hop),if_neg hop]

theorem command_ext {cmd cmd' : Command} (ha : cmd.argv = cmd'.argv)
    (hf : ∀ op, cmd.file op = cmd'.file op) : cmd = cmd' := by
  rcases cmd with ⟨argv,input,output,error⟩
  rcases cmd' with ⟨argv',input',output',error'⟩
  obtain rfl := ha
  obtain rfl := hf .input
  obtain rfl := hf .output
  obtain rfl := hf .error
  rfl

theorem fresh_extend_readTokens (h : OperatorsHaveFiles ws) :
    Command.fresh.extend (readTokens ws) = commandOf ws := by
  have hread := read_readTokens ws
  have hl := hread.lacking.mpr h
  apply command_ext
  · rw [fresh_extend_argv,hread.arguments hl]
    rfl
  · intro op
    rw [Command.extend,file_foldl_redirect,hread.files hl op]
    cases op <;> simp [Command.file,Command.fresh,commandOf,fileAfter]

end Grammar

section Segments
variable {line segment : Text}

theorem words_trimTrailing (s : Text) : words blank (trimTrailing s) = words blank s := by
  have hs : trimTrailing s ++ s.rtakeWhile blank = s := List.rdropWhile_append_rtakeWhile
  conv_rhs => rw [← hs]
  rw [words_append_separators fun c hc => List.mem_rtakeWhile_imp hc]

theorem words_trimWhitespace (s : Text) : words blank (trimWhitespace s) = words blank s := by
  rw [trimWhitespace,words_trimTrailing,words_dropWhile]

theorem Plain.sublist {s t : Text} (h : Plain t) (hs : s.Sublist t) : Plain s :=
  fun c hc => h c (hs.subset hc)

theorem plain_trimWhitespace {s : Text} (h : Plain s) : Plain (trimWhitespace s) :=
  h.sublist ((List.rdropWhile_prefix blank _).sublist.trans (List.dropWhile_sublist _))

theorem segmentReading_plain (h : Plain segment) :
    segmentReading segment = readTokens (words blank segment) := by
  rw [segmentReading,reading,tokens_plain (plain_trimWhitespace h),words_trimWhitespace]

/-- Blanks at the end of the line belong to the last segment. -/
theorem words_splitOn_blanks {t bs : Text} (hb : ∀ c ∈ bs, blank c = true) :
    ((t ++ bs).splitOn '|').map (words blank) = (t.splitOn '|').map (words blank) := by
  induction hn : t.length using Nat.strong_induction_on generalizing t with
  | _ n ih =>
    subst hn
    have hbar : '|' ∉ bs := fun hmem => absurd (hb _ hmem) (by decide)
    by_cases ht : '|' ∈ t
    · obtain ⟨u,v,rfl⟩ := List.append_of_mem ht
      rw [List.append_assoc,List.cons_append,List.splitOn_append_cons_self,
        List.splitOn_append_cons_self,List.map_append,List.map_append,
        ih v.length (by simp; omega) rfl]
    · rw [List.splitOn_eq_singleton ht,List.splitOn_eq_singleton (by simp [ht,hbar]),
        List.map_singleton,List.map_singleton,words_append_separators hb]

theorem words_segments (line : Text) :
    (segments line).map (words blank) = (line.splitOn '|').map (words blank) := by
  have hline : trimTrailing line ++ line.rtakeWhile blank = line :=
    List.rdropWhile_append_rtakeWhile
  conv_rhs => rw [← hline]
  rw [words_splitOn_blanks fun c hc => List.mem_rtakeWhile_imp hc,segments]

end Segments

section Diagnostics
variable {alloc : ℕ → Bool} {s segment : Text} {r : Reading} {rest : List Text} {b : Building}
  {m : Machine} {α : Type*}

/-- One line is printed where nothing is returned, and none where something is. -/
def Diagnosed (m : Machine) (out : Option α × Machine) : Prop :=
  match out.1 with
  | none => ∃ line, out.2.stderr = m.stderr ++ [line]
  | some _ => out.2.stderr = m.stderr

@[simp] theorem allocate_stderr (m : Machine) : m.allocate.stderr = m.stderr := rfl
@[simp] theorem touch_stderr (m : Machine) (as : List Access) :
    (m.touch as).stderr = m.stderr := rfl
@[simp] theorem print_stderr (m : Machine) (line : String) :
    (m.print line).stderr = m.stderr ++ [line] := rfl
@[simp] theorem freeCommands_stderr (b : Building) (count : ℕ) (m : Machine) :
    (freeCommands b count m).stderr = m.stderr := rfl

theorem nextToken_stderr (h : Plain s) : (nextToken s).stderr = [] := by
  cases hskip : s.dropWhile blank with
  | nil => simp only [nextToken,hskip]
  | cons c p => rw [nextToken_plain h hskip]

theorem read_stderr (h : Plain s) : (m.read (nextToken s)).stderr = m.stderr := by
  simp [Machine.read,nextToken_stderr h]

theorem plain_input (h : Plain s) : Plain (nextToken s).input := by
  cases hskip : s.dropWhile blank with
  | nil =>
    simp only [nextToken,hskip]
    exact fun c hc => by cases hc
  | cons c p =>
    have hsub := (List.dropWhile_sublist (l := s) blank)
    rw [hskip] at hsub
    rw [nextToken_plain h hskip]
    exact h.sublist ((List.dropWhile_sublist _).trans hsub)

theorem Diagnosed.of_stderr_eq {m' : Machine} {out : Option α × Machine} (h : Diagnosed m' out)
    (hm : m'.stderr = m.stderr) : Diagnosed m out := by
  unfold Diagnosed at h ⊢
  rw [hm] at h
  exact h

theorem parseTokens_diagnosed (alloc : ℕ → Bool) (hr : Reads s r) {fuel : ℕ}
    (hfuel : s.length < fuel) (hs : Plain s) (cmd : Command) (m : Machine) :
    Diagnosed m (parseTokens alloc fuel s cmd m) := by
  induction hr generalizing fuel cmd m with
  | stop ht =>
    obtain ⟨n,rfl⟩ := Nat.exists_eq_add_of_lt hfuel
    rw [parseTokens_stop _ _ _ _ ht]
    exact read_stderr hs
  | argument ht hop hr ih =>
    obtain ⟨n,rfl⟩ := Nat.exists_eq_add_of_lt hfuel
    have hlt := nextToken_shorter ht
    rw [parseTokens_argument _ _ _ _ ht hop]
    exact (ih (by omega) (plain_input hs) _ _).of_stderr_eq (read_stderr hs)
  | @lacking s t op ht hop hf =>
    obtain ⟨n,rfl⟩ := Nat.exists_eq_add_of_lt hfuel
    rw [parseTokens_lacking _ _ _ _ ht hop hf]
    refine ⟨op.missing,?_⟩
    rw [print_stderr,read_stderr (plain_input hs),read_stderr hs]
  | file ht hop hn hf hr ih =>
    obtain ⟨n,rfl⟩ := Nat.exists_eq_add_of_lt hfuel
    have hlt := nextToken_shorter ht
    have hlt' := nextToken_shorter hn
    rw [parseTokens_file _ _ _ _ ht hop hn hf]
    apply (ih (by omega) (plain_input (plain_input hs)) _ _).of_stderr_eq
    rw [allocate_stderr,read_stderr (plain_input hs),read_stderr hs]

theorem closeCommand_diagnosed (rest : List Text) (b : Building) (cmd : Command) (m : Machine) :
    Diagnosed m (closeCommand rest b cmd m) := by
  unfold closeCommand
  split_ifs
  · rfl
  · exact ⟨_,rfl⟩
  · rfl

theorem fillCommand_diagnosed (hfull : ∀ n, alloc n = true) {trimmed : Text} (hs : Plain trimmed)
    (rest : List Text) (b : Building) (m : Machine) :
    Diagnosed m (fillCommand alloc trimmed rest b m) := by
  have hp := parseTokens_diagnosed alloc (reads_reading trimmed)
    (Nat.lt_succ_self trimmed.length) hs Command.fresh m.allocate
  unfold fillCommand
  rw [if_pos (hfull _)]
  split
  · rename_i m' hm
    rw [hm] at hp
    exact hp
  · rename_i cmd m' hm
    rw [hm] at hp
    exact (closeCommand_diagnosed rest b cmd m').of_stderr_eq hp

theorem grow_diagnosed (hfull : ∀ n, alloc n = true) (b : Building) (m : Machine) :
    (grow alloc b m).2.stderr = m.stderr := by
  unfold grow
  rw [if_pos (hfull _)]
  split_ifs
  · rfl
  · rfl

theorem parseSegment_diagnosed (hfull : ∀ n, alloc n = true) (hs : Plain segment)
    (rest : List Text) (b : Building) (m : Machine) :
    Diagnosed m (parseSegment alloc segment rest b m) := by
  obtain ⟨cap,hgrow⟩ := grow_full hfull b m
  have hstderr := grow_diagnosed hfull b m
  unfold parseSegment
  split_ifs
  · exact ⟨_,rfl⟩
  · split
    · rename_i hnone
      rw [hnone] at hgrow
      cases hgrow
    · rename_i b' m' hsome
      rw [hsome] at hstderr
      exact (fillCommand_diagnosed hfull (plain_trimWhitespace hs) rest b' _).of_stderr_eq hstderr

/-- The loop ends in its last segment, or with a command. -/
theorem parseSegments_diagnosed (hfull : ∀ n, alloc n = true) {segs : List Text}
    (hs : ∀ s ∈ segs, Plain s) (b : Building) (m : Machine) (hne : b.commands ≠ [] ∨ segs ≠ []) :
    Diagnosed m (parseSegments alloc segs b m) := by
  induction segs generalizing b m with
  | nil =>
    have hb : b.commands.length ≠ 0 := by simpa using hne
    simp only [parseSegments,finishLine,if_neg hb]
    split_ifs
    · exact ⟨_,rfl⟩
    · rfl
  | cons s segs ih =>
    obtain ⟨hplain,hrest⟩ := List.forall_mem_cons.mp hs
    have hsegment := parseSegment_diagnosed hfull hplain segs b m
    rw [parseSegments]
    rcases hp : parseSegment alloc s segs b m with ⟨_ | b',m'⟩
    · rw [hp] at hsegment
      exact hsegment
    · rw [hp] at hsegment
      have hgoes : (segmentReading s).GoesOn segs := parseSegment_goesOn (by rw [hp])
      have hnext : b'.commands ≠ [] ∨ segs ≠ [] := by
        rcases hgoes.2 with ha | ⟨hsegs,_⟩
        · obtain ⟨b'',hb,hadv⟩ := parseSegment_full hfull hgoes b m
          rw [hp] at hb
          cases hb
          rw [(hadv.command ha).1]
          exact .inl (by simp)
        · exact .inr hsegs
      exact (ih hrest b' m' hnext).of_stderr_eq hsegment

end Diagnostics

section Accepted
variable {alloc : ℕ → Bool} {line : Text}

theorem plain_of_mem_segments (h : Plain line) {s : Text} (hs : s ∈ segments line) : Plain s := by
  intro c hc
  rw [segments,List.splitOn_eq_splitOnP] at hs
  have hmem : c ∈ ((trimTrailing line).splitOnP (· == '|')).flatten :=
    List.mem_flatten.mpr ⟨s,hs,hc⟩
  rw [flatten_splitOnP] at hmem
  exact h c ((List.rdropWhile_prefix blank line).subset (List.mem_of_mem_filter hmem))

theorem segments_wellFormed (h : Plain line) :
    (∀ s ∈ segments line, (segmentReading s).WellFormed) ↔
      ∀ s ∈ line.splitOn '|', Grammatical (words blank s) := by
  have hwords : (∀ s ∈ segments line, (segmentReading s).WellFormed) ↔
      ∀ ws ∈ (segments line).map (words blank), Grammatical ws := by
    rw [List.forall_mem_map]
    apply forall₂_congr
    intro s hs
    rw [segmentReading_plain (plain_of_mem_segments h hs),wellFormed_iff_grammatical]
  rw [hwords,words_segments,List.forall_mem_map]

theorem segments_commands (h : Plain line)
    (hg : ∀ s ∈ line.splitOn '|', Grammatical (words blank s)) :
    (segments line).map segmentCommand =
      (line.splitOn '|').map fun s => commandOf (words blank s) := by
  have hall : ∀ ws ∈ (segments line).map (words blank), Grammatical ws := by
    rw [words_segments,List.forall_mem_map]
    exact hg
  calc (segments line).map segmentCommand
      = (segments line).map (fun s => commandOf (words blank s)) := by
        apply List.map_congr_left
        intro s hs
        rw [segmentCommand,segmentReading_plain (plain_of_mem_segments h hs)]
        exact fresh_extend_readTokens (hall _ (List.mem_map_of_mem hs)).1
    _ = ((segments line).map (words blank)).map commandOf := by
        rw [List.map_map]
        rfl
    _ = ((line.splitOn '|').map (words blank)).map commandOf := by rw [words_segments]
    _ = (line.splitOn '|').map fun s => commandOf (words blank s) := by
        rw [List.map_map]
        rfl

theorem fits_of_forall {segs : List Text} (h : ∀ s ∈ segs, (segmentReading s).Bounded) :
    Fits segs := by
  induction segs with
  | nil => trivial
  | cons s segs ih =>
    obtain ⟨hs,hsegs⟩ := List.forall_mem_cons.mp h
    exact ⟨hs,fun _ => ih hsegs⟩

/-- The argument words of a line fit where none of its segments has a hundred of them. -/
theorem fits_plain (h : Plain line)
    (hargs : ∀ s ∈ line.splitOn '|', (remaining (words blank s)).length ≤ 99) :
    Fits (segments line) := by
  have hall : ∀ ws ∈ (segments line).map (words blank), (remaining ws).length ≤ 99 := by
    rw [words_segments,List.forall_mem_map]
    exact hargs
  apply fits_of_forall
  intro s hs
  have hlen := hall _ (List.mem_map_of_mem hs)
  have hmost := (read_readTokens (words blank s)).atMost
  rw [segmentReading_plain (plain_of_mem_segments h hs)]
  constructor
  · show _ ≤ 100
    omega
  · intro _
    show _ < 100
    omega

theorem trimWhitespace_eq_nil_iff : trimWhitespace line = [] ↔ ∀ c ∈ line, blank c = true := by
  constructor
  · intro h
    have hdrop := List.rdropWhile_eq_nil_iff.mp h
    cases hd : line.dropWhile blank with
    | nil => exact List.dropWhile_eq_nil_iff.mp hd
    | cons c p =>
      rw [hd] at hdrop
      exact absurd (hdrop c List.mem_cons_self) (not_blank_of_dropWhile hd)
  · intro h
    rw [trimWhitespace,List.dropWhile_eq_nil_iff.mpr h]
    rfl

/-- The parser accepts the grammatical lines, makes one command of each segment, and gives
one reason for turning a line down that is not blank. -/
theorem parseLine_grammatical (hfull : ∀ n, alloc n = true) (hplain : Plain line)
    (hlen : line.length ≤ 1023)
    (hargs : ∀ s ∈ line.splitOn '|', (remaining (words blank s)).length ≤ 99) :
    ((parseLine alloc (some line)).1.isSome = true ↔
      ∀ s ∈ line.splitOn '|', Grammatical (words blank s)) ∧
    (∀ p, (parseLine alloc (some line)).1 = some p →
      p = ⟨(line.splitOn '|').map fun s => commandOf (words blank s),(line.splitOn '|').length⟩) ∧
    ((parseLine alloc (some line)).1 = none →
      (parseLine alloc (some line)).2.stderr.length =
        if line.all blank then 0 else 1) ∧
    ∀ a ∈ (parseLine alloc (some line)).2.accesses, a.InBounds := by
  have hparse := parseLine_full hfull line
  have hlength : (segments line).length = (line.splitOn '|').length := by
    have hmap := congrArg List.length (words_segments line)
    simpa using hmap
  simp only [segments_wellFormed hplain] at hparse
  refine ⟨?_,?_,?_,parseLine_inBounds alloc hlen (fits_plain hplain hargs)⟩
  · rw [hparse]
    split_ifs with hg
    · exact iff_of_true rfl hg
    · exact iff_of_false (by simp) hg
  · intro p hp
    rw [hparse] at hp
    split_ifs at hp with hg
    rw [← Option.some.inj hp,segments_commands hplain hg,hlength]
  · intro hnone
    by_cases hblank : trimWhitespace line = []
    · rw [if_pos (List.all_eq_true.mpr (trimWhitespace_eq_nil_iff.mp hblank)),parseLine,
        if_pos hblank]
      rfl
    · have hdiagnosed := parseSegments_diagnosed hfull (fun s hs => plain_of_mem_segments hplain hs)
        .start Machine.start.allocate.allocate (.inr (segments_ne_nil line))
      rw [if_neg (List.all_eq_true.not.mpr (trimWhitespace_eq_nil_iff.not.mp hblank))]
      simp only [parseLine,if_neg hblank,hfull,if_true] at hnone ⊢
      simp only [Diagnosed,hnone] at hdiagnosed
      obtain ⟨message,hmessage⟩ := hdiagnosed
      rw [hmessage]
      rfl

def redirectedLine : Text := ['a',' ','<',' ','f',' ','b',' ','<',' ','g','|','c',' ']

theorem parseLine_grammatical_redirectedLine :
    (parseLine (fun _ => true) (some redirectedLine)).1 =
      some ⟨[⟨[some ['a'],some ['b']],some ['g'],none,none⟩,⟨[some ['c']],none,none,none⟩],2⟩ := by
  have hfull : ∀ n, (fun _ : ℕ => true) n = true := fun _ => rfl
  obtain ⟨hsome,hpipeline,_⟩ := parseLine_grammatical hfull (show Plain redirectedLine by decide)
    (by decide) (by decide +kernel)
  obtain ⟨p,hp⟩ := Option.isSome_iff_exists.mp (hsome.mpr (by decide +kernel))
  rw [hp,hpipeline p hp]
  decide +kernel

end Accepted

end UnixShell.Parser
