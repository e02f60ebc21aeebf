import UnixShell.Parser.Overruns
import UnixShell.Parser.Renderings

/-! # Every way to write a line

A word may be written in pieces, each bare, quoted or escaped, with blanks around it. The
parser sees only the words: a line in which the words of some commands are written in any of
these ways is parsed into the commands that the words make, and the pipeline of an accepted
line comes back from every line that writes it down. A blank at the end of a segment is
trimmed also where a backslash stands in front of it, so no written word ends in one. The
words between two bars leave room for the NULL of their argument vector.
-/
namespace UnixShell.Parser
open Storage (StaysInside staysInside parseLine_faultless_iff)

/-- A part of a written word. -/
inductive Piece
  | bare (w : Text)
  | rendered (r : Rendering) (w : Text)
  deriving DecidableEq, Repr

namespace Piece

def word : Piece → Text
  | .bare w => w
  | .rendered _ w => w

def text : Piece → Text
  | .bare w => w
  | .rendered r w => r.render w

/-- Bare characters mean themselves. -/
def Valid : Piece → Prop
  | .bare w => Ordinary w
  | .rendered _ _ => True

end Piece

/-- A written word. It shows at least one character, and the last one is not a blank. -/
structure Spelling where
  pieces : List Piece
  valid : ∀ x ∈ pieces, x.Valid
  visible : ∃ front c, pieces.flatMap Piece.text = front ++ [c] ∧ blank c = false

namespace Spelling

def word (x : Spelling) : Text := x.pieces.flatMap Piece.word

def text (x : Spelling) : Text := x.pieces.flatMap Piece.text

/-- A word between single quotes. -/
def single (w : Text) : Spelling where
  pieces := [.rendered .single w]
  valid := by
    intro x hx
    obtain rfl := List.mem_singleton.mp hx
    trivial
  visible := ⟨'\'' :: escapeSingle w,'\'',by simp [Piece.text,Rendering.render,quoteSingle],rfl⟩

@[simp] theorem single_word (w : Text) : (single w).word = w := by
  simp [single,word,Piece.word]

@[simp] theorem single_text (w : Text) : (single w).text = quoteSingle w := by
  simp [single,text,Piece.text,Rendering.render]

end Spelling

section Scans
variable (b : Buffer) (p : Text)

theorem scanToken_piece {x : Piece} (h : x.Valid) :
    scanToken .outside b (x.text ++ p) = scanToken .outside (x.word.foldl Buffer.put b) p := by
  cases x with
  | bare w => exact scanToken_ordinary b p h
  | rendered r w =>
    cases r with
    | single =>
      simp only [Piece.text,Piece.word,Rendering.render,quoteSingle,List.cons_append,
        List.append_assoc,List.nil_append]
      rw [scanToken_openSingle,scanToken_escapeSingle,scanToken_closeSingle]
    | double =>
      simp only [Piece.text,Piece.word,Rendering.render,quoteDouble,List.cons_append,
        List.append_assoc,List.nil_append]
      rw [scanToken_openDouble,scanToken_escapeDoubles,scanToken_closeDouble]
    | escaped => exact scanToken_escapeAll b p w

theorem scanToken_pieces {xs : List Piece} (h : ∀ x ∈ xs, x.Valid) :
    scanToken .outside b (xs.flatMap Piece.text ++ p) =
      scanToken .outside ((xs.flatMap Piece.word).foldl Buffer.put b) p := by
  induction xs generalizing b with
  | nil => rfl
  | cons x xs ih =>
    rw [List.flatMap_cons,List.append_assoc,scanToken_piece b _ (h x List.mem_cons_self),
      ih _ fun y hy => h y (List.mem_cons_of_mem x hy),List.flatMap_cons,List.foldl_append]

/-- A piece that shows at all starts with no blank. -/
theorem piece_head {x : Piece} (h : x.Valid) {c : Char} {s : Text} (hs : x.text = c :: s) :
    blank c = false := by
  cases x with
  | bare w =>
    obtain rfl : w = c :: s := hs
    exact (h c List.mem_cons_self).1
  | rendered r w =>
    by_cases hr : r.Renders w
    · obtain ⟨d,q,hd,hblank⟩ := render_head hr
      obtain ⟨rfl,rfl⟩ := List.cons.inj (hd.symm.trans hs)
      exact hblank
    · cases r with
      | escaped =>
        obtain rfl : w = [] := not_not.mp hr
        cases hs
      | single => exact absurd trivial hr
      | double => exact absurd trivial hr

theorem pieces_head {xs : List Piece} (h : ∀ x ∈ xs, x.Valid) {c : Char} {s : Text}
    (hs : xs.flatMap Piece.text = c :: s) : blank c = false := by
  induction xs with
  | nil => cases hs
  | cons x xs ih =>
    rw [List.flatMap_cons] at hs
    cases hx : x.text with
    | nil =>
      rw [hx,List.nil_append] at hs
      exact ih (fun y hy => h y (List.mem_cons_of_mem x hy)) hs
    | cons d q =>
      rw [hx,List.cons_append] at hs
      obtain ⟨rfl,_⟩ := List.cons.inj hs
      exact piece_head (h x List.mem_cons_self) hx

theorem Spelling.text_head (x : Spelling) : ∃ c p, x.text = c :: p ∧ blank c = false := by
  obtain ⟨front,d,hlast,_⟩ := x.visible
  cases htext : x.text with
  | nil =>
    rw [Spelling.text,hlast] at htext
    cases front <;> cases htext
  | cons c p => exact ⟨c,p,rfl,pieces_head x.valid htext⟩

theorem bar_mem_flatMap {f : Char → Text} (h : ∀ c, '|' ∈ f c ↔ c = '|') (w : Text) :
    '|' ∈ w.flatMap f ↔ '|' ∈ w := by
  simp [List.mem_flatMap,h]

theorem bar_mem_piece (x : Piece) : '|' ∈ x.text ↔ '|' ∈ x.word := by
  cases x with
  | bare w => rfl
  | rendered r w =>
    cases r with
    | single => simp [Piece.text,Piece.word,Rendering.render,quoteSingle,bar_mem_escapeSingle]
    | double =>
      have hmem : '|' ∈ escapeDouble w ↔ '|' ∈ w := by
        refine bar_mem_flatMap (fun c => ?_) w
        split <;> simp [eq_comm]
      simp [Piece.text,Piece.word,Rendering.render,quoteDouble,hmem]
    | escaped => exact bar_mem_flatMap (fun c => by simp [eq_comm]) w

theorem bar_mem_pieces (xs : List Piece) :
    '|' ∈ xs.flatMap Piece.text ↔ '|' ∈ xs.flatMap Piece.word := by
  simp only [List.mem_flatMap,bar_mem_piece]

/-- One call reads a written word. -/
theorem nextToken_spelling {pre rest : Text} (hpre : ∀ c ∈ pre, blank c = true) (x : Spelling)
    (hrest : Ends rest) :
    (nextToken (pre ++ x.text ++ rest)).token = some x.word ∧
      (nextToken (pre ++ x.text ++ rest)).input = rest := by
  have hscan := scanToken_pieces Buffer.empty rest x.valid
  rw [scanToken_ends _ hrest] at hscan
  obtain ⟨c,p,htext,hc⟩ := x.text_head
  rw [← Spelling.text,htext] at hscan
  rw [htext,nextToken_scanned hpre hc hscan,foldl_put_text]
  exact ⟨rfl,rfl⟩

end Scans

/-- The words stand in the text in their order, behind blanks and apart. -/
inductive Writes : List Text → Text → Prop
  | blanks {s : Text} (hs : ∀ c ∈ s, blank c = true) : Writes [] s
  | word {pre rest : Text} {ts : List Text} (hpre : ∀ c ∈ pre, blank c = true) (x : Spelling)
      (hends : Ends rest) (hrest : Writes ts rest) : Writes (x.word :: ts) (pre ++ x.text ++ rest)

theorem nextToken_blanks {s : Text} (h : ∀ c ∈ s, blank c = true) : (nextToken s).token = none := by
  simp only [nextToken,List.dropWhile_eq_nil_iff.mpr h]

/-- Trimming stops at a non-blank. -/
theorem trimTrailing_visible (s : Text) {t : Text} (h : ¬∀ c ∈ t, blank c = true) :
    Parser.trimTrailing (s ++ t) = s ++ Parser.trimTrailing t := by
  have hne : ¬(t.reverse.dropWhile blank).isEmpty = true := by
    rw [List.isEmpty_iff,List.dropWhile_eq_nil_iff]
    simpa using h
  rw [trimTrailing,trimTrailing,List.rdropWhile,List.rdropWhile,List.reverse_append,
    List.dropWhile_append,if_neg hne,List.reverse_append,List.reverse_reverse]

namespace Writes
variable {ts : List Text} {s : Text}

theorem tokens (h : Writes ts s) : tokens s = ts := by
  induction h with
  | blanks hs => exact tokens_none (nextToken_blanks hs)
  | word hpre x hends _ ih =>
    obtain ⟨htoken,hinput⟩ := nextToken_spelling hpre x hends
    rw [tokens_some htoken,hinput,ih]

/-- A trailing blank goes with the blanks behind the last word. -/
theorem trimTrailing (h : Writes ts s) : Writes ts (trimTrailing s) := by
  induction h with
  | blanks hs =>
    rw [Parser.trimTrailing,List.rdropWhile_eq_nil_iff.mpr hs]
    exact .blanks (by simp)
  | @word pre rest ts hpre x hends hrest ih =>
    by_cases hblank : ∀ c ∈ rest, blank c = true
    · obtain ⟨front,c,htext,hc⟩ := x.visible
      have hnone : Parser.trimTrailing rest = [] := List.rdropWhile_eq_nil_iff.mpr hblank
      rw [trimTrailing_append hblank,Parser.trimTrailing,Spelling.text,htext,← List.append_assoc,
        List.rdropWhile_concat_neg blank _ c (by simp [hc])]
      rw [hnone] at ih
      have hword := Writes.word hpre x (by intro c p h; cases h) ih
      rwa [Spelling.text,htext,← List.append_assoc,List.append_nil] at hword
    · rw [trimTrailing_visible _ hblank]
      refine .word hpre x ?_ ih
      intro c p hcp
      obtain ⟨t,ht⟩ := List.rdropWhile_prefix blank (l := rest)
      rw [Parser.trimTrailing] at hcp
      rw [hcp,List.cons_append] at ht
      exact hends c (p ++ t) ht.symm

theorem dropBlanks (h : Writes ts s) : Writes ts (s.dropWhile blank) := by
  cases h with
  | blanks hs =>
    rw [List.dropWhile_eq_nil_iff.mpr hs]
    exact .blanks (by simp)
  | @word pre rest ts hpre x hends hrest =>
    have hword := @Writes.word [] rest ts (by simp) x hends hrest
    rw [List.append_assoc,List.dropWhile_append_of_pos hpre]
    obtain ⟨c,p,htext,hc⟩ := x.text_head
    rw [List.nil_append,htext] at hword
    rwa [htext,List.cons_append,List.dropWhile_cons_of_neg (by simp [hc])]

theorem trimWhitespace (h : Writes ts s) : Writes ts (trimWhitespace s) := h.dropBlanks.trimTrailing

/-- The bars of a written text are those of its words. -/
theorem bar_mem (h : Writes ts s) (hbar : ∀ t ∈ ts, '|' ∉ t) : '|' ∉ s := by
  induction h with
  | blanks hs =>
    intro hmem
    exact absurd (hs _ hmem) (by decide)
  | word hpre x hends _ ih =>
    intro hmem
    rcases List.mem_append.mp hmem with hmem | hmem
    · rcases List.mem_append.mp hmem with hmem | hmem
      · exact absurd (hpre _ hmem) (by decide)
      · exact hbar x.word List.mem_cons_self ((bar_mem_pieces x.pieces).mp hmem)
    · exact ih (fun t ht => hbar t (List.mem_cons_of_mem x.word ht)) hmem

end Writes

/-- The written commands of a line, with a bar between each two. -/
inductive WritesLine : List (List Text) → Text → Prop
  | last {ts : List Text} {s : Text} (h : Writes ts s) : WritesLine [ts] s
  | bar {ts : List Text} {s line : Text} {tss : List (List Text)} (h : Writes ts s)
      (hline : WritesLine tss line) : WritesLine (ts :: tss) (s ++ '|' :: line)

namespace WritesLine
variable {tss : List (List Text)} {line : Text}

theorem trimTrailing (h : WritesLine tss line) : WritesLine tss (trimTrailing line) := by
  induction h with
  | last h => exact .last h.trimTrailing
  | @bar ts s line tss h hline ih =>
    have hvisible : ¬∀ c ∈ '|' :: line, blank c = true := fun hall =>
      absurd (hall '|' List.mem_cons_self) (by decide)
    rw [trimTrailing_visible s hvisible]
    by_cases hblank : ∀ c ∈ line, blank c = true
    · have hnil : Parser.trimTrailing line = [] := List.rdropWhile_eq_nil_iff.mpr hblank
      have hstop : Parser.trimTrailing ('|' :: line) = ['|'] := by
        rw [← List.singleton_append,trimTrailing_append hblank]
        rfl
      rw [hnil] at ih
      rw [hstop]
      exact .bar h ih
    · have hgo : Parser.trimTrailing ('|' :: line) = '|' :: Parser.trimTrailing line :=
        trimTrailing_visible ['|'] hblank
      rw [hgo]
      exact .bar h ih

/-- Without bars in the words, `strsep` cuts between the commands. -/
theorem splitOn (h : WritesLine tss line) (hbar : ∀ ts ∈ tss, ∀ t ∈ ts, '|' ∉ t) :
    List.Forall₂ Writes tss (line.splitOn '|') := by
  induction h with
  | @last ts s h =>
    rw [List.splitOn_eq_singleton (h.bar_mem (hbar ts List.mem_cons_self))]
    exact .cons h .nil
  | @bar ts s line tss h _ ih =>
    rw [List.splitOn_append_cons_self_of_not_mem (h.bar_mem (hbar ts List.mem_cons_self))]
    exact .cons h (ih fun ts hts => hbar ts (List.mem_cons_of_mem _ hts))

theorem readings (h : WritesLine tss line) (hbar : ∀ ts ∈ tss, ∀ t ∈ ts, '|' ∉ t) :
    (segments line).map segmentReading = tss.map readTokens := by
  have hsplit := h.trimTrailing.splitOn hbar
  rw [segments]
  generalize (Parser.trimTrailing line).splitOn '|' = segs at hsplit
  clear h hbar
  induction hsplit with
  | nil => rfl
  | cons hw _ ih => simp [segmentReading,reading,hw.trimWhitespace.tokens,ih]

end WritesLine

section Rendered

theorem ends_of_blank {s : Text} (h : ∀ c ∈ s, blank c = true) : Ends s := by
  rintro c p rfl
  exact h c List.mem_cons_self

theorem writes_renderCommand {pre post : Text} (hpre : ∀ c ∈ pre, blank c = true)
    (hpost : ∀ c ∈ post, blank c = true) {ws : List Text} (hws : ws ≠ []) :
    Writes ws (pre ++ renderCommand ws ++ post) := by
  induction ws generalizing pre with
  | nil => exact absurd rfl hws
  | cons w ws ih =>
    cases ws with
    | nil => simpa using Writes.word hpre (.single w) (ends_of_blank hpost) (.blanks hpost)
    | cons w' ws =>
      have hgap : ∀ c ∈ [' '], blank c = true := by simp [blank]
      have hends : Ends ([' '] ++ renderCommand (w' :: ws) ++ post) := by
        rintro c p ⟨⟩
        rfl
      simpa [renderCommand_cons_cons] using Writes.word hpre (.single w) hends (ih hgap (by simp))

theorem writesLine_renderLine {pre : Text} (hpre : ∀ c ∈ pre, blank c = true)
    {tss : List (List Text)} (hne : tss ≠ []) (hws : ∀ ts ∈ tss, ts ≠ []) :
    WritesLine tss (pre ++ renderLine tss) := by
  induction tss generalizing pre with
  | nil => exact absurd rfl hne
  | cons ts tss ih =>
    have hts := hws ts List.mem_cons_self
    have hgap : ∀ c ∈ [' '], blank c = true := by simp [blank]
    cases tss with
    | nil =>
      have hnone : ∀ c ∈ ([] : Text), blank c = true := by simp
      rw [renderLine_singleton,← List.append_nil (pre ++ _)]
      exact .last (writes_renderCommand hpre hnone hts)
    | cons ts' tss =>
      have hline := ih hgap (by simp) fun x hx => hws x (List.mem_cons_of_mem ts hx)
      have h := WritesLine.bar (writes_renderCommand hpre hgap hts) hline
      simpa [renderLine_cons_cons] using h

end Rendered

section Lines
variable {alloc : ℕ → Bool} {tss : List (List Text)} {line : Text}

/-- The words between two bars leave room for a NULL. -/
theorem WritesLine.terminated (h : WritesLine tss line) (hbar : ∀ ts ∈ tss, ∀ t ∈ ts, '|' ∉ t)
    (hroom : ∀ ts ∈ tss, (readTokens ts).arguments.length < maxTokens) :
    Terminated (segments line) := by
  refine terminated_of_forall fun s hs => ?_
  have hmem : segmentReading s ∈ tss.map readTokens := by
    rw [← h.readings hbar]
    exact List.mem_map_of_mem hs
  obtain ⟨ts,hts,he⟩ := List.mem_map.mp hmem
  rw [← he]
  exact hroom ts hts

theorem parseLine_readings (hfull : ∀ n, alloc n = true) (h : WritesLine tss line)
    (hbar : ∀ ts ∈ tss, ∀ t ∈ ts, '|' ∉ t) :
    (parseLine alloc (some line)).1 =
      if ∀ ts ∈ tss, (readTokens ts).WellFormed then
        some ⟨tss.map fun ts => Command.fresh.extend (readTokens ts),tss.length⟩
      else none := by
  have hread := h.readings hbar
  have hlen : (segments line).length = tss.length := by simpa using congrArg List.length hread
  have hwf : (∀ s ∈ segments line, (segmentReading s).WellFormed) ↔
      ∀ ts ∈ tss, (readTokens ts).WellFormed := by
    have hmap := congrArg (fun rs => ∀ r ∈ rs, Reading.WellFormed r) hread
    simpa using hmap
  have hcommands : (segments line).map segmentCommand =
      tss.map fun ts => Command.fresh.extend (readTokens ts) := by
    have hmap := congrArg (List.map Command.fresh.extend) hread
    rwa [List.map_map,List.map_map] at hmap
  rw [parseLine_full hfull,hcommands,hlen]
  simp only [hwf]

/-- However the words are written, the parser accepts just the grammatical ones, makes one
command of the words between two bars, and stays inside its arrays, where these words leave room
for a NULL. -/
theorem parseLine_written (hfull : ∀ n, alloc n = true) (hlen : line.length ≤ 1023)
    (h : WritesLine tss line) (hbar : ∀ ts ∈ tss, ∀ t ∈ ts, '|' ∉ t)
    (hroom : ∀ ts ∈ tss, (readTokens ts).arguments.length < maxTokens) :
    (parseLine alloc (some line)).1 =
      (if ∀ ts ∈ tss, Grammatical ts then some ⟨tss.map commandOf,tss.length⟩ else none) ∧
    StaysInside alloc line := by
  refine ⟨?_,staysInside alloc hlen (h.terminated hbar hroom)⟩
  rw [parseLine_readings hfull h hbar]
  simp only [wellFormed_iff_grammatical]
  split_ifs with hg
  · congr 2
    exact List.map_congr_left fun ts hts => fresh_extend_readTokens (hg ts hts).1
  · rfl

/-- `f g` in three pieces. -/
def gapSpelling : Spelling where
  pieces := [.bare ['f'],.rendered .double [' '],.rendered .escaped ['g']]
  valid := by simp [Piece.Valid,Ordinary,blank,special]
  visible := ⟨['f','"',' ','"','\\'],'g',rfl,rfl⟩

def bareSpelling (c : Char) (h : blank c = false ∧ special c = false) : Spelling where
  pieces := [.bare [c]]
  valid := by simpa [Piece.Valid,Ordinary] using h
  visible := ⟨[],c,rfl,h.1⟩

/-- The words of `a < 'f g'` and of `b`. -/
def gapWords : List (List Text) := [[['a'],['<'],['f',' ','g']],[['b']]]

def gapLine : Text :=
  ['\t','a',' ','\'','<','\'',' ',' ','f','"',' ','"','\\','g','|','b',' ']

theorem gapLine_writes : WritesLine gapWords gapLine := by
  have hends : ∀ {c : Char} {p : Text}, blank c = true → Ends (c :: p) := by
    rintro c p hc _ _ ⟨⟩
    exact hc
  have hfile : Writes [['f',' ','g']] [' ',' ','f','"',' ','"','\\','g'] :=
    @Writes.word [' ',' '] [] [] (by simp [blank]) gapSpelling (ends_of_blank (by simp))
      (.blanks (by simp))
  have hoperator := @Writes.word [' '] _ _ (by simp [blank]) (.single ['<']) (hends rfl) hfile
  have hfirst := @Writes.word ['\t'] _ _ (by simp [blank]) (bareSpelling 'a' ⟨rfl,rfl⟩) (hends rfl)
    hoperator
  have hlast := @Writes.word [] [' '] [] (by simp) (bareSpelling 'b' ⟨rfl,rfl⟩) (hends rfl)
    (.blanks (by simp [blank]))
  exact .bar hfirst (.last hlast)

theorem parseLine_written_gapLine : (parseLine (fun _ => true) (some gapLine)).1 =
    some ⟨[⟨[some ['a']],some ['f',' ','g'],none,none⟩,⟨[some ['b']],none,none,none⟩],2⟩ := by
  rw [(parseLine_written (fun _ => rfl) (by decide) gapLine_writes (by decide)
    (by decide +kernel)).1,if_pos (by decide +kernel)]
  decide +kernel

end Lines

section Printing

def Redirect.token : Redirect → Text
  | .input => ['<']
  | .output => ['>']
  | .error => ['2','>']

@[simp] theorem redirectOf_token (op : Redirect) : redirectOf op.token = some op := by
  cases op <;> decide

/-- The words that ask for a redirection. -/
def redirection (op : Redirect) : Option Text → List Text
  | none => []
  | some file => [op.token,file]

/-- A command written down: its arguments, then its redirections. -/
def Command.words (cmd : Command) : List Text :=
  cmd.argv.filterMap id ++
    [Redirect.input,.output,.error].flatMap fun op => redirection op (cmd.file op)

/-- No copy of a word is missing, there is a program to run, and no word is an operator or
holds a bar. -/
structure Command.Parsed (cmd : Command) : Prop where
  copied : (cmd.argv.filterMap id).map some = cmd.argv
  program : cmd.argv ≠ []
  arguments : ∀ w ∈ cmd.argv.filterMap id, redirectOf w = none ∧ '|' ∉ w
  files : ∀ op f, cmd.file op = some f → redirectOf f = none ∧ '|' ∉ f

theorem readTokens_arguments {ws : List Text} (h : ∀ w ∈ ws, redirectOf w = none)
    (ts : List Text) :
    readTokens (ws ++ ts) =
      ⟨ws ++ (readTokens ts).arguments,(readTokens ts).files,(readTokens ts).lacking⟩ := by
  induction ws with
  | nil => rfl
  | cons w ws ih =>
    rw [List.cons_append,readTokens_argument (h w List.mem_cons_self),
      ih fun x hx => h x (List.mem_cons_of_mem w hx)]
    rfl

theorem readTokens_redirections {file : Redirect → Option Text}
    (h : ∀ op f, file op = some f → redirectOf f = none) (ops : List Redirect) :
    readTokens (ops.flatMap fun op => redirection op (file op)) =
      ⟨[],ops.flatMap fun op => ((file op).map (op,·)).toList,none⟩ := by
  induction ops with
  | nil => rfl
  | cons op ops ih =>
    rw [List.flatMap_cons,List.flatMap_cons]
    cases hop : file op with
    | none => exact ih
    | some f =>
      have hf : ¬(redirectOf f).isSome = true := by simp [h op f hop]
      exact (readTokens_file (redirectOf_token op) hf).trans (congrArg (Reading.file · op f) ih)

namespace Command.Parsed
variable {cmd : Command}

theorem reading (h : cmd.Parsed) : readTokens cmd.words =
    ⟨cmd.argv.filterMap id,[Redirect.input,.output,.error].flatMap fun op =>
      ((cmd.file op).map (op,·)).toList,none⟩ := by
  rw [words,readTokens_arguments fun w hw => (h.arguments w hw).1,
    readTokens_redirections fun op f hf => (h.files op f hf).1]
  simp

theorem wellFormed (h : cmd.Parsed) : (readTokens cmd.words).WellFormed := by
  rw [h.reading]
  refine ⟨rfl,fun hnil => h.program ?_⟩
  rw [← h.copied]
  exact congrArg (List.map some) hnil

theorem filter_file (o : Option Text) (op op' : Redirect) :
    ((o.map (op',·)).toList.filter fun x => x.1 = op).map Prod.snd =
      if op' = op then o.toList else [] := by
  cases o <;> by_cases hop : op' = op <;> simp [hop]

theorem getLast?_toList (o : Option Text) : o.toList.getLast? = o := by
  cases o <;> rfl

/-- What is written down is the command. -/
theorem extend (h : cmd.Parsed) : Command.fresh.extend (readTokens cmd.words) = cmd := by
  rw [h.reading]
  apply command_ext
  · rw [fresh_extend_argv]
    exact h.copied
  · intro op
    rw [Command.extend,file_foldl_redirect]
    simp only [List.flatMap_cons,List.flatMap_nil,List.filter_append,List.map_append,filter_file]
    cases op <;> simp [Command.file,Command.fresh,getLast?_toList]

theorem bar_words (h : cmd.Parsed) : ∀ w ∈ cmd.words, '|' ∉ w := by
  intro w hw
  rcases List.mem_append.mp hw with hw | hw
  · exact (h.arguments w hw).2
  · obtain ⟨op,_,hw⟩ := List.mem_flatMap.mp hw
    cases hf : cmd.file op with
    | none =>
      rw [hf] at hw
      cases hw
    | some f =>
      rw [hf] at hw
      rcases List.mem_pair.mp hw with rfl | rfl
      · cases op <;> decide
      · exact (h.files op _ hf).2

end Command.Parsed

end Printing

section Bars
variable {b : Buffer} {p s t : Text} {r : Quote × Buffer × Text} {c d : Char}

/-- A bar that is put was there before, or is read. -/
def BarKept (b : Buffer) (p : Text) (r : Quote × Buffer × Text) : Prop :=
  '|' ∈ r.2.1.text → '|' ∈ b.text ∨ '|' ∈ p

namespace BarKept

theorem stop (q : Quote) (b : Buffer) (p : Text) : BarKept b p (q,b,p) := Or.inl

theorem skip (h : BarKept b p r) (c : Char) : BarKept b (c :: p) r := fun hr =>
  (h hr).imp_right (List.mem_cons_of_mem c)

theorem put (h : BarKept (b.put d) p r) (hd : d = '|' → c = '|') : BarKept b (c :: p) r := by
  intro hr
  rcases h hr with hb | hp
  · rcases List.mem_append.mp hb with hb | hb
    · exact .inl hb
    · rw [hd (List.mem_singleton.mp hb).symm]
      exact .inr List.mem_cons_self
  · exact .inr (List.mem_cons_of_mem c hp)

end BarKept

theorem barKept_scanToken (q : Quote) (b : Buffer) (p : Text) :
    BarKept b p (scanToken q b p) := by
  induction q, b, p using scanToken.induct with
  | case1 q b => simpa using BarKept.stop q b []
  | case2 b c p hc => simpa only [scanToken_blank b p hc] using BarKept.stop .outside b (c :: p)
  | case3 b p _ ih => simpa using ih.skip '\''
  | case4 b p _ _ ih => simpa using ih.skip '"'
  | case5 b => simpa using (BarKept.stop .outside b []).skip '\\'
  | case6 b d p _ _ _ ih => simpa using (ih.put (c := d) id).skip '\\'
  | case7 b c p hc hs hd he ih =>
    simpa only [scanToken_plain b p hc hs hd he] using ih.put (c := c) id
  | case8 b p ih => simpa using ih.skip '\''
  | case9 b c p hc ih => simpa only [scanToken_inSingle b p hc] using ih.put (c := c) id
  | case10 b p ih => simpa using ih.skip '"'
  | case11 b =>
    simpa [scanToken] using (BarKept.stop .inDouble (b.put '\\') []).put (c := '\\') id
  | case12 b p _ ih => simpa [scanToken] using (ih.put (c := 'n') (by decide)).skip '\\'
  | case13 b d p hn hd _ ih => simpa [scanToken,hn,hd] using (ih.put (c := d) id).skip '\\'
  | case14 b d p hn hd _ ih => simpa [scanToken,hn,hd] using ih.put (c := '\\') id
  | case15 b c p hd he ih =>
    simpa only [scanToken_inDouble b p hd he] using ih.put (c := c) id

theorem bar_mem_nextToken (h : (nextToken s).token = some t) (ht : '|' ∈ t) : '|' ∈ s := by
  obtain ⟨c,p,b,hskip,rfl,hscan⟩ := nextToken_some h
  have hkept := barKept_scanToken .outside Buffer.empty (c :: p)
  rw [hscan] at hkept
  rcases hkept ht with hb | hp
  · cases hb
  · rw [← hskip] at hp
    exact (List.dropWhile_suffix blank).subset hp

theorem nextToken_suffix (h : (nextToken s).token = some t) : (nextToken s).input <:+ s := by
  obtain ⟨c,p,b,hskip,_,hscan⟩ := nextToken_some h
  have hadv := scanToken_advances Buffer.empty p (not_blank_of_dropWhile hskip)
  rw [hscan] at hadv
  exact hadv.trans ((List.suffix_cons c p).trans (hskip ▸ List.dropWhile_suffix blank))

theorem bar_mem_tokens (ht : t ∈ tokens s) (hbar : '|' ∈ t) : '|' ∈ s := by
  induction hn : s.length using Nat.strong_induction_on generalizing s with
  | _ n ih =>
    subst hn
    cases hs : (nextToken s).token with
    | none =>
      rw [tokens_none hs] at ht
      cases ht
    | some u =>
      rw [tokens_some hs] at ht
      rcases List.mem_cons.mp ht with rfl | ht
      · exact bar_mem_nextToken hs hbar
      · exact (nextToken_suffix hs).subset (ih _ (nextToken_shorter hs) ht rfl)

theorem bar_mem_splitOn (h : t ∈ s.splitOn '|') : '|' ∉ t := by
  induction s generalizing t with
  | nil =>
    rw [List.splitOn_nil] at h
    obtain rfl := List.mem_singleton.mp h
    simp
  | cons c s ih =>
    rw [List.splitOn_cons_eq_if_modifyHead] at h
    split at h
    · rcases List.mem_cons.mp h with rfl | h
      · simp
      · exact ih h
    next hc =>
      cases hs : s.splitOn '|' with
      | nil => exact absurd hs (List.splitOn_ne_nil '|' s)
      | cons x xs =>
        rw [hs] at h ih
        rcases List.mem_cons.mp h with rfl | h
        · intro hmem
          rcases List.mem_cons.mp hmem with hbar | hmem
          · exact hc (by simp [← hbar])
          · exact ih List.mem_cons_self hmem
        · exact ih (List.mem_cons_of_mem x h)

end Bars

section Parsed
variable {ts : List Text} {line : Text}

/-- The words a reading keeps are tokens that are no operators. -/
theorem readTokens_words (ts : List Text) :
    (∀ w ∈ (readTokens ts).arguments, w ∈ ts ∧ redirectOf w = none) ∧
      ∀ x ∈ (readTokens ts).files, x.2 ∈ ts ∧ redirectOf x.2 = none := by
  induction ts using readTokens.induct with
  | case1 => simp [readTokens,Reading.empty]
  | case2 t ts ht ih =>
    rw [readTokens_argument ht]
    refine ⟨?_,fun x hx => (ih.2 x hx).imp_left (List.mem_cons_of_mem t)⟩
    intro w hw
    rcases List.mem_cons.mp hw with rfl | hw
    · exact ⟨List.mem_cons_self,ht⟩
    · exact (ih.1 w hw).imp_left (List.mem_cons_of_mem t)
  | case3 t op ht =>
    rw [readTokens_end ht]
    simp
  | case4 t op ht f ts hf =>
    rw [readTokens_lacking ht hf]
    simp
  | case5 t op ht f ts hf ih =>
    have hmem : ∀ {w}, w ∈ ts → w ∈ t :: f :: ts := fun hw =>
      List.mem_cons_of_mem t (List.mem_cons_of_mem f hw)
    rw [readTokens_file ht hf]
    refine ⟨fun w hw => (ih.1 w hw).imp_left hmem,?_⟩
    intro x hx
    rcases List.mem_cons.mp hx with rfl | hx
    · exact ⟨by simp,by simpa using hf⟩
    · exact (ih.2 x hx).imp_left hmem

theorem mem_toList_of_file {r : Reading} {op : Redirect} {f : Text}
    (h : (Command.fresh.extend r).file op = some f) : (op,f) ∈ r.files := by
  rw [Command.extend,file_foldl_redirect] at h
  rcases Option.or_eq_some_iff.mp h with h | ⟨_,h⟩
  · obtain ⟨x,hx,rfl⟩ := List.mem_map.mp (List.mem_of_getLast? h)
    obtain ⟨hmem,hop⟩ := List.mem_filter.mp hx
    obtain rfl := of_decide_eq_true hop
    exact hmem
  · cases op <;> cases h

theorem segmentCommand_parsed {segment : Text} (hbar : '|' ∉ segment)
    (h : (segmentReading segment).WellFormed) : (segmentCommand segment).Parsed := by
  obtain ⟨hargs,hfiles⟩ := readTokens_words (tokens (trimWhitespace segment))
  have hclean : ∀ w ∈ tokens (trimWhitespace segment), '|' ∉ w := fun w hw hmem =>
    hbar ((List.dropWhile_suffix blank).subset
      ((List.rdropWhile_prefix blank _).subset (bar_mem_tokens hw hmem)))
  have hargv : (segmentCommand segment).argv = (segmentReading segment).arguments.map some :=
    fresh_extend_argv _
  have hcopies :
      (segmentCommand segment).argv.filterMap id = (segmentReading segment).arguments := by
    simp [hargv]
  refine ⟨by rw [hcopies,hargv],by simpa [hargv] using h.2,?_,?_⟩
  · rw [hcopies]
    exact fun w hw => ⟨(hargs w hw).2,hclean w (hargs w hw).1⟩
  · intro op f hf
    have hmem := mem_toList_of_file hf
    exact ⟨(hfiles _ hmem).2,hclean f (hfiles _ hmem).1⟩

/-- An accepted line gives a pipeline of commands that can be written down. -/
theorem parseLine_parsed {alloc : ℕ → Bool} (hfull : ∀ n, alloc n = true) {p : Pipeline}
    (h : (parseLine alloc (some line)).1 = some p) :
    p.numCommands = p.commands.length ∧ ∀ cmd ∈ p.commands, cmd.Parsed := by
  rw [parseLine_full hfull] at h
  split_ifs at h with hwf
  obtain rfl := Option.some.inj h
  refine ⟨by simp,?_⟩
  intro cmd hcmd
  obtain ⟨segment,hs,rfl⟩ := List.mem_map.mp hcmd
  exact segmentCommand_parsed (bar_mem_splitOn hs) (hwf segment hs)

/-- Inside its arrays the parser makes no command of more words than leave room for a NULL. -/
theorem parseLine_argc {alloc : ℕ → Bool} (hfull : ∀ n, alloc n = true) {p : Pipeline}
    (h : (parseLine alloc (some line)).1 = some p) (hinside : StaysInside alloc line) :
    ∀ cmd ∈ p.commands, cmd.argv.length < maxTokens := by
  have hterm := (parseLine_faultless_iff hfull .empty).mp hinside.2
  rw [parseLine_full hfull] at h
  split_ifs at h with hwf
  obtain rfl := Option.some.inj h
  intro cmd hcmd
  obtain ⟨segment,hs,rfl⟩ := List.mem_map.mp hcmd
  rw [segmentCommand,fresh_extend_argv,List.length_map]
  exact hterm.forall_of_wellFormed hwf segment hs

/-- The pipeline of a line that is accepted inside the parser's arrays comes back, inside them,
from every line that writes its commands down. -/
theorem parseLine_rewritten {alloc : ℕ → Bool} (hfull : ∀ n, alloc n = true) {p : Pipeline}
    {text : Text} (h : (parseLine alloc (some line)).1 = some p) (hinside : StaysInside alloc line)
    (ht : WritesLine (p.commands.map Command.words) text) (hlen : text.length ≤ 1023) :
    (parseLine alloc (some text)).1 = some p ∧ StaysInside alloc text := by
  obtain ⟨hnum,hparsed⟩ := parseLine_parsed hfull h
  have hbar : ∀ ts ∈ p.commands.map Command.words, ∀ t ∈ ts, '|' ∉ t := by
    intro ts hts
    obtain ⟨cmd,hcmd,rfl⟩ := List.mem_map.mp hts
    exact (hparsed cmd hcmd).bar_words
  have hread : ∀ cmd ∈ p.commands, (readTokens cmd.words).arguments.length = cmd.argv.length := by
    intro cmd hcmd
    have hargv := congrArg List.length (hparsed cmd hcmd).copied
    rw [List.length_map] at hargv
    rw [(hparsed cmd hcmd).reading]
    exact hargv
  refine ⟨?_,staysInside alloc hlen (ht.terminated hbar ?_)⟩
  · have hwf : ∀ ts ∈ p.commands.map Command.words, (readTokens ts).WellFormed := by
      intro ts hts
      obtain ⟨cmd,hcmd,rfl⟩ := List.mem_map.mp hts
      exact (hparsed cmd hcmd).wellFormed
    rw [parseLine_readings hfull ht hbar,if_pos hwf,List.map_map,List.length_map,← hnum]
    congr 2
    have hsame : p.commands.map (fun cmd => Command.fresh.extend (readTokens cmd.words)) =
        p.commands.map id := List.map_congr_left fun cmd hcmd => (hparsed cmd hcmd).extend
    rwa [List.map_id] at hsame
  · intro ts hts
    obtain ⟨cmd,hcmd,rfl⟩ := List.mem_map.mp hts
    rw [hread cmd hcmd]
    exact parseLine_argc hfull h hinside cmd hcmd

/-- The commands of `a < 'f g' | b`, written down between single quotes. -/
theorem parseLine_rewritten_gapLine :
    (parseLine (fun _ => true) (some (renderLine
      (gapWords.map fun ts => (commandOf ts).words)))).1 =
        some ⟨gapWords.map commandOf,2⟩ := by
  have hparse : (parseLine (fun _ => true) (some gapLine)).1 = some ⟨gapWords.map commandOf,2⟩ := by
    decide +kernel
  have hne : ∀ ts ∈ gapWords.map fun ts => (commandOf ts).words, ts ≠ [] := by decide +kernel
  refine (parseLine_rewritten (fun _ => rfl) hparse (by decide +kernel) ?_ (by decide +kernel)).1
  rw [List.map_map]
  exact @writesLine_renderLine [] (by simp) _ (by decide) hne

end Parsed

end UnixShell.Parser
