import UnixShell.Parser.Overruns
import UnixShell.Shell.Invocation

/-! # Lines that leave a quote open

The scan of a whole line is the scans of its words one after another, so a quote that is
open at the end was opened in the last word. The token loop stops in front of that word
as at the end of the line, and what it has read by then decides.
-/
namespace UnixShell.Shell
open Foundation UnixShell.Parser
open UnixShell.Parser.Storage (StaysInside staysInside_legible parseLine_faultless_iff)

section Scan
variable {q : Quote} {b b₁ : Buffer} {c d : Char} {s p w used : Text} {r : Quote × Buffer × Text}

/-- The quoting state behind a character that no backslash is involved in. -/
def turn : Quote → Char → Quote
  | .outside, c => if c = '\'' then .inSingle else if c = '"' then .inDouble else .outside
  | .inSingle, c => if c = '\'' then .outside else .inSingle
  | .inDouble, c => if c = '"' then .outside else .inDouble

/-- A backslash that takes the next character with it. -/
def Escapes (q : Quote) (c : Char) : Prop := c = '\\' ∧ q ≠ .inSingle

instance (q : Quote) (c : Char) : Decidable (Escapes q c) :=
  inferInstanceAs (Decidable (c = '\\' ∧ q ≠ .inSingle))

/-- The quoting state behind a text. -/
def quoteAfter : Quote → Text → Quote
  | q, [] => q
  | q, [c] => turn q c
  | q, c :: d :: p => if Escapes q c then quoteAfter q p else quoteAfter (turn q c) (d :: p)

/-- The text up to the last blank outside quotes; `word` is what the scan has of a word so far. -/
def closedPart : Quote → Text → Text → Text
  | _, _, [] => []
  | q, word, [c] => if q = .outside ∧ blank c = true then word ++ [c] else []
  | q, word, c :: d :: p =>
    if q = .outside ∧ blank c = true then word ++ c :: closedPart .outside [] (d :: p)
    else if Escapes q c then closedPart q (word ++ [c,d]) p
    else closedPart (turn q c) (word ++ [c]) (d :: p)

theorem turn_blank (hc : blank c = true) : turn q c = q := by
  have hne : c ≠ '\'' ∧ c ≠ '"' := by
    constructor <;> rintro rfl <;> cases hc
  cases q <;> simp [turn,hne]

theorem not_escapes_blank (hc : blank c = true) : ¬ Escapes q c := by
  rintro ⟨rfl,_⟩
  cases hc

theorem quoteAfter_turn (h : ¬ Escapes q c) : quoteAfter q (c :: p) = quoteAfter (turn q c) p := by
  cases p with
  | nil => rfl
  | cons d p => rw [quoteAfter,if_neg h]

theorem quoteAfter_escape (h : Escapes q c) : quoteAfter q (c :: d :: p) = quoteAfter q p := by
  rw [quoteAfter,if_pos h]

theorem closedPart_blank (hc : blank c = true) :
    closedPart .outside w (c :: p) = w ++ c :: closedPart .outside [] p := by
  cases p with
  | nil => simp [closedPart,hc]
  | cons d p => rw [closedPart,if_pos ⟨rfl,hc⟩]

theorem closedPart_turn (hc : ¬ (q = .outside ∧ blank c = true)) (h : ¬ Escapes q c) :
    closedPart q w (c :: p) = closedPart (turn q c) (w ++ [c]) p := by
  cases p with
  | nil => simp [closedPart,hc]
  | cons d p => rw [closedPart,if_neg hc,if_neg h]

theorem closedPart_escape (h : Escapes q c) :
    closedPart q w (c :: d :: p) = closedPart q (w ++ [c,d]) p := by
  have hc : ¬ (q = .outside ∧ blank c = true) := fun hc => not_escapes_blank hc.2 h
  rw [closedPart,if_neg hc,if_pos h]

theorem scanToken_turn (b : Buffer) (hc : ¬ (q = .outside ∧ blank c = true))
    (h : ¬ Escapes q c) : ∃ b₁, ∀ p, scanToken q b (c :: p) = scanToken (turn q c) b₁ p := by
  cases q with
  | outside =>
    have hc : ¬ blank c = true := fun hb => hc ⟨rfl,hb⟩
    have he : c ≠ '\\' := fun he => h ⟨he,by simp⟩
    by_cases hs : c = '\''
    · exact ⟨b,fun p => by simp [turn,hs]⟩
    by_cases hd : c = '"'
    · exact ⟨b,fun p => by simp [turn,hd]⟩
    exact ⟨b.put c,fun p => by simp only [scanToken_plain b p hc hs hd he,turn,hs,hd,if_false]⟩
  | inSingle =>
    by_cases hs : c = '\''
    · exact ⟨b,fun p => by simp [turn,hs]⟩
    · exact ⟨b.put c,fun p => by simp only [scanToken_inSingle b p hs,turn,hs,if_false]⟩
  | inDouble =>
    have he : c ≠ '\\' := fun he => h ⟨he,by simp⟩
    by_cases hd : c = '"'
    · exact ⟨b,fun p => by simp [turn,hd]⟩
    · exact ⟨b.put c,fun p => by simp only [scanToken_inDouble b p hd he,turn,hd,if_false]⟩

theorem scanToken_takes (b : Buffer) (h : Escapes q c) (d : Char) :
    ∃ b₁, ∀ p, scanToken q b (c :: d :: p) = scanToken q b₁ p := by
  obtain ⟨rfl,hq⟩ := h
  cases q with
  | outside => exact ⟨b.put d,fun p => scanToken_escape b d p⟩
  | inSingle => exact absurd rfl hq
  | inDouble =>
    by_cases hn : d = 'n'
    · exact ⟨b.put '\n',fun p => by simp [scanToken,hn]⟩
    by_cases hd : d = '"' ∨ d = '\\'
    · exact ⟨b.put d,fun p => by simp [scanToken,hn,hd]⟩
    · -- the backslash is put, and the next turn puts the character
      obtain ⟨hd,he⟩ := not_or.mp hd
      refine ⟨(b.put '\\').put d,fun p => ?_⟩
      rw [← scanToken_inDouble (b.put '\\') p hd he]
      simp [scanToken,hn,hd,he]

/-- What a scan has taken of a text, and what it says of the rest of the line. -/
structure Cut (q : Quote) (b : Buffer) (s used : Text) (r : Quote × Buffer × Text) : Prop where
  text : s = used ++ r.2.2
  quote : quoteAfter q s = quoteAfter r.1 r.2.2
  closed : ∀ w, closedPart q w s = closedPart r.1 (w ++ used) r.2.2
  unended : r.1 ≠ .outside → r.2.2 = []
  ends : ∀ d p, r.2.2 = d :: p → blank d = true
  again : ∀ d p, r.2.2 = d :: p → ∀ p', scanToken q b (used ++ d :: p') = (r.1,r.2.1,d :: p')

theorem Cut.turn (h : Cut (turn q c) b₁ p used r) (hc : ¬ (q = .outside ∧ blank c = true))
    (he : ¬ Escapes q c) (hb : ∀ p, scanToken q b (c :: p) = scanToken (Shell.turn q c) b₁ p) :
    Cut q b (c :: p) (c :: used) r := by
  constructor
  · exact congrArg (c :: ·) h.text
  · exact (quoteAfter_turn he).trans h.quote
  · intro w
    rw [closedPart_turn hc he,h.closed,List.append_assoc]
    rfl
  · exact h.unended
  · exact h.ends
  · intro d p hr p'
    exact (hb _).trans (h.again d p hr p')

theorem Cut.escape (h : Cut q b₁ p used r) (he : Escapes q c)
    (hb : ∀ p, scanToken q b (c :: d :: p) = scanToken q b₁ p) :
    Cut q b (c :: d :: p) (c :: d :: used) r := by
  constructor
  · exact congrArg (fun t => c :: d :: t) h.text
  · exact (quoteAfter_escape he).trans h.quote
  · intro w
    rw [closedPart_escape he,h.closed,List.append_assoc]
    rfl
  · exact h.unended
  · exact h.ends
  · intro d p hr p'
    exact (hb _).trans (h.again d p hr p')

theorem exists_cut (q : Quote) (b : Buffer) (s : Text) :
    ∃ used, Cut q b s used (scanToken q b s) := by
  induction hn : s.length using Nat.strong_induction_on generalizing q b s with
  | _ n ih =>
    subst hn
    cases s with
    | nil =>
      rw [scanToken_nil]
      exact ⟨[],rfl,rfl,fun w => by rw [List.append_nil],fun _ => rfl,fun d p h => (by cases h),
        fun d p h => (by cases h)⟩
    | cons c p =>
      by_cases hc : q = .outside ∧ blank c = true
      · obtain ⟨rfl,hc⟩ := hc
        rw [scanToken_blank b p hc]
        refine ⟨[],rfl,rfl,fun w => by rw [List.append_nil],fun hn => absurd rfl hn,
          fun d p h => ?_,fun d p h p' => ?_⟩
        · cases h
          exact hc
        · cases h
          exact scanToken_blank b p' hc
      by_cases he : Escapes q c
      · cases p with
        | nil =>
          have hb : scanToken q b [c] = (q,(scanToken q b [c]).2.1,[]) := by
            obtain ⟨rfl,hq⟩ := he
            cases q with
            | outside => simp
            | inSingle => exact absurd rfl hq
            | inDouble => simp [scanToken]
          rw [hb]
          refine ⟨[c],rfl,?_,fun w => ?_,fun _ => rfl,fun d p h => (by cases h),
            fun d p h => (by cases h)⟩
          · obtain ⟨rfl,hq⟩ := he
            cases q <;> simp_all [quoteAfter,turn]
          · simp only [closedPart,if_neg hc]
        | cons d p =>
          obtain ⟨b₁,hb⟩ := scanToken_takes b he d
          obtain ⟨used,hcut⟩ := ih p.length (by simp only [List.length_cons]; omega) q b₁ p rfl
          rw [hb]
          exact ⟨_,hcut.escape he hb⟩
      · obtain ⟨b₁,hb⟩ := scanToken_turn b hc he
        obtain ⟨used,hcut⟩ := ih p.length (by simp) (turn q c) b₁ p rfl
        rw [hb]
        exact ⟨_,hcut.turn hc he hb⟩

end Scan

section Tokens
variable {c : Char} {p s rest : Text} {b : Buffer}

theorem nextToken_blank (hc : blank c = true) :
    (nextToken (c :: p)).token = (nextToken p).token ∧
      ∀ t, (nextToken p).token = some t → (nextToken (c :: p)).input = (nextToken p).input := by
  have hdrop : (c :: p).dropWhile blank = p.dropWhile blank := List.dropWhile_cons_of_pos hc
  constructor
  · simp only [nextToken,hdrop]
    split
    · rfl
    · split <;> rfl
  · intro t ht
    obtain ⟨d,p',b,hskip,_,hscan⟩ := nextToken_some ht
    generalize (nextToken p).input = rest at hscan ⊢
    simp only [nextToken,hdrop,hskip,hscan]

theorem tokens_blank (hc : blank c = true) : tokens (c :: p) = tokens p := by
  obtain ⟨htoken,hinput⟩ := nextToken_blank (p := p) hc
  cases hp : (nextToken p).token with
  | none => rw [tokens_none hp,tokens_none (htoken.trans hp)]
  | some t => rw [tokens_some hp,tokens_some (htoken.trans hp),hinput t hp]

theorem tokens_blanks_append {pre : Text} (h : ∀ c ∈ pre, blank c = true) (s : Text) :
    tokens (pre ++ s) = tokens s := by
  induction pre with
  | nil => rfl
  | cons c pre ih =>
    rw [List.cons_append,tokens_blank (h c List.mem_cons_self),
      ih fun d hd => h d (List.mem_cons_of_mem c hd)]

theorem tokens_scan (hc : ¬ blank c = true)
    (h : scanToken .outside Buffer.empty (c :: p) = (.outside,b,rest)) :
    tokens (c :: p) = b.text :: tokens rest := by
  have hread : nextToken (c :: p) = ⟨some b.text,rest,b.closed,[]⟩ := by
    simp only [nextToken,List.dropWhile_cons_of_neg hc,h]
  rw [tokens_some (t := b.text) (by rw [hread]),hread]

theorem tokens_unclosed (hc : ¬ blank c = true)
    (h : (scanToken .outside Buffer.empty (c :: p)).1 ≠ .outside) : tokens (c :: p) = [] := by
  apply tokens_none
  rcases hscan : scanToken .outside Buffer.empty (c :: p) with ⟨q,b,rest⟩
  rw [hscan] at h
  cases q with
  | outside => exact absurd rfl h
  | inSingle => simp only [nextToken,List.dropWhile_cons_of_neg hc,hscan]
  | inDouble => simp only [nextToken,List.dropWhile_cons_of_neg hc,hscan]

/-- The words in front of the one that leaves a quote open are those of the closed part. -/
theorem tokens_closedPart (h : quoteAfter .outside s ≠ .outside) :
    tokens (closedPart .outside [] s) = tokens s := by
  induction hn : s.length using Nat.strong_induction_on generalizing s with
  | _ n ih =>
    subst hn
    cases s with
    | nil => exact absurd rfl h
    | cons c p =>
      by_cases hc : blank c = true
      · rw [quoteAfter_turn (not_escapes_blank hc),turn_blank hc] at h
        rw [closedPart_blank hc,List.nil_append,tokens_blank hc,tokens_blank hc,
          ih p.length (by simp) h rfl]
      · obtain ⟨used,hcut⟩ := exists_cut .outside Buffer.empty (c :: p)
        rcases hr : scanToken .outside Buffer.empty (c :: p) with ⟨q,b,rest⟩
        rw [hr] at hcut
        by_cases hq : q = .outside
        · subst hq
          cases rest with
          | nil => exact absurd hcut.quote h
          | cons d r =>
            have hd : blank d = true := hcut.ends d r rfl
            have hlen : (c :: p).length = (used ++ d :: r).length := congrArg List.length hcut.text
            have hrest : quoteAfter .outside r ≠ .outside := by
              intro hrest
              rw [hcut.quote,quoteAfter_turn (not_escapes_blank hd),turn_blank hd] at h
              exact h hrest
            have hused : ∃ used', used = c :: used' := by
              cases used with
              | nil =>
                obtain ⟨rfl,_⟩ := List.cons.inj hcut.text
                exact absurd hd hc
              | cons x used' => exact ⟨used',by rw [(List.cons.inj hcut.text).1]⟩
            obtain ⟨used',rfl⟩ := hused
            calc tokens (closedPart .outside [] (c :: p))
                = tokens ((c :: used') ++ d :: closedPart .outside [] r) := by
                  rw [hcut.closed,closedPart_blank hd,List.nil_append]
              _ = b.text :: tokens (d :: closedPart .outside [] r) :=
                  tokens_scan hc (hcut.again d r rfl _)
              _ = b.text :: tokens (d :: r) := by
                  rw [tokens_blank hd,tokens_blank hd,
                    ih r.length (by simp at hlen ⊢; omega) hrest rfl]
              _ = tokens (c :: p) := (tokens_scan hc hr).symm
        · have hrest : rest = [] := hcut.unended hq
          rw [hcut.closed,hrest,tokens_unclosed hc (by rw [hr]; exact hq)]
          cases q <;> exact tokens_none rfl

end Tokens

section Trailing
variable {q : Quote} {s blanks w : Text} {c : Char}

theorem turn_escapes (h : Escapes q c) : turn q c = q := by
  obtain ⟨rfl,hq⟩ := h
  cases q with
  | outside => rfl
  | inSingle => exact absurd rfl hq
  | inDouble => rfl

theorem closedPart_end (h : ¬ (q = .outside ∧ blank c = true)) : closedPart q w [c] = [] := by
  rw [closedPart,if_neg h]

/-- A blank behind a line changes no quote, and what is closed only outside quotes. -/
theorem trailing_blank (hc : blank c = true) (q : Quote) (s : Text) :
    quoteAfter q (s ++ [c]) = quoteAfter q s ∧
      (quoteAfter q s ≠ .outside → ∀ w, closedPart q w (s ++ [c]) = closedPart q w s) := by
  induction hn : s.length using Nat.strong_induction_on generalizing q s with
  | _ n ih =>
    subst hn
    cases s with
    | nil => exact ⟨turn_blank hc,fun hq w => closedPart_end fun h => hq h.1⟩
    | cons d p =>
      by_cases he : Escapes q d
      · cases p with
        | nil =>
          constructor
          · exact (quoteAfter_escape he).trans (turn_escapes he).symm
          · intro _ w
            rw [closedPart_end fun h => not_escapes_blank h.2 he]
            exact closedPart_escape he
        | cons d' p =>
          obtain ⟨hquote,hclosed⟩ := ih p.length (by simp only [List.length_cons]; omega) q p rfl
          rw [List.cons_append,List.cons_append,quoteAfter_escape he,quoteAfter_escape he]
          refine ⟨hquote,fun hq w => ?_⟩
          rw [closedPart_escape he,closedPart_escape he,hclosed hq]
      · obtain ⟨hquote,hclosed⟩ := ih p.length (by simp) (turn q d) p rfl
        rw [List.cons_append,quoteAfter_turn he,quoteAfter_turn he]
        refine ⟨hquote,fun hq w => ?_⟩
        by_cases hd : q = .outside ∧ blank d = true
        · obtain ⟨rfl,hd⟩ := hd
          rw [turn_blank hd] at hclosed hq
          rw [closedPart_blank hd,closedPart_blank hd,hclosed hq]
        · rw [closedPart_turn hd he,closedPart_turn hd he,hclosed hq]

theorem trailing_blanks (h : ∀ c ∈ blanks, blank c = true) (s : Text) :
    quoteAfter .outside (s ++ blanks) = quoteAfter .outside s ∧
      (quoteAfter .outside s ≠ .outside →
        closedPart .outside [] (s ++ blanks) = closedPart .outside [] s) := by
  induction blanks using List.reverseRecOn with
  | nil => simp
  | append_singleton blanks c ih =>
    obtain ⟨hquote,hclosed⟩ := ih fun d hd => h d (List.mem_append_left _ hd)
    obtain ⟨hquote',hclosed'⟩ :=
      trailing_blank (h c (by simp)) .outside (s ++ blanks)
    rw [← List.append_assoc]
    refine ⟨hquote'.trans hquote,fun hs => ?_⟩
    rw [hclosed' (hquote ▸ hs),hclosed hs]

end Trailing

section Refused
variable (alloc : ℕ → Bool) {line : Text}

theorem closeCommand_last (b : Building) (cmd : Command) (m : Machine) :
    (closeCommand [] b cmd m).1 =
      if cmd.argv.length = 0 then none else some {b with commands := b.commands ++ [cmd]} := by
  unfold closeCommand
  split_ifs with _ hrest
  · exact absurd rfl hrest.1
  · rfl
  · rfl

theorem fillCommand_last (trimmed : Text) (b : Building) (m : Machine) :
    ∃ cmd, (fillCommand alloc trimmed [] b m).1 =
      if alloc m.allocations = true ∧ (reading trimmed).WellFormed then
        some {b with commands := b.commands ++ [cmd]}
      else none := by
  have hf := parseTokens_follows alloc (reads_reading trimmed) (Nat.lt_succ_self trimmed.length)
    Command.fresh m.allocate
  unfold fillCommand
  by_cases ha : alloc m.allocations = true
  · rw [if_pos ha]
    split
    · rename_i hp
      rw [hp] at hf
      have hl : (reading trimmed).lacking ≠ none := hf.rejected.mp rfl
      exact ⟨.fresh,by simp [Reading.WellFormed,hl]⟩
    · rename_i cmd m' hp
      rw [hp] at hf
      have hl : (reading trimmed).lacking = none := by
        by_contra hl
        cases hf.rejected.mpr hl
      have hlen : cmd.argv.length = (reading trimmed).arguments.length := by
        simpa [Command.fresh] using hf.argc cmd rfl
      refine ⟨cmd,?_⟩
      rw [closeCommand_last,hlen]
      by_cases harg : (reading trimmed).arguments = [] <;> simp [Reading.WellFormed,ha,hl,harg]
  · rw [if_neg ha]
    exact ⟨.fresh,by simp [ha]⟩

/-- A line of one segment is turned down for want of memory or of a command. -/
theorem parseSegments_last (segment : Text) (m : Machine) :
    (parseSegments alloc [segment] .start m).1 = none ↔
      ¬ (alloc m.allocations = true ∧ (segmentReading segment).WellFormed) := by
  simp only [parseSegments,parseSegment]
  by_cases ht : trimWhitespace segment = []
  · rw [if_pos ht,segmentReading_blank ht]
    simp [Reading.WellFormed,Reading.empty]
  · have hgrow : grow alloc .start m = (some .start,m) := rfl
    rw [if_neg ht,hgrow]
    obtain ⟨cmd,hfill⟩ := fillCommand_last alloc (trimWhitespace segment) .start
      (m.touch [.commands 0 initialCapacity])
    change _ = if alloc m.allocations = true ∧ (segmentReading segment).WellFormed then _ else _
      at hfill
    simp only [Building.start,List.length_nil] at hfill ⊢
    split_ifs at hfill with hok
    · split
      · rename_i hp
        rw [hp] at hfill
        cases hfill
      · rename_i b' m' hp
        rw [hp] at hfill
        cases hfill
        simp [finishLine,hok]
    · split
      · simp [hok]
      · rename_i b' m' hp
        rw [hp] at hfill
        cases hfill

theorem parseLine_oneSegment (hbar : '|' ∉ line) :
    (parseLine alloc (some line)).1 = none ↔
      ¬ ((alloc 0 = true ∧ alloc 1 = true ∧ alloc 2 = true) ∧
        (reading (trimmedLine line)).WellFormed) := by
  have hlast := parseSegments_last alloc (trimTrailing line) Machine.start.allocate.allocate
  have hsegment : segmentReading (trimTrailing line) = reading (trimmedLine line) := rfl
  simp only [parseLine,segments_singleton hbar]
  split_ifs with hblank h0 h1
  · have htrim : trimTrailing line = [] := by
      have hsegments := segments_blank hblank
      rw [segments_singleton hbar] at hsegments
      exact List.singleton_inj.mp hsegments
    rw [← hsegment,htrim,segmentReading_blank rfl]
    simp [Reading.WellFormed,Reading.empty]
  · rw [hlast,hsegment]
    simp [h0,h1,Machine.start,Machine.allocate]
  · simp [h0,h1]
  · simp [h0]

theorem reading_closedPart (h : quoteAfter .outside line ≠ .outside) :
    reading (trimmedLine line) = reading (closedPart .outside [] line) := by
  obtain ⟨pre,post,hpre,hpost,hline⟩ := exists_trimmedLine line
  obtain ⟨hquote,hclosed⟩ := trailing_blanks hpost (pre ++ trimmedLine line)
  rw [← hline] at hquote hclosed
  have hfront : quoteAfter .outside (pre ++ trimmedLine line) ≠ .outside := hquote ▸ h
  rw [reading,reading,hclosed hfront,tokens_closedPart hfront,tokens_blanks_append hpre]

/-- `parse_line` returns NULL from a run inside its arrays, and the shell runs nothing. -/
def Refused (line : Text) : Prop :=
  (parseLine alloc (some line)).1 = none ∧ StaysInside alloc line ∧
    ∀ input, cutLine input = line → shellExecuteLine alloc (some input) = .nothing

theorem terminated_closedPart (hbar : '|' ∉ line) (hopen : quoteAfter .outside line ≠ .outside) :
    Terminated (segments line) ↔
      (reading (closedPart .outside [] line)).arguments.length < maxTokens := by
  rw [segments_singleton hbar,← reading_closedPart hopen]
  exact and_iff_left fun _ => trivial

/-- A line that leaves a quote open is refused, whatever requests fail, just when the words in
front of the open one are no command themselves, and neither they nor a word's characters are
too many for the parser's arrays. -/
theorem refused_iff_closedPart (line : Text) (hbar : '|' ∉ line)
    (hopen : quoteAfter .outside line ≠ .outside) :
    (∀ alloc, Refused alloc line) ↔ ¬ (reading (closedPart .outside [] line)).WellFormed ∧
      (reading (closedPart .outside [] line)).arguments.length < maxTokens ∧
      Legible (trimmedLine line) := by
  have hparse := fun alloc => parseLine_oneSegment alloc hbar
  have hseg := segments_singleton hbar
  rw [reading_closedPart hopen] at hparse
  rw [← terminated_closedPart hbar hopen]
  constructor
  · intro h
    have hfull : ∀ n, (fun _ => true : ℕ → Bool) n = true := fun _ => rfl
    obtain ⟨hnone,hinside,_⟩ := h fun _ => true
    refine ⟨by simpa using (hparse _).mp hnone,?_,?_⟩
    · exact (parseLine_faultless_iff hfull .empty).mp hinside.2
    · by_cases hblank : trimWhitespace line = []
      · have htrim : trimTrailing line = [] := by
          rw [segments_blank hblank] at hseg
          exact (List.singleton_inj.mp hseg).symm
        rw [trimmedLine,htrim]
        exact legible_of_length (by decide)
      · exact parseLine_legible hfull hseg hblank hinside.1
  · rintro ⟨hwf,hterm,hlegible⟩ alloc
    have hnone := (hparse alloc).mpr fun h => hwf h.2
    refine ⟨hnone,staysInside_legible alloc ?_ hterm,fun input hcut => ?_⟩
    · rw [hseg]
      exact List.forall_mem_singleton.mpr hlegible
    · have hexit : line ≠ exitText := by
        rintro rfl
        exact hopen rfl
      simp only [shellExecuteLine,hcut,if_neg hexit,hnone]

/-- A first word, and an open quote in the second. -/
def openSecond : Text := ['e','c','h','o',' ','\'','a']

theorem refused_iff_closedPart_openSecond : (∀ alloc, Refused alloc openSecond) ↔
    ¬ (reading (closedPart .outside [] openSecond)).WellFormed ∧
      (reading (closedPart .outside [] openSecond)).arguments.length < maxTokens ∧
      Legible (trimmedLine openSecond) :=
  refused_iff_closedPart openSecond (by decide) (by decide)

/-- The shell runs the first word. -/
theorem openSecond_executed : '|' ∉ openSecond ∧ quoteAfter .outside openSecond = .inSingle ∧
    shellExecuteLine (fun _ => true) (some openSecond) =
      .basic ⟨[some ['e','c','h','o']],none,none,none⟩ := by
  refine ⟨by decide,by decide,?_⟩
  decide +kernel

end Refused

end UnixShell.Shell
