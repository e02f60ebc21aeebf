import UnixShell.Parser.Grammar

/-! # What quoting protects

Words rendered inside single quotes come back from the tokeniser one by one,
whatever they contain. The layers around it do not know the quotes: the line
is split at every bar, and a word read back is compared with the operators.
A rendered line is parsed into the commands it was made from exactly when no
word meets one of these two.
-/
namespace UnixShell.Parser

/-- A word's characters as they stand between single quotes. -/
def escapeSingle (w : Text) : Text :=
  w.flatMap fun c => if c = '\'' then ['\'','\\','\'','\''] else [c]

def quoteSingle (w : Text) : Text := '\'' :: (escapeSingle w ++ ['\''])

def renderCommand (ws : List Text) : Text := [' '].intercalate (ws.map quoteSingle)

def renderLine (cmds : List (List Text)) : Text :=
  [' ','|',' '].intercalate (cmds.map renderCommand)

/-- The commands a line is rendered from. -/
structure Quotable (cmds : List (List Text)) : Prop where
  nonempty : cmds ≠ []
  words : ∀ ws ∈ cmds, ws ≠ [] ∧ ws.length ≤ 99
  characters : ∀ ws ∈ cmds, ∀ w ∈ ws, '\x00' ∉ w ∧ '\n' ∉ w
  length : (renderLine cmds).length ≤ 1023

/-- Exactly these commands, without any redirection. -/
def plainPipeline (cmds : List (List Text)) : Pipeline :=
  ⟨cmds.map fun ws => ⟨ws.map some,none,none,none⟩,cmds.length⟩

theorem escapeSingle_cons (c : Char) (w : Text) : escapeSingle (c :: w) =
    (if c = '\'' then ['\'','\\','\'','\''] else [c]) ++ escapeSingle w := List.flatMap_cons

section Words

/-- Inside single quotes the scan takes a word's escaped characters and puts the word. -/
theorem scanToken_escapeSingle (b : Buffer) (w p : Text) :
    scanToken .inSingle b (escapeSingle w ++ p) = scanToken .inSingle (w.foldl Buffer.put b) p := by
  induction w generalizing b with
  | nil => rfl
  | cons c w ih =>
    rw [escapeSingle_cons,List.append_assoc]
    by_cases hc : c = '\''
    · subst hc
      simpa using ih (b.put '\'')
    · rw [if_neg hc,List.singleton_append,scanToken_inSingle b _ hc]
      exact ih (b.put c)

theorem foldl_put_text (b : Buffer) (w : Text) : (w.foldl Buffer.put b).text = b.text ++ w := by
  induction w generalizing b with
  | nil => simp
  | cons c w ih => simp [ih]

/-- A token ends where the text does or at a blank. -/
def Ends (rest : Text) : Prop := ∀ c p, rest = c :: p → blank c = true

theorem scanToken_ends (b : Buffer) {rest : Text} (h : Ends rest) :
    scanToken .outside b rest = (.outside,b,rest) := by
  cases rest with
  | nil => simp
  | cons c p => exact scanToken_blank b p (h c p rfl)

theorem scanToken_quoteSingle (b : Buffer) (w : Text) {rest : Text} (hrest : Ends rest) :
    scanToken .outside b (quoteSingle w ++ rest) = (.outside,w.foldl Buffer.put b,rest) := by
  simp only [quoteSingle,List.cons_append,List.append_assoc,List.nil_append]
  rw [scanToken_openSingle,scanToken_escapeSingle,scanToken_closeSingle,scanToken_ends _ hrest]

/-- Behind blanks a call returns what the scan puts, and stops where the scan does. -/
theorem nextToken_scanned {pre p rest : Text} {c : Char} {b : Buffer}
    (hpre : ∀ c ∈ pre, blank c = true) (hc : blank c = false)
    (hscan : scanToken .outside Buffer.empty (c :: p ++ rest) = (.outside,b,rest)) :
    nextToken (pre ++ c :: p ++ rest) = ⟨some b.text,rest,b.closed,[]⟩ := by
  have hskip : (pre ++ c :: p ++ rest).dropWhile blank = c :: (p ++ rest) := by
    rw [List.append_assoc,List.dropWhile_append_of_pos hpre,List.cons_append,
      List.dropWhile_cons_of_neg (by simp [hc])]
  rw [List.cons_append] at hscan
  simp only [nextToken,hskip,hscan]

/-- A quoted word is read back whole, behind any blanks. -/
theorem nextToken_quoteSingle {pre : Text} (hpre : ∀ c ∈ pre, blank c = true) (w rest : Text)
    (hrest : Ends rest) :
    (nextToken (pre ++ quoteSingle w ++ rest)).token = some w ∧
      (nextToken (pre ++ quoteSingle w ++ rest)).input = rest := by
  have hread := nextToken_scanned hpre (by decide) (scanToken_quoteSingle Buffer.empty w hrest)
  rw [foldl_put_text] at hread
  rw [quoteSingle,hread]
  exact ⟨rfl,rfl⟩

@[simp] theorem renderCommand_singleton (w : Text) : renderCommand [w] = quoteSingle w :=
  List.intercalate_singleton

theorem renderCommand_cons_cons (w w' : Text) (ws : List Text) :
    renderCommand (w :: w' :: ws) = quoteSingle w ++ ' ' :: renderCommand (w' :: ws) := by
  simp [renderCommand,List.intercalate_cons_cons]

/-- The words of a rendered command come back in order. -/
theorem tokens_renderCommand (pre : Text) (hpre : ∀ c ∈ pre, blank c = true) {ws : List Text}
    (hws : ws ≠ []) : tokens (pre ++ renderCommand ws) = ws := by
  induction ws generalizing pre with
  | nil => exact absurd rfl hws
  | cons w ws ih =>
    cases ws with
    | nil =>
      obtain ⟨ht,hi⟩ := nextToken_quoteSingle hpre w [] (by intro c p h; cases h)
      rw [List.append_nil] at ht hi
      rw [renderCommand_singleton,tokens_some ht,hi,tokens_none rfl]
    | cons w' ws =>
      obtain ⟨ht,hi⟩ := nextToken_quoteSingle hpre w (' ' :: renderCommand (w' :: ws))
        (by intro c p h; cases h; rfl)
      rw [renderCommand_cons_cons,← List.append_assoc,tokens_some ht,hi]
      exact congrArg (w :: ·) (ih [' '] (by simp [blank]) (by simp))

end Words

section Bars

theorem bar_mem_escapeSingle (w : Text) : '|' ∈ escapeSingle w ↔ '|' ∈ w := by
  induction w with
  | nil => simp [escapeSingle]
  | cons c w ih =>
    rw [escapeSingle_cons,List.mem_append,List.mem_cons,ih]
    by_cases hc : c = '\'' <;> simp [hc]

theorem bar_mem_renderCommand (ws : List Text) :
    '|' ∈ renderCommand ws ↔ ∃ w ∈ ws, '|' ∈ w := by
  induction ws with
  | nil => simp [renderCommand]
  | cons w ws ih =>
    have hq : '|' ∈ quoteSingle w ↔ '|' ∈ w := by simp [quoteSingle,bar_mem_escapeSingle]
    cases ws with
    | nil => simp [hq]
    | cons w' ws => simp [renderCommand_cons_cons,hq,ih]

@[simp] theorem renderLine_singleton (ws : List Text) : renderLine [ws] = renderCommand ws :=
  List.intercalate_singleton

theorem renderLine_cons_cons (ws ws' : List Text) (cmds : List (List Text)) :
    renderLine (ws :: ws' :: cmds) =
      renderCommand ws ++ ' ' :: '|' :: ' ' :: renderLine (ws' :: cmds) := by
  simp [renderLine,List.intercalate_cons_cons]

/-- The bars of a rendered line are those between the commands and those in the words. -/
theorem count_bar_renderLine {cmds : List (List Text)} (hne : cmds ≠ []) :
    (renderLine cmds).count '|'+1 = cmds.length+(cmds.flatMap renderCommand).count '|' := by
  induction cmds with
  | nil => exact absurd rfl hne
  | cons ws cmds ih =>
    cases cmds with
    | nil => simp [Nat.add_comm]
    | cons ws' cmds =>
      have hrec := ih (by simp)
      have hsep : (renderLine (ws :: ws' :: cmds)).count '|' =
          (renderCommand ws).count '|'+((renderLine (ws' :: cmds)).count '|'+1) := by
        simp [renderLine_cons_cons]
      have hflat : ((ws :: ws' :: cmds).flatMap renderCommand).count '|' =
          (renderCommand ws).count '|'+((ws' :: cmds).flatMap renderCommand).count '|' := by
        rw [List.flatMap_cons,List.count_append]
      rw [List.length_cons,hsep,hflat]
      omega

end Bars

section Lines

/-- A command shows no blank at either end. -/
theorem renderCommand_ends {ws : List Text} (hws : ws ≠ []) :
    ∃ mid, renderCommand ws = '\'' :: (mid ++ ['\'']) := by
  induction ws with
  | nil => exact absurd rfl hws
  | cons w ws ih =>
    cases ws with
    | nil => exact ⟨escapeSingle w,by simp [quoteSingle]⟩
    | cons w' ws =>
      obtain ⟨mid,hmid⟩ := ih (by simp)
      exact ⟨escapeSingle w ++ '\'' :: ' ' :: '\'' :: mid,
        by simp [renderCommand_cons_cons,hmid,quoteSingle]⟩

theorem renderLine_ends {cmds : List (List Text)} (hne : cmds ≠ []) (hws : ∀ ws ∈ cmds, ws ≠ []) :
    ∃ front, renderLine cmds = front ++ ['\''] := by
  induction cmds with
  | nil => exact absurd rfl hne
  | cons ws cmds ih =>
    cases cmds with
    | nil =>
      obtain ⟨mid,hmid⟩ := renderCommand_ends (hws ws List.mem_cons_self)
      exact ⟨'\'' :: mid,by simp [hmid]⟩
    | cons ws' cmds =>
      obtain ⟨front,hfront⟩ := ih (by simp) fun x hx => hws x (List.mem_cons_of_mem ws hx)
      exact ⟨renderCommand ws ++ ' ' :: '|' :: ' ' :: front,
        by simp [renderLine_cons_cons,hfront]⟩

theorem trimTrailing_append {s post : Text} (hpost : ∀ c ∈ post, blank c = true) :
    trimTrailing (s ++ post) = trimTrailing s := by
  simp only [trimTrailing,List.rdropWhile,List.reverse_append]
  rw [List.dropWhile_append_of_pos (by simpa using hpost)]

theorem trimTrailing_quote (s : Text) : trimTrailing (s ++ ['\'']) = s ++ ['\''] :=
  List.rdropWhile_concat_neg blank s '\'' (by decide)

theorem trimWhitespace_renderCommand {pre : Text} (hpre : ∀ c ∈ pre, blank c = true)
    (post : Text) (hpost : ∀ c ∈ post, blank c = true) {ws : List Text} (hws : ws ≠ []) :
    trimWhitespace (pre ++ renderCommand ws ++ post) = renderCommand ws := by
  obtain ⟨mid,hmid⟩ := renderCommand_ends hws
  have hdrop : (pre ++ renderCommand ws ++ post).dropWhile blank = renderCommand ws ++ post := by
    rw [List.append_assoc,List.dropWhile_append_of_pos hpre,hmid]
    simp [blank]
  rw [trimWhitespace,hdrop,trimTrailing_append hpost,hmid]
  exact trimTrailing_quote ('\'' :: mid)

/-- Without bars in the words, a rendered line is split into its commands. -/
theorem splitOn_renderLine (pre : Text) (hpre : ∀ c ∈ pre, blank c = true)
    {cmds : List (List Text)} (hne : cmds ≠ []) (hws : ∀ ws ∈ cmds, ws ≠ [])
    (hbar : ∀ ws ∈ cmds, '|' ∉ renderCommand ws) :
    ((pre ++ renderLine cmds).splitOn '|').map trimWhitespace = cmds.map renderCommand := by
  have hblank : ∀ s : Text, (∀ c ∈ s, blank c = true) → '|' ∉ s := by
    intro s hs hmem
    exact absurd (hs _ hmem) (by decide)
  induction cmds generalizing pre with
  | nil => exact absurd rfl hne
  | cons ws cmds ih =>
    have hw := hws ws List.mem_cons_self
    have hb := hbar ws List.mem_cons_self
    cases cmds with
    | nil =>
      have htrim := trimWhitespace_renderCommand hpre [] (by simp) hw
      rw [renderLine_singleton,List.splitOn_eq_singleton (by simp [hblank pre hpre,hb])]
      simpa using htrim
    | cons ws' cmds =>
      have htrim := trimWhitespace_renderCommand hpre [' '] (by simp [blank]) hw
      have hsplit : pre ++ renderLine (ws :: ws' :: cmds) =
          (pre ++ renderCommand ws ++ [' ']) ++ '|' :: ([' '] ++ renderLine (ws' :: cmds)) := by
        simp [renderLine_cons_cons]
      have hnot : '|' ∉ pre ++ renderCommand ws ++ [' '] := by simp [hblank pre hpre,hb]
      rw [hsplit,List.splitOn_append_cons_self_of_not_mem hnot,List.map_cons,List.map_cons,htrim,
        ih [' '] (by simp [blank]) (by simp) (fun x hx => hws x (List.mem_cons_of_mem ws hx))
          (fun x hx => hbar x (List.mem_cons_of_mem ws hx))]

end Lines

section Operators

/-- Words without an operator are all arguments. -/
theorem readTokens_plain {ws : List Text} (h : ∀ w ∈ ws, redirectOf w = none) :
    readTokens ws = ⟨ws,[],none⟩ := by
  induction ws with
  | nil => rfl
  | cons w ws ih =>
    rw [readTokens_argument (h w List.mem_cons_self),ih fun x hx => h x (List.mem_cons_of_mem w hx)]
    rfl

/-- An operator among the tokens shows in the reading. -/
theorem operators_show (ts : List Text) (hl : (readTokens ts).lacking = none)
    (hf : (readTokens ts).files = []) : ∀ t ∈ ts, redirectOf t = none := by
  induction ts with
  | nil => simp
  | cons t ts ih =>
    cases ht : redirectOf t with
    | none =>
      rw [readTokens_argument ht] at hl hf
      exact List.forall_mem_cons.mpr ⟨ht,ih hl hf⟩
    | some op =>
      cases ts with
      | nil =>
        rw [readTokens_end ht] at hl
        cases hl
      | cons f ts =>
        by_cases hop : (redirectOf f).isSome = true
        · rw [readTokens_lacking ht hop] at hl
          cases hl
        · rw [readTokens_file ht hop] at hf
          cases hf

end Operators

section RoundTrip
variable {cmds : List (List Text)}

theorem segments_renderLine (hne : cmds ≠ []) (hws : ∀ ws ∈ cmds, ws ≠ []) :
    segments (renderLine cmds) = (renderLine cmds).splitOn '|' := by
  obtain ⟨front,hfront⟩ := renderLine_ends hne hws
  rw [segments,hfront,trimTrailing_quote]

/-- Without bars in the words, the segments read as the words of the commands do. -/
theorem readings_renderLine (hne : cmds ≠ []) (hws : ∀ ws ∈ cmds, ws ≠ [])
    (hbar : ∀ ws ∈ cmds, '|' ∉ renderCommand ws) :
    (segments (renderLine cmds)).map segmentReading = cmds.map readTokens := by
  have hsplit := splitOn_renderLine [] (by simp) hne hws hbar
  rw [List.nil_append,← segments_renderLine hne hws] at hsplit
  calc (segments (renderLine cmds)).map segmentReading
      = ((segments (renderLine cmds)).map trimWhitespace).map reading := by
        rw [List.map_map]
        rfl
    _ = cmds.map (reading ∘ renderCommand) := by rw [hsplit,List.map_map]
    _ = cmds.map readTokens := by
        refine List.map_congr_left fun ws hmem => congrArg readTokens ?_
        exact tokens_renderCommand [] (by simp) (hws ws hmem)

/-- As many segments as commands leave no bar to the words. -/
theorem no_bar_of_length (hne : cmds ≠ []) (hws : ∀ ws ∈ cmds, ws ≠ [])
    (hlen : (segments (renderLine cmds)).length = cmds.length) :
    ∀ ws ∈ cmds, '|' ∉ renderCommand ws := by
  have hcount := count_bar_renderLine hne
  rw [segments_renderLine hne hws,length_splitOn] at hlen
  have hbars : (cmds.flatMap renderCommand).count '|' = 0 := by omega
  intro ws hmem hin
  exact List.count_eq_zero.mp hbars (List.mem_flatMap.mpr ⟨ws,hmem,hin⟩)

theorem extend_plain (ws : List Text) :
    Command.fresh.extend ⟨ws,[],none⟩ = ⟨ws.map some,none,none,none⟩ := by
  simp [Command.extend,Command.fresh]

/-- A rendered line is parsed into just the commands it was made from exactly when no word
contains a bar and no word is an operator. -/
theorem quotedRoundTrip {alloc : ℕ → Bool} (hfull : ∀ n, alloc n = true) (h : Quotable cmds) :
    (parseLine alloc (some (renderLine cmds))).1 = some (plainPipeline cmds) ↔
      ∀ ws ∈ cmds, ∀ w ∈ ws, '|' ∉ w ∧ redirectOf w = none := by
  have hws : ∀ ws ∈ cmds, ws ≠ [] := fun ws hmem => (h.words ws hmem).1
  have hcommands : (segments (renderLine cmds)).map segmentCommand =
      ((segments (renderLine cmds)).map segmentReading).map Command.fresh.extend := by
    rw [List.map_map]
    rfl
  rw [parseLine_full hfull,hcommands]
  constructor
  · intro he
    split at he
    next hwf =>
      obtain ⟨hcmds,hlen⟩ := Pipeline.mk.inj (Option.some.inj he)
      have hbar := no_bar_of_length h.nonempty hws hlen
      have hread := readings_renderLine h.nonempty hws hbar
      rw [hread,List.map_map,List.map_inj_left] at hcmds
      intro ws hmem w hw
      have hplain : Command.fresh.extend (readTokens ws) = ⟨ws.map some,none,none,none⟩ :=
        hcmds ws hmem
      have hlacking : (readTokens ws).lacking = none := by
        obtain ⟨s,hs,hr⟩ := List.mem_map.mp (hread ▸ List.mem_map_of_mem hmem)
        rw [← hr]
        exact (hwf s hs).1
      have hfiles : (readTokens ws).files = [] := by
        by_contra hn
        have hd := extend_redirected Command.fresh hn
        rw [hplain] at hd
        cases hd
      exact ⟨fun hmem' => hbar ws hmem ((bar_mem_renderCommand ws).mpr ⟨w,hw,hmem'⟩),
        operators_show ws hlacking hfiles w hw⟩
    · cases he
  · intro hclean
    have hbar : ∀ ws ∈ cmds, '|' ∉ renderCommand ws := by
      intro ws hmem hin
      obtain ⟨w,hw,hin⟩ := (bar_mem_renderCommand ws).mp hin
      exact (hclean ws hmem w hw).1 hin
    have hread := readings_renderLine h.nonempty hws hbar
    have hplain : ∀ ws ∈ cmds, readTokens ws = ⟨ws,[],none⟩ := fun ws hmem =>
      readTokens_plain fun w hw => (hclean ws hmem w hw).2
    have hwf : ∀ s ∈ segments (renderLine cmds), (segmentReading s).WellFormed := by
      intro s hs
      obtain ⟨ws,hmem,hr⟩ := List.mem_map.mp (hread ▸ List.mem_map_of_mem hs)
      rw [← hr,hplain ws hmem]
      exact ⟨rfl,hws ws hmem⟩
    have hlen : (segments (renderLine cmds)).length = cmds.length := by
      simpa using congrArg List.length hread
    rw [if_pos hwf,hread,hlen,List.map_map,plainPipeline]
    congr 2
    exact List.map_congr_left fun ws hmem => by
      rw [Function.comp_apply,hplain ws hmem,extend_plain]

end RoundTrip

/-- Blanks, a quote and a backslash in the words of two commands. -/
def quotedWords : List (List Text) := [[['l','s'],['i','t','\'','s',' ','x']],[['w','c'],['\\']]]

theorem quotedRoundTrip_quotedWords :
    (parseLine (fun _ => true) (some (renderLine quotedWords))).1 =
      some (plainPipeline quotedWords) :=
  (quotedRoundTrip (fun _ => rfl) ⟨by decide,by decide,by decide,by decide⟩).mpr (by decide)

/-- A bar inside a word. -/
def barWord : List (List Text) := [[['a','|','b']]]

/-- An operator as an argument. -/
def operatorWord : List (List Text) := [[['c','a','t'],['<'],['f']]]

/-- The quotes protect neither a bar nor an operator. -/
theorem quotesUnprotected :
    (Quotable barWord ∧ (parseLine (fun _ => true) (some (renderLine barWord))).1 ≠
      some (plainPipeline barWord)) ∧
    (Quotable operatorWord ∧ (parseLine (fun _ => true) (some (renderLine operatorWord))).1 ≠
      some (plainPipeline operatorWord)) := by
  have hbar : Quotable barWord := ⟨by decide,by decide,by decide,by decide⟩
  have hop : Quotable operatorWord := ⟨by decide,by decide,by decide,by decide⟩
  exact ⟨⟨hbar,by decide +kernel⟩,hop,by decide +kernel⟩

end UnixShell.Parser
