import UnixShell.Foundation.Words
import UnixShell.Parser.Quoting

/-! # Where the tokens are the words

A quote or a backslash outside quotes is read and not put, and no later character makes up
for it: the tokens hold every non-blank character of a text only if none of its characters
is special. Then they are its words.
-/
namespace UnixShell.Parser
open Foundation

/-- The characters that change the state of the scan, or escape the next one. -/
def special (c : Char) : Bool := c == '\'' || c == '"' || c == '\\'

/-- What `next_token` reads as it stands. -/
def Plain (s : Text) : Prop := ∀ c ∈ s, special c = false

instance : DecidablePred Plain := fun s => List.decidableBAll _ s

/-- The number of characters that are not blanks. -/
def content (s : Text) : ℕ := s.countP (fun c => !blank c)

section Content
variable (b : Buffer) {c : Char} {s t p : Text}

@[simp] theorem content_nil : content [] = 0 := rfl

@[simp] theorem content_append : content (s ++ t) = content s + content t := List.countP_append

theorem content_cons (c : Char) (p : Text) : content (c :: p) = content [c] + content p := by
  rw [← content_append]
  rfl

theorem content_special (hc : special c = true) : content [c] = 1 := by
  have hb : blank c = false := by
    simp only [special,Bool.or_eq_true,beq_iff_eq] at hc
    rcases hc with (rfl | rfl) | rfl <;> rfl
  simp [content,hb]

theorem content_le_iff : content s = 0 ↔ ∀ c ∈ s, blank c = true := by
  simp [content]

/-- What the scan puts and what it leaves do not exceed what it reads. -/
theorem content_scanToken (q : Quote) (b : Buffer) (p : Text) :
    content (scanToken q b p).2.1.text + content (scanToken q b p).2.2 ≤
      content b.text + content p := by
  induction q, b, p using scanToken.induct with
  | case1 q b => simp
  | case2 b c p hc => rw [scanToken_blank b p hc]
  | case3 b p _ ih =>
    rw [scanToken_openSingle,content_cons]
    omega
  | case4 b p _ _ ih =>
    rw [scanToken_openDouble,content_cons]
    omega
  | case5 b => simp
  | case6 b d p _ _ _ ih =>
    rw [scanToken_escape,content_cons,content_cons d]
    simp only [Buffer.put_text,content_append] at ih
    omega
  | case7 b c p hc hs hd he ih =>
    rw [scanToken_plain b p hc hs hd he,content_cons]
    simp only [Buffer.put_text,content_append] at ih
    omega
  | case8 b p ih =>
    rw [scanToken_closeSingle,content_cons]
    omega
  | case9 b c p hc ih =>
    rw [scanToken_inSingle b p hc,content_cons]
    simp only [Buffer.put_text,content_append] at ih
    omega
  | case10 b p ih =>
    rw [scanToken_closeDouble,content_cons]
    omega
  | case11 b => simp [scanToken]
  | case12 b p _ ih =>
    have hn : content ['\n'] = content ['n'] := rfl
    rw [content_cons,content_cons 'n']
    simp only [Buffer.put_text,content_append] at ih
    simp [scanToken]
    omega
  | case13 b d p hn hd _ ih =>
    rw [content_cons,content_cons d]
    simp only [Buffer.put_text,content_append] at ih
    simp [scanToken,hn,hd]
    omega
  | case14 b d p hn hd _ ih =>
    rw [content_cons]
    simp only [Buffer.put_text,content_append] at ih
    simp [scanToken,hn,hd]
    omega
  | case15 b c p hd he ih =>
    rw [scanToken_inDouble b p hd he,content_cons]
    simp only [Buffer.put_text,content_append] at ih
    omega

/-- The special character that starts the rest of a token is lost. -/
theorem content_scanToken_special (hc : special c = true) (p : Text) :
    content (scanToken .outside b (c :: p)).2.1.text +
      content (scanToken .outside b (c :: p)).2.2 < content b.text + content (c :: p) := by
  rw [content_cons,content_special hc]
  simp only [special,Bool.or_eq_true,beq_iff_eq] at hc
  rcases hc with (rfl | rfl) | rfl
  · have hle := content_scanToken .inSingle b p
    rw [scanToken_openSingle]
    omega
  · have hle := content_scanToken .inDouble b p
    rw [scanToken_openDouble]
    omega
  · cases p with
    | nil => simp
    | cons d p =>
      have hle := content_scanToken .outside (b.put d) p
      rw [scanToken_escape,content_cons d]
      simp only [Buffer.put_text,content_append] at hle
      omega

end Content

section Runs
variable {w : Text}

/-- The characters the scan puts as they are. -/
def Ordinary (w : Text) : Prop := ∀ c ∈ w, blank c = false ∧ special c = false

theorem scanToken_ordinary (b : Buffer) (rest : Text) (hw : Ordinary w) :
    scanToken .outside b (w ++ rest) = scanToken .outside (w.foldl Buffer.put b) rest := by
  induction w generalizing b with
  | nil => rfl
  | cons c w ih =>
    obtain ⟨hblank,hspecial⟩ := hw c List.mem_cons_self
    simp only [special,Bool.or_eq_false_iff,beq_eq_false_iff_ne] at hspecial
    rw [List.cons_append,scanToken_plain b _ (by simp [hblank]) hspecial.1.1 hspecial.1.2
      hspecial.2,ih _ fun d hd => hw d (List.mem_cons_of_mem c hd)]
    rfl

/-- A scan puts an ordinary run and stops behind it, or loses a character. -/
theorem scanToken_outside (b : Buffer) (p : Text) :
    content (scanToken .outside b p).2.1.text + content (scanToken .outside b p).2.2 <
      content b.text + content p ∨
    ∃ w, Ordinary w ∧ p = w ++ (scanToken .outside b p).2.2 ∧
      (scanToken .outside b p).2.1.text = b.text ++ w := by
  let ordinary := fun c => !blank c && !special c
  have hw : Ordinary (p.takeWhile ordinary) := by
    intro c hc
    simpa [ordinary] using List.mem_takeWhile_imp hc
  have hp := List.takeWhile_append_dropWhile (p := ordinary) (l := p)
  have hscan := scanToken_ordinary b (p.dropWhile ordinary) hw
  rw [hp] at hscan
  rw [hscan]
  cases hd : p.dropWhile ordinary with
  | nil =>
    rw [hd,List.append_nil] at hp
    rw [scanToken_nil]
    refine Or.inr ⟨p,?_,(List.append_nil p).symm,?_⟩
    · rwa [hp] at hw
    · rw [hp,foldl_put_text]
  | cons c q =>
    rw [hd] at hp
    by_cases hc : blank c = true
    · rw [scanToken_blank _ _ hc]
      exact Or.inr ⟨_,hw,hp.symm,foldl_put_text b _⟩
    · have hspecial : special c = true := by
        have hhead := List.head?_dropWhile_not ordinary p
        rw [hd] at hhead
        simpa [ordinary,hc] using hhead
      have hlt := content_scanToken_special ((p.takeWhile ordinary).foldl Buffer.put b) hspecial q
      have hsum := congrArg content hp
      left
      rw [foldl_put_text,content_append] at hlt
      rw [content_append] at hsum
      omega

end Runs

section Tokens
variable {s t : Text}

theorem plain_of_blank (h : ∀ c ∈ s, blank c = true) : Plain s := by
  intro c hc
  have hblank := h c hc
  simp only [blank,Bool.or_eq_true,beq_iff_eq] at hblank
  rcases hblank with rfl | rfl <;> rfl

theorem content_dropWhile (s : Text) : content (s.dropWhile blank) = content s := by
  induction s with
  | nil => rfl
  | cons c s ih =>
    by_cases hc : blank c = true
    · rw [List.dropWhile_cons_of_pos hc,content_cons,ih]
      simp [content,hc]
    · rw [List.dropWhile_cons_of_neg hc]

/-- The tokens hold no more characters than the text, and as many only where it is plain. -/
theorem content_tokens (s : Text) : content (tokens s).flatten ≤ content s ∧
    (content (tokens s).flatten = content s → Plain s) := by
  induction hn : s.length using Nat.strong_induction_on generalizing s with
  | _ n ih =>
    subst hn
    cases hs : (nextToken s).token with
    | none =>
      rw [tokens_none hs]
      refine ⟨Nat.zero_le _,fun h => ?_⟩
      exact plain_of_blank (content_le_iff.mp h.symm)
    | some t =>
      obtain ⟨c,p,b,hskip,hb,hscan⟩ := nextToken_some hs
      obtain ⟨hle,hplain⟩ := ih _ (nextToken_shorter hs) _ rfl
      have hcontent := content_dropWhile s
      have hout := scanToken_outside Buffer.empty (c :: p)
      rw [hscan,hb] at hout
      rw [hskip] at hcontent
      rw [tokens_some hs,List.flatten_cons,content_append,← hcontent]
      rcases hout with hlt | ⟨w,hw,hp,ht⟩
      · have hempty : content Buffer.empty.text = 0 := rfl
        dsimp only at hlt
        constructor
        · omega
        · intro h
          omega
      · obtain rfl : t = w := ht
        dsimp only at hp
        rw [hp,content_append]
        refine ⟨by omega,fun h => ?_⟩
        have hrest := hplain (by omega)
        have hsplit := List.takeWhile_append_dropWhile (p := blank) (l := s)
        rw [hskip,hp] at hsplit
        intro d hd
        rw [← hsplit,List.mem_append,List.mem_append] at hd
        rcases hd with hd | hd | hd
        · exact plain_of_blank (fun e he => List.mem_takeWhile_imp he) d hd
        · exact (hw d hd).2
        · exact hrest d hd

/-- A plain text's next token is its first word. -/
theorem nextToken_plain (h : Plain s) {c : Char} {p : Text} (hskip : s.dropWhile blank = c :: p) :
    nextToken s = ⟨some ((c :: p).takeWhile (fun d => !blank d)),
      (c :: p).dropWhile (fun d => !blank d),(nextToken s).writes,[]⟩ := by
  let w := (c :: p).takeWhile (fun d => !blank d)
  let rest := (c :: p).dropWhile (fun d => !blank d)
  have hsplit : w ++ rest = c :: p := List.takeWhile_append_dropWhile
  have hw : Ordinary w := by
    intro d hd
    have hmem : d ∈ s := by
      have hsub := (List.dropWhile_suffix (l := s) blank).subset
      rw [hskip] at hsub
      exact hsub ((List.takeWhile_sublist _).subset hd)
    exact ⟨by simpa using List.mem_takeWhile_imp hd,h d hmem⟩
  have hends : Ends rest := by
    intro d q hd
    have hhead := List.head?_dropWhile_not (fun d => !blank d) (c :: p)
    have hfirst : ((c :: p).dropWhile (fun d => !blank d)).head? = some d := congrArg List.head? hd
    rw [hfirst] at hhead
    simpa using hhead
  have hscan := scanToken_ordinary Buffer.empty rest hw
  rw [hsplit,scanToken_ends _ hends] at hscan
  simp only [nextToken,hskip,hscan,foldl_put_text]
  rfl

theorem tokens_plain (h : Plain s) : tokens s = words blank s := by
  induction hn : s.length using Nat.strong_induction_on generalizing s with
  | _ n ih =>
    subst hn
    cases hskip : s.dropWhile blank with
    | nil =>
      rw [tokens_none (by simp only [nextToken,hskip]),← words_dropWhile,hskip,words_nil]
    | cons c p =>
      have hnext := nextToken_plain h hskip
      have htoken := congrArg TokenRead.token hnext
      have hinput := congrArg TokenRead.input hnext
      have hc : blank c = false := by simpa using not_blank_of_dropWhile hskip
      have hrest : Plain (nextToken s).input := by
        intro d hd
        rw [hinput] at hd
        dsimp only at hd
        have hsub := (List.dropWhile_suffix (l := s) blank).subset
        rw [hskip] at hsub
        exact h d (hsub ((List.dropWhile_suffix _).subset hd))
      rw [tokens_some htoken,ih _ (nextToken_shorter htoken) hrest rfl,hinput,
        ← words_dropWhile s,hskip,words_scan hc]

theorem tokens_eq_words_iff (s : Text) : tokens s = words blank s ↔ Plain s := by
  constructor
  · intro h
    apply (content_tokens s).2
    rw [h,flatten_words]
    simp [content,List.countP_filter]
  · exact tokens_plain

end Tokens

end UnixShell.Parser
