import Mathlib.Data.List.DropRight

/-! # The tokeniser

A C string is the list of its characters before the NUL, a pointer into it is
the list of those still ahead. The token buffer is static in `next_token`, so
a call is recorded with every index it writes there; whether these lie inside
the buffer is a statement about the record, not a check the code makes.
-/
namespace UnixShell.Parser

abbrev Text := List Char

/-- `buffer` in `next_token`. -/
def tokenBuffer : ℕ := 4096

/-- The only characters that `trim_whitespace` and `next_token` skip. -/
def blank (c : Char) : Bool := c == ' ' || c == '\t'

/-- What trimming in place leaves of a string that is not all blanks, seen from its start. -/
def trimTrailing (s : Text) : Text := s.rdropWhile blank

/-- The string from the pointer that `trim_whitespace` returns. -/
def trimWhitespace (s : Text) : Text := trimTrailing (s.dropWhile blank)

inductive Quote
  | outside
  | inSingle
  | inDouble
  deriving DecidableEq, Repr

/-- The buffer up to `i`, and the indices written so far. -/
structure Buffer where
  text : Text
  writes : List ℕ
  deriving DecidableEq, Repr

namespace Buffer

def empty : Buffer := ⟨[],[]⟩

/-- `buffer[i++] = c`. -/
def put (b : Buffer) (c : Char) : Buffer := ⟨b.text ++ [c],b.writes ++ [b.text.length]⟩

/-- `buffer[i] = '\0'`: every index written once the token is closed. -/
def closed (b : Buffer) : List ℕ := b.writes ++ [b.text.length]

/-- Only places before `i` have been written. -/
def Behind (b : Buffer) : Prop := ∀ i ∈ b.writes, i < b.text.length

@[simp] theorem put_text (b : Buffer) (c : Char) : (b.put c).text = b.text ++ [c] := rfl

theorem behind_empty : empty.Behind := by
  intro i hi
  cases hi

theorem Behind.put {b : Buffer} (h : b.Behind) (c : Char) : (b.put c).Behind := by
  intro i hi
  rcases List.mem_append.mp hi with hi | hi
  · have hlt := h i hi
    simp only [put_text,List.length_append,List.length_singleton]
    omega
  · obtain rfl := List.mem_singleton.mp hi
    simp

theorem Behind.closed {b : Buffer} (h : b.Behind) : ∀ i ∈ b.closed, i ≤ b.text.length := by
  intro i hi
  rcases List.mem_append.mp hi with hi | hi
  · exact (h i hi).le
  · exact (List.mem_singleton.mp hi).le

end Buffer

/-- The scan loop of `next_token` from one quoting state. -/
def scanToken : Quote → Buffer → Text → Quote × Buffer × Text
  | q, b, [] => (q,b,[])
  | .outside, b, c :: p =>
    if blank c then (.outside,b,c :: p)
    else if c = '\'' then scanToken .inSingle b p
    else if c = '"' then scanToken .inDouble b p
    else if c = '\\' then
      match p with
      -- the escape meets the terminator: nothing is put
      | [] => (.outside,b,[])
      | d :: p' => scanToken .outside (b.put d) p'
    else scanToken .outside (b.put c) p
  | .inSingle, b, c :: p =>
    if c = '\'' then scanToken .outside b p
    else scanToken .inSingle (b.put c) p
  | .inDouble, b, c :: p =>
    if c = '"' then scanToken .outside b p
    else if c = '\\' then
      match p with
      | [] => (.inDouble,b.put '\\',[])
      | d :: p' =>
        if d = 'n' then scanToken .inDouble (b.put '\n') p'
        else if d = '"' ∨ d = '\\' then scanToken .inDouble (b.put d) p'
        -- an unknown escape keeps the backslash and leaves the next character to the next turn
        else scanToken .inDouble (b.put '\\') (d :: p')
    else scanToken .inDouble (b.put c) p

section Turns
variable (b : Buffer) {c : Char} (d : Char) (p : Text)

attribute [local simp] scanToken

@[simp] theorem scanToken_nil (q : Quote) : scanToken q b [] = (q,b,[]) := by simp

theorem scanToken_blank (hc : blank c = true) :
    scanToken .outside b (c :: p) = (.outside,b,c :: p) := by
  cases p <;> simp [hc]

@[simp] theorem scanToken_openSingle :
    scanToken .outside b ('\'' :: p) = scanToken .inSingle b p := by
  cases p <;> simp [blank]

@[simp] theorem scanToken_openDouble :
    scanToken .outside b ('"' :: p) = scanToken .inDouble b p := by
  cases p <;> simp [blank]

@[simp] theorem scanToken_escape :
    scanToken .outside b ('\\' :: d :: p) = scanToken .outside (b.put d) p := by
  simp [blank]

@[simp] theorem scanToken_escapeEnd : scanToken .outside b ['\\'] = (.outside,b,[]) := by
  simp [blank]

theorem scanToken_plain (hc : ¬blank c = true) (hs : c ≠ '\'') (hd : c ≠ '"') (he : c ≠ '\\') :
    scanToken .outside b (c :: p) = scanToken .outside (b.put c) p := by
  cases p <;> simp [hc,hs,hd,he]

@[simp] theorem scanToken_closeSingle :
    scanToken .inSingle b ('\'' :: p) = scanToken .outside b p := by simp

theorem scanToken_inSingle (hc : c ≠ '\'') :
    scanToken .inSingle b (c :: p) = scanToken .inSingle (b.put c) p := by simp [hc]

@[simp] theorem scanToken_closeDouble :
    scanToken .inDouble b ('"' :: p) = scanToken .outside b p := by
  cases p <;> simp

theorem scanToken_inDouble (hc : c ≠ '"') (he : c ≠ '\\') :
    scanToken .inDouble b (c :: p) = scanToken .inDouble (b.put c) p := by
  cases p <;> simp [hc,he]

end Turns

/-- One call of `next_token`: the token or NULL, `*input` afterwards, and what it did. -/
structure TokenRead where
  token : Option Text
  input : Text
  writes : List ℕ
  stderr : List String
  deriving DecidableEq, Repr

def unmatchedQuote : String := "Unmatched quote"

def nextToken (input : Text) : TokenRead :=
  match input.dropWhile blank with
  | [] => ⟨none,[],[],[]⟩
  | c :: p =>
    match scanToken .outside Buffer.empty (c :: p) with
    | (.outside,b,rest) => ⟨some b.text,rest,b.closed,[]⟩
    -- `*input` keeps its value
    | (_,b,_) => ⟨none,input,b.closed,[unmatchedQuote]⟩

/-- What holds of the scan's result: what is left ends the text, every character put was
paid for by one that was read, and only the part of the buffer before `i` was written. -/
structure Scanned (b : Buffer) (p : Text) (r : Quote × Buffer × Text) : Prop where
  suffix : r.2.2 <:+ p
  paid : r.2.1.text.length + r.2.2.length ≤ b.text.length + p.length
  behind : b.Behind → r.2.1.Behind

namespace Scanned

theorem stop (q : Quote) (b : Buffer) (p : Text) : Scanned b p (q,b,p) :=
  ⟨List.suffix_rfl,le_rfl,id⟩

/-- A turn that reads some characters and puts none. -/
theorem skip {b : Buffer} {p : Text} {r : Quote × Buffer × Text} (h : Scanned b p r) (c : Char) :
    Scanned b (c :: p) r where
  suffix := h.suffix.trans (List.suffix_cons c p)
  paid := by
    have hpaid := h.paid
    simp only [List.length_cons]
    omega
  behind := h.behind

/-- A turn that reads one character and puts one. -/
theorem put {b : Buffer} {p : Text} {r : Quote × Buffer × Text} {d : Char}
    (h : Scanned (b.put d) p r) (c : Char) : Scanned b (c :: p) r where
  suffix := h.suffix.trans (List.suffix_cons c p)
  paid := by
    have hpaid := h.paid
    simp only [Buffer.put_text,List.length_append,List.length_cons,List.length_nil] at hpaid ⊢
    omega
  behind hb := h.behind (hb.put d)

end Scanned

theorem scanned_scanToken (q : Quote) (b : Buffer) (p : Text) :
    Scanned b p (scanToken q b p) := by
  induction q, b, p using scanToken.induct with
  | case1 q b => simpa using Scanned.stop q b []
  | case2 b c p hc => simpa only [scanToken_blank b p hc] using Scanned.stop .outside b (c :: p)
  | case3 b p _ ih => simpa using ih.skip '\''
  | case4 b p _ _ ih => simpa using ih.skip '"'
  | case5 b => simpa using (Scanned.stop .outside b []).skip '\\'
  | case6 b d p _ _ _ ih => simpa using (ih.put d).skip '\\'
  | case7 b c p hc hs hd he ih => simpa only [scanToken_plain b p hc hs hd he] using ih.put c
  | case8 b p ih => simpa using ih.skip '\''
  | case9 b c p hc ih => simpa only [scanToken_inSingle b p hc] using ih.put c
  | case10 b p ih => simpa using ih.skip '"'
  | case11 b => simpa [scanToken] using (Scanned.stop .inDouble (b.put '\\') []).put '\\'
  | case12 b p _ ih => simpa [scanToken] using (ih.put 'n').skip '\\'
  | case13 b d p hn hd _ ih => simpa [scanToken,hn,hd] using (ih.put d).skip '\\'
  | case14 b d p hn hd _ ih => simpa [scanToken,hn,hd] using ih.put '\\'
  | case15 b c p hd he ih => simpa only [scanToken_inDouble b p hd he] using ih.put c

/-- A token that starts at a non-blank takes at least that character. -/
theorem scanToken_advances (b : Buffer) {c : Char} (p : Text) (hc : ¬blank c = true) :
    (scanToken .outside b (c :: p)).2.2 <:+ p := by
  by_cases hs : c = '\''
  · subst hs
    simpa using (scanned_scanToken .inSingle b p).suffix
  by_cases hd : c = '"'
  · subst hd
    simpa using (scanned_scanToken .inDouble b p).suffix
  by_cases he : c = '\\'
  · subst he
    cases p with
    | nil => simp
    | cons d p =>
      rw [scanToken_escape]
      exact (scanned_scanToken .outside (b.put d) p).suffix.trans (List.suffix_cons d p)
  rw [scanToken_plain b p hc hs hd he]
  exact (scanned_scanToken .outside (b.put c) p).suffix

theorem not_blank_of_dropWhile {s : Text} {c : Char} {p : Text} (h : s.dropWhile blank = c :: p) :
    ¬blank c = true := by
  have hhead := List.head_dropWhile_not blank (by simp [h] : s.dropWhile blank ≠ [])
  simpa [h] using hhead

/-- A token comes from a scan that starts at a non-blank and ends outside quotes. -/
theorem nextToken_some {input t : Text} (h : (nextToken input).token = some t) :
    ∃ c p b, input.dropWhile blank = c :: p ∧ b.text = t ∧
      scanToken .outside Buffer.empty (c :: p) = (.outside,b,(nextToken input).input) := by
  unfold nextToken at h ⊢
  split at h
  · cases h
  next c p hskip =>
  split at h
  next b rest hscan =>
    simp only [hskip]
    exact ⟨c,p,b,rfl,Option.some.inj h,hscan⟩
  · cases h

/-- A token that was read leaves a shorter input. -/
theorem nextToken_shorter {input t : Text} (h : (nextToken input).token = some t) :
    (nextToken input).input.length < input.length := by
  obtain ⟨c,p,b,hskip,_,hscan⟩ := nextToken_some h
  have hadv := (scanToken_advances Buffer.empty p (not_blank_of_dropWhile hskip)).length_le
  have hdrop : (input.dropWhile blank).length ≤ input.length :=
    (List.dropWhile_suffix blank).length_le
  rw [hscan] at hadv
  rw [hskip,List.length_cons] at hdrop
  dsimp only at hadv
  omega

/-- No index written exceeds the length of the text the call was given. -/
theorem nextToken_writes (input : Text) : ∀ i ∈ (nextToken input).writes, i ≤ input.length := by
  have hlen : ∀ c p, input.dropWhile blank = c :: p →
      ∀ i ∈ (scanToken .outside Buffer.empty (c :: p)).2.1.closed, i ≤ input.length := by
    intro c p hskip i hi
    have hs := scanned_scanToken .outside Buffer.empty (c :: p)
    have hclosed := (hs.behind Buffer.behind_empty).closed i hi
    have hdrop : (input.dropWhile blank).length ≤ input.length :=
      (List.dropWhile_suffix blank).length_le
    have hzero : Buffer.empty.text.length = 0 := rfl
    have hpaid := hs.paid
    rw [hskip] at hdrop
    omega
  intro i hi
  unfold nextToken at hi
  split at hi
  · cases hi
  next c p hskip =>
  split at hi
  next b rest hscan => exact hlen c p hskip i (by rw [hscan]; exact hi)
  next q b rest _ hscan => exact hlen c p hskip i (by rw [hscan]; exact hi)

end UnixShell.Parser
