import UnixShell.Parser.Pointers

/-! # Three ways to write a word

A word may stand between single quotes, between double quotes, or with a backslash in
front of every character. The tokeniser takes any of the three for the word itself: each
turns into the same characters put one by one, from the state its first character opens to
the state its last one closes.
-/
namespace UnixShell.Parser

inductive Rendering
  | single
  | double
  | escaped
  deriving DecidableEq, Repr

/-- A word's characters as they stand between double quotes. -/
def escapeDouble (w : Text) : Text :=
  w.flatMap fun c => if c = '"' ∨ c = '\\' then ['\\',c] else [c]

def quoteDouble (w : Text) : Text := '"' :: (escapeDouble w ++ ['"'])

def escapeAll (w : Text) : Text := w.flatMap fun c => ['\\',c]

def Rendering.render : Rendering → Text → Text
  | .single, w => quoteSingle w
  | .double, w => quoteDouble w
  | .escaped, w => escapeAll w

/-- Nothing is left of an empty word without quotes. -/
def Rendering.Renders : Rendering → Text → Prop
  | .escaped, w => w ≠ []
  | _, _ => True

theorem escapeDouble_cons (c : Char) (w : Text) : escapeDouble (c :: w) =
    (if c = '"' ∨ c = '\\' then ['\\',c] else [c]) ++ escapeDouble w := List.flatMap_cons

theorem escapeAll_cons (c : Char) (w : Text) : escapeAll (c :: w) = '\\' :: c :: escapeAll w := rfl

section Scans
variable (b : Buffer) {c : Char} (p : Text)

@[simp] theorem scanToken_escapeDouble (hc : c = '"' ∨ c = '\\') :
    scanToken .inDouble b ('\\' :: c :: p) = scanToken .inDouble (b.put c) p := by
  rcases hc with rfl | rfl <;> simp [scanToken]

/-- Inside double quotes the scan takes a word's escaped characters and puts the word. -/
theorem scanToken_escapeDoubles (w : Text) :
    scanToken .inDouble b (escapeDouble w ++ p) = scanToken .inDouble (w.foldl Buffer.put b) p := by
  induction w generalizing b with
  | nil => rfl
  | cons c w ih =>
    rw [escapeDouble_cons,List.append_assoc]
    by_cases hc : c = '"' ∨ c = '\\'
    · rw [if_pos hc]
      exact (scanToken_escapeDouble b (escapeDouble w ++ p) hc).trans (ih (b.put c))
    · obtain ⟨hquote,hslash⟩ := not_or.mp hc
      rw [if_neg hc,List.singleton_append,scanToken_inDouble b _ hquote hslash]
      exact ih (b.put c)

theorem scanToken_escapeAll (w : Text) :
    scanToken .outside b (escapeAll w ++ p) = scanToken .outside (w.foldl Buffer.put b) p := by
  induction w generalizing b with
  | nil => rfl
  | cons c w ih =>
    rw [escapeAll_cons,List.cons_append,List.cons_append,scanToken_escape]
    exact ih (b.put c)

/-- Whichever way a word is written, the scan puts the word and stops behind it. -/
theorem scanToken_render (r : Rendering) (w : Text) {rest : Text} (hrest : Ends rest) :
    scanToken .outside b (r.render w ++ rest) = (.outside,w.foldl Buffer.put b,rest) := by
  cases r with
  | single => exact scanToken_quoteSingle b w hrest
  | double =>
    simp only [Rendering.render,quoteDouble,List.cons_append,List.append_assoc,List.nil_append]
    rw [scanToken_openDouble,scanToken_escapeDoubles,scanToken_closeDouble,scanToken_ends _ hrest]
  | escaped =>
    rw [Rendering.render,scanToken_escapeAll,scanToken_ends _ hrest]

end Scans

section Words
variable {pre w rest : Text} {r : Rendering}

/-- No rendering starts with a blank. -/
theorem render_head (h : r.Renders w) : ∃ c p, r.render w = c :: p ∧ blank c = false := by
  cases r with
  | single => exact ⟨'\'',_,rfl,rfl⟩
  | double => exact ⟨'"',_,rfl,rfl⟩
  | escaped =>
    cases w with
    | nil => exact absurd rfl h
    | cons c w => exact ⟨'\\',_,rfl,rfl⟩

theorem foldl_put_behind {b : Buffer} (h : b.Behind) (w : Text) :
    (w.foldl Buffer.put b).Behind := by
  induction w generalizing b with
  | nil => exact h
  | cons c w ih => exact ih (h.put c)

/-- One call reads a rendered word back. -/
theorem nextToken_render (hpre : ∀ c ∈ pre, blank c = true) (h : r.Renders w) (hrest : Ends rest) :
    nextToken (pre ++ r.render w ++ rest) =
      ⟨some w,rest,(w.foldl Buffer.put Buffer.empty).closed,[]⟩ := by
  obtain ⟨c,p,hhead,hc⟩ := render_head h
  have hscan := scanToken_render Buffer.empty r w hrest
  rw [hhead] at hscan ⊢
  rw [nextToken_scanned hpre hc hscan,foldl_put_text]
  rfl

/-- Quoting is undone: the word comes back, whatever it contains, the pointer is left at what
follows it, and a word that fits into the buffer is kept inside it. -/
theorem quoting_undone {memory : ℕ → Char} {fuel p : ℕ} (r : Rendering) (w : Text)
    (h : r.Renders w) (hlen : w.length < tokenBuffer) (hpre : ∀ c ∈ pre, blank c = true)
    (hrest : Ends rest) (hs : StringAt memory p (pre ++ r.render w ++ rest))
    (hfuel : (pre ++ r.render w ++ rest).length < fuel) :
    ∃ t, nextTokenAt memory fuel p = some t ∧ t.token = some w ∧
      t.input = p + (pre ++ r.render w).length ∧ StringAt memory t.input rest ∧
      ∀ i ∈ t.writes, i < tokenBuffer := by
  obtain ⟨t,hcall,ht⟩ := nextTokenAt_follows hfuel hs
  have hread := nextToken_render hpre h hrest
  have htoken := ht.token
  have hinput := ht.rest
  have hmoved := ht.moved
  have hwrites := ht.writes
  rw [hread] at htoken hinput hmoved hwrites
  dsimp only at htoken hinput hmoved hwrites
  refine ⟨t,hcall,htoken,?_,hinput,?_⟩
  · simp only [List.length_append] at hmoved ⊢
    omega
  · intro i hi
    rw [hwrites] at hi
    have hle := (foldl_put_behind Buffer.behind_empty w).closed i hi
    rw [foldl_put_text] at hle
    exact hle.trans_lt hlen

end Words

/-- A quote of each kind, a blank, a bar, an operator, and a backslash before an `n`. -/
def awkwardWord : Text := ['"','\'',' ','|','2','>','\\','n']

def awkwardLine : Text := [' ','\t'] ++ Rendering.double.render awkwardWord ++ [' ','x']

theorem awkwardWord_undone : ∃ t, nextTokenAt (memoryOf awkwardLine) 20 0 = some t ∧
    t.token = some awkwardWord ∧
    t.input = 0 + ([' ','\t'] ++ Rendering.double.render awkwardWord).length ∧
    StringAt (memoryOf awkwardLine) t.input [' ','x'] ∧ ∀ i ∈ t.writes, i < tokenBuffer := by
  refine quoting_undone .double awkwardWord trivial (by decide) (by simp [blank]) ?_ (by decide)
    (by decide)
  rintro c p ⟨⟩
  rfl

end UnixShell.Parser
