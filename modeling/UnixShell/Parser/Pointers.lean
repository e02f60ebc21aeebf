import UnixShell.Parser.Quoting

/-! # The tokeniser over memory

The functions on texts stand for loops over pointers, which may read any address. Here the
loops are the ones of the source: a bound on their turns takes the place of a proof that
they end, and every address that is read is kept. On a string that ends they come to the
same tokens, and no read lies behind the byte that ends it.
-/
namespace UnixShell.Parser

def nul : Char := '\x00'

/-- The string that a pointer shows. -/
def StringAt (memory : ℕ → Char) : ℕ → Text → Prop
  | p, [] => memory p = nul
  | p, c :: s => memory p = c ∧ c ≠ nul ∧ StringAt memory (p + 1) s

instance decidableStringAt (memory : ℕ → Char) : ∀ p s, Decidable (StringAt memory p s)
  | p, [] => inferInstanceAs (Decidable (memory p = nul))
  | p, c :: s =>
    have := decidableStringAt memory (p + 1) s
    inferInstanceAs (Decidable (memory p = c ∧ c ≠ nul ∧ StringAt memory (p + 1) s))

/-- The variables of the scan loop, and the addresses read so far. -/
structure Cursor where
  state : Quote
  buffer : Buffer
  p : ℕ
  reads : List ℕ
  deriving DecidableEq, Repr

namespace Cursor

/-- `*p`. -/
def look (c : Cursor) : Cursor := {c with reads := c.reads ++ [c.p]}

/-- `p++`. -/
def next (c : Cursor) : Cursor := {c with p := c.p + 1}

def enter (c : Cursor) (q : Quote) : Cursor := {c with state := q, p := c.p + 1}

/-- `buffer[i++] = d` and `p++`. -/
def take (c : Cursor) (d : Char) : Cursor := {c with buffer := c.buffer.put d, p := c.p + 1}

/-- `buffer[i++] = d` alone. -/
def put (c : Cursor) (d : Char) : Cursor := {c with buffer := c.buffer.put d}

end Cursor

/-- One call of `next_token` on a pointer. -/
structure PointerRead where
  token : Option Text
  input : ℕ
  writes : List ℕ
  stderr : List String
  reads : List ℕ
  deriving DecidableEq, Repr

def Machine.readAt (m : Machine) (r : PointerRead) : Machine :=
  {m with accesses := m.accesses ++ r.writes.map Access.token, stderr := m.stderr ++ r.stderr}

section Loops
variable (memory : ℕ → Char)

def skipBlanks : ℕ → ℕ → List ℕ → Option (ℕ × List ℕ)
  | 0, _, _ => none
  | fuel+1, p, reads =>
    if blank (memory p) then skipBlanks fuel (p + 1) (reads ++ [p])
    else some (p,reads ++ [p])

def scanLoop : ℕ → Cursor → Option Cursor
  | 0, _ => none
  | fuel+1, c =>
    let c := c.look
    if memory c.p = nul then some c
    else
      match c.state with
      | .outside =>
        if blank (memory c.p) then some c
        else if memory c.p = '\'' then scanLoop fuel (c.enter .inSingle)
        else if memory c.p = '"' then scanLoop fuel (c.enter .inDouble)
        else if memory c.p = '\\' then
          let c := c.next.look
          if memory c.p = nul then scanLoop fuel c else scanLoop fuel (c.take (memory c.p))
        else scanLoop fuel (c.take (memory c.p))
      | .inSingle =>
        if memory c.p = '\'' then scanLoop fuel (c.enter .outside)
        else scanLoop fuel (c.take (memory c.p))
      | .inDouble =>
        if memory c.p = '"' then scanLoop fuel (c.enter .outside)
        else if memory c.p = '\\' then
          let c := c.next.look
          if memory c.p = 'n' then scanLoop fuel (c.take '\n')
          else if memory c.p = '"' ∨ memory c.p = '\\' then scanLoop fuel (c.take (memory c.p))
          else scanLoop fuel (c.put '\\')
        else scanLoop fuel (c.take (memory c.p))

/-- `next_token`, if no loop takes more turns than it is given. -/
def nextTokenAt (fuel : ℕ) (input : ℕ) : Option PointerRead := do
  let (p,reads) ← skipBlanks memory fuel input []
  if memory p = nul then return ⟨none,p,[],[],reads⟩
  let c ← scanLoop memory fuel ⟨.outside,.empty,p,reads⟩
  if c.state = .outside then return ⟨some c.buffer.text,c.p,c.buffer.closed,[],c.reads⟩
  -- `*input` keeps its value
  return ⟨none,input,c.buffer.closed,[unmatchedQuote],c.reads⟩

/-- The token loop of one segment, with the calls of `next_token` counted. -/
def parseTokensAt (alloc : ℕ → Bool) :
    ℕ → ℕ → Command → Machine → Option ((Option Command × Machine) × ℕ)
  | 0, _, _, _ => none
  | fuel+1, scan, cmd, m => do
    let r ← nextTokenAt memory (fuel + 1) scan
    let m := m.readAt r
    match r.token with
    | none => return ((some cmd,m),1)
    | some token =>
      match redirectOf token with
      | some op =>
        let r ← nextTokenAt memory (fuel + 1) r.input
        let m := m.readAt r
        match r.token with
        | none => return ((none,m.print op.missing),2)
        | some file =>
          if (redirectOf file).isSome then return ((none,m.print op.missing),2)
          else
            let (copy,m) := strdup alloc m file
            let (out,calls) ← parseTokensAt alloc fuel r.input (cmd.redirect op copy) m
            return (out,calls + 2)
      | none =>
        let (copy,m) := strdup alloc m token
        let (out,calls) ← parseTokensAt alloc fuel r.input (cmd.push copy)
          (m.touch [.argv cmd.argv.length])
        return (out,calls + 1)

end Loops

/-- A logged read is an earlier one, or it lies at the start of what is left. -/
theorem mem_concat_read {log : List ℕ} {p a : ℕ} (n : ℕ) (ha : a ∈ log ++ [p]) :
    a ∈ log ∨ p ≤ a ∧ a ≤ p + n := by
  rcases List.mem_append.mp ha with ha | ha
  · exact Or.inl ha
  · obtain rfl := List.mem_singleton.mp ha
    exact Or.inr ⟨le_rfl,Nat.le_add_right _ _⟩

/-- What the loop over memory has done, next to the scan of the text. -/
structure ScannedAt (memory : ℕ → Char) (c : Cursor) (s : Text) (c' : Cursor) : Prop where
  state : c'.state = (scanToken c.state c.buffer s).1
  buffer : c'.buffer = (scanToken c.state c.buffer s).2.1
  rest : StringAt memory c'.p (scanToken c.state c.buffer s).2.2
  moved : c'.p + (scanToken c.state c.buffer s).2.2.length = c.p + s.length
  reads : ∀ a ∈ c'.reads, a ∈ c.reads ∨ c.p ≤ a ∧ a ≤ c.p + s.length

namespace ScannedAt
variable {memory : ℕ → Char} {c c₁ c' : Cursor} {s s₁ : Text}

/-- The loop ends where the scan does. -/
theorem stop (hs : StringAt memory c.p s)
    (hscan : scanToken c.state c.buffer s = (c.state,c.buffer,s)) :
    ScannedAt memory c s c.look where
  state := by rw [hscan]; rfl
  buffer := by rw [hscan]; rfl
  rest := by rw [hscan]; exact hs
  moved := by rw [hscan]; rfl
  reads _ ha := mem_concat_read s.length ha

/-- A turn that leaves the rest of the string to the turns after it. -/
theorem turn {n : ℕ} (h : ∃ c', scanLoop memory n c₁ = some c' ∧ ScannedAt memory c₁ s₁ c')
    (hloop : scanLoop memory (n + 1) c = scanLoop memory n c₁)
    (hscan : scanToken c.state c.buffer s = scanToken c₁.state c₁.buffer s₁)
    (hp : c.p ≤ c₁.p) (hmoved : c₁.p + s₁.length = c.p + s.length)
    (hreads : ∀ a ∈ c₁.reads, a ∈ c.reads ∨ c.p ≤ a ∧ a ≤ c.p + s.length) :
    ∃ c', scanLoop memory (n + 1) c = some c' ∧ ScannedAt memory c s c' := by
  obtain ⟨c',he,h⟩ := h
  refine ⟨c',hloop.trans he,?_,?_,?_,?_,?_⟩
  · rw [hscan]
    exact h.state
  · rw [hscan]
    exact h.buffer
  · rw [hscan]
    exact h.rest
  · rw [hscan]
    exact h.moved.trans hmoved
  · intro a ha
    rcases h.reads a ha with ha | ha
    · exact hreads a ha
    · exact Or.inr ⟨hp.trans ha.1,ha.2.trans_eq hmoved⟩

end ScannedAt

section Scans
variable {memory : ℕ → Char} {fuel n p : ℕ} {s : Text} {c c₁ : Cursor} {d e : Char}

/-- A turn that goes on to the next character. -/
theorem turn_one (h : ∃ c', scanLoop memory n c₁ = some c' ∧ ScannedAt memory c₁ s c')
    (hscan : scanToken c.state c.buffer (d :: s) = scanToken c₁.state c₁.buffer s)
    (hp : c₁.p = c.p + 1) (hreads : c₁.reads = c.look.reads)
    (hloop : scanLoop memory (n + 1) c = scanLoop memory n c₁) :
    ∃ c', scanLoop memory (n + 1) c = some c' ∧ ScannedAt memory c (d :: s) c' := by
  refine ScannedAt.turn h hloop hscan ?_ ?_ ?_
  · omega
  · rw [List.length_cons]
    omega
  · intro a ha
    rw [hreads] at ha
    exact mem_concat_read _ ha

/-- A turn that looks at the character behind a backslash, and takes it or not. -/
theorem turn_two {s₁ : Text}
    (h : ∃ c', scanLoop memory n c₁ = some c' ∧ ScannedAt memory c₁ s₁ c')
    (hscan : scanToken c.state c.buffer (d :: s) = scanToken c₁.state c₁.buffer s₁)
    (hp : c.p + 1 ≤ c₁.p) (hmoved : c₁.p + s₁.length = c.p + 1 + s.length)
    (hreads : c₁.reads = c.look.next.look.reads)
    (hloop : scanLoop memory (n + 1) c = scanLoop memory n c₁) :
    ∃ c', scanLoop memory (n + 1) c = some c' ∧ ScannedAt memory c (d :: s) c' := by
  refine ScannedAt.turn h hloop hscan ?_ ?_ ?_
  · omega
  · rw [List.length_cons]
    omega
  · intro a ha
    rw [hreads] at ha
    simp only [Cursor.look,Cursor.next,List.append_assoc,List.mem_append,List.mem_cons,
      List.not_mem_nil,or_false,List.cons_append,List.nil_append] at ha
    rcases ha with ha | rfl | rfl
    · exact Or.inl ha
    · exact Or.inr ⟨le_rfl,Nat.le_add_right _ _⟩
    · exact Or.inr ⟨Nat.le_succ _,by rw [List.length_cons]; omega⟩

/-- The loop ends at the terminator. -/
theorem scanLoop_nil (q : Quote) (b : Buffer) (hfuel : 0 < fuel) (log : List ℕ)
    (hs : StringAt memory p []) : ∃ c, scanLoop memory fuel ⟨q,b,p,log⟩ = some c ∧
      ScannedAt memory ⟨q,b,p,log⟩ [] c := by
  obtain ⟨n,rfl⟩ := Nat.exists_eq_succ_of_ne_zero hfuel.ne'
  have hstop : memory p = nul := hs
  exact ⟨_,if_pos hstop,.stop hs (scanToken_nil b q)⟩

/-- The loop over memory is the scan of the string. -/
theorem scanLoop_scanned (q : Quote) (b : Buffer) (s : Text) (hfuel : s.length < fuel)
    (log : List ℕ) (hs : StringAt memory p s) :
    ∃ c, scanLoop memory fuel ⟨q,b,p,log⟩ = some c ∧ ScannedAt memory ⟨q,b,p,log⟩ s c := by
  induction q, b, s using scanToken.induct generalizing fuel p log with
  | case1 q b =>
    exact scanLoop_nil q b hfuel log hs
  | case2 b c s hc =>
    obtain ⟨n,rfl⟩ := Nat.exists_eq_succ_of_ne_zero (Nat.ne_zero_of_lt hfuel)
    have hstop : scanToken .outside b (c :: s) = (.outside,b,c :: s) := scanToken_blank b s hc
    refine ⟨_,?_,.stop hs hstop⟩
    obtain ⟨hmem,hne,_⟩ := hs
    simp [scanLoop,Cursor.look,hmem,hne,hc]
  | case3 b s hc ih =>
    obtain ⟨n,rfl⟩ := Nat.exists_eq_succ_of_ne_zero (Nat.ne_zero_of_lt hfuel)
    obtain ⟨hmem,hne,hs⟩ := hs
    refine turn_one (ih (Nat.lt_of_succ_lt_succ hfuel) _ hs) (scanToken_openSingle b s) rfl rfl ?_
    simp [scanLoop,Cursor.look,Cursor.enter,hmem,hne,hc]
  | case4 b s hc hq ih =>
    obtain ⟨n,rfl⟩ := Nat.exists_eq_succ_of_ne_zero (Nat.ne_zero_of_lt hfuel)
    obtain ⟨hmem,hne,hs⟩ := hs
    refine turn_one (ih (Nat.lt_of_succ_lt_succ hfuel) _ hs) (scanToken_openDouble b s) rfl rfl ?_
    simp [scanLoop,Cursor.look,Cursor.enter,hmem,hne,hc]
  | case5 b hc hq hd =>
    obtain ⟨n,rfl⟩ := Nat.exists_eq_succ_of_ne_zero (Nat.ne_zero_of_lt hfuel)
    obtain ⟨hmem,hne,hend⟩ := hs
    have hnul : memory (p + 1) = nul := hend
    refine turn_two (scanLoop_nil .outside b (Nat.lt_of_succ_lt_succ hfuel) _ hend)
      (scanToken_escapeEnd b) le_rfl rfl rfl ?_
    simp [scanLoop,Cursor.look,Cursor.next,hmem,hne,hc,hnul]
  | case6 b d s hc hq hd ih =>
    obtain ⟨n,rfl⟩ := Nat.exists_eq_succ_of_ne_zero (Nat.ne_zero_of_lt hfuel)
    obtain ⟨hmem,hne,hmem',hne',hs⟩ := hs
    refine turn_two (ih ?_ _ hs) (scanToken_escape b d s) ?_ ?_ rfl ?_
    · simp only [List.length_cons] at hfuel
      omega
    · exact Nat.le_succ _
    · simp only [List.length_cons]
      omega
    · simp [scanLoop,Cursor.look,Cursor.next,Cursor.take,hmem,hne,hc,hmem',hne']
  | case7 b c s hc hq hd he ih =>
    obtain ⟨n,rfl⟩ := Nat.exists_eq_succ_of_ne_zero (Nat.ne_zero_of_lt hfuel)
    obtain ⟨hmem,hne,hs⟩ := hs
    refine turn_one (ih (Nat.lt_of_succ_lt_succ hfuel) _ hs) (scanToken_plain b s hc hq hd he) rfl
      rfl ?_
    simp [scanLoop,Cursor.look,Cursor.take,hmem,hne,hc,hq,hd,he]
  | case8 b s ih =>
    obtain ⟨n,rfl⟩ := Nat.exists_eq_succ_of_ne_zero (Nat.ne_zero_of_lt hfuel)
    obtain ⟨hmem,hne,hs⟩ := hs
    refine turn_one (ih (Nat.lt_of_succ_lt_succ hfuel) _ hs) (scanToken_closeSingle b s) rfl rfl ?_
    simp [scanLoop,Cursor.look,Cursor.enter,hmem,hne]
  | case9 b c s hc ih =>
    obtain ⟨n,rfl⟩ := Nat.exists_eq_succ_of_ne_zero (Nat.ne_zero_of_lt hfuel)
    obtain ⟨hmem,hne,hs⟩ := hs
    refine turn_one (ih (Nat.lt_of_succ_lt_succ hfuel) _ hs) (scanToken_inSingle b s hc) rfl rfl ?_
    simp [scanLoop,Cursor.look,Cursor.take,hmem,hne,hc]
  | case10 b s ih =>
    obtain ⟨n,rfl⟩ := Nat.exists_eq_succ_of_ne_zero (Nat.ne_zero_of_lt hfuel)
    obtain ⟨hmem,hne,hs⟩ := hs
    refine turn_one (ih (Nat.lt_of_succ_lt_succ hfuel) _ hs) (scanToken_closeDouble b s) rfl rfl ?_
    simp [scanLoop,Cursor.look,Cursor.enter,hmem,hne]
  | case11 b =>
    obtain ⟨n,rfl⟩ := Nat.exists_eq_succ_of_ne_zero (Nat.ne_zero_of_lt hfuel)
    obtain ⟨hmem,hne,hend⟩ := hs
    have hnul : memory (p + 1) = nul := hend
    have hother : nul ≠ 'n' ∧ nul ≠ '"' ∧ nul ≠ '\\' := by decide
    refine turn_two (scanLoop_nil .inDouble (b.put '\\') (Nat.lt_of_succ_lt_succ hfuel) _ hend)
      ?_ le_rfl rfl rfl ?_
    · simp [scanToken]
    · simp [scanLoop,Cursor.look,Cursor.next,Cursor.put,hmem,hne,hnul,hother]
  | case12 b s hd ih =>
    obtain ⟨n,rfl⟩ := Nat.exists_eq_succ_of_ne_zero (Nat.ne_zero_of_lt hfuel)
    obtain ⟨hmem,hne,hmem',hne',hs⟩ := hs
    refine turn_two (ih ?_ _ hs) (by simp [scanToken]) (Nat.le_succ _) ?_ rfl ?_
    · simp only [List.length_cons] at hfuel
      omega
    · simp only [List.length_cons]
      omega
    · simp [scanLoop,Cursor.look,Cursor.next,Cursor.take,hmem,hne,hmem']
  | case13 b d s hn hd hb ih =>
    obtain ⟨n,rfl⟩ := Nat.exists_eq_succ_of_ne_zero (Nat.ne_zero_of_lt hfuel)
    obtain ⟨hmem,hne,hmem',hne',hs⟩ := hs
    refine turn_two (ih ?_ _ hs) (by simp [scanToken,hn,hd]) (Nat.le_succ _) ?_ rfl ?_
    · simp only [List.length_cons] at hfuel
      omega
    · simp only [List.length_cons]
      omega
    · simp [scanLoop,Cursor.look,Cursor.next,Cursor.take,hmem,hne,hmem',hn,hd]
  | case14 b d s hn hd hb ih =>
    obtain ⟨n,rfl⟩ := Nat.exists_eq_succ_of_ne_zero (Nat.ne_zero_of_lt hfuel)
    obtain ⟨hmem,hne,hs⟩ := hs
    have hmem' := hs.1
    refine turn_two (ih (Nat.lt_of_succ_lt_succ hfuel) _ hs) (by simp [scanToken,hn,hd]) le_rfl ?_
      rfl ?_
    · rfl
    · simp [scanLoop,Cursor.look,Cursor.next,Cursor.put,hmem,hne,hmem',hn,hd]
  | case15 b c s hd he ih =>
    obtain ⟨n,rfl⟩ := Nat.exists_eq_succ_of_ne_zero (Nat.ne_zero_of_lt hfuel)
    obtain ⟨hmem,hne,hs⟩ := hs
    refine turn_one (ih (Nat.lt_of_succ_lt_succ hfuel) _ hs) (scanToken_inDouble b s hd he) rfl
      rfl ?_
    simp [scanLoop,Cursor.look,Cursor.take,hmem,hne,hd,he]

end Scans

/-- The call on a pointer, next to the call on the string that it shows. -/
structure FollowsAt (memory : ℕ → Char) (p : ℕ) (s : Text) (r : PointerRead) : Prop where
  token : r.token = (nextToken s).token
  writes : r.writes = (nextToken s).writes
  stderr : r.stderr = (nextToken s).stderr
  rest : StringAt memory r.input (nextToken s).input
  moved : r.input + (nextToken s).input.length = p + s.length
  reads : ∀ a ∈ r.reads, p ≤ a ∧ a ≤ p + s.length

section Calls
variable {memory : ℕ → Char} {fuel p : ℕ} {s : Text}

theorem blank_nul : blank nul = false := by decide

theorem skipBlanks_follows (hfuel : s.length < fuel) (log : List ℕ) (hs : StringAt memory p s) :
    ∃ p' log', skipBlanks memory fuel p log = some (p',log') ∧
      StringAt memory p' (s.dropWhile blank) ∧
      p' + (s.dropWhile blank).length = p + s.length ∧
      ∀ a ∈ log', a ∈ log ∨ p ≤ a ∧ a ≤ p + s.length := by
  induction s generalizing fuel p log with
  | nil =>
    obtain ⟨n,rfl⟩ := Nat.exists_eq_succ_of_ne_zero (Nat.ne_zero_of_lt hfuel)
    have hstop : memory p = nul := hs
    refine ⟨p,log ++ [p],?_,hs,rfl,?_⟩
    · rw [skipBlanks,hstop,blank_nul]
      rfl
    · intro a ha
      exact mem_concat_read 0 ha
  | cons c s ih =>
    obtain ⟨n,rfl⟩ := Nat.exists_eq_succ_of_ne_zero (Nat.ne_zero_of_lt hfuel)
    have hmem : memory p = c := hs.1
    have hp : ∀ a ∈ log ++ [p], a ∈ log ∨ p ≤ a ∧ a ≤ p + (c :: s).length :=
      fun a ha => mem_concat_read _ ha
    by_cases hc : blank c = true
    · obtain ⟨p',log',he,hrest,hmoved,hlog⟩ := ih (Nat.lt_of_succ_lt_succ hfuel) (log ++ [p]) hs.2.2
      rw [List.dropWhile_cons_of_pos hc,List.length_cons]
      refine ⟨p',log',?_,hrest,by omega,?_⟩
      · rw [skipBlanks,hmem,if_pos hc]
        exact he
      · intro a ha
        rcases hlog a ha with ha | ha
        · exact hp a ha
        · exact Or.inr ⟨by omega,by omega⟩
    · rw [List.dropWhile_cons_of_neg hc]
      refine ⟨p,log ++ [p],?_,hs,rfl,hp⟩
      rw [skipBlanks,hmem,if_neg hc]

/-- The call over memory is the call on the string. -/
theorem nextTokenAt_follows (hfuel : s.length < fuel) (hs : StringAt memory p s) :
    ∃ r, nextTokenAt memory fuel p = some r ∧ FollowsAt memory p s r := by
  obtain ⟨p',log,hskip,hrest,hmoved,hlog⟩ := skipBlanks_follows hfuel [] hs
  have hreads : ∀ a ∈ log, p ≤ a ∧ a ≤ p + s.length := by
    intro a ha
    exact (hlog a ha).resolve_left (List.not_mem_nil (a := a))
  cases hd : s.dropWhile blank with
  | nil =>
    rw [hd] at hrest hmoved
    have hstop : memory p' = nul := hrest
    have hcall : nextTokenAt memory fuel p = some ⟨none,p',[],[],log⟩ := by
      simp [nextTokenAt,hskip,hstop]
    refine ⟨_,hcall,?_,?_,?_,?_,?_,hreads⟩ <;> simp only [nextToken,hd]
    · exact hrest
    · exact hmoved
  | cons c q =>
    rw [hd] at hrest hmoved
    have hle : (c :: q).length ≤ s.length := by
      rw [← hd]
      exact (List.dropWhile_suffix blank).length_le
    obtain ⟨cursor,hscan,h⟩ :=
      scanLoop_scanned .outside .empty (c :: q) (hle.trans_lt hfuel) log hrest
    have hread : ∀ a ∈ cursor.reads, p ≤ a ∧ a ≤ p + s.length := by
      intro a ha
      rcases h.reads a ha with ha | ha
      · exact hreads a ha
      · dsimp only at ha
        exact ⟨by omega,by omega⟩
    have hgo : memory p' ≠ nul := by
      rw [hrest.1]
      exact hrest.2.1
    have hstate := h.state
    have hbuffer := h.buffer
    have hinput := h.rest
    have hend := h.moved
    generalize hr : scanToken .outside Buffer.empty (c :: q) = r at hstate hbuffer hinput hend
    obtain ⟨state,b,rest⟩ := r
    dsimp only at hstate hbuffer hinput hend
    cases state with
    | outside =>
      have hcall : nextTokenAt memory fuel p =
          some ⟨some cursor.buffer.text,cursor.p,cursor.buffer.closed,[],cursor.reads⟩ := by
        simp [nextTokenAt,hskip,hgo,hscan,hstate]
      refine ⟨_,hcall,?_,?_,?_,?_,?_,hread⟩ <;> simp only [nextToken,hd,hr,hbuffer]
      · exact hinput
      · omega
    | _ =>
      have hcall : nextTokenAt memory fuel p =
          some ⟨none,p,cursor.buffer.closed,[unmatchedQuote],cursor.reads⟩ := by
        simp [nextTokenAt,hskip,hgo,hscan,hstate]
      refine ⟨_,hcall,?_,?_,?_,?_,?_,hread⟩ <;> simp only [nextToken,hd,hr,hbuffer]
      exact hs

end Calls

section Progress
variable {memory : ℕ → Char} {fuel p : ℕ} {s : Text}

/-- Wherever a scan stops, there is a blank or nothing more. -/
theorem scanToken_stops (q : Quote) (b : Buffer) (s : Text) : Ends (scanToken q b s).2.2 := by
  induction q, b, s using scanToken.induct with
  | case1 q b =>
    rw [scanToken_nil]
    rintro d p ⟨⟩
  | case2 b c p hc =>
    rw [scanToken_blank b p hc]
    rintro d q ⟨⟩
    exact hc
  | case5 b =>
    rw [scanToken_escapeEnd]
    rintro d p ⟨⟩
  | case11 b =>
    simp only [scanToken]
    rintro d p ⟨⟩
  -- every other turn stops where the turns after it do
  | case3 b p _ ih => simpa using ih
  | case4 b p _ _ ih => simpa using ih
  | case6 b d p _ _ _ ih => simpa using ih
  | case7 b c p hc hs hd he ih => rwa [scanToken_plain b p hc hs hd he]
  | case8 b p ih => simpa using ih
  | case9 b c p hc ih => rwa [scanToken_inSingle b p hc]
  | case10 b p ih => simpa using ih
  | case12 b p _ ih => simpa [scanToken] using ih
  | case13 b d p hn hd _ ih => simpa [scanToken,hn,hd] using ih
  | case14 b d p hn hd _ ih => simpa [scanToken,hn,hd] using ih
  | case15 b c p hd he ih => rwa [scanToken_inDouble b p hd he]

/-- A token is paid for by the characters behind the leading blanks. -/
theorem nextToken_paid {t : Text} (h : (nextToken s).token = some t) :
    t.length + (nextToken s).input.length ≤ (s.dropWhile blank).length := by
  obtain ⟨c,q,b,hskip,rfl,hscan⟩ := nextToken_some h
  have hpaid := (scanned_scanToken .outside Buffer.empty (c :: q)).paid
  rw [hscan] at hpaid
  rw [hskip]
  simpa [Buffer.empty] using hpaid

theorem FollowsAt.readAt {r : PointerRead} (h : FollowsAt memory p s r) (m : Machine) :
    m.readAt r = m.read (nextToken s) := by
  rw [Machine.readAt,h.writes,h.stderr]
  rfl

/-- The loop over memory does what the loop over the segment does, and a call pays for itself
with a character, but for the last one. -/
theorem parseTokensAt_follows (alloc : ℕ → Bool) (hfuel : s.length < fuel)
    (hs : StringAt memory p s) (cmd : Command) (m : Machine) :
    ∃ calls, parseTokensAt memory alloc fuel p cmd m =
      some (parseTokens alloc fuel s cmd m,calls) ∧ calls ≤ s.length + 1 := by
  induction fuel generalizing p s cmd m with
  | zero => omega
  | succ n ih =>
    obtain ⟨r,hcall,hr⟩ := nextTokenAt_follows hfuel hs
    have hread := hr.readAt m
    have htoken := hr.token
    cases ht : (nextToken s).token with
    | none =>
      rw [ht] at htoken
      refine ⟨1,?_,by omega⟩
      simp [parseTokensAt,parseTokens,hcall,htoken,hread,ht]
    | some token =>
      rw [ht] at htoken
      have hlt := nextToken_shorter ht
      cases hop : redirectOf token with
      | none =>
        obtain ⟨calls,hloop,hle⟩ := ih (by omega) hr.rest
          (cmd.push (strdup alloc (m.read (nextToken s)) token).1)
          ((strdup alloc (m.read (nextToken s)) token).2.touch [.argv cmd.argv.length])
        refine ⟨calls + 1,?_,by omega⟩
        simp [parseTokensAt,parseTokens,hcall,htoken,hread,ht,hop,hloop]
      | some op =>
        obtain ⟨r',hcall',hr'⟩ := nextTokenAt_follows (hlt.trans hfuel) hr.rest
        have hread' := hr'.readAt (m.read (nextToken s))
        have hfile := hr'.token
        cases hf : (nextToken (nextToken s).input).token with
        | none =>
          rw [hf] at hfile
          refine ⟨2,?_,by omega⟩
          simp [parseTokensAt,parseTokens,hcall,htoken,hread,ht,hop,hcall',hfile,hread',hf]
        | some file =>
          rw [hf] at hfile
          have hlt' := nextToken_shorter hf
          by_cases hop' : (redirectOf file).isSome = true
          · refine ⟨2,?_,by omega⟩
            simp [parseTokensAt,parseTokens,hcall,htoken,hread,ht,hop,hcall',hfile,hread',hf,hop']
          · obtain ⟨calls,hloop,hle⟩ := ih (by omega) hr'.rest
              (cmd.redirect op (strdup alloc
                ((m.read (nextToken s)).read (nextToken (nextToken s).input)) file).1)
              (strdup alloc ((m.read (nextToken s)).read (nextToken (nextToken s).input)) file).2
            refine ⟨calls + 2,?_,by omega⟩
            simp [parseTokensAt,parseTokens,hcall,htoken,hread,ht,hop,hcall',hfile,hread',hf,hop',
              hloop]

/-- A call returns without a read behind the terminator. A token moves the pointer on, to a
blank or the terminator, over as many characters behind the blanks as it has at least. A
string shorter than the buffer is kept inside it, and the token loop of a segment takes no
more calls than the segment has characters, but for one. -/
theorem nextToken_progresses (alloc : ℕ → Bool) (hs : StringAt memory p s)
    (hfuel : s.length < fuel) :
    ∃ r, nextTokenAt memory fuel p = some r ∧
      (∀ a ∈ r.reads, p ≤ a ∧ a ≤ p + s.length) ∧
      (∀ t, r.token = some t → p < r.input ∧ r.input ≤ p + s.length ∧
        (blank (memory r.input) = true ∨ memory r.input = nul) ∧
        p + (s.takeWhile blank).length + t.length ≤ r.input) ∧
      (s.length < tokenBuffer → ∀ i ∈ r.writes, i < tokenBuffer) ∧
      ∀ cmd m, ∃ out calls, parseTokensAt memory alloc fuel p cmd m = some (out,calls) ∧
        calls ≤ s.length + 1 := by
  obtain ⟨r,hcall,hr⟩ := nextTokenAt_follows hfuel hs
  refine ⟨r,hcall,hr.reads,?_,?_,?_⟩
  · intro t ht
    have ht' : (nextToken s).token = some t := hr.token.symm.trans ht
    have hmoved := hr.moved
    have hlt := nextToken_shorter ht'
    have hpaid := nextToken_paid ht'
    have hsplit := congrArg List.length (List.takeWhile_append_dropWhile (p := blank) (l := s))
    rw [List.length_append] at hsplit
    refine ⟨by omega,by omega,?_,by omega⟩
    have hrest := hr.rest
    obtain ⟨c,q,b,_,_,hscan⟩ := nextToken_some ht'
    have hends := scanToken_stops .outside Buffer.empty (c :: q)
    rw [hscan] at hends
    cases hi : (nextToken s).input with
    | nil =>
      rw [hi] at hrest
      exact Or.inr hrest
    | cons d rest =>
      rw [hi] at hrest
      refine Or.inl ?_
      rw [hrest.1]
      exact hends d rest hi
  · intro hlen i hi
    rw [hr.writes] at hi
    exact (nextToken_writes s i hi).trans_lt hlen
  · intro cmd m
    obtain ⟨calls,hloop,hle⟩ := parseTokensAt_follows alloc hfuel hs cmd m
    exact ⟨_,calls,hloop,hle⟩

end Progress

/-- Memory that holds a string at its start and nothing else. -/
def memoryOf (s : Text) (p : ℕ) : Char := s.getD p nul

/-- An operator, an escape of its own kind, and a backslash in front of the terminator. -/
def unfinished : Text := [' ','>',' ','"','\\','x','"','a','\\']

theorem unfinished_progresses :
    ∃ r, nextTokenAt (memoryOf unfinished) 10 0 = some r ∧
      (∀ a ∈ r.reads, 0 ≤ a ∧ a ≤ 0 + unfinished.length) ∧
      (∀ t, r.token = some t → 0 < r.input ∧ r.input ≤ 0 + unfinished.length ∧
        (blank (memoryOf unfinished r.input) = true ∨ memoryOf unfinished r.input = nul) ∧
        0 + (unfinished.takeWhile blank).length + t.length ≤ r.input) ∧
      (unfinished.length < tokenBuffer → ∀ i ∈ r.writes, i < tokenBuffer) ∧
      ∀ cmd m, ∃ out calls, parseTokensAt (memoryOf unfinished) (fun _ => true) 10 0 cmd m =
        some (out,calls) ∧ calls ≤ unfinished.length + 1 :=
  nextToken_progresses (fun _ => true) (by decide) (by decide)

end UnixShell.Parser
