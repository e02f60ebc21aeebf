import UnixShell.Parser.Acceptance
import UnixShell.Parser.Storage

/-! # What the parser frees

Every block is owned by the pipeline, by one element of the command array, or by nobody any
more. Where every argument vector has room for its NULL, the parser never frees or touches a
block that is not live, and the blocks that nobody owns are copies: those behind a NULL in an
argument vector, file names that a later redirection replaced, and the file names of a segment
that is put off.
-/
namespace UnixShell.Parser.Storage
open Foundation

abbrev Blocks := Multiset (ℕ × Object)

/-- The blocks of some copies. -/
def copies (cs : List (Option Copy)) : Blocks :=
  ((cs.filterMap id).map fun c => (c.1,Object.copy c.2) : List (ℕ × Object))

/-- Nothing but copies. -/
def OnlyCopies (bs : Blocks) : Prop := ∀ b ∈ bs, ∃ s, b.2 = .copy s

@[simp] theorem copies_nil : copies [] = 0 := rfl

@[simp] theorem copies_cons_none (cs : List (Option Copy)) : copies (none :: cs) = copies cs := rfl

@[simp] theorem copies_cons_some (c : Copy) (cs : List (Option Copy)) :
    copies (some c :: cs) = {(c.1,Object.copy c.2)} + copies cs := rfl

theorem copies_append (cs ds : List (Option Copy)) : copies (cs ++ ds) = copies cs + copies ds := by
  simp [copies,Multiset.coe_add]

theorem onlyCopies_copies (cs : List (Option Copy)) : OnlyCopies (copies cs) := by
  intro b hb
  obtain ⟨c,_,rfl⟩ := List.mem_map.mp (Multiset.mem_coe.mp hb)
  exact ⟨c.2,rfl⟩

theorem onlyCopies_zero : OnlyCopies 0 := by
  intro b hb
  cases Multiset.notMem_zero b hb

theorem OnlyCopies.add {bs cs : Blocks} (hb : OnlyCopies bs) (hc : OnlyCopies cs) :
    OnlyCopies (bs + cs) := fun b h => (Multiset.mem_add.mp h).elim (hb b) (hc b)

namespace Slot

def files (s : Slot) : List (Option Copy) := [s.inputFile,s.outputFile,s.errorFile]

/-- The copies the element holds. -/
def copies (s : Slot) : Blocks := Storage.copies s.entries + Storage.copies s.files

def vector (s : Slot) : Blocks := (s.argv.toList.map fun v => (v,Object.argv) : List (ℕ × Object))

def blocks (s : Slot) : Blocks := s.vector + s.copies

/-- The copies that the loop over the argument vector does not come to. -/
def stranded (s : Slot) : Blocks := Storage.copies (s.entries.dropWhile Option.isSome)

/-- The element has a vector, and the vector a slot for the NULL behind the entries. -/
def Seated (s : Slot) : Prop := s.argv ≠ none ∧ s.entries.length < maxTokens

/-- No copy failed, so that the first NULL is the one at the end. -/
def Whole (s : Slot) : Prop := none ∉ s.entries

theorem stranded_whole {s : Slot} (h : s.Whole) : s.stranded = 0 := by
  have hall : ∀ c ∈ s.entries, c.isSome = true := by
    intro c hc
    cases c with
    | none => exact absurd hc h
    | some c => rfl
  rw [stranded,List.dropWhile_eq_nil_iff.mpr hall,copies_nil]

end Slot

section Freeing
variable {h : Heap Object} {bs : Blocks}

theorem touchEntry_owned {v i : ℕ} (hv : (v,Object.argv) ∈ bs) (hi : i < maxTokens)
    (ho : h.Owns bs) : touchEntry h v i = h := by
  rw [touchEntry,if_pos hi]
  exact ho.touch hv

theorem freeEntries_owns {v i : ℕ} (hv : (v,Object.argv) ∈ bs) {cs : List (Option Copy)}
    (hroom : i + cs.length < maxTokens) (ho : h.Owns (copies cs + bs)) :
    (freeEntries v i h cs).Owns (copies (cs.dropWhile Option.isSome) + bs) := by
  have htouch : touchEntry h v i = h :=
    touchEntry_owned (Multiset.mem_add.mpr (.inr hv)) (by omega) ho
  induction cs generalizing i h with
  | nil =>
    rw [freeEntries,htouch]
    exact ho
  | cons c cs ih =>
    cases c with
    | none =>
      rw [freeEntries,htouch]
      exact ho
    | some c =>
      rw [freeEntries,htouch]
      rw [copies_cons_some,add_assoc] at ho
      have hrest : i + 1 + cs.length < maxTokens := by
        rw [List.length_cons] at hroom
        omega
      exact ih hrest ho.free
        (touchEntry_owned (Multiset.mem_add.mpr (.inr hv)) (by omega) ho.free)

theorem freePointer_owns {c : Option Copy} (ho : h.Owns (copies [c] + bs)) :
    (h.freePointer (c.map Prod.fst)).Owns bs := by
  cases c with
  | none => exact ho.congr (zero_add bs)
  | some c =>
    rw [copies_cons_some,copies_nil,add_zero] at ho
    exact ho.free

theorem vector_some {s : Slot} {v : ℕ} (hs : s.argv = some v) : s.vector = {(v,.argv)} := by
  rw [Slot.vector,hs]
  rfl

/-- Freeing an element leaves only what is behind a NULL. -/
theorem freeSlot_owns {commands : ℕ} (hc : (commands,Object.commands) ∈ bs) {s : Slot}
    (hs : s.Seated) (ho : h.Owns (s.blocks + bs)) :
    (freeSlot commands h s).Owns (s.stranded + bs) := by
  obtain ⟨hvector,hroom⟩ := hs
  obtain ⟨v,hs⟩ := Option.ne_none_iff_exists'.mp hvector
  have hblocks : s.blocks + bs = copies s.entries + ({(v,.argv)} + (copies [s.inputFile] +
      (copies [s.outputFile] + (copies [s.errorFile] + bs)))) := by
    have hfiles : copies s.files =
        copies [s.inputFile] + (copies [s.outputFile] + copies [s.errorFile]) := by
      rw [← copies_append,← copies_append]
      rfl
    rw [Slot.blocks,vector_some hs,Slot.copies,hfiles]
    abel
  have hv : (v,Object.argv) ∈ ({(v,.argv)} + (copies [s.inputFile] + (copies [s.outputFile] +
      (copies [s.errorFile] + bs))) : Blocks) :=
    Multiset.mem_add.mpr (.inl (Multiset.mem_singleton_self _))
  have hvector : (freeVector h s).Owns (copies [s.inputFile] + (copies [s.outputFile] +
      (copies [s.errorFile] + (s.stranded + bs)))) := by
    rw [freeVector,hs]
    refine Heap.Owns.free (b := (v,.argv))
      ((freeEntries_owns hv (by omega) (ho.congr hblocks)).congr ?_)
    rw [Slot.stranded]
    abel
  rw [freeSlot,ho.touch (Multiset.mem_add.mpr (.inr hc))]
  exact freePointer_owns (freePointer_owns (freePointer_owns hvector))

/-- The blocks of the elements below an index. -/
def ownedBelow (slots : ℕ → Slot) : ℕ → Blocks
  | 0 => 0
  | n+1 => (slots n).blocks + ownedBelow slots n

def strandedBelow (slots : ℕ → Slot) : ℕ → Blocks
  | 0 => 0
  | n+1 => (slots n).stranded + strandedBelow slots n

theorem freeCommands_owns {st : Stored} (hc : (st.commands,Object.commands) ∈ bs) {count : ℕ}
    (hs : ∀ i < count, (st.slots i).Seated) (ho : h.Owns (ownedBelow st.slots count + bs)) :
    (freeCommands st count h).Owns (strandedBelow st.slots count + bs) := by
  induction count generalizing bs with
  | zero => exact ho
  | succ n ih =>
    have hbelow : (freeCommands st n h).Owns
        (strandedBelow st.slots n + ((st.slots n).blocks + bs)) := by
      refine ih (Multiset.mem_add.mpr (.inr hc)) (fun i hi => hs i (hi.trans (Nat.lt_succ_self n)))
        (ho.congr ?_)
      rw [ownedBelow]
      abel
    have hslot := freeSlot_owns (Multiset.mem_add.mpr (.inr hc)) (hs n (Nat.lt_succ_self n))
      (hbelow.congr (add_left_comm ..))
    rw [freeCommands,List.range_succ,List.foldl_append]
    refine hslot.congr ?_
    rw [strandedBelow]
    abel

/-- Every error path gives back the pipeline, the array and the elements. -/
theorem discard_owns {st : Stored} {count : ℕ} (hs : ∀ i < count, (st.slots i).Seated)
    (ho : h.Owns ({(st.pipeline,Object.pipeline)} + {(st.commands,Object.commands)} +
      ownedBelow st.slots count + bs)) :
    (discard st count h).Owns (strandedBelow st.slots count + bs) := by
  have hcommands : (freeCommands st count h).Owns (strandedBelow st.slots count +
      ({(st.commands,Object.commands)} + ({(st.pipeline,Object.pipeline)} + bs))) := by
    refine freeCommands_owns (by simp) hs (ho.congr ?_)
    abel
  rw [add_left_comm] at hcommands
  have harray := Heap.Owns.free (b := (st.commands,Object.commands)) hcommands
  rw [add_left_comm] at harray
  exact Heap.Owns.free (b := (st.pipeline,Object.pipeline)) harray

end Freeing

section Copying
variable {alloc : ℕ → Bool} {h : Heap Object} {bs : Blocks}

/-- A copy's block is new. -/
theorem strdup_owns (ho : h.Owns bs) (t : Text) :
    (strdup alloc h t).2.Owns (copies [(strdup alloc h t).1] + bs) := by
  cases ha : alloc h.requests with
  | false =>
    simp only [strdup,ha]
    exact (ho.refused _).2.congr (zero_add bs).symm
  | true =>
    simp only [strdup,ha]
    exact (ho.granted (.copy t)).2

theorem strdup_full (hfull : ∀ n, alloc n = true) (h : Heap Object) (t : Text) :
    (strdup alloc h t).1 = some (h.requests,t) := by
  simp [strdup,hfull,Heap.request]

theorem copies_push (s : Slot) (entry : Option Copy) :
    (s.push entry).copies = copies [entry] + s.copies := by
  rw [Slot.copies,Slot.copies,Slot.push,copies_append,Slot.files,Slot.files]
  abel

def Slot.file (s : Slot) : Redirect → Option Copy
  | .input => s.inputFile
  | .output => s.outputFile
  | .error => s.errorFile

/-- A redirection puts its file name in the place of the old one. -/
theorem copies_redirect (s : Slot) (op : Redirect) (file : Option Copy) :
    (s.redirect op file).copies + copies [s.file op] = copies [file] + s.copies := by
  have hcons : ∀ a b : Option Copy, ∀ cs, copies (a :: b :: cs) =
      copies [a] + (copies [b] + copies cs) := by
    intro a b cs
    rw [← copies_append,← copies_append]
    rfl
  cases op <;> simp only [Slot.copies,Slot.redirect,Slot.files,Slot.file,hcons] <;> abel

end Copying

/-- The words of a reading. -/
def wordsOf (r : Reading) : Multiset Text := (r.arguments ++ r.files.map Prod.snd : List Text)

theorem wordsOf_argument (r : Reading) (t : Text) : wordsOf (r.argument t) = {t} + wordsOf r := rfl

theorem wordsOf_file (r : Reading) (op : Redirect) (f : Text) :
    wordsOf (r.file op f) = {f} + wordsOf r := by
  simp only [wordsOf,Reading.file_arguments,Reading.file_files,List.map_cons]
  exact Multiset.coe_eq_coe.mpr List.perm_middle

/-- What the token loop makes of an element. -/
structure TokensRead (full : Prop) (r : Reading) (s : Slot) (out : Bool × Slot × Heap Object) :
    Prop where
  lacks : out.1 = r.lacking.isSome
  argv : out.2.1.argv = s.argv
  argc : out.2.1.entries.length = s.entries.length + r.arguments.length
  command : full → out.2.1.command = s.command.extend r
  whole : full → s.Whole → out.2.1.Whole

namespace TokensRead
variable {full : Prop} {r : Reading} {s : Slot} {out : Bool × Slot × Heap Object}

theorem argument {t : Text} {copy : Option Copy} (hfull : full → ∃ b, copy = some (b,t))
    (h : TokensRead full r (s.push copy) out) : TokensRead full (r.argument t) s out where
  lacks := h.lacks
  argv := h.argv
  argc := by
    rw [h.argc,Slot.push,List.length_append,Reading.argument_arguments,List.length_singleton,
      List.length_cons,add_right_comm,add_assoc]
  command hf := by
    obtain ⟨b,rfl⟩ := hfull hf
    rw [h.command hf,Command.extend_argument,Slot.command_push]
    rfl
  whole hf hs := by
    obtain ⟨b,rfl⟩ := hfull hf
    refine h.whole hf ?_
    simpa [Slot.Whole,Slot.push] using hs

theorem file {op : Redirect} {f : Text} {copy : Option Copy} (hfull : full → ∃ b, copy = some (b,f))
    (h : TokensRead full r (s.redirect op copy) out) : TokensRead full (r.file op f) s out where
  lacks := h.lacks
  argv := h.argv.trans (Slot.redirect_argv ..)
  argc := by
    rw [h.argc,Slot.redirect_entries,Reading.file_arguments]
  command hf := by
    obtain ⟨b,rfl⟩ := hfull hf
    rw [h.command hf,Command.extend_file,Slot.command_redirect]
    rfl
  whole hf hs := h.whole hf (by cases op <;> exact hs)

end TokensRead

theorem parseTokens_read {alloc : ℕ → Bool} {full : Prop} (hfull : full → ∀ n, alloc n = true)
    (commands v : ℕ) {fuel : ℕ} {p : Text} {r : Reading} (hr : Reads p r) (hfuel : p.length < fuel)
    (s : Slot) (h : Heap Object) :
    TokensRead full r s (parseTokens alloc commands v fuel p s h) := by
  induction hr generalizing fuel s h with
  | stop hs =>
    obtain ⟨n,rfl⟩ := Nat.exists_eq_add_of_lt hfuel
    rw [parseTokens_stop _ _ _ hs]
    exact ⟨rfl,rfl,rfl,fun _ => by simp,fun _ => id⟩
  | @argument p t r hs ht hr ih =>
    obtain ⟨n,rfl⟩ := Nat.exists_eq_add_of_lt hfuel
    have hlt := nextToken_shorter hs
    rw [parseTokens_argument _ _ _ hs ht]
    exact .argument (fun hf => ⟨_,strdup_full (hfull hf) h t⟩) (ih (by omega) _ _)
  | lacking hs ht hf =>
    obtain ⟨n,rfl⟩ := Nat.exists_eq_add_of_lt hfuel
    rw [parseTokens_lacking _ _ _ hs ht hf]
    exact ⟨rfl,rfl,rfl,fun _ => by simp [Command.extend],fun _ => id⟩
  | @file p t f op r hs ht hn hf hr ih =>
    obtain ⟨n,rfl⟩ := Nat.exists_eq_add_of_lt hfuel
    have hlt := nextToken_shorter hs
    have hlt' := nextToken_shorter hn
    rw [parseTokens_file _ _ _ hs ht hn hf]
    exact .file (fun hf => ⟨_,strdup_full (hfull hf) h f⟩) (ih (by omega) _ _)

/-- The copies that the token loop makes are held by the element or lost. -/
def TokensPaid (full : Prop) (r : Reading) (s : Slot) (bs : Blocks)
    (out : Bool × Slot × Heap Object) : Prop :=
  ∃ lost, OnlyCopies lost ∧ out.2.2.Owns (out.2.1.copies + (lost + bs)) ∧
    (full → (out.2.1.copies + lost).map Prod.snd =
      s.copies.map Prod.snd + (wordsOf r).map .copy)

namespace TokensPaid
variable {full : Prop} {r : Reading} {s : Slot} {bs : Blocks} {out : Bool × Slot × Heap Object}

theorem argument {t : Text} {copy : Option Copy} (hfull : full → ∃ b, copy = some (b,t))
    (h : TokensPaid full r (s.push copy) bs out) : TokensPaid full (r.argument t) s bs out := by
  obtain ⟨lost,hlost,ho,htexts⟩ := h
  refine ⟨lost,hlost,ho,fun hf => ?_⟩
  obtain ⟨b,rfl⟩ := hfull hf
  rw [htexts hf,copies_push,wordsOf_argument]
  simp only [copies_cons_some,copies_nil,add_zero,Multiset.map_add,Multiset.map_singleton]
  abel

theorem file {op : Redirect} {f : Text} {copy : Option Copy} (hfull : full → ∃ b, copy = some (b,f))
    (h : TokensPaid full r (s.redirect op copy) (copies [s.file op] + bs) out) :
    TokensPaid full (r.file op f) s bs out := by
  obtain ⟨lost,hlost,ho,htexts⟩ := h
  refine ⟨lost + copies [s.file op],hlost.add (onlyCopies_copies _),?_,fun hf => ?_⟩
  · rwa [add_assoc]
  · obtain ⟨b,rfl⟩ := hfull hf
    have hswap := congrArg (Multiset.map Prod.snd) (copies_redirect s op (some (b,f)))
    simp only [copies_cons_some,copies_nil,add_zero,Multiset.map_add,
      Multiset.map_singleton] at hswap
    rw [← add_assoc,Multiset.map_add,htexts hf,wordsOf_file,Multiset.map_add,add_right_comm,hswap]
    simp only [Multiset.map_singleton]
    abel

end TokensPaid

theorem parseTokens_paid {alloc : ℕ → Bool} {full : Prop} (hfull : full → ∀ n, alloc n = true)
    {commands v fuel : ℕ} {p : Text} {r : Reading} (hr : Reads p r) (hfuel : p.length < fuel)
    {s : Slot} {h : Heap Object} {bs : Blocks} (hc : (commands,Object.commands) ∈ bs)
    (hv : (v,Object.argv) ∈ bs) (hroom : s.entries.length + r.arguments.length < maxTokens)
    (ho : h.Owns (s.copies + bs)) :
    TokensPaid full r s bs (parseTokens alloc commands v fuel p s h) := by
  induction hr generalizing fuel s h bs with
  | stop hs =>
    obtain ⟨n,rfl⟩ := Nat.exists_eq_add_of_lt hfuel
    rw [parseTokens_stop _ _ _ hs]
    refine ⟨0,onlyCopies_zero,by rwa [zero_add],fun _ => ?_⟩
    simp [wordsOf,Reading.empty]
  | @argument p t r hs ht hr ih =>
    obtain ⟨n,rfl⟩ := Nat.exists_eq_add_of_lt hfuel
    have hlt := nextToken_shorter hs
    have hcopy := @strdup_owns alloc _ _ ho t
    have hmem : ∀ {b}, b ∈ bs → b ∈ copies [(strdup alloc h t).1] + (s.copies + bs) := fun hb =>
      Multiset.mem_add.mpr (.inr (Multiset.mem_add.mpr (.inr hb)))
    rw [Reading.argument_arguments,List.length_cons] at hroom
    rw [parseTokens_argument _ _ _ hs ht,hcopy.touch (hmem hc),
      touchEntry_owned (hmem hv) (by omega) hcopy]
    refine .argument (fun hf => ⟨_,strdup_full (hfull hf) h t⟩) (ih (by omega) hc hv ?_ ?_)
    · rw [Slot.push,List.length_append,List.length_singleton]
      omega
    · rwa [copies_push,add_assoc]
  | lacking hs ht hf =>
    obtain ⟨n,rfl⟩ := Nat.exists_eq_add_of_lt hfuel
    rw [parseTokens_lacking _ _ _ hs ht hf]
    refine ⟨0,onlyCopies_zero,by rwa [zero_add],fun _ => ?_⟩
    simp [wordsOf]
  | @file p t f op r hs ht hn hf hr ih =>
    obtain ⟨n,rfl⟩ := Nat.exists_eq_add_of_lt hfuel
    have hlt := nextToken_shorter hs
    have hlt' := nextToken_shorter hn
    have hcopy := @strdup_owns alloc _ _ ho f
    have hmem : ∀ {b}, b ∈ bs → b ∈ copies [(strdup alloc h f).1] + (s.copies + bs) := fun hb =>
      Multiset.mem_add.mpr (.inr (Multiset.mem_add.mpr (.inr hb)))
    rw [parseTokens_file _ _ _ hs ht hn hf,hcopy.touch (hmem hc)]
    refine .file (fun hf => ⟨_,strdup_full (hfull hf) h f⟩) (ih (by omega)
      (Multiset.mem_add.mpr (.inr hc)) (Multiset.mem_add.mpr (.inr hv)) ?_ ?_)
    · rwa [Slot.redirect_entries]
    · rwa [← add_assoc,copies_redirect,add_assoc]

section Leaks

/-- The file names that a later redirection of the same kind replaces. -/
def overwritten : List (Redirect × Text) → List Text
  | [] => []
  | (op,f) :: fs => if fs.any (·.1 = op) then f :: overwritten fs else overwritten fs

instance (r : Reading) (rest : List Text) : Decidable (r.GoesOn rest) :=
  inferInstanceAs (Decidable (_ ∧ _))

/-- What a segment leaves to nobody: all its file names when it is put off. -/
def leakOf (r : Reading) (rest : List Text) : List Text :=
  if r.arguments = [] ∧ r.GoesOn rest then r.files.map Prod.snd else overwritten r.files

/-- What the segments that the parser comes to leave to nobody. -/
def leaks : List Text → List Text
  | [] => []
  | segment :: rest =>
    leakOf (segmentReading segment) rest ++
      if (segmentReading segment).GoesOn rest then leaks rest else []

theorem leaks_goes {segment : Text} {rest : List Text} (h : (segmentReading segment).GoesOn rest) :
    leaks (segment :: rest) = leakOf (segmentReading segment) rest ++ leaks rest := by
  rw [leaks,if_pos h]

theorem leaks_empty : leaks [[]] = [] := by
  have hnone : segmentReading [] = .empty := segmentReading_blank rfl
  simp [leaks,hnone,leakOf,Reading.empty,overwritten]

/-- No redirection is repeated in a segment, and none is put off. -/
def Tidy : List Text → Prop
  | [] => True
  | segment :: rest =>
    ((segmentReading segment).files.map Prod.fst).Nodup ∧
      ((segmentReading segment).GoesOn rest →
        (segmentReading segment).arguments ≠ [] ∧ Tidy rest)

theorem overwritten_eq_nil_iff (fs : List (Redirect × Text)) :
    overwritten fs = [] ↔ (fs.map Prod.fst).Nodup := by
  induction fs with
  | nil => simp [overwritten]
  | cons x fs ih =>
    obtain ⟨op,f⟩ := x
    rw [overwritten,List.map_cons,List.nodup_cons,← ih]
    split_ifs with hany
    · simp only [List.any_eq_true,decide_eq_true_eq] at hany
      obtain ⟨x,hx,rfl⟩ := hany
      exact iff_of_false (by simp) fun h => h.1 (List.mem_map.mpr ⟨x,hx,rfl⟩)
    · simp only [List.any_eq_true,decide_eq_true_eq,not_exists,not_and] at hany
      refine (and_iff_right fun hmem => ?_).symm
      obtain ⟨x,hx,he⟩ := List.mem_map.mp hmem
      exact hany x hx he

theorem leakOf_eq_nil_iff (r : Reading) (rest : List Text) :
    leakOf r rest = [] ↔ (r.files.map Prod.fst).Nodup ∧ (r.GoesOn rest → r.arguments ≠ []) := by
  rw [leakOf]
  split_ifs with h
  · have hfiles : r.files ≠ [] := h.2.2.elim (absurd h.1) And.right
    exact iff_of_false (by simpa using hfiles) fun hr => hr.2 h.2 h.1
  · rw [overwritten_eq_nil_iff]
    exact (and_iff_left fun hgo hnil => h ⟨hnil,hgo⟩).symm

theorem leaks_eq_nil_iff (segs : List Text) : leaks segs = [] ↔ Tidy segs := by
  induction segs with
  | nil => simp [leaks,Tidy]
  | cons segment rest ih =>
    rw [leaks,Tidy,List.append_eq_nil_iff,leakOf_eq_nil_iff,and_assoc]
    refine and_congr_right fun _ => ?_
    by_cases hgo : (segmentReading segment).GoesOn rest
    · simp only [hgo,if_true,true_implies,ih]
    · simp only [hgo,if_false,false_implies,and_self]

def held (o : Option Text) : Multiset Text := (o.toList : Multiset Text)

def filesOf (cmd : Command) : Multiset Text :=
  held cmd.inputFile + (held cmd.outputFile + held cmd.errorFile)

/-- The file that the command has for an operator, where one of these redirections replaces it. -/
def replaced (cmd : Command) (fs : List (Redirect × Text)) (op : Redirect) : Multiset Text :=
  if fs.any (·.1 = op) then held (cmd.file op) else 0

theorem replaced_cons (cmd : Command) (fs : List (Redirect × Text)) (op op' : Redirect) (f : Text) :
    replaced cmd ((op,f) :: fs) op' = if op = op' then held (cmd.file op') else
      replaced (cmd.redirect op (some f)) fs op' := by
  by_cases hop : op = op'
  · simp [replaced,hop]
  · rw [if_neg hop,replaced,replaced,List.any_cons,decide_eq_false hop,Bool.false_or,file_redirect,
      if_neg hop]

theorem replaced_redirect (cmd : Command) (fs : List (Redirect × Text)) (op : Redirect) (f : Text) :
    replaced (cmd.redirect op (some f)) fs op = if fs.any (·.1 = op) then {f} else 0 := by
  simp [replaced,file_redirect,held]

theorem filesOf_redirect (cmd : Command) (op : Redirect) (f : Text) :
    filesOf (cmd.redirect op (some f)) + held (cmd.file op) = filesOf cmd + {f} := by
  have hone : held (some f) = {f} := rfl
  cases op <;> simp only [filesOf,Command.redirect,Command.file,hone] <;> abel

/-- Each file name is held at the end, or was replaced. -/
theorem filesOf_foldl (fs : List (Redirect × Text)) (cmd : Command) :
    filesOf (fs.foldl (fun cmd f => cmd.redirect f.1 (some f.2)) cmd) + (overwritten fs +
      (replaced cmd fs .input + (replaced cmd fs .output + replaced cmd fs .error))) =
        filesOf cmd + (fs.map Prod.snd : List Text) := by
  induction fs generalizing cmd with
  | nil => simp [overwritten,replaced]
  | cons x fs ih =>
    obtain ⟨op,f⟩ := x
    have hfile := filesOf_redirect cmd op f
    have hover : (overwritten ((op,f) :: fs) : Multiset Text) =
        replaced (cmd.redirect op (some f)) fs op + overwritten fs := by
      rw [replaced_redirect,overwritten]
      split_ifs <;> simp
    have hheld : replaced (cmd.redirect op (some f)) fs op + (replaced cmd ((op,f) :: fs) .input +
        (replaced cmd ((op,f) :: fs) .output + replaced cmd ((op,f) :: fs) .error)) =
          replaced (cmd.redirect op (some f)) fs .input +
            (replaced (cmd.redirect op (some f)) fs .output +
              replaced (cmd.redirect op (some f)) fs .error) + held (cmd.file op) := by
      cases op <;> simp only [replaced_cons,reduceCtorEq,if_true,if_false] <;> abel
    calc filesOf (fs.foldl _ (cmd.redirect op (some f))) + (overwritten ((op,f) :: fs) + _)
        = filesOf (fs.foldl _ (cmd.redirect op (some f))) + (overwritten fs +
            (replaced (cmd.redirect op (some f)) fs op + (replaced cmd ((op,f) :: fs) .input +
              (replaced cmd ((op,f) :: fs) .output + replaced cmd ((op,f) :: fs) .error)))) := by
          rw [hover]
          abel
      _ = filesOf (cmd.redirect op (some f)) + (fs.map Prod.snd : List Text) +
            held (cmd.file op) := by
          rw [hheld,← ih (cmd.redirect op (some f))]
          abel
      _ = filesOf cmd + ({f} + (fs.map Prod.snd : List Text)) := by
          rw [add_right_comm,hfile,add_assoc]

theorem overwritten_words (r : Reading) :
    ((Command.fresh.extend r).argv.filterMap id : List Text) + filesOf (Command.fresh.extend r) +
      (overwritten r.files : Multiset Text) = wordsOf r := by
  have hfiles := filesOf_foldl r.files {Command.fresh with argv := r.arguments.map some}
  have hnone : ∀ op, replaced {Command.fresh with argv := r.arguments.map some} r.files op = 0 := by
    intro op
    rw [replaced]
    split_ifs
    · cases op <;> rfl
    · rfl
  have hheld : filesOf {Command.fresh with argv := r.arguments.map some} = 0 := rfl
  simp only [hnone,hheld,zero_add,add_zero] at hfiles
  rw [add_assoc,fresh_extend_argv,Command.extend]
  simp only [Command.fresh,List.nil_append] at hfiles ⊢
  rw [hfiles,wordsOf,← Multiset.coe_add]
  simp

end Leaks

section Below
variable {slots : ℕ → Slot} {count : ℕ}

theorem update_below {i : ℕ} (hi : i < count) (s : Slot) :
    Function.update slots count s i = slots i := Function.update_of_ne hi.ne ..

theorem ownedBelow_congr {slots' : ℕ → Slot} (h : ∀ i < count, slots' i = slots i) :
    ownedBelow slots' count = ownedBelow slots count := by
  induction count with
  | zero => rfl
  | succ n ih =>
    rw [ownedBelow,ownedBelow,h n (Nat.lt_succ_self n),
      ih fun i hi => h i (hi.trans (Nat.lt_succ_self n))]

theorem onlyCopies_strandedBelow (slots : ℕ → Slot) (count : ℕ) :
    OnlyCopies (strandedBelow slots count) := by
  induction count with
  | zero => exact onlyCopies_zero
  | succ n ih => exact (onlyCopies_copies _).add ih

theorem strandedBelow_whole (h : ∀ i < count, (slots i).Whole) : strandedBelow slots count = 0 := by
  induction count with
  | zero => rfl
  | succ n ih =>
    rw [strandedBelow,Slot.stranded_whole (h n (Nat.lt_succ_self n)),
      ih fun i hi => h i (hi.trans (Nat.lt_succ_self n)),add_zero]

end Below

/-- Blocks that nobody owns: copies, and of these words when no request fails. -/
structure Lost (full : Prop) (texts : Multiset Text) (lost : Blocks) : Prop where
  only : OnlyCopies lost
  texts : full → lost.map Prod.snd = texts.map .copy

namespace Lost
variable {full : Prop} {texts texts' : Multiset Text} {lost lost' : Blocks}

theorem zero : Lost full 0 0 := ⟨onlyCopies_zero,fun _ => rfl⟩

theorem add (h : Lost full texts lost) (h' : Lost full texts' lost') :
    Lost full (texts + texts') (lost + lost') :=
  ⟨h.only.add h'.only,fun hf => by rw [Multiset.map_add,h.texts hf,h'.texts hf,Multiset.map_add]⟩

theorem congr (h : Lost full texts lost) (he : full → texts = texts') : Lost full texts' lost :=
  ⟨h.only,fun hf => he hf ▸ h.texts hf⟩

end Lost

/-- The pipeline owns its array, and the elements below `cmd_count` what is theirs; `lost` is
owned by nobody, and `bs` by somebody else. -/
structure Filled (full : Prop) (st : Stored) (h : Heap Object) (lost bs : Blocks) : Prop where
  seated : ∀ i < st.count, (st.slots i).Seated
  whole : full → ∀ i < st.count, (st.slots i).Whole
  owns : h.Owns ({(st.pipeline,Object.pipeline)} + {(st.commands,Object.commands)} +
    ownedBelow st.slots st.count + (lost + bs))

/-- What a part of `parse_line` leaves, whether it goes on or returns NULL. -/
def Settled (full : Prop) (texts : Multiset Text) (bs : Blocks) (out : Option Stored × Heap Object) :
    Prop :=
  match out.1 with
  | none => ∃ lost, Lost full texts lost ∧ out.2.Owns (lost + bs)
  | some st => ∃ lost, Lost full texts lost ∧ Filled full st out.2 lost bs

section Segments
variable {full : Prop} {texts : Multiset Text} {st : Stored} {h : Heap Object} {lost bs : Blocks}

theorem discard_lost {count : ℕ} (hv : ∀ i < count, (st.slots i).Seated)
    (hw : full → ∀ i < count, (st.slots i).Whole) (hl : Lost full texts lost)
    (ho : h.Owns ({(st.pipeline,Object.pipeline)} + {(st.commands,Object.commands)} +
      ownedBelow st.slots count + (lost + bs))) :
    ∃ lost, Lost full texts lost ∧ (discard st count h).Owns (lost + bs) := by
  refine ⟨strandedBelow st.slots count + lost,?_,?_⟩
  · have hnone : Lost full 0 (strandedBelow st.slots count) :=
      ⟨onlyCopies_strandedBelow _ _,fun hf => by rw [strandedBelow_whole (hw hf)]; rfl⟩
    exact (hnone.add hl).congr fun _ => zero_add _
  · rw [add_assoc]
    exact discard_owns hv ho

theorem Filled.discard (hs : Filled full st h lost bs) (hl : Lost full texts lost) :
    Settled full texts bs (none,discard st st.count h) :=
  discard_lost hs.seated hs.whole hl hs.owns

theorem grow_filled (alloc : ℕ → Bool) (hs : Filled full st h lost bs) :
    (∀ st', (grow alloc st h).1 = some st' → st'.count = st.count ∧
        Filled full st' (grow alloc st h).2 lost bs) ∧
      ((grow alloc st h).1 = none → Filled full st (grow alloc st h).2 lost bs) := by
  unfold grow
  split_ifs with hcap
  · cases ha : alloc h.requests with
    | false =>
      refine ⟨fun st' hst => (by cases hst),fun _ => ?_⟩
      exact ⟨hs.seated,hs.whole,(hs.owns.refused .commands).2⟩
    | true =>
      refine ⟨fun st' hst => ?_,fun hst => (by cases hst)⟩
      obtain rfl := Option.some.inj hst
      have hslots : ∀ i < st.count, (if st.capacity ≤ i ∧ i < st.capacity*2 then Slot.cleared
          else st.slots i) = st.slots i := fun i hi => if_neg (by omega)
      refine ⟨rfl,?_,?_,?_⟩
      · intro i hi
        dsimp only
        rw [hslots i hi]
        exact hs.seated i hi
      · intro hf i hi
        dsimp only
        rw [hslots i hi]
        exact hs.whole hf i hi
      · dsimp only
        rw [ownedBelow_congr hslots]
        refine Heap.Owns.free (b := (st.commands,Object.commands))
          ((hs.owns.granted .commands).2.congr ?_)
        abel
  · exact ⟨fun st' hst => Option.some.inj hst ▸ ⟨rfl,hs⟩,fun hst => (by cases hst)⟩

theorem grow_some {alloc : ℕ → Bool} (hfull : ∀ n, alloc n = true) (st : Stored)
    (h : Heap Object) : (grow alloc st h).1 ≠ none := by
  unfold grow
  split_ifs
  · simp [hfull,Heap.request]
  · simp

/-- The element at `cmd_count`, with what its tokens left. -/
structure Written (full : Prop) (r : Reading) (st : Stored) (h : Heap Object) (lost bs : Blocks) :
    Prop where
  below : ∀ i < st.count, (st.slots i).Seated
  belowWhole : full → ∀ i < st.count, (st.slots i).Whole
  vector : ∃ v, st.slot.argv = some v
  room : st.slot.entries.length < maxTokens
  slotWhole : full → st.slot.Whole
  command : full → st.slot.command = Command.fresh.extend r
  owns : h.Owns ({(st.pipeline,Object.pipeline)} + {(st.commands,Object.commands)} +
    (st.slot.blocks + ownedBelow st.slots st.count) + (lost + bs))

theorem copies_texts (cs : List (Option Copy)) : (copies cs).map Prod.snd =
    (((cs.map (·.map Prod.snd)).filterMap id : List Text) : Multiset Text).map .copy := by
  induction cs with
  | nil => rfl
  | cons c cs ih =>
    cases c with
    | none => exact ih
    | some c =>
      rw [copies_cons_some,Multiset.map_add,ih]
      rfl

/-- The copies of an element hold its words. -/
theorem copies_command (s : Slot) : s.copies.map Prod.snd =
    ((s.command.argv.filterMap id : List Text) + filesOf s.command : Multiset Text).map .copy := by
  have hcons : ∀ (o : Option Text) (os : List (Option Text)),
      (((o :: os).filterMap id : List Text) : Multiset Text) =
        held o + (os.filterMap id : List Text) := by
    intro o os
    cases o <;> rfl
  have hfiles : (([s.inputFile,s.outputFile,s.errorFile].map (·.map Prod.snd)).filterMap id :
      List Text) = filesOf s.command := by
    simp only [List.map_cons,List.map_nil,hcons,filesOf,Slot.command,List.filterMap_nil,
      Multiset.coe_nil,add_zero]
  rw [Slot.copies,Multiset.map_add,copies_texts,copies_texts,Slot.files,hfiles,Multiset.map_add]
  rfl

theorem tokens_written {alloc : ℕ → Bool} (hfull : full → ∀ n, alloc n = true) (trimmed : Text)
    (hroom : (reading trimmed).arguments.length < maxTokens) (hs : Filled full st h lost bs)
    (hl : Lost full texts lost) {out : Bool × Slot × Heap Object}
    (hout : parseTokens alloc st.commands h.requests (trimmed.length+1) trimmed
      (.fresh h.requests) (h.request .argv true).2 = out) :
    out.1 = (reading trimmed).lacking.isSome ∧
      ∃ lost, Lost full (texts + overwritten (reading trimmed).files) lost ∧
        Written full (reading trimmed) (st.write out.2.1) out.2.2 lost bs := by
  let others : Blocks := {(st.pipeline,Object.pipeline)} + {(st.commands,Object.commands)} +
    {(h.requests,Object.argv)} + ownedBelow st.slots st.count + (lost + bs)
  have ho : (h.request .argv true).2.Owns ((Slot.fresh h.requests).copies + others) := by
    refine (hs.owns.granted .argv).2.congr ?_
    have hnone : (Slot.fresh h.requests).copies = 0 := rfl
    rw [hnone]
    simp only [others]
    abel
  have hread : TokensRead full (reading trimmed) (.fresh h.requests) out := by
    rw [← hout]
    exact parseTokens_read hfull _ _ (reads_reading trimmed) (Nat.lt_succ_self _) _ _
  have hpaid : TokensPaid full (reading trimmed) (.fresh h.requests) others out := by
    rw [← hout]
    exact parseTokens_paid hfull (reads_reading trimmed) (Nat.lt_succ_self _) (by simp [others])
      (by simp [others]) (by simpa [Slot.fresh] using hroom) ho
  obtain ⟨lost',honly,ho',htexts⟩ := hpaid
  have hbelow : ∀ i < st.count, (st.write out.2.1).slots i = st.slots i := fun i hi =>
    update_below hi _
  have hvector : out.2.1.argv = some h.requests := hread.argv
  refine ⟨hread.lacks,lost + lost',hl.add ⟨honly,fun hf => ?_⟩,?_⟩
  · have hwords := htexts hf
    rw [Multiset.map_add,copies_command,hread.command hf,Slot.command_fresh,
      ← overwritten_words,Multiset.map_add _ (_ + _)] at hwords
    exact add_left_cancel (hwords.trans (zero_add _))
  · refine ⟨fun i hi => ?_,fun hf i hi => ?_,⟨h.requests,?_⟩,?_,fun hf => ?_,fun hf => ?_,?_⟩
    · rw [hbelow i hi]
      exact hs.seated i hi
    · rw [hbelow i hi]
      exact hs.whole hf i hi
    · rw [Stored.write_slot,hvector]
    · rw [Stored.write_slot,hread.argc]
      simpa [Slot.fresh] using hroom
    · rw [Stored.write_slot]
      exact hread.whole hf (by simp [Slot.Whole,Slot.fresh])
    · rw [Stored.write_slot,hread.command hf,Slot.command_fresh]
    · rw [Stored.write_slot,Stored.write_count,ownedBelow_congr hbelow]
      refine ho'.congr ?_
      have hpipe : (st.write out.2.1).pipeline = st.pipeline := rfl
      have harray : (st.write out.2.1).commands = st.commands := rfl
      rw [Slot.blocks,vector_some hvector,hpipe,harray]
      simp only [others]
      abel

theorem Written.seated {r : Reading} (hw : Written full r st h lost bs) :
    ∀ i < st.count+1, (st.slots i).Seated := by
  intro i hi
  rcases Nat.lt_succ_iff_lt_or_eq.mp hi with hi | rfl
  · exact hw.below i hi
  · obtain ⟨v,hv⟩ := hw.vector
    exact ⟨Option.ne_none_iff_exists'.mpr ⟨v,hv⟩,hw.room⟩

theorem Written.whole {r : Reading} (hw : Written full r st h lost bs) (hf : full) :
    ∀ i < st.count+1, (st.slots i).Whole := by
  intro i hi
  rcases Nat.lt_succ_iff_lt_or_eq.mp hi with hi | rfl
  · exact hw.belowWhole hf i hi
  · exact hw.slotWhole hf

/-- An element whose segment ends the parse is given back with the others. -/
theorem Written.discard {r : Reading} (hw : Written full r st h lost bs)
    (hl : Lost full texts lost) :
    Settled full texts bs (none,discard st (st.count+1) h) :=
  discard_lost hw.seated hw.whole hl hw.owns

theorem closeCommand_settled {r : Reading} {rest : List Text} (hlacks : r.lacking = none)
    (hw : Written full r st h lost bs) (hl : Lost full (texts + overwritten r.files) lost) :
    Settled full (texts + leakOf r rest) bs (closeCommand rest st h) := by
  obtain ⟨v,hv⟩ := hw.vector
  have hargs : full → (st.slot.entries.length = 0 ↔ r.arguments = []) := by
    intro hf
    rw [← Slot.command_argc,hw.command hf,fresh_extend_argv,List.length_map,List.length_eq_zero_iff]
  have hfiles : full → st.slot.redirected = true → r.files ≠ [] := by
    intro hf hd hnil
    rw [← Slot.command_redirected,hw.command hf,Command.extend,hnil] at hd
    cases hd
  unfold closeCommand
  split_ifs with hargc hdefer
  · -- the element's copies are given up where they are
    refine ⟨st.slot.copies + lost,⟨?_,fun hf => ?_⟩,hw.below,hw.belowWhole,?_⟩
    · exact ((onlyCopies_copies _).add (onlyCopies_copies _)).add hl.only
    · have hnil := (hargs hf).mp hargc
      have hgoes : r.GoesOn rest := ⟨hlacks,.inr ⟨hdefer.1,hfiles hf hdefer.2⟩⟩
      have hwords := overwritten_words r
      rw [Multiset.map_add,hl.texts hf,copies_command,hw.command hf,← Multiset.map_add,leakOf,
        if_pos ⟨hnil,hgoes⟩]
      have hall : wordsOf r = (r.files.map Prod.snd : List Text) := by rw [wordsOf,hnil]; rfl
      rw [hall] at hwords
      rw [← hwords]
      congr 1
      abel
    · rw [hv]
      refine Heap.Owns.free (b := (v,Object.argv)) (hw.owns.congr ?_)
      rw [Slot.blocks,vector_some hv]
      abel
  · refine hw.discard (hl.congr fun hf => ?_)
    have hno : ¬(r.arguments = [] ∧ r.GoesOn rest) := by
      rintro ⟨hnil,_,hgo⟩
      rcases hgo with hgo | ⟨hrest,hgo⟩
      · exact hgo hnil
      · refine hdefer ⟨hrest,?_⟩
        rw [← Slot.command_redirected,hw.command hf]
        exact extend_redirected _ hgo
    rw [leakOf,if_neg hno]
  · refine ⟨lost,hl.congr fun hf => ?_,?_,?_,?_⟩
    · have hno : ¬(r.arguments = [] ∧ r.GoesOn rest) := fun h => hargc ((hargs hf).mpr h.1)
      rw [leakOf,if_neg hno]
    · exact hw.seated
    · exact hw.whole
    · have hcommands := hw.owns.touch (b := (st.commands,Object.commands)) (by simp)
      have hvector := touchEntry_owned (v := v) (by simp [Slot.blocks,vector_some hv]) hw.room
        hw.owns
      simp only [touchVector,hcommands,hv,hvector]
      exact hw.owns

theorem finishLine_settled (hs : Filled full st h lost bs) (hl : Lost full texts lost) :
    Settled full texts bs (finishLine st h) := by
  unfold finishLine
  split_ifs with hzero
  · have hdiscard := hs.discard hl
    rwa [hzero] at hdiscard
  · exact hs.discard hl
  · exact ⟨lost,hl,hs⟩

variable {alloc : ℕ → Bool} (hfull : full → ∀ n, alloc n = true)
include hfull

theorem fillCommand_settled {trimmed : Text} (rest : List Text)
    (hroom : (reading trimmed).arguments.length < maxTokens) (hs : Filled full st h lost bs)
    (hl : Lost full texts lost) :
    Settled full (texts + leakOf (reading trimmed) rest) bs
      (fillCommand alloc trimmed rest st h) := by
  have htouch := hs.owns.touch (b := (st.commands,Object.commands)) (by simp)
  simp only at htouch
  unfold fillCommand
  rw [htouch]
  cases ha : alloc h.requests with
  | false =>
    have hbelow : ∀ i < st.count, (st.write .cleared).slots i = st.slots i := fun i hi =>
      update_below hi _
    have hcleared : Filled full (st.write .cleared) (h.request .argv false).2 lost bs := by
      refine ⟨fun i hi => ?_,fun hf i hi => ?_,?_⟩
      · rw [hbelow i hi]
        exact hs.seated i hi
      · rw [hbelow i hi]
        exact hs.whole hf i hi
      · rw [Stored.write_count,ownedBelow_congr hbelow]
        exact (hs.owns.refused .argv).2
    exact hcleared.discard (hl.congr fun hf => by rw [hfull hf] at ha; cases ha)
  | true =>
    obtain ⟨hlacks,lost',hl',hw⟩ := tokens_written hfull trimmed hroom hs hl rfl
    simp only [Heap.request,if_true] at hlacks hw ⊢
    split
    next s h' hout =>
      rw [hout] at hlacks hw
      refine hw.discard (hl'.congr fun _ => ?_)
      have hno : ¬((reading trimmed).arguments = [] ∧ (reading trimmed).GoesOn rest) := by
        rintro ⟨_,hnone,_⟩
        rw [hnone] at hlacks
        cases hlacks
      rw [leakOf,if_neg hno]
    next s h' hout =>
      rw [hout] at hlacks hw
      have hnone : (reading trimmed).lacking = none := by simpa using hlacks.symm
      exact closeCommand_settled hnone hw hl'

theorem parseSegment_settled {segment : Text} (rest : List Text)
    (hroom : (segmentReading segment).arguments.length < maxTokens)
    (hs : Filled full st h lost bs) (hl : Lost full texts lost) :
    Settled full (texts + leakOf (segmentReading segment) rest) bs
      (parseSegment alloc segment rest st h) := by
  unfold parseSegment
  split_ifs with hblank
  · refine hs.discard (hl.congr fun _ => ?_)
    rw [segmentReading_blank hblank]
    simp [leakOf,Reading.empty,overwritten]
  · obtain ⟨hsome,hnone⟩ := grow_filled alloc hs
    split
    next h' hg =>
      rw [hg] at hnone
      refine (hnone rfl).discard (hl.congr fun hf => ?_)
      have hgrow := grow_some (hfull hf) st h
      rw [hg] at hgrow
      exact absurd rfl hgrow
    next st' h' hg =>
      rw [hg] at hsome
      exact fillCommand_settled hfull rest hroom (hsome st' rfl).2 hl

end Segments

section Lines
variable {full : Prop} {texts : Multiset Text} {st : Stored} {h : Heap Object} {lost bs : Blocks}
variable {alloc : ℕ → Bool}

theorem parseSegment_goes {segment : Text} {rest : List Text} {st' : Stored}
    (hp : (parseSegment alloc segment rest st h).1 = some st') :
    (segmentReading segment).GoesOn rest := by
  have href := (@parseSegment_refines alloc h.requests segment rest st h .start rfl).1
  rw [hp] at href
  exact Parser.parseSegment_goesOn href

theorem parseSegment_ends (hfull : ∀ n, alloc n = true) {segment : Text} {rest : List Text}
    (hp : (parseSegment alloc segment rest st h).1 = none) :
    ¬(segmentReading segment).GoesOn rest := by
  intro hgo
  have href := (@parseSegment_refines alloc h.requests segment rest st h .start rfl).1
  obtain ⟨b,hb,_⟩ := parseSegment_full (fun n => hfull (h.requests + n)) hgo st.building .start
  rw [hp,hb] at href
  cases href

theorem parseSegments_settled (hfull : full → ∀ n, alloc n = true) {segs : List Text}
    (hterm : Terminated segs) (hs : Filled full st h lost bs) (hl : Lost full texts lost) :
    Settled full (texts + leaks segs) bs (parseSegments alloc segs st h) := by
  induction segs generalizing texts st h lost with
  | nil => exact finishLine_settled hs (hl.congr fun _ => (add_zero _).symm)
  | cons segment rest ih =>
    have hseg := parseSegment_settled hfull rest hterm.1 hs hl
    unfold parseSegments
    cases hp : parseSegment alloc segment rest st h with
    | mk o h' =>
      rw [hp] at hseg
      cases o with
      | none =>
        obtain ⟨lost',hl',ho⟩ := hseg
        refine ⟨lost',hl'.congr fun hf => ?_,ho⟩
        rw [leaks,if_neg (parseSegment_ends (hfull hf) (by rw [hp])),List.append_nil]
      | some st' =>
        obtain ⟨lost',hl',hs'⟩ := hseg
        have hgoes : (segmentReading segment).GoesOn rest := parseSegment_goes (by rw [hp])
        have hrest := ih (hterm.2 hgoes) hs' hl'
        rwa [add_assoc,Multiset.coe_add,← leaks_goes hgoes] at hrest

theorem parseLine_settled (hfull : full → ∀ n, alloc n = true) {line : Text}
    (hterm : Terminated (segments line)) (ho : h.Owns bs) :
    Settled full (leaks (segments line)) bs (parseLine alloc line h) := by
  have hnone : Lost full (leaks (segments line)) 0 → ∀ {h' : Heap Object}, h'.Owns bs →
      Settled full (leaks (segments line)) bs (none,h') := fun hl h' ho' =>
    ⟨0,hl,ho'.congr (zero_add bs).symm⟩
  have hlost : ¬full → Lost full (leaks (segments line)) 0 := fun hf =>
    ⟨onlyCopies_zero,fun h => absurd h hf⟩
  unfold parseLine
  split_ifs with hblank
  · refine hnone (Lost.zero.congr fun _ => ?_) ho
    rw [segments_blank hblank,leaks_empty]
    rfl
  · cases ha : alloc h.requests with
    | false =>
      exact hnone (hlost fun hf => by rw [hfull hf] at ha; cases ha) (ho.refused .pipeline).2
    | true =>
      have ho₁ := (ho.granted .pipeline).2
      simp only [Heap.request,if_true] at ho₁ ⊢
      cases hb : alloc (h.requests+1) with
      | false =>
        exact hnone (hlost fun hf => by rw [hfull hf] at hb; cases hb)
          ((ho₁.refused .commands).2.free)
      | true =>
        have ho₂ := (ho₁.granted .commands).2
        have hfilled : Filled full (.start h.requests (h.requests+1)) _ 0 bs :=
          ⟨fun i hi => absurd hi (Nat.not_lt_zero i),fun _ i hi => absurd hi (Nat.not_lt_zero i),
            ho₂.congr (by simp only [Stored.start,ownedBelow]; abel)⟩
        have hsegs := parseSegments_settled hfull hterm hfilled Lost.zero
        rwa [zero_add] at hsegs

end Lines

end UnixShell.Parser.Storage
