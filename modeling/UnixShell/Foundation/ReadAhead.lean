import UnixShell.Foundation.Lines
import Mathlib.Tactic.Common

/-! # Reading ahead of a descriptor

A stream fills its buffer from a descriptor, as much at a time as a read happens to deliver,
and hands out what is in the buffer. The descriptor's offset may be moved by others in the
meantime. The reader gets what is in the buffer and then what the descriptor comes to next;
this is the text behind what it got before exactly when the offset stands where the last
filling left it.
-/
namespace UnixShell.Foundation

variable {α : Type*}

/-- The buffer, the place in the text up to which it has been filled, and the descriptor's. -/
structure ReadAhead (α : Type*) where
  buffer : List α
  filled : ℕ
  offset : ℕ
  deriving DecidableEq, Repr

namespace ReadAhead

def start : ReadAhead α := ⟨[],0,0⟩

variable (text : List α)

/-- What of the text the reader has not got. -/
def unread (s : ReadAhead α) : List α := s.buffer ++ text.drop s.filled

/-- What the reader comes to get. -/
def coming (s : ReadAhead α) : List α := s.buffer ++ text.drop s.offset

/-- The descriptor goes on where the buffer was filled to. -/
def Settled (s : ReadAhead α) : Prop := text.drop s.offset = text.drop s.filled

instance [DecidableEq α] (s : ReadAhead α) : Decidable (s.Settled text) :=
  inferInstanceAs (Decidable (_ = _))

/-- The descriptor is moved back to where the reader is. -/
def rewind (s : ReadAhead α) : ReadAhead α :=
  if s.buffer.length ≤ s.offset then {s with offset := s.offset - s.buffer.length} else s

variable (delivers : ℕ → ℕ)

/-- One element, with a read where the buffer is empty; a read at an offset delivers at most
one more than `delivers` says. -/
def next (s : ReadAhead α) : Option (α × ReadAhead α) :=
  match s.buffer with
  | x :: buffer => some (x,{s with buffer := buffer})
  | [] =>
    match (text.drop s.offset).take (delivers s.offset + 1) with
    | x :: buffer => some (x,⟨buffer,s.offset + (buffer.length+1),s.offset + (buffer.length+1)⟩)
    | [] => none

section Next
variable {text : List α} {delivers : ℕ → ℕ} {s s' : ReadAhead α} {x : α}

theorem next_none (h : s.next text delivers = none) : s.coming text = [] := by
  unfold next at h
  split at h
  · cases h
  next hbuffer =>
    split at h
    · cases h
    next htake =>
      rw [List.take_eq_nil_iff] at htake
      simp only [coming,hbuffer,List.nil_append]
      exact htake.resolve_left (Nat.succ_ne_zero _)

/-- An element comes from the buffer, or the buffer has been filled for it. -/
theorem next_some (h : s.next text delivers = some (x,s')) :
    s.coming text = x :: s'.coming text ∧
      (s.buffer = x :: s'.buffer ∧ s'.filled = s.filled ∧ s'.offset = s.offset ∨
        s.buffer = [] ∧ s'.filled = s'.offset) := by
  unfold next at h
  split at h
  next y buffer hbuffer =>
    cases h
    exact ⟨by simp [coming,hbuffer],.inl ⟨hbuffer,rfl,rfl⟩⟩
  next hbuffer =>
    split at h
    next x buffer htake =>
      cases h
      refine ⟨?_,.inr ⟨hbuffer,rfl⟩⟩
      have hlen := congrArg List.length htake
      have hdrop : text.drop s.offset =
          (x :: buffer) ++ text.drop (s.offset + (buffer.length+1)) := by
        conv_lhs => rw [← List.take_append_drop (delivers s.offset + 1) (text.drop s.offset),htake]
        rw [List.length_take,List.length_cons] at hlen
        rw [List.drop_drop]
        by_cases hshort : delivers s.offset + 1 ≤ (text.drop s.offset).length
        · rw [Nat.min_eq_left hshort] at hlen
          rw [hlen]
        · -- the read has come to the end of the text
          rw [Nat.min_eq_right (Nat.le_of_not_le hshort),List.length_drop] at hlen
          rw [List.drop_eq_nil_of_le (by rw [List.length_drop] at hshort; omega),
            List.drop_eq_nil_of_le (by omega)]
      simp only [coming,hbuffer,List.nil_append]
      exact hdrop
    · cases h

end Next

section Parts
variable {text line rest xs ys p q : List α} {mark : α}

/-- A beginning of a marked line without the mark is a beginning of the line. -/
theorem exists_tail (hmark : mark ∉ xs) (h : xs ++ ys = line ++ mark :: rest) :
    ∃ tail, line = xs ++ tail ∧ ys = tail ++ mark :: rest := by
  rcases List.append_eq_append_iff.mp h with ⟨t,ht,ht'⟩ | ⟨t,ht,ht'⟩
  · exact ⟨t,ht,ht'⟩
  · cases t with
    | nil => exact ⟨[],by rw [ht,List.append_nil,List.append_nil],ht'.symm⟩
    | cons y t =>
      obtain ⟨rfl,_⟩ := List.cons.inj ht'
      rw [ht] at hmark
      simp at hmark

/-- In front of one place of a text stands one element. -/
theorem getLast_of_suffixes (hp : p ++ rest <:+ text) (hq : q ++ rest <:+ text)
    (hne : p ≠ []) (hne' : q ≠ []) : p.getLast hne = q.getLast hne' := by
  rcases List.suffix_or_suffix_of_suffix hp hq with h | h
  · exact (List.suffix_append_self_iff.mp h).getLast hne
  · exact ((List.suffix_append_self_iff.mp h).getLast hne').symm

end Parts

variable [DecidableEq α] (mark : α)

/-- At most `n` elements, and none behind the first mark. -/
def nextLine : ℕ → ReadAhead α → List α × ReadAhead α
  | 0, s => ([],s)
  | n+1, s =>
    match s.next text delivers with
    | none => ([],s)
    | some (x,s) =>
      if x = mark then ([x],s) else (x :: (nextLine n s).1,(nextLine n s).2)

/-- The buffer has all that the next line takes. -/
def Holds (n : ℕ) (s : ReadAhead α) : Prop := mark ∈ s.buffer.take n ∨ n ≤ s.buffer.length

instance (n : ℕ) (s : ReadAhead α) : Decidable (s.Holds mark n) :=
  inferInstanceAs (Decidable (_ ∨ _))

section Lines
variable {text : List α} {delivers : ℕ → ℕ} {mark : α} {s : ReadAhead α}
variable {line rest : List α} {n : ℕ}

/-- A line is what comes next, however the reads cut it. -/
theorem nextLine_coming (text : List α) (delivers : ℕ → ℕ) (mark : α) (n : ℕ) (s : ReadAhead α) :
    (s.nextLine text delivers mark n).1 = (takeLine mark n (s.coming text)).1 ∧
      (s.nextLine text delivers mark n).2.coming text = (takeLine mark n (s.coming text)).2 := by
  induction n generalizing s with
  | zero => exact ⟨rfl,rfl⟩
  | succ n ih =>
    rw [nextLine]
    split
    next h =>
      rw [next_none h]
      exact ⟨rfl,rfl⟩
    next x s' h =>
      obtain ⟨hcoming,_⟩ := next_some h
      obtain ⟨hline,hrest⟩ := ih s'
      rw [hcoming,takeLine]
      split_ifs
      · exact ⟨rfl,rfl⟩
      · exact ⟨congrArg (x :: ·) hline,hrest⟩

/-- A line is all from the buffer, or the buffer has been filled for it. -/
theorem nextLine_buffer (text : List α) (delivers : ℕ → ℕ) (mark : α) (n : ℕ) (s : ReadAhead α) :
    (s.buffer = (s.nextLine text delivers mark n).1 ++ (s.nextLine text delivers mark n).2.buffer ∧
        (s.nextLine text delivers mark n).2.filled = s.filled ∧
        (s.nextLine text delivers mark n).2.offset = s.offset) ∨
      (s.buffer.length < (s.nextLine text delivers mark n).1.length ∧
        (s.nextLine text delivers mark n).2.filled =
          (s.nextLine text delivers mark n).2.offset) := by
  induction n generalizing s with
  | zero => exact .inl ⟨rfl,rfl,rfl⟩
  | succ n ih =>
    rw [nextLine]
    split
    next h => exact .inl ⟨rfl,rfl,rfl⟩
    next x s' h =>
      obtain ⟨_,⟨hbuffer,hfilled,hoffset⟩ | ⟨hbuffer,hfilled⟩⟩ := next_some h
      · split_ifs
        · exact .inl ⟨hbuffer,hfilled,hoffset⟩
        · rcases ih s' with ⟨htaken,hfilled',hoffset'⟩ | ⟨hlen,hfilled'⟩
          · refine .inl ⟨?_,hfilled'.trans hfilled,hoffset'.trans hoffset⟩
            rw [hbuffer,List.cons_append,← htaken]
          · refine .inr ⟨?_,hfilled'⟩
            rw [hbuffer]
            exact Nat.succ_lt_succ hlen
      · split_ifs
        · exact .inr ⟨by simp [hbuffer],hfilled⟩
        · refine .inr ⟨by simp [hbuffer],?_⟩
          rcases ih s' with ⟨_,hfilled',hoffset'⟩ | ⟨_,hfilled'⟩
          · rw [hfilled',hoffset',hfilled]
          · exact hfilled'

/-- Where the descriptor goes on behind the buffer, or the buffer has the line, the reader gets
its text line by line. -/
theorem nextLine_unread (h : s.Settled text ∨ s.Holds mark n) (delivers : ℕ → ℕ) :
    (s.nextLine text delivers mark n).1 = (takeLine mark n (s.unread text)).1 ∧
      (s.nextLine text delivers mark n).2.unread text = (takeLine mark n (s.unread text)).2 := by
  obtain ⟨hline,hrest⟩ := nextLine_coming text delivers mark n s
  have hbuffer := nextLine_buffer text delivers mark n s
  generalize s.nextLine text delivers mark n = r at hline hrest hbuffer ⊢
  rcases h with h | h
  · have hsame : s.coming text = s.unread text := congrArg (s.buffer ++ ·) h
    have hsame' : r.2.coming text = r.2.unread text := by
      rw [coming,unread]
      rcases hbuffer with ⟨_,hfilled,hoffset⟩ | ⟨_,hfilled⟩
      · rw [hfilled,hoffset,h]
      · rw [hfilled]
    rw [← hsame,← hsame']
    exact ⟨hline,hrest⟩
  · have htake := fun ys => takeLine_of_holds h ys
    rw [coming,coming,htake] at hrest
    rw [coming,htake] at hline
    rw [unread,unread,htake]
    refine ⟨hline,?_⟩
    rcases hbuffer with ⟨_,hfilled,hoffset⟩ | ⟨hlen,_⟩
    · rw [hoffset] at hrest
      rw [hfilled,List.append_cancel_right hrest]
    · -- more was taken than the buffer has, which has it all
      have hall := congrArg List.length (takeLine_append mark n s.buffer)
      rw [List.length_append,← hline] at hall
      omega

/-- A line that is read without a mark up to its end is read whole. -/
theorem takeWhile_line {xs ys : List α} (hxs : mark ∉ xs) (hys : mark ∉ ys) :
    (xs ++ (ys ++ [mark])).takeWhile (· ≠ mark) = xs ++ ys := by
  have hwhole : ∀ c ∈ xs ++ ys, decide (c ≠ mark) = true := by
    intro c hc
    simp only [decide_eq_true_eq]
    rintro rfl
    exact (List.mem_append.mp hc).elim hxs hys
  rw [← List.append_assoc,List.takeWhile_append_of_pos hwhole]
  simp

/-- A reader that got a line of its text, and has what follows it before it, has not been led
astray. -/
theorem settled_of_line (delivers : ℕ → ℕ) (hunread : s.unread text = line ++ mark :: rest)
    (hline : (s.nextLine text delivers mark n).1.takeWhile (· ≠ mark) = line)
    (hrest : (s.nextLine text delivers mark n).2.unread text = rest) :
    s.Settled text ∨ s.Holds mark n := by
  obtain ⟨htaken,hcoming⟩ := nextLine_coming text delivers mark n s
  have hbuffer := nextLine_buffer text delivers mark n s
  generalize s.nextLine text delivers mark n = r at hline hrest htaken hcoming hbuffer
  by_contra hn
  obtain ⟨hsettled,hholds⟩ := not_or.mp hn
  obtain ⟨hfree,hroom⟩ := not_or.mp hholds
  have hroom : s.buffer.length ≤ n := Nat.le_of_not_le hroom
  rw [List.take_of_length_le hroom] at hfree
  -- the buffer is a beginning of the line, and the text goes on with the end of it
  obtain ⟨tail,htail,hfilled⟩ := exists_tail hfree hunread
  have htake := takeLine_append_of_not_mem hfree hroom (text.drop s.offset)
  rw [coming,htake] at htaken
  rw [coming,coming,htake] at hcoming
  have hall := takeLine_append mark (n-s.buffer.length) (text.drop s.offset)
  have hlast := takeLine_dropLast mark (n-s.buffer.length) (text.drop s.offset)
  generalize takeLine mark (n-s.buffer.length) (text.drop s.offset) = p at htaken hcoming hall hlast
  obtain ⟨p,behind⟩ := p
  dsimp only at htaken hcoming hall hlast
  rcases hbuffer with ⟨hshort,hplace,_⟩ | ⟨hlen,hplace⟩
  · -- nothing was read, and the rest of the line is still ahead
    have hnone : r.2.buffer = [] := by
      have hlens := congrArg List.length hshort
      simp only [htaken,List.length_append] at hlens
      exact List.eq_nil_of_length_eq_zero (by omega)
    rw [unread,hnone,hplace,hfilled] at hrest
    have hlens := congrArg List.length hrest
    simp only [List.nil_append,List.length_append,List.length_cons] at hlens
    omega
  · have hbehind : behind = rest := by
      rw [← hcoming,← hrest,unread,hplace]
    have hne : p ≠ [] := by
      rintro rfl
      rw [htaken,List.append_nil] at hlen
      exact Nat.lt_irrefl _ hlen
    have hmarked : p.getLast hne = mark := by
      have hp : p ++ rest <:+ text := by
        rw [← hbehind,hall]
        exact List.drop_suffix s.offset text
      have hq : (tail ++ [mark]) ++ rest <:+ text := by
        rw [← List.append_cons,← hfilled]
        exact List.drop_suffix s.filled text
      exact (getLast_of_suffixes hp hq hne (by simp)).trans List.getLast_concat
    have hp : p = p.dropLast ++ [mark] := by
      rw [← hmarked,List.dropLast_append_getLast]
    have hsame : p.dropLast = tail := by
      rw [htaken,hp,takeWhile_line hfree hlast,htail] at hline
      exact List.append_cancel_left hline
    apply hsettled
    rw [Settled,← hall,hbehind,hfilled,hp,hsame,List.append_assoc]
    rfl

/-- A reader at the end of its text that gets nothing has not been led astray. -/
theorem settled_of_end (hunread : s.unread text = [])
    (hline : (s.nextLine text delivers mark (n+1)).1 = []) : s.Settled text := by
  have hcoming := takeLine_eq_nil ((nextLine_coming text delivers mark (n+1) s).1 ▸ hline)
  rw [Settled,(List.append_eq_nil_iff.mp hcoming).2,(List.append_eq_nil_iff.mp hunread).2]

end Lines

end ReadAhead

end UnixShell.Foundation
