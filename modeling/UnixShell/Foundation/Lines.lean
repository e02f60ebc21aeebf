import Mathlib.Data.List.Basic

/-! # Reading a text by lines

A text is made of lines that end with a mark. A reader with a buffer takes no more of a
line than the buffer holds, and goes on from there.
-/
namespace UnixShell.Foundation

variable {α β : Type*} (mark : α)

/-- At most `n` elements, and nothing behind the first mark. -/
def takeLine [DecidableEq α] : ℕ → List α → List α × List α
  | 0, xs => ([],xs)
  | _ + 1, [] => ([],[])
  | n + 1, x :: xs =>
    if x = mark then ([x],xs) else (x :: (takeLine n xs).1,(takeLine n xs).2)

def joinLines (lines : List (List α)) : List α := lines.flatMap (· ++ [mark])

/-- Up to and including the first element with the property. -/
def upTo (p : β → Bool) : List β → List β
  | [] => []
  | x :: xs => if p x then [x] else x :: upTo p xs

section Lines
variable {mark : α} {line rest : List α} {lines : List (List α)} {n : ℕ}

theorem joinLines_cons (line : List α) (lines : List (List α)) :
    joinLines mark (line :: lines) = line ++ mark :: joinLines mark lines := by
  simp [joinLines]

/-- A line that fits is taken with its mark. -/
theorem takeLine_of_lt [DecidableEq α] (hmark : mark ∉ line) (hn : line.length < n)
    (rest : List α) :
    takeLine mark n (line ++ mark :: rest) = (line ++ [mark],rest) := by
  induction line generalizing n with
  | nil =>
    obtain ⟨n,rfl⟩ := Nat.exists_eq_succ_of_ne_zero (Nat.ne_zero_of_lt hn)
    simp [takeLine]
  | cons x line ih =>
    obtain ⟨n,rfl⟩ := Nat.exists_eq_succ_of_ne_zero (Nat.ne_zero_of_lt hn)
    rw [List.mem_cons,not_or] at hmark
    have hrec := ih hmark.2 (Nat.lt_of_succ_lt_succ hn)
    rw [List.cons_append,takeLine,if_neg (fun h => hmark.1 h.symm),hrec]
    rfl

/-- Of a line that does not fit its beginning is taken. -/
theorem takeLine_of_le [DecidableEq α] (hmark : mark ∉ line) (hn : n ≤ line.length)
    (rest : List α) :
    takeLine mark n (line ++ rest) = (line.take n,line.drop n ++ rest) := by
  induction line generalizing n with
  | nil =>
    obtain rfl : n = 0 := Nat.le_zero.mp hn
    rfl
  | cons x line ih =>
    cases n with
    | zero => rfl
    | succ n =>
      rw [List.mem_cons,not_or] at hmark
      have hrec := ih hmark.2 (Nat.le_of_succ_le_succ hn)
      rw [List.cons_append,takeLine,if_neg (fun h => hmark.1 h.symm),hrec]
      rfl

theorem takeLine_append [DecidableEq α] (mark : α) (n : ℕ) (xs : List α) :
    (takeLine mark n xs).1 ++ (takeLine mark n xs).2 = xs := by
  induction n generalizing xs with
  | zero => rfl
  | succ n ih =>
    cases xs with
    | nil => rfl
    | cons x xs =>
      rw [takeLine]
      split_ifs
      · rfl
      · exact congrArg (x :: ·) (ih xs)

/-- A mark is taken last. -/
theorem takeLine_dropLast [DecidableEq α] (mark : α) (n : ℕ) (xs : List α) :
    mark ∉ (takeLine mark n xs).1.dropLast := by
  induction n generalizing xs with
  | zero => exact List.not_mem_nil
  | succ n ih =>
    cases xs with
    | nil => exact List.not_mem_nil
    | cons x xs =>
      rw [takeLine]
      split_ifs with hx
      · exact List.not_mem_nil
      · intro hmem
        cases htaken : (takeLine mark n xs).1 with
        | nil => simp [htaken] at hmem
        | cons y ys =>
          rw [htaken,List.dropLast_cons_cons,List.mem_cons] at hmem
          rcases hmem with hmem | hmem
          · exact hx hmem.symm
          · exact ih xs (htaken ▸ hmem)

/-- What is taken whole of a text is taken alike of a longer one. -/
theorem takeLine_of_holds [DecidableEq α] {xs : List α} (h : mark ∈ xs.take n ∨ n ≤ xs.length)
    (ys : List α) : takeLine mark n (xs ++ ys) =
      ((takeLine mark n xs).1,(takeLine mark n xs).2 ++ ys) := by
  induction n generalizing xs with
  | zero => rfl
  | succ n ih =>
    cases xs with
    | nil => simp at h
    | cons x xs =>
      rw [List.cons_append,takeLine,takeLine]
      split_ifs with hx
      · rfl
      · have hrest : mark ∈ xs.take n ∨ n ≤ xs.length := by
          rw [List.take_succ_cons,List.mem_cons,List.length_cons,Nat.add_le_add_iff_right] at h
          exact h.imp_left fun h => h.resolve_left fun he => hx he.symm
        rw [ih hrest]

/-- In front of a text without the mark as much less is taken of what follows. -/
theorem takeLine_append_of_not_mem [DecidableEq α] {xs : List α} (hmark : mark ∉ xs)
    (hn : xs.length ≤ n) (ys : List α) : takeLine mark n (xs ++ ys) =
      (xs ++ (takeLine mark (n-xs.length) ys).1,(takeLine mark (n-xs.length) ys).2) := by
  induction xs generalizing n with
  | nil => rfl
  | cons x xs ih =>
    obtain ⟨n,rfl⟩ := Nat.exists_eq_succ_of_ne_zero (Nat.ne_zero_of_lt hn)
    rw [List.mem_cons,not_or] at hmark
    have hrec := ih hmark.2 (Nat.le_of_succ_le_succ hn)
    rw [List.cons_append,takeLine,if_neg (fun h => hmark.1 h.symm),hrec,List.length_cons,
      Nat.succ_eq_add_one,Nat.add_sub_add_right]
    rfl

theorem takeLine_eq_nil [DecidableEq α] {xs : List α} (h : (takeLine mark (n+1) xs).1 = []) :
    xs = [] := by
  cases xs with
  | nil => rfl
  | cons x xs =>
    rw [takeLine] at h
    split_ifs at h

end Lines

end UnixShell.Foundation
