import Mathlib.Data.List.TakeWhile

/-! # Words of a list

The maximal runs of a list's elements between separators. A scanner skips the separators
in front of a word, takes the word, and goes on behind it.
-/
namespace UnixShell.Foundation

variable {α : Type*} (p : α → Bool)

/-- The non-empty parts between the separators. -/
def words (xs : List α) : List (List α) := (xs.splitOnP p).filter (fun w => !w.isEmpty)

section Words
variable {p} {x : α} {xs ys w : List α}

@[simp] theorem words_nil : words p [] = [] := by
  simp [words,List.splitOnP_nil]

theorem words_append_separator (xs ys : List α) (hx : p x = true) :
    words p (xs ++ x :: ys) = words p xs ++ words p ys := by
  rw [words,List.splitOnP_append_cons xs ys hx,List.filter_append]
  rfl

theorem words_separator (ys : List α) (hx : p x = true) : words p (x :: ys) = words p ys := by
  simpa using words_append_separator [] ys hx

theorem words_dropWhile (xs : List α) : words p (xs.dropWhile p) = words p xs := by
  induction xs with
  | nil => rfl
  | cons x xs ih =>
    by_cases hx : p x = true
    · rw [List.dropWhile_cons_of_pos hx,words_separator xs hx,ih]
    · rw [List.dropWhile_cons_of_neg hx]

theorem words_separators (h : ∀ x ∈ xs, p x = true) : words p xs = [] := by
  rw [← words_dropWhile,List.dropWhile_eq_nil_iff.mpr h,words_nil]

theorem words_separators_append (h : ∀ x ∈ xs, p x = true) : words p (xs ++ ys) = words p ys := by
  rw [← words_dropWhile,List.dropWhile_append_of_pos h,words_dropWhile]

theorem words_append_separators (h : ∀ y ∈ ys, p y = true) : words p (xs ++ ys) = words p xs := by
  cases ys with
  | nil => rw [List.append_nil]
  | cons y ys =>
    have hy := h y List.mem_cons_self
    rw [words_append_separator xs ys hy,
      words_separators fun z hz => h z (List.mem_cons_of_mem y hz),List.append_nil]

theorem words_run (hw : ∀ x ∈ w, p x = false) (hne : w ≠ []) : words p w = [w] := by
  rw [words,List.splitOnP_eq_singleton hw]
  simp [hne]

/-- A word that ends where the list does or at a separator. -/
theorem words_append (hw : ∀ x ∈ w, p x = false) (hne : w ≠ [])
    (hys : ∀ y ∈ ys.head?, p y = true) : words p (w ++ ys) = w :: words p ys := by
  cases ys with
  | nil => rw [List.append_nil,words_run hw hne,words_nil]
  | cons y ys =>
    have hy : p y = true := hys y rfl
    rw [words_append_separator w ys hy,words_run hw hne,words_separator ys hy]
    rfl

theorem mem_run (xs : List α) : ∀ y ∈ xs.takeWhile (fun y => !p y), p y = false := by
  intro y hy
  simpa using List.mem_takeWhile_imp hy

theorem head_behind_run (xs : List α) :
    ∀ y ∈ (xs.dropWhile (fun y => !p y)).head?, p y = true := by
  intro y hy
  have hhead := List.head?_dropWhile_not (fun y => !p y) xs
  rw [Option.mem_def.mp hy] at hhead
  simpa using hhead

/-- One turn of a scanner that stands in front of a word. -/
theorem words_scan (hx : p x = false) (xs : List α) :
    words p (x :: xs) = (x :: xs).takeWhile (fun y => !p y) ::
      words p ((x :: xs).dropWhile (fun y => !p y)) := by
  have hsplit := List.takeWhile_append_dropWhile (p := fun y => !p y) (l := x :: xs)
  have happ := words_append (p := p) (mem_run (x :: xs)) (by simp [hx]) (head_behind_run (x :: xs))
  rwa [hsplit] at happ

/-- The first word of a list that does not start with a separator. -/
theorem exists_first_word (hx : p x = false) (xs : List α) : ∃ w ys, x :: xs = w ++ ys ∧
    (∀ y ∈ w, p y = false) ∧ (∀ y ∈ ys.head?, p y = true) ∧
    words p (x :: xs) = w :: words p ys :=
  ⟨_,_,List.takeWhile_append_dropWhile.symm,mem_run _,head_behind_run _,words_scan hx xs⟩

theorem words_ne_nil (hx : p x = false) (xs : List α) : words p (x :: xs) ≠ [] := by
  rw [words_scan hx]
  exact List.cons_ne_nil _ _

theorem flatten_splitOnP (xs : List α) :
    (xs.splitOnP p).flatten = xs.filter (fun x => !p x) := by
  induction xs with
  | nil => rfl
  | cons x xs ih =>
    rw [List.splitOnP_cons_eq_if_modifyHead]
    by_cases hx : p x = true
    · simp [hx,ih]
    · obtain ⟨part,parts,hparts⟩ := List.exists_cons_of_ne_nil (List.splitOnP_ne_nil p xs)
      rw [hparts] at ih ⊢
      simp only [List.flatten_cons] at ih
      simp [hx,← ih]

/-- The words hold every element but the separators. -/
theorem flatten_words (xs : List α) : (words p xs).flatten = xs.filter (fun x => !p x) := by
  rw [← flatten_splitOnP,words]
  induction xs.splitOnP p with
  | nil => rfl
  | cons part parts ih => cases part <;> simp [ih]

end Words

end UnixShell.Foundation
