import Mathlib.Data.Int.Order.Basic
import Mathlib.Data.List.Basic

/-! # Tilings of a line

Pieces of a given length are laid end to end. An entry has the label of its piece and the
place at which it ends. Text that is appended to a bounded buffer is cut at its end.
-/
namespace UnixShell.Foundation

variable {α : Type*}

/-- Every entry ends behind the one before it, by the length of its piece. -/
def Tiling : ℤ → List (α × ℤ) → List (α × ℤ) → Prop
  | _, [], [] => True
  | start, piece :: pieces, entry :: entries =>
    entry.1 = piece.1 ∧ start < entry.2 ∧ entry.2 - start = piece.2 ∧
      Tiling entry.2 pieces entries
  | _, _, _ => False

def tile : ℤ → List (α × ℤ) → List (α × ℤ)
  | _, [] => []
  | start, piece :: pieces => (piece.1,start + piece.2) :: tile (start + piece.2) pieces

/-- Where the last of the pieces ends. -/
def tileEnd : ℤ → List (α × ℤ) → ℤ
  | start, [] => start
  | start, piece :: pieces => tileEnd (start + piece.2) pieces

section Pieces
variable {start : ℤ} {pieces entries : List (α × ℤ)}

theorem tile_length (start : ℤ) (pieces : List (α × ℤ)) :
    (tile start pieces).length = pieces.length := by
  induction pieces generalizing start with
  | nil => rfl
  | cons piece pieces ih => rw [tile,List.length_cons,List.length_cons,ih]

theorem tile_labels (start : ℤ) (pieces : List (α × ℤ)) :
    (tile start pieces).map Prod.fst = pieces.map Prod.fst := by
  induction pieces generalizing start with
  | nil => rfl
  | cons piece pieces ih => rw [tile,List.map_cons,List.map_cons,ih]

theorem tile_concat (start : ℤ) (pieces : List (α × ℤ)) (piece : α × ℤ) :
    tile start (pieces ++ [piece]) =
      tile start pieces ++ [(piece.1,tileEnd start pieces + piece.2)] := by
  induction pieces generalizing start with
  | nil => rfl
  | cons first pieces ih => rw [List.cons_append,tile,tile,tileEnd,ih,List.cons_append]

theorem tileEnd_concat (start : ℤ) (pieces : List (α × ℤ)) (piece : α × ℤ) :
    tileEnd start (pieces ++ [piece]) = tileEnd start pieces + piece.2 := by
  induction pieces generalizing start with
  | nil => rfl
  | cons first pieces ih => rw [List.cons_append,tileEnd,tileEnd,ih]

theorem tiling_tile (start : ℤ) (h : ∀ piece ∈ pieces, 0 < piece.2) :
    Tiling start pieces (tile start pieces) := by
  induction pieces generalizing start with
  | nil => trivial
  | cons piece pieces ih =>
    obtain ⟨hpos,hrest⟩ := List.forall_mem_cons.mp h
    exact ⟨rfl,by omega,by omega,ih _ hrest⟩

/-- There is only one way to lay the pieces. -/
theorem Tiling.eq_tile (h : Tiling start pieces entries) : entries = tile start pieces := by
  induction pieces generalizing start entries with
  | nil =>
    cases entries with
    | nil => rfl
    | cons entry entries => cases h
  | cons piece pieces ih =>
    cases entries with
    | nil => cases h
    | cons entry entries =>
      obtain ⟨hlabel,_,hlen,hrest⟩ := h
      have hend : entry.2 = start + piece.2 := by omega
      rw [tile,ih hrest,← hend,← hlabel]

end Pieces

section Buffers

/-- What is cut off a first part does not come back. -/
theorem take_append_cut (n : ℕ) (first second : List α) :
    (first.take n ++ second).take n = (first ++ second).take n := by
  rcases Nat.le_total n first.length with hle | hle
  · have hlen : n ≤ (first.take n).length := Nat.le_of_eq (List.length_take_of_le hle).symm
    rw [List.take_append_of_le_length hlen,List.take_append_of_le_length hle,List.take_take,
      Nat.min_self]
  · rw [List.take_of_length_le hle]

/-- An entry is kept as long as there is room for it. -/
theorem take_concat (n : ℕ) (entries : List α) (entry : α) :
    (if (entries.take n).length < n then entries.take n ++ [entry] else entries.take n) =
      (entries ++ [entry]).take n := by
  by_cases hroom : (entries.take n).length < n
  · have hlen : entries.length < n := by
      rw [List.length_take] at hroom
      omega
    rw [if_pos hroom,List.take_of_length_le (Nat.le_of_lt hlen),List.take_of_length_le]
    rw [List.length_append]
    exact hlen
  · have hlen : n ≤ entries.length := by
      rw [List.length_take] at hroom
      omega
    rw [if_neg hroom,List.take_append_of_le_length hlen]

/-- Pieces that are appended one by one, each cut to what there is room for. -/
theorem foldl_append_cut {β : Type*} (n : ℕ) (piece : β → List α) (first : List α)
    (rest : List β) :
    rest.foldl (fun text b => (text ++ piece b).take n) (first.take n) =
      (first ++ rest.flatMap piece).take n := by
  induction rest generalizing first with
  | nil => rw [List.foldl_nil,List.flatMap_nil,List.append_nil]
  | cons b rest ih =>
    rw [List.foldl_cons,take_append_cut,ih,List.flatMap_cons,List.append_assoc]

theorem length_flatMap_ge {β : Type*} {piece : β → List α} {entries : List β} (n : ℕ)
    (h : ∀ b ∈ entries, n ≤ (piece b).length) :
    entries.length * n ≤ (entries.flatMap piece).length := by
  induction entries with
  | nil => simp
  | cons b entries ih =>
    obtain ⟨hfirst,hrest⟩ := List.forall_mem_cons.mp h
    have hih := ih hrest
    rw [List.flatMap_cons,List.length_append,List.length_cons,Nat.succ_mul]
    omega

end Buffers

end UnixShell.Foundation
