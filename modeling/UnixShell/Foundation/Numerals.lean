import Mathlib.Algebra.Group.Int.Defs
import Mathlib.Algebra.Group.Nat.Defs
import Mathlib.Data.Int.Order.Basic
import Mathlib.Data.List.TakeWhile

/-! # Decimal numerals in strings

A numeral may have white space and a sign in front of its digits. The conversion to a long
stops at the first other character and saturates; the conversion from a long to an int
keeps the lower half of the bits.
-/
namespace UnixShell.Foundation

abbrev Numeral := List Char

/-- The white space of the C locale. -/
def whiteSpace (c : Char) : Bool := c == ' ' || (9 ≤ c.toNat && c.toNat ≤ 13)

/-- A sign in front of the digits, and what follows it. -/
def splitSign : Numeral → Bool × Numeral
  | '-' :: s => (true,s)
  | '+' :: s => (false,s)
  | s => (false,s)

def digitsValue (digits : Numeral) : ℕ := digits.foldl (fun n d => 10 * n + (d.toNat - 48)) 0

def signedValue (negative : Bool) (digits : Numeral) : ℤ :=
  if negative then -(digitsValue digits : ℤ) else digitsValue digits

def longMax : ℤ := 2 ^ 63 - 1
def longMin : ℤ := -2 ^ 63
def intMax : ℤ := 2 ^ 31 - 1

def saturate (n : ℤ) : ℤ := max longMin (min longMax n)

/-- The conversion of a long to an int. -/
def narrow (n : ℤ) : ℤ := n.bmod (2 ^ 32)

/-- `strtol` with base ten: the value, and the string behind the numeral. Without digits
there is no numeral. -/
def strtol (s : Numeral) : ℤ × Numeral :=
  let (negative,body) := splitSign (s.dropWhile whiteSpace)
  if body.takeWhile Char.isDigit = [] then (0,s)
  else (saturate (signedValue negative (body.takeWhile Char.isDigit)),body.dropWhile Char.isDigit)

def atoi (s : Numeral) : ℤ := narrow (strtol s).1

/-- The integer that a string is a numeral of. -/
def written (s : Numeral) : Option ℤ :=
  let (negative,body) := splitSign (s.dropWhile whiteSpace)
  if body ≠ [] ∧ body.all Char.isDigit = true then some (signedValue negative body) else none

section Conversion
variable {s : Numeral} {n : ℤ}

theorem saturate_pos : 0 < saturate n ↔ 0 < n := by
  simp only [saturate,longMin,longMax]
  omega

theorem saturate_of_le (h₀ : 0 < n) (h : n ≤ longMax) : saturate n = n := by
  simp only [saturate,longMin,longMax] at h ⊢
  omega

theorem narrow_le (n : ℤ) : narrow n ≤ intMax := by
  have hlt := Int.bmod_lt (x := n) (m := 2 ^ 32) (by decide)
  simp only [narrow,intMax]
  omega

theorem narrow_of_le (h₀ : 0 < n) (h : n ≤ intMax) : narrow n = n := by
  simp only [intMax] at h
  exact Int.bmod_eq_of_le (by omega) (by omega)

/-- The whole string is read where it is a numeral, and the value is kept within a long. -/
theorem strtol_of_written (h : written s = some n) : strtol s = (saturate n,[]) := by
  simp only [written] at h
  split at h
  · rename_i hbody
    obtain rfl := Option.some.inj h
    have hall := List.all_eq_true.mp hbody.2
    simp only [strtol,List.takeWhile_eq_self_iff.mpr hall,List.dropWhile_eq_nil_iff.mpr hall,
      if_neg hbody.1]
  · cases h

/-- Where it is none, digits are missing or something stands behind them. -/
theorem strtol_of_not_written (h : written s = none) :
    (strtol s).2 = s ∨ (strtol s).2 ≠ [] := by
  simp only [written] at h
  split at h
  · cases h
  · rename_i hbody
    simp only [strtol]
    split
    · exact Or.inl rfl
    · rename_i hdigits
      refine Or.inr ?_
      intro hrest
      refine hbody ⟨?_,List.all_eq_true.mpr (List.dropWhile_eq_nil_iff.mp hrest)⟩
      intro hnil
      rw [hnil] at hdigits
      exact hdigits rfl

end Conversion

end UnixShell.Foundation
