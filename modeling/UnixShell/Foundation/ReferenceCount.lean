import Mathlib.Data.Set.Card

/-! # Reference counts

An object, the number kept in it, and the parties that hold it. The number counts the
holders as long as each release takes one of them away, and the object goes with the last.
-/
namespace UnixShell.Foundation

variable {σ : Type*} {count : ℤ} {holders : Set σ} {destroyed : ℕ} {x y : σ}

/-- The number counts the holders, and the object was destroyed once if there are none. -/
structure Counted (count : ℤ) (holders : Set σ) (destroyed : ℕ) : Prop where
  finite : holders.Finite
  count_eq : count = holders.ncard
  destroyed_eq : destroyed = if count = 0 then 1 else 0

namespace Counted

theorem shared (h : x ≠ y) : Counted 2 {x,y} 0 :=
  ⟨Set.toFinite _,by rw [Set.ncard_pair h]; rfl,rfl⟩

theorem count_eq_zero_iff (h : Counted count holders destroyed) : count = 0 ↔ holders = ∅ := by
  rw [h.count_eq,Int.natCast_eq_zero,Set.ncard_eq_zero h.finite]

theorem count_pos (h : Counted count holders destroyed) (hx : x ∈ holders) : 0 < count := by
  rw [h.count_eq]
  exact_mod_cast (Set.ncard_pos h.finite).mpr ⟨x,hx⟩

/-- One holder lets go. -/
theorem release (h : Counted count holders destroyed) (hx : x ∈ holders) :
    Counted (count - 1) (holders \ {x}) (destroyed + if count - 1 = 0 then 1 else 0) := by
  have hpos := h.count_pos hx
  refine ⟨h.finite.subset Set.sdiff_subset,?_,?_⟩
  · have hcard := Set.ncard_sdiff_singleton_add_one hx h.finite
    have hc := h.count_eq
    omega
  · rw [h.destroyed_eq,if_neg hpos.ne',Nat.zero_add]

/-- The release that brings the number to zero is that of the only holder. -/
theorem last (h : Counted count holders destroyed) (hx : x ∈ holders) (hc : count - 1 = 0) :
    holders = {x} := by
  have hcard : holders.ncard = 1 := by
    have hcount := h.count_eq
    omega
  obtain ⟨y,hy⟩ := Set.ncard_eq_one.mp hcard
  rw [hy,Set.mem_singleton_iff] at hx
  rw [hy,hx]

end Counted

end UnixShell.Foundation
