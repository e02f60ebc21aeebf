import Mathlib.Data.List.Induction
import Mathlib.Order.Lattice

/-! # One pass that keeps the least element and the runner-up

The scan compares by an arbitrary decidable relation that reflects a linearly
ordered key. On elements with distinct keys it ends with the two least ones, and
with these the least element that is not the avoided one can be picked.
-/
namespace UnixShell.Foundation

variable {β κ : Type*}

/-- One step of the scan: a new least element demotes the old one to runner-up. -/
def keepTwo (lt : β → β → Prop) [DecidableRel lt] :
    Option β × Option β → β → Option β × Option β
  | (none,_), c => (some c,none)
  | (some b,alt), c =>
    if lt c b then (some c,some b)
    else match alt with
      | none => (some b,some c)
      | some a => if lt c a then (some b,some c) else (some b,some a)

def twoLeast (lt : β → β → Prop) [DecidableRel lt] (xs : List β) : Option β × Option β :=
  xs.foldl (keepTwo lt) (none,none)

/-- The pair names the least element and the least of the others, where they exist. -/
def IsTwoLeast [LinearOrder κ] (key : β → κ) (xs : List β) : Option β × Option β → Prop
  | (none,alt) => xs = [] ∧ alt = none
  | (some b,none) => xs = [b]
  | (some b,some a) => b ∈ xs ∧ a ∈ xs ∧ key b < key a ∧ ∀ x ∈ xs, x ≠ b → key a ≤ key x

/-- The runner-up is taken when the least element is to be avoided. -/
def pickAvoiding (avoid : β → Bool) : Option β × Option β → Option β
  | (some b,some a) => if avoid b then some a else some b
  | (best,_) => best

/-- The least element not avoided, or else the only element there is. -/
def IsPick [LinearOrder κ] (key : β → κ) (avoid : β → Bool) (xs : List β) : Option β → Prop
  | none => xs = []
  | some c => xs = [c] ∨ c ∈ xs ∧ avoid c = false ∧ ∀ x ∈ xs, avoid x = false → key c ≤ key x

/-- The pair names elements of the list, and a least one unless the list is empty. -/
structure Names (xs : List β) (s : Option β × Option β) : Prop where
  best_mem : ∀ b, s.1 = some b → b ∈ xs
  alt_mem : ∀ a, s.2 = some a → a ∈ xs
  best_eq_none : s.1 = none → xs = []

section Names
variable {lt : β → β → Prop} [DecidableRel lt] {xs : List β} {s : Option β × Option β}

theorem Names.keepTwo (h : Names xs s) (c : β) : Names (xs ++ [c]) (keepTwo lt s c) := by
  rcases s with ⟨best,alt⟩
  cases best with
  | none =>
    have hxs := h.best_eq_none rfl
    subst hxs
    constructor <;> simp [Foundation.keepTwo]
  | some b =>
    have hb := h.best_mem b rfl
    by_cases hcb : lt c b
    · simp only [Foundation.keepTwo,if_pos hcb]
      constructor <;> simp [hb]
    · simp only [Foundation.keepTwo,if_neg hcb]
      cases alt with
      | none => constructor <;> simp [hb]
      | some a =>
        have ha := h.alt_mem a rfl
        by_cases hca : lt c a
        · simp only [if_pos hca]
          constructor <;> simp [hb]
        · simp only [if_neg hca]
          constructor <;> simp [hb,ha]

/-- Nothing is asked of the relation here. -/
theorem twoLeast_names (xs : List β) : Names xs (twoLeast lt xs) := by
  induction xs using List.reverseRecOn with
  | nil => constructor <;> simp [twoLeast]
  | append_singleton xs c ih =>
    rw [twoLeast,List.foldl_append]
    exact ih.keepTwo c

theorem Names.pickAvoiding (h : Names xs s) (avoid : β → Bool) :
    (∀ b, pickAvoiding avoid s = some b → b ∈ xs) ∧
      (pickAvoiding avoid s = none → xs = []) := by
  rcases s with ⟨_ | b,_ | a⟩
  · exact ⟨h.best_mem,h.best_eq_none⟩
  · exact ⟨h.best_mem,h.best_eq_none⟩
  · exact ⟨h.best_mem,h.best_eq_none⟩
  · have hb := h.best_mem b rfl
    have ha := h.alt_mem a rfl
    simp only [Foundation.pickAvoiding]
    split <;> simp [hb,ha]

end Names

variable [LinearOrder κ] {lt : β → β → Prop} [DecidableRel lt] {key : β → κ}

theorem IsTwoLeast.best_mem {xs : List β} {b : β} {alt : Option β}
    (h : IsTwoLeast key xs (some b,alt)) : b ∈ xs := by
  cases alt with
  | none => simp [show xs = [b] from h]
  | some a => exact h.1

theorem IsTwoLeast.best_le {xs : List β} {b : β} {alt : Option β}
    (h : IsTwoLeast key xs (some b,alt)) : ∀ x ∈ xs, key b ≤ key x := by
  intro x hx
  cases alt with
  | none =>
    obtain rfl : xs = [b] := h
    rw [List.mem_singleton.mp hx]
  | some a =>
    by_cases he : x = b
    · rw [he]
    · exact h.2.2.1.le.trans (h.2.2.2 x hx he)

theorem IsTwoLeast.keepTwo (hlt : ∀ a b, lt a b ↔ key a < key b) {xs : List β}
    {s : Option β × Option β} (h : IsTwoLeast key xs s) {c : β}
    (hc : ∀ x ∈ xs, key x ≠ key c) : IsTwoLeast key (xs ++ [c]) (keepTwo lt s c) := by
  rcases s with ⟨best,alt⟩
  cases best with
  | none =>
    obtain ⟨rfl,_⟩ := h
    simp [Foundation.keepTwo,IsTwoLeast]
  | some b =>
    have hb := h.best_mem
    have hmin := h.best_le
    by_cases hcb : lt c b
    · -- the new element is the least one, and the old one leads the rest
      have hk := (hlt c b).mp hcb
      simp only [Foundation.keepTwo,if_pos hcb]
      refine ⟨by simp,by simp [hb],hk,?_⟩
      intro x hx hne
      rcases List.mem_append.mp hx with hx | hx
      · exact hmin x hx
      · exact (hne (List.mem_singleton.mp hx)).elim
    · have hk : key b < key c := lt_of_le_of_ne
        (not_lt.mp (fun h => hcb ((hlt c b).mpr h))) (hc b hb)
      simp only [Foundation.keepTwo,if_neg hcb]
      cases alt with
      | none =>
        obtain rfl : xs = [b] := h
        refine ⟨by simp,by simp,hk,?_⟩
        intro x hx hne
        have hx : x = b ∨ x = c := by simpa using hx
        rcases hx with rfl | rfl
        · exact (hne rfl).elim
        · exact le_rfl
      | some a =>
        obtain ⟨_,ha,hba,hrest⟩ := h
        by_cases hca : lt c a
        · have hk' := (hlt c a).mp hca
          simp only [if_pos hca]
          refine ⟨by simp [hb],by simp,hk,?_⟩
          intro x hx hne
          rcases List.mem_append.mp hx with hx | hx
          · exact hk'.le.trans (hrest x hx hne)
          · rw [List.mem_singleton.mp hx]
        · have hk' : key a ≤ key c := not_lt.mp (fun h => hca ((hlt c a).mpr h))
          simp only [if_neg hca]
          refine ⟨by simp [hb],by simp [ha],hba,?_⟩
          intro x hx hne
          rcases List.mem_append.mp hx with hx | hx
          · exact hrest x hx hne
          · rwa [List.mem_singleton.mp hx]

theorem twoLeast_spec (hlt : ∀ a b, lt a b ↔ key a < key b) {xs : List β}
    (hd : xs.Pairwise (fun x y => key x ≠ key y)) : IsTwoLeast key xs (twoLeast lt xs) := by
  induction xs using List.reverseRecOn with
  | nil => exact ⟨rfl,rfl⟩
  | append_singleton xs c ih =>
    obtain ⟨hxs,_,hc⟩ := List.pairwise_append.mp hd
    rw [twoLeast,List.foldl_append]
    exact (ih hxs).keepTwo hlt (fun x hx => hc x hx c (List.mem_singleton_self c))

theorem IsTwoLeast.pickAvoiding {xs : List β} {s : Option β × Option β} {avoid : β → Bool}
    (h : IsTwoLeast key xs s)
    (ha : ∀ x ∈ xs, ∀ y ∈ xs, avoid x = true → avoid y = true → x = y) :
    IsPick key avoid xs (pickAvoiding avoid s) := by
  rcases s with ⟨_ | b,alt⟩
  · exact h.1
  · cases alt with
    | none => exact Or.inl h
    | some a =>
      obtain ⟨hb,hax,hba,hrest⟩ := h
      by_cases hav : avoid b = true
      · simp only [Foundation.pickAvoiding,if_pos hav]
        refine Or.inr ⟨hax,?_,?_⟩
        · by_contra hne
          exact hba.ne (by rw [ha b hb a hax hav (by simpa using hne)])
        · intro x hx hnx
          exact hrest x hx (fun he => by simp [he,hav] at hnx)
      · simp only [Foundation.pickAvoiding,if_neg hav]
        refine Or.inr ⟨hb,by simpa using hav,?_⟩
        intro x hx _
        by_cases he : x = b
        · rw [he]
        · exact hba.le.trans (hrest x hx he)

end UnixShell.Foundation
