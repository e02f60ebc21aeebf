import Mathlib.Algebra.Order.Group.Multiset
import Mathlib.Tactic.Abel

/-! # Heaps

A block is known by the number of the request that it answers, and carries what it was
asked for. A heap records the blocks that are live; freeing or touching a block that is not
live is a fault, which it records too. Who owns which blocks is said by a multiset, so that
the blocks of several owners are a sum.
-/
namespace UnixShell.Foundation

variable {κ : Type*}

structure Heap (κ : Type*) where
  requests : ℕ
  live : List (ℕ × κ)
  faults : List ℕ
  deriving DecidableEq, Repr

namespace Heap

def empty : Heap κ := ⟨0,[],[]⟩

/-- A request and its answer, which is NULL when it does not succeed. -/
def request (h : Heap κ) (k : κ) (succeeds : Bool) : Option ℕ × Heap κ :=
  if succeeds then (some h.requests,⟨h.requests+1,(h.requests,k) :: h.live,h.faults⟩)
  else (none,⟨h.requests+1,h.live,h.faults⟩)

def touch (h : Heap κ) (b : ℕ) : Heap κ :=
  if b ∈ h.live.map Prod.fst then h else {h with faults := h.faults ++ [b]}

def free (h : Heap κ) (b : ℕ) : Heap κ :=
  if b ∈ h.live.map Prod.fst then {h with live := h.live.filter fun x => x.1 ≠ b}
  else {h with faults := h.faults ++ [b]}

/-- What is read or written is not in the block, or was never written. -/
def stray (h : Heap κ) (b : ℕ) : Heap κ := {h with faults := h.faults ++ [b]}

/-- A free of NULL does nothing. -/
def freePointer (h : Heap κ) : Option ℕ → Heap κ
  | none => h
  | some b => h.free b

@[simp] theorem request_requests (h : Heap κ) (k : κ) (succeeds : Bool) :
    (h.request k succeeds).2.requests = h.requests+1 := by
  cases succeeds <;> rfl

@[simp] theorem touch_requests (h : Heap κ) (b : ℕ) : (h.touch b).requests = h.requests := by
  unfold touch
  split <;> rfl

@[simp] theorem free_requests (h : Heap κ) (b : ℕ) : (h.free b).requests = h.requests := by
  unfold free
  split <;> rfl

@[simp] theorem freePointer_requests (h : Heap κ) (b : Option ℕ) :
    (h.freePointer b).requests = h.requests := by
  cases b with
  | none => rfl
  | some b => exact free_requests h b

@[simp] theorem stray_requests (h : Heap κ) (b : ℕ) : (h.stray b).requests = h.requests := rfl

theorem mem_of_mem_free {h : Heap κ} {b c : ℕ} (hc : c ∈ (h.free b).live.map Prod.fst) :
    c ∈ h.live.map Prod.fst := by
  unfold free at hc
  split_ifs at hc
  · obtain ⟨x,hx,rfl⟩ := List.mem_map.mp hc
    exact List.mem_map_of_mem (List.mem_of_mem_filter hx)
  · exact hc

/-- No block is live when it has been freed. -/
theorem not_mem_free (h : Heap κ) (b : ℕ) : b ∉ (h.free b).live.map Prod.fst := by
  unfold free
  split_ifs with hb
  · intro hc
    obtain ⟨x,hx,rfl⟩ := List.mem_map.mp hc
    have hne := (List.mem_filter.mp hx).2
    simp at hne
  · exact hb

section Faults
variable {h : Heap κ}

theorem stray_faulty (h : Heap κ) (b : ℕ) : (h.stray b).faults ≠ [] :=
  List.append_ne_nil_of_right_ne_nil _ (List.cons_ne_nil _ _)

theorem request_faulty (hf : h.faults ≠ []) (k : κ) (succeeds : Bool) :
    (h.request k succeeds).2.faults ≠ [] := by
  cases succeeds <;> exact hf

theorem touch_faulty (hf : h.faults ≠ []) (b : ℕ) : (h.touch b).faults ≠ [] := by
  unfold touch
  split
  · exact hf
  · exact stray_faulty h b

theorem free_faulty (hf : h.faults ≠ []) (b : ℕ) : (h.free b).faults ≠ [] := by
  unfold free
  split
  · exact hf
  · exact stray_faulty h b

theorem freePointer_faulty (hf : h.faults ≠ []) (b : Option ℕ) : (h.freePointer b).faults ≠ [] := by
  cases b with
  | none => exact hf
  | some b => exact free_faulty hf b

end Faults

/-- Just these blocks are live, and so far nothing went wrong. -/
structure Owns (h : Heap κ) (bs : Multiset (ℕ × κ)) : Prop where
  live : (h.live : Multiset (ℕ × κ)) = bs
  distinct : (bs.map Prod.fst).Nodup
  issued : ∀ b ∈ bs, b.1 < h.requests
  faultless : h.faults = []

namespace Owns
variable {h : Heap κ} {bs cs : Multiset (ℕ × κ)} {b : ℕ × κ}

theorem congr (ho : h.Owns bs) (he : bs = cs) : h.Owns cs := he ▸ ho

theorem empty : (Heap.empty : Heap κ).Owns 0 := ⟨rfl,by simp,by simp,rfl⟩

theorem granted (ho : h.Owns bs) (k : κ) :
    (h.request k true).1 = some h.requests ∧ (h.request k true).2.Owns ({(h.requests,k)} + bs) := by
  refine ⟨rfl,?_,?_,?_,ho.faultless⟩
  · rw [← ho.live]
    rfl
  · rw [Multiset.map_add,Multiset.map_singleton,Multiset.singleton_add,Multiset.nodup_cons]
    refine ⟨?_,ho.distinct⟩
    intro hmem
    obtain ⟨x,hx,he⟩ := Multiset.mem_map.mp hmem
    exact absurd (ho.issued x hx) (by simp [he])
  · intro x hx
    rw [request_requests]
    rcases Multiset.mem_add.mp hx with hx | hx
    · rw [Multiset.mem_singleton.mp hx]
      exact Nat.lt_succ_self _
    · exact (ho.issued x hx).trans (Nat.lt_succ_self _)

theorem refused (ho : h.Owns bs) (k : κ) :
    (h.request k false).1 = none ∧ (h.request k false).2.Owns bs :=
  ⟨rfl,ho.live,ho.distinct,fun x hx => (ho.issued x hx).trans (Nat.lt_succ_self _),ho.faultless⟩

theorem mem_live (ho : h.Owns bs) : b.1 ∈ h.live.map Prod.fst ↔ b.1 ∈ bs.map Prod.fst := by
  rw [← ho.live]
  rfl

/-- A block that somebody owns may be touched. -/
theorem touch (ho : h.Owns bs) (hb : b ∈ bs) : h.touch b.1 = h :=
  if_pos (ho.mem_live.mpr (Multiset.mem_map_of_mem _ hb))

/-- The owner of a block may free it, and no one owns it then. -/
theorem free (ho : h.Owns ({b} + bs)) : (h.free b.1).Owns bs := by
  have hnodup := ho.distinct
  rw [Multiset.map_add,Multiset.map_singleton,Multiset.singleton_add,Multiset.nodup_cons] at hnodup
  have hmem : b.1 ∈ h.live.map Prod.fst := ho.mem_live.mpr (by simp)
  have hlive : ((h.live.filter fun x => x.1 ≠ b.1 : List (ℕ × κ)) : Multiset (ℕ × κ)) = bs := by
    rw [← Multiset.filter_coe,ho.live,Multiset.filter_add,Multiset.filter_singleton]
    simp only [ne_eq,not_true_eq_false,if_false]
    rw [Multiset.empty_eq_zero,zero_add,Multiset.filter_eq_self]
    intro x hx he
    exact hnodup.1 (he ▸ Multiset.mem_map_of_mem _ hx)
  rw [Heap.free,if_pos hmem]
  exact ⟨hlive,hnodup.2,fun x hx => ho.issued x (Multiset.mem_add.mpr (.inr hx)),ho.faultless⟩

end Owns

end Heap

end UnixShell.Foundation
