import Mathlib.Data.List.Basic
import Mathlib.Data.List.Nodup
import Mathlib.Data.List.Perm.Subperm
import Mathlib.Logic.Function.Basic

/-! # Singly linked queues represent lists

Nodes are names of an arbitrary type and the links are a map from names to names.
A queue is that map with a head and a tail pointer. The predicate `Linked` reads
the list off the links; the three pointer updates (append, unlink, push on a
second chain) are proved to be the corresponding list operations.
-/
namespace UnixShell.Foundation

variable {α : Type*}

/-- Following `next` from the given pointer visits exactly these nodes and ends. -/
inductive Linked (next : α → Option α) : Option α → List α → Prop
  | nil : Linked next none []
  | cons {a : α} {xs : List α} : Linked next (next a) xs → Linked next (some a) (a :: xs)

namespace Linked
variable {next next' : α → Option α} {head : Option α} {xs ys pre post : List α} {a : α}

theorem unique (h : Linked next head xs) (h' : Linked next head ys) : xs = ys := by
  induction h generalizing ys with
  | nil => cases h'; rfl
  | cons _ ih =>
    cases h' with
    | cons h' => rw [ih h']

theorem head_eq (h : Linked next head xs) : head = xs.head? := by
  cases h <;> rfl

theorem cons_iff : Linked next head (a :: xs) ↔ head = some a ∧ Linked next (next a) xs := by
  constructor
  · intro h
    cases h with
    | cons h => exact ⟨rfl,h⟩
  · rintro ⟨rfl,h⟩; exact cons h

theorem after (h : Linked next head (pre ++ a :: post)) : Linked next (next a) post := by
  induction pre generalizing head with
  | nil => exact (cons_iff.mp h).2
  | cons b pre ih => exact ih (cons_iff.mp h).2

/-- A chain that ends never visits a node twice: the node would lie behind itself. -/
theorem nodup (h : Linked next head xs) : xs.Nodup := by
  induction h with
  | nil => exact List.nodup_nil
  | @cons a xs h ih =>
    refine List.nodup_cons.mpr ⟨?_,ih⟩
    intro ha
    obtain ⟨pre,post,rfl⟩ := List.append_of_mem ha
    have he := congrArg List.length ((after h).unique h)
    simp only [List.length_append,List.length_cons] at he
    omega

theorem frame (h : Linked next head xs) (hn : ∀ a ∈ xs, next' a = next a) :
    Linked next' head xs := by
  induction h with
  | nil => exact nil
  | @cons a xs _ ih =>
    apply cons
    rw [hn a List.mem_cons_self]
    exact ih (fun b hb => hn b (List.mem_cons_of_mem a hb))

theorem update [DecidableEq α] (h : Linked next head xs) (ha : a ∉ xs) (v : Option α) :
    Linked (Function.update next a v) head xs :=
  h.frame (fun b hb => Function.update_of_ne (fun he : b = a => ha (he ▸ hb)) v next)

/-- The last node of a prefix is redirected to whatever list its new link leads to. -/
theorem redirect [DecidableEq α] (h : Linked next head (pre ++ a :: xs)) {v : Option α}
    (hv : Linked next v ys) (ha : a ∉ ys) :
    Linked (Function.update next a v) head (pre ++ a :: ys) := by
  induction pre generalizing head with
  | nil =>
    obtain ⟨rfl,_⟩ := cons_iff.mp h
    apply cons
    rw [Function.update_self]
    exact hv.update ha v
  | cons b pre ih =>
    have hnd := h.nodup
    obtain ⟨rfl,hr⟩ := cons_iff.mp h
    have hne : b ≠ a := by
      rintro rfl
      exact (List.nodup_cons.mp hnd).1 (by simp)
    apply cons
    rw [Function.update_of_ne hne]
    exact ih hr

theorem push [DecidableEq α] (h : Linked next head xs) (ha : a ∉ xs) :
    Linked (Function.update next a head) (some a) (a :: xs) := by
  apply cons
  rw [Function.update_self]
  exact h.update ha head

end Linked

/-- Head and tail pointers over a shared map of links. -/
structure LinkedQueue (α : Type*) where
  next : α → Option α
  head : Option α
  tail : Option α

namespace LinkedQueue
variable [DecidableEq α]

/-- The queue holds the list: the links from the head visit it and the tail is its last node. -/
structure Holds (q : LinkedQueue α) (xs : List α) : Prop where
  linked : Linked q.next q.head xs
  tail_eq : q.tail = xs.getLast?

def setNext (q : LinkedQueue α) (a : α) (v : Option α) : LinkedQueue α :=
  { q with next := Function.update q.next a v }

def append (q : LinkedQueue α) (a : α) : LinkedQueue α :=
  let q := q.setNext a none
  match q.tail with
  | none => { q with head := some a, tail := some a }
  | some last => { (q.setNext last (some a)) with tail := some a }

/-- Takes a node out, given the node in front of it: that node, or the head, is
redirected to the node behind, and the tail moves back when it was the node. -/
def unlink (q : LinkedQueue α) (previous : Option α) (a : α) : LinkedQueue α :=
  let q' := match previous with
    | none => { q with head := q.next a }
    | some p => q.setNext p (q.next a)
  if q.tail = some a then { q' with tail := previous } else q'

variable {q : LinkedQueue α} {xs pre post : List α} {a : α}

omit [DecidableEq α] in
theorem Holds.head_eq (h : q.Holds xs) : q.head = xs.head? := h.linked.head_eq

omit [DecidableEq α] in
theorem Holds.nodup (h : q.Holds xs) : xs.Nodup := h.linked.nodup

omit [DecidableEq α] in
theorem Holds.not_mem (h : q.Holds (pre ++ a :: post)) : a ∉ pre ++ post :=
  (List.nodup_cons.mp (List.nodup_middle.mp h.nodup)).1

theorem Holds.setNext (h : q.Holds xs) (ha : a ∉ xs) (v : Option α) : (q.setNext a v).Holds xs :=
  ⟨h.linked.update ha v,h.tail_eq⟩

theorem Holds.append (h : q.Holds xs) (ha : a ∉ xs) : (q.append a).Holds (xs ++ [a]) := by
  have hs := h.setNext ha none
  have htail : q.tail = xs.getLast? := h.tail_eq
  rcases List.eq_nil_or_concat xs with rfl | ⟨ys,last,rfl⟩
  · have hn : q.tail = none := by simpa using htail
    constructor
    · simp only [LinkedQueue.append,LinkedQueue.setNext,hn]
      apply Linked.cons
      rw [Function.update_self]
      exact Linked.nil
    · simp [LinkedQueue.append,LinkedQueue.setNext,hn]
  · have hn : q.tail = some last := by simpa using htail
    have hlast : last ≠ a := by
      rintro rfl
      exact ha (by simp)
    have hend : Linked (q.setNext a none).next (some a) [a] := by
      apply Linked.cons
      simpa [LinkedQueue.setNext] using Linked.nil
    constructor
    · have hys : Linked (q.setNext a none).next (q.setNext a none).head (ys ++ last :: []) := by
        simpa using hs.linked
      have hr := hys.redirect hend (by simpa using hlast)
      simpa [LinkedQueue.append,LinkedQueue.setNext,hn] using hr
    · simp [LinkedQueue.append,LinkedQueue.setNext,hn]

omit [DecidableEq α] in
private theorem getLast?_behind (ys : List α) (b : α) :
    (pre ++ a :: ys.concat b).getLast? = some b := by
  have he : pre ++ a :: ys.concat b = (pre ++ a :: ys) ++ [b] := by simp
  rw [he,List.getLast?_append,List.getLast?_singleton,Option.some_or]

/-- Unlinking removes the node at its position and leaves the order of the others. -/
theorem Holds.unlink (h : q.Holds (pre ++ a :: post)) :
    (q.unlink pre.getLast? a).Holds (pre ++ post) := by
  have hnd := h.nodup
  have hafter : Linked q.next (q.next a) post := h.linked.after
  have htail : q.tail = (pre ++ a :: post).getLast? := h.tail_eq
  have hlast : q.tail = some a ↔ post = [] := by
    rw [htail]
    constructor
    · intro he
      by_contra hp
      obtain ⟨ys,b,rfl⟩ := (List.eq_nil_or_concat post).resolve_left hp
      rw [getLast?_behind] at he
      obtain rfl := Option.some.inj he
      simp [List.nodup_append] at hnd
    · rintro rfl; simp
  have hlinked : Linked (q.unlink pre.getLast? a).next (q.unlink pre.getLast? a).head
      (pre ++ post) := by
    rcases List.eq_nil_or_concat pre with rfl | ⟨ys,p,rfl⟩
    · simp only [List.getLast?_nil,LinkedQueue.unlink,List.nil_append]
      split <;> exact hafter
    · have hp : p ∉ post := by
        intro hp
        simp only [List.concat_eq_append,List.append_assoc,List.singleton_append,
          List.nodup_append,List.nodup_cons,List.mem_cons] at hnd
        exact hnd.2.1.1 (Or.inr hp)
      have hys : Linked q.next q.head (ys ++ p :: a :: post) := by simpa using h.linked
      have hr := hys.redirect hafter hp
      simp only [List.concat_eq_append,List.getLast?_append,List.getLast?_singleton,
        Option.some_or,LinkedQueue.unlink,List.append_assoc,List.singleton_append]
      split <;> simpa [LinkedQueue.setNext] using hr
  refine ⟨hlinked,?_⟩
  by_cases hp : post = []
  · have ht := hlast.mpr hp
    subst hp
    simp [LinkedQueue.unlink,ht]
  · have ht : q.tail ≠ some a := fun he => hp (hlast.mp he)
    have hq : (q.unlink pre.getLast? a).tail = q.tail := by
      simp only [LinkedQueue.unlink,if_neg ht]
      cases pre.getLast? <;> rfl
    rw [hq,htail]
    obtain ⟨ys,b,rfl⟩ := (List.eq_nil_or_concat post).resolve_left hp
    rw [getLast?_behind]
    simp

theorem unlink_next_of_ne {previous : Option α} {b : α} (hb : previous ≠ some b) :
    (q.unlink previous a).next b = q.next b := by
  cases previous with
  | none => simp only [LinkedQueue.unlink]; split <;> rfl
  | some p =>
    have hne : b ≠ p := fun he => hb (he ▸ rfl)
    simp only [LinkedQueue.unlink]
    split <;> simp [LinkedQueue.setNext,Function.update_of_ne hne]

theorem append_next_of_ne {b : α} (hb : b ≠ a) (ht : q.tail ≠ some b) :
    (q.append a).next b = q.next b := by
  cases hq : q.tail with
  | none => simp [LinkedQueue.append,LinkedQueue.setNext,hq,Function.update_of_ne hb]
  | some last =>
    have hne : b ≠ last := fun he => ht (he ▸ hq)
    simp [LinkedQueue.append,LinkedQueue.setNext,hq,Function.update_of_ne hb,
      Function.update_of_ne hne]

end LinkedQueue

section Traversal

/-- The loop `for (cursor = head; cursor; cursor = next)` with its trailing pointer:
the pairs it visits, at most `fuel` of them. -/
def visits (next : α → Option α) : ℕ → Option α → Option α → List (Option α × α)
  | 0, _, _ => []
  | _ + 1, _, none => []
  | fuel + 1, previous, some cursor =>
    (previous,cursor) :: visits next fuel (some cursor) (next cursor)

def withPrevious : Option α → List α → List (Option α × α)
  | _, [] => []
  | previous, a :: xs => (previous,a) :: withPrevious (some a) xs

variable {next : α → Option α} {head previous : Option α} {xs : List α} {fuel : ℕ}

theorem Linked.visits_eq (h : Linked next head xs) (hf : xs.length ≤ fuel) :
    visits next fuel previous head = withPrevious previous xs := by
  induction h generalizing previous fuel with
  | nil => cases fuel <;> rfl
  | cons _ ih =>
    cases fuel with
    | zero => simp at hf
    | succ fuel =>
      simp only [visits,withPrevious]
      rw [ih (by simpa using hf)]

@[simp] theorem withPrevious_map_snd (previous : Option α) (xs : List α) :
    (withPrevious previous xs).map Prod.snd = xs := by
  induction xs generalizing previous with
  | nil => rfl
  | cons a xs ih => simp [withPrevious,ih]

theorem snd_mem_of_mem_withPrevious {p : Option α × α} (h : p ∈ withPrevious previous xs) :
    p.2 ∈ xs := by
  rw [← withPrevious_map_snd previous xs]
  exact List.mem_map_of_mem h

/-- Every pair a traversal yields splits the list at its element. -/
theorem exists_split_of_mem_withPrevious {p : Option α × α} (h : p ∈ withPrevious none xs) :
    ∃ pre post, xs = pre ++ p.2 :: post ∧ p.1 = pre.getLast? := by
  have hgen : ∀ (front ys : List α), p ∈ withPrevious front.getLast? ys →
      ∃ pre post, front ++ ys = pre ++ p.2 :: post ∧ p.1 = pre.getLast? := by
    intro front ys
    induction ys generalizing front with
    | nil => simp [withPrevious]
    | cons a ys ih =>
      intro hp
      rcases List.mem_cons.mp hp with rfl | hp
      · exact ⟨front,ys,rfl,rfl⟩
      · have hp' : p ∈ withPrevious (front ++ [a]).getLast? ys := by simpa using hp
        obtain ⟨pre,post,he,hl⟩ := ih (front ++ [a]) hp'
        exact ⟨pre,post,by simpa using he,hl⟩
  simpa using hgen [] xs (by simpa using h)

/-- Distinct nodes with names below a bound fit into that many loop iterations. -/
theorem length_le_of_nodup_lt {xs : List ℕ} {n : ℕ} (hn : xs.Nodup) (hx : ∀ a ∈ xs, a < n) :
    xs.length ≤ n := by
  have hs : xs ⊆ List.range n := fun a ha => List.mem_range.mpr (hx a ha)
  simpa using (List.subperm_of_subset hn hs).length_le

end Traversal

end UnixShell.Foundation
