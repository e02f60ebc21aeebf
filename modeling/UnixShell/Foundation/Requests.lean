import UnixShell.Foundation.Heaps

/-! # Requests in turn

Which requests succeed is said by their numbers. A computation that gives up at the first
request that is refused follows a script, the list of what it would ask for; its account
says what holds when it is through, and what holds when some request of it was refused.
-/
namespace UnixShell.Foundation

variable {κ α β : Type*}

section Requests
variable (alloc : ℕ → Bool)

def Heap.ask (h : Heap κ) (k : κ) : Option ℕ × Heap κ := h.request k (alloc h.requests)

/-- The requests from a number on are made until one is refused: that one, and the number of
the request after the last one made. -/
def firstRefused : ℕ → List κ → Option κ × ℕ
  | n, [] => (none,n)
  | n, k :: ks => if alloc n then firstRefused (n+1) ks else (some k,n+1)

/-- A result, which is NULL exactly when a request of the script is refused. -/
structure Follows (n : ℕ) (script : List κ) (made : α → Heap κ → Prop)
    (spoilt : κ → Heap κ → Prop) (r : Option α × Heap κ) : Prop where
  requests : r.2.requests = (firstRefused alloc n script).2
  granted : (firstRefused alloc n script).1 = none → ∃ a, r.1 = some a ∧ made a r.2
  refused : ∀ k, (firstRefused alloc n script).1 = some k → r.1 = none ∧ spoilt k r.2

end Requests

variable {alloc : ℕ → Bool} {n : ℕ} {ks l : List κ} {k : κ}

theorem firstRefused_append (alloc : ℕ → Bool) (n : ℕ) (ks l : List κ) :
    firstRefused alloc n (ks ++ l) =
      match firstRefused alloc n ks with
      | (none,m) => firstRefused alloc m l
      | (some k,m) => (some k,m) := by
  induction ks generalizing n with
  | nil => rfl
  | cons k ks ih =>
    rw [List.cons_append,firstRefused,firstRefused]
    split_ifs
    · exact ih (n+1)
    · rfl

theorem firstRefused_full (hfull : ∀ n, alloc n = true) (n : ℕ) (ks : List κ) :
    firstRefused alloc n ks = (none,n+ks.length) := by
  induction ks generalizing n with
  | nil => rfl
  | cons k ks ih =>
    rw [firstRefused,if_pos (hfull n),ih,List.length_cons]
    congr 1
    omega

theorem firstRefused_mem (h : (firstRefused alloc n ks).1 = some k) : k ∈ ks := by
  induction ks generalizing n with
  | nil => cases h
  | cons l ks ih =>
    rw [firstRefused] at h
    split_ifs at h
    · exact List.mem_cons_of_mem _ (ih h)
    · exact Option.some.inj h ▸ List.mem_cons_self

namespace Follows
variable {made made' : α → Heap κ → Prop} {spoilt spoilt' : κ → Heap κ → Prop}
variable {r : Option α × Heap κ} {h : Heap κ} {bs : Multiset (ℕ × κ)}

theorem mono (hr : Follows alloc n ks made spoilt r) (hm : ∀ a h, made a h → made' a h)
    (hs : ∀ k ∈ ks, ∀ h, spoilt k h → spoilt' k h) : Follows alloc n ks made' spoilt' r where
  requests := hr.requests
  granted hg := (hr.granted hg).imp fun a ha => ⟨ha.1,hm a _ ha.2⟩
  refused k hk := ⟨(hr.refused k hk).1,hs k (firstRefused_mem hk) _ (hr.refused k hk).2⟩

/-- Nothing is asked for. -/
theorem pure {a : α} (hm : made a h) : Follows alloc h.requests [] made spoilt (some a,h) where
  requests := rfl
  granted _ := ⟨a,rfl,hm⟩
  refused _ hk := by cases hk

/-- One request. -/
theorem ask (ho : h.Owns bs) (k : κ) :
    Follows alloc h.requests [k] (fun b h' => h'.Owns ({(b,k)} + bs)) (fun _ h' => h'.Owns bs)
      (h.ask alloc k) := by
  cases ha : alloc h.requests with
  | true =>
    have hr : firstRefused alloc h.requests [k] = (none,h.requests+1) := by
      rw [firstRefused,if_pos ha,firstRefused]
    rw [Heap.ask,ha]
    refine ⟨by rw [hr,Heap.request_requests],fun _ => ⟨_,ho.granted k⟩,fun j hl => ?_⟩
    rw [hr] at hl
    cases hl
  | false =>
    have hr : firstRefused alloc h.requests [k] = (some k,h.requests+1) := by
      rw [firstRefused,if_neg (by simp [ha])]
    rw [Heap.ask,ha]
    refine ⟨by rw [hr,Heap.request_requests],fun hg => ?_,fun _ _ => ho.refused k⟩
    rw [hr] at hg
    cases hg

/-- One computation behind another. What is done when the first gives up asks for nothing. -/
theorem bind {made : β → Heap κ → Prop} {r' : Option β × Heap κ}
    (hr : Follows alloc n ks made' spoilt' r)
    (hm : ∀ a h, r = (some a,h) → made' a h → Follows alloc h.requests l made spoilt r')
    (hs : ∀ k h, r = (none,h) → k ∈ ks → spoilt' k h →
      r'.1 = none ∧ r'.2.requests = h.requests ∧ spoilt k r'.2) :
    Follows alloc n (ks ++ l) made spoilt r' := by
  have happend := firstRefused_append alloc n ks l
  cases hf : firstRefused alloc n ks with
  | mk refusal m =>
    rw [hf] at happend
    have hn : r.2.requests = m := by rw [hr.requests,hf]
    cases refusal with
    | none =>
      obtain ⟨a,ha,hmade⟩ := hr.granted (by rw [hf])
      have hthen := hm a r.2 (Prod.ext ha rfl) hmade
      rw [hn] at hthen
      replace happend : firstRefused alloc n (ks ++ l) = firstRefused alloc m l := happend
      exact ⟨happend ▸ hthen.requests,fun hg => hthen.granted (happend ▸ hg),
        fun k hk => hthen.refused k (happend ▸ hk)⟩
    | some k =>
      obtain ⟨hnone,hspoilt⟩ := hr.refused k (by rw [hf])
      have hk : k ∈ ks := firstRefused_mem (by rw [hf])
      obtain ⟨hnone',hreq,hspoilt'⟩ := hs k r.2 (Prod.ext hnone rfl) hk hspoilt
      replace happend : firstRefused alloc n (ks ++ l) = (some k,m) := happend
      refine ⟨by rw [happend,hreq,hn],fun hg => ?_,fun j hl => ?_⟩
      · rw [happend] at hg
        cases hg
      · rw [happend] at hl
        cases hl
        exact ⟨hnone',hspoilt'⟩

end Follows

end UnixShell.Foundation
