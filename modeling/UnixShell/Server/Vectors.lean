import Mathlib.Algebra.Group.Nat.Defs
import Mathlib.Data.Nat.Size
import UnixShell.Server.Arguments

/-! # An argument vector and a failing allocator

The vector has a power of two slots, at least four. Those that are not yet filled are the
NULLs of `calloc` as long as it has not been made anew, and after that they are whatever
`realloc` found there. The loop that frees a vector stops at a NULL, so what it reads
depends on which of the requests has failed.
-/
namespace UnixShell.Server
open Foundation
open UnixShell.Parser (blank)

/-- The request for the copy of the word at an index: those before it are for the command,
for the words before, and for the vector each time that it was too small. -/
def copyRequest (index : ℕ) : ℕ := index + max 2 (index + 1).size

/-- The request that makes a vector of `2 ^ k` slots anew, when one of them is free. -/
def growRequest (k : ℕ) : ℕ := 2 ^ k + k - 1

/-- The strings stored so far are freed and nothing else is read: those whose copies were
asked for before the request that failed. -/
def FreesStored (ws : List Text) (m : Storage) : Prop :=
  ∃ n ≤ ws.length, m.freed = (ws.take n).map .copy ∧
    ∀ j < ws.length, j < n ↔ copyRequest j + 1 < m.requests

/-- The vector is written within its capacity; it holds the words and a NULL behind them, or
it is gone and what was stored in it is freed. -/
def SplitsTo (ws : List Text) (r : Option (List Slot) × Storage) : Prop :=
  (∀ w ∈ r.2.writes, w.1 < w.2) ∧
    match r.1 with
    | some slots => ∃ more, slots = ws.map .copy ++ .null :: more
    | none => FreesStored ws r.2

/-- Once the vector has grown, it is not refused the memory to grow again. -/
def GrowsAgain (alloc : ℕ → Bool) (n : ℕ) : Prop :=
  ∀ k, 3 ≤ k → 2 ^ k ≤ n → (∀ i < growRequest k, alloc i = true) → alloc (growRequest k) = true

/-- What a slot holds that was never written. -/
def spare (k : ℕ) : Slot := if k = 2 then .null else .unset

/-- The loop of `split_command_argv` with some words in the vector. -/
structure Splitting (alloc : ℕ → Bool) (ws : List Text) (k : ℕ) (slots : List Slot)
    (m : Storage) : Prop where
  exponent : 2 ≤ k
  grown : k = 2 ∨ 2 ^ k ≤ 2 * ws.length
  room : ws.length < 2 ^ k
  slots : slots = ws.map .copy ++ List.replicate (2 ^ k - ws.length) (spare k)
  requests : m.requests = ws.length + k
  granted : ∀ i < ws.length + k, alloc i = true
  writes : ∀ w ∈ m.writes, w.1 < w.2
  freed : m.freed = []

section Requests
variable {alloc : ℕ → Bool} {n k j : ℕ}

theorem copyRequest_lt (hk : 2 ≤ k) (hn : n < 2 ^ k) (hj : j < n) : copyRequest j < n + k := by
  have hsize : (j + 1).size ≤ k := Nat.size_le.mpr (by omega)
  simp only [copyRequest]
  omega

theorem le_copyRequest (hk : k = 2 ∨ 2 ^ k ≤ 2 * (n + 1)) (hj : n ≤ j) :
    n + k ≤ copyRequest j := by
  simp only [copyRequest]
  rcases hk with rfl | hk
  · omega
  · cases k with
    | zero => omega
    | succ k =>
      rw [Nat.pow_succ] at hk
      have hsize : k < (j + 1).size := Nat.lt_size.mpr (by omega)
      omega

/-- The copies asked for before a request are those of the words in front of it. -/
theorem copyRequest_lt_iff (hk : 2 ≤ k) (hgrown : k = 2 ∨ 2 ^ k ≤ 2 * (n + 1)) (hn : n < 2 ^ k) :
    copyRequest j < n + k ↔ j < n := by
  constructor
  · intro hlt
    by_contra hj
    exact absurd (le_copyRequest hgrown (not_lt.mp hj)) (not_le.mpr hlt)
  · exact copyRequest_lt hk hn

theorem two_pow_succ_le {k k' : ℕ} (h : k < k') : 2 * 2 ^ k ≤ 2 ^ k' := by
  rw [← Nat.pow_succ']
  exact Nat.pow_le_pow_right (by decide) h

/-- No vector is made anew by a request that is for the copy of a word. -/
theorem growsAgain_of_copy {n' : ℕ} (hgrown : k = 2 ∨ 2 ^ k ≤ 2 * (n + 1)) (hroom : n + 1 < 2 ^ k)
    (hgranted : ∀ i < n + k, alloc i = true) (hfail : alloc (n + k) = false) :
    GrowsAgain alloc n' := by
  intro k' hk' _ hprev
  rcases lt_trichotomy (growRequest k') (n + k) with hlt | heq | hgt
  · exact hgranted _ hlt
  · exfalso
    simp only [growRequest] at heq
    rcases lt_trichotomy k' k with hk | rfl | hk
    · have hpow := two_pow_succ_le hk
      omega
    · omega
    · have hpow := two_pow_succ_le hk
      omega
  · rw [hprev _ hgt] at hfail
    cases hfail

/-- The requests of a finished vector were all granted. -/
theorem growsAgain_of_granted (hroom : n < 2 ^ k) (hgranted : ∀ i < n + k, alloc i = true) :
    GrowsAgain alloc n := by
  intro k' _ hle _
  have hk : k' < k := (Nat.pow_lt_pow_iff_right (by decide)).mp (hle.trans_lt hroom)
  apply hgranted
  simp only [growRequest]
  omega

end Requests

/-- There is room for the next copy and the NULL behind it. -/
structure Roomy (alloc : ℕ → Bool) (ws : List Text) (k : ℕ) (slots : List Slot)
    (m : Storage) : Prop where
  exponent : 2 ≤ k
  grown : k = 2 ∨ 2 ^ k ≤ 2 * (ws.length + 1)
  room : ws.length + 1 < 2 ^ k
  slots : ∃ s, slots = ws.map .copy ++ s :: List.replicate (2 ^ k - (ws.length + 1)) (spare k)
  requests : m.requests = ws.length + k
  granted : ∀ i < ws.length + k, alloc i = true
  writes : ∀ w ∈ m.writes, w.1 < w.2
  freed : m.freed = []

section Loop
variable {alloc : ℕ → Bool} {ws : List Text} {k : ℕ} {slots : List Slot} {m : Storage}

theorem Storage.write_inBounds {n size : ℕ} (h : ∀ w ∈ m.writes, w.1 < w.2) (hn : n < size) :
    ∀ w ∈ (m.write n size).writes, w.1 < w.2 :=
  List.forall_mem_append.mpr ⟨h,List.forall_mem_singleton.mpr hn⟩

theorem takeWhile_copies (ws : List Text) (slots : List Slot) :
    (ws.map Slot.copy ++ .null :: slots).takeWhile (· ≠ .null) = ws.map .copy := by
  rw [List.takeWhile_append_of_pos (by simp)]
  simp

theorem set_first (ws : List Text) (s slot : Slot) (more : List Slot) :
    (ws.map Slot.copy ++ s :: more).set ws.length slot = ws.map .copy ++ slot :: more := by
  simp

theorem unset_not_copied (ws : List Text) : Slot.unset ∉ ws.map Slot.copy := by
  intro h
  obtain ⟨w,_,hw⟩ := List.mem_map.mp h
  cases hw

theorem Splitting.length (h : Splitting alloc ws k slots m) : slots.length = 2 ^ k := by
  have hroom := h.room
  rw [h.slots]
  simp only [List.length_append,List.length_map,List.length_replicate]
  omega

theorem Splitting.first (h : Splitting alloc ws k slots m) :
    slots = ws.map .copy ++ spare k :: List.replicate (2 ^ k - (ws.length + 1)) (spare k) := by
  have hroom := h.room
  have hlen : 2 ^ k - ws.length = 2 ^ k - (ws.length + 1) + 1 := by omega
  rw [h.slots,hlen,List.replicate_succ]

theorem Roomy.length (h : Roomy alloc ws k slots m) : slots.length = 2 ^ k := by
  have hroom := h.room
  obtain ⟨s,hs⟩ := h.slots
  rw [hs]
  simp only [List.length_append,List.length_map,List.length_cons,List.length_replicate]
  omega

/-- The vector is as it was, or made anew, or there is no memory to make it anew. -/
theorem Splitting.grow (h : Splitting alloc ws k slots m) :
    (∃ k' slots' m', growArgv alloc slots ws.length m = (some slots',m') ∧
      Roomy alloc ws k' slots' m') ∨
    growArgv alloc slots ws.length m = (none,m.request) ∧ ws.length + 1 = 2 ^ k ∧
      alloc (ws.length + k) = false := by
  have hroom := h.room
  have hlen := h.length
  unfold growArgv
  by_cases hfit : slots.length ≤ ws.length + 1
  · have hfull : ws.length + 1 = 2 ^ k := by omega
    rw [if_pos hfit,h.requests]
    by_cases hok : alloc (ws.length + k) = true
    · rw [if_pos hok]
      refine Or.inl ⟨k + 1,_,_,rfl,?_⟩
      have hpow : 2 ^ (k + 1) = 2 * 2 ^ k := Nat.pow_succ'
      have hexp := h.exponent
      constructor
      · omega
      · omega
      · omega
      · refine ⟨spare k,?_⟩
        have hspare : spare (k + 1) = .unset := if_neg (by omega)
        have hnew : 2 ^ (k + 1) - (ws.length + 1) = 2 ^ k := by omega
        have hold : 2 ^ k - ws.length = 1 := by omega
        rw [hlen,h.slots,hspare,hnew,hold,List.append_assoc]
        rfl
      · show m.requests + 1 = _
        rw [h.requests,Nat.add_assoc]
      · intro i hi
        rcases Nat.lt_succ_iff_lt_or_eq.mp (Nat.add_assoc _ k 1 ▸ hi) with hi | rfl
        · exact h.granted i hi
        · exact hok
      · exact h.writes
      · exact h.freed
    · rw [if_neg hok]
      exact Or.inr ⟨rfl,hfull,by simpa using hok⟩
  · rw [if_neg hfit]
    refine Or.inl ⟨k,slots,m,rfl,h.exponent,?_,by omega,⟨spare k,h.first⟩,h.requests,h.granted,
      h.writes,h.freed⟩
    rcases h.grown with hk | hk
    · exact Or.inl hk
    · exact Or.inr (by omega)

/-- The vector with one more copy in it. -/
theorem Roomy.store (h : Roomy alloc ws k slots m) (token : Text)
    (hok : alloc (ws.length + k) = true) :
    Splitting alloc (ws ++ [token]) k (slots.set ws.length (.copy token))
      (m.request.write ws.length slots.length) := by
  obtain ⟨s,hs⟩ := h.slots
  have hroom := h.room
  have hlen := h.length
  have hone : (ws ++ [token]).length = ws.length + 1 := by simp
  constructor
  · exact h.exponent
  · rw [hone]
    exact h.grown
  · rw [hone]
    exact h.room
  · rw [hone,hs,set_first,List.map_append,List.append_assoc]
    rfl
  · show m.requests + 1 = _
    rw [h.requests,hone]
    omega
  · intro i hi
    rw [hone] at hi
    rcases Nat.lt_succ_iff_lt_or_eq.mp (show i < ws.length + k + 1 by omega) with hi | rfl
    · exact h.granted i hi
    · exact hok
  · exact Storage.write_inBounds h.writes (by omega)
  · exact h.freed

/-- Without memory for a copy, those in front of it are freed. -/
theorem Roomy.refused (h : Roomy alloc ws k slots m) (more : List Text) :
    SplitsTo (ws ++ more)
      (none,freeStringArray (slots.set ws.length .null)
        (m.request.write ws.length slots.length)) := by
  obtain ⟨s,hs⟩ := h.slots
  have hroom := h.room
  have hlen := h.length
  constructor
  · exact Storage.write_inBounds h.writes (by omega)
  · refine ⟨ws.length,by simp,?_,?_⟩
    · rw [List.take_left,freeStringArray,hs,set_first,takeWhile_copies]
      show m.freed ++ _ = _
      rw [h.freed,List.nil_append]
    · intro j _
      show j < ws.length ↔ copyRequest j + 1 < m.requests + 1
      rw [h.requests,Nat.succ_lt_succ_iff]
      exact (copyRequest_lt_iff h.exponent h.grown (Nat.lt_of_succ_lt hroom)).symm

/-- Without memory for the vector, what the free slot holds decides. -/
theorem Splitting.refused_iff (h : Splitting alloc ws k slots m) (hfull : ws.length + 1 = 2 ^ k)
    (more : List Text) :
    SplitsTo (ws ++ more) (none,freeStringArray slots m.request) ↔ k = 2 := by
  have hfirst := h.first
  rw [← hfull,Nat.sub_self,List.replicate_zero] at hfirst
  have hfreed : (freeStringArray slots m.request).freed = slots.takeWhile (· ≠ .null) := by
    show m.freed ++ _ = _
    rw [h.freed,List.nil_append]
  constructor
  · rintro ⟨_,n,_,hcopies,_⟩
    by_contra hk
    have hspare : spare k = .unset := if_neg hk
    have hmem : Slot.unset ∈ (freeStringArray slots m.request).freed := by
      rw [hfreed,hfirst,hspare,List.takeWhile_append_of_pos (by simp)]
      simp
    rw [hcopies] at hmem
    exact unset_not_copied _ hmem
  · rintro rfl
    refine ⟨h.writes,ws.length,by simp,?_,?_⟩
    · rw [hfreed,hfirst,List.take_left]
      exact takeWhile_copies ws []
    · intro j _
      show j < ws.length ↔ copyRequest j + 1 < m.requests + 1
      rw [h.requests,Nat.succ_lt_succ_iff]
      exact (copyRequest_lt_iff h.exponent (Or.inl rfl) h.room).symm

theorem Splitting.finish (h : Splitting alloc ws k slots m) :
    SplitsTo ws (some (slots.set ws.length .null),m.write ws.length slots.length) := by
  have hroom := h.room
  have hlen := h.length
  constructor
  · exact Storage.write_inBounds h.writes (by omega)
  · exact ⟨_,by rw [h.first]; exact set_first ws _ _ _⟩

end Loop

section Splits
variable {alloc : ℕ → Bool} {ws : List Text} {k : ℕ} {slots : List Slot} {m : Storage}
  {scan command : Text}

theorem splitLoop_splits_iff {fuel : ℕ} (hfuel : scan.length < fuel)
    (h : Splitting alloc ws k slots m) :
    SplitsTo (ws ++ words blank scan) (splitLoop alloc fuel scan slots ws.length m) ↔
      GrowsAgain alloc (ws ++ words blank scan).length := by
  induction fuel generalizing scan ws k slots m with
  | zero => omega
  | succ fuel ih =>
    cases hs : strtokR scan with
    | none =>
      rw [strtokR_none hs,List.append_nil]
      simp only [splitLoop,hs]
      exact iff_of_true h.finish (growsAgain_of_granted h.room h.granted)
    | some r =>
      obtain ⟨token,rest⟩ := r
      obtain ⟨hwords,hlt⟩ := strtokR_some hs
      rcases h.grow with ⟨k',slots',m',hgrow,hr⟩ | ⟨hgrow,hfull,hfail⟩
      · by_cases hok : alloc (ws.length + k') = true
        · have hrest : rest.length < fuel := by omega
          have hnext := ih hrest (hr.store token hok)
          rw [List.append_assoc,List.singleton_append,← hwords,List.length_append,
            List.length_singleton] at hnext
          simp only [splitLoop,hs,hgrow,hr.requests,if_pos hok]
          exact hnext
        · simp only [splitLoop,hs,hgrow,hr.requests,if_neg hok]
          refine iff_of_true (hr.refused _) ?_
          exact growsAgain_of_copy hr.grown hr.room hr.granted (by simpa using hok)
      · simp only [splitLoop,hs,hgrow]
        rw [h.refused_iff hfull]
        constructor
        · rintro rfl k hk _ hprev
          rw [hprev _ ?_] at hfail
          · cases hfail
          · have hpow := Nat.pow_le_pow_right (n := 2) (by decide) hk
            simp only [growRequest]
            omega
        · intro hgrows
          by_contra hk
          have hexp := h.exponent
          have hreq : growRequest k = ws.length + k := by
            simp only [growRequest]
            omega
          have hlen : 2 ^ k ≤ (ws ++ words blank scan).length := by
            rw [hwords,List.length_append,List.length_cons]
            omega
          have htrue := hgrows k (by omega) hlen (by rw [hreq]; exact h.granted)
          rw [hreq,hfail] at htrue
          cases htrue

theorem freesStored_start (ws : List Text) {m : Storage} (hm : m.requests ≤ 2) (hf : m.freed = []) :
    FreesStored ws m := by
  refine ⟨0,Nat.zero_le _,hf,?_⟩
  intro j _
  simp only [copyRequest]
  omega

/-- Whatever the allocator refuses, the words are split exactly or everything is freed, unless
it is a vector that has grown and has to grow again. -/
theorem splitCommandArgv_splits_iff (alloc : ℕ → Bool) (command : Text) :
    SplitsTo (words blank command) (splitCommandArgv alloc (some command)) ↔
      GrowsAgain alloc (words blank command).length := by
  have hearly : ∀ i < 2, alloc i = false → GrowsAgain alloc (words blank command).length := by
    intro i hi hfail k hk _ hprev
    rw [hprev i ?_] at hfail
    · cases hfail
    · have hpow := Nat.two_pow_pos k
      simp only [growRequest]
      omega
  by_cases h₀ : alloc 0 = true
  · by_cases h₁ : alloc 1 = true
    · have hstart : Splitting alloc [] 2 (List.replicate argvCapacity .null)
          Storage.start.request.request := by
        refine ⟨le_rfl,Or.inl rfl,by decide,rfl,rfl,?_,by simp [Storage.start,Storage.request],rfl⟩
        intro i hi
        have hi' : i = 0 ∨ i = 1 := by
          simp only [List.length_nil] at hi
          omega
        rcases hi' with rfl | rfl
        · exact h₀
        · exact h₁
      have hloop := splitLoop_splits_iff (Nat.lt_succ_self command.length) hstart
      rw [List.nil_append] at hloop
      simp only [splitCommandArgv,if_pos h₀,if_pos h₁]
      exact hloop
    · simp only [splitCommandArgv,if_pos h₀,if_neg h₁]
      refine iff_of_true ⟨?_,freesStored_start _ le_rfl rfl⟩
        (hearly 1 (by decide) (by simpa using h₁))
      simp [Storage.start,Storage.request]
  · simp only [splitCommandArgv,if_neg h₀]
    refine iff_of_true ⟨?_,freesStored_start _ (by decide) rfl⟩
      (hearly 0 (by decide) (by simpa using h₀))
    simp [Storage.start,Storage.request]

end Splits

/-- Eight words, and no memory for the second time that the vector is full. -/
def eightWords : Text := "a b c d e f g h".toList

theorem eightWords_unsetRead : ¬ SplitsTo (words blank eightWords)
    (splitCommandArgv (fun n => n ≠ growRequest 3) (some eightWords)) := by
  have hnone : (splitCommandArgv (fun n => n ≠ growRequest 3) (some eightWords)).1 = none := by
    decide
  have hread : Slot.unset ∈
      (splitCommandArgv (fun n => n ≠ growRequest 3) (some eightWords)).2.freed := by decide
  rintro ⟨_,hfreed⟩
  rw [hnone] at hfreed
  obtain ⟨n,_,hcopies,_⟩ := hfreed
  rw [hcopies] at hread
  exact unset_not_copied _ hread

end UnixShell.Server
