import Mathlib.Algebra.Order.Group.Nat
import UnixShell.Server.Creation

/-! # Argument vectors and what they own

The requests of `split_command_argv` and `build_demo_argv` are made in turn. Where all are
granted, the vector owns its words. Where one is refused, nothing is left, but for the words
of a demo behind its count; and a vector that was made anew before is read where it was
never written.
-/
namespace UnixShell.Server.Creation
open Foundation
open UnixShell.Parser (blank)

abbrev Blocks := Multiset (ℕ × Object)

/-- The slots of a vector that holds so many words. -/
def capacityFor : ℕ → ℕ
  | 0 => argvCapacity
  | n + 1 => if capacityFor n ≤ n + 1 then 2 * capacityFor n else capacityFor n

def growScript (n : ℕ) : List Object :=
  if capacityFor n ≤ n + 1 then [.argv (2 * capacityFor n)] else []

/-- The requests of the token loop for the words as they are copied, from an index on. -/
def wordScript : ℕ → List Text → List Object
  | _, [] => []
  | n, w :: ws => growScript n ++ .word w :: wordScript (n + 1) ws

def spelled (spell : ℕ → Text → Text) : ℕ → List Text → List Text
  | _, [] => []
  | n, w :: ws => spell n w :: spelled spell (n + 1) ws

def vectorScript (command : Text) (ws : List Text) : List Object :=
  [.line command] ++ ([.argv argvCapacity] ++ wordScript 0 ws)

/-- The request for a vector made anew that was made anew before. -/
def regrown : Object → Bool
  | .argv capacity => 8 < capacity
  | _ => false

theorem lt_capacityFor (n : ℕ) : n < capacityFor n := by
  induction n with
  | zero => decide
  | succ n ih =>
    rw [capacityFor]
    split_ifs with hfull <;> omega

theorem four_le_capacityFor (n : ℕ) : 4 ≤ capacityFor n := by
  induction n with
  | zero => decide
  | succ n ih =>
    rw [capacityFor]
    split_ifs <;> omega

@[simp] theorem spelled_id (n : ℕ) (ws : List Text) : spelled (fun _ w => w) n ws = ws := by
  induction ws generalizing n with
  | nil => rfl
  | cons w ws ih => rw [spelled,ih]

@[simp] theorem spelled_length (spell : ℕ → Text → Text) (n : ℕ) (ws : List Text) :
    (spelled spell n ws).length = ws.length := by
  induction ws generalizing n with
  | nil => rfl
  | cons w ws ih => rw [spelled,List.length_cons,ih,List.length_cons]

/-- A copy in a vector. -/
def copyEntry (c : ℕ × Object) : Entry := .copy c.1 c.2

/-- What a slot holds that was never stored to. -/
def spare (cleared : Bool) (capacity : ℕ) : Entry :=
  if cleared = true ∨ capacity ≤ 4 then .null else .unset

/-- The blocks of a vector that holds these copies. -/
def vectorBlocks (v : Argv) (cs : List (ℕ × Object)) : Blocks :=
  {(v.block,.argv v.entries.length)} + (cs : Blocks)

/-- The copies and a NULL behind them. -/
def Ended (v : Argv) (cs : List (ℕ × Object)) : Prop :=
  ∃ more, v.entries = cs.map copyEntry ++ .null :: more

/-- The vector in the token loop. -/
def Filled (cleared : Bool) (v : Argv) (cs : List (ℕ × Object)) : Prop :=
  v.entries = cs.map copyEntry ++
    List.replicate (capacityFor cs.length - cs.length) (spare cleared (capacityFor cs.length))

/-- There is room for another copy and the NULL behind it. -/
def Roomy (cleared : Bool) (v : Argv) (cs : List (ℕ × Object)) : Prop :=
  ∃ e, v.entries = cs.map copyEntry ++ e ::
    List.replicate (capacityFor (cs.length + 1) - (cs.length + 1))
      (spare cleared (capacityFor (cs.length + 1)))

/-- The refused request at which the freeing loop reads what was never written. -/
def spoils (cleared : Bool) (k : Object) : Bool := !cleared && regrown k

/-- Where something was misread, nothing else is known. -/
def Unless (misread : Bool) (p : Heap Object → Prop) (h : Heap Object) : Prop :=
  if misread = true then h.faults ≠ [] else p h

theorem Unless.of {misread : Bool} {p : Heap Object → Prop} {h : Heap Object} (hp : p h)
    (hm : misread = false) : Unless misread p h := by
  rw [Unless,if_neg (by simp [hm])]
  exact hp

theorem Unless.spared {misread : Bool} {p : Heap Object → Prop} {h : Heap Object}
    (hu : Unless misread p h) (hm : misread = false) : p h := by
  rwa [Unless,if_neg (by simp [hm])] at hu

theorem Unless.faulty {misread : Bool} {p : Heap Object → Prop} {h : Heap Object}
    (hu : Unless misread p h) (hm : misread = true) : h.faults ≠ [] := by
  rwa [Unless,if_pos hm] at hu

theorem Unless.imp {misread : Bool} {p q : Heap Object → Prop} {h : Heap Object}
    (hu : Unless misread p h) (hpq : p h → q h) : Unless misread q h := by
  unfold Unless at hu ⊢
  split_ifs at hu ⊢
  · exact hu
  · exact hpq hu

theorem Unless.free {misread : Bool} {p q : Heap Object → Prop} {h : Heap Object} {b : ℕ}
    (hu : Unless misread p h) (hpq : p h → q (h.free b)) : Unless misread q (h.free b) := by
  unfold Unless at hu ⊢
  split_ifs at hu ⊢
  · exact Heap.free_faulty hu b
  · exact hpq hu

section Freeing
variable {h : Heap Object} {v : Argv} {cs : List (ℕ × Object)} {bs : Blocks} {more : List Entry}

theorem freeEntries_owns {b : ℕ} {k : Object} (hb : (b,k) ∈ bs) (ho : h.Owns ((cs : Blocks) + bs)) :
    (freeEntries b h (cs.map copyEntry ++ .null :: more)).Owns bs := by
  have htouch : ∀ {h : Heap Object} {cs : Blocks}, h.Owns (cs + bs) → h.touch b = h := fun ho =>
    ho.touch (Multiset.mem_add.mpr (.inr hb))
  induction cs generalizing h with
  | nil =>
    rw [List.map_nil,List.nil_append,freeEntries,htouch ho]
    exact ho.congr (zero_add bs)
  | cons c cs ih =>
    rw [List.map_cons,List.cons_append,copyEntry,freeEntries,htouch ho]
    rw [← Multiset.cons_coe,← Multiset.singleton_add,add_assoc] at ho
    exact ih ho.free

theorem freeEntries_faulty {b : ℕ} (hf : h.faults ≠ []) (entries : List Entry) :
    (freeEntries b h entries).faults ≠ [] := by
  induction entries generalizing h with
  | nil => exact Heap.stray_faulty _ _
  | cons e entries ih =>
    cases e with
    | unset => exact ih (Heap.stray_faulty _ _)
    | null => exact Heap.touch_faulty hf b
    | copy c _ => exact ih (Heap.free_faulty (Heap.touch_faulty hf b) c)

/-- The loop runs into a slot that was never written. -/
theorem freeEntries_unset (b : ℕ) (h : Heap Object) (cs : List (ℕ × Object)) (more : List Entry) :
    (freeEntries b h (cs.map copyEntry ++ .unset :: more)).faults ≠ [] := by
  induction cs generalizing h with
  | nil => exact freeEntries_faulty (Heap.stray_faulty _ _) more
  | cons c cs ih => exact ih _

theorem freeStringArray_owns (he : Ended v cs) (ho : h.Owns (vectorBlocks v cs + bs)) :
    (freeStringArray v h).Owns bs := by
  obtain ⟨more,he⟩ := he
  rw [freeStringArray,he]
  refine Heap.Owns.free (b := (v.block,.argv v.entries.length))
    (freeEntries_owns (Multiset.mem_add.mpr (.inl (Multiset.mem_singleton_self _)))
      (ho.congr ?_))
  rw [vectorBlocks]
  abel

end Freeing

section Vector
variable {alloc : ℕ → Bool} {cleared : Bool} {h : Heap Object} {v : Argv}
variable {cs : List (ℕ × Object)} {bs : Blocks}

theorem set_entry (cs : List (ℕ × Object)) (e e' : Entry) (more : List Entry) :
    (cs.map copyEntry ++ e :: more).set cs.length e' = cs.map copyEntry ++ e' :: more := by
  rw [List.set_append_right _ _ (List.length_map _).le,List.length_map,Nat.sub_self,
    List.set_cons_zero]

theorem store_owns {i : ℕ} (e : Entry) (hi : i < v.entries.length)
    (ho : h.Owns (vectorBlocks v cs + bs)) : (v.store i e h).2 = h := by
  rw [Argv.store,if_pos hi]
  exact ho.touch (b := (v.block,.argv v.entries.length))
    (by simp [vectorBlocks])

@[simp] theorem store_block (v : Argv) (i : ℕ) (e : Entry) (h : Heap Object) :
    (v.store i e h).1.block = v.block := rfl

@[simp] theorem store_length (v : Argv) (i : ℕ) (e : Entry) (h : Heap Object) :
    (v.store i e h).1.entries.length = v.entries.length :=
  List.length_set

@[simp] theorem vectorBlocks_store (v : Argv) (i : ℕ) (e : Entry) (h : Heap Object)
    (cs : List (ℕ × Object)) : vectorBlocks (v.store i e h).1 cs = vectorBlocks v cs := by
  simp [vectorBlocks]

/-- A copy goes into the vector. -/
theorem store_copy {c : ℕ × Object} (hi : cs.length < v.entries.length)
    (ho : h.Owns ({c} + (vectorBlocks v cs + bs))) :
    (v.store cs.length (copyEntry c) h).2 = h ∧
      h.Owns (vectorBlocks (v.store cs.length (copyEntry c) h).1 (cs ++ [c]) + bs) := by
  have hown : h.Owns (vectorBlocks v (cs ++ [c]) + bs) := by
    refine ho.congr ?_
    rw [vectorBlocks,vectorBlocks,← Multiset.coe_add,Multiset.coe_singleton]
    abel
  rw [vectorBlocks_store]
  exact ⟨store_owns _ hi hown,hown⟩

/-- The NULL in place of a copy that failed ends the vector. -/
theorem store_null {i : ℕ} (hi : i < v.entries.length) (he : Ended (v.store i .null h).1 cs)
    (ho : h.Owns (vectorBlocks v cs + bs)) :
    (freeStringArray (v.store i .null h).1 (v.store i .null h).2).requests = h.requests ∧
      (freeStringArray (v.store i .null h).1 (v.store i .null h).2).Owns bs := by
  rw [store_owns .null hi ho]
  refine ⟨freeStringArray_requests _ _,freeStringArray_owns he ?_⟩
  rw [vectorBlocks_store]
  exact ho

theorem Filled.length (hf : Filled cleared v cs) : v.entries.length = capacityFor cs.length := by
  have hroom := lt_capacityFor cs.length
  rw [hf,List.length_append,List.length_map,List.length_replicate]
  omega

theorem Roomy.length (hr : Roomy cleared v cs) :
    v.entries.length = capacityFor (cs.length + 1) := by
  obtain ⟨e,he⟩ := hr
  have hroom := lt_capacityFor (cs.length + 1)
  rw [he,List.length_append,List.length_map,List.length_cons,List.length_replicate]
  omega

theorem Roomy.inBounds (hr : Roomy cleared v cs) : cs.length < v.entries.length :=
  hr.length ▸ (Nat.lt_succ_self _).trans (lt_capacityFor _)

theorem Roomy.copy (hr : Roomy cleared v cs) (c : ℕ × Object) (h : Heap Object) :
    Filled cleared (v.store cs.length (copyEntry c) h).1 (cs ++ [c]) := by
  obtain ⟨e,he⟩ := hr
  have hlen : (cs ++ [c]).length = cs.length + 1 := List.length_append
  rw [Filled,hlen,List.map_append,List.append_assoc]
  show v.entries.set cs.length _ = _
  rw [he,set_entry]
  rfl

theorem Roomy.null (hr : Roomy cleared v cs) (h : Heap Object) :
    Ended (v.store cs.length .null h).1 cs := by
  obtain ⟨e,he⟩ := hr
  exact ⟨_,by rw [Argv.store,he,set_entry]⟩

/-- A vector as `calloc` makes it. -/
theorem filled_start (cleared : Bool) (b : ℕ) :
    Filled cleared ⟨b,List.replicate argvCapacity .null⟩ [] := by
  have hspare : spare cleared 4 = .null := if_pos (Or.inr le_rfl)
  show List.replicate 4 Entry.null = List.replicate 4 (spare cleared 4)
  rw [hspare]

/-- The vector is full but for its last slot, and is made anew, or there was room. -/
theorem grow_follows (hf : Filled cleared v cs) (ho : h.Owns (vectorBlocks v cs + bs)) :
    Follows alloc h.requests (growScript cs.length)
      (fun v' h' => Roomy cleared v' cs ∧ h'.Owns (vectorBlocks v' cs + bs))
      (fun _ h' => h'.Owns (vectorBlocks v cs + bs)) (grow alloc cleared v cs.length h) := by
  have hroom := lt_capacityFor cs.length
  have hlen := hf.length
  unfold grow growScript
  by_cases hfull : capacityFor cs.length ≤ cs.length + 1
  · have hlast : capacityFor cs.length - cs.length = 1 := by omega
    have hnext : capacityFor (cs.length + 1) = 2 * capacityFor cs.length := if_pos hfull
    have hfour := four_le_capacityFor cs.length
    rw [if_pos hfull,if_pos (hlen ▸ hfull),hlen]
    refine (Follows.ask ho (.argv (2 * capacityFor cs.length))).bind
      (fun b h' he ho' => ?_) (fun k h' he _ ho' => ?_)
    · rw [he]
      have hentries : ∃ e, (if cleared then
            v.entries.take cs.length ++ List.replicate (2 * capacityFor cs.length - cs.length) .null
          else v.entries ++ List.replicate (capacityFor cs.length) .unset) =
          cs.map copyEntry ++ e ::
            List.replicate (2 * capacityFor cs.length - (cs.length + 1))
              (spare cleared (2 * capacityFor cs.length)) := by
        rw [hf,hlast]
        cases cleared with
        | true =>
          refine ⟨.null,?_⟩
          have hsplit : 2 * capacityFor cs.length - cs.length =
              2 * capacityFor cs.length - (cs.length + 1) + 1 := by omega
          rw [if_pos rfl,List.take_append_of_le_length (List.length_map _).ge,
            List.take_of_length_le (List.length_map _).le,hsplit,List.replicate_succ]
          rfl
        | false =>
          have hspare : spare false (2 * capacityFor cs.length) = .unset :=
            if_neg (by simp; omega)
          have hnew : 2 * capacityFor cs.length - (cs.length + 1) = capacityFor cs.length := by
            omega
          refine ⟨spare false (capacityFor cs.length),?_⟩
          rw [if_neg Bool.false_ne_true,hspare,hnew,List.append_assoc]
          rfl
      obtain ⟨e,hentries⟩ := hentries
      have hr : Roomy cleared ⟨b,cs.map copyEntry ++ e ::
          List.replicate (2 * capacityFor cs.length - (cs.length + 1))
            (spare cleared (2 * capacityFor cs.length))⟩ cs := ⟨e,by rw [hnext]⟩
      have hreq : h'.requests = (h'.free v.block).requests := (Heap.free_requests _ _).symm
      simp only [hentries]
      rw [hreq]
      refine Follows.pure ⟨hr,Heap.Owns.free (b := (v.block,.argv v.entries.length))
        (ho'.congr ?_)⟩
      have hlen' := hr.length
      rw [hnext] at hlen'
      rw [vectorBlocks,vectorBlocks,hlen']
      abel
    · rw [he]
      exact ⟨rfl,rfl,ho'⟩
  · have hnext : capacityFor (cs.length + 1) = capacityFor cs.length := if_neg hfull
    rw [if_neg hfull,if_neg (hlen ▸ hfull)]
    have hsplit : capacityFor cs.length - cs.length =
        capacityFor cs.length - (cs.length + 1) + 1 := by omega
    refine Follows.pure ⟨⟨spare cleared (capacityFor cs.length),?_⟩,ho⟩
    rw [hf,hsplit,List.replicate_succ,hnext]

/-- What the freeing loop finds in a vector that could not be made anew. -/
theorem freeStringArray_full (hf : Filled cleared v cs)
    (hfull : capacityFor cs.length ≤ cs.length + 1) (ho : h.Owns (vectorBlocks v cs + bs)) :
    Unless (spoils cleared (.argv (2 * capacityFor cs.length))) (·.Owns bs)
      (freeStringArray v h) := by
  have hroom := lt_capacityFor cs.length
  have hfour := four_le_capacityFor cs.length
  have hlast : capacityFor cs.length - cs.length = 1 := by omega
  rw [Filled,hlast,List.replicate_one] at hf
  by_cases hspare : cleared = true ∨ capacityFor cs.length ≤ 4
  · rw [spare,if_pos hspare] at hf
    refine Unless.of (freeStringArray_owns ⟨[],hf⟩ ho) ?_
    rcases hspare with rfl | hle
    · rfl
    · simp [spoils,regrown]
      intro _
      omega
  · rw [spare,if_neg hspare] at hf
    rw [not_or] at hspare
    have hspoils : spoils cleared (.argv (2 * capacityFor cs.length)) = true := by
      simp [spoils,regrown,hspare.1]
      omega
    rw [Unless,if_pos hspoils,freeStringArray,hf]
    exact Heap.free_faulty (freeEntries_unset _ _ _ _) _

theorem mem_growScript {k : Object} {n : ℕ} (hk : k ∈ growScript n) :
    capacityFor n ≤ n + 1 ∧ k = .argv (2 * capacityFor n) := by
  unfold growScript at hk
  split_ifs at hk with hfull
  · exact ⟨hfull,List.mem_singleton.mp hk⟩
  · cases hk

theorem mem_wordScript {k : Object} {n : ℕ} {ws : List Text} (hk : k ∈ wordScript n ws) :
    (∃ c, k = .argv c) ∨ ∃ w, k = .word w := by
  induction ws generalizing n with
  | nil => cases hk
  | cons w ws ih =>
    rcases List.mem_append.mp hk with hk | hk
    · exact Or.inl ⟨_,(mem_growScript hk).2⟩
    · rcases List.mem_cons.mp hk with rfl | hk
      · exact Or.inr ⟨w,rfl⟩
      · exact ih hk

/-- The token loop. -/
theorem fill_follows {spell : ℕ → Text → Text} {line : ℕ} {k : Object} {fuel : ℕ} {scan : Text}
    (hfuel : scan.length < fuel) (hf : Filled cleared v cs) (hline : (line,k) ∈ bs)
    (ho : h.Owns (vectorBlocks v cs + bs)) :
    Follows alloc h.requests (wordScript cs.length (spelled spell cs.length (words blank scan)))
      (fun p h' => ∃ ds, ds.map Prod.snd =
          (spelled spell cs.length (words blank scan)).map .word ∧
        Filled cleared p.1 (cs ++ ds) ∧ p.2 = (cs ++ ds).length ∧
        h'.Owns (vectorBlocks p.1 (cs ++ ds) + bs))
      (fun k h' => Unless (spoils cleared k) (·.Owns bs) h')
      (fill alloc cleared spell line fuel scan v cs.length h) := by
  induction fuel generalizing scan v cs h with
  | zero => exact absurd hfuel (Nat.not_lt_zero _)
  | succ fuel ih =>
    have htouch : h.touch line = h :=
      ho.touch (b := (line,k)) (Multiset.mem_add.mpr (.inr hline))
    rw [fill,htouch]
    cases hs : strtokR scan with
    | none =>
      rw [strtokR_none hs]
      exact Follows.pure ⟨[],rfl,by simpa using hf,by simp,by simpa using ho⟩
    | some r =>
      obtain ⟨token,rest⟩ := r
      obtain ⟨hw,hrest⟩ := strtokR_some hs
      rw [hw,spelled,wordScript]
      refine (grow_follows hf ho).bind (fun v' h' he hm => ?_) (fun k h' he hk ho' => ?_)
      · simp only [he]
        obtain ⟨hr,ho'⟩ := hm
        refine (Follows.ask ho' (.word (spell cs.length token))).bind
          (fun b h'' he' hm => ?_) (fun k h'' he' hk ho'' => ?_)
        · simp only [he']
          obtain ⟨hstore,hown⟩ := store_copy hr.inBounds hm
          have hnext := ih (Nat.lt_of_lt_of_le hrest (Nat.lt_succ_iff.mp hfuel))
            (hr.copy _ h'') hown
          rw [List.length_append,List.length_singleton] at hnext
          simp only [copyEntry] at hstore hnext
          rw [hstore]
          refine hnext.mono (fun p h₃ hm => ?_) (fun _ _ _ hs => hs)
          obtain ⟨ds,hds,hfilled,hcount,ho₃⟩ := hm
          rw [List.append_assoc] at hfilled hcount ho₃
          exact ⟨(b,_) :: ds,congrArg _ hds,hfilled,hcount,ho₃⟩
        · simp only [he']
          obtain ⟨hreq,hfreed⟩ := store_null hr.inBounds (hr.null h'') ho''
          rw [List.mem_singleton.mp hk]
          exact ⟨trivial,hreq,Unless.of hfreed (Bool.and_false _)⟩
      · simp only [he]
        obtain ⟨hfull,rfl⟩ := mem_growScript hk
        exact ⟨trivial,freeStringArray_requests _ _,freeStringArray_full hf hfull ho'⟩

/-- A vector with these objects, its own block among them. -/
def Stocked (v : Argv) (os : List Object) (b : Blocks) : Prop :=
  ∃ cs, Ended v cs ∧ b = vectorBlocks v cs ∧
    os = .argv v.entries.length :: cs.map Prod.snd

theorem Stocked.objects {os : List Object} {b : Blocks} (h : Stocked v os b) :
    b.map Prod.snd = os := by
  obtain ⟨cs,_,rfl,rfl⟩ := h
  rfl

theorem Stocked.free {os : List Object} {b : Blocks} (hs : Stocked v os b) (ho : h.Owns (b + bs)) :
    (freeStringArray v h).Owns bs := by
  obtain ⟨cs,he,rfl,rfl⟩ := hs
  exact freeStringArray_owns he ho

/-- Objects that are live, and that nobody knows any more. -/
def Left (os : List Object) (bs : Blocks) (h : Heap Object) : Prop :=
  ∃ lost : Blocks, lost.map Prod.snd = os ∧ h.Owns (lost + bs)

theorem Left.nothing (ho : h.Owns bs) : Left [] bs h := ⟨0,rfl,ho.congr (zero_add bs).symm⟩

theorem Left.free {os : List Object} {c : ℕ × Object} (hl : Left os ({c} + bs) h) :
    Left os bs (h.free c.1) := by
  obtain ⟨lost,hos,ho⟩ := hl
  exact ⟨lost,hos,Heap.Owns.free (b := c) (ho.congr (by abel))⟩

/-- The store behind the copies ends the vector. -/
theorem ended_store {e : Entry} {more : List Entry} (he : v.entries = cs.map copyEntry ++ e :: more)
    (h : Heap Object) : Ended (v.store cs.length .null h).1 cs :=
  ⟨more,by rw [Argv.store,he,set_entry]⟩

theorem inBounds_of {e : Entry} {more : List Entry}
    (he : v.entries = cs.map copyEntry ++ e :: more) : cs.length < v.entries.length := by
  rw [he,List.length_append,List.length_map,List.length_cons]
  omega

/-- The vector is as long as its words need. -/
theorem Filled.ended (hf : Filled cleared v cs) :
    ∃ e more, v.entries = cs.map copyEntry ++ e :: more := by
  have hroom := lt_capacityFor cs.length
  have hsplit : capacityFor cs.length - cs.length =
      capacityFor cs.length - (cs.length + 1) + 1 := by omega
  rw [Filled,hsplit,List.replicate_succ] at hf
  exact ⟨_,_,hf⟩

theorem splitCommandArgv_follows (command : Text) (ho : h.Owns bs) :
    Follows alloc h.requests (vectorScript command (words blank command))
      (fun v h' => ∃ b, Stocked v (.argv (capacityFor (words blank command).length) ::
        (words blank command).map .word) b ∧ h'.Owns (b + bs))
      (fun k h' => Unless (regrown k) (·.Owns bs) h') (splitCommandArgv alloc command h) := by
  unfold splitCommandArgv vectorScript
  refine (Follows.ask ho (.line command)).bind (fun line h₁ he ho₁ => ?_)
    (fun k h₁ he hk ho₁ => ?_)
  · simp only [he]
    refine (Follows.ask ho₁ (.argv argvCapacity)).bind (fun b h₂ he₂ ho₂ => ?_)
      (fun k h₂ he₂ hk ho₂ => ?_)
    · simp only [he₂]
      have hline : (line,Object.line command) ∈ ({(line,.line command)} + bs : Blocks) :=
        Multiset.mem_add.mpr (.inl (Multiset.mem_singleton_self _))
      have hfill := @fill_follows alloc _ _ _ [] _ (fun _ w => w) _ _ _ _
        (Nat.lt_succ_self command.length) (filled_start false b) hline
        (ho₂.congr (by simp [vectorBlocks,argvCapacity]))
      rw [spelled_id,List.length_nil] at hfill
      rw [← List.append_nil (wordScript 0 _)]
      refine hfill.bind (fun p h₃ he₃ hm => ?_) (fun k h₃ he₃ hk hs => ?_)
      · obtain ⟨v,argc⟩ := p
        obtain ⟨ds,hds,hfilled,rfl,ho₃⟩ := hm
        simp only [he₃]
        rw [List.nil_append] at hfilled ho₃ ⊢
        have hlen : ds.length = (words blank command).length := by
          rw [← List.length_map (f := Prod.snd),hds,List.length_map]
        obtain ⟨e,more,hv⟩ := hfilled.ended
        rw [store_owns _ (inBounds_of hv) ho₃,← Heap.free_requests h₃ line]
        refine Follows.pure ⟨vectorBlocks v ds,⟨ds,ended_store hv h₃,by rw [vectorBlocks_store],?_⟩,
          Heap.Owns.free (b := (line,.line command)) (ho₃.congr (by abel))⟩
        rw [store_length,hfilled.length,hlen,hds]
      · simp only [he₃]
        refine ⟨trivial,Heap.free_requests _ _,?_⟩
        have hspoils : spoils false k = regrown k := Bool.true_and _
        rw [hspoils] at hs
        exact hs.free fun ho' => ho'.free
    · simp only [he₂]
      rw [List.mem_singleton.mp hk]
      exact ⟨trivial,Heap.free_requests _ _,Unless.of ho₂.free rfl⟩
  · simp only [he]
    rw [List.mem_singleton.mp hk]
    exact ⟨trivial,trivial,Unless.of ho₁ rfl⟩

/-- What a demo's vector holds in the end, for its words as they are copied. -/
def demoObjects : List Text → List Object
  | [] => []
  | [w] => [.word w,.count]
  | w :: count :: ws => .word w :: (if Counts count then .word count else .count) :: ws.map .word

def countScript : List Text → List Object
  | _ :: count :: _ => if Counts count then [] else [.count]
  | _ => [.count]

/-- When there is no memory for the default count, the words behind it are not found again. -/
def demoLost (ws : List Text) : Object → List Object
  | .count => (ws.drop 2).map .word
  | _ => []

theorem storeCount_follows {e : Entry} {more : List Entry}
    (he : v.entries = cs.map copyEntry ++ e :: more) (ho : h.Owns (vectorBlocks v cs + bs)) :
    Follows alloc h.requests [.count]
      (fun v' h' => ∃ b, v'.entries = cs.map copyEntry ++ copyEntry (b,.count) :: more ∧
        h'.Owns (vectorBlocks v' (cs ++ [(b,.count)]) + bs))
      (fun _ h' => h'.Owns bs) (storeCount alloc v cs.length h) := by
  unfold storeCount
  refine (Follows.ask ho .count).bind (fun b h' hask ho' => ?_) (fun k h' hask _ ho' => ?_)
  · simp only [hask]
    obtain ⟨hstore,hown⟩ := store_copy (inBounds_of he) ho'
    simp only [copyEntry] at hstore hown
    rw [hstore]
    refine Follows.pure ⟨b,?_,hown⟩
    rw [Argv.store,he,set_entry]
    rfl
  · simp only [hask]
    exact ⟨trivial,store_null (inBounds_of he) (ended_store he h') ho'⟩

/-- The count of a demo, where the vector holds a word at least. -/
theorem countIterations_follows {ws : List Text} (hf : Filled true v cs) (hne : ws ≠ [])
    (hcs : cs.map Prod.snd = ws.map .word) (ho : h.Owns (vectorBlocks v cs + bs)) :
    Follows alloc h.requests (countScript ws)
      (fun p h' => ∃ ds e more, p.1.entries = ds.map copyEntry ++ e :: more ∧ p.2 = ds.length ∧
        ds.map Prod.snd = demoObjects ws ∧ p.1.entries.length = capacityFor ws.length ∧
        h'.Owns (vectorBlocks p.1 ds + bs))
      (fun k h' => Left (demoLost ws k) bs h') (countIterations alloc v cs.length h) := by
  have hlen : cs.length = ws.length := by
    rw [← List.length_map (f := Prod.snd),hcs,List.length_map]
  have hvlen : v.entries.length = capacityFor ws.length := hlen ▸ hf.length
  unfold countIterations
  cases ws with
  | nil => exact absurd rfl hne
  | cons w ws =>
    cases cs with
    | nil => cases hlen
    | cons c cs =>
      obtain ⟨hc,hcs⟩ := List.cons.inj hcs
      cases ws with
      | nil =>
        rw [List.map_eq_nil_iff.mp hcs] at hf ho ⊢
        have he : v.entries = [c].map copyEntry ++ spare true 4 ::
            List.replicate 2 (spare true 4) := hf
        have hone : ¬ 2 ≤ [c].length := (by decide : ¬ 2 ≤ 1)
        rw [if_neg hone]
        refine (storeCount_follows he ho).bind (l := []) (fun v' h' hcount hm => ?_)
          (fun k h' hcount hk hs => ?_)
        · simp only [hcount]
          obtain ⟨b,he',ho'⟩ := hm
          refine Follows.pure ⟨[c,(b,.count)],_,_,he',rfl,congrArg (· :: [Object.count]) hc,?_,ho'⟩
          rw [he',← hvlen,he]
          rfl
        · simp only [hcount]
          rw [List.mem_singleton.mp hk]
          exact ⟨trivial,trivial,Left.nothing hs⟩
      | cons count ws =>
        cases cs with
        | nil => cases hcs
        | cons d cs =>
          obtain ⟨hd,hcs⟩ := List.cons.inj hcs
          obtain ⟨e,more,he⟩ := hf.ended
          have he' : v.entries = [c].map copyEntry ++ copyEntry d ::
              (cs.map copyEntry ++ e :: more) := he
          have hsecond : (v.entries[1]? : Option Entry) = some (.copy d.1 d.2) := by
            rw [he']
            rfl
          have htwo : 2 ≤ (c :: d :: cs).length := Nat.le_add_left 2 cs.length
          have hblock : h.touch v.block = h :=
            ho.touch (b := (v.block,.argv v.entries.length)) (by simp [vectorBlocks])
          have hword : h.touch d.1 = h := ho.touch (b := d) (by simp [vectorBlocks])
          rw [if_pos htwo]
          simp only [hsecond,hblock,hword,hd,Object.string,countScript]
          split_ifs with hcounts
          · refine Follows.pure ⟨_,e,more,he,rfl,?_,hvlen,ho⟩
            simp only [demoObjects,if_pos hcounts,List.map_cons,hc,hd,hcs]
          · have hfree : (h.free d.1).Owns (vectorBlocks v [c] + ((cs : Blocks) + bs)) := by
              refine Heap.Owns.free (b := d) (ho.congr ?_)
              rw [vectorBlocks,vectorBlocks,← Multiset.cons_coe,← Multiset.cons_coe,
                Multiset.coe_singleton,← Multiset.singleton_add,← Multiset.singleton_add]
              abel
            have hstored := @storeCount_follows alloc _ _ _ _ _ _ he' hfree
            rw [List.length_singleton] at hstored
            rw [← Heap.free_requests h d.1]
            refine hstored.bind (l := []) (fun v' h' hcount hm => ?_)
              (fun k h' hcount hk hs => ?_)
            · simp only [hcount]
              obtain ⟨b,hv',ho'⟩ := hm
              refine Follows.pure ⟨c :: (b,.count) :: cs,e,more,hv',rfl,?_,?_,ho'.congr ?_⟩
              · simp only [demoObjects,if_neg hcounts,List.map_cons,hc,hcs]
              · rw [hv',← hvlen,he']
                simp
              · rw [vectorBlocks,vectorBlocks,← Multiset.cons_coe,← Multiset.cons_coe]
                simp only [← Multiset.singleton_add,← Multiset.coe_add,Multiset.coe_singleton]
                abel
            · simp only [hcount]
              rw [List.mem_singleton.mp hk]
              exact ⟨trivial,trivial,cs,by rw [Multiset.map_coe,hcs]; rfl,hs⟩

/-- The first word of a command that is taken for the demo is taken for it as well. -/
theorem strtokR_demo {command : Text} (hdemo : isDemoCommand (some command) = true) :
    ∃ token rest, strtokR command = some (token,rest) ∧ isDemoCommand (some token) = true := by
  cases command with
  | nil => cases hdemo
  | cons c s =>
    have hc : blank c = false := by
      by_contra hb
      rw [Bool.not_eq_false] at hb
      have hne : c ≠ '.' ∧ c ≠ 'd' := by
        constructor <;> rintro rfl <;> exact absurd hb (by decide)
      simp [isDemoCommand,List.isPrefixOf,hne.1.symm,hne.2.symm] at hdemo
    obtain ⟨w,ys,hsplit,hw,hys,hwords⟩ := exists_first_word hc s
    cases hs : strtokR (c :: s) with
    | none => exact absurd (strtokR_none hs) (words_ne_nil hc s)
    | some r =>
      obtain ⟨rfl,-⟩ := List.cons.inj ((strtokR_some hs).1.symm.trans hwords)
      refine ⟨_,_,rfl,?_⟩
      rw [hsplit,isDemoCommand_word hw hys] at hdemo
      rw [← List.append_nil r.1,isDemoCommand_word hw (by simp)]
      exact hdemo

theorem buildDemoArgv_follows {command : Text} (hdemo : isDemoCommand (some command) = true)
    (ho : h.Owns bs) :
    Follows alloc h.requests
      (vectorScript command (spelled demoCopy 0 (words blank command)) ++
        countScript (spelled demoCopy 0 (words blank command)))
      (fun v h' => ∃ b, Stocked v (.argv (capacityFor (words blank command).length) ::
        demoObjects (spelled demoCopy 0 (words blank command))) b ∧ h'.Owns (b + bs))
      (fun k h' => Left (demoLost (spelled demoCopy 0 (words blank command)) k) bs h')
      (buildDemoArgv alloc command h) := by
  obtain ⟨token,rest,htoken,hfirst⟩ := strtokR_demo hdemo
  have hwords : spelled demoCopy 0 (words blank command) ≠ [] := by
    rw [(strtokR_some htoken).1]
    exact List.cons_ne_nil _ _
  unfold buildDemoArgv
  refine (Follows.ask ho (.line command)).bind (fun line h₁ he ho₁ => ?_)
    (fun k h₁ he hk ho₁ => ?_)
  · have htouch : h₁.touch line = h₁ := ho₁.touch (b := (line,.line command))
      (Multiset.mem_add.mpr (.inl (Multiset.mem_singleton_self _)))
    simp only [he,htoken,hfirst,if_true,htouch]
    refine (Follows.ask ho₁ (.argv argvCapacity)).bind (fun b h₂ he₂ ho₂ => ?_)
      (fun k h₂ he₂ hk ho₂ => ?_)
    · simp only [he₂]
      have hline : (line,Object.line command) ∈ ({(line,.line command)} + bs : Blocks) :=
        Multiset.mem_add.mpr (.inl (Multiset.mem_singleton_self _))
      have hfill := @fill_follows alloc _ _ _ [] _ demoCopy _ _ _ _
        (Nat.lt_succ_self command.length) (filled_start true b) hline
        (ho₂.congr (by simp [vectorBlocks,argvCapacity]))
      rw [List.length_nil] at hfill
      refine hfill.bind (fun p h₃ he₃ hm => ?_) (fun k h₃ he₃ hk hs => ?_)
      · obtain ⟨v,argc⟩ := p
        obtain ⟨ds,hds,hfilled,rfl,ho₃⟩ := hm
        simp only [he₃]
        rw [List.nil_append] at hfilled ho₃ ⊢
        have hcount := @countIterations_follows alloc _ _ _ _ _ hfilled hwords hds ho₃
        rw [← List.append_nil (countScript _)]
        refine hcount.bind (fun p h₄ he₄ hm => ?_) (fun k h₄ he₄ hk hs => ?_)
        · obtain ⟨v',argc⟩ := p
          obtain ⟨es,e,more,hv,rfl,hes,hlen,ho₄⟩ := hm
          simp only [he₄]
          rw [store_owns _ (inBounds_of hv) ho₄,← Heap.free_requests h₄ line]
          refine Follows.pure ⟨vectorBlocks v' es,⟨es,ended_store hv h₄,by rw [vectorBlocks_store],
            ?_⟩,Heap.Owns.free (b := (line,.line command)) (ho₄.congr (by abel))⟩
          rw [store_length,hlen,spelled_length,hes]
        · simp only [he₄]
          exact ⟨trivial,Heap.free_requests _ _,hs.free⟩
      · simp only [he₃]
        have hlost : demoLost (spelled demoCopy 0 (words blank command)) k = [] := by
          rcases mem_wordScript hk with ⟨c,rfl⟩ | ⟨w,rfl⟩ <;> rfl
        rw [hlost]
        have ho₃ : h₃.Owns ({(line,.line command)} + bs) := hs.spared rfl
        exact ⟨trivial,Heap.free_requests _ _,Left.nothing ho₃.free⟩
    · simp only [he₂]
      rw [List.mem_singleton.mp hk]
      exact ⟨trivial,Heap.free_requests _ _,Left.nothing ho₂.free⟩
  · simp only [he]
    rw [List.mem_singleton.mp hk]
    exact ⟨trivial,trivial,Left.nothing ho₁⟩

end Vector

end UnixShell.Server.Creation
