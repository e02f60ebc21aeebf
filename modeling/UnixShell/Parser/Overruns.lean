import UnixShell.Parser.Ledger

/-! # Which lines overrun an argument vector

With the slots of the argument vectors in the heap, the parser is without fault whatever
requests fail exactly when every vector that it comes to fill ends with a NULL within its
slots. A vector of a hundred words is stored to behind its end, or is read there when it is
freed.
-/
namespace UnixShell.Parser.Storage
open Foundation

section Faulty
variable {h : Heap Object}

theorem touchEntry_faulty (hf : h.faults ≠ []) (v i : ℕ) : (touchEntry h v i).faults ≠ [] := by
  unfold touchEntry
  split
  · exact Heap.touch_faulty hf v
  · exact Heap.stray_faulty h v

theorem touchEntry_overruns (h : Heap Object) (v : ℕ) {i : ℕ} (hi : maxTokens ≤ i) :
    (touchEntry h v i).faults ≠ [] := by
  rw [touchEntry,if_neg (Nat.not_lt.mpr hi)]
  exact Heap.stray_faulty h v

theorem freeEntries_faulty (hf : h.faults ≠ []) (v i : ℕ) (cs : List (Option Copy)) :
    (freeEntries v i h cs).faults ≠ [] := by
  induction cs generalizing i h with
  | nil => exact touchEntry_faulty hf v i
  | cons c cs ih =>
    cases c with
    | none => exact touchEntry_faulty hf v i
    | some c => exact ih (Heap.free_faulty (touchEntry_faulty hf v i) c.1) (i+1)

theorem touchVector_faulty (hf : h.faults ≠ []) (s : Slot) : (touchVector h s).faults ≠ [] := by
  unfold touchVector
  split
  · exact touchEntry_faulty hf _ _
  · exact hf

theorem freeVector_faulty (hf : h.faults ≠ []) (s : Slot) : (freeVector h s).faults ≠ [] := by
  unfold freeVector
  split
  · exact Heap.free_faulty (freeEntries_faulty hf _ _ _) _
  · exact hf

theorem freeSlot_faulty (hf : h.faults ≠ []) (commands : ℕ) (s : Slot) :
    (freeSlot commands h s).faults ≠ [] :=
  Heap.freePointer_faulty (Heap.freePointer_faulty (Heap.freePointer_faulty
    (freeVector_faulty (Heap.touch_faulty hf commands) s) _) _) _

theorem freeCommands_faulty (hf : h.faults ≠ []) (st : Stored) (count : ℕ) :
    (freeCommands st count h).faults ≠ [] := by
  induction count with
  | zero => exact hf
  | succ n ih =>
    rw [freeCommands,List.range_succ,List.foldl_append]
    exact freeSlot_faulty ih st.commands (st.slots n)

theorem discard_faulty (hf : h.faults ≠ []) (st : Stored) (count : ℕ) :
    (discard st count h).faults ≠ [] :=
  Heap.free_faulty (Heap.free_faulty (freeCommands_faulty hf st count) _) _

variable (alloc : ℕ → Bool)

theorem strdup_faulty (hf : h.faults ≠ []) (t : Text) : (strdup alloc h t).2.faults ≠ [] :=
  Heap.request_faulty hf _ _

theorem parseTokens_faulty (hf : h.faults ≠ []) (commands v fuel : ℕ) (p : Text) (s : Slot) :
    (parseTokens alloc commands v fuel p s h).2.2.faults ≠ [] := by
  induction fuel generalizing p s h with
  | zero => exact hf
  | succ fuel ih =>
    simp only [parseTokens]
    split
    · exact hf
    · split
      · split
        · exact hf
        · split
          · exact hf
          · exact ih (Heap.touch_faulty (strdup_faulty alloc hf _) commands) _ _
      · exact ih (touchEntry_faulty (Heap.touch_faulty (strdup_faulty alloc hf _) commands) v _) _ _

theorem grow_faulty (hf : h.faults ≠ []) (st : Stored) : (grow alloc st h).2.faults ≠ [] := by
  unfold grow
  split
  · cases ha : alloc h.requests with
    | false => exact hf
    | true => exact Heap.free_faulty (Heap.request_faulty hf .commands true) _
  · exact hf

theorem closeCommand_faulty (hf : h.faults ≠ []) (rest : List Text) (st : Stored) :
    (closeCommand rest st h).2.faults ≠ [] := by
  unfold closeCommand
  split_ifs
  · exact Heap.freePointer_faulty hf _
  · exact discard_faulty hf st _
  · exact touchVector_faulty (Heap.touch_faulty hf _) _

theorem fillCommand_faulty (hf : h.faults ≠ []) (trimmed : Text) (rest : List Text) (st : Stored) :
    (fillCommand alloc trimmed rest st h).2.faults ≠ [] := by
  have hask := Heap.request_faulty (Heap.touch_faulty hf st.commands) Object.argv
  unfold fillCommand
  split
  next h' hr => exact discard_faulty (by simpa [hr] using hask (alloc h.requests)) _ _
  next v h' hr =>
    have hf' : h'.faults ≠ [] := by simpa [hr] using hask (alloc h.requests)
    have htokens := parseTokens_faulty alloc hf' st.commands v (trimmed.length+1) trimmed (.fresh v)
    split
    next s h'' hp =>
      rw [hp] at htokens
      exact discard_faulty htokens _ _
    next s h'' hp =>
      rw [hp] at htokens
      exact closeCommand_faulty htokens _ _

theorem parseSegment_faulty (hf : h.faults ≠ []) (segment : Text) (rest : List Text)
    (st : Stored) : (parseSegment alloc segment rest st h).2.faults ≠ [] := by
  have hgrow := grow_faulty alloc hf st
  unfold parseSegment
  split
  · exact discard_faulty hf st _
  · split
    next h' hg =>
      rw [hg] at hgrow
      exact discard_faulty hgrow st _
    next st' h' hg =>
      rw [hg] at hgrow
      exact fillCommand_faulty alloc hgrow _ _ _

theorem finishLine_faulty (hf : h.faults ≠ []) (st : Stored) :
    (finishLine st h).2.faults ≠ [] := by
  unfold finishLine
  split_ifs
  · exact Heap.free_faulty (Heap.free_faulty hf _) _
  · exact discard_faulty hf st _
  · exact hf

theorem parseSegments_faulty (hf : h.faults ≠ []) (segs : List Text) (st : Stored) :
    (parseSegments alloc segs st h).2.faults ≠ [] := by
  induction segs generalizing st h with
  | nil => exact finishLine_faulty hf st
  | cons segment rest ih =>
    have hseg := parseSegment_faulty alloc hf segment rest st
    unfold parseSegments
    split
    next h' hp => rwa [hp] at hseg
    next st' h' hp =>
      rw [hp] at hseg
      exact ih hseg st'

theorem parseLine_faulty (hf : h.faults ≠ []) (line : Text) :
    (parseLine alloc line h).2.faults ≠ [] := by
  unfold parseLine
  split
  · exact hf
  · have hask := Heap.request_faulty hf Object.pipeline (alloc h.requests)
    split
    next h' hr => rwa [hr] at hask
    next pipeline h' hr =>
      rw [hr] at hask
      have hask' := Heap.request_faulty hask Object.commands (alloc h'.requests)
      split
      next h'' hr' =>
        rw [hr'] at hask'
        exact Heap.free_faulty hask' _
      next commands h'' hr' =>
        rw [hr'] at hask'
        exact parseSegments_faulty alloc hask' _ _

end Faulty

section Overrun
variable {alloc : ℕ → Bool} (hfull : ∀ n, alloc n = true) {h : Heap Object}

/-- Without a NULL among its entries the vector is read up to the slot behind them. -/
theorem freeEntries_overruns {v i : ℕ} {cs : List (Option Copy)} (hw : none ∉ cs)
    (hi : maxTokens ≤ i + cs.length) : (freeEntries v i h cs).faults ≠ [] := by
  induction cs generalizing i h with
  | nil => exact touchEntry_overruns h v hi
  | cons c cs ih =>
    cases c with
    | none => exact absurd List.mem_cons_self hw
    | some c =>
      apply ih (fun hn => hw (List.mem_cons_of_mem _ hn))
      rw [List.length_cons] at hi
      omega

theorem freeSlot_overruns {s : Slot} {v : ℕ} (hv : s.argv = some v) (hw : s.Whole)
    (hs : maxTokens ≤ s.entries.length) (commands : ℕ) :
    (freeSlot commands h s).faults ≠ [] := by
  have hentries : (freeEntries v 0 (h.touch commands) s.entries).faults ≠ [] :=
    freeEntries_overruns hw (by omega)
  simp only [freeSlot,freeVector,hv]
  exact Heap.freePointer_faulty (Heap.freePointer_faulty (Heap.freePointer_faulty
    (Heap.free_faulty hentries v) _) _) _

theorem discard_overruns {st : Stored} {v : ℕ} (hv : st.slot.argv = some v) (hw : st.slot.Whole)
    (hs : maxTokens ≤ st.slot.entries.length) : (discard st (st.count+1) h).faults ≠ [] := by
  refine Heap.free_faulty (Heap.free_faulty ?_ _) _
  rw [freeCommands,List.range_succ,List.foldl_append]
  exact freeSlot_overruns hv hw hs st.commands

theorem closeCommand_overruns {st : Stored} {v : ℕ} (hv : st.slot.argv = some v)
    (hs : maxTokens ≤ st.slot.entries.length) (rest : List Text) :
    (closeCommand rest st h).2.faults ≠ [] := by
  have hne : st.slot.entries.length ≠ 0 := by
    intro hzero
    rw [hzero] at hs
    exact absurd hs (by decide)
  rw [closeCommand,if_neg hne]
  simp only [touchVector,hv]
  exact touchEntry_overruns _ v hs

include hfull

/-- The vector of a hundred words has no slot for its NULL, which is stored where the segment is
a command and read where it is not. -/
theorem fillCommand_overruns {trimmed : Text}
    (hlong : maxTokens ≤ (reading trimmed).arguments.length) (rest : List Text) (st : Stored) :
    (fillCommand alloc trimmed rest st h).2.faults ≠ [] := by
  unfold fillCommand
  rw [hfull]
  simp only [Heap.request,if_true]
  generalize (⟨_,_,_⟩ : Heap Object) = h₁
  have hread := @parseTokens_read alloc True (fun _ => hfull) st.commands
    (h.touch st.commands).requests _ _ _ (reads_reading trimmed) (Nat.lt_succ_self _)
    (.fresh (h.touch st.commands).requests) h₁
  generalize parseTokens alloc st.commands _ _ trimmed _ h₁ = out at hread ⊢
  obtain ⟨lacks,s,h₂⟩ := out
  have hargv : (st.write s).slot.argv = some (h.touch st.commands).requests := by
    rw [Stored.write_slot]
    exact hread.argv
  have hargc : maxTokens ≤ (st.write s).slot.entries.length := by
    rw [Stored.write_slot,hread.argc]
    exact hlong.trans (Nat.le_add_left _ _)
  have hwhole : (st.write s).slot.Whole := by
    rw [Stored.write_slot]
    exact hread.whole trivial (by simp [Slot.Whole,Slot.fresh])
  cases lacks with
  | true => exact discard_overruns hargv hwhole hargc
  | false => exact closeCommand_overruns hargv hargc rest

theorem parseSegment_overruns {segment : Text}
    (hlong : maxTokens ≤ (segmentReading segment).arguments.length) (rest : List Text)
    (st : Stored) : (parseSegment alloc segment rest st h).2.faults ≠ [] := by
  have hblank : trimWhitespace segment ≠ [] := by
    intro hblank
    rw [segmentReading_blank hblank] at hlong
    exact absurd hlong (by decide)
  rw [parseSegment,if_neg hblank]
  split
  next h' hg =>
    have hgrow := grow_some hfull st h
    rw [hg] at hgrow
    exact absurd rfl hgrow
  next st' h' hg => exact fillCommand_overruns hfull hlong rest st'

theorem parseSegments_overruns {segs : List Text} (hterm : ¬ Terminated segs) (st : Stored) :
    (parseSegments alloc segs st h).2.faults ≠ [] := by
  induction segs generalizing st h with
  | nil => exact absurd trivial hterm
  | cons segment rest ih =>
    unfold parseSegments
    by_cases hlong : maxTokens ≤ (segmentReading segment).arguments.length
    · have hseg := parseSegment_overruns (h := h) hfull hlong rest st
      split
      next h' hp => rwa [hp] at hseg
      next st' h' hp =>
        rw [hp] at hseg
        exact parseSegments_faulty alloc hseg rest st'
    · obtain ⟨hgoes,hrest⟩ : (segmentReading segment).GoesOn rest ∧ ¬ Terminated rest := by
        by_contra hn
        exact hterm ⟨Nat.not_le.mp hlong,fun hgo => by_contra fun hrest => hn ⟨hgo,hrest⟩⟩
      split
      next h' hp =>
        exact absurd hgoes (parseSegment_ends hfull (by rw [hp]))
      next st' h' hp => exact ih hrest st'

theorem parseLine_overruns {line : Text} (hterm : ¬ Terminated (segments line)) :
    (parseLine alloc line h).2.faults ≠ [] := by
  have hblank : trimWhitespace line ≠ [] := by
    intro hblank
    rw [segments_blank hblank] at hterm
    refine hterm ⟨?_,fun _ => trivial⟩
    rw [segmentReading_blank rfl]
    decide
  rw [parseLine,if_neg hblank,hfull]
  simp only [Heap.request,if_true,hfull]
  exact parseSegments_overruns hfull hterm _

end Overrun

section Lines
variable {alloc : ℕ → Bool} {line : Text} {h : Heap Object} {bs : Blocks}

theorem parseLine_faultless (alloc : ℕ → Bool) (hterm : Terminated (segments line))
    (ho : h.Owns bs) : (parseLine alloc line h).2.faults = [] := by
  have hparse : Settled False (leaks (segments line)) bs (parseLine alloc line h) :=
    parseLine_settled (fun hf => hf.elim) hterm ho
  unfold Settled at hparse
  split at hparse
  · obtain ⟨lost,_,ho'⟩ := hparse
    exact ho'.faultless
  · obtain ⟨lost,_,hs⟩ := hparse
    exact hs.owns.faultless

/-- With memory enough, the vectors decide. -/
theorem parseLine_faultless_iff (hfull : ∀ n, alloc n = true) (ho : h.Owns bs) :
    (parseLine alloc line h).2.faults = [] ↔ Terminated (segments line) := by
  constructor
  · intro hf
    by_contra hterm
    exact parseLine_overruns hfull hterm hf
  · exact fun hterm => parseLine_faultless alloc hterm ho

/-- The parser stays inside its arrays, also where it only reads to free. -/
def StaysInside (alloc : ℕ → Bool) (line : Text) : Prop :=
  (∀ a ∈ (Parser.parseLine alloc (some line)).2.accesses, a.InBounds) ∧
    (parseLine alloc line .empty).2.faults = []

instance (alloc : ℕ → Bool) (line : Text) : Decidable (StaysInside alloc line) :=
  inferInstanceAs (Decidable (_ ∧ _))

theorem staysInside_legible (alloc : ℕ → Bool)
    (htoken : ∀ s ∈ segments line, Legible (trimWhitespace s))
    (hterm : Terminated (segments line)) : StaysInside alloc line :=
  ⟨parseLine_inside alloc htoken hterm.fits,parseLine_faultless alloc hterm .empty⟩

theorem staysInside (alloc : ℕ → Bool) (hlen : line.length ≤ 1023)
    (hterm : Terminated (segments line)) : StaysInside alloc line :=
  ⟨parseLine_inBounds alloc hlen hterm.fits,parseLine_faultless alloc hterm .empty⟩

theorem staysInside_iff (hfull : ∀ n, alloc n = true) (hlen : line.length ≤ 1023) :
    StaysInside alloc line ↔ Terminated (segments line) :=
  ⟨fun h => (parseLine_faultless_iff hfull .empty).mp h.2,staysInside alloc hlen⟩

end Lines

end UnixShell.Parser.Storage
