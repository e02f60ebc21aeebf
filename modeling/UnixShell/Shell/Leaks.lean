import UnixShell.Parser.Overruns
import UnixShell.Shell.Invocation

/-! # The memory of a session

The shell parses a line, runs what it says, and frees the pipeline before it reads the next
one. Over any number of lines whose words leave room for the NULL of their argument vector,
and whatever requests fail, it frees and touches only live blocks and stays inside them, and
what is still live in the end are copies of words. When no request fails they are the file
names that a line repeats a redirection over, and those of its redirections without a program.
-/
namespace UnixShell.Shell
open Foundation UnixShell.Parser UnixShell.Parser.Storage

section Run
variable (alloc : ℕ → Bool)

/-- The memory of `run_command_basic` and `execute_pipeline`: only the latter asks for any. -/
def runPipeline (st : Stored) (h : Heap Object) : Heap Object :=
  if st.count = 1 then h
  else
    match h.request .pids (alloc h.requests) with
    | (none,h) => h
    | (some pids,h) => h.free pids

/-- The memory of `shell_execute_line` on a line that is not the exit. -/
def executeLine (line : Text) (h : Heap Object) : Heap Object :=
  match Storage.parseLine alloc line h with
  | (none,h) => h
  | (some st,h) => freePipeline st (runPipeline alloc st h)

/-- The memory of the interactive loop over the lines that `fgets` returns. -/
def runLines : List Text → Heap Object → Heap Object
  | [], h => h
  | line :: lines, h =>
    if cutLine line = exitText then h else runLines lines (executeLine alloc (cutLine line) h)

end Run

/-- The lines that are executed. -/
def executed (lines : List Text) : List Text := (lines.map cutLine).takeWhile (· ≠ exitText)

theorem executed_exit {line : Text} (h : cutLine line = exitText) (lines : List Text) :
    executed (line :: lines) = [] := by
  simp [executed,h]

theorem executed_cons {line : Text} (h : cutLine line ≠ exitText) (lines : List Text) :
    executed (line :: lines) = cutLine line :: executed lines := by
  simp [executed,h]

section Sessions
variable {alloc : ℕ → Bool} {full : Prop} {h : Heap Object} {lost bs : Blocks}
variable {texts : Multiset Text}

theorem runPipeline_owns (alloc : ℕ → Bool) (st : Stored) (ho : h.Owns bs) :
    (runPipeline alloc st h).Owns bs := by
  unfold runPipeline
  split_ifs with hone
  · exact ho
  · cases ha : alloc h.requests with
    | false => exact (ho.refused .pids).2
    | true => exact (ho.granted .pids).2.free

theorem runPipeline_faulty (hf : h.faults ≠ []) (alloc : ℕ → Bool) (st : Stored) :
    (runPipeline alloc st h).faults ≠ [] := by
  unfold runPipeline
  split_ifs
  · exact hf
  · have hask := Heap.request_faulty hf Object.pids (alloc h.requests)
    split
    next h' hr => rwa [hr] at hask
    next pids h' hr =>
      rw [hr] at hask
      exact Heap.free_faulty hask pids

/-- The heap after a line keeps the faults of its parse. -/
theorem executeLine_faulty {line : Text} (hf : (Storage.parseLine alloc line h).2.faults ≠ []) :
    (executeLine alloc line h).faults ≠ [] := by
  unfold executeLine
  split
  next h' hp => rwa [hp] at hf
  next st h' hp =>
    rw [hp] at hf
    exact discard_faulty (runPipeline_faulty hf alloc st) st _

theorem runLines_faulty (hf : h.faults ≠ []) (alloc : ℕ → Bool) (lines : List Text) :
    (runLines alloc lines h).faults ≠ [] := by
  induction lines generalizing h with
  | nil => exact hf
  | cons line lines ih =>
    rw [runLines]
    split_ifs
    · exact hf
    · exact ih (executeLine_faulty (parseLine_faulty alloc hf _))

/-- With memory enough, a line without room for a NULL is a fault of the session. -/
theorem runLines_overruns (hfull : ∀ n, alloc n = true) {line : Text} {lines : List Text}
    (hline : line ∈ executed lines) (hterm : ¬ Terminated (segments line)) :
    (runLines alloc lines h).faults ≠ [] := by
  induction lines generalizing h with
  | nil => cases hline
  | cons first lines ih =>
    rw [runLines]
    split_ifs with hexit
    · rw [executed_exit hexit] at hline
      cases hline
    · rw [executed_cons hexit] at hline
      rcases List.mem_cons.mp hline with rfl | hline
      · exact runLines_faulty (executeLine_faulty (parseLine_overruns hfull hterm)) alloc lines
      · exact ih hline

/-- A line leaves nothing but what the parser leaves to nobody. -/
theorem executeLine_lost (hfull : full → ∀ n, alloc n = true) {line : Text}
    (hterm : Terminated (segments line)) (hl : Lost full texts lost) (ho : h.Owns lost) :
    ∃ lost', Lost full (texts + leaks (segments line)) lost' ∧
      (executeLine alloc line h).Owns lost' := by
  have hparse := parseLine_settled hfull hterm ho
  unfold executeLine
  split
  next h' hp =>
    rw [hp] at hparse
    obtain ⟨lost',hl',ho'⟩ := hparse
    exact ⟨lost' + lost,(hl'.add hl).congr fun _ => add_comm _ _,ho'⟩
  next st h' hp =>
    rw [hp] at hparse
    obtain ⟨lost',hl',hs⟩ := hparse
    have hrun : Filled full st (runPipeline alloc st h') lost' lost :=
      ⟨hs.seated,hs.whole,runPipeline_owns alloc st hs.owns⟩
    obtain ⟨lost'',hl'',ho''⟩ := hrun.discard hl'
    exact ⟨lost'' + lost,(hl''.add hl).congr fun _ => add_comm _ _,ho''⟩

theorem runLines_lost (hfull : full → ∀ n, alloc n = true) {lines : List Text}
    (hterm : ∀ line ∈ executed lines, Terminated (segments line))
    (hl : Lost full texts lost) (ho : h.Owns lost) :
    ∃ lost', Lost full (texts + ((executed lines).flatMap fun line => leaks (segments line) :
      List Text)) lost' ∧ (runLines alloc lines h).Owns lost' := by
  induction lines generalizing h lost texts with
  | nil => exact ⟨lost,hl.congr fun _ => (add_zero _).symm,ho⟩
  | cons line lines ih =>
    rw [runLines]
    split_ifs with hexit
    · rw [executed_exit hexit]
      exact ⟨lost,hl.congr fun _ => (add_zero _).symm,ho⟩
    · rw [executed_cons hexit] at hterm ⊢
      obtain ⟨hfirst,hrest⟩ := List.forall_mem_cons.mp hterm
      obtain ⟨lost',hl',ho'⟩ := executeLine_lost hfull hfirst hl ho
      obtain ⟨lost'',hl'',ho''⟩ := ih hrest hl' ho'
      refine ⟨lost'',hl''.congr fun _ => ?_,ho''⟩
      rw [List.flatMap_cons,← Multiset.coe_add,add_assoc]

/-- Whatever requests fail, a session frees and touches only live blocks and stays inside them,
exactly when the words of every line that it executes leave room for their NULL; it then leaves
only copies of words behind. -/
theorem session_faultless (lines : List Text) :
    ((∀ alloc, (runLines alloc lines .empty).faults = []) ↔
      ∀ line ∈ executed lines, Terminated (segments line)) ∧
    ((∀ line ∈ executed lines, Terminated (segments line)) →
      ∀ alloc, ∀ b ∈ (runLines alloc lines .empty).live, ∃ s, b.2 = .copy s) := by
  have hlost : (∀ line ∈ executed lines, Terminated (segments line)) → ∀ alloc, ∃ lost,
      OnlyCopies lost ∧ (runLines alloc lines .empty).Owns lost := by
    intro hterm alloc
    obtain ⟨lost,hl,ho⟩ :=
      @runLines_lost alloc False .empty 0 0 (fun h => h.elim) lines hterm .zero .empty
    exact ⟨lost,hl.only,ho⟩
  refine ⟨⟨fun hf line hline => ?_,fun hterm alloc => ?_⟩,fun hterm alloc b hb => ?_⟩
  · by_contra hterm
    exact runLines_overruns (fun _ => rfl : ∀ n, (fun _ => true) n = true) hline hterm (hf _)
  · obtain ⟨lost,_,ho⟩ := hlost hterm alloc
    exact ho.faultless
  · obtain ⟨lost,honly,ho⟩ := hlost hterm alloc
    apply honly b
    rw [← ho.live]
    exact hb

/-- When no request fails, and every vector has room for its NULL, the words left behind are those
that the lines leave to nobody, and there are none exactly when no line repeats a redirection or
puts one off. -/
theorem session_leaks (hfull : ∀ n, alloc n = true) (lines : List Text)
    (hterm : ∀ line ∈ executed lines, Terminated (segments line)) :
    ((runLines alloc lines .empty).live.map Prod.snd).Perm
      (((executed lines).flatMap fun line => leaks (segments line)).map .copy) ∧
    ((runLines alloc lines .empty).live = [] ↔
      ∀ line ∈ executed lines, Tidy (segments line)) := by
  obtain ⟨lost,hl,ho⟩ :=
    @runLines_lost alloc True .empty 0 0 (fun _ => hfull) lines hterm .zero .empty
  have hperm : ((runLines alloc lines .empty).live.map Prod.snd).Perm
      (((executed lines).flatMap fun line => leaks (segments line)).map .copy) := by
    have htexts := hl.texts trivial
    rw [← ho.live,zero_add] at htexts
    exact Multiset.coe_eq_coe.mp htexts
  refine ⟨hperm,?_⟩
  rw [← List.map_eq_nil_iff (f := Prod.snd),← List.perm_nil]
  constructor
  · intro hnil line hline
    have hnone := List.perm_nil.mp (hperm.symm.trans hnil)
    rw [List.map_eq_nil_iff,List.flatMap_eq_nil_iff] at hnone
    exact (leaks_eq_nil_iff _).mp (hnone line hline)
  · intro htidy
    have hnone : ((executed lines).flatMap fun line => leaks (segments line)) = [] :=
      List.flatMap_eq_nil_iff.mpr fun line hline => (leaks_eq_nil_iff _).mpr (htidy line hline)
    rw [hnone] at hperm
    exact hperm

/-- `a < f < g`, and `> o | b`. -/
def repeatedLine : Text := ['a',' ','<',' ','f',' ','<',' ','g']

def deferredLine : Text := ['>',' ','o','|','b']

theorem repeatedLine_leaks : leaks (segments repeatedLine) = [['f']] ∧
    Terminated (segments repeatedLine) := by
  have hsegments : segments repeatedLine = [repeatedLine] := by decide
  have hreading : segmentReading repeatedLine =
      ⟨[['a']],[(.input,['f']),(.input,['g'])],none⟩ := by
    rw [segmentReading_plain (by decide)]
    decide +kernel
  simp [hsegments,leaks,hreading,leakOf,overwritten,Terminated,maxTokens]

theorem deferredLine_leaks : leaks (segments deferredLine) = [['o']] ∧
    Terminated (segments deferredLine) := by
  have hsegments : segments deferredLine = [['>',' ','o'],['b']] := by decide
  have hfirst : segmentReading ['>',' ','o'] = ⟨[],[(.output,['o'])],none⟩ := by
    rw [segmentReading_plain (by decide)]
    decide +kernel
  have hsecond : segmentReading ['b'] = ⟨[['b']],[],none⟩ := by
    rw [segmentReading_plain (by decide)]
    decide +kernel
  simp [hsegments,leaks,hfirst,hsecond,leakOf,overwritten,Reading.GoesOn,Terminated,maxTokens]

/-- The line behind the exit is not executed. -/
theorem session_leaks_untidy :
    ((runLines (fun _ => true) [repeatedLine,deferredLine,exitText,repeatedLine]
      .empty).live.map Prod.snd).Perm [Object.copy ['f'],.copy ['o']] := by
  have hlines : executed [repeatedLine,deferredLine,exitText,repeatedLine] =
      [repeatedLine,deferredLine] := by decide
  have h := (session_leaks (fun _ => rfl) [repeatedLine,deferredLine,exitText,repeatedLine]
    (by simp [hlines,repeatedLine_leaks.2,deferredLine_leaks.2])).1
  rw [hlines] at h
  simpa [repeatedLine_leaks.1,deferredLine_leaks.1] using h

end Sessions

end UnixShell.Shell
