import UnixShell.Server.Executor
import UnixShell.Shell.Capture

/-! # Requests to exit

A captured line asks for the exit by the exit status of its child. A child that cannot
redirect its output leaves with the same status, whatever the line was.
-/
namespace UnixShell.Shell
open Foundation UnixShell.Parser
open Server hiding Text

/-- The output that the caller of a capture gets. -/
def Captured.text (r : Captured) : Option Text :=
  r.output.map (fun block => (block.take r.size).filterMap id)

/-- Every call of a capture succeeds. -/
structure Calls.Succeed (calls : Calls) : Prop where
  pipe : calls.pipe = true
  fork : calls.fork = true
  dup2Out : calls.dup2Out = true
  dup2Err : calls.dup2Err = true
  read : calls.readFails = false
  waitpid : calls.waitpid = true
  malloc : ∀ n, calls.malloc n = true

/-- The capture of a line returns one. -/
def ReturnsExit (w : ℕ) (calls : Calls) (fuel : ℕ) (line : Text) : Prop :=
  ∃ r, shellExecuteLineCapture w calls fuel line = some r ∧ r.exitRequested = true

/-- A shell task of this line, executed on what its capture returns, sets SERVER_EXIT. -/
def SendsExit (w : ℕ) (calls : Calls) (fuel : ℕ) (line : Text) : Prop :=
  ∃ (r : Captured) (v v' : View) (round : Round) (lineOk textOk : Bool) (i : Input) (m m' : Move),
    shellExecuteLineCapture w calls fuel line = some r ∧ v.task.commandText = some line ∧
    executeShellTask v round (.shellRun lineOk r.exitRequested r.text textOk) = some m ∧
    serverTaskExecutor v' m.round i = some m' ∧
    v'.context.responseStatus ≠ .serverExit ∧ m'.context.responseStatus = .serverExit

structure ExitOnlyWhenAsked (w : ℕ) (calls : Calls) (fuel : ℕ) (line : Text) : Prop where
  only : ReturnsExit w calls fuel line → cutLine line = exitText
  asked : cutLine line = exitText → calls.Succeed → ReturnsExit w calls fuel line
  session : SendsExit w calls fuel line → cutLine line = exitText

section Requests
variable {w fuel : ℕ} {calls : Calls} {line : Text} {r : Captured} {c : Capturing}

theorem finishCapture_exit {status : ChildStatus} {broke : Bool} :
    (finishCapture calls status broke c).exitRequested =
      (calls.waitpid && status.requestsExit) := by
  unfold finishCapture
  cases hwait : calls.waitpid with
  | false => rfl
  | true =>
    by_cases hread : (calls.readFails && !broke) = true
    · simp only [hread,if_true]
      rfl
    · cases hbuffer : c.buffer with
      | some block => simp [hread,terminate]
      | none =>
        by_cases hmalloc : calls.malloc c.mallocs = true
        · simp [hread,hmalloc,terminate]
        · simp [hread,hmalloc,report]

/-- What decides over the return value. -/
theorem capture_exit (h : shellExecuteLineCapture w calls fuel line = some r) :
    r.exitRequested =
      (calls.pipe && calls.fork && calls.waitpid && (calls.status line).requestsExit) := by
  unfold shellExecuteLineCapture at h
  cases hpipe : calls.pipe with
  | false =>
    rw [hpipe] at h
    obtain rfl := Option.some.inj h
    rfl
  | true =>
    cases hfork : calls.fork with
    | false =>
      rw [hpipe,hfork] at h
      obtain rfl := Option.some.inj h
      rfl
    | true =>
      rw [hpipe,hfork] at h
      obtain ⟨ended,_,rfl⟩ := Option.map_eq_some_iff.mp h
      exact finishCapture_exit

/-- A child that has executed a command asks for nothing, however it ends. -/
theorem executed_status (killed : Bool) :
    (if killed = true then ChildStatus.signaled else .exited 0).requestsExit = false := by
  cases killed <;> rfl

/-- A child asks for the exit if it was told to, or if it could not redirect its output. -/
theorem requestsExit_iff : (calls.status line).requestsExit = true ↔
    cutLine line = exitText ∨ (calls.dup2Out && calls.dup2Err) = false := by
  unfold Calls.status Calls.child
  cases hdup : calls.dup2Out && calls.dup2Err with
  | false => simp [ChildStatus.requestsExit]
  | true =>
    have hexit : shellExecuteLine calls.parserAlloc (some line) = .exitRequest ↔
        cutLine line = exitText := shellExecuteLine_exit_iff
    simp only [if_true,reduceCtorEq,or_false,← hexit]
    cases hrun : shellExecuteLine calls.parserAlloc (some line) with
    | exitRequest => simp [ChildStatus.requestsExit]
    | _ => simp [executed_status]

/-- A child that asks for the exit prints nothing. -/
theorem chunks_of_requestsExit (h : (calls.status line).requestsExit = true) :
    calls.chunks line = [] := by
  unfold Calls.status at h
  unfold Calls.chunks
  cases hchild : calls.child line with
  | none => rfl
  | some execution =>
    rw [hchild] at h
    cases execution with
    | exitRequest => rfl
    | _ => simp [executed_status] at h

theorem returnsExit_iff : ReturnsExit w calls fuel line ↔
    (calls.pipe = true ∧ calls.fork = true ∧ calls.waitpid = true) ∧
      (cutLine line = exitText ∨ (calls.dup2Out && calls.dup2Err) = false) := by
  rw [← requestsExit_iff]
  constructor
  · rintro ⟨r,hrun,hexit⟩
    rw [capture_exit hrun] at hexit
    simpa [and_assoc] using hexit
  · rintro ⟨⟨hpipe,hfork,hwait⟩,hexit⟩
    have hrun : shellExecuteLineCapture w calls fuel line =
        some (finishCapture calls (calls.status line) false .start) := by
      simp [shellExecuteLineCapture,hpipe,hfork,chunks_of_requestsExit hexit,captureLoop]
    refine ⟨_,hrun,?_⟩
    rw [finishCapture_exit,hwait,hexit]
    rfl

/-- The step after a shell command sets SERVER_EXIT only on request. -/
theorem exiting_shellDone {v' : View} {round : Round} {i : Input} {m' : Move} {e : Bool}
    {out : Text} (hpc : round.pc = .exiting (.shellDone e out) (exitOps (.shellDone e out)))
    (hstep : serverTaskExecutor v' round i = some m')
    (hafter : m'.context.responseStatus = .serverExit) : e = true := by
  simp only [serverTaskExecutor,hpc,exitOps] at hstep
  cases i with
  | go =>
    obtain rfl := Option.some.inj hstep
    cases e with
    | true => rfl
    | false => cases hafter
  | _ => cases hstep

/-- SERVER_EXIT is set for a line only if its capture returned one. -/
theorem sendsExit_returnsExit (h : SendsExit w calls fuel line) :
    ReturnsExit w calls fuel line := by
  obtain ⟨r,v,v',round,lineOk,textOk,i,m,m',hrun,_,htask,hstep,hbefore,hafter⟩ := h
  refine ⟨r,hrun,?_⟩
  simp only [executeShellTask] at htask
  cases lineOk with
  | false =>
    obtain rfl := Option.some.inj htask
    simp only [leave,goto,serverTaskExecutor,exitOps] at hstep
    cases i with
    | allocated ok =>
      cases ok with
      | true =>
        obtain rfl := Option.some.inj hstep
        cases hafter
      | false =>
        obtain rfl := Option.some.inj hstep
        exact absurd hafter hbefore
    | _ => cases hstep
  | true =>
    cases htext : r.text with
    | some out =>
      rw [htext] at htask
      obtain rfl := Option.some.inj htask
      exact exiting_shellDone rfl hstep hafter
    | none =>
      rw [htext] at htask
      cases textOk with
      | true =>
        obtain rfl := Option.some.inj htask
        exact exiting_shellDone rfl hstep hafter
      | false =>
        obtain rfl := Option.some.inj htask
        simp only [leave,goto,serverTaskExecutor] at hstep
        cases i with
        | go =>
          obtain rfl := Option.some.inj hstep
          exact absurd hafter hbefore
        | _ => cases hstep

/-- A captured line asks for the exit exactly when it is the exit, unless the child could not
redirect its output. -/
theorem exitOnlyWhenAsked_iff : ExitOnlyWhenAsked w calls fuel line ↔
    cutLine line = exitText ∨ (calls.dup2Out = true ∧ calls.dup2Err = true) ∨
      ¬ (calls.pipe = true ∧ calls.fork = true ∧ calls.waitpid = true) := by
  have honly : (ReturnsExit w calls fuel line → cutLine line = exitText) ↔
      cutLine line = exitText ∨ (calls.dup2Out = true ∧ calls.dup2Err = true) ∨
        ¬ (calls.pipe = true ∧ calls.fork = true ∧ calls.waitpid = true) := by
    have hdup : (calls.dup2Out && calls.dup2Err) = false ↔
        ¬ (calls.dup2Out = true ∧ calls.dup2Err = true) := by
      rw [← Bool.and_eq_true,Bool.not_eq_true]
    rw [returnsExit_iff,hdup]
    tauto
  rw [← honly]
  constructor
  · exact ExitOnlyWhenAsked.only
  · intro h
    refine ⟨h,fun hexit hok => ?_,fun hsent => h (sendsExit_returnsExit hsent)⟩
    exact returnsExit_iff.mpr ⟨⟨hok.pipe,hok.fork,hok.waitpid⟩,Or.inl hexit⟩

end Requests

/-- The second descriptor cannot be redirected. -/
def undirectedCalls : Calls where
  pipe := true
  fork := true
  dup2Out := true
  dup2Err := false
  waitpid := true
  printed _ := []
  readFails := false
  killed _ := false
  malloc _ := true
  realloc _ := true
  parserAlloc _ := true

theorem undirected_exits : ¬ ExitOnlyWhenAsked 64 undirectedCalls 64 ['l','s'] := by
  intro h
  have hexit : ReturnsExit 64 undirectedCalls 64 ['l','s'] := ⟨_,rfl,rfl⟩
  exact absurd (h.only hexit) (by decide)

end UnixShell.Shell
