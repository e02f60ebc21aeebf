import UnixShell.Pipes.Failures

/-! # A command on its own

`run_command_basic` forks one child, which makes its redirections and calls `execvp`. Of
a call of `execute_pipeline` the shell keeps what a failure leaves open, and the children
that it has not waited for.
-/
namespace UnixShell.Pipes
open Foundation UnixShell.Parser

variable {φ : Type*}

section Pipelines
variable {p : Option Pipeline} {n i : ℕ} {prev : Option ℕ} {pipe : Option (ℕ × ℕ)} {s t : State φ}
  {e : Descriptors (File φ)} {a : Action} {as : List Action} {code : ℤ}

theorem ends_extends (h : Apart prev pipe e) : e.Extends (ends i prev pipe e) := by
  intro fd f hf
  simp only [ends]
  split_ifs with hp hr hw
  · rw [h.previous fd hp] at hf
    cases hf
  · obtain ⟨⟨r,w⟩,hrw,rfl⟩ := Option.map_eq_some_iff.mp hr
    rw [(h.pipe r w hrw).1] at hf
    cases hf
  · obtain ⟨⟨r,w⟩,hrw,rfl⟩ := Option.map_eq_some_iff.mp hw
    rw [(h.pipe r w hrw).2.1] at hf
    cases hf
  · exact hf

theorem Held.extends (h : Held n e s) : e.Extends s.table := by
  rw [h.table]
  exact ends_extends h.apart

/-- A call never closes what the shell has open, also when it fails. -/
theorem step_extends (h : step p s a = some t) (hs : ShellHolds (numCommands p) e s)
    (he : e.Extends s.table) : e.Extends t.table := by
  by_cases ht : t.pc = .returned (-1)
  · cases step_stepped h with
    | mallocFails hm => exact he
    | pipeFails hm => exact he
    | forkFails hm => exact he
    | child hc hd => exact he
    | returns hm hk => cases ht
    | _ => simp_all
  · exact (step_shellHolds h hs ht).extends

/-- The children that the shell has not waited for. -/
def unwaited (s : State φ) : List (Child φ) :=
  (s.children.zipIdx.filter fun c => c.2 ∉ s.waited).map Prod.fst

theorem unwaited_eq_nil_iff : unwaited s = [] ↔ ∀ j < s.children.length, j ∈ s.waited := by
  rw [unwaited,List.map_eq_nil_iff,List.filter_eq_nil_iff]
  simp only [decide_not,Bool.not_eq_true',decide_eq_false_iff_not,not_not,Prod.forall]
  constructor
  · intro h j hj
    exact h _ j (List.mem_zipIdx_iff_getElem?.mpr (List.getElem?_eq_getElem hj))
  · intro h c j hj
    apply h j
    by_contra hge
    rw [List.mem_zipIdx_iff_getElem?,List.getElem?_eq_none (Nat.le_of_not_lt hge)] at hj
    cases hj

theorem restored_iff : Restored e s ↔ s.table = e ∧ unwaited s = [] := by
  rw [unwaited_eq_nil_iff]
  rfl

/-- What a call that has returned leaves behind. -/
theorem Run.restored_iff (h : Run n e as s) (hs : s.pc = .returned code) :
    s.table = e ∧ unwaited s = [] ↔ FailsFirst as := by
  rw [← Pipes.restored_iff]
  unfold Run at h
  split_ifs at h with hpc
  · exact h
  · obtain rfl : code = 0 := h.code code hs
    refine iff_of_true ⟨h.held.table_of_loopOver (.inr hs),fun j hj => ?_⟩
      (failsFirst_of_forall h.succeeded)
    have hcount := h.held.count
    have hplaced := h.held.placed
    simp only [State.forkCount,Placed,hs] at hcount hplaced
    rw [h.waited,hs,waitCount,List.mem_range]
    omega

end Pipelines

section Basic
variable {e : Descriptors φ} {cmd : Command} {c d : Child φ} {input : ChildInput}

/-- `ERR_COMMAND_NOT_FOUND`. -/
def errCommandNotFound : String := "Command not found."

/-- What the child of `run_command_basic` does before `execvp`. -/
def basicOps (cmd : Command) : List ChildOp :=
  redirection cmd.inputFile .readOnly stdinFileno ++
  redirection cmd.outputFile .writeCreateTruncate stdoutFileno ++
  redirection cmd.errorFile .writeCreateTruncate stderrFileno

/-- The child of `run_command_basic`, right after `fork`. -/
def basicForked (cmd : Command) (e : Descriptors φ) : Child φ :=
  ⟨cmd,entry e,basicOps cmd,.preparing,[]⟩

/-- It makes its calls as a child of a pipeline does, and reports a failed `execvp` in its own
words. -/
def basicStep (c : Child φ) : ChildInput → Option (Child φ)
  | .execvp false =>
    if c.phase = .preparing ∧ c.todo = [] then
      some {c with stderr := c.stderr ++ [errCommandNotFound]}.exit
    else none
  | input => c.step input

/-- A command on its own, as a pipeline. -/
def alone (cmd : Command) : Option Pipeline := some ⟨[cmd],1⟩

theorem basicForked_holds (he : e.Standard) :
    ChildHolds (alone cmd) (entry e) 0 (basicForked cmd e) := by
  have hentry : (entry e).Standard := he.map _
  have hapart : Apart none none (entry e) := apart_none
  have hops : basicOps cmd = childOps cmd none none := by simp [basicOps,childOps]
  constructor
  · rfl
  · intro k hk
    exact absurd hk (entry_noEnd e k).2
  · intro _
    exact hentry
  · intro _ op hop
    rw [basicForked,hops] at hop
    exact childOps_sound hapart hentry hop
  · intro _
    rw [basicForked,hops,← @ends_none _ (entry e) 0]
    exact effect_childOps hapart hentry (by simp) (by simp [alone,numCommands])
  · intro hn
    cases hn

theorem basicStep_holds (h : ChildHolds (alone cmd) (entry e) 0 c)
    (hd : basicStep c input = some d) : ChildHolds (alone cmd) (entry e) 0 d := by
  unfold basicStep at hd
  split at hd
  · split_ifs at hd
    cases hd
    exact h.exit rfl
  · exact step_childHolds hd h

end Basic

end UnixShell.Pipes
