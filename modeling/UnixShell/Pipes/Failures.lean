import UnixShell.Pipes.Wiring

/-! # What a failed pipeline leaves behind

A call that fails returns to the shell at once. Nothing is left behind exactly when it is
the first call: later ones find ends of pipes open, or children that no one waits for.
-/
namespace UnixShell.Pipes
open Foundation UnixShell.Parser

variable {φ : Type*} {p : Option Pipeline} {n : ℕ} {s t : State φ} {e : Descriptors (File φ)}
  {a : Action} {as : List Action}

namespace Action

/-- A call of `pipe` or `fork`. -/
def IsCall : Action → Prop
  | .pipe _ | .fork _ => True
  | _ => False

def Fails : Action → Prop
  | .pipe none | .fork false => True
  | _ => False

end Action

/-- No call of `pipe` or `fork` fails after another one. -/
def FailsFirst (as : List Action) : Prop := as.Pairwise fun b a => a.Fails → ¬ b.IsCall

/-- The table at entry is back, and every child has been waited for. -/
def Restored (e : Descriptors (File φ)) (s : State φ) : Prop :=
  s.table = e ∧ ∀ j < s.children.length, j ∈ s.waited

theorem failsFirst_concat :
    FailsFirst (as ++ [a]) ↔ FailsFirst as ∧ (a.Fails → ∀ b ∈ as, ¬ b.IsCall) := by
  simp only [FailsFirst,List.pairwise_append,List.pairwise_singleton,List.mem_singleton,
    forall_eq,true_and]
  apply and_congr_right
  intro _
  constructor
  · intro h ha b hb
    exact h b hb ha
  · intro h b hb ha
    exact h ha b hb

theorem failsFirst_of_forall (h : ∀ a ∈ as, ¬ a.Fails) : FailsFirst as := by
  apply List.pairwise_of_forall_mem_list
  intro b _ a ha hf
  exact absurd hf (h a ha)

/-- The waits that are done at each point. -/
def waitCount (n : ℕ) : Pc → ℕ
  | .wait k => min k n
  | .returned 0 => n
  | _ => 0

/-- No pipe has been opened yet. -/
def Unpiped (n : ℕ) : Pc → Prop
  | .malloc | .loop | .pipe => True
  | .fork => n ≤ 1
  | _ => False

/-- The labels so far, against a shell in which no call has failed. -/
structure Traced (n : ℕ) (e : Descriptors (File φ)) (as : List Action) (s : State φ) : Prop where
  held : Held n e s
  succeeded : ∀ a ∈ as, ¬ a.Fails
  called : (∃ b ∈ as, b.IsCall) ↔ 0 < s.children.length ∨ s.pipeFd ≠ none
  unpiped : s.i = 0 → Unpiped n s.pc → s.pipeFd = none
  waited : s.waited = List.range (waitCount n s.pc)
  code : ∀ c, s.pc = .returned c → c = 0

/-- A run of the shell to a point in the loop or behind it, or to a failure. -/
def Run (n : ℕ) (e : Descriptors (File φ)) (as : List Action) (s : State φ) : Prop :=
  if s.pc = .returned (-1) then Restored e s ↔ FailsFirst as else Traced n e as s

/-- A step that makes no call that can fail. -/
theorem Traced.quiet (h : Traced n e as s) (ht : Held n e t) (hf : ¬ a.Fails) (hc : ¬ a.IsCall)
    (hlen : t.children.length = s.children.length) (hp : t.pipeFd = s.pipeFd)
    (hu : t.i = 0 → Unpiped n t.pc → s.i = 0 ∧ Unpiped n s.pc)
    (hw : t.waited = List.range (waitCount n t.pc)) (hcode : ∀ c, t.pc = .returned c → c = 0) :
    Traced n e (as ++ [a]) t := by
  constructor
  · exact ht
  · intro b hb
    rcases List.mem_append.mp hb with hb | hb
    · exact h.succeeded b hb
    · rw [List.mem_singleton.mp hb]
      exact hf
  · rw [hlen,hp,← h.called]
    simp [or_and_right,exists_or,hc]
  · intro hi hpc
    obtain ⟨hi,hpc⟩ := hu hi hpc
    rw [hp]
    exact h.unpiped hi hpc
  · exact hw
  · exact hcode

/-- A call that succeeds. -/
theorem Traced.call (h : Traced n e as s) (ht : Held n e t) (hf : ¬ a.Fails) (hc : a.IsCall)
    (hopen : 0 < t.children.length ∨ t.pipeFd ≠ none) (hu : t.i = 0 → ¬ Unpiped n t.pc)
    (hw : t.waited = List.range (waitCount n t.pc)) (hcode : ∀ c, t.pc = .returned c → c = 0) :
    Traced n e (as ++ [a]) t := by
  constructor
  · exact ht
  · intro b hb
    rcases List.mem_append.mp hb with hb | hb
    · exact h.succeeded b hb
    · rw [List.mem_singleton.mp hb]
      exact hf
  · apply iff_of_true
    · exact ⟨a,by simp,hc⟩
    · exact hopen
  · intro hi hpc
    exact absurd hpc (hu hi)
  · exact hw
  · exact hcode

/-- What is left behind by a call that fails is what the calls before it have opened. -/
theorem Traced.fail (h : Traced n e as s) (hf : a.Fails) (call : String)
    (hr : Restored e (s.fail call) ↔ s.children.length = 0 ∧ s.pipeFd = none) :
    Restored e (s.fail call) ↔ FailsFirst (as ++ [a]) := by
  rw [hr,failsFirst_concat]
  have hcalled := h.called
  constructor
  · rintro ⟨hlen,hp⟩
    refine ⟨failsFirst_of_forall h.succeeded,fun _ b hb hbc => ?_⟩
    rcases hcalled.mp ⟨b,hb,hbc⟩ with hpos | hne
    · omega
    · exact hne hp
  · rintro ⟨_,hnone⟩
    have hnot : ¬ (0 < s.children.length ∨ s.pipeFd ≠ none) := by
      intro hopen
      obtain ⟨b,hb,hbc⟩ := hcalled.mpr hopen
      exact hnone hf b hb hbc
    rw [not_or,not_not] at hnot
    exact ⟨by omega,hnot.2⟩

/-- An end held on top of the table at entry shows. -/
theorem ends_eq_iff {i : ℕ} {prev : Option ℕ} {pipe : Option (ℕ × ℕ)} (h : Apart prev pipe e) :
    ends i prev pipe e = e ↔ prev = none ∧ pipe = none := by
  constructor
  · intro he
    constructor
    · cases prev with
      | none => rfl
      | some fd =>
        have hfd := congrFun he fd
        rw [ends_previous,h.previous fd rfl] at hfd
        cases hfd
    · cases pipe with
      | none => rfl
      | some fds =>
        rcases fds with ⟨r,w⟩
        have hw := congrFun he w
        rw [ends_write h,(h.pipe r w rfl).2.1] at hw
        cases hw
  · rintro ⟨rfl,rfl⟩
    exact ends_none

theorem Traced.restored_fail (h : Traced n e as s) (call : String)
    (hw : waitCount n s.pc = 0) :
    Restored e (s.fail call) ↔
      s.heldRead = none ∧ s.heldPipe n = none ∧ s.children.length = 0 := by
  have hwaited : s.waited = [] := by
    rw [h.waited,hw]
    rfl
  have hall : (∀ j < s.children.length, j ∈ s.waited) ↔ s.children.length = 0 := by
    rw [hwaited]
    constructor
    · intro hj
      by_contra hne
      exact List.not_mem_nil (hj 0 (by omega))
    · intro hz j hj
      omega
  calc Restored e (s.fail call) ↔ s.table = e ∧ ∀ j < s.children.length, j ∈ s.waited := Iff.rfl
    _ ↔ (s.heldRead = none ∧ s.heldPipe n = none) ∧ s.children.length = 0 := by
      rw [hall,h.held.table,ends_eq_iff h.held.apart]
    _ ↔ _ := and_assoc

theorem run_fail {call : String} :
    Run n e as (s.fail call) ↔ (Restored e (s.fail call) ↔ FailsFirst as) := by
  rw [Run,if_pos (show (s.fail call).pc = .returned (-1) from rfl)]

theorem Traced.step (h : Traced (numCommands p) e as s) (he : Pipes.step p s a = some t)
    (hpc : s.pc ≠ .returned (-1)) : Run (numCommands p) e (as ++ [a]) t := by
  have hheld : t.pc ≠ .returned (-1) → Held (numCommands p) e t :=
    step_shellHolds he fun _ => h.held
  have hwaited := h.waited
  have hcount := h.held.count
  have hplaced := h.held.placed
  have hprevious := h.held.previous
  cases step_stepped he with
  | mallocs hm =>
    rw [Run,if_neg (by simp)]
    apply h.quiet (hheld (by simp)) <;> simp [Action.Fails,Action.IsCall,Unpiped,waitCount,hm]
    simpa [waitCount,hm] using hwaited
  | mallocFails hm =>
    have hz : s.i = 0 := by simpa [Placed,hm] using hplaced
    have hlen : s.children.length = 0 := by simpa [State.forkCount,hm,hz] using hcount
    rw [run_fail]
    apply iff_of_true
    · rw [h.restored_fail _ (by rw [hm]; rfl)]
      simp [State.heldRead,State.heldPipe,hm,hlen]
    · rw [failsFirst_concat]
      exact ⟨failsFirst_of_forall h.succeeded,fun hf => hf.elim⟩
  | enterPipe hm hi =>
    rw [Run,if_neg (by simp)]
    apply h.quiet (hheld (by simp)) <;> simp [Action.Fails,Action.IsCall,Unpiped,waitCount,hm]
    simpa [waitCount,hm] using hwaited
  | enterFork hm hi =>
    rw [Run,if_neg (by simp)]
    apply h.quiet (hheld (by simp)) <;> simp [Action.Fails,Action.IsCall,Unpiped,waitCount,hm]
    · exact fun hz _ => hz
    · simpa [waitCount,hm] using hwaited
  | leave hm hi =>
    rw [Run,if_neg (by simp)]
    apply h.quiet (hheld (by simp)) <;> simp [Action.Fails,Action.IsCall,Unpiped,waitCount,hm]
    simpa [waitCount,hm] using hwaited
  | @pipes hm r w hr hw hne =>
    have hlt : s.i+1 < numCommands p := by simpa [Placed,hm] using hplaced
    rw [Run,if_neg (by simp)]
    apply h.call (hheld (by simp)) <;> simp [Action.Fails,Action.IsCall,Unpiped,waitCount]
    · omega
    · simpa [waitCount,hm] using hwaited
  | pipeFails hm =>
    have hlt : s.i+1 < numCommands p := by simpa [Placed,hm] using hplaced
    have hlen : s.children.length = s.i := by simpa [State.forkCount,hm] using hcount
    rw [run_fail]
    apply h.fail (a := .pipe none) trivial
    rw [h.restored_fail _ (by rw [hm]; rfl)]
    constructor
    · rintro ⟨_,_,hz⟩
      exact ⟨hz,h.unpiped (by omega) (by rw [hm]; trivial)⟩
    · rintro ⟨hz,_⟩
      have hread : s.prevReadFd = none := by
        by_contra hne
        have := hprevious.mp hne
        omega
      simp [State.heldRead,State.heldPipe,hm,hread,hz]
  | forks hm hc =>
    rw [Run,if_neg (by simp)]
    apply h.call (hheld (by simp)) <;> simp [Action.Fails,Action.IsCall,Unpiped,waitCount]
    simpa [waitCount,hm] using hwaited
  | forkFails hm =>
    have hlt : s.i < numCommands p := by simpa [Placed,hm] using hplaced
    have hlen : s.children.length = s.i := by simpa [State.forkCount,hm] using hcount
    rw [run_fail]
    apply h.fail (a := .fork false) trivial
    rw [h.restored_fail _ (by rw [hm]; rfl)]
    constructor
    · rintro ⟨_,hpipe,hz⟩
      refine ⟨hz,?_⟩
      by_cases hone : s.i+1 < numCommands p
      · simpa [State.heldPipe,State.outgoing,hm,hone] using hpipe
      · exact h.unpiped (by omega) (by rw [hm]; simp only [Unpiped]; omega)
    · rintro ⟨hz,hpipe⟩
      have hread : s.prevReadFd = none := by
        by_contra hne
        have := hprevious.mp hne
        omega
      simp [State.heldRead,State.heldPipe,State.outgoing,hm,hread,hz,hpipe]
  | closes hm hp =>
    rw [Run,if_neg (by simp)]
    apply h.quiet (hheld (by simp)) <;> simp [Action.Fails,Action.IsCall,Unpiped,waitCount,hm]
    simpa [waitCount,hm] using hwaited
  | keeps hm hp =>
    rw [Run,if_neg (by simp)]
    apply h.quiet (hheld (by simp)) <;> simp [Action.Fails,Action.IsCall,Unpiped,waitCount,hm]
    simpa [waitCount,hm] using hwaited
  | advance hm hi hp =>
    rw [Run,if_neg (by simp)]
    apply h.quiet (hheld (by simp)) <;> simp [Action.Fails,Action.IsCall,Unpiped,waitCount,hm]
    simpa [waitCount,hm] using hwaited
  | last hm hi =>
    rw [Run,if_neg (by simp)]
    apply h.quiet (hheld (by simp)) <;> simp [Action.Fails,Action.IsCall,Unpiped,waitCount,hm]
    simpa [waitCount,hm] using hwaited
  | @waits k hm hk c hc hexit =>
    rw [Run,if_neg (by simp)]
    apply h.quiet (hheld (by simp)) <;> simp [Action.Fails,Action.IsCall,Unpiped,waitCount,hm]
    have hrange : s.waited = List.range k := by simpa [waitCount,hm,hk.le] using hwaited
    rw [hrange,Nat.min_eq_left hk,List.range_succ]
  | returns hm hk =>
    rw [Run,if_neg (by simp)]
    apply h.quiet (hheld (by simp)) <;> simp [Action.Fails,Action.IsCall,Unpiped,waitCount,hm]
    simpa [waitCount,hm,hk] using hwaited
  | child hc hd =>
    rw [Run,if_neg hpc]
    apply h.quiet (hheld hpc) <;> simp [Action.Fails,Action.IsCall]
    · exact fun hz hu => ⟨hz,hu⟩
    · exact hwaited
    · exact h.code

/-- After a failure the children alone take steps. -/
theorem step_failed (h : step p s a = some t) (hpc : s.pc = .returned (-1))
    (hs : Restored e s ↔ FailsFirst as) :
    t.pc = .returned (-1) ∧ (Restored e t ↔ FailsFirst (as ++ [a])) := by
  cases step_stepped h with
  | child hc hd =>
    refine ⟨hpc,?_⟩
    rw [failsFirst_concat,← hs]
    simp [Restored,Action.Fails]
  | _ => simp_all

theorem step_run (h : step p s a = some t) (hs : Run (numCommands p) e as s) :
    Run (numCommands p) e (as ++ [a]) t := by
  by_cases hpc : s.pc = .returned (-1)
  · rw [Run,if_pos hpc] at hs
    obtain ⟨ht,hiff⟩ := step_failed h hpc hs
    rw [Run,if_pos ht]
    exact hiff
  · rw [Run,if_neg hpc] at hs
    exact hs.step h hpc

theorem start_run (p : Option Pipeline) (f : Descriptors φ) :
    Run (numCommands p) (entry f) [] (start p f) := by
  unfold Run
  split_ifs with hpc
  · apply iff_of_true
    · refine ⟨rfl,fun j hj => ?_⟩
      cases hj
    · exact List.Pairwise.nil
  · have hn : numCommands p ≠ 0 := by
      intro hn
      simp [start,hn] at hpc
    constructor
    · exact start_shellHolds p f hpc
    · intro b hb
      cases hb
    · simp [start]
    · intro _ _
      rfl
    · simp [start,hn,waitCount]
    · intro c hc
      simp [start,hn] at hc

/-- A pipeline that returns has restored the shell just when no call but the first one failed. -/
theorem restored_iff_failsFirst (p : Option Pipeline) (f : Descriptors φ) {as : List Action}
    {s : State φ} {code : ℤ} (h : Runs (Fires (step p)) (start p f) as s)
    (hs : s.pc = .returned code) : Restored (entry f) s ↔ FailsFirst as := by
  have hrun : Run (numCommands p) (entry f) as s :=
    h.trace (fun _ _ _ _ hu hb => step_run hb hu) (start_run p f)
  unfold Run at hrun
  split_ifs at hrun with hpc
  · exact hrun
  · obtain rfl : code = 0 := hrun.code code hs
    apply iff_of_true
    · refine ⟨hrun.held.table_of_loopOver (.inr hs),fun j hj => ?_⟩
      have hlen : s.children.length = numCommands p := by
        have hcount := hrun.held.count
        have hplaced := hrun.held.placed
        simp only [State.forkCount,Placed,hs] at hcount hplaced
        omega
      rw [hrun.waited,hs]
      exact List.mem_range.mpr (by simpa [waitCount] using hlen ▸ hj)
    · exact failsFirst_of_forall hrun.succeeded

def twoCommands : Pipeline := ⟨[simple 'a',simple 'b'],2⟩

/-- The second `fork` fails while the read end for it is open and the first child runs. -/
def secondForkFails : List Action :=
  [.malloc true,.runs,.pipe (some (3,4)),.fork true,.runs,.runs,.runs,.fork false]

theorem restored_iff_failsFirst_secondForkFails : ∃ s : State ℕ, s.pc = .returned (-1) ∧
    (Restored (entry terminal) s ↔ FailsFirst secondForkFails) := by
  obtain ⟨s,he⟩ := Option.isSome_iff_exists.mp (show
    (exec (step (some twoCommands)) (start (some twoCommands) terminal) secondForkFails).isSome =
      true from rfl)
  have hrun := runs_of_exec he
  cases he
  exact ⟨_,rfl,restored_iff_failsFirst (some twoCommands) terminal hrun
    (show _ = Pc.returned (-1) from rfl)⟩

/-- The shell keeps the read end of the first pipe, and no one waits for the first child. -/
theorem secondForkFails_not_restored : ∃ s : State ℕ,
    Runs (Fires (step (some twoCommands))) (start (some twoCommands) terminal) secondForkFails s ∧
      s.pc = .returned (-1) ∧ s.table 3 ≠ entry terminal 3 ∧
      ¬ (∀ j < s.children.length, j ∈ s.waited) := by
  obtain ⟨s,he⟩ := Option.isSome_iff_exists.mp (show
    (exec (step (some twoCommands)) (start (some twoCommands) terminal) secondForkFails).isSome =
      true from rfl)
  have hrun := runs_of_exec he
  cases he
  refine ⟨_,hrun,rfl,?_,?_⟩
  · decide
  · decide

end UnixShell.Pipes
