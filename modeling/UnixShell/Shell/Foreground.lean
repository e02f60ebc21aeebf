import UnixShell.Pipes.Basic
import UnixShell.Shell.Invocation

/-! # The local shell and its processes

The shell reads a line at its prompt and runs one command by `run_command_basic`, which
waits for any child at all, and a longer pipeline by `execute_pipeline`, which waits for
its own children. Whatever the interleaving, the prompt finds the shell as it started,
with no child left, exactly when no pipeline failed behind its first call.
-/
namespace UnixShell.Shell.Foreground
open Foundation UnixShell.Parser
open Pipes (Child ChildInput File FailsFirst entry unwaited)

/-- A file that the shell has open: one that it started with, or one that a call of
`execute_pipeline` has left to it. -/
inductive Handle (φ : Type*)
  | initial (f : φ)
  | readEnd (call pipe : ℕ)
  | writeEnd (call pipe : ℕ)
  | opened (call : ℕ) (name : Text) (flags : Pipes.OpenFlags)
  deriving DecidableEq

variable {φ : Type*}

/-- What a file of a call is called after it. -/
def settle (call : ℕ) : File (Handle φ) → Handle φ
  | .inherited f => f
  | .readEnd pipe => .readEnd call pipe
  | .writeEnd pipe => .writeEnd call pipe
  | .opened name flags => .opened call name flags

/-- A child that has not been waited for, of `run_command_basic` or of a pipeline. -/
structure Process (φ : Type*) where
  basic : Bool
  child : Child (Handle φ)

def Process.step (p : Process φ) (input : ChildInput) : Option (Process φ) :=
  (if p.basic then Pipes.basicStep p.child input else p.child.step input).map
    fun c => {p with child := c}

/-- Where the shell is: at its prompt, before `fork` or in `wait(NULL)` of `run_command_basic`,
in `execute_pipeline`, or past its loop. -/
inductive Mode (φ : Type*)
  | prompt
  | fork (cmd : Command)
  | wait
  | pipeline (p : Pipeline) (s : Pipes.State (Handle φ))
  | over

structure Console (φ : Type*) where
  mode : Mode φ
  -- while a pipeline runs, the table at its start
  table : Descriptors (Handle φ)
  -- children forked and not waited for, without those of the pipeline that runs
  processes : List (Process φ)
  calls : ℕ

inductive Event
  | line (alloc : ℕ → Bool) (text : Text)
  | endOfInput
  | fork (succeeds : Bool)
  | wait (j : ℕ)
  | pipeline (a : Pipes.Action)
  | returned
  | process (j : ℕ) (input : ChildInput)

def start (t : Descriptors φ) : Console φ := ⟨.prompt,t.map .initial,[],0⟩

namespace Console

/-- `shell_execute_line` up to the first call of the operating system. -/
def execute (s : Console φ) (alloc : ℕ → Bool) (text : Text) : Console φ :=
  match shellExecuteLine alloc (some text) with
  | .exitRequest => {s with mode := .over}
  | .nothing => s
  | .basic cmd => {s with mode := .fork cmd}
  | .pipeline p => {s with mode := .pipeline p (Pipes.start (some p) s.table)}

def forked (s : Console φ) (cmd : Command) : Console φ :=
  {s with mode := .wait, processes := s.processes ++ [⟨true,Pipes.basicForked cmd s.table⟩]}

/-- Back from `execute_pipeline`. -/
def back (s : Console φ) (t : Pipes.State (Handle φ)) : Console φ :=
  {s with
    mode := .prompt
    table := t.table.map (settle s.calls)
    processes := s.processes ++ (unwaited t).map fun c => ⟨false,c⟩
    calls := s.calls + 1}

end Console

def step (s : Console φ) : Event → Option (Console φ)
  | .line alloc text =>
    match s.mode with
    | .prompt => some (s.execute alloc text)
    | _ => none
  | .endOfInput =>
    match s.mode with
    | .prompt => some {s with mode := .over}
    | _ => none
  | .fork succeeds =>
    match s.mode with
    | .fork cmd => if succeeds then some (s.forked cmd) else some {s with mode := .prompt}
    | _ => none
  | .wait j =>
    -- any child that has exited may be the one that is found
    match s.mode, s.processes[j]? with
    | .wait, some p =>
      if p.child.phase = .exited then
        some {s with mode := .prompt, processes := s.processes.eraseIdx j}
      else none
    | _, _ => none
  | .pipeline a =>
    match s.mode with
    | .pipeline p t => (Pipes.step (some p) t a).map fun u => {s with mode := .pipeline p u}
    | _ => none
  | .returned =>
    match s.mode with
    | .pipeline _ t =>
      match t.pc with
      | .returned _ => some (s.back t)
      | _ => none
    | _ => none
  | .process j input =>
    match s.processes[j]? with
    | some p => (p.step input).map fun q => {s with processes := s.processes.set j q}
    | none => none

section Cases
variable {s s' : Console φ} {x : Event}

/-- Everything that a step can do. -/
inductive Stepped (s : Console φ) : Event → Console φ → Prop
  | line {alloc : ℕ → Bool} {text : Text} (hm : s.mode = .prompt) :
      Stepped s (.line alloc text) (s.execute alloc text)
  | endOfInput (hm : s.mode = .prompt) : Stepped s .endOfInput {s with mode := .over}
  | forks {cmd : Command} (hm : s.mode = .fork cmd) : Stepped s (.fork true) (s.forked cmd)
  | forkFails {cmd : Command} (hm : s.mode = .fork cmd) :
      Stepped s (.fork false) {s with mode := .prompt}
  | waits {j : ℕ} {p : Process φ} (hm : s.mode = .wait) (hp : s.processes[j]? = some p)
      (he : p.child.phase = .exited) :
      Stepped s (.wait j) {s with mode := .prompt, processes := s.processes.eraseIdx j}
  | pipeline {p : Pipeline} {t u : Pipes.State (Handle φ)} {a : Pipes.Action}
      (hm : s.mode = .pipeline p t) (hu : Pipes.step (some p) t a = some u) :
      Stepped s (.pipeline a) {s with mode := .pipeline p u}
  | returned {p : Pipeline} {t : Pipes.State (Handle φ)} {code : ℤ} (hm : s.mode = .pipeline p t)
      (hc : t.pc = .returned code) : Stepped s .returned (s.back t)
  | process {j : ℕ} {input : ChildInput} {p q : Process φ} (hp : s.processes[j]? = some p)
      (hq : p.step input = some q) :
      Stepped s (.process j input) {s with processes := s.processes.set j q}

theorem step_stepped (h : step s x = some s') : Stepped s x s' := by
  cases x with
  | line alloc text =>
    simp only [step] at h
    split at h
    · rename_i hm
      cases h
      exact .line hm
    · cases h
  | endOfInput =>
    simp only [step] at h
    split at h
    · rename_i hm
      cases h
      exact .endOfInput hm
    · cases h
  | fork succeeds =>
    simp only [step] at h
    split at h
    · rename_i cmd hm
      cases succeeds <;> cases h
      · exact .forkFails hm
      · exact .forks hm
    · cases h
  | wait j =>
    simp only [step] at h
    split at h
    · rename_i p hm hp
      split_ifs at h with he
      cases h
      exact .waits hm hp he
    · cases h
  | pipeline a =>
    simp only [step] at h
    split at h
    · rename_i p t hm
      obtain ⟨u,hu,rfl⟩ := Option.map_eq_some_iff.mp h
      exact .pipeline hm hu
    · cases h
  | returned =>
    simp only [step] at h
    split at h
    · rename_i p t hm
      split at h
      · rename_i code hc
        cases h
        exact .returned hm hc
      · cases h
    · cases h
  | process j input =>
    simp only [step] at h
    split at h
    · rename_i p hp
      obtain ⟨q,hq,rfl⟩ := Option.map_eq_some_iff.mp h
      exact .process hp hq
    · cases h

end Cases

section Calls

/-- The labels of a pipeline's calls are put with the line that they belong to. -/
def noteCall (calls : List (List Pipes.Action)) : Event → List (List Pipes.Action)
  | .line _ _ => [] :: calls
  | .pipeline a =>
    match calls with
    | [] => [[a]]
    | call :: calls => (call ++ [a]) :: calls
  | _ => calls

/-- The calls of `execute_pipeline`, the last one first; a line without one has none. -/
def callsOf (xs : List Event) : List (List Pipes.Action) := xs.foldl noteCall []

/-- No pipeline has failed behind its first call of `pipe` or `fork`. -/
def AllFailFirst (xs : List Event) : Prop := ∀ call ∈ callsOf xs, FailsFirst call

theorem callsOf_concat (xs : List Event) (x : Event) :
    callsOf (xs ++ [x]) = noteCall (callsOf xs) x := by
  simp [callsOf]

theorem allFailFirst_concat {xs : List Event} {x : Event}
    (h : noteCall (callsOf xs) x = callsOf xs) : AllFailFirst (xs ++ [x]) ↔ AllFailFirst xs := by
  rw [AllFailFirst,callsOf_concat,h]
  rfl

theorem allFailFirst_line {xs : List Event} {alloc : ℕ → Bool} {text : Text} :
    AllFailFirst (xs ++ [.line alloc text]) ↔ AllFailFirst xs := by
  rw [AllFailFirst,callsOf_concat]
  simp only [noteCall,List.forall_mem_cons]
  exact and_iff_right List.Pairwise.nil

end Calls

section Traces
variable {t₀ : Descriptors φ} {good : Prop} {table : Descriptors (Handle φ)} {left : ℕ}
  {p : Pipeline} {t u : Pipes.State (Handle φ)} {call : List Pipes.Action} {s s' : Console φ}
  {xs : List Event} {x : Event}

/-- The shell has not closed what it started with, and is as it started just if all went well. -/
structure Settled (t₀ : Descriptors φ) (good : Prop) (table : Descriptors (Handle φ)) (left : ℕ) :
    Prop where
  grows : (t₀.map Handle.initial).Extends table
  restored : table = t₀.map .initial ∧ left = 0 ↔ good

/-- A call of `execute_pipeline` under way. -/
structure InCall (p : Pipeline) (table : Descriptors (Handle φ)) (call : List Pipes.Action)
    (t : Pipes.State (Handle φ)) : Prop where
  run : Pipes.Run (Pipes.numCommands (some p)) (entry table) call t
  holds : Pipes.ShellHolds (Pipes.numCommands (some p)) (entry table) t
  grows : (entry table).Extends t.table

theorem inCall_start : InCall p table [] (Pipes.start (some p) table) :=
  ⟨Pipes.start_run _ _,Pipes.start_shellHolds _ _,Descriptors.Extends.refl _⟩

theorem InCall.step {a : Pipes.Action} (h : InCall p table call t)
    (hu : Pipes.step (some p) t a = some u) : InCall p table (call ++ [a]) u :=
  ⟨Pipes.step_run hu h.run,Pipes.step_shellHolds hu h.holds,Pipes.step_extends hu h.holds h.grows⟩

theorem settle_entry (k : ℕ) (e : Descriptors (Handle φ)) : (entry e).map (settle k) = e := by
  funext fd
  simp only [entry,Descriptors.map_apply,Option.map_map]
  cases e fd <;> rfl

theorem InCall.back (h : InCall p table call t) (k : ℕ) :
    table.Extends (t.table.map (settle k)) := by
  have hmap := h.grows.map (settle k)
  rwa [settle_entry] at hmap

/-- What a call leaves open shows in the shell's table behind it. -/
theorem InCall.table_eq_iff (h : InCall p table call t) (k : ℕ) :
    t.table.map (settle k) = table ↔ t.table = entry table := by
  constructor
  · intro ht
    refine Descriptors.Extends.antisymm (fun fd f hf => ?_) h.grows
    have hfd : table fd = some (settle k f) := by
      rw [← ht,Descriptors.map_apply,hf]
      rfl
    have hentry : entry table fd = some (.inherited (settle k f)) := by
      rw [entry,Descriptors.map_apply,hfd]
      rfl
    have hsame := h.grows fd _ hentry
    rw [hf] at hsame
    rw [hentry,← hsame]
  · intro ht
    rw [ht,settle_entry]

theorem Settled.back (h : Settled t₀ good table left) (hi : InCall p table call t) {code : ℤ}
    (hc : t.pc = .returned code) (k : ℕ) :
    Settled t₀ (FailsFirst call ∧ good) (t.table.map (settle k))
      (left + (unwaited t).length) := by
  have hrun := hi.run.restored_iff hc
  have hback := hi.back k
  refine ⟨h.grows.trans hback,?_⟩
  constructor
  · rintro ⟨ht,hleft⟩
    -- the table grows, so it was the first one before the call too
    have htable : table = t₀.map .initial :=
      Descriptors.Extends.antisymm (ht ▸ hback) h.grows
    have hsame := (hi.table_eq_iff k).mp (ht.trans htable.symm)
    have hnone : unwaited t = [] := List.eq_nil_of_length_eq_zero (by omega)
    exact ⟨hrun.mp ⟨hsame,hnone⟩,h.restored.mp ⟨htable,by omega⟩⟩
  · rintro ⟨hcall,hgood⟩
    obtain ⟨hsame,hnone⟩ := hrun.mpr hcall
    obtain ⟨htable,hleft⟩ := h.restored.mpr hgood
    exact ⟨((hi.table_eq_iff k).mpr hsame).trans htable,by rw [hnone,hleft]; rfl⟩

/-- The child that `run_command_basic` waits for is none that was left behind. -/
def Mode.own : Mode φ → ℕ
  | .wait => 1
  | _ => 0

/-- The labels so far, against the shell that they lead to. -/
def Traced (t₀ : Descriptors φ) (xs : List Event) (s : Console φ) : Prop :=
  match s.mode with
  | .pipeline p t => ∃ call calls, callsOf xs = call :: calls ∧
      Settled t₀ (∀ c ∈ calls, FailsFirst c) s.table s.processes.length ∧
      InCall p s.table call t
  | m => ∃ left, s.processes.length = left + m.own ∧ Settled t₀ (AllFailFirst xs) s.table left

/-- Outside a pipeline. -/
def Mode.Idle : Mode φ → Prop
  | .pipeline _ _ => False
  | _ => True

theorem Mode.idle_or (m : Mode φ) : m.Idle ∨ ∃ p t, m = .pipeline p t := by
  cases m with
  | pipeline p t => exact Or.inr ⟨p,t,rfl⟩
  | _ => exact Or.inl trivial

theorem traced_idle (hm : s.mode.Idle) : Traced t₀ xs s ↔
    ∃ left, s.processes.length = left + s.mode.own ∧ Settled t₀ (AllFailFirst xs) s.table left := by
  unfold Traced
  cases h : s.mode with
  | pipeline p t =>
    rw [h] at hm
    exact hm.elim
  | _ => rfl

theorem traced_pipeline (hm : s.mode = .pipeline p t) : Traced t₀ xs s ↔
    ∃ call calls, callsOf xs = call :: calls ∧
      Settled t₀ (∀ c ∈ calls, FailsFirst c) s.table s.processes.length ∧
      InCall p s.table call t := by
  rw [Traced,hm]

theorem start_traced (t₀ : Descriptors φ) : Traced t₀ [] (start t₀) := by
  refine (traced_idle ?_).mpr ?_
  · trivial
  refine ⟨0,rfl,Descriptors.Extends.refl _,iff_of_true ⟨rfl,rfl⟩ fun c hc => ?_⟩
  cases hc

/-- A step outside a pipeline that forks and waits for as many children. -/
theorem Traced.quiet (h : Traced t₀ xs s) (hm : s.mode.Idle) (hm' : s'.mode.Idle)
    (hx : AllFailFirst (xs ++ [x]) ↔ AllFailFirst xs) (ht : s'.table = s.table)
    (hp : s'.processes.length + s.mode.own = s.processes.length + s'.mode.own) :
    Traced t₀ (xs ++ [x]) s' := by
  obtain ⟨left,hleft,hs⟩ := (traced_idle hm).mp h
  rw [traced_idle hm']
  refine ⟨left,by omega,?_⟩
  rw [ht]
  exact ⟨hs.grows,hs.restored.trans hx.symm⟩

theorem execute_traced (h : Traced t₀ xs s) (hm : s.mode = .prompt) (alloc : ℕ → Bool)
    (text : Text) : Traced t₀ (xs ++ [.line alloc text]) (s.execute alloc text) := by
  have hidle : s.mode.Idle := by
    rw [hm]
    trivial
  unfold Console.execute
  split
  · exact h.quiet hidle trivial allFailFirst_line rfl (by simp [hm,Mode.own])
  · exact h.quiet hidle hidle allFailFirst_line rfl rfl
  · exact h.quiet hidle trivial allFailFirst_line rfl (by simp [hm,Mode.own])
  · rename_i p _
    obtain ⟨left,hleft,hs⟩ := (traced_idle hidle).mp h
    have hlen : s.processes.length = left := by simpa [hm,Mode.own] using hleft
    rw [traced_pipeline rfl]
    exact ⟨[],callsOf xs,callsOf_concat ..,hlen ▸ hs,inCall_start⟩

theorem step_traced (h : Traced t₀ xs s) (he : step s x = some s') :
    Traced t₀ (xs ++ [x]) s' := by
  cases step_stepped he with
  | line hm => exact execute_traced h hm _ _
  | endOfInput hm =>
    exact h.quiet (by rw [hm]; trivial) trivial (allFailFirst_concat rfl) rfl
      (by simp [hm,Mode.own])
  | forks hm =>
    exact h.quiet (by rw [hm]; trivial) trivial (allFailFirst_concat rfl) rfl
      (by simp [hm,Mode.own,Console.forked])
  | forkFails hm =>
    exact h.quiet (by rw [hm]; trivial) trivial (allFailFirst_concat rfl) rfl
      (by simp [hm,Mode.own])
  | @waits j p hm hp hexit =>
    have hlt : j < s.processes.length := (List.getElem?_eq_some_iff.mp hp).1
    refine h.quiet (by rw [hm]; trivial) trivial (allFailFirst_concat rfl) rfl ?_
    simp only [hm,Mode.own,List.length_eraseIdx_of_lt hlt]
    omega
  | pipeline hm hu =>
    obtain ⟨call,calls,hcalls,hs,hi⟩ := (traced_pipeline hm).mp h
    rw [traced_pipeline rfl]
    refine ⟨_,calls,?_,hs,hi.step hu⟩
    rw [callsOf_concat,hcalls]
    rfl
  | @returned p t code hm hc =>
    obtain ⟨call,calls,hcalls,hs,hi⟩ := (traced_pipeline hm).mp h
    refine (traced_idle ?_).mpr ?_
    · trivial
    refine ⟨s.processes.length + (unwaited t).length,by simp [Console.back,Mode.own],?_⟩
    have hgood : AllFailFirst (xs ++ [.returned]) ↔
        FailsFirst call ∧ ∀ c ∈ calls, FailsFirst c := by
      rw [allFailFirst_concat rfl,AllFailFirst,hcalls,List.forall_mem_cons]
    have hback := hs.back hi hc s.calls
    exact ⟨hback.grows,hback.restored.trans hgood.symm⟩
  | @process j input p q hp hq =>
    rcases s.mode.idle_or with hm | ⟨p,t,hm⟩
    · exact h.quiet hm hm (allFailFirst_concat rfl) rfl (by simp)
    · obtain ⟨call,calls,hcalls,hs,hi⟩ := (traced_pipeline hm).mp h
      apply (traced_pipeline (s := {s with processes := s.processes.set j q}) hm).mpr
      refine ⟨call,calls,?_,?_,hi⟩
      · rw [callsOf_concat,hcalls]
        rfl
      · simpa using hs

theorem runs_traced (h : Runs (Fires step) (start t₀) xs s) : Traced t₀ xs s :=
  h.trace (fun _ _ _ _ hu he => step_traced hu he) (start_traced t₀)

/-- What the shell has open now was open in between: it closes nothing of its own. -/
theorem Traced.grows (h : Traced t₀ xs s) : (t₀.map Handle.initial).Extends s.table := by
  rcases s.mode.idle_or with hm | ⟨p,t,hm⟩
  · obtain ⟨left,_,hs⟩ := (traced_idle hm).mp h
    exact hs.grows
  · obtain ⟨call,calls,_,hs,_⟩ := (traced_pipeline hm).mp h
    exact hs.grows

theorem step_grows (h : Traced t₀ xs s) (he : step s x = some s') : s.table.Extends s'.table := by
  cases step_stepped he with
  | line hm =>
    unfold Console.execute
    split <;> exact Descriptors.Extends.refl _
  | returned hm hc =>
    obtain ⟨call,calls,_,_,hi⟩ := (traced_pipeline hm).mp h
    exact hi.back s.calls
  | _ => exact Descriptors.Extends.refl _

/-- A prompt finds the shell as it started, with no child left, just if no pipeline has failed
behind its first call of `pipe` or `fork`. -/
theorem prompt_restored_iff (t₀ : Descriptors φ) {xs : List Event} {s : Console φ}
    (h : Runs (Fires step) (start t₀) xs s) (hm : s.mode = .prompt) :
    s.table = t₀.map .initial ∧ s.processes = [] ↔ AllFailFirst xs := by
  have hidle : s.mode.Idle := by
    rw [hm]
    trivial
  obtain ⟨left,hleft,hs⟩ := (traced_idle hidle).mp (runs_traced h)
  have hlen : s.processes.length = left := by simpa [hm,Mode.own] using hleft
  rw [← hs.restored,← hlen,List.length_eq_zero_iff]

/-- The second `fork` of a pipeline fails. Then a command is run, and the child that is left of
the pipeline ends before it: the shell finds that one, and prompts. -/
def overtaken : List Event :=
  [.line (fun _ => true) ['a','|','b'],.pipeline (.malloc true),.pipeline .runs,
    .pipeline (.pipe (some (3,4))),.pipeline (.fork true),.pipeline .runs,.pipeline .runs,
    .pipeline .runs,.pipeline (.fork false),.returned,.line (fun _ => true) ['c'],.fork true,
    .process 0 .exits,.wait 0]

theorem prompt_restored_iff_overtaken : ∃ s : Console ℕ, s.mode = .prompt ∧
    (s.table = Pipes.terminal.map .initial ∧ s.processes = [] ↔ AllFailFirst overtaken) ∧
    s.processes.map (fun p => (p.child.cmd.argv,p.child.phase)) = [([some ['c']],.preparing)] := by
  obtain ⟨s,he⟩ := Option.isSome_iff_exists.mp (show
    (exec step (start Pipes.terminal) overtaken).isSome = true from rfl)
  have hrun := runs_of_exec he
  cases he
  exact ⟨_,rfl,prompt_restored_iff Pipes.terminal hrun rfl,rfl⟩

end Traces

section Wired
variable {t₀ : Descriptors φ} {s s' : Console φ} {xs : List Event} {x : Event} {p q : Process φ}

/-- A child of `run_command_basic` was forked from the shell as it once was. -/
def BasicHolds (t₀ : Descriptors φ) (table : Descriptors (Handle φ)) (p : Process φ) : Prop :=
  p.basic = true → ∃ e : Descriptors (Handle φ), (t₀.map Handle.initial).Extends e ∧
    e.Extends table ∧ Pipes.ChildHolds (Pipes.alone p.child.cmd) (entry e) 0 p.child

theorem BasicHolds.mono {table table' : Descriptors (Handle φ)} (h : BasicHolds t₀ table p)
    (ht : table.Extends table') : BasicHolds t₀ table' p := by
  intro hb
  obtain ⟨e,h₀,he,hc⟩ := h hb
  exact ⟨e,h₀,he.trans ht,hc⟩

theorem basicStep_cmd {c d : Child (Handle φ)} {input : ChildInput} {e : Descriptors (Handle φ)}
    (h : Pipes.ChildHolds (Pipes.alone c.cmd) (entry e) 0 c)
    (hd : Pipes.basicStep c input = some d) :
    Pipes.ChildHolds (Pipes.alone d.cmd) (entry e) 0 d := by
  have hnext := Pipes.basicStep_holds h hd
  have hcmd : c.cmd = d.cmd := Option.some.inj hnext.command
  rwa [hcmd] at hnext

theorem process_basicHolds {input : ChildInput} {table : Descriptors (Handle φ)}
    (h : BasicHolds t₀ table p) (hq : p.step input = some q) : BasicHolds t₀ table q := by
  obtain ⟨d,hd,rfl⟩ := Option.map_eq_some_iff.mp hq
  intro hb
  obtain ⟨e,h₀,he,hc⟩ := h hb
  rw [if_pos (show p.basic = true from hb)] at hd
  exact ⟨e,h₀,he,basicStep_cmd hc hd⟩

theorem step_basicHolds (ht₀ : t₀.Standard) (ht : Traced t₀ xs s) (he : step s x = some s')
    (h : ∀ p ∈ s.processes, BasicHolds t₀ s.table p) :
    ∀ p ∈ s'.processes, BasicHolds t₀ s'.table p := by
  have hgrows := step_grows ht he
  cases step_stepped he with
  | line hm =>
    unfold Console.execute
    split <;> exact h
  | @forks cmd hm =>
    intro p hp
    rcases List.mem_append.mp hp with hp | hp
    · exact h p hp
    · rw [List.mem_singleton.mp hp]
      intro _
      have hstandard := ht.grows.standard (ht₀.map _)
      exact ⟨s.table,ht.grows,Descriptors.Extends.refl _,Pipes.basicForked_holds hstandard⟩
  | waits hm hp hexit => exact fun p hp => h p (List.mem_of_mem_eraseIdx hp)
  | returned hm hc =>
    intro p hp
    rcases List.mem_append.mp hp with hp | hp
    · exact (h p hp).mono hgrows
    · obtain ⟨c,_,rfl⟩ := List.mem_map.mp hp
      intro hb
      cases hb
  | process hp hq =>
    intro r hr
    rcases List.mem_or_eq_of_mem_set hr with hr | rfl
    · exact h r hr
    · exact process_basicHolds (h _ (List.mem_of_getElem? hp)) hq
  | _ => exact h

/-- A command on its own gets what a pipeline of one command would get, from a table that lies
between the shell's first one and its present one; after no failure that is the first one. -/
theorem basic_wired (ht₀ : t₀.Standard) (h : Runs (Fires step) (start t₀) xs s)
    (hp : p ∈ s.processes) (hb : p.basic = true) (hx : p.child.AtExecvp) :
    ∃ e : Descriptors (Handle φ), (t₀.map Handle.initial).Extends e ∧ e.Extends s.table ∧
      p.child.table = Pipes.wired 1 0 p.child.cmd (entry e) ∧
      (AllFailFirst xs → e = t₀.map .initial) := by
  have hboth : Traced t₀ xs s ∧ ∀ p ∈ s.processes, BasicHolds t₀ s.table p := by
    refine h.trace (P := fun xs s => Traced t₀ xs s ∧ ∀ p ∈ s.processes, BasicHolds t₀ s.table p)
      ?_ ⟨start_traced t₀,fun p hp => by cases hp⟩
    rintro xs u x v ⟨hu,hall⟩ he
    exact ⟨step_traced hu he,step_basicHolds ht₀ hu he hall⟩
  obtain ⟨ht,hall⟩ := hboth
  obtain ⟨e,h₀,he,hc⟩ := hall p hp hb
  refine ⟨e,h₀,he,?_,fun hgood => ?_⟩
  · have hleads := hc.leads hx.1
    rwa [hx.2] at hleads
  · have htable : s.table = t₀.map .initial := by
      rcases s.mode.idle_or with hm | ⟨p,t,hm⟩
      · obtain ⟨left,_,hs⟩ := (traced_idle hm).mp ht
        exact (hs.restored.mpr hgood).1
      · obtain ⟨call,calls,hcalls,hs,_⟩ := (traced_pipeline hm).mp ht
        rw [AllFailFirst,hcalls,List.forall_mem_cons] at hgood
        exact (hs.restored.mpr hgood.2).1
    exact Descriptors.Extends.antisymm (htable ▸ he) h₀

/-- A command with its output in a file, up to `execvp`. -/
def redirected : List Event :=
  [.line (fun _ => true) ['a',' ','>',' ','o'],.fork true,.process 0 (.opens (some 3)),
    .process 0 .runs,.process 0 .runs]

theorem basic_wired_redirected : ∃ s : Console ℕ, ∃ p ∈ s.processes,
    p.child.cmd = ⟨[some ['a']],none,some ['o'],none⟩ ∧
      p.child.table = Pipes.wired 1 0 p.child.cmd (entry (Pipes.terminal.map .initial)) := by
  obtain ⟨s,he⟩ := Option.isSome_iff_exists.mp (show
    (exec step (start Pipes.terminal) redirected).isSome = true from rfl)
  obtain ⟨p,hp,hcmd,hb,hx⟩ : ∃ p, s.processes = [p] ∧
      p.child.cmd = ⟨[some ['a']],none,some ['o'],none⟩ ∧ p.basic = true ∧ p.child.AtExecvp := by
    cases he
    exact ⟨_,rfl,rfl,rfl,rfl,rfl⟩
  have hmem : p ∈ s.processes := hp ▸ List.mem_cons_self
  obtain ⟨e,_,_,htable,hgood⟩ :=
    basic_wired Pipes.terminal_standard (runs_of_exec he) hmem hb hx
  refine ⟨s,p,hmem,hcmd,?_⟩
  rw [htable,hgood]
  intro call hcall
  rw [List.mem_singleton.mp (show call ∈ [[]] from hcall)]
  exact List.Pairwise.nil

end Wired

end UnixShell.Shell.Foreground
