import UnixShell.Pipes.System

/-! # Who holds which end of which pipe

The shell's table is the one at entry with the ends of the current iteration on top, and
the calls that a child has still to make lead its table to the one wired for its command.
-/
namespace UnixShell.Pipes
open Foundation UnixShell.Parser

variable {φ : Type*} {p : Option Pipeline} {n : ℕ} {s t : State φ} {e : Descriptors (File φ)}
  {prev : Option ℕ} {pipe : Option (ℕ × ℕ)} {i : ℕ} {a : Action}

section Ends

/-- The read end of the pipe before, and both ends of the pipe at `i`, on top of `e`. -/
def ends (i : ℕ) (prev : Option ℕ) (pipe : Option (ℕ × ℕ)) (e : Descriptors (File φ)) :
    Descriptors (File φ) := fun fd =>
  if prev = some fd then some (.readEnd (i-1))
  else if pipe.map Prod.fst = some fd then some (.readEnd i)
  else if pipe.map Prod.snd = some fd then some (.writeEnd i)
  else e fd

/-- The descriptors of the ends are not open below them, and are not each other. -/
structure Apart (prev : Option ℕ) (pipe : Option (ℕ × ℕ)) (e : Descriptors (File φ)) : Prop where
  previous : ∀ fd, prev = some fd → e fd = none
  pipe : ∀ r w, pipe = some (r,w) →
    e r = none ∧ e w = none ∧ r ≠ w ∧ prev ≠ some r ∧ prev ≠ some w

theorem ends_none : ends i none none e = e := by
  funext fd
  simp [ends]

theorem apart_none : Apart none none e := by
  constructor
  · intro fd h
    cases h
  · intro r w h
    cases h

theorem Apart.noPrevious (h : Apart prev pipe e) : Apart none pipe e := by
  constructor
  · intro fd hfd
    cases hfd
  · intro r w hp
    obtain ⟨hr,hw,hne,_,_⟩ := h.pipe r w hp
    exact ⟨hr,hw,hne,by simp,by simp⟩

theorem Apart.next {r w : ℕ} (h : Apart prev (some (r,w)) e) : Apart (some r) none e := by
  constructor
  · intro fd hfd
    cases hfd
    exact (h.pipe r w rfl).1
  · intro r w hp
    cases hp

/-- A descriptor that is not open under the ends is none of them. -/
theorem ends_eq_none {fd : ℕ} (h : ends i prev none e fd = none) :
    e fd = none ∧ prev ≠ some fd := by
  simp only [ends,Option.map_none,reduceCtorEq,if_false] at h
  split_ifs at h with hp
  exact ⟨h,hp⟩

theorem ends_pipe {r w : ℕ} (h : Apart prev none e) (hr : ends i prev none e r = none)
    (hw : ends i prev none e w = none) (hne : r ≠ w) :
    Apart prev (some (r,w)) e ∧
      ((ends i prev none e).install r (.readEnd i)).install w (.writeEnd i) =
        ends i prev (some (r,w)) e := by
  obtain ⟨her,hpr⟩ := ends_eq_none hr
  obtain ⟨hew,hpw⟩ := ends_eq_none hw
  constructor
  · refine ⟨h.previous,fun r' w' hp => ?_⟩
    cases hp
    exact ⟨her,hew,hne,hpr,hpw⟩
  · funext fd
    simp only [Descriptors.install_apply,ends,Option.map_none,Option.map_some,reduceCtorEq,if_false,
      Option.some.injEq]
    grind

theorem ends_closePrevious {fd : ℕ} (h : Apart (some fd) pipe e) :
    (ends i (some fd) pipe e).close fd = ends i none pipe e := by
  have hfd := h.previous fd rfl
  funext old
  simp only [Descriptors.close_apply,ends,Option.some.injEq,reduceCtorEq,if_false]
  cases pipe with
  | none => grind
  | some fds =>
    rcases fds with ⟨r,w⟩
    obtain ⟨_,_,_,hr,hw⟩ := h.pipe r w rfl
    simp only [Option.map_some,Option.some.injEq]
    grind

theorem ends_closeWrite {r w : ℕ} (h : Apart none (some (r,w)) e) :
    (ends i none (some (r,w)) e).close w = ends (i+1) (some r) none e := by
  obtain ⟨_,hw,hne,_,_⟩ := h.pipe r w rfl
  funext old
  simp only [Descriptors.close_apply,ends,Option.map_some,Option.map_none,Option.some.injEq,
    reduceCtorEq,if_false,Nat.add_sub_cancel]
  grind

end Ends

section Shell

/-- The read end that the shell has still to close from the iteration before. -/
def State.heldRead (s : State φ) : Option ℕ :=
  match s.pc with
  | .loop | .pipe | .fork | .closePrevious => s.prevReadFd
  | _ => none

/-- The pipe that the shell has open for this iteration's child. -/
def State.heldPipe (n : ℕ) (s : State φ) : Option (ℕ × ℕ) :=
  match s.pc with
  | .fork | .closePrevious | .closeWrite => s.outgoing n
  | _ => none

def Placed (n i : ℕ) : Pc → Prop
  | .malloc => i = 0
  | .loop => i ≤ n
  | .pipe => i+1 < n
  | .fork | .closePrevious | .closeWrite => i < n
  | .wait _ | .returned _ => i = n

/-- The children forked before this point of the loop. -/
def State.forkCount (s : State φ) : ℕ :=
  match s.pc with
  | .closePrevious | .closeWrite => s.i+1
  | _ => s.i

/-- The shell until a call fails. -/
structure Held (n : ℕ) (e : Descriptors (File φ)) (s : State φ) : Prop where
  placed : Placed n s.i s.pc
  table : s.table = ends s.i s.heldRead (s.heldPipe n) e
  apart : Apart s.heldRead (s.heldPipe n) e
  previous : s.prevReadFd ≠ none ↔ 0 < s.i ∧ s.i < n
  piped : s.pc = .fork → s.i+1 < n → s.pipeFd ≠ none
  count : s.children.length = s.forkCount

def ShellHolds (n : ℕ) (e : Descriptors (File φ)) (s : State φ) : Prop :=
  s.pc ≠ .returned (-1) → Held n e s

theorem start_shellHolds (p : Option Pipeline) (f : Descriptors φ) :
    ShellHolds (numCommands p) (entry f) (start p f) := by
  intro hpc
  have hn : numCommands p ≠ 0 := by
    intro hn
    simp [start,hn] at hpc
  have hs : start p f = ⟨.malloc,0,none,none,entry f,[],[],[]⟩ := by
    simp only [start,if_neg hn]
  rw [hs]
  exact ⟨rfl,ends_none.symm,apart_none,by simp,by simp,rfl⟩

/-- Steps that leave what the shell holds. -/
theorem Held.transfer (h : Held n e s) (hi : t.i = s.i) (ht : t.table = s.table)
    (hr : t.heldRead = s.heldRead) (hp : t.heldPipe n = s.heldPipe n)
    (hv : t.prevReadFd = s.prevReadFd) (hplaced : Placed n s.i t.pc)
    (hpiped : t.pc = .fork → t.i+1 < n → t.pipeFd ≠ none)
    (hcount : t.children.length = t.forkCount) : Held n e t := by
  constructor
  · rw [hi]
    exact hplaced
  · rw [ht,hi,hr,hp]
    exact h.table
  · rw [hr,hp]
    exact h.apart
  · rw [hv,hi]
    exact h.previous
  · exact hpiped
  · exact hcount

theorem step_shellHolds (h : step p s a = some t) (hs : ShellHolds (numCommands p) e s) :
    ShellHolds (numCommands p) e t := by
  intro hpc
  cases step_stepped h with
  | mallocs hm =>
    have hh := hs (by simp [hm])
    have hplaced : s.i = 0 := by simpa [Placed,hm] using hh.placed
    have hv : s.prevReadFd = none := by
      by_contra hv
      have := hh.previous.mp hv
      omega
    have hcount : s.children.length = s.i := by simpa [State.forkCount,hm] using hh.count
    apply hh.transfer <;>
      simp [State.heldRead,State.heldPipe,State.forkCount,Placed,hm,hv,hcount,hplaced]
  | mallocFails hm => exact absurd rfl hpc
  | enterPipe hm hi =>
    have hh := hs (by simp [hm])
    have hcount : s.children.length = s.i := by simpa [State.forkCount,hm] using hh.count
    apply hh.transfer <;> simp [State.heldRead,State.heldPipe,State.forkCount,Placed,hm,hcount,hi]
  | enterFork hm hi =>
    have hh := hs (by simp [hm])
    have hcount : s.children.length = s.i := by simpa [State.forkCount,hm] using hh.count
    have hlt : ¬ s.i+1 < numCommands p := by omega
    apply hh.transfer <;>
      simp [State.heldRead,State.heldPipe,State.outgoing,State.forkCount,Placed,hm,hcount,hlt]
    omega
  | leave hm hi =>
    have hh := hs (by simp [hm])
    have hplaced : s.i ≤ numCommands p := by simpa [Placed,hm] using hh.placed
    have hv : s.prevReadFd = none := by
      by_contra hv
      have := hh.previous.mp hv
      omega
    have hcount : s.children.length = s.i := by simpa [State.forkCount,hm] using hh.count
    apply hh.transfer <;> simp [State.heldRead,State.heldPipe,State.forkCount,Placed,hm,hv,hcount]
    omega
  | @pipes hm r w hr hw hne =>
    have hh := hs (by simp [hm])
    have hplaced : s.i+1 < numCommands p := by simpa [Placed,hm] using hh.placed
    have hread : s.heldRead = s.prevReadFd := by simp [State.heldRead,hm]
    have hpipe : s.heldPipe (numCommands p) = none := by simp [State.heldPipe,hm]
    have htable := hh.table
    have hapart := hh.apart
    rw [hread,hpipe] at htable hapart
    rw [htable] at hr hw
    obtain ⟨hapart,hends⟩ := ends_pipe hapart hr hw hne
    have hcount : s.children.length = s.i := by simpa [State.forkCount,hm] using hh.count
    constructor
    · simp only [Placed]
      omega
    · simp only [State.heldRead,State.heldPipe,State.outgoing,if_pos hplaced,htable]
      exact hends
    · simp only [State.heldRead,State.heldPipe,State.outgoing,if_pos hplaced]
      exact hapart
    · exact hh.previous
    · simp
    · exact hcount
  | pipeFails hm => exact absurd rfl hpc
  | forks hm hc =>
    have hh := hs (by simp [hm])
    have hplaced : s.i < numCommands p := by simpa [Placed,hm] using hh.placed
    have hcount : s.children.length = s.i := by simpa [State.forkCount,hm] using hh.count
    apply hh.transfer <;>
      simp [State.heldRead,State.heldPipe,State.outgoing,State.forkCount,Placed,hm,hcount,hplaced]
  | forkFails hm => exact absurd rfl hpc
  | @closes hm fd hp =>
    have hh := hs (by simp [hm])
    have hplaced : s.i < numCommands p := by simpa [Placed,hm] using hh.placed
    have hread : s.heldRead = some fd := by simp [State.heldRead,hm,hp]
    have htable := hh.table
    have hapart := hh.apart
    rw [hread] at htable hapart
    have hpipe : s.heldPipe (numCommands p) = s.outgoing (numCommands p) := by
      simp [State.heldPipe,hm]
    constructor
    · exact hplaced
    · calc s.table.close fd
          = (ends s.i (some fd) (s.heldPipe (numCommands p)) e).close fd := by rw [htable]
        _ = ends s.i none (s.outgoing (numCommands p)) e := by
          rw [ends_closePrevious hapart,hpipe]
    · have hnext := hapart.noPrevious
      rw [hpipe] at hnext
      exact hnext
    · exact hh.previous
    · simp
    · simpa [State.forkCount,hm] using hh.count
  | keeps hm hp =>
    have hh := hs (by simp [hm])
    have hplaced : s.i < numCommands p := by simpa [Placed,hm] using hh.placed
    have hcount : s.children.length = s.i+1 := by simpa [State.forkCount,hm] using hh.count
    apply hh.transfer <;>
      simp [State.heldRead,State.heldPipe,State.outgoing,State.forkCount,Placed,hm,hp,hcount,
        hplaced]
  | @advance hm hi r w hp =>
    have hh := hs (by simp [hm])
    have hread : s.heldRead = none := by simp [State.heldRead,hm]
    have hpipe : s.heldPipe (numCommands p) = some (r,w) := by
      simp [State.heldPipe,State.outgoing,hm,hi,hp]
    have htable := hh.table
    have hapart := hh.apart
    rw [hread,hpipe] at htable hapart
    constructor
    · simp only [Placed]
      omega
    · simp only [htable,ends_closeWrite hapart]
      rfl
    · exact hapart.next
    · simp [hi]
    · simp
    · simpa [State.forkCount,hm] using hh.count
  | last hm hi =>
    have hh := hs (by simp [hm])
    have hplaced : s.i < numCommands p := by simpa [Placed,hm] using hh.placed
    have hread : s.heldRead = none := by simp [State.heldRead,hm]
    have hpipe : s.heldPipe (numCommands p) = none := by
      simp [State.heldPipe,State.outgoing,hm,Nat.not_lt.mpr hi]
    have htable := hh.table
    rw [hread,hpipe,ends_none] at htable
    constructor
    · simp only [Placed]
      omega
    · simp only [htable]
      exact ends_none.symm
    · exact apart_none
    · simp
      omega
    · simp
    · simpa [State.forkCount,hm] using hh.count
  | waits hm hk hc he =>
    have hh := hs (by simp [hm])
    have hplaced : s.i = numCommands p := by simpa [Placed,hm] using hh.placed
    have hcount : s.children.length = s.i := by simpa [State.forkCount,hm] using hh.count
    apply hh.transfer <;>
      simp [State.heldRead,State.heldPipe,State.forkCount,Placed,hm,hplaced,hcount]
  | returns hm hk =>
    have hh := hs (by simp [hm])
    have hplaced : s.i = numCommands p := by simpa [Placed,hm] using hh.placed
    have hcount : s.children.length = s.i := by simpa [State.forkCount,hm] using hh.count
    apply hh.transfer <;>
      simp [State.heldRead,State.heldPipe,State.forkCount,Placed,hm,hplaced,hcount]
  | child hc hd =>
    have hh := hs hpc
    apply hh.transfer <;> try rfl
    · exact hh.placed
    · exact hh.piped
    · exact List.length_set.trans hh.count

theorem shellHolds {f : Descriptors φ} (h : Reaches (Fires (step p)) (start p f) s) :
    ShellHolds (numCommands p) (entry f) s :=
  h.invariant (fun _ _ _ hs he => step_shellHolds he hs) (start_shellHolds p f)

/-- The loop has ended; the shell waits, or has returned. -/
def State.LoopOver (s : State φ) : Prop := (∃ k, s.pc = .wait k) ∨ s.pc = .returned 0

theorem Held.table_of_loopOver (h : Held n e s) (hs : s.LoopOver) : s.table = e := by
  have htable := h.table
  rcases hs with ⟨k,hs⟩ | hs
  all_goals
    simp only [State.heldRead,State.heldPipe,hs,ends_none] at htable
    exact htable

end Shell

section Children

/-- What the calls that are left make of a table, an `open` in one with its `dup2` and `close`. -/
def effect : List ChildOp → Descriptors (File φ) → Descriptors (File φ)
  | [], t => t
  | .dup2 old new :: ops, t => effect ops (t.dup2 old new)
  | .openOnto name flags target :: ops, t => effect ops (t.install target (.opened name flags))
  | .close fd :: ops, t => effect ops (t.close fd)

/-- Standard input, output and error are replaced, and not closed. -/
def ChildOp.Sound : ChildOp → Prop
  | .dup2 _ _ => True
  | .openOnto _ _ target => target ≤ 2
  | .close fd => 2 < fd

theorem effect_append (ops ops' : List ChildOp) (u : Descriptors (File φ)) :
    effect (ops ++ ops') u = effect ops' (effect ops u) := by
  induction ops generalizing u with
  | nil => rfl
  | cons op ops ih => cases op <;> exact ih _

/-- `open`, `dup2` and `close` leave nothing but the target behind. -/
theorem install_dup2_close {u : Descriptors (File φ)} {fd target : ℕ} {f : File φ}
    (hfd : u fd = none) (hne : fd ≠ target) :
    ((u.install fd f).dup2 fd target).close fd = u.install target f := by
  rw [Descriptors.dup2_open Descriptors.install_same,Descriptors.install_comm hne,
    Descriptors.close_install]
  rw [Descriptors.install_ne hne]
  exact hfd

/-- A redirection, the end of a pipe, or what the shell has at entry. -/
def stream (file : Option Text) (flags : OpenFlags) (piped : Option (File φ)) :
    Option (File φ) :=
  match file with
  | some name => some (.opened name flags)
  | none => piped

def childStdin (i : ℕ) (cmd : Command) (e : Descriptors (File φ)) : Option (File φ) :=
  stream cmd.inputFile .readOnly (if i = 0 then e stdinFileno else some (.readEnd (i-1)))

def childStdout (n i : ℕ) (cmd : Command) (e : Descriptors (File φ)) : Option (File φ) :=
  stream cmd.outputFile .writeCreateTruncate
    (if i+1 < n then some (.writeEnd i) else e stdoutFileno)

def childStderr (cmd : Command) (e : Descriptors (File φ)) : Option (File φ) :=
  stream cmd.errorFile .writeCreateTruncate (e stderrFileno)

/-- The table of the child at `i` when it calls `execvp`. -/
def wired (n i : ℕ) (cmd : Command) (e : Descriptors (File φ)) : Descriptors (File φ) := fun fd =>
  if fd = stdinFileno then childStdin i cmd e
  else if fd = stdoutFileno then childStdout n i cmd e
  else if fd = stderrFileno then childStderr cmd e
  else e fd

theorem effect_redirection (file : Option Text) (flags : OpenFlags) (target : ℕ)
    (u : Descriptors (File φ)) :
    effect (redirection file flags target) u =
      u.put target (stream file flags (u target)) := by
  cases file with
  | none => exact Descriptors.put_self.symm
  | some name => rfl

theorem ends_previous {fd : ℕ} : ends i (some fd) pipe e fd = some (.readEnd (i-1)) := by
  simp [ends]

theorem ends_write {r w : ℕ} (h : Apart prev (some (r,w)) e) :
    ends i prev (some (r,w)) e w = some (.writeEnd i) := by
  obtain ⟨_,_,hne,_,hw⟩ := h.pipe r w rfl
  simp [ends,hw,hne]

/-- The calls of a child that has been given the ends lead to its wiring. -/
theorem effect_childOps {cmd : Command} (h : Apart prev pipe e) (he : e.Standard)
    (hprev : prev ≠ none ↔ 0 < i) (hpipe : pipe ≠ none ↔ i+1 < n) :
    effect (childOps cmd prev pipe) (ends i prev pipe e) = wired n i cmd e := by
  simp only [childOps,effect_append,effect_redirection]
  funext fd
  cases prev with
  | none =>
    cases pipe with
    | none =>
      simp only [effect,Descriptors.put_apply,ends_none,wired,childStdin,childStdout,childStderr,
        stdinFileno,stdoutFileno,stderrFileno]
      grind
    | some fds =>
      rcases fds with ⟨r,w⟩
      obtain ⟨hr,hw,hne,_,_⟩ := h.pipe r w rfl
      have := he.two_lt hr
      have := he.two_lt hw
      simp only [effect,Descriptors.put_apply,wired,childStdin,childStdout,childStderr,
        stdinFileno,stdoutFileno,stderrFileno,Descriptors.dup2_open (ends_write h),
        Descriptors.close_apply,Descriptors.install_apply,ends]
      grind
  | some v => 
    have hv := h.previous v rfl
    have := he.two_lt hv
    cases pipe with
    | none =>
      simp only [effect,Descriptors.put_apply,wired,childStdin,childStdout,childStderr,
        stdinFileno,stdoutFileno,stderrFileno,Descriptors.dup2_open ends_previous,
        Descriptors.close_apply,Descriptors.install_apply,ends]
      grind
    | some fds =>
      rcases fds with ⟨r,w⟩
      obtain ⟨hr,hw,hne,hvr,hvw⟩ := h.pipe r w rfl
      have := he.two_lt hr
      have := he.two_lt hw
      have hwrite : (ends i (some v) (some (r,w)) e).install stdinFileno (.readEnd (i-1)) w =
          some (.writeEnd i) := by
        rw [Descriptors.install_ne (by simp [stdinFileno]; omega)]
        exact ends_write h
      simp only [effect,Descriptors.put_apply,wired,childStdin,childStdout,childStderr,
        Descriptors.dup2_open ends_previous,Descriptors.dup2_open hwrite,
        Descriptors.close_apply,Descriptors.install_apply,ends]
      simp only [stdinFileno,stdoutFileno,stderrFileno]
      grind

theorem redirection_sound {file : Option Text} {flags : OpenFlags} {target : ℕ} (ht : target ≤ 2)
    {op : ChildOp} (hop : op ∈ redirection file flags target) : op.Sound := by
  cases file with
  | none => cases hop
  | some name =>
    rw [List.mem_singleton.mp hop]
    exact ht

theorem childOps_sound {cmd : Command} (h : Apart prev pipe e) (he : e.Standard) {op : ChildOp}
    (hop : op ∈ childOps cmd prev pipe) : op.Sound := by
  simp only [childOps,List.mem_append] at hop
  rcases hop with (((((hop | hop) | hop) | hop) | hop) | hop) | hop
  · cases prev with
    | none => cases hop
    | some fd => rw [List.mem_singleton.mp hop]; trivial
  · cases pipe with
    | none => cases hop
    | some fds => rw [List.mem_singleton.mp hop]; trivial
  · exact redirection_sound (by decide) hop
  · exact redirection_sound (by decide) hop
  · exact redirection_sound (by decide) hop
  · cases prev with
    | none => cases hop
    | some fd =>
      rw [List.mem_singleton.mp hop]
      exact he.two_lt (h.previous fd rfl)
  · cases pipe with
    | none => cases hop
    | some fds =>
      rcases fds with ⟨r,w⟩
      obtain ⟨hr,hw,_⟩ := h.pipe r w rfl
      rcases List.mem_cons.mp hop with rfl | hop
      · exact he.two_lt hr
      · rw [List.mem_singleton.mp hop]
        exact he.two_lt hw

/-- The child at `j` on its way to `execvp`, in its program and after it. -/
structure ChildHolds (p : Option Pipeline) (e : Descriptors (File φ)) (j : ℕ) (c : Child φ) :
    Prop where
  command : command p j = some c.cmd
  writes : ∀ k, c.table.Holds (.writeEnd k) → k = j
  standard : c.phase = .preparing → c.table.Standard
  sound : c.phase = .preparing → ∀ op ∈ c.todo, op.Sound
  leads : c.phase = .preparing → effect c.todo c.table = wired (numCommands p) j c.cmd e
  exited : c.phase = .exited → c.table = .empty

variable {c d : Child φ} {j : ℕ} {input : ChildInput}

theorem ChildHolds.exit (h : ChildHolds p e j c) {c' : Child φ} (hc : c'.cmd = c.cmd) :
    ChildHolds p e j c'.exit := by
  constructor
  · exact hc ▸ h.command
  · intro k hk
    exact absurd hk Descriptors.not_holds_empty
  · intro hp
    cases hp
  · intro hp
    cases hp
  · intro hp
    cases hp
  · intro _
    rfl

/-- A call that is made leaves the rest of the calls with the table they lead to. -/
theorem ChildHolds.prepare (h : ChildHolds p e j c) (hp : c.phase = .preparing)
    {u : Descriptors (File φ)} {ops : List ChildOp}
    (hw : ∀ k, u.Holds (.writeEnd k) → c.table.Holds (.writeEnd k)) (hu : u.Standard)
    (hops : ∀ op ∈ ops, op.Sound) (hl : effect ops u = effect c.todo c.table) :
    ChildHolds p e j {c with table := u, todo := ops} := by
  constructor
  · exact h.command
  · intro k hk
    exact h.writes k (hw k hk)
  · intro _
    exact hu
  · intro _
    exact hops
  · intro _
    exact hl.trans (h.leads hp)
  · intro hn
    rw [hp] at hn
    cases hn

theorem step_childHolds (hd : c.step input = some d) (h : ChildHolds p e j c) :
    ChildHolds p e j d := by
  unfold Child.step at hd
  split at hd
  · rename_i old new rest hp htodo
    cases hd
    have hsound := htodo ▸ h.sound hp
    apply h.prepare hp
    · intro k hk
      exact hk.of_dup2
    · exact (h.standard hp).dup2
    · intro op hop
      exact hsound op (List.mem_cons_of_mem _ hop)
    · rw [htodo]
      rfl
  · rename_i fd rest hp htodo
    cases hd
    have hsound := htodo ▸ h.sound hp
    apply h.prepare hp
    · intro k hk
      exact hk.of_close
    · exact (h.standard hp).close (hsound _ List.mem_cons_self)
    · intro op hop
      exact hsound op (List.mem_cons_of_mem _ hop)
    · rw [htodo]
      rfl
  · rename_i fd name flags target rest hp htodo
    split_ifs at hd with hfd
    cases hd
    have hsound := htodo ▸ h.sound hp
    have htarget : target ≤ 2 := hsound _ List.mem_cons_self
    have hlt := (h.standard hp).two_lt hfd
    apply h.prepare hp
    · intro k hk
      rcases hk.of_install with hk | hk
      · cases hk
      · exact hk
    · exact (h.standard hp).install
    · intro op hop
      rcases List.mem_cons.mp hop with rfl | hop
      · trivial
      rcases List.mem_cons.mp hop with rfl | hop
      · exact hlt
      · exact hsound op (List.mem_cons_of_mem _ hop)
    · rw [htodo]
      simp only [effect]
      rw [install_dup2_close hfd (by omega)]
  · cases hd
    exact h.exit rfl
  · rename_i hp htodo
    cases hd
    constructor
    · exact h.command
    · exact h.writes
    · intro hn
      cases hn
    · intro hn
      cases hn
    · intro hn
      cases hn
    · intro hn
      cases hn
  · cases hd
    exact h.exit rfl
  · cases hd
    exact h.exit rfl
  · cases hd
    exact h.exit rfl
  · cases hd

/-- A forked child holds no write end but the one of its own pipe. -/
theorem ends_writes {k : ℕ} (h : (ends i prev pipe e).Holds (.writeEnd k))
    (he : ¬ e.Holds (.writeEnd k)) : k = i := by
  obtain ⟨fd,h⟩ := h
  simp only [ends] at h
  split_ifs at h
  · cases h
  · cases h
  · cases h
    rfl
  · exact absurd ⟨fd,h⟩ he

theorem forked_childHolds {cmd : Command} (h : Held (numCommands p) e s) (he : e.Standard)
    (hw : ∀ k, ¬ e.Holds (.writeEnd k)) (hpc : s.pc = .fork)
    (hc : command p s.i = some cmd) : ChildHolds p e s.i (s.forked (numCommands p) cmd) := by
  have hi : s.i < numCommands p := by simpa [Placed,hpc] using h.placed
  have htable := h.table
  have hapart := h.apart
  simp only [State.heldRead,State.heldPipe,hpc] at htable hapart
  have hprev : s.prevReadFd ≠ none ↔ 0 < s.i := by
    rw [h.previous]
    exact and_iff_left hi
  have hpipe : s.outgoing (numCommands p) ≠ none ↔ s.i+1 < numCommands p := by
    unfold State.outgoing
    split_ifs with hlt
    · exact iff_of_true (h.piped hpc hlt) hlt
    · exact iff_of_false (by simp) hlt
  constructor
  · exact hc
  · intro k hk
    simp only [State.forked,htable] at hk
    exact ends_writes hk (hw k)
  · intro _ fd hfd hn
    simp only [State.forked,htable,ends] at hn
    split_ifs at hn
    exact he fd hfd hn
  · intro _ op hop
    exact childOps_sound hapart he hop
  · intro _
    simp only [State.forked,htable]
    exact effect_childOps hapart he hprev hpipe
  · intro hn
    cases hn

def ChildrenHold (p : Option Pipeline) (e : Descriptors (File φ)) (s : State φ) : Prop :=
  ∀ j c, s.children[j]? = some c → ChildHolds p e j c

theorem step_childrenHold (h : step p s a = some t) (hs : ShellHolds (numCommands p) e s)
    (he : e.Standard) (hw : ∀ k, ¬ e.Holds (.writeEnd k)) (hc : ChildrenHold p e s) :
    ChildrenHold p e t := by
  cases step_stepped h with
  | @forks hm cmd hcmd =>
    have hh := hs (by simp [hm])
    have hcount : s.children.length = s.i := by simpa [State.forkCount,hm] using hh.count
    intro j c hj
    rw [List.getElem?_append] at hj
    split_ifs at hj with hlt
    · exact hc j c hj
    · rw [List.getElem?_singleton] at hj
      split_ifs at hj with hz
      obtain rfl : j = s.i := by omega
      cases hj
      exact forked_childHolds hh he hw hm hcmd
  | child hj hd =>
    intro k c hk
    rw [List.getElem?_set] at hk
    split_ifs at hk with hjk hlt
    · cases hk
      rw [← hjk]
      exact step_childHolds hd (hc _ _ hj)
    · exact hc k c hk
  | _ => exact hc

theorem entry_noEnd (f : Descriptors φ) (k : ℕ) :
    ¬ (entry f).Holds (.readEnd k) ∧ ¬ (entry f).Holds (.writeEnd k) := by
  constructor <;> rintro ⟨fd,h⟩ <;>
    obtain ⟨_,_,h⟩ := Option.map_eq_some_iff.mp h <;> cases h

theorem childrenHold {f : Descriptors φ} (hf : f.Standard)
    (h : Reaches (Fires (step p)) (start p f) s) : ChildrenHold p (entry f) s := by
  have hboth : ShellHolds (numCommands p) (entry f) s ∧ ChildrenHold p (entry f) s := by
    apply h.invariant (P := fun u => ShellHolds (numCommands p) (entry f) u ∧
      ChildrenHold p (entry f) u)
    · rintro u b v ⟨hu,hc⟩ hb
      exact ⟨step_shellHolds hb hu,
        step_childrenHold hb hu (hf.map _) (fun k => (entry_noEnd f k).2) hc⟩
    · exact ⟨start_shellHolds p f,fun j c hj => by cases hj⟩
  exact hboth.2

end Children

section Wired

/-- The shell or the child of a command. -/
inductive Process
  | shell
  | child (j : ℕ)

def State.tableOf (s : State φ) : Process → Descriptors (File φ)
  | .shell => s.table
  | .child j => (s.children[j]?).elim .empty Child.table

/-- Nobody holds the write end of the pipe, so what its reader has not read is all there is. -/
def State.EndOfFile (s : State φ) (k : ℕ) : Prop := ∀ q, ¬ (s.tableOf q).Holds (.writeEnd k)

/-- The streams of the command at `i`, and no further end of a pipe. -/
structure Wired (n i : ℕ) (cmd : Command) (f : Descriptors φ) (u : Descriptors (File φ)) :
    Prop where
  stdin : u stdinFileno = childStdin i cmd (entry f)
  stdout : u stdoutFileno = childStdout n i cmd (entry f)
  stderr : u stderrFileno = childStderr cmd (entry f)
  others : ∀ fd k, 2 < fd → u fd ≠ some (.readEnd k) ∧ u fd ≠ some (.writeEnd k)

theorem wired_wired {cmd : Command} (f : Descriptors φ) :
    Wired n i cmd f (wired n i cmd (entry f)) := by
  constructor
  · rfl
  · rfl
  · rfl
  · intro fd k hfd
    obtain ⟨hread,hwrite⟩ := entry_noEnd f k
    have hu : wired n i cmd (entry f) fd = entry f fd := by
      simp [wired,stdinFileno,stdoutFileno,stderrFileno,show fd ≠ 0 by omega,
        show fd ≠ 1 by omega,show fd ≠ 2 by omega]
    rw [hu]
    exact ⟨fun h => hread ⟨fd,h⟩,fun h => hwrite ⟨fd,h⟩⟩

/-- Every child reaches `execvp` with its streams in place; once the loop is over a pipe's
write end is with the child before the pipe alone, and its exit is the end of the data. -/
theorem execvp_wired (p : Pipeline) (f : Descriptors φ) (hf : f.Standard) {s : State φ}
    (h : Reaches (Fires (step (some p))) (start (some p) f) s) :
    (∀ i c, s.children[i]? = some c → c.AtExecvp →
      ∃ cmd, p.commands[i]? = some cmd ∧ Wired p.numCommands i cmd f c.table) ∧
    (s.LoopOver →
      (∀ k, ¬ s.table.Holds (.readEnd k) ∧ ¬ s.table.Holds (.writeEnd k)) ∧
      (∀ k q, (s.tableOf q).Holds (.writeEnd k) → q = .child k) ∧
      ∀ k c, s.children[k]? = some c → c.phase = .exited → s.EndOfFile k) := by
  have hchildren := childrenHold hf h
  constructor
  · rintro i c hc ⟨hp,htodo⟩
    have hi := hchildren i c hc
    have htable : c.table = wired p.numCommands i c.cmd (entry f) := by
      have hl := hi.leads hp
      rw [htodo] at hl
      exact hl
    rw [htable]
    exact ⟨c.cmd,hi.command,wired_wired f⟩
  · intro hover
    have hpc : s.pc ≠ .returned (-1) := by
      rcases hover with ⟨k,hk⟩ | hk <;> simp [hk]
    have htable := (shellHolds h hpc).table_of_loopOver hover
    have hshell : ∀ k, ¬ s.table.Holds (.readEnd k) ∧ ¬ s.table.Holds (.writeEnd k) := by
      intro k
      rw [htable]
      exact entry_noEnd f k
    have hholder : ∀ k q, (s.tableOf q).Holds (.writeEnd k) → q = .child k := by
      intro k q hq
      cases q with
      | shell => exact absurd hq (hshell k).2
      | child j =>
        cases hc : s.children[j]? with
        | none =>
          simp only [State.tableOf,hc] at hq
          exact absurd hq Descriptors.not_holds_empty
        | some c =>
          simp only [State.tableOf,hc] at hq
          rw [(hchildren j c hc).writes k hq]
    refine ⟨hshell,hholder,fun k c hc he q hq => ?_⟩
    obtain rfl := hholder k q hq
    simp only [State.tableOf,hc,Option.elim_some,(hchildren k c hc).exited he] at hq
    exact Descriptors.not_holds_empty hq

/-- Descriptors 0, 1 and 2 and no others. -/
def terminal : Descriptors ℕ := fun fd => if fd ≤ 2 then some fd else none

theorem terminal_standard : terminal.Standard := by
  intro fd hfd
  simp [terminal,hfd]

def simple (name : Char) : Command := ⟨[some [name]],none,none,none⟩

def threeCommands : Pipeline := ⟨[simple 'a',simple 'b',simple 'c'],3⟩

/-- The whole loop for three commands, and the second child's way to `execvp`. -/
def threeForks : List Action :=
  [.malloc true,.runs,.pipe (some (3,4)),.fork true,.runs,.runs,.runs,.pipe (some (4,5)),.fork true,
    .runs,.child 1 .runs,.runs,.runs,.fork true,.child 1 .runs,.child 1 .runs,.runs,.child 1 .runs,
    .runs,.child 1 .runs,.runs]

theorem execvp_wired_threeForks : ∃ (s : State ℕ) (c : Child ℕ), s.LoopOver ∧
    s.children[1]? = some c ∧ c.AtExecvp ∧ c.table stdinFileno = some (.readEnd 0) ∧
    c.table stdoutFileno = some (.writeEnd 1) ∧ c.table stderrFileno = some (.inherited 2) ∧
    ∀ q, (s.tableOf q).Holds (.writeEnd 1) → q = .child 1 := by
  obtain ⟨s,he⟩ := Option.isSome_iff_exists.mp (show
    (exec (step (some threeCommands)) (start (some threeCommands) terminal)
      threeForks).isSome = true
    from rfl)
  obtain ⟨hwired,hover⟩ :=
    execvp_wired threeCommands terminal terminal_standard (reaches_of_exec he)
  cases he
  have hloop : ∀ u : State ℕ, u.pc = .wait 0 → u.LoopOver := fun u hu => .inl ⟨0,hu⟩
  obtain ⟨cmd,hcmd,hw⟩ := hwired 1 _ rfl ⟨rfl,rfl⟩
  cases hcmd
  exact ⟨_,_,hloop _ rfl,rfl,⟨rfl,rfl⟩,hw.stdin,hw.stdout,hw.stderr,
    (hover (hloop _ rfl)).2.1 1⟩

end Wired

end UnixShell.Pipes
