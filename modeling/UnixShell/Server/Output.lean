import UnixShell.Server.Piping
import UnixShell.Server.Bursts
import UnixShell.Server.Answers

/-! # The output of a program

What a child writes passes through its pipe and the buffer of the drain into the payloads
of progress packets. At every point of a run the bytes sent, those in the buffer and those
in the pipe make up what was written, in this order.
-/
namespace UnixShell.Server
open Foundation Scheduler

def payloads (pieces : List Piece) : Text :=
  pieces.flatMap fun
    | .payload bytes => bytes
    | _ => []

/-- The payloads of the progress packets that were sent for a task. -/
def streamed (t : ContextRef) (log : List ServerEvent) : Text :=
  payloads (pieces (progressOf t) log)

/-- What is in the pipe of a context. -/
def unread (context : TaskContext) (procs : Processes) : Text :=
  match context.pipeFd with
  | some pid => (procs pid).pipe
  | none => []

/-- What `task_context_drain_pipe` has read and not sent. -/
def chunkOf : ExecutorPc → Text
  | .sending _ chunk _ => chunk
  | _ => []

/-- The drains after the child was reaped. -/
def Site.over : Site → Bool
  | .reaped => true
  | .final => true
  | _ => false

def Exit.over : Exit → Bool
  | .reaped => true
  | .final => true
  | _ => false

/-- The round is given up, and with it what is still in the pipe. -/
def ExecutorPc.lost : ExecutorPc → Bool
  | .exiting exit _ => !exit.regular
  | .returned exit => !exit.regular
  | _ => false

/-- What is left to send of a packet. -/
inductive Unsent (chunk : Text) : List Piece → Prop
  | packet : Unsent chunk [.status .serverProgress,.size chunk.length,.payload chunk]
  | size : Unsent chunk [.size chunk.length,.payload chunk]
  | payload : Unsent chunk [.payload chunk]

/-- On the way out of a round that was not given up. -/
def Leaves (context : TaskContext) (procs : Processes) (exit : Exit) : Prop :=
  (context.childPid = none ↔ exit.over = true) ∧ (exit.over = true → unread context procs = [])

/-- The child and its pipe at the points of the executor. -/
def AtPoint (context : TaskContext) (procs : Processes) : ExecutorPc → Prop
  | .start => context.childPid = none → context.pipeFd = none
  | .program => context.childPid = none → context.pipeFd = none
  | .shell => False
  | .draining site => context.childPid = none ↔ site.over = true
  | .sending site chunk pieces =>
    (context.childPid = none ↔ site.over = true) ∧ Unsent chunk pieces
  | .exiting exit ops => ops <:+ exitOps exit ∧ Leaves context procs exit
  | .returned exit => Leaves context procs exit
  | _ => context.childPid ≠ none

/-- What a child wrote, as it is spread over the connection, the drain and the pipe. -/
structure Streaming (written sent : Text) (context : TaskContext) (procs : Processes)
    (pc : ExecutorPc) : Prop where
  streams : streams context = true
  output : context.output = []
  total : context.bytesSentTotal = sent.length
  balance : sent ++ chunkOf pc ++ unread context procs = written
  /-- The child is the only writer of its pipe. -/
  writer : ∀ p, context.pipeFd = some p → context.childPid = some p ∨ (procs p).state = .reaped
  /-- The pipe is closed only when the child has exited. -/
  closed : ∀ p, context.childPid = some p → context.pipeFd = some p ∨
    context.pipeFd = none ∧ (procs p).alive = false
  point : AtPoint context procs pc

section Moves
variable {v : View} {r : Round} {i : Input} {m : Move} {written sent : Text} {pc pc' : ExecutorPc}
  {context context' : TaskContext} {procs procs' : Processes}

theorem payloads_append (a b : List Piece) : payloads (a ++ b) = payloads a ++ payloads b :=
  List.flatMap_append

/-- The child may have stopped, gone on or ended; nothing was read or written. -/
theorem Streaming.ages (h : Streaming written sent context procs pc) {running : Bool} {count : ℤ}
    (hc : context' = { context with childRunning := running, refcount := count })
    (hages : ∀ p, context.Holds p → Ages (procs p) (procs' p)) (hchunk : chunkOf pc' = chunkOf pc)
    (hpoint : AtPoint context' procs' pc') : Streaming written sent context' procs' pc' := by
  have hpipe : context'.pipeFd = context.pipeFd := by rw [hc]
  have hchild : context'.childPid = context.childPid := by rw [hc]
  refine ⟨?_,?_,?_,?_,?_,?_,hpoint⟩
  · rw [hc]
    exact h.streams
  · rw [hc]
    exact h.output
  · rw [hc]
    exact h.total
  · have hunread : unread context' procs' = unread context procs := by
      unfold unread
      rw [hpipe]
      split
      · rename_i p hp
        exact (hages p (Or.inl hp)).pipe
      · rfl
    rw [hunread,hchunk]
    exact h.balance
  · intro p hp
    rw [hpipe] at hp
    rw [hchild]
    rcases h.writer p hp with hw | hw
    · exact Or.inl hw
    · exact Or.inr ((hages p (Or.inl hp)).reaped hw)
  · intro p hp
    rw [hchild] at hp
    rw [hpipe]
    rcases h.closed p hp with hw | ⟨hw,hd⟩
    · exact Or.inl hw
    · exact Or.inr ⟨hw,(hages p (Or.inr hp)).dead hd⟩

/-- Only control moves on. -/
theorem Streaming.goto (h : Streaming written sent context procs pc)
    (hchunk : chunkOf pc' = chunkOf pc) (hpoint : AtPoint context procs pc') :
    Streaming written sent context procs pc' :=
  h.ages rfl (fun _ _ => Ages.refl _) hchunk hpoint

theorem streamed_append (k : ContextRef) (new log : List ServerEvent) :
    streamed k (new ++ log) = streamed k log ++ streamed k new := by
  rw [streamed,pieces_append,payloads_append]
  rfl

theorem streamed_quiet {k : ContextRef} {events : List ServerEvent}
    (h : ∀ e ∈ events, progressOf k e = none) : streamed k events = [] := by
  rw [streamed,pieces_nil h]
  rfl

theorem drained_point {site : Site} (h : context.childPid = none ↔ site.over = true)
    (hempty : unread context procs = []) : AtPoint context procs (drained true site) := by
  cases site with
  | tick =>
    intro hc
    cases h.mp hc
  | reaped => exact ⟨List.suffix_rfl,h,fun _ => hempty⟩
  | preempted => exact ⟨List.suffix_rfl,h,fun _ => hempty⟩
  | quantumEnd => exact ⟨List.suffix_rfl,h,fun _ => hempty⟩
  | final => exact ⟨List.suffix_rfl,h,fun _ => hempty⟩

theorem chunkOf_drained (ok : Bool) (site : Site) : chunkOf (drained ok site) = [] := by
  cases site <;> cases ok <;> rfl

/-- The answers to the drain's calls where no `send_all` fails and `read` fails at most
because the pipe is empty. -/
def Input.transfers (i : Input) (context : TaskContext) (procs : Processes) : Prop :=
  i ≠ .sent false ∧ i ≠ .readError ∧ (i = .readAgain → unread context procs = [])

theorem taskContextDrainPipe_streaming {site : Site} (h : taskContextDrainPipe v r site i = some m)
    (hs : Streaming written sent v.context v.procs (.draining site))
    (hi : i.transfers v.context v.procs) : m.events = [] ∧
    Streaming written sent m.context m.procs m.round.pc := by
  unfold taskContextDrainPipe at h
  split at h
  case h_1 hc =>
    cases h
    refine ⟨rfl,hs.goto (chunkOf_drained _ _) (drained_point hs.point ?_)⟩
    simp [unread,hc]
  case h_2 pid size allocOk hc =>
    dsimp only at h
    split at h
    · rename_i hsize
      rw [if_pos hs.streams] at h
      cases h
      refine ⟨rfl,hs.streams,hs.output,hs.total,?_,?_,?_,hs.point,?_⟩
      · have hb := hs.balance
        simp only [chunkOf,unread,hc,List.append_nil] at hb
        simp only [chunkOf,unread,goto,hc,Function.update_self,List.append_assoc,
          List.take_append_drop]
        exact hb
      · intro p hp
        rcases hs.writer p hp with hw | hw
        · exact Or.inl hw
        · right
          obtain rfl : pid = p := Option.some.inj (hc.symm.trans hp)
          simpa using hw
      · intro p hp
        rcases hs.closed p hp with hw | ⟨hw,_⟩
        · exact Or.inl hw
        · rw [hc] at hw
          cases hw
      · rw [packetPieces,if_neg (List.ne_nil_of_length_pos hsize.1)]
        exact .packet
    · cases h
  case h_3 pid hc =>
    split at h
    · rename_i hend
      cases h
      have hpipe : unread v.context v.procs = [] := by
        simp [unread,hc,hend.1]
      refine ⟨rfl,hs.streams,hs.output,hs.total,?_,?_,?_,?_⟩
      · have hb : sent ++ [] ++ unread v.context v.procs = written := hs.balance
        rw [hpipe] at hb
        show sent ++ chunkOf (drained true site) ++ [] = written
        rw [chunkOf_drained]
        exact hb
      · intro p hp
        cases hp
      · intro p hp
        right
        refine ⟨rfl,?_⟩
        rcases hs.closed p hp with hw | ⟨hw,_⟩
        · obtain rfl : pid = p := Option.some.inj (hc.symm.trans hw)
          show (v.procs pid).alive = false
          simpa using hend.2
        · rw [hc] at hw
          cases hw
      · exact drained_point hs.point rfl
    · cases h
  case h_4 =>
    cases h
    exact ⟨rfl,hs.goto (chunkOf_drained _ _) (drained_point hs.point (hi.2.2 rfl))⟩
  case h_5 => exact (hi.2.1 rfl).elim
  case h_6 => cases h

theorem sendProgress_streaming {site : Site} {chunk : Text} {rest : List Piece}
    (h : sendProgress v r site chunk rest i = some m)
    (hs : Streaming written sent v.context v.procs (.sending site chunk rest))
    (hi : i.transfers v.context v.procs) :
    Streaming written (sent ++ streamed r.context m.events) m.context m.procs m.round.pc := by
  obtain ⟨hchild,hunsent⟩ := hs.point
  unfold sendProgress at h
  split at h
  · rename_i piece rest connection _
    have hpiece : streamed r.context [.progress connection r.context piece] =
        payloads [piece] := by
      simp [streamed,pieces,progressOf]
    dsimp only at h
    split at h
    · rename_i hrest
      subst hrest
      cases h
      obtain rfl : piece = .payload chunk := by
        cases hunsent
        rfl
      have hsent : streamed r.context [.progress connection r.context (.payload chunk)] =
          chunk := by
        rw [hpiece]
        simp [payloads]
      refine ⟨hs.streams,hs.output,?_,?_,hs.writer,hs.closed,hchild⟩
      · rw [hsent,List.length_append,← hs.total]
      · have hb : sent ++ chunk ++ unread v.context v.procs = written := hs.balance
        rw [hsent]
        show sent ++ chunk ++ [] ++ unread v.context v.procs = written
        rw [List.append_nil]
        exact hb
    · rename_i hrest
      cases h
      have hsent : streamed r.context [.progress connection r.context piece] = [] := by
        rw [hpiece]
        cases hunsent with
        | payload => exact (hrest rfl).elim
        | _ => rfl
      have hnext : Unsent chunk rest := by
        cases hunsent with
        | packet => exact .size
        | size => exact .payload
        | payload => exact (hrest rfl).elim
      simp only [goto]
      rw [hsent,List.append_nil]
      exact hs.goto rfl ⟨hchild,hnext⟩
  · exact (hi.1 rfl).elim
  · cases h

theorem executeProgramTask_streaming (h : executeProgramTask v r i = some m)
    (hs : Streaming written sent v.context v.procs .program) (hlost : m.round.pc.lost = false) :
    m.events = [] ∧ Streaming written sent m.context m.procs m.round.pc := by
  unfold executeProgramTask at h
  split at h
  · cases h
    cases hlost
  · split at h
    · rename_i hchild
      cases h
      have hpipe : v.context.pipeFd = none := hs.point hchild
      refine ⟨rfl,hs.streams,hs.output,hs.total,?_,?_,?_,Option.some_ne_none _⟩
      · have hb := hs.balance
        simp only [unread,hpipe,chunkOf] at hb
        simpa [unread,chunkOf,goto,taskContextStartChild] using hb
      · intro p hp
        exact Or.inl hp
      · intro p hp
        exact Or.inl hp
    · cases h
      cases hlost
    · rename_i pid ok hchild
      have hne : v.context.childPid ≠ none := by
        rw [hchild]
        exact Option.some_ne_none _
      split at h
      · cases h
        exact ⟨rfl,hs.goto rfl hne⟩
      · rename_i hrun
        split at h
        · cases h
          obtain ⟨⟨running,hctx⟩,hages⟩ := resumeChild_ages v.context v.procs
          refine ⟨rfl,hs.ages hctx (fun p _ => hages p) rfl ?_⟩
          show (taskContextResumeChild v.context v.procs).1.childPid ≠ none
          rw [hctx]
          exact hne
        · cases h
          cases hlost
    · cases h

/-- In the loop the child is there. -/
theorem point_of_child (context : TaskContext) {site : Site} (h : context.childPid ≠ none)
    (hsite : site.over = false) :
    context.childPid = none ↔ site.over = true := by
  rw [hsite]
  constructor
  · exact fun hc => (h hc).elim
  · exact fun hc => (by cases hc)

theorem stopAndDrain_streaming {site : Site} (hs : Streaming written sent v.context v.procs pc)
    (hchunk : chunkOf pc = []) (hchild : v.context.childPid ≠ none) (hsite : site.over = false) :
    Streaming written sent (stopAndDrain v r site).context (stopAndDrain v r site).procs
      (stopAndDrain v r site).round.pc := by
  obtain ⟨⟨running,hctx⟩,hages⟩ := stopChild_ages v.context v.procs
  have hchunk' : chunkOf (.draining site) = chunkOf pc := hchunk.symm
  apply hs.ages hctx (fun p _ => hages p) hchunk'
  show (taskContextStopChild v.context v.procs).1.childPid = none ↔ site.over = true
  rw [hctx]
  exact point_of_child v.context hchild hsite

/-- The child was reaped: nobody writes to its pipe any more. -/
theorem childReaped_streaming (site : Site) {pid : Pid} {m : Move}
    (hs : Streaming written sent v.context v.procs pc) (hchunk : chunkOf pc = [])
    (hchild : v.context.childPid = some pid) (hsite : site.over = true)
    (hm : (m.context,m.procs) = childReaped v.context v.procs pid)
    (hp : m.round.pc = .draining site) :
    Streaming written sent m.context m.procs m.round.pc := by
  obtain ⟨hctx,hprocs⟩ := Prod.mk.inj hm
  have hages : ∀ p, Ages (v.procs p) (m.procs p) := by
    rw [hprocs]
    apply ages_setState
    · intro _
      constructor <;> simp
    · intro _
      rfl
  rw [hctx,hp]
  refine ⟨hs.streams,hs.output,hs.total,?_,?_,?_,?_⟩
  · have hunread : unread { v.context with childPid := none, childRunning := false } m.procs =
        unread v.context v.procs := by
      unfold unread
      dsimp only
      split
      · exact (hages _).pipe
      · rfl
    have hb := hs.balance
    rw [hchunk] at hb
    rw [hunread]
    exact hb
  · intro p hp
    right
    rcases hs.writer p hp with hw | hw
    · obtain rfl : pid = p := Option.some.inj (hchild.symm.trans hw)
      rw [hprocs]
      simp [setState]
    · exact (hages p).reaped hw
  · intro p hp
    cases hp
  · exact ⟨fun _ => hsite,fun _ => rfl⟩

/-- A round that is not given up leaves with the clock, its slice and the answer. -/
theorem regular_ops {exit : Exit} (h : exit.regular = true) {op : ExitOp}
    (hop : op ∈ exitOps exit) :
    (∃ preempted, op = .advanceClock preempted) ∨ op = .appendSlice ∨ op = .finishDone := by
  have hops : ∀ preempted, op ∈ [.advanceClock preempted,.appendSlice,.finishDone] →
      (∃ preempted, op = .advanceClock preempted) ∨ op = .appendSlice ∨ op = .finishDone := by
    intro preempted hmem
    simp only [List.mem_cons,List.not_mem_nil,or_false] at hmem
    exact hmem.imp_left fun h => ⟨preempted,h⟩
  cases exit with
  | reaped => exact hops false hop
  | final => exact hops false hop
  | preempted => exact hops true (List.mem_of_mem_dropLast (l := [_,_,ExitOp.finishDone]) hop)
  | quantumEnd => exact hops true (List.mem_of_mem_dropLast (l := [_,_,ExitOp.finishDone]) hop)
  | _ => cases h

theorem exitStep_streaming {exit : Exit} {op : ExitOp} {rest : List ExitOp}
    (h : exitStep v r exit op rest i = some m)
    (hs : Streaming written sent v.context v.procs (.exiting exit (op :: rest)))
    (hlost : m.round.pc.lost = false) :
    streamed r.context m.events = [] ∧ Streaming written sent m.context m.procs m.round.pc := by
  obtain ⟨hsuffix,hleaves⟩ := hs.point
  have hpc : m.round.pc = .exiting exit rest := by
    unfold exitStep at h
    dsimp only at h
    split at h
    case h_2 => split at h <;> cases h <;> rfl
    case h_6 => split at h <;> cases h <;> rfl
    all_goals cases h <;> rfl
  have hregular : exit.regular = true := by
    rw [hpc] at hlost
    simpa [ExecutorPc.lost] using hlost
  have hpoint : AtPoint v.context v.procs (.exiting exit rest) :=
    ⟨(List.suffix_cons op rest).trans hsuffix,hleaves⟩
  rcases regular_ops hregular (hsuffix.subset List.mem_cons_self) with ⟨preempted,rfl⟩ | rfl | rfl
  · cases i with
    | go =>
      cases h
      exact ⟨rfl,hs.goto rfl hpoint⟩
    | _ => cases h
  · cases i with
    | go =>
      simp only [exitStep] at h
      split at h
      · cases h
        exact ⟨rfl,hs.goto rfl hpoint⟩
      · cases h
        exact ⟨rfl,hs.goto rfl hpoint⟩
    | _ => cases h
  · cases i with
    | go =>
      cases h
      refine ⟨rfl,hs.streams,hs.output,?_,hs.balance,hs.writer,hs.closed,hpoint⟩
      have hpos : ¬ v.context.initialBurst ≤ 0 := by
        have hstreams := hs.streams
        simp only [Server.streams,Bool.and_eq_true,decide_eq_true_eq] at hstreams
        omega
      rw [← hs.total]
      simp [doneWith,taskContextSetDone,hpos]
    | _ => cases h

/-- A move of the executor passes the bytes on in their order, or gives the round up. -/
theorem serverTaskExecutor_streaming (h : serverTaskExecutor v r i = some m)
    (hty : v.task.type = .program) (hs : Streaming written sent v.context v.procs r.pc)
    (hi : i.transfers v.context v.procs) (hlost : m.round.pc.lost = false) :
    Streaming written (sent ++ streamed r.context m.events) m.context m.procs m.round.pc := by
  -- the moves that send nothing
  have hquiet : streamed r.context m.events = [] ∧
      Streaming written sent m.context m.procs m.round.pc →
      Streaming written (sent ++ streamed r.context m.events) m.context m.procs m.round.pc := by
    rintro ⟨hnone,hm⟩
    rw [hnone,List.append_nil]
    exact hm
  unfold serverTaskExecutor at h
  split at h
  case h_1 hp =>
    apply hquiet
    rw [hp] at hs
    split at h
    · cases h
      cases hlost
    · rw [hty] at h
      cases h
      exact ⟨rfl,hs.goto rfl hs.point⟩
  case h_2 hp =>
    rw [hp] at hs
    exact hs.point.elim
  case h_3 hp =>
    apply hquiet
    rw [hp] at hs
    obtain ⟨hev,hm⟩ := executeProgramTask_streaming h hs hlost
    rw [hev]
    exact ⟨rfl,hm⟩
  case h_4 hp =>
    apply hquiet
    rw [hp] at hs
    cases h
    unfold loopTest at hlost ⊢
    split
    · rename_i hrun
      rw [if_pos hrun] at hlost
      split
      · rename_i hcancel
        rw [if_pos hcancel] at hlost
        cases hlost
      · exact ⟨rfl,hs.goto rfl hs.point⟩
    · exact ⟨rfl,hs.goto rfl hs.point⟩
  case h_5 hp =>
    apply hquiet
    rw [hp] at hs
    cases h
    exact ⟨rfl,hs.goto rfl (point_of_child _ hs.point rfl)⟩
  case h_6 site _ hp =>
    apply hquiet
    rw [hp] at hs
    obtain ⟨hev,hm⟩ := taskContextDrainPipe_streaming h hs hi
    rw [hev]
    exact ⟨rfl,hm⟩
  case h_7 hp =>
    rw [hp] at hs
    exact sendProgress_streaming h hs hi
  case h_8 hp =>
    apply hquiet
    rw [hp] at hs
    cases h
    exact ⟨rfl,hs.goto rfl hs.point⟩
  case h_9 hp =>
    apply hquiet
    rw [hp] at hs
    cases h
    unfold reap
    split
    · rename_i pid hchild
      split
      · exact ⟨rfl,childReaped_streaming .reaped hs rfl hchild rfl rfl rfl⟩
      · exact ⟨rfl,hs.goto rfl hs.point⟩
    · exact ⟨rfl,hs.goto rfl hs.point⟩
  case h_10 hp =>
    apply hquiet
    rw [hp] at hs
    cases h
    unfold pollPreempt
    split
    · exact ⟨rfl,stopAndDrain_streaming hs rfl hs.point rfl⟩
    · exact ⟨rfl,hs.goto rfl hs.point⟩
  case h_11 hp =>
    apply hquiet
    rw [hp] at hs
    cases h
    unfold afterLoop
    split
    · exact ⟨rfl,stopAndDrain_streaming hs rfl hs.point rfl⟩
    · split
      · exact ⟨rfl,hs.goto rfl hs.point⟩
      · rename_i hchild
        exact (hs.point hchild).elim
  case h_12 hp =>
    apply hquiet
    rw [hp] at hs
    unfold waitChild at h
    split at h
    · rename_i pid hchild
      split at h
      · cases h
        exact ⟨rfl,childReaped_streaming .final hs rfl hchild rfl rfl rfl⟩
      · cases h
    · cases h
  case h_13 hp =>
    apply hquiet
    rw [hp] at hs
    exact exitStep_streaming h hs hlost
  case h_14 hp =>
    apply hquiet
    rw [hp] at hs
    cases h
    exact ⟨rfl,hs.goto rfl hs.point.2⟩
  case h_15 => cases h

def Exit.cut : Exit → Bool
  | .drainFailed _ => true
  | .shellDone _ _ => true
  | _ => false

/-- No round of a program is here as long as its drains succeed. -/
def ExecutorPc.cut : ExecutorPc → Bool
  | .shell => true
  | .exiting exit _ => exit.cut
  | .returned exit => exit.cut
  | _ => false

theorem shift_cut {x : Option Action} {events : List ServerEvent}
    (h : Shift v r pc i pc' x events) (hty : v.task.type = .program) (hi : i ≠ .sent false)
    (hd : ∀ site, pc ≠ .draining site) (hc : pc.cut = false) : pc'.cut = false := by
  cases h with
  | shell hshell =>
    rw [hty] at hshell
    cases hshell
  | shellNoLine => cases hc
  | shellDone => cases hc
  | shellNoOutput => cases hc
  | early he => rcases he with rfl | rfl | rfl <;> rfl
  | drained _ => exact (hd _ rfl).elim
  | piece connection _ => split <;> rfl
  | sendFailed => exact (hi rfl).elim
  | op _ => exact hc
  | opFailed => exact hc
  | mark _ _ => exact hc
  | done => exact hc
  | _ => rfl

theorem drained_true_cut (site : Site) : (drained true site).cut = false := by
  cases site <;> rfl

theorem taskContextDrainPipe_cut {site : Site} (h : taskContextDrainPipe v r site i = some m)
    (hs : streams v.context = true) (hi : i ≠ .readError) : m.round.pc.cut = false := by
  unfold taskContextDrainPipe at h
  split at h
  case h_2 =>
    dsimp only at h
    rw [if_pos hs] at h
    split at h <;> cases h
    rfl
  case h_3 =>
    split at h <;> cases h
    exact drained_true_cut site
  case h_5 => exact (hi rfl).elim
  case h_6 => cases h
  all_goals
    cases h
    exact drained_true_cut site

theorem serverTaskExecutor_cut (h : serverTaskExecutor v r i = some m)
    (hty : v.task.type = .program)
    (hs : r.pc.lost = false → streams v.context = true) (hi : i.transfers v.context v.procs)
    (hc : r.pc.cut = false) : m.round.pc.cut = false := by
  by_cases hd : ∃ site, r.pc = .draining site
  · obtain ⟨site,hd⟩ := hd
    have hm : taskContextDrainPipe v r site i = some m := by
      simpa only [serverTaskExecutor,hd] using h
    exact taskContextDrainPipe_cut hm (hs (by rw [hd]; rfl)) hi.2.1
  · exact shift_cut (serverTaskExecutor_moved h).shift hty hi.1 (not_exists.mp hd) hc

/-- A round that was given up stays so. -/
theorem shift_lost {x : Option Action} {events : List ServerEvent}
    (h : Shift v r pc i pc' x events) (hl : pc'.lost = false) : pc.lost = false := by
  cases h with
  | op _ => exact hl
  | opFailed => exact hl
  | mark _ _ => exact hl
  | done => exact hl
  | _ => rfl

theorem AtPoint.congr (h : AtPoint context procs pc) (hchild : context'.childPid = context.childPid)
    (hpipe : context'.pipeFd = context.pipeFd)
    (hunread : context.childPid = none → unread context' procs' = unread context procs) :
    AtPoint context' procs' pc := by
  have hleaves : ∀ exit, Leaves context procs exit → Leaves context' procs' exit := by
    intro exit hl
    refine ⟨?_,?_⟩
    · rw [hchild]
      exact hl.1
    · intro ho
      rw [hunread (hl.1.mpr ho)]
      exact hl.2 ho
  unfold AtPoint at h ⊢
  split at h
  case h_1 =>
    rw [hchild,hpipe]
    exact h
  case h_2 =>
    rw [hchild,hpipe]
    exact h
  case h_3 => exact h
  case h_6 => exact ⟨h.1,hleaves _ h.2⟩
  case h_7 => exact hleaves _ h
  all_goals
    rw [hchild]
    exact h

end Moves

/-- The child's own writes, as a run goes on. -/
def noteWritten (t : ContextRef) (written : Text) (w : World) : ServerAction → Text
  | .childWrite pid bytes =>
    if (w.contexts t).childPid = some pid then written ++ bytes else written
  | _ => written

/-- The sends of the task's progress packets succeed, and its reads fail at most because
the pipe is empty. -/
def transfers (t : TaskRef) (_ : Core) (w : World) : ServerAction → Prop
  | .exec i => ∀ r ∈ w.round, r.task = t → i.transfers (w.contexts t) w.procs
  | _ => True

instance (i : Input) (context : TaskContext) (procs : Processes) :
    Decidable (i.transfers context procs) := inferInstanceAs (Decidable (_ ∧ _ ∧ (_ → _)))

instance (t : TaskRef) (core : Core) (w : World) : DecidablePred (transfers t core w)
  | .exec i =>
    inferInstanceAs (Decidable (∀ r ∈ w.round, r.task = t → i.transfers (w.contexts t) w.procs))
  | .accept _ | .request _ _ | .hangup _ | .poll _ | .fetch _ | .peek _ _ | .cancel _
  | .cleanupNext _ | .cancelled _ | .send _ _ | .checkIdle _ | .print _ | .release _ | .close _
  | .requestStop | .enter | .finish | .childWrite _ _ | .childExit _ =>
    inferInstanceAs (Decidable True)

section Server
variable {t : TaskRef} {written sent : Text} {s s' : State TaskLists} {a : ServerAction}
  {pc : ExecutorPc}

/-- The child writes. -/
theorem Streaming.write {pid : Pid} {bytes : Text}
    (h : Streaming written sent (s.world.contexts t) s.world.procs pc)
    (hchild : (s.world.contexts t).childPid = some pid)
    (he : serverStep s (.childWrite pid bytes) = some s') :
    Streaming (written ++ bytes) sent (s'.world.contexts t) s'.world.procs pc := by
  obtain ⟨hrun,hw⟩ := serverStep_childWrite he
  have hpipe : (s.world.contexts t).pipeFd = some pid := by
    rcases h.closed pid hchild with hp | ⟨_,hd⟩
    · exact hp
    · rw [Process.alive,hrun] at hd
      cases hd
  rw [hw]
  refine ⟨h.streams,h.output,h.total,?_,?_,?_,?_⟩
  · have hb := h.balance
    simp only [unread,hpipe] at hb
    simp only [unread,hpipe,Function.update_self]
    rw [← hb,List.append_assoc _ _ bytes]
  · intro p hp
    obtain rfl : pid = p := Option.some.inj (hpipe.symm.trans hp)
    exact Or.inl hchild
  · intro p hp
    obtain rfl : pid = p := Option.some.inj (hchild.symm.trans hp)
    exact Or.inl hpipe
  · apply h.point.congr rfl rfl
    intro hnone
    rw [hchild] at hnone
    cases hnone

/-- A step that is no move of the task's own round. -/
theorem Streaming.other (h : Streaming written sent (s.world.contexts t) s.world.procs pc)
    (hpiped : Piped s.world) (hkeeps : Keeps (s.world.contexts t) (s'.world.contexts t))
    (hround : ∀ i r, a = .exec i → s.world.round = some r → r.context ≠ t)
    (he : serverStep s a = some s') :
    Streaming (noteWritten t written s.world a) sent (s'.world.contexts t) s'.world.procs pc := by
  -- what the task's context holds only gets older
  have haged : (∀ p, (s.world.contexts t).Holds p → ∀ bytes, a ≠ .childWrite p bytes) →
      Streaming written sent (s'.world.contexts t) s'.world.procs pc := by
    intro hw
    have hages : ∀ p, (s.world.contexts t).Holds p → Ages (s.world.procs p) (s'.world.procs p) :=
      fun p hp => serverStep_ages hpiped he hp hround (hw p hp)
    have hpipe : (s'.world.contexts t).pipeFd = (s.world.contexts t).pipeFd := by rw [hkeeps]
    apply h.ages hkeeps hages rfl
    apply h.point.congr (by rw [hkeeps]) hpipe
    intro _
    unfold unread
    rw [hpipe]
    split
    · rename_i p hp
      exact (hages p (Or.inl hp)).pipe
    · rfl
  by_cases hwrite : ∃ pid bytes, a = .childWrite pid bytes
  · obtain ⟨pid,bytes,rfl⟩ := hwrite
    by_cases hchild : (s.world.contexts t).childPid = some pid
    · simp only [noteWritten,if_pos hchild]
      exact h.write hchild he
    · simp only [noteWritten,if_neg hchild]
      apply haged
      rintro p hp bytes' hp'
      cases hp'
      rcases hp with hp | hp
      · rcases h.writer pid hp with hc | hd
        · exact hchild hc
        · rw [(serverStep_childWrite he).1] at hd
          cases hd
      · exact hchild hp
  · have hnote : noteWritten t written s.world a = written := by
      unfold noteWritten
      split
      · exact (hwrite ⟨_,_,rfl⟩).elim
      · rfl
    rw [hnote]
    apply haged
    rintro p _ bytes rfl
    exact hwrite ⟨p,bytes,rfl⟩

/-- The bytes of a task that waits or runs, as long as its round is not given up. -/
structure Flows (t : TaskRef) (written : Text) (s : State TaskLists) : Prop where
  waiting : t ∈ s.sched.queue.waiting →
    Streaming written (streamed t s.world.log) (s.world.contexts t) s.world.procs .start
  running : ∀ r, s.world.round = some r → r.task = t → r.pc.cut = false ∧ (r.pc.lost = false →
    Streaming written (streamed t s.world.log) (s.world.contexts t) s.world.procs r.pc)

/-- What the flow rests on. -/
structure KeepsFlow (t : TaskRef) (written : Text) (s : State TaskLists) : Prop where
  coherent : Coherent s
  piped : Piped s.world
  lt : t < s.sched.allocated
  type : (s.sched.tasks t).type = .program
  flows : Flows t written s

theorem streamed_other {new log : List ServerEvent} (h : ∀ e ∈ new, progressOf t e = none) :
    streamed t (new ++ log) = streamed t log := by
  rw [streamed_append,streamed_quiet h,List.append_nil]

/-- A task that waits or runs was not cleaned up. -/
theorem not_cleaned (hc : Consistent s)
    (h : t ∈ s.sched.queue.waiting ∨ ∃ r, s.world.round = some r ∧ r.task = t) :
    Event.cleanup t ∉ s.sched.events := by
  obtain ⟨place,hp⟩ := hc.sched.placed
  intro hz
  rcases h with h | ⟨r,hr,rfl⟩
  · exact hp.finalised_not_waiting hz h
  · exact hp.finalised_not_current hz (hc.current hr)

/-- A step of another thread, or of the round of another task. -/
theorem Flows.other (new : List ServerEvent) (h : Flows t written s) (hpiped : Piped s.world)
    (he : serverStep s a = some s')
    (hlog : s'.world.log = new ++ s.world.log) (hnew : ∀ e ∈ new, progressOf t e = none)
    (hround : ∀ i r, a = .exec i → s.world.round = some r → r.context ≠ t)
    (hkeeps : (t ∈ s'.sched.queue.waiting ∨ ∃ r, s'.world.round = some r ∧ r.task = t) →
      Keeps (s.world.contexts t) (s'.world.contexts t))
    (hwait : t ∈ s'.sched.queue.waiting → t ∈ s.sched.queue.waiting)
    (hrun : ∀ r, s'.world.round = some r → r.task = t → s.world.round = some r) :
    Flows t (noteWritten t written s.world a) s' := by
  constructor
  · intro ht
    rw [hlog,streamed_other hnew]
    exact (h.waiting (hwait ht)).other hpiped (hkeeps (Or.inl ht)) hround he
  · intro r hr ht
    obtain ⟨hcut,hs⟩ := h.running r (hrun r hr ht) ht
    refine ⟨hcut,?_⟩
    intro hlost
    rw [hlog,streamed_other hnew]
    exact (hs hlost).other hpiped (hkeeps (Or.inr ⟨r,hr,ht⟩)) hround he

theorem lost_of_over {exit : Exit} (h : exitResult exit = .requeue) (hc : exit.cut = false) :
    exit.regular = true ∧ exit.over = false := by
  cases exit with
  | drainFailed site => cases hc
  | preempted => exact ⟨rfl,rfl⟩
  | quantumEnd => exact ⟨rfl,rfl⟩
  | _ => cases h

/-- A move of the task's own round. -/
theorem Flows.moved (h : Flows t written s) (hc' : Consistent s') {r : Round} {i : Input} {m : Move}
    (hr : s.world.round = some r) (ht : r.task = t) (hctx : r.context = t)
    (hm : serverTaskExecutor (view s.sched.toCore s.world r) r i = some m)
    (hi : i.transfers (s.world.contexts t) s.world.procs)
    (hty : (s.sched.tasks t).type = .program) (hw : s'.world = applyMove s.world m) :
    Flows t written s' := by
  have hmoved := serverTaskExecutor_moved hm
  have hround : s'.world.round = some m.round := by
    rw [hw]
    rfl
  have hlog : s'.world.log = m.events ++ s.world.log := by
    rw [hw]
    rfl
  have hself : s'.world.contexts t = m.context := by
    rw [hw,applyMove_contexts (hmoved.context.trans hctx),Function.update_self]
  have hprocs : s'.world.procs = m.procs := by
    rw [hw]
    rfl
  have hview : (view s.sched.toCore s.world r).context = s.world.contexts t := by
    rw [← hctx]
    rfl
  obtain ⟨hcut,hrun⟩ := h.running r hr ht
  rw [← hview] at hrun hi
  constructor
  · intro hwait
    refine (hc'.not_waiting hround ?_).elim
    rw [hmoved.task,ht]
    exact hwait
  · intro r' hr' _
    obtain rfl := Option.some.inj (hround.symm.trans hr')
    rw [← ht] at hty
    refine ⟨serverTaskExecutor_cut hm hty (fun hl => (hrun hl).streams) hi hcut,?_⟩
    intro hlost
    rw [hself,hprocs,hlog,streamed_append,← hctx]
    apply serverTaskExecutor_streaming hm hty _ hi hlost
    rw [hctx]
    exact hrun (shift_lost hmoved.shift hlost)

/-- The end of the task's own round. -/
theorem Flows.finished (h : Flows t written s) (hc : Consistent s) (hpiped : Piped s.world)
    (hkeeps : t ∈ s'.sched.queue.waiting → Keeps (s.world.contexts t) (s'.world.contexts t))
    {r : Round} {exit : Exit} (hr : s.world.round = some r) (ht : r.task = t)
    (hp : r.pc = .returned exit) (he : serverStep s .finish = some s')
    (hr' : s'.world.round = none) {new : List ServerEvent}
    (hlog : s'.world.log = new ++ s.world.log) (hnew : ∀ e ∈ new, progressOf t e = none) :
    Flows t written s' := by
  constructor
  · intro hwait
    obtain ⟨hcut,hrun⟩ := h.running r hr ht
    rw [hp] at hcut hrun
    have hresult : exitResult exit = .requeue := by
      rcases (serverStep_shape hc he).waiting hc hwait with
        hw | ⟨ha,_⟩ | ⟨r₁,exit₁,_,hr₁,_,hp₁,hmay⟩
      · exact (hc.not_waiting hr (ht ▸ hw)).elim
      · cases ha
      · obtain rfl := Option.some.inj (hr.symm.trans hr₁)
        rw [hp] at hp₁
        cases hp₁
        exact hmay.1
    obtain ⟨hregular,hover⟩ := lost_of_over hresult hcut
    have hlost : ExecutorPc.lost (.returned exit) = false := by
      simp [ExecutorPc.lost,hregular]
    have hs := (hrun hlost).other hpiped (hkeeps hwait) (by rintro _ _ ⟨⟩) he
    have hpoint : AtPoint (s'.world.contexts t) s'.world.procs .start := by
      intro hnone
      have hleaves : Leaves (s'.world.contexts t) s'.world.procs exit := hs.point
      rw [hleaves.1.mp hnone] at hover
      cases hover
    rw [hlog,streamed_other hnew]
    exact hs.goto rfl hpoint
  · intro r₁ hr₁ _
    rw [hr'] at hr₁
    cases hr₁

/-- A task that waits is dispatched, and what has flowed so far stays as it is. -/
theorem Flows.dispatched (h : Flows t written s) (hpiped : Piped s.world) (hc' : Consistent s')
    {quantum : ℤ} (hkeeps : Keeps (s.world.contexts t) (s'.world.contexts t))
    (he : serverStep s .enter = some s') (ht : t ∈ s.sched.queue.waiting)
    (hw : s'.world = record { s.world with round := some (newRound t t quantum) } (.invoked t)) :
    Flows t written s' := by
  have hs := (h.waiting ht).other hpiped hkeeps (by rintro _ _ ⟨⟩) he
  have hlog : s'.world.log = [.invoked t] ++ s.world.log := by
    rw [hw]
    rfl
  have hround : s'.world.round = some (newRound t t quantum) := by
    rw [hw]
    rfl
  constructor
  · intro hwait
    exact (hc'.not_waiting hround hwait).elim
  · intro r hr _
    obtain rfl := Option.some.inj (hround.symm.trans hr)
    refine ⟨rfl,?_⟩
    intro _
    rw [hlog,streamed_other (by simp [progressOf])]
    exact hs

theorem KeepsFlow.step (h : KeepsFlow t written s) (hok : transfers t s.sched.toCore s.world a)
    (he : serverStep s a = some s') : KeepsFlow t (noteWritten t written s.world a) s' := by
  have hc := h.coherent.1
  have hcoherent := step_coherent h.coherent he
  have hshape := serverStep_shape hc he
  have hlt := h.lt.trans_le hshape.allocated
  have hty : (s'.sched.tasks t).type = .program := by
    rcases hshape.sched with hs | ⟨y,hs,_⟩
    · rw [hs]
      exact h.type
    · rw [(step_continues hs h.lt).type]
      exact h.type
  refine ⟨hcoherent,step_piped h.piped he,hlt,hty,?_⟩
  have hkeeps : (∀ i r, a = .exec i → s.world.round = some r → r.context ≠ t) →
      (t ∈ s'.sched.queue.waiting ∨ ∃ r, s'.world.round = some r ∧ r.task = t) →
      Keeps (s.world.contexts t) (s'.world.contexts t) := by
    intro hround hplace
    have hz := not_cleaned hcoherent.1 hplace
    rcases serverStep_keeps hc he h.lt (hcoherent.refcount hlt hz) with hk | ⟨i,r,ha,hr,hrt⟩
    · exact hk
    · exact (hround i r ha hr hrt).elim
  have hwait : (∀ r, s.world.round = some r → r.task = t → a ≠ .finish) →
      t ∈ s'.sched.queue.waiting → t ∈ s.sched.queue.waiting := by
    intro hfin ht
    rcases hshape.waiting hc ht with hw | ⟨_,hnew⟩ | ⟨r,exit,ha,hr,hrt,_⟩
    · exact hw
    · exact absurd (hnew ▸ h.lt) (lt_irrefl _)
    · exact (hfin r hr hrt ha).elim
  cases hshape with
  | outside ha hw _ =>
    obtain ⟨new,hlog,hnew⟩ := hw.log
    have hround : ∀ i r, a = .exec i → s.world.round = some r → r.context ≠ t := by
      rintro i r rfl
      cases ha
    apply h.flows.other _ h.piped he hlog (fun e hm => progressOf_byClient (hnew e hm)) hround
      (hkeeps hround)
    · apply hwait
      rintro r _ _ rfl
      cases ha
    · intro r hr _
      rw [← hw.round]
      exact hr
  | @exec i r m hr hm hw hs =>
    have hctx := (hc.running r hr).2
    have hlog : s'.world.log = m.events ++ s.world.log := by
      rw [hw]
      rfl
    have hround' : s'.world.round = some m.round := by
      rw [hw]
      rfl
    by_cases hrt : r.task = t
    · subst hrt
      obtain ⟨r₀,m₀,hr₀,hm₀,hw₀,_⟩ := serverStep_executor he
      obtain rfl := Option.some.inj (hr.symm.trans hr₀)
      exact h.flows.moved hcoherent.1 hr rfl hctx hm₀ (hok r hr rfl) h.type hw₀
    · have hne : r.context ≠ t := by
        rw [hctx]
        exact hrt
      have hround : ∀ i' r', ServerAction.exec i = .exec i' → s.world.round = some r' →
          r'.context ≠ t := by
        intro _ r' _ hr'
        rw [← Option.some.inj (hr.symm.trans hr')]
        exact hne
      apply h.flows.other _ h.piped he hlog (fun e he => (shift_progressOf hm.shift hne e he).1)
        hround (hkeeps hround)
      · apply hwait
        rintro _ _ _ ⟨⟩
      · intro r' hr' ht'
        obtain rfl := Option.some.inj (hround'.symm.trans hr')
        exact (hrt (hm.task ▸ ht')).elim
  | idle hr _ _ hw =>
    have hround : ∀ i r, ServerAction.enter = .exec i → s.world.round = some r → r.context ≠ t := by
      rintro _ _ ⟨⟩
    apply h.flows.other [] h.piped he (by rw [hw]; rfl) (by simp) hround (hkeeps hround)
    · apply hwait
      rintro _ _ _ ⟨⟩
    · intro r hr' _
      rw [hw,hr] at hr'
      cases hr'
  | @dispatch u quantum hr hs hu hm _ hw =>
    have hround : ∀ i r, ServerAction.enter = .exec i → s.world.round = some r → r.context ≠ t := by
      rintro _ _ ⟨⟩
    have hlog : s'.world.log = [.invoked u] ++ s.world.log := by
      rw [hw]
      rfl
    have hround' : s'.world.round = some (newRound u u quantum) := by
      rw [hw]
      rfl
    by_cases hut : u = t
    · subst hut
      exact h.flows.dispatched h.piped hcoherent.1 (hkeeps hround (Or.inr ⟨_,hround',rfl⟩)) he hu hw
    · apply h.flows.other _ h.piped he hlog (by simp [progressOf]) hround (hkeeps hround)
      · apply hwait
        rintro _ _ _ ⟨⟩
      · intro r hr' ht'
        obtain rfl := Option.some.inj (hround'.symm.trans hr')
        exact (hut ht').elim
  | @finish r exit hr hp hs hse hr' hw =>
    obtain ⟨new,hlog,hnew⟩ := hw.log
    have hround : ∀ i r, ServerAction.finish = .exec i → s.world.round = some r →
        r.context ≠ t := by
      rintro _ _ ⟨⟩
    have hnew' : ∀ e ∈ new, progressOf t e = none := fun e hm => progressOf_byClient (hnew e hm)
    by_cases hrt : r.task = t
    · exact h.flows.finished hc h.piped (fun ht => hkeeps hround (Or.inl ht)) hr hrt hp he hr' hlog
        hnew'
    · apply h.flows.other _ h.piped he hlog hnew' hround (hkeeps hround)
      · apply hwait
        intro r₁ hr₁ hrt₁
        obtain rfl := Option.some.inj (hr.symm.trans hr₁)
        exact (hrt hrt₁).elim
      · intro r₁ hr₁ _
        rw [hr'] at hr₁
        cases hr₁

/-- Nothing was streamed under the names that are still free. -/
def Unstreamed (s : State TaskLists) : Prop :=
  ∀ u, s.sched.allocated ≤ u → streamed u s.world.log = []

theorem step_unstreamed (h : Unstreamed s) (hc : Consistent s) (he : serverStep s a = some s') :
    Unstreamed s' := by
  have hshape := serverStep_shape hc he
  intro u hu
  have hu₀ := hshape.allocated.trans hu
  obtain ⟨new,hlog,hnew⟩ := hshape.newEvents
  rw [hlog,streamed_other,h u hu₀]
  cases hnew with
  | client hclient => exact fun e he => progressOf_byClient (hclient e he)
  | invoked => simp [progressOf]
  | @moved i r m hr hm =>
    have hne : r.context ≠ u := by
      rw [(hc.running r hr).2]
      exact ((hc.task_lt hr).trans_le hu₀).ne
    exact fun e he => (shift_progressOf hm.shift hne e he).1

/-- A program that was just accepted has written nothing. -/
theorem accepted_flow {c : ThreadId} {command : Text} {argv : List Text} {burst : ℤ}
    (h : Coherent s) (hpiped : Piped s.world) (hun : Unstreamed s) (hburst : 1 ≤ burst)
    (he : serverStep s (.request c (.program command argv burst)) = some s') :
    KeepsFlow s.sched.allocated [] s' := by
  obtain ⟨hs,hw⟩ := serverStep_program he
  obtain ⟨hallocated,hty,_⟩ := submit_program rfl hburst hs
  have hlog : s'.world.log = s.world.log := by
    rw [hw]
    rfl
  have hround : s'.world.round = s.world.round := by
    rw [hw]
    rfl
  have hctx : s'.world.contexts s.sched.allocated =
      (createProgramTask (s.world.clients c) command argv burst s.sched.allocated).2 := by
    rw [hw]
    simp [submitTask,setPc,setContext]
  refine ⟨step_coherent h he,step_piped hpiped he,?_,hty,?_,?_⟩
  · rw [hallocated]
    exact Nat.lt_succ_self _
  · intro _
    rw [hlog,hun _ le_rfl,hctx]
    refine ⟨?_,rfl,rfl,rfl,?_,?_,fun _ => rfl⟩
    · have hpos : 0 < burst := by omega
      simp [streams,createProgramTask,hpos]
    · intro p hp
      cases hp
    · intro p hp
      cases hp
  · intro r hr hrt
    rw [hround] at hr
    exact absurd (hrt ▸ h.1.task_lt hr) (lt_irrefl _)

end Server

section Linked
variable {config : SchedulerConfig} {burst : ℤ} {c : ThreadId} {command written : Text}
  {argv : List Text} {u v s : State TaskLinks} {r : Round} {exit : Exit}

/-- The runs in which the transfers of a task succeed, with what its child writes. -/
def writing (t : TaskRef) {Q : Type} [TaskQueue Q] :
    State Q × Text → ServerAction → State Q × Text → Prop :=
  FiresIf (fun s => transfers t s.1.sched.toCore s.1.world)
    (withLabels serverStep fun written s => noteWritten t written s.world)

theorem writing_refines {t : TaskRef} {l : State TaskLists} (h : ServerRefines v l)
    (hrun : Reaches (writing t) (v,[]) (s,written)) :
    ∃ l', Reaches (writing t) (l,[]) (l',written) ∧ ServerRefines s l' := by
  have hrun' : Reaches (annotated (transfers t) fun written _ w => noteWritten t written w)
      (v,[]) (s,written) := hrun
  exact annotated_refines h hrun'

/-- Whatever the schedule of its rounds and the times at which its child writes, the output
of a program arrives complete and in order. -/
theorem output_complete (hu : Reaches (Fires serverStep) (serverInitWith TaskLinks config) u)
    (hburst : 1 ≤ burst)
    (he : serverStep u (.request c (.program command argv burst)) = some v)
    (hs : Reaches (writing u.sched.allocated) (v,[]) (s,written))
    (hr : s.world.round = some r) (ht : r.task = u.sched.allocated) (hp : r.pc = .returned exit)
    (hx : exitResult exit = .complete) :
    streamed u.sched.allocated s.world.log = written ∧
      (s.world.contexts u.sched.allocated).output = [] ∧
      (s.world.contexts u.sched.allocated).bytesSentTotal = written.length := by
  obtain ⟨as,hrun⟩ := hu
  obtain ⟨l,hl,hrefines⟩ := serverRuns_refines (serverRefines_initWith config) hrun
  obtain ⟨l',he',hrefines'⟩ := serverStep_refines hrefines he
  obtain ⟨l'',hs',hrefines''⟩ := writing_refines hrefines' hs
  have hstart : Coherent l ∧ Piped l.world ∧ Unstreamed l := by
    apply hl.invariant (P := fun l => Coherent l ∧ Piped l.world ∧ Unstreamed l)
    · rintro s a s' ⟨hc,hpiped,hun⟩ he
      exact ⟨step_coherent hc he,step_piped hpiped he,step_unstreamed hun hc.1 he⟩
    · exact ⟨coherent_init config,piped_init config,fun _ _ => rfl⟩
  obtain ⟨hc,hpiped,hun⟩ := hstart
  rw [hrefines.sched.core] at hs' ht ⊢
  have hend : KeepsFlow l.sched.allocated written l'' := by
    apply hs'.invariant (P := fun s => KeepsFlow l.sched.allocated s.2 s.1)
    · rintro s a s' hk ⟨hok,he⟩
      obtain ⟨hstep,hnote⟩ := withLabels_eq_some he
      rw [hnote]
      exact hk.step hok hstep
    · exact accepted_flow hc hpiped hun hburst he'
  rw [hrefines''.world] at hr ⊢
  obtain ⟨hcut,hflows⟩ := hend.flows.running r hr ht
  rw [hp] at hcut hflows
  have hexit : exit.regular = true ∧ exit.over = true := by
    cases exit with
    | reaped => exact ⟨rfl,rfl⟩
    | final => exact ⟨rfl,rfl⟩
    | shellDone => cases hcut
    | drainFailed site => cases hcut
    | _ => cases hx
  have hlost : ExecutorPc.lost (.returned exit) = false := by
    simp [ExecutorPc.lost,hexit.1]
  obtain ⟨_,houtput,htotal,hbalance,_,_,hpoint⟩ := hflows hlost
  have hleaves : Leaves _ _ exit := hpoint
  rw [hleaves.2 hexit.2] at hbalance
  simp only [chunkOf,List.append_nil] at hbalance
  exact ⟨hbalance,houtput,hbalance ▸ htotal⟩

def sendPacket : List ServerAction := [.exec (.sent true),.exec (.sent true),.exec (.sent true)]

/-- A demo writes in each of its two rounds, between which a shell command is run. -/
def outputInTwoRounds : List ServerAction :=
  ([.enter,.exec .go,.exec (.started true),.exec .go,.childWrite 1 "one".toList,.accept 5,
    .request 1 (.shell "ls".toList),.exec .go,.exec (.readSome 512 true)] :
      List ServerAction) ++ sendPacket ++
  ([.exec .readAgain,.exec .go,.exec .go,.exec .go,.exec .readAgain,.exec .go,.exec .go,.exec .go,
    .finish,.enter,.exec .go,.exec (.shellRun true false (some []) true),.exec .go,.exec .go,
    .finish,.enter,.exec .go,.exec (.resumed true),.exec .go,.childWrite 1 "two".toList,
    .childExit 1,.exec .go,.exec (.readSome 512 true)] : List ServerAction) ++ sendPacket ++
  ([.exec .readEof,.exec .go,.exec .go,.exec .go,.exec .go,.exec .go,.exec .go,.exec .go] :
    List ServerAction)

theorem output_complete_inTwoRounds :
    ∃ u v : State TaskLinks, ∃ s : State TaskLinks × Text,
      exec serverStep (serverInitWith TaskLinks serverConfig) [.accept 4] = some u ∧
      serverStep u (.request 0 (.program "./demo 2".toList ["./demo".toList,"2".toList] 2)) =
        some v ∧
      exec (guarded (fun s : State TaskLinks × Text => transfers 0 s.1.sched.toCore s.1.world)
        (withLabels serverStep fun written s => noteWritten 0 written s.world)) (v,[])
        outputInTwoRounds = some s ∧
      s.2 = "onetwo".toList ∧ streamed 0 s.1.world.log = s.2 ∧
      (s.1.world.contexts 0).output = [] ∧
      (s.1.world.contexts 0).bytesSentTotal = s.2.length := by
  obtain ⟨u,hu⟩ := Option.isSome_iff_exists.mp
    (show (exec serverStep (serverInitWith TaskLinks serverConfig) [.accept 4]).isSome = true
      from rfl)
  obtain ⟨v,hv⟩ := Option.isSome_iff_exists.mp
    (show (serverStep u (.request 0 (.program "./demo 2".toList ["./demo".toList,"2".toList]
      2))).isSome = true from by cases hu; rfl)
  obtain ⟨s,hs⟩ := Option.isSome_iff_exists.mp
    (show (exec (guarded (fun s : State TaskLinks × Text => transfers 0 s.1.sched.toCore s.1.world)
      (withLabels serverStep fun written s => noteWritten 0 written s.world)) (v,[])
      outputInTwoRounds).isSome = true from by cases hu; cases hv; rfl)
  have hn : u.sched.allocated = 0 := by
    cases hu
    rfl
  have hreach := reaches_of_guarded hs
  rw [← hn] at hreach
  have hround : ∃ r, s.1.world.round = some r ∧ r.task = 0 ∧ r.pc = .returned .reaped := by
    cases hu
    cases hv
    cases hs
    exact ⟨_,rfl,rfl,rfl⟩
  obtain ⟨r,hr,ht,hp⟩ := hround
  rw [← hn] at ht
  have hout := output_complete (reaches_of_exec hu) (by decide) hv hreach hr ht hp rfl
  rw [hn] at hout
  refine ⟨u,v,s,hu,hv,hs,?_,hout⟩
  cases hu
  cases hv
  cases hs
  decide

end Linked

end UnixShell.Server
