import UnixShell.Server.Bursts

/-! # The timeline, round by round

The clock moves on the way out of a round only. A batch is what the rounds since the
server was last idle leave on the clock; what a round adds to it is fixed when the
round is left, by the ticks that it has run and by the exit.
-/
namespace UnixShell.Server
open Foundation Scheduler

/-- The exits that set `had_preemption`. -/
def Exit.preempts : Exit → Bool
  | .preempted => true
  | .quantumEnd => true
  | _ => false

/-- The rounds of a batch, each with its client and the time at which it has ended. -/
structure Batch where
  rounds : List (ℤ × ℤ)
  elapsed : ℤ
  preempted : Bool
  deriving DecidableEq, Repr

def emptyBatch : Batch where
  rounds := []
  elapsed := 0
  preempted := false

/-- A round counts if it has run for a tick at least. -/
def Batch.add (b : Batch) (clientNumber slicesRun : ℤ) (exit : Exit) : Batch :=
  if 0 < slicesRun then
    { rounds := b.rounds ++ [(clientNumber,b.elapsed + slicesRun)]
      elapsed := b.elapsed + slicesRun
      preempted := b.preempted || exit.preempts }
  else b

/-- The clock that shows the batch and nothing else. -/
def Batch.clock (b : Batch) : Clock where
  timeline := b.rounds
  hadPreemption := b.preempted
  currentSliceStartTime := b.elapsed

/-- The clock after the operations that are still to be done. -/
def clockAfter (clientNumber slicesRun : ℤ) : ℤ → Clock → List ExitOp → Clock
  | _,clock,[] => clock
  | _,clock,.advanceClock preempted :: ops =>
    clockAfter clientNumber slicesRun (clock.currentSliceStartTime + slicesRun)
      { clock with
        currentSliceStartTime := clock.currentSliceStartTime + slicesRun
        hadPreemption := preempted || clock.hadPreemption } ops
  | sliceEnd,clock,.appendSlice :: ops =>
    clockAfter clientNumber slicesRun sliceEnd
      (if 0 < slicesRun then appendTimelineSlice clock clientNumber sliceEnd else clock) ops
  | sliceEnd,clock,_ :: ops => clockAfter clientNumber slicesRun sliceEnd clock ops

/-- What the ticks of a round tell of the exit that it is left by. -/
structure Exit.Fits (exit : Exit) (slicesRun : ℤ) : Prop where
  nonneg : 0 ≤ slicesRun
  early : exit.early = true → slicesRun = 0
  preempts : exit.preempts = true → 0 < slicesRun
  reaped : exit ≠ .drainFailed .reaped

section Batches
variable {b : Batch} {client slicesRun sliceEnd : ℤ} {exit : Exit}

theorem appendTimelineSlice_of_lt {clock : Clock} (h : clock.timeline.length < maxTimelineSlices) :
    appendTimelineSlice clock client sliceEnd =
      { clock with timeline := clock.timeline ++ [(client,sliceEnd)] } := if_pos h

/-- The clock moves on and the round is appended, with other operations around. -/
theorem clockAfter_round (client sliceEnd : ℤ) (hfit : exit.Fits slicesRun)
    (hlen : b.rounds.length < maxTimelineSlices) :
    clockAfter client slicesRun sliceEnd b.clock [.advanceClock exit.preempts,.appendSlice] =
      (b.add client slicesRun exit).clock := by
  by_cases hpos : 0 < slicesRun
  · simp only [clockAfter,Batch.add,if_pos hpos]
    rw [appendTimelineSlice_of_lt hlen]
    simp only [Batch.clock,Bool.or_comm]
  · -- no tick has run, so there was nothing to note
    have hzero : slicesRun = 0 := by
      have := hfit.nonneg
      omega
    have hpre : exit.preempts = false := by
      cases hp : exit.preempts with
      | false => rfl
      | true => exact (hpos (hfit.preempts hp)).elim
    simp only [clockAfter,Batch.add,hzero,hpre,lt_irrefl,if_false,Bool.false_or,add_zero]

/-- Every exit but one leaves on the clock what the batch gains by its round. -/
theorem clockAfter_exitOps (hfit : exit.Fits slicesRun)
    (hlen : b.rounds.length < maxTimelineSlices) :
    clockAfter client slicesRun sliceEnd b.clock (exitOps exit) =
      (b.add client slicesRun exit).clock := by
  have hround := clockAfter_round client sliceEnd hfit hlen
  have hearly : exit.early = true → b.add client slicesRun exit = b := by
    intro he
    rw [Batch.add,if_neg (by rw [hfit.early he]; exact lt_irrefl 0)]
  cases exit with
  | cancelled => exact hround
  | reaped => exact hround
  | preempted => exact hround
  | quantumEnd => exact hround
  | final => exact hround
  | drainFailed site =>
    cases site with
    | reaped => exact (hfit.reaped rfl).elim
    | _ => exact hround
  | _ =>
    rw [hearly rfl]
    rfl

end Batches

section Moves
variable {v : View} {r : Round} {i : Input} {m : Move}

/-- A move that neither counts a tick nor touches the clock. -/
structure Untimed (v : View) (r : Round) (m : Move) : Prop where
  slicesRun : m.round.slicesRun = r.slicesRun
  clock : m.clock = v.clock

theorem untimed_goto (pc : ExecutorPc) : Untimed v r (goto v r pc) := ⟨rfl,rfl⟩

theorem executeShellTask_untimed (h : executeShellTask v r i = some m) : Untimed v r m := by
  unfold executeShellTask at h
  split at h
  · split at h
    · split at h
      · cases h
        exact untimed_goto _
      · split at h <;> cases h <;> exact untimed_goto _
    · cases h
      exact untimed_goto _
  · cases h

theorem executeProgramTask_untimed (h : executeProgramTask v r i = some m) : Untimed v r m := by
  unfold executeProgramTask at h
  split at h
  · cases h
    exact untimed_goto _
  · split at h
    · cases h
      exact ⟨rfl,rfl⟩
    · cases h
      exact untimed_goto _
    · split at h
      · cases h
        exact untimed_goto _
      · split at h <;> cases h
        · exact ⟨rfl,rfl⟩
        · exact untimed_goto _
    · cases h

theorem taskContextDrainPipe_untimed {site : Site} (h : taskContextDrainPipe v r site i = some m) :
    Untimed v r m := by
  unfold taskContextDrainPipe at h
  split at h
  case h_2 =>
    dsimp only at h
    split at h
    · split at h
      · cases h
        exact ⟨rfl,rfl⟩
      · split at h <;> cases h <;> exact ⟨rfl,rfl⟩
    · cases h
  case h_3 =>
    split at h <;> cases h
    exact ⟨rfl,rfl⟩
  all_goals cases h <;> exact untimed_goto _

theorem sendProgress_untimed {site : Site} {chunk : Text} {pieces : List Piece}
    (h : sendProgress v r site chunk pieces i = some m) : Untimed v r m := by
  unfold sendProgress at h
  split at h
  · dsimp only at h
    split at h <;> cases h <;> exact ⟨rfl,rfl⟩
  · cases h
    exact ⟨rfl,rfl⟩
  · cases h

theorem waitChild_untimed (h : waitChild v r = some m) : Untimed v r m := by
  unfold waitChild at h
  split at h
  · split at h <;> cases h
    exact ⟨rfl,rfl⟩
  · cases h

/-- Ticks are counted by the sleep, and the clock moves on the way out. -/
theorem serverTaskExecutor_untimed (h : serverTaskExecutor v r i = some m) (hs : r.pc ≠ .sleeping)
    (hx : ∀ exit op ops, r.pc ≠ .exiting exit (op :: ops)) : Untimed v r m := by
  unfold serverTaskExecutor at h
  split at h
  · split at h
    · cases h
      exact untimed_goto _
    · split at h <;> cases h <;> exact untimed_goto _
  · exact executeShellTask_untimed h
  · exact executeProgramTask_untimed h
  · cases h
    unfold loopTest
    split
    · split
      · exact untimed_goto _
      · exact ⟨rfl,rfl⟩
    · exact untimed_goto _
  · rename_i hp
    exact (hs hp).elim
  · exact taskContextDrainPipe_untimed h
  · exact sendProgress_untimed h
  · cases h
    exact ⟨rfl,rfl⟩
  · cases h
    unfold reap
    split
    · split <;> exact ⟨rfl,rfl⟩
    · exact untimed_goto _
  · cases h
    unfold pollPreempt
    split <;> exact ⟨rfl,rfl⟩
  · cases h
    unfold afterLoop
    split
    · exact ⟨rfl,rfl⟩
    · split <;> exact untimed_goto _
  · exact waitChild_untimed h
  · rename_i hp
    exact (hx _ _ _ hp).elim
  · cases h
    exact ⟨rfl,rfl⟩
  · cases h

/-- An operation on the way out does what it was expected to do to the clock. -/
theorem exitStep_clockAfter {exit : Exit} {op : ExitOp} {ops : List ExitOp}
    (h : exitStep v r exit op ops i = some m) :
    m.round.pc = .exiting exit ops ∧ m.round.slicesRun = r.slicesRun ∧
      clockAfter v.task.clientNumber r.slicesRun m.round.sliceEnd m.clock ops =
        clockAfter v.task.clientNumber r.slicesRun r.sliceEnd v.clock (op :: ops) := by
  unfold exitStep at h
  dsimp only at h
  split at h
  case h_2 => split at h <;> cases h <;> exact ⟨rfl,rfl,rfl⟩
  case h_6 =>
    split at h
    · rename_i hpos
      cases h
      refine ⟨rfl,rfl,?_⟩
      simp only [clockAfter,if_pos hpos]
      rfl
    · rename_i hpos
      cases h
      refine ⟨rfl,rfl,?_⟩
      simp only [clockAfter,if_neg hpos]
      rfl
  all_goals cases h <;> exact ⟨rfl,rfl,rfl⟩

theorem serverTaskExecutor_clock (h : serverTaskExecutor v r i = some m)
    (hx : ∀ exit op ops, r.pc ≠ .exiting exit (op :: ops)) : m.clock = v.clock := by
  by_cases hs : r.pc = .sleeping
  · unfold serverTaskExecutor at h
    rw [hs] at h
    cases i <;> cases h
    rfl
  · exact (serverTaskExecutor_untimed h hs hx).clock

theorem serverTaskExecutor_slicesRun (h : serverTaskExecutor v r i = some m) :
    m.round.slicesRun = if r.pc = .sleeping then r.slicesRun + 1 else r.slicesRun := by
  by_cases hs : r.pc = .sleeping
  · rw [if_pos hs]
    unfold serverTaskExecutor at h
    rw [hs] at h
    cases i <;> cases h
    rfl
  · rw [if_neg hs]
    by_cases hx : ∃ exit op ops, r.pc = .exiting exit (op :: ops)
    · obtain ⟨exit,op,ops,hp⟩ := hx
      have hstep : exitStep v r exit op ops i = some m := by
        simpa only [serverTaskExecutor,hp] using h
      exact (exitStep_clockAfter hstep).2.1
    · exact (serverTaskExecutor_untimed h hs fun exit op ops hp => hx ⟨exit,op,ops,hp⟩).slicesRun

/-- Draining on this answer goes through. -/
def Input.drains (context : TaskContext) : Input → Bool
  | .readSome _ allocOk => streams context || allocOk
  | .readError => false
  | _ => true

theorem drained_true_reaped (site : Site) (ops : List ExitOp) :
    drained true site ≠ .exiting (.drainFailed .reaped) ops := by
  cases site <;> simp [drained]

theorem taskContextDrainPipe_drains {site : Site} (h : taskContextDrainPipe v r site i = some m)
    (hd : i.drains v.context = true) (ops : List ExitOp) :
    m.round.pc ≠ .exiting (.drainFailed .reaped) ops := by
  unfold taskContextDrainPipe at h
  split at h
  · cases h
    exact drained_true_reaped site ops
  · rename_i pid size allocOk _
    dsimp only at h
    split at h
    · split at h
      · cases h
        simp
      · rename_i hs
        split at h
        · cases h
          simp [goto]
        · rename_i ha
          simp [Input.drains,hs,ha] at hd
    · cases h
  · split at h
    · cases h
      exact drained_true_reaped site ops
    · cases h
  · cases h
    exact drained_true_reaped site ops
  · cases hd
  · cases h

end Moves

/-- The counters of a round while the pipe is drained at a site. -/
def Site.Counts (slice slicesRun : ℤ) : Site → Prop
  | .tick => 0 ≤ slice ∧ slicesRun = slice + 1
  | .final => 0 ≤ slicesRun
  | _ => 0 < slicesRun

/-- What the points of the executor know of `slice` and `slices_run`. -/
def Counts (quantum slice slicesRun burst : ℤ) : ExecutorPc → Prop
  | .start => slice = 0 ∧ slicesRun = 0
  | .shell => slice = 0 ∧ slicesRun = 0
  | .program => slice = 0 ∧ slicesRun = 0
  | .loopTest => 0 ≤ slice ∧ slicesRun = slice
  | .sleeping => 0 ≤ slice ∧ slicesRun = slice
  | .draining site => site.Counts slice slicesRun
  | .sending site _ _ => site.Counts slice slicesRun
  | .decrement => 0 ≤ slice ∧ slicesRun = slice + 1
  | .reap => 0 ≤ slice ∧ slicesRun = slice + 1
  | .pollPreempt => 0 ≤ slice ∧ slicesRun = slice + 1
  | .afterLoop => 0 ≤ slice ∧ slicesRun = slice ∧ (0 < burst → quantum ≤ slice)
  | .waitChild => 0 ≤ slicesRun
  | .exiting exit _ => exit.Fits slicesRun
  | .returned _ => True

section Counters
variable {v : View} {r : Round} {i : Input} {pc pc' : ExecutorPc} {x : Option Action}
  {events : List ServerEvent} {quantum slice slicesRun burst : ℤ} {exit : Exit} {site : Site}

theorem fits_early (he : exit.early = true) (hn : slicesRun = 0) : exit.Fits slicesRun := by
  constructor
  · exact hn.ge
  · exact fun _ => hn
  · intro hp
    cases exit <;> simp [Exit.early,Exit.preempts] at he hp
  · rintro rfl
    cases he

theorem fits_late (hr : exit ≠ .drainFailed .reaped) (he : exit.early = false)
    (hn : 0 < slicesRun ∨ exit.preempts = false ∧ 0 ≤ slicesRun) : exit.Fits slicesRun := by
  constructor
  · rcases hn with hn | hn
    · exact hn.le
    · exact hn.2
  · intro he'
    rw [he] at he'
    cases he'
  · intro hp
    rcases hn with hn | hn
    · exact hn
    · rw [hn.1] at hp
      cases hp
  · exact hr

theorem Site.Counts.nonneg (h : site.Counts slice slicesRun) : 0 ≤ slicesRun := by
  cases site <;> simp only [Site.Counts] at h <;> omega

/-- A drain that fails is left as it is, and one that succeeds as its site says. -/
theorem counts_afterDrain (h : site.Counts slice slicesRun) (hd : AfterDrain site pc)
    (hr : ∀ ops, pc ≠ .exiting (.drainFailed .reaped) ops) :
    Counts quantum slice slicesRun burst pc := by
  cases hd with
  | tick => exact h
  | reaped => exact fits_late (by simp) rfl (Or.inl h)
  | preempted => exact fits_late (by simp) rfl (Or.inl h)
  | quantumEnd => exact fits_late (by simp) rfl (Or.inl h)
  | final => exact fits_late (by simp) rfl (Or.inr ⟨rfl,h⟩)
  | failed =>
    refine fits_late ?_ rfl (Or.inr ⟨rfl,h.nonneg⟩)
    intro he
    exact hr _ (by rw [he])

/-- One move keeps the counters in step with the point of control. -/
theorem shift_counts (h : Shift v r pc i pc' x events) (hq : 0 < r.quantum)
    (hs : slice = if pc = .pollPreempt ∧ pc' = .loopTest then r.slice + 1 else r.slice)
    (hn : slicesRun = if pc = .sleeping then r.slicesRun + 1 else r.slicesRun)
    (hr : ∀ ops, pc' ≠ .exiting (.drainFailed .reaped) ops)
    (hc : Counts r.quantum r.slice r.slicesRun v.task.remainingBurst pc) :
    Counts r.quantum slice slicesRun (burstAfter v.task.remainingBurst x) pc' := by
  by_cases hpoll : pc = .pollPreempt
  · subst hpoll
    obtain rfl : slicesRun = r.slicesRun := by simpa using hn
    simp only [Counts] at hc
    cases h with
    | preempted _ =>
      simp only [Counts,Site.Counts]
      omega
    | again _ =>
      obtain rfl : slice = r.slice + 1 := by simpa using hs
      simp only [Counts]
      omega
  obtain rfl : slice = r.slice := by
    rw [hs]
    exact if_neg (fun hp => hpoll hp.1)
  by_cases hsleep : pc = .sleeping
  · subst hsleep
    obtain rfl : slicesRun = r.slicesRun + 1 := by simpa using hn
    cases h with
    | slept =>
      simp only [Counts] at hc
      simp only [Counts,Site.Counts]
      omega
  obtain rfl : slicesRun = r.slicesRun := by
    rw [hn]
    exact if_neg hsleep
  clear hs hn
  cases h with
  | noContext _ => exact fits_early rfl hc.2
  | shellNoLine => exact fits_early rfl hc.2
  | shellDone => exact fits_early rfl hc.2
  | shellNoOutput => exact fits_early rfl hc.2
  | early he =>
    rcases he with rfl | rfl | rfl <;> exact fits_early rfl hc.2
  | running =>
    simp only [Counts] at hc ⊢
    omega
  | cancelled =>
    simp only [Counts] at hc
    exact fits_late (by simp) rfl (Or.inr ⟨rfl,by omega⟩)
  | loopEnd hend =>
    simp only [Counts] at hc
    exact ⟨hc.1,hc.2,fun hpos => not_lt.mp (fun hlt => hend ⟨hlt,hpos⟩)⟩
  | drained hd => exact counts_afterDrain hc hd hr
  | piece connection _ => split <;> exact hc
  | sendFailed => exact counts_afterDrain hc (.failed _) hr
  | reaped =>
    simp only [Counts] at hc
    simp only [Counts,Site.Counts]
    omega
  | quantumEnd hpos =>
    simp only [Counts] at hc
    have hle := hc.2.2 hpos
    simp only [Counts,Site.Counts]
    omega
  | wait _ =>
    simp only [Counts] at hc ⊢
    omega
  | noWait _ =>
    simp only [Counts] at hc
    simp only [Counts,Site.Counts]
    omega
  | done => trivial
  | preempted _ => exact (hpoll rfl).elim
  | again _ => exact (hpoll rfl).elim
  | slept => exact (hsleep rfl).elim
  | _ => exact hc

/-- A round is not lost over its last drain. -/
theorem serverTaskExecutor_drains {m : Move} (h : serverTaskExecutor v r i = some m)
    (hsent : i ≠ .sent false) (hd : r.pc = .draining .reaped → i.drains v.context = true)
    (hr : ∀ ops, r.pc ≠ .exiting (.drainFailed .reaped) ops) (ops : List ExitOp) :
    m.round.pc ≠ .exiting (.drainFailed .reaped) ops := by
  intro hp
  have hshift := (serverTaskExecutor_moved h).shift
  generalize hpc : r.pc = pc at hshift
  generalize hpc' : m.round.pc = pc' at hshift
  generalize m.action = x at hshift
  generalize m.events = events at hshift
  have he : pc' = .exiting (.drainFailed .reaped) ops := hpc' ▸ hp
  clear hpc'
  cases hshift with
  | early hx => rcases hx with rfl | rfl | rfl <;> cases he
  | drained hafter =>
    cases hafter with
    | failed site =>
      cases he
      have hm : taskContextDrainPipe v r .reaped i = some m := by
        simpa only [serverTaskExecutor,hpc] using h
      exact taskContextDrainPipe_drains hm (hd hpc) _ hp
    | _ => cases he
  | piece connection _ => split at he <;> cases he
  | sendFailed => exact hsent rfl
  | op _ =>
    cases he
    exact hr _ hpc
  | opFailed =>
    cases he
    exact hr _ hpc
  | mark _ _ =>
    cases he
    exact hr _ hpc
  | _ => cases he

/-- A round that is left has all the operations of its exit before it. -/
theorem shift_leaves (h : Shift v r pc i pc' x events) (hpc : ∀ exit ops, pc ≠ .exiting exit ops)
    {exit : Exit} {ops : List ExitOp} (hpc' : pc' = .exiting exit ops) : ops = exitOps exit := by
  cases h with
  | early he =>
    cases hpc'
    rfl
  | drained hd =>
    cases hd with
    | tick => cases hpc'
    | _ =>
      cases hpc'
      rfl
  | piece connection _ => split at hpc' <;> cases hpc'
  | op _ => exact (hpc _ _ rfl).elim
  | opFailed => exact (hpc _ _ rfl).elim
  | mark _ _ => exact (hpc _ _ rfl).elim
  | _ => first | cases hpc'; rfl | cases hpc'

end Counters

end UnixShell.Server
