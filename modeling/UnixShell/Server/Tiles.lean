import UnixShell.Foundation.Tilings
import UnixShell.Server.Batches
import UnixShell.Server.Polling

/-! # The printed timeline

Rounds of program tasks follow each other, each from the call of the executor to its return,
and take the clock along. The summary is a text of one line, built in a buffer, that shows
which client ran up to which time.
-/
namespace UnixShell.Server
open Foundation Scheduler

/-- `%d`. -/
def decimal (n : ℤ) : Text :=
  if n < 0 then '-' :: Nat.toDigits 10 n.natAbs else Nat.toDigits 10 n.natAbs

/-- `append_text`. -/
def appendText (size : ℕ) (destination source : Text) : Text :=
  if size = 0 then destination
  else if size - 1 ≤ destination.length then destination.take (size - 1)
  else destination ++ source.take (size - destination.length - 1)

/-- The size of `timeline_str`. -/
def timelineSize : ℕ := 1024

/-- A `segment` holds any two values of type `int`, so it is never cut. -/
def segment (slice : ℤ × ℤ) : Text :=
  ['P'] ++ decimal slice.1 ++ ['-','('] ++ decimal slice.2 ++ [')']

def timelineText (timeline : List (ℤ × ℤ)) : Text :=
  timeline.foldl
    (fun text slice => appendText timelineSize (appendText timelineSize text ['-']) (segment slice))
    (appendText timelineSize [] ['(','0',')'])

def coloured (text : Text) : Text := "\x1b[46m".toList ++ text ++ "\x1b[0m\n".toList

/-- The line that goes to the log. -/
def summaryLine (timeline : List (ℤ × ℤ)) : Text := coloured (timelineText timeline)

/-- The whole timeline, however long it is. -/
def listing (entries : List (ℤ × ℤ)) : Text :=
  ['(','0',')'] ++ entries.flatMap (fun entry => ['-'] ++ segment entry)

/-- One round of a program task, with the ticks that it has run and the exit that it took. -/
structure Turn where
  clientNumber : ℤ
  ticks : ℕ
  exit : Exit
  deriving DecidableEq, Repr

/-- A round in progress. -/
structure TurnState where
  clock : Clock
  round : Round
  ticks : ℕ
  deriving DecidableEq, Repr

/-- What the executor sees in a round of a program of this client. All the rest may have been
changed by others between its steps. -/
def View.inTurn (v : View) (clientNumber : ℤ) (clock : Clock) : View :=
  { v with
    task := { v.task with clientNumber := clientNumber, type := .program }
    clock := clock }

def turnStep (clientNumber : ℤ) (s : TurnState) (a : View × Input) : Option TurnState :=
  (serverTaskExecutor (a.1.inTurn clientNumber s.clock) s.round a.2).map fun m =>
    ⟨m.clock,m.round,s.ticks + ticksOf s.round.task m.events⟩

/-- The executor is called, takes this turn and returns. -/
def TakesTurn (clock : Clock) (turn : Turn) (clock' : Clock) : Prop :=
  ∃ (t : TaskRef) (k : ContextRef) (quantum : ℤ) (as : List (View × Input)) (round : Round),
    Runs (Fires (turnStep turn.clientNumber)) ⟨clock,newRound t k quantum,0⟩ as
      ⟨clock',round,turn.ticks⟩ ∧ round.pc = .returned turn.exit

/-- The turns that ran at least one tick, each with its client. -/
def tickedTurns (turns : List Turn) : List (ℤ × ℤ) :=
  (turns.filter (fun turn => 0 < turn.ticks)).map fun turn => (turn.clientNumber,(turn.ticks : ℤ))

/-- The line is a listing in which every turn that ran a tick has its entry. -/
def ListsTurns (line : Text) (turns : List Turn) : Prop :=
  ∃ entries, Tiling 0 (tickedTurns turns) entries ∧ line = coloured (listing entries)

/-- The exit after a reaped child whose last drain fails appends no slice. -/
def Turn.Forgotten (turn : Turn) : Prop := 0 < turn.ticks ∧ turn.exit = .drainFailed .reaped

/-- The exit that a round is left by, and what is still to be done for it. -/
def ExecutorPc.leaving : ExecutorPc → Option (Exit × List ExitOp)
  | .exiting exit ops => some (exit,ops)
  | .returned exit => some (exit,[])
  | _ => none

section Text

theorem appendText_eq (size : ℕ) (destination source : Text) :
    appendText (size + 1) destination source = (destination ++ source).take size := by
  unfold appendText
  rw [if_neg (Nat.succ_ne_zero size),Nat.add_sub_cancel]
  by_cases hfull : size ≤ destination.length
  · rw [if_pos hfull,List.take_append_of_le_length hfull]
  · have hroom : size + 1 - destination.length - 1 = size - destination.length := by omega
    have hlen : destination.length ≤ size := by omega
    rw [if_neg hfull,hroom,List.take_append,List.take_of_length_le hlen]

/-- The buffer holds the beginning of the listing. -/
theorem timelineText_eq (timeline : List (ℤ × ℤ)) :
    timelineText timeline = (listing timeline).take (timelineSize - 1) := by
  have hslice : (fun text slice =>
      appendText timelineSize (appendText timelineSize text ['-']) (segment slice)) =
      fun text slice => (text ++ (['-'] ++ segment slice)).take (timelineSize - 1) := by
    funext text slice
    rw [timelineSize,appendText_eq,appendText_eq,take_append_cut,List.append_assoc]
  have hfirst : appendText timelineSize [] ['(','0',')'] =
      (['(','0',')'] : Text).take (timelineSize - 1) := appendText_eq _ _ _
  rw [timelineText,hslice,hfirst]
  exact foldl_append_cut _ _ _ _

theorem coloured_injective {text text' : Text} (h : coloured text = coloured text') :
    text = text' :=
  List.append_cancel_left (List.append_cancel_right h)

end Text

section Steps
variable {clientNumber : ℤ} {clock : Clock} {s s' : TurnState} {a : View × Input} {v : View}
  {r : Round} {i : Input} {pc pc' : ExecutorPc} {x : Option Action} {events : List ServerEvent}
  {exit : Exit}

/-- Ticks are the moves into the sleep. -/
theorem shift_slept (h : Shift v r pc i pc' x events) :
    ticksOf r.task events = if pc' = .sleeping then 1 else 0 := by
  cases h with
  | tick => simp [ticksOf]
  | drained hd => cases hd <;> rfl
  | piece connection _ => split <;> rfl
  | _ => rfl

/-- The operations of an exit do not look at the end of the slice before they have set it. -/
theorem clockAfter_exit (slicesRun sliceEnd : ℤ) (exit : Exit) :
    clockAfter clientNumber slicesRun sliceEnd clock (exitOps exit) =
      clockAfter clientNumber slicesRun 0 clock (exitOps exit) := by
  cases exit with
  | drainFailed site => cases site <;> rfl
  | _ => rfl

/-- What a round knows of the clock that it began at. -/
def ClockKnown (clientNumber : ℤ) (start clock : Clock) (r : Round) :
    Option (Exit × List ExitOp) → Prop
  | none => clock = start
  | some (exit,ops) =>
    (exit.early = true → r.slicesRun = 0) ∧
      clockAfter clientNumber r.slicesRun r.sliceEnd clock ops =
        clockAfter clientNumber r.slicesRun 0 start (exitOps exit)

/-- What is known of a round that began at this clock. -/
structure InTurn (clientNumber : ℤ) (start : Clock) (s : TurnState) : Prop where
  ticks : (s.ticks : ℤ) =
    if s.round.pc = .sleeping then s.round.slicesRun + 1 else s.round.slicesRun
  head : s.round.pc = .start ∨ s.round.pc = .program → s.round.slicesRun = 0
  program : s.round.pc ≠ .shell
  clock : ClockKnown clientNumber start s.clock s.round s.round.pc.leaving

/-- The points before the first tick, and the exits that lie there. -/
theorem shift_head (h : Shift v r pc i pc' x events) (hv : v.task.type = .program)
    (hpc : pc ≠ .shell) :
    pc' ≠ .shell ∧ (pc' = .start ∨ pc' = .program → pc = .start) := by
  cases h with
  | shell hs =>
    rw [hv] at hs
    cases hs
  | drained hd => cases hd <;> simp
  | piece connection _ => split <;> simp
  | _ => simp_all

theorem leaving_eq_some {ops : List ExitOp} (h : pc.leaving = some (exit,ops)) :
    pc = .exiting exit ops ∨ pc = .returned exit ∧ ops = [] := by
  cases pc with
  | exiting _ _ =>
    cases h
    exact Or.inl rfl
  | returned _ =>
    cases h
    exact Or.inr ⟨rfl,rfl⟩
  | _ => cases h

/-- A round is left for the operations of its exit, and early only before the first tick. -/
theorem shift_leaving (h : Shift v r pc i pc' x events) (hpc : pc ≠ .shell)
    (hnone : pc.leaving = none) {ops : List ExitOp} (hsome : pc'.leaving = some (exit,ops)) :
    ops = exitOps exit ∧ (exit.early = true → pc = .start ∨ pc = .program) := by
  have hne : ∀ exit ops, pc ≠ .exiting exit ops := by
    rintro exit ops rfl
    cases hnone
  rcases leaving_eq_some hsome with hexiting | ⟨hreturned,_⟩
  · refine ⟨shift_leaves h hne hexiting,fun hearly => ?_⟩
    cases h with
    | noContext _ => exact Or.inl rfl
    | early _ => exact Or.inr rfl
    | shellNoLine => exact (hpc rfl).elim
    | shellDone => exact (hpc rfl).elim
    | shellNoOutput => exact (hpc rfl).elim
    | op _ => exact (hne _ _ rfl).elim
    | opFailed => exact (hne _ _ rfl).elim
    | mark _ _ => exact (hne _ _ rfl).elim
    | piece connection _ => split at hexiting <;> cases hexiting
    | drained hd => cases hd <;> cases hexiting <;> cases hearly
    | cancelled _ _ _ =>
      cases hexiting
      cases hearly
    | sendFailed =>
      cases hexiting
      cases hearly
    | _ => cases hexiting
  · cases h with
    | done => exact (hne _ _ rfl).elim
    | drained hd => cases hd <;> cases hreturned
    | piece connection _ => split at hreturned <;> cases hreturned
    | _ => cases hreturned

theorem turnStep_inTurn {start : Clock} (h : InTurn clientNumber start s)
    (hstep : turnStep clientNumber s a = some s') : InTurn clientNumber start s' := by
  obtain ⟨m,hm,rfl⟩ := Option.map_eq_some_iff.mp hstep
  have hmoved := serverTaskExecutor_moved hm
  have hrun := serverTaskExecutor_slicesRun hm
  obtain ⟨hshell,hhead⟩ := shift_head hmoved.shift rfl h.program
  refine ⟨?_,fun hpc => ?_,hshell,?_⟩
  · show ((s.ticks + ticksOf s.round.task m.events : ℕ) : ℤ) = _
    rw [shift_slept hmoved.shift,Nat.cast_add,h.ticks,← hrun]
    split <;> simp
  · have hstart := hhead hpc
    rw [hrun,hstart]
    exact h.head (Or.inl hstart)
  · have hclock := h.clock
    cases hleaving : s.round.pc.leaving with
    | none =>
      rw [hleaving] at hclock
      have hsame : m.clock = s.clock := by
        refine serverTaskExecutor_clock hm fun exit op ops hpc => ?_
        rw [hpc] at hleaving
        cases hleaving
      cases hleaving' : m.round.pc.leaving with
      | none => exact hsame.trans hclock
      | some left =>
        obtain ⟨hops,hearly⟩ := shift_leaving hmoved.shift h.program hleaving hleaving'
        refine ⟨fun he => ?_,?_⟩
        · have hpc := hearly he
          rw [hrun,if_neg (by rcases hpc with hpc | hpc <;> simp [hpc])]
          exact h.head hpc
        · show clockAfter _ _ _ m.clock _ = _
          rw [hsame,show s.clock = start from hclock,hops]
          exact clockAfter_exit _ _ _
    | some left =>
      obtain ⟨exit,ops⟩ := left
      rw [hleaving] at hclock
      rcases leaving_eq_some hleaving with hpc | ⟨hpc,_⟩
      · cases ops with
        | nil =>
          have hsame : m.clock = s.clock := serverTaskExecutor_clock hm (by simp [hpc])
          have hrun' : m.round.slicesRun = s.round.slicesRun := by
            rw [hrun,if_neg (by simp [hpc])]
          simp only [hmoved.returned hpc,ExecutorPc.leaving,ClockKnown,hrun',hsame]
          exact hclock
        | cons op ops =>
          have hexit : exitStep (a.1.inTurn clientNumber s.clock) s.round exit op ops a.2 =
              some m := by
            simpa only [serverTaskExecutor,hpc] using hm
          obtain ⟨hpc',hrun',hafter⟩ := exitStep_clockAfter hexit
          simp only [hpc',ExecutorPc.leaving,ClockKnown,hrun']
          exact ⟨hclock.1,hafter.trans hclock.2⟩
      · have hnone : serverTaskExecutor (a.1.inTurn clientNumber s.clock) s.round a.2 = none := by
          simp [serverTaskExecutor,hpc]
        rw [hnone] at hm
        cases hm

/-- What a turn leaves on the clock is fixed by its ticks and its exit. -/
theorem TakesTurn.clockAfter {clock' : Clock} {turn : Turn} (h : TakesTurn clock turn clock') :
    (turn.exit.early = true → turn.ticks = 0) ∧
      clock' = clockAfter turn.clientNumber turn.ticks 0 clock (exitOps turn.exit) := by
  obtain ⟨t,k,quantum,as,round,hruns,hpc⟩ := h
  have hstart : InTurn turn.clientNumber clock ⟨clock,newRound t k quantum,0⟩ :=
    ⟨rfl,fun _ => rfl,by simp [newRound],rfl⟩
  have hend := hruns.invariant (fun s a s' hs hstep => turnStep_inTurn hs hstep) hstart
  have hticks := hend.ticks
  have hclock := hend.clock
  simp only [hpc,reduceCtorEq,if_false] at hticks
  simp only [hpc,ExecutorPc.leaving,ClockKnown,← hticks] at hclock
  exact ⟨fun he => Int.natCast_eq_zero.mp (hclock.1 he),hclock.2⟩

end Steps

section Turns
variable {clientNumber : ℤ} {ticks : ℕ} {exit : Exit} {clock clock' : Clock} {turn : Turn}
  {turns : List Turn} {timeline : List (ℤ × ℤ)} {w : World}

/-- The clock has moved on, and the slice was appended if there was room. -/
structure Clock.Gains (clock : Clock) (clientNumber : ℤ) (ticks : ℕ) (clock' : Clock) : Prop where
  time : clock'.currentSliceStartTime = clock.currentSliceStartTime + ticks
  timeline : clock'.timeline =
    if 0 < ticks then (appendTimelineSlice clock clientNumber
      (clock.currentSliceStartTime + ticks)).timeline
    else clock.timeline

theorem gains_refl (clientNumber : ℤ) (clock : Clock) : clock.Gains clientNumber 0 clock :=
  ⟨(add_zero _).symm,rfl⟩

theorem appendTimelineSlice_time (clock : Clock) (clientNumber sliceEnd : ℤ) :
    (appendTimelineSlice clock clientNumber sliceEnd).currentSliceStartTime =
      clock.currentSliceStartTime := by
  unfold appendTimelineSlice
  split <;> rfl

theorem appendTimelineSlice_timeline (clock : Clock) (clientNumber sliceEnd : ℤ) :
    (appendTimelineSlice clock clientNumber sliceEnd).timeline =
      if clock.timeline.length < maxTimelineSlices then clock.timeline ++ [(clientNumber,sliceEnd)]
      else clock.timeline := by
  unfold appendTimelineSlice
  split <;> rfl

theorem gains_round (clientNumber : ℤ) (ticks : ℕ) (clock : Clock) (preempted : Bool) :
    clock.Gains clientNumber ticks
      (clockAfter clientNumber ticks 0 clock [.advanceClock preempted,.appendSlice]) := by
  simp only [clockAfter,Int.natCast_pos]
  by_cases hpos : 0 < ticks
  · rw [if_pos hpos]
    refine ⟨appendTimelineSlice_time _ _ _,?_⟩
    rw [if_pos hpos,appendTimelineSlice_timeline,appendTimelineSlice_timeline]
  · rw [if_neg hpos]
    exact ⟨rfl,(if_neg hpos).symm⟩

/-- All exits move the clock on and keep the slice, but the one that forgets it. -/
theorem gains_exit (clientNumber : ℤ) (clock : Clock) (hearly : exit.early = true → ticks = 0)
    (hkept : 0 < ticks → exit ≠ .drainFailed .reaped) :
    clock.Gains clientNumber ticks (clockAfter clientNumber ticks 0 clock (exitOps exit)) := by
  have hround := gains_round clientNumber ticks clock
  cases exit with
  | cancelled => exact hround false
  | reaped => exact hround false
  | preempted => exact hround true
  | quantumEnd => exact hround true
  | final => exact hround false
  | drainFailed site =>
    cases site with
    | reaped =>
      obtain rfl : ticks = 0 := Nat.eq_zero_of_not_pos fun hpos => hkept hpos rfl
      exact ⟨rfl,rfl⟩
    | _ => exact hround false
  | _ =>
    obtain rfl := hearly rfl
    exact gains_refl clientNumber clock

theorem tickedTurns_concat (turns : List Turn) (turn : Turn) :
    tickedTurns (turns ++ [turn]) = tickedTurns turns ++
      if 0 < turn.ticks then [(turn.clientNumber,(turn.ticks : ℤ))] else [] := by
  rw [tickedTurns,List.filter_append,List.map_append]
  by_cases hpos : 0 < turn.ticks <;> simp [tickedTurns,hpos]

/-- The clock shows all the time that was used, and the first entries of the tiling. -/
structure ShowsTurns (turns : List Turn) (clock : Clock) : Prop where
  time : clock.currentSliceStartTime = tileEnd 0 (tickedTurns turns)
  timeline : clock.timeline = (tile 0 (tickedTurns turns)).take maxTimelineSlices

theorem ShowsTurns.concat (h : ShowsTurns turns clock)
    (hgains : clock.Gains turn.clientNumber turn.ticks clock') :
    ShowsTurns (turns ++ [turn]) clock' := by
  by_cases hpos : 0 < turn.ticks
  · have hticked : tickedTurns (turns ++ [turn]) =
        tickedTurns turns ++ [(turn.clientNumber,(turn.ticks : ℤ))] := by
      rw [tickedTurns_concat,if_pos hpos]
    constructor
    · rw [hticked,tileEnd_concat,hgains.time,h.time]
    · rw [hticked,tile_concat,← take_concat,← h.timeline,← h.time,hgains.timeline,if_pos hpos,
        appendTimelineSlice_timeline]
  · have hticked : tickedTurns (turns ++ [turn]) = tickedTurns turns := by
      rw [tickedTurns_concat,if_neg hpos,List.append_nil]
    constructor
    · rw [hticked,hgains.time,h.time,Nat.eq_zero_of_not_pos hpos,Nat.cast_zero,add_zero]
    · rw [hticked,hgains.timeline,if_neg hpos,h.timeline]

theorem turns_shown (h : Runs TakesTurn emptyBatch.clock turns clock)
    (hkept : ∀ turn ∈ turns, ¬ turn.Forgotten) : ShowsTurns turns clock := by
  refine h.trace (P := fun turns clock => (∀ turn ∈ turns, ¬ turn.Forgotten) →
    ShowsTurns turns clock) ?_ (fun _ => ⟨rfl,rfl⟩) hkept
  intro turns clock turn clock' ih hturn hkept
  obtain ⟨hearly,rfl⟩ := hturn.clockAfter
  obtain ⟨hbefore,hlast⟩ := List.forall_mem_append.mp hkept
  exact (ih hbefore).concat (gains_exit _ _ hearly fun hpos he =>
    hlast turn List.mem_cons_self ⟨hpos,he⟩)

theorem tickedTurns_pos : ∀ piece ∈ tickedTurns turns, 0 < piece.2 := by
  intro piece hpiece
  obtain ⟨turn,hturn,rfl⟩ := List.mem_map.mp hpiece
  have hpos : 0 < turn.ticks := of_decide_eq_true (List.mem_filter.mp hturn).2
  exact Int.natCast_pos.mpr hpos

/-- What is printed is what stands on the clock. -/
theorem printed_timeline (hprint : (printSummaryIfNeeded w).log = .printed timeline :: w.log) :
    timeline = w.clock.timeline := by
  unfold printSummaryIfNeeded at hprint
  split at hprint
  · cases (List.cons.inj hprint).1
    rfl
  · exact absurd hprint.symm (List.cons_ne_self _ _)

theorem summaryLine_take (entries : List (ℤ × ℤ)) :
    summaryLine (entries.take maxTimelineSlices) =
      coloured ((listing (entries.take maxTimelineSlices)).take (timelineSize - 1)) := by
  rw [summaryLine,timelineText_eq]

/-- Every turn that ran a tick has an entry that tiles the time, and the summary lists the first
entries as far as the buffer goes. -/
theorem summary_tiles (hturns : Runs TakesTurn emptyBatch.clock turns w.clock)
    (hprint : (printSummaryIfNeeded w).log = .printed timeline :: w.log)
    (hkept : ∀ turn ∈ turns, ¬ turn.Forgotten) :
    ∃ entries, Tiling 0 (tickedTurns turns) entries ∧
      summaryLine timeline =
        coloured ((listing (entries.take maxTimelineSlices)).take (timelineSize - 1)) := by
  refine ⟨tile 0 (tickedTurns turns),tiling_tile 0 tickedTurns_pos,?_⟩
  rw [printed_timeline hprint,(turns_shown hturns hkept).timeline]
  exact summaryLine_take _

end Turns

/-- What the executor sees of a demo with this child. -/
def turnView (childPid : Option Pid) (state : ProcessState) : View where
  task := { blankTask with remainingBurst := 4, userData := some 0 }
  shouldCancel := false
  shouldPreempt := true
  context := { taskContextCreate with
    argv := some ["./demo".toList]
    childPid := childPid
    childRunning := childPid.isSome
    pipeFd := childPid
    initialBurst := 4
    socketFd := some 5 }
  connection := some 1
  procs _ := { state := state, pipe := [] }
  nextPid := 1
  clock := emptyBatch.clock

/-- One tick, and then a preemption. -/
def shortTurn (clientNumber : ℤ) : Turn := ⟨clientNumber,1,.preempted⟩

def shortSteps : List (View × Input) :=
  (turnView none .running,.go) :: (turnView none .running,.started true) ::
    List.map (Prod.mk (turnView (some 1) .running))
      [.go,.go,.readAgain,.go,.go,.go,.readAgain,.go,.go,.go]

/-- One tick, and then the last drain fails. -/
def lostTurn (clientNumber : ℤ) : Turn := ⟨clientNumber,1,.drainFailed .reaped⟩

def lostSteps : List (View × Input) :=
  (turnView none .running,.go) :: (turnView none .running,.started true) ::
    List.map (Prod.mk (turnView (some 1) .zombie))
      [.go,.go,.readAgain,.go,.go,.readError,.allocated true,.go,.go]

theorem shortTurn_taken (clientNumber : ℤ) (clock : Clock) :
    TakesTurn clock (shortTurn clientNumber)
      (clockAfter clientNumber 1 0 clock (exitOps .preempted)) :=
  ⟨0,0,3,shortSteps,_,runs_of_exec rfl,rfl⟩

theorem lostTurn_taken (clientNumber : ℤ) (clock : Clock) :
    TakesTurn clock (lostTurn clientNumber)
      (clockAfter clientNumber 1 0 clock (exitOps (.drainFailed .reaped))) :=
  ⟨0,0,3,lostSteps,_,runs_of_exec rfl,rfl⟩

def worldAt (clock : Clock) : World := { (serverInit TaskLists).world with clock := clock }

theorem shortTurns_tile : ∃ entries,
    Tiling 0 (tickedTurns [shortTurn 1,shortTurn 2]) entries ∧ summaryLine [(1,1),(2,2)] =
      coloured ((listing (entries.take maxTimelineSlices)).take (timelineSize - 1)) :=
  summary_tiles
    (w := worldAt { timeline := [(1,1),(2,2)], hadPreemption := true, currentSliceStartTime := 2 })
    (.step (shortTurn_taken 1 _) (.step (shortTurn_taken 2 _) (.refl _))) rfl
    (by simp [Turn.Forgotten,shortTurn])

/-- After these turns a summary is printed that does not list them. -/
def Misprinted (turns : List Turn) : Prop :=
  ∃ (w : World) (timeline : List (ℤ × ℤ)), Runs TakesTurn emptyBatch.clock turns w.clock ∧
    (printSummaryIfNeeded w).log = .printed timeline :: w.log ∧
    ¬ ListsTurns (summaryLine timeline) turns

section Misprints
variable {clientNumber : ℤ} {count : ℕ} {clock : Clock} {entries : List (ℤ × ℤ)}

/-- A listing that fits has not too many entries and is not too long. -/
theorem listing_fits
    (h : summaryLine (entries.take maxTimelineSlices) = coloured (listing entries)) :
    entries.length ≤ maxTimelineSlices ∧ (listing entries).length ≤ timelineSize - 1 := by
  rw [summaryLine_take] at h
  have hlen := congrArg List.length (coloured_injective h)
  rw [List.length_take] at hlen
  refine ⟨?_,by omega⟩
  have hrest : (entries.drop maxTimelineSlices).length * 1 ≤
      ((entries.drop maxTimelineSlices).flatMap (fun entry => ['-'] ++ segment entry)).length :=
    length_flatMap_ge 1 fun entry _ => by simp
  have hsplit : (listing entries).length = (listing (entries.take maxTimelineSlices)).length +
      ((entries.drop maxTimelineSlices).flatMap (fun entry => ['-'] ++ segment entry)).length := by
    rw [listing,listing,← List.length_append,List.append_assoc,← List.flatMap_append,
      List.take_append_drop]
  rw [List.length_drop] at hrest
  omega

theorem shortTurns_run (clientNumber : ℤ) (count : ℕ) (clock : Clock) : ∃ clock',
    Runs TakesTurn clock (List.replicate count (shortTurn clientNumber)) clock' ∧
      (0 < count ∨ clock.hadPreemption = true → clock'.hadPreemption = true) := by
  induction count generalizing clock with
  | zero => exact ⟨clock,.refl clock,fun h => h.resolve_left (lt_irrefl 0)⟩
  | succ count ih =>
    obtain ⟨clock',hruns,hpreempted⟩ := ih (clockAfter clientNumber 1 0 clock (exitOps .preempted))
    refine ⟨clock',.step (shortTurn_taken clientNumber clock) hruns,fun _ => hpreempted (Or.inr ?_)⟩
    show (appendTimelineSlice _ _ _).hadPreemption = true
    unfold appendTimelineSlice
    split <;> rfl

theorem tickedTurns_short (clientNumber : ℤ) (count : ℕ) :
    tickedTurns (List.replicate count (shortTurn clientNumber)) =
      List.replicate count (clientNumber,1) := by
  simp [tickedTurns,shortTurn]

/-- Short turns are not listed if they are too many, or if their listing is too long. -/
theorem shortTurns_misprinted (hpos : 0 < count)
    (hcut : ¬ ((tile 0 (List.replicate count (clientNumber,1))).length ≤ maxTimelineSlices ∧
      (listing (tile 0 (List.replicate count (clientNumber,1)))).length ≤ timelineSize - 1)) :
    Misprinted (List.replicate count (shortTurn clientNumber)) := by
  obtain ⟨clock,hruns,hpreempted⟩ := shortTurns_run clientNumber count emptyBatch.clock
  have hkept : ∀ turn ∈ List.replicate count (shortTurn clientNumber), ¬ turn.Forgotten := by
    intro turn hturn
    rw [List.eq_of_mem_replicate hturn]
    simp [Turn.Forgotten,shortTurn]
  have htimeline := (turns_shown hruns hkept).timeline
  rw [tickedTurns_short] at htimeline
  refine ⟨worldAt clock,clock.timeline,hruns,?_,?_⟩
  · have hne : clock.timeline ≠ [] := by
      rw [htimeline]
      refine List.ne_nil_of_length_pos ?_
      rw [List.length_take,tile_length,List.length_replicate]
      exact lt_min (by decide) hpos
    rw [printSummaryIfNeeded,if_pos ⟨hpreempted (Or.inl hpos),hne⟩]
    rfl
  · rintro ⟨entries,htiling,hline⟩
    rw [tickedTurns_short] at htiling
    obtain rfl := htiling.eq_tile
    rw [htimeline] at hline
    exact hcut (listing_fits hline)

end Misprints

/-- Too many turns for the slots, too many digits for the buffer, and a turn that is left where
no slice is appended. -/
theorem turns_misprinted : Misprinted (List.replicate 101 (shortTurn 1)) ∧
    Misprinted (List.replicate 100 (shortTurn 100000)) ∧
    Misprinted [lostTurn 1,shortTurn 1] := by
  refine ⟨shortTurns_misprinted (by decide) ?_,shortTurns_misprinted (by decide) ?_,?_⟩
  · rw [tile_length,List.length_replicate]
    exact fun h => absurd h.1 (by decide)
  · rintro ⟨_,hlen⟩
    have hclient : ∀ entry ∈ tile 0 (List.replicate 100 ((100000 : ℤ),(1 : ℤ))),
        11 ≤ (['-'] ++ segment entry).length := by
      intro entry hentry
      have hlabel := List.mem_map_of_mem (f := Prod.fst) hentry
      rw [tile_labels,List.map_replicate] at hlabel
      have hdigits : (decimal 100000).length = 6 := by decide
      simp only [segment,List.eq_of_mem_replicate hlabel,List.length_append,List.length_cons,
        List.length_nil,hdigits]
      omega
    have hlong := length_flatMap_ge 11 hclient
    rw [tile_length,List.length_replicate] at hlong
    rw [listing,List.length_append,timelineSize] at hlen
    omega
  · refine ⟨worldAt { timeline := [(1,2)], hadPreemption := true, currentSliceStartTime := 2 },
      [(1,2)],.step (lostTurn_taken 1 _) (.step (shortTurn_taken 1 _) (.refl _)),rfl,?_⟩
    rintro ⟨entries,htiling,hline⟩
    obtain rfl := htiling.eq_tile
    exact absurd (coloured_injective hline) (by decide)

end UnixShell.Server
