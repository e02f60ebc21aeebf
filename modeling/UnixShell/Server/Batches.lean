import UnixShell.Server.Summaries

/-! # The clock and the batch in progress

While work is active the clock shows the newest batch and nothing else, up to the
operations that the round in progress has still to do. When the server goes idle the
batch stays on the clock until a client prints it, or there was nothing to keep.
-/
namespace UnixShell.Server
open Foundation Scheduler

/-- What the clock shows of the batch while the round is in progress. -/
def Round.Shows (r : Round) (clientNumber : ℤ) (clock : Clock) (b : Batch) : Prop :=
  match r.pc with
  | .exiting exit ops =>
    clockAfter clientNumber r.slicesRun r.sliceEnd clock ops =
      (b.add clientNumber r.slicesRun exit).clock
  | _ => clock = b.clock

def Shows (s : State TaskLists) (b : Batch) : Prop :=
  match s.world.round with
  | none => s.world.clock = b.clock
  | some r => r.Shows (s.sched.tasks r.task).clientNumber s.world.clock b

/-- A round in progress may still add to the batch. -/
def pending (w : World) : ℕ :=
  match w.round with
  | none => 0
  | some r => if r.pc.inside then 1 else 0

/-- The batch was built by rounds, and by no more of them than have run. -/
structure Sound (w : World) (b : Batch) : Prop where
  empty : b.rounds = [] → b = emptyBatch
  count : b.rounds.length + pending w ≤ roundsRun w.log

section Moves
variable {s s' : State TaskLists} {b : Batch} {r : Round} {i : Input} {m : Move} {client : ℤ}

theorem shows_none (hr : s.world.round = none) : Shows s b ↔ s.world.clock = b.clock := by
  simp only [Shows,hr]

theorem shows_some (hr : s.world.round = some r) :
    Shows s b ↔ r.Shows (s.sched.tasks r.task).clientNumber s.world.clock b := by
  simp only [Shows,hr]

theorem Round.shows_of_not_exiting {clock : Clock} (hp : ∀ exit ops, r.pc ≠ .exiting exit ops) :
    r.Shows client clock b ↔ clock = b.clock := by
  unfold Round.Shows
  split
  · rename_i hpc
    exact (hp _ _ hpc).elim
  · exact Iff.rfl

theorem Batch.note_of_ne (hp : ∀ exit, r.pc ≠ .exiting exit []) : b.note client r = b := by
  unfold Batch.note
  split
  · rename_i hpc
    exact (hp _ hpc).elim
  · rfl

/-- The executor returns when no operation is left. -/
theorem Moved.returned {v : View} {exit : Exit} (hm : Moved v r i m)
    (hp : r.pc = .exiting exit []) : m.round.pc = .returned exit := by
  have hshift := hm.shift
  rw [hp] at hshift
  generalize m.round.pc = pc at hshift
  generalize m.action = x at hshift
  generalize m.events = events at hshift
  cases hshift
  rfl

/-- A move of the executor takes the clock along with the batch. -/
theorem Round.Shows.moved {v : View} (h : r.Shows v.task.clientNumber v.clock b)
    (hm : serverTaskExecutor v r i = some m)
    (hfits : ∀ exit ops, m.round.pc = .exiting exit ops → exit.Fits m.round.slicesRun)
    (hlen : r.pc.inside = true → b.rounds.length < maxTimelineSlices) :
    m.round.Shows v.task.clientNumber m.clock (b.note v.task.clientNumber r) := by
  have hshift := (serverTaskExecutor_moved hm).shift
  by_cases hx : ∃ exit ops, r.pc = .exiting exit ops
  · obtain ⟨exit,ops,hp⟩ := hx
    cases ops with
    | nil =>
      have hclock : m.clock = v.clock := serverTaskExecutor_clock hm (by simp [hp])
      have hpc := (serverTaskExecutor_moved hm).returned hp
      simp only [Round.Shows,hp,clockAfter] at h
      simpa only [Round.Shows,hpc,Batch.note,hp,hclock] using h
    | cons op ops =>
      have hstep : exitStep v r exit op ops i = some m := by
        simpa only [serverTaskExecutor,hp] using hm
      obtain ⟨hpc,hrun,hafter⟩ := exitStep_clockAfter hstep
      simp only [Round.Shows,hp] at h
      simpa only [Round.Shows,hpc,hrun,Batch.note,hp,hafter] using h
  · have hne : ∀ exit ops, r.pc ≠ .exiting exit ops := fun exit ops hp => hx ⟨exit,ops,hp⟩
    have hclock : m.clock = b.clock :=
      (serverTaskExecutor_clock hm fun exit op ops => hne exit _).trans
        ((Round.shows_of_not_exiting hne).mp h)
    rw [Batch.note_of_ne fun exit => hne exit []]
    by_cases hx' : ∃ exit ops, m.round.pc = .exiting exit ops
    · obtain ⟨exit,ops,hp⟩ := hx'
      have hops := shift_leaves hshift hne hp
      have hin : r.pc.inside = true := by
        rcases shift_main hshift with ⟨hin,_⟩ | ⟨exit',hp',_⟩
        · exact hin
        · exact (hne _ _ hp').elim
      simp only [Round.Shows,hp,hclock,hops]
      exact clockAfter_exitOps (hfits exit ops hp) (hlen hin)
    · exact (Round.shows_of_not_exiting fun exit ops hp => hx' ⟨exit,ops,hp⟩).mpr hclock

end Moves

section Sounds
variable {s s' : State TaskLists} {a : ServerAction} {b : Batch} {batches : List Batch}

theorem Consistent.round_of_idle (h : Consistent s) (hz : s.sched.activeTaskCount = 0) :
    s.world.round = none := by
  apply h.round_none
  rw [h.sched.counted.main_task]
  exact (h.sched.counted.idle hz).2

theorem noteBatch_other {core : Core} {w : World} (hx : ∀ i, a ≠ .exec i)
    (hr : ∀ c request, a = .request c request → request.submits = true →
      core.activeTaskCount ≠ 0) : noteBatch batches core w a = batches := by
  cases a with
  | request c request => exact if_neg fun hc => hr c request rfl hc.1 hc.2
  | exec i => exact (hx i rfl).elim
  | _ => rfl

theorem noteBatch_submit {core : Core} {w : World} {c : ThreadId} {request : Request}
    (hs : request.submits = true) (hz : core.activeTaskCount = 0) :
    noteBatch batches core w (.request c request) = emptyBatch :: batches := if_pos ⟨hs,hz⟩

theorem noteBatch_exec {core : Core} {w : World} {r : Round} (hr : w.round = some r) (i : Input) :
    noteBatch (b :: batches) core w (.exec i) =
      b.note (core.tasks r.task).clientNumber r :: batches := by
  simp only [noteBatch,hr]

theorem Batch.add_empty {client slicesRun : ℤ} {exit : Exit} (h : b.rounds = [] → b = emptyBatch)
    (he : (b.add client slicesRun exit).rounds = []) :
    b.add client slicesRun exit = emptyBatch := by
  unfold Batch.add at he ⊢
  split
  · rename_i hpos
    simp [if_pos hpos] at he
  · rename_i hpos
    rw [if_neg hpos] at he
    exact h he

theorem Batch.add_length_le (client slicesRun : ℤ) (exit : Exit) :
    (b.add client slicesRun exit).rounds.length ≤ b.rounds.length + 1 := by
  unfold Batch.add
  split
  · simp
  · exact Nat.le_succ _

/-- The batch gains a round when the round in progress is over. -/
theorem Sound.moved {client : ℤ} {w w' : World} (h : Sound w b) {v : View} {r : Round} {i : Input}
    {m : Move} (hr : w.round = some r) (hm : Moved v r i m) (hr' : w'.round = some m.round)
    (hlog : roundsRun w.log ≤ roundsRun w'.log) : Sound w' (b.note client r) := by
  have hcount := h.count
  simp only [pending,hr] at hcount
  by_cases hx : ∃ exit, r.pc = .exiting exit []
  · obtain ⟨exit,hp⟩ := hx
    have hreturned := hm.returned hp
    simp only [Batch.note,hp]
    refine ⟨Batch.add_empty h.empty,?_⟩
    have hlen := Batch.add_length_le (b := b) client r.slicesRun exit
    simp only [hp,ExecutorPc.inside,if_true] at hcount
    simp only [pending,hr',hreturned,ExecutorPc.inside]
    simp only [Bool.false_eq_true,if_false]
    omega
  · rw [Batch.note_of_ne fun exit hp => hx ⟨exit,hp⟩]
    refine ⟨h.empty,?_⟩
    have hin : r.pc.inside = true := by
      rcases shift_main hm.shift with ⟨hin,_⟩ | ⟨exit,hp,_⟩
      · exact hin
      · exact (hx ⟨exit,hp⟩).elim
    simp only [hin,if_true] at hcount
    simp only [pending,hr']
    split <;> omega

/-- A step takes the newest batch along with the rounds that have run. -/
theorem step_sound (h : ∀ b ∈ batches.head?, Sound s.world b) (hc : Consistent s)
    (he : serverStep s a = some s') :
    ∀ b ∈ (noteBatch batches s.sched.toCore s.world a).head?, Sound s'.world b := by
  have hshape := serverStep_shape hc he
  have hlog : roundsRun s.world.log ≤ roundsRun s'.world.log := by
    obtain ⟨new,hlog,_⟩ := hshape.newEvents
    rw [hlog,roundsRun_append]
    exact Nat.le_add_left _ _
  -- where no round comes or goes, the batch stays as it is
  have hsame : pending s'.world ≤ pending s.world → ∀ b ∈ batches.head?, Sound s'.world b := by
    intro hle b hb
    have hcount := (h b hb).count
    exact ⟨(h b hb).empty,by omega⟩
  cases hshape with
  | outside ha hw hs =>
    have hpending : pending s'.world = pending s.world := by
      simp only [pending,hw.round]
    by_cases hnew : ∃ c request, a = .request c request ∧ request.submits = true ∧
        s.sched.activeTaskCount = 0
    · obtain ⟨c,request,rfl,hsub,hz⟩ := hnew
      rw [noteBatch_submit hsub hz]
      rintro b ⟨⟩
      have hround := hc.round_of_idle hz
      have hzero : pending s'.world = 0 := by
        rw [hpending]
        simp only [pending,hround]
      refine ⟨fun _ => rfl,?_⟩
      simp [hzero,emptyBatch]
    · rw [noteBatch_other (fun i hi => by rw [hi] at ha; cases ha)
        (fun c request hr hsub hz => hnew ⟨c,request,hr,hsub,hz⟩)]
      exact hsame hpending.le
  | @exec i r m hr hm hw hs =>
    cases batches with
    | nil =>
      simp only [noteBatch,hr]
      intro b hb
      cases hb
    | cons b earlier =>
      rw [noteBatch_exec hr]
      rintro b' ⟨⟩
      exact (h b rfl).moved hr hm (by rw [hw]; rfl) hlog
  | idle hr _ _ hw => exact hsame (by rw [hw])
  | dispatch hr _ _ _ _ hw =>
    intro b hb
    have hcount := (h b hb).count
    refine ⟨(h b hb).empty,?_⟩
    rw [hw]
    simp only [pending,hr] at hcount
    simp only [pending,record,newRound,ExecutorPc.inside,if_true,roundsRun,List.countP_cons,
      ServerEvent.invokes]
    simp only [roundsRun] at hcount
    omega
  | finish _ _ _ _ hr' _ =>
    apply hsame
    simp only [pending,hr']
    exact Nat.zero_le _

end Sounds

/-- The summaries that are due for the batches. -/
def due (batches : List Batch) : List (List (ℤ × ℤ)) := batches.reverse.flatMap Batch.summary

theorem due_cons (b : Batch) (earlier : List Batch) :
    due (b :: earlier) = due earlier ++ b.summary := by
  simp [due]

/-- The newest batch is on the clock, and its summary is yet to come. -/
structure Unprinted (s : State TaskLists) (batches : List Batch) : Prop where
  shown : ∃ b earlier, batches = b :: earlier ∧ s.world.clock = b.clock ∧
    summaries s.world.log = due earlier ∧ b.rounds ≠ [] ∧ b.preempted = true
  ahead : ∃ c < s.world.nextThread, (s.world.clients c).pc.ahead = true

/-- The summaries of the past batches were printed, and the clock is ready for the next one. -/
structure Printed (s : State TaskLists) (batches : List Batch) : Prop where
  clock : s.world.clock = emptyBatch.clock
  summaries : summaries s.world.log = due batches

structure Ledger (s : State TaskLists) (batches : List Batch) : Prop where
  busy : s.sched.activeTaskCount ≠ 0 → ∃ b earlier, batches = b :: earlier ∧ Shows s b ∧
    summaries s.world.log = due earlier
  idle : s.sched.activeTaskCount = 0 → Printed s batches ∨ Unprinted s batches

theorem ledger_init : Ledger (serverInit TaskLists) [] :=
  ⟨fun h => (h rfl).elim,fun _ => Or.inl ⟨rfl,rfl⟩⟩

section Ledgers
variable {s s' : State TaskLists} {a : ServerAction} {b : Batch} {batches : List Batch}

theorem Shows.congr (h : Shows s b) (hclock : s'.world.clock = s.world.clock)
    (hround : s'.world.round = s.world.round)
    (hclient : ∀ r, s.world.round = some r →
      (s'.sched.tasks r.task).clientNumber = (s.sched.tasks r.task).clientNumber) :
    Shows s' b := by
  cases hr : s.world.round with
  | none =>
    rw [shows_none hr] at h
    rw [shows_none (hround.trans hr),hclock]
    exact h
  | some r =>
    rw [shows_some hr] at h
    rw [shows_some (hround.trans hr),hclock,hclient r hr]
    exact h

theorem RoundStep.clientNumber (h : RoundStep s s' a) (hc : Consistent s) (r : Round)
    (hr : s.world.round = some r) :
    (s'.sched.tasks r.task).clientNumber = (s.sched.tasks r.task).clientNumber := by
  rcases h.sched with hs | ⟨y,hs,_⟩
  · rw [hs]
  · exact (step_continues hs (hc.task_lt hr)).clientNumber

/-- A step that leaves the clock alone, the server as idle or as busy as it was, and every
client on its way. -/
theorem Ledger.quiet (h : Ledger s batches) (hsame : SameClock s.world s'.world)
    (hshows : ∀ b, Shows s b → Shows s' b)
    (hcount : s'.sched.activeTaskCount = 0 ↔ s.sched.activeTaskCount = 0)
    (hahead : s.sched.activeTaskCount = 0 → ∀ c < s.world.nextThread,
      (s.world.clients c).pc.ahead = true →
      c < s'.world.nextThread ∧ (s'.world.clients c).pc.ahead = true) : Ledger s' batches := by
  constructor
  · intro hne
    obtain ⟨b,earlier,hb,hshown,hsum⟩ := h.busy (fun hz => hne (hcount.mpr hz))
    exact ⟨b,earlier,hb,hshows b hshown,hsame.summaries.trans hsum⟩
  · intro hz
    rw [hcount] at hz
    rcases h.idle hz with hp | hu
    · exact Or.inl ⟨hsame.clock.trans hp.clock,hsame.summaries.trans hp.summaries⟩
    · obtain ⟨b,earlier,hb,hclock,hsum,hne,hpre⟩ := hu.shown
      obtain ⟨c,hc,hc'⟩ := hu.ahead
      exact Or.inr ⟨⟨b,earlier,hb,hsame.clock.trans hclock,hsame.summaries.trans hsum,hne,hpre⟩,
        c,hahead hz c hc hc'⟩

/-- A submission that finds no active work begins a batch on a clean clock. -/
theorem Ledger.submitted (h : Ledger s batches) (hz : s.sched.activeTaskCount = 0)
    (hclean : s.world.clock.timeline = []) (hsame : SameClock s.world s'.world)
    (hround : s'.world.round = none)
    (hcount : s'.sched.activeTaskCount = s.sched.activeTaskCount + 1) :
    Ledger s' (emptyBatch :: batches) := by
  constructor
  · intro _
    rcases h.idle hz with hp | hu
    · refine ⟨emptyBatch,batches,rfl,?_,hsame.summaries.trans hp.summaries⟩
      rw [shows_none hround,hsame.clock]
      exact hp.clock
    · obtain ⟨b,earlier,_,hclock,_,hne,_⟩ := hu.shown
      rw [hclock] at hclean
      exact (hne hclean).elim
  · intro hz'
    omega

theorem somethingToPrint_iff {w : World} : somethingToPrint w = true ↔
    w.clock.hadPreemption = true ∧ w.clock.timeline ≠ [] := by
  simp [somethingToPrint]

/-- A client prints: while work is active there is nothing to print, and afterwards what is
on the clock is the summary of the newest batch. -/
theorem Ledger.printed (h : Ledger s batches) {c : ThreadId} {pc : ClientPc}
    (hok : s.sched.activeTaskCount = 0 ∨ somethingToPrint s.world = false)
    (hs : s'.sched = s.sched) (hw : s'.world = setPc (printSummaryIfNeeded s.world) c pc) :
    Ledger s' batches := by
  by_cases hprint : somethingToPrint s.world = true
  · have hz : s.sched.activeTaskCount = 0 := hok.resolve_right (by simp [hprint])
    have hif := somethingToPrint_iff.mp hprint
    refine ⟨fun hne => (hne (by rw [hs]; exact hz)).elim,fun _ => Or.inl ?_⟩
    rcases h.idle hz with hp | hu
    · rw [hp.clock] at hif
      cases hif.1
    · obtain ⟨b,earlier,rfl,hclock,hsum,_,hpre⟩ := hu.shown
      rw [printSummaryIfNeeded,if_pos hif] at hw
      constructor
      · rw [hw]
        rfl
      · have hlog : s'.world.log = [.printed b.rounds] ++ s.world.log := by
          rw [hw,hclock]
          rfl
        rw [hlog,summaries_append,hsum,due_cons,Batch.summary,if_pos hpre]
        rfl
  · have hworld : s'.world = setPc s.world c pc := by
      rw [hw,printSummaryIfNeeded,if_neg fun hif => hprint (somethingToPrint_iff.mpr hif)]
    have hsame : SameClock s.world s'.world := by
      rw [hworld]
      exact ⟨rfl,rfl⟩
    constructor
    · intro hne
      rw [hs] at hne
      obtain ⟨b,earlier,hb,hshown,hsum⟩ := h.busy hne
      refine ⟨b,earlier,hb,?_,hsame.summaries.trans hsum⟩
      exact hshown.congr hsame.clock (by rw [hworld]; rfl) (fun _ _ => by rw [hs])
    · intro hz
      rw [hs] at hz
      rcases h.idle hz with hp | hu
      · exact Or.inl ⟨hsame.clock.trans hp.clock,hsame.summaries.trans hp.summaries⟩
      · obtain ⟨b,earlier,_,hclock,_,hne,hpre⟩ := hu.shown
        refine (hprint (somethingToPrint_iff.mpr ?_)).elim
        rw [hclock]
        exact ⟨hpre,hne⟩

/-- The executor moves on, and with it what the clock shows of the newest batch. -/
theorem Ledger.moved (h : Ledger s batches) (hc : Consistent s) {r : Round} {i : Input} {m : Move}
    (hr : s.world.round = some r)
    (hm : serverTaskExecutor (view s.sched.toCore s.world r) r i = some m)
    (hw : s'.world = applyMove s.world m)
    (hcount : s'.sched.activeTaskCount = s.sched.activeTaskCount)
    (hclient : (s'.sched.tasks r.task).clientNumber = (s.sched.tasks r.task).clientNumber)
    (hfits : ∀ exit ops, m.round.pc = .exiting exit ops → exit.Fits m.round.slicesRun)
    (hlen : ∀ b ∈ batches.head?, r.pc.inside = true → b.rounds.length < maxTimelineSlices) :
    Ledger s' (noteBatch batches s.sched.toCore s.world (.exec i)) := by
  have hne : s.sched.activeTaskCount ≠ 0 := by
    intro hz
    have hnone := hc.round_of_idle hz
    rw [hr] at hnone
    cases hnone
  refine ⟨fun _ => ?_,fun hz => (hne (hcount ▸ hz)).elim⟩
  obtain ⟨b,earlier,rfl,hshown,hsum⟩ := h.busy hne
  rw [shows_some hr] at hshown
  have hround : s'.world.round = some m.round := by rw [hw]; rfl
  have hquiet : summaries s'.world.log = summaries s.world.log := by
    have hlog : s'.world.log = m.events ++ s.world.log := by rw [hw]; rfl
    rw [hlog]
    apply summaries_quiet
    intro e he
    have hb := shift_byClient (serverTaskExecutor_moved hm).shift e he
    cases e <;> first | rfl | cases hb
  rw [noteBatch_exec hr]
  refine ⟨_,earlier,rfl,?_,hquiet.trans hsum⟩
  rw [shows_some hround,(serverTaskExecutor_moved hm).task,hclient]
  have hclock : s'.world.clock = m.clock := by rw [hw]; rfl
  rw [hclock]
  exact hshown.moved hm hfits (hlen b rfl)

/-- The end of a round. The last one of a batch leaves the clock to a client on its way, or
leaves nothing on it. -/
theorem Ledger.finished (h : Ledger s batches) (hc : Consistent s)
    (hsound : ∀ b ∈ batches.head?, Sound s.world b)
    (hok : keepsBatchesApart s.sched.toCore s.world .finish = true)
    (he : serverStep s .finish = some s') {r : Round} {exit : Exit} (hr : s.world.round = some r)
    (hp : r.pc = .returned exit) (hr' : s'.world.round = none)
    (hs : Scheduler.step s.sched .finish = some s'.sched) : Ledger s' batches := by
  have hne : s.sched.activeTaskCount ≠ 0 := by
    intro hz
    have hnone := hc.round_of_idle hz
    rw [hr] at hnone
    cases hnone
  obtain ⟨b,earlier,rfl,hshown,hsum⟩ := h.busy hne
  have hsame := serverStep_sameClock (by simp) (by simp) he
  have hclock : s'.world.clock = b.clock := by
    rw [shows_some hr,Round.shows_of_not_exiting (by simp [hp])] at hshown
    exact hsame.clock.trans hshown
  have hsum' := hsame.summaries.trans hsum
  refine ⟨fun _ => ⟨b,earlier,rfl,(shows_none hr').mpr hclock,hsum'⟩,fun hz => ?_⟩
  -- the count has come down to zero, so this was the last task of its batch
  have hends : endsBatch s.sched.toCore = true := by
    rcases step_activeTaskCount hs (by simp) (by simp) with hcount | ⟨_,hcount,t,quantum,result,
      hmain,hreq⟩
    · exact (hne (hcount ▸ hz)).elim
    · have hone : s.sched.activeTaskCount = 1 := by omega
      simp [endsBatch,hmain,hone,hreq]
  simp only [keepsBatchesApart,hends,Bool.not_true,Bool.false_or,Bool.or_eq_true,
    Bool.and_eq_true,List.isEmpty_iff] at hok
  rw [← hsame.clock] at hok
  rcases hok with hclean | ⟨hprint,hahead⟩
  · left
    rw [hclock] at hclean
    obtain rfl := (hsound b rfl).empty hclean
    refine ⟨hclock,?_⟩
    rw [hsum',due_cons]
    exact (List.append_nil _).symm
  · right
    have hif := somethingToPrint_iff.mp hprint
    rw [← hsame.clock,hclock] at hif
    refine ⟨⟨b,earlier,rfl,hclock,hsum',hif.2,hif.1⟩,?_⟩
    obtain ⟨c,hc,hpc⟩ := List.any_eq_true.mp hahead
    obtain ⟨_,hw⟩ := serverStep_finish he
    have hclients := sameClients_finish s'.sched.toCore s.world
    rw [← hw] at hclients
    refine ⟨c,?_,?_⟩
    · rw [hclients.nextThread]
      exact List.mem_range.mp hc
    · rw [hclients.clients]
      exact hpc

/-- A step of another thread keeps every client on its way to its idle check. -/
theorem outside_ahead (ha : a.outside = true) (hp : ∀ c, a ≠ .print c)
    (hconn : a.connected = true) (hz : s.sched.activeTaskCount = 0)
    (he : serverStep s a = some s') {c : ThreadId} (hc : c < s.world.nextThread)
    (hahead : (s.world.clients c).pc.ahead = true) :
    c < s'.world.nextThread ∧ (s'.world.clients c).pc.ahead = true := by
  rcases serverStep_cases he with ⟨w,hr,rfl⟩ | ⟨y,w,sched,hr,hs,rfl⟩
  · exact respond_ahead ha hp hconn hz hr hc hahead
  · have hw := respond_ahead ha hp hconn hz hr hc hahead
    have hclients : SameClients w (callbacks y sched.toCore w) := by
      obtain ⟨hy,_⟩ := (respond_responded ha hr).action
      cases y with
      | free thread => exact sameClients_free thread _ w
      | enter => cases hy
      | finish => cases hy
      | _ => exact sameClients_round w w.round
    rw [hclients.nextThread,hclients.clients]
    exact hw

theorem step_ledger (h : Ledger s batches) (hc : Consistent s) (ht : Timed s')
    (hsound : ∀ b ∈ batches.head?, Sound s.world b)
    (hrounds : roundsRun s'.world.log ≤ maxTimelineSlices) (hconn : a.connected = true)
    (hok : keepsBatchesApart s.sched.toCore s.world a = true) (he : serverStep s a = some s') :
    Ledger s' (noteBatch batches s.sched.toCore s.world a) := by
  have hshape := serverStep_shape hc he
  have hclient := hshape.clientNumber hc
  cases hshape with
  | outside ha hw hs =>
    by_cases hprint : ∃ c, a = .print c
    · obtain ⟨c,rfl⟩ := hprint
      obtain ⟨k,hsched,hworld⟩ := serverStep_print he
      refine h.printed ?_ hsched hworld
      simpa [keepsBatchesApart] using hok
    have hp : ∀ c, a ≠ .print c := fun c hf => hprint ⟨c,hf⟩
    have hx : ∀ i, a ≠ .exec i := by
      rintro i rfl
      cases ha
    have hsame := serverStep_sameClock hx hp he
    have hshows : ∀ b, Shows s b → Shows s' b :=
      fun b hb => hb.congr hsame.clock hw.round hclient
    have hahead := fun hz c hlt => outside_ahead (c := c) ha hp hconn hz he hlt
    rcases outside_activeTaskCount ha hconn he with ⟨c,request,rfl,hsub,hcount⟩ | ⟨hno,hcount⟩
    · have hnonneg : 0 ≤ s.sched.activeTaskCount := by
        rw [hc.sched.counted.active]
        split <;> omega
      by_cases hz : s.sched.activeTaskCount = 0
      · rw [noteBatch_submit hsub hz]
        refine h.submitted hz ?_ hsame (hw.round.trans (hc.round_of_idle hz)) hcount
        simpa [keepsBatchesApart,hsub,hz] using hok
      · rw [noteBatch_other hx fun _ _ _ _ => hz]
        exact h.quiet hsame hshows (by omega) hahead
    · rw [noteBatch_other hx]
      · exact h.quiet hsame hshows (by rw [hcount]) hahead
      · intro c request hreq hsub
        rw [hno c request hreq] at hsub
        cases hsub
  | @exec i r _ hr _ _ _ =>
    obtain ⟨r₀,m,hr₀,hm,hw,hs⟩ := serverStep_executor he
    refine h.moved hc hr₀ hm hw (moved_activeTaskCount (serverTaskExecutor_moved hm) hs)
      (hclient r₀ hr₀) ?_ ?_
    · intro exit ops hpc
      obtain ⟨_,hcounts⟩ := ht.round m.round (by rw [hw]; rfl)
      rw [hpc] at hcounts
      exact hcounts
    · intro b hb hin
      have hcount := (hsound b hb).count
      have hlog : s'.world.log = m.events ++ s.world.log := by rw [hw]; rfl
      rw [hlog,roundsRun_append] at hrounds
      simp only [pending,hr₀,hin,if_true] at hcount
      omega
  | idle hr hs _ hw =>
    have hcount : s'.sched.activeTaskCount = s.sched.activeTaskCount := by
      rcases step_activeTaskCount hs (by simp) (by simp) with hcount | ⟨hx,_⟩
      · exact hcount
      · cases hx
    apply h.quiet
    · rw [hw]
      exact .refl _
    · intro b hb
      exact hb.congr (by rw [hw]) (by rw [hw]) hclient
    · rw [hcount]
    · intro _ c hlt hahead
      rw [hw]
      exact ⟨hlt,hahead⟩
  | dispatch hr hs _ _ _ hw =>
    have hcount : s'.sched.activeTaskCount = s.sched.activeTaskCount := by
      rcases step_activeTaskCount hs (by simp) (by simp) with hcount | ⟨hx,_⟩
      · exact hcount
      · cases hx
    have hsame := serverStep_sameClock (by simp) (by simp) he
    apply h.quiet hsame
    · intro b hb
      rw [shows_none hr] at hb
      have hround : ∃ t quantum, s'.world.round = some (newRound t t quantum) :=
        ⟨_,_,by rw [hw]; rfl⟩
      obtain ⟨t,quantum,hround⟩ := hround
      rw [shows_some hround,Round.shows_of_not_exiting (by simp [newRound])]
      exact hsame.clock.trans hb
    · rw [hcount]
    · intro _ c hlt hahead
      rw [hw]
      exact ⟨hlt,hahead⟩
  | finish hr hp hs _ hr' _ => exact h.finished hc hsound hok he hr hp hr' hs

/-- What a run keeps in which clients stay connected and batches apart. -/
structure Keeping (s : State TaskLists) (batches : List Batch) : Prop where
  consistent : Consistent s
  timed : Timed s
  sound : ∀ b ∈ batches.head?, Sound s.world b
  ledger : roundsRun s.world.log ≤ maxTimelineSlices → Ledger s batches

theorem keeping_init : Keeping (serverInit TaskLists) [] :=
  ⟨consistent_init,timed_init,fun b hb => (by cases hb),fun _ => ledger_init⟩

theorem Keeping.step (h : Keeping s batches) (hconn : a.connected = true)
    (hok : keepsBatchesApart s.sched.toCore s.world a = true) (he : serverStep s a = some s') :
    Keeping s' (noteBatch batches s.sched.toCore s.world a) := by
  have ht := step_timed h.timed h.consistent hconn hok he
  refine ⟨step_consistent h.consistent he,ht,step_sound h.sound h.consistent he,?_⟩
  intro hrounds
  refine step_ledger (h.ledger ?_) h.consistent ht h.sound hrounds hconn hok he
  obtain ⟨new,hlog,_⟩ := (serverStep_shape h.consistent he).newEvents
  rw [hlog,roundsRun_append] at hrounds
  exact (Nat.le_add_left _ _).trans hrounds

theorem Keeping.oneSummary (h : Keeping s batches) : OneSummaryEach s batches := by
  intro hrounds hz hchecked
  rcases (h.ledger hrounds).idle hz with hp | hu
  · exact ⟨hp.summaries,by rw [hp.clock]; rfl⟩
  · obtain ⟨c,_,hahead⟩ := hu.ahead
    rw [hchecked c] at hahead
    cases hahead

end Ledgers

/-- In every run in which clients stay connected and batches are kept apart, each batch with
a preemption has its one summary. -/
theorem batches_printedOnce {s : State TaskLinks} {batches : List Batch}
    (h : Reaches (annotated
      (fun core w a => a.connected = true ∧ keepsBatchesApart core w a = true) noteBatch)
      (serverInit TaskLinks,[]) (s,batches)) : OneSummaryEach s batches := by
  obtain ⟨l,hl,hr⟩ := annotated_refines serverRefines_init h
  have hkept : Keeping l batches := by
    refine hl.invariant (P := fun u => Keeping u.1 u.2) ?_ keeping_init
    rintro ⟨u,_⟩ a ⟨u',_⟩ hu ⟨⟨hconn,hok⟩,he⟩
    obtain ⟨hs,hn⟩ := withLabels_eq_some he
    obtain rfl := hn
    exact hu.step hconn hok hs
  intro hrounds hz hchecked
  rw [hr.world] at hrounds hchecked ⊢
  exact hkept.oneSummary hrounds ((congrArg Core.activeTaskCount hr.sched.core).symm.trans hz)
    hchecked

section Runs

/-- A tick after which the child is alive and nothing asks for a preemption. -/
def tickOnce : List ServerAction :=
  [.exec .go,.exec .go,.exec .readAgain,.exec .go,.exec .go,.exec .go]

def submitDemo (iterations : ℤ) : List ServerAction :=
  [.request 0 (.program "./demo".toList ["./demo".toList] iterations),.enter,.exec .go,
   .exec (.started true)]

/-- The last tick of a program, its exit and the end of its round. -/
def lastTick (pid : Pid) : List ServerAction :=
  tickOnce ++ [.exec .go,.exec .go,.childExit pid,.exec .go,.exec .readEof,.exec .go,.exec .go,
    .exec .go,.exec .go,.finish]

/-- The client gets its answer after the task is finalised. -/
def answerClient : List ServerAction :=
  [.poll 0,.fetch 0,.send 0 true,.send 0 true,.checkIdle 0,.print 0,.release 0]

/-- A program of four ticks is stopped after three of them, and goes on in a second round. -/
def longDemo (pid : Pid) : List ServerAction :=
  submitDemo 4 ++ tickOnce ++ tickOnce ++ tickOnce ++
    [.exec .go,.exec .go,.exec .readAgain,.exec .go,.exec .go,.exec .go,.finish,.enter,.exec .go,
     .exec (.resumed true)] ++ lastTick pid ++ answerClient

/-- Where one thread was started, the other clients are nowhere near an idle check. -/
theorem checked_of_one {s : State TaskLinks} (h : ServerReachable s) (hn : s.world.nextThread = 1)
    (hc : (s.world.clients 0).pc.ahead = false) (c : ThreadId) :
    (s.world.clients c).pc.ahead = false := by
  by_cases hgone : (s.world.clients c).pc = .gone
  · rw [hgone]
    rfl
  · have hlt := (h.live c hgone).1
    rw [hn] at hlt
    obtain rfl := Nat.lt_one_iff.mp hlt
    exact hc

/-- The only batch is printed by the client that has waited for it. -/
theorem batches_printedOnce_longDemo :
    ∃ s : State TaskLinks × List Batch, exec
        (guarded
          (fun s a => a.connected = true ∧
            keepsBatchesApart s.1.sched.toCore s.1.world a = true)
          (withLabels serverStep fun batches s => noteBatch batches s.sched.toCore s.world))
        (serverInit TaskLinks,[]) (.accept 4 :: longDemo 1) = some s ∧
      s.2.map Batch.rounds = [[(1,3),(1,4)]] ∧ OneSummaryEach s.1 s.2 ∧
      summaries s.1.world.log = [[(1,3),(1,4)]] ∧ s.1.world.clock.timeline = [] := by
  obtain ⟨s,he⟩ := Option.isSome_iff_exists.mp
    (show (exec
      (guarded
        (fun s a => a.connected = true ∧
          keepsBatchesApart s.1.sched.toCore s.1.world a = true)
        (withLabels serverStep fun batches s => noteBatch batches s.sched.toCore s.world))
      (serverInit TaskLinks,[]) (.accept 4 :: longDemo 1)).isSome = true from rfl)
  have hone : OneSummaryEach s.1 s.2 := batches_printedOnce (reaches_of_guarded he)
  refine ⟨s,he,?_,hone,?_⟩
  · cases he
    rfl
  · cases he
    exact ⟨rfl,rfl⟩

set_option maxRecDepth 2000 in
/-- A program of one tick is not preempted, so its round stays on the clock, and the summary
of the next batch begins with it. -/
theorem staleRound_printed :
    ¬ ∀ (s : State TaskLinks) (batches : List Batch),
      Reaches (annotated (fun _ _ a => a.connected = true) noteBatch)
        (serverInit TaskLinks,[]) (s,batches) → OneSummaryEach s batches := by
  intro hall
  obtain ⟨s,he⟩ := Option.isSome_iff_exists.mp
    (show (exec
      (guarded (fun _ a => a.connected = true)
        (withLabels serverStep fun batches s => noteBatch batches s.sched.toCore s.world))
      (serverInit TaskLinks,[])
      (.accept 4 :: (submitDemo 1 ++ lastTick 1 ++ answerClient ++ longDemo 2))).isSome = true
      from rfl)
  have hrun : Reaches (annotated (fun _ _ a => a.connected = true) noteBatch)
      (serverInit TaskLinks,[]) s := reaches_of_guarded he
  have hnext : s.1.world.nextThread = 1 := by
    cases he
    rfl
  have hahead : (s.1.world.clients 0).pc.ahead = false := by
    cases he
    rfl
  have hchecked := checked_of_one (annotated_state hrun) hnext hahead
  have hdue := (hall s.1 s.2 hrun (by cases he; decide) (by cases he; rfl) hchecked).1
  revert hdue
  cases he
  decide

end Runs

end UnixShell.Server
