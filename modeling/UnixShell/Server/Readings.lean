import UnixShell.Server.Output
import UnixShell.Server.Connections

/-! # What the drains have read

Beside a run stands what every `read` of `task_context_drain_pipe` has returned for each task.
A task that streams has read what its packets carry and the rest of the packet in between,
whatever becomes of its rounds, as long as no `send_all` of a packet fails.
-/
namespace UnixShell.Server
open Foundation Scheduler

/-- What a move of the executor reads from the pipe of the child. -/
def readBy (v : View) (r : Round) : Input → Text
  | .readSome size _ =>
    match r.pc,v.context.pipeFd with
    | .draining _,some pid => (v.procs pid).pipe.take size
    | _,_ => []
  | _ => []

/-- The reads of each task, one after the other. -/
def noteRead (taken : ContextRef → Text) (core : Core) (w : World) :
    ServerAction → ContextRef → Text
  | .exec i =>
    match w.round with
    | some r => Function.update taken r.context (taken r.context ++ readBy (view core w r) r i)
    | none => taken
  | _ => taken

theorem payloads_packet (status : Status) (payload : Text) :
    payloads (packetPieces status payload) = payload := by
  by_cases hp : payload = []
  · subst hp
    rfl
  · simp [payloads,packetPieces,hp]

section Moves
variable {v : View} {r : Round} {i : Input} {m : Move}

theorem readBy_elsewhere (hd : ∀ site, r.pc ≠ .draining site) : readBy v r i = [] := by
  cases i with
  | readSome size ok =>
    simp only [readBy]
    split
    · rename_i site pid hp _
      exact (hd site hp).elim
    · rfl
  | _ => rfl

theorem transitOf_drained (ok : Bool) (site : Site) : transitOf (drained ok site) = [] := by
  cases site <;> cases ok <;> rfl

/-- What a drain reads is the packet that it begins. -/
theorem taskContextDrainPipe_read {site : Site} (h : taskContextDrainPipe v r site i = some m)
    (hp : r.pc = .draining site) (hs : streams v.context = true) :
    m.events = [] ∧ payloads (transitOf m.round.pc) = readBy v r i := by
  unfold taskContextDrainPipe at h
  split at h
  case h_1 =>
    cases h
    exact ⟨rfl,by simp only [goto,transitOf_drained]; rfl⟩
  case h_2 pid size allocOk hc =>
    dsimp only at h
    rw [if_pos hs] at h
    split at h <;> cases h
    refine ⟨rfl,?_⟩
    simp only [transitOf,payloads_packet,readBy,hp,hc]
  case h_3 =>
    split at h <;> cases h
    exact ⟨rfl,by simp only [goto,transitOf_drained]; rfl⟩
  case h_4 =>
    cases h
    exact ⟨rfl,by simp only [goto,transitOf_drained]; rfl⟩
  case h_5 =>
    cases h
    exact ⟨rfl,by simp only [goto,transitOf_drained]; rfl⟩
  case h_6 => cases h

/-- Whatever a move reads goes into packets, and whatever it sends was read before. -/
theorem serverTaskExecutor_read (h : serverTaskExecutor v r i = some m)
    (hs : streams v.context = true) (hn : .sendFailed r.context ∉ m.events) :
    payloads (pieces (progressOf r.context) m.events ++ transitOf m.round.pc) =
      payloads (transitOf r.pc) ++ readBy v r i := by
  by_cases hd : ∃ site, r.pc = .draining site
  · obtain ⟨site,hp⟩ := hd
    have hm : taskContextDrainPipe v r site i = some m := by
      simpa only [serverTaskExecutor,hp] using h
    obtain ⟨hev,hread⟩ := taskContextDrainPipe_read hm hp hs
    rw [hev,hp]
    exact hread
  · have hd := not_exists.mp hd
    rcases shift_transit (serverTaskExecutor_moved h).shift hn with ⟨site,_,hp,_⟩ | heq
    · exact (hd site hp).elim
    · rw [heq,readBy_elsewhere hd,List.append_nil]

end Moves

section Server
variable {s s' : State TaskLists} {a : ServerAction} {k : ContextRef}
  {taken : ContextRef → Text}

/-- The reads, as they are spread over the packets sent and the packet in between. -/
structure Taken (s : State TaskLists) (taken : ContextRef → Text) : Prop where
  balance : ∀ k, streams (s.world.contexts k) = true → .sendFailed k ∉ s.world.log →
    taken k = streamed k s.world.log ++ payloads (inTransit s.world k)
  fresh : ∀ k, s.sched.allocated ≤ k → taken k = []

theorem taken_init : Taken (serverInit TaskLists) fun _ => [] := ⟨fun _ _ _ => rfl,fun _ _ => rfl⟩

theorem noteRead_other {core : Core} {w : World}
    (hk : ∀ i r, a = .exec i → w.round = some r → r.context ≠ k) :
    noteRead taken core w a k = taken k := by
  cases a with
  | exec i =>
    cases hr : w.round with
    | none => simp only [noteRead,hr]
    | some r =>
      simp only [noteRead,hr]
      exact Function.update_of_ne (hk i r rfl hr).symm _ _
  | _ => rfl

/-- Whether a task streams is settled when it is submitted. -/
theorem step_streams (hshape : RoundStep s s' a) (hk : k < s.sched.allocated) :
    streams (s'.world.contexts k) = streams (s.world.contexts k) := by
  have hburst : (s'.world.contexts k).initialBurst = (s.world.contexts k).initialBurst := by
    cases hshape with
    | outside _ hw _ => exact (hw.contexts k hk.ne).initialBurst
    | @exec i r m hr hm hw hs =>
      rw [hw,hm.contexts]
      by_cases hkr : k = r.context
      · subst hkr
        rw [Function.update_self,hm.initialBurst]
        rfl
      · rw [Function.update_of_ne hkr]
    | idle _ _ _ hw => rw [hw]
    | dispatch _ _ _ _ _ hw => rw [hw]; rfl
    | finish _ _ _ _ _ hw => exact (hw.contexts k hk.ne).initialBurst
  rw [streams,streams,hburst,step_socketFd hshape hk]

/-- The round is never that of a task that is still to come. -/
theorem inTransit_fresh (hc : Consistent s) (hk : s.sched.allocated ≤ k) :
    inTransit s.world k = [] := by
  cases hr : s.world.round with
  | none => exact inTransit_none hr k
  | some r =>
    rw [inTransit_some hr,(hc.running r hr).2,if_neg ((hc.task_lt hr).trans_le hk).ne]

theorem step_taken (h : Taken s taken) (hc : Consistent s) (hun : Unstreamed s)
    (he : serverStep s a = some s') : Taken s' (noteRead taken s.sched.toCore s.world a) := by
  have hshape := serverStep_shape hc he
  have hfresh : ∀ k, s.sched.allocated ≤ k → ∀ i r, a = .exec i → s.world.round = some r →
      r.context ≠ k := by
    intro k hk _ r _ hr
    rw [(hc.running r hr).2]
    exact ((hc.task_lt hr).trans_le hk).ne
  refine ⟨fun k hs hf => ?_,fun k hk => ?_⟩
  · obtain ⟨new,hlog,_⟩ := hshape.newEvents
    have hf₀ : .sendFailed k ∉ s.world.log := fun hm =>
      hf (by rw [hlog]; exact List.mem_append_right _ hm)
    by_cases hk : ∀ i r, a = .exec i → s.world.round = some r → r.context ≠ k
    · obtain ⟨hpieces,htransit⟩ := step_transit hshape hk
      rw [noteRead_other hk,streamed,hpieces,htransit]
      by_cases hlt : k < s.sched.allocated
      · exact h.balance k (step_streams hshape hlt ▸ hs) hf₀
      · have hle := Nat.not_lt.mp hlt
        rw [h.fresh k hle,inTransit_fresh hc hle,show payloads (pieces (progressOf k) s.world.log) =
          [] from hun k hle]
        rfl
    push Not at hk
    obtain ⟨i,r,rfl,hr,rfl⟩ := hk
    obtain ⟨r₁,m,hr₁,hm,hw,_⟩ := serverStep_executor he
    obtain rfl := Option.some.inj (hr.symm.trans hr₁)
    have hmoved := serverTaskExecutor_moved hm
    have hevents : s'.world.log = m.events ++ s.world.log := by rw [hw]; rfl
    have hr' : s'.world.round = some m.round := by rw [hw]; rfl
    have hlt : r.context < s.sched.allocated := (hc.running r hr).2 ▸ hc.task_lt hr
    have hs₀ : streams (s.world.contexts r.context) = true := step_streams hshape hlt ▸ hs
    have hread := serverTaskExecutor_read hm hs₀ fun hm' =>
      hf (by rw [hevents]; exact List.mem_append_left _ hm')
    have hold := h.balance r.context hs₀ hf₀
    rw [inTransit_some hr,if_pos rfl] at hold
    rw [inTransit_some hr',hmoved.context,if_pos rfl,hevents,streamed_append,List.append_assoc,
      show streamed r.context m.events = payloads (pieces (progressOf r.context) m.events) from rfl,
      ← payloads_append,hread,← List.append_assoc,← hold]
    simp only [noteRead,hr,Function.update_self]
  · have hle := hshape.allocated.trans hk
    rw [noteRead_other (hfresh k hle)]
    exact h.fresh k hle

/-- At every point of a run, whatever its steps are asked to meet. -/
theorem annotated_taken {ok : Core → World → ServerAction → Prop}
    (h : Reaches (annotated ok noteRead) (serverInit TaskLists,fun _ => []) (s,taken)) :
    Taken s taken := by
  have hrun := h.invariant (P := fun s => Consistent s.1 ∧ Unstreamed s.1 ∧ Taken s.1 s.2)
    (fun s a s' ⟨hc,hun,ht⟩ ⟨_,he⟩ => by
      obtain ⟨hstep,hnote⟩ := withLabels_eq_some he
      rw [hnote]
      exact ⟨step_consistent hc hstep,step_unstreamed hun hc hstep,step_taken ht hc hun hstep⟩)
    ⟨consistent_init,fun _ _ => rfl,taken_init⟩
  exact hrun.2.2

end Server

end UnixShell.Server
