import UnixShell.Foundation.ReferenceCount
import UnixShell.Server.Connections
import UnixShell.Server.Footprint

/-! # Who holds a context

A task's context is held by the thread that submitted it, until that thread releases it,
and by the scheduler, as long as the record is queued, current or still to be freed. The
count in it is the number of these holders, and the last of them destroys it.
-/
namespace UnixShell.Server
open Foundation Scheduler

inductive Side
  | client (c : ThreadId)
  | scheduler
  deriving DecidableEq, Repr

/-- The steps by which a side lets go of a context. -/
def Side.ReleasesBy : Side → ServerAction → Prop
  | .client c,a => a = .release c
  | .scheduler,a => a = .finish ∨ ∃ c, a = .cleanupNext c

/-- The threads at a point of control with the context, and the scheduler if it keeps it. -/
def sides (w : World) (k : ContextRef) (kept : Prop) : Set Side :=
  {side | match side with
    | .client c => (w.clients c).pc.context = some k
    | .scheduler => kept}

/-- A record that carries the context is queued, current or on a list of records to free. -/
def schedulerHolds (s : System TaskLinks) (k : ContextRef) : Prop :=
  ∃ t place, (s.tasks t).userData = some k ∧ InPlace s t place ∧ place ≠ .finalised

def holders (s : State TaskLinks) (k : ContextRef) : Set Side :=
  sides s.world k (schedulerHolds s.sched k)

/-- The contexts destroyed by a step: their count falls to zero. -/
def destroyedBy (core : Core) (w w' : World) : List ContextRef :=
  (List.range core.allocated).filter
    (fun k => (w.contexts k).refcount ≠ 0 && (w'.contexts k).refcount = 0)

/-- What a history records of a step. -/
def noted {η Q : Type} (note : η → Core → World → World → η) (notes : η) (s s' : State Q) : η :=
  note notes s.sched.toCore s.world s'.world

def noteDestroyed (destroyed : List ContextRef) (core : Core) (w w' : World) : List ContextRef :=
  destroyedBy core w w' ++ destroyed

/-- The runs of the server with a history. -/
def ServerHistory {η Q : Type} [TaskQueue Q] (note : η → Core → World → World → η) (start : η)
    (s : State Q) (notes : η) : Prop :=
  Reaches (Fires (withHistory serverStep (noted note))) (serverInit Q,start) (s,notes)

section History
variable {η : Type} {note : η → Core → World → World → η} {start notes : η}

theorem ServerHistory.reachable {Q : Type} [TaskQueue Q] {s : State Q}
    (h : ServerHistory note start s notes) : ServerReachable s := Reaches.state h

theorem serverHistory_refines {c : State TaskLinks} (h : ServerHistory note start c notes) :
    ∃ l : State TaskLists, ServerHistory note start l notes ∧ ServerRefines c l := by
  obtain ⟨as,hrun⟩ := h
  have hS : ∀ (s : State TaskLinks × η) (x : ServerAction) (s' : State TaskLinks × η)
      (l : State TaskLists × η), (ServerRefines s.1 l.1 ∧ s.2 = l.2) →
      Fires (withHistory serverStep (noted note)) s x s' →
        ∃ l', Fires (withHistory serverStep (noted note)) l x l' ∧
          ServerRefines s'.1 l'.1 ∧ s'.2 = l'.2 := by
    rintro ⟨s,notes⟩ x ⟨s',notes'⟩ ⟨l,_⟩ ⟨hr,rfl⟩ he
    replace hr : ServerRefines s l := hr
    obtain ⟨hs,hn⟩ := fires_withHistory he
    obtain ⟨l',hl,hr'⟩ := serverStep_refines hr hs
    refine ⟨(l',noted note notes l l'),?_,hr',hn.trans ?_⟩
    · simp only [Fires,withHistory,hl,Option.map_some]
    · show note notes s.sched.toCore s.world s'.world = note notes l.sched.toCore l.world l'.world
      rw [hr.sched.core,hr.world,show s'.world = l'.world from hr'.world]
  obtain ⟨⟨l,_⟩,hl,hr,rfl⟩ :=
    hrun.simulate (t := (serverInit TaskLists,start)) hS ⟨serverRefines_init,rfl⟩
  exact ⟨l,⟨as,hl⟩,hr⟩

end History

section Lists
variable {s s' : State TaskLists} {a : ServerAction} {k : ContextRef} {destroyed : List ContextRef}

/-- On lists the scheduler keeps what it has accepted until it cleans it up. -/
def holding (s : State TaskLists) (k : ContextRef) : Set Side :=
  sides s.world k (k < s.sched.allocated ∧ Event.cleanup k ∉ s.sched.events)

theorem sides_congr {w w' : World} {kept kept' : Prop}
    (hc : ∀ c, (w'.clients c).pc.context = some k ↔ (w.clients c).pc.context = some k)
    (hk : kept' ↔ kept) : sides w' k kept' = sides w k kept := by
  ext side
  cases side with
  | client c => exact hc c
  | scheduler => exact hk

theorem sides_client {w w' : World} {kept kept' : Prop} {c : ThreadId}
    (hw : Holds w w' c none) (hk : kept' ↔ kept) :
    sides w' k kept' = sides w k kept \ {.client c} := by
  ext side
  cases side with
  | client d =>
    show (w'.clients d).pc.context = some k ↔ (w.clients d).pc.context = some k ∧ _
    rw [hw d]
    by_cases hd : d = c
    · simp [hd]
    · simp [hd]
  | scheduler =>
    show kept' ↔ kept ∧ _
    simp [hk]

theorem sides_scheduler {w w' : World} {kept kept' : Prop} (hw : w'.clients = w.clients)
    (hk : ¬kept') : sides w' k kept' = sides w k kept \ {.scheduler} := by
  ext side
  cases side with
  | client d =>
    show (w'.clients d).pc.context = some k ↔ (w.clients d).pc.context = some k ∧ _
    simp [hw]
  | scheduler =>
    show kept' ↔ kept ∧ _
    simp [hk]

theorem release_refcount (w : World) (k : ContextRef) :
    ((releaseContext w k).contexts k).refcount = (w.contexts k).refcount - 1 := by
  simp only [releaseContext,setContext,Function.update_self,taskContextRelease]
  split <;> rfl

theorem release_contexts {w : World} {j : ContextRef} (h : k ≠ j) :
    (releaseContext w j).contexts k = w.contexts k := Function.update_of_ne h _ _

/-- A step leaves the holders and the count alone, or one holder lets go. -/
theorem HoldStep.release (h : HoldStep s s' a) (hk : k < s.sched.allocated) :
    ((s'.world.contexts k).refcount = (s.world.contexts k).refcount ∧
      holding s' k = holding s k) ∨
    ∃ side ∈ holding s k, side.ReleasesBy a ∧
      (s'.world.contexts k).refcount = (s.world.contexts k).refcount - 1 ∧
      holding s' k = holding s k \ {side} := by
  cases h with
  | @handled r m hr hm hctx hw hn hz =>
    refine Or.inl ⟨?_,sides_congr (fun c => by rw [hw]; rfl) (by rw [hn,hz])⟩
    rw [hw,applyMove_contexts hctx]
    by_cases hkr : k = r.context
    · subst hkr
      rw [Function.update_self]
      exact hm.refcount
    · rw [Function.update_of_ne hkr]
  | shared hh _ hz =>
    cases hh with
    | kept hn hc _ hcl _ _ =>
      exact Or.inl ⟨by rw [hc],sides_congr (fun c => by rw [hcl]) (by rw [hn,hz])⟩
    | @taken c context hn hfree _ _ _ hc _ hh _ _ =>
      refine Or.inl ⟨by rw [hc,Function.update_of_ne hk.ne],sides_congr (fun d => ?_) ?_⟩
      · rw [hh d]
        by_cases hd : d = c
        · rw [if_pos hd,hd,hfree]
          simp [hk.ne']
        · rw [if_neg hd]
      · rw [hn,hz]
        simp [hk,hk.trans (Nat.lt_succ_self _)]
    | @released c j hn ha hc hctx _ hh _ _ =>
      by_cases hkj : k = j
      · subst hkj
        exact Or.inr ⟨.client c,hc,ha,by rw [hctx,release_refcount],
          sides_client hh (by rw [hn,hz])⟩
      · refine Or.inl ⟨by rw [hctx,release_contexts hkj],sides_congr (fun d => ?_) (by rw [hn,hz])⟩
        rw [hh d]
        by_cases hd : d = c
        · rw [if_pos hd,hd,hc]
          simp [Ne.symm hkj]
        · rw [if_neg hd]
  | @cleaned j w ha hj hfresh hz hw hw' _ hn =>
    have hcl : s'.world.clients = s.world.clients := by rw [hw',hw]; rfl
    have hctx : ∀ k, (w.contexts k) = (s.world.contexts k) := fun k => by rw [hw]
    by_cases hkj : k = j
    · subst hkj
      refine Or.inr ⟨.scheduler,⟨hj,hfresh⟩,ha,by rw [hw',release_refcount,hctx],?_⟩
      exact sides_scheduler hcl (fun hh => hh.2 ((hz k).mpr (Or.inl rfl)))
    · refine Or.inl ⟨by rw [hw',release_contexts hkj,hctx],sides_congr (fun d => by rw [hcl]) ?_⟩
      rw [hn,hz]
      simp [hkj]

theorem count_destroyedBy (core : Core) (w w' : World) (k : ContextRef) :
    (destroyedBy core w w').count k = if k < core.allocated ∧ (w.contexts k).refcount ≠ 0 ∧
      (w'.contexts k).refcount = 0 then 1 else 0 := by
  have hnodup : (destroyedBy core w w').Nodup := List.nodup_range.filter _
  rw [hnodup.count]
  simp [destroyedBy]

/-- The counts, the holders and the history agree, and a thread holds its own contexts only. -/
structure Referenced (s : State TaskLists) (destroyed : List ContextRef) : Prop where
  live : ∀ c, (s.world.clients c).pc ≠ .gone →
    c < s.world.nextThread ∧ s.world.sockets (s.world.clients c).socketFd = some c
  mine : ∀ c k, (s.world.clients c).pc.context = some k →
    k < s.sched.allocated ∧ s.world.owner k = c
  counted : ∀ k < s.sched.allocated,
    Counted (s.world.contexts k).refcount (holding s k) (destroyed.count k)
  old : ∀ k ∈ destroyed, k < s.sched.allocated

theorem referenced_init : Referenced (serverInit TaskLists) [] :=
  ⟨fun c hc => (hc rfl).elim,fun _ _ h => (by cases h),fun k hk => absurd hk (Nat.not_lt_zero k),
    fun _ h => (by cases h)⟩

namespace Referenced

theorem holdStep (h : Referenced s destroyed) (hc : Consistent s) (he : serverStep s a = some s') :
    HoldStep s s' a := serverStep_holding hc (fun c hg => (h.live c hg).1) he

theorem counted_old (h : Referenced s destroyed) (hs : HoldStep s s' a)
    (hk : k < s.sched.allocated) : Counted (s'.world.contexts k).refcount (holding s' k)
      ((noteDestroyed destroyed s.sched.toCore s.world s'.world).count k) := by
  have hcount := h.counted k hk
  rw [noteDestroyed,List.count_append,count_destroyedBy,Nat.add_comm]
  rcases hs.release hk with ⟨hr,hh⟩ | ⟨side,hside,_,hr,hh⟩
  · rw [hr,hh,if_neg (fun hz => hz.2.1 hz.2.2)]
    exact hcount
  · have hpos := (hcount.count_pos hside).ne'
    have hrel := hcount.release hside
    rw [hr,hh]
    simpa only [hk,hpos,true_and,ne_eq,not_false_eq_true] using hrel

/-- A context that a step creates is held by its thread and the scheduler. -/
theorem counted_new (h : Referenced s destroyed) (hc : Consistent s) (hs : HoldStep s s' a)
    (hk : s.sched.allocated ≤ k) (hk' : k < s'.sched.allocated) :
    Counted (s'.world.contexts k).refcount (holding s' k)
      ((noteDestroyed destroyed s.sched.toCore s.world s'.world).count k) := by
  have hzero : (noteDestroyed destroyed s.sched.toCore s.world s'.world).count k = 0 := by
    rw [noteDestroyed,List.count_append,count_destroyedBy,if_neg (fun hz => hk.not_gt hz.1),
      List.count_eq_zero.mpr (fun hm => hk.not_gt (h.old k hm))]
  rw [hzero]
  have hmore : s'.sched.allocated ≠ s.sched.allocated := fun hn => hk.not_gt (hn ▸ hk')
  cases hs with
  | handled _ _ _ _ hn _ => exact (hmore hn).elim
  | cleaned _ _ _ _ _ _ _ hn => exact (hmore hn).elim
  | shared hh _ hz =>
    cases hh with
    | kept hn => exact (hmore hn).elim
    | released hn => exact (hmore hn).elim
    | @taken c context hn _ hcount _ _ hctx _ hh _ _ =>
      obtain rfl : k = s.sched.allocated :=
        Nat.le_antisymm (Nat.le_of_lt_succ (hk'.trans_eq hn)) hk
      have hset : holding s' s.sched.allocated = {.client c,.scheduler} := by
        ext side
        cases side with
        | client d =>
          show (s'.world.clients d).pc.context = some s.sched.allocated ↔ _
          rw [hh d]
          by_cases hd : d = c
          · simp [hd]
          · have hno : (s.world.clients d).pc.context ≠ some s.sched.allocated :=
              fun hm => (h.mine d _ hm).1.false
            simp [hd,hno]
        | scheduler =>
          show _ ∧ _ ↔ _
          obtain ⟨place,hp⟩ := hc.sched.placed
          have hno : Event.cleanup s.sched.allocated ∉ s'.sched.events :=
            fun hm => (hp.finalised_lt ((hz _).mp hm)).false
          simp [hk',hno]
      rw [hset,hctx,Function.update_self,hcount]
      exact Counted.shared (by simp)

theorem step_mine (h : Referenced s destroyed) (hs : HoldStep s s' a) (c : ThreadId)
    (hk : (s'.world.clients c).pc.context = some k) :
    k < s'.sched.allocated ∧ s'.world.owner k = c := by
  cases hs with
  | handled _ _ _ hw hn _ =>
    rw [hw] at hk ⊢
    rw [hn]
    exact h.mine c k hk
  | cleaned _ _ _ _ hw hw' _ hn =>
    rw [hw',hw] at hk ⊢
    rw [hn]
    exact h.mine c k hk
  | shared hh _ _ =>
    cases hh with
    | kept hn _ ho hcl _ _ =>
      rw [hcl] at hk
      rw [hn,ho]
      exact h.mine c k hk
    | @taken d context hn _ _ _ _ _ ho hh _ _ =>
      rw [hh c] at hk
      rw [hn,ho]
      split at hk
      · rename_i hcd
        cases hk
        rw [Function.update_self]
        exact ⟨Nat.lt_succ_self _,hcd.symm⟩
      · obtain ⟨hlt,howner⟩ := h.mine c k hk
        rw [Function.update_of_ne hlt.ne]
        exact ⟨hlt.trans (Nat.lt_succ_self _),howner⟩
    | @released d j hn _ _ _ ho hh _ _ =>
      rw [hh c] at hk
      rw [hn,ho]
      split at hk
      · cases hk
      · exact h.mine c k hk

theorem step (h : Referenced s destroyed) (hc : Consistent s) (he : serverStep s a = some s') :
    Referenced s' (noteDestroyed destroyed s.sched.toCore s.world s'.world) := by
  have hs := h.holdStep hc he
  have hle := (serverStep_shape hc he).allocated
  refine ⟨step_live h.live (serverStep_client he),fun c k => h.step_mine hs c,fun k hk => ?_,
    fun k hk => ?_⟩
  · by_cases hlt : k < s.sched.allocated
    · exact h.counted_old hs hlt
    · exact h.counted_new hc hs (Nat.le_of_not_lt hlt) hk
  · rcases List.mem_append.mp hk with hk | hk
    · have hlt : k < s.sched.allocated := by
        simp only [destroyedBy,List.mem_filter,List.mem_range] at hk
        exact hk.1
      exact hlt.trans_le hle
    · exact (h.old k hk).trans_le hle

end Referenced

theorem serverHistory_referenced (h : ServerHistory noteDestroyed [] s destroyed) :
    Consistent s ∧ Referenced s destroyed := by
  refine h.invariant (P := fun s => Consistent s.1 ∧ Referenced s.1 s.2) ?_
    ⟨consistent_init,referenced_init⟩
  rintro ⟨s,destroyed⟩ a ⟨s',destroyed'⟩ ⟨hc,hr⟩ he
  obtain ⟨hs,hn⟩ := fires_withHistory he
  exact ⟨step_consistent hc hs,by rw [hn]; exact hr.step hc hs⟩

/-- The hooks are called for records that were not cleaned up before, or for the new one. -/
theorem step_hooked {s s' : System TaskLists} {y : Action} {e : Event} {t : TaskRef}
    (hi : Invariant s) (hs : Scheduler.step s y = some s')
    (he : e ∈ newEvents s.toCore s'.toCore) (ht : hooked e = some t) :
    t < s'.allocated ∧
      (t = s.allocated ∨ t < s.allocated ∧ Event.cleanup t ∉ s.events) := by
  have hle := allocated_le hs
  suffices hs' : t = s.allocated ∧ t < s'.allocated ∨
      t < s.allocated ∧ Event.cleanup t ∉ s.events by
    rcases hs' with ⟨ht,hlt⟩ | ⟨hlt,hz⟩
    · exact ⟨hlt,Or.inl ht⟩
    · exact ⟨hlt.trans_le hle,Or.inr ⟨hlt,hz⟩⟩
  obtain ⟨place,hp⟩ := hi.placed
  have hnew : ∀ new, s'.events = new ++ s.events → e ∈ new := fun new hev => by
    rwa [newEvents_eq hev] at he
  have hcur : ∀ u, s.main.task = some u → u < s.allocated ∧ Event.cleanup u ∉ s.events := by
    intro u hu
    rw [hi.counted.main_task] at hu
    exact ⟨hp.current_lt hu,fun hz => hp.finalised_not_current hz hu⟩
  cases step_stepped hs with
  | submit request =>
    obtain ⟨new,hev,hn⟩ := schedulerSubmitTask_events s (schedulerCreateTask request)
    rcases hn e (hnew new hev) with rfl | ⟨u,rfl⟩
    · obtain rfl : s.allocated = t := Option.some.inj ht
      exact Or.inl ⟨rfl,by simp⟩
    · cases ht
  | @cancel thread client hf =>
    obtain ⟨new,hev,hn⟩ := cancel_events s thread client
    obtain ⟨u,rfl⟩ := hn e (hnew new hev)
    cases ht
  | @free thread _ hfree =>
    obtain ⟨u,hu,_,hev,_⟩ := freeNext_eq hfree
    obtain rfl := List.mem_singleton.mp (hnew [_] hev)
    obtain rfl : u = t := Option.some.inj ht
    have hmem : u ∈ s.queue.toFree thread := List.mem_of_head? hu
    exact Or.inr ⟨hp.freeing_lt hmem,fun hz => hp.finalised_not_freeing hz thread hmem⟩
  | quiet hq => cases hnew [] hq.events
  | @dispatch u q hm hd =>
    obtain rfl := List.mem_singleton.mp (hnew [_] rfl)
    obtain rfl : u = t := Option.some.inj ht
    have hmem := nextTask_mem (dequeue_some hd).1
    exact Or.inr ⟨hp.waiting_lt hmem,fun hz => hp.finalised_not_waiting hz hmem⟩
  | setBurst => cases hnew [] rfl
  | requeue hm =>
    obtain rfl := List.mem_singleton.mp (hnew [_] rfl)
    cases ht
    exact Or.inr (hcur _ (by rw [hm]; rfl))
  | @finalize u _ _ _ event hm _ _ hev =>
    apply Or.inr
    have hu : u = t := by
      rcases List.mem_cons.mp (hnew [_,_] rfl) with rfl | he
      · exact Option.some.inj ht
      · obtain rfl := List.mem_singleton.mp he
        rcases hev with rfl | rfl | rfl
        · exact Option.some.inj ht
        · exact Option.some.inj ht
        · cases ht
    rw [← hu]
    exact hcur u (by rw [hm]; rfl)

/-- What a step uses is held by someone, or it is the context that the step creates. -/
theorem touched_held (hc : Consistent s) (he : serverStep s a = some s')
    (hk : k ∈ touched s.sched.toCore s.world a s'.sched.toCore) :
    k = s.sched.allocated ∨ ∃ side, side ∈ holding s k := by
  rcases List.mem_append.mp hk with hk | hk
  · rcases List.mem_append.mp hk with hk | hk
    · obtain ⟨c,_,hpc⟩ := Option.bind_eq_some_iff.mp (Option.mem_toList.mp hk)
      exact Or.inr ⟨.client c,hpc⟩
    · cases a with
      | request c request => exact Or.inl (List.mem_singleton.mp hk)
      | exec i =>
        obtain ⟨r,hr,rfl⟩ := Option.map_eq_some_iff.mp (Option.mem_toList.mp hk)
        obtain ⟨place,hp⟩ := hc.sched.placed
        have hcur := hc.current hr
        rw [(hc.running r hr).2]
        exact Or.inr ⟨.scheduler,hc.task_lt hr,fun hz => hp.finalised_not_current hz hcur⟩
      | _ => cases hk
  · obtain ⟨t,ht,hu⟩ := List.mem_filterMap.mp hk
    obtain ⟨e,he',hhook⟩ := List.mem_filterMap.mp ht
    rcases (serverStep_shape hc he).sched with hs | ⟨y,hs,_,_⟩
    · have hev : s'.sched.events = [] ++ s.sched.events := by rw [hs]; rfl
      rw [newEvents_eq hev] at he'
      cases he'
    · obtain ⟨hlt,ht⟩ := step_hooked hc.sched hs he' hhook
      obtain rfl : t = k := Option.some.inj ((step_consistent hc he).named t hlt ▸ hu)
      exact ht.imp_right (fun ht => ⟨.scheduler,ht⟩)

theorem serverReachable_referenced (h : ServerReachable s) :
    ∃ destroyed, Referenced s destroyed := by
  obtain ⟨as,hrun⟩ := h
  obtain ⟨destroyed,hrun⟩ := hrun.history (noted noteDestroyed) []
  exact ⟨destroyed,(serverHistory_referenced ⟨as,hrun⟩).2⟩

end Lists

section Links
variable {s : State TaskLinks} {l l' : State TaskLists} {a : ServerAction} {k : ContextRef}
  {destroyed : List ContextRef}

theorem holders_eq (hr : ServerRefines s l) (hc : Consistent l) (hk : k < l.sched.allocated) :
    holders s k = holding l k := by
  obtain ⟨place,hp⟩ := hc.sched.placed
  rw [holders,holding,hr.world]
  refine sides_congr (fun _ => Iff.rfl) ⟨?_,fun ⟨_,hz⟩ => ?_⟩
  · rintro ⟨t,p,hu,hin,hne⟩
    have hpt := (hr.sched.inPlace_iff hp t p).mp hin
    have ht : t < l.sched.allocated := by
      by_contra hge
      rw [(hp.fresh_iff t).mpr (Nat.le_of_not_lt hge)] at hpt
      cases hpt
    rw [hr.sched.core,hc.named t ht] at hu
    obtain rfl := Option.some.inj hu
    refine ⟨ht,fun hz => hne ?_⟩
    rw [(hp.finalised_iff t).mp hz] at hpt
    exact (Option.some.inj hpt).symm
  · obtain ⟨p,hpk⟩ := Option.ne_none_iff_exists'.mp
      (fun hn => absurd ((hp.fresh_iff k).mp hn) hk.not_ge)
    refine ⟨k,p,?_,(hr.sched.inPlace_iff hp k p).mpr hpk,?_⟩
    · rw [hr.sched.core]
      exact hc.named k hk
    · rintro rfl
      exact hz ((hp.finalised_iff k).mpr hpk)

/-- The context of a task, at any point of a run. -/
structure ReferenceCounted (s : State TaskLinks) (destroyed : List ContextRef) (k : ContextRef) :
    Prop where
  counted : Counted (s.world.contexts k).refcount (holders s k) (destroyed.count k)
  /-- Only the thread that submitted the task and the scheduler ever hold it. -/
  sides : holders s k ⊆ {.client (s.world.owner k),.scheduler}
  /-- A step that destroys it is the release by its only holder. -/
  last : ∀ a s', serverStep s a = some s' →
    k ∈ destroyedBy s.sched.toCore s.world s'.world →
      ∃ side, side.ReleasesBy a ∧ holders s k = {side} ∧ holders s' k = ∅
  /-- Once destroyed it is neither read nor written, whatever step is next. -/
  unused : k ∈ destroyed → ∀ a s', serverStep s a = some s' →
    k ∉ touched s.sched.toCore s.world a s'.sched.toCore ∧
      ∀ context, serverStep (overwrite s k context) a = some (overwrite s' k context)

theorem Referenced.last (h : Referenced l destroyed) (hs : HoldStep l l' a)
    (hd : k ∈ destroyedBy l.sched.toCore l.world l'.world) :
    ∃ side, side.ReleasesBy a ∧ holding l k = {side} ∧ holding l' k = ∅ := by
  simp only [destroyedBy,List.mem_filter,List.mem_range,Bool.and_eq_true,decide_eq_true_eq] at hd
  obtain ⟨hk,hne,hz⟩ := hd
  rcases hs.release hk with ⟨hr,_⟩ | ⟨side,hside,ha,hr,hh⟩
  · exact (hne (hr.symm.trans hz)).elim
  · have hone := (h.counted k hk).last hside (hr.symm.trans hz)
    refine ⟨side,ha,hone,?_⟩
    rw [hh,hone,Set.sdiff_self]

theorem Referenced.unused (h : Referenced l destroyed) (hc : Consistent l) (hd : k ∈ destroyed)
    (he : serverStep l a = some l') :
    k ∉ touched l.sched.toCore l.world a l'.sched.toCore := by
  have hk := h.old k hd
  have hcount := h.counted k hk
  have hz : (l.world.contexts k).refcount = 0 := by
    by_contra hne
    have hzero := hcount.destroyed_eq
    rw [if_neg hne] at hzero
    exact List.count_eq_zero.mp hzero hd
  intro ht
  rcases touched_held hc he ht with rfl | ⟨side,hside⟩
  · exact hk.false
  · rw [hcount.count_eq_zero_iff.mp hz] at hside
    exact hside

/-- Every accepted task's context counts its holders, is destroyed once, by the last of them,
and is not used afterwards. -/
theorem contexts_referenceCounted (h : ServerHistory noteDestroyed [] s destroyed)
    (hk : k < s.sched.allocated) : ReferenceCounted s destroyed k := by
  obtain ⟨l,hl,hr⟩ := serverHistory_refines h
  obtain ⟨hc,href⟩ := serverHistory_referenced hl
  have hk' : k < l.sched.allocated := by rwa [hr.sched.core] at hk
  have hholders := holders_eq hr hc hk'
  refine ⟨?_,?_,fun a s' he hd => ?_,fun hd a s' he => ?_⟩
  · rw [hholders,hr.world]
    exact href.counted k hk'
  · rw [hholders,hr.world]
    intro side hside
    cases side with
    | client c =>
      left
      rw [(href.mine c k hside).2]
    | scheduler => exact Or.inr rfl
  · obtain ⟨l',hl',hr'⟩ := serverStep_refines hr he
    have hstep := href.holdStep hc hl'
    rw [hr.sched.core,hr.world,hr'.world] at hd
    obtain ⟨side,ha,hone,hnone⟩ := href.last hstep hd
    have hk'' := hk'.trans_le (serverStep_shape hc hl').allocated
    refine ⟨side,ha,hholders.trans hone,?_⟩
    rw [holders_eq hr' (step_consistent hc hl') hk'',hnone]
  · obtain ⟨l',hl',hr'⟩ := serverStep_refines hr he
    have hno := href.unused hc hd hl'
    rw [← hr.sched.core,← hr.world,← hr'.sched.core] at hno
    exact ⟨hno,serverStep_overwrite he hno⟩

/-- A client leaves while its task waits: its thread releases both sides. -/
def leftWaiting : List ServerAction :=
  [.accept 4,.request 0 (.program "./demo 3".toList ["./demo".toList,"3".toList] 3),.poll 0,
   .peek 0 true,.cancel 0,.cleanupNext 0,.cancelled 0,.release 0]

theorem contexts_referenceCounted_leftWaiting :
    ∃ s : State TaskLinks, ∃ destroyed, exec (withHistory serverStep (noted noteDestroyed))
        (serverInit TaskLinks,[]) leftWaiting = some (s,destroyed) ∧
      destroyed = [0] ∧ ReferenceCounted s destroyed 0 := by
  obtain ⟨⟨s,destroyed⟩,he⟩ := Option.isSome_iff_exists.mp
    (show (exec (withHistory serverStep (noted noteDestroyed)) (serverInit TaskLinks,[])
      leftWaiting).isSome = true from rfl)
  refine ⟨s,destroyed,he,?_,contexts_referenceCounted (reaches_of_exec he) ?_⟩
  · cases he
    decide
  · cases he
    decide

end Links

end UnixShell.Server
