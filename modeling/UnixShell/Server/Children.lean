import UnixShell.Server.References

/-! # The children of the tasks

The server plays one processor: the only child that runs is that of the task which the
executor is in, and it is stopped or reaped when the executor returns. A task gets a new
child when its last one was reaped, and no child outlives its context.
-/
namespace UnixShell.Server
open Foundation Scheduler

/-- The child that a step starts, and the context it is started for. -/
def startedBy (w w' : World) : List (Pid × ContextRef) :=
  match w.round with
  | some r => if w.nextPid < w'.nextPid then [(w.nextPid,r.context)] else []
  | none => []

def noteStarted (children : List (Pid × ContextRef)) (_ : Core) (w w' : World) :
    List (Pid × ContextRef) :=
  startedBy w w' ++ children

section Lists
variable {s s' : State TaskLists} {a : ServerAction} {k : ContextRef} {p : Pid}
  {children : List (Pid × ContextRef)}

/-- Children in the world, in the contexts and in the history. -/
structure Parented (s : State TaskLists) (children : List (Pid × ContextRef)) : Prop where
  running : ∀ k, (s.world.contexts k).childRunning = true →
    (s.world.contexts k).childPid.isSome = true ∧
      ∃ r, s.world.round = some r ∧ r.context = k ∧ r.pc.mayRun = true
  old : ∀ p k, (p,k) ∈ children → p < s.world.nextPid ∧ k < s.sched.allocated
  noted : ∀ k p, (s.world.contexts k).childPid = some p → (p,k) ∈ children
  alive : ∀ p k, (p,k) ∈ children → (s.world.procs p).state ≠ .reaped →
    (s.world.contexts k).childPid = some p ∧ (s.world.contexts k).refcount ≠ 0
  process : ∀ p, (s.world.procs p).state = .running →
    ∃ k, (p,k) ∈ children ∧ (s.world.contexts k).childRunning = true

theorem parented_init : Parented (serverInit TaskLists) [] :=
  ⟨fun _ h => (by cases h),fun _ _ h => (by cases h),fun _ _ h => (by cases h),
    fun _ _ h => (by cases h),fun _ h => (by cases h)⟩

theorem startedBy_eq_nil {w w' : World} (h : w'.nextPid = w.nextPid) : startedBy w w' = [] := by
  unfold startedBy
  split
  · rw [h,if_neg (lt_irrefl _)]
  · rfl

theorem Holding.nextPid {n n' : ℕ} {w w' : World} (h : Holding a n n' w w') :
    w'.nextPid = w.nextPid := by
  cases h with
  | kept _ _ _ _ _ hpid => exact hpid
  | taken _ _ _ _ _ _ _ _ _ hpid => exact hpid
  | released _ _ _ _ _ _ _ hpid => exact hpid

/-- A child is started only for a context that has none. -/
theorem HoldStep.started (h : HoldStep s s' a) (hp : (p,k) ∈ startedBy s.world s'.world) :
    (s.world.contexts k).childPid = none := by
  have hmore : s'.world.nextPid ≠ s.world.nextPid := by
    intro hpid
    rw [startedBy_eq_nil hpid] at hp
    cases hp
  cases h with
  | @handled r m hr hm _ hw _ _ =>
    have hk : k = r.context := by
      simp only [startedBy,hr] at hp
      split at hp
      · exact (Prod.mk.inj (List.mem_singleton.mp hp)).2
      · cases hp
    have hpid : m.nextPid ≠ s.world.nextPid := by rwa [hw] at hmore
    rw [hk]
    cases hm.child with
    | started hnone => exact hnone
    | kept _ _ _ h _ => exact (hpid h).elim
    | resumed _ _ _ _ _ h => exact (hpid h).elim
    | stopped _ _ _ _ _ h => exact (hpid h).elim
    | ended _ _ _ h => exact (hpid h).elim
  | shared hh => exact (hmore hh.nextPid).elim
  | cleaned _ _ _ _ hw hw' =>
    refine (hmore ?_).elim
    rw [hw',hw]
    rfl

/-- A move of the executor and the contexts. -/
theorem move_contexts {r : Round} {m : Move} (hctx : m.round.context = r.context)
    (hw : s'.world = applyMove s.world m) : s'.world.contexts r.context = m.context ∧
      ∀ k, k ≠ r.context → s'.world.contexts k = s.world.contexts k := by
  rw [hw,applyMove_contexts hctx]
  exact ⟨Function.update_self _ _ _,fun k hk => Function.update_of_ne hk _ _⟩

namespace Parented

/-- Steps that leave the children with their contexts, whatever else they do. -/
theorem congr (h : Parented s children) (hround : RoundKept s.world s'.world)
    (hle : s.sched.allocated ≤ s'.sched.allocated) (hpid : s'.world.nextPid = s.world.nextPid)
    (hctx : ∀ k < s.sched.allocated,
      (s'.world.contexts k).childPid = (s.world.contexts k).childPid ∧
      (s'.world.contexts k).childRunning = (s.world.contexts k).childRunning ∧
      ((s'.world.contexts k).refcount = 0 → (s.world.contexts k).refcount ≠ 0 →
        ∀ p, (s.world.contexts k).childPid = some p → (s'.world.procs p).state = .reaped))
    (hnew : ∀ k, ¬k < s.sched.allocated → (s'.world.contexts k).childPid = none ∧
      (s'.world.contexts k).childRunning = false)
    (hprocs : Unrevived s.world.procs s'.world.procs) : Parented s' children := by
  refine ⟨fun k hk => ?_,fun p k hp => ?_,fun k p hp => ?_,fun p k hp hs => ?_,fun p hp => ?_⟩
  · by_cases hlt : k < s.sched.allocated
    · obtain ⟨hpid,hrun,_⟩ := hctx k hlt
      rw [hrun] at hk
      obtain ⟨hsome,r,hr,hrk,hmay⟩ := h.running k hk
      refine ⟨by rw [hpid]; exact hsome,r,?_,hrk,hmay⟩
      rcases hround with hround | hround
      · rw [hround,hr]
      · obtain ⟨exit,hexit⟩ := hround r hr
        rw [hexit] at hmay
        cases hmay
    · rw [(hnew k hlt).2] at hk
      cases hk
  · obtain ⟨hlt,hk⟩ := h.old p k hp
    exact ⟨hpid ▸ hlt,hk.trans_le hle⟩
  · by_cases hlt : k < s.sched.allocated
    · rw [(hctx k hlt).1] at hp
      exact h.noted k p hp
    · rw [(hnew k hlt).1] at hp
      cases hp
  · obtain ⟨hpid,_,hzero⟩ := hctx k (h.old p k hp).2
    obtain ⟨hchild,hcount⟩ := h.alive p k hp (fun hr => hs ((hprocs p).1 hr))
    exact ⟨by rw [hpid,hchild],fun hz => hs (hzero hz hcount p hchild)⟩
  · obtain ⟨k,hk,hrun⟩ := h.process p ((hprocs p).2 hp)
    exact ⟨k,hk,by rw [(hctx k (h.old p k hk).2).2.1,hrun]⟩

/-- A context that no task has yet has no child. -/
theorem fresh (h : Parented s children) (hk : ¬k < s.sched.allocated) :
    (s.world.contexts k).childPid = none ∧ (s.world.contexts k).childRunning = false := by
  have hnone : (s.world.contexts k).childPid = none := by
    cases hp : (s.world.contexts k).childPid with
    | none => rfl
    | some p => exact (hk (h.old p k (h.noted k p hp)).2).elim
  refine ⟨hnone,Bool.eq_false_of_not_eq_true (fun hrun => ?_)⟩
  have hsome := (h.running k hrun).1
  rw [hnone] at hsome
  cases hsome

theorem release_child (w : World) (k : ContextRef) :
    ((releaseContext w k).contexts k).childPid = (w.contexts k).childPid ∧
    ((releaseContext w k).contexts k).childRunning = (w.contexts k).childRunning ∧
    (((releaseContext w k).contexts k).refcount = 0 →
      ∀ p, (w.contexts k).childPid = some p → ((releaseContext w k).procs p).state = .reaped) ∧
    Unrevived w.procs (releaseContext w k).procs := by
  simp only [releaseContext,setContext,Function.update_self,taskContextRelease]
  split
  · refine ⟨rfl,rfl,fun _ p hp => ?_,unrevived_killAndReap _ _⟩
    simp [hp,killAndReap,setState]
  · rename_i hne
    exact ⟨rfl,rfl,fun hz => (hne hz).elim,Unrevived.refl _⟩

/-- A side that lets go takes the child along, if it is the last. -/
theorem release (h : Parented s children) {j : ContextRef} {w : World}
    (hround : RoundKept s.world s'.world) (hle : s.sched.allocated ≤ s'.sched.allocated)
    (hpid : s'.world.nextPid = s.world.nextPid) (hj : j < s.sched.allocated)
    (hw : w.contexts = s.world.contexts) (hw' : w.procs = s.world.procs)
    (hctx : s'.world.contexts = (releaseContext w j).contexts)
    (hprocs : s'.world.procs = (releaseContext w j).procs) : Parented s' children := by
  obtain ⟨hchild,hrun,hreap,hunrevived⟩ := release_child w j
  rw [hw] at hchild hrun hreap
  rw [hw'] at hunrevived
  refine h.congr hround hle hpid (fun k _ => ?_) (fun k hk => ?_) (by rw [hprocs]; exact hunrevived)
  · by_cases hkj : k = j
    · subst hkj
      rw [hctx,hprocs]
      exact ⟨hchild,hrun,fun hz _ => hreap hz⟩
    · rw [hctx,release_contexts hkj,hw]
      exact ⟨rfl,rfl,fun hz hne => (hne hz).elim⟩
  · have hkj : k ≠ j := fun hkj => hk (hkj ▸ hj)
    rw [hctx,release_contexts hkj,hw]
    exact h.fresh hk

theorem holding (h : Parented s children)
    (hh : Holding a s.sched.allocated s'.sched.allocated s.world s'.world)
    (hmine : ∀ c k, (s.world.clients c).pc.context = some k → k < s.sched.allocated)
    (hround : RoundKept s.world s'.world) : Parented s' children := by
  cases hh with
  | kept hn hc _ _ hprocs hpid =>
    refine h.congr hround hn.ge hpid (fun k _ => ?_) (fun k hk => ?_) hprocs
    · rw [hc]
      exact ⟨rfl,rfl,fun hz hne => (hne hz).elim⟩
    · rw [hc]
      exact h.fresh hk
  | @taken c context hn _ _ hnone hstill hctx _ _ hprocs hpid =>
    refine h.congr hround (hn ▸ Nat.le_succ _) hpid (fun k hk => ?_) (fun k hk => ?_)
      (by rw [hprocs]; exact Unrevived.refl _)
    · rw [hctx,Function.update_of_ne hk.ne]
      exact ⟨rfl,rfl,fun hz hne => (hne hz).elim⟩
    · by_cases hkn : k = s.sched.allocated
      · subst hkn
        rw [hctx,Function.update_self]
        exact ⟨hnone,hstill⟩
      · rw [hctx,Function.update_of_ne hkn]
        exact h.fresh hk
  | released hn _ hc hctx _ _ hprocs hpid =>
    exact h.release hround hn.ge hpid (hmine _ _ hc) rfl rfl hctx hprocs

/-- What is marked as running is the child of the round, at a point where it may run. -/
theorem running_current (h : Parented s children) {r : Round} (hr : s.world.round = some r)
    (hk : (s.world.contexts k).childRunning = true) :
    k = r.context ∧ (s.world.contexts k).childPid.isSome = true ∧ r.pc.mayRun = true := by
  obtain ⟨hsome,r',hr',hrk,hmay⟩ := h.running k hk
  obtain rfl : r = r' := Option.some.inj (hr.symm.trans hr')
  exact ⟨hrk.symm,hsome,hmay⟩

/-- A child that runs is the current one. -/
theorem process_current (h : Parented s children) {r : Round} (hr : s.world.round = some r)
    (hp : (s.world.procs p).state = .running) :
    (s.world.contexts r.context).childPid = some p ∧
      (s.world.contexts r.context).childRunning = true := by
  obtain ⟨k,hk,hrun⟩ := h.process p hp
  obtain ⟨rfl,_,_⟩ := h.running_current hr hrun
  exact ⟨(h.alive p _ hk (by rw [hp]; simp)).1,hrun⟩

/-- What a move of the executor must keep, where it starts no child. -/
theorem moved (h : Parented s children) {r : Round} {m : Move} (hr : s.world.round = some r)
    (hctx : m.round.context = r.context) (hw : s'.world = applyMove s.world m)
    (hn : s'.sched.allocated = s.sched.allocated) (hpid : m.nextPid = s.world.nextPid)
    (hcount : m.context.refcount = (s.world.contexts r.context).refcount)
    (hrun : m.context.childRunning = true →
      m.context.childPid.isSome = true ∧ m.round.pc.mayRun = true)
    (hchild : ∀ p, m.context.childPid = some p → (s.world.contexts r.context).childPid = some p)
    (hreap : ∀ p, (s.world.procs p).state = .reaped → (m.procs p).state = .reaped)
    (hlive : ∀ p, (s.world.contexts r.context).childPid = some p →
      (m.procs p).state ≠ .reaped → m.context.childPid = some p)
    (hproc : ∀ p, (m.procs p).state = .running →
      (s.world.contexts r.context).childPid = some p ∧ m.context.childRunning = true) :
    Parented s' children := by
  obtain ⟨hself,hother⟩ := move_contexts hctx hw
  have hprocs : s'.world.procs = m.procs := by rw [hw]; rfl
  refine ⟨fun k hk => ?_,fun p k hp => ?_,fun k p hp => ?_,fun p k hp hs => ?_,fun p hp => ?_⟩
  · by_cases hkr : k = r.context
    · subst hkr
      rw [hself] at hk ⊢
      exact ⟨(hrun hk).1,m.round,by rw [hw]; rfl,hctx,(hrun hk).2⟩
    · rw [hother k hkr] at hk
      exact (hkr (h.running_current hr hk).1).elim
  · obtain ⟨hlt,hk⟩ := h.old p k hp
    refine ⟨?_,hn ▸ hk⟩
    rw [hw]
    exact hlt.trans_eq hpid.symm
  · by_cases hkr : k = r.context
    · subst hkr
      rw [hself] at hp
      exact h.noted _ p (hchild p hp)
    · rw [hother k hkr] at hp
      exact h.noted k p hp
  · rw [hprocs] at hs
    obtain ⟨hc,hne⟩ := h.alive p k hp (fun hz => hs (hreap p hz))
    by_cases hkr : k = r.context
    · subst hkr
      rw [hself,hcount]
      exact ⟨hlive p hc hs,hne⟩
    · rw [hother k hkr]
      exact ⟨hc,hne⟩
  · rw [hprocs] at hp
    obtain ⟨hc,hk⟩ := hproc p hp
    exact ⟨r.context,h.noted _ p hc,by rw [hself,hk]⟩

/-- The first child of a task, or the next one after the last was reaped. -/
theorem started (h : Parented s children) {r : Round} {m : Move} (hr : s.world.round = some r)
    (hlt : r.context < s.sched.allocated) (hne : (s.world.contexts r.context).refcount ≠ 0)
    (hctx : m.round.context = r.context) (hw : s'.world = applyMove s.world m)
    (hn : s'.sched.allocated = s.sched.allocated)
    (hcount : m.context.refcount = (s.world.contexts r.context).refcount)
    (hnone : (s.world.contexts r.context).childPid = none)
    (hchild : m.context.childPid = some s.world.nextPid) (hrun : m.context.childRunning = true)
    (hprocs : m.procs = Function.update s.world.procs s.world.nextPid
      { state := .running, pipe := [] })
    (hpid : m.nextPid = s.world.nextPid + 1) (hmay : m.round.pc.mayRun = true) :
    Parented s' ((s.world.nextPid,r.context) :: children) := by
  obtain ⟨hself,hother⟩ := move_contexts hctx hw
  have hprocs' : s'.world.procs = m.procs := by rw [hw]; rfl
  have hkeep : ∀ p, p ≠ s.world.nextPid → s'.world.procs p = s.world.procs p := by
    intro p hp
    rw [hprocs',hprocs,Function.update_of_ne hp]
  refine ⟨fun k hk => ?_,fun p k hp => ?_,fun k p hp => ?_,fun p k hp hs => ?_,fun p hp => ?_⟩
  · by_cases hkr : k = r.context
    · subst hkr
      rw [hself,hchild]
      exact ⟨rfl,m.round,by rw [hw]; rfl,hctx,hmay⟩
    · rw [hother k hkr] at hk
      exact (hkr (h.running_current hr hk).1).elim
  · have hnext : s'.world.nextPid = s.world.nextPid + 1 := by rw [hw]; exact hpid
    rw [hnext,hn]
    rcases List.mem_cons.mp hp with hp | hp
    · cases hp
      exact ⟨Nat.lt_succ_self _,hlt⟩
    · obtain ⟨hold,hk⟩ := h.old p k hp
      exact ⟨hold.trans (Nat.lt_succ_self _),hk⟩
  · by_cases hkr : k = r.context
    · subst hkr
      rw [hself,hchild] at hp
      cases hp
      exact List.mem_cons_self
    · rw [hother k hkr] at hp
      exact List.mem_cons_of_mem _ (h.noted k p hp)
  · rcases List.mem_cons.mp hp with hp | hp
    · cases hp
      rw [hself,hcount]
      exact ⟨hchild,hne⟩
    · rw [hkeep p (h.old p k hp).1.ne] at hs
      obtain ⟨hc,hcnt⟩ := h.alive p k hp hs
      have hkr : k ≠ r.context := by
        rintro rfl
        rw [hnone] at hc
        cases hc
      rw [hother k hkr]
      exact ⟨hc,hcnt⟩
  · by_cases hpn : p = s.world.nextPid
    · subst hpn
      exact ⟨r.context,List.mem_cons_self,by rw [hself,hrun]⟩
    · rw [hkeep p hpn] at hp
      have hc := (h.process_current hr hp).1
      rw [hnone] at hc
      cases hc

/-- A move of the executor, case by case. -/
theorem handled (h : Parented s children) {r : Round} {m : Move} (hr : s.world.round = some r)
    (hlt : r.context < s.sched.allocated) (hne : (s.world.contexts r.context).refcount ≠ 0)
    (hm : Handled (view s.sched.toCore s.world r) r.pc m) (hctx : m.round.context = r.context)
    (hw : s'.world = applyMove s.world m) (hn : s'.sched.allocated = s.sched.allocated) :
    Parented s' (startedBy s.world s'.world ++ children) := by
  have hnil : m.nextPid = s.world.nextPid → startedBy s.world s'.world = [] := fun hpid =>
    startedBy_eq_nil (by rw [hw]; exact hpid)
  have hcur : (s.world.contexts r.context).childRunning = true →
      (s.world.contexts r.context).childPid.isSome = true ∧ r.pc.mayRun = true :=
    fun hrun => (h.running_current hr hrun).2
  cases hm.child with
  | kept hchild hrun hprocs hpid hmay =>
    rw [hnil hpid]
    refine h.moved hr hctx hw hn hpid hm.refcount (fun hk => ?_) (fun p hp => ?_)
      (fun p => (hprocs p).1) (fun p hp _ => hchild.trans hp) (fun p hp => ?_)
    · obtain ⟨hsome,hpc⟩ := hcur (hrun ▸ hk)
      refine ⟨hchild ▸ hsome,(hmay hpc).resolve_right (fun hnone => ?_)⟩
      have hnone' : (s.world.contexts r.context).childPid = none := hnone
      rw [hnone'] at hsome
      cases hsome
    · exact hchild.symm.trans hp
    · obtain ⟨hc,hk⟩ := h.process_current hr ((hprocs p).2 hp)
      exact ⟨hc,hrun.trans hk⟩
  | started hnone hchild hrun hprocs hpid hmay =>
    have hone : startedBy s.world s'.world = [(s.world.nextPid,r.context)] := by
      have hnext : s.world.nextPid < s'.world.nextPid := by
        rw [hw]
        exact (Nat.lt_succ_self _).trans_eq hpid.symm
      simp only [startedBy,hr,if_pos hnext]
    rw [hone]
    exact h.started hr hlt hne hctx hw hn hm.refcount hnone hchild hrun hprocs hpid hmay
  | @resumed pid hold hchild hrun hreap hprocs hpid hmay =>
    rw [hnil hpid]
    refine h.moved hr hctx hw hn hpid hm.refcount (fun _ => ⟨by rw [hchild]; rfl,hmay⟩)
      (fun p hp => ?_) hreap (fun p hp _ => ?_) (fun p hp => ?_)
    · rw [hchild] at hp
      exact hold.trans hp
    · exact hchild.trans (hold.symm.trans hp)
    · by_cases hpp : p = pid
      · subst hpp
        exact ⟨hold,hrun⟩
      · have hp' : (s.world.procs p).state = .running := by
          rw [hprocs p hpp] at hp
          exact hp
        exact ⟨(h.process_current hr hp').1,hrun⟩
  | stopped hchild hstop hrun hprocs hstate hpid =>
    rw [hnil hpid]
    refine h.moved hr hctx hw hn hpid hm.refcount (fun hk => ?_) (fun p hp => ?_)
      (fun p => (hprocs p).1) (fun p hp _ => hchild.trans hp) (fun p hp => ?_)
    · rw [hstop (hcur (hrun hk)).1] at hk
      cases hk
    · exact hchild.symm.trans hp
    · obtain ⟨hc,hk⟩ := h.process_current hr ((hprocs p).2 hp)
      exact (hstate p hc hk hp).elim
  | ended hchild hrun hprocs hpid =>
    rw [hnil hpid]
    have hunrevived := unrevived_killAndReap s.world.procs (s.world.contexts r.context).childPid
    have hdead : ∀ p, (s.world.contexts r.context).childPid = some p →
        (m.procs p).state = .reaped := by
      intro p hp
      have hview : (view s.sched.toCore s.world r).context.childPid = some p := hp
      rw [hprocs,hview]
      simp [killAndReap,setState]
    refine h.moved hr hctx hw hn hpid hm.refcount (fun hk => ?_) (fun p hp => ?_)
      (fun p hp => ?_) (fun p hp hs => (hs (hdead p hp)).elim) (fun p hp => ?_)
    · rw [hrun] at hk
      cases hk
    · rw [hchild] at hp
      cases hp
    · rw [hprocs]
      exact (hunrevived p).1 hp
    · have hp' : (s.world.procs p).state = .running := by
        rw [hprocs] at hp
        exact (hunrevived p).2 hp
      have hz := hdead p (h.process_current hr hp').1
      rw [hp] at hz
      cases hz

/-- One step of the server. -/
theorem step (h : Parented s children) (hc : Consistent s) {destroyed : List ContextRef}
    (href : Referenced s destroyed) (he : serverStep s a = some s') :
    Parented s' (startedBy s.world s'.world ++ children) := by
  cases href.holdStep hc he with
  | @handled r m hr hm hctx hw hn _ =>
    have hlt : r.context < s.sched.allocated := by
      rw [(hc.running r hr).2]
      exact hc.task_lt hr
    -- the scheduler keeps the record that it runs
    have hside : Side.scheduler ∈ Server.holding s r.context := by
      obtain ⟨place,hp⟩ := hc.sched.placed
      refine ⟨hlt,fun hz => hp.finalised_not_current hz ?_⟩
      rw [(hc.running r hr).2]
      exact hc.current hr
    exact h.handled hr hlt ((href.counted _ hlt).count_pos hside).ne' hm hctx hw hn
  | shared hh hround _ =>
    rw [startedBy_eq_nil hh.nextPid]
    exact h.holding hh (fun c k hk => (href.mine c k hk).1) hround
  | @cleaned j w _ hj _ _ hw hw' hround hn =>
    have hpid : s'.world.nextPid = s.world.nextPid := by
      rw [hw',hw]
      rfl
    rw [startedBy_eq_nil hpid]
    have hctx : w.contexts = s.world.contexts := by rw [hw]
    have hprocs : w.procs = s.world.procs := by rw [hw]
    refine h.release ?_ hn.ge hpid hj hctx hprocs (by rw [hw']) (by rw [hw'])
    rw [hw']
    exact hround

end Parented

theorem serverHistory_parented (h : ServerHistory noteStarted [] s children) :
    ServerReachable s ∧ Parented s children := by
  have hinit : ServerReachable (serverInit TaskLists) := Reaches.refl _
  refine h.invariant (P := fun s => ServerReachable s.1 ∧ Parented s.1 s.2) ?_
    ⟨hinit,parented_init⟩
  rintro ⟨s,children⟩ a ⟨s',children'⟩ ⟨hreach,hp⟩ he
  obtain ⟨hs,hn⟩ := fires_withHistory he
  obtain ⟨destroyed,href⟩ := serverReachable_referenced hreach
  refine ⟨hreach.tail hs,?_⟩
  rw [hn]
  exact hp.step (serverReachable_consistent hreach) href hs

end Lists

/-- One processor for all the tasks of the server. -/
structure OneCpu (s : State TaskLinks) (children : List (Pid × ContextRef)) : Prop where
  /-- A child is marked as running for the task that the executor is in, and for no other. -/
  current : ∀ k, (s.world.contexts k).childRunning = true →
    ∃ r, s.world.round = some r ∧ r.context = k ∧ s.sched.currentTask = some r.task ∧
      (s.sched.tasks r.task).userData = some k
  one : ∀ j k, (s.world.contexts j).childRunning = true →
    (s.world.contexts k).childRunning = true → j = k
  /-- The process that runs is its child. -/
  process : ∀ p, (s.world.procs p).state = .running →
    ∃ k, (p,k) ∈ children ∧ (s.world.contexts k).childPid = some p ∧
      (s.world.contexts k).childRunning = true
  /-- Where the executor returns, no task's child is marked and no process runs. -/
  returned : ∀ r exit, s.world.round = some r → r.pc = .returned exit →
    (∀ k, (s.world.contexts k).childRunning = false) ∧
      ∀ p, (s.world.procs p).state ≠ .running
  /-- Of the children started for a task at most one is still to be reaped. -/
  single : ∀ k p q, (p,k) ∈ children → (q,k) ∈ children → (s.world.procs p).state ≠ .reaped →
    (s.world.procs q).state ≠ .reaped → p = q
  restarts : ∀ a s', serverStep s a = some s' → ∀ p k, (p,k) ∈ startedBy s.world s'.world →
    ∀ q, (q,k) ∈ children → (s.world.procs q).state = .reaped
  /-- A destroyed context leaves no child behind. -/
  destroyed : ∀ k, (s.world.contexts k).refcount = 0 → ∀ p, (p,k) ∈ children →
    (s.world.procs p).state = .reaped

section Links
variable {s : State TaskLinks} {l : State TaskLists}
  {children : List (Pid × ContextRef)}

/-- What a round runs is the current task. -/
theorem Parented.current (h : Parented l children) (hc : Consistent l) {k : ContextRef}
    (hk : (l.world.contexts k).childRunning = true) :
    ∃ r, l.world.round = some r ∧ r.context = k ∧ r.pc.mayRun = true ∧
      l.sched.currentTask = some r.task ∧ (l.sched.tasks r.task).userData = some k := by
  obtain ⟨_,r,hr,rfl,hmay⟩ := h.running k hk
  refine ⟨r,hr,rfl,hmay,hc.current hr,?_⟩
  rw [(hc.running r hr).2]
  exact hc.named _ (hc.task_lt hr)

/-- In every reachable state of the server its tasks share one processor. -/
theorem tasks_oneCpu (h : ServerHistory noteStarted [] s children) : OneCpu s children := by
  obtain ⟨l,hl,hr⟩ := serverHistory_refines h
  obtain ⟨hreach,hp⟩ := serverHistory_parented hl
  have hc := serverReachable_consistent hreach
  obtain ⟨destroyed,href⟩ := serverReachable_referenced hreach
  have hone : ∀ j k, (l.world.contexts j).childRunning = true →
      (l.world.contexts k).childRunning = true → j = k := by
    intro j k hj hk
    obtain ⟨r,hr,rfl,_⟩ := hp.current hc hj
    obtain ⟨r',hr',rfl,_⟩ := hp.current hc hk
    rw [Option.some.inj (hr.symm.trans hr')]
  have hproc : ∀ p, (l.world.procs p).state = .running →
      ∃ k, (p,k) ∈ children ∧ (l.world.contexts k).childPid = some p ∧
        (l.world.contexts k).childRunning = true := by
    intro p hrun
    obtain ⟨k,hk,hmark⟩ := hp.process p hrun
    exact ⟨k,hk,(hp.alive p k hk (by rw [hrun]; simp)).1,hmark⟩
  rw [← hr.world] at hone hproc
  refine ⟨fun k hk => ?_,hone,hproc,fun r exit hround hexit => ?_,fun k p q hpk hqk hps hqs => ?_,
    fun a s' he p k hpk q hqk => ?_,fun k hz p hpk => ?_⟩
  · rw [hr.world] at hk ⊢
    rw [hr.sched.core]
    obtain ⟨r,hround,hrk,_,hcur,hu⟩ := hp.current hc hk
    exact ⟨r,hround,hrk,hcur,hu⟩
  · have hstill : ∀ k, (s.world.contexts k).childRunning = false := by
      intro k
      apply Bool.eq_false_of_not_eq_true
      intro hk
      rw [hr.world] at hk hround
      obtain ⟨r',hr',_,hmay,_⟩ := hp.current hc hk
      obtain rfl : r = r' := Option.some.inj (hround.symm.trans hr')
      rw [hexit] at hmay
      cases hmay
    refine ⟨hstill,fun p hrun => ?_⟩
    obtain ⟨k,_,_,hmark⟩ := hproc p hrun
    rw [hstill k] at hmark
    cases hmark
  · rw [hr.world] at hps hqs
    have hpc := (hp.alive p k hpk hps).1
    have hqc := (hp.alive q k hqk hqs).1
    exact Option.some.inj (hpc.symm.trans hqc)
  · obtain ⟨l',hl',hr'⟩ := serverStep_refines hr he
    rw [hr.world,hr'.world] at hpk
    rw [hr.world]
    by_contra hs
    have hchild := (hp.alive q k hqk hs).1
    rw [(href.holdStep hc hl').started hpk] at hchild
    cases hchild
  · rw [hr.world] at hz ⊢
    by_contra hs
    exact (hp.alive p k hpk hs).2 hz

/-- A shorter program takes the processor from a longer one, whose child is stopped. -/
def handedProcessor : List ServerAction :=
  [.accept 4,.request 0 (.program "./demo 3".toList ["./demo".toList,"3".toList] 3),.enter,
   .exec .go,.exec (.started true),.accept 5,
   .request 1 (.program "./demo 1".toList ["./demo".toList,"1".toList] 1),.exec .go,.exec .go,
   .exec .readAgain,.exec .go,.exec .go,.exec .go,.exec .readAgain,.exec .go,.exec .go,.exec .go,
   .finish,.enter,.exec .go,.exec (.started true)]

theorem tasks_oneCpu_handedProcessor :
    ∃ s : State TaskLinks, ∃ children, exec (withHistory serverStep (noted noteStarted))
        (serverInit TaskLinks,[]) handedProcessor = some (s,children) ∧
      children = [(2,1),(1,0)] ∧ (s.world.procs 1).state = .stopped ∧
      (s.world.procs 2).state = .running ∧ OneCpu s children := by
  obtain ⟨⟨s,children⟩,he⟩ := Option.isSome_iff_exists.mp
    (show (exec (withHistory serverStep (noted noteStarted)) (serverInit TaskLinks,[])
      handedProcessor).isSome = true from rfl)
  refine ⟨s,children,he,?_,?_,?_,tasks_oneCpu (reaches_of_exec he)⟩
  · cases he
    decide
  · cases he
    decide
  · cases he
    decide

end Links

end UnixShell.Server
