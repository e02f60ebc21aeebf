import UnixShell.Server.Fillings

/-! # What a request leaves behind

The requests of an attempt to create a task are made in turn, and the first one that is
refused decides what is left. Where it is the task, the reference that is meant for the
scheduler is never given up, and the context stays with all it owns. Nothing else is left,
and nothing is freed that is not live.
-/
namespace UnixShell.Server.Creation
open Foundation
open UnixShell.Parser (blank)

/-- The requests of a context and its task. -/
def taskScript (command : Text) : List Object :=
  [.context,.mutex,.ready] ++ [.task,.text command]

/-- The reference of the task stays when there is no task, so that nobody releases the last. -/
def contextLost (os : List Object) : Object → List Object
  | .task => .context :: .mutex :: .ready :: os
  | .text _ => .context :: .mutex :: .ready :: os
  | _ => []

def contextBlocks (c : Context) : Blocks :=
  {(c.block,.context)} + ({(c.mutex,.mutex)} + {(c.ready,.ready)})

def outputBlocks (c : Context) : Blocks := (c.output.toList.map fun b => (b,Object.output) : List _)

def taskBlocks (t : TaskRecord) (command : Text) : Blocks :=
  {(t.block,.task)} + {(t.commandText,.text command)}

/-- The argument vector of a context, if it has one. -/
def Carries (c : Context) (os : List Object) (b : Blocks) : Prop :=
  match c.argv with
  | none => os = [] ∧ b = 0
  | some v => Stocked v os b

/-- A task with its context, of which both sides hold a reference. -/
structure Prepared (command : Text) (made : TaskRecord × Context) (bs : Blocks)
    (h : Heap Object) : Prop where
  refcount : made.2.refcount = 2
  done : made.2.done = false
  output : made.2.output = none
  owns : ∃ os b, Carries made.2 os b ∧
    h.Owns (taskBlocks made.1 command + (contextBlocks made.2 + (b + bs)))

section Tasks
variable {alloc : ℕ → Bool} {h : Heap Object} {c : Context} {os : List Object} {b bs : Blocks}
variable {command : Text}

theorem freeArgv_owns (hc : Carries c os b) (ho : h.Owns (b + bs)) :
    (freeArgv c.argv h).Owns bs := by
  unfold Carries at hc
  cases hv : c.argv with
  | none =>
    rw [hv] at hc
    obtain ⟨_,rfl⟩ := hc
    exact ho.congr (zero_add bs)
  | some v =>
    rw [hv] at hc
    exact hc.free ho

theorem touch_context (ho : h.Owns (contextBlocks c + bs)) :
    (h.touch c.block).touch c.mutex = h := by
  rw [ho.touch (b := (c.block,.context)) (by simp [contextBlocks]),
    ho.touch (b := (c.mutex,.mutex)) (by simp [contextBlocks])]

/-- The first of the two references. -/
theorem release_first (hc : c.refcount = 2) (ho : h.Owns (contextBlocks c + bs)) :
    taskContextRelease c h = ({ c with refcount := 1 },h) := by
  unfold taskContextRelease
  rw [touch_context ho]
  simp [hc]

theorem release_last (hc : c.refcount = 1) (hv : Carries c os b)
    (ho : h.Owns (contextBlocks c + (b + (outputBlocks c + bs)))) :
    (taskContextRelease c h).2.Owns bs := by
  unfold taskContextRelease
  rw [touch_context ho]
  simp only [hc,sub_self,if_true]
  have hargv : (freeArgv c.argv h).Owns (outputBlocks c + (contextBlocks c + bs)) :=
    freeArgv_owns hv (ho.congr (by abel))
  have houtput : ((freeArgv c.argv h).freePointer c.output).Owns (contextBlocks c + bs) := by
    unfold outputBlocks at hargv
    cases hout : c.output with
    | none =>
      rw [hout] at hargv
      exact hargv.congr (zero_add _)
    | some o =>
      rw [hout] at hargv
      exact Heap.Owns.free (b := (o,Object.output)) (hargv.congr (by simp))
  refine Heap.Owns.free (b := (c.block,.context)) (Heap.Owns.free (b := (c.mutex,.mutex))
    (Heap.Owns.free (b := (c.ready,.ready)) (houtput.congr ?_)))
  rw [contextBlocks]
  abel

theorem destroy_owns {t : TaskRecord} (ho : h.Owns (taskBlocks t command + bs)) :
    (schedulerDestroyTask t h).Owns bs := by
  have htouch : h.touch t.block = h := ho.touch (b := (t.block,.task)) (by simp [taskBlocks])
  rw [schedulerDestroyTask,htouch]
  refine Heap.Owns.free (b := (t.block,.task)) (Heap.Owns.free
    (b := (t.commandText,.text command)) (ho.congr ?_))
  rw [taskBlocks]
  abel

theorem taskContextCreate_follows (ho : h.Owns bs) :
    Follows alloc h.requests [.context,.mutex,.ready]
      (fun c h' => c.refcount = 2 ∧ c.done = false ∧ c.argv = none ∧ c.output = none ∧
        h'.Owns (contextBlocks c + bs))
      (fun _ h' => h'.Owns bs) (taskContextCreate alloc h) := by
  unfold taskContextCreate
  refine (Follows.ask ho .context).bind (l := [.mutex,.ready]) (fun c h₁ he ho₁ => ?_)
    (fun k h₁ he _ ho₁ => ?_)
  · have htouch : h₁.touch c = h₁ := ho₁.touch (b := (c,.context))
      (Multiset.mem_add.mpr (.inl (Multiset.mem_singleton_self _)))
    simp only [he,htouch]
    refine (Follows.ask ho₁ .mutex).bind (l := [.ready]) (fun m h₂ he ho₂ => ?_)
      (fun k h₂ he _ ho₂ => ?_)
    · simp only [he]
      refine (Follows.ask ho₂ .ready).bind (l := []) (fun r h₃ he ho₃ => ?_)
        (fun k h₃ he _ ho₃ => ?_)
      · simp only [he]
        refine Follows.pure ⟨rfl,rfl,rfl,rfl,ho₃.congr ?_⟩
        rw [contextBlocks]
        abel
      · simp only [he]
        exact ⟨trivial,by simp,Heap.Owns.free (b := (c,.context))
          (Heap.Owns.free (b := (m,.mutex)) ho₃)⟩
    · simp only [he]
      exact ⟨trivial,Heap.free_requests _ _,ho₂.free⟩
  · simp only [he]
    exact ⟨trivial,trivial,ho₁⟩

theorem schedulerCreateTask_follows (ho : h.Owns bs) :
    Follows alloc h.requests [.task,.text command]
      (fun t h' => h'.Owns (taskBlocks t command + bs)) (fun _ h' => h'.Owns bs)
      (schedulerCreateTask alloc command h) := by
  unfold schedulerCreateTask
  refine (Follows.ask ho .task).bind (l := [.text command]) (fun t h₁ he ho₁ => ?_)
    (fun k h₁ he _ ho₁ => ?_)
  · have htouch : h₁.touch t = h₁ := ho₁.touch (b := (t,.task))
      (Multiset.mem_add.mpr (.inl (Multiset.mem_singleton_self _)))
    simp only [he,htouch]
    refine (Follows.ask ho₁ (.text command)).bind (l := []) (fun s h₂ he ho₂ => ?_)
      (fun k h₂ he _ ho₂ => ?_)
    · simp only [he]
      refine Follows.pure (ho₂.congr ?_)
      rw [taskBlocks]
      abel
    · simp only [he]
      exact ⟨trivial,Heap.free_requests _ _,ho₂.free⟩
  · simp only [he]
    exact ⟨trivial,trivial,ho₁⟩

theorem Carries.objects (hv : Carries c os b) : b.map Prod.snd = os := by
  unfold Carries at hv
  cases hargv : c.argv with
  | none =>
    rw [hargv] at hv
    obtain ⟨rfl,rfl⟩ := hv
    rfl
  | some v =>
    rw [hargv] at hv
    exact hv.objects

theorem createTask_follows (hc : c.refcount = 2) (hdone : c.done = false) (hout : c.output = none)
    (hv : Carries c os b)
    (ho : h.Owns (contextBlocks c + (b + bs))) :
    Follows alloc h.requests [.task,.text command] (fun made h' => Prepared command made bs h')
      (fun k h' => Left (contextLost os k) bs h') (createTask alloc c command h) := by
  unfold createTask
  refine (schedulerCreateTask_follows ho).bind (l := []) (fun t h' he ho' => ?_)
    (fun k h' he hk ho' => ?_)
  · have htouch : h'.touch c.block = h' :=
      ho'.touch (b := (c.block,.context)) (by simp [contextBlocks])
    simp only [he,htouch]
    exact Follows.pure ⟨hc,hdone,hout,os,b,hv,ho'⟩
  · simp only [he,release_first hc ho']
    have hlost : contextLost os k = .context :: .mutex :: .ready :: os := by
      rcases List.mem_cons.mp hk with rfl | hk
      · rfl
      · rw [List.mem_singleton.mp hk]
        rfl
    refine ⟨trivial,trivial,contextBlocks c + b,?_,ho'.congr (by abel)⟩
    rw [hlost,Multiset.map_add,hv.objects]
    rfl

theorem createShellTask_follows (ho : h.Owns bs) :
    Follows alloc h.requests (taskScript command) (fun made h' => Prepared command made bs h')
      (fun k h' => Left (contextLost [] k) bs h') (createShellTask alloc command h) := by
  unfold createShellTask
  refine (taskContextCreate_follows ho).bind (fun c h' he hm => ?_) (fun k h' he hk ho' => ?_)
  · obtain ⟨hc,hdone,hargv,hout,ho'⟩ := hm
    simp only [he]
    refine createTask_follows (b := 0) hc hdone hout ?_ (ho'.congr (by abel))
    rw [Carries,hargv]
    exact ⟨rfl,rfl⟩
  · simp only [he]
    refine ⟨trivial,trivial,?_⟩
    simp only [List.mem_cons,List.not_mem_nil,or_false] at hk
    rcases hk with rfl | rfl | rfl <;> exact Left.nothing ho'

theorem createWithArgv_follows {v : Argv} (hv : Stocked v os b) (ho : h.Owns (b + bs)) :
    Follows alloc h.requests (taskScript command) (fun made h' => Prepared command made bs h')
      (fun k h' => Left (contextLost os k) bs h') (createWithArgv alloc v command h) := by
  unfold createWithArgv
  refine (taskContextCreate_follows ho).bind (fun c h' he hm => ?_) (fun k h' he hk ho' => ?_)
  · obtain ⟨hc,hdone,_,hout,ho'⟩ := hm
    have htouch : h'.touch c.block = h' :=
      ho'.touch (b := (c.block,.context)) (by simp [contextBlocks])
    simp only [he,htouch]
    exact createTask_follows (c := { c with argv := some v }) hc hdone hout hv ho'
  · simp only [he]
    refine ⟨trivial,freeStringArray_requests _ _,?_⟩
    simp only [List.mem_cons,List.not_mem_nil,or_false] at hk
    rcases hk with rfl | rfl | rfl <;> exact Left.nothing (hv.free ho')

end Tasks

/-- What an attempt to create a task asks for, what is left behind where a request of it is
refused, and whether it reads then what was never written. -/
structure Attempt where
  script : List Object
  lost : Object → List Object
  misreads : Object → Bool

def shellAttempt (command : Text) : Attempt :=
  ⟨taskScript command,contextLost [],fun _ => false⟩

def programAttempt (command : Text) : Attempt :=
  let ws := words blank command
  ⟨vectorScript command ws ++ taskScript command,
    contextLost (.argv (capacityFor ws.length) :: ws.map .word),regrown⟩

def demoAttempt (command : Text) : Attempt :=
  let ws := spelled demoCopy 0 (words blank command)
  ⟨vectorScript command ws ++ countScript ws ++ taskScript command,
    fun k => demoLost ws k ++ contextLost (.argv (capacityFor ws.length) :: demoObjects ws) k,
    fun _ => false⟩

def attemptsFor (command : Text) : List Attempt :=
  (if isDemoCommand (some command) then [demoAttempt command] else []) ++
    (if isProgramCommand (some command) then [programAttempt command] else []) ++
    [shellAttempt command]

/-- A function of the code does what an attempt says. -/
def Attempt.Accounts (a : Attempt) (alloc : ℕ → Bool) (command : Text)
    (create : Text → Heap Object → Option (TaskRecord × Context) × Heap Object) : Prop :=
  ∀ (h : Heap Object) (bs : Blocks), h.Owns bs →
    Follows alloc h.requests a.script (fun made h' => Prepared command made bs h')
      (fun k h' => Unless (a.misreads k) (Left (a.lost k) bs) h') (create command h)

section Attempts
variable {alloc : ℕ → Bool} {command : Text} {k : Object}

theorem mem_taskScript (hk : k ∈ taskScript command) (ws : List Text) :
    regrown k = false ∧ demoLost ws k = [] := by
  simp only [taskScript,List.cons_append,List.nil_append,List.mem_cons,List.not_mem_nil,
    or_false] at hk
  rcases hk with rfl | rfl | rfl | rfl | rfl <;> exact ⟨rfl,rfl⟩

theorem mem_vectorScript {ws : List Text} (hk : k ∈ vectorScript command ws)
    (os : List Object) : contextLost os k = [] := by
  rcases List.mem_cons.mp hk with rfl | hk
  · rfl
  · rcases List.mem_cons.mp hk with rfl | hk
    · rfl
    · rcases mem_wordScript hk with ⟨c,rfl⟩ | ⟨w,rfl⟩ <;> rfl

theorem mem_countScript {ws : List Text} (hk : k ∈ countScript ws) (os : List Object) :
    contextLost os k = [] := by
  unfold countScript at hk
  split at hk
  · split_ifs at hk
    · cases hk
    · rw [List.mem_singleton.mp hk]
      rfl
  · rw [List.mem_singleton.mp hk]
    rfl

theorem shellAttempt_accounts : (shellAttempt command).Accounts alloc command
    (createShellTask alloc) := fun _ _ ho =>
  (createShellTask_follows ho).mono (fun _ _ hm => hm) fun _ _ _ hl => Unless.of hl rfl

theorem programAttempt_accounts : (programAttempt command).Accounts alloc command
    (createGenericProgramTask alloc) := by
  intro h bs ho
  unfold createGenericProgramTask
  refine (splitCommandArgv_follows command ho).bind (fun v h' he hm => ?_)
    (fun k h' he hk hs => ?_)
  · obtain ⟨b,hv,ho'⟩ := hm
    simp only [he]
    exact (createWithArgv_follows hv ho').mono (fun _ _ hm => hm) fun k hk _ hl =>
      Unless.of hl (mem_taskScript hk []).1
  · simp only [he]
    refine ⟨trivial,trivial,?_⟩
    show Unless (regrown k) (Left (contextLost _ k) bs) h'
    rw [mem_vectorScript hk]
    exact hs.imp Left.nothing

theorem demoAttempt_accounts (hdemo : isDemoCommand (some command) = true) :
    (demoAttempt command).Accounts alloc command (createProgramTask alloc) := by
  intro h bs ho
  unfold createProgramTask
  refine (buildDemoArgv_follows hdemo ho).bind (fun v h' he hm => ?_) (fun k h' he hk hs => ?_)
  · obtain ⟨b,hv,ho'⟩ := hm
    simp only [he]
    refine (createWithArgv_follows hv ho').mono (fun _ _ hm => hm) fun k hk h'' hl => ?_
    refine Unless.of ?_ rfl
    show Left (demoLost _ k ++ contextLost _ k) bs h''
    rw [(mem_taskScript hk _).2,spelled_length]
    exact hl
  · simp only [he]
    refine ⟨trivial,trivial,Unless.of ?_ rfl⟩
    show Left (demoLost _ k ++ contextLost _ k) bs h'
    have hnone : ∀ os, contextLost os k = [] := fun os =>
      (List.mem_append.mp hk).elim (fun hk => mem_vectorScript hk os) fun hk =>
        mem_countScript hk os
    rw [hnone,List.append_nil]
    exact hs

theorem attemptsFor_account (alloc : ℕ → Bool) (command : Text) :
    List.Forall₂ (fun a create => a.Accounts alloc command create) (attemptsFor command)
      (attempts alloc command) := by
  unfold attemptsFor attempts
  refine List.rel_append (List.rel_append ?_ ?_) (.cons shellAttempt_accounts .nil)
  · split_ifs with hdemo
    · exact .cons (demoAttempt_accounts hdemo) .nil
    · exact .nil
  · split_ifs
    · exact .cons programAttempt_accounts .nil
    · exact .nil

end Attempts

/-- What comes of some attempts: whether there is a task, the requests made by then, what is
left behind, and whether something was misread, which ends the account. -/
structure Account where
  made : Bool
  requests : ℕ
  lost : List Object
  misread : Bool
  deriving DecidableEq, Repr

section Accounts
variable (alloc : ℕ → Bool)

def account : ℕ → List Attempt → Account
  | n, [] => ⟨false,n,[],false⟩
  | n, a :: as =>
    match firstRefused alloc n a.script with
    | (none,m) => ⟨true,m,[],false⟩
    | (some k,m) =>
      if a.misreads k then ⟨false,m,[],true⟩
      else { account m as with lost := a.lost k ++ (account m as).lost }

end Accounts

section Settling
variable {alloc : ℕ → Bool} {h : Heap Object} {bs : Blocks} {command : Text}

/-- What the attempts of the code come to. -/
structure Settles (a : Account) (command : Text) (bs : Blocks)
    (r : Option (TaskRecord × Context) × Heap Object) : Prop where
  requests : r.2.requests = a.requests
  misread : a.misread = true → r.1 = none ∧ r.2.faults ≠ []
  nothing : a.misread = false → a.made = false → r.1 = none ∧ Left a.lost bs r.2
  made : a.made = true → a.misread = false ∧ ∃ made, r.1 = some made ∧
    ∃ lost : Blocks, lost.map Prod.snd = a.lost ∧ Prepared command made (lost + bs) r.2

theorem firstTask_settles {as : List Attempt}
    {creates : List (Text → Heap Object → Option (TaskRecord × Context) × Heap Object)}
    (hall : List.Forall₂ (fun a create => a.Accounts alloc command create) as creates)
    (ho : h.Owns bs) :
    Settles (account alloc h.requests as) command bs (firstTask command creates h) := by
  induction hall generalizing h bs with
  | nil =>
    exact ⟨rfl,fun hc => (by cases hc),fun _ _ => ⟨rfl,Left.nothing ho⟩,fun hc => (by cases hc)⟩
  | @cons a create as creates hfirst _ ih =>
    have hf := hfirst h bs ho
    rw [firstTask,account]
    cases hr : firstRefused alloc h.requests a.script with
    | mk refusal m =>
      have hm : (create command h).2.requests = m := by rw [hf.requests,hr]
      cases refusal with
      | none =>
        obtain ⟨made,hmade,hprep⟩ := hf.granted (by rw [hr])
        have he : create command h = (some made,(create command h).2) := Prod.ext hmade rfl
        rw [he]
        exact ⟨hm,fun hc => (by cases hc),fun _ hc => (by cases hc),
          fun _ => ⟨rfl,made,rfl,0,rfl,(zero_add bs).symm ▸ hprep⟩⟩
      | some k =>
        obtain ⟨hnone,hspoilt⟩ := hf.refused k (by rw [hr])
        have he : create command h = (none,(create command h).2) := Prod.ext hnone rfl
        rw [he]
        dsimp only
        by_cases hmis : a.misreads k = true
        · have hfault := hspoilt.faulty hmis
          rw [if_pos hmis,if_neg hfault]
          exact ⟨hm,fun _ => ⟨rfl,hfault⟩,fun hc => (by cases hc),fun hc => (by cases hc)⟩
        · obtain ⟨lost,hlost,ho'⟩ := hspoilt.spared (Bool.not_eq_true _ ▸ hmis)
          have hrest := ih ho'
          rw [hm] at hrest
          rw [if_neg hmis,if_pos ho'.faultless]
          refine ⟨hrest.requests,hrest.misread,fun hm' hmade => ?_,fun hmade => ?_⟩
          · obtain ⟨hr',lost',hlost',ho''⟩ := hrest.nothing hm' hmade
            exact ⟨hr',lost + lost',by simp [hlost,hlost'],ho''.congr (by abel)⟩
          · obtain ⟨hm',made,hr',lost',hlost',hprep⟩ := hrest.made hmade
            refine ⟨hm',made,hr',lost + lost',by simp [hlost,hlost'],?_⟩
            have hsum : lost' + (lost + bs) = lost + lost' + bs := by abel
            exact hsum ▸ hprep

end Settling

end UnixShell.Server.Creation
