import UnixShell.Server.Remains

/-! # What a task leaves behind

Every `task_context_set_done` after the first gives up the output that was there, and nobody
frees it. The account of a task keeps its outputs by the numbers of their requests: the one
the context holds, the one the client thread has read the pointer of, and those that are
lost. The bill of a connection adds up what its commands leave.
-/
namespace UnixShell.Server.Creation
open Foundation

/-- The outputs of a task, each the number of a request. -/
structure Outputs where
  requests : ℕ
  done : Bool
  output : Option ℕ
  payload : Option ℕ
  lost : List ℕ
  /-- An output was sent that `realloc` had given back. -/
  misread : Bool
  deriving DecidableEq, Repr

namespace Outputs

def start (n : ℕ) : Outputs := ⟨n,false,none,none,[],false⟩

/-- The outputs that are live. -/
def kept (o : Outputs) : List ℕ := o.output.toList ++ o.lost

def skip (o : Outputs) : Outputs := { o with requests := o.requests + 1 }

def set (o : Outputs) (b : ℕ) : Outputs :=
  { o with done := true, output := some b, lost := o.kept }

/-- The output is sent from a pointer that is live no longer. -/
def stale (o : Outputs) : Bool := o.payload.any fun b => decide (b ∉ o.kept)

variable (alloc : ℕ → Bool)

def fail (o : Outputs) : Outputs :=
  if alloc o.requests then o.skip.set o.requests else o.skip

def use (o : Outputs) : Use → Outputs
  | .shell =>
    if alloc o.requests then
      if alloc (o.requests + 1) then o.skip.skip.set (o.requests + 1) else o.skip.skip.fail alloc
    else o.skip.fail alloc
  | .chunk =>
    if alloc o.requests then { o.skip with output := some o.requests } else o.skip.fail alloc
  | .fail => o.fail alloc
  | .finish => { o with done := true }
  | .fetch => if o.done then { o with payload := o.output } else o
  | .send => { o with misread := o.stale }

/-- Nothing is accounted behind a misreading. -/
def useAll : List Use → Outputs → Outputs
  | [], o => o
  | u :: us, o => if (o.use alloc u).misread then o.use alloc u else useAll us (o.use alloc u)

end Outputs

def outputs (bs : List ℕ) : Blocks := (bs.map fun b => (b,Object.output) : List _)

@[simp] theorem outputs_append (bs cs : List ℕ) :
    outputs (bs ++ cs) = outputs bs + outputs cs := by
  simp [outputs]

@[simp] theorem outputs_cons (b : ℕ) (bs : List ℕ) :
    outputs (b :: bs) = {(b,.output)} + outputs bs := by
  simp [outputs]

@[simp] theorem outputs_nil : outputs [] = 0 := rfl

/-- The context of a task, with the output of its account. -/
def contextOf (c : Context) (o : Outputs) : Context := { c with output := o.output, done := o.done }

/-- The account and the memory agree: of the outputs those that are kept are live, and the pointer
of the client thread is to one of them if to anything live. -/
structure Agree (c : Context) (o : Outputs) (bs : Blocks) (h : Heap Object) : Prop where
  requests : h.requests = o.requests
  sound : o.misread = false
  owns : h.Owns (contextBlocks c + (outputs o.kept + bs))
  issued : ∀ b ∈ o.payload, b < o.requests
  reads : ∀ b ∈ o.payload, b ∈ h.live.map Prod.fst → b ∈ o.kept

section Uses
variable (alloc : ℕ → Bool) {t : TaskRecord} {command : Text} {c : Context} {o : Outputs}
  {bs : Blocks} {h : Heap Object} {k : Object}

theorem touchContext (ho : h.Owns (contextBlocks c + bs)) (o : Outputs) :
    (h.touch (contextOf c o).block).touch (contextOf c o).mutex = h := touch_context ho

theorem Agree.refused (ha : Agree c o bs h) (k : Object) :
    Agree c o.skip bs (h.request k false).2 :=
  ⟨congrArg (· + 1) ha.requests,ha.sound,(ha.owns.refused k).2,
    fun b hb => (ha.issued b hb).trans (Nat.lt_succ_self _),ha.reads⟩

theorem Agree.request (ha : Agree c o bs h) (k : Object) :
    h.request k true = (some o.requests,(h.request k true).2) :=
  Prod.ext ((ha.owns.granted k).1.trans (congrArg some ha.requests)) rfl

/-- A new block is none that the client thread points to. -/
theorem Agree.fresh (ha : Agree c o bs h) (k : Object) : ∀ b ∈ o.payload,
    b ∈ (h.request k true).2.live.map Prod.fst → b ∈ o.kept := by
  intro b hb hlive
  rcases List.mem_cons.mp hlive with rfl | hlive
  · exact absurd (ha.issued _ hb) (by rw [← ha.requests]; exact lt_irrefl _)
  · exact ha.reads b hb hlive

/-- A block of another owner. -/
theorem Agree.granted (ha : Agree c o bs h) (k : Object) :
    Agree c o.skip ({(o.requests,k)} + bs) (h.request k true).2 := by
  refine ⟨congrArg (· + 1) ha.requests,ha.sound,(ha.owns.granted k).2.congr ?_,
    fun b hb => (ha.issued b hb).trans (Nat.lt_succ_self _),ha.fresh k⟩
  rw [ha.requests]
  show _ = contextBlocks c + (outputs o.kept + ({(o.requests,k)} + bs))
  abel

theorem Agree.freed {b : ℕ} (ha : Agree c o ({(b,k)} + bs) h) : Agree c o bs (h.free b) := by
  refine ⟨(Heap.free_requests _ _).trans ha.requests,ha.sound,
    Heap.Owns.free (b := (b,k)) (ha.owns.congr (by abel)),ha.issued,fun b' hb hlive => ?_⟩
  exact ha.reads b' hb (Heap.mem_of_mem_free hlive)

/-- The output that was there is lost. -/
theorem Agree.set {b : ℕ} (ha : Agree c o ({(b,.output)} + bs) h) : Agree c (o.set b) bs h := by
  refine ⟨ha.requests,ha.sound,ha.owns.congr ?_,ha.issued,
    fun b' hb hlive => List.mem_cons_of_mem _ (ha.reads b' hb hlive)⟩
  show _ = contextBlocks c + (outputs (b :: o.kept) + bs)
  rw [outputs_cons]
  abel

theorem taskContextSetDone_agrees {b : ℕ} (ha : Agree c o ({(b,.output)} + bs) h) :
    taskContextSetDone (some b) (contextOf c o) h = (contextOf c (o.set b),h) := by
  unfold taskContextSetDone
  rw [touchContext ha.owns]
  rfl

theorem fail_agrees (ha : Agree c o bs h) : ∃ h',
    fail alloc (contextOf c o) h = (contextOf c (o.fail alloc),h') ∧
      Agree c (o.fail alloc) bs h' := by
  unfold fail Outputs.fail
  rw [Heap.ask,ha.requests]
  cases alloc o.requests with
  | false => exact ⟨_,rfl,ha.refused .output⟩
  | true =>
    have hg := ha.granted .output
    rw [ha.request]
    exact ⟨_,taskContextSetDone_agrees (o := o.skip) hg,hg.set⟩

/-- The old output moves to the new block. -/
theorem Agree.moved (ha : Agree c o bs h) :
    Agree c { o.skip with output := some o.requests } bs
      ((h.request .output true).2.freePointer o.output) := by
  have hg := ha.granted .output
  cases hout : o.output with
  | none =>
    have hkept : o.kept = o.lost := by rw [Outputs.kept,hout]; rfl
    refine ⟨hg.requests,hg.sound,hg.owns.congr ?_,hg.issued,fun b hb hlive => ?_⟩
    · show contextBlocks c + (outputs o.kept + _) = contextBlocks c + (outputs (_ :: o.lost) + bs)
      rw [hkept,outputs_cons]
      abel
    · have hmem := hg.reads b hb hlive
      exact List.mem_cons_of_mem _ (hkept ▸ hmem)
  | some old =>
    have hkept : o.kept = old :: o.lost := by rw [Outputs.kept,hout]; rfl
    have hown : (h.request .output true).2.Owns ({(old,.output)} +
        (contextBlocks c + (outputs (o.requests :: o.lost) + bs))) := by
      refine hg.owns.congr ?_
      show contextBlocks c + (outputs o.kept + _) = _
      rw [hkept,outputs_cons,outputs_cons]
      abel
    refine ⟨(Heap.free_requests _ _).trans hg.requests,hg.sound,
      Heap.Owns.free (b := (old,.output)) hown,hg.issued,fun b hb hlive => ?_⟩
    have hmem : b ∈ old :: o.lost := hkept ▸ hg.reads b hb (Heap.mem_of_mem_free hlive)
    rcases List.mem_cons.mp hmem with rfl | hmem
    · exact absurd hlive (Heap.not_mem_free _ _)
    · exact List.mem_cons_of_mem _ hmem

theorem chunk_agrees (ha : Agree c o bs h) : ∃ h',
    drainChunk alloc (contextOf c o) h = (contextOf c (o.use alloc .chunk),h') ∧
      Agree c (o.use alloc .chunk) bs h' := by
  have htouch : h.touch c.block = h :=
    ha.owns.touch (b := (c.block,.context)) (by simp [contextBlocks])
  unfold drainChunk taskContextAppend
  rw [show (contextOf c o).block = c.block from rfl,htouch,Heap.ask,ha.requests,Outputs.use]
  cases alloc o.requests with
  | false => exact fail_agrees alloc (ha.refused .output)
  | true =>
    have hm := ha.moved
    have hnew := hm.owns.touch (b := (o.requests,.output)) (by simp [Outputs.kept])
    rw [ha.request]
    exact ⟨_,by simp only [contextOf,hnew]; rfl,hm⟩

theorem shell_agrees (ha : Agree c o bs h) (ht : (t.commandText,.text command) ∈ bs) : ∃ h',
    executeShellTask alloc t command (contextOf c o) h =
        (contextOf c (o.use alloc .shell),h') ∧
      Agree c (o.use alloc .shell) bs h' := by
  have htouch : h.touch t.commandText = h :=
    ha.owns.touch (b := (t.commandText,.text command)) (by simp [ht])
  unfold executeShellTask
  rw [htouch,Heap.ask,ha.requests,Outputs.use]
  cases alloc o.requests with
  | false => exact fail_agrees alloc (ha.refused (.line command))
  | true =>
    have hline := ha.granted (.line command)
    rw [ha.request]
    simp only [if_true,Heap.ask,hline.requests,show o.skip.requests = o.requests + 1 from rfl]
    cases alloc (o.requests + 1) with
    | false => exact fail_agrees alloc (hline.refused .output).freed
    | true =>
      have hout := hline.granted .output
      have hfree : Agree c o.skip.skip ({(o.requests + 1,.output)} + bs)
          (((h.request (.line command) true).2.request .output true).2.free o.requests) :=
        Agree.freed (k := .line command) (by
          rw [← add_assoc,add_comm {(o.requests,Object.line command)},add_assoc]
          exact hout)
      rw [hline.request]
      exact ⟨_,taskContextSetDone_agrees (o := o.skip.skip) hfree,hfree.set⟩

/-- Only a pointer that is not stale is to a live block. -/
theorem send_agrees (ha : Agree c o bs h) (t : TaskRecord) (command : Text) : ∃ h',
    perform alloc t command ⟨contextOf c o,o.payload⟩ h .send =
        (⟨contextOf c o,o.payload⟩,h') ∧
      Unless o.stale (Agree c { o with misread := o.stale } bs) h' := by
  cases hs : o.stale with
  | false =>
    refine ⟨h,?_,Unless.of ⟨ha.requests,rfl,ha.owns,ha.issued,ha.reads⟩ rfl⟩
    simp only [perform]
    split
    · rfl
    · rename_i b hp
      have hb : b ∈ o.kept := by simpa [Outputs.stale,hp] using hs
      rw [ha.owns.touch (b := (b,.output)) (by simp [outputs,hb])]
  | true =>
    obtain ⟨b,hp,hb⟩ : ∃ b, o.payload = some b ∧ b ∉ o.kept := by
      simpa [Outputs.stale,Option.any_eq_true] using hs
    have hdead : b ∉ h.live.map Prod.fst := fun hlive => hb (ha.reads b hp hlive)
    refine ⟨h.touch b,by simp only [perform,hp],?_⟩
    rw [Unless,if_pos rfl,Heap.touch,if_neg hdead]
    exact Heap.stray_faulty h b

/-- One use of the output. -/
theorem perform_agrees (ha : Agree c o bs h) (ht : (t.commandText,.text command) ∈ bs) (u : Use) :
    ∃ h', perform alloc t command ⟨contextOf c o,o.payload⟩ h u =
        (⟨contextOf c (o.use alloc u),(o.use alloc u).payload⟩,h') ∧
      Unless (o.use alloc u).misread (Agree c (o.use alloc u) bs) h' := by
  cases u with
  | shell =>
    obtain ⟨h',he,ha'⟩ := shell_agrees alloc ha ht
    have hp : (o.use alloc .shell).payload = o.payload := by
      simp only [Outputs.use,Outputs.fail]
      split_ifs <;> rfl
    exact ⟨h',by rw [perform,he,hp],Unless.of ha' ha'.sound⟩
  | chunk =>
    obtain ⟨h',he,ha'⟩ := chunk_agrees alloc ha
    have hp : (o.use alloc .chunk).payload = o.payload := by
      simp only [Outputs.use,Outputs.fail]
      split_ifs <;> rfl
    exact ⟨h',by rw [perform,he,hp],Unless.of ha' ha'.sound⟩
  | fail =>
    obtain ⟨h',he,ha'⟩ := fail_agrees alloc ha
    have hp : (o.fail alloc).payload = o.payload := by
      simp only [Outputs.fail]
      split_ifs <;> rfl
    exact ⟨h',by rw [perform,he,Outputs.use,hp],Unless.of ha' ha'.sound⟩
  | finish =>
    refine ⟨h,?_,Unless.of ⟨ha.requests,ha.sound,ha.owns,ha.issued,ha.reads⟩ ha.sound⟩
    simp only [perform,taskContextSetDone,touchContext ha.owns]
    rfl
  | fetch =>
    simp only [perform,Outputs.use,show (contextOf c o).done = o.done from rfl,touchContext ha.owns]
    by_cases hd : o.done = true
    · simp only [if_pos hd]
      have hmem : ∀ b ∈ o.output, b ∈ o.kept := fun b hb =>
        List.mem_append_left _ (Option.mem_toList.mpr hb)
      refine ⟨h,rfl,Unless.of ⟨ha.requests,ha.sound,ha.owns,fun b hb => ?_,fun b hb _ => hmem b hb⟩
        ha.sound⟩
      have hb' := ha.owns.issued (b,.output) (by simp [outputs,hmem b hb])
      exact hb'.trans_eq ha.requests
    · simp only [if_neg hd]
      exact ⟨h,rfl,Unless.of ha ha.sound⟩
  | send =>
    obtain ⟨h',he,hu⟩ := send_agrees alloc ha t command
    exact ⟨h',he,hu⟩

/-- Everything that is done with the output, as far as it is accounted. -/
theorem performAll_agrees (ha : Agree c o bs h) (ht : (t.commandText,.text command) ∈ bs)
    (us : List Use) : ∃ s h', performAll alloc t command us ⟨contextOf c o,o.payload⟩ h = (s,h') ∧
      Unless (o.useAll alloc us).misread
        (fun h' => s.context = contextOf c (o.useAll alloc us) ∧
          Agree c (o.useAll alloc us) bs h') h' := by
  induction us generalizing o h with
  | nil => exact ⟨_,h,rfl,Unless.of ⟨rfl,ha⟩ ha.sound⟩
  | cons u us ih =>
    obtain ⟨h',he,hu⟩ := perform_agrees alloc ha ht u
    rw [performAll,he,Outputs.useAll]
    dsimp only
    cases hmis : (o.use alloc u).misread with
    | true =>
      have hfault := hu.faulty hmis
      rw [if_neg hfault,if_pos rfl]
      refine ⟨_,h',rfl,?_⟩
      rw [hmis]
      exact hfault
    | false =>
      have ha' := hu.spared hmis
      rw [if_pos ha'.owns.faultless,if_neg Bool.false_ne_true]
      exact ih ha'

end Uses

section Bills
variable (alloc : ℕ → Bool)

/-- What the commands of a connection leave behind, and whether something was misread, which ends
the bill. -/
def bill : ℕ → List (Text × Ending) → List Object × Bool
  | _, [] => ([],false)
  | n, (command,e) :: rest =>
    if command = exitCommand then ([],false)
    else
      let a := account alloc n (attemptsFor command)
      if a.made then
        let o := (Outputs.start a.requests).useAll alloc e.uses
        if o.misread || decide (e.parting = .overtaken) then (a.lost,true)
        else
          (a.lost ++ (o.lost.map (fun _ => .output) ++ (bill o.requests rest).1),
            (bill o.requests rest).2)
      else (a.lost,a.misread)

end Bills

/-- How many outputs are given up for another one when no request is refused. -/
def overwrites : Bool → List Use → ℕ
  | _, [] => 0
  | held, .shell :: us => held.toNat + overwrites true us
  | held, .fail :: us => held.toNat + overwrites true us
  | _, .chunk :: us => overwrites true us
  | held, _ :: us => overwrites held us

/-- The outputs that are given up before the exit. -/
def overwritten (session : List (Text × Ending)) : ℕ :=
  ((session.takeWhile fun r => r.1 ≠ exitCommand).map fun r => overwrites false r.2.uses).sum

section Serving
variable {alloc : ℕ → Bool} {h : Heap Object} {bs : Blocks} {t : TaskRecord} {command : Text}

@[simp] theorem taskContextRelease_requests (c : Context) (h : Heap Object) :
    (taskContextRelease c h).2.requests = h.requests := by
  unfold taskContextRelease
  dsimp only
  split_ifs
  · cases c.argv <;> simp [freeArgv]
  · simp

@[simp] theorem schedulerDestroyTask_requests (t : TaskRecord) (h : Heap Object) :
    (schedulerDestroyTask t h).requests = h.requests := by
  simp [schedulerDestroyTask]

theorem carries_congr {c c' : Context} {os : List Object} {b : Blocks} (h : c'.argv = c.argv) :
    Carries c' os b ↔ Carries c os b := by
  unfold Carries
  rw [h]

/-- The first reference to go leaves everything live. -/
theorem Agree.firstRelease {c : Context} {o : Outputs} {b : Blocks}
    (ha : Agree c o (taskBlocks t command + (b + bs)) h) (hr : c.refcount = 2) :
    taskContextRelease (contextOf c o) h = ({ contextOf c o with refcount := 1 },h) ∧
      h.Owns (contextBlocks { contextOf c o with refcount := 1 } +
        (outputBlocks { contextOf c o with refcount := 1 } +
          (taskBlocks t command + (b + (outputs o.lost + bs))))) := by
  have hown : h.Owns (contextBlocks (contextOf c o) + (outputBlocks (contextOf c o) +
      (taskBlocks t command + (b + (outputs o.lost + bs))))) := by
    refine ha.owns.congr ?_
    rw [Outputs.kept,outputs_append]
    show contextBlocks c + _ = contextBlocks c + (outputs o.output.toList + _)
    abel
  exact ⟨release_first hr hown,hown⟩

/-- Both references are given up, in any order. -/
theorem finish_agrees {made : TaskRecord × Context} (e : Ending)
    (hp : Prepared command made bs h) :
    Unless (((Outputs.start h.requests).useAll alloc e.uses).misread ||
        decide (e.parting = .overtaken))
      (fun h' => h'.Owns (outputs ((Outputs.start h.requests).useAll alloc e.uses).lost + bs) ∧
        h'.requests = ((Outputs.start h.requests).useAll alloc e.uses).requests)
      (finish alloc e command made.1 made.2 h) := by
  obtain ⟨t,c⟩ := made
  obtain ⟨os,b,hv,ho⟩ := hp.owns
  have htouch : h.touch t.block = h := ho.touch (b := (t.block,.task)) (by simp [taskBlocks])
  have hstart : contextOf c (Outputs.start h.requests) = c := by
    show { c with output := none, done := false } = c
    rw [← hp.output,← hp.done]
  have hagree : Agree c (Outputs.start h.requests) (taskBlocks t command + (b + bs)) h :=
    ⟨rfl,rfl,ho.congr (by simp only [Outputs.kept,Outputs.start]; simp; abel),
      fun _ hb => (by cases hb),fun _ hb => (by cases hb)⟩
  have htext : (t.commandText,Object.text command) ∈ taskBlocks t command + (b + bs) := by
    simp [taskBlocks]
  obtain ⟨s,h',he,hu⟩ := performAll_agrees alloc hagree htext e.uses
  rw [hstart] at he
  unfold finish
  rw [htouch,show (⟨c,none⟩ : Held) = ⟨c,(Outputs.start h.requests).payload⟩ from rfl,he]
  dsimp only
  generalize (Outputs.start h.requests).useAll alloc e.uses = o at hu ⊢
  cases hmis : o.misread with
  | true =>
    have hfault := hu.faulty hmis
    rw [if_neg hfault]
    exact hfault
  | false =>
    obtain ⟨hcontext,ha⟩ := hu.spared hmis
    rw [if_pos ha.owns.faultless,hcontext,Bool.false_or]
    obtain ⟨hfirst,hown⟩ := ha.firstRelease hp.refcount
    have htask : h'.touch t.block = h' := hown.touch (b := (t.block,.task)) (by simp [taskBlocks])
    have hblock : h'.touch (contextOf c o).block = h' :=
      hown.touch (b := ((contextOf c o).block,.context)) (by simp [contextBlocks,contextOf])
    have hv' : Carries { contextOf c o with refcount := 1 } os b := (carries_congr rfl).mpr hv
    have hreq : h'.requests = o.requests := ha.requests
    cases e.parting with
    | client =>
      simp only [serverTaskCleanup,htask,hfirst,hblock]
      refine Unless.of ⟨?_,by simp [hreq]⟩ (by decide)
      have hlast : h'.Owns (contextBlocks { contextOf c o with refcount := 1 } + (b +
          (outputBlocks { contextOf c o with refcount := 1 } +
            (taskBlocks t command + (outputs o.lost + bs))))) := hown.congr (by abel)
      exact destroy_owns (release_last rfl hv' hlast)
    | scheduler =>
      simp only [serverTaskCleanup,htask,hblock,hfirst]
      refine Unless.of ⟨?_,by simp [hreq]⟩ (by decide)
      have hlast : h'.Owns (taskBlocks t command +
          (contextBlocks { contextOf c o with refcount := 1 } + (b +
            (outputBlocks { contextOf c o with refcount := 1 } + (outputs o.lost + bs))))) :=
        hown.congr (by abel)
      exact release_last rfl hv' (destroy_owns hlast)
    | overtaken =>
      simp only [serverTaskCleanup,htask,hblock,hfirst]
      have hdead := Heap.not_mem_free ((h'.touch t.block).free t.commandText) t.block
      rw [Unless,if_pos (by decide),Heap.touch,schedulerDestroyTask,if_neg hdead]
      exact Heap.stray_faulty _ _

theorem serve_bill (session : List (Text × Ending)) (ho : h.Owns bs) :
    Unless (bill alloc h.requests session).2 (Left (bill alloc h.requests session).1 bs)
      (serve alloc session h) := by
  induction session generalizing h bs with
  | nil => exact Unless.of (Left.nothing ho) rfl
  | cons r session ih =>
    obtain ⟨command,e⟩ := r
    rw [serve,bill]
    by_cases hexit : command = exitCommand
    · rw [if_pos hexit,if_pos hexit]
      exact Unless.of (Left.nothing ho) rfl
    rw [if_neg hexit,if_neg hexit]
    have hs := @firstTask_settles alloc h bs command _ _ (attemptsFor_account alloc command) ho
    dsimp only
    cases hmade : (account alloc h.requests (attemptsFor command)).made with
    | true =>
      obtain ⟨_,made,hr,lost,hlost,hprep⟩ := hs.made hmade
      have he : firstTask command (attempts alloc command) h =
          (some made,(firstTask command (attempts alloc command) h).2) := Prod.ext hr rfl
      have hend := @finish_agrees alloc _ _ _ _ e hprep
      rw [hs.requests] at hend
      rw [he,if_pos rfl]
      dsimp only
      cases hmis : ((Outputs.start (account alloc h.requests (attemptsFor command)).requests).useAll
          alloc e.uses).misread || decide (e.parting = .overtaken) with
      | true =>
        have hfault := hend.faulty hmis
        rw [if_pos rfl,if_neg hfault]
        exact hfault
      | false =>
        obtain ⟨hown,hreq⟩ := hend.spared hmis
        have hrest := ih hown
        rw [hreq] at hrest
        rw [if_neg Bool.false_ne_true,if_pos hown.faultless]
        refine hrest.imp fun hleft => ?_
        obtain ⟨lost',hlost',ho'⟩ := hleft
        refine ⟨lost + (outputs _ + lost'),?_,ho'.congr (by abel)⟩
        rw [Multiset.map_add,Multiset.map_add,hlost,hlost',outputs,Multiset.map_coe,List.map_map,
          ← Multiset.coe_add,← Multiset.coe_add]
        rfl
    | false =>
      rw [if_neg Bool.false_ne_true]
      cases hmis : (account alloc h.requests (attemptsFor command)).misread with
      | true =>
        obtain ⟨hr,hfault⟩ := hs.misread hmis
        have he : firstTask command (attempts alloc command) h =
            (none,(firstTask command (attempts alloc command) h).2) := Prod.ext hr rfl
        rw [he]
        exact hfault
      | false =>
        obtain ⟨hr,hleft⟩ := hs.nothing hmis hmade
        have he : firstTask command (attempts alloc command) h =
            (none,(firstTask command (attempts alloc command) h).2) := Prod.ext hr rfl
        rw [he]
        exact Unless.of hleft rfl

theorem account_full (hfull : ∀ n, alloc n = true) (n : ℕ) {as : List Attempt} (hne : as ≠ []) :
    ∃ m, account alloc n as = ⟨true,m,[],false⟩ := by
  cases as with
  | nil => exact absurd rfl hne
  | cons a as => exact ⟨_,by rw [account,firstRefused_full hfull]⟩

/-- Every output but the last is given up, unless it grew into the next. -/
theorem useAll_full (hfull : ∀ n, alloc n = true) (us : List Use) (o : Outputs)
    (hm : (o.useAll alloc us).misread = false) :
    (o.useAll alloc us).lost.length = o.lost.length + overwrites o.output.isSome us := by
  induction us generalizing o with
  | nil => rfl
  | cons u us ih =>
    rw [Outputs.useAll] at hm ⊢
    split_ifs at hm ⊢ with hmis
    · rw [hmis] at hm
      cases hm
    have hkept : o.kept.length = o.lost.length + o.output.isSome.toNat := by
      cases hout : o.output <;> simp [Outputs.kept,hout]
    rw [ih _ hm]
    cases u with
    | shell =>
      simp only [Outputs.use,hfull,if_true,Outputs.set,Outputs.skip,overwrites]
      show o.kept.length + _ = _
      rw [hkept,Option.isSome_some,add_assoc]
    | chunk => simp only [Outputs.use,hfull,if_true,Outputs.skip,overwrites,Option.isSome_some]
    | fail =>
      simp only [Outputs.use,Outputs.fail,hfull,if_true,Outputs.set,Outputs.skip,overwrites]
      show o.kept.length + _ = _
      rw [hkept,Option.isSome_some,add_assoc]
    | finish => rfl
    | fetch =>
      simp only [Outputs.use,overwrites]
      split_ifs <;> rfl
    | send => rfl

theorem bill_full (hfull : ∀ n, alloc n = true) (n : ℕ) (session : List (Text × Ending))
    (hm : (bill alloc n session).2 = false) :
    (bill alloc n session).1 = List.replicate (overwritten session) .output := by
  induction session generalizing n with
  | nil => rfl
  | cons r session ih =>
    obtain ⟨command,e⟩ := r
    have hne : attemptsFor command ≠ [] := by simp [attemptsFor]
    obtain ⟨m,hmade⟩ := account_full hfull n hne
    rw [bill,hmade] at hm ⊢
    dsimp only at hm ⊢
    rw [if_pos rfl] at hm ⊢
    by_cases hexit : command = exitCommand
    · simp [hexit,overwritten]
    rw [if_neg hexit] at hm ⊢
    split_ifs at hm ⊢ with hmis
    have hsound : ((Outputs.start m).useAll alloc e.uses).misread = false := by
      simpa using (Bool.or_eq_false_iff.mp (Bool.not_eq_true _ ▸ hmis)).1
    have hlost := useAll_full hfull e.uses (Outputs.start m) hsound
    rw [ih _ hm,List.nil_append,List.map_const',hlost,← List.replicate_add]
    simp [overwritten,hexit,Outputs.start]

/-- Whatever requests are refused, and however the rounds of a task set its output, a connection's
commands free and touch only live blocks, each block is freed once, and what is still live in
the end is what the bill says, until something is misread: a vector made anew before is refused
to grow again, an output is sent that has moved, or a submission is overtaken. When no request
is refused, what is left is the outputs that were given up for another one. -/
theorem requests_ledger (alloc : ℕ → Bool) (session : List (Text × Ending)) :
    ((serve alloc session .empty).faults = [] ↔ (bill alloc 0 session).2 = false) ∧
    ((bill alloc 0 session).2 = false →
      ((serve alloc session .empty).live.map Prod.snd).Perm (bill alloc 0 session).1 ∧
      ((∀ n, alloc n = true) →
        (bill alloc 0 session).1 = List.replicate (overwritten session) .output)) := by
  have hserve := @serve_bill alloc _ _ session Heap.Owns.empty
  refine ⟨?_,fun hnone => ⟨?_,fun hfull => bill_full hfull 0 session hnone⟩⟩
  · cases hmis : (bill alloc 0 session).2 with
    | true => simp [hserve.faulty hmis]
    | false =>
      obtain ⟨_,_,ho⟩ := hserve.spared hmis
      simp [ho.faultless]
  · obtain ⟨lost,hlost,ho⟩ := hserve.spared hnone
    rw [add_zero] at ho
    rw [← ho.live,Multiset.map_coe] at hlost
    exact Multiset.coe_eq_coe.mp hlost

/-- The record of a program's task is refused, and the shell is given the command. -/
example : bill (fun n => n ≠ 6) 0 [(['.','/','p'],⟨[.shell,.fetch,.send],.client⟩)] =
    ([.context,.mutex,.ready,.argv 4,.word ['.','/','p']],false) := by
  decide +kernel

/-- A drain fails, and so does the one of the next round. -/
example : bill (fun _ => true) 0 [(['.','/','p'],⟨[.fail,.fail,.fetch,.send],.scheduler⟩)] =
    ([.output],false) := by
  decide +kernel

end Serving

end UnixShell.Server.Creation
