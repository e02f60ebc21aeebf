import UnixShell.Session.Stream

/-! # Why a session ends

`recv_command` folds the length of a command and the end of the stream into one number.
The two stay apart as long as no command is empty and none fills the buffer: then the
thread leaves as disconnected only for the end of the stream or a `recv` that failed, and
every command sent until then has its final packet.
-/
namespace UnixShell.Session
open Foundation Scheduler Server
open UnixShell.Protocol (Bytes bufferSize fgets trimNewline commandBytes Command wire)

/-- The bytes that were sent and that are part of no command that the thread has been handed. -/
def unread (σ : Connection) : Bytes :=
  match σ.listening with
  | .reading buffer => buffer ++ σ.upstream
  | .returned _ command => command ++ σ.upstream
  | .left => σ.upstream

/-- What is promised where the thread takes the branch "client disconnected". -/
structure EndsForReason (c : ThreadId) (σ : Connection) : Prop where
  reason : σ.main = .closed ∧ σ.upstream = [] ∨ σ.failed = true
  /-- Each task has one final packet. -/
  answered : finals σ.server.world c = σ.asked.map Prod.snd ∧ (σ.asked.map Prod.snd).Nodup
  /-- Each command sent is a task; only those that a failed `recv` left unread are none. -/
  commands : ∃ lost, σ.sent.filter (· ≠ exitCommand) = σ.asked.map Prod.fst ++ lost ∧
    (lost ≠ [] → σ.failed = true ∧ unread σ ≠ [])

/-- A session between its steps. -/
structure Sound (c : ThreadId) (σ : Connection) : Prop where
  reachable : ServerReachable σ.server
  heard : Heard σ σ.listening
  handed : σ.asked.map Prod.fst = σ.received.filter (· ≠ exitCommand)
  owed : Owed (σ.asked.map Prod.snd) (finals σ.server.world c) (σ.server.world.clients c).pc
  fresh : σ.server.world.nextThread ≤ c → σ.asked = []
  nodup : (σ.asked.map Prod.snd).Nodup
  allocated : ∀ k ∈ σ.asked.map Prod.snd, k < σ.server.sched.allocated

section Steps
variable {c : ThreadId} {σ σ' : Connection} {a : ServerAction} {request : Request}

theorem sound_init (input : Bytes) : Sound c (sessionInit input) where
  reachable := Reaches.refl _
  heard := heard_init input
  handed := rfl
  owed := List.prefix_rfl
  fresh _ := rfl
  nodup := List.nodup_nil
  allocated _ hk := by cases hk

/-- Steps of the client and of `recv` change nothing but what the thread hears. -/
theorem Sound.hears (h : Sound c σ) (hs : σ'.server = σ.server) (ha : σ'.asked = σ.asked)
    (hr : σ'.received = σ.received) (hh : Heard σ' σ'.listening) : Sound c σ' where
  reachable := hs ▸ h.reachable
  heard := hh
  handed := by rw [ha,hr]; exact h.handed
  owed := by rw [ha,hs]; exact h.owed
  fresh hc := by rw [ha]; exact h.fresh (hs ▸ hc)
  nodup := ha ▸ h.nodup
  allocated := by rw [ha,hs]; exact h.allocated

theorem Sound.move (h : Sound c σ) (hm : ClientMove σ σ') : Sound c σ' := by
  have hs := hm.sameThread
  refine h.hears hs.server hs.asked hs.received ?_
  rw [hs.listening]
  exact h.heard.move hm

/-- A step of the server that is no command of the thread and not the end of its connection. -/
theorem Sound.server (h : Sound c σ) {server : State TaskLinks}
    (hr : ∀ request, a ≠ .request c request) (hh : a ≠ .hangup c)
    (he : serverStep σ.server a = some server) : Sound c { σ with server := server } := by
  have hconv := serverReachable_conversing h.reachable
  have hgrows := serverStep_grows he
  exact {
    reachable := h.reachable.tail he
    heard := h.heard.server server
    handed := h.handed
    owed := h.owed.step (serverStep_thread hconv hr hh he) (fun k hk => (hconv.mine c k hk).2)
      (fun hc => by rw [h.fresh hc.ge]; rfl)
    fresh := fun hc => h.fresh (hgrows.1.trans hc)
    nodup := h.nodup
    allocated := fun k hk => (h.allocated k hk).trans_le hgrows.2 }

/-- The thread leaves its loop, for good or for the farewell, and is handed no task. -/
theorem Sound.away (h : Sound c σ) {server : State TaskLinks} {pc : ClientPc}
    (he : serverStep σ.server a = some server)
    (hset : server = { σ.server with world := setPc σ.server.world c pc })
    (hpc : ∀ asked done, done <+: asked → Owed asked done pc) (hs : σ'.server = server)
    (ha : σ'.asked = σ.asked) (hr : σ'.received.filter (· ≠ exitCommand) =
      σ.received.filter (· ≠ exitCommand)) (hh : Heard σ' σ'.listening) : Sound c σ' := by
  have hgrows := serverStep_grows he
  have hfinals : finals server.world c = finals σ.server.world c := by rw [hset]; rfl
  have hnow : (server.world.clients c).pc = pc := by
    rw [hset]
    simp [setPc]
  refine ⟨hs ▸ h.reachable.tail he,hh,?_,?_,fun hc => ?_,ha ▸ h.nodup,?_⟩
  · rw [ha,hr]
    exact h.handed
  · rw [ha,hs,hfinals,hnow]
    exact hpc _ _ h.owed.prefix_of
  · rw [ha]
    exact h.fresh (hgrows.1.trans (hs ▸ hc))
  · rw [ha,hs]
    exact fun k hk => (h.allocated k hk).trans_le hgrows.2

/-- Any other command becomes a task that the thread owes an answer. -/
theorem Sound.task (h : Sound c σ) {server : State TaskLinks} {command : Bytes}
    (he : serverStep σ.server (.request c request) = some server)
    (ht : TaskAsked c σ.server server) (hne : command ≠ exitCommand) (hs : σ'.server = server)
    (ha : σ'.asked = σ.asked ++ [(command,σ.server.sched.allocated)])
    (hr : σ'.received = σ.received ++ [command]) (hh : Heard σ' σ'.listening) : Sound c σ' := by
  have hconv := serverReachable_conversing h.reachable
  have hgrows := serverStep_grows he
  have hlive : c < σ.server.world.nextThread := hconv.live c (by rw [ht.receiving]; simp)
  have hcontexts : σ'.asked.map Prod.snd = σ.asked.map Prod.snd ++ [σ.server.sched.allocated] := by
    rw [ha]
    simp
  have hfinals : finals server.world c = σ.asked.map Prod.snd := by
    have hlog : server.world.log = [] ++ σ.server.world.log := ht.log
    have howed := h.owed
    rw [ht.receiving] at howed
    rw [finals_same hlog (fun k hk => ?_) (fun k hk => by cases hk)]
    · exact howed
    · rw [ht.owner,Function.update_of_ne (hconv.answered k hk).ne]
  have hnew : σ.server.sched.allocated ∉ σ.asked.map Prod.snd :=
    fun hm => lt_irrefl _ (h.allocated _ hm)
  refine ⟨hs ▸ h.reachable.tail he,hh,?_,?_,?_,?_,?_⟩
  · rw [ha,hr,List.filter_append,← h.handed]
    simp [hne]
  · rw [hcontexts,hs,hfinals,ht.waiting]
    rfl
  · intro hc
    rw [hs] at hc
    exact (hlive.not_ge (hgrows.1.trans hc)).elim
  · rw [hcontexts]
    exact h.nodup.append (List.nodup_singleton _) (List.disjoint_singleton.mpr hnew)
  · intro k hk
    rw [hcontexts] at hk
    rw [hs,ht.allocated]
    rcases List.mem_append.mp hk with hk | hk
    · exact (h.allocated k hk).trans (Nat.lt_succ_self _)
    · rw [List.mem_singleton.mp hk]
      exact Nat.lt_succ_self _

theorem Sound.command (h : Sound c σ) (he : sessionStep c σ (.command request) = some σ') :
    Sound c σ' := by
  simp only [sessionStep] at he
  split at he
  · rename_i result command hl
    split at he
    · rename_i hif
      obtain ⟨hpos,hfits⟩ := hif
      obtain ⟨server,hserver,rfl⟩ := Option.map_eq_some_iff.mp he
      have hheard : Returned σ result command := by
        have hh := h.heard
        rwa [hl] at hh
      have hnext := fun σ' hr hs hu hm => @heard_command σ σ' result command hheard hpos hr hs hu hm
      cases request with
      | exit =>
        have hexit : command = exitCommand := hfits
        refine h.away hserver (serverStep_exit hserver).2 (fun _ _ hp => hp) rfl (if_pos hexit) ?_
          (hnext _ rfl rfl rfl rfl)
        simp [hexit]
      | program text argv iterations =>
        exact h.task hserver (serverStep_asks rfl hserver) hfits.1 rfl (if_neg hfits.1) rfl
          (hnext _ rfl rfl rfl rfl)
      | shell text =>
        exact h.task hserver (serverStep_asks rfl hserver) hfits.1 rfl (if_neg hfits.1) rfl
          (hnext _ rfl rfl rfl rfl)
      | unavailable => cases hfits
    · cases he
  · cases he

theorem recv_kept {x : SessionAction} (hx : x = .recv ∨ x = .recvFails)
    (he : sessionStep c σ x = some σ') :
    σ'.server = σ.server ∧ σ'.asked = σ.asked ∧ σ'.received = σ.received := by
  rcases hx with rfl | rfl <;> simp only [sessionStep] at he
  · split at he
    · obtain rfl := Option.some.inj he
      exact ⟨rfl,rfl,rfl⟩
    · split at he
      · obtain rfl := Option.some.inj he
        exact ⟨rfl,rfl,rfl⟩
      · cases he
    · cases he
  · split at he
    · obtain rfl := Option.some.inj he
      exact ⟨rfl,rfl,rfl⟩
    · cases he

theorem Sound.step (h : Sound c σ) {x : SessionAction} (hl : leavesCommand σ x = true)
    (he : sessionStep c σ x = some σ') : Sound c σ' := by
  cases x with
  | read => exact h.move (clientMove_read hl he)
  | push more => exact h.move (clientMove_push he)
  | reply => exact h.move (clientMove_reply he)
  | quit => exact h.move (.ended (Option.some.inj he).symm)
  | recv =>
    obtain ⟨hs,ha,hr⟩ := recv_kept (Or.inl rfl) he
    exact h.hears hs ha hr (heard_recv h.heard he)
  | recvFails =>
    obtain ⟨hs,ha,hr⟩ := recv_kept (Or.inr rfl) he
    exact h.hears hs ha hr (heard_recvFails h.heard he)
  | command request => exact h.command he
  | disconnect =>
    simp only [sessionStep] at he
    split at he
    · split at he
      · obtain ⟨server,hserver,rfl⟩ := Option.map_eq_some_iff.mp he
        exact h.away hserver (serverStep_hangup hserver).2 (fun _ _ hp => hp) rfl rfl rfl trivial
      · cases he
    · cases he
  | peekFails =>
    obtain ⟨server,hserver,rfl⟩ := Option.map_eq_some_iff.mp he
    exact h.server (fun _ hx => by cases hx) (fun hx => by cases hx) hserver
  | server a =>
    simp only [sessionStep] at he
    split at he
    · rename_i hfree
      obtain ⟨server,hserver,rfl⟩ := Option.map_eq_some_iff.mp he
      refine h.server (fun request hx => ?_) (fun hx => ?_) hserver
      · simp [hx,free] at hfree
      · simp [hx,free] at hfree
    · cases he

theorem Sound.endsForReason (h : Sound c σ) (he : sessionStep c σ .disconnect = some σ') :
    EndsForReason c σ := by
  simp only [sessionStep] at he
  split at he
  · rename_i result text hl
    split at he
    · rename_i hle
      obtain ⟨server,hserver,_⟩ := Option.map_eq_some_iff.mp he
      have hfinals : finals σ.server.world c = σ.asked.map Prod.snd := by
        have howed := h.owed
        rwa [(serverStep_hangup hserver).1] at howed
      have hheard := h.heard
      rw [hl] at hheard
      cases hheard with
      | command hpos => exact (hle.not_gt hpos).elim
      | ended _ hclosed hu hsent =>
        refine ⟨Or.inl ⟨hclosed,hu⟩,⟨hfinals,h.nodup⟩,[],?_,fun hne => (hne rfl).elim⟩
        rw [hsent,h.handed,List.append_nil]
      | @failed commands part _ hfailed hst =>
        refine ⟨Or.inr hfailed,⟨hfinals,h.nodup⟩,
          (commands.map Command.bytes).filter (· ≠ exitCommand),?_,fun hne => ⟨hfailed,?_⟩⟩
        · rw [hst.sent,List.filter_append,h.handed]
        · -- a command that is lost is still on the way
          intro hnil
          have hunread : unread σ = wire commands ++ part := by
            rw [← hst.bytes]
            simp only [unread,hl]
          have hwire : wire commands = [] := (List.append_eq_nil_iff.mp (hunread ▸ hnil)).1
          cases commands with
          | nil => exact hne rfl
          | cons command left => simp [wire,commandBytes] at hwire
    · cases he
  · cases he

/-- Whatever is typed and sent piece by piece, the thread takes the branch "client
disconnected" for a reason in each run in which every line leaves a command with room in the
buffer. -/
theorem session_endsForReason {input : Bytes}
    (h : Reaches (FiresIf (fun σ a => leavesCommand σ a = true) (sessionStep c))
      (sessionInit input) σ)
    (he : sessionStep c σ .disconnect = some σ') : EndsForReason c σ := by
  have hsound : Sound c σ := h.invariant (fun _ _ _ hs ht => hs.step ht.1 ht.2) (sound_init input)
  exact hsound.endsForReason he

end Steps

section Runs

/-- "ls" is typed, run and answered, and the input ends. -/
def listRun : List SessionAction :=
  [.server (.accept 4),.read,.push 0,.push 5,.recv,.recv,.recv,.command (.shell ['l','s']),
    .server .enter,.server (.exec .go),
    .server (.exec (.shellRun true false (some ['a']) true)),.server (.exec .go),
    .server (.exec .go),.server .finish,.server (.poll 0),.server (.fetch 0),
    .server (.send 0 true),.server (.send 0 true),.server (.send 0 true),.reply,
    .server (.checkIdle 0),.server (.print 0),.server (.release 0),.read,.recv]

theorem listRun_endsForReason : ∃ σ,
    Reaches (FiresIf (fun σ a => leavesCommand σ a = true) (sessionStep 0))
      (sessionInit [108,115,10]) σ ∧
    σ.sent = [[108,115]] ∧ EndsForReason 0 σ := by
  obtain ⟨σ,he⟩ := Option.isSome_iff_exists.mp (show (exec
    (guarded (fun σ a => leavesCommand σ a = true) (sessionStep 0)) (sessionInit [108,115,10])
    listRun).isSome = true from rfl)
  have hreach := reaches_of_guarded he
  have hdone : σ.sent = [[108,115]] ∧ (sessionStep 0 σ .disconnect).isSome = true := by
    cases he
    exact ⟨rfl,rfl⟩
  obtain ⟨σ',hleft⟩ := Option.isSome_iff_exists.mp hdone.2
  exact ⟨σ,hreach,hdone.1,session_endsForReason hreach hleft⟩

/-- An empty line is sent as the empty command, whose length is the sign of the end of the
stream. -/
theorem emptyLine_endsWithoutReason : ¬ ∀ σ σ' : Connection,
    Reaches (Fires (sessionStep 0)) (sessionInit [10]) σ →
    sessionStep 0 σ .disconnect = some σ' → EndsForReason 0 σ := by
  intro h
  obtain ⟨σ,he⟩ := Option.isSome_iff_exists.mp (show (exec (sessionStep 0) (sessionInit [10])
    [.server (.accept 4),.read,.push 0,.recv]).isSome = true from rfl)
  have hstate : (σ.main ≠ .closed ∧ σ.failed = false) ∧
      (sessionStep 0 σ .disconnect).isSome = true := by
    cases he
    exact ⟨⟨by decide,rfl⟩,rfl⟩
  obtain ⟨σ',hleft⟩ := Option.isSome_iff_exists.mp hstate.2
  rcases (h σ σ' (reaches_of_exec he) hleft).reason with ⟨hclosed,_⟩ | hfailed
  · exact hstate.1.1 hclosed
  · rw [hstate.1.2] at hfailed
    cases hfailed

end Runs

end UnixShell.Session
