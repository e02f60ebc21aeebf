import UnixShell.Session.Reasons
import UnixShell.Server.Transcripts

/-! # One command at a time

The client sends a command and waits for its final packet, the thread receives a command
and answers it. Neither counts what it has sent or received: that the replies belong to the
commands, and that the two never wait for each other, follows from the run alone.
-/
namespace UnixShell.Session
open Foundation Scheduler Server
open UnixShell.Protocol (Bytes)

/-- The commands that the client has sent, from where it stands and the replies it has had. -/
def Counted (sent replies : ℕ) : ClientMain → Prop
  | .prompt | .sending _ _ => sent = replies
  | .awaiting => sent = replies + 1
  | .closed => sent ≤ replies + 1

/-- The thread has not been handed "exit", or leaves its loop for it. -/
inductive Handed (c : ThreadId) (σ : Connection) : Prop
  | asking : σ.received = σ.asked.map Prod.fst →
      pieces (farewellOn c) σ.server.world.log = [] →
      (∀ rest, (σ.server.world.clients c).pc ≠ .farewell rest) → Handed c σ
  | exited : σ.received = σ.asked.map Prod.fst ++ [exitCommand] →
      c < σ.server.world.nextThread → (σ.server.world.clients c).pc.left = true → Handed c σ

/-- A session between its steps, counted. -/
structure Alternating (c : ThreadId) (σ : Connection) : Prop where
  sound : Sound c σ
  row : σ.received <+: σ.sent
  counted : Counted σ.sent.length σ.replies σ.main
  replied : σ.replies ≤ finalPackets c σ.server.world
  handed : Handed c σ

section Finals
variable {c : ThreadId} {s s' : State TaskLinks} {a : ServerAction}

theorem serverStep_appends (he : serverStep s a = some s') :
    ∃ new, s'.world.log = new ++ s.world.log := by
  cases serverStep_client he with
  | quiet _ _ _ _ _ hl =>
    obtain ⟨new,hlog,_⟩ := hl
    exact ⟨new,hlog⟩
  | turn _ _ _ _ _ _ hl => exact ⟨_,hl⟩
  | accept _ _ _ _ _ _ _ hl | submit _ _ _ _ _ _ _ hl | close _ _ _ _ _ _ hl => exact ⟨[],hl⟩

/-- A final packet is never taken back. -/
theorem serverStep_finalPackets (h : ServerReachable s) (he : serverStep s a = some s') :
    finalPackets c s.world ≤ finalPackets c s'.world := by
  obtain ⟨new,hlog⟩ := serverStep_appends he
  have hfinals : finals s'.world c = finals s.world c ++ _ := finals_append hlog fun k hk =>
    client_owner (serverStep_client he) ((serverReachable_conversing h).answered k hk)
  rw [finalPackets,finalPackets,hfinals,hlog,List.length_append,List.countP_append]
  omega

/-- The part of a farewell that ends a packet. -/
def Piece.isSize : Piece → Bool
  | .size _ => true
  | _ => false

theorem finalPackets_eq (c : ThreadId) (w : World) : finalPackets c w =
    (finals w c).length + (pieces (farewellOn c) w.log).countP Piece.isSize := by
  rw [finalPackets,pieces,List.countP_filterMap,List.countP_reverse]
  refine congrArg _ (List.countP_congr fun e _ => ?_)
  cases e with
  | farewell connection piece =>
    by_cases hc : connection = c <;> cases piece <;> simp [farewellOn,hc,Piece.isSize]
  | _ => exact Iff.rfl

/-- At most one final packet is no answer. -/
theorem finalPackets_le (h : Parted s) :
    finalPackets c s.world ≤ (finals s.world c).length + 1 := by
  rw [finalPackets_eq]
  exact Nat.add_le_add_left ((h.parting c).prefix_of.sublist.countP_le) _

theorem finalPackets_unparted (h : pieces (farewellOn c) s.world.log = []) :
    finalPackets c s.world = (finals s.world c).length := by
  rw [finalPackets_eq,h]
  rfl

end Finals

section Steps
variable {c : ThreadId} {σ σ' : Connection} {a : ServerAction}

theorem Handed.same (h : Handed c σ) (hs : σ'.server = σ.server) (ha : σ'.asked = σ.asked)
    (hr : σ'.received = σ.received) : Handed c σ' := by
  cases h with
  | asking hrow hnone hpc => exact .asking (by rw [hr,ha,hrow]) (by rw [hs,hnone]) (hs ▸ hpc)
  | exited hrow hlt hleft => exact .exited (by rw [hr,ha,hrow]) (hs ▸ hlt) (hs ▸ hleft)

/-- A thread that is handed nothing neither begins nor takes back its farewell. -/
theorem Handed.server (h : Handed c σ) (hreach : ServerReachable σ.server)
    {server : State TaskLinks} (hr : ∀ request, a ≠ .request c request)
    (hh : a ≠ .hangup c) (he : serverStep σ.server a = some server) :
    Handed c { σ with server := server } := by
  have hthread := serverStep_thread (serverReachable_conversing hreach) hr hh he
  cases h with
  | asking hrow hnone hpc =>
    refine .asking hrow ?_ fun rest hp => ?_
    · cases serverStep_parts hreach.live he c with
      | kept hsame _ => exact hsame.trans hnone
      | written hp => exact (hpc _ hp).elim
    · change (server.world.clients c).pc = .farewell rest at hp
      cases hthread with
      | kept hkept => exact hpc rest (hkept.symm.trans hp)
      | connected _ hc => cases hc.symm.trans hp
      | turned hne hshift hturn =>
        rcases shift_exits hshift (hturn.symm.trans hp) with ⟨done,hd⟩ | ⟨hd,_⟩
        · exact hpc done hd
        · exact hne hd
      | closed hgone => cases hgone.symm.trans hp
  | exited hrow hlt hleft =>
    refine .exited hrow (hlt.trans_le (serverStep_grows he).1) ?_
    change (server.world.clients c).pc.left = true
    cases hthread with
    | kept hkept => rw [hkept,hleft]
    | connected hc => exact (hlt.ne hc).elim
    | turned _ hshift hturn => rw [hturn,shift_left hshift hleft]
    | closed hgone => rw [hgone]; rfl

/-- The thread that is in its loop has been handed commands and no "exit". -/
theorem Handed.of_receiving (h : Handed c σ) (hp : (σ.server.world.clients c).pc = .receiving) :
    σ.received = σ.asked.map Prod.fst ∧ pieces (farewellOn c) σ.server.world.log = [] := by
  cases h with
  | asking hrow hnone _ => exact ⟨hrow,hnone⟩
  | exited _ _ hleft =>
    rw [hp] at hleft
    cases hleft

theorem alternating_init (input : Bytes) : Alternating c (sessionInit input) where
  sound := sound_init input
  row := List.nil_prefix
  counted := rfl
  replied := Nat.zero_le _
  handed := .asking rfl rfl fun _ hp => by cases hp

/-- What the client does, the thread does not see. -/
theorem Alternating.move (h : Alternating c σ) (hsound : Sound c σ') (hm : ClientMove σ σ')
    (hr : σ'.replies ≤ finalPackets c σ.server.world) : Alternating c σ' := by
  have hs := hm.sameThread
  refine ⟨hsound,?_,?_,hs.server ▸ hr,h.handed.same hs.server hs.asked hs.received⟩
  · rw [hs.received]
    cases hm with
    | pushedAll _ he => exact he ▸ h.row.trans (List.prefix_append _ _)
    | ended he | typed _ _ _ _ he | pushed _ _ he | replied _ he => exact he ▸ h.row
  · have hc := h.counted
    cases hm with
    | ended he =>
      subst he
      cases hp : σ.main <;> rw [hp] at hc <;> simp only [Counted] at hc ⊢ <;> omega
    | typed hp _ _ _ he =>
      subst he
      rw [hp] at hc
      exact hc
    | pushed hp _ he =>
      subst he
      rw [hp] at hc
      exact hc
    | pushedAll hp he =>
      subst he
      rw [hp] at hc
      simpa [Counted] using hc
    | replied hp he =>
      subst he
      rw [hp] at hc
      exact hc

/-- The client and its commands are left alone. -/
theorem recv_client {x : SessionAction} (hx : x = .recv ∨ x = .recvFails)
    (he : sessionStep c σ x = some σ') :
    σ'.sent = σ.sent ∧ σ'.main = σ.main ∧ σ'.replies = σ.replies := by
  rcases hx with rfl | rfl <;> simp only [sessionStep] at he
  · split at he
    · obtain rfl := Option.some.inj he
      exact ⟨rfl,rfl,rfl⟩
    · split at he
      · obtain rfl := Option.some.inj he
        exact ⟨rfl,rfl,rfl⟩
      · cases he
    · cases he
  · split at he
    · obtain rfl := Option.some.inj he
      exact ⟨rfl,rfl,rfl⟩
    · cases he

theorem Alternating.recv (h : Alternating c σ) {x : SessionAction}
    (hx : x = .recv ∨ x = .recvFails) (hsound : Sound c σ')
    (he : sessionStep c σ x = some σ') : Alternating c σ' := by
  obtain ⟨hserver,hasked,hreceived⟩ := recv_kept hx he
  obtain ⟨hsent,hmain,hreplies⟩ := recv_client hx he
  exact {
    sound := hsound
    row := by rw [hreceived,hsent]; exact h.row
    counted := by rw [hsent,hreplies,hmain]; exact h.counted
    replied := by rw [hreplies,hserver]; exact h.replied
    handed := h.handed.same hserver hasked hreceived }

/-- A step of the server that hands nothing to the thread. -/
theorem Alternating.server (h : Alternating c σ) {server : State TaskLinks}
    (hsound : Sound c { σ with server := server }) (hr : ∀ request, a ≠ .request c request)
    (hh : a ≠ .hangup c) (he : serverStep σ.server a = some server) :
    Alternating c { σ with server := server } where
  sound := hsound
  row := h.row
  counted := h.counted
  replied := h.replied.trans (serverStep_finalPackets h.sound.reachable he)
  handed := h.handed.server h.sound.reachable hr hh he

/-- The command that the thread is handed is the next one that was sent. -/
theorem Alternating.command (h : Alternating c σ) {request : Request} (hsound : Sound c σ')
    (he : sessionStep c σ (.command request) = some σ') : Alternating c σ' := by
  simp only [sessionStep] at he
  split at he
  · rename_i result command hl
    split at he
    · rename_i hif
      obtain ⟨hpos,hfits⟩ := hif
      obtain ⟨server,hserver,rfl⟩ := Option.map_eq_some_iff.mp he
      have hheard : Returned σ result command := by
        have hh := h.sound.heard
        rwa [hl] at hh
      have hrow : σ.received ++ [command] <+: σ.sent := by
        cases hheard with
        | command _ hst => exact ⟨_,hst.sent.symm⟩
        | ended hle => exact (hle.not_gt hpos).elim
        | failed hle => exact (hle.not_gt hpos).elim
      have hreplied := h.replied.trans (serverStep_finalPackets h.sound.reachable hserver)
      refine ⟨hsound,hrow,h.counted,hreplied,?_⟩
      have htask : command ≠ exitCommand → TaskAsked c σ.server server → Handed c { σ with
          server := server
          listening := .reading []
          received := σ.received ++ [command]
          asked := if command = exitCommand then σ.asked
            else σ.asked ++ [(command,σ.server.sched.allocated)] } := by
        intro hne ht
        obtain ⟨hreceived,hnone⟩ := h.handed.of_receiving ht.receiving
        refine .asking ?_ (ht.log ▸ hnone) fun rest hp => ?_
        · simp [hne,hreceived]
        · cases ht.waiting.symm.trans hp
      cases request with
      | exit =>
        obtain rfl : command = exitCommand := hfits
        obtain ⟨hp,rfl⟩ := serverStep_exit hserver
        refine .exited ?_ (h.sound.reachable.live c (by rw [hp]; simp)).1 ?_
        · simp [(h.handed.of_receiving hp).1]
        · simp [setPc,ClientPc.left]
      | program text argv iterations => exact htask hfits.1 (serverStep_asks rfl hserver)
      | shell text => exact htask hfits.1 (serverStep_asks rfl hserver)
      | unavailable => cases hfits
    · cases he
  · cases he

theorem Alternating.disconnect (h : Alternating c σ) (hsound : Sound c σ')
    (he : sessionStep c σ .disconnect = some σ') : Alternating c σ' := by
  simp only [sessionStep] at he
  split at he
  · split at he
    · obtain ⟨server,hserver,rfl⟩ := Option.map_eq_some_iff.mp he
      have hreplied := h.replied.trans (serverStep_finalPackets h.sound.reachable hserver)
      refine ⟨hsound,h.row,h.counted,hreplied,?_⟩
      obtain ⟨hp,rfl⟩ := serverStep_hangup hserver
      obtain ⟨hreceived,hnone⟩ := h.handed.of_receiving hp
      refine .asking hreceived hnone fun rest hp => ?_
      simp [setPc] at hp
    · cases he
  · cases he

theorem Alternating.step (h : Alternating c σ) {x : SessionAction}
    (hl : leavesCommand σ x = true) (he : sessionStep c σ x = some σ') : Alternating c σ' := by
  have hsound := h.sound.step hl he
  cases x with
  | read =>
    refine h.move hsound (clientMove_read hl he) ?_
    simp only [sessionStep] at he
    split at he
    · split at he <;> obtain rfl := Option.some.inj he <;> exact h.replied
    · cases he
  | push more =>
    refine h.move hsound (clientMove_push he) ?_
    simp only [sessionStep] at he
    split at he
    · split at he <;> obtain rfl := Option.some.inj he <;> exact h.replied
    · cases he
  | reply =>
    refine h.move hsound (clientMove_reply he) ?_
    simp only [sessionStep] at he
    split at he
    · split at he
      · rename_i hlt
        obtain rfl := Option.some.inj he
        exact hlt
      · cases he
    · cases he
  | quit =>
    refine h.move hsound (.ended (Option.some.inj he).symm) ?_
    obtain rfl := Option.some.inj he
    exact h.replied
  | recv => exact h.recv (Or.inl rfl) hsound he
  | recvFails => exact h.recv (Or.inr rfl) hsound he
  | command request => exact h.command hsound he
  | disconnect => exact h.disconnect hsound he
  | peekFails =>
    obtain ⟨server,hserver,rfl⟩ := Option.map_eq_some_iff.mp he
    exact h.server hsound (fun _ hx => by cases hx) (fun hx => by cases hx) hserver
  | server a =>
    simp only [sessionStep] at he
    split at he
    · rename_i hfree
      obtain ⟨server,hserver,rfl⟩ := Option.map_eq_some_iff.mp he
      refine h.server hsound (fun request hx => ?_) (fun hx => ?_) hserver
      · simp [hx,free] at hfree
      · simp [hx,free] at hfree
    · cases he

end Steps

section Alternation
variable {c : ThreadId} {σ : Connection}

/-- One command is open at most. The thread is handed the commands in the order in which they
were sent, and answers them in that order. -/
structure StopAndWait (c : ThreadId) (σ : Connection) : Prop where
  row : σ.received <+: σ.sent
  oneOpen : σ.sent.length ≤ σ.replies + 1
  due : σ.replies ≤ finalPackets c σ.server.world
  owed : finalPackets c σ.server.world ≤ σ.received.length
  order : σ.sent.zip (finals σ.server.world c) <+: σ.asked
  /-- Where the thread waits for a command and none is on the way, the client that waits has its
  final packet. -/
  alive : σ.main = .awaiting → (σ.server.world.clients c).pc = .receiving →
    (∃ buffer, σ.listening = .reading buffer) → σ.upstream = [] →
    σ.replies < finalPackets c σ.server.world

theorem zip_take {α β : Type*} {pairs : List (α × β)} {before : List α} {after : List β}
    (hb : pairs.map Prod.fst <+: before) (ha : after <+: pairs.map Prod.snd) :
    before.zip after <+: pairs := by
  obtain ⟨rest,rfl⟩ := hb
  have htake : after = (pairs.take after.length).map Prod.snd := by
    rw [List.map_take]
    exact List.prefix_iff_eq_take.mp ha
  have hsplit : pairs.map Prod.fst ++ rest =
      (pairs.take after.length).map Prod.fst ++
        ((pairs.drop after.length).map Prod.fst ++ rest) := by
    rw [← List.append_assoc,← List.map_append,List.take_append_drop]
  have hzip : (pairs.map Prod.fst ++ rest).zip after = pairs.take after.length := by
    calc (pairs.map Prod.fst ++ rest).zip after
        = ((pairs.take after.length).map Prod.fst ++
            ((pairs.drop after.length).map Prod.fst ++ rest)).zip
            ((pairs.take after.length).map Prod.snd ++ []) := by
          rw [List.append_nil,← hsplit,← htake]
      _ = pairs.take after.length := by
          rw [List.zip_append (by simp),List.zip_nil_right,List.append_nil,List.zip_map']
          exact List.map_id _
  rw [hzip]
  exact List.take_prefix _ _

theorem Alternating.stopAndWait (h : Alternating c σ) : StopAndWait c σ := by
  have hreach := h.sound.reachable
  have hpre := h.sound.owed.prefix_of
  have hfinals : (finals σ.server.world c).length ≤ σ.asked.length := by
    simpa using hpre.length_le
  have hcommands : σ.asked.map Prod.fst <+: σ.received := by
    cases h.handed with
    | asking hrow => rw [hrow]
    | exited hrow => exact ⟨_,hrow.symm⟩
  refine ⟨h.row,?_,h.replied,?_,zip_take (hcommands.trans h.row) hpre,?_⟩
  · have hc := h.counted
    cases hp : σ.main <;> rw [hp] at hc <;> simp only [Counted] at hc <;> omega
  · cases h.handed with
    | asking hrow hnone =>
      rw [finalPackets_unparted hnone,hrow,List.length_map]
      exact hfinals
    | exited hrow =>
      rw [hrow,List.length_append,List.length_map]
      exact (finalPackets_le (serverReachable_parted hreach)).trans (Nat.add_le_add_right hfinals 1)
  · rintro hmain hp ⟨buffer,hl⟩ hu
    obtain ⟨hrow,hnone⟩ := h.handed.of_receiving hp
    have hsent : σ.sent = σ.received := by
      have hheard := h.sound.heard
      rw [hl] at hheard
      obtain ⟨hnul,_,commands,part,hst⟩ := hheard
      have hbytes := hst.bytes
      rw [hu,List.append_nil] at hbytes
      rw [hst.sent,wire_eq_nil hnul hbytes,List.map_nil,List.append_nil]
    have hanswered : finals σ.server.world c = σ.asked.map Prod.snd := by
      have howed := h.sound.owed
      rwa [hp] at howed
    have hcounted : σ.sent.length = σ.replies + 1 := by
      have hc := h.counted
      rwa [hmain] at hc
    rw [finalPackets_unparted hnone,hanswered,List.length_map]
    rw [hsent,hrow,List.length_map] at hcounted
    exact hcounted.ge

/-- Whatever else the server does, and however the bytes are cut. -/
theorem session_alternates {input : Bytes}
    (h : Reaches (FiresIf (fun σ a => leavesCommand σ a = true) (sessionStep c))
      (sessionInit input) σ) : StopAndWait c σ := by
  have halt : Alternating c σ :=
    h.invariant (fun _ _ _ hs ht => hs.step ht.1 ht.2) (alternating_init input)
  exact halt.stopAndWait

/-- The thread is back in `recv_command` before the client has read the answer. -/
def answeredRun : List SessionAction :=
  listRun.take 19 ++ [.server (.checkIdle 0),.server (.print 0),.server (.release 0)]

theorem session_alternates_answeredRun : ∃ σ,
    Reaches (FiresIf (fun σ a => leavesCommand σ a = true) (sessionStep 0))
      (sessionInit [108,115,10]) σ ∧
    σ.main = .awaiting ∧ σ.listening = .reading [] ∧ StopAndWait 0 σ ∧
      σ.replies < finalPackets 0 σ.server.world := by
  obtain ⟨σ,he⟩ := Option.isSome_iff_exists.mp (show (exec
    (guarded (fun σ a => leavesCommand σ a = true) (sessionStep 0)) (sessionInit [108,115,10])
    answeredRun).isSome = true from rfl)
  have hreach := reaches_of_guarded he
  have hstate : σ.main = .awaiting ∧ (σ.server.world.clients 0).pc = .receiving ∧
      σ.listening = .reading [] ∧ σ.upstream = [] := by
    cases he
    exact ⟨rfl,rfl,rfl,rfl⟩
  have hwait := session_alternates hreach
  exact ⟨σ,hreach,hstate.1,hstate.2.2.1,hwait,
    hwait.alive hstate.1 hstate.2.1 ⟨[],hstate.2.2.1⟩ hstate.2.2.2⟩

end Alternation

end UnixShell.Session
