import UnixShell.Server.Answers
import UnixShell.Server.Connections
import UnixShell.Server.Dialogue

/-! # Everything that one connection carries

Two threads write to a connection without a lock: the executor sends progress packets, the
client thread sends answers. As long as no number of a kept socket is given away and no
context is marked before its last round, their calls of `send_all` do not mix: a connection
carries the packets of its first command, then those of its second, and so on, and its
farewell behind them.
-/
namespace UnixShell.Server
open Foundation Scheduler

/-- The connection that an event writes to. -/
def ServerEvent.connection : ServerEvent → Option ThreadId
  | .progress connection _ _ | .answer connection _ _ | .farewell connection _ => some connection
  | _ => none

def ServerEvent.piece : ServerEvent → Option Piece
  | .progress _ _ piece | .answer _ _ piece | .farewell _ piece => some piece
  | _ => none

/-- What an event writes to the connection of a thread. -/
def sentOn (c : ThreadId) (e : ServerEvent) : Option Piece :=
  if e.connection = some c then e.piece else none

def farewellOn (c : ThreadId) : ServerEvent → Option Piece
  | .farewell connection piece => if connection = c then some piece else none
  | _ => none

/-- The tasks that a thread has asked for, in order. -/
def asked (w : World) (n : ℕ) (c : ThreadId) : List ContextRef :=
  (List.range n).filter fun k => w.owner k = c

/-- The pieces written for the tasks of a thread, one task after the other. -/
def carried (w : World) (n : ℕ) (c : ThreadId) : List Piece :=
  (asked w n c).flatMap fun k => pieces (sentFor k) w.log

section Asked
variable {w w' : World} {n k : ℕ} {c : ThreadId} {x : List Piece}

@[simp] theorem mem_asked : k ∈ asked w n c ↔ k < n ∧ w.owner k = c := by
  simp [asked]

/-- A task with no later one of its thread stands last. -/
theorem asked_last (hk : k < n) (ho : w.owner k = c) (hl : ∀ j < n, w.owner j = c → j ≤ k) :
    asked w n c = asked w k c ++ [k] := by
  obtain ⟨m,rfl⟩ := Nat.exists_eq_add_of_lt hk
  have hrest : ((List.range m).map (k + 1 + ·)).filter (fun j => w.owner j = c) = [] := by
    apply List.filter_eq_nil_iff.mpr
    intro j hj hc
    obtain ⟨i,hi,rfl⟩ := List.mem_map.mp hj
    have hi := List.mem_range.mp hi
    have hle : k + 1 + i ≤ k := hl (k + 1 + i) (by omega) (of_decide_eq_true hc)
    omega
  rw [asked,show k + m + 1 = k + 1 + m by omega,List.range_add,List.filter_append,hrest,
    List.append_nil,List.range_succ,List.filter_append,asked]
  simp [ho]

theorem asked_succ : asked w (n + 1) c = asked w n c ++ if w.owner n = c then [n] else [] := by
  rw [asked,List.range_succ,List.filter_append,asked]
  simp [List.filter_cons]

theorem asked_congr (h : ∀ j < n, w'.owner j = w.owner j) : asked w' n c = asked w n c := by
  apply List.filter_congr
  intro j hj
  rw [h j (List.mem_range.mp hj)]

/-- What is written for the last task comes behind everything else. -/
theorem carried_grow (hk : k < n) (ho : w.owner k = c) (hl : ∀ j < n, w.owner j = c → j ≤ k)
    (hown : w'.owner = w.owner) (hx : pieces (sentFor k) w'.log = pieces (sentFor k) w.log ++ x)
    (hother : ∀ j, j ≠ k → pieces (sentFor j) w'.log = pieces (sentFor j) w.log) :
    carried w' n c = carried w n c ++ x := by
  have hasked : asked w' n c = asked w n c := asked_congr fun j _ => by rw [hown]
  have hold : (asked w k c).flatMap (fun j => pieces (sentFor j) w'.log) =
      (asked w k c).flatMap fun j => pieces (sentFor j) w.log :=
    List.flatMap_congr fun j hj => hother j (mem_asked.mp hj).1.ne
  rw [carried,carried,hasked,asked_last hk ho hl,List.flatMap_append,List.flatMap_append,hold,
    List.append_assoc]
  simp [hx]

theorem carried_same (hown : ∀ j < n, w'.owner j = w.owner j)
    (h : ∀ j < n, w.owner j = c → pieces (sentFor j) w'.log = pieces (sentFor j) w.log) :
    carried w' n c = carried w n c := by
  rw [carried,carried,asked_congr hown]
  refine List.flatMap_congr fun j hj => ?_
  obtain ⟨hj,ho⟩ := mem_asked.mp hj
  exact h j hj ho

end Asked

section Events
variable {c : ThreadId} {k : ContextRef} {e : ServerEvent}

/-- An event that is not on a wire. -/
theorem silent_event (h : e.connection = none) :
    sentOn c e = none ∧ sentFor k e = none ∧ farewellOn c e = none := by
  cases e <;> first | exact ⟨rfl,rfl,rfl⟩ | cases h

theorem silent_pieces {new log : List ServerEvent} (h : ∀ e ∈ new, e.connection = none) :
    pieces (sentOn c) (new ++ log) = pieces (sentOn c) log ∧
      pieces (sentFor k) (new ++ log) = pieces (sentFor k) log ∧
      pieces (farewellOn c) (new ++ log) = pieces (farewellOn c) log := by
  rw [pieces_append,pieces_append,pieces_append,
    pieces_nil fun e he => (silent_event (c := c) (k := k) (h e he)).1,
    pieces_nil fun e he => (silent_event (c := c) (k := k) (h e he)).2.1,
    pieces_nil fun e he => (silent_event (c := c) (k := k) (h e he)).2.2,
    List.append_nil,List.append_nil,List.append_nil]
  exact ⟨rfl,rfl,rfl⟩

end Events

section Steps
variable {s s' : State TaskLists} {a : ServerAction} {core : Core}
  {toFree : ThreadId → Option TaskRef} {w w' : World} {x : Option Action} {c : ThreadId}

/-- Away from `send_all` a client thread writes at most a summary. -/
theorem respond_log (ha : a.outside = true) (hs : ∀ c ok, a ≠ .send c ok)
    (h : respond core toFree w a = some (x,w')) :
    ∃ new, w'.log = new ++ w.log ∧ ∀ e ∈ new, e.connection = none := by
  have hsame : w'.log = w.log → ∃ new, w'.log = new ++ w.log ∧ ∀ e ∈ new, e.connection = none :=
    fun he => ⟨[],he,by simp⟩
  cases a with
  | accept fd | childWrite pid bytes | childExit pid =>
    simp only [respond] at h
    split at h <;> cases h
    exact hsame rfl
  | request d request =>
    simp only [respond] at h
    split at h
    · cases request <;> cases h <;> exact hsame rfl
    · cases h
  | send d ok => exact (hs d ok rfl).elim
  | print d =>
    simp only [respond] at h
    split at h <;> cases h
    by_cases hp : w.clock.hadPreemption = true ∧ w.clock.timeline ≠ []
    · refine ⟨[.printed w.clock.timeline],?_,by simp [ServerEvent.connection]⟩
      simp only [setPc,printSummaryIfNeeded,if_pos hp]
      rfl
    · refine hsame ?_
      simp only [setPc,printSummaryIfNeeded,if_neg hp]
  | cancelled d =>
    simp only [respond] at h
    split at h <;> cases h <;> exact hsame rfl
  | exec i => cases ha
  | enter => cases ha
  | finish => cases ha
  | cleanupNext _ | requestStop =>
    cases h
    exact hsame rfl
  | hangup d | poll d | fetch d | peek d closed | cancel d | checkIdle d | release d | close d =>
    simp only [respond] at h
    split at h <;> cases h
    exact hsame rfl

theorem serverStep_outside_log {Q : Type} [TaskQueue Q] {s s' : State Q}
    (ha : a.outside = true) (hs : ∀ c ok, a ≠ .send c ok) (he : serverStep s a = some s') :
    ∃ new, s'.world.log = new ++ s.world.log ∧ ∀ e ∈ new, e.connection = none := by
  rcases serverStep_cases he with ⟨w,hr,rfl⟩ | ⟨y,w,sched,hr,hs',rfl⟩
  · exact respond_log ha hs hr
  · obtain ⟨new,hlog,hnew⟩ := respond_log ha hs hr
    refine ⟨new,?_,hnew⟩
    rw [← hlog]
    obtain ⟨hy,_⟩ := (respond_responded ha hr).action
    cases y with
    | free thread => exact (sameClients_free thread sched.toCore w).log
    | submit request => rfl
    | cancel thread client => rfl
    | requestStop => rfl
    | _ => cases hy

theorem serverStep_inside_log {Q : Type} [TaskQueue Q] {s s' : State Q}
    (ha : a.outside ≠ true) (he : serverStep s a = some s') :
    ∃ new, s'.world.log = new ++ s.world.log ∧ ∀ e ∈ new, e.byClient = false := by
  cases a with
  | exec i =>
    obtain ⟨r,m,_,hm,hw,_⟩ := serverStep_exec he
    exact ⟨m.events,by rw [hw]; rfl,shift_byClient hm.shift⟩
  | enter =>
    obtain ⟨_,hw⟩ := serverStep_enter he
    rw [hw]
    unfold callbacks
    dsimp only
    split
    · exact ⟨[.invoked _],rfl,by simp [ServerEvent.byClient]⟩
    · exact ⟨[],rfl,by simp⟩
  | finish =>
    obtain ⟨_,hw⟩ := serverStep_finish he
    have hlog := (sameClients_finish s'.sched.toCore s.world).log
    rw [← hw] at hlog
    exact ⟨[],hlog,by simp⟩
  | _ => exact (ha rfl).elim

/-- What one step writes to the connections. -/
inductive Written (s : State TaskLists) (new : List ServerEvent) : Prop
  | silent : (∀ e ∈ new, e.connection = none) → Written s new
  | executor {k : ContextRef} : k < s.sched.allocated → (s.world.contexts k).done = false →
      (∀ e ∈ new, e.connection = none ∨ ∃ piece, e = .progress (s.world.owner k) k piece) →
      Written s new
  | answers {c : ThreadId} {k : ContextRef} {piece : Piece} {rest : List Piece} :
      (s.world.clients c).pc = .responding k (piece :: rest) →
      new = [.answer c k piece] ∨ new = [.answered k,.answer c k piece] → Written s new
  | farewell {c : ThreadId} {rest : List Piece} {piece : Piece} :
      (s.world.clients c).pc = .farewell (piece :: rest) → new = [.farewell c piece] →
      Written s new

theorem clientSend_written {ok : Bool}
    (hlive : ∀ c, (s.world.clients c).pc ≠ .gone →
      s.world.sockets (s.world.clients c).socketFd = some c)
    (h : clientSend s.world c ok = some w') :
    ∃ new, w'.log = new ++ s.world.log ∧ Written s new := by
  have hown : ∀ connection, (s.world.clients c).pc ≠ .gone →
      connectionOf s.world (some (s.world.clients c).socketFd) = some connection →
      connection = c := by
    intro connection hpc hconn
    simp only [connectionOf,Option.bind_some,hlive c hpc] at hconn
    exact (Option.some.inj hconn).symm
  unfold clientSend at h
  dsimp only at h
  split at h
  · rename_i k piece rest connection hp hconn
    obtain rfl := hown connection (by rw [hp]; simp) hconn
    split at h <;> cases h
    · exact ⟨_,rfl,.answers hp (Or.inr rfl)⟩
    · exact ⟨_,rfl,.answers hp (Or.inl rfl)⟩
  · cases h
    exact ⟨[],rfl,.silent (by simp)⟩
  · rename_i piece rest connection hp hconn
    obtain rfl := hown connection (by rw [hp]; simp) hconn
    cases h
    exact ⟨_,rfl,.farewell hp rfl⟩
  · cases h
    exact ⟨[],rfl,.silent (by simp)⟩
  · cases h

/-- The calls of `send_all` of one step are all for one connection. -/
theorem serverStep_written (hc : Consistent s) (hi : Isolated s) (hset : Settled s)
    (he : serverStep s a = some s') :
    ∃ new, s'.world.log = new ++ s.world.log ∧ Written s new := by
  by_cases hsend : ∃ c ok, a = .send c ok
  · obtain ⟨c,ok,rfl⟩ := hsend
    simp only [serverStep,respond] at he
    cases hs : clientSend s.world c ok with
    | none =>
      rw [hs] at he
      cases he
    | some w =>
      rw [hs] at he
      cases he
      exact clientSend_written (fun c hpc => (hi.live c hpc).2) hs
  by_cases ha : a.outside = true
  · obtain ⟨new,hlog,hnew⟩ := serverStep_outside_log ha (fun c ok h => hsend ⟨c,ok,h⟩) he
    exact ⟨new,hlog,.silent hnew⟩
  · cases serverStep_shape hc he with
    | outside hout _ _ => exact (ha hout).elim
    | @exec i r m hr hm hw _ =>
      refine ⟨m.events,by rw [hw]; rfl,?_⟩
      have hctx := (hc.running r hr).2
      have hlt := hc.task_lt hr
      have hown : ∀ connection k piece, .progress connection k piece ∈ m.events →
          connection = s.world.owner r.task ∧ k = r.task := by
        intro connection k piece hp
        obtain ⟨hk,_⟩ := shift_progress hm.shift hp
        obtain rfl := hk.trans hctx
        exact ⟨(moved_sent hi hc hr hm hp).2,rfl⟩
      by_cases hd : ∃ connection k piece, .progress connection k piece ∈ m.events
      · obtain ⟨connection,k,piece,hp⟩ := hd
        obtain ⟨_,rfl⟩ := hown _ _ _ hp
        obtain ⟨_,hdone⟩ := shift_worksOn hm.shift (hset.round r hr) hp
          (worksOn_of_progress (k := r.task) (by simp [progressOf]))
        refine .executor hlt (hctx ▸ hdone) fun e hev => ?_
        cases e with
        | progress connection k piece =>
          obtain ⟨rfl,rfl⟩ := hown _ _ _ hev
          exact Or.inr ⟨piece,rfl⟩
        | answer connection k piece => cases shift_byClient hm.shift _ hev
        | farewell connection piece => cases shift_byClient hm.shift _ hev
        | _ => exact Or.inl rfl
      · refine .silent fun e hev => ?_
        cases e with
        | progress connection k piece => exact (hd ⟨connection,k,piece,hev⟩).elim
        | answer connection k piece => cases shift_byClient hm.shift _ hev
        | farewell connection piece => cases shift_byClient hm.shift _ hev
        | _ => rfl
    | idle _ _ _ hw => exact ⟨[],by rw [hw]; rfl,.silent (by simp)⟩
    | dispatch _ _ _ _ _ hw =>
      exact ⟨[.invoked _],by rw [hw]; rfl,.silent (by simp [ServerEvent.connection])⟩
    | finish =>
      obtain ⟨_,hw⟩ := serverStep_finish he
      have hlog := (sameClients_finish s'.sched.toCore s.world).log
      rw [← hw] at hlog
      exact ⟨[],hlog,.silent (by simp)⟩

end Steps

section Parting
variable {Q : Type} [TaskQueue Q] {s s' : State Q} {a : ServerAction} {c : ThreadId}

/-- Where the thread has left its loop. -/
def ClientPc.left : ClientPc → Bool
  | .farewell _ | .closing | .gone => true
  | _ => false

/-- The farewell, as far as it has been written. -/
def Parting (done : List Piece) : ClientPc → Prop
  | .farewell rest => done ++ rest = packetPieces .serverExit []
  | pc => if pc.left then done <+: packetPieces .serverExit [] else done = []

theorem Parting.prefix_of {done : List Piece} {pc : ClientPc} (h : Parting done pc) :
    done <+: packetPieces .serverExit [] := by
  unfold Parting at h
  split at h
  · exact ⟨_,h⟩
  · split_ifs at h
    · exact h
    · exact h ▸ List.nil_prefix

theorem shift_left {w : World} {pc pc' : ClientPc} {events : List ServerEvent}
    (h : ClientShift w pc pc' events) (hl : pc.left = true) : pc'.left = true := by
  cases h with
  | farewell connection hpc =>
    rcases hpc with rfl | ⟨rest,rfl⟩
    · rfl
    · rfl
  | _ => first | rfl | cases hl

/-- A thread that says farewell moves by its own sends only. -/
theorem respond_farewell {core : Core} {toFree : ThreadId → Option TaskRef} {w w' : World}
    {x : Option Action} {rest : List Piece} (hp : (w.clients c).pc = .farewell rest)
    (hlt : c < w.nextThread) (hs : ∀ ok, a ≠ .send c ok)
    (h : respond core toFree w a = some (x,w')) : (w'.clients c).pc = .farewell rest := by
  by_cases ha : a.client = some c
  · cases a with
    | send d ok =>
      obtain rfl := Option.some.inj ha
      exact (hs ok rfl).elim
    | cleanupNext d =>
      cases h
      exact hp
    | accept _ | requestStop | enter | exec _ | finish | childWrite _ _ | childExit _ => cases ha
    | _ =>
      obtain rfl := Option.some.inj ha
      simp [respond,hp] at h
  · rw [respond_other ha hlt h,hp]

/-- What one step does to a farewell: a piece of it is written, or it is given up. -/
inductive Parts (c : ThreadId) (s s' : State Q) : Prop
  | kept : pieces (farewellOn c) s'.world.log = pieces (farewellOn c) s.world.log →
      (∀ rest, (s.world.clients c).pc = .farewell rest →
        (s'.world.clients c).pc = .farewell rest ∨ (s'.world.clients c).pc = .closing) →
      Parts c s s'
  | written {piece : Piece} {rest : List Piece} :
      (s.world.clients c).pc = .farewell (piece :: rest) →
      (s'.world.clients c).pc = (if rest = [] then .closing else .farewell rest) →
      pieces (farewellOn c) s'.world.log = pieces (farewellOn c) s.world.log ++ [piece] →
      Parts c s s'

/-- A thread says farewell to nobody else. -/
theorem clientSend_farewell {w w' : World} {d : ThreadId} {ok : Bool}
    (hlive : (w.clients d).pc ≠ .gone → w.sockets (w.clients d).socketFd = some d)
    (hcd : c ≠ d) (h : clientSend w d ok = some w') :
    pieces (farewellOn c) w'.log = pieces (farewellOn c) w.log := by
  unfold clientSend at h
  dsimp only at h
  split at h
  · split at h <;> cases h <;> simp [setPc,record,pieces,farewellOn]
  · cases h
    rfl
  · rename_i piece rest connection hp hconn
    simp only [connectionOf,Option.bind_some,hlive (by rw [hp]; simp)] at hconn
    cases h
    simp [setPc,record,pieces,farewellOn,← Option.some.inj hconn,Ne.symm hcd]
  · cases h
    rfl
  · cases h

omit [TaskQueue Q] in
theorem clientSend_parts {d : ThreadId} {ok : Bool} {w : World}
    (hlive : ∀ c, (s.world.clients c).pc ≠ .gone →
      s.world.sockets (s.world.clients c).socketFd = some c)
    (h : clientSend s.world d ok = some w) : Parts c s { s with world := w } := by
  by_cases hcd : c = d
  · subst hcd
    have hsame : ∀ {new : List ServerEvent} {pc : ClientPc},
        (∀ rest, (s.world.clients c).pc ≠ .farewell rest) → (∀ e ∈ new, farewellOn c e = none) →
        Parts c s { s with world := setPc { s.world with log := new ++ s.world.log } c pc } := by
      intro new pc hpc hnew
      refine .kept ?_ fun rest hp => (hpc rest hp).elim
      simp only [setPc,pieces_append,pieces_nil hnew,List.append_nil]
    unfold clientSend at h
    dsimp only at h
    split at h
    · rename_i k piece rest connection hp hconn
      split at h <;> cases h
      · exact @hsame [.answered k,.answer connection k piece] _ (by simp [hp]) (by simp [farewellOn])
      · exact @hsame [.answer connection k piece] _ (by simp [hp]) (by simp [farewellOn])
    · rename_i hp
      cases h
      exact @hsame [] _ (by simp [hp]) (by simp)
    · rename_i piece rest connection hp hconn
      have hc : connection = c := by
        simp only [connectionOf,Option.bind_some,hlive c (by rw [hp]; simp)] at hconn
        exact (Option.some.inj hconn).symm
      cases h
      refine .written hp ?_ ?_
      · simp [setPc]
      · simp [setPc,record,pieces,farewellOn,hc]
    · cases h
      exact .kept rfl fun _ _ => Or.inr (by simp [setPc])
    · cases h
  · have hpc := clientSend_other hcd h
    exact .kept (clientSend_farewell (hlive d) hcd h) fun rest hp => Or.inl (by rw [hpc,hp])

theorem serverStep_parts
    (hlive : ∀ c, (s.world.clients c).pc ≠ .gone →
      c < s.world.nextThread ∧ s.world.sockets (s.world.clients c).socketFd = some c)
    (he : serverStep s a = some s') (c : ThreadId) : Parts c s s' := by
  by_cases hsend : ∃ d ok, a = .send d ok
  · obtain ⟨d,ok,rfl⟩ := hsend
    simp only [serverStep,respond] at he
    cases hs : clientSend s.world d ok with
    | none =>
      rw [hs] at he
      cases he
    | some w =>
      rw [hs] at he
      cases he
      exact clientSend_parts (fun c hc => (hlive c hc).2) hs
  have hs : ∀ d ok, a ≠ .send d ok := fun d ok h => hsend ⟨d,ok,h⟩
  have hquiet : ∀ {new : List ServerEvent}, s'.world.log = new ++ s.world.log →
      (∀ e ∈ new, farewellOn c e = none) →
      pieces (farewellOn c) s'.world.log = pieces (farewellOn c) s.world.log := by
    intro new hlog hnew
    rw [hlog,pieces_append,pieces_nil hnew,List.append_nil]
  have hpc : ∀ rest, (s.world.clients c).pc = .farewell rest →
      (s'.world.clients c).pc = .farewell rest := by
    intro rest hp
    have hlt := (hlive c (by rw [hp]; simp)).1
    rcases serverStep_cases he with ⟨w,hr,rfl⟩ | ⟨y,w,sched,hr,_,rfl⟩
    · exact respond_farewell hp hlt (hs c) hr
    · rw [callbacks_clients]
      exact respond_farewell hp hlt (hs c) hr
  refine .kept ?_ fun rest hp => Or.inl (hpc rest hp)
  by_cases ha : a.outside = true
  · obtain ⟨new,hlog,hnew⟩ := serverStep_outside_log ha hs he
    exact hquiet hlog fun e hev => (silent_event (k := 0) (hnew e hev)).2.2
  · obtain ⟨new,hlog,hnew⟩ := serverStep_inside_log ha he
    refine hquiet hlog fun e hev => ?_
    have hb := hnew e hev
    cases e <;> first | rfl | cases hb

/-- The farewells of all threads, between the steps. -/
structure Parted (s : State Q) : Prop where
  fresh : ∀ c, s.world.nextThread ≤ c → pieces (farewellOn c) s.world.log = []
  parting : ∀ c, Parting (pieces (farewellOn c) s.world.log) (s.world.clients c).pc

theorem parted_init : Parted (serverInit Q) := ⟨fun _ _ => rfl,fun _ => List.nil_prefix⟩

theorem parting_of_left {done : List Piece} {pc : ClientPc} (hl : pc.left = false) :
    Parting done pc ↔ done = [] := by
  cases pc <;> first | exact Iff.rfl | cases hl

theorem shift_exits {w : World} {pc pc' : ClientPc} {events : List ServerEvent}
    {rest : List Piece} (h : ClientShift w pc pc' events) (hp : pc' = .farewell rest) :
    (∃ done, pc = .farewell done) ∨ pc = .receiving ∧ rest = packetPieces .serverExit [] := by
  cases h with
  | exits =>
    cases hp
    exact Or.inr ⟨rfl,rfl⟩
  | farewell connection _ => exact Or.inl ⟨_,rfl⟩
  | @releases k again => cases again <;> cases hp
  | _ => cases hp

/-- A move of the thread that writes no piece of its farewell. -/
theorem Parting.turn {w : World} {done : List Piece} {pc pc' : ClientPc}
    {events : List ServerEvent} (h : Parting done pc) (hs : ClientShift w pc pc' events)
    (hfare : ∀ rest, pc = .farewell rest → pc' = .farewell rest ∨ pc' = .closing) :
    Parting done pc' := by
  by_cases hp : ∃ rest, pc' = .farewell rest
  · obtain ⟨rest,rfl⟩ := hp
    rcases shift_exits hs rfl with ⟨before,rfl⟩ | ⟨rfl,rfl⟩
    · rcases hfare before rfl with he | he
      · rw [he]
        exact h
      · cases he
    · rw [(parting_of_left rfl).mp h]
      rfl
  · cases hl' : pc'.left with
    | false =>
      refine (parting_of_left hl').mpr ((parting_of_left ?_).mp h)
      cases hl : pc.left with
      | false => rfl
      | true => rw [shift_left hs hl] at hl'; cases hl'
    | true =>
      have hpre := h.prefix_of
      cases pc' <;> first | exact hpre | exact (hp ⟨_,rfl⟩).elim | cases hl'

theorem step_parted
    (hlive : ∀ c, (s.world.clients c).pc ≠ .gone →
      c < s.world.nextThread ∧ s.world.sockets (s.world.clients c).socketFd = some c)
    (h : Parted s) (he : serverStep s a = some s') : Parted s' := by
  have hgrows := (serverStep_grows he).1
  refine ⟨fun c hc => ?_,fun c => ?_⟩
  · have hle := hgrows.trans hc
    cases serverStep_parts hlive he c with
    | kept hsame _ => rw [hsame,h.fresh c hle]
    | written hp => exact absurd (hlive c (by rw [hp]; simp)).1 (Nat.not_lt.mpr hle)
  · have hold := h.parting c
    cases serverStep_parts hlive he c with
    | @written piece rest hp hp' hw =>
      rw [hp] at hold
      have hfull : pieces (farewellOn c) s.world.log ++ piece :: rest =
          packetPieces .serverExit [] := hold
      rw [hp',hw]
      split_ifs with hr
      · subst hr
        exact hfull ▸ List.prefix_rfl
      · show _ ++ [piece] ++ rest = _
        rw [List.append_assoc]
        exact hfull
    | kept hsame hfare =>
      rw [hsame]
      cases serverStep_client he with
      | quiet _ hcl _ _ _ _ =>
        rw [hcl]
        exact hold
      | accept _ _ _ hcl _ _ _ _ =>
        rw [hcl]
        by_cases hc : c = s.world.nextThread
        · rw [hc,Function.update_self,h.fresh _ le_rfl]
          rfl
        · rw [Function.update_of_ne hc]
          exact hold
      | @submit d _ hp _ hcl _ _ _ _ =>
        rw [hcl]
        by_cases hcd : c = d
        · subst hcd
          rw [hp] at hold
          simpa [setPc,Parting,ClientPc.left] using hold
        · rw [setPc_other _ hcd]
          exact hold
      | @turn d pc events _ hshift hcl _ _ _ _ =>
        by_cases hcd : c = d
        · subst hcd
          have hpc : (s'.world.clients c).pc = pc := by
            rw [hcl]
            simp [setPc]
          rw [hpc] at hfare ⊢
          exact hold.turn hshift hfare
        · rw [hcl,setPc_other _ hcd]
          exact hold
      | @close d _ hp hcl _ _ _ _ =>
        rw [hcl]
        by_cases hcd : c = d
        · subst hcd
          simpa [setPc,Parting,ClientPc.left] using hold.prefix_of
        · rw [setPc_other _ hcd]
          exact hold

theorem serverReachable_parted (h : ServerReachable s) : Parted s := by
  have hrun := h.invariant (P := fun s => ServerReachable s ∧ Parted s)
    (fun _ _ _ ⟨hr,hp⟩ he => ⟨hr.tail he,step_parted hr.live hp he⟩)
    ⟨Reaches.refl _,parted_init⟩
  exact hrun.2

end Parting

section Carried
variable {s s' : State TaskLists} {a : ServerAction} {c : ThreadId} {k : ContextRef}

/-- Where all commands that the thread has received have been answered. -/
def ClientPc.settled : ClientPc → Bool
  | .receiving | .farewell _ | .idleCheck _ | .printing _ | .releasing _ true => true
  | _ => false

theorem shift_settled {w : World} {pc pc' : ClientPc} {events : List ServerEvent}
    (h : ClientShift w pc pc' events) (hs : pc'.settled = true) :
    pc.settled = true ∨ ∃ k piece, pc = .responding k [piece] ∧ .answered k ∈ events := by
  cases h with
  | sendsLast connection => exact Or.inr ⟨_,_,rfl,List.mem_cons_self⟩
  | @releases k again =>
    cases again with
    | true => exact Or.inl rfl
    | false => cases hs
  | farewell connection hpc => exact Or.inl rfl
  | prints _ => exact Or.inl rfl
  | _ => first | exact Or.inl rfl | cases hs

/-- The connections, and the tasks that have not been answered. -/
structure Carried (s : State TaskLists) : Prop where
  order : ∀ c, pieces (sentOn c) s.world.log =
    carried s.world s.sched.allocated c ++ pieces (farewellOn c) s.world.log
  latest : ∀ k < s.sched.allocated, .answered k ∉ s.world.log →
    ∀ j < s.sched.allocated, s.world.owner j = s.world.owner k → j ≤ k
  settled : ∀ c, (s.world.clients c).pc.settled = true →
    ∀ k < s.sched.allocated, s.world.owner k = c → .answered k ∈ s.world.log
  farewell : ∀ c, pieces (farewellOn c) s.world.log ≠ [] →
    ∀ k < s.sched.allocated, s.world.owner k = c → .answered k ∈ s.world.log
  owner : ∀ k < s.sched.allocated, s.world.owner k < s.world.nextThread

theorem carried_init : Carried (serverInit TaskLists) :=
  ⟨fun _ => rfl,fun k hk => absurd hk (Nat.not_lt_zero k),
    fun _ _ k hk => absurd hk (Nat.not_lt_zero k),fun _ h => (h rfl).elim,
    fun k hk => absurd hk (Nat.not_lt_zero k)⟩

/-- An unanswered task whose thread has not left. -/
theorem Carried.unparted (h : Carried s) (hk : k < s.sched.allocated)
    (hn : .answered k ∉ s.world.log) :
    pieces (farewellOn (s.world.owner k)) s.world.log = [] := by
  by_contra hne
  exact hn (h.farewell _ hne k hk rfl)

theorem not_answered (hp : Packets s) (hd : (s.world.contexts k).done = false) :
    .answered k ∉ s.world.log := by
  intro ha
  obtain ⟨status,output,_,_,hfull⟩ := (hp.answers k).prefix_of
  have hdone := (hp.answers k).done (by rw [hfull ha]; simp [packetPieces])
  rw [hd] at hdone
  cases hdone

/-- A new task has nothing on any wire. -/
theorem fresh_pieces (hp : Packets s) (hi : Isolated s) (hk : s.sched.allocated ≤ k) :
    pieces (sentFor k) s.world.log = [] := by
  have hprogress : pieces (progressOf k) s.world.log = [] := by
    refine pieces_nil fun e he => ?_
    cases e with
    | progress connection j piece =>
      refine if_neg ?_
      rintro rfl
      exact absurd (hi.sent connection j piece he).1 (Nat.not_lt.mpr hk)
    | _ => rfl
  rw [hp.order,hprogress,(hp.fresh k hk).1]
  rfl

/-- What a step writes is put behind what the connection has carried. -/
theorem Written.order {new : List ServerEvent} {w : World} (h : Carried s) (hp : Packets s)
    (hw : Written s new) (hown : w.owner = s.world.owner) (hlog : w.log = new ++ s.world.log)
    (c : ThreadId) : pieces (sentOn c) w.log =
      carried w s.sched.allocated c ++ pieces (farewellOn c) w.log := by
  have hquiet : ∀ {k : ContextRef}, k < s.sched.allocated → .answered k ∉ s.world.log →
      (∀ e ∈ new, ∀ d, farewellOn d e = none ∧
        sentOn d e = if s.world.owner k = d then sentFor k e else none) →
      (∀ e ∈ new, ∀ j, j ≠ k → sentFor j e = none) →
      pieces (sentOn c) w.log =
        carried w s.sched.allocated c ++ pieces (farewellOn c) w.log := by
    intro k hk hna hon hother
    have hfare : pieces (farewellOn c) w.log = pieces (farewellOn c) s.world.log := by
      rw [hlog,pieces_append,pieces_nil fun e he => (hon e he c).1,List.append_nil]
    have hfor : ∀ j, j ≠ k → pieces (sentFor j) w.log = pieces (sentFor j) s.world.log := by
      intro j hj
      rw [hlog,pieces_append,pieces_nil fun e he => hother e he j hj,List.append_nil]
    by_cases hc : s.world.owner k = c
    · subst hc
      have hsent : pieces (sentOn (s.world.owner k)) new = pieces (sentFor k) new :=
        List.filterMap_congr fun e he => by
          rw [(hon e (List.mem_reverse.mp he) _).2,if_pos rfl]
      have hx : pieces (sentFor k) w.log =
          pieces (sentFor k) s.world.log ++ pieces (sentFor k) new := by
        rw [hlog,pieces_append]
      rw [hfare,h.unparted hk hna,List.append_nil,hlog,pieces_append,h.order,h.unparted hk hna,
        List.append_nil,hsent]
      exact (carried_grow hk rfl (h.latest k hk hna) hown hx hfor).symm
    · have hsent : pieces (sentOn c) new = [] := pieces_nil fun e he => by
        rw [(hon e he c).2,if_neg hc]
      have hsame : carried w s.sched.allocated c = carried s.world s.sched.allocated c := by
        refine carried_same (fun j _ => by rw [hown]) fun j _ hj => hfor j ?_
        rintro rfl
        exact hc hj
      rw [hfare,hlog,pieces_append,hsent,List.append_nil,h.order,hsame]
  cases hw with
  | silent hs =>
    obtain ⟨h₁,_,h₃⟩ := @silent_pieces c 0 new s.world.log hs
    have hsame : carried w s.sched.allocated c = carried s.world s.sched.allocated c := by
      refine carried_same (fun j _ => by rw [hown]) fun j _ _ => ?_
      rw [hlog]
      exact (silent_pieces (c := c) hs).2.1
    rw [hsame,hlog,h₁,h₃]
    exact h.order c
  | @executor k hk hd he =>
    refine hquiet hk (not_answered hp hd) (fun e hev d => ?_) fun e hev j hj => ?_
    · rcases he e hev with hs | ⟨piece,rfl⟩
      · obtain ⟨h₁,h₂,h₃⟩ := silent_event (c := d) (k := k) hs
        rw [h₁,h₂,h₃]
        exact ⟨rfl,(ite_self _).symm⟩
      · refine ⟨rfl,?_⟩
        simp [sentOn,sentFor,progressOf,ServerEvent.connection,ServerEvent.piece]
    · rcases he e hev with hs | ⟨piece,rfl⟩
      · exact (silent_event (c := c) hs).2.1
      · simp [sentFor,progressOf,answerOf,Ne.symm hj]
  | @answers d k piece rest hpc hnew =>
    have hexp := hp.expects d
    rw [hpc] at hexp
    obtain ⟨hk,rfl,_,hna,_⟩ := hexp
    refine hquiet hk hna (fun e hev d => ?_) fun e hev j hj => ?_
    · have hcase : e = .answered k ∨ e = .answer (s.world.owner k) k piece := by
        rcases hnew with rfl | rfl
        · exact Or.inr (List.mem_singleton.mp hev)
        · simpa using hev
      rcases hcase with rfl | rfl
      · exact ⟨rfl,(ite_self _).symm⟩
      · refine ⟨rfl,?_⟩
        simp [sentOn,sentFor,progressOf,answerOf,ServerEvent.connection,ServerEvent.piece]
    · have hcase : e = .answered k ∨ e = .answer (s.world.owner k) k piece := by
        rcases hnew with rfl | rfl
        · exact Or.inr (List.mem_singleton.mp hev)
        · simpa using hev
      rcases hcase with rfl | rfl
      · rfl
      · simp [sentFor,progressOf,answerOf,Ne.symm hj]
  | @farewell d rest piece hpc hnew =>
    have hsame : carried w s.sched.allocated c = carried s.world s.sched.allocated c := by
      refine carried_same (fun j _ => by rw [hown]) fun j _ _ => ?_
      rw [hlog,hnew,pieces_append]
      exact List.append_nil _
    have hsent : pieces (sentOn c) new = pieces (farewellOn c) new := by
      rw [hnew]
      simp only [pieces,List.reverse_singleton,List.filterMap_cons,List.filterMap_nil,sentOn,
        farewellOn,ServerEvent.connection,ServerEvent.piece,Option.some.injEq]
    rw [hsame,hlog,pieces_append,pieces_append,hsent,h.order,List.append_assoc]

/-- Only a thread that says farewell adds to its farewell. -/
theorem Written.farewells {new : List ServerEvent} (hw : Written s new)
    (hne : pieces (farewellOn c) (new ++ s.world.log) ≠ []) :
    pieces (farewellOn c) s.world.log ≠ [] ∨ ∃ rest, (s.world.clients c).pc = .farewell rest := by
  by_cases hfare : pieces (farewellOn c) new = []
  · rw [pieces_append,hfare,List.append_nil] at hne
    exact Or.inl hne
  refine Or.inr ?_
  cases hw with
  | silent hs => exact (hfare (pieces_nil fun e he => (silent_event (k := 0) (hs e he)).2.2)).elim
  | executor _ _ he =>
    refine (hfare (pieces_nil fun e hev => ?_)).elim
    rcases he e hev with hs | ⟨piece,rfl⟩
    · exact (silent_event (k := 0) hs).2.2
    · rfl
  | answers _ hnew => exact (hfare (by rcases hnew with rfl | rfl <;> rfl)).elim
  | @farewell d rest piece hpc hnew =>
    have hdc : d = c := by
      by_contra hdc
      refine hfare ?_
      rw [hnew]
      simp [pieces,farewellOn,hdc]
    exact ⟨_,hdc ▸ hpc⟩

/-- A thread that moves to where all is answered has been there, or has just answered. -/
theorem Carried.turns (h : Carried s) (hp : Packets s) {pc : ClientPc}
    {events : List ServerEvent} (hshift : ClientShift s.world (s.world.clients c).pc pc events)
    (hs : pc.settled = true) (hk : k < s.sched.allocated) (ho : s.world.owner k = c) :
    .answered k ∈ events ++ s.world.log := by
  rcases shift_settled hshift hs with hold | ⟨j,piece,hpc,hj⟩
  · exact List.mem_append_right _ (h.settled c hold k hk ho)
  · have hexp := hp.expects c
    rw [hpc] at hexp
    obtain ⟨hjn,hjo,_,hna,_⟩ := hexp
    by_cases hka : .answered k ∈ s.world.log
    · exact List.mem_append_right _ hka
    · -- both tasks are the thread's last
      have hjk := h.latest k hk hka j hjn (hjo.trans ho.symm)
      have hkj := h.latest j hjn hna k hk (ho.trans hjo.symm)
      rw [le_antisymm hkj hjk]
      exact List.mem_append_left _ hj

/-- A step that starts no task. -/
theorem Carried.goes (h : Carried s) (hp : Packets s) {new : List ServerEvent}
    (hw : Written s new) (hlog : s'.world.log = new ++ s.world.log)
    (hn : s'.sched.allocated = s.sched.allocated) (ho : s'.world.owner = s.world.owner)
    (ht : s.world.nextThread ≤ s'.world.nextThread)
    (hsettled : ∀ c, (s'.world.clients c).pc.settled = true →
      ∀ k < s.sched.allocated, s.world.owner k = c → .answered k ∈ s'.world.log) :
    Carried s' := by
  have hold : ∀ k, .answered k ∈ s.world.log → .answered k ∈ s'.world.log := fun k hk => by
    rw [hlog]
    exact List.mem_append_right _ hk
  constructor
  · intro c
    rw [hn]
    exact hw.order h hp ho hlog c
  · intro k hk hna j hj hjk
    rw [hn] at hk hj
    rw [ho] at hjk
    exact h.latest k hk (fun hka => hna (hold k hka)) j hj hjk
  · intro c hs k hk hkc
    rw [hn] at hk
    rw [ho] at hkc
    exact hsettled c hs k hk hkc
  · intro c hne k hk hkc
    rw [hlog] at hne
    rw [hn] at hk
    rw [ho] at hkc
    rcases hw.farewells hne with hne | ⟨rest,hpc⟩
    · exact hold k (h.farewell c hne k hk hkc)
    · exact hold k (h.settled c (by rw [hpc]; rfl) k hk hkc)
  · intro k hk
    rw [hn] at hk
    rw [ho]
    exact (h.owner k hk).trans_le ht

/-- A thread that waits for a command asks for its next task. -/
theorem Carried.asks (h : Carried s) (hp : Packets s) (hi : Isolated s) (hpart : Parted s)
    (hn : s'.sched.allocated = s.sched.allocated + 1)
    (hpc : (s.world.clients c).pc = .receiving)
    (hcl : s'.world.clients = (setPc s.world c (.waiting s.sched.allocated)).clients)
    (ht : s'.world.nextThread = s.world.nextThread)
    (ho : s'.world.owner = Function.update s.world.owner s.sched.allocated c)
    (hlog : s'.world.log = s.world.log) : Carried s' := by
  have hown : ∀ j < s.sched.allocated, s'.world.owner j = s.world.owner j := fun j hj => by
    rw [ho,Function.update_of_ne hj.ne]
  have hself : s'.world.owner s.sched.allocated = c := by
    rw [ho,Function.update_self]
  have hall := h.settled c (by rw [hpc]; rfl)
  have hcases : ∀ j, j < s.sched.allocated + 1 → j < s.sched.allocated ∨ j = s.sched.allocated :=
    fun j hj => Nat.lt_succ_iff_lt_or_eq.mp hj
  have hother : ∀ d, d ≠ c → (s'.world.clients d).pc = (s.world.clients d).pc := by
    intro d hd
    rw [hcl]
    simp [setPc,hd]
  have hmine : (s'.world.clients c).pc = .waiting s.sched.allocated := by
    rw [hcl]
    simp [setPc]
  have hnone : pieces (farewellOn c) s.world.log = [] := by
    have hparting := hpart.parting c
    rw [hpc] at hparting
    exact hparting
  constructor
  · intro d
    have hfresh := fresh_pieces hp hi (le_refl s.sched.allocated)
    have hold : carried s'.world s.sched.allocated d = carried s.world s.sched.allocated d :=
      carried_same hown fun j _ _ => by rw [hlog]
    rw [hn,hlog,h.order d,← hold,carried,carried,asked_succ,List.flatMap_append]
    split_ifs
    · simp [hlog,hfresh]
    · simp
  · intro k hk hna j hj hjk
    rw [hn] at hk hj
    rw [hlog] at hna
    rcases hcases k hk with hk | rfl
    · rcases hcases j hj with hj | rfl
      · rw [hown j hj,hown k hk] at hjk
        exact h.latest k hk hna j hj hjk
      · rw [hself,hown k hk] at hjk
        exact (hna (hall k hk hjk.symm)).elim
    · exact Nat.lt_succ_iff.mp hj
  · intro d hs k hk hkd
    have hdc : d ≠ c := by
      rintro rfl
      rw [hmine] at hs
      cases hs
    rw [hother d hdc] at hs
    rw [hn] at hk
    rw [hlog]
    rcases hcases k hk with hk | rfl
    · rw [hown k hk] at hkd
      exact h.settled d hs k hk hkd
    · rw [hself] at hkd
      exact (hdc hkd.symm).elim
  · intro d hne k hk hkd
    rw [hlog] at hne ⊢
    rw [hn] at hk
    rcases hcases k hk with hk | rfl
    · rw [hown k hk] at hkd
      exact h.farewell d hne k hk hkd
    · rw [hself] at hkd
      exact (hne (hkd ▸ hnone)).elim
  · intro k hk
    rw [hn] at hk
    rw [ht]
    rcases hcases k hk with hk | rfl
    · rw [hown k hk]
      exact h.owner k hk
    · rw [hself]
      exact (hi.live c (by rw [hpc]; simp)).1

theorem step_carried (h : Carried s) (hc : Consistent s) (hp : Packets s) (hi : Isolated s)
    (hset : Settled s) (hpart : Parted s) (he : serverStep s a = some s') : Carried s' := by
  obtain ⟨new,hlog,hw⟩ := serverStep_written hc hi hset he
  have hold : ∀ k, .answered k ∈ s.world.log → .answered k ∈ s'.world.log := fun k hk => by
    rw [hlog]
    exact List.mem_append_right _ hk
  cases serverStep_client he with
  | quiet hn hcl ht _ ho _ =>
    refine h.goes hp hw hlog hn ho ht.ge fun c hs k hk hkc => ?_
    rw [hcl] at hs
    exact hold k (h.settled c hs k hk hkc)
  | accept hn _ _ hcl ht _ ho _ =>
    refine h.goes hp hw hlog hn ho (by rw [ht]; exact Nat.le_succ _) fun c hs k hk hkc => ?_
    have hcn : c ≠ s.world.nextThread := by
      rintro rfl
      exact absurd (h.owner k hk) (by rw [hkc]; exact lt_irrefl _)
    rw [hcl,Function.update_of_ne hcn] at hs
    exact hold k (h.settled c hs k hk hkc)
  | submit hn hpc _ hcl ht _ ho hl => exact h.asks hp hi hpart hn hpc hcl ht ho hl
  | @turn d pc events hn hshift hcl ht _ ho hl =>
    refine h.goes hp hw hlog hn ho ht.ge fun c hs k hk hkc => ?_
    by_cases hcd : c = d
    · subst hcd
      rw [hl]
      refine h.turns hp hshift ?_ hk hkc
      rw [hcl] at hs
      simpa [setPc] using hs
    · rw [hcl,setPc_other _ hcd] at hs
      exact hold k (h.settled c hs k hk hkc)
  | @close d hn hpc hcl ht _ ho _ =>
    refine h.goes hp hw hlog hn ho ht.ge fun c hs k hk hkc => ?_
    by_cases hcd : c = d
    · subst hcd
      rw [hcl] at hs
      simp [setPc,ClientPc.settled] at hs
    · rw [hcl,setPc_other _ hcd] at hs
      exact hold k (h.settled c hs k hk hkc)

end Carried

section Transcripts
variable {s : State TaskLinks}

/-- No number of a kept socket is given away, and no context is marked before its last round. -/
def keepsApart (core : Core) (w : World) (a : ServerAction) : Bool :=
  sparesDescriptors core w a && settlesOnce core w a

/-- A connection carries the packets of its commands, one command after the other, and then the
farewell. Only the last command may be open, and then nothing follows it. -/
structure Transcript (w : World) (n : ℕ) (c : ThreadId) : Prop where
  order : pieces (sentOn c) w.log = carried w n c ++ pieces (farewellOn c) w.log
  command : ∀ k ∈ asked w n c, OneAnswer w.log k
  answered : ∀ k ∈ asked w n c, .answered k ∈ w.log ∨
    (asked w n c).getLast? = some k ∧ pieces (farewellOn c) w.log = []
  farewell : pieces (farewellOn c) w.log <+: packetPieces .serverExit []

theorem Carried.transcript {s : State TaskLists} (h : Carried s) (hm : Marked s)
    (hset : Settled s) (hp : Packets s) (hpart : Parted s) (c : ThreadId) :
    Transcript s.world s.sched.allocated c := by
  refine ⟨h.order c,fun k _ => hp.oneAnswer hm hset k,fun k hk => ?_,(hpart.parting c).prefix_of⟩
  by_cases hna : .answered k ∈ s.world.log
  · exact Or.inl hna
  obtain ⟨hlt,rfl⟩ := mem_asked.mp hk
  refine Or.inr ⟨?_,h.unparted hlt hna⟩
  rw [asked_last hlt rfl (h.latest k hlt hna),List.getLast?_concat]

theorem reachable_carried {s : State TaskLists}
    (h : ServerReachableIf (fun core w a => keepsApart core w a = true) s) :
    Marked s ∧ Settled s ∧ Packets s ∧ Parted s ∧ Carried s := by
  have hrun := h.invariant (P := fun s => Consistent s ∧ Isolated s ∧ Marked s ∧ Settled s ∧
      Packets s ∧ Parted s ∧ Carried s)
    (fun s a s' ⟨hc,hi,hm,hset,hp,hpart,hcar⟩ ⟨hok,he⟩ => by
      obtain ⟨hspares,hsettles⟩ := Bool.and_eq_true_iff.mp hok
      have hshape := serverStep_shape hc he
      have hm' := step_marked hm hc he
      exact ⟨step_consistent hc he,step_isolated hi hc hspares he,hm',
        step_settled hset hc hm hsettles hshape,
        step_packets hp hset hshape (serverStep_client he) (hm.mono hm' hshape),
        step_parted hi.live hpart he,step_carried hcar hc hp hi hset hpart he⟩)
    ⟨consistent_init,isolated_init,marked_init,settled_init,packets_init,parted_init,carried_init⟩
  exact hrun.2.2

/-- Whichever thread writes, and whatever the other connections do. -/
theorem connection_transcript
    (h : ServerReachableIf (fun core w a => keepsApart core w a = true) s) (c : ThreadId) :
    Transcript s.world s.sched.allocated c := by
  obtain ⟨l,hl,hr⟩ := serverReachableIf_refines h
  obtain ⟨hm,hset,hp,hpart,hcar⟩ := reachable_carried hl
  rw [hr.world,hr.sched.core]
  exact hcar.transcript hm hset hp hpart c

/-- A demo, a shell command of another client in the middle of its packet, and an exit. -/
def twoConversations : List ServerAction :=
  [.accept 4,.request 0 (.program "./demo 1".toList ["./demo".toList,"1".toList] 1),.enter,
   .exec .go,.exec (.started true),.childWrite 1 "x".toList,.exec .go,.exec .go,
   .exec (.readSome 1 true),.exec (.sent true),.accept 5,.request 1 (.shell "ls".toList),
   .exec (.sent true),.exec (.sent true),.exec .readAgain,.exec .go,.childExit 1,.exec .go,
   .exec .readEof,.exec .go,.exec .go,.exec .go,.exec .go,.finish,.enter,.poll 0,.fetch 0,
   .send 0 true,.exec .go,.exec (.shellRun true false (some "a".toList) true),.exec .go,.exec .go,
   .finish,.poll 1,.fetch 1,.send 1 true,.send 0 true,.checkIdle 0,.print 0,.release 0,
   .request 0 .exit,.send 0 true]

theorem connection_transcript_twoConversations :
    ∃ s : State TaskLinks, exec
        (guarded (fun s a => keepsApart s.sched.toCore s.world a = true) serverStep)
        (serverInit TaskLinks) twoConversations = some s ∧
      (∀ c, Transcript s.world s.sched.allocated c) ∧
      pieces (sentOn 0) s.world.log = packetPieces .serverProgress "x".toList ++
        packetPieces .serverContinue [] ++ [.status .serverExit] := by
  obtain ⟨s,he⟩ := Option.isSome_iff_exists.mp
    (show (exec (guarded (fun s a => keepsApart s.sched.toCore s.world a = true) serverStep)
      (serverInit TaskLinks) twoConversations).isSome = true from rfl)
  refine ⟨s,he,connection_transcript (reaches_of_guarded he),?_⟩
  cases he
  decide

end Transcripts

end UnixShell.Server
