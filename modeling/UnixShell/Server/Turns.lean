import UnixShell.Server.System

/-! # The actions of the other threads

The moves of a client thread with the events that go with them, and from these every way
in which an action from outside the scheduler thread can be answered before the
scheduler's callbacks. Facts about such actions are read off this list.
-/
namespace UnixShell.Server
open Foundation Scheduler

/-- The actions of client threads, children and the accept loop. -/
def ServerAction.outside : ServerAction → Bool
  | .enter => false
  | .exec _ => false
  | .finish => false
  | _ => true

/-- The events of client threads. -/
def ServerEvent.byClient : ServerEvent → Bool
  | .answer _ _ _ => true
  | .answered _ => true
  | .farewell _ _ => true
  | .printed _ => true
  | _ => false

/-- The moves of a client thread that no task is submitted by. -/
inductive ClientShift (w : World) : ClientPc → ClientPc → List ServerEvent → Prop
  | exits : ClientShift w .receiving (.farewell (packetPieces .serverExit [])) []
  | dropped : ClientShift w .receiving .closing []
  | hangup : ClientShift w .receiving (.cancelling none) []
  | wakes {k : ContextRef} : (w.contexts k).done = true →
      ClientShift w (.waiting k) (.answering k) []
  | answers {k : ContextRef} : ClientShift w (.answering k) (.responding k
      (packetPieces (w.contexts k).responseStatus (w.contexts k).output)) []
  | peeks {k : ContextRef} : ClientShift w (.waiting k) (.peeking k) []
  | stays {k : ContextRef} : ClientShift w (.peeking k) (.waiting k) []
  | left {k : ContextRef} : ClientShift w (.peeking k) (.cancelling (some k)) []
  | cancels {k : Option ContextRef} : ClientShift w (.cancelling k) (.freeing k) []
  | freed : ClientShift w (.freeing none) .closing []
  | freedOf {k : ContextRef} : ClientShift w (.freeing (some k)) (.releasing k false) []
  | sends {k : ContextRef} {piece next : Piece} {rest : List Piece} (connection : ThreadId) :
      ClientShift w (.responding k (piece :: next :: rest)) (.responding k (next :: rest))
        [.answer connection k piece]
  | sendsLast {k : ContextRef} {piece : Piece} (connection : ThreadId) :
      ClientShift w (.responding k [piece]) (.idleCheck k)
        [.answered k,.answer connection k piece]
  | sendFails {k : ContextRef} {pieces : List Piece} :
      ClientShift w (.responding k pieces) (.releasing k false) []
  | farewell {pieces : List Piece} {pc : ClientPc} {piece : Piece} (connection : ThreadId) :
      pc = .closing ∨ (∃ rest, pc = .farewell rest) →
      ClientShift w (.farewell pieces) pc [.farewell connection piece]
  | farewellFails {pieces : List Piece} : ClientShift w (.farewell pieces) .closing []
  | busy {k : ContextRef} : ClientShift w (.idleCheck k) (.releasing k true) []
  | idle {k : ContextRef} : ClientShift w (.idleCheck k) (.printing k) []
  | prints {k : ContextRef} {events : List ServerEvent} :
      (∀ e ∈ events, ∃ timeline, e = .printed timeline) →
      ClientShift w (.printing k) (.releasing k true) events
  | releases {k : ContextRef} {again : Bool} :
      ClientShift w (.releasing k again) (if again then .receiving else .closing) []

theorem ClientShift.byClient {w : World} {pc pc' : ClientPc} {events : List ServerEvent}
    (h : ClientShift w pc pc' events) : ∀ e ∈ events, e.byClient = true := by
  cases h with
  | prints hp =>
    intro e he
    obtain ⟨timeline,rfl⟩ := hp e he
    rfl
  | _ => simp [ServerEvent.byClient]

/-- What an action of another thread asks of the scheduler, and the world before the callbacks. -/
inductive Responded (n : ℕ) (w : World) : ServerAction → Option Action → World → Prop
  | accept {fd : Fd} (hfd : w.sockets fd = none) :
      Responded n w (.accept fd) none { w with
        clients := Function.update w.clients w.nextThread
          { socketFd := fd, clientNumber := w.nextThread + 1, pc := .receiving }
        nextThread := w.nextThread + 1
        sockets := Function.update w.sockets fd (some w.nextThread) }
  | shell {a : ServerAction} {c : ThreadId} (command : Text) (hp : (w.clients c).pc = .receiving) :
      Responded n w a (submitTask w c n (createShellTask (w.clients c) command n)).1
        (submitTask w c n (createShellTask (w.clients c) command n)).2
  | program {a : ServerAction} {c : ThreadId} (command : Text) (argv : List Text) (iterations : ℤ)
      (hp : (w.clients c).pc = .receiving) :
      Responded n w a
        (submitTask w c n (createProgramTask (w.clients c) command argv iterations n)).1
        (submitTask w c n (createProgramTask (w.clients c) command argv iterations n)).2
  | turn {a : ServerAction} {c : ThreadId} {pc : ClientPc} {events : List ServerEvent}
      (h : ClientShift w (w.clients c).pc pc events) :
      Responded n w a none (setPc { w with log := events ++ w.log } c pc)
  | print {a : ServerAction} {c : ThreadId} {k : ContextRef} (hp : (w.clients c).pc = .printing k) :
      Responded n w a none (setPc (printSummaryIfNeeded w) c (.releasing k true))
  | release {a : ServerAction} {c : ThreadId} {k : ContextRef} {again : Bool}
      (hp : (w.clients c).pc = .releasing k again) :
      Responded n w a none
        (setPc (releaseContext w k) c (if again then .receiving else .closing))
  | close {a : ServerAction} {c : ThreadId} (hp : (w.clients c).pc = .closing) :
      Responded n w a none (setPc { w with
        sockets := Function.update w.sockets (w.clients c).socketFd none } c .gone)
  | cancel {a : ServerAction} {c : ThreadId} {k : Option ContextRef}
      (hp : (w.clients c).pc = .cancelling k) :
      Responded n w a (some (.cancel c (w.clients c).clientNumber)) (setPc w c (.freeing k))
  | free {a : ServerAction} (c : ThreadId) : Responded n w a (some (.free c)) w
  | stop {a : ServerAction} : Responded n w a (some .requestStop) w
  | child {a : ServerAction} (procs : Processes) :
      Responded n w a none { w with procs := procs }

section Respond
variable {core : Core} {toFree : ThreadId → Option TaskRef} {w w' : World} {x : Option Action}
  {c : ThreadId} {n : ℕ} {a : ServerAction}

/-- A move that writes nothing. -/
theorem responded_setPc {pc pc₀ : ClientPc} (hp : (w.clients c).pc = pc₀)
    (h : ClientShift w pc₀ pc []) : Responded n w a none (setPc w c pc) :=
  .turn (hp ▸ h)

theorem responded_request (request : Request) (hp : (w.clients c).pc = .receiving) :
    Responded n w a (handleRequest w c n request).1 (handleRequest w c n request).2 := by
  cases request with
  | exit => exact responded_setPc hp .exits
  | program command argv iterations => exact .program command argv iterations hp
  | shell command => exact .shell command hp
  | unavailable => exact responded_setPc hp .dropped

theorem responded_send {ok : Bool} (h : clientSend w c ok = some w') :
    Responded n w a none w' := by
  unfold clientSend at h
  dsimp only at h
  split at h
  · rename_i k piece rest connection hp _
    split at h
    · rename_i hr
      cases h
      subst hr
      exact .turn (by rw [hp]; exact .sendsLast connection)
    · rename_i hr
      cases h
      obtain ⟨next,rest,rfl⟩ := List.exists_cons_of_ne_nil hr
      exact .turn (by rw [hp]; exact .sends connection)
  · rename_i hp
    cases h
    exact responded_setPc hp .sendFails
  · rename_i piece rest connection hp _
    cases h
    have hs : ClientShift w (.farewell (piece :: rest))
        (if rest = [] then .closing else .farewell rest) [.farewell connection piece] := by
      refine .farewell connection ?_
      split
      · exact Or.inl rfl
      · exact Or.inr ⟨rest,rfl⟩
    exact .turn (by rw [hp]; exact hs)
  · rename_i hp
    cases h
    exact responded_setPc hp .farewellFails
  · cases h

theorem respond_responded (ha : a.outside = true) (h : respond core toFree w a = some (x,w')) :
    Responded core.allocated w a x w' := by
  cases a with
  | accept fd =>
    simp only [respond] at h
    split at h
    · rename_i hfd
      cases h
      exact .accept hfd
    · cases h
  | request c request =>
    simp only [respond] at h
    split at h
    · rename_i hp
      have hr := responded_request (n := core.allocated) (a := .request c request) request hp
      rwa [Option.some.inj h] at hr
    · cases h
  | hangup c =>
    simp only [respond] at h
    split at h
    · rename_i hp
      cases h
      exact responded_setPc hp .hangup
    · cases h
  | poll c =>
    simp only [respond] at h
    split at h
    · rename_i hp
      cases h
      split
      · rename_i hd
        exact responded_setPc hp (.wakes hd)
      · exact responded_setPc hp .peeks
    · cases h
  | fetch c =>
    simp only [respond] at h
    split at h
    · rename_i hp
      cases h
      exact responded_setPc hp .answers
    · cases h
  | peek c closed =>
    simp only [respond] at h
    split at h
    · rename_i hp
      cases h
      cases closed
      · exact responded_setPc hp .stays
      · exact responded_setPc hp .left
    · cases h
  | cancel c =>
    simp only [respond] at h
    split at h
    · rename_i hp
      cases h
      exact .cancel hp
    · cases h
  | cleanupNext c => cases h; exact .free c
  | cancelled c =>
    simp only [respond] at h
    split at h
    · rename_i hp _
      cases h
      exact responded_setPc hp .freed
    · rename_i hp _
      cases h
      exact responded_setPc hp .freedOf
    · cases h
  | send c ok =>
    obtain ⟨u,hu,he⟩ := Option.map_eq_some_iff.mp h
    cases he
    exact responded_send hu
  | checkIdle c =>
    simp only [respond] at h
    split at h
    · rename_i hp
      cases h
      split
      · exact responded_setPc hp .busy
      · exact responded_setPc hp .idle
    · cases h
  | print c =>
    simp only [respond] at h
    split at h
    · rename_i hp
      cases h
      exact .print hp
    · cases h
  | release c =>
    simp only [respond] at h
    split at h
    · rename_i hp
      cases h
      exact .release hp
    · cases h
  | close c =>
    simp only [respond] at h
    split at h
    · rename_i hp
      cases h
      exact .close hp
    · cases h
  | requestStop => cases h; exact .stop
  | enter => cases ha
  | exec i => cases ha
  | finish => cases ha
  | childWrite pid bytes =>
    simp only [respond] at h
    split at h
    · cases h; exact .child _
    · cases h
  | childExit pid =>
    simp only [respond] at h
    split at h
    · cases h; exact .child _
    · cases h

end Respond

end UnixShell.Server
