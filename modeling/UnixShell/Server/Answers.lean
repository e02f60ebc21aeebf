import UnixShell.Server.Settling

/-! # The packets of one command

What is written for a context is cut into the pieces of `send_all`. As long as no
`send_all` of a progress packet fails, the pieces are those of whole progress packets
followed by those of one final packet, up to the piece that is written next.
-/
namespace UnixShell.Server
open Foundation Scheduler

def progressOf (k : ContextRef) : ServerEvent → Option Piece
  | .progress _ k' piece => if k' = k then some piece else none
  | _ => none

def answerOf (k : ContextRef) : ServerEvent → Option Piece
  | .answer _ k' piece => if k' = k then some piece else none
  | _ => none

/-- A piece written for the context, by either thread. -/
def sentFor (k : ContextRef) (e : ServerEvent) : Option Piece :=
  (progressOf k e).or (answerOf k e)

/-- The pieces of a kind, in the order in which they were written. -/
def pieces (f : ServerEvent → Option Piece) (log : List ServerEvent) : List Piece :=
  log.reverse.filterMap f

theorem pieces_append (f : ServerEvent → Option Piece) (new log : List ServerEvent) :
    pieces f (new ++ log) = pieces f log ++ pieces f new := by
  simp only [pieces,List.reverse_append,List.filterMap_append]

theorem pieces_nil {f : ServerEvent → Option Piece} {log : List ServerEvent}
    (h : ∀ e ∈ log, f e = none) : pieces f log = [] :=
  List.filterMap_eq_nil_iff.mpr (fun e he => h e (List.mem_reverse.mp he))

theorem progressOf_byClient {k : ContextRef} {e : ServerEvent} (h : e.byClient = true) :
    progressOf k e = none := by
  cases e <;> first | rfl | cases h

theorem answerOf_inside {k : ContextRef} {e : ServerEvent} (h : e.byClient = false) :
    answerOf k e = none := by
  cases e <;> first | rfl | cases h

def transitOf : ExecutorPc → List Piece
  | .sending _ _ rest => rest
  | _ => []

/-- The rest of the packet that the executor is writing. -/
def inTransit (w : World) (k : ContextRef) : List Piece :=
  match w.round with
  | none => []
  | some r => if r.context = k then transitOf r.pc else []

theorem inTransit_none {w : World} (hr : w.round = none) (k : ContextRef) : inTransit w k = [] := by
  unfold inTransit
  rw [hr]

theorem inTransit_some {w : World} {r : Round} (hr : w.round = some r) (k : ContextRef) :
    inTransit w k = if r.context = k then transitOf r.pc else [] := by
  unfold inTransit
  rw [hr]

/-- What the client thread of the context has written and has yet to write. -/
def Expects (w : World) (n : ℕ) (c : ThreadId) : ClientPc → Prop
  | .waiting k | .peeking k => k < n ∧ w.owner k = c ∧
    pieces (answerOf k) w.log = [] ∧ .answered k ∉ w.log
  | .answering k => k < n ∧ w.owner k = c ∧ (w.contexts k).done = true ∧
    pieces (answerOf k) w.log = [] ∧ .answered k ∉ w.log
  | .responding k rest => k < n ∧ w.owner k = c ∧ (w.contexts k).done = true ∧
    .answered k ∉ w.log ∧ ∃ status output, status ≠ .serverProgress ∧
      pieces (answerOf k) w.log ++ rest = packetPieces status output
  | _ => True

/-- What is known of the answers for one context. -/
structure AnswerOnce (k : ContextRef) (log : List ServerEvent) (done : Bool) : Prop where
  prefix_of : ∃ status output, status ≠ .serverProgress ∧
    pieces (answerOf k) log <+: packetPieces status output ∧
    (.answered k ∈ log → pieces (answerOf k) log = packetPieces status output)
  once : log.count (.answered k) ≤ 1
  done : pieces (answerOf k) log ≠ [] → done = true

structure Packets (s : State TaskLists) : Prop where
  status : ∀ k, (s.world.contexts k).responseStatus ≠ .serverProgress
  progress : ∀ k, .sendFailed k ∉ s.world.log → ∃ chunks : List Text,
    pieces (progressOf k) s.world.log ++ inTransit s.world k =
      chunks.flatMap (packetPieces .serverProgress)
  order : ∀ k, pieces (sentFor k) s.world.log =
    pieces (progressOf k) s.world.log ++ pieces (answerOf k) s.world.log
  expects : ∀ c, Expects s.world s.sched.allocated c (s.world.clients c).pc
  answers : ∀ k, AnswerOnce k s.world.log (s.world.contexts k).done
  fresh : ∀ k, s.sched.allocated ≤ k →
    pieces (answerOf k) s.world.log = [] ∧ .answered k ∉ s.world.log

theorem packets_init : Packets (serverInit TaskLists) :=
  ⟨fun _ h => (by cases h),fun _ _ => ⟨[],rfl⟩,fun _ => rfl,fun _ => trivial,
    fun _ => ⟨⟨.serverContinue,[],by decide,List.nil_prefix,fun h => (by cases h)⟩,Nat.zero_le _,
      fun h => (h rfl).elim⟩,fun _ _ => ⟨rfl,fun h => (by cases h)⟩⟩

section Progress
variable {v : View} {r : Round} {i : Input} {pc pc' : ExecutorPc} {x : Option Action}
  {events : List ServerEvent} {k : ContextRef}

/-- The executor begins a packet, or writes the next piece of the one it has begun. -/
theorem shift_transit (h : Shift v r pc i pc' x events) (hn : .sendFailed r.context ∉ events) :
    (∃ site bytes, pc = .draining site ∧ pieces (progressOf r.context) events = [] ∧
      transitOf pc' = packetPieces .serverProgress bytes) ∨
    pieces (progressOf r.context) events ++ transitOf pc' = transitOf pc := by
  cases h with
  | chunk bytes _ _ => exact Or.inl ⟨_,bytes,rfl,rfl,rfl⟩
  | @piece site bytes piece rest connection _ =>
    right
    have hp : pieces (progressOf r.context) [.progress connection r.context piece] = [piece] := by
      simp [pieces,progressOf]
    rw [hp]
    split
    · rename_i hr
      rw [hr]
      rfl
    · rfl
  | sendFailed => exact (hn (List.mem_singleton.mpr rfl)).elim
  | drained hd => cases hd <;> exact Or.inr rfl
  | _ => exact Or.inr rfl

theorem shift_progressOf (h : Shift v r pc i pc' x events) (hk : r.context ≠ k) :
    ∀ e ∈ events, progressOf k e = none ∧ e ≠ .sendFailed k := by
  cases h <;> simp [progressOf,hk]

end Progress

variable {s s' : State TaskLists} {a : ServerAction}

/-- A step that is no move of the context's own round writes nothing of its packets. -/
theorem step_transit (hshape : RoundStep s s' a) {k : ContextRef}
    (hk : ∀ i r, a = .exec i → s.world.round = some r → r.context ≠ k) :
    pieces (progressOf k) s'.world.log = pieces (progressOf k) s.world.log ∧
      inTransit s'.world k = inTransit s.world k := by
  have hquiet : ∀ new : List ServerEvent, s'.world.log = new ++ s.world.log →
      (∀ e ∈ new, progressOf k e = none) →
      pieces (progressOf k) s'.world.log = pieces (progressOf k) s.world.log := by
    intro new hlog hnew
    rw [hlog,pieces_append,pieces_nil hnew,List.append_nil]
  cases hshape with
  | outside _ hw _ =>
    obtain ⟨new,hlog,hnew⟩ := hw.log
    exact ⟨hquiet new hlog fun e he => progressOf_byClient (hnew e he),
      by unfold inTransit; rw [hw.round]⟩
  | @exec i r m hr hm hw hs =>
    have hne := hk i r rfl hr
    have hr' : s'.world.round = some m.round := by rw [hw]; rfl
    refine ⟨hquiet m.events (by rw [hw]; rfl) fun e he => (shift_progressOf hm.shift hne e he).1,?_⟩
    rw [inTransit_some hr,inTransit_some hr',hm.context,if_neg hne,if_neg hne]
  | idle _ _ _ hw =>
    exact ⟨hquiet [] (by rw [hw]; rfl) (by simp),by rw [hw]⟩
  | @dispatch t quantum hr _ _ _ _ hw =>
    refine ⟨hquiet [.invoked t] (by rw [hw]; rfl) (by simp [progressOf]),?_⟩
    have hr' : s'.world.round = some (newRound t t quantum) := by rw [hw]; rfl
    rw [inTransit_none hr,inTransit_some hr']
    exact ite_self _
  | @finish r exit hr hp _ _ hr' hw =>
    obtain ⟨new,hlog,hnew⟩ := hw.log
    refine ⟨hquiet new hlog fun e he => progressOf_byClient (hnew e he),?_⟩
    rw [inTransit_none hr',inTransit_some hr,hp]
    exact (ite_self _).symm

theorem step_progress (h : Packets s) (hshape : RoundStep s s' a) (k : ContextRef)
    (hf : .sendFailed k ∉ s'.world.log) : ∃ chunks : List Text,
      pieces (progressOf k) s'.world.log ++ inTransit s'.world k =
        chunks.flatMap (packetPieces .serverProgress) := by
  obtain ⟨new,hlog,_⟩ := hshape.newEvents
  obtain ⟨chunks,hc⟩ := h.progress k fun hm => hf (by rw [hlog]; exact List.mem_append_right _ hm)
  by_cases hk : ∀ i r, a = .exec i → s.world.round = some r → r.context ≠ k
  · obtain ⟨hpieces,htransit⟩ := step_transit hshape hk
    exact ⟨chunks,by rw [hpieces,htransit,hc]⟩
  push Not at hk
  obtain ⟨i,r,rfl,hr,rfl⟩ := hk
  cases hshape with
  | outside ha _ _ => cases ha
  | @exec i r₁ m hr₁ hm hw hs =>
    obtain rfl := Option.some.inj (hr.symm.trans hr₁)
    have hmoved : s'.world.log = m.events ++ s.world.log := by rw [hw]; rfl
    have hr' : s'.world.round = some m.round := by rw [hw]; rfl
    have hn : .sendFailed r.context ∉ m.events := fun hm' =>
      hf (by rw [hmoved]; exact List.mem_append_left _ hm')
    rw [inTransit_some hr,if_pos rfl] at hc
    rw [inTransit_some hr',hm.context,if_pos rfl,hmoved,pieces_append,List.append_assoc]
    rcases shift_transit hm.shift hn with ⟨site,bytes,hpc,hnone,hpc'⟩ | heq
    · refine ⟨chunks ++ [bytes],?_⟩
      rw [hpc,show transitOf (.draining site) = [] from rfl,List.append_nil] at hc
      rw [hnone,hpc',hc]
      simp
    · exact ⟨chunks,by rw [heq,hc]⟩

/-- No piece of the context's answer was written in between. -/
structure SameSent (k : ContextRef) (log log' : List ServerEvent) : Prop where
  pieces : pieces (answerOf k) log' = pieces (answerOf k) log
  answered : .answered k ∈ log' ↔ .answered k ∈ log
  count : log'.count (.answered k) = log.count (.answered k)

theorem sameSent_refl (k : ContextRef) (log : List ServerEvent) : SameSent k log log :=
  ⟨rfl,Iff.rfl,rfl⟩

theorem sameSent_append {k : ContextRef} {new log : List ServerEvent}
    (h : ∀ e ∈ new, answerOf k e = none ∧ e ≠ .answered k) : SameSent k log (new ++ log) := by
  have hn : .answered k ∉ new := fun hm => (h _ hm).2 rfl
  refine ⟨?_,?_,?_⟩
  · rw [pieces_append,pieces_nil (fun e he => (h e he).1),List.append_nil]
  · rw [List.mem_append]
    exact or_iff_right hn
  · rw [List.count_append,List.count_eq_zero.mpr hn,Nat.zero_add]

theorem Expects.congr {w w' : World} {n n' : ℕ} {c : ThreadId} {pc : ClientPc}
    (h : Expects w n c pc) (hn : n ≤ n') (ho : ∀ k < n, w'.owner k = w.owner k)
    (hs : ∀ k, w.owner k = c → SameSent k w.log w'.log)
    (hd : ∀ k, (w.contexts k).done = true → (w'.contexts k).done = true) : Expects w' n' c pc := by
  cases pc with
  | waiting k =>
    obtain ⟨hk,hc,hp,ha⟩ := h
    exact ⟨hk.trans_le hn,(ho k hk).trans hc,(hs k hc).pieces.trans hp,
      fun hm => ha ((hs k hc).answered.mp hm)⟩
  | peeking k =>
    obtain ⟨hk,hc,hp,ha⟩ := h
    exact ⟨hk.trans_le hn,(ho k hk).trans hc,(hs k hc).pieces.trans hp,
      fun hm => ha ((hs k hc).answered.mp hm)⟩
  | answering k =>
    obtain ⟨hk,hc,hdone,hp,ha⟩ := h
    exact ⟨hk.trans_le hn,(ho k hk).trans hc,hd k hdone,(hs k hc).pieces.trans hp,
      fun hm => ha ((hs k hc).answered.mp hm)⟩
  | responding k rest =>
    obtain ⟨hk,hc,hdone,ha,status,output,hne,hp⟩ := h
    exact ⟨hk.trans_le hn,(ho k hk).trans hc,hd k hdone,fun hm => ha ((hs k hc).answered.mp hm),
      status,output,hne,by rw [(hs k hc).pieces]; exact hp⟩
  | _ => trivial

/-- The events of a client's move: none of an answer, or those of the piece it is at. -/
inductive AnswerMove (w : World) (pc pc' : ClientPc) (events : List ServerEvent) : Prop
  | silent : (∀ e ∈ events, ∀ k, answerOf k e = none ∧ e ≠ .answered k) → AnswerMove w pc pc' events
  | next {k : ContextRef} {piece : Piece} {rest : List Piece} (connection : ThreadId) :
      pc = .responding k (piece :: rest) → pc' = .responding k rest →
      events = [.answer connection k piece] → AnswerMove w pc pc' events
  | last {k : ContextRef} {piece : Piece} (connection : ThreadId) :
      pc = .responding k [piece] → pc' = .idleCheck k →
      events = [.answered k,.answer connection k piece] → AnswerMove w pc pc' events

theorem clientShift_answer {w : World} {pc pc' : ClientPc} {events : List ServerEvent}
    (h : ClientShift w pc pc' events) : AnswerMove w pc pc' events := by
  cases h with
  | sends connection => exact .next connection rfl rfl rfl
  | sendsLast connection => exact .last connection rfl rfl rfl
  | farewell connection _ =>
    refine .silent (fun e he k => ?_)
    obtain rfl := List.mem_singleton.mp he
    exact ⟨rfl,by simp⟩
  | prints hp =>
    refine .silent (fun e he k => ?_)
    obtain ⟨timeline,rfl⟩ := hp e he
    exact ⟨rfl,by simp⟩
  | _ => exact .silent (by simp)

theorem AnswerOnce.congr {k : ContextRef} {log log' : List ServerEvent} {done done' : Bool}
    (h : AnswerOnce k log done) (hs : SameSent k log log') (hd : done = true → done' = true) :
    AnswerOnce k log' done' := by
  obtain ⟨status,output,hne,hp,ha⟩ := h.prefix_of
  refine ⟨⟨status,output,hne,by rw [hs.pieces]; exact hp,fun hm => ?_⟩,
    by rw [hs.count]; exact h.once,fun hn => hd (h.done (by rw [← hs.pieces]; exact hn))⟩
  rw [hs.pieces]
  exact ha (hs.answered.mp hm)

theorem pieces_answer {k : ContextRef} {connection : ThreadId} {piece : Piece}
    {log : List ServerEvent} : pieces (answerOf k) (.answer connection k piece :: log) =
      pieces (answerOf k) log ++ [piece] := by
  rw [← List.singleton_append,pieces_append]
  simp [pieces,answerOf]

theorem pieces_answered {k : ContextRef} {log : List ServerEvent} :
    pieces (answerOf k) (.answered k :: log) = pieces (answerOf k) log := by
  rw [← List.singleton_append,pieces_append]
  simp [pieces,answerOf]

section Turn
variable {w : World} {n : ℕ} {c : ThreadId} {pc pc' : ClientPc} {events : List ServerEvent}
  {k : ContextRef}

/-- A client's move concerns its own context. -/
theorem turn_sameSent (hm : AnswerMove w pc pc' events) (he : Expects w n c pc)
    (hk : w.owner k ≠ c ∨ n ≤ k) : SameSent k w.log (events ++ w.log) := by
  have hother : ∀ k₀, w.owner k₀ = c → k₀ < n → k₀ ≠ k := by
    rintro k₀ ho hlt rfl
    exact hk.elim (fun h => h ho) (fun h => absurd hlt (Nat.not_lt.mpr h))
  apply sameSent_append
  intro e hev
  cases hm with
  | silent hs => exact hs e hev k
  | @next k₀ piece rest connection hp _ hevents =>
    rw [hp] at he
    have hne := hother k₀ he.2.1 he.1
    rw [hevents] at hev
    obtain rfl := List.mem_singleton.mp hev
    exact ⟨if_neg hne,by simp⟩
  | @last k₀ piece connection hp _ hevents =>
    rw [hp] at he
    have hne := hother k₀ he.2.1 he.1
    rw [hevents] at hev
    rcases List.mem_pair.mp hev with rfl | rfl
    · exact ⟨rfl,by simpa using hne⟩
    · exact ⟨if_neg hne,by simp⟩

theorem turn_answerOnce (hm : AnswerMove w pc pc' events) (he : Expects w n c pc)
    (h : ∀ k, AnswerOnce k w.log (w.contexts k).done) (k : ContextRef) :
    AnswerOnce k (events ++ w.log) (w.contexts k).done := by
  by_cases hk : w.owner k = c
  · cases hm with
    | silent hs => exact (h k).congr (sameSent_append (fun e hev => hs e hev k)) id
    | @next k₀ piece rest connection hp _ hevents =>
      rw [hp] at he
      obtain ⟨_,_,hdone,hna,status,output,hne,hpieces⟩ := he
      rw [hevents]
      by_cases hkk : k₀ = k
      · subst hkk
        have hna' : .answered k₀ ∉ [.answer connection k₀ piece] ++ w.log := by simpa using hna
        refine ⟨⟨status,output,hne,⟨rest,?_⟩,fun hm => (hna' hm).elim⟩,?_,fun _ => hdone⟩
        · rw [List.singleton_append,pieces_answer,← hpieces,List.append_assoc]
          rfl
        · exact (List.count_eq_zero.mpr hna').trans_le (Nat.zero_le _)
      · exact (h k).congr (sameSent_append (by simp [answerOf,hkk])) id
    | @last k₀ piece connection hp _ hevents =>
      rw [hp] at he
      obtain ⟨_,_,hdone,hna,status,output,hne,hpieces⟩ := he
      rw [hevents]
      by_cases hkk : k₀ = k
      · subst hkk
        have hfull : pieces (answerOf k₀) ([.answered k₀,.answer connection k₀ piece] ++ w.log) =
            packetPieces status output := by
          rw [List.cons_append,List.singleton_append,pieces_answered,pieces_answer,hpieces]
        refine ⟨⟨status,output,hne,hfull ▸ List.prefix_rfl,fun _ => hfull⟩,?_,fun _ => hdone⟩
        rw [List.count_append,List.count_eq_zero.mpr hna]
        simp
      · exact (h k).congr (sameSent_append (by simp [answerOf,hkk])) id
  · exact (h k).congr (turn_sameSent hm he (Or.inl hk)) id

/-- What the client expects after its move. -/
theorem turn_expects (hs : ClientShift w pc pc' events) (he : Expects w n c pc)
    (hstatus : ∀ k, (w.contexts k).responseStatus ≠ .serverProgress) {w' : World} {n' : ℕ}
    (hn : n' = n) (hlog : w'.log = events ++ w.log) (ho : w'.owner = w.owner)
    (hd : ∀ k, (w.contexts k).done = true → (w'.contexts k).done = true) :
    Expects w' n' c pc' := by
  subst hn
  cases hs with
  | wakes hdone =>
    obtain ⟨hk,hc,hp,ha⟩ := he
    exact ⟨hk,ho ▸ hc,hd _ hdone,by rw [hlog]; exact hp,by rw [hlog]; exact ha⟩
  | @answers k =>
    obtain ⟨hk,hc,hdone,hp,ha⟩ := he
    refine ⟨hk,ho ▸ hc,hd _ hdone,by rw [hlog]; exact ha,(w.contexts k).responseStatus,
      (w.contexts k).output,hstatus k,?_⟩
    rw [hlog,List.nil_append,hp]
    rfl
  | peeks =>
    obtain ⟨hk,hc,hp,ha⟩ := he
    exact ⟨hk,ho ▸ hc,by rw [hlog]; exact hp,by rw [hlog]; exact ha⟩
  | stays =>
    obtain ⟨hk,hc,hp,ha⟩ := he
    exact ⟨hk,ho ▸ hc,by rw [hlog]; exact hp,by rw [hlog]; exact ha⟩
  | @sends k piece next rest connection =>
    obtain ⟨hk,hc,hdone,ha,status,output,hne,hp⟩ := he
    refine ⟨hk,ho ▸ hc,hd _ hdone,by rw [hlog]; simpa using ha,status,output,hne,?_⟩
    rw [hlog,List.singleton_append,pieces_answer,List.append_assoc]
    exact hp
  | farewell connection hpc =>
    rcases hpc with rfl | ⟨rest,rfl⟩ <;> trivial
  | releases => split <;> trivial
  | _ => trivial

end Turn

theorem sameSent_inside {k : ContextRef} {new log : List ServerEvent}
    (h : ∀ e ∈ new, e.byClient = false) : SameSent k log (new ++ log) :=
  sameSent_append (fun e he => ⟨answerOf_inside (h e he),fun hk => by
    have hb := h e he
    rw [hk] at hb
    cases hb⟩)

/-- What clients expect and what was answered, over a step that writes no answer. -/
theorem answers_quiet (h : Packets s) {n' : ℕ} {w' : World} (hn : s.sched.allocated ≤ n')
    (ho : ∀ k < s.sched.allocated, w'.owner k = s.world.owner k)
    (hs : ∀ k, SameSent k s.world.log w'.log)
    (hd : ∀ k, (s.world.contexts k).done = true → (w'.contexts k).done = true) :
    (∀ c, Expects w' n' c (s.world.clients c).pc) ∧
    (∀ k, AnswerOnce k w'.log (w'.contexts k).done) ∧
    ∀ k, n' ≤ k → pieces (answerOf k) w'.log = [] ∧ .answered k ∉ w'.log := by
  refine ⟨fun c => (h.expects c).congr hn ho (fun k _ => hs k) hd,
    fun k => (h.answers k).congr (hs k) (hd k),fun k hk => ?_⟩
  obtain ⟨hp,ha⟩ := h.fresh k (hn.trans hk)
  exact ⟨(hs k).pieces.trans hp,fun hm => ha ((hs k).answered.mp hm)⟩

theorem expects_update {w : World} {n : ℕ} {clients : ThreadId → Client} {c : ThreadId}
    {client : Client} (h : ∀ d, Expects w n d (clients d).pc) (hc : Expects w n c client.pc)
    (d : ThreadId) : Expects w n d (Function.update clients c client d).pc := by
  by_cases hdc : d = c
  · subst hdc
    rw [Function.update_self]
    exact hc
  · rw [Function.update_of_ne hdc]
    exact h d

/-- The same, over a move of a client. -/
theorem answers_turn (h : Packets s) {c : ThreadId} {pc : ClientPc} {events : List ServerEvent}
    {w' : World} (hshift : ClientShift s.world (s.world.clients c).pc pc events)
    (hcl : w'.clients = (setPc s.world c pc).clients) (ho : w'.owner = s.world.owner)
    (hl : w'.log = events ++ s.world.log)
    (hd : ∀ k, (s.world.contexts k).done = true → (w'.contexts k).done = true) :
    (∀ d, Expects w' s.sched.allocated d (w'.clients d).pc) ∧
    (∀ k, AnswerOnce k w'.log (w'.contexts k).done) ∧
    ∀ k, s.sched.allocated ≤ k → pieces (answerOf k) w'.log = [] ∧ .answered k ∉ w'.log := by
  have hmove := clientShift_answer hshift
  have hexp := h.expects c
  refine ⟨fun d => ?_,fun k => ?_,fun k hk => ?_⟩
  · rw [hcl]
    by_cases hdc : d = c
    · subst hdc
      simp only [setPc,Function.update_self]
      exact turn_expects hshift hexp h.status rfl hl ho hd
    · simp only [setPc,Function.update_of_ne hdc]
      refine (h.expects d).congr le_rfl (fun k _ => by rw [ho]) (fun k hk => ?_) hd
      rw [hl]
      exact turn_sameSent hmove hexp (Or.inl (fun hkc => hdc (hk.symm.trans hkc)))
  · rw [hl]
    exact (turn_answerOnce hmove hexp h.answers k).congr (sameSent_refl k _) (hd k)
  · obtain ⟨hp,hna⟩ := h.fresh k hk
    have hs := turn_sameSent hmove hexp (k := k) (Or.inr hk)
    rw [hl]
    exact ⟨hs.pieces.trans hp,fun hm => hna (hs.answered.mp hm)⟩

theorem step_answers (h : Packets s)
    (hclient : ClientStep s.sched.allocated s'.sched.allocated a s.world s'.world)
    (hd : ∀ k, (s.world.contexts k).done = true → (s'.world.contexts k).done = true) :
    (∀ c, Expects s'.world s'.sched.allocated c (s'.world.clients c).pc) ∧
    (∀ k, AnswerOnce k s'.world.log (s'.world.contexts k).done) ∧
    ∀ k, s'.sched.allocated ≤ k →
      pieces (answerOf k) s'.world.log = [] ∧ .answered k ∉ s'.world.log := by
  cases hclient with
  | quiet hn hcl _ _ ho hl =>
    obtain ⟨new,hlog,hnew⟩ := hl
    rw [hcl]
    exact answers_quiet h hn.ge (fun k _ => by rw [ho])
      (fun k => by rw [hlog]; exact sameSent_inside hnew) hd
  | accept hn _ _ hcl _ _ ho hl =>
    obtain ⟨he,ha,hf⟩ := answers_quiet h hn.ge (fun k _ => by rw [ho])
      (fun k => by rw [hl]; exact sameSent_refl k _) hd
    rw [hcl]
    exact ⟨expects_update he trivial,ha,hf⟩
  | @submit c hn _ _ hcl _ _ ho hl =>
    obtain ⟨he,ha,hf⟩ := answers_quiet h ((Nat.le_succ _).trans hn.ge)
      (fun k hk => by rw [ho,Function.update_of_ne hk.ne])
      (fun k => by rw [hl]; exact sameSent_refl k _) hd
    obtain ⟨hp,hna⟩ := h.fresh s.sched.allocated le_rfl
    rw [hcl]
    refine ⟨expects_update he ⟨(Nat.lt_succ_self _).trans_le hn.ge,?_,?_,?_⟩,ha,hf⟩
    · rw [ho,Function.update_self]
    · rw [hl]; exact hp
    · rw [hl]; exact hna
  | turn hn hshift hcl _ _ ho hl =>
    rw [hn]
    exact answers_turn h hshift hcl ho hl hd
  | close hn _ hcl _ _ ho hl =>
    obtain ⟨he,ha,hf⟩ := answers_quiet h hn.ge (fun k _ => by rw [ho])
      (fun k => by rw [hl]; exact sameSent_refl k _) hd
    rw [hcl]
    exact ⟨expects_update he trivial,ha,hf⟩

theorem step_status (h : Packets s) (hshape : RoundStep s s' a) (k : ContextRef) :
    (s'.world.contexts k).responseStatus ≠ .serverProgress := by
  have hout : ∀ w w' : World, Outside s.sched.allocated w w' →
      (w.contexts k).responseStatus ≠ .serverProgress →
      (w'.contexts k).responseStatus ≠ .serverProgress := by
    intro w w' hw hs
    by_cases hk : k = s.sched.allocated
    · subst hk
      exact hw.status hs
    · rw [(hw.contexts k hk).status]
      exact hs
  cases hshape with
  | outside _ hw _ => exact hout _ _ hw (h.status k)
  | @exec i r m _ hm hw _ =>
    rw [hw,hm.contexts]
    by_cases hk : k = r.context
    · subst hk
      rw [Function.update_self]
      exact hm.status (h.status r.context)
    · rw [Function.update_of_ne hk]
      exact h.status k
  | idle _ _ _ hw => rw [hw]; exact h.status k
  | dispatch _ _ _ _ _ hw => rw [hw]; exact h.status k
  | finish _ _ _ _ _ hw => exact hout _ _ hw (h.status k)

/-- What is sent for a context in a progress packet is work on it. -/
theorem worksOn_of_progress {e : ServerEvent} {k : ContextRef} (h : progressOf k e ≠ none) :
    e.worksOn k = true := by
  cases e with
  | progress connection context piece => simpa [progressOf,ServerEvent.worksOn] using h
  | _ => exact absurd rfl h

/-- The pieces of progress packets stand before those of the answer. -/
theorem step_sentOrder (h : Packets s) (hset : Settled s) (hshape : RoundStep s s' a)
    (k : ContextRef) : pieces (sentFor k) s'.world.log =
      pieces (progressOf k) s'.world.log ++ pieces (answerOf k) s'.world.log := by
  -- the pieces of the answer may grow while the others do not
  have hclient : ∀ new : List ServerEvent, (∀ e ∈ new, progressOf k e = none) →
      pieces (sentFor k) (new ++ s.world.log) =
        pieces (progressOf k) (new ++ s.world.log) ++ pieces (answerOf k) (new ++ s.world.log) := by
    intro new hnew
    have hsent : pieces (sentFor k) new = pieces (answerOf k) new :=
      List.filterMap_congr (fun e he => by
        rw [sentFor,hnew e (List.mem_reverse.mp he),Option.none_or])
    rw [pieces_append,pieces_append,pieces_append,h.order,pieces_nil hnew,hsent,List.append_nil,
      List.append_assoc]
  obtain ⟨new,hlog,hnew⟩ := hshape.newEvents
  rw [hlog]
  cases hnew with
  | client hnew => exact hclient new (fun e he => progressOf_byClient (hnew e he))
  | @invoked t _ => exact hclient [.invoked t] (by simp [progressOf])
  | @moved i r m hr hm =>
    by_cases hp : pieces (answerOf k) s.world.log = []
    · have hnone : ∀ e ∈ m.events, answerOf k e = none := fun e he =>
        answerOf_inside (shift_byClient hm.shift e he)
      have hsent : pieces (sentFor k) m.events = pieces (progressOf k) m.events :=
        List.filterMap_congr (fun e he => by
          rw [sentFor,hnone e (List.mem_reverse.mp he),Option.or_none])
      rw [pieces_append,pieces_append,pieces_append,h.order,pieces_nil hnone,hp,hsent,
        List.append_nil,List.append_nil,List.append_nil]
    · -- the context is done, so the executor writes nothing for it
      apply hclient m.events
      intro e he
      by_contra hne
      have hwork := worksOn_of_progress hne
      obtain ⟨rfl,hd⟩ := shift_worksOn hm.shift (hset.round r hr) he hwork
      rw [(h.answers _).done hp] at hd
      cases hd

theorem step_packets (h : Packets s) (hset : Settled s) (hshape : RoundStep s s' a)
    (hclient : ClientStep s.sched.allocated s'.sched.allocated a s.world s'.world)
    (hd : ∀ k, (s.world.contexts k).done = true → (s'.world.contexts k).done = true) :
    Packets s' := by
  obtain ⟨he,ha,hf⟩ := step_answers h hclient hd
  exact ⟨step_status h hshape,step_progress h hshape,step_sentOrder h hset hshape,he,ha,hf⟩

theorem reachable_packets
    (h : ServerReachableIf (fun core w a => settlesOnce core w a = true) s) :
    Marked s ∧ Settled s ∧ Packets s := by
  have hrun := h.invariant (P := fun s => Consistent s ∧ Marked s ∧ Settled s ∧ Packets s)
    (fun s a s' ⟨hc,hm,hset,hp⟩ ⟨hok,he⟩ => by
      have hshape := serverStep_shape hc he
      have hm' := step_marked hm hc he
      exact ⟨step_consistent hc he,hm',step_settled hset hc hm hok hshape,
        step_packets hp hset hshape (serverStep_client he) (hm.mono hm' hshape)⟩)
    ⟨consistent_init,marked_init,settled_init,packets_init⟩
  exact hrun.2

/-- One command is answered once: after its context is marked the executor leaves it alone,
and what is written for it is progress packets, whole ones unless a `send_all` of them
failed, and then one final packet. -/
structure OneAnswer (log : List ServerEvent) (k : ContextRef) : Prop where
  order : pieces (sentFor k) log = pieces (progressOf k) log ++ pieces (answerOf k) log
  progress : .sendFailed k ∉ log → ∃ chunks : List Text,
    pieces (progressOf k) log <+: chunks.flatMap (packetPieces .serverProgress) ∧
    (.setDone k ∈ log → pieces (progressOf k) log = chunks.flatMap (packetPieces .serverProgress))
  final : ∃ status output, status ≠ .serverProgress ∧
    pieces (answerOf k) log <+: packetPieces status output ∧
    (.answered k ∈ log → pieces (answerOf k) log = packetPieces status output)
  once : log.count (.answered k) ≤ 1

/-- Nothing is in transit for a context that is done. -/
theorem inTransit_done (hset : Settled s) {k : ContextRef}
    (hd : (s.world.contexts k).done = true) : inTransit s.world k = [] := by
  cases hr : s.world.round with
  | none => exact inTransit_none hr k
  | some r =>
    rw [inTransit_some hr]
    split
    · rename_i hk
      have hleft := hset.round r hr
      rw [hk,hd] at hleft
      cases hp : r.pc with
      | sending site chunk rest => rw [hp] at hleft; cases hleft
      | _ => rfl
    · rfl

theorem Packets.oneAnswer (h : Packets s) (hm : Marked s) (hset : Settled s) (k : ContextRef) :
    OneAnswer s.world.log k := by
  refine ⟨h.order k,fun hf => ?_,(h.answers k).prefix_of,(h.answers k).once⟩
  obtain ⟨chunks,hc⟩ := h.progress k hf
  refine ⟨chunks,⟨inTransit s.world k,hc⟩,fun hdone => ?_⟩
  rwa [inTransit_done hset ((hm.done_iff k).mpr hdone),List.append_nil] at hc

theorem answeredOnce {s : State TaskLinks}
    (h : ServerReachableIf (fun core w a => settlesOnce core w a = true) s) :
    SettledOnce s.world.log ∧ ∀ k, OneAnswer s.world.log k := by
  obtain ⟨l,hl,hr⟩ := serverReachableIf_refines h
  obtain ⟨hm,hset,hp⟩ := reachable_packets hl
  rw [hr.world]
  exact ⟨hset.order,hp.oneAnswer hm hset⟩

/-- A demo of one second that prints one byte and exits, and its answer. -/
def answeredDemo : List ServerAction :=
  [.accept 4,.request 0 (.program "./demo 1".toList ["./demo".toList,"1".toList] 1),.enter,
   .exec .go,.exec (.started true),.childWrite 1 "x".toList,.exec .go,.exec .go,
   .exec (.readSome 1 true),.exec (.sent true),.exec (.sent true),.exec (.sent true),
   .exec .readAgain,.exec .go,.childExit 1,.exec .go,.exec .readEof,.exec .go,.exec .go,.exec .go,
   .exec .go,.finish,.poll 0,.fetch 0,.send 0 true,.send 0 true]

theorem answeredOnce_answeredDemo :
    ∃ s : State TaskLinks, exec
        (guarded (fun s a => settlesOnce s.sched.toCore s.world a = true) serverStep)
        (serverInit TaskLinks) answeredDemo = some s ∧
      pieces (sentFor 0) s.world.log = packetPieces .serverProgress "x".toList ++
        packetPieces .serverContinue [] ∧
      SettledOnce s.world.log ∧ ∀ k, OneAnswer s.world.log k := by
  obtain ⟨s,he⟩ := Option.isSome_iff_exists.mp
    (show (exec (guarded (fun s a => settlesOnce s.sched.toCore s.world a = true) serverStep)
      (serverInit TaskLinks) answeredDemo).isSome = true from rfl)
  refine ⟨s,he,?_,answeredOnce (reaches_of_guarded he)⟩
  cases he
  decide

/-- A demo whose pipe cannot be read after its first second. Its context is marked, but it
is sent back to the queue, started once more and drained again. -/
def failedDrain : List ServerAction :=
  [.accept 4,.request 0 (.program "./demo 3".toList ["./demo".toList,"3".toList] 3),.enter,
   .exec .go,.exec (.started true),.exec .go,.exec .go,.exec .readError,.exec .go,
   .exec (.allocated true),.exec .go,.exec .go,.exec .go,.finish,.enter,.exec .go,
   .exec (.started true),.exec .go,.childWrite 2 "x".toList,.exec .go,.exec (.readSome 1 true),
   .exec (.sent true)]

theorem done_but_requeued :
    ∃ s : State TaskLinks, exec serverStep (serverInit TaskLinks) failedDrain = some s ∧
      ServerReachable s ∧ ¬ SettledOnce s.world.log := by
  obtain ⟨s,he⟩ := Option.isSome_iff_exists.mp
    (show (exec serverStep (serverInit TaskLinks) failedDrain).isSome = true from rfl)
  refine ⟨s,he,reaches_of_exec he,fun hs => ?_⟩
  have hlog : ∃ rest, s.world.log = .progress 0 0 (.status .serverProgress) :: rest ∧
      .setDone 0 ∈ rest := by
    cases he
    exact ⟨_,rfl,by decide⟩
  obtain ⟨rest,hlog,hm⟩ := hlog
  rw [hlog] at hs
  have hw := (List.pairwise_cons.mp hs).1 _ hm 0 rfl
  cases hw

end UnixShell.Server
