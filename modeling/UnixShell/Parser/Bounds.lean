import UnixShell.Parser.Grammar

/-! # Which lines keep the parser inside its arrays

The command array grows before it is used, so it is never overrun. No token is
longer than the line, so that only a line longer than those of the front ends
can overrun the buffer of `next_token`. The argument vector has a fixed
size that nothing checks: the parser stays inside it exactly when no segment
that it comes to has too many argument words.
-/
namespace UnixShell.Parser

/-- The call of `next_token` stays inside its buffer. -/
def TokenRead.Fits (r : TokenRead) : Prop := ∀ i ∈ r.writes, i < tokenBuffer

/-- The calls of `next_token` in the turn of a segment, up to the first that ends it. -/
def tokenReads (s : Text) : List TokenRead :=
  nextToken s ::
    match _h : (nextToken s).token with
    | none => []
    | some t =>
      if (redirectOf t).isSome then
        nextToken (nextToken s).input ::
          match _h' : (nextToken (nextToken s).input).token with
          | none => []
          | some f =>
            if (redirectOf f).isSome then [] else tokenReads (nextToken (nextToken s).input).input
      else tokenReads (nextToken s).input
termination_by s.length
decreasing_by
  · exact (nextToken_shorter _h').trans (nextToken_shorter _h)
  · exact nextToken_shorter _h

/-- No word that the token loop comes to is too long for the buffer. -/
def Legible (s : Text) : Prop := ∀ r ∈ tokenReads s, r.Fits

section Legible
variable {s t f : Text} {op : Redirect}

theorem legible_stop (hs : (nextToken s).token = none) : Legible s ↔ (nextToken s).Fits := by
  unfold Legible
  rw [tokenReads]
  split
  · simp
  next t ht => rw [hs] at ht; cases ht

theorem legible_argument (hs : (nextToken s).token = some t) (ht : redirectOf t = none) :
    Legible s ↔ (nextToken s).Fits ∧ Legible (nextToken s).input := by
  unfold Legible
  rw [tokenReads]
  split
  next hn => rw [hs] at hn; cases hn
  next t' ht' =>
    rw [hs] at ht'
    cases ht'
    simp [ht]

theorem legible_lacking (hs : (nextToken s).token = some t) (ht : redirectOf t = some op)
    (hf : ∀ f, (nextToken (nextToken s).input).token = some f → (redirectOf f).isSome = true) :
    Legible s ↔ (nextToken s).Fits ∧ (nextToken (nextToken s).input).Fits := by
  unfold Legible
  rw [tokenReads]
  split
  next hn => rw [hs] at hn; cases hn
  next t' ht' =>
    rw [hs] at ht'
    cases ht'
    simp only [ht,Option.isSome_some,if_true]
    split
    · simp
    next f hn => simp [hf f hn]

theorem legible_file (hs : (nextToken s).token = some t) (ht : redirectOf t = some op)
    (hn : (nextToken (nextToken s).input).token = some f) (hf : ¬(redirectOf f).isSome = true) :
    Legible s ↔ (nextToken s).Fits ∧ (nextToken (nextToken s).input).Fits ∧
      Legible (nextToken (nextToken s).input).input := by
  unfold Legible
  rw [tokenReads]
  split
  next hn => rw [hs] at hn; cases hn
  next t' ht' =>
    rw [hs] at ht'
    cases ht'
    simp only [ht,Option.isSome_some,if_true]
    split
    next hno => rw [hn] at hno; cases hno
    next f' hf' =>
      rw [hn] at hf'
      cases hf'
      simp [hf]

theorem nextToken_fits (hlen : s.length < tokenBuffer) : (nextToken s).Fits :=
  fun i hi => (nextToken_writes s i hi).trans_lt hlen

/-- No word is longer than its line. -/
theorem legible_of_length (hlen : s.length < tokenBuffer) : Legible s := by
  have hr := reads_reading s
  generalize reading s = r at hr
  induction hr with
  | stop hs => exact (legible_stop hs).mpr (nextToken_fits hlen)
  | argument hs ht hr ih =>
    exact (legible_argument hs ht).mpr
      ⟨nextToken_fits hlen,ih ((nextToken_shorter hs).trans hlen)⟩
  | lacking hs ht hf =>
    exact (legible_lacking hs ht hf).mpr
      ⟨nextToken_fits hlen,nextToken_fits ((nextToken_shorter hs).trans hlen)⟩
  | file hs ht hn hf hr ih =>
    have hlt := (nextToken_shorter hs).trans hlen
    exact (legible_file hs ht hn hf).mpr
      ⟨nextToken_fits hlen,nextToken_fits hlt,ih ((nextToken_shorter hn).trans hlt)⟩

end Legible

/-- A run that only adds accesses, all of them in bounds under the condition. -/
def Leads (ok : Prop) (m m' : Machine) : Prop :=
  ∃ new, m'.accesses = m.accesses ++ new ∧ (ok → ∀ a ∈ new, a.InBounds)

namespace Leads
variable {ok : Prop} {m m' m'' : Machine}

theorem of_accesses_eq (h : m'.accesses = m.accesses) : Leads ok m m' :=
  ⟨[],by simp [h],by simp⟩

theorem allocate (m : Machine) : Leads ok m m.allocate := of_accesses_eq rfl

theorem print (m : Machine) (s : String) : Leads ok m (m.print s) := of_accesses_eq rfl

theorem trans (h : Leads ok m m') (h' : Leads ok m' m'') : Leads ok m m'' := by
  obtain ⟨new,he,hin⟩ := h
  obtain ⟨new',he',hin'⟩ := h'
  refine ⟨new ++ new',by rw [he',he,List.append_assoc],?_⟩
  intro hok a ha
  exact (List.mem_append.mp ha).elim (hin hok a) (hin' hok a)

theorem touch {as : List Access} (h : ok → ∀ a ∈ as, a.InBounds) : Leads ok m (m.touch as) :=
  ⟨as,rfl,h⟩

theorem read {r : TokenRead} (h : ok → r.Fits) : Leads ok m (m.read r) := by
  refine ⟨_,rfl,?_⟩
  intro hok a ha
  obtain ⟨i,hi,rfl⟩ := List.mem_map.mp ha
  exact h hok i hi

/-- A call of `next_token` fits where the whole run is in bounds. -/
theorem fits {r : TokenRead} (h : Leads False (m.read r) m')
    (hin : ∀ a ∈ m'.accesses, a.InBounds) : r.Fits := by
  intro i hi
  obtain ⟨new,he,_⟩ := h
  refine hin (.token i) ?_
  rw [he]
  exact List.mem_append_left _ (List.mem_append_right _ (List.mem_map_of_mem hi))

theorem mem (h : Leads ok m m') {a : Access} (ha : a ∈ m.accesses) : a ∈ m'.accesses := by
  obtain ⟨new,he,_⟩ := h
  rw [he]
  exact List.mem_append_left _ ha

end Leads

section Tokens
variable (alloc : ℕ → Bool) {fuel : ℕ} {s : Text} {r : Reading}

theorem parseTokens_leads (ok : Prop) (hr : Reads s r) (hfuel : s.length < fuel) (cmd : Command)
    (m : Machine)
    (h : ok → Legible s ∧ cmd.argv.length+r.arguments.length ≤ maxTokens) :
    Leads ok m (parseTokens alloc fuel s cmd m).2 := by
  induction hr generalizing fuel cmd m with
  | stop hs =>
    obtain ⟨n,rfl⟩ := Nat.exists_eq_add_of_lt hfuel
    rw [parseTokens_stop _ _ _ _ hs]
    rw [legible_stop hs] at h
    exact .read fun hok => (h hok).1
  | argument hs ht hr ih =>
    obtain ⟨n,rfl⟩ := Nat.exists_eq_add_of_lt hfuel
    have hlt := nextToken_shorter hs
    rw [parseTokens_argument _ _ _ _ hs ht]
    simp only [legible_argument hs ht,Reading.argument_arguments,List.length_cons] at h
    refine (Leads.read fun hok => (h hok).1.1).trans ((Leads.allocate _).trans
      ((Leads.touch ?_).trans (ih (by omega) _ _ ?_)))
    · intro hok a ha
      obtain rfl := List.mem_singleton.mp ha
      have hb := (h hok).2
      show cmd.argv.length < maxTokens
      omega
    · intro hok
      have hb := h hok
      simp only [Command.push_argv,List.length_append,List.length_singleton]
      exact ⟨hb.1.2,by omega⟩
  | lacking hs ht hf =>
    obtain ⟨n,rfl⟩ := Nat.exists_eq_add_of_lt hfuel
    have hlt := nextToken_shorter hs
    rw [parseTokens_lacking _ _ _ _ hs ht hf]
    rw [legible_lacking hs ht hf] at h
    exact (Leads.read fun hok => (h hok).1.1).trans
      ((Leads.read fun hok => (h hok).1.2).trans (.print _ _))
  | file hs ht hn hf hr ih =>
    obtain ⟨n,rfl⟩ := Nat.exists_eq_add_of_lt hfuel
    have hlt := nextToken_shorter hs
    have hlt' := nextToken_shorter hn
    rw [parseTokens_file _ _ _ _ hs ht hn hf]
    rw [legible_file hs ht hn hf] at h
    refine (Leads.read fun hok => (h hok).1.1).trans ((Leads.read fun hok => (h hok).1.2.1).trans
      ((Leads.allocate _).trans (ih (by omega) _ _ fun hok => ?_)))
    rw [Command.redirect_argv]
    exact ⟨(h hok).1.2.2,(h hok).2⟩

/-- The loop writes all that its calls of `next_token` do. -/
theorem parseTokens_legible (hr : Reads s r) (hfuel : s.length < fuel) (cmd : Command)
    (m : Machine) (h : ∀ a ∈ (parseTokens alloc fuel s cmd m).2.accesses, a.InBounds) :
    Legible s := by
  have hrest : ∀ {fuel s r}, Reads s r → s.length < fuel → ∀ cmd m,
      Leads False m (parseTokens alloc fuel s cmd m).2 := fun hr hfuel cmd m =>
    parseTokens_leads alloc False hr hfuel cmd m (False.elim ·)
  induction hr generalizing fuel cmd m with
  | stop hs =>
    obtain ⟨n,rfl⟩ := Nat.exists_eq_add_of_lt hfuel
    rw [parseTokens_stop _ _ _ _ hs] at h
    exact (legible_stop hs).mpr (Leads.fits (.of_accesses_eq rfl) h)
  | argument hs ht hr ih =>
    obtain ⟨n,rfl⟩ := Nat.exists_eq_add_of_lt hfuel
    have hlt := nextToken_shorter hs
    rw [parseTokens_argument _ _ _ _ hs ht] at h
    refine (legible_argument hs ht).mpr ⟨Leads.fits (m := m) ?_ h,ih (by omega) _ _ h⟩
    exact (Leads.allocate _).trans ((Leads.touch (False.elim ·)).trans (hrest hr (by omega) _ _))
  | lacking hs ht hf =>
    obtain ⟨n,rfl⟩ := Nat.exists_eq_add_of_lt hfuel
    rw [parseTokens_lacking _ _ _ _ hs ht hf] at h
    refine (legible_lacking hs ht hf).mpr ⟨Leads.fits (m := m) ?_ h,Leads.fits (.print _ _) h⟩
    exact (Leads.read (False.elim ·)).trans (.print _ _)
  | @file s t f op r hs ht hn hf hr ih =>
    obtain ⟨n,rfl⟩ := Nat.exists_eq_add_of_lt hfuel
    have hlt := nextToken_shorter hs
    have hlt' := nextToken_shorter hn
    rw [parseTokens_file _ _ _ _ hs ht hn hf] at h
    refine (legible_file hs ht hn hf).mpr
      ⟨Leads.fits (m := m) ?_ h,Leads.fits (m := m.read (nextToken s)) ?_ h,ih (by omega) _ _ h⟩
    · exact (Leads.read (False.elim ·)).trans ((Leads.allocate _).trans (hrest hr (by omega) _ _))
    · exact (Leads.allocate _).trans (hrest hr (by omega) _ _)

/-- Every argument word of a reading is written behind those the command has. -/
theorem parseTokens_writes (hr : Reads s r) (hfuel : s.length < fuel) (cmd : Command) (m : Machine)
    {i : ℕ} (hlo : cmd.argv.length ≤ i) (hhi : i < cmd.argv.length+r.arguments.length) :
    Access.argv i ∈ (parseTokens alloc fuel s cmd m).2.accesses := by
  induction hr generalizing fuel cmd m with
  | stop hs =>
    simp only [Reading.empty,List.length_nil] at hhi
    omega
  | argument hs ht hr ih =>
    obtain ⟨n,rfl⟩ := Nat.exists_eq_add_of_lt hfuel
    have hlt := nextToken_shorter hs
    rw [parseTokens_argument _ _ _ _ hs ht]
    rcases hlo.eq_or_lt with rfl | hlo
    · refine (parseTokens_leads alloc False hr (by omega) _ _ (False.elim ·)).mem ?_
      simp
    · simp only [Reading.argument_arguments,List.length_cons] at hhi
      apply ih (by omega) <;> simp only [Command.push_argv,List.length_append,List.length_singleton]
      · exact hlo
      · omega
  | lacking hs ht hf =>
    simp only [List.length_nil] at hhi
    omega
  | file hs ht hn hf hr ih =>
    obtain ⟨n,rfl⟩ := Nat.exists_eq_add_of_lt hfuel
    have hlt := nextToken_shorter hs
    have hlt' := nextToken_shorter hn
    rw [parseTokens_file _ _ _ _ hs ht hn hf]
    apply ih (by omega) <;> rw [Command.redirect_argv]
    · exact hlo
    · exact hhi

end Tokens

/-- The command array has room for the commands parsed so far. -/
def Building.Roomy (b : Building) : Prop := b.commands.length ≤ b.capacity ∧ 0 < b.capacity

/-- The argument words fit, with the NULL behind them where the parser comes to write it. -/
def Reading.Bounded (r : Reading) : Prop :=
  r.arguments.length ≤ maxTokens ∧ (r.lacking = none → r.arguments.length < maxTokens)

/-- Every segment that the parser comes to has its words fit. -/
def Fits : List Text → Prop
  | [] => True
  | s :: rest =>
    (segmentReading s).Bounded ∧ ((segmentReading s).GoesOn rest → Fits rest)

/-- Every argument vector that the parser comes to fill ends with a NULL within its slots. -/
def Terminated : List Text → Prop
  | [] => True
  | s :: rest =>
    (segmentReading s).arguments.length < maxTokens ∧
      ((segmentReading s).GoesOn rest → Terminated rest)

theorem terminated_of_forall {segs : List Text}
    (h : ∀ s ∈ segs, (segmentReading s).arguments.length < maxTokens) : Terminated segs := by
  induction segs with
  | nil => trivial
  | cons s rest ih =>
    obtain ⟨hs,hrest⟩ := List.forall_mem_cons.mp h
    exact ⟨hs,fun _ => ih hrest⟩

/-- Of a line that is accepted the parser comes to every segment. -/
theorem Terminated.forall_of_wellFormed {segs : List Text} (h : Terminated segs)
    (hwf : ∀ s ∈ segs, (segmentReading s).WellFormed) :
    ∀ s ∈ segs, (segmentReading s).arguments.length < maxTokens := by
  induction segs with
  | nil => exact fun s hs => (by cases hs)
  | cons s rest ih =>
    obtain ⟨hs,hrest⟩ := List.forall_mem_cons.mp hwf
    exact List.forall_mem_cons.mpr ⟨h.1,ih (h.2 ⟨hs.1,.inl hs.2⟩) hrest⟩

theorem Terminated.fits {segs : List Text} (h : Terminated segs) : Fits segs := by
  induction segs with
  | nil => trivial
  | cons s rest ih => exact ⟨⟨h.1.le,fun _ => h.1⟩,fun hgo => ih (h.2 hgo)⟩

section Segments
variable {alloc : ℕ → Bool} {ok : Prop} {rest : List Text}

theorem freeCommands_leads {b : Building} {count : ℕ} (h : count ≤ b.capacity) (m : Machine) :
    Leads ok m (freeCommands b count m) := by
  refine .touch fun _ a ha => ?_
  obtain ⟨i,hi,rfl⟩ := List.mem_map.mp ha
  exact (List.mem_range.mp hi).trans_le h

theorem grow_leads (b : Building) (m : Machine) : Leads ok m (grow alloc b m).2 := by
  unfold grow
  split
  · split
    · refine (Leads.allocate m).trans (.touch fun _ a ha => ?_)
      obtain ⟨i,hi,rfl⟩ := List.mem_map.mp ha
      obtain ⟨_,hi⟩ := List.mem_range'_1.mp hi
      show i < b.capacity*2
      omega
    · exact .of_accesses_eq rfl
  · exact .of_accesses_eq rfl

theorem grow_roomy {b b' : Building} {m : Machine} (hb : b.Roomy)
    (h : (grow alloc b m).1 = some b') :
    b'.commands = b.commands ∧ b.commands.length < b'.capacity := by
  obtain ⟨hle,hpos⟩ := hb
  unfold grow at h
  split at h
  · split at h
    · cases h
      exact ⟨rfl,by dsimp only; omega⟩
    · cases h
  · cases h
    exact ⟨rfl,by omega⟩

theorem closeCommand_leads {b : Building} (hroom : b.commands.length < b.capacity) (cmd : Command)
    (m : Machine) (h : ok → cmd.argv.length < maxTokens) :
    Leads ok m (closeCommand rest b cmd m).2 := by
  unfold closeCommand
  split
  · split
    · exact .of_accesses_eq rfl
    · exact (Leads.print m _).trans (freeCommands_leads hroom _)
  · exact .touch fun hok a ha => by
      obtain rfl := List.mem_singleton.mp ha
      exact h hok

theorem closeCommand_roomy {b b' : Building} {cmd : Command} {m : Machine}
    (hroom : b.commands.length < b.capacity) (h : (closeCommand rest b cmd m).1 = some b') :
    b'.Roomy := by
  unfold closeCommand at h
  split at h
  · split at h
    · cases h
      exact ⟨hroom.le,Nat.zero_lt_of_lt hroom⟩
    · cases h
  · cases h
    exact ⟨by rw [List.length_append]; exact hroom,Nat.zero_lt_of_lt hroom⟩

theorem fillCommand_leads {b : Building} (hroom : b.commands.length < b.capacity) (trimmed : Text)
    (m : Machine) (h : ok → Legible trimmed ∧ (reading trimmed).Bounded) :
    Leads ok m (fillCommand alloc trimmed rest b m).2 := by
  have hr := reads_reading trimmed
  have hfuel := Nat.lt_succ_self trimmed.length
  have hf := parseTokens_follows alloc hr hfuel Command.fresh m.allocate
  have hp := parseTokens_leads alloc ok hr hfuel Command.fresh m.allocate
    fun hok => ⟨(h hok).1,by simpa [Command.fresh] using (h hok).2.1⟩
  unfold fillCommand
  split
  · split
    next m' he =>
      rw [he] at hp
      exact ((Leads.allocate m).trans hp).trans
        (freeCommands_leads hroom _)
    next cmd m' he =>
      rw [he] at hp hf
      refine ((Leads.allocate m).trans hp).trans
        (closeCommand_leads hroom cmd m' fun hok => ?_)
      have hl : (reading trimmed).lacking = none := by
        by_contra hl
        cases hf.rejected.mpr hl
      have hargc := hf.argc cmd rfl
      have hlt := (h hok).2.2 hl
      simp only [Command.fresh,List.length_nil] at hargc
      omega
  · exact (Leads.allocate m).trans (freeCommands_leads hroom.le _)

theorem parseSegment_leads {b : Building} (hb : b.Roomy) (segment : Text) (m : Machine)
    (h : ok → Legible (trimWhitespace segment) ∧ (segmentReading segment).Bounded) :
    Leads ok m (parseSegment alloc segment rest b m).2 := by
  unfold parseSegment
  split
  · exact (Leads.print m _).trans (freeCommands_leads hb.1 _)
  · have hg : Leads ok m (grow alloc b m).2 := grow_leads b m
    split
    next m' he =>
      rw [he] at hg
      exact hg.trans (freeCommands_leads hb.1 _)
    next b' m' he =>
      rw [he] at hg
      obtain ⟨hc,hroom⟩ := grow_roomy hb (congrArg Prod.fst he)
      rw [← hc] at hroom
      refine hg.trans (.trans (.touch fun _ a ha => ?_) (fillCommand_leads hroom _ _ h))
      obtain rfl := List.mem_singleton.mp ha
      exact hroom

theorem parseSegment_roomy {b b' : Building} {segment : Text} {m : Machine} (hb : b.Roomy)
    (h : (parseSegment alloc segment rest b m).1 = some b') : b'.Roomy := by
  unfold parseSegment at h
  split at h
  · cases h
  · split at h
    · cases h
    next b₁ m₁ he =>
      obtain ⟨hc,hroom⟩ := grow_roomy hb (congrArg Prod.fst he)
      rw [← hc] at hroom
      unfold fillCommand at h
      split at h
      · split at h
        · cases h
        · exact closeCommand_roomy hroom h
      · cases h

theorem parseSegments_leads (ok : Prop) (segs : List Text) {b : Building} (hb : b.Roomy)
    (m : Machine)
    (h : ok → (∀ s ∈ segs, Legible (trimWhitespace s)) ∧ Fits segs) :
    Leads ok m (parseSegments alloc segs b m).2 := by
  induction segs generalizing b m with
  | nil =>
    simp only [parseSegments,finishLine]
    split
    · exact .of_accesses_eq rfl
    · split
      · exact (Leads.print m _).trans (freeCommands_leads hb.1 _)
      · exact .of_accesses_eq rfl
  | cons s segs ih =>
    have hs : Leads ok m (parseSegment alloc s segs b m).2 := parseSegment_leads hb s m
      fun hok => ⟨(h hok).1 s List.mem_cons_self,(h hok).2.1⟩
    simp only [parseSegments]
    split
    next m' he => rwa [he] at hs
    next b' m' he =>
      rw [he] at hs
      refine hs.trans (ih (parseSegment_roomy hb (congrArg Prod.fst he)) m' fun hok => ?_)
      exact ⟨fun x hx => (h hok).1 x (List.mem_cons_of_mem s hx),
        (h hok).2.2 (parseSegment_goesOn (congrArg Prod.fst he))⟩

end Segments

section Overruns
variable {alloc : ℕ → Bool} (hfull : ∀ n, alloc n = true)
include hfull

theorem fillCommand_overruns {trimmed : Text} (h : ¬(reading trimmed).Bounded) (rest : List Text)
    (b : Building) (m : Machine) :
    ∃ a ∈ (fillCommand alloc trimmed rest b m).2.accesses, ¬a.InBounds := by
  have hr := reads_reading trimmed
  have hfuel := Nat.lt_succ_self trimmed.length
  have hf := parseTokens_follows alloc hr hfuel Command.fresh m.allocate
  unfold fillCommand
  rw [if_pos (hfull _)]
  by_cases hl : (reading trimmed).lacking = none
  · -- the NULL behind the words is outside
    have hlong : maxTokens ≤ (reading trimmed).arguments.length := by
      by_contra hlt
      exact h ⟨by omega,fun _ => by omega⟩
    have hp := parseTokens_extend hfull hr hfuel hl Command.fresh m.allocate
    split
    next m' he => rw [he] at hp; cases hp
    next cmd m' he =>
      rw [he] at hp
      cases hp
      have hne : (Command.fresh.extend (reading trimmed)).argv.length ≠ 0 := by
        simp only [fresh_extend_argv,List.length_map]
        have hpos : 0 < maxTokens := by decide
        omega
      rw [closeCommand,if_neg hne]
      refine ⟨_,List.mem_append_right _ List.mem_cons_self,?_⟩
      simpa [Access.InBounds] using hlong
  · -- the first word too many is
    have hlong : maxTokens < (reading trimmed).arguments.length := by
      by_contra hle
      exact h ⟨by omega,fun hn => absurd hn hl⟩
    have hw : Access.argv maxTokens ∈
        (parseTokens alloc (trimmed.length+1) trimmed Command.fresh m.allocate).2.accesses :=
      parseTokens_writes alloc hr hfuel _ _ (Nat.zero_le _) (by simpa [Command.fresh] using hlong)
    have hnone := hf.rejected.mpr hl
    split
    next m' he =>
      rw [he] at hw
      exact ⟨_,List.mem_append_left _ hw,Nat.lt_irrefl _⟩
    next cmd m' he => rw [he] at hnone; cases hnone

theorem parseSegment_overruns {segment : Text} (h : ¬(segmentReading segment).Bounded)
    (rest : List Text) (b : Building) (m : Machine) :
    ∃ a ∈ (parseSegment alloc segment rest b m).2.accesses, ¬a.InBounds := by
  have ht : trimWhitespace segment ≠ [] := by
    intro ht
    rw [segmentReading_blank ht] at h
    exact h ⟨by decide,fun _ => by decide⟩
  obtain ⟨cap,hg⟩ := grow_full hfull b m
  unfold parseSegment
  rw [if_neg ht]
  split
  next m' he => rw [he] at hg; cases hg
  next b' m' he => exact fillCommand_overruns hfull h rest b' _

theorem parseSegments_overruns (segs : List Text) {b : Building} (hb : b.Roomy) (m : Machine)
    (h : ¬Fits segs) : ∃ a ∈ (parseSegments alloc segs b m).2.accesses, ¬a.InBounds := by
  induction segs generalizing b m with
  | nil => exact absurd trivial h
  | cons s segs ih =>
    simp only [parseSegments]
    by_cases hs : (segmentReading s).Bounded
    · obtain ⟨hg,hfits⟩ : (segmentReading s).GoesOn segs ∧ ¬Fits segs := by
        by_contra hn
        exact h ⟨hs,fun hg => by_contra fun hfits => hn ⟨hg,hfits⟩⟩
      obtain ⟨b',hb',_⟩ := parseSegment_full hfull hg b m
      split
      next m' he => rw [he] at hb'; cases hb'
      next b₁ m' he => exact ih (parseSegment_roomy hb (congrArg Prod.fst he)) m' hfits
    · obtain ⟨a,ha,hout⟩ := parseSegment_overruns hfull hs segs b m
      split
      next m' he => rw [he] at ha; exact ⟨a,ha,hout⟩
      next b' m' he =>
        rw [he] at ha
        have hb' := parseSegment_roomy hb (congrArg Prod.fst he)
        exact ⟨a,(parseSegments_leads False segs hb' m' (False.elim ·)).mem ha,hout⟩

/-- A segment that is come to is read into the buffer. -/
theorem fillCommand_legible {trimmed : Text} {rest : List Text} {b : Building} {m : Machine}
    (hroom : b.commands.length < b.capacity)
    (h : ∀ a ∈ (fillCommand alloc trimmed rest b m).2.accesses, a.InBounds) : Legible trimmed := by
  refine parseTokens_legible alloc (reads_reading trimmed) (Nat.lt_succ_self trimmed.length)
    Command.fresh m.allocate fun a ha => h a ?_
  unfold fillCommand
  rw [if_pos (hfull _)]
  split
  next m' he =>
    rw [he] at ha
    have hleads : Leads False m' _ := freeCommands_leads hroom m'
    exact hleads.mem ha
  next cmd m' he =>
    rw [he] at ha
    exact (closeCommand_leads hroom cmd m' (False.elim ·)).mem ha

theorem parseSegment_legible {segment : Text} {rest : List Text} {b : Building} {m : Machine}
    (hb : b.Roomy) (h : ∀ a ∈ (parseSegment alloc segment rest b m).2.accesses, a.InBounds) :
    Legible (trimWhitespace segment) := by
  by_cases ht : trimWhitespace segment = []
  · rw [ht]
    exact legible_of_length (by decide)
  · obtain ⟨cap,hg⟩ := grow_full hfull b m
    unfold parseSegment at h
    rw [if_neg ht] at h
    split at h
    next m' he => rw [he] at hg; cases hg
    next b' m' he =>
      obtain ⟨hc,hroom⟩ := grow_roomy hb (congrArg Prod.fst he)
      rw [← hc] at hroom
      exact fillCommand_legible hfull hroom h

theorem parseLine_legible {line segment : Text} {rest : List Text}
    (hs : segments line = segment :: rest) (hline : trimWhitespace line ≠ [])
    (h : ∀ a ∈ (parseLine alloc (some line)).2.accesses, a.InBounds) :
    Legible (trimWhitespace segment) := by
  have hroomy : Building.start.Roomy := ⟨by decide,by decide⟩
  simp only [parseLine,hline,hfull,if_false,if_true,hs,parseSegments] at h
  have hfirst := @parseSegment_legible alloc hfull segment rest _ Machine.start.allocate.allocate
    hroomy
  refine hfirst fun a ha => h a ?_
  split
  next m' he => rwa [he] at ha
  next b' m' he =>
    rw [he] at ha
    have hb' := parseSegment_roomy hroomy (congrArg Prod.fst he)
    exact (parseSegments_leads False rest hb' m' (False.elim ·)).mem ha

end Overruns

theorem trimWhitespace_length (s : Text) : (trimWhitespace s).length ≤ s.length := by
  have hr := (List.rdropWhile_prefix blank (s.dropWhile blank)).length_le
  exact hr.trans (List.dropWhile_suffix blank).length_le

theorem segments_length {line s : Text} (hs : s ∈ segments line) : s.length ≤ line.length :=
  (length_le_of_mem_splitOn hs).trans (List.rdropWhile_prefix blank line).length_le

theorem fits_blank {line : Text} (h : trimWhitespace line = []) : Fits (segments line) := by
  rw [segments_blank h]
  refine ⟨?_,fun _ => trivial⟩
  rw [segmentReading_blank rfl]
  exact ⟨by decide,fun _ => by decide⟩

theorem parseLine_overruns {alloc : ℕ → Bool} (hfull : ∀ n, alloc n = true) {line : Text}
    (h : ¬Fits (segments line)) : ∃ a ∈ (parseLine alloc (some line)).2.accesses, ¬a.InBounds := by
  have hroomy : Building.start.Roomy := ⟨by decide,by decide⟩
  have hblank : ¬trimWhitespace line = [] := fun hblank => h (fits_blank hblank)
  simpa only [parseLine,hblank,hfull,if_false,if_true] using
    parseSegments_overruns hfull (segments line) hroomy Machine.start.allocate.allocate h

/-- A line of any length stays inside the arrays when its words do. -/
theorem parseLine_inside (alloc : ℕ → Bool) {line : Text}
    (htoken : ∀ s ∈ segments line, Legible (trimWhitespace s)) (h : Fits (segments line)) :
    ∀ a ∈ (parseLine alloc (some line)).2.accesses, a.InBounds := by
  have hroomy : Building.start.Roomy := ⟨by decide,by decide⟩
  have hleads : Leads True .start (parseLine alloc (some line)).2 := by
    simp only [parseLine]
    split
    · exact .of_accesses_eq rfl
    · split
      · split
        · exact .trans (.of_accesses_eq rfl)
            (parseSegments_leads True _ hroomy Machine.start.allocate.allocate
              fun _ => ⟨htoken,h⟩)
        · exact .of_accesses_eq rfl
      · exact .of_accesses_eq rfl
  obtain ⟨new,he,hin⟩ := hleads
  rw [he]
  exact hin trivial

theorem parseLine_inBounds (alloc : ℕ → Bool) {line : Text} (hlen : line.length ≤ 1023)
    (h : Fits (segments line)) : ∀ a ∈ (parseLine alloc (some line)).2.accesses, a.InBounds := by
  refine parseLine_inside alloc (fun s hs => legible_of_length ?_) h
  have htrim := trimWhitespace_length s
  have hseg := segments_length hs
  show _ < 4096
  omega

/-- Every access of the parser on a line that the front ends can pass on is in bounds, whatever
the allocator does, exactly when the words of the segments it comes to fit. -/
theorem parserInBounds (line : Text) (hlen : line.length ≤ 1023) :
    (∀ alloc, ∀ a ∈ (parseLine alloc (some line)).2.accesses, a.InBounds) ↔
      Fits (segments line) := by
  constructor
  · intro h
    by_contra hfits
    obtain ⟨a,ha,hout⟩ := parseLine_overruns (fun _ => rfl : ∀ n, (fun _ => true) n = true) hfits
    exact hout (h _ a ha)
  · intro hfits alloc
    exact parseLine_inBounds alloc hlen hfits

/-- A line of one-letter words. -/
def letters (n : ℕ) : Text := (List.replicate n ['a',' ']).flatten

theorem parserInBounds_letters :
    (∀ alloc, ∀ a ∈ (parseLine alloc (some (letters 3))).2.accesses, a.InBounds) ↔
      Fits (segments (letters 3)) :=
  parserInBounds (letters 3) (by decide)

/-- The NULL behind a hundred words is written outside the argument vector. -/
theorem parserOverrun :
    (letters 100).length ≤ 1023 ∧
      ¬∀ alloc, ∀ a ∈ (parseLine alloc (some (letters 100))).2.accesses, a.InBounds := by
  refine ⟨by decide +kernel,fun h => ?_⟩
  have hsegments : segments (letters 100) = [(letters 100).dropLast] := by decide +kernel
  have hwords : (segmentReading (letters 100).dropLast).arguments.length = 100 ∧
      (segmentReading (letters 100).dropLast).lacking = none := by
    decide +kernel
  have hfits : ¬Fits (segments (letters 100)) := by
    rw [hsegments]
    intro hfits
    have hlt : _ < maxTokens := hfits.1.2 hwords.2
    rw [hwords.1] at hlt
    exact absurd hlt (by decide)
  obtain ⟨a,ha,hout⟩ := parseLine_overruns (fun _ => rfl : ∀ n, (fun _ => true) n = true) hfits
  exact hout (h _ a ha)

end UnixShell.Parser
