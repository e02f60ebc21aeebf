import UnixShell.Foundation.Numerals
import UnixShell.Server.Arguments
import UnixShell.Server.System

/-! # The demo command

`build_demo_argv` copies the words of a command as `split_command_argv` does, but it clears
a vector that it makes anew, spells the program out, and reads the number of iterations off
the second word, which it replaces where it cannot use it.
-/
namespace UnixShell.Server
open Foundation Scheduler
open UnixShell.Parser (blank not_blank_of_dropWhile)

def demoName : Text := ['d','e','m','o']
def demoPath : Text := ['.','/','d','e','m','o']
def defaultCount : Text := ['5']

/-- The word that is copied for a token. -/
def demoCopy (argc : ℕ) (token : Text) : Text :=
  if argc = 0 ∧ token = demoName then demoPath else token

/-- The string that a slot points to. -/
def slotText : Option Slot → Text
  | some (.copy text) => text
  | _ => []

section Building
variable (alloc : ℕ → Bool)

/-- Room for one more pointer and the NULL behind it; what is new is cleared. -/
def growDemoArgv (slots : List Slot) (argc : ℕ) (m : Storage) : Option (List Slot) × Storage :=
  if slots.length ≤ argc + 1 then
    if alloc m.requests then
      (some (slots.take argc ++ List.replicate (2 * slots.length - argc) .null),m.request)
    else (none,m.request)
  else (some slots,m)

/-- The token loop: the vector and the number of words in it. -/
def demoLoop : ℕ → Text → List Slot → ℕ → Storage → Option (List Slot × ℕ) × Storage
  | 0, _, slots, argc, m => (some (slots,argc),m)
  | fuel + 1, scan, slots, argc, m =>
    match strtokR scan with
    | none => (some (slots,argc),m)
    | some (token,scan) =>
      match growDemoArgv alloc slots argc m with
      | (none,m) => (none,freeStringArray slots m)
      | (some slots,m) =>
        if alloc m.requests then
          demoLoop fuel scan (slots.set argc (.copy (demoCopy argc token))) (argc + 1)
            (m.request.write argc slots.length)
        else
          (none,freeStringArray (slots.set argc .null) (m.request.write argc slots.length))

/-- The default count goes into a slot of the vector. -/
def storeDefault (slots : List Slot) (index : ℕ) (m : Storage) : Option (List Slot) × Storage :=
  if alloc m.requests then
    (some (slots.set index (.copy defaultCount)),m.request.write index slots.length)
  else (none,freeStringArray (slots.set index .null) (m.request.write index slots.length))

/-- The vector with a count in it, the number of its words, and the iterations. -/
def countIterations (slots : List Slot) (argc : ℕ) (m : Storage) :
    Option (List Slot × ℕ × ℤ) × Storage :=
  if 2 ≤ argc then
    let word := slotText slots[1]?
    let (parsed,rest) := strtol word
    if rest ≠ word ∧ rest = [] ∧ 0 < parsed then (some (slots,argc,narrow parsed),m)
    else
      match storeDefault alloc slots 1 m with
      | (none,m) => (none,m)
      | (some slots,m) => (some (slots,argc,demoDefaultBurst),m)
  else
    match storeDefault alloc slots argc m with
    | (none,m) => (none,m)
    | (some slots,m) => (some (slots,argc + 1,demoDefaultBurst),m)

/-- The vector, and `*iterations_out`. -/
def buildDemoArgv (command : Text) : Option (List Slot × ℤ) × Storage :=
  if alloc 0 then
    match strtokR command with
    | none => (none,Storage.start.request)
    | some (token,_) =>
      if isDemoCommand (some token) then
        if alloc 1 then
          match demoLoop alloc (command.length + 1) command (List.replicate argvCapacity .null) 0
              Storage.start.request.request with
          | (none,m) => (none,m)
          | (some (slots,argc),m) =>
            match countIterations alloc slots argc m with
            | (none,m) => (none,m)
            | (some (slots,argc,iterations),m) =>
              (some (slots.set argc .null,iterations),m.write argc slots.length)
        else (none,Storage.start.request.request)
      else (none,Storage.start.request)
  else (none,Storage.start.request)

/-- What `create_program_task` has executed for a command, and the burst, if `handle_client`
takes it for the demo. -/
def demoInvocation (command : Text) : Option (List Text × ℤ) :=
  if isDemoCommand (some command) then
    (buildDemoArgv alloc command).1.map fun built => (execArgv built.1,built.2)
  else none

end Building

/-- The second word as it is passed on, and the iterations. -/
def demoArgument (word : Text) : Text × ℤ :=
  if (strtol word).2 ≠ word ∧ (strtol word).2 = [] ∧ 0 < (strtol word).1 then
    (word,narrow (strtol word).1)
  else (defaultCount,demoDefaultBurst)

/-- The words that the demo gets, and the burst that its task gets. -/
def demoWords : List Text → List Text × ℤ
  | [] => ([],demoDefaultBurst)
  | [w] => ([demoCopy 0 w,defaultCount],demoDefaultBurst)
  | w :: count :: ws => (demoCopy 0 w :: (demoArgument count).1 :: ws,(demoArgument count).2)

/-- The words as they are copied, from an index on. -/
def demoCopies : ℕ → List Text → List Text
  | _, [] => []
  | argc, w :: ws => demoCopy argc w :: demoCopies (argc + 1) ws

theorem demoCopies_succ (n : ℕ) (ws : List Text) : demoCopies (n + 1) ws = ws := by
  induction ws generalizing n with
  | nil => rfl
  | cons w ws ih =>
    have hcopy : demoCopy (n + 1) w = w := if_neg fun h => Nat.succ_ne_zero n h.1
    rw [demoCopies,hcopy,ih]

section Loop
variable {alloc : ℕ → Bool} {slots slots' : List Slot} {ws : List Text} {m m' : Storage}
  {scan : Text} {argc fuel : ℕ}

/-- The vector with its words at the front, and three slots behind the first at least. -/
structure Stocked (slots : List Slot) (ws : List Text) : Prop extends Filled slots ws where
  wide : argvCapacity ≤ slots.length

theorem Stocked.store (h : Stocked slots ws) (hroom : ws.length + 1 < slots.length) (word : Text) :
    Stocked (slots.set ws.length (.copy word)) (ws ++ [word]) := by
  refine ⟨⟨?_,?_⟩,?_⟩
  · rw [List.length_append,List.map_append]
    exact h.set (.copy word)
  · rw [List.length_append,List.length_set]
    exact hroom
  · rw [List.length_set]
    exact h.wide

/-- The vector, made anew or not, has room. -/
theorem growDemoArgv_stocked (h : Stocked slots ws)
    (he : growDemoArgv alloc slots ws.length m = (some slots',m')) :
    Stocked slots' ws ∧ ws.length + 1 < slots'.length := by
  have hroom := h.room
  have hwide := h.wide
  simp only [argvCapacity] at hwide
  unfold growDemoArgv at he
  split at he
  · split at he
    · obtain ⟨hs,_⟩ := Prod.mk.inj he
      obtain rfl := Option.some.inj hs
      have hlen : (slots.take ws.length ++
          List.replicate (2 * slots.length - ws.length) Slot.null).length = 2 * slots.length := by
        simp only [List.length_append,List.length_take,List.length_replicate]
        omega
      refine ⟨⟨⟨?_,by omega⟩,?_⟩,by omega⟩
      · rw [List.take_append_of_le_length (by simp; omega),List.take_take,Nat.min_self]
        exact h.front
      · simp only [argvCapacity]
        omega
    · cases he
  · obtain ⟨hs,_⟩ := Prod.mk.inj he
    obtain rfl := Option.some.inj hs
    exact ⟨h,by omega⟩

theorem demoLoop_stocked (hfuel : scan.length < fuel) (h : Stocked slots ws)
    (he : demoLoop alloc fuel scan slots ws.length m = (some (slots',argc),m')) :
    Stocked slots' (ws ++ demoCopies ws.length (words blank scan)) ∧
      argc = (ws ++ demoCopies ws.length (words blank scan)).length := by
  induction fuel generalizing scan slots ws m with
  | zero => omega
  | succ fuel ih =>
    cases hs : strtokR scan with
    | none =>
      simp only [demoLoop,hs] at he
      cases he
      rw [strtokR_none hs,demoCopies,List.append_nil]
      exact ⟨h,rfl⟩
    | some r =>
      obtain ⟨token,rest⟩ := r
      obtain ⟨hwords,hlt⟩ := strtokR_some hs
      simp only [demoLoop,hs] at he
      split at he
      · cases he
      next slots₁ m₁ hgrow =>
        obtain ⟨hstocked,hroom⟩ := growDemoArgv_stocked h hgrow
        split at he
        · have hlen : (ws ++ [demoCopy ws.length token]).length = ws.length + 1 := by simp
          rw [← hlen] at he
          have hnext := ih (by omega) (hstocked.store hroom _) he
          rw [hlen,List.append_assoc] at hnext
          rw [hwords]
          exact hnext
        · cases he

theorem growDemoArgv_full (hfull : ∀ n, alloc n = true) (slots : List Slot) (argc : ℕ)
    (m : Storage) : ∃ slots' m', growDemoArgv alloc slots argc m = (some slots',m') := by
  unfold growDemoArgv
  rw [if_pos (hfull _)]
  split <;> exact ⟨_,_,rfl⟩

theorem demoLoop_full (hfull : ∀ n, alloc n = true) (fuel : ℕ) (scan : Text) (slots : List Slot)
    (argc : ℕ) (m : Storage) : ∃ slots' n m',
      demoLoop alloc fuel scan slots argc m = (some (slots',n),m') := by
  induction fuel generalizing scan slots argc m with
  | zero => exact ⟨_,_,_,rfl⟩
  | succ fuel ih =>
    cases hs : strtokR scan with
    | none => exact ⟨slots,argc,m,by simp only [demoLoop,hs]⟩
    | some r =>
      obtain ⟨slots₁,m₁,hgrow⟩ := growDemoArgv_full hfull slots argc m
      simp only [demoLoop,hs,hgrow,if_pos (hfull _)]
      exact ih _ _ _ _

end Loop

section Count
variable {alloc : ℕ → Bool} {slots slots' : List Slot} {w : Text} {ws : List Text}
  {m m' : Storage} {argc : ℕ} {iterations : ℤ}

theorem storeDefault_some {index : ℕ} (he : storeDefault alloc slots index m = (some slots',m')) :
    slots' = slots.set index (.copy defaultCount) := by
  unfold storeDefault at he
  split at he
  · exact (Option.some.inj (Prod.mk.inj he).1).symm
  · cases he

/-- The count is the second word, or the default takes its place. -/
theorem countIterations_stocked (h : Stocked slots (demoCopy 0 w :: ws))
    (he : countIterations alloc slots (ws.length + 1) m = (some (slots',argc,iterations),m')) :
    Stocked slots' (demoWords (w :: ws)).1 ∧ argc = (demoWords (w :: ws)).1.length ∧
      iterations = (demoWords (w :: ws)).2 := by
  have hwide := h.wide
  simp only [argvCapacity] at hwide
  cases ws with
  | nil =>
    have hone : ¬ 2 ≤ ([] : List Text).length + 1 := by decide
    simp only [countIterations,if_neg hone] at he
    split at he
    · cases he
    next slots₁ m₁ hstore =>
      obtain rfl := storeDefault_some hstore
      cases he
      exact ⟨h.store (by simp only [List.length_singleton]; omega) defaultCount,rfl,rfl⟩
  | cons count ws =>
    have hcount : slots[1]? = some (.copy count) := by
      have hfront := congrArg (·[1]?) h.front
      simpa [List.getElem?_take] using hfront
    have htwo : 2 ≤ (count :: ws).length + 1 := by simp
    simp only [countIterations,if_pos htwo,hcount,slotText] at he
    by_cases hok : (strtol count).2 ≠ count ∧ (strtol count).2 = [] ∧ 0 < (strtol count).1
    · rw [if_pos hok] at he
      cases he
      simp only [demoWords,demoArgument,if_pos hok]
      exact ⟨h,rfl,trivial⟩
    · rw [if_neg hok] at he
      split at he
      · cases he
      next slots₁ m₁ hstore =>
        obtain rfl := storeDefault_some hstore
        cases he
        simp only [demoWords,demoArgument,if_neg hok]
        refine ⟨⟨⟨?_,?_⟩,?_⟩,rfl,trivial⟩
        · have hfront := h.front
          simp only [List.length_cons] at hfront ⊢
          rw [List.take_set,hfront]
          rfl
        · rw [List.length_set]
          exact h.room
        · rw [List.length_set]
          exact h.wide

theorem countIterations_full (hfull : ∀ n, alloc n = true) (slots : List Slot) (argc : ℕ)
    (m : Storage) : ∃ slots' n iterations m',
      countIterations alloc slots argc m = (some (slots',n,iterations),m') := by
  simp only [countIterations,storeDefault,if_pos (hfull _)]
  split
  · split <;> exact ⟨_,_,_,_,rfl⟩
  · exact ⟨_,_,_,_,rfl⟩

end Count

section Built
variable {alloc : ℕ → Bool} {command : Text} {slots : List Slot} {iterations : ℤ}

/-- What a vector that was built holds, and which command it was built for. -/
theorem buildDemoArgv_some (he : (buildDemoArgv alloc command).1 = some (slots,iterations)) :
    ∃ w ws more, words blank command = w :: ws ∧ isDemoCommand (some w) = true ∧
      slots = (demoWords (w :: ws)).1.map .copy ++ .null :: more ∧
      iterations = (demoWords (w :: ws)).2 := by
  unfold buildDemoArgv at he
  split at he
  · split at he
    · cases he
    next w rest hs =>
      obtain ⟨hwords,_⟩ := strtokR_some hs
      split at he
      next hdemo =>
        split at he
        · split at he
          · cases he
          next slots₁ argc m₁ hloop =>
            have hstart : Stocked (List.replicate argvCapacity .null) [] :=
              ⟨⟨rfl,by decide⟩,by decide⟩
            obtain ⟨hstocked,hargc⟩ :=
              demoLoop_stocked (Nat.lt_succ_self command.length) hstart hloop
            simp only [hwords,List.length_nil,List.nil_append,demoCopies,demoCopies_succ,
              List.length_cons] at hstocked hargc
            rw [hargc] at he
            split at he
            · cases he
            next slots₂ n iterations₂ m₂ hcount =>
              obtain ⟨hfilled,hn,hit⟩ := countIterations_stocked hstocked hcount
              cases he
              have hset := hfilled.toFilled.set .null
              have hsplit := List.take_append_drop (n + 1) (slots₂.set n .null)
              rw [← hn] at hset
              rw [hset,List.append_assoc,List.singleton_append] at hsplit
              exact ⟨w,_,_,hwords,hdemo,hsplit.symm,hit⟩
        · cases he
      · cases he
  · cases he

theorem buildDemoArgv_full (hfull : ∀ n, alloc n = true) {w : Text} {ws : List Text}
    (hwords : words blank command = w :: ws) (hdemo : isDemoCommand (some w) = true) :
    ∃ built, (buildDemoArgv alloc command).1 = some built := by
  cases hs : strtokR command with
  | none =>
    rw [strtokR_none hs] at hwords
    cases hwords
  | some r =>
    obtain ⟨token,rest⟩ := r
    obtain ⟨htoken,_⟩ := strtokR_some hs
    obtain rfl : token = w := by
      rw [hwords] at htoken
      exact (List.cons.inj htoken).1.symm
    obtain ⟨slots,argc,m,hloop⟩ := demoLoop_full hfull (command.length + 1) command
      (List.replicate argvCapacity .null) 0 Storage.start.request.request
    obtain ⟨slots',n,iterations,m',hcount⟩ := countIterations_full hfull slots argc m
    simp only [buildDemoArgv,if_pos (hfull _),hs,if_pos hdemo,hloop,hcount]
    exact ⟨_,rfl⟩

end Built

/-- The two words that start the demo. -/
def IsDemoWord (w : Text) : Prop := w = demoName ∨ w = demoPath

instance : DecidablePred IsDemoWord := fun w =>
  inferInstanceAs (Decidable (w = demoName ∨ w = demoPath))

/-- The demo path is taken for its own commands only, and for all of them. -/
structure OnlyDemo (alloc : ℕ → Bool) (command : Text) : Prop where
  taken : (demoInvocation alloc command).isSome = true ↔
    ∃ w ∈ (words blank command).head?, IsDemoWord w
  kept : (¬ ∃ w ∈ (words blank command).head?, IsDemoWord w) →
    ∀ argv iterations, demoInvocation alloc command = some (argv,iterations) →
      argv[1]? = (words blank command)[1]?

section Recognition
variable {w rest command : Text}

/-- A word is at the head of the string that it starts exactly where it is in front of the
first blank. -/
theorem prefix_word {d : Text} (hd : ∀ c ∈ d, blank c = false)
    (hrest : ∀ c ∈ rest.head?, blank c = true) : d <+: w ++ rest ↔ d <+: w := by
  constructor
  · intro h
    rcases Nat.le_total d.length w.length with hle | hle
    · exact List.prefix_of_prefix_length_le h (List.prefix_append w rest) hle
    · obtain ⟨more,hmore⟩ := h
      obtain ⟨tail,rfl⟩ := List.prefix_of_prefix_length_le (List.prefix_append w rest)
        ⟨more,hmore⟩ hle
      cases tail with
      | nil => simp
      | cons c tail =>
        rw [List.append_assoc,List.append_cancel_left_eq] at hmore
        have hc := hd c (by simp)
        rw [hrest c (by simp [← hmore])] at hc
        cases hc
  · intro h
    exact h.trans (List.prefix_append w rest)

/-- No index inside a word ends it, and the index behind it does. -/
theorem endsAt_word (hw : ∀ c ∈ w, blank c = false) (hrest : ∀ c ∈ rest.head?, blank c = true) :
    endsAt (w ++ rest) w.length = true ∧ ∀ i < w.length, endsAt (w ++ rest) i = false := by
  constructor
  · unfold endsAt
    rw [List.getElem?_append_right le_rfl,Nat.sub_self,← List.head?_eq_getElem?]
    cases h : rest.head? with
    | none => rfl
    | some c => exact hrest c h
  · intro i hi
    simp [endsAt,List.getElem?_append_left hi,List.getElem?_eq_getElem hi,
      hw _ (List.getElem_mem hi)]

/-- The recogniser takes a word of six characters or less that starts as one of the two. -/
theorem isDemoCommand_word (hw : ∀ c ∈ w, blank c = false)
    (hrest : ∀ c ∈ rest.head?, blank c = true) : isDemoCommand (some (w ++ rest)) = true ↔
      (demoPath <+: w ∨ demoName <+: w) ∧ w.length ≤ 6 := by
  have hpath := prefix_word (d := demoPath) (w := w) (by simp [demoPath,blank]) hrest
  have hname := prefix_word (d := demoName) (w := w) (by simp [demoName,blank]) hrest
  obtain ⟨hend,hin⟩ := endsAt_word hw hrest
  have hstart : isDemoCommand (some (w ++ rest)) = true ↔ (demoPath <+: w ∨ demoName <+: w) ∧
      (endsAt (w ++ rest) 4 = true ∨ endsAt (w ++ rest) 5 = true ∨
        endsAt (w ++ rest) 6 = true) := by
    rw [← hpath,← hname]
    simp only [isDemoCommand,Bool.and_eq_true,Bool.or_eq_true,List.isPrefixOf_iff_prefix,or_assoc]
    rfl
  rw [hstart]
  refine and_congr_right fun hprefix => ?_
  have hfour : 4 ≤ w.length := by
    rcases hprefix with h | h
    · exact (by decide : 4 ≤ demoPath.length).trans h.length_le
    · exact h.length_le
  constructor
  · intro hends
    by_contra hlong
    rw [hin 4 (by omega),hin 5 (by omega),hin 6 (by omega)] at hends
    simp at hends
  · intro hle
    have hcases : w.length = 4 ∨ w.length = 5 ∨ w.length = 6 := by omega
    rcases hcases with h | h | h <;> rw [h] at hend
    · exact Or.inl hend
    · exact Or.inr (Or.inl hend)
    · exact Or.inr (Or.inr hend)

/-- One or two characters behind the name of the demo. -/
def NearDemo (w : Text) : Prop := demoName <+: w ∧ (w.length = 5 ∨ w.length = 6)

theorem isDemoCommand_word_iff (hw : ∀ c ∈ w, blank c = false)
    (hrest : ∀ c ∈ rest.head?, blank c = true) :
    isDemoCommand (some (w ++ rest)) = true ↔ IsDemoWord w ∨ NearDemo w := by
  rw [isDemoCommand_word hw hrest]
  constructor
  · rintro ⟨hpath | hname,hle⟩
    · exact Or.inl (Or.inr (hpath.eq_of_length_le hle).symm)
    · have hfour : 4 ≤ w.length := hname.length_le
      rcases Nat.lt_or_ge 4 w.length with hlt | hle'
      · exact Or.inr ⟨hname,by omega⟩
      · exact Or.inl (Or.inl (hname.eq_of_length_le hle').symm)
  · rintro ((rfl | rfl) | ⟨hname,hlen⟩)
    · exact ⟨Or.inr List.prefix_rfl,by decide⟩
    · exact ⟨Or.inl List.prefix_rfl,by decide⟩
    · exact ⟨Or.inr hname,by omega⟩

theorem isDemoWord_not_near (h : IsDemoWord w) : ¬ NearDemo w := by
  rcases h with rfl | rfl <;> rintro ⟨hname,hlen⟩
  · revert hlen
    decide
  · revert hname
    decide

/-- A command that does not start with a blank is taken by its first word. -/
theorem demoInvocation_isSome_iff {alloc : ℕ → Bool} (hfull : ∀ n, alloc n = true)
    (hhead : ∀ c ∈ command.head?, blank c = false) :
    (demoInvocation alloc command).isSome = true ↔
      ∃ w ∈ (words blank command).head?, IsDemoWord w ∨ NearDemo w := by
  cases command with
  | nil =>
    have hno : isDemoCommand (some []) = false := by decide
    simp [demoInvocation,hno]
  | cons c s =>
    obtain ⟨w,rest,hsplit,hw,hrest,hwords⟩ := exists_first_word (hhead c rfl) s
    have hline := isDemoCommand_word_iff hw hrest
    have htoken := @isDemoCommand_word_iff w [] hw (by simp)
    rw [List.append_nil] at htoken
    rw [hwords,List.head?_cons]
    constructor
    · intro h
      unfold demoInvocation at h
      split at h
      next hdemo =>
        rw [hsplit] at hdemo
        exact ⟨w,rfl,hline.mp hdemo⟩
      · cases h
    · rintro ⟨w',hmem,hdemo⟩
      obtain rfl := Option.some.inj (Option.mem_def.mp hmem)
      obtain ⟨built,hbuilt⟩ := buildDemoArgv_full hfull hwords (htoken.mpr hdemo)
      rw [demoInvocation,hsplit,if_pos (hline.mpr hdemo),← hsplit,hbuilt]
      rfl

/-- Only the demo's own commands take its path exactly where the first word is not the name
of the demo with one or two more characters. -/
theorem onlyDemo_iff {alloc : ℕ → Bool} (hfull : ∀ n, alloc n = true)
    (hhead : ∀ c ∈ command.head?, blank c = false) :
    OnlyDemo alloc command ↔ ¬ ∃ w ∈ (words blank command).head?, NearDemo w := by
  have htaken := demoInvocation_isSome_iff hfull hhead
  constructor
  · rintro h ⟨w,hmem,hnear⟩
    obtain ⟨w',hmem',hdemo⟩ := h.taken.mp (htaken.mpr ⟨w,hmem,Or.inr hnear⟩)
    obtain rfl := Option.mem_unique hmem hmem'
    exact isDemoWord_not_near hdemo hnear
  · intro hnear
    have hiff : (demoInvocation alloc command).isSome = true ↔
        ∃ w ∈ (words blank command).head?, IsDemoWord w := by
      rw [htaken]
      constructor
      · rintro ⟨w,hmem,hdemo | hnear'⟩
        · exact ⟨w,hmem,hdemo⟩
        · exact (hnear ⟨w,hmem,hnear'⟩).elim
      · rintro ⟨w,hmem,hdemo⟩
        exact ⟨w,hmem,Or.inl hdemo⟩
    refine ⟨hiff,?_⟩
    intro hno argv iterations he
    refine (hno (hiff.mp ?_)).elim
    rw [he]
    rfl

end Recognition

def demoTwelve : Text := "demo 12".toList

theorem demoTwelve_onlyDemo : OnlyDemo (fun _ => true) demoTwelve := by
  have hhead : ∀ c ∈ demoTwelve.head?, blank c = false := by
    intro c hc
    obtain rfl : 'd' = c := Option.some.inj (Option.mem_def.mp hc)
    rfl
  refine (onlyDemo_iff (fun _ => rfl) hhead).mpr ?_
  rintro ⟨w,hmem,hname,hlen⟩
  obtain rfl : demoName = w := Option.some.inj (Option.mem_def.mp hmem)
  revert hlen
  decide

/-- Another program, whose argument is lost. -/
def demoxFile : Text := "demox file".toList

theorem demoxFile_taken : ¬ OnlyDemo (fun _ => true) demoxFile := by
  have htaken : demoInvocation (fun _ => true) demoxFile =
      some (["demox".toList,['5']],5) := by decide
  intro h
  obtain ⟨w,hmem,hdemo⟩ := h.taken.mp (by rw [htaken]; rfl)
  obtain rfl : "demox".toList = w := Option.some.inj (Option.mem_def.mp hmem)
  revert hdemo
  decide

/-- The count that the words ask for. -/
def requestedCount (ws : List Text) : ℤ :=
  match ws[1]? with
  | none => demoDefaultBurst
  | some w =>
    match written w with
    | none => demoDefaultBurst
    | some n => if 0 < n ∧ n ≤ intMax then n else demoDefaultBurst

/-- One number is written in the vector, read by the demo, kept in the context and predicted by
the scheduler, and it is the one that was asked for. -/
structure DemoBurst (command : Text) (slots : List Slot) (iterations : ℤ) : Prop where
  terminated : ∃ (ws : List Text) (more : List Slot),
    slots = ws.map .copy ++ .null :: more ∧ 2 ≤ ws.length
  positive : 0 < iterations
  requested : iterations = requestedCount (words blank command)
  spelled : ∃ w ∈ (execArgv slots)[1]?, written w = some iterations ∧ atoi w = iterations
  carried : ∀ (client : Client) (k : ContextRef) (s : System TaskLists),
    let created := createProgramTask client command (execArgv slots) iterations k
    created.2.argv = some (execArgv slots) ∧ created.2.initialBurst = iterations ∧
      ((schedulerSubmitTask s (schedulerCreateTask created.1)).tasks s.allocated).predictedBurst =
        iterations

section Burst
variable {alloc : ℕ → Bool} {command w : Text} {slots more : List Slot} {ws : List Text}
  {n iterations : ℤ}

theorem demoArgument_default (h : ∀ n, written w = some n → n ≤ 0) :
    demoArgument w = (defaultCount,demoDefaultBurst) := by
  refine if_neg ?_
  rintro ⟨hne,hend,hpos⟩
  cases hw : written w with
  | none => exact (strtol_of_not_written hw).elim hne fun hrest => hrest hend
  | some n =>
    rw [strtol_of_written hw,saturate_pos] at hpos
    exact absurd hpos (not_lt.mpr (h n hw))

theorem demoArgument_count (h : written w = some n) (hpos : 0 < n) :
    demoArgument w = (w,narrow (saturate n)) := by
  have hs := strtol_of_written h
  have hne : [] ≠ w := by
    rintro rfl
    cases h
  rw [demoArgument,hs]
  exact if_pos ⟨hne,rfl,saturate_pos.mpr hpos⟩

/-- A burst that is positive is not replaced when the task is submitted. -/
theorem submitted_predictedBurst (s : System TaskLists) {task : Task} (ht : task.type = .program)
    (hpos : 0 < task.predictedBurst) :
    ((schedulerSubmitTask s task).tasks s.allocated).predictedBurst = task.predictedBurst := by
  have hb : (submittedTask s task).predictedBurst = task.predictedBurst := by
    have hshell : ¬ task.type = .shell := by
      rw [ht]
      decide
    unfold submittedTask
    dsimp only
    rw [if_neg hshell,if_neg (not_le.mpr hpos)]
  rw [schedulerSubmitTask_tasks,Function.update_self]
  dsimp only
  split <;> exact hb

theorem demoBurst_of (hslots : slots = ws.map .copy ++ .null :: more) (hw : ws[1]? = some w)
    (hwritten : written w = some iterations) (hpos : 0 < iterations) (hmax : iterations ≤ intMax)
    (hrequested : iterations = requestedCount (words blank command)) :
    DemoBurst command slots iterations := by
  have hexec : execArgv slots = ws := by
    rw [hslots]
    exact execArgv_copies ws more
  have hlong : iterations ≤ longMax := by
    simp only [intMax] at hmax
    simp only [longMax]
    omega
  refine ⟨⟨ws,more,hslots,?_⟩,hpos,hrequested,⟨w,?_,hwritten,?_⟩,?_⟩
  · exact (List.getElem?_eq_some_iff.mp hw).1
  · rw [hexec]
    exact hw
  · rw [atoi,strtol_of_written hwritten]
    dsimp only
    rw [saturate_of_le hpos hlong,narrow_of_le hpos hmax]
  · intro client k s
    exact ⟨rfl,rfl,submitted_predictedBurst s rfl hpos⟩

/-- A vector that spells a number too large for an int spells another one than the burst. -/
theorem not_demoBurst (hslots : slots = ws.map .copy ++ .null :: more) (hw : ws[1]? = some w)
    (hn : written w = some n) (hmax : ¬ n ≤ intMax) (hit : iterations ≤ intMax) :
    ¬ DemoBurst command slots iterations := by
  intro h
  obtain ⟨w',hw',hspelled,_⟩ := h.spelled
  rw [hslots,execArgv_copies] at hw'
  obtain rfl : w = w' := Option.some.inj (hw.symm.trans (Option.mem_def.mp hw'))
  obtain rfl : n = iterations := Option.some.inj (hn.symm.trans hspelled)
  exact hmax hit

/-- The burst of a demo that is built is the count that was asked for exactly where the second
word is no number too large for an int. -/
theorem demoBurst_iff (he : (buildDemoArgv alloc command).1 = some (slots,iterations)) :
    DemoBurst command slots iterations ↔
      ∀ w ∈ (words blank command)[1]?, ∀ n ∈ written w, n ≤ intMax := by
  obtain ⟨w,ws,more,hwords,_,hslots,hit⟩ := buildDemoArgv_some he
  have hdefault : written defaultCount = some demoDefaultBurst := by decide
  cases ws with
  | nil =>
    refine iff_of_true ?_ ?_
    · obtain rfl : iterations = demoDefaultBurst := hit
      refine demoBurst_of hslots rfl hdefault (by decide) (by decide) ?_
      rw [hwords]
      rfl
    · rw [hwords]
      rintro w' ⟨⟩
  | cons count ws =>
    have hcount : (words blank command)[1]? = some count := by
      rw [hwords]
      rfl
    have hrequested : requestedCount (words blank command) =
        match written count with
        | none => demoDefaultBurst
        | some n => if 0 < n ∧ n ≤ intMax then n else demoDefaultBurst := by
      rw [requestedCount,hcount]
    rw [hcount]
    simp only [demoWords] at hslots hit
    by_cases hpos : ∃ n, written count = some n ∧ 0 < n
    · obtain ⟨n,hn,hpos⟩ := hpos
      have hargument := demoArgument_count hn hpos
      rw [hargument] at hslots hit
      rw [hn] at hrequested
      by_cases hmax : n ≤ intMax
      · have hlong : n ≤ longMax := hmax.trans (by decide)
        refine iff_of_true ?_ ?_
        · dsimp only at hit
          rw [saturate_of_le hpos hlong,narrow_of_le hpos hmax] at hit
          obtain rfl := hit
          refine demoBurst_of hslots rfl hn hpos hmax ?_
          rw [hrequested]
          exact (if_pos ⟨hpos,hmax⟩).symm
        · rintro w' ⟨⟩ n' hn'
          obtain rfl := Option.mem_unique hn' hn
          exact hmax
      · have hle : iterations ≤ intMax := by
          rw [hit]
          exact narrow_le _
        exact iff_of_false (not_demoBurst hslots rfl hn hmax hle)
          fun h => hmax (h count rfl n hn)
    · have hle : ∀ n, written count = some n → n ≤ 0 :=
        fun n hn => not_lt.mp fun hlt => hpos ⟨n,hn,hlt⟩
      rw [demoArgument_default hle] at hslots hit
      refine iff_of_true ?_ ?_
      · obtain rfl : iterations = demoDefaultBurst := hit
        refine demoBurst_of hslots rfl hdefault (by decide) (by decide) ?_
        rw [hrequested]
        cases hn : written count with
        | none => rfl
        | some n => exact (if_neg fun h => absurd h.1 (not_lt.mpr (hle n hn))).symm
      · rintro w' ⟨⟩ n hn
        exact (hle n hn).trans (by decide)

end Burst

theorem demoTwelve_burst : ∃ slots, DemoBurst demoTwelve slots 12 := by
  have hbuilt : ∃ slots, (buildDemoArgv (fun _ => true) demoTwelve).1 = some (slots,12) :=
    ⟨_,rfl⟩
  obtain ⟨slots,hbuilt⟩ := hbuilt
  refine ⟨slots,(demoBurst_iff hbuilt).mpr ?_⟩
  decide

/-- A count of two to the thirty-first. -/
def demoHuge : Text := "demo 2147483648".toList

theorem demoHuge_burst : ∃ slots, (buildDemoArgv (fun _ => true) demoHuge).1 =
    some (slots,-2147483648) ∧ ¬ DemoBurst demoHuge slots (-2147483648) := by
  refine ⟨_,rfl,?_⟩
  intro h
  exact absurd h.positive (by decide)

end UnixShell.Server
