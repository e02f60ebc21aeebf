import UnixShell.Foundation.Words
import UnixShell.Parser.Tokens
import UnixShell.Server.Context

/-! # Argument vectors of the server

What `handle_client` recognises by its first characters is run with the words of the
command. The vector grows while the words are copied; any request for memory may fail.
-/
namespace UnixShell.Server
open Foundation
open UnixShell.Parser (blank not_blank_of_dropWhile)

/-- A blank or the end of the string at an index. -/
def endsAt (command : Text) (i : ℕ) : Bool :=
  match command[i]? with
  | none => true
  | some c => blank c

def isDemoCommand : Option Text → Bool
  | none => false
  | some command =>
    (['.','/','d','e','m','o'].isPrefixOf command || ['d','e','m','o'].isPrefixOf command) &&
      (endsAt command 4 || endsAt command 5 || endsAt command 6)

def isProgramCommand : Option Text → Bool
  | none => false
  | some command => command[0]? = some '/' || command[0]? = some '.' && command[1]? = some '/'

/-- A pointer of a vector; those that `realloc` adds have not been written. -/
inductive Slot
  | unset
  | null
  | copy (text : Text)
  deriving DecidableEq, Repr

/-- The requests made so far, the slots written with the capacity at that moment, and the
slots that `free_string_array` reads. -/
structure Storage where
  requests : ℕ
  writes : List (ℕ × ℕ)
  freed : List Slot
  deriving DecidableEq, Repr

namespace Storage

def start : Storage := ⟨0,[],[]⟩

def request (m : Storage) : Storage := { m with requests := m.requests + 1 }

def write (m : Storage) (index capacity : ℕ) : Storage :=
  { m with writes := m.writes ++ [(index,capacity)] }

end Storage

/-- `free_string_array`: its loop ends at the first NULL. -/
def freeStringArray (slots : List Slot) (m : Storage) : Storage :=
  { m with freed := m.freed ++ slots.takeWhile (· ≠ .null) }

/-- A call of `strtok_r`: the token, and where the next call starts. -/
def strtokR (s : Text) : Option (Text × Text) :=
  match s.dropWhile blank with
  | [] => none
  | c :: p =>
    some ((c :: p).takeWhile (fun d => !blank d),
      ((c :: p).dropWhile (fun d => !blank d)).drop 1)

section Splitting
variable (alloc : ℕ → Bool)

/-- Room for one more pointer and the NULL behind it, or none without memory. -/
def growArgv (slots : List Slot) (argc : ℕ) (m : Storage) : Option (List Slot) × Storage :=
  if slots.length ≤ argc + 1 then
    if alloc m.requests then
      (some (slots ++ List.replicate slots.length .unset),m.request)
    else (none,m.request)
  else (some slots,m)

/-- The token loop, which ends with the store of the NULL. -/
def splitLoop : ℕ → Text → List Slot → ℕ → Storage → Option (List Slot) × Storage
  | 0, _, slots, _, m => (some slots,m)
  | fuel + 1, scan, slots, argc, m =>
    match strtokR scan with
    | none => (some (slots.set argc .null),m.write argc slots.length)
    | some (token,scan) =>
      match growArgv alloc slots argc m with
      | (none,m) => (none,freeStringArray slots m)
      | (some slots,m) =>
        if alloc m.requests then
          splitLoop fuel scan (slots.set argc (.copy token)) (argc + 1)
            (m.request.write argc slots.length)
        else
          (none,freeStringArray (slots.set argc .null) (m.request.write argc slots.length))

def argvCapacity : ℕ := 4

def splitCommandArgv : Option Text → Option (List Slot) × Storage
  | none => (none,.start)
  | some command =>
    if alloc 0 then
      if alloc 1 then
        -- every call of `strtok_r` takes at least one character
        splitLoop alloc (command.length + 1) command (List.replicate argvCapacity .null) 0
          Storage.start.request.request
      else (none,Storage.start.request.request)
    else (none,Storage.start.request)

end Splitting

/-- The strings that `execvp` gets from a vector. -/
def execArgv : List Slot → List Text
  | .copy text :: slots => text :: execArgv slots
  | _ => []

/-- What `create_generic_program_task` has executed for a command, if `handle_client` takes
it for a program. -/
def programInvocation (alloc : ℕ → Bool) (command : Text) : Option (List Text) :=
  if isDemoCommand (some command) then none
  else if isProgramCommand (some command) then
    (splitCommandArgv alloc (some command)).1.map execArgv
  else none

section Full
variable {alloc : ℕ → Bool} {slots : List Slot} {scan token rest : Text}

theorem strtokR_none (h : strtokR scan = none) : words blank scan = [] := by
  unfold strtokR at h
  split at h
  next hskip => rw [← words_dropWhile,hskip,words_nil]
  · cases h

/-- A call takes the first of the words and stops in front of the others. -/
theorem strtokR_some (h : strtokR scan = some (token,rest)) :
    words blank scan = token :: words blank rest ∧ rest.length < scan.length := by
  unfold strtokR at h
  split at h
  · cases h
  next c p hskip =>
    have hc : blank c = false := by simpa using not_blank_of_dropWhile hskip
    obtain ⟨rfl,rfl⟩ := Prod.mk.inj (Option.some.inj h)
    have hlen := (List.dropWhile_suffix (l := scan) blank).length_le
    have htail := (List.dropWhile_suffix (l := p) (fun d => !blank d)).length_le
    rw [hskip,List.length_cons] at hlen
    constructor
    · rw [← words_dropWhile scan,hskip,words_scan hc]
      congr 1
      cases hd : (c :: p).dropWhile (fun d => !blank d) with
      | nil => rfl
      | cons d q =>
        have hhead := List.head?_dropWhile_not (fun d => !blank d) (c :: p)
        rw [hd] at hhead
        exact words_separator q (by simpa using hhead)
    · simp only [List.dropWhile_cons,hc,Bool.not_false,if_true,List.length_drop]
      omega

/-- The copies of the words seen so far, at the front of the vector. -/
structure Filled (slots : List Slot) (ws : List Text) : Prop where
  front : slots.take ws.length = ws.map .copy
  room : ws.length < slots.length

theorem Filled.set {ws : List Text} (h : Filled slots ws) (slot : Slot) :
    (slots.set ws.length slot).take (ws.length + 1) = ws.map .copy ++ [slot] := by
  rw [List.take_add_one,List.take_set_of_le le_rfl,h.front,List.getElem?_set_self h.room]
  rfl

theorem growArgv_full (hfull : ∀ n, alloc n = true) {ws : List Text} (h : Filled slots ws)
    (m : Storage) : ∃ slots' m', growArgv alloc slots ws.length m = (some slots',m') ∧
      Filled slots' ws ∧ ws.length + 1 < slots'.length := by
  have hroom := h.room
  unfold growArgv
  by_cases hfit : slots.length ≤ ws.length + 1
  · rw [if_pos hfit,if_pos (hfull _)]
    refine ⟨_,_,rfl,⟨?_,?_⟩,?_⟩
    · rw [List.take_append_of_le_length h.room.le,h.front]
    · simp only [List.length_append,List.length_replicate]
      omega
    · simp only [List.length_append,List.length_replicate]
      omega
  · rw [if_neg hfit]
    exact ⟨slots,m,rfl,h,by omega⟩

/-- The vector in the end: all the words, and the NULL behind them. -/
theorem splitLoop_full (hfull : ∀ n, alloc n = true) {fuel : ℕ} (hfuel : scan.length < fuel)
    {ws : List Text} (h : Filled slots ws) (m : Storage) :
    ∃ slots' m' more, splitLoop alloc fuel scan slots ws.length m = (some slots',m') ∧
      slots' = (ws ++ words blank scan).map .copy ++ .null :: more := by
  induction fuel generalizing scan slots ws m with
  | zero => omega
  | succ fuel ih =>
    cases hs : strtokR scan with
    | none =>
      have hset := h.set .null
      have hsplit := List.take_append_drop (ws.length + 1) (slots.set ws.length .null)
      rw [hset,List.append_assoc,List.singleton_append] at hsplit
      simp only [splitLoop,hs,strtokR_none hs,List.append_nil]
      exact ⟨_,_,_,rfl,hsplit.symm⟩
    | some r =>
      obtain ⟨token,rest⟩ := r
      obtain ⟨hwords,hlt⟩ := strtokR_some hs
      obtain ⟨slots₁,m₁,hgrow,hfilled,hroom⟩ := growArgv_full hfull h m
      have hnext : Filled (slots₁.set ws.length (.copy token)) (ws ++ [token]) := by
        constructor
        · rw [List.length_append,List.map_append]
          exact hfilled.set (.copy token)
        · rw [List.length_append,List.length_set]
          exact hroom
      have hrest : rest.length < fuel := by omega
      obtain ⟨slots₂,m₂,more,hloop,hfront⟩ := ih hrest hnext
        (m₁.request.write ws.length slots₁.length)
      rw [List.length_append] at hloop
      refine ⟨slots₂,m₂,more,?_,?_⟩
      · simp only [splitLoop,hs,hgrow,hfull,if_true]
        exact hloop
      · rw [hfront,hwords,List.append_assoc]
        rfl

theorem execArgv_copies (ws : List Text) (slots : List Slot) :
    execArgv (ws.map .copy ++ .null :: slots) = ws := by
  induction ws with
  | nil => rfl
  | cons w ws ih => rw [List.map_cons,List.cons_append,execArgv,ih]

theorem splitCommandArgv_full (hfull : ∀ n, alloc n = true) (command : Text) :
    (splitCommandArgv alloc (some command)).1.map execArgv = some (words blank command) := by
  have hstart : Filled (List.replicate argvCapacity .null) [] := ⟨rfl,by decide⟩
  obtain ⟨slots,m,more,hloop,hslots⟩ := splitLoop_full hfull (Nat.lt_succ_self command.length)
    hstart Storage.start.request.request
  simp only [splitCommandArgv,hfull,if_true]
  rw [List.length_nil] at hloop
  rw [hloop,hslots,List.nil_append,Option.map_some,execArgv_copies]

theorem programInvocation_full (hfull : ∀ n, alloc n = true) {command : Text}
    (hd : isDemoCommand (some command) = false) (hp : isProgramCommand (some command) = true) :
    programInvocation alloc command = some (words blank command) := by
  rw [programInvocation,hd,hp,← splitCommandArgv_full hfull]
  rfl

end Full

end UnixShell.Server
