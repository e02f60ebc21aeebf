import Mathlib.Data.List.Basic
import Mathlib.Order.Lattice

/-! # Transfers in parts

A call that is asked to move some items moves at least one of them and at most all,
or is interrupted, or fails. A loop of such calls runs until everything is moved. How
the calls end is a list; where it ends the loop is still inside a call.
-/
namespace UnixShell.Foundation

/-- How one call ends. -/
inductive Answer
  /-- At most one item and so many more. -/
  | moved (extra : ℕ)
  | interrupted
  | failed
  deriving DecidableEq, Repr

def Answer.isMoved : Answer → Bool
  | .moved _ => true
  | _ => false

/-- Why a loop has not moved everything. -/
inductive Stop
  | waiting
  | failed
  deriving DecidableEq, Repr

/-- What went over, what is left at the source, and the answers still to come. -/
structure Transfer (α : Type*) where
  moved : List α
  left : List α
  outcome : Except Stop (List Answer)

variable {α : Type*}

/-- The loop moves `n` items of a source. A source that has come to its end answers with
no items, which is a failure; an interrupted call is made again where the loop says so. -/
def transfer (retry : Bool) : List Answer → ℕ → List α → Transfer α
  | answers, 0, source => ⟨[],source,.ok answers⟩
  | [], _ + 1, source => ⟨[],source,.error .waiting⟩
  | .moved _ :: _, _ + 1, [] => ⟨[],[],.error .failed⟩
  | .moved extra :: answers, n + 1, a :: source =>
    let more := min extra (min n source.length)
    let rest := transfer retry answers (n - more) (source.drop more)
    { rest with moved := a :: source.take more ++ rest.moved }
  | .interrupted :: answers, n + 1, source =>
    if retry then transfer retry answers (n + 1) source else ⟨[],source,.error .failed⟩
  | .failed :: _, _ + 1, source => ⟨[],source,.error .failed⟩

/-- Answers by which a loop gets on, at least so many times. -/
structure Supply (retry : Bool) (answers : List Answer) (n : ℕ) : Prop where
  clean : ∀ a ∈ answers, a ≠ .failed ∧ (retry = false → a ≠ .interrupted)
  enough : n ≤ answers.countP Answer.isMoved

namespace Supply
variable {retry : Bool} {answers : List Answer} {a : Answer} {m n : ℕ}

theorem mono (h : Supply retry answers n) (hm : m ≤ n) : Supply retry answers m :=
  ⟨h.clean,hm.trans h.enough⟩

theorem tail (h : Supply retry (a :: answers) (n + 1)) : Supply retry answers n := by
  refine ⟨fun b hb => h.clean b (List.mem_cons_of_mem a hb),?_⟩
  have he := h.enough
  rw [List.countP_cons] at he
  split at he <;> omega

theorem tail_interrupted (h : Supply retry (.interrupted :: answers) n) :
    Supply retry answers n := by
  refine ⟨fun b hb => h.clean b (List.mem_cons_of_mem _ hb),?_⟩
  have he := h.enough
  rw [List.countP_cons] at he
  simpa [Answer.isMoved] using he

theorem length_le (h : Supply retry answers n) : n ≤ answers.length :=
  h.enough.trans List.countP_le_length

theorem moved (cuts : List ℕ) : Supply retry (cuts.map Answer.moved) cuts.length := by
  refine ⟨fun a ha => ?_,?_⟩
  · obtain ⟨k,_,rfl⟩ := List.mem_map.mp ha
    simp
  · have hall : ∀ a ∈ cuts.map Answer.moved, a.isMoved = true := by
      intro a ha
      obtain ⟨k,_,rfl⟩ := List.mem_map.mp ha
      rfl
    rw [List.countP_eq_length.mpr hall,List.length_map]

end Supply

section Transfers
variable {retry : Bool} {answers : List Answer} {source : List α} {m n : ℕ}

@[simp] theorem transfer_zero (answers : List Answer) (source : List α) :
    transfer retry answers 0 source = ⟨[],source,.ok answers⟩ := by
  cases answers <;> rfl

/-- A source with enough items and answers that let the loop get on. -/
theorem transfer_complete (h : Supply retry answers (n + m)) (hn : n ≤ source.length) :
    ∃ rest, Supply retry rest m ∧
      transfer retry answers n source = ⟨source.take n,source.drop n,.ok rest⟩ := by
  induction answers generalizing n source with
  | nil =>
    have he : n + m ≤ 0 := h.enough
    obtain rfl : n = 0 := by omega
    exact ⟨[],h.mono (by omega),by simp⟩
  | cons answer answers ih =>
    cases n with
    | zero => exact ⟨answer :: answers,h.mono (by omega),by simp⟩
    | succ n =>
      cases answer with
      | moved extra =>
        cases source with
        | nil => simp at hn
        | cons a source =>
          have hlen : n ≤ source.length := by simpa using hn
          let more := min extra (min n source.length)
          have hs : Supply retry answers (n - more + m) :=
            (Supply.tail (n := n + m) (h.mono (by omega))).mono (by omega)
          have hdlen : n - more ≤ (source.drop more).length := by
            rw [List.length_drop]
            omega
          obtain ⟨rest,hr,ht⟩ := ih hs hdlen
          refine ⟨rest,hr,?_⟩
          have hmore : more + (n - more) = n := by omega
          have htake : source.take more ++ (source.drop more).take (n - more) = source.take n := by
            rw [← List.take_add,hmore]
          have hdrop : (source.drop more).drop (n - more) = source.drop n := by
            rw [List.drop_drop,hmore]
          have hstep : transfer retry (.moved extra :: answers) (n + 1) (a :: source) =
              { transfer retry answers (n - more) (source.drop more) with
                moved := a :: source.take more ++
                  (transfer retry answers (n - more) (source.drop more)).moved } := rfl
          rw [hstep,ht,List.cons_append,htake,hdrop]
          rfl
      | interrupted =>
        have hretry : retry = true := by
          by_contra hr
          exact (h.clean .interrupted List.mem_cons_self).2 (by simpa using hr) rfl
        obtain ⟨rest,hr,ht⟩ := ih (h.tail_interrupted) hn
        exact ⟨rest,hr,by simp only [transfer,hretry,if_true] at ht ⊢; exact ht⟩
      | failed => exact ((h.clean .failed List.mem_cons_self).1 rfl).elim

/-- A loop that has succeeded has moved what it was asked for. -/
theorem transfer_ok {left : List Answer}
    (h : (transfer retry answers n source).outcome = .ok left) :
    (transfer retry answers n source).moved = source.take n := by
  induction answers generalizing n source with
  | nil =>
    cases n with
    | zero => simp
    | succ n => cases h
  | cons answer answers ih =>
    cases n with
    | zero => simp
    | succ n =>
      cases answer with
      | moved extra =>
        cases source with
        | nil => cases h
        | cons a source =>
          let more := min extra (min n source.length)
          have ht : (transfer retry answers (n - more) (source.drop more)).moved =
              (source.drop more).take (n - more) := ih h
          have hmore : more + (n - more) = n := by omega
          change a :: source.take more ++ (transfer retry answers (n - more)
            (source.drop more)).moved = _
          rw [ht,List.cons_append,← List.take_add,hmore]
          rfl
      | interrupted =>
        cases retry with
        | true => exact ih (n := n + 1) h
        | false => cases h
      | failed => cases h

/-- A source that ends too early. -/
theorem transfer_short (h : Supply retry answers n) (hn : source.length < n) :
    (transfer retry answers n source).outcome = .error .failed := by
  induction answers generalizing n source with
  | nil =>
    have he : n ≤ 0 := h.enough
    omega
  | cons answer answers ih =>
    obtain ⟨n,rfl⟩ : ∃ k, n = k + 1 := ⟨n - 1,by omega⟩
    cases answer with
    | moved extra =>
      cases source with
      | nil => rfl
      | cons a source =>
        have hlen : source.length < n := by simpa using hn
        let more := min extra (min n source.length)
        have hs : Supply retry answers (n - more) := (Supply.tail h).mono (by omega)
        have hdlen : (source.drop more).length < n - more := by
          rw [List.length_drop]
          omega
        exact ih hs hdlen
    | interrupted =>
      have hretry : retry = true := by
        by_contra hr
        exact (h.clean .interrupted List.mem_cons_self).2 (by simpa using hr) rfl
      subst hretry
      exact ih h.tail_interrupted hn
    | failed => exact ((h.clean .failed List.mem_cons_self).1 rfl).elim

end Transfers

/-- What is still to come before the end of an input, and the answers of the calls on it. -/
structure Source (α : Type*) where
  unread : List α
  answers : List Answer

def readExactly (retry : Bool) (n : ℕ) (s : Source α) : Except Stop (List α × Source α) :=
  let t := transfer retry s.answers n s.unread
  t.outcome.map (fun answers => (t.moved,⟨t.left,answers⟩))

/-- What a writer has put on its output. -/
structure Sent (α : Type*) where
  wire : List α
  outcome : Except Stop (List Answer)

def writeAll (retry : Bool) (answers : List Answer) (buffer : List α) : Sent α :=
  let t := transfer retry answers buffer.length buffer
  ⟨t.moved,t.outcome⟩

/-- A second write goes on where the first one succeeded. -/
def Sent.andThen (first : Sent α) (second : List Answer → Sent α) : Sent α :=
  match first.outcome with
  | .error e => ⟨first.wire,.error e⟩
  | .ok answers => ⟨first.wire ++ (second answers).wire,(second answers).outcome⟩

def writeParts (retry : Bool) : List Answer → List (List α) → Sent α
  | answers, [] => ⟨[],.ok answers⟩
  | answers, part :: parts =>
    (writeAll retry answers part).andThen (fun answers => writeParts retry answers parts)

section Streams
variable {retry : Bool} {answers : List Answer} {payload : List α} {m n : ℕ}

theorem readExactly_append (following : List α) (h : Supply retry answers (n + m))
    (hn : payload.length = n) :
    ∃ rest, Supply retry rest m ∧
      readExactly retry n ⟨payload ++ following,answers⟩ = .ok (payload,⟨following,rest⟩) := by
  subst hn
  have hlen : payload.length ≤ (payload ++ following).length := by simp
  obtain ⟨rest,hr,ht⟩ := transfer_complete h hlen
  refine ⟨rest,hr,?_⟩
  simp only [readExactly,ht,List.take_left',List.drop_left']
  rfl

theorem readExactly_short {s : Source α} (h : Supply retry s.answers n)
    (hn : s.unread.length < n) : readExactly retry n s = .error .failed := by
  simp only [readExactly,transfer_short h hn]
  rfl

theorem writeAll_complete (h : Supply retry answers (payload.length + m)) :
    ∃ rest, Supply retry rest m ∧ writeAll retry answers payload = ⟨payload,.ok rest⟩ := by
  obtain ⟨rest,hr,ht⟩ := transfer_complete h le_rfl
  refine ⟨rest,hr,?_⟩
  simp only [writeAll,ht,List.take_length]

theorem writeAll_ok {left : List Answer} (h : (writeAll retry answers payload).outcome = .ok left) :
    (writeAll retry answers payload).wire = payload :=
  (transfer_ok h).trans List.take_length

theorem Sent.andThen_ok {first : Sent α} {second : List Answer → Sent α} {left : List Answer}
    (h : (first.andThen second).outcome = .ok left) :
    ∃ answers, first.outcome = .ok answers ∧ (second answers).outcome = .ok left ∧
      (first.andThen second).wire = first.wire ++ (second answers).wire := by
  unfold Sent.andThen at h ⊢
  cases hf : first.outcome with
  | error e =>
    rw [hf] at h
    cases h
  | ok answers =>
    rw [hf] at h
    exact ⟨answers,rfl,h,rfl⟩

theorem writeParts_ok {parts : List (List α)} {left : List Answer}
    (h : (writeParts retry answers parts).outcome = .ok left) :
    (writeParts retry answers parts).wire = parts.flatten := by
  induction parts generalizing answers with
  | nil => rfl
  | cons part parts ih =>
    obtain ⟨answers',hf,hs,hw⟩ := Sent.andThen_ok h
    rw [writeParts,hw,writeAll_ok hf,ih hs,List.flatten_cons]

theorem writeParts_complete {parts : List (List α)}
    (h : Supply retry answers (parts.flatten.length + m)) :
    ∃ rest, Supply retry rest m ∧ writeParts retry answers parts = ⟨parts.flatten,.ok rest⟩ := by
  induction parts generalizing answers with
  | nil => exact ⟨answers,h.mono (by omega),rfl⟩
  | cons part parts ih =>
    have hlen : part.length + (parts.flatten.length + m) ≤
        ((part :: parts).flatten.length + m) := by
      simp only [List.flatten_cons,List.length_append]
      omega
    obtain ⟨answers',ha,hw⟩ := writeAll_complete (h.mono hlen)
    obtain ⟨rest,hr,hp⟩ := ih ha
    refine ⟨rest,hr,?_⟩
    simp only [writeParts,hw,Sent.andThen,hp,List.flatten_cons]

theorem Sent.andThen_complete {first : Sent α} {second : List Answer → Sent α}
    {answers' : List Answer} (h : first = ⟨payload,.ok answers'⟩) :
    first.andThen second = ⟨payload ++ (second answers').wire,(second answers').outcome⟩ := by
  rw [h]
  rfl

end Streams

end UnixShell.Foundation
