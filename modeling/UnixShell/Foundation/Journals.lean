import Mathlib.Data.List.Nodup
import Mathlib.Logic.Function.Basic

/-! # The entries of a log that are about one party

A log keeps its newest entry first, and each entry is about one party. The entries about
a party, oldest first, drive an automaton of its own; that every party's automaton accepts
is kept by a new entry that the party's automaton takes from where it stands.
-/
namespace UnixShell.Foundation

variable {σ ε κ : Type*}

/-- Where the automaton stands after the whole log, if it takes every entry. -/
def replay (δ : σ → ε → Option σ) (q : σ) : List ε → Option σ
  | [] => some q
  | e :: es => (replay δ q es).bind fun p => δ p e

section Replay
variable {δ : σ → ε → Option σ} {q : σ}

@[simp] theorem replay_nil : replay δ q [] = some q := rfl

theorem replay_cons {e : ε} {es : List ε} {p : σ} (h : replay δ q es = some p) :
    replay δ q (e :: es) = δ p e := by
  simp only [replay,h,Option.bind_some]

theorem replay_append (new es : List ε) :
    replay δ q (new ++ es) = (replay δ q es).bind fun p => replay δ p new := by
  induction new with
  | nil => simp
  | cons e new ih => simp only [List.cons_append,replay,ih,Option.bind_assoc]

/-- What every step of the automaton keeps holds where it stands. -/
theorem replay_invariant {P : List ε → σ → Prop} {es : List ε} {p : σ} (hq : P [] q)
    (hδ : ∀ es p e p', P es p → δ p e = some p' → P (e :: es) p')
    (h : replay δ q es = some p) : P es p := by
  induction es generalizing p with
  | nil =>
    cases h
    exact hq
  | cons e es ih =>
    obtain ⟨p',hp',he⟩ := Option.bind_eq_some_iff.mp h
    exact hδ _ _ _ _ (ih hp') he

end Replay

section Keyed
variable [DecidableEq κ] {key : ε → κ} {k : κ} {e : ε} {es : List ε}

/-- The entries about one party. -/
def journal (key : ε → κ) (k : κ) (es : List ε) : List ε := es.filter fun e => key e = k

@[simp] theorem journal_nil : journal key k [] = [] := rfl

theorem journal_own (h : key e = k) : journal key k (e :: es) = e :: journal key k es :=
  List.filter_cons_of_pos (decide_eq_true h)

theorem journal_other (h : key e ≠ k) : journal key k (e :: es) = journal key k es :=
  List.filter_cons_of_neg (by simpa using h)

theorem journal_append (new : List ε) :
    journal key k (new ++ es) = journal key k new ++ journal key k es :=
  List.filter_append ..

theorem journal_eq_nil_iff : journal key k es = [] ↔ ∀ e ∈ es, key e ≠ k := by
  simp [journal]

/-- Each party's automaton accepts its journal and stands at its phase. -/
def Kept (δ : σ → ε → Option σ) (key : ε → κ) (q : σ) (es : List ε) (phase : κ → σ) : Prop :=
  ∀ k, replay δ q (journal key k es) = some (phase k)

variable {δ : σ → ε → Option σ} {q : σ} {phase phase' : κ → σ}

theorem kept_nil : Kept δ key q [] fun _ => q := fun _ => rfl

theorem Kept.congr (h : Kept δ key q es phase) (hp : ∀ k, phase' k = phase k) :
    Kept δ key q es phase' := by
  intro k
  rw [hp]
  exact h k

/-- One more entry moves the party that it is about, and no other. -/
theorem Kept.cons (h : Kept δ key q es phase) (hown : δ (phase (key e)) e = some (phase' (key e)))
    (hrest : ∀ k, k ≠ key e → phase' k = phase k) : Kept δ key q (e :: es) phase' := by
  intro k
  by_cases hk : key e = k
  · subst hk
    rw [journal_own rfl,replay_cons (h _),hown]
  · rw [journal_other hk,h k,hrest k (Ne.symm hk)]

/-- Several new entries about different parties. -/
theorem Kept.append {new : List ε} (h : Kept δ key q es phase) (hnd : (new.map key).Nodup)
    (hown : ∀ e ∈ new, δ (phase (key e)) e = some (phase' (key e)))
    (hrest : ∀ k, k ∉ new.map key → phase' k = phase k) : Kept δ key q (new ++ es) phase' := by
  intro k
  rw [journal_append,replay_append,h k,Option.bind_some]
  by_cases hk : k ∈ new.map key
  · obtain ⟨e,he,rfl⟩ := List.mem_map.mp hk
    have hone : journal key (key e) new = [e] := by
      obtain ⟨front,back,rfl⟩ := List.append_of_mem he
      rw [List.map_append,List.map_cons,List.nodup_middle,List.nodup_cons] at hnd
      have hnot : ∀ f ∈ front ++ back, key f ≠ key e := fun f hf hkey =>
        hnd.1 (by rw [← List.map_append,← hkey]; exact List.mem_map_of_mem hf)
      rw [journal_append,journal_own rfl,
        journal_eq_nil_iff.mpr fun f hf => hnot f (List.mem_append_left _ hf),
        journal_eq_nil_iff.mpr fun f hf => hnot f (List.mem_append_right _ hf)]
      rfl
    rw [hone,replay_cons replay_nil,hown e he]
  · have hnone : journal key k new = [] :=
      journal_eq_nil_iff.mpr fun e he hkey => hk (hkey ▸ List.mem_map_of_mem he)
    rw [hnone,replay_nil,hrest k hk]

end Keyed

end UnixShell.Foundation
