import Mathlib.Data.List.Basic
import Mathlib.Data.List.Induction

/-! # Finite runs of labelled steps

A system is a relation between a state, a label and a next state. An executable
system is a partial step function, whose graph is such a relation. Every induction
over runs is done once here: invariants, conditional invariants and simulation.
-/
namespace UnixShell.Foundation

variable {σ τ α β : Type*}

/-- The labels of a run stand in the order in which they are taken. -/
inductive Runs (R : σ → α → σ → Prop) : σ → List α → σ → Prop
  | refl (s : σ) : Runs R s [] s
  | step {s t u : σ} {a : α} {as : List α} : R s a t → Runs R t as u → Runs R s (a :: as) u

def Reaches (R : σ → α → σ → Prop) (s t : σ) : Prop := ∃ as, Runs R s as t

/-- The graph of a partial step function. -/
def Fires (step : σ → α → Option σ) (s : σ) (a : α) (t : σ) : Prop := step s a = some t

/-- Steps taken from states in which the label meets a side condition. -/
def FiresIf (ok : σ → α → Prop) (step : σ → α → Option σ) (s : σ) (a : α) (t : σ) : Prop :=
  ok s a ∧ step s a = some t

/-- The step function that refuses a label outside its side condition. -/
def guarded (ok : σ → α → Prop) [∀ s, DecidablePred (ok s)] (step : σ → α → Option σ) (s : σ)
    (a : α) : Option σ :=
  if ok s a then step s a else none

def exec (step : σ → α → Option σ) (s : σ) (as : List α) : Option σ := as.foldlM step s

namespace Runs
variable {R R' : σ → α → σ → Prop} {s t u : σ} {as bs : List α}

theorem append (h : Runs R s as t) (h' : Runs R t bs u) : Runs R s (as ++ bs) u := by
  induction h with
  | refl => exact h'
  | step hr _ ih => exact step hr (ih h')

theorem single {a : α} (h : R s a t) : Runs R s [a] t := step h (refl t)

theorem mono (hR : ∀ s a t, R s a t → R' s a t) (h : Runs R s as t) : Runs R' s as t := by
  induction h with
  | refl => exact refl _
  | step hr _ ih => exact step (hR _ _ _ hr) ih

/-- What every step preserves holds at the end of a run. -/
theorem invariant {P : σ → Prop} (hP : ∀ s a t, P s → R s a t → P t) (h : Runs R s as t)
    (hs : P s) : P t := by
  induction h with
  | refl => exact hs
  | step hr _ ih => exact ih (hP _ _ _ hs hr)

/-- What holds of the labels so far and the state that they have led to. -/
theorem trace {P : List α → σ → Prop}
    (hP : ∀ bs u a v, P bs u → R u a v → P (bs ++ [a]) v) (h : Runs R s as t) (hs : P [] s) :
    P as t := by
  have hpre : ∀ pre, P pre s → P (pre ++ as) t := by
    clear hs
    induction h with
    | refl =>
      intro pre hpre
      rw [List.append_nil]
      exact hpre
    | @step s u t a as hr _ ih =>
      intro pre hpre
      rw [List.append_cons]
      exact ih _ (hP _ _ _ _ hpre hr)
  exact hpre [] hs

/-- A run is no longer than the rank that each of its steps takes from. -/
theorem length_le (P : σ → Prop) (rank : σ → ℕ)
    (hP : ∀ s a t, P s → R s a t → P t ∧ rank t < rank s) (h : Runs R s as t) (hs : P s) :
    P t ∧ as.length + rank t ≤ rank s := by
  induction h with
  | refl => exact ⟨hs,by simp⟩
  | step hr _ ih =>
    obtain ⟨ht,hlt⟩ := hP _ _ _ hs hr
    obtain ⟨hu,hle⟩ := ih ht
    refine ⟨hu,?_⟩
    rw [List.length_cons]
    omega

end Runs

namespace Reaches
variable {R : σ → α → σ → Prop} {s t u : σ}

theorem refl (s : σ) : Reaches R s s := ⟨[],Runs.refl s⟩

theorem trans (h : Reaches R s t) (h' : Reaches R t u) : Reaches R s u := by
  obtain ⟨as,ha⟩ := h
  obtain ⟨bs,hb⟩ := h'
  exact ⟨as ++ bs,ha.append hb⟩

theorem tail {a : α} (h : Reaches R s t) (hr : R t a u) : Reaches R s u :=
  h.trans ⟨[a],Runs.single hr⟩

theorem invariant {P : σ → Prop} (hP : ∀ s a t, P s → R s a t → P t) (h : Reaches R s t)
    (hs : P s) : P t := by
  obtain ⟨as,ha⟩ := h
  exact ha.invariant hP hs

theorem mono {R' : σ → α → σ → Prop} (hR : ∀ s a t, R s a t → R' s a t)
    (h : Reaches R s t) : Reaches R' s t := by
  obtain ⟨as,ha⟩ := h
  exact ⟨as,ha.mono hR⟩

end Reaches

/-- Lockstep simulation: the same labels are taken on both sides. -/
theorem Runs.simulate {R : σ → α → σ → Prop} {R' : τ → α → τ → Prop} {S : σ → τ → Prop}
    (hS : ∀ s a s' t, S s t → R s a s' → ∃ t', R' t a t' ∧ S s' t')
    {s s' : σ} {t : τ} {as : List α} (h : Runs R s as s') (hs : S s t) :
    ∃ t', Runs R' t as t' ∧ S s' t' := by
  induction h generalizing t with
  | refl => exact ⟨t,Runs.refl t,hs⟩
  | step hr _ ih =>
    obtain ⟨t₁,hr₁,hs₁⟩ := hS _ _ _ _ hs hr
    obtain ⟨t₂,hr₂,hs₂⟩ := ih hs₁
    exact ⟨t₂,Runs.step hr₁ hr₂,hs₂⟩

/-- Projection: one step of the large system is a run, possibly empty, of the small one. -/
theorem Reaches.project {R : σ → α → σ → Prop} {R' : τ → β → τ → Prop} {f : σ → τ}
    (hf : ∀ s a s', R s a s' → Reaches R' (f s) (f s'))
    {s s' : σ} (h : Reaches R s s') : Reaches R' (f s) (f s') :=
  h.invariant (P := fun u => Reaches R' (f s) (f u))
    (fun u a v hu hr => hu.trans (hf u a v hr)) (Reaches.refl _)

section Exec
variable {step : σ → α → Option σ} {ok : σ → α → Prop} {s t : σ}

theorem FiresIf.fires {a : α} (h : FiresIf ok step s a t) : Fires step s a t := h.2

theorem runs_of_exec {as : List α} (h : exec step s as = some t) : Runs (Fires step) s as t := by
  induction as generalizing s with
  | nil =>
    obtain rfl : s = t := by simpa [exec] using h
    exact Runs.refl s
  | cons a as ih =>
    obtain ⟨u,hu,hrest⟩ := Option.bind_eq_some_iff.mp (show (step s a).bind _ = some t from h)
    exact Runs.step hu (ih hrest)

theorem reaches_of_exec {as : List α} (h : exec step s as = some t) : Reaches (Fires step) s t :=
  ⟨as,runs_of_exec h⟩

theorem exec_append (as bs : List α) :
    exec step s (as ++ bs) = (exec step s as).bind (fun t => exec step t bs) :=
  List.foldlM_append

/-- Each step of an executed list is taken where the list has led so far. -/
theorem reaches_of_exec_ok {as : List α}
    (hok : ∀ pre a post u v, as = pre ++ a :: post → exec step s pre = some u →
      step u a = some v → ok u a)
    (h : exec step s as = some t) : Reaches (FiresIf ok step) s t := by
  induction as using List.reverseRecOn generalizing t with
  | nil =>
    cases h
    exact Reaches.refl s
  | append_singleton as a ih =>
    rw [exec_append] at h
    obtain ⟨u,hu,ha⟩ := Option.bind_eq_some_iff.mp h
    have hpre : Reaches (FiresIf ok step) s u := by
      refine ih (fun pre b post v w he hv hb => hok pre b (post ++ [a]) v w ?_ hv hb) hu
      rw [he]
      simp
    have hstep : step u a = some t := by simpa [exec] using ha
    exact hpre.tail ⟨hok as a [] u t rfl hu hstep,hstep⟩

theorem reaches_of_guarded [∀ s, DecidablePred (ok s)] {as : List α}
    (h : exec (guarded ok step) s as = some t) : Reaches (FiresIf ok step) s t := by
  refine (reaches_of_exec h).mono (fun u a v hr => ?_)
  simp only [Fires,guarded] at hr
  split at hr
  · rename_i hok
    exact ⟨hok,hr⟩
  · cases hr

end Exec

section History
variable {η : Type*} {step : σ → α → Option σ} {note : η → σ → σ → η} {s t : σ × η}

/-- The system together with notes on the steps taken, which no step reads. -/
def withHistory (step : σ → α → Option σ) (note : η → σ → σ → η) (s : σ × η) (a : α) :
    Option (σ × η) :=
  (step s.1 a).map (fun t => (t,note s.2 s.1 t))

theorem fires_withHistory {a : α} (h : Fires (withHistory step note) s a t) :
    step s.1 a = some t.1 ∧ t.2 = note s.2 s.1 t.1 := by
  obtain ⟨u,hu,rfl⟩ := Option.map_eq_some_iff.mp h
  exact ⟨hu,rfl⟩

theorem Reaches.state (h : Reaches (Fires (withHistory step note)) s t) :
    Reaches (Fires step) s.1 t.1 :=
  Reaches.project (f := Prod.fst)
    (fun _ _ _ hr => (Reaches.refl _).tail (fires_withHistory hr).1) h

/-- Every run has its history. -/
theorem Runs.history {u v : σ} {as : List α} (h : Runs (Fires step) u as v) (note : η → σ → σ → η)
    (notes : η) :
    ∃ notes', Runs (Fires (withHistory step note)) (u,notes) as (v,notes') := by
  induction h generalizing notes with
  | refl u => exact ⟨notes,Runs.refl _⟩
  | @step u v w a as hr _ ih =>
    obtain ⟨notes',hrun⟩ := ih (note notes u v)
    have hfire : Fires (withHistory step note) (u,notes) a (v,note notes u v) := by
      simp only [Fires] at hr
      simp only [Fires,withHistory,hr,Option.map_some]
    exact ⟨notes',Runs.step hfire hrun⟩

end History

section Labels
variable {η : Type*} {step : σ → α → Option σ} {ok : σ → α → Prop} {note : η → σ → α → η}
  {s t : σ × η}

/-- The system together with notes on the labels taken, which no step reads. -/
def withLabels (step : σ → α → Option σ) (note : η → σ → α → η) (s : σ × η) (a : α) :
    Option (σ × η) :=
  (step s.1 a).map (fun t => (t,note s.2 s.1 a))

theorem withLabels_eq_some {a : α} (h : withLabels step note s a = some t) :
    step s.1 a = some t.1 ∧ t.2 = note s.2 s.1 a := by
  obtain ⟨u,hu,rfl⟩ := Option.map_eq_some_iff.mp h
  exact ⟨hu,rfl⟩

end Labels

end UnixShell.Foundation
