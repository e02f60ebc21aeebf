import Mathlib.Data.Nat.Notation
import Mathlib.Logic.Function.Basic

/-! # Descriptor tables

A process's descriptors, each with the open file it stands for or with nothing. An
operation changes the one entry that it names.
-/
namespace UnixShell.Foundation

variable {φ ψ : Type*}

def Descriptors (φ : Type*) := ℕ → Option φ

namespace Descriptors
variable {t : Descriptors φ} {fd new old : ℕ} {f g : φ}

def empty : Descriptors φ := fun _ => none

/-- The entry of `fd` is replaced. -/
def put (t : Descriptors φ) (fd : ℕ) (x : Option φ) : Descriptors φ := Function.update t fd x

def install (t : Descriptors φ) (fd : ℕ) (f : φ) : Descriptors φ := t.put fd (some f)

def close (t : Descriptors φ) (fd : ℕ) : Descriptors φ := t.put fd none

/-- A descriptor that is not open is not duplicated. -/
def dup2 (t : Descriptors φ) (old new : ℕ) : Descriptors φ :=
  match t old with
  | some f => t.install new f
  | none => t

def map (k : φ → ψ) (t : Descriptors φ) : Descriptors ψ := fun fd => (t fd).map k

def Holds (t : Descriptors φ) (f : φ) : Prop := ∃ fd, t fd = some f

/-- Descriptors 0, 1 and 2 are open. -/
def Standard (t : Descriptors φ) : Prop := ∀ fd ≤ 2, t fd ≠ none

theorem put_apply (x : Option φ) : t.put fd x old = if old = fd then x else t old :=
  Function.update_apply ..

@[simp] theorem put_self : t.put fd (t fd) = t := Function.update_eq_self ..

@[simp] theorem install_same : t.install fd f fd = some f := Function.update_self ..

@[simp] theorem install_ne (h : old ≠ fd) : t.install fd f old = t old :=
  Function.update_of_ne h ..

@[simp] theorem close_same : t.close fd fd = none := Function.update_self ..

@[simp] theorem close_ne (h : old ≠ fd) : t.close fd old = t old := Function.update_of_ne h ..

theorem install_apply : t.install fd f old = if old = fd then some f else t old :=
  Function.update_apply ..

theorem close_apply : t.close fd old = if old = fd then none else t old :=
  Function.update_apply ..

theorem dup2_open (h : t old = some f) : t.dup2 old new = t.install new f := by
  simp only [dup2,h]

@[simp] theorem map_apply (k : φ → ψ) : t.map k fd = (t fd).map k := rfl

theorem close_install (h : t fd = none) : (t.install fd f).close fd = t := by
  funext old
  by_cases ho : old = fd
  · subst ho
    rw [close_same,h]
  · rw [close_ne ho,install_ne ho]

theorem install_comm (h : fd ≠ new) :
    (t.install fd f).install new g = (t.install new g).install fd f :=
  Function.update_comm h ..

theorem not_holds_empty : ¬ (empty : Descriptors φ).Holds f := by
  rintro ⟨fd,h⟩
  cases h

theorem Holds.of_install (h : (t.install fd g).Holds f) : f = g ∨ t.Holds f := by
  obtain ⟨old,h⟩ := h
  rw [install_apply] at h
  split at h
  · exact .inl (Option.some.inj h).symm
  · exact .inr ⟨old,h⟩

theorem Holds.of_close (h : (t.close fd).Holds f) : t.Holds f := by
  obtain ⟨old,h⟩ := h
  rw [close_apply] at h
  split at h
  · cases h
  · exact ⟨old,h⟩

/-- Duplicating adds no file. -/
theorem Holds.of_dup2 (h : (t.dup2 old new).Holds f) : t.Holds f := by
  unfold dup2 at h
  split at h
  · rename_i g hg
    rcases h.of_install with rfl | h
    · exact ⟨old,hg⟩
    · exact h
  · exact h

theorem Standard.install (h : t.Standard) : (t.install fd f).Standard := by
  intro old ho hn
  rw [install_apply] at hn
  split at hn
  · cases hn
  · exact h old ho hn

theorem Standard.close (h : t.Standard) (hfd : 2 < fd) : (t.close fd).Standard := by
  intro old ho
  rw [close_ne (by omega)]
  exact h old ho

theorem Standard.dup2 (h : t.Standard) : (t.dup2 old new).Standard := by
  unfold Descriptors.dup2
  split
  · exact h.install
  · exact h

/-- A descriptor handed out while the standard ones are open is none of them. -/
theorem Standard.two_lt (h : t.Standard) (hfd : t fd = none) : 2 < fd := by
  by_contra hn
  exact h fd (by omega) hfd

theorem Standard.map (h : t.Standard) (k : φ → ψ) : (t.map k).Standard := by
  intro fd hfd hn
  exact h fd hfd (Option.map_eq_none_iff.mp hn)

/-- Everything that is open in `t` is open in `u`, as the same descriptor. -/
def Extends (t u : Descriptors φ) : Prop := ∀ fd f, t fd = some f → u fd = some f

section Extends
variable {u v : Descriptors φ}

theorem Extends.refl (t : Descriptors φ) : t.Extends t := fun _ _ h => h

theorem Extends.trans (h : t.Extends u) (h' : u.Extends v) : t.Extends v :=
  fun fd f hf => h' fd f (h fd f hf)

theorem Extends.antisymm (h : t.Extends u) (h' : u.Extends t) : t = u := by
  funext fd
  cases hu : u fd with
  | none =>
    by_contra hne
    obtain ⟨f,hf⟩ := Option.ne_none_iff_exists'.mp hne
    rw [h fd f hf] at hu
    cases hu
  | some f => exact h' fd f hu

theorem Extends.standard (h : t.Extends u) (ht : t.Standard) : u.Standard := by
  intro fd hfd hn
  obtain ⟨f,hf⟩ := Option.ne_none_iff_exists'.mp (ht fd hfd)
  rw [h fd f hf] at hn
  cases hn

theorem Extends.map (h : t.Extends u) (k : φ → ψ) : (t.map k).Extends (u.map k) := by
  intro fd g hg
  obtain ⟨f,hf,rfl⟩ := Option.map_eq_some_iff.mp hg
  exact Option.map_eq_some_iff.mpr ⟨f,h fd f hf,rfl⟩

end Extends

end Descriptors

end UnixShell.Foundation
