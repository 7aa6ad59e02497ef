import Mathlib.Data.List.Induction

/-!
# Lib — what a trace never shows

A trace lists what was observed, the oldest first. Properties of it are carried along a run one
observation at a time.

* `Separated`: between any two `a` there is a `b` (`separated_append`).
* `NeverAfter`: no `a` comes after a `b` (`neverAfter_append`).
* `Open`: an `a` with no `b` after it (`open_append`).
-/

namespace SmallTalk.Traces

open List

variable {α : Type*} {a b o : α} {trace : List α}

/-- Between any two `a` there is a `b`. -/
def Separated (a b : α) (trace : List α) : Prop :=
  ∀ before mid after, trace = before ++ a :: (mid ++ a :: after) → b ∈ mid

/-- No `a` comes after a `b`. -/
def NeverAfter (a b : α) (trace : List α) : Prop :=
  ∀ before after, trace = before ++ b :: after → a ∉ after

/-- Some `a` has no `b` after it. -/
def Open (a b : α) (trace : List α) : Prop :=
  ∃ before after, trace = before ++ a :: after ∧ b ∉ after

theorem separated_nil : Separated a b [] := fun _ _ _ h => by simp at h

theorem neverAfter_nil : NeverAfter a b [] := fun _ _ h => by simp at h

theorem not_open_nil : ¬ Open a b [] := fun ⟨_, _, h, _⟩ => by simp at h

/-- The last observation is the last one of the rest. -/
theorem split_append {before after : List α} (h : trace ++ [o] = before ++ a :: after) :
    (after = [] ∧ o = a ∧ trace = before) ∨
      ∃ rest, after = rest ++ [o] ∧ trace = before ++ a :: rest := by
  rcases eq_nil_or_concat after with rfl | ⟨rest, x, rfl⟩
  · obtain ⟨htrace, hlast⟩ := append_inj' h rfl
    exact .inl ⟨rfl, singleton_inj.mp hlast, htrace⟩
  · rw [concat_eq_append, ← cons_append, ← append_assoc] at h
    obtain ⟨htrace, hlast⟩ := append_inj' h rfl
    exact .inr ⟨rest, by rw [concat_eq_append, singleton_inj.mp hlast], htrace⟩

theorem separated_append (h : Separated a b trace) (ho : o = a → ¬ Open a b trace) :
    Separated a b (trace ++ [o]) := by
  intro before mid after heq
  rw [← cons_append, ← append_assoc] at heq
  rcases split_append heq with ⟨-, rfl, rfl⟩ | ⟨rest, -, rfl⟩
  · by_contra hb
    exact ho rfl ⟨before, mid, rfl, hb⟩
  · exact h before mid rest (by simp)

theorem neverAfter_append (h : NeverAfter a b trace) (ho : o = a → b ∉ trace) :
    NeverAfter a b (trace ++ [o]) := by
  intro before after heq
  rcases split_append heq with ⟨rfl, -, -⟩ | ⟨rest, rfl, htrace⟩
  · simp
  · rw [mem_append, mem_singleton, not_or]
    refine ⟨h before rest htrace, fun hoa => ho hoa.symm ?_⟩
    rw [htrace]
    simp

theorem open_append (h : Open a b (trace ++ [o])) : o = a ∨ o ≠ b ∧ Open a b trace := by
  obtain ⟨before, after, heq, hb⟩ := h
  rcases split_append heq with ⟨-, hoa, -⟩ | ⟨rest, rfl, htrace⟩
  · exact .inl hoa
  · rw [mem_append, mem_singleton, not_or] at hb
    exact .inr ⟨fun hob => hb.2 hob.symm, before, rest, htrace, hb.1⟩

/-! ### Several observations -/

variable {later : List α}

theorem Separated.append (h : Separated a b trace) (ha : a ∉ later) :
    Separated a b (trace ++ later) := by
  induction later using reverseRecOn with
  | nil => rwa [append_nil]
  | append_singleton later o ih =>
    rw [mem_append, mem_singleton, not_or] at ha
    rw [← append_assoc]
    exact separated_append (ih ha.1) fun ho => absurd ho.symm ha.2

theorem NeverAfter.append (h : NeverAfter a b trace) (ha : a ∉ later) :
    NeverAfter a b (trace ++ later) := by
  induction later using reverseRecOn with
  | nil => rwa [append_nil]
  | append_singleton later o ih =>
    rw [mem_append, mem_singleton, not_or] at ha
    rw [← append_assoc]
    exact neverAfter_append (ih ha.1) fun ho => absurd ho.symm ha.2

theorem Open.before (h : Open a b (trace ++ later)) (ha : a ∉ later) :
    b ∉ later ∧ Open a b trace := by
  induction later using reverseRecOn with
  | nil => exact ⟨not_mem_nil, by rwa [append_nil] at h⟩
  | append_singleton later o ih =>
    rw [mem_append, mem_singleton, not_or] at ha ⊢
    rw [← append_assoc] at h
    obtain ho | ⟨hb, h⟩ := open_append h
    · exact absurd ho.symm ha.2
    · exact ⟨⟨(ih h ha.1).1, hb.symm⟩, (ih h ha.1).2⟩

end SmallTalk.Traces
