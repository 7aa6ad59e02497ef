import Mathlib.Data.Finset.Card
import Mathlib.Tactic

/-!
# Lib — steps that only clear flags, until nothing changes

A set of flags is run through steps that may clear some of them, and that say so in a `changed`
mark. A pass of such steps is repeated while it leaves the mark.

* `Pass`, `Pass.Advances`: the flags and the mark; what a step may do to them.
* `Step`: a function on passes with the proof that it advances. `Step.andThen` and `Step.each`
  compose steps, `Step.clear` clears a group.
* `Step.Idle`: the step finds nothing to do. `idle_andThen`, `idle_each` and `idle_clear` say when.
* `settle`: the repeated pass. It only clears flags (`settle_subset`), and the step is idle at
  what it returns (`settle_idle`).
* `Step.AgreeBelow`, `settle_congr`: two steps that do the same below some flags settle alike.
-/

namespace SmallTalk.Clearing

variable {ι α : Type*} {flags : Finset ι}

/-- The flags that are set, and whether a step has cleared one. -/
@[ext] structure Pass (ι : Type*) where
  flags : Finset ι
  changed : Bool

namespace Pass

/-- Nothing happened, or a flag was cleared and the mark left. -/
def Advances (s t : Pass ι) : Prop := t = s ∨ t.changed = true ∧ t.flags ⊂ s.flags

variable {s t u : Pass ι}

theorem Advances.refl (s : Pass ι) : Advances s s := .inl rfl

theorem Advances.trans (h : Advances s t) (h' : Advances t u) : Advances s u := by
  rcases h with rfl | ⟨hmark, hlt⟩
  · exact h'
  · rcases h' with rfl | ⟨hmark', hlt'⟩
    · exact .inr ⟨hmark, hlt⟩
    · exact .inr ⟨hmark', hlt'.trans hlt⟩

theorem Advances.subset (h : Advances s t) : t.flags ⊆ s.flags := by
  rcases h with rfl | ⟨-, hlt⟩
  · exact subset_rfl
  · exact hlt.subset

theorem Advances.eq_of_unchanged (h : Advances s t) (ht : t.changed = false) : t = s := by
  rcases h with rfl | ⟨hmark, -⟩
  · rfl
  · exact absurd (hmark.symm.trans ht) (by decide)

/-- Steps that end where they began did nothing on the way. -/
theorem Advances.antisymm (h : Advances s t) (h' : Advances t s) : t = s := by
  rcases h with rfl | ⟨-, hlt⟩
  · rfl
  · exact absurd (hlt.trans_subset h'.subset) (ssubset_irrefl _)

end Pass

/-- A step that advances every pass. -/
structure Step (ι : Type*) where
  run : Pass ι → Pass ι
  advances : ∀ s, Pass.Advances s (run s)

namespace Step

/-- The step does nothing at these flags. -/
def Idle (step : Step ι) (flags : Finset ι) : Prop := step.run ⟨flags, false⟩ = ⟨flags, false⟩

/-- One step, then another. -/
def andThen (a b : Step ι) : Step ι where
  run s := b.run (a.run s)
  advances s := (a.advances s).trans (b.advances (a.run s))

theorem idle_andThen {a b : Step ι} : (a.andThen b).Idle flags ↔ a.Idle flags ∧ b.Idle flags := by
  unfold Idle andThen
  dsimp only
  constructor
  · intro h
    have hb := b.advances (a.run ⟨flags, false⟩)
    rw [h] at hb
    have ha : a.run ⟨flags, false⟩ = ⟨flags, false⟩ := (a.advances _).antisymm hb
    rw [ha] at h
    exact ⟨ha, h⟩
  · rintro ⟨ha, hb⟩
    rw [ha, hb]

/-- The step of each element in turn. -/
def each (step : α → Step ι) (xs : List α) : Step ι where
  run s := xs.foldl (fun s x => (step x).run s) s
  advances s := by
    induction xs generalizing s with
    | nil => exact .refl s
    | cons x xs ih => exact ((step x).advances s).trans (ih _)

theorem idle_each {step : α → Step ι} {xs : List α} :
    (each step xs).Idle flags ↔ ∀ x ∈ xs, (step x).Idle flags := by
  induction xs with
  | nil => exact ⟨fun _ _ hx => (List.not_mem_nil hx).elim, fun _ => rfl⟩
  | cons x xs ih =>
    have hcons : each step (x :: xs) = (step x).andThen (each step xs) := rfl
    rw [hcons, idle_andThen, ih, List.forall_mem_cons]

/-- Clear a group of flags, one of them set, when `due` says so. -/
def clear [DecidableEq ι] (members : List ι) (due : Finset ι → Bool)
    (hdue : ∀ flags, due flags = true → ∃ i ∈ members, i ∈ flags) : Step ι where
  run s := if due s.flags then ⟨s.flags.filter (· ∉ members), true⟩ else s
  advances s := by
    by_cases h : due s.flags = true
    · obtain ⟨i, hi, hflag⟩ := hdue _ h
      rw [if_pos h]
      refine .inr ⟨rfl, Finset.filter_ssubset.mpr ⟨i, hflag, fun hn => hn hi⟩⟩
    · rw [if_neg h]
      exact .refl s

theorem idle_clear [DecidableEq ι] {members : List ι} {due : Finset ι → Bool} {hdue} :
    (clear members due hdue).Idle flags ↔ due flags = false := by
  unfold Idle clear
  by_cases h : due flags = true <;> simp [h]

/-- Two steps do the same at every pass whose flags are among `flags`. -/
def AgreeBelow (flags : Finset ι) (a b : Step ι) : Prop :=
  ∀ s : Pass ι, s.flags ⊆ flags → a.run s = b.run s

theorem AgreeBelow.andThen {a a' b b' : Step ι} (h : AgreeBelow flags a a')
    (h' : AgreeBelow flags b b') : AgreeBelow flags (a.andThen b) (a'.andThen b') := by
  intro s hs
  show b.run (a.run s) = b'.run (a'.run s)
  rw [h s hs]
  exact h' _ ((a'.advances s).subset.trans hs)

theorem AgreeBelow.each {step step' : α → Step ι} {xs : List α}
    (h : ∀ x ∈ xs, AgreeBelow flags (step x) (step' x)) :
    AgreeBelow flags (each step xs) (Step.each step' xs) := by
  induction xs with
  | nil => exact fun s _ => rfl
  | cons x xs ih =>
    have hrest := ih fun y hy => h y (List.mem_cons_of_mem x hy)
    exact (h x List.mem_cons_self).andThen hrest

theorem AgreeBelow.clear [DecidableEq ι] {members : List ι} {due due' : Finset ι → Bool} {hdue}
    {hdue'} (h : ∀ d ⊆ flags, due d = due' d) :
    AgreeBelow flags (Step.clear members due hdue) (Step.clear members due' hdue') := by
  intro s hs
  show (if due s.flags then _ else s) = if due' s.flags then _ else s
  rw [h s.flags hs]

end Step

/-- The step, repeated while it leaves the mark. -/
def settle (step : Step ι) (flags : Finset ι) : Finset ι :=
  if _h : (step.run ⟨flags, false⟩).changed = true then settle step (step.run ⟨flags, false⟩).flags
  else (step.run ⟨flags, false⟩).flags
termination_by flags.card
decreasing_by
  rcases step.advances ⟨flags, false⟩ with heq | ⟨-, hlt⟩
  · rw [heq] at _h
    exact absurd _h Bool.false_ne_true
  · exact Finset.card_lt_card hlt

theorem settle_subset (step : Step ι) (flags : Finset ι) : settle step flags ⊆ flags := by
  fun_induction settle step flags with
  | case1 flags h ih => exact ih.trans (step.advances _).subset
  | case2 flags h => exact (step.advances _).subset

/-- **The settled flags** leave the step nothing to do. -/
theorem settle_idle (step : Step ι) (flags : Finset ι) : step.Idle (settle step flags) := by
  fun_induction settle step flags with
  | case1 flags h ih => exact ih
  | case2 flags h =>
    have hsame := (step.advances ⟨flags, false⟩).eq_of_unchanged (Bool.eq_false_iff.mpr h)
    rwa [hsame]

theorem settle_congr {a b : Step ι} (h : Step.AgreeBelow flags a b) :
    settle a flags = settle b flags := by
  fun_induction settle a flags with
  | case1 flags hchanged ih =>
    have hsub := (a.advances ⟨flags, false⟩).subset
    rw [ih fun s hs => h s (hs.trans hsub), settle.eq_def b flags]
    rw [h ⟨flags, false⟩ subset_rfl] at hchanged ⊢
    rw [dif_pos hchanged]
  | case2 flags hchanged =>
    rw [settle.eq_def b flags]
    rw [h ⟨flags, false⟩ subset_rfl] at hchanged ⊢
    rw [dif_neg hchanged]

end SmallTalk.Clearing
