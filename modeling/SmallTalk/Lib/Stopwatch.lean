import Mathlib.Data.List.Basic
import Mathlib.Tactic

/-!
# Lib — stopwatches with a lease

A stopwatch runs from its start until it is stopped, but no further than its lease. What it does
with an interval is a parameter (`charge`): it may add up lengths, or list the intervals.

* `reading_map`: to charge as one goes is to list the intervals and charge them at the end.
-/

namespace SmallTalk

/-- A stopwatch: what it has charged, and since when and until when it runs. -/
structure Stopwatch (A : Type*) where
  charged : A
  started : Option ℕ := none
  lease : Option ℕ := none

namespace Stopwatch

variable {A B : Type*}

/-- No further than the lease. -/
def limit (lease : Option ℕ) (now : ℕ) : ℕ := lease.elim now (min now)

theorem limit_le (lease : Option ℕ) (now : ℕ) : limit lease now ≤ now := by
  cases lease <;> simp [limit]

theorem limit_mono (lease : Option ℕ) {now later : ℕ} (h : now ≤ later) :
    limit lease later ≤ limit lease now + (later - now) := by
  cases lease with
  | none => simp only [limit, Option.elim_none]; omega
  | some expiry => simp only [limit, Option.elim_some]; omega

section

variable (charge : A → ℕ → ℕ → A)

/-- What has been charged by now. -/
def reading (now : ℕ) (w : Stopwatch A) : A :=
  w.started.elim w.charged fun start => charge w.charged start (limit w.lease now)

def stop (now : ℕ) (w : Stopwatch A) : Stopwatch A := { charged := w.reading charge now }

/-- Stop at the end of the lease, if it has passed. -/
def lapse (now : ℕ) (w : Stopwatch A) : Stopwatch A :=
  if w.started.isSome ∧ w.lease.any (· < now) then w.stop charge now else w

end

def start (now : ℕ) (w : Stopwatch A) : Stopwatch A := { w with started := w.started.or (some now) }

def renew (lease : Option ℕ) (w : Stopwatch A) : Stopwatch A := { w with lease }

/-! ### Reading what was charged -/

def map (f : A → B) (w : Stopwatch A) : Stopwatch B := { w with charged := f w.charged }

section

variable {charge : A → ℕ → ℕ → A} {charge' : B → ℕ → ℕ → B} {f : A → B}
  (h : ∀ a start stop, f (charge a start stop) = charge' (f a) start stop)

include h

theorem reading_map
    (now : ℕ) (w : Stopwatch A) : (w.map f).reading charge' now = f (w.reading charge now) := by
  cases hstarted : w.started <;> simp [reading, map, hstarted, h]

theorem stop_map
    (now : ℕ) (w : Stopwatch A) : (w.map f).stop charge' now = (w.stop charge now).map f := by
  rw [stop, reading_map h]
  rfl

theorem lapse_map
    (now : ℕ) (w : Stopwatch A) : (w.map f).lapse charge' now = (w.lapse charge now).map f := by
  unfold lapse
  rw [stop_map h]
  exact (apply_ite (map f) _ _ _).symm

end

/-! ### Intervals -/

/-- List an interval. -/
def list (intervals : List (ℕ × ℕ)) (start stop : ℕ) : List (ℕ × ℕ) := intervals ++ [(start, stop)]

/-- The time in intervals. -/
def total (intervals : List (ℕ × ℕ)) : ℕ := (intervals.map fun i => i.2 - i.1).sum

theorem total_list (intervals : List (ℕ × ℕ)) (start stop : ℕ) :
    total (list intervals start stop) = total intervals + (stop - start) := by
  simp [total, list]

theorem total_eq_zero {intervals : List (ℕ × ℕ)} :
    total intervals = 0 ↔ ∀ i ∈ intervals, i.2 ≤ i.1 := by
  rw [total, List.sum_eq_zero_iff, List.forall_mem_map]
  simp only [Nat.sub_eq_zero_iff_le]

variable {w : Stopwatch (List (ℕ × ℕ))} {now later : ℕ}

theorem total_reading (w : Stopwatch (List (ℕ × ℕ))) (now : ℕ) : total (w.reading list now) =
      total w.charged + w.started.elim 0 fun start => limit w.lease now - start := by
  cases hstarted : w.started <;> simp [reading, hstarted, total_list]

/-- Time on the stopwatch grows no faster than time. -/
theorem total_reading_le (w : Stopwatch (List (ℕ × ℕ))) (h : now ≤ later) :
    total (w.reading list later) ≤ total (w.reading list now) + (later - now) := by
  rw [total_reading, total_reading]
  have hlimit := limit_mono w.lease h
  cases w.started with
  | none => simp
  | some start => simp only [Option.elim_some]; omega

theorem total_reading_mono (w : Stopwatch (List (ℕ × ℕ))) (h : now ≤ later) :
    total (w.reading list now) ≤ total (w.reading list later) := by
  rw [total_reading, total_reading]
  cases w.started with
  | none => simp
  | some start => cases w.lease <;> simp only [limit, Option.elim_none, Option.elim_some] <;> omega

theorem total_lapse : total ((w.lapse list now).reading list now) = total (w.reading list now) := by
  unfold lapse
  split
  · rfl
  · rfl

theorem started_of_lapse {start : ℕ} (h : (w.lapse list now).started = some start) :
    w.started = some start := by
  rw [lapse] at h
  split at h
  · cases h
  · exact h

/-- After a lapse the lease has not passed. -/
theorem limit_of_lapse {start : ℕ} (h : (w.lapse list now).started = some start) :
    limit (w.lapse list now).lease now = now := by
  unfold lapse at h ⊢
  split at h
  case isTrue => cases h
  case isFalse hlive =>
    rw [if_neg hlive]
    cases hlease : w.lease with
    | none => rfl
    | some expiry =>
      simp only [hlease, h, Option.isSome_some, Option.any_some, decide_eq_true_eq,
        true_and, not_lt] at hlive
      simp [limit, hlive]

theorem total_start : total ((w.start now).reading list now) = total (w.reading list now) := by
  rw [total_reading, total_reading, start]
  cases w.started with
  | none =>
    have := limit_le w.lease now
    simp only [Option.none_or, Option.elim_some, Option.elim_none]
    omega
  | some start => rfl

/-- A new lease takes no time off but what the old one had left. -/
theorem total_renew {lease : Option ℕ} (h : ∀ start, w.started = some start →
    start = now ∨ limit w.lease now = now) :
    total ((w.renew lease).reading list now) ≤ total (w.reading list now) := by
  rw [total_reading, total_reading, renew]
  have hle := limit_le lease now
  cases hstarted : w.started with
  | none => simp
  | some start =>
    simp only [Option.elim_some]
    rcases h start hstarted with rfl | hlimit
    · omega
    · omega

/-- **Over steps in the order of time**, none of which adds time by itself, the time on the stopwatch
grows no faster than time. -/
theorem total_run_le {E : Type*} {time : E → ℕ}
    {step : Stopwatch (List (ℕ × ℕ)) → E → Stopwatch (List (ℕ × ℕ))}
    (hstep : ∀ w e, total ((step w e).reading list (time e)) ≤ total (w.reading list (time e)))
    {events : List E} (hsorted : events.Pairwise fun a b => time a ≤ time b) (hle : now ≤ later)
    (hevents : ∀ e ∈ events, now ≤ time e ∧ time e ≤ later) :
    total ((events.foldl step w).reading list later) ≤
      total (w.reading list now) + (later - now) := by
  induction events generalizing w now with
  | nil => exact total_reading_le w hle
  | cons e events ih =>
    obtain ⟨hafter, hsorted⟩ := List.pairwise_cons.mp hsorted
    obtain ⟨hnow, hlater⟩ := hevents e List.mem_cons_self
    have hrest := @ih (step w e) (time e) hsorted hlater fun e' he' =>
      ⟨hafter e' he', (hevents e' (List.mem_cons_of_mem _ he')).2⟩
    have hgrown := total_reading_le w hnow
    have hkept := hstep w e
    rw [List.foldl_cons]
    omega

end Stopwatch

end SmallTalk
