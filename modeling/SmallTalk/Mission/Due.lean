import Mathlib.Data.List.TakeWhile
import SmallTalk.Mission.Timing

/-!
# Mission — when a step is due again

The view of a step says when it could next change with time alone (`stepDue`). It adds the budget to
the start of the open interval. The time-out goes by the time of all intervals of the attempt, so a
step that has run before is out of time earlier than that.

* `dueInTime_iff`: when the step is due by then.
-/

namespace SmallTalk.Mission

open Option Stopwatch

/-- A step, as its view shows it. -/
structure StepRunView where
  status : String
  attempt : ℕ
  claimExpiresAtUnixMs : Option ℕ := none
  executionStartedAtUnixMs : Option ℕ := none
  executionElapsedMs : ℕ := 0
  timeoutMs : Option ℕ := none
  timeoutExtensionMs : ℕ := 0
  notBeforeUnixMs : Option ℕ := none

namespace StepRunView

variable (view : StepRunView) (events : List TimingEvent)

def active : Bool := view.status = "claimed" ∨ view.status = "working"

/-- The view with the times of its attempt, as of a snapshot (`enrich_step_queue_at`). -/
def timedAt (snapshot : ℕ) : StepRunView :=
  let (started, elapsed) := foldStepTiming events view.attempt snapshot view.active
  { view with executionStartedAtUnixMs := started, executionElapsedMs := elapsed }

/-- The test of `step_timed_out`. -/
def timedOut : Bool :=
  view.timeoutMs.any fun timeout => satAdd timeout view.timeoutExtensionMs ≤ view.executionElapsedMs

/-- The budget after the start of the open interval. -/
def timeoutAt : Option ℕ :=
  view.executionStartedAtUnixMs.bind fun started => view.timeoutMs.map fun timeout =>
    min (min (started + timeout) u128Max + view.timeoutExtensionMs) u128Max

def times : List ℕ :=
  [view.claimExpiresAtUnixMs, view.notBeforeUnixMs, view.timeoutAt].filterMap id

/-- When the step's view could next change with time alone. -/
def stepDue (now : ℕ) : Option ℕ := (view.times.filter (now < ·)).min?

/-- The step runs out of time at `t`. -/
structure RunsOut (now t : ℕ) : Prop where
  reached : (view.timedAt events t).timedOut = true
  first : ∀ s, now ≤ s → s < t → (view.timedAt events s).timedOut = false

/-- Nothing changes with time alone between a view and when it is due. -/
def DueInTime (now : ℕ) : Prop :=
  ∀ t, now < t → t ≤ u128Max → (∀ due, (view.timedAt events now).stepDue now = some due → t < due) →
    view.claimExpiresAtUnixMs ≠ some t ∧ view.notBeforeUnixMs ≠ some t ∧ ¬ view.RunsOut events now t

/-- What was charged for the attempt, and the interval that is open. -/
abbrev stopwatch (now : ℕ) : Stopwatch ℕ := runTiming addLength view.attempt 0 events now

/-- When the step comes to its budget: if it is active after what is left of it, and otherwise when
the lease of its open interval ends. -/
structure Spends (now timeout start t : ℕ) : Prop where
  limited : view.timeoutMs = some timeout
  started : (view.stopwatch events now).started = some start
  left : (view.timedAt events now).timedOut = false
  after : now < t
  spent : let rest := satAdd timeout view.timeoutExtensionMs - (view.stopwatch events now).charged
    if view.active then t = start + rest ∧ (view.stopwatch events now).lease.all (t ≤ ·)
    else start + rest ≤ t ∧ (view.stopwatch events now).lease = some t

variable {view events} {now t : ℕ}

theorem before_stepDue : (∀ due, view.stepDue now = some due → t < due) ↔
    ∀ d ∈ view.times, now < d → t < d := by
  constructor
  · intro h d hd hafter
    have hmem : d ∈ view.times.filter (now < ·) :=
      List.mem_filter.mpr ⟨hd, decide_eq_true hafter⟩
    obtain ⟨due, hdue⟩ := ne_none_iff_exists'.mp
      (List.min?_eq_none_iff.not.mpr (List.ne_nil_of_mem hmem))
    exact (h due hdue).trans_le ((List.min?_eq_some_iff.mp hdue).2 d hmem)
  · intro h due hdue
    obtain ⟨hmem, hafter⟩ := List.mem_filter.mp (List.min?_eq_some_iff.mp hdue).1
    exact h due hmem (of_decide_eq_true hafter)

theorem mem_times {d : ℕ} : d ∈ view.times ↔ view.claimExpiresAtUnixMs = some d ∨
    view.notBeforeUnixMs = some d ∨ view.timeoutAt = some d := by
  simp [times, eq_comm]

theorem Spends.timeoutAt {timeout start : ℕ} (h : view.Spends events now timeout start t) :
    (view.timedAt events now).timeoutAt = if view.active then
      some (min (start + timeout + view.timeoutExtensionMs) u128Max) else none := by
  obtain ⟨hlimited, hstarted, -, hafter, hspent⟩ := h
  show (foldStepTiming events view.attempt now view.active).1.bind _ = _
  cases hactive : view.active with
  | false => simp [foldStepTiming]
  | true =>
    have hlease : (view.stopwatch events now).lease.any (· ≤ now) = false := by
      cases hlease : (view.stopwatch events now).lease with
      | none => rfl
      | some lease =>
        simp only [hactive, hlease, if_true, all_some, decide_eq_true_eq] at hspent
        simp only [any_some, decide_eq_false_iff_not]
        omega
    have hmin : min (min (start + timeout) u128Max + view.timeoutExtensionMs) u128Max =
        min (start + timeout + view.timeoutExtensionMs) u128Max := by omega
    simp [foldStepTiming, hlease, hstarted, hlimited, timedAt, hmin]

variable (hquiet : ∀ e ∈ events, e.accepted ≤ now)
include hquiet

/-- With no further claims, time goes on for the interval that is open. -/
theorem timedOut_timedAt (h : now ≤ t) : (view.timedAt events t).timedOut = true ↔
    ∃ timeout, view.timeoutMs = some timeout ∧
      satAdd timeout view.timeoutExtensionMs ≤ (view.stopwatch events now).charged +
        if (view.stopwatch events now).lease.any (· ≤ t) ∨ view.active then
          (view.stopwatch events now).started.elim 0
            (limit (view.stopwatch events now).lease t - ·)
        else 0 := by
  have htaken : ∀ s, now ≤ s → events.takeWhile (·.accepted ≤ s) = events := fun s hs =>
    List.takeWhile_eq_self_iff.mpr fun e he => decide_eq_true ((hquiet e he).trans hs)
  have hrun : runTiming addLength view.attempt 0 events t = view.stopwatch events now := by
    rw [stopwatch, runTiming, runTiming, htaken t h, htaken now le_rfl]
  rw [timedOut, any_eq_true]
  refine exists_congr fun timeout => and_congr_right fun _ => ?_
  have hbudget : satAdd timeout view.timeoutExtensionMs ≤ u64Max := min_le_right _ _
  have hmax : u64Max ≤ u128Max := by decide
  simp only [timedAt, decide_eq_true_eq, foldStepTiming, hrun, reading]
  cases (view.stopwatch events now).started with
  | none => simp
  | some start =>
    simp only [elim_some, addLength]
    split <;> omega

/-- **When a step runs out of time** that nothing more is claimed of. -/
theorem runsOut_iff (h : now < t) :
    view.RunsOut events now t ↔ ∃ timeout start, view.Spends events now timeout start t := by
  constructor
  · rintro ⟨hreached, hfirst⟩
    have hleft := hfirst now le_rfl h
    have hbefore := hfirst (t - 1) (by omega) (by omega)
    obtain ⟨timeout, htimeout, hreached⟩ := (timedOut_timedAt hquiet h.le).mp hreached
    have hnow := hleft
    simp only [← Bool.not_eq_true, timedOut_timedAt hquiet le_rfl, htimeout, some.injEq,
      timedOut_timedAt hquiet (Nat.le_sub_one_of_lt h), exists_eq_left'] at hnow hbefore
    cases hstarted : (view.stopwatch events now).started with
    | none => simp [hstarted] at hreached hnow; omega
    | some start =>
      refine ⟨timeout, start, htimeout, hstarted, hleft, h, ?_⟩
      cases hlease : (view.stopwatch events now).lease <;> cases hactive : view.active <;>
        simp [hstarted, hlease, hactive, limit] at hreached hbefore hnow ⊢ <;> grind
  · rintro ⟨timeout, start, htimeout, hstarted, hleft, -, hspent⟩
    have hout := fun s (hs : now ≤ s) =>
      (timedOut_timedAt hquiet hs : (view.timedAt events s).timedOut = true ↔ _)
    simp only [htimeout, some.injEq, exists_eq_left', hstarted, elim_some] at hout
    rw [← Bool.not_eq_true, hout _ le_rfl] at hleft
    have hall : ∀ s, now ≤ s → s ≤ t → ((view.timedAt events s).timedOut = true ↔ s = t) := by
      intro s hs hst
      rw [hout s hs]
      cases hlease : (view.stopwatch events now).lease <;> cases hactive : view.active <;>
        simp [hlease, hactive, limit] at hspent hleft ⊢ <;> grind
    exact ⟨(hall t h.le le_rfl).mpr rfl, fun s hs hst => Bool.eq_false_iff.mpr fun hs' =>
      hst.ne ((hall s hs hst.le).mp hs')⟩

/-- **A step is due in time** if and only if whenever it runs out of time later, it is active and no
earlier interval is charged, or its lease or its backoff ends by then. -/
theorem dueInTime_iff : view.DueInTime events now ↔
    ∀ timeout start t, view.Spends events now timeout start t → t ≤ u128Max →
      view.active = true ∧ ((view.stopwatch events now).charged = 0 ∧
          timeout + view.timeoutExtensionMs ≤ u64Max ∨ t = u128Max) ∨
        ∃ d, (view.claimExpiresAtUnixMs = some d ∨ view.notBeforeUnixMs = some d) ∧
          now < d ∧ d ≤ t := by
  simp only [DueInTime, before_stepDue, mem_times]
  constructor
  · intro h timeout start t hspends hmax
    by_contra hnone
    obtain ⟨hactive, hearlier⟩ := not_or.mp hnone
    refine (h t hspends.after hmax ?_).2.2 ((runsOut_iff hquiet hspends.after).mpr ⟨_, _, hspends⟩)
    rintro d (hd | hd | hd) hnow
    · exact not_le.mp fun hle => hearlier ⟨d, .inl hd, hnow, hle⟩
    · exact not_le.mp fun hle => hearlier ⟨d, .inr hd, hnow, hle⟩
    · have hspent := hspends.spent
      rw [hspends.timeoutAt] at hd
      split at hd
      · rename_i h
        obtain rfl := some.inj hd
        have hleft := hspends.left
        rw [← Bool.not_eq_true, timedOut_timedAt hquiet le_rfl, hspends.limited] at hleft
        simp only [h, if_true, satAdd, some.injEq, exists_eq_left'] at hspent hleft
        rw [and_iff_right h] at hactive
        omega
      · cases hd
  · intro h t hafter hmax hbefore
    refine ⟨fun hd => ?_, fun hd => ?_, fun hout => ?_⟩
    · exact lt_irrefl t (hbefore t (.inl hd) hafter)
    · exact lt_irrefl t (hbefore t (.inr (.inl hd)) hafter)
    · obtain ⟨timeout, start, hspends⟩ := (runsOut_iff hquiet hafter).mp hout
      rcases h timeout start t hspends hmax with ⟨hactive, hcharged⟩ | ⟨d, hd, hnow, hle⟩
      · have hdue := hbefore (min (start + timeout + view.timeoutExtensionMs) u128Max)
          (.inr (.inr (by rw [hspends.timeoutAt, if_pos hactive])))
        have hspent := hspends.spent
        simp only [hactive, if_true, satAdd] at hspent
        omega
      · exact absurd (hbefore d (hd.elim .inl fun h => .inr (.inl h)) hnow) (not_lt.mpr hle)

end StepRunView

/-- A step with a budget of 50. -/
def budgetedStep : StepRunView where
  status := "working"
  attempt := 1
  claimExpiresAtUnixMs := some 1000
  timeoutMs := some 50

/-- In its first interval since 30, it is due when it runs out of time. -/
theorem first_interval : budgetedStep.DueInTime [claimedEvent 1 1000 30] 40 :=
  (StepRunView.dueInTime_iff (by decide)).mpr fun timeout start t h _ =>
    .inl ⟨rfl, .inl ⟨by decide +kernel, some.inj h.limited ▸ by decide⟩⟩

def secondIntervalEvents : List TimingEvent :=
  [claimedEvent 1 25 10, stateEvent "ready" 20, claimedEvent 1 1000 30]

/-- **A second interval.**  The step is due at 80, and runs out of time at 70. -/
theorem second_interval : (budgetedStep.timedAt secondIntervalEvents 40).stepDue 40 = some 80 ∧
      ¬ budgetedStep.DueInTime secondIntervalEvents 40 := by
  have hdue : (budgetedStep.timedAt secondIntervalEvents 40).stepDue 40 = some 80 := by
    decide +kernel
  have hspends : budgetedStep.Spends secondIntervalEvents 40 50 30 70 :=
    ⟨rfl, by decide +kernel, by decide +kernel, by decide, by decide +kernel⟩
  have hout := (StepRunView.runsOut_iff (by decide) (by decide)).mpr ⟨50, 30, hspends⟩
  refine ⟨hdue, fun h => (h 70 (by decide) (by decide) fun due hsome => ?_).2.2 hout⟩
  obtain rfl := some.inj (hdue.symm.trans hsome)
  decide

end SmallTalk.Mission
