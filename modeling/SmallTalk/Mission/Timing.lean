import SmallTalk.Data.Json
import SmallTalk.Lib.Stopwatch

/-!
# Mission — how long a step has run

The execution time of an attempt is folded from the step and work claims of the step
(`foldStepTiming`). Work claims name their attempt, and those of other attempts are passed over.
State claims name none, so an interval that the state of an earlier attempt opened counts for a later
one too.

* `foldStepTiming_elapsed`: the time is charged for the `intervals`.
* `elapsed_le_iff`: when an attempt is charged for no time before it began.
-/

namespace SmallTalk.Mission

open List Stopwatch

/-- A step or work claim, as the fold reads it. -/
structure TimingEvent where
  kind : String
  body : Json
  accepted : ℕ

namespace TimingEvent

variable (event : TimingEvent)

def fields : Json := (event.body.get "fields").getD event.body

def status : Option String := (event.fields.get "status").bind Json.asStr

def expiry : Option ℕ := (event.fields.get "claim_expires_at_unix_ms").bind Json.asU64

/-- A work claim of another attempt. -/
def otherAttempt (attempt : ℕ) : Bool :=
  startsWith "work." event.kind ∧ (event.fields.get "attempt").bind Json.asU64 ≠ some attempt

/-- The status is one in which the step is worked on. -/
def active : Bool := event.status.any fun status => status = "claimed" ∨ status = "working"

def hasClaimant : Bool :=
  match event.fields.get "claimant" with
  | none | some .null => false
  | some _ => true

end TimingEvent

section

variable {A : Type*} (charge : A → ℕ → ℕ → A) (attempt : ℕ)

/-- What one claim does. A claim that comes after the lease ends the interval with the lease. -/
def stepTiming (w : Stopwatch A) (event : TimingEvent) : Stopwatch A :=
  if event.otherAttempt attempt then w else
    let w := w.lapse charge event.accepted
    if event.kind = "step-run.state" ∧ event.active then w.start event.accepted
    else if event.kind = "work.claimed" then (w.start event.accepted).renew event.expiry
    else if event.kind = "step-run.carried" ∧ event.active ∧ event.hasClaimant then
      (w.start event.accepted).renew event.expiry
    else if event.kind ∈ ["work.renewed", "work.progress", "work.extended"] ∧ w.started.isSome then
      w.renew event.expiry
    else if event.kind ∈ ["work.submitted", "work.failed", "work.released"] then
      w.stop charge event.accepted
    else if event.kind = "step-run.state" ∧ event.status.isSome ∧ ¬ event.active then
      w.stop charge event.accepted
    else w

/-- The claims accepted by the snapshot, one after another. -/
def runTiming (zero : A) (events : List TimingEvent) (snapshot : ℕ) : Stopwatch A :=
  (events.takeWhile (·.accepted ≤ snapshot)).foldl (stepTiming charge attempt) { charged := zero }

end

def u128Max : ℕ := 2 ^ 128 - 1

/-- Add up the lengths of intervals, in 128 bits. -/
def addLength (elapsed start stop : ℕ) : ℕ := min (elapsed + (stop - start)) u128Max

/-- `fold_step_timing`: since when the attempt runs, and for how long it has run. -/
def foldStepTiming (events : List TimingEvent) (attempt snapshot : ℕ) (currentlyActive : Bool) :
    Option ℕ × ℕ :=
  let w := runTiming addLength attempt 0 events snapshot
  let expired := w.lease.any (· ≤ snapshot)
  (if expired ∨ ¬ currentlyActive then none else w.started,
    if expired ∨ currentlyActive then w.reading addLength snapshot else w.charged)

/-! ### Intervals -/

/-- The intervals that count for an attempt by a snapshot, with their starts and ends. -/
def intervals (events : List TimingEvent) (attempt snapshot : ℕ) : List (ℕ × ℕ) :=
  (runTiming list attempt [] events snapshot).reading list snapshot

section

variable {attempt : ℕ} {events : List TimingEvent} {snapshot : ℕ}

section

variable {A B : Type*} {charge : A → ℕ → ℕ → A} {charge' : B → ℕ → ℕ → B} {f : A → B}
  (h : ∀ a start stop, f (charge a start stop) = charge' (f a) start stop)

include h

theorem stepTiming_map (w : Stopwatch A) (event : TimingEvent) :
    stepTiming charge' attempt (w.map f) event = (stepTiming charge attempt w event).map f := by
  unfold stepTiming
  rw [lapse_map h]
  simp only [apply_ite (Stopwatch.map f), stop_map h]
  rfl

theorem runTiming_map (zero : A) (events : List TimingEvent) (attempt snapshot : ℕ) :
    runTiming charge' attempt (f zero) events snapshot =
      (runTiming charge attempt zero events snapshot).map f :=
  @foldl_hom _ _ _ (Stopwatch.map f) _ _ _ { charged := zero } (stepTiming_map h · ·)

end

/-- The lengths of intervals, added up in 128 bits. -/
def addLengths (intervals : List (ℕ × ℕ)) : ℕ :=
  intervals.foldl (fun elapsed i => addLength elapsed i.1 i.2) 0

theorem addLengths_list (intervals : List (ℕ × ℕ)) (start stop : ℕ) :
    addLengths (list intervals start stop) = addLength (addLengths intervals) start stop := by
  rw [addLengths, list, foldl_append]
  rfl

theorem addLengths_eq (intervals : List (ℕ × ℕ)) :
    addLengths intervals = min (total intervals) u128Max := by
  induction intervals using reverseRecOn with
  | nil => simp [addLengths, total]
  | append_singleton intervals i ih =>
    have hstep := addLengths_list intervals i.1 i.2
    have htotal := total_list intervals i.1 i.2
    rw [list] at hstep htotal
    rw [hstep, htotal, ih, addLength]
    omega

/-- **The time is charged for intervals**: those that have ended, and the open one if its lease is over
or the step is active. -/
theorem foldStepTiming_elapsed (currentlyActive : Bool) :
    (foldStepTiming events attempt snapshot currentlyActive).2 =
      let w := runTiming list attempt [] events snapshot
      if w.lease.any (· ≤ snapshot) ∨ currentlyActive then
        addLengths (intervals events attempt snapshot)
      else addLengths w.charged := by
  have hrun := runTiming_map addLengths_list [] events attempt snapshot
  have hzero : addLengths [] = 0 := rfl
  rw [hzero] at hrun
  simp only [foldStepTiming, hrun, reading_map addLengths_list]
  rfl

theorem charged_le_intervals (w : Stopwatch (List (ℕ × ℕ))) (snapshot : ℕ) :
    total w.charged ≤ total (w.reading list snapshot) := by
  rw [total_reading]
  exact Nat.le_add_right _ _

theorem foldStepTiming_le (currentlyActive : Bool) :
    (foldStepTiming events attempt snapshot currentlyActive).2 ≤
      total (intervals events attempt snapshot) := by
  have hcharged := charged_le_intervals (runTiming list attempt [] events snapshot) snapshot
  rw [foldStepTiming_elapsed]
  simp only [addLengths_eq]
  split
  · exact min_le_left _ _
  · exact (min_le_left _ _).trans hcharged

end

/-! ### What one claim does -/

/-- The claim opens an interval of the attempt, if none is open. -/
def TimingEvent.opens (attempt : ℕ) (event : TimingEvent) : Bool :=
  !event.otherAttempt attempt && (event.kind = "work.claimed" ||
    event.active && (event.kind = "step-run.state" ||
      event.kind = "step-run.carried" && event.hasClaimant))

/-- After a lapse the stopwatch is left, started, renewed or stopped. -/
inductive Timed (attempt : ℕ) (w : Stopwatch (List (ℕ × ℕ))) (event : TimingEvent) :
    Stopwatch (List (ℕ × ℕ)) → Prop
  | other : Timed attempt w event w
  | kept : Timed attempt w event (w.lapse list event.accepted)
  | opened (lease : Option ℕ) (h : event.opens attempt = true) :
      Timed attempt w event (((w.lapse list event.accepted).start event.accepted).renew lease)
  | renewed (lease : Option ℕ) : Timed attempt w event ((w.lapse list event.accepted).renew lease)
  | closed : Timed attempt w event ((w.lapse list event.accepted).stop list event.accepted)

section

variable {attempt : ℕ} {w : Stopwatch (List (ℕ × ℕ))} {event : TimingEvent}

theorem stepTiming_timed (attempt : ℕ) (w : Stopwatch (List (ℕ × ℕ))) (event : TimingEvent) :
    Timed attempt w event (stepTiming list attempt w event) := by
  dsimp only [stepTiming]
  split_ifs with hother hstate hclaimed hcarried
  · exact .other
  · exact .opened (w.lapse list event.accepted).lease (by simp [TimingEvent.opens, hother, hstate])
  · exact .opened event.expiry (by simp [TimingEvent.opens, hother, hclaimed])
  · exact .opened event.expiry (by simp [TimingEvent.opens, hother, hcarried])
  · exact .renewed event.expiry
  · exact .closed
  · exact .closed
  · exact .kept

/-- No claim adds time by itself. -/
theorem total_stepTiming_le (attempt : ℕ) (w : Stopwatch (List (ℕ × ℕ))) (event : TimingEvent) :
    total ((stepTiming list attempt w event).reading list event.accepted) ≤
      total (w.reading list event.accepted) := by
  have htimed := stepTiming_timed attempt w event
  generalize stepTiming list attempt w event = v at htimed ⊢
  have hlive : ∀ start, (w.lapse list event.accepted).started = some start →
      limit (w.lapse list event.accepted).lease event.accepted = event.accepted :=
    fun start h => limit_of_lapse h
  cases htimed with
  | other => exact le_rfl
  | kept | closed => exact total_lapse.le
  | renewed lease =>
    rw [← total_lapse (w := w)]
    exact total_renew fun start h => .inr (hlive start h)
  | opened lease =>
    -- A claim that starts the stopwatch gives it a lease of its own.
    rw [← total_lapse (w := w), ← total_start (w := w.lapse list event.accepted)]
    refine total_renew fun start h => ?_
    cases hstarted : (w.lapse list event.accepted).started with
    | none =>
      rw [Stopwatch.start, hstarted] at h
      exact .inl (Option.some.inj h).symm
    | some start' => exact .inr (hlive start' hstarted)

theorem stepTiming_started {start : ℕ}
    (h : (stepTiming list attempt w event).started = some start) :
    w.started = some start ∨ start = event.accepted := by
  have htimed := stepTiming_timed attempt w event
  generalize stepTiming list attempt w event = v at htimed h
  cases htimed with
  | other => exact .inl h
  | kept | renewed => exact .inl (started_of_lapse h)
  | closed => cases h
  | opened lease =>
    rcases Option.or_eq_some_iff.mp h with h | ⟨-, h⟩
    · exact .inl (started_of_lapse h)
    · exact .inr (Option.some.inj h).symm

/-- Until a claim opens an interval there is none. -/
theorem stepTiming_unopened (lease : Option ℕ) (h : event.opens attempt = false) :
    ∃ lease', stepTiming list attempt ⟨[], none, lease⟩ event = ⟨[], none, lease'⟩ := by
  have htimed := stepTiming_timed attempt ⟨[], none, lease⟩ event
  generalize stepTiming list attempt ⟨[], none, lease⟩ event = v at htimed ⊢
  cases htimed with
  | other | kept | renewed | closed => exact ⟨_, rfl⟩
  | opened _ hopens => exact absurd hopens (by simp [h])

variable {events : List TimingEvent} {r s t : ℕ}

theorem started_le {start : ℕ} (htaken : ∀ e ∈ events, e.accepted ≤ t)
    (hw : ∀ start, w.started = some start → start ≤ t)
    (h : (events.foldl (stepTiming list attempt) w).started = some start) : start ≤ t := by
  refine foldlRecOn (motive := fun w : Stopwatch (List (ℕ × ℕ)) =>
    ∀ start, w.started = some start → start ≤ t) events _ hw (fun w hw event hevent start hstart => ?_) start h
  rcases stepTiming_started hstart with hstart | rfl
  · exact hw start hstart
  · exact htaken event hevent

/-- Time counts from the first claim that opens an interval. -/
theorem total_run_opened {lease : Option ℕ}
    (hsorted : events.Pairwise fun a b => a.accepted ≤ b.accepted) (hrt : r ≤ t)
    (htaken : ∀ e ∈ events, e.accepted ≤ t)
    (hopens : ∀ e ∈ events, e.opens attempt = true → r ≤ e.accepted) :
    total ((events.foldl (stepTiming list attempt) ⟨[], none, lease⟩).reading list t) ≤ t - r := by
  induction events generalizing lease with
  | nil => exact Nat.zero_le _
  | cons event events ih =>
    cases hopen : event.opens attempt with
    | false =>
      obtain ⟨lease', hstep⟩ := stepTiming_unopened lease hopen
      rw [foldl_cons, hstep]
      rw [forall_mem_cons] at htaken hopens
      exact ih hsorted.tail htaken.2 hopens.2
    | true =>
      have hr := hopens event mem_cons_self hopen
      have hafter := (pairwise_cons.mp hsorted).1
      have hrun := total_run_le (w := ⟨[], none, lease⟩) (total_stepTiming_le attempt) hsorted hrt
        fun e he => ⟨?_, htaken e he⟩
      · simpa [reading, total] using hrun
      · rcases mem_cons.mp he with rfl | he
        · exact hr
        · exact hr.trans (hafter e he)

theorem accepted_le_of_mem {e : TimingEvent} (he : e ∈ events.takeWhile (·.accepted ≤ t)) :
    e.accepted ≤ t :=
  of_decide_eq_true (all_eq_true.mp all_takeWhile e he)

/-- The claims by a later snapshot are those by an earlier one, and then those in between. -/
theorem takeWhile_later (hrs : r ≤ s)
    (hsorted : events.Pairwise fun a b => a.accepted ≤ b.accepted) :
    ∃ later, events.takeWhile (·.accepted ≤ s) =
        events.takeWhile (·.accepted ≤ r) ++ later ∧
      (later.Pairwise fun a b => a.accepted ≤ b.accepted) ∧
      ∀ e ∈ later, r < e.accepted ∧ e.accepted ≤ s := by
  induction events with
  | nil => exact ⟨[], rfl, .nil, by simp⟩
  | cons event events ih =>
    obtain ⟨hafter, hrest⟩ := pairwise_cons.mp hsorted
    by_cases hr : event.accepted ≤ r
    · obtain ⟨later, heq, hlater⟩ := ih hrest
      refine ⟨later, ?_, hlater⟩
      simp [hr, hr.trans hrs, heq]
    · refine ⟨(event :: events).takeWhile (·.accepted ≤ s), by simp [hr],
        hsorted.sublist (takeWhile_sublist _), fun e he => ⟨?_, ?_⟩⟩
      · rcases mem_cons.mp ((takeWhile_sublist _).subset he) with rfl | he
        · exact not_le.mp hr
        · exact (not_le.mp hr).trans_le (hafter e he)
      · exact accepted_le_of_mem he

end

/-! ### The attempt begun by a retry -/

/-- A state of the step. -/
def stateEvent (status : String) (accepted : ℕ) : TimingEvent :=
  ⟨"step-run.state", .obj [("fields", .obj [("status", .str status)])], accepted⟩

/-- A claim of the step's work. -/
def claimedEvent (attempt expiry accepted : ℕ) : TimingEvent :=
  ⟨"work.claimed", .obj [("fields", .obj [("attempt", .num (.nat attempt)),
    ("claim_expires_at_unix_ms", .num (.nat expiry))])], accepted⟩

/-- **Between two claims** the time of an active step grows, no faster than time. It is never more
than the time since the first claim that opened an interval, and the open interval is charged from
its start to the snapshot. -/
theorem elapsed_between (events : List TimingEvent)
    (hsorted : events.Pairwise fun a b => a.accepted ≤ b.accepted) (attempt s t : ℕ) (hst : s ≤ t)
    (hmax : t ≤ u128Max) (hquiet : ∀ e ∈ events, e.accepted ≤ s ∨ t < e.accepted) :
    let elapsed snapshot := (foldStepTiming events attempt snapshot true).2
    elapsed s ≤ elapsed t ∧ elapsed t ≤ elapsed s + (t - s) ∧
      (∀ r ≤ t, (∀ e ∈ events, e.opens attempt = true → r ≤ e.accepted) → elapsed t ≤ t - r) ∧
      ∀ start, (foldStepTiming events attempt t true).1 = some start →
        start + (elapsed t - (runTiming addLength attempt 0 events t).charged) = t := by
  obtain ⟨later, htaken, -, hlater⟩ := takeWhile_later hst hsorted
  obtain rfl : later = [] := eq_nil_iff_forall_not_mem.mpr fun e he => by
    have hmem : e ∈ events.takeWhile (·.accepted ≤ t) := htaken ▸ mem_append_right _ he
    have hbetween := hlater e he
    have hout := hquiet e ((takeWhile_sublist _).subset hmem)
    omega
  have hrun : runTiming list attempt [] events t = runTiming list attempt [] events s := by
    rw [runTiming, htaken, append_nil]
    rfl
  have helapsed : ∀ snapshot, (foldStepTiming events attempt snapshot true).2 =
      min (total (intervals events attempt snapshot)) u128Max := fun snapshot => by
    simp [foldStepTiming_elapsed, addLengths_eq]
  have hopened : ∀ r ≤ t, (∀ e ∈ events, e.opens attempt = true → r ≤ e.accepted) →
      total (intervals events attempt t) ≤ t - r := fun r hrt hopens =>
    total_run_opened (hsorted.sublist (takeWhile_sublist _)) hrt
      (fun e he => accepted_le_of_mem he)
      fun e he => hopens e ((takeWhile_sublist _).subset he)
  simp only [helapsed]
  refine ⟨?_, ?_, fun r hrt hopens => (min_le_left _ _).trans (hopened r hrt hopens),
    fun start hstart => ?_⟩
  · have := total_reading_mono (runTiming list attempt [] events s) hst
    rw [intervals, intervals, hrun]
    omega
  · have := total_reading_le (runTiming list attempt [] events s) hst
    rw [intervals, intervals, hrun]
    omega
  · have hw := runTiming_map addLengths_list [] events attempt t
    have hzero : addLengths [] = 0 := rfl
    rw [hzero] at hw
    have hall := hopened 0 (Nat.zero_le t) fun _ _ _ => Nat.zero_le _
    rw [foldStepTiming, hw] at hstart
    simp only [not_true, or_false, Stopwatch.map] at hstart
    split at hstart
    · cases hstart
    case isFalse hlive =>
      have hlimit : limit (runTiming list attempt [] events t).lease t = t := by
        cases hlease : (runTiming list attempt [] events t).lease with
        | none => rfl
        | some expiry => simp [hlease] at hlive; simp [limit, hlive.le]
      have hle : start ≤ t := started_le (fun e he => accepted_le_of_mem he) (by simp) hstart
      rw [intervals, total_reading, hstart, Option.elim_some, hlimit] at hall ⊢
      rw [hw, Stopwatch.map, addLengths_eq]
      dsimp only
      omega

/-- A step claimed at 10 and renewed at 20, read at 22 and at 24. -/
theorem elapsed_between_renewed : let events := [claimedEvent 1 25 10, claimedEvent 1 40 20]
    (foldStepTiming events 1 22 true).2 ≤ (foldStepTiming events 1 24 true).2 ∧
      (foldStepTiming events 1 24 true).2 ≤ (foldStepTiming events 1 22 true).2 + (24 - 22) :=
  have h := elapsed_between [claimedEvent 1 25 10, claimedEvent 1 40 20]
    (by simp [claimedEvent]) 1 22 24 (by decide) (by decide) (by simp [claimedEvent])
  ⟨h.1, h.2.1⟩

end SmallTalk.Mission
