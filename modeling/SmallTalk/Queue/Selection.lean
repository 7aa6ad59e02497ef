import Mathlib.Data.Prod.Lex
import Mathlib.Data.String.Basic
import SmallTalk.Data.Json
import SmallTalk.Lib.Sorted

/-!
# Queue — the next work of a seat

`select` lists what an agent's seat holds and the ready steps assigned to it, in the order of the
runs in its queue.

* `wake_serves`: what a free seat with ready work is woken for.
* `wake_passes_nested`: but a parent that was never held goes before such a step.
-/

namespace SmallTalk.Queue

/-- The statuses of the steps that are listed for a seat. -/
inductive StepStatus where
  | ready
  | claimed
  | working
  | verifying
  deriving DecidableEq

structure SeatStep where
  subject : String
  run : String
  step : String
  status : StepStatus
  assignee : Option String
  claimant : Option String
  availableTo : List String
  createdAtUnixMs : ℕ
  /-- The seat that held this step before a revision carried it. -/
  carriedClaimant : Option String
  deriving DecidableEq

/-- What a seat holds, and what it takes next. -/
structure SeatSelection where
  held : List String
  ready : List String

def SeatSelection.next (selection : SeatSelection) : Option String :=
  selection.ready.head?

def SeatSelection.wake (selection : SeatSelection) : Option String :=
  if selection.held = [] then selection.next else none

/-- `step` is nested under `ancestor` in the same run, and both have the same selector. -/
def nestsUnder (ancestor step : SeatStep) : Bool :=
  ancestor.run = step.run ∧ ancestor.assignee = step.assignee ∧
    ancestor.availableTo = step.availableTo ∧
    ancestor.step.utf8ByteSize < step.step.utf8ByteSize ∧ startsWith ancestor.step step.step ∧
    step.step.toUTF8.data[ancestor.step.utf8ByteSize]? = some 47

variable (agent : String) (steps : List SeatStep) (runOrder : List String)

/-- A listed ancestor with the same selector was not submitted. -/
def reachedThroughParent (step : SeatStep) : Bool :=
  steps.any fun candidate => nestsUnder candidate step && candidate.status ≠ .verifying

def submittedWithReadyNestedWork (parent : SeatStep) : Bool :=
  parent.status = .verifying ∧ steps.any fun step => step.status = .ready && nestsUnder parent step

/-- The step occupies the seat. -/
def holds (step : SeatStep) : Bool :=
  step.status ≠ .ready ∧ (step.claimant = some agent ∨ step.assignee = some agent) ∧
    ¬ submittedWithReadyNestedWork steps step

/-- `usize::MAX`, the rank of a run that is not queued. -/
def unranked : ℕ := 2 ^ 64 - 1

/-- What ready steps are sorted by: whether the step waits its turn, the place of its run, its
age and its subject. -/
def turn (step : SeatStep) : Bool ×ₗ ℕ ×ₗ ℕ ×ₗ String :=
  toLex (decide (step.carriedClaimant ≠ some agent), toLex
    ((runOrder.idxOf? step.run).getD unranked, toLex (step.createdAtUnixMs, step.subject)))

/-- The ready steps of the seat that are not reached through a parent. -/
def unhidden : List SeatStep :=
  steps.filter fun step => step.status = .ready ∧ step.assignee = some agent ∧
    ¬ reachedThroughParent steps step

def sortReady : List SeatStep :=
  (unhidden agent steps).insertionSort fun left right =>
    turn agent runOrder left ≤ turn agent runOrder right

def select : SeatSelection where
  held := (steps.filter (holds agent steps)).map SeatStep.subject
  ready := (sortReady agent steps runOrder).map SeatStep.subject

/-- A ready step assigned to the seat. -/
def IsReadyFor (step : SeatStep) : Prop :=
  step ∈ steps ∧ step.status = .ready ∧ step.assignee = some agent

variable {agent steps runOrder}

theorem mem_sortReady {step : SeatStep} : step ∈ sortReady agent steps runOrder ↔
    IsReadyFor agent steps step ∧ ¬ reachedThroughParent steps step := by
  simp [sortReady, unhidden, IsReadyFor, and_assoc]

/-- **No starvation.**  Of the ready steps of a seat that holds nothing, one with a shortest path is
not reached through a parent: the parent would be ready, or held. -/
theorem exists_unhidden (hfree : (select agent steps runOrder).held = []) {step : SeatStep}
    (hstep : IsReadyFor agent steps step) : sortReady agent steps runOrder ≠ [] := by
  -- on the length of the path
  induction hsize : step.step.utf8ByteSize using Nat.strong_induction_on generalizing step with
  | _ size ih =>
    by_cases hhidden : reachedThroughParent steps step
    · obtain ⟨parent, hparent, hnests⟩ := List.any_eq_true.mp hhidden
      simp only [nestsUnder, Bool.and_eq_true, decide_eq_true_eq] at hnests
      obtain ⟨⟨-, hassignee, -, hlt, -, -⟩, hopen⟩ := hnests
      have hassigned : parent.assignee = some agent := hassignee.trans hstep.2.2
      by_cases hready : parent.status = .ready
      · exact ih _ (hsize ▸ hlt) ⟨hparent, hready, hassigned⟩ rfl
      · have hheld : parent ∈ steps.filter (holds agent steps) := by
          simp [holds, submittedWithReadyNestedWork, hparent, hready, hassigned, hopen]
        rw [List.map_eq_nil_iff.mp hfree] at hheld
        exact (List.not_mem_nil hheld).elim
    · exact List.ne_nil_of_mem (mem_sortReady.mpr ⟨hstep, hhidden⟩)

/-- The step that is sorted first waits its turn only if all others do. -/
theorem turn_le_of_head {step other : SeatStep} {rest : List SeatStep}
    (hsorted : sortReady agent steps runOrder = step :: rest)
    (hother : other ∈ sortReady agent steps runOrder) :
    turn agent runOrder step ≤ turn agent runOrder other := by
  have hhead := congrArg List.head? hsorted
  exact Sorted.le_of_head?_insertionSort _ hhead other ((List.mem_insertionSort _).mp hother)

variable (agent steps runOrder)

/-- **The next work.**  A seat that holds nothing and has ready work is woken. It is woken for a
ready step that is assigned to it, and for one that it did not hold before a revision only if each
ready step that it did hold is reached through a parent. -/
theorem wake_serves :
    ((select agent steps runOrder).held = [] → (∃ step, IsReadyFor agent steps step) →
      ∃ subject, (select agent steps runOrder).wake = some subject) ∧
    ∀ subject, (select agent steps runOrder).wake = some subject →
      ∃ step, IsReadyFor agent steps step ∧ step.subject = subject ∧
        (step.carriedClaimant ≠ some agent → ∀ other, IsReadyFor agent steps other →
          other.carriedClaimant = some agent → reachedThroughParent steps other) := by
  constructor
  · rintro hfree ⟨step, hstep⟩
    obtain ⟨first, rest, hsorted⟩ := List.exists_cons_of_ne_nil (exists_unhidden hfree hstep)
    refine ⟨first.subject, ?_⟩
    rw [SeatSelection.wake, if_pos hfree]
    simp [SeatSelection.next, select, hsorted]
  · intro subject hwake
    have hnext : (select agent steps runOrder).next = some subject := by
      rw [SeatSelection.wake] at hwake
      split at hwake
      · exact hwake
      · cases hwake
    cases hsorted : sortReady agent steps runOrder with
    | nil => simp [SeatSelection.next, select, hsorted] at hnext
    | cons step rest =>
      have hmem : step ∈ sortReady agent steps runOrder := hsorted ▸ List.mem_cons_self
      refine ⟨step, (mem_sortReady.mp hmem).1, ?_, fun hwaits other hother hcarried => ?_⟩
      · simpa [SeatSelection.next, select, hsorted] using hnext
      · by_contra hseen
        have hle := turn_le_of_head hsorted (mem_sortReady.mpr ⟨hother, hseen⟩)
        have hwaits' : decide (step.carriedClaimant ≠ some agent) ≤
            decide (other.carriedClaimant ≠ some agent) := Prod.Lex.monotone_fst _ _ hle
        exact of_decide_eq_true (hwaits' (decide_eq_true hwaits)) hcarried

def nestedPair : List SeatStep :=
  [⟨"parent", "r", "a", .ready, some "agent/x", none, [], 0, none⟩,
    ⟨"child", "r", "a/b", .ready, some "agent/x", none, [], 0, some "agent/x"⟩]

/-- A step that the seat held, and a parent of it that the seat did not hold: the parent is first. -/
theorem wake_passes_nested : (select "agent/x" nestedPair ["r"]).wake = some "parent" ∧
      ∀ step ∈ nestedPair, IsReadyFor "agent/x" nestedPair step ∧
        (step.carriedClaimant = some "agent/x" ↔ step.subject = "child") := by
  unfold IsReadyFor
  decide +kernel

end SmallTalk.Queue
