import SmallTalk.Lib.Thinning
import SmallTalk.Lib.TreeMap
import Mathlib.Data.Finset.Union
import Mathlib.Data.List.Lex
import Mathlib.Data.String.Basic
import Mathlib.Logic.Embedding.Basic

/-!
# Mission — the reviewers of a revision

A mission holds steps, and a step may hold a mission. A revision is compared with the mission it
revises through the hash of each step at its path and one hash of the root mission's own header
(`stepHashes`, `missionHeaderHash`). The reviewers of a changed path are those the old mission has at
the longest of its own paths that leads there (`reviewersForChangedPath`).

* `MissionSpec`, `ParsedMission`: missions nested to any depth, and those whose paths are the ones
  the parser gives (`assignPaths`, `wellPathed_assignPaths`).
* `flattenSteps`: every step with the selector and the constraints in force for it.
* `analyzeMissionRevision`: the reviewers, or the refusal of a revision that changes nothing.

A path is its segments. The hashes have no collisions (`Digests`). What only the hashes read of a
step or a mission is its `content`.
-/

namespace SmallTalk.Mission

open Thinning

/-- A path, as its segments: those of the root's steps have one. -/
abbrev Path := List String

inductive WorkSelector where
  | assigned (agent : String)
  | available (agents : List String)
  | agentless
deriving DecidableEq

/-- `selector_agents`. -/
def WorkSelector.agents : WorkSelector → List String
  | assigned agent => [agent]
  | available agents => agents
  | agentless => []

/-- What a mission and a step say about their revisions. -/
structure Protection where
  revisionsHumanOnly : Bool := false
  revisionReviewer : Option String := none
deriving DecidableEq

/-- The reviewer that a protection adds. -/
def Protection.reviewers (protection : Protection) (requester : String) : Finset String :=
  if protection.revisionsHumanOnly then {protection.revisionReviewer.getD requester} else ∅

/-- A step without the mission in it. -/
structure StepHeader (C : Type*) extends Protection where
  id : String
  path : Path
  workSelector : Option WorkSelector := none
  constraints : List String := []
  agentConstraints : List (String × List String) := []
  content : C
deriving DecidableEq

/-- A mission without its steps. A mission id may have several segments. -/
structure MissionHeader (C : Type*) extends Protection where
  id : Path
  timeoutMs : Option ℕ := none
  workSelector : Option WorkSelector := none
  constraints : List String := []
  agentConstraints : List (String × List String) := []
  content : C
deriving DecidableEq

/-- The steps of a mission in display order, with the mission in a step that has one. -/
inductive Steps (C : Type*) where
  | nil
  | leaf (step : StepHeader C) (rest : Steps C)
  | nest (step : StepHeader C) (mission : MissionHeader C) (inner rest : Steps C)
deriving DecidableEq

structure MissionSpec (C : Type*) where
  header : MissionHeader C
  steps : Steps C
deriving DecidableEq

structure StepSpec (C : Type*) where
  header : StepHeader C
  nestedMission : Option (MissionSpec C)
deriving DecidableEq

variable {C D : Type*}

/-! ### Paths -/

namespace Steps

variable {steps : Steps C}

/-- The ids of the steps at this level. -/
def ids : Steps C → List String
  | nil => []
  | leaf step rest => step.id :: rest.ids
  | nest step _ _ rest => step.id :: rest.ids

/-- The paths of all steps, in the missions inside too. -/
def paths : Steps C → List Path
  | nil => []
  | leaf step rest => step.path :: rest.paths
  | nest step _ inner rest => step.path :: (inner.paths ++ rest.paths)

/-- No two steps of one mission have the same id. -/
def DistinctIds : Steps C → Prop
  | nil => True
  | leaf step rest => step.id ∉ rest.ids ∧ rest.DistinctIds
  | nest step _ inner rest => step.id ∉ rest.ids ∧ inner.DistinctIds ∧ rest.DistinctIds

/-- Give the steps of a mission at `base`, and those inside them, their paths. -/
def rewriteNestedPaths (base : Path) : Steps C → Steps C
  | nil => nil
  | leaf step rest => leaf { step with path := base ++ [step.id] } (rest.rewriteNestedPaths base)
  | nest step mission inner rest =>
    nest { step with path := base ++ [step.id] } mission
      (inner.rewriteNestedPaths (base ++ [step.id] ++ mission.id)) (rest.rewriteNestedPaths base)

/-- The paths as a mission is parsed: a step is named by its id alone until the step around its
mission is parsed (`parse_step`). -/
def assignPaths : Steps C → Steps C
  | nil => nil
  | leaf step rest => leaf { step with path := [step.id] } rest.assignPaths
  | nest step mission inner rest =>
    nest { step with path := [step.id] } mission
      (inner.assignPaths.rewriteNestedPaths ([step.id] ++ mission.id)) rest.assignPaths

/-- Every path is that of the mission at `base` followed by the id, and the ids are distinct. -/
def WellPathed (base : Path) : Steps C → Prop
  | nil => True
  | leaf step rest =>
    step.path = base ++ [step.id] ∧ step.id ∉ rest.ids ∧ rest.WellPathed base
  | nest step mission inner rest =>
    step.path = base ++ [step.id] ∧ step.id ∉ rest.ids ∧
      inner.WellPathed (step.path ++ mission.id) ∧ rest.WellPathed base

@[simp] theorem ids_rewriteNestedPaths (base : Path) (steps : Steps C) :
    (steps.rewriteNestedPaths base).ids = steps.ids := by
  induction steps with
  | nil => rfl
  | leaf step rest ih => simp [rewriteNestedPaths, ids, ih]
  | nest step mission inner rest _ ih => simp [rewriteNestedPaths, ids, ih]

@[simp] theorem ids_assignPaths (steps : Steps C) : steps.assignPaths.ids = steps.ids := by
  induction steps with
  | nil => rfl
  | leaf step rest ih => simp [assignPaths, ids, ih]
  | nest step mission inner rest _ ih => simp [assignPaths, ids, ih]

theorem wellPathed_rewriteNestedPaths (base : Path) (h : steps.DistinctIds) :
    (steps.rewriteNestedPaths base).WellPathed base := by
  induction steps generalizing base with
  | nil => trivial
  | leaf step rest ih => exact ⟨rfl, by simpa using h.1, ih base h.2⟩
  | nest step mission inner rest ihInner ih =>
    exact ⟨rfl, by simpa using h.1, ihInner _ h.2.1, ih base h.2.2⟩

theorem DistinctIds.rewriteNestedPaths (h : steps.DistinctIds) (base : Path) :
    (steps.rewriteNestedPaths base).DistinctIds := by
  induction steps generalizing base with
  | nil => trivial
  | leaf step rest ih => exact ⟨by simpa using h.1, ih h.2 base⟩
  | nest step mission inner rest ihInner ih =>
    exact ⟨by simpa using h.1, ihInner h.2.1 _, ih h.2.2 base⟩

theorem DistinctIds.assignPaths (h : steps.DistinctIds) : steps.assignPaths.DistinctIds := by
  induction steps with
  | nil => trivial
  | leaf step rest ih => exact ⟨by simpa using h.1, ih h.2⟩
  | nest step mission inner rest ihInner ih =>
    exact ⟨by simpa using h.1, (ihInner h.2.1).rewriteNestedPaths _, ih h.2.2⟩

/-- **Parsing.** The paths that the parser gives are those from the root. -/
theorem wellPathed_assignPaths (h : steps.DistinctIds) : steps.assignPaths.WellPathed [] := by
  induction steps with
  | nil => trivial
  | leaf step rest ih => exact ⟨rfl, by simpa using h.1, ih h.2⟩
  | nest step mission inner rest _ ih =>
    exact ⟨rfl, by simpa using h.1, wellPathed_rewriteNestedPaths _ h.2.1.assignPaths, ih h.2.2⟩

end Steps

/-- A mission with the paths that the parser gives. -/
structure ParsedMission (C : Type*) extends MissionSpec C where
  wellPathed : steps.WellPathed []

def ParsedMission.parse (authored : MissionSpec C) (h : authored.steps.DistinctIds) :
    ParsedMission C :=
  ⟨⟨authored.header, authored.steps.assignPaths⟩, Steps.wellPathed_assignPaths h⟩

/-! ### The steps with what is in force for them -/

/-- A step with its selector and its constraints. -/
structure FlatStep (C : Type*) where
  step : StepSpec C
  selector : WorkSelector
  constraints : List String
deriving DecidableEq

def FlatStep.path (flat : FlatStep C) : Path := flat.step.header.path

/-- Add the constraints that are not there yet. -/
def pushNew (constraints : List String) (added : List String) : List String :=
  added.foldl (fun held constraint =>
    if constraint ∈ held then held else held ++ [constraint]) constraints

/-- Add one block's constraints to those of the agents. -/
def collectConstraints (output : String → List String) (block : List (String × List String)) :
    String → List String :=
  block.foldl (fun output entry =>
    Function.update output entry.1 (pushNew (output entry.1) entry.2)) output

def Steps.agentConstraints (output : String → List String) : Steps C → String → List String
  | nil => output
  | leaf step rest => rest.agentConstraints (collectConstraints output step.agentConstraints)
  | nest step mission inner rest =>
    let output := collectConstraints output step.agentConstraints
    rest.agentConstraints
      (inner.agentConstraints (collectConstraints output mission.agentConstraints))

/-- The constraints that agent blocks anywhere in the run declare for each agent. -/
def MissionSpec.runAgentConstraints (mission : MissionSpec C) : String → List String :=
  mission.steps.agentConstraints (collectConstraints (fun _ => []) mission.header.agentConstraints)

/-- The constraints of a step with those of the agents it selects. -/
def effectiveConstraints (agents : String → List String) (selector : WorkSelector)
    (constraints : List String) : List String :=
  selector.agents.foldl (fun held agent => pushNew held (agents agent)) constraints

/-- The selector in force for the steps of a mission that name none. -/
def MissionHeader.selector (mission : MissionHeader C) (inherited : Option WorkSelector) :
    WorkSelector :=
  (mission.workSelector.or inherited).getD .agentless

def Steps.flatten (agents : String → List String) (missionSelector : WorkSelector)
    (missionConstraints : List String) : Steps C → List (FlatStep C)
  | nil => []
  | leaf step rest =>
    let selector := step.workSelector.getD missionSelector
    let constraints := missionConstraints ++ step.constraints
    ⟨⟨step, none⟩, selector, effectiveConstraints agents selector constraints⟩ ::
      rest.flatten agents missionSelector missionConstraints
  | nest step mission inner rest =>
    let selector := step.workSelector.getD missionSelector
    let constraints := missionConstraints ++ step.constraints
    ⟨⟨step, some ⟨mission, inner⟩⟩, selector, effectiveConstraints agents selector constraints⟩ ::
      (inner.flatten agents (mission.selector selector) (constraints ++ mission.constraints) ++
        rest.flatten agents missionSelector missionConstraints)

def MissionSpec.flattenSteps (mission : MissionSpec C) : List (FlatStep C) :=
  mission.steps.flatten mission.runAgentConstraints (mission.header.selector none)
    mission.header.constraints

/-! ### Hashes -/

/-- Hashes without collisions. -/
structure Digests (C D : Type*) where
  definition : StepSpec C ↪ D
  flat : D × WorkSelector × List String ↪ D
  header : MissionHeader C ↪ D

/-- The hash of a step with its selector and its constraints. -/
def Digests.step (digests : Digests C D) (flat : FlatStep C) : D :=
  digests.flat (digests.definition flat.step, flat.selector, flat.constraints)

def MissionSpec.stepHashes (digests : Digests C D) (mission : MissionSpec C) : TreeMap Path D :=
  TreeMap.ofLast some (mission.flattenSteps.map fun flat => (flat.path, digests.step flat))

/-- What the hash of the header reads: all but the timeout. -/
def MissionHeader.hashed (header : MissionHeader C) : MissionHeader C :=
  { header with timeoutMs := none }

def missionHeaderHash (digests : Digests C D) (mission : MissionSpec C) : D :=
  digests.header mission.header.hashed

/-! ### Reviewers -/

/-- The reviewers at the path of each step, the steps of missions inside included. -/
def Steps.reviewerEntries (requester : String) (missionReviewers : Finset String) :
    Steps C → List (Path × Finset String)
  | nil => []
  | leaf step rest =>
    (step.path, missionReviewers ∪ step.reviewers requester) ::
      rest.reviewerEntries requester missionReviewers
  | nest step mission inner rest =>
    let stepReviewers := missionReviewers ∪ step.reviewers requester
    (step.path, stepReviewers) ::
      (inner.reviewerEntries requester (stepReviewers ∪ mission.reviewers requester) ++
        rest.reviewerEntries requester missionReviewers)

/-- The reviewers each path's protection selects. A mission inside a step has no entry of its own:
only the root's is kept, at the empty path. -/
def MissionSpec.revisionReviewers (mission : MissionSpec C) (requester : String) :
    TreeMap Path (Finset String) :=
  let reviewers := mission.header.reviewers requester
  TreeMap.ofLast some (([], reviewers) :: mission.steps.reviewerEntries requester reviewers)

/-- The reviewers at the longest path that leads to this one. -/
def reviewersForChangedPath (metadata : TreeMap Path (Finset String)) (path : Path) :
    Finset String :=
  (champion (fun entry : Path × Finset String => entry.1.length)
    (metadata.entries.filter fun entry => entry.1.isPrefixOf path)).elim ∅ Prod.snd

def normalizeActor (value defaultKind : String) : String :=
  if '/' ∈ value.toList then value else defaultKind ++ "/" ++ value

section

variable [DecidableEq D] (digests : Digests C D) (old new : MissionSpec C)

/-- The paths of the steps that differ. -/
def changedSteps : List Path :=
  let oldHashes := old.stepHashes digests
  let newHashes := new.stepHashes digests
  ((oldHashes.entries ++ newHashes.entries).map Prod.fst).filter fun path =>
    oldHashes.get path ≠ newHashes.get path

/-- With the empty path if the header differs. -/
def changedPaths : Finset Path :=
  if missionHeaderHash digests old = missionHeaderHash digests new then
    (changedSteps digests old new).toFinset
  else insert [] (changedSteps digests old new).toFinset

def analyzeMissionRevision (requester : String) : Except String (Finset String) :=
  let changed := changedPaths digests old new
  if changed = ∅ then .error "unchanged-mission-revision" else
    let metadata := old.revisionReviewers (normalizeActor requester "person")
    .ok (changed.biUnion (reviewersForChangedPath metadata))

end

end SmallTalk.Mission
