import SmallTalk.Data.Json
import SmallTalk.Lib.Durable
import SmallTalk.Lib.Fallible

/-!
# Resources — the catch-up state of a binding

A provider publishes snapshots of a resource. The snapshot is one file, the carrier; beside it a
state file records which snapshot is current and whether a relevant change waits to be delivered. A
publication writes an intent, then the carrier, then the state, and then removes the intent, and after
a crash the intent and the carrier tell how far it came (`reconcileSnapshotLocked`).

* `CatchUpState.validate`, `PublicationIntent.validate`: what is checked at each read and write.
* `commitProposal`, `publish`, `reconcileSnapshot`, `setDeliverable`, `acknowledgeDelivery`,
  `advanceGeneration`, `reopen`: the calls, as code that writes durably.

An intent stands for its proposal id, the digest of its fields. `Files` are the digest of a snapshot
and the lengths of the files as they are printed. Every call takes the lock, so calls do not overlap.
-/

namespace SmallTalk.Resources

open Fallible

/-! ### Facts -/

def maxFacts : ℕ := 32
def maxFactKeyBytes : ℕ := 128
def maxFactValueBytes : ℕ := 1024

inductive FactValue where
  | omitted
  | null
  | value (text : String)
deriving DecidableEq

structure ResourceFact where
  key : String
  before : FactValue
  after : FactValue
deriving DecidableEq

/-- A control character, or one that ends a line or a paragraph. -/
def breaksLine (c : Char) : Bool :=
  c.toNat < 0x20 || (0x7f ≤ c.toNat && c.toNat ≤ 0x9f) || c.toNat = 0x2028 || c.toNat = 0x2029

def validFactString (value : String) (maximum : ℕ) (nonempty : Bool) : Bool :=
  !(nonempty && value.isEmpty) && value.utf8ByteSize ≤ maximum && !value.toList.any breaksLine

def FactValue.valid : FactValue → Bool
  | value text => validFactString text maxFactValueBytes false
  | _ => true

def ResourceFact.valid (fact : ResourceFact) : Bool :=
  validFactString fact.key maxFactKeyBytes true &&
    !(fact.before = .omitted && fact.after = .omitted) && fact.before.valid && fact.after.valid

/-! ### State and intents -/

def maxCatchUpFileBytes : ℕ := 512 * 1024

inductive CatchUpError where
  | stateTooLarge
  | intentTooLarge
  | invalidState (reason : String)
  | expected (reason : String)
deriving DecidableEq

abbrev Checked (α : Type) : Type := Except CatchUpError α

def require (holds : Bool) (reason : String) : Checked Unit :=
  if holds then .ok () else .error (.invalidState reason)

/-- `checked_add(1)` on a `u64`. -/
def successor (n : ℕ) (reason : String) : Checked ℕ :=
  if n < u64Max then .ok (n + 1) else .error (.invalidState reason)

def validatePersistedTopics (topics : List String) : Checked Unit :=
  require ("" ∉ topics ∧ topics.Nodup) "persisted selected topics must be non-empty and unique"

def validatePersistedFacts (facts : List ResourceFact) : Checked Unit :=
  require (facts.length ≤ maxFacts ∧ facts.all ResourceFact.valid) "persisted facts are invalid"

variable {β D : Type} [DecidableEq D]

structure PublicationIntent (D : Type) where
  bindingId : String
  generation : ℕ
  expectedRevision : ℕ
  priorDigest : Option D
  digest : D
  selectedTopics : List String
  facts : List ResourceFact
deriving DecidableEq

structure PublicationCommit (D : Type) where
  proposal : PublicationIntent D
  generation : ℕ
  revision : ℕ
  digest : D

namespace PublicationIntent

def commit (intent : PublicationIntent D) : Checked (PublicationCommit D) := do
  let revision ← successor intent.expectedRevision "publication revision counter exhausted"
  return ⟨intent, intent.generation, revision, intent.digest⟩

def validate (intent : PublicationIntent D) : Checked Unit := do
  validatePersistedTopics intent.selectedTopics
  validatePersistedFacts intent.facts

end PublicationIntent

/-- An intent as an earlier release wrote it. -/
structure LegacyPublicationIntent (D : Type) where
  digest : D
  selectedTopics : List String
  facts : List ResourceFact
deriving DecidableEq

inductive StoredPublicationIntent (D : Type) where
  | current (intent : PublicationIntent D)
  | legacy (intent : LegacyPublicationIntent D)
deriving DecidableEq

namespace StoredPublicationIntent

def selectedTopics : StoredPublicationIntent D → List String
  | current intent => intent.selectedTopics
  | legacy intent => intent.selectedTopics

def facts : StoredPublicationIntent D → List ResourceFact
  | current intent => intent.facts
  | legacy intent => intent.facts

def validate (stored : StoredPublicationIntent D) : Checked Unit := do
  validatePersistedTopics stored.selectedTopics
  validatePersistedFacts stored.facts

end StoredPublicationIntent

structure ProposalFence (D : Type) where
  generation : ℕ
  revision : ℕ
  priorDigest : Option D
deriving DecidableEq

structure CatchUpState (D : Type) where
  currentSnapshotDigest : Option D := none
  lastDeliveredDigest : Option D := none
  pendingRelevantChange : Bool := false
  pendingFromLastIntent : Bool := false
  pendingSelectedTopics : List String := []
  pendingFacts : List ResourceFact := []
  deliverable : Bool := false
  generation : ℕ := 0
  revision : ℕ := 0
  lastIntent : Option (PublicationIntent D) := none
deriving DecidableEq

namespace CatchUpState

variable (state : CatchUpState D)

/-- The topics of the pending change. They are kept in the last intent while it is the pending
one. -/
def selectedTopics (state : CatchUpState D) : List String :=
  if state.pendingFromLastIntent then (state.lastIntent.map (·.selectedTopics)).getD []
  else state.pendingSelectedTopics

def facts (state : CatchUpState D) : List ResourceFact :=
  if state.pendingFromLastIntent then (state.lastIntent.map (·.facts)).getD []
  else state.pendingFacts

def proposalFence : ProposalFence D :=
  ⟨state.generation, state.revision, state.currentSnapshotDigest⟩

def validateLastIntent : Option (PublicationIntent D) → Checked Unit
  | none => .ok ()
  | some intent => do
      intent.validate
      let commit ← intent.commit
      require (commit.generation ≤ state.generation)
        "last intent generation is newer than catch-up state"
      require (commit.revision ≤ state.revision)
        "last intent revision is newer than catch-up state"
      require (commit.revision = state.revision → state.currentSnapshotDigest = some commit.digest)
        "last intent digest differs from current snapshot"

/-- Where the topics and facts of the pending change are. -/
def validatePending : Checked Unit :=
  if state.pendingFromLastIntent then do
    require state.pendingRelevantChange "pending last intent requires pending relevance"
    require (state.pendingSelectedTopics = [] ∧ state.pendingFacts = [])
      "pending last intent must not duplicate its semantic envelope"
    require (state.lastIntent.any fun intent => intent.selectedTopics ≠ [])
      "pending last intent requires a relevant durable intent"
  else require (state.pendingRelevantChange = decide (state.pendingSelectedTopics ≠ []))
    "pending relevance and selected topics disagree"

def validate : Checked Unit := do
  require (state.pendingRelevantChange → state.currentSnapshotDigest.isSome)
    "pending relevance requires a current snapshot digest"
  state.validatePending
  validatePersistedTopics state.selectedTopics
  validatePersistedFacts state.facts
  require (state.pendingRelevantChange ∨ state.pendingSelectedTopics = [] ∧ state.pendingFacts = [])
    "pending semantic envelope requires a pending relevant change"
  state.validateLastIntent state.lastIntent

/-- The pending topics and facts move out of the last intent when an intent without topics takes its
place. -/
def retained (intent : PublicationIntent D) : Checked (CatchUpState D) :=
  if intent.selectedTopics = [] ∧ state.pendingFromLastIntent then
    match state.lastIntent with
    | none => .error (.invalidState "pending last intent is absent")
    | some previous => .ok { state with
        pendingSelectedTopics := previous.selectedTopics
        pendingFacts := previous.facts
        pendingFromLastIntent := false }
  else .ok state

/-- `record_intent`, up to the write. -/
def record (intent : PublicationIntent D) : Checked (CatchUpState D) := do
  let commit ← intent.commit
  let kept ← state.retained intent
  let next : CatchUpState D := { kept with
    currentSnapshotDigest := some intent.digest
    revision := commit.revision
    lastIntent := some intent }
  if intent.selectedTopics = [] then return next
  else return { next with
    pendingRelevantChange := true
    pendingFromLastIntent := true
    pendingSelectedTopics := []
    pendingFacts := [] }

/-- The state without a pending change. -/
def withoutPending : CatchUpState D := { state with
  pendingRelevantChange := false
  pendingFromLastIntent := false
  pendingSelectedTopics := []
  pendingFacts := [] }

/-- The state with the change of a legacy intent, whose snapshot is the carrier. -/
def adoptLegacy (intent : LegacyPublicationIntent D) : CatchUpState D :=
  let next := { state with currentSnapshotDigest := some intent.digest }
  if intent.selectedTopics = [] then next
  else { next with
    pendingRelevantChange := true
    pendingFromLastIntent := false
    pendingSelectedTopics := intent.selectedTopics
    pendingFacts := intent.facts }

end CatchUpState

/-! ### Calls -/

/-- The digest of a snapshot, and how long the files are when they are printed. -/
structure Files (β D : Type) where
  digestOf : β → D
  stateBytes : CatchUpState D → ℕ
  intentBytes : PublicationIntent D → ℕ

/-- The files of a binding: the state (its default when there is none), the intent, the carrier. -/
structure Disk (β D : Type) where
  state : CatchUpState D := {}
  intent : Option (StoredPublicationIntent D) := none
  carrier : Option β := none

/-- A publication that the binding's contract accepts. -/
structure AcceptedPublication (β : Type) where
  bindingId : String
  bytes : β
  selectedTopics : List String
  facts : List ResourceFact

inductive SnapshotChange (D : Type) where
  | first
  | equal
  | changed (previous : D)
deriving DecidableEq

structure PublicationOutcome (D : Type) where
  digest : D
  change : SnapshotChange D
  selectedTopics : List String
  facts : List ResourceFact

inductive ProposalCommit (D : Type) where
  | alreadyCommitted (commit : PublicationCommit D)
  | staleGeneration (actualGeneration actualRevision : ℕ)
  | stalePrior (actualGeneration actualRevision : ℕ) (actualDigest : Option D)
  | unchanged (generation revision : ℕ) (digest : D)
  | committed (commit : PublicationCommit D)

structure DeliveryRequest (D : Type) where
  digest : D
  selectedTopics : List String
  facts : List ResourceFact
deriving DecidableEq

/-- Code over the files of a binding. -/
abbrev Catching (β D α : Type) : Type := Durable (Disk β D) CatchUpError α

open Durable

section

variable (files : Files β D)

def Disk.observed (disk : Disk β D) : Option D := disk.carrier.map files.digestOf

def pendingDelivery (disk : Disk β D) : Option (DeliveryRequest D) :=
  if disk.state.deliverable ∧ disk.state.pendingRelevantChange then
    disk.state.currentSnapshotDigest.map fun digest =>
      ⟨digest, disk.state.selectedTopics, disk.state.facts⟩
  else none

def commitState (next : CatchUpState D) : Catching β D Unit := do
  lift next.validate
  if maxCatchUpFileBytes < files.stateBytes next then fail .stateTooLarge
  else write fun disk => { disk with state := next }

/-- `read_catch_up_state`: the state file is checked at each read. -/
def reload : Catching β D (CatchUpState D) := do
  let disk ← read
  lift disk.state.validate
  return disk.state

def readPublicationIntent : Catching β D (Option (StoredPublicationIntent D)) := do
  let disk ← read
  match disk.intent with
  | none => return none
  | some stored =>
    lift stored.validate
    return some stored

def writePublicationIntent (intent : PublicationIntent D) : Catching β D Unit := do
  lift intent.validate
  if maxCatchUpFileBytes < files.intentBytes intent then fail .intentTooLarge
  else write fun disk => { disk with intent := some (.current intent) }

def clearPublicationIntent : Catching β D Unit := write fun disk => { disk with intent := none }

def recordIntent (intent : PublicationIntent D) : Catching β D Unit := do
  let disk ← read
  let next ← lift (disk.state.record intent)
  commitState files next

/-- The carrier's digest becomes the current one: only before the first revision, and not under a
pending change when there is no carrier. -/
def adoptCarrier : Catching β D Unit := do
  let disk ← read
  let observed := disk.observed files
  if observed ≠ disk.state.currentSnapshotDigest ∧ 0 < disk.state.revision then
    fail (.invalidState "canonical snapshot differs from the authoritative committed digest")
  else if observed = none ∧ disk.state.pendingRelevantChange ∧
      (disk.intent.isSome ∨ observed ≠ disk.state.currentSnapshotDigest) then
    fail (.invalidState "a pending invalidation has no readable canonical snapshot")
  else if observed ≠ disk.state.currentSnapshotDigest then
    commitState files { disk.state with currentSnapshotDigest := observed }
  else pure ()

/-- The carrier is that of the intent: the publication is recorded unless it is already. -/
def catchUp (intent : PublicationIntent D) : Catching β D Unit := do
  let disk ← read
  if disk.state.lastIntent = some intent then pure ()
  else if disk.state.proposalFence = ⟨intent.generation, intent.expectedRevision, intent.priorDigest⟩
  then recordIntent files intent
  else fail (.invalidState "published intent does not follow the authoritative fence")

/-- The state that a legacy intent leads to. -/
def migrate (intent : LegacyPublicationIntent D) : Catching β D Unit := do
  let disk ← read
  let observed := disk.observed files
  if 0 < disk.state.revision then
    fail (.invalidState "legacy publication intent conflicts with current authoritative state")
  else if observed = some intent.digest then
    let next := disk.state.adoptLegacy intent
    if next ≠ disk.state then commitState files next else pure ()
  else adoptCarrier files

def reconcileSnapshotLocked : Catching β D Unit := do
  let stored ← readPublicationIntent
  match stored with
  | none => adoptCarrier files
  | some (.current intent) => do
      let disk ← read
      if disk.observed files = some intent.digest then catchUp files intent else adoptCarrier files
      clearPublicationIntent
  | some (.legacy intent) => do
      migrate files intent
      clearPublicationIntent

def reconcileSnapshot : Catching β D (Option (DeliveryRequest D)) := do
  let _ ← reload
  reconcileSnapshotLocked files
  let disk ← read
  return pendingDelivery disk

def AcceptedPublication.intent (publication : AcceptedPublication β) (fence : ProposalFence D) :
    PublicationIntent D :=
  ⟨publication.bindingId, fence.generation, fence.revision, fence.priorDigest,
    files.digestOf publication.bytes, publication.selectedTopics, publication.facts⟩

/-- `prepare`: how the publication differs from the carrier. -/
def AcceptedPublication.prepare (publication : AcceptedPublication β) (previous : Option D) :
    PublicationOutcome D :=
  let digest := files.digestOf publication.bytes
  let change := match previous with
    | none => .first
    | some previous => if previous = digest then .equal else .changed previous
  ⟨digest, change, publication.selectedTopics, publication.facts⟩

/-- The writes of a publication: intent, carrier, state, and the intent is removed. -/
def announce (intent : PublicationIntent D) (bytes : β) : Catching β D Unit := do
  writePublicationIntent files intent
  write fun disk => { disk with carrier := some bytes }
  recordIntent files intent
  clearPublicationIntent

def commitProposalLocked (fence : ProposalFence D) (publication : AcceptedPublication β) :
    Catching β D (ProposalCommit D × Option (PublicationOutcome D)) := do
  let disk ← read
  let state := disk.state
  let intent := publication.intent files fence
  if state.lastIntent = some intent then
    let commit ← lift intent.commit
    return (.alreadyCommitted commit, none)
  else if fence.generation ≠ state.generation then
    return (.staleGeneration state.generation state.revision, none)
  else if fence ≠ state.proposalFence then
    return (.stalePrior state.generation state.revision state.currentSnapshotDigest, none)
  else
    let outcome := publication.prepare files (disk.observed files)
    if outcome.change = .equal then
      return (.unchanged state.generation state.revision outcome.digest, some outcome)
    else
      let commit ← lift intent.commit
      announce files intent publication.bytes
      return (.committed commit, some outcome)

def commitProposal (fence : ProposalFence D) (publication : AcceptedPublication β) :
    Catching β D (ProposalCommit D) := do
  let _ ← reload
  reconcileSnapshotLocked files
  let answer ← commitProposalLocked files fence publication
  return answer.1

def publish (publication : AcceptedPublication β) :
    Catching β D (PublicationOutcome D × Option (DeliveryRequest D)) := do
  let _ ← reload
  reconcileSnapshotLocked files
  let disk ← read
  let answer ← commitProposalLocked files disk.state.proposalFence publication
  match answer.2 with
  | none => fail (.expected "a current fence cannot reject its own publication")
  | some outcome =>
    let disk ← read
    return (outcome, pendingDelivery disk)

def setDeliverable (deliverable : Bool) : Catching β D (Option (DeliveryRequest D)) := do
  let state ← reload
  if state.deliverable ≠ deliverable then
    commitState files { state with deliverable := deliverable }
  let disk ← read
  return pendingDelivery disk

def acknowledgeDelivery (digest : D) : Catching β D Bool := do
  let state ← reload
  if state.pendingRelevantChange ∧ state.currentSnapshotDigest = some digest then
    commitState files { state.withoutPending with lastDeliveredDigest := some digest }
    return true
  else return false

def advanceGeneration : Catching β D (ProposalFence D) := do
  let state ← reload
  let stored ← readPublicationIntent
  let generation ← lift (successor state.generation "binding generation counter exhausted")
  let revision ← lift (successor state.revision "publication revision counter exhausted")
  let disk ← read
  commitState files { state.withoutPending with
    generation := generation
    revision := revision
    currentSnapshotDigest := disk.observed files
    lastIntent := none }
  if stored.isSome then clearPublicationIntent
  let disk ← read
  return disk.state.proposalFence

/-- The calls of one binding. Opening reads the state. -/
inductive Call (β D : Type) where
  | commitProposal (fence : ProposalFence D) (publication : AcceptedPublication β)
  | publish (publication : AcceptedPublication β)
  | reconcileSnapshot
  | setDeliverable (deliverable : Bool)
  | acknowledgeDelivery (digest : D)
  | advanceGeneration
  | reopen

def Call.run : Call β D → Catching β D Unit
  | commitProposal fence publication => do
      let _ ← Resources.commitProposal files fence publication
  | publish publication => do let _ ← Resources.publish files publication
  | reconcileSnapshot => do let _ ← Resources.reconcileSnapshot files
  | setDeliverable deliverable => do let _ ← Resources.setDeliverable files deliverable
  | acknowledgeDelivery digest => do let _ ← Resources.acknowledgeDelivery files digest
  | advanceGeneration => do let _ ← Resources.advanceGeneration files
  | reopen => do let _ ← reload

end

end SmallTalk.Resources
