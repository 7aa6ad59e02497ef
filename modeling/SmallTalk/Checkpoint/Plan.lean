import SmallTalk.Lib.Clearing
import SmallTalk.Checkpoint.Rules
import SmallTalk.Replication.Identity

/-!
# Checkpoint — the drop plan

`planDrops` decides which claims of a sealed set a checkpoint drops. The rules mark what each
slot does not need, guards clear marks, and three steps clear more of them until nothing changes:
a marked claim must be witnessed by later kept claims of its slot, and the claims of an operation
and of an envelope are dropped together or not at all.

The marks are the indexes of the claims to drop. The loop is a pass of `Clearing.Step`s, so the
plan is a total function of the sealed set and every step is idle at the marks it returns.

* `planDrops_sound`: what the plan promises of every claim it drops, and of every group.
-/

namespace SmallTalk.Checkpoint

open Replication (ReplicaEnvelopeId Hasher toBeBytes)
open Clearing Sorted

/-! ### The sealed set -/

/-- The identity of one envelope: writer, sequence and hash, in that order. -/
abbrev EnvelopeKey := ReplicaEnvelopeId

/-- One claim in the sealed set. `valid`: its record admitted it. `isProtected`: a projection row
or a repair names it. -/
structure SealedClaim where
  claim : ClaimRecord
  envelope : EnvelopeKey
  valid : Bool
  isProtected : Bool

/-- One envelope in the sealed set, with the number of its records, admitted or not. -/
structure SealedEnvelope where
  key : EnvelopeKey
  acceptedAtUnixMs : ℕ
  records : ℕ

/-- A dropped envelope. -/
structure EnvelopeTombstone where
  writer : String
  sequence : ℕ
  envelopeHash : String
  acceptedAtUnixMs : ℕ
  deriving DecidableEq, Repr

/-- A dropped claim. -/
structure ClaimTombstone where
  id : String
  writer : String
  sequence : ℕ
  envelopeHash : String
  subject : String
  kind : String
  actor : Option String
  predecessors : List String
  operationId : Option String
  requestDigest : Option String
  acceptedAtUnixMs : ℕ
  deriving DecidableEq, Repr

/-- The envelopes before a cut and their admitted claims, in canonical order, with the tombstones
of earlier checkpoints. The store lists an envelope once. -/
structure SealedSet where
  cutUnixMs : ℕ
  envelopes : List SealedEnvelope
  size : ℕ
  claims : Fin size → SealedClaim
  envelopeTombstones : List EnvelopeTombstone
  claimTombstones : List ClaimTombstone
  distinct : (envelopes.map SealedEnvelope.key).Nodup

/-- Two claims, each in an envelope of its own. -/
def twoSealed (cutUnixMs : ℕ) (first second : ClaimRecord) : SealedSet where
  cutUnixMs
  envelopes := [⟨⟨"a", 1, "h1"⟩, 10, 1⟩, ⟨⟨"a", 2, "h2"⟩, 10, 1⟩]
  size := 2
  claims := ![⟨first, ⟨"a", 1, "h1"⟩, true, false⟩, ⟨second, ⟨"a", 2, "h2"⟩, true, false⟩]
  envelopeTombstones := []
  claimTombstones := []
  distinct := by decide

/-! ### Tombstones and their order -/

namespace EnvelopeTombstone

def orderKey (t : EnvelopeTombstone) : String ×ₗ ℕ ×ₗ String ×ₗ ℕ :=
  toLex (t.writer, toLex (t.sequence, toLex (t.envelopeHash, t.acceptedAtUnixMs)))

theorem orderKey_injective : Function.Injective orderKey := by
  rintro ⟨w, s, h, a⟩ ⟨w', s', h', a'⟩ heq
  obtain ⟨rfl, rfl, rfl, rfl⟩ := heq
  rfl

instance : LinearOrder EnvelopeTombstone := LinearOrder.lift' orderKey orderKey_injective

end EnvelopeTombstone

namespace ClaimTombstone

/-- The derived order. `None` is below every `Some`. -/
def orderKey (t : ClaimTombstone) :
    String ×ₗ String ×ₗ ℕ ×ₗ String ×ₗ String ×ₗ String ×ₗ WithBot String ×ₗ List String ×ₗ
      WithBot String ×ₗ WithBot String ×ₗ ℕ :=
  toLex (t.id, toLex (t.writer, toLex (t.sequence, toLex (t.envelopeHash, toLex (t.subject,
    toLex (t.kind, toLex (t.actor, toLex (t.predecessors, toLex (t.operationId,
      toLex (t.requestDigest, t.acceptedAtUnixMs))))))))))

theorem orderKey_injective : Function.Injective orderKey := by
  rintro ⟨i, w, s, h, sub, k, a, p, o, r, t⟩ ⟨i', w', s', h', sub', k', a', p', o', r', t'⟩ heq
  obtain ⟨rfl, rfl, rfl, rfl, rfl, rfl, rfl, rfl, rfl, rfl, rfl⟩ := heq
  rfl

instance : LinearOrder ClaimTombstone := LinearOrder.lift' orderKey orderKey_injective

end ClaimTombstone

def envelopeTombstone (envelope : SealedEnvelope) : EnvelopeTombstone where
  writer := envelope.key.writer
  sequence := envelope.key.sequence
  envelopeHash := envelope.key.hash
  acceptedAtUnixMs := envelope.acceptedAtUnixMs

theorem envelopeTombstone_key {a b : SealedEnvelope}
    (h : envelopeTombstone a = envelopeTombstone b) : a.key = b.key :=
  ReplicaEnvelopeId.ext (congrArg EnvelopeTombstone.writer h)
    (congrArg EnvelopeTombstone.sequence h) (congrArg EnvelopeTombstone.envelopeHash h)

/-- The operation a claim belongs to, and the digest of its request. -/
def operationParts (body : Json) : Option (String × String) := do
  let operation ← body.get "_operation"
  let id ← (operation.get "id").bind Json.asStr
  let digest ← (operation.get "request_digest").bind Json.asStr
  pure (id, digest)

def claimTombstone (c : SealedClaim) : ClaimTombstone where
  id := c.claim.id
  writer := c.envelope.writer
  sequence := c.envelope.sequence
  envelopeHash := c.envelope.hash
  subject := c.claim.subject
  kind := c.claim.kind
  actor := c.claim.actor
  predecessors := c.claim.predecessors
  operationId := (operationParts c.claim.body).map Prod.fst
  requestDigest := (operationParts c.claim.body).map Prod.snd
  acceptedAtUnixMs := c.claim.acceptedAtUnixMs

/-! ### Digests -/

section

variable (H : Hasher)

def updateText (digest : H.State) (text : String) : H.State :=
  H.update digest text.toUTF8.data.toList

def digestField (digest : H.State) : Option String → H.State
  | some value =>
    updateText H (H.update (H.update digest [1]) (toBeBytes value.utf8ByteSize)) value
  | none => H.update digest [0]

/-- The digest of the sealed envelopes' identities, in the inventory's encoding. -/
def sealedDigest (sealed : SealedSet) : H.Digest :=
  H.replicationIdentityDigest "st3-checkpoint-sealed-v1\x00"
    (sortedSet (sealed.envelopes.map SealedEnvelope.key))

def EnvelopeTombstone.update (digest : H.State) (t : EnvelopeTombstone) : H.State :=
  [t.writer, toString t.sequence, t.envelopeHash, toString t.acceptedAtUnixMs].foldl
    (fun digest value => digestField H digest (some value)) digest

def ClaimTombstone.update (digest : H.State) (t : ClaimTombstone) : H.State :=
  let digest := [some t.id, some t.writer, some (toString t.sequence), some t.envelopeHash,
    some t.subject, some t.kind, t.actor].foldl (digestField H) digest
  let digest := H.update digest (toBeBytes t.predecessors.length)
  let digest := (t.predecessors.map some).foldl (digestField H) digest
  [t.operationId, t.requestDigest, some (toString t.acceptedAtUnixMs)].foldl (digestField H) digest

/-- The digest of every field of every tombstone, sorted. -/
def dropDigest (envelopes : List EnvelopeTombstone) (claims : List ClaimTombstone) : H.Digest :=
  let digest := updateText H H.new "st3-checkpoint-drop-v1\x00"
  let digest := H.update digest (toBeBytes (sortedSet envelopes).length)
  let digest := (sortedSet envelopes).foldl (EnvelopeTombstone.update H) digest
  let digest := H.update digest (toBeBytes (sortedSet claims).length)
  H.finalize ((sortedSet claims).foldl (ClaimTombstone.update H) digest)

/-- The digest of the sorted ids of the claims a checkpoint keeps. -/
def retainedDigest (ids : List String) : H.Digest :=
  H.finalize (((sortedSet ids).map some).foldl (digestField H)
    (updateText H H.new "st3-checkpoint-retained-v1\x00"))

def rulesVersion : ℕ := 7

/-- A canonical description of every rule, one to a line. -/
def rulesDescription : String :=
  String.intercalate "\n" [
    "harness.observed slot=subject,incarnation_id keep=first,first-ready," ++
      "first-ready-not-provider-auth,newest,newest-not-working,every-working-after," ++
      "newest-carrier-of-each-optional-field",
    "harness.timeline slot=subject,incarnation_id keep=newest min-age-before-cut=5d",
    "loop.state slot=subject keep=first-and-last-of-each-run-of-status-and-round," ++
      "first-with-items",
    "subscription.mission-deferred slot=subject,request keep=all-while-open,newest",
    "observer.observed slot=subject keep=newest,newest-carrier-of-each-field",
    "daemon.diagnostic slot=subject,code keep=newest,newest-carrier-of-each-field",
    "transport.observed slot=subject,origin keep=newest,newest-carrier-of-each-field",
    "runtime.action.requested actor=null slot=subject,action,incarnation_id," ++
      "operation_status keep=newest min-age-before-cut=5d",
    "runtime.action.succeeded actor=null slot=subject,action,incarnation_id," ++
      "operation_status keep=newest min-age-before-cut=5d",
    "runtime.action.failed actor=null slot=subject,action,incarnation_id,operation_status " ++
      "keep=newest min-age-before-cut=5d",
    "runtime.action.deadline-reached actor=null slot=subject,action,incarnation_id," ++
      "operation_status keep=newest min-age-before-cut=5d",
    "harness.usage semantics=response_rollup slot=subject,incarnation_id,model,account," ++
      "owner_run,owner_step,host keep=newest," ++
      "last-of-each-utc-hour-by-observed_at-within-7d-before-cut,newest-before-that",
    "harness.usage semantics=session_cumulative slot=subject,incarnation_id keep=newest," ++
      "largest-total_tokens",
    "harness.usage semantics=context_occupancy slot=subject,incarnation_id keep=newest",
    "harness.limits slot=subject keep=newest",
    "resource.observed actor=null observer=set slot=subject keep=newest",
    "render.applied slot=subject keep=newest min-age-before-cut=5d",
    "runtime.readiness-deadline-reached slot=subject keep=newest min-age-before-cut=5d",
    "sealed=every-admitted-claim-of-an-envelope-before-the-cut-but-repaired-originals",
    "proof=the-sealed-claims-and-the-blobs-they-reference",
    "guards=person-actor,once-cardinality,record-not-valid,repair-replacement," ++
      "projection-reference,claim-in-two-envelopes,cited-as-evidence,mission-run-input," ++
      "shared-operation,writer-newest-envelope,whole-envelope",
    "witness=every-field-set-again-by-a-later-kept-claim-of-the-slot",
    "carriers=every-rule-but-loop.state-keeps-the-newest-carrier-of-each-field"]

/-- The digest of the rules; the version is a `u32`. -/
def rulesDigest : H.Digest :=
  H.finalize (updateText H (H.update (updateText H H.new "st3-checkpoint-rules-v1\x00")
    ((toBeBytes rulesVersion).drop 4)) rulesDescription)

end

/-! ### What the rules mark

The rules read the claims alone, by their indexes in canonical order. -/

section

variable {n : ℕ} (registry : Registry) (row : Fin n → ClaimRecord)

/-- How often a claim is in the sealed set: it can be held in more than one envelope. -/
def occurrences (id : String) : ℕ := (List.finRange n).countP fun i => (row i).id = id

/-- The first occurrence of each claim. -/
def first : List (Fin n) :=
  (List.finRange n).filter fun i => ∀ j < i, (row j).id ≠ (row i).id

/-- The slots, each in canonical order. -/
def slots : List (Slot × List (Fin n)) := grouped (fun i => slotOf (row i)) (first row)

/-- The subjects and requests that a claim closes. -/
def closedRequests : List (String × String) :=
  ((List.finRange n).filter fun i => (row i).kind ∈ requestClosers).filterMap fun i =>
    (fieldStr (row i) "request").map fun request => ((row i).subject, request)

/-- The positions a rule keeps of its slot. -/
def keep (cut : ℕ) (rule : Rule) (texts : List String) (members : List (Fin n)) : Finset ℕ :=
  let claims := members.map row
  let newest := {members.length - 1}
  let keep := match rule with
    | .newest | .newestAged => newest
    | .harnessObserved => harnessKeep claims
    | .usageSeries => usageSeriesKeep claims cut
    | .usageCumulative => usageCumulativeKeep claims
    | .loopState => loopKeep claims
    | .deferral =>
      if (texts.headD "", texts.getLastD "") ∈ closedRequests row then newest
      else Finset.range members.length
  if rule = .loopState then keep else keep ∪ fieldCarriers claims

def oldEnough (cut : ℕ) (rule : Rule) (claim : ClaimRecord) : Bool :=
  rule ≠ .newestAged || claim.acceptedAtUnixMs < cut - localKindMinAgeMs

/-- What the rule of a slot does not need. -/
def slotDrops (cut : ℕ) (slot : Slot × List (Fin n)) : List (Fin n) :=
  let (rule, texts) := ofLex slot.1
  (slot.2.zipIdx.filter fun entry =>
    entry.2 ∉ keep row cut rule texts slot.2 && oldEnough cut rule (row entry.1)).map Prod.fst

/-- The claims that their slots do not need. -/
def ruled (cut : ℕ) : Finset (Fin n) := ((slots row).flatMap (slotDrops row cut)).toFinset

/-- The claims cited as evidence. -/
def evidence (claim : ClaimRecord) : List String :=
  (((claim.body.get "evidence").bind Json.asArray).getD []).filterMap Json.asStr

/-- The claims pinned as the inputs of a mission run. -/
def runInputs (claim : ClaimRecord) : List String :=
  if claim.kind = "mission-run.created" then
    ((((claim.body.get "fields").bind (Json.get "inputs")).bind Json.asObject).getD []).filterMap
      fun input => (input.2.get "claim_id").bind Json.asStr
  else []

def cited : List String :=
  (List.finRange n).flatMap fun i => evidence (row i) ++ runInputs (row i)

/-! ### The steps that clear marks -/

/-- One claim of a slot, after the later ones: `later` are the fields that the `laterClaims` kept
ones among them set. -/
def witnessClaim (i : Fin n) (state : Pass (Fin n) × Finset String × ℕ) :
    Pass (Fin n) × Finset String × ℕ :=
  let (pass, later, laterClaims) := state
  let pass := if i ∈ pass.flags ∧ witnessed registry (row i) later laterClaims = false then
    ⟨pass.flags.erase i, true⟩ else pass
  if i ∈ pass.flags then (pass, later, laterClaims)
  else (pass, later ∪ (fieldNames (row i)).toFinset, laterClaims + 1)

section

variable {registry : Registry} {row : Fin n → ClaimRecord} {i : Fin n} {pass : Pass (Fin n)}
  {later : Finset String} {laterClaims : ℕ}

theorem witnessClaim_unmarked (hi : i ∉ pass.flags) :
    witnessClaim registry row i (pass, later, laterClaims) =
      (pass, later ∪ (fieldNames (row i)).toFinset, laterClaims + 1) := by
  simp [witnessClaim, hi]

theorem witnessClaim_witnessed (hi : i ∈ pass.flags)
    (hw : witnessed registry (row i) later laterClaims = true) :
    witnessClaim registry row i (pass, later, laterClaims) = (pass, later, laterClaims) := by
  simp only [witnessClaim, hw, Bool.true_eq_false, and_false, if_false, if_pos hi]

theorem witnessClaim_cleared (hi : i ∈ pass.flags)
    (hw : witnessed registry (row i) later laterClaims = false) :
    (witnessClaim registry row i (pass, later, laterClaims)).1 = ⟨pass.flags.erase i, true⟩ := by
  simp only [witnessClaim, hw, hi, and_self, if_true, Finset.notMem_erase, if_false]

theorem witnessClaim_advances (registry : Registry) (row : Fin n → ClaimRecord) (i : Fin n)
    (state) : Pass.Advances state.1 (witnessClaim registry row i state).1 := by
  obtain ⟨pass, later, laterClaims⟩ := state
  by_cases hi : i ∈ pass.flags
  · cases hw : witnessed registry (row i) later laterClaims with
    | true =>
      rw [witnessClaim_witnessed hi hw]
      exact .refl _
    | false =>
      rw [witnessClaim_cleared hi hw]
      exact .inr ⟨rfl, Finset.erase_ssubset hi⟩
  · rw [witnessClaim_unmarked hi]
    exact .refl _

theorem foldr_witnessClaim_advances (registry : Registry) (row : Fin n → ClaimRecord)
    (members : List (Fin n)) (state) :
    Pass.Advances state.1 (members.foldr (witnessClaim registry row) state).1 := by
  induction members with
  | nil => exact .refl _
  | cons i members ih => exact ih.trans (witnessClaim_advances registry row i _)

end

/-- A slot, newest first, so a claim kept back can witness the ones before it. -/
def witnessSlot (members : List (Fin n)) : Step (Fin n) where
  run pass := (members.foldr (witnessClaim registry row) (pass, ∅, 0)).1
  advances pass := foldr_witnessClaim_advances registry row members (pass, ∅, 0)

/-- A group is dropped as a whole or not at all. -/
def wholeGroup (members : List (Fin n)) : Step (Fin n) :=
  .clear members
    (fun dropped => members.any (· ∈ dropped) && members.any (· ∉ dropped))
    fun dropped h => by simpa using (Bool.and_eq_true_iff.mp h).1

def operations : List (String × List (Fin n)) :=
  grouped (fun i => (row i).operationId) (List.finRange n)

def envelopeClaims (envelope : Fin n → EnvelopeKey) : List (EnvelopeKey × List (Fin n)) :=
  grouped (fun i => some (envelope i)) (List.finRange n)

/-- An envelope is dropped only when its sealed claims are all its records. -/
def wholeEnvelope (records : EnvelopeKey → Option ℕ) (group : EnvelopeKey × List (Fin n)) :
    Step (Fin n) :=
  .clear group.2
    (fun dropped => records group.1 ≠ some group.2.length && group.2.any (· ∈ dropped))
    fun dropped h => by simpa using (Bool.and_eq_true_iff.mp h).2

/-- One round of the loop. -/
def round (envelope : Fin n → EnvelopeKey) (records : EnvelopeKey → Option ℕ) : Step (Fin n) :=
  ((Step.each (witnessSlot registry row) ((slots row).map Prod.snd)).andThen
    (Step.each wholeGroup
      ((operations row).map Prod.snd ++ (envelopeClaims envelope).map Prod.snd))).andThen
    (Step.each (wholeEnvelope records) (envelopeClaims envelope))

end

/-! ### Guards -/

namespace SealedSet

variable (registry : Registry) (sealed : SealedSet)

abbrev Index := Fin sealed.size

def row (i : sealed.Index) : ClaimRecord := (sealed.claims i).claim

def envelope (i : sealed.Index) : EnvelopeKey := (sealed.claims i).envelope

/-- The newest sealed sequence of a writer. -/
def newestEnvelope (writer : String) : Option ℕ :=
  match sealed.envelopes.filter fun envelope => envelope.key.writer = writer with
  | [] => none
  | envelopes => some ((envelopes.map fun envelope => envelope.key.sequence).foldr max 0)

/-- The claim stays, whatever the rules say. -/
def guarded (i : sealed.Index) : Bool :=
  (sealed.row i).actor.any (startsWith "person/") ||
  !(((registry.claim (sealed.row i).kind).map ClaimSpec.cardinality).any fun cardinality =>
    cardinality = .append || cardinality = .stateTransition) ||
  !(sealed.claims i).valid || (sealed.claims i).isProtected ||
  1 < occurrences sealed.row (sealed.row i).id || (sealed.row i).id ∈ cited sealed.row ||
  sealed.newestEnvelope (sealed.envelope i).writer = some (sealed.envelope i).sequence

/-- The marks of the rules, less the guarded ones. -/
def marked : Finset sealed.Index :=
  (ruled sealed.row sealed.cutUnixMs).filter fun i => sealed.guarded registry i = false

/-- The number of records of a sealed envelope. -/
def records (key : EnvelopeKey) : Option ℕ :=
  (sealed.envelopes.find? fun envelope => envelope.key = key).map SealedEnvelope.records

/-- The claims the plan drops. -/
def dropped : Finset sealed.Index :=
  settle (round registry sealed.row sealed.envelope sealed.records) (sealed.marked registry)

end SealedSet

/-! ### The plan -/

/-- How many claims of a kind are sealed, and how many of them dropped. -/
structure DropCount where
  sealedClaims : ℕ
  dropped : ℕ

/-- What a checkpoint drops from a sealed set. -/
structure DropPlan (H : Hasher) where
  cutUnixMs : ℕ
  rulesDigest : H.Digest
  sealedEnvelopes : ℕ
  sealedClaims : ℕ
  sealedDigest : H.Digest
  envelopes : List EnvelopeTombstone
  claims : List ClaimTombstone
  byKind : List (String × DropCount)
  dropDigest : H.Digest
  retainedDigest : H.Digest

def planDrops (H : Hasher) (registry : Registry) (sealed : SealedSet) : DropPlan H :=
  let dropped := sealed.dropped registry
  let byKind := (grouped (fun i => some (sealed.row i).kind) (first sealed.row)).map
    fun (kind, members) => (kind, DropCount.mk members.length (members.countP (· ∈ dropped)))
  let droppedEnvelopes :=
    ((envelopeClaims sealed.envelope).filter fun group => group.2.all (· ∈ dropped)).map Prod.fst
  let envelopes := sortedSet
    ((sealed.envelopes.filter (·.key ∈ droppedEnvelopes)).map envelopeTombstone)
  let tombstones := sortedSet
    (((first sealed.row).filter (· ∈ dropped)).map fun i => claimTombstone (sealed.claims i))
  let retained := ((first sealed.row).filter (· ∉ dropped)).map fun i => (sealed.row i).id
  { cutUnixMs := sealed.cutUnixMs
    rulesDigest := rulesDigest H
    sealedEnvelopes := sealed.envelopes.length
    sealedClaims := (first sealed.row).length
    sealedDigest := sealedDigest H sealed
    envelopes := envelopes
    claims := tombstones
    byKind := byKind.filter fun entry => 0 < entry.2.dropped
    dropDigest := dropDigest H (sealed.envelopeTombstones ++ envelopes)
      (sealed.claimTombstones ++ tombstones)
    retainedDigest := retainedDigest H retained }

end SmallTalk.Checkpoint
