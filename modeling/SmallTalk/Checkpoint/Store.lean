import SmallTalk.Checkpoint.Plan

/-!
# Checkpoint — the tables a sealed set is read from

A node's log is its tables of batches, claims, blobs, envelopes and records. A batch the node
writes itself is sealed into an envelope (`sealBatch`); an envelope of a peer is validated and
admitted (`validateAndAdmitEnvelope`). Both write a record row for each claim, and a repair
(`applyReplicationRepair`) replaces the state of one. `sealedSetThrough` reads the sealed set of
a cut from the tables.

What a build computes of bytes is a parameter, `Build`: the hashes of envelopes, blobs, records and
batch headers, whether a claim's id is the hash of its content, and the runtime's check of a
claim's kind and fields.
-/

namespace SmallTalk.Checkpoint

open List Sorted

variable (build : Build)

/-! ### Envelopes -/

/-- A batch of claims as its writer sealed it. -/
structure ReplicaBatch where
  id : String
  origin : String
  replicaSequence : ℕ
  previousHash : Option String
  hash : String
  acceptedAtUnixMs : ℕ
  claims : List ClaimRecord

/-- What an envelope carries: the batch, and the blobs its claims reference, by hash. -/
structure ReplicaEnvelopePayload where
  batch : ReplicaBatch
  blobs : List (String × List UInt8)

structure ReplicaEnvelope where
  writer : String
  sequence : ℕ
  previousHash : Option String
  hash : String
  acceptedAtUnixMs : ℕ
  payload : ReplicaEnvelopePayload

def ReplicaEnvelope.key (envelope : ReplicaEnvelope) : EnvelopeKey :=
  ⟨envelope.writer, envelope.sequence, envelope.hash⟩

/-- What the runtime says of a replicated claim. -/
inductive ReplicatedClaimAdmission where
  | valid
  | unknownKind
  | unknownField
  deriving DecidableEq, Repr

/-- What a build of the program computes. Errors are named by their codes. -/
structure Build where
  envelopeHash : String → ℕ → Option String → ℕ → ReplicaEnvelopePayload → String
  headerHash : String → ℕ → Option String → ℕ → String
  blobHash : List UInt8 → String
  recordRef : EnvelopeKey → ℕ → String
  claimIdIsContentHash : ClaimRecord → Bool
  classifyReplicatedClaim : ClaimRecord → Except String ReplicatedClaimAdmission

mutual

/-- The blob hashes a claim's body names: texts of 64 bytes under one of three names. -/
def collectHashFields : Json → List String
  | .obj members => collectMembers members
  | .arr items => collectItems items
  | _ => []

def collectItems : List Json → List String
  | [] => []
  | item :: items => collectHashFields item ++ collectItems items

def collectMembers : List (String × Json) → List String
  | [] => []
  | (name, value) :: members =>
    let named := if name ∈ ["hash", "blob_hash", "bundle_hash"] then
      (value.asStr.filter fun hash => hash.utf8ByteSize = 64).toList else []
    named ++ collectHashFields value ++ collectMembers members

end

/-! ### Tables -/

structure BatchRow where
  id : String
  origin : String
  replicaSequence : ℕ
  previousHash : Option String
  hash : String
  acceptedAtUnixMs : ℕ

structure EnvelopeRow where
  rowid : ℕ
  key : EnvelopeKey
  acceptedAtUnixMs : ℕ
  batchId : Option String
  deriving DecidableEq, Repr

inductive RecordState where
  | pending
  | valid
  | unknown
  | invalid
  | repaired
  deriving DecidableEq, Repr

structure RecordRow where
  recordRef : String
  envelope : EnvelopeKey
  position : ℕ
  state : RecordState
  claimId : Option String
  replacementClaimId : Option String
  deriving DecidableEq, Repr

def EnvelopeTombstone.key (t : EnvelopeTombstone) : EnvelopeKey :=
  ⟨t.writer, t.sequence, t.envelopeHash⟩

/-- The tables of a node's log. `references` are the claims that projection rows name: the current
claims of `desired`, `mission_definitions`, `mission_revisions` and `documents`. Claims, envelopes
and the tombstones of envelopes have primary keys. -/
structure Tables where
  batches : List BatchRow := []
  claims : List ClaimRecord := []
  blobs : List (String × List UInt8) := []
  envelopes : List EnvelopeRow := []
  records : List RecordRow := []
  references : List String := []
  checkpointEnvelopes : List EnvelopeTombstone := []
  checkpointClaims : List ClaimTombstone := []
  distinctClaims : (claims.map ClaimRecord.id).Nodup := by exact List.nodup_nil
  distinct : (envelopes.map EnvelopeRow.key).Nodup := by exact List.nodup_nil
  distinctTombstones : (checkpointEnvelopes.map EnvelopeTombstone.key).Nodup := by exact List.nodup_nil

namespace Tables

variable (t : Tables) (cut : ℕ) (throughRowid : Option ℕ)

/-- `INSERT OR IGNORE INTO batches`. -/
def insertBatch (row : BatchRow) : Tables :=
  if ∃ r ∈ t.batches, r.id = row.id then t else { t with batches := t.batches ++ [row] }

/-- `INSERT OR IGNORE INTO claims`, the body in its canonical form. -/
def insertClaim (claim : ClaimRecord) : Tables :=
  if h : claim.id ∈ t.claims.map ClaimRecord.id then t
  else { t with
    claims := t.claims ++ [{ claim with body := claim.body.canonical }]
    distinctClaims := by
      rw [map_append, nodup_append_comm]
      exact nodup_cons.mpr ⟨h, t.distinctClaims⟩ }

/-- `INSERT OR IGNORE INTO blobs`. -/
def insertBlob (hash : String) (bytes : List UInt8) : Tables :=
  if ∃ b ∈ t.blobs, b.1 = hash then t else { t with blobs := t.blobs ++ [(hash, bytes)] }

def maxRowid : ℕ := (t.envelopes.map EnvelopeRow.rowid).foldr max 0

/-- `INSERT OR IGNORE INTO replica_envelopes`, at the next row. -/
def insertEnvelope (key : EnvelopeKey) (acceptedAtUnixMs : ℕ) (batchId : Option String) : Tables :=
  if h : key ∈ t.envelopes.map EnvelopeRow.key then t
  else { t with
    envelopes := t.envelopes ++ [⟨t.maxRowid + 1, key, acceptedAtUnixMs, batchId⟩]
    distinct := by
      rw [map_append, nodup_append_comm]
      exact nodup_cons.mpr ⟨h, t.distinct⟩ }

/-- Insert a record, or change the row that has its reference. -/
def upsertRecord (row : RecordRow) (conflict : RecordRow → RecordRow) : Tables :=
  if ∃ r ∈ t.records, r.recordRef = row.recordRef then
    { t with records := t.records.map fun r => if r.recordRef = row.recordRef then conflict r else r }
  else { t with records := t.records ++ [row] }

/-- A claim as it is read from its row: its operation is read from the body. -/
def claimFromRow (claim : ClaimRecord) : ClaimRecord :=
  { claim with operationId := (operationParts claim.body).map Prod.fst }

/-! ### Sealing a local batch -/

/-- Store a batch this node writes, with its claims. -/
def appendBatch (batch : ReplicaBatch) : Tables :=
  batch.claims.foldl insertClaim (t.insertBatch ⟨batch.id, batch.origin, batch.replicaSequence,
    batch.previousHash, batch.hash, batch.acceptedAtUnixMs⟩)

/-- The blobs that claims reference, of those this node holds. -/
def collectReferencedBlobs (claims : List ClaimRecord) : List (String × List UInt8) :=
  (sortedSet (claims.flatMap fun claim => collectHashFields claim.body)).filterMap fun hash =>
    (t.blobs.lookup hash).map fun bytes => (hash, bytes)

def sealedEnvelope (t : Tables) (batch : BatchRow) : ReplicaEnvelope :=
  let claims := (t.claims.filter fun claim => claim.batchId = batch.id).map claimFromRow
  let payload : ReplicaEnvelopePayload := ⟨⟨batch.id, batch.origin, batch.replicaSequence,
    batch.previousHash, batch.hash, batch.acceptedAtUnixMs, claims⟩, t.collectReferencedBlobs claims⟩
  { writer := batch.origin
    sequence := batch.replicaSequence
    previousHash := batch.previousHash
    hash := build.envelopeHash batch.origin batch.replicaSequence batch.previousHash
      batch.acceptedAtUnixMs payload
    acceptedAtUnixMs := batch.acceptedAtUnixMs
    payload := payload }

/-- Seal one batch: its envelope, and a valid record for each of its claims. -/
def sealBatch (t : Tables) (batch : BatchRow) : Tables :=
  let envelope := t.sealedEnvelope build batch
  envelope.payload.batch.claims.zipIdx.foldl
    (fun t (claim, position) =>
      t.upsertRecord ⟨build.recordRef envelope.key position, envelope.key, position, .valid,
        some claim.id, none⟩ id)
    (t.insertEnvelope envelope.key envelope.acceptedAtUnixMs (some batch.id))

/-- Seal every batch that has no envelope. -/
def seedReplicaEnvelopes (t : Tables) : Tables :=
  (t.batches.filter fun batch => ∀ e ∈ t.envelopes, e.batchId ≠ some batch.id).foldl
    (sealBatch build) t

/-! ### Admitting an envelope of a peer -/

/-- A state that a repair set stays. -/
def unlessRepaired (old new : RecordState) : RecordState :=
  if old = .repaired then old else new

/-- The record of a blob, at the positions after the claims. -/
def admitBlob (envelope : ReplicaEnvelope) (t : Tables) (entry : (String × List UInt8) × ℕ) :
    Tables :=
  let ((hash, bytes), offset) := entry
  let position := envelope.payload.batch.claims.length + offset
  let row (state : RecordState) : RecordRow :=
    ⟨build.recordRef envelope.key position, envelope.key, position, state, none, none⟩
  if build.blobHash bytes = hash then
    (t.insertBlob hash bytes).upsertRecord (row .valid) fun old =>
      { old with state := unlessRepaired old.state .valid }
  else
    t.upsertRecord (row .invalid) fun old => { old with state := unlessRepaired old.state .invalid }

def validateReplicatedClaim (t : Tables) (batch : ReplicaBatch) (claim : ClaimRecord) :
    Except String ReplicatedClaimAdmission := do
  if claim.batchId ≠ batch.id ∨ claim.origin ≠ batch.origin then throw "claim-batch-mismatch"
  if build.claimIdIsContentHash claim = false then throw "claim-hash-mismatch"
  let admission ← build.classifyReplicatedClaim claim
  if admission = .valid ∧ ¬ ∀ hash ∈ collectHashFields claim.body, ∃ b ∈ t.blobs, b.1 = hash then
    throw "missing-replicated-blob"
  pure admission

/-- The row and the record of a claim. A claim a checkpoint dropped is not stored again. -/
def admitClaim (envelope : ReplicaEnvelope) (t : Tables) (entry : ClaimRecord × ℕ) : Tables :=
  let (claim, position) := entry
  let row (state : RecordState) : RecordRow :=
    ⟨build.recordRef envelope.key position, envelope.key, position, state, some claim.id, none⟩
  let refused (state : RecordState) : Tables :=
    t.upsertRecord (row state) fun old => { old with state := unlessRepaired old.state state }
  match t.validateReplicatedClaim build envelope.payload.batch claim with
  | .ok .valid =>
    let t := if ∃ dropped ∈ t.checkpointClaims, dropped.id = claim.id then t
      else t.insertClaim claim
    t.upsertRecord (row .valid) fun old =>
      { old with state := unlessRepaired old.state .valid, claimId := some claim.id }
  | .ok .unknownKind | .ok .unknownField => refused .unknown
  | .error _ => refused .invalid

def validateAndAdmitEnvelope (t : Tables) (envelope : ReplicaEnvelope) : Except String Tables := do
  let batch := envelope.payload.batch
  if build.envelopeHash envelope.writer envelope.sequence envelope.previousHash
      envelope.acceptedAtUnixMs envelope.payload ≠ envelope.hash then
    throw "envelope-hash-mismatch"
  if batch.origin ≠ envelope.writer ∨ batch.replicaSequence ≠ envelope.sequence ∨
      batch.previousHash ≠ envelope.previousHash ∨
      batch.acceptedAtUnixMs ≠ envelope.acceptedAtUnixMs then
    throw "envelope-batch-mismatch"
  if build.headerHash batch.origin batch.replicaSequence batch.previousHash
        batch.acceptedAtUnixMs ≠ batch.hash ∨
      batch.id ≠ "batch/" ++ batch.origin ++ "/" ++ toString batch.replicaSequence ++ "/" ++
        batch.hash then
    throw "batch-hash-mismatch"
  let t := envelope.payload.blobs.zipIdx.foldl (admitBlob build envelope) t
  let t := t.insertBatch ⟨batch.id, batch.origin, batch.replicaSequence, batch.previousHash,
    batch.hash, batch.acceptedAtUnixMs⟩
  pure (batch.claims.zipIdx.foldl (admitClaim build envelope) t)

/-- An envelope that failed verification is one invalid record. -/
def recordInvalidReplicaEnvelope (t : Tables) (envelope : ReplicaEnvelope) : Tables :=
  t.upsertRecord ⟨build.recordRef envelope.key 0, envelope.key, 0, .invalid, none, none⟩
    fun old => { old with state := .invalid }

/-- Name the batch of an envelope. -/
def setBatch (key : EnvelopeKey) (batchId : String) : Tables :=
  let set (row : EnvelopeRow) : EnvelopeRow :=
    if row.key = key then { row with batchId := some batchId } else row
  { t with
    envelopes := t.envelopes.map set
    distinct := by
      have hkey : EnvelopeRow.key ∘ set = EnvelopeRow.key := by
        funext row
        simp only [Function.comp_apply, set]
        split <;> rfl
      rw [map_map, hkey]
      exact t.distinct }

/-- Receive an envelope, unless a checkpoint dropped it or it is held, and admit it. -/
def receive (t : Tables) (envelope : ReplicaEnvelope) : Tables :=
  if envelope.key ∈ t.checkpointEnvelopes.map EnvelopeTombstone.key ∨
      envelope.key ∈ t.envelopes.map EnvelopeRow.key then t
  else
    let t := t.insertEnvelope envelope.key envelope.acceptedAtUnixMs none
    match t.validateAndAdmitEnvelope build envelope with
    | .ok admitted => admitted.setBatch envelope.key envelope.payload.batch.id
    | .error _ => t.recordInvalidReplicaEnvelope build envelope

/-! ### Repairs -/

/-- A text member of a repair, which is under `fields` when the body has them. -/
def repairField (body : Json) (name : String) : Option String :=
  (((body.get "fields").getD body).get name).bind Json.asStr

/-- Replace a record by another claim. -/
def applyReplicationRepair (body : Json) : Tables :=
  match repairField body "record", repairField body "replacement" with
  | some record, some replacement =>
    if ∃ c ∈ t.claims, c.id = replacement then
      { t with records := t.records.map fun r =>
          if r.recordRef = record ∧ r.state ≠ .pending ∧
              r.replacementClaimId ≠ some replacement then
            { r with state := .repaired, replacementClaimId := some replacement }
          else r }
    else t
  | _, _ => t

/-- Every recorded repair, in the order of the claims' ids. -/
def applyReplicationRepairs : Tables :=
  (((t.claims.filter fun c => c.kind = "record.repaired").insertionSort
    fun a b => a.id ≤ b.id).map ClaimRecord.body).foldl applyReplicationRepair t

/-! ### Reading the sealed set -/

/-- The claims that a projection row or a repair names. They are read from the whole log. -/
def protectedClaims : List String :=
  t.references ++
    (t.claims.filter fun c => c.kind = "record.repaired").filterMap (fun c =>
      ((c.body.get "fields").bind (Json.get "replacement")).bind Json.asStr) ++
    t.records.filterMap RecordRow.replacementClaimId

/-- The place of a claim in the canonical order: when it was accepted, its batch's writer and
sequence, its batch, its first position in an envelope, and its id. -/
abbrev CanonicalKey := ℕ ×ₗ String ×ₗ ℕ ×ₗ String ×ₗ ℕ ×ₗ String

def canonicalKey (claim : ClaimRecord) (batch : BatchRow) : CanonicalKey :=
  let positions := (t.records.filter fun r => r.claimId = some claim.id).map RecordRow.position
  toLex (claim.acceptedAtUnixMs, toLex (batch.origin, toLex (batch.replicaSequence,
    toLex (batch.id, toLex (positions.min?.getD 0, claim.id)))))

/-- A claim joined with its batch and one of its records. -/
structure JoinedRow where
  order : CanonicalKey
  claim : ClaimRecord
  envelope : EnvelopeKey
  valid : Bool

/-- Rows of one claim come in the order of their envelopes. -/
def JoinedRow.orderKey (row : JoinedRow) : CanonicalKey ×ₗ EnvelopeKey :=
  toLex (row.order, row.envelope)

/-- The claims with their batches and their records, less repaired ones. -/
def joined : List JoinedRow :=
  t.claims.flatMap fun claim =>
    (t.batches.filter fun batch => batch.id = claim.batchId).flatMap fun batch =>
      (t.records.filter fun r => r.claimId = some claim.id ∧ r.state ≠ .repaired).map fun r =>
        ⟨t.canonicalKey claim batch, claimFromRow claim, r.envelope, r.state = .valid⟩

/-- The joined rows in canonical order. -/
def canonicalRows : List JoinedRow :=
  t.joined.insertionSort fun a b => a.orderKey ≤ b.orderKey

/-- The rows up to which a sealed set is read. -/
def sealRowid : ℕ :=
  throughRowid.elim t.maxRowid (min t.maxRowid)

/-- Every record an envelope holds. -/
def recordCount (key : EnvelopeKey) : ℕ := t.records.countP fun r => r.envelope = key

/-- The envelopes with a claim dated at or after the cut. -/
def late : List EnvelopeKey :=
  (t.canonicalRows.filter fun row => cut ≤ row.claim.acceptedAtUnixMs).map JoinedRow.envelope

/-- The envelope rows before the cut. -/
def rowsBefore : List EnvelopeRow :=
  t.envelopes.filter fun row =>
    row.rowid ≤ t.sealRowid throughRowid ∧ row.acceptedAtUnixMs < cut ∧ row.key ∉ t.late cut

/-- The tombstones before the cut whose envelopes are not among those. -/
def droppedBefore : List EnvelopeTombstone :=
  t.checkpointEnvelopes.filter fun dropped =>
    dropped.acceptedAtUnixMs < cut ∧
      dropped.key ∉ (t.rowsBefore cut throughRowid).map EnvelopeRow.key

/-- The envelopes of the sealed set, those of tombstones with no records. -/
def sealedEnvelopes : List SealedEnvelope :=
  ((t.rowsBefore cut throughRowid).map fun row =>
      ⟨row.key, row.acceptedAtUnixMs, t.recordCount row.key⟩) ++
    (t.droppedBefore cut throughRowid).map fun dropped =>
      ⟨dropped.key, dropped.acceptedAtUnixMs, 0⟩

theorem sealedEnvelopes_nodup :
    ((t.sealedEnvelopes cut throughRowid).map SealedEnvelope.key).Nodup := by
  have hrows : ((t.rowsBefore cut throughRowid).map EnvelopeRow.key).Nodup :=
    t.distinct.sublist (filter_sublist.map _)
  have hdropped : ((t.droppedBefore cut throughRowid).map EnvelopeTombstone.key).Nodup :=
    t.distinctTombstones.sublist (filter_sublist.map _)
  rw [sealedEnvelopes, map_append, map_map, map_map]
  refine nodup_append.mpr ⟨hrows, hdropped, ?_⟩
  intro key hkey key' hkey' heq
  obtain ⟨dropped, hd, rfl⟩ := mem_map.mp hkey'
  have hsame : key = dropped.key := heq
  have hnot := (of_decide_eq_true (mem_filter.mp hd).2).2
  exact hnot (hsame ▸ hkey)

/-- The claims of the sealed set, in canonical order. -/
def sealedClaims : List SealedClaim :=
  (t.canonicalRows.filter fun row =>
      row.envelope ∈ (t.rowsBefore cut throughRowid).map EnvelopeRow.key).map fun row =>
    ⟨row.claim, row.envelope, row.valid, row.claim.id ∈ t.protectedClaims⟩

/-- The sealed set of a cut, up to one row of the envelopes. -/
def sealedSetThrough : SealedSet where
  cutUnixMs := cut
  envelopes := (t.sealedEnvelopes cut throughRowid).insertionSort fun a b => a.key ≤ b.key
  size := (t.sealedClaims cut throughRowid).length
  claims := (t.sealedClaims cut throughRowid).get
  envelopeTombstones := t.checkpointEnvelopes.filter fun d => d.acceptedAtUnixMs < cut
  claimTombstones := t.checkpointClaims.filter fun d => d.acceptedAtUnixMs < cut
  distinct := by
    have hperm := (perm_insertionSort (fun a b : SealedEnvelope => a.key ≤ b.key)
      (t.sealedEnvelopes cut throughRowid)).map SealedEnvelope.key
    exact hperm.nodup_iff.mpr (t.sealedEnvelopes_nodup cut throughRowid)

/-- The sealed set of a cut, once the node has sealed its own batches. -/
def checkpointSealedSet (t : Tables) (cut : ℕ) : SealedSet :=
  (t.seedReplicaEnvelopes build).sealedSetThrough cut none

end Tables

/-! ### Runs of a node -/

/-- What changes a node's log. `project` sets what the projection rows name. -/
inductive NodeEvent where
  | storeBlob (hash : String) (bytes : List UInt8)
  | write (batch : ReplicaBatch)
  | sealLocal
  | receive (envelope : ReplicaEnvelope)
  | repair
  | project (references : List String)

def Tables.apply (t : Tables) : NodeEvent → Tables
  | .storeBlob hash bytes => t.insertBlob hash bytes
  | .write batch => t.appendBatch batch
  | .sealLocal => t.seedReplicaEnvelopes build
  | .receive envelope => t.receive build envelope
  | .repair => t.applyReplicationRepairs
  | .project references => { t with references := references }

def Tables.run (t : Tables) (events : List NodeEvent) : Tables :=
  events.foldl (Tables.apply build) t

end SmallTalk.Checkpoint
