import SmallTalk.Checkpoint.Admission
import SmallTalk.Lib.Keyed

/-!
# Checkpoint — recording and deleting what a drop names

A node applies a drop in two parts. It records the tombstones (`recordCheckpointTombstones`), and
deletes the rows they stand for (`deleteDroppedRows`): the claims, then each envelope with its
records, and the envelope's batch once no claim and no other envelope names it. A node that adopts
a peer's manifest first forgets every other tombstone (`keepOnlyTombstones`).

The deletion goes envelope by envelope. What it leaves is a filter of each table
(`deleteDroppedRows_eq`), so the order of the envelopes does not matter.
-/

namespace SmallTalk.Checkpoint

open Keyed EnvelopeTombstone List

namespace Tables

variable (t : Tables) (envelopes : List EnvelopeTombstone) (claims : List ClaimTombstone)

/-! ### Tombstones -/

/-- `INSERT OR IGNORE INTO checkpoint_envelopes`. -/
def insertEnvelopeTombstone (dropped : EnvelopeTombstone) : Tables :=
  if h : dropped.key ∈ t.checkpointEnvelopes.map key then t
  else { t with
    checkpointEnvelopes := t.checkpointEnvelopes ++ [dropped]
    distinctTombstones := by
      rw [map_append, nodup_append_comm]
      exact nodup_cons.mpr ⟨h, t.distinctTombstones⟩ }

/-- `INSERT OR IGNORE INTO checkpoint_claims`. -/
def insertClaimTombstone (dropped : ClaimTombstone) : Tables :=
  if ∃ d ∈ t.checkpointClaims, d.id = dropped.id then t
  else { t with checkpointClaims := t.checkpointClaims ++ [dropped] }

/-- Record the tombstones of a checkpoint's drop. -/
def recordCheckpointTombstones : Tables :=
  claims.foldl insertClaimTombstone (envelopes.foldl insertEnvelopeTombstone t)

/-- Delete every tombstone that is not among `envelopes` and `claims`. -/
def keepOnlyTombstones : Tables :=
  { t with
    checkpointEnvelopes :=
      t.checkpointEnvelopes.filter fun d => d.key ∈ envelopes.map key
    checkpointClaims := t.checkpointClaims.filter fun d => d.id ∈ claims.map ClaimTombstone.id
    distinctTombstones := t.distinctTombstones.sublist (filter_sublist.map _) }

/-- `t'` is `t` with the tombstones `envelopes` and `claims`, those of a known key aside. -/
structure Recorded (t t' : Tables) (envelopes : List EnvelopeTombstone)
    (claims : List ClaimTombstone) : Prop where
  batches : t'.batches = t.batches
  claims_eq : t'.claims = t.claims
  blobs : t'.blobs = t.blobs
  envelopes_eq : t'.envelopes = t.envelopes
  records : t'.records = t.records
  envelopes_from : ∀ d ∈ t'.checkpointEnvelopes, d ∈ t.checkpointEnvelopes ∨ d ∈ envelopes
  keys : ∀ key ∈ t.droppedKeys, key ∈ t'.droppedKeys
  claims_from : ∀ d ∈ t'.checkpointClaims, d ∈ t.checkpointClaims ∨ d ∈ claims
  ids : ∀ id ∈ t.droppedIds, id ∈ t'.droppedIds

theorem Recorded.claimIds {t t' : Tables} {envelopes : List EnvelopeTombstone}
    {claims : List ClaimTombstone} (h : Recorded t t' envelopes claims) {id : String} :
    id ∈ t'.claimIds ↔ id ∈ t.claimIds := by
  rw [Tables.claimIds, Tables.claimIds, h.claims_eq]

/-- The rows that are not tombstones. -/
def rows :=
  (t.batches, t.claims, t.blobs, t.envelopes, t.records)

theorem recordCheckpointTombstones_rows :
    (t.recordCheckpointTombstones envelopes claims).checkpointEnvelopes =
        insertAll key t.checkpointEnvelopes envelopes ∧
      (t.recordCheckpointTombstones envelopes claims).checkpointClaims =
        insertAll ClaimTombstone.id t.checkpointClaims claims ∧
      (t.recordCheckpointTombstones envelopes claims).rows = t.rows := by
  obtain ⟨henvelopes, hother⟩ := foldl_insertNew key
    insertEnvelopeTombstone checkpointEnvelopes (fun t => (t.checkpointClaims, t.rows))
    (fun t d => by unfold insertEnvelopeTombstone insertNew; split <;> exact ⟨rfl, rfl⟩)
    envelopes t
  obtain ⟨hclaims, hother'⟩ := foldl_insertNew ClaimTombstone.id insertClaimTombstone
    checkpointClaims (fun t => (t.checkpointEnvelopes, t.rows))
    (fun t d => by
      unfold insertClaimTombstone insertNew
      simp only [mem_map]
      split <;> exact ⟨rfl, rfl⟩)
    claims (envelopes.foldl insertEnvelopeTombstone t)
  rw [Prod.mk.injEq] at hother hother'
  exact ⟨hother'.1.trans henvelopes, hclaims.trans (by rw [hother.1]), hother'.2.trans hother.2⟩

theorem recordCheckpointTombstones_recorded :
    Recorded t (t.recordCheckpointTombstones envelopes claims) envelopes claims := by
  obtain ⟨henvelopes, hclaims, hrows⟩ := t.recordCheckpointTombstones_rows envelopes claims
  simp only [rows, Prod.mk.injEq] at hrows
  obtain ⟨hbatches, hclaims', hblobs, henvelopes', hrecords⟩ := hrows
  refine ⟨hbatches, hclaims', hblobs, henvelopes', hrecords, ?_, ?_, ?_, ?_⟩
  · exact fun d hd => mem_of_mem_insertAll (henvelopes ▸ hd)
  · rw [droppedKeys, droppedKeys, henvelopes]
    exact fun key hkey => (prefix_insertAll.map _).subset hkey
  · exact fun d hd => mem_of_mem_insertAll (hclaims ▸ hd)
  · rw [droppedIds, droppedIds, hclaims]
    exact fun id hid => (prefix_insertAll.map _).subset hid

/-! ### Deletion -/

def deleteClaim (id : String) : Tables :=
  { t with
    claims := t.claims.filter fun c => c.id ≠ id
    distinctClaims := t.distinctClaims.sublist (filter_sublist.map _) }

/-- Delete an envelope and its records. -/
def deleteEnvelope (key : EnvelopeKey) : Tables :=
  { t with
    records := t.records.filter fun r => r.envelope ≠ key
    envelopes := t.envelopes.filter fun e => e.key ≠ key
    distinct := t.distinct.sublist (filter_sublist.map _) }

/-- Delete a batch that no claim and no envelope names. -/
def deleteBatch (id : String) : Tables :=
  if (∃ c ∈ t.claims, c.batchId = id) ∨ ∃ e ∈ t.envelopes, e.batchId = some id then t
  else { t with batches := t.batches.filter fun b => b.id ≠ id }

/-- The batch an envelope names. -/
def batchOf (key : EnvelopeKey) : Option String :=
  (t.envelopes.find? fun e => e.key = key).bind EnvelopeRow.batchId

def dropEnvelope (key : EnvelopeKey) : Tables :=
  match t.batchOf key with
  | some batch => (t.deleteEnvelope key).deleteBatch batch
  | none => t.deleteEnvelope key

def deleteDroppedRows : Tables :=
  envelopes.foldl (fun t dropped => t.dropEnvelope dropped.key)
    (claims.foldl (fun t dropped => t.deleteClaim dropped.id) t)

/-! ### What a deletion leaves -/

variable {t} in
theorem batchOf_eq_some {key : EnvelopeKey} {batch : String} :
    t.batchOf key = some batch ↔ ∃ e ∈ t.envelopes, e.key = key ∧ e.batchId = some batch := by
  unfold batchOf
  constructor
  · intro h
    obtain ⟨e, hfind, hbatch⟩ := Option.bind_eq_some_iff.mp h
    exact ⟨e, mem_of_find?_eq_some hfind, by simpa using find?_some hfind, hbatch⟩
  · rintro ⟨e, he, hkey, hbatch⟩
    cases hfind : t.envelopes.find? fun e => e.key = key with
    | none => simpa [hkey] using find?_eq_none.mp hfind e he
    | some e' =>
      have hkey' : e'.key = key := by simpa using find?_some hfind
      have heq : e' = e := inj_on_of_nodup_map t.distinct
        (mem_of_find?_eq_some hfind) he (hkey'.trans hkey.symm)
      rw [Option.bind_some, heq, hbatch]

/-- A drop of envelopes takes a batch with it: it drops every envelope that names the batch, one at
least, and no claim names it. -/
def Orphaned (keys : List EnvelopeKey) (batch : String) : Prop :=
  (∀ c ∈ t.claims, c.batchId ≠ batch) ∧
    (∃ e ∈ t.envelopes, e.batchId = some batch ∧ e.key ∈ keys) ∧
    ∀ e ∈ t.envelopes, e.batchId = some batch → e.key ∈ keys

instance (keys : List EnvelopeKey) (batch : String) : Decidable (t.Orphaned keys batch) :=
  inferInstanceAs (Decidable (_ ∧ _ ∧ _))

def withoutClaims (ids : List String) : Tables :=
  { t with
    claims := t.claims.filter fun c => c.id ∉ ids
    distinctClaims := t.distinctClaims.sublist (filter_sublist.map _) }

/-- The tables without some envelopes, their records and the batches they orphan. -/
def withoutEnvelopes (keys : List EnvelopeKey) : Tables :=
  { t with
    batches := t.batches.filter fun b => ¬ t.Orphaned keys b.id
    envelopes := t.envelopes.filter fun e => e.key ∉ keys
    records := t.records.filter fun r => r.envelope ∉ keys
    distinct := t.distinct.sublist (filter_sublist.map _) }

theorem withoutClaims_nil : t.withoutClaims [] = t := by
  simp [withoutClaims]

theorem withoutEnvelopes_nil : t.withoutEnvelopes [] = t := by
  simp [withoutEnvelopes, Orphaned]

theorem deleteClaim_withoutClaims (id : String) (ids : List String) :
    (t.deleteClaim id).withoutClaims ids = t.withoutClaims (id :: ids) := by
  simp only [withoutClaims, deleteClaim, filter_filter, mem_cons, not_or,
    Bool.decide_and, Bool.and_comm]

/-- One envelope is dropped with the batch it orphans. -/
theorem dropEnvelope_eq (key : EnvelopeKey) : t.dropEnvelope key = t.withoutEnvelopes [key] := by
  have horphaned : ∀ batch, t.Orphaned [key] batch ↔ t.batchOf key = some batch ∧
      ¬ ((∃ c ∈ t.claims, c.batchId = batch) ∨
        ∃ e ∈ (t.deleteEnvelope key).envelopes, e.batchId = some batch) := by
    intro batch
    rw [batchOf_eq_some, Orphaned]
    simp only [deleteEnvelope, mem_filter, mem_singleton, decide_eq_true_eq]
    grind
  have hsame : ∀ batches, batches = t.batches.filter (fun b => ¬ t.Orphaned [key] b.id) →
      { t.deleteEnvelope key with batches := batches } = t.withoutEnvelopes [key] := by
    rintro _ rfl
    simp only [deleteEnvelope, withoutEnvelopes, mem_singleton, ne_eq]
  unfold dropEnvelope
  cases hbatch : t.batchOf key with
  | none =>
    refine hsame _ (filter_eq_self.mpr fun b _ => ?_).symm
    simp [horphaned, hbatch]
  | some batch =>
    simp only [deleteBatch]
    split
    case isTrue hnamed =>
      refine hsame _ (filter_eq_self.mpr fun b _ => ?_).symm
      simp only [horphaned, hbatch, decide_eq_true_eq, not_and, not_not]
      intro heq
      exact (Option.some.inj heq) ▸ hnamed
    case isFalse hfree =>
      refine hsame _ (filter_congr fun b _ => ?_)
      simp only [horphaned, hbatch, decide_eq_decide, Option.some.injEq]
      constructor
      · rintro hne ⟨rfl, _⟩
        exact hne rfl
      · rintro h rfl
        exact h ⟨rfl, hfree⟩

/-- Dropping envelopes one after another orphans what dropping them together does. -/
theorem withoutEnvelopes_append (keys keys' : List EnvelopeKey) :
    (t.withoutEnvelopes keys).withoutEnvelopes keys' = t.withoutEnvelopes (keys ++ keys') := by
  have horphaned : ∀ batch, t.Orphaned (keys ++ keys') batch ↔
      t.Orphaned keys batch ∨ (t.withoutEnvelopes keys).Orphaned keys' batch := by
    intro batch
    unfold Orphaned
    simp only [withoutEnvelopes, mem_filter, mem_append, decide_eq_true_eq]
    grind
  simp only [withoutEnvelopes, filter_filter, mem_append, not_or, horphaned,
    Bool.decide_and, Bool.and_comm]
  rfl

theorem foldl_dropEnvelope : envelopes.foldl (fun t dropped => t.dropEnvelope dropped.key) t =
      t.withoutEnvelopes (envelopes.map key) := by
  induction envelopes generalizing t with
  | nil => exact t.withoutEnvelopes_nil.symm
  | cons dropped rest ih =>
    rw [foldl_cons, ih, dropEnvelope_eq, withoutEnvelopes_append]
    rfl

theorem foldl_deleteClaim : claims.foldl (fun t dropped => t.deleteClaim dropped.id) t =
      t.withoutClaims (claims.map ClaimTombstone.id) := by
  induction claims generalizing t with
  | nil => exact t.withoutClaims_nil.symm
  | cons dropped rest ih => rw [foldl_cons, ih, deleteClaim_withoutClaims, map_cons]

/-- **A deletion filters each table.** -/
theorem deleteDroppedRows_eq : t.deleteDroppedRows envelopes claims =
      (t.withoutClaims (claims.map ClaimTombstone.id)).withoutEnvelopes
        (envelopes.map key) := by
  rw [deleteDroppedRows, foldl_deleteClaim, foldl_dropEnvelope]

end Tables

end SmallTalk.Checkpoint
