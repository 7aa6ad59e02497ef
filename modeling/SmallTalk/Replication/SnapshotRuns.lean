import SmallTalk.Replication.Snapshot

/-!
# Replication — snapshots in a run

A node's tables as peers' envelopes, local batches and checkpoints change them, with snapshots
built in between, each from the last.
-/

namespace SmallTalk.Replication

open CompactReplicationInventory List Sorted

variable {H : Hasher}

/-! ### Events -/

/-- What happens to a node's tables, and the builds between. -/
inductive StoreEvent where
  | receive (envelopes : List ReplicaEnvelopeId)
  /-- A local batch write touches neither table until a pass seals it. -/
  | writeBatch
  | sealBatches (envelopes : List ReplicaEnvelopeId)
  | recordTombstones (envelopes : List ReplicaEnvelopeId)
  /-- An adoption keeps and records exactly the tombstones of a checkpoint. -/
  | adopt (envelopes : List ReplicaEnvelopeId)
  | trim (chunk : List ReplicaEnvelopeId)
  | snapshot

/-- The identities an event names. -/
def StoreEvent.ids : StoreEvent → List ReplicaEnvelopeId
  | .receive envelopes | .sealBatches envelopes | .recordTombstones envelopes | .adopt envelopes
  | .trim envelopes => envelopes
  | .writeBatch | .snapshot => []

def Tables.apply (t : Tables) : StoreEvent → Tables
  | .receive envelopes => t.receiveEnvelopes envelopes
  | .sealBatches envelopes => t.seedReplicaEnvelopes envelopes
  | .recordTombstones envelopes => t.recordCheckpointTombstones envelopes
  | .adopt envelopes => (t.keepOnlyTombstones envelopes).recordCheckpointTombstones envelopes
  | .trim chunk => t.deleteDroppedRows chunk
  | .writeBatch | .snapshot => t

/-- A node's tables and its last snapshot. -/
structure SnapshotStore (H : Hasher) where
  tables : Tables
  snapshot : Option (ReplicationSnapshot H)

namespace SnapshotStore

def step (s : SnapshotStore H) (event : StoreEvent) : SnapshotStore H where
  tables := s.tables.apply event
  snapshot :=
    match event with
    | .snapshot => some (buildReplicationSnapshot s.snapshot s.tables)
    | _ => s.snapshot

/-- A node that has just started. -/
def start (H : Hasher) (t : Tables) : SnapshotStore H := ⟨t, none⟩

def run (s : SnapshotStore H) (events : List StoreEvent) : SnapshotStore H := events.foldl step s

end SnapshotStore

/-! ### Runs -/

section

variable {S : Finset ReplicaEnvelopeId} {s : SnapshotStore H} {t : Tables}

/-- The identities of the tables and of the events of a run. -/
def namedIds (t : Tables) (events : List StoreEvent) : Finset ReplicaEnvelopeId :=
  t.held ∪ t.dropped ∪ (events.flatMap StoreEvent.ids).toFinset

/-- Before a build that extends the last snapshot, that snapshot and the new rows are the tables. -/
def SnapshotStore.Tracks (s : SnapshotStore H) : Prop :=
  ∀ previous, s.snapshot = some previous → Extends previous s.tables → Current previous s.tables

namespace Tables

theorem mem_insertRow {id : ReplicaEnvelopeId} {row : ℕ × ReplicaEnvelopeId}
    (h : row ∈ (t.insertRow id).rows) : row ∈ t.rows ∨ row = (t.maxRowid + 1, id) := by
  unfold insertRow at h
  split at h
  · exact (mem_append.mp h).imp_right mem_singleton.mp
  · exact .inl h

theorem insertRow_dropped (t : Tables) (id : ReplicaEnvelopeId) :
    (t.insertRow id).dropped = t.dropped := by
  unfold insertRow
  split <;> rfl

section

variable {P : Tables → Prop} {envelopes : List ReplicaEnvelopeId}
  (hstep : ∀ t, P t → ∀ id ∈ envelopes, P (t.insertRow id)) (ht : P t)

include hstep ht

/-- What storing envelopes keeps: `P`, if adding one of the rows does. -/
theorem receiveEnvelopes_induction : P (t.receiveEnvelopes envelopes) := by
  refine foldlRecOn envelopes _ ht fun t ht id hid => ?_
  split
  · exact ht
  · exact hstep t ht id hid

theorem seedReplicaEnvelopes_induction : P (t.seedReplicaEnvelopes envelopes) :=
  foldlRecOn envelopes _ ht hstep

end

theorem insertRow_subset (ht : t.held ∪ t.dropped ⊆ S) {id : ReplicaEnvelopeId} (hid : id ∈ S) :
    (t.insertRow id).held ∪ (t.insertRow id).dropped ⊆ S := by
  refine Finset.union_subset (fun a ha => ?_) ?_
  · obtain ⟨row, hrow, rfl⟩ := mem_held.mp ha
    rcases mem_insertRow hrow with hrow | rfl
    · exact ht (Finset.mem_union_left _ (mem_held.mpr ⟨row, hrow, rfl⟩))
    · exact hid
  · rw [insertRow_dropped]
    exact Finset.union_subset_right ht

/-- An event brings no identity it does not name. -/
theorem apply_subset (ht : t.held ∪ t.dropped ⊆ S) {event : StoreEvent}
    (hevent : ∀ id ∈ event.ids, id ∈ S) : (t.apply event).held ∪ (t.apply event).dropped ⊆ S := by
  have hrecord : ∀ {t : Tables} {envelopes : List ReplicaEnvelopeId}, t.held ∪ t.dropped ⊆ S →
      (∀ id ∈ envelopes, id ∈ S) → (t.recordCheckpointTombstones envelopes).held ∪
        (t.recordCheckpointTombstones envelopes).dropped ⊆ S := by
    intro t envelopes ht hids
    refine Finset.union_subset (Finset.union_subset_left ht)
      (Finset.union_subset (Finset.union_subset_right ht) fun id hid => hids id ?_)
    exact mem_toFinset.mp (Finset.mem_of_mem_filter id hid)
  cases event with
  | receive envelopes =>
    exact receiveEnvelopes_induction (P := fun t => t.held ∪ t.dropped ⊆ S)
      (fun t ht id hid => insertRow_subset ht (hevent id hid)) ht
  | writeBatch => exact ht
  | sealBatches envelopes =>
    exact seedReplicaEnvelopes_induction (P := fun t => t.held ∪ t.dropped ⊆ S)
      (fun t ht id hid => insertRow_subset ht (hevent id hid)) ht
  | recordTombstones envelopes => exact hrecord ht hevent
  | adopt envelopes =>
    refine hrecord (Finset.union_subset (Finset.union_subset_left ht) fun id hid => ?_) hevent
    exact ht (Finset.mem_union_right _ (Finset.mem_of_mem_filter id hid))
  | trim chunk =>
    refine Finset.union_subset (fun id hid => ?_) (Finset.union_subset_right ht)
    obtain ⟨row, hrow, rfl⟩ := mem_held.mp hid
    exact ht (Finset.mem_union_left _ (mem_held.mpr ⟨row, mem_of_mem_filter hrow, rfl⟩))
  | snapshot => exact ht

end Tables

/-- What every state of a run keeps. -/
structure SnapshotStore.Inv (S : Finset ReplicaEnvelopeId) (s : SnapshotStore H) : Prop where
  tables : s.tables.held ∪ s.tables.dropped ⊆ S
  sound : ∀ previous, s.snapshot = some previous → previous.Sound S

namespace SnapshotStore

/-- A build is right exactly when the snapshot it extends is. -/
theorem Inv.exact_iff (hS : HashNames S) (h : s.Inv S) :
    (buildReplicationSnapshot s.snapshot s.tables).Exact s.tables ↔ s.Tracks := by
  unfold Tracks
  cases hs : s.snapshot with
  | none =>
    refine iff_of_true (build_full rfl h.tables).2 fun previous hp => ?_
    cases hp
  | some previous =>
    by_cases he : Extends previous s.tables
    · rw [extended_exact_iff hS (h.sound previous hs) h.tables he]
      exact ⟨fun hc p hp _ => Option.some.inj hp ▸ hc, fun hall => hall previous rfl he⟩
    · refine iff_of_true (build_full (snapshotDraft_full he) h.tables).2 fun p hp he' => ?_
      exact absurd (Option.some.inj hp ▸ he') he

theorem Inv.build_sound (hS : HashNames S) (h : s.Inv S) :
    (buildReplicationSnapshot s.snapshot s.tables).Sound S := by
  cases hs : s.snapshot with
  | none => exact (build_full rfl h.tables).1
  | some previous =>
    by_cases he : Extends previous s.tables
    · exact (build_extended hS (h.sound previous hs) h.tables he).1
    · exact (build_full (snapshotDraft_full he) h.tables).1

theorem Inv.step (hS : HashNames S) (h : s.Inv S) {event : StoreEvent}
    (hevent : ∀ id ∈ event.ids, id ∈ S) : (s.step event).Inv S := by
  refine ⟨Tables.apply_subset h.tables hevent, ?_⟩
  cases event with
  | snapshot =>
    rintro previous hp
    exact Option.some.inj hp ▸ h.build_sound hS
  | _ => exact h.sound

theorem Inv.run (hS : HashNames S) (h : s.Inv S) {events : List StoreEvent}
    (hevents : ∀ event ∈ events, ∀ id ∈ event.ids, id ∈ S) : (s.run events).Inv S :=
  foldlRecOn events _ h fun _ h event hevent => h.step hS (hevents event hevent)

theorem start_inv (H : Hasher) (t : Tables) (events : List StoreEvent) :
    (start H t).Inv (namedIds t events) :=
  ⟨Finset.subset_union_left, fun previous hp => by cases hp⟩

theorem mem_namedIds {events : List StoreEvent} :
    ∀ event ∈ events, ∀ id ∈ event.ids, id ∈ namedIds t events :=
  fun event he _ hid => Finset.mem_union_right _
    (mem_toFinset.mpr (mem_flatMap.mpr ⟨event, he, hid⟩))

end SnapshotStore

/-- An envelope of one writer, with a hash of one repeated digit. -/
def sampleEnvelope (digit : Char) (sequence : ℕ) : ReplicaEnvelopeId :=
  ⟨"ant", sequence, String.ofList (List.replicate 64 digit)⟩

/-- A node that stores one envelope. -/
def oneRow : Tables where
  rows := [(1, sampleEnvelope 'a' 1)]
  dropped := ∅
  ascending := pairwise_singleton _ _
  distinct := pairwise_singleton _ _
  bounded := by decide
  droppedBounded := fun id hid => absurd hid (Finset.notMem_empty id)

/-- The envelope's tombstone is recorded, a snapshot is built, the row goes, and another envelope
is stored, under the same rowid. -/
def reusedRowid : List StoreEvent :=
  [.recordTombstones [sampleEnvelope 'a' 1], .snapshot, .trim [sampleEnvelope 'a' 1],
    .receive [sampleEnvelope 'b' 2]]

example : ((SnapshotStore.start transcript oneRow).run reusedRowid).tables.rows =
    [(1, sampleEnvelope 'b' 2)] := by decide

theorem reusedRowid_hashNames : HashNames (namedIds oneRow reusedRowid) := by
  unfold HashNames
  decide

end

end SmallTalk.Replication
