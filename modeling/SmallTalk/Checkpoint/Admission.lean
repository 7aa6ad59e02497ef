import SmallTalk.Checkpoint.Store

/-!
# Checkpoint — what writing to the log leaves alone

Most operations on a node's tables write one table and the records. `SameHeads` says of two tables
that they hold the same batches and the same envelopes, and is kept by every insertion of a claim, a
blob or a record. An admission adds one batch (`admitted_heads`), a receipt adds
one envelope (`receive_batches`, `receive_hasEnvelope`), and sealing a batch adds its envelope
(`foldl_sealBatch`). What an admission adds to the claims and the records is `Grows`.
-/

namespace SmallTalk.Checkpoint

open EnvelopeRow List

def ReplicaBatch.row (batch : ReplicaBatch) : BatchRow :=
  ⟨batch.id, batch.origin, batch.replicaSequence, batch.previousHash, batch.hash,
    batch.acceptedAtUnixMs⟩

namespace Tables

abbrev heldKeys (t : Tables) : List EnvelopeKey := t.envelopes.map key

abbrev claimIds (t : Tables) : List String := t.claims.map ClaimRecord.id

abbrev batchIds (t : Tables) : List String := t.batches.map BatchRow.id

abbrev droppedKeys (t : Tables) : List EnvelopeKey :=
  t.checkpointEnvelopes.map EnvelopeTombstone.key

abbrev droppedIds (t : Tables) : List String := t.checkpointClaims.map ClaimTombstone.id

/-! ### What the tables' operations leave alone -/

/-- The batches and the envelopes are the same. -/
def SameHeads (t t' : Tables) : Prop := t'.batches = t.batches ∧ t'.envelopes = t.envelopes

variable {t t' t'' : Tables} {build : Build} {envelope : ReplicaEnvelope}

theorem SameHeads.refl (t : Tables) : SameHeads t t := ⟨rfl, rfl⟩

theorem SameHeads.trans (h : SameHeads t t') (h' : SameHeads t' t'') : SameHeads t t'' :=
  ⟨h'.1.trans h.1, h'.2.trans h.2⟩

theorem SameHeads.foldl {α : Type*} {f : Tables → α → Tables} (hf : ∀ t x, SameHeads t (f t x))
    (xs : List α) (t : Tables) : SameHeads t (xs.foldl f t) :=
  foldlRecOn xs f (.refl t) fun t' h x _ => h.trans (hf t' x)

theorem insertClaim_eq (t : Tables) (claim : ClaimRecord) : ∃ claims distinct, t.insertClaim claim =
      { t with claims := claims, distinctClaims := distinct } := by
  refine ⟨_, (t.insertClaim claim).distinctClaims, ?_⟩
  unfold insertClaim
  split <;> rfl

theorem insertClaim_heads (t : Tables) (claim : ClaimRecord) :
    SameHeads t (t.insertClaim claim) := by
  obtain ⟨claims, distinct, heq⟩ := t.insertClaim_eq claim
  rw [heq]
  exact ⟨rfl, rfl⟩

theorem upsertRecord_eq (t : Tables) (row : RecordRow) (conflict : RecordRow → RecordRow) :
    ∃ records, t.upsertRecord row conflict = { t with records := records } := by
  unfold upsertRecord
  split
  · exact ⟨_, rfl⟩
  · exact ⟨_, rfl⟩

theorem appendBatch_heads (t : Tables) (batch : ReplicaBatch) :
    SameHeads (t.insertBatch batch.row) (t.appendBatch batch) :=
  SameHeads.foldl insertClaim_heads _ _

theorem insertBatch_envelopes (t : Tables) (row : BatchRow) :
    (t.insertBatch row).envelopes = t.envelopes := by
  unfold insertBatch
  split <;> rfl

theorem mem_insertBatch {row b : BatchRow} (h : b ∈ (t.insertBatch row).batches) :
    b ∈ t.batches ∨ b = row := by
  unfold insertBatch at h
  split at h
  · exact .inl h
  · simpa using h

/-- Inserting a batch reads the batches alone. -/
theorem insertBatch_batches (h : t'.batches = t.batches) (row : BatchRow) :
    (t'.insertBatch row).batches = (t.insertBatch row).batches := by
  unfold insertBatch
  rw [h]
  split
  · exact h
  · rfl

theorem SameHeads.insertBatch (h : SameHeads t t') (row : BatchRow) :
    SameHeads (t.insertBatch row) (t'.insertBatch row) :=
  ⟨insertBatch_batches h.1 row, by rw [insertBatch_envelopes, insertBatch_envelopes, h.2]⟩

/-- What admitting an envelope does to the claims and the records: it adds claims of its batch that
no checkpoint dropped, and records of its own. -/
structure Grows (envelope : ReplicaEnvelope) (t t' : Tables) : Prop where
  envelopeTombstones : t'.checkpointEnvelopes = t.checkpointEnvelopes
  claimTombstones : t'.checkpointClaims = t.checkpointClaims
  claims_kept : t.claims ⊆ t'.claims
  claims_new : ∀ c ∈ t'.claims, c ∈ t.claims ∨
    c.batchId = envelope.payload.batch.id ∧ c.id ∉ t.droppedIds
  records_from : ∀ r ∈ t'.records, r.envelope = envelope.key ∨
    ∃ r' ∈ t.records, r'.envelope = r.envelope

theorem Grows.refl (t : Tables) : Grows envelope t t :=
  ⟨rfl, rfl, fun _ => id, fun _ => .inl, fun r hr => .inr ⟨r, hr, rfl⟩⟩

theorem Grows.trans (h : Grows envelope t t') (h' : Grows envelope t' t'') :
    Grows envelope t t'' where
  envelopeTombstones := h'.envelopeTombstones.trans h.envelopeTombstones
  claimTombstones := h'.claimTombstones.trans h.claimTombstones
  claims_kept := fun _ hc => h'.claims_kept (h.claims_kept hc)
  claims_new c hc := by
    rcases h'.claims_new c hc with hc | ⟨hbatch, hid⟩
    · exact h.claims_new c hc
    · exact .inr ⟨hbatch, by rwa [droppedIds, ← h.claimTombstones]⟩
  records_from r hr := by
    rcases h'.records_from r hr with hkey | ⟨r', hr', heq⟩
    · exact .inl hkey
    · exact heq ▸ h.records_from r' hr'

/-- What is written besides the batch: the batches and the envelopes stay. -/
structure Writes (envelope : ReplicaEnvelope) (t t' : Tables) : Prop extends
    Grows envelope t t' where
  heads : SameHeads t t'

theorem Writes.refl (t : Tables) : Writes envelope t t := ⟨.refl t, .refl t⟩

theorem Writes.trans (h : Writes envelope t t') (h' : Writes envelope t' t'') :
    Writes envelope t t'' := ⟨h.toGrows.trans h'.toGrows, h.heads.trans h'.heads⟩

theorem Writes.foldl {α : Type*} {f : Tables → α → Tables}
    (hf : ∀ t x, Writes envelope t (f t x)) (xs : List α) (t : Tables) :
    Writes envelope t (xs.foldl f t) :=
  foldlRecOn xs f (.refl t) fun t' h x _ => h.trans (hf t' x)

theorem mem_upsertRecord {row r : RecordRow} {conflict : RecordRow → RecordRow} :
    r ∈ (t.upsertRecord row conflict).records ↔
      (∃ r' ∈ t.records, (if r'.recordRef = row.recordRef then conflict r' else r') = r) ∨
        (∀ r' ∈ t.records, r'.recordRef ≠ row.recordRef) ∧ r = row := by
  unfold upsertRecord
  split
  case isTrue hex =>
    obtain ⟨r₀, hr₀, href⟩ := hex
    refine mem_map.trans (iff_of_eq ?_)
    simp only [eq_iff_iff, iff_self_or, and_imp]
    exact fun hall _ => absurd href (hall r₀ hr₀)
  case isFalse hnone =>
    have hne : ∀ r' ∈ t.records, r'.recordRef ≠ row.recordRef :=
      fun r' hr' heq => hnone ⟨r', hr', heq⟩
    rw [mem_append, mem_singleton]
    refine or_congr ⟨fun hr => ⟨r, hr, if_neg (hne r hr)⟩, ?_⟩ ⟨fun h => ⟨hne, h⟩, And.right⟩
    rintro ⟨r', hr', rfl⟩
    rwa [if_neg (hne r' hr')]

theorem insertBatch_grows (t : Tables) (row : BatchRow) : Grows envelope t (t.insertBatch row) := by
  unfold insertBatch
  split
  · exact .refl t
  · exact { Grows.refl t with }

theorem mem_insertClaim {claim c : ClaimRecord} : c ∈ (t.insertClaim claim).claims ↔
      c ∈ t.claims ∨ claim.id ∉ t.claimIds ∧ c = { claim with body := claim.body.canonical } := by
  unfold insertClaim
  split
  case isTrue h => simp [h]
  case isFalse h => simp [h]

theorem upsertRecord_writes (t : Tables) {row : RecordRow} {conflict : RecordRow → RecordRow}
    (hrow : row.envelope = envelope.key) (hconflict : ∀ r, (conflict r).envelope = r.envelope) :
    Writes envelope t (t.upsertRecord row conflict) := by
  have hrecords : ∀ r ∈ (t.upsertRecord row conflict).records, r.envelope = envelope.key ∨
      ∃ r' ∈ t.records, r'.envelope = r.envelope := by
    intro r hr
    rcases mem_upsertRecord.mp hr with ⟨r', hr', rfl⟩ | ⟨_, rfl⟩
    · refine .inr ⟨r', hr', ?_⟩
      split
      · exact (hconflict r').symm
      · rfl
    · exact .inl hrow
  obtain ⟨records, heq⟩ := t.upsertRecord_eq row conflict
  rw [heq] at hrecords ⊢
  exact { Writes.refl t with records_from := hrecords }

theorem insertBlob_writes (t : Tables) (hash : String) (bytes : List UInt8) :
    Writes envelope t (t.insertBlob hash bytes) := by
  unfold insertBlob
  split
  · exact .refl t
  · exact { Writes.refl t with }

theorem insertClaim_writes {claim : ClaimRecord}
    (hbatch : claim.batchId = envelope.payload.batch.id) (hid : claim.id ∉ t.droppedIds) :
    Writes envelope t (t.insertClaim claim) := by
  have hnew : ∀ c ∈ (t.insertClaim claim).claims, c ∈ t.claims ∨
      c.batchId = envelope.payload.batch.id ∧ c.id ∉ t.droppedIds := by
    intro c hc
    refine (mem_insertClaim.mp hc).imp_right ?_
    rintro ⟨_, rfl⟩
    exact ⟨hbatch, hid⟩
  have hkept : t.claims ⊆ (t.insertClaim claim).claims :=
    fun c hc => mem_insertClaim.mpr (.inl hc)
  obtain ⟨claims, distinct, heq⟩ := t.insertClaim_eq claim
  rw [heq] at hnew hkept ⊢
  exact { Writes.refl t with claims_kept := hkept, claims_new := hnew }

theorem admitBlob_writes (build : Build) (t : Tables) (entry : (String × List UInt8) × ℕ) :
    Writes envelope t (t.admitBlob build envelope entry) := by
  obtain ⟨⟨hash, bytes⟩, offset⟩ := entry
  simp only [admitBlob]
  split
  · refine (t.insertBlob_writes hash bytes).trans (upsertRecord_writes _ ?_ fun _ => ?_) <;> rfl
  · refine t.upsertRecord_writes ?_ fun _ => ?_ <;> rfl

theorem validateReplicatedClaim_batch {batch : ReplicaBatch} {claim : ClaimRecord}
    {admission : ReplicatedClaimAdmission}
    (h : t.validateReplicatedClaim build batch claim = .ok admission) :
    claim.batchId = batch.id := by
  by_contra hne
  unfold validateReplicatedClaim at h
  rw [if_pos (Or.inl hne)] at h
  cases h

theorem admitClaim_writes (build : Build) (t : Tables) (entry : ClaimRecord × ℕ) :
    Writes envelope t (t.admitClaim build envelope entry) := by
  obtain ⟨claim, position⟩ := entry
  simp only [admitClaim]
  split
  case h_1 hvalid =>
    have hinsert : Writes envelope t (if ∃ dropped ∈ t.checkpointClaims, dropped.id = claim.id
        then t else t.insertClaim claim) := by
      split
      case isTrue => exact .refl t
      case isFalse hdropped =>
        refine insertClaim_writes (validateReplicatedClaim_batch hvalid) fun hid => hdropped ?_
        exact mem_map.mp hid
    refine hinsert.trans (upsertRecord_writes _ ?_ fun _ => ?_) <;> rfl
  all_goals refine t.upsertRecord_writes ?_ fun _ => ?_ <;> rfl

theorem recordInvalidReplicaEnvelope_writes (build : Build) (t : Tables)
    (envelope : ReplicaEnvelope) :
    Writes envelope t (t.recordInvalidReplicaEnvelope build envelope) := by
  refine t.upsertRecord_writes ?_ fun _ => ?_ <;> rfl

/-- What `validateAndAdmitEnvelope` checks of an envelope before it stores anything. -/
def Verified (build : Build) (envelope : ReplicaEnvelope) : Prop :=
  build.envelopeHash envelope.writer envelope.sequence envelope.previousHash
      envelope.acceptedAtUnixMs envelope.payload = envelope.hash ∧
    (envelope.payload.batch.origin = envelope.writer ∧
      envelope.payload.batch.replicaSequence = envelope.sequence ∧
      envelope.payload.batch.previousHash = envelope.previousHash ∧
      envelope.payload.batch.acceptedAtUnixMs = envelope.acceptedAtUnixMs) ∧
    build.headerHash envelope.payload.batch.origin envelope.payload.batch.replicaSequence
        envelope.payload.batch.previousHash envelope.payload.batch.acceptedAtUnixMs =
      envelope.payload.batch.hash ∧
    envelope.payload.batch.id = "batch/" ++ envelope.payload.batch.origin ++ "/" ++
      toString envelope.payload.batch.replicaSequence ++ "/" ++ envelope.payload.batch.hash

instance (build : Build) (envelope : ReplicaEnvelope) : Decidable (Verified build envelope) :=
  inferInstanceAs (Decidable (_ ∧ _ ∧ _ ∧ _))

/-- The tables after the blobs, the batch and the claims of a verified envelope. -/
def admitted (build : Build) (t : Tables) (envelope : ReplicaEnvelope) : Tables :=
  envelope.payload.batch.claims.zipIdx.foldl (admitClaim build envelope)
    ((envelope.payload.blobs.zipIdx.foldl (admitBlob build envelope) t).insertBatch
      envelope.payload.batch.row)

theorem validateAndAdmitEnvelope_verified (h : Verified build envelope) :
    t.validateAndAdmitEnvelope build envelope = .ok (t.admitted build envelope) := by
  obtain ⟨hhash, ⟨horigin, hsequence, hprevious, haccepted⟩, hheader, hid⟩ := h
  unfold validateAndAdmitEnvelope
  rw [if_neg (not_not.mpr hhash), if_neg (by tauto), if_neg (by tauto)]
  rfl

theorem validateAndAdmitEnvelope_refused (h : ¬ Verified build envelope) :
    ∃ code, t.validateAndAdmitEnvelope build envelope = .error code := by
  dsimp only [validateAndAdmitEnvelope]
  split
  · exact ⟨_, rfl⟩
  split
  · exact ⟨_, rfl⟩
  split
  · exact ⟨_, rfl⟩
  case isFalse hhash hbatch hheader =>
    exact absurd ⟨not_not.mp hhash, by tauto, by tauto, by tauto⟩ h

/-- Admission inserts the batch of an envelope, and no envelope. -/
theorem admitted_heads (build : Build) (t : Tables) (envelope : ReplicaEnvelope) :
    SameHeads (t.insertBatch envelope.payload.batch.row) (t.admitted build envelope) :=
  ((Writes.foldl (admitBlob_writes build) _ t).heads.insertBatch _).trans
    (Writes.foldl (admitClaim_writes build) _ _).heads

theorem admitted_grows (build : Build) (t : Tables) (envelope : ReplicaEnvelope) :
    Grows envelope t (t.admitted build envelope) :=
  ((Writes.foldl (admitBlob_writes build) _ t).toGrows.trans (insertBatch_grows _ _)).trans
    (Writes.foldl (admitClaim_writes build) _ _).toGrows

/-! ### Envelopes of batches -/

/-- Some envelope is that of the batch. -/
def HasEnvelope (t : Tables) (batch : String) : Prop :=
  ∃ e ∈ t.envelopes, e.batchId = some batch

instance (t : Tables) (batch : String) : Decidable (t.HasEnvelope batch) :=
  inferInstanceAs (Decidable (∃ e ∈ t.envelopes, _))

theorem HasEnvelope.mono {batch : String} (h : t.HasEnvelope batch)
    (hsub : t.envelopes ⊆ t'.envelopes) : t'.HasEnvelope batch := by
  obtain ⟨e, he, hbatch⟩ := h
  exact ⟨e, hsub he, hbatch⟩

theorem insertEnvelope_eq (t : Tables) (key : EnvelopeKey) (accepted : ℕ) (batch : Option String) :
    ∃ envelopes distinct, t.insertEnvelope key accepted batch =
      { t with envelopes := envelopes, distinct := distinct } := by
  refine ⟨_, (t.insertEnvelope key accepted batch).distinct, ?_⟩
  unfold insertEnvelope
  split <;> rfl

theorem insertEnvelope_batches (t : Tables) (key : EnvelopeKey) (accepted : ℕ)
    (batch : Option String) : (t.insertEnvelope key accepted batch).batches = t.batches := by
  obtain ⟨envelopes, distinct, heq⟩ := t.insertEnvelope_eq key accepted batch
  rw [heq]

theorem insertEnvelope_envelopes {key : EnvelopeKey}
    (h : key ∉ t.envelopes.map EnvelopeRow.key) (accepted : ℕ) (batch : Option String) :
    (t.insertEnvelope key accepted batch).envelopes =
      t.envelopes ++ [⟨t.maxRowid + 1, key, accepted, batch⟩] := by
  rw [insertEnvelope, dif_neg h]

/-- Naming the batch of the last envelope leaves the others. -/
theorem setBatch_envelopes {key : EnvelopeKey} {row : EnvelopeRow} {rows : List EnvelopeRow}
    (batch : String) (ht : t.envelopes = rows ++ [row]) (hrow : row.key = key)
    (hkey : key ∉ rows.map EnvelopeRow.key) :
    (t.setBatch key batch).envelopes = rows ++ [{ row with batchId := some batch }] := by
  have hrest : ∀ e ∈ rows, (if e.key = key then { e with batchId := some batch } else e) = e := by
    intro e he
    rw [if_neg]
    rintro rfl
    exact hkey (mem_map_of_mem he)
  simp only [setBatch, ht, map_append, map_cons, map_nil, if_pos hrow]
  rw [map_congr_left hrest, map_id']

/-- **A receipt**: nothing when the envelope is held or dropped; otherwise the envelope is stored,
with its batch when it is verified. -/
theorem receive_heads (build : Build) (t : Tables) (envelope : ReplicaEnvelope) :
    SameHeads t (t.receive build envelope) ∨
      envelope.key ∉ t.envelopes.map EnvelopeRow.key ∧
        (((t.receive build envelope).batches = t.batches ∧
          (t.receive build envelope).envelopes =
            t.envelopes ++ [⟨t.maxRowid + 1, envelope.key, envelope.acceptedAtUnixMs, none⟩]) ∨
        (Verified build envelope ∧ (t.receive build envelope).batches =
            (t.insertBatch envelope.payload.batch.row).batches ∧
          (t.receive build envelope).envelopes = t.envelopes ++ [⟨t.maxRowid + 1, envelope.key,
            envelope.acceptedAtUnixMs, some envelope.payload.batch.id⟩])) := by
  unfold receive
  split
  case isTrue => exact .inl (.refl t)
  case isFalse hnew =>
    have hkey := (not_or.mp hnew).2
    have hstored := insertEnvelope_envelopes hkey envelope.acceptedAtUnixMs none
    have hbatches := t.insertEnvelope_batches envelope.key envelope.acceptedAtUnixMs none
    refine .inr ⟨hkey, ?_⟩
    by_cases hverified : Verified build envelope
    · have hheads := admitted_heads build
        (t.insertEnvelope envelope.key envelope.acceptedAtUnixMs none) envelope
      simp only [validateAndAdmitEnvelope_verified hverified]
      have hsame : (Tables.insertBatch (t.insertEnvelope envelope.key envelope.acceptedAtUnixMs none)
          envelope.payload.batch.row).batches =
            (t.insertBatch envelope.payload.batch.row).batches := insertBatch_batches hbatches _
      have hlast := setBatch_envelopes envelope.payload.batch.id
        (hheads.2.trans ((insertBatch_envelopes _ _).trans hstored)) rfl hkey
      exact .inr ⟨hverified, hheads.1.trans hsame, hlast⟩
    · obtain ⟨code, hcode⟩ := validateAndAdmitEnvelope_refused hverified
        (t := t.insertEnvelope envelope.key envelope.acceptedAtUnixMs none)
      simp only [hcode]
      have hheads := (recordInvalidReplicaEnvelope_writes build
        (t.insertEnvelope envelope.key envelope.acceptedAtUnixMs none) envelope).heads
      exact .inl ⟨hheads.1.trans hbatches, hheads.2.trans hstored⟩

theorem receive_hasEnvelope {batch : String} (h : t.HasEnvelope batch)
    (envelope : ReplicaEnvelope) : (t.receive build envelope).HasEnvelope batch := by
  refine h.mono ?_
  rcases receive_heads build t envelope with hsame | ⟨_, ⟨_, hstored⟩ | ⟨_, _, hstored⟩⟩
  · rw [hsame.2]
    exact fun _ => id
  all_goals
    rw [hstored]
    exact subset_append_left _ _

/-- A batch that a receipt adds has its envelope. -/
theorem receive_batches {b : BatchRow} (h : b ∈ (t.receive build envelope).batches) :
    b ∈ t.batches ∨ (t.receive build envelope).HasEnvelope b.id := by
  rcases receive_heads build t envelope with hsame | ⟨_, ⟨hbatches, _⟩ | ⟨_, hbatches, hstored⟩⟩
  · exact .inl (hsame.1 ▸ h)
  · exact .inl (hbatches ▸ h)
  · rw [hbatches] at h
    refine (mem_insertBatch h).imp_right fun heq => ?_
    rw [HasEnvelope, hstored]
    exact ⟨_, mem_append_right _ mem_cons_self, by rw [heq]; rfl⟩

/-! ### Receipt and admission apart -/

/-- Store a received envelope to be admitted, unless a checkpoint dropped it. -/
def receipt (t : Tables) (envelope : ReplicaEnvelope) : Tables :=
  if envelope.key ∈ t.droppedKeys then t
  else t.insertEnvelope envelope.key envelope.acceptedAtUnixMs none

def admitEnvelope (build : Build) (t : Tables) (envelope : ReplicaEnvelope) : Tables :=
  match t.validateAndAdmitEnvelope build envelope with
  | .ok admitted => admitted.setBatch envelope.key envelope.payload.batch.id
  | .error _ => t.recordInvalidReplicaEnvelope build envelope

/-- An envelope that is neither held nor dropped is received and admitted. -/
theorem receive_eq_admitEnvelope (build : Build)
    (hdropped : envelope.key ∉ t.droppedKeys) (hheld : envelope.key ∉ t.heldKeys) :
    t.receive build envelope = (t.receipt envelope).admitEnvelope build envelope := by
  rw [receive, if_neg (not_or.mpr ⟨hdropped, hheld⟩), receipt, if_neg hdropped]
  rfl

theorem admitEnvelope_verified (h : Verified build envelope) : t.admitEnvelope build envelope =
      (t.admitted build envelope).setBatch envelope.key envelope.payload.batch.id := by
  rw [admitEnvelope, validateAndAdmitEnvelope_verified h]

theorem admitEnvelope_refused (h : ¬ Verified build envelope) :
    t.admitEnvelope build envelope = t.recordInvalidReplicaEnvelope build envelope := by
  obtain ⟨code, hcode⟩ := validateAndAdmitEnvelope_refused (t := t) h
  rw [admitEnvelope, hcode]

theorem admitEnvelope_grows (build : Build) (t : Tables) (envelope : ReplicaEnvelope) :
    Grows envelope t (t.admitEnvelope build envelope) := by
  by_cases h : Verified build envelope
  · rw [admitEnvelope_verified h]
    exact { admitted_grows build t envelope with }
  · rw [admitEnvelope_refused h]
    exact (t.recordInvalidReplicaEnvelope_writes build envelope).toGrows

theorem setBatch_heldKeys (t : Tables) (key : EnvelopeKey) (batch : String) :
    (t.setBatch key batch).heldKeys = t.heldKeys := by
  rw [heldKeys, setBatch, map_map]
  refine map_congr_left fun e _ => ?_
  simp only [Function.comp_apply]
  split <;> rfl

theorem admitEnvelope_heldKeys (build : Build) (t : Tables) (envelope : ReplicaEnvelope) :
    (t.admitEnvelope build envelope).heldKeys = t.heldKeys := by
  by_cases h : Verified build envelope
  · rw [admitEnvelope_verified h, setBatch_heldKeys, heldKeys, (admitted_heads build t envelope).2,
      insertBatch_envelopes]
  · rw [admitEnvelope_refused h]
    exact congrArg (List.map key)
      (t.recordInvalidReplicaEnvelope_writes build envelope).heads.2

/-! ### Sealing batches -/

/-- The keys of the envelopes that sealing the batches would write are new. -/
def SealsNew (build : Build) (t : Tables) (batches : List BatchRow) : Prop :=
  (t.envelopes.map key ++
    batches.map fun batch => (t.sealedEnvelope build batch).key).Nodup

instance (build : Build) (t : Tables) (batches : List BatchRow) :
    Decidable (t.SealsNew build batches) :=
  inferInstanceAs (Decidable (List.Nodup _))

theorem foldl_records {α : Type*} {f : Tables → α → Tables}
    (hf : ∀ t x, ∃ records, f t x = { t with records := records }) (xs : List α) (t : Tables) :
    ∃ records, xs.foldl f t = { t with records := records } := by
  refine foldlRecOn (motive := fun t' => ∃ records, t' = { t with records := records }) xs f
    ⟨t.records, rfl⟩ ?_
  rintro _ ⟨records, rfl⟩ x -
  exact hf _ x

/-- Sealing a batch inserts its envelope, and writes records. -/
theorem sealBatch_eq (build : Build) (t : Tables) (batch : BatchRow) :
    ∃ records, t.sealBatch build batch =
      { t.insertEnvelope (t.sealedEnvelope build batch).key
          (t.sealedEnvelope build batch).acceptedAtUnixMs (some batch.id) with
        records := records } :=
  foldl_records (fun t _ => t.upsertRecord_eq _ _) _ _

/-- The envelope of a batch is read from the claims and the blobs. -/
theorem sealBatch_sealedEnvelope (build : Build) (t : Tables) (batch batch' : BatchRow) :
    (t.sealBatch build batch).sealedEnvelope build batch' = t.sealedEnvelope build batch' := by
  obtain ⟨records, heq⟩ := t.sealBatch_eq build batch
  rw [heq]
  unfold insertEnvelope
  split <;> rfl

theorem sealBatch_batches (build : Build) (t : Tables) (batch : BatchRow) :
    (t.sealBatch build batch).batches = t.batches := by
  obtain ⟨records, heq⟩ := t.sealBatch_eq build batch
  rw [heq]
  exact insertEnvelope_batches _ _ _ _

theorem sealBatch_envelopes {batch : BatchRow}
    (h : (t.sealedEnvelope build batch).key ∉ t.envelopes.map EnvelopeRow.key) :
    (t.sealBatch build batch).envelopes = t.envelopes ++ [⟨t.maxRowid + 1,
      (t.sealedEnvelope build batch).key, (t.sealedEnvelope build batch).acceptedAtUnixMs,
      some batch.id⟩] := by
  obtain ⟨records, heq⟩ := t.sealBatch_eq build batch
  rw [heq]
  exact insertEnvelope_envelopes h _ _

/-- **Sealing batches under new keys** keeps the envelopes, and gives each batch one. -/
theorem foldl_sealBatch {batches : List BatchRow} (h : t.SealsNew build batches) :
    (batches.foldl (sealBatch build) t).batches = t.batches ∧
      t.envelopes ⊆ (batches.foldl (sealBatch build) t).envelopes ∧
      ∀ b ∈ batches, (batches.foldl (sealBatch build) t).HasEnvelope b.id := by
  induction batches generalizing t with
  | nil => exact ⟨rfl, fun _ => id, by simp⟩
  | cons batch rest ih =>
    have hkey : (t.sealedEnvelope build batch).key ∉ t.envelopes.map key :=
      fun hmem => (nodup_append.mp h).2.2 _ hmem _ mem_cons_self rfl
    have hstored := sealBatch_envelopes hkey
    have hrest : (t.sealBatch build batch).SealsNew build rest := by
      simpa [SealsNew, hstored, sealBatch_sealedEnvelope] using h
    obtain ⟨hbatches, hsub, hall⟩ := ih hrest
    have hfirst : (t.sealBatch build batch).HasEnvelope batch.id := by
      rw [HasEnvelope, hstored]
      exact ⟨_, mem_append_right _ mem_cons_self, rfl⟩
    refine ⟨hbatches.trans (t.sealBatch_batches build batch), ?_, ?_⟩
    · exact fun e he => hsub (by rw [hstored]; exact mem_append_left _ he)
    · rintro b (_ | ⟨_, hb⟩)
      · exact hfirst.mono hsub
      · exact hall b hb

end Tables

end SmallTalk.Checkpoint
