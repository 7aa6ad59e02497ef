import SmallTalk.Checkpoint.TrimPass

/-!
# Checkpoint — a trimming node and its twin

A node that trims is compared with its twin, the node that takes the same steps and deletes nothing.
The two hold the same rows, less what tombstones stand for (`Twin`). What is received, admitted and
recorded on both, or deleted on one, keeps them so.

Batches need more. A turn deletes one with its last envelope, unless a claim still names it, and a
claim that is dropped with another envelope is deleted later. `BatchTwin` says which batches the
trimming node has lost, and relies on the order of its rows (`Ordered`).
-/

namespace SmallTalk.Checkpoint

open List Runs

/-- References of records tell envelopes apart. -/
def Build.RefsApart (build : Build) : Prop :=
  ∀ {key key' : EnvelopeKey} {position position' : ℕ},
    build.recordRef key position = build.recordRef key' position' → key = key'

namespace Tables

variable {es : List EnvelopeTombstone} {cs : List ClaimTombstone} {key : EnvelopeKey}
  {envelope : ReplicaEnvelope} {accepted : ℕ} {batch : Option String} {id : String}

/-- The envelope is held, in some row. -/
def Stores (t : Tables) (key : EnvelopeKey) (accepted : ℕ) (batch : Option String) : Prop :=
  ∃ rowid, (⟨rowid, key, accepted, batch⟩ : EnvelopeRow) ∈ t.envelopes

/-- The reference of each record is that of its envelope and position. -/
def RefsFit (build : Build) (t : Tables) : Prop :=
  ∀ r ∈ t.records, r.recordRef = build.recordRef r.envelope r.position

/-- `s` has lost, of the rows of `u`, only claims, envelopes and records that tombstones stand
for. -/
structure Twin (build : Build) (s u : Tables) : Prop where
  envelopeTombstones : s.checkpointEnvelopes = u.checkpointEnvelopes
  claimTombstones : s.checkpointClaims = u.checkpointClaims
  blobs : s.blobs = u.blobs
  claims : ∀ c, c.id ∉ u.droppedIds → (c ∈ s.claims ↔ c ∈ u.claims)
  records : ∀ r, r.envelope ∉ u.droppedKeys → (r ∈ s.records ↔ r ∈ u.records)
  envelopes : ∀ key ∉ u.droppedKeys, ∀ accepted batch,
    s.Stores key accepted batch ↔ u.Stores key accepted batch
  held : ∀ key accepted batch, s.Stores key accepted batch → u.Stores key accepted batch
  refs : s.RefsFit build
  refs' : u.RefsFit build

variable {build : Build} {s u t : Tables}

theorem mem_heldKeys : key ∈ t.heldKeys ↔ ∃ accepted batch, t.Stores key accepted batch := by
  constructor
  · intro h
    obtain ⟨e, he, rfl⟩ := mem_map.mp h
    exact ⟨e.acceptedAtUnixMs, e.batchId, e.rowid, he⟩
  · rintro ⟨accepted, batch, rowid, he⟩
    exact mem_map_of_mem he

theorem hasEnvelope_iff {batch : String} :
    t.HasEnvelope batch ↔ ∃ key accepted, t.Stores key accepted (some batch) := by
  constructor
  · rintro ⟨e, he, hbatch⟩
    exact ⟨e.key, e.acceptedAtUnixMs, e.rowid, by rw [← hbatch]; exact he⟩
  · rintro ⟨key, accepted, rowid, he⟩
    exact ⟨_, he, rfl⟩

/-- An envelope is held once. -/
theorem Stores.unique {a a' : ℕ} {b b' : Option String} (h : t.Stores key a b)
    (h' : t.Stores key a' b') : a = a' ∧ b = b' := by
  obtain ⟨rowid, he⟩ := h
  obtain ⟨rowid', he'⟩ := h'
  have heq := inj_on_of_nodup_map t.distinct he he' rfl
  exact ⟨congrArg EnvelopeRow.acceptedAtUnixMs heq, congrArg EnvelopeRow.batchId heq⟩

namespace Twin

theorem refl (h : t.RefsFit build) : Twin build t t where
  envelopeTombstones := rfl
  claimTombstones := rfl
  blobs := rfl
  claims _ _ := Iff.rfl
  records _ _ := Iff.rfl
  envelopes _ _ _ _ := Iff.rfl
  held _ _ _ := id
  refs := h
  refs' := h

variable (h : Twin build s u)

include h

theorem heldKeys_iff (hkey : key ∉ u.droppedKeys) : key ∈ s.heldKeys ↔ key ∈ u.heldKeys := by
  simp only [mem_heldKeys, h.envelopes key hkey]

/-- An envelope that `s` has lost is dropped. -/
theorem dropped_of_lost (hu : u.Stores key accepted batch)
    (hs : key ∉ s.heldKeys) : key ∈ u.droppedKeys :=
  by_contra fun hkey => hs ((h.heldKeys_iff hkey).mpr (mem_heldKeys.mpr ⟨accepted, batch, hu⟩))

theorem claimIds_iff (hid : id ∉ u.droppedIds) : id ∈ s.claimIds ↔ id ∈ u.claimIds := by
  simp only [claimIds, mem_map]
  exact exists_congr fun c => and_congr_left fun heq => h.claims c (heq ▸ hid)

/-! ### Steps that both nodes take -/

/-- What a conflict may change of a record. -/
def Keeps (conflict : RecordRow → RecordRow) : Prop :=
  ∀ r, (conflict r).recordRef = r.recordRef ∧ (conflict r).envelope = r.envelope ∧
    (conflict r).position = r.position

omit h in
theorem refsFit_upsertRecord (h : t.RefsFit build) {row : RecordRow}
    {conflict : RecordRow → RecordRow}
    (hrow : row.recordRef = build.recordRef row.envelope row.position)
    (hconflict : Keeps conflict) : (t.upsertRecord row conflict).RefsFit build := by
  intro r hr
  rcases mem_upsertRecord.mp hr with ⟨r', hr', rfl⟩ | ⟨_, rfl⟩
  · split
    · obtain ⟨href, henvelope, hposition⟩ := hconflict r'
      rw [href, henvelope, hposition]
      exact h r' hr'
    · exact h r' hr'
  · exact hrow

/-- Both nodes write a record. -/
theorem upsertRecord (hrefs : build.RefsApart) {row : RecordRow} {conflict : RecordRow → RecordRow}
    (hrow : row.recordRef = build.recordRef row.envelope row.position)
    (hconflict : Keeps conflict) :
    Twin build (s.upsertRecord row conflict) (u.upsertRecord row conflict) := by
  have hown : ∀ t : Tables, t.RefsFit build → ∀ r ∈ t.records, r.recordRef = row.recordRef →
      r.envelope = row.envelope :=
    fun t ht r hr heq => hrefs (by rw [← ht r hr, heq, hrow])
  have hrecords : ∀ r, r.envelope ∉ u.droppedKeys →
      (r ∈ (s.upsertRecord row conflict).records ↔ r ∈ (u.upsertRecord row conflict).records) := by
    intro r hr
    have hfrom : ∀ r', (if r'.recordRef = row.recordRef then conflict r' else r') = r →
        r'.envelope ∉ u.droppedKeys := by
      rintro r' rfl
      split at hr
      · rwa [(hconflict r').2.1] at hr
      · exact hr
    rw [mem_upsertRecord, mem_upsertRecord]
    refine or_congr (exists_congr fun r' => and_congr_left fun heq => h.records r' (hfrom r' heq))
      (and_congr_left fun heq => ⟨?_, ?_⟩)
    · intro hall r' hr' href
      have hkey : r'.envelope ∉ u.droppedKeys := by
        rwa [hown u h.refs' r' hr' href, ← heq]
      exact hall r' ((h.records r' hkey).mpr hr') href
    · intro hall r' hr' href
      have hkey : r'.envelope ∉ u.droppedKeys := by
        rwa [hown s h.refs r' hr' href, ← heq]
      exact hall r' ((h.records r' hkey).mp hr') href
  have hs := refsFit_upsertRecord h.refs hrow hconflict
  have hu := refsFit_upsertRecord h.refs' hrow hconflict
  obtain ⟨rs, heqs⟩ := s.upsertRecord_eq row conflict
  obtain ⟨ru, hequ⟩ := u.upsertRecord_eq row conflict
  rw [heqs] at hrecords hs ⊢
  rw [hequ] at hrecords hu ⊢
  exact { h with records := hrecords, refs := hs, refs' := hu }

theorem insertBlob (hash : String) (bytes : List UInt8) :
    Twin build (s.insertBlob hash bytes) (u.insertBlob hash bytes) := by
  unfold Tables.insertBlob
  rw [h.blobs]
  split
  · exact h
  · exact { h with blobs := rfl }

theorem insertBatch (row : BatchRow) : Twin build (s.insertBatch row) (u.insertBatch row) := by
  unfold Tables.insertBatch
  split <;> split <;> exact { h with }

/-- Both nodes store a claim that no checkpoint dropped. -/
theorem insertClaim {claim : ClaimRecord} (hid : claim.id ∉ u.droppedIds) :
    Twin build (s.insertClaim claim) (u.insertClaim claim) := by
  have hclaims : ∀ c, c.id ∉ u.droppedIds →
      (c ∈ (s.insertClaim claim).claims ↔ c ∈ (u.insertClaim claim).claims) := by
    intro c hc
    rw [mem_insertClaim, mem_insertClaim, h.claims c hc, h.claimIds_iff hid]
  obtain ⟨cs, ds, heqs⟩ := s.insertClaim_eq claim
  obtain ⟨cu, du, hequ⟩ := u.insertClaim_eq claim
  rw [heqs, hequ] at hclaims ⊢
  exact { h with claims := hclaims }

theorem admitBlob (hrefs : build.RefsApart) (envelope : ReplicaEnvelope)
    (entry : (String × List UInt8) × ℕ) :
    Twin build (s.admitBlob build envelope entry) (u.admitBlob build envelope entry) := by
  obtain ⟨⟨hash, bytes⟩, offset⟩ := entry
  simp only [Tables.admitBlob]
  split
  · exact (h.insertBlob hash bytes).upsertRecord hrefs rfl fun _ => ⟨rfl, rfl, rfl⟩
  · exact h.upsertRecord hrefs rfl fun _ => ⟨rfl, rfl, rfl⟩

/-- The check of a claim reads the blobs. -/
theorem validateReplicatedClaim (batch : ReplicaBatch) (claim : ClaimRecord) :
    s.validateReplicatedClaim build batch claim = u.validateReplicatedClaim build batch claim := by
  unfold Tables.validateReplicatedClaim
  rw [h.blobs]

theorem admitClaim (hrefs : build.RefsApart) (envelope : ReplicaEnvelope)
    (entry : ClaimRecord × ℕ) :
    Twin build (s.admitClaim build envelope entry) (u.admitClaim build envelope entry) := by
  obtain ⟨claim, position⟩ := entry
  have hinsert : Twin build
      (if ∃ d ∈ s.checkpointClaims, d.id = claim.id then s else s.insertClaim claim)
      (if ∃ d ∈ u.checkpointClaims, d.id = claim.id then u else u.insertClaim claim) := by
    rw [h.claimTombstones]
    split
    case isTrue => exact h
    case isFalse hdropped => exact h.insertClaim fun hid => hdropped (mem_map.mp hid)
  simp only [Tables.admitClaim, h.validateReplicatedClaim]
  split
  · exact hinsert.upsertRecord hrefs rfl fun _ => ⟨rfl, rfl, rfl⟩
  all_goals exact h.upsertRecord hrefs rfl fun _ => ⟨rfl, rfl, rfl⟩

theorem admitted (hrefs : build.RefsApart) (envelope : ReplicaEnvelope) :
    Twin build (s.admitted build envelope) (u.admitted build envelope) := by
  refine foldl_rel (insertBatch (foldl_rel h ?_) _) ?_
  · exact fun entry _ s u h => h.admitBlob hrefs envelope entry
  · exact fun entry _ s u h => h.admitClaim hrefs envelope entry

end Twin

theorem stores_setBatch {key key' : EnvelopeKey} : (t.setBatch key' id).Stores key accepted batch ↔
      if key = key' then batch = some id ∧ ∃ old, t.Stores key accepted old
      else t.Stores key accepted batch := by
  simp only [Stores, setBatch, mem_map]
  constructor
  · rintro ⟨rowid, e, he, heq⟩
    split at heq
    case isTrue hkey =>
      obtain ⟨rfl, rfl, rfl, rfl⟩ := EnvelopeRow.mk.inj heq
      rw [if_pos hkey]
      exact ⟨rfl, e.batchId, e.rowid, he⟩
    case isFalse hkey =>
      subst heq
      rw [if_neg hkey]
      exact ⟨rowid, he⟩
  · split
    case isTrue hkey =>
      rintro ⟨rfl, old, rowid, he⟩
      exact ⟨rowid, _, he, if_pos hkey⟩
    case isFalse hkey =>
      rintro ⟨rowid, he⟩
      exact ⟨rowid, _, he, if_neg hkey⟩

namespace Twin

theorem setBatch (h : Twin build s u) (key : EnvelopeKey) (id : String) :
    Twin build (s.setBatch key id) (u.setBatch key id) := by
  refine { h with envelopes := fun key' hkey' accepted batch => ?_,
                  held := fun key' accepted batch => ?_ }
  · simp only [stores_setBatch, h.envelopes key' hkey']
  · simp only [stores_setBatch]
    split
    · exact fun ⟨hbatch, old, hold⟩ => ⟨hbatch, old, h.held _ _ _ hold⟩
    · exact h.held _ _ _

/-- **Both nodes admit an envelope.** -/
theorem admitEnvelope (hrefs : build.RefsApart) (h : Twin build s u) (envelope : ReplicaEnvelope) :
    Twin build (s.admitEnvelope build envelope) (u.admitEnvelope build envelope) := by
  by_cases hverified : Verified build envelope
  · rw [admitEnvelope_verified hverified, admitEnvelope_verified hverified]
    exact (h.admitted hrefs envelope).setBatch _ _
  · rw [admitEnvelope_refused hverified, admitEnvelope_refused hverified]
    exact h.upsertRecord hrefs rfl fun _ => ⟨rfl, rfl, rfl⟩

end Twin

theorem stores_insertEnvelope {key key' : EnvelopeKey} {accepted accepted' : ℕ}
    {batch batch' : Option String} :
    (t.insertEnvelope key' accepted' batch').Stores key accepted batch ↔
      t.Stores key accepted batch ∨
        key' ∉ t.heldKeys ∧ key = key' ∧ accepted = accepted' ∧ batch = batch' := by
  unfold insertEnvelope
  split
  case isTrue hheld => simp [hheld]
  case isFalse hheld =>
    simp only [Stores, mem_append, mem_singleton, EnvelopeRow.mk.injEq, exists_or]
    refine or_congr_right ⟨?_, ?_⟩
    · rintro ⟨rowid, rfl, hrest⟩
      exact ⟨hheld, hrest⟩
    · rintro ⟨_, hrest⟩
      exact ⟨_, rfl, hrest⟩

/-- The envelope is neither held nor dropped. -/
def New (t : Tables) (key : EnvelopeKey) : Prop := key ∉ t.droppedKeys ∧ key ∉ t.heldKeys

/-- A receipt changes the envelopes alone: it stores a new one. -/
theorem receipt_spec (t : Tables) (envelope : ReplicaEnvelope) :
    ∃ es ds, t.receipt envelope = { t with envelopes := es, distinct := ds } ∧
      ∀ {key accepted batch}, { t with envelopes := es, distinct := ds }.Stores key accepted batch ↔
        t.Stores key accepted batch ∨ t.New envelope.key ∧ key = envelope.key ∧
          accepted = envelope.acceptedAtUnixMs ∧ batch = none := by
  unfold receipt New
  split
  case isTrue hdropped => exact ⟨t.envelopes, t.distinct, rfl, by simp [hdropped]⟩
  case isFalse hdropped =>
    obtain ⟨es, ds, heq⟩ := t.insertEnvelope_eq envelope.key envelope.acceptedAtUnixMs none
    refine ⟨es, ds, heq, ?_⟩
    rw [← heq, and_iff_right hdropped]
    exact stores_insertEnvelope

namespace Twin

theorem new_iff (h : Twin build s u) : s.New key ↔ u.New key := by
  rw [New, New, droppedKeys, h.envelopeTombstones]
  exact and_congr_right fun hkey => not_congr (h.heldKeys_iff hkey)

/-- **Both nodes receive an envelope.** -/
theorem receipt (h : Twin build s u) (envelope : ReplicaEnvelope) :
    Twin build (s.receipt envelope) (u.receipt envelope) := by
  obtain ⟨es, ds, heqs, hs⟩ := s.receipt_spec envelope
  obtain ⟨eu, du, hequ, hu⟩ := u.receipt_spec envelope
  rw [heqs, hequ]
  refine { h with envelopes := fun key hkey accepted batch => ?_,
                  held := fun key accepted batch => ?_ }
  · rw [hs, hu, h.envelopes key hkey, h.new_iff]
  · rw [hs, hu, h.new_iff]
    exact Or.imp_left (h.held key accepted batch)

end Twin

def SameTombstones (s u : Tables) : Prop :=
  s.checkpointEnvelopes = u.checkpointEnvelopes ∧ s.checkpointClaims = u.checkpointClaims

/-- The tombstones a recording leaves depend on those it finds. -/
theorem SameTombstones.record (h : SameTombstones s u) (es : List EnvelopeTombstone)
    (cs : List ClaimTombstone) :
    SameTombstones (s.recordCheckpointTombstones es cs) (u.recordCheckpointTombstones es cs) := by
  obtain ⟨hes, hcs, -⟩ := s.recordCheckpointTombstones_rows es cs
  obtain ⟨heu, hcu, -⟩ := u.recordCheckpointTombstones_rows es cs
  exact ⟨by rw [hes, heu, h.1], by rw [hcs, hcu, h.2]⟩

namespace Twin

/-- **Both nodes record tombstones.** -/
theorem record (h : Twin build s u) (es : List EnvelopeTombstone) (cs : List ClaimTombstone) :
    Twin build (s.recordCheckpointTombstones es cs) (u.recordCheckpointTombstones es cs) := by
  obtain ⟨henvelopes, hclaims⟩ :=
    SameTombstones.record ⟨h.envelopeTombstones, h.claimTombstones⟩ es cs
  have hs := s.recordCheckpointTombstones_recorded es cs
  have hu := u.recordCheckpointTombstones_recorded es cs
  refine ⟨henvelopes, hclaims, ?_, fun c hc => ?_, fun r hr => ?_, fun key hkey accepted batch => ?_,
    fun key accepted batch => ?_, ?_, ?_⟩
  · rw [hs.blobs, hu.blobs, h.blobs]
  · rw [hs.claims_eq, hu.claims_eq]
    exact h.claims c fun hid => hc (hu.ids c.id hid)
  · rw [hs.records, hu.records]
    exact h.records r fun hkey => hr (hu.keys r.envelope hkey)
  · simp only [Stores, hs.envelopes_eq, hu.envelopes_eq]
    exact h.envelopes key (fun hdropped => hkey (hu.keys key hdropped)) accepted batch
  · simp only [Stores, hs.envelopes_eq, hu.envelopes_eq]
    exact h.held key accepted batch
  · simp only [RefsFit, hs.records]
    exact h.refs
  · simp only [RefsFit, hu.records]
    exact h.refs'

end Twin

/-! ### Turns of a pass -/

theorem stores_deleteDroppedRows : (t.deleteDroppedRows es cs).Stores key accepted batch ↔
      t.Stores key accepted batch ∧ key ∉ es.map EnvelopeTombstone.key := by
  rw [deleteDroppedRows_eq]
  simp only [Stores, withoutEnvelopes, withoutClaims, mem_filter, decide_eq_true_eq,
    exists_and_right]

theorem mem_deleteDroppedRows_heldKeys : key ∈ (t.deleteDroppedRows es cs).heldKeys ↔
      key ∈ t.heldKeys ∧ key ∉ es.map EnvelopeTombstone.key := by
  simp only [mem_heldKeys, stores_deleteDroppedRows, exists_and_right]

theorem mem_deleteDroppedRows_claims {c : ClaimRecord} : c ∈ (t.deleteDroppedRows es cs).claims ↔
      c ∈ t.claims ∧ c.id ∉ cs.map ClaimTombstone.id := by
  rw [deleteDroppedRows_eq]
  simp only [withoutEnvelopes, withoutClaims, mem_filter, decide_eq_true_eq]

theorem mem_deleteDroppedRows_records {r : RecordRow} : r ∈ (t.deleteDroppedRows es cs).records ↔
      r ∈ t.records ∧ r.envelope ∉ es.map EnvelopeTombstone.key := by
  rw [deleteDroppedRows_eq]
  simp only [withoutEnvelopes, withoutClaims, mem_filter, decide_eq_true_eq]

theorem mem_deleteDroppedRows_batchIds :
    id ∈ (t.deleteDroppedRows es cs).batchIds ↔ id ∈ t.batchIds ∧
      ¬ (t.withoutClaims (cs.map ClaimTombstone.id)).Orphaned (es.map EnvelopeTombstone.key) id := by
  rw [deleteDroppedRows_eq]
  simp only [batchIds, withoutEnvelopes, withoutClaims, mem_map, mem_filter, decide_eq_true_eq]
  constructor
  · rintro ⟨b, ⟨hb, hkept⟩, rfl⟩
    exact ⟨⟨b, hb, rfl⟩, hkept⟩
  · rintro ⟨⟨b, hb, rfl⟩, hkept⟩
    exact ⟨b, ⟨hb, hkept⟩, rfl⟩

theorem deleteDroppedRows_tombstones (t : Tables) (es : List EnvelopeTombstone)
    (cs : List ClaimTombstone) :
    (t.deleteDroppedRows es cs).checkpointEnvelopes = t.checkpointEnvelopes ∧
      (t.deleteDroppedRows es cs).checkpointClaims = t.checkpointClaims ∧
      (t.deleteDroppedRows es cs).blobs = t.blobs := by
  rw [deleteDroppedRows_eq]
  exact ⟨rfl, rfl, rfl⟩

/-- **One node deletes** rows that tombstones stand for. -/
theorem Twin.deleted (h : Twin build s u) (hes : ∀ d ∈ es, d ∈ s.checkpointEnvelopes)
    (hcs : ∀ d ∈ cs, d ∈ s.checkpointClaims) : Twin build (s.deleteDroppedRows es cs) u := by
  have hkeys : ∀ key ∉ u.droppedKeys, key ∉ es.map EnvelopeTombstone.key := by
    rintro key hkey hmem
    obtain ⟨d, hd, rfl⟩ := mem_map.mp hmem
    exact hkey (mem_map_of_mem (h.envelopeTombstones ▸ hes d hd))
  have hids : ∀ id ∉ u.droppedIds, id ∉ cs.map ClaimTombstone.id := by
    rintro id hid hmem
    obtain ⟨d, hd, rfl⟩ := mem_map.mp hmem
    exact hid (mem_map_of_mem (h.claimTombstones ▸ hcs d hd))
  obtain ⟨henvelopes, hclaims, hblobs⟩ := s.deleteDroppedRows_tombstones es cs
  refine ⟨henvelopes.trans h.envelopeTombstones, hclaims.trans h.claimTombstones,
    hblobs.trans h.blobs, fun c hc => ?_, fun r hr => ?_, fun key hkey accepted batch => ?_,
    fun key accepted batch => ?_, fun r hr => ?_, h.refs'⟩
  · rw [mem_deleteDroppedRows_claims, h.claims c hc, and_iff_left (hids c.id hc)]
  · rw [mem_deleteDroppedRows_records, h.records r hr, and_iff_left (hkeys r.envelope hr)]
  · rw [stores_deleteDroppedRows, h.envelopes key hkey, and_iff_left (hkeys key hkey)]
  · rw [stores_deleteDroppedRows]
    exact fun hs => h.held key accepted batch hs.1
  · exact h.refs r (mem_deleteDroppedRows_records.mp hr).1

/-! ### What the trimming node keeps in order -/

/-- Records have their envelopes, envelopes and claims their batches, and dropped claims that are
still stored the envelopes their tombstones name. -/
structure Ordered (t : Tables) : Prop where
  recordsHeld : ∀ r ∈ t.records, r.envelope ∈ t.heldKeys
  envelopeBatches : ∀ key accepted id, t.Stores key accepted (some id) → id ∈ t.batchIds
  claimBatches : ∀ c ∈ t.claims, c.batchId ∈ t.batchIds
  placed : ∀ d ∈ t.checkpointClaims, t.Placed d
  named : Named t.checkpointEnvelopes t.checkpointClaims

theorem placed_iff {d : ClaimTombstone} : t.Placed d ↔ ∀ c ∈ t.claims, c.id = d.id →
      ∃ accepted, t.Stores d.envelope accepted (some c.batchId) := by
  refine forall₃_congr fun c _ _ => ⟨?_, ?_⟩
  · rintro ⟨e, he, hkey, hbatch⟩
    exact ⟨e.acceptedAtUnixMs, e.rowid, by rw [← hkey, ← hbatch]; exact he⟩
  · rintro ⟨accepted, rowid, he⟩
    exact ⟨_, he, rfl, rfl⟩

theorem mem_insertBatch_batchIds {row : BatchRow} :
    id ∈ (t.insertBatch row).batchIds ↔ id ∈ t.batchIds ∨ id = row.id := by
  unfold insertBatch
  split
  case isTrue hex =>
    have hmem : row.id ∈ t.batchIds := mem_map.mpr hex
    exact ⟨.inl, fun h => h.elim (fun h => h) fun heq => heq ▸ hmem⟩
  case isFalse => simp [batchIds, eq_comm]

theorem admitEnvelope_batchIds (build : Build) (t : Tables) (h : Verified build envelope) :
    id ∈ (t.admitEnvelope build envelope).batchIds ↔
      id ∈ t.batchIds ∨ id = envelope.payload.batch.id := by
  rw [admitEnvelope_verified h]
  show id ∈ ((t.admitted build envelope).batches.map BatchRow.id) ↔ _
  rw [(admitted_heads build t envelope).1]
  exact mem_insertBatch_batchIds

theorem stores_admitEnvelope (build : Build) (t : Tables) (h : Verified build envelope) :
    (t.admitEnvelope build envelope).Stores key accepted batch ↔
      if key = envelope.key then
        batch = some envelope.payload.batch.id ∧ ∃ old, t.Stores key accepted old
      else t.Stores key accepted batch := by
  have hsame : (t.admitted build envelope).envelopes = t.envelopes :=
    (admitted_heads build t envelope).2.trans (insertBatch_envelopes _ _)
  rw [admitEnvelope_verified h, stores_setBatch]
  simp only [Stores, hsame]

theorem admitEnvelope_records (t : Tables) (h : ¬ Verified build envelope) :
    ∃ rs, t.admitEnvelope build envelope = { t with records := rs } := by
  rw [admitEnvelope_refused h]
  exact t.upsertRecord_eq ..

namespace Ordered

theorem receipt (h : Ordered t) (envelope : ReplicaEnvelope) : Ordered (t.receipt envelope) := by
  obtain ⟨es, ds, heq, hstores⟩ := t.receipt_spec envelope
  rw [heq]
  refine ⟨fun r hr => ?_, fun key accepted id hs => ?_, h.claimBatches,
    fun d hd => placed_iff.mpr fun c hc hid => ?_, h.named⟩
  · obtain ⟨accepted, batch, hs⟩ := mem_heldKeys.mp (h.recordsHeld r hr)
    exact mem_heldKeys.mpr ⟨accepted, batch, hstores.mpr (.inl hs)⟩
  · rcases hstores.mp hs with hs | ⟨_, _, _, hbatch⟩
    · exact h.envelopeBatches key accepted id hs
    · cases hbatch
  · obtain ⟨accepted, hs⟩ := placed_iff.mp (h.placed d hd) c hc hid
    exact ⟨accepted, hstores.mpr (.inl hs)⟩

theorem admitEnvelope (h : Ordered t) (hpending : t.Stores envelope.key accepted none) :
    Ordered (t.admitEnvelope build envelope) := by
  have hgrows := t.admitEnvelope_grows build envelope
  have hkeys := t.admitEnvelope_heldKeys build envelope
  have hrecords : ∀ r ∈ (t.admitEnvelope build envelope).records,
      r.envelope ∈ (t.admitEnvelope build envelope).heldKeys := by
    intro r hr
    rw [hkeys]
    rcases hgrows.records_from r hr with hkey | ⟨r', hr', heq⟩
    · exact hkey ▸ mem_heldKeys.mpr ⟨accepted, none, hpending⟩
    · exact heq ▸ h.recordsHeld r' hr'
  have hnamed : Named (t.admitEnvelope build envelope).checkpointEnvelopes
      (t.admitEnvelope build envelope).checkpointClaims := by
    rw [hgrows.envelopeTombstones, hgrows.claimTombstones]
    exact h.named
  by_cases hverified : Verified build envelope
  · refine ⟨hrecords, fun key a id hs => ?_, fun c hc => ?_, fun d hd => placed_iff.mpr ?_, hnamed⟩
    · rw [admitEnvelope_batchIds build t hverified]
      rw [stores_admitEnvelope build t hverified] at hs
      split at hs
      · exact .inr (Option.some.inj hs.1)
      · exact .inl (h.envelopeBatches key a id hs)
    · rw [admitEnvelope_batchIds build t hverified]
      exact (hgrows.claims_new c hc).imp (h.claimBatches c) And.left
    · intro c hc hid
      rw [hgrows.claimTombstones] at hd
      rcases hgrows.claims_new c hc with hold | ⟨_, hnew⟩
      · obtain ⟨a, hs⟩ := placed_iff.mp (h.placed d hd) c hold hid
        -- The pending row names no batch, so it is not that of the dropped claim.
        have hne : d.envelope ≠ envelope.key := by
          intro heq
          rw [heq] at hs
          cases (hs.unique hpending).2
        refine ⟨a, (stores_admitEnvelope build t hverified).mpr ?_⟩
        rwa [if_neg hne]
      · exact absurd (mem_map.mpr ⟨d, hd, hid.symm⟩) hnew
  · obtain ⟨rs, heq⟩ := t.admitEnvelope_records hverified
    rw [heq] at hrecords hnamed ⊢
    exact { h with recordsHeld := hrecords, named := hnamed }

theorem record (h : Ordered t) (hnamed : Named es cs) (hplaced : ∀ d ∈ cs, t.Placed d) :
    Ordered (t.recordCheckpointTombstones es cs) := by
  have hr := t.recordCheckpointTombstones_recorded es cs
  refine ⟨?_, ?_, ?_, fun d hd => ?_, fun d hd => ?_, fun d hd => ?_⟩
  · rw [hr.records, heldKeys, hr.envelopes_eq]
    exact h.recordsHeld
  · simp only [Stores, batchIds, hr.envelopes_eq, hr.batches]
    exact h.envelopeBatches
  · rw [hr.claims_eq, batchIds, hr.batches]
    exact h.claimBatches
  · unfold Placed
    rw [hr.claims_eq, hr.envelopes_eq]
    exact (hr.claims_from d hd).elim (h.placed d) (hplaced d)
  · exact (hr.envelopes_from d hd).elim (h.named.1 d) (hnamed.1 d)
  · exact (hr.claims_from d hd).elim (h.named.2 d) (hnamed.2 d)

/-- A turn that deletes envelopes with all their dropped claims. -/
theorem deleted (h : Ordered t)
    (hwhole : ∀ d ∈ t.checkpointClaims, d.envelope ∈ es.map EnvelopeTombstone.key →
      d.id ∈ t.claimIds → d.id ∈ cs.map ClaimTombstone.id) :
    Ordered (t.deleteDroppedRows es cs) := by
  obtain ⟨henvelopes, hclaims, _⟩ := t.deleteDroppedRows_tombstones es cs
  refine ⟨fun r hr => ?_, fun key accepted id hs => ?_, fun c hc => ?_,
    fun d hd => placed_iff.mpr fun c hc hid => ?_, by rw [henvelopes, hclaims]; exact h.named⟩
  · obtain ⟨hr, hkey⟩ := mem_deleteDroppedRows_records.mp hr
    obtain ⟨accepted, batch, hs⟩ := mem_heldKeys.mp (h.recordsHeld r hr)
    exact mem_heldKeys.mpr ⟨accepted, batch, stores_deleteDroppedRows.mpr ⟨hs, hkey⟩⟩
  · obtain ⟨⟨rowid, he⟩, hkey⟩ := stores_deleteDroppedRows.mp hs
    refine mem_deleteDroppedRows_batchIds.mpr
      ⟨h.envelopeBatches key accepted id ⟨rowid, he⟩, fun horphan => hkey ?_⟩
    exact horphan.2.2 _ he rfl
  · have hkept := hc
    obtain ⟨hc, _⟩ := mem_deleteDroppedRows_claims.mp hc
    refine mem_deleteDroppedRows_batchIds.mpr ⟨h.claimBatches c hc, fun horphan => ?_⟩
    rw [deleteDroppedRows_eq] at hkept
    exact horphan.1 c hkept rfl
  · obtain ⟨hc, hcs⟩ := mem_deleteDroppedRows_claims.mp hc
    rw [hclaims] at hd
    obtain ⟨accepted, hs⟩ := placed_iff.mp (h.placed d hd) c hc hid
    refine ⟨accepted, stores_deleteDroppedRows.mpr ⟨hs, fun hkey => hcs ?_⟩⟩
    rw [hid]
    exact hwhole d hd hkey (hid ▸ mem_map_of_mem hc)

end Ordered

/-! ### Batches -/

/-- `s` has lost, of the batches of `u`, some that lost an envelope, and every batch it keeps that
lost one is named by another envelope or by a claim that stays. -/
structure BatchTwin (s u : Tables) : Prop where
  sub : ∀ id ∈ s.batchIds, id ∈ u.batchIds
  gone : ∀ id ∈ u.batchIds, id ∉ s.batchIds →
    ∃ key accepted, u.Stores key accepted (some id) ∧ key ∉ s.heldKeys
  named : ∀ id ∈ s.batchIds,
    (∃ key accepted, u.Stores key accepted (some id) ∧ key ∉ s.heldKeys) →
    s.HasEnvelope id ∨ ∃ c ∈ s.claims, c.batchId = id ∧ c.id ∉ s.droppedIds

namespace BatchTwin

theorem refl (t : Tables) : BatchTwin t t where
  sub _ := id
  gone _ h h' := absurd h h'
  named _ _ h := by
    obtain ⟨key, accepted, hs, hkey⟩ := h
    exact absurd (mem_heldKeys.mpr ⟨accepted, _, hs⟩) hkey

theorem receipt (h : BatchTwin s u) (htwin : Twin build s u) (envelope : ReplicaEnvelope) :
    BatchTwin (s.receipt envelope) (u.receipt envelope) := by
  obtain ⟨es, ds, heqs, hs⟩ := s.receipt_spec envelope
  obtain ⟨eu, du, hequ, hu⟩ := u.receipt_spec envelope
  rw [heqs, hequ]
  refine ⟨h.sub, fun id hid hgone => ?_, fun id hid ⟨key, accepted, hstores, hkey⟩ => ?_⟩
  · -- The new envelope is not one that `s` has lost.
    obtain ⟨key, accepted, hstores, hkey⟩ := h.gone id hid hgone
    refine ⟨key, accepted, hu.mpr (.inl hstores), fun hmem => ?_⟩
    obtain ⟨a, b, hheld⟩ := mem_heldKeys.mp hmem
    rcases hs.mp hheld with hheld | ⟨hnew, rfl, _⟩
    · exact hkey (mem_heldKeys.mpr ⟨a, b, hheld⟩)
    · exact (htwin.new_iff.mp hnew).1 (htwin.dropped_of_lost hstores hkey)
  · rcases hu.mp hstores with hstores | ⟨_, _, _, hbatch⟩
    · have hlost : key ∉ s.heldKeys := fun hmem => hkey (by
        obtain ⟨a, b, hheld⟩ := mem_heldKeys.mp hmem
        exact mem_heldKeys.mpr ⟨a, b, hs.mpr (.inl hheld)⟩)
      refine (h.named id hid ⟨key, accepted, hstores, hlost⟩).imp_left fun hname => ?_
      obtain ⟨key, accepted, hheld⟩ := hasEnvelope_iff.mp hname
      exact hasEnvelope_iff.mpr ⟨key, accepted, hs.mpr (.inl hheld)⟩
    · cases hbatch

theorem admitEnvelope (h : BatchTwin s u) (hpending : s.Stores envelope.key accepted none) :
    BatchTwin (s.admitEnvelope build envelope) (u.admitEnvelope build envelope) := by
  by_cases hverified : Verified build envelope
  · have hgrows := s.admitEnvelope_grows build envelope
    have hkeys := s.admitEnvelope_heldKeys build envelope
    have hids : (s.admitEnvelope build envelope).droppedIds = s.droppedIds :=
      congrArg (List.map ClaimTombstone.id) hgrows.claimTombstones
    have hheld : envelope.key ∈ s.heldKeys := mem_heldKeys.mpr ⟨accepted, none, hpending⟩
    -- An envelope that `s` has lost is not the one admitted.
    have hstores : ∀ key a id, key ∉ s.heldKeys →
        ((u.admitEnvelope build envelope).Stores key a (some id) ↔ u.Stores key a (some id)) := by
      intro key a id hkey
      rw [stores_admitEnvelope build u hverified, if_neg (by rintro rfl; exact hkey hheld)]
    refine ⟨fun id hid => ?_, fun id hid hlost => ?_, fun id hid hgone => ?_⟩
    · rw [admitEnvelope_batchIds build _ hverified] at hid ⊢
      exact hid.imp_left (h.sub id)
    · rw [admitEnvelope_batchIds build _ hverified] at hid hlost
      obtain ⟨hlost, hne⟩ := not_or.mp hlost
      obtain ⟨key, a, hs, hkey⟩ := h.gone id (hid.resolve_right hne) hlost
      exact ⟨key, a, (hstores key a id hkey).mpr hs, hkeys.symm ▸ hkey⟩
    · obtain ⟨key, a, hs, hkey⟩ := hgone
      rw [hkeys] at hkey
      have hs := (hstores key a id hkey).mp hs
      rw [admitEnvelope_batchIds build _ hverified] at hid
      rcases eq_or_ne id envelope.payload.batch.id with rfl | hne
      · refine .inl (hasEnvelope_iff.mpr ⟨envelope.key, accepted, ?_⟩)
        rw [stores_admitEnvelope build s hverified, if_pos rfl]
        exact ⟨rfl, none, hpending⟩
      rcases h.named id (hid.resolve_right hne) ⟨key, a, hs, hkey⟩ with hid | ⟨c, hc, hcb, hcid⟩
      · obtain ⟨key', a', hs'⟩ := hasEnvelope_iff.mp hid
        have hne' : key' ≠ envelope.key := by
          rintro rfl
          cases (hs'.unique hpending).2
        refine .inl (hasEnvelope_iff.mpr ⟨key', a', ?_⟩)
        rwa [stores_admitEnvelope build s hverified, if_neg hne']
      · exact .inr ⟨c, hgrows.claims_kept hc, hcb, hids.symm ▸ hcid⟩
  · obtain ⟨rs, heqs⟩ := s.admitEnvelope_records hverified
    obtain ⟨ru, hequ⟩ := u.admitEnvelope_records hverified
    rw [heqs, hequ]
    exact { h with }

theorem record (h : BatchTwin s u) (hplaced : ∀ d ∈ cs, s.Placed d) :
    BatchTwin (s.recordCheckpointTombstones es cs) (u.recordCheckpointTombstones es cs) := by
  have hs := s.recordCheckpointTombstones_recorded es cs
  have hu := u.recordCheckpointTombstones_recorded es cs
  refine ⟨?_, ?_, fun id hid hgone => ?_⟩
  · simp only [batchIds, hs.batches, hu.batches]
    exact h.sub
  · simp only [batchIds, Stores, heldKeys, hs.batches, hu.batches, hs.envelopes_eq, hu.envelopes_eq]
    exact h.gone
  · simp only [batchIds, Stores, heldKeys, hs.batches, hs.envelopes_eq, hu.envelopes_eq]
      at hid hgone
    simp only [HasEnvelope, hs.envelopes_eq, hs.claims_eq]
    rcases h.named id hid hgone with hid | ⟨c, hc, hcb, hcid⟩
    · exact .inl hid
    by_cases hnew : c.id ∈ (s.recordCheckpointTombstones es cs).droppedIds
    · -- A claim that is dropped now has its envelope.
      obtain ⟨d, hd, hdid⟩ := mem_map.mp hnew
      have hd : d ∈ cs := (hs.claims_from d hd).resolve_left fun hold =>
        hcid (mem_map.mpr ⟨d, hold, hdid⟩)
      obtain ⟨e, he, _, hbatch⟩ := hplaced d hd c hc hdid.symm
      exact .inl ⟨e, he, hcb ▸ hbatch⟩
    · exact .inr ⟨c, hc, hcb, hnew⟩

theorem deleted (h : BatchTwin s u) (htwin : Twin build s u) (hordered : Ordered s)
    (hcs : ∀ d ∈ cs, d ∈ s.checkpointClaims)
    (hwhole : ∀ d ∈ s.checkpointClaims, d.envelope ∈ es.map EnvelopeTombstone.key →
      d.id ∈ s.claimIds → d.id ∈ cs.map ClaimTombstone.id) :
    BatchTwin (s.deleteDroppedRows es cs) u := by
  refine ⟨fun id hid => h.sub id (mem_deleteDroppedRows_batchIds.mp hid).1,
    fun id hid hlost => ?_, fun id hid hgone => ?_⟩
  · by_cases hold : id ∈ s.batchIds
    · -- The turn deletes the batch with its last envelope.
      have horphan : (s.withoutClaims (cs.map ClaimTombstone.id)).Orphaned
          (es.map EnvelopeTombstone.key) id :=
        by_contra fun hno => hlost (mem_deleteDroppedRows_batchIds.mpr ⟨hold, hno⟩)
      obtain ⟨e, he, hbatch, hkey⟩ := horphan.2.1
      have hs : s.Stores e.key e.acceptedAtUnixMs (some id) := ⟨e.rowid, hbatch ▸ he⟩
      exact ⟨e.key, _, htwin.held _ _ _ hs, fun hmem =>
        (mem_deleteDroppedRows_heldKeys.mp hmem).2 hkey⟩
    · obtain ⟨key, accepted, hs, hkey⟩ := h.gone id hid hold
      exact ⟨key, accepted, hs, fun hmem =>
        hkey (mem_deleteDroppedRows_heldKeys.mp hmem).1⟩
  · obtain ⟨hold, hkept⟩ := mem_deleteDroppedRows_batchIds.mp hid
    have hstays : ∀ c ∈ s.claims, c.id ∉ s.droppedIds → c ∈ (s.deleteDroppedRows es cs).claims := by
      intro c hc hcid
      refine mem_deleteDroppedRows_claims.mpr ⟨hc, fun hmem => hcid ?_⟩
      obtain ⟨d, hd, heq⟩ := mem_map.mp hmem
      exact mem_map.mpr ⟨d, hcs d hd, heq⟩
    have hids : (s.deleteDroppedRows es cs).droppedIds = s.droppedIds :=
      congrArg (List.map ClaimTombstone.id) (s.deleteDroppedRows_tombstones es cs).2.1
    rw [hids]
    by_contra hno
    obtain ⟨hnone, hnoclaim⟩ := not_or.mp hno
    have hdropped : ∀ key accepted, s.Stores key accepted (some id) →
        key ∈ es.map EnvelopeTombstone.key := by
      intro key accepted hs
      by_contra hkey
      exact hnone (hasEnvelope_iff.mpr ⟨key, accepted, stores_deleteDroppedRows.mpr ⟨hs, hkey⟩⟩)
    have hname : ∃ key accepted, s.Stores key accepted (some id) := by
      obtain ⟨key, accepted, hu, hkey⟩ := hgone
      by_cases hold' : key ∈ s.heldKeys
      · obtain ⟨a, b, hs⟩ := mem_heldKeys.mp hold'
        have hsame := ((htwin.held _ _ _ hs).unique hu).2
        exact ⟨key, a, hsame ▸ hs⟩
      · rcases h.named id hold ⟨key, accepted, hu, hold'⟩ with hid | ⟨c, hc, hcb, hcid⟩
        · exact hasEnvelope_iff.mp hid
        · exact absurd ⟨c, hstays c hc hcid, hcb, hcid⟩ hnoclaim
    obtain ⟨key, accepted, rowid, he⟩ := hname
    refine hkept ⟨fun c hc hcb => ?_, ⟨_, he, rfl, hdropped key accepted ⟨rowid, he⟩⟩,
      fun e he hbatch => hdropped e.key e.acceptedAtUnixMs ⟨e.rowid, hbatch ▸ he⟩⟩
    -- A dropped claim of the batch goes with an envelope of the turn.
    obtain ⟨hc, hleft⟩ := mem_filter.mp hc
    by_cases hcid : c.id ∈ s.droppedIds
    · obtain ⟨d, hd, hdid⟩ := mem_map.mp hcid
      obtain ⟨a, hs⟩ := placed_iff.mp (hordered.placed d hd) c hc hdid.symm
      rw [hcb] at hs
      refine of_decide_eq_true hleft ?_
      rw [← hdid]
      exact hwhole d hd (hdropped _ _ hs) (hdid ▸ mem_map_of_mem hc)
    · exact hnoclaim ⟨c, hstays c hc hcid, hcb, hcid⟩

end BatchTwin

end Tables

end SmallTalk.Checkpoint
