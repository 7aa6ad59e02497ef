import SmallTalk.Checkpoint.Agreement
import SmallTalk.Checkpoint.Trim
import SmallTalk.Lib.Runs

/-!
# Checkpoint — the sealing cursor

A process seals its batches behind a cursor, the highest row of `batches` it has sealed through. A
pass reads the highest row as its target, and takes the writer for one chunk after another until the
cursor has reached the target (`sealChunk`). Between two chunks other writes run: batches of this
node, envelopes of peers, and deletions of what a checkpoint drops.

A row is one more than the highest that is left, so a deletion of the newest rows lets later batches
take rows the cursor has passed.

* `everyPassSeals_iff`: when every pass seals every batch of this node.
-/

namespace SmallTalk.Checkpoint

open Tables List Runs Sorted

/-- The log of a node in one process: its tables, the row of each batch, by its id, and the row up
to which the process has sealed. -/
structure Journal where
  tables : Tables
  batchRowid : String → ℕ
  seededBatchRowid : ℕ

namespace Journal

/-- `SELECT COALESCE(MAX(rowid), 0) FROM batches`. -/
def maxBatchRowid (j : Journal) : ℕ :=
  (j.tables.batches.map fun b => j.batchRowid b.id).foldr max 0

/-- A batch that is new takes the row after the highest. -/
def newRow (j : Journal) (batch : String) : String → ℕ :=
  if ∃ b ∈ j.tables.batches, b.id = batch then j.batchRowid
  else Function.update j.batchRowid batch (j.maxBatchRowid + 1)

/-- Opening a store seals what it holds, and sets the cursor to the highest row. -/
def fromConnection (build : Build) (tables : Tables) (batchRowid : String → ℕ) : Journal :=
  let opened : Journal := ⟨tables.seedReplicaEnvelopes build, batchRowid, 0⟩
  { opened with seededBatchRowid := opened.maxBatchRowid }

/-- Write a batch. An id that is taken fails the insert, and the transaction with it. -/
def write (j : Journal) (batch : ReplicaBatch) : Journal :=
  if ∃ b ∈ j.tables.batches, b.id = batch.id then j
  else { j with tables := j.tables.appendBatch batch, batchRowid := j.newRow batch.id }

def receive (build : Build) (j : Journal) (envelope : ReplicaEnvelope) : Journal :=
  { j with
    tables := j.tables.receive build envelope
    batchRowid := j.newRow envelope.payload.batch.id }

/-! ### Sealing -/

def sealChunkBatches : ℕ := 64

/-- The last row of the next chunk: that of the 64th batch after the cursor, or of the last one up
to the target, or the target when there is none. -/
def chunkEnd (j : Journal) (target : ℕ) : ℕ :=
  let rows := (j.tables.batches.map fun b => j.batchRowid b.id).filter fun row =>
    j.seededBatchRowid < row ∧ row ≤ target
  ((rows.insertionSort (· ≤ ·)).take sealChunkBatches).max?.getD target

/-- The batches of a range of rows that have no envelope, in the order of their rows. -/
def unsealed (j : Journal) (after through : ℕ) : List BatchRow :=
  (j.tables.batches.filter fun b =>
    after < j.batchRowid b.id ∧ j.batchRowid b.id ≤ through ∧
      ¬ j.tables.HasEnvelope b.id).insertionSort fun a b => j.batchRowid a.id ≤ j.batchRowid b.id

/-- One loan of the writer in a pass that read `target`. -/
def sealChunk (build : Build) (j : Journal) (target : ℕ) : Journal :=
  if target ≤ j.seededBatchRowid then j
  else
    let through := j.chunkEnd target
    { j with
      tables := (j.unsealed j.seededBatchRowid through).foldl (sealBatch build) j.tables
      seededBatchRowid := through }

end Journal

/-! ### Runs of a process -/

/-- What changes the log in a process, one transaction each. `trim` deletes rows, and `sealChunk` is
one loan of the writer in a pass. -/
inductive JournalEvent where
  | write (batch : ReplicaBatch)
  | receive (envelope : ReplicaEnvelope)
  | record (envelopes : List EnvelopeTombstone) (claims : List ClaimTombstone)
  | keepOnly (envelopes : List EnvelopeTombstone) (claims : List ClaimTombstone)
  | trim (envelopes : List EnvelopeTombstone) (claims : List ClaimTombstone)
  | sealChunk (target : ℕ)

namespace Journal

def apply (build : Build) (j : Journal) : JournalEvent → Journal
  | .write batch => j.write batch
  | .receive envelope => j.receive build envelope
  | .record envelopes claims =>
    { j with tables := j.tables.recordCheckpointTombstones envelopes claims }
  | .keepOnly envelopes claims =>
    { j with tables := j.tables.keepOnlyTombstones envelopes claims }
  | .trim envelopes claims => { j with tables := j.tables.deleteDroppedRows envelopes claims }
  | .sealChunk target => j.sealChunk build target

def run (build : Build) (j : Journal) (events : List JournalEvent) : Journal :=
  events.foldl (apply build) j

end Journal

def JournalEvent.isWrite : JournalEvent → Bool
  | .write _ => true
  | _ => false

/-- A batch that loses its last envelope loses its claims too. A drop takes an envelope only
whole. -/
def Tables.DropsWhole (t : Tables) (keys : List EnvelopeKey) (ids : List String) : Prop :=
  ∀ e ∈ t.envelopes, e.key ∈ keys →
    (∃ kept ∈ t.envelopes, kept.key ∉ keys ∧ kept.batchId = e.batchId) ∨
      ∀ c ∈ t.claims, some c.batchId = e.batchId → c.id ∈ ids

/-- What the program sees to in each transaction: this node's batches carry its name and a new id,
a drop takes an envelope whole, and a sealed envelope has a hash of its own. -/
def Journal.Fits (build : Build) (origin : String) (j : Journal) : JournalEvent → Prop
  | .write batch => batch.origin = origin ∧ (∀ b ∈ j.tables.batches, b.id ≠ batch.id) ∧
      ¬ j.tables.HasEnvelope batch.id
  | .trim envelopes claims =>
    j.tables.DropsWhole (envelopes.map EnvelopeTombstone.key) (claims.map ClaimTombstone.id)
  | .sealChunk target =>
    j.tables.SealsNew build (j.unsealed j.seededBatchRowid (j.chunkEnd target))
  | _ => True

/-- A batch of this node is written when some row is at or above the cursor. -/
def Journal.AboveCursor (j : Journal) (event : JournalEvent) : Prop :=
  event.isWrite → j.seededBatchRowid ≤ j.maxBatchRowid

/-- Every batch of this node has an envelope. -/
def Journal.Sealed (origin : String) (j : Journal) : Prop :=
  ∀ b ∈ j.tables.batches, b.origin = origin → j.tables.HasEnvelope b.id

/-- Whatever state a pass reads its target in, once the cursor has reached the target and this node
wrote no batch meanwhile, every batch of this node has an envelope. -/
def Journal.EveryPassSeals (build : Build) (origin : String) (j : Journal)
    (events : List JournalEvent) : Prop :=
  ∀ before during rest, events = before ++ (during ++ rest) →
    (∀ event ∈ during, event.isWrite = false) →
    (j.run build before).maxBatchRowid ≤ (j.run build (before ++ during)).seededBatchRowid →
    (j.run build (before ++ during)).Sealed origin

section

variable (build : Build) (origin : String)

instance (t : Tables) (keys : List EnvelopeKey) (ids : List String) :
    Decidable (t.DropsWhole keys ids) :=
  inferInstanceAs (Decidable (∀ e ∈ t.envelopes, _))

instance (j : Journal) (event : JournalEvent) : Decidable (j.Fits build origin event) := by
  cases event <;> unfold Journal.Fits <;> infer_instance

instance (j : Journal) (event : JournalEvent) : Decidable (j.AboveCursor event) :=
  inferInstanceAs (Decidable (_ → _))

instance (j : Journal) : Decidable (j.Sealed origin) :=
  inferInstanceAs (Decidable (∀ b ∈ j.tables.batches, _))

end

/-! ### One step -/

namespace Journal

variable {build : Build} {origin : String} {j : Journal} {event : JournalEvent} {b : BatchRow}
  {batch : ReplicaBatch}

theorem batchRowid_le (hb : b ∈ j.tables.batches) : j.batchRowid b.id ≤ j.maxBatchRowid :=
  (foldr_max_le_iff.mp le_rfl).2 _ (mem_map_of_mem hb)

theorem newRow_of_mem (batch : String) (hb : b ∈ j.tables.batches) :
    j.newRow batch b.id = j.batchRowid b.id := by
  unfold newRow
  split
  · rfl
  case isFalse hnew => exact Function.update_of_ne (fun heq => hnew ⟨b, hb, heq⟩) _ _

/-- Where a batch of the state after a step comes from. -/
inductive Comes (j j' : Journal) (event : JournalEvent) (b : BatchRow) : Prop where
  | kept (hb : b ∈ j.tables.batches) (hrow : j'.batchRowid b.id = j.batchRowid b.id)
      (hkeeps : j.tables.HasEnvelope b.id → j'.tables.HasEnvelope b.id)
  | enclosed (h : j'.tables.HasEnvelope b.id)
  | written (hwrite : event.isWrite = true) (hrow : j'.batchRowid b.id = j.maxBatchRowid + 1)

theorem comes_of_heads {t : Tables} (h : j.tables.SameHeads t)
    (hb : b ∈ t.batches) : Comes j { j with tables := t } event b :=
  .kept (h.1 ▸ hb) rfl fun henvelope => henvelope.mono (h.2 ▸ fun _ => id)

/-- A batch with a new id takes the next row, and brings no envelope. -/
theorem write_spec (hnew : ∀ b ∈ j.tables.batches, b.id ≠ batch.id) :
    (j.write batch).tables.batches = j.tables.batches ++ [batch.row] ∧
      (j.write batch).tables.envelopes = j.tables.envelopes ∧
      (j.write batch).batchRowid batch.id = j.maxBatchRowid + 1 ∧
      (j.write batch).seededBatchRowid = j.seededBatchRowid := by
  have hfree : ¬ ∃ b ∈ j.tables.batches, b.id = batch.id := fun ⟨b, hb, heq⟩ => hnew b hb heq
  have hheads := j.tables.appendBatch_heads batch
  rw [write, if_neg hfree]
  refine ⟨hheads.1.trans ?_, hheads.2.trans (insertBatch_envelopes _ _), ?_, rfl⟩
  · exact congrArg batches (if_neg hfree)
  · show j.newRow batch.id batch.id = _
    rw [newRow, if_neg hfree, Function.update_self]

theorem write_batchRowid (batch : ReplicaBatch) (hb : b ∈ j.tables.batches) :
    (j.write batch).batchRowid b.id = j.batchRowid b.id := by
  unfold write
  split
  · rfl
  · exact newRow_of_mem _ hb

theorem write_comes (hnew : ∀ b ∈ j.tables.batches, b.id ≠ batch.id)
    (hb : b ∈ (j.write batch).tables.batches) : Comes j (j.write batch) (.write batch) b := by
  obtain ⟨hbatches, henvelopes, hrow, _⟩ := j.write_spec hnew
  rw [hbatches] at hb
  rcases mem_append.mp hb with hold | hlast
  · exact .kept hold (write_batchRowid batch hold) fun h => h.mono (henvelopes ▸ fun _ => id)
  · obtain rfl := mem_singleton.mp hlast
    exact .written rfl hrow

theorem receive_comes {envelope : ReplicaEnvelope}
    (hb : b ∈ (j.receive build envelope).tables.batches) :
    Comes j (j.receive build envelope) event b := by
  rcases receive_batches hb with hold | hnew
  · exact .kept hold (newRow_of_mem _ hold) fun h => receive_hasEnvelope h envelope
  · exact .enclosed hnew

/-- A whole drop keeps an envelope of each batch it keeps. -/
theorem trim_comes {envelopes : List EnvelopeTombstone} {claims : List ClaimTombstone}
    (hwhole : j.tables.DropsWhole (envelopes.map EnvelopeTombstone.key)
      (claims.map ClaimTombstone.id))
    (hb : b ∈ (j.tables.deleteDroppedRows envelopes claims).batches) :
    Comes j { j with tables := j.tables.deleteDroppedRows envelopes claims } event b := by
  rw [deleteDroppedRows_eq] at hb ⊢
  obtain ⟨hold, hkept⟩ := mem_filter.mp hb
  refine .kept hold rfl fun ⟨e, he, hbatch⟩ => ?_
  by_contra hnone
  -- Otherwise the drop takes every envelope of the batch, so its claims, and orphans it.
  have hdropped : ∀ e ∈ j.tables.envelopes, e.batchId = some b.id →
      e.key ∈ envelopes.map EnvelopeTombstone.key := by
    intro e he hbatch
    by_contra hkey
    exact hnone ⟨e, mem_filter.mpr ⟨he, decide_eq_true hkey⟩, hbatch⟩
  have hclaims : ∀ c ∈ j.tables.claims, c.batchId = b.id → c.id ∈ claims.map ClaimTombstone.id := by
    intro c hc hcb
    rcases hwhole e he (hdropped e he hbatch) with ⟨e', he', hkey', hbatch'⟩ | hall
    · exact absurd (hdropped e' he' (hbatch'.trans hbatch)) hkey'
    · exact hall c hc (by rw [hbatch, hcb])
  refine of_decide_eq_true hkept ⟨?_, ⟨e, he, hbatch, hdropped e he hbatch⟩, hdropped⟩
  intro c hc hcb
  obtain ⟨hc, hid⟩ := mem_filter.mp hc
  exact of_decide_eq_true hid (hclaims c hc hcb)

/-- A chunk seals the batches it moves the cursor past. -/
theorem sealChunk_spec {target : ℕ}
    (hnew : j.tables.SealsNew build (j.unsealed j.seededBatchRowid (j.chunkEnd target))) :
    (j.sealChunk build target).batchRowid = j.batchRowid ∧
      (j.sealChunk build target).tables.batches = j.tables.batches ∧
      (∀ batch, j.tables.HasEnvelope batch →
        (j.sealChunk build target).tables.HasEnvelope batch) ∧
      ∀ b ∈ j.tables.batches, j.batchRowid b.id ≤ (j.sealChunk build target).seededBatchRowid →
        j.batchRowid b.id ≤ j.seededBatchRowid ∨
          (j.sealChunk build target).tables.HasEnvelope b.id := by
  unfold sealChunk
  split
  · exact ⟨rfl, rfl, fun _ => id, fun _ _ => .inl⟩
  obtain ⟨hbatches, hsub, hall⟩ := foldl_sealBatch hnew
  refine ⟨rfl, hbatches, fun _ henvelope => henvelope.mono hsub, fun b hb hrow => ?_⟩
  by_cases hpassed : j.batchRowid b.id ≤ j.seededBatchRowid
  · exact .inl hpassed
  refine .inr ?_
  by_cases henvelope : j.tables.HasEnvelope b.id
  · exact henvelope.mono hsub
  · refine hall b ((mem_insertionSort _).mpr (mem_filter.mpr ⟨hb, ?_⟩))
    exact decide_eq_true ⟨not_le.mp hpassed, hrow, henvelope⟩

/-- **What a step can do to a batch.** -/
theorem apply_comes (hfits : j.Fits build origin event)
    (hb : b ∈ (j.apply build event).tables.batches) :
    Comes j (j.apply build event) event b := by
  cases event with
  | write batch => exact write_comes hfits.2.1 hb
  | receive envelope => exact receive_comes hb
  | record envelopes claims =>
    have hrecorded := j.tables.recordCheckpointTombstones_recorded envelopes claims
    exact comes_of_heads ⟨hrecorded.batches, hrecorded.envelopes_eq⟩ hb
  | keepOnly envelopes claims => exact comes_of_heads (.refl _) hb
  | trim envelopes claims => exact trim_comes hfits hb
  | sealChunk target =>
    obtain ⟨hrows, hbatches, hkeeps, _⟩ := sealChunk_spec hfits
    exact .kept (hbatches ▸ hb) (congrFun hrows b.id) (hkeeps b.id)

/-- Only a chunk moves the cursor, and seals what it passes. -/
theorem apply_passed (hfits : j.Fits build origin event) (hb : b ∈ j.tables.batches)
    (hrow : j.batchRowid b.id ≤ (j.apply build event).seededBatchRowid) :
    j.batchRowid b.id ≤ j.seededBatchRowid ∨
      (j.apply build event).tables.HasEnvelope b.id := by
  cases event with
  | sealChunk target => exact (sealChunk_spec hfits).2.2.2 b hb hrow
  | write batch =>
    refine .inl ?_
    rw [apply, write] at hrow
    split at hrow <;> exact hrow
  | receive _ | record _ _ | keepOnly _ _ | trim _ _ => exact .inl hrow

/-! ### Whole runs -/

/-- Every batch the cursor has passed has an envelope. -/
def SealedThrough (j : Journal) : Prop :=
  ∀ b ∈ j.tables.batches, j.batchRowid b.id ≤ j.seededBatchRowid → j.tables.HasEnvelope b.id

/-- Every batch above a row has an envelope. -/
def SealedBeyond (row : ℕ) (j : Journal) : Prop :=
  ∀ b ∈ j.tables.batches, row < j.batchRowid b.id → j.tables.HasEnvelope b.id

theorem sealedThrough_apply (hfits : j.Fits build origin event) (habove : j.AboveCursor event)
    (h : j.SealedThrough) : (j.apply build event).SealedThrough := by
  intro b hb hrow
  cases apply_comes hfits hb with
  | kept hold hsame hkeeps =>
    rw [hsame] at hrow
    exact (apply_passed hfits hold hrow).elim (fun hpassed => hkeeps (h b hold hpassed)) id
  | enclosed henvelope => exact henvelope
  | written hwrite hnew =>
    -- The new row is above every row, so above the cursor.
    have hcursor := habove hwrite
    cases event with
    | write batch =>
      have hsame : (j.apply build (.write batch)).seededBatchRowid = j.seededBatchRowid :=
        (write_spec hfits.2.1).2.2.2
      omega
    | receive _ | record _ _ | keepOnly _ _ | trim _ _ | sealChunk _ => cases hwrite

theorem sealedBeyond_apply {row : ℕ} (hfits : j.Fits build origin event)
    (hquiet : event.isWrite = false) (h : j.SealedBeyond row) :
    (j.apply build event).SealedBeyond row := by
  intro b hb hrow
  cases apply_comes hfits hb with
  | kept hold hsame hkeeps => exact hkeeps (h b hold (hsame ▸ hrow))
  | enclosed henvelope => exact henvelope
  | written hwrite => exact absurd hwrite (by simp [hquiet])

/-- **A pass of a run whose batches are written above the cursor** seals every batch. -/
theorem pass_seals {before during : List JournalEvent}
    (hfits : Along (apply build) (Fits build origin) j (before ++ during))
    (habove : Along (apply build) AboveCursor j (before ++ during))
    (hquiet : ∀ event ∈ during, event.isWrite = false) (h : j.SealedThrough)
    (hpass : (j.run build before).maxBatchRowid ≤
      (j.run build (before ++ during)).seededBatchRowid) :
    (j.run build (before ++ during)).Sealed origin := by
  have hthrough : (j.run build (before ++ during)).SealedThrough :=
    (along_and.mpr ⟨hfits, habove⟩).invariant
      (fun _ _ hstep => sealedThrough_apply hstep.1 hstep.2) h
  have hbeyond : (j.run build (before ++ during)).SealedBeyond
      (j.run build before).maxBatchRowid := by
    have hrun : j.run build (before ++ during) = (j.run build before).run build during :=
      foldl_append
    rw [hrun]
    refine (along_and.mpr ⟨(along_append.mp hfits).2,
      along_of_forall fun event he _ => hquiet event he⟩).invariant
      (fun _ _ hstep => sealedBeyond_apply hstep.1 hstep.2) ?_
    exact fun b hb hrow => absurd (batchRowid_le hb) (not_le.mpr hrow)
  intro b hb _
  rcases le_or_gt ((j.run build (before ++ during)).batchRowid b.id)
    (j.run build before).maxBatchRowid with hle | hgt
  · exact hthrough b hb (hle.trans hpass)
  · exact hbeyond b hb hgt

/-- A batch written below the cursor stays without an envelope, and a pass that starts then returns
at once. -/
theorem write_not_sealed (hfits : j.Fits build origin (.write batch))
    (hbelow : j.maxBatchRowid < j.seededBatchRowid) :
    (j.write batch).maxBatchRowid ≤ (j.write batch).seededBatchRowid ∧
      ¬ (j.write batch).Sealed origin := by
  obtain ⟨horigin, hnew, hnone⟩ := hfits
  obtain ⟨hbatches, henvelopes, hrow, hcursor⟩ := j.write_spec hnew
  constructor
  · rw [hcursor]
    refine foldr_max_le_iff.mpr ⟨Nat.zero_le _, fun row hmem => ?_⟩
    obtain ⟨b, hb, rfl⟩ := mem_map.mp hmem
    rw [hbatches] at hb
    rcases mem_append.mp hb with hold | hlast
    · rw [write_batchRowid batch hold]
      exact (batchRowid_le hold).trans hbelow.le
    · obtain rfl := mem_singleton.mp hlast
      exact hrow ▸ hbelow
  · intro hsealed
    have hlast : batch.row ∈ (j.write batch).tables.batches := by simp [hbatches]
    refine hnone ((hsealed batch.row hlast horigin).mono ?_)
    rw [henvelopes]
    exact fun _ => id

/-- Opening a store seals every batch. -/
theorem fromConnection_sealedThrough {tables : Tables} (hopen : tables.SealsNew build
      (tables.batches.filter fun batch => ∀ e ∈ tables.envelopes, e.batchId ≠ some batch.id))
    (batchRowid : String → ℕ) : (fromConnection build tables batchRowid).SealedThrough := by
  obtain ⟨hbatches, hsub, hall⟩ := foldl_sealBatch hopen
  intro b hb _
  by_cases henvelope : tables.HasEnvelope b.id
  · exact henvelope.mono hsub
  · refine hall b (mem_filter.mpr ⟨hbatches ▸ hb, decide_eq_true ?_⟩)
    exact fun e he heq => henvelope ⟨e, he, heq⟩

end Journal

/-- **Every pass seals** the batches of this node exactly when each was written above the cursor. -/
theorem everyPassSeals_iff (build : Build) (origin : String) (tables : Tables)
    (batchRowid : String → ℕ) (events : List JournalEvent)
    (hopen : tables.SealsNew build
      (tables.batches.filter fun batch => ∀ e ∈ tables.envelopes, e.batchId ≠ some batch.id))
    (hfits : Along (Journal.apply build) (Journal.Fits build origin)
      (.fromConnection build tables batchRowid) events) :
    (Journal.fromConnection build tables batchRowid).EveryPassSeals build origin events ↔
      Along (Journal.apply build) Journal.AboveCursor
        (.fromConnection build tables batchRowid) events := by
  constructor
  · intro h
    rw [along_iff_forall]
    rintro before event rest rfl hwrite
    by_contra hbelow
    cases event with
    | write batch =>
      have hstep := (along_append.mp hfits).2.1
      obtain ⟨hpass, hopen⟩ := Journal.write_not_sealed hstep (not_le.mp hbelow)
      have hrun : ((Journal.fromConnection build tables batchRowid).run build
          (before ++ [.write batch])) = (List.foldl (Journal.apply build)
            (.fromConnection build tables batchRowid) before).write batch := by
        rw [Journal.run, foldl_append]
        rfl
      have hsealed := h (before ++ [.write batch]) [] rest (by simp) (by simp)
      rw [append_nil, hrun] at hsealed
      exact hopen (hsealed hpass)
    | receive _ | record _ _ | keepOnly _ _ | trim _ _ | sealChunk _ => cases hwrite
  · rintro habove before during rest rfl hquiet hpass
    rw [← append_assoc] at hfits habove
    exact Journal.pass_seals (along_append.mp hfits).1 (along_append.mp habove).1 hquiet
      (Journal.fromConnection_sealedThrough hopen batchRowid) hpass

/-! ### A drop of the newest row -/

/-- The envelope of a peer's observation. -/
def peerEnvelope (sequence : ℕ) : ReplicaEnvelope :=
  (observerNode []).sealedEnvelope sampleBuild (observationBatch [] sequence).row

/-- A batch of node `b`. -/
def ownBatch (sequence : ℕ) : ReplicaBatch :=
  let id := "batch/b/" ++ toString sequence ++ "/header"
  ⟨id, "b", sequence, none, "header", 200, [{ observation [] sequence with
    id := "own" ++ toString sequence, batchId := id, subject := "resource/own", origin := "b"
    acceptedAtUnixMs := 200 }]⟩

/-- Node `b` before it has written anything. -/
def newNode : Journal := .fromConnection sampleBuild {} fun _ => 0

/-- Node `b` writes a batch, and admits the second observation of a peer before the first. -/
def twoObservations : List JournalEvent :=
  [.write (ownBatch 11), .sealChunk 1, .receive (peerEnvelope 2), .receive (peerEnvelope 1),
    .sealChunk 3]

/-- What the checkpoint of its log drops. -/
def observationDrop : DropPlan Replication.transcript :=
  planDrops Replication.transcript observationSchema
    ((newNode.run sampleBuild twoObservations).tables.sealedSetThrough 100 none)

/-- Its batch and a later one are sealed, when the later one is written before the drop. -/
theorem everyPassSeals_write_first : newNode.EveryPassSeals sampleBuild "b" (twoObservations ++
      [.write (ownBatch 12), .sealChunk 4, .record observationDrop.envelopes observationDrop.claims,
        .trim observationDrop.envelopes observationDrop.claims]) :=
  (everyPassSeals_iff sampleBuild "b" {} _ _ (by decide +kernel) (by decide +kernel)).mpr
    (by decide +kernel)

/-- **The drop of the newest row** lets the next batch take a row the cursor has passed: the pass
after it returns at once, and the batch has no envelope. -/
theorem write_below_cursor : let events := twoObservations ++
      [.record observationDrop.envelopes observationDrop.claims,
        .trim observationDrop.envelopes observationDrop.claims, .write (ownBatch 12)]
    let node := newNode.run sampleBuild events
    Along (Journal.apply sampleBuild) (Journal.Fits sampleBuild "b") newNode events ∧
      observationDrop.claims.map ClaimTombstone.id = ["claim1"] ∧
      node.seededBatchRowid = 3 ∧ node.batchRowid (ownBatch 12).id = 3 ∧
      node.maxBatchRowid ≤ node.seededBatchRowid ∧ ¬ node.Sealed "b" := by
  decide +kernel

end SmallTalk.Checkpoint
