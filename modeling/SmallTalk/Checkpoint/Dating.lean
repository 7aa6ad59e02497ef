import SmallTalk.Checkpoint.Agreement
import SmallTalk.Checkpoint.Protocol
import SmallTalk.Checkpoint.TrimPass
import SmallTalk.Data.JsonText

/-!
# Checkpoint — sequences and dates of a writer

A node numbers and dates each batch it writes by what its tables hold at that moment: one more than
its highest batch, at the clock, but not before the cut of a checkpoint it has a row for, nor before
its newest batch. A trim deletes batches. It never deletes the newest, because a plan drops an
envelope only when a later one of the same writer is sealed with it (`planDrops_older`); so what the
node reads still tells it everything it needs.

* `sequences_and_dates`: over every run the sequences increase and the dates never decrease.
-/

namespace SmallTalk.Checkpoint

open List Replication Runs Sorted

/-- The id of a batch. -/
def batchName (origin : String) (sequence : ℕ) (hash : String) : String :=
  "batch/" ++ origin ++ "/" ++ toString sequence ++ "/" ++ hash

/-- A node that writes under one name: its log, its checkpoints with their cuts, and the floor it
took when it joined. `written` are the sequences and dates of its batches in the order it wrote
them, and `seals` are the cuts it sealed, with how many batches it had written before. -/
structure WriterNode where
  tables : Tables := {}
  checkpoints : TreeMap String ℕ := .empty
  writerFloor : ℕ := 0
  written : List (ℕ × ℕ) := []
  seals : List (ℕ × ℕ) := []

namespace WriterNode

variable (build : Build) (origin : String) (node : WriterNode)

def ownBatches : List BatchRow :=
  node.tables.batches.filter fun b => b.origin = origin

/-- One past the writer's highest batch, and past its floor. -/
def nextReplicaSequence : ℕ :=
  max (((node.ownBatches origin).map BatchRow.replicaSequence).foldr max 0) node.writerFloor + 1

/-- The writer's batch of the highest sequence. -/
def newestOwn : Option BatchRow :=
  (node.ownBatches origin).argmax BatchRow.replicaSequence

/-- The clock, but never before the cut of a checkpoint and never before the newest batch. -/
def writeTime (clock : ℕ) : ℕ :=
  max (max clock ((node.checkpoints.entries.map Prod.snd).foldr max 0))
    (((node.newestOwn origin).map BatchRow.acceptedAtUnixMs).getD 0)

/-- The batch that the node's next claims go in. -/
def nextBatch (clock : ℕ) (claims : List ClaimRecord) : ReplicaBatch :=
  let now := node.writeTime origin clock
  let sequence := node.nextReplicaSequence origin
  let previousHash := (node.newestOwn origin).map BatchRow.hash
  let hash := build.headerHash origin sequence previousHash now
  let id := batchName origin sequence hash
  ⟨id, origin, sequence, previousHash, hash, now, claims.map fun claim =>
    { claim with batchId := id, origin := origin, acceptedAtUnixMs := now }⟩

/-- Append claims. An id that is taken fails the insert. -/
def write (clock : ℕ) (claims : List ClaimRecord) : WriterNode :=
  let batch := node.nextBatch build origin clock claims
  if ∃ b ∈ node.tables.batches, b.id = batch.id then node
  else { node with
    tables := node.tables.appendBatch batch
    written := node.written ++ [(batch.replicaSequence, batch.acceptedAtUnixMs)] }

/-- The row of a checkpoint. A row that is there keeps its cut. -/
def recordCheckpoint (checkpointName : ℕ → String) (node : WriterNode) (cut : ℕ) : WriterNode :=
  { node with checkpoints := node.checkpoints.orInsert (checkpointName cut) cut }

/-- `publish_seal`: the floor first, then the seal. -/
def publishSeal (checkpointName : ℕ → String) (node : WriterNode) (cut clock : ℕ)
    (claims : List ClaimRecord) : WriterNode :=
  let floored := node.recordCheckpoint checkpointName cut
  { floored.write build origin clock claims with
    seals := node.seals ++ [(cut, node.written.length)] }

end WriterNode

/-- What happens on the node, one transaction each. `enclose` seals one batch of its own, `trim`
and `adopt` record tombstones, and `delete` deletes rows they stand for. -/
inductive WriterEvent where
  | write (clock : ℕ) (claims : List ClaimRecord)
  | publishSeal (day clock : ℕ) (claims : List ClaimRecord)
  | enclose (batch : BatchRow)
  | receive (envelope : ReplicaEnvelope)
  | trim (cut : ℕ) (sealRowid : Option ℕ)
  | adopt (cut : ℕ) (envelopes : List EnvelopeTombstone) (claims : List ClaimTombstone)
  | delete (envelopes : List EnvelopeTombstone) (claims : List ClaimTombstone)

section

variable (H : Hasher) (registry : Registry) (build : Build) (checkpointName : ℕ → String)
  (origin : String)

def WriterNode.apply (node : WriterNode) : WriterEvent → WriterNode
  | .write clock claims => node.write build origin clock claims
  | .publishSeal day clock claims =>
    node.publishSeal build origin checkpointName (day * dayMs) clock claims
  | .enclose batch => { node with tables := node.tables.sealBatch build batch }
  | .receive envelope => { node with tables := node.tables.receive build envelope }
  | .trim cut sealRowid =>
    let plan := planDrops H registry (node.tables.sealedSetThrough cut sealRowid)
    { node.recordCheckpoint checkpointName cut with
      tables := node.tables.recordCheckpointTombstones plan.envelopes plan.claims }
  | .adopt cut envelopes claims =>
    { node.recordCheckpoint checkpointName cut with
      tables := (node.tables.keepOnlyTombstones envelopes claims).recordCheckpointTombstones
        envelopes claims }
  | .delete envelopes claims =>
    { node with tables := node.tables.deleteDroppedRows envelopes claims }

/-- The tombstones of a chain of plans, each over envelopes of which the writer's own are ones it
wrote. Nodes may plan with different schemas. -/
inductive Planned (written : List (ℕ × ℕ)) : List EnvelopeTombstone → Prop where
  | start : Planned written []
  | plan (registry : Registry) (sealed : SealedSet)
      (hearlier : Planned written sealed.envelopeTombstones)
      (hown : ∀ e ∈ sealed.envelopes, e.key.writer = origin →
        ∃ w ∈ written, e.key.sequence ≤ w.1) :
      Planned written (sealed.envelopeTombstones ++ (planDrops H registry sealed).envelopes)

/-- What the program sees to. A node seals its own batches. Peers send, of its envelopes, those it
wrote, and manifests that plans made. A pass deletes rows that tombstones stand for. -/
def WriterNode.Fits (node : WriterNode) : WriterEvent → Prop
  | .enclose batch => batch ∈ node.tables.batches
  | .receive envelope => envelope.writer = origin →
      (envelope.sequence, envelope.acceptedAtUnixMs) ∈ node.written
  | .adopt _ envelopes _ => ∃ manifest, Planned H origin node.written manifest ∧
      envelopes ⊆ manifest
  | .delete envelopes claims => envelopes ⊆ node.tables.checkpointEnvelopes ∧
      claims ⊆ node.tables.checkpointClaims
  | _ => True

end

/-! ### What a plan drops of a writer -/

/-- A plan drops an envelope only when a later one of the same writer is sealed with it. -/
theorem planDrops_older {H : Hasher} {registry : Registry} {sealed : SealedSet}
    {d : EnvelopeTombstone} (hd : d ∈ (planDrops H registry sealed).envelopes) :
    ∃ e ∈ sealed.envelopes, e.key.writer = d.writer ∧ d.sequence < e.key.sequence := by
  obtain ⟨e, he, rfl⟩ : ∃ e ∈ sealed.envelopes, envelopeTombstone e = d := by
    simp only [planDrops, mem_sortedSet, mem_map, mem_filter] at hd
    obtain ⟨e, ⟨he, -⟩, heq⟩ := hd
    exact ⟨e, he, heq⟩
  obtain ⟨i, hi, hkey⟩ := (envelopeTombstone_mem_iff he).mp hd
  obtain ⟨later, hlater, hwriter, hsequence⟩ := (unguarded_of_dropped hi).notNewest
  rw [hkey] at hwriter hsequence
  exact ⟨later, hlater, hwriter, hsequence⟩

/-- The tombstones that plans made of a writer are older than something it wrote. -/
theorem Planned.older {H : Hasher} {origin : String} {written : List (ℕ × ℕ)}
    {manifest : List EnvelopeTombstone} (h : Planned H origin written manifest) :
    ∀ d ∈ manifest, d.writer = origin → ∃ w ∈ written, d.sequence < w.1 := by
  induction h with
  | start => simp
  | plan registry sealed _ hown ih =>
    intro d hd hwriter
    rcases mem_append.mp hd with hd | hd
    · exact ih d hd hwriter
    · obtain ⟨e, he, hsame, hlt⟩ := planDrops_older hd
      obtain ⟨w, hw, hle⟩ := hown e he (hsame.trans hwriter)
      exact ⟨w, hw, hlt.trans_le hle⟩

/-! ### Ids of batches -/

theorem append_slash_inj {a a' h h' : List Char} (hh : '/' ∉ h) (hh' : '/' ∉ h')
    (heq : a ++ '/' :: h = a' ++ '/' :: h') : a = a' ∧ h = h' := by
  rcases append_eq_append_iff.mp heq with ⟨c, hc, hrest⟩ | ⟨c, hc, hrest⟩
  · cases c <;> simp_all
  · cases c <;> simp_all

/-- An id tells the writer and the sequence of its batch, where hashes have no slash. -/
theorem batchName_inj {origin origin' hash hash' : String} {sequence sequence' : ℕ}
    (hhash : '/' ∉ hash.toList) (hhash' : '/' ∉ hash'.toList)
    (h : batchName origin sequence hash = batchName origin' sequence' hash') :
    origin = origin' ∧ sequence = sequence' := by
  have hslash : ∀ n : ℕ, '/' ∉ (toString n).toList := by
    intro n hmem
    have hdigit := Json.isDigit_of_mem_repr hmem
    revert hdigit
    decide
  have hchars := congrArg String.toList h
  simp only [batchName, String.toList_append, append_assoc] at hchars
  have hcut : ∀ (o : String) (n : ℕ) (x : String), "batch/".toList ++ (o.toList ++ ("/".toList ++
      ((toString n).toList ++ ("/".toList ++ x.toList)))) =
        (("batch/".toList ++ o.toList) ++ '/' :: (toString n).toList) ++ '/' :: x.toList := by
    intro o n x
    simp
  rw [hcut, hcut] at hchars
  obtain ⟨hfront, -⟩ := append_slash_inj hhash hhash' hchars
  obtain ⟨horigin, hsequence⟩ := append_slash_inj (hslash _) (hslash _) hfront
  refine ⟨String.toList_inj.mp (append_cancel_left horigin), ?_⟩
  exact Json.decimal_inj (String.toList_inj.mp hsequence)

/-! ### What every run keeps -/

/-- A day has one name. Names of cuts of different days differ. -/
def DayNames (checkpointName : ℕ → String) : Prop :=
  ∀ cut cut', checkpointName cut = checkpointName cut' → cut / dayMs = cut' / dayMs

/-- Hashes of batches are written without a slash. -/
def Build.PlainHashes (build : Build) : Prop :=
  ∀ origin sequence previous accepted,
    '/' ∉ (build.headerHash origin sequence previous accepted).toList

/-- The rows of the writer are batches it wrote, its newest one among them; its tombstones are older
than something it wrote; and an envelope names the batch of its writer and sequence. -/
structure Tables.Attests (origin : String) (written : List (ℕ × ℕ)) (t : Tables) : Prop where
  rows : ∀ b ∈ t.batches, b.origin = origin → (b.replicaSequence, b.acceptedAtUnixMs) ∈ written
  newest : ∀ w, written.getLast? = some w → ∃ b ∈ t.batches,
    b.origin = origin ∧ (b.replicaSequence, b.acceptedAtUnixMs) = w
  named : ∀ b ∈ t.batches, b.id = batchName b.origin b.replicaSequence b.hash ∧
    '/' ∉ b.hash.toList
  enclosed : ∀ e ∈ t.envelopes, ∀ id, e.batchId = some id →
    ∃ hash, id = batchName e.key.writer e.key.sequence hash ∧ '/' ∉ hash.toList
  sent : ∀ e ∈ t.envelopes, e.key.writer = origin → ∃ w ∈ written, e.key.sequence ≤ w.1
  older : ∀ d ∈ t.checkpointEnvelopes, d.writer = origin → ∃ w ∈ written, d.sequence < w.1

/-- The history increases, the tables attest it, and a seal's cut is below every later date. -/
structure WriterNode.Steady (checkpointName : ℕ → String) (origin : String) (node : WriterNode) :
    Prop where
  sorted : node.written.Pairwise fun a b => a.1 < b.1 ∧ a.2 ≤ b.2
  tables : node.tables.Attests origin node.written
  floors : ∀ id cut, node.checkpoints.get id = some cut → id = checkpointName cut
  sealed : ∀ s ∈ node.seals, (∃ id cut, node.checkpoints.get id = some cut ∧ s.1 ≤ cut) ∧
    s.2 ≤ node.written.length ∧ ∀ w ∈ node.written.drop s.2, s.1 ≤ w.2

section

variable {written : List (ℕ × ℕ)} {w last : ℕ × ℕ}
  (hsorted : written.Pairwise fun a b => a.1 < b.1 ∧ a.2 ≤ b.2) (hw : w ∈ written)
  (hlast : written.getLast? = some last)

include hw

theorem exists_newest : ∃ last, written.getLast? = some last :=
  ⟨_, getLast?_eq_some_getLast (ne_nil_of_mem hw)⟩

include hsorted hlast

/-- In a history that increases, the last entry is the greatest. -/
theorem le_getLast : w = last ∨ w.1 < last.1 ∧ w.2 ≤ last.2 := by
  obtain ⟨front, rfl⟩ := getLast?_eq_some_iff.mp hlast
  rcases mem_append.mp hw with hw | hw
  · exact .inr ((pairwise_append.mp hsorted).2.2 w hw last (mem_singleton_self _))
  · exact .inl (mem_singleton.mp hw)

theorem le_newest : w.1 ≤ last.1 ∧ w.2 ≤ last.2 := by
  rcases le_getLast hsorted hw hlast with rfl | hlt
  · exact ⟨le_rfl, le_rfl⟩
  · exact ⟨hlt.1.le, hlt.2⟩

end

/-! ### The tables -/

namespace Tables

variable {build : Build} {origin : String} {written : List (ℕ × ℕ)} {t : Tables}

theorem foldl_insertClaim_tombstones (claims : List ClaimRecord) (t : Tables) :
    (claims.foldl insertClaim t).checkpointEnvelopes = t.checkpointEnvelopes := by
  refine foldlRecOn (motive := fun t' : Tables => t'.checkpointEnvelopes = t.checkpointEnvelopes)
    claims _ rfl fun t' ht' claim _ => ?_
  obtain ⟨rows, distinct, heq⟩ := t'.insertClaim_eq claim
  rw [heq, ← ht']

theorem appendBatch_tombstones (t : Tables) (batch : ReplicaBatch) :
    (t.appendBatch batch).checkpointEnvelopes = t.checkpointEnvelopes := by
  rw [appendBatch, foldl_insertClaim_tombstones]
  unfold insertBatch
  split <;> rfl

theorem sealBatch_tombstones (build : Build) (t : Tables) (batch : BatchRow) :
    (t.sealBatch build batch).checkpointEnvelopes = t.checkpointEnvelopes := by
  obtain ⟨records, heq⟩ := t.sealBatch_eq build batch
  obtain ⟨rows, distinct, heq'⟩ := t.insertEnvelope_eq (t.sealedEnvelope build batch).key
    (t.sealedEnvelope build batch).acceptedAtUnixMs (some batch.id)
  rw [heq, heq']

theorem receive_tombstones (build : Build) (t : Tables) (envelope : ReplicaEnvelope) :
    (t.receive build envelope).checkpointEnvelopes = t.checkpointEnvelopes := by
  by_cases hdropped : envelope.key ∈ t.droppedKeys
  · rw [receive, if_pos (.inl hdropped)]
  by_cases hheld : envelope.key ∈ t.heldKeys
  · rw [receive, if_pos (.inr hheld)]
  rw [receive_eq_admitEnvelope build hdropped hheld,
    (admitEnvelope_grows build _ envelope).envelopeTombstones, receipt, if_neg hdropped]
  obtain ⟨rows, distinct, heq⟩ :=
    t.insertEnvelope_eq envelope.key envelope.acceptedAtUnixMs none
  rw [heq]

namespace Attests

variable (h : t.Attests origin written)

include h

/-- Rows may come if the writer's are of what it wrote, batches have their names, and envelopes name
the batch of their writer and sequence. -/
theorem grow {t' : Tables} (hkept : t.batches ⊆ t'.batches)
    (hbatches : ∀ b ∈ t'.batches, b ∈ t.batches ∨
      (b.origin = origin → (b.replicaSequence, b.acceptedAtUnixMs) ∈ written) ∧
        b.id = batchName b.origin b.replicaSequence b.hash ∧ '/' ∉ b.hash.toList)
    (henvelopes : ∀ e ∈ t'.envelopes, e ∈ t.envelopes ∨
      (∀ id, e.batchId = some id →
        ∃ hash, id = batchName e.key.writer e.key.sequence hash ∧ '/' ∉ hash.toList) ∧
      (e.key.writer = origin → ∃ w ∈ written, e.key.sequence ≤ w.1))
    (htombstones : t'.checkpointEnvelopes = t.checkpointEnvelopes) : t'.Attests origin written where
  rows b hb := (hbatches b hb).elim (h.rows b) And.left
  newest w hw := by
    obtain ⟨b, hb, hrest⟩ := h.newest w hw
    exact ⟨b, hkept hb, hrest⟩
  named b hb := (hbatches b hb).elim (h.named b) And.right
  enclosed e he := (henvelopes e he).elim (h.enclosed e) And.left
  sent e he := (henvelopes e he).elim (h.sent e) And.right
  older := htombstones ▸ h.older

/-- A batch of the writer gets its envelope. -/
theorem enclose {batch : BatchRow} (hbatch : batch ∈ t.batches) :
    (t.sealBatch build batch).Attests origin written := by
  have hbatches := t.sealBatch_batches build batch
  refine h.grow (hbatches ▸ List.Subset.refl _) (fun b hb => .inl (hbatches ▸ hb)) (fun e he => ?_)
    (t.sealBatch_tombstones build batch)
  by_cases hkey : (t.sealedEnvelope build batch).key ∈ t.envelopes.map EnvelopeRow.key
  · obtain ⟨records, heq⟩ := t.sealBatch_eq build batch
    rw [heq, insertEnvelope, dif_pos hkey] at he
    exact .inl he
  · rw [sealBatch_envelopes hkey] at he
    refine (mem_append.mp he).imp_right fun hnew => ?_
    obtain rfl := mem_singleton.mp hnew
    obtain ⟨hname, hplain⟩ := h.named batch hbatch
    refine ⟨fun id hid => ?_, fun hwriter => ⟨_, h.rows batch hbatch hwriter, le_rfl⟩⟩
    obtain rfl := Option.some.inj hid
    exact ⟨batch.hash, hname, hplain⟩

/-- An envelope of a peer, or one of the writer that it wrote. -/
theorem receive (hplain : build.PlainHashes)
    {envelope : ReplicaEnvelope} (hown : envelope.writer = origin →
      (envelope.sequence, envelope.acceptedAtUnixMs) ∈ written) :
    (t.receive build envelope).Attests origin written := by
  have htombstones := t.receive_tombstones build envelope
  have hsent : envelope.writer = origin → ∃ w ∈ written, envelope.sequence ≤ w.1 :=
    fun hwriter => ⟨_, hown hwriter, le_rfl⟩
  rcases receive_heads build t envelope with
    hsame | ⟨_, ⟨hbatches, henvelopes⟩ | ⟨hverified, hbatches, henvelopes⟩⟩
  · exact h.grow (hsame.1 ▸ List.Subset.refl _) (fun b hb => .inl (hsame.1 ▸ hb))
      (fun e he => .inl (hsame.2 ▸ he)) htombstones
  · refine h.grow (hbatches ▸ List.Subset.refl _) (fun b hb => .inl (hbatches ▸ hb))
      (fun e he => ?_) htombstones
    rw [henvelopes] at he
    refine (mem_append.mp he).imp_right fun hnew => ?_
    obtain rfl := mem_singleton.mp hnew
    exact ⟨nofun, hsent⟩
  · obtain ⟨-, ⟨horigin, hsequence, -, haccepted⟩, hheader, hid⟩ := hverified
    have hhash : '/' ∉ envelope.payload.batch.hash.toList := hheader ▸ hplain _ _ _ _
    refine h.grow ?_ (fun b hb => ?_) (fun e he => ?_) htombstones
    · rw [hbatches]
      unfold insertBatch
      split
      · exact List.Subset.refl _
      · exact subset_append_left _ _
    · rw [hbatches] at hb
      refine (mem_insertBatch hb).imp_right fun hnew => ?_
      subst hnew
      refine ⟨fun hwriter => ?_, hid, hhash⟩
      have hmem := hown (horigin.symm.trans hwriter)
      rwa [← hsequence, ← haccepted] at hmem
    · rw [henvelopes] at he
      refine (mem_append.mp he).imp_right fun hnew => ?_
      obtain rfl := mem_singleton.mp hnew
      refine ⟨fun id hid' => ⟨envelope.payload.batch.hash, ?_, hhash⟩, hsent⟩
      obtain rfl := Option.some.inj hid'
      show envelope.payload.batch.id = batchName envelope.writer envelope.sequence _
      rwa [← horigin, ← hsequence]

/-- A batch that the writer adds. -/
theorem append {t' : Tables} {row : BatchRow} (horigin : row.origin = origin)
    (hname : row.id = batchName row.origin row.replicaSequence row.hash)
    (hplain : '/' ∉ row.hash.toList) (hbatches : t'.batches = t.batches ++ [row])
    (henvelopes : t'.envelopes = t.envelopes)
    (htombstones : t'.checkpointEnvelopes = t.checkpointEnvelopes) :
    t'.Attests origin (written ++ [(row.replicaSequence, row.acceptedAtUnixMs)]) := by
  have hlater : ∀ {P : ℕ × ℕ → Prop}, (∃ w ∈ written, P w) →
      ∃ w ∈ written ++ [(row.replicaSequence, row.acceptedAtUnixMs)], P w :=
    fun ⟨w, hw, hP⟩ => ⟨w, mem_append_left _ hw, hP⟩
  have hrow : ∀ b ∈ t'.batches, b ∈ t.batches ∨ b = row := by
    intro b hb
    rw [hbatches] at hb
    exact (mem_append.mp hb).imp_right mem_singleton.mp
  refine ⟨fun b hb hb' => ?_, fun w hw => ?_, fun b hb => ?_, henvelopes ▸ h.enclosed,
    fun e he hwriter => hlater (h.sent e (henvelopes ▸ he) hwriter),
    fun d hd hwriter => hlater (h.older d (htombstones ▸ hd) hwriter)⟩
  · rcases hrow b hb with hold | rfl
    · exact mem_append_left _ (h.rows b hold hb')
    · exact mem_append_right _ (mem_singleton_self _)
  · obtain rfl : _ = w := Option.some.inj (getLast?_concat.symm.trans hw)
    rw [hbatches]
    exact ⟨row, mem_append_right _ (mem_singleton_self _), horigin, rfl⟩
  · rcases hrow b hb with hold | rfl
    · exact h.named b hold
    · exact ⟨hname, hplain⟩

/-- Tombstones of envelopes older than something the writer wrote. -/
theorem record {envelopes : List EnvelopeTombstone}
    (holder : ∀ d ∈ envelopes, d.writer = origin → ∃ w ∈ written, d.sequence < w.1)
    (claims : List ClaimTombstone) :
    (t.recordCheckpointTombstones envelopes claims).Attests origin written := by
  have hr := t.recordCheckpointTombstones_recorded envelopes claims
  refine ⟨hr.batches ▸ h.rows, hr.batches ▸ h.newest, hr.batches ▸ h.named,
    hr.envelopes_eq ▸ h.enclosed, hr.envelopes_eq ▸ h.sent, fun d hd hwriter => ?_⟩
  rcases hr.envelopes_from d hd with hold | hnew
  · exact h.older d hold hwriter
  · exact holder d hnew hwriter

theorem keepOnly (envelopes : List EnvelopeTombstone)
    (claims : List ClaimTombstone) : (t.keepOnlyTombstones envelopes claims).Attests origin written :=
  { h with older := fun d hd => h.older d (mem_filter.mp hd).1 }

/-- **A pass keeps the newest batch**: no tombstone stands for an envelope of it. -/
theorem deleted
    (hsorted : written.Pairwise fun a b => a.1 < b.1 ∧ a.2 ≤ b.2)
    {envelopes : List EnvelopeTombstone} (hdropped : envelopes ⊆ t.checkpointEnvelopes)
    (claims : List ClaimTombstone) :
    (t.deleteDroppedRows envelopes claims).Attests origin written := by
  rw [deleteDroppedRows_eq]
  refine ⟨fun b hb => h.rows b (mem_filter.mp hb).1, fun w hw => ?_,
    fun b hb => h.named b (mem_filter.mp hb).1,
    fun e he => h.enclosed e (mem_filter.mp he).1,
    fun e he => h.sent e (mem_filter.mp he).1, h.older⟩
  obtain ⟨b, hb, horigin, rfl⟩ := h.newest w hw
  refine ⟨b, mem_filter.mpr ⟨hb, decide_eq_true fun horphan => ?_⟩, horigin, rfl⟩
  obtain ⟨-, ⟨e, he, hbatch, hkey⟩, -⟩ := horphan
  obtain ⟨d, hd, hkey⟩ := mem_map.mp hkey
  obtain ⟨hash, hid, hplain⟩ := h.enclosed e he b.id hbatch
  obtain ⟨hname, hplain'⟩ := h.named b hb
  obtain ⟨hwriter, hsequence⟩ := batchName_inj hplain' hplain (hname.symm.trans hid)
  have hdwriter : d.writer = origin :=
    (congrArg Replication.ReplicaEnvelopeId.writer hkey).trans (hwriter.symm.trans horigin)
  have hdsequence : d.sequence = b.replicaSequence :=
    (congrArg Replication.ReplicaEnvelopeId.sequence hkey).trans hsequence.symm
  obtain ⟨w', hw', hlt⟩ := h.older d (hdropped hd) hdwriter
  rw [hdsequence] at hlt
  exact lt_irrefl _ (hlt.trans_le (le_newest hsorted hw' hw).1)

end Attests

end Tables

/-! ### Writes -/

namespace WriterNode

variable {build : Build} {checkpointName : ℕ → String} {origin : String} {node : WriterNode}

theorem mem_ownBatches {b : BatchRow} :
    b ∈ node.ownBatches origin ↔ b ∈ node.tables.batches ∧ b.origin = origin := by
  rw [ownBatches, mem_filter, decide_eq_true_eq]

theorem sequence_lt_next {b : BatchRow} (hb : b ∈ node.tables.batches)
    (horigin : b.origin = origin) :
    b.replicaSequence < node.nextReplicaSequence origin := by
  have hmem := mem_map_of_mem (f := BatchRow.replicaSequence)
    (mem_ownBatches.mpr ⟨hb, horigin⟩)
  exact Nat.lt_succ_of_le ((le_foldr_max hmem 0).trans (le_max_left _ _))

section

variable (h : node.Steady checkpointName origin)

include h

/-- Every sequence written is below the next. -/
theorem Steady.lt_next {w : ℕ × ℕ}
    (hw : w ∈ node.written) : w.1 < node.nextReplicaSequence origin := by
  obtain ⟨last, hlast⟩ := exists_newest hw
  obtain ⟨b, hb, horigin, rfl⟩ := h.tables.newest last hlast
  exact (le_newest h.sorted hw hlast).1.trans_lt (sequence_lt_next hb horigin)

/-- No date written is after the next. -/
theorem Steady.le_writeTime {w : ℕ × ℕ}
    (hw : w ∈ node.written) (clock : ℕ) : w.2 ≤ node.writeTime origin clock := by
  obtain ⟨last, hlast⟩ := exists_newest hw
  obtain ⟨b, hb, horigin, hlastb⟩ := h.tables.newest last hlast
  have hmem := mem_ownBatches.mpr ⟨hb, horigin⟩
  cases hnewest : node.newestOwn origin with
  | none => rw [argmax_eq_none.mp hnewest] at hmem; cases hmem
  | some top =>
    have htop := argmax_mem hnewest
    have hge := le_of_mem_argmax hmem hnewest
    obtain ⟨htop, htoporigin⟩ := mem_ownBatches.mp htop
    -- The row of the highest sequence is the last batch written.
    have hsame : (top.replicaSequence, top.acceptedAtUnixMs) = last := by
      rcases le_getLast h.sorted (h.tables.rows top htop htoporigin) hlast with heq | hlt
      · exact heq
      · rw [← hlastb] at hlt
        exact absurd hlt.1 hge.not_gt
    have hle := (le_newest h.sorted hw hlast).2
    rw [← hsame] at hle
    rw [writeTime, hnewest]
    exact hle.trans (le_max_right _ _)

omit h in
theorem floor_le_writeTime {id : String} {cut : ℕ} (hcut : node.checkpoints.get id = some cut)
    (clock : ℕ) : cut ≤ node.writeTime origin clock := by
  have hmem := mem_map_of_mem (f := Prod.snd) (TreeMap.mem_entries.mpr hcut)
  exact (le_foldr_max hmem 0).trans ((le_max_right _ _).trans (le_max_left _ _))

omit h in
/-- The node after a batch is dated, numbered and stored. -/
theorem write_cases (build : Build) (origin : String) (node : WriterNode) (clock : ℕ)
    (claims : List ClaimRecord) :
    node.write build origin clock claims = node ∨ ∃ tables : Tables,
      node.write build origin clock claims = { node with
        tables
        written := node.written ++
          [(node.nextReplicaSequence origin, node.writeTime origin clock)] } ∧
      tables.batches = node.tables.batches ++ [(node.nextBatch build origin clock claims).row] ∧
      tables.envelopes = node.tables.envelopes ∧
      tables.checkpointEnvelopes = node.tables.checkpointEnvelopes := by
  by_cases htaken : ∃ b ∈ node.tables.batches,
      b.id = (node.nextBatch build origin clock claims).id
  · exact .inl (if_pos htaken)
  have hheads := node.tables.appendBatch_heads (node.nextBatch build origin clock claims)
  exact .inr ⟨_, if_neg htaken, hheads.1.trans (congrArg Tables.batches (if_neg htaken)),
    hheads.2.trans (Tables.insertBatch_envelopes _ _), Tables.appendBatch_tombstones _ _⟩

theorem Steady.write (hplain : build.PlainHashes) (clock : ℕ) (claims : List ClaimRecord) :
    (node.write build origin clock claims).Steady checkpointName origin := by
  rcases write_cases build origin node clock claims with
    hsame | ⟨tables, heq, hbatches, henvelopes, htombstones⟩
  · rwa [hsame]
  rw [heq]
  refine ⟨?_, h.tables.append rfl rfl (hplain _ _ _ _) hbatches henvelopes htombstones, h.floors,
    fun s hs => ?_⟩
  · refine pairwise_append.mpr ⟨h.sorted, pairwise_singleton _ _, fun w hw w' hw' => ?_⟩
    obtain rfl := mem_singleton.mp hw'
    exact ⟨h.lt_next hw, h.le_writeTime hw clock⟩
  · obtain ⟨⟨id, cut, hcut, hle⟩, hlength, hdates⟩ := h.sealed s hs
    refine ⟨⟨id, cut, hcut, hle⟩, by rw [length_append]; omega, fun w hw => ?_⟩
    rw [drop_append_of_le_length hlength] at hw
    rcases mem_append.mp hw with hold | hnew
    · exact hdates w hold
    · obtain rfl := mem_singleton.mp hnew
      exact hle.trans (floor_le_writeTime hcut clock)

/-! ### Checkpoints -/

theorem Steady.recordCheckpoint (cut : ℕ) :
    (node.recordCheckpoint checkpointName cut).Steady checkpointName origin := by
  have hget : ∀ id, (node.recordCheckpoint checkpointName cut).checkpoints.get id =
      if id = checkpointName cut then (node.checkpoints.get (checkpointName cut)).or (some cut)
      else node.checkpoints.get id := fun id => TreeMap.get_orInsert
  refine { h with floors := fun id cut' hid => ?_, sealed := fun s hs => ?_ }
  · rw [hget] at hid
    split at hid
    case isTrue heq =>
      cases hold : node.checkpoints.get (checkpointName cut) with
      | none =>
        rw [hold] at hid
        rw [heq, Option.some.inj hid]
      | some old =>
        rw [hold] at hid
        obtain rfl : old = cut' := Option.some.inj hid
        exact heq.trans (h.floors _ _ hold)
    case isFalse => exact h.floors id cut' hid
  · obtain ⟨⟨id, cut', hcut, hle⟩, hrest⟩ := h.sealed s hs
    refine ⟨⟨id, cut', ?_, hle⟩, hrest⟩
    rw [hget]
    split
    case isTrue heq => rw [← heq, hcut, Option.some_or]
    case isFalse => exact hcut

/-- The row of a checkpoint that starts its day has its cut, or a later one of the day. -/
theorem Steady.floor_recorded (hdays : DayNames checkpointName) (day : ℕ) :
    ∃ cut, (node.recordCheckpoint checkpointName (day * dayMs)).checkpoints.get
      (checkpointName (day * dayMs)) = some cut ∧ day * dayMs ≤ cut := by
  have hget : (node.recordCheckpoint checkpointName (day * dayMs)).checkpoints.get
      (checkpointName (day * dayMs)) =
        (node.checkpoints.get (checkpointName (day * dayMs))).or (some (day * dayMs)) :=
    TreeMap.get_orInsert.trans (if_pos rfl)
  cases hold : node.checkpoints.get (checkpointName (day * dayMs)) with
  | none => exact ⟨day * dayMs, by rw [hget, hold, Option.none_or], le_rfl⟩
  | some cut =>
    refine ⟨cut, by rw [hget, hold, Option.some_or], ?_⟩
    have hday := hdays _ _ (h.floors _ _ hold)
    rw [Nat.mul_div_cancel _ (by decide)] at hday
    exact hday ▸ Nat.div_mul_le_self cut dayMs

/-- A seal whose cut is a floor, and before every date from the `n`th on. -/
theorem Steady.addSeal {id : String} {cut floor n : ℕ}
    (hfloor : node.checkpoints.get id = some floor) (hle : cut ≤ floor)
    (hn : n ≤ node.written.length) (hdates : ∀ w ∈ node.written.drop n, cut ≤ w.2) :
    Steady checkpointName origin { node with seals := node.seals ++ [(cut, n)] } := by
  refine { h with sealed := fun s hs => ?_ }
  rcases mem_append.mp hs with hold | hnew
  · exact h.sealed s hold
  · obtain rfl := mem_singleton.mp hnew
    exact ⟨⟨id, floor, hfloor, hle⟩, hn, hdates⟩

/-- **A seal**: its batch and every later one is dated at its cut or after. -/
theorem Steady.publishSeal (hdays : DayNames checkpointName) (hplain : build.PlainHashes)
    (day clock : ℕ) (claims : List ClaimRecord) :
    (node.publishSeal build origin checkpointName (day * dayMs) clock claims).Steady
      checkpointName origin := by
  obtain ⟨cut, hcut, hle⟩ := h.floor_recorded hdays day
  have hwrite := (h.recordCheckpoint (day * dayMs)).write hplain clock claims
  unfold WriterNode.publishSeal
  dsimp only
  rcases write_cases build origin (node.recordCheckpoint checkpointName (day * dayMs)) clock
    claims with heq | ⟨tables, heq, -⟩
  · rw [heq] at hwrite ⊢
    refine hwrite.addSeal hcut hle le_rfl fun w hw => ?_
    change w ∈ drop node.written.length node.written at hw
    rw [drop_length] at hw
    cases hw
  · rw [heq] at hwrite ⊢
    refine hwrite.addSeal hcut hle (by rw [length_append]; exact Nat.le_add_right _ _) fun w hw => ?_
    change w ∈ drop node.written.length (node.written ++ [_]) at hw
    rw [drop_left] at hw
    obtain rfl := mem_singleton.mp hw
    exact hle.trans (floor_le_writeTime hcut clock)

/-! ### Runs -/

variable {H : Hasher} {registry : Registry}

/-- What a plan of the node's own drops is older than something it wrote. -/
theorem Steady.plan_older (cut : ℕ) (sealRowid : Option ℕ) :
    ∀ d ∈ (planDrops H registry (node.tables.sealedSetThrough cut sealRowid)).envelopes,
      d.writer = origin → ∃ w ∈ node.written, d.sequence < w.1 := by
  intro d hd hwriter
  obtain ⟨e, he, hsame, hlt⟩ := planDrops_older hd
  have hmem := (mem_insertionSort _).mp he
  rcases mem_append.mp hmem with hrow | hdropped
  · obtain ⟨row, hbefore, rfl⟩ := mem_map.mp hrow
    obtain ⟨w, hw, hle⟩ := h.tables.sent row (mem_filter.mp hbefore).1 (hsame.trans hwriter)
    exact ⟨w, hw, hlt.trans_le hle⟩
  · obtain ⟨d', hd', rfl⟩ := mem_map.mp hdropped
    obtain ⟨w, hw, hlt'⟩ := h.tables.older d' (mem_filter.mp hd').1 (hsame.trans hwriter)
    exact ⟨w, hw, lt_trans hlt hlt'⟩

theorem Steady.apply (hdays : DayNames checkpointName) (hplain : build.PlainHashes)
    {event : WriterEvent} (hfits : node.Fits H origin event) :
    (node.apply H registry build checkpointName origin event).Steady checkpointName origin := by
  cases event with
  | write clock claims => exact h.write hplain clock claims
  | publishSeal day clock claims => exact h.publishSeal hdays hplain day clock claims
  | enclose batch => exact { h with tables := h.tables.enclose hfits }
  | receive envelope => exact { h with tables := h.tables.receive hplain hfits }
  | trim cut sealRowid =>
    exact { h.recordCheckpoint cut with
      tables := h.tables.record (h.plan_older cut sealRowid) _ }
  | adopt cut envelopes claims =>
    obtain ⟨manifest, hplanned, hsub⟩ := hfits
    exact { h.recordCheckpoint cut with
      tables := (h.tables.keepOnly envelopes claims).record
        (fun d hd => hplanned.older d (hsub hd)) claims }
  | delete envelopes claims =>
    exact { h with tables := h.tables.deleted h.sorted hfits.1 claims }

end

theorem steady_start (floor : ℕ) : Steady checkpointName origin { writerFloor := floor } where
  sorted := .nil
  tables := by constructor <;> simp
  floors _ _ h := by cases h
  sealed := by simp

def run (H : Hasher) (registry : Registry) (build : Build) (checkpointName : ℕ → String)
    (origin : String) (floor : ℕ) (events : List WriterEvent) : WriterNode :=
  events.foldl (apply H registry build checkpointName origin) { writerFloor := floor }

/-- **Sequences and dates.**  Over every run of a node: the sequences of its batches strictly
increase and no row has any other, the dates never decrease, and every batch it wrote with a seal or
after it is dated at the seal's cut or later. -/
theorem sequences_and_dates (H : Hasher) (registry : Registry) (build : Build)
    (checkpointName : ℕ → String) (origin : String) (floor : ℕ) (events : List WriterEvent)
    (hdays : DayNames checkpointName) (hplain : build.PlainHashes)
    (hfits : Along (apply H registry build checkpointName origin) (Fits H origin)
      { writerFloor := floor } events) :
    let node := run H registry build checkpointName origin floor events
    node.written.Pairwise (fun a b => a.1 < b.1 ∧ a.2 ≤ b.2) ∧
      (∀ b ∈ node.tables.batches, b.origin = origin →
        (b.replicaSequence, b.acceptedAtUnixMs) ∈ node.written) ∧
      ∀ s ∈ node.seals, ∀ w ∈ node.written.drop s.2, s.1 ≤ w.2 := by
  intro node
  have h : node.Steady checkpointName origin :=
    hfits.invariant (fun _ _ hfits h => h.apply hdays hplain hfits) (steady_start floor)
  exact ⟨h.sorted, h.tables.rows, fun s hs => (h.sealed s hs).2.2⟩

end WriterNode

/-! ### A clock that jumps back -/

theorem dayNames_dayName : DayNames dayName := by
  intro cut cut' h
  have hchars := congrArg String.toList h
  simp only [dayName, String.toList_append] at hchars
  rw [Json.decimal_inj (String.toList_inj.mp (append_cancel_left hchars))]

theorem plainHashes_sampleBuild : sampleBuild.PlainHashes := by
  intro _ _ _ _
  show '/' ∉ "header".toList
  decide

/-- The clock reads 5, then 2, then 1; the seal and what follows are dated at the seal's cut. -/
def clockBack : List WriterEvent :=
  [.write 5 [], .publishSeal 3 2 [], .trim (3 * dayMs) none, .adopt (3 * dayMs) [] [],
    .delete [] [], .write 1 []]

theorem sequences_and_dates_clockBack :
    let node := WriterNode.run transcript observationSchema sampleBuild dayName "b" 0 clockBack
    node.written = [(1, 5), (2, 3 * dayMs), (3, 3 * dayMs)] ∧ node.seals = [(3 * dayMs, 1)] ∧
      ∀ s ∈ node.seals, ∀ w ∈ node.written.drop s.2, s.1 ≤ w.2 := by
  intro node
  have hrun : node.written = [(1, 5), (2, 3 * dayMs), (3, 3 * dayMs)] ∧
      node.seals = [(3 * dayMs, 1)] := by
    decide +kernel
  have hadopt : ∀ written, ∃ manifest, Planned transcript "b" written manifest ∧
      ([] : List EnvelopeTombstone) ⊆ manifest := fun _ => ⟨[], .start, List.Subset.refl _⟩
  refine ⟨hrun.1, hrun.2, ?_⟩
  refine (WriterNode.sequences_and_dates transcript observationSchema sampleBuild dayName "b" 0
    clockBack dayNames_dayName plainHashes_sampleBuild ?_).2.2
  exact ⟨trivial, trivial, trivial, hadopt _, ⟨nil_subset _, nil_subset _⟩, trivial, trivial⟩

end SmallTalk.Checkpoint
