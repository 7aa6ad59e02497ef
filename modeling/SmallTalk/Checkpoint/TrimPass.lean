import SmallTalk.Checkpoint.Trim
import SmallTalk.Lib.Runs

/-!
# Checkpoint — a trim, transaction by transaction

A trim or an adoption records its tombstones in one transaction. A pass (`finish_trim`) then
deletes what is left of the rows they stand for, the next envelope after its cursor with its claims,
until `nextTrimRows` finds none. A crash loses the cursor and nothing else, and the pass is run
again. Envelopes of peers are received and admitted between any two of these transactions.

A table of digests is kept by triggers. `sources` is what the digest of the claim sources sums up:
one row for each claim that is stored or dropped, less repaired ones.
-/

namespace SmallTalk.Checkpoint

open EnvelopeTombstone Tables List Runs

variable {claims : List ClaimTombstone} (envelopes : List EnvelopeTombstone)

/-- The envelope a dropped claim was in. -/
def ClaimTombstone.envelope (d : ClaimTombstone) : EnvelopeKey :=
  ⟨d.writer, d.sequence, d.envelopeHash⟩

/-- Where a trim goes on from: the last envelope tombstone it read, then the last claim tombstone
whose envelope was already gone. -/
structure TrimCursor where
  envelope : EnvelopeKey := ⟨"", 0, ""⟩
  envelopesDone : Bool := false
  claim : String := ""

namespace Tables

/-- The next envelope after the cursor that a tombstone stands for and the node still holds. -/
def nextEnvelope (t : Tables) (after : EnvelopeKey) : Option EnvelopeTombstone :=
  ((t.checkpointEnvelopes.filter fun d => after < d.key ∧ d.key ∈ t.heldKeys).insertionSort
    fun a b => a.key ≤ b.key).head?

/-- The tombstones of an envelope's claims that are still stored. -/
def claimsToDelete (t : Tables) (key : EnvelopeKey) : List ClaimTombstone :=
  t.checkpointClaims.filter fun d => d.envelope = key ∧ d.id ∈ t.claimIds

def nextClaim (t : Tables) (after : String) : Option ClaimTombstone :=
  ((t.checkpointClaims.filter fun d => after < d.id ∧ d.id ∈ t.claimIds).insertionSort
    fun a b => a.id ≤ b.id).head?

/-- The next rows to delete, and the cursor after them. Nothing when the trim is done. -/
def nextTrimRows (t : Tables) (cursor : TrimCursor) :
    (Option EnvelopeTombstone × List ClaimTombstone) × TrimCursor :=
  match if cursor.envelopesDone then none else t.nextEnvelope cursor.envelope with
  | some d => ((some d, t.claimsToDelete d.key), { cursor with envelope := d.key })
  | none =>
    match t.nextClaim cursor.claim with
    | some d => ((none, [d]), { cursor with envelopesDone := true, claim := d.id })
    | none => ((none, []), { cursor with envelopesDone := true })

end Tables

/-! ### A node that trims -/

/-- A node's log, the cursor of the pass that runs, the claims that repairs replaced, and the rows
that the digest of the claim sources sums up. -/
structure TrimNode where
  tables : Tables
  cursor : TrimCursor := {}
  repaired : List String := []
  sources : Multiset (String × ℕ) := 0

namespace TrimNode

/-- The triggers on `claims` and `checkpoint_claims` count a claim once, by either of its rows. -/
def counted (other : List String) (node : TrimNode) (id : String) : Prop :=
  id ∉ other ∧ id ∉ node.repaired

instance (other : List String) (node : TrimNode) (id : String) :
    Decidable (node.counted other id) :=
  inferInstanceAs (Decidable (_ ∧ _))

variable (node : TrimNode)

/-- `INSERT OR IGNORE INTO checkpoint_claims`, with its trigger. -/
def insertClaimTombstone (d : ClaimTombstone) : TrimNode :=
  { node with
    tables := node.tables.insertClaimTombstone d
    sources := if d.id ∉ node.tables.droppedIds ∧ node.counted node.tables.claimIds d.id then
      (d.id, d.acceptedAtUnixMs) ::ₘ node.sources else node.sources }

def recordCheckpointTombstones (envelopes : List EnvelopeTombstone)
    (claims : List ClaimTombstone) : TrimNode :=
  claims.foldl insertClaimTombstone
    { node with tables := envelopes.foldl insertEnvelopeTombstone node.tables }

/-- Forget the tombstones that are not among `envelopes` and `claims`. -/
def keepOnlyTombstones (envelopes : List EnvelopeTombstone)
    (claims : List ClaimTombstone) : TrimNode :=
  let forgotten := node.tables.checkpointClaims.filter fun d =>
    d.id ∉ claims.map ClaimTombstone.id ∧ node.counted node.tables.claimIds d.id
  { node with
    tables := node.tables.keepOnlyTombstones envelopes claims
    sources := forgotten.foldl (fun sources d => sources.erase (d.id, d.acceptedAtUnixMs))
      node.sources }

/-- `DELETE FROM claims`, with its trigger. -/
def deleteClaim (id : String) : TrimNode :=
  { node with
    tables := node.tables.deleteClaim id
    sources := ((node.tables.claims.filter fun c =>
        c.id = id ∧ node.counted node.tables.droppedIds c.id).map fun c =>
      (c.id, c.acceptedAtUnixMs)).foldl Multiset.erase node.sources }

def deleteDroppedRows (envelopes : List EnvelopeTombstone)
    (claims : List ClaimTombstone) : TrimNode :=
  let node := claims.foldl (fun node d => node.deleteClaim d.id) node
  { node with
    tables := envelopes.foldl (fun t dropped => t.dropEnvelope dropped.key) node.tables }

/-- One turn of a pass: delete the next rows. -/
def deleteNext : TrimNode :=
  let (rows, cursor) := node.tables.nextTrimRows node.cursor
  { node.deleteDroppedRows rows.1.toList rows.2 with cursor := cursor }

/-- The pass has found nothing left to delete. -/
def Done : Prop :=
  (node.tables.nextTrimRows node.cursor).1 = (none, [])

instance : Decidable node.Done :=
  inferInstanceAs (Decidable (_ = _))

/-- Admit an envelope. The trigger on `claims` counts each new claim. -/
def admission (build : Build) (node : TrimNode) (envelope : ReplicaEnvelope) : TrimNode :=
  let tables := node.tables.admitEnvelope build envelope
  { node with
    tables := tables
    sources := node.sources + ((tables.claims.filter fun c =>
        c.id ∉ node.tables.claimIds ∧ node.counted node.tables.droppedIds c.id).map fun c =>
      (c.id, c.acceptedAtUnixMs) : List (String × ℕ)) }

end TrimNode

/-- What a node does while it trims, one transaction each or less. `trim` and `adopt` record
tombstones and begin a pass, `delete` is one turn of the pass, and `restart` is a crash and a new
pass. An admission reads its list of envelopes before it admits them, so `admission` may come after
other transactions. -/
inductive TrimEvent where
  | trim (envelopes : List EnvelopeTombstone) (claims : List ClaimTombstone)
  | adopt (envelopes : List EnvelopeTombstone) (claims : List ClaimTombstone)
  | restart
  | delete
  | receipt (envelope : ReplicaEnvelope)
  | admission (envelope : ReplicaEnvelope)

/-- The transactions of a trim, and those of a pass. -/
def TrimEvent.isTrim : TrimEvent → Bool
  | .trim _ _ | .restart | .delete => true
  | .adopt _ _ | .receipt _ | .admission _ => false

namespace TrimNode

def apply (build : Build) (node : TrimNode) : TrimEvent → TrimNode
  | .trim envelopes claims =>
    { node.recordCheckpointTombstones envelopes claims with cursor := {} }
  | .adopt envelopes claims =>
    { (node.keepOnlyTombstones envelopes claims).recordCheckpointTombstones envelopes claims with
      cursor := {} }
  | .restart => { node with cursor := {} }
  | .delete => node.deleteNext
  | .receipt envelope => { node with tables := node.tables.receipt envelope }
  | .admission envelope => node.admission build envelope

def run (build : Build) (node : TrimNode) (events : List TrimEvent) : TrimNode :=
  events.foldl (apply build) node

end TrimNode

/-! ### What a run is held to -/

namespace Tables

/-- Where a dropped claim is stored, the envelope its tombstone names is held, and is that of the
claim's batch. -/
def Placed (t : Tables) (d : ClaimTombstone) : Prop :=
  ∀ c ∈ t.claims, c.id = d.id → ∃ e ∈ t.envelopes, e.key = d.envelope ∧ e.batchId = some c.batchId

/-- The tombstones come after the cursor a pass starts with. -/
def Named (claims : List ClaimTombstone) : Prop :=
  (∀ d ∈ envelopes, (⟨"", 0, ""⟩ : EnvelopeKey) < d.key) ∧ ∀ d ∈ claims, "" < d.id

instance (t : Tables) (d : ClaimTombstone) : Decidable (t.Placed d) :=
  inferInstanceAs (Decidable (∀ c ∈ t.claims, _))

instance (envelopes : List EnvelopeTombstone) (claims : List ClaimTombstone) :
    Decidable (Named envelopes claims) :=
  inferInstanceAs (Decidable (_ ∧ _))

/-- The inventory lists the envelope: it is held or dropped. -/
def Lists (t : Tables) (key : EnvelopeKey) : Prop := key ∈ t.heldKeys ∨ key ∈ t.droppedKeys

end Tables

/-- The condition on each step. A trim drops claims the node holds. An adoption forgets no
tombstone. Both name the envelope of each claim. An envelope is admitted while its pending row is
stored. -/
def TrimNode.Meets (node : TrimNode) : TrimEvent → Prop
  | .trim envelopes claims =>
    Tables.Named envelopes claims ∧ (∀ d ∈ claims, node.tables.Placed d) ∧
      ∀ d ∈ claims, d.id ∈ node.tables.claimIds ∨ d.id ∈ node.tables.droppedIds ∨
        d.id ∈ node.repaired
  | .adopt envelopes claims =>
    Tables.Named envelopes claims ∧ (∀ d ∈ claims, node.tables.Placed d) ∧
      (∀ d ∈ node.tables.checkpointEnvelopes, d.key ∈ envelopes.map key) ∧
      ∀ d ∈ node.tables.checkpointClaims, d.id ∈ claims.map ClaimTombstone.id
  | .admission envelope =>
    ∃ e ∈ node.tables.envelopes, e.key = envelope.key ∧ e.batchId = none
  | _ => True

instance (node : TrimNode) (event : TrimEvent) : Decidable (node.Meets event) := by
  cases event <;> unfold TrimNode.Meets <;> infer_instance

/-! ### Keeping tombstones -/

namespace Tables

variable {t : Tables}

theorem keepOnlyTombstones_eq_self {envelopes : List EnvelopeTombstone}
    (henvelopes : ∀ d ∈ t.checkpointEnvelopes, d.key ∈ envelopes.map key)
    (hclaims : ∀ d ∈ t.checkpointClaims, d.id ∈ claims.map ClaimTombstone.id) :
    t.keepOnlyTombstones envelopes claims = t := by
  have h₁ := filter_eq_self.mpr fun d hd => decide_eq_true (henvelopes d hd)
  have h₂ := filter_eq_self.mpr fun d hd => decide_eq_true (hclaims d hd)
  simp only [keepOnlyTombstones, h₁, h₂]

/-! ### The rows of a turn -/

theorem nextEnvelope_eq_some {after : EnvelopeKey} {d : EnvelopeTombstone}
    (h : t.nextEnvelope after = some d) :
    d ∈ t.checkpointEnvelopes ∧ after < d.key ∧ d.key ∈ t.heldKeys := by
  have hmem := (mem_insertionSort _).mp (mem_of_head? h)
  obtain ⟨hd, hlt⟩ := mem_filter.mp hmem
  exact ⟨hd, of_decide_eq_true hlt⟩

theorem nextClaim_eq_some {after : String} {d : ClaimTombstone} (h : t.nextClaim after = some d) :
    d ∈ t.checkpointClaims ∧ after < d.id ∧ d.id ∈ t.claimIds := by
  have hmem := (mem_insertionSort _).mp (mem_of_head? h)
  obtain ⟨hd, hlt⟩ := mem_filter.mp hmem
  exact ⟨hd, of_decide_eq_true hlt⟩

/-- A turn deletes rows that tombstones stand for. -/
theorem nextTrimRows_dropped (t : Tables) (cursor : TrimCursor) :
    (∀ d ∈ (t.nextTrimRows cursor).1.1.toList, d ∈ t.checkpointEnvelopes) ∧
      ∀ d ∈ (t.nextTrimRows cursor).1.2, d ∈ t.checkpointClaims := by
  unfold nextTrimRows
  split
  case h_1 d hd =>
    have hnext : t.nextEnvelope cursor.envelope = some d := by
      split at hd
      · cases hd
      · exact hd
    refine ⟨fun d' hd' => ?_, fun d' hd' => (mem_filter.mp hd').1⟩
    obtain rfl : d' = d := by simpa using hd'
    exact (nextEnvelope_eq_some hnext).1
  case h_2 =>
    split
    case h_1 d hd => simpa using (nextClaim_eq_some hd).1
    case h_2 => simp

end Tables

/-! ### Identities and claim sources -/

namespace TrimNode

variable {build : Build} {node : TrimNode} {event : TrimEvent}

@[simp] theorem recordCheckpointTombstones_tables (node : TrimNode)
    (envelopes : List EnvelopeTombstone) (claims : List ClaimTombstone) :
    (node.recordCheckpointTombstones envelopes claims).tables =
      node.tables.recordCheckpointTombstones envelopes claims :=
  (foldl_hom TrimNode.tables fun _ _ => rfl).symm

@[simp] theorem deleteDroppedRows_tables (node : TrimNode) (envelopes : List EnvelopeTombstone)
    (claims : List ClaimTombstone) :
    (node.deleteDroppedRows envelopes claims).tables =
      node.tables.deleteDroppedRows envelopes claims := by
  rw [deleteDroppedRows, Tables.deleteDroppedRows, ← foldl_hom TrimNode.tables]
  exact fun _ _ => rfl

theorem deleteNext_tables (node : TrimNode) : node.deleteNext.tables = node.tables.deleteDroppedRows
      (node.tables.nextTrimRows node.cursor).1.1.toList
      (node.tables.nextTrimRows node.cursor).1.2 :=
  node.deleteDroppedRows_tables _ _

/-- Deleting a claim that is dropped counts nothing. -/
theorem deleteClaim_sources {id : String} (h : id ∈ node.tables.droppedIds) :
    (node.deleteClaim id).sources = node.sources := by
  have hnone : (node.tables.claims.filter fun c =>
      c.id = id ∧ node.counted node.tables.droppedIds c.id) = [] := by
    refine filter_eq_nil_iff.mpr fun c _ hc => ?_
    obtain ⟨rfl, hcounted⟩ := of_decide_eq_true hc
    exact hcounted.1 h
  rw [deleteClaim, hnone]
  rfl

theorem deleteDroppedRows_sources (h : ∀ d ∈ claims, d.id ∈ node.tables.droppedIds) :
    (node.deleteDroppedRows envelopes claims).sources = node.sources := by
  show (claims.foldl (fun node d => node.deleteClaim d.id) node).sources = node.sources
  induction claims generalizing node with
  | nil => rfl
  | cons d claims ih =>
    refine (ih fun d' hd' => ?_).trans (deleteClaim_sources (h d mem_cons_self))
    exact h d' (mem_cons_of_mem _ hd')

/-- Recording the drop of claims that are stored, dropped or repaired counts nothing. -/
theorem recordCheckpointTombstones_sources
    (h : ∀ d ∈ claims, d.id ∈ node.tables.claimIds ∨ d.id ∈ node.tables.droppedIds ∨
      d.id ∈ node.repaired) :
    (node.recordCheckpointTombstones envelopes claims).sources = node.sources := by
  have hfold : ∀ (cs : List ClaimTombstone) (node : TrimNode),
      (∀ d ∈ cs, d.id ∈ node.tables.claimIds ∨ d.id ∈ node.tables.droppedIds ∨
        d.id ∈ node.repaired) → (cs.foldl insertClaimTombstone node).sources = node.sources := by
    intro cs
    induction cs with
    | nil => exact fun _ _ => rfl
    | cons d cs ih =>
      intro node h
      have hrecorded := node.tables.recordCheckpointTombstones_recorded [] [d]
      rw [foldl_cons, ih]
      · refine if_neg fun hnew => ?_
        rcases h d mem_cons_self with hstored | hdropped | hrepaired
        · exact hnew.2.1 hstored
        · exact hnew.1 hdropped
        · exact hnew.2.2 hrepaired
      · exact fun d' hd' => (h d' (mem_cons_of_mem _ hd')).imp hrecorded.claimIds.mpr
          (.imp_left (hrecorded.ids d'.id))
  have hrecorded := node.tables.recordCheckpointTombstones_recorded envelopes []
  exact hfold claims _ fun d hd => (h d hd).imp hrecorded.claimIds.mpr
    (.imp_left (hrecorded.ids d.id))

/-- **A trim keeps the claim sources**: no transaction of it changes their digest. -/
theorem apply_sources (hmeets : node.Meets event) (htrim : event.isTrim = true) :
    (node.apply build event).sources = node.sources := by
  cases event with
  | trim envelopes claims => exact recordCheckpointTombstones_sources envelopes hmeets.2.2
  | restart => rfl
  | delete =>
    have hdropped := (node.tables.nextTrimRows_dropped node.cursor).2
    exact deleteDroppedRows_sources (node.tables.nextTrimRows node.cursor).1.1.toList
      fun d hd => mem_map_of_mem (hdropped d hd)
  | adopt _ _ | receipt _ | admission _ => cases htrim

/-- An adoption that forgets no tombstone only records. -/
theorem apply_adopt {envelopes : List EnvelopeTombstone}
    (henvelopes : ∀ d ∈ node.tables.checkpointEnvelopes, d.key ∈ envelopes.map key)
    (hclaims : ∀ d ∈ node.tables.checkpointClaims, d.id ∈ claims.map ClaimTombstone.id) :
    (node.apply build (.adopt envelopes claims)).tables =
      node.tables.recordCheckpointTombstones envelopes claims := by
  have hsame := keepOnlyTombstones_eq_self henvelopes hclaims
  simp only [apply, recordCheckpointTombstones_tables, keepOnlyTombstones, hsame]

theorem receipt_lists {t : Tables} {key : EnvelopeKey} (h : t.Lists key)
    (envelope : ReplicaEnvelope) : (t.receipt envelope).Lists key := by
  unfold receipt insertEnvelope
  split
  · exact h
  split
  · exact h
  refine h.imp_left fun hheld => ?_
  rw [heldKeys, map_append]
  exact mem_append_left _ hheld

/-- **No identity is lost**: what the inventory lists, it lists after any step that forgets no
tombstone. -/
theorem apply_lists {key : EnvelopeKey} (hmeets : node.Meets event)
    (h : node.tables.Lists key) : (node.apply build event).tables.Lists key := by
  have hrecord : ∀ es cs, (node.tables.recordCheckpointTombstones es cs).Lists key := by
    intro es cs
    have hrecorded := node.tables.recordCheckpointTombstones_recorded es cs
    refine h.imp (fun hheld => ?_) (hrecorded.keys key)
    rwa [heldKeys, hrecorded.envelopes_eq]
  cases event with
  | trim envelopes claims =>
    rw [apply, recordCheckpointTombstones_tables]
    exact hrecord envelopes claims
  | adopt envelopes claims =>
    exact apply_adopt hmeets.2.2.1 hmeets.2.2.2 ▸ hrecord envelopes claims
  | restart => exact h
  | delete =>
    have hdropped := (node.tables.nextTrimRows_dropped node.cursor).1
    rw [apply, deleteNext_tables, deleteDroppedRows_eq]
    refine h.elim (fun hheld => ?_) .inr
    by_cases hkey : key ∈ ((node.tables.nextTrimRows node.cursor).1.1.toList.map
        EnvelopeTombstone.key)
    · obtain ⟨d, hd, rfl⟩ := mem_map.mp hkey
      exact .inr (mem_map_of_mem (hdropped d hd))
    · obtain ⟨e, he, rfl⟩ := mem_map.mp hheld
      exact .inl (mem_map_of_mem (mem_filter.mpr ⟨he, decide_eq_true hkey⟩))
  | receipt envelope => exact receipt_lists h envelope
  | admission envelope =>
    have hgrows := node.tables.admitEnvelope_grows build envelope
    refine h.imp (fun hheld => ?_) fun hdropped => ?_
    · exact (node.tables.admitEnvelope_heldKeys build envelope).symm ▸ hheld
    · rw [droppedKeys]
      exact hgrows.envelopeTombstones.symm ▸ hdropped

end TrimNode

end SmallTalk.Checkpoint
