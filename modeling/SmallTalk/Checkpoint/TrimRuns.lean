import SmallTalk.Checkpoint.Sealing
import SmallTalk.Checkpoint.TrimTwin
import SmallTalk.Data.JsonText

/-!
# Checkpoint — interrupted trims

A pass deletes its rows turn by turn. It may crash and start again, and envelopes of peers are
received and admitted meanwhile.

* `interruptible_of_meets`: a run that meets `TrimNode.Meets` may be interrupted anywhere.
-/

namespace SmallTalk.Checkpoint

open EnvelopeTombstone List Runs

namespace Tables

variable {t : Tables} {cursor : TrimCursor}

/-! ### The cursor of a pass -/

/-- The cursor is before every row that is left to delete. -/
structure CursorFits (t : Tables) (cursor : TrimCursor) : Prop where
  envelopes : ∀ d ∈ t.checkpointEnvelopes, d.key ∈ t.heldKeys →
    cursor.envelopesDone = false ∧ cursor.envelope < d.key
  claims : ∀ d ∈ t.checkpointClaims, d.id ∈ t.claimIds → cursor.claim < d.id

theorem cursorFits_start (h : Named t.checkpointEnvelopes t.checkpointClaims) : t.CursorFits {} :=
  ⟨fun d hd _ => ⟨rfl, h.1 d hd⟩, fun d hd _ => h.2 d hd⟩

/-- Other transactions add no row that a tombstone stands for. -/
theorem CursorFits.mono {t' : Tables} (h : t.CursorFits cursor)
    (henvelopes : t'.checkpointEnvelopes = t.checkpointEnvelopes)
    (hclaims : t'.checkpointClaims = t.checkpointClaims)
    (hheld : ∀ key ∈ t'.heldKeys, key ∈ t.droppedKeys → key ∈ t.heldKeys)
    (hstored : ∀ id ∈ t'.claimIds, id ∈ t.droppedIds → id ∈ t.claimIds) :
    t'.CursorFits cursor := by
  refine ⟨fun d hd hkey => ?_, fun d hd hid => ?_⟩
  · rw [henvelopes] at hd
    exact h.envelopes d hd (hheld _ hkey (mem_map_of_mem hd))
  · rw [hclaims] at hd
    exact h.claims d hd (hstored _ hid (mem_map_of_mem hd))

theorem head?_insertionSort_ne_none {α β : Type*} [LinearOrder β] (key : α → β) {l : List α} {a : α}
    (h : a ∈ l) : (l.insertionSort fun x y => key x ≤ key y).head? ≠ none := by
  rw [Ne, head?_eq_none_iff]
  exact ne_nil_of_mem ((mem_insertionSort _).mpr h)

/-- The next rows: an envelope with its dropped claims, or one claim once no envelope is left. -/
theorem nextTrimRows_cases (t : Tables) (cursor : TrimCursor) :
    (∃ d, cursor.envelopesDone = false ∧ t.nextEnvelope cursor.envelope = some d ∧
      t.nextTrimRows cursor =
        ((some d, t.claimsToDelete d.key), { cursor with envelope := d.key })) ∨
    (cursor.envelopesDone = true ∨ t.nextEnvelope cursor.envelope = none) ∧
      ((∃ d, t.nextClaim cursor.claim = some d ∧ t.nextTrimRows cursor =
        ((none, [d]), { cursor with envelopesDone := true, claim := d.id })) ∨
      t.nextClaim cursor.claim = none ∧
        t.nextTrimRows cursor = ((none, []), { cursor with envelopesDone := true })) := by
  unfold nextTrimRows
  cases hdone : cursor.envelopesDone with
  | false =>
    cases henvelope : t.nextEnvelope cursor.envelope with
    | some d => exact .inl ⟨d, rfl, rfl, rfl⟩
    | none =>
      refine .inr ⟨.inr rfl, ?_⟩
      cases hclaim : t.nextClaim cursor.claim with
      | some d => exact .inl ⟨d, rfl, rfl⟩
      | none => exact .inr ⟨rfl, rfl⟩
  | true =>
    refine .inr ⟨.inl rfl, ?_⟩
    cases hclaim : t.nextClaim cursor.claim with
    | some d => exact .inl ⟨d, rfl, rfl⟩
    | none => exact .inr ⟨rfl, rfl⟩

/-- A turn deletes an envelope with all its dropped claims. -/
theorem nextTrimRows_whole (t : Tables) (cursor : TrimCursor) : ∀ d ∈ t.checkpointClaims,
      d.envelope ∈ (t.nextTrimRows cursor).1.1.toList.map key →
      d.id ∈ t.claimIds → d.id ∈ (t.nextTrimRows cursor).1.2.map ClaimTombstone.id := by
  intro d hd hkey hid
  rcases t.nextTrimRows_cases cursor with
    ⟨d₀, _, _, heq⟩ | ⟨_, ⟨d₀, _, heq⟩ | ⟨_, heq⟩⟩
  · rw [heq] at hkey ⊢
    obtain heq : d.envelope = d₀.key := by simpa using hkey
    exact mem_map_of_mem (mem_filter.mpr ⟨hd, decide_eq_true ⟨heq, hid⟩⟩)
  all_goals simp [heq] at hkey

section

variable (h : t.CursorFits cursor)

include h

/-- No envelope that a tombstone stands for is left when the pass finds none. -/
theorem CursorFits.no_envelope
    (hnone : cursor.envelopesDone = true ∨ t.nextEnvelope cursor.envelope = none) :
    ∀ key ∈ t.heldKeys, key ∉ t.droppedKeys := by
  intro key hheld hdropped
  obtain ⟨d, hd, rfl⟩ := mem_map.mp hdropped
  obtain ⟨hopen, hlt⟩ := h.envelopes d hd hheld
  rcases hnone with hdone | hnone
  · cases hopen.symm.trans hdone
  · exact head?_insertionSort_ne_none key
      (mem_filter.mpr ⟨hd, decide_eq_true ⟨hlt, hheld⟩⟩) hnone

theorem CursorFits.no_claim
    (hnone : t.nextClaim cursor.claim = none) : ∀ id ∈ t.claimIds, id ∉ t.droppedIds := by
  intro id hstored hdropped
  obtain ⟨d, hd, rfl⟩ := mem_map.mp hdropped
  exact head?_insertionSort_ne_none ClaimTombstone.id
    (mem_filter.mpr ⟨hd, decide_eq_true ⟨h.claims d hd hstored, hstored⟩⟩) hnone

/-- A turn moves the cursor past what it deletes. -/
theorem CursorFits.deleted : (t.deleteDroppedRows (t.nextTrimRows cursor).1.1.toList
      (t.nextTrimRows cursor).1.2).CursorFits (t.nextTrimRows cursor).2 := by
  have hstored : ∀ es cs, ∀ id ∈ (t.deleteDroppedRows es cs).claimIds,
      id ∈ t.claimIds ∧ id ∉ cs.map ClaimTombstone.id := by
    intro es cs id hid
    obtain ⟨c, hc, rfl⟩ := mem_map.mp hid
    obtain ⟨hc, hne⟩ := mem_deleteDroppedRows_claims.mp hc
    exact ⟨mem_map_of_mem hc, hne⟩
  have htombstones := t.deleteDroppedRows_tombstones
  rcases t.nextTrimRows_cases cursor with
    ⟨d₀, hopen, hnext, heq⟩ | ⟨hnone, ⟨d₀, hnext, heq⟩ | ⟨hnext, heq⟩⟩
  · rw [heq]
    refine ⟨fun d hd hkey => ⟨hopen, ?_⟩, fun d hd hid => ?_⟩
    · rw [(htombstones _ _).1] at hd
      obtain ⟨hkey, hne⟩ := mem_deleteDroppedRows_heldKeys.mp hkey
      have hle : d₀.key ≤ d.key := Sorted.le_of_head?_insertionSort key hnext d
        (mem_filter.mpr ⟨hd, decide_eq_true ⟨(h.envelopes d hd hkey).2, hkey⟩⟩)
      exact lt_of_le_of_ne hle fun heq => hne (mem_singleton.mpr heq.symm)
    · rw [(htombstones _ _).2.1] at hd
      exact h.claims d hd (hstored _ _ _ hid).1
  all_goals
    rw [heq]
    have hgone : ∀ d ∈ t.checkpointEnvelopes, d.key ∉ t.heldKeys :=
      fun d hd hkey => h.no_envelope hnone d.key hkey (mem_map_of_mem hd)
    refine ⟨fun d hd hkey => ?_, fun d hd hid => ?_⟩
    · rw [(htombstones _ _).1] at hd
      exact absurd (mem_deleteDroppedRows_heldKeys.mp hkey).1 (hgone d hd)
    · rw [(htombstones _ _).2.1] at hd
      obtain ⟨hid, hne⟩ := hstored _ _ _ hid
      first
        | exact h.claims d hd hid
        | exact lt_of_le_of_ne (Sorted.le_of_head?_insertionSort ClaimTombstone.id hnext d
            (mem_filter.mpr ⟨hd, decide_eq_true ⟨h.claims d hd hid, hid⟩⟩))
            fun heq => hne (mem_singleton.mpr heq.symm)

end

/-! ### A pass that is done -/

/-- The tables have the same rows, in whatever order. -/
structure SameRows (s u : Tables) : Prop where
  claims : ∀ c, c ∈ s.claims ↔ c ∈ u.claims
  envelopes : ∀ key accepted batch, s.Stores key accepted batch ↔ u.Stores key accepted batch
  records : ∀ r, r ∈ s.records ↔ r ∈ u.records
  batches : ∀ id, id ∈ s.batchIds ↔ id ∈ u.batchIds
  blobs : s.blobs = u.blobs
  envelopeTombstones : s.checkpointEnvelopes = u.checkpointEnvelopes
  claimTombstones : s.checkpointClaims = u.checkpointClaims

/-- Delete every row that a tombstone stands for, in one transaction. -/
def deleteEveryDroppedRow (t : Tables) : Tables :=
  t.deleteDroppedRows t.checkpointEnvelopes t.checkpointClaims

/-- A node in the middle of its passes, beside the one that deletes nothing. -/
structure Mid (build : Build) (s u : Tables) (cursor : TrimCursor) : Prop where
  twin : Twin build s u
  batches : BatchTwin s u
  ordered : Ordered s
  cursor : s.CursorFits cursor

namespace Mid

variable {build : Build} {s u : Tables}

theorem start (hrefs : t.RefsFit build) (h : Ordered t) : Mid build t t {} :=
  ⟨.refl hrefs, .refl t, h, cursorFits_start h.named⟩

variable (h : Mid build s u cursor)

include h

theorem restart : Mid build s u {} :=
  { h with cursor := cursorFits_start h.ordered.named }

theorem record {es : List EnvelopeTombstone} {cs : List ClaimTombstone}
    (hnamed : Named es cs) (hplaced : ∀ d ∈ cs, s.Placed d) :
    Mid build (s.recordCheckpointTombstones es cs) (u.recordCheckpointTombstones es cs) {} :=
  have hordered := h.ordered.record hnamed hplaced
  ⟨h.twin.record es cs, h.batches.record hplaced, hordered, cursorFits_start hordered.named⟩

theorem turn :
    Mid build (s.deleteDroppedRows (s.nextTrimRows cursor).1.1.toList (s.nextTrimRows cursor).1.2)
      u (s.nextTrimRows cursor).2 := by
  obtain ⟨hes, hcs⟩ := s.nextTrimRows_dropped cursor
  have hwhole := s.nextTrimRows_whole cursor
  exact ⟨h.twin.deleted hes hcs, h.batches.deleted h.twin h.ordered hcs hwhole,
    h.ordered.deleted hwhole, h.cursor.deleted⟩

theorem receipt (envelope : ReplicaEnvelope) :
    Mid build (s.receipt envelope) (u.receipt envelope) cursor := by
  refine ⟨h.twin.receipt envelope, h.batches.receipt h.twin envelope, h.ordered.receipt envelope, ?_⟩
  obtain ⟨es, ds, heq, hstores⟩ := s.receipt_spec envelope
  rw [heq]
  refine h.cursor.mono rfl rfl (fun key hkey hdropped => ?_) fun _ hid _ => hid
  -- An envelope that a tombstone stands for is not received.
  obtain ⟨a, b, hs⟩ := mem_heldKeys.mp hkey
  rcases hstores.mp hs with hs | ⟨hnew, rfl, _⟩
  · exact mem_heldKeys.mpr ⟨a, b, hs⟩
  · exact absurd hdropped hnew.1

theorem admission (hrefs : build.RefsApart) {envelope : ReplicaEnvelope} {accepted : ℕ}
    (hpending : s.Stores envelope.key accepted none) :
    Mid build (s.admitEnvelope build envelope) (u.admitEnvelope build envelope) cursor := by
  have hgrows := s.admitEnvelope_grows build envelope
  refine ⟨h.twin.admitEnvelope hrefs envelope, h.batches.admitEnvelope hpending,
    h.ordered.admitEnvelope hpending,
    h.cursor.mono hgrows.envelopeTombstones hgrows.claimTombstones (fun key hkey _ => ?_)
      fun id hid hdropped => ?_⟩
  · rwa [s.admitEnvelope_heldKeys build envelope] at hkey
  · obtain ⟨c, hc, rfl⟩ := mem_map.mp hid
    rcases hgrows.claims_new c hc with hc | ⟨_, hnew⟩
    · exact mem_map_of_mem hc
    · exact absurd hdropped hnew

/-- **A pass that is done** leaves what one deletion of every tombstone's rows leaves. -/
theorem sameRows (hdone : (s.nextTrimRows cursor).1 = (none, [])) :
    SameRows s u.deleteEveryDroppedRow := by
  have hkeys : s.droppedKeys = u.droppedKeys :=
    congrArg (List.map key) h.twin.envelopeTombstones
  have hids : s.droppedIds = u.droppedIds :=
    congrArg (List.map ClaimTombstone.id) h.twin.claimTombstones
  obtain ⟨hnoEnvelope, hnoClaim⟩ : (∀ key ∈ s.heldKeys, key ∉ u.droppedKeys) ∧
      ∀ id ∈ s.claimIds, id ∉ u.droppedIds := by
    rw [← hkeys, ← hids]
    rcases s.nextTrimRows_cases cursor with ⟨d, _, _, heq⟩ | ⟨hnone, ⟨d, _, heq⟩ | ⟨hnext, _⟩⟩
    · simp [heq] at hdone
    · simp [heq] at hdone
    · exact ⟨h.cursor.no_envelope hnone, h.cursor.no_claim hnext⟩
  obtain ⟨henvelopes, hclaims, hblobs⟩ :=
    u.deleteDroppedRows_tombstones u.checkpointEnvelopes u.checkpointClaims
  refine ⟨fun c => ?_, fun key accepted batch => ?_, fun r => ?_, fun id => ?_,
    h.twin.blobs.trans hblobs.symm, h.twin.envelopeTombstones.trans henvelopes.symm,
    h.twin.claimTombstones.trans hclaims.symm⟩
  · refine Iff.trans ?_ mem_deleteDroppedRows_claims.symm
    refine ⟨fun hc => ?_, fun hc => (h.twin.claims c hc.2).mpr hc.1⟩
    have hid := hnoClaim c.id (mem_map_of_mem hc)
    exact ⟨(h.twin.claims c hid).mp hc, hid⟩
  · refine Iff.trans ?_ stores_deleteDroppedRows.symm
    refine ⟨fun hs => ?_, fun hs => (h.twin.envelopes key hs.2 _ _).mpr hs.1⟩
    exact ⟨h.twin.held _ _ _ hs, hnoEnvelope key (mem_heldKeys.mpr ⟨accepted, batch, hs⟩)⟩
  · refine Iff.trans ?_ mem_deleteDroppedRows_records.symm
    refine ⟨fun hr => ?_, fun hr => (h.twin.records r hr.2).mpr hr.1⟩
    have hkey := hnoEnvelope r.envelope (h.ordered.recordsHeld r hr)
    exact ⟨(h.twin.records r hkey).mp hr, hkey⟩
  · refine Iff.trans ?_ mem_deleteDroppedRows_batchIds.symm
    refine ⟨fun hid => ⟨h.batches.sub id hid, fun horphan => ?_⟩, fun ⟨hid, hkept⟩ => ?_⟩
    · obtain ⟨hnone, ⟨e, he, hbatch, hkey⟩, hall⟩ := horphan
      have hgone : e.key ∉ s.heldKeys := fun hheld => hnoEnvelope _ hheld hkey
      rcases h.batches.named id hid ⟨e.key, e.acceptedAtUnixMs, ⟨e.rowid, hbatch ▸ he⟩, hgone⟩ with
        hheld | ⟨c, hc, hcb, hcid⟩
      · obtain ⟨key, accepted, hs⟩ := hasEnvelope_iff.mp hheld
        obtain ⟨rowid, hu⟩ := h.twin.held _ _ _ hs
        exact hnoEnvelope key (mem_heldKeys.mpr ⟨accepted, _, hs⟩) (hall _ hu rfl)
      · rw [hids] at hcid
        exact hnone c (mem_filter.mpr ⟨(h.twin.claims c hcid).mp hc, decide_eq_true hcid⟩) hcb
    · by_contra hlost
      obtain ⟨key, accepted, hu, hkey⟩ := h.batches.gone id hid hlost
      obtain ⟨rowid, he⟩ := hu
      refine hkept ⟨fun c hc hcb => ?_,
        ⟨_, he, rfl, h.twin.dropped_of_lost ⟨rowid, he⟩ hkey⟩, fun e he hbatch => ?_⟩
      · obtain ⟨hc, hcid⟩ := mem_filter.mp hc
        have hs := (h.twin.claims c (of_decide_eq_true hcid)).mpr hc
        exact hlost (hcb ▸ h.ordered.claimBatches c hs)
      · by_contra hstays
        have hs := (h.twin.envelopes e.key hstays e.acceptedAtUnixMs (some id)).mpr
          ⟨e.rowid, hbatch ▸ he⟩
        exact hlost (h.ordered.envelopeBatches _ _ _ hs)

end Mid

end Tables

/-! ### Runs -/

/-- A turn of a pass. -/
def TrimEvent.isDelete : TrimEvent → Bool
  | .delete => true
  | _ => false

namespace TrimNode

variable {build : Build} {node twin : TrimNode}

/-- The node that never begins to delete. -/
def runUndeleted (build : Build) (node : TrimNode) (events : List TrimEvent) : TrimNode :=
  node.run build (events.filter fun event => !event.isDelete)

/-- A node in the middle of its passes, beside another. -/
def Mid (build : Build) (node twin : TrimNode) : Prop :=
  Tables.Mid build node.tables twin.tables node.cursor

/-- A turn keeps the twin as it is. -/
theorem Mid.delete (h : Mid build node twin) : Mid build (node.apply build .delete) twin := by
  have hturn := Tables.Mid.turn h
  rwa [← deleteNext_tables] at hturn

/-- Any other step is made by both. -/
theorem Mid.apply {event : TrimEvent} (hrefs : build.RefsApart) (h : Mid build node twin)
    (hmeets : node.Meets event) (hother : event.isDelete = false) :
    Mid build (node.apply build event) (twin.apply build event) := by
  cases event with
  | trim es cs =>
    have hrecord := Tables.Mid.record h hmeets.1 hmeets.2.1
    rwa [← recordCheckpointTombstones_tables, ← recordCheckpointTombstones_tables] at hrecord
  | adopt es cs =>
    have hrecord := Tables.Mid.record h hmeets.1 hmeets.2.1
    obtain ⟨_, _, henvelopes, hclaims⟩ := hmeets
    have hnode : (node.apply build (.adopt es cs)).tables = _ := apply_adopt henvelopes hclaims
    -- The twin has the same tombstones, so it forgets none either.
    have htwin : (twin.apply build (.adopt es cs)).tables = _ :=
      apply_adopt (h.twin.envelopeTombstones ▸ henvelopes) (h.twin.claimTombstones ▸ hclaims)
    rwa [← hnode, ← htwin] at hrecord
  | restart => exact Tables.Mid.restart h
  | delete => cases hother
  | receipt envelope => exact Tables.Mid.receipt h envelope
  | admission envelope =>
    obtain ⟨e, he, hkey, hbatch⟩ := hmeets
    have hpending : node.tables.Stores envelope.key e.acceptedAtUnixMs none :=
      ⟨e.rowid, by rw [← hkey, ← hbatch]; exact he⟩
    exact Tables.Mid.admission h hrefs hpending

theorem Mid.run {events : List TrimEvent} (hrefs : build.RefsApart) (h : Mid build node twin)
    (hmeets : Along (TrimNode.apply build) Meets node events) :
    Mid build (node.run build events) (twin.runUndeleted build events) := by
  induction events generalizing node twin with
  | nil => exact h
  | cons event events ih =>
    obtain ⟨hevent, hrest⟩ := hmeets
    cases hdelete : event.isDelete with
    | true =>
      obtain rfl : event = .delete := by cases event <;> first | rfl | cases hdelete
      exact ih h.delete hrest
    | false =>
      rw [runUndeleted, filter_cons_of_pos (by simp [hdelete])]
      exact ih (h.apply hrefs hevent hdelete) hrest

/-- A run may be interrupted anywhere: it loses no identity, its trims leave the claim sources, and
whenever a pass is done the rows are those of one deletion. -/
structure Interruptible (build : Build) (node : TrimNode) (events : List TrimEvent) : Prop where
  identities : ∀ before after, events = before ++ after →
    ∀ key, (node.run build before).tables.Lists key → (node.run build events).tables.Lists key
  sources : ∀ before event after, events = before ++ event :: after → event.isTrim = true →
    ((node.run build before).apply build event).sources = (node.run build before).sources
  rows : ∀ before after, events = before ++ after → (node.run build before).Done →
    (node.run build before).tables.SameRows
      (node.runUndeleted build before).tables.deleteEveryDroppedRow

end TrimNode

/-! ### An admission that comes too late -/

/-- A build whose references are texts of what they name. -/
def namingBuild : Build :=
  { sampleBuild with
    recordRef := fun key position => (Json.arr [.str key.writer, .num (.nat key.sequence),
      .str key.hash, .num (.nat position)]).text }

theorem namingBuild_refsApart : namingBuild.RefsApart := by
  intro key key' position position' h
  have hitems := Json.arr.inj (Json.text_inj h)
  simp only [List.cons.injEq, Json.str.injEq, Json.num.injEq, JsonNumber.nat.injEq] at hitems
  obtain ⟨hwriter, hsequence, hhash, _⟩ := hitems
  cases key
  cases key'
  simp_all

/-- A node that holds nothing yet. -/
def idleNode : TrimNode := { tables := {} }

/-- The node receives a peer's observation, and adopts a checkpoint that drops it. -/
def adoptedDrop : List TrimEvent :=
  [.receipt (peerEnvelope 1), .adopt observationDrop.envelopes observationDrop.claims, .delete]

/-- The admission had read the envelope before. -/
def lateEvents : List TrimEvent := adoptedDrop ++ [.admission (peerEnvelope 1)]

end SmallTalk.Checkpoint
