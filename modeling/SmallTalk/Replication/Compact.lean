import SmallTalk.Replication.Exchange
import SmallTalk.Replication.Snapshot

/-!
# Replication — the compact inventory as a set

An inventory is read in order (`push_sorted`, `mark_last_payloadless`), its digest states are kept
per range, and identities are then inserted one by one. Against it stands the set of identities,
and the set of those with a payload.

* `foldl_insert_view`, `mem_payloadless_foldl`: what a run of insertions does to the identities and
  to the marks.
* `payloadOf_inventory`: the marks are right when identities of one SHA-256 hash agree.
* `refines_iff`: an inventory answers as the set does unless a sequence is `u64::MAX`, which the
  saturating end of `range` leaves out, or a hash names two identities.
-/

namespace SmallTalk.Replication

open CompactReplicationInventory List Sorted

variable {id : ReplicaEnvelopeId}

/-- How an inventory came about: identities pushed in order, marked as dropped when they are not in
`held`, and then identities inserted in any order. -/
structure Building where
  pushed : List ReplicaEnvelopeId
  held : Finset ReplicaEnvelopeId
  inserted : List ReplicaEnvelopeId
  sorted : pushed.Pairwise (· < ·)
  /-- Sequences are `u64`s. -/
  fits : ∀ id ∈ pushed ++ inserted, id.sequence ≤ u64Max

namespace Building

variable (b : Building) (H : Hasher)

def pushedInventory : CompactReplicationInventory H := b.pushed.foldl (pushRow b.held) {}

/-- The inventory before the insertions, with its digest and the digest states of its ranges. -/
def base : CompactReplicationInventory H × List H.State :=
  (b.pushedInventory H).resumeDigest (b.pushedInventory H).buckets [] 0

def inventory : CompactReplicationInventory H := b.inserted.foldl insert (b.base H).1

/-- The first range that an insertion may have changed. -/
def lowestTouched : ℕ :=
  (((b.inserted.map rangeOf).toFinset.sort (· ≤ ·)).map fun k =>
    partitionPoint (fun bucket => bucket.key < k) (b.inventory H).buckets).min?.getD
      (b.inventory H).buckets.length

/-- The set of identities. -/
def ids : Finset ReplicaEnvelopeId := b.pushed.toFinset ∪ b.inserted.toFinset

/-- The identities whose payload is there. -/
def payloads : Finset ReplicaEnvelopeId := b.pushed.toFinset ∩ b.held ∪ b.inserted.toFinset

theorem mem_ids : id ∈ b.ids ↔ id ∈ b.pushed ∨ id ∈ b.inserted := by
  simp [ids]

theorem mem_payloads : id ∈ b.payloads ↔ id ∈ b.pushed ∧ id ∈ b.held ∨ id ∈ b.inserted := by
  simp [payloads]

end Building

/-- Two inventories that answer alike. -/
structure CompactReplicationInventory.Alike {H : Hasher} (inv inv' : CompactReplicationInventory H) :
    Prop where
  digest : inv.digest = inv'.digest
  entries : inv.entries = inv'.entries
  buckets : inv.buckets = inv'.buckets
  range : ∀ writer start, start ≤ u64Max →
    inv.identities (inv.range writer start) = inv'.identities (inv'.range writer start)

/-- The inventory is the set: it holds each identity once and in order, answers as the set does, is
the inventory that pushing the set builds, and resumes to its own digest. -/
structure Building.Refines (b : Building) (H : Hasher) : Prop where
  view : (b.inventory H).view = b.ids.sort (· ≤ ·)
  range : ∀ writer start, start ≤ u64Max →
    (b.inventory H).identities ((b.inventory H).range writer start) =
      (b.ids.filter fun id => id.writer = writer ∧ start ≤ id.sequence ∧
        id.sequence < start + replicationBucketWidth).sort (· ≤ ·)
  payload : ∀ e ∈ (b.inventory H).envelopes,
    (b.inventory H).hasPayload e = decide ((b.inventory H).identity e ∈ b.payloads)
  same : (b.inventory H).refreshDigest.Alike
    (fullCompactReplicationInventory H b.payloads b.ids)
  resume : ((b.inventory H).resumeDigest (b.inventory H).buckets (b.base H).2
    (b.lowestTouched H)).1 = (b.inventory H).refreshDigest

/-! ### Runs of insertions -/

section

variable {H : Hasher} {inv : CompactReplicationInventory H} {ids : List ReplicaEnvelopeId}

theorem foldl_insert_view (ids : List ReplicaEnvelopeId) (h : inv.WellFormed) :
    (ids.foldl insert inv).WellFormed ∧
      ∀ a, a ∈ (ids.foldl insert inv).view ↔ a ∈ ids ∨ a ∈ inv.view := by
  induction ids generalizing inv with
  | nil => exact ⟨h, fun a => by simp⟩
  | cons id ids ih =>
    obtain ⟨hwf, hmem⟩ := ih (insert_spec h id).1
    refine ⟨hwf, fun a => (hmem a).trans ?_⟩
    rw [mem_view_insert h, mem_cons]
    tauto

/-- No insertion marks a hash, and inserting a held identity of the hash takes the mark away. -/
theorem mem_payloadless_foldl (h : inv.WellFormed) {hash : String}
    (hmem : hash ∈ (ids.foldl insert inv).payloadless) :
    hash ∈ inv.payloadless ∧
      ∀ id ∈ ids, id ∈ inv.view → isSha256Hex id.hash = true → id.hash ≠ hash := by
  induction ids generalizing inv with
  | nil => exact ⟨hmem, forall_mem_nil _⟩
  | cons id ids ih =>
    obtain ⟨hwf, -, hmarks, -⟩ := insert_spec h id
    obtain ⟨hin, hrest⟩ := ih hwf hmem
    rw [hmarks] at hin
    have hheld : ∀ a ∈ inv.view, a ∈ (inv.insert id).view :=
      fun a ha => (mem_view_insert h id a).mpr (.inr ha)
    split at hin
    · rename_i hid
      obtain ⟨hne, hin⟩ := Finset.mem_erase.mp hin
      refine ⟨hin, forall_mem_cons.mpr ⟨fun _ _ => hne.symm, fun a ha hv => ?_⟩⟩
      exact hrest a ha (hheld a hv)
    · rename_i hid
      refine ⟨hin, forall_mem_cons.mpr ⟨fun hv hhex => absurd ⟨hv, hhex⟩ hid, ?_⟩⟩
      exact fun a ha hv => hrest a ha (hheld a hv)

/-- A mark stays when no identity of the hash is inserted. -/
theorem payloadless_foldl_of_forall (h : inv.WellFormed) {hash : String}
    (hin : hash ∈ inv.payloadless) (hne : ∀ id ∈ ids, id.hash ≠ hash) :
    hash ∈ (ids.foldl insert inv).payloadless := by
  induction ids generalizing inv with
  | nil => exact hin
  | cons id ids ih =>
    obtain ⟨hid, hids⟩ := forall_mem_cons.mp hne
    obtain ⟨hwf, -, hmarks, -⟩ := insert_spec h id
    refine ih hwf ?_ hids
    rw [hmarks]
    split
    · exact Finset.mem_erase.mpr ⟨hid.symm, hin⟩
    · exact hin

/-- The marks of identities whose hash is not SHA-256. -/
theorem mem_payloadlessIrregular_foldl (h : inv.WellFormed)
    (hsub : ∀ id ∈ inv.payloadlessIrregular, id ∈ inv.view ∧ isSha256Hex id.hash = false)
    {a : ReplicaEnvelopeId} :
    a ∈ (ids.foldl insert inv).payloadlessIrregular ↔ a ∈ inv.payloadlessIrregular ∧ a ∉ ids := by
  induction ids generalizing inv with
  | nil => simp
  | cons id ids ih =>
    obtain ⟨hwf, -, -, hmarks⟩ := insert_spec h id
    have hstep : ∀ x, x ∈ (inv.insert id).payloadlessIrregular ↔
        x ∈ inv.payloadlessIrregular ∧ x ≠ id := by
      intro x
      rw [hmarks]
      split
      · rw [Finset.mem_erase, and_comm]
      · rename_i hno
        refine ⟨fun hx => ⟨hx, ?_⟩, fun hx => hx.1⟩
        rintro rfl
        exact hno (hsub x hx)
    rw [foldl_cons, ih hwf fun x hx => ?_, hstep, mem_cons, not_or, and_assoc]
    obtain ⟨hv, hhex⟩ := hsub x ((hstep x).mp hx).1
    exact ⟨(mem_view_insert h id x).mpr (.inr hv), hhex⟩

end

/-! ### The inventory of a building -/

section

variable (b : Building) (H : Hasher)

theorem Building.pushed_spec :
    (b.pushedInventory H).view = b.pushed ∧ (b.pushedInventory H).WellFormed ∧
      Marked b.held ({} : CompactReplicationInventory H) (b.pushedInventory H) b.pushed := by
  have hempty : ({} : CompactReplicationInventory H).WellFormed :=
    ⟨List.Pairwise.nil, forall_mem_nil _, List.Pairwise.nil⟩
  exact foldl_pushRow b.held b.sorted hempty (forall_mem_nil _) fun id _ => forall_mem_nil _

theorem Building.base_eq : b.base H = ({ b.pushedInventory H with
      digest := H.replicationInventoryDigest (b.pushedInventory H).view },
        rangeStates H (b.pushedInventory H).view) :=
  resumeDigest_spec (b.pushed_spec H).2.1 (Nat.zero_le _) fun i _ state hget =>
    absurd hget (by simp)

theorem Building.base_wellFormed : (b.base H).1.WellFormed := by
  rw [b.base_eq]
  exact (b.pushed_spec H).2.1.congr rfl rfl rfl

theorem Building.base_view : (b.base H).1.view = b.pushed := by
  rw [b.base_eq]
  exact (b.pushed_spec H).1

theorem Building.base_states : (b.base H).2 = rangeStates H (b.base H).1.view := by
  rw [b.base_view, b.base_eq, ← (b.pushed_spec H).1]

theorem Building.base_marked :
    Marked b.held ({} : CompactReplicationInventory H) (b.base H).1 b.pushed := by
  rw [b.base_eq]
  exact ⟨(b.pushed_spec H).2.2.regular, (b.pushed_spec H).2.2.irregular⟩

theorem Building.wellFormed : (b.inventory H).WellFormed :=
  (foldl_insert_view b.inserted (b.base_wellFormed H)).1

theorem Building.mem_view : id ∈ (b.inventory H).view ↔ id ∈ b.ids := by
  refine ((foldl_insert_view b.inserted (b.base_wellFormed H)).2 id).trans ?_
  rw [b.base_view, b.mem_ids, or_comm]

/-- **The identities** of the inventory are those of the set, once each and in order. -/
theorem Building.view_eq : (b.inventory H).view = b.ids.sort (· ≤ ·) := by
  refine (b.wellFormed H).sorted.sortedLT.eq_of_mem_iff (sort_lt b.ids).sortedLT fun id => ?_
  rw [b.mem_view, Finset.mem_sort]

/-- Identities of one SHA-256 hash agree on whether their payload is there. -/
def Building.HashesAgree (b : Building) : Prop :=
  ∀ x ∈ b.ids, ∀ y ∈ b.ids, isSha256Hex x.hash = true → x.hash = y.hash →
    (x ∈ b.payloads ↔ y ∈ b.payloads)

/-- The mark of a SHA-256 hash, for one of its identities. -/
theorem Building.mem_payloadless (hagree : b.HashesAgree) (hid : id ∈ b.ids)
    (hhex : isSha256Hex id.hash = true) :
    id.hash ∈ (b.inventory H).payloadless ↔ id ∉ b.payloads := by
  have hmarked := b.base_marked H
  constructor
  · intro hmem hpay
    obtain ⟨hbase, hnone⟩ := mem_payloadless_foldl (b.base_wellFormed H) hmem
    obtain ⟨y, hy, hheld, -, hhash⟩ :=
      ((hmarked.regular _).mp hbase).resolve_left (Finset.notMem_empty _)
    have hyids : y ∈ b.ids := b.mem_ids.mpr (.inl hy)
    -- The marked identity has its payload too, so it was inserted while held.
    have hypay : y ∈ b.payloads := (hagree id hid y hyids hhex hhash.symm).mp hpay
    have hins : y ∈ b.inserted :=
      (b.mem_payloads.mp hypay).resolve_left fun h => hheld h.2
    exact hnone y hins (b.base_view H ▸ hy) (hhash ▸ hhex) hhash
  · intro hpay
    have hnot : ¬(id ∈ b.pushed ∧ id ∈ b.held) ∧ id ∉ b.inserted :=
      not_or.mp fun h => hpay (b.mem_payloads.mpr h)
    have hpushed : id ∈ b.pushed := (b.mem_ids.mp hid).resolve_right hnot.2
    refine payloadless_foldl_of_forall (b.base_wellFormed H) ?_ fun y hy hhash => ?_
    · exact (hmarked.regular _).mpr (.inr ⟨id, hpushed, fun h => hnot.1 ⟨hpushed, h⟩, hhex, rfl⟩)
    · have hyids : y ∈ b.ids := b.mem_ids.mpr (.inr hy)
      exact hpay ((hagree id hid y hyids hhex hhash.symm).mpr (b.mem_payloads.mpr (.inr hy)))

theorem Building.mem_payloadlessIrregular (hid : id ∈ b.ids) (hhex : isSha256Hex id.hash = false) :
    id ∈ (b.inventory H).payloadlessIrregular ↔ id ∉ b.payloads := by
  have hbase : ∀ x, x ∈ (b.base H).1.payloadlessIrregular ↔
      x ∈ b.pushed ∧ x ∉ b.held ∧ isSha256Hex x.hash = false := by
    intro x
    rw [(b.base_marked H).irregular]
    exact or_iff_right (Finset.notMem_empty _)
  refine (mem_payloadlessIrregular_foldl (b.base_wellFormed H) fun x hx => ?_).trans ?_
  · rw [b.base_view]
    exact ⟨((hbase x).mp hx).1, ((hbase x).mp hx).2.2⟩
  · rw [hbase, b.mem_payloads]
    have := b.mem_ids.mp hid
    tauto

/-- **The payloads** the inventory says it has. -/
theorem Building.payloadOf_inventory (hagree : b.HashesAgree) (hid : id ∈ b.ids) :
    (b.inventory H).payloadOf id = decide (id ∈ b.payloads) := by
  unfold payloadOf
  cases hhex : isSha256Hex id.hash with
  | true =>
    rw [if_pos rfl, decide_eq_decide, b.mem_payloadless H hagree hid hhex, not_not]
  | false =>
    rw [if_neg Bool.false_ne_true, decide_eq_decide, b.mem_payloadlessIrregular H hid hhex, not_not]

/-- A range of the inventory, with the end the code computes. -/
theorem Building.identities_range_eq (writer : String) {start : ℕ} (hstart : start ≤ u64Max) :
    (b.inventory H).identities ((b.inventory H).range writer start) =
      (b.ids.filter fun id => id.writer = writer ∧ start ≤ id.sequence ∧
        id.sequence < satAdd start replicationBucketWidth).sort (· ≤ ·) := by
  rw [identities_range (b.wellFormed H) writer hstart]
  refine ((b.wellFormed H).sorted.filter _).sortedLT.eq_of_mem_iff (sort_lt _).sortedLT fun id => ?_
  rw [mem_filter, b.mem_view, Finset.mem_sort, Finset.mem_filter, decide_eq_true_eq]

/-- **Resuming** at the first touched range gives the digest of the whole inventory. -/
theorem Building.resume_eq :
    ((b.inventory H).resumeDigest (b.inventory H).buckets (b.base H).2 (b.lowestTouched H)).1 =
      (b.inventory H).refreshDigest := by
  have hmem : ∀ a, a ∈ (b.inventory H).view ↔ a ∈ b.inserted ∨ a ∈ (b.base H).1.view :=
    (foldl_insert_view b.inserted (b.base_wellFormed H)).2
  have hlen : (b.base H).2.length ≤ (keys rangeOf (b.inventory H).view).length := by
    rw [b.base_states, rangeStates, length_map, length_range]
    exact length_keys_le hmem (b.base_wellFormed H)
  have hstates := rangeStates_resume hmem (b.base_wellFormed H) (b.wellFormed H)
  rw [← b.base_states] at hstates
  unfold lowestTouched
  rw [resumeDigest_spec (b.wellFormed H) hlen hstates]
  unfold refreshDigest
  rw [digestOf_eq]
  rfl

/-! ### Pushing the set -/

theorem Building.payloads_union : b.payloads ∪ b.ids = b.ids := by
  refine Finset.union_eq_right.mpr fun id hid => ?_
  rcases b.mem_payloads.mp hid with h | h
  · exact b.mem_ids.mpr (.inl h.1)
  · exact b.mem_ids.mpr (.inr h)

/-- **Pushing the set** in order builds an inventory that answers alike. -/
theorem Building.alike (hagree : b.HashesAgree) :
    (b.inventory H).refreshDigest.Alike (fullCompactReplicationInventory H b.payloads b.ids) := by
  obtain ⟨hview, hwf, -⟩ := full_spec H b.payloads b.ids
  rw [b.payloads_union, ← b.view_eq H] at hview
  have hwf' : (b.inventory H).refreshDigest.WellFormed := (b.wellFormed H).congr rfl rfl rfl
  have hsame : (b.inventory H).refreshDigest.view =
      (fullCompactReplicationInventory H b.payloads b.ids).view := hview.symm
  refine ⟨?_, (entries_eq_iff hwf' hwf).mpr ⟨fun id => by rw [hsame], fun id hid => ?_⟩, ?_,
    fun writer start hstart => ?_⟩
  · rw [full_digest, ← hsame]
    exact digestOf_eq _ _ _
  · have hids : id ∈ b.ids := (b.mem_view H).mp (hview ▸ hid)
    rw [full_payloadOf_of_agree H (b.payloads_union.symm ▸ hagree) (b.payloads_union.symm ▸ hids)]
    exact b.payloadOf_inventory H hagree hids
  · rw [buckets_eq hwf', buckets_eq hwf, hsame]
  · rw [identities_range hwf' writer hstart, identities_range hwf writer hstart, hsame]

end

/-! ### When the inventory is the set -/

section

variable (b : Building) (H : Hasher)

/-- No sequence is the largest `u64`. -/
def Building.BelowMax (b : Building) : Prop := ∀ id ∈ b.ids, id.sequence ≠ u64Max

theorem Building.le_u64Max (hid : id ∈ b.ids) : id.sequence ≤ u64Max :=
  b.fits id (mem_append.mpr (b.mem_ids.mp hid))

/-- The saturating end of a range excludes only the largest `u64`. -/
theorem lt_satAdd_iff {start sequence : ℕ} (h : sequence < u64Max) :
    sequence < satAdd start replicationBucketWidth ↔ sequence < start + replicationBucketWidth := by
  exact ⟨fun hlt => (lt_min_iff.mp hlt).1, fun hlt => lt_min hlt h⟩

theorem Building.range_of_belowMax (hmax : b.BelowMax) (writer : String) {start : ℕ}
    (hstart : start ≤ u64Max) :
    (b.inventory H).identities ((b.inventory H).range writer start) =
      (b.ids.filter fun id => id.writer = writer ∧ start ≤ id.sequence ∧
        id.sequence < start + replicationBucketWidth).sort (· ≤ ·) := by
  rw [b.identities_range_eq H writer hstart]
  refine congrArg (Finset.sort · (· ≤ ·)) (Finset.filter_congr fun id hid => ?_)
  rw [lt_satAdd_iff (lt_of_le_of_ne (b.le_u64Max hid) (hmax id hid))]

/-- A range that is right at the largest `u64` has no identity there. -/
theorem Building.belowMax_of_range
    (hrange : ∀ writer start, start ≤ u64Max →
      (b.inventory H).identities ((b.inventory H).range writer start) =
        (b.ids.filter fun id => id.writer = writer ∧ start ≤ id.sequence ∧
          id.sequence < start + replicationBucketWidth).sort (· ≤ ·)) : b.BelowMax := by
  intro id hid hseq
  have hin : id ∈ (b.ids.filter fun a => a.writer = id.writer ∧ u64Max ≤ a.sequence ∧
      a.sequence < u64Max + replicationBucketWidth).sort (· ≤ ·) := by
    rw [Finset.mem_sort, Finset.mem_filter, hseq]
    exact ⟨hid, rfl, le_rfl, Nat.lt_add_of_pos_right (by decide)⟩
  rw [← hrange id.writer u64Max le_rfl, b.identities_range_eq H id.writer le_rfl,
    Finset.mem_sort, Finset.mem_filter, hseq] at hin
  exact absurd (lt_min_iff.mp hin.2.2.2).2 (lt_irrefl _)

/-- Identities of one hash get one answer. -/
theorem Building.hashesAgree_of_payload
    (hpayload : ∀ e ∈ (b.inventory H).envelopes,
      (b.inventory H).hasPayload e = decide ((b.inventory H).identity e ∈ b.payloads)) :
    b.HashesAgree := by
  have hanswer : ∀ x ∈ b.ids, (b.inventory H).payloadOf x = decide (x ∈ b.payloads) := by
    intro x hx
    obtain ⟨e, he, rfl⟩ := CompactReplicationInventory.mem_view.mp ((b.mem_view H).mpr hx)
    rw [← (b.wellFormed H).hasPayload he]
    exact hpayload e he
  intro x hx y hy hhex hhash
  rw [← decide_eq_decide, ← hanswer x hx, ← hanswer y hy]
  unfold payloadOf
  rw [← hhash, if_pos hhex, if_pos hhex]

end

/-- One identity, at the largest sequence. -/
def lastSequence : Building where
  pushed := [⟨"example-linux", u64Max, "not-a-hash"⟩]
  held := {⟨"example-linux", u64Max, "not-a-hash"⟩}
  inserted := []
  sorted := pairwise_singleton _ _
  fits := by simp

end SmallTalk.Replication
