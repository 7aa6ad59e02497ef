import SmallTalk.Replication.Difference

/-!
# Replication — snapshots

`build_replication_snapshot` of `store.rs`: the inventory, its range digests and its digest,
extended from the previous snapshot when the row counts moved exactly by the new rows, and read
whole otherwise.

* `foldl_insert`, `upsert_buckets`: an inventory extended by new rows, and its range digests.
* `extended_exact_iff`: when an extended snapshot says what the tables say.
-/

namespace SmallTalk.Replication

open CompactReplicationInventory List Sorted

variable {id : ReplicaEnvelopeId}

/-! ### The tables -/

/-- `replica_envelopes`, by rowid, and `checkpoint_envelopes`. -/
structure Tables where
  rows : List (ℕ × ReplicaEnvelopeId)
  dropped : Finset ReplicaEnvelopeId
  ascending : rows.Pairwise fun a b => a.1 < b.1
  /-- The primary key. -/
  distinct : rows.Pairwise fun a b => a.2 ≠ b.2
  bounded : ∀ row ∈ rows, row.2.sequence < sequenceBound
  droppedBounded : ∀ id ∈ dropped, id.sequence < sequenceBound

namespace Tables

variable (t : Tables) (envelopes : List ReplicaEnvelopeId)

def held : Finset ReplicaEnvelopeId := (t.rows.map (·.2)).toFinset

/-- The largest rowid, zero without rows. -/
def maxRowid : ℕ := (t.rows.map (·.1)).foldr max 0

/-- The rows past a rowid. -/
def additions (rowid : ℕ) : List (ℕ × ReplicaEnvelopeId) :=
  t.rows.filter fun row => rowid < row.1

theorem mem_held {t : Tables} : id ∈ t.held ↔ ∃ row ∈ t.rows, row.2 = id := by
  simp [held]

theorem maxRowid_le_iff {t : Tables} {n : ℕ} : t.maxRowid ≤ n ↔ ∀ row ∈ t.rows, row.1 ≤ n := by
  rw [maxRowid, foldr_max_le_iff, and_iff_right (Nat.zero_le n), forall_mem_map]

theorem le_maxRowid {t : Tables} {row : ℕ × ReplicaEnvelopeId} (h : row ∈ t.rows) :
    row.1 ≤ t.maxRowid :=
  maxRowid_le_iff.mp le_rfl row h

/-- `INSERT OR IGNORE INTO replica_envelopes`. SQLite gives a new row the rowid after the largest,
and refuses a sequence that is not a signed integer. -/
def insertRow (id : ReplicaEnvelopeId) : Tables :=
  if h : id ∉ t.held ∧ id.sequence < sequenceBound then
    { rows := t.rows ++ [(t.maxRowid + 1, id)]
      dropped := t.dropped
      ascending := by
        refine pairwise_append.mpr ⟨t.ascending, pairwise_singleton _ _, ?_⟩
        intro row hrow new hnew
        rw [mem_singleton.mp hnew]
        exact Nat.lt_succ_of_le (le_maxRowid hrow)
      distinct := by
        refine pairwise_append.mpr ⟨t.distinct, pairwise_singleton _ _, ?_⟩
        intro row hrow new hnew he
        rw [mem_singleton.mp hnew] at he
        exact h.1 (mem_held.mpr ⟨row, hrow, he⟩)
      bounded := by
        intro row hrow
        rcases mem_append.mp hrow with hrow | hrow
        · exact t.bounded row hrow
        · rw [mem_singleton.mp hrow]
          exact h.2
      droppedBounded := t.droppedBounded }
  else t

/-- Receive a peer's envelopes. A tombstone already stands for a dropped one. -/
def receiveEnvelopes : Tables :=
  envelopes.foldl (fun t id => if id ∈ t.dropped then t else t.insertRow id) t

/-- Store the envelopes of local batches (`seed_replica_envelopes_signed_tx`). -/
def seedReplicaEnvelopes : Tables :=
  envelopes.foldl insertRow t

def recordCheckpointTombstones : Tables :=
  { t with
    dropped := t.dropped ∪ envelopes.toFinset.filter fun id => id.sequence < sequenceBound
    droppedBounded := by
      intro id hid
      rcases Finset.mem_union.mp hid with hid | hid
      · exact t.droppedBounded id hid
      · exact (Finset.mem_filter.mp hid).2 }

/-- Delete every tombstone that is not among `envelopes`. -/
def keepOnlyTombstones : Tables :=
  { t with
    dropped := t.dropped.filter fun id => id ∈ envelopes
    droppedBounded := fun id hid => t.droppedBounded id (Finset.mem_of_mem_filter id hid) }

/-- Delete the rows of a chunk that tombstones stand for. -/
def deleteDroppedRows (chunk : List ReplicaEnvelopeId) : Tables :=
  { t with
    rows := t.rows.filter fun row => ¬ (row.2 ∈ chunk ∧ row.2 ∈ t.dropped)
    ascending := t.ascending.filter _
    distinct := t.distinct.filter _
    bounded := fun row hrow => t.bounded row (mem_of_mem_filter hrow) }

end Tables

/-! ### Building a snapshot -/

/-- What a snapshot keeps of the replicated log. -/
structure ReplicationSnapshot (H : Hasher) where
  maxEnvelopeRowid : ℕ
  /-- Rows of the two tables when the snapshot was built. -/
  envelopeRows : ℕ
  tombstoneRows : ℕ
  inventory : CompactReplicationInventory H
  buckets : List (ReplicationInventoryBucket H)
  /-- The inventory digest state before each range in `buckets`. -/
  digestPrefixes : List H.State

/-- An inventory before its digest is resumed. -/
structure SnapshotDraft (H : Hasher) where
  inventory : CompactReplicationInventory H
  maxRowid : ℕ
  buckets : List (ReplicationInventoryBucket H)
  digestPrefixes : List H.State
  resumeFrom : ℕ

variable {H : Hasher}

namespace CompactReplicationInventory

/-- The loop of `resume_digest` over the ranges left. -/
def resumeRanges (inv : CompactReplicationInventory H) (position : ℕ) (digest : H.State)
    (states : List H.State) : List (ReplicationInventoryBucket H) → H.State × List H.State
  | [] => (digest, states)
  | bucket :: rest =>
    inv.resumeRanges (position + bucket.count)
      (((inv.envelopes.drop position).take bucket.count).foldl
        (fun digest e => H.updateIdentityDigest digest (inv.identity e)) digest)
      (states ++ [digest]) rest

/-- Set the inventory digest by resuming at range `start` (`from` in the source). -/
def resumeDigest (inv : CompactReplicationInventory H)
    (buckets : List (ReplicationInventoryBucket H)) (states : List H.State) (start : ℕ) :
    CompactReplicationInventory H × List H.State :=
  let start := min start (states.length - 1)
  let digest := states[start]?.getD (H.domainState inventoryDigestDomain)
  let position := ((buckets.take start).map (·.count)).sum
  let (digest, states) :=
    inv.resumeRanges position digest (states.take start) (buckets.drop start)
  ({ inv with digest := H.finalize digest }, states)

end CompactReplicationInventory

/-- Read the tables whole. -/
def fullDraft (H : Hasher) (t : Tables) : SnapshotDraft H :=
  let inventory := fullCompactReplicationInventory H t.held t.dropped
  { inventory
    maxRowid := t.maxRowid
    buckets := inventory.buckets
    digestPrefixes := []
    resumeFrom := 0 }

/-- Extend the previous snapshot by new rows. -/
def extendedDraft (previous : ReplicationSnapshot H) (additions : List (ℕ × ReplicaEnvelopeId)) :
    SnapshotDraft H :=
  let identities := additions.map (·.2)
  let inventory := identities.foldl insert previous.inventory
  let touched := (identities.map rangeOf).toFinset.sort (· ≤ ·)
  -- Only the ranges that gained an envelope need a new digest.
  let buckets := (touched.map fun k =>
    inventory.bucket (inventory.range (ofLex k).1 (ofLex k).2)).foldl
      (upsert ReplicationInventoryBucket.key) previous.buckets
  { inventory
    maxRowid := (additions.map (·.1)).foldr max previous.maxEnvelopeRowid
    buckets
    digestPrefixes := previous.digestPrefixes
    resumeFrom := (touched.map fun k =>
      partitionPoint (fun bucket => bucket.key < k) buckets).min?.getD buckets.length }

/-- Whether both tables moved exactly by the rows past the previous snapshot's. -/
def Extends (previous : ReplicationSnapshot H) (t : Tables) : Prop :=
  t.rows.length = previous.envelopeRows + (t.additions previous.maxEnvelopeRowid).length ∧
    t.dropped.card = previous.tombstoneRows

instance (previous : ReplicationSnapshot H) (t : Tables) : Decidable (Extends previous t) :=
  inferInstanceAs (Decidable (_ ∧ _))

def snapshotDraft (previous : Option (ReplicationSnapshot H)) (t : Tables) : SnapshotDraft H :=
  match previous with
  | none => fullDraft H t
  | some previous =>
    if Extends previous t then
      extendedDraft previous (t.additions previous.maxEnvelopeRowid)
    else fullDraft H t

def buildReplicationSnapshot (previous : Option (ReplicationSnapshot H)) (t : Tables) :
    ReplicationSnapshot H :=
  let draft := snapshotDraft previous t
  let resumed := draft.inventory.resumeDigest draft.buckets draft.digestPrefixes draft.resumeFrom
  { maxEnvelopeRowid := draft.maxRowid
    envelopeRows := t.rows.length
    tombstoneRows := t.dropped.card
    inventory := resumed.1
    buckets := draft.buckets
    digestPrefixes := resumed.2 }

/-! ### Resuming the digest -/

section

/-- The digest state after identities. -/
def stateAfter (H : Hasher) (ids : List ReplicaEnvelopeId) : H.State :=
  ids.foldl H.updateIdentityDigest (H.domainState inventoryDigestDomain)

/-- The digest state before the `i`-th range. -/
def stateBefore (H : Hasher) (ids : List ReplicaEnvelopeId) (i : ℕ) : H.State :=
  stateAfter H (((keys rangeOf ids).take i).flatMap (ofKey rangeOf ids))

/-- The digest states before each range. -/
def rangeStates (H : Hasher) (ids : List ReplicaEnvelopeId) : List H.State :=
  (List.range (keys rangeOf ids).length).map (stateBefore H ids)

variable {inv : CompactReplicationInventory H}

theorem stateAfter_append (H : Hasher) (ids ids' : List ReplicaEnvelopeId) :
    stateAfter H (ids ++ ids') = ids'.foldl H.updateIdentityDigest (stateAfter H ids) :=
  foldl_append

theorem flatMap_keys (h : inv.WellFormed) :
    (keys rangeOf inv.view).flatMap (ofKey rangeOf inv.view) = inv.view :=
  flatMap_ofKey (keys_sorted (view_ranges_sorted h)) (view_ranges_sorted h)
    fun id hid => mem_keys.mpr ⟨id, hid, rfl⟩

/-- The loop, from the range after `done` on. -/
theorem resumeRanges_spec (h : inv.WellFormed) {done ks : List (String ×ₗ ℕ)}
    (hks : keys rangeOf inv.view = done ++ ks) (states : List H.State) :
    inv.resumeRanges (done.flatMap (ofKey rangeOf inv.view)).length
        (stateBefore H inv.view done.length) states (ks.map (bucketOf H inv.view)) =
      (stateAfter H inv.view, states ++
        (List.range ks.length).map fun i => stateBefore H inv.view (done.length + i)) := by
  have hbefore : stateBefore H inv.view done.length =
      stateAfter H (done.flatMap (ofKey rangeOf inv.view)) := by
    rw [stateBefore, hks, take_left]
  induction ks generalizing done states with
  | nil =>
    rw [append_nil] at hks
    rw [map_nil, resumeRanges, hbefore, ← hks, flatMap_keys h]
    simp
  | cons k ks ih =>
    have hview : inv.view = done.flatMap (ofKey rangeOf inv.view) ++
        (ofKey rangeOf inv.view k ++ ks.flatMap (ofKey rangeOf inv.view)) := by
      conv_lhs => rw [← flatMap_keys h, hks]
      rw [flatMap_append, flatMap_cons]
    have hslice : ((inv.envelopes.drop (done.flatMap (ofKey rangeOf inv.view)).length).take
        (bucketOf H inv.view k).count).map inv.identity = ofKey rangeOf inv.view k := by
      rw [map_take, map_drop]
      have hdrop := congrArg (List.drop (done.flatMap (ofKey rangeOf inv.view)).length) hview
      rw [drop_left] at hdrop
      exact (congrArg (List.take _) hdrop).trans (take_left' rfl)
    have hks' : keys rangeOf inv.view = done ++ [k] ++ ks := by
      rw [hks, append_assoc]
      rfl
    have hnext : stateBefore H inv.view (done ++ [k]).length =
        (ofKey rangeOf inv.view k).foldl H.updateIdentityDigest
          (stateBefore H inv.view done.length) := by
      rw [hbefore, ← stateAfter_append, stateBefore, hks', take_left]
      simp
    have hpos : (done.flatMap (ofKey rangeOf inv.view)).length + (bucketOf H inv.view k).count =
        ((done ++ [k]).flatMap (ofKey rangeOf inv.view)).length := by
      simp [bucketOf]
    rw [map_cons, resumeRanges, ← foldl_map, hslice, hpos, ← hnext]
    rw [ih hks' _ (by rw [stateBefore, hks', take_left])]
    rw [length_cons, range_succ_eq_map, map_cons, map_map, append_assoc]
    refine congrArg (fun states' => (stateAfter H inv.view, states ++ states')) ?_
    refine congrArg (stateBefore H inv.view done.length :: ·) (map_congr_left fun i _ => ?_)
    simp [Nat.add_comm, Nat.add_left_comm]

/-- **Resuming the digest** at a range gives the digest of the whole inventory, if the states up to
that range are still right. -/
theorem resumeDigest_spec (h : inv.WellFormed) {states : List H.State} {start : ℕ}
    (hlen : states.length ≤ (keys rangeOf inv.view).length)
    (hstates : ∀ i ≤ start, ∀ state, states[i]? = some state → state = stateBefore H inv.view i) :
    inv.resumeDigest inv.buckets states start =
      ({ inv with digest := H.replicationInventoryDigest inv.view }, rangeStates H inv.view) := by
  obtain ⟨i, hi⟩ : ∃ i, i = min start (states.length - 1) := ⟨_, rfl⟩
  have hile : i ≤ (keys rangeOf inv.view).length := by omega
  have hstate : states[i]?.getD (H.domainState inventoryDigestDomain) =
      stateBefore H inv.view i := by
    cases hget : states[i]? with
    | some state => exact hstates i (hi ▸ min_le_left _ _) state hget
    | none =>
      have : i = 0 := by
        have := List.getElem?_eq_none_iff.mp hget
        omega
      rw [this]
      rfl
  have htake : states.take i = (List.range i).map (stateBefore H inv.view) := by
    refine ext_getElem? fun j => ?_
    rw [List.getElem?_take, List.getElem?_map]
    by_cases hj : j < i
    · have hlt : j < states.length := by omega
      rw [if_pos hj, List.getElem?_range hj, List.getElem?_eq_getElem hlt]
      exact congrArg some (hstates j (by omega) _ (List.getElem?_eq_getElem hlt))
    · rw [if_neg hj, List.getElem?_eq_none (by simpa using Nat.le_of_not_lt hj)]
      rfl
  have hcount : ((inv.buckets.take i).map (·.count)).sum =
      (((keys rangeOf inv.view).take i).flatMap (ofKey rangeOf inv.view)).length := by
    rw [buckets_eq h, ← map_take, map_map, length_flatMap]
    rfl
  have hsplit : keys rangeOf inv.view =
      (keys rangeOf inv.view).take i ++ (keys rangeOf inv.view).drop i :=
    (take_append_drop _ _).symm
  have hdone : ((keys rangeOf inv.view).take i).length = i := length_take_of_le hile
  have hloop := resumeRanges_spec h hsplit (states.take i)
  rw [hdone] at hloop
  have hall : states.take i ++ (List.range ((keys rangeOf inv.view).drop i).length).map
      (fun j => stateBefore H inv.view (i + j)) = rangeStates H inv.view := by
    have hn : (keys rangeOf inv.view).length = i + ((keys rangeOf inv.view).drop i).length := by
      rw [length_drop]
      omega
    rw [htake, rangeStates, hn, range_add, map_append, map_map]
    rfl
  unfold resumeDigest
  dsimp only
  rw [← hi, hstate, hcount, buckets_eq h, ← map_drop, hloop, hall]
  rfl

end

/-! ### Inserting new rows -/

/-- Among `S`, an envelope hash names one identity: it covers the writer and the sequence. -/
def HashNames (S : Finset ReplicaEnvelopeId) : Prop :=
  ∀ a ∈ S, ∀ b ∈ S, isSha256Hex a.hash = true → a.hash = b.hash → a = b

/-- An inventory of identities in `S`, which marks no others as dropped. -/
structure InventoryOf (inv : CompactReplicationInventory H) (S : Finset ReplicaEnvelopeId) :
    Prop where
  wellFormed : inv.WellFormed
  mem : ∀ id ∈ inv.view, id ∈ S
  bounded : ∀ id ∈ inv.view, id.sequence < sequenceBound
  regular : ∀ hash ∈ inv.payloadless,
    ∃ id ∈ inv.view, isSha256Hex id.hash = true ∧ id.hash = hash
  irregular : ∀ id ∈ inv.payloadlessIrregular, id ∈ inv.view

section

variable {inv : CompactReplicationInventory H} {S : Finset ReplicaEnvelopeId}

theorem mem_view_insert (h : inv.WellFormed) (id a : ReplicaEnvelopeId) :
    a ∈ (inv.insert id).view ↔ a = id ∨ a ∈ inv.view := by
  rw [(insert_spec h id).2.1]
  split
  · rename_i hmem
    exact ⟨.inr, fun h => h.elim (fun he => he ▸ hmem) fun h => h⟩
  · exact mem_orderedInsert _

/-- An inserted identity has its payload, and no other one changes. -/
theorem payloadOf_insert (hS : HashNames S) (h : InventoryOf inv S) {id a : ReplicaEnvelopeId}
    (hid : id ∈ S) (ha : a ∈ S) :
    (inv.insert id).payloadOf a = (inv.payloadOf a || decide (a = id)) := by
  obtain ⟨-, -, hregular, hirregular⟩ := insert_spec h.wellFormed id
  have hsame : isSha256Hex a.hash = true → a.hash = id.hash → a = id := hS a ha id hid
  have hlisted : isSha256Hex a.hash = true → a.hash ∈ inv.payloadless → a ∈ inv.view := by
    intro hhex hin
    obtain ⟨b, hb, -, hbh⟩ := h.regular _ hin
    exact hS a ha b (h.mem b hb) hhex hbh.symm ▸ hb
  have hlisted' := h.irregular a
  unfold payloadOf
  rw [hregular, hirregular]
  grind

theorem InventoryOf.insert (h : InventoryOf inv S) (hid : id ∈ S)
    (hbound : id.sequence < sequenceBound) : InventoryOf (inv.insert id) S := by
  obtain ⟨hwf, -, hregular, hirregular⟩ := insert_spec h.wellFormed id
  have hmem := mem_view_insert h.wellFormed id
  refine ⟨hwf, fun a ha => ?_, fun a ha => ?_, fun hash hin => ?_, fun a hin => ?_⟩
  · rcases (hmem a).mp ha with rfl | ha
    · exact hid
    · exact h.mem a ha
  · rcases (hmem a).mp ha with rfl | ha
    · exact hbound
    · exact h.bounded a ha
  · have hold : hash ∈ inv.payloadless := by
      rw [hregular] at hin
      split at hin
      · exact Finset.mem_of_mem_erase hin
      · exact hin
    obtain ⟨b, hb, hhex⟩ := h.regular hash hold
    exact ⟨b, (hmem b).mpr (.inr hb), hhex⟩
  · rw [hirregular] at hin
    refine (hmem a).mpr (.inr (h.irregular a ?_))
    split at hin
    · exact Finset.mem_of_mem_erase hin
    · exact hin

/-- **Inserting rows**: the inventory lists them too, with their payloads. -/
theorem foldl_insert (hS : HashNames S) {ids : List ReplicaEnvelopeId}
    (hids : ∀ id ∈ ids, id ∈ S ∧ id.sequence < sequenceBound) (h : InventoryOf inv S) :
    InventoryOf (ids.foldl insert inv) S ∧
      (∀ a, a ∈ (ids.foldl insert inv).view ↔ a ∈ ids ∨ a ∈ inv.view) ∧
      ∀ a ∈ S, (ids.foldl insert inv).payloadOf a = (inv.payloadOf a || decide (a ∈ ids)) := by
  induction ids generalizing inv with
  | nil => exact ⟨h, fun a => by simp, fun a _ => by simp⟩
  | cons id ids ih =>
    obtain ⟨⟨hid, hbound⟩, hids⟩ := forall_mem_cons.mp hids
    obtain ⟨hof, hmem, hpayload⟩ := ih hids (h.insert hid hbound)
    refine ⟨hof, fun a => ?_, fun a ha => ?_⟩
    · rw [foldl_cons, hmem, mem_view_insert h.wellFormed, mem_cons]
      tauto
    · rw [foldl_cons, hpayload a ha, payloadOf_insert hS h hid ha, Bool.or_assoc, ← Bool.decide_or]
      exact congrArg _ (decide_eq_decide.mpr mem_cons.symm)

end

/-! ### Extending the range digests -/

section

variable {inv inv' : CompactReplicationInventory H} {adds : List ReplicaEnvelopeId}
  (hmem : ∀ a, a ∈ inv'.view ↔ a ∈ adds ∨ a ∈ inv.view)

include hmem

/-- A range that gained nothing has the same identities. -/
theorem ofKey_untouched (h : inv.WellFormed) (h' : inv'.WellFormed) {k : String ×ₗ ℕ}
    (hk : k ∉ adds.map rangeOf) : ofKey rangeOf inv'.view k = ofKey rangeOf inv.view k := by
  refine (h'.sorted.filter _).sortedLT.eq_of_mem_iff (h.sorted.filter _).sortedLT fun a => ?_
  refine mem_ofKey.trans (Iff.trans ?_ mem_ofKey.symm)
  rw [hmem]
  refine ⟨?_, fun ha => ⟨.inr ha.1, ha.2⟩⟩
  rintro ⟨ha | ha, rfl⟩
  · exact absurd (mem_map_of_mem ha) hk
  · exact ⟨ha, rfl⟩

theorem mem_keys_extended {k : String ×ₗ ℕ} :
    k ∈ keys rangeOf inv'.view ↔ k ∈ adds.map rangeOf ∨ k ∈ keys rangeOf inv.view := by
  simp only [Sorted.mem_keys, hmem, mem_map, or_and_right, exists_or]

omit hmem in
theorem buckets_sorted (h : inv.WellFormed) : inv.buckets.Pairwise fun a b => a.key < b.key := by
  rw [buckets_eq h, pairwise_map]
  exact keys_sorted (view_ranges_sorted h)

/-- **The range digests** of an extended inventory: only the ranges that gained an identity are new. -/
theorem upsert_buckets (h : inv.WellFormed) (h' : inv'.WellFormed)
    (hbound : ∀ id ∈ inv'.view, id.sequence < sequenceBound) :
    (((adds.map rangeOf).toFinset.sort (· ≤ ·)).map fun k =>
      inv'.bucket (inv'.range (ofLex k).1 (ofLex k).2)).foldl
        (upsert ReplicationInventoryBucket.key) inv.buckets = inv'.buckets := by
  have hnew : ((adds.map rangeOf).toFinset.sort (· ≤ ·)).map (fun k =>
      inv'.bucket (inv'.range (ofLex k).1 (ofLex k).2)) =
        ((adds.map rangeOf).toFinset.sort (· ≤ ·)).map (bucketOf H inv'.view) := by
    refine map_congr_left fun k hk => ?_
    rw [Finset.mem_sort, mem_toFinset] at hk
    have hkeys : k ∈ keys rangeOf inv'.view := (mem_keys_extended hmem).mpr (.inl hk)
    have hids := identities_range_key h' hbound hkeys
    refine bucket_ofKey h' (fun hnil => ?_) (fun e he => mem_envelopes_of_mem_range he) hids
    rw [hnil] at hids
    exact ofKey_ne_nil.mpr hkeys hids.symm
  have hdistinct : (((adds.map rangeOf).toFinset.sort (· ≤ ·)).map
      (bucketOf H inv'.view)).Pairwise fun a b => a.key ≠ b.key := by
    rw [pairwise_map]
    exact Finset.sort_nodup _ _
  obtain ⟨hsorted, hiff⟩ := foldl_upsert hdistinct (buckets_sorted h)
  rw [hnew]
  refine eq_of_mem_iff hsorted (buckets_sorted h') fun b => ?_
  rw [hiff, buckets_eq h, buckets_eq h']
  simp only [mem_map, Finset.mem_sort, mem_toFinset, forall_exists_index, and_imp]
  constructor
  · rintro (⟨k, hk, rfl⟩ | ⟨⟨k, hk, rfl⟩, hnot⟩)
    · exact ⟨k, (mem_keys_extended hmem).mpr (.inl (mem_map.mpr hk)), rfl⟩
    · refine ⟨k, (mem_keys_extended hmem).mpr (.inr hk), ?_⟩
      have huntouched : k ∉ adds.map rangeOf := by
        intro htouched
        obtain ⟨id, hid, he⟩ := mem_map.mp htouched
        exact hnot _ k id hid he rfl rfl
      unfold bucketOf
      rw [ofKey_untouched hmem h h' huntouched]
  · rintro ⟨k, hk, rfl⟩
    by_cases htouched : k ∈ adds.map rangeOf
    · exact .inl ⟨k, mem_map.mp htouched, rfl⟩
    · refine .inr ⟨⟨k, ((mem_keys_extended hmem).mp hk).resolve_left htouched, ?_⟩, ?_⟩
      · unfold bucketOf
        rw [ofKey_untouched hmem h h' htouched]
      · rintro b k' id hid he rfl hkey
        exact htouched (mem_map.mpr ⟨id, hid, he.trans hkey.symm⟩)

theorem length_keys_le (h : inv.WellFormed) :
    (keys rangeOf inv.view).length ≤ (keys rangeOf inv'.view).length := by
  have hnodup : (keys rangeOf inv.view).Nodup :=
    (keys_sorted (view_ranges_sorted h)).nodup
  exact (hnodup.subperm fun k hk => (mem_keys_extended hmem).mpr (.inr hk)).length_le

/-- The digest state before a range is still right if no range before it gained an identity. -/
theorem stateBefore_untouched (h : inv.WellFormed) (h' : inv'.WellFormed) {i : ℕ}
    (hi : i ≤ (keys rangeOf inv'.view).length)
    (huntouched : ∀ k ∈ (keys rangeOf inv'.view).take i, k ∉ adds.map rangeOf) :
    stateBefore H inv.view i = stateBefore H inv'.view i := by
  have htake : (keys rangeOf inv.view).take i = (keys rangeOf inv'.view).take i := by
    refine take_eq_of_subset (keys_sorted (view_ranges_sorted h))
      (keys_sorted (view_ranges_sorted h')) (fun k hk => ?_) hi fun k hk => ?_
    · exact (mem_keys_extended hmem).mpr (.inr hk)
    · exact ((mem_keys_extended hmem).mp (mem_of_mem_take hk)).resolve_left (huntouched k hk)
  unfold stateBefore
  rw [htake]
  refine congrArg (stateAfter H) (flatMap_congr fun k hk => ?_)
  exact (ofKey_untouched hmem h h' (huntouched k hk)).symm

/-- The states of an inventory, up to where the extended one is resumed. -/
theorem rangeStates_resume (h : inv.WellFormed) (h' : inv'.WellFormed) :
    ∀ i ≤ (((adds.map rangeOf).toFinset.sort (· ≤ ·)).map fun k =>
        partitionPoint (fun bucket => bucket.key < k) inv'.buckets).min?.getD inv'.buckets.length,
      ∀ state, (rangeStates H inv.view)[i]? = some state → state = stateBefore H inv'.view i := by
  intro i hi state hget
  rw [rangeStates, List.getElem?_map, Option.map_eq_some_iff] at hget
  obtain ⟨j, hj, rfl⟩ := hget
  obtain ⟨hlt, rfl⟩ := List.getElem?_eq_some_iff.mp hj
  rw [length_range] at hlt
  rw [getElem_range]
  have hle : i ≤ (keys rangeOf inv'.view).length := hlt.le.trans (length_keys_le hmem h)
  refine stateBefore_untouched hmem h h' hle fun k hk htouched => ?_
  have hpoint : i ≤ partitionPoint (fun bucket => bucket.key < k) inv'.buckets := by
    refine hi.trans (List.min?_getD_le_of_mem (mem_map.mpr ⟨k, ?_, rfl⟩))
    rwa [Finset.mem_sort, mem_toFinset]
  have hbucket : bucketOf H inv'.view k ∈ inv'.buckets.take i := by
    rw [buckets_eq h', ← map_take]
    exact mem_map_of_mem hk
  exact lt_irrefl k (of_decide_eq_true (of_mem_take hpoint hbucket))

end

/-! ### What a snapshot says -/

/-- The identities an inventory lists, each with whether its payload is there. -/
def CompactReplicationInventory.entries (inv : CompactReplicationInventory H) :
    List (ReplicaEnvelopeId × Bool) :=
  inv.envelopes.map fun e => (inv.identity e, inv.hasPayload e)

/-- A snapshot says what the tables, read whole, say. -/
structure ReplicationSnapshot.Exact (s : ReplicationSnapshot H) (t : Tables) : Prop where
  entries : s.inventory.entries = (fullCompactReplicationInventory H t.held t.dropped).entries
  buckets : s.buckets = (fullCompactReplicationInventory H t.held t.dropped).buckets
  digest : s.inventory.digest = (fullCompactReplicationInventory H t.held t.dropped).digest

/-- A snapshot's own parts agree. -/
structure ReplicationSnapshot.Sound (s : ReplicationSnapshot H) (S : Finset ReplicaEnvelopeId) :
    Prop where
  inventory : InventoryOf s.inventory S
  buckets : s.buckets = s.inventory.buckets
  states : s.digestPrefixes = rangeStates H s.inventory.view
  digest : s.inventory.digest = H.replicationInventoryDigest s.inventory.view

/-- The stored envelopes are those the previous snapshot lists with their payload and the rows past
it, and the other tombstones are the other identities it lists. -/
structure Current (previous : ReplicationSnapshot H) (t : Tables) : Prop where
  held : ∀ id, id ∈ t.held ↔ (id, true) ∈ previous.inventory.entries ∨
    id ∈ (t.additions previous.maxEnvelopeRowid).map (·.2)
  dropped : ∀ id, id ∉ t.held → (id ∈ t.dropped ↔ id ∈ previous.inventory.view)

section

variable {S : Finset ReplicaEnvelopeId} {previous : ReplicationSnapshot H} {t : Tables}

/-- The identities of the rows past the previous snapshot's. -/
abbrev added (previous : ReplicationSnapshot H) (t : Tables) : List ReplicaEnvelopeId :=
  (t.additions previous.maxEnvelopeRowid).map (·.2)

theorem held_of_added (h : id ∈ added previous t) : id ∈ t.held := by
  obtain ⟨row, hrow, rfl⟩ := mem_map.mp h
  exact Tables.mem_held.mpr ⟨row, mem_of_mem_filter hrow, rfl⟩

theorem entries_eq {inv : CompactReplicationInventory H} (h : inv.WellFormed) :
    inv.entries = inv.view.map fun id => (id, inv.payloadOf id) := by
  unfold entries view identities
  rw [map_map]
  exact map_congr_left fun e he => congrArg (Prod.mk _) (h.hasPayload he)

theorem mem_entries {inv : CompactReplicationInventory H} (h : inv.WellFormed) :
    (id, true) ∈ inv.entries ↔ id ∈ inv.view ∧ inv.payloadOf id = true := by
  rw [entries_eq h, mem_map]
  constructor
  · rintro ⟨a, ha, he⟩
    obtain ⟨rfl, hp⟩ := Prod.mk.inj he
    exact ⟨ha, hp⟩
  · rintro ⟨hid, hp⟩
    exact ⟨id, hid, by rw [hp]⟩

theorem entries_eq_iff {inv inv' : CompactReplicationInventory H} (h : inv.WellFormed)
    (h' : inv'.WellFormed) : inv.entries = inv'.entries ↔
      (∀ id, id ∈ inv.view ↔ id ∈ inv'.view) ∧
        ∀ id ∈ inv'.view, inv.payloadOf id = inv'.payloadOf id := by
  rw [entries_eq h, entries_eq h']
  constructor
  · intro heq
    have hview : inv.view = inv'.view := by
      have hfst := congrArg (List.map Prod.fst) heq
      simpa [Function.comp_def] using hfst
    rw [hview] at heq
    refine ⟨fun id => by rw [hview], fun id hid => ?_⟩
    exact congrArg Prod.snd (map_inj_left.mp heq id hid)
  · rintro ⟨hmem, hpayload⟩
    rw [h.sorted.sortedLT.eq_of_mem_iff h'.sorted.sortedLT hmem]
    exact map_congr_left fun id hid => by rw [hpayload id hid]

theorem Tables.ids_bounded (t : Tables) (hid : id ∈ t.held ∪ t.dropped) :
    id.sequence < sequenceBound := by
  rcases Finset.mem_union.mp hid with hid | hid
  · obtain ⟨row, hrow, rfl⟩ := Tables.mem_held.mp hid
    exact t.bounded row hrow
  · exact t.droppedBounded id hid

/-- The inventory of the tables, read whole. -/
abbrev Tables.full (H : Hasher) (t : Tables) : CompactReplicationInventory H :=
  fullCompactReplicationInventory H t.held t.dropped

theorem mem_full_view : id ∈ (t.full H).view ↔ id ∈ t.held ∪ t.dropped := by
  rw [(full_spec H t.held t.dropped).1, Finset.mem_sort]

theorem full_inventoryOf (ht : t.held ∪ t.dropped ⊆ S) : InventoryOf (t.full H) S := by
  obtain ⟨hview, hwf, hmarked⟩ := full_spec H t.held t.dropped
  refine ⟨hwf, fun id hid => ht (mem_full_view.mp hid), fun id hid => ?_, fun hash hin => ?_,
    fun id hin => ?_⟩
  · exact t.ids_bounded (mem_full_view.mp hid)
  · rcases (hmarked.regular hash).mp hin with hnone | ⟨id, hid, -, hhex, he⟩
    · exact absurd hnone (Finset.notMem_empty _)
    · exact ⟨id, hview ▸ hid, hhex, he⟩
  · rcases (hmarked.irregular id).mp hin with hnone | ⟨hid, -⟩
    · exact absurd hnone (Finset.notMem_empty _)
    · exact hview ▸ hid

/-- The inventory read whole has the payloads of the stored envelopes. -/
theorem full_payloadOf (hS : HashNames S) (ht : t.held ∪ t.dropped ⊆ S)
    (hid : id ∈ t.held ∪ t.dropped) : (t.full H).payloadOf id = decide (id ∈ t.held) :=
  full_payloadOf_of_agree H
    (fun a ha b hb hhex he => by rw [hS a (ht ha) b (ht hb) hhex he]) hid

theorem snapshotDraft_full (he : ¬ Extends previous t) :
    snapshotDraft (some previous) t = fullDraft H t :=
  if_neg he

/-- A snapshot read whole. -/
theorem build_full {prior : Option (ReplicationSnapshot H)}
    (h : snapshotDraft prior t = fullDraft H t) (ht : t.held ∪ t.dropped ⊆ S) :
    (buildReplicationSnapshot prior t).Sound S ∧ (buildReplicationSnapshot prior t).Exact t := by
  have hof := full_inventoryOf (H := H) ht
  have hresume : (t.full H).resumeDigest (t.full H).buckets [] 0 = _ :=
    resumeDigest_spec hof.wellFormed (Nat.zero_le _) fun i _ state hget =>
      absurd hget (by simp)
  rw [← full_digest] at hresume
  unfold buildReplicationSnapshot
  rw [h]
  unfold fullDraft
  dsimp only
  rw [hresume]
  exact ⟨⟨hof, rfl, rfl, full_digest ..⟩, ⟨rfl, rfl, rfl⟩⟩

/-- **An extended snapshot** lists what the previous one did, and the new rows. -/
theorem build_extended (hS : HashNames S) (hp : previous.Sound S) (ht : t.held ∪ t.dropped ⊆ S)
    (he : Extends previous t) :
    (buildReplicationSnapshot (some previous) t).Sound S ∧
      (∀ id, id ∈ (buildReplicationSnapshot (some previous) t).inventory.view ↔
        id ∈ added previous t ∨ id ∈ previous.inventory.view) ∧
      ∀ id ∈ S, (buildReplicationSnapshot (some previous) t).inventory.payloadOf id =
        (previous.inventory.payloadOf id || decide (id ∈ added previous t)) := by
  have hadds : ∀ id ∈ added previous t, id ∈ S ∧ id.sequence < sequenceBound := fun id hid =>
    have hheld := Finset.mem_union_left t.dropped (held_of_added hid)
    ⟨ht hheld, t.ids_bounded hheld⟩
  obtain ⟨hof, hmem, hpayload⟩ := foldl_insert hS hadds hp.inventory
  have hbuckets := upsert_buckets hmem hp.inventory.wellFormed hof.wellFormed hof.bounded
  have hstates := rangeStates_resume hmem hp.inventory.wellFormed hof.wellFormed
  have hlen : (rangeStates H previous.inventory.view).length ≤
      (keys rangeOf ((added previous t).foldl insert previous.inventory).view).length := by
    rw [rangeStates, length_map, length_range]
    exact length_keys_le hmem hp.inventory.wellFormed
  have hresume := resumeDigest_spec hof.wellFormed hlen hstates
  unfold buildReplicationSnapshot snapshotDraft
  dsimp only
  rw [if_pos he]
  unfold extendedDraft
  dsimp only
  rw [hp.buckets, hp.states, hbuckets, hresume]
  exact ⟨⟨⟨hof.wellFormed.congr rfl rfl rfl, hof.mem, hof.bounded, hof.regular, hof.irregular⟩,
    rfl, rfl, rfl⟩, hmem, hpayload⟩

/-- **When an extended snapshot is right.** -/
theorem extended_exact_iff (hS : HashNames S) (hp : previous.Sound S)
    (ht : t.held ∪ t.dropped ⊆ S) (he : Extends previous t) :
    (buildReplicationSnapshot (some previous) t).Exact t ↔ Current previous t := by
  obtain ⟨hsound, hmem, hpayload⟩ := build_extended hS hp ht he
  have hof := full_inventoryOf (H := H) ht
  have hflags : ∀ id, id ∈ t.held ∨ id ∈ t.dropped →
      ((buildReplicationSnapshot (some previous) t).inventory.payloadOf id =
        (t.full H).payloadOf id ↔
      (previous.inventory.payloadOf id = true ∨ id ∈ added previous t ↔ id ∈ t.held)) := by
    intro id hid
    have hid := Finset.mem_union.mpr hid
    rw [hpayload id (ht hid), full_payloadOf hS ht hid, Bool.eq_iff_iff, Bool.or_eq_true,
      decide_eq_true_eq, decide_eq_true_eq]
  -- The ranges and the digest go by the identities.
  have hexact : (buildReplicationSnapshot (some previous) t).Exact t ↔
      (buildReplicationSnapshot (some previous) t).inventory.entries =
        (t.full H).entries := by
    refine ⟨fun h => h.entries, fun hentries => ⟨hentries, ?_, ?_⟩⟩
    all_goals
      have hview := hsound.inventory.wellFormed.sorted.sortedLT.eq_of_mem_iff
        hof.wellFormed.sorted.sortedLT
        ((entries_eq_iff hsound.inventory.wellFormed hof.wellFormed).mp hentries).1
    · rw [hsound.buckets, buckets_eq hsound.inventory.wellFormed, hview, buckets_eq hof.wellFormed]
    · rw [hsound.digest, hview, full_digest]
  have hcurrent : Current previous t ↔
      (∀ id, id ∈ t.held ↔ id ∈ previous.inventory.view ∧ previous.inventory.payloadOf id = true ∨
        id ∈ added previous t) ∧
      ∀ id, id ∉ t.held → (id ∈ t.dropped ↔ id ∈ previous.inventory.view) := by
    simp only [← mem_entries hp.inventory.wellFormed]
    exact ⟨fun h => ⟨h.held, h.dropped⟩, fun h => ⟨h.1, h.2⟩⟩
  rw [hexact, hcurrent, entries_eq_iff hsound.inventory.wellFormed hof.wellFormed, ← forall_and,
    ← forall_and]
  refine forall_congr' fun id => ?_
  rw [hmem, mem_full_view, Finset.mem_union, imp_congr_right (hflags id)]
  have hheld : id ∈ added previous t → id ∈ t.held := held_of_added
  grind

end

end SmallTalk.Replication
