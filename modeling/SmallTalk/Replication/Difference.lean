import SmallTalk.Replication.Inventory

/-!
# Replication — the difference of two inventories

`compact_replication_difference` of `store.rs`: what a node sends and lists once a peer has sent
its range digests, and the two exports that use it.

* `difference_eq`: the loop over the ranges, in closed form. What is sent is the first page of the
  `candidates` of the ranges in order; what is listed is a leading part of the `differing` ranges.
* `listRanges_spec`: which ranges that part takes in.

The page limit is a parameter of the definitions; the code's is `replicationPageLimit`.
-/

namespace SmallTalk.Replication

open Nat Sorted CompactReplicationInventory

/-- An inventory as it is sent. `envelopes` lists the identities of the ranges that differ, or,
without `buckets`, of the whole inventory. -/
structure ReplicationInventory (H : Hasher) where
  digest : H.Digest
  envelopes : List ReplicaEnvelopeId
  buckets : List (ReplicationInventoryBucket H)
  /-- The most envelopes the sending node takes in one exchange. -/
  accepts : Option ℕ

/-- The most envelopes one exchange carries to a peer that does not say how many it takes, and the
most identities one divergent exchange lists beyond its first differing range. -/
def replicationExchangeEnvelopeLimit : ℕ := 512

/-- The most envelopes this build takes in one exchange. -/
def replicationPageMax : ℕ := 4096

/-- How many envelopes one exchange carries to a peer, from the inventory it sent. -/
def replicationPageLimit (accepts : Option ℕ) : ℕ :=
  match accepts with
  | none => replicationExchangeEnvelopeLimit
  | some accepts => min (max accepts 1) replicationPageMax

/-- The page this node asks peers for, given the cap its environment sets. -/
def replicationAccepts (cap : Option ℕ) : ℕ :=
  match cap with
  | none => replicationPageMax
  | some cap => min (max cap 1) replicationPageMax

variable {H : Hasher}

def ReplicationInventoryBucket.key (bucket : ReplicationInventoryBucket H) : String ×ₗ ℕ :=
  toLex (bucket.writer, bucket.start)

namespace ReplicationInventory

/-- The peer's digest of a range. -/
def bucketAt (remote : ReplicationInventory H) (k : String ×ₗ ℕ) :
    Option (ReplicationInventoryBucket H) :=
  (remote.buckets.filter fun bucket => bucket.key = k).getLast?

/-- The identities the peer listed of a range. -/
def listedAt (remote : ReplicationInventory H) (k : String ×ₗ ℕ) :
    Option (List ReplicaEnvelopeId) :=
  let listed := ofKey rangeOf remote.envelopes k
  if listed = [] then none else some listed

end ReplicationInventory

/-- The peer's listing of a range, sorted and without repeats, when it is complete. -/
def ReplicationInventory.provenAt (remote : ReplicationInventory H) (k : String ×ₗ ℕ)
    (theirs : ReplicationInventoryBucket H) : Option (List ReplicaEnvelopeId) :=
  match remote.listedAt k with
  | none => none
  | some listed =>
    let known := listed.toFinset.sort (· ≤ ·)
    if known.length ≠ theirs.count ∨ H.replicationBucketDigest known ≠ theirs.digest then none
    else some known

/-- What the loop over the ranges has gathered. -/
structure Difference where
  missing : List ReplicaEnvelopeId := []
  listed : List ReplicaEnvelopeId := []
  listingFull : Bool := false

namespace Difference

/-- Send what there is room for. -/
def send (page : ℕ) (acc : Difference) (ids : List ReplicaEnvelopeId) : Difference :=
  { acc with missing := acc.missing ++ ids.take (page - acc.missing.length) }

/-- List a whole range, unless the listing is full. -/
def list (limit : ℕ) (acc : Difference) (range : List ReplicaEnvelopeId) : Difference :=
  if !acc.listingFull && (acc.listed.isEmpty || acc.listed.length + range.length ≤ limit) then
    { acc with listed := acc.listed ++ range }
  else { acc with listingFull := true }

end Difference

section

variable (inv : CompactReplicationInventory H) (remote : ReplicationInventory H)
  (page listingLimit : ℕ)

/-- One range of the loop. -/
def differenceStep (acc : Difference) (bucket : ReplicationInventoryBucket H) : Difference :=
  let range := inv.range bucket.writer bucket.start
  match remote.bucketAt bucket.key with
  | none =>
    -- The peer holds nothing in this range.
    acc.send page ((range.filter inv.hasPayload).map inv.identity)
  | some theirs =>
    if theirs.digest = bucket.digest then acc
    else
      let ours := inv.identities range
      let acc := acc.list listingLimit ours
      -- Only the peer's complete listing of this range proves which identities it lacks.
      match remote.provenAt bucket.key theirs with
      | none => acc
      | some known =>
        acc.send page (((range.zip ours).filter fun entry =>
          inv.hasPayload entry.1 && decide (entry.2 ∉ known)).map (·.2))

/-- Compare a local inventory with a peer's compact inventory: the local envelopes the peer
provably lacks, and the local identities of the ranges both sides hold with different digests. -/
def compactReplicationDifference (buckets : List (ReplicationInventoryBucket H)) : Difference :=
  buckets.foldl (differenceStep inv remote page listingLimit) {}

end

/-! ### The loop in closed form -/

/-- What a node has: identities in order, and which of them it can send. -/
structure Side where
  ids : List ReplicaEnvelopeId
  payload : ReplicaEnvelopeId → Bool

namespace Side

variable (side : Side) (remote : ReplicationInventory H)

/-- The identities of one range. -/
def range (k : String ×ₗ ℕ) : List ReplicaEnvelopeId := ofKey rangeOf side.ids k

/-- Both sides hold the range, with different digests. -/
def differs (k : String ×ₗ ℕ) : Bool :=
  match remote.bucketAt k with
  | none => false
  | some theirs => decide (theirs.digest ≠ H.replicationBucketDigest (side.range k))

/-- What the node may send of one range. -/
def candidates (k : String ×ₗ ℕ) : List ReplicaEnvelopeId :=
  match remote.bucketAt k with
  | none => (side.range k).filter side.payload
  | some theirs =>
    if theirs.digest = H.replicationBucketDigest (side.range k) then []
    else
      match remote.provenAt k theirs with
      | none => []
      | some known => (side.range k).filter fun id => side.payload id && decide (id ∉ known)

end Side

/-- The side an inventory stands for. -/
def CompactReplicationInventory.side (inv : CompactReplicationInventory H) : Side where
  ids := inv.view
  payload := inv.payloadOf

section

variable {inv : CompactReplicationInventory H} {remote : ReplicationInventory H}
  {page limit : ℕ}

theorem replicationBucketStart_idem (sequence : ℕ) :
    replicationBucketStart (replicationBucketStart sequence) = replicationBucketStart sequence := by
  unfold replicationBucketStart replicationBucketWidth
  omega

/-- The entries of a range that holds something are those of its identities. -/
theorem identities_range_key (h : inv.WellFormed)
    (hbound : ∀ id ∈ inv.view, id.sequence < sequenceBound) {k : String ×ₗ ℕ}
    (hk : k ∈ keys rangeOf inv.view) :
    inv.identities (inv.range (ofLex k).1 (ofLex k).2) = inv.side.range k := by
  obtain ⟨id, hid, rfl⟩ := mem_keys.mp hk
  have hle : replicationBucketStart id.sequence < sequenceBound :=
    lt_of_le_of_lt (sub_le _ _) (hbound id hid)
  have hu64 : replicationBucketStart id.sequence ≤ u64Max := by
    unfold sequenceBound at hle
    unfold u64Max
    omega
  show inv.identities (inv.range id.writer (replicationBucketStart id.sequence)) = _
  rw [identities_range h _ hu64]
  refine List.filter_congr fun id' _ => ?_
  rw [decide_eq_decide, ← rangeOf_eq_iff (replicationBucketStart_idem _) hle]
  rfl

theorem mem_envelopes_of_mem_range {writer : String} {start : ℕ} {e : CompactEnvelopeId}
    (he : e ∈ inv.range writer start) : e ∈ inv.envelopes := by
  unfold CompactReplicationInventory.range at he
  split at he
  · cases he
  · exact List.mem_of_mem_drop (List.mem_of_mem_take he)

theorem map_filter_hasPayload (h : inv.WellFormed) {range : List CompactEnvelopeId}
    (hsub : ∀ e ∈ range, e ∈ inv.envelopes) :
    (range.filter inv.hasPayload).map inv.identity =
      (inv.identities range).filter inv.payloadOf := by
  unfold identities
  rw [List.filter_map]
  refine congrArg _ (List.filter_congr fun e he => ?_)
  exact h.hasPayload (hsub e he)

theorem map_filter_unknown (h : inv.WellFormed) {range : List CompactEnvelopeId}
    (hsub : ∀ e ∈ range, e ∈ inv.envelopes) (known : List ReplicaEnvelopeId) :
    ((range.zip (inv.identities range)).filter fun entry =>
        inv.hasPayload entry.1 && decide (entry.2 ∉ known)).map (·.2) =
      (inv.identities range).filter fun id => inv.payloadOf id && decide (id ∉ known) := by
  have hzip : range.zip (range.map inv.identity) = range.map fun e => (e, inv.identity e) := by
    induction range with
    | nil => rfl
    | cons e range ih =>
      rw [List.map_cons, List.zip_cons_cons, List.map_cons,
        ih fun e he => hsub e (List.mem_cons_of_mem _ he)]
  unfold identities
  rw [hzip, List.filter_map, List.map_map, List.filter_map]
  refine congrArg _ (List.filter_congr fun e he => ?_)
  show (inv.hasPayload e && decide (inv.identity e ∉ known)) = _
  rw [h.hasPayload (hsub e he)]
  rfl

theorem Difference.send_nil (page : ℕ) (acc : Difference) : acc.send page [] = acc := by
  unfold Difference.send
  rw [List.take_nil, List.append_nil]

/-- **One range of the loop**: it is listed if it differs, and a part of its candidates is sent. -/
theorem differenceStep_eq (h : inv.WellFormed) (acc : Difference)
    {bucket : ReplicationInventoryBucket H}
    (hrange : inv.identities (inv.range bucket.writer bucket.start) = inv.side.range bucket.key)
    (hdigest : bucket.digest = H.replicationBucketDigest (inv.side.range bucket.key)) :
    differenceStep inv remote page limit acc bucket =
      (if inv.side.differs remote bucket.key then acc.list limit (inv.side.range bucket.key)
        else acc).send page (inv.side.candidates remote bucket.key) := by
  have hsub : ∀ e ∈ inv.range bucket.writer bucket.start, e ∈ inv.envelopes :=
    fun e he => mem_envelopes_of_mem_range he
  unfold differenceStep Side.differs Side.candidates
  dsimp only
  rw [hdigest, hrange]
  split
  · rw [if_neg Bool.false_ne_true, map_filter_hasPayload h hsub, hrange]
    rfl
  · rename_i theirs hb
    by_cases hsame : theirs.digest = H.replicationBucketDigest (inv.side.range bucket.key)
    · rw [if_pos hsame, if_pos hsame, if_neg (by simp [hsame]), Difference.send_nil]
    · rw [if_neg hsame, if_neg hsame, if_pos (decide_eq_true hsame)]
      cases remote.provenAt bucket.key theirs with
      | none => exact (Difference.send_nil page _).symm
      | some known =>
        dsimp only
        rw [← hrange, map_filter_unknown h hsub, hrange]
        rfl

theorem take_send (X c : List ReplicaEnvelopeId) (page : ℕ) :
    X.take page ++ c.take (page - (X.take page).length) = (X ++ c).take page := by
  rw [List.take_append, List.length_take]
  rcases le_total page X.length with h | h
  · rw [min_eq_left h, Nat.sub_self, Nat.sub_eq_zero_of_le h]
  · rw [min_eq_right h]

theorem Difference.list_missing (limit : ℕ) (acc : Difference) (range : List ReplicaEnvelopeId) :
    (acc.list limit range).missing = acc.missing := by
  unfold Difference.list
  split <;> rfl

/-- The listing of a list of ranges, from `listed` on. -/
def listRanges (limit : ℕ) (listed : List ReplicaEnvelopeId) :
    List (List ReplicaEnvelopeId) → List ReplicaEnvelopeId
  | [] => listed
  | range :: ranges =>
    if listed.isEmpty || listed.length + range.length ≤ limit then
      listRanges limit (listed ++ range) ranges
    else listed

/-- One range of a side. -/
def Side.loopStep (side : Side) (remote : ReplicationInventory H) (page limit : ℕ)
    (acc : Difference) (k : String ×ₗ ℕ) : Difference :=
  (if side.differs remote k then acc.list limit (side.range k) else acc).send page
    (side.candidates remote k)

/-- The loop over the ranges `ks` of a side. -/
def Side.loop (side : Side) (remote : ReplicationInventory H) (page limit : ℕ) (acc : Difference)
    (ks : List (String ×ₗ ℕ)) : Difference :=
  ks.foldl (side.loopStep remote page limit) acc

theorem Side.loop_missing (side : Side) (ks : List (String ×ₗ ℕ)) {acc : Difference}
    {X : List ReplicaEnvelopeId} (hX : acc.missing = X.take page) :
    (side.loop remote page limit acc ks).missing =
      (X ++ ks.flatMap (side.candidates remote)).take page := by
  induction ks generalizing acc X with
  | nil => rw [List.flatMap_nil, List.append_nil, ← hX]; rfl
  | cons k ks ih =>
    rw [List.flatMap_cons, ← List.append_assoc]
    refine ih ?_
    have hsame : (if side.differs remote k then acc.list limit (side.range k) else acc).missing =
        X.take page := by
      split
      · rw [Difference.list_missing, hX]
      · exact hX
    show _ ++ _ = _
    rw [hsame, take_send]

theorem Side.loop_listed (side : Side) (ks : List (String ×ₗ ℕ)) (acc : Difference) :
    (side.loop remote page limit acc ks).listed =
      if acc.listingFull then acc.listed
      else listRanges limit acc.listed ((ks.filter (side.differs remote)).map side.range) := by
  induction ks generalizing acc with
  | nil =>
    rw [List.filter_nil, List.map_nil, listRanges, ite_self]
    rfl
  | cons k ks ih =>
    refine (ih _).trans ?_
    by_cases hd : side.differs remote k = true
    · have hstep : side.loopStep remote page limit acc k =
          (acc.list limit (side.range k)).send page (side.candidates remote k) :=
        congrArg (Difference.send page · _) (if_pos hd)
      rw [List.filter_cons_of_pos hd, List.map_cons, listRanges, hstep]
      unfold Difference.list Difference.send
      cases acc.listingFull with
      | true => rfl
      | false =>
        cases acc.listed.isEmpty || decide (acc.listed.length + (side.range k).length ≤ limit)
        · rfl
        · rfl
    · have hstep : side.loopStep remote page limit acc k =
          acc.send page (side.candidates remote k) :=
        congrArg (Difference.send page · _) (if_neg hd)
      rw [List.filter_cons_of_neg hd, hstep]
      rfl

/-- **The loop in closed form**, over the range digests of a well-formed inventory. -/
theorem difference_eq (h : inv.WellFormed) (hbound : ∀ id ∈ inv.view, id.sequence < sequenceBound) :
    (compactReplicationDifference inv remote page limit inv.buckets).missing =
        ((keys rangeOf inv.view).flatMap (inv.side.candidates remote)).take page ∧
      (compactReplicationDifference inv remote page limit inv.buckets).listed =
        listRanges limit []
          (((keys rangeOf inv.view).filter (inv.side.differs remote)).map inv.side.range) := by
  have hloop : compactReplicationDifference inv remote page limit inv.buckets =
      inv.side.loop remote page limit {} (keys rangeOf inv.view) := by
    unfold compactReplicationDifference Side.loop
    rw [buckets_eq h, List.foldl_map]
    refine List.foldl_ext _ _ _ fun acc k hk => ?_
    exact differenceStep_eq h acc (identities_range_key h hbound hk) rfl
  rw [hloop]
  exact ⟨inv.side.loop_missing _ (X := []) List.take_nil.symm, inv.side.loop_listed _ {}⟩

end

/-! ### Which ranges are listed -/

section

variable (limit : ℕ)

/-- A listing that has begun takes in ranges while the whole of it fits. -/
theorem listRanges_begun {listed : List ReplicaEnvelopeId} (hne : listed ≠ [])
    (ranges : List (List ReplicaEnvelopeId)) :
    ∃ m ≤ ranges.length, listRanges limit listed ranges = listed ++ (ranges.take m).flatten ∧
      ∀ i < ranges.length,
        (i < m ↔ listed.length + ((ranges.take (i + 1)).flatten).length ≤ limit) := by
  induction ranges generalizing listed with
  | nil => exact ⟨0, le_rfl, by simp [listRanges], fun i hi => absurd hi (not_lt_zero i)⟩
  | cons range ranges ih =>
    rw [listRanges, List.isEmpty_eq_false_iff.mpr hne, Bool.false_or]
    by_cases hfit : listed.length + range.length ≤ limit
    · rw [if_pos (decide_eq_true hfit)]
      obtain ⟨m, hm, heq, hiff⟩ := ih (List.append_ne_nil_of_left_ne_nil hne range)
      refine ⟨m + 1, succ_le_succ hm, ?_, fun i hi => ?_⟩
      · rw [heq, List.take_succ_cons, List.flatten_cons, List.append_assoc]
      · cases i with
        | zero => simpa using hfit
        | succ i =>
          have := hiff i (lt_of_succ_lt_succ hi)
          rw [List.length_append] at this
          rw [List.take_succ_cons, List.flatten_cons, List.length_append, ← add_assoc, ← this]
          exact succ_lt_succ_iff
    · rw [if_neg (by simpa using hfit)]
      refine ⟨0, zero_le _, by simp, fun i hi => ?_⟩
      rw [List.take_succ_cons, List.flatten_cons, List.length_append]
      exact iff_of_false (not_lt_zero i) (by omega)

/-- **A listing** takes in the first range, and further ranges while the whole of it fits. -/
theorem listRanges_spec {ranges : List (List ReplicaEnvelopeId)} (hne : ∀ r ∈ ranges, r ≠ []) :
    ∃ m ≤ ranges.length, listRanges limit [] ranges = (ranges.take m).flatten ∧
      ∀ i < ranges.length, (i < m ↔ i = 0 ∨ ((ranges.take (i + 1)).flatten).length ≤ limit) := by
  cases ranges with
  | nil => exact ⟨0, le_rfl, by simp [listRanges], fun i hi => absurd hi (not_lt_zero i)⟩
  | cons range ranges =>
    rw [listRanges, if_pos (by simp), List.nil_append]
    obtain ⟨m, hm, heq, hiff⟩ :=
      listRanges_begun limit (hne range List.mem_cons_self) ranges
    refine ⟨m + 1, succ_le_succ hm, ?_, fun i hi => ?_⟩
    · rw [heq, List.take_succ_cons, List.flatten_cons]
    · cases i with
      | zero => exact iff_of_true (succ_pos m) (.inl rfl)
      | succ i =>
        rw [List.take_succ_cons, List.flatten_cons, List.length_append,
          ← hiff i (lt_of_succ_lt_succ hi)]
        simp

end

end SmallTalk.Replication
