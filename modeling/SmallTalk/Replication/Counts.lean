import SmallTalk.Lib.Estimates
import SmallTalk.Replication.Exchange

/-!
# Replication — how many envelopes each side lacks

`replication_inventory_difference` of `store.rs`: the envelopes only the peer holds and only this
node holds, counted from the inventory the peer sent.

* `countBucket_eq`, `foldl_countBucket`: one range of the loop, and the loop.
* `counts_estimates`: the counts are estimates of the difference between the peer's identities and
  those the node sees, which are its own but for the `hidden` ones.
* `difference_counts_iff`: when they are the estimates they are meant to be.
-/

namespace SmallTalk.Replication

open CompactReplicationInventory Comparing Finset Sorted

/-- What the loop over the peer's ranges has counted. -/
structure Counted where
  peerOnly : ℕ := 0
  localOnly : ℕ := 0
  shared : Finset (String ×ₗ ℕ) := ∅

section

variable {H : Hasher} (inv : CompactReplicationInventory H)
  (buckets : List (ReplicationInventoryBucket H)) (remote : ReplicationInventory H)

/-- The local digest of a range. -/
def localBucketAt (k : String ×ₗ ℕ) : Option (ReplicationInventoryBucket H) :=
  (buckets.filter fun bucket => bucket.key = k).getLast?

/-- One range of the peer. -/
def countBucket (acc : Counted) (theirs : ReplicationInventoryBucket H) : Counted :=
  match localBucketAt buckets theirs.key with
  | none => { acc with peerOnly := acc.peerOnly + theirs.count }
  | some ours =>
    let acc := { acc with shared := Insert.insert theirs.key acc.shared }
    if ours.digest = theirs.digest then acc
    else
      match remote.provenAt theirs.key theirs with
      | some known =>
        let held := inv.identities (inv.range ours.writer ours.start)
        { acc with
          peerOnly := acc.peerOnly + (known.filter fun id => decide (id ∉ held)).length
          localOnly := acc.localOnly + (held.filter fun id => decide (id ∉ known)).length }
      | none =>
        { acc with
          peerOnly := acc.peerOnly + (theirs.count - ours.count)
          localOnly := acc.localOnly + (ours.count - theirs.count) }

/-- Count the envelopes only the peer holds and only this node holds. `none` means the inventory
cannot tell. -/
def replicationInventoryDifference : Option (ℕ × ℕ) :=
  if remote.digest ≠ H.empty ∧ remote.digest = inv.digest then some (0, 0)
  else if remote.buckets ≠ [] then
    let counted := remote.buckets.foldl (countBucket inv buckets remote) {}
    some (counted.peerOnly, counted.localOnly +
      ((buckets.filter fun bucket => bucket.key ∉ counted.shared).map (·.count)).sum)
  else if remote.digest ≠ H.empty ∧
      remote.digest = H.replicationInventoryDigest remote.envelopes then
    -- A peer without range digests, or with an empty store, lists its whole inventory.
    let shared := (remote.envelopes.filter fun id =>
      (inv.range id.writer (replicationBucketStart id.sequence)).any fun e =>
        e.sequence = id.sequence && inv.hashText e = id.hash).length
    some (remote.envelopes.length - shared, inv.envelopes.length - shared)
  else none

end

/-! ### What both sides are -/

/-- A current inventory of the identities `L`. -/
structure CompactReplicationInventory.Of {H : Hasher} (inv : CompactReplicationInventory H)
    (L : Finset ReplicaEnvelopeId) : Prop where
  wellFormed : inv.WellFormed
  view : inv.view = L.sort (· ≤ ·)
  digest : inv.digest = H.replicationInventoryDigest inv.view
  /-- Sequences are `u64`s. -/
  fits : ∀ id ∈ L, id.sequence ≤ u64Max

/-- An honest inventory of the identities `R`, with range digests, that lists the ranges `K`. -/
structure ReplicationInventory.Honest {H : Hasher} (remote : ReplicationInventory H)
    (R : Finset ReplicaEnvelopeId) (K : List (String ×ₗ ℕ)) : Prop where
  digest : remote.digest = H.replicationInventoryDigest (R.sort (· ≤ ·))
  nodup : K.Nodup
  ranges : ∀ k ∈ K, k ∈ rangesOf R
  form : Summarizes remote R K

/-- The inventory of `R` as it is sent, with the ranges `K` listed. -/
def summaryOf (H : Hasher) (R : Finset ReplicaEnvelopeId) (K : List (String ×ₗ ℕ)) :
    ReplicationInventory H where
  digest := H.replicationInventoryDigest (R.sort (· ≤ ·))
  envelopes := K.flatMap (ofKey rangeOf (R.sort (· ≤ ·)))
  buckets := (keys rangeOf (R.sort (· ≤ ·))).map (bucketOf H (R.sort (· ≤ ·)))
  accepts := none

theorem summaryOf_honest (H : Hasher) {R : Finset ReplicaEnvelopeId} {K : List (String ×ₗ ℕ)}
    (hnodup : K.Nodup) (hranges : ∀ k ∈ K, k ∈ rangesOf R) : (summaryOf H R K).Honest R K :=
  ⟨rfl, hnodup, hranges, rfl, rfl⟩

/-- The inventory read from the tables is one of what they hold. -/
theorem full_of (H : Hasher) {held dropped : Finset ReplicaEnvelopeId}
    (hfits : ∀ id ∈ held ∪ dropped, id.sequence ≤ u64Max) :
    (fullCompactReplicationInventory H held dropped).Of (held ∪ dropped) :=
  ⟨(full_spec H held dropped).2.1, (full_spec H held dropped).1, digestOf_eq _ _ _, hfits⟩

section

variable (L R : Finset ReplicaEnvelopeId) (K : List (String ×ₗ ℕ))

/-- The local identities the node does not see when it counts: those at the largest sequence, in a
range it looks up. -/
def hidden : Finset ReplicaEnvelopeId :=
  L.filter fun id => id.sequence = u64Max ∧ rangeOf id ∈ K ∧ rangeOf id ∈ differing L R

/-- The counts of one range. -/
def counts (k : String ×ₗ ℕ) : ℕ × ℕ :=
  if k ∈ differing L R ∧ k ∉ K then
    ((inRange R k).card - (inRange L k).card, (inRange L k).card - (inRange R k).card)
  else
    ((inRange R k \ inRange (L \ hidden L R K) k).card,
      (inRange (L \ hidden L R K) k \ inRange R k).card)

variable {L R K} {k : String ×ₗ ℕ}

theorem inRange_eq_empty_iff : inRange L k = ∅ ↔ k ∉ rangesOf L := by
  simp [inRange, rangesOf, filter_eq_empty_iff]

theorem mem_differing : k ∈ differing L R ↔
    k ∈ rangesOf L ∧ k ∈ rangesOf R ∧ inRange L k ≠ inRange R k := by
  rw [differing, mem_filter, mem_inter, and_assoc]

theorem inRange_seen : inRange (L \ hidden L R K) k =
    if k ∈ K ∧ k ∈ differing L R then (inRange L k).filter fun id => id.sequence ≠ u64Max
    else inRange L k := by
  ext id
  split
  · rename_i hk
    simp only [inRange, hidden, mem_filter, mem_sdiff]
    constructor
    · rintro ⟨⟨hid, hno⟩, rfl⟩
      exact ⟨⟨hid, rfl⟩, fun hseq => hno ⟨hid, hseq, hk⟩⟩
    · rintro ⟨⟨hid, rfl⟩, hseq⟩
      exact ⟨⟨hid, fun h => hseq h.2.1⟩, rfl⟩
  · rename_i hk
    simp only [inRange, hidden, mem_filter, mem_sdiff]
    constructor
    · exact fun h => ⟨h.1.1, h.2⟩
    · rintro ⟨hid, rfl⟩
      exact ⟨⟨hid, fun h => hk h.2.2⟩, rfl⟩

/-- The counts of one range are estimates of what the node sees. -/
theorem counts_estimates_range : Estimates (inRange R k) (inRange (L \ hidden L R K) k)
    (counts L R K k).1 (counts L R K k).2 := by
  unfold counts
  split
  · rename_i hk
    rw [inRange_seen, if_neg fun h => hk.2 h.1]
    exact estimates_tsub _ _
  · exact estimates_sdiff _ _

/-- **The counts** of all ranges. -/
theorem counts_estimates : Estimates R (L \ hidden L R K)
    (∑ k ∈ rangesOf R ∪ rangesOf L, (counts L R K k).1)
    (∑ k ∈ rangesOf R ∪ rangesOf L, (counts L R K k).2) := by
  refine Estimates.sum rangeOf (fun id hid => ?_) (fun id hid => ?_) fun k _ =>
    counts_estimates_range
  · exact mem_union_left _ (mem_rangesOf hid)
  · exact mem_union_right _ (mem_rangesOf (mem_sdiff.mp hid).1)

/-- When every differing range is listed the counts are exact. -/
theorem counts_exact (hall : ∀ k ∈ differing L R, k ∈ K) :
    ∑ k ∈ rangesOf R ∪ rangesOf L, (counts L R K k).1 = (R \ (L \ hidden L R K)).card := by
  rw [← sum_card_sdiff_fibers rangeOf fun id hid =>
    mem_union_left (rangesOf L) (mem_rangesOf hid)]
  refine sum_congr rfl fun k _ => ?_
  unfold counts
  rw [if_neg fun h => h.2 (hall k h.1)]
  rfl

theorem counts_of_not_differing (h : k ∉ differing L R) : counts L R K k =
      ((inRange R k \ inRange L k).card, (inRange L k \ inRange R k).card) := by
  rw [counts, if_neg fun hk => h hk.1, inRange_seen, if_neg fun hk => h hk.2]

/-- A range only the peer has. -/
theorem counts_of_not_mem_local (hk : k ∉ rangesOf L) :
    counts L R K k = ((inRange R k).card, 0) := by
  rw [counts_of_not_differing fun h => hk (mem_differing.mp h).1, inRange_eq_empty_iff.mpr hk,
    sdiff_empty, empty_sdiff, card_empty]

/-- A range only the node has. -/
theorem counts_of_not_mem_remote (hk : k ∉ rangesOf R) :
    counts L R K k = (0, (inRange L k).card) := by
  rw [counts_of_not_differing fun h => hk (mem_differing.mp h).2.1, inRange_eq_empty_iff.mpr hk,
    sdiff_empty, empty_sdiff, card_empty]

/-- A range both have alike. -/
theorem counts_of_eq (h : inRange L k = inRange R k) : counts L R K k = (0, 0) := by
  rw [counts_of_not_differing fun hk => (mem_differing.mp hk).2.2 h, h, Finset.sdiff_self,
    Finset.card_empty]

end

/-! ### The loop -/

theorem length_ofKey (s : Finset ReplicaEnvelopeId) (k : String ×ₗ ℕ) :
    (ofKey rangeOf (s.sort (· ≤ ·)) k).length = (inRange s k).card := by
  have hset : (ofKey rangeOf (s.sort (· ≤ ·)) k).toFinset = inRange s k := by
    ext id
    rw [List.mem_toFinset, mem_ofKey_sort]
  rw [← hset, List.toFinset_card_of_nodup ((ofKey_lt s k).nodup)]

/-- The elements of one list that are not in another, counted as sets. -/
theorem length_filter_notMem {l l' : List ReplicaEnvelopeId} {s t : Finset ReplicaEnvelopeId}
    (hl : l.Nodup) (hs : ∀ id, id ∈ l ↔ id ∈ s) (ht : ∀ id, id ∈ l' ↔ id ∈ t) :
    (l.filter fun id => decide (id ∉ l')).length = (s \ t).card := by
  rw [← List.toFinset_card_of_nodup (hl.filter _)]
  refine congrArg Finset.card (Finset.ext fun id => ?_)
  rw [List.mem_toFinset, List.mem_filter, decide_eq_true_eq, mem_sdiff, hs, ht]

section

variable {H : Hasher} {inv : CompactReplicationInventory H} {L R : Finset ReplicaEnvelopeId}
  {remote : ReplicationInventory H} {K : List (String ×ₗ ℕ)} {k : String ×ₗ ℕ}

theorem localBuckets_eq (h : inv.Of L) :
    inv.buckets = (keys rangeOf (L.sort (· ≤ ·))).map (bucketOf H (L.sort (· ≤ ·))) := by
  rw [buckets_eq h.wellFormed, h.view]

theorem localBucketAt_eq (h : inv.Of L) : localBucketAt inv.buckets k =
      if k ∈ rangesOf L then some (bucketOf H (L.sort (· ≤ ·)) k) else none := by
  -- The lookup is that of a peer with the same range digests.
  have hpeer : Summarizes ⟨inv.digest, [], inv.buckets, none⟩ L [] := ⟨localBuckets_eq h, rfl⟩
  exact bucketAt_eq hpeer

/-- A range the node looks up has its identities but the one at the largest sequence. -/
theorem range_spec (h : inv.Of L) (hk : k ∈ rangesOf L) {bucket : ReplicationInventoryBucket H}
    (hbucket : bucket = bucketOf H (L.sort (· ≤ ·)) k) :
    (inv.identities (inv.range bucket.writer bucket.start)).Nodup ∧
      ∀ id, id ∈ inv.identities (inv.range bucket.writer bucket.start) ↔
        id ∈ (inRange L k).filter fun id => id.sequence ≠ u64Max := by
  obtain ⟨a, ha, rfl⟩ := mem_image.mp hk
  have hstart : replicationBucketStart a.sequence ≤ u64Max := (Nat.sub_le _ _).trans (h.fits a ha)
  have hrange := identities_range h.wellFormed a.writer hstart
  subst hbucket
  refine ⟨(hrange.symm ▸ h.wellFormed.sorted.filter _).nodup, fun id => ?_⟩
  show id ∈ inv.identities (inv.range a.writer (replicationBucketStart a.sequence)) ↔ _
  rw [hrange, List.mem_filter, h.view, mem_sort, decide_eq_true_eq, inRange, mem_filter, mem_filter,
    and_assoc]
  refine and_congr_right fun hid => ?_
  have hfit := h.fits id hid
  rw [rangeOf, rangeOf, toLex_inj, Prod.mk.injEq, and_assoc]
  refine and_congr_right fun _ => ?_
  unfold satAdd replicationBucketStart replicationBucketWidth u64Max at *
  omega

/-- **One range of the loop.** -/
theorem countBucket_eq (hcf : H.CollisionFree (L ∪ R)) (h : inv.Of L) (hr : remote.Honest R K)
    (acc : Counted) (hk : k ∈ rangesOf R) :
    countBucket inv inv.buckets remote acc (bucketOf H (R.sort (· ≤ ·)) k) =
      { peerOnly := acc.peerOnly + (counts L R K k).1
        localOnly := acc.localOnly + (counts L R K k).2
        shared := if k ∈ rangesOf L then Insert.insert k acc.shared else acc.shared } := by
  have hkey : (bucketOf H (R.sort (· ≤ ·)) k).key = k := rfl
  have hcount : ∀ s : Finset ReplicaEnvelopeId, (bucketOf H (s.sort (· ≤ ·)) k).count =
      (inRange s k).card := fun s => length_ofKey s k
  unfold countBucket
  rw [hkey, localBucketAt_eq h]
  by_cases hlocal : k ∈ rangesOf L
  · rw [if_pos hlocal, if_pos hlocal]
    dsimp only
    have hdigest : (bucketOf H (L.sort (· ≤ ·)) k).digest = (bucketOf H (R.sort (· ≤ ·)) k).digest ↔
        inRange L k = inRange R k :=
      bucketDigest_inj hcf subset_union_left subset_union_right
    by_cases hsame : inRange L k = inRange R k
    · rw [if_pos (hdigest.mpr hsame), counts_of_eq hsame]
      rfl
    · have hdiff : k ∈ differing L R := mem_differing.mpr ⟨hlocal, hk, hsame⟩
      rw [if_neg fun hd => hsame (hdigest.mp hd), provenAt_eq hr.nodup hr.ranges hr.form]
      by_cases hlisted : k ∈ K
      · rw [if_pos hlisted, counts, if_neg fun h => h.2 hlisted, inRange_seen,
          if_pos ⟨hlisted, hdiff⟩]
        obtain ⟨hnodup, hheld⟩ := range_spec h hlocal rfl
        dsimp only
        rw [length_filter_notMem ((ofKey_lt R k).nodup)
            (fun id => mem_ofKey_sort) hheld,
          length_filter_notMem hnodup hheld fun id => mem_ofKey_sort]
      · rw [if_neg hlisted, counts, if_pos ⟨hdiff, hlisted⟩]
        rw [hcount, hcount]
  · rw [if_neg hlocal, if_neg hlocal, counts_of_not_mem_local hlocal]
    rw [hcount]
    rfl

/-- **The loop** over ranges of the peer. -/
theorem foldl_countBucket (hcf : H.CollisionFree (L ∪ R)) (h : inv.Of L) (hr : remote.Honest R K)
    {ks : List (String ×ₗ ℕ)} (hks : ∀ k ∈ ks, k ∈ rangesOf R) (acc : Counted) :
    (ks.map (bucketOf H (R.sort (· ≤ ·)))).foldl (countBucket inv inv.buckets remote) acc =
      { peerOnly := acc.peerOnly + (ks.map fun k => (counts L R K k).1).sum
        localOnly := acc.localOnly + (ks.map fun k => (counts L R K k).2).sum
        shared := acc.shared ∪ (ks.filter (· ∈ rangesOf L)).toFinset } := by
  induction ks generalizing acc with
  | nil => simp
  | cons k ks ih =>
    obtain ⟨hk, hks⟩ := List.forall_mem_cons.mp hks
    rw [List.map_cons, List.foldl_cons, countBucket_eq hcf h hr acc hk, ih hks]
    simp only [List.map_cons, List.sum_cons, Nat.add_assoc, Counted.mk.injEq, true_and]
    by_cases hlocal : k ∈ rangesOf L
    · simp [hlocal]
    · simp [hlocal]

end

/-! ### What is returned -/

section

variable {H : Hasher} {inv : CompactReplicationInventory H} {L R : Finset ReplicaEnvelopeId}
  {remote : ReplicationInventory H} {K : List (String ×ₗ ℕ)} (s : Finset ReplicaEnvelopeId)

theorem nodup_keys : (keys rangeOf (s.sort (· ≤ ·))).Nodup :=
  (keys_sorted (sort_ranges s)).nodup

theorem toFinset_keys : (keys rangeOf (s.sort (· ≤ ·))).toFinset = rangesOf s := by
  ext k
  rw [List.mem_toFinset, mem_keys_sort]

theorem sum_keys (f : String ×ₗ ℕ → ℕ) :
    ((keys rangeOf (s.sort (· ≤ ·))).map f).sum = ∑ k ∈ rangesOf s, f k := by
  rw [← toFinset_keys, List.sum_toFinset f (nodup_keys s)]

/-- The ranges of the union, as those of the peer and the others. -/
theorem sum_union_ranges (f : String ×ₗ ℕ → ℕ) : ∑ k ∈ rangesOf R ∪ rangesOf L, f k =
      ∑ k ∈ rangesOf R, f k + ∑ k ∈ (rangesOf L).filter (· ∉ rangesOf R), f k := by
  rw [← sdiff_eq_filter, ← sum_union disjoint_sdiff, union_sdiff_self_eq_union]

/-- The ranges the peer does not have, counted from the local range digests. -/
theorem sum_local (h : inv.Of L) {shared : Finset (String ×ₗ ℕ)}
    (hshared : ∀ k ∈ rangesOf L, k ∈ shared ↔ k ∈ rangesOf R) :
    ((inv.buckets.filter fun bucket => bucket.key ∉ shared).map (·.count)).sum =
      ∑ k ∈ (rangesOf L).filter (· ∉ rangesOf R), (counts L R K k).2 := by
  have hkeys : (inv.buckets.filter fun bucket => decide (bucket.key ∉ shared)).map (·.count) =
      ((keys rangeOf (L.sort (· ≤ ·))).filter fun k => decide (k ∉ shared)).map
        fun k => (inRange L k).card := by
    rw [localBuckets_eq h, List.filter_map, List.map_map]
    exact List.map_congr_left fun k _ => length_ofKey L k
  rw [hkeys, ← List.sum_toFinset _ ((nodup_keys L).filter _), List.toFinset_filter, toFinset_keys]
  refine sum_congr (filter_congr fun k hk => ?_) fun k hk => ?_
  · rw [decide_eq_true_eq, hshared k hk]
  · rw [counts_of_not_mem_remote (mem_filter.mp hk).2]

/-- **The result** is the sum of the counts of all ranges. -/
theorem difference_eq_counts (hcf : H.CollisionFree (L ∪ R)) (h : inv.Of L)
    (hr : remote.Honest R K) :
    replicationInventoryDifference inv inv.buckets remote =
      some (∑ k ∈ rangesOf R ∪ rangesOf L, (counts L R K k).1,
        ∑ k ∈ rangesOf R ∪ rangesOf L, (counts L R K k).2) := by
  have htext : remote.digest ≠ H.empty := hr.digest ▸ hcf.text _
  have hdigest : remote.digest = inv.digest ↔ R = L := by
    rw [hr.digest, h.digest, h.view]
    exact inventoryDigest_inj hcf subset_union_right subset_union_left
  unfold replicationInventoryDifference
  by_cases heq : R = L
  · have hzero : ∀ k, counts L R K k = (0, 0) := fun k => counts_of_eq (by rw [heq])
    rw [if_pos ⟨htext, hdigest.mpr heq⟩]
    simp only [hzero, sum_const_zero]
  rw [if_neg fun hd => heq (hdigest.mp hd.2)]
  by_cases hempty : R = ∅
  · subst hempty
    have hbuckets : remote.buckets = [] := by
      rw [hr.form.buckets, sort_empty]
      rfl
    have hnone : K = [] := List.eq_nil_iff_forall_not_mem.mpr fun k hk =>
      absurd (hr.ranges k hk) (notMem_empty k)
    have henvelopes : remote.envelopes = [] := by
      rw [hr.form.envelopes, hnone]
      rfl
    have hlength : inv.envelopes.length = L.card := by
      have := congrArg List.length h.view
      rwa [view, identities, List.length_map, length_sort] at this
    have hcounts : ∀ k, counts L ∅ K k = (0, (inRange L k).card) := fun k =>
      counts_of_not_mem_remote (notMem_empty k)
    rw [if_neg (by simp [hbuckets]), if_pos ⟨htext, by rw [hr.digest, henvelopes,
      sort_empty]⟩, henvelopes, hlength]
    simp only [hcounts, sum_const_zero]
    rw [show rangesOf ∅ ∪ rangesOf L = rangesOf L from empty_union _]
    refine congrArg (fun n => some (0, n)) ?_
    exact card_eq_sum_card_fiberwise fun id hid => mem_rangesOf hid
  · obtain ⟨id, hid⟩ := nonempty_iff_ne_empty.mpr hempty
    have hne : remote.buckets ≠ [] := by
      rw [hr.form.buckets, Ne, List.map_eq_nil_iff]
      exact List.ne_nil_of_mem (mem_keys_sort.mpr (mem_rangesOf hid))
    have hkeys : ∀ k ∈ keys rangeOf (R.sort (· ≤ ·)), k ∈ rangesOf R :=
      fun k hk => mem_keys_sort.mp hk
    rw [if_pos hne, hr.form.buckets, foldl_countBucket hcf h hr hkeys]
    dsimp only
    have hshared : ∀ k ∈ rangesOf L, k ∈ (∅ : Finset (String ×ₗ ℕ)) ∪
        ((keys rangeOf (R.sort (· ≤ ·))).filter (· ∈ rangesOf L)).toFinset ↔ k ∈ rangesOf R := by
      intro k hk
      rw [empty_union, List.mem_toFinset, List.mem_filter, mem_keys_sort, decide_eq_true_eq]
      exact and_iff_left hk
    have hpeer : ∑ k ∈ (rangesOf L).filter (· ∉ rangesOf R), (counts L R K k).1 = 0 := by
      refine sum_eq_zero fun k hk => ?_
      rw [counts_of_not_mem_remote (mem_filter.mp hk).2]
    rw [sum_local h hshared, sum_keys, sum_keys, sum_union_ranges, sum_union_ranges, hpeer,
      Nat.zero_add, Nat.zero_add, Nat.add_zero]

/-- The counts are what they are meant to be: bounds from below that keep the difference of the
sizes, and exact when every range that differs is listed. -/
def CountsRight (L R : Finset ReplicaEnvelopeId) (K : List (String ×ₗ ℕ))
    (result : Option (ℕ × ℕ)) : Prop :=
  ∃ p l, result = some (p, l) ∧ p ≤ (R \ L).card ∧ l ≤ (L \ R).card ∧
    (p : ℤ) - l = R.card - L.card ∧
    ((∀ k ∈ differing L R, k ∈ K) → p = (R \ L).card ∧ l = (L \ R).card)

end

/-- Two identities at the end of a writer's sequences. -/
def lastIds : List ReplicaEnvelopeId :=
  [⟨"example-linux", u64Max - 1, "not-a-hash"⟩, ⟨"example-linux", u64Max, "not-a-hash"⟩]

/-- What a node that holds only the last of them sends, with its range listed. -/
def lastListed : ReplicationInventory transcript where
  digest := transcript.replicationInventoryDigest (lastIds.drop 1)
  envelopes := lastIds.drop 1
  buckets := (lastIds.drop 1).map fun id => bucketOf transcript (lastIds.drop 1) (rangeOf id)
  accepts := none

/-- The inventory of a node that holds both. -/
def lastInventory : CompactReplicationInventory transcript :=
  (lastIds.foldl pushSorted {}).refreshDigest

end SmallTalk.Replication
