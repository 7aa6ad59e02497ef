import SmallTalk.Replication.Difference

/-!
# Replication — one exchange

The exports of `store.rs` and the exchange of `sync/worker.rs` over two nodes' tables.

* `export_envelopes`: what a node sends to a peer that described itself.
* `export_describes`: what the node says of itself meanwhile.
-/

namespace SmallTalk.Replication

open ReplicationInventory CompactReplicationInventory Finset Sorted

/-! ### Nodes and messages -/

/-- What one node's tables hold: envelopes, and identities whose envelopes a checkpoint dropped.
SQLite stores a sequence as a signed integer. -/
structure Replica where
  held : Finset ReplicaEnvelopeId
  dropped : Finset ReplicaEnvelopeId
  /-- The page the node asks peers for. -/
  accepts : ℕ
  bounded : ∀ id ∈ held ∪ dropped, id.sequence < sequenceBound

/-- What one message carries: an inventory, and envelopes (by identity). -/
structure ReplicationExchange (H : Hasher) where
  inventory : ReplicationInventory H
  envelopes : List ReplicaEnvelopeId

namespace Replica

variable (H : Hasher) (node : Replica)

/-- The identities the node lists. -/
def ids : Finset ReplicaEnvelopeId := node.held ∪ node.dropped

/-- The node's inventory, read from its tables. -/
def inventory : CompactReplicationInventory H :=
  fullCompactReplicationInventory H node.held node.dropped

/-- Whether the node can send an envelope: its inventory has the payload. -/
def Sends (id : ReplicaEnvelopeId) : Prop :=
  id ∈ node.ids ∧ (node.inventory H).payloadOf id = true

/-- The stored envelopes among `missing`. -/
def replicaEnvelopes (missing : List ReplicaEnvelopeId) : List ReplicaEnvelopeId :=
  missing.filter fun id => id ∈ node.held

def exportReplicationSummary : ReplicationExchange H where
  inventory :=
    { digest := (node.inventory H).digest
      envelopes := []
      buckets := (node.inventory H).buckets
      accepts := some node.accepts }
  envelopes := []

variable {H}

def exportReplicationDifference (pageLimit : Option ℕ → ℕ) (remote : ReplicationInventory H) :
    ReplicationExchange H :=
  let inv := node.inventory H
  let page := pageLimit remote.accepts
  let same := remote.digest ≠ H.empty ∧ remote.digest = inv.digest
  if ¬ same ∧ remote.buckets ≠ [] then
    -- The peer sent range digests, so only differing ranges need identities.
    let difference :=
      compactReplicationDifference inv remote page replicationExchangeEnvelopeLimit inv.buckets
    { inventory :=
        { digest := inv.digest
          envelopes := difference.listed
          buckets := inv.buckets
          accepts := some node.accepts }
      envelopes := node.replicaEnvelopes difference.missing }
  else
    let remoteIsComplete :=
      remote.digest = H.empty ∨ remote.digest = H.replicationInventoryDigest remote.envelopes
    let missing :=
      if same ∨ ¬ remoteIsComplete then []
      else (((inv.envelopes.filter inv.hasPayload).map inv.identity).filter fun id =>
        decide (id ∉ remote.envelopes)).take page
    { inventory :=
        { digest := inv.digest
          envelopes := if same then [] else inv.identities inv.envelopes
          buckets := []
          accepts := some node.accepts }
      envelopes := node.replicaEnvelopes missing }

/-- Store what a message carries. SQLite refuses a larger sequence. -/
def receive (envelopes : List ReplicaEnvelopeId) : Replica where
  held := node.held ∪ envelopes.toFinset.filter fun id => id.sequence < sequenceBound
  dropped := node.dropped
  accepts := node.accepts
  bounded := by
    intro id hid
    simp only [mem_union, mem_filter] at hid
    rcases hid with (hid | hid) | hid
    · exact node.bounded id (mem_union_left _ hid)
    · exact hid.2
    · exact node.bounded id (mem_union_right _ hid)

end Replica

/-- Both nodes after an exchange, and what it transferred, in the order of its messages. -/
structure Exchanged where
  first : Replica
  second : Replica
  pulled : List ReplicaEnvelopeId
  pushed : List ReplicaEnvelopeId
  pulledFollowUp : List ReplicaEnvelopeId

/-- Run one exchange: `first` sends its summary, takes what `second` sends, and pushes what it
lacks. `asks` says that the peer asked for signatures, which a push carries too. -/
def exchange (H : Hasher) (pageLimit : Option ℕ → ℕ) (asks : Bool) (first second : Replica) :
    Exchanged :=
  let summary := first.exportReplicationSummary H
  let answer := second.exportReplicationDifference pageLimit summary.inventory
  let different := decide (answer.inventory.digest ≠ summary.inventory.digest)
  let first := first.receive answer.envelopes
  if different || asks then
    let push := first.exportReplicationDifference pageLimit answer.inventory
    let second := second.receive push.envelopes
    let response := second.exportReplicationDifference pageLimit push.inventory
    { first := first.receive response.envelopes
      second
      pulled := answer.envelopes
      pushed := push.envelopes
      pulledFollowUp := response.envelopes }
  else { first, second, pulled := answer.envelopes, pushed := [], pulledFollowUp := [] }

/-! ### A node's own inventory -/

namespace Replica

variable (H : Hasher) (node : Replica)

/-- The node's identities, in order. -/
def sorted : List ReplicaEnvelopeId := node.ids.sort (· ≤ ·)

theorem mem_sorted {id : ReplicaEnvelopeId} : id ∈ node.sorted ↔ id ∈ node.ids :=
  mem_sort _

theorem inventory_wellFormed : (node.inventory H).WellFormed :=
  (full_spec H node.held node.dropped).2.1

theorem inventory_view : (node.inventory H).view = node.sorted :=
  (full_spec H node.held node.dropped).1

theorem inventory_digest :
    (node.inventory H).digest = H.replicationInventoryDigest node.sorted := by
  rw [← node.inventory_view H]
  exact digestOf_eq _ _ _

theorem inventory_buckets :
    (node.inventory H).buckets = (keys rangeOf node.sorted).map (bucketOf H node.sorted) := by
  rw [buckets_eq (node.inventory_wellFormed H), node.inventory_view H]

theorem inventory_bounded : ∀ id ∈ (node.inventory H).view, id.sequence < sequenceBound := by
  rw [node.inventory_view H]
  exact fun id hid => node.bounded id (node.mem_sorted.mp hid)

/-- What a node can send is in its table. -/
theorem Sends.held {H : Hasher} {node : Replica} {id : ReplicaEnvelopeId}
    (h : node.Sends H id) : id ∈ node.held := by
  obtain ⟨hid, hp⟩ := h
  have hm := (full_spec H node.held node.dropped).2.2
  have hregular := hm.regular id.hash
  have hirregular := hm.irregular id
  have hmem : id ∈ (node.held ∪ node.dropped).sort (· ≤ ·) := node.mem_sorted.mpr hid
  unfold payloadOf at hp
  grind [inventory]

theorem replicaEnvelopes_eq {missing : List ReplicaEnvelopeId}
    (h : ∀ id ∈ missing, node.Sends H id) : node.replicaEnvelopes missing = missing :=
  List.filter_eq_self.mpr fun id hid => decide_eq_true (h id hid).held

end Replica

/-! ### Sets of identities and their ranges -/

/-- The ranges a set of identities falls in. -/
def rangesOf (s : Finset ReplicaEnvelopeId) : Finset (String ×ₗ ℕ) := s.image rangeOf

/-- The identities of a set in one range. -/
def inRange (s : Finset ReplicaEnvelopeId) (k : String ×ₗ ℕ) : Finset ReplicaEnvelopeId :=
  s.filter fun id => rangeOf id = k

/-- The ranges both sets have, with different identities. -/
def differing (s t : Finset ReplicaEnvelopeId) : Finset (String ×ₗ ℕ) :=
  (rangesOf s ∩ rangesOf t).filter fun k => inRange s k ≠ inRange t k

/-- `s` lists range `k` to `t`: it differs, and is the first that does, or the identities of `s` in
the differing ranges up to it are no more than `limit`. -/
def Lists (limit : ℕ) (s t : Finset ReplicaEnvelopeId) (k : String ×ₗ ℕ) : Prop :=
  k ∈ differing s t ∧ ((∀ k' ∈ differing s t, k ≤ k') ∨
    (s.filter fun id => rangeOf id ∈ differing s t ∧ rangeOf id ≤ k).card ≤ limit)

section

variable {s t : Finset ReplicaEnvelopeId} {k : String ×ₗ ℕ}

theorem mem_rangesOf {id : ReplicaEnvelopeId} (h : id ∈ s) : rangeOf id ∈ rangesOf s :=
  mem_image_of_mem _ h

theorem differing_comm (s t : Finset ReplicaEnvelopeId) : differing s t = differing t s := by
  unfold differing
  rw [inter_comm]
  exact filter_congr fun k _ => ne_comm

theorem mem_keys_sort : k ∈ keys rangeOf (s.sort (· ≤ ·)) ↔ k ∈ rangesOf s := by
  rw [mem_keys, rangesOf, mem_image]
  simp

theorem sort_lt (s : Finset ReplicaEnvelopeId) : (s.sort (· ≤ ·)).Pairwise (· < ·) :=
  (sortedLT_sort _).pairwise

theorem sort_ranges (s : Finset ReplicaEnvelopeId) :
    (s.sort (· ≤ ·)).Pairwise fun a b => rangeOf a ≤ rangeOf b :=
  (sort_lt s).imp fun h => rangeOf_mono h.le

theorem ofKey_lt (s : Finset ReplicaEnvelopeId) (k : String ×ₗ ℕ) :
    (ofKey rangeOf (s.sort (· ≤ ·)) k).Pairwise (· < ·) :=
  (sort_lt s).filter _

theorem mem_ofKey_sort {id : ReplicaEnvelopeId} :
    id ∈ ofKey rangeOf (s.sort (· ≤ ·)) k ↔ id ∈ inRange s k := by
  rw [mem_ofKey, inRange, mem_filter, mem_sort]

/-- Two sets have the same identities in a range when the lists of them are the same. -/
theorem ofKey_sort_inj : ofKey rangeOf (s.sort (· ≤ ·)) k = ofKey rangeOf (t.sort (· ≤ ·)) k ↔
      inRange s k = inRange t k := by
  constructor
  · intro h
    ext id
    rw [← mem_ofKey_sort, h, mem_ofKey_sort]
  · intro h
    refine (ofKey_lt s k).sortedLT.eq_of_mem_iff (ofKey_lt t k).sortedLT fun id => ?_
    rw [mem_ofKey_sort, mem_ofKey_sort, h]

end

/-! ### What a message says of its sender -/

section

variable {H : Hasher}

/-- An inventory with the range digests of `s`, and the identities of the ranges `K`. -/
structure Summarizes (remote : ReplicationInventory H) (s : Finset ReplicaEnvelopeId)
    (K : List (String ×ₗ ℕ)) : Prop where
  buckets : remote.buckets = (keys rangeOf (s.sort (· ≤ ·))).map (bucketOf H (s.sort (· ≤ ·)))
  envelopes : remote.envelopes = K.flatMap (ofKey rangeOf (s.sort (· ≤ ·)))

/-- An inventory as sent says what the identities `s` are, and lists those of the ranges `K`: as
range digests, or, in the older form, as the whole list. -/
structure Describes (remote : ReplicationInventory H) (s : Finset ReplicaEnvelopeId)
    (K : List (String ×ₗ ℕ)) : Prop where
  digest : remote.digest = H.replicationInventoryDigest (s.sort (· ≤ ·))
  nodup : K.Nodup
  ranges : ∀ k ∈ K, k ∈ rangesOf s
  form : Summarizes remote s K ∨
    (remote.buckets = [] ∧ remote.envelopes = s.sort (· ≤ ·) ∧ ∀ k ∈ rangesOf s, k ∈ K)

variable {remote : ReplicationInventory H} {s : Finset ReplicaEnvelopeId}
  {K : List (String ×ₗ ℕ)} {k : String ×ₗ ℕ}

theorem bucketAt_eq (h : Summarizes remote s K) :
    remote.bucketAt k = if k ∈ rangesOf s then some (bucketOf H (s.sort (· ≤ ·)) k) else none := by
  have hnodup : (keys rangeOf (s.sort (· ≤ ·))).Nodup :=
    (keys_sorted (sort_ranges s)).nodup
  have hkey : ((fun bucket : ReplicationInventoryBucket H => decide (bucket.key = k)) ∘
      bucketOf H (s.sort (· ≤ ·))) = fun k' => decide (k' = k) := rfl
  unfold bucketAt
  rw [h.buckets, List.filter_map, hkey, List.filter_eq]
  split
  · rename_i hk
    rw [List.count_eq_one_of_mem hnodup (mem_keys_sort.mpr hk)]
    rfl
  · rename_i hk
    rw [List.count_eq_zero.mpr fun h => hk (mem_keys_sort.mp h)]
    rfl

variable (hK : K.Nodup) (hsub : ∀ k ∈ K, k ∈ rangesOf s)
include hK hsub

theorem listedAt_eq (h : Summarizes remote s K) :
    remote.listedAt k = if k ∈ K then some (ofKey rangeOf (s.sort (· ≤ ·)) k) else none := by
  have hsame : ofKey rangeOf remote.envelopes k =
      if k ∈ K then ofKey rangeOf (s.sort (· ≤ ·)) k else [] := by
    rw [h.envelopes]
    clear h hsub
    induction K with
    | nil => rfl
    | cons k' K ih =>
      obtain ⟨hk', hK⟩ := List.nodup_cons.mp hK
      have happ : ∀ l l' : List ReplicaEnvelopeId, ofKey rangeOf (l ++ l') k =
          ofKey rangeOf l k ++ ofKey rangeOf l' k := fun l l' => List.filter_append l l'
      rw [List.flatMap_cons, happ, ih hK]
      by_cases heq : k = k'
      · subst heq
        simp [hk', ofKey]
      · have hother : ofKey rangeOf (ofKey rangeOf (s.sort (· ≤ ·)) k') k = [] :=
          List.filter_eq_nil_iff.mpr fun id hid h =>
            heq ((of_decide_eq_true h).symm.trans (mem_ofKey.mp hid).2)
        simp [heq, hother]
  unfold listedAt
  rw [hsame]
  by_cases hk : k ∈ K
  · rw [if_pos hk, if_pos hk, if_neg (ofKey_ne_nil.mpr (mem_keys_sort.mpr (hsub k hk)))]
  · rw [if_neg hk, if_neg hk, if_pos rfl]

theorem provenAt_eq (h : Summarizes remote s K) :
    remote.provenAt k (bucketOf H (s.sort (· ≤ ·)) k) =
      if k ∈ K then some (ofKey rangeOf (s.sort (· ≤ ·)) k) else none := by
  have hsort : (ofKey rangeOf (s.sort (· ≤ ·)) k).toFinset.sort (· ≤ ·) =
      ofKey rangeOf (s.sort (· ≤ ·)) k := by
    refine (sort_lt _).sortedLT.eq_of_mem_iff (ofKey_lt s k).sortedLT fun id => ?_
    simp
  unfold provenAt
  rw [listedAt_eq hK hsub h]
  by_cases hk : k ∈ K
  · simp only [if_pos hk, hsort]
    exact if_neg (by simp [bucketOf])
  · simp only [if_neg hk]

omit hK hsub

variable {S t : Finset ReplicaEnvelopeId} (hcf : H.CollisionFree S) (hs : s ⊆ S) (ht : t ⊆ S)
include hcf hs ht

/-- Among identities in `S`, a range digest names the range. -/
theorem bucketDigest_inj : H.replicationBucketDigest (ofKey rangeOf (s.sort (· ≤ ·)) k) =
        H.replicationBucketDigest (ofKey rangeOf (t.sort (· ≤ ·)) k) ↔
      inRange s k = inRange t k := by
  rw [← ofKey_sort_inj]
  refine ⟨fun h => ?_, fun h => by rw [h]⟩
  exact hcf.bucket _ _ (ofKey_lt s k) (ofKey_lt t k)
    (fun id hid => hs (mem_of_mem_filter id (mem_ofKey_sort.mp hid)))
    (fun id hid => ht (mem_of_mem_filter id (mem_ofKey_sort.mp hid))) h

/-- Among identities in `S`, an inventory digest names the inventory. -/
theorem inventoryDigest_inj :
    H.replicationInventoryDigest (s.sort (· ≤ ·)) = H.replicationInventoryDigest (t.sort (· ≤ ·)) ↔
      s = t := by
  refine ⟨fun h => ?_, fun h => by rw [h]⟩
  have heq := hcf.inventory _ _ (sort_lt s) (sort_lt t)
    (fun id hid => hs ((mem_sort _).mp hid)) (fun id hid => ht ((mem_sort _).mp hid)) h
  rw [← sort_toFinset s (· ≤ ·), heq, sort_toFinset]

omit hcf hs ht

/-- Only of nothing are there no range digests. -/
theorem Summarizes.eq_empty (h : Summarizes remote s K) (hb : remote.buckets = []) : s = ∅ := by
  have hkeys := List.map_eq_nil_iff.mp (h.buckets.symm.trans hb)
  refine eq_empty_of_forall_notMem fun id hid => ?_
  exact List.ne_nil_of_mem (mem_keys_sort.mpr (mem_rangesOf hid)) hkeys

theorem Describes.summarizes (h : Describes remote s K) (hb : remote.buckets ≠ []) :
    Summarizes remote s K :=
  h.form.resolve_right fun hall => hb hall.1

/-- Without range digests the whole inventory is listed. -/
theorem Describes.listed (h : Describes remote s K) (hb : remote.buckets = []) :
    remote.envelopes = s.sort (· ≤ ·) ∧ ∀ k, k ∉ rangesOf s ∨ k ∈ K := by
  rcases h.form with hsum | ⟨-, he, hall⟩
  · obtain rfl := hsum.eq_empty hb
    have hK : K = [] := List.eq_nil_iff_forall_not_mem.mpr fun k hk =>
      notMem_empty k (h.ranges k hk)
    refine ⟨?_, fun k => .inl (notMem_empty k)⟩
    rw [hsum.envelopes, hK, sort_empty, List.flatMap_nil]
  · exact ⟨he, fun k => (em (k ∈ rangesOf s)).symm.imp_right (hall k)⟩

end

/-! ### What a node sends -/

section

variable {H : Hasher} {S : Finset ReplicaEnvelopeId} {node : Replica}
  {remote : ReplicationInventory H} {s : Finset ReplicaEnvelopeId} {K : List (String ×ₗ ℕ)}
  {k : String ×ₗ ℕ} {id : ReplicaEnvelopeId} (pageLimit : Option ℕ → ℕ)

/-- What a node may send to a peer that holds `s` and listed the ranges `K`. -/
structure Replica.Offers (node : Replica) (H : Hasher) (s : Finset ReplicaEnvelopeId)
    (K : List (String ×ₗ ℕ)) (id : ReplicaEnvelopeId) : Prop where
  sends : node.Sends H id
  lacks : id ∉ s
  known : rangeOf id ∉ rangesOf s ∨ rangeOf id ∈ K

theorem Replica.side_range (node : Replica) (k : String ×ₗ ℕ) :
    (node.inventory H).side.range k = ofKey rangeOf (node.ids.sort (· ≤ ·)) k :=
  congrArg (ofKey rangeOf · k) (node.inventory_view H)

theorem Replica.mem_side_range :
    id ∈ (node.inventory H).side.range k ↔ id ∈ node.ids ∧ rangeOf id = k := by
  rw [node.side_range, mem_ofKey_sort, inRange, mem_filter]

/-- A peer with the same digest is sent nothing. -/
theorem export_same (hcf : H.CollisionFree S)
    (hd : remote.digest = H.replicationInventoryDigest (node.ids.sort (· ≤ ·))) :
    (node.exportReplicationDifference pageLimit remote).envelopes = [] := by
  have hsame : remote.digest ≠ H.empty ∧ remote.digest = (node.inventory H).digest :=
    ⟨hd ▸ hcf.text _, hd.trans (node.inventory_digest H).symm⟩
  unfold Replica.exportReplicationDifference
  rw [if_neg (not_and_of_not_left _ (not_not.mpr hsame))]
  dsimp only
  rw [if_pos (.inl hsame)]
  rfl

variable (hcf : H.CollisionFree S) (hs : s ⊆ S) (ht : node.ids ⊆ S)
include hcf hs ht

theorem differs_iff (h : Summarizes remote s K) : (node.inventory H).side.differs remote k = true ↔
      k ∈ rangesOf s ∧ inRange s k ≠ inRange node.ids k := by
  unfold Side.differs
  rw [bucketAt_eq h, node.side_range]
  by_cases hk : k ∈ rangesOf s
  · rw [if_pos hk, and_iff_right hk]
    exact decide_eq_true_iff.trans (bucketDigest_inj hcf hs ht).not
  · rw [if_neg hk]
    exact iff_of_false Bool.false_ne_true fun h => hk h.1

theorem mem_candidates (hK : K.Nodup) (hsub : ∀ k ∈ K, k ∈ rangesOf s) (h : Summarizes remote s K) :
    id ∈ (node.inventory H).side.candidates remote k ↔
      node.Offers H s K id ∧ rangeOf id = k := by
  have hoffers : node.Offers H s K id ∧ rangeOf id = k ↔ (id ∈ node.ids ∧ rangeOf id = k) ∧
      (node.inventory H).payloadOf id = true ∧ id ∉ s ∧ (k ∉ rangesOf s ∨ k ∈ K) := by
    constructor
    · rintro ⟨⟨⟨hid, hp⟩, hlacks, hknown⟩, rfl⟩
      exact ⟨⟨hid, rfl⟩, hp, hlacks, hknown⟩
    · rintro ⟨⟨hid, rfl⟩, hp, hlacks, hknown⟩
      exact ⟨⟨⟨hid, hp⟩, hlacks, hknown⟩, rfl⟩
  have hrange : rangeOf id = k → id ∈ s → k ∈ rangesOf s := fun he hid => he ▸ mem_rangesOf hid
  unfold Side.candidates
  rw [hoffers, bucketAt_eq h]
  by_cases hk : k ∈ rangesOf s
  · simp only [if_pos hk]
    by_cases hsame : (bucketOf H (s.sort (· ≤ ·)) k).digest =
        H.replicationBucketDigest ((node.inventory H).side.range k)
    · -- The same digest: the peer has all of the range.
      rw [if_pos hsame]
      rw [node.side_range] at hsame
      have heq := (bucketDigest_inj hcf hs ht).mp hsame
      refine iff_of_false List.not_mem_nil fun ⟨hid, _, hlacks, _⟩ => hlacks ?_
      exact mem_of_mem_filter id (heq ▸ mem_filter.mpr hid : id ∈ inRange s k)
    · rw [if_neg hsame, provenAt_eq hK hsub h]
      by_cases hkK : k ∈ K
      · simp only [if_pos hkK, List.mem_filter, Bool.and_eq_true, decide_eq_true_eq,
          Replica.mem_side_range, mem_ofKey_sort, inRange, mem_filter]
        tauto
      · simp [hk, hkK]
  · simp only [if_neg hk, List.mem_filter, Replica.mem_side_range]
    tauto

/-- A peer with other identities has another digest. -/
theorem Describes.differs (h : Describes remote s K) (hne : s ≠ node.ids) :
    ¬ (remote.digest ≠ H.empty ∧ remote.digest = (node.inventory H).digest) := by
  rintro ⟨-, hd⟩
  rw [h.digest, node.inventory_digest H] at hd
  exact hne ((inventoryDigest_inj hcf hs ht).mp hd)

/-- **What a node sends** is the first page of what it offers. -/
theorem export_envelopes (h : Describes remote s K) :
    ∃ offered : List ReplicaEnvelopeId, (∀ id, id ∈ offered ↔ node.Offers H s K id) ∧
      (node.exportReplicationDifference pageLimit remote).envelopes =
        offered.take (pageLimit remote.accepts) := by
  by_cases heq : s = node.ids
  · refine ⟨[], fun id => iff_of_false List.not_mem_nil ?_, ?_⟩
    · rintro ⟨⟨hid, -⟩, hlacks, -⟩
      exact hlacks (heq ▸ hid)
    · rw [List.take_nil]
      exact export_same pageLimit hcf (heq ▸ h.digest)
  have hdiff := h.differs hcf hs ht heq
  unfold Replica.exportReplicationDifference
  by_cases hb : remote.buckets = []
  · -- The whole inventories are compared.
    rw [if_neg (not_and_of_not_right _ (not_not.mpr hb))]
    obtain ⟨he, hall⟩ := h.listed hb
    have hcomplete : remote.digest = H.replicationInventoryDigest remote.envelopes :=
      he ▸ h.digest
    have hnot : ¬ ((remote.digest ≠ H.empty ∧ remote.digest = (node.inventory H).digest) ∨
        ¬ (remote.digest = H.empty ∨
          remote.digest = H.replicationInventoryDigest remote.envelopes)) := by
      rintro (hsame | hincomplete)
      · exact hdiff hsame
      · exact hincomplete (.inr hcomplete)
    dsimp only
    rw [if_neg hnot]
    have hmem : ∀ id, id ∈ ((((node.inventory H).envelopes.filter
        (node.inventory H).hasPayload).map (node.inventory H).identity).filter fun id =>
          decide (id ∉ remote.envelopes)) ↔ node.Offers H s K id := by
      intro id
      rw [map_filter_hasPayload (node.inventory_wellFormed H) fun e he => he]
      have hview : (node.inventory H).identities (node.inventory H).envelopes = node.sorted :=
        node.inventory_view H
      rw [hview, he]
      simp only [List.mem_filter, decide_eq_true_eq, mem_sort, node.mem_sorted]
      constructor
      · rintro ⟨⟨hid, hp⟩, hlacks⟩
        exact ⟨⟨hid, hp⟩, hlacks, hall _⟩
      · rintro ⟨⟨hid, hp⟩, hlacks, -⟩
        exact ⟨⟨hid, hp⟩, hlacks⟩
    refine ⟨_, hmem, node.replicaEnvelopes_eq H fun id hid => ?_⟩
    exact ((hmem id).mp (List.mem_of_mem_take hid)).sends
  · rw [if_pos ⟨hdiff, hb⟩]
    have hsum := h.summarizes hb
    have hmem : ∀ id, id ∈ (keys rangeOf (node.inventory H).view).flatMap
        ((node.inventory H).side.candidates remote) ↔ node.Offers H s K id := by
      intro id
      rw [List.mem_flatMap]
      constructor
      · rintro ⟨k, -, hid⟩
        exact ((mem_candidates hcf hs ht h.nodup h.ranges hsum).mp hid).1
      · intro hid
        refine ⟨rangeOf id, ?_, (mem_candidates hcf hs ht h.nodup h.ranges hsum).mpr ⟨hid, rfl⟩⟩
        rw [node.inventory_view H]
        exact mem_keys_sort.mpr (mem_rangesOf hid.sends.1)
    refine ⟨_, hmem, ?_⟩
    dsimp only
    rw [(difference_eq (node.inventory_wellFormed H) (node.inventory_bounded H)).1]
    exact node.replicaEnvelopes_eq H fun id hid =>
      ((hmem id).mp (List.mem_of_mem_take hid)).sends

omit hcf hs ht in
/-- The ranges listed out of the differing ones in order are those `Lists` says. -/
theorem exists_listed (limit : ℕ) (s t : Finset ReplicaEnvelopeId) {D : List (String ×ₗ ℕ)}
    (hD : D.Pairwise (· < ·)) (hmem : ∀ k, k ∈ D ↔ k ∈ differing s t) :
    ∃ m, listRanges limit [] (D.map (ofKey rangeOf (s.sort (· ≤ ·)))) =
        (D.take m).flatMap (ofKey rangeOf (s.sort (· ≤ ·))) ∧
      ∀ k, k ∈ D.take m ↔ Lists limit s t k := by
  have hne : ∀ r ∈ D.map (ofKey rangeOf (s.sort (· ≤ ·))), r ≠ [] := by
    intro r hr
    obtain ⟨k, hk, rfl⟩ := List.mem_map.mp hr
    refine ofKey_ne_nil.mpr (mem_keys_sort.mpr ?_)
    exact mem_of_mem_inter_left (mem_of_mem_filter k ((hmem k).mp hk))
  obtain ⟨m, -, heq, hiff⟩ := listRanges_spec limit hne
  have hcard : ∀ (i : ℕ) (hi : i < D.length),
      (((D.map (ofKey rangeOf (s.sort (· ≤ ·)))).take (i + 1)).flatten).length =
        (s.filter fun id => rangeOf id ∈ differing s t ∧ rangeOf id ≤ D[i]).card := by
    intro i hi
    rw [← List.map_take, ← List.flatMap_def,
      flatMap_ofKey_filter (hD.sublist (List.take_sublist _ _)) (sort_ranges s)]
    rw [← List.toFinset_card_of_nodup (((sort_lt s).filter _).nodup)]
    congr 1
    ext id
    simp [mem_take_succ hD hi, hmem]
  refine ⟨m, by rw [heq, ← List.map_take, ← List.flatMap_def], fun k => ?_⟩
  have hmin : ∀ (i : ℕ) (hi : i < D.length),
      i = 0 ↔ ∀ k' ∈ differing s t, D[i] ≤ k' := by
    intro i hi
    constructor
    · rintro rfl k' hk'
      obtain ⟨j, hj, rfl⟩ := List.mem_iff_getElem.mp ((hmem k').mpr hk')
      exact hD.sortedLT.getElem_le_getElem_iff.mpr (Nat.zero_le j)
    · intro h
      have h0 := h _ ((hmem _).mp (List.getElem_mem (lt_of_le_of_lt (Nat.zero_le i) hi)))
      exact Nat.le_zero.mp (hD.sortedLT.getElem_le_getElem_iff.mp h0)
  rw [List.mem_take_iff_getElem]
  constructor
  · rintro ⟨i, hi, rfl⟩
    obtain ⟨him, hlt⟩ := lt_min_iff.mp hi
    refine ⟨(hmem _).mp (List.getElem_mem hlt), ?_⟩
    rw [← hmin i hlt, ← hcard i hlt]
    exact (hiff i (by rwa [List.length_map])).mp him
  · rintro ⟨hk, hor⟩
    obtain ⟨i, hlt, rfl⟩ := List.mem_iff_getElem.mp ((hmem k).mpr hk)
    rw [← hmin i hlt, ← hcard i hlt] at hor
    exact ⟨i, lt_min ((hiff i (by rwa [List.length_map])).mpr hor) hlt, rfl⟩

/-- **What a node says of itself** to a peer whose digest differs. To a peer that summarizes its
ranges, it lists the ranges `Lists` says. -/
theorem export_describes (h : Describes remote s K) (hne : s ≠ node.ids) :
    ∃ K', Describes (node.exportReplicationDifference pageLimit remote).inventory node.ids K' ∧
      (Summarizes remote s K → ∀ k ∈ rangesOf s,
        (k ∈ K' ↔ Lists replicationExchangeEnvelopeLimit node.ids s k)) ∧
      (Summarizes remote s K → s.Nonempty → Summarizes
        (node.exportReplicationDifference pageLimit remote).inventory node.ids K') := by
  have hdiff := h.differs hcf hs ht hne
  have hall : (keys rangeOf node.sorted).Nodup :=
    (keys_sorted (sort_ranges _)).nodup
  unfold Replica.exportReplicationDifference
  by_cases hb : remote.buckets = []
  · rw [if_neg (not_and_of_not_right _ (not_not.mpr hb))]
    refine ⟨keys rangeOf node.sorted, ⟨node.inventory_digest H, hall,
      fun k hk => mem_keys_sort.mp hk, .inr ⟨rfl, ?_, fun k hk => mem_keys_sort.mpr hk⟩⟩,
      fun hsum k hk => ?_, fun hsum hs => ?_⟩
    · dsimp only
      rw [if_neg hdiff]
      exact node.inventory_view H
    · rw [hsum.eq_empty hb] at hk
      exact absurd hk (notMem_empty k)
    · rw [hsum.eq_empty hb] at hs
      exact absurd hs not_nonempty_empty
  · rw [if_pos ⟨hdiff, hb⟩]
    have hsum := h.summarizes hb
    have hD : ((keys rangeOf (node.inventory H).view).filter
        ((node.inventory H).side.differs remote)).Pairwise (· < ·) := by
      rw [node.inventory_view H]
      exact (keys_sorted (sort_ranges _)).filter _
    have hmem : ∀ k, k ∈ (keys rangeOf (node.inventory H).view).filter
        ((node.inventory H).side.differs remote) ↔ k ∈ differing node.ids s := by
      intro k
      rw [List.mem_filter, differs_iff hcf hs ht hsum, node.inventory_view H, differing,
        mem_filter, mem_inter, and_assoc, ne_comm]
      exact and_congr_left' mem_keys_sort
    obtain ⟨m, hlisted, hlists⟩ :=
      exists_listed replicationExchangeEnvelopeLimit node.ids s hD hmem
    have hsum' : Summarizes
        { digest := (node.inventory H).digest
          envelopes := (compactReplicationDifference (node.inventory H) remote
            (pageLimit remote.accepts) replicationExchangeEnvelopeLimit
            (node.inventory H).buckets).listed
          buckets := (node.inventory H).buckets
          accepts := some node.accepts } node.ids
        (((keys rangeOf (node.inventory H).view).filter
          ((node.inventory H).side.differs remote)).take m) := by
      refine ⟨node.inventory_buckets H, ?_⟩
      rw [(difference_eq (node.inventory_wellFormed H) (node.inventory_bounded H)).2, ← hlisted]
      exact congrArg _ (List.map_congr_left fun k _ => node.side_range k)
    refine ⟨_, ⟨node.inventory_digest H, ?_, fun k hk => ?_, .inl hsum'⟩,
      fun _ k _ => hlists k, fun _ _ => hsum'⟩
    · exact (hD.sublist (List.take_sublist _ _)).nodup
    · have := (hmem k).mp (List.mem_of_mem_take hk)
      exact mem_of_mem_inter_left (mem_of_mem_filter k this)

end

end SmallTalk.Replication
