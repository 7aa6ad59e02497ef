import SmallTalk.Lib.Reconcile
import SmallTalk.Lib.Runs
import SmallTalk.Replication.Exchange

/-!
# Replication — exchanges in a row

What a whole exchange transfers, and what exchanges in a row come to.

* `exchange_pages`: each of the three messages carries a page of what its sender offers.
* `silent_iff`: when an exchange transfers nothing.
-/

namespace SmallTalk.Replication

open Replica CompactReplicationInventory Finset Reconcile Sorted

variable {id : ReplicaEnvelopeId} {s : Finset ReplicaEnvelopeId} {K : List (String ×ₗ ℕ)}

/-! ### Pages -/

/-- A list holds some of the elements that satisfy `P`, and none only if there are none. -/
structure Page {α : Type} (P : α → Prop) (l : List α) : Prop where
  mem : ∀ a ∈ l, P a
  none : l = [] → ∀ a, ¬ P a

namespace Page

variable {α : Type} {P : α → Prop}

theorem take {offered : List α} {n : ℕ} (hn : 1 ≤ n) (h : ∀ a, a ∈ offered ↔ P a) :
    Page P (offered.take n) where
  mem a ha := (h a).mp (List.mem_of_mem_take ha)
  none hnil a ha := by
    rcases List.take_eq_nil_iff.mp hnil with hn | ho
    · omega
    · exact List.ne_nil_of_mem ((h a).mpr ha) ho

theorem nil (h : ∀ a, ¬ P a) : Page P [] := ⟨List.forall_mem_nil _, fun _ => h⟩

theorem eq_nil_iff {l : List α} (h : Page P l) : l = [] ↔ ∀ a, ¬ P a := by
  refine ⟨h.none, fun hnone => List.eq_nil_iff_forall_not_mem.mpr fun a ha => ?_⟩
  exact hnone a (h.mem a ha)

end Page

/-! ### The messages of an exchange -/

namespace Replica

variable {H : Hasher} {node : Replica} {envelopes : List ReplicaEnvelopeId}

theorem receive_nil (node : Replica) : node.receive [] = node := by
  simp [receive]

/-- A node stores what another node could send. -/
theorem held_receive (h : ∀ id ∈ envelopes, id.sequence < sequenceBound) :
    (node.receive envelopes).held = node.held ∪ envelopes.toFinset :=
  congrArg (node.held ∪ ·) (filter_true_of_mem fun id hid => h id (List.mem_toFinset.mp hid))

theorem ids_receive (h : ∀ id ∈ envelopes, id.sequence < sequenceBound) :
    (node.receive envelopes).ids = node.ids ∪ envelopes.toFinset := by
  rw [ids, held_receive h]
  exact union_right_comm _ _ _

theorem Sends.bounded (h : node.Sends H id) : id.sequence < sequenceBound :=
  node.bounded id h.1

theorem export_digest (pageLimit : Option ℕ → ℕ) (remote : ReplicationInventory H) :
    (node.exportReplicationDifference pageLimit remote).inventory.digest =
      H.replicationInventoryDigest (node.ids.sort (· ≤ ·)) := by
  unfold exportReplicationDifference
  dsimp only
  split <;> exact node.inventory_digest H

theorem summary_describes (H : Hasher) (node : Replica) :
    Describes (node.exportReplicationSummary H).inventory node.ids [] ∧
      Summarizes (node.exportReplicationSummary H).inventory node.ids [] := by
  have hsum : Summarizes (node.exportReplicationSummary H).inventory node.ids [] :=
    ⟨node.inventory_buckets H, rfl⟩
  exact ⟨⟨node.inventory_digest H, List.nodup_nil, fun k hk => absurd hk List.not_mem_nil,
    .inl hsum⟩, hsum⟩

end Replica

theorem not_lists_self {limit : ℕ} {k : String ×ₗ ℕ} : ¬ Lists limit s s k := by
  rintro ⟨hk, -⟩
  exact (mem_filter.mp hk).2 rfl

section

variable {H : Hasher} {S : Finset ReplicaEnvelopeId} {pageLimit : Option ℕ → ℕ} {asks : Bool}
  {first second : Replica}

theorem export_page {node : Replica} {remote : ReplicationInventory H} (hcf : H.CollisionFree S)
    (hpage : ∀ a, 1 ≤ pageLimit a) (hs : s ⊆ S) (ht : node.ids ⊆ S) (h : Describes remote s K) :
    Page (node.Offers H s K) (node.exportReplicationDifference pageLimit remote).envelopes := by
  obtain ⟨offered, hmem, heq⟩ := export_envelopes pageLimit hcf hs ht h
  rw [heq]
  exact .take (hpage _) hmem

/-- What is sent stays within what both have. -/
theorem receive_subset {node sender : Replica} {envelopes : List ReplicaEnvelopeId}
    (h : Page (sender.Offers H s K) envelopes) (hnode : node.ids ⊆ S) (hsender : sender.ids ⊆ S) :
    (node.receive envelopes).ids ⊆ S := by
  rw [ids_receive fun id hid => (h.mem id hid).sends.bounded]
  refine union_subset hnode fun id hid => hsender ?_
  exact (h.mem id (List.mem_toFinset.mp hid)).sends.1

/-- What each message of an exchange carries. `K` are the ranges the second node lists, `K'` those
the first lists in its push. -/
structure Messages (H : Hasher) (first second : Replica) (e : Exchanged)
    (K K' : List (String ×ₗ ℕ)) : Prop where
  pulled : Page (second.Offers H first.ids []) e.pulled
  pushed : Page ((first.receive e.pulled).Offers H second.ids K) e.pushed
  followUp : Page ((second.receive e.pushed).Offers H (first.receive e.pulled).ids K')
    e.pulledFollowUp
  firstStored : e.first = (first.receive e.pulled).receive e.pulledFollowUp
  secondStored : e.second = second.receive e.pushed
  listed : ∀ k ∈ rangesOf first.ids,
    (k ∈ K ↔ Lists replicationExchangeEnvelopeLimit second.ids first.ids k)
  listedBack : first.ids.Nonempty → ∀ k ∈ rangesOf second.ids,
    (k ∈ K' ↔ Lists replicationExchangeEnvelopeLimit (first.receive e.pulled).ids second.ids k)

/-- A node with nothing new for a peer offers it nothing. -/
theorem not_offers {node : Replica} (h : node.ids ⊆ s) (id : ReplicaEnvelopeId) :
    ¬ node.Offers H s K id :=
  fun ho => ho.lacks (h ho.sends.1)

theorem messages_same (hcf : H.CollisionFree S) (h : first.ids = second.ids) :
    Messages H first second (exchange H pageLimit asks first second) [] [] := by
  have hsame : ∀ (node : Replica) (remote : ReplicationInventory H),
      remote.digest = H.replicationInventoryDigest (node.ids.sort (· ≤ ·)) →
      (node.exportReplicationDifference pageLimit remote).envelopes = [] :=
    fun _ _ => export_same pageLimit hcf
  have hall : exchange H pageLimit asks first second = ⟨first, second, [], [], []⟩ := by
    unfold exchange
    dsimp only
    rw [hsame second _ (h ▸ first.inventory_digest H), first.receive_nil,
      hsame first _ (h ▸ export_digest _ _), second.receive_nil,
      hsame second _ (h ▸ export_digest _ _), first.receive_nil, ite_self]
  rw [hall]
  refine ⟨.nil (not_offers h.superset), .nil ?_, .nil ?_, ?_, ?_, fun k _ => ?_, fun _ k _ => ?_⟩
  · rw [first.receive_nil]
    exact not_offers h.subset
  · rw [first.receive_nil, second.receive_nil]
    exact not_offers h.superset
  · rw [first.receive_nil, first.receive_nil]
  · rw [second.receive_nil]
  · rw [h]
    exact iff_of_false List.not_mem_nil not_lists_self
  · rw [first.receive_nil, h]
    exact iff_of_false List.not_mem_nil not_lists_self

/-- **The messages of an exchange.** -/
theorem exchange_pages (asks : Bool) (hcf : H.CollisionFree S) (hpage : ∀ a, 1 ≤ pageLimit a)
    (hfirst : first.ids ⊆ S) (hsecond : second.ids ⊆ S) :
    ∃ K K', Messages H first second (exchange H pageLimit asks first second) K K' := by
  by_cases heq : first.ids = second.ids
  · exact ⟨[], [], messages_same hcf heq⟩
  obtain ⟨hdesc, hsum⟩ := first.summary_describes H
  obtain ⟨K, hanswer, hK, hform⟩ :=
    export_describes pageLimit hcf hfirst hsecond hdesc heq
  have hpulled := export_page hcf hpage hfirst hsecond hdesc
  obtain ⟨answer, hdef⟩ : ∃ answer, answer = second.exportReplicationDifference pageLimit
    (first.exportReplicationSummary H).inventory := ⟨_, rfl⟩
  have hdigest : answer.inventory.digest ≠ (first.exportReplicationSummary H).inventory.digest := by
    rw [hdef, export_digest, hdesc.digest]
    exact fun h => heq ((inventoryDigest_inj hcf hsecond hfirst).mp h).symm
  rw [← hdef] at hanswer hform hpulled
  have hmid := receive_subset hpulled hfirst hsecond
  have hpushed := export_page hcf hpage hsecond hmid hanswer
  obtain ⟨push, hpush⟩ : ∃ push, push = (first.receive
    answer.envelopes).exportReplicationDifference pageLimit answer.inventory := ⟨_, rfl⟩
  have hexchange : exchange H pageLimit asks first second =
      let second := second.receive push.envelopes
      let response := second.exportReplicationDifference pageLimit push.inventory
      { first := (first.receive answer.envelopes).receive response.envelopes
        second
        pulled := answer.envelopes
        pushed := push.envelopes
        pulledFollowUp := response.envelopes } := by
    unfold exchange
    dsimp only
    rw [← hdef, decide_eq_true hdigest, Bool.true_or, if_pos rfl, ← hpush]
  rw [← hpush] at hpushed
  have hend := receive_subset hpushed hsecond hmid
  rw [hexchange]
  by_cases hmeet : second.ids = (first.receive answer.envelopes).ids
  · -- The first node has caught up: nothing is pushed, and nothing more pulled.
    have hnone : push.envelopes = [] := hpushed.eq_nil_iff.mpr (not_offers hmeet.superset)
    have hnone' : (second.exportReplicationDifference pageLimit push.inventory).envelopes = [] := by
      refine export_same pageLimit hcf ?_
      rw [hpush, export_digest, hmeet]
    refine ⟨K, [], ⟨hpulled, hpushed, ?_, rfl, rfl, hK hsum, fun _ k _ => ?_⟩⟩
    · dsimp only
      rw [hnone, second.receive_nil, hnone']
      exact .nil (not_offers hmeet.subset)
    · dsimp only
      rw [hmeet]
      exact iff_of_false List.not_mem_nil not_lists_self
  · obtain ⟨K', hdescribes, hK', -⟩ :=
      export_describes pageLimit hcf hsecond hmid hanswer hmeet
    rw [← hpush] at hdescribes
    refine ⟨K, K', ⟨hpulled, hpushed, export_page hcf hpage hmid hend hdescribes, rfl, rfl, hK hsum,
      fun hne k hk => hK' (hform hsum hne) k hk⟩⟩

end

/-! ### Exchanges without tombstones -/

section

variable {H : Hasher} {pageLimit : Option ℕ → ℕ} {asks : Bool} {first second : Replica}

/-- A held envelope can be sent unless an identity whose payload was dropped has its hash. -/
theorem Replica.sends_of_held {node : Replica} (hid : id ∈ node.held)
    (h : ∀ id' ∈ node.dropped, id'.hash ≠ id.hash) : node.Sends H id := by
  have hm := (full_spec H node.held node.dropped).2.2
  refine ⟨mem_union_left _ hid, ?_⟩
  unfold payloadOf
  split
  · refine decide_eq_true fun hmem => ?_
    rcases (hm.regular _).mp hmem with hnone | ⟨id', hmem', hnot, -, heq⟩
    · exact absurd hnone (notMem_empty _)
    · rcases mem_union.mp ((mem_sort _).mp hmem') with hheld | hdropped
      · exact hnot hheld
      · exact h id' hdropped heq
  · refine decide_eq_true fun hmem => ?_
    rcases (hm.irregular _).mp hmem with hnone | ⟨-, hnot, -⟩
    · exact absurd hnone (notMem_empty _)
    · exact hnot hid

theorem Replica.ids_of_dropped {node : Replica} (h : node.dropped = ∅) : node.ids = node.held := by
  rw [ids, h, union_empty]

/-- Nothing is transferred. -/
def Exchanged.Silent (e : Exchanged) : Prop :=
  e.pulled = [] ∧ e.pushed = [] ∧ e.pulledFollowUp = []

/-- Nothing is transferred that the receiver holds. -/
structure Exchanged.Fresh (e : Exchanged) (first second : Replica) : Prop where
  pulled : ∀ id ∈ e.pulled, id ∉ first.held
  pushed : ∀ id ∈ e.pushed, id ∉ second.held
  followUp : ∀ id ∈ e.pulledFollowUp, id ∉ (first.receive e.pulled).held

/-- `node` can send an envelope that `peer` neither holds nor has dropped. -/
def Replica.Owes (H : Hasher) (node peer : Replica) (id : ReplicaEnvelopeId) : Prop :=
  node.Sends H id ∧ id ∉ peer.ids

/-- An owed envelope is in a range the peer has nothing of, or lists to the node. -/
def Replica.Reaches (H : Hasher) (node peer : Replica) (id : ReplicaEnvelopeId) : Prop :=
  node.Owes H peer id ∧ (rangeOf id ∉ rangesOf peer.ids ∨
    Lists replicationExchangeEnvelopeLimit peer.ids node.ids (rangeOf id))

theorem offers_iff_reaches {node peer : Replica}
    (hK : ∀ k ∈ rangesOf node.ids, (k ∈ K ↔ Lists replicationExchangeEnvelopeLimit peer.ids node.ids k))
    (id : ReplicaEnvelopeId) : node.Offers H peer.ids K id ↔ node.Reaches H peer id := by
  constructor
  · rintro ⟨hsends, hlacks, hknown⟩
    exact ⟨⟨hsends, hlacks⟩, hknown.imp_right (hK _ (mem_rangesOf hsends.1)).mp⟩
  · rintro ⟨⟨hsends, hlacks⟩, hknown⟩
    exact ⟨hsends, hlacks, hknown.imp_right (hK _ (mem_rangesOf hsends.1)).mpr⟩

/-- **A silent exchange** is one in which no owed envelope reaches the other node. -/
theorem silent_iff {S : Finset ReplicaEnvelopeId} (hcf : H.CollisionFree S)
    (hpage : ∀ a, 1 ≤ pageLimit a) (hfirst : first.ids ⊆ S) (hsecond : second.ids ⊆ S) :
    (exchange H pageLimit asks first second).Silent ↔
      (∀ id, ¬ first.Reaches H second id) ∧ ∀ id, ¬ second.Reaches H first id := by
  obtain ⟨K, K', m⟩ := exchange_pages asks hcf hpage hfirst hsecond
  generalize exchange H pageLimit asks first second = e at m
  obtain ⟨f, g, pulled, pushed, followUp⟩ := e
  obtain ⟨hpulled, hpushed, hfollow, -, -, hK, hK'⟩ := m
  -- A node with no identities has no ranges, so it need not list any.
  have hback : pulled = [] → ∀ id, second.Offers H first.ids K' id ↔ second.Reaches H first id := by
    rintro rfl
    rw [first.receive_nil] at hK'
    by_cases hne : first.ids.Nonempty
    · exact offers_iff_reaches (hK' hne)
    · have hnone : ∀ id, rangeOf id ∉ rangesOf first.ids := by
        rw [not_nonempty_iff_eq_empty.mp hne]
        exact fun id => notMem_empty _
      exact fun id => ⟨fun h => ⟨⟨h.sends, h.lacks⟩, .inl (hnone id)⟩,
        fun h => ⟨h.1.1, h.1.2, .inl (hnone id)⟩⟩
  constructor
  · rintro ⟨rfl, rfl, rfl⟩
    rw [first.receive_nil] at hpushed hfollow
    rw [second.receive_nil] at hfollow
    exact ⟨fun id h => hpushed.none rfl id ((offers_iff_reaches hK id).mpr h),
      fun id h => hfollow.none rfl id ((hback rfl id).mpr h)⟩
  · rintro ⟨hone, htwo⟩
    have hp : pulled = [] := by
      refine hpulled.eq_nil_iff.mpr fun id h => htwo id ⟨⟨h.sends, h.lacks⟩, .inl ?_⟩
      exact h.known.resolve_right List.not_mem_nil
    subst hp
    rw [first.receive_nil] at hpushed hfollow
    have hq : pushed = [] :=
      hpushed.eq_nil_iff.mpr fun id h => hone id ((offers_iff_reaches hK id).mp h)
    subst hq
    rw [second.receive_nil] at hfollow
    exact ⟨rfl, rfl, hfollow.eq_nil_iff.mpr fun id h => htwo id ((hback rfl id).mp h)⟩

/-- The first differing range is listed. -/
theorem exists_lists (limit : ℕ) {s t : Finset ReplicaEnvelopeId}
    (h : (differing s t).Nonempty) : ∃ k ∈ differing s t, Lists limit s t k ∧ Lists limit t s k := by
  refine ⟨(differing s t).min' h, Finset.min'_mem _ h, ⟨Finset.min'_mem _ h, .inl ?_⟩, ?_⟩
  · exact fun k' => Finset.min'_le _ k'
  · refine ⟨differing_comm s t ▸ Finset.min'_mem _ h, .inl fun k' hk' => ?_⟩
    exact Finset.min'_le _ k' (differing_comm s t ▸ hk')

/-- Sets that differ in a range differ in one of its identities. -/
theorem exists_owed {s t : Finset ReplicaEnvelopeId} {k : String ×ₗ ℕ}
    (h : inRange s k ≠ inRange t k) :
    ∃ id, rangeOf id = k ∧ (id ∈ s ∧ id ∉ t ∨ id ∈ t ∧ id ∉ s) := by
  obtain ⟨id, hid⟩ := not_forall.mp fun hall => h (Finset.ext hall)
  simp only [inRange, mem_filter] at hid
  exact ⟨id, by tauto⟩

/-- Between nodes without tombstones, an envelope that does not reach the peer is in a range that
the peer has, and does not list. -/
theorem range_of_not_reaches {node peer : Replica} (hnode : node.dropped = ∅)
    (hpeer : peer.dropped = ∅) (hnone : ∀ id, ¬ node.Reaches H peer id) (hid : id ∈ node.held)
    (hlacks : id ∉ peer.held) : rangeOf id ∈ rangesOf peer.held ∧
      ¬ Lists replicationExchangeEnvelopeLimit peer.held node.held (rangeOf id) := by
  have hsends : node.Sends H id := sends_of_held hid fun id' hid' =>
    absurd (hnode ▸ hid') (notMem_empty id')
  rw [← ids_of_dropped hpeer] at hlacks ⊢
  rw [← ids_of_dropped hnode]
  refine ⟨?_, fun hl => hnone id ⟨⟨hsends, hlacks⟩, .inr hl⟩⟩
  by_contra hr
  exact hnone id ⟨⟨hsends, hlacks⟩, .inl hr⟩

section

variable (asks) (hcf : H.CollisionFree (first.held ∪ second.held))
  (hpage : ∀ a, 1 ≤ pageLimit a) (hA : first.dropped = ∅) (hB : second.dropped = ∅)

include hcf hpage hA hB

/-- Nodes without tombstones that differ exchange something. -/
theorem not_silent_of_ne (hne : first.held ≠ second.held) :
    ¬ (exchange H pageLimit asks first second).Silent := by
  have hfirst := ids_of_dropped hA
  have hsecond := ids_of_dropped hB
  rw [silent_iff hcf hpage (hfirst ▸ subset_union_left) (hsecond ▸ subset_union_right)]
  rintro ⟨hone, htwo⟩
  -- An owed envelope is in a range both have, or it would reach the other node.
  have hshared : (differing first.held second.held).Nonempty := by
    obtain ⟨id, hid⟩ := not_forall.mp fun h => hne (Finset.ext h)
    refine ⟨rangeOf id, mem_filter.mpr ⟨mem_inter.mpr ?_, fun heq => hid ?_⟩⟩
    · by_cases hf : id ∈ first.held
      · exact ⟨mem_rangesOf hf, (range_of_not_reaches hA hB hone hf
          fun hs => hid (iff_of_true hf hs)).1⟩
      · have hs : id ∈ second.held := by_contra fun hs => hid (iff_of_false hf hs)
        exact ⟨(range_of_not_reaches hB hA htwo hs hf).1, mem_rangesOf hs⟩
    · simpa [inRange] using Finset.ext_iff.mp heq id
  obtain ⟨k, hk, hlist, hlist'⟩ := exists_lists replicationExchangeEnvelopeLimit hshared
  obtain ⟨id, rfl, ⟨hf, hs⟩ | ⟨hs, hf⟩⟩ := exists_owed (mem_filter.mp hk).2
  · exact (range_of_not_reaches hA hB hone hf hs).2 hlist'
  · exact (range_of_not_reaches hB hA htwo hs hf).2 hlist

/-- What an exchange does to nodes without tombstones. -/
theorem exchange_copies :
    Copies first.held second.held (exchange H pageLimit asks first second).first.held
      (exchange H pageLimit asks first second).second.held := by
  have hfirst := ids_of_dropped hA
  have hsecond := ids_of_dropped hB
  rw [← hfirst, ← hsecond] at hcf
  obtain ⟨K, K', m⟩ := exchange_pages asks hcf hpage subset_union_left subset_union_right
  rw [hfirst, hsecond] at hcf
  have hsilent := not_silent_of_ne asks hcf hpage hA hB
  generalize exchange H pageLimit asks first second = e at m hsilent
  have hfront : (first.receive e.pulled).held = first.held ∪ e.pulled.toFinset :=
    held_receive fun id hid => (m.pulled.mem id hid).sends.bounded
  have hback : e.second.held = second.held ∪ e.pushed.toFinset := by
    rw [m.secondStored]
    exact held_receive fun id hid => (m.pushed.mem id hid).sends.bounded
  have hend : e.first.held = first.held ∪ e.pulled.toFinset ∪ e.pulledFollowUp.toFinset := by
    rw [m.firstStored, ← hfront]
    exact held_receive fun id hid => (m.followUp.mem id hid).sends.bounded
  have hpulled : e.pulled.toFinset ⊆ second.held :=
    fun id hid => (m.pulled.mem id (List.mem_toFinset.mp hid)).sends.held
  have hpushed : e.pushed.toFinset ⊆ first.held ∪ second.held := fun id hid =>
    union_subset_union_right hpulled
      (hfront ▸ (m.pushed.mem id (List.mem_toFinset.mp hid)).sends.held)
  have hfollow : e.pulledFollowUp.toFinset ⊆ first.held ∪ second.held := by
    intro id hid
    have hheld := (m.followUp.mem id (List.mem_toFinset.mp hid)).sends.held
    rw [← m.secondStored, hback] at hheld
    exact union_subset subset_union_right hpushed hheld
  refine ⟨?_, ?_, ?_, fun hne => ?_⟩
  · rw [hend, union_assoc]
    exact subset_union_left
  · rw [hback]
    exact subset_union_left
  · rw [hend, hback]
    refine union_subset (union_subset (union_subset ?_ ?_) hfollow)
      (union_subset subset_union_right hpushed)
    · exact subset_union_left
    · exact hpulled.trans subset_union_right
  · by_contra hsame
    obtain ⟨hf, hs⟩ := not_or.mp hsame
    rw [not_not] at hf hs
    refine hsilent hne ⟨?_, ?_, ?_⟩
    · refine List.eq_nil_iff_forall_not_mem.mpr fun id hid => (m.pulled.mem id hid).lacks ?_
      rw [hfirst, ← hf, hend, union_assoc]
      exact mem_union_right _ (mem_union_left _ (List.mem_toFinset.mpr hid))
    · refine List.eq_nil_iff_forall_not_mem.mpr fun id hid => (m.pushed.mem id hid).lacks ?_
      rw [hsecond, ← hs, hback]
      exact mem_union_right _ (List.mem_toFinset.mpr hid)
    · refine List.eq_nil_iff_forall_not_mem.mpr fun id hid => (m.followUp.mem id hid).lacks ?_
      refine mem_union_left _ (mem_union_left _ ?_)
      rw [← hf, hend]
      exact mem_union_right _ (List.mem_toFinset.mpr hid)

end

theorem exchange_dropped (H : Hasher) (pageLimit : Option ℕ → ℕ) (asks : Bool)
    (first second : Replica) :
    (exchange H pageLimit asks first second).first.dropped = first.dropped ∧
      (exchange H pageLimit asks first second).second.dropped = second.dropped := by
  unfold exchange
  dsimp only
  split <;> exact ⟨rfl, rfl⟩

/-- Exchanges in a row, one for each element of `asks`. -/
def exchanges (H : Hasher) (pageLimit : Option ℕ → ℕ) (asks : List Bool)
    (nodes : Replica × Replica) : Replica × Replica :=
  asks.foldl (fun nodes asks =>
    let e := exchange H pageLimit asks nodes.1 nodes.2
    (e.first, e.second)) nodes

/-- **Sync without tombstones.**  An exchange never sends an envelope its receiver holds, and sends
some while the nodes differ; as many exchanges as they are apart give both everything. -/
theorem exchanges_reconcile (H : Hasher) (pageLimit : Option ℕ → ℕ) (hpage : ∀ a, 1 ≤ pageLimit a)
    (first second : Replica) (hA : first.dropped = ∅) (hB : second.dropped = ∅)
    (hcf : H.CollisionFree (first.held ∪ second.held)) :
    (∀ asks, (exchange H pageLimit asks first second).Fresh first second ∧
      (first.held ≠ second.held → ¬ (exchange H pageLimit asks first second).Silent)) ∧
    ∀ asks : List Bool,
      (first.held \ second.held).card + (second.held \ first.held).card ≤ asks.length →
        (exchanges H pageLimit asks (first, second)).1.held = first.held ∪ second.held ∧
        (exchanges H pageLimit asks (first, second)).2.held = first.held ∪ second.held := by
  refine ⟨fun asks => ⟨?_, not_silent_of_ne asks hcf hpage hA hB⟩, fun asks hlen => ?_⟩
  · have hsub : first.ids ∪ second.ids ⊆ first.held ∪ second.held := by
      rw [ids_of_dropped hA, ids_of_dropped hB]
    obtain ⟨K, K', m⟩ := exchange_pages asks hcf hpage
      (union_subset_left hsub) (union_subset_right hsub)
    refine ⟨fun id hid h => ?_, fun id hid h => ?_, fun id hid h => ?_⟩
    · exact (m.pulled.mem id hid).lacks (mem_union_left _ h)
    · exact (m.pushed.mem id hid).lacks (mem_union_left _ h)
    · exact (m.followUp.mem id hid).lacks (mem_union_left _ h)
  · refine foldl_reconciled (fun nodes : Replica × Replica => nodes.1.held)
      (fun nodes => nodes.2.held)
      (fun nodes => nodes.1.dropped = ∅ ∧ nodes.2.dropped = ∅ ∧
        nodes.1.held ∪ nodes.2.held ⊆ first.held ∪ second.held) ?_ ?_ asks ⟨hA, hB, subset_rfl⟩ hlen
    · rintro nodes asks ⟨hf, hs, hsub⟩
      obtain ⟨hf', hs'⟩ := exchange_dropped H pageLimit asks nodes.1 nodes.2
      have hcopies := exchange_copies asks (hcf.mono hsub) hpage hf hs
      exact ⟨hf'.trans hf, hs'.trans hs, hcopies.union.trans hsub⟩
    · rintro nodes asks ⟨hf, hs, hsub⟩
      exact exchange_copies asks (hcf.mono hsub) hpage hf hs

/-- A node with one envelope of its own. -/
def soloReplica (writer : String) : Replica where
  held := {⟨writer, 1, "00"⟩}
  dropped := ∅
  accepts := replicationPageMax
  bounded := by
    intro id hid
    rw [union_empty, mem_singleton] at hid
    subst hid
    exact Nat.one_lt_two_pow (by decide)

theorem one_le_replicationPageLimit (accepts : Option ℕ) : 1 ≤ replicationPageLimit accepts := by
  cases accepts with
  | none => exact Nat.le_add_left 1 511
  | some accepts => exact le_min (le_max_right _ _) (Nat.le_add_left 1 4095)

theorem exchanges_reconcile_two_writers : (exchanges transcript replicationPageLimit [false, true]
      (soloReplica "ant", soloReplica "bee")).1.held = {⟨"ant", 1, "00"⟩, ⟨"bee", 1, "00"⟩} :=
  ((exchanges_reconcile transcript replicationPageLimit one_le_replicationPageLimit
    (soloReplica "ant") (soloReplica "bee") rfl rfl (transcript_collisionFree _)).2 [false, true]
      (by decide)).1

end

/-! ### Many nodes -/

/-- From `node` to `after`: it keeps what it has, and takes only envelopes of `known` that it had not
dropped. -/
structure Replica.Learns (known : Set ReplicaEnvelopeId) (node after : Replica) : Prop where
  dropped : after.dropped = node.dropped
  keeps : node.held ⊆ after.held
  takes : ∀ id ∈ after.held, id ∈ node.held ∨ id ∈ known ∧ id ∉ node.dropped

/-- The nodes after an exchange between two of them. -/
def meet {ι : Type} [DecidableEq ι] (H : Hasher) (pageLimit : Option ℕ → ℕ) (nodes : ι → Replica)
    (pair : ι × ι × Bool) : ι → Replica :=
  let e := exchange H pageLimit pair.2.2 (nodes pair.1) (nodes pair.2.1)
  Function.update (Function.update nodes pair.1 e.first) pair.2.1 e.second

section

variable {H : Hasher} {pageLimit : Option ℕ → ℕ} {known : Set ReplicaEnvelopeId}
  {node after last first second : Replica}

theorem Replica.Learns.trans (h : Learns known node after) (h' : Learns known after last) :
    Learns known node last := by
  refine ⟨h'.dropped.trans h.dropped, h.keeps.trans h'.keeps, fun id hid => ?_⟩
  rcases h'.takes id hid with hid | hid
  · exact h.takes id hid
  · exact .inr (h.dropped ▸ hid)

theorem Replica.Learns.within (h : Learns known node after) (hnode : ↑node.held ⊆ known) :
    ↑after.held ⊆ known := fun id hid => (h.takes id hid).elim (hnode ·) (·.1)

theorem receive_learns {envelopes : List ReplicaEnvelopeId} (hknown : ↑first.held ⊆ known)
    (h : Page (first.Offers H node.ids K) envelopes) :
    Learns known node (node.receive envelopes) := by
  have hheld := node.held_receive fun id hid => (h.mem id hid).sends.bounded
  refine ⟨rfl, hheld ▸ subset_union_left, fun id hid => ?_⟩
  rw [hheld, mem_union, List.mem_toFinset] at hid
  refine hid.imp_right fun hid => ⟨hknown (h.mem id hid).sends.held, fun hdropped => ?_⟩
  exact (h.mem id hid).lacks (mem_union_right _ hdropped)

variable {S : Finset ReplicaEnvelopeId} {ι : Type} [DecidableEq ι] {nodes : ι → Replica}
  (hcf : H.CollisionFree S) (hpage : ∀ a, 1 ≤ pageLimit a)

include hcf hpage

theorem meet_learns (hS : ∀ i, (nodes i).ids ⊆ S) (hknown : ∀ i, ↑(nodes i).held ⊆ known)
    (pair : ι × ι × Bool) (i : ι) : Learns known (nodes i) (meet H pageLimit nodes pair i) := by
  obtain ⟨_, _, m⟩ := exchange_pages pair.2.2 hcf hpage (hS pair.1) (hS pair.2.1)
  have hpulled := receive_learns (hknown pair.2.1) m.pulled
  have hpushed := receive_learns (hpulled.within (hknown pair.1)) m.pushed
  have hfollow := receive_learns (hpushed.within (hknown pair.2.1)) m.followUp
  unfold meet
  rw [m.firstStored, m.secondStored]
  by_cases hsecond : i = pair.2.1
  · rw [hsecond, Function.update_self]
    exact hpushed
  by_cases hfirst : i = pair.1
  · rw [Function.update_of_ne hsecond, hfirst, Function.update_self]
    exact hpulled.trans hfollow
  · rw [Function.update_of_ne hsecond, Function.update_of_ne hfirst]
    exact ⟨rfl, subset_rfl, fun _ => .inl⟩

/-- **Many nodes.** After exchanges between any pairs of nodes in any order, a node has all it had,
and nothing that none of them held or that it had dropped. -/
theorem meetings_learn (hS : ∀ i, (nodes i).ids ⊆ S) (hknown : ∀ i, ↑(nodes i).held ⊆ known)
    (hwithin : known ⊆ S) (pairs : List (ι × ι × Bool)) (i : ι) :
    Learns known (nodes i) (pairs.foldl (meet H pageLimit) nodes i) := by
  induction pairs generalizing nodes with
  | nil => exact ⟨rfl, subset_rfl, fun _ => .inl⟩
  | cons pair pairs ih =>
    have hmeet := meet_learns hcf hpage hS hknown pair
    have hknown' := fun i => (hmeet i).within (hknown i)
    refine (hmeet i).trans (ih (fun i => ?_) hknown')
    refine union_subset (fun id hid => hwithin (hknown' i hid)) ?_
    exact (hmeet i).dropped ▸ subset_union_right.trans (hS i)

variable [Fintype ι] (hdropped : ∀ i, (nodes i).dropped = ∅) (hS : ∀ i, (nodes i).held ⊆ S)

include hdropped hS

/-- Where two nodes meet that differ, less is missing. -/
theorem meet_lt {pair : ι × ι × Bool} (hne : (nodes pair.1).held ≠ (nodes pair.2.1).held) :
    ∑ i, (S \ (meet H pageLimit nodes pair i).held).card < ∑ i, (S \ (nodes i).held).card := by
  have hmeet := meet_learns hcf hpage (fun i => ids_of_dropped (hdropped i) ▸ hS i)
    (fun i => coe_subset.mpr (hS i)) pair
  have hsub : ∀ i, S \ (meet H pageLimit nodes pair i).held ⊆ S \ (nodes i).held := fun i =>
    sdiff_subset_sdiff subset_rfl (hmeet i).keeps
  obtain ⟨i, hi⟩ : ∃ i, (meet H pageLimit nodes pair i).held ≠ (nodes i).held := by
    have hpair : pair.1 ≠ pair.2.1 := fun h => hne (by rw [h])
    rcases (exchange_copies pair.2.2 (hcf.mono (union_subset (hS _) (hS _))) hpage (hdropped _)
      (hdropped _)).progress hne with h | h
    · exact ⟨pair.1, by rwa [meet, Function.update_of_ne hpair, Function.update_self]⟩
    · exact ⟨pair.2.1, by rwa [meet, Function.update_self]⟩
  obtain ⟨id, hid, hnew⟩ := exists_of_ssubset ((hmeet i).keeps.ssubset_of_ne hi.symm)
  refine sum_lt_sum (fun i _ => card_le_card (hsub i)) ⟨i, mem_univ i, card_lt_card ?_⟩
  refine (ssubset_iff_of_subset (hsub i)).mpr ⟨id, mem_sdiff.mpr ⟨?_, hnew⟩, ?_⟩
  · exact (hmeet i).within (hS i) hid
  · exact fun h => (mem_sdiff.mp h).2 hid

/-- **Convergence.** Without tombstones, nodes that differ meet no more often, in whatever order,
than envelopes are missing. -/
theorem meetings_end (pairs : List (ι × ι × Bool)) (hdiffer : Runs.Along (meet H pageLimit)
      (fun nodes pair => (nodes pair.1).held ≠ (nodes pair.2.1).held) nodes pairs) :
    pairs.length ≤ ∑ i, (S \ (nodes i).held).card := by
  induction pairs generalizing nodes with
  | nil => exact Nat.zero_le _
  | cons pair pairs ih =>
    have hmeet := meet_learns hcf hpage (fun i => ids_of_dropped (hdropped i) ▸ hS i)
      (fun i => coe_subset.mpr (hS i)) pair
    have hle := ih (fun i => (hmeet i).dropped.trans (hdropped i))
      (fun i => (hmeet i).within (hS i)) hdiffer.2
    exact (Nat.succ_le_succ hle).trans (meet_lt hcf hpage hdropped hS hdiffer.1)

end

def solos (i : Bool) : Replica := soloReplica (if i then "ant" else "bee")

theorem solos_learn : Learns ↑(univ.biUnion fun i => (solos i).held) (solos true)
      ([(true, false, true), (false, true, false)].foldl (meet transcript replicationPageLimit) solos
        true) :=
  meetings_learn (transcript_collisionFree _) one_le_replicationPageLimit (by decide)
    (fun i => coe_subset.mpr (subset_biUnion_of_mem (fun i => (solos i).held) (mem_univ i)))
    subset_rfl _ true

theorem solos_end : [(true, false, false)].length ≤
      ∑ i, ((univ.biUnion fun i => (solos i).held) \ (solos i).held).card :=
  meetings_end (transcript_collisionFree _) one_le_replicationPageLimit (fun i => rfl) (by decide) _
    (show Runs.Along (meet transcript replicationPageLimit) _ solos _ from ⟨by decide, trivial⟩)

/-! ### Exchanges with tombstones -/

section

/-- **Sync with tombstones.**  A silent exchange leaves nothing owed exactly when, if anything is
owed, something owed is in a range the other node has nothing of, or lists. -/
theorem silent_settled_iff (H : Hasher) (asks : Bool) (first second : Replica)
    (hcf : H.CollisionFree (first.ids ∪ second.ids)) :
    ((exchange H replicationPageLimit asks first second).Silent →
        ∀ id, ¬ first.Owes H second id ∧ ¬ second.Owes H first id) ↔
      ((∃ id, first.Owes H second id ∨ second.Owes H first id) →
        ∃ id, first.Reaches H second id ∨ second.Reaches H first id) := by
  rw [silent_iff hcf one_le_replicationPageLimit subset_union_left subset_union_right]
  constructor
  · rintro h ⟨id, howes⟩
    by_contra hnone
    have hreach := not_exists.mp hnone
    have := h ⟨fun id hid => hreach id (.inl hid), fun id hid => hreach id (.inr hid)⟩ id
    exact howes.elim this.1 this.2
  · rintro h ⟨hone, htwo⟩ id
    rw [← not_or]
    intro howes
    obtain ⟨id', hid⟩ := h ⟨id, howes⟩
    exact hid.elim (hone id') (htwo id')

theorem silent_settled_two_writers :
    transcript.CollisionFree ((soloReplica "ant").ids ∪ (soloReplica "bee").ids) ∧
      (((exchange transcript replicationPageLimit false (soloReplica "ant")
          (soloReplica "bee")).Silent → ∀ id,
          ¬ (soloReplica "ant").Owes transcript (soloReplica "bee") id ∧
            ¬ (soloReplica "bee").Owes transcript (soloReplica "ant") id) ↔
        ((∃ id, (soloReplica "ant").Owes transcript (soloReplica "bee") id ∨
            (soloReplica "bee").Owes transcript (soloReplica "ant") id) →
          ∃ id, (soloReplica "ant").Reaches transcript (soloReplica "bee") id ∨
            (soloReplica "bee").Reaches transcript (soloReplica "ant") id)) :=
  ⟨transcript_collisionFree _, silent_settled_iff transcript false (soloReplica "ant")
    (soloReplica "bee") (transcript_collisionFree _)⟩

/-- An envelope of one writer, with a hash of one repeated digit. -/
def envelopeAt (digit : Char) (sequence : ℕ) : ReplicaEnvelopeId :=
  ⟨"ant", sequence, String.ofList (List.replicate 64 digit)⟩

/-- A node whose checkpoint dropped two whole ranges, and the first envelope of a third. -/
def trimmedReplica : Replica where
  held := ∅
  dropped := (Finset.range 513).image (envelopeAt 'd')
  accepts := replicationPageMax
  bounded := by
    intro id hid
    rw [empty_union, mem_image] at hid
    obtain ⟨n, hn, rfl⟩ := hid
    exact (mem_range.mp hn).trans (by decide)

/-- A node with a new envelope in the third range, which knows one tombstone of each range. -/
def newerReplica : Replica where
  held := {envelopeAt 'e' 513}
  dropped := ({0, 256, 512} : Finset ℕ).image (envelopeAt 'd')
  accepts := replicationPageMax
  bounded := by
    intro id hid
    rw [mem_union, mem_singleton, mem_image] at hid
    rcases hid with rfl | ⟨n, hn, rfl⟩
    · exact (by decide : 513 < 2 ^ 63)
    · have hle : n ≤ 512 := by
        simp only [mem_insert, mem_singleton] at hn
        omega
      exact lt_of_le_of_lt hle (by decide : 512 < 2 ^ 63)

theorem envelopeAt_inj {c d : Char} {m n : ℕ} (h : envelopeAt c m = envelopeAt d n) :
    c = d ∧ m = n := by
  have hhash := congrArg (fun id => id.hash.toList.head?) h
  simp only [envelopeAt, String.toList_ofList] at hhash
  exact ⟨Option.some.inj hhash, congrArg ReplicaEnvelopeId.sequence h⟩

theorem mem_trimmed_ids : id ∈ trimmedReplica.ids ↔ ∃ n < 513, envelopeAt 'd' n = id := by
  simp [ids, trimmedReplica]

theorem mem_newer_ids : id ∈ newerReplica.ids ↔
      id = envelopeAt 'e' 513 ∨ ∃ n ∈ ({0, 256, 512} : Finset ℕ), envelopeAt 'd' n = id := by
  unfold ids newerReplica
  rw [mem_union, mem_singleton, mem_image]

/-- All three ranges differ. -/
theorem trimmed_differing {n : ℕ} (hn : n < 513) :
    rangeOf (envelopeAt 'd' n) ∈ differing trimmedReplica.ids newerReplica.ids := by
  have hstart : replicationBucketStart n ∈ ({0, 256, 512} : Finset ℕ) := by
    simp only [mem_insert, mem_singleton, replicationBucketStart, replicationBucketWidth]
    omega
  have hrange : rangeOf (envelopeAt 'd' (replicationBucketStart n)) =
      rangeOf (envelopeAt 'd' n) :=
    congrArg (fun start => toLex ("ant", start)) (replicationBucketStart_idem n)
  refine mem_filter.mpr ⟨mem_inter.mpr ⟨?_, ?_⟩, fun heq => ?_⟩
  · exact mem_rangesOf (mem_trimmed_ids.mpr ⟨n, hn, rfl⟩)
  · exact hrange ▸ mem_rangesOf (mem_newer_ids.mpr (.inr ⟨_, hstart, rfl⟩))
  · rw [← hrange] at heq
    have hmem := fun id => Finset.ext_iff.mp heq id
    simp only [inRange, mem_filter, mem_trimmed_ids, mem_newer_ids] at hmem
    -- The trimmed node alone has the second tombstone of each of the first two ranges.
    have hsecond : ∀ m ∈ ({1, 257} : Finset ℕ), ¬ (envelopeAt 'd' m = envelopeAt 'e' 513 ∨
        ∃ n ∈ ({0, 256, 512} : Finset ℕ), envelopeAt 'd' n = envelopeAt 'd' m) := by
      rintro m hm (hone | ⟨n, hn, hone⟩)
      · exact absurd (envelopeAt_inj hone).1 (by decide)
      · rw [(envelopeAt_inj hone).2] at hn
        exact absurd hn ((by decide : ∀ m ∈ ({1, 257} : Finset ℕ), m ∉ ({0, 256, 512} : Finset ℕ))
          m hm)
    simp only [mem_insert, mem_singleton] at hstart
    rcases hstart with h | h | h
    · rw [h] at hmem
      exact hsecond 1 (by decide) ((hmem (envelopeAt 'd' 1)).mp ⟨⟨1, by decide, rfl⟩, rfl⟩).1
    · rw [h] at hmem
      exact hsecond 257 (by decide) ((hmem (envelopeAt 'd' 257)).mp ⟨⟨257, by decide, rfl⟩, rfl⟩).1
    · rw [h] at hmem
      obtain ⟨⟨m, -, hone⟩, -⟩ := (hmem (envelopeAt 'e' 513)).mpr ⟨.inl rfl, rfl⟩
      exact absurd (envelopeAt_inj hone).1 (by decide)

/-- The third range is not listed: the first two fill the listing. -/
theorem trimmed_not_lists :
    ¬ Lists replicationExchangeEnvelopeLimit trimmedReplica.ids newerReplica.ids
      (rangeOf (envelopeAt 'e' 513)) := by
  rintro ⟨-, hleast | hcard⟩
  · have hle := hleast _ (trimmed_differing (show 0 < 513 by decide))
    exact absurd hle (by decide)
  · have hall : trimmedReplica.ids.filter (fun id =>
        rangeOf id ∈ differing trimmedReplica.ids newerReplica.ids ∧
          rangeOf id ≤ rangeOf (envelopeAt 'e' 513)) = trimmedReplica.ids := by
      refine filter_true_of_mem fun id hid => ?_
      obtain ⟨n, hn, rfl⟩ := mem_trimmed_ids.mp hid
      refine ⟨trimmed_differing hn, rangeOf_mono (ReplicaEnvelopeId.lt_iff.mpr ?_).le⟩
      exact .inr ⟨rfl, .inl hn⟩
    have hids : trimmedReplica.ids = (Finset.range 513).image (envelopeAt 'd') :=
      empty_union _
    rw [hall, hids, card_image_of_injective _ fun m n h => (envelopeAt_inj h).2,
      card_range] at hcard
    exact absurd hcard (by decide)

/-- Tombstones that one node lacks keep an envelope in a later range from being sent. -/
theorem tombstones_stop_sync : transcript.CollisionFree (newerReplica.ids ∪ trimmedReplica.ids) ∧
      (exchange transcript replicationPageLimit false newerReplica trimmedReplica).Silent ∧
      newerReplica.Owes transcript trimmedReplica (envelopeAt 'e' 513) := by
  have hlacks : envelopeAt 'e' 513 ∉ trimmedReplica.ids := by
    intro h
    obtain ⟨n, -, h⟩ := mem_trimmed_ids.mp h
    exact absurd (envelopeAt_inj h).1 (by decide)
  refine ⟨transcript_collisionFree _, ?_, sends_of_held (mem_singleton_self _) ?_, hlacks⟩
  · rw [silent_iff (transcript_collisionFree _) one_le_replicationPageLimit
      subset_union_left subset_union_right]
    refine ⟨fun id hid => ?_, fun id hid => notMem_empty id hid.1.1.held⟩
    obtain ⟨⟨hsends, -⟩, hreach⟩ := hid
    obtain rfl : id = envelopeAt 'e' 513 := mem_singleton.mp hsends.held
    rcases hreach with hrange | hlists
    · have hshared : rangeOf (envelopeAt 'd' 512) ∈ rangesOf trimmedReplica.ids :=
        mem_rangesOf (mem_trimmed_ids.mpr ⟨512, by decide, rfl⟩)
      exact hrange hshared
    · exact trimmed_not_lists hlists
  · intro id hid heq
    obtain ⟨n, -, rfl⟩ := mem_image.mp hid
    have hhash := congrArg (fun hash => hash.toList.head?) heq
    simp only [envelopeAt, String.toList_ofList] at hhash
    exact absurd (Option.some.inj hhash) (by decide)

end

end SmallTalk.Replication
