import SmallTalk.Lib.Sorted
import SmallTalk.Replication.Identity

/-!
# Replication — the compact inventory

`CompactReplicationInventory` of `store.rs`: identities with their writers interned, in order, and
the hashes of those whose payload a checkpoint dropped. A SHA-256 hash is kept as bytes in the
source; here it is the lowercase hex text of those bytes, which sorts as they do.

`view` is what the inventory stands for, and `WellFormed` what its operations keep.

* `view_pushSorted`, `insert_spec`: appending and inserting an identity.
* `identities_range`, `buckets_eq`: a range, and the range digests, are those of the view.
* `full_spec`: the inventory read from the tables.
-/

namespace SmallTalk.Replication

open List Sorted

variable {id : ReplicaEnvelopeId}

structure ReplicationInventoryBucket (H : Hasher) where
  writer : String
  start : ℕ
  count : ℕ
  digest : H.Digest

structure CompactEnvelopeId where
  writer : ℕ
  /-- Zero for a SHA-256 `hash`; otherwise one more than an `irregularHashes` index. -/
  irregular : ℕ
  sequence : ℕ
  hash : String

structure CompactReplicationInventory (H : Hasher) where
  digest : H.Digest := H.empty
  /-- Sorted, so writer indexes order identities the way writer names do. -/
  writers : List String := []
  /-- Hashes a peer sent that are not lowercase SHA-256 hex, kept verbatim. -/
  irregularHashes : List String := []
  /-- In `ReplicaEnvelopeId` order: writer, sequence, then hash text. -/
  envelopes : List CompactEnvelopeId := []
  /-- Identities a checkpoint dropped, by hash. -/
  payloadless : Finset String := ∅
  payloadlessIrregular : Finset ReplicaEnvelopeId := ∅

/-- Whether a hash is the lowercase hex of 32 bytes. -/
def isSha256Hex (hash : String) : Bool :=
  hash.utf8ByteSize = 64 &&
    hash.toList.all fun c => ('0' ≤ c && c ≤ '9') || ('a' ≤ c && c ≤ 'f')

namespace CompactReplicationInventory

variable {H : Hasher} {e : CompactEnvelopeId} (held : Finset ReplicaEnvelopeId)
  (inv : CompactReplicationInventory H)

def hashText (e : CompactEnvelopeId) : String :=
  if e.irregular = 0 then e.hash else inv.irregularHashes[e.irregular - 1]?.getD ""

def identity (e : CompactEnvelopeId) : ReplicaEnvelopeId :=
  ⟨inv.writers[e.writer]?.getD "", e.sequence, inv.hashText e⟩

def identities (range : List CompactEnvelopeId) : List ReplicaEnvelopeId :=
  range.map inv.identity

/-- Whether this node still holds the envelope's payload, so it can send it. -/
def hasPayload (e : CompactEnvelopeId) : Bool :=
  if e.irregular = 0 then decide (e.hash ∉ inv.payloadless)
  else decide (inv.identity e ∉ inv.payloadlessIrregular)

/-- Mark the identity last pushed as one whose payload a checkpoint dropped. -/
def markLastPayloadless : CompactReplicationInventory H :=
  match inv.envelopes.getLast? with
  | none => inv
  | some e =>
    if e.irregular = 0 then { inv with payloadless := insert e.hash inv.payloadless }
    else { inv with
      payloadlessIrregular := insert (inv.identity e) inv.payloadlessIrregular }

def compact (writer : ℕ) (id : ReplicaEnvelopeId) :
    CompactReplicationInventory H × CompactEnvelopeId :=
  if isSha256Hex id.hash then
    (inv, { writer, irregular := 0, sequence := id.sequence, hash := id.hash })
  else
    let inv := { inv with irregularHashes := inv.irregularHashes ++ [id.hash] }
    (inv, { writer, irregular := inv.irregularHashes.length, sequence := id.sequence, hash := "" })

/-- The writers with `writer` last. -/
def pushWriter (writer : String) : CompactReplicationInventory H :=
  if inv.writers.getLast? ≠ some writer then { inv with writers := inv.writers ++ [writer] }
  else inv

/-- Append an identity that sorts after every held one. The digest is left for the caller. -/
def pushSorted (id : ReplicaEnvelopeId) : CompactReplicationInventory H :=
  let inv := inv.pushWriter id.writer
  let (inv, e) := inv.compact (inv.writers.length - 1) id
  { inv with envelopes := inv.envelopes ++ [e] }

def order (l r : CompactEnvelopeId) : Ordering :=
  (compare l.writer r.writer).then
    ((compare l.sequence r.sequence).then (compare (inv.hashText l) (inv.hashText r)))

/-- An entry once a writer has been inserted at index `i`. -/
def moveUp (i : ℕ) (e : CompactEnvelopeId) : CompactEnvelopeId :=
  if i ≤ e.writer then { e with writer := e.writer + 1 } else e

/-- The index of `writer`, which is inserted and the later indexes moved up when it is new. -/
def internWriter (writer : String) : CompactReplicationInventory H × ℕ :=
  match binarySearchBy (fun name => compare name writer) inv.writers with
  | .ok i => (inv, i)
  | .error i =>
    ({ inv with
        writers := inv.writers.insertIdx i writer
        envelopes := inv.envelopes.map (moveUp i) }, i)

/-- Insert one identity in order. An identity already held as a tombstone gets its payload back
instead. -/
def insert (id : ReplicaEnvelopeId) : CompactReplicationInventory H :=
  let (inv, writer) := inv.internWriter id.writer
  let (inv, e) := inv.compact writer id
  match binarySearchBy (fun probe => inv.order probe e) inv.envelopes with
  | .ok _ =>
    if e.irregular = 0 then { inv with payloadless := inv.payloadless.erase e.hash }
    else { inv with
      payloadlessIrregular := inv.payloadlessIrregular.erase (inv.identity e)
      irregularHashes := inv.irregularHashes.dropLast }
  | .error i => { inv with envelopes := inv.envelopes.insertIdx i e }

def digestOf (domain : String) (range : List CompactEnvelopeId) : H.Digest :=
  H.finalize (range.foldl (fun digest e => H.updateIdentityDigest digest (inv.identity e))
    (H.domainState domain))

def refreshDigest : CompactReplicationInventory H :=
  { inv with digest := inv.digestOf inventoryDigestDomain inv.envelopes }

/-- The identities of one writer sequence range. -/
def range (writer : String) (start : ℕ) : List CompactEnvelopeId :=
  match binarySearchBy (fun name => compare name writer) inv.writers with
  | .error _ => []
  | .ok i =>
    slice (fun e => toLex (e.writer, e.sequence) < toLex (i, start))
      (fun e => toLex (e.writer, e.sequence) <
        toLex (i, satAdd start replicationBucketWidth)) inv.envelopes

/-- Summarize one non-empty range of a single writer. -/
def bucket (range : List CompactEnvelopeId) : ReplicationInventoryBucket H where
  writer := (range.head?.bind fun e => inv.writers[e.writer]?).getD ""
  start := (range.head?.map fun e => replicationBucketStart e.sequence).getD 0
  count := range.length
  digest := inv.digestOf bucketDigestDomain range

/-- One digest per writer sequence range. -/
def buckets : List (ReplicationInventoryBucket H) :=
  (inv.envelopes.splitBy fun l r =>
    l.writer = r.writer ∧
      replicationBucketStart l.sequence = replicationBucketStart r.sequence).map inv.bucket

/-! ### What an inventory stands for -/

/-- The identities the inventory holds, in order. -/
def view : List ReplicaEnvelopeId :=
  inv.identities inv.envelopes

/-- Whether an identity is one whose payload is still there. -/
def payloadOf (id : ReplicaEnvelopeId) : Bool :=
  if isSha256Hex id.hash then decide (id.hash ∉ inv.payloadless)
  else decide (id ∉ inv.payloadlessIrregular)

/-- The writer index and the hash of an entry are ones the inventory has. -/
structure Coded (e : CompactEnvelopeId) : Prop where
  writer : e.writer < inv.writers.length
  irregular : e.irregular ≤ inv.irregularHashes.length
  hash : isSha256Hex (inv.hashText e) = decide (e.irregular = 0)

structure WellFormed : Prop where
  writers : inv.writers.Pairwise (· < ·)
  coded : ∀ e ∈ inv.envelopes, inv.Coded e
  sorted : inv.view.Pairwise (· < ·)

variable {inv} {inv' : CompactReplicationInventory H}

/-- The digest and the payload sets do not matter to well-formedness. -/
theorem WellFormed.congr (h : inv.WellFormed)
    (hw : inv'.writers = inv.writers) (hi : inv'.irregularHashes = inv.irregularHashes)
    (he : inv'.envelopes = inv.envelopes) : inv'.WellFormed := by
  obtain ⟨digest, writers, hashes, envelopes, regular, irregular⟩ := inv'
  subst hw hi he
  exact ⟨h.writers, fun e he => ⟨(h.coded e he).writer, (h.coded e he).irregular,
    (h.coded e he).hash⟩, h.sorted⟩

theorem mem_view : id ∈ inv.view ↔ ∃ e ∈ inv.envelopes, inv.identity e = id := by
  simp [view, identities]

theorem WellFormed.hasPayload (h : inv.WellFormed)
    (he : e ∈ inv.envelopes) : inv.hasPayload e = inv.payloadOf (inv.identity e) := by
  have hc := (h.coded e he).hash
  unfold CompactReplicationInventory.hasPayload payloadOf
  rw [show (inv.identity e).hash = inv.hashText e from rfl, hc]
  by_cases hz : e.irregular = 0
  · simp [hz, hashText]
  · simp [hz]

/-! ### Encoding one identity -/

/-- More writers and more irregular hashes at the end change no entry's meaning. -/
theorem Coded.extend (h : inv.Coded e)
    (hw : inv.writers <+: inv'.writers) (hi : inv.irregularHashes <+: inv'.irregularHashes) :
    inv'.identity e = inv.identity e ∧ inv'.Coded e := by
  have hwriter : inv'.writers[e.writer]? = inv.writers[e.writer]? := by
    obtain ⟨rest, hrest⟩ := hw
    rw [← hrest, List.getElem?_append_left h.writer]
  have htext : inv'.hashText e = inv.hashText e := by
    unfold hashText
    split
    · rfl
    · rename_i hz
      obtain ⟨rest, hrest⟩ := hi
      have := h.irregular
      rw [← hrest, List.getElem?_append_left (by omega)]
  refine ⟨?_, ⟨lt_of_lt_of_le h.writer hw.length_le, h.irregular.trans hi.length_le, ?_⟩⟩
  · unfold identity
    rw [hwriter, htext]
  · rw [htext]
    exact h.hash

/-- What `compact` does with an identity of the writer at `writer`. -/
structure Compacted (inv inv' : CompactReplicationInventory H) (e : CompactEnvelopeId)
    (id : ReplicaEnvelopeId) : Prop where
  identity : inv'.identity e = id
  coded : inv'.Coded e
  canonical : isSha256Hex id.hash = decide (e.irregular = 0)
  hash : e.irregular = 0 → e.hash = id.hash
  writers : inv'.writers = inv.writers
  hashes : inv.irregularHashes <+: inv'.irregularHashes
  pop : e.irregular ≠ 0 → inv'.irregularHashes.dropLast = inv.irregularHashes
  keep : e.irregular = 0 → inv' = inv
  envelopes : inv'.envelopes = inv.envelopes
  payloadless : inv'.payloadless = inv.payloadless
  payloadlessIrregular : inv'.payloadlessIrregular = inv.payloadlessIrregular

theorem compact_spec (inv : CompactReplicationInventory H) {writer : ℕ}
    (hw : inv.writers[writer]? = some id.writer) :
    Compacted inv (inv.compact writer id).1 (inv.compact writer id).2 id := by
  have hlt : writer < inv.writers.length := (List.getElem?_eq_some_iff.mp hw).1
  unfold compact
  by_cases hc : isSha256Hex id.hash = true
  · rw [if_pos hc]
    have hid : inv.identity { writer, irregular := 0, sequence := id.sequence, hash := id.hash } =
        id := by
      simp [CompactReplicationInventory.identity, hashText, hw]
    exact ⟨hid, ⟨hlt, Nat.zero_le _, by simpa [hashText] using hc⟩, by simpa using hc,
      fun _ => rfl, rfl, prefix_rfl, fun h => absurd rfl h, fun _ => rfl, rfl, rfl, rfl⟩
  · rw [if_neg hc]
    have hid : ({ inv with irregularHashes := inv.irregularHashes ++ [id.hash] } :
        CompactReplicationInventory H).identity
          ⟨writer, (inv.irregularHashes ++ [id.hash]).length, id.sequence, ""⟩ = id := by
      simp [CompactReplicationInventory.identity, hashText, hw]
    refine ⟨hid, ⟨hlt, le_rfl, ?_⟩, ?_, ?_, rfl, prefix_append _ _, ?_, ?_, rfl, rfl, rfl⟩
    · simpa [hashText] using hc
    · simpa using hc
    · simp
    · simp
    · simp

theorem view_eq_of_identity
    (he : inv'.envelopes = inv.envelopes)
    (h : ∀ e ∈ inv.envelopes, inv'.identity e = inv.identity e) : inv'.view = inv.view := by
  unfold view identities
  rw [he]
  exact map_congr_left h

/-! ### Appending -/

/-- Every writer is the writer of a held identity. -/
def Used (inv : CompactReplicationInventory H) : Prop :=
  ∀ w ∈ inv.writers, ∃ id ∈ inv.view, id.writer = w

theorem writers_le (hu : inv.Used)
    (hid : ∀ id' ∈ inv.view, id' < id) {w : String} (hw : w ∈ inv.writers) : w ≤ id.writer := by
  obtain ⟨id', hmem, rfl⟩ := hu w hw
  rcases ReplicaEnvelopeId.lt_iff.mp (hid id' hmem) with h | ⟨h, -⟩
  · exact h.le
  · exact h.le

/-- The writers after an identity of `id.writer` is appended. -/
theorem pushWriter_spec (h : inv.WellFormed) (hu : inv.Used) (hid : ∀ id' ∈ inv.view, id' < id) :
    inv.writers <+: (inv.pushWriter id.writer).writers ∧
      (inv.pushWriter id.writer).writers.Pairwise (· < ·) ∧
      (inv.pushWriter id.writer).writers[(inv.pushWriter id.writer).writers.length - 1]? =
        some id.writer ∧
      ∀ w ∈ (inv.pushWriter id.writer).writers, w ∈ inv.writers ∨ w = id.writer := by
  unfold pushWriter
  split
  · rename_i hne
    have hlt : ∀ w ∈ inv.writers, w < id.writer := by
      intro w hmem
      obtain ⟨last, hlast⟩ : ∃ last, inv.writers.getLast? = some last :=
        ⟨_, getLast?_eq_some_getLast (ne_nil_of_mem hmem)⟩
      have hle : w ≤ last := by
        obtain ⟨front, hfront⟩ := List.getLast?_eq_some_iff.mp hlast
        have hs := h.writers
        rw [hfront] at hs hmem
        rcases mem_append.mp hmem with hm | hm
        · exact ((pairwise_append.mp hs).2.2 w hm last mem_cons_self).le
        · exact (mem_singleton.mp hm).le
      have hlast' : last ≤ id.writer := writers_le hu hid (mem_of_getLast? hlast)
      exact lt_of_le_of_lt hle (lt_of_le_of_ne hlast' fun he => hne (by rw [hlast, he]))
    refine ⟨prefix_append _ _, ?_, ?_, ?_⟩
    · refine pairwise_append.mpr ⟨h.writers, pairwise_singleton _ _, ?_⟩
      intro w hm w' hm'
      rw [mem_singleton.mp hm']
      exact hlt w hm
    · simp
    · intro w hm
      rcases mem_append.mp hm with hm | hm
      · exact .inl hm
      · exact .inr (mem_singleton.mp hm)
  · rename_i he
    refine ⟨prefix_rfl, h.writers, ?_, fun w hm => .inl hm⟩
    rw [← List.getLast?_eq_getElem?]
    simpa using he

theorem pushWriter_same (inv : CompactReplicationInventory H) (writer : String) :
    (inv.pushWriter writer).irregularHashes = inv.irregularHashes ∧
      (inv.pushWriter writer).envelopes = inv.envelopes ∧
      (inv.pushWriter writer).payloadless = inv.payloadless ∧
      (inv.pushWriter writer).payloadlessIrregular = inv.payloadlessIrregular := by
  unfold pushWriter
  split <;> exact ⟨rfl, rfl, rfl, rfl⟩

/-- **Appending** an identity above every held one. -/
theorem view_pushSorted (h : inv.WellFormed) (hu : inv.Used) (hid : ∀ id' ∈ inv.view, id' < id) :
    (inv.pushSorted id).view = inv.view ++ [id] ∧ (inv.pushSorted id).WellFormed ∧
      (inv.pushSorted id).Used ∧ (inv.pushSorted id).payloadless = inv.payloadless ∧
      (inv.pushSorted id).payloadlessIrregular = inv.payloadlessIrregular ∧
      ∃ e, (inv.pushSorted id).envelopes.getLast? = some e ∧
        (inv.pushSorted id).identity e = id := by
  obtain ⟨hpre, hsorted, hlast, hmem⟩ := pushWriter_spec h hu hid
  obtain ⟨hirr, henv, hpl, hpi⟩ := inv.pushWriter_same id.writer
  have hc := compact_spec (inv.pushWriter id.writer) hlast
  unfold pushSorted
  dsimp only
  generalize hinv : ((inv.pushWriter id.writer).compact
    ((inv.pushWriter id.writer).writers.length - 1) id).1 = inv' at hc
  generalize ((inv.pushWriter id.writer).compact
    ((inv.pushWriter id.writer).writers.length - 1) id).2 = e at hc ⊢
  have hpre' : inv.writers <+: inv'.writers := hc.writers ▸ hpre
  have hhash' : inv.irregularHashes <+: inv'.irregularHashes := hirr ▸ hc.hashes
  have henv' : inv'.envelopes = inv.envelopes := hc.envelopes.trans henv
  have hext : ∀ e ∈ inv.envelopes, inv'.identity e = inv.identity e ∧ inv'.Coded e :=
    fun e he => (h.coded e he).extend hpre' hhash'
  have hview : ({ inv' with envelopes := inv'.envelopes ++ [e] } :
      CompactReplicationInventory H).view = inv.view ++ [id] := by
    show (inv'.envelopes ++ [e]).map inv'.identity = inv.view ++ [id]
    rw [henv', map_append, map_congr_left fun e he => (hext e he).1, map_singleton, hc.identity]
    rfl
  refine ⟨hview, ⟨?_, ?_, ?_⟩, ?_, hc.payloadless.trans hpl, hc.payloadlessIrregular.trans hpi,
    e, List.getLast?_concat, hc.identity⟩
  · show inv'.writers.Pairwise (· < ·)
    rwa [hc.writers]
  · intro e' he'
    have hcoded : inv'.Coded e' := by
      rcases mem_append.mp he' with he' | he'
      · exact (hext e' (henv' ▸ he')).2
      · rw [mem_singleton.mp he']
        exact hc.coded
    exact ⟨hcoded.writer, hcoded.irregular, hcoded.hash⟩
  · rw [hview]
    exact pairwise_append.mpr ⟨h.sorted, pairwise_singleton _ _, fun a ha b hb => by
      rw [mem_singleton.mp hb]
      exact hid a ha⟩
  · intro w hw
    rw [hview]
    rcases hmem w (hc.writers ▸ hw) with hw | rfl
    · obtain ⟨id', hm, rfl⟩ := hu w hw
      exact ⟨id', mem_append_left _ hm, rfl⟩
    · exact ⟨id, mem_append_right _ (mem_singleton_self id), rfl⟩

/-! ### Writer indexes order identities as writer names do -/

section

variable {l r : CompactEnvelopeId}

theorem Coded.identity_writer (h : inv.Coded e) :
    (inv.identity e).writer = inv.writers.get ⟨e.writer, h.writer⟩ := by
  simp [identity, h.writer]

variable (h : inv.writers.Pairwise (· < ·)) (hl : inv.Coded l) (hr : inv.Coded r)

include hl

theorem identity_writer_mem : (inv.identity l).writer ∈ inv.writers := by
  rw [hl.identity_writer]
  exact get_mem _ _

include h

/-- The writer at an index, told by an entry of that writer. -/
theorem writer_eq_iff_getElem? {i : ℕ} {writer : String} (hi : inv.writers[i]? = some writer) :
    (inv.identity l).writer = writer ↔ l.writer = i := by
  obtain ⟨hlt, hw⟩ := List.getElem?_eq_some_iff.mp hi
  have hnodup : inv.writers.Nodup := h.nodup
  rw [hl.identity_writer, ← hw]
  exact hnodup.getElem_inj_iff

include hr

theorem writer_lt_iff :
    (inv.identity l).writer < (inv.identity r).writer ↔ l.writer < r.writer := by
  rw [hl.identity_writer, hr.identity_writer]
  exact h.sortedLT.getElem_lt_getElem_iff

theorem writer_eq_iff :
    (inv.identity l).writer = (inv.identity r).writer ↔ l.writer = r.writer := by
  rw [← not_iff_not, ← Ne, ← Ne, ne_iff_lt_or_gt, ne_iff_lt_or_gt, writer_lt_iff h hl hr,
    writer_lt_iff h hr hl]

theorem order_eq : inv.order l r = compare (inv.identity l) (inv.identity r) := by
  have hlt : inv.order l r = .lt ↔ inv.identity l < inv.identity r := by
    rw [ReplicaEnvelopeId.lt_iff, writer_lt_iff h hl hr, writer_eq_iff h hl hr]
    simp only [order, Ordering.then_eq_lt, compare_lt_iff_lt, compare_eq_iff_eq]
    rfl
  have heq : inv.order l r = .eq ↔ inv.identity l = inv.identity r := by
    simp only [order, Ordering.then_eq_eq, compare_eq_iff_eq, ← writer_eq_iff h hl hr]
    exact ⟨fun ⟨h₁, h₂, h₃⟩ => ReplicaEnvelopeId.ext h₁ h₂ h₃, fun he =>
      ⟨congrArg (·.writer) he, congrArg (·.sequence) he, congrArg (·.hash) he⟩⟩
  cases hc : compare (inv.identity l) (inv.identity r) with
  | lt => exact hlt.mpr (compare_lt_iff_lt.mp hc)
  | eq => exact heq.mpr (compare_eq_iff_eq.mp hc)
  | gt =>
    cases ho : inv.order l r with
    | lt => rw [compare_lt_iff_lt.mpr (hlt.mp ho)] at hc; cases hc
    | eq => rw [compare_eq_iff_eq.mpr (heq.mp ho)] at hc; cases hc
    | gt => rfl

end

/-! ### Ranges and their digests -/

/-- **A range** is the part of the view with its writer and sequences. -/
theorem identities_range (h : inv.WellFormed)
    (writer : String) {start : ℕ} (hstart : start ≤ u64Max) :
    inv.identities (inv.range writer start) = inv.view.filter fun id =>
      decide (id.writer = writer ∧ start ≤ id.sequence ∧
        id.sequence < satAdd start replicationBucketWidth) := by
  unfold range
  by_cases hw : writer ∈ inv.writers
  · obtain ⟨i, hi, hget⟩ := binarySearchBy_found (f := fun name : String => name) h.writers hw rfl
    rw [hi]
    dsimp only
    have hsorted : inv.envelopes.Pairwise fun l r =>
        toLex (l.writer, l.sequence) ≤ toLex (r.writer, r.sequence) := by
      refine (pairwise_map.mp h.sorted).imp_of_mem fun {l r} hl hr hlt => ?_
      rw [Prod.Lex.toLex_le_toLex]
      have hl := h.coded l hl
      have hr := h.coded r hr
      rcases ReplicaEnvelopeId.lt_iff.mp hlt with hlt | ⟨heq, hs⟩
      · exact .inl ((writer_lt_iff h.writers hl hr).mp hlt)
      · refine .inr ⟨(writer_eq_iff h.writers hl hr).mp heq, ?_⟩
        rcases hs with hs | ⟨hs, -⟩
        · exact hs.le
        · exact hs.le
    have hlower : ∀ b : ℕ ×ₗ ℕ, Lower
        (fun l r : CompactEnvelopeId => toLex (l.writer, l.sequence) ≤ toLex (r.writer, r.sequence))
        fun e => decide (toLex (e.writer, e.sequence) < b) := by
      intro b l r hlr hr
      rw [decide_eq_true_eq] at hr ⊢
      exact lt_of_le_of_lt hlr hr
    rw [slice_eq_filter hsorted (hlower _) (hlower _) fun e he => ?_]
    · unfold view identities
      rw [filter_map]
      refine congrArg _ (filter_congr fun e he => ?_)
      have hcoded := h.coded e he
      have hiff := writer_eq_iff_getElem? h.writers hcoded hget
      rw [Function.comp_apply, ← decide_not, ← Bool.decide_and, decide_eq_decide, hiff,
        Prod.Lex.toLex_lt_toLex, Prod.Lex.toLex_lt_toLex]
      show _ ↔ e.writer = i ∧ start ≤ e.sequence ∧
        e.sequence < satAdd start replicationBucketWidth
      omega
    · rw [decide_eq_true_eq] at he ⊢
      refine lt_of_lt_of_le he ?_
      rw [Prod.Lex.toLex_le_toLex]
      exact .inr ⟨rfl, le_satAdd (Nat.le_add_right _ _) hstart⟩
  · have hno : ∀ name ∈ inv.writers, name ≠ writer := fun name hn he => hw (he ▸ hn)
    rw [binarySearchBy_missing hno]
    rw [eq_comm]
    refine filter_eq_nil_iff.mpr fun id hid hp => hw ?_
    obtain ⟨e, he, rfl⟩ := mem_view.mp hid
    rw [← (of_decide_eq_true hp).1]
    exact identity_writer_mem (h.coded e he)

theorem digestOf_eq (inv : CompactReplicationInventory H) (domain : String)
    (range : List CompactEnvelopeId) :
    inv.digestOf domain range = H.replicationIdentityDigest domain (inv.identities range) := by
  unfold digestOf Hasher.replicationIdentityDigest identities
  rw [foldl_map]

/-- The digest of one range of a list of identities. -/
def bucketOf (H : Hasher) (ids : List ReplicaEnvelopeId) (k : String ×ₗ ℕ) :
    ReplicationInventoryBucket H where
  writer := (ofLex k).1
  start := (ofLex k).2
  count := (ofKey rangeOf ids k).length
  digest := H.replicationBucketDigest (ofKey rangeOf ids k)

theorem map_identity_ofKey (inv : CompactReplicationInventory H) (k : String ×ₗ ℕ) :
    inv.identities (ofKey (fun e => rangeOf (inv.identity e)) inv.envelopes k) =
      ofKey rangeOf inv.view k := by
  unfold identities ofKey view identities
  rw [filter_map]
  rfl

/-- The bucket of the entries of one range. -/
theorem bucket_ofKey (h : inv.WellFormed) {k : String ×ₗ ℕ}
    {range : List CompactEnvelopeId} (hne : range ≠ []) (hsub : ∀ e ∈ range, e ∈ inv.envelopes)
    (hids : inv.identities range = ofKey rangeOf inv.view k) :
    inv.bucket range = bucketOf H inv.view k := by
  obtain ⟨e, rest, rfl⟩ := exists_cons_of_ne_nil hne
  have hmem : inv.identity e ∈ ofKey rangeOf inv.view k := by
    rw [← hids]
    exact mem_map_of_mem mem_cons_self
  have hk : rangeOf (inv.identity e) = k := (mem_ofKey.mp hmem).2
  unfold bucket bucketOf
  rw [digestOf_eq, hids, ← hk]
  have hcount : (e :: rest).length = (ofKey rangeOf inv.view k).length := by
    rw [← hids, identities, length_map]
  have hwriter := (h.coded e (hsub e mem_cons_self)).writer
  rw [hk, ← hcount]
  simp [rangeOf, identity, Hasher.replicationBucketDigest, hwriter, ← hk]

theorem view_ranges_sorted (h : inv.WellFormed) :
    inv.view.Pairwise fun a b => rangeOf a ≤ rangeOf b :=
  h.sorted.imp fun hab => rangeOf_mono hab.le

/-- **The range digests** of an inventory are those of its view, in the order of the ranges. -/
theorem buckets_eq (h : inv.WellFormed) :
    inv.buckets = (keys rangeOf inv.view).map (bucketOf H inv.view) := by
  have hsorted : inv.envelopes.Pairwise fun l r =>
      rangeOf (inv.identity l) ≤ rangeOf (inv.identity r) := by
    have hview := view_ranges_sorted h
    rwa [view, identities, pairwise_map] at hview
  have hkeys : keys (fun e => rangeOf (inv.identity e)) inv.envelopes = keys rangeOf inv.view := by
    unfold Sorted.keys view identities
    rw [map_map]
    rfl
  have hsame : ∀ l ∈ inv.envelopes, ∀ r ∈ inv.envelopes, decide (l.writer = r.writer ∧
      replicationBucketStart l.sequence = replicationBucketStart r.sequence) =
        decide (rangeOf (inv.identity l) = rangeOf (inv.identity r)) := by
    intro l hl r hr
    rw [decide_eq_decide, rangeOf, rangeOf, toLex_inj, Prod.mk.injEq,
      writer_eq_iff h.writers (h.coded l hl) (h.coded r hr)]
    rfl
  have hsplit := splitBy_key hsorted hsame
  unfold buckets
  rw [hsplit, map_map, hkeys]
  refine map_congr_left fun k hk => ?_
  rw [← hkeys] at hk
  exact bucket_ofKey h (ofKey_ne_nil.mpr hk) (fun e he => (mem_ofKey.mp he).1)
    (map_identity_ofKey inv k)

/-! ### Inserting -/

theorem moveUp_same (i : ℕ) (e : CompactEnvelopeId) :
    (moveUp i e).sequence = e.sequence ∧ (moveUp i e).irregular = e.irregular ∧
      (moveUp i e).hash = e.hash := by
  unfold moveUp
  split <;> exact ⟨rfl, rfl, rfl⟩

/-- The writers with `writer` among them, and its index. -/
theorem internWriter_spec (h : inv.WellFormed) (writer : String) :
    (inv.internWriter writer).1.writers.Pairwise (· < ·) ∧
      (inv.internWriter writer).1.writers[(inv.internWriter writer).2]? = some writer ∧
      (∀ e ∈ (inv.internWriter writer).1.envelopes, (inv.internWriter writer).1.Coded e) ∧
      (inv.internWriter writer).1.view = inv.view ∧
      (inv.internWriter writer).1.payloadless = inv.payloadless ∧
      (inv.internWriter writer).1.payloadlessIrregular = inv.payloadlessIrregular := by
  unfold internWriter
  by_cases hw : writer ∈ inv.writers
  · obtain ⟨i, hi, hget⟩ := binarySearchBy_found (f := fun name : String => name) h.writers hw rfl
    rw [hi]
    exact ⟨h.writers, hget, h.coded, rfl, rfl, rfl⟩
  · have hno : ∀ name ∈ inv.writers, name ≠ writer := fun name hn he => hw (he ▸ hn)
    rw [binarySearchBy_missing hno]
    dsimp only
    generalize hi : partitionPoint (fun name => decide (compare name writer = .lt)) inv.writers = i
    have hins : inv.writers.insertIdx i writer = inv.writers.orderedInsert (· ≤ ·) writer := by
      have := map_insertIdx (f := fun name : String => name) (l := inv.writers) (x := writer)
        (b := writer) rfl
      rw [hi] at this
      simpa using this
    have hile : i ≤ inv.writers.length := by
      rw [← hi]
      exact ( takeWhile_prefix _).length_le
    have hentry : ∀ e : CompactEnvelopeId, (inv.writers.insertIdx i writer)[(moveUp i e).writer]? =
        inv.writers[e.writer]? := by
      intro e
      unfold moveUp
      rw [List.getElem?_insertIdx]
      split <;> split <;> simp_all <;> omega
    have htext : ∀ e : CompactEnvelopeId, inv.hashText (moveUp i e) = inv.hashText e := by
      intro e
      obtain ⟨-, hirr, hhash⟩ := moveUp_same i e
      unfold hashText
      rw [hirr, hhash]
    refine ⟨?_, ?_, ?_, ?_, rfl, rfl⟩
    · rw [hins]
      exact orderedInsert_lt h.writers hw
    · rw [List.getElem?_insertIdx]
      simp [hile]
    · intro e he
      obtain ⟨e, hmem, rfl⟩ := mem_map.mp he
      have hc := h.coded e hmem
      refine ⟨?_, ?_, ?_⟩
      · have hsome := hentry e
        rw [List.getElem?_eq_getElem hc.writer] at hsome
        exact (List.getElem?_eq_some_iff.mp hsome).1
      · rw [(moveUp_same i e).2.1]
        exact hc.irregular
      · rw [(moveUp_same i e).2.1, ← hc.hash]
        exact congrArg isSha256Hex (htext e)
    · show (inv.envelopes.map (moveUp i)).map _ = inv.envelopes.map inv.identity
      rw [map_map]
      refine map_congr_left fun e _ => ReplicaEnvelopeId.ext ?_ ?_ (htext e)
      · exact congrArg (Option.getD · "") (hentry e)
      · exact (moveUp_same i e).1

/-- **Inserting** an identity. A new one takes its place in the order; one already held gets its
payload back. -/
theorem insert_spec (h : inv.WellFormed) (id : ReplicaEnvelopeId) : (inv.insert id).WellFormed ∧
      (inv.insert id).view =
        (if id ∈ inv.view then inv.view else inv.view.orderedInsert (· ≤ ·) id) ∧
      (inv.insert id).payloadless =
        (if id ∈ inv.view ∧ isSha256Hex id.hash = true then inv.payloadless.erase id.hash
          else inv.payloadless) ∧
      (inv.insert id).payloadlessIrregular =
        (if id ∈ inv.view ∧ isSha256Hex id.hash = false then inv.payloadlessIrregular.erase id
          else inv.payloadlessIrregular) := by
  obtain ⟨hsorted, hget, hcoded, hview, hpl, hpi⟩ := internWriter_spec h id.writer
  have hc := compact_spec (inv.internWriter id.writer).1 hget
  unfold insert
  dsimp only
  generalize (inv.internWriter id.writer).1 = inv₁ at hsorted hcoded hview hpl hpi hc
  generalize (inv₁.compact (inv.internWriter id.writer).2 id).1 = inv₂ at hc
  generalize (inv₁.compact (inv.internWriter id.writer).2 id).2 = e at hc
  have hext : ∀ e ∈ inv₂.envelopes, inv₂.identity e = inv₁.identity e ∧ inv₂.Coded e := by
    intro e he
    rw [hc.envelopes] at he
    exact (hcoded e he).extend (hc.writers ▸ prefix_rfl) hc.hashes
  have hview₂ : inv₂.view = inv.view :=
    (view_eq_of_identity hc.envelopes fun e he => (hext e (hc.envelopes ▸ he)).1).trans hview
  have hwriters : inv₂.writers.Pairwise (· < ·) := hc.writers ▸ hsorted
  have hwf₁ : inv₁.WellFormed := ⟨hsorted, hcoded, hview ▸ h.sorted⟩
  have hwf₂ : inv₂.WellFormed := ⟨hwriters, fun e he => (hext e he).2, hview₂ ▸ h.sorted⟩
  have hids : inv₂.envelopes.Pairwise fun l r => inv₂.identity l < inv₂.identity r :=
    pairwise_map.mp hwf₂.sorted
  have hsearch : binarySearchBy (fun probe => inv₂.order probe e) inv₂.envelopes =
      binarySearchBy (fun probe => compare (inv₂.identity probe) id) inv₂.envelopes :=
    binarySearchBy_congr fun a ha => by
      rw [order_eq hwriters (hext a ha).2 hc.coded, hc.identity]
  rw [hsearch]
  by_cases hmem : id ∈ inv.view
  · obtain ⟨a, ha, haid⟩ := mem_view.mp (hview₂ ▸ hmem)
    obtain ⟨i, hi, -⟩ := binarySearchBy_found hids ha haid
    rw [hi, if_pos hmem]
    dsimp only
    split
    · rename_i hz
      have hcan : isSha256Hex id.hash = true := by rw [hc.canonical]; exact decide_eq_true hz
      refine ⟨hwf₂.congr rfl rfl rfl, ?_, ?_, ?_⟩
      · exact hview₂
      · rw [if_pos ⟨hmem, hcan⟩, hc.hash hz, hc.payloadless, hpl]
      · rw [if_neg (by simp [hcan]), hc.payloadlessIrregular, hpi]
    · rename_i hz
      have hcan : isSha256Hex id.hash = false := by rw [hc.canonical]; exact decide_eq_false hz
      refine ⟨hwf₁.congr hc.writers (hc.pop hz) hc.envelopes, ?_, ?_, ?_⟩
      · rw [← hview]
        unfold view identities identity hashText
        rw [hc.pop hz, hc.writers, hc.envelopes]
      · rw [if_neg (by simp [hcan]), hc.payloadless, hpl]
      · rw [if_pos ⟨hmem, hcan⟩, hc.identity, hc.payloadlessIrregular, hpi]
  · have hno : ∀ a ∈ inv₂.envelopes, inv₂.identity a ≠ id := fun a ha he =>
      hmem (hview₂ ▸ mem_view.mpr ⟨a, ha, he⟩)
    rw [binarySearchBy_missing hno]
    dsimp only
    have hview₃ := map_insertIdx (f := inv₂.identity) (l := inv₂.envelopes) (b := e) hc.identity
    rw [show inv₂.envelopes.map inv₂.identity = inv.view from hview₂] at hview₃
    refine ⟨⟨hwriters, fun a ha => ?_, ?_⟩, ?_, ?_, ?_⟩
    · have hcoded₂ : inv₂.Coded a := by
        rcases eq_or_mem_of_mem_insertIdx ha with rfl | ha
        · exact hc.coded
        · exact (hext a ha).2
      exact ⟨hcoded₂.writer, hcoded₂.irregular, hcoded₂.hash⟩
    · show List.Pairwise _ (List.map inv₂.identity _)
      rw [hview₃]
      exact orderedInsert_lt h.sorted hmem
    · rwa [if_neg hmem]
    · rw [if_neg (by simp [hmem]), hc.payloadless, hpl]
    · rw [if_neg (by simp [hmem]), hc.payloadlessIrregular, hpi]

/-! ### Reading the tables -/

theorem markLastPayloadless_spec
    (he : inv.envelopes.getLast? = some e) (hc : inv.Coded e) :
    inv.markLastPayloadless =
      if isSha256Hex (inv.identity e).hash then
        { inv with payloadless := Insert.insert (inv.identity e).hash inv.payloadless }
      else { inv with
        payloadlessIrregular := Insert.insert (inv.identity e) inv.payloadlessIrregular } := by
  unfold markLastPayloadless
  rw [he]
  rw [show (inv.identity e).hash = inv.hashText e from rfl, hc.hash]
  by_cases hz : e.irregular = 0
  · simp [hz, hashText]
  · simp [hz]

/-- Read one row: an identity, and whether its payload is there. -/
def pushRow (inv : CompactReplicationInventory H) (id : ReplicaEnvelopeId) :
    CompactReplicationInventory H :=
  let inv := inv.pushSorted id
  if id ∈ held then inv else inv.markLastPayloadless

/-- The payload sets once the identities of `ids` that are not held have been marked. -/
structure Marked (held : Finset ReplicaEnvelopeId) (inv inv' : CompactReplicationInventory H)
    (ids : List ReplicaEnvelopeId) : Prop where
  regular : ∀ hash, hash ∈ inv'.payloadless ↔ hash ∈ inv.payloadless ∨
    ∃ id ∈ ids, id ∉ held ∧ isSha256Hex id.hash = true ∧ id.hash = hash
  irregular : ∀ id, id ∈ inv'.payloadlessIrregular ↔ id ∈ inv.payloadlessIrregular ∨
    id ∈ ids ∧ id ∉ held ∧ isSha256Hex id.hash = false

theorem pushRow_spec (h : inv.WellFormed) (hu : inv.Used) (hid : ∀ id' ∈ inv.view, id' < id) :
    (inv.pushRow held id).view = inv.view ++ [id] ∧ (inv.pushRow held id).WellFormed ∧
      (inv.pushRow held id).Used ∧ Marked held inv (inv.pushRow held id) [id] := by
  obtain ⟨hview, hwf, hused, hpl, hpi, e, hlast, hide⟩ := view_pushSorted h hu hid
  have hmarked {inv' : CompactReplicationInventory H} (hregular : ∀ hash, hash ∈ inv'.payloadless ↔
        hash ∈ inv.payloadless ∨ id ∉ held ∧ isSha256Hex id.hash = true ∧ id.hash = hash)
      (hirregular : ∀ id', id' ∈ inv'.payloadlessIrregular ↔
        id' ∈ inv.payloadlessIrregular ∨ id ∉ held ∧ isSha256Hex id.hash = false ∧ id = id') :
      Marked held inv inv' [id] := by
    refine ⟨fun hash => by simp [hregular], fun id' => (hirregular id').trans ?_⟩
    refine or_congr_right ⟨?_, ?_⟩
    · rintro ⟨hnot, hhex, rfl⟩
      exact ⟨mem_singleton_self _, hnot, hhex⟩
    · rintro ⟨hmem, hnot, hhex⟩
      obtain rfl := mem_singleton.mp hmem
      exact ⟨hnot, hhex, rfl⟩
  unfold pushRow
  split
  case isTrue hheld =>
    exact ⟨hview, hwf, hused, hmarked (by simp [hpl, hheld]) (by simp [hpi, hheld])⟩
  case isFalse hheld =>
    rw [markLastPayloadless_spec hlast (hwf.coded e (mem_of_getLast? hlast)), hide]
    split
    case isTrue hhex =>
      exact ⟨hview, hwf.congr rfl rfl rfl, hused,
        hmarked (by simp [hpl, hheld, hhex, or_comm, eq_comm]) (by simp [hpi, hhex])⟩
    case isFalse hhex =>
      exact ⟨hview, hwf.congr rfl rfl rfl, hused,
        hmarked (by simp [hpl, hhex]) (by simp [hpi, hheld, hhex, or_comm, eq_comm])⟩

theorem foldl_pushRow {ids : List ReplicaEnvelopeId} (hids : ids.Pairwise (· < ·))
    (h : inv.WellFormed) (hu : inv.Used)
    (hlt : ∀ id ∈ ids, ∀ id' ∈ inv.view, id' < id) :
    (ids.foldl (pushRow held) inv).view = inv.view ++ ids ∧
      (ids.foldl (pushRow held) inv).WellFormed ∧
      Marked held inv (ids.foldl (pushRow held) inv) ids := by
  induction hids generalizing inv with
  | nil => exact ⟨(append_nil _).symm, h, ⟨fun hash => by simp, fun id => by simp⟩⟩
  | @cons id ids hid _ ih =>
    obtain ⟨hview, hwf, hused, hm⟩ := pushRow_spec held h hu (hlt id mem_cons_self)
    obtain ⟨hview', hwf', hm'⟩ := ih hwf hused fun a ha b hb => by
      rw [hview] at hb
      rcases mem_append.mp hb with hb | hb
      · exact hlt a (mem_cons_of_mem _ ha) b hb
      · rw [mem_singleton.mp hb]
        exact hid a ha
    refine ⟨?_, hwf', ⟨fun hash => ?_, fun id' => ?_⟩⟩
    · rw [foldl_cons, hview', hview, append_assoc]
      rfl
    · rw [foldl_cons, hm'.regular, hm.regular]
      simp [or_assoc]
    · rw [foldl_cons, hm'.irregular, hm.irregular]
      simp only [mem_cons, not_mem_nil, or_false]
      tauto

end CompactReplicationInventory

open CompactReplicationInventory

/-- Read every envelope identity this node holds: the envelopes it stores and those a checkpoint
dropped, which it keeps as tombstones. -/
def fullCompactReplicationInventory (H : Hasher) (held dropped : Finset ReplicaEnvelopeId) :
    CompactReplicationInventory H :=
  (((held ∪ dropped).sort (· ≤ ·)).foldl (pushRow held) {}).refreshDigest

section

variable (H : Hasher) (held dropped : Finset ReplicaEnvelopeId)

theorem full_spec :
    (fullCompactReplicationInventory H held dropped).view = (held ∪ dropped).sort (· ≤ ·) ∧
      (fullCompactReplicationInventory H held dropped).WellFormed ∧
      Marked held ({} : CompactReplicationInventory H)
        (fullCompactReplicationInventory H held dropped) ((held ∪ dropped).sort (· ≤ ·)) := by
  have hsorted : ((held ∪ dropped).sort (· ≤ ·)).Pairwise (· < ·) :=
    Finset.sortedLT_sort _ |>.pairwise
  have hempty : ({} : CompactReplicationInventory H).WellFormed :=
    ⟨List.Pairwise.nil, forall_mem_nil _, List.Pairwise.nil⟩
  obtain ⟨hview, hwf, hm⟩ := foldl_pushRow held hsorted hempty (forall_mem_nil _)
    (fun id _ => forall_mem_nil _)
  exact ⟨hview, hwf.congr rfl rfl rfl, ⟨hm.regular, hm.irregular⟩⟩

theorem full_digest : (fullCompactReplicationInventory H held dropped).digest =
    H.replicationInventoryDigest (fullCompactReplicationInventory H held dropped).view :=
  digestOf_eq _ _ _

/-- The inventory read whole has the payloads of `held`, if identities of one SHA-256 hash agree. -/
theorem full_payloadOf_of_agree {held dropped : Finset ReplicaEnvelopeId}
    (hagree : ∀ a ∈ held ∪ dropped, ∀ b ∈ held ∪ dropped, isSha256Hex a.hash = true →
      a.hash = b.hash → (a ∈ held ↔ b ∈ held))
    (hid : id ∈ held ∪ dropped) :
    (fullCompactReplicationInventory H held dropped).payloadOf id = decide (id ∈ held) := by
  obtain ⟨-, -, hmarked⟩ := full_spec H held dropped
  unfold payloadOf
  split
  · rename_i hhex
    refine decide_eq_decide.mpr (not_iff_comm.mp ?_)
    rw [hmarked.regular]
    constructor
    · exact fun hnot => .inr ⟨id, (Finset.mem_sort _).mpr hid, hnot, hhex, rfl⟩
    · rintro (hnone | ⟨b, hb, hnot, -, he⟩)
      · exact absurd hnone (Finset.notMem_empty _)
      · exact fun hheld => hnot
          ((hagree id hid b ((Finset.mem_sort _).mp hb) hhex he.symm).mp hheld)
  · rename_i hhex
    refine decide_eq_decide.mpr (not_iff_comm.mp ?_)
    rw [hmarked.irregular]
    constructor
    · exact fun hnot => .inr ⟨(Finset.mem_sort _).mpr hid, hnot, Bool.eq_false_of_not_eq_true hhex⟩
    · rintro (hnone | ⟨-, hnot, -⟩)
      · exact absurd hnone (Finset.notMem_empty _)
      · exact hnot

end

end SmallTalk.Replication
