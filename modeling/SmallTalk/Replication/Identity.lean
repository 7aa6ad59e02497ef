import Mathlib.Data.Finset.Sort
import Mathlib.Data.Prod.Lex
import SmallTalk.Data.Json

/-!
# Replication — identities, ranges and digests

What two nodes compare of their logs: envelope identities in the order of writer, sequence and
hash, the sequence ranges they fall in, and digests of lists of them.

The hash is the streaming SHA-256 of the `sha2` crate, here a parameter `Hasher` with the calls the
code makes. `Hasher.CollisionFree S` is what the comparison of digests relies on: among the sorted
lists of identities in `S`, equal digests are of equal lists.
-/

namespace SmallTalk.Replication

open List

variable {a b : ReplicaEnvelopeId}

/-! ### Identities -/

/-- An envelope's identity. `sequence` is a `u64`. -/
@[ext] structure ReplicaEnvelopeId where
  writer : String
  sequence : ℕ
  hash : String
  deriving DecidableEq, Repr

namespace ReplicaEnvelopeId

/-- The derived order: writer, then sequence, then hash. -/
def orderKey (id : ReplicaEnvelopeId) : String ×ₗ ℕ ×ₗ String :=
  toLex (id.writer, toLex (id.sequence, id.hash))

theorem orderKey_injective : Function.Injective orderKey := by
  rintro ⟨w, s, h⟩ ⟨w', s', h'⟩ heq
  obtain ⟨rfl, rfl, rfl⟩ := heq
  rfl

instance : LinearOrder ReplicaEnvelopeId := LinearOrder.lift' orderKey orderKey_injective

-- Every definition that sorts identities names these.
instance : IsTrans ReplicaEnvelopeId (· ≤ ·) := inferInstance
instance : Std.Antisymm (α := ReplicaEnvelopeId) (· ≤ ·) := inferInstance

theorem lt_iff : a < b ↔ a.writer < b.writer ∨ a.writer = b.writer ∧
      (a.sequence < b.sequence ∨ a.sequence = b.sequence ∧ a.hash < b.hash) := by
  show orderKey a < orderKey b ↔ _
  simp only [orderKey, Prod.Lex.toLex_lt_toLex]

end ReplicaEnvelopeId

/-! ### Sequence ranges -/

/-- Sequences per compact inventory range. -/
def replicationBucketWidth : ℕ := 256

def replicationBucketStart (sequence : ℕ) : ℕ := sequence - sequence % replicationBucketWidth

-- Likewise for ranges.
instance rangeTrans : IsTrans (String ×ₗ ℕ) (· ≤ ·) := inferInstance
instance rangeAntisymm : Std.Antisymm (α := String ×ₗ ℕ) (· ≤ ·) := inferInstance
instance rangeTotal : Std.Total (α := String ×ₗ ℕ) (· ≤ ·) := inferInstance
instance rangeBEq : LawfulBEq (String ×ₗ ℕ) := inferInstance

/-- The range an identity falls in: its writer, and the first sequence of the range. -/
def rangeOf (id : ReplicaEnvelopeId) : String ×ₗ ℕ :=
  toLex (id.writer, replicationBucketStart id.sequence)

theorem replicationBucketStart_mono {a b : ℕ} (h : a ≤ b) :
    replicationBucketStart a ≤ replicationBucketStart b := by
  unfold replicationBucketStart replicationBucketWidth
  omega

theorem rangeOf_mono (h : a ≤ b) : rangeOf a ≤ rangeOf b := by
  rcases h.lt_or_eq with h | rfl
  · rw [rangeOf, rangeOf, Prod.Lex.toLex_le_toLex]
    rcases ReplicaEnvelopeId.lt_iff.mp h with hw | ⟨hw, hs | ⟨hs, -⟩⟩
    · exact .inl hw
    · exact .inr ⟨hw, replicationBucketStart_mono hs.le⟩
    · exact .inr ⟨hw, replicationBucketStart_mono hs.le⟩
  · exact le_rfl

/-- The largest sequence SQLite's `INTEGER` holds. `rusqlite` refuses a larger `u64`. -/
def sequenceBound : ℕ := 2 ^ 63

/-- The sequences of a range are the next `replicationBucketWidth` from its start. -/
theorem rangeOf_eq_iff {id : ReplicaEnvelopeId} {writer : String} {start : ℕ}
    (hstart : replicationBucketStart start = start) (hbound : start < sequenceBound) :
    rangeOf id = toLex (writer, start) ↔
      id.writer = writer ∧ start ≤ id.sequence ∧
        id.sequence < satAdd start replicationBucketWidth := by
  have hsat : satAdd start replicationBucketWidth = start + replicationBucketWidth := by
    unfold satAdd u64Max replicationBucketWidth
    unfold sequenceBound at hbound
    omega
  rw [hsat, rangeOf, toLex_inj, Prod.mk.injEq]
  refine and_congr_right fun _ => ?_
  unfold replicationBucketStart replicationBucketWidth at *
  omega

/-! ### Digests -/

/-- A streaming hash, with the text of the digest it finalizes to. `empty` is the empty text,
which a peer sends for no digest. -/
structure Hasher where
  State : Type
  Digest : Type
  [decEq : DecidableEq Digest]
  empty : Digest
  new : State
  update : State → List UInt8 → State
  finalize : State → Digest

attribute [instance] Hasher.decEq

/-- `u64::to_be_bytes`. -/
def toBeBytes (n : ℕ) : List UInt8 :=
  [56, 48, 40, 32, 24, 16, 8, 0].map fun shift => UInt8.ofNat (n >>> shift)

def inventoryDigestDomain : String := "st3-replication-inventory-v1\x00"
def bucketDigestDomain : String := "st3-replication-bucket-v1\x00"

namespace Hasher

variable (H : Hasher)

def updateIdentityDigest (digest : H.State) (id : ReplicaEnvelopeId) : H.State :=
  [id.writer, toString id.sequence, id.hash].foldl
    (fun digest field =>
      H.update (H.update digest (toBeBytes field.utf8ByteSize)) field.toUTF8.data.toList)
    digest

/-- The state after `domain`, before any identity. -/
def domainState (domain : String) : H.State := H.update H.new domain.toUTF8.data.toList

def replicationIdentityDigest (domain : String) (envelopes : List ReplicaEnvelopeId) : H.Digest :=
  H.finalize (envelopes.foldl H.updateIdentityDigest (H.domainState domain))

def replicationInventoryDigest (envelopes : List ReplicaEnvelopeId) : H.Digest :=
  H.replicationIdentityDigest inventoryDigestDomain envelopes

def replicationBucketDigest (envelopes : List ReplicaEnvelopeId) : H.Digest :=
  H.replicationIdentityDigest bucketDigestDomain envelopes

/-- Digests of sorted lists of identities in `S` are texts, and two of them agree only when the
lists do. -/
structure CollisionFree (S : Finset ReplicaEnvelopeId) : Prop where
  inventory : ∀ l l' : List ReplicaEnvelopeId, l.Pairwise (· < ·) → l'.Pairwise (· < ·) →
    (∀ id ∈ l, id ∈ S) → (∀ id ∈ l', id ∈ S) →
    H.replicationInventoryDigest l = H.replicationInventoryDigest l' → l = l'
  bucket : ∀ l l' : List ReplicaEnvelopeId, l.Pairwise (· < ·) → l'.Pairwise (· < ·) →
    (∀ id ∈ l, id ∈ S) → (∀ id ∈ l', id ∈ S) →
    H.replicationBucketDigest l = H.replicationBucketDigest l' → l = l'
  text : ∀ l, H.replicationInventoryDigest l ≠ H.empty

theorem CollisionFree.mono {H : Hasher} {S T : Finset ReplicaEnvelopeId} (h : H.CollisionFree S)
    (hT : T ⊆ S) : H.CollisionFree T where
  inventory l l' hl hl' hmem hmem' :=
    h.inventory l l' hl hl' (fun id hid => hT (hmem id hid)) fun id hid => hT (hmem' id hid)
  bucket l l' hl hl' hmem hmem' :=
    h.bucket l l' hl hl' (fun id hid => hT (hmem id hid)) fun id hid => hT (hmem' id hid)
  text := h.text

end Hasher

/-! ### A hash without collisions -/

section

variable {α β : Type*} {f : α → List β} {l l' : List α}

/-- Appending a block for each element. -/
theorem foldl_append_block {step : List β → α → List β} (h : ∀ state a, step state a = state ++ f a)
    (state : List β) : l.foldl step state = state ++ l.flatMap f := by
  induction l generalizing state with
  | nil => rw [foldl_nil, flatMap_nil, append_nil]
  | cons a l ih => rw [foldl_cons, h, ih, flatMap_cons, append_assoc]

/-- Blocks of one length are told apart. -/
theorem flatMap_inj_of_length {n : ℕ} (hlength : ∀ a, (f a).length = n + 1)
    (hinj : ∀ a ∈ l, ∀ b ∈ l', f a = f b → a = b) (h : l.flatMap f = l'.flatMap f) : l = l' := by
  have hne : ∀ a, f a ≠ [] := fun a => ne_nil_of_length_eq_add_one (hlength a)
  induction l generalizing l' with
  | nil =>
    cases l' with
    | nil => rfl
    | cons b l' => simp [hne] at h
  | cons a l ih =>
    cases l' with
    | nil => simp [hne] at h
    | cons b l' =>
      obtain ⟨hab, hrest⟩ := append_inj h ((hlength a).trans (hlength b).symm)
      rw [hinj a mem_cons_self b mem_cons_self hab,
        ih (fun a ha b hb => hinj a (mem_cons_of_mem _ ha) b (mem_cons_of_mem _ hb)) hrest]

end

/-- The hash whose digest is the list of its updates. -/
@[reducible] def transcript : Hasher where
  State := List (List UInt8)
  Digest := Option (List (List UInt8))
  empty := none
  new := []
  update state bytes := state ++ [bytes]
  finalize := some

/-- What `updateIdentityDigest` appends for one identity. -/
def transcriptOf (id : ReplicaEnvelopeId) : List (List UInt8) :=
  [id.writer, toString id.sequence, id.hash].flatMap fun field =>
    [toBeBytes field.utf8ByteSize, field.toUTF8.data.toList]

theorem toUTF8_injective {a b : String} (h : a.toUTF8.data.toList = b.toUTF8.data.toList) :
    a = b := by
  have hdata : a.toUTF8.data = b.toUTF8.data := Array.toList_inj.mp h
  exact String.toByteArray_inj.mp (ByteArray.ext hdata)

theorem toString_injective {m n : ℕ} (h : toString m = toString n) : m = n := by
  have hdigits : Nat.toDigits 10 m = Nat.toDigits 10 n := by
    have := congrArg String.toList h
    simpa [Nat.toString_eq_repr, Nat.toList_repr] using this
  have := congrArg (Nat.ofDigitChars 10 · 0) hdigits
  simpa [Nat.ofDigitChars_toDigits] using this

theorem transcriptOf_injective (h : transcriptOf a = transcriptOf b) : a = b := by
  simp only [transcriptOf, flatMap_cons, flatMap_nil, cons_append, nil_append,
    append_nil, List.cons.injEq] at h
  obtain ⟨-, hw, -, hs, -, hh, -⟩ := h
  exact ReplicaEnvelopeId.ext (toUTF8_injective hw)
    (toString_injective (toUTF8_injective hs)) (toUTF8_injective hh)

theorem transcript_updateIdentityDigest (state : List (List UInt8)) (id : ReplicaEnvelopeId) :
    transcript.updateIdentityDigest state id = state ++ transcriptOf id := by
  simp [Hasher.updateIdentityDigest, transcriptOf]

theorem transcript_collisionFree (S : Finset ReplicaEnvelopeId) : transcript.CollisionFree S := by
  have hinj : ∀ domain (l l' : List ReplicaEnvelopeId),
      transcript.replicationIdentityDigest domain l =
        transcript.replicationIdentityDigest domain l' → l = l' := by
    intro domain l l' h
    unfold Hasher.replicationIdentityDigest at h
    rw [foldl_append_block transcript_updateIdentityDigest,
      foldl_append_block transcript_updateIdentityDigest] at h
    exact flatMap_inj_of_length (n := 5) (fun _ => rfl) (fun _ _ _ _ => transcriptOf_injective)
      (append_cancel_left (Option.some.inj h))
  exact ⟨fun l l' _ _ _ _ => hinj _ l l', fun l l' _ _ _ _ => hinj _ l l',
    fun l => Option.some_ne_none _⟩
end SmallTalk.Replication
