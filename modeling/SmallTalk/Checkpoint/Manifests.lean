import SmallTalk.Checkpoint.Agreement
import SmallTalk.Checkpoint.Ledger

/-!
# Checkpoint — what a node serves

A checkpoint's drop digest is that of every tombstone up to it. A node that applied the checkpoint
should serve a manifest with this digest, whether it trimmed from its own plan or adopted.

A tombstone is kept by its key: an adoption leaves a row that has the key of one it adopts, and does
not compare the two. So what a node holds of a drop it applies is the drop itself only if the rows
it held under the same keys are the same (`Drop.Fits`).

* `serves_of_fits`: along every run whose drops fit, the manifest passes.
-/

namespace SmallTalk.Checkpoint

open Replication (Hasher)
open List Runs Sorted

/-! ### What a plan drops -/

section

variable {H : Hasher} {registry : Registry} {t : Tables} {cut : ℕ} {rowid : Option ℕ}

theorem sealedEnvelopes_before {e : SealedEnvelope}
    (h : e ∈ (t.sealedSetThrough cut rowid).envelopes) : e.acceptedAtUnixMs < cut := by
  rcases mem_append.mp ((mem_insertionSort _).mp h) with h | h
  · obtain ⟨row, hrow, rfl⟩ := mem_map.mp h
    exact (of_decide_eq_true (mem_filter.mp hrow).2).2.1
  · obtain ⟨dropped, hdropped, rfl⟩ := mem_map.mp h
    exact (of_decide_eq_true (mem_filter.mp hdropped).2).1

/-- A sealed claim is before the cut: its envelope is not late. -/
theorem sealedClaims_before (i : (t.sealedSetThrough cut rowid).Index) :
    ((t.sealedSetThrough cut rowid).row i).acceptedAtUnixMs < cut := by
  have hmem : (t.sealedSetThrough cut rowid).claims i ∈ t.sealedClaims cut rowid :=
    get_mem _ _
  obtain ⟨row, hrow, heq⟩ := mem_map.mp hmem
  obtain ⟨hrow, henvelope⟩ := mem_filter.mp hrow
  obtain ⟨held, hheld, hkey⟩ := mem_map.mp (of_decide_eq_true henvelope)
  have hlate := (of_decide_eq_true (mem_filter.mp hheld).2).2.2
  have hclaim : (t.sealedSetThrough cut rowid).row i = row.claim := by
    rw [SealedSet.row, ← heq]
  rw [hclaim]
  by_contra hafter
  refine hlate (mem_map.mpr ⟨row, mem_filter.mpr ⟨hrow, ?_⟩, hkey.symm⟩)
  exact decide_eq_true (not_lt.mp hafter)

variable {sealed : SealedSet}

theorem mem_planDrops_envelopes {d : EnvelopeTombstone}
    (h : d ∈ (planDrops H registry sealed).envelopes) :
    ∃ e ∈ sealed.envelopes, envelopeTombstone e = d := by
  obtain ⟨e, he, rfl⟩ := mem_map.mp (mem_sortedSet.mp h)
  exact ⟨e, (mem_filter.mp he).1, rfl⟩

theorem planDrops_envelopes_inj {d d' : EnvelopeTombstone}
    (h : d ∈ (planDrops H registry sealed).envelopes)
    (h' : d' ∈ (planDrops H registry sealed).envelopes) (hkey : d.key = d'.key) : d = d' := by
  obtain ⟨e, he, rfl⟩ := mem_planDrops_envelopes h
  obtain ⟨e', he', rfl⟩ := mem_planDrops_envelopes h'
  rw [inj_on_of_nodup_map sealed.distinct he he' hkey]

theorem first_inj {n : ℕ} {row : Fin n → ClaimRecord} {i j : Fin n} (hi : i ∈ first row)
    (hj : j ∈ first row) (hid : (row i).id = (row j).id) : i = j := by
  have hi := of_decide_eq_true (mem_filter.mp hi).2
  have hj := of_decide_eq_true (mem_filter.mp hj).2
  rcases lt_trichotomy i j with hlt | heq | hlt
  · exact absurd hid (hj i hlt)
  · exact heq
  · exact absurd hid.symm (hi j hlt)

theorem planDrops_claims_inj {d d' : ClaimTombstone} (h : d ∈ (planDrops H registry sealed).claims)
    (h' : d' ∈ (planDrops H registry sealed).claims) (hid : d.id = d'.id) : d = d' := by
  obtain ⟨i, hi, -, rfl⟩ := mem_planDrops_claims.mp h
  obtain ⟨j, hj, -, rfl⟩ := mem_planDrops_claims.mp h'
  rw [first_inj hi hj hid]

/-- A dropped claim is dropped with its envelope. -/
theorem planDrops_within {d : ClaimTombstone} (h : d ∈ (planDrops H registry sealed).claims) :
    d.envelope ∈ (planDrops H registry sealed).envelopes.map EnvelopeTombstone.key := by
  obtain ⟨i, -, hi, rfl⟩ := mem_planDrops_claims.mp h
  obtain ⟨e, he, hkey, -⟩ := SealedSet.dropped_envelope hi
  exact mem_map.mpr
    ⟨envelopeTombstone e, (envelopeTombstone_mem_iff he).mpr ⟨i, hi, hkey.symm⟩, hkey⟩

end

/-! ### What a ledger keeps -/

namespace Ledger

variable (H : Hasher) (text : H.Digest → String)

/-- The tombstones are those of the checkpoint and earlier ones, and have the digest that it is
marked with. -/
structure Holds (ledger : Ledger) (checkpoint : String) (cut : ℕ) : Prop where
  envelopes : ∀ d ∈ ledger.tables.checkpointEnvelopes,
    d.acceptedAtUnixMs < cut ∧ ledger.envelopeCheckpoint d.key ≤ checkpoint
  claims : ∀ d ∈ ledger.tables.checkpointClaims,
    d.acceptedAtUnixMs < cut ∧ ledger.claimCheckpoint d.id ≤ checkpoint
  within : ∀ d ∈ ledger.tables.checkpointClaims, d.envelope ∈ ledger.tables.droppedKeys
  digest : ∀ row, ledger.checkpoints.get checkpoint = some row →
    row.state ∈ [.trimming, .trimmed] →
      row.dropDigest = some (text (dropDigest H ledger.tables.checkpointEnvelopes
        ledger.tables.checkpointClaims))

structure Kept (ledger : Ledger) : Prop where
  once : ledger.tables.droppedIds.Nodup
  fresh : ledger.newest = none →
    ledger.tables.checkpointEnvelopes = [] ∧ ledger.tables.checkpointClaims = []
  holds : ∀ checkpoint cut, ledger.newest = some (checkpoint, cut) →
    ledger.Holds H text checkpoint cut

/-- The manifest that the node serves for the checkpoint it applied last passes against the digest
that the checkpoint is marked trimmed with. -/
def Serves (ledger : Ledger) : Prop :=
  ∀ checkpoint cut row, ledger.newest = some (checkpoint, cut) →
    ledger.checkpoints.get checkpoint = some row → row.state = .trimmed →
      ∃ dropDigest, row.dropDigest = some dropDigest ∧
        verifyCheckpointManifest H text (ledger.checkpointManifest checkpoint cut) dropDigest =
          .ok ()

variable {H text} {ledger : Ledger} {checkpoint : String} {cut : ℕ}

theorem Holds.mem_manifest (h : ledger.Holds H text checkpoint cut) :
    (∀ d, d ∈ (ledger.checkpointManifest checkpoint cut).envelopes ↔
        d ∈ ledger.tables.checkpointEnvelopes) ∧
      ∀ d, d ∈ (ledger.checkpointManifest checkpoint cut).claims ↔
        d ∈ ledger.tables.checkpointClaims := by
  refine ⟨fun d => ?_, fun d => ?_⟩
  · rw [checkpointManifest, mem_insertionSort, mem_filter, decide_eq_true_eq]
    exact ⟨And.left, fun hd => ⟨hd, (h.envelopes d hd).2⟩⟩
  · rw [checkpointManifest, mem_insertionSort, mem_filter, decide_eq_true_eq]
    exact ⟨And.left, fun hd => ⟨hd, (h.claims d hd).2⟩⟩

theorem Holds.consistent (h : ledger.Holds H text checkpoint cut)
    (honce : ledger.tables.droppedIds.Nodup) :
    (ledger.checkpointManifest checkpoint cut).Consistent where
  envelopesBefore d hd := (h.envelopes d ((h.mem_manifest.1 d).mp hd)).1
  envelopesOnce := (((perm_insertionSort _ _).map _).nodup_iff).mpr
    (ledger.tables.distinctTombstones.sublist (filter_sublist.map _))
  claimsWithin d hd := by
    obtain ⟨e, he, hkey⟩ := mem_map.mp (h.within d ((h.mem_manifest.2 d).mp hd))
    exact mem_map.mpr ⟨e, (h.mem_manifest.1 e).mpr he, hkey⟩
  claimsBefore d hd := (h.claims d ((h.mem_manifest.2 d).mp hd)).1
  claimsOnce := (((perm_insertionSort _ _).map _).nodup_iff).mpr
    (honce.sublist (filter_sublist.map _))

theorem Kept.serves (h : ledger.Kept H text) : ledger.Serves H text := by
  intro checkpoint cut row hnewest hrow htrimmed
  have hholds := h.holds checkpoint cut hnewest
  refine ⟨_, hholds.digest row hrow (by simp [htrimmed]), verifyCheckpointManifest_ok.mpr
    ⟨hholds.consistent h.once, ?_⟩⟩
  rw [dropDigest_congr H hholds.mem_manifest.1 hholds.mem_manifest.2]

end Ledger

/-! ### Applying a drop -/

/-- What the node holds under the keys of the drop is the drop's, and the checkpoint is not before
the one applied last. -/
structure Drop.Fits (drop : Drop) (ledger : Ledger) : Prop where
  envelopes : ∀ d ∈ ledger.tables.checkpointEnvelopes, ∀ d' ∈ drop.envelopes,
    d.key = d'.key → d = d'
  claims : ∀ d ∈ ledger.tables.checkpointClaims, ∀ d' ∈ drop.claims, d.id = d'.id → d = d'
  order : ∀ last ∈ ledger.newest, last.1 ≤ drop.checkpoint ∧ last.2 ≤ drop.cutUnixMs

instance Drop.decidableFits (drop : Drop) (ledger : Ledger) : Decidable (drop.Fits ledger) :=
  decidable_of_iff
    ((∀ d ∈ ledger.tables.checkpointEnvelopes, ∀ d' ∈ drop.envelopes, d.key = d'.key → d = d') ∧
      (∀ d ∈ ledger.tables.checkpointClaims, ∀ d' ∈ drop.claims, d.id = d'.id → d = d') ∧
      ∀ last ∈ ledger.newest, last.1 ≤ drop.checkpoint ∧ last.2 ≤ drop.cutUnixMs)
    ⟨fun ⟨envelopes, claims, order⟩ => ⟨envelopes, claims, order⟩,
      fun h => ⟨h.envelopes, h.claims, h.order⟩⟩

/-- What a drop lists is before its cut, once, and claims with their envelopes. -/
structure Drop.Lists (drop : Drop) : Prop where
  before : (∀ d ∈ drop.envelopes, d.acceptedAtUnixMs < drop.cutUnixMs) ∧
    ∀ d ∈ drop.claims, d.acceptedAtUnixMs < drop.cutUnixMs
  envelopesOnce : ∀ d ∈ drop.envelopes, ∀ d' ∈ drop.envelopes, d.key = d'.key → d = d'
  claimsOnce : ∀ d ∈ drop.claims, ∀ d' ∈ drop.claims, d.id = d'.id → d = d'
  within : ∀ d ∈ drop.claims, d.envelope ∈ drop.envelopes.map EnvelopeTombstone.key

namespace Ledger

variable {H : Hasher} {text : H.Digest → String} {ledger : Ledger} {drop : Drop}
  {checkpoint : String}

/-- The tables after the tombstones that an adoption does not list are forgotten. -/
def remaining (ledger : Ledger) (drop : Drop) : Tables :=
  if drop.exact then ledger.tables.keepOnlyTombstones drop.envelopes drop.claims else ledger.tables

theorem remaining_subset (ledger : Ledger) (drop : Drop) :
    (∀ d ∈ (ledger.remaining drop).checkpointEnvelopes, d ∈ ledger.tables.checkpointEnvelopes) ∧
      (∀ d ∈ (ledger.remaining drop).checkpointClaims, d ∈ ledger.tables.checkpointClaims) ∧
        ((ledger.remaining drop).checkpointClaims.map ClaimTombstone.id).Sublist
          (ledger.tables.checkpointClaims.map ClaimTombstone.id) := by
  unfold remaining
  split
  case isTrue =>
    exact ⟨fun d hd => (mem_filter.mp hd).1, fun d hd => (mem_filter.mp hd).1, filter_sublist.map _⟩
  case isFalse => exact ⟨fun _ => id, fun _ => id, .refl _⟩

theorem trimCheckpoint_rows (ledger : Ledger) (drop : Drop) :
    (ledger.trimCheckpoint drop).tables.checkpointEnvelopes = Keyed.insertAll EnvelopeTombstone.key
        (ledger.remaining drop).checkpointEnvelopes drop.envelopes ∧
      (ledger.trimCheckpoint drop).tables.checkpointClaims = Keyed.insertAll ClaimTombstone.id
        (ledger.remaining drop).checkpointClaims drop.claims :=
  ⟨(Tables.recordCheckpointTombstones_rows _ _ _).1,
    (Tables.recordCheckpointTombstones_rows _ _ _).2.1⟩

/-- The rows after a drop that fits: those that stay, and the drop's. -/
theorem mem_trimCheckpoint (hlists : drop.Lists) (hfits : drop.Fits ledger) :
    (∀ d, d ∈ (ledger.trimCheckpoint drop).tables.checkpointEnvelopes ↔
        d ∈ (ledger.remaining drop).checkpointEnvelopes ∨ d ∈ drop.envelopes) ∧
      ∀ d, d ∈ (ledger.trimCheckpoint drop).tables.checkpointClaims ↔
        d ∈ (ledger.remaining drop).checkpointClaims ∨ d ∈ drop.claims := by
  obtain ⟨henvelopes, hclaims, -⟩ := ledger.remaining_subset drop
  rw [(ledger.trimCheckpoint_rows drop).1, (ledger.trimCheckpoint_rows drop).2]
  refine ⟨fun d => ?_, fun d => ?_⟩
  · exact Keyed.mem_insertAll (fun r hr => hfits.envelopes r (henvelopes r hr)) hlists.envelopesOnce
  · exact Keyed.mem_insertAll (fun r hr => hfits.claims r (hclaims r hr)) hlists.claimsOnce

/-- What the ledger holds is of checkpoints and cuts before those of a drop that fits. -/
theorem Kept.before (h : ledger.Kept H text) (hfits : drop.Fits ledger) :
    (∀ d ∈ ledger.tables.checkpointEnvelopes, d.acceptedAtUnixMs < drop.cutUnixMs ∧
        ledger.envelopeCheckpoint d.key ≤ drop.checkpoint) ∧
      ∀ d ∈ ledger.tables.checkpointClaims, d.acceptedAtUnixMs < drop.cutUnixMs ∧
        ledger.claimCheckpoint d.id ≤ drop.checkpoint := by
  cases hnewest : ledger.newest with
  | none =>
    obtain ⟨henvelopes, hclaims⟩ := h.fresh hnewest
    simp [henvelopes, hclaims]
  | some last =>
    obtain ⟨hname, hcut⟩ := hfits.order last hnewest
    have hholds := h.holds last.1 last.2 hnewest
    refine ⟨fun d hd => ?_, fun d hd => ?_⟩
    · exact ⟨(hholds.envelopes d hd).1.trans_le hcut, (hholds.envelopes d hd).2.trans hname⟩
    · exact ⟨(hholds.claims d hd).1.trans_le hcut, (hholds.claims d hd).2.trans hname⟩

/-- **A drop that fits** is what the ledger holds, if with the rows that stay it has the certified
digest and takes every claim with its envelope. -/
theorem Kept.trimCheckpoint (h : ledger.Kept H text) (hlists : drop.Lists)
    (hfits : drop.Fits ledger)
    (hwithin : ∀ d ∈ (ledger.remaining drop).checkpointClaims,
      d.envelope ∈ (ledger.remaining drop).droppedKeys ∨
        d.envelope ∈ drop.envelopes.map EnvelopeTombstone.key)
    (hdigest : text (dropDigest H
        ((ledger.remaining drop).checkpointEnvelopes ++ drop.envelopes)
        ((ledger.remaining drop).checkpointClaims ++ drop.claims)) = drop.dropDigest) :
    (ledger.trimCheckpoint drop).Kept H text := by
  obtain ⟨henvelopes, hclaims, hids⟩ := ledger.remaining_subset drop
  obtain ⟨hmemEnvelopes, hmemClaims⟩ := mem_trimCheckpoint hlists hfits
  obtain ⟨holdEnvelopes, holdClaims⟩ := h.before hfits
  obtain ⟨hrecordedEnvelopes, hrecordedClaims⟩ := ledger.trimCheckpoint_rows drop
  refine ⟨?_, nofun, fun checkpoint cut hnewest => ?_⟩
  · rw [Tables.droppedIds, hrecordedClaims]
    exact Keyed.nodup_insertAll (h.once.sublist hids)
  · obtain ⟨rfl, rfl⟩ := Prod.mk.inj (Option.some.inj hnewest)
    refine ⟨fun d hd => ⟨?_, ?_⟩, fun d hd => ⟨?_, ?_⟩, fun d hd => ?_, fun row hrow _ => ?_⟩
    · exact ((hmemEnvelopes d).mp hd).elim (fun hd => (holdEnvelopes d (henvelopes d hd)).1)
        (hlists.before.1 d)
    · rw [hrecordedEnvelopes] at hd
      exact Keyed.stamp_insertAll (P := (· ≤ drop.checkpoint)) le_rfl
        (fun r hr => (holdEnvelopes r (henvelopes r hr)).2) hd
    · exact ((hmemClaims d).mp hd).elim (fun hd => (holdClaims d (hclaims d hd)).1)
        (hlists.before.2 d)
    · rw [hrecordedClaims] at hd
      exact Keyed.stamp_insertAll (P := (· ≤ drop.checkpoint)) le_rfl
        (fun r hr => (holdClaims r (hclaims r hr)).2) hd
    · have hkeys : d.envelope ∈ (ledger.remaining drop).droppedKeys ∨
          d.envelope ∈ drop.envelopes.map EnvelopeTombstone.key :=
        ((hmemClaims d).mp hd).elim (hwithin d) fun hd => .inr (hlists.within d hd)
      rcases hkeys with hkey | hkey
      all_goals
        obtain ⟨e, he, hkey⟩ := mem_map.mp hkey
        exact mem_map.mpr ⟨e, (hmemEnvelopes e).mpr (by simp [he]), hkey⟩
    · have hmarked : row.dropDigest = some drop.dropDigest := by
        simp only [Ledger.trimCheckpoint, upsert, TreeMap.get_insert, if_true] at hrow
        rw [← Option.some.inj hrow]
      rw [hmarked, ← hdigest, dropDigest_congr H (fun d => ?_) fun d => ?_]
      · rw [mem_append, hmemEnvelopes]
      · rw [mem_append, hmemClaims]

/-! ### The drops that events apply -/

section

variable {registry : Registry} {checkpointName : ℕ → String}

section

variable {certificate : Certificate} {sealRowid : ℕ}
  (hdrop : ledger.ownDrop H text registry checkpoint certificate sealRowid = some drop)

include hdrop

theorem ownDrop_lists : drop.Lists := by
  obtain rfl := Option.some.inj (Option.ite_none_right_eq_some.mp hdrop).2
  constructor
  case before =>
    refine ⟨fun d hd => ?_, fun d hd => ?_⟩
    · obtain ⟨e, he, rfl⟩ := mem_planDrops_envelopes (H := H) hd
      exact sealedEnvelopes_before he
    · obtain ⟨i, -, -, rfl⟩ := (mem_planDrops_claims (H := H)).mp hd
      exact sealedClaims_before i
  case envelopesOnce => exact fun d hd d' hd' => planDrops_envelopes_inj (H := H) hd hd'
  case claimsOnce => exact fun d hd d' hd' => planDrops_claims_inj (H := H) hd hd'
  case within => exact fun d hd => planDrops_within (H := H) hd

/-- **The node's own plan.** -/
theorem Kept.own (h : ledger.Kept H text) (hfits : drop.Fits ledger) :
    (ledger.trimCheckpoint drop).Kept H text := by
  have hlists := ownDrop_lists hdrop
  obtain rfl := Option.some.inj (Option.ite_none_right_eq_some.mp hdrop).2
  obtain ⟨holdEnvelopes, holdClaims⟩ := h.before hfits
  refine h.trimCheckpoint hlists hfits (fun d hd => ?_) ?_
  · cases hnewest : ledger.newest with
    | none =>
      have hnone : d ∈ ledger.tables.checkpointClaims := hd
      simp [(h.fresh hnewest).2] at hnone
    | some last => exact .inl ((h.holds last.1 last.2 hnewest).within d hd)
  · have henvelopes : ledger.tables.checkpointEnvelopes.filter
        (fun d => d.acceptedAtUnixMs < certificate.terms.cutUnixMs) =
          ledger.tables.checkpointEnvelopes :=
      filter_eq_self.mpr fun d hd => decide_eq_true (holdEnvelopes d hd).1
    have hclaims : ledger.tables.checkpointClaims.filter
        (fun d => d.acceptedAtUnixMs < certificate.terms.cutUnixMs) =
          ledger.tables.checkpointClaims :=
      filter_eq_self.mpr fun d hd => decide_eq_true (holdClaims d hd).1
    show text (dropDigest H (ledger.tables.checkpointEnvelopes ++ _)
      (ledger.tables.checkpointClaims ++ _)) = text (dropDigest H (_ ++ _) (_ ++ _))
    rw [← henvelopes, ← hclaims]
    rfl

end

section

variable {claims : List CheckpointClaim} {manifest : CheckpointManifest} {requireNewest : Bool}
  (hdrop : ledger.adoptedDrop checkpointName H text claims manifest requireNewest =
    .ok (some drop))

include hdrop

theorem adoptedDrop_eq :
    drop.exact = true ∧ drop.cutUnixMs = manifest.cutUnixMs ∧ drop.envelopes = manifest.envelopes ∧
      drop.claims = manifest.claims ∧
        verifyCheckpointManifest H text manifest drop.dropDigest = .ok () := by
  unfold adoptedDrop at hdrop
  split at hdrop
  · cases hdrop
  split at hdrop
  · cases hdrop
  split at hdrop
  · cases hdrop
  case isFalse certificate _ _ =>
    cases hverify : verifyCheckpointManifest H text manifest certificate.terms.dropDigest with
    | error e =>
      rw [hverify] at hdrop
      cases hdrop
    | ok =>
      rw [hverify] at hdrop
      obtain ⟨-, hdrop⟩ := Option.ite_none_left_eq_some.mp (Except.ok.inj hdrop)
      obtain rfl := Option.some.inj hdrop
      exact ⟨rfl, rfl, rfl, rfl, hverify⟩

/-- **A peer's manifest.** -/
theorem Kept.adopted (h : ledger.Kept H text) (hfits : drop.Fits ledger) :
    (ledger.trimCheckpoint drop).Kept H text := by
  obtain ⟨hexact, hcut, henvelopes, hclaims, hverify⟩ := adoptedDrop_eq hdrop
  obtain ⟨hconsistent, hdigest⟩ := verifyCheckpointManifest_ok.mp hverify
  -- What stays is among the manifest's, since the rows under the same keys are the same.
  have hstayEnvelopes : ∀ d ∈ (ledger.remaining drop).checkpointEnvelopes, d ∈ drop.envelopes := by
    intro d hd
    rw [remaining, if_pos hexact] at hd
    obtain ⟨hd, hkey⟩ := mem_filter.mp hd
    obtain ⟨d', hd', hkey⟩ := mem_map.mp (of_decide_eq_true hkey)
    exact hfits.envelopes d hd d' hd' hkey.symm ▸ hd'
  have hstayClaims : ∀ d ∈ (ledger.remaining drop).checkpointClaims, d ∈ drop.claims := by
    intro d hd
    rw [remaining, if_pos hexact] at hd
    obtain ⟨hd, hid⟩ := mem_filter.mp hd
    obtain ⟨d', hd', hid⟩ := mem_map.mp (of_decide_eq_true hid)
    exact hfits.claims d hd d' hd' hid.symm ▸ hd'
  have hlists : drop.Lists := by
    constructor
    case before =>
      rw [henvelopes, hclaims, hcut]
      exact ⟨hconsistent.envelopesBefore, hconsistent.claimsBefore⟩
    case envelopesOnce =>
      rw [henvelopes]
      exact fun d hd d' hd' => inj_on_of_nodup_map hconsistent.envelopesOnce hd hd'
    case claimsOnce =>
      rw [hclaims]
      exact fun d hd d' hd' => inj_on_of_nodup_map hconsistent.claimsOnce hd hd'
    case within =>
      rw [henvelopes, hclaims]
      exact hconsistent.claimsWithin
  refine h.trimCheckpoint hlists hfits (fun d hd => .inr (hlists.within d (hstayClaims d hd))) ?_
  rw [← hdigest, ← henvelopes, ← hclaims, dropDigest_congr H (fun d => ?_) fun d => ?_]
  · rw [mem_append]
    exact ⟨fun hd => hd.elim (hstayEnvelopes d) id, .inr⟩
  · rw [mem_append]
    exact ⟨fun hd => hd.elim (hstayClaims d) id, .inr⟩

end

end

/-! ### Other events -/

/-- The event leaves the tombstones, and marks no checkpoint that was not marked so. -/
structure Leaves (ledger after : Ledger) : Prop where
  envelopes : after.tables.checkpointEnvelopes = ledger.tables.checkpointEnvelopes
  claims : after.tables.checkpointClaims = ledger.tables.checkpointClaims
  envelopeCheckpoint : after.envelopeCheckpoint = ledger.envelopeCheckpoint
  claimCheckpoint : after.claimCheckpoint = ledger.claimCheckpoint
  newest : after.newest = ledger.newest
  marks : ∀ checkpoint row, after.checkpoints.get checkpoint = some row →
    row.state ∈ [.trimming, .trimmed] →
      ∃ row', ledger.checkpoints.get checkpoint = some row' ∧
        row'.state ∈ [.trimming, .trimmed] ∧ row'.dropDigest = row.dropDigest

theorem Leaves.refl (ledger : Ledger) : Leaves ledger ledger :=
  ⟨rfl, rfl, rfl, rfl, rfl, fun _ row hrow hstate => ⟨row, hrow, hstate, rfl⟩⟩

/-- An upsert that leaves a row of another state. -/
theorem upsert_leaves {cut : ℕ} {set : CheckpointRow → CheckpointRow}
    (h : ∀ row, (set row).state ∉ [.trimming, .trimmed]) :
    Leaves ledger (ledger.upsert checkpoint cut set) := by
  refine { Leaves.refl ledger with marks := fun checkpoint' row hrow hstate => ?_ }
  rw [upsert, TreeMap.get_insert] at hrow
  split at hrow
  · obtain rfl := Option.some.inj hrow
    exact absurd hstate (h _)
  · exact ⟨row, hrow, hstate, rfl⟩

theorem finishTrim_leaves (ledger : Ledger) (checkpoint : String) :
    Leaves ledger (ledger.finishTrim checkpoint) := by
  unfold finishTrim
  split
  case h_2 => exact .refl ledger
  case h_1 row hget =>
    split
    case isFalse => exact .refl ledger
    case isTrue htrimming =>
      refine { Leaves.refl ledger with marks := fun checkpoint' row' hrow hstate => ?_ }
      rw [setCheckpointState, upsert, TreeMap.get_insert] at hrow
      split at hrow
      case isTrue heq =>
        subst heq
        obtain rfl := Option.some.inj hrow
        exact ⟨row, hget, by simp [htrimming], by rw [hget]; rfl⟩
      case isFalse => exact ⟨row', hrow, hstate, rfl⟩

theorem resumeCheckpoints_leaves (ledger : Ledger) : Leaves ledger ledger.resumeCheckpoints := by
  refine { Leaves.refl ledger with marks := fun checkpoint row hrow hstate => ?_ }
  rw [resumeCheckpoints, TreeMap.get_map, Option.map_eq_some_iff] at hrow
  obtain ⟨row', hget, hset⟩ := hrow
  refine ⟨row', hget, ?_⟩
  split at hset
  · subst hset
    simp at hstate
  · subst hset
    exact ⟨hstate, rfl⟩

theorem other_leaves (checkpointName : ℕ → String) (origin : String) (event : LedgerEvent) :
    Leaves ledger (event.other checkpointName origin ledger) := by
  unfold LedgerEvent.other
  cases event with
  | write tables => exact { Leaves.refl ledger with }
  | recordSealed => exact upsert_leaves fun _ => by simp
  | recordVerified => exact upsert_leaves fun _ => by simp
  | applyStable claims =>
    dsimp only
    split
    · exact upsert_leaves fun _ => by simp
    · exact .refl ledger
  | adopt => exact .refl ledger
  | restore => exact .refl ledger
  | finish checkpoint => exact ledger.finishTrim_leaves checkpoint
  | stop =>
    unfold stopTrim
    exact upsert_leaves fun _ => by simp
  | resume => exact ledger.resumeCheckpoints_leaves

theorem Kept.leaves (h : ledger.Kept H text) {after : Ledger} (hleaves : Leaves ledger after) :
    after.Kept H text := by
  refine ⟨?_, ?_, fun checkpoint cut hnewest => ?_⟩
  · rw [Tables.droppedIds, hleaves.claims]
    exact h.once
  · rw [hleaves.newest, hleaves.envelopes, hleaves.claims]
    exact h.fresh
  · rw [hleaves.newest] at hnewest
    have hholds := h.holds checkpoint cut hnewest
    refine ⟨?_, ?_, ?_, fun row hrow hstate => ?_⟩
    · rw [hleaves.envelopes, hleaves.envelopeCheckpoint]
      exact hholds.envelopes
    · rw [hleaves.claims, hleaves.claimCheckpoint]
      exact hholds.claims
    · rw [Tables.droppedKeys, hleaves.claims, hleaves.envelopes]
      exact hholds.within
    · obtain ⟨row', hrow', hstate', hsame⟩ := hleaves.marks checkpoint row hrow hstate
      rw [← hsame, hleaves.envelopes, hleaves.claims]
      exact hholds.digest row' hrow' hstate'

end Ledger

/-! ### Runs -/

section

variable (checkpointName : ℕ → String) (origin : String) (H : Hasher) (text : H.Digest → String)
  (registry : Registry)

/-- The drop that an event applies, if any, fits the ledger it is applied to. -/
def LedgerEvent.Fits (ledger : Ledger) (event : LedgerEvent) : Prop :=
  ∀ drop ∈ event.drop checkpointName origin H text registry ledger, drop.Fits ledger

instance LedgerEvent.decidableFits (ledger : Ledger) (event : LedgerEvent) :
    Decidable (event.Fits checkpointName origin H text registry ledger) :=
  inferInstanceAs (Decidable (∀ drop ∈ event.drop checkpointName origin H text registry ledger,
    drop.Fits ledger))

variable {checkpointName origin H text registry}

theorem ok_of_toOption_join {ε α : Type*} {x : Except ε (Option α)} {a : α}
    (h : x.toOption.join = some a) : x = .ok (some a) := by
  cases x with
  | error => cases h
  | ok inner => exact congrArg Except.ok h

/-- One event keeps what a ledger keeps. -/
theorem Ledger.Kept.apply {ledger : Ledger} {event : LedgerEvent} (h : ledger.Kept H text)
    (hfits : event.Fits checkpointName origin H text registry ledger) :
    (ledger.apply checkpointName origin H text registry event).Kept H text := by
  unfold Ledger.apply
  cases hdrop : event.drop checkpointName origin H text registry ledger with
  | none => exact h.leaves (Ledger.other_leaves checkpointName origin event)
  | some drop =>
    have hdropFits := hfits drop hdrop
    cases event with
    | applyStable claims =>
      simp only [LedgerEvent.drop] at hdrop
      split at hdrop
      · exact h.own hdrop hdropFits
      · cases hdrop
    | adopt claims manifest => exact h.adopted (ok_of_toOption_join hdrop) hdropFits
    | restore claims manifest =>
      have hrestored := ok_of_toOption_join hdrop
      unfold Ledger.restoredDrop at hrestored
      split at hrestored
      · cases hrestored
      · exact h.adopted hrestored hdropFits
    | write | recordSealed | recordVerified | finish | stop | resume => cases hdrop

/-- A ledger before any checkpoint is applied. -/
theorem Ledger.kept_start (tables : Tables) (henvelopes : tables.checkpointEnvelopes = [])
    (hclaims : tables.checkpointClaims = []) : Ledger.Kept H text { tables := tables } :=
  ⟨by simp [Tables.droppedIds, hclaims], fun _ => ⟨henvelopes, hclaims⟩, nofun⟩

end

/-! ### Two certificates of one cut -/

/-- The bytes of a transcript, as a text. -/
def transcriptText (digest : Replication.transcript.Digest) : String :=
  String.ofList ((digest.getD []).flatten.map fun byte => Char.ofNat byte.toNat)

/-- An envelope of writer `a`. -/
def droppedEnvelope (sequence : ℕ) (hash : String) : EnvelopeTombstone := ⟨"a", sequence, hash, 10⟩

/-- A claim that is dropped with an envelope of writer `a`. -/
def droppedClaim (id : String) (sequence : ℕ) (hash : String) : ClaimTombstone :=
  ⟨id, "a", sequence, hash, "daemon/a", "daemon.diagnostic", none, [], none, none, 10⟩

def manifestOf (envelopes : List EnvelopeTombstone) (claims : List ClaimTombstone) :
    CheckpointManifest :=
  ⟨"checkpoint/1", 100, envelopes, claims⟩

/-- The digest that certifies a manifest. -/
def CheckpointManifest.certified (manifest : CheckpointManifest) : String :=
  transcriptText (dropDigest Replication.transcript manifest.envelopes manifest.claims)

/-- Every participant verifies the manifest. -/
def verifications (participants : List String) (manifest : CheckpointManifest) :
    List CheckpointClaim :=
  participants.map fun writer =>
    ⟨"verified/" ++ writer, .verified, "checkpoint/1", writer, none,
      (SealTerms.mk 100 participants "" "").verificationFields
        ⟨manifest.certified, manifest.envelopes.length, manifest.claims.length, "", "", ""⟩ ""⟩

/-- One side of a partition drops the claim `c1` with the writer's first envelope. -/
def oneSide : CheckpointManifest := manifestOf [droppedEnvelope 1 "h1"] [droppedClaim "c1" 1 "h1"]

/-- The other side has the claim in another envelope. -/
def otherSide : CheckpointManifest := manifestOf [droppedEnvelope 2 "h2"] [droppedClaim "c1" 2 "h2"]

/-- The other side drops one more claim. -/
def bothEnvelopes : CheckpointManifest :=
  manifestOf [droppedEnvelope 1 "h1", droppedEnvelope 2 "h2"]
    [droppedClaim "c1" 1 "h1", droppedClaim "c2" 2 "h2"]

/-- A node that was on side `x` adopts its manifest, and then that of the larger side. -/
def switchSides (second : CheckpointManifest) : List LedgerEvent :=
  let early := verifications ["x"] oneSide
  [.adopt early oneSide, .finish "checkpoint/1",
    .adopt (early ++ verifications ["y", "z"] second) second, .finish "checkpoint/1"]

def runLedger (events : List LedgerEvent) : Ledger :=
  events.foldl (Ledger.apply (fun _ => "checkpoint/1") "n" Replication.transcript transcriptText
    diagnosticSchema) { tables := {} }

end SmallTalk.Checkpoint
