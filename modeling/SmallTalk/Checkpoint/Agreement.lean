import SmallTalk.Checkpoint.Sound
import SmallTalk.Checkpoint.Store

/-!
# Checkpoint — when two nodes plan the same drop

Members agree on a checkpoint by the digests of their plans. A plan reads four things of a sealed
set: the claims in canonical order with their envelopes, the identities of the envelopes, the
guards, and whether an envelope's sealed claims are all its records. Two sealed sets that agree on
those have the same digests (`Alike.digests`).

Two nodes that hold the same envelopes agree on the identities. They need not agree on the rest:
sealing a local batch writes records for its claims only, admitting the envelope of a peer writes
them for its blobs too, and a guard reads repairs and projections of the whole log.

* `blob_records_split_plans`: the same envelopes, and different drops.
-/

namespace SmallTalk.Checkpoint

open Replication (Hasher)

variable (facts : List (String × Json))
open Clearing List Sorted

/-! ### Sealed sets that lead to one plan -/

/-- The sealed claims of the claim's envelope are all its records. -/
def SealedSet.Complete (sealed : SealedSet) (i : sealed.Index) : Prop :=
  sealed.records (sealed.envelope i) = some (sealed.claimsOf (sealed.envelope i))

instance (sealed : SealedSet) (i : sealed.Index) : Decidable (sealed.Complete i) :=
  inferInstanceAs (Decidable (_ = _))

/-- Two sealed sets agree on what `planDrops` reads. Guards and record counts matter for the
claims that the rules mark. -/
structure Alike (registry : Registry) (a b : SealedSet) : Prop where
  cut : a.cutUnixMs = b.cutUnixMs
  identities : (a.envelopes.map fun e => (e.key, e.acceptedAtUnixMs)) =
    b.envelopes.map fun e => (e.key, e.acceptedAtUnixMs)
  rows : (List.ofFn fun i => (a.row i, a.envelope i)) = List.ofFn fun i => (b.row i, b.envelope i)
  envelopeTombstones : ∀ d, d ∈ a.envelopeTombstones ↔ d ∈ b.envelopeTombstones
  claimTombstones : ∀ d, d ∈ a.claimTombstones ↔ d ∈ b.claimTombstones
  guards : ∀ (i : a.Index) (j : b.Index), (i : ℕ) = j → i ∈ ruled a.row a.cutUnixMs →
    a.guarded registry i = b.guarded registry j
  complete : ∀ (i : a.Index) (j : b.Index), (i : ℕ) = j → i ∈ ruled a.row a.cutUnixMs →
    (a.Complete i ↔ b.Complete j)

section

variable {n : ℕ} {registry : Registry} {row : Fin n → ClaimRecord} {envelope : Fin n → EnvelopeKey}

/-- The loop asks of the record counts only which envelopes with marked claims are complete. -/
theorem settle_round_congr {records records' : EnvelopeKey → Option ℕ} {flags : Finset (Fin n)}
    (h : ∀ i ∈ flags,
      (records (envelope i) = some ((List.finRange n).countP fun j => envelope j = envelope i) ↔
        records' (envelope i) = some ((List.finRange n).countP fun j => envelope j = envelope i))) :
    settle (round registry row envelope records) flags =
      settle (round registry row envelope records') flags := by
  refine settle_congr (Step.AgreeBelow.andThen (fun s _ => rfl) (.each fun group hgroup => ?_))
  refine .clear fun d hd => ?_
  by_cases hany : group.2.any (· ∈ d) = true
  · obtain ⟨i, hi, hid⟩ := any_eq_true.mp hany
    have hkey : envelope i = group.1 := Option.some.inj ((mem_group hgroup).mp hi).2
    have hlength := group_length hgroup (fun j => envelope j = group.1) fun j => by simp
    have hcomplete := h i (hd (of_decide_eq_true hid))
    rw [hkey, ← hlength] at hcomplete
    rwa [hany, Bool.and_true, Bool.and_true, decide_eq_decide, not_iff_not]
  · rw [Bool.eq_false_iff.mpr hany, Bool.and_false, Bool.and_false]

end

theorem claimTombstone_congr {c c' : SealedClaim} (hclaim : c.claim = c'.claim)
    (henvelope : c.envelope = c'.envelope) : claimTombstone c = claimTombstone c' := by
  simp only [claimTombstone, hclaim, henvelope]

/-- The tombstones of the envelopes with given keys, from their identities. -/
theorem envelopeTombstones_eq (envelopes : List SealedEnvelope) (keys : List EnvelopeKey) :
    (envelopes.filter (·.key ∈ keys)).map envelopeTombstone =
      ((envelopes.map fun e => (e.key, e.acceptedAtUnixMs)).filter (·.1 ∈ keys)).map
        fun id => ⟨id.1.writer, id.1.sequence, id.1.hash, id.2⟩ := by
  rw [filter_map, map_map]
  rfl

theorem dropDigest_congr (H : Hasher) {es es' : List EnvelopeTombstone} {cs cs' : List ClaimTombstone}
    (he : ∀ d, d ∈ es ↔ d ∈ es') (hc : ∀ d, d ∈ cs ↔ d ∈ cs') :
    dropDigest H es cs = dropDigest H es' cs' := by
  unfold dropDigest
  rw [sortedSet_congr he, sortedSet_congr hc]

/-- **Sealed sets that agree on what a plan reads** have the same digests. -/
theorem Alike.digests {registry : Registry} {a b : SealedSet} (h : Alike registry a b)
    (H : Hasher) :
    (planDrops H registry a).dropDigest = (planDrops H registry b).dropDigest ∧
      (planDrops H registry a).retainedDigest = (planDrops H registry b).retainedDigest ∧
      (planDrops H registry a).sealedDigest = (planDrops H registry b).sealedDigest := by
  obtain ⟨hcut, hids, hrows, het, hct, hguards, hcomplete⟩ := h
  obtain ⟨cut, ea, n, ca, ta, sa, da⟩ := a
  obtain ⟨cut', eb, m, cb, tb, sb, db⟩ := b
  obtain rfl : n = m := by simpa using congrArg List.length hrows
  obtain rfl : cut = cut' := hcut
  let a : SealedSet := ⟨cut, ea, n, ca, ta, sa, da⟩
  let b : SealedSet := ⟨cut, eb, n, cb, tb, sb, db⟩
  have hpoint : ∀ i : Fin n, a.row i = b.row i ∧ a.envelope i = b.envelope i :=
    fun i => Prod.mk.inj (congrFun (ofFn_injective hrows) i)
  have hrow : a.row = b.row := funext fun i => (hpoint i).1
  have henvelope : a.envelope = b.envelope := funext fun i => (hpoint i).2
  have hmarked : a.marked registry = b.marked registry := by
    show (ruled a.row cut).filter _ = (ruled b.row cut).filter _
    rw [← hrow]
    exact Finset.filter_congr fun i hi => by rw [hguards i i rfl hi]
  have hdropped : a.dropped registry = b.dropped registry := by
    show settle (round registry a.row a.envelope a.records) (a.marked registry) =
      settle (round registry b.row b.envelope b.records) (b.marked registry)
    rw [← hmarked, ← hrow, ← henvelope]
    refine settle_round_congr fun i hi => ?_
    have hi : a.Complete i ↔ b.Complete i := hcomplete i i rfl (Finset.mem_filter.mp hi).1
    simp only [SealedSet.Complete, SealedSet.claimsOf, ← henvelope] at hi
    exact hi
  have htombstones : (fun i => claimTombstone (a.claims i)) = fun i => claimTombstone (b.claims i) :=
    funext fun i => claimTombstone_congr (hpoint i).1 (hpoint i).2
  have hclaims : (planDrops H registry a).claims = (planDrops H registry b).claims := by
    show sortedSet (((first a.row).filter (· ∈ a.dropped registry)).map _) =
      sortedSet (((first b.row).filter (· ∈ b.dropped registry)).map _)
    rw [hrow, hdropped, htombstones]
  have henvelopes : (planDrops H registry a).envelopes = (planDrops H registry b).envelopes := by
    simp only [planDrops, envelopeTombstones_eq]
    show sortedSet (((ea.map _).filter _).map _) = sortedSet (((eb.map _).filter _).map _)
    rw [hids, henvelope, hdropped]
  refine ⟨dropDigest_congr H (fun d => ?_) fun d => ?_, ?_, ?_⟩
  · rw [mem_append, mem_append]
    exact or_congr (het d) (iff_of_eq (congrArg (d ∈ ·) henvelopes))
  · rw [mem_append, mem_append]
    exact or_congr (hct d) (iff_of_eq (congrArg (d ∈ ·) hclaims))
  · show retainedDigest H (((first a.row).filter (· ∉ a.dropped registry)).map _) =
      retainedDigest H (((first b.row).filter (· ∉ b.dropped registry)).map _)
    rw [hrow, hdropped]
  · have hkeys := congrArg (List.map Prod.fst) hids
    rw [map_map, map_map] at hkeys
    show H.replicationIdentityDigest _ (sortedSet (ea.map _)) =
      H.replicationIdentityDigest _ (sortedSet (eb.map _))
    exact congrArg (fun keys => H.replicationIdentityDigest _ (sortedSet keys)) hkeys

/-! ### Two logs -/

/-- The two nodes hold the same envelopes dated before the cut, and the same tombstones. -/
structure SameHoldings (cut : ℕ) (A B : Tables) : Prop where
  envelopes : ∀ key accepted, accepted < cut →
    ((∃ row ∈ A.envelopes, row.key = key ∧ row.acceptedAtUnixMs = accepted) ↔
      ∃ row ∈ B.envelopes, row.key = key ∧ row.acceptedAtUnixMs = accepted)
  envelopeTombstones : ∀ d, d ∈ A.checkpointEnvelopes ↔ d ∈ B.checkpointEnvelopes
  claimTombstones : ∀ d, d ∈ A.checkpointClaims ↔ d ∈ B.checkpointClaims

namespace Tables

/-- The joined rows of the envelopes dated before the cut. -/
def joinedBefore (t : Tables) (cut : ℕ) : List JoinedRow :=
  t.joined.filter fun row => ∃ e ∈ t.envelopes, e.key = row.envelope ∧ e.acceptedAtUnixMs < cut

/-- A row's place in the order, its claim and its envelope. -/
def JoinedRow.content (row : JoinedRow) : CanonicalKey × ClaimRecord × EnvelopeKey :=
  (row.order, row.claim, row.envelope)

def keysBefore (t : Tables) (cut : ℕ) : List EnvelopeKey :=
  (t.rowsBefore cut none).map EnvelopeRow.key

variable {t : Tables} {cut : ℕ}

theorem rowid_le_maxRowid {row : EnvelopeRow} (h : row ∈ t.envelopes) : row.rowid ≤ t.maxRowid :=
  (foldr_max_le_iff.mp le_rfl).2 _ (mem_map_of_mem h)

theorem mem_canonicalRows {row : JoinedRow} : row ∈ t.canonicalRows ↔ row ∈ t.joined :=
  mem_insertionSort _

theorem mem_rowsBefore {row : EnvelopeRow} : row ∈ t.rowsBefore cut none ↔
      row ∈ t.envelopes ∧ row.acceptedAtUnixMs < cut ∧ row.key ∉ t.late cut := by
  rw [rowsBefore, mem_filter, decide_eq_true_eq]
  exact and_congr_right fun h => and_iff_right (rowid_le_maxRowid h)

/-- Which envelopes dated before the cut have a late claim, from the contents of the rows. -/
theorem mem_late_iff {row : EnvelopeRow} (hrow : row ∈ t.envelopes)
    (hbefore : row.acceptedAtUnixMs < cut) :
    row.key ∈ t.late cut ↔ ∃ c ∈ (t.joinedBefore cut).map JoinedRow.content,
      c.2.2 = row.key ∧ cut ≤ c.2.1.acceptedAtUnixMs := by
  simp only [late, mem_map, mem_filter, mem_canonicalRows, decide_eq_true_eq]
  constructor
  · rintro ⟨r, ⟨hr, hlate⟩, hkey⟩
    refine ⟨r.content, ⟨r, mem_filter.mpr ⟨hr, ?_⟩, rfl⟩, hkey, hlate⟩
    exact decide_eq_true ⟨row, hrow, hkey.symm, hbefore⟩
  · rintro ⟨c, ⟨r, hr, rfl⟩, hkey, hlate⟩
    exact ⟨r, ⟨(mem_filter.mp hr).1, hlate⟩, hkey⟩

/-- The rows before the cut are those of envelopes dated before it. -/
theorem filter_joined (t : Tables) (cut : ℕ) :
    ((t.joined.filter fun row => row.envelope ∈ t.keysBefore cut).map JoinedRow.content) =
      ((t.joinedBefore cut).map JoinedRow.content).filter fun c => c.2.2 ∈ t.keysBefore cut := by
  rw [filter_map, joinedBefore, filter_filter]
  congr 1
  refine filter_congr fun row _ => Bool.eq_iff_iff.mpr ?_
  rw [Bool.and_eq_true]
  refine ⟨fun h => ⟨h, ?_⟩, fun h => h.1⟩
  obtain ⟨e, he, hkey⟩ := mem_map.mp (of_decide_eq_true h)
  obtain ⟨hmem, hbefore, -⟩ := mem_rowsBefore.mp he
  exact decide_eq_true ⟨e, hmem, hkey, hbefore⟩

/-- Rows with one place and one envelope have one content: a claim is stored once. -/
theorem content_inj {r r' : JoinedRow} (hr : r ∈ t.joined) (hr' : r' ∈ t.joined)
    (h : r.orderKey = r'.orderKey) : r.content = r'.content := by
  simp only [joined, mem_flatMap, mem_map] at hr hr'
  obtain ⟨claim, hclaim, batch, -, record, -, rfl⟩ := hr
  obtain ⟨claim', hclaim', batch', -, record', -, rfl⟩ := hr'
  obtain ⟨horder, henvelope⟩ := Prod.mk.inj (toLex_inj.mp h)
  have hid : claim.id = claim'.id := by
    simp only [canonicalKey, toLex_inj, Prod.mk.injEq] at horder
    exact horder.2.2.2.2.2
  obtain rfl := inj_on_of_nodup_map t.distinctClaims hclaim hclaim' hid
  exact Prod.ext horder (Prod.ext rfl henvelope)

/-- The contents of the sealed rows, in canonical order. -/
def sealedContents (t : Tables) (cut : ℕ) : List (CanonicalKey × ClaimRecord × EnvelopeKey) :=
  (t.canonicalRows.filter fun row => row.envelope ∈ t.keysBefore cut).map JoinedRow.content

theorem sealedContents_perm (t : Tables) (cut : ℕ) : (t.sealedContents cut).Perm
      (((t.joinedBefore cut).map JoinedRow.content).filter fun c => c.2.2 ∈ t.keysBefore cut) := by
  rw [← filter_joined]
  exact ((perm_insertionSort _ _).filter _).map _

theorem sealedContents_sorted (t : Tables) (cut : ℕ) : (t.sealedContents cut).Pairwise fun c c' =>
      (toLex (c.1, c.2.2) : CanonicalKey ×ₗ EnvelopeKey) ≤ toLex (c'.1, c'.2.2) := by
  refine pairwise_map.mpr ?_
  exact (pairwise_insertionSort (fun a b : JoinedRow => a.orderKey ≤ b.orderKey) _).filter _

theorem content_eq_of_sealedContents {c c' : CanonicalKey × ClaimRecord × EnvelopeKey}
    (hc : c ∈ t.sealedContents cut) (hc' : c' ∈ t.sealedContents cut)
    (h : (toLex (c.1, c.2.2) : CanonicalKey ×ₗ EnvelopeKey) = toLex (c'.1, c'.2.2)) : c = c' := by
  obtain ⟨r, hr, rfl⟩ := mem_map.mp hc
  obtain ⟨r', hr', rfl⟩ := mem_map.mp hc'
  exact content_inj (mem_canonicalRows.mp (mem_filter.mp hr).1)
    (mem_canonicalRows.mp (mem_filter.mp hr').1) h

/-- The rows of the sealed set, from the contents. -/
theorem sealedSet_rows (t : Tables) (cut : ℕ) :
    (List.ofFn fun i => ((t.sealedSetThrough cut none).row i,
        (t.sealedSetThrough cut none).envelope i)) =
      (t.sealedContents cut).map fun c => (c.2.1, c.2.2) := by
  have hrows : ∀ l : List SealedClaim,
      (List.ofFn fun i => ((l.get i).claim, (l.get i).envelope)) =
        l.map fun c => (c.claim, c.envelope) := by
    intro l
    conv_rhs => rw [← ofFn_get l, map_ofFn]
    rfl
  refine (hrows (t.sealedClaims cut none)).trans ?_
  rw [sealedClaims, sealedContents, map_map, map_map]
  rfl

/-- The identities of the sealed envelopes: those before the cut, and those of tombstones. -/
theorem mem_identities {id : EnvelopeKey × ℕ} :
    id ∈ (t.sealedSetThrough cut none).envelopes.map (fun e => (e.key, e.acceptedAtUnixMs)) ↔
      (∃ row ∈ t.rowsBefore cut none, row.key = id.1 ∧ row.acceptedAtUnixMs = id.2) ∨
        ∃ d ∈ t.checkpointEnvelopes, d.acceptedAtUnixMs < cut ∧ d.key ∉ t.keysBefore cut ∧
          d.key = id.1 ∧ d.acceptedAtUnixMs = id.2 := by
  simp only [sealedSetThrough, sealedEnvelopes, droppedBefore, keysBefore, mem_map,
    mem_insertionSort, mem_append, mem_filter, decide_eq_true_eq, Prod.ext_iff]
  constructor
  · rintro ⟨e, ⟨row, hrow, rfl⟩ | ⟨d, ⟨hd, hcut, hkey⟩, rfl⟩, h⟩
    · exact .inl ⟨row, hrow, h⟩
    · exact .inr ⟨d, hd, hcut, hkey, h⟩
  · rintro (⟨row, hrow, h⟩ | ⟨d, hd, hcut, hkey, h⟩)
    · exact ⟨_, .inl ⟨row, hrow, rfl⟩, h⟩
    · exact ⟨_, .inr ⟨d, ⟨hd, hcut, hkey⟩, rfl⟩, h⟩

theorem identities_sorted (t : Tables) (cut : ℕ) :
    ((t.sealedSetThrough cut none).envelopes.map fun e => (e.key, e.acceptedAtUnixMs)).Pairwise
      fun a b => a.1 < b.1 := by
  refine pairwise_map.mpr ?_
  have hle := pairwise_insertionSort (fun a b : SealedEnvelope => a.key ≤ b.key)
    (t.sealedEnvelopes cut none)
  have hne := pairwise_map.mp (t.sealedSetThrough cut none).distinct
  exact (hle.and hne).imp fun h => lt_of_le_of_ne h.1 h.2

end Tables

/-- The two logs agree on what a plan reads of the envelopes dated before the cut: the claims in
their places, less repaired ones; and, of the claims that the rules mark, which are guarded and
which are in an envelope whose sealed claims are all its records. -/
structure AgreeBefore (registry : Registry) (cut : ℕ) (A B : Tables) : Prop where
  rows : ((A.joinedBefore cut).map Tables.JoinedRow.content).Perm
    ((B.joinedBefore cut).map Tables.JoinedRow.content)
  guards : ∀ (i : (A.sealedSetThrough cut none).Index) (j : (B.sealedSetThrough cut none).Index),
    (i : ℕ) = j → i ∈ ruled (A.sealedSetThrough cut none).row cut →
      (A.sealedSetThrough cut none).guarded registry i =
        (B.sealedSetThrough cut none).guarded registry j
  complete : ∀ (i : (A.sealedSetThrough cut none).Index) (j : (B.sealedSetThrough cut none).Index),
    (i : ℕ) = j → i ∈ ruled (A.sealedSetThrough cut none).row cut →
      ((A.sealedSetThrough cut none).Complete i ↔ (B.sealedSetThrough cut none).Complete j)

section

variable {registry : Registry} {cut : ℕ} {A B : Tables} (hsame : SameHoldings cut A B)
  (hagree : AgreeBefore registry cut A B)

include hsame hagree

theorem rowsBefore_agree {key : EnvelopeKey} {accepted : ℕ} :
    (∃ row ∈ A.rowsBefore cut none, row.key = key ∧ row.acceptedAtUnixMs = accepted) ↔
      ∃ row ∈ B.rowsBefore cut none, row.key = key ∧ row.acceptedAtUnixMs = accepted := by
  have hone : ∀ {A B : Tables}, SameHoldings cut A B →
      ((A.joinedBefore cut).map Tables.JoinedRow.content).Perm
        ((B.joinedBefore cut).map Tables.JoinedRow.content) →
      (∃ row ∈ A.rowsBefore cut none, row.key = key ∧ row.acceptedAtUnixMs = accepted) →
      ∃ row ∈ B.rowsBefore cut none, row.key = key ∧ row.acceptedAtUnixMs = accepted := by
    rintro A B hsame hrows ⟨row, hrow, rfl, rfl⟩
    obtain ⟨hmem, hcut, hlate⟩ := Tables.mem_rowsBefore.mp hrow
    obtain ⟨row', hmem', hkey, hat⟩ := (hsame.envelopes row.key _ hcut).mp ⟨row, hmem, rfl, rfl⟩
    refine ⟨row', Tables.mem_rowsBefore.mpr ⟨hmem', hat ▸ hcut, fun hlate' => hlate ?_⟩, hkey, hat⟩
    obtain ⟨c, hc, hckey, hclate⟩ := (Tables.mem_late_iff hmem' (hat ▸ hcut)).mp hlate'
    exact (Tables.mem_late_iff hmem hcut).mpr ⟨c, hrows.mem_iff.mpr hc, hckey.trans hkey, hclate⟩
  have hsymm : SameHoldings cut B A :=
    ⟨fun key accepted h => (hsame.envelopes key accepted h).symm,
      fun d => (hsame.envelopeTombstones d).symm, fun d => (hsame.claimTombstones d).symm⟩
  exact ⟨hone hsame hagree.rows, hone hsymm hagree.rows.symm⟩

theorem keysBefore_agree {key : EnvelopeKey} : key ∈ A.keysBefore cut ↔ key ∈ B.keysBefore cut := by
  have hkeys : ∀ t : Tables, key ∈ t.keysBefore cut ↔
      ∃ accepted, ∃ row ∈ t.rowsBefore cut none, row.key = key ∧
        row.acceptedAtUnixMs = accepted := by
    intro t
    simp [Tables.keysBefore]
  rw [hkeys, hkeys]
  exact exists_congr fun accepted => rowsBefore_agree hsame hagree

theorem sealedContents_agree : A.sealedContents cut = B.sealedContents cut := by
  have hperm : (A.sealedContents cut).Perm (B.sealedContents cut) := by
    refine (A.sealedContents_perm cut).trans (.trans ?_ (B.sealedContents_perm cut).symm)
    have hfilter := hagree.rows.filter fun c => c.2.2 ∈ A.keysBefore cut
    refine hfilter.trans (.of_eq (filter_congr fun c _ => ?_))
    exact decide_eq_decide.mpr (keysBefore_agree hsame hagree)
  refine hperm.eq_of_pairwise (fun c c' hc hc' hle hle' => ?_) (A.sealedContents_sorted cut)
    (B.sealedContents_sorted cut)
  exact Tables.content_eq_of_sealedContents hc (hperm.mem_iff.mpr hc') (le_antisymm hle hle')

theorem identities_agree :
    ((A.sealedSetThrough cut none).envelopes.map fun e => (e.key, e.acceptedAtUnixMs)) =
      (B.sealedSetThrough cut none).envelopes.map fun e => (e.key, e.acceptedAtUnixMs) := by
  refine eq_of_mem_iff (A.identities_sorted cut) (B.identities_sorted cut) fun id => ?_
  rw [Tables.mem_identities, Tables.mem_identities]
  refine or_congr (rowsBefore_agree hsame hagree) (exists_congr fun d => ?_)
  rw [hsame.envelopeTombstones, keysBefore_agree hsame hagree]

theorem sealedSets_alike :
    Alike registry (A.sealedSetThrough cut none) (B.sealedSetThrough cut none) where
  cut := rfl
  identities := identities_agree hsame hagree
  rows := by rw [A.sealedSet_rows, B.sealedSet_rows, sealedContents_agree hsame hagree]
  envelopeTombstones d := by
    simp only [Tables.sealedSetThrough, mem_filter, hsame.envelopeTombstones]
  claimTombstones d := by
    simp only [Tables.sealedSetThrough, mem_filter, hsame.claimTombstones]
  guards := hagree.guards
  complete := hagree.complete

end

def artifactHash : String := "0123456789abcdef0123456789abcdef0123456789abcdef0123456789abcdef"

/-- An observer's record of a resource, with facts. -/
def observation (sequence : ℕ) : ClaimRecord where
  id := "claim" ++ toString sequence
  batchId := "batch/a/" ++ toString sequence ++ "/header"
  subject := "resource/build"
  kind := "resource.observed"
  origin := "a"
  actor := none
  operationId := none
  body := .obj [("fields", .obj (facts ++ [("observer", .str "observer/ci")]))]
  predecessors := []
  acceptedAtUnixMs := sequence

def observationSchema : Registry where
  claim kind := if kind = "resource.observed" then
    some ⟨.append, {"kind", "state", "observed_at"}⟩ else none

/-- A build whose hashes name what they hash. -/
def sampleBuild : Build where
  envelopeHash _ sequence _ _ _ := "envelope" ++ toString sequence
  headerHash _ _ _ _ := "header"
  blobHash _ := artifactHash
  recordRef key position := key.hash ++ "/" ++ toString position
  claimIdIsContentHash _ := true
  classifyReplicatedClaim _ := .ok .valid

def observationBatch (sequence : ℕ) : ReplicaBatch :=
  ⟨"batch/a/" ++ toString sequence ++ "/header", "a", sequence, none, "header", sequence,
    [observation facts sequence]⟩

/-- The node that observes the resource twice, and holds the artifact. -/
def observerNode : Tables :=
  ({} : Tables).run sampleBuild [.storeBlob artifactHash [], .write (observationBatch facts 1),
    .write (observationBatch facts 2), .sealLocal]

/-- A peer that admits the envelopes of the observer's batches. -/
def peerNode : Tables :=
  ({} : Tables).run sampleBuild ((observerNode facts).batches.map fun batch =>
    .receive ((observerNode facts).sealedEnvelope sampleBuild batch))

theorem SameHoldings.of_eq {cut : ℕ} {A B : Tables}
    (henvelopes : (A.envelopes.map fun row => (row.key, row.acceptedAtUnixMs)) =
      B.envelopes.map fun row => (row.key, row.acceptedAtUnixMs))
    (henvelope : A.checkpointEnvelopes = B.checkpointEnvelopes)
    (hclaim : A.checkpointClaims = B.checkpointClaims) : SameHoldings cut A B where
  envelopes key accepted _ := by
    have hmem : ∀ t : Tables,
        (∃ row ∈ t.envelopes, row.key = key ∧ row.acceptedAtUnixMs = accepted) ↔
          (key, accepted) ∈ t.envelopes.map fun row => (row.key, row.acceptedAtUnixMs) := by
      intro t
      simp
    rw [hmem, hmem, henvelopes]
  envelopeTombstones d := by rw [henvelope]
  claimTombstones d := by rw [hclaim]

end SmallTalk.Checkpoint
