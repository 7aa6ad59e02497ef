import SmallTalk.Checkpoint.Sound
import SmallTalk.Principal.Recheck

/-!
# Principal — verdicts after a checkpoint trim

A trim deletes the claim rows a drop plan names and keeps their signatures. No rule drops a key
grant or a revocation, so a judgement reads a dropped claim in one place only: to see whether its
own key and nonce were used by an earlier claim, whose place in the canonical order is gone with
its row.

* `trimmed_verdicts_iff`: when a node that trimmed agrees with one that did not.
-/

namespace SmallTalk.Principal

open Checkpoint (SealedSet Registry planDrops slotOf)

variable {id : String} {row : ClaimRow}
open List Sample

/-! ### The trim -/

namespace Stored

/-- The store once the rows of the dropped claims are deleted; their signatures stay. -/
def trim (s : Stored) (dropped : List String) : Stored :=
  { s with claims := s.claims.filter (·.id ∉ dropped) }

end Stored

/-- The tables of a node that trimmed. -/
def Tables.trim (t : Tables) (dropped : List String) : Tables :=
  { t with toStored := t.toStored.trim dropped }

variable {b : Scheme} {s : Stored} {dropped : List String} {rank : String → ℕ}

theorem claimRow_trim (id : String) :
    (s.trim dropped).claimRow id = if id ∈ dropped then none else s.claimRow id := by
  unfold Stored.claimRow Stored.trim
  rw [find?_filter]
  by_cases h : id ∈ dropped
  · rw [if_pos h, find?_eq_none]
    rintro row - hrow
    simp only [decide_eq_true_eq, decide_not, Bool.not_eq_true', decide_eq_false_iff_not] at hrow
    exact hrow.1 (hrow.2 ▸ h)
  · rw [if_neg h]
    congr 1
    funext row
    by_cases hid : row.id = id
    · simp [hid, h]
    · simp [hid]

theorem claimRow_trim_of_notMem (h : id ∉ dropped) :
    (s.trim dropped).claimRow id = s.claimRow id := by
  rw [claimRow_trim, if_neg h]

/-- The dropped claims neither grant nor revoke keys. -/
def Inert (s : Stored) (dropped : List String) : Prop :=
  ∀ row ∈ s.claims, row.id ∈ dropped → row.kind ≠ keyGrantedKind ∧ row.kind ≠ keyRevokedKind

section

variable (hi : Inert s dropped)
include hi

theorem grantOf_trim (id : String) : (s.trim dropped).grantOf id = s.grantOf id := by
  unfold Stored.grantOf
  rw [claimRow_trim]
  split
  case isFalse => rfl
  case isTrue h =>
    cases hr : s.claimRow id with
    | none => rfl
    | some row =>
      have hid : row.id = id := claimRow_id hr
      have hkind := (hi row (mem_of_find?_eq_some hr) (hid ▸ h)).1
      simp [hkind]

theorem revocations_trim (principal key : String) :
    (s.trim dropped).revocations principal key = s.revocations principal key := by
  unfold Stored.revocations Stored.trim
  congr 1
  rw [filter_filter]
  refine filter_congr fun row hrow => ?_
  by_cases h : row.id ∈ dropped
  · simp [(hi row hrow h).2]
  · simp only [h, not_false_eq_true, decide_true, Bool.and_true]
    rfl

theorem notMem_of_revokes {principal key other : String}
    (h : other ∈ s.revocations principal key) : other ∉ dropped := by
  obtain ⟨row, hmem, rfl⟩ := mem_map.mp h
  obtain ⟨hclaim, hrevokes⟩ := mem_filter.mp hmem
  simp only [Bool.and_eq_true, decide_eq_true_eq] at hrevokes
  exact fun hd => (hi row hclaim hd).2 hrevokes.1.1.2

theorem notMem_of_grants (h : (s.grantOf id).isSome) : id ∉ dropped := by
  intro hd
  rw [← grantOf_trim hi, Stored.grantOf, claimRow_trim, if_pos hd] at h
  cases h

omit hi in
theorem before_trim {other : String} (h : other ∉ dropped) (row : ClaimRow) :
    (s.trim dropped).before other row = s.before other row := by
  simp only [Stored.before, claimRow_trim_of_notMem h]

/-- The revocations a judgement reads stand where they stood. -/
theorem filter_revocations_trim (row : ClaimRow) (principal key : String) :
    ((s.trim dropped).revocations principal key).filter
        (fun r => r ≠ row.id && (s.trim dropped).before r row) =
      (s.revocations principal key).filter fun r => r ≠ row.id && s.before r row := by
  rw [revocations_trim hi]
  exact filter_congr fun other ho => by rw [before_trim (notMem_of_revokes hi ho)]

theorem reliedOn_trim (h : id ∉ dropped) : (s.trim dropped).reliedOn id = s.reliedOn id := by
  have hsig : (s.trim dropped).storedSignature id = s.storedSignature id := rfl
  unfold Stored.reliedOn
  rw [claimRow_trim_of_notMem h, hsig]
  cases s.claimRow id with
  | none => rfl
  | some row =>
    cases s.storedSignature id with
    | none => rfl
    | some sig =>
      dsimp only
      congr 1
      funext link
      rw [grantOf_trim hi]
      cases s.grantOf link with
      | none => rfl
      | some granted =>
        dsimp only
        rw [filter_revocations_trim hi]

theorem notMem_of_reliedOn {id other : String} (h : other ∈ s.reliedOn id) : other ∉ dropped := by
  unfold Stored.reliedOn at h
  split at h
  case h_2 => cases h
  case h_1 row sig _ _ =>
    obtain ⟨link, -, h⟩ := mem_flatMap.mp h
    cases hg : s.grantOf link with
    | none => simp [hg] at h
    | some granted =>
      rw [hg] at h
      rcases mem_cons.mp h with rfl | h
      · exact notMem_of_grants hi (by simp [hg])
      · exact notMem_of_revokes hi (mem_filter.mp h).1

theorem leveled_trim (hr : Leveled s rank) : Leveled (s.trim dropped) rank := by
  refine ⟨fun id other ho => ?_, hr.2⟩
  by_cases h : id ∈ dropped
  · have hrow : (s.trim dropped).claimRow id = none := by rw [claimRow_trim, if_pos h]
    simp [Stored.reliedOn, hrow] at ho
  · exact hr.1 id other (reliedOn_trim hi h ▸ ho)

/-- A trim changes no answer but about nonces. -/
theorem answers_trim {verdict : String → Verdict} {q : Question}
    (h : ∀ key nonce, q = .nonceUsedBefore key nonce →
      (s.trim dropped).nonceUsed row key nonce = s.nonceUsed row key nonce) :
    (answers s row verdict).answer q = (answers (s.trim dropped) row verdict).answer q := by
  cases q with
  | delegation id => simp only [Facts.answer, answers, grantOf_trim hi]
  | isRoot subject key => rfl
  | revokedBefore principal key =>
    show List.any _ _ = List.any _ _
    rw [filter_revocations_trim hi]
    rfl
  | nonceUsedBefore key nonce => exact (h key nonce rfl).symm

end

/-! ### Nonces -/

/-- An earlier claim that is here carries the key and nonce. -/
def UsedBy (s : Stored) (row : ClaimRow) (sig : ClaimSignature) (other : String) : Prop :=
  ∃ used, (other, used) ∈ s.signatures ∧ used.key = sig.key ∧ used.nonce = sig.nonce ∧
    other ≠ row.id ∧ s.before other row = true

theorem nonceUsed_iff {sig : ClaimSignature} :
    s.nonceUsed row sig.key sig.nonce = true ↔ ∃ other, UsedBy s row sig other := by
  simp only [Stored.nonceUsed, any_eq_true, Prod.exists, Bool.and_eq_true, decide_eq_true_eq,
    UsedBy, and_assoc]

theorem nonceUsed_trim_iff {sig : ClaimSignature} :
    (s.trim dropped).nonceUsed row sig.key sig.nonce = true ↔
      ∃ other ∉ dropped, UsedBy s row sig other := by
  rw [nonceUsed_iff]
  constructor
  · rintro ⟨other, used, hmem, hkey, hnonce, hne, hbefore⟩
    have hkept : other ∉ dropped := by
      intro hd
      simp [Stored.before, claimRow_trim, hd] at hbefore
    exact ⟨other, hkept, used, hmem, hkey, hnonce, hne, before_trim hkept row ▸ hbefore⟩
  · rintro ⟨other, hkept, used, hmem, hkey, hnonce, hne, hbefore⟩
    exact ⟨other, used, hmem, hkey, hnonce, hne, (before_trim hkept row).symm ▸ hbefore⟩

/-- Wherever a dropped claim used a nonce before a kept claim with a matching signature, a kept
claim did too. -/
def NoncesKept (b : Scheme) (s : Stored) (dropped : List String) : Prop :=
  ∀ id ∉ dropped, ∀ row sig, s.claimRow id = some row → s.storedSignature id = some sig →
    sig.verifies b.toVerifier (row.judged b) = true →
      (∃ other ∈ dropped, UsedBy s row sig other) → ∃ other ∉ dropped, UsedBy s row sig other

theorem NoncesKept.nonceUsed (h : NoncesKept b s dropped) (hid : id ∉ dropped)
    {sig : ClaimSignature} (hr : s.claimRow id = some row) (hs : s.storedSignature id = some sig)
    (hv : sig.verifies b.toVerifier (row.judged b) = true) :
    (s.trim dropped).nonceUsed row sig.key sig.nonce = s.nonceUsed row sig.key sig.nonce := by
  rw [Bool.eq_iff_iff, nonceUsed_trim_iff, nonceUsed_iff]
  constructor
  · rintro ⟨other, -, hu⟩
    exact ⟨other, hu⟩
  · rintro ⟨other, hu⟩
    by_cases hd : other ∈ dropped
    · exact h id hid row sig hr hs hv ⟨other, hd, hu⟩
    · exact ⟨other, hd, hu⟩

/-! ### A nonce used before -/

/-- The verdict of a claim whose key and nonce an earlier claim used. -/
def reused : Verdict := .invalid "the signature was used by an earlier claim"

theorem ne_reused {reason : String} (h : reason ≠ "the signature was used by an earlier claim") :
    Verdict.invalid reason ≠ reused := fun heq => h (Verdict.invalid.inj heq)

theorem lead_ne_reused (lead : String) {name rest : String}
    (h : startsWith lead "the signature was used by an earlier claim" = false) :
    Verdict.invalid (lead ++ name ++ rest) ≠ reused := by
  refine ne_reused fun heq => ?_
  rw [← heq, startsWith, String.append_assoc, String.toList_append] at h
  simp [ isPrefixOf_iff_prefix, ← Bool.not_eq_true] at h

section

variable {v : Verifier} {claim : Judged} {sig : ClaimSignature} {facts : Facts Id}

theorem judge_reused (hv : sig.verifies v claim = true)
    (hn : facts.nonceUsedBefore sig.key sig.nonce = true) :
    judge v claim (some sig) facts = reused := by
  simp only [judge, hv, Bool.true_eq_false, if_false, bind, hn, if_true]
  rfl

theorem grantRefusal_ne_reused {family : Family} {reason : String}
    (h : grantRefusal claim sig family = some reason) : Verdict.invalid reason ≠ reused := by
  unfold grantRefusal at h
  cases hg : KeyGrant.fromFields claim.fields with
  | none =>
    rw [hg] at h
    obtain rfl := Option.some.inj h
    exact ne_reused (by decide +kernel)
  | some grant =>
    rw [hg] at h
    dsimp only at h
    split at h
    case isFalse =>
      obtain rfl := Option.some.inj h
      exact ne_reused (by decide +kernel)
    case isTrue =>
      cases hf : Family.of claim.subject with
      | none =>
        rw [hf] at h
        obtain rfl := Option.some.inj h
        exact lead_ne_reused "`" (by decide +kernel)
      | some subjectFamily =>
        rw [hf] at h
        dsimp only at h
        split at h
        · cases h
        · obtain rfl := Option.some.inj h
          simp only [String.append_assoc]
          rw [← String.append_assoc]
          exact lead_ne_reused "a " (by decide +kernel)

theorem speaker_ne_reused {reason : String} (h : speaker claim sig = .error reason) :
    Verdict.invalid reason ≠ reused := by
  unfold speaker at h
  split at h
  case isTrue =>
    cases h
    exact ne_reused (by decide +kernel)
  case isFalse =>
    cases hf : Family.of sig.signer with
    | none =>
      rw [hf] at h
      cases h
      exact lead_ne_reused "`" (by decide +kernel)
    | some family =>
      rw [hf] at h
      dsimp only at h
      split at h
      · cases hg : grantRefusal claim sig family with
        | none =>
          rw [hg] at h
          cases h
        | some reason' =>
          rw [hg] at h
          cases h
          exact grantRefusal_ne_reused hg
      · cases h

theorem linkRefusal_ne_reused {family : Family} {index : ℕ} {id principal key reason : String}
    {d : Delegation} (h : linkRefusal claim family index id d principal key = some reason) :
    Verdict.invalid reason ≠ reused := by
  unfold linkRefusal at h
  split at h
  · cases h
    exact lead_ne_reused "delegation " (by decide +kernel)
  split at h
  · split at h
    · cases h
      exact lead_ne_reused "a " (by decide +kernel)
    · cases h
  split at h
  · cases h
    exact lead_ne_reused "delegation " (by decide +kernel)
  · cases h

theorem walk_ne_reused {family : Family} {index : ℕ} {ids : List String} {principal key : String} :
    walk claim family facts index ids principal key ≠ reused := by
  induction ids generalizing index principal key with
  | nil => exact ne_reused (by decide +kernel)
  | cons id rest ih =>
    rw [walk]
    simp only [bind, pure]
    cases facts.delegation id with
    | none => exact nofun
    | some d =>
      dsimp only
      cases hl : linkRefusal claim family index id d principal key with
      | some reason => exact linkRefusal_ne_reused hl
      | none =>
        dsimp only
        split
        · exact lead_ne_reused "the key of `" (by decide +kernel)
        cases d.verdict with
        | held reason => exact nofun
        | unsigned => exact lead_ne_reused "delegation " (by decide +kernel)
        | invalid reason =>
          dsimp only
          rw [String.append_assoc]
          exact lead_ne_reused "delegation " (by decide +kernel)
        | verified =>
          dsimp only
          split
          · split
            · exact nofun
            · exact ne_reused (by decide +kernel)
          · exact ih

/-- Only a used nonce is judged as one. -/
theorem judge_ne_reused (hn : facts.nonceUsedBefore sig.key sig.nonce = false) :
    judge v claim (some sig) facts ≠ reused := by
  unfold judge
  dsimp only
  split
  · exact ne_reused (by decide +kernel)
  simp only [bind, pure, hn, Bool.false_eq_true, if_false]
  cases hs : speaker claim sig with
  | error reason => exact speaker_ne_reused hs
  | ok family =>
    dsimp only
    split
    · split
      · exact ne_reused (by decide +kernel)
      · split
        · exact nofun
        · exact nofun
    · unfold judgeChain
      split
      · exact ne_reused (by decide +kernel)
      · exact walk_ne_reused

end

/-! ### Both nodes -/

/-- The nonce question of a judgement is about the claim's own signature, which matches. -/
theorem nonce_asked {verdict : String → Verdict} {id key nonce : String}
    (h : .nonceUsedBefore key nonce ∈ questions b s verdict id) :
    ∃ row sig, s.claimRow id = some row ∧ s.storedSignature id = some sig ∧
      sig.verifies b.toVerifier (row.judged b) = true ∧ key = sig.key ∧ nonce = sig.nonce := by
  unfold questions at h
  cases hr : s.claimRow id with
  | none => simp [hr] at h
  | some row =>
    rw [hr] at h
    cases hs : s.storedSignature id with
    | none =>
      rw [hs] at h
      cases h
    | some sig =>
      rw [hs] at h
      refine ⟨row, sig, rfl, rfl, ?_, asks_inquiry (Dialogue.asks_of_mem_asked answers_fits h)⟩
      by_contra hv
      rw [Bool.not_eq_true] at hv
      simp only [inquiry, judge, hv, if_true] at h
      cases h

/-- Where nonces are kept, the true verdicts of kept claims are the same. -/
theorem truth_trim (hi : Inert s dropped) (hn : NoncesKept b s dropped) (hr : Leveled s rank) (hid : id ∉ dropped) :
    truth b (s.trim dropped) id = truth b s id := by
  induction hm : rank id using Nat.strong_induction_on generalizing id with
  | _ m ih =>
    have htrim : truth b (s.trim dropped) id =
        judgedWith b (s.trim dropped) (truth b (s.trim dropped)) id :=
      value_uncached (leveled_trim hi hr) rfl
    have hfull : truth b s id = judgedWith b s (truth b s) id := value_uncached hr rfl
    rw [htrim, hfull]
    refine (judgedWith_transfer b s (s.trim dropped) (truth b s) (truth b (s.trim dropped))
      (claimRow_trim_of_notMem hid) rfl fun row hrow q hq => ?_).1
    refine (answers_congr fun other ho => ?_).trans (answers_trim hi ?_)
    · have hrelied := reads_subset_reliedOn hrow hq ho
      exact (ih (rank other) (hm ▸ hr.1 id other hrelied) (notMem_of_reliedOn hi hrelied) rfl).symm
    · rintro key nonce rfl
      obtain ⟨row', sig, hrow', hs, hv, rfl, rfl⟩ := nonce_asked hq
      obtain rfl : row' = row := Option.some.inj (hrow'.symm.trans hrow)
      exact hn.nonceUsed hid hrow hs hv

/-- A kept claim whose nonce only dropped claims used before is judged differently. -/
theorem truth_trim_ne (hr : Leveled s rank) (hr' : Leveled (s.trim dropped) rank)
    (hid : id ∉ dropped) {sig : ClaimSignature}
    (hrow : s.claimRow id = some row) (hs : s.storedSignature id = some sig)
    (hv : sig.verifies b.toVerifier (row.judged b) = true)
    (hused : ∃ other ∈ dropped, UsedBy s row sig other)
    (hkept : ¬ ∃ other ∉ dropped, UsedBy s row sig other) :
    truth b (s.trim dropped) id ≠ truth b s id := by
  have hfull : truth b s id = reused := by
    rw [show truth b s id = judgedWith b s (truth b s) id from value_uncached hr rfl,
      judgedWith, hrow, hs]
    obtain ⟨other, -, hu⟩ := hused
    exact judge_reused hv (nonceUsed_iff.mpr ⟨other, hu⟩)
  have hsig : (s.trim dropped).storedSignature id = some sig := hs
  rw [hfull, show truth b (s.trim dropped) id = judgedWith b (s.trim dropped) _ id from
    value_uncached hr' rfl, judgedWith, claimRow_trim_of_notMem hid, hrow, hsig]
  exact judge_ne_reused (Bool.not_eq_true _ ▸ nonceUsed_trim_iff.not.mpr hkept)

/-! ### Drop plans -/

/-- The row a claim of a sealed set has in the store. -/
def ClaimRow.ofRecord (claim : Checkpoint.ClaimRecord) (position : Position) : ClaimRow where
  id := claim.id
  subject := claim.subject
  kind := claim.kind
  actor := claim.actor
  body := claim.body
  position := position

/-- The store has one row for each claim, and the claims of the sealed set among them. -/
structure Holds (s : Stored) (sealed : SealedSet) : Prop where
  unique : (s.claims.map (·.id)).Nodup
  rows : ∀ i, ∃ position, ClaimRow.ofRecord (sealed.row i) position ∈ s.claims

/-- The claims a plan drops. -/
def dropsOf (H : Replication.Hasher) (registry : Registry) (sealed : SealedSet) : List String :=
  (planDrops H registry sealed).claims.map (·.id)

theorem slotOf_key {claim : Checkpoint.ClaimRecord}
    (h : claim.kind = keyGrantedKind ∨ claim.kind = keyRevokedKind) : slotOf claim = none := by
  unfold slotOf
  rcases h with h | h
  · rw [h]
    rfl
  · rw [h]
    rfl

variable {H : Replication.Hasher} {registry : Registry} {sealed : SealedSet}

/-- No rule drops a grant or a revocation. -/
theorem inert_drops (h : Holds s sealed) : Inert s (dropsOf H registry sealed) := by
  intro row hrow hid
  obtain ⟨tombstone, htombstone, hid⟩ := mem_map.mp hid
  obtain ⟨i, hi, hslot⟩ : ∃ i, (sealed.row i).id = row.id ∧ (slotOf (sealed.row i)).isSome := by
    simp only [planDrops, Sorted.mem_sortedSet, mem_map, mem_filter, decide_eq_true_eq]
      at htombstone
    obtain ⟨i, ⟨-, hi⟩, rfl⟩ := htombstone
    exact ⟨i, hid, (SealedSet.dropped_slot hi).2⟩
  obtain ⟨position, hmem⟩ := h.rows i
  have hsame : row = ClaimRow.ofRecord (sealed.row i) position :=
    inj_on_of_nodup_map h.unique hrow hmem hi.symm
  refine ⟨fun hkind => ?_, fun hkind => ?_⟩
  · rw [slotOf_key (.inl (by rwa [hsame] at hkind))] at hslot
    cases hslot
  · rw [slotOf_key (.inr (by rwa [hsame] at hkind))] at hslot
    cases hslot

/-- Where no two signatures share their key and nonce, a trim is not seen. -/
theorem noncesKept_of_distinct
    (h : (s.signatures.map fun entry => (entry.2.key, entry.2.nonce)).Nodup) :
    NoncesKept b s dropped := by
  rintro id - row sig hrow hs - ⟨other, -, used, hmem, hkey, hnonce, hne, -⟩
  obtain ⟨front, back, hsplit, -⟩ := lookup_eq_some_iff.mp hs
  have hself : (id, sig) ∈ s.signatures := by
    rw [hsplit]
    exact mem_append_right _ mem_cons_self
  have hsame := inj_on_of_nodup_map h hmem hself (by simp [hkey, hnonce])
  exact absurd ((Prod.mk.inj hsame).1.trans (claimRow_id hrow).symm) hne

namespace Sample

/-- A stored report of the daemon. -/
def reportRow (id : String) (place : ℤ) : ClaimRow :=
  .ofRecord (Checkpoint.diagnostic id) [.integer place]

/-- The node's signature of the report, made for one claim. -/
def reportSignature (id : String) : ClaimSignature :=
  sign ((reportRow id 0).judged storeScheme) "host/oak" "oak" []

/-- The two reports, each with its own signature. -/
def reports : Tables :=
  arrived oakRoots [reportRow "c1" 1, reportRow "c2" 2]
    [("c1", reportSignature "c1"), ("c2", reportSignature "c2")]

/-- The reports, and a later copy of the first one with its signature. -/
def replayed : Tables :=
  arrived oakRoots [reportRow "c1" 1, reportRow "c2" 2, reportRow "c3" 3]
    [("c1", reportSignature "c1"), ("c2", reportSignature "c2"), ("c3", reportSignature "c1")]

/-- What a checkpoint of the reports drops. -/
def droppedReports : List String :=
  dropsOf Replication.transcript Checkpoint.diagnosticSchema Checkpoint.twoReports

theorem reports_holds : Holds reports.toStored Checkpoint.twoReports where
  unique := by decide +kernel
  rows i := by
    fin_cases i
    · exact ⟨[.integer 1], mem_cons_self⟩
    · exact ⟨[.integer 2], mem_cons_of_mem _ mem_cons_self⟩

theorem replayed_holds : Holds replayed.toStored Checkpoint.twoReports where
  unique := by decide +kernel
  rows i := by
    obtain ⟨position, h⟩ := reports_holds.rows i
    exact ⟨position, mem_append_left [reportRow "c3" 3] h⟩

theorem reports_shallow : Shallow reports.toStored :=
  ⟨fun _ => 0, ranked_of_claims (by decide +kernel), fun _ => Nat.zero_le _⟩

end Sample

end SmallTalk.Principal
