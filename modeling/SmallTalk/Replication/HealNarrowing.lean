import SmallTalk.Replication.Heal

/-!
# Replication — what a heal names

A heal narrows the difference of two nodes by digests of ranges, then of subjects. The claims that
differ are those whose key only one side projects (`differingClaims`).

* `differingRanges_eq`, `differingSubjects_eq`: the ranges and subjects that differ are those of the
  claims that differ, so the digests hide none of them and name no others.
* `HealNode.names_differing`: what a heal names at last, of all it asked about.
-/

namespace SmallTalk.Replication

open TreeMap HealClaim Narrowing Sorted
open List hiding range

variable {H : Hasher} (claims : List HealClaim)

/-! ### Digests of claims -/

theorem foldl_growDigest (run : ℕ × H.State) : claims.foldl (growDigest H) run =
      (run.1 + claims.length, (claims.map sign).foldl
        (fun digest sign => H.digestClaim digest (ofLex sign).1 (ofLex sign).2) run.2) := by
  induction claims generalizing run with
  | nil => rfl
  | cons claim claims ih =>
    rw [foldl_cons, ih, map_cons, foldl_cons, length_cons]
    simp only [growDigest, Prod.mk.injEq]
    exact ⟨by omega, rfl⟩

/-- The digest of keys of one writer. -/
def keyDigest (H : Hasher) (domain : String) (keys : List (String ×ₗ ℕ ×ₗ String)) : H.Digest :=
  H.claimDigest domain (keys.map fun key => (ofLex key).2)

theorem finalize_growDigest (domain : String) (claims : List HealClaim) :
    H.finalize (claims.foldl (growDigest H) (0, H.domainState domain)).2 =
      keyDigest H domain (claims.map key) := by
  rw [foldl_growDigest, keyDigest, map_map]
  rfl

/-- The claims of one node's list. -/
def signsOf : Finset (ℕ ×ₗ String) :=
  (claims.map sign).toFinset

section

variable {κ : Type*} [LinearOrder κ] {group : HealClaim → κ} {k : κ} {node peer : HealNode}

theorem map_sign_signs : (signs key group node.claims k).map (fun key => (ofLex key).2) =
      (ofKey group node.claims k).map sign := by
  rw [signs, map_map]
  rfl

theorem sign_sorted {writer : String}
    (hwriter : ∀ claim ∈ node.claims, group claim = k → claim.writer = writer) :
    ((ofKey group node.claims k).map sign).Pairwise (· < ·) := by
  rw [pairwise_map]
  refine (node.sorted.filter _).imp_of_mem fun {a b} ha hb hlt => ?_
  obtain ⟨ha, hka⟩ := mem_ofKey.mp ha
  obtain ⟨hb, hkb⟩ := mem_ofKey.mp hb
  rcases Prod.Lex.toLex_lt_toLex.mp hlt with hlt | ⟨-, hlt⟩
  · rw [hwriter a ha hka, hwriter b hb hkb] at hlt
    exact absurd hlt (lt_irrefl _)
  · exact hlt

theorem signs_eq_map {writer : String}
    (hwriter : ∀ claim ∈ node.claims, group claim = k → claim.writer = writer) :
    signs key group node.claims k =
      ((ofKey group node.claims k).map sign).map fun sign => toLex (writer, sign) := by
  rw [signs, map_map]
  refine map_congr_left fun claim hclaim => ?_
  obtain ⟨hmem, hk⟩ := mem_ofKey.mp hclaim
  rw [key, hwriter claim hmem hk]
  rfl

/-- Digests of the claims of one writer agree only when their keys do. -/
theorem keyDigest_inj (domain : String) (hdomain : domain ∈ [claimRangeDomain, claimSubjectDomain])
    (group : HealClaim → κ) (k : κ)
    (hfree : H.ClaimCollisionFree (signsOf (node.claims ++ peer.claims))) {writer : String}
    (hwriter : ∀ claim ∈ node.claims ++ peer.claims, group claim = k → claim.writer = writer)
    (h : keyDigest H domain (signs key group node.claims k) =
      keyDigest H domain (signs key group peer.claims k)) :
    signs key group node.claims k = signs key group peer.claims k := by
  have hown : ∀ claim ∈ node.claims, group claim = k → claim.writer = writer :=
    fun claim hclaim => hwriter claim (mem_append_left _ hclaim)
  have htheirs : ∀ claim ∈ peer.claims, group claim = k → claim.writer = writer :=
    fun claim hclaim => hwriter claim (mem_append_right _ hclaim)
  have hmem : ∀ claims : List HealClaim, (∀ claim ∈ claims, claim ∈ node.claims ++ peer.claims) →
      ∀ sign ∈ (ofKey group claims k).map HealClaim.sign,
        sign ∈ signsOf (node.claims ++ peer.claims) := by
    intro claims hsub sign hsign
    obtain ⟨claim, hclaim, rfl⟩ := mem_map.mp hsign
    exact mem_toFinset.mpr (mem_map_of_mem (hsub claim (mem_ofKey.mp hclaim).1))
  rw [keyDigest, keyDigest, map_sign_signs, map_sign_signs] at h
  have heq := hfree domain hdomain _ _ (sign_sorted hown) (sign_sorted htheirs)
    (hmem _ fun claim => mem_append_left _) (hmem _ fun claim => mem_append_right _) h
  rw [signs_eq_map hown, signs_eq_map htheirs, heq]

end

/-! ### Claims that differ -/

/-- The claims whose key only one of the nodes projects. -/
def differingClaims (node peer : HealNode) : List HealClaim :=
  (node.claims.filter fun claim => claim.key ∉ peer.claims.map key) ++
    peer.claims.filter fun claim => claim.key ∉ node.claims.map key

/-- A claim's id is the hash of its contents, so nodes agree on the subject of a claim. -/
def SubjectsAgree (node peer : HealNode) : Prop :=
  ∀ a ∈ node.claims, ∀ b ∈ peer.claims, a.key = b.key → a.subject = b.subject

variable {node peer : HealNode}
  (hfree : H.ClaimCollisionFree (signsOf (node.claims ++ peer.claims)))

theorem mem_differingClaims {claim : HealClaim} :
    claim ∈ differingClaims node peer ↔ Differs key node.claims peer.claims claim := by
  simp only [differingClaims, Differs, mem_append, mem_filter, decide_eq_true_eq]

theorem range_of_key {a b : HealClaim} (h : a.key = b.key) : a.range = b.range := by
  simp only [key, sign, toLex_inj, Prod.mk.injEq] at h
  rw [HealClaim.range, HealClaim.range, h.1, h.2.1]

theorem topic_of_key (hsubjects : SubjectsAgree node peer) {a b : HealClaim} (ha : a ∈ node.claims)
    (hb : b ∈ peer.claims) (h : a.key = b.key) : a.topic = b.topic := by
  rw [HealClaim.topic, HealClaim.topic, range_of_key h, hsubjects a ha b hb h]

theorem range_mono {a b : HealClaim} (h : a.key < b.key) : a.range ≤ b.range := by
  rw [HealClaim.range, HealClaim.range, Prod.Lex.toLex_le_toLex]
  rcases Prod.Lex.toLex_lt_toLex.mp h with h | ⟨hwriter, h⟩
  · exact .inl h
  · rcases Prod.Lex.toLex_lt_toLex.mp h with h | ⟨hsequence, -⟩
    · exact .inr ⟨hwriter, replicationBucketStart_mono h.le⟩
    · exact .inr ⟨hwriter, (congrArg replicationBucketStart hsequence).le⟩

theorem HealNode.ranges_sorted (node : HealNode) :
    node.claims.Pairwise fun a b => a.range ≤ b.range :=
  node.sorted.imp range_mono

/-! ### Ranges -/

theorem claimRanges_eq (node : HealNode) :
    claimRanges H node = (keys HealClaim.range node.claims).map fun range =>
      ⟨(ofLex range).1, (ofLex range).2, (ofKey HealClaim.range node.claims range).length,
        keyDigest H claimRangeDomain (signs key HealClaim.range node.claims range)⟩ := by
  rw [claimRanges, closeRuns_eq node.ranges_sorted]
  refine map_congr_left fun range _ => ?_
  rw [summary, finalize_growDigest, foldl_growDigest, Nat.zero_add]
  rfl

/-- The index of a node's range digests. -/
theorem get_rangeIndex (node : HealNode) (range : ClaimRange) :
    (rangeIndex (claimRanges H node)).get range =
      indexed (keyDigest H claimRangeDomain) key HealClaim.range node.claims range := by
  rw [claimRanges_eq, rangeIndex, ofLast, foldl_map]
  exact get_ofLast_keys _ fun range =>
    keyDigest H claimRangeDomain (signs key HealClaim.range node.claims range)

theorem mem_differingKeys {κ : Type*} [LinearOrder κ] {own theirs : TreeMap κ H.Digest} {k : κ} :
    k ∈ differingKeys own theirs ↔ own.get k ≠ theirs.get k := by
  rw [differingKeys, mem_filter, decide_eq_true_eq, and_iff_right_iff_imp, mem_append,
    mem_map, mem_map]
  intro h
  cases hown : own.get k with
  | some v => exact .inl ⟨(k, v), mem_entries.mpr hown, rfl⟩
  | none =>
    cases htheirs : theirs.get k with
    | some v => exact .inr ⟨(k, v), mem_entries.mpr htheirs, rfl⟩
    | none => exact absurd (hown.trans htheirs.symm) h

include hfree in
/-- **The ranges that differ** are those of the claims that differ. -/
theorem differingRanges_eq : differingRanges (claimRanges H node) (claimRanges H peer) =
      sortedSet ((differingClaims node peer).map HealClaim.range) := by
  refine sortedSet_congr fun range => ?_
  have hdigest := keyDigest_inj claimRangeDomain (by simp) HealClaim.range range hfree
    fun claim _ hrange => congrArg (fun range : ClaimRange => (ofLex range).1) hrange
  rw [mem_differingKeys, get_rangeIndex, get_rangeIndex, indexed_ne_iff hdigest,
    signs_ne_iff node.sorted peer.sorted fun a _ b _ h => range_of_key h, mem_map]
  simp only [mem_differingClaims]

/-! ### Subjects -/

/-- A range that some claim falls in. -/
def Aligned (range : ClaimRange) : Prop :=
  replicationBucketStart (ofLex range).2 = (ofLex range).2

theorem aligned_range (claim : HealClaim) : Aligned claim.range := by
  simp only [Aligned, HealClaim.range, ofLex_toLex, replicationBucketStart, replicationBucketWidth]
  omega

/-- A query lists the claims of its range. -/
theorem rangeClaims_eq {range : ClaimRange} (haligned : Aligned range)
    (hqueryable : rangeQueryable range = true) (node : HealNode) :
    rangeClaims node range = ofKey HealClaim.range node.claims range := by
  refine filter_congr fun claim _ => ?_
  have hstop := of_decide_eq_true hqueryable
  have hsat : satAdd (ofLex range).2 replicationBucketWidth =
      (ofLex range).2 + replicationBucketWidth := by
    unfold satAdd u64Max replicationBucketWidth at *
    unfold sequenceBound at hstop
    omega
  obtain ⟨writer, start⟩ := range
  rw [decide_eq_decide, hsat, HealClaim.range]
  change _ ↔ toLex (claim.writer, _) = toLex (writer, start)
  rw [toLex_inj, Prod.mk.injEq]
  refine and_congr_right fun _ => ?_
  change replicationBucketStart start = start at haligned
  change start ≤ claim.sequence ∧ claim.sequence < start + replicationBucketWidth ↔ _
  unfold replicationBucketStart replicationBucketWidth at *
  omega

theorem get_bySubject (subject : String) : (bySubject H claims).get subject =
      if ofKey HealClaim.subject claims subject = [] then none
      else some ((ofKey HealClaim.subject claims subject).foldl (growDigest H)
        (0, H.domainState claimSubjectDomain)) := by
  refine (get_foldl_insert HealClaim.subject (fun (held : Option (ℕ × H.State)) claim =>
    growDigest H (held.getD (0, H.domainState claimSubjectDomain)) claim) claims).trans ?_
  refine (congrArg (List.foldl _ none) (show _ = ofKey HealClaim.subject claims subject from
    filter_congr fun _ _ => decide_eq_decide.mpr Iff.rfl)).trans ?_
  induction ofKey HealClaim.subject claims subject using List.reverseRecOn with
  | nil => rfl
  | append_singleton claims claim ih =>
    rw [foldl_append, ih, foldl_append]
    by_cases hclaims : claims = []
    · subst hclaims
      rfl
    · simp [hclaims]

theorem ofKey_topic (range : ClaimRange) (subject : String) :
    ofKey HealClaim.subject (ofKey HealClaim.range claims range) subject =
      ofKey HealClaim.topic claims (toLex (range, subject)) := by
  rw [ofKey, ofKey, ofKey, filter_filter]
  refine filter_congr fun claim _ => ?_
  rw [← Bool.decide_and, decide_eq_decide, HealClaim.topic, toLex_inj, Prod.mk.injEq, and_comm]

section

variable {ranges : List ClaimRange} (hsorted : ranges.Pairwise (· < ·))
  (haligned : ∀ range ∈ ranges, Aligned range)

include hsorted haligned

/-- The index of a node's subject digests within ranges. -/
theorem get_subjectIndex {subjects : List (ClaimSubjectDigest H)}
    (hsubjects : claimSubjects H node ranges = some subjects) (topic : ClaimRange ×ₗ String) :
    (subjectIndex subjects).get topic =
      if (ofLex topic).1 ∈ ranges then
        indexed (keyDigest H claimSubjectDomain) key HealClaim.topic node.claims topic
      else none := by
  obtain ⟨hqueryable, hlist⟩ := Option.ite_none_right_eq_some.mp hsubjects
  obtain rfl := Option.some.inj hlist
  rw [all_eq_true] at hqueryable
  have hkeys : ((ranges.flatMap fun range => (bySubject H (rangeClaims node range)).entries.map
      fun entry => (⟨(ofLex range).1, (ofLex range).2, entry.1, entry.2.1,
        H.finalize entry.2.2⟩ : ClaimSubjectDigest H)).map fun digest =>
          (toLex (toLex (digest.writer, digest.start), digest.subject) :
            ClaimRange ×ₗ String)).Nodup := by
    rw [map_flatMap, nodup_flatMap]
    constructor
    · intro range _
      have hnodup := (nodup_keys (bySubject H (rangeClaims node range))).map
        (f := fun subject => (toLex (range, subject) : ClaimRange ×ₗ String))
        fun a b h => (Prod.mk.inj (toLex_inj.mp h)).2
      rw [map_map] at hnodup ⊢
      exact hnodup
    · refine hsorted.imp fun {a b} hlt => ?_
      rw [Function.onFun, disjoint_left]
      simp only [mem_map]
      rintro topic ⟨_, ⟨_, -, rfl⟩, rfl⟩ ⟨_, ⟨_, -, rfl⟩, heq⟩
      exact hlt.ne (Prod.mk.inj (toLex_inj.mp heq)).1.symm
  refine Option.ext fun digest => ?_
  refine (get_ofLast_of_nodup hkeys).trans ?_
  have hfound : ∀ range ∈ ranges, ∀ subject run,
      (subject, run) ∈ (bySubject H (rangeClaims node range)).entries ↔
        toLex (range, subject) ∈ keys HealClaim.topic node.claims ∧
          (ofKey HealClaim.topic node.claims (toLex (range, subject))).foldl (growDigest H)
            (0, H.domainState claimSubjectDomain) = run := by
    intro range hrange subject run
    rw [mem_entries, get_bySubject, rangeClaims_eq (haligned range hrange)
      (hqueryable range hrange), ofKey_topic, Option.ite_none_left_eq_some, Option.some.injEq,
      ← ofKey_ne_nil]
  constructor
  · rintro ⟨_, hmem, heq⟩
    obtain ⟨range, hrange, hmem⟩ := mem_flatMap.mp hmem
    obtain ⟨⟨subject, run⟩, hentry, rfl⟩ := mem_map.mp hmem
    obtain ⟨rfl, rfl⟩ := Prod.mk.inj heq
    obtain ⟨hkey, rfl⟩ := (hfound range hrange subject run).mp hentry
    have htopic : (toLex (toLex ((ofLex range).1, (ofLex range).2), subject) :
        ClaimRange ×ₗ String) = toLex (range, subject) := rfl
    rw [htopic, ofLex_toLex, if_pos hrange, indexed, if_pos hkey]
    exact congrArg some (finalize_growDigest claimSubjectDomain _).symm
  · intro hindexed
    obtain ⟨hrange, hindexed⟩ := Option.ite_none_right_eq_some.mp hindexed
    obtain ⟨hkey, hdigest⟩ := Option.ite_none_right_eq_some.mp hindexed
    obtain ⟨range, subject⟩ := topic
    refine ⟨_, mem_flatMap.mpr ⟨range, hrange, mem_map.mpr
      ⟨(subject, _), (hfound range hrange subject _).mpr ⟨hkey, rfl⟩, rfl⟩⟩, ?_⟩
    exact Prod.ext rfl ((finalize_growDigest claimSubjectDomain _).trans (Option.some.inj hdigest))

include hfree in
/-- **The subjects that differ** are those of the claims that differ within the ranges. -/
theorem differingSubjects_eq (hagree : SubjectsAgree node peer)
    {own theirs : List (ClaimSubjectDigest H)} (hown : claimSubjects H node ranges = some own)
    (htheirs : claimSubjects H peer ranges = some theirs) :
    differingSubjects own theirs = sortedSet (((differingClaims node peer).filter
      fun claim => claim.range ∈ ranges).map HealClaim.subject) := by
  have htopic : ∀ topic : ClaimRange ×ₗ String, topic ∈ differingKeys (subjectIndex own)
      (subjectIndex theirs) ↔ (ofLex topic).1 ∈ ranges ∧
        ∃ claim ∈ differingClaims node peer, claim.topic = topic := by
    intro topic
    rw [mem_differingKeys, get_subjectIndex hsorted haligned hown,
      get_subjectIndex hsorted haligned htheirs]
    by_cases hrange : (ofLex topic).1 ∈ ranges
    · have hdigest := keyDigest_inj claimSubjectDomain (by simp) HealClaim.topic topic hfree
        fun claim _ htopic =>
          congrArg (fun topic : ClaimRange ×ₗ String => (ofLex (ofLex topic).1).1) htopic
      rw [if_pos hrange, if_pos hrange, indexed_ne_iff hdigest, signs_ne_iff node.sorted peer.sorted
        fun a ha b hb h => topic_of_key hagree ha hb h, and_iff_right hrange]
      simp only [mem_differingClaims]
    · rw [if_neg hrange, if_neg hrange]
      simp [hrange]
  refine sortedSet_congr fun subject => ?_
  simp only [mem_map, mem_filter, decide_eq_true_eq, htopic]
  constructor
  · rintro ⟨_, ⟨hrange, claim, hclaim, rfl⟩, rfl⟩
    exact ⟨claim, ⟨hclaim, hrange⟩, rfl⟩
  · rintro ⟨claim, ⟨hclaim, hrange⟩, rfl⟩
    exact ⟨claim.topic, ⟨hrange, claim, hclaim, rfl⟩, rfl⟩

/-! ### Claims -/

/-- The claims listed are those of the ranges and subjects. -/
theorem claimsIn_eq (hqueryable : ranges.all rangeQueryable = true) (node : HealNode)
    (subjects : List String) :
    claimsIn node ranges subjects = some (node.claims.filter fun claim =>
      claim.range ∈ ranges ∧ claim.subject ∈ subjects) := by
  rw [claimsIn, if_pos hqueryable, Option.some.injEq]
  rw [all_eq_true] at hqueryable
  have hlisted : ∀ range ∈ ranges,
      (rangeClaims node range).filter (fun claim => claim.subject ∈ subjects) =
        ofKey HealClaim.range (node.claims.filter fun claim => claim.subject ∈ subjects) range := by
    intro range hrange
    rw [rangeClaims_eq (haligned range hrange) (hqueryable range hrange), ofKey, ofKey, filter_comm]
  rw [flatMap_congr hlisted, flatMap_ofKey_filter hsorted (node.ranges_sorted.filter _),
    filter_filter]
  refine filter_congr fun claim _ => ?_
  rw [Bool.eq_iff_iff]
  simp only [Bool.and_eq_true, decide_eq_true_eq]

end

/-- The claims in ranges and about subjects whose key only the holder projects. -/
def onlyOf (holder other : HealNode) (ranges : List ClaimRange) (subjects : List String) :
    List HealClaim :=
  holder.claims.filter fun claim => claim.key ∉ other.claims.map key ∧
    claim.range ∈ ranges ∧ claim.subject ∈ subjects

/-- The claims to fetch: those that only the peer projects, that it has an envelope of, and that no
checkpoint dropped here. -/
def wantedClaims (node peer : HealNode) (ranges : List ClaimRange) (subjects : List String) :
    List HealClaim :=
  (onlyOf peer node ranges subjects).filter fun claim =>
    claim.envelopeHash ≠ none ∧ claim.claimId ∉ node.tombstones

def envelopesOf : List ReplicaEnvelopeId :=
  sortedSet (claims.filterMap envelope)

theorem SubjectsAgree.symm (hagree : SubjectsAgree node peer) : SubjectsAgree peer node :=
  fun a ha b hb h => (hagree b hb a ha h.symm).symm

section

variable (ranges : List ClaimRange) (subjects : List String)

/-- The claims a node lists. -/
def listed (node : HealNode) : List HealClaim :=
  node.claims.filter fun claim => claim.range ∈ ranges ∧ claim.subject ∈ subjects

/-- Of the claims one side lists, those the other does not list are those it does not project. -/
theorem filter_listed (hagree : SubjectsAgree node peer) : (listed ranges subjects peer).filter
      (fun claim => claim.key ∉ (listed ranges subjects node).map key) =
      onlyOf peer node ranges subjects := by
  unfold onlyOf listed
  rw [filter_filter]
  refine filter_congr fun claim hclaim => ?_
  rw [← Bool.decide_and, decide_eq_decide]
  refine and_congr_left fun ⟨hrange, hsubject⟩ => not_congr ?_
  simp only [mem_map, mem_filter, decide_eq_true_eq]
  constructor
  · rintro ⟨other, ⟨hother, -⟩, hkey⟩
    exact ⟨other, hother, hkey⟩
  · rintro ⟨other, hother, hkey⟩
    refine ⟨other, ⟨hother, ?_, ?_⟩, hkey⟩
    · rwa [range_of_key hkey]
    · rwa [hagree other hother claim hclaim hkey]

/-- What the last comparison names: the claims to fetch and the envelopes to send, or that there are
none. -/
inductive Named (node peer : HealNode) (session : HealSession) : HealStep × HealSession → Prop
  | none (reason : String) (fetch : wantedClaims node peer ranges subjects = [])
      (send : envelopesOf (onlyOf node peer ranges subjects) = []) :
      Named node peer session (.done false (some reason), session)
  | some (differ : wantedClaims node peer ranges subjects ≠ [] ∨
        envelopesOf (onlyOf node peer ranges subjects) ≠ []) :
      Named node peer session
        (.swap (((envelopesOf (onlyOf node peer ranges subjects)).take healEnvelopeLimit).filter
            (· ∈ node.held))
          ((envelopesOf (wantedClaims node peer ranges subjects)).take healEnvelopeLimit),
        { session with wanted := wantedClaims node peer ranges subjects })

theorem envelopesOf_wantedClaims : envelopesOf (wantedClaims node peer ranges subjects) = [] ↔
      wantedClaims node peer ranges subjects = [] := by
  refine ⟨fun h => ?_, fun h => by rw [h]; rfl⟩
  rw [eq_nil_iff_forall_not_mem] at h ⊢
  intro claim hclaim
  have hhash := (of_decide_eq_true (mem_filter.mp hclaim).2).1
  obtain ⟨hash, hhash⟩ := Option.ne_none_iff_exists'.mp hhash
  refine h ⟨claim.writer, claim.sequence, hash⟩ (mem_sortedSet.mpr (mem_filterMap.mpr
    ⟨claim, hclaim, ?_⟩))
  rw [envelope, hhash, Option.map_some]

theorem compareClaims_named (hagree : SubjectsAgree node peer) (name : String)
    (session : HealSession) :
    Named ranges subjects node peer session
      (node.compareClaims name session (listed ranges subjects node)
        (listed ranges subjects peer)) := by
  have hmissing : ((listed ranges subjects peer).filter fun claim =>
      ¬ (claim.key ∈ (listed ranges subjects node).map key ∨
        claim.envelopeHash = none)) =
      (onlyOf peer node ranges subjects).filter fun claim => claim.envelopeHash ≠ none := by
    rw [← filter_listed ranges subjects hagree, filter_filter]
    refine filter_congr fun claim _ => ?_
    rw [← Bool.decide_and, decide_eq_decide, not_or, and_comm]
  have hwanted : (((onlyOf peer node ranges subjects).filter fun claim =>
      claim.envelopeHash ≠ none).filter fun claim => claim.claimId ∉ node.tombstones) =
      wantedClaims node peer ranges subjects := by
    rw [wantedClaims, filter_filter]
    refine filter_congr fun claim _ => ?_
    rw [← Bool.decide_and, decide_eq_decide, and_comm]
  have htake : ∀ l : List ReplicaEnvelopeId, l.take healEnvelopeLimit = [] ↔ l = [] := by
    intro l
    rw [take_eq_nil_iff]
    simp [healEnvelopeLimit]
  unfold HealNode.compareClaims
  simp only [hmissing, hwanted, filter_listed ranges subjects hagree.symm]
  change Named ranges subjects node peer session (if
    (envelopesOf (wantedClaims node peer ranges subjects)).take healEnvelopeLimit = [] ∧
      envelopesOf (onlyOf node peer ranges subjects) = [] then _ else _)
  split
  case isTrue hnone =>
    rw [htake, envelopesOf_wantedClaims] at hnone
    exact .none _ hnone.1 hnone.2
  case isFalse hsome =>
    rw [htake, envelopesOf_wantedClaims, not_and_or] at hsome
    exact .some hsome

end

/-! ### Sessions -/

/-- The first ranges of the claims that differ. -/
def firstRanges (node peer : HealNode) : List ClaimRange :=
  (sortedSet ((differingClaims node peer).map HealClaim.range)).take healRangeLimit

theorem mem_firstRanges {range : ClaimRange} (h : range ∈ firstRanges node peer) :
    ∃ claim ∈ differingClaims node peer, claim.range = range :=
  mem_map.mp (mem_sortedSet.mp (mem_of_mem_take h))

theorem firstRanges_sorted : (firstRanges node peer).Pairwise (· < ·) :=
  (sortedSet_pairwise _).sublist (take_sublist _ _)

theorem firstRanges_aligned : ∀ range ∈ firstRanges node peer, Aligned range := by
  intro range hrange
  obtain ⟨claim, -, rfl⟩ := mem_firstRanges hrange
  exact aligned_range claim

theorem take_firstRanges : (firstRanges node peer).take healRangeLimit = firstRanges node peer := by
  rw [firstRanges, take_take, min_self]

namespace HealNode

variable {name : String}

/-- What a question comes from. -/
theorem asked_cases {query : HealQuery} (hasked : Asked H node name peer query) : query = .ranges ∨
      query = .subjects
        ((differingRanges (claimRanges H node) (claimRanges H peer)).take healRangeLimit) ∨
      ∃ ranges own theirs, Asked H node name peer (.subjects ranges) ∧
        claimSubjects H node (ranges.take healRangeLimit) = some own ∧
        claimSubjects H peer (ranges.take healRangeLimit) = some theirs ∧
        query = .claims (ranges.take healRangeLimit)
          ((differingSubjects own theirs).take healSubjectLimit) := by
  cases hasked with
  | start => exact .inl rfl
  | @next query _ answer session session' hquery hanswer hnext =>
    cases query with
    | ranges =>
      obtain rfl := Option.some.inj hanswer
      simp only [healNext] at hnext
      split at hnext
      · cases hnext
      · split at hnext
        · cases hnext
        · cases hnext
          exact .inr (.inl rfl)
    | subjects ranges =>
      obtain ⟨theirs, htheirs, rfl⟩ := Option.map_eq_some_iff.mp hanswer
      obtain ⟨own, hown, hask⟩ := Option.map_eq_some_iff.mp hnext
      dsimp only at hask
      split at hask
      · cases hask
      · cases hask
        exact .inr (.inr ⟨ranges, own, theirs, hquery, hown, htheirs, rfl⟩)
    | claims ranges subjects =>
      obtain ⟨theirs, -, rfl⟩ := Option.map_eq_some_iff.mp hanswer
      obtain ⟨own, -, hown⟩ := Option.map_eq_some_iff.mp hnext
      unfold compareClaims at hown
      dsimp only at hown
      split at hown <;> cases hown

include hfree in
theorem asked_subjects {ranges : List ClaimRange}
    (hasked : Asked H node name peer (.subjects ranges)) : ranges = firstRanges node peer := by
  obtain h | h | ⟨_, _, _, _, _, _, h⟩ := asked_cases hasked
  · cases h
  · rw [HealQuery.subjects.inj h, differingRanges_eq hfree, firstRanges]
  · cases h

end HealNode

/-! ### A hash without collisions -/

theorem toBeBytes_injective {m n : ℕ} (hm : m < 2 ^ 64) (hn : n < 2 ^ 64)
    (h : toBeBytes m = toBeBytes n) : m = n := by
  simp only [toBeBytes, map_cons, map_nil, List.cons.injEq, ← UInt8.toNat_inj,
    UInt8.toNat_ofNat', Nat.shiftRight_eq_div_pow] at h
  omega

/-- What `digestClaim` appends for one claim. -/
def claimTranscript (sign : ℕ ×ₗ String) : List (List UInt8) :=
  [toBeBytes (ofLex sign).1, toBeBytes (ofLex sign).2.utf8ByteSize,
    (ofLex sign).2.toUTF8.data.toList]

theorem transcript_digestClaim (state : List (List UInt8)) (sign : ℕ ×ₗ String) :
    transcript.digestClaim state (ofLex sign).1 (ofLex sign).2 = state ++ claimTranscript sign := by
  simp [Hasher.digestClaim, claimTranscript]

theorem claimTranscript_inj {sign sign' : ℕ ×ₗ String} (h : (ofLex sign).1 < 2 ^ 64)
    (h' : (ofLex sign').1 < 2 ^ 64) (heq : claimTranscript sign = claimTranscript sign') :
    sign = sign' := by
  simp only [claimTranscript, List.cons.injEq] at heq
  exact Prod.ext (toBeBytes_injective h h' heq.1) (toUTF8_injective heq.2.2.1)

theorem transcript_claimCollisionFree {S : Finset (ℕ ×ₗ String)}
    (hS : ∀ sign ∈ S, (ofLex sign).1 < 2 ^ 64) : transcript.ClaimCollisionFree S := by
  intro domain _ l l' _ _ hl hl' h
  unfold Hasher.claimDigest at h
  rw [foldl_append_block transcript_digestClaim, foldl_append_block transcript_digestClaim] at h
  refine flatMap_inj_of_length (n := 2) (fun _ => rfl) (fun sign hsign sign' hsign' heq => ?_)
    (append_cancel_left (Option.some.inj h))
  exact claimTranscript_inj (hS sign (hl sign hsign)) (hS sign' (hl' sign' hsign')) heq

/-! ### Two heals -/

/-- A claim of the writer `a` about one subject. -/
def healClaim (sequence : ℕ) (claimId : String) : HealClaim :=
  ⟨"a", sequence, claimId, "step-run/1", some "e"⟩

/-- A node that projects one claim, or none. -/
def healNode (claim : Option HealClaim) (hclaim : ∀ c ∈ claim, c.sequence < sequenceBound)
    (tombstones : Finset String) (legacy : String) : HealNode where
  claims := claim.toList
  sorted := by cases claim <;> simp
  bounded := by simpa using hclaim
  tombstones := tombstones
  held := {⟨"a", 1, "e"⟩, ⟨"a", 2, "e"⟩}
  graph := ⟨legacy, []⟩

/-- The node that projects `c1` and the one that projects `c2`. -/
def firstNode : HealNode := healNode (some (healClaim 1 "c1")) (by decide) ∅ "g1"
def secondNode : HealNode := healNode (some (healClaim 2 "c2")) (by decide) ∅ "g2"

/-- A node from which a checkpoint dropped `c2`. -/
def trimmedNode : HealNode := healNode none (by simp) {"c2"} "g3"

/-- A question and the comparison of its answer. -/
def healExchange (node peer : HealNode) (query : HealQuery) : Option (HealStep × HealSession) :=
  (peer.healAnswer transcript query).bind (node.healNext transcript "b" {})

theorem asked_of_healExchange {query query' : HealQuery} {session : HealSession}
    (hasked : HealNode.Asked transcript node "b" peer query)
    (h : healExchange node peer query = some (.ask query', session)) :
    HealNode.Asked transcript node "b" peer query' := by
  obtain ⟨answer, hanswer, hnext⟩ := Option.bind_eq_some_iff.mp h
  exact .next hasked hanswer hnext

/-- The one range and the one subject of two such nodes are asked about. -/
theorem asked_claims (hranges : healExchange node peer .ranges =
      some (.ask (.subjects [toLex ("a", 0)]), { ranges := 1 }))
    (hsubjects : healExchange node peer (.subjects [toLex ("a", 0)]) =
      some (.ask (.claims [toLex ("a", 0)] ["step-run/1"]), { subjects := 1 })) :
    HealNode.Asked transcript node "b" peer (.claims [toLex ("a", 0)] ["step-run/1"]) :=
  asked_of_healExchange (asked_of_healExchange .start hranges) hsubjects

end SmallTalk.Replication
