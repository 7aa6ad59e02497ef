import Mathlib.Data.List.MinMax
import SmallTalk.Data.Json
import SmallTalk.Lib.TreeMap

/-!
# Checkpoint — certificates

A node that has verified a checkpoint publishes the terms it verified. A certificate is a set of
participants that all verified terms naming exactly that set. Only the first verification of each
writer counts, in the canonical order the claims are listed in.

* `certificates_grow`: claims that arrive never make the chosen certificate worse.
-/

namespace SmallTalk.Checkpoint

open Json TreeMap List Sorted

/-! ### Claims about checkpoints -/

/-- `checkpoint.sealed`, `checkpoint.verified` and `checkpoint.excused`. -/
inductive CheckpointKind where
  | sealed
  | verified
  | excused
  deriving DecidableEq, Repr

/-- An admitted claim about a checkpoint. -/
structure CheckpointClaim where
  id : String
  kind : CheckpointKind
  subject : String
  writer : String
  actor : Option String := none
  fields : List (String × Json) := []

/-- What every participant's newest seal must carry before any of them verifies. -/
structure SealTerms where
  cutUnixMs : ℕ
  participants : List String
  sealedDigest : String
  rulesDigest : String
  deriving DecidableEq, Repr

/-- What a verification certifies. -/
structure VerifiedTerms where
  cutUnixMs : ℕ
  participants : List String
  sealedDigest : String
  rulesDigest : String
  dropDigest : String
  retainedDigest : String
  graphDigest : String
  readerDigest : String
  deriving DecidableEq, Repr

namespace VerifiedTerms

/-- The derived order: field by field. -/
def orderKey (terms : VerifiedTerms) :
    ℕ ×ₗ List String ×ₗ String ×ₗ String ×ₗ String ×ₗ String ×ₗ String ×ₗ String :=
  toLex (terms.cutUnixMs, toLex (terms.participants, toLex (terms.sealedDigest,
    toLex (terms.rulesDigest, toLex (terms.dropDigest, toLex (terms.retainedDigest,
      toLex (terms.graphDigest, terms.readerDigest)))))))

theorem orderKey_injective : Function.Injective orderKey := by
  intro a b heq
  cases a
  cases b
  simpa only [orderKey, toLex_inj, Prod.mk.injEq, mk.injEq] using heq

instance : LinearOrder VerifiedTerms := LinearOrder.lift' orderKey orderKey_injective

end VerifiedTerms

namespace CheckpointClaim

variable (claim : CheckpointClaim)

def text (name : String) : Option String :=
  (claim.fields.lookup name).bind asStr

def number (name : String) : Option ℕ :=
  (claim.fields.lookup name).bind asU64

/-- A set of names, when every item is a text. -/
def names (name : String) : Option (List String) := do
  let items ← (← claim.fields.lookup name).asArray
  return sortedSet (← items.mapM asStr)

/-- The claim takes part in the agreement. -/
def isCheckpointWork : Bool :=
  claim.kind = .sealed ∨ claim.kind = .verified

section

variable (checkpointName : ℕ → String)

/-- The cut, when the claim's subject names the same checkpoint as its field. -/
def cut (claim : CheckpointClaim) : Option ℕ := do
  let cut ← claim.number "cut_unix_ms"
  if checkpointName cut = claim.subject then some cut else none

def sealTerms (claim : CheckpointClaim) : Option SealTerms :=
  if claim.kind ≠ .sealed then none else do
    return {
      cutUnixMs := ← claim.cut checkpointName
      participants := ← claim.names "participants"
      sealedDigest := ← claim.text "sealed_digest"
      rulesDigest := ← claim.text "rules_digest" }

def verifiedTerms (claim : CheckpointClaim) : Option VerifiedTerms :=
  if claim.kind ≠ .verified then none else do
    return {
      cutUnixMs := ← claim.cut checkpointName
      participants := ← claim.names "participants"
      sealedDigest := ← claim.text "sealed_digest"
      rulesDigest := ← claim.text "rules_digest"
      dropDigest := ← claim.text "drop_digest"
      retainedDigest := ← claim.text "retained_digest"
      graphDigest := ← claim.text "graph_digest"
      readerDigest := ← claim.text "reader_digest" }

end

end CheckpointClaim

/-! ### Publishing -/

/-- The sets of a plan and the digests of its proof, as a verification carries them. -/
structure PlanTerms where
  dropDigest : String
  droppedEnvelopes : ℕ
  droppedClaims : ℕ
  retainedDigest : String
  graphDigest : String
  readerDigest : String
  deriving DecidableEq, Repr

/-- The version of the agreement, in every seal and verification. -/
def checkpointProtocol : ℕ := 1

def SealTerms.participantNames (terms : SealTerms) : Json := .arr (terms.participants.map .str)

/-- `publish_seal`: the fields of the seal claim. -/
def SealTerms.sealFields (terms : SealTerms) (sealedCount : ℕ) (build : String) :
    List (String × Json) :=
  [("cut_unix_ms", .num (.nat terms.cutUnixMs)), ("participants", terms.participantNames),
    ("sealed_digest", .str terms.sealedDigest), ("sealed_count", .num (.nat sealedCount)),
    ("rules_digest", .str terms.rulesDigest),
    ("checkpoint_protocol", .num (.nat checkpointProtocol)), ("build", .str build)]

/-- `publish_verification`: the fields of the verification claim. -/
def SealTerms.verificationFields (terms : SealTerms) (plan : PlanTerms) (build : String) :
    List (String × Json) :=
  [("cut_unix_ms", .num (.nat terms.cutUnixMs)), ("participants", terms.participantNames),
    ("sealed_digest", .str terms.sealedDigest), ("rules_digest", .str terms.rulesDigest),
    ("drop_digest", .str plan.dropDigest),
    ("dropped_envelopes", .num (.nat plan.droppedEnvelopes)),
    ("dropped_claims", .num (.nat plan.droppedClaims)),
    ("retained_digest", .str plan.retainedDigest), ("graph_digest", .str plan.graphDigest),
    ("reader_digest", .str plan.readerDigest),
    ("checkpoint_protocol", .num (.nat checkpointProtocol)), ("build", .str build)]

/-- The terms that a verification of a seal's terms carries. -/
def SealTerms.verifiedTerms (terms : SealTerms) (plan : PlanTerms) : VerifiedTerms where
  cutUnixMs := terms.cutUnixMs
  participants := sortedSet terms.participants
  sealedDigest := terms.sealedDigest
  rulesDigest := terms.rulesDigest
  dropDigest := plan.dropDigest
  retainedDigest := plan.retainedDigest
  graphDigest := plan.graphDigest
  readerDigest := plan.readerDigest

namespace CheckpointClaim

variable (claim : CheckpointClaim) (terms : SealTerms)

theorem names_participantNames
    (h : claim.fields.lookup "participants" = some terms.participantNames) :
    claim.names "participants" = some (sortedSet terms.participants) := by
  have hnames : (terms.participants.map str).mapM asStr = some terms.participants := by
    induction terms.participants with
    | nil => rfl
    | cons name names ih => simp [mapM_cons, asStr, ih]
  simp [names, h, SealTerms.participantNames, asArray, hnames]

/-- A published verification is read as it was meant. -/
theorem verifiedTerms_published {checkpointName : ℕ → String} {plan : PlanTerms} {build : String}
    (hkind : claim.kind = .verified) (hsubject : claim.subject = checkpointName terms.cutUnixMs)
    (hfields : claim.fields = terms.verificationFields plan build) :
    claim.verifiedTerms checkpointName = some (terms.verifiedTerms plan) := by
  have hnames := claim.names_participantNames terms (by rw [hfields]; rfl)
  simp only [verifiedTerms, hkind, cut, number, text, hnames]
  rw [hfields, hsubject]
  simp [SealTerms.verificationFields, List.lookup_cons, asU64, asStr, SealTerms.verifiedTerms]

end CheckpointClaim

/-! ### Certificates -/

/-- One verification from each participant, all naming exactly those participants. -/
structure Certificate where
  checkpoint : String
  terms : VerifiedTerms
  verifications : TreeMap String String
  deriving DecidableEq

section

variable (checkpointName : ℕ → String)

/-- The writer, the id and the terms of a verification of `checkpoint`. -/
def verificationOf (checkpoint : String) (claim : CheckpointClaim) :
    Option (String × String × VerifiedTerms) :=
  if claim.subject = checkpoint then
    (claim.verifiedTerms checkpointName).map fun terms => (claim.writer, claim.id, terms)
  else none

/-- Each writer's first verification of `checkpoint`. -/
def firstVerifications (claims : List CheckpointClaim) (checkpoint : String) :
    TreeMap String (String × VerifiedTerms) :=
  ofFirst (verificationOf checkpointName checkpoint) claims

/-- The claims of the participants that verified `terms`. -/
def verificationsOf (verified : TreeMap String (String × VerifiedTerms)) (terms : VerifiedTerms) :
    TreeMap String String :=
  ((verified.filter fun _ entry => entry.2 = terms).map Prod.fst).filter
    fun writer _ => writer ∈ terms.participants

/-- Every certificate of `checkpoint`, in the order of their terms. -/
def certificates (claims : List CheckpointClaim) (checkpoint : String) : List Certificate :=
  let verified := firstVerifications checkpointName claims checkpoint
  (sortedSet (verified.entries.map fun entry => entry.2.2)).filterMap fun terms =>
    let verifications := verificationsOf verified terms
    if terms.participants ≠ [] ∧
        ∀ writer ∈ terms.participants, (verifications.get writer).isSome then
      some ⟨checkpoint, terms, verifications⟩
    else none

/-- Every stable checkpoint, by cut, with its certificates. -/
def stableCheckpoints (claims : List CheckpointClaim) : TreeMap ℕ (List Certificate) :=
  ofLast (fun checkpoint =>
      let certificates := certificates checkpointName claims checkpoint
      certificates.head?.map fun first => (first.terms.cutUnixMs, certificates))
    (sortedSet ((claims.filter fun claim => claim.kind = .verified).map CheckpointClaim.subject))

end

/-- How good a certificate is: more participants, then the smaller drop digest. -/
def Certificate.rank (certificate : Certificate) : ℕᵒᵈ ×ₗ String :=
  toLex (OrderDual.toDual certificate.terms.participants.length, certificate.terms.dropDigest)

/-- The certificate every node applies: the best, and of equally good ones that of the least
terms. -/
def chosenCertificate (certificates : List Certificate) : Option Certificate :=
  certificates.argmin fun certificate => toLex (certificate.rank, certificate.terms)

/-! ### What a certificate says -/

variable {checkpointName : ℕ → String} {checkpoint : String} {claims : List CheckpointClaim}

theorem CheckpointClaim.kind_of_verifiedTerms {claim : CheckpointClaim} {terms : VerifiedTerms}
    (h : claim.verifiedTerms checkpointName = some terms) : claim.kind = .verified := by
  by_contra hkind
  rw [CheckpointClaim.verifiedTerms, if_pos hkind] at h
  cases h

theorem verificationOf_eq_some {claim : CheckpointClaim} {writer id : String}
    {terms : VerifiedTerms} :
    verificationOf checkpointName checkpoint claim = some (writer, id, terms) ↔
      claim.subject = checkpoint ∧ claim.verifiedTerms checkpointName = some terms ∧
        claim.writer = writer ∧ claim.id = id := by
  unfold verificationOf
  rw [Option.ite_none_right_eq_some, Option.map_eq_some_iff]
  simp only [Prod.mk.injEq]
  constructor
  · rintro ⟨hsubject, terms', hterms, hwriter, hid, rfl⟩
    exact ⟨hsubject, hterms, hwriter, hid⟩
  · rintro ⟨hsubject, hterms, hwriter, hid⟩
    exact ⟨hsubject, terms, hterms, hwriter, hid, rfl⟩

theorem get_verificationsOf {verified : TreeMap String (String × VerifiedTerms)}
    {terms : VerifiedTerms} {writer id : String} :
    (verificationsOf verified terms).get writer = some id ↔
      writer ∈ terms.participants ∧ verified.get writer = some (id, terms) := by
  rw [verificationsOf, get_filter, get_map, get_filter,
    Option.filter_eq_some_iff, Option.map_eq_some_iff]
  constructor
  · rintro ⟨⟨⟨id', terms'⟩, hget, rfl⟩, hwriter⟩
    obtain ⟨hget, hterms⟩ := Option.filter_eq_some_iff.mp hget
    exact ⟨of_decide_eq_true hwriter, of_decide_eq_true hterms ▸ hget⟩
  · rintro ⟨hwriter, hget⟩
    exact ⟨⟨(id, terms), Option.filter_eq_some_iff.mpr ⟨hget, decide_eq_true rfl⟩, rfl⟩,
      decide_eq_true hwriter⟩

/-- A certificate is complete: every participant's first verification is of its terms. -/
theorem mem_certificates {certificate : Certificate} :
    certificate ∈ certificates checkpointName claims checkpoint ↔
      let verified := firstVerifications checkpointName claims checkpoint
      certificate.checkpoint = checkpoint ∧ certificate.terms.participants ≠ [] ∧
        (∀ writer ∈ certificate.terms.participants,
          ∃ id, verified.get writer = some (id, certificate.terms)) ∧
        certificate.verifications = verificationsOf verified certificate.terms := by
  have hcomplete : ∀ (verified : TreeMap String (String × VerifiedTerms)) (terms : VerifiedTerms),
      (∀ writer ∈ terms.participants, ((verificationsOf verified terms).get writer).isSome) ↔
        ∀ writer ∈ terms.participants, ∃ id, verified.get writer = some (id, terms) := by
    intro verified terms
    refine forall₂_congr fun writer hwriter => ?_
    simp only [Option.isSome_iff_exists, get_verificationsOf, hwriter, true_and]
  dsimp only [certificates]
  rw [mem_filterMap]
  constructor
  · rintro ⟨terms, _, hif⟩
    obtain ⟨⟨hne, hall⟩, hsome⟩ := Option.ite_none_right_eq_some.mp hif
    obtain rfl := Option.some.inj hsome
    exact ⟨rfl, hne, (hcomplete _ _).mp hall, rfl⟩
  · obtain ⟨checkpoint', terms, verifications⟩ := certificate
    intro h
    dsimp only at h
    obtain ⟨rfl, hne, hall, rfl⟩ := h
    refine ⟨terms, mem_sortedSet.mpr ?_, if_pos ⟨hne, (hcomplete _ _).mpr hall⟩⟩
    -- Some participant has verified the terms, so they are listed.
    obtain ⟨writer, hwriter⟩ := exists_mem_of_ne_nil _ hne
    obtain ⟨id, hget⟩ := hall writer hwriter
    exact mem_map.mpr ⟨(writer, id, terms), mem_entries.mpr hget, rfl⟩

/-- **A writer takes part in one certificate** of a checkpoint. -/
theorem certificate_unique {c c' : Certificate} {writer : String}
    (hc : c ∈ certificates checkpointName claims checkpoint)
    (hc' : c' ∈ certificates checkpointName claims checkpoint)
    (hwriter : writer ∈ c.terms.participants) (hwriter' : writer ∈ c'.terms.participants) :
    c = c' := by
  obtain ⟨rfl, _, hall, hverifications⟩ := mem_certificates.mp hc
  obtain ⟨hcheckpoint, _, hall', hverifications'⟩ := mem_certificates.mp hc'
  obtain ⟨id, hget⟩ := hall writer hwriter
  obtain ⟨id', hget'⟩ := hall' writer hwriter'
  obtain ⟨-, hterms⟩ := Prod.mk.inj (Option.some.inj (hget.symm.trans hget'))
  cases c
  cases c'
  simp_all

/-! ### Claims that arrive -/

/-- Each writer verifies the checkpoint at most once. -/
def VerifiesOnce (checkpointName : ℕ → String) (claims : List CheckpointClaim)
    (checkpoint : String) : Prop :=
  ((claims.filterMap (verificationOf checkpointName checkpoint)).map Prod.fst).Nodup

instance : Decidable (VerifiesOnce checkpointName claims checkpoint) :=
  inferInstanceAs (Decidable (List.Nodup _))

theorem get_firstVerifications {writer : String} {entry : String × VerifiedTerms}
    (h : (firstVerifications checkpointName claims checkpoint).get writer = some entry) :
    (writer, entry) ∈ claims.filterMap (verificationOf checkpointName checkpoint) := by
  rw [firstVerifications, get_ofFirst] at h
  obtain ⟨claim, hclaim, hvalue⟩ := exists_of_findSome?_eq_some h
  exact mem_filterMap.mpr ⟨claim, hclaim, valueAt_eq_some.mp hvalue⟩

/-- A writer that verifies once has verified what any of its verifications says. -/
theorem VerifiesOnce.get (h : VerifiesOnce checkpointName claims checkpoint) {writer : String}
    {entry : String × VerifiedTerms}
    (hmem : (writer, entry) ∈ claims.filterMap (verificationOf checkpointName checkpoint)) :
    (firstVerifications checkpointName claims checkpoint).get writer = some entry := by
  cases hget : (firstVerifications checkpointName claims checkpoint).get writer with
  | none =>
    rw [firstVerifications, get_ofFirst, findSome?_eq_none_iff] at hget
    obtain ⟨claim, hclaim, hvalue⟩ := mem_filterMap.mp hmem
    cases (hget claim hclaim).symm.trans (valueAt_eq_some.mpr hvalue)
  | some entry' =>
    have hpair := inj_on_of_nodup_map h (get_firstVerifications hget) hmem rfl
    rw [(Prod.mk.inj hpair).2]

/-- A certificate stays when claims arrive. -/
theorem mem_certificates_of_sublist {short long : List CheckpointClaim} {c : Certificate}
    (hsub : short.Sublist long) (honce : VerifiesOnce checkpointName long checkpoint)
    (hc : c ∈ certificates checkpointName short checkpoint) :
    c ∈ certificates checkpointName long checkpoint := by
  obtain ⟨hcheckpoint, hne, hall, hverifications⟩ := mem_certificates.mp hc
  have hkept : ∀ {writer : String} {entry : String × VerifiedTerms},
      (firstVerifications checkpointName short checkpoint).get writer = some entry →
        (firstVerifications checkpointName long checkpoint).get writer = some entry :=
    fun hget => honce.get ((hsub.filterMap _).subset (get_firstVerifications hget))
  refine mem_certificates.mpr ⟨hcheckpoint, hne, fun writer hwriter => ?_, ?_⟩
  · obtain ⟨id, hget⟩ := hall writer hwriter
    exact ⟨id, hkept hget⟩
  · rw [hverifications]
    refine ext_get fun writer => Option.ext fun id => ?_
    rw [get_verificationsOf, get_verificationsOf]
    refine and_congr_right fun hwriter => ⟨hkept, fun hget => ?_⟩
    -- The participant's one verification was already there.
    obtain ⟨id', hget'⟩ := hall writer hwriter
    rw [hget', ← hget, hkept hget']

theorem chosenCertificate_mem {certificates : List Certificate} {c : Certificate}
    (h : chosenCertificate certificates = some c) : c ∈ certificates :=
  argmin_mem h

theorem rank_chosenCertificate_le {certificates : List Certificate} {c c' : Certificate}
    (h : chosenCertificate certificates = some c) (hmem : c' ∈ certificates) :
    c.rank ≤ c'.rank := by
  have hle := le_of_mem_argmin hmem h
  rcases Prod.Lex.toLex_le_toLex.mp hle with hlt | ⟨heq, -⟩
  · exact hlt.le
  · exact heq.le

theorem chosenCertificate_of_mem {certificates : List Certificate} {c : Certificate}
    (hmem : c ∈ certificates) : ∃ c', chosenCertificate certificates = some c' :=
  Option.ne_none_iff_exists'.mp fun hnone =>
    ne_nil_of_mem hmem (argmin_eq_none.mp hnone)

/-- **Certificates only grow.**  While each writer verifies a checkpoint once, claims that arrive
anywhere in the order leave its certificates, its certificates share no participant, and the chosen
one is never worse than before. -/
theorem certificates_grow (checkpointName : ℕ → String) (checkpoint : String)
    (short long : List CheckpointClaim) (hsub : short.Sublist long)
    (honce : VerifiesOnce checkpointName long checkpoint) :
    certificates checkpointName short checkpoint ⊆ certificates checkpointName long checkpoint ∧
      (∀ c ∈ certificates checkpointName long checkpoint,
        ∀ c' ∈ certificates checkpointName long checkpoint, c ≠ c' →
          c.terms.participants.Disjoint c'.terms.participants) ∧
      ∀ c, chosenCertificate (certificates checkpointName short checkpoint) = some c →
        ∃ c', chosenCertificate (certificates checkpointName long checkpoint) = some c' ∧
          c'.rank ≤ c.rank := by
  refine ⟨fun c hc => mem_certificates_of_sublist hsub honce hc, fun c hc c' hc' hne => ?_,
    fun c hc => ?_⟩
  · exact fun writer hwriter hwriter' => hne (certificate_unique hc hc' hwriter hwriter')
  · have hmem := mem_certificates_of_sublist hsub honce (chosenCertificate_mem hc)
    obtain ⟨c', hc'⟩ := chosenCertificate_of_mem hmem
    exact ⟨c', hc', rank_chosenCertificate_le hc' hmem⟩

/-! ### A participant that verifies after the others -/

/-- A verification of terms that name `participants`. -/
def sampleVerification (writer : String) (participants : List String) : CheckpointClaim where
  id := "verified/" ++ writer
  kind := .verified
  subject := "checkpoint/1"
  writer := writer
  fields := (SealTerms.mk 1 participants "sealed" "rules").verificationFields
    ⟨"drop", 0, 0, "retained", "graph", "reader"⟩ "build"

/-- Three nodes certify a checkpoint after a node that is alone has. -/
theorem certificates_grow_late : let name := fun cut : ℕ => "checkpoint/" ++ toString cut
    let short := [sampleVerification "a" ["a"]]
    let long := [sampleVerification "d" ["b", "c", "d"], sampleVerification "a" ["a"],
      sampleVerification "b" ["b", "c", "d"], sampleVerification "c" ["b", "c", "d"]]
    (certificates name long "checkpoint/1").length = 2 ∧
      certificates name short "checkpoint/1" ⊆ certificates name long "checkpoint/1" ∧
      ∃ c c', chosenCertificate (certificates name short "checkpoint/1") = some c ∧
        chosenCertificate (certificates name long "checkpoint/1") = some c' ∧
        c'.rank ≤ c.rank := by
  intro name short long
  have hsub : short.Sublist long := singleton_sublist.mpr (by simp [long])
  have hgrow := certificates_grow name "checkpoint/1" short long hsub (by decide +kernel)
  have hsize : (certificates name short "checkpoint/1").length = 1 ∧
      (certificates name long "checkpoint/1").length = 2 := by decide +kernel
  refine ⟨hsize.2, hgrow.1, ?_⟩
  obtain ⟨c, hc⟩ := exists_mem_of_length_pos (hsize.1 ▸ Nat.one_pos)
  obtain ⟨c, hc⟩ := chosenCertificate_of_mem hc
  obtain ⟨c', hc', hrank⟩ := hgrow.2.2 c hc
  exact ⟨c, c', hc, hc', hrank⟩

end SmallTalk.Checkpoint
