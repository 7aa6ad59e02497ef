import SmallTalk.Lib.Narrowing
import SmallTalk.Replication.Identity

/-!
# Replication — the questions of a heal

Two nodes that hold the same envelopes but project different graphs find the claims that differ.
One of them asks: for the digests of the claims the peer projects by writer range, then by subject
within the ranges that differ, then for the claims of the subjects that differ. It compares each
answer with its own claims (`healNext`), and at last names the claims that one side lacks.

The model ends where the envelopes of those claims are swapped, or where both sides project the same
claims and replay their graphs. A node's claims do not change while it narrows.
-/

namespace SmallTalk.Replication

open Narrowing Sorted

/-! ### Claims and their digests -/

/-- A claim a node projects, and the envelope that carries it, if the node still holds one. -/
structure HealClaim where
  writer : String
  sequence : ℕ
  claimId : String
  subject : String
  envelopeHash : Option String
  deriving DecidableEq

/-- A writer, and the first sequence of one of its ranges. -/
abbrev ClaimRange := String ×ₗ ℕ

namespace HealClaim

variable (claim : HealClaim)

/-- What is digested of a claim. -/
def sign : ℕ ×ₗ String := toLex (claim.sequence, claim.claimId)

def key : String ×ₗ ℕ ×ₗ String := toLex (claim.writer, claim.sign)

-- Every definition that looks up keys names this.
instance keyBEq : LawfulBEq (String ×ₗ ℕ ×ₗ String) := inferInstance

def range : ClaimRange :=
  toLex (claim.writer, replicationBucketStart claim.sequence)

def topic : ClaimRange ×ₗ String := toLex (claim.range, claim.subject)

def envelope : Option ReplicaEnvelopeId :=
  claim.envelopeHash.map fun hash => ⟨claim.writer, claim.sequence, hash⟩

end HealClaim

def claimRangeDomain : String := "st3-heal-claim-range-v1\x00"
def claimSubjectDomain : String := "st3-heal-claim-subject-v1\x00"

namespace Hasher

variable (H : Hasher)

def digestClaim (digest : H.State) (sequence : ℕ) (claimId : String) : H.State :=
  H.update (H.update (H.update digest (toBeBytes sequence)) (toBeBytes claimId.utf8ByteSize))
    claimId.toUTF8.data.toList

def claimDigest (domain : String) (signs : List (ℕ ×ₗ String)) : H.Digest :=
  H.finalize (signs.foldl (fun digest sign => H.digestClaim digest (ofLex sign).1 (ofLex sign).2)
    (H.domainState domain))

/-- Digests of sorted lists of claims in `S` agree only when the lists do. -/
def ClaimCollisionFree (S : Finset (ℕ ×ₗ String)) : Prop :=
  ∀ domain ∈ [claimRangeDomain, claimSubjectDomain], ∀ l l' : List (ℕ ×ₗ String),
    l.Pairwise (· < ·) → l'.Pairwise (· < ·) → (∀ sign ∈ l, sign ∈ S) → (∀ sign ∈ l', sign ∈ S) →
    H.claimDigest domain l = H.claimDigest domain l' → l = l'

end Hasher

structure ClaimRangeDigest (H : Hasher) where
  writer : String
  start : ℕ
  count : ℕ
  digest : H.Digest

structure ClaimSubjectDigest (H : Hasher) where
  writer : String
  start : ℕ
  subject : String
  count : ℕ
  digest : H.Digest

/-! ### Nodes -/

/-- The digests of a node's graph. An old build sends only the first. -/
structure GraphDigests where
  legacy : String
  projections : List (String × String)
  deriving DecidableEq

/-- What a node narrows with: the claims it projects, as its queries list them, the ids of claims
that a checkpoint dropped here, and the envelopes it holds. -/
structure HealNode where
  claims : List HealClaim
  sorted : claims.Pairwise fun a b => a.key < b.key
  bounded : ∀ claim ∈ claims, claim.sequence < sequenceBound
  tombstones : Finset String
  held : Finset ReplicaEnvelopeId
  graph : GraphDigests

section

variable (H : Hasher) (node : HealNode)

/-- A count and a digest, with one more claim. -/
def growDigest (run : ℕ × H.State) (claim : HealClaim) : ℕ × H.State :=
  (run.1 + 1, H.digestClaim run.2 claim.sequence claim.claimId)

def claimRanges : List (ClaimRangeDigest H) :=
  closeRuns HealClaim.range (0, H.domainState claimRangeDomain) (growDigest H)
    (fun range run => ⟨(ofLex range).1, (ofLex range).2, run.1, H.finalize run.2⟩) node.claims

/-- Whether SQLite can hold the sequence that ends a range. -/
def rangeQueryable (range : ClaimRange) : Bool :=
  satAdd (ofLex range).2 replicationBucketWidth < sequenceBound

def rangeClaims (range : ClaimRange) : List HealClaim :=
  node.claims.filter fun claim => claim.writer = (ofLex range).1 ∧
    (ofLex range).2 ≤ claim.sequence ∧
      claim.sequence < satAdd (ofLex range).2 replicationBucketWidth

def bySubject (claims : List HealClaim) : TreeMap String (ℕ × H.State) :=
  claims.foldl (fun bySubject claim => bySubject.insert claim.subject
    (growDigest H ((bySubject.get claim.subject).getD (0, H.domainState claimSubjectDomain)) claim))
    .empty

/-- The digests by subject within ranges. The first range that cannot be queried is an error. -/
def claimSubjects (ranges : List ClaimRange) : Option (List (ClaimSubjectDigest H)) :=
  if ranges.all rangeQueryable then
    some (ranges.flatMap fun range => (bySubject H (rangeClaims node range)).entries.map
      fun (subject, run) =>
        ⟨(ofLex range).1, (ofLex range).2, subject, run.1, H.finalize run.2⟩)
  else none

def claimsIn (ranges : List ClaimRange) (subjects : List String) : Option (List HealClaim) :=
  if ranges.all rangeQueryable then
    some (ranges.flatMap fun range =>
      (rangeClaims node range).filter fun claim => claim.subject ∈ subjects)
  else none

end

/-! ### Comparing digests -/

section

variable {H : Hasher}

def rangeIndex (ranges : List (ClaimRangeDigest H)) : TreeMap ClaimRange H.Digest :=
  .ofLast (fun range => some (toLex (range.writer, range.start), range.digest)) ranges

def subjectIndex (subjects : List (ClaimSubjectDigest H)) :
    TreeMap (ClaimRange ×ₗ String) H.Digest :=
  .ofLast (fun subject =>
    some (toLex (toLex (subject.writer, subject.start), subject.subject), subject.digest)) subjects

/-- The keys whose digests differ or that only one side has. -/
def differingKeys {κ : Type*} [LinearOrder κ] (own theirs : TreeMap κ H.Digest) : List κ :=
  (own.entries.map Prod.fst ++ theirs.entries.map Prod.fst).filter fun key =>
    own.get key ≠ theirs.get key

def differingRanges (own theirs : List (ClaimRangeDigest H)) : List ClaimRange :=
  sortedSet (differingKeys (rangeIndex own) (rangeIndex theirs))

/-- The subjects that differ in any range. -/
def differingSubjects (own theirs : List (ClaimSubjectDigest H)) : List String :=
  sortedSet ((differingKeys (subjectIndex own) (subjectIndex theirs)).map fun key => (ofLex key).2)

end

/-! ### Questions and answers -/

def healRangeLimit : ℕ := 64
def healSubjectLimit : ℕ := 256
def healEnvelopeLimit : ℕ := 512

inductive HealQuery
  | ranges
  | subjects (ranges : List ClaimRange)
  | claims (ranges : List ClaimRange) (subjects : List String)
  deriving DecidableEq

inductive HealAnswer (H : Hasher)
  | ranges (graph : GraphDigests) (ranges : List (ClaimRangeDigest H))
  | subjects (ranges : List ClaimRange) (subjects : List (ClaimSubjectDigest H))
  | claims (ranges : List ClaimRange) (subjects : List String) (claims : List HealClaim)

/-- What the asking node does next. -/
inductive HealStep
  | ask (query : HealQuery)
  /-- Send the envelopes of claims the peer lacks, and fetch those of claims this node lacks. -/
  | swap (push want : List ReplicaEnvelopeId)
  /-- Both project the same claims, so a replay decides the graph. -/
  | replay
  | done (healed : Bool) (unresolved : Option String)
  deriving DecidableEq

structure HealSession where
  ranges : ℕ := 0
  subjects : ℕ := 0
  /-- The claims the last swap asks for. -/
  wanted : List HealClaim := []
  deriving DecidableEq

namespace HealNode

variable (H : Hasher) (node : HealNode)

def healAnswer : HealQuery → Option (HealAnswer H)
  | .ranges => some (.ranges node.graph (claimRanges H node))
  | .subjects ranges =>
    let ranges := ranges.take healRangeLimit
    (claimSubjects H node ranges).map (.subjects ranges)
  | .claims ranges subjects =>
    let ranges := ranges.take healRangeLimit
    let subjects := subjects.take healSubjectLimit
    (claimsIn node ranges subjects).map (.claims ranges subjects)

def healGraphEqual (graph : GraphDigests) : Bool :=
  if graph.projections = [] then node.graph.legacy = graph.legacy
  else node.graph.projections = graph.projections

def changedReason (peer : String) : String :=
  "the claims " ++ peer ++ " projects changed while this node compared them"

def droppedReason (peer : String) : String :=
  "the only claims " ++ peer ++ " projects that this node lacks are ones a checkpoint dropped here"

/-- Name the claims that only one side listed. -/
def compareClaims (peer : String) (session : HealSession) (own theirs : List HealClaim) :
    HealStep × HealSession :=
  let missing := theirs.filter fun claim =>
    ¬ (claim.key ∈ own.map HealClaim.key ∨ claim.envelopeHash = none)
  -- A claim a checkpoint dropped here is not missing: its tombstone stands for it.
  let droppedHere := (missing.filter fun claim => claim.claimId ∈ node.tombstones).length
  let wanted := missing.filter fun claim => claim.claimId ∉ node.tombstones
  let want := (sortedSet (wanted.filterMap HealClaim.envelope)).take healEnvelopeLimit
  let push := sortedSet ((own.filter fun claim =>
    claim.key ∉ theirs.map HealClaim.key).filterMap HealClaim.envelope)
  if want = [] ∧ push = [] then
    (.done false (some (if droppedHere = 0 then changedReason peer else droppedReason peer)),
      session)
  else
    (.swap ((push.take healEnvelopeLimit).filter (· ∈ node.held)) want,
      { session with wanted := wanted })

def healNext (peer : String) (session : HealSession) :
    HealAnswer H → Option (HealStep × HealSession)
  | .ranges graph theirs =>
    if node.healGraphEqual graph then some (.done true none, session)
    else
      let differing := differingRanges (claimRanges H node) theirs
      if differing = [] then some (.replay, session)
      else some (.ask (.subjects (differing.take healRangeLimit)),
        { session with ranges := session.ranges + differing.length })
  | .subjects ranges theirs =>
    (claimSubjects H node ranges).map fun own =>
      let differing := differingSubjects own theirs
      if differing = [] then (.done false (some (changedReason peer)), session)
      else (.ask (.claims ranges (differing.take healSubjectLimit)),
        { session with subjects := session.subjects + differing.length })
  | .claims ranges subjects theirs =>
    (claimsIn node ranges subjects).map fun own => node.compareClaims peer session own theirs

/-- The questions that `node` comes to ask its peer. -/
inductive Asked (name : String) (peer : HealNode) : HealQuery → Prop
  | start : Asked name peer .ranges
  | next {query query' : HealQuery} {answer : HealAnswer H} {session session' : HealSession}
      (asked : Asked name peer query) (answered : peer.healAnswer H query = some answer)
      (compared : node.healNext H name session answer = some (.ask query', session')) :
      Asked name peer query'

end HealNode

end SmallTalk.Replication
