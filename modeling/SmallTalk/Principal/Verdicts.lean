import Mathlib.Data.Finset.Prod
import SmallTalk.Principal.Questions

/-!
# Principal — the verdict tables

The store keeps a verdict for every signed claim. A pass (`judgeClaims`) takes newly signed claims
(`fresh`) and queued ones in chunks, judges each from the claims as they stand, caches its verdict
with what it relied on (`links`), and queues what a changed verdict affects. A verdict another
claim asks for comes from the memo of the chunk, the cache, or a judgement one level deeper
(`verdictOf`).

Digests of claim contents and of the trust roots are parameters (`Scheme`). Sets of rows are
lists; the queue and the fresh claims are read in the order of their key, as the tables without
row identifiers are.
-/

namespace SmallTalk.Principal

variable (t : Tables) (id : String) (b : Scheme)

/-! ### Positions -/

/-- A column of a claim's place in the canonical order. -/
inductive SqlValue where
  | null
  | integer (n : ℤ)
  | text (s : String)
  deriving DecidableEq, Repr

def SqlValue.compare : SqlValue → SqlValue → Ordering
  | .integer left, .integer right => Ord.compare left right
  | .text left, .text right => Ord.compare left right
  | .null, .null => .eq
  | .null, _ => .lt
  | _, .null => .gt
  | .integer _, _ => .lt
  | _, .integer _ => .gt

abbrev Position := List SqlValue

/-- `Position::compare`: the first columns that differ decide. -/
def comparePositions : Position → Position → Ordering
  | left :: lefts, right :: rights => (left.compare right).then (comparePositions lefts rights)
  | _, _ => .eq

/-! ### Tables -/

/-- A row of `claims`, with its place in the canonical order. -/
structure ClaimRow where
  id : String
  subject : String
  kind : String
  actor : Option String
  body : Json
  position : Position

/-- The key operations and digests the tables rest on. -/
structure Scheme extends Verifier where
  contentDigest : (subject kind : String) → (actor : Option String) → (body : Json) → String
  rootsDigest : Finset (String × String) → String

namespace ClaimRow

def fields (row : ClaimRow) : Json := (row.body.get "fields").getD .null

/-- `/fields/key`, when it is text. -/
def fieldKey (row : ClaimRow) : Option String := (row.fields.get "key").bind Json.asStr

/-- The row as it is judged. -/
def judged (row : ClaimRow) : Judged where
  id := row.id
  subject := row.subject
  kind := row.kind
  actor := row.actor
  content := b.contentDigest row.subject row.kind row.actor row.body
  fields := row.fields

end ClaimRow

/-- The claims, their signatures and the trust roots. -/
structure Stored where
  claims : List ClaimRow
  /-- `claim_signatures`, by claim. -/
  signatures : List (String × ClaimSignature)
  /-- The trust roots fleet membership gives now. -/
  roots : Finset (String × String)

/-- What is stored, and what the passes keep of it. -/
structure Tables extends Stored where
  /-- `claim_verdicts`, by claim. -/
  verdicts : String → Option Verdict
  /-- `claim_verdict_links`: a link and the claim whose verdict relied on it. -/
  links : List (String × String)
  queue : List String
  fresh : List String
  /-- The digest of the trust roots the verdicts were last checked against. -/
  verdictRoots : Option String

def judgeChunk : ℕ := 256
def maxChainDepth : ℕ := 8

def delegationLink : String := "delegation:" ++ id
def keyLink (principal key : String) : String := "key:" ++ principal ++ "|" ++ key
def nonceLink (key nonce : String) : String := "nonce:" ++ key ++ "|" ++ nonce
def rootLink : String := "root"

namespace Stored

variable (t : Stored)

def claimRow (id : String) : Option ClaimRow := t.claims.find? (·.id = id)

def storedSignature (id : String) : Option ClaimSignature := t.signatures.lookup id

/-- The subject and grant of a delegation claim. -/
def grantOf : Grants := fun id =>
  (t.claimRow id).bind fun row =>
    if row.kind = keyGrantedKind then
      ((row.body.get "fields").bind KeyGrant.fromFields).map fun grant => (row.subject, grant)
    else none

/-- Whether claim `other` is here and stands before `row` in the canonical order. -/
def before (other : String) (row : ClaimRow) : Bool :=
  match t.claimRow other with
  | none => false
  | some found => comparePositions found.position row.position = .lt

/-- The signed claims that revoke a key of a principal. -/
def revocations (principal key : String) : List String :=
  (t.claims.filter fun row => row.subject = principal && row.kind = keyRevokedKind &&
    row.fieldKey = some key && (t.storedSignature row.id).isSome).map (·.id)

/-- A revocation counts when its principal or a node signed it. -/
def mayRevoke (principal revocation : String) : Bool :=
  match t.storedSignature revocation with
  | none => false
  | some sig => sig.signer = principal || Family.of sig.signer = some .node

/-- Whether a claim before `row` carries this key and nonce. -/
def nonceUsed (row : ClaimRow) (key nonce : String) : Bool :=
  t.signatures.any fun (other, sig) =>
    sig.key = key && sig.nonce = nonce && other ≠ row.id && t.before other row

end Stored

/-! ### Answers -/

/-- Verdicts worked out during a chunk for claims not cached. -/
abbrev Memo := List (String × Verdict)

/-- What one judgement keeps: the memo of the chunk and its own links. -/
structure Judging where
  memo : Memo
  links : List String

def note (link : String) : StateM Judging Unit :=
  modify fun s => { s with links := link :: s.links }

/-- Ask for the verdict of another claim. -/
def consult (verdictOf : String → StateM Memo Verdict) (id : String) : StateM Judging Verdict :=
  fun s => let (verdict, memo) := verdictOf id s.memo; (verdict, { s with memo := memo })

/-- `any` over the revocations of a key: the first verified one that counts ends the search. -/
def anyRevoked (t : Stored) (row : ClaimRow) (principal : String)
    (verdictOf : String → StateM Memo Verdict) : List String → StateM Judging Bool
  | [] => pure false
  | revocation :: rest =>
    if revocation ≠ row.id ∧ t.before revocation row = true then do
      let verdict ← consult verdictOf revocation
      if verdict = .verified ∧ t.mayRevoke principal revocation = true then pure true
      else anyRevoked t row principal verdictOf rest
    else anyRevoked t row principal verdictOf rest

/-- `StoreFacts`: the answers for one claim being judged. -/
def storeFacts (t : Stored) (row : ClaimRow) (verdictOf : String → StateM Memo Verdict) :
    Facts (StateM Judging) where
  delegation id := do
    note (delegationLink id)
    match t.grantOf id with
    | none => pure none
    | some (subject, grant) => do
        note (keyLink subject grant.key)
        let verdict ← consult verdictOf id
        pure (some ⟨subject, grant, verdict⟩)
  isRoot subject key := do
    note rootLink
    pure (decide ((subject, key) ∈ t.roots))
  revokedBefore principal key := do
    note (keyLink principal key)
    anyRevoked t row principal verdictOf (t.revocations principal key)
  nonceUsedBefore key nonce := do
    note (nonceLink key nonce)
    pure (t.nonceUsed row key nonce)

/-- Judge one claim from the claims as they stand, with what it relied on. -/
def judgeClaim (t : Stored) (verdictOf : String → StateM Memo Verdict) (id : String) :
    StateM Memo (Verdict × List String) := fun memo =>
  match t.claimRow id with
  | none => ((.held ("claim " ++ id ++ " is not here"), []), memo)
  | some row =>
    let (verdict, s) :=
      (judge b.toVerifier (row.judged b) (t.storedSignature id)
        (storeFacts t row verdictOf)).run ⟨memo, []⟩
    ((verdict, s.links), s.memo)

/-- The verdict of a claim from the memo or the cache, and else worked out. -/
def remembered (cache : String → Option Verdict) (work : String → StateM Memo Verdict)
    (id : String) : StateM Memo Verdict := fun memo =>
  match memo.lookup id with
  | some verdict => (verdict, memo)
  | none =>
    match cache id with
    | some verdict => (verdict, memo)
    | none => work id memo

/-- The verdict of a claim another one asks for, with so many levels left. -/
def verdictOf (b : Scheme) (t : Stored) (cache : String → Option Verdict) :
    ℕ → String → StateM Memo Verdict
  | 0 => remembered cache fun _ => pure (.invalid "the chain is too deep or loops")
  | left + 1 => remembered cache fun id memo =>
    let ((verdict, _), memo) := judgeClaim b t (verdictOf b t cache left) id memo
    (verdict, (id, verdict) :: memo)

/-! ### The pass -/

namespace Tables

def enqueue : Tables := { t with queue := t.queue ++ [id] }
def dequeue : Tables := { t with queue := t.queue.filter (· ≠ id) }
def dropFresh : Tables := { t with fresh := t.fresh.filter (· ≠ id) }

/-- Queue every verdict linked to `link`. -/
def queueLinked (link : String) : Tables :=
  { t with queue := t.queue ++ (t.links.filter (·.1 = link)).map (·.2) }

/-- Queue what a changed claim affects: the claims that share its nonce, wait on it as a
delegation, or are signed by a key it revokes. -/
def queueAffectedBy : Tables :=
  match t.claimRow id, t.storedSignature id with
  | some row, some sig =>
    let t := t.queueLinked (nonceLink sig.key sig.nonce)
    if row.kind = keyGrantedKind then t.queueLinked (delegationLink id)
    else if row.kind = keyRevokedKind then
      match row.fieldKey with
      | some key => t.queueLinked (keyLink row.subject key)
      | none => t
    else t
  | _, _ => t

/-- Cache a verdict with its links. -/
def writeVerdict (verdict : Verdict) (links : List String) : Tables :=
  { t with
    links := t.links.filter (·.2 ≠ id) ++ links.map (·, id)
    verdicts := Function.update t.verdicts id (some verdict) }

/-- Take one fresh claim: queue what it affects, and itself. -/
def takeFresh : Tables :=
  ((t.dropFresh id).queueAffectedBy id).enqueue id

end Tables

/-- Judge one queued claim; a changed verdict queues what relied on it. -/
def judgeQueued (state : Tables × Memo × ℕ) (id : String) : Tables × Memo × ℕ :=
  let (t, memo, judged) := state
  let t := t.dequeue id
  match t.storedSignature id, t.claimRow id with
  | some _, some _ =>
    let ((verdict, links), memo) :=
      judgeClaim b t.toStored (verdictOf b t.toStored t.verdicts maxChainDepth) id memo
    let written := t.writeVerdict id verdict links
    if t.verdicts id ≠ some verdict then (written.queueAffectedBy id, memo, judged + 1)
    else (written, memo, judged + 1)
  -- A signature can arrive for a claim a checkpoint has since dropped.
  | _, _ => (t, memo, judged)

theorem judgeQueued_judged {b : Scheme} {t : Tables} {memo memo' : Memo} {n : ℕ} {id : String}
    {sig : ClaimSignature} {row : ClaimRow} {verdict : Verdict} {links : List String}
    (hs : t.storedSignature id = some sig) (hr : t.claimRow id = some row)
    (hj : judgeClaim b t.toStored (verdictOf b t.toStored t.verdicts maxChainDepth) id memo =
      ((verdict, links), memo')) :
    judgeQueued b (t, memo, n) id =
      (if t.verdicts id ≠ some verdict
        then ((t.dequeue id).writeVerdict id verdict links).queueAffectedBy id
        else (t.dequeue id).writeVerdict id verdict links, memo', n + 1) := by
  have ht : (t.dequeue id).toStored = t.toStored := rfl
  have hv : (t.dequeue id).verdicts = t.verdicts := rfl
  simp only [judgeQueued, ht, hv, hs, hr, hj]
  split <;> rfl

theorem judgeQueued_skipped {b : Scheme} {t : Tables} {memo : Memo} {n : ℕ} {id : String}
    (h : t.storedSignature id = none ∨ t.claimRow id = none) :
    judgeQueued b (t, memo, n) id = (t.dequeue id, memo, n) := by
  have ht : (t.dequeue id).toStored = t.toStored := rfl
  rcases h with h | h
  · simp [judgeQueued, ht, h]
  · cases hs : t.storedSignature id <;> simp [judgeQueued, ht, h, hs]

/-- The fresh claims a chunk takes. -/
def Tables.freshChunk : List String := (Sorted.sortedSet t.fresh).take judgeChunk

/-- The tables after a chunk took its fresh claims. -/
def Tables.taken : Tables := t.freshChunk.foldl Tables.takeFresh t

/-- The queued claims a chunk judges. -/
def Tables.queueChunk : List String :=
  (Sorted.sortedSet t.taken.queue).take judgeChunk

/-- One writer loan of a pass, with the number of claims judged. -/
def chunk (t : Tables) : Tables × ℕ :=
  let (after, _, judged) := t.queueChunk.foldl (judgeQueued b) (t.taken, [], 0)
  (after, judged)

/-- The loop of a pass; none when it is not done within `fuel` chunks. -/
def judgeLoop (b : Scheme) : ℕ → Tables → ℕ → Option (Tables × ℕ)
  | 0, _, _ => none
  | fuel + 1, t, judged =>
    let (after, n) := chunk b t
    if t.freshChunk = [] ∧ t.queueChunk = [] then some (after, judged + n)
    else judgeLoop b fuel after (judged + n)

/-- Queue every verdict that relied on the trust roots, when they changed. -/
def checkRoots (t : Tables) : Tables :=
  if t.verdictRoots = some (b.rootsDigest t.roots) then t
  else { t.queueLinked rootLink with verdictRoots := some (b.rootsDigest t.roots) }

/-- Judge every signed claim admitted since the last pass and every queued one. -/
def judgeClaims (fuel : ℕ) (check : Bool) (t : Tables) : Option (Tables × ℕ) :=
  let t := if check then checkRoots b t else t
  if t.fresh = [] ∧ t.queue = [] then some (t, 0) else judgeLoop b fuel t 0

/-- Recompute every verdict from the claims alone. -/
def Tables.cleared : Tables :=
  { t with
    verdicts := fun _ => none
    links := []
    queue := []
    fresh := t.fresh ++ t.signatures.map (·.1)
    verdictRoots := none }

def recheckClaimVerdicts (fuel : ℕ) (t : Tables) : Option Tables :=
  (judgeClaims b fuel true t.cleared).map (·.1)

end SmallTalk.Principal
