import SmallTalk.Data.Json
import SmallTalk.Lib.Rounds

/-!
# Fleet — Membership

The membership fold of `fleet/membership.rs`: admitted `fleet.*` claims become incarnations and
writer windows. A claim counts when its envelope is signed by a member whose window holds the
envelope's sequence, or, for the anchor's own admission, by the pinned anchor key; which members
exist depends on which claims count, so `Membership.fold` goes round (`Rounds.rounds`) from the
anchor.

The source keeps `BTreeMap<String, Vec<Incarnation>>`, each vector under its incarnations' own
name; here the vectors are one list, and `incarnationsOf` is the lookup.
-/

namespace SmallTalk.Fleet

def memberAdmitted : String := "fleet.member-admitted"
def memberEndpoints : String := "fleet.member-endpoints"
def memberLeft : String := "fleet.member-left"
def memberRemoved : String := "fleet.member-removed"

/-- One admitted `fleet.*` claim and what is known about the envelope that carries it. -/
structure FleetClaim where
  id : String
  kind : String
  subject : String
  fields : List (String × Json)
  /-- The writer (origin) of the envelope that carries the claim. -/
  writer : String
  /-- That envelope's writer sequence. -/
  sequence : ℕ
  /-- Member keys with a verified signature on that envelope. -/
  signers : Finset String

namespace FleetClaim

variable (claim : FleetClaim)

def name : Option String := stripLeading "host/" claim.subject

def text (field : String) : Option String :=
  (claim.fields.lookup field).bind Json.asStr

def number (field : String) : Option ℕ :=
  (claim.fields.lookup field).bind Json.asU64

/-- The first sequence of the window an admission opens: one past its writer floor. -/
def start : ℕ := satAdd ((claim.number "writer_floor").getD 0) 1

end FleetClaim

/-- One member key under one node name, and the window of that writer's sequences it signs. -/
structure Incarnation where
  name : String
  memberKey : String
  via : String
  mode : String
  sponsor : Option String
  admittedClaim : String
  /-- The first sequence in the window. -/
  start : ℕ
  /-- The last sequence in the window, set by a removal or a leave (`end` in the source). -/
  fence : Option ℕ
  /-- `removed` or `left` once the incarnation has ended. -/
  ended : Option String
  removedBy : Option String
  removalReason : Option String
  endpoints : List Json
  endpointsSequence : Option ℕ

namespace Incarnation

/-- The incarnation an admission opens. -/
def admittedBy (claim : FleetClaim) (name key : String) : Incarnation where
  name := name
  memberKey := key
  via := (claim.text "via").getD ""
  mode := (claim.text "mode").getD "listening"
  sponsor := claim.text "sponsor"
  admittedClaim := claim.id
  start := claim.start
  fence := none
  ended := none
  removedBy := none
  removalReason := none
  endpoints := []
  endpointsSequence := none

def holds (i : Incarnation) (sequence : ℕ) : Bool :=
  decide (i.start ≤ sequence) && i.fence.all fun fence => decide (sequence ≤ fence)

/-- A removal or a leave: the fence is the largest high water, and a removal outranks a leave. -/
def endAt (i : Incarnation) (claim : FleetClaim) (highWater : ℕ) (ended : String) : Incarnation :=
  let i := { i with fence := some (i.fence.elim highWater fun fence => max fence highWater) }
  if i.ended = some "removed" then i
  else
    let i := { i with ended := some ended }
    if ended = "removed" then
      { i with removedBy := claim.text "removed_by", removalReason := claim.text "reason" }
    else i

/-- Endpoints announced at a later sequence than the ones held. -/
def listen (i : Incarnation) (claim : FleetClaim) : Incarnation :=
  if i.endpointsSequence.all fun sequence => decide (sequence < claim.sequence) then
    { i with
      endpointsSequence := some claim.sequence
      endpoints := ((claim.fields.lookup "endpoints").bind Json.asArray).getD []
      mode := (claim.text "mode").getD i.mode }
  else i

end Incarnation

structure Membership where
  anchor : Option String := none
  incarnations : List Incarnation := []
  legacyEnds : List (String × ℕ) := []
  valid : Finset String := ∅

namespace Membership

variable (m : Membership) (claim : FleetClaim)

def incarnationsOf (name : String) : List Incarnation :=
  m.incarnations.filter fun i => i.name = name

/-- One `member-admitted` claim that counts. A key already admitted under the name keeps its
first admission. -/
def admitMember : Membership :=
  match claim.name, claim.text "member_key" with
  | some name, some key =>
    if (m.incarnationsOf name).any fun known => known.memberKey = key then m
    else { m with incarnations := m.incarnations ++ [.admittedBy claim name key] }
  | _, _ => m

/-- Change the incarnation of `key` under `name`. `admitMember` keeps at most one. -/
def update (name key : String) (f : Incarnation → Incarnation) : Membership :=
  { m with
    incarnations := m.incarnations.map fun i =>
      if i.name = name ∧ i.memberKey = key then f i else i }

/-- The end of a legacy writer's window: the largest high water of its keyless removals. -/
def endLegacy (name : String) (highWater : ℕ) : Membership :=
  let rest := m.legacyEnds.filter fun e => e.1 ≠ name
  { m with legacyEnds := (name, max ((m.legacyEnds.lookup name).getD 0) highWater) :: rest }

/-- One claim that counts, once every admission has been read. -/
def heed : Membership :=
  match claim.name with
  | none => m
  | some name =>
    if claim.kind = memberRemoved ∨ claim.kind = memberLeft then
      match claim.number "high_water" with
      | none => m
      | some highWater =>
        let ended := if claim.kind = memberLeft then "left" else "removed"
        match claim.text "member_key" with
        | some key => m.update name key fun i => i.endAt claim highWater ended
        | none => m.endLegacy name highWater
    else if claim.kind = memberEndpoints then
      match claim.text "member_key" with
      | none => m
      | some key => m.update name key fun i => i.listen claim
    else m

def build (anchor : String) (claims : List FleetClaim) (valid : Finset String) : Membership :=
  let counted := claims.filter fun claim => claim.id ∈ valid
  let admitted := (counted.filter fun claim => claim.kind = memberAdmitted).foldl admitMember
    { anchor := some anchor, valid := valid }
  counted.foldl heed admitted

/-- Whether a `fleet.*` claim counts. -/
def counts (claimId : String) : Prop := claimId ∈ m.valid

instance (m : Membership) (claimId : String) : Decidable (m.counts claimId) :=
  inferInstanceAs (Decidable (_ ∈ _))

/-- The keys whose incarnation windows hold this writer sequence. -/
def keysFor (writer : String) (sequence : ℕ) : Finset String :=
  (((m.incarnationsOf writer).filter fun i => i.holds sequence).map (·.memberKey)).toFinset

/-- The fence of `key` under `name`, when it has an incarnation that has ended. -/
def fenceOf (name key : String) : Option ℕ :=
  ((m.incarnationsOf name).find? fun i => i.memberKey = key).bind (·.fence)

/-- Whether this writer has ever had a key. -/
def isKeyedWriter (writer : String) : Bool := !(m.incarnationsOf writer).isEmpty

end Membership

/-- Which signature, if any, admits an envelope at one writer sequence. -/
inductive Window where
  /-- The writer has no key for this sequence: admit it unsigned, as before membership. -/
  | legacy
  /-- Admit it only with a signature by one of these keys. -/
  | keyed (keys : Finset String)
  /-- No incarnation of the writer holds this sequence. -/
  | fenced
  deriving DecidableEq

def Membership.window (m : Membership) (writer : String) (sequence : ℕ) : Window :=
  let keys := m.keysFor writer sequence
  if keys.Nonempty then .keyed keys
  else
    let incarnations := m.incarnationsOf writer
    if incarnations.any fun i => decide (i.start ≤ 1) then .fenced
    else
      -- The legacy window runs to the first keyed incarnation's floor, or to the high water of a
      -- removal without a key, whichever comes first.
      let ends := [m.legacyEnds.lookup writer, (incarnations.map (·.start)).min?.map (· - 1)]
      match (ends.filterMap id).min? with
      | some last => if last < sequence then .fenced else .legacy
      | none => .legacy

/-- Whether a claim counts when `m` is the current view. -/
def claimCounts (anchor : String) (claim : FleetClaim) (m : Membership) : Bool :=
  if claim.kind = memberAdmitted ∧ claim.text "via" = some "anchor" then
    -- The anchor's own admission is the root: its key must be the pinned anchor key, it must
    -- admit its own writer, and its envelope must be signed by that key inside the window it
    -- defines.
    decide (claim.text "member_key" = some anchor) && decide (claim.name = some claim.writer) &&
      decide (anchor ∈ claim.signers) && decide (claim.start ≤ claim.sequence) &&
      (m.fenceOf claim.writer anchor).all fun fence => decide (claim.sequence ≤ fence)
  else
    let keys := m.keysFor claim.writer claim.sequence
    if (claim.signers ∩ keys).Nonempty then
      if claim.kind = memberEndpoints ∨ claim.kind = memberLeft then
        -- Only a member may say where it listens or that it leaves, with its own key.
        (claim.text "member_key").any fun key =>
          decide (claim.name = some claim.writer) && decide (key ∈ keys) &&
            decide (key ∈ claim.signers)
      else if claim.kind = memberAdmitted then
        -- A member is admitted by another member, never by itself (except the anchor).
        claim.name.any fun name => decide (name ≠ claim.writer)
      else true
    else false

/-- The claims that count when `m` is the current view. -/
def validClaims (anchor : String) (claims : List FleetClaim) (m : Membership) : Finset String :=
  ((claims.filter fun claim => claimCounts anchor claim m).map (·.id)).toFinset

/-- One round of the fold: the claims that count in the view the current ones build. -/
def round (anchor : String) (claims : List FleetClaim) (current : Finset String) : Finset String :=
  validClaims anchor claims (Membership.build anchor claims current)

/-- The `fleet.*` claims among `claims`, by id. -/
def fleetClaims (claims : List FleetClaim) : List FleetClaim :=
  (claims.filter fun claim => startsWith "fleet." claim.kind).insertionSort fun a b => a.id ≤ b.id

/-- How many rounds the fold goes at most. -/
def foldLimit (claims : List FleetClaim) : ℕ := claims.length * 2 + 4

/-- Fold admitted `fleet.*` claims from a pinned anchor key. Without an anchor nothing counts.
When the rounds alternate between two sets, or run out, the claims the last two sets share are
kept. -/
def Membership.fold (anchor : Option String) (claims : List FleetClaim) : Membership :=
  match anchor with
  | none => {}
  | some anchor =>
    let claims := fleetClaims claims
    Membership.build anchor claims
      (Rounds.rounds (round anchor claims) (· ∩ ·) (foldLimit claims) none ∅)

end SmallTalk.Fleet
