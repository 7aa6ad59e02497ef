import Mathlib.Data.Finset.Option
import SmallTalk.Lib.Sorted
import SmallTalk.Data.Json

/-!
# Checkpoint — the drop rules

A checkpoint drops a claim when later claims of the same slot replace it. This module has what
the planner asks about claims: the slot a claim falls in and the rule of that slot
(`slotOf`), the positions each rule keeps of a slot in canonical order (`harnessKeep`,
`usageSeriesKeep`, `usageCumulativeKeep`, `loopKeep`, `fieldCarriers`), and whether later kept
claims set every field again (`witnessed`).

The schema of claim kinds is a parameter, `Registry`: the planner reads a kind's cardinality and
field names from it.
-/

namespace SmallTalk.Checkpoint

variable (claims : List ClaimRecord) (claim : ClaimRecord)

/-! ### Claims -/

/-- A stored claim. `body` is its parsed body. -/
structure ClaimRecord where
  id : String
  batchId : String
  subject : String
  kind : String
  origin : String
  actor : Option String
  operationId : Option String
  body : Json
  predecessors : List String
  acceptedAtUnixMs : ℕ

def fields (claim : ClaimRecord) : Option (List (String × Json)) :=
  (claim.body.get "fields").bind Json.asObject

/-- The names of the fields a claim sets, none when it has no `fields` object. -/
def fieldNames : List String := ((fields claim).getD []).map Prod.fst

def field (name : String) : Option Json :=
  (fields claim).bind fun fields => fields.lookup name

def fieldText (name : String) : String :=
  match field claim name with
  | some (.str text) => text
  | some value => value.text
  | none => ""

def fieldStr (name : String) : Option String :=
  (field claim name).bind Json.asStr

/-! ### The schema -/

inductive Cardinality where
  | append
  | once
  | oncePerActor
  | oncePerAttempt
  | stateTransition
  deriving DecidableEq, Repr

/-- What the planner reads of a kind's schema. -/
structure ClaimSpec where
  cardinality : Cardinality
  fields : Finset String

/-- The claim schema, by kind. -/
structure Registry where
  claim : String → Option ClaimSpec

/-! ### Slots -/

/-- The rules, in the order of the source. -/
inductive Rule where
  | newest
  | newestAged
  | harnessObserved
  | loopState
  | deferral
  | usageSeries
  | usageCumulative
  deriving DecidableEq, Repr

instance : LinearOrder Rule :=
  LinearOrder.lift' Rule.ctorIdx fun a b h => by cases a <;> cases b <;> first | rfl | cases h

/-- A rule, and the texts that tell its slots apart. -/
abbrev Slot := Rule ×ₗ List String

def dayMs : ℕ := 86400000
def hourMs : ℕ := 60 * 60 * 1000

/-- How long before the cut a claim of a local kind must be dated to be dropped. -/
def localKindMinAgeMs : ℕ := 5 * dayMs

/-- How long before the cut usage rollups keep their hourly history. -/
def usageWindowMs : ℕ := 7 * dayMs

def harnessOptionalFields : List String :=
  ["driver", "transport", "reason", "blocked_on", "ask", "input_buffer", "exit"]

/-- The kinds that close a subscription's mission request. -/
def requestClosers : List String :=
  ["subscription.mission-started", "subscription.mission-failed",
    "subscription.mission-request-cancelled"]

/-- The rule and slot of a claim, or `none` when no rule may drop it. -/
def slotOf : Option Slot :=
  let slot (rule : Rule) (extra : List String) : Option Slot :=
    some (toLex (rule, claim.subject :: claim.kind :: extra))
  let texts (names : List String) : List String := names.map (fieldText claim)
  match claim.kind with
  | "harness.observed" =>
    (fieldStr claim "incarnation_id").bind fun _ =>
      slot .harnessObserved (texts ["incarnation_id"])
  | "harness.timeline" => slot .newestAged (texts ["incarnation_id"])
  | "loop.state" => slot .loopState []
  | "subscription.mission-deferred" => slot .deferral (texts ["request"])
  | "observer.observed" => slot .newest []
  | "daemon.diagnostic" => slot .newest (texts ["code"])
  | "transport.observed" => slot .newest [claim.origin]
  | "runtime.action.requested" | "runtime.action.succeeded" | "runtime.action.failed"
  | "runtime.action.deadline-reached" =>
    if claim.actor.isNone then
      slot .newestAged (texts ["action", "incarnation_id", "operation_status"])
    else none
  | "render.applied" | "runtime.readiness-deadline-reached" => slot .newestAged []
  | "harness.limits" => slot .newest []
  | "harness.todo.observed" => slot .newest []
  | "resource.observed" =>
    if claim.actor.isNone ∧ "observer" ∈ fieldNames claim then slot .newest [] else none
  | "harness.usage" =>
    match fieldStr claim "semantics" with
    | some "response_rollup" =>
      slot .usageSeries
        (texts ["incarnation_id", "model", "account", "owner_run", "owner_step", "host"])
    | some "session_cumulative" => slot .usageCumulative (texts ["semantics", "incarnation_id"])
    | some "context_occupancy" => slot .newest (texts ["semantics", "incarnation_id"])
    | _ => none
  | _ => none

/-- Whether every field `claim` sets is in `later`, the names that `laterClaims` later kept claims
of its slot set. A state transition clears every field of its kind, so there any later claim
replaces one that sets only schema fields. -/
def witnessed (registry : Registry) (claim : ClaimRecord) (later : Finset String)
    (laterClaims : ℕ) : Bool :=
  if 0 < laterClaims ∧ ∃ spec ∈ registry.claim claim.kind,
      spec.cardinality = .stateTransition ∧ ∀ name ∈ fieldNames claim, name ∈ spec.fields then true
  else decide (0 < laterClaims ∧ ∀ name ∈ fieldNames claim, name ∈ later)

/-! ### What each rule keeps

Each takes the claims of one slot in canonical order, and returns the positions it keeps. -/

/-- The last position at which `p` holds (`Iterator::rposition`). -/
def rposition {α : Type*} (p : α → Bool) (l : List α) : Option ℕ :=
  (l.reverse.findIdx? p).map fun i => l.length - 1 - i

/-- The newest claim that sets each field. -/
def fieldCarriers : Finset ℕ :=
  let carry (state : Finset String × Finset ℕ) (entry : ClaimRecord × ℕ) :=
    (fieldNames entry.1).foldl
      (fun (seen, keep) name =>
        if name ∈ seen then (seen, keep) else (insert name seen, insert entry.2 keep))
      state
  (claims.zipIdx.reverse.foldl carry (∅, ∅)).2

def harnessKeep : Finset ℕ :=
  let state (claim : ClaimRecord) := fieldStr claim "state"
  let ready (claim : ClaimRecord) :=
    decide (state claim ∈ [some "ready", some "working", some "idle"])
  let readyNoAuth (claim : ClaimRecord) :=
    ready claim && decide (fieldStr claim "reason" ≠ some "providerAuth")
  let lastOther := rposition (fun claim => (state claim).any (· ≠ "working")) claims
  let after := lastOther.elim 0 (· + 1)
  let working := (claims.zipIdx.drop after).filter fun entry => state entry.1 = some "working"
  let carriers := harnessOptionalFields.filterMap fun name =>
    rposition (fun claim => decide (name ∈ fieldNames claim)) claims
  {0, claims.length - 1} ∪ (claims.findIdx? ready).toFinset ∪
    (claims.findIdx? readyNoAuth).toFinset ∪ lastOther.toFinset ∪
    (working.map Prod.snd).toFinset ∪ carriers.toFinset

/-- When a usage snapshot was measured, as its writer recorded it. -/
def usageObservedAt : ℕ :=
  ((field claim "observed_at_unix_ms").bind Json.asU64).getD claim.acceptedAtUnixMs

/-- The last snapshot of each hour within the window, the newest before it, and the newest. -/
def usageSeriesKeep (cut : ℕ) : Finset ℕ :=
  let window := cut - usageWindowMs
  let note (state : List (ℕ × ℕ) × Option ℕ) (entry : ClaimRecord × ℕ) :=
    let observed := usageObservedAt entry.1
    if observed < window then (state.1, some entry.2)
    else (Sorted.upsert Prod.fst state.1 (observed / hourMs, entry.2), state.2)
  let (lastOfHour, newestBeforeWindow) := claims.zipIdx.foldl note ([], none)
  (lastOfHour.map Prod.snd).toFinset ∪ newestBeforeWindow.toFinset ∪
    (if claims = [] then ∅ else {claims.length - 1})

/-- The newest reading, and the last one of the largest total. -/
def usageCumulativeKeep : Finset ℕ :=
  let total (claim : ClaimRecord) := ((field claim "total_tokens").bind Json.asU64).getD 0
  let largest := (claims.map total).foldl max 0
  (if claims = [] then ∅ else {claims.length - 1}) ∪
    (rposition (fun claim => decide (total claim = largest)) claims).toFinset

/-- The first and the last of each run of one status and round, and the first with items. -/
def loopKeep : Finset ℕ :=
  let runKey (claim : ClaimRecord) := (fieldText claim "status", fieldText claim "round")
  let keys := claims.map runKey
  let ends := (List.range claims.length).filter fun position =>
    -- A run starts where the key before differs, and ends where the key after does.
    position = 0 ∨ keys[position - 1]? ≠ keys[position]? ∨ keys[position + 1]? ≠ keys[position]?
  ends.toFinset ∪
    (claims.findIdx? fun claim => decide ("items" ∈ fieldNames claim)).toFinset

end SmallTalk.Checkpoint
