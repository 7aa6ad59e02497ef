import SmallTalk.Checkpoint.Rules
import SmallTalk.Lib.TreeMap

/-!
# Checkpoint — the answers about a subject

What a checkpoint must leave unchanged (`subject_answers`), as far as the kinds with drop rules go:
whether each incarnation of a harness was ever ready and since when it works, the lifetime usage,
the state and the items of a loop, the deferrals of the requests that are still open, and the newest
claim of each kind. All of it is read from the claims in canonical order.

Usage (`usageSummary`) is a fold. For each incarnation, rollups win over a cumulative total, and
that over the sum of single responses. Costs are floats, a parameter here.
-/

namespace SmallTalk.Checkpoint

open ClaimRecord Sorted

variable (claim : ClaimRecord) (claims : List ClaimRecord)

/-! ### Harnesses -/

/-- What is asked about an incarnation of a harness. -/
structure IncarnationAnswers where
  ready : Bool
  readyWithoutLogin : Bool
  workingSince : Option ℕ
  deriving DecidableEq, Repr

-- `isReady` names this.
local instance stateBEq : LawfulBEq (Option String) := inferInstance

def isReady : Bool :=
  decide (fieldStr claim "state" ∈ [some "ready", some "working", some "idle"])

def isReadyWithoutLogin : Bool :=
  isReady claim && decide (fieldStr claim "reason" ≠ some "providerAuth")

def isWorking : Bool := decide (fieldStr claim "state" = some "working")

/-- The claim has a state, and it is not `working`. -/
def isOther : Bool := (fieldStr claim "state").any (· ≠ "working")

/-- The first `working` after the last other state. -/
def workingSince : Option ℕ :=
  let after := (rposition isOther claims).elim 0 (· + 1)
  ((claims.drop after).find? isWorking).map acceptedAtUnixMs

def incarnationAnswers : List (String × IncarnationAnswers) :=
  (sortedSet (claims.filterMap (fieldStr · "incarnation_id"))).map fun incarnation =>
    let claims := claims.filter fun claim => fieldStr claim "incarnation_id" = some incarnation
    (incarnation, ⟨claims.any isReady, claims.any isReadyWithoutLogin, workingSince claims⟩)

/-! ### Usage -/

section

variable {F : Type*}

/-- A field of a usage claim, of its body where that has no `fields`. -/
def usageField (name : String) : Option Json :=
  ((claim.body.get "fields").getD claim.body).get name

def usageText (name : String) : Option String :=
  (usageField claim name).bind Json.asStr

def usageNumber (name : String) : Option ℕ :=
  (usageField claim name).bind Json.asU64

def usageIncarnation : String :=
  (usageText claim "incarnation_id").getD "unknown"

structure ContextUsage (F : Type*) where
  usedTokens : Option ℕ
  windowTokens : Option ℕ
  usedPercent : Option F
  model : Option String
  compactions : ℕ
  lastCompactionMs : Option ℕ
  lastCompactionTrigger : Option String
  observedAtUnixMs : ℕ
  deriving DecidableEq

structure CumulativeUsage (F : Type*) where
  total : ℕ
  input : ℕ
  output : ℕ
  cached : ℕ
  cost : Option F
  currency : Option String
  deriving DecidableEq

/-- The last snapshot of a rollup series. -/
structure Rollup where
  total : ℕ
  input : ℕ
  output : ℕ
  writes : ℕ
  reads : ℕ
  deriving DecidableEq, Repr

/-- The sum of the single responses of an incarnation. -/
structure Responses (F : Type*) where
  total : ℕ
  input : ℕ
  output : ℕ
  cached : ℕ
  cost : F
  hasCost : Bool
  currency : Option String
  deriving DecidableEq

/-- What an incarnation spent, by each way of telling. -/
@[ext]
structure Spend (F : Type*) where
  cumulative : Option (CumulativeUsage F)
  rollups : TreeMap String Rollup
  responses : Responses F

structure UsageSummary (F : Type*) where
  totalTokens : ℕ
  inputTokens : ℕ
  outputTokens : ℕ
  cachedTokens : ℕ
  cacheWriteTokens : ℕ
  cost : Option F
  currency : Option String
  incarnationCount : ℕ
  aggregation : String
  context : Option (ContextUsage F)
  deriving DecidableEq

/-- The names that tell the rollup series of an incarnation apart. -/
def rollupNames : List String := ["model", "account", "owner_run", "owner_step", "host"]

def rollupKey : String :=
  String.intercalate "\x00" (rollupNames.map fun name => (usageText claim name).getD "")

def rollup : Rollup :=
  let number (name : String) := (usageNumber claim name).getD 0
  ⟨number "total_tokens", number "input_tokens", number "output_tokens",
    number "cache_write_tokens", number "cached_tokens"⟩

variable [Add F] [Zero F] (asF64 : Json → Option F)

def usageFloat (claim : ClaimRecord) (name : String) : Option F :=
  (usageField claim name).bind asF64

def contextUsage (claim : ClaimRecord) : ContextUsage F where
  usedTokens := usageNumber claim "context_used_tokens"
  windowTokens := usageNumber claim "context_window_tokens"
  usedPercent := usageFloat asF64 claim "context_used_percent"
  model := usageText claim "model"
  compactions := (usageNumber claim "compactions").getD 0
  lastCompactionMs := usageNumber claim "last_compaction_ms"
  lastCompactionTrigger := usageText claim "last_compaction_trigger"
  observedAtUnixMs := claim.acceptedAtUnixMs

def cumulativeUsage (claim : ClaimRecord) (total : ℕ) : CumulativeUsage F where
  total := total
  input := (usageNumber claim "input_tokens").getD 0
  output := (usageNumber claim "output_tokens").getD 0
  cached := (usageNumber claim "cached_tokens").getD 0
  cost := usageFloat asF64 claim "cost"
  currency := usageText claim "currency"

def Responses.add (responses : Responses F) (claim : ClaimRecord) (total : ℕ) : Responses F where
  total := satAdd responses.total total
  input := satAdd responses.input ((usageNumber claim "input_tokens").getD 0)
  output := satAdd responses.output ((usageNumber claim "output_tokens").getD 0)
  cached := satAdd responses.cached ((usageNumber claim "cached_tokens").getD 0)
  cost := (usageFloat asF64 claim "cost").elim responses.cost (responses.cost + ·)
  hasCost := (usageFloat asF64 claim "cost").isSome || responses.hasCost
  currency := (usageText claim "currency").or responses.currency

namespace Spend

def empty : Spend F := ⟨none, .empty, ⟨0, 0, 0, 0, 0, false, none⟩⟩

/-- A reading replaces one that is no larger. -/
def noteCumulative (spend : Spend F) (candidate : CumulativeUsage F) : Spend F :=
  if spend.cumulative.all fun current => current.total ≤ candidate.total then
    { spend with cumulative := some candidate }
  else spend

end Spend

/-- What a claim adds to what its incarnation spent. -/
def spending (claim : ClaimRecord) : Option (Spend F → Spend F) :=
  match usageText claim "semantics" with
  | some "session_cumulative" => (usageNumber claim "total_tokens").map fun total spend =>
    spend.noteCumulative (cumulativeUsage asF64 claim total)
  | some "response_rollup" => some fun spend =>
    { spend with rollups := spend.rollups.insert (rollupKey claim) (rollup claim) }
  | some "response" => (usageNumber claim "total_tokens").map fun total spend =>
    { spend with responses := spend.responses.add asF64 claim total }
  | _ => none

/-- The fold: what each incarnation spent, and the last context reading. -/
@[ext]
structure UsageFold (F : Type*) where
  spend : TreeMap String (Spend F)
  context : Option (ContextUsage F)
  saw : Bool

def UsageFold.step (incarnation : Option String) (fold : UsageFold F) (claim : ClaimRecord) :
    UsageFold F :=
  if incarnation.any (· ≠ usageIncarnation claim) then fold else
    { spend := fold.spend.modify (usageIncarnation claim) .empty (spending asF64 claim)
      context := if usageText claim "semantics" = some "context_occupancy" then
        some (contextUsage asF64 claim) else fold.context
      saw := true }

/-- Sums and the cost over the incarnations. -/
def UsageSummary.add (state : UsageSummary F × F × Bool) (group : Spend F) :
    UsageSummary F × F × Bool :=
  let (summary, cost, hasCost) := state
  let summary := { summary with incarnationCount := summary.incarnationCount + 1 }
  if group.rollups.entries ≠ [] then
    (group.rollups.entries.foldl (fun summary entry => { summary with
        totalTokens := satAdd summary.totalTokens entry.2.total
        inputTokens := satAdd summary.inputTokens entry.2.input
        outputTokens := satAdd summary.outputTokens entry.2.output
        cacheWriteTokens := satAdd summary.cacheWriteTokens entry.2.writes
        cachedTokens := satAdd summary.cachedTokens entry.2.reads }) summary, cost, hasCost)
  else match group.cumulative with
    | some usage =>
      ({ summary with
          totalTokens := satAdd summary.totalTokens usage.total
          inputTokens := satAdd summary.inputTokens usage.input
          outputTokens := satAdd summary.outputTokens usage.output
          cachedTokens := satAdd summary.cachedTokens usage.cached
          currency := summary.currency.or usage.currency },
        usage.cost.elim cost (cost + ·), usage.cost.isSome || hasCost)
    | none =>
      ({ summary with
          totalTokens := satAdd summary.totalTokens group.responses.total
          inputTokens := satAdd summary.inputTokens group.responses.input
          outputTokens := satAdd summary.outputTokens group.responses.output
          cachedTokens := satAdd summary.cachedTokens group.responses.cached
          currency := summary.currency.or group.responses.currency },
        if group.responses.hasCost then cost + group.responses.cost else cost,
        group.responses.hasCost || hasCost)

/-- `usage_summary_from_rows`. -/
def usageSummary (incarnation : Option String) (claims : List ClaimRecord) :
    Option (UsageSummary F) :=
  let fold := claims.foldl (UsageFold.step asF64 incarnation) ⟨.empty, none, false⟩
  if fold.saw then
    let summary : UsageSummary F := ⟨0, 0, 0, 0, 0, none, none, 0,
      "cumulative-per-incarnation-else-response-deltas", fold.context⟩
    let (summary, cost, hasCost) :=
      (fold.spend.entries.map Prod.snd).foldl UsageSummary.add (summary, 0, false)
    some { summary with cost := if hasCost then some cost else none }
  else none

end

/-! ### Loops and deferrals -/

structure LoopAnswers where
  latest : Option Json
  items : Option Json

def loopAnswers : LoopAnswers where
  latest := claims.getLast?.map body
  items := (claims.find? fun claim => decide ("items" ∈ fieldNames claim)).map body

structure DeferralAnswers where
  count : ℕ
  notBefore : Option String
  deriving DecidableEq, Repr

/-- `json_extract`, as it compares with a text. -/
def extractText : Json → Option String
  | .null => none
  | .bool b => some (if b then "1" else "0")
  | .str s => some s
  | value => some value.text

/-- A claim that finishes a mission request. -/
def finishes (subject request : String) : Bool :=
  claim.subject = subject ∧ claim.kind ∈ requestClosers ∧
    ((claim.body.get "fields").bind (Json.get "request")).bind extractText = some request

/-- The mission requests of a subject that no claim finishes. -/
def pendingRequests (subject : String) : List String :=
  sortedSet (((claims.filter fun claim =>
      claim.subject = subject ∧ claim.kind = "subscription.mission-requested").map
    ClaimRecord.id).filter fun request => !claims.any fun claim => finishes claim subject request)

def deferralAnswers (pending : List String) (claims : List ClaimRecord) :
    List (String × DeferralAnswers) :=
  pending.map fun request =>
    let own := claims.filter fun claim => fieldStr claim "request" = some request
    (request, ⟨own.length, own.getLast?.map (fieldText · "not_before_unix_ms")⟩)

/-! ### All answers -/

/-- The claims of a subject and kind, in canonical order. -/
def claimsOfKind (subject kind : String) : List ClaimRecord :=
  claims.filter fun claim => claim.subject = subject ∧ claim.kind = kind

def kindsOf (subject : String) : List String :=
  sortedSet ((claims.filter fun claim => claim.subject = subject).map kind)

/-- The answers of `subject_answers` that the kinds with drop rules give. One that is about a kind
is there when a claim of the kind is. -/
structure SubjectAnswers (F : Type*) where
  incarnations : Option (List (String × IncarnationAnswers))
  usage : Option (Option (UsageSummary F))
  loop : Option LoopAnswers
  deferrals : Option (List (String × DeferralAnswers))
  latest : List (String × String)

def subjectAnswers {F : Type*} [Add F] [Zero F] (asF64 : Json → Option F)
    (claims : List ClaimRecord) (subject : String) : SubjectAnswers F :=
  let kinds := kindsOf claims subject
  { incarnations := if "harness.observed" ∈ kinds then
      some (incarnationAnswers (claimsOfKind claims subject "harness.observed")) else none
    usage := if "harness.usage" ∈ kinds then
      some (usageSummary asF64 none (claimsOfKind claims subject "harness.usage")) else none
    loop := if "loop.state" ∈ kinds then
      some (loopAnswers (claimsOfKind claims subject "loop.state")) else none
    deferrals := if "subscription.mission-deferred" ∈ kinds then
      some (deferralAnswers (pendingRequests claims subject)
        (claimsOfKind claims subject "subscription.mission-deferred")) else none
    latest := kinds.filterMap fun kind =>
      (claimsOfKind claims subject kind).getLast?.map fun claim => (kind, claim.id) }

end SmallTalk.Checkpoint
