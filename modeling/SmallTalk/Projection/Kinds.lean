import SmallTalk.Checkpoint.Plan

/-!
# Projection — kinds of claims

The graph is projected from the claims that the replay projects (`replayProjectsKind`). Claims that
come from peers are projected as they arrive where their kind allows it, and otherwise the whole
graph is replayed (`replayNeeded`).
-/

namespace SmallTalk.Projection

open Checkpoint (ClaimRecord operationParts)

/-- Kinds whose claims change no part of the graph that depends on their order. -/
def simpleReplicationKinds : List String :=
  ["lane.approved", "lane.joined", "lane.left", "lane.marked", "lane.moved",
    "runtime.action.deadline-reached", "runtime.action.failed", "runtime.action.requested",
    "runtime.action.succeeded", "subscription.mission-deferred", "subscription.mission-failed",
    "subscription.mission-request-cancelled", "subscription.mission-request-released",
    "subscription.mission-requested", "subscription.mission-started",
    "observer.refresh-requested", "publication.operation", "attention.requested",
    "gate.requested", "gate.result", "loop.state", "observer.observed", "observer.state",
    "resource.observed", "subscription.state", "message.closed", "message.delivered",
    "message.read", "message.sent", "message.staged", "harness.diagnostic", "harness.observed",
    "harness.session-file", "harness.timeline", "harness.usage", "runtime.observed",
    "runtime.readiness-deadline-reached", "runtime.reconcile-decision",
    "runtime.restart-window-reset", "daemon.diagnostic", "daemon.started", "transport.observed",
    "render.applied", "workspace.observed", "work.claimed", "work.renewed", "work.progress",
    "work.submitted", "work.failed", "work.released", "work.extended", "subagent.appeared",
    "subagent.renewed", "subagent.ended"]

def simpleReplicationKind (kind : String) : Bool := kind ∈ simpleReplicationKinds

/-- Kinds of a mission run and its parts, apart from work. -/
def runKinds : List String :=
  ["mission-run.created", "mission-run.state", "run-generation.created", "run-generation.state",
    "run-generation.superseded", "revision-proposal.created", "revision-proposal.approved",
    "revision-proposal.cancelled", "revision-proposal.applied", "step-run.carried",
    "step-run.state", "step-run.retried"]

def replayProjectsKind (kind : String) : Bool :=
  kind ∈ ["intent.desired", "owned-set.revised", "doc.bound", "mission.published"] ++ runKinds ||
    startsWith "work." kind || startsWith "planning-session." kind

/-- Kinds that the incremental projection has a case for. -/
def incrementalKind (kind : String) : Bool :=
  kind ∈ ["intent.desired", "work.person-asked", "work.person-done", "work.person-cancelled",
    "doc.bound", "mission.published"] ++ runKinds

/-- The tests of `try_project_simple_replication_tx` on one claim that call for a full replay. -/
def replayNeeded (claim : ClaimRecord) : Bool :=
  (replayProjectsKind claim.kind && !simpleReplicationKind claim.kind &&
      !incrementalKind claim.kind) ||
    ((claim.body.get "_operation").isSome &&
      (startsWith "work." claim.kind || (operationParts claim.body).isNone))

end SmallTalk.Projection
