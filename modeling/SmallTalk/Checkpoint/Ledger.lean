import SmallTalk.Checkpoint.Certificates
import SmallTalk.Checkpoint.Sound
import SmallTalk.Checkpoint.TrimPass
import SmallTalk.Lib.Keyed

/-!
# Checkpoint — applying checkpoints and serving their manifests

A node applies the newest stable checkpoint from its own plan, when it verified the certificate that
every node applies, or adopts the manifest of a peer that applied it. Either way it records the
tombstones under the checkpoint's name and marks it `trimming`; a pass later marks it `trimmed`. It
then serves the tombstones of the checkpoint and of all earlier ones as the manifest.

`verifyCheckpointManifest_ok` says what a manifest that passes is.
-/

namespace SmallTalk.Checkpoint

open Replication (Hasher)
open Sorted

structure St3Error where
  code : String
  message : String
  details : List (String × String) := []
  deriving DecidableEq, Repr

/-! ### Manifests -/

/-- Every tombstone a node holds for a checkpoint and the checkpoints before it. -/
structure CheckpointManifest where
  checkpoint : String
  cutUnixMs : ℕ
  envelopes : List EnvelopeTombstone
  claims : List ClaimTombstone

def invalidManifest (message : String) : St3Error := ⟨"checkpoint-manifest-invalid", message, []⟩

/-- The keys of the envelopes, each before the cut and listed once. -/
def checkEnvelopes (cut : ℕ) : List EnvelopeTombstone → List EnvelopeKey →
    Except St3Error (List EnvelopeKey)
  | [], seen => .ok seen
  | d :: rest, seen =>
    if cut ≤ d.acceptedAtUnixMs then
      .error (invalidManifest
        ("envelope " ++ d.writer ++ "/" ++ toString d.sequence ++ " is not before the cut"))
    else if d.key ∈ seen then
      .error (invalidManifest
        ("envelope " ++ d.writer ++ "/" ++ toString d.sequence ++ " is listed twice"))
    else checkEnvelopes cut rest (d.key :: seen)

/-- Each claim is in a listed envelope, before the cut and listed once. -/
def checkClaims (cut : ℕ) (envelopes : List EnvelopeKey) : List ClaimTombstone → List String →
    Except St3Error Unit
  | [], _ => .ok ()
  | d :: rest, seen =>
    if d.envelope ∉ envelopes then
      .error (invalidManifest
        ("claim " ++ "\x60" ++ d.id ++ "\x60" ++ " names an envelope the manifest keeps"))
    else if cut ≤ d.acceptedAtUnixMs then
      .error (invalidManifest ("claim " ++ "\x60" ++ d.id ++ "\x60" ++ " is not before the cut"))
    else if d.id ∈ seen then
      .error (invalidManifest ("claim " ++ "\x60" ++ d.id ++ "\x60" ++ " is listed twice"))
    else checkClaims cut envelopes rest (d.id :: seen)

/-- Check a manifest against the drop digest of its certificate. `text` prints a digest. -/
def verifyCheckpointManifest (H : Hasher) (text : H.Digest → String)
    (manifest : CheckpointManifest) (expected : String) : Except St3Error Unit := do
  let envelopes ← checkEnvelopes manifest.cutUnixMs manifest.envelopes []
  checkClaims manifest.cutUnixMs envelopes manifest.claims []
  let digest := text (dropDigest H manifest.envelopes manifest.claims)
  if digest ≠ expected then
    .error ⟨"checkpoint-manifest-mismatch", "the manifest of " ++ "\x60" ++ manifest.checkpoint ++
      "\x60" ++ " does not match the drop its participants verified",
      [("drop_digest", digest), ("expected_drop_digest", expected)]⟩
  else .ok ()

/-- The manifest is that of a drop before the cut, of claims with their envelopes. -/
structure CheckpointManifest.Consistent (manifest : CheckpointManifest) : Prop where
  envelopesBefore : ∀ d ∈ manifest.envelopes, d.acceptedAtUnixMs < manifest.cutUnixMs
  envelopesOnce : (manifest.envelopes.map EnvelopeTombstone.key).Nodup
  claimsWithin : ∀ d ∈ manifest.claims,
    d.envelope ∈ manifest.envelopes.map EnvelopeTombstone.key
  claimsBefore : ∀ d ∈ manifest.claims, d.acceptedAtUnixMs < manifest.cutUnixMs
  claimsOnce : (manifest.claims.map ClaimTombstone.id).Nodup

/-- The keys of a list differ from each other and from those seen before it. -/
theorem fresh_cons {α κ : Type*} {key : α → κ} {d : α} {rest : List α} {seen : List κ}
    (hnew : key d ∉ seen) : ((rest.map key).Nodup ∧ ∀ d' ∈ rest, key d' ∉ key d :: seen) ↔
      ((d :: rest).map key).Nodup ∧ ∀ d' ∈ d :: rest, key d' ∉ seen := by
  simp only [List.mem_cons, List.map_cons, List.nodup_cons, List.mem_map, not_or, forall_eq_or_imp]
  constructor
  · rintro ⟨hnodup, hfresh⟩
    refine ⟨⟨?_, hnodup⟩, hnew, fun d' hd' => (hfresh d' hd').2⟩
    rintro ⟨d', hd', heq⟩
    exact (hfresh d' hd').1 heq
  · rintro ⟨⟨honce, hnodup⟩, -, hfresh⟩
    exact ⟨hnodup, fun d' hd' => ⟨fun heq => honce ⟨d', hd', heq⟩, hfresh d' hd'⟩⟩

theorem checkEnvelopes_ok {cut : ℕ} {l : List EnvelopeTombstone} {seen keys : List EnvelopeKey} :
    checkEnvelopes cut l seen = .ok keys ↔
      (∀ d ∈ l, d.acceptedAtUnixMs < cut) ∧ (l.map EnvelopeTombstone.key).Nodup ∧
        (∀ d ∈ l, d.key ∉ seen) ∧ keys = (l.map EnvelopeTombstone.key).reverse ++ seen := by
  induction l generalizing seen with
  | nil => simp [checkEnvelopes, eq_comm]
  | cons d rest ih =>
    unfold checkEnvelopes
    split
    case isTrue hlate => simp [hlate]
    split
    case isTrue hseen => simp [hseen]
    case isFalse hearly hnew =>
      rw [ih, ← and_assoc (c := keys = _), fresh_cons hnew]
      simp [not_le.mp hearly, and_assoc]

theorem checkClaims_ok {cut : ℕ} {envelopes : List EnvelopeKey} {l : List ClaimTombstone}
    {seen : List String} :
    checkClaims cut envelopes l seen = .ok () ↔
      (∀ d ∈ l, d.envelope ∈ envelopes) ∧ (∀ d ∈ l, d.acceptedAtUnixMs < cut) ∧
        (l.map ClaimTombstone.id).Nodup ∧ ∀ d ∈ l, d.id ∉ seen := by
  induction l generalizing seen with
  | nil => simp [checkClaims]
  | cons d rest ih =>
    unfold checkClaims
    split
    case isTrue hkept => simp [hkept]
    split
    case isTrue hlate => simp [hlate]
    split
    case isTrue hseen => simp [hseen]
    case isFalse hwithin hearly hnew =>
      rw [ih, fresh_cons hnew]
      simp [not_le.mp hearly, not_not.mp hwithin]

/-- **A manifest passes** when it is consistent and its digest is the certified one. -/
theorem verifyCheckpointManifest_ok {H : Hasher} {text : H.Digest → String}
    {manifest : CheckpointManifest} {expected : String} :
    verifyCheckpointManifest H text manifest expected = .ok () ↔
      manifest.Consistent ∧ text (dropDigest H manifest.envelopes manifest.claims) = expected := by
  unfold verifyCheckpointManifest
  cases henvelopes : checkEnvelopes manifest.cutUnixMs manifest.envelopes [] with
  | error e =>
    refine ⟨nofun, fun ⟨h, _⟩ => ?_⟩
    cases henvelopes.symm.trans
      (checkEnvelopes_ok.mpr ⟨h.envelopesBefore, h.envelopesOnce, by simp, rfl⟩)
  | ok keys =>
    obtain ⟨hbefore, honce, -, rfl⟩ := checkEnvelopes_ok.mp henvelopes
    cases hclaims : checkClaims manifest.cutUnixMs
        ((manifest.envelopes.map EnvelopeTombstone.key).reverse ++ []) manifest.claims [] with
    | error e =>
      refine ⟨fun h => ?_, fun ⟨h, _⟩ => ?_⟩
      · simp only [bind, Except.bind, hclaims] at h
        cases h
      · cases hclaims.symm.trans (checkClaims_ok.mpr ⟨by simpa using h.claimsWithin,
          h.claimsBefore, h.claimsOnce, by simp⟩)
    | ok =>
      obtain ⟨hwithin, hearly, hids, -⟩ := checkClaims_ok.mp hclaims
      have hconsistent : manifest.Consistent :=
        ⟨hbefore, honce, by simpa using hwithin, hearly, hids⟩
      simp only [bind, Except.bind, hclaims, hconsistent, true_and]
      split
      case isTrue hdiffers => simp [hdiffers]
      case isFalse hsame => simpa using hsame

/-! ### The ledger of a node -/

inductive CheckpointState where
  | sealed
  | verified
  | planChanged
  | trimming
  | trimmed
  | graphChanged
  | setAside
  deriving DecidableEq, Repr

structure CheckpointRow where
  cutUnixMs : ℕ
  state : CheckpointState
  sealRowid : Option ℕ := none
  dropDigest : Option String := none
  deriving DecidableEq, Repr

/-- The tables of a node, with the checkpoint that recorded each tombstone. `newest` is no table: it
is the checkpoint that the node applied last, with its cut. -/
structure Ledger where
  tables : Tables
  envelopeCheckpoint : EnvelopeKey → String := fun _ => ""
  claimCheckpoint : String → String := fun _ => ""
  checkpoints : TreeMap String CheckpointRow := .empty
  newest : Option (String × ℕ) := none

/-- What `trim_checkpoint` applies. An adoption is `exact`: other tombstones go. -/
structure Drop where
  checkpoint : String
  cutUnixMs : ℕ
  dropDigest : String
  envelopes : List EnvelopeTombstone
  claims : List ClaimTombstone
  exact : Bool

/-- How a node applies the newest stable checkpoint. -/
inductive Application where
  | done
  | ownPlan (checkpoint : String) (certificate : Certificate) (sealRowid : ℕ)
  | manifest (checkpoint : String) (cutUnixMs : ℕ) (dropDigest : String)

namespace Ledger

variable (ledger : Ledger) (checkpoint : String)

/-- The certificate is applied, or anything newer, or the cut is set aside. -/
def applied (cut : ℕ) (dropDigest : String) : Bool :=
  ledger.checkpoints.entries.any fun (_, row) =>
    (row.state = .trimmed ∧
      (cut < row.cutUnixMs ∨ row.cutUnixMs = cut ∧ row.dropDigest = some dropDigest)) ∨
    (row.state ∈ [.setAside, .graphChanged] ∧ cut ≤ row.cutUnixMs)

/-- The upsert of `checkpoints`: the cut of a row stays. -/
def upsert (cut : ℕ) (set : CheckpointRow → CheckpointRow) : Ledger :=
  { ledger with
    checkpoints := ledger.checkpoints.insert checkpoint
      (set ((ledger.checkpoints.get checkpoint).getD ⟨cut, .sealed, none, none⟩)) }

def setCheckpointState (cut : ℕ) (state : CheckpointState) : Ledger :=
  ledger.upsert checkpoint cut fun row => { row with state := state }

/-- Record that the node sealed or verified a checkpoint. -/
def recordCheckpointState (cut : ℕ) (state : CheckpointState) (sealRowid : ℕ)
    (dropDigest : Option String) : Ledger :=
  ledger.upsert checkpoint cut fun row =>
    { row with state := state, sealRowid := some sealRowid, dropDigest := dropDigest }

/-- The first transaction of `trim_checkpoint`. -/
def trimCheckpoint (drop : Drop) : Ledger :=
  let tables := if drop.exact then
    ledger.tables.keepOnlyTombstones drop.envelopes drop.claims else ledger.tables
  let ledger := ledger.upsert drop.checkpoint drop.cutUnixMs fun row =>
    { row with state := .trimming, dropDigest := some drop.dropDigest }
  { ledger with
    tables := tables.recordCheckpointTombstones drop.envelopes drop.claims
    envelopeCheckpoint := Keyed.stamp EnvelopeTombstone.key tables.checkpointEnvelopes
      drop.envelopes drop.checkpoint ledger.envelopeCheckpoint
    claimCheckpoint := Keyed.stamp ClaimTombstone.id tables.checkpointClaims
      drop.claims drop.checkpoint ledger.claimCheckpoint
    newest := some (drop.checkpoint, drop.cutUnixMs) }

/-- The end of a pass, for a checkpoint that is being trimmed. -/
def finishTrim : Ledger :=
  match ledger.checkpoints.get checkpoint with
  | some row =>
    if row.state = .trimming then ledger.setCheckpointState checkpoint 0 .trimmed else ledger
  | none => ledger

/-- A trim stopped, because the graph would change. -/
def stopTrim : Ledger :=
  ledger.setCheckpointState checkpoint 0 .graphChanged

/-- A person lets checkpoints go on. -/
def resumeCheckpoints : Ledger :=
  { ledger with
    checkpoints := ledger.checkpoints.map fun row =>
      if row.state = .graphChanged then { row with state := .setAside } else row }

/-- The whole manifest of a checkpoint: the tombstones of it and of every earlier one. -/
def checkpointManifest (cut : ℕ) : CheckpointManifest where
  checkpoint := checkpoint
  cutUnixMs := cut
  envelopes := (ledger.tables.checkpointEnvelopes.filter fun d =>
    ledger.envelopeCheckpoint d.key ≤ checkpoint).insertionSort fun a b => a.key ≤ b.key
  claims := (ledger.tables.checkpointClaims.filter fun d =>
    ledger.claimCheckpoint d.id ≤ checkpoint).insertionSort fun a b => a.id ≤ b.id

section

variable (checkpointName : ℕ → String) (origin : String)

def newestApplication (ledger : Ledger) (claims : List CheckpointClaim) : Option Application :=
  (stableCheckpoints checkpointName claims).entries.getLast?.bind fun (cut, certificates) =>
    (chosenCertificate certificates).map fun certificate =>
      let checkpoint := checkpointName cut
      let dropDigest := certificate.terms.dropDigest
      let row := ledger.checkpoints.get checkpoint
      if ledger.applied cut dropDigest then .done
      else if (certificate.verifications.get origin).isSome ∧ row.any (·.state ≠ .planChanged) then
        (row.bind CheckpointRow.sealRowid).elim (.manifest checkpoint cut dropDigest)
          (.ownPlan checkpoint certificate)
      else .manifest checkpoint cut dropDigest

variable (H : Hasher) (text : H.Digest → String) (registry : Registry)

/-- What `apply_stable_checkpoints` trims from its own plan, if it still plans what it verified. -/
def ownDrop (ledger : Ledger) (checkpoint : String) (certificate : Certificate)
    (sealRowid : ℕ) : Option Drop :=
  let cut := certificate.terms.cutUnixMs
  let plan := planDrops H registry (ledger.tables.sealedSetThrough cut (some sealRowid))
  if text plan.sealedDigest = certificate.terms.sealedDigest ∧
      text plan.dropDigest = certificate.terms.dropDigest then
    some ⟨checkpoint, cut, text plan.dropDigest, plan.envelopes, plan.claims, false⟩
  else none

/-- What `adopt_checkpoint_checked` applies, if anything. -/
def adoptedDrop (ledger : Ledger) (claims : List CheckpointClaim) (manifest : CheckpointManifest)
    (requireNewest : Bool) : Except St3Error (Option Drop) :=
  if requireNewest ∧ ((stableCheckpoints checkpointName claims).entries.map Prod.fst).getLast?.any
      (manifest.cutUnixMs < ·) then
    .error ⟨"checkpoint-superseded", "\x60" ++ manifest.checkpoint ++ "\x60" ++
      " is older than the newest stable checkpoint here; a node adopts only the newest", []⟩
  else match chosenCertificate (certificates checkpointName claims manifest.checkpoint) with
  | none =>
    .error ⟨"checkpoint-not-stable", "\x60" ++ manifest.checkpoint ++ "\x60" ++
      " is not stable on this node; it adopts a checkpoint once it holds " ++
      "every participant's verification", []⟩
  | some certificate =>
    if certificate.terms.cutUnixMs ≠ manifest.cutUnixMs then
      .error (invalidManifest "the manifest's cut is not the certified one")
    else
      (verifyCheckpointManifest H text manifest certificate.terms.dropDigest).map fun _ =>
        if ledger.applied manifest.cutUnixMs certificate.terms.dropDigest then none
        else some ⟨manifest.checkpoint, manifest.cutUnixMs, certificate.terms.dropDigest,
          manifest.envelopes, manifest.claims, true⟩

/-- Checkpoint history is restored only where there is none. -/
def restoredDrop (ledger : Ledger) (claims : List CheckpointClaim)
    (manifest : CheckpointManifest) : Except St3Error (Option Drop) :=
  if ledger.checkpoints.entries ≠ [] ∨ ledger.tables.checkpointEnvelopes ≠ [] ∨
      ledger.tables.checkpointClaims ≠ [] then
    .error ⟨"checkpoint-history-exists", "checkpoint restore requires empty checkpoint state", []⟩
  else ledger.adoptedDrop checkpointName H text claims manifest false

end

end Ledger

/-! ### Runs -/

/-- What changes the ledger. The claims are those about checkpoints that the node holds then;
`write` is any transaction that leaves tombstones alone. -/
inductive LedgerEvent where
  | write (tables : Tables)
  | recordSealed (checkpoint : String) (cut sealRowid : ℕ)
  | recordVerified (checkpoint : String) (cut sealRowid : ℕ) (dropDigest : String)
  | applyStable (claims : List CheckpointClaim)
  | adopt (claims : List CheckpointClaim) (manifest : CheckpointManifest)
  | restore (claims : List CheckpointClaim) (manifest : CheckpointManifest)
  | finish (checkpoint : String)
  | stop (checkpoint : String)
  | resume

namespace LedgerEvent

variable (checkpointName : ℕ → String) (origin : String) (H : Hasher) (text : H.Digest → String)
  (registry : Registry)

/-- The drop that an event applies. -/
def drop (ledger : Ledger) : LedgerEvent → Option Drop
  | .applyStable claims =>
    match ledger.newestApplication checkpointName origin claims with
    | some (.ownPlan checkpoint certificate sealRowid) =>
      ledger.ownDrop H text registry checkpoint certificate sealRowid
    | _ => none
  | .adopt claims manifest =>
    ((ledger.adoptedDrop checkpointName H text claims manifest true).toOption).join
  | .restore claims manifest =>
    ((ledger.restoredDrop checkpointName H text claims manifest).toOption).join
  | _ => none

/-- What an event does besides. -/
def other (ledger : Ledger) : LedgerEvent → Ledger
  | .write tables =>
    { ledger with
      tables := { tables with
        checkpointEnvelopes := ledger.tables.checkpointEnvelopes
        checkpointClaims := ledger.tables.checkpointClaims
        distinctTombstones := ledger.tables.distinctTombstones } }
  | .recordSealed checkpoint cut sealRowid =>
    ledger.recordCheckpointState checkpoint cut .sealed sealRowid none
  | .recordVerified checkpoint cut sealRowid dropDigest =>
    ledger.recordCheckpointState checkpoint cut .verified sealRowid (some dropDigest)
  | .applyStable claims =>
    match ledger.newestApplication checkpointName origin claims with
    | some (.ownPlan checkpoint certificate _) =>
      ledger.setCheckpointState checkpoint certificate.terms.cutUnixMs .planChanged
    | _ => ledger
  | .finish checkpoint => ledger.finishTrim checkpoint
  | .stop checkpoint => ledger.stopTrim checkpoint
  | .resume => ledger.resumeCheckpoints
  | .adopt .. | .restore .. => ledger

end LedgerEvent

def Ledger.apply (checkpointName : ℕ → String) (origin : String) (H : Hasher)
    (text : H.Digest → String) (registry : Registry) (ledger : Ledger) (event : LedgerEvent) :
    Ledger :=
  match event.drop checkpointName origin H text registry ledger with
  | some drop => ledger.trimCheckpoint drop
  | none => event.other checkpointName origin ledger

end SmallTalk.Checkpoint
