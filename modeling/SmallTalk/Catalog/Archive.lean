import Mathlib.Data.List.Sort
import Mathlib.Data.String.Basic

/-!
# Catalog — archiving retired seats

A retired seat leaves the live catalog when its directory is moved under the archive root. An
operator archives every retired seat of a host, or the identities named; the supervisor's pass
archives the seats whose retirement outlived a grace period, and the direct actors whose session
died.

* `CatalogTree.supervisorOf`: the declaration that another one names as its supervisor.
* `CatalogTree.eligibility`: whether a seat may leave together with a set of files.
* `CatalogTree.archive`, `CatalogTree.autoArchive`: the two operations.

Paths are lists of components, relative to the catalog.
-/

namespace SmallTalk.Catalog

/-! ### Paths -/

abbrev Path := List String

/-- The components of a relative path: empty ones and `.` are not components. -/
def components (name : String) : Path :=
  ((name.toList.splitOn '/').filter fun part => part ≠ [] ∧ part ≠ ['.']).map String.ofList

/-- An absolute name replaces the path. -/
def join (path : Path) (name : String) : Path :=
  if name.toList.head? = some '/' then "/" :: components name else path ++ components name

def shown (path : Path) : String := "/".intercalate path

def validateComponent (label value : String) : Except String Unit :=
  if value.toList ≠ [] ∧ '/' ∉ value.toList ∧ '\x00' ∉ value.toList ∧
      value ∉ [".", "..", ".git", ".st2"] then .ok ()
  else .error (label ++ " is not one safe path component: " ++ value)

def archiveRoot : Path := [".st2", "archive"]

def tombstoneSuffix : String := ".tombstone.json"

/-! ### Declarations -/

inductive AgentDesiredState where
  | running
  | suspended (reason : String)
  | retired (reason : Option String)
deriving DecidableEq

namespace AgentDesiredState

def asStr : AgentDesiredState → String
  | running => "running"
  | suspended _ => "suspended"
  | retired _ => "retired"

def reason : AgentDesiredState → Option String
  | running => none
  | suspended reason => some reason
  | retired reason => reason

def isRetired : AgentDesiredState → Bool
  | retired _ => true
  | _ => false

end AgentDesiredState

structure Task where
  id : Option String
  name : String
deriving DecidableEq

structure AgentSpec where
  identity : String
  host : Option String
  path : Path
  desiredState : AgentDesiredState
  supervisor : Option String
  tasks : List Task
deriving DecidableEq

namespace AgentSpec

def resolvedHost (spec : AgentSpec) (thisHost : String) : String := spec.host.getD thisHost

def busId (spec : AgentSpec) (thisHost : String) : String :=
  spec.host.getD thisHost ++ "." ++ spec.identity

end AgentSpec

/-- The only declaration that `identity` names, read at `localHost`. -/
def resolveSpec (specs : List AgentSpec) (identity localHost : String) : Option AgentSpec :=
  match specs.filter fun spec => spec.busId localHost = identity ∨
      (spec.resolvedHost localHost = localHost ∧ spec.identity = identity) with
  | [spec] => some spec
  | _ => none

/-! ### The catalog -/

/-- When each identity of a host was first observed, and where the next scan starts. -/
structure ObservationLedger where
  observed : String → String → Option ℕ
  resumeAfter : String → Option String

/-- `declarations` are the declaration files without a seat, `dirs` the identity directories under
`agents`, and `archiveEntries` what exists under the archive root. -/
structure CatalogTree where
  specs : List AgentSpec
  declarations : List Path
  dirs : List Path
  archiveEntries : List Path
  retiredLedger : ObservationLedger
  directLedger : ObservationLedger

structure Refusal where
  id : String
  code : String
  message : String
deriving DecidableEq

structure Candidate where
  id : String
  host : String
  identity : String
  reason : Option String
  /-- The directory that is moved. -/
  origin : Path
deriving DecidableEq

structure ArchivedEntry where
  id : String
  host : String
  identity : String
  origin : String
  destination : String
  archivedAt : ℕ
  reason : Option String
deriving DecidableEq

/-- The task ids that have a runtime record, and whether it is alive. -/
abbrev Records := String → Option Bool

/-- The directory of an identity. -/
def identityDir (host identity : String) : Path := join (join ["agents"] host) identity

def slot (host identity : String) : Path := join (join archiveRoot host) identity

/-- The file a seat should be declared in. -/
def AgentSpec.canonical (spec : AgentSpec) (host : String) : Path :=
  identityDir host spec.identity ++ ["agent.kdl"]

def AgentSpec.taskIds (spec : AgentSpec) (host : String) : List String :=
  spec.tasks.map fun task => task.id.getD (spec.busId host ++ "." ++ task.name)

def occupied (id : String) (path : Path) : Refusal :=
  ⟨id, "archive-occupied",
    "the archive already holds " ++ shown path ++ "; unarchive it or move it aside first"⟩

def supervisorReferenced (id : String) (dependents : List String) : Refusal :=
  ⟨id, "supervisor-referenced", "still supervises " ++ ", ".intercalate dependents⟩

namespace CatalogTree

variable (catalog : CatalogTree) (host : String) (records : Records)

def supervisorOf (spec : AgentSpec) : Option AgentSpec :=
  spec.supervisor.bind fun supervisor =>
    resolveSpec catalog.specs supervisor (spec.resolvedHost host)

/-- The declarations outside `leaving` that name a declaration in the file of `spec`. -/
def dependents (spec : AgentSpec) (leaving : List Path) : List String :=
  ((catalog.specs.filter fun other => other.path ∉ leaving).filter fun other =>
    (catalog.supervisorOf host other).any fun boss => boss.path = spec.path).map
      fun other => other.busId host

def eligibility (leaving : List Path) (spec : AgentSpec) : Except Refusal Candidate :=
  let id := spec.busId host
  let live := (spec.taskIds host).filterMap fun task => (records task).map fun alive =>
    task ++ " (" ++ (if alive then "alive" else "dead") ++ ")"
  if spec.path ≠ spec.canonical host then
    .error ⟨id, "non-canonical-declaration",
      "declaration is at " ++ shown spec.path ++ ", not the canonical agents/" ++ host ++ "/" ++
        spec.identity ++ "/agent.kdl"⟩
  else if !spec.desiredState.isRetired then
    .error ⟨id, "not-retired",
      "desired state is '" ++ spec.desiredState.asStr ++ "'; archive requires 'retired'"⟩
  else if live ≠ [] then
    .error ⟨id, "runtime-record-present",
      "retirement is incomplete: " ++ ", ".intercalate live⟩
  else if catalog.dependents host spec leaving ≠ [] then
    .error (supervisorReferenced id (catalog.dependents host spec leaving))
  -- a declaration made again under a name that the archive still holds
  else if slot host spec.identity ∈ catalog.archiveEntries then
    .error (occupied id (slot host spec.identity))
  else .ok ⟨id, host, spec.identity, spec.desiredState.reason, identityDir host spec.identity⟩

end CatalogTree

/-! ### The operator's request -/

inductive Selection where
  | identities (identities : List String)
  | allRetired

/-- The seats that a scan goes through, by identity. -/
def byIdentity (specs : List AgentSpec) : List AgentSpec :=
  specs.insertionSort fun left right => left.identity ≤ right.identity

def sortRefused (refused : List Refusal) : List Refusal :=
  refused.insertionSort fun left right => left.id ≤ right.id

namespace CatalogTree

variable (catalog : CatalogTree) (host : String) (records : Records)

/-- One identity of a request: its seat, or why there is none. -/
def selectIdentity (identity : String) : Except Refusal AgentSpec :=
  match catalog.specs.filter fun spec =>
      spec.resolvedHost host = host ∧ spec.identity = identity with
  | [spec] => .ok spec
  | [] => .error ⟨host ++ "." ++ identity, "unknown-identity",
      "no declaration for '" ++ identity ++ "' on host '" ++ host ++ "'"⟩
  | many => .error ⟨host ++ "." ++ identity, "ambiguous-identity",
      toString many.length ++ " declarations claim this identity"⟩

/-- What a list of attempts gave, and what it refused. -/
def parted {α : Type} (attempts : List (Except Refusal α)) : List α × List Refusal :=
  (attempts.filterMap Except.toOption,
    attempts.filterMap fun attempt => match attempt with
      | .ok _ => none
      | .error refusal => some refusal)

def select : Selection → Except String (List AgentSpec × List Refusal)
  | .allRetired => .ok (catalog.specs.filter fun spec =>
    spec.resolvedHost host = host ∧ spec.desiredState.isRetired, [])
  | .identities identities => do
      identities.forM (validateComponent "identity")
      .ok (parted (identities.map (catalog.selectIdentity host)))

/-- Every selected seat counts as leaving. -/
def plan (selection : Selection) : Except String (List Candidate × List Refusal) := do
  validateComponent "host" host
  let (selected, unselected) ← catalog.select host selection
  let selected := byIdentity selected
  let leaving := selected.map AgentSpec.path
  let (candidates, refused) := parted (selected.map (catalog.eligibility host records leaving))
  .ok (candidates, sortRefused (unselected ++ refused))

end CatalogTree

/-! ### Moving -/

def entry (candidate : Candidate) (archivedAt : ℕ) : ArchivedEntry :=
  ⟨candidate.id, candidate.host, candidate.identity, shown candidate.origin,
    shown (slot candidate.host candidate.identity), archivedAt, candidate.reason⟩

namespace CatalogTree

/-- Rename the directory, then write its tombstone. Every declaration under it goes with it. -/
def moveOut (catalog : CatalogTree) (candidate : Candidate) : Except String CatalogTree :=
  let hostRoot := join archiveRoot candidate.host
  let destination := slot candidate.host candidate.identity
  let tombstone := join hostRoot (candidate.identity ++ tombstoneSuffix)
  -- the host's archive directory is created first
  let archive := hostRoot :: catalog.archiveEntries
  if destination ∈ archive then
    .error ("archive already holds " ++ shown destination ++
      "; unarchive or move it aside first")
  else if tombstone ∈ archive then
    .error ("archive already holds a tombstone at " ++ shown tombstone)
  else if candidate.origin ∉ catalog.dirs then
    .error ("move " ++ shown candidate.origin ++ " to " ++ shown destination ++
      " (the archive root must share the catalog's filesystem)")
  else .ok { catalog with
    specs := catalog.specs.filter fun spec => !candidate.origin.isPrefixOf spec.path
    declarations := catalog.declarations.filter fun path => !candidate.origin.isPrefixOf path
    dirs := catalog.dirs.filter fun dir => !candidate.origin.isPrefixOf dir
    archiveEntries := tombstone :: destination :: archive }

/-- The moves, from the `n`-th reading of the clock on. -/
def moveAll (clock : ℕ → ℕ) : ℕ → List Candidate → CatalogTree →
    Except String (List ArchivedEntry × CatalogTree)
  | _, [], catalog => .ok ([], catalog)
  | n, candidate :: rest, catalog => do
      let moved ← catalog.moveOut candidate
      let (entries, last) ← moveAll clock (n + 1) rest moved
      .ok (entry candidate (clock n) :: entries, last)

end CatalogTree

structure ArchiveResult where
  host : String
  dryRun : Bool
  archived : List ArchivedEntry
  refused : List Refusal

namespace CatalogTree

variable (catalog : CatalogTree) (host : String) (records : Records) (clock : ℕ → ℕ)

def archiveLocked (dryRun : Bool) (candidates : List Candidate) (refused : List Refusal) :
    Except String (ArchiveResult × CatalogTree) :=
  if candidates = [] ∨ dryRun then
    .ok (⟨host, dryRun, candidates.map (entry · 0), refused⟩, catalog)
  else do
    let (archived, last) ← moveAll clock 0 candidates catalog
    .ok (⟨host, dryRun, archived, refused⟩, last)

/-- A request for named identities fails on any refusal. -/
def archive (selection : Selection) (dryRun : Bool) :
    Except String (ArchiveResult × CatalogTree) := do
  let (candidates, refused) ← catalog.plan host records selection
  match selection, refused with
  | .identities _, refusal :: _ => .error ("refusing to archive " ++ refusal.id ++ ": [" ++
      refusal.code ++ "] " ++ refusal.message)
  | _, _ => catalog.archiveLocked host clock dryRun candidates refused

end CatalogTree

/-! ### The supervisor's pass -/

/-- The grace period in whole milliseconds. -/
def graceMs (graceNs : ℕ) : ℕ := min (graceNs / 1000000) (2 ^ 64 - 1)

namespace ObservationLedger

variable (ledger : ObservationLedger) (host : String)

/-- The host's identities are observed from now on; an identity observed before keeps its time. -/
def reconciled (present : List String) (now : ℕ) : ObservationLedger :=
  { ledger with observed := fun other identity =>
      if other = host then
        if identity ∈ present then some ((ledger.observed host identity).getD now) else none
      else ledger.observed other identity }

def isDue (graceNs now : ℕ) (identity : String) : Prop :=
  graceMs graceNs ≤ now - (ledger.observed host identity).getD now

instance decidableIsDue (graceNs now : ℕ) (identity : String) :
    Decidable (ledger.isDue host graceNs now identity) :=
  inferInstanceAs (Decidable (_ ≤ _))

def resuming (next : Option String) : ObservationLedger :=
  { ledger with
    resumeAfter := fun other => if other = host then next else ledger.resumeAfter other }

def forgetting (gone : List String) : ObservationLedger :=
  { ledger with observed := fun other identity =>
      if other = host ∧ identity ∈ gone then none else ledger.observed other identity }

end ObservationLedger

section

variable {α : Type} (identity : α → String)

/-- Items by identity, from after `resumeAfter` on and wrapping around. -/
def startAfter (items : List α) : Option String → List α
  | none => items
  | some after => items.dropWhile (fun item => identity item ≤ after) ++
      items.takeWhile fun item => identity item ≤ after

def nextResumeAfter (items : List α) (scanned : ℕ) (resumeAfter : Option String) : Option String :=
  if scanned = items.length then none
  else match scanned with
    | 0 => resumeAfter
    | last + 1 => items[last]?.map identity

end

def dueScanFactor : ℕ := 4

def scanLimit (limit : ℕ) : ℕ := min (limit * dueScanFactor) (2 ^ 64 - 1)

/-- A scan of due seats: who was accepted, and the files that leave with them. -/
structure Scan where
  accepted : List (AgentSpec × Candidate)
  leaving : List Path
  refused : List Refusal
  scanned : ℕ

structure DueBatch where
  candidates : List Candidate
  refused : List Refusal
  scanned : ℕ
  deferred : ℕ
  resumeAfter : Option String

namespace CatalogTree

variable (catalog : CatalogTree) (host : String) (records : Records)

/-- Each seat is judged against the seats accepted before it. -/
def scanDue (limit : ℕ) : List AgentSpec → Scan → Scan
  | [], scan => scan
  | spec :: rest, scan =>
    if scan.accepted.length = limit ∨ scan.scanned = scanLimit limit then scan
    else match catalog.eligibility host records scan.leaving spec with
      | .ok candidate => scanDue limit rest
          { scan with
            accepted := scan.accepted ++ [(spec, candidate)]
            leaving := spec.path :: scan.leaving
            scanned := scan.scanned + 1 }
      | .error refusal => scanDue limit rest
          { scan with refused := scan.refused ++ [refusal], scanned := scan.scanned + 1 }

/-- Whether an accepted seat is named from outside the batch. -/
def isReferenced (leaving : List Path) (seat : AgentSpec × Candidate) : Bool :=
  catalog.dependents host seat.1 leaving ≠ []

/-- Take out the first accepted seat that is named from outside the batch, until there is none. -/
def recheck : ℕ → Scan → Scan
  | 0, scan => scan
  | rounds + 1, scan =>
    match scan.accepted.find? (catalog.isReferenced host scan.leaving) with
    | none => scan
    | some seat => recheck rounds
        { scan with
          accepted := scan.accepted.eraseP (catalog.isReferenced host scan.leaving)
          leaving := scan.leaving.filter (· ≠ seat.1.path)
          refused := scan.refused ++
            [supervisorReferenced seat.2.id (catalog.dependents host seat.1 scan.leaving)] }

def dueSeats (isDue : String → Bool) (resumeAfter : Option String) : List AgentSpec :=
  startAfter AgentSpec.identity (byIdentity (catalog.specs.filter fun spec =>
    spec.resolvedHost host = host ∧ spec.desiredState.isRetired ∧ isDue spec.identity)) resumeAfter

def planDue (isDue : String → Bool) (resumeAfter : Option String) (limit : ℕ) : DueBatch :=
  let selected := catalog.dueSeats host isDue resumeAfter
  if selected = [] then ⟨[], [], 0, 0, none⟩
  else
    let scan := catalog.scanDue host records limit selected ⟨[], [], [], 0⟩
    -- every round takes one seat out of the batch
    let scan := catalog.recheck host scan.accepted.length scan
    ⟨scan.accepted.map Prod.snd, sortRefused scan.refused, scan.scanned,
      selected.length - scan.scanned,
      nextResumeAfter AgentSpec.identity selected scan.scanned resumeAfter⟩

end CatalogTree

/-! ### Direct actors -/

def isGeneratedPtyId (id : List Char) : Bool :=
  id.length = 8 && id.all (· ∈ "23456789abcdefghjkmnpqrstuvwxyz".toList)

def isValidPtyId (id : List Char) : Bool :=
  id ≠ [] && id ≠ ['.'] && id ≠ ['.', '.'] && decide (id.length ≤ 255) &&
    id.all fun c => c.isAlphanum || c ∈ ['.', '_', '-']

def hexDigits : List Char := "0123456789abcdef".toList

/-- Two hexadecimal digits for each byte. -/
def hexOf (id : List Char) : List Char :=
  id.flatMap fun c => [hexDigits.getD (c.toNat / 16) '0', hexDigits.getD (c.toNat % 16) '0']

def encodePtyId (id : List Char) : Option (List Char) :=
  if !isValidPtyId id then none
  else if isGeneratedPtyId id then some id
  else some ('x' :: '-' :: hexOf id)

/-- The bytes of pairs of hexadecimal digits. A valid id has one byte for each character. -/
def bytesOf : List Char → Option (List Char)
  | [] => some []
  | [_] => none
  | high :: low :: rest => do
      let high ← hexDigits.idxOf? high
      let low ← hexDigits.idxOf? low
      let rest ← bytesOf rest
      some (Char.ofNat (16 * high + low) :: rest)

/-- Only the canonical encoding of a valid id is decoded. -/
def decodePtySegment (segment : List Char) : Option (List Char) :=
  if isGeneratedPtyId segment then some segment
  else match segment with
    | 'x' :: '-' :: hex =>
      if hex = [] then none
      else (bytesOf hex).filter fun decoded => encodePtyId decoded = some segment
    | _ => none

def identityPtyId (identity : String) : Option String :=
  if "direct.omp.".toList.isPrefixOf identity.toList then
    (decodePtySegment (identity.toList.drop 11)).map String.ofList
  else none

structure DirectActor where
  host : String
  identity : String
  ptyId : String
  dir : Path

def DirectActor.id (actor : DirectActor) : String := actor.host ++ "." ++ actor.identity

namespace CatalogTree

variable (catalog : CatalogTree) (host : String)

/-- The identity directories that a declaration lies in. -/
def declaredIdentityDirs : List Path :=
  (catalog.specs.map AgentSpec.path ++ catalog.declarations).filterMap fun path =>
    match path with
    | "agents" :: host :: identity :: _ => some ["agents", host, identity]
    | _ => none

def directActors : List DirectActor :=
  catalog.dirs.filterMap fun dir =>
    match dir with
    | ["agents", hostName, identity] => do
        let ptyId ← identityPtyId identity
        if hostName ≠ host ∨ dir ∈ catalog.declaredIdentityDirs then none
        else some ⟨hostName, identity, ptyId, dir⟩
    | _ => none

/-- The direct actors that go, and those refused, in one bounded scan. -/
def scanDirect (limit : ℕ) : List DirectActor → DueBatch → DueBatch
  | [], batch => batch
  | actor :: rest, batch =>
    if batch.candidates.length = limit ∨ batch.scanned = scanLimit limit then batch
    else if slot host actor.identity ∈ catalog.archiveEntries then
      scanDirect limit rest
        { batch with
          refused := batch.refused ++ [occupied actor.id (slot host actor.identity)]
          scanned := batch.scanned + 1 }
    else scanDirect limit rest
      { batch with
        candidates := batch.candidates ++ [⟨actor.id, actor.host, actor.identity,
          some ("direct OMP actor: PTY session " ++ actor.ptyId ++ " has no running record"),
          actor.dir⟩]
        scanned := batch.scanned + 1 }

/-- Plan the direct actors whose session is not `running` for the grace period. -/
def dueDirectActors (running : List String) (graceNs limit now : ℕ) :
    DueBatch × ObservationLedger :=
  let actors := catalog.directActors host
  let dead := (actors.filter fun actor => actor.ptyId ∉ running).map DirectActor.identity
  let ledger := catalog.directLedger.reconciled host dead now
  let selected := startAfter DirectActor.identity
    ((actors.filter fun actor =>
        actor.identity ∈ dead ∧ ledger.isDue host graceNs now actor.identity).insertionSort
      fun left right => left.identity ≤ right.identity)
    (ledger.resumeAfter host)
  let batch := catalog.scanDirect host limit selected ⟨[], [], 0, 0, none⟩
  let batch := { batch with
    deferred := selected.length - batch.scanned
    resumeAfter := nextResumeAfter DirectActor.identity selected batch.scanned
      (ledger.resumeAfter host) }
  -- the rows of the actors about to leave are dropped
  (batch, (ledger.resuming host batch.resumeAfter).forgetting host
    (batch.candidates.map Candidate.identity))

end CatalogTree

structure AutoArchiveRequest where
  host : String
  graceNs : ℕ
  limit : ℕ
deriving DecidableEq

structure AutoArchiveResult where
  archive : ArchiveResult
  scanned : ℕ
  deferred : ℕ
  directScanned : ℕ
  directDeferred : ℕ

namespace CatalogTree

/-- One pass. It does nothing while another holder has the lock. -/
def autoArchive (catalog : CatalogTree) (records : Records) (running : List String) (clock : ℕ → ℕ)
    (request : AutoArchiveRequest) (held : Bool) (now : ℕ) :
    Except String (Option AutoArchiveResult × CatalogTree) := do
  if request.graceNs = 0 then
    .error "auto-archive is disabled by archive-after \"0\""
  else
    validateComponent "host" request.host
    if held then .ok (none, catalog)
    else
      let retired := (catalog.specs.filter fun spec =>
        spec.resolvedHost request.host = request.host ∧ spec.desiredState.isRetired).map
          AgentSpec.identity
      let ledger := catalog.retiredLedger.reconciled request.host retired now
      let batch := catalog.planDue request.host records
        (fun identity => ledger.isDue request.host request.graceNs now identity)
        (ledger.resumeAfter request.host) request.limit
      let (direct, directLedger) := catalog.dueDirectActors request.host running request.graceNs
        (request.limit - batch.candidates.length) now
      let observed := { catalog with
        retiredLedger := ledger.resuming request.host batch.resumeAfter
        directLedger := directLedger }
      let (archived, last) ← observed.archiveLocked request.host clock false
        (batch.candidates ++ direct.candidates) (batch.refused ++ direct.refused)
      .ok (some ⟨archived, batch.scanned, batch.deferred, direct.scanned, direct.deferred⟩, last)

end CatalogTree

end SmallTalk.Catalog
