import Mathlib.Data.List.Basic
import Mathlib.Data.String.Basic

/-!
# Ownership — the record of a harness's state

The driver processes of a session write what they see of their harness to one record. A session
claims the record first: the claim replaces whatever is there under the next sequence number, which
is also kept in a floor file beside the record, for the case that the record cannot be read.

* `Writer.observeInner`, `Writer.heartbeat`, `Writer.ended`: what a process writes.
* `claimLocked`, `claimWrapperless`: how a session takes the record over.

Every call is one step under the record's lock.
-/

namespace SmallTalk.Ownership

def u64Max : ℕ := 2 ^ 64 - 1

def saturatingAdd (a b : ℕ) : ℕ := min (a + b) u64Max

def harnessStateStale : ℕ := 15 * 60 * 1000

def harnessStateRefresh : ℕ := 5 * 60 * 1000

def harnessStateFutureSkew : ℕ := 60 * 1000

def currentSchema : String := "st.harness-state.v1"

/-- The current schema, in its present spelling or the old one. -/
def schemaMatches (actual : String) : Bool :=
  actual = currentSchema || actual = "st2.harness-state.v1"

def wrapperlessPrefix : String := "claude-session-"

inductive Activity where
  | ready | idle | active | child | ended | unknown
deriving DecidableEq

inductive BlockedOn where
  | none | human | unknown
deriving DecidableEq

inductive InputBuffer where
  | empty | nonempty | unknown
deriving DecidableEq

inductive Ask where
  | none | permission | question | review | unknown
deriving DecidableEq

structure Record where
  schema : String
  agent : String
  harness : String
  state : Activity
  blockedOn : BlockedOn
  inputBuffer : InputBuffer
  ask : Ask
  reason : Option String
  exit : Option String
  ptySession : Option String
  incarnation : String
  seq : ℕ
  sinceMs : ℕ
  writtenAtMs : ℕ
  transitions : ℕ
deriving DecidableEq

structure Observation where
  state : Activity
  blockedOn : BlockedOn
  inputBuffer : InputBuffer
  ask : Ask
  reason : Option String
  exit : Option String
deriving DecidableEq

/-- What the record file holds. -/
inductive StoredRecord where
  | absent
  | unreadable
  | parsed (record : Record)
deriving DecidableEq

def StoredRecord.readRecord : StoredRecord → Option Record
  | parsed record => some record
  | _ => none

/-- The record file and the floor file. -/
structure Files where
  stored : StoredRecord
  floor : Option ℕ
deriving DecidableEq

structure Writer where
  agent : String
  harness : String
  ptySession : Option String
  interrupted : Bool
  session : String
  /-- The sequence it acts under; `none` until a writer that holds only a token has written. -/
  claimedSeq : Option ℕ
deriving DecidableEq

/-- The stamp of the record that is replaced is passed on only if a reader would trust it. -/
def nextStamp (onDisk : Option Record) (now : ℕ) : ℕ :=
  match onDisk with
  | some current =>
    if current.writtenAtMs ≤ saturatingAdd now harnessStateFutureSkew then
      max now (saturatingAdd current.writtenAtMs 1)
    else now
  | none => now

/-! ### Writing -/

namespace Writer

variable (writer : Writer) (onDisk : Option Record)

/-- The sequence of a write over `onDisk`. A writer that holds only a token takes that of its own
record, or starts a record; it does not write over another token. -/
def resolveSeq : Option ℕ :=
  match writer.claimedSeq, onDisk with
  | some seq, _ => some seq
  | none, none => some 1
  | none, some current => if current.incarnation = writer.session then some current.seq else none

/-- The first write to a seat without a record keeps its sequence in the floor file. -/
def resolveFloor (floor : Option ℕ) : Option ℕ :=
  if writer.claimedSeq = none ∧ onDisk = none then some 1 else floor

def ownRecord : Option Record :=
  onDisk.filter fun current => schemaMatches current.schema && current.incarnation = writer.session

def isUnchanged (observation : Observation) : Bool :=
  !writer.interrupted && (writer.ownRecord onDisk).any fun current =>
    current.state = observation.state && current.blockedOn = observation.blockedOn &&
    current.inputBuffer = observation.inputBuffer && current.ask = observation.ask &&
    current.reason = observation.reason && current.exit = observation.exit

/-- The record was stamped lately, by a clock that a reader would trust. -/
def isFresh (now : ℕ) (current : Record) : Bool :=
  decide (current.writtenAtMs ≤ saturatingAdd now harnessStateFutureSkew) &&
    decide (now - current.writtenAtMs < harnessStateRefresh)

def recordOf (observation : Observation) (seq now : ℕ) : Record :=
  let own := writer.ownRecord onDisk
  let unchanged := writer.isUnchanged onDisk observation
  let stamp := nextStamp onDisk now
  { schema := (own.map Record.schema).getD currentSchema
    agent := writer.agent
    harness := writer.harness
    state := observation.state
    blockedOn := observation.blockedOn
    inputBuffer := observation.inputBuffer
    ask := observation.ask
    reason := observation.reason
    exit := observation.exit
    ptySession := writer.ptySession
    incarnation := writer.session
    seq := seq
    sinceMs := match own with
      | some current => if unchanged then current.sinceMs else stamp
      | none => stamp
    writtenAtMs := stamp
    transitions := match own with
      | some current =>
        if unchanged then current.transitions else saturatingAdd current.transitions 1
      | none => (onDisk.map fun current => saturatingAdd current.transitions 1).getD 0 }

/-- A write over a record that could be read, or over none. -/
def observeOver (files : Files) (onDisk : Option Record) (observation : Observation)
    (skipIfEnded : Bool) (now : ℕ) : Bool × Writer × Files :=
  match writer.resolveSeq onDisk with
  | none => (false, writer, files)
  | some seq =>
    let files := { files with floor := writer.resolveFloor onDisk files.floor }
    -- the record is of a later session
    if onDisk.any fun current => decide (seq < current.seq) then (false, writer, files)
    else if onDisk.any fun current => !schemaMatches current.schema then (false, writer, files)
    else
      let own := writer.ownRecord onDisk
      let claiming := { writer with claimedSeq := some seq }
      if skipIfEnded && own.any fun current =>
          current.state = .ended && current.exit.isSome then (false, claiming, files)
      else if writer.isUnchanged onDisk observation && own.any (isFresh now) then
        (true, claiming, files)
      else (true, { claiming with interrupted := false },
        { files with stored := .parsed (writer.recordOf onDisk observation seq now) })

def observeInner (files : Files) (observation : Observation) (skipIfEnded : Bool) (now : ℕ) :
    Except String Bool × Writer × Files :=
  if observation.state = .unknown then
    (.error "unknown is derived and cannot be written", writer, files)
  else if observation.state ≠ .ended ∧ writer.ptySession = none then
    (.error "live observations require a pty session to vouch for them", writer, files)
  else if observation.ask = .unknown then
    (.error "unknown is derived and cannot be written", writer, files)
  else if observation.ask ≠ .none ∧ observation.blockedOn ≠ .human then
    (.error "an ask kind is meaningful only while blocked on a human", writer, files)
  else match files.stored with
    | .unreadable => (.ok false, writer, files)
    | .absent =>
      let (wrote, writer, files) := writer.observeOver files none observation skipIfEnded now
      (.ok wrote, writer, files)
    | .parsed record =>
      let (wrote, writer, files) :=
        writer.observeOver files (some record) observation skipIfEnded now
      (.ok wrote, writer, files)

/-- Stamp the live record of one's own session again. -/
def heartbeat (files : Files) (now : ℕ) : Files :=
  match files.stored.readRecord with
  | none => files
  | some current =>
    if schemaMatches current.schema = false ∨ current.state = .ended ∨
        current.incarnation ≠ writer.session then files
    else { files with
      stored := .parsed { current with writtenAtMs := nextStamp (some current) now } }

def ended (writer : Writer) (files : Files) (exit : String) (now : ℕ) :
    Except String Bool × Writer × Files :=
  writer.observeInner files ⟨.ended, .none, .unknown, .none, none, some exit⟩ false now

end Writer

/-! ### Claiming -/

/-- Who claims. -/
structure Claimer where
  agent : String
  harness : String
  token : String
deriving DecidableEq

/-- The highest sequence that the record and the floor file show. -/
def highestSeq (files : Files) : Option ℕ :=
  match files.stored.readRecord, files.floor with
  | some record, some floor => some (max record.seq floor)
  | some record, none => some record.seq
  | none, floor => floor

/-- The record a claim leaves: nothing was observed yet. -/
def claimRecord (claimer : Claimer) (onDisk : Option Record) (seq now : ℕ) : Record :=
  { schema := ((onDisk.filter fun record =>
        schemaMatches record.schema && record.incarnation = claimer.token).map Record.schema).getD
      currentSchema
    agent := claimer.agent
    harness := claimer.harness
    state := .ended
    blockedOn := .none
    inputBuffer := .unknown
    ask := .none
    reason := some "superseded"
    exit := none
    ptySession := none
    incarnation := claimer.token
    seq := seq
    sinceMs := nextStamp onDisk now
    writtenAtMs := nextStamp onDisk now
    transitions := (onDisk.map fun record => saturatingAdd record.transitions 1).getD 0 }

def claimLocked (claimer : Claimer) (files : Files) (now : ℕ) : Except String (ℕ × Files) :=
  let onDisk := files.stored.readRecord
  if (highestSeq files).any fun seq => decide (u64Max ≤ seq) then
    .error "ownership sequence exhausted; refusing a shared claim"
  else
    let seq := ((highestSeq files).map fun seq => saturatingAdd seq 1).getD 1
    .ok (seq, ⟨.parsed (claimRecord claimer onDisk seq now), some seq⟩)

/-- A session without a wrapper does not claim over a wrapper's live record. -/
def isEligible (stored : StoredRecord) (now : ℕ) : Bool :=
  match stored with
  | .absent => true
  | .unreadable => false
  | .parsed record =>
    record.incarnation = "" || wrapperlessPrefix.toList.isPrefixOf record.incarnation.toList ||
      (record.state = .ended && record.exit.isSome) ||
      decide (harnessStateStale ≤ now - record.writtenAtMs)

def claimWrapperless (claimer : Claimer) (files : Files) (now : ℕ) :
    Except String (Option ℕ × Files) :=
  if isEligible files.stored now then
    (claimLocked claimer files now).map fun claimed => (some claimed.1, claimed.2)
  else .ok (none, files)

end SmallTalk.Ownership
