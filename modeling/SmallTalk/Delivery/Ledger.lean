import SmallTalk.Lib.Entries
import SmallTalk.Lib.Fallible
import Mathlib.Order.Basic
import Mathlib.Order.Lattice

/-!
# Delivery — the ledger of a seat's message deliveries

A driver writes an entry for a message before it transports it, and records in it the evidence that
comes back. The ledger is held in memory and written as a whole to one file.

* `Ledger`, `Ledger.begin`, `record`, `acceptCodexTurn`, `negative`, `rebind`, `prune`: the operations
  and, for each, whether it writes the file (`Done.persists`).
* `retention`, `retry`: whether a message is held or may be transported again.
* `opened`: what a driver starts with. A file that cannot be read or holds what the harness cannot
  prove leaves the ledger in quarantine, with no entries.

Reading a file and parsing it is one step: a file that does not parse is `unreadable`.
-/

namespace SmallTalk.Delivery

open Entries Fallible

variable (ledger : Ledger) (filename : String)

/-! ### Harnesses and phases -/

inductive Harness where
  | claude
  | codex
  | openCode
deriving DecidableEq

namespace Harness

def asStr : Harness → String
  | claude => "claude"
  | codex => "codex"
  | openCode => "opencode"

def parse (name : String) : Except String Harness :=
  if name = "claude" then .ok claude
  else if name = "codex" then .ok codex
  else if name = "opencode" then .ok openCode
  else .error ("unknown native delivery harness '" ++ name ++ "'")

@[simp] theorem parse_asStr (harness : Harness) : parse harness.asStr = .ok harness := by
  cases harness <;> decide

end Harness

/-- What is known of a delivery, in the order of the evidence. -/
inductive Phase where
  | attempted
  | transportAccepted
  | persisted
  | consumed
deriving DecidableEq

namespace Phase

def rank : Phase → ℕ
  | attempted => 0
  | transportAccepted => 1
  | persisted => 2
  | consumed => 3

instance : LinearOrder Phase :=
  LinearOrder.lift' rank fun a b h => by cases a <;> cases b <;> first | rfl | simp [rank] at h

def name : Phase → String
  | attempted => "Attempted"
  | transportAccepted => "TransportAccepted"
  | persisted => "Persisted"
  | consumed => "Consumed"

@[simp] theorem attempted_le (phase : Phase) : attempted ≤ phase := Nat.zero_le _

@[simp] theorem le_consumed (phase : Phase) : phase ≤ consumed := by cases phase <;> decide

@[simp] theorem consumed_le_iff {phase : Phase} : consumed ≤ phase ↔ phase = consumed :=
  ⟨fun h => le_antisymm (le_consumed phase) h, fun h => h.ge⟩

end Phase

inductive Evidence where
  | transportAccepted
  | persisted
  | consumed
deriving DecidableEq

inductive NegativeReceipt where
  | absent
  | rejected
  | retryAfterAbandonedIncarnation
deriving DecidableEq

inductive Attestation where
  | observed
  | asserted
deriving DecidableEq

/-- The evidence that a harness can produce. -/
structure Profile where
  harness : Harness
deriving DecidableEq

def ensure (holds : Bool) (message : String) : Except String Unit :=
  if holds then .ok () else .error message

@[simp] theorem ensure_eq_ok {holds : Bool} {message : String} :
    ensure holds message = .ok () ↔ holds = true := by
  cases holds <;> simp [ensure]

theorem ensure_bind_eq_ok {α : Type} {holds : Bool} {message : String} {next : Unit → Except String α}
    {a : α} : (ensure holds message >>= next) = .ok a ↔ holds = true ∧ next () = .ok a := by
  cases holds <;> simp [ensure, bind, Except.bind]

namespace Profile

def proves (profile : Profile) (phase : Phase) : Bool :=
  match profile.harness with
  | .claude => phase = .attempted ∨ phase = .consumed
  | .codex => phase = .attempted ∨ phase = .transportAccepted ∨ phase = .consumed
  | .openCode => true

def releases (_profile : Profile) (phase : Phase) : Bool := Phase.consumed ≤ phase

def claimed : Evidence → Phase
  | .transportAccepted => .transportAccepted
  | .persisted => .persisted
  | .consumed => .consumed

def graded (profile : Profile) (evidence : Evidence) : Except String Phase :=
  (ensure (profile.proves (claimed evidence)) (profile.harness.asStr ++
    " delivery evidence cannot prove phase " ++ (claimed evidence).name)).map
      fun _ => claimed evidence

theorem graded_eq_ok {profile : Profile} {evidence : Evidence} {phase : Phase} :
    profile.graded evidence = .ok phase ↔ profile.proves phase = true ∧ claimed evidence = phase := by
  unfold graded ensure
  split <;> rename_i hproves
  · simp only [Except.map, Except.ok.injEq]
    exact ⟨fun h => ⟨h ▸ hproves, h⟩, And.right⟩
  · simp only [Except.map, reduceCtorEq, false_iff]
    rintro ⟨hphase, rfl⟩
    exact hproves hphase

theorem proves_attempted (profile : Profile) : profile.proves .attempted = true := by
  obtain ⟨harness⟩ := profile
  cases harness <;> rfl

end Profile

/-! ### Entries -/

structure Entry where
  filename : String
  binding : String
  correlation : String
  phase : Phase
  attestation : Attestation
  incarnation : Option String
  acceptedTurnId : Option String
  negative : Option NegativeReceipt
deriving DecidableEq

structure Record where
  schema : String
  harness : String
  agent : String
  runtimeId : String
  entries : List Entry
deriving DecidableEq

structure Begin where
  filename : String
  binding : String
  correlation : String
  incarnation : Option String
deriving DecidableEq

def Entry.first (attempt : Begin) : Entry where
  filename := attempt.filename
  binding := attempt.binding
  correlation := attempt.correlation
  phase := .attempted
  attestation := .observed
  incarnation := attempt.incarnation
  acceptedTurnId := none
  negative := none

/-- The entry of another attempt. A refused one forgets the turn that accepted it. -/
def Entry.again (attempt : Begin) (entry : Entry) : Entry :=
  { entry with
    binding := attempt.binding
    correlation := attempt.correlation
    phase := max entry.phase .attempted
    attestation := .observed
    incarnation := attempt.incarnation
    acceptedTurnId := if entry.negative.isSome then none else entry.acceptedTurnId
    negative := none }

def Entry.reached (phase : Phase) (entry : Entry) : Entry :=
  { entry with phase := phase, attestation := .observed, negative := none }

def Entry.acceptedBy (turnId : String) (entry : Entry) : Entry :=
  { entry with
    phase := max entry.phase .transportAccepted
    attestation := .observed
    acceptedTurnId := some turnId
    negative := none }

def Entry.refused (receipt : NegativeReceipt) (entry : Entry) : Entry :=
  { entry with attestation := .observed, negative := some receipt }

/-- An entry of an earlier release's attempt. -/
def Entry.assertedBy (attempt : Begin) (phase : Phase) : Entry :=
  { Entry.first attempt with phase := phase, attestation := .asserted }

/-! ### File names -/

/-- `^[0-9]{13}-[0-9a-z]{6}\.md$`. -/
def isMessageFilename (name : String) : Bool :=
  let chars := name.toList
  let stem := chars.take (chars.length - 3)
  let stamp := stem.takeWhile (· ≠ '-')
  let random := (stem.dropWhile (· ≠ '-')).tail
  chars.drop (chars.length - 3) = ".md".toList ∧ '-' ∈ stem ∧
    stamp.length = 13 ∧ stamp.all Char.isDigit ∧
    random.length = 6 ∧ random.all fun c => c.isDigit || c.isLower

def isDeliveryKey (key : String) : Bool :=
  isMessageFilename key ||
    ("message/".toList.isPrefixOf key.toList &&
      let id := key.toList.drop 8
      id ≠ [] ∧ id.length ≤ 256 ∧ id.all fun c => c.isAlphanum || c ∈ ['/', '-', '_', '.'])

/-! ### The ledger -/

inductive HoldReason where
  | ambiguousAttempt
  | unreadReceipt
  | negativeReceipt
  | quarantined
  | settled
deriving DecidableEq

inductive Retention where
  | release
  | hold (reason : HoldReason)
deriving DecidableEq

inductive RetryDecision where
  | retry
  | hold (reason : HoldReason)
deriving DecidableEq

structure Ledger where
  profile : Profile
  state : Record
  quarantine : Option String
deriving DecidableEq

/-- What an operation leaves in memory, whether it writes that to the file, and its answer. -/
structure Done (α : Type) where
  ledger : Ledger
  persists : Bool
  answer : α

namespace Ledger

def entries (ledger : Ledger) : List Entry := ledger.state.entries

def withEntries (entries : List Entry) : Ledger :=
  { ledger with state := { ledger.state with entries } }

@[simp] theorem entries_withEntries (entries : List Entry) :
    (ledger.withEntries entries).entries = entries := rfl

/-- The entry of a message. -/
def entry : Option Entry :=
  lookup Entry.filename filename ledger.entries

def update (change : Entry → Entry) : Ledger :=
  ledger.withEntries (updateFirst Entry.filename filename change ledger.entries)

def ensureWritable : Except String Unit :=
  ensure ledger.quarantine.isNone
    ("delivery ledger is quarantined: " ++ ledger.quarantine.getD "")

def begin (attempt : Begin) : Except String (Done Entry) := do
  ledger.ensureWritable
  ensure (isDeliveryKey attempt.filename && attempt.binding != "")
    "delivery attempt has an invalid binding or filename"
  match ledger.entry attempt.filename with
  | some entry =>
    return ⟨ledger.update attempt.filename (Entry.again attempt), true, entry.again attempt⟩
  | none =>
    let entry := Entry.first attempt
    return ⟨ledger.withEntries (ledger.entries ++ [entry]), true, entry⟩

/-- Record evidence; it never takes a phase back. -/
def record (evidence : Evidence) : Except String (Done (Option Phase)) := do
  ledger.ensureWritable
  let phase ← ledger.profile.graded evidence
  match ledger.entry filename with
  | none => return ⟨ledger, false, none⟩
  | some entry =>
    if phase ≤ entry.phase then return ⟨ledger, false, some entry.phase⟩
    else return ⟨ledger.update filename (Entry.reached phase), true, some phase⟩

/-- Bind a delivery to the turn that accepted it. The file is written if that changes the phase or
the turn. -/
def acceptCodexTurn (filename turnId : String) : Except String (Done (Option Phase)) := do
  ledger.ensureWritable
  ensure (ledger.profile.harness = .codex && turnId != "")
    "only Codex can bind a non-empty accepted turn"
  match ledger.entry filename with
  | none => return ⟨ledger, false, none⟩
  | some entry =>
    ensure (entry.acceptedTurnId.all (· = turnId))
      "Codex delivery is already bound to a different accepted turn"
    let after := entry.acceptedBy turnId
    return ⟨ledger.update filename (Entry.acceptedBy turnId),
      (entry.phase, entry.acceptedTurnId) != (after.phase, after.acceptedTurnId),
      some after.phase⟩

def retention : Retention :=
  if ledger.quarantine.isSome then .hold .quarantined else
    match ledger.entry filename with
    | none => .release
    | some entry =>
      if entry.negative.isSome then .hold .negativeReceipt
      else if ledger.profile.releases entry.phase then .release
      else if Phase.persisted ≤ entry.phase then .hold .unreadReceipt
      else .hold .ambiguousAttempt

/-- Record that the message did not arrive. A settled entry is never opened again. -/
def negative (ledger : Ledger) (filename : String) (receipt : NegativeReceipt) :
    Except String (Done Retention) := do
  ledger.ensureWritable
  let retention := ledger.retention filename
  if retention = .release then return ⟨ledger, false, retention⟩
  match ledger.entry filename with
  | none => return ⟨ledger, false, retention⟩
  | some entry =>
    if entry.negative = some receipt then return ⟨ledger, false, .hold .negativeReceipt⟩
    else return ⟨ledger.update filename (Entry.refused receipt), true, .hold .negativeReceipt⟩

def retry (ledger : Ledger) (filename : String) : RetryDecision :=
  if ledger.quarantine.isSome then .hold .quarantined
  else if ledger.entry filename = none then .retry
  else
    match ledger.retention filename with
    | .release => .hold .settled
    | .hold .negativeReceipt => .retry
    | .hold reason => .hold reason

/-- Keep the entries that `keep` selects. -/
def retain (keep : Entry → Bool) : Done Unit :=
  let entries := ledger.entries.filter keep
  ⟨ledger.withEntries entries, entries.length != ledger.entries.length, ()⟩

def rebind (binding : String) : Done Unit :=
  ledger.retain fun entry => entry.binding = binding

def prune (isUnread : String → Bool) : Done Unit :=
  ledger.retain fun entry => isUnread entry.filename

/-! ### Opening -/

def ledgerSchema : String := "st.delivery-ledger.v1"

/-- The family's name before. -/
def formerSchema : String := "st2.delivery-ledger.v1"

def schemaMatches (actual : String) : Bool := actual = ledgerSchema ∨ actual = formerSchema

def withOwnerSchema (owner : String) : Ledger :=
  { ledger with
    state := { ledger.state with
      schema := if "st2.".toList.isPrefixOf owner.toList then formerSchema else ledgerSchema } }

section

variable (profile : Profile) (correlate : String → String → String)

def validate (entry : Entry) : Except String Unit := do
  ensure (isDeliveryKey entry.filename && entry.binding != "")
    "delivery ledger entry has an invalid binding or filename"
  ensure (entry.correlation = correlate entry.binding entry.filename)
    "delivery ledger entry correlation does not match its binding"
  ensure (profile.proves entry.phase)
    ("delivery ledger entry records a phase " ++ profile.harness.asStr ++ " cannot prove")
  ensure (entry.acceptedTurnId.all fun turnId =>
      profile.harness = .codex ∧ Phase.transportAccepted ≤ entry.phase ∧ turnId ≠ "")
    "delivery ledger entry has an invalid accepted turn"

/-- The checks that entries from outside this process must pass. -/
def accept (entries : List Entry) : Except String Unit := do
  entries.forM (validate profile correlate)
  ensure ((entries.zip entries.tail).all fun pair => pair.1.binding = pair.2.binding)
    "delivery ledger holds entries from more than one binding"

/-- A ledger without entries. -/
def fresh (agent runtimeId : String) : Ledger :=
  ⟨profile, ⟨ledgerSchema, profile.harness.asStr, agent, runtimeId, []⟩, none⟩

def load (agent runtimeId : String) (record : Record) : Except String Ledger := do
  ensure (schemaMatches record.schema)
    ("delivery ledger has unsupported schema '" ++ record.schema ++ "'")
  let harness ← Harness.parse record.harness
  ensure (harness = profile.harness)
    ("delivery ledger belongs to harness '" ++ record.harness ++ "'")
  ensure (record.agent = agent) "delivery ledger belongs to a different agent"
  accept profile correlate record.entries
  return ⟨profile, { record with runtimeId, schema := ledgerSchema }, none⟩

end

end Ledger

/-- The ledger's file. -/
inductive LedgerFile where
  | missing
  | unreadable
  | holds (record : Record)
deriving DecidableEq

/-- How a write of the file ends: a write that fails may have replaced the file. -/
inductive Write where
  | done
  | failed (replaced : Bool)
deriving DecidableEq

/-- A driver's ledger and its file. -/
structure Seat where
  memory : Ledger
  disk : LedgerFile
deriving DecidableEq

namespace Seat

/-- Start without entries, holding every delivery. -/
def quarantined (profile : Profile) (agent runtimeId reason : String) (disk : LedgerFile) : Seat :=
  ⟨{ Ledger.fresh profile agent runtimeId with quarantine := some reason }, disk⟩

def written (disk : LedgerFile) (record : Record) : Write → LedgerFile
  | .done => .holds record
  | .failed replaced => if replaced then .holds record else disk

/-- Take up what an earlier release left behind, and make it durable. -/
def seed (profile : Profile) (correlate : String → String → String) (agent runtimeId : String)
    (entries : List Entry) (write : Write) : Seat :=
  if entries = [] then ⟨Ledger.fresh profile agent runtimeId, .missing⟩ else
    match Ledger.accept profile correlate entries with
    | .error reason => quarantined profile agent runtimeId reason .missing
    | .ok () =>
      let ledger := (Ledger.fresh profile agent runtimeId).withEntries entries
      match write with
      | .done => ⟨ledger, written .missing ledger.state write⟩
      | .failed _ =>
        quarantined profile agent runtimeId "writing delivery ledger"
          (written .missing ledger.state write)

/-- `Ledger::open`. `recovered` is what the record of an earlier release gives, read only where
there is no file. -/
def opened (profile : Profile) (correlate : String → String → String) (agent runtimeId : String)
    (recovered : Except String (List Entry)) (write : Write) (disk : LedgerFile) : Seat :=
  match disk with
  | .missing =>
    match recovered with
    | .error reason => quarantined profile agent runtimeId reason disk
    | .ok entries => seed profile correlate agent runtimeId entries write
  | .unreadable => quarantined profile agent runtimeId "reading delivery ledger" disk
  | .holds record =>
    match Ledger.load profile correlate agent runtimeId record with
    | .error reason => quarantined profile agent runtimeId reason disk
    | .ok ledger => ⟨ledger, disk⟩

end Seat

/-! ### Calls -/

inductive Call where
  | begin (attempt : Begin)
  | record (filename : String) (evidence : Evidence)
  | acceptCodexTurn (filename turnId : String)
  | negative (filename : String) (receipt : NegativeReceipt)
  | rebind (binding : String)
  | prune (isUnread : String → Bool)

inductive Answer where
  | entry (entry : Entry)
  | phase (phase : Option Phase)
  | retention (retention : Retention)
  | unit
deriving DecidableEq

def Done.answering {α : Type} (done : Done α) (answer : α → Answer) : Done Answer :=
  ⟨done.ledger, done.persists, answer done.answer⟩

def Call.run : Call → Except String (Done Answer)
  | begin attempt => (ledger.begin attempt).map (·.answering .entry)
  | record filename evidence => (ledger.record filename evidence).map (·.answering .phase)
  | acceptCodexTurn filename turnId =>
    (ledger.acceptCodexTurn filename turnId).map (·.answering .phase)
  | negative filename receipt => (ledger.negative filename receipt).map (·.answering .retention)
  | rebind binding => .ok ((ledger.rebind binding).answering fun _ => .unit)
  | prune isUnread => .ok ((ledger.prune isUnread).answering fun _ => .unit)

/-- What a call does, branch by branch. -/
inductive Call.Effect (ledger : Ledger) : Call → Done Answer → Prop
  | first {attempt : Begin} (writable : ledger.quarantine = none)
      (valid : isDeliveryKey attempt.filename = true ∧ attempt.binding ≠ "")
      (absent : ledger.entry attempt.filename = none) :
      Effect ledger (.begin attempt)
        ⟨ledger.withEntries (ledger.entries ++ [Entry.first attempt]), true,
          .entry (Entry.first attempt)⟩
  | again {attempt : Begin} {entry : Entry} (writable : ledger.quarantine = none)
      (valid : isDeliveryKey attempt.filename = true ∧ attempt.binding ≠ "")
      (present : ledger.entry attempt.filename = some entry) :
      Effect ledger (.begin attempt)
        ⟨ledger.update attempt.filename (Entry.again attempt), true, .entry (entry.again attempt)⟩
  | recordAbsent {filename : String} {evidence : Evidence}
      (absent : ledger.entry filename = none) :
      Effect ledger (.record filename evidence) ⟨ledger, false, .phase none⟩
  | recordKnown {filename : String} {evidence : Evidence} {entry : Entry}
      (present : ledger.entry filename = some entry)
      (known : Profile.claimed evidence ≤ entry.phase) :
      Effect ledger (.record filename evidence) ⟨ledger, false, .phase (some entry.phase)⟩
  | reached {filename : String} {evidence : Evidence} {entry : Entry}
      (writable : ledger.quarantine = none) (present : ledger.entry filename = some entry)
      (proved : ledger.profile.proves (Profile.claimed evidence) = true)
      (further : entry.phase < Profile.claimed evidence) :
      Effect ledger (.record filename evidence)
        ⟨ledger.update filename (Entry.reached (Profile.claimed evidence)), true,
          .phase (some (Profile.claimed evidence))⟩
  | acceptAbsent {filename turnId : String} (absent : ledger.entry filename = none) :
      Effect ledger (.acceptCodexTurn filename turnId) ⟨ledger, false, .phase none⟩
  | accepted {filename turnId : String} {entry : Entry} (writable : ledger.quarantine = none)
      (codex : ledger.profile.harness = .codex ∧ turnId ≠ "")
      (present : ledger.entry filename = some entry)
      (same : entry.acceptedTurnId.all (· = turnId) = true) :
      Effect ledger (.acceptCodexTurn filename turnId)
        ⟨ledger.update filename (Entry.acceptedBy turnId),
          (entry.phase, entry.acceptedTurnId) !=
            (max entry.phase .transportAccepted, some turnId),
          .phase (some (max entry.phase .transportAccepted))⟩
  | released {filename : String} {receipt : NegativeReceipt} :
      Effect ledger (.negative filename receipt) ⟨ledger, false, .retention .release⟩
  | refusedBefore {filename : String} {receipt : NegativeReceipt} {entry : Entry}
      (present : ledger.entry filename = some entry) (before : entry.negative = some receipt) :
      Effect ledger (.negative filename receipt) ⟨ledger, false, .retention (.hold .negativeReceipt)⟩
  | refused {filename : String} {receipt : NegativeReceipt} {entry : Entry}
      (writable : ledger.quarantine = none) (present : ledger.entry filename = some entry)
      (held : ledger.retention filename ≠ .release) :
      Effect ledger (.negative filename receipt)
        ⟨ledger.update filename (Entry.refused receipt), true,
          .retention (.hold .negativeReceipt)⟩
  | rebind {binding : String} :
      Effect ledger (.rebind binding) ((ledger.rebind binding).answering fun _ => .unit)
  | prune {isUnread : String → Bool} :
      Effect ledger (.prune isUnread) ((ledger.prune isUnread).answering fun _ => .unit)

theorem Ledger.ensureWritable_bind_eq_ok {α : Type} {ledger : Ledger}
    {next : Unit → Except String α} {a : α} :
    (ledger.ensureWritable >>= next) = .ok a ↔ ledger.quarantine = none ∧ next () = .ok a := by
  rw [Ledger.ensureWritable, ensure_bind_eq_ok, Option.isNone_iff_eq_none]

/-- A call that goes through has one of these effects. -/
theorem Call.effect {ledger : Ledger} {call : Call} {done : Done Answer}
    (h : call.run ledger = .ok done) : Effect ledger call done := by
  cases call with
  | begin attempt =>
    obtain ⟨result, hresult, rfl⟩ := map_eq_ok.mp h
    obtain ⟨hwritable, hrest⟩ := Ledger.ensureWritable_bind_eq_ok.mp hresult
    obtain ⟨hvalid, hrest⟩ := ensure_bind_eq_ok.mp hrest
    simp only [Bool.and_eq_true, bne_iff_ne] at hvalid
    split at hrest
    case h_1 entry hentry => cases hrest; exact .again hwritable hvalid hentry
    case h_2 hentry => cases hrest; exact .first hwritable hvalid hentry
  | record filename evidence =>
    obtain ⟨result, hresult, rfl⟩ := map_eq_ok.mp h
    obtain ⟨hwritable, hrest⟩ := Ledger.ensureWritable_bind_eq_ok.mp hresult
    obtain ⟨phase, hphase, hrest⟩ := bind_eq_ok.mp hrest
    obtain ⟨hproved, rfl⟩ := Profile.graded_eq_ok.mp hphase
    split at hrest
    case h_1 habsent => cases hrest; exact .recordAbsent habsent
    case h_2 entry hentry =>
      split at hrest
      · cases hrest; exact .recordKnown hentry ‹_›
      · cases hrest; exact .reached hwritable hentry hproved (not_le.mp ‹_›)
  | acceptCodexTurn filename turnId =>
    obtain ⟨result, hresult, rfl⟩ := map_eq_ok.mp h
    obtain ⟨hwritable, hrest⟩ := Ledger.ensureWritable_bind_eq_ok.mp hresult
    obtain ⟨hcodex, hrest⟩ := ensure_bind_eq_ok.mp hrest
    simp only [Bool.and_eq_true, decide_eq_true_eq, bne_iff_ne] at hcodex
    split at hrest
    case h_1 habsent => cases hrest; exact .acceptAbsent habsent
    case h_2 entry hentry =>
      obtain ⟨hsame, hrest⟩ := ensure_bind_eq_ok.mp hrest
      cases hrest
      exact .accepted hwritable hcodex hentry hsame
  | negative filename receipt =>
    obtain ⟨result, hresult, rfl⟩ := map_eq_ok.mp h
    obtain ⟨hwritable, hrest⟩ := Ledger.ensureWritable_bind_eq_ok.mp hresult
    dsimp only at hrest
    split at hrest
    case isTrue hrelease =>
      cases hrest
      rw [hrelease]
      exact .released
    case isFalse hheld =>
      split at hrest
      case h_1 habsent =>
        -- an absent entry is released
        exact (hheld (by simp [Ledger.retention, hwritable, habsent])).elim
      case h_2 entry hentry =>
        split at hrest
        · cases hrest; exact .refusedBefore hentry ‹_›
        · cases hrest; exact .refused hwritable hentry hheld
  | rebind binding => cases h; exact .rebind
  | prune isUnread => cases h; exact .prune

/-- A call and its answer. Memory keeps the change also when the write fails. -/
def Seat.call (seat : Seat) (call : Call) (write : Write) : Seat × Except String Answer :=
  match call.run seat.memory with
  | .error reason => (seat, .error reason)
  | .ok done =>
    if done.persists then
      (⟨done.ledger, written seat.disk done.ledger.state write⟩,
        if write = .done then .ok done.answer else .error "writing delivery ledger")
    else (⟨done.ledger, seat.disk⟩, .ok done.answer)

end SmallTalk.Delivery
