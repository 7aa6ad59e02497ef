import SmallTalk.Delivery.Ledger
import SmallTalk.Lib.Runs
import Mathlib.Tactic

/-!
# Delivery — the ledger and its file

Each operation decides for itself whether it changed anything worth writing. All but one decide by
what they changed; `acceptCodexTurn` compares the phase and the turn, but clears a negative receipt
too.

* `synced_take_iff`: a call leaves the file with what memory holds, exactly if it does not accept a
  turn that the entry already has, with a receipt or an assertion still in it.
* `reopened_iff`: the same over whole runs.
-/

namespace SmallTalk.Delivery

open Seat Ledger Entries Fallible List Runs

/-! ### What opening accepts -/

section

variable {profile : Profile} {correlate : String → String → String} {entry : Entry}
  {entries : List Entry}

/-- `Ledger::validate`. -/
structure EntryFits (profile : Profile) (correlate : String → String → String)
    (entry : Entry) : Prop where
  valid : isDeliveryKey entry.filename = true ∧ entry.binding ≠ ""
  correlated : entry.correlation = correlate entry.binding entry.filename
  proved : profile.proves entry.phase = true
  turn : ∀ turnId ∈ entry.acceptedTurnId,
    profile.harness = .codex ∧ Phase.transportAccepted ≤ entry.phase ∧ turnId ≠ ""

theorem validate_eq_ok :
    validate profile correlate entry = .ok () ↔ EntryFits profile correlate entry := by
  have hturn : (entry.acceptedTurnId.all fun turnId =>
      decide (profile.harness = .codex ∧ Phase.transportAccepted ≤ entry.phase ∧ turnId ≠ "")) =
        true ↔ ∀ turnId ∈ entry.acceptedTurnId,
          profile.harness = .codex ∧ Phase.transportAccepted ≤ entry.phase ∧ turnId ≠ "" := by
    cases entry.acceptedTurnId <;> simp
  simp only [validate, ensure_bind_eq_ok, ensure_eq_ok, hturn, Bool.and_eq_true,
    decide_eq_true_eq, bne_iff_ne]
  exact ⟨fun h => ⟨h.1, h.2.1, h.2.2.1, h.2.2.2⟩, fun h => ⟨h.valid, h.correlated, h.proved, h.turn⟩⟩

/-- Entries that opening accepts: each fits, and all have one binding. -/
structure Accepted (profile : Profile) (correlate : String → String → String)
    (entries : List Entry) : Prop where
  fits : ∀ entry ∈ entries, EntryFits profile correlate entry
  oneBinding : ∀ entry ∈ entries, ∀ other ∈ entries, entry.binding = other.binding

theorem windows_all_iff :
    ((entries.zip entries.tail).all fun pair => decide (pair.1.binding = pair.2.binding)) = true ↔
      ∀ entry ∈ entries, ∀ other ∈ entries, entry.binding = other.binding := by
  induction entries with
  | nil => simp
  | cons first rest ih =>
    cases rest with
    | nil => simp
    | cons second rest =>
      have hzip : (first :: second :: rest).zip (first :: second :: rest).tail =
          (first, second) :: (second :: rest).zip (second :: rest).tail := rfl
      rw [hzip, all_cons, Bool.and_eq_true, decide_eq_true_eq, ih]
      constructor
      · rintro ⟨hfirst, hrest⟩ entry hentry other hother
        have hall : ∀ entry ∈ first :: second :: rest, entry.binding = second.binding :=
          forall_mem_cons.mpr
            ⟨hfirst, fun entry hentry => hrest entry hentry second mem_cons_self⟩
        rw [hall entry hentry, hall other hother]
      · intro h
        refine ⟨h first mem_cons_self second (by simp), fun entry hentry other hother => ?_⟩
        exact h entry (mem_cons_of_mem _ hentry) other (mem_cons_of_mem _ hother)

theorem accept_eq_ok :
    accept profile correlate entries = .ok () ↔ Accepted profile correlate entries := by
  constructor
  · intro h
    obtain ⟨u, hfits, hbinding⟩ := bind_eq_ok.mp h
    rw [ensure_eq_ok, windows_all_iff] at hbinding
    exact ⟨fun entry hentry => validate_eq_ok.mp (forM_eq_ok.mp hfits entry hentry), hbinding⟩
  · intro h
    have hfits := forM_eq_ok.mpr fun entry hentry => validate_eq_ok.mpr (h.fits entry hentry)
    simp only [accept, hfits, bind, Except.bind, ensure_eq_ok, windows_all_iff]
    exact h.oneBinding

/-- A change of one entry that still fits and keeps its binding. -/
theorem Accepted.updateFirst {filename : String} {change : Entry → Entry}
    (h : Accepted profile correlate entries)
    (hentry : lookup Entry.filename filename entries = some entry)
    (hfits : EntryFits profile correlate (change entry))
    (hbinding : (change entry).binding = entry.binding) :
    Accepted profile correlate (updateFirst Entry.filename filename change entries) := by
  have hcases : ∀ other ∈ Entries.updateFirst Entry.filename filename change entries,
      EntryFits profile correlate other ∧ other.binding = entry.binding := by
    intro other hother
    rcases mem_updateFirst hother with hother | ⟨entry', hentry', rfl⟩
    · exact ⟨h.fits other hother, h.oneBinding other hother entry (mem_of_lookup hentry)⟩
    · obtain rfl := Option.some.inj (hentry.symm.trans hentry')
      exact ⟨hfits, hbinding⟩
  refine ⟨fun other hother => (hcases other hother).1, fun a ha b hb => ?_⟩
  rw [(hcases a ha).2, (hcases b hb).2]

end

/-! ### Calls keep what opening accepts -/

/-- The driver begins an attempt with its own correlation and with the binding of the entries the
ledger holds. -/
def Call.Fits (correlate : String → String → String) (ledger : Ledger) : Call → Prop
  | begin attempt => attempt.correlation = correlate attempt.binding attempt.filename ∧
      ∀ entry ∈ ledger.entries, entry.binding = attempt.binding
  | _ => True

instance Call.decidableFits (correlate : String → String → String) (ledger : Ledger) :
    ∀ call : Call, Decidable (call.Fits correlate ledger)
  | begin _ => inferInstanceAs (Decidable (_ ∧ _))
  | record .. | acceptCodexTurn .. | negative .. | rebind _ | prune _ => isTrue trivial

variable {profile : Profile} {correlate : String → String → String} {ledger : Ledger} {call : Call}
  {done : Done Answer} {seat : Seat}

theorem Call.Effect.profile_eq (h : call.Effect ledger done) :
    done.ledger.profile = ledger.profile := by
  cases h <;> rfl

/-- A call changes nothing of the record but its entries. -/
theorem Call.Effect.state_eq (h : call.Effect ledger done) :
    done.ledger.state = { ledger.state with entries := done.ledger.entries } := by
  cases h <;> rfl

theorem Call.Effect.quarantine_eq (h : call.Effect ledger done) :
    done.ledger.quarantine = ledger.quarantine := by
  cases h <;> rfl

theorem Call.accepted_of_effect (hprofile : ledger.profile = profile)
    (h : call.Effect ledger done) (hfits : call.Fits correlate ledger)
    (haccepted : Accepted profile correlate ledger.entries) :
    Accepted profile correlate done.ledger.entries := by
  subst hprofile
  have hfit : ∀ {filename entry}, ledger.entry filename = some entry →
      EntryFits ledger.profile correlate entry := fun hentry =>
    haccepted.fits _ (mem_of_lookup hentry)
  cases h with
  | @first attempt _ valid absent =>
    obtain ⟨hcorrelation, hbinding⟩ := hfits
    have hnew : EntryFits ledger.profile correlate (Entry.first attempt) :=
      ⟨valid, hcorrelation, ledger.profile.proves_attempted, by simp [Entry.first]⟩
    have hall : ∀ entry ∈ ledger.entries ++ [Entry.first attempt],
        entry.binding = attempt.binding := by
      intro entry hentry
      rcases mem_append.mp hentry with hentry | hentry
      · exact hbinding entry hentry
      · rw [mem_singleton.mp hentry, Entry.first]
    refine ⟨fun entry hentry => ?_, fun a ha b hb => (hall a ha).trans (hall b hb).symm⟩
    rcases mem_append.mp hentry with hentry | hentry
    · exact haccepted.fits entry hentry
    · exact mem_singleton.mp hentry ▸ hnew
  | @again attempt entry _ valid present =>
    obtain ⟨hcorrelation, hbinding⟩ := hfits
    have hold := hfit present
    have hname : entry.filename = attempt.filename := key_of_lookup present
    refine haccepted.updateFirst present ⟨?_, ?_, ?_, ?_⟩
      (hbinding entry (mem_of_lookup present)).symm
    · exact ⟨hname ▸ valid.1, valid.2⟩
    · simpa [Entry.again, hname] using hcorrelation
    · simpa [Entry.again] using hold.proved
    · intro turnId hturn
      simp only [Entry.again, Option.mem_def] at hturn
      split at hturn
      · cases hturn
      · simpa [Entry.again] using hold.turn turnId hturn
  | @reached filename evidence entry _ present proved further =>
    have hold := hfit present
    refine haccepted.updateFirst present ⟨hold.valid, hold.correlated, proved, ?_⟩ rfl
    intro turnId hturn
    obtain ⟨hcodex, hphase, hne⟩ := hold.turn turnId hturn
    exact ⟨hcodex, hphase.trans further.le, hne⟩
  | @accepted filename turnId entry _ codex present same =>
    have hold := hfit present
    refine haccepted.updateFirst present ⟨hold.valid, hold.correlated, ?_, ?_⟩ rfl
    · rcases max_choice entry.phase .transportAccepted with hmax | hmax
      · simpa [Entry.acceptedBy, hmax] using hold.proved
      · simp [Entry.acceptedBy, hmax, Profile.proves, codex.1]
    · intro turn hturn
      obtain rfl : turnId = turn := by simpa [Entry.acceptedBy] using hturn
      exact ⟨codex.1, le_max_right _ _, codex.2⟩
  | @refused filename receipt entry _ present held =>
    have hold := hfit present
    exact haccepted.updateFirst present ⟨hold.valid, hold.correlated, hold.proved, hold.turn⟩ rfl
  | rebind | prune =>
    refine ⟨fun entry hentry => haccepted.fits entry (mem_of_mem_filter hentry), ?_⟩
    exact fun a ha b hb => haccepted.oneBinding a (mem_of_mem_filter ha) b (mem_of_mem_filter hb)
  | recordAbsent | recordKnown | acceptAbsent | released | refusedBefore => exact haccepted

/-! ### Memory and file -/

def LedgerFile.entries : LedgerFile → List Entry
  | holds record => record.entries
  | missing | unreadable => []

/-- The record is one that opening accepts. -/
structure RecordFits (profile : Profile) (correlate : String → String → String) (agent : String)
    (record : Record) : Prop where
  schema : schemaMatches record.schema = true
  harness : Harness.parse record.harness = .ok profile.harness
  agent : record.agent = agent
  accepted : Accepted profile correlate record.entries

/-- Opening the file takes up what it holds. Without a file there is nothing to recover. -/
def LedgerFile.Loadable (profile : Profile) (correlate : String → String → String) (agent : String)
    (recovered : Except String (List Entry)) : LedgerFile → Prop
  | missing => recovered = .ok []
  | unreadable => False
  | holds record => RecordFits profile correlate agent record

section

variable (profile : Profile) (correlate : String → String → String) (agent : String)
  (recovered : Except String (List Entry))

/-- A ledger in use, over a file that opening takes up. -/
structure Seat.InUse (seat : Seat) : Prop where
  writable : seat.memory.quarantine = none
  sameProfile : seat.memory.profile = profile
  state : RecordFits profile correlate agent seat.memory.state
  disk : seat.disk.Loadable profile correlate agent recovered

/-- Opening the file again gives the entries that memory holds. -/
def Seat.Reopens (seat : Seat) : Prop :=
  ∀ runtimeId write,
    let again := opened profile correlate agent runtimeId recovered write seat.disk
    again.memory.quarantine = none ∧ again.memory.entries = seat.memory.entries

variable {profile correlate agent recovered}

theorem load_eq_ok {runtimeId : String} {record : Record} :
    load profile correlate agent runtimeId record = .ok ledger ↔
      RecordFits profile correlate agent record ∧
        ledger = ⟨profile, { record with runtimeId, schema := ledgerSchema }, none⟩ := by
  constructor
  · intro h
    obtain ⟨hschema, h₁⟩ := ensure_bind_eq_ok.mp h
    obtain ⟨harness, hparse, h₂⟩ := bind_eq_ok.mp h₁
    obtain ⟨hharness, h₃⟩ := ensure_bind_eq_ok.mp h₂
    obtain ⟨hagent, h₄⟩ := ensure_bind_eq_ok.mp h₃
    obtain ⟨u, haccept, h₅⟩ := bind_eq_ok.mp h₄
    rw [of_decide_eq_true hharness] at hparse
    exact ⟨⟨hschema, hparse, of_decide_eq_true hagent, accept_eq_ok.mp haccept⟩,
      (Except.ok.inj h₅).symm⟩
  · rintro ⟨⟨hschema, hharness, hagent, haccepted⟩, rfl⟩
    refine ensure_bind_eq_ok.mpr ⟨hschema, ?_⟩
    rw [hharness]
    refine ensure_bind_eq_ok.mpr ⟨decide_eq_true rfl, ensure_bind_eq_ok.mpr
      ⟨decide_eq_true hagent, ?_⟩⟩
    rw [accept_eq_ok.mpr haccepted]
    rfl

theorem opened_of_loadable {disk : LedgerFile} (runtimeId : String) (write : Write)
    (h : disk.Loadable profile correlate agent recovered) :
    (opened profile correlate agent runtimeId recovered write disk).memory.quarantine = none ∧
      (opened profile correlate agent runtimeId recovered write disk).memory.entries =
        disk.entries := by
  cases disk with
  | missing =>
    obtain rfl : recovered = .ok [] := h
    exact ⟨rfl, rfl⟩
  | unreadable => exact h.elim
  | holds record =>
    simp [opened, load_eq_ok.mpr ⟨h, rfl⟩, entries, LedgerFile.entries]

theorem Seat.InUse.reopens_iff (h : seat.InUse profile correlate agent recovered) :
    seat.Reopens profile correlate agent recovered ↔ seat.disk.entries = seat.memory.entries := by
  constructor
  · intro hreopens
    rw [← (hreopens "" .done).2, (opened_of_loadable "" .done h.disk).2]
  · intro heq runtimeId write
    have hopened := opened_of_loadable runtimeId write h.disk
    exact ⟨hopened.1, hopened.2.trans heq⟩

/-- A ledger that is opened without quarantine, also for a runtime that an older process owns. -/
theorem inUse_opened {runtimeId : String} {write : Write} {disk : LedgerFile} {opened : Seat}
    (hopened : Seat.opened profile correlate agent runtimeId recovered write disk = opened)
    (h : opened.memory.quarantine = none) :
    opened.InUse profile correlate agent recovered ∧ opened.disk.entries = opened.memory.entries := by
  subst hopened
  have hfresh : ∀ {entries}, Accepted profile correlate entries → RecordFits profile correlate agent
      ((fresh profile agent runtimeId).withEntries entries).state := fun haccepted =>
    ⟨by simp [fresh, withEntries, schemaMatches],
      Harness.parse_asStr profile.harness, rfl, haccepted⟩
  cases disk with
  | missing =>
    cases recovered with
    | error reason => cases h
    | ok entries =>
      by_cases hempty : entries = []
      · subst hempty
        exact ⟨⟨rfl, rfl, hfresh ⟨by simp, by simp⟩, rfl⟩, rfl⟩
      simp only [Seat.opened, Seat.seed, hempty, if_false] at h ⊢
      cases haccept : accept profile correlate entries with
      | error reason => simp [haccept, Seat.quarantined] at h
      | ok u =>
        have hfits := hfresh (accept_eq_ok.mp haccept)
        cases write with
        | done => exact ⟨⟨rfl, rfl, hfits, hfits⟩, rfl⟩
        | failed replaced => simp [haccept, Seat.quarantined] at h
  | unreadable => cases h
  | holds record =>
    simp only [Seat.opened] at h ⊢
    cases hload : load profile correlate agent runtimeId record with
    | error reason => simp [hload, Seat.quarantined] at h
    | ok ledger =>
      obtain ⟨hfits, rfl⟩ := load_eq_ok.mp hload
      exact ⟨⟨rfl, rfl, ⟨by simp [schemaMatches], hfits.harness, hfits.agent,
        hfits.accepted⟩, hfits⟩, rfl⟩

theorem Seat.InUse.withOwnerSchema (h : seat.InUse profile correlate agent recovered)
    (owner : String) :
    Seat.InUse profile correlate agent recovered
      { seat with memory := seat.memory.withOwnerSchema owner } := by
  refine ⟨h.writable, h.sameProfile, ⟨?_, h.state.harness, h.state.agent, h.state.accepted⟩, h.disk⟩
  simp only [Ledger.withOwnerSchema]
  split
  · simp [Ledger.schemaMatches]
  · simp [Ledger.schemaMatches]

end

/-! ### Runs of calls -/

/-- One call whose write succeeds. -/
def Seat.take (seat : Seat) (call : Call) : Seat := (seat.call call .done).1

/-- The call answers, and the driver keeps its own correlations and one binding. -/
def Call.Proper (correlate : String → String → String) (seat : Seat) (call : Call) : Prop :=
  (seat.call call .done).2.isOk = true ∧ call.Fits correlate seat.memory

/-- The turn is not one that the entry already has, unless nothing else of it changes. -/
def Call.Keeps (ledger : Ledger) : Call → Prop
  | acceptCodexTurn filename turnId => ∀ entry ∈ ledger.entry filename,
      entry.acceptedTurnId = some turnId → entry.negative = none ∧ entry.attestation = .observed
  | _ => True

instance (correlate : String → String → String) (seat : Seat) (call : Call) :
    Decidable (call.Proper correlate seat) :=
  inferInstanceAs (Decidable (_ ∧ _))

instance Call.decidableKeeps (ledger : Ledger) : ∀ call : Call, Decidable (call.Keeps ledger)
  | acceptCodexTurn filename turnId => inferInstanceAs (Decidable (∀ entry ∈ ledger.entry filename,
      entry.acceptedTurnId = some turnId → entry.negative = none ∧ entry.attestation = .observed))
  | begin _ | record .. | negative .. | rebind _ | prune _ => isTrue trivial

/-- A call that answers has written what it had to. -/
theorem call_of_isOk {write : Write} (h : (seat.call call write).2.isOk = true) :
    ∃ done, call.Effect seat.memory done ∧ seat.call call write =
      (⟨done.ledger, if done.persists then .holds done.ledger.state else seat.disk⟩,
        .ok done.answer) := by
  unfold Seat.call at h ⊢
  cases hrun : call.run seat.memory with
  | error reason => simp [hrun, Except.isOk, Except.toBool] at h
  | ok done =>
    refine ⟨done, Call.effect hrun, ?_⟩
    cases hpersists : done.persists with
    | false => simp [hpersists]
    | true =>
      obtain rfl : write = .done := by
        by_contra hne
        simp [hrun, hpersists, hne, Except.isOk, Except.toBool] at h
      simp [hpersists, Seat.written]

variable {agent : String} {recovered : Except String (List Entry)}

theorem Seat.InUse.take (h : seat.InUse profile correlate agent recovered)
    (hproper : call.Proper correlate seat) :
    (seat.take call).InUse profile correlate agent recovered := by
  obtain ⟨done, heffect, hcall⟩ := call_of_isOk hproper.1
  have hstate : RecordFits profile correlate agent done.ledger.state := by
    have haccepted := Call.accepted_of_effect h.sameProfile heffect hproper.2 h.state.accepted
    rw [heffect.state_eq]
    exact ⟨h.state.schema, h.state.harness, h.state.agent, haccepted⟩
  rw [Seat.take, hcall]
  refine ⟨heffect.quarantine_eq.trans h.writable, heffect.profile_eq.trans h.sameProfile, hstate, ?_⟩
  cases done.persists with
  | false => exact h.disk
  | true => exact hstate

theorem filter_of_unwritten {keep : Entry → Bool} (h : (ledger.retain keep).persists = false) :
    ledger.entries.filter keep = ledger.entries :=
  filter_eq_self.mpr (length_filter_eq_length_iff.mp (by simpa [retain] using h))

/-- Entries that are dropped are dropped from the file too. -/
theorem synced_retain {disk : LedgerFile} (h : disk.entries = ledger.entries) (keep : Entry → Bool) :
    (if (ledger.retain keep).persists then LedgerFile.holds (ledger.retain keep).ledger.state
      else disk).entries = (ledger.retain keep).ledger.entries := by
  cases hpersists : (ledger.retain keep).persists with
  | false =>
    rw [if_neg Bool.false_ne_true, h]
    exact (filter_of_unwritten hpersists).symm
  | true => rfl

theorem Entry.acceptedBy_eq_self_iff {entry : Entry} {turnId : String}
    (hturn : entry.acceptedTurnId = some turnId)
    (hphase : max entry.phase .transportAccepted = entry.phase) :
    entry.acceptedBy turnId = entry ↔ entry.negative = none ∧ entry.attestation = .observed := by
  obtain ⟨filename, binding, correlation, phase, attestation, incarnation, turn, negative⟩ := entry
  simp only at hturn hphase
  simp [Entry.acceptedBy, hturn, hphase, eq_comm, and_comm]

/-- **One call.** The file still has what memory holds, exactly if the call keeps it. -/
theorem synced_take_iff (h : seat.InUse profile correlate agent recovered)
    (hproper : call.Proper correlate seat) (hsynced : seat.disk.entries = seat.memory.entries) :
    (seat.take call).disk.entries = (seat.take call).memory.entries ↔ call.Keeps seat.memory := by
  obtain ⟨done, heffect, hcall⟩ := call_of_isOk hproper.1
  rw [Seat.take, hcall]
  cases heffect with
  | recordAbsent | recordKnown | released | refusedBefore => simpa [Call.Keeps] using hsynced
  | acceptAbsent absent => simpa [Call.Keeps, absent] using hsynced
  | first | again | reached | refused => simp [Call.Keeps, LedgerFile.entries, entries]
  | rebind | prune =>
    exact iff_of_true (synced_retain hsynced _) trivial
  | @accepted filename turnId entry _ codex present same =>
    -- an entry that has the turn has the phase too
    have hphase : entry.acceptedTurnId = some turnId →
        max entry.phase .transportAccepted = entry.phase := fun hturn =>
      max_eq_left ((h.state.accepted.fits entry (mem_of_lookup present)).turn turnId hturn).2.1
    have hkeeps : (Call.acceptCodexTurn filename turnId).Keeps seat.memory ↔
        (entry.acceptedTurnId = some turnId →
          entry.negative = none ∧ entry.attestation = .observed) := by
      simp [Call.Keeps, present]
    rw [hkeeps]
    by_cases hturn : entry.acceptedTurnId = some turnId
    · have hunwritten : ¬ ((entry.phase, entry.acceptedTurnId) !=
          (max entry.phase .transportAccepted, some turnId)) = true := by
        simp [hturn, hphase hturn]
      rw [if_neg hunwritten, hsynced, eq_comm]
      refine updateFirst_eq_self_iff.trans ?_
      have hlookup : lookup Entry.filename filename seat.memory.entries = some entry := present
      simp only [hlookup, Option.some.injEq, forall_eq', hturn, true_imp_iff]
      exact Entry.acceptedBy_eq_self_iff hturn (hphase hturn)
    · have hwritten : ((entry.phase, entry.acceptedTurnId) !=
          (max entry.phase .transportAccepted, some turnId)) = true := by
        simp [hturn]
      simp [hwritten, hturn, LedgerFile.entries, entries]

/-- **Memory and file.** For a ledger opened without quarantine and any calls that answer, opening
the file again gives what memory holds after each of them, exactly if every turn that is accepted
twice finds no receipt in its entry and no assertion. -/
theorem reopened_iff (profile : Profile) (correlate : String → String → String)
    (agent runtimeId owner : String) (recovered : Except String (List Entry)) (write : Write)
    (disk : LedgerFile) (opened : Seat) (calls : List Call)
    (hopened : Seat.opened profile correlate agent runtimeId recovered write disk = opened)
    (hquarantine : opened.memory.quarantine = none)
    (hcalls : Along Seat.take (Call.Proper correlate)
      { opened with memory := opened.memory.withOwnerSchema owner } calls) :
    (∀ taken, taken <+: calls → Seat.Reopens profile correlate agent recovered
      (taken.foldl Seat.take { opened with memory := opened.memory.withOwnerSchema owner })) ↔
      Along Seat.take (fun seat call => call.Keeps seat.memory)
        { opened with memory := opened.memory.withOwnerSchema owner } calls := by
  obtain ⟨hinUse, hsynced⟩ := inUse_opened hopened hquarantine
  have hstart := hinUse.withOwnerSchema owner
  refine forall_prefix_iff_along (I := Seat.InUse profile correlate agent recovered)
    (fun seat call hproper h => h.take hproper) ?_ hcalls hstart (hstart.reopens_iff.mpr hsynced)
  intro seat call hproper h hreopens
  rw [(h.take hproper).reopens_iff]
  exact synced_take_iff h hproper (h.reopens_iff.mp hreopens)

def threadCorrelation (binding filename : String) : String := binding ++ ":" ++ filename

/-- A driver of Codex without a file. -/
def codexSeat : Seat :=
  .opened ⟨.codex⟩ threadCorrelation "h.worker" "runtime" (.ok []) .done .missing

def threadAttempt : Begin :=
  ⟨"1786380000000-aaa111.md", "thread", "thread:1786380000000-aaa111.md", some "incarnation-1"⟩

/-- An attempt whose turn completes. -/
theorem reopened_turn : Seat.Reopens ⟨.codex⟩ threadCorrelation "h.worker" (.ok [])
      ([.begin threadAttempt, .acceptCodexTurn "1786380000000-aaa111.md" "turn-1",
        .record "1786380000000-aaa111.md" .consumed].foldl take
          { codexSeat with memory := codexSeat.memory.withOwnerSchema "" }) :=
  (reopened_iff ⟨.codex⟩ threadCorrelation "h.worker" "runtime" "" (.ok []) .done .missing codexSeat _
    rfl rfl (by decide +kernel)).mpr (by decide +kernel) _ (prefix_refl _)

/-- A refused attempt, whose turn is then reported accepted once more: memory drops the receipt and
the file keeps it. -/
theorem cleared_receipt : Along take (Call.Proper threadCorrelation) codexSeat
        [.begin threadAttempt,
          .acceptCodexTurn "1786380000000-aaa111.md" "turn-1",
          .negative "1786380000000-aaa111.md" .rejected,
          .acceptCodexTurn "1786380000000-aaa111.md" "turn-1"] ∧
      ¬ Seat.Reopens ⟨.codex⟩ threadCorrelation "h.worker" (.ok [])
        ([.begin threadAttempt,
          .acceptCodexTurn "1786380000000-aaa111.md" "turn-1",
          .negative "1786380000000-aaa111.md" .rejected,
          .acceptCodexTurn "1786380000000-aaa111.md" "turn-1"].foldl take codexSeat) := by
  refine ⟨by decide +kernel, fun h => ?_⟩
  have hentries := (h "runtime" .done).2
  revert hentries
  decide +kernel

end SmallTalk.Delivery
