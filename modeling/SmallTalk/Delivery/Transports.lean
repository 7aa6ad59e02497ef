import SmallTalk.Delivery.Reopened
import SmallTalk.Lib.Traces

/-!
# Delivery — no message is transported twice

A driver transports a message when the ledger answers `retry` and its attempt is written. It may
end between any two calls and open the ledger again; the file may be torn, or not be readable for a
while; and a write may fail, which memory does not notice.

* `World.step`: the driver, the file, and what is observed.
* `Seat.Holds.of_call`, `Opening.holds`: what holds of a message's entry in memory and in the file is
  kept by calls and by opening the file again.
* `transports_settled`: no message is transported twice, or after its consumption.
-/

namespace SmallTalk.Delivery

open Option Seat Entry Ledger Entries Runs Traces

/-! ### Runs of a driver -/

inductive Observation where
  | transport (filename : String)
  | negative (filename : String)
  | consumed (filename : String)
deriving DecidableEq

inductive Event where
  /-- A call on the ledger. -/
  | call (call : Call) (write : Write)
  /-- Transport a message, if the ledger answers `retry` and the attempt is written. -/
  | attempt (attempt : Begin) (write : Write)
  /-- The file is torn. -/
  | tear
  /-- The driver ends and another one opens the ledger. -/
  | reopen (readable : Bool) (runtimeId : String)
      (recovered : Except String (List (Begin × Phase))) (write : Write)

/-- `stale` says that a write failed since the ledger was opened. -/
structure World where
  seat : Seat
  stale : Bool
  trace : List Observation

/-- What a call shows: a receipt that the entry has from now on, or evidence that the ledger says it
recorded. -/
def Seat.shows (seat : Seat) (call : Call) (write : Write) : List Observation :=
  match call with
  | .negative filename _ =>
    match call.run seat.memory with
    | .ok done => if done.answer = .retention (.hold .negativeReceipt) then [.negative filename]
        else []
    | .error _ => []
  | .record filename .consumed =>
    match (seat.call call write).2 with
    | .ok answer => if answer = .phase none then [] else [.consumed filename]
    | .error _ => []
  | _ => []

/-- The call's write fails. -/
def Seat.fails (seat : Seat) (call : Call) (write : Write) : Bool :=
  match call.run seat.memory with
  | .ok done => done.persists && write ≠ .done
  | .error _ => false

/-- What a driver that opens the ledger starts with. -/
def Seat.reopened (profile : Profile) (correlate : String → String → String) (agent : String)
    (disk : LedgerFile) (readable : Bool) (runtimeId : String)
    (recovered : Except String (List (Begin × Phase))) (write : Write) : Seat :=
  if readable then
    .opened profile correlate agent runtimeId
      (recovered.map fun found => found.map fun entry => assertedBy entry.1 entry.2) write disk
  else .quarantined profile agent runtimeId "reading delivery ledger" disk

section

variable (profile : Profile) (correlate : String → String → String) (agent : String)

def World.step (world : World) : Event → World
  | .call call write =>
    ⟨(world.seat.call call write).1, world.stale || world.seat.fails call write,
      world.trace ++ world.seat.shows call write⟩
  | .attempt attempt write =>
    if world.seat.memory.retry attempt.filename = .retry then
      ⟨(world.seat.call (.begin attempt) write).1,
        world.stale || world.seat.fails (.begin attempt) write,
        world.trace ++ if (world.seat.call (.begin attempt) write).2.isOk
          then [.transport attempt.filename] else []⟩
    else world
  | .tear => { world with seat := { world.seat with disk := .unreadable } }
  | .reopen readable runtimeId recovered write =>
    ⟨.reopened profile correlate agent world.seat.disk readable runtimeId recovered write, false,
      world.trace⟩

/-- A seat without a file. -/
def World.start (runtimeId : String) (recovered : Except String (List (Begin × Phase)))
    (write : Write) : World :=
  ⟨.reopened profile correlate agent .missing true runtimeId recovered write, false, []⟩

end

/-- The call does not drop the entry of the message. -/
def Call.Spares (filename : String) (ledger : Ledger) : Call → Prop
  | rebind binding => ∀ entry ∈ ledger.entry filename, entry.binding = binding
  | prune isUnread => ∀ entry ∈ ledger.entry filename, isUnread entry.filename = true
  | _ => True

def Event.Spares (filename : String) (world : World) : Event → Prop
  | call taken _ => taken.Spares filename world.seat.memory
  | attempt .. | tear | reopen .. => True

/-- No call on a ledger whose last write failed. -/
def Event.Careful (world : World) : Event → Prop
  | call .. | attempt .. => world.stale = false
  | tear | reopen .. => True

instance Event.decidableCareful (world : World) : ∀ event : Event, Decidable (event.Careful world)
  | call .. | attempt .. => inferInstanceAs (Decidable (world.stale = false))
  | tear | reopen .. => isTrue trivial

/-! ### What is kept of an entry -/

variable {Q : Entry → Prop} {filename : String} {ledger : Ledger} {call : Call} {write : Write}
  {done : Done Answer} {seat : Seat} {disk : LedgerFile} {entry : Entry} {entries : List Entry}

/-- The entry of the message is one of these. -/
def Has (filename : String) (Q : Entry → Prop) (entries : List Entry) : Prop :=
  ∃ entry, lookup Entry.filename filename entries = some entry ∧ Q entry

/-- In memory, if the ledger is in use, and in the file, if it can be read. -/
structure Seat.Holds (filename : String) (Q : Entry → Prop) (seat : Seat) : Prop where
  memory : seat.memory.quarantine = none → Has filename Q seat.memory.entries
  disk : seat.disk ≠ .unreadable → Has filename Q seat.disk.entries

/-- What a call on another attempt, or with more evidence, keeps. -/
structure Stable (Q : Entry → Prop) : Prop where
  again : ∀ attempt {entry}, Q entry → Q (entry.again attempt)
  reached : ∀ {phase entry}, entry.phase < phase → Q entry → Q (entry.reached phase)
  accepted : ∀ turnId {entry}, Q entry → Q (entry.acceptedBy turnId)

theorem has_updated {change : Entry → Entry}
    (hkey : ∀ entry, (change entry).filename = entry.filename)
    (hentry : ledger.entry filename = some entry) (hQ : Q (change entry)) :
    Has filename Q (ledger.update filename change).entries := by
  refine ⟨change entry, (lookup_updateFirst hkey).trans ?_, hQ⟩
  rw [show lookup Entry.filename filename ledger.entries = some entry from hentry]
  rfl

theorem has_update {name : String} {change : Entry → Entry}
    (hkey : ∀ entry, (change entry).filename = entry.filename)
    (hchange : name = filename → ∀ entry, ledger.entry filename = some entry → Q entry →
      Q (change entry)) (h : Has filename Q ledger.entries) :
    Has filename Q (ledger.update name change).entries := by
  obtain ⟨entry, hentry, hQ⟩ := h
  by_cases hname : name = filename
  · subst hname
    exact has_updated hkey hentry (hchange rfl entry hentry hQ)
  · refine ⟨entry, ?_, hQ⟩
    rw [update, entries_withEntries,
      lookup_updateFirst_of_ne hkey (Ne.symm hname), hentry]

/-- A call keeps what holds of the entry, but for a receipt. -/
theorem Call.Effect.has (heffect : call.Effect ledger done) (hQ : Stable Q)
    (hspares : call.Spares filename ledger)
    (hrefused : ∀ receipt, call = .negative filename receipt →
      done.answer = .retention (.hold .negativeReceipt) → ledger.retention filename ≠ .release →
      ∀ entry, ledger.entry filename = some entry → Q entry → Q (entry.refused receipt))
    (h : Has filename Q ledger.entries) : Has filename Q done.ledger.entries := by
  have hretain : ∀ keep : Entry → Bool, (∀ entry ∈ ledger.entry filename, keep entry = true) →
      Has filename Q (ledger.entries.filter keep) := by
    intro keep hkeep
    obtain ⟨entry, hentry, hQentry⟩ := h
    exact ⟨entry, lookup_filter hentry (hkeep entry hentry), hQentry⟩
  cases heffect with
  | first writable valid absent =>
    obtain ⟨entry, hentry, hQentry⟩ := h
    exact ⟨entry, by simp [lookup_append, hentry], hQentry⟩
  | again => exact has_update (fun _ => rfl) (fun _ entry _ => hQ.again _) h
  | @reached name evidence entry writable present proved further =>
    refine has_update (fun _ => rfl) (fun hname entry' hentry' => hQ.reached ?_) h
    subst hname
    exact some.inj (present.symm.trans hentry') ▸ further
  | accepted => exact has_update (fun _ => rfl) (fun _ entry _ => hQ.accepted _) h
  | @refused name receipt entry writable present held =>
    refine has_update (fun _ => rfl) (fun hname entry' hentry' hQentry => ?_) h
    subst hname
    exact hrefused receipt rfl rfl held entry' hentry' hQentry
  | rebind =>
    exact hretain _ fun entry hentry => decide_eq_true (hspares entry hentry)
  | prune => exact hretain _ hspares
  | recordAbsent | recordKnown | acceptAbsent | released | refusedBefore => exact h

/-! ### What one call does to a seat -/

/-- A ledger in quarantine has no entries, and a receipt stands in no entry that is consumed. -/
structure Seat.Sound (seat : Seat) : Prop where
  quarantined : seat.memory.quarantine ≠ none → seat.memory.entries = []
  memory : ∀ entry ∈ seat.memory.entries, entry.negative ≠ none → entry.phase ≠ .consumed
  disk : ∀ entry ∈ seat.disk.entries, entry.negative ≠ none → entry.phase ≠ .consumed

theorem Seat.Sound.writable_of_mem (h : seat.Sound) (hentry : entry ∈ seat.memory.entries) :
    seat.memory.quarantine = none := by
  by_contra hne
  rw [h.quarantined hne] at hentry
  cases hentry

/-- What a call leaves. -/
theorem Seat.call_cases (seat : Seat) (call : Call) (write : Write) :
    (∃ reason, call.run seat.memory = .error reason ∧ (seat.call call write).1 = seat) ∨
      ∃ done, call.run seat.memory = .ok done ∧ call.Effect seat.memory done ∧
        (seat.call call write).1.memory = done.ledger ∧
        ((seat.call call write).1.disk = seat.disk ∨
          done.persists = true ∧ (seat.call call write).1.disk = .holds done.ledger.state) := by
  unfold Seat.call
  cases hrun : call.run seat.memory with
  | error reason => exact .inl ⟨reason, rfl, rfl⟩
  | ok done =>
    refine .inr ⟨done, rfl, Call.effect hrun, ?_⟩
    cases hpersists : done.persists with
    | false => simp [hpersists]
    | true =>
      refine ⟨by simp [hpersists], ?_⟩
      cases write with
      | done => simp [hpersists, Seat.written]
      | failed replaced => cases replaced <;> simp [hpersists, Seat.written]

/-- Only a ledger in use is written. -/
theorem Call.Effect.writable_of_persists (heffect : call.Effect ledger done)
    (hquarantined : ledger.quarantine ≠ none → ledger.entries = [])
    (hpersists : done.persists = true) : ledger.quarantine = none := by
  have hretain : ∀ keep, (ledger.retain keep).persists = true → ledger.quarantine = none := by
    intro keep hkeep
    by_contra hne
    simp [retain, hquarantined hne] at hkeep
  cases heffect with
  | first writable | again writable | reached writable | accepted writable | refused writable =>
    exact writable
  | rebind | prune => exact hretain _ hpersists
  | recordAbsent | recordKnown | acceptAbsent | released | refusedBefore => cases hpersists

/-- A receipt goes only into an entry that is not consumed. -/
theorem Call.Effect.sound (heffect : call.Effect ledger done)
    (h : ∀ entry ∈ ledger.entries, entry.negative ≠ none → entry.phase ≠ .consumed) :
    ∀ entry ∈ done.ledger.entries, entry.negative ≠ none → entry.phase ≠ .consumed := by
  have hupdate : ∀ {name : String} {change : Entry → Entry},
      (∀ entry, ledger.entry name = some entry → (change entry).negative ≠ none →
        (change entry).phase ≠ .consumed) →
      ∀ entry ∈ (ledger.update name change).entries, entry.negative ≠ none →
        entry.phase ≠ .consumed := by
    intro name change hchange entry hentry
    rcases mem_updateFirst hentry with hentry | ⟨entry', hentry', rfl⟩
    · exact h entry hentry
    · exact hchange entry' hentry'
  cases heffect with
  | first writable valid absent =>
    intro entry hentry
    rcases List.mem_append.mp hentry with hentry | hentry
    · exact h entry hentry
    · rw [List.mem_singleton.mp hentry]
      exact fun hne => (hne rfl).elim
  | again | reached | accepted => exact hupdate fun entry _ hne => (hne rfl).elim
  | @refused name receipt entry writable present held =>
    refine hupdate fun entry' hentry' _ hconsumed => ?_
    obtain rfl := some.inj (present.symm.trans hentry')
    have hphase : entry.phase = .consumed := hconsumed
    -- an entry without a receipt that is consumed is released
    refine held ?_
    cases hnegative : entry.negative with
    | none => simp [retention, writable, present, hnegative, Profile.releases, hphase]
    | some receipt' =>
      exact (h entry (mem_of_lookup present) (by simp [hnegative]) hphase).elim
  | rebind | prune => exact fun entry hentry => h entry (List.mem_of_mem_filter hentry)
  | recordAbsent | recordKnown | acceptAbsent | released | refusedBefore => exact h

theorem Seat.Sound.of_call (h : seat.Sound) (call : Call) (write : Write) :
    (seat.call call write).1.Sound := by
  rcases seat.call_cases call write with ⟨-, -, heq⟩ | ⟨done, -, heffect, hmemory, hdisk⟩
  · rwa [heq]
  · have hsound := heffect.sound h.memory
    refine ⟨fun hne => ?_, by rwa [hmemory], ?_⟩
    · rw [hmemory, heffect.quarantine_eq] at hne
      rw [hmemory]
      cases heffect with
      | first writable | again writable | reached writable | accepted writable | refused writable =>
        exact (hne writable).elim
      | rebind | prune =>
        simp [Done.answering, rebind, prune, retain, h.quarantined hne]
      | recordAbsent | recordKnown | acceptAbsent | released | refusedBefore =>
        exact h.quarantined hne
    · rcases hdisk with hdisk | ⟨-, hdisk⟩
      · rw [hdisk]
        exact h.disk
      · rwa [hdisk]

theorem Seat.Holds.of_call (hsound : seat.Sound) (hQ : Stable Q)
    (hspares : call.Spares filename seat.memory)
    (hrefused : ∀ receipt done, call = .negative filename receipt →
      call.run seat.memory = .ok done → done.answer = .retention (.hold .negativeReceipt) →
      seat.memory.retention filename ≠ .release →
      ∀ entry, seat.memory.entry filename = some entry → Q entry → Q (entry.refused receipt))
    (h : seat.Holds filename Q) : (seat.call call write).1.Holds filename Q := by
  rcases seat.call_cases call write with ⟨-, -, heq⟩ | ⟨done, hrun, heffect, hmemory, hdisk⟩
  · rwa [heq]
  · have hhas : seat.memory.quarantine = none → Has filename Q done.ledger.entries := fun hnone =>
      heffect.has hQ hspares (fun receipt hcall => hrefused receipt done hcall hrun) (h.memory hnone)
    refine ⟨fun hnone => ?_, fun hreadable => ?_⟩
    · rw [hmemory] at hnone ⊢
      exact hhas (heffect.quarantine_eq.symm.trans hnone)
    · rcases hdisk with hdisk | ⟨hpersists, hdisk⟩
      · rw [hdisk] at hreadable ⊢
        exact h.disk hreadable
      · rw [hdisk]
        exact hhas (heffect.writable_of_persists hsound.quarantined hpersists)

/-! ### Opening again -/

/-- What a driver starts with: nothing, in quarantine; the entries of the file; or, where there is
no file, those that were recovered. -/
inductive Opening (disk : LedgerFile) (opened : Seat) : Prop
  | quarantined (held : opened.memory.quarantine ≠ none) (empty : opened.memory.entries = [])
      (same : opened.disk = disk)
  | loaded (same : opened.disk = disk) (entries : opened.memory.entries = disk.entries)
      (writable : opened.memory.quarantine = none) (readable : disk ≠ .unreadable)
  | seeded (missing : disk = .missing) (synced : opened.disk.entries = opened.memory.entries)
      (fresh : ∀ entry ∈ opened.memory.entries, entry.negative = none)
      (writable : opened.memory.quarantine = none)
  | unwritten (missing : disk = .missing) (held : opened.memory.quarantine ≠ none)
      (empty : opened.memory.entries = [])
      (fresh : ∀ entry ∈ opened.disk.entries, entry.negative = none)

theorem opening (profile : Profile) (correlate : String → String → String) (agent : String)
    (disk : LedgerFile) (readable : Bool) (runtimeId : String)
    (recovered : Except String (List (Begin × Phase))) (write : Write) :
    Opening disk
      (reopened profile correlate agent disk readable runtimeId recovered write) := by
  have hquarantined : ∀ reason, Opening disk
      (quarantined profile agent runtimeId reason disk) := fun reason =>
    .quarantined (by simp [quarantined]) rfl rfl
  cases readable with
  | false => exact hquarantined _
  | true =>
    cases disk with
    | unreadable => exact hquarantined _
    | holds record =>
      simp only [reopened, opened, if_true]
      cases hload : load profile correlate agent runtimeId record with
      | error reason => exact hquarantined reason
      | ok ledger =>
        obtain ⟨-, rfl⟩ := load_eq_ok.mp hload
        exact .loaded rfl rfl rfl (by simp)
    | missing =>
      cases recovered with
      | error reason => exact hquarantined reason
      | ok found =>
        have hfresh : ∀ entry ∈ found.map fun entry => assertedBy entry.1 entry.2,
            entry.negative = none := by
          intro entry hentry
          obtain ⟨pair, -, rfl⟩ := List.mem_map.mp hentry
          rfl
        simp only [reopened, opened, seed, Except.map, if_true]
        split
        · exact .seeded rfl rfl (by simp [entries, fresh]) rfl
        cases haccept : accept profile correlate
            (found.map fun entry => assertedBy entry.1 entry.2) with
        | error reason => exact hquarantined reason
        | ok u =>
          cases write with
          | done => exact .seeded rfl rfl hfresh rfl
          | failed replaced =>
            refine .unwritten rfl (by simp [quarantined]) rfl ?_
            cases replaced with
            | false => simp [quarantined, written, LedgerFile.entries]
            | true => exact hfresh

theorem Opening.sound {opened : Seat} (h : Opening disk opened)
    (hdisk : ∀ entry ∈ disk.entries, entry.negative ≠ none → entry.phase ≠ .consumed) :
    opened.Sound := by
  cases h with
  | quarantined held empty same =>
    exact ⟨fun _ => empty, by simp [empty], same ▸ hdisk⟩
  | loaded same entries writable =>
    exact ⟨fun hne => (hne writable).elim, entries ▸ hdisk, same ▸ hdisk⟩
  | seeded missing synced fresh writable =>
    refine ⟨fun hne => (hne writable).elim, fun entry hentry hne => ?_, fun entry hentry hne => ?_⟩
    · exact (hne (fresh entry hentry)).elim
    · exact (hne (fresh entry (synced ▸ hentry))).elim
  | unwritten missing held empty fresh =>
    exact ⟨fun _ => empty, by simp [empty], fun entry hentry hne => (hne (fresh entry hentry)).elim⟩

theorem Opening.holds {opened : Seat} (hopening : Opening seat.disk opened)
    (h : seat.Holds filename Q) : opened.Holds filename Q := by
  have hmissing : seat.disk ≠ .missing := by
    intro hdisk
    obtain ⟨entry, hentry, -⟩ := h.disk (by simp [hdisk])
    simp [hdisk, LedgerFile.entries] at hentry
  cases hopening with
  | quarantined held empty same => exact ⟨fun hnone => (held hnone).elim, same ▸ h.disk⟩
  | loaded same entries writable readable =>
    exact ⟨fun _ => entries ▸ h.disk readable, same ▸ h.disk⟩
  | seeded missing | unwritten missing => exact (hmissing missing).elim

/-! ### Transports and receipts -/

theorem stable_negative : Stable fun entry => entry.negative = none where
  again _ _ _ := rfl
  reached _ _ := rfl
  accepted _ _ _ := rfl

/-- The ledger answers `retry` for a message it does not have or that was refused. -/
theorem retry_eq_retry (h : ledger.retry filename = .retry) :
    ledger.quarantine = none ∧ ¬ Has filename (fun entry => entry.negative = none) ledger.entries := by
  unfold retry at h
  split at h
  · cases h
  case isFalse hnone =>
    have hwritable : ledger.quarantine = none := by simpa using hnone
    refine ⟨hwritable, fun ⟨entry, hentry, hnegative⟩ => ?_⟩
    have hpresent : ledger.entry filename = some entry := hentry
    have hretention : ledger.retention filename ≠ .hold .negativeReceipt := by
      simp only [retention, hwritable, hpresent, hnegative, isSome_none,
        Bool.false_eq_true, if_false]
      split_ifs <;> simp
    simp only [hpresent, reduceCtorEq, if_false] at h
    split at h
    · cases h
    · exact hretention ‹_›
    · cases h

/-- A written attempt is held, in memory and in the file. -/
theorem holds_begin {attempt : Begin} (h : (seat.call (.begin attempt) write).2.isOk = true) :
    (seat.call (.begin attempt) write).1.Holds attempt.filename
      (fun entry => entry.negative = none) := by
  obtain ⟨done, heffect, hcall⟩ := call_of_isOk h
  have hpersists : done.persists = true := by cases heffect <;> rfl
  have hhas : Has attempt.filename (fun entry => entry.negative = none) done.ledger.entries := by
    cases heffect with
    | first writable valid absent =>
      refine ⟨Entry.first attempt, ?_, rfl⟩
      have habsent : lookup Entry.filename attempt.filename seat.memory.entries = none := absent
      rw [entries_withEntries, lookup_append, habsent]
      simp [lookup_cons, Entry.first]
    | again writable valid present => exact has_updated (fun _ => rfl) present rfl
  rw [hcall, hpersists]
  exact ⟨fun _ => hhas, fun _ => hhas⟩

theorem transport_notMem_shows {name : String} : .transport name ∉ seat.shows call write := by
  unfold shows
  split
  · split
    · split <;> simp
    · simp
  · split
    · split <;> simp
    · simp
  · simp

/-- Only evidence that the ledger took is shown as recorded. -/
theorem consumed_mem_shows (h : .consumed filename ∈ seat.shows call write) :
    call = .record filename .consumed ∧
      ∃ answer, (seat.call call write).2 = .ok answer ∧ answer ≠ .phase none := by
  unfold shows at h
  split at h
  case h_1 =>
    split at h
    · split at h <;> simp at h
    · simp at h
  case h_2 name =>
    split at h
    case h_1 answer hanswer =>
      split at h
      · simp at h
      · obtain rfl : filename = name := by simpa using h
        exact ⟨rfl, answer, hanswer, ‹_›⟩
    · simp at h
  case h_3 => simp at h

section

variable {profile : Profile} {correlate : String → String → String} {agent : String}
  {world : World} {event : Event}

/-- Between two transports of the message there was a receipt, and a transport without one since is
held. -/
structure World.Tracks (filename : String) (world : World) : Prop where
  sound : world.seat.Sound
  separated : Separated (.transport filename) (.negative filename) world.trace
  pending : Open (.transport filename) (.negative filename) world.trace →
    world.seat.Holds filename fun entry => entry.negative = none

theorem tracks_call (h : world.Tracks filename) (hspares : call.Spares filename world.seat.memory) :
    World.Tracks filename (world.step profile correlate agent (.call call write)) := by
  refine ⟨h.sound.of_call call write, ?_, ?_⟩
  · exact h.separated.append transport_notMem_shows
  · intro hopen
    obtain ⟨hquiet, hopen⟩ := hopen.before transport_notMem_shows
    refine (h.pending hopen).of_call h.sound stable_negative hspares ?_
    rintro receipt done rfl hrun hanswer
    exact (hquiet (by simp [shows, hrun, hanswer])).elim

theorem tracks_attempt {attempt : Begin} (h : world.Tracks filename) :
    World.Tracks filename (world.step profile correlate agent (.attempt attempt write)) := by
  simp only [World.step]
  split
  case isFalse => exact h
  case isTrue hretry =>
    obtain ⟨hwritable, hhas⟩ := retry_eq_retry hretry
    refine ⟨h.sound.of_call _ write, ?_, ?_⟩
    · split
      · refine separated_append h.separated fun heq hopen => ?_
        obtain rfl : attempt.filename = filename := by simpa using heq
        exact hhas ((h.pending hopen).memory hwritable)
      · rw [List.append_nil]
        exact h.separated
    · intro hopen
      have hkept : Open (.transport filename) (.negative filename) world.trace →
          (world.seat.call (.begin attempt) write).1.Holds filename
            (fun entry => entry.negative = none) := fun hopen =>
        (h.pending hopen).of_call h.sound stable_negative trivial (by simp)
      split at hopen
      case isTrue hok =>
        rcases open_append hopen with heq | ⟨-, hopen⟩
        · obtain rfl : attempt.filename = filename := by simpa using heq
          exact holds_begin hok
        · exact hkept hopen
      case isFalse =>
        rw [List.append_nil] at hopen
        exact hkept hopen

theorem tracks_step (h : world.Tracks filename) (hspares : event.Spares filename world) :
    (world.step profile correlate agent event).Tracks filename := by
  cases event with
  | call call write => exact tracks_call h hspares
  | attempt attempt write => exact tracks_attempt h
  | tear =>
    refine ⟨⟨h.sound.quarantined, h.sound.memory, by simp [World.step, LedgerFile.entries]⟩,
      h.separated, fun hopen => ⟨(h.pending hopen).memory, fun hne => (hne rfl).elim⟩⟩
  | reopen readable runtimeId recovered write =>
    have hopening := opening profile correlate agent world.seat.disk readable runtimeId recovered
      write
    exact ⟨hopening.sound h.sound.disk, h.separated, fun hopen => hopening.holds (h.pending hopen)⟩

/-! ### Consumption -/

/-- The message was consumed. -/
def Entry.Settled (entry : Entry) : Prop := entry.negative = none ∧ entry.phase = .consumed

theorem stable_settled : Stable Entry.Settled where
  again _ _ h := ⟨rfl, by simp [again, h.2]⟩
  reached hlt h := (hlt.not_ge (by simp [h.2])).elim
  accepted _ _ h := ⟨rfl, by simp [acceptedBy, h.2]⟩

/-- The file has the phase of the message that memory has. -/
def Seat.Synced (filename : String) (seat : Seat) : Prop :=
  seat.memory.quarantine = none → seat.disk ≠ .unreadable →
    (lookup Entry.filename filename seat.disk.entries).map Entry.phase =
      (seat.memory.entry filename).map Entry.phase

theorem Opening.synced {opened : Seat} (h : Opening disk opened) : opened.Synced filename := by
  intro hnone hreadable
  cases h with
  | quarantined held | unwritten _ held => exact (held hnone).elim
  | loaded same entries => simp only [entry, same, entries]
  | seeded missing synced => simp only [entry, synced]

/-- A call that writes nothing changes no phase. -/
theorem Call.Effect.phase_of_unwritten (heffect : call.Effect ledger done)
    (hpersists : done.persists = false) :
    (done.ledger.entry filename).map Entry.phase = (ledger.entry filename).map Entry.phase := by
  have hretain : ∀ keep, (ledger.retain keep).persists = false →
      (ledger.retain keep).ledger.entry filename = ledger.entry filename := by
    intro keep hkeep
    show lookup Entry.filename filename (ledger.entries.filter keep) = _
    rw [filter_of_unwritten hkeep]
    rfl
  cases heffect with
  | first | again | reached | refused => cases hpersists
  | recordAbsent | recordKnown | acceptAbsent | released | refusedBefore => rfl
  | rebind | prune => exact congrArg (Option.map Entry.phase) (hretain _ hpersists)
  | @accepted name turnId entry writable codex present same =>
    have hphase : max entry.phase .transportAccepted = entry.phase := by
      simp only [bne_eq_false_iff_eq, Prod.mk.injEq] at hpersists
      exact hpersists.1.symm
    have hkey : ∀ entry : Entry, (entry.acceptedBy turnId).filename = entry.filename :=
      fun _ => rfl
    by_cases hname : filename = name
    · subst hname
      have hpresent : lookup Entry.filename filename ledger.entries = some entry := present
      simp only [Ledger.entry, Ledger.update, Ledger.entries_withEntries, lookup_updateFirst hkey,
        hpresent, Option.map_some, Entry.acceptedBy, hphase]
    · simp only [Ledger.entry, Ledger.update, Ledger.entries_withEntries,
        lookup_updateFirst_of_ne hkey hname]

theorem Seat.Synced.of_call (h : seat.Synced filename) (hfails : seat.fails call write = false) :
    Seat.Synced filename (seat.call call write).1 := by
  intro hnone hreadable
  unfold Seat.fails at hfails
  unfold Seat.call at hnone hreadable ⊢
  cases hrun : call.run seat.memory with
  | error reason =>
    simp only [hrun] at hnone hreadable ⊢
    exact h hnone hreadable
  | ok done =>
    have heffect := Call.effect hrun
    simp only [hrun] at hfails hnone hreadable ⊢
    cases hpersists : done.persists with
    | true =>
      obtain rfl : write = .done := by simpa [hpersists] using hfails
      simp only [if_true, Seat.written]
      rfl
    | false =>
      simp only [hpersists, Bool.false_eq_true, if_false] at hnone hreadable ⊢
      rw [heffect.phase_of_unwritten hpersists]
      exact h (heffect.quarantine_eq.symm.trans hnone) hreadable

/-- Evidence of consumption that the ledger says it recorded is in memory and in the file. -/
theorem holds_consumed {name : String} {answer : Answer} (hsound : seat.Sound)
    (hsynced : seat.Synced name)
    (hanswer : (seat.call (.record name .consumed) write).2 = .ok answer)
    (hsome : answer ≠ .phase none) :
    (seat.call (.record name .consumed) write).1.Holds name Entry.Settled := by
  obtain ⟨done, heffect, hcall⟩ := call_of_isOk (by rw [hanswer]; rfl)
  rw [hcall] at hanswer ⊢
  cases heffect with
  | recordAbsent absent => exact (hsome (Except.ok.inj hanswer).symm).elim
  | @recordKnown _ _ entry present known =>
    -- nothing is written: the file has the evidence already
    have hphase : entry.phase = .consumed := Phase.consumed_le_iff.mp known
    have hmem : entry ∈ seat.memory.entries := mem_of_lookup present
    have hsettled : ∀ {entry : Entry}, (entry.negative ≠ none → entry.phase ≠ .consumed) →
        entry.phase = .consumed → entry.Settled := fun hne hphase =>
      ⟨by_contra fun hnegative => hne hnegative hphase, hphase⟩
    have hwritable := hsound.writable_of_mem hmem
    refine ⟨fun _ => ⟨entry, present, hsettled (hsound.memory entry hmem) hphase⟩,
      fun hreadable => ?_⟩
    have hphases := hsynced hwritable hreadable
    rw [present, map_some, map_eq_some_iff] at hphases
    obtain ⟨entry', hentry', hphase'⟩ := hphases
    exact ⟨entry', hentry', hsettled (hsound.disk entry' (mem_of_lookup hentry'))
      (hphase'.trans hphase)⟩
  | reached writable present proved further =>
    have hhas : Has name Entry.Settled
        (seat.memory.update name (Entry.reached .consumed)).entries :=
      has_updated (fun _ => rfl) present ⟨rfl, rfl⟩
    exact ⟨fun _ => hhas, fun _ => hhas⟩

/-- Once its consumption is recorded, the message is held in memory and in the file. -/
structure World.Settles (filename : String) (world : World) : Prop where
  neverAfter : NeverAfter (.transport filename) (.consumed filename) world.trace
  consumed : .consumed filename ∈ world.trace → world.seat.Holds filename Entry.Settled
  synced : world.stale = false → world.seat.Synced filename

theorem Seat.Holds.settled_of_call (hsound : seat.Sound)
    (hspares : call.Spares filename seat.memory) (h : seat.Holds filename Entry.Settled) :
    (seat.call call write).1.Holds filename Entry.Settled := by
  refine h.of_call hsound stable_settled hspares ?_
  intro receipt done hcall hrun hanswer hheld entry hentry hsettled
  -- a settled entry is released, and takes no receipt
  have hwritable := hsound.writable_of_mem (mem_of_lookup hentry)
  refine (hheld ?_).elim
  simp [retention, hwritable, hentry, hsettled.1, Profile.releases, hsettled.2]

theorem settles_call (hsound : world.seat.Sound) (h : world.Settles filename)
    (hspares : call.Spares filename world.seat.memory) (hfresh : world.stale = false) :
    World.Settles filename (world.step profile correlate agent (.call call write)) := by
  refine ⟨?_, ?_, fun hstale => (h.synced hfresh).of_call ?_⟩
  · exact h.neverAfter.append transport_notMem_shows
  · intro hmem
    rcases List.mem_append.mp hmem with hmem | hmem
    · exact (h.consumed hmem).settled_of_call hsound hspares
    · obtain ⟨rfl, answer, hanswer, hsome⟩ := consumed_mem_shows hmem
      exact holds_consumed hsound (h.synced hfresh) hanswer hsome
  · simp only [World.step, hfresh, Bool.false_or] at hstale
    exact hstale

theorem settles_attempt {attempt : Begin} (hsound : world.seat.Sound)
    (h : world.Settles filename) (hfresh : world.stale = false) :
    World.Settles filename (world.step profile correlate agent (.attempt attempt write)) := by
  simp only [World.step]
  split
  case isFalse => exact h
  case isTrue hretry =>
    obtain ⟨hwritable, hhas⟩ := retry_eq_retry hretry
    refine ⟨?_, fun hmem => ?_, fun hstale => (h.synced hfresh).of_call ?_⟩
    · split
      · refine neverAfter_append h.neverAfter fun heq hmem => ?_
        obtain rfl : attempt.filename = filename := by simpa using heq
        obtain ⟨entry, hentry, hsettled⟩ := (h.consumed hmem).memory hwritable
        exact hhas ⟨entry, hentry, hsettled.1⟩
      · rw [List.append_nil]
        exact h.neverAfter
    · refine (h.consumed ?_).settled_of_call hsound trivial
      rcases List.mem_append.mp hmem with hmem | hmem
      · exact hmem
      · split at hmem <;> simp at hmem
    · simp only [hfresh, Bool.false_or] at hstale
      exact hstale

theorem settles_step (hsound : world.seat.Sound) (h : world.Settles filename)
    (hspares : event.Spares filename world) (hcareful : event.Careful world) :
    (world.step profile correlate agent event).Settles filename := by
  cases event with
  | call call write => exact settles_call hsound h hspares hcareful
  | attempt attempt write => exact settles_attempt hsound h hcareful
  | tear =>
    refine ⟨h.neverAfter, fun hmem => ⟨(h.consumed hmem).memory, fun hne => (hne rfl).elim⟩, ?_⟩
    exact fun _ _ hne => (hne rfl).elim
  | reopen readable runtimeId recovered write =>
    have hopening := opening profile correlate agent world.seat.disk readable runtimeId recovered
      write
    exact ⟨h.neverAfter, fun hmem => hopening.holds (h.consumed hmem), fun _ => hopening.synced⟩

/-! ### Phases -/

theorem stable_phase (phase : Phase) : Stable fun entry => phase ≤ entry.phase where
  again _ _ h := le_trans h (le_max_left ..)
  reached hlt h := le_trans h hlt.le
  accepted _ _ h := le_trans h (le_max_left ..)

theorem phase_step {phase : Phase} (hsound : world.seat.Sound)
    (hspares : event.Spares filename world)
    (h : world.seat.Holds filename fun entry => phase ≤ entry.phase) :
    (world.step profile correlate agent event).seat.Holds filename
      fun entry => phase ≤ entry.phase := by
  have hphase := stable_phase phase
  cases event with
  | call call write => exact h.of_call hsound hphase hspares fun _ _ _ _ _ _ _ _ => id
  | attempt attempt write =>
    simp only [World.step]
    split
    · exact h.of_call hsound hphase trivial fun _ _ _ _ _ _ _ _ => id
    · exact h
  | tear => exact ⟨h.memory, fun hne => (hne rfl).elim⟩
  | reopen readable runtimeId recovered write =>
    exact (opening profile correlate agent world.seat.disk readable runtimeId recovered write).holds h

end

/-! ### Whole runs -/

section

variable (profile : Profile) (correlate : String → String → String) (agent runtimeId : String)
  (recovered : Except String (List (Begin × Phase))) (write : Write) (filename : String)

theorem tracks_start :
    (World.start profile correlate agent runtimeId recovered write).Tracks filename := by
  have hopening := opening profile correlate agent .missing true runtimeId recovered write
  exact ⟨hopening.sound (by simp [LedgerFile.entries]), separated_nil,
    fun hopen => (not_open_nil hopen).elim⟩

theorem settles_start :
    (World.start profile correlate agent runtimeId recovered write).Settles filename := by
  have hopening := opening profile correlate agent .missing true runtimeId recovered write
  exact ⟨neverAfter_nil, fun hmem => (List.not_mem_nil hmem).elim, fun _ => hopening.synced⟩

/-- **Phases are kept.** What memory and the file say a message has reached, they say in the rest of
every run that does not drop its entry: through refused and failed calls, torn files and new
drivers. -/
theorem phases_kept (before after : List Event) (phase : Phase)
    (hspares : Along (World.step profile correlate agent) (fun world event =>
      event.Spares filename world) (.start profile correlate agent runtimeId recovered write)
      (before ++ after))
    (h : (before.foldl (World.step profile correlate agent) (.start profile correlate agent runtimeId
      recovered write)).seat.Holds filename fun entry => phase ≤ entry.phase) :
    ((before ++ after).foldl (World.step profile correlate agent) (.start profile correlate agent
      runtimeId recovered write)).seat.Holds filename fun entry => phase ≤ entry.phase := by
  obtain ⟨hbefore, hafter⟩ := along_append.mp hspares
  have htracks := hbefore.invariant (fun _ _ hspares h => tracks_step h hspares)
    (tracks_start profile correlate agent runtimeId recovered write filename)
  rw [List.foldl_append]
  refine (hafter.invariant (I := fun world : World => world.Tracks filename ∧
    world.seat.Holds filename fun entry => phase ≤ entry.phase) ?_ ⟨htracks, h⟩).2
  rintro world event hspares ⟨htracks, h⟩
  exact ⟨tracks_step htracks hspares, phase_step htracks.sound hspares h⟩

end

def claudeRun : List Event :=
  [.attempt threadAttempt .done, .call (.negative "1786380000000-aaa111.md" .absent) .done,
    .reopen true "runtime-2" (.ok []) .done, .attempt threadAttempt .done,
    .call (.record "1786380000000-aaa111.md" .consumed) .done,
    .reopen true "runtime-3" (.ok []) .done, .attempt threadAttempt .done]

theorem claudeRun_consumed : (claudeRun.foldl (World.step ⟨.claude⟩ threadCorrelation "h.worker")
      (.start ⟨.claude⟩ threadCorrelation "h.worker" "runtime" (.ok []) .done)).seat.Holds
        "1786380000000-aaa111.md" fun entry => .consumed ≤ entry.phase :=
  phases_kept ⟨.claude⟩ threadCorrelation "h.worker" "runtime" (.ok []) .done
    "1786380000000-aaa111.md" (claudeRun.take 5) (claudeRun.drop 5) .consumed
    ⟨trivial, trivial, trivial, trivial, trivial, trivial, trivial, trivial⟩
    ⟨fun _ => ⟨_, rfl, by decide +kernel⟩, fun _ => ⟨_, rfl, by decide +kernel⟩⟩

/-- The disk is full when the consumption is first recorded. -/
def fullDiskRun : List Event :=
  [.attempt threadAttempt .done,
    .call (.record "1786380000000-aaa111.md" .consumed) (.failed false),
    .call (.record "1786380000000-aaa111.md" .consumed) .done,
    .reopen true "runtime-2" (.ok []) .done,
    .call (.negative "1786380000000-aaa111.md" .retryAfterAbandonedIncarnation) .done,
    .attempt threadAttempt .done]

end SmallTalk.Delivery
