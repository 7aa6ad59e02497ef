import SmallTalk.Resources.CatchUpStates

/-!
# Resources — the writes of the catch-up state

Between two calls the files of a binding are in one of six phases (`Phase`), by how far a publication,
a recovery or a migration came. Each durable write is a `Transition`; the calls make no others
(`Call.transitions`), and every transition but that of a new generation leads from phase to phase
(`Transition.good`).

`modest` are the topics and facts that are small enough: states that hold only such fit in the file
(`Sizes`).
-/

namespace SmallTalk.Resources

open CatchUpState Durable Fallible

variable {β D : Type}

def Call.publication : Call β D → Option (AcceptedPublication β)
  | commitProposal _ publication | publish publication => some publication
  | _ => none

section

variable (files : Files β D) (modest : List String → List ResourceFact → Prop)

/-- A state that can be written: it is valid, its counters are machine numbers and what it holds is
modest. -/
structure Fit (state : CatchUpState D) : Prop where
  valid : state.Valid
  generation : state.generation ≤ u64Max
  revision : state.revision ≤ u64Max
  last : ∀ intent, state.lastIntent = some intent → modest intent.selectedTopics intent.facts
  pending : modest state.pendingSelectedTopics state.pendingFacts

/-- What is modest fits in the state file. -/
structure Sizes : Prop where
  nothing : modest [] []
  fits : ∀ state, Fit modest state → files.stateBytes state ≤ maxCatchUpFileBytes

variable (disk : Disk β D)

/-- How far the writes came. There is no intent and the carrier is the recorded one, or has not been
looked at yet; there is an intent, and the carrier is still the old one, is that of the intent, or is
recorded; or there is an intent of an earlier release. -/
inductive Phase : Prop where
  | settled (hintent : disk.intent = none)
      (hcurrent : disk.state.currentSnapshotDigest = disk.observed files)
  | unread (hintent : disk.intent = none) (hrevision : disk.state.revision = 0)
      (hpending : disk.state.pendingRelevantChange = false)
  | announced (intent : PublicationIntent D) (hintent : disk.intent = some (.current intent))
      (hobserved : disk.observed files ≠ some intent.digest)
      (hcurrent : disk.state.currentSnapshotDigest = disk.observed files)
  | published (intent : PublicationIntent D) (hintent : disk.intent = some (.current intent))
      (hobserved : disk.observed files = some intent.digest) (hfence : disk.state.Fences intent)
  | recorded (intent : PublicationIntent D) (hintent : disk.intent = some (.current intent))
      (hobserved : disk.observed files = some intent.digest)
      (hlast : disk.state.lastIntent = some intent)
      (hcurrent : disk.state.currentSnapshotDigest = disk.observed files)
  | legacy (intent : LegacyPublicationIntent D) (hintent : disk.intent = some (.legacy intent))
      (hrevision : disk.state.revision = 0)
      (hpending : disk.state.pendingRelevantChange = true → (disk.observed files).isSome = true)

/-- Files from which the next call goes on. -/
structure Good : Prop where
  fit : Fit modest disk.state
  stored : ∀ stored, disk.intent = some stored →
    Envelope stored.selectedTopics stored.facts ∧ modest stored.selectedTopics stored.facts
  counters : ∀ intent, disk.intent = some (.current intent) →
    intent.expectedRevision < u64Max ∧ intent.generation ≤ disk.state.generation
  phase : Phase files disk

end

/-- A durable write of a call. -/
inductive Transition (files : Files β D) : Call β D → Disk β D → Disk β D → Prop
  | record {call disk} {intent : PublicationIntent D} {state}
      (hintent : disk.intent = some (.current intent))
      (hobserved : disk.observed files = some intent.digest)
      (hnew : disk.state.lastIntent ≠ some intent) (hfence : disk.state.Fences intent)
      (hrecords : disk.state.Records intent state) (hvalid : state.Valid) :
      Transition files call disk { disk with state := state }
  | adopt {call disk} (hrevision : disk.state.revision = 0)
      (hother : ∀ intent, disk.intent = some (.current intent) →
        disk.observed files ≠ some intent.digest)
      (hvalid : { disk.state with currentSnapshotDigest := disk.observed files }.Valid) :
      Transition files call disk
        { disk with state := { disk.state with currentSnapshotDigest := disk.observed files } }
  | adoptLegacy {call disk intent} (hintent : disk.intent = some (.legacy intent))
      (hobserved : disk.observed files = some intent.digest)
      (hvalid : (disk.state.adoptLegacy intent).Valid) :
      Transition files call disk { disk with state := disk.state.adoptLegacy intent }
  | drop {call disk} (hcurrent : disk.state.currentSnapshotDigest = disk.observed files)
      (hdone : ∀ intent, disk.intent = some (.current intent) →
        disk.observed files = some intent.digest → disk.state.lastIntent = some intent) :
      Transition files call disk { disk with intent := none }
  | announce {call disk publication intent} (hcall : call.publication = some publication)
      (hmade : publication.intent files disk.state.proposalFence = intent)
      (hintent : disk.intent = none)
      (hcurrent : disk.state.currentSnapshotDigest = disk.observed files)
      (hchange : disk.observed files ≠ some intent.digest)
      (hmax : intent.expectedRevision < u64Max)
      (henvelope : Envelope intent.selectedTopics intent.facts) :
      Transition files call disk { disk with intent := some (.current intent) }
  | carry {call disk publication intent} (hcall : call.publication = some publication)
      (hmade : publication.intent files disk.state.proposalFence = intent)
      (hintent : disk.intent = some (.current intent))
      (hnew : disk.state.lastIntent ≠ some intent) :
      Transition files call disk { disk with carrier := some publication.bytes }
  | deliver {deliverable disk} (hvalid : { disk.state with deliverable := deliverable }.Valid) :
      Transition files (.setDeliverable deliverable) disk
        { disk with state := { disk.state with deliverable := deliverable } }
  | acknowledge {digest disk} (hpending : disk.state.pendingRelevantChange = true)
      (hcurrent : disk.state.currentSnapshotDigest = some digest)
      (hvalid : { disk.state.withoutPending with lastDeliveredDigest := some digest }.Valid) :
      Transition files (.acknowledgeDelivery digest) disk
        { disk with state := { disk.state.withoutPending with lastDeliveredDigest := some digest } }

/-! ### Phases are kept -/

variable {files : Files β D} {modest : List String → List ResourceFact → Prop}
  {disk next : Disk β D} {call : Call β D}

section

variable {intent : PublicationIntent D} {state state' : CatchUpState D}

theorem fences_of_made {publication : AcceptedPublication β}
    (h : publication.intent files state.proposalFence = intent) : state.Fences intent := by
  subst h
  rfl

/-- An intent made in a valid state is not the last one. -/
theorem CatchUpState.Fences.ne_lastIntent (h : state.Fences intent) (hvalid : state.Valid) :
    state.lastIntent ≠ some intent := by
  intro hlast
  have hrevision := (hvalid.last intent hlast).revision
  have : state.revision = intent.expectedRevision := congrArg ProposalFence.revision h
  omega

theorem lastIntent_of_revision (hvalid : state.Valid) (h : state.revision = 0) :
    state.lastIntent = none := by
  cases hlast : state.lastIntent with
  | none => rfl
  | some intent => exact absurd (hvalid.last intent hlast).revision (by omega)

/-- A valid state with the counters, the last intent and the pending change of another is fit as that
is. -/
theorem Fit.of_same (h : Fit modest state) (hvalid : state'.Valid)
    (hgeneration : state'.generation = state.generation) (hrevision : state'.revision = state.revision)
    (hlast : state'.lastIntent = state.lastIntent)
    (hpending : modest state'.pendingSelectedTopics state'.pendingFacts) : Fit modest state' :=
  ⟨hvalid, hgeneration ▸ h.generation, hrevision ▸ h.revision,
    fun intent hintent => h.last intent (hlast ▸ hintent), hpending⟩

theorem Fit.records (h : Fit modest state) (hsizes : Sizes files modest) (hvalid : state'.Valid)
    (hrecords : state.Records intent state') (hmax : intent.expectedRevision < u64Max)
    (hmodest : modest intent.selectedTopics intent.facts) : Fit modest state' := by
  refine ⟨hvalid, hrecords.generation ▸ h.generation, by rw [hrecords.revision]; omega, ?_, ?_⟩
  · intro last hlast
    obtain rfl := Option.some.inj (hrecords.lastIntent.symm.trans hlast)
    exact hmodest
  · cases hrecords with
    | relevant htopics => exact hsizes.nothing
    | silent htopics hfrom => exact h.pending
    | keeping htopics hfrom previous hprevious => exact h.last previous hprevious

theorem Fit.adoptLegacy {legacy : LegacyPublicationIntent D} (h : Fit modest state)
    (hvalid : (state.adoptLegacy legacy).Valid) (hmodest : modest legacy.selectedTopics legacy.facts) :
    Fit modest (state.adoptLegacy legacy) := by
  unfold CatchUpState.adoptLegacy at hvalid ⊢
  split_ifs at hvalid ⊢ with htopics
  · exact h.of_same hvalid rfl rfl rfl h.pending
  · exact h.of_same hvalid rfl rfl rfl hmodest

end

/-- A write of the state that leaves its counters, the current digest and the last intent. -/
theorem Phase.of_sameState {state : CatchUpState D} (h : Phase files disk)
    (hgeneration : state.generation = disk.state.generation)
    (hrevision : state.revision = disk.state.revision)
    (hcurrent : state.currentSnapshotDigest = disk.state.currentSnapshotDigest)
    (hlast : state.lastIntent = disk.state.lastIntent)
    (hpending : state.pendingRelevantChange = true → disk.state.pendingRelevantChange = true) :
    Phase files { disk with state := state } := by
  cases h with
  | settled hintent hsame => exact .settled hintent (hcurrent.trans hsame)
  | unread hintent hzero hidle =>
    refine .unread hintent (hrevision.trans hzero) ?_
    cases hnow : state.pendingRelevantChange with
    | false => rfl
    | true => exact absurd (hpending hnow) (by simp [hidle])
  | announced intent hintent hobserved hsame =>
    exact .announced intent hintent hobserved (hcurrent.trans hsame)
  | published intent hintent hobserved hfence =>
    refine .published intent hintent hobserved ?_
    rw [CatchUpState.Fences, proposalFence] at hfence ⊢
    rwa [hgeneration, hrevision, hcurrent]
  | recorded intent hintent hobserved hrecorded hsame =>
    exact .recorded intent hintent hobserved (hlast.trans hrecorded) (hcurrent.trans hsame)
  | legacy intent hintent hzero hidle =>
    exact .legacy intent hintent (hrevision.trans hzero) fun h => hidle (hpending h)

theorem Good.revision_of_legacy {intent : LegacyPublicationIntent D} (h : Good files modest disk)
    (hintent : disk.intent = some (.legacy intent)) : disk.state.revision = 0 := by
  cases h.phase with
  | legacy _ _ hzero | unread _ hzero => exact hzero
  | settled h | announced _ h | published _ h | recorded _ h => exact nomatch hintent.symm.trans h

/-- **Phases are kept** by every write of a call that does not start a generation. -/
theorem Transition.good (hsizes : Sizes files modest)
    (hmodest : ∀ publication, call.publication = some publication →
      modest publication.selectedTopics publication.facts)
    (h : Transition files call disk next) (hgood : Good files modest disk) :
    Good files modest next := by
  obtain ⟨hfit, hstored, hcounters, hphase⟩ := hgood
  cases h with
  | @record _ _ intent state hintent hobserved hnew hfence hrecords hvalid =>
    refine ⟨hfit.records hsizes hvalid hrecords (hcounters intent hintent).1
      (hstored _ hintent).2, hstored, fun other hother => ?_, ?_⟩
    · exact ⟨(hcounters other hother).1, hrecords.generation ▸ (hcounters other hother).2⟩
    · exact .recorded intent hintent hobserved hrecords.lastIntent
        (hrecords.current.trans hobserved.symm)
  | adopt hrevision hother hvalid =>
    refine ⟨hfit.of_same hvalid rfl rfl rfl hfit.pending, hstored, hcounters, ?_⟩
    cases hphase with
    | settled hintent hsame => exact .settled hintent rfl
    | unread hintent hzero hidle => exact .settled hintent rfl
    | announced intent hintent hobserved hsame => exact .announced intent hintent hobserved rfl
    | published intent hintent hobserved hfence => exact absurd hobserved (hother intent hintent)
    | recorded intent hintent hobserved hlast hsame =>
      exact absurd hobserved (hother intent hintent)
    | legacy intent hintent hzero hidle => exact .legacy intent hintent hzero hidle
  | @adoptLegacy _ _ intent hintent hobserved hvalid =>
    refine ⟨hfit.adoptLegacy hvalid (hstored _ hintent).2, hstored,
      fun other hother => (nomatch hintent.symm.trans hother), ?_⟩
    have hzero := Good.revision_of_legacy ⟨hfit, hstored, hcounters, hphase⟩ hintent
    refine .legacy intent hintent ?_ fun _ => by
      show (disk.observed files).isSome = true
      rw [hobserved]
      rfl
    show (disk.state.adoptLegacy intent).revision = 0
    unfold CatchUpState.adoptLegacy
    split <;> exact hzero
  | drop hcurrent hdone =>
    exact ⟨hfit, nofun, nofun, .settled rfl hcurrent⟩
  | @announce _ _ publication intent hcall hmade hintent hcurrent hchange hmax henvelope =>
    have htopics : intent.selectedTopics = publication.selectedTopics := hmade ▸ rfl
    have hfacts : intent.facts = publication.facts := hmade ▸ rfl
    have hgeneration : intent.generation = disk.state.generation := hmade ▸ rfl
    refine ⟨hfit, ?_, ?_, .announced intent rfl hchange hcurrent⟩
    · rintro stored ⟨⟩
      refine ⟨henvelope, ?_⟩
      show modest intent.selectedTopics intent.facts
      rw [htopics, hfacts]
      exact hmodest publication hcall
    · rintro other ⟨⟩
      exact ⟨hmax, hgeneration.le⟩
  | @carry _ _ publication intent hcall hmade hintent hnew =>
    have hdigest : files.digestOf publication.bytes = intent.digest := hmade ▸ rfl
    refine ⟨hfit, hstored, hcounters, .published intent hintent ?_ (fences_of_made hmade)⟩
    exact congrArg some hdigest
  | deliver hvalid =>
    exact ⟨hfit.of_same hvalid rfl rfl rfl hfit.pending, hstored, hcounters,
      hphase.of_sameState rfl rfl rfl rfl id⟩
  | acknowledge hpending hcurrent hvalid =>
    exact ⟨hfit.of_same hvalid rfl rfl rfl hsizes.nothing, hstored, hcounters,
      hphase.of_sameState rfl rfl rfl rfl nofun⟩

/-! ### The calls make no other writes -/

section

variable {P : Disk β D → Prop} {intent : PublicationIntent D} {R : Disk β D → Disk β D → Prop}

theorem commitState_ensures [DecidableEq D] {state : CatchUpState D} {Q : Unit → Disk β D → Prop}
    (h : state.Valid → ∀ disk, P disk →
      R disk { disk with state := state } ∧ Q () { disk with state := state }) :
    Ensures R P (commitState files state) Q := by
  refine ensures_lift_bind fun _ hvalid => ?_
  split
  · exact ensures_fail
  · exact ensures_write fun disk hdisk => h (validate_eq_ok.mp hvalid) disk hdisk

theorem reload_ensures [DecidableEq D] :
    Ensures R P reload fun state disk => P disk ∧ state = disk.state := by
  refine ensures_read_bind fun disk hdisk => ensures_lift_bind fun _ _ => ensures_pure ?_
  rintro _ rfl
  exact ⟨hdisk, rfl⟩

theorem readPublicationIntent_ensures :
    Ensures R P readPublicationIntent fun stored disk => P disk ∧ stored = disk.intent := by
  refine ensures_read_bind fun disk hdisk => ?_
  cases hintent : disk.intent with
  | none => exact ensures_pure fun _ h => h ▸ ⟨hdisk, hintent.symm⟩
  | some stored =>
    exact ensures_lift_bind fun _ _ => ensures_pure fun _ h => h ▸ ⟨hdisk, hintent.symm⟩

/-- The carrier is not that of an intent. -/
def Other (files : Files β D) (disk : Disk β D) : Prop :=
  ∀ intent, disk.intent = some (.current intent) → disk.observed files ≠ some intent.digest

/-- The carrier is that of the intent. -/
structure Matches (files : Files β D) (intent : PublicationIntent D) (disk : Disk β D) : Prop where
  stored : disk.intent = some (.current intent)
  observed : disk.observed files = some intent.digest

theorem recordIntent_ensures [DecidableEq D] : Ensures (Transition files call)
      (fun disk => Matches files intent disk ∧ disk.state.Fences intent ∧
        disk.state.lastIntent ≠ some intent)
      (recordIntent files intent) fun _ disk => Matches files intent disk ∧
        disk.state.lastIntent = some intent ∧
        disk.state.currentSnapshotDigest = disk.observed files := by
  refine ensures_read_bind fun disk ⟨hmatches, hfence, hnew⟩ => ?_
  refine ensures_lift_bind fun state hstate => ?_
  obtain ⟨-, hrecords⟩ := record_eq_ok.mp hstate
  refine commitState_ensures fun hvalid disk hdisk => ?_
  subst hdisk
  exact ⟨.record hmatches.stored hmatches.observed hnew hfence hrecords hvalid,
    ⟨hmatches.stored, hmatches.observed⟩, hrecords.lastIntent,
    hrecords.current.trans hmatches.observed.symm⟩

/-- In a good store whose last intent is the stored one, the carrier is recorded. -/
theorem Good.current_of_last (h : Good files modest disk)
    (hintent : disk.intent = some (.current intent)) (hlast : disk.state.lastIntent = some intent) :
    disk.state.currentSnapshotDigest = disk.observed files := by
  cases h.phase with
  | settled _ hsame | announced _ _ _ hsame | recorded _ _ _ _ hsame => exact hsame
  | unread hnone => exact nomatch hnone.symm.trans hintent
  | published other hother _ hfence =>
    cases hother.symm.trans hintent
    exact absurd hlast (hfence.ne_lastIntent h.fit.valid)
  | legacy other hother => exact nomatch hother.symm.trans hintent

theorem clearPublicationIntent_ensures : Ensures (Transition files call)
      (fun disk => disk.state.currentSnapshotDigest = disk.observed files ∧
        ∀ intent, disk.intent = some (.current intent) →
          disk.observed files = some intent.digest → disk.state.lastIntent = some intent)
      clearPublicationIntent fun _ disk =>
        disk.intent = none ∧ disk.state.currentSnapshotDigest = disk.observed files :=
  ensures_write fun _ ⟨hcurrent, hdone⟩ => ⟨.drop hcurrent hdone, rfl, hcurrent⟩

theorem writePublicationIntent_ensures {Q : Unit → Disk β D → Prop}
    (h : Envelope intent.selectedTopics intent.facts → ∀ disk, P disk →
      R disk { disk with intent := some (.current intent) } ∧
        Q () { disk with intent := some (.current intent) }) :
    Ensures R P (writePublicationIntent files intent) Q := by
  refine ensures_lift_bind fun _ hvalid => ?_
  split
  · exact ensures_fail
  · exact ensures_write fun disk hdisk => h (PublicationIntent.validate_eq_ok.mp hvalid) disk hdisk

/-- The four writes of a publication. -/
theorem announce_ensures [DecidableEq D] {publication : AcceptedPublication β}
    (hcall : call.publication = some publication) (hmax : intent.expectedRevision < u64Max) :
    Ensures (Transition files call)
      (fun disk => (disk.intent = none ∧
          disk.state.currentSnapshotDigest = disk.observed files) ∧
        publication.intent files disk.state.proposalFence = intent ∧
        disk.observed files ≠ some intent.digest ∧ disk.state.lastIntent ≠ some intent)
      (announce files intent publication.bytes) fun _ _ => True := by
  refine ensures_bind (M := fun _ disk => disk.intent = some (.current intent) ∧
      publication.intent files disk.state.proposalFence = intent ∧
      disk.state.lastIntent ≠ some intent) ?_ fun _ => ?_
  · refine writePublicationIntent_ensures fun henvelope disk h => ?_
    obtain ⟨⟨hintent, hcurrent⟩, hmade, hchange, hnew⟩ := h
    exact ⟨.announce hcall hmade hintent hcurrent hchange hmax henvelope, rfl, hmade, hnew⟩
  refine ensures_bind (M := fun _ disk => Matches files intent disk ∧ disk.state.Fences intent ∧
      disk.state.lastIntent ≠ some intent) ?_ fun _ => ?_
  · refine ensures_write fun disk ⟨hintent, hmade, hnew⟩ => ?_
    have hdigest : files.digestOf publication.bytes = intent.digest := hmade ▸ rfl
    exact ⟨.carry hcall hmade hintent hnew, ⟨hintent, congrArg some hdigest⟩,
      fences_of_made hmade, hnew⟩
  refine ensures_bind recordIntent_ensures fun _ => ?_
  refine clearPublicationIntent_ensures.weaken (fun disk h => ?_) fun _ _ _ => trivial
  refine ⟨h.2.2, fun stored hstored _ => ?_⟩
  cases h.1.stored.symm.trans hstored
  exact h.2.1

theorem commitProposalLocked_ensures [DecidableEq D] {publication : AcceptedPublication β}
    {fence : ProposalFence D} (hcall : call.publication = some publication) :
    Ensures (Transition files call)
      (fun disk => disk.intent = none ∧ disk.state.currentSnapshotDigest = disk.observed files)
      (commitProposalLocked files fence publication) fun _ _ => True := by
  refine ensures_read_bind fun disk hdisk => ?_
  dsimp only
  split_ifs with hnew _ hfence hchange
  · exact ensures_lift_bind fun _ _ => ensures_pure fun _ _ => trivial
  · exact ensures_pure fun _ _ => trivial
  · exact ensures_pure fun _ _ => trivial
  · exact ensures_pure fun _ _ => trivial
  · obtain rfl := not_not.mp hfence
    refine ensures_lift_bind fun commit hcommit => ?_
    refine ensures_seq_pure ?_
    obtain ⟨hmax, -⟩ := PublicationIntent.commit_eq_ok.mp hcommit
    refine (announce_ensures hcall hmax).weaken (fun other h => ?_) fun _ _ h => h
    subst h
    refine ⟨hdisk, rfl, fun hsame => hchange ?_, hnew⟩
    have hsame : other.observed files = some (files.digestOf publication.bytes) := hsame
    simp [AcceptedPublication.prepare, hsame]

end

/-! ### Reconciling does not fail -/

section

variable (h : Good files modest disk)

include h

/-- A pending change has a carrier. -/
theorem Good.isSome_of_pending (hother : Other files disk)
    (hpending : disk.state.pendingRelevantChange = true) :
    (disk.observed files).isSome = true := by
  cases h.phase with
  | settled _ hsame | announced _ _ _ hsame => exact hsame ▸ h.fit.valid.current hpending
  | unread _ _ hidle => simp [hidle] at hpending
  | published intent hintent hobserved | recorded intent hintent hobserved =>
    exact absurd hobserved (hother intent hintent)
  | legacy _ _ _ hsome => exact hsome hpending

theorem Good.current_or_zero (hother : Other files disk) :
    disk.state.currentSnapshotDigest = disk.observed files ∨ disk.state.revision = 0 := by
  cases h.phase with
  | settled _ hsame | announced _ _ _ hsame => exact .inl hsame
  | unread _ hzero | legacy _ _ hzero => exact .inr hzero
  | published intent hintent hobserved | recorded intent hintent hobserved =>
    exact absurd hobserved (hother intent hintent)

theorem Good.fit_adopt (hother : Other files disk) (hzero : disk.state.revision = 0) :
    Fit modest { disk.state with currentSnapshotDigest := disk.observed files } := by
  have hvalid := h.fit.valid
  refine h.fit.of_same ⟨h.isSome_of_pending hother, hvalid.fromLast, hvalid.kept, hvalid.bare,
    hvalid.envelope, fun intent hintent => ?_⟩ rfl rfl rfl h.fit.pending
  exact nomatch (lastIntent_of_revision hvalid hzero).symm.trans hintent

theorem Good.fit_adoptLegacy {intent : LegacyPublicationIntent D}
    (hintent : disk.intent = some (.legacy intent)) (hzero : disk.state.revision = 0)
    (hobserved : disk.observed files = some intent.digest) :
    Fit modest (disk.state.adoptLegacy intent) := by
  have hother : Other files disk := fun other hother => (nomatch hintent.symm.trans hother)
  have hadopted := h.fit_adopt hother hzero
  have hnone := lastIntent_of_revision h.fit.valid hzero
  obtain ⟨henvelope, hmodest⟩ := h.stored _ hintent
  unfold adoptLegacy
  split_ifs with htopics
  · rwa [hobserved] at hadopted
  · refine h.fit.of_same ⟨fun _ => rfl, nofun, fun _ => ?_, ?_, henvelope,
      fun other hlast => ?_⟩ rfl rfl rfl hmodest
    · exact ⟨fun _ => htopics, fun _ => rfl⟩
    · rintro (hfrom | hidle)
      · exact nomatch hfrom
      · exact nomatch hidle
    · exact nomatch hnone.symm.trans hlast

theorem Good.fences_of_ne {intent : PublicationIntent D}
    (hmatches : Matches files intent disk) (hnew : disk.state.lastIntent ≠ some intent) :
    disk.state.Fences intent := by
  cases h.phase with
  | settled hintent | unread hintent | legacy _ hintent =>
    exact nomatch hintent.symm.trans hmatches.stored
  | announced other hintent hobserved =>
    cases hintent.symm.trans hmatches.stored
    exact absurd hmatches.observed hobserved
  | published other hintent _ hfence =>
    cases hintent.symm.trans hmatches.stored
    exact hfence
  | recorded other hintent _ hlast =>
    cases hintent.symm.trans hmatches.stored
    exact absurd hlast hnew

theorem Good.envelope (stored : StoredPublicationIntent D)
    (hintent : disk.intent = some stored) : Envelope stored.selectedTopics stored.facts :=
  (h.stored stored hintent).1

end

theorem readPublicationIntent_apply (h : ∀ stored, disk.intent = some stored →
      Envelope stored.selectedTopics stored.facts) :
    readPublicationIntent disk = ([], .ok disk.intent) := by
  rw [readPublicationIntent, read_bind_apply]
  cases hintent : disk.intent with
  | none => rfl
  | some stored =>
    have hvalid := StoredPublicationIntent.validate_eq_ok.mpr (h stored hintent)
    dsimp only
    rw [hvalid, lift_ok_bind_apply]
    rfl

section

variable [DecidableEq D] {P : Disk β D → Prop} {R : Disk β D → Disk β D → Prop}
  {intent : PublicationIntent D}

theorem reload_apply (h : disk.state.Valid) : reload disk = ([], .ok disk.state) := by
  rw [reload, read_bind_apply, validate_eq_ok.mpr h, lift_ok_bind_apply]
  rfl

theorem reload_achieves :
    Achieves R (Good files modest) reload fun _ disk => Good files modest disk :=
  ⟨reload_ensures.weaken (fun _ h => h) fun _ _ h => h.1,
    fun disk h => ⟨disk.state, by rw [reload_apply h.fit.valid]⟩⟩

variable (hsizes : Sizes files modest)

include hsizes

theorem commitState_apply {state : CatchUpState D} (hfit : Fit modest state) :
    commitState files state disk = ([{ disk with state := state }], .ok ()) := by
  rw [commitState, validate_eq_ok.mpr hfit.valid, lift_ok_bind_apply,
    if_neg (not_lt.mpr (hsizes.fits state hfit))]
  rfl

theorem commitState_achieves {state : CatchUpState D} {Q : Unit → Disk β D → Prop}
    (hfit : Fit modest state) (h : ∀ disk, P disk →
      R disk { disk with state := state } ∧ Q () { disk with state := state }) :
    Achieves R P (commitState files state) Q :=
  ⟨commitState_ensures fun _ => h, fun _ _ => ⟨(), by rw [commitState_apply hsizes hfit]⟩⟩

theorem adoptCarrier_achieves (stored : Option (StoredPublicationIntent D)) :
    Achieves (Transition files call)
      (fun disk => Good files modest disk ∧ disk.intent = stored ∧ Other files disk)
      (adoptCarrier files) fun _ disk => (disk.intent = stored ∧ Other files disk) ∧
        disk.state.currentSnapshotDigest = disk.observed files := by
  refine achieves_read_bind fun disk ⟨hgood, hintent, hother⟩ => ?_
  have hzero (hdiffers : disk.observed files ≠ disk.state.currentSnapshotDigest) :
      disk.state.revision = 0 :=
    (hgood.current_or_zero hother).resolve_left fun hsame => hdiffers hsame.symm
  dsimp only
  split_ifs with hstale hlost hdiffers
  · exact absurd (hzero hstale.1) hstale.2.ne'
  · have hsome := hgood.isSome_of_pending hother hlost.2.1
    rw [hlost.1] at hsome
    exact nomatch hsome
  · have hfit := hgood.fit_adopt hother (hzero hdiffers)
    refine commitState_achieves hsizes hfit ?_
    rintro disk rfl
    exact ⟨.adopt (hzero hdiffers) hother hfit.valid, ⟨hintent, hother⟩, rfl⟩
  · exact achieves_pure fun _ h => h ▸ ⟨⟨hintent, hother⟩, (not_not.mp hdiffers).symm⟩

theorem catchUp_achieves : Achieves (Transition files call)
      (fun disk => Good files modest disk ∧ Matches files intent disk) (catchUp files intent)
      fun _ disk => Matches files intent disk ∧ disk.state.lastIntent = some intent ∧
        disk.state.currentSnapshotDigest = disk.observed files := by
  refine achieves_read_bind fun disk ⟨hgood, hmatches⟩ => ?_
  split_ifs with hlast hfence
  · refine achieves_pure fun _ h => h ▸ ⟨hmatches, hlast, ?_⟩
    exact hgood.current_of_last hmatches.stored hlast
  · refine ⟨recordIntent_ensures.weaken (fun _ h => h ▸ ⟨hmatches, hfence, hlast⟩) fun _ _ h => h, ?_⟩
    obtain ⟨hmax, -⟩ := hgood.counters intent hmatches.stored
    obtain ⟨henvelope, hmodest⟩ := hgood.stored _ hmatches.stored
    obtain ⟨state, hrecords⟩ : ∃ state, disk.state.Records intent state :=
      hgood.fit.valid.exists_records
    have hvalid := hrecords.valid hgood.fit.valid henvelope hmax hfence
    have hfit := hgood.fit.records hsizes hvalid hrecords hmax hmodest
    rintro other rfl
    rw [recordIntent, read_bind_apply, record_eq_ok.mpr ⟨hmax, hrecords⟩,
      lift_ok_bind_apply, commitState_apply hsizes hfit]
    exact ⟨(), rfl⟩
  · exact absurd (hgood.fences_of_ne hmatches hlast) hfence

theorem migrate_achieves {intent : LegacyPublicationIntent D} : Achieves (Transition files call)
      (fun disk => Good files modest disk ∧ disk.intent = some (.legacy intent))
      (migrate files intent) fun _ disk => Other files disk ∧
        disk.state.currentSnapshotDigest = disk.observed files := by
  refine achieves_read_bind fun disk ⟨hgood, hintent⟩ => ?_
  have hother : Other files disk := fun other h => (nomatch hintent.symm.trans h)
  have hadopted : (disk.state.adoptLegacy intent).currentSnapshotDigest = some intent.digest := by
    unfold adoptLegacy
    split <;> rfl
  have hzero := hgood.revision_of_legacy hintent
  dsimp only
  split_ifs with hpos hobserved hsame
  · exact absurd hzero hpos.ne'
  · have hfit := hgood.fit_adoptLegacy hintent hzero hobserved
    refine commitState_achieves hsizes hfit ?_
    rintro disk rfl
    exact ⟨.adoptLegacy hintent hobserved hfit.valid, hother, hadopted.trans hobserved.symm⟩
  · rw [not_not.mp hsame] at hadopted
    exact achieves_pure fun _ h => h ▸ ⟨hother, hadopted.trans hobserved.symm⟩
  · exact (adoptCarrier_achieves hsizes (some (.legacy intent))).weaken
      (fun _ h => h ▸ ⟨hgood, hintent, hother⟩) fun _ _ h => ⟨h.1.2, h.2⟩

/-- **Reconciling** a good store does not fail, and leaves it without an intent, with the carrier
recorded. -/
theorem reconcileSnapshotLocked_achieves :
    Achieves (Transition files call) (Good files modest) (reconcileSnapshotLocked files)
      fun _ disk => disk.intent = none ∧
        disk.state.currentSnapshotDigest = disk.observed files := by
  have hread : Achieves (Transition files call) (Good files modest) readPublicationIntent
      fun stored disk => Good files modest disk ∧ stored = disk.intent :=
    ⟨readPublicationIntent_ensures,
      fun disk h => ⟨disk.intent, by rw [readPublicationIntent_apply h.envelope]⟩⟩
  have hclear : Achieves (Transition files call) _ clearPublicationIntent _ :=
    ⟨clearPublicationIntent_ensures, returns_write⟩
  refine achieves_bind hread fun stored => ?_
  cases stored with
  | none =>
    refine (adoptCarrier_achieves hsizes none).weaken (fun disk h => ?_) fun _ _ h => ⟨h.1.1, h.2⟩
    exact ⟨h.1, h.2.symm, fun other hother => nomatch h.2.trans hother⟩
  | some stored =>
    cases stored with
    | current intent =>
      refine achieves_read_bind fun disk ⟨hgood, hintent⟩ => ?_
      split_ifs with hobserved
      · refine achieves_bind ((catchUp_achieves hsizes).weaken
          (fun _ h => h ▸ ⟨hgood, hintent.symm, hobserved⟩) fun _ _ h => h) fun _ => ?_
        refine hclear.weaken (fun other h => ⟨h.2.2, fun stored hstored _ => ?_⟩) fun _ _ h => h
        cases h.1.stored.symm.trans hstored
        exact h.2.1
      · have hother : Other files disk := fun stored hstored => by
          cases hintent.trans hstored
          exact hobserved
        refine achieves_bind ((adoptCarrier_achieves hsizes (some (.current intent))).weaken
          (fun _ h => h ▸ ⟨hgood, hintent.symm, hother⟩) fun _ _ h => h) fun _ => ?_
        refine hclear.weaken (fun other h => ⟨h.2, fun stored hstored hsame => ?_⟩) fun _ _ h => h
        exact absurd hsame (h.1.2 stored hstored)
    | legacy intent =>
      refine achieves_bind ((migrate_achieves hsizes).weaken (fun _ h => ⟨h.1, h.2.symm⟩)
        fun _ _ h => h) fun _ => ?_
      refine hclear.weaken (fun disk h => ⟨h.2, fun other hother hobserved => ?_⟩) fun _ _ h => h
      exact absurd hobserved (h.1 other hother)

end

/-- **The calls make no other writes.**  Starting a generation apart, each durable write of a call in
a good store is one of the transitions. -/
theorem Call.transitions [DecidableEq D] (hsizes : Sizes files modest)
    (hcall : call ≠ .advanceGeneration) :
    Ensures (Transition files call) (Good files modest) (call.run files) fun _ _ => True := by
  have hreload : Ensures (Transition files call) (Good files modest) reload _ :=
    reload_achieves.ensures
  have hreconcile : Ensures (Transition files call) (Good files modest)
      (reconcileSnapshotLocked files) _ := (reconcileSnapshotLocked_achieves hsizes).ensures
  cases call with
  | commitProposal fence publication =>
    refine ensures_seq_pure ?_
    refine ensures_bind hreload fun _ => ensures_bind hreconcile fun _ => ?_
    exact ensures_seq_pure (commitProposalLocked_ensures rfl)
  | publish publication =>
    refine ensures_seq_pure ?_
    refine ensures_bind hreload fun _ => ensures_bind hreconcile fun _ => ?_
    refine ensures_read_bind fun disk hdisk => ?_
    refine ensures_bind ((commitProposalLocked_ensures rfl).weaken (fun _ h => h ▸ hdisk)
      fun _ _ h => h) fun answer => ?_
    cases answer.2 with
    | none => exact ensures_fail
    | some outcome => exact ensures_read_bind fun _ _ => ensures_pure fun _ _ => trivial
  | reconcileSnapshot =>
    refine ensures_seq_pure ?_
    refine ensures_bind hreload fun _ => ensures_bind hreconcile fun _ => ?_
    exact ensures_read_bind fun _ _ => ensures_pure fun _ _ => trivial
  | setDeliverable deliverable =>
    refine ensures_seq_pure ?_
    refine ensures_bind reload_ensures fun state => ?_
    split
    · refine ensures_bind (M := fun _ _ => True) ?_ fun _ => ?_
      · refine commitState_ensures fun hvalid disk hdisk => ⟨?_, trivial⟩
        obtain ⟨-, rfl⟩ := hdisk
        exact .deliver hvalid
      · exact ensures_read_bind fun _ _ => ensures_pure fun _ _ => trivial
    · exact ensures_read_bind fun _ _ => ensures_pure fun _ _ => trivial
  | acknowledgeDelivery digest =>
    refine ensures_seq_pure ?_
    refine ensures_bind reload_ensures fun state => ?_
    split_ifs with hpending
    · refine ensures_seq_pure ?_
      refine commitState_ensures fun hvalid disk hdisk => ⟨?_, trivial⟩
      obtain ⟨-, rfl⟩ := hdisk
      exact .acknowledge hpending.1 hpending.2 hvalid
    · exact ensures_pure fun _ _ => trivial
  | advanceGeneration => exact absurd rfl hcall
  | reopen => exact ensures_bind hreload fun _ => ensures_pure fun _ _ => trivial

end SmallTalk.Resources
