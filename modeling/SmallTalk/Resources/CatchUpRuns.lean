import Mathlib.Algebra.Order.Ring.Nat
import SmallTalk.Lib.Runs
import SmallTalk.Resources.CatchUpWrites

/-!
# Resources — the catch-up state over runs

A run is a list of calls, each possibly cut after some of its durable writes.

* `Good.recovers`: from a good store reconciling does what is asked of it.
* `kept_iff`: all of this holds over a run exactly if no new generation is cut short.
-/

namespace SmallTalk.Resources

open Option Nat Call Durable Fallible List Runs

variable {β D : Type} {files : Files β D} {modest : List String → List ResourceFact → Prop}
  {disk next : Disk β D} {call : Call β D}

/-! ### What the writes keep -/

/-- A relevant change that is to be delivered: it is pending, or its carrier is published and its
intent waits to be recorded. -/
def Outstanding (files : Files β D) (disk : Disk β D) : Prop :=
  disk.state.pendingRelevantChange = true ∨
    ∃ intent, Matches files intent disk ∧ disk.state.Fences intent ∧
      disk.state.lastIntent ≠ some intent ∧ intent.selectedTopics ≠ []

theorem Outstanding.pending (h : Outstanding files disk) (hnone : disk.intent = none) :
    disk.state.pendingRelevantChange = true := by
  obtain hpending | ⟨intent, hmatches, -⟩ := h
  · exact hpending
  · exact nomatch hnone.symm.trans hmatches.stored

namespace Transition

variable (h : Transition files call disk next)

include h

theorem pending (hack : ∀ digest, call = .acknowledgeDelivery digest →
      disk.state.currentSnapshotDigest ≠ some digest)
    (hpending : disk.state.pendingRelevantChange = true) :
    next.state.pendingRelevantChange = true := by
  cases h with
  | record _ _ _ _ hrecords => exact hrecords.pending.mpr (.inl hpending)
  | adoptLegacy =>
    dsimp only [CatchUpState.adoptLegacy]
    split
    · exact hpending
    · rfl
  | adopt | drop | announce | carry | deliver => exact hpending
  | acknowledge _ hcurrent => exact absurd hcurrent (hack _ rfl)

/-- **An outstanding change stays outstanding** until the current digest is acknowledged. -/
theorem outstanding (hack : ∀ digest, call = .acknowledgeDelivery digest →
      disk.state.currentSnapshotDigest ≠ some digest)
    (hout : Outstanding files disk) : Outstanding files next := by
  obtain hpending | ⟨intent, hmatches, hfence, hnew, htopics⟩ := hout
  · exact .inl (h.pending hack hpending)
  cases h with
  | record hintent hobserved hnew hfence hrecords hvalid =>
    cases hintent.symm.trans hmatches.stored
    exact .inl (hrecords.pending.mpr (.inr htopics))
  | adopt hrevision hother => exact absurd hmatches.observed (hother intent hmatches.stored)
  | adoptLegacy hintent | announce _ _ hintent => exact nomatch hintent.symm.trans hmatches.stored
  | drop hcurrent hdone => exact absurd (hdone intent hmatches.stored hmatches.observed) hnew
  | carry hcall hmade hintent =>
    cases hintent.symm.trans hmatches.stored
    refine .inr ⟨_, ⟨hintent, ?_⟩, hfence, hnew, htopics⟩
    exact congrArg (fun made => some made.digest) hmade
  | deliver => exact .inr ⟨intent, ⟨hmatches.stored, hmatches.observed⟩, hfence, hnew, htopics⟩
  | acknowledge _ hcurrent => exact absurd hcurrent (hack _ rfl)

/-- A write that changes the carrier leaves a relevant change outstanding. -/
theorem outstanding_of_carrier {publication : AcceptedPublication β}
    (hcall : call.publication = some publication)
    (htopics : publication.selectedTopics ≠ []) (hchange : next.observed files ≠ disk.observed files) :
    Outstanding files next := by
  cases h with
  | @carry _ _ other intent hother hmade hintent hnew =>
    cases hcall.symm.trans hother
    have hsame : intent.selectedTopics = publication.selectedTopics := hmade ▸ rfl
    refine .inr ⟨intent, ⟨hintent, ?_⟩, fences_of_made hmade, hnew, hsame ▸ htopics⟩
    exact congrArg (fun made => some made.digest) hmade
  | record | adopt | adoptLegacy | drop | announce | deliver | acknowledge =>
    exact absurd rfl hchange

theorem carrier (hcall : call.publication = none) : next.carrier = disk.carrier := by
  cases h with
  | carry hother => exact nomatch hcall.symm.trans hother
  | record | adopt | adoptLegacy | drop | announce | deliver | acknowledge => rfl

theorem counters :
    disk.state.generation = next.state.generation ∧ disk.state.revision ≤ next.state.revision := by
  cases h with
  | @record _ _ intent state hintent hobserved hnew hfence hrecords hvalid =>
    have hrevision : disk.state.revision = intent.expectedRevision :=
      congrArg ProposalFence.revision hfence
    refine ⟨hrecords.generation.symm, ?_⟩
    show disk.state.revision ≤ state.revision
    rw [hrecords.revision, hrevision]
    exact le_succ _
  | @adoptLegacy _ _ intent =>
    dsimp only [CatchUpState.adoptLegacy]
    split <;> exact ⟨rfl, le_rfl⟩
  | adopt | drop | announce | carry | deliver | acknowledge => exact ⟨rfl, le_rfl⟩

end Transition

/-! ### A new generation -/

/-- The state that a new generation starts with. -/
def CatchUpState.advanced (state : CatchUpState D) (observed : Option D) : CatchUpState D :=
  { state.withoutPending with
    generation := state.generation + 1
    revision := state.revision + 1
    currentSnapshotDigest := observed
    lastIntent := none }

/-- The counters leave room for a new generation. -/
def Room (disk : Disk β D) : Prop :=
  disk.state.generation < u64Max ∧ disk.state.revision < u64Max

/-- The store between the two writes of a new generation. -/
def advancing (files : Files β D) (disk : Disk β D) : Disk β D :=
  { disk with state := disk.state.advanced (disk.observed files) }

variable (hsizes : Sizes files modest)

include hsizes in
theorem fit_advanced {state : CatchUpState D} {observed : Option D}
    (hgeneration : state.generation < u64Max) (hrevision : state.revision < u64Max) :
    Fit modest (state.advanced observed) :=
  ⟨⟨nofun, nofun, fun _ => ⟨nofun, fun h => (h rfl).elim⟩,
    fun _ => ⟨rfl, rfl⟩, envelope_nil, nofun⟩, hgeneration, hrevision,
    nofun, hsizes.nothing⟩

include hsizes in
theorem good_cleared (hroom : Room disk) :
    Good files modest { advancing files disk with intent := none } :=
  ⟨fit_advanced hsizes hroom.1 hroom.2, nofun, nofun,
    .settled rfl rfl⟩

/-- The intent names the carrier, or comes from an earlier release. -/
def names [DecidableEq D] (files : Files β D) (disk : Disk β D) : StoredPublicationIntent D → Bool
  | .current intent => disk.observed files = some intent.digest
  | .legacy _ => true

include hsizes in
theorem good_advancing [DecidableEq D] (h : Good files modest disk) (hroom : Room disk)
    (hnames : ∀ stored, disk.intent = some stored → names files disk stored = false) :
    Good files modest (advancing files disk) := by
  refine ⟨fit_advanced hsizes hroom.1 hroom.2, h.stored, fun intent hintent => ?_, ?_⟩
  · obtain ⟨hmax, hgeneration⟩ := h.counters intent hintent
    exact ⟨hmax, le_succ_of_le hgeneration⟩
  · cases hintent : disk.intent with
    | none => exact .settled hintent rfl
    | some stored =>
      cases stored with
      | current intent =>
        exact .announced intent hintent (of_decide_eq_false (hnames _ hintent)) rfl
      | legacy intent => exact nomatch hnames _ hintent

section

variable [DecidableEq D]

include hsizes

/-- **The writes of a new generation**: the state, and the removal of the intent if there is one. -/
theorem advanceGeneration_stores (h : Good files modest disk) (hroom : Room disk) :
    (Call.advanceGeneration.run files disk).1 = advancing files disk ::
      if disk.intent.isSome then [{ advancing files disk with intent := none }] else [] := by
  have hcommit : commitState files (disk.state.advanced (disk.observed files)) disk =
      ([advancing files disk], .ok ()) :=
    commitState_apply hsizes (fit_advanced hsizes hroom.1 hroom.2)
  rw [Call.run, stores_bind_pure, advanceGeneration, bind_apply_ok (reload_apply h.fit.valid),
    last_nil, bind_apply_ok (readPublicationIntent_apply h.envelope), last_nil, successor,
    if_pos hroom.1, lift_ok_bind_apply, successor, if_pos hroom.2, lift_ok_bind_apply,
    read_bind_apply]
  cases disk.intent with
  | none =>
    simp only [isSome_none, Bool.false_eq_true, if_false, nil_append]
    exact congrArg Prod.fst (bind_apply_ok hcommit)
  | some stored =>
    simp only [isSome_some, if_true, nil_append]
    exact congrArg Prod.fst (bind_apply_ok hcommit)

omit hsizes in
theorem advanceGeneration_stores_of_full (h : Good files modest disk) (hroom : ¬ Room disk) :
    (Call.advanceGeneration.run files disk).1 = [] := by
  rw [Call.run, stores_bind_pure, advanceGeneration, bind_apply_ok (reload_apply h.fit.valid),
    last_nil, bind_apply_ok (readPublicationIntent_apply h.envelope), last_nil]
  simp only [nil_append]
  by_cases hgeneration : disk.state.generation < u64Max
  · have hrevision : ¬ disk.state.revision < u64Max := fun h => hroom ⟨hgeneration, h⟩
    rw [successor, if_pos hgeneration, lift_ok_bind_apply, successor, if_neg hrevision,
      lift_error_bind_apply]
  · rw [successor, if_neg hgeneration, lift_error_bind_apply]

/-- The store after reconciling. -/
def reconciled (files : Files β D) (disk : Disk β D) : Disk β D :=
  (reconcileSnapshot files).outcome disk

/-- What is asked of reconciling: it succeeds and leaves the carrier, the recorded digest is the
carrier's, and an outstanding change is pending. -/
structure Recovers (files : Files β D) (disk : Disk β D) : Prop where
  returns : ∃ pending, (reconcileSnapshot files disk).2 = .ok pending
  carrier : (reconciled files disk).carrier = disk.carrier
  current : (reconciled files disk).state.currentSnapshotDigest = disk.observed files
  pending : Outstanding files disk → (reconciled files disk).state.pendingRelevantChange = true

theorem reconcileSnapshot_achieves :
    Achieves (Transition files .reconcileSnapshot) (Good files modest) (reconcileSnapshot files)
      fun _ disk => disk.intent = none ∧
        disk.state.currentSnapshotDigest = disk.observed files := by
  refine achieves_bind reload_achieves fun _ => ?_
  refine achieves_bind (reconcileSnapshotLocked_achieves hsizes) fun _ => ?_
  exact achieves_read_bind fun _ hdisk => achieves_pure fun _ h => h ▸ hdisk

theorem Good.recovers (h : Good files modest disk) : Recovers files disk := by
  have hachieves := reconcileSnapshot_achieves hsizes
  obtain ⟨pending, hreturns⟩ := hachieves.returns disk h
  obtain ⟨hchain, hpost⟩ := hachieves.ensures disk h
  obtain ⟨hnone, hcurrent⟩ := hpost pending hreturns
  have houtcome : reconciled files disk =
      (reconcileSnapshot files).cut (reconcileSnapshot files disk).1.length disk := cut_length.symm
  have hcarrier : (reconciled files disk).carrier = disk.carrier := by
    rw [houtcome]
    exact invariant_take (I := fun now => now.carrier = disk.carrier)
      (fun _ _ htransition hsame => (htransition.carrier rfl).trans hsame) hchain rfl
  refine ⟨⟨pending, hreturns⟩, hcarrier, ?_, fun hout => ?_⟩
  · refine hcurrent.trans ?_
    exact congrArg (Option.map files.digestOf) hcarrier
  · have hkept : Outstanding files (reconciled files disk) := by
      rw [houtcome]
      exact invariant_take (fun _ _ htransition => htransition.outstanding (fun _ h => nomatch h))
        hchain hout
    exact hkept.pending hnone

/-- **A generation cut short.**  The intent still names the carrier but belongs to the generation
before, so reconciling fails. -/
theorem not_recovers_advancing {stored : StoredPublicationIntent D} (h : Good files modest disk)
    (hroom : Room disk) (hstored : disk.intent = some stored)
    (hnames : names files disk stored = true) : ¬ Recovers files (advancing files disk) := by
  rintro ⟨⟨pending, hreturns⟩, -⟩
  have hvalid : (advancing files disk).state.Valid := (fit_advanced hsizes hroom.1 hroom.2).valid
  have hread : readPublicationIntent (advancing files disk) = ([], .ok (some stored)) := by
    rw [← hstored]
    exact readPublicationIntent_apply h.envelope
  have hlocked : ∃ error,
      reconcileSnapshotLocked files (advancing files disk) = ([], .error error) := by
    rw [reconcileSnapshotLocked, bind_apply_ok hread, last_nil]
    cases stored with
    | current intent =>
      have hfence : ¬ (advancing files disk).state.proposalFence =
          ⟨intent.generation, intent.expectedRevision, intent.priorDigest⟩ := by
        intro hsame
        have hgeneration : disk.state.generation + 1 = intent.generation :=
          congrArg ProposalFence.generation hsame
        have := (h.counters intent hstored).2
        omega
      have hcatchUp : catchUp files intent (advancing files disk) = ([], .error (.invalidState
          "published intent does not follow the authoritative fence")) := by
        rw [catchUp, read_bind_apply, if_neg (by exact nofun), if_neg hfence]
        rfl
      dsimp only
      rw [read_bind_apply, if_pos (by exact of_decide_eq_true hnames), bind_apply_error hcatchUp]
      exact ⟨_, rfl⟩
    | legacy intent =>
      have hmigrate : migrate files intent (advancing files disk) = ([], .error (.invalidState
          "legacy publication intent conflicts with current authoritative state")) := by
        rw [migrate, read_bind_apply]
        exact congrFun (if_pos (succ_pos disk.state.revision)) _
      dsimp only
      rw [bind_apply_error hmigrate]
      exact ⟨_, rfl⟩
  obtain ⟨error, hlocked⟩ := hlocked
  rw [reconcileSnapshot, bind_apply_ok (reload_apply hvalid), last_nil,
    bind_apply_error hlocked] at hreturns
  exact nomatch hreturns

end

/-! ### Runs -/

/-- A call, and after how many durable writes it is cut. -/
structure Step (β D : Type) where
  call : Call β D
  cut : Option ℕ := none

def Call.startsGeneration : Call β D → Bool
  | advanceGeneration => true
  | _ => false

theorem Call.startsGeneration_iff : call.startsGeneration = true ↔ call = .advanceGeneration := by
  cases call <;> simp [startsGeneration]

/-- The files of a binding that has not been read yet: at most an intent of an earlier release. -/
structure Start (modest : List String → List ResourceFact → Prop) (disk : Disk β D) : Prop where
  state : disk.state = {}
  stored : ∀ stored, disk.intent = some stored → (∃ intent, stored = .legacy intent) ∧
    Envelope stored.selectedTopics stored.facts ∧ modest stored.selectedTopics stored.facts

include hsizes in
theorem Start.good (h : Start modest disk) : Good files modest disk := by
  have hstate := h.state
  refine ⟨?_, fun stored hstored => (h.stored stored hstored).2, fun intent hintent => ?_, ?_⟩
  · rw [hstate]
    exact ⟨⟨nofun, nofun, fun _ => by simp, fun _ => ⟨rfl, rfl⟩,
      envelope_nil, nofun⟩, zero_le _, zero_le _, nofun,
      hsizes.nothing⟩
  · obtain ⟨⟨legacy, hlegacy⟩, -⟩ := h.stored _ hintent
    exact nomatch hlegacy
  · cases hintent : disk.intent with
    | none => exact .unread hintent (by rw [hstate]) (by rw [hstate])
    | some stored =>
      obtain ⟨⟨legacy, rfl⟩, -⟩ := h.stored _ hintent
      exact .legacy legacy hintent (by rw [hstate]) fun h => by simp [hstate] at h

section

variable [DecidableEq D] {step : Step β D} {steps : List (Step β D)} {start : Disk β D}

def Step.after (files : Files β D) (disk : Disk β D) (step : Step β D) : Disk β D :=
  match step.cut with
  | none => (step.call.run files).outcome disk
  | some writes => (step.call.run files).cut writes disk

/-- A new generation is cut after its state is written and before the intent that names the carrier
is removed. -/
def CutShort (files : Files β D) (disk : Disk β D) (step : Step β D) : Prop :=
  step.call.startsGeneration = true ∧ step.cut = some 1 ∧ Room disk ∧
    disk.intent.any (names files disk) = true

instance decidableCutShort : DecidableRel (CutShort files : Disk β D → Step β D → Prop) :=
  fun disk step => inferInstanceAs (Decidable (step.call.startsGeneration = true ∧ step.cut = some 1 ∧
    (disk.state.generation < u64Max ∧ disk.state.revision < u64Max) ∧
    disk.intent.any (names files disk) = true))

theorem Step.exists_cut :
    ∃ writes, step.after files disk = (step.call.run files).cut writes disk := by
  unfold Step.after
  split
  · exact ⟨_, cut_length.symm⟩
  · exact ⟨_, rfl⟩

section

variable (hgood : Good files modest disk)

include hsizes hgood

/-- What an invariant of the transitions says of a step. -/
theorem Step.invariant {I : Disk β D → Prop} (hcall : step.call.startsGeneration = false)
    (hstep : ∀ now next, Transition files step.call now next → I now → I next) (hI : I disk) :
    I (step.after files disk) := by
  obtain ⟨writes, hafter⟩ : ∃ writes, step.after files disk = _ := step.exists_cut
  rw [hafter]
  refine (transitions hsizes fun h => ?_).forall_cut hstep hgood hI writes
  rw [h] at hcall
  exact nomatch hcall

/-- A new generation, wherever it is cut. -/
theorem Step.after_advance (hcall : step.call.startsGeneration = true) :
    step.after files disk = disk ∨ Room disk ∧
      (step.after files disk = { advancing files disk with intent := none } ∨
        step.after files disk = advancing files disk ∧ step.cut = some 1) := by
  have hrun := Call.startsGeneration_iff.mp hcall
  by_cases hroom : Room disk
  · have hstores := advanceGeneration_stores hsizes hgood hroom
    -- without an intent the first write is already the last
    have hlast : last (advancing files disk) (if disk.intent.isSome then
        [{ advancing files disk with intent := none }] else []) =
          { advancing files disk with intent := none } := by
      cases hintent : disk.intent with
      | none => simp [advancing, hintent]
      | some stored => rfl
    unfold Step.after
    rw [hrun]
    split
    · rw [outcome, hstores, last_cons, hlast]
      exact .inr ⟨hroom, .inl rfl⟩
    · rename_i writes hcut
      rw [Durable.cut, hstores]
      rcases writes with - | - | writes
      · exact .inl rfl
      · exact .inr ⟨hroom, .inr ⟨rfl, hcut⟩⟩
      · rw [take_succ_cons, take_of_length_le (by split <;> simp), last_cons, hlast]
        exact .inr ⟨hroom, .inl rfl⟩
  · left
    have hstores := advanceGeneration_stores_of_full hgood hroom
    unfold Step.after
    rw [hrun]
    split
    · rw [outcome, hstores, last_nil]
    · rw [Durable.cut, hstores, take_nil, last_nil]

/-- **A step** that is not cut short keeps the store good. -/
theorem Step.good
    (hmodest : ∀ publication, step.call.publication = some publication →
      modest publication.selectedTopics publication.facts)
    (hcut : ¬ CutShort files disk step) :
    Good files modest (step.after files disk) := by
  cases hcall : step.call.startsGeneration with
  | false =>
    exact step.invariant hsizes hgood hcall (fun _ _ h => h.good hsizes hmodest) hgood
  | true =>
    obtain hsame | ⟨hroom, hcleared | ⟨hadvancing, hone⟩⟩ := step.after_advance hsizes hgood hcall
    · rwa [hsame]
    · rw [hcleared]
      exact good_cleared hsizes hroom
    · rw [hadvancing]
      refine good_advancing hsizes hgood hroom fun stored hstored => ?_
      by_contra hnames
      rw [Bool.not_eq_false] at hnames
      exact hcut ⟨hcall, hone, hroom, by rw [hstored]; exact hnames⟩

theorem Step.not_recovers
    (hcut : CutShort files disk step) : ¬ Recovers files (step.after files disk) := by
  obtain ⟨hcall, hone, hroom, hany⟩ := hcut
  have hafter : step.after files disk = advancing files disk := by
    unfold Step.after
    rw [hone, startsGeneration_iff.mp hcall]
    dsimp only
    rw [Durable.cut, advanceGeneration_stores hsizes hgood hroom]
    rfl
  rw [hafter]
  cases hstored : disk.intent with
  | none => simp [hstored] at hany
  | some stored =>
    rw [hstored] at hany
    exact not_recovers_advancing hsizes hgood hroom hstored hany

/-- The step acknowledges the digest that is current, or starts a generation. -/
def Releases (files : Files β D) (disk : Disk β D) (step : Step β D) : Prop :=
  (∃ digest, step.call = .acknowledgeDelivery digest ∧
    disk.state.currentSnapshotDigest = some digest) ∨
  disk.state.generation < (step.after files disk).state.generation

omit hsizes in
/-- An acknowledgement of another digest writes nothing. -/
theorem Step.after_acknowledge {digest : D} (hcall : step.call = .acknowledgeDelivery digest)
    (hother : disk.state.currentSnapshotDigest ≠ some digest) : step.after files disk = disk := by
  have hstores : ((Call.acknowledgeDelivery digest).run files disk).1 = [] := by
    rw [Call.run, stores_bind_pure, acknowledgeDelivery,
      bind_apply_ok (reload_apply hgood.fit.valid), last_nil, if_neg fun h => hother h.2]
    rfl
  obtain ⟨writes, hafter⟩ : ∃ writes, step.after files disk = _ := step.exists_cut
  rw [hafter, hcall, Durable.cut, hstores, take_nil, last_nil]

theorem Step.counters : disk.state.generation ≤ (step.after files disk).state.generation ∧
      disk.state.revision ≤ (step.after files disk).state.revision := by
  cases hcall : step.call.startsGeneration with
  | false =>
    refine step.invariant (I := fun now => disk.state.generation ≤ now.state.generation ∧
      disk.state.revision ≤ now.state.revision) hsizes hgood hcall (fun now next h hnow => ?_)
      ⟨le_rfl, le_rfl⟩
    exact ⟨hnow.1.trans h.counters.1.le, hnow.2.trans h.counters.2⟩
  | true =>
    obtain hsame | ⟨hroom, hcleared | ⟨hadvancing, hone⟩⟩ := step.after_advance hsizes hgood hcall
    · rw [hsame]
      exact ⟨le_rfl, le_rfl⟩
    · rw [hcleared]
      exact ⟨le_succ _, le_succ _⟩
    · rw [hadvancing]
      exact ⟨le_succ _, le_succ _⟩

/-- **A step keeps an outstanding change** unless it releases it. -/
theorem Step.outstanding
    (hkeeps : ¬ Releases files disk step) (hout : Outstanding files disk) :
    Outstanding files (step.after files disk) := by
  cases hcall : step.call.startsGeneration with
  | false =>
    by_cases hack : ∃ digest, step.call = .acknowledgeDelivery digest
    · obtain ⟨digest, hack⟩ := hack
      rwa [step.after_acknowledge hgood hack fun hcurrent =>
        hkeeps (.inl ⟨digest, hack, hcurrent⟩)]
    · exact step.invariant hsizes hgood hcall (fun _ _ h => h.outstanding fun digest hdigest =>
        (hack ⟨digest, hdigest⟩).elim) hout
  | true =>
    obtain hsame | ⟨hroom, hcleared | ⟨hadvancing, hone⟩⟩ := step.after_advance hsizes hgood hcall
    · rwa [hsame]
    · refine absurd (.inr ?_) hkeeps
      rw [hcleared]
      exact lt_succ_self _
    · refine absurd (.inr ?_) hkeeps
      rw [hadvancing]
      exact lt_succ_self _

theorem Step.outstanding_of_carrier {publication : AcceptedPublication β}
    (hcall : step.call.publication = some publication) (htopics : publication.selectedTopics ≠ [])
    (hchange : (step.after files disk).observed files ≠ disk.observed files) :
    Outstanding files (step.after files disk) := by
  have hstarts : step.call.startsGeneration = false := by
    cases hstep : step.call <;> first | rfl | (rw [hstep] at hcall; exact nomatch hcall)
  have hack : ∀ digest, step.call ≠ .acknowledgeDelivery digest := by
    intro digest h
    rw [h] at hcall
    exact nomatch hcall
  refine (step.invariant (I := fun now => now.observed files = disk.observed files ∨
    Outstanding files now) hsizes hgood hstarts (fun now next h hnow => ?_)
    (.inl rfl)).resolve_left hchange
  obtain hsame | hout := hnow
  · by_cases hcarrier : next.observed files = now.observed files
    · exact .inl (hcarrier.trans hsame)
    · exact .inr (h.outstanding_of_carrier hcall htopics hcarrier)
  · exact .inr (h.outstanding (fun digest hdigest => absurd hdigest (hack digest)) hout)

end

/-- What a run is to keep: from every state reached, reconciling recovers; the counters do not
decrease; a relevant change is outstanding once its carrier is written, and stays so until it is
released. -/
structure Kept (files : Files β D) (start : Disk β D) (steps : List (Step β D)) : Prop where
  recovers : ∀ taken, taken <+: steps → Recovers files (taken.foldl (Step.after files) start)
  counters : ∀ taken step, taken ++ [step] <+: steps →
    let disk := taken.foldl (Step.after files) start
    disk.state.generation ≤ (step.after files disk).state.generation ∧
      disk.state.revision ≤ (step.after files disk).state.revision
  relevant : ∀ taken step publication, taken ++ [step] <+: steps →
    step.call.publication = some publication → publication.selectedTopics ≠ [] →
    let disk := taken.foldl (Step.after files) start
    (step.after files disk).observed files ≠ disk.observed files →
      Outstanding files (step.after files disk)
  pending : ∀ taken stretch, taken ++ stretch <+: steps →
    let disk := taken.foldl (Step.after files) start
    Outstanding files disk → Along (Step.after files) (fun disk step => ¬ Releases files disk step)
      disk stretch → Outstanding files (stretch.foldl (Step.after files) disk)

/-- **The catch-up state over crashes.**  A run keeps its recoveries, its counters and its relevant
changes exactly if no new generation in it is cut short. -/
theorem kept_iff (files : Files β D) (modest : List String → List ResourceFact → Prop)
    (hsizes : Sizes files modest) (start : Disk β D) (hstart : Start modest start)
    (steps : List (Step β D)) (hmodest : ∀ step ∈ steps, ∀ publication,
      step.call.publication = some publication →
        modest publication.selectedTopics publication.facts) :
    Kept files start steps ↔
      Along (Step.after files) (fun disk step => ¬ CutShort files disk step) start steps := by
  let Modest : Disk β D → Step β D → Prop := fun _ step => ∀ publication,
    step.call.publication = some publication → modest publication.selectedTopics publication.facts
  have hgoodStart := hstart.good hsizes
  have halong : Along (Step.after files) Modest start steps :=
    along_of_forall fun step hstep _ => hmodest step hstep
  have hrecovers := forall_prefix_iff_along_of_break
    (fun disk (hgood : Good files modest disk) => hgood.recovers hsizes)
    (fun disk step hstep hgood hcut => Step.good hsizes hgood hstep hcut)
    (fun disk step _ hgood hcut => Step.not_recovers hsizes hgood (not_not.mp hcut))
    halong hgoodStart
  refine ⟨fun h => hrecovers.mp h.recovers, fun hcut => ?_⟩
  have hboth := along_and.mpr ⟨halong, hcut⟩
  have hgood : ∀ taken, taken <+: steps →
      Good files modest (taken.foldl (Step.after files) start) := by
    rintro taken ⟨rest, rfl⟩
    exact (along_append.mp hboth).1.invariant
      (fun disk step hstep hdisk => Step.good hsizes hdisk hstep.1 hstep.2) hgoodStart
  refine ⟨hrecovers.mpr hcut, ?_, ?_, ?_⟩
  · intro taken step htaken
    exact Step.counters hsizes (hgood taken ((prefix_append _ _).trans htaken))
  · intro taken step publication htaken hcall htopics
    exact Step.outstanding_of_carrier hsizes (hgood taken ((prefix_append _ _).trans htaken)) hcall htopics
  · rintro taken stretch htaken disk hout hkeeps
    have hdisk := hgood taken ((prefix_append _ _).trans htaken)
    obtain ⟨rest, rfl⟩ := htaken
    have hstretch := (along_append.mp (along_append.mp hboth).1).2
    refine ((along_and.mpr ⟨hkeeps, hstretch⟩).invariant
      (I := fun now => Good files modest now ∧ Outstanding files now) ?_ ⟨hdisk, hout⟩).2
    rintro now step ⟨hkept, hstep, hwhole⟩ ⟨hnow, hnowOut⟩
    exact ⟨Step.good hsizes hnow hstep hwhole, Step.outstanding hsizes hnow hkept hnowOut⟩

end

/-- Snapshots that are their own digests, and files as long as the topics in them. -/
def plainFiles : Files ℕ ℕ where
  digestOf := id
  stateBytes state := (state.pendingSelectedTopics.map String.length).sum +
    ((state.lastIntent.map fun intent => intent.selectedTopics).getD [] |>.map String.length).sum
  intentBytes intent := (intent.selectedTopics.map String.length).sum

def short (topics : List String) (_ : List ResourceFact) : Prop :=
  (topics.map String.length).sum ≤ 1000

theorem plainFiles_sizes : Sizes plainFiles short := by
  refine ⟨zero_le _, fun state hfit => ?_⟩
  have hpending : (state.pendingSelectedTopics.map String.length).sum ≤ 1000 := hfit.pending
  cases hlast : state.lastIntent with
  | none =>
    simp only [plainFiles, hlast, map_none, getD_none, map_nil, sum_nil,
      maxCatchUpFileBytes]
    omega
  | some intent =>
    have hintent : (intent.selectedTopics.map String.length).sum ≤ 1000 := hfit.last intent hlast
    simp only [plainFiles, hlast, map_some, getD_some, maxCatchUpFileBytes]
    omega

def opened (bytes : ℕ) (topics : List String) : AcceptedPublication ℕ :=
  ⟨"binding", bytes, topics, []⟩

/-- A publication cut before its state is recovered; a new generation removes the intent of another
that was cut before its carrier, is itself cut, and the change that follows is acknowledged. -/
def recoveredRun : List (Step ℕ ℕ) :=
  [⟨.publish (opened 1 ["state"]), some 2⟩, ⟨.reconcileSnapshot, some 1⟩, ⟨.reopen, none⟩,
    ⟨.publish (opened 2 []), some 2⟩, ⟨.advanceGeneration, some 1⟩,
    ⟨.commitProposal ⟨1, 2, some 1⟩ (opened 3 ["state"]), none⟩, ⟨.setDeliverable true, none⟩,
    ⟨.acknowledgeDelivery 3, none⟩]

theorem recoveredRun_kept : Kept plainFiles {} recoveredRun :=
  (kept_iff plainFiles short plainFiles_sizes {} ⟨rfl, nofun⟩ recoveredRun
    (by simp [recoveredRun, publication, opened, short]; decide)).mpr (by decide +kernel)

/-- **No later reconciliation.**  A publication is cut before its state, and the new generation that
takes its place before it removes the intent. -/
theorem generation_cut_short :
    (reconcileSnapshot plainFiles ([⟨.publish (opened 1 ["state"]), some 2⟩,
      ⟨.advanceGeneration, some 1⟩].foldl (Step.after plainFiles) {})).2 =
        .error (.invalidState "published intent does not follow the authoritative fence") := by
  decide +kernel

end SmallTalk.Resources
