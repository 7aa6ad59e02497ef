import SmallTalk.Resources.CatchUp

/-!
# Resources — valid catch-up states and recorded intents

What `validate` accepts, and what recording an intent leaves (`CatchUpState.Records`).
-/

namespace SmallTalk.Resources

open PublicationIntent Fallible

variable {D : Type}

/-! ### What validation says -/

@[simp] theorem require_eq_ok {holds : Bool} {reason : String} {u : Unit} :
    require holds reason = .ok u ↔ holds = true := by
  cases holds <;> simp [require]

@[simp] theorem successor_eq_ok {n m : ℕ} {reason : String} :
    successor n reason = .ok m ↔ n < u64Max ∧ m = n + 1 := by
  unfold successor
  split <;> simp_all [eq_comm]

theorem bind_unit_eq_ok {α : Type} {x : Checked Unit} {f : Unit → Checked α} {a : α} :
    (x >>= f) = .ok a ↔ x = .ok () ∧ f () = .ok a := by
  rw [bind_eq_ok]
  exact ⟨fun ⟨_, hx, hf⟩ => ⟨hx, hf⟩, fun ⟨hx, hf⟩ => ⟨(), hx, hf⟩⟩

/-- Topics and facts that may be stored. -/
structure Envelope (topics : List String) (facts : List ResourceFact) : Prop where
  topics : "" ∉ topics ∧ topics.Nodup
  facts : facts.length ≤ maxFacts ∧ facts.all ResourceFact.valid = true

theorem envelope_iff {topics : List String} {facts : List ResourceFact} :
    (validatePersistedTopics topics >>= fun _ => validatePersistedFacts facts) = .ok () ↔
      Envelope topics facts := by
  simp only [bind_unit_eq_ok, validatePersistedTopics, validatePersistedFacts, require_eq_ok,
    decide_eq_true_eq]
  exact ⟨fun h => ⟨h.1, h.2⟩, fun h => ⟨h.topics, h.facts⟩⟩

theorem envelope_nil : Envelope [] [] := ⟨by simp, by simp⟩

namespace PublicationIntent

variable {intent : PublicationIntent D}

theorem validate_eq_ok :
    intent.validate = .ok () ↔ Envelope intent.selectedTopics intent.facts :=
  envelope_iff

theorem commit_eq_ok {commit : PublicationCommit D} :
    intent.commit = .ok commit ↔ intent.expectedRevision < u64Max ∧
      commit = ⟨intent, intent.generation, intent.expectedRevision + 1, intent.digest⟩ := by
  simp only [PublicationIntent.commit, bind_eq_ok, successor_eq_ok, pure, Except.pure,
    Except.ok.injEq]
  exact ⟨fun ⟨_, ⟨h, hm⟩, hc⟩ => ⟨h, by rw [← hc, hm]⟩, fun ⟨h, hc⟩ => ⟨_, ⟨h, rfl⟩, hc.symm⟩⟩

theorem commit_bind_eq_ok {α : Type} {f : PublicationCommit D → Checked α} {a : α} :
    (intent.commit >>= f) = .ok a ↔ intent.expectedRevision < u64Max ∧
      f ⟨intent, intent.generation, intent.expectedRevision + 1, intent.digest⟩ = .ok a := by
  simp only [bind_eq_ok, commit_eq_ok]
  exact ⟨fun ⟨_, ⟨h, hc⟩, hf⟩ => ⟨h, hc ▸ hf⟩, fun ⟨h, hf⟩ => ⟨_, ⟨h, rfl⟩, hf⟩⟩

end PublicationIntent

theorem StoredPublicationIntent.validate_eq_ok {stored : StoredPublicationIntent D} :
    stored.validate = .ok () ↔ Envelope stored.selectedTopics stored.facts :=
  envelope_iff

namespace CatchUpState

variable {state next : CatchUpState D} {intent : PublicationIntent D}

/-- The last intent is one that the state may have recorded. -/
structure Recorded (state : CatchUpState D) (intent : PublicationIntent D) : Prop where
  envelope : Envelope intent.selectedTopics intent.facts
  generation : intent.generation ≤ state.generation
  exhausted : intent.expectedRevision < u64Max
  revision : intent.expectedRevision < state.revision
  digest : intent.expectedRevision + 1 = state.revision →
    state.currentSnapshotDigest = some intent.digest

/-- What `validate` accepts. -/
structure Valid (state : CatchUpState D) : Prop where
  current : state.pendingRelevantChange = true → state.currentSnapshotDigest.isSome = true
  fromLast : state.pendingFromLastIntent = true → state.pendingRelevantChange = true ∧
    ∃ intent, state.lastIntent = some intent ∧ intent.selectedTopics ≠ []
  kept : state.pendingFromLastIntent = false →
    (state.pendingRelevantChange = true ↔ state.pendingSelectedTopics ≠ [])
  bare : state.pendingFromLastIntent = true ∨ state.pendingRelevantChange = false →
    state.pendingSelectedTopics = [] ∧ state.pendingFacts = []
  envelope : Envelope state.selectedTopics state.facts
  last : ∀ intent, state.lastIntent = some intent → state.Recorded intent

theorem validateLastIntent_eq_ok [DecidableEq D] :
    state.validateLastIntent state.lastIntent = .ok () ↔
      ∀ intent, state.lastIntent = some intent → state.Recorded intent := by
  cases state.lastIntent with
  | none => simp [validateLastIntent]
  | some intent =>
    simp only [validateLastIntent, bind_unit_eq_ok, validate_eq_ok,
      commit_bind_eq_ok, require_eq_ok, decide_eq_true_eq, Option.some.injEq,
      forall_eq']
    constructor
    · rintro ⟨henvelope, hmax, hgeneration, hrevision, hdigest⟩
      exact ⟨henvelope, hgeneration, hmax, hrevision, hdigest⟩
    · rintro ⟨henvelope, hgeneration, hmax, hrevision, hdigest⟩
      exact ⟨henvelope, hmax, hgeneration, hrevision, hdigest⟩

theorem validatePending_eq_ok : state.validatePending = .ok () ↔
      (state.pendingFromLastIntent = true → state.pendingRelevantChange = true ∧
        (state.pendingSelectedTopics = [] ∧ state.pendingFacts = []) ∧
        ∃ intent, state.lastIntent = some intent ∧ intent.selectedTopics ≠ []) ∧
      (state.pendingFromLastIntent = false →
        (state.pendingRelevantChange = true ↔ state.pendingSelectedTopics ≠ [])) := by
  unfold validatePending
  cases state.pendingFromLastIntent with
  | true =>
    simp [bind_unit_eq_ok, Option.any_eq_true]
  | false =>
    cases state.pendingRelevantChange <;> simp

theorem validate_eq_ok [DecidableEq D] : state.validate = .ok () ↔ state.Valid := by
  simp only [validate, bind_unit_eq_ok, validatePending_eq_ok, validateLastIntent_eq_ok,
    validatePersistedTopics, validatePersistedFacts, require_eq_ok, decide_eq_true_eq]
  constructor
  · rintro ⟨hcurrent, ⟨hfrom, hkept⟩, htopics, hfacts, hbare, hlast⟩
    refine ⟨hcurrent, fun h => ⟨(hfrom h).1, (hfrom h).2.2⟩, hkept, ?_, ⟨htopics, hfacts⟩, hlast⟩
    rintro (h | h)
    · exact (hfrom h).2.1
    · exact hbare.resolve_left (by simp [h])
  · rintro ⟨hcurrent, hfrom, hkept, hbare, henvelope, hlast⟩
    refine ⟨hcurrent, ⟨fun h => ⟨(hfrom h).1, hbare (.inl h), (hfrom h).2⟩, hkept⟩,
      henvelope.topics, henvelope.facts, ?_, hlast⟩
    cases hpending : state.pendingRelevantChange with
    | true => exact .inl rfl
    | false => exact .inr (hbare (.inr hpending))

/-! ### What a recorded intent leaves -/

/-- The state with the intent's snapshot as the current one. -/
def moved (state : CatchUpState D) (intent : PublicationIntent D) : CatchUpState D := { state with
  currentSnapshotDigest := some intent.digest
  revision := intent.expectedRevision + 1
  lastIntent := some intent }

/-- The ways in which an intent is recorded: it is relevant, the pending change is kept apart from
intents, or it is taken out of the previous one. -/
inductive Records (state : CatchUpState D) (intent : PublicationIntent D) : CatchUpState D → Prop
  | relevant (htopics : intent.selectedTopics ≠ []) : Records state intent
      { state.moved intent with
        pendingRelevantChange := true
        pendingFromLastIntent := true
        pendingSelectedTopics := []
        pendingFacts := [] }
  | silent (htopics : intent.selectedTopics = []) (hfrom : state.pendingFromLastIntent = false) :
      Records state intent (state.moved intent)
  | keeping (htopics : intent.selectedTopics = []) (hfrom : state.pendingFromLastIntent = true)
      (previous : PublicationIntent D) (hprevious : state.lastIntent = some previous) :
      Records state intent { state.moved intent with
        pendingSelectedTopics := previous.selectedTopics
        pendingFacts := previous.facts
        pendingFromLastIntent := false }

theorem record_eq_ok : state.record intent = .ok next ↔
      intent.expectedRevision < u64Max ∧ state.Records intent next := by
  simp only [record, commit_bind_eq_ok]
  refine and_congr_right fun _ => ⟨fun h => ?_, ?_⟩
  · by_cases htopics : intent.selectedTopics = []
    · cases hfrom : state.pendingFromLastIntent with
      | false =>
        simp only [retained, htopics, hfrom, Bool.false_eq_true, and_false, if_false, if_true] at h
        obtain rfl : state.moved intent = next := Except.ok.inj h
        exact .silent htopics hfrom
      | true =>
        cases hlast : state.lastIntent with
        | none => simp [retained, htopics, hfrom, hlast, bind, Except.bind] at h
        | some previous =>
          simp only [retained, htopics, hfrom, hlast, and_self, if_true] at h
          obtain rfl := Except.ok.inj h
          exact .keeping htopics hfrom previous hlast
    · simp only [retained, htopics, false_and, if_false] at h
      obtain rfl := Except.ok.inj h
      exact .relevant htopics
  · rintro (htopics | ⟨htopics, hfrom⟩ | ⟨htopics, hfrom, previous, hprevious⟩)
    · simp only [retained, htopics, false_and, if_false]
      rfl
    · simp only [retained, htopics, hfrom, Bool.false_eq_true, and_false, if_false, if_true]
      rfl
    · simp only [retained, htopics, hfrom, hprevious, and_self, if_true]
      rfl

/-- The intent was made in this state. -/
def Fences (state : CatchUpState D) (intent : PublicationIntent D) : Prop :=
  state.proposalFence = ⟨intent.generation, intent.expectedRevision, intent.priorDigest⟩

variable (h : state.Records intent next)

include h

theorem Records.current : next.currentSnapshotDigest = some intent.digest := by cases h <;> rfl

theorem Records.revision : next.revision = intent.expectedRevision + 1 := by cases h <;> rfl

theorem Records.generation : next.generation = state.generation := by cases h <;> rfl

theorem Records.lastIntent : next.lastIntent = some intent := by
  cases h <;> rfl

theorem Records.pending : next.pendingRelevantChange = true ↔
      state.pendingRelevantChange = true ∨ intent.selectedTopics ≠ [] := by
  cases h with
  | relevant htopics => simp [htopics]
  | silent htopics hfrom => simp [htopics, moved]
  | keeping htopics hfrom previous hprevious => simp [htopics, moved]

omit h in
/-- An intent that follows a valid state can be recorded. -/
theorem Valid.exists_records (hvalid : state.Valid) : ∃ next, state.Records intent next := by
  by_cases htopics : intent.selectedTopics = []
  · cases hfrom : state.pendingFromLastIntent with
    | false => exact ⟨_, .silent htopics hfrom⟩
    | true =>
      obtain ⟨-, previous, hprevious, -⟩ := hvalid.fromLast hfrom
      exact ⟨_, .keeping htopics hfrom previous hprevious⟩
  · exact ⟨_, .relevant htopics⟩

theorem Records.valid (hvalid : state.Valid)
    (henvelope : Envelope intent.selectedTopics intent.facts)
    (hmax : intent.expectedRevision < u64Max) (hfence : state.Fences intent) : next.Valid := by
  have hgeneration : intent.generation = state.generation :=
    (congrArg ProposalFence.generation hfence).symm
  have hlast : ∀ last, next.lastIntent = some last → next.Recorded last := by
    intro last hl
    obtain rfl := Option.some.inj (h.lastIntent.symm.trans hl)
    exact ⟨henvelope, by rw [h.generation, hgeneration], hmax, by rw [h.revision]; omega,
      fun _ => h.current⟩
  have hcurrent : next.pendingRelevantChange = true → next.currentSnapshotDigest.isSome = true :=
    fun _ => by rw [h.current]; rfl
  cases h with
  | relevant htopics =>
    refine ⟨hcurrent, fun _ => ⟨rfl, intent, rfl, htopics⟩, by simp, by simp, ?_, hlast⟩
    exact henvelope
  | silent htopics hfrom =>
    refine ⟨hcurrent, fun h => ?_, hvalid.kept, hvalid.bare, ?_, hlast⟩
    · exact absurd hfrom (by simp [moved] at h; simp [h])
    · have hold := hvalid.envelope
      simpa [selectedTopics, facts, moved, hfrom] using hold
  | keeping htopics hfrom previous hprevious =>
    obtain ⟨hpending, previous', hprevious', hrelevant⟩ := hvalid.fromLast hfrom
    obtain rfl := Option.some.inj (hprevious.symm.trans hprevious')
    refine ⟨hcurrent, by simp, fun _ => ?_, ?_, ?_, hlast⟩
    · simp [moved, hpending, hrelevant]
    · simp [moved, hpending]
    · have hold := hvalid.envelope
      simpa [selectedTopics, facts, hfrom, hprevious] using hold

end CatchUpState

end SmallTalk.Resources
