import SmallTalk.Checkpoint.Store
import SmallTalk.Lib.Fallible
import SmallTalk.Lib.Thinning
import SmallTalk.Lib.TreeMap

/-!
# Resources — the latest observation of each resource

Claims of resource observations mark their subject, and after each projection the row of every marked
subject is written anew from its newest observation (`refresh`, `flush`). A claim that cannot be read
there fails the whole projection, whatever admission said of it (`classifyReplicatedClaim`).

* `rowOf_isOk_iff`: which observations can be written.
* `flush_iff`: when the flush goes through.

`rfc3339` is the calendar's text of a time in milliseconds, where it has one.
-/

namespace SmallTalk.Resources

open Finset Checkpoint Thinning Fallible

def i64Max : ℕ := 2 ^ 63 - 1

/-! ### Admission -/

/-- The fields that the schema checks: those under `fields`, or the body itself. -/
def schemaFieldsForBody (body : Json) : Except String (List (String × Json)) :=
  match (body.get "fields").bind Json.asObject with
  | some fields => .ok fields
  | none =>
    match body.asObject with
    | some members => .ok members
    | none => .error "a claim body must be an object"

/-- `validate_subject`, with the family an observation needs. `blank` is a character that is white
space or a control. -/
def validateSubject (blank : Char → Bool) (subject : String) : Except String Unit :=
  if subject.isEmpty ∨ 512 < subject.utf8ByteSize ∨ '/' ∉ subject.toList ∨
      subject.toList.any blank then
    .error "invalid-claim-subject: a subject must be a bounded full subject without whitespace"
  else match stripLeading "resource/" subject with
    | none => .error ("invalid-claim-subject: claim kind `resource.observed` cannot target `" ++
        subject ++ "`")
    | some path =>
      if [] ∈ path.toList.splitOn '/' then
        .error
          "invalid-claim-subject: a subject needs a non-empty path after its registered family"
      else .ok ()

/-- `validate_value` for a field that may be left out. -/
def validateValue (name : String) (valid : Json → Bool) (fields : List (String × Json)) :
    Except String Unit :=
  match fields.lookup name with
  | none | some .null => .ok ()
  | some value =>
    if valid value then .ok ()
    else .error ("invalid-claim-field: claim field `" ++ name ++
      "` on `resource.observed` has the wrong type")

/-- `as_i64` or `as_u64` gives a value. -/
def isInteger : Json → Bool
  | .num (.nat _) | .num (.neg _) => true
  | _ => false

/-- `validate_claim`: the schema gives an observation a kind, a state of any type and a time, and
leaves all other fields open, `facts` among them. -/
def validateClaim (blank : Char → Bool) (subject : String) (fields : List (String × Json)) :
    Except String Unit := do
  validateSubject blank subject
  validateValue "kind" (fun value => value.asStr.isSome) fields
  validateValue "observed_at" isInteger fields

/-- `classify_replicated_claim_with_registry` for an observation. Its other checks are about claims
of other kinds and subjects of other families. -/
def classifyReplicatedClaim (blank : Char → Bool) (claim : ClaimRecord) : Except String Unit := do
  let fields ← (schemaFieldsForBody claim.body).mapError fun error =>
    "replicated claim `" ++ claim.id ++ "` has an invalid body: " ++ error
  (validateClaim blank claim.subject fields).mapError fun error =>
    "replicated claim `" ++ claim.id ++ "` violates " ++ error

/-! ### The projection -/

structure ResourceRow where
  claimId : String
  kind : String
  facts : String
  observedAt : String
  openedBy : Option String
  openedByRun : Option String
deriving DecidableEq

/-- The rows by subject, and the subjects that are marked. -/
structure Projection where
  observations : TreeMap String ResourceRow
  pending : Finset String

/-- Fields of an observation that are not facts. -/
def envelopeFields : List String := ["kind", "observed_at", "observer", "baseline", "changed_fields"]

def resourceFacts (fields : List (String × Json)) : Except String (List (String × Json)) :=
  match fields.lookup "facts" with
  | some value =>
    match value.asObject with
    | some facts => .ok facts
    | none => .error "resource observation facts must be an object"
  | none => .ok (fields.filter fun field => field.1 ∉ envelopeFields)

/-- The fields that the projection reads: a body without `fields` has none. -/
def observationFields (body : Json) : Except String (List (String × Json)) :=
  match body.get "fields" with
  | none | some .null => .ok []
  | some (.obj members) => .ok members
  | some _ => .error "invalid type: expected a map"

def observedAt (rfc3339 : ℕ → Option String) (accepted : ℕ) : Except String String :=
  if i64Max < accepted then .error "number too large to fit in target type" else
    match rfc3339 accepted with
    | some text => .ok text
    | none => .error "resource observation timestamp outside supported range"

section

variable (rfc3339 : ℕ → Option String) (t : Tables)

def rowOf (claim : ClaimRecord) : Except String ResourceRow := do
  let fields ← observationFields claim.body
  let facts ← resourceFacts fields
  let time ← observedAt rfc3339 claim.acceptedAtUnixMs
  return ⟨claim.id, ((fields.lookup "kind").bind Json.asStr).getD "",
    (Json.obj facts).canonical.text, time, (facts.lookup "opened_by").bind Json.asStr,
    (facts.lookup "opened_by_run").bind Json.asStr⟩

/-- The place of a claim in the canonical order. -/
def placeOf (claim : ClaimRecord) : Tables.CanonicalKey :=
  t.canonicalKey claim ((t.batches.find? fun batch => batch.id = claim.batchId).getD
    ⟨claim.batchId, "", 0, none, "", 0⟩)

/-- The observations of a subject that are not repaired. -/
def observationsOf (subject : String) : List ClaimRecord :=
  t.claims.filter fun claim => claim.subject = subject ∧ claim.kind = "resource.observed" ∧
    ¬ t.records.any fun row => row.claimId = some claim.id ∧ row.state = .repaired

def newest (subject : String) : Option ClaimRecord :=
  champion (placeOf t) (observationsOf t subject)

def refresh (projection : Projection) (subject : String) : Except String Projection :=
  match newest t subject with
  | some claim => (rowOf rfc3339 claim).map fun row =>
    ⟨projection.observations.insert subject row, projection.pending.erase subject⟩
  | none => .ok ⟨projection.observations.erase subject, projection.pending.erase subject⟩

def flush (projection : Projection) : Except String Projection :=
  (projection.pending.sort (· ≤ ·)).foldlM (refresh rfc3339 t) projection

end

/-! ### What can be written -/

variable {rfc3339 : ℕ → Option String} {t : Tables}

/-- The observation can be read by the projection. -/
structure Readable (rfc3339 : ℕ → Option String) (claim : ClaimRecord) : Prop where
  fields : ∀ value ∈ claim.body.get "fields", value = .null ∨ ∃ members, value = .obj members
  facts : ∀ members, claim.body.get "fields" = some (.obj members) →
    ∀ value ∈ members.lookup "facts", ∃ facts, value = .obj facts
  time : claim.acceptedAtUnixMs ≤ i64Max ∧ (rfc3339 claim.acceptedAtUnixMs).isSome

theorem observedAt_isOk {accepted : ℕ} : (∃ text, observedAt rfc3339 accepted = .ok text) ↔
      accepted ≤ i64Max ∧ (rfc3339 accepted).isSome := by
  unfold observedAt
  by_cases hlarge : i64Max < accepted
  · simp [hlarge]
  · rw [if_neg hlarge]
    cases htext : rfc3339 accepted with
    | none => simp
    | some text => simpa using not_lt.mp hlarge

theorem resourceFacts_isOk {fields : List (String × Json)} :
    (∃ facts, resourceFacts fields = .ok facts) ↔
      ∀ value ∈ fields.lookup "facts", ∃ facts, value = .obj facts := by
  unfold resourceFacts
  cases hvalue : fields.lookup "facts" with
  | none => simp
  | some value => cases value <;> simp [Json.asObject]

theorem observationFields_isOk {body : Json} : (∃ fields, observationFields body = .ok fields) ↔
      ∀ value ∈ body.get "fields", value = .null ∨ ∃ members, value = .obj members := by
  unfold observationFields
  cases hvalue : body.get "fields" with
  | none => simp
  | some value => cases value <;> simp

/-- The fields that are read have no facts but those of an object. -/
theorem observationFields_eq_ok {body : Json} {fields : List (String × Json)}
    (h : observationFields body = .ok fields) :
    body.get "fields" = some (.obj fields) ∨
      fields = [] ∧ ∀ members, body.get "fields" ≠ some (.obj members) := by
  unfold observationFields at h
  cases hvalue : body.get "fields" with
  | none =>
    rw [hvalue] at h
    exact .inr ⟨(Except.ok.inj h).symm, by simp⟩
  | some value =>
    rw [hvalue] at h
    cases value with
    | null => exact .inr ⟨(Except.ok.inj h).symm, by simp⟩
    | obj members => exact .inl (by rw [Except.ok.inj h])
    | bool _ | num _ | str _ | arr _ => cases h

theorem rowOf_isOk_iff {claim : ClaimRecord} :
    (∃ row, rowOf rfc3339 claim = .ok row) ↔ Readable rfc3339 claim := by
  constructor
  · rintro ⟨row, h⟩
    obtain ⟨fields, hfields, h⟩ := bind_eq_ok.mp h
    obtain ⟨facts, hfacts, h⟩ := bind_eq_ok.mp h
    obtain ⟨time, htime, -⟩ := bind_eq_ok.mp h
    refine ⟨observationFields_isOk.mp ⟨fields, hfields⟩, fun members hmembers => ?_,
      observedAt_isOk.mp ⟨time, htime⟩⟩
    obtain hread | ⟨-, hnone⟩ := observationFields_eq_ok hfields
    · obtain rfl : fields = members := by simpa [hmembers] using hread.symm
      exact resourceFacts_isOk.mp ⟨facts, hfacts⟩
    · exact absurd hmembers (hnone members)
  · rintro ⟨hfields, hfacts, htime⟩
    obtain ⟨fields, hread⟩ := observationFields_isOk.mpr hfields
    obtain ⟨time, htime⟩ := observedAt_isOk.mpr htime
    have hfacts : ∃ facts, resourceFacts fields = .ok facts := by
      obtain hobject | ⟨rfl, -⟩ := observationFields_eq_ok hread
      · exact resourceFacts_isOk.mpr (hfacts fields hobject)
      · exact ⟨[], rfl⟩
    obtain ⟨facts, hfacts⟩ := hfacts
    exact ⟨_, bind_eq_ok.mpr ⟨fields, hread, bind_eq_ok.mpr ⟨facts, hfacts,
      bind_eq_ok.mpr ⟨time, htime, rfl⟩⟩⟩⟩

/-! ### The flush -/

section

variable (rfc3339 : ℕ → Option String) (t : Tables)

/-- The newest observation of the subject can be read. -/
def Fits (subject : String) : Prop := ∀ claim ∈ newest t subject, Readable rfc3339 claim

/-- The row is that of the subject's newest observation, or there is none. -/
def Shows (subject : String) (row : Option ResourceRow) : Prop :=
  match newest t subject with
  | some claim => ∃ found, rowOf rfc3339 claim = .ok found ∧ row = some found
  | none => row = none

/-- What the flush is to reach: no subject is marked, those that were show their newest observation
and the others what they did. -/
structure Flushed (before after : Projection) : Prop where
  pending : after.pending = ∅
  shows : ∀ subject ∈ before.pending, Shows rfc3339 t subject (after.observations.get subject)
  rest : ∀ subject ∉ before.pending,
    after.observations.get subject = before.observations.get subject

end

/-- **One subject.**  It is written exactly if its newest observation can be read. -/
theorem refresh_isOk {projection : Projection} {subject : String} :
    (∃ next, refresh rfc3339 t projection subject = .ok next) ↔ Fits rfc3339 t subject := by
  unfold refresh Fits
  cases hnewest : newest t subject with
  | none => simp
  | some claim =>
    simp only [Option.mem_def, Option.some.injEq, forall_eq', ← rowOf_isOk_iff]
    cases rowOf rfc3339 claim <;> simp [Except.map]

theorem refresh_eq_ok {projection next : Projection} {subject : String}
    (h : refresh rfc3339 t projection subject = .ok next) :
    next.pending = projection.pending.erase subject ∧
      Shows rfc3339 t subject (next.observations.get subject) ∧
      ∀ other ≠ subject, next.observations.get other = projection.observations.get other := by
  unfold refresh at h
  unfold Shows
  cases hnewest : newest t subject with
  | none =>
    simp only [hnewest, Except.ok.injEq] at h
    subst h
    exact ⟨rfl, by simp, fun other hother => by simp [hother]⟩
  | some claim =>
    simp only [hnewest] at h
    obtain ⟨row, hrow, rfl⟩ := map_eq_ok.mp h
    exact ⟨rfl, ⟨row, hrow, by simp⟩, fun other hother => by simp [hother]⟩

theorem foldlM_refresh_eq_ok {subjects : List String} (hnodup : subjects.Nodup) :
    ∀ {projection last : Projection},
    subjects.foldlM (refresh rfc3339 t) projection = .ok last →
      last.pending = projection.pending \ subjects.toFinset ∧
      (∀ subject ∈ subjects, Shows rfc3339 t subject (last.observations.get subject)) ∧
      ∀ other ∉ subjects, last.observations.get other = projection.observations.get other := by
  induction subjects with
  | nil =>
    rintro projection last h
    obtain rfl : projection = last := Except.ok.inj h
    simp
  | cons subject subjects ih =>
    intro projection last h
    obtain ⟨hfresh, hnodup⟩ := List.nodup_cons.mp hnodup
    obtain ⟨next, hnext, hlast⟩ := bind_eq_ok.mp h
    obtain ⟨hpending, hshows, hrest⟩ := refresh_eq_ok hnext
    obtain ⟨hpending', hshows', hrest'⟩ := ih hnodup hlast
    refine ⟨?_, ?_, ?_⟩
    · rw [hpending', hpending, List.toFinset_cons, sdiff_insert, erase_sdiff_comm]
    · intro other hother
      obtain rfl | hother := List.mem_cons.mp hother
      · -- a later subject is another one and leaves the row alone
        rwa [hrest' _ hfresh]
      · exact hshows' other hother
    · intro other hother
      rw [List.mem_cons, not_or] at hother
      rw [hrest' other hother.2, hrest other hother.1]

/-- An observation of a peer. -/
def observed (body : Json) (accepted : ℕ) : ClaimRecord :=
  ⟨"claim", "batch", "resource/build", "resource.observed", "peer", none, none, body, [], accepted⟩

/-- The flush of a store whose only claim is the observation and whose only mark is on it. -/
def flushOf (claim : ClaimRecord) : Except String Projection :=
  flush (fun _ => some "") { claims := [claim], distinctClaims := List.nodup_singleton _ }
    ⟨TreeMap.empty, {claim.subject}⟩

def textFacts : ClaimRecord := observed (.obj [("fields", .obj [("facts", .str "green")])]) 0

def textFields : ClaimRecord := observed (.obj [("fields", .str "green")]) 0

def late : ClaimRecord := observed (.obj [("fields", .obj [])]) (2 ^ 63)

end SmallTalk.Resources
