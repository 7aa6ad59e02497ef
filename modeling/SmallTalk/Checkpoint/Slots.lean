import SmallTalk.Checkpoint.UsageReads

/-!
# Checkpoint — what a slot tells of its claims

Two claims of one slot have the subject, the kind and the fields of the slot in common.

A slot goes by the texts of fields, and the readers of usage by their values: a number and its
digits have one text, and `null` has that of `"null"`. Claims that are `UsageTyped` leave no such
doubt, so the claims of their slot count for the same incarnation and the same series
(`spendsOn_of_slot`, `rollupKey_of_slot`).
-/

namespace SmallTalk.Checkpoint

open List Option

variable {claim other : ClaimRecord} {slot : Slot} {name : String}

theorem fieldText_of_fieldStr {name text : String} (h : fieldStr claim name = some text) :
    fieldText claim name = text := by
  obtain ⟨value, hvalue, htext⟩ := bind_eq_some_iff.mp h
  cases value with
  | str s => simpa [fieldText, hvalue, Json.asStr] using htext
  | null | bool | num | arr | obj => simp [Json.asStr] at htext

section

variable (h : slotOf claim = some slot)

include h

theorem slotOf_texts : ∃ rule extra, slot = toLex (rule, claim.subject :: claim.kind :: extra) := by
  unfold slotOf at h
  split at h
  case h_1 =>
    obtain ⟨_, -, h⟩ := bind_eq_some_iff.mp h
    exact ⟨_, _, (some.inj h).symm⟩
  all_goals
    first
    | exact ⟨_, _, (some.inj h).symm⟩
    | cases h
    | (split at h <;> first | exact ⟨_, _, (some.inj h).symm⟩ | cases h)

/-- The claims of a slot are of one subject and one kind. -/
theorem subject_kind_of_slot (h' : slotOf other = some slot) :
    other.subject = claim.subject ∧ other.kind = claim.kind := by
  obtain ⟨rule, extra, rfl⟩ := slotOf_texts h
  obtain ⟨rule', extra', heq⟩ := slotOf_texts h'
  have htexts := congrArg (fun slot : Slot => (ofLex slot).2) heq
  simp only [ofLex_toLex, cons.injEq] at htexts
  exact ⟨htexts.1.symm, htexts.2.1.symm⟩

theorem slotOf_harness (hkind : claim.kind = "harness.observed") :
    ∃ incarnation, fieldStr claim "incarnation_id" = some incarnation ∧
      slot = toLex (.harnessObserved, [claim.subject, claim.kind, incarnation]) := by
  simp only [slotOf, hkind] at h
  obtain ⟨incarnation, hincarnation, h⟩ := bind_eq_some_iff.mp h
  refine ⟨incarnation, hincarnation, ?_⟩
  rw [hkind, ← some.inj h, map_singleton, fieldText_of_fieldStr hincarnation]

theorem slotOf_loop (hkind : claim.kind = "loop.state") :
    slot = toLex (.loopState, [claim.subject, claim.kind]) := by
  simp only [slotOf, hkind] at h
  rw [hkind, ← some.inj h]

theorem slotOf_deferral (hkind : claim.kind = "subscription.mission-deferred") :
    slot = toLex (.deferral, [claim.subject, claim.kind, fieldText claim "request"]) := by
  simp only [slotOf, hkind] at h
  rw [hkind, ← some.inj h, map_singleton]

/-- A usage claim with a slot is a rollup, a cumulative reading or a context reading. -/
theorem slotOf_usage (hkind : claim.kind = "harness.usage") :
    (fieldStr claim "semantics" = some "response_rollup" ∧
      slot = toLex (.usageSeries, claim.subject :: claim.kind ::
        ("incarnation_id" :: rollupNames).map (fieldText claim))) ∨
    (fieldStr claim "semantics" = some "session_cumulative" ∧
      slot = toLex (.usageCumulative, claim.subject :: claim.kind ::
        ["semantics", "incarnation_id"].map (fieldText claim))) ∨
    (fieldStr claim "semantics" = some "context_occupancy" ∧
      slot = toLex (.newest, claim.subject :: claim.kind ::
        ["semantics", "incarnation_id"].map (fieldText claim))) := by
  simp only [slotOf, hkind] at h
  rw [hkind]
  split at h
  case h_1 hsemantics => exact .inl ⟨hsemantics, (some.inj h).symm⟩
  case h_2 hsemantics => exact .inr (.inl ⟨hsemantics, (some.inj h).symm⟩)
  case h_3 hsemantics => exact .inr (.inr ⟨hsemantics, (some.inj h).symm⟩)
  case h_4 => cases h

/-- The usage claims of a slot tell the same way, of one incarnation, and rollups of one series. -/
theorem usage_of_slot (hkind : claim.kind = "harness.usage")
    (h' : slotOf other = some slot) :
    fieldStr other "semantics" = fieldStr claim "semantics" ∧
      fieldText other "incarnation_id" = fieldText claim "incarnation_id" ∧
      (fieldStr claim "semantics" = some "response_rollup" →
        ∀ name ∈ rollupNames, fieldText other name = fieldText claim name) := by
  have hkind' : other.kind = "harness.usage" := (subject_kind_of_slot h h').2.trans hkind
  rcases slotOf_usage h hkind with ⟨hs, rfl⟩ | ⟨hs, rfl⟩ | ⟨hs, rfl⟩ <;>
    rcases slotOf_usage h' hkind' with ⟨hs', heq⟩ | ⟨hs', heq⟩ | ⟨hs', heq⟩ <;>
    simp only [toLex_inj, Prod.mk.injEq, reduceCtorEq, false_and] at heq
  · have htexts := (cons.inj (cons.inj heq.2).2).2
    rw [map_cons, map_cons, cons.injEq, map_inj_left] at htexts
    exact ⟨hs'.trans hs.symm, htexts.1.symm, fun _ name hname => (htexts.2 name hname).symm⟩
  all_goals
    have htexts := (cons.inj (cons.inj heq.2).2).2
    rw [map_inj_left] at htexts
    refine ⟨hs'.trans hs.symm, (htexts _ (by simp)).symm, fun hrollup => ?_⟩
    rw [hs] at hrollup
    exact absurd (some.inj hrollup) (by decide)

end

/-- Requests and what closes them have no slot. -/
theorem slotOf_request (hkind : claim.kind ∈ "subscription.mission-requested" :: requestClosers) :
    slotOf claim = none := by
  unfold slotOf
  split
  all_goals
    first
    | rfl
    | (rename_i hslotted
       rw [hslotted] at hkind
       exact absurd hkind (by decide))

theorem get_fields_of_isSome (h : (fields claim).isSome) :
    ∃ members, fields claim = some members ∧ claim.body.get "fields" = some (.obj members) := by
  obtain ⟨members, hfields⟩ := isSome_iff_exists.mp h
  obtain ⟨value, hvalue, hmembers⟩ := bind_eq_some_iff.mp hfields
  cases value with
  | obj members' =>
    obtain rfl := some.inj hmembers
    exact ⟨members', hfields, hvalue⟩
  | null | bool | num | str | arr => cases hmembers

/-- Where a claim has a `fields` object, that is where usage is read. -/
theorem usageField_of_fields (h : (fields claim).isSome) :
    usageField claim name = field claim name := by
  obtain ⟨members, hfields, hget⟩ := get_fields_of_isSome h
  rw [usageField, field, hfields, hget, getD_some, bind_some, Json.get]

theorem fields_of_fieldStr {name text : String} (h : fieldStr claim name = some text) :
    (fields claim).isSome := by
  obtain ⟨value, hvalue, -⟩ := bind_eq_some_iff.mp h
  obtain ⟨members, hmembers, -⟩ := bind_eq_some_iff.mp hvalue
  rw [hmembers, isSome_some]

/-- A closer names its request in `fields`. -/
theorem finishes_of_fieldStr {request : String} (hkind : claim.kind ∈ requestClosers)
    (hrequest : fieldStr claim "request" = some request) :
    finishes claim claim.subject request = true := by
  obtain ⟨value, hvalue, htext⟩ := bind_eq_some_iff.mp hrequest
  obtain ⟨members, hfields, hget⟩ := get_fields_of_isSome (fields_of_fieldStr hrequest)
  rw [field, hfields, bind_some] at hvalue
  refine decide_eq_true ⟨rfl, hkind, ?_⟩
  rw [hget, bind_some, Json.get, hvalue, bind_some]
  cases value with
  | str s => exact htext
  | null | bool | num | arr | obj => cases htext

/-! ### Usage -/

/-- Usage in the types of its schema: strings for the incarnation and the series, a number for the
total. -/
structure UsageTyped (claim : ClaimRecord) : Prop where
  reading : fieldStr claim "semantics" = some "session_cumulative" →
    (fieldStr claim "incarnation_id").isSome ∧
      ∀ value ∈ field claim "total_tokens", value.asU64.isSome
  rollup : fieldStr claim "semantics" = some "response_rollup" →
    (fieldStr claim "incarnation_id").isSome ∧
      ∀ name ∈ rollupNames, ∀ value ∈ field claim name, value.asStr.isSome

theorem mem_fieldNames : name ∈ fieldNames claim ↔ (field claim name).isSome := by
  cases hfields : fields claim with
  | none => simp [fieldNames, field, hfields]
  | some members =>
    rw [fieldNames, field, hfields, getD_some, bind_some,
      List.lookup_isSome_iff, List.mem_map]
    refine exists_congr fun member => and_congr_right fun _ => ?_
    rw [beq_iff_eq, eq_comm]

theorem fields_of_usage (hkind : claim.kind = "harness.usage") (h : slotOf claim = some slot) :
    (fields claim).isSome := by
  rcases slotOf_usage h hkind with ⟨hs, -⟩ | ⟨hs, -⟩ | ⟨hs, -⟩ <;> exact fields_of_fieldStr hs

section

variable (h : (fields claim).isSome)

include h

theorem usageText_of_fields : usageText claim name = fieldStr claim name := by
  rw [usageText, usageField_of_fields h, fieldStr]

theorem usageNumber_of_fields : usageNumber claim name = (field claim name).bind Json.asU64 := by
  rw [usageNumber, usageField_of_fields h]

theorem usageIncarnation_of_fields
    (hincarnation : (fieldStr claim "incarnation_id").isSome) :
    usageIncarnation claim = fieldText claim "incarnation_id" := by
  obtain ⟨incarnation, hincarnation⟩ := isSome_iff_exists.mp hincarnation
  rw [usageIncarnation, usageText_of_fields h, hincarnation, fieldText_of_fieldStr hincarnation,
    getD_some]

theorem usageText_getD
    (htyped : ∀ value ∈ field claim name, value.asStr.isSome) :
    (usageText claim name).getD "" = fieldText claim name := by
  rw [usageText_of_fields h]
  cases hfield : field claim name with
  | none => simp [fieldStr, fieldText, hfield]
  | some value =>
    obtain ⟨text, htext⟩ := isSome_iff_exists.mp (htyped value hfield)
    have hstr : fieldStr claim name = some text := by rw [fieldStr, hfield, bind_some, htext]
    rw [hstr, fieldText_of_fieldStr hstr, getD_some]

theorem mem_of_hasTotal (htotal : hasTotal claim = true) : "total_tokens" ∈ fieldNames claim := by
  rw [hasTotal, usageNumber_of_fields h] at htotal
  exact mem_fieldNames.mpr (isSome_of_isSome_bind htotal)

end

theorem usageTotal_of_not (h : hasTotal claim = false) : usageTotal claim = 0 := by
  rw [usageTotal, not_isSome_iff_eq_none.mp (Bool.eq_false_iff.mp h), getD_none]

theorem rule_of_usage (hkind : claim.kind = "harness.usage") (h : slotOf claim = some slot) :
    (ofLex slot).1 ≠ .loopState := by
  rcases slotOf_usage h hkind with ⟨-, rfl⟩ | ⟨-, rfl⟩ | ⟨-, rfl⟩ <;> simp

section

variable (hkind : claim.kind = "harness.usage") (h : slotOf claim = some slot)
  (h' : slotOf other = some slot)

include hkind h h'

theorem hasSemantics_of_slot (semantics : String) :
    hasSemantics semantics other = hasSemantics semantics claim := by
  have hkind' := (subject_kind_of_slot h h').2.trans hkind
  rw [hasSemantics, hasSemantics, usageText_of_fields (fields_of_usage hkind h),
    usageText_of_fields (fields_of_usage hkind' h'), (usage_of_slot h hkind h').1]

omit h' in
/-- A slot has no single responses. -/
theorem isResponse_of_slot : isResponse claim = false := by
  rw [isResponse, hasSemantics, usageText_of_fields (fields_of_usage hkind h)]
  rcases slotOf_usage h hkind with ⟨hs, -⟩ | ⟨hs, -⟩ | ⟨hs, -⟩ <;> simp [hs]

omit h' in
theorem rule_of_reading (hreading : hasSemantics "session_cumulative" claim = true) :
    (ofLex slot).1 = .usageCumulative := by
  rw [hasSemantics, usageText_of_fields (fields_of_usage hkind h), decide_eq_true_eq] at hreading
  rcases slotOf_usage h hkind with ⟨hs, rfl⟩ | ⟨hs, rfl⟩ | ⟨hs, rfl⟩
  · exact absurd (some.inj (hs.symm.trans hreading)) (by decide)
  · rfl
  · exact absurd (some.inj (hs.symm.trans hreading)) (by decide)

omit h' in
theorem hasTotal_of_mem (htyped : UsageTyped claim)
    (hreading : hasSemantics "session_cumulative" claim = true)
    (htotal : "total_tokens" ∈ fieldNames claim) : hasTotal claim = true := by
  have hfields := fields_of_usage hkind h
  rw [hasSemantics, usageText_of_fields hfields, decide_eq_true_eq] at hreading
  obtain ⟨value, hvalue⟩ := isSome_iff_exists.mp (mem_fieldNames.mp htotal)
  rw [hasTotal, usageNumber_of_fields hfields, hvalue, bind_some]
  exact (htyped.reading hreading).2 value hvalue

variable (htyped : UsageTyped claim) (htyped' : UsageTyped other)

include htyped htyped'

/-- The claims of a slot count for one incarnation. -/
theorem spendsOn_of_slot {incarnation : String} (hspends : spendsOn incarnation claim = true)
    (htotal : isReading claim = true → hasTotal other = true) :
    spendsOn incarnation other = true := by
  have hkind' := (subject_kind_of_slot h h').2.trans hkind
  have hfields := fields_of_usage hkind h
  have hfields' := fields_of_usage hkind' h'
  obtain ⟨hsemantics, htext, -⟩ := usage_of_slot h hkind h'
  rw [spendsOn, spends, isResponse_of_slot hkind h, Bool.or_false, Bool.and_eq_true,
    Bool.or_eq_true, decide_eq_true_eq] at hspends
  obtain ⟨hcounts, hincarnation⟩ := hspends
  have hstrings : (fieldStr claim "incarnation_id").isSome ∧
      (fieldStr other "incarnation_id").isSome := by
    rcases hcounts with hreading | hrollup
    · have hs := of_decide_eq_true (Bool.and_eq_true_iff.mp hreading).1
      rw [usageText_of_fields hfields] at hs
      exact ⟨(htyped.reading hs).1, (htyped'.reading (hsemantics.trans hs)).1⟩
    · have hs := of_decide_eq_true hrollup
      rw [usageText_of_fields hfields] at hs
      exact ⟨(htyped.rollup hs).1, (htyped'.rollup (hsemantics.trans hs)).1⟩
  rw [spendsOn, Bool.and_eq_true, decide_eq_true_eq, usageIncarnation_of_fields hfields' hstrings.2,
    htext, ← usageIncarnation_of_fields hfields hstrings.1]
  refine ⟨?_, hincarnation⟩
  rw [spends, isReading, hasSemantics_of_slot hkind h h', hasSemantics_of_slot hkind h h']
  rcases hcounts with hreading | hrollup
  · rw [htotal hreading, (Bool.and_eq_true_iff.mp hreading).1]
    rfl
  · simp [hrollup]

/-- The rollups of a slot are of one series. -/
theorem rollupKey_of_slot (hrollup : hasSemantics "response_rollup" claim = true) :
    rollupKey other = rollupKey claim := by
  have hkind' := (subject_kind_of_slot h h').2.trans hkind
  have hfields := fields_of_usage hkind h
  obtain ⟨hsemantics, -, htexts⟩ := usage_of_slot h hkind h'
  have hs := of_decide_eq_true hrollup
  rw [usageText_of_fields hfields] at hs
  rw [rollupKey, rollupKey]
  congr 1
  refine map_congr_left fun name hname => ?_
  rw [usageText_getD hfields ((htyped.rollup hs).2 name hname),
    usageText_getD (fields_of_usage hkind' h')
      ((htyped'.rollup (hsemantics.trans hs)).2 name hname), htexts hs name hname]

end

end SmallTalk.Checkpoint
