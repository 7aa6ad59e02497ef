import SmallTalk.Checkpoint.Positions
import SmallTalk.Checkpoint.Slots

/-!
# Checkpoint — answers that stay

A store holds the sealed claims among others: late ones, that stand before or between them in
canonical order, and new ones. It answers about a subject from all of its claims, and after a
checkpoint from those that remain.

* `subjectAnswers_remaining`: both answers stay when the sealed usage is `UsageTyped`.
-/

namespace SmallTalk.Checkpoint

open Replication (Hasher)
open List Sorted Thinning

/-! ### The claims of a store -/

/-- The store lists its claims in canonical order, each once, and the sealed ones are among them. -/
structure SealedSet.HeldIn (sealed : SealedSet) (all : List ClaimRecord) : Prop where
  distinct : (all.map ClaimRecord.id).Nodup
  rows : ∀ i, sealed.row i ∈ all
  order : ((first sealed.row).map sealed.row).Sublist all

section

variable {H : Hasher}

/-- No tombstone is of the claim. -/
def DropPlan.keeps (plan : DropPlan H) (claim : ClaimRecord) : Bool :=
  plan.claims.all fun t => t.id ≠ claim.id

def DropPlan.remaining (plan : DropPlan H) (all : List ClaimRecord) : List ClaimRecord :=
  all.filter plan.keeps

theorem DropPlan.keeps_eq_false {plan : DropPlan H} {claim : ClaimRecord} :
    plan.keeps claim = false ↔ plan.Drops claim := by
  simp [keeps, Drops]

theorem claimsOfKind_remaining (plan : DropPlan H) (all : List ClaimRecord)
    (subject kind : String) :
    claimsOfKind (plan.remaining all) subject kind =
      (claimsOfKind all subject kind).filter plan.keeps :=
  filter_comm _ _ _

end

theorem mem_claimsOfKind {all : List ClaimRecord} {claim : ClaimRecord} {subject kind : String} :
    claim ∈ claimsOfKind all subject kind ↔
      claim ∈ all ∧ claim.subject = subject ∧ claim.kind = kind := by
  rw [claimsOfKind, mem_filter, decide_eq_true_eq]

theorem totalTokens_of_fields {claim : ClaimRecord} (h : (fields claim).isSome) :
    totalTokens claim = usageTotal claim := by
  rw [totalTokens, usageTotal, usageNumber_of_fields h]

/-! ### Dropped claims -/

section

variable {H : Hasher} {registry : Registry} {sealed : SealedSet} {all : List ClaimRecord}
  {claim : ClaimRecord} {subject kind : String} {i j : sealed.Index}

/-- A dropped claim of the store, with its place in its slot. -/
structure Gone (registry : Registry) (sealed : SealedSet) (claim : ClaimRecord)
    (i : sealed.Index) (slot : Slot) (pos : ℕ) : Prop where
  row : sealed.row i = claim
  dropped : i ∈ sealed.dropped registry
  stands : StandsAt sealed.row sealed.cutUnixMs i slot pos

theorem SealedSet.HeldIn.nodup (hall : sealed.HeldIn all) : all.Nodup := hall.distinct.of_map

variable {slot : Slot} {pos : ℕ}

section

variable (h : Gone registry sealed claim i slot pos)

include h

theorem Gone.first : i ∈ first sealed.row := (SealedSet.dropped_slot h.dropped).1

theorem Gone.slot_eq : slotOf claim = some slot := h.row ▸ h.stands.slot_eq

end

/-- The dropped claim is one of a kind. -/
structure GoneOf (registry : Registry) (sealed : SealedSet) (all : List ClaimRecord)
    (subject kind : String) (claim : ClaimRecord) (i : sealed.Index) (slot : Slot) (pos : ℕ) : Prop
    extends Gone registry sealed claim i slot pos where
  held : sealed.HeldIn all
  mem : claim ∈ claimsOfKind all subject kind

theorem exists_gone (hall : sealed.HeldIn all) (hclaim : claim ∈ claimsOfKind all subject kind)
    (hdrop : (planDrops H registry sealed).keeps claim = false) :
    ∃ i slot pos, GoneOf registry sealed all subject kind claim i slot pos := by
  obtain ⟨t, ht, hid⟩ := DropPlan.keeps_eq_false.mp hdrop
  obtain ⟨i, -, hi, rfl⟩ := mem_planDrops_claims.mp ht
  obtain rfl : sealed.row i = claim :=
    inj_on_of_nodup_map hall.distinct (hall.rows i) (mem_claimsOfKind.mp hclaim).1 hid
  obtain ⟨slot, pos, hstands⟩ :=
    exists_standsAt (Finset.mem_filter.mp (SealedSet.dropped_marked hi)).1
  exact ⟨i, slot, pos, ⟨rfl, hi, hstands⟩, hall, hclaim⟩

/-- A claim without a slot stays. -/
theorem keeps_of_slotOf (hall : sealed.HeldIn all) (hclaim : claim ∈ all)
    (hslot : slotOf claim = none) : (planDrops H registry sealed).keeps claim = true := by
  by_contra hgone
  obtain ⟨i, slot, pos, h⟩ := exists_gone hall (mem_claimsOfKind.mpr ⟨hclaim, rfl, rfl⟩)
    (Bool.eq_false_iff.mpr hgone)
  exact nomatch hslot.symm.trans h.slot_eq

namespace GoneOf

section

variable (h : GoneOf registry sealed all subject kind claim i slot pos)

include h

theorem kind_eq : claim.kind = kind := (mem_claimsOfKind.mp h.mem).2.2

/-- The other claims of the slot, among those of the kind. -/
theorem member (hj : slotOf (sealed.row j) = some slot) :
    sealed.row j ∈ claimsOfKind all subject kind := by
  obtain ⟨-, hsubject, hkind⟩ := mem_claimsOfKind.mp h.mem
  obtain ⟨hsubject', hkind'⟩ := subject_kind_of_slot h.stands.slot_eq hj
  rw [h.row] at hsubject' hkind'
  exact mem_claimsOfKind.mpr ⟨h.held.rows j, hsubject'.trans hsubject, hkind'.trans hkind⟩

theorem member_kind (hj : slotOf (sealed.row j) = some slot) : (sealed.row j).kind = kind :=
  (mem_claimsOfKind.mp (h.member hj)).2.2

theorem before (hfirst : j ∈ first sealed.row) (hj : slotOf (sealed.row j) = some slot)
    (hlt : j < i) : Before (claimsOfKind all subject kind) (sealed.row j) claim := by
  have hbefore := ((before_of_lt (first_sorted _) hfirst h.first hlt).map sealed.row).sublist
    h.held.order
  rw [h.row] at hbefore
  exact hbefore.filter (decide_eq_true (mem_claimsOfKind.mp (h.member hj)).2)
    (decide_eq_true (mem_claimsOfKind.mp h.mem).2)

theorem after (hfirst : j ∈ first sealed.row) (hj : slotOf (sealed.row j) = some slot)
    (hlt : i < j) : Before (claimsOfKind all subject kind) claim (sealed.row j) := by
  have hbefore := ((before_of_lt (first_sorted _) h.first hfirst hlt).map sealed.row).sublist
    h.held.order
  rw [h.row] at hbefore
  exact hbefore.filter (decide_eq_true (mem_claimsOfKind.mp h.mem).2)
    (decide_eq_true (mem_claimsOfKind.mp (h.member hj)).2)

/-- A later claim of the slot stays. -/
theorem exists_kept (H : Hasher) :
    ∃ j, Before (claimsOfKind all subject kind) claim (sealed.row j) ∧
      slotOf (sealed.row j) = some slot ∧
        (planDrops H registry sealed).keeps (sealed.row j) = true := by
  obtain ⟨j, hlt, hfirst, hslot, hkept⟩ := (replaced_of_dropped (H := H) h.dropped).later
  have hj : slotOf (sealed.row j) = some slot := hslot.trans h.stands.slot_eq
  exact ⟨j, h.after hfirst hj hlt, hj,
    Bool.eq_true_of_not_eq_false fun hgone => hkept (DropPlan.keeps_eq_false.mp hgone)⟩

end

/-- The slot of an observation holds observations of its incarnation. -/
theorem observation {incarnation : String}
    (h : GoneOf registry sealed all subject "harness.observed" claim i slot pos)
    (hincarnation : fieldStr claim "incarnation_id" = some incarnation) :
    (ofLex slot).1 = .harnessObserved ∧
      ∀ j, slotOf (sealed.row j) = some slot →
        fieldStr (sealed.row j) "incarnation_id" = some incarnation := by
  obtain ⟨incarnation', hincarnation', rfl⟩ := slotOf_harness h.slot_eq h.kind_eq
  refine ⟨rfl, fun j hj => ?_⟩
  obtain ⟨incarnation'', hincarnation'', heq⟩ := slotOf_harness hj (h.member_kind hj)
  have htexts := congrArg (fun slot : Slot => (ofLex slot).2) heq
  simp only [ofLex_toLex, List.cons.injEq, and_true] at htexts
  rw [hincarnation'', ← htexts.2.2, ← hincarnation', hincarnation]

variable (h : GoneOf registry sealed all subject "harness.usage" claim i slot pos)
  (htyped : ∀ i, (sealed.row i).kind = "harness.usage" → UsageTyped (sealed.row i))

include h htyped

theorem typed : UsageTyped claim := h.row ▸ htyped i (by rw [h.row, h.kind_eq])

/-- A later claim of the slot, with a total where the dropped one has one. -/
theorem exists_counting :
    ∃ j, Before (claimsOfKind all subject "harness.usage") claim (sealed.row j) ∧
      slotOf (sealed.row j) = some slot ∧
        (isReading claim = true → hasTotal (sealed.row j) = true) := by
  have hrule := rule_of_usage h.kind_eq h.slot_eq
  have hfields := fields_of_usage h.kind_eq h.slot_eq
  cases hreading : isReading claim with
  | true =>
    obtain ⟨hsemantics, htotal⟩ := Bool.and_eq_true_iff.mp hreading
    obtain ⟨j, hfirst, hj, hlt, hset⟩ := h.stands.carrier_later hrule
      (by rw [h.row]; exact mem_of_hasTotal hfields htotal)
    have hkind' := h.member_kind hj
    refine ⟨j, h.after hfirst hj hlt, hj, fun _ => ?_⟩
    refine hasTotal_of_mem hkind' hj (htyped j hkind') ?_ hset
    rwa [hasSemantics_of_slot h.kind_eq h.slot_eq hj]
  | false =>
    have hsemantics : "semantics" ∈ fieldNames (sealed.row i) := by
      rw [h.row, mem_fieldNames]
      rcases slotOf_usage h.slot_eq h.kind_eq with ⟨hs, -⟩ | ⟨hs, -⟩ | ⟨hs, -⟩ <;>
        exact Option.isSome_of_isSome_bind (Option.isSome_of_eq_some hs)
    obtain ⟨j, hfirst, hj, hlt, -⟩ := h.stands.carrier_later hrule hsemantics
    exact ⟨j, h.after hfirst hj hlt, hj, fun hnot => by cases hnot⟩

/-- The claims of the slot of a dropped claim count for its incarnation. -/
theorem spendsOn {incarnation : String} (hspends : Checkpoint.spendsOn incarnation claim = true)
    (hj : slotOf (sealed.row j) = some slot)
    (htotal : isReading claim = true → hasTotal (sealed.row j) = true) :
    Checkpoint.spendsOn incarnation (sealed.row j) = true :=
  spendsOn_of_slot h.kind_eq h.slot_eq hj (h.typed htyped) (htyped j (h.member_kind hj)) hspends
    htotal

end GoneOf

end

/-! ### The newest claim of each kind -/

section

variable {H : Hasher} {registry : Registry} {sealed : SealedSet} {all : List ClaimRecord}
  (hall : sealed.HeldIn all) (subject : String) {claim : ClaimRecord}

include hall

theorem getLast?_remaining (kind : String) :
    (claimsOfKind ((planDrops H registry sealed).remaining all) subject kind).getLast? =
      (claimsOfKind all subject kind).getLast? := by
  refine getLast?_thin hall.nodup fun claim hclaim hkind hgone => ?_
  have hmem : claim ∈ claimsOfKind all subject kind := mem_filter.mpr ⟨hclaim, hkind⟩
  obtain ⟨i, slot, pos, h⟩ := exists_gone hall hmem hgone
  obtain ⟨j, hbefore, -⟩ := h.exists_kept H
  exact ⟨sealed.row j, hbefore.sublist filter_sublist,
    decide_eq_true (mem_claimsOfKind.mp hbefore.mem_right).2⟩

omit hall in
theorem mem_kindsOf {claims : List ClaimRecord} {kind : String} :
    kind ∈ kindsOf claims subject ↔ claimsOfKind claims subject kind ≠ [] := by
  simp only [kindsOf, mem_sortedSet, mem_map, mem_filter, decide_eq_true_eq,
    Ne, eq_nil_iff_forall_not_mem, not_forall_not, mem_claimsOfKind, and_assoc]

theorem kindsOf_remaining :
    kindsOf ((planDrops H registry sealed).remaining all) subject = kindsOf all subject := by
  refine eq_of_mem_iff (f := id) (sortedSet_pairwise _) (sortedSet_pairwise _) fun kind => ?_
  rw [mem_kindsOf, mem_kindsOf, ← List.getLast?_isSome, ← List.getLast?_isSome,
    getLast?_remaining hall]

/-! ### Harnesses -/

omit hall in
theorem drop_rposition {α : Type*} (p : α → Bool) (l : List α) :
    l.drop ((rposition p l).elim 0 (· + 1)) = l.rtakeWhile fun a => !p a := by
  induction l using List.reverseRecOn with
  | nil => rfl
  | append_singleton l a ih =>
    have hle : (rposition p l).elim 0 (· + 1) ≤ l.length := by
      cases hlast : rposition p l with
      | none => exact Nat.zero_le _
      | some pos =>
        obtain ⟨b, hpos, -⟩ := rposition_spec hlast
        exact (List.getElem?_eq_some_iff.mp hpos).1
    rw [rposition_append_singleton, rtakeWhile_concat]
    cases p a with
    | true => simp
    | false =>
      rw [if_neg Bool.false_ne_true, drop_append_of_le_length hle, ih]
      rfl

omit hall in
theorem workingSince_eq (claims : List ClaimRecord) : workingSince claims =
      (sinceLast isOther isWorking claims).map ClaimRecord.acceptedAtUnixMs := by
  unfold workingSince
  dsimp only
  rw [drop_rposition]
  rfl

variable {incarnation : String}

/-- A dropped observation with `p` comes after another, when the rule keeps the first one. -/
theorem exists_ready_before (p : ClaimRecord → Bool)
    (hp : ∀ {slot : Slot} {pos : ℕ} {i : sealed.Index},
      StandsAt sealed.row sealed.cutUnixMs i slot pos → (ofLex slot).1 = .harnessObserved →
        p (sealed.row i) = true →
          ∃ j ∈ first sealed.row, slotOf (sealed.row j) = some slot ∧ j < i ∧
            p (sealed.row j) = true) :
    let claims := (claimsOfKind all subject "harness.observed").filter fun claim =>
      fieldStr claim "incarnation_id" = some incarnation
    ∀ claim ∈ claims, p claim = true → (planDrops H registry sealed).keeps claim = false →
      ∃ other, Before claims other claim ∧ p other = true := by
  intro claims claim hclaim hready hgone
  obtain ⟨hclaim, hown⟩ := mem_filter.mp hclaim
  obtain ⟨i, slot, pos, h⟩ := exists_gone hall hclaim hgone
  obtain ⟨hrule, hslot⟩ := h.observation (of_decide_eq_true hown)
  obtain ⟨j, hfirst, hj, hlt, hother⟩ := hp h.stands hrule (by rwa [h.row])
  exact ⟨sealed.row j, (h.before hfirst hj hlt).filter (decide_eq_true (hslot j hj))
    hown, hother⟩

theorem incarnationAnswers_remaining :
    incarnationAnswers (claimsOfKind ((planDrops H registry sealed).remaining all) subject
        "harness.observed") =
      incarnationAnswers (claimsOfKind all subject "harness.observed") := by
  have hnodup : (claimsOfKind all subject "harness.observed").Nodup := hall.nodup.filter _
  rw [claimsOfKind_remaining, incarnationAnswers, incarnationAnswers]
  have hsame : sortedSet (((claimsOfKind all subject "harness.observed").filter
        (planDrops H registry sealed).keeps).filterMap (fieldStr · "incarnation_id")) =
      sortedSet ((claimsOfKind all subject "harness.observed").filterMap
        (fieldStr · "incarnation_id")) := by
    refine sortedSet_congr fun incarnation => ?_
    simp only [mem_filterMap, mem_filter]
    refine ⟨fun ⟨claim, hclaim, hown⟩ => ⟨claim, hclaim.1, hown⟩, fun ⟨claim, hclaim, hown⟩ => ?_⟩
    by_cases hkept : (planDrops H registry sealed).keeps claim = true
    · exact ⟨claim, ⟨hclaim, hkept⟩, hown⟩
    · obtain ⟨i, slot, pos, h⟩ := exists_gone hall hclaim (Bool.eq_false_iff.mpr hkept)
      obtain ⟨j, hbefore, hj, hkept⟩ := h.exists_kept H
      exact ⟨sealed.row j, ⟨hbefore.mem_right, hkept⟩, (h.observation hown).2 j hj⟩
  rw [hsame]
  refine map_congr_left fun incarnation _ => ?_
  dsimp only
  rw [filter_comm, workingSince_eq, workingSince_eq,
    any_thin (hnodup.filter _) (exists_ready_before hall subject isReady StandsAt.ready_earlier),
    any_thin (hnodup.filter _)
      (exists_ready_before hall subject isReadyWithoutLogin StandsAt.readyWithoutLogin_earlier),
    sinceLast_thin (hnodup.filter _)]
  intro claim hclaim hgone hstate
  obtain ⟨hclaim, hown⟩ := mem_filter.mp hclaim
  obtain ⟨i, slot, pos, h⟩ := exists_gone hall hclaim hgone
  obtain ⟨hrule, hslot⟩ := h.observation (of_decide_eq_true hown)
  obtain ⟨j, hfirst, hj, hlt, hother⟩ := h.stands.other_later hrule (by rwa [h.row])
  exact ⟨sealed.row j, (h.after hfirst hj hlt).filter hown
    (decide_eq_true (hslot j hj)), hother⟩

/-! ### Loops -/

theorem loopAnswers_remaining :
    loopAnswers (claimsOfKind ((planDrops H registry sealed).remaining all) subject "loop.state") =
      loopAnswers (claimsOfKind all subject "loop.state") := by
  have hitems : (claimsOfKind ((planDrops H registry sealed).remaining all) subject
        "loop.state").find? (fun claim => decide ("items" ∈ fieldNames claim)) =
      (claimsOfKind all subject "loop.state").find?
        fun claim => decide ("items" ∈ fieldNames claim) := by
    rw [claimsOfKind_remaining]
    refine find?_thin (hall.nodup.filter _) fun claim hclaim hitems hgone => ?_
    obtain ⟨i, slot, pos, h⟩ := exists_gone hall hclaim hgone
    have hrule := slotOf_loop h.slot_eq h.kind_eq
    obtain ⟨j, hfirst, hj, hlt, hset⟩ := h.stands.items_earlier (by rw [hrule, ofLex_toLex])
      (by rw [h.row]; exact of_decide_eq_true hitems)
    exact ⟨sealed.row j, h.before hfirst hj hlt, decide_eq_true hset⟩
  rw [loopAnswers, getLast?_remaining hall, hitems]
  rfl

/-! ### Deferrals -/

theorem pendingRequests_remaining :
    pendingRequests ((planDrops H registry sealed).remaining all) subject =
      pendingRequests all subject := by
  have hrequests : ((planDrops H registry sealed).remaining all).filter (fun claim =>
        claim.subject = subject ∧ claim.kind = "subscription.mission-requested") =
      all.filter fun claim =>
        claim.subject = subject ∧ claim.kind = "subscription.mission-requested" :=
    filter_thin fun claim hclaim hkind => keeps_of_slotOf hall hclaim
      (slotOf_request (by rw [(of_decide_eq_true hkind).2]; exact mem_cons_self))
  have hfinishes : ∀ request, ((planDrops H registry sealed).remaining all).any
      (finishes · subject request) = all.any (finishes · subject request) := by
    intro request
    refine any_thin hall.nodup fun claim hclaim hcloses hgone => ?_
    rw [keeps_of_slotOf hall hclaim (slotOf_request
      (mem_cons_of_mem _ (of_decide_eq_true hcloses).2.1))] at hgone
    cases hgone
  simp only [pendingRequests, hrequests, hfinishes]

theorem deferralAnswers_remaining :
    deferralAnswers (pendingRequests ((planDrops H registry sealed).remaining all) subject)
        (claimsOfKind ((planDrops H registry sealed).remaining all) subject
          "subscription.mission-deferred") =
      deferralAnswers (pendingRequests all subject)
        (claimsOfKind all subject "subscription.mission-deferred") := by
  rw [pendingRequests_remaining hall, claimsOfKind_remaining, deferralAnswers, deferralAnswers]
  refine map_congr_left fun request hpending => ?_
  rw [filter_thin]
  -- The request of a dropped deferral is closed by a sealed claim, so it is not pending.
  intro claim hclaim hown
  by_contra hgone
  obtain ⟨-, hsubject, hkind⟩ := mem_claimsOfKind.mp hclaim
  obtain ⟨i, slot, pos, h⟩ := exists_gone hall hclaim (Bool.eq_false_iff.mpr hgone)
  have hclosed := h.stands.deferral_closed (slotOf_deferral h.slot_eq hkind)
  rw [fieldText_of_fieldStr (of_decide_eq_true hown)] at hclosed
  obtain ⟨j, hj, hcloses⟩ := mem_filterMap.mp hclosed
  obtain ⟨request', hrequest, hpair⟩ := Option.map_eq_some_iff.mp hcloses
  obtain ⟨hsame, rfl⟩ := Prod.mk.inj hpair
  have hfinishes := finishes_of_fieldStr (of_decide_eq_true (mem_filter.mp hj).2) hrequest
  obtain ⟨-, hopen⟩ := mem_filter.mp (mem_sortedSet.mp hpending)
  rw [Bool.not_eq_true', any_eq_false] at hopen
  refine hopen _ (hall.rows j) ?_
  rwa [hsame, headD_cons, hsubject] at hfinishes

/-! ### Usage -/

variable (htyped : ∀ i, (sealed.row i).kind = "harness.usage" → UsageTyped (sealed.row i))

include htyped

variable {F : Type*} [Add F] [Zero F] (asF64 : Json → Option F)

/-- The reading of an incarnation that counts stays: a dropped one is beaten. -/
theorem champion_remaining (incarnation : String) :
    champion usageTotal (((claimsOfKind all subject "harness.usage").filter
        (planDrops H registry sealed).keeps |>.filter (spendsOn incarnation)).filter isReading) =
      champion usageTotal (((claimsOfKind all subject "harness.usage").filter
        (spendsOn incarnation)).filter isReading) := by
  rw [filter_comm (spendsOn incarnation), filter_comm isReading]
  refine champion_thin (((hall.nodup.filter _).filter _).filter _) fun claim hclaim hgone => ?_
  obtain ⟨hown, hreading⟩ := mem_filter.mp hclaim
  obtain ⟨hclaim, hspends⟩ := mem_filter.mp hown
  obtain ⟨i, slot, pos, h⟩ := exists_gone hall hclaim hgone
  have hsemantics := (Bool.and_eq_true_iff.mp hreading).1
  have hcounts : ∀ j, slotOf (sealed.row j) = some slot → hasTotal (sealed.row j) = true →
      spendsOn incarnation (sealed.row j) = true ∧ isReading (sealed.row j) = true := by
    intro j hj htotal
    refine ⟨h.spendsOn htyped hspends hj fun _ => htotal, ?_⟩
    rw [isReading, hasSemantics_of_slot h.kind_eq h.slot_eq hj, hsemantics, htotal, Bool.and_self]
  obtain ⟨j, hfirst, hj, hbeats⟩ := h.stands.beaten
    (rule_of_reading h.kind_eq h.slot_eq hsemantics)
  rw [h.row, totalTokens_of_fields (fields_of_usage h.kind_eq h.slot_eq),
    totalTokens_of_fields (fields_of_usage (h.member_kind hj) hj)] at hbeats
  cases htotal : hasTotal (sealed.row j) with
  | true =>
    obtain ⟨hspends', hreading'⟩ := hcounts j hj htotal
    refine ⟨sealed.row j, mem_filter.mpr ⟨mem_filter.mpr
      ⟨h.member hj, hspends'⟩, hreading'⟩, hbeats.imp_right fun hlater => ⟨hlater.1, ?_⟩⟩
    exact ((h.after hfirst hj hlater.2).filter hspends hspends').filter hreading hreading'
  | false =>
    -- Without a total it beats only a reading of zero, and a later one with a total does too.
    rw [usageTotal_of_not htotal] at hbeats
    obtain ⟨j', hbefore, hj', htotal'⟩ := h.exists_counting htyped
    obtain ⟨hspends', hreading'⟩ := hcounts j' hj' (htotal' hreading)
    have hbefore' := (hbefore.filter hspends hspends').filter hreading hreading'
    exact ⟨sealed.row j', hbefore'.mem_right, .inr ⟨by omega, hbefore'⟩⟩

theorem spent_remaining (incarnation : String) :
    spent asF64 (((claimsOfKind all subject "harness.usage").filter
        (planDrops H registry sealed).keeps).filter (spendsOn incarnation)) =
      spent asF64 ((claimsOfKind all subject "harness.usage").filter (spendsOn incarnation)) := by
  refine Spend.ext ?_ (TreeMap.ext_get fun key => ?_) ?_
  · rw [cumulative_spent, cumulative_spent, champion_remaining hall subject htyped]
  · rw [rollups_spent, rollups_spent, filter_comm (spendsOn incarnation), getLast?_thin]
    · exact (hall.nodup.filter _).filter _
    · intro claim hclaim hseries hgone
      obtain ⟨hclaim, hspends⟩ := mem_filter.mp hclaim
      obtain ⟨hrollup, hkey⟩ := Bool.and_eq_true_iff.mp hseries
      obtain ⟨i, slot, pos, h⟩ := exists_gone hall hclaim hgone
      obtain ⟨j, hbefore, hj, htotal⟩ := h.exists_counting htyped
      refine ⟨sealed.row j, hbefore.filter hspends
        (h.spendsOn htyped hspends hj htotal), ?_⟩
      rw [hasSemantics_of_slot h.kind_eq h.slot_eq hj, rollupKey_of_slot h.kind_eq h.slot_eq hj
        (h.typed htyped) (htyped j (h.member_kind hj)) hrollup]
      exact hseries
  · rw [responses_spent, responses_spent, filter_comm (spendsOn incarnation), filter_thin]
    intro claim hclaim hresponse
    obtain ⟨hheld, -, hkind⟩ := mem_claimsOfKind.mp (mem_filter.mp hclaim).1
    refine keeps_of_slotOf hall hheld (Option.eq_none_iff_forall_ne_some.mpr fun slot hslot => ?_)
    rw [isResponse_of_slot hkind hslot] at hresponse
    cases hresponse

theorem usageSummary_remaining :
    usageSummary asF64 none (claimsOfKind ((planDrops H registry sealed).remaining all) subject
        "harness.usage") =
      usageSummary asF64 none (claimsOfKind all subject "harness.usage") := by
  have hlast : (claimsOfKind ((planDrops H registry sealed).remaining all) subject
      "harness.usage").getLast? = (claimsOfKind all subject "harness.usage").getLast? :=
    getLast?_remaining hall subject _
  have hnodup : (claimsOfKind all subject "harness.usage").Nodup := hall.nodup.filter _
  rw [claimsOfKind_remaining] at hlast ⊢
  refine usageSummary_thin asF64 ?_ ?_ (fun incarnation => ?_)
    (spent_remaining hall subject htyped asF64)
  · rw [← List.getLast?_eq_none_iff, hlast, List.getLast?_eq_none_iff]
  · refine getLast?_thin hnodup fun claim hclaim hcontext hgone => ?_
    obtain ⟨i, slot, pos, h⟩ := exists_gone hall hclaim hgone
    obtain ⟨j, hbefore, hj, -⟩ := h.exists_counting htyped
    refine ⟨sealed.row j, hbefore, ?_⟩
    rwa [hasSemantics_of_slot h.kind_eq h.slot_eq hj]
  · rw [← List.getLast?_eq_none_iff, ← List.getLast?_eq_none_iff, getLast?_thin hnodup]
    intro claim hclaim hspends hgone
    obtain ⟨i, slot, pos, h⟩ := exists_gone hall hclaim hgone
    obtain ⟨j, hbefore, hj, htotal⟩ := h.exists_counting htyped
    exact ⟨sealed.row j, hbefore, h.spendsOn htyped hspends hj htotal⟩

end

/-! ### All answers -/

/-- **Answers stay.**  Whatever else the store holds, and wherever in canonical order, it answers
from the claims that remain what it answers from all, if the sealed usage is typed. -/
theorem subjectAnswers_remaining {F : Type*} [Add F] [Zero F] (asF64 : Json → Option F)
    (H : Hasher) (registry : Registry) (sealed : SealedSet) (all : List ClaimRecord)
    (hall : sealed.HeldIn all)
    (htyped : ∀ i, (sealed.row i).kind = "harness.usage" → UsageTyped (sealed.row i))
    (subject : String) :
    subjectAnswers asF64 ((planDrops H registry sealed).remaining all) subject =
      subjectAnswers asF64 all subject := by
  simp only [subjectAnswers, kindsOf_remaining hall, incarnationAnswers_remaining hall,
    usageSummary_remaining hall subject htyped, loopAnswers_remaining hall,
    deferralAnswers_remaining hall, getLast?_remaining hall]

/-! ### Readings without a total -/

/-- A usage claim of the incarnation `run/1`. -/
def usageClaim (id semantics : String) (total : Json) : ClaimRecord where
  id := id
  batchId := "batch/a"
  subject := "agent/a"
  kind := "harness.usage"
  origin := "a"
  actor := none
  operationId := none
  body := .obj [("fields", .obj [("semantics", .str semantics), ("driver", .str "codex"),
    ("incarnation_id", .str "run/1"), ("total_tokens", total)])]
  predecessors := []
  acceptedAtUnixMs := 10

def usageSchema : Registry where
  claim kind := if kind = "harness.usage" then
    some ⟨.append, {"semantics", "driver", "incarnation_id", "total_tokens"}⟩ else none

/-- A response of fifty tokens and two cumulative readings, in three envelopes of the writer. -/
def threeUsages (first second : Json) : SealedSet where
  cutUnixMs := 100
  envelopes := [⟨⟨"a", 1, "h1"⟩, 10, 1⟩, ⟨⟨"a", 2, "h2"⟩, 10, 1⟩, ⟨⟨"a", 3, "h3"⟩, 10, 1⟩]
  size := 3
  claims := ![⟨usageClaim "c1" "response" (.num (.nat 50)), ⟨"a", 1, "h1"⟩, true, false⟩,
    ⟨usageClaim "c2" "session_cumulative" first, ⟨"a", 2, "h2"⟩, true, false⟩,
    ⟨usageClaim "c3" "session_cumulative" second, ⟨"a", 3, "h3"⟩, true, false⟩]
  envelopeTombstones := []
  claimTombstones := []
  distinct := by decide

def threeUsageRows (first second : Json) : List ClaimRecord :=
  [usageClaim "c1" "response" (.num (.nat 50)), usageClaim "c2" "session_cumulative" first,
    usageClaim "c3" "session_cumulative" second]

theorem first_eq_finRange {n : ℕ} {row : Fin n → ClaimRecord}
    (h : Function.Injective fun i => (row i).id) : first row = List.finRange n :=
  filter_eq_self.mpr fun _ _ => decide_eq_true fun _ hlt heq => hlt.ne (h heq)

theorem threeUsages_heldIn (first second : Json) :
    (threeUsages first second).HeldIn (threeUsageRows first second) where
  distinct := by simp [threeUsageRows, usageClaim]
  rows i := by
    change Fin 3 at i
    fin_cases i <;> simp [SealedSet.row, threeUsages, threeUsageRows]
  order := by
    have hinj : Function.Injective fun i => ((threeUsages first second).row i).id := by
      intro i j heq
      change Fin 3 at i j
      fin_cases i <;> fin_cases j <;>
        first | rfl | exact absurd heq (by simp [SealedSet.row, threeUsages, usageClaim])
    rw [first_eq_finRange hinj]
    exact List.Sublist.refl _

theorem usageClaim_typed (id semantics : String) (total : ℕ) :
    UsageTyped (usageClaim id semantics (.num (.nat total))) where
  reading _ := by
    refine ⟨rfl, fun value hvalue => ?_⟩
    obtain rfl : Json.num (.nat total) = value := Option.some.inj hvalue
    simp [Json.asU64]
  rollup _ := by
    refine ⟨rfl, fun name hname value hvalue => ?_⟩
    have habsent : ∀ name ∈ rollupNames,
        field (usageClaim id semantics (.num (.nat total))) name = none := by
      simp [rollupNames, field, fields, usageClaim, Json.get, Json.asObject, List.lookup_cons]
    rw [habsent name hname] at hvalue
    cases hvalue

theorem subjectAnswers_remaining_readings :
    let sealed := threeUsages (.num (.nat 30)) (.num (.nat 40))
    let all := threeUsageRows (.num (.nat 30)) (.num (.nat 40))
    let remaining := (planDrops Replication.transcript usageSchema sealed).remaining all
    remaining.map ClaimRecord.id = ["c1", "c3"] ∧
      subjectAnswers (F := ℕ) (fun _ => none) remaining "agent/a" =
        subjectAnswers (fun _ => none) all "agent/a" := by
  refine ⟨by decide +kernel, subjectAnswers_remaining _ _ _ _ _ (threeUsages_heldIn _ _) ?_ _⟩
  intro i _
  change Fin 3 at i
  fin_cases i
  · exact usageClaim_typed _ _ 50
  · exact usageClaim_typed _ _ 30
  · exact usageClaim_typed _ _ 40

/-- The tokens that a store answers for the agent. -/
def agentTokens (claims : List ClaimRecord) : Option ℕ :=
  (subjectAnswers (F := ℕ) (fun _ => none) claims "agent/a").usage.join.map
    UsageSummary.totalTokens

/-- **A reading without a total.**  A reading of zero is dropped for a later one whose total is
`null`, which usage passes over, so the store falls back to the sum of the responses. -/
theorem untyped_reading : let sealed := threeUsages (.num (.nat 0)) .null
    let all := threeUsageRows (.num (.nat 0)) .null
    sealed.HeldIn all ∧ agentTokens all = some 0 ∧
      agentTokens ((planDrops Replication.transcript usageSchema sealed).remaining all) =
        some 50 := by
  refine ⟨threeUsages_heldIn _ _, ?_, ?_⟩
  · decide +kernel
  · decide +kernel

end SmallTalk.Checkpoint
