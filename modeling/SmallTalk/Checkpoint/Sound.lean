import SmallTalk.Checkpoint.Plan

/-!
# Checkpoint — what a plan promises

The marks that `planDrops` settles on leave every step of its loop idle. Each step's idleness is
read off once (`witnessSlot_idle`, `wholeGroup_idle`, `wholeEnvelope_idle`); the marks only shrink,
so what the rules and the guards say of a marked claim still holds of a dropped one.

* `planDrops_sound`: what a plan drops.
-/

namespace SmallTalk.Checkpoint

open Replication (Hasher)
open Clearing List Sorted

/-! ### Indexes -/

section

variable {n : ℕ} {registry : Registry} {row : Fin n → ClaimRecord} {d : Finset (Fin n)}
  {i j : Fin n} {members : List (Fin n)}

theorem first_sorted (row : Fin n → ClaimRecord) : (first row).Pairwise (· < ·) :=
  (pairwise_lt_finRange _).filter _

/-- A claim that occurs once is found at one index. -/
theorem eq_of_occurrences (hone : occurrences row (row i).id ≤ 1) (hid : (row j).id = (row i).id) :
    j = i := by
  rw [occurrences, countP_eq_length_filter] at hone
  have hcard := (toFinset_card_le _).trans hone
  refine Finset.card_le_one.mp hcard j ?_ i ?_
  · simp [hid]
  · simp

/-! ### Idle steps -/

/-- The kept members of a slot. -/
def kept (d : Finset (Fin n)) (members : List (Fin n)) : List (Fin n) := members.filter (· ∉ d)

/-- The names of the fields that the kept members set. -/
def keptFields (row : Fin n → ClaimRecord) (d : Finset (Fin n)) (members : List (Fin n)) :
    Finset String :=
  ((kept d members).flatMap fun i => fieldNames (row i)).toFinset

theorem foldr_witnessClaim_idle
    (h : (members.foldr (witnessClaim registry row) (⟨d, false⟩, ∅, 0)).1 = ⟨d, false⟩) :
    members.foldr (witnessClaim registry row) (⟨d, false⟩, ∅, 0) =
        (⟨d, false⟩, keptFields row d members, (kept d members).length) ∧
      ∀ front i back, members = front ++ i :: back → i ∈ d →
        witnessed registry (row i) (keptFields row d back) (kept d back).length = true := by
  induction members with
  | nil =>
    refine ⟨rfl, fun front i back hsplit => ?_⟩
    simp at hsplit
  | cons i members ih =>
    -- The later members change nothing, or this one could not end where they began.
    have hlater := foldr_witnessClaim_advances registry row members (⟨d, false⟩, ∅, 0)
    have hstep := witnessClaim_advances registry row i
      (members.foldr (witnessClaim registry row) (⟨d, false⟩, ∅, 0))
    rw [foldr_cons] at h
    rw [h] at hstep
    obtain ⟨hstate, hwitness⟩ := ih (hlater.antisymm hstep)
    rw [hstate] at h
    rw [foldr_cons, hstate]
    by_cases hi : i ∈ d
    · have hw : witnessed registry (row i) (keptFields row d members)
          (kept d members).length = true := by
        by_contra hw
        rw [witnessClaim_cleared hi (Bool.eq_false_iff.mpr hw)] at h
        exact Bool.noConfusion (congrArg Pass.changed h)
      refine ⟨by rw [witnessClaim_witnessed hi hw]; simp [kept, keptFields, hi], ?_⟩
      rintro (_ | ⟨x, front⟩) j back hsplit hj
      · obtain ⟨rfl, rfl⟩ := List.cons.inj hsplit
        exact hw
      · exact hwitness front j back (List.cons.inj hsplit).2 hj
    · refine ⟨by rw [witnessClaim_unmarked hi]; simp [kept, keptFields, hi, Finset.union_comm], ?_⟩
      rintro (_ | ⟨x, front⟩) j back hsplit hj
      · obtain ⟨rfl, -⟩ := List.cons.inj hsplit
        exact absurd hj hi
      · exact hwitness front j back (List.cons.inj hsplit).2 hj

/-- **An idle slot**: each dropped member is witnessed by the kept ones after it. -/
theorem witnessSlot_idle (h : (witnessSlot registry row members).Idle d) {front back : List (Fin n)}
    (hsplit : members = front ++ i :: back) (hi : i ∈ d) :
    witnessed registry (row i) (keptFields row d back) (kept d back).length = true :=
  (foldr_witnessClaim_idle h).2 front i back hsplit hi

theorem wholeGroup_idle (h : (wholeGroup members).Idle d) (hi : i ∈ members) (hj : j ∈ members)
    (hd : i ∈ d) : j ∈ d := by
  have hmixed := Step.idle_clear.mp h
  simp only [Bool.and_eq_false_iff, any_eq_false, decide_eq_true_eq, not_not] at hmixed
  rcases hmixed with hnone | hall
  · exact absurd hd (hnone i hi)
  · exact hall j hj

theorem wholeEnvelope_idle {records : EnvelopeKey → Option ℕ} {group : EnvelopeKey × List (Fin n)}
    (h : (wholeEnvelope records group).Idle d) (hi : i ∈ group.2) (hd : i ∈ d) :
    records group.1 = some group.2.length := by
  have hshort := Step.idle_clear.mp h
  simp only [Bool.and_eq_false_iff, any_eq_false, decide_eq_true_eq, decide_eq_false_iff_not,
    not_not] at hshort
  exact hshort.resolve_right fun hnone => hnone i hi hd

/-- A marked claim is a first occurrence in a slot. -/
theorem ruled_slot {cut : ℕ} (h : i ∈ ruled row cut) : i ∈ first row ∧ (slotOf (row i)).isSome := by
  obtain ⟨slot, hslot, hi⟩ := mem_flatMap.mp (mem_toFinset.mp h)
  obtain ⟨entry, hentry, rfl⟩ := mem_map.mp hi
  have hmember : entry.1 ∈ slot.2 := fst_mem_of_mem_zipIdx (mem_filter.mp hentry).1
  obtain ⟨hfirst, hkey⟩ := (mem_group hslot).mp hmember
  exact ⟨hfirst, Option.isSome_iff_exists.mpr ⟨_, hkey⟩⟩

end

/-! ### Dropped claims -/

namespace SealedSet

variable {registry : Registry} {sealed : SealedSet} {i j : sealed.Index}

theorem dropped_marked (h : i ∈ sealed.dropped registry) : i ∈ sealed.marked registry :=
  settle_subset _ _ h

theorem dropped_slot (h : i ∈ sealed.dropped registry) :
    i ∈ first sealed.row ∧ (slotOf (sealed.row i)).isSome :=
  ruled_slot (Finset.mem_filter.mp (dropped_marked h)).1

/-- The loop has nothing left to do. -/
theorem dropped_idle (registry : Registry) (sealed : SealedSet) : (∀ slot ∈ slots sealed.row,
        (witnessSlot registry sealed.row slot.2).Idle (sealed.dropped registry)) ∧
      (∀ group ∈ operations sealed.row, (wholeGroup group.2).Idle (sealed.dropped registry)) ∧
      ∀ group ∈ envelopeClaims sealed.envelope,
        (wholeGroup group.2).Idle (sealed.dropped registry) ∧
          (wholeEnvelope sealed.records group).Idle (sealed.dropped registry) := by
  have h := settle_idle (round registry sealed.row sealed.envelope sealed.records)
    (sealed.marked registry)
  simp only [round, Step.idle_andThen, Step.idle_each, forall_mem_append, forall_mem_map] at h
  obtain ⟨⟨hslots, hoperations, hgroups⟩, henvelopes⟩ := h
  exact ⟨hslots, hoperations, fun group hg => ⟨hgroups group hg, henvelopes group hg⟩⟩

/-- How many sealed claims an envelope has. -/
def claimsOf (sealed : SealedSet) (key : EnvelopeKey) : ℕ :=
  (List.finRange sealed.size).countP fun i => sealed.envelope i = key

theorem records_eq_some {key : EnvelopeKey} {n : ℕ} (h : sealed.records key = some n) :
    ∃ e ∈ sealed.envelopes, e.key = key ∧ e.records = n := by
  obtain ⟨e, hfind, hn⟩ := Option.map_eq_some_iff.mp h
  exact ⟨e, mem_of_find?_eq_some hfind, by simpa using find?_some hfind, hn⟩

/-- A dropped claim's envelope is sealed, and its sealed claims are all its records. -/
theorem dropped_envelope (h : i ∈ sealed.dropped registry) :
    ∃ e ∈ sealed.envelopes, e.key = sealed.envelope i ∧ e.records = sealed.claimsOf e.key := by
  obtain ⟨group, hgroup, hkey, hmember⟩ := exists_group
    (fun j => some (sealed.envelope j)) (mem_finRange i) rfl
  obtain ⟨e, he, hkey', hrecords⟩ := records_eq_some
    (wholeEnvelope_idle ((dropped_idle registry sealed).2.2 group hgroup).2 hmember h)
  refine ⟨e, he, hkey'.trans hkey, ?_⟩
  rw [hrecords, claimsOf, hkey']
  exact group_length hgroup _ fun j => by simp

/-- A sequence below the newest has a later one of the same writer. -/
theorem exists_newer {e : SealedEnvelope} (he : e ∈ sealed.envelopes)
    (h : sealed.newestEnvelope e.key.writer ≠ some e.key.sequence) :
    ∃ e' ∈ sealed.envelopes, e'.key.writer = e.key.writer ∧ e.key.sequence < e'.key.sequence := by
  by_contra hnone
  refine h ?_
  have hmem : e ∈ sealed.envelopes.filter fun envelope => envelope.key.writer = e.key.writer :=
    mem_filter.mpr ⟨he, by simp⟩
  have hall : ∀ e' ∈ sealed.envelopes.filter fun envelope => envelope.key.writer = e.key.writer,
      e'.key.sequence ≤ e.key.sequence := by
    intro e' he'
    obtain ⟨he', hwriter⟩ := mem_filter.mp he'
    exact not_lt.mp fun hlt => hnone ⟨e', he', of_decide_eq_true hwriter, hlt⟩
  unfold newestEnvelope
  split
  case h_1 hnil => exact absurd hmem (hnil ▸ not_mem_nil)
  case h_2 =>
    refine congrArg some (le_antisymm (foldr_max_le_iff.mpr ⟨Nat.zero_le _, ?_⟩) ?_)
    · exact forall_mem_map.mpr hall
    · exact (foldr_max_le_iff.mp le_rfl).2 _ (mem_map_of_mem hmem)

theorem dropped_of_envelope (hij : sealed.envelope i = sealed.envelope j)
    (h : i ∈ sealed.dropped registry) : j ∈ sealed.dropped registry := by
  obtain ⟨group, hgroup, hkey, hmember⟩ := exists_group
    (fun j => some (sealed.envelope j)) (mem_finRange i) (congrArg some hij)
  exact wholeGroup_idle ((dropped_idle registry sealed).2.2 group hgroup).1 hmember
    ((mem_group hgroup).mpr ⟨mem_finRange j, congrArg some hkey.symm⟩) h

theorem dropped_of_operation {operation : String} (hi : (sealed.row i).operationId = some operation)
    (hj : (sealed.row j).operationId = some operation) (h : i ∈ sealed.dropped registry) :
    j ∈ sealed.dropped registry := by
  obtain ⟨group, hgroup, rfl, hmember⟩ := exists_group
    (fun j => (sealed.row j).operationId) (mem_finRange i) hi
  exact wholeGroup_idle ((dropped_idle registry sealed).2.1 group hgroup) hmember
    ((mem_group hgroup).mpr ⟨mem_finRange j, hj⟩) h

end SealedSet

/-! ### What a plan promises -/

/-- The plan drops the claim: one of its tombstones has the claim's id. -/
def DropPlan.Drops {H : Hasher} (plan : DropPlan H) (claim : ClaimRecord) : Prop :=
  ∃ t ∈ plan.claims, t.id = claim.id

/-- Nothing outside its slot needs the claim. -/
structure Unguarded (registry : Registry) (sealed : SealedSet) (i : sealed.Index) : Prop where
  notPerson : ∀ actor, (sealed.row i).actor = some actor → startsWith "person/" actor = false
  cardinality : ∃ spec, registry.claim (sealed.row i).kind = some spec ∧
    (spec.cardinality = .append ∨ spec.cardinality = .stateTransition)
  valid : (sealed.claims i).valid = true
  unprotected : (sealed.claims i).isProtected = false
  once : occurrences sealed.row (sealed.row i).id = 1
  notEvidence : ∀ j, (sealed.row i).id ∉ evidence (sealed.row j)
  notInput : ∀ j, (sealed.row i).id ∉ runInputs (sealed.row j)
  slot : (slotOf (sealed.row i)).isSome
  notNewest : ∃ e ∈ sealed.envelopes,
    e.key.writer = (sealed.envelope i).writer ∧ (sealed.envelope i).sequence < e.key.sequence

/-- A later claim of the slot that the plan keeps. -/
structure LaterKept {H : Hasher} (plan : DropPlan H) (sealed : SealedSet) (i j : sealed.Index) :
    Prop where
  later : i < j
  first : j ∈ first sealed.row
  slot : slotOf (sealed.row j) = slotOf (sealed.row i)
  kept : ¬ plan.Drops (sealed.row j)

/-- Later kept claims of its slot replace the claim: together they set every field it sets, unless
its kind is a state transition and it sets only schema fields. -/
structure Replaced {H : Hasher} (registry : Registry) (plan : DropPlan H) (sealed : SealedSet)
    (i : sealed.Index) : Prop where
  later : ∃ j, LaterKept plan sealed i j
  fields :
    (∀ name ∈ fieldNames (sealed.row i),
      ∃ j, LaterKept plan sealed i j ∧ name ∈ fieldNames (sealed.row j)) ∨
    ∃ spec, registry.claim (sealed.row i).kind = some spec ∧
      spec.cardinality = .stateTransition ∧ ∀ name ∈ fieldNames (sealed.row i), name ∈ spec.fields

section

variable {H : Hasher} {registry : Registry} {sealed : SealedSet} {i j : sealed.Index}

theorem unguarded_of_dropped (h : i ∈ sealed.dropped registry) : Unguarded registry sealed i := by
  have hguard := (Finset.mem_filter.mp (SealedSet.dropped_marked h)).2
  simp only [SealedSet.guarded, Bool.or_eq_false_iff, Bool.not_eq_false', decide_eq_false_iff_not,
    not_lt] at hguard
  obtain ⟨⟨⟨⟨⟨⟨hperson, hcardinality⟩, hvalid⟩, hprotected⟩, honce⟩, hcited⟩, hnewest⟩ := hguard
  obtain ⟨e, he, hkey, -⟩ := SealedSet.dropped_envelope h
  rw [← hkey] at hnewest
  have hcited' : ∀ j, (sealed.row i).id ∉ evidence (sealed.row j) ++ runInputs (sealed.row j) :=
    fun j hmem => hcited (mem_flatMap.mpr ⟨j, mem_finRange j, hmem⟩)
  refine {
    notPerson := fun actor hactor => by simpa [hactor] using hperson
    cardinality := ?_
    valid := hvalid
    unprotected := hprotected
    once := ?_
    notEvidence := fun j hmem => hcited' j (mem_append_left _ hmem)
    notInput := fun j hmem => hcited' j (mem_append_right _ hmem)
    slot := (SealedSet.dropped_slot h).2
    notNewest := hkey ▸ SealedSet.exists_newer he hnewest }
  · cases hspec : registry.claim (sealed.row i).kind with
    | none => simp [hspec] at hcardinality
    | some spec => exact ⟨spec, rfl, by simpa [hspec] using hcardinality⟩
  · refine le_antisymm honce (countP_pos_iff.mpr ?_)
    exact ⟨i, mem_finRange i, by simp⟩

theorem mem_planDrops_claims {t : ClaimTombstone} : t ∈ (planDrops H registry sealed).claims ↔
      ∃ k ∈ first sealed.row, k ∈ sealed.dropped registry ∧
        claimTombstone (sealed.claims k) = t := by
  simp only [planDrops, mem_sortedSet, mem_map, mem_filter, decide_eq_true_eq, and_assoc]

/-- **The tombstones** are those of the dropped claims. -/
theorem drops_iff :
    (planDrops H registry sealed).Drops (sealed.row i) ↔ i ∈ sealed.dropped registry := by
  constructor
  · rintro ⟨t, ht, hid⟩
    obtain ⟨k, -, hk, rfl⟩ := mem_planDrops_claims.mp ht
    rwa [eq_of_occurrences (unguarded_of_dropped hk).once.le hid.symm]
  · intro h
    exact ⟨_, mem_planDrops_claims.mpr ⟨i, (SealedSet.dropped_slot h).1, h, rfl⟩, rfl⟩

theorem replaced_of_dropped (h : i ∈ sealed.dropped registry) :
    Replaced registry (planDrops H registry sealed) sealed i := by
  obtain ⟨hfirst, hslot⟩ := SealedSet.dropped_slot h
  obtain ⟨slot, hslot⟩ := Option.isSome_iff_exists.mp hslot
  obtain ⟨group, hgroup, rfl, hmember⟩ := exists_group (fun j => slotOf (sealed.row j)) hfirst hslot
  obtain ⟨front, back, hsplit⟩ := append_of_mem hmember
  have hw := witnessSlot_idle ((SealedSet.dropped_idle registry sealed).1 _ hgroup) hsplit h
  -- The kept claims after this one in its slot.
  have hkept : ∀ j ∈ kept (sealed.dropped registry) back,
      LaterKept (planDrops H registry sealed) sealed i j := by
    intro j hj
    obtain ⟨hback, hkept⟩ := mem_filter.mp hj
    have hsorted := (first_sorted sealed.row).sublist (group_sublist hgroup)
    obtain ⟨hfirstj, hslotj⟩ := (mem_group hgroup).mp (hsplit ▸ mem_append_right _
      (mem_cons_of_mem _ hback))
    rw [hsplit] at hsorted
    exact ⟨(pairwise_cons.mp (pairwise_append.mp hsorted).2.1).1 j hback, hfirstj,
      hslotj.trans hslot.symm, fun hdrop => of_decide_eq_true hkept (drops_iff.mp hdrop)⟩
  have hlater : 0 < (kept (sealed.dropped registry) back).length := by
    by_contra hnone
    simp [witnessed, hnone] at hw
  obtain ⟨j, hj⟩ := exists_mem_of_length_pos hlater
  refine ⟨⟨j, hkept j hj⟩, ?_⟩
  by_cases hspec : ∃ spec ∈ registry.claim (sealed.row i).kind,
      spec.cardinality = .stateTransition ∧ ∀ name ∈ fieldNames (sealed.row i), name ∈ spec.fields
  · obtain ⟨spec, hkind, hspec⟩ := hspec
    exact .inr ⟨spec, hkind, hspec⟩
  · refine .inl fun name hname => ?_
    simp only [witnessed, hspec, and_false, if_false, decide_eq_true_eq] at hw
    obtain ⟨j, hj, hset⟩ := mem_flatMap.mp (mem_toFinset.mp (hw.2 name hname))
    exact ⟨j, hkept j hj, hset⟩

/-- An envelope's tombstone is in the plan when a claim of the envelope is dropped. -/
theorem envelopeTombstone_mem_iff {e : SealedEnvelope} (he : e ∈ sealed.envelopes) :
    envelopeTombstone e ∈ (planDrops H registry sealed).envelopes ↔
      ∃ i ∈ sealed.dropped registry, sealed.envelope i = e.key := by
  simp only [planDrops, mem_sortedSet, mem_map, mem_filter, decide_eq_true_eq, all_eq_true]
  constructor
  · rintro ⟨e', ⟨-, group, ⟨hgroup, hall⟩, hkey⟩, hsame⟩
    obtain ⟨i, hi⟩ := group_nonempty hgroup
    refine ⟨i, hall i hi, ?_⟩
    rw [← envelopeTombstone_key hsame, ← hkey]
    exact Option.some.inj ((mem_group hgroup).mp hi).2
  · rintro ⟨i, hi, hkey⟩
    obtain ⟨group, hgroup, hkey', hmember⟩ := exists_group
      (fun j => some (sealed.envelope j)) (mem_finRange i) (congrArg some hkey)
    refine ⟨e, ⟨he, group, ⟨hgroup, fun j hj => ?_⟩, hkey'⟩, rfl⟩
    exact wholeGroup_idle ((SealedSet.dropped_idle registry sealed).2.2 group hgroup).1 hmember hj
      hi

end

/-- What a plan for a sealed set promises. -/
structure DropPlan.Sound {H : Hasher} (plan : DropPlan H) (registry : Registry)
    (sealed : SealedSet) : Prop where
  unguarded : ∀ i, plan.Drops (sealed.row i) → Unguarded registry sealed i
  replaced : ∀ i, plan.Drops (sealed.row i) → Replaced registry plan sealed i
  wholeEnvelope : ∀ i j, sealed.envelope i = sealed.envelope j →
    (plan.Drops (sealed.row i) ↔ plan.Drops (sealed.row j))
  wholeOperation : ∀ i j operation, (sealed.row i).operationId = some operation →
    (sealed.row j).operationId = some operation →
      (plan.Drops (sealed.row i) ↔ plan.Drops (sealed.row j))
  recordsDiffer : ∀ e ∈ sealed.envelopes, e.records ≠ sealed.claimsOf e.key →
    ∀ i, sealed.envelope i = e.key → ¬ plan.Drops (sealed.row i)
  envelopes : ∀ e ∈ sealed.envelopes, envelopeTombstone e ∈ plan.envelopes ↔
    ∃ i, sealed.envelope i = e.key ∧ plan.Drops (sealed.row i)

/-- **What a plan drops.**  Every dropped claim is unguarded and replaced by later kept claims of
its slot; envelopes and operations are dropped whole or kept whole, an envelope only with all its
records. -/
theorem planDrops_sound (H : Hasher) (registry : Registry) (sealed : SealedSet) :
    (planDrops H registry sealed).Sound registry sealed where
  unguarded i h := unguarded_of_dropped (drops_iff.mp h)
  replaced i h := replaced_of_dropped (drops_iff.mp h)
  wholeEnvelope i j hsame := by
    rw [drops_iff, drops_iff]
    exact ⟨SealedSet.dropped_of_envelope hsame, SealedSet.dropped_of_envelope hsame.symm⟩
  wholeOperation i j operation hi hj := by
    rw [drops_iff, drops_iff]
    exact ⟨SealedSet.dropped_of_operation hi hj, SealedSet.dropped_of_operation hj hi⟩
  recordsDiffer e he hdiffer i hkey hdrop := by
    obtain ⟨e', he', hkey', hrecords⟩ := SealedSet.dropped_envelope (drops_iff.mp hdrop)
    -- The store lists an envelope once, so the counted envelope is this one.
    have heq : e' = e := inj_on_of_nodup_map sealed.distinct he' he (hkey'.trans hkey)
    exact hdiffer (heq ▸ hrecords)
  envelopes e he := by
    rw [envelopeTombstone_mem_iff he]
    constructor
    · rintro ⟨i, hi, hkey⟩
      exact ⟨i, hkey, drops_iff.mpr hi⟩
    · rintro ⟨i, hkey, hdrop⟩
      exact ⟨i, drops_iff.mp hdrop, hkey⟩

/-! ### A plan that drops -/

/-- A daemon's report of the code `full`. -/
def diagnostic (id : String) : ClaimRecord where
  id := id
  batchId := "batch/a"
  subject := "daemon/a"
  kind := "daemon.diagnostic"
  origin := "a"
  actor := none
  operationId := none
  body := .obj [("fields", .obj [("code", .str "full")])]
  predecessors := []
  acceptedAtUnixMs := 10

def diagnosticSchema : Registry where
  claim kind := if kind = "daemon.diagnostic" then some ⟨.append, {"code"}⟩ else none

/-- The report twice, in two envelopes of the daemon. -/
def twoReports : SealedSet := twoSealed 100 (diagnostic "c1") (diagnostic "c2")

-- The first report is dropped, with its envelope.
example : let plan := planDrops Replication.transcript diagnosticSchema twoReports
    plan.claims.map ClaimTombstone.id = ["c1"] ∧
      plan.envelopes.map EnvelopeTombstone.sequence = [1] := by
  decide +kernel

end SmallTalk.Checkpoint
