import SmallTalk.Checkpoint.Limits

/-!
# Checkpoint — usage over a period

A rollup series is cumulative, so what was spent in a period is the difference between two of its
snapshots: the one measured last by the start of the period, and the one measured last by its end
(`usagePeriodRows`). The drop rule keeps such ends for periods of whole hours: of each hour the
snapshot that stands last in canonical order.

The reader goes by the time a snapshot was measured at, and has no other time for it. The rule goes
by the order of the snapshots, and takes the time of acceptance where none was measured. Both find
the same ends when the last snapshot of each hour is also measured last.

* `usagePeriodRows_remaining`: the rows stay when the last snapshot of each hour speaks for the
  others.
-/

namespace SmallTalk.Checkpoint

open Replication (Hasher)
open List Sorted Thinning

/-! ### Snapshots -/

def bucketNames : List String :=
  ["total_tokens", "input_tokens", "output_tokens", "cache_write_tokens", "cache_write_1h_tokens",
    "cached_tokens", "cost_microusd", "reported_cost_microusd", "unpriced_tokens"]

/-- `buckets` has a number for each of `bucketNames`. -/
structure Snapshot where
  measuredAt : ℕ
  buckets : List ℕ
  deriving DecidableEq

def Snapshot.total (snapshot : Snapshot) : ℕ := snapshot.buckets.headD 0

/-- A series that has no snapshot yet. -/
def Snapshot.zero : Snapshot := ⟨0, bucketNames.map fun _ => 0⟩

section

variable (claim : ClaimRecord)

def isRollup : Bool :=
  claim.kind = "harness.usage" ∧ fieldStr claim "semantics" = some "response_rollup"

def periodNumber (name : String) : ℕ := ((field claim name).bind Json.asU64).getD 0

def periodText (name : String) : String := (fieldStr claim name).getD ""

/-- When the reader takes a snapshot to be measured. -/
def measuredAt : ℕ := periodNumber claim "observed_at_unix_ms"

def snapshot : Snapshot where
  measuredAt := measuredAt claim
  buckets :=
    let buckets := bucketNames.map (periodNumber claim)
    -- A rollup from before costs were recorded priced nothing: its tokens are unpriced.
    if field claim "cost_microusd" = none then buckets.set 8 (buckets.headD 0) else buckets

/-- The agent, its incarnation, and what tells its series apart. -/
def periodKey : List String :=
  claim.subject :: ("incarnation_id" :: rollupNames).map (periodText claim)

end

/-! ### The reader -/

/-- The ends of a series. -/
structure PeriodGroup where
  baseline : Option Snapshot
  latest : Option Snapshot
  pricing : String
  deriving DecidableEq

structure PeriodRow where
  agent : String
  missionRun : String
  step : String
  model : String
  account : String
  host : String
  pricing : String
  buckets : List ℕ
  deriving DecidableEq

def PeriodRow.total (row : PeriodRow) : ℕ := row.buckets.headD 0

variable (sinceMs untilMs : ℕ)

/-- A snapshot takes the place of one that was not measured after it. -/
def PeriodGroup.note (group : PeriodGroup) (claim : ClaimRecord) : PeriodGroup :=
  let replaces (previous : Option Snapshot) : Bool :=
    previous.all fun previous => previous.measuredAt ≤ measuredAt claim
  if measuredAt claim ≤ sinceMs then
    if replaces group.baseline then { group with baseline := some (snapshot claim) } else group
  else if replaces group.latest then
    { group with latest := some (snapshot claim), pricing := periodText claim "pricing" }
  else group

/-- The rollups of a period, and of the time before it. -/
def periodRollups (claims : List ClaimRecord) : List ClaimRecord :=
  claims.filter fun claim => isRollup claim && decide (measuredAt claim ≤ untilMs)

def periodGroups (claims : List ClaimRecord) : TreeMap (List String) PeriodGroup :=
  (periodRollups untilMs claims).foldl (fun groups claim =>
    groups.insert (periodKey claim)
      (((groups.get (periodKey claim)).getD ⟨none, none, ""⟩).note sinceMs claim)) .empty

/-- The row of a series, when anything was spent. -/
def periodRow (key : List String) (group : PeriodGroup) : Option PeriodRow :=
  group.latest.bind fun latest =>
    -- A series that went backwards restarted from zero.
    let baseline := (group.baseline.filter (·.total ≤ latest.total)).getD .zero
    let text (index : ℕ) : String := key.getD index ""
    let row : PeriodRow :=
      { agent := text 0, missionRun := text 4, step := text 5, model := text 2, account := text 3,
        host := text 6, pricing := group.pricing,
        buckets := List.zipWith (· - ·) latest.buckets baseline.buckets }
    if row.total = 0 then none else some row

/-- `usage_period_rows`, of claims in canonical order. -/
def usagePeriodRows (claims : List ClaimRecord) : List PeriodRow :=
  ((periodGroups sinceMs untilMs claims).entries.filterMap fun (key, group) =>
    periodRow key group).insertionSort fun a b => b.total ≤ a.total

/-! ### The ends of a series -/

/-- The rollups of one series. -/
def seriesOf (key : List String) (claims : List ClaimRecord) : List ClaimRecord :=
  (periodRollups untilMs claims).filter fun claim => periodKey claim = key

/-- The ends of a series, as champions. -/
def groupOf (claims : List ClaimRecord) : PeriodGroup :=
  let latest := champion measuredAt (claims.filter fun claim => sinceMs < measuredAt claim)
  { baseline := (champion measuredAt (claims.filter fun claim => measuredAt claim ≤ sinceMs)).map
      snapshot
    latest := latest.map snapshot
    pricing := (latest.map (periodText · "pricing")).getD "" }

variable {sinceMs untilMs}

theorem seriesOf_eq (key : List String) (claims : List ClaimRecord) :
    seriesOf untilMs key claims = claims.filter fun claim =>
      isRollup claim ∧ measuredAt claim ≤ untilMs ∧ periodKey claim = key := by
  rw [seriesOf, periodRollups, filter_filter]
  refine filter_congr fun claim _ => ?_
  rw [Bool.eq_iff_iff]
  simp only [Bool.and_eq_true, decide_eq_true_eq]
  tauto

theorem groupOf_append_singleton (claims : List ClaimRecord) (claim : ClaimRecord) :
    groupOf sinceMs (claims ++ [claim]) = (groupOf sinceMs claims).note sinceMs claim := by
  have hall : ∀ champion : Option ClaimRecord,
      ((champion.map snapshot).all fun previous =>
          decide (previous.measuredAt ≤ measuredAt claim)) =
        champion.all fun m => decide (measuredAt m ≤ measuredAt claim) := fun champion => by
    cases champion <;> rfl
  by_cases hside : measuredAt claim ≤ sinceMs
  · simp only [groupOf, PeriodGroup.note, filter_append, hside, decide_true, if_true, hall,
      filter_singleton, not_lt.mpr hside, decide_false, cond_true, cond_false,
      append_nil, champion_append_singleton]
    split <;> rfl
  · simp only [groupOf, PeriodGroup.note, filter_append, hside, decide_true, if_false, hall,
      filter_singleton, not_le.mp hside, decide_false, cond_true, cond_false,
      append_nil, champion_append_singleton]
    split <;> rfl

/-- **The ends of a series** are the champions of its snapshots before and in the period. -/
theorem get_periodGroups (claims : List ClaimRecord) (key : List String) :
    (periodGroups sinceMs untilMs claims).get key =
      if seriesOf untilMs key claims = [] then none
      else some (groupOf sinceMs (seriesOf untilMs key claims)) := by
  refine (TreeMap.get_foldl_insert periodKey
    (fun (held : Option PeriodGroup) claim =>
      (held.getD ⟨none, none, ""⟩).note sinceMs claim) _).trans ?_
  -- The map decides equality of keys by their order.
  refine (congrArg (List.foldl _ none) (show _ = seriesOf untilMs key claims from
    filter_congr fun _ _ => decide_eq_decide.mpr Iff.rfl)).trans ?_
  generalize seriesOf untilMs key claims = mine
  induction mine using List.reverseRecOn with
  | nil => rfl
  | append_singleton mine claim ih =>
    rw [foldl_append, ih, groupOf_append_singleton]
    by_cases hmine : mine = []
    · subst hmine
      rfl
    · simp [hmine]

/-- The rows are known by the ends of each series. -/
theorem usagePeriodRows_congr {claims claims' : List ClaimRecord}
    (h : ∀ key, (periodGroups sinceMs untilMs claims).get key =
      (periodGroups sinceMs untilMs claims').get key) :
    usagePeriodRows sinceMs untilMs claims = usagePeriodRows sinceMs untilMs claims' := by
  rw [usagePeriodRows, usagePeriodRows, TreeMap.ext_get h]

/-- **Thinned rollups** give the same rows when each one that went comes before another of its
series, measured no earlier and on the same side of both ends of the period. -/
theorem usagePeriodRows_thin {all : List ClaimRecord} {kept : ClaimRecord → Bool} (hall : all.Nodup)
    (h : ∀ a ∈ all, isRollup a = true → kept a = false → measuredAt a ≤ untilMs →
      ∃ b, Before all a b ∧ isRollup b = true ∧ periodKey b = periodKey a ∧
        measuredAt a ≤ measuredAt b ∧ measuredAt b ≤ untilMs ∧
        (measuredAt a ≤ sinceMs → measuredAt b ≤ sinceMs)) :
    usagePeriodRows sinceMs untilMs (all.filter kept) = usagePeriodRows sinceMs untilMs all := by
  refine usagePeriodRows_congr fun key => ?_
  rw [get_periodGroups, get_periodGroups]
  have hthin : ∀ side : ClaimRecord → Bool,
      (∀ a b, measuredAt a ≤ measuredAt b → (measuredAt a ≤ sinceMs → measuredAt b ≤ sinceMs) →
        side a = true → side b = true) →
      champion measuredAt ((seriesOf untilMs key (all.filter kept)).filter side) =
        champion measuredAt ((seriesOf untilMs key all).filter side) := by
    intro side hside
    rw [seriesOf_eq, seriesOf_eq, filter_comm (q := kept), filter_comm (q := kept)]
    refine champion_thin ((hall.filter _).filter side) fun a ha hgone => ?_
    simp only [mem_filter, decide_eq_true_eq] at ha
    obtain ⟨⟨hmem, hrollup, hupto, hkey⟩, hsidea⟩ := ha
    obtain ⟨b, hbefore, hrollup', hkey', hle, hupto', hsince⟩ := h a hmem hrollup hgone hupto
    have hseries := (hbefore.filter
      (p := fun claim => isRollup claim ∧ measuredAt claim ≤ untilMs ∧ periodKey claim = key)
      (decide_eq_true ⟨hrollup, hupto, hkey⟩)
      (decide_eq_true ⟨hrollup', hupto', hkey'.trans hkey⟩)).filter hsidea
        (hside a b hle hsince hsidea)
    exact ⟨b, hseries.mem_right, .inr ⟨hle, hseries⟩⟩
  have hwhole := hthin (fun _ => true) fun _ _ _ _ h => h
  simp only [filter_true] at hwhole
  have hnil : seriesOf untilMs key (all.filter kept) = [] ↔ seriesOf untilMs key all = [] :=
    ⟨fun h => champion_eq_none.mp (hwhole.symm.trans (champion_eq_none.mpr h)),
      fun h => champion_eq_none.mp (hwhole.trans (champion_eq_none.mpr h))⟩
  have hgroup : groupOf sinceMs (seriesOf untilMs key (all.filter kept)) =
      groupOf sinceMs (seriesOf untilMs key all) := by
    rw [groupOf, groupOf,
      hthin (fun claim => measuredAt claim ≤ sinceMs) fun a b _ hsince ha =>
        decide_eq_true (hsince (of_decide_eq_true ha)),
      hthin (fun claim => sinceMs < measuredAt claim) fun a b hle _ ha =>
        decide_eq_true ((of_decide_eq_true ha).trans_le hle)]
  simp only [hnil, hgroup]

/-! ### What the rule keeps -/

/-- The hour of a snapshot for the drop rule, if it is in the window before the cut. -/
def usageHour (cut : ℕ) (claim : ClaimRecord) : Option ℕ :=
  if usageObservedAt claim < cut - usageWindowMs then none
  else some (usageObservedAt claim / hourMs)

section

variable {hourOf : ClaimRecord → Option ℕ} {state : List (ℕ × ℕ) × Option ℕ}
  {position : ℕ} {hour : Option ℕ}

/-- The last position of each hour, and of the time before the window. -/
def noteHour (hourOf : ClaimRecord → Option ℕ) (state : List (ℕ × ℕ) × Option ℕ)
    (entry : ClaimRecord × ℕ) : List (ℕ × ℕ) × Option ℕ :=
  match hourOf entry.1 with
  | none => (state.1, some entry.2)
  | some hour => (upsert Prod.fst state.1 (hour, entry.2), state.2)

theorem usageSeriesKeep_eq (claims : List ClaimRecord) (cut : ℕ) : usageSeriesKeep claims cut =
      ((claims.zipIdx.foldl (noteHour (usageHour cut)) ([], none)).1.map Prod.snd).toFinset ∪
        (claims.zipIdx.foldl (noteHour (usageHour cut)) ([], none)).2.toFinset ∪
        (if claims = [] then ∅ else {claims.length - 1}) := by
  have hnote : noteHour (usageHour cut) = fun state entry =>
      if usageObservedAt entry.1 < cut - usageWindowMs then (state.1, some entry.2)
      else (upsert Prod.fst state.1 (usageObservedAt entry.1 / hourMs, entry.2), state.2) := by
    funext state entry
    rw [noteHour, usageHour]
    by_cases hbefore : usageObservedAt entry.1 < cut - usageWindowMs
    · rw [if_pos hbefore, if_pos hbefore]
    · rw [if_neg hbefore, if_neg hbefore]
  unfold usageSeriesKeep
  dsimp only
  rw [← hnote]

/-- The position noted for an hour, or for the time before the window. -/
def NotedAt (state : List (ℕ × ℕ) × Option ℕ) (position : ℕ) : Option ℕ → Prop
  | none => state.2 = some position
  | some hour => (hour, position) ∈ state.1

theorem noteHour_sorted (h : state.1.Pairwise fun a b => a.1 < b.1) (entry : ClaimRecord × ℕ) :
    (noteHour hourOf state entry).1.Pairwise fun a b => a.1 < b.1 := by
  unfold noteHour
  split
  · exact h
  · exact (upsert_spec h _).1

theorem notedAt_noteHour (h : state.1.Pairwise fun a b => a.1 < b.1) (claim : ClaimRecord) :
    NotedAt (noteHour hourOf state (claim, position)) position (hourOf claim) := by
  unfold noteHour
  split
  case h_1 hhour => rw [hhour]; rfl
  case h_2 hhour => rw [hhour]; exact ((upsert_spec h _).2 _).mpr (.inl rfl)

theorem NotedAt.noteHour (hnoted : NotedAt state position hour)
    (h : state.1.Pairwise fun a b => a.1 < b.1) {entry : ClaimRecord × ℕ}
    (hother : hourOf entry.1 ≠ hour) : NotedAt (noteHour hourOf state entry) position hour := by
  unfold Checkpoint.noteHour
  split
  case h_1 hentry =>
    cases hour with
    | none => exact absurd hentry hother
    | some hour => exact hnoted
  case h_2 hour' hentry =>
    cases hour with
    | none => exact hnoted
    | some hour =>
      refine ((upsert_spec h _).2 _).mpr (.inr ⟨hnoted, ?_⟩)
      rintro rfl
      exact hother hentry

/-- The last claim of its hour is noted. -/
theorem notedAt_last {claims : List ClaimRecord} {pos : ℕ}
    (hpos : rposition (fun claim => hourOf claim = hour) claims = some pos) :
    NotedAt (claims.zipIdx.foldl (noteHour hourOf) ([], none)) pos hour := by
  induction claims using List.reverseRecOn with
  | nil => cases hpos
  | append_singleton claims claim ih =>
    have hsorted : (claims.zipIdx.foldl (noteHour hourOf) ([], none)).1.Pairwise
        fun a b => a.1 < b.1 := by
      refine foldlRecOn (motive := fun state : List (ℕ × ℕ) × Option ℕ =>
        state.1.Pairwise fun a b => a.1 < b.1) _ _ ?_ fun _ h entry _ => noteHour_sorted h entry
      exact .nil
    rw [rposition_append_singleton] at hpos
    rw [zipIdx_append, foldl_append, zipIdx_singleton, zero_add, foldl_cons, foldl_nil]
    split at hpos
    · rename_i hhour
      obtain rfl := Option.some.inj hpos
      exact of_decide_eq_true hhour ▸ notedAt_noteHour hsorted claim
    · rename_i hother
      exact (ih hpos).noteHour hsorted fun h => hother (decide_eq_true h)

/-- The last snapshot of each hour is kept. -/
theorem rposition_subset_usageSeriesKeep (claims : List ClaimRecord) (cut : ℕ) (hour : Option ℕ) :
    (rposition (fun claim => usageHour cut claim = hour) claims).toFinset ⊆
      usageSeriesKeep claims cut := by
  intro pos hpos
  have hnoted := notedAt_last (Option.mem_toFinset.mp hpos)
  rw [usageSeriesKeep_eq]
  refine Finset.mem_union_left _ (Finset.mem_union.mpr ?_)
  cases hour with
  | none => exact .inr (Option.mem_toFinset.mpr hnoted)
  | some hour => exact .inl (mem_toFinset.mpr (mem_map_of_mem hnoted))

end

section

variable {n : ℕ} {row : Fin n → ClaimRecord} {cut pos : ℕ} {i : Fin n} {slot : Slot}

/-- **The last of its hour.**  A dropped snapshot comes before the last snapshot of its slot and
hour. -/
theorem StandsAt.last_of_hour (h : StandsAt row cut i slot pos)
    (hrule : (ofLex slot).1 = .usageSeries) :
    ∃ j ∈ first row, slotOf (row j) = some slot ∧ i < j ∧
      usageHour cut (row j) = usageHour cut (row i) ∧
      ∀ k ∈ first row, slotOf (row k) = some slot →
        usageHour cut (row k) = usageHour cut (row i) → k ≤ j := by
  have hlater := h.exists_later (p := fun claim => usageHour cut claim = usageHour cut (row i))
    ((rposition_subset_usageSeriesKeep _ _ _).trans ?_) (decide_eq_true rfl)
  · simpa only [decide_eq_true_eq] using hlater
  · unfold keep
    rw [hrule, if_neg (by decide)]
    exact Finset.subset_union_left

end

/-! ### Periods after a drop -/

/-- A snapshot answers for another: it is of the same series, was measured no earlier, and is on the
same side of both ends of the period. -/
structure SpeaksFor (sinceMs untilMs : ℕ) (last claim : ClaimRecord) : Prop where
  series : periodKey last = periodKey claim
  later : measuredAt claim ≤ measuredAt last
  since : measuredAt claim ≤ sinceMs → measuredAt last ≤ sinceMs
  upto : measuredAt claim ≤ untilMs → measuredAt last ≤ untilMs

/-- Two sealed snapshots of one slot and hour, of which the second is the last. -/
structure LastOfHour (sealed : SealedSet) (i last : sealed.Index) : Prop where
  rollup : isRollup (sealed.row i) = true
  slot : slotOf (sealed.row last) = slotOf (sealed.row i)
  hour : usageHour sealed.cutUnixMs (sealed.row last) = usageHour sealed.cutUnixMs (sealed.row i)
  after : i < last
  final : ∀ k ∈ first sealed.row, slotOf (sealed.row k) = slotOf (sealed.row i) →
    usageHour sealed.cutUnixMs (sealed.row k) = usageHour sealed.cutUnixMs (sealed.row i) → k ≤ last

theorem slotOf_rollup {claim : ClaimRecord} {slot : Slot} (hrollup : isRollup claim = true)
    (h : slotOf claim = some slot) : (ofLex slot).1 = .usageSeries := by
  obtain ⟨hkind, hsemantics⟩ := of_decide_eq_true hrollup
  rcases slotOf_usage h hkind with ⟨-, rfl⟩ | ⟨hs, -⟩ | ⟨hs, -⟩
  · rfl
  · exact absurd (Option.some.inj (hs.symm.trans hsemantics)) (by decide)
  · exact absurd (Option.some.inj (hs.symm.trans hsemantics)) (by decide)

theorem isRollup_of_slot {claim other : ClaimRecord} {slot : Slot} (hrollup : isRollup claim = true)
    (h : slotOf claim = some slot) (h' : slotOf other = some slot) : isRollup other = true := by
  obtain ⟨hkind, hsemantics⟩ := of_decide_eq_true hrollup
  exact decide_eq_true ⟨(subject_kind_of_slot h h').2.trans hkind,
    (usage_of_slot h hkind h').1.trans hsemantics⟩

/-- **Periods stay.**  Whatever else the store holds, what was spent in a period reads the same from
the claims that remain, if the last sealed snapshot of each slot and hour speaks for those before
it. -/
theorem usagePeriodRows_remaining (H : Hasher) (registry : Registry) (sealed : SealedSet)
    (all : List ClaimRecord) (hall : sealed.HeldIn all) (sinceMs untilMs : ℕ)
    (hlast : ∀ i last, LastOfHour sealed i last →
      SpeaksFor sinceMs untilMs (sealed.row last) (sealed.row i)) :
    usagePeriodRows sinceMs untilMs ((planDrops H registry sealed).remaining all) =
      usagePeriodRows sinceMs untilMs all := by
  refine usagePeriodRows_thin hall.nodup fun claim hclaim hrollup hgone hupto => ?_
  obtain ⟨i, slot, pos, h⟩ := exists_gone hall (mem_claimsOfKind.mpr ⟨hclaim, rfl, rfl⟩) hgone
  have hslot := h.stands.slot_eq
  rw [← h.row] at hrollup hupto ⊢
  obtain ⟨j, hfirst, hj, hlt, hhour, hfinal⟩ :=
    h.stands.last_of_hour (slotOf_rollup hrollup hslot)
  obtain ⟨hseries, hlater, hsince, huntil⟩ := hlast i j
    { rollup := hrollup
      slot := hj.trans hslot.symm
      hour := hhour
      after := hlt
      final := fun k hk hslotk => hfinal k hk (hslotk.trans hslot) }
  exact ⟨sealed.row j,
    ((before_of_lt (first_sorted _) h.first hfirst hlt).map sealed.row).sublist hall.order,
    isRollup_of_slot hrollup hslot hj, hseries, hlater, huntil hupto, hsince⟩

/-! ### Two snapshots of one hour -/

def minuteMs : ℕ := 60 * 1000

/-- A snapshot of a series of `agent/a`. -/
def rollupClaim (id : String) (observedAt total : ℕ) : ClaimRecord where
  id := id
  batchId := "batch/a"
  subject := "agent/a"
  kind := "harness.usage"
  origin := "a"
  actor := none
  operationId := none
  body := .obj [("fields", .obj [("semantics", .str "response_rollup"),
    ("incarnation_id", .str "run/1"), ("observed_at_unix_ms", .num (.nat observedAt)),
    ("total_tokens", .num (.nat total))])]
  predecessors := []
  acceptedAtUnixMs := hourMs

def rollupSchema : Registry where
  claim kind := if kind = "harness.usage" then
    some ⟨.append, {"semantics", "incarnation_id", "observed_at_unix_ms", "total_tokens"}⟩ else none

/-- Two snapshots of a series, in two envelopes of their host, sealed after two hours. -/
def twoRollups (first second : ClaimRecord) : SealedSet := twoSealed (2 * hourMs) first second

/-- The second snapshot of the hour, of a hundred tokens, speaks for the first. -/
theorem later_snapshot_last : let early := rollupClaim "c1" (10 * minuteMs) 40
    let late := rollupClaim "c2" (50 * minuteMs) 100
    let remaining := (planDrops Replication.transcript rollupSchema
      (twoRollups early late)).remaining [early, late]
    remaining.map ClaimRecord.id = ["c2"] ∧
      usagePeriodRows 0 hourMs remaining = usagePeriodRows 0 hourMs [early, late] := by
  refine ⟨by decide +kernel,
    usagePeriodRows_remaining _ _ _ _ (twoSealed_heldIn _ (by decide)) _ _ ?_⟩
  intro i last hlast
  change Fin 2 at i last
  have hafter := hlast.after
  fin_cases i <;> fin_cases last
  · exact absurd hafter (lt_irrefl _)
  · exact ⟨by decide +kernel, by decide +kernel, by decide +kernel, by decide +kernel⟩
  · exact absurd hafter (by decide)
  · exact absurd hafter (lt_irrefl _)

/-- **An earlier snapshot last.**  The snapshot of a hundred tokens is measured later in the hour
and dropped for one of forty that stands after it, and sixty tokens are missing from the hour. -/
theorem earlier_snapshot_last :
    (twoRollups (rollupClaim "c1" (50 * minuteMs) 100) (rollupClaim "c2" (10 * minuteMs) 40)).HeldIn
      [rollupClaim "c1" (50 * minuteMs) 100, rollupClaim "c2" (10 * minuteMs) 40] ∧
    (usagePeriodRows 0 hourMs
      [rollupClaim "c1" (50 * minuteMs) 100, rollupClaim "c2" (10 * minuteMs) 40]).map
        PeriodRow.total = [100] ∧
    (usagePeriodRows 0 hourMs ((planDrops Replication.transcript rollupSchema
      (twoRollups (rollupClaim "c1" (50 * minuteMs) 100)
        (rollupClaim "c2" (10 * minuteMs) 40))).remaining
      [rollupClaim "c1" (50 * minuteMs) 100, rollupClaim "c2" (10 * minuteMs) 40])).map
        PeriodRow.total = [40] := by
  refine ⟨twoSealed_heldIn _ (by decide), ?_, ?_⟩
  · decide +kernel
  · decide +kernel

end SmallTalk.Checkpoint
