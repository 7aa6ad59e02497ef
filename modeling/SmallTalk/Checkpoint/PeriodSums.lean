import SmallTalk.Checkpoint.Periods

/-!
# Checkpoint — usage over adjacent periods

The row of a series is the difference of two snapshots, and a series that went backwards counts from
zero. So two periods report what the whole of them does if the snapshot between them lies between
the others. Where it does not, a restart counts against another baseline.
-/

namespace SmallTalk.Checkpoint

open List Thinning

variable {claims : List ClaimRecord} {key : List String} {sinceMs midMs untilMs : ℕ}
  {a m l : Snapshot}

/-! ### Amounts -/

namespace Snapshot

def bucket (snapshot : Snapshot) (index : ℕ) : ℕ := snapshot.buckets.getD index 0

/-- A bucket comes from one snapshot to another by way of a third. Where the total stays, there is
no row. -/
abbrev Through (a m l : Snapshot) (index : ℕ) : Prop :=
  if a.total = m.total then m.total = l.total ∨
    min (l.bucket index) (a.bucket index) = min (l.bucket index) (m.bucket index)
  else if m.total = l.total then
    max (l.bucket index) (a.bucket index) = max (m.bucket index) (a.bucket index)
  else a.bucket index ≤ m.bucket index ∧ m.bucket index ≤ l.bucket index ∨
    l.bucket index ≤ m.bucket index ∧ m.bucket index ≤ a.bucket index

abbrev Between (a m l : Snapshot) : Prop :=
  (a.total ≤ m.total ∧ m.total ≤ l.total) ∧ ∀ index < bucketNames.length, Through a m l index

/-- The series never goes backwards, or in the second period only and from where it stood before the
first, or in the first period only and stays below where it stood. -/
abbrev Adds (a m l : Snapshot) : Prop :=
  Between a m l ∨ l.total < a.total ∧ (a.total = m.total ∨ Between .zero m l)

theorem bucket_zero (a : Snapshot) : a.bucket 0 = a.total := by
  obtain ⟨_, _ | _⟩ := a <;> rfl

end Snapshot

open Snapshot (bucket_zero Through Between Adds)

/-- What is reported of a series that came from one snapshot to another. -/
def amount (first last : Snapshot) (index : ℕ) : ℕ :=
  let baseline := if first.total ≤ last.total then first else .zero
  if last.total ≤ baseline.total then 0 else last.bucket index - baseline.bucket index

theorem amount_of_lt (h : l.total < a.total) : amount a l = amount .zero l := by
  funext index
  simp [amount, not_le.mpr h, show Snapshot.zero.total = 0 from rfl]

theorem amounts_add_of_le (h : a.total ≤ m.total ∧ m.total ≤ l.total) (index : ℕ) :
    amount a l index = amount a m index + amount m l index ↔ Through a m l index := by
  simp only [amount, if_pos h.1, if_pos h.2, if_pos (h.1.trans h.2), Through]
  split_ifs <;> omega

theorem amounts_add_iff :
    (∀ index < bucketNames.length, amount a l index = amount a m index + amount m l index) ↔
      Adds a m l := by
  have htotals : amount a l 0 = amount a m 0 + amount m l 0 →
      a.total ≤ m.total ∧ m.total ≤ l.total ∨
        l.total < a.total ∧ (a.total = m.total ∨ m.total ≤ l.total) := by
    have hzero : Snapshot.zero.total = 0 := rfl
    simp only [amount, bucket_zero]
    split_ifs <;> omega
  constructor
  · intro h
    rcases htotals (h 0 (by decide)) with hle | ⟨hlt, heq | hle⟩
    · exact .inl ⟨hle, fun index hindex => (amounts_add_of_le hle index).mp (h index hindex)⟩
    · exact .inr ⟨hlt, .inl heq⟩
    · refine .inr ⟨hlt, .inr ⟨⟨Nat.zero_le _, hle⟩, fun index hindex => ?_⟩⟩
      rw [← amounts_add_of_le ⟨Nat.zero_le _, hle⟩, ← amount_of_lt hlt,
        ← amount_of_lt (hle.trans_lt hlt)]
      exact h index hindex
  · rintro (h | ⟨hlt, heq | h⟩) index hindex
    · exact (amounts_add_of_le h.1 index).mpr (h.2 index hindex)
    · have hlt' : l.total < m.total := heq ▸ hlt
      have hnone : amount a m index = 0 := by simp [amount, heq]
      rw [hnone, amount_of_lt hlt, amount_of_lt hlt', Nat.zero_add]
    · rw [amount_of_lt hlt, amount_of_lt (h.1.2.trans_lt hlt)]
      exact (amounts_add_of_le h.1 index).mpr (h.2 index hindex)

/-! ### What is reported -/

/-- What the row of a series says, or zero where it has none. -/
def reported (sinceMs untilMs : ℕ) (claims : List ClaimRecord) (key : List String) (index : ℕ) : ℕ :=
  (((periodGroups sinceMs untilMs claims).get key).bind (periodRow key)).elim 0
    (·.buckets.getD index 0)

theorem mem_usagePeriodRows {row : PeriodRow} : row ∈ usagePeriodRows sinceMs untilMs claims ↔
    ∃ key, ((periodGroups sinceMs untilMs claims).get key).bind (periodRow key) = some row := by
  simp [usagePeriodRows, mem_insertionSort, TreeMap.mem_entries, Option.bind_eq_some_iff]

/-- The last of the snapshots of a series that were measured at such times. -/
def lastSnapshot (claims : List ClaimRecord) (key : List String) (times : Finset ℕ) :
    Option Snapshot :=
  (champion measuredAt (claims.filter fun claim =>
    isRollup claim ∧ periodKey claim = key ∧ measuredAt claim ∈ times)).map snapshot

theorem mem_of_lastSnapshot {times : Finset ℕ} (h : lastSnapshot claims key times = some a) :
    ∃ claim ∈ claims, snapshot claim = a ∧ periodKey claim = key ∧ measuredAt claim ∈ times := by
  obtain ⟨claim, hclaim, rfl⟩ := Option.map_eq_some_iff.mp h
  obtain ⟨hmem, hkey⟩ := mem_filter.mp (champion_mem hclaim)
  exact ⟨claim, hmem, rfl, (of_decide_eq_true hkey).2⟩

/-- The last snapshot is one measured later, if there are any. -/
theorem lastSnapshot_union {later earlier : Finset ℕ} (h : ∀ s ∈ later, ∀ t ∈ earlier, t < s) :
    lastSnapshot claims key (later ∪ earlier) =
      (lastSnapshot claims key later).or (lastSnapshot claims key earlier) := by
  rw [lastSnapshot, lastSnapshot, lastSnapshot, ← Option.map_or, ← champion_or]
  · congr 2
    refine filter_congr fun claim _ => ?_
    rw [Bool.eq_iff_iff]
    simp only [Bool.or_eq_true, decide_eq_true_eq, Finset.mem_union]
    tauto
  · intro claim other hclaim hother
    exact h _ (of_decide_eq_true hclaim).2.2 _ (of_decide_eq_true hother).2.2

theorem getD_zipWith_sub (h : l.buckets.length = a.buckets.length) (index : ℕ) :
    (zipWith (· - ·) l.buckets a.buckets).getD index 0 = l.bucket index - a.bucket index := by
  simp only [Snapshot.bucket, getD_eq_getElem?_getD, getElem?_zipWith]
  by_cases hindex : index < l.buckets.length
  · simp [hindex, h ▸ hindex]
  · simp [hindex, h ▸ hindex]

/-- The row of a series with two ends. -/
theorem elim_periodRow {baseline : Option Snapshot} {pricing : String}
    (hl : l.buckets.length = bucketNames.length)
    (hbaseline : ∀ s, baseline = some s → s.buckets.length = bucketNames.length) (index : ℕ) :
    (periodRow key ⟨baseline, some l, pricing⟩).elim 0 (·.buckets.getD index 0) =
      amount (baseline.getD .zero) l index := by
  obtain ⟨a, ha, hlength⟩ : ∃ a, (baseline.filter (·.total ≤ l.total)).getD .zero = a ∧
      l.buckets.length = a.buckets.length := by
    refine ⟨_, rfl, hl.trans ?_⟩
    cases hs : baseline.filter (·.total ≤ l.total) with
    | none => rfl
    | some s => exact (hbaseline s (Option.filter_eq_some_iff.mp hs).1).symm
  have hfirst : (if (baseline.getD .zero).total ≤ l.total then baseline.getD .zero else .zero) =
      a := by
    rw [← ha]
    cases baseline with
    | none => simp
    | some s => by_cases hle : s.total ≤ l.total <;> simp [Option.filter, hle]
  have htotal : (zipWith (· - ·) l.buckets a.buckets).headD 0 = l.total - a.total := by
    rw [headD_eq_getD, getD_zipWith_sub hlength, bucket_zero, bucket_zero]
  simp only [periodRow, Option.bind_some, ha, PeriodRow.total, htotal, amount, hfirst,
    Nat.sub_eq_zero_iff_le]
  split
  · rfl
  · exact getD_zipWith_sub hlength index

/-- **What is reported of a series** goes by its last snapshots before and in the period. -/
theorem reported_eq (h : sinceMs ≤ untilMs) (index : ℕ) :
    reported sinceMs untilMs claims key index =
      (lastSnapshot claims key (.Ioc sinceMs untilMs)).elim 0 fun last =>
        amount ((lastSnapshot claims key (.Iic sinceMs)).getD .zero) last index := by
  have hgroup : ∀ series, (if series = [] then none else some (groupOf sinceMs series)).bind
      (periodRow key) = periodRow key (groupOf sinceMs series) := by
    intro series
    split
    · next hnil => rw [hnil]; rfl
    · rfl
  have hside : ∀ (side : ℕ → Bool) (times : Finset ℕ),
      (∀ t, t ∈ times ↔ t ≤ untilMs ∧ side t = true) →
      (champion measuredAt ((seriesOf untilMs key claims).filter fun claim =>
        side (measuredAt claim))).map snapshot = lastSnapshot claims key times := by
    intro side times htimes
    rw [lastSnapshot, seriesOf_eq, filter_filter]
    congr 2
    refine filter_congr fun claim _ => ?_
    rw [Bool.eq_iff_iff]
    simp only [Bool.and_eq_true, decide_eq_true_eq, htimes]
    tauto
  have hlength : ∀ {times a}, lastSnapshot claims key times = some a →
      a.buckets.length = bucketNames.length := by
    intro times a ha
    obtain ⟨claim, -, rfl, -⟩ := mem_of_lastSnapshot ha
    unfold snapshot
    split <;> simp
  rw [reported, get_periodGroups, hgroup]
  simp only [groupOf, hside (sinceMs < ·) (.Ioc sinceMs untilMs) fun t => by simp [and_comm],
    hside (· ≤ sinceMs) (.Iic sinceMs) fun t => by simpa using fun ht => le_trans ht h]
  cases hl : lastSnapshot claims key (.Ioc sinceMs untilMs) with
  | none => rfl
  | some last => exact elim_periodRow (hlength hl) (fun s => hlength) index

/-- **Adjacent periods.**  What is reported for two adjacent periods adds up to what is reported for
both, of every series and bucket, if and only if the last snapshot of the first period adds, where a
series has snapshots in both. -/
theorem periods_add_iff (claims : List ClaimRecord) {sinceMs midMs untilMs : ℕ}
    (hsince : sinceMs < midMs) (hmid : midMs < untilMs) :
    (∀ key, ∀ index < bucketNames.length, reported sinceMs untilMs claims key index =
      reported sinceMs midMs claims key index + reported midMs untilMs claims key index) ↔
    ∀ key middle last, lastSnapshot claims key (.Ioc sinceMs midMs) = some middle →
      lastSnapshot claims key (.Ioc midMs untilMs) = some last →
      Adds ((lastSnapshot claims key (.Iic sinceMs)).getD .zero) middle last := by
  refine forall_congr' fun key => ?_
  have hbaseline : Finset.Iic midMs = .Ioc sinceMs midMs ∪ .Iic sinceMs := by
    ext t
    simp only [Finset.mem_Iic, Finset.mem_union, Finset.mem_Ioc]
    omega
  have hlast : Finset.Ioc sinceMs untilMs = .Ioc midMs untilMs ∪ .Ioc sinceMs midMs := by
    ext t
    simp only [Finset.mem_union, Finset.mem_Ioc]
    omega
  simp only [reported_eq (hsince.trans hmid).le, reported_eq hsince.le, reported_eq hmid.le]
  rw [hbaseline, hlast, lastSnapshot_union, lastSnapshot_union]
  · cases lastSnapshot claims key (.Ioc sinceMs midMs) with
    | none => simp
    | some middle =>
      cases lastSnapshot claims key (.Ioc midMs untilMs) with
      | none => simp
      | some last => simpa using amounts_add_iff
  · simp only [Finset.mem_Ioc, Finset.mem_Iic]
    omega
  · simp only [Finset.mem_Ioc]
    omega

/-! ### A restart -/

/-- The snapshots of a series, measured at 1, 2 and 3. -/
def threeRollups (first second third : ℕ) : List ClaimRecord :=
  [rollupClaim "c1" 1 first, rollupClaim "c2" 2 second, rollupClaim "c3" 3 third]

def rollupKeyOf : List String := periodKey (rollupClaim "c1" 1 0)

/-- A series that grows. -/
theorem growing_series : reported 1 3 (threeRollups 10 20 50) rollupKeyOf 0 =
      reported 1 2 (threeRollups 10 20 50) rollupKeyOf 0 +
        reported 2 3 (threeRollups 10 20 50) rollupKeyOf 0 := by
  have hadds : ∀ m ∈ threeRollups 10 20 50, measuredAt m ∈ Finset.Ioc 1 2 →
      ∀ l ∈ threeRollups 10 20 50, measuredAt l ∈ Finset.Ioc 2 3 →
        Adds ((lastSnapshot (threeRollups 10 20 50) (periodKey m) (.Iic 1)).getD .zero)
          (snapshot m) (snapshot l) := by
    decide +kernel
  refine (periods_add_iff _ (by decide) (by decide)).mpr (fun key middle last hmiddle hlast => ?_)
    rollupKeyOf 0 (by decide)
  obtain ⟨m, hm, rfl, rfl, ht⟩ := mem_of_lastSnapshot hmiddle
  obtain ⟨l, hl, rfl, -, ht'⟩ := mem_of_lastSnapshot hlast
  exact hadds m hm ht l hl ht'

/-- **A series that goes backwards.**  It reports ten tokens of the first period and five of the
second, and five of both. -/
theorem restarted_series : reported 1 2 (threeRollups 10 20 5) rollupKeyOf 0 = 10 ∧
      reported 2 3 (threeRollups 10 20 5) rollupKeyOf 0 = 5 ∧
      reported 1 3 (threeRollups 10 20 5) rollupKeyOf 0 = 5 := by
  decide +kernel

end SmallTalk.Checkpoint
