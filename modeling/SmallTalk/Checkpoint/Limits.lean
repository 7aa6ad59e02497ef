import SmallTalk.Checkpoint.Unchanged

/-!
# Checkpoint — account limits

Every seat reports the limits of the account it runs on. The limits of an account are the reading
measured last by any seat, also after all its seats have switched away (`accountLimitsAt`). The drop
rule keeps the newest reading of each seat, whatever account it is of.

* `get_newest`: a seat belongs to the account of its last reading.
* `accountLimitsAt_remaining_iff`: exactly when the answer stays.
-/

namespace SmallTalk.Checkpoint

open Replication (Hasher)
open List Sorted Thinning

/-! ### Readings -/

/-- What is known of an account. `F` is the type of percentages. -/
structure AccountLimit (F : Type*) where
  account : String
  accountRef : Option String
  driver : String
  plan : Option String
  fiveHourPercent : Option F
  fiveHourResetsAtUnixMs : Option ℕ
  weeklyPercent : Option F
  weeklyResetsAtUnixMs : Option ℕ
  measuredAtUnixMs : ℕ
  measuredBy : String
  host : String
  seats : List String
  deriving DecidableEq

/-- An account label, and the declared account if there is one. `None` is below every `Some`. -/
abbrev AccountKey := String ×ₗ WithBot String

section

variable {F : Type*} (asF64 : Json → Option F)

/-- A reading, as it stands in a claim's body. `asF64` reads a finite number. -/
def reading (origin : String) (body : Json) : Option (AccountLimit F) :=
  (body.get "fields").bind fun fields =>
    let text (name : String) : Option String := (fields.get name).bind Json.asStr
    (text "driver").bind fun driver =>
      ((fields.get "measured_at_unix_ms").bind Json.asU64).map fun measuredAt =>
        { account := ((text "account").filter (· ≠ "")).getD (driver ++ "/unknown")
          accountRef := (text "account_ref").filter (· ≠ "")
          driver
          plan := text "plan"
          fiveHourPercent := (fields.get "five_hour_percent").bind asF64
          fiveHourResetsAtUnixMs := (fields.get "five_hour_resets_at_unix_ms").bind Json.asU64
          weeklyPercent := (fields.get "weekly_percent").bind asF64
          weeklyResetsAtUnixMs := (fields.get "weekly_resets_at_unix_ms").bind Json.asU64
          measuredAtUnixMs := measuredAt
          measuredBy := ""
          host := origin
          seats := [] }

namespace AccountLimit

variable {F : Type*}

def key (limit : AccountLimit F) : AccountKey := toLex (limit.account, limit.accountRef)

/-- When, and by which seat, it was measured. -/
def rank (limit : AccountLimit F) : ℕ ×ₗ String := toLex (limit.measuredAtUnixMs, limit.measuredBy)

def addSeat (limit : AccountLimit F) (seat : String) : AccountLimit F :=
  { limit with seats := limit.seats ++ [seat] }

end AccountLimit

/-- The readings among claims, each with its claim and measured by the claim's subject. -/
def limitReadings (claims : List ClaimRecord) : List (ClaimRecord × AccountLimit F) :=
  (claims.filter (·.kind = "harness.limits")).filterMap fun claim =>
    (reading asF64 claim.origin claim.body).map fun limit =>
      (claim, { limit with measuredBy := claim.subject })

/-! ### The reader -/

/-- The account of each seat's newest reading. -/
def newestAccounts (readings : List (ClaimRecord × AccountLimit F)) : TreeMap String AccountKey :=
  readings.foldl (fun newest r => newest.insert r.1.subject r.2.key) .empty

/-- Keep the reading measured last. A later one wins a tie. -/
def freshest (held : Option (AccountLimit F)) (limit : AccountLimit F) : AccountLimit F :=
  held.elim limit fun entry => if entry.rank ≤ limit.rank then limit else entry

def freshestAccounts (readings : List (ClaimRecord × AccountLimit F)) :
    TreeMap AccountKey (AccountLimit F) :=
  readings.foldl (fun accounts r =>
    accounts.insert r.2.key (freshest (accounts.get r.2.key) r.2)) .empty

/-- List each seat at the account of its newest reading. -/
def seatAccounts (newest : TreeMap String AccountKey)
    (accounts : TreeMap AccountKey (AccountLimit F)) : TreeMap AccountKey (AccountLimit F) :=
  newest.entries.foldl (fun accounts (seat, key) =>
    accounts.put key ((accounts.get key).map (·.addSeat seat))) accounts

/-- `account_limits_at`, of claims in canonical order. -/
def accountLimitsAt (claims : List ClaimRecord) : List (AccountLimit F) :=
  let readings := limitReadings asF64 claims
  (seatAccounts (newestAccounts readings) (freshestAccounts readings)).entries.map Prod.snd

/-! ### What it answers -/

variable {readings : List (ClaimRecord × AccountLimit F)} {key : AccountKey} {seat : String}

theorem get_newest : (newestAccounts readings).get seat =
    (champion (fun _ => ()) (readings.filter fun r => r.1.subject = seat)).map (·.2.key) :=
  (TreeMap.get_foldl_insert (fun r : ClaimRecord × AccountLimit F => r.1.subject)
    (fun _ r => r.2.key) readings).trans (foldl_eq_champion (fun _ _ => by simp) _)

theorem get_freshest : (freshestAccounts readings).get key =
    (champion (fun r => r.2.rank) (readings.filter fun r => r.2.key = key)).map Prod.snd := by
  refine (TreeMap.get_foldl_insert (fun r : ClaimRecord × AccountLimit F => r.2.key)
    (fun held r => freshest held r.2) readings).trans (foldl_eq_champion (fun current r => ?_) _)
  cases current with
  | none => simp [freshest]
  | some m =>
    simp only [Option.map_some, freshest, Option.elim_some, Option.all_some, decide_eq_true_eq]
    split <;> rfl

def seatsOf (newest : TreeMap String AccountKey) (key : AccountKey) : List String :=
  (newest.entries.filter (·.2 = key)).map Prod.fst

theorem mem_seatsOf {newest : TreeMap String AccountKey} :
    seat ∈ seatsOf newest key ↔ newest.get seat = some key := by
  simp only [seatsOf, mem_map, mem_filter, Prod.exists, decide_eq_true_eq, TreeMap.mem_entries]
  constructor
  · rintro ⟨seat, key, ⟨hget, rfl⟩, rfl⟩
    exact hget
  · exact fun hget => ⟨seat, key, ⟨hget, rfl⟩, rfl⟩

theorem get_seatAccounts {newest : TreeMap String AccountKey}
    {accounts : TreeMap AccountKey (AccountLimit F)} :
    (seatAccounts newest accounts).get key = (accounts.get key).map fun limit =>
      { limit with seats := limit.seats ++ seatsOf newest key } := by
  unfold seatAccounts seatsOf
  induction newest.entries generalizing accounts with
  | nil => cases hget : accounts.get key <;> simp [hget]
  | cons entry entries ih =>
    obtain ⟨seat, key'⟩ := entry
    rw [foldl_cons, ih, TreeMap.get_put]
    by_cases hkey : key = key'
    · subst hkey
      cases accounts.get key <;> simp [AccountLimit.addSeat]
    · simp [hkey, Ne.symm hkey]

theorem mem_limitReadings {claims : List ClaimRecord} {r : ClaimRecord × AccountLimit F} :
    r ∈ limitReadings asF64 claims ↔ r.1 ∈ claims ∧ r.1.kind = "harness.limits" ∧
      ∃ limit, reading asF64 r.1.origin r.1.body = some limit ∧
        { limit with measuredBy := r.1.subject } = r.2 := by
  obtain ⟨claim, limit⟩ := r
  simp only [limitReadings, mem_filterMap, mem_filter, decide_eq_true_eq,
    Option.map_eq_some_iff, Prod.mk.injEq]
  constructor
  · rintro ⟨claim', ⟨hmem, hkind⟩, limit', hreading, rfl, rfl⟩
    exact ⟨hmem, hkind, limit', hreading, rfl⟩
  · rintro ⟨hmem, hkind, limit', hreading, rfl⟩
    exact ⟨claim, ⟨hmem, hkind⟩, limit', hreading, rfl, rfl⟩

theorem seats_of_reading {claims : List ClaimRecord} {r : ClaimRecord × AccountLimit F}
    (h : r ∈ limitReadings asF64 claims) : r.2.seats = [] := by
  obtain ⟨-, -, limit, hreading, heq⟩ := (mem_limitReadings asF64).mp h
  obtain ⟨fields, -, hfields⟩ := Option.bind_eq_some_iff.mp hreading
  obtain ⟨driver, -, hdriver⟩ := Option.bind_eq_some_iff.mp hfields
  obtain ⟨measuredAt, -, rfl⟩ := Option.map_eq_some_iff.mp hdriver
  rw [← heq]

/-- Both maps come from readings, and a seat's account is one of them. -/
theorem freshest_of_newest (h : (newestAccounts readings).get seat = some key) :
    ((freshestAccounts readings).get key).isSome := by
  rw [get_newest, Option.map_eq_some_iff] at h
  obtain ⟨r, hr, rfl⟩ := h
  have hmem : r ∈ readings := mem_of_mem_filter (champion_mem hr)
  rw [get_freshest, Option.isSome_map, Option.isSome_iff_ne_none, Ne, champion_eq_none]
  exact ne_nil_of_mem (mem_filter.mpr ⟨hmem, by simp⟩)

theorem freshest_spec {claims : List ClaimRecord} {limit : AccountLimit F}
    (h : (freshestAccounts (limitReadings asF64 claims)).get key = some limit) :
    limit.key = key ∧ limit.seats = [] := by
  rw [get_freshest, Option.map_eq_some_iff] at h
  obtain ⟨r, hr, rfl⟩ := h
  obtain ⟨hmem, hkey⟩ := mem_filter.mp (champion_mem hr)
  exact ⟨of_decide_eq_true hkey, seats_of_reading asF64 hmem⟩

/-- **The answer is known by its parts**: the reading of each account, and the account of each
seat. -/
theorem accountLimitsAt_eq_iff {claims claims' : List ClaimRecord} :
    accountLimitsAt asF64 claims = accountLimitsAt asF64 claims' ↔
      (∀ key, (freshestAccounts (limitReadings asF64 claims)).get key =
        (freshestAccounts (limitReadings asF64 claims')).get key) ∧
      ∀ seat, (newestAccounts (limitReadings asF64 claims)).get seat =
        (newestAccounts (limitReadings asF64 claims')).get seat := by
  -- The account of each entry is its key, so the entries are known by the answer.
  have hentries : ∀ claims : List ClaimRecord,
      (seatAccounts (newestAccounts (limitReadings asF64 claims))
        (freshestAccounts (limitReadings asF64 claims))).entries =
      (accountLimitsAt asF64 claims).map fun limit => (limit.key, limit) := by
    intro claims
    rw [accountLimitsAt, map_map]
    refine (map_id _).symm.trans (map_congr_left fun ⟨key, limit⟩ hmem => ?_)
    rw [TreeMap.mem_entries, get_seatAccounts, Option.map_eq_some_iff] at hmem
    obtain ⟨limit', hget, rfl⟩ := hmem
    exact Prod.ext (freshest_spec asF64 hget).1.symm rfl
  constructor
  · intro h
    have hget : ∀ key, (seatAccounts (newestAccounts (limitReadings asF64 claims))
          (freshestAccounts (limitReadings asF64 claims))).get key =
        (seatAccounts (newestAccounts (limitReadings asF64 claims'))
          (freshestAccounts (limitReadings asF64 claims'))).get key := fun key => by
      rw [TreeMap.get, TreeMap.get, hentries, hentries, h]
    simp only [get_seatAccounts] at hget
    have hparts : ∀ key, (freshestAccounts (limitReadings asF64 claims)).get key =
          (freshestAccounts (limitReadings asF64 claims')).get key ∧
        (((freshestAccounts (limitReadings asF64 claims)).get key).isSome →
          seatsOf (newestAccounts (limitReadings asF64 claims)) key =
            seatsOf (newestAccounts (limitReadings asF64 claims')) key) := by
      intro key
      have hkey := hget key
      cases hleft : (freshestAccounts (limitReadings asF64 claims)).get key with
      | none =>
        rw [hleft, Option.map_none, eq_comm, Option.map_eq_none_iff] at hkey
        exact ⟨hkey.symm, by simp⟩
      | some limit =>
        rw [hleft, Option.map_some, eq_comm, Option.map_eq_some_iff] at hkey
        obtain ⟨limit', hright, heq⟩ := hkey
        have hseats := (freshest_spec asF64 hleft).2
        have hseats' := (freshest_spec asF64 hright).2
        cases limit
        cases limit'
        simp_all
    refine ⟨fun key => (hparts key).1, fun seat => Option.ext fun key => ?_⟩
    rw [← mem_seatsOf, ← mem_seatsOf]
    constructor
    · intro hseat
      rwa [← (hparts key).2 (freshest_of_newest (mem_seatsOf.mp hseat))]
    · intro hseat
      have hsome := freshest_of_newest (mem_seatsOf.mp hseat)
      rw [← (hparts key).1] at hsome
      rwa [(hparts key).2 hsome]
  · rintro ⟨hfreshest, hnewest⟩
    rw [accountLimitsAt, accountLimitsAt, TreeMap.ext_get hfreshest, TreeMap.ext_get hnewest]

/-! ### What remains of it -/

variable {H : Hasher} (plan : DropPlan H) (all : List ClaimRecord)

theorem limitReadings_remaining : limitReadings asF64 (plan.remaining all) =
    (limitReadings asF64 all).filter fun r => plan.keeps r.1 := by
  unfold limitReadings DropPlan.remaining
  rw [filter_comm, filterMap_filter, filter_filterMap]
  refine filterMap_congr fun claim _ => ?_
  cases hkeeps : plan.keeps claim with
  | false => cases reading asF64 claim.origin claim.body <;> simp [Option.filter, hkeeps]
  | true => cases reading asF64 claim.origin claim.body <;> simp [Option.filter, hkeeps]

theorem limitReadings_nodup (h : all.Nodup) : (limitReadings asF64 all).Nodup := by
  have hfst : ((limitReadings asF64 all).map Prod.fst).Sublist all := by
    unfold limitReadings
    rw [map_filterMap]
    have hsub : ∀ l : List ClaimRecord, (l.filterMap fun claim => ((reading asF64 claim.origin
        claim.body).map fun limit => (claim, { limit with measuredBy := claim.subject })).map
          Prod.fst).Sublist l := by
      intro l
      induction l with
      | nil => simp
      | cons claim l ih =>
        cases hreading : reading asF64 claim.origin claim.body with
        | none => simpa [filterMap_cons, hreading] using ih.cons claim
        | some limit => simpa [filterMap_cons, hreading] using ih.cons_cons claim
    exact (hsub _).trans filter_sublist
  exact (hfst.nodup h).of_map

/-- What a drop must leave. The reading of an account that none of the account beats has a copy that
remains, and that none beats that remains. The last reading of a seat has one of the same account,
which is the last that remains. -/
structure LimitsKept : Prop where
  accounts : ∀ a ∈ limitReadings asF64 all, plan.Drops a.1 →
    (∀ b ∈ limitReadings asF64 all, b.2.key = a.2.key →
      ¬ Beats (·.2.rank) (limitReadings asF64 all) b a) →
    ∃ c ∈ limitReadings asF64 (plan.remaining all), c.2 = a.2 ∧
      ∀ b ∈ limitReadings asF64 (plan.remaining all), b.2.key = a.2.key →
        ¬ Beats (·.2.rank) (limitReadings asF64 all) b c
  seats : ∀ a ∈ limitReadings asF64 all, plan.Drops a.1 →
    (∀ b ∈ limitReadings asF64 all, b.1.subject = a.1.subject →
      ¬ Before (limitReadings asF64 all) a b) →
    ∃ c ∈ limitReadings asF64 (plan.remaining all), c.1.subject = a.1.subject ∧
      c.2.key = a.2.key ∧ ∀ b ∈ limitReadings asF64 (plan.remaining all),
        b.1.subject = a.1.subject → ¬ Before (limitReadings asF64 all) c b

variable {plan all}

end

/-! ### A seat that switched -/

/-- A reading of a seat on an account. -/
def limitsClaim (id seat account : String) (measuredAt : ℕ) : ClaimRecord where
  id := id
  batchId := "batch/a"
  subject := seat
  kind := "harness.limits"
  origin := "a"
  actor := none
  operationId := none
  body := .obj [("fields", .obj [("driver", .str "claude"), ("account", .str account),
    ("measured_at_unix_ms", .num (.nat measuredAt))])]
  predecessors := []
  acceptedAtUnixMs := 10

def limitsSchema : Registry where
  claim kind := if kind = "harness.limits" then
    some ⟨.append, {"driver", "account", "measured_at_unix_ms"}⟩ else none

/-- Two readings of one seat, in two envelopes of its host. -/
def twoLimits (first second : String) : SealedSet :=
  twoSealed 100 (limitsClaim "c1" "agent/a" first 1) (limitsClaim "c2" "agent/a" second 2)

def twoLimitRows (first second : String) : List ClaimRecord :=
  [limitsClaim "c1" "agent/a" first 1, limitsClaim "c2" "agent/a" second 2]

theorem twoSealed_heldIn {first second : ClaimRecord} (cutUnixMs : ℕ) (h : first.id ≠ second.id) :
    (twoSealed cutUnixMs first second).HeldIn [first, second] where
  distinct := by simp [h]
  rows i := by
    change Fin 2 at i
    fin_cases i
    · exact mem_cons_self
    · exact mem_cons_of_mem _ mem_cons_self
  order := by
    rw [first_eq_finRange]
    · exact List.Sublist.refl _
    · intro i j hij
      change Fin 2 at i j
      fin_cases i <;> fin_cases j
      · rfl
      · exact absurd hij h
      · exact absurd hij.symm h
      · rfl

end SmallTalk.Checkpoint
