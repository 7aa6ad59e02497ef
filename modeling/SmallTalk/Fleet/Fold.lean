import SmallTalk.Fleet.Windows
import SmallTalk.Lib.Sorted

/-!
# Fleet — Fold

One round of the membership fold, and the fold itself, as later files use them.

* `claimCounts_signed`: a claim that counts is the anchor's own admission, or has a signer whose
  window holds its sequence.
* `fold_some`: the fold is `build` of the claims the rounds return.
-/

namespace SmallTalk.Fleet

open Fleet.Membership List

variable {claims : List FleetClaim} {anchor : String} {claim : FleetClaim}

/-! ### A set of claims -/

def DistinctIds (claims : List FleetClaim) : Prop := (claims.map (·.id)).Nodup

instance (claims : List FleetClaim) : Decidable (DistinctIds claims) :=
  inferInstanceAs (Decidable (List.Nodup _))

theorem DistinctIds.eq (h : DistinctIds claims) {a b : FleetClaim} (ha : a ∈ claims)
    (hb : b ∈ claims) (hab : a.id = b.id) : a = b :=
  inj_on_of_nodup_map h ha hb hab

theorem DistinctIds.perm {claims claims' : List FleetClaim} (h : DistinctIds claims)
    (hp : claims'.Perm claims) : DistinctIds claims' :=
  (hp.map _).nodup_iff.mpr h

theorem mem_fleetClaims :
    claim ∈ fleetClaims claims ↔ claim ∈ claims ∧ startsWith "fleet." claim.kind = true := by
  unfold fleetClaims
  rw [(perm_insertionSort _ _).mem_iff, mem_filter]

theorem DistinctIds.fleetClaims (h : DistinctIds claims) : DistinctIds (fleetClaims claims) := by
  refine DistinctIds.perm ?_ (perm_insertionSort _ _)
  exact h.sublist (filter_sublist.map _)

theorem fleetClaims_sorted (h : DistinctIds claims) :
    (fleetClaims claims).Pairwise fun a b => a.id < b.id :=
  Sorted.insertionSort_lt (h.sublist (filter_sublist.map _))

/-- The claims of a set that satisfy `p`, by id, depend only on which they are. -/
theorem fleetClaims_filter_congr {C D : List FleetClaim} (hC : DistinctIds C)
    (hD : DistinctIds D) {p : FleetClaim → Bool}
    (h : ∀ claim, p claim = true → (claim ∈ C ↔ claim ∈ D)) :
    (fleetClaims C).filter p = (fleetClaims D).filter p := by
  refine Sorted.eq_of_mem_iff ((fleetClaims_sorted hC).filter p) ((fleetClaims_sorted hD).filter p)
    fun claim => ?_
  simp only [mem_filter, mem_fleetClaims]
  exact and_congr_left fun hp => and_congr_left fun _ => h claim hp

/-! ### What a membership is built of -/

namespace Membership

theorem admitMember_valid (m : Membership) (claim : FleetClaim) :
    (m.admitMember claim).valid = m.valid := by
  unfold admitMember
  split
  · split <;> rfl
  · rfl

theorem heed_valid (m : Membership) (claim : FleetClaim) : (m.heed claim).valid = m.valid := by
  unfold heed
  split
  · rfl
  · split
    · split
      · rfl
      · dsimp only
        split <;> rfl
    · split
      · split <;> rfl
      · rfl

theorem foldl_valid {step : Membership → FleetClaim → Membership}
    (h : ∀ m claim, (step m claim).valid = m.valid) (claims : List FleetClaim) (m : Membership) :
    (claims.foldl step m).valid = m.valid := by
  induction claims generalizing m with
  | nil => rfl
  | cons claim claims ih => exact (ih _).trans (h m claim)

@[simp] theorem build_valid (anchor : String) (claims : List FleetClaim) (valid : Finset String) :
    (build anchor claims valid).valid = valid := by
  unfold build
  rw [foldl_valid heed_valid, foldl_valid admitMember_valid]

/-- `build` reads only the claims of `valid`. -/
theorem build_congr (anchor : String) {claims claims' : List FleetClaim} {valid : Finset String}
    (h : countedBy claims valid = countedBy claims' valid) :
    build anchor claims valid = build anchor claims' valid := by
  unfold countedBy at h
  unfold build
  rw [h]

/-- A key with a window was admitted by a counted claim. -/
theorem admits_of_mem_keysFor {valid : Finset String} {writer key : String} {sequence : ℕ}
    (h : key ∈ (build anchor claims valid).keysFor writer sequence) :
    ∃ claim ∈ claims, claim.id ∈ valid ∧ claim.Admits writer key := by
  obtain ⟨claim, hopen, -⟩ := mem_keysFor_build.mp h
  obtain ⟨hmem, hadm⟩ := opening_spec hopen
  obtain ⟨hmem, hid⟩ := mem_countedBy.mp hmem
  exact ⟨claim, hmem, hid, hadm⟩

end Membership

/-! ### Fences -/

theorem fenceFrom_le_iff {name key : String} {fence : Option ℕ} {sequence : ℕ} :
    (∀ last ∈ fenceFrom claims name key fence, sequence ≤ last) ↔
      (fence = none ∧ ∀ claim ∈ claims, claim.closes name key = none) ∨
        (∃ last ∈ fence, sequence ≤ last) ∨
        ∃ claim ∈ claims, ∃ last ∈ claim.closes name key, sequence ≤ last := by
  induction claims generalizing fence with
  | nil => cases fence <;> simp [fenceFrom]
  | cons claim claims ih =>
    show (∀ last ∈ fenceFrom claims name key (FleetClaim.raise fence (claim.closes name key)),
      sequence ≤ last) ↔ _
    rw [ih]
    cases hc : claim.closes name key with
    | none => simp [FleetClaim.raise, hc]
    | some highWater =>
      cases fence with
      | none => simp [FleetClaim.raise, hc]
      | some last => simp [FleetClaim.raise, hc, or_assoc]

/-- The fence of the counted claims is at or above `sequence` when none of them ends the key, or
one does at or above `sequence`. -/
theorem fence_le_iff {name key : String} {sequence : ℕ} :
    (∀ last ∈ fence claims name key, sequence ≤ last) ↔
      (∀ claim ∈ claims, claim.closes name key = none) ∨
        ∃ claim ∈ claims, ∃ last ∈ claim.closes name key, sequence ≤ last := by
  unfold fence
  rw [fenceFrom_le_iff]
  simp

/-! ### When a claim counts -/

/-- The anchor's own admission, signed by the anchor key. -/
def AnchorAdmission (anchor : String) (claim : FleetClaim) : Prop :=
  claim.kind = memberAdmitted ∧ claim.text "via" = some "anchor" ∧
    claim.text "member_key" = some anchor ∧ claim.name = some claim.writer ∧
    anchor ∈ claim.signers

instance (anchor : String) (claim : FleetClaim) : Decidable (AnchorAdmission anchor claim) :=
  inferInstanceAs (Decidable (_ ∧ _))

/-- Two views in which a claim's signers have the same windows over its writer agree on whether it
counts. -/
theorem claimCounts_congr {m m' : Membership}
    (hk : ∀ key ∈ claim.signers, key ∈ m.keysFor claim.writer claim.sequence ↔
      key ∈ m'.keysFor claim.writer claim.sequence)
    (hf : anchor ∈ claim.signers → m.fenceOf claim.writer anchor = m'.fenceOf claim.writer anchor) :
    claimCounts anchor claim m = claimCounts anchor claim m' := by
  have hinter : claim.signers ∩ m.keysFor claim.writer claim.sequence =
      claim.signers ∩ m'.keysFor claim.writer claim.sequence := by
    ext key
    simp only [Finset.mem_inter]
    exact and_congr_right fun h => hk key h
  have hown : ∀ key, (decide (key ∈ m.keysFor claim.writer claim.sequence) &&
      decide (key ∈ claim.signers)) = (decide (key ∈ m'.keysFor claim.writer claim.sequence) &&
      decide (key ∈ claim.signers)) := fun key => by
    by_cases h : key ∈ claim.signers
    · simp [h, hk key h]
    · simp [h]
  unfold claimCounts
  split
  · by_cases h : anchor ∈ claim.signers
    · rw [hf h]
    · simp [h]
  · simp only [hinter, Bool.and_assoc, hown]

theorem claimCounts_signed {m : Membership} (h : claimCounts anchor claim m = true) :
    AnchorAdmission anchor claim ∨
      ∃ key ∈ claim.signers, key ∈ m.keysFor claim.writer claim.sequence := by
  unfold claimCounts at h
  split at h
  · rename_i hroot
    simp only [Bool.and_eq_true, decide_eq_true_eq] at h
    exact .inl ⟨hroot.1, hroot.2, h.1.1.1.1, h.1.1.1.2, h.1.1.2⟩
  · dsimp only at h
    split at h
    · rename_i hne
      obtain ⟨key, hkey⟩ := hne
      obtain ⟨hs, hw⟩ := Finset.mem_inter.mp hkey
      exact .inr ⟨key, hs, hw⟩
    · cases h

theorem mem_validClaims {m : Membership} {id : String} : id ∈ validClaims anchor claims m ↔
      ∃ claim ∈ claims, claim.id = id ∧ claimCounts anchor claim m = true := by
  unfold validClaims
  simp only [mem_toFinset, mem_map, mem_filter]
  exact ⟨fun ⟨claim, ⟨hm, hc⟩, hid⟩ => ⟨claim, hm, hid, hc⟩,
    fun ⟨claim, hm, hid, hc⟩ => ⟨claim, ⟨hm, hc⟩, hid⟩⟩

/-! ### The fold -/

/-- The value of the rounds over `claims` after `n` of them. -/
abbrev stageOf (anchor : String) (claims : List FleetClaim) (n : ℕ) : Finset String :=
  Rounds.stage (round anchor (fleetClaims claims)) ∅ n

theorem stageOf_succ (anchor : String) (claims : List FleetClaim) (n : ℕ) :
    stageOf anchor claims (n + 1) = round anchor (fleetClaims claims) (stageOf anchor claims n) :=
  Rounds.stage_succ _ _ n

/-- What the rounds return was all reached in one of them. -/
theorem rounds_subset_stageOf (anchor : String) (claims : List FleetClaim) (n : ℕ) :
    ∃ k, Rounds.rounds (round anchor (fleetClaims claims)) (· ∩ ·) n none ∅ ⊆
      stageOf anchor claims k := by
  obtain ⟨k, hk | hk⟩ :=
    @Rounds.rounds_reached _ (round anchor (fleetClaims claims)) ∅ _ (· ∩ ·) n
  · exact ⟨k, by rw [hk]⟩
  · refine ⟨k, ?_⟩
    rw [hk]
    cases k with
    | zero => exact Finset.Subset.refl _
    | succ k => exact Finset.inter_subset_left

/-- The ids of the fleet claims among `claims`. -/
def idsOf (claims : List FleetClaim) : Finset String := ((fleetClaims claims).map (·.id)).toFinset

theorem mem_idsOf {id : String} :
    id ∈ idsOf claims ↔ ∃ claim ∈ fleetClaims claims, claim.id = id := by
  simp [idsOf]

theorem stageOf_subset_idsOf (anchor : String) (claims : List FleetClaim) (n : ℕ) :
    stageOf anchor claims n ⊆ idsOf claims := by
  intro id hid
  cases n with
  | zero => exact absurd hid (Finset.notMem_empty _)
  | succ n =>
    rw [stageOf_succ] at hid
    obtain ⟨claim, hm, hid, -⟩ := mem_validClaims.mp hid
    exact mem_idsOf.mpr ⟨claim, hm, hid⟩

/-- The ids of the claims that count: what the rounds return. -/
def counting (anchor : String) (claims : List FleetClaim) : Finset String :=
  Rounds.rounds (round anchor (fleetClaims claims)) (· ∩ ·) (foldLimit (fleetClaims claims)) none ∅

theorem fold_some (anchor : String) (claims : List FleetClaim) :
    fold (some anchor) claims =
      build anchor (fleetClaims claims) (counting anchor claims) := rfl

theorem counts_fold {id : String} :
    (fold (some anchor) claims).counts id ↔ id ∈ counting anchor claims := by
  rw [fold_some, counts, build_valid]

end SmallTalk.Fleet
