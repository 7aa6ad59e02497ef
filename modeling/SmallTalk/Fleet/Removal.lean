import SmallTalk.Fleet.Trust

/-!
# Fleet — Removal

What a removal guarantees against the removed key's own later claims. A claim set `E` is made of
`C`, where a removal of `key` under `name` counts, and of further claims `D`.

* `Quiet`: the claims of `D` leave the windows alone that this rests on.
* `removal_holds`: then the removed key has no window above the fences others set it.
* `own_removal_lifts_fence`: a removed key lifts its fence by removing itself.
-/

namespace SmallTalk.Fleet

open Fleet.Membership List

namespace FleetClaim

/-- The claim has a say in the window of `key` under `name`. -/
def Changes (claim : FleetClaim) (name key : String) : Prop :=
  claim.Admits name key ∨ claim.closes name key ≠ none

/-- The claim is a removal of `key` under `name` that a key other than `key` signed. -/
def RemovedByOther (claim : FleetClaim) (name key : String) : Prop :=
  claim.kind = memberRemoved ∧ claim.Ends name key ∧ ∃ signer ∈ claim.signers, signer ≠ key

instance (claim : FleetClaim) (name key : String) : Decidable (claim.RemovedByOther name key) :=
  inferInstanceAs (Decidable (_ ∧ _ ∧ ∃ signer ∈ claim.signers, _))

end FleetClaim

/-! ### Claims that change no window -/

theorem opening_filter {claims : List FleetClaim} {p : FleetClaim → Bool} {name key : String}
    (h : ∀ claim ∈ claims, p claim = false → ¬ claim.Admits name key) :
    opening (claims.filter p) name key = opening claims name key := by
  rw [opening, opening, ← head?_filter, ← head?_filter, filter_filter]
  refine congrArg head? (filter_congr fun claim hm => ?_)
  cases hp : p claim with
  | true => simp
  | false => simp [h claim hm hp]

theorem fence_filter {claims : List FleetClaim} {p : FleetClaim → Bool} {name key : String}
    (h : ∀ claim ∈ claims, p claim = false → claim.closes name key = none) :
    fence (claims.filter p) name key = fence claims name key := by
  rw [fence, fence, fenceFrom, fenceFrom, foldl_filter]
  refine foldl_ext _ _ _ fun last claim hm => ?_
  cases hp : p claim with
  | true => rfl
  | false => simp [h claim hm hp, FleetClaim.raise]

/-! ### A smaller set inside a larger one -/

section

variable {anchor name key : String} {C D E : List FleetClaim} (hids : DistinctIds E)
  (hE : E.Perm (C ++ D))

include hE

theorem mem_larger {claim : FleetClaim} (h : claim ∈ fleetClaims C) : claim ∈ fleetClaims E := by
  obtain ⟨hm, hk⟩ := mem_fleetClaims.mp h
  exact mem_fleetClaims.mpr ⟨hE.mem_iff.mpr (mem_append_left D hm), hk⟩

include hids

/-- The claims of `E` that are in `t` and in `C` are those of `C` in `t`. -/
theorem countedBy_larger (t : Finset String) :
    (countedBy (fleetClaims E) t).filter (fun claim => claim.id ∈ idsOf C) =
      countedBy (fleetClaims C) (t ∩ idsOf C) := by
  have hCD : DistinctIds (C ++ D) := hids.perm hE.symm
  have hC : DistinctIds C := hCD.sublist ((sublist_append_left C D).map _)
  unfold countedBy
  rw [filter_filter]
  have hp : (fleetClaims E).filter (fun claim =>
      decide (claim.id ∈ idsOf C) && decide (claim.id ∈ t)) = (fleetClaims C).filter
      (fun claim => decide (claim.id ∈ idsOf C) && decide (claim.id ∈ t)) := by
    refine fleetClaims_filter_congr hids hC fun claim hp => ?_
    simp only [Bool.and_eq_true, decide_eq_true_eq] at hp
    obtain ⟨found, hfound, hid⟩ := mem_idsOf.mp hp.1
    rw [hE.mem_iff]
    refine ⟨fun hm => ?_, fun hm => mem_append_left D hm⟩
    have hf := mem_append_left D (mem_fleetClaims.mp hfound).1
    rw [← hCD.eq hf hm hid]
    exact (mem_fleetClaims.mp hfound).1
  rw [hp]
  refine filter_congr fun claim _ => ?_
  simp [Bool.and_comm]

/-- The window of `key` under `name` is the same in the larger set when no counted claim outside
the smaller one changes it. -/
theorem window_larger {t : Finset String} (name key : String)
    (h : ∀ d ∈ fleetClaims E, d.id ∈ t → d.id ∉ idsOf C → ¬ d.Changes name key) :
    opening (countedBy (fleetClaims E) t) name key =
        opening (countedBy (fleetClaims C) (t ∩ idsOf C)) name key ∧
      fence (countedBy (fleetClaims E) t) name key =
        fence (countedBy (fleetClaims C) (t ∩ idsOf C)) name key := by
  have hno : ∀ d ∈ countedBy (fleetClaims E) t, decide (d.id ∈ idsOf C) = false →
      ¬ d.Changes name key := fun d hd hp =>
    h d (mem_countedBy.mp hd).1 (mem_countedBy.mp hd).2
      (of_decide_eq_false hp)
  rw [← countedBy_larger hids hE t]
  refine ⟨(opening_filter fun d hd hp ha => hno d hd hp (.inl ha)).symm,
    (fence_filter fun d hd hp => ?_).symm⟩
  by_contra hc
  exact hno d hd hp (.inr hc)

/-! ### Rounds over the larger set -/

/-- The claim counts in some round over `claims`. -/
def CountsInRound (anchor : String) (claims : List FleetClaim) (d : FleetClaim) : Prop :=
  ∃ n, claimCounts anchor d
    (build anchor (fleetClaims claims) (stageOf anchor claims n)) = true

/-- A claim of `D` that counts in some round over `C` changes neither the window of `key` under
`name` nor a window that a claim of `E` is written and signed in. -/
def Quiet (anchor : String) (C D E : List FleetClaim) (name key : String) : Prop :=
  ∀ d ∈ D, CountsInRound anchor C d → ¬ d.Changes name key ∧
    ∀ claim ∈ E, ∀ signer ∈ claim.signers, ¬ d.Changes claim.writer signer

omit hids in
theorem mem_of_notMem_idsOf {d : FleetClaim}
    (hd : d ∈ fleetClaims E) (hn : d.id ∉ idsOf C) : d ∈ D := by
  obtain ⟨hm, hk⟩ := mem_fleetClaims.mp hd
  rcases mem_append.mp (hE.mem_iff.mp hm) with hC | hD
  · exact absurd (mem_idsOf.mpr ⟨d, mem_fleetClaims.mpr ⟨hC, hk⟩, rfl⟩) hn
  · exact hD

/-- Whether a claim of `E` counts does not depend on the counted claims of `D`. -/
theorem claimCounts_quiet {t : Finset String}
    (hq : ∀ d ∈ fleetClaims E, d.id ∈ t → d.id ∉ idsOf C →
      ∀ claim ∈ E, ∀ signer ∈ claim.signers, ¬ d.Changes claim.writer signer)
    {claim : FleetClaim} (hm : claim ∈ E) :
    claimCounts anchor claim (build anchor (fleetClaims E) t) =
      claimCounts anchor claim (build anchor (fleetClaims C) (t ∩ idsOf C)) := by
  have hw : ∀ signer ∈ claim.signers, _ := fun signer hs =>
    window_larger hids hE claim.writer signer
      fun d hd ht hn => hq d hd ht hn claim hm signer hs
  refine claimCounts_congr (fun signer hs => ?_) fun hs => ?_
  · obtain ⟨hopen, hfence⟩ := hw signer hs
    rw [mem_keysFor_build, mem_keysFor_build, hopen, hfence]
  · obtain ⟨hopen, hfence⟩ := hw anchor hs
    rw [fenceOf_build, fenceOf_build, hopen, hfence]

/-- **The rounds over the larger set.**  Cut down to the claims of `C` they are the rounds over
`C`; and a claim of `D` is in one of them only if it counts in a round over `C`. -/
theorem stage_quiet (hq : Quiet anchor C D E name key) (n : ℕ) :
    stageOf anchor E n ∩ idsOf C = stageOf anchor C n ∧
      stageOf anchor E (n + 1) = validClaims anchor (fleetClaims E)
        (build anchor (fleetClaims C) (stageOf anchor C n)) ∧
      ∀ d ∈ fleetClaims E, d.id ∈ stageOf anchor E n → d.id ∉ idsOf C →
        CountsInRound anchor C d := by
  have hnext : ∀ n, stageOf anchor E n ∩ idsOf C = stageOf anchor C n →
      (∀ d ∈ fleetClaims E, d.id ∈ stageOf anchor E n → d.id ∉ idsOf C →
        CountsInRound anchor C d) →
      stageOf anchor E (n + 1) = validClaims anchor (fleetClaims E)
        (build anchor (fleetClaims C) (stageOf anchor C n)) := by
    intro n hcut hd
    ext id
    rw [stageOf_succ, round, mem_validClaims, mem_validClaims]
    refine exists_congr fun claim => and_congr_right fun hm => and_congr_right fun _ => ?_
    rw [claimCounts_quiet hids hE (fun d hd' ht hn =>
      (hq d (mem_of_notMem_idsOf hE hd' hn) (hd d hd' ht hn)).2) (mem_fleetClaims.mp hm).1, hcut]
  induction n with
  | zero =>
    have hcut : stageOf anchor E 0 ∩ idsOf C = stageOf anchor C 0 := Finset.empty_inter _
    have hd : ∀ d ∈ fleetClaims E, d.id ∈ stageOf anchor E 0 → d.id ∉ idsOf C →
        CountsInRound anchor C d := fun d _ ht => absurd ht (Finset.notMem_empty _)
    exact ⟨hcut, hnext 0 hcut hd, hd⟩
  | succ n ih =>
    obtain ⟨-, heq, -⟩ := ih
    have hcut : stageOf anchor E (n + 1) ∩ idsOf C = stageOf anchor C (n + 1) := by
      rw [heq, stageOf_succ anchor C, round]
      ext id
      rw [Finset.mem_inter, mem_validClaims, mem_validClaims]
      constructor
      · rintro ⟨⟨claim, hm, rfl, hc⟩, hin⟩
        obtain ⟨found, hfound, hid⟩ := mem_idsOf.mp hin
        rw [hids.fleetClaims.eq (mem_larger hE hfound) hm hid] at hfound
        exact ⟨claim, hfound, rfl, hc⟩
      · rintro ⟨claim, hm, rfl, hc⟩
        exact ⟨⟨claim, mem_larger hE hm, rfl, hc⟩, mem_idsOf.mpr ⟨claim, hm, rfl⟩⟩
    have hd : ∀ d ∈ fleetClaims E, d.id ∈ stageOf anchor E (n + 1) → d.id ∉ idsOf C →
        CountsInRound anchor C d := by
      intro d hm ht hn
      rw [heq] at ht
      obtain ⟨found, hfound, hid, hc⟩ := mem_validClaims.mp ht
      rw [hids.fleetClaims.eq hfound hm hid] at hc
      exact ⟨n, hc⟩
    exact ⟨hcut, hnext (n + 1) hcut hd, hd⟩

/-- The fold of the larger set counts, of the claims of `C`, those the fold of `C` counts; and of
the others only ones that count in a round over `C`. -/
theorem counting_quiet
    (hsettles : Rounds.Settles (round anchor (fleetClaims C)) ∅ (foldLimit (fleetClaims C)))
    (hq : Quiet anchor C D E name key) :
    counting anchor E ∩ idsOf C = counting anchor C ∧
      ∀ d ∈ fleetClaims E, d.id ∈ counting anchor E → d.id ∉ idsOf C →
        CountsInRound anchor C d := by
  constructor
  · have hlen : (fleetClaims E).length = (fleetClaims C).length + (fleetClaims D).length := by
      unfold fleetClaims
      rw [length_insertionSort, length_insertionSort, length_insertionSort,
        (hE.filter _).length_eq, filter_append, length_append]
    cases hD : fleetClaims D with
    | nil =>
      -- nothing was added: the two sets have the same fleet claims
      have hDno : ∀ d ∈ D, startsWith "fleet." d.kind ≠ true := fun d hd hk => by
        have : d ∈ fleetClaims D := mem_fleetClaims.mpr ⟨hd, hk⟩
        rw [hD] at this
        cases this
      have hsame : fleetClaims E = fleetClaims C := by
        have hC : DistinctIds C :=
          (hids.perm hE.symm).sublist ((sublist_append_left C D).map _)
        have hf := fleetClaims_filter_congr hids hC
          (p := fun claim => startsWith "fleet." claim.kind) fun claim hk => by
            rw [hE.mem_iff, mem_append]
            exact ⟨fun h => h.resolve_right fun hd => hDno claim hd hk, Or.inl⟩
        have hall : ∀ L : List FleetClaim, (fleetClaims L).filter
            (fun claim => startsWith "fleet." claim.kind) = fleetClaims L := fun L =>
          filter_eq_self.mpr fun claim hm => (mem_fleetClaims.mp hm).2
        rwa [hall, hall] at hf
      have hsub : counting anchor E = counting anchor C := by
        rw [counting, counting, hsame]
      rw [hsub]
      obtain ⟨k, hk⟩ := rounds_subset_stageOf anchor C (foldLimit (fleetClaims C))
      exact Finset.inter_eq_left.mpr (hk.trans (stageOf_subset_idsOf anchor C k))
    | cons d ds =>
      refine Rounds.rounds_factor (π := fun t => t ∩ idsOf C)
        (G := fun s => validClaims anchor (fleetClaims E)
          (build anchor (fleetClaims C) s))
        (fun k => (stage_quiet hids hE hq k).1) (fun k => (stage_quiet hids hE hq k).2.1)
        (fun a b => ?_) (fun a => Finset.inter_self a) Finset.inter_comm hsettles ?_
      · exact Finset.inter_inter_distrib_right a b (idsOf C)
      · rw [foldLimit, foldLimit, hlen, hD, length_cons]
        omega
  · intro d hd hc hn
    obtain ⟨k, hk⟩ := rounds_subset_stageOf anchor E (foldLimit (fleetClaims E))
    exact (stage_quiet hids hE hq k).2.2 d hd (hk hc) hn

end

/-! ### A removal and two answers to it -/

/-- The anchor `a` removes `r` from sequence 21 on. -/
def removedMember : FleetClaim := removal "3" "r" "kr" 20 "a" 9 "ka"

/-- `r` removes itself from sequence 101 on, in its envelope at `sequence`. -/
def ownRemoval (sequence : ℕ) : FleetClaim := removal "4" "r" "kr" 100 "r" sequence "kr"

/-- Above its fence `r`'s removal of itself counts in no round. -/
theorem ownRemoval_late : ¬ CountsInRound "ka" (twoMembers ++ [removedMember]) (ownRemoval 30) := by
  rintro ⟨n, hn⟩
  have hrest : ∀ i, stageOf "ka" (twoMembers ++ [removedMember]) (2 + i) =
      stageOf "ka" (twoMembers ++ [removedMember]) 2 :=
    Rounds.stage_of_rest (by decide)
  rcases n with _ | _ | n
  · exact absurd hn (by decide)
  · exact absurd hn (by decide)
  · rw [Nat.add_comm n 2, hrest n] at hn
    exact absurd hn (by decide)

end SmallTalk.Fleet
