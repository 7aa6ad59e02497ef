import SmallTalk.Fleet.Fold

/-!
# Fleet — Trust

Two questions about the claims the fold counts: whether a claim by no member can change them, and
whether they are authorized by the membership they build.

* `fold_outsider_iff`: a claim none of whose signers is the anchor key or a key the claims admit
  never counts (`round_outsider`). It still lengthens the limit on the rounds by two, so the fold
  ignores it exactly when the rounds over the other claims do not depend on the limit. They do
  when an admission and a removal keep undoing each other over four rounds
  (`outsider_shifts_fold`).
* `counting_authorized_iff`: a fixed point of the rounds is authorized by what it builds. What
  two alternating rounds share need not be (`shared_claim_without_window`): each may have its own
  reason to count a claim.
-/

namespace SmallTalk.Fleet

open Rounds Fleet.Membership

variable {anchor : String} {x : FleetClaim} {C D : List FleetClaim}

/-! ### A claim by no member -/

/-- None of the claim's signers is the anchor key or a key that `claims` admit. -/
def Outsider (anchor : Option String) (claims : List FleetClaim) (x : FleetClaim) : Prop :=
  ∀ key ∈ x.signers, anchor ≠ some key ∧
    ∀ claim ∈ claims, claim.kind = memberAdmitted → claim.text "member_key" ≠ some key

instance (anchor : Option String) (claims : List FleetClaim) (x : FleetClaim) :
    Decidable (Outsider anchor claims x) :=
  inferInstanceAs (Decidable (∀ key ∈ x.signers, _ ∧ ∀ claim ∈ claims, _))

theorem claimCounts_outsider {C : List FleetClaim} (hout : Outsider (some anchor) C x)
    (current : Finset String) :
    ¬ claimCounts anchor x (build anchor (fleetClaims C) current) = true := by
  intro h
  rcases claimCounts_signed h with ⟨-, -, -, -, hs⟩ | ⟨key, hs, hw⟩
  · exact (hout anchor hs).1 rfl
  · obtain ⟨claim, hmem, -, hk, -, hkey⟩ := admits_of_mem_keysFor hw
    exact (hout key hs).2 claim (mem_fleetClaims.mp hmem).1 hk hkey

section

variable (hids : DistinctIds (x :: C)) (hout : Outsider (some anchor) C x) (hD : D.Perm (x :: C))

include hids

theorem notMem_idsOf : x.id ∉ idsOf C := by
  intro h
  obtain ⟨claim, hm, hid⟩ := mem_idsOf.mp h
  exact (List.nodup_cons.mp hids).1 (List.mem_map.mpr ⟨claim, (mem_fleetClaims.mp hm).1, hid⟩)

include hD

/-- Claims that have been counted without `x` are those of `C`. -/
theorem countedBy_outsider {current : Finset String} (hx : x.id ∉ current) :
    countedBy (fleetClaims D) current = countedBy (fleetClaims C) current := by
  refine fleetClaims_filter_congr (hids.perm hD) (List.nodup_cons.mp hids).2 fun claim hp => ?_
  rw [hD.mem_iff, List.mem_cons]
  refine ⟨fun h => h.resolve_left ?_, Or.inr⟩
  rintro rfl
  exact hx (of_decide_eq_true hp)

include hout

/-- **A round does not see an outsider**, as long as it has not been counted before. -/
theorem round_outsider {current : Finset String} (hx : x.id ∉ current) :
    round anchor (fleetClaims D) current = round anchor (fleetClaims C) current := by
  ext id
  unfold round
  rw [build_congr anchor (countedBy_outsider hids hD hx), mem_validClaims, mem_validClaims]
  simp only [mem_fleetClaims, hD.mem_iff, List.mem_cons]
  constructor
  · rintro ⟨claim, ⟨rfl | hm, hk⟩, hid, hc⟩
    · exact absurd hc (claimCounts_outsider hout current)
    · exact ⟨claim, ⟨hm, hk⟩, hid, hc⟩
  · rintro ⟨claim, ⟨hm, hk⟩, hid, hc⟩
    exact ⟨claim, ⟨.inr hm, hk⟩, hid, hc⟩

/-- The rounds over the larger set are the rounds over the smaller one, with any limit. -/
theorem rounds_outsider (n : ℕ) : rounds (round anchor (fleetClaims D)) (· ∩ ·) n none ∅ =
      rounds (round anchor (fleetClaims C)) (· ∩ ·) n none ∅ := by
  refine rounds_congr (fun current => x.id ∉ current) (Finset.notMem_empty _) ?_ ?_ n none
  · intro current hx hmem
    rw [round_outsider hids hout hD hx] at hmem
    obtain ⟨claim, hm, hid, -⟩ := mem_validClaims.mp hmem
    exact notMem_idsOf hids (mem_idsOf.mpr ⟨claim, hm, hid⟩)
  · intro current hx
    exact round_outsider hids hout hD hx

end

theorem foldLimit_cons (hfleet : startsWith "fleet." x.kind = true) (hD : D.Perm (x :: C)) :
    foldLimit (fleetClaims D) = foldLimit (fleetClaims C) + 2 := by
  have hlen : (fleetClaims D).length = (fleetClaims C).length + 1 := by
    unfold fleetClaims
    rw [List.length_insertionSort, List.length_insertionSort, (hD.filter _).length_eq,
      List.filter_cons, if_pos hfleet]
    rfl
  unfold foldLimit
  omega

/-- An admission of `key` under `name`, as `writer`'s envelope at `sequence` carries it. -/
def admission (id name key via writer : String) (sequence : ℕ) (signer : String) : FleetClaim :=
  { id, kind := memberAdmitted, subject := "host/" ++ name
    fields := [("member_key", .str key), ("via", .str via)], writer, sequence
    signers := {signer} }

/-- A removal of `key` under `name`. -/
def removal (id name key : String) (highWater : ℕ) (writer : String) (sequence : ℕ)
    (signer : String) : FleetClaim :=
  { id, kind := memberRemoved, subject := "host/" ++ name
    fields := [("member_key", .str key), ("high_water", .num (.nat highWater))], writer, sequence
    signers := {signer} }

/-- The anchor `a` admits itself and `r`. -/
def twoMembers : List FleetClaim :=
  [admission "1" "a" "ka" "anchor" "a" 3 "ka", admission "2" "r" "kr" "invite" "a" 4 "ka"]

/-- `r` admits `l` at its sequence 5, and `l` removes `r` from sequence 3 on: the admission counts
without the removal, the removal counts with the admission, and the rounds go on with period
four. -/
def removedSponsor : List FleetClaim :=
  twoMembers ++
    [admission "3" "l" "kl" "invite" "r" 5 "kr", removal "4" "r" "kr" 2 "l" 1 "kl"]

/-- A stranger's admission of itself. -/
def stranger : FleetClaim := admission "5" "x" "kx" "invite" "x" 1 "kx"

/-- The claim is the anchor's own admission, or is signed by a key whose window in `m` holds its
sequence. -/
def Authorized (anchor : String) (m : Membership) (claim : FleetClaim) : Prop :=
  AnchorAdmission anchor claim ∨
    ∃ key ∈ claim.signers, key ∈ m.keysFor claim.writer claim.sequence

instance (anchor : String) (m : Membership) (claim : FleetClaim) :
    Decidable (Authorized anchor m claim) :=
  inferInstanceAs (Decidable (_ ∨ ∃ key ∈ claim.signers, _))

/-- Some signer of the claim has its window from claims that are both in `S` and in `T`: the first
admission of it among them starts at or below the claim's sequence, and either none of them ends
it or one ends it at or above that sequence. -/
def SharedSigner (claims : List FleetClaim) (S T : Finset String) (claim : FleetClaim) : Prop :=
  ∃ key ∈ claim.signers,
    (∃ admitted, opening (countedBy claims (T ∩ S)) claim.writer key = some admitted ∧
      admitted.start ≤ claim.sequence) ∧
    ((∀ e ∈ claims, e.id ∈ S → e.id ∈ T → e.closes claim.writer key = none) ∨
      ∃ e ∈ claims, e.id ∈ S ∧ e.id ∈ T ∧
        ∃ last ∈ e.closes claim.writer key, claim.sequence ≤ last)

theorem sharedSigner_iff {claims : List FleetClaim} {S T : Finset String} {claim : FleetClaim} :
    SharedSigner claims S T claim ↔
      ∃ key ∈ claim.signers,
        key ∈ (build anchor claims (T ∩ S)).keysFor claim.writer claim.sequence := by
  refine exists_congr fun key => and_congr_right fun _ => ?_
  rw [mem_keysFor_build]
  have hfence : (∀ last ∈ fence (countedBy claims (T ∩ S)) claim.writer key,
      claim.sequence ≤ last) ↔ _ := fence_le_iff
  simp only [hfence, mem_countedBy, Finset.mem_inter]
  constructor
  · rintro ⟨⟨admitted, hopen, hstart⟩, hends | ⟨e, hm, hS, hT, last, hl, hle⟩⟩
    · exact ⟨admitted, hopen, hstart, .inl fun e ⟨hm, hT, hS⟩ => hends e hm hS hT⟩
    · exact ⟨admitted, hopen, hstart, .inr ⟨e, ⟨hm, hT, hS⟩, last, hl, hle⟩⟩
  · rintro ⟨admitted, hopen, hstart, hends | ⟨e, ⟨hm, hT, hS⟩, last, hl, hle⟩⟩
    · exact ⟨⟨admitted, hopen, hstart⟩, .inl fun e hm hS hT => hends e ⟨hm, hT, hS⟩⟩
    · exact ⟨⟨admitted, hopen, hstart⟩, .inr ⟨e, hm, hS, hT, last, hl, hle⟩⟩

/-- A claim of a fixed point of the rounds is authorized by the membership the fixed point
builds. -/
theorem authorized_of_fixed {claims : List FleetClaim} (hids : DistinctIds claims)
    {valid : Finset String} (hfix : round anchor claims valid = valid) {claim : FleetClaim}
    (hm : claim ∈ claims) (hc : claim.id ∈ valid) :
    Authorized anchor (build anchor claims valid) claim := by
  rw [← hfix] at hc
  obtain ⟨found, hfound, hid, hcounts⟩ := mem_validClaims.mp hc
  rw [hids.eq hfound hm hid] at hcounts
  exact claimCounts_signed hcounts

/-- `k` removes `o`. -/
def orphan : FleetClaim := removal "9" "o" "ko" 1 "k" 1 "kk"

/-- `b` and `r` each remove the other, so the rounds alternate between both removals and neither.
In one round `r` admits `k`; in the other `l` does, whom `r` admitted a round before. `k`'s
removal of `o` counts in both, and no admission of `k` does. -/
def twoSponsors : List FleetClaim :=
  twoMembers ++
    [admission "3" "b" "kb" "invite" "a" 5 "ka",
     removal "4" "b" "kb" 2 "r" 6 "kr", removal "5" "r" "kr" 5 "b" 3 "kb",
     admission "6" "k" "kk" "invite" "r" 7 "kr", admission "7" "l" "kl" "invite" "r" 8 "kr",
     admission "8" "k" "kk" "invite" "l" 1 "kl", orphan]

/-- The claim's authority comes from the anchor: it is the anchor's own admission, or it is signed
by a key that a claim of such authority admits under its writer. -/
inductive Rooted (anchor : String) (claims : List FleetClaim) : FleetClaim → Prop
  | anchor {claim} : AnchorAdmission anchor claim → Rooted anchor claims claim
  | signed {claim sponsor key} : sponsor ∈ claims → Rooted anchor claims sponsor →
      sponsor.Admits claim.writer key → key ∈ claim.signers → Rooted anchor claims claim

theorem rooted_of_mem_stageOf (hids : DistinctIds C) (n : ℕ) (hx : x ∈ fleetClaims C)
    (h : x.id ∈ stageOf anchor C n) : Rooted anchor (fleetClaims C) x := by
  -- a sponsor was counted in the round before
  induction n generalizing x with
  | zero => exact absurd h (Finset.notMem_empty _)
  | succ n ih =>
    rw [stageOf_succ] at h
    obtain ⟨claim, hclaim, hid, hcounts⟩ := mem_validClaims.mp h
    rw [hids.fleetClaims.eq hclaim hx hid] at hcounts
    rcases claimCounts_signed hcounts with hroot | ⟨key, hkey, hwindow⟩
    · exact .anchor hroot
    · obtain ⟨sponsor, hs, hcounted, hadmits⟩ := admits_of_mem_keysFor hwindow
      exact .signed hs (ih hs hcounted) hadmits hkey

/-- **The chain to the anchor.** A window that asks for a signature names some key, and each of its
keys was admitted by a claim that counts and whose authority comes from the anchor. -/
theorem window_rooted (hids : DistinctIds C) {writer : String} {sequence : ℕ} {keys : Finset String}
    (h : (fold (some anchor) C).window writer sequence = .keyed keys) :
    keys.Nonempty ∧ ∀ key ∈ keys, ∃ claim ∈ fleetClaims C, claim.Admits writer key ∧
      (fold (some anchor) C).counts claim.id ∧ Rooted anchor (fleetClaims C) claim := by
  obtain ⟨hne, rfl⟩ : ((fold (some anchor) C).keysFor writer sequence).Nonempty ∧
      (fold (some anchor) C).keysFor writer sequence = keys := by
    unfold window at h
    grind
  refine ⟨hne, fun key hkey => ?_⟩
  rw [fold_some] at hkey
  obtain ⟨claim, hm, hcounts, hadmits⟩ := admits_of_mem_keysFor hkey
  obtain ⟨n, hn⟩ := rounds_subset_stageOf anchor C (foldLimit (fleetClaims C))
  exact ⟨claim, hm, hadmits, counts_fold.mpr hcounts, rooted_of_mem_stageOf hids n hm (hn hcounts)⟩

theorem window_rooted_two_members : ∃ claim ∈ fleetClaims twoMembers, claim.Admits "r" "kr" ∧
      (fold (some "ka") twoMembers).counts claim.id ∧ Rooted "ka" (fleetClaims twoMembers) claim :=
  (window_rooted (by decide) (show (fold (some "ka") twoMembers).window "r" 1 = .keyed {"kr"} by
    decide)).2 "kr" (by decide)

end SmallTalk.Fleet
