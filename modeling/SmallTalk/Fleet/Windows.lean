import SmallTalk.Fleet.Membership

/-!
# Fleet — Windows

What `Membership.build` gives a key under a name, read off the counted claims: the window opens
at the start of the first counted admission of the key (`opening`), and closes at the largest
high water of the counted removals and leaves of it (`fence`). `mem_keysFor_build` and
`fenceOf_build` are all the later files use of `build`.
-/

namespace SmallTalk.Fleet

open Incarnation List

variable {m : Membership} {name key : String} {claims : List FleetClaim} (claim : FleetClaim)
  (i : Incarnation)

/-! ### Lookups of one incarnation -/

namespace Membership

def incarnation (m : Membership) (name key : String) : Option Incarnation :=
  m.incarnations.find? fun i => i.name = name ∧ i.memberKey = key

/-- Each incarnation is the one its name and key look up. -/
def Distinct (m : Membership) : Prop :=
  ∀ i ∈ m.incarnations, m.incarnation i.name i.memberKey = some i

theorem incarnation_spec {i : Incarnation} (h : m.incarnation name key = some i) :
    i ∈ m.incarnations ∧ i.name = name ∧ i.memberKey = key :=
  ⟨mem_of_find?_eq_some h, by simpa using find?_some h⟩

theorem fenceOf_eq (m : Membership) (name key : String) :
    m.fenceOf name key = (m.incarnation name key).bind (·.fence) := by
  unfold fenceOf incarnation incarnationsOf
  rw [find?_filter]
  congr 2
  funext i
  simp

theorem mem_keysFor (hd : m.Distinct) {writer key : String} {sequence : ℕ} :
    key ∈ m.keysFor writer sequence ↔
      ∃ i, m.incarnation writer key = some i ∧ i.holds sequence = true := by
  simp only [keysFor, incarnationsOf, mem_toFinset, mem_map, mem_filter, decide_eq_true_eq]
  constructor
  · rintro ⟨i, ⟨⟨hi, rfl⟩, hh⟩, rfl⟩
    exact ⟨i, hd i hi, hh⟩
  · rintro ⟨i, hi, hh⟩
    obtain ⟨hmem, hname, hkey⟩ := incarnation_spec hi
    exact ⟨i, ⟨⟨hmem, hname⟩, hh⟩, hkey⟩

end Membership

/-! ### What one claim says about one incarnation -/

namespace FleetClaim

/-- The claim admits `key` under `name`. -/
def Admits (name key : String) : Prop :=
  claim.kind = memberAdmitted ∧ claim.name = some name ∧ claim.text "member_key" = some key

instance (claim : FleetClaim) (name key : String) : Decidable (claim.Admits name key) :=
  inferInstanceAs (Decidable (_ ∧ _ ∧ _))

/-- The claim is a removal or a leave of `key` under `name`. -/
def Ends (name key : String) : Prop :=
  (claim.kind = memberRemoved ∨ claim.kind = memberLeft) ∧ claim.name = some name ∧
    claim.text "member_key" = some key

instance (claim : FleetClaim) (name key : String) : Decidable (claim.Ends name key) :=
  inferInstanceAs (Decidable (_ ∧ _ ∧ _))

/-- The high water at which the claim ends `key` under `name`. -/
def closes (name key : String) : Option ℕ :=
  if claim.Ends name key then claim.number "high_water" else none

/-- What the claim does to an incarnation. -/
def onIncarnation : Incarnation :=
  match claim.closes i.name i.memberKey with
  | some highWater =>
    i.endAt claim highWater (if claim.kind = memberLeft then "left" else "removed")
  | none =>
    if claim.kind = memberEndpoints ∧ claim.name = some i.name ∧
      claim.text "member_key" = some i.memberKey then i.listen claim
    else i

end FleetClaim

namespace Incarnation

theorem holds_iff {i : Incarnation} {sequence : ℕ} :
    i.holds sequence = true ↔ i.start ≤ sequence ∧ ∀ last ∈ i.fence, sequence ≤ last := by
  unfold holds
  cases i.fence with
  | none => simp
  | some fence => simp

theorem endAt_name (claim : FleetClaim) (h : ℕ) (ended : String) :
    (i.endAt claim h ended).name = i.name ∧ (i.endAt claim h ended).memberKey = i.memberKey ∧
      (i.endAt claim h ended).start = i.start := by
  unfold endAt
  dsimp only
  split
  · exact ⟨rfl, rfl, rfl⟩
  · split <;> exact ⟨rfl, rfl, rfl⟩

theorem endAt_fence (claim : FleetClaim) (h : ℕ) (ended : String) :
    (i.endAt claim h ended).fence = some (i.fence.elim h fun fence => max fence h) := by
  unfold endAt
  dsimp only
  split
  · rfl
  · split <;> rfl

theorem listen_same (claim : FleetClaim) :
    (i.listen claim).name = i.name ∧ (i.listen claim).memberKey = i.memberKey ∧
      (i.listen claim).start = i.start ∧ (i.listen claim).fence = i.fence := by
  unfold listen
  split <;> exact ⟨rfl, rfl, rfl, rfl⟩

end Incarnation

namespace FleetClaim

theorem onIncarnation_same :
    (claim.onIncarnation i).name = i.name ∧ (claim.onIncarnation i).memberKey = i.memberKey ∧
      (claim.onIncarnation i).start = i.start := by
  unfold onIncarnation
  split
  · exact i.endAt_name claim _ _
  · split
    · obtain ⟨h₁, h₂, h₃, -⟩ := i.listen_same claim
      exact ⟨h₁, h₂, h₃⟩
    · exact ⟨rfl, rfl, rfl⟩

/-- A fence after one more high water. -/
def raise (fence : Option ℕ) (highWater : Option ℕ) : Option ℕ :=
  match highWater with
  | some h => some (fence.elim h fun fence => max fence h)
  | none => fence

theorem onIncarnation_fence :
    (claim.onIncarnation i).fence = raise i.fence (claim.closes i.name i.memberKey) := by
  unfold onIncarnation
  split
  · rename_i h
    rw [endAt_fence, h]
    rfl
  · rename_i h
    rw [h]
    split
    · exact (i.listen_same claim).2.2.2
    · rfl

end FleetClaim

/-! ### The second pass over the counted claims -/

namespace Membership

open FleetClaim in
/-- `heed` changes each incarnation by itself. -/
theorem heed_incarnations (m : Membership) (claim : FleetClaim) :
    (m.heed claim).incarnations = m.incarnations.map claim.onIncarnation := by
  have same : (∀ i ∈ m.incarnations, claim.onIncarnation i = i) →
      m.incarnations = m.incarnations.map claim.onIncarnation := fun h =>
    (map_id _).symm.trans (map_congr_left fun i hi => (h i hi).symm)
  unfold heed
  split
  · rename_i hn
    exact same fun i _ => by simp [onIncarnation, closes, Ends, hn]
  · rename_i name hn
    split
    · rename_i hk
      have he : claim.kind ≠ memberEndpoints := by
        rcases hk with hk | hk <;> rw [hk] <;> decide
      split
      · rename_i hw
        exact same fun i _ => by simp [onIncarnation, closes, hw, he]
      · rename_i highWater hw
        dsimp only
        split
        · rename_i key hkey
          refine map_congr_left fun i _ => ?_
          by_cases hi : i.name = name ∧ i.memberKey = key
          · obtain ⟨rfl, rfl⟩ := hi
            simp [onIncarnation, closes, Ends, hk, hn, hkey, hw]
          · have hne : ¬ (name = i.name ∧ key = i.memberKey) := fun h => hi ⟨h.1.symm, h.2.symm⟩
            simp [onIncarnation, closes, Ends, hn, hkey, hi, hne, he]
        · rename_i hkey
          exact same fun i _ => by simp [onIncarnation, closes, Ends, hkey]
    · rename_i hk
      have hends : ∀ i : Incarnation, claim.closes i.name i.memberKey = none := fun i =>
        if_neg fun h => hk h.1
      split
      · rename_i he
        split
        · rename_i hkey
          exact same fun i _ => by simp [onIncarnation, hends, hkey]
        · rename_i key hkey
          refine map_congr_left fun i _ => ?_
          by_cases hi : i.name = name ∧ i.memberKey = key
          · obtain ⟨rfl, rfl⟩ := hi
            simp [onIncarnation, hends, hn, hkey, he]
          · have hne : ¬ (name = i.name ∧ key = i.memberKey) := fun h => hi ⟨h.1.symm, h.2.symm⟩
            simp [onIncarnation, hends, hn, hkey, hi, hne]
      · rename_i he
        exact same fun i _ => by simp [onIncarnation, hends, he]

/-- A list of claims, on one incarnation. -/
def onIncarnationAll (claims : List FleetClaim) (i : Incarnation) : Incarnation :=
  claims.foldl (fun i claim => claim.onIncarnation i) i

theorem foldl_heed_incarnations (claims : List FleetClaim) (m : Membership) :
    (claims.foldl heed m).incarnations = m.incarnations.map (onIncarnationAll claims) := by
  induction claims generalizing m with
  | nil => exact (map_id _).symm
  | cons claim claims ih =>
    rw [foldl_cons, ih, heed_incarnations, map_map]
    rfl

theorem onIncarnationAll_same (claims : List FleetClaim) (i : Incarnation) :
    (onIncarnationAll claims i).name = i.name ∧
      (onIncarnationAll claims i).memberKey = i.memberKey ∧
      (onIncarnationAll claims i).start = i.start := by
  induction claims generalizing i with
  | nil => exact ⟨rfl, rfl, rfl⟩
  | cons claim claims ih =>
    obtain ⟨h₁, h₂, h₃⟩ := claim.onIncarnation_same i
    obtain ⟨g₁, g₂, g₃⟩ := ih (claim.onIncarnation i)
    exact ⟨g₁.trans h₁, g₂.trans h₂, g₃.trans h₃⟩

end Membership

/-- The fence the counted claims give `key` under `name`, from `fence` on. -/
def fenceFrom (claims : List FleetClaim) (name key : String) (fence : Option ℕ) : Option ℕ :=
  claims.foldl (fun fence claim => FleetClaim.raise fence (claim.closes name key)) fence

/-- The fence the counted claims give `key` under `name`. -/
def fence (claims : List FleetClaim) (name key : String) : Option ℕ :=
  fenceFrom claims name key none

/-- The admission that opens the window of `key` under `name`. -/
def opening (claims : List FleetClaim) (name key : String) : Option FleetClaim :=
  claims.find? fun claim => claim.Admits name key

theorem opening_spec {claim : FleetClaim} (h : opening claims name key = some claim) :
    claim ∈ claims ∧ claim.Admits name key := by
  exact ⟨mem_of_find?_eq_some h, by simpa using find?_some h⟩

namespace Membership

theorem onIncarnationAll_fence (claims : List FleetClaim) (i : Incarnation) :
    (onIncarnationAll claims i).fence = fenceFrom claims i.name i.memberKey i.fence := by
  induction claims generalizing i with
  | nil => rfl
  | cons claim claims ih =>
    obtain ⟨h₁, h₂, -⟩ := claim.onIncarnation_same i
    show (onIncarnationAll claims (claim.onIncarnation i)).fence = _
    rw [ih, h₁, h₂, claim.onIncarnation_fence]
    rfl

/-! ### The first pass: admissions -/

theorem any_known : ((m.incarnationsOf name).any fun known => known.memberKey = key) = true ↔
      ∃ i, m.incarnation name key = some i := by
  simp only [incarnationsOf, any_filter, incarnation, ← Option.isSome_iff_exists,
    find?_isSome, any_eq_true, Bool.and_eq_true, decide_eq_true_eq]

theorem admitMember_incarnation (m : Membership) (claim : FleetClaim)
    (hk : claim.kind = memberAdmitted) (name key : String) :
    (m.admitMember claim).incarnation name key =
      (m.incarnation name key).or
        (if claim.Admits name key then some (.admittedBy claim name key) else none) := by
  unfold admitMember
  split
  · rename_i n k hn hkey
    split
    · rename_i hany
      obtain ⟨i, hi⟩ := any_known.mp hany
      by_cases ha : claim.Admits name key
      · obtain ⟨-, h₁, h₂⟩ := ha
        obtain rfl : n = name := Option.some.inj (hn.symm.trans h₁)
        obtain rfl : k = key := Option.some.inj (hkey.symm.trans h₂)
        rw [hi]
        rfl
      · rw [if_neg ha, Option.or_none]
    · rename_i hany
      simp only [incarnation, find?_append]
      congr 1
      by_cases hnk : n = name ∧ k = key
      · obtain ⟨rfl, rfl⟩ := hnk
        rw [if_pos ⟨hk, hn, hkey⟩]
        simp [admittedBy]
      · have ha : ¬ claim.Admits name key := fun ⟨_, h₁, h₂⟩ =>
          hnk ⟨Option.some.inj (hn.symm.trans h₁), Option.some.inj (hkey.symm.trans h₂)⟩
        rw [if_neg ha]
        exact find?_eq_none.mpr fun i hi => by
          rw [mem_singleton.mp hi]
          exact mt of_decide_eq_true hnk
  · rename_i hno
    have ha : ¬ claim.Admits name key := fun ⟨_, h₁, h₂⟩ => hno _ _ h₁ h₂
    rw [if_neg ha, Option.or_none]

theorem admitMember_distinct (hd : m.Distinct) (claim : FleetClaim) :
    (m.admitMember claim).Distinct := by
  unfold admitMember
  split
  · rename_i n k hn hkey
    split
    · exact hd
    · rename_i hany
      intro i hi
      rcases mem_append.mp hi with hi | hi
      · simp only [incarnation, find?_append]
        have := hd i hi
        simp only [incarnation] at this
        rw [this]
        rfl
      · obtain rfl := mem_singleton.mp hi
        have hnone : m.incarnation n k = none := by
          rw [← Option.not_isSome_iff_eq_none, Option.isSome_iff_exists]
          exact fun h => hany (any_known.mpr h)
        have hlast : [admittedBy claim n k].find?
            (fun i => i.name = n ∧ i.memberKey = k) = some (.admittedBy claim n k) := by
          simp [admittedBy]
        show (m.incarnations ++ [admittedBy claim n k]).find?
          (fun i => i.name = n ∧ i.memberKey = k) = _
        rw [find?_append, hlast]
        exact congrArg (fun found => Option.or found _) hnone
  · exact hd

theorem foldl_admitMember_distinct (hd : m.Distinct) (claims : List FleetClaim) :
    (claims.foldl admitMember m).Distinct :=
  foldlRecOn claims admitMember hd fun _ hd claim _ => admitMember_distinct hd claim

theorem foldl_admitMember_incarnation (claims : List FleetClaim)
    (hk : ∀ claim ∈ claims, claim.kind = memberAdmitted) (m : Membership) (name key : String) :
    (claims.foldl admitMember m).incarnation name key =
      (m.incarnation name key).or
        ((opening claims name key).map fun claim => .admittedBy claim name key) := by
  induction claims generalizing m with
  | nil => simp [opening]
  | cons claim claims ih =>
    rw [foldl_cons, ih (fun c hc => hk c (mem_cons_of_mem _ hc)),
      admitMember_incarnation m claim (hk claim mem_cons_self), Option.or_assoc]
    congr 1
    unfold opening
    by_cases ha : claim.Admits name key
    · simp [ha]
    · simp [ha]

/-! ### The window `build` gives -/

/-- The claims of `claims` in `valid`. -/
def countedBy (claims : List FleetClaim) (valid : Finset String) : List FleetClaim :=
  claims.filter fun claim => claim.id ∈ valid

theorem mem_countedBy {valid : Finset String} {claim : FleetClaim} :
    claim ∈ countedBy claims valid ↔ claim ∈ claims ∧ claim.id ∈ valid := by
  simp [countedBy]

/-- The counted admissions alone. -/
def admitted (anchor : String) (claims : List FleetClaim) (valid : Finset String) : Membership :=
  ((countedBy claims valid).filter fun claim => claim.kind = memberAdmitted).foldl admitMember
    { anchor := some anchor, valid := valid }

variable (anchor : String) (claims : List FleetClaim) (valid : Finset String)

theorem build_incarnations : (build anchor claims valid).incarnations =
    (admitted anchor claims valid).incarnations.map (onIncarnationAll (countedBy claims valid)) :=
  foldl_heed_incarnations _ _

theorem find?_build (name key : String) : (build anchor claims valid).incarnation name key =
      ((admitted anchor claims valid).incarnation name key).map
        (onIncarnationAll (countedBy claims valid)) := by
  rw [incarnation, build_incarnations, find?_map]
  congr 2
  funext i
  simp [onIncarnationAll_same]

theorem build_incarnation (name key : String) : (build anchor claims valid).incarnation name key =
      (opening (countedBy claims valid) name key).map fun claim =>
        onIncarnationAll (countedBy claims valid) (.admittedBy claim name key) := by
  have hopen : opening ((countedBy claims valid).filter fun claim => claim.kind = memberAdmitted)
      name key = opening (countedBy claims valid) name key := by
    unfold opening
    rw [find?_filter]
    congr 1
    funext claim
    by_cases hk : claim.kind = memberAdmitted
    · simp [hk]
    · simp [FleetClaim.Admits, hk]
  rw [find?_build, admitted, foldl_admitMember_incarnation _ fun claim hc => by
    simpa using (mem_filter.mp hc).2, hopen]
  simp [incarnation, Option.map_map, Function.comp_def]

theorem build_distinct : (build anchor claims valid).Distinct := by
  have hd := foldl_admitMember_distinct (m := { anchor := some anchor, valid := valid })
    (fun _ hi => by cases hi)
    ((countedBy claims valid).filter fun claim => claim.kind = memberAdmitted)
  intro i hi
  rw [build_incarnations] at hi
  obtain ⟨i₀, hi₀, rfl⟩ := mem_map.mp hi
  obtain ⟨h₁, h₂, -⟩ := onIncarnationAll_same (countedBy claims valid) i₀
  rw [find?_build, h₁, h₂]
  exact congrArg (Option.map _) (hd i₀ hi₀)

variable {anchor claims valid}

/-- **The window of a key.**  `key` signs `writer`'s `sequence` in the membership the claims of
`valid` build when a counted claim admits it at or below the sequence, and no counted removal
and leave leaves it a fence below the sequence. -/
theorem mem_keysFor_build {writer key : String} {sequence : ℕ} :
    key ∈ (build anchor claims valid).keysFor writer sequence ↔
      ∃ claim, opening (countedBy claims valid) writer key = some claim ∧
        claim.start ≤ sequence ∧
        ∀ last ∈ fence (countedBy claims valid) writer key, sequence ≤ last := by
  rw [mem_keysFor (build_distinct anchor claims valid)]
  simp only [build_incarnation, Option.map_eq_some_iff]
  constructor
  · rintro ⟨i, ⟨claim, hopen, rfl⟩, hh⟩
    refine ⟨claim, hopen, ?_⟩
    simpa [holds_iff, onIncarnationAll_fence, (onIncarnationAll_same _ _).2.2,
      admittedBy, fence] using hh
  · rintro ⟨claim, hopen, hh⟩
    refine ⟨_, ⟨claim, hopen, rfl⟩, ?_⟩
    simpa [holds_iff, onIncarnationAll_fence, (onIncarnationAll_same _ _).2.2,
      admittedBy, fence] using hh

theorem fenceOf_build (anchor : String) (claims : List FleetClaim) (valid : Finset String)
    (name key : String) :
    (build anchor claims valid).fenceOf name key =
      (opening (countedBy claims valid) name key).bind fun _ =>
        fence (countedBy claims valid) name key := by
  rw [fenceOf_eq, build_incarnation, Option.bind_map]
  congr 1
  funext claim
  exact onIncarnationAll_fence _ _

end Membership

end SmallTalk.Fleet
