import SmallTalk.Mission.Revision

/-!
# Mission — which changes find their reviewers

A protected step is known by its path, and every change in it changes the hash at that path. A
mission inside a step has no path: its reviewer stands only at the paths of the steps it had.

* `reviewers_found_iff`: when every changed protection finds its reviewer.
* `revision_seen_iff`, `timeout_unseen`: which revisions are refused as changing nothing.
-/

namespace SmallTalk.Mission

open ParsedMission FlatStep TreeMap Steps List Thinning

variable {C D : Type*} {base p q c : Path} {steps inner rest : Steps C}

/-! ### Paths of a parsed mission -/

namespace Steps

theorem exists_id_prefix (h : steps.WellPathed base) (hq : q ∈ steps.paths) :
    ∃ id ∈ steps.ids, base ++ [id] <+: q := by
  induction steps generalizing base with
  | nil => cases hq
  | leaf step rest ih =>
    obtain ⟨hpath, -, hrest⟩ := h
    rcases mem_cons.mp hq with rfl | hq
    · exact ⟨step.id, mem_cons_self, hpath ▸ prefix_refl _⟩
    · obtain ⟨id, hid, hpre⟩ := ih hrest hq
      exact ⟨id, mem_cons_of_mem _ hid, hpre⟩
  | nest step mission inner rest ihInner ih =>
    obtain ⟨hpath, -, hinner, hrest⟩ := h
    rcases mem_cons.mp hq with rfl | hq
    · exact ⟨step.id, mem_cons_self, hpath ▸ prefix_refl _⟩
    rcases mem_append.mp hq with hq | hq
    · obtain ⟨id, -, hpre⟩ := ihInner hinner hq
      refine ⟨step.id, mem_cons_self, hpath ▸ List.IsPrefix.trans ?_ hpre⟩
      rw [append_assoc]
      exact prefix_append _ _
    · obtain ⟨id, hid, hpre⟩ := ih hrest hq
      exact ⟨id, mem_cons_of_mem _ hid, hpre⟩

theorem ne_nil_of_mem_paths (h : steps.WellPathed base) (hq : q ∈ steps.paths) : q ≠ [] := by
  obtain ⟨id, -, hpre⟩ := exists_id_prefix h hq
  rintro rfl
  simpa using prefix_nil.mp hpre

/-- The steps of the mission in a step lie below it. -/
theorem inner_below {id : Path} (h : inner.WellPathed (p ++ id)) (hq : q ∈ inner.paths) :
    p <+: q ∧ p ≠ q := by
  obtain ⟨first, -, hpre⟩ := exists_id_prefix h hq
  rw [append_assoc] at hpre
  refine ⟨(prefix_append _ _).trans hpre, ?_⟩
  rintro rfl
  have hlength := hpre.length_le
  simp at hlength

/-- Nothing lies below a step and below another step of its mission. -/
theorem rest_apart {id : String} (hid : id ∉ rest.ids) (h : rest.WellPathed base)
    (hc : c ∈ rest.paths) (hcq : c <+: q) : ¬ base ++ [id] <+: q := by
  intro hpre
  obtain ⟨other, hother, hotherPre⟩ := exists_id_prefix h hc
  have heq : base ++ [id] = base ++ [other] :=
    (prefix_of_prefix_length_le hpre (hotherPre.trans hcq) (by simp)).eq_of_length (by simp)
  obtain rfl : id = other := by simpa using heq
  exact hid hother

theorem nodup_paths (h : steps.WellPathed base) : steps.paths.Nodup := by
  induction steps generalizing base with
  | nil => exact nodup_nil
  | leaf step rest ih =>
    obtain ⟨hpath, hid, hrest⟩ := h
    refine nodup_cons.mpr ⟨fun hmem => ?_, ih hrest⟩
    exact rest_apart hid hrest hmem (prefix_refl _) (hpath ▸ prefix_refl _)
  | nest step mission inner rest ihInner ih =>
    obtain ⟨hpath, hid, hinner, hrest⟩ := h
    refine nodup_cons.mpr ⟨fun hmem => ?_, (ihInner hinner).append (ih hrest) ?_⟩
    · rcases mem_append.mp hmem with hmem | hmem
      · exact (inner_below hinner hmem).2 rfl
      · exact rest_apart hid hrest hmem (prefix_refl _) (hpath ▸ prefix_refl _)
    · intro q hq hq'
      exact rest_apart hid hrest hq' (prefix_refl _) (hpath ▸ (inner_below hinner hq).1)

theorem map_path_flatten (agents : String → List String) (selector : WorkSelector)
    (constraints : List String) (steps : Steps C) :
    (steps.flatten agents selector constraints).map path = steps.paths := by
  induction steps generalizing selector constraints with
  | nil => rfl
  | leaf step rest ih => simp [flatten, paths, ih, path]
  | nest step mission inner rest ihInner ih => simp [flatten, paths, ihInner, ih, path]

end Steps

/-- The paths of the steps inside a step. -/
def StepSpec.innerPaths (step : StepSpec C) : List Path :=
  step.nestedMission.elim [] fun mission => mission.steps.paths

namespace Steps

variable {agents : String → List String} {selector : WorkSelector} {constraints : List String}
  {flat : FlatStep C}

theorem path_mem_paths (hflat : flat ∈ steps.flatten agents selector constraints) :
    flat.path ∈ steps.paths :=
  map_path_flatten agents selector constraints steps ▸ mem_map_of_mem hflat

theorem innerPaths_subset (hflat : flat ∈ steps.flatten agents selector constraints) :
    flat.step.innerPaths ⊆ steps.paths := by
  induction steps generalizing selector constraints with
  | nil => cases hflat
  | leaf step rest ih =>
    rcases mem_cons.mp hflat with rfl | hflat
    · exact nil_subset _
    · exact List.Subset.trans (ih hflat) (subset_cons_self _ _)
  | nest step mission inner rest ihInner ih =>
    refine List.Subset.trans ?_ (subset_cons_self _ _)
    rcases mem_cons.mp hflat with rfl | hflat
    · exact subset_append_left _ _
    rcases mem_append.mp hflat with hflat | hflat
    · exact List.Subset.trans (ihInner hflat) (subset_append_left _ _)
    · exact List.Subset.trans (ih hflat) (subset_append_right _ _)

/-- What lies below a step's path lies inside the step. -/
theorem mem_innerPaths (h : steps.WellPathed base)
    (hflat : flat ∈ steps.flatten agents selector constraints) (hq : q ∈ steps.paths)
    (hpre : flat.path <+: q) : q = flat.path ∨ q ∈ flat.step.innerPaths := by
  induction steps generalizing base selector constraints with
  | nil => cases hflat
  | leaf step rest ih =>
    obtain ⟨hpath, hid, hrest⟩ := h
    rcases mem_cons.mp hflat with rfl | hflat
    · rcases mem_cons.mp hq with rfl | hq
      · exact .inl rfl
      · exact (rest_apart hid hrest hq (prefix_refl _) (hpath ▸ hpre)).elim
    · rcases mem_cons.mp hq with rfl | hq
      · exact (rest_apart hid hrest (path_mem_paths hflat) hpre (hpath ▸ prefix_refl _)).elim
      · exact ih hrest hflat hq
  | nest step mission inner rest ihInner ih =>
    obtain ⟨hpath, hid, hinner, hrest⟩ := h
    have hhead : base ++ [step.id] <+: step.path := hpath ▸ prefix_refl _
    have hbelow : ∀ {q}, q ∈ inner.paths → base ++ [step.id] <+: q := fun hq =>
      hhead.trans (inner_below hinner hq).1
    rcases mem_cons.mp hflat with rfl | hflat
    · rcases mem_cons.mp hq with rfl | hq
      · exact .inl rfl
      rcases mem_append.mp hq with hq | hq
      · exact .inr hq
      · exact (rest_apart hid hrest hq (prefix_refl _) (hhead.trans hpre)).elim
    rcases mem_append.mp hflat with hflat | hflat
    · rcases mem_cons.mp hq with rfl | hq
      · obtain ⟨hle, hne⟩ := inner_below hinner (path_mem_paths hflat)
        exact (hne (hle.eq_of_length_le hpre.length_le)).elim
      rcases mem_append.mp hq with hq | hq
      · exact ihInner hinner hflat hq
      · exact (rest_apart hid hrest hq (prefix_refl _)
          ((hbelow (path_mem_paths hflat)).trans hpre)).elim
    · rcases mem_cons.mp hq with rfl | hq
      · exact (rest_apart hid hrest (path_mem_paths hflat) hpre hhead).elim
      rcases mem_append.mp hq with hq | hq
      · exact (rest_apart hid hrest (path_mem_paths hflat) hpre (hbelow hq)).elim
      · exact ih hrest hflat hq

end Steps

/-! ### Protections -/

/-- A place that may be protected: a step, or the mission in the step at a path. The root mission is
at the empty path. -/
inductive Location where
  | mission (path : Path)
  | step (path : Path)
deriving DecidableEq

namespace Location

/-- The step at `q` lies in this place. -/
def Covers : Location → Path → Prop
  | mission p, q => p <+: q ∧ p ≠ q
  | step p, q => p <+: q

def path : Location → Path
  | mission p => p
  | step p => p

variable {loc : Location}

theorem Covers.path_prefix (h : loc.Covers q) : loc.path <+: q := by
  cases loc with
  | mission p => exact h.1
  | step p => exact h

end Location

/-- The place is protected and its reviewer is `reviewer`. -/
def Steps.Protected (requester : String) (loc : Location) (reviewer : String) : Steps C → Prop
  | nil => False
  | leaf step rest =>
    (loc = .step step.path ∧ reviewer ∈ step.reviewers requester) ∨
      rest.Protected requester loc reviewer
  | nest step mission inner rest =>
    (loc = .step step.path ∧ reviewer ∈ step.reviewers requester) ∨
      (loc = .mission step.path ∧ reviewer ∈ mission.reviewers requester) ∨
      inner.Protected requester loc reviewer ∨ rest.Protected requester loc reviewer

def MissionSpec.Protected (mission : MissionSpec C) (requester : String) (loc : Location)
    (reviewer : String) : Prop :=
  (loc = .mission [] ∧ reviewer ∈ mission.header.reviewers requester) ∨
    mission.steps.Protected requester loc reviewer

variable {requester reviewer : String} {loc : Location} {inherited reviewers : Finset String}

namespace Steps

theorem Protected.path_mem (h : steps.Protected requester loc reviewer) :
    loc.path ∈ steps.paths := by
  induction steps with
  | nil => exact h.elim
  | leaf step rest ih =>
    rcases h with ⟨rfl, -⟩ | h
    · exact mem_cons_self
    · exact mem_cons_of_mem _ (ih h)
  | nest step mission inner rest ihInner ih =>
    rcases h with ⟨rfl, -⟩ | ⟨rfl, -⟩ | h | h
    · exact mem_cons_self
    · exact mem_cons_self
    · exact mem_cons_of_mem _ (mem_append_left _ (ihInner h))
    · exact mem_cons_of_mem _ (mem_append_right _ (ih h))

theorem map_fst_reviewerEntries (requester : String) (inherited : Finset String)
    (steps : Steps C) : (steps.reviewerEntries requester inherited).map Prod.fst = steps.paths := by
  induction steps generalizing inherited with
  | nil => rfl
  | leaf step rest ih => simp [reviewerEntries, paths, ih]
  | nest step mission inner rest ihInner ih => simp [reviewerEntries, paths, ihInner, ih]

theorem path_mem_of_entry
    (h : (q, reviewers) ∈ steps.reviewerEntries requester inherited) : q ∈ steps.paths :=
  map_fst_reviewerEntries requester inherited steps ▸ mem_map_of_mem (f := Prod.fst) h

/-- The reviewers at the path of a step are those of the protections around it. -/
theorem mem_reviewerEntries (h : steps.WellPathed base)
    (hentry : (q, reviewers) ∈ steps.reviewerEntries requester inherited) :
    reviewer ∈ reviewers ↔ reviewer ∈ inherited ∨
      ∃ loc, steps.Protected requester loc reviewer ∧ loc.Covers q := by
  induction steps generalizing base inherited with
  | nil => cases hentry
  | leaf step rest ih =>
    obtain ⟨hpath, hid, hrest⟩ := h
    have hhead : base ++ [step.id] <+: step.path := hpath ▸ prefix_refl _
    rcases mem_cons.mp hentry with heq | hentry
    · obtain ⟨rfl, rfl⟩ := Prod.mk.inj heq
      have hapart : ∀ loc, rest.Protected requester loc reviewer → ¬ loc.Covers step.path :=
        fun loc hloc hcov => rest_apart hid hrest hloc.path_mem hcov.path_prefix hhead
      rw [Finset.mem_union]
      refine or_congr_right ⟨fun hr => ⟨_, .inl ⟨rfl, hr⟩, prefix_refl _⟩, ?_⟩
      rintro ⟨loc, ⟨rfl, hr⟩ | hloc, hcov⟩
      · exact hr
      · exact (hapart loc hloc hcov).elim
    · refine (ih hrest hentry).trans (or_congr_right ?_)
      refine exists_congr fun loc => and_congr_left fun hcov => ⟨.inr, ?_⟩
      rintro (⟨rfl, -⟩ | hloc)
      · exact (rest_apart hid hrest (path_mem_of_entry hentry) (prefix_refl _)
          (hhead.trans hcov.path_prefix)).elim
      · exact hloc
  | nest step mission inner rest ihInner ih =>
    obtain ⟨hpath, hid, hinner, hrest⟩ := h
    have hhead : base ++ [step.id] <+: step.path := hpath ▸ prefix_refl _
    rcases mem_cons.mp hentry with heq | hentry
    · obtain ⟨rfl, rfl⟩ := Prod.mk.inj heq
      rw [Finset.mem_union]
      refine or_congr_right ⟨fun hr => ⟨_, .inl ⟨rfl, hr⟩, prefix_refl _⟩, ?_⟩
      rintro ⟨loc, ⟨rfl, hr⟩ | ⟨rfl, -⟩ | hloc | hloc, hcov⟩
      · exact hr
      · exact (hcov.2 rfl).elim
      · obtain ⟨hle, hne⟩ := inner_below hinner hloc.path_mem
        exact (hne (hle.eq_of_length_le hcov.path_prefix.length_le)).elim
      · exact (rest_apart hid hrest hloc.path_mem hcov.path_prefix hhead).elim
    rcases mem_append.mp hentry with hentry | hentry
    · -- inside the mission of the step both the step and the mission are around `q`
      obtain ⟨hle, hne⟩ := inner_below hinner (path_mem_of_entry hentry)
      rw [ihInner hinner hentry, Finset.mem_union, Finset.mem_union, or_assoc, or_assoc]
      refine or_congr_right ⟨?_, ?_⟩
      · rintro (hr | hr | ⟨loc, hloc, hcov⟩)
        · exact ⟨.step step.path, .inl ⟨rfl, hr⟩, hle⟩
        · exact ⟨.mission step.path, .inr (.inl ⟨rfl, hr⟩), hle, hne⟩
        · exact ⟨loc, .inr (.inr (.inl hloc)), hcov⟩
      · rintro ⟨loc, ⟨rfl, hr⟩ | ⟨rfl, hr⟩ | hloc | hloc, hcov⟩
        · exact .inl hr
        · exact .inr (.inl hr)
        · exact .inr (.inr ⟨loc, hloc, hcov⟩)
        · exact (rest_apart hid hrest hloc.path_mem hcov.path_prefix (hhead.trans hle)).elim
    · have hq := path_mem_of_entry hentry
      have hapart : ∀ {loc : Location}, loc.Covers q → ¬ base ++ [step.id] <+: loc.path :=
        fun hcov hpre =>
          rest_apart hid hrest hq (prefix_refl _) (hpre.trans hcov.path_prefix)
      refine (ih hrest hentry).trans (or_congr_right ?_)
      refine exists_congr fun loc => and_congr_left fun hcov => ⟨(.inr <| .inr <| .inr ·), ?_⟩
      rintro (⟨rfl, -⟩ | ⟨rfl, -⟩ | hloc | hloc)
      · exact (hapart hcov hhead).elim
      · exact (hapart hcov hhead).elim
      · exact (hapart hcov (hhead.trans (inner_below hinner hloc.path_mem).1)).elim
      · exact hloc

end Steps

/-! ### What stands where -/

namespace MissionSpec

/-- The step at a path, with what is in force for it. -/
def flatStepAt (mission : MissionSpec C) (q : Path) : Option (FlatStep C) :=
  (ofLast (fun flat => some (flat.path, flat)) mission.flattenSteps).get q

def stepAt (mission : MissionSpec C) (q : Path) : Option (StepSpec C) :=
  (mission.flatStepAt q).map step

/-- The mission in the step at a path, or the root. -/
def missionAt (mission : MissionSpec C) (q : Path) : Option (MissionSpec C) :=
  if q = [] then some mission else (mission.stepAt q).bind StepSpec.nestedMission

end MissionSpec

/-- Anything in the place differs. -/
def Location.Differs (old new : MissionSpec C) : Location → Prop
  | mission p => old.missionAt p ≠ new.missionAt p
  | step p => old.stepAt p ≠ new.stepAt p

/-- The comparison sees a change in the place: one of the steps it had is gone or differs, with what
is in force for it. In the root it sees an added step too, and the header but for the timeout. -/
def Location.Touched (old new : MissionSpec C) (loc : Location) : Prop :=
  (loc = .mission [] ∧ (old.header.hashed ≠ new.header.hashed ∨
    ∃ q, old.flatStepAt q ≠ new.flatStepAt q)) ∨
  ∃ q ∈ old.steps.paths, loc.Covers q ∧ old.flatStepAt q ≠ new.flatStepAt q

namespace ParsedMission

variable {mission old new : ParsedMission C} {flat : FlatStep C}

theorem nodup_flattenSteps (mission : ParsedMission C) :
    (mission.flattenSteps.map path).Nodup := by
  rw [MissionSpec.flattenSteps, map_path_flatten]
  exact nodup_paths mission.wellPathed

theorem flatStepAt_eq_some :
    mission.flatStepAt q = some flat ↔ flat ∈ mission.flattenSteps ∧ flat.path = q := by
  refine (get_ofLast_of_nodup mission.nodup_flattenSteps).trans ?_
  constructor
  · rintro ⟨flat', hmem, heq⟩
    obtain ⟨rfl, rfl⟩ := Prod.mk.inj heq
    exact ⟨hmem, rfl⟩
  · rintro ⟨hmem, rfl⟩
    exact ⟨flat, hmem, rfl⟩

theorem mem_paths_iff : q ∈ mission.steps.paths ↔ ∃ flat, mission.flatStepAt q = some flat := by
  simp only [flatStepAt_eq_some]
  rw [← map_path_flatten mission.runAgentConstraints (mission.header.selector none)
    mission.header.constraints]
  exact mem_map

theorem get_stepHashes (digests : Digests C D) (mission : ParsedMission C) (q : Path) :
    (mission.stepHashes digests).get q = (mission.flatStepAt q).map digests.step := by
  refine Option.ext fun d => ?_
  have hnodup : ((mission.flattenSteps.map fun flat =>
      (flat.path, digests.step flat)).map fun entry => entry.1).Nodup := by
    rw [map_map]
    exact mission.nodup_flattenSteps
  refine (get_ofLast_of_nodup (f := id) hnodup).trans ?_
  simp only [Option.map_eq_some_iff, flatStepAt_eq_some, mem_map, id]
  constructor
  · rintro ⟨entry, ⟨flat, hflat, rfl⟩, heq⟩
    obtain ⟨rfl, rfl⟩ := Prod.mk.inj heq
    exact ⟨flat, ⟨hflat, rfl⟩, rfl⟩
  · rintro ⟨flat, ⟨hflat, rfl⟩, rfl⟩
    exact ⟨_, ⟨flat, hflat, rfl⟩, rfl⟩

/-- An added step below a step of the old mission changes that step. -/
theorem flatStepAt_ne_of_added (hc : c ∈ old.steps.paths) (hq : q ∉ old.steps.paths)
    (hq' : q ∈ new.steps.paths) (hcq : c <+: q) : old.flatStepAt c ≠ new.flatStepAt c := by
  intro heq
  obtain ⟨flat, hflat⟩ := mem_paths_iff.mp hc
  obtain ⟨hold, rfl⟩ := flatStepAt_eq_some.mp hflat
  obtain ⟨hnew, -⟩ := flatStepAt_eq_some.mp (heq ▸ hflat)
  rcases mem_innerPaths new.wellPathed hnew hq' hcq with rfl | hinner
  · exact hq hc
  · exact hq (innerPaths_subset hold hinner)

/-! ### Reviewers of a path -/

variable (mission : ParsedMission C)

theorem get_revisionReviewers : (mission.revisionReviewers requester).get q = some reviewers ↔
      (q = [] ∧ reviewers = mission.header.reviewers requester) ∨
        (q, reviewers) ∈ mission.steps.reviewerEntries requester
          (mission.header.reviewers requester) := by
  have hnodup : ((([], mission.header.reviewers requester) ::
      mission.steps.reviewerEntries requester (mission.header.reviewers requester)).map
        fun entry => (id entry).1).Nodup := by
    refine nodup_cons.mpr ⟨fun hmem => ?_, ?_⟩
    · refine ne_nil_of_mem_paths mission.wellPathed ?_ rfl
      rwa [← map_fst_reviewerEntries]
    · have hpaths := nodup_paths mission.wellPathed
      rwa [← map_fst_reviewerEntries] at hpaths
  exact (get_ofLast_of_nodup (f := id) hnodup).trans (by simp)

theorem isSome_root (requester : String) : ((mission.revisionReviewers requester).get []).isSome :=
  Option.isSome_iff_exists.mpr ⟨_, mission.get_revisionReviewers.mpr (.inl ⟨rfl, rfl⟩)⟩

theorem isSome_of_mem (requester : String) (hq : q ∈ mission.steps.paths) :
    ((mission.revisionReviewers requester).get q).isSome := by
  rw [← map_fst_reviewerEntries requester (mission.header.reviewers requester)] at hq
  obtain ⟨⟨q, rs⟩, hentry, rfl⟩ := mem_map.mp hq
  exact Option.isSome_iff_exists.mpr ⟨rs, mission.get_revisionReviewers.mpr (.inr hentry)⟩

/-- The protections around a path, or those of the root for its header. -/
theorem mem_revisionReviewers (h : (mission.revisionReviewers requester).get q = some reviewers) :
    reviewer ∈ reviewers ↔ reviewer ∈ mission.header.reviewers requester ∨
      ∃ loc, mission.steps.Protected requester loc reviewer ∧ loc.Covers q := by
  rcases mission.get_revisionReviewers.mp h with ⟨rfl, rfl⟩ | hentry
  · refine (or_iff_left ?_).symm
    rintro ⟨loc, hloc, hcov⟩
    exact ne_nil_of_mem_paths mission.wellPathed hloc.path_mem
      (prefix_nil.mp hcov.path_prefix)
  · exact mem_reviewerEntries mission.wellPathed hentry

end ParsedMission

/-- The reviewers found are those at the longest path that leads to `q`. -/
theorem reviewersForChangedPath_spec {metadata : TreeMap Path (Finset String)}
    (hroot : (metadata.get []).isSome) (q : Path) :
    ∃ c, metadata.get c = some (reviewersForChangedPath metadata q) ∧ c <+: q ∧
      ∀ c', (metadata.get c').isSome → c' <+: q → c'.length ≤ c.length := by
  obtain ⟨root, hroot⟩ := Option.isSome_iff_exists.mp hroot
  have hmem : ∀ {c' rs}, metadata.get c' = some rs → c' <+: q →
      (c', rs) ∈ metadata.entries.filter fun entry => entry.1.isPrefixOf q :=
    fun hget hpre => mem_filter.mpr ⟨mem_entries.mpr hget, by simpa using hpre⟩
  unfold reviewersForChangedPath
  cases hchampion : champion (fun entry : Path × Finset String => entry.1.length)
      (metadata.entries.filter fun entry => entry.1.isPrefixOf q) with
  | none =>
    have hnone := hmem hroot nil_prefix
    rw [champion_eq_none.mp hchampion] at hnone
    cases hnone
  | some entry =>
    obtain ⟨hentry, hpre⟩ := mem_filter.mp (champion_mem hchampion)
    obtain ⟨pre, post, hsplit, hle, hlt⟩ := champion_split hchampion
    refine ⟨entry.1, mem_entries.mp hentry, by simpa using hpre, fun c' hc' hpre' => ?_⟩
    obtain ⟨rs, hget⟩ := Option.isSome_iff_exists.mp hc'
    have hmem' := hmem hget hpre'
    rw [hsplit] at hmem'
    rcases mem_append.mp hmem' with hmem' | hmem'
    · exact hle _ hmem'
    rcases mem_cons.mp hmem' with heq | hmem'
    · rw [← heq]
    · exact (hlt _ hmem').le

theorem Digests.step_injective (digests : Digests C D) : Function.Injective digests.step := by
  rintro ⟨step, selector, constraints⟩ ⟨step', selector', constraints'⟩ h
  have hflat := digests.flat.injective h
  simp only [Prod.mk.injEq, EmbeddingLike.apply_eq_iff_eq] at hflat
  obtain ⟨rfl, rfl, rfl⟩ := hflat
  rfl

section

variable (digests : Digests C D) {old new : ParsedMission C}

theorem stepHashes_ne_iff : (old.stepHashes digests).get q ≠ (new.stepHashes digests).get q ↔
      old.flatStepAt q ≠ new.flatStepAt q := by
  rw [old.get_stepHashes, new.get_stepHashes]
  exact (Option.map_injective digests.step_injective).ne_iff

variable [DecidableEq D]

theorem mem_changedSteps : q ∈ changedSteps digests old.toMissionSpec new.toMissionSpec ↔
      old.flatStepAt q ≠ new.flatStepAt q := by
  have hkey : ∀ {m : TreeMap Path D}, q ∉ m.entries.map Prod.fst → m.get q = none := by
    intro m hq
    refine Option.eq_none_iff_forall_ne_some.mpr fun d hd => ?_
    exact hq (mem_map.mpr ⟨(q, d), mem_entries.mpr hd, rfl⟩)
  rw [changedSteps, mem_filter, decide_eq_true_eq, stepHashes_ne_iff]
  refine and_iff_right_of_imp fun hne => ?_
  by_contra hnone
  rw [map_append, mem_append, not_or] at hnone
  refine (stepHashes_ne_iff digests).mpr hne ?_
  rw [hkey hnone.1, hkey hnone.2]

theorem mem_changedPaths : q ∈ changedPaths digests old.toMissionSpec new.toMissionSpec ↔
      old.flatStepAt q ≠ new.flatStepAt q ∨ q = [] ∧ old.header.hashed ≠ new.header.hashed := by
  have hheader : missionHeaderHash digests old.toMissionSpec =
      missionHeaderHash digests new.toMissionSpec ↔ old.header.hashed = new.header.hashed :=
    digests.header.injective.eq_iff
  unfold changedPaths
  by_cases hne : old.header.hashed = new.header.hashed
  · rw [if_pos (hheader.mpr hne), mem_toFinset, mem_changedSteps]
    simp [hne]
  · rw [if_neg (mt hheader.mp hne), Finset.mem_insert, mem_toFinset, mem_changedSteps]
    simp [hne, or_comm]

/-- Every path finds the reviewers of the root. -/
theorem root_mem_reviewersForChangedPath
    (hroot : reviewer ∈ old.header.reviewers requester) (q : Path) :
    reviewer ∈ reviewersForChangedPath (old.revisionReviewers requester) q := by
  obtain ⟨c, hc, -⟩ := reviewersForChangedPath_spec (old.isSome_root requester) q
  exact (old.mem_revisionReviewers hc).mpr (.inl hroot)

/-- A path of the old mission finds the reviewers of every protection around it. -/
theorem mem_reviewersForChangedPath (hq : q ∈ old.steps.paths) :
    reviewer ∈ reviewersForChangedPath (old.revisionReviewers requester) q ↔
      reviewer ∈ old.header.reviewers requester ∨
        ∃ loc, old.steps.Protected requester loc reviewer ∧ loc.Covers q := by
  obtain ⟨c, hc, hpre, hlongest⟩ := reviewersForChangedPath_spec (old.isSome_root requester) q
  have hlength := hlongest q (old.isSome_of_mem requester hq) (prefix_refl q)
  obtain rfl : c = q := hpre.eq_of_length_le hlength
  exact old.mem_revisionReviewers hc

/-- A reviewer that a changed path finds has a protection that the comparison touches. -/
theorem touched_of_mem (hq : q ∈ changedPaths digests old.toMissionSpec new.toMissionSpec)
    (hr : reviewer ∈ reviewersForChangedPath (old.revisionReviewers requester) q) :
    ∃ loc, old.Protected requester loc reviewer ∧
      loc.Touched old.toMissionSpec new.toMissionSpec := by
  have hroot : reviewer ∈ old.header.reviewers requester → ∃ loc,
      old.Protected requester loc reviewer ∧ loc.Touched old.toMissionSpec new.toMissionSpec := by
    refine fun hr => ⟨.mission [], .inl ⟨rfl, hr⟩, .inl ⟨rfl, ?_⟩⟩
    rcases (mem_changedPaths digests).mp hq with hne | ⟨-, hne⟩
    · exact .inr ⟨q, hne⟩
    · exact .inl hne
  obtain ⟨c, hc, hpre, hlongest⟩ := reviewersForChangedPath_spec (old.isSome_root requester) q
  rcases (old.mem_revisionReviewers hc).mp hr with hr | ⟨loc, hloc, hcov⟩
  · exact hroot hr
  -- `c` is a step of the old mission: it differs itself, or a step was added below it
  have hcmem : c ∈ old.steps.paths := by
    rcases old.get_revisionReviewers.mp hc with ⟨rfl, -⟩ | hentry
    · exact (ne_nil_of_mem_paths old.wellPathed hloc.path_mem
        (prefix_nil.mp hcov.path_prefix)).elim
    · exact path_mem_of_entry hentry
  have hcne : c ≠ [] := ne_nil_of_mem_paths old.wellPathed hcmem
  have hqne : old.flatStepAt q ≠ new.flatStepAt q := by
    rcases (mem_changedPaths digests).mp hq with hne | ⟨rfl, -⟩
    · exact hne
    · exact (hcne (prefix_nil.mp hpre)).elim
  refine ⟨loc, .inr hloc, .inr ⟨c, hcmem, hcov, ?_⟩⟩
  by_cases hqmem : q ∈ old.steps.paths
  · have hlength := hlongest q (old.isSome_of_mem requester hqmem) (prefix_refl q)
    obtain rfl : c = q := hpre.eq_of_length_le hlength
    exact hqne
  · refine flatStepAt_ne_of_added hcmem hqmem ?_ hpre
    by_contra hnew
    have hnone : ∀ {mission : ParsedMission C}, q ∉ mission.steps.paths →
        mission.flatStepAt q = none := fun h =>
      Option.eq_none_iff_forall_ne_some.mpr fun flat hflat =>
        h (mem_paths_iff.mpr ⟨flat, hflat⟩)
    exact hqne ((hnone hqmem).trans (hnone hnew).symm)

/-- A protection that the comparison touches gives its reviewer to a changed path. -/
theorem mem_of_touched (hloc : old.Protected requester loc reviewer)
    (h : loc.Touched old.toMissionSpec new.toMissionSpec) :
    ∃ q ∈ changedPaths digests old.toMissionSpec new.toMissionSpec,
      reviewer ∈ reviewersForChangedPath (old.revisionReviewers requester) q := by
  rcases h with ⟨rfl, hchanged⟩ | ⟨q, hq, hcov, hne⟩
  · have hroot : reviewer ∈ old.header.reviewers requester := by
      rcases hloc with ⟨-, hr⟩ | hloc
      · exact hr
      · exact (ne_nil_of_mem_paths old.wellPathed hloc.path_mem rfl).elim
    rcases hchanged with hne | ⟨q, hne⟩
    · exact ⟨[], (mem_changedPaths digests).mpr (.inr ⟨rfl, hne⟩),
        root_mem_reviewersForChangedPath hroot []⟩
    · exact ⟨q, (mem_changedPaths digests).mpr (.inl hne), root_mem_reviewersForChangedPath hroot q⟩
  · refine ⟨q, (mem_changedPaths digests).mpr (.inl hne), (mem_reviewersForChangedPath hq).mpr ?_⟩
    rcases hloc with ⟨-, hr⟩ | hloc
    · exact .inl hr
    · exact .inr ⟨loc, hloc, hcov⟩

/-- Who is among the reviewers, in terms of the two missions. -/
theorem mem_reviewers_iff (asked : String) :
    (∃ reviewers, analyzeMissionRevision digests old.toMissionSpec new.toMissionSpec asked =
        .ok reviewers ∧ reviewer ∈ reviewers) ↔
      ∃ loc, old.Protected (normalizeActor asked "person") loc reviewer ∧
        loc.Touched old.toMissionSpec new.toMissionSpec := by
  unfold analyzeMissionRevision
  constructor
  · rintro ⟨reviewers, heq, hr⟩
    dsimp only at heq
    split at heq
    · cases heq
    · obtain rfl := Except.ok.inj heq
      obtain ⟨q, hq, hr⟩ := Finset.mem_biUnion.mp hr
      exact touched_of_mem digests hq hr
  · rintro ⟨loc, hloc, h⟩
    obtain ⟨q, hq, hr⟩ := mem_of_touched digests hloc h
    rw [if_neg (Finset.ne_empty_of_mem hq)]
    exact ⟨_, rfl, Finset.mem_biUnion.mpr ⟨q, hq, hr⟩⟩

/-- **A revision is seen** exactly if the headers of the roots differ in more than their timeouts, or
a step, with the selector and the constraints in force for it, is in one of the missions only. -/
theorem revision_seen_iff (old new : ParsedMission C) (asked : String) :
    analyzeMissionRevision digests old.toMissionSpec new.toMissionSpec asked ≠
        .error "unchanged-mission-revision" ↔
      old.header.hashed ≠ new.header.hashed ∨
        ∃ flat, ¬ (flat ∈ old.flattenSteps ↔ flat ∈ new.flattenSteps) := by
  have hseen : analyzeMissionRevision digests old.toMissionSpec new.toMissionSpec asked ≠
      .error "unchanged-mission-revision" ↔
        ∃ q, q ∈ changedPaths digests old.toMissionSpec new.toMissionSpec := by
    rw [← Finset.nonempty_def, Finset.nonempty_iff_ne_empty]
    dsimp only [analyzeMissionRevision]
    split <;> simp [*]
  simp only [hseen, mem_changedPaths, exists_or, exists_eq_left]
  rw [or_comm]
  refine or_congr_right ⟨fun ⟨q, hne⟩ => ?_, fun ⟨flat, hflat⟩ => ⟨flat.path, fun heq => ?_⟩⟩
  · contrapose! hne
    refine Option.ext fun flat => ?_
    simp only [flatStepAt_eq_some, hne flat]
  · have hat : ∀ mission : ParsedMission C, flat ∈ mission.flattenSteps ↔
        mission.flatStepAt flat.path = some flat := by simp [flatStepAt_eq_some]
    exact hflat (by rw [hat, hat, heq])

end

/-! ### A header without its reviewer -/

/-- Hashes that keep what they read. -/
inductive FreeDigest (C : Type*) where
  | definition (step : StepSpec C)
  | flat (hash : FreeDigest C) (selector : WorkSelector) (constraints : List String)
  | header (mission : MissionHeader C)
deriving DecidableEq

def FreeDigest.digests : Digests C (FreeDigest C) where
  definition := ⟨definition, fun _ _ h => definition.inj h⟩
  flat := ⟨fun t => flat t.1 t.2.1 t.2.2, fun _ _ h => by
    obtain ⟨h₁, h₂, h₃⟩ := flat.inj h
    exact Prod.ext h₁ (Prod.ext h₂ h₃)⟩
  header := ⟨header, fun _ _ h => header.inj h⟩

/-- A step whose mission only `person/ada` may let others revise. -/
def guardedRelease (goal : String) : ParsedMission String :=
  .parse ⟨{ id := ["launch"], content := "" },
    .nest { id := "release", path := [], content := "" }
      { id := ["publish"], revisionsHumanOnly := true, revisionReviewer := some "person/ada",
        content := goal }
      (.leaf { id := "upload", path := [], content := "" } .nil) .nil⟩ (by
    simp [Steps.DistinctIds, ids])

/-- A mission without steps. -/
def timedMission (timeoutMs : ℕ) : ParsedMission String :=
  ⟨⟨{ id := ["launch"], timeoutMs, content := "" }, .nil⟩, trivial⟩

/-- Only the timeout is changed, and the revision is refused. -/
theorem timeout_unseen : (timedMission 1).header.id = (timedMission 2).header.id ∧
      (timedMission 1).toMissionSpec ≠ (timedMission 2).toMissionSpec ∧
      analyzeMissionRevision FreeDigest.digests (timedMission 1).toMissionSpec
        (timedMission 2).toMissionSpec "bob" = .error "unchanged-mission-revision" := by
  decide +kernel

end SmallTalk.Mission
