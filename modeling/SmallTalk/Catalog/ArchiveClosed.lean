import SmallTalk.Catalog.Archive
import SmallTalk.Lib.Fallible

/-!
# Catalog — who is left without a supervisor

Archiving a seat moves its whole directory. The supervisor of a declaration that stays should not
be among the declarations that left.

* `CatalogTree.eligibility_iff`: when a seat may leave.
* `CatalogTree.mem_archive`: what an operator's request leaves in the catalog.
* `CatalogTree.recheck_closed`: the supervisor's batch holds every file that names one of its seats.
* `CatalogTree.archive_orphans`: when a request or a pass orphans nobody.
-/

namespace SmallTalk.Catalog

open Except Fallible List

variable {refused : List Refusal} {α : Type}

/-! ### Attempts -/

theorem mem_parted {attempts : List (Except Refusal α)} {a : α} :
    a ∈ (CatalogTree.parted attempts).1 ↔ .ok a ∈ attempts := by
  simp only [CatalogTree.parted, mem_filterMap]
  constructor
  · rintro ⟨attempt, hmem, hopt⟩
    cases attempt with
    | error _ => simp [Except.toOption] at hopt
    | ok b =>
      obtain rfl : b = a := by simpa [Except.toOption] using hopt
      exact hmem
  · exact fun hmem => ⟨_, hmem, rfl⟩

theorem parted_refused_eq_nil {attempts : List (Except Refusal α)} :
    (CatalogTree.parted attempts).2 = [] ↔ ∀ attempt ∈ attempts, ∃ a, attempt = .ok a := by
  simp only [CatalogTree.parted, filterMap_eq_nil_iff]
  refine forall₂_congr fun attempt _ => ?_
  cases attempt <;> simp

theorem sortRefused_eq_nil : sortRefused refused = [] ↔ refused = [] := by
  rw [sortRefused, ← length_eq_zero_iff, length_insertionSort, length_eq_zero_iff]

namespace CatalogTree

variable {catalog after : CatalogTree} {host : String} {records : Records} {seat : AgentSpec}
  {selection : Selection} {clock : ℕ → ℕ} {candidates : List Candidate} {candidate : Candidate}

/-! ### Supervisors -/

theorem mem_of_resolveSpec {specs : List AgentSpec} {identity localHost : String}
    {spec : AgentSpec} (h : resolveSpec specs identity localHost = some spec) : spec ∈ specs := by
  unfold resolveSpec at h
  split at h
  · next only hfilter =>
      obtain rfl : only = spec := by simpa using h
      exact (mem_filter.mp (hfilter ▸ mem_singleton_self only)).1
  · simp at h

theorem mem_of_supervisorOf {spec boss : AgentSpec}
    (h : catalog.supervisorOf host spec = some boss) : boss ∈ catalog.specs := by
  obtain ⟨_, _, hresolve⟩ := Option.bind_eq_some_iff.mp h
  exact mem_of_resolveSpec hresolve

theorem dependents_eq_nil {leaving : List Path} : catalog.dependents host seat leaving = [] ↔
      ∀ other ∈ catalog.specs, ∀ boss, catalog.supervisorOf host other = some boss →
        boss.path = seat.path → other.path ∈ leaving := by
  simp only [dependents, map_eq_nil_iff, filter_eq_nil_iff, mem_filter,
    decide_eq_true_eq, Option.any_eq_true, and_imp]
  constructor
  · intro h other hother boss hboss hpath
    by_contra hstay
    exact h other hother hstay ⟨boss, hboss, by simpa using hpath⟩
  · rintro h other hother hstay ⟨boss, hboss, hpath⟩
    exact hstay (h other hother boss hboss (by simpa using hpath))

/-- Nobody in `after` has a supervisor that is gone. -/
def NoneOrphaned (host : String) (before after : CatalogTree) : Prop :=
  ∀ other ∈ after.specs, ∀ boss, before.supervisorOf host other = some boss → boss ∈ after.specs

/-! ### Leaving -/

/-- A seat may leave together with the files of `leaving`. -/
structure MayLeave (catalog : CatalogTree) (host : String) (records : Records)
    (leaving : Path → Prop) (seat : AgentSpec) : Prop where
  canonical : seat.path = seat.canonical host
  retired : seat.desiredState.isRetired = true
  unrecorded : ∀ task ∈ seat.taskIds host, records task = none
  undepended : ∀ other ∈ catalog.specs, ∀ boss, catalog.supervisorOf host other = some boss →
    boss.path = seat.path → leaving other.path
  free : slot host seat.identity ∉ catalog.archiveEntries

/-- What leaves with a seat is named after it. -/
def departure (host : String) (seat : AgentSpec) : Candidate :=
  ⟨seat.busId host, host, seat.identity, seat.desiredState.reason, identityDir host seat.identity⟩

theorem eligibility_iff {leaving : List Path} :
    catalog.eligibility host records leaving seat = .ok candidate ↔
      catalog.MayLeave host records (· ∈ leaving) seat ∧ candidate = departure host seat := by
  have hlive : ((seat.taskIds host).filterMap fun task => (records task).map fun alive =>
      task ++ " (" ++ (if alive then "alive" else "dead") ++ ")") = [] ↔
        ∀ task ∈ seat.taskIds host, records task = none := by
    simp [filterMap_eq_nil_iff]
  simp only [eligibility]
  split
  · next hpath => exact ⟨nofun, fun h => absurd h.1.canonical hpath⟩
  split
  · next hstate =>
      exact ⟨nofun, fun h => absurd h.1.retired (by simpa using hstate)⟩
  split
  · next hrecord =>
      exact ⟨nofun, fun h => absurd (hlive.mpr h.1.unrecorded) hrecord⟩
  split
  · next hdep =>
      exact ⟨nofun, fun h => absurd (dependents_eq_nil.mpr h.1.undepended) hdep⟩
  split
  · next hslot => exact ⟨nofun, fun h => absurd hslot h.1.free⟩
  next hpath hstate hrecord hdep hslot =>
    simp only [not_not] at hpath hrecord hdep
    constructor
    · intro h
      exact ⟨⟨hpath, by simpa using hstate, hlive.mp hrecord, dependents_eq_nil.mp hdep, hslot⟩,
        (ok.inj h).symm⟩
    · rintro ⟨_, rfl⟩
      rfl

/-! ### Moving -/

/-- A declaration under a directory that is moved. -/
def Moved (candidates : List Candidate) (spec : AgentSpec) : Prop :=
  ∃ candidate ∈ candidates, candidate.origin <+: spec.path

theorem mem_moveOut (h : catalog.moveOut candidate = .ok after) (spec : AgentSpec) :
    spec ∈ after.specs ↔ spec ∈ catalog.specs ∧ ¬ candidate.origin <+: spec.path := by
  simp only [moveOut] at h
  split at h
  · cases h
  split at h
  · cases h
  split at h
  · cases h
  obtain rfl := ok.inj h
  simp [mem_filter, ← isPrefixOf_iff_prefix]

theorem mem_moveAll {entries : List ArchivedEntry} :
    ∀ {n : ℕ} {catalog : CatalogTree}, moveAll clock n candidates catalog = .ok (entries, after) →
      ∀ spec, spec ∈ after.specs ↔ spec ∈ catalog.specs ∧ ¬ Moved candidates spec := by
  induction candidates generalizing entries with
  | nil =>
    intro n catalog h spec
    obtain ⟨-, rfl⟩ := Prod.mk.inj (ok.inj h)
    simp [Moved]
  | cons candidate rest ih =>
    intro n catalog h spec
    obtain ⟨moved, hmove, h⟩ := bind_eq_ok.mp h
    obtain ⟨⟨others, last⟩, hrest, hlast⟩ := bind_eq_ok.mp h
    obtain ⟨-, rfl⟩ := Prod.mk.inj (ok.inj hlast)
    rw [ih hrest spec, mem_moveOut hmove spec]
    simp only [Moved, exists_mem_cons_iff, not_or, and_assoc]

theorem mem_archiveLocked {dryRun : Bool} {result : ArchiveResult}
    (h : catalog.archiveLocked host clock dryRun candidates refused = .ok (result, after))
    (spec : AgentSpec) :
    spec ∈ after.specs ↔ spec ∈ catalog.specs ∧ (dryRun = true ∨ ¬ Moved candidates spec) := by
  unfold archiveLocked at h
  split at h
  · next hidle =>
      obtain ⟨-, rfl⟩ := Prod.mk.inj (ok.inj h)
      rcases hidle with rfl | hdry
      · simp [Moved]
      · simp [hdry]
  · next hbusy =>
      obtain ⟨⟨entries, last⟩, hmoves, hlast⟩ := bind_eq_ok.mp h
      obtain ⟨-, rfl⟩ := Prod.mk.inj (ok.inj hlast)
      rw [mem_moveAll hmoves spec]
      simp [(not_or.mp hbusy).2]

/-- Nobody is orphaned exactly when whoever names a declaration that is moved is moved too. -/
theorem noneOrphaned_iff {Gone : AgentSpec → Prop}
    (hafter : ∀ spec, spec ∈ after.specs ↔ spec ∈ catalog.specs ∧ ¬ Gone spec) :
    NoneOrphaned host catalog after ↔
      ∀ other ∈ catalog.specs, ∀ boss, catalog.supervisorOf host other = some boss →
        Gone boss → Gone other := by
  simp only [NoneOrphaned, hafter, and_imp]
  constructor
  · intro h other hother boss hboss hgone
    by_contra hstay
    exact (h other hother hstay boss hboss).2 hgone
  · intro h other hother hstay boss hboss
    exact ⟨mem_of_supervisorOf hboss, fun hgone => hstay (h other hother boss hboss hgone)⟩

/-! ### An operator's request -/

/-- The seats a request is about. -/
def Selects (host : String) : Selection → AgentSpec → Prop
  | .allRetired, spec => spec.resolvedHost host = host ∧ spec.desiredState.isRetired = true
  | .identities identities, spec => spec.resolvedHost host = host ∧ spec.identity ∈ identities

/-- The file of a seat that the request is about. -/
def SelectedFile (catalog : CatalogTree) (host : String) (selection : Selection)
    (path : Path) : Prop :=
  ∃ peer ∈ catalog.specs, Selects host selection peer ∧ peer.path = path

/-- A selected seat that may leave with the selection. -/
def Leaver (catalog : CatalogTree) (host : String) (records : Records) (selection : Selection)
    (seat : AgentSpec) : Prop :=
  seat ∈ catalog.specs ∧ Selects host selection seat ∧
    catalog.MayLeave host records (catalog.SelectedFile host selection) seat

/-- A declaration in the directory of a selected seat that may leave. -/
def Leaves (catalog : CatalogTree) (host : String) (records : Records) (selection : Selection)
    (spec : AgentSpec) : Prop :=
  ∃ seat, catalog.Leaver host records selection seat ∧
    identityDir host seat.identity <+: spec.path

theorem selectIdentity_eq_ok {identity : String}
    (h : catalog.selectIdentity host identity = .ok seat) (spec : AgentSpec) :
    spec = seat ↔ spec ∈ catalog.specs ∧ spec.resolvedHost host = host ∧
      spec.identity = identity := by
  have hmem : spec ∈ (catalog.specs.filter fun spec =>
      spec.resolvedHost host = host ∧ spec.identity = identity) ↔ _ := mem_filter
  unfold selectIdentity at h
  split at h
  · next only hfilter =>
      obtain rfl := ok.inj h
      rw [hfilter, mem_singleton, decide_eq_true_eq] at hmem
      exact hmem
  · cases h
  · cases h

/-- When nothing is refused, every seat the request is about is selected. -/
theorem mem_select {selected : List AgentSpec} {unselected : List Refusal}
    (h : catalog.select host selection = .ok (selected, unselected))
    (hall : selection = .allRetired ∨ unselected = []) (spec : AgentSpec) :
    spec ∈ selected ↔ spec ∈ catalog.specs ∧ Selects host selection spec := by
  cases selection with
  | allRetired =>
    obtain ⟨rfl, -⟩ := Prod.mk.inj (ok.inj h)
    simp [Selects]
  | identities identities =>
    obtain ⟨_, _, hparted⟩ := bind_eq_ok.mp h
    have hpair := ok.inj hparted
    have hselected : selected = (parted (identities.map (catalog.selectIdentity host))).1 := by
      rw [hpair]
    have hok : ∀ identity ∈ identities, ∃ seat,
        catalog.selectIdentity host identity = .ok seat := by
      have hnil : (parted (identities.map (catalog.selectIdentity host))).2 = [] := by
        rw [hpair]
        exact hall.resolve_left nofun
      exact fun identity hmem =>
        parted_refused_eq_nil.mp hnil _ (mem_map_of_mem hmem)
    rw [hselected, mem_parted, mem_map]
    constructor
    · rintro ⟨identity, hmem, hseat⟩
      obtain ⟨hspec, hhost, rfl⟩ := (selectIdentity_eq_ok hseat spec).mp rfl
      exact ⟨hspec, hhost, hmem⟩
    · rintro ⟨hspec, hhost, hmem⟩
      obtain ⟨seat, hseat⟩ := hok _ hmem
      obtain rfl := (selectIdentity_eq_ok hseat spec).mpr ⟨hspec, hhost, rfl⟩
      exact ⟨_, hmem, hseat⟩

theorem mem_plan (h : catalog.plan host records selection = .ok (candidates, refused))
    (hall : selection = .allRetired ∨ refused = []) (candidate : Candidate) :
    candidate ∈ candidates ↔
      ∃ seat, catalog.Leaver host records selection seat ∧ candidate = departure host seat := by
  obtain ⟨_, _, h⟩ := bind_eq_ok.mp h
  obtain ⟨⟨selected, unselected⟩, hselect, h⟩ := bind_eq_ok.mp h
  obtain ⟨rfl, hrefused⟩ := Prod.mk.inj (ok.inj h)
  have hmem := mem_select hselect (hall.imp_right fun hnil => by
    subst hnil
    exact (append_eq_nil_iff.mp (sortRefused_eq_nil.mp hrefused)).1)
  have hfiles : ∀ path, path ∈ (byIdentity selected).map AgentSpec.path ↔
      catalog.SelectedFile host selection path := by
    intro path
    simp only [byIdentity, mem_map, mem_insertionSort, hmem, SelectedFile, and_assoc]
  refine mem_parted.trans (mem_map.trans (exists_congr fun seat => ?_))
  rw [eligibility_iff, byIdentity, mem_insertionSort, hmem, ← byIdentity]
  simp only [hfiles, Leaver, and_assoc]

theorem mem_archive {dryRun : Bool} {result : ArchiveResult}
    (h : catalog.archive host records clock selection dryRun = .ok (result, after))
    (spec : AgentSpec) :
    spec ∈ after.specs ↔
      spec ∈ catalog.specs ∧ ¬ (dryRun = false ∧ catalog.Leaves host records selection spec) := by
  obtain ⟨⟨candidates, refused⟩, hplan, h⟩ := bind_eq_ok.mp h
  have hcandidates : ∀ hall : selection = .allRetired ∨ refused = [],
      Moved candidates spec ↔ catalog.Leaves host records selection spec := by
    intro hall
    simp only [Moved, mem_plan hplan hall, Leaves]
    constructor
    · rintro ⟨_, ⟨seat, hseat, rfl⟩, hdir⟩
      exact ⟨seat, hseat, hdir⟩
    · rintro ⟨seat, hseat, hdir⟩
      exact ⟨_, ⟨seat, hseat, rfl⟩, hdir⟩
  dsimp only at h
  split at h
  · cases h
  · next hnot =>
      have hall : selection = .allRetired ∨ refused = [] := by
        cases selection with
        | allRetired => exact .inl rfl
        | identities identities =>
          cases refused with
          | nil => exact .inr rfl
          | cons refusal rest => exact absurd rfl (hnot _ refusal rest rfl)
      rw [mem_archiveLocked h spec, hcandidates hall]
      cases dryRun <;> simp

/-- Who names a declaration that leaves, leaves: in the files of the request, for the supervisors in
the seats' own files; and everywhere, for those declared in other files of their directories. -/
structure Together (catalog : CatalogTree) (host : String) (records : Records)
    (selection : Selection) : Prop where
  selected : ∀ seat, catalog.Leaver host records selection seat →
    ∀ other ∈ catalog.specs, catalog.SelectedFile host selection other.path →
      ∀ boss, catalog.supervisorOf host other = some boss → boss.path = seat.path →
        catalog.Leaves host records selection other
  beside : ∀ seat, catalog.Leaver host records selection seat →
    ∀ other ∈ catalog.specs, ∀ boss, catalog.supervisorOf host other = some boss →
      identityDir host seat.identity <+: boss.path → boss.path ≠ seat.path →
        catalog.Leaves host records selection other

theorem leaver_dir (h : seat.path = seat.canonical host) :
    identityDir host seat.identity <+: seat.path := by
  rw [h]
  exact prefix_append _ _

theorem together_iff : catalog.Together host records selection ↔
      ∀ other ∈ catalog.specs, ∀ boss, catalog.supervisorOf host other = some boss →
        catalog.Leaves host records selection boss →
          catalog.Leaves host records selection other := by
  constructor
  · rintro h other hother boss hboss ⟨seat, hseat, hdir⟩
    by_cases hpath : boss.path = seat.path
    · -- the seat was judged against the selection, so only its files can name it
      have hfile := hseat.2.2.undepended other hother boss hboss hpath
      exact h.selected seat hseat other hother hfile boss hboss hpath
    · exact h.beside seat hseat other hother boss hboss hdir hpath
  · intro h
    constructor
    · intro seat hseat other hother _ boss hboss hpath
      exact h other hother boss hboss ⟨seat, hseat, hpath ▸ leaver_dir hseat.2.2.canonical⟩
    · intro seat hseat other hother boss hboss hdir _
      exact h other hother boss hboss ⟨seat, hseat, hdir⟩

/-! ### A supervisor's pass -/

/-- A batch of accepted seats: each could leave, and the files that leave are theirs. -/
structure Batch (catalog : CatalogTree) (host : String) (records : Records)
    (Due : AgentSpec → Prop) (scan : Scan) : Prop where
  accepted : ∀ seat ∈ scan.accepted, Due seat.1 ∧ seat.2 = departure host seat.1 ∧
    ∃ leaving, catalog.MayLeave host records leaving seat.1
  leaving : ∀ path ∈ scan.leaving, ∃ seat ∈ scan.accepted, seat.1.path = path

theorem scanDue_batch {Due : AgentSpec → Prop} {limit : ℕ} {seats : List AgentSpec} :
    ∀ {scan : Scan}, catalog.Batch host records Due scan → (∀ seat ∈ seats, Due seat) →
      catalog.Batch host records Due (catalog.scanDue host records limit seats scan) := by
  induction seats with
  | nil => exact fun h _ => h
  | cons seat rest ih =>
    intro scan h hdue
    rw [forall_mem_cons] at hdue
    unfold scanDue
    split
    · exact h
    split
    · next candidate hok =>
        obtain ⟨hmay, rfl⟩ := eligibility_iff.mp hok
        refine ih ⟨?_, ?_⟩ hdue.2
        · rw [forall_mem_append, forall_mem_singleton]
          exact ⟨h.accepted, hdue.1, rfl, _, hmay⟩
        · rw [forall_mem_cons]
          refine ⟨⟨_, mem_append_right _ (mem_singleton_self _), rfl⟩, ?_⟩
          intro path hpath
          obtain ⟨other, hother, hfile⟩ := h.leaving path hpath
          exact ⟨other, mem_append_left _ hother, hfile⟩
    · exact ih ⟨h.accepted, h.leaving⟩ hdue.2

theorem mem_eraseP_of_ne {p : α → Bool} {l : List α} {a b : α} (hfind : l.find? p = some a)
    (hb : b ∈ l) (hne : b ≠ a) : b ∈ l.eraseP p := by
  obtain ⟨ha, before, later, rfl, hbefore⟩ := find?_eq_some_iff_append.mp hfind
  have herase : (before ++ a :: later).eraseP p = before ++ later := by
    rw [eraseP_append_right _ fun c hc => by simpa using hbefore c hc, eraseP_cons_of_pos ha]
  simp only [herase, mem_append, mem_cons] at hb ⊢
  tauto

theorem recheck_batch {Due : AgentSpec → Prop} (rounds : ℕ) :
    ∀ {scan : Scan}, catalog.Batch host records Due scan →
      catalog.Batch host records Due (catalog.recheck host rounds scan) := by
  induction rounds with
  | zero => exact fun h => h
  | succ rounds ih =>
    intro scan h
    unfold recheck
    split
    · exact h
    · next seat hfind =>
        refine ih ⟨fun other hother => h.accepted other (mem_of_mem_eraseP hother), ?_⟩
        intro path hpath
        obtain ⟨hpath, hne⟩ := mem_filter.mp hpath
        obtain ⟨other, hother, hfile⟩ := h.leaving path hpath
        refine ⟨other, mem_eraseP_of_ne hfind hother ?_, hfile⟩
        rintro rfl
        exact absurd hfile.symm (by simpa using hne)

/-- After as many rounds as there are seats, no accepted seat is named from outside the batch. -/
theorem recheck_closed (catalog : CatalogTree) (host : String) {rounds : ℕ} :
    ∀ {scan : Scan}, scan.accepted.length ≤ rounds →
      ∀ seat ∈ (catalog.recheck host rounds scan).accepted,
        catalog.dependents host seat.1 (catalog.recheck host rounds scan).leaving = [] := by
  induction rounds with
  | zero =>
    intro scan hlength seat hseat
    rw [recheck, length_eq_zero_iff.mp (Nat.le_zero.mp hlength)] at hseat
    cases hseat
  | succ rounds ih =>
    intro scan hlength
    unfold recheck
    split
    · next hnone =>
        intro seat hseat
        simpa [isReferenced] using find?_eq_none.mp hnone seat hseat
    · next seat hfind =>
        refine ih ?_
        have hmem := mem_of_find?_eq_some hfind
        have hpos := find?_some hfind
        simp only [length_eraseP_of_mem hmem hpos]
        omega

theorem mem_startAfter {identity : α → String} {items : List α} {resumeAfter : Option String}
    {item : α} (h : item ∈ startAfter identity items resumeAfter) : item ∈ items := by
  cases resumeAfter with
  | none => exact h
  | some after =>
    rcases mem_append.mp h with h | h
    · exact (dropWhile_suffix _).subset h
    · exact ( takeWhile_prefix _).subset h

/-- The seats of a pass: each was due and could leave, and a file that names the file of one of them
is the file of another. -/
theorem planDue_closed (catalog : CatalogTree) (host : String) (records : Records)
    (isDue : String → Bool) (resumeAfter : Option String) (limit : ℕ) :
    ∃ seats : List AgentSpec,
      (catalog.planDue host records isDue resumeAfter limit).candidates =
        seats.map (departure host) ∧
      (∀ seat ∈ seats, seat ∈ catalog.specs ∧ seat.resolvedHost host = host ∧
        isDue seat.identity = true ∧ ∃ leaving, catalog.MayLeave host records leaving seat) ∧
      ∀ seat ∈ seats, ∀ other ∈ catalog.specs, ∀ boss,
        catalog.supervisorOf host other = some boss → boss.path = seat.path →
          ∃ peer ∈ seats, peer.path = other.path := by
  unfold planDue
  dsimp only
  split
  · exact ⟨[], rfl, by simp, by simp⟩
  have hbatch : catalog.Batch host records (fun seat => seat ∈ catalog.specs ∧
      seat.resolvedHost host = host ∧ isDue seat.identity = true)
      (catalog.scanDue host records limit (catalog.dueSeats host isDue resumeAfter)
        ⟨[], [], [], 0⟩) := by
    refine scanDue_batch ⟨by simp, by simp⟩ fun seat hseat => ?_
    have hmem := (mem_insertionSort _).mp (mem_startAfter hseat)
    obtain ⟨hspec, hdue⟩ := mem_filter.mp hmem
    rw [decide_eq_true_eq] at hdue
    exact ⟨hspec, hdue.1, hdue.2.2⟩
  generalize catalog.scanDue host records limit (catalog.dueSeats host isDue resumeAfter)
    ⟨[], [], [], 0⟩ = scan at hbatch ⊢
  have hlast := recheck_batch scan.accepted.length hbatch
  have hclosed := recheck_closed catalog host (Nat.le_refl scan.accepted.length)
  refine ⟨(catalog.recheck host scan.accepted.length scan).accepted.map Prod.fst, ?_, ?_, ?_⟩
  · rw [map_map]
    exact map_congr_left fun seat hseat => (hlast.accepted seat hseat).2.1
  · simp only [forall_mem_map]
    intro seat hseat
    obtain ⟨⟨hspec, hhost, hdue⟩, -, hmay⟩ := hlast.accepted seat hseat
    exact ⟨hspec, hhost, hdue, hmay⟩
  · rw [forall_mem_map]
    intro seat hseat other hother boss hboss hpath
    have hfile := dependents_eq_nil.mp (hclosed seat hseat) other hother boss hboss hpath
    obtain ⟨peer, hpeer, hsame⟩ := hlast.leaving _ hfile
    exact ⟨peer.1, mem_map_of_mem hpeer, hsame⟩

/-- A direct actor's directory holds no declaration. -/
theorem directActors_undeclared {actor : DirectActor} (h : actor ∈ catalog.directActors host)
    {spec : AgentSpec} (hspec : spec ∈ catalog.specs) : ¬ actor.dir <+: spec.path := by
  obtain ⟨dir, -, hactor⟩ := mem_filterMap.mp h
  split at hactor
  · next hostName identity =>
      obtain ⟨ptyId, -, hactor⟩ := Option.bind_eq_some_iff.mp hactor
      obtain ⟨hnot, hactor⟩ := Option.ite_none_left_eq_some.mp hactor
      obtain rfl := Option.some.inj hactor
      rintro ⟨rest, hpath⟩
      refine (not_or.mp hnot).2 (mem_filterMap.mpr ⟨spec.path,
        mem_append_left _ (mem_map_of_mem hspec), ?_⟩)
      rw [← hpath]
      rfl
  · cases hactor

theorem scanDirect_candidates {limit : ℕ} {actors : List DirectActor} :
    ∀ {batch : DueBatch}, ∀ candidate ∈ (catalog.scanDirect host limit actors batch).candidates,
      candidate ∈ batch.candidates ∨ ∃ actor ∈ actors, candidate.origin = actor.dir := by
  induction actors with
  | nil => exact fun candidate h => .inl h
  | cons actor rest ih =>
    intro batch candidate h
    unfold scanDirect at h
    split at h
    · exact .inl h
    split at h
    · exact (ih candidate h).imp_right fun ⟨other, hother, hdir⟩ =>
        ⟨other, mem_cons_of_mem _ hother, hdir⟩
    · rcases ih candidate h with h | ⟨other, hother, hdir⟩
      · rcases mem_append.mp h with h | h
        · exact .inl h
        · exact .inr ⟨actor, mem_cons_self, by rw [mem_singleton.mp h]⟩
      · exact .inr ⟨other, mem_cons_of_mem _ hother, hdir⟩

theorem dueDirectActors_undeclared {running : List String} {graceNs limit now : ℕ}
    (h : candidate ∈ (catalog.dueDirectActors host running graceNs limit now).1.candidates)
    {spec : AgentSpec} (hspec : spec ∈ catalog.specs) : ¬ candidate.origin <+: spec.path := by
  rcases scanDirect_candidates candidate h with h | ⟨actor, hactor, hdir⟩
  · cases h
  · have hmem := (mem_insertionSort _).mp (mem_startAfter hactor)
    rw [hdir]
    exact directActors_undeclared (mem_filter.mp hmem).1 hspec

/-- A seat whose retirement outlived the grace period and that could leave if nobody named it. -/
def DueSeat (catalog : CatalogTree) (records : Records) (request : AutoArchiveRequest) (now : ℕ)
    (seat : AgentSpec) : Prop :=
  seat ∈ catalog.specs ∧ seat.resolvedHost request.host = request.host ∧
    catalog.retiredLedger.isDue request.host request.graceNs now seat.identity ∧
    catalog.MayLeave request.host records (fun _ => True) seat

theorem MayLeave.alone {leaving : Path → Prop} (h : catalog.MayLeave host records leaving seat) :
    catalog.MayLeave host records (fun _ => True) seat :=
  { h with undepended := fun _ _ _ _ _ => trivial }

theorem isDue_reconciled {ledger : ObservationLedger} {present : List String} {graceNs now : ℕ}
    {identity : String} (h : identity ∈ present) :
    (ledger.reconciled host present now).isDue host graceNs now identity ↔
      ledger.isDue host graceNs now identity := by
  simp [ObservationLedger.isDue, ObservationLedger.reconciled, h]

/-- What a pass leaves in the catalog: everything that is not in the directory of one of its seats,
which the batch is closed for. -/
theorem mem_autoArchive {running : List String} {request : AutoArchiveRequest} {held : Bool}
    {now : ℕ} {result : Option AutoArchiveResult}
    (h : catalog.autoArchive records running clock request held now = .ok (result, after)) :
    ∃ seats : List AgentSpec,
      (∀ spec, spec ∈ after.specs ↔ spec ∈ catalog.specs ∧
        ¬ ∃ seat ∈ seats, identityDir request.host seat.identity <+: spec.path) ∧
      (∀ seat ∈ seats, catalog.DueSeat records request now seat) ∧
      ∀ seat ∈ seats, ∀ other ∈ catalog.specs, ∀ boss,
        catalog.supervisorOf request.host other = some boss → boss.path = seat.path →
          ∃ peer ∈ seats, peer.path = other.path := by
  unfold autoArchive at h
  split at h
  · cases h
  obtain ⟨_, _, h⟩ := bind_eq_ok.mp h
  split at h
  · obtain ⟨-, rfl⟩ := Prod.mk.inj (ok.inj h)
    exact ⟨[], by simp, by simp, by simp⟩
  obtain ⟨⟨archived, last⟩, hlocked, hlast⟩ := bind_eq_ok.mp h
  obtain ⟨-, rfl⟩ := Prod.mk.inj (ok.inj hlast)
  have hspecs := mem_archiveLocked hlocked
  obtain ⟨seats, hseats, hdue, hclosed⟩ := planDue_closed catalog request.host records
    (fun identity => (catalog.retiredLedger.reconciled request.host
      ((catalog.specs.filter fun spec => spec.resolvedHost request.host = request.host ∧
        spec.desiredState.isRetired).map AgentSpec.identity) now).isDue request.host
          request.graceNs now identity)
    (catalog.retiredLedger.resumeAfter request.host) request.limit
  refine ⟨seats, fun spec => ?_, fun seat hseat => ?_, hclosed⟩
  · rw [hspecs spec]
    refine and_congr_right fun hspec => ?_
    have hmoved : Moved (seats.map (departure request.host)) spec ↔
        ∃ seat ∈ seats, identityDir request.host seat.identity <+: spec.path := by
      simp [Moved, departure]
    rw [or_iff_right Bool.false_ne_true, ← hmoved, ← hseats, Moved]
    simp only [mem_append, or_and_right, exists_or]
    refine not_congr (or_iff_left ?_)
    rintro ⟨candidate, hcandidate, hdir⟩
    exact dueDirectActors_undeclared hcandidate hspec hdir
  · obtain ⟨hspec, hhost, hisDue, leaving, hmay⟩ := hdue seat hseat
    refine ⟨hspec, hhost, (isDue_reconciled ?_).mp (of_decide_eq_true hisDue), hmay.alone⟩
    exact mem_map_of_mem (mem_filter.mpr ⟨hspec, by simp [hhost, hmay.retired]⟩)

/-- A retired seat of the host `h`, with one task. -/
def retiredSeat (identity : String) (supervisor : Option String) : AgentSpec :=
  ⟨identity, some "h", ["agents", "h", identity, "agent.kdl"], .retired none, supervisor,
    [⟨none, "agent"⟩]⟩

def noLedger : ObservationLedger := ⟨fun _ _ => none, fun _ => none⟩

/-- A retired worker under a retired lead. -/
def leadAndWorker : CatalogTree where
  specs := [retiredSeat "lead" none, retiredSeat "worker" (some "lead")]
  declarations := []
  dirs := [["agents", "h", "lead"], ["agents", "h", "worker"]]
  archiveEntries := []
  retiredLedger := noLedger
  directLedger := noLedger

/-- What a completed operation leaves. -/
def leftBy {α : Type} (done : Except String (α × CatalogTree)) : Option (List AgentSpec) :=
  done.toOption.map fun done => done.2.specs

theorem eq_ok_of_leftBy {done : Except String (α × CatalogTree)} {specs : List AgentSpec}
    (h : leftBy done = some specs) :
    ∃ result after, done = .ok (result, after) ∧ after.specs = specs := by
  cases done with
  | error _ => exact (nomatch h)
  | ok done => exact ⟨done.1, done.2, rfl, Option.some.inj h⟩

/-- Both retirements were observed at the first millisecond. -/
def observedPair : CatalogTree :=
  { leadAndWorker with retiredLedger := ⟨fun _ _ => some 0, fun _ => none⟩ }

def workerRecord : Records := fun task => if task = "h.worker.agent" then some false else none

end CatalogTree

end SmallTalk.Catalog
