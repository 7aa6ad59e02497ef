import Mathlib.Logic.Function.Basic
import SmallTalk.Checkpoint.Certificates
import SmallTalk.Checkpoint.Rules
import SmallTalk.Lib.Runs

/-!
# Checkpoint — the agreement

Each node takes checkpoint steps: it seals the newest due checkpoint with the participants it knows
of, seals again when its terms change, and verifies once every participant's newest seal carries the
same terms. Claims reach other nodes in any order, and take any place in their canonical order.

A node keeps its own claims, and a seal names the writers it knew. So the terms a node verifies
name every writer it knew at any of its seals (`Sound.known`), and two nodes of which one knew the
other cannot be in different certificates.

* `one_certificate`: when claims never hold two certificates of a checkpoint.
-/

namespace SmallTalk.Checkpoint

open Option List Sorted

/-! ### One step -/

section

variable (checkpointName : ℕ → String)

/-- Writers a person has excused and that have sealed or verified nothing since. -/
def excusedWriters (claims : List CheckpointClaim) : List String :=
  claims.foldl (fun excused claim =>
    if claim.kind = .excused then
      if claim.actor.any ("person/".isPrefixOf ·) then
        match claim.text "writer" with
        | some writer => writer :: excused
        | none => excused
      else excused
    else if claim.isCheckpointWork then excused.filter (· ≠ claim.writer)
    else excused) []

/-- The writers a node knows of and those any checkpoint claim names, less those that left the fleet
and those a person excused. -/
def participants (known left : List String) (claims : List CheckpointClaim) : List String :=
  let named := ((claims.filter CheckpointClaim.isCheckpointWork).filterMap
    fun claim => claim.names "participants").flatten
  sortedSet ((known ++ named).filter fun writer =>
    writer ∉ left ∧ writer ∉ excusedWriters claims)

/-- Each writer's newest seal of `checkpoint`. -/
def newestSeals (claims : List CheckpointClaim) (checkpoint : String) : TreeMap String SealTerms :=
  TreeMap.ofLast (fun claim => if claim.subject = checkpoint then
      (claim.sealTerms checkpointName).map fun terms => (claim.writer, terms)
    else none) claims

/-- A checkpoint is due at the start of the second day after its own. -/
def newestDueCut (nowUnixMs : ℕ) : ℕ := (nowUnixMs / dayMs - 2) * dayMs

/-- What a pass of checkpoint work reads besides the checkpoint claims: the clock, what else the
node is busy with, the writers it knows of and those that left, what it holds before the cut, and
the plan and the proof of its drop. -/
structure CheckpointContext where
  nowUnixMs : ℕ
  catchingUp : Bool := false
  manifestNeeded : Bool := false
  halted : Bool := false
  known : List String
  left : List String := []
  sealedDigest : String
  sealedCount : ℕ
  rulesDigest : String
  build : String
  plannedDigest : String
  plan : PlanTerms
  passed : Bool

/-- A claim that a pass appends. -/
structure Publication where
  kind : CheckpointKind
  subject : String
  fields : List (String × Json)

/-- The participants of the seal a node would publish. Sealing ends its own excusal. -/
def sealParticipants (origin : String) (claims : List CheckpointClaim)
    (context : CheckpointContext) : List String :=
  sortedSet (origin :: participants context.known context.left claims)

/-- `checkpoint_step`: seal the newest due checkpoint, or verify it once every participant's seal
matches. -/
def checkpointStep (origin : String) (claims : List CheckpointClaim)
    (context : CheckpointContext) : Option Publication :=
  if context.catchingUp ∨ context.manifestNeeded ∨ context.halted then none else
  let cut := newestDueCut context.nowUnixMs
  let stable := ((stableCheckpoints checkpointName claims).entries.map Prod.fst).getLast?
  if cut = 0 ∨ stable.any (cut ≤ ·) then none else
  if origin ∈ context.left then none else
  let checkpoint := checkpointName cut
  if ((firstVerifications checkpointName claims checkpoint).get origin).isSome then none else
  let seals := newestSeals checkpointName claims checkpoint
  let terms : SealTerms :=
    ⟨cut, sealParticipants origin claims context, context.sealedDigest, context.rulesDigest⟩
  if seals.get origin ≠ some terms then
    some ⟨.sealed, checkpoint, terms.sealFields context.sealedCount context.build⟩
  else if ∀ writer ∈ terms.participants, seals.get writer = some terms then
    -- Something before the cut may have arrived since the seal, and the proof may fail.
    if context.plannedDigest = terms.sealedDigest ∧ context.passed then
      some ⟨.verified, checkpoint, terms.verificationFields context.plan context.build⟩
    else none
  else none

end

/-! ### The fleet -/

/-- A seal of a checkpoint, and the writers the node knew of then. -/
structure Sealing where
  writer : String
  checkpoint : String
  known : List String

/-- The claims each node holds, all claims published so far, and the seals among them. -/
structure Fleet where
  held : String → List CheckpointClaim := fun _ => []
  published : List CheckpointClaim := []
  sealings : List Sealing := []

/-- What happens in the fleet. `place` is where a claim goes in the canonical order of the claims a
node holds, and `index` is that of a published claim. -/
inductive FleetEvent where
  | step (node : String) (context : CheckpointContext) (id : String) (place : ℕ)
  | excuse (node actor writer reason subject : String) (id : String) (place : ℕ)
  | deliver (node : String) (index : ℕ) (place : ℕ)

namespace Fleet

variable (checkpointName : ℕ → String) (fleet : Fleet)

/-- A node holds one more claim. -/
def hold (node : String) (claim : CheckpointClaim) (place : ℕ) : Fleet :=
  { fleet with
    held := Function.update fleet.held node
      ((fleet.held node).take place ++ claim :: (fleet.held node).drop place) }

/-- A node appends a claim of its own. -/
def publish (claim : CheckpointClaim) (place : ℕ) : Fleet :=
  { fleet.hold claim.writer claim place with published := fleet.published ++ [claim] }

def apply : FleetEvent → Fleet
  | .step node context id place =>
    match checkpointStep checkpointName node (fleet.held node) context with
    | none => fleet
    | some p =>
      { fleet.publish ⟨id, p.kind, p.subject, node, none, p.fields⟩ place with
        sealings := if p.kind = .sealed then
            fleet.sealings ++ [⟨node, p.subject, context.known⟩]
          else fleet.sealings }
  | .excuse node actor writer reason subject id place =>
    fleet.publish ⟨id, .excused, subject, node, some actor,
      [("writer", .str writer), ("reason", .str reason)]⟩ place
  | .deliver node index place =>
    match fleet.published[index]? with
    | some claim => fleet.hold node claim place
    | none => fleet

def run (events : List FleetEvent) : Fleet := events.foldl (apply checkpointName) {}

/-- The writer has verified the checkpoint. -/
def Verifies (checkpoint writer : String) : Prop :=
  ∃ claim ∈ fleet.published,
    claim.writer = writer ∧ claim.subject = checkpoint ∧ claim.kind = .verified

/-- The node knew of the writer when it sealed the checkpoint. -/
def Knew (checkpoint node writer : String) : Prop :=
  ∃ s ∈ fleet.sealings, s.writer = node ∧ s.checkpoint = checkpoint ∧ writer ∈ s.known

instance (fleet : Fleet) (checkpoint node writer : String) :
    Decidable (fleet.Knew checkpoint node writer) :=
  inferInstanceAs (Decidable (∃ s ∈ fleet.sealings, _))

/-- Of any two nodes that verify the checkpoint, one knew of the other when it sealed. -/
def Acquainted (checkpoint : String) : Prop :=
  ∀ a b, a ≠ b → fleet.Verifies checkpoint a → fleet.Verifies checkpoint b →
    fleet.Knew checkpoint a b ∨ fleet.Knew checkpoint b a

end Fleet

/-- The step excuses no writer, and sees no writer that left. -/
def FleetEvent.Stays : FleetEvent → Prop
  | .step _ context _ _ => context.left = []
  | .excuse .. => False
  | .deliver .. => True

/-! ### What a step publishes -/

section

variable {checkpointName : ℕ → String} {origin : String} {claims : List CheckpointClaim}
  {context : CheckpointContext} {p : Publication}

/-- A step publishes a seal or a verification, of terms that name every writer the node would seal
with, and only while the node has not verified. -/
theorem checkpointStep_eq_some
    (h : checkpointStep checkpointName origin claims context = some p) :
    ∃ terms : SealTerms, p.subject = checkpointName terms.cutUnixMs ∧
      terms.participants = sealParticipants origin claims context ∧
      (firstVerifications checkpointName claims p.subject).get origin = none ∧
      (p.kind = .sealed ∧ p.fields = terms.sealFields context.sealedCount context.build ∨
        p.kind = .verified ∧ p.fields = terms.verificationFields context.plan context.build) := by
  unfold checkpointStep at h
  split at h
  · cases h
  dsimp only at h
  split at h
  · cases h
  split at h
  · cases h
  split at h
  · cases h
  case isFalse hunverified =>
    rw [Bool.not_eq_true, isSome_eq_false_iff, isNone_iff_eq_none] at hunverified
    split at h
    · obtain rfl := some.inj h
      exact ⟨_, rfl, rfl, hunverified, .inl ⟨rfl, rfl⟩⟩
    split at h
    · split at h
      · obtain rfl := some.inj h
        exact ⟨_, rfl, rfl, hunverified, .inr ⟨rfl, rfl⟩⟩
      · cases h
    · cases h

theorem excusedWriters_eq_nil (h : ∀ claim ∈ claims, claim.kind ≠ .excused) :
    excusedWriters claims = [] := by
  unfold excusedWriters
  induction claims with
  | nil => rfl
  | cons claim claims ih =>
    have hkind := h claim mem_cons_self
    rw [foldl_cons, if_neg hkind, filter_nil, ite_self]
    exact ih fun claim hclaim => h claim (mem_cons_of_mem _ hclaim)

/-- Without excusals and leaves, a node seals with every writer it knows of or has heard named. -/
theorem mem_sealParticipants (hkinds : ∀ claim ∈ claims, claim.kind ≠ .excused)
    (hleft : context.left = []) {writer : String}
    (h : writer ∈ context.known ∨ ∃ claim ∈ claims, claim.isCheckpointWork = true ∧
      ∃ names, claim.names "participants" = some names ∧ writer ∈ names) :
    writer ∈ sealParticipants origin claims context := by
  rw [sealParticipants, mem_sortedSet]
  refine mem_cons_of_mem _ (mem_sortedSet.mpr (mem_filter.mpr ⟨?_, ?_⟩))
  · refine mem_append.mpr (h.imp_right ?_)
    rintro ⟨claim, hclaim, hwork, names, hnames, hwriter⟩
    exact mem_flatten.mpr ⟨names, mem_filterMap.mpr
      ⟨claim, mem_filter.mpr ⟨hclaim, hwork⟩, hnames⟩, hwriter⟩
  · simp [hleft, excusedWriters_eq_nil hkinds]

end

/-! ### What every run keeps -/

namespace Fleet

variable {claim : CheckpointClaim}

/-- Nodes hold published claims, their own among them. A node verifies a checkpoint once, and the
terms it verifies name the writers it knew at each of its seals. -/
structure Sound (checkpointName : ℕ → String) (fleet : Fleet) : Prop where
  own : ∀ claim ∈ fleet.published, claim ∈ fleet.held claim.writer
  held : ∀ node, ∀ claim ∈ fleet.held node, claim ∈ fleet.published
  kinds : ∀ claim ∈ fleet.published, claim.kind ≠ .excused
  once : ∀ checkpoint, VerifiesOnce checkpointName fleet.published checkpoint
  named : ∀ s ∈ fleet.sealings, ∃ claim ∈ fleet.held s.writer, claim.isCheckpointWork = true ∧
    ∃ names, claim.names "participants" = some names ∧ s.known ⊆ names
  known : ∀ s ∈ fleet.sealings, ∀ claim ∈ fleet.published, claim.writer = s.writer →
    claim.subject = s.checkpoint → ∀ terms, claim.verifiedTerms checkpointName = some terms →
      s.known ⊆ terms.participants

variable {checkpointName : ℕ → String} {fleet : Fleet}

theorem mem_hold {node node' : String} {claim claim' : CheckpointClaim} {place : ℕ} :
    claim' ∈ (fleet.hold node claim place).held node' ↔
      claim' ∈ fleet.held node' ∨ node' = node ∧ claim' = claim := by
  by_cases hnode : node' = node
  · subst hnode
    have hsplit : claim' ∈ fleet.held node' ↔
        claim' ∈ (fleet.held node').take place ∨ claim' ∈ (fleet.held node').drop place := by
      rw [← mem_append, take_append_drop]
    simp only [hold, Function.update_self, mem_append, mem_cons, hsplit, true_and]
    tauto
  · simp [hold, hnode]

section

variable (h : Sound checkpointName fleet)

include h

/-- A claim that reaches a node was published. -/
theorem Sound.deliver (hclaim : claim ∈ fleet.published)
    (node : String) (place : ℕ) : Sound checkpointName (fleet.hold node claim place) where
  own claim' hclaim' := mem_hold.mpr (.inl (h.own claim' hclaim'))
  held node' claim' hheld := by
    rcases mem_hold.mp hheld with hheld | ⟨-, rfl⟩
    · exact h.held node' claim' hheld
    · exact hclaim
  kinds := h.kinds
  once := h.once
  named s hs := by
    obtain ⟨claim', hheld, hrest⟩ := h.named s hs
    exact ⟨claim', mem_hold.mpr (.inl hheld), hrest⟩
  known := h.known

/-- A node that has not verified a checkpoint has published no verification of it. -/
theorem Sound.unverified {node checkpoint : String}
    (hnone : (firstVerifications checkpointName (fleet.held node) checkpoint).get node = none) :
    ∀ claim ∈ fleet.published, claim.writer = node → claim.subject = checkpoint →
      claim.verifiedTerms checkpointName = none := by
  rintro claim hclaim rfl rfl
  rw [firstVerifications, TreeMap.get_ofFirst, findSome?_eq_none_iff] at hnone
  refine eq_none_iff_forall_ne_some.mpr fun terms hterms => ?_
  have hvalue := verificationOf_eq_some.mpr ⟨rfl, hterms, rfl, rfl⟩
  cases (hnone claim (h.own claim hclaim)).symm.trans (TreeMap.valueAt_eq_some.mpr hvalue)

/-- A node that has not verified a checkpoint may publish a claim about it. -/
theorem Sound.once_publish
    (hnone : (firstVerifications checkpointName (fleet.held claim.writer) claim.subject).get
      claim.writer = none)
    (checkpoint : String) :
    VerifiesOnce checkpointName (fleet.published ++ [claim]) checkpoint := by
  have honce := h.once checkpoint
  unfold VerifiesOnce at honce ⊢
  rw [filterMap_append, map_append]
  refine List.Nodup.append honce ?_ ?_
  · cases hclaim : verificationOf checkpointName checkpoint claim <;> simp [hclaim]
  · intro writer hold hnew
    obtain ⟨⟨_, id, terms⟩, hmem, rfl⟩ := mem_map.mp hnew
    obtain ⟨new, hclaim, hvalue⟩ := mem_filterMap.mp hmem
    obtain rfl := mem_singleton.mp hclaim
    obtain ⟨rfl, -, rfl, -⟩ := verificationOf_eq_some.mp hvalue
    obtain ⟨⟨_, id', terms'⟩, hmem', hwriter⟩ := mem_map.mp hold
    obtain ⟨old, hold, hvalue'⟩ := mem_filterMap.mp hmem'
    obtain ⟨hsubject, hterms, rfl, -⟩ := verificationOf_eq_some.mp hvalue'
    cases (h.unverified hnone old hold hwriter hsubject).symm.trans hterms

/-- A claim that a node publishes, with the seals it records. -/
theorem Sound.publish {place : ℕ} {sealings : List Sealing} (hkind : claim.kind ≠ .excused)
    (hnone : (firstVerifications checkpointName (fleet.held claim.writer) claim.subject).get
      claim.writer = none)
    (hnamed : ∀ s ∈ sealings, s ∈ fleet.sealings ∨ s.writer = claim.writer ∧
      s.checkpoint = claim.subject ∧ claim.verifiedTerms checkpointName = none ∧
      claim.isCheckpointWork = true ∧
      ∃ names, claim.names "participants" = some names ∧ s.known ⊆ names)
    (hknown : ∀ terms, claim.verifiedTerms checkpointName = some terms → ∀ s ∈ fleet.sealings,
      s.writer = claim.writer → s.known ⊆ terms.participants) :
    Sound checkpointName { fleet.publish claim place with sealings := sealings } where
  own claim' hclaim' := by
    refine mem_hold.mpr ?_
    rcases mem_append.mp hclaim' with hold | hnew
    · exact .inl (h.own claim' hold)
    · obtain rfl := mem_singleton.mp hnew
      exact .inr ⟨rfl, rfl⟩
  held node claim' hheld := by
    rcases mem_hold.mp hheld with hheld | ⟨-, rfl⟩
    · exact mem_append_left _ (h.held node claim' hheld)
    · exact mem_append_right _ (mem_singleton_self _)
  kinds claim' hclaim' := by
    rcases mem_append.mp hclaim' with hold | hnew
    · exact h.kinds claim' hold
    · obtain rfl := mem_singleton.mp hnew
      exact hkind
  once := h.once_publish hnone
  named s hs := by
    rcases hnamed s hs with hold | ⟨hwriter, -, -, hwork, hnames⟩
    · obtain ⟨claim', hheld, hrest⟩ := h.named s hold
      exact ⟨claim', mem_hold.mpr (.inl hheld), hrest⟩
    · exact ⟨claim, mem_hold.mpr (.inr ⟨hwriter, rfl⟩), hwork, hnames⟩
  known s hs claim' hclaim' hwriter hsubject terms hterms := by
    rcases mem_append.mp hclaim' with hold | hnew
    · rcases hnamed s hs with hs | ⟨hwriter', hcheckpoint, -⟩
      · exact h.known s hs claim' hold hwriter hsubject terms hterms
      · -- The node seals, so it has not verified yet.
        have hnone := h.unverified hnone claim' hold (hwriter.trans hwriter')
          (hsubject.trans hcheckpoint)
        cases hnone.symm.trans hterms
    · obtain rfl := mem_singleton.mp hnew
      rcases hnamed s hs with hs | ⟨-, -, hunverified, -⟩
      · exact hknown terms hterms s hs hwriter.symm
      · cases hunverified.symm.trans hterms

theorem Sound.step {node id : String}
    {context : CheckpointContext} {place : ℕ} (hleft : context.left = []) :
    Sound checkpointName (fleet.apply checkpointName (.step node context id place)) := by
  cases hstep : checkpointStep checkpointName node (fleet.held node) context with
  | none => simpa only [apply, hstep] using h
  | some p =>
    simp only [apply, hstep]
    obtain ⟨terms, hsubject, hparticipants, hnone, hpublished⟩ := checkpointStep_eq_some hstep
    have hkinds : ∀ claim ∈ fleet.held node, claim.kind ≠ .excused :=
      fun claim hclaim => h.kinds claim (h.held node claim hclaim)
    rcases hpublished with ⟨hkind, hfields⟩ | ⟨hkind, hfields⟩
    · refine h.publish (by simp [hkind]) hnone (fun s hs => ?_) (fun terms' hterms' => ?_)
      · rw [if_pos hkind] at hs
        refine (mem_append.mp hs).imp_right fun hs => ?_
        obtain rfl := mem_singleton.mp hs
        refine ⟨rfl, rfl, by simp [CheckpointClaim.verifiedTerms, hkind],
          by simp [CheckpointClaim.isCheckpointWork, hkind], _,
          CheckpointClaim.names_participantNames _ terms (by rw [hfields]; rfl), ?_⟩
        intro writer hwriter
        rw [mem_sortedSet, hparticipants]
        exact mem_sealParticipants hkinds hleft (.inl hwriter)
      · simp [CheckpointClaim.verifiedTerms, hkind] at hterms'
    · refine h.publish (by simp [hkind]) hnone (fun s hs => ?_) fun terms' hterms' s hs hwriter => ?_
      · exact .inl (by rwa [if_neg (by simp [hkind])] at hs)
      · have hread := CheckpointClaim.verifiedTerms_published
          ⟨id, p.kind, p.subject, node, none, p.fields⟩ terms hkind hsubject hfields
        obtain rfl := some.inj (hread.symm.trans hterms')
        intro writer hknown
        show writer ∈ sortedSet terms.participants
        rw [mem_sortedSet, hparticipants]
        obtain ⟨claim, hclaim, hwork, names, hnames, hsub⟩ := h.named s hs
        rw [hwriter] at hclaim
        exact mem_sealParticipants hkinds hleft
          (.inr ⟨claim, hclaim, hwork, names, hnames, hsub hknown⟩)

end

/-- **Every run** without excusals and leaves is sound. -/
theorem run_sound {events : List FleetEvent} (hstays : ∀ event ∈ events, event.Stays) :
    Sound checkpointName (run checkpointName events) := by
  refine Runs.Along.invariant (P := fun _ event => event.Stays) ?_
    (Runs.along_of_forall fun event hevent _ => hstays event hevent) ?_
  · intro fleet event hstays h
    cases event with
    | step node context id place => exact h.step hstays
    | excuse _ _ _ _ _ _ _ => exact hstays.elim
    | deliver node index place =>
      cases hclaim : fleet.published[index]? with
      | none => simpa only [apply, hclaim] using h
      | some claim =>
        simp only [apply, hclaim]
        exact h.deliver (mem_of_getElem? hclaim) node place
  · exact ⟨by simp, by simp, by simp, fun _ => nodup_nil, by simp, by simp⟩

/-! ### Agreement -/

section

variable {checkpoint writer : String} {claims claims' : List CheckpointClaim} {c c' : Certificate}
  (hclaims : claims ⊆ fleet.published) (hc : c ∈ certificates checkpointName claims checkpoint)
  (hwriter : writer ∈ c.terms.participants)

include hclaims hc hwriter

/-- A participant of a certificate has published the verification that is in it. -/
theorem published_verification :
    ∃ id, (firstVerifications checkpointName claims checkpoint).get writer = some (id, c.terms) ∧
      (writer, id, c.terms) ∈
        fleet.published.filterMap (verificationOf checkpointName checkpoint) := by
  obtain ⟨-, -, hall, -⟩ := mem_certificates.mp hc
  obtain ⟨id, hget⟩ := hall writer hwriter
  obtain ⟨claim, hclaim, hvalue⟩ := mem_filterMap.mp (get_firstVerifications hget)
  exact ⟨id, hget, mem_filterMap.mpr ⟨claim, hclaims hclaim, hvalue⟩⟩

/-- Certificates that share a participant are one, whatever claims they are read from. -/
theorem Sound.certificate_eq (h : Sound checkpointName fleet) (hclaims' : claims' ⊆ fleet.published)
    (hc' : c' ∈ certificates checkpointName claims' checkpoint)
    (hwriter' : writer ∈ c'.terms.participants) : c = c' := by
  have hentry : ∀ {writer id id' : String} {terms terms' : VerifiedTerms},
      (writer, id, terms) ∈ fleet.published.filterMap (verificationOf checkpointName checkpoint) →
      (writer, id', terms') ∈
        fleet.published.filterMap (verificationOf checkpointName checkpoint) →
      id = id' ∧ terms = terms' := by
    intro writer id id' terms terms' hmem hmem'
    have hget := ((h.once checkpoint).get hmem).symm.trans ((h.once checkpoint).get hmem')
    exact Prod.mk.inj (some.inj hget)
  obtain ⟨id, -, hmem⟩ := published_verification hclaims hc hwriter
  obtain ⟨id', -, hmem'⟩ := published_verification hclaims' hc' hwriter'
  have hterms : c.terms = c'.terms := (hentry hmem hmem').2
  have hverifications : c.verifications = c'.verifications := by
    rw [(mem_certificates.mp hc).2.2.2, (mem_certificates.mp hc').2.2.2, ← hterms]
    refine TreeMap.ext_get fun other => ext fun found => ?_
    rw [get_verificationsOf, get_verificationsOf]
    refine and_congr_right fun hother => ?_
    obtain ⟨id, hget, hmem⟩ := published_verification hclaims hc hother
    obtain ⟨id', hget', hmem'⟩ := published_verification hclaims' hc' (hterms ▸ hother)
    rw [hget, hget', ← hterms, (hentry hmem hmem').1]
  obtain ⟨hcheckpoint, -⟩ := mem_certificates.mp hc
  obtain ⟨hcheckpoint', -⟩ := mem_certificates.mp hc'
  cases c
  cases c'
  simp_all

/-- A node verifies terms that name every writer it knew. -/
theorem Sound.mem_of_knew (h : Sound checkpointName fleet) {other : String}
    (hknew : fleet.Knew checkpoint writer other) : other ∈ c.terms.participants := by
  obtain ⟨id, -, hmem⟩ := published_verification hclaims hc hwriter
  obtain ⟨claim, hclaim, hvalue⟩ := mem_filterMap.mp hmem
  obtain ⟨hsubject, hterms, rfl, -⟩ := verificationOf_eq_some.mp hvalue
  obtain ⟨s, hs, hnode, hcheckpoint, hother⟩ := hknew
  exact h.known s hs claim hclaim hnode.symm (hsubject.trans hcheckpoint.symm) _ hterms hother

theorem verifies_of_mem : fleet.Verifies checkpoint writer := by
  obtain ⟨id, -, hmem⟩ := published_verification hclaims hc hwriter
  obtain ⟨claim, hclaim, hvalue⟩ := mem_filterMap.mp hmem
  obtain ⟨hsubject, hterms, hwriter, -⟩ := verificationOf_eq_some.mp hvalue
  exact ⟨claim, hclaim, hwriter, hsubject, CheckpointClaim.kind_of_verifiedTerms hterms⟩

end

/-- **One certificate.**  In a run without excusals and leaves, in which of any two nodes that verify
a checkpoint one knew of the other when it sealed, any certificates that published claims ever hold
of the checkpoint are one and the same. -/
theorem one_certificate (checkpointName : ℕ → String) (events : List FleetEvent)
    (checkpoint : String) (hstays : ∀ event ∈ events, event.Stays)
    (hacquainted : (run checkpointName events).Acquainted checkpoint)
    (claims claims' : List CheckpointClaim)
    (hclaims : claims ⊆ (run checkpointName events).published)
    (hclaims' : claims' ⊆ (run checkpointName events).published) :
    ∀ c ∈ certificates checkpointName claims checkpoint,
      ∀ c' ∈ certificates checkpointName claims' checkpoint, c = c' := by
  intro c hc c' hc'
  have h : Sound checkpointName (run checkpointName events) := run_sound hstays
  obtain ⟨a, ha⟩ := exists_mem_of_ne_nil _ (mem_certificates.mp hc).2.1
  obtain ⟨b, hb⟩ := exists_mem_of_ne_nil _ (mem_certificates.mp hc').2.1
  by_cases hab : a = b
  · subst hab
    exact h.certificate_eq hclaims hc ha hclaims' hc' hb
  rcases hacquainted a b hab (verifies_of_mem hclaims hc ha) (verifies_of_mem hclaims' hc' hb) with
    hknew | hknew
  · exact h.certificate_eq hclaims hc (h.mem_of_knew hclaims hc ha hknew) hclaims' hc' hb
  · exact h.certificate_eq hclaims hc ha hclaims' hc' (h.mem_of_knew hclaims' hc' hb hknew)

end Fleet

/-! ### Two nodes that agree -/

/-- A pass of a node three days after the start of its clock. -/
def sampleContext (known : List String) : CheckpointContext where
  nowUnixMs := 3 * dayMs
  known := known
  sealedDigest := "sealed"
  sealedCount := 0
  rulesDigest := "rules"
  build := "build"
  plannedDigest := "sealed"
  plan := ⟨"drop", 0, 0, "retained", "graph", "reader"⟩
  passed := true

/-- Node `a` knows of `b`, which hears of `a` through its seal. -/
def twoNodes : List FleetEvent :=
  [.step "a" (sampleContext ["b"]) "seal/a" 0, .deliver "b" 0 0,
    .step "b" (sampleContext []) "seal/b" 1, .deliver "a" 1 1,
    .step "a" (sampleContext ["b"]) "verified/a" 2, .deliver "b" 2 2,
    .step "b" (sampleContext []) "verified/b" 3]

def dayName (cut : ℕ) : String := "checkpoint/" ++ toString cut

/-- Two nodes are acquainted when one knew of the other. -/
theorem Fleet.acquainted_of_two {fleet : Fleet} {checkpoint a b : String}
    (hwriters : ∀ claim ∈ fleet.published, claim.writer = a ∨ claim.writer = b)
    (hknew : fleet.Knew checkpoint a b) : fleet.Acquainted checkpoint := by
  rintro x y hxy ⟨claim, hclaim, rfl, -⟩ ⟨claim', hclaim', rfl, -⟩
  rcases hwriters claim hclaim with hx | hx <;> rcases hwriters claim' hclaim' with hy | hy <;>
    rw [hx, hy] at hxy ⊢
  · exact absurd rfl hxy
  · exact .inl hknew
  · exact .inr hknew
  · exact absurd rfl hxy

/-- Both nodes verify, and hold the one certificate. -/
theorem one_certificate_twoNodes :
    (certificates dayName (Fleet.run dayName twoNodes).published (dayName dayMs)).length = 1 ∧
      ∀ c ∈ certificates dayName ((Fleet.run dayName twoNodes).held "b") (dayName dayMs),
        ∀ c' ∈ certificates dayName (Fleet.run dayName twoNodes).published (dayName dayMs),
          c = c' := by
  have hrun : (certificates dayName (Fleet.run dayName twoNodes).published
        (dayName dayMs)).length = 1 ∧
      (∀ claim ∈ (Fleet.run dayName twoNodes).published,
        claim.writer = "a" ∨ claim.writer = "b") ∧
      (Fleet.run dayName twoNodes).Knew (dayName dayMs) "a" "b" := by
    decide +kernel
  obtain ⟨hone, hwriters, hknew⟩ := hrun
  have hstays : ∀ event ∈ twoNodes, event.Stays := by
    simp [twoNodes, FleetEvent.Stays, sampleContext]
  exact ⟨hone, Fleet.one_certificate dayName twoNodes (dayName dayMs) hstays
    (Fleet.acquainted_of_two hwriters hknew) _ _ ((Fleet.run_sound hstays).held "b")
    (List.Subset.refl _)⟩

end SmallTalk.Checkpoint
