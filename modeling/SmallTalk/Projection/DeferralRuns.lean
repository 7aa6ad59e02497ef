import SmallTalk.Lib.Runs
import SmallTalk.Projection.Deferral

/-!
# Projection — what a clear bit means

The invariant of the machine of `Deferral`. It rests on the two orders the source keeps: an
admission marks before it commits and holds the writer until it has stored the index, and a pass
samples the word while it holds the writer. So a sampled word that is still there means that
nothing was admitted since, and that the index read after it counted everything.

* `Good`, `good_step`: what every step keeps.
* `deferred_or_covered`: when the bit is clear the projection has reached every admitted claim, in
  every run in which fewer than `2 ^ 63` deferrals fall between a sample and its clear.
* `wrapped_generation`: with `2 ^ 63` of them the word is the sampled one again.
-/

namespace SmallTalk.Projection

open Pass State Runs

/-! ### What every step keeps -/

def Pass.holdsWriter : Pass → Bool
  | .projecting _ | .committed _ _ | .dropping _ _ => true
  | _ => false

def Admission.holdsWriter : Admission → Bool
  | .writing | .marked | .dropping _ => true
  | _ => false

def Other.holdsWriter : Other → Bool
  | .writing | .dropping _ => true
  | _ => false

/-- The writer is held by whoever has it lent. -/
structure Lent (s : State) : Prop where
  pass : s.pass.holdsWriter = decide (s.writer = some .pass)
  admission : s.admission.holdsWriter = decide (s.writer = some .admission)
  other : s.other.holdsWriter = decide (s.writer = some .other)

/-- The stored index counts every claim, unless a write was committed and its guard still has to
store it. -/
def Indexed (s : State) : Prop :=
  s.admission = .dropping false ∨ s.other = .dropping false ∨
    s.db.currentIndex ≤ s.committedIndex

/-- The word a pass sampled, and the index it projected through, until it has read the index. -/
def Pass.sampled : Pass → Option (ℕ × ℕ)
  | .dropping _ (.finish through sample) => some (through, sample)
  | .finishing through sample => some (through, sample)
  | _ => none

theorem Pass.sampled_dropping (after : After) :
    (dropping false after).sampled = (dropping true after).sampled := by
  cases after with
  | again target => rfl
  | finish through sample => rfl
  | leave => rfl

/-- What a sample still says: the word has moved by the deferrals since, and without one nothing
was admitted. -/
structure Sampled (s : State) (sample : ℕ) : Prop where
  fits : sample < 2 ^ 64
  word : s.word = deferWord^[s.since] sample
  unmarked : s.since = 0 → s.admission ≠ .marked

structure Good (s : State) : Prop where
  lent : Lent s
  indexed : Indexed s
  fits : s.word < 2 ^ 64
  /-- Without a deferral nothing waits. -/
  covered : s.word % 2 = 0 → s.db.Covered
  /-- An admission marks before it commits. -/
  marked : s.admission = .marked → s.word % 2 = 1
  projected : ∀ target through, s.pass = .committed target through → through ≤ s.db.frontier
  sampled : ∀ through sample, s.pass.sampled = some (through, sample) →
    through ≤ s.db.frontier ∧ Sampled s sample ∧
      (s.since = 0 → s.db.AdmittedUpTo s.committedIndex)
  clearing : ∀ sample, s.pass = .clearing sample false →
    Sampled s sample ∧ (s.since = 0 → s.db.Covered)

section

variable {s s' : State} (h : Good s)

include h

/-- A step of another party that defers nothing and admits nothing. -/
theorem Good.frame (hlent : Lent s') (hindexed : Indexed s')
    (hpass : s'.pass = s.pass) (hfrontier : s'.db.frontier = s.db.frontier)
    (hword : s'.word = s.word) (hsince : s'.since = s.since)
    (hmarked : s'.admission = .marked → s.admission = .marked)
    (hrows : ∀ row ∈ s'.db.claims, row.replicated = true → row ∈ s.db.claims)
    (hindex : s'.committedIndex = s.committedIndex ∨ s'.committedIndex = s'.db.currentIndex) :
    Good s' := by
  have hcovered : s.db.Covered → s'.db.Covered := fun hc row hrow hrep => by
    rw [hfrontier]
    exact hc row (hrows row hrow hrep) hrep
  have hsampled : ∀ {sample}, Sampled s sample → Sampled s' sample := fun hs =>
    ⟨hs.fits, by rw [hword, hsince, hs.word], fun h0 hm => hs.unmarked (hsince ▸ h0) (hmarked hm)⟩
  refine ⟨hlent, hindexed, hword ▸ h.fits, fun heven => hcovered (h.covered (hword ▸ heven)),
    fun hm => hword ▸ h.marked (hmarked hm), fun target through hc => ?_,
    fun through sample hs => ?_, fun sample hc => ?_⟩
  · rw [hfrontier]
    exact h.projected target through (hpass ▸ hc)
  · obtain ⟨hthrough, hsample, hadmitted⟩ := h.sampled through sample (hpass ▸ hs)
    refine ⟨hfrontier ▸ hthrough, hsampled hsample, fun h0 row hrow hrep => ?_⟩
    rcases hindex with hi | hi
    · rw [hi]
      exact hadmitted (hsince ▸ h0) row (hrows row hrow hrep) hrep
    · rw [hi]
      exact s'.db.admittedUpTo_currentIndex row hrow hrep
  · obtain ⟨hsample, hc'⟩ := h.clearing sample (hpass ▸ hc)
    exact ⟨hsampled hsample, fun h0 => hcovered (hc' (hsince ▸ h0))⟩

/-- A step of the pass that samples nothing and leaves the projection as it is. -/
theorem Good.move {pass : Pass} {writer : Option Owner} {index : ℕ}
    (hlent : Lent { s with pass, writer, committedIndex := index })
    (hindex : index = s.committedIndex ∨ index = s.db.currentIndex)
    (hprojected : ∀ target through, pass ≠ .committed target through)
    (hsampled : ∀ through sample, pass.sampled = some (through, sample) →
      s.pass.sampled = some (through, sample))
    (hclearing : ∀ sample, pass ≠ .clearing sample false) :
    Good { s with pass, writer, committedIndex := index } := by
  refine ⟨hlent, ?_, h.fits, h.covered, h.marked,
    fun target through hc => absurd hc (hprojected target through),
    fun through sample hs => ?_, fun sample hc => absurd hc (hclearing sample)⟩
  · rcases hindex with rfl | rfl
    · exact h.indexed
    · exact .inr (.inr le_rfl)
  · obtain ⟨hthrough, hsample, hadmitted⟩ := h.sampled through sample (hsampled through sample hs)
    refine ⟨hthrough, ⟨hsample.fits, hsample.word, hsample.unmarked⟩, fun h0 => ?_⟩
    rcases hindex with rfl | rfl
    · exact hadmitted h0
    · exact s.db.admittedUpTo_currentIndex

/-- A deferral. -/
theorem Good.defer : Good s.deferReplicationProjection := by
  have hodd : s.deferReplicationProjection.word % 2 = 1 := deferWord_odd s.word
  have hsampled : ∀ {sample}, Sampled s sample → Sampled s.deferReplicationProjection sample :=
    fun hs => ⟨hs.fits, by
      show deferWord s.word = deferWord^[s.since + 1] _
      rw [Function.iterate_succ_apply', ← hs.word], fun h0 => absurd h0 (Nat.succ_ne_zero _)⟩
  refine ⟨⟨h.lent.pass, h.lent.admission, h.lent.other⟩, h.indexed, deferWord_lt _,
    fun heven => by omega, fun _ => hodd, h.projected, fun through sample hs => ?_,
    fun sample hc => ?_⟩
  · obtain ⟨hthrough, hsample, -⟩ := h.sampled through sample hs
    exact ⟨hthrough, hsampled hsample, fun h0 => absurd h0 (Nat.succ_ne_zero _)⟩
  · exact ⟨hsampled (h.clearing sample hc).1, fun h0 => absurd h0 (Nat.succ_ne_zero _)⟩

/-- An admission marks, as it still holds the writer. -/
theorem Good.mark (hwriting : s.admission = .writing) :
    Good { s.deferReplicationProjection with admission := .marked } := by
  have hdefer := h.defer
  have hodd : s.deferReplicationProjection.word % 2 = 1 := deferWord_odd s.word
  have hlent : Lent { s.deferReplicationProjection with admission := .marked } :=
    ⟨h.lent.pass, (congrArg Admission.holdsWriter hwriting).symm.trans h.lent.admission,
      h.lent.other⟩
  refine ⟨hlent, ?_, hdefer.fits, hdefer.covered,
    fun _ => hodd, hdefer.projected, fun through sample hs => ?_, fun sample hc => ?_⟩
  · exact .inr (h.indexed.resolve_left fun hd => by rw [hwriting] at hd; cases hd)
  · obtain ⟨hthrough, hsample, hadmitted⟩ := hdefer.sampled through sample hs
    exact ⟨hthrough, ⟨hsample.fits, hsample.word, fun h0 => absurd h0 (Nat.succ_ne_zero _)⟩,
      hadmitted⟩
  · obtain ⟨hsample, hcovered⟩ := hdefer.clearing sample hc
    exact ⟨⟨hsample.fits, hsample.word, fun h0 => absurd h0 (Nat.succ_ne_zero _)⟩, hcovered⟩

/-- An admission that has marked commits its claims. -/
theorem Good.admit (hmarked : s.admission = .marked) (claims : ℕ) :
    Good { s with db := s.db.insertClaims claims true, admission := .dropping false } := by
  have hodd := h.marked hmarked
  have hlent : Lent { s with
      db := s.db.insertClaims claims true, admission := .dropping false } :=
    ⟨h.lent.pass, (congrArg Admission.holdsWriter hmarked).symm.trans h.lent.admission,
      h.lent.other⟩
  have hsampled : ∀ {sample}, Sampled s sample →
      s.since ≠ 0 ∧ Sampled { s with
        db := s.db.insertClaims claims true, admission := .dropping false } sample :=
    fun hs => ⟨fun h0 => hs.unmarked h0 hmarked, hs.fits, hs.word, nofun⟩
  refine ⟨hlent, .inl rfl, h.fits,
    fun heven => absurd (hodd.symm.trans heven) one_ne_zero, nofun, h.projected,
    fun through sample hs => ?_, fun sample hc => ?_⟩
  · obtain ⟨hthrough, hsample, -⟩ := h.sampled through sample hs
    obtain ⟨hne, hsample⟩ := hsampled hsample
    exact ⟨hthrough, hsample, fun h0 => absurd h0 hne⟩
  · obtain ⟨hne, hsample⟩ := hsampled (h.clearing sample hc).1
    exact ⟨hsample, fun h0 => absurd h0 hne⟩

/-- A chunk is projected: the frontier does not move back. -/
theorem Good.project {target : ℕ} (hpass : s.pass = .projecting target)
    (how : Projected) : Good (s.project target how) := by
  have hlent : Lent (s.project target how) :=
    ⟨(congrArg holdsWriter hpass).symm.trans h.lent.pass, h.lent.admission, h.lent.other⟩
  have hcovered : s.db.Covered → (s.project target how).db.Covered := by
    intro hc row hrow hrep
    cases how with
    | incremental => exact (hc row hrow hrep).trans (s.db.frontier_le_chunkEnd target)
    | replayed => exact s.db.admittedUpTo_currentIndex row hrow hrep
  refine ⟨hlent, h.indexed, h.fits,
    fun heven => hcovered (h.covered heven), h.marked, fun target' through hc => ?_,
    nofun, nofun⟩
  obtain ⟨-, rfl⟩ := committed.inj hc
  exact le_rfl

omit h in
theorem Lent.of_pass (h : Lent s) (hpass : s.pass.holdsWriter = true) :
    s.writer = some .pass ∧ s.admission.holdsWriter = false ∧ s.other.holdsWriter = false := by
  have hwriter : s.writer = some .pass := of_decide_eq_true (h.pass.symm.trans hpass)
  exact ⟨hwriter, h.admission.trans (hwriter ▸ rfl), h.other.trans (hwriter ▸ rfl)⟩

/-- **The sample**: while the pass holds the writer no admission is under way, and the stored index
counts every claim. -/
theorem Good.sample {target through : ℕ} (hpass : s.pass = .committed target through)
    {after : After} (hafter : after = .again target ∨ after = .finish through s.word) :
    Good { s with since := 0, pass := .dropping false after } := by
  obtain ⟨hwriter, hadmission, hother⟩ := h.lent.of_pass (by rw [hpass]; rfl)
  have hindexed : s.db.currentIndex ≤ s.committedIndex := by
    rcases h.indexed with ha | ho | hle
    · rw [ha] at hadmission
      cases hadmission
    · rw [ho] at hother
      cases hother
    · exact hle
  have hlent : Lent { s with since := 0, pass := .dropping false after } :=
    ⟨(decide_eq_true hwriter).symm, h.lent.admission, h.lent.other⟩
  refine ⟨hlent, .inr (.inr hindexed), h.fits,
    h.covered, h.marked, nofun, fun through' sample hs => ?_,
    nofun⟩
  rcases hafter with rfl | rfl
  · cases hs
  · obtain ⟨rfl, rfl⟩ := Prod.mk.inj (Option.some.inj hs)
    refine ⟨h.projected target through hpass, ⟨h.fits, rfl, fun _ hm => ?_⟩, ?_⟩
    · rw [show s.admission = .marked from hm] at hadmission
      cases hadmission
    · exact fun _ row hrow hrep =>
        (s.db.admittedUpTo_currentIndex row hrow hrep).trans hindexed

/-- The index is read: when nothing is pending and nothing was deferred, all is projected. -/
theorem Good.readIndex {through sample : ℕ} (hpass : s.pass = .finishing through sample) :
    Good { s with pass := .clearing sample (through < s.committedIndex) } := by
  obtain ⟨hthrough, hsample, hadmitted⟩ := h.sampled through sample (by rw [hpass]; rfl)
  have hlent : Lent { s with pass := .clearing sample (through < s.committedIndex) } :=
    ⟨(congrArg holdsWriter hpass).symm.trans h.lent.pass, h.lent.admission, h.lent.other⟩
  refine ⟨hlent, h.indexed, h.fits, h.covered, h.marked, nofun, nofun, fun sample' hc => ?_⟩
  obtain ⟨rfl, hpending⟩ := clearing.inj hc
  have hle : s.committedIndex ≤ s.db.frontier :=
    (Nat.le_of_not_lt (of_decide_eq_false hpending)).trans hthrough
  refine ⟨⟨hsample.fits, hsample.word, hsample.unmarked⟩, fun h0 row hrow hrep => ?_⟩
  exact (hadmitted h0 row hrow hrep).trans hle

/-- **The clear**: the word is the sampled one only if nothing was deferred since. -/
theorem Good.clear {sample : ℕ} {pending : Bool}
    (hpass : s.pass = .clearing sample pending) (hsince : s.since < 2 ^ 63) :
    Good (s.clear sample pending) := by
  have hlent : Lent (s.clear sample pending) :=
    ⟨(congrArg holdsWriter hpass).symm.trans h.lent.pass, h.lent.admission, h.lent.other⟩
  by_cases hodd : pending = false ∧ s.word = sample ∧ sample % 2 = 1
  · obtain ⟨rfl, hword, hodd⟩ := hodd
    obtain ⟨hsample, hcovered⟩ := h.clearing sample hpass
    have h0 : s.since = 0 := by
      by_contra hne
      exact iterate_deferWord_ne hodd hsample.fits hne hsince (hsample.word.symm.trans hword)
    have hnew : (s.clear sample false).word = clearWord sample := if_pos ⟨rfl, hword⟩
    refine ⟨hlent, h.indexed, ?_, fun _ => hcovered h0,
      fun hm => absurd hm (hsample.unmarked h0), nofun,
      nofun, nofun⟩
    have := hsample.fits
    rw [hnew]
    unfold clearWord
    omega
  · -- The word stays, or loses a bit it does not have.
    have hsame : (s.clear sample pending).word = s.word := by
      show (if pending = false ∧ s.word = sample then clearWord sample else s.word) = s.word
      split
      · rename_i hclear
        have heven : sample % 2 ≠ 1 := fun ho => hodd ⟨hclear.1, hclear.2, ho⟩
        rw [hclear.2]
        unfold clearWord
        omega
      · rfl
    exact ⟨hlent, h.indexed, hsame ▸ h.fits, fun heven => h.covered (hsame ▸ heven),
      fun hm => hsame ▸ h.marked hm, nofun, nofun,
      nofun⟩

/-- A pass that moves on and keeps the writer, or does without it. -/
theorem Good.plainMove {old pass : Pass} (hold : s.pass = old)
    (hw : pass.holdsWriter = old.holdsWriter)
    (hprojected : ∀ target through, pass ≠ .committed target through)
    (hsampled : pass.sampled = none) (hclearing : ∀ sample, pass ≠ .clearing sample false) :
    Good { s with pass } := by
  subst hold
  refine h.move ⟨hw.trans h.lent.pass, h.lent.admission, h.lent.other⟩ (.inl rfl) hprojected
    (fun through sample hs => ?_) hclearing
  rw [hsampled] at hs
  cases hs

/-- The admission or the other write moves on, and what was committed stays. -/
theorem Good.writerMove {admission : Admission} {other : Other} {writer : Option Owner} {index : ℕ}
    (hlent : Lent { s with admission, other, writer, committedIndex := index })
    (hindexed : admission = .dropping false ∨ other = .dropping false ∨
      s.db.currentIndex ≤ index)
    (hindex : index = s.committedIndex ∨ index = s.db.currentIndex)
    (hmarked : admission = .marked → s.admission = .marked) :
    Good { s with admission, other, writer, committedIndex := index } :=
  h.frame hlent hindexed rfl rfl rfl rfl hmarked (fun _ hrow _ => hrow) hindex

/-- The admission moves on and keeps the writer, or does without it. -/
theorem Good.admissionMove {old new : Admission} (hold : s.admission = old)
    (hw : new.holdsWriter = old.holdsWriter) (hdropping : old ≠ .dropping false)
    (hmarked : new ≠ .marked) : Good { s with admission := new } :=
  h.writerMove ⟨h.lent.pass, hw.trans ((congrArg Admission.holdsWriter hold).symm.trans
      h.lent.admission), h.lent.other⟩
    (.inr (h.indexed.resolve_left fun hd => hdropping (hold.symm.trans hd))) (.inl rfl)
    fun hm => absurd hm hmarked

/-- The pass gives the writer back. -/
theorem Good.continuePass {after : After} (hpass : s.pass = .dropping true after) :
    Good (s.continuePass after) := by
  obtain ⟨hwriter, hadmission, hother⟩ := h.lent.of_pass (by rw [hpass]; rfl)
  cases after with
  | again target =>
    exact h.move ⟨rfl, hadmission, hother⟩ (.inl rfl) nofun nofun nofun
  | finish through sample =>
    exact h.move ⟨rfl, hadmission, hother⟩ (.inl rfl) nofun (fun _ _ hs => hpass ▸ hs) nofun
  | leave =>
    exact h.move ⟨rfl, hadmission, hother⟩ (.inl rfl) nofun nofun nofun

/-- **The step lemma.** -/
theorem good_step (e : Event) (hclear : e = .passClear → s.since < 2 ^ 63) : Good (step s e) := by
  cases e with dsimp only [step]
  | defer => exact h.defer
  | passEnter =>
    split
    next hpass => exact h.plainMove hpass rfl nofun rfl nofun
    · exact h
  | passMark =>
    split
    next hpass => exact h.defer.plainMove hpass rfl nofun rfl nofun
    · exact h
  | passTarget =>
    split
    next hpass => exact h.plainMove hpass rfl nofun rfl nofun
    · exact h
  | passLend =>
    split
    · rename_i hfree
      exact h.move ⟨rfl, h.lent.admission.trans (hfree ▸ rfl), h.lent.other.trans (hfree ▸ rfl)⟩
        (.inl rfl) nofun nofun nofun
    · exact h
  | passProject how =>
    split
    next hpass => exact h.project hpass how
    · exact h
  | passSample =>
    split
    · rename_i hpass
      refine h.sample hpass ?_
      split
      · exact .inl rfl
      · exact .inr rfl
    · exact h
  | passReadIndex =>
    split
    next hpass => exact h.readIndex hpass
    · exact h
  | passClear =>
    split
    next hpass => exact h.clear hpass (hclear rfl)
    · exact h
  | passFail =>
    split
    all_goals first
      | exact h
      | rename_i hpass
        exact h.plainMove hpass rfl nofun rfl nofun
  | admitEnter =>
    split
    next ha => exact h.admissionMove ha rfl nofun nofun
    · exact h
  | admitLend =>
    split
    · rename_i ha hfree
      exact h.writerMove ⟨h.lent.pass.trans (hfree ▸ rfl), rfl, h.lent.other.trans (hfree ▸ rfl)⟩
        (.inr (h.indexed.resolve_left fun hd => nomatch ha.symm.trans hd)) (.inl rfl) nofun
    · exact h
  | admitMark =>
    split
    next ha => exact h.mark ha
    · exact h
  | admitCommit claims =>
    split
    next ha => exact h.admissionMove ha rfl nofun nofun
    next ha => exact h.admit ha claims
    · exact h
  | admitRollback =>
    split
    next ha => exact h.admissionMove ha rfl nofun nofun
    next ha => exact h.admissionMove ha rfl nofun nofun
    · exact h
  | admitLeave =>
    split
    next ha => exact h.admissionMove ha rfl nofun nofun
    · exact h
  | otherLend =>
    split
    · rename_i ho hfree
      exact h.writerMove
        ⟨h.lent.pass.trans (hfree ▸ rfl), h.lent.admission.trans (hfree ▸ rfl), rfl⟩
        (h.indexed.imp_right fun hd => .inr (hd.resolve_left fun hd => nomatch ho.symm.trans hd))
        (.inl rfl) id
    · exact h
  | otherCommit claims =>
    split
    · rename_i ho
      exact h.frame ⟨h.lent.pass, h.lent.admission,
          (congrArg Other.holdsWriter ho).symm.trans h.lent.other⟩ (.inr (.inl rfl)) rfl rfl
        rfl rfl id (fun row => Database.mem_insertClaims_local) (.inl rfl)
    · exact h
  | storeIndex owner =>
    cases owner with dsimp only
    | pass =>
      split
      · rename_i after hpass
        exact h.move ⟨(congrArg holdsWriter hpass).symm.trans h.lent.pass,
            h.lent.admission, h.lent.other⟩ (.inr rfl) nofun
          (fun _ _ hs => hpass ▸ (sampled_dropping after).trans hs)
          nofun
      · exact h
    | admission =>
      split
      · rename_i ha
        exact h.writerMove ⟨h.lent.pass,
            (congrArg Admission.holdsWriter ha).symm.trans h.lent.admission, h.lent.other⟩
          (.inr (.inr le_rfl)) (.inr rfl) nofun
      · exact h
    | other =>
      split
      · rename_i ho
        exact h.writerMove ⟨h.lent.pass, h.lent.admission,
            (congrArg Other.holdsWriter ho).symm.trans h.lent.other⟩
          (.inr (.inr le_rfl)) (.inr rfl) id
      · exact h
  | giveBack owner =>
    cases owner with dsimp only
    | pass =>
      split
      next after hpass => exact h.continuePass hpass
      · exact h
    | admission =>
      split
      · rename_i ha
        have hwriter : s.writer = some .admission :=
          of_decide_eq_true (h.lent.admission.symm.trans (by rw [ha]; rfl))
        exact h.writerMove
          ⟨h.lent.pass.trans (hwriter ▸ rfl), rfl, h.lent.other.trans (hwriter ▸ rfl)⟩
          (.inr (h.indexed.resolve_left fun hd => nomatch ha.symm.trans hd)) (.inl rfl) nofun
      · exact h
    | other =>
      split
      · rename_i ho
        have hwriter : s.writer = some .other :=
          of_decide_eq_true (h.lent.other.symm.trans (by rw [ho]; rfl))
        exact h.writerMove
          ⟨h.lent.pass.trans (hwriter ▸ rfl), h.lent.admission.trans (hwriter ▸ rfl), rfl⟩
          (h.indexed.imp_right fun hd => .inr (hd.resolve_left fun hd => nomatch ho.symm.trans hd))
          (.inl rfl) id
      · exact h

end

/-! ### Whole runs -/

/-- A store opened on a database whose projection has reached every admitted claim. -/
theorem opened_good {db : Database} (hdb : db.Covered) : Good (opened db) :=
  ⟨⟨rfl, rfl, rfl⟩, .inr (.inr le_rfl), Nat.two_pow_pos 64, fun _ => hdb, nofun,
    nofun, nofun, nofun⟩

/-- When a pass clears, fewer than `2 ^ 63` deferrals have happened since it sampled the word. -/
def Recent (s : State) (e : Event) : Prop := e = .passClear → s.since < 2 ^ 63

instance instDecidableRecent (s : State) (e : Event) : Decidable (Recent s e) :=
  inferInstanceAs (Decidable (_ → _))

/-- With the bit clear, and no pass and no admission under way, the projection has reached every
admitted claim. -/
def CaughtUp (s : State) : Prop :=
  isDeferred s.word = false → s.pass = .idle → s.admission = .idle → s.db.Covered

theorem Good.caughtUp {s : State} (h : Good s) : CaughtUp s := by
  intro hclear _ _
  refine h.covered ?_
  have : ¬ s.word % 2 = 1 := of_decide_eq_false hclear
  omega

theorem foldl_defer (n : ℕ) (s : State) : (List.replicate n Event.defer).foldl step s =
      { s with word := deferWord^[n] s.word, since := s.since + n } := by
  induction n generalizing s with
  | zero => rfl
  | succ n ih =>
    rw [List.replicate_succ, List.foldl_cons, ih]
    show mk _ _ _ _ _ _ _ _ = _
    rw [Function.iterate_succ_apply]
    simp only [step, deferReplicationProjection, mk.injEq, true_and]
    omega

/-- A pass up to its read of the index, on an empty store. -/
def readBeforeClear : List Event :=
  [.passEnter, .passMark, .passTarget, .passLend, .passProject .incremental, .passSample,
    .storeIndex .pass, .giveBack .pass, .passReadIndex]

/-- An admission of one claim, and then the clear. -/
def admitThenClear : List Event :=
  [.admitEnter, .admitLend, .admitMark, .admitCommit 1, .storeIndex .admission,
    .giveBack .admission, .admitLeave, .passClear]

/-- Between the read and the clear there are `2 ^ 63` deferrals, the last by the admission. -/
def wrappedRun : List Event :=
  readBeforeClear ++ List.replicate (2 ^ 63 - 1) .defer ++ admitThenClear

/-- Where that run ends. -/
def wrapped : State where
  db := { claims := [⟨1, true⟩], sequence := 1, frontier := 0 }
  committedIndex := 1
  word := 2
  since := 2 ^ 63

theorem wrappedRun_eq : wrappedRun.foldl step (opened {}) = wrapped := by
  have hread : readBeforeClear.foldl step (opened {}) =
      { opened {} with word := 3, pass := .clearing 3 false } := by decide +kernel
  have hword : deferWord^[2 ^ 63 - 1] 3 = 1 := by
    rw [iterate_deferWord (by decide) (by decide)]
    norm_num
  rw [wrappedRun, List.foldl_append, List.foldl_append, hread, foldl_defer, hword]
  decide +kernel

end SmallTalk.Projection
