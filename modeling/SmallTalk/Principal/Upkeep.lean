import SmallTalk.Principal.Chunks

/-!
# Principal — verdicts kept up to date

Passes judge what is fresh or queued, and check whether the trust roots changed. `Sound` is what
holds between chunks: a signed claim that no chunk will come to is cached, and its verdict either
waits on a claim that is still to be judged, is queued by the next check of the roots, or is the
one the cached verdicts give it.

* `judgeQueued_sound`, `chunk_sound`: judging keeps it, where no claim is judged from a verdict
  the same chunk goes on to change (`Steady`).
-/

namespace SmallTalk.Principal

open Option Stored List

variable {row : ClaimRow}

/-- The store under other trust roots. -/
def Stored.under (s : Stored) (roots : Finset (String × String)) : Stored :=
  { s with roots := roots }

variable {b : Scheme} {s : Stored} {t : Tables} {roots last : Finset (String × String)}
  {strayed : Prop} {rank : String → ℕ}

/-! ### What a verdict depends on -/

/-- A judgement whose questions have the same answers is the same. -/
theorem judgedWith_transfer (b : Scheme) (s s' : Stored) (verdict verdict' : String → Verdict)
    {d : String}
    (hrow : s'.claimRow d = s.claimRow d) (hsig : s'.storedSignature d = s.storedSignature d)
    (h : ∀ row, s.claimRow d = some row → ∀ q ∈ questions b s verdict d,
      (answers s row verdict).answer q = (answers s' row verdict').answer q) :
    judgedWith b s' verdict' d = judgedWith b s verdict d ∧
      questions b s' verdict' d = questions b s verdict d := by
  unfold judgedWith questions
  rw [hrow, hsig]
  cases hr : s.claimRow d with
  | none => exact ⟨rfl, rfl⟩
  | some row =>
    have hq := h row hr
    simp only [questions, hr] at hq
    obtain ⟨hv, ha⟩ := Dialogue.eval_congr hq
    refine ⟨?_, ha.symm⟩
    dsimp only
    rw [judge_eq_run, judge_eq_run, Dialogue.run_id, Dialogue.run_id]
    exact hv.symm

theorem claimRow_id {id : String} (h : s.claimRow id = some row) : row.id = id := by
  simpa using find?_some h

/-- With one row for each claim, a row is the one found by its id. -/
theorem claimRow_of_mem (hu : (s.claims.map (·.id)).Nodup) (h : row ∈ s.claims) :
    s.claimRow row.id = some row := by
  cases hfound : s.claimRow row.id with
  | none => simpa using find?_eq_none.mp hfound row h
  | some found =>
    rw [inj_on_of_nodup_map hu (mem_of_find?_eq_some hfound) h (claimRow_id hfound)]

/-- The verdict of a signed claim that an answer reads is reached by a link of that answer. -/
theorem affects_of_reads (hu : (s.claims.map (·.id)).Nodup) {q : Question} {other : String}
    (h : other ∈ s.reads row q) (hs : s.Signed other) : ∃ l ∈ s.linksOf q, l ∈ s.affects other := by
  obtain ⟨sig, hsig⟩ := isSome_iff_exists.mp hs.1
  cases q with
  | delegation id =>
    cases hg : s.grantOf id with
    | none => simp [reads, hg] at h
    | some granted =>
      obtain rfl : other = id := by simpa [reads, hg] using h
      obtain ⟨found, hfound, hgrant⟩ := bind_eq_some_iff.mp hg
      have hkind : found.kind = keyGrantedKind := by
        by_contra hk
        simp [hk] at hgrant
      exact ⟨delegationLink other, by simp [linksOf, hg],
        by simp [affects, hfound, hsig, hkind]⟩
  | revokedBefore principal key =>
    obtain ⟨hrevokes, -⟩ := mem_filter.mp h
    obtain ⟨found, hmem, rfl⟩ := mem_map.mp hrevokes
    obtain ⟨hclaim, hfound⟩ := mem_filter.mp hmem
    simp only [Bool.and_eq_true, decide_eq_true_eq] at hfound
    obtain ⟨⟨⟨hsubject, hkind⟩, hkey⟩, -⟩ := hfound
    exact ⟨keyLink principal key, by simp [linksOf],
      by simp [affects, claimRow_of_mem hu hclaim, hsig, hkind, hkey, hsubject,
        show keyRevokedKind ≠ keyGrantedKind by decide]⟩
  | isRoot subject key => cases h
  | nonceUsedBefore key nonce => cases h

/-- The claims an answer reads are here. -/
theorem claimRow_of_reads {q : Question} {other : String} (h : other ∈ s.reads row q) :
    (s.claimRow other).isSome := by
  cases q with
  | delegation id =>
    cases hg : s.grantOf id with
    | none => simp [reads, hg] at h
    | some granted =>
      obtain rfl : other = id := by simpa [reads, hg] using h
      obtain ⟨found, hfound, -⟩ := bind_eq_some_iff.mp hg
      simp [hfound]
  | revokedBefore principal key =>
    have hbefore := (mem_filter.mp h).2
    simp only [Bool.and_eq_true, before] at hbefore
    cases hr : s.claimRow other with
    | none => simp [hr] at hbefore
    | some found => rfl
  | isRoot subject key => cases h
  | nonceUsedBefore key nonce => cases h

/-! ### The invariant -/

/-- The verdicts as cached; a claim that cannot be judged is unsigned. -/
def current (cache : String → Option Verdict) (id : String) : Verdict := (cache id).getD .unsigned

/-- A signed claim that was never judged and that a chunk will come to. -/
def Pending (t : Tables) (id : String) : Prop :=
  t.Signed id ∧ t.verdicts id = none ∧ (id ∈ t.fresh ∨ id ∈ t.queue)

/-- A verdict that is queued when a pending claim is judged. -/
def Waits (t : Tables) (d : String) : Prop :=
  ∃ p, Pending t p ∧ ∃ l ∈ t.affects p, (l, d) ∈ t.links

/-- The cached verdict is the one the cached verdicts give, and its links cover its questions. -/
def Consistent (b : Scheme) (t : Tables) (roots : Finset (String × String)) (d : String) : Prop :=
  t.verdicts d = some (judgedWith b (t.under roots) (current t.verdicts) d) ∧
    ∀ q ∈ questions b (t.under roots) (current t.verdicts) d, ∀ l ∈ t.linksOf q, (l, d) ∈ t.links

/-- The tables between chunks, the roots last checked being `last`; `strayed` when claims were
judged under other roots since. -/
structure Sound (b : Scheme) (last : Finset (String × String)) (strayed : Prop) (t : Tables) :
    Prop where
  unique : (t.claims.map (·.id)).Nodup
  rows : ∀ id, (t.storedSignature id).isSome → (t.claimRow id).isSome
  signed : ∀ id, t.verdicts id ≠ none → t.Signed id
  cached : ∀ id, t.Signed id → id ∉ t.fresh → id ∉ t.queue → t.verdicts id ≠ none
  right : ∀ id, t.Signed id → id ∉ t.fresh → id ∉ t.queue →
    Waits t id ∨ (strayed ∧ (rootLink, id) ∈ t.links) ∨ Consistent b t last id

theorem Sound.pending (h : Sound b last strayed t) {id : String} (hs : t.Signed id)
    (hc : t.verdicts id = none) : Pending t id := by
  refine ⟨hs, hc, ?_⟩
  by_contra hnot
  rw [not_or] at hnot
  exact h.cached id hs hnot.1 hnot.2 hc

/-- What waits may be queued in other ways, as long as a signed claim that waits goes on waiting. -/
theorem Sound.requeue {t' : Tables} (h : Sound b last strayed t) (hsame : SameJudged t t')
    (hwait : ∀ id, t.Signed id → id ∈ t.fresh ∨ id ∈ t.queue → id ∈ t'.fresh ∨ id ∈ t'.queue) :
    Sound b last strayed t' := by
  obtain ⟨s', verdicts, links, queue, fresh, verdictRoots⟩ := t'
  obtain ⟨rfl, rfl, rfl, rfl⟩ := hsame
  have hnot : ∀ id, t.Signed id → id ∉ fresh → id ∉ queue → id ∉ t.fresh ∧ id ∉ t.queue :=
    fun id hs hf hq => not_or.mp (mt (hwait id hs) (not_or.mpr ⟨hf, hq⟩))
  refine ⟨h.unique, h.rows, h.signed, fun id hs hf hq => ?_, fun id hs hf hq => ?_⟩
  · obtain ⟨hf, hq⟩ := hnot id hs hf hq
    exact h.cached id hs hf hq
  · obtain ⟨hf, hq⟩ := hnot id hs hf hq
    refine (h.right id hs hf hq).imp_left ?_
    rintro ⟨p, ⟨hps, hpn, hp⟩, hl⟩
    exact ⟨p, ⟨hps, hpn, hwait p hps hp⟩, hl⟩

/-! ### Judging one claim -/

section

/-- A claim that keeps its value through a chunk that judges `ids`: a cached one the chunk does
not judge, or one that is not cached or is judged as it was, and relies on such claims only. -/
inductive Steady (b : Scheme) (s : Stored) (cache : String → Option Verdict) (ids : List String) :
    String → Prop
  | idle {d : String} (hcached : cache d ≠ none) (hd : d ∉ ids) : Steady b s cache ids d
  | judged {d : String}
      (hvalue : cache d = none ∨ cache d = some (judgedWith b s (value b s cache) d))
      (h : ∀ other ∈ s.reliedOn d, Steady b s cache ids other) : Steady b s cache ids d

variable {cache : String → Option Verdict} {ids : List String}

theorem reliedOn_signed {id other : String} (h : other ∈ s.reliedOn id) : s.Signed id := by
  unfold reliedOn at h
  split at h
  next row sig hr hsig => exact ⟨by simp [hsig], by simp [hr]⟩
  next => cases h

/-- What holds while a chunk is judged, from `cache` on. -/
structure Midway (b : Scheme) (s : Stored) (cache : String → Option Verdict) (ids : List String)
    (t : Tables) (memo : Memo) : Prop where
  stored : t.toStored = s
  kept : ∀ d, Steady b s cache ids d → value b s t.verdicts d = value b s cache d
  memo : ∀ d v, memo.lookup d = some v → Steady b s cache ids d ∧ v = value b s cache d
  grown : ∀ d, t.verdicts d = none → cache d = none

/-- Claims that are not cached are steady, when the signed ones are. -/
def SteadyChunk (b : Scheme) (t : Tables) : Prop :=
  ∀ d, t.Signed d → t.verdicts d = none → Steady b t.toStored t.verdicts t.queueChunk d

theorem steady_of_uncached (h : ∀ d, s.Signed d → cache d = none → Steady b s cache ids d)
    {d : String} (hd : cache d = none) : Steady b s cache ids d := by
  by_cases hs : s.Signed d
  · exact h d hs hd
  · exact .judged (.inl hd) fun other ho => absurd (reliedOn_signed ho) hs

/-- Writing the verdict of a claim of the chunk keeps the value of every steady claim. -/
theorem steady_write (hr : Leveled s rank) {cache' : String → Option Verdict}
    (hkept : ∀ d, Steady b s cache ids d → value b s cache' d = value b s cache d)
    (hgrown : ∀ d, cache' d = none → cache d = none) {c : String} (hc : c ∈ ids) {d : String}
    (hd : Steady b s cache ids d) :
    value b s (Function.update cache' c (some (judgedWith b s (value b s cache') c))) d =
      value b s cache d := by
  induction hd with
  | @idle d hcached hidle =>
    have hdc : d ≠ c := fun h => hidle (h ▸ hc)
    cases hv : cache' d with
    | none => exact absurd (hgrown d hv) hcached
    | some v =>
      rw [← hkept d (.idle hcached hidle), value_cached hv]
      exact value_cached (by rw [Function.update_of_ne hdc, hv])
  | @judged d hvalue hrely ih =>
    have hd : value b s cache d = judgedWith b s (value b s cache) d := by
      rcases hvalue with hnone | hsome
      · exact value_uncached hr hnone
      · exact value_cached hsome
    by_cases hdc : d = c
    · subst hdc
      rw [value_cached (Function.update_self ..), hd]
      exact judgedWith_congr fun other ho => hkept other (hrely other ho)
    · cases hv : cache' d with
      | none =>
        rw [value_uncached hr (by rw [Function.update_of_ne hdc, hv]), hd]
        exact judgedWith_congr fun other ho => ih other ho
      | some v =>
        rw [← hkept d (.judged hvalue hrely), value_cached hv]
        exact value_cached (by rw [Function.update_of_ne hdc, hv])

variable {memo : Memo}

theorem Midway.start (h : t.toStored = s) : Midway b s t.verdicts ids t [] where
  stored := h
  kept _ _ := rfl
  memo _ _ h := by cases h
  grown _ h := h

/-- What judging a signed claim writes: the verdict worked out from the cache. -/
theorem Midway.judges (hm : Midway b s cache ids t memo) (hr : Leveled s rank)
    (hsteady : ∀ d, cache d = none → Steady b s cache ids d) {c : String} (hs : t.Signed c)
    (n : ℕ) :
    ∃ memo' queued, judgeQueued b (t, memo, n) c =
        ({ (t.dequeue c).writeVerdict c (judgedWith b s (value b s t.verdicts) c)
            ((questions b s (value b s t.verdicts) c).reverse.flatMap s.linksOf) with
            queue := (t.dequeue c).queue ++ queued }, memo', n + 1) ∧
      (∀ d v, memo'.lookup d = some v → Steady b s cache ids d ∧ v = value b s cache d) ∧
      (t.verdicts c ≠ some (judgedWith b s (value b s t.verdicts) c) →
        ∀ l ∈ t.affects c, ∀ d ≠ c, (l, d) ∈ t.links → d ∈ queued) := by
  obtain rfl := hm.stored
  have hfits : FitsOn b t.toStored t.verdicts (fun _ => True) (value b t.toStored t.verdicts) :=
    value_fits hr fun _ _ _ _ => trivial
  have hmemo : MemoFits (fun _ => True) (value b t.toStored t.verdicts) memo := by
    intro d v _ hd
    obtain ⟨hst, rfl⟩ := hm.memo d v hd
    exact (hm.kept d hst).symm
  have hlt : ∀ other ∈ t.reliedOn c, rank other < maxChainDepth := fun other ho =>
    lt_of_lt_of_le (hr.1 c other ho) (hr.2 c)
  obtain ⟨memo', hj, hmemo'⟩ := judgeClaim_spec (b := b) (value b t.toStored t.verdicts)
    (fun other ho => (verdictOf_sound hfits hr.1 (hlt other ho)).2 trivial) hmemo
  -- The memo gains claims that are not cached, and these are steady.
  have hdomain : ∀ d v, memo'.lookup d = some v → Steady b t.toStored cache ids d := by
    have hadd : ∀ d v (memo : Memo), t.verdicts d = none →
        (∀ e w, memo.lookup e = some w → Steady b t.toStored cache ids e) →
        ∀ e w, ((d, v) :: memo).lookup e = some w → Steady b t.toStored cache ids e := by
      intro d v memo hd h e w he
      rw [lookup_cons] at he
      by_cases hed : e = d
      · exact hed ▸ hsteady d (hm.grown d hd)
      · have hbeq : (e == d) = false := by simpa using hed
        rw [hbeq] at he
        exact h e w he
    have hkeep : ∀ d v, (judgeClaim b t.toStored
        (verdictOf b t.toStored t.verdicts maxChainDepth) c memo).2.lookup d = some v →
        Steady b t.toStored cache ids d :=
      judgeClaim_keeps (fun other _ => verdictOf_keeps hadd maxChainDepth other)
        fun d v hd => (hm.memo d v hd).1
    rw [hj] at hkeep
    exact hkeep
  rcases judgeQueued_cases b t memo n c with
    ⟨hns, -⟩ | ⟨-, v, links, memo₂, queued, hj₂, hq, -, hqueued⟩
  · exact absurd hs hns
  · rw [hj] at hj₂
    obtain ⟨hvl, rfl⟩ := Prod.mk.inj hj₂
    obtain ⟨rfl, rfl⟩ := Prod.mk.inj hvl
    refine ⟨memo', queued, hq, fun d v hd => ⟨hdomain d v hd, ?_⟩, hqueued⟩
    rw [hmemo' d v trivial hd, hm.kept d (hdomain d v hd)]

/-- A claim that is here without a signature is worth nothing. -/
theorem value_unsigned (hr : Leveled s rank) {id : String}
    (hrow : (s.claimRow id).isSome) (hs : ¬ s.Signed id) (hc : cache id = none) :
    value b s cache id = .unsigned := by
  obtain ⟨row, hrow'⟩ := isSome_iff_exists.mp hrow
  have hsig : s.storedSignature id = none :=
    not_isSome_iff_eq_none.mp fun h => hs ⟨h, hrow⟩
  rw [value_uncached hr hc, judgedWith, hrow', hsig]
  rfl

/-- Only questions about roots are answered from them. -/
theorem answers_under {verdict : String → Verdict} {q : Question}
    (h : ∀ subject key, q ≠ .isRoot subject key) :
    (answers s row verdict).answer q = (answers (s.under roots) row verdict).answer q := by
  cases q with
  | isRoot subject key => exact absurd rfl (h subject key)
  | _ => rfl

theorem dequeue_sound (h : Sound b last strayed t) {c : String} (hc : ¬ t.Signed c) :
    Sound b last strayed (t.dequeue c) := by
  refine h.requeue ⟨rfl, rfl, rfl, rfl⟩ fun id hs => Or.imp_right fun hq => ?_
  exact mem_filter.mpr ⟨hq, by simpa using fun heq : id = c => hc (heq ▸ hs)⟩

section

variable {c d : String} {v : Verdict} {links queued : List String}

/-- The tables once `c` is judged and `queued` is what its verdict affects. -/
def Tables.judgedAs (t : Tables) (c : String) (v : Verdict) (links queued : List String) : Tables :=
  { (t.dequeue c).writeVerdict c v links with queue := (t.dequeue c).queue ++ queued }

theorem judgedAs_self : (t.judgedAs c v links queued).verdicts c = some v :=
  Function.update_self ..

theorem judgedAs_other (hd : d ≠ c) : (t.judgedAs c v links queued).verdicts d = t.verdicts d :=
  Function.update_of_ne hd _ _

theorem judgedAs_link {l : String} (hd : d ≠ c) (h : (l, d) ∈ t.links) :
    (l, d) ∈ (t.judgedAs c v links queued).links :=
  mem_append_left _ (mem_filter.mpr ⟨h, by simpa using hd⟩)

theorem judgedAs_selfLink {l : String} (h : l ∈ links) :
    (l, c) ∈ (t.judgedAs c v links queued).links :=
  mem_append_right _ (mem_map.mpr ⟨l, h, rfl⟩)

theorem judgedAs_queue (hd : d ≠ c) (h : d ∈ t.queue) : d ∈ (t.judgedAs c v links queued).queue :=
  mem_append_left _ (mem_filter.mpr ⟨h, by simpa using hd⟩)

theorem judgedAs_pending (hd : d ≠ c) (h : Pending t d) : Pending (t.judgedAs c v links queued) d :=
  ⟨h.1, (judgedAs_other hd).trans h.2.1, h.2.2.imp_right (judgedAs_queue hd)⟩

/-- A verdict that rests on the one just written is queued, or the one written is the old one. -/
theorem Sound.right_other (h : Sound b last strayed t) (hs : t.Signed c) (hdc : d ≠ c)
    (hqueued : t.verdicts c ≠ some v → ∀ l ∈ t.affects c, ∀ d ≠ c, (l, d) ∈ t.links → d ∈ queued)
    (hds : t.Signed d) (hdf : d ∉ t.fresh) (hdq : d ∉ (t.judgedAs c v links queued).queue) :
    Waits (t.judgedAs c v links queued) d ∨
      (strayed ∧ (rootLink, d) ∈ (t.judgedAs c v links queued).links) ∨
        Consistent b (t.judgedAs c v links queued) last d := by
  have hnot : d ∉ queued := fun hmem => hdq (mem_append_right _ hmem)
  rcases h.right d hds hdf fun hmem => hdq (judgedAs_queue hdc hmem) with
    ⟨p, hp, l, hl, hlinked⟩ | ⟨hst, hlinked⟩ | ⟨hd, hlinks⟩
  · by_cases hpc : p = c
    · subst hpc
      have hchanged : t.verdicts p ≠ some v := by
        rw [hp.2.1]
        exact (some_ne_none v).symm
      exact absurd (hqueued hchanged l hl d hdc hlinked) hnot
    · exact .inl ⟨p, judgedAs_pending hpc hp, l, hl, judgedAs_link hdc hlinked⟩
  · exact .inr (.inl ⟨hst, judgedAs_link hdc hlinked⟩)
  · have hreads : ∀ row, t.claimRow d = some row →
        ∀ q ∈ questions b (t.under last) (current t.verdicts) d, ∀ other ∈ t.reads row q,
        current t.verdicts other = current (t.judgedAs c v links queued).verdicts other := by
      intro row hrow q hq other ho
      by_cases hoc : other = c
      · subst hoc
        by_cases hsame : t.verdicts other = some v
        · simp only [current, judgedAs_self, hsame]
        · obtain ⟨l, hl, hla⟩ := affects_of_reads h.unique ho hs
          exact absurd (hqueued hsame l hla d hdc (hlinks q hq l hl)) hnot
      · simp only [current, judgedAs_other hoc]
    obtain ⟨hj, hasked⟩ := judgedWith_transfer b (t.under last)
      ((t.judgedAs c v links queued).under last) (current t.verdicts)
      (current (t.judgedAs c v links queued).verdicts) (d := d) rfl rfl
      fun row hrow q hq => answers_congr (hreads row hrow q hq)
    refine .inr (.inr ⟨?_, fun q hq l hl => judgedAs_link hdc (hlinks q (hasked ▸ hq) l hl)⟩)
    rw [judgedAs_other hdc, hd, hj]

/-- The verdict just written waits on a claim worked out along the way, or is right. -/
theorem Sound.right_self (h : Sound b last strayed t) (hr : Leveled t.toStored rank) (hs : t.Signed c) (hroots : t.roots = last ∨ strayed)
    (hv : v = judgedWith b t.toStored (value b t.toStored t.verdicts) c)
    (hlinks : ∀ q ∈ questions b t.toStored (value b t.toStored t.verdicts) c,
      ∀ l ∈ t.linksOf q, l ∈ links) :
    Waits (t.judgedAs c v links queued) c ∨
      (strayed ∧ (rootLink, c) ∈ (t.judgedAs c v links queued).links) ∨
        Consistent b (t.judgedAs c v links queued) last c := by
  obtain ⟨row, hrow⟩ := isSome_iff_exists.mp hs.2
  have hne : ∀ q ∈ questions b t.toStored (value b t.toStored t.verdicts) c,
      ∀ other ∈ t.reads row q, other ≠ c := by
    rintro q hq other ho rfl
    exact absurd (hr.1 other other (reads_subset_reliedOn hrow hq ho)) (lt_irrefl _)
  by_cases hwait : ∃ q ∈ questions b t.toStored (value b t.toStored t.verdicts) c,
      ∃ other ∈ t.reads row q, t.Signed other ∧ t.verdicts other = none
  · obtain ⟨q, hq, other, ho, hos, hon⟩ := hwait
    obtain ⟨l, hl, hla⟩ := affects_of_reads h.unique ho hos
    exact .inl ⟨other, judgedAs_pending (hne q hq other ho) (h.pending hos hon), l, hla,
      judgedAs_selfLink (hlinks q hq l hl)⟩
  by_cases hroot : strayed ∧ (rootLink, c) ∈ (t.judgedAs c v links queued).links
  · exact .inr (.inl hroot)
  have hcurrent : ∀ q ∈ questions b t.toStored (value b t.toStored t.verdicts) c,
      ∀ other ∈ t.reads row q, value b t.toStored t.verdicts other =
        current (t.judgedAs c v links queued).verdicts other := by
    intro q hq other ho
    simp only [current, judgedAs_other (hne q hq other ho)]
    cases hc : t.verdicts other with
    | some w => exact value_cached hc
    | none =>
      exact value_unsigned hr (claimRow_of_reads ho)
        (fun hos => hwait ⟨q, hq, other, ho, hos, hc⟩) hc
  obtain ⟨hj, hasked⟩ := judgedWith_transfer b t.toStored
    ((t.judgedAs c v links queued).under last) (value b t.toStored t.verdicts)
    (current (t.judgedAs c v links queued).verdicts) (d := c) rfl rfl fun row' hrow' q hq => by
      obtain rfl : row' = row := some.inj (hrow'.symm.trans hrow)
      refine (answers_congr (hcurrent q hq)).trans ?_
      rcases hroots with rfl | hst
      · rfl
      · refine answers_under fun subject key heq => hroot ⟨hst, ?_⟩
        exact judgedAs_selfLink (hlinks q hq _ (by simp [heq, linksOf]))
  refine .inr (.inr ⟨?_, fun q hq l hl => judgedAs_selfLink (hlinks q (hasked ▸ hq) l hl)⟩)
  rw [judgedAs_self, hj, hv]

end

/-- **One judgement.**  Judging a queued claim keeps the tables sound. -/
theorem judgeQueued_sound (h : Sound b last strayed t) (hm : Midway b s cache ids t memo)
    (hr : Leveled s rank)
    (hsteady : ∀ d, cache d = none → Steady b s cache ids d) {c : String} (hc : c ∈ ids)
    (hroots : t.roots = last ∨ strayed) (n : ℕ) :
    Sound b last strayed (judgeQueued b (t, memo, n) c).1 ∧
      Midway b s cache ids (judgeQueued b (t, memo, n) c).1
        (judgeQueued b (t, memo, n) c).2.1 := by
  by_cases hs : t.Signed c
  case neg =>
    rcases judgeQueued_cases b t memo n c with ⟨-, hq⟩ | ⟨hs', -⟩
    · rw [hq]
      exact ⟨dequeue_sound h hs, hm.stored, hm.kept, hm.memo, hm.grown⟩
    · exact absurd hs' hs
  obtain ⟨memo', queued, hq, hmemo', hqueued⟩ := hm.judges hr hsteady hs n
  obtain rfl := hm.stored
  obtain ⟨v, hv⟩ : ∃ v, v = judgedWith b t.toStored (value b t.toStored t.verdicts) c := ⟨_, rfl⟩
  obtain ⟨links, hlinks⟩ : ∃ links, links =
    (questions b t.toStored (value b t.toStored t.verdicts) c).reverse.flatMap t.linksOf := ⟨_, rfl⟩
  rw [← hv] at hq hqueued
  rw [← hlinks] at hq
  rw [hq]
  change Sound b last strayed (t.judgedAs c v links queued) ∧
    Midway b t.toStored cache ids (t.judgedAs c v links queued) memo'
  have hcover : ∀ q ∈ questions b t.toStored (value b t.toStored t.verdicts) c,
      ∀ l ∈ t.linksOf q, l ∈ links := fun q hq l hl =>
    hlinks ▸ mem_flatMap.mpr ⟨q, mem_reverse.mpr hq, hl⟩
  refine ⟨⟨h.unique, h.rows, ?_, ?_, ?_⟩, ⟨rfl, ?_, hmemo', ?_⟩⟩
  · intro d hd
    by_cases hdc : d = c
    · exact hdc ▸ hs
    · exact h.signed d (judgedAs_other (t := t) hdc ▸ hd)
  · intro d hds hdf hdq
    by_cases hdc : d = c
    · rw [hdc, judgedAs_self]
      exact some_ne_none _
    · rw [judgedAs_other hdc]
      exact h.cached d hds hdf fun hmem => hdq (judgedAs_queue hdc hmem)
  · intro d hds hdf hdq
    by_cases hdc : d = c
    · subst hdc
      exact h.right_self hr hs hroots hv hcover
    · exact h.right_other hs hdc hqueued hds hdf hdq
  · intro d hd
    have hwrite := steady_write hr hm.kept hm.grown hc hd
    rw [← hv] at hwrite
    exact hwrite
  · intro d hd
    by_cases hdc : d = c
    · rw [hdc, judgedAs_self] at hd
      cases hd
    · exact hm.grown d (judgedAs_other (t := t) hdc ▸ hd)

theorem judgeAll_sound (hr : Leveled s rank)
    (hsteady : ∀ d, cache d = none → Steady b s cache ids d)
    (hroots : s.roots = last ∨ strayed) {queue : List String} (hqueue : ∀ c ∈ queue, c ∈ ids)
    {x : Tables × Memo × ℕ} (h : Sound b last strayed x.1)
    (hm : Midway b s cache ids x.1 x.2.1) :
    Sound b last strayed (queue.foldl (judgeQueued b) x).1 := by
  refine (foldlRecOn (motive := fun x : Tables × Memo × ℕ => Sound b last strayed x.1 ∧
    Midway b s cache ids x.1 x.2.1) queue _ ⟨h, hm⟩ ?_).1
  rintro ⟨t, memo, n⟩ ⟨h, hm⟩ c hc
  exact judgeQueued_sound h hm hr hsteady (hqueue c hc) (hm.stored ▸ hroots) n

end

/-! ### Chunks -/

/-- **One chunk.**  A chunk keeps the tables sound, where reliance is shallow and no claim is
judged from a verdict the chunk goes on to change. -/
theorem chunk_sound (h : Sound b last strayed t) (hr : Leveled t.toStored rank) (hsteady : SteadyChunk b t)
    (hroots : t.roots = last ∨ strayed) : Sound b last strayed (chunk b t).1 := by
  obtain ⟨⟨hstored, hverdicts, -⟩, -⟩ := taken_same t
  have hmid : Midway b t.toStored t.taken.verdicts t.queueChunk t.taken [] := Midway.start hstored
  rw [hverdicts] at hmid
  exact judgeAll_sound hr (fun d hd => steady_of_uncached hsteady hd) hroots
    (fun c hc => hc) (x := (t.taken, [], 0))
    (h.requeue (taken_same t).1 fun _ _ => mem_taken) hmid

theorem chunks_sound (h : Sound b last strayed t) (hr : Leveled t.toStored rank) (hsteady : ∀ n, SteadyChunk b (chunks b t n))
    (hroots : t.roots = last ∨ strayed) (n : ℕ) : Sound b last strayed (chunks b t n) := by
  induction n with
  | zero => exact h
  | succ n ih =>
    have hstored := chunks_stored (b := b) (t := t) n
    rw [chunks_succ]
    exact chunk_sound ih (by rwa [hstored]) (hsteady n) (by rwa [hstored])

/-! ### Checks of the roots -/

/-- A verdict none of whose answers changed stays right. -/
theorem Consistent.transfer {t' : Tables} {last' : Finset (String × String)} {d : String}
    (h : Consistent b t last d) (hverdicts : t'.verdicts = t.verdicts) (hlinks : t'.links = t.links)
    (hrow : t'.claimRow d = t.claimRow d) (hsig : t'.storedSignature d = t.storedSignature d)
    (hanswers : ∀ row, t.claimRow d = some row →
      ∀ q ∈ questions b (t.under last) (current t.verdicts) d,
        (answers (t.under last) row (current t.verdicts)).answer q =
          (answers (t'.under last') row (current t.verdicts)).answer q ∧
        t'.linksOf q = t.linksOf q) :
    Consistent b t' last' d := by
  obtain ⟨hd, hcover⟩ := h
  obtain ⟨hj, hasked⟩ := judgedWith_transfer b (t.under last) (t'.under last')
    (current t.verdicts) (current t.verdicts) (d := d) hrow hsig
    fun row hr q hq => (hanswers row hr q hq).1
  refine ⟨?_, fun q hq l hl => ?_⟩
  · rw [hverdicts, hd, hj]
  · rw [hverdicts, hasked] at hq
    obtain ⟨row, hr⟩ : ∃ row, t.claimRow d = some row := by
      cases hr : t.claimRow d with
      | some row => exact ⟨row, rfl⟩
      | none =>
        have hnone : (t.under last).claimRow d = none := hr
        simp [questions, hnone] at hq
    rw [hlinks]
    exact hcover q hq l ((hanswers row hr q hq).2 ▸ hl)

/-- **A check of the roots** keeps the tables sound, when the roots it finds unchanged are those
last checked, and nothing was judged under others since. -/
theorem checkRoots_sound (h : Sound b last strayed t)
    (hroots : t.verdictRoots = some (b.rootsDigest t.roots) → ¬ strayed ∧ t.roots = last) :
    Sound b t.roots False (checkRoots b t) := by
  unfold checkRoots
  split
  next hsame =>
    obtain ⟨hst, hlast⟩ := hroots hsame
    rw [hlast]
    refine ⟨h.unique, h.rows, h.signed, h.cached, fun id hs hf hq => ?_⟩
    exact (h.right id hs hf hq).imp_right (Or.imp_left fun hstray => absurd hstray.1 hst)
  next =>
    have hqueue : ∀ id, id ∉ (t.queueLinked rootLink).queue → id ∉ t.queue :=
      fun id hid hmem => hid (mem_append_left _ hmem)
    refine ⟨h.unique, h.rows, h.signed, fun id hs hf hq => h.cached id hs hf (hqueue id hq),
      fun id hs hf hq => ?_⟩
    have hnot : (rootLink, id) ∉ t.links := fun hl =>
      hq (mem_append_right _ (Tables.mem_linkedTo.mpr hl))
    rcases h.right id hs hf (hqueue id hq) with ⟨p, ⟨hps, hpn, hp⟩, hl⟩ | ⟨-, hl⟩ | hc
    · exact .inl ⟨p, ⟨hps, hpn, hp.imp_right (mem_append_left _)⟩, hl⟩
    · exact absurd hl hnot
    · refine .inr (.inr (hc.transfer rfl rfl rfl rfl fun row _ q hq => ⟨?_, rfl⟩))
      refine answers_under (s := t.under last) fun subject key heq => hnot ?_
      exact hc.2 q hq rootLink (by simp [heq, linksOf])

end SmallTalk.Principal
