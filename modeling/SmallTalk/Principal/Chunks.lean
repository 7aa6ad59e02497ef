import SmallTalk.Lib.Rounds
import SmallTalk.Principal.Answers

/-!
# Principal — chunks of a verdict pass

A pass judges its queued claims in chunks. Within a chunk the claims are judged one after the
other, over one memo, and a changed verdict queues what it affects.

* `judgeQueued_cases`: what judging one queued claim does.
* `value`: the verdict of a claim from a cache, worked out where it is not cached.
* `judgeAll_fits`, `chunk_settles`: where the claims of lower rank end a chunk as they were, a
  claim ends it as it was or with the verdict they give it.
* `chunks`: the tables after so many chunks.
-/

namespace SmallTalk.Principal

open Tables List

variable {b : Scheme} {t t' : Tables} {S : String → Prop} {rank : String → ℕ}
  {verdict : String → Verdict} {id : String} {ids : List String}

/-! ### One queued claim -/

/-- The links of the verdicts a claim affects: those that share its nonce, wait on it as a
delegation, or rest on a key it revokes. -/
def Stored.affects (t : Stored) (id : String) : List String :=
  match t.claimRow id, t.storedSignature id with
  | some row, some sig =>
    nonceLink sig.key sig.nonce ::
      if row.kind = keyGrantedKind then [delegationLink id]
      else if row.kind = keyRevokedKind then
        (row.fieldKey.map (keyLink row.subject)).toList
      else []
  | _, _ => []

/-- The claims whose verdicts have a link. -/
def Tables.linkedTo (t : Tables) (link : String) : List String :=
  (t.links.filter (·.1 = link)).map (·.2)

theorem Tables.mem_linkedTo {link d : String} : d ∈ t.linkedTo link ↔ (link, d) ∈ t.links := by
  simp [linkedTo]

theorem queueAffectedBy_eq (t : Tables) (id : String) : t.queueAffectedBy id =
      { t with queue := t.queue ++ (t.affects id).flatMap t.linkedTo } := by
  unfold queueAffectedBy Stored.affects
  cases t.claimRow id with
  | none => simp
  | some row =>
    cases t.storedSignature id with
    | none => simp
    | some sig =>
      dsimp only
      split
      · simp [queueLinked, linkedTo, append_assoc]
      · split
        · cases row.fieldKey <;>
            simp [queueLinked, linkedTo, append_assoc]
        · simp [queueLinked, linkedTo]

/-- A claim that can be judged: it is here and signed. -/
def Stored.Signed (t : Stored) (id : String) : Prop :=
  (t.storedSignature id).isSome ∧ (t.claimRow id).isSome

instance (t : Stored) (id : String) : Decidable (t.Signed id) :=
  inferInstanceAs (Decidable (_ ∧ _))

/-- What judging one queued claim does: a changed verdict queues what it affects. -/
theorem judgeQueued_cases (b : Scheme) (t : Tables) (memo : Memo) (n : ℕ) (id : String) :
    (¬ t.Signed id ∧ judgeQueued b (t, memo, n) id = (t.dequeue id, memo, n)) ∨
      (t.Signed id ∧ ∃ verdict links memo' ids,
        judgeClaim b t.toStored (verdictOf b t.toStored t.verdicts maxChainDepth) id memo =
          ((verdict, links), memo') ∧
        judgeQueued b (t, memo, n) id =
          ({ (t.dequeue id).writeVerdict id verdict links with
              queue := (t.dequeue id).queue ++ ids }, memo', n + 1) ∧
        (t.verdicts id = some verdict → ids = []) ∧
        (t.verdicts id ≠ some verdict →
          ∀ l ∈ t.affects id, ∀ d ≠ id, (l, d) ∈ t.links → d ∈ ids)) := by
  cases hs : t.storedSignature id with
  | none => exact .inl ⟨by simp [Stored.Signed, hs], judgeQueued_skipped (.inl hs)⟩
  | some sig =>
    cases hr : t.claimRow id with
    | none => exact .inl ⟨by simp [Stored.Signed, hr], judgeQueued_skipped (.inr hr)⟩
    | some row =>
      refine .inr ⟨⟨by simp [hs], by simp [hr]⟩, ?_⟩
      obtain ⟨⟨⟨verdict, links⟩, memo'⟩, hj⟩ :
        ∃ x, judgeClaim b t.toStored (verdictOf b t.toStored t.verdicts maxChainDepth) id
          memo = x := ⟨_, rfl⟩
      have hq := judgeQueued_judged (n := n) hs hr hj
      by_cases hc : t.verdicts id = some verdict
      · refine ⟨verdict, links, memo', [], hj, ?_, fun _ => rfl, fun h => absurd hc h⟩
        rw [hq, if_neg (not_not.mpr hc)]
        simp [writeVerdict]
      · refine ⟨verdict, links, memo', (t.affects id).flatMap
          ((t.dequeue id).writeVerdict id verdict links).linkedTo, hj, ?_,
          fun h => absurd h hc, fun _ l hl d hd hlinked => ?_⟩
        · rw [hq, if_pos hc, queueAffectedBy_eq]
          rfl
        · refine mem_flatMap.mpr ⟨l, hl, mem_linkedTo.mpr ?_⟩
          exact mem_append_left _ (mem_filter.mpr ⟨hlinked, by simpa using hd⟩)

theorem judgeQueued_same (b : Scheme) (s : Tables × Memo × ℕ) (id : String) :
    (judgeQueued b s id).1.toStored = s.1.toStored ∧
      (judgeQueued b s id).1.fresh = s.1.fresh ∧
      ∀ d ≠ id, (judgeQueued b s id).1.verdicts d = s.1.verdicts d := by
  obtain ⟨t, memo, n⟩ := s
  rcases judgeQueued_cases b t memo n id with ⟨-, h⟩ | ⟨-, verdict, links, memo', ids, -, h, -, -⟩
  · rw [h]
    exact ⟨rfl, rfl, fun _ _ => rfl⟩
  · rw [h]
    exact ⟨rfl, rfl, fun d hd => Function.update_of_ne hd _ _⟩

theorem judgeQueued_unsigned {s : Tables × Memo × ℕ} (h : ¬ s.1.Signed id) :
    (judgeQueued b s id).1.verdicts = s.1.verdicts := by
  obtain ⟨t, memo, n⟩ := s
  rcases judgeQueued_cases b t memo n id with ⟨-, hq⟩ | ⟨hs, -⟩
  · rw [hq]
    rfl
  · exact absurd hs h

theorem mem_judgeQueued_queue {s : Tables × Memo × ℕ} {id d : String} (hd : d ≠ id)
    (h : d ∈ s.1.queue) : d ∈ (judgeQueued b s id).1.queue := by
  obtain ⟨t, memo, n⟩ := s
  have hmem : d ∈ (t.dequeue id).queue := mem_filter.mpr ⟨h, by simpa using hd⟩
  rcases judgeQueued_cases b t memo n id with
    ⟨-, hq⟩ | ⟨-, verdict, links, memo', ids, -, hq, -, -⟩
  · rwa [hq]
  · rw [hq]
    exact mem_append_left _ hmem

/-- Judging a claim where the verdicts it relies on fit. -/
theorem judgeQueued_fits (hf : FitsOn b t.toStored t.verdicts S verdict)
    (hr : Leveled t.toStored rank) {memo : Memo}
    (hm : MemoFits S verdict memo) (n : ℕ) (id : String) :
    MemoFits S verdict (judgeQueued b (t, memo, n) id).2.1 ∧
      (t.Signed id → (∀ other ∈ t.reliedOn id, S other) →
        (judgeQueued b (t, memo, n) id).1.verdicts id =
          some (judgedWith b t.toStored verdict id)) := by
  have hlt : ∀ other ∈ t.reliedOn id, rank other < maxChainDepth := fun other ho =>
    lt_of_lt_of_le (hr.1 id other ho) (hr.2 id)
  rcases judgeQueued_cases b t memo n id with ⟨hns, h⟩ | ⟨-, v, links, memo', ids, hj, h, -⟩
  · rw [h]
    exact ⟨hm, fun hs => absurd hs hns⟩
  · have hkeep := judgeClaim_keeps (b := b)
      (fun other ho => (verdictOf_sound hf hr.1 (hlt other ho)).1) hm
    rw [hj] at hkeep
    rw [h]
    refine ⟨hkeep, fun _ hS => ?_⟩
    obtain ⟨memo'', hj', -⟩ := judgeClaim_spec (b := b) verdict
      (fun other ho => (verdictOf_sound hf hr.1 (hlt other ho)).2 (hS other ho)) hm
    rw [hj] at hj'
    have hv : v = judgedWith b t.toStored verdict id := congrArg (fun x => x.1.1) hj'
    show Function.update t.verdicts id (some v) id = _
    rw [Function.update_self, hv]

/-! ### The queued claims of a chunk -/

theorem judgeAll_same (b : Scheme) (ids : List String) (s : Tables × Memo × ℕ) :
    (ids.foldl (judgeQueued b) s).1.toStored = s.1.toStored ∧
      (ids.foldl (judgeQueued b) s).1.fresh = s.1.fresh ∧
      ∀ d ∉ ids, (ids.foldl (judgeQueued b) s).1.verdicts d = s.1.verdicts d := by
  induction ids generalizing s with
  | nil => exact ⟨rfl, rfl, fun _ _ => rfl⟩
  | cons id ids ih =>
    obtain ⟨hsame, hfresh, hv⟩ := judgeQueued_same b s id
    obtain ⟨hsame', hfresh', hv'⟩ := ih (judgeQueued b s id)
    refine ⟨hsame'.trans hsame, hfresh'.trans hfresh, fun d hd => ?_⟩
    rw [mem_cons, not_or] at hd
    exact (hv' d hd.2).trans (hv d hd.1)

/-- A fit survives a change of the cache outside `S`. -/
theorem FitsOn.of_cache {s : Stored} {cache cache' : String → Option Verdict}
    (hf : FitsOn b s cache S verdict) (hv : ∀ d, S d → cache' d = cache d) :
    FitsOn b s cache' S verdict where
  cached d hd v hc := hf.cached d hd v (hv d hd ▸ hc)
  judged d hd hc := hf.judged d hd (hv d hd ▸ hc)
  closed d hd hc := hf.closed d hd (hv d hd ▸ hc)

/-- Judging distinct claims of which those of `S` end as they were: the memo keeps fitting, and
each claim that relies on `S` alone ends with its fitting verdict. -/
theorem judgeAll_fits (hf : FitsOn b t.toStored t.verdicts S verdict) (hr : Leveled t.toStored rank) (hnd : ids.Nodup) {memo : Memo} {n : ℕ}
    (hm : MemoFits S verdict memo)
    (hend : ∀ d, S d → (ids.foldl (judgeQueued b) (t, memo, n)).1.verdicts d = t.verdicts d) :
    ∀ id ∈ ids, t.Signed id → (∀ other ∈ t.reliedOn id, S other) →
      (ids.foldl (judgeQueued b) (t, memo, n)).1.verdicts id =
        some (judgedWith b t.toStored verdict id) := by
  induction ids generalizing t memo n with
  | nil => intro id hid; cases hid
  | cons first ids ih =>
    obtain ⟨hmemo, hvalue⟩ := judgeQueued_fits hf hr hm n first
    obtain ⟨hsame, -, hother⟩ := judgeQueued_same b (t, memo, n) first
    have hlast : (ids.foldl (judgeQueued b) (judgeQueued b (t, memo, n) first)).1.verdicts first
        = (judgeQueued b (t, memo, n) first).1.verdicts first :=
      (judgeAll_same b ids _).2.2 first (nodup_cons.mp hnd).1
    -- A claim of `S` that was just judged is not judged again, so it is as it ends.
    have hkept : ∀ d, S d → (judgeQueued b (t, memo, n) first).1.verdicts d = t.verdicts d := by
      intro d hd
      by_cases hdf : d = first
      · subst hdf
        exact hlast.symm.trans (hend d hd)
      · exact hother d hdf
    intro id hid hsigned hrely
    rcases mem_cons.mp hid with rfl | hid
    · exact hlast.trans (hvalue hsigned hrely)
    · have hstep := ih (t := (judgeQueued b (t, memo, n) first).1)
        (n := (judgeQueued b (t, memo, n) first).2.2)
        (hsame ▸ hf.of_cache hkept) (hsame ▸ hr) (nodup_cons.mp hnd).2 hmemo
        (fun d hd => (hend d hd).trans (hkept d hd).symm) id hid (hsame ▸ hsigned)
        (hsame ▸ hrely)
      rw [hsame] at hstep
      exact hstep

theorem judgeAll_unsigned {s : Tables × Memo × ℕ} {d : String} (hd : ¬ s.1.Signed d) :
    (ids.foldl (judgeQueued b) s).1.verdicts d = s.1.verdicts d := by
  induction ids generalizing s with
  | nil => rfl
  | cons id ids ih =>
    obtain ⟨hsame, -, hother⟩ := judgeQueued_same b s id
    refine (ih (hsame ▸ hd)).trans ?_
    by_cases hdi : d = id
    · subst hdi
      exact congrFun (judgeQueued_unsigned hd) d
    · exact hother d hdi

/-! ### Verdicts from a cache -/

/-- The verdict of a claim from a cache, worked out where it is not cached. -/
def valueAt (b : Scheme) (s : Stored) (cache : String → Option Verdict) : ℕ → String → Verdict
  | 0, id => (cache id).getD (.invalid "the chain is too deep or loops")
  | n + 1, id => (cache id).getD (judgedWith b s (valueAt b s cache n) id)

def value (b : Scheme) (s : Stored) (cache : String → Option Verdict) : String → Verdict :=
  valueAt b s cache (maxChainDepth + 1)

section

variable {s : Stored} {cache cache' : String → Option Verdict}

theorem valueAt_succ (hr : Ranked s rank) {n : ℕ} (h : rank id < n) :
    valueAt b s cache (n + 1) id = valueAt b s cache n id := by
  induction n generalizing id with
  | zero => exact absurd h (Nat.not_lt_zero _)
  | succ n ih =>
    rw [valueAt, valueAt]
    congr 1
    exact judgedWith_congr fun other ho =>
      ih (lt_of_lt_of_le (hr id other ho) (Nat.le_of_lt_succ h))

theorem value_cached {v : Verdict} (hc : cache id = some v) : value b s cache id = v := by
  simp [value, valueAt, hc]

theorem value_uncached (hr : Leveled s rank)
    (hc : cache id = none) : value b s cache id = judgedWith b s (value b s cache) id := by
  have hid : value b s cache id = judgedWith b s (valueAt b s cache maxChainDepth) id := by
    simp [value, valueAt, hc]
  rw [hid]
  exact judgedWith_congr fun other ho =>
    (valueAt_succ hr.1 (lt_of_lt_of_le (hr.1 id other ho) (hr.2 id))).symm

theorem value_fits (hr : Leveled s rank) (hS : ∀ d, S d → ∀ other ∈ s.reliedOn d, S other) :
    FitsOn b s cache S (value b s cache) where
  cached _ _ _ hc := (value_cached hc).symm
  judged _ _ hc := value_uncached hr hc
  closed d hd _ other ho := hS d hd other ho

theorem valueAt_congr (hr : Ranked s rank) {r : ℕ} (h : ∀ d, rank d < r → cache d = cache' d)
    {n : ℕ} (hid : rank id < r) : valueAt b s cache n id = valueAt b s cache' n id := by
  induction n generalizing id with
  | zero => simp [valueAt, h id hid]
  | succ n ih =>
    rw [valueAt, valueAt, h id hid]
    congr 1
    exact judgedWith_congr fun other ho => ih (lt_trans (hr id other ho) hid)

end

/-! ### One chunk -/

/-- Two tables that differ in their queues only. -/
def SameJudged (t t' : Tables) : Prop :=
  t'.toStored = t.toStored ∧ t'.verdicts = t.verdicts ∧ t'.links = t.links ∧
    t'.verdictRoots = t.verdictRoots

theorem SameJudged.trans {t t' t'' : Tables} (h : SameJudged t t') (h' : SameJudged t' t'') :
    SameJudged t t'' :=
  ⟨h'.1.trans h.1, h'.2.1.trans h.2.1, h'.2.2.1.trans h.2.2.1, h'.2.2.2.trans h.2.2.2⟩

theorem takeFresh_same (t : Tables) (id : String) :
    SameJudged t (t.takeFresh id) ∧ (t.takeFresh id).fresh = t.fresh.filter (· ≠ id) := by
  have ht : t.takeFresh id = ((t.dropFresh id).queueAffectedBy id).enqueue id := rfl
  rw [ht, queueAffectedBy_eq]
  exact ⟨⟨rfl, rfl, rfl, rfl⟩, rfl⟩

theorem takeAll_same (ids : List String) (t : Tables) :
    SameJudged t (ids.foldl takeFresh t) ∧
      (ids.foldl takeFresh t).fresh = t.fresh.filter (· ∉ ids) := by
  induction ids generalizing t with
  | nil => exact ⟨⟨rfl, rfl, rfl, rfl⟩, by simp⟩
  | cons id ids ih =>
    obtain ⟨hone, hfresh⟩ := takeFresh_same t id
    obtain ⟨hall, hleft⟩ := ih (t.takeFresh id)
    refine ⟨hone.trans hall, hleft.trans ?_⟩
    rw [hfresh, filter_filter]
    exact filter_congr fun x _ => by simp [Bool.and_comm]

theorem taken_same (t : Tables) :
    SameJudged t t.taken ∧ t.taken.fresh = t.fresh.filter (· ∉ t.freshChunk) :=
  takeAll_same _ t

/-- A claim that waits goes on waiting when fresh ones are taken. -/
theorem mem_takeFresh {d id : String} (h : d ∈ t.fresh ∨ d ∈ t.queue) :
    d ∈ (t.takeFresh id).fresh ∨ d ∈ (t.takeFresh id).queue := by
  have ht : t.takeFresh id = ((t.dropFresh id).queueAffectedBy id).enqueue id := rfl
  rw [ht, queueAffectedBy_eq]
  by_cases hd : d = id
  · exact .inr (hd ▸ mem_append_right _ (mem_singleton_self _))
  · exact h.imp (fun hf => mem_filter.mpr ⟨hf, by simpa using hd⟩)
      fun hq => mem_append_left _ (mem_append_left _ hq)

theorem mem_taken {d : String} (h : d ∈ t.fresh ∨ d ∈ t.queue) :
    d ∈ t.taken.fresh ∨ d ∈ t.taken.queue := by
  unfold taken
  induction t.freshChunk generalizing t with
  | nil => exact h
  | cons id ids ih => exact ih (mem_takeFresh h)

theorem chunk_same (b : Scheme) (t : Tables) : (chunk b t).1.toStored = t.toStored ∧
      (chunk b t).1.fresh = t.fresh.filter (· ∉ t.freshChunk) := by
  obtain ⟨hsame, hfresh, -⟩ := judgeAll_same b t.queueChunk (t.taken, [], 0)
  obtain ⟨⟨htaken, -⟩, htfresh⟩ := taken_same t
  exact ⟨hsame.trans htaken, hfresh.trans htfresh⟩

theorem chunk_unsigned {d : String} (hd : ¬ t.Signed d) :
    (chunk b t).1.verdicts d = t.verdicts d := by
  obtain ⟨⟨htaken, hv, -⟩, -⟩ := taken_same t
  rw [← hv]
  exact judgeAll_unsigned (s := (t.taken, [], 0)) (show ¬ t.taken.Signed d by rwa [htaken])

theorem queueChunk_nodup (t : Tables) : t.queueChunk.Nodup :=
  (Sorted.sortedSet_pairwise t.taken.queue).nodup.sublist
    (take_sublist _ _)

/-- Where the claims of lower rank end a chunk as they were, a claim ends it as it was or with
the verdict they give it. -/
theorem chunk_settles (hr : Leveled t.toStored rank)
    {c : String} (h : ∀ d, rank d < rank c → (chunk b t).1.verdicts d = t.verdicts d) :
    (chunk b t).1.verdicts c = t.verdicts c ∨
      (chunk b t).1.verdicts c =
        some (judgedWith b t.toStored (value b t.toStored t.verdicts) c) := by
  obtain ⟨⟨htaken, hv, -⟩, -⟩ := taken_same t
  by_cases hs : t.Signed c
  case neg => exact .inl (chunk_unsigned hs)
  by_cases hc : c ∈ t.queueChunk
  case neg => exact .inl (((judgeAll_same b t.queueChunk (t.taken, [], 0)).2.2 c hc).trans
    (congrFun hv c))
  have hfits : FitsOn b t.taken.toStored t.taken.verdicts (fun d => rank d < rank c)
      (value b t.taken.toStored t.taken.verdicts) := value_fits (htaken ▸ hr)
        fun d hd other ho => lt_trans (hr.1 d other (htaken ▸ ho)) hd
  have hempty : MemoFits (fun d => rank d < rank c) (value b t.taken.toStored t.taken.verdicts)
      [] := fun d v _ hd => by cases hd
  have hend := judgeAll_fits hfits (htaken ▸ hr) (queueChunk_nodup t) hempty (n := 0)
    (fun d hd => (h d hd).trans (congrFun hv d).symm) c hc
    (htaken ▸ hs) (fun other ho => hr.1 c other (htaken ▸ ho))
  rw [htaken, hv] at hend
  exact .inr hend

theorem judgeQueued_queue {s : Tables × Memo × ℕ}
    (h : (judgeQueued b s id).1.verdicts id = s.1.verdicts id) :
    (judgeQueued b s id).1.queue = s.1.queue.filter (· ≠ id) := by
  obtain ⟨t, memo, n⟩ := s
  rcases judgeQueued_cases b t memo n id with
    ⟨-, hq⟩ | ⟨-, v, links, memo', ids, -, hq, hnil, -⟩
  · rw [hq]
    rfl
  · rw [hq] at h
    have hwritten : Function.update t.verdicts id (some v) id = t.verdicts id := h
    have hv : t.verdicts id = some v := by rw [← hwritten, Function.update_self]
    rw [hq, hnil hv]
    exact append_nil _

/-- Judging distinct claims without changing a verdict takes them off the queue. -/
theorem judgeAll_drains (hnd : ids.Nodup) {s : Tables × Memo × ℕ}
    (hend : (ids.foldl (judgeQueued b) s).1.verdicts = s.1.verdicts) :
    (ids.foldl (judgeQueued b) s).1.queue = s.1.queue.filter (· ∉ ids) := by
  induction ids generalizing s with
  | nil => simp
  | cons id ids ih =>
    obtain ⟨-, -, hother⟩ := judgeQueued_same b s id
    have hlast := (judgeAll_same b ids (judgeQueued b s id)).2.2 id (nodup_cons.mp hnd).1
    have hid : (judgeQueued b s id).1.verdicts id = s.1.verdicts id :=
      hlast.symm.trans (congrFun hend id)
    have hkept : (judgeQueued b s id).1.verdicts = s.1.verdicts := by
      funext d
      by_cases hd : d = id
      · rw [hd, hid]
      · exact hother d hd
    refine (ih (nodup_cons.mp hnd).2 (hend.trans hkept.symm)).trans ?_
    rw [judgeQueued_queue hid, filter_filter]
    exact filter_congr fun x _ => by simp [Bool.and_comm]

/-! ### Chunk after chunk -/

def chunks (b : Scheme) (t : Tables) (n : ℕ) : Tables := Rounds.stage (fun t => (chunk b t).1) t n

theorem chunks_succ (n : ℕ) : chunks b t (n + 1) = (chunk b (chunks b t n)).1 :=
  Rounds.stage_succ _ _ n

theorem chunks_stored (n : ℕ) : (chunks b t n).toStored = t.toStored := by
  induction n with
  | zero => rfl
  | succ n ih => rw [chunks_succ, (chunk_same b _).1, ih]

end SmallTalk.Principal
