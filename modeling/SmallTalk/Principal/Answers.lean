import SmallTalk.Principal.Verdicts

/-!
# Principal — what the store answers

The store's answers remember verdicts and links while a claim is judged. Here they are compared
with pure answers from given verdicts (`answers`), so that the verdict the store reaches is the
one `judge` gives (`judgedWith`).

* `reliedOn`: the claims whose verdicts a judgement may ask for: the delegations its chain names,
  and the earlier revocations of the keys these grant.
* `judgeClaim_spec`: where the verdicts asked for are the given ones, the judgement is the pure
  one, and its links are those of the questions it asked.
* `verdictOf_sound`: the verdict another claim asks for is the right one.
-/

namespace SmallTalk.Principal

open Stored Dialogue List

variable {q : Question} {s : Judging}

namespace Stored

/-- The claims whose verdicts the judgement of `id` may ask for. -/
def reliedOn (t : Stored) (id : String) : List String :=
  match t.claimRow id, t.storedSignature id with
  | some row, some sig =>
    sig.chain.flatMap fun link =>
      match t.grantOf link with
      | none => []
      | some (subject, grant) =>
        link :: (t.revocations subject grant.key).filter fun revocation =>
          revocation ≠ row.id && t.before revocation row
  | _, _ => []

/-- The claims whose verdicts an answer reads. -/
def reads (t : Stored) (row : ClaimRow) : Question → List String
  | .delegation id => if (t.grantOf id).isSome then [id] else []
  | .revokedBefore principal key =>
    (t.revocations principal key).filter fun revocation =>
      revocation ≠ row.id && t.before revocation row
  | _ => []

/-- The links an answer leaves. -/
def linksOf (t : Stored) : Question → List String
  | .delegation id =>
    match t.grantOf id with
    | none => [delegationLink id]
    | some (subject, grant) => [keyLink subject grant.key, delegationLink id]
  | .isRoot _ _ => [rootLink]
  | .revokedBefore principal key => [keyLink principal key]
  | .nonceUsedBefore key nonce => [nonceLink key nonce]

end Stored

/-- The answers for a claim when the other claims have the given verdicts. -/
def answers (t : Stored) (row : ClaimRow) (verdict : String → Verdict) : Facts Id where
  delegation id := (t.grantOf id).map fun (subject, grant) => ⟨subject, grant, verdict id⟩
  isRoot subject key := decide ((subject, key) ∈ t.roots)
  revokedBefore principal key :=
    ((t.revocations principal key).filter fun revocation =>
      revocation ≠ row.id && t.before revocation row).any fun revocation =>
        verdict revocation = .verified && t.mayRevoke principal revocation
  nonceUsedBefore key nonce := t.nonceUsed row key nonce

/-- The verdict of a claim when the other claims have the given verdicts. -/
def judgedWith (b : Scheme) (t : Stored) (verdict : String → Verdict) (id : String) : Verdict :=
  match t.claimRow id with
  | none => .held ("claim " ++ id ++ " is not here")
  | some row =>
    judge b.toVerifier (row.judged b) (t.storedSignature id) (answers t row verdict)

variable {b : Scheme} {t : Stored} {row : ClaimRow} {id : String} {verdict : String → Verdict}

theorem mem_reliedOn {sig : ClaimSignature} {other : String} (hr : t.claimRow id = some row)
    (hs : t.storedSignature id = some sig) (hq : t.grantOf.Named sig q)
    (h : other ∈ t.reads row q) : other ∈ t.reliedOn id := by
  simp only [reliedOn, hr, hs, mem_flatMap]
  cases q with
  | delegation link =>
    refine ⟨link, hq, ?_⟩
    cases hg : t.grantOf link with
    | none => simp [reads, hg] at h
    | some granted =>
      obtain rfl : other = link := by simpa [reads, hg] using h
      exact mem_cons_self
  | revokedBefore principal key =>
    obtain ⟨link, hlink, grant, hg, rfl⟩ := hq
    refine ⟨link, hlink, ?_⟩
    rw [hg]
    exact mem_cons_of_mem _ h
  | isRoot subject key => cases h
  | nonceUsedBefore key nonce => cases h

theorem answers_fits (q : Question) : t.grantOf.Fits q ((answers t row verdict).answer q) := by
  cases q with
  | delegation id =>
    show Option.map _ (Option.map _ (t.grantOf id)) = t.grantOf id
    cases t.grantOf id <;> rfl
  | _ => trivial

/-- An answer depends on the verdicts it reads. -/
theorem answers_congr {verdict' : String → Verdict}
    (h : ∀ other ∈ t.reads row q, verdict other = verdict' other) :
    (answers t row verdict).answer q = (answers t row verdict').answer q := by
  cases q with
  | delegation id =>
    show Option.map _ (t.grantOf id) = Option.map _ (t.grantOf id)
    cases hg : t.grantOf id with
    | none => rfl
    | some granted =>
      have := h id (by simp [reads, hg])
      simp [this]
  | revokedBefore principal key =>
    show List.any _ _ = List.any _ _
    rw [Bool.eq_iff_iff, any_eq_true, any_eq_true]
    exact exists_congr fun other => and_congr_right fun hother => by rw [h other hother]
  | isRoot subject key => rfl
  | nonceUsedBefore key nonce => rfl

/-- The verdict of a claim depends on the claims it relies on. -/
theorem judgedWith_congr {verdict' : String → Verdict}
    (h : ∀ other ∈ t.reliedOn id, verdict other = verdict' other) :
    judgedWith b t verdict id = judgedWith b t verdict' id := by
  unfold judgedWith
  cases hr : t.claimRow id with
  | none => rfl
  | some row =>
    dsimp only
    cases hs : t.storedSignature id with
    | none => rfl
    | some sig =>
      rw [judge_eq_run, judge_eq_run, run_id, run_id]
      refine (eval_congr fun q hq => answers_congr fun other hother => ?_).1
      exact h other (mem_reliedOn hr hs
        (asks_inquiry (asks_of_mem_asked answers_fits hq)) hother)

/-! ### The store's answers -/

section

/-- The claim's verdict is the given one, and asking for it keeps the memo as it should be. -/
def Tells (verdictOf : String → StateM Memo Verdict) (inv : Memo → Prop) (other : String)
    (verdict : Verdict) : Prop :=
  ∀ memo, inv memo → (verdictOf other memo).1 = verdict ∧ inv (verdictOf other memo).2

variable {verdictOf : String → StateM Memo Verdict} {inv : Memo → Prop}

theorem stateM_run_bind {σ α β : Type} (x : StateM σ α) (k : α → StateM σ β) (s : σ) :
    (x >>= k).run s = (k (x.run s).1).run (x.run s).2 := rfl

theorem consult_spec (h : Tells verdictOf inv id (verdict id)) (hs : inv s.memo) :
    ∃ memo, (consult verdictOf id).run s = (verdict id, ⟨memo, s.links⟩) ∧ inv memo := by
  obtain ⟨hv, hm⟩ := h s.memo hs
  exact ⟨_, Prod.ext hv rfl, hm⟩

theorem anyRevoked_spec (principal : String) {ids : List String}
    (h : ∀ other ∈ ids.filter (fun r => r ≠ row.id && t.before r row),
      Tells verdictOf inv other (verdict other))
    (hs : inv s.memo) :
    ∃ memo, (anyRevoked t row principal verdictOf ids).run s =
      ((ids.filter fun r => r ≠ row.id && t.before r row).any fun r =>
        verdict r = .verified && t.mayRevoke principal r, ⟨memo, s.links⟩) ∧ inv memo := by
  induction ids generalizing s with
  | nil => exact ⟨s.memo, rfl, hs⟩
  | cons r rest ih =>
    by_cases hr : r ≠ row.id ∧ t.before r row = true
    · have hfilter : (r :: rest).filter (fun r => r ≠ row.id && t.before r row) =
          r :: rest.filter fun r => r ≠ row.id && t.before r row :=
        filter_cons_of_pos (by simp [hr])
      rw [hfilter] at h ⊢
      obtain ⟨memo, hrun, hm⟩ := consult_spec (h r mem_cons_self) hs
      rw [anyRevoked, if_pos hr, stateM_run_bind, hrun]
      by_cases hv : verdict r = .verified ∧ t.mayRevoke principal r = true
      · refine ⟨memo, ?_, hm⟩
        rw [if_pos hv, any_cons, hv.1, hv.2]
        rfl
      · obtain ⟨memo', hrun', hm'⟩ :=
          ih (fun o ho => h o (mem_cons_of_mem _ ho)) (s := ⟨memo, s.links⟩) hm
        refine ⟨memo', ?_, hm'⟩
        have hfalse : (verdict r = .verified && t.mayRevoke principal r) = false := by
          simpa using hv
        rw [if_neg hv, any_cons, hfalse, Bool.false_or, hrun']
    · have hfilter : (r :: rest).filter (fun r => r ≠ row.id && t.before r row) =
          rest.filter fun r => r ≠ row.id && t.before r row :=
        filter_cons_of_neg (by simpa using hr)
      rw [hfilter] at h ⊢
      simp only [anyRevoked, if_neg hr]
      exact ih h hs

/-- Where the verdicts an answer reads are the given ones, the store's answer is the pure one. -/
theorem answer_spec (h : ∀ other ∈ t.reads row q, Tells verdictOf inv other (verdict other))
    (hs : inv s.memo) :
    ∃ memo, ((storeFacts t row verdictOf).answer q).run s =
      ((answers t row verdict).answer q, ⟨memo, t.linksOf q ++ s.links⟩) ∧ inv memo := by
  cases q with
  | delegation id =>
    cases hg : t.grantOf id with
    | none =>
      refine ⟨s.memo, ?_, hs⟩
      simp only [Facts.answer, storeFacts, answers, linksOf, hg, stateM_run_bind]
      rfl
    | some granted =>
      obtain ⟨subject, grant⟩ := granted
      obtain ⟨memo, hrun, hm⟩ := consult_spec (h id (by simp [reads, hg]))
        (s := ⟨s.memo, keyLink subject grant.key :: delegationLink id :: s.links⟩) hs
      refine ⟨memo, ?_, hm⟩
      simp only [Facts.answer, storeFacts, answers, linksOf, hg, stateM_run_bind]
      have hnotes : ((note (keyLink subject grant.key)).run
          ((note (delegationLink id)).run s).2).2 =
          ⟨s.memo, keyLink subject grant.key :: delegationLink id :: s.links⟩ := rfl
      rw [hnotes, hrun]
      rfl
  | isRoot subject key => exact ⟨s.memo, rfl, hs⟩
  | revokedBefore principal key =>
    obtain ⟨memo, hrun, hm⟩ := anyRevoked_spec principal h
      (s := ⟨s.memo, keyLink principal key :: s.links⟩) hs
    exact ⟨memo, hrun, hm⟩
  | nonceUsedBefore key nonce => exact ⟨s.memo, rfl, hs⟩

/-- Asking for the claim's verdict keeps the memo as it should be. -/
def Keeps (verdictOf : String → StateM Memo Verdict) (inv : Memo → Prop) (other : String) : Prop :=
  ∀ memo, inv memo → inv (verdictOf other memo).2

theorem anyRevoked_keeps {principal : String} {ids : List String}
    (h : ∀ other ∈ ids.filter (fun r => r ≠ row.id && t.before r row), Keeps verdictOf inv other)
    (hs : inv s.memo) : inv ((anyRevoked t row principal verdictOf ids).run s).2.memo := by
  induction ids generalizing s with
  | nil => exact hs
  | cons r rest ih =>
    have hrest : ∀ other ∈ rest.filter (fun r => r ≠ row.id && t.before r row),
        Keeps verdictOf inv other := fun o ho =>
      h o (mem_filter.mpr ⟨mem_cons_of_mem _ (mem_filter.mp ho).1,
        (mem_filter.mp ho).2⟩)
    by_cases hr : r ≠ row.id ∧ t.before r row = true
    · have hm : inv ((consult verdictOf r).run s).2.memo :=
        h r (mem_filter.mpr ⟨mem_cons_self, by simp [hr]⟩) s.memo hs
      rw [anyRevoked, if_pos hr, stateM_run_bind]
      split
      · exact hm
      · exact ih hrest hm
    · rw [anyRevoked, if_neg hr]
      exact ih hrest hs

theorem answer_keeps (h : ∀ other ∈ t.reads row q, Keeps verdictOf inv other) (hs : inv s.memo) :
    t.grantOf.Fits q (((storeFacts t row verdictOf).answer q).run s).1 ∧
      inv (((storeFacts t row verdictOf).answer q).run s).2.memo := by
  cases q with
  | delegation id =>
    simp only [Facts.answer, storeFacts, stateM_run_bind, Grants.Fits]
    cases hg : t.grantOf id with
    | none => exact ⟨rfl, hs⟩
    | some granted => exact ⟨rfl, h id (by simp [reads, hg]) s.memo hs⟩
  | isRoot subject key => exact ⟨trivial, hs⟩
  | revokedBefore principal key =>
    exact ⟨trivial, anyRevoked_keeps h (s := ⟨s.memo, keyLink principal key :: s.links⟩) hs⟩
  | nonceUsedBefore key nonce => exact ⟨trivial, hs⟩

/-! ### Judging a claim -/

/-- The questions the judgement of a claim asks under given verdicts. -/
def questions (b : Scheme) (t : Stored) (verdict : String → Verdict) (id : String) :
    List Question :=
  match t.claimRow id with
  | none => []
  | some row =>
    asked (answers t row verdict).answer
      (inquiry b.toVerifier (row.judged b) (t.storedSignature id))

/-- The claims read by the questions a judgement asks are among those it relies on. -/
theorem reads_subset_reliedOn (hr : t.claimRow id = some row) (hq : q ∈ questions b t verdict id)
    {other : String} (h : other ∈ t.reads row q) : other ∈ t.reliedOn id := by
  simp only [questions, hr] at hq
  cases hs : t.storedSignature id with
  | none =>
    rw [hs] at hq
    cases hq
  | some sig =>
    rw [hs] at hq
    exact mem_reliedOn hr hs (asks_inquiry (asks_of_mem_asked answers_fits hq)) h

theorem judgeClaim_spec (verdict : String → Verdict)
    (h : ∀ other ∈ t.reliedOn id, Tells verdictOf inv other (verdict other))
    {memo : Memo} (hm : inv memo) :
    ∃ memo', judgeClaim b t verdictOf id memo =
      ((judgedWith b t verdict id,
        (questions b t verdict id).reverse.flatMap t.linksOf), memo') ∧ inv memo' := by
  unfold judgeClaim judgedWith
  cases hr : t.claimRow id with
  | none => exact ⟨memo, by simp [questions, hr], hm⟩
  | some row =>
    have hreads : ∀ q ∈ questions b t verdict id, ∀ other ∈ t.reads row q,
        Tells verdictOf inv other (verdict other) :=
      fun q hq other ho => h other (reads_subset_reliedOn hr hq ho)
    simp only [questions, hr] at hreads ⊢
    have hstart : (Judging.mk memo []).links = ([] : List Question).reverse.flatMap t.linksOf ∧
        inv (Judging.mk memo []).memo := ⟨rfl, hm⟩
    obtain ⟨s, hrun, hlinks, hinv⟩ := run_state
      (fun qs (s : Judging) => s.links = qs.reverse.flatMap t.linksOf ∧ inv s.memo)
      (fun q hq qs s ⟨hl, hs⟩ => by
        obtain ⟨memo', hrun, hm'⟩ := answer_spec (hreads q hq) hs
        exact ⟨_, hrun, by simp [hl], hm'⟩) hstart
    refine ⟨s.memo, ?_, hinv⟩
    rw [judge_eq_run, judge_eq_run, hrun, run_id]
    simp only [nil_append] at hlinks
    dsimp only
    rw [hlinks]

theorem judgeClaim_keeps (h : ∀ other ∈ t.reliedOn id, Keeps verdictOf inv other)
    {memo : Memo} (hm : inv memo) : inv (judgeClaim b t verdictOf id memo).2 := by
  unfold judgeClaim
  cases hr : t.claimRow id with
  | none => exact hm
  | some row =>
    dsimp only
    rw [judge_eq_run]
    cases hs : t.storedSignature id with
    | none => exact hm
    | some sig =>
      exact run_keeps (fun s : Judging => inv s.memo) (fun q hq s hsm => answer_keeps
          (fun other ho => h other (mem_reliedOn hr hs (asks_inquiry hq) ho)) hsm) hm

end

/-! ### The verdicts of other claims -/

/-- Reliance goes down in rank, so no chain of it returns to a claim. -/
def Ranked (t : Stored) (rank : String → ℕ) : Prop :=
  ∀ id, ∀ other ∈ t.reliedOn id, rank other < rank id

/-- No chain of reliance is longer than the depth allowed. -/
def Leveled (t : Stored) (rank : String → ℕ) : Prop :=
  Ranked t rank ∧ ∀ id, rank id ≤ maxChainDepth

/-- On the claims of `S` the given verdicts are the cached ones, and those of claims not cached
are judged from verdicts of `S`. -/
structure FitsOn (b : Scheme) (t : Stored) (cache : String → Option Verdict) (S : String → Prop)
    (verdict : String → Verdict) : Prop where
  cached : ∀ d, S d → ∀ v, cache d = some v → v = verdict d
  judged : ∀ d, S d → cache d = none → verdict d = judgedWith b t verdict d
  closed : ∀ d, S d → cache d = none → ∀ other ∈ t.reliedOn d, S other

/-- The memo holds the given verdicts on the claims of `S`. -/
def MemoFits (S : String → Prop) (verdict : String → Verdict) (memo : Memo) : Prop :=
  ∀ d v, S d → memo.lookup d = some v → v = verdict d

variable {S : String → Prop} {rank : String → ℕ} {cache : String → Option Verdict}

/-- **Verdicts asked for are right.**  With more levels left than the rank of a claim, asking for
its verdict keeps a fitting memo, and gives the fitting verdict on the claims of `S`. -/
theorem verdictOf_sound (hf : FitsOn b t cache S verdict) (hr : Ranked t rank) {left : ℕ}
    {d : String} (hd : rank d < left) :
    Keeps (verdictOf b t cache left) (MemoFits S verdict) d ∧
      (S d → Tells (verdictOf b t cache left) (MemoFits S verdict) d (verdict d)) := by
  induction left generalizing d with
  | zero => exact absurd hd (Nat.not_lt_zero _)
  | succ left ih =>
    have hother : ∀ other ∈ t.reliedOn d, rank other < left := fun other ho =>
      lt_of_lt_of_le (hr d other ho) (Nat.le_of_lt_succ hd)
    -- What the claim relies on is asked for one level deeper.
    have hwork : ∀ memo, MemoFits S verdict memo → cache d = none →
        MemoFits S verdict (judgeClaim b t (verdictOf b t cache left) d memo).2 ∧
          (S d → (judgeClaim b t (verdictOf b t cache left) d memo).1.1 = verdict d) := by
      intro memo hm hnone
      refine ⟨judgeClaim_keeps (fun other ho => (ih (hother other ho)).1) hm, fun hS => ?_⟩
      obtain ⟨memo', hj, -⟩ := judgeClaim_spec (b := b) verdict
        (fun other ho => (ih (hother other ho)).2 (hf.closed d hS hnone other ho)) hm
      rw [hj]
      exact (hf.judged d hS hnone).symm
    have hstep : ∀ memo, MemoFits S verdict memo →
        MemoFits S verdict (verdictOf b t cache (left + 1) d memo).2 ∧
          (S d → (verdictOf b t cache (left + 1) d memo).1 = verdict d) := by
      intro memo hm
      simp only [verdictOf, remembered]
      cases hmemo : memo.lookup d with
      | some v => exact ⟨hm, fun hS => hm d v hS hmemo⟩
      | none =>
        cases hcache : cache d with
        | some v => exact ⟨hm, fun hS => hf.cached d hS v hcache⟩
        | none =>
          obtain ⟨hkeep, hval⟩ := hwork memo hm hcache
          refine ⟨fun e v hS he => ?_, hval⟩
          change List.lookup e ((d, (judgeClaim b t (verdictOf b t cache left) d memo).1.1) ::
            (judgeClaim b t (verdictOf b t cache left) d memo).2) = some v at he
          rw [lookup_cons] at he
          by_cases hed : e = d
          · subst hed
            simp only [beq_self_eq_true] at he
            exact (Option.some.inj he).symm.trans (hval hS)
          · have : (e == d) = false := by simpa using hed
            rw [this] at he
            exact hkeep e v hS he
    exact ⟨fun memo hm => (hstep memo hm).1,
      fun hS memo hm => ⟨(hstep memo hm).2 hS, (hstep memo hm).1⟩⟩

/-- Asking for verdicts only writes the verdicts of claims that are not cached into the memo. -/
theorem verdictOf_keeps {inv : Memo → Prop}
    (h : ∀ d v memo, cache d = none → inv memo → inv ((d, v) :: memo)) (left : ℕ) (d : String) :
    Keeps (verdictOf b t cache left) inv d := by
  induction left generalizing d with
  | zero =>
    intro memo hm
    simp only [verdictOf, remembered]
    cases memo.lookup d with
    | some v => exact hm
    | none => cases cache d <;> exact hm
  | succ left ih =>
    intro memo hm
    simp only [verdictOf, remembered]
    cases memo.lookup d with
    | some v => exact hm
    | none =>
      cases hc : cache d with
      | some v => exact hm
      | none => exact h d _ _ hc (judgeClaim_keeps (fun other _ => ih other) hm)

end SmallTalk.Principal
