import SmallTalk.Lib.Dialogue
import SmallTalk.Principal.Judge

/-!
# Principal — the questions of a judgement

Judging a claim reads the store through four questions. `inquiry` is the judgement as a tree of
questions; `judge_eq_run` says that `judge` with any answers is that tree run with them, and
`asks_inquiry` which questions it can come to: the delegations its chain names, the keys they
grant, its own key and nonce.
-/

namespace SmallTalk.Principal

open Dialogue

inductive Question where
  | delegation (id : String)
  | isRoot (subject key : String)
  | revokedBefore (principal key : String)
  | nonceUsedBefore (key nonce : String)
  deriving DecidableEq, Repr

abbrev Question.Answer : Question → Type
  | .delegation _ => Option Delegation
  | _ => Bool

def Facts.answer {m : Type → Type} (facts : Facts m) : ∀ q : Question, m q.Answer
  | .delegation id => facts.delegation id
  | .isRoot subject key => facts.isRoot subject key
  | .revokedBefore principal key => facts.revokedBefore principal key
  | .nonceUsedBefore key nonce => facts.nonceUsedBefore key nonce

/-- The facts whose answers are asked for. -/
def asking : Facts (Dialogue Question Question.Answer) where
  delegation id := question (Question.delegation id)
  isRoot subject key := question (Question.isRoot subject key)
  revokedBefore principal key := question (Question.revokedBefore principal key)
  nonceUsedBefore key nonce := question (Question.nonceUsedBefore key nonce)

/-- The judgement of a claim as a tree of questions. -/
def inquiry (v : Verifier) (claim : Judged) (signature : Option ClaimSignature) :
    Dialogue Question Question.Answer Verdict :=
  judge v claim signature asking

section

variable {m : Type → Type} [Monad m] [LawfulMonad m] (facts : Facts m)

@[simp] theorem run_delegation (id : String) :
    (asking.delegation id).run facts.answer = facts.delegation id :=
  run_question facts.answer (Question.delegation id)

@[simp] theorem run_isRoot (subject key : String) :
    (asking.isRoot subject key).run facts.answer = facts.isRoot subject key :=
  run_question facts.answer (Question.isRoot subject key)

@[simp] theorem run_revokedBefore (principal key : String) :
    (asking.revokedBefore principal key).run facts.answer = facts.revokedBefore principal key :=
  run_question facts.answer (Question.revokedBefore principal key)

@[simp] theorem run_nonceUsedBefore (key nonce : String) :
    (asking.nonceUsedBefore key nonce).run facts.answer = facts.nonceUsedBefore key nonce :=
  run_question facts.answer (Question.nonceUsedBefore key nonce)

theorem walk_eq_run (claim : Judged) (family : Family) (index : ℕ) (ids : List String)
    (principal key : String) :
    walk claim family facts index ids principal key =
      (walk claim family asking index ids principal key).run facts.answer := by
  induction ids generalizing index principal key with
  | nil => rfl
  | cons id rest ih =>
    simp only [walk, run_bind, run_delegation]
    refine bind_congr fun answer => ?_
    cases answer with
    | none => rfl
    | some d =>
      cases hl : linkRefusal claim family index id d principal key with
      | some reason => simp only [hl, run_pure]
      | none =>
        simp only [hl, run_bind, run_revokedBefore]
        refine bind_congr fun revoked => ?_
        cases revoked with
        | true => rfl
        | false =>
          cases hv : d.verdict with
          | verified =>
            by_cases hi : Family.of d.grant.issuer = some .node
            · by_cases hr : rest = [] <;> simp [hi, hr]
            · simp only [Bool.false_eq_true, if_false, hi]
              exact ih _ _ _
          | _ => rfl

/-- A judgement is its tree of questions, run with the answers at hand. -/
theorem judge_eq_run (v : Verifier) (claim : Judged) (signature : Option ClaimSignature) :
    judge v claim signature facts = (inquiry v claim signature).run facts.answer := by
  cases signature with
  | none => rfl
  | some sig =>
    unfold inquiry judge
    dsimp only
    by_cases hv : sig.verifies v claim = false
    · simp [hv]
    rw [if_neg hv, if_neg hv, run_bind, run_nonceUsedBefore]
    refine bind_congr fun used => ?_
    cases used with
    | true => rfl
    | false =>
      cases hs : speaker claim sig with
      | error reason => simp
      | ok family =>
        by_cases hf : family = .node
        · by_cases hc : sig.chain = []
          · simp only [hf, hc, if_true, ne_eq, not_true_eq_false, if_false,
              run_bind, run_isRoot, Bool.false_eq_true]
            refine bind_congr fun root => ?_
            cases root <;> rfl
          · simp [hf, hc]
        · by_cases hc : sig.chain = []
          · simp [hf, hc, judgeChain]
          · simp only [hf, if_false, judgeChain, hc, Bool.false_eq_true]
            exact walk_eq_run facts _ _ _ _ _ _

end

/-! ### What a judgement can ask -/

/-- The claims that delegate, by their identifier: the subject and the grant. -/
abbrev Grants := String → Option (String × KeyGrant)

/-- Answers that tell of delegations what is granted. -/
def Grants.Fits (grants : Grants) : ∀ q : Question, q.Answer → Prop
  | .delegation id, answer => answer.map (fun d => (d.subject, d.grant)) = grants id
  | _, _ => True

/-- The questions a signature leads to: its key and nonce, the delegations of its chain, and the
keys those grant. -/
def Grants.Named (grants : Grants) (sig : ClaimSignature) : Question → Prop
  | .delegation id => id ∈ sig.chain
  | .isRoot subject key => subject = sig.signer ∧ key = sig.key
  | .revokedBefore principal key =>
    ∃ id ∈ sig.chain, ∃ grant, grants id = some (principal, grant) ∧ grant.key = key
  | .nonceUsedBefore key nonce => key = sig.key ∧ nonce = sig.nonce

theorem asks_walk {grants : Grants} {sig : ClaimSignature} {claim : Judged} {family : Family}
    {index : ℕ} {ids : List String} {principal key : String} {q : Question}
    (hids : ∀ id ∈ ids, id ∈ sig.chain)
    (h : (walk claim family asking index ids principal key).Asks grants.Fits q) :
    grants.Named sig q := by
  induction ids generalizing index principal key with
  | nil => cases h
  | cons id rest ih =>
    have hid := hids id List.mem_cons_self
    have hrest := fun id h => hids id (List.mem_cons_of_mem _ h)
    rcases h with rfl | ⟨answer, hfits, h⟩
    · exact hid
    cases answer with
    | none => cases h
    | some d =>
      dsimp only [Dialogue.bind] at h
      cases hl : linkRefusal claim family index id d principal key with
      | some reason =>
        rw [hl] at h
        cases h
      | none =>
        rw [hl] at h
        obtain ⟨hsubject, hkey, -⟩ := linkRefusal_none hl
        rcases h with rfl | ⟨revoked, -, h⟩
        · exact ⟨id, hid, d.grant, hsubject ▸ hfits.symm, hkey⟩
        cases revoked with
        | true => cases h
        | false =>
          cases hv : d.verdict with
          | verified =>
            simp only [hv] at h
            by_cases hi : Family.of d.grant.issuer = some .node
            · by_cases hr : rest = [] <;> simp only [hi, hr, if_true, if_false] at h <;>
                cases h
            · simp only [hi, if_false] at h
              exact ih hrest h
          | _ =>
            simp only [hv] at h
            cases h

theorem asks_inquiry {grants : Grants} {v : Verifier} {claim : Judged} {sig : ClaimSignature}
    {q : Question} (h : (inquiry v claim (some sig)).Asks grants.Fits q) :
    grants.Named sig q := by
  unfold inquiry judge at h
  dsimp only at h
  by_cases hv : sig.verifies v claim = false
  · rw [if_pos hv] at h
    cases h
  rw [if_neg hv] at h
  rcases h with rfl | ⟨used, -, h⟩
  · exact ⟨rfl, rfl⟩
  cases used with
  | true => cases h
  | false =>
    cases hs : speaker claim sig with
    | error reason =>
      rw [hs] at h
      cases h
    | ok family =>
      simp only [hs] at h
      by_cases hf : family = .node
      · by_cases hc : sig.chain = []
        · simp only [hf, hc, if_true, ne_eq, not_true_eq_false, if_false] at h
          rcases h with rfl | ⟨root, -, h⟩
          · exact ⟨rfl, rfl⟩
          · cases root <;> cases h
        · simp only [hf, hc, if_true, ne_eq, not_false_eq_true] at h
          cases h
      · by_cases hc : sig.chain = []
        · simp only [hf, if_false, judgeChain, hc, if_true] at h
          cases h
        · simp only [hf, if_false, judgeChain, hc] at h
          exact asks_walk (fun _ hid => hid) h

end SmallTalk.Principal
