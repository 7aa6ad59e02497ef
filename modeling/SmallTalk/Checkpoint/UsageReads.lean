import SmallTalk.Checkpoint.Answers
import SmallTalk.Lib.Thinning

/-!
# Checkpoint — what lifetime usage reads

The usage fold holds, for each incarnation, what the claims of that incarnation say:

* `cumulative_spent`: the last of its largest cumulative readings;
* `rollups_spent`: the last snapshot of each of its rollup series;
* `responses_spent`: the sum of its single responses.

So a thinned log gives the same summary when these are the same (`usageSummary_thin`).
-/

namespace SmallTalk.Checkpoint

open Spend UsageFold List Thinning

variable {F : Type*} [Add F] (asF64 : Json → Option F)

def hasSemantics (semantics : String) (claim : ClaimRecord) : Bool :=
  decide (usageText claim "semantics" = some semantics)

variable (claim : ClaimRecord)

/-- The total that a usage claim tells. -/
def usageTotal : ℕ := (usageNumber claim "total_tokens").getD 0

def hasTotal : Bool := (usageNumber claim "total_tokens").isSome

/-- A reading that counts: without a total it is passed over. -/
def isReading : Bool :=
  hasSemantics "session_cumulative" claim && hasTotal claim

def isResponse : Bool := hasSemantics "response" claim && hasTotal claim

/-- A claim that adds to what an incarnation spent. -/
def spends : Bool :=
  isReading claim || hasSemantics "response_rollup" claim || isResponse claim

/-- What the claims of an incarnation add up to. -/
def spent [Zero F] (claims : List ClaimRecord) : Spend F :=
  claims.foldl (fun spend claim => (spending asF64 claim).elim spend (· spend)) .empty

theorem spending_eq : spending asF64 claim =
      if isReading claim then some fun spend =>
        spend.noteCumulative (cumulativeUsage asF64 claim (usageTotal claim))
      else if hasSemantics "response_rollup" claim then some fun spend =>
        { spend with rollups := spend.rollups.insert (rollupKey claim) (rollup claim) }
      else if isResponse claim then some fun spend =>
        { spend with responses := spend.responses.add asF64 claim (usageTotal claim) }
      else none := by
  unfold spending
  split
  case h_1 hsemantics =>
    cases htotal : usageNumber claim "total_tokens" with
    | none => simp [isReading, isResponse, hasSemantics, hsemantics, hasTotal, htotal]
    | some total => simp [isReading, hasSemantics, hsemantics, hasTotal, usageTotal, htotal]
  case h_2 hsemantics => simp [isReading, hasSemantics, hsemantics]
  case h_3 hsemantics =>
    cases htotal : usageNumber claim "total_tokens" with
    | none => simp [isReading, isResponse, hasSemantics, hsemantics, hasTotal, htotal]
    | some total =>
      simp [isReading, isResponse, hasSemantics, hsemantics, hasTotal, usageTotal, htotal]
  case h_4 hcumulative hrollup hresponse =>
    have hnone : ∀ semantics ∈ ["session_cumulative", "response_rollup", "response"],
        hasSemantics semantics claim = false := by
      simp only [mem_cons, not_mem_nil, or_false, hasSemantics, decide_eq_false_iff_not]
      rintro _ (rfl | rfl | rfl)
      · exact hcumulative
      · exact hrollup
      · exact hresponse
    simp [isReading, isResponse, hnone]

theorem isSome_spending : (spending asF64 claim).isSome = spends claim := by
  rw [spending_eq, spends]
  cases isReading claim <;> cases hasSemantics "response_rollup" claim <;>
    cases isResponse claim <;> rfl

/-! ### What one claim changes -/

section

variable (spend : Spend F) (claim : ClaimRecord)

/-- What an incarnation spent, after one more claim. -/
def Spend.after : Spend F := (spending asF64 claim).elim spend (· spend)

theorem cumulative_after : (spend.after asF64 claim).cumulative =
      if isReading claim ∧ spend.cumulative.all (fun current => current.total ≤ usageTotal claim) then
        some (cumulativeUsage asF64 claim (usageTotal claim))
      else spend.cumulative := by
  rw [Spend.after, spending_eq]
  cases hreading : isReading claim with
  | true =>
    simp only [if_true, Option.elim_some, Spend.noteCumulative, true_and]
    exact apply_ite Spend.cumulative _ _ _
  | false =>
    simp only [Bool.false_eq_true, if_false, false_and]
    split_ifs <;> rfl

theorem rollups_after : (spend.after asF64 claim).rollups =
      if hasSemantics "response_rollup" claim then
        spend.rollups.insert (rollupKey claim) (rollup claim)
      else spend.rollups := by
  rw [Spend.after, spending_eq]
  cases hrollup : hasSemantics "response_rollup" claim with
  | true =>
    have hreading : isReading claim = false := by
      simp [isReading, hasSemantics, of_decide_eq_true hrollup]
    simp [hreading]
  | false =>
    simp only [Bool.false_eq_true, if_false]
    split_ifs
    · simp only [Option.elim_some, Spend.noteCumulative]
      split <;> rfl
    · rfl
    · rfl

theorem responses_after : (spend.after asF64 claim).responses =
      if isResponse claim then spend.responses.add asF64 claim (usageTotal claim)
      else spend.responses := by
  rw [Spend.after, spending_eq]
  cases hresponse : isResponse claim with
  | true =>
    have hsemantics := of_decide_eq_true (Bool.and_eq_true_iff.mp hresponse).1
    simp [isReading, hasSemantics, hsemantics]
  | false =>
    simp only [Bool.false_eq_true, if_false]
    split_ifs
    · simp only [Option.elim_some, Spend.noteCumulative]
      split <;> rfl
    · rfl
    · rfl

end

/-! ### What a list of claims adds up to -/

section

variable [Zero F] (claims : List ClaimRecord)

theorem spent_append_singleton (claim : ClaimRecord) :
    spent asF64 (claims ++ [claim]) = (spent asF64 claims).after asF64 claim := by
  rw [spent, foldl_append]
  rfl

/-- **The last of the largest readings.** -/
theorem cumulative_spent : (spent asF64 claims).cumulative =
      (champion usageTotal (claims.filter isReading)).map fun claim =>
        cumulativeUsage asF64 claim (usageTotal claim) := by
  induction claims using List.reverseRecOn with
  | nil => rfl
  | append_singleton claims claim ih =>
    rw [spent_append_singleton, cumulative_after, filter_append, ih]
    cases hreading : isReading claim with
    | false => simp [hreading]
    | true =>
      rw [filter_cons_of_pos hreading, filter_nil, champion_append_singleton]
      cases champion usageTotal (claims.filter isReading) with
      | none => simp
      | some current =>
        simp only [Option.map_some, Option.all_some, cumulativeUsage, true_and, decide_eq_true_eq]
        split <;> rfl

/-- **The last snapshot of each series.** -/
theorem rollups_spent (key : String) : (spent asF64 claims).rollups.get key =
      (claims.filter fun claim =>
        hasSemantics "response_rollup" claim && decide (rollupKey claim = key)).getLast?.map
          rollup := by
  rw [← TreeMap.get_ofLast_of_key]
  refine congrArg (TreeMap.get · key) (foldl_hom rollups fun spend claim => ?_).symm
  refine Eq.trans ?_ (rollups_after asF64 spend claim).symm
  dsimp only
  cases hasSemantics "response_rollup" claim <;> rfl

/-- **The sum of the responses.** -/
theorem responses_spent : (spent asF64 claims).responses = (claims.filter isResponse).foldl
        (fun responses claim => responses.add asF64 claim (usageTotal claim))
        (empty : Spend F).responses := by
  rw [foldl_filter]
  exact (foldl_hom responses fun spend claim => (responses_after asF64 spend claim).symm).symm

/-! ### The summary -/

/-- The claims that add to what an incarnation spent. -/
def spendsOn (incarnation : String) (claim : ClaimRecord) : Bool :=
  spends claim && decide (usageIncarnation claim = incarnation)

theorem step_none (fold : UsageFold F) (claim : ClaimRecord) : fold.step asF64 none claim =
      { spend := fold.spend.modify (usageIncarnation claim) .empty (spending asF64 claim)
        context := if hasSemantics "context_occupancy" claim then
          some (contextUsage asF64 claim) else fold.context
        saw := true } := by
  simp [step, hasSemantics]

theorem usageFold_eq (claims : List ClaimRecord) :
    let fold := claims.foldl (step asF64 none) ⟨.empty, none, false⟩
    (∀ incarnation, fold.spend.get incarnation =
        if claims.filter (spendsOn incarnation) = [] then none
        else some (spent asF64 (claims.filter (spendsOn incarnation)))) ∧
      fold.context = (claims.filter (hasSemantics "context_occupancy")).getLast?.map
        (contextUsage asF64) ∧
      fold.saw = !claims.isEmpty := by
  refine ⟨fun incarnation => ?_, ?_, ?_⟩
  · have hspend : (claims.foldl (step asF64 none) ⟨.empty, none, false⟩).spend =
        claims.foldl (fun spend claim =>
          spend.modify (usageIncarnation claim) .empty (spending asF64 claim)) .empty :=
      (foldl_hom spend fun fold claim => by rw [step_none]).symm
    have hown : (fun claim => (spending asF64 claim).isSome &&
        decide (usageIncarnation claim = incarnation)) = spendsOn incarnation := by
      funext claim
      rw [isSome_spending, spendsOn]
    rw [hspend, TreeMap.get_foldl_modify]
    simp only [hown]
    rfl
  · induction claims using List.reverseRecOn with
    | nil => rfl
    | append_singleton claims claim ih =>
      rw [foldl_append, foldl_cons, foldl_nil, step_none, filter_append]
      cases hcontext : hasSemantics "context_occupancy" claim with
      | false => simpa [hcontext] using ih
      | true => simp [hcontext]
  · induction claims using List.reverseRecOn with
    | nil => rfl
    | append_singleton claims claim _ =>
      rw [foldl_append, foldl_cons, foldl_nil, step_none]
      simp

/-- **A thinned log** has the same usage when its readers find the same claims. -/
theorem usageSummary_thin {claims : List ClaimRecord} {k : ClaimRecord → Bool}
    (hempty : claims.filter k = [] ↔ claims = [])
    (hcontext : ((claims.filter k).filter (hasSemantics "context_occupancy")).getLast? =
      (claims.filter (hasSemantics "context_occupancy")).getLast?)
    (hspends : ∀ incarnation, (claims.filter k).filter (spendsOn incarnation) = [] ↔
      claims.filter (spendsOn incarnation) = [])
    (hspent : ∀ incarnation, spent asF64 ((claims.filter k).filter (spendsOn incarnation)) =
      spent asF64 (claims.filter (spendsOn incarnation))) :
    usageSummary asF64 none (claims.filter k) = usageSummary asF64 none claims := by
  obtain ⟨hspend, hcontext₁, hsaw⟩ := usageFold_eq asF64 (claims.filter k)
  obtain ⟨hspend', hcontext', hsaw'⟩ := usageFold_eq asF64 claims
  have hsame : (claims.filter k).isEmpty = claims.isEmpty := by
    rw [Bool.eq_iff_iff, List.isEmpty_iff, List.isEmpty_iff, hempty]
  have hfold : (claims.filter k).foldl (UsageFold.step asF64 none) ⟨.empty, none, false⟩ =
      claims.foldl (UsageFold.step asF64 none) ⟨.empty, none, false⟩ := by
    refine UsageFold.ext (TreeMap.ext_get fun incarnation => ?_) ?_ ?_
    · rw [hspend, hspend', hspent, if_congr (hspends incarnation) rfl rfl]
    · rw [hcontext₁, hcontext', hcontext]
    · rw [hsaw, hsaw', hsame]
  rw [usageSummary, hfold]
  rfl

end

end SmallTalk.Checkpoint
