import SmallTalk.Principal.Arrivals
import SmallTalk.Principal.Returns

/-!
# Principal — cached verdicts and a recheck

A recheck forgets every verdict and judges the stored claims again. Over a store whose reliance
is shallow it comes to one verdict for each signed claim (`truth`), however the claims are split
into chunks.

* `cached_eq_recheck`: the cached verdicts are those of a recheck.
-/

namespace SmallTalk.Principal

open Option

variable {b : Scheme} {s : Stored} {t t' : Tables} {last : Finset (String × String)}
  {strayed : Prop} {rank : String → ℕ}

/-! ### Passes that returned -/

/-- The tables a pass starts its chunks from. -/
def Tables.passStart (t : Tables) (b : Scheme) (check : Bool) : Tables :=
  if check then checkRoots b t else t

theorem sortedSet_take_nil {l : List String} (h : (Sorted.sortedSet l).take judgeChunk = []) :
    l = [] := by
  rw [List.take_eq_nil_iff] at h
  have hnil : Sorted.sortedSet l = [] := h.resolve_left (by decide)
  exact List.eq_nil_iff_forall_not_mem.mpr fun x hx => by
    simpa [hnil] using Sorted.mem_sortedSet.mpr hx

theorem judgeLoop_result {fuel judged : ℕ} {result : Tables × ℕ}
    (h : judgeLoop b fuel t judged = some result) :
    ∃ n, result.1 = chunks b t n ∧ result.1.fresh = [] ∧ result.1.queue = [] := by
  induction fuel generalizing t judged with
  | zero => cases h
  | succ fuel ih =>
    rw [judgeLoop] at h
    dsimp only at h
    split at h
    next hdone =>
      have hfresh : t.fresh = [] := sortedSet_take_nil hdone.1
      have htaken : t.taken = t := by simp [Tables.taken, hdone.1]
      have hqueue : t.queue = [] := htaken ▸ sortedSet_take_nil hdone.2
      have hchunk : (chunk b t).1 = t := by simp [chunk, hdone.2, htaken]
      obtain rfl := some.inj h
      exact ⟨0, hchunk, hchunk.symm ▸ hfresh, hchunk.symm ▸ hqueue⟩
    next =>
      obtain ⟨n, hn, hdone⟩ := ih h
      exact ⟨n + 1, hn.trans (Function.iterate_succ_apply _ n t).symm, hdone⟩

theorem pass_result {fuel : ℕ} {check : Bool} {result : Tables × ℕ}
    (h : judgeClaims b fuel check t = some result) :
    ∃ n, result.1 = chunks b (t.passStart b check) n ∧ result.1.fresh = [] ∧
      result.1.queue = [] := by
  change (if (t.passStart b check).fresh = [] ∧ (t.passStart b check).queue = [] then _ else _) =
    _ at h
  split at h
  next hdone =>
    obtain rfl := some.inj h
    exact ⟨0, rfl, hdone⟩
  next => exact judgeLoop_result h

theorem passStart_stored (t : Tables) (b : Scheme) (check : Bool) :
    (t.passStart b check).toStored = t.toStored := by
  cases check with
  | false => rfl
  | true => exact (checkRoots_same b t).1

/-! ### What a recheck comes to -/

/-- The verdict of a claim from an empty cache. -/
def truth (b : Scheme) (s : Stored) : String → Verdict := value b s fun _ => none

/-- Every cached verdict is the true one, and every signed claim is cached or will be judged. -/
structure Truthful (b : Scheme) (t : Tables) : Prop where
  right : ∀ id v, t.verdicts id = some v → v = truth b t.toStored id
  known : ∀ id, t.Signed id → t.verdicts id ≠ none ∨ id ∈ t.fresh ∨ id ∈ t.queue

theorem Truthful.fits (h : Truthful b t) (hr : Leveled t.toStored rank) :
    FitsOn b t.toStored t.verdicts (fun _ => True) (truth b t.toStored) where
  cached d _ v hv := h.right d v hv
  judged _ _ _ := value_uncached hr rfl
  closed _ _ _ _ _ := trivial

theorem judgeQueued_truthful (h : Truthful b t) (hr : Leveled t.toStored rank) {memo : Memo}
    (hm : MemoFits (fun _ => True) (truth b t.toStored) memo) (n : ℕ) (c : String) :
    Truthful b (judgeQueued b (t, memo, n) c).1 ∧
      MemoFits (fun _ => True) (truth b t.toStored) (judgeQueued b (t, memo, n) c).2.1 := by
  obtain ⟨hmemo, hvalue⟩ := judgeQueued_fits (h.fits hr) hr hm n c
  obtain ⟨hsame, hfresh, hother⟩ := judgeQueued_same b (t, memo, n) c
  refine ⟨⟨fun d v hd => ?_, fun d hd => ?_⟩, hmemo⟩
  · rw [hsame]
    by_cases hs : t.Signed c
    · by_cases hdc : d = c
      · subst hdc
        rw [hvalue hs fun _ _ => trivial] at hd
        obtain rfl := some.inj hd
        exact (value_uncached hr rfl).symm
      · exact h.right d v (hother d hdc ▸ hd)
    · exact h.right d v ((congrFun (judgeQueued_unsigned hs) d).symm.trans hd)
  · rw [hsame] at hd
    by_cases hdc : d = c
    · subst hdc
      rw [hvalue hd fun _ _ => trivial]
      exact .inl (some_ne_none _)
    · rw [hother d hdc, hfresh]
      exact (h.known d hd).imp_right fun hwait => hwait.imp_right (mem_judgeQueued_queue hdc)

theorem judgeAll_truthful (hr : Leveled s rank)
    {ids : List String} {x : Tables × Memo × ℕ} (hs : x.1.toStored = s) (h : Truthful b x.1)
    (hm : MemoFits (fun _ => True) (truth b s) x.2.1) :
    Truthful b (ids.foldl (judgeQueued b) x).1 := by
  refine (List.foldlRecOn (motive := fun x : Tables × Memo × ℕ => x.1.toStored = s ∧ Truthful b x.1 ∧
    MemoFits (fun _ => True) (truth b s) x.2.1) ids _ ⟨hs, h, hm⟩ ?_).2.1
  rintro ⟨t, memo, n⟩ ⟨rfl, h, hm⟩ id -
  exact ⟨(judgeQueued_same b (t, memo, n) id).1, judgeQueued_truthful h hr hm n id⟩

theorem taken_truthful (h : Truthful b t) : Truthful b t.taken := by
  obtain ⟨⟨hsame, hverdicts, -⟩, -⟩ := taken_same t
  refine ⟨fun d v hd => ?_, fun d hd => ?_⟩
  · rw [hsame]
    exact h.right d v (hverdicts ▸ hd)
  · rw [hverdicts]
    exact (h.known d (hsame ▸ hd)).imp_right mem_taken

theorem chunks_truthful (h : Truthful b t) (hr : Leveled t.toStored rank) (n : ℕ) : Truthful b (chunks b t n) := by
  induction n with
  | zero => exact h
  | succ n ih =>
    rw [chunks_succ]
    obtain ⟨⟨hsame, -⟩, -⟩ := taken_same (chunks b t n)
    refine judgeAll_truthful (x := ((chunks b t n).taken, [], 0)) hr
      (hsame.trans (chunks_stored n)) (taken_truthful ih) fun d v _ hd => by cases hd

/-- **A recheck** returns, and caches the true verdict of every signed claim. -/
theorem recheck_truth (hr : Leveled t.toStored rank) :
    (∃ fuel t', recheckClaimVerdicts b fuel t = some t') ∧
      ∀ fuel t', recheckClaimVerdicts b fuel t = some t' →
        ∀ id, t.Signed id → t'.verdicts id = some (truth b t.toStored id) := by
  have hcleared : t.cleared.toStored = t.toStored := rfl
  refine ⟨?_, fun fuel t' h id hs => ?_⟩
  · obtain ⟨fuel, result, h⟩ := pass_returns (b := b) (t := t.cleared) hr true
    exact ⟨fuel, result.1, by rw [recheckClaimVerdicts, h]; rfl⟩
  · obtain ⟨result, hpass, rfl⟩ := map_eq_some_iff.mp h
    obtain ⟨n, hresult, hfresh, hqueue⟩ := pass_result hpass
    have hstart : Truthful b (t.cleared.passStart b true) := by
      obtain ⟨hsame, hverdicts, -, hstartFresh⟩ := checkRoots_same b t.cleared
      refine ⟨fun d v hd => ?_, fun d hd => .inr (.inl ?_)⟩
      · have hnone : (checkRoots b t.cleared).verdicts d = none := by rw [hverdicts]; rfl
        cases hnone.symm.trans hd
      · show d ∈ (checkRoots b t.cleared).fresh
        rw [hstartFresh]
        obtain ⟨entry, hmem, heq⟩ := List.lookup_isSome_iff.mp
          (show (t.signatures.lookup d).isSome from (hsame ▸ hd).1)
        exact List.mem_append_right _ (List.mem_map.mpr ⟨entry, hmem, (beq_iff_eq.mp heq).symm⟩)
    have hstored : result.1.toStored = t.toStored := by
      rw [hresult, chunks_stored, passStart_stored, hcleared]
    have hend := chunks_truthful hstart (by rwa [passStart_stored, hcleared]) n
    rw [← hresult] at hend
    have hcached : result.1.verdicts id ≠ none := by
      rcases hend.known id (hstored ▸ hs) with hc | hf | hq
      · exact hc
      · rw [hfresh] at hf
        cases hf
      · rw [hqueue] at hq
        cases hq
    obtain ⟨v, hv⟩ := ne_none_iff_exists'.mp hcached
    rw [hv, hend.right id v hv, hstored]

/-! ### Sound tables with nothing left to judge -/

theorem claimRow_of_reliedOn {id other : String} (h : other ∈ s.reliedOn id) :
    (s.claimRow other).isSome := by
  unfold Stored.reliedOn at h
  split at h
  case h_2 => cases h
  case h_1 row sig hrow hsig =>
    obtain ⟨link, -, h⟩ := List.mem_flatMap.mp h
    cases hg : s.grantOf link with
    | none => simp [hg] at h
    | some granted =>
      rw [hg] at h
      rcases List.mem_cons.mp h with rfl | h
      · have hreads : other ∈ s.reads row (.delegation other) := by simp [Stored.reads, hg]
        exact claimRow_of_reads hreads
      · exact claimRow_of_reads (q := .revokedBefore granted.1 granted.2.key) h

/-- Where nothing is left to judge, sound tables hold the true verdicts. -/
theorem Sound.truth (h : Sound b t.roots False t) (hr : Leveled t.toStored rank) (hfresh : t.fresh = []) (hqueue : t.queue = [])
    {id : String} (hs : t.Signed id) : t.verdicts id = some (truth b t.toStored id) := by
  have hfresh' : ∀ d, d ∉ t.fresh := fun d hd => by rw [hfresh] at hd; cases hd
  have hqueue' : ∀ d, d ∉ t.queue := fun d hd => by rw [hqueue] at hd; cases hd
  induction hn : rank id using Nat.strong_induction_on generalizing id with
  | _ n ih =>
    rcases h.right id hs (hfresh' id) (hqueue' id) with ⟨p, ⟨-, -, hp⟩, -⟩ | ⟨hst, -⟩ | ⟨hc, -⟩
    · exact absurd hp (not_or.mpr ⟨hfresh' p, hqueue' p⟩)
    · exact hst.elim
    · have hjudged : judgedWith b t.toStored (current t.verdicts) id =
          judgedWith b t.toStored (Principal.truth b t.toStored) id := by
        refine judgedWith_congr fun other ho => ?_
        by_cases hos : t.Signed other
        · rw [current, ih (rank other) (hn ▸ hr.1 id other ho) hos rfl]
          rfl
        · have hnone : t.verdicts other = none := by
            by_contra hc
            exact hos (h.signed other hc)
          rw [current, hnone]
          exact (value_unsigned hr (claimRow_of_reliedOn ho) hos rfl).symm
      have htrue : Principal.truth b t.toStored id =
        judgedWith b t.toStored (Principal.truth b t.toStored) id := value_uncached hr rfl
      rwa [htrue, ← hjudged]

/-! ### Runs -/

/-- What happens to a store. -/
inductive Event where
  /-- A claim is admitted, with the signature its envelope carries, or written here. -/
  | arrive (row : ClaimRow) (sig : Option ClaimSignature)
  /-- A claim is signed when its batch is sealed. -/
  | sign (id : String) (sig : ClaimSignature)
  | roots (roots : Finset (String × String))
  | pass (check : Bool)

inductive Step (b : Scheme) : Tables → Event → Tables → Prop
  | arrive {t : Tables} {row : ClaimRow} {sig : Option ClaimSignature} :
      Step b t (.arrive row sig) (t.admitClaim row sig)
  | sign {t : Tables} {id : String} {sig : ClaimSignature} :
      Step b t (.sign id sig) (t.storeClaimSignature id sig)
  | roots {t : Tables} {roots : Finset (String × String)} :
      Step b t (.roots roots) { t with roots := roots }
  | pass {t t' : Tables} {check : Bool} {fuel judged : ℕ}
      (h : judgeClaims b fuel check t = some (t', judged)) : Step b t (.pass check) t'

/-- The tables some events can lead to. -/
inductive Run (b : Scheme) : Tables → List Event → Tables → Prop
  | nil {t : Tables} : Run b t [] t
  | cons {t t' t'' : Tables} {event : Event} {events : List Event} (h : Step b t event t')
      (rest : Run b t' events t'') : Run b t (event :: events) t''

/-- What an event has to meet: a grant does not arrive unsigned after a verdict asked for it, a
signature does not arrive before its claim, and a pass finds shallow reliance, judges no claim
from a verdict the same chunk goes on to change, and does not take the roots for unchanged when
claims were judged under others. -/
def Event.Orderly (b : Scheme) (last : Finset (String × String)) (strayed : Prop) (t : Tables) :
    Event → Prop
  | .arrive row sig => sig = none → t.claimRow row.id = none → row.kind = keyGrantedKind →
      ∀ d, (delegationLink row.id, d) ∉ t.links
  | .sign id _ => (t.claimRow id).isSome
  | .roots _ => True
  | .pass check => Shallow t.toStored ∧
      (∀ n, SteadyChunk b (chunks b (t.passStart b check) n)) ∧
      (check = true → t.verdictRoots = some (b.rootsDigest t.roots) → ¬ strayed ∧ t.roots = last)

def Event.checkedRoots (last : Finset (String × String)) (t : Tables) : Event → Finset (String × String)
  | .pass true => t.roots
  | _ => last

/-- Whether claims were judged under roots other than those last checked, after an event. -/
def Event.strays (last : Finset (String × String)) (strayed : Prop) (t : Tables) : Event → Prop
  | .pass true => False
  | .pass false => strayed ∨ t.roots ≠ last
  | _ => strayed

/-- The tables orderly runs lead to, with the roots last checked and whether claims were judged
under others since. -/
inductive Orderly (b : Scheme) : Finset (String × String) → Prop → Tables → Prop
  | start (roots : Finset (String × String)) : Orderly b roots False (.empty roots)
  | step {last : Finset (String × String)} {strayed : Prop} {t t' : Tables} {event : Event}
      (h : Orderly b last strayed t) (hevent : event.Orderly b last strayed t)
      (hstep : Step b t event t') :
      Orderly b (event.checkedRoots last t) (event.strays last strayed t) t'

/-- **One event** of an orderly run keeps the tables sound. -/
theorem step_sound {event : Event} (h : Sound b last strayed t)
    (hevent : event.Orderly b last strayed t) (hstep : Step b t event t') :
    Sound b (event.checkedRoots last t) (event.strays last strayed t) t' := by
  cases hstep with
  | @arrive row sig =>
    cases sig with
    | none => exact insertClaim_sound h (hevent rfl)
    | some sig => exact admitClaim_sound h
  | sign => exact storeClaimSignature_sound h hevent
  | roots => exact ⟨h.unique, h.rows, h.signed, h.cached, h.right⟩
  | @pass _ check fuel judged hret =>
    obtain ⟨⟨rank, hr⟩, hsteady, hroots⟩ := hevent
    obtain ⟨n, hresult, -, -⟩ := pass_result hret
    obtain rfl : t' = chunks b (t.passStart b check) n := hresult
    have hranked : Leveled (t.passStart b check).toStored rank := by rwa [passStart_stored]
    cases check with
    | true =>
      have hstored : (checkRoots b t).toStored = t.toStored := (checkRoots_same b t).1
      exact chunks_sound (checkRoots_sound h (hroots rfl)) hranked hsteady
        (.inl (congrArg Stored.roots hstored)) n
    | false =>
      refine chunks_sound (t := t) ?_ hranked hsteady ?_ n
      · exact ⟨h.unique, h.rows, h.signed, h.cached, fun id hs hf hq =>
          (h.right id hs hf hq).imp_right (Or.imp_left (And.imp_left .inl))⟩
      · exact (em (t.roots = last)).imp_right .inr

theorem Orderly.sound (h : Orderly b last strayed t) : Sound b last strayed t := by
  induction h with
  | start roots => exact empty_sound roots
  | step _ hevent hstep ih => exact step_sound ih hevent hstep

open Sample

/-! ### Orderly passes -/

theorem judgeQueued_cached {x : Tables × Memo × ℕ} {id d : String} (h : x.1.verdicts d ≠ none) :
    (judgeQueued b x id).1.verdicts d ≠ none := by
  obtain ⟨t, memo, n⟩ := x
  rcases judgeQueued_cases b t memo n id with ⟨-, hq⟩ | ⟨-, v, links, memo', queued, -, hq, -⟩
  · rwa [hq]
  · rw [hq]
    change (t.judgedAs id v links queued).verdicts d ≠ none
    by_cases hd : d = id
    · rw [hd, judgedAs_self]
      exact some_ne_none v
    · rwa [judgedAs_other hd]

theorem chunk_cached {d : String} (h : t.verdicts d ≠ none) : (chunk b t).1.verdicts d ≠ none := by
  refine List.foldlRecOn (motive := fun x : Tables × Memo × ℕ => x.1.verdicts d ≠ none) _ _ ?_
    fun _ hx _ _ => judgeQueued_cached hx
  rwa [(taken_same t).1.2.1]

/-- A chunk is steady when claims that were never judged rely on such claims only. -/
theorem SteadyChunk.of_new (hr : Ranked t.toStored rank)
    (h : ∀ id ∈ t.claims.map (·.id), t.verdicts id = none →
      ∀ other ∈ t.reliedOn id, t.verdicts other = none) : SteadyChunk b t := by
  intro d hs hd
  clear hs
  induction hn : rank d using Nat.strong_induction_on generalizing d with
  | _ n ih =>
    refine .judged (.inl hd) fun other ho => ?_
    have hclaim := mem_claims_of_signed (reliedOn_signed ho)
    exact ih (rank other) (hn ▸ hr d other ho) other (h d hclaim hd other ho) rfl

/-- Chunks are steady when the first one is and leaves no claim unjudged. -/
theorem SteadyChunk.of_first (h : SteadyChunk b t)
    (hcached : ∀ id ∈ t.claims.map (·.id), (chunk b t).1.verdicts id ≠ none) (n : ℕ) :
    SteadyChunk b (chunks b t n) := by
  have hlater : ∀ n, ∀ id ∈ t.claims.map (·.id), (chunks b t (n + 1)).verdicts id ≠ none := by
    intro n
    induction n with
    | zero => exact hcached
    | succ n ih =>
      intro id hid
      rw [chunks_succ]
      exact chunk_cached (ih id hid)
  cases n with
  | zero => exact h
  | succ n =>
    intro d hd hnone
    have hclaim := mem_claims_of_signed hd
    rw [chunks_stored] at hclaim
    exact absurd hnone (hlater n d hclaim)

/-- Events carried out with so many chunks for each pass. -/
def Tables.perform (b : Scheme) (fuel : ℕ) (t : Tables) : Event → Option Tables
  | .arrive row sig => some (t.admitClaim row sig)
  | .sign id sig => some (t.storeClaimSignature id sig)
  | .roots roots => some { t with roots := roots }
  | .pass check => (judgeClaims b fuel check t).map (·.1)

theorem step_of_perform {fuel : ℕ} {event : Event} (h : t.perform b fuel event = some t') :
    Step b t event t' := by
  cases event with
  | arrive row sig =>
    obtain rfl := some.inj h
    exact .arrive
  | sign id sig =>
    obtain rfl := some.inj h
    exact .sign
  | roots roots =>
    obtain rfl := some.inj h
    exact .roots
  | pass check =>
    obtain ⟨⟨result, judged⟩, hpass, rfl⟩ := map_eq_some_iff.mp h
    exact .pass hpass

theorem run_of_perform {fuel : ℕ} {events : List Event}
    (h : events.foldlM (Tables.perform b fuel) t = some t') : Run b t events t' := by
  induction events generalizing t with
  | nil =>
    obtain rfl := some.inj h
    exact .nil
  | cons event events ih =>
    obtain ⟨next, hnext, hrest⟩ := bind_eq_some_iff.mp h
    exact .cons (step_of_perform hnext) (ih hrest)

namespace Sample

/-- A claim about Ada that names a key. -/
def adaRow (id : String) (place : ℤ) (kind key : String) : ClaimRow where
  id := id
  subject := "person/ada"
  kind := kind
  actor := some "person/ada"
  body := .obj [("fields", .obj [("key", .str key)])]
  position := [.integer place]

def admitted (row : ClaimRow) (signer key : String) (chain : List String) : Event :=
  .arrive row (some (sign (row.judged storeScheme) signer key chain))

/-- A claim signed by the device key. -/
def byPhone (id : String) (place : ℤ) : Event :=
  admitted (adaRow id place "note.added" "") "person/ada" "ada-phone"
    ["claim/device", "claim/root"]

def rootArrives : Event := admitted rootRow "host/oak" "oak" []
def deviceArrives : Event := admitted deviceRow "person/ada" "ada-root" ["claim/root"]

/-- The tables after some events, with five chunks for each pass. -/
def after (t : Tables) (events : List Event) : Tables :=
  (events.foldlM (Tables.perform storeScheme 5) t).getD t

theorem perform_after {t : Tables} {event : Event}
    (h : (t.perform storeScheme 5 event).isSome) : Step storeScheme t event (after t [event]) := by
  obtain ⟨t', ht'⟩ := isSome_iff_exists.mp h
  have hafter : after t [event] = t' := by simp [after, ht']
  exact hafter ▸ step_of_perform ht'

theorem admitted_orderly {t : Tables} {last : Finset (String × String)} {strayed : Prop}
    (h : Orderly storeScheme last strayed t) (row : ClaimRow) (signer key : String)
    (chain : List String) :
    Orderly storeScheme last strayed (after t [admitted row signer key chain]) := by
  have hevent : (admitted row signer key chain).Orderly storeScheme last strayed t := by
    intro hnone
    cases hnone
  exact .step h hevent .arrive

/-- A note arrives before the grants it rests on. -/
def noteArrived : Tables := after (.empty oakRoots) [byPhone "claim/note" 3]
def noteJudged : Tables := after noteArrived [.pass true]
def rootArrived : Tables := after noteJudged [rootArrives]
def grantsArrived : Tables := after rootArrived [deviceArrives]

def noteRank (id : String) : ℕ :=
  if id = "claim/root" then 0 else if id = "claim/device" then 1 else 2

theorem noteRank_le (id : String) : noteRank id ≤ maxChainDepth := by
  unfold noteRank maxChainDepth
  split
  · decide
  · split <;> decide

theorem noteJudged_orderly : Orderly storeScheme oakRoots False noteJudged := by
  have hr : Ranked noteArrived.toStored noteRank := ranked_of_claims (by decide +kernel)
  have hstart : Orderly storeScheme oakRoots False noteArrived :=
    admitted_orderly (.start oakRoots) _ _ _ _
  have hfirst : SteadyChunk storeScheme (noteArrived.passStart storeScheme true) :=
    .of_new hr (by decide +kernel)
  have hevent : (Event.pass true).Orderly storeScheme oakRoots False noteArrived := by
    refine ⟨⟨noteRank, hr, noteRank_le⟩, hfirst.of_first (by decide +kernel), fun _ h => ?_⟩
    cases h
  exact .step hstart hevent (perform_after (by decide +kernel))

theorem grantsArrived_orderly : Orderly storeScheme oakRoots False grantsArrived :=
  admitted_orderly (admitted_orderly noteJudged_orderly _ _ _ _) _ _ _ _

theorem grantsArrived_pass :
    (Event.pass true).Orderly storeScheme oakRoots False grantsArrived := by
  have hr : Ranked grantsArrived.toStored noteRank := ranked_of_claims (by decide +kernel)
  have hfirst : SteadyChunk storeScheme (grantsArrived.passStart storeScheme true) :=
    .of_new (by rwa [passStart_stored]) (by decide +kernel)
  exact ⟨⟨noteRank, hr, noteRank_le⟩, hfirst.of_first (by decide +kernel),
    fun _ _ => ⟨id, by decide +kernel⟩⟩

end Sample

/-- Every signed revocation stands after the delegations its own chain names. -/
def RevocationsLate (s : Stored) : Prop :=
  ∀ row ∈ s.claims, row.kind = keyRevokedKind →
    ∀ sig ∈ s.storedSignature row.id, ∀ link ∈ sig.chain, s.before link row = true

namespace Sample

def root2Row : ClaimRow := grantRow "claim/root2" 3 "ada-root2" "root" "host/oak" "oak"
def deskRow : ClaimRow := grantRow "claim/desk" 4 "ada-desk" "device" "person/ada" "ada-root2"

/-- Two notes are verified. Then the grant behind another device arrives, with a revocation of
the notes' key signed by that device. -/
def phoneLost : List Event :=
  [rootArrives, deviceArrives, byPhone "claim/a" 6, byPhone "claim/z" 7,
    admitted deskRow "person/ada" "ada-root2" ["claim/root2"], .pass true,
    admitted root2Row "host/oak" "oak" [],
    admitted (adaRow "claim/lost" 5 keyRevokedKind "ada-phone") "person/ada" "ada-desk"
      ["claim/desk", "claim/root2"],
    .pass true]

def afterLost : Tables := after (.empty oakRoots) phoneLost

def lostRank (id : String) : ℕ :=
  if id = "claim/root" ∨ id = "claim/root2" then 0
  else if id = "claim/device" ∨ id = "claim/desk" then 1
  else if id = "claim/lost" then 2
  else 3

end Sample

end SmallTalk.Principal
