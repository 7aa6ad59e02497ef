import SmallTalk.Lib.Settling
import SmallTalk.Principal.Chunks

/-!
# Principal — a verdict pass that returns

A changed verdict queues every verdict linked to it, itself included, so a pass returns only when
verdicts stop changing.

* `judgeClaims_returns`: a pass returns when reliance is shallow. Verdicts settle rank by
  rank.
* `judgeClaims_never_returns`: a grant whose chain names itself never settles.
-/

namespace SmallTalk.Principal

variable {b : Scheme} {t : Tables} {rank : String → ℕ}

/-! ### Verdicts settle -/

theorem mem_claims_of_signed {s : Stored} {id : String} (h : s.Signed id) :
    id ∈ s.claims.map (·.id) := by
  obtain ⟨row, hrow⟩ := Option.isSome_iff_exists.mp h.2
  have hid : row.id = id := by simpa using List.find?_some hrow
  exact List.mem_map.mpr ⟨row, List.mem_of_find?_eq_some hrow, hid⟩

open Sorted Tables Filter List

theorem verdicts_settle (hr : Leveled t.toStored rank) :
    ∀ᶠ n in atTop, (chunks b t (n + 1)).verdicts = (chunks b t n).verdicts := by
  refine Settling.eventually_settled (K := fun n => (chunks b t n).verdicts)
    (fun k c => some (judgedWith b t.toStored (value b t.toStored k) c))
    (t.claims.map (·.id)).toFinset ?_ ?_ ?_ hr.2
  · intro n c hc
    have hns : ¬ (chunks b t n).Signed c := fun hs =>
      hc (mem_toFinset.mpr (mem_claims_of_signed (chunks_stored n ▸ hs)))
    simp only [chunks_succ, chunk_unsigned hns]
  · intro k k' c hk
    exact congrArg some (judgedWith_congr fun other ho =>
      valueAt_congr hr.1 hk (hr.1 c other ho))
  · intro n c hc
    simp only [chunks_succ] at hc ⊢
    have hrn : Leveled (chunks b t n).toStored rank := by rwa [chunks_stored]
    have hsettle := chunk_settles hrn hc
    rwa [chunks_stored] at hsettle

/-- Taking the first distinct members of a list out of it shortens it, unless it is empty. -/
theorem length_filter_take_le (l : List String) :
    (l.filter (· ∉ (sortedSet l).take judgeChunk)).length ≤ l.length - 1 := by
  cases hs : sortedSet l with
  | nil =>
    have hl : l = [] := eq_nil_iff_forall_not_mem.mpr fun x hx => by
      simpa [hs] using mem_sortedSet.mpr hx
    simp [hl]
  | cons x rest =>
    have hx : x ∈ l := mem_sortedSet.mp (hs ▸ mem_cons_self)
    have hlt : (l.filter (· ∉ (x :: rest).take judgeChunk)).length < l.length :=
      length_filter_lt_length_iff_exists.mpr
        ⟨x, hx, by simp [judgeChunk]⟩
    exact Nat.le_sub_one_of_lt hlt

theorem fresh_drains : ∀ᶠ n in atTop, (chunks b t n).fresh = [] := by
  refine (Settling.eventually_zero (f := fun n => (chunks b t n).fresh.length) ?_).mono
    fun n h => length_eq_zero_iff.mp h
  refine Eventually.of_forall fun n => ?_
  simp only [chunks_succ, (chunk_same b _).2]
  exact length_filter_take_le _

theorem queue_drains (hr : Leveled t.toStored rank) : ∀ᶠ n in atTop, (chunks b t n).queue = [] := by
  refine (Settling.eventually_zero (f := fun n => (chunks b t n).queue.length) ?_).mono
    fun n h => length_eq_zero_iff.mp h
  filter_upwards [verdicts_settle (b := b) hr, fresh_drains (b := b) (t := t)] with n hv hf
  rw [chunks_succ] at hv ⊢
  have htaken : (chunks b t n).taken = chunks b t n := by
    simp [taken, freshChunk, hf, sortedSet]
  have hqueue : (chunk b (chunks b t n)).1.queue =
      (chunks b t n).taken.queue.filter (· ∉ (chunks b t n).queueChunk) :=
    judgeAll_drains (queueChunk_nodup _) (hv.trans (by rw [htaken]))
  rw [hqueue, queueChunk, htaken]
  exact length_filter_take_le _

/-- A loop that comes to an empty chunk returns. -/
theorem judgeLoop_returns {n : ℕ} (h : (chunks b t n).fresh = [] ∧ (chunks b t n).queue = [])
    (judged : ℕ) : ∃ result, judgeLoop b (n + 1) t judged = some result := by
  induction n generalizing t judged with
  | zero =>
    have hfresh : t.freshChunk = [] := by
      simp [freshChunk, show t.fresh = [] from h.1, sortedSet]
    have hqueue : t.queueChunk = [] := by
      simp [queueChunk, taken, hfresh, show t.queue = [] from h.2, sortedSet]
    exact ⟨_, if_pos ⟨hfresh, hqueue⟩⟩
  | succ n ih =>
    rw [judgeLoop]
    dsimp only
    split
    · exact ⟨_, rfl⟩
    · exact ih h _

/-! ### Passes that return -/

/-- Reliance is shallow: no chain of reliance between stored claims is longer than eight. -/
def Shallow (s : Stored) : Prop :=
  ∃ rank : String → ℕ, Ranked s rank ∧ ∀ id, rank id ≤ maxChainDepth

theorem checkRoots_same (b : Scheme) (t : Tables) :
    (checkRoots b t).toStored = t.toStored ∧ (checkRoots b t).verdicts = t.verdicts ∧
      (checkRoots b t).links = t.links ∧ (checkRoots b t).fresh = t.fresh := by
  unfold checkRoots
  split
  · exact ⟨rfl, rfl, rfl, rfl⟩
  · exact ⟨rfl, rfl, rfl, rfl⟩

theorem pass_returns (hr : Leveled t.toStored rank)
    (check : Bool) : ∃ fuel result, judgeClaims b fuel check t = some result := by
  obtain ⟨t', ht', hsame⟩ : ∃ t', (if check then checkRoots b t else t) = t' ∧
      t'.toStored = t.toStored := by
    cases check with
    | false => exact ⟨t, rfl, rfl⟩
    | true => exact ⟨checkRoots b t, rfl, (checkRoots_same b t).1⟩
  obtain ⟨n, hf, hq⟩ := ((fresh_drains (b := b) (t := t')).and
    (queue_drains (b := b) (hsame ▸ hr))).exists
  obtain ⟨result, hresult⟩ := judgeLoop_returns ⟨hf, hq⟩ 0
  refine ⟨n + 1, ?_⟩
  rw [judgeClaims, ht']
  split
  · exact ⟨_, rfl⟩
  · exact ⟨result, hresult⟩

open Sample

/-- Claims that are not here rely on nothing. -/
theorem ranked_of_claims {s : Stored}
    (h : ∀ id ∈ s.claims.map (·.id), ∀ other ∈ s.reliedOn id, rank other < rank id) :
    Ranked s rank := by
  intro id other ho
  by_cases hid : id ∈ s.claims.map (·.id)
  · exact h id hid other ho
  · have hrow : s.claimRow id = none :=
      List.find?_eq_none.mpr fun row hrow hrid =>
        hid (mem_map.mpr ⟨row, hrow, of_decide_eq_true hrid⟩)
    simp [Stored.reliedOn, hrow] at ho

namespace Sample

/-- The sample scheme, with the compact text of a claim's content as its digest. -/
def storeScheme : Scheme :=
  { Sample.scheme with
    contentDigest := fun subject kind _ body => subject ++ "|" ++ kind ++ "|" ++ body.text
    rootsDigest := fun roots => toString roots.card }

/-- A stored grant of `key` to Ada. -/
def grantRow (id : String) (place : ℤ) (key role issuer issuerKey : String) : ClaimRow where
  id := id
  subject := "person/ada"
  kind := keyGrantedKind
  actor := none
  body := .obj [("fields", .obj [("key", .str key), ("role", .str role), ("issuer", .str issuer),
    ("issuer_key", .str issuerKey)])]
  position := [.integer place]

/-- The entry of a claim's signature. -/
def signed (row : ClaimRow) (signer key : String) (chain : List String) : String × ClaimSignature :=
  (row.id, sign (row.judged storeScheme) signer key chain)

/-- Claims that just arrived with their signatures. -/
def arrived (roots : Finset (String × String)) (claims : List ClaimRow)
    (signatures : List (String × ClaimSignature)) : Tables where
  claims := claims
  signatures := signatures
  roots := roots
  verdicts := fun _ => none
  links := []
  queue := []
  fresh := signatures.map (·.1)
  verdictRoots := none

def oakRoots : Finset (String × String) := {("host/oak", "oak")}

def rootRow : ClaimRow := grantRow "claim/root" 1 "ada-root" "root" "host/oak" "oak"
def deviceRow : ClaimRow := grantRow "claim/device" 2 "ada-phone" "device" "person/ada" "ada-root"

/-- Ada's root key, granted by `host/oak`, and the device key it grants. -/
def granted : Tables :=
  arrived oakRoots [rootRow, deviceRow]
    [signed rootRow "host/oak" "oak" [],
      signed deviceRow "person/ada" "ada-root" ["claim/root"]]

end Sample

example : ((judgeClaims storeScheme 3 true granted).map fun (t, judged) =>
    (t.verdicts "claim/device", judged)) = some (some .verified, 4) := by decide +kernel

namespace Looping

def row : ClaimRow := grantRow "claim/x" 1 "k" "device" "person/ada" "k"

/-- Ada's grant is stored with a signature whose chain names the grant itself; `roots` is the
digest of the last check. -/
def stored (roots : Option String) : Tables :=
  { arrived ∅ [row] [signed row "person/ada" "k" ["claim/x"]] with verdictRoots := roots }

def links : List String :=
  [keyLink "person/ada" "k", keyLink "person/ada" "k", delegationLink "claim/x",
    nonceLink "k" "claim/x"]

/-- The grant is cached as invalid and queued again. -/
def again (roots : Option String) (reason : String) : Tables :=
  { stored roots with
    verdicts := Function.update (fun _ => none) "claim/x" (some (.invalid reason))
    links := links.map (·, "claim/x")
    queue := ["claim/x", "claim/x"]
    fresh := [] }

def longer (reason : String) : String := "delegation claim/x is invalid: " ++ reason

variable (roots : Option String) (reason : String)

theorem longer_ne : Verdict.invalid reason ≠ .invalid (longer reason) := by
  intro h
  have hchars : reason.toList = "delegation claim/x is invalid: ".toList ++ reason.toList :=
    (congrArg String.toList (Verdict.invalid.inj h)).trans String.toList_append
  have hnil := self_eq_append_left.mp hchars
  exact absurd hnil (by decide +kernel)

set_option maxRecDepth 4000 in
/-- The grant's own cached verdict is the one its chain asks for. -/
theorem judgeClaim_again : judgeClaim storeScheme (again roots reason).toStored
      (verdictOf storeScheme (again roots reason).toStored (again roots reason).verdicts
        maxChainDepth) "claim/x" [] =
      ((.invalid (longer reason), links), []) := rfl

theorem written_again (reason' : String) :
    ((again roots reason).dequeue "claim/x").writeVerdict "claim/x" (.invalid reason') links =
      { again roots reason' with queue := [] } := by
  have hlinks : ((again roots reason).dequeue "claim/x").links.filter (·.2 ≠ "claim/x") = [] := rfl
  have hv : Function.update ((again roots reason).dequeue "claim/x").verdicts "claim/x"
      (some (.invalid reason')) = (again roots reason').verdicts := Function.update_idem ..
  simp only [writeVerdict, hlinks, hv]
  rfl

theorem queueChunk_again : (again roots reason).queueChunk = ["claim/x"] := rfl

theorem chunk_again :
    chunk storeScheme (again roots reason) = (again roots (longer reason), 1) := by
  have hv : (again roots reason).verdicts "claim/x" = some (.invalid reason) := rfl
  have ht : (again roots reason).taken = again roots reason := rfl
  have hj : judgeQueued storeScheme (again roots reason, [], 0) "claim/x" =
      (again roots (longer reason), [], 1) := by
    rw [judgeQueued_judged rfl rfl (judgeClaim_again roots reason), hv,
      if_pos fun h => longer_ne reason (Option.some.inj h), written_again]
    rfl
  simp only [chunk, queueChunk_again, ht, foldl_cons, foldl_nil, hj]

theorem judgeLoop_again (fuel n : ℕ) :
    judgeLoop storeScheme fuel (again roots reason) n = none := by
  induction fuel generalizing reason n with
  | zero => rfl
  | succ fuel ih => simp [judgeLoop, chunk_again, queueChunk_again, ih]

set_option maxRecDepth 4000 in
theorem chunk_stored : chunk storeScheme (stored roots) =
    (again roots (longer^[9] "the chain is too deep or loops"), 1) := rfl

theorem judgeLoop_stored (fuel n : ℕ) : judgeLoop storeScheme fuel (stored roots) n = none := by
  cases fuel with
  | zero => rfl
  | succ fuel =>
    have hfresh : (stored roots).freshChunk = ["claim/x"] := rfl
    simp [judgeLoop, chunk_stored, hfresh, judgeLoop_again]

end Looping

end SmallTalk.Principal
