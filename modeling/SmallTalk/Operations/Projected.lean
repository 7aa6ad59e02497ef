import SmallTalk.Operations.Trimmed
import SmallTalk.Projection.Kinds

/-!
# Operations — registering claims as they arrive

The incremental projection registers the operations of new claims one at a time
(`registerOperation`). It gives up, and the whole graph is replayed, when a claim meets a row with
another digest or a conflict (`projectOperation`).

* `projected_iff`: when the table is then the expected one.
-/

namespace SmallTalk.Operations

open Option List

open Digest (OperationRow OperationState)
open Checkpoint (ClaimRecord operationParts)
open Projection (replayNeeded)

namespace OperationLog

/-! ### Registration -/

/-- The row of an operation that has none, and whether the claim is the first of it. The dropped
claims are read in the order of their digests. -/
def firstRow (dropped : List (String × String)) (digest id : String) : OperationRow where
  requestDigest := (((dropped.map toLex).min?.map fun least => (ofLex least).1).filter
    (· < digest)).getD digest
  canonicalClaimId := id
  state := if dropped.any (·.1 ≠ digest) then .conflict else .active

/-- `register_operation_tx`: the table, and whether the claim takes effect. -/
def registerOperation (log : OperationLog) (claim : ClaimRecord) : OperationLog × Bool :=
  match operationParts claim.body with
  | none => (log, true)
  | some (operation, digest) =>
    match log.operations.get operation with
    | none =>
      let dropped := log.dropped operation
      ({ log with operations :=
          log.operations.insert operation (firstRow dropped digest claim.id) },
        dropped.isEmpty)
    | some row =>
      if row.requestDigest = digest then
        ({ log with operations :=
            if claim.id < row.canonicalClaimId then
              log.operations.insert operation { row with canonicalClaimId := claim.id }
            else log.operations },
          row.state = .active ∧ row.canonicalClaimId = claim.id)
      else
        ({ log with operations :=
            log.operations.insert operation { row with state := .conflict } }, false)

/-- The step of `try_project_simple_replication_tx` for one claim's operation. -/
def projectOperation (log : OperationLog) (claim : ClaimRecord) : Option OperationLog :=
  if ∃ parts ∈ operationParts claim.body, ∃ row ∈ log.operations.get parts.1,
      row.requestDigest ≠ parts.2 ∨ row.state ≠ .active then none
  else some (log.registerOperation claim).1

/-- The claims are stored before they are projected. -/
def addClaims (log : OperationLog) (claims : List ClaimRecord) : OperationLog :=
  { log with claims := claims.foldl (fun stored claim =>
      stored.insert claim.id (operationParts claim.body)) log.claims }

/-- What `try_project_simple_replication_tx` does to the table, when it returns `true`. -/
def tryProject (healthy : Bool) (log : OperationLog) (claims : List ClaimRecord) :
    Option OperationLog :=
  if healthy ∧ ¬ claims.any replayNeeded then claims.foldlM projectOperation (log.addClaims claims)
  else none

/-- The claims of an operation, repaired ones included. -/
def requests (claims : List ClaimRecord) (operation : String) : List (String × String) :=
  claims.filterMap fun claim => (operationParts claim.body).bind fun (operation', digest) =>
    if operation' = operation then some (digest, claim.id) else none

/-! ### Rows of agreeing claims -/

variable {stored dropped : List (String × String)} {digest id : String}

theorem operationRow_active (hne : stored ≠ [])
    (h : ∀ claim ∈ stored ++ dropped, claim.1 = digest) :
    operationRow stored dropped = ⟨digest, canonicalOf stored digest, .active⟩ := by
  obtain ⟨least, hleast, -⟩ := exists_least (append_ne_nil_of_left_ne_nil hne dropped)
  have hdigest : leastDigest (stored ++ dropped) = digest := h _ hleast
  have hstate := (stateOf_eq_active_of_mem (hdigest ▸ hleast)).mpr h
  rw [operationRow, hdigest, hstate]

/-- The first row of an operation is the row of its first claim. -/
theorem firstRow_eq : firstRow dropped digest id = operationRow [(digest, id)] dropped := by
  have hcanonical : ∀ digest', canonicalOf [(digest, id)] digest' = id := by
    intro digest'
    by_cases hdigest : digest = digest' <;> simp [canonicalOf, hdigest]
  have hleast : (((dropped.map toLex).min?.map fun least => (ofLex least).1).filter
      (· < digest)).getD digest = leastDigest ((digest, id) :: dropped) := by
    cases hmin : (dropped.map toLex).min? with
    | none =>
      have hnil : dropped = [] := by simpa using hmin
      simp [hnil, leastDigest]
    | some least =>
      have hdropped : leastDigest dropped = (ofLex least).1 := by rw [leastDigest, hmin]; rfl
      have hne : dropped ≠ [] := by
        rintro rfl
        cases hmin
      obtain ⟨id', hmem, -⟩ := exists_least hne
      rw [Option.map_some, ← hdropped]
      by_cases hlt : leastDigest dropped < digest
      · simp only [Option.filter, hlt, decide_true, if_true, Option.getD_some]
        refine (leastDigest_eq (mem_cons_of_mem _ hmem) (forall_mem_cons.mpr ⟨hlt.le, ?_⟩)).symm
        exact fun claim hclaim => leastDigest_le hclaim
      · simp only [Option.filter, hlt, decide_false, Bool.false_eq_true, if_false, Option.getD_none]
        refine (leastDigest_eq mem_cons_self (forall_mem_cons.mpr ⟨le_rfl, ?_⟩)).symm
        exact fun claim hclaim => (not_lt.mp hlt).trans (leastDigest_le hclaim)
  have hstate : (if dropped.any (·.1 ≠ digest) then OperationState.conflict else .active) =
      stateOf ((digest, id) :: dropped) := by
    have hactive : stateOf ((digest, id) :: dropped) = .active ↔ ∀ claim ∈ dropped,
        claim.1 = digest := by
      rw [stateOf_eq_active_of_mem mem_cons_self, forall_mem_cons]
      exact and_iff_right rfl
    by_cases hall : ∀ claim ∈ dropped, claim.1 = digest
    · rw [hactive.mpr hall, if_neg]
      simpa using hall
    · rw [stateOf_eq_conflict.mpr (mt hactive.mp hall), if_pos]
      simpa using hall
  rw [firstRow, hleast, hstate, operationRow, hcanonical, singleton_append]

/-- A claim with the digest of an active row moves its canonical claim down, or leaves it. -/
theorem operationRow_append (hne : stored ≠ []) (id : String)
    (hdigest : (operationRow stored dropped).requestDigest = digest)
    (hactive : (operationRow stored dropped).state = .active) :
    operationRow (stored ++ [(digest, id)]) dropped =
      { operationRow stored dropped with
        canonicalClaimId := if id < (operationRow stored dropped).canonicalClaimId then id
          else (operationRow stored dropped).canonicalClaimId } := by
  have hall : ∀ claim ∈ stored ++ dropped, claim.1 = digest := fun claim hmem =>
    (stateOf_eq_active.mp hactive claim hmem).trans hdigest
  have hall' : ∀ claim ∈ stored ++ [(digest, id)] ++ dropped, claim.1 = digest := by
    intro claim hmem
    rw [append_assoc, mem_append, singleton_append, mem_cons] at hmem
    rcases hmem with hmem | rfl | hmem
    · exact hall claim (mem_append_left _ hmem)
    · rfl
    · exact hall claim (mem_append_right _ hmem)
  rw [operationRow_active (by simp) hall', operationRow_active hne hall]
  obtain ⟨⟨digest', first⟩, hfirst⟩ := exists_mem_of_ne_nil _ hne
  obtain rfl : digest' = digest := hall _ (mem_append_left _ hfirst)
  obtain ⟨hmem, hle⟩ := (canonicalOf_eq_of_mem hfirst).mp rfl
  have hmem' : ∀ id', (digest', id') ∈ stored ++ [(digest', id)] ↔
      (digest', id') ∈ stored ∨ id' = id := fun id' => by simp
  congr 1
  rw [canonicalOf_eq_of_mem (mem_append_left _ hfirst)]
  simp only [hmem', or_imp, forall_and, forall_eq]
  by_cases hlt : id < canonicalOf stored digest'
  · rw [if_pos hlt]
    exact ⟨.inr rfl, fun id' hid' => hlt.le.trans (hle id' hid'), le_rfl⟩
  · rw [if_neg hlt]
    exact ⟨.inl hmem, hle, not_lt.mp hlt⟩

/-! ### Registering one claim after another -/

/-- The row of claims, if there are any. -/
def rowOf (stored dropped : List (String × String)) : Option OperationRow :=
  if stored = [] then none else some (operationRow stored dropped)

theorem rowOf_congr {stored' : List (String × String)}
    (h : ∀ claim, claim ∈ stored ↔ claim ∈ stored') : rowOf stored dropped = rowOf stored' dropped := by
  have hrow : operationRow stored dropped = operationRow stored' dropped :=
    operationRow_congr h fun claim => by rw [mem_append, mem_append, h]
  simp only [rowOf, eq_nil_congr h, hrow]

section

variable {counted dropped : String → List (String × String)} {claims claims' : List ClaimRecord}
  {claim : ClaimRecord} {log log' : OperationLog} {operation digest : String}

/-- The table after the claims have been registered over those that count already. Claims that met a
row agree with it. -/
structure Registered (counted dropped : String → List (String × String))
    (claims : List ClaimRecord) (log : OperationLog) : Prop where
  tombstones : ∀ operation, log.dropped operation = dropped operation
  rows : ∀ operation, log.operations.get operation =
    rowOf (counted operation ++ requests claims operation) (dropped operation)
  agree : ∀ operation, requests claims operation = [] ∨
    (counted operation = [] ∧ ∃ claim, requests claims operation = [claim]) ∨
    (operationRow (counted operation ++ requests claims operation) (dropped operation)).state =
      .active

theorem requests_append :
    requests (claims ++ claims') operation = requests claims operation ++ requests claims' operation :=
  filterMap_append

theorem requests_singleton (h : operationParts claim.body = some (operation, digest))
    (operation' : String) :
    requests [claim] operation' = if operation = operation' then [(digest, claim.id)] else [] := by
  by_cases heq : operation = operation'
  · simp [requests, h, heq]
  · simp [requests, h, heq]

/-- What registration changes: the row of the claim's operation. -/
theorem projectOperation_cases (h : log.projectOperation claim = some log') :
    (operationParts claim.body = none ∧ log' = log) ∨
    ∃ operation digest, operationParts claim.body = some (operation, digest) ∧
      ((log.operations.get operation = none ∧ log' = { log with
        operations :=
          log.operations.insert operation (firstRow (log.dropped operation) digest claim.id) }) ∨
      ∃ row, log.operations.get operation = some row ∧ row.requestDigest = digest ∧
        row.state = .active ∧ log' = { log with
          operations := if claim.id < row.canonicalClaimId then
            log.operations.insert operation { row with canonicalClaimId := claim.id }
          else log.operations }) := by
  rw [projectOperation, ite_none_left_eq_some, some.injEq] at h
  obtain ⟨hguard, rfl⟩ := h
  cases hparts : operationParts claim.body with
  | none => exact .inl ⟨rfl, by simp [registerOperation, hparts]⟩
  | some parts =>
    obtain ⟨operation, digest⟩ := parts
    refine .inr ⟨operation, digest, rfl, ?_⟩
    cases hget : log.operations.get operation with
    | none => exact .inl ⟨rfl, by simp [registerOperation, hparts, hget]⟩
    | some row =>
      rw [hparts] at hguard
      have hrow : row.requestDigest = digest ∧ row.state = .active := by
        by_contra hne
        exact hguard ⟨_, rfl, row, hget, by tauto⟩
      exact .inr ⟨row, rfl, hrow.1, hrow.2, by simp [registerOperation, hparts, hget, hrow.1]⟩

theorem projectOperation_rest (h : log.projectOperation claim = some log') :
    log'.claims = log.claims ∧ log'.tombstones = log.tombstones ∧ log'.repaired = log.repaired := by
  obtain ⟨-, rfl⟩ | ⟨_, _, -, ⟨-, rfl⟩ | ⟨_, -, -, -, rfl⟩⟩ := projectOperation_cases h
  · exact ⟨rfl, rfl, rfl⟩
  · exact ⟨rfl, rfl, rfl⟩
  · exact ⟨rfl, rfl, rfl⟩

theorem Registered.project (h : Registered counted dropped claims log)
    (hstep : log.projectOperation claim = some log') :
    Registered counted dropped (claims ++ [claim]) log' := by
  have hdropped : ∀ operation, log'.dropped operation = dropped operation := fun operation => by
    obtain ⟨-, htombstones, hrepaired⟩ := projectOperation_rest hstep
    rw [← h.tombstones, OperationLog.dropped, OperationLog.dropped, htombstones, hrepaired]
  obtain ⟨hparts, rfl⟩ | ⟨operation, digest, hparts, hrow⟩ := projectOperation_cases hstep
  · have hnone : ∀ operation, requests (claims ++ [claim]) operation = requests claims operation :=
      fun operation => by simp [requests, hparts]
    exact ⟨hdropped, by simpa only [hnone] using h.rows, by simpa only [hnone] using h.agree⟩
  have hother : ∀ operation', operation' ≠ operation →
      requests (claims ++ [claim]) operation' = requests claims operation' := fun operation' hne => by
    rw [requests_append, requests_singleton hparts, if_neg (Ne.symm hne), append_nil]
  have hown : requests (claims ++ [claim]) operation =
      requests claims operation ++ [(digest, claim.id)] := by
    rw [requests_append, requests_singleton hparts, if_pos rfl]
  -- It is enough to say what the row of the claim's operation becomes.
  have hdone : (∀ operation', operation' ≠ operation →
        log'.operations.get operation' = log.operations.get operation') →
      log'.operations.get operation = some (operationRow
        (counted operation ++ requests claims operation ++ [(digest, claim.id)])
          (dropped operation)) →
      ((counted operation = [] ∧ requests claims operation = []) ∨
        (operationRow (counted operation ++ requests claims operation ++ [(digest, claim.id)])
          (dropped operation)).state = .active) →
      Registered counted dropped (claims ++ [claim]) log' := by
    intro hrest hnew hstate
    refine ⟨hdropped, fun operation' => ?_, fun operation' => ?_⟩
    · by_cases heq : operation' = operation
      · subst heq
        rw [hnew, hown, ← append_assoc, rowOf, if_neg (by simp)]
      · rw [hrest operation' heq, hother operation' heq, h.rows]
    · by_cases heq : operation' = operation
      · subst heq
        rw [hown, ← append_assoc]
        rcases hstate with ⟨hcounted, hnone⟩ | hstate
        · exact .inr (.inl ⟨hcounted, _, by rw [hnone, nil_append]⟩)
        · exact .inr (.inr hstate)
      · rw [hother operation' heq]
        exact h.agree operation'
  obtain ⟨hget, rfl⟩ | ⟨row, hget, hdigest, hactive, rfl⟩ := hrow
  · have hnil : counted operation ++ requests claims operation = [] := by
      rw [h.rows, rowOf] at hget
      by_contra hne
      rw [if_neg hne] at hget
      cases hget
    refine hdone (fun operation' hne => by simp [hne]) ?_ (.inl (append_eq_nil_iff.mp hnil))
    rw [TreeMap.get_insert, if_pos rfl, hnil, firstRow_eq, h.tombstones, nil_append]
  · rw [h.rows, rowOf, ite_none_left_eq_some, some.injEq] at hget
    obtain ⟨hne, rfl⟩ := hget
    have hrow := operationRow_append hne claim.id hdigest hactive
    refine hdone (fun operation' hne => ?_) ?_ (.inr (by rw [hrow]; exact hactive))
    · split <;> simp [hne]
    · rw [hrow]
      split
      · rw [TreeMap.get_insert, if_pos rfl]
      · rw [h.rows, rowOf, if_neg hne]

theorem Registered.projectAll (h : Registered counted dropped claims log)
    (hrun : claims'.foldlM projectOperation log = some log') :
    Registered counted dropped (claims ++ claims') log' := by
  induction claims' generalizing claims log with
  | nil =>
    obtain rfl := some.inj hrun
    rwa [append_nil]
  | cons claim claims' ih =>
    obtain ⟨next, hstep, hrest⟩ := bind_eq_some_iff.mp hrun
    rw [← singleton_append, ← append_assoc]
    exact ih (h.project hstep) hrest

theorem projectAll_rest (h : claims.foldlM projectOperation log = some log') :
    log'.claims = log.claims ∧ log'.tombstones = log.tombstones ∧ log'.repaired = log.repaired := by
  induction claims generalizing log with
  | nil =>
    obtain rfl := some.inj h
    exact ⟨rfl, rfl, rfl⟩
  | cons claim claims ih =>
    obtain ⟨next, hstep, hrest⟩ := bind_eq_some_iff.mp h
    obtain ⟨hclaims, htombstones, hrepaired⟩ := projectOperation_rest hstep
    rw [← hclaims, ← htombstones, ← hrepaired]
    exact ih hrest

end

/-! ### Repaired claims -/

/-- Leaving out repaired claims from claims that agree leaves the row if and only if the least claim
is not repaired. -/
theorem rowOf_unrepaired_iff {repaired : Finset String}
    {counted new kept dropped : List (String × String)}
    (hcounted : ∀ claim ∈ counted, claim.2 ∉ repaired)
    (hkept : ∀ claim, claim ∈ kept ↔ claim ∈ new ∧ claim.2 ∉ repaired)
    (hagree : new = [] ∨ (counted = [] ∧ ∃ claim, new = [claim]) ∨
      (operationRow (counted ++ new) dropped).state = .active) :
    rowOf (counted ++ new) dropped = rowOf (counted ++ kept) dropped ↔
      ∀ claim ∈ new, claim.2 ∈ repaired → ∃ earlier ∈ counted ++ kept, earlier.2 < claim.2 := by
  have hkept_of : (∀ claim ∈ new, claim.2 ∉ repaired) →
      rowOf (counted ++ new) dropped = rowOf (counted ++ kept) dropped := fun hall =>
    rowOf_congr fun claim => by
      rw [mem_append, mem_append, hkept]
      have := hall claim
      tauto
  have hunrepaired : ∀ claim ∈ counted ++ kept, claim.2 ∉ repaired := fun claim hmem =>
    (mem_append.mp hmem).elim (hcounted claim) fun hmem => ((hkept claim).mp hmem).2
  by_cases hnil : counted ++ kept = []
  · -- No claim counts: the row must not be there.
    have hnone : rowOf (counted ++ kept) dropped = none := by rw [rowOf, if_pos hnil]
    obtain ⟨hcounted', hkept'⟩ := append_eq_nil_iff.mp hnil
    rw [hnone, hnil, hcounted', nil_append, rowOf, ite_eq_left_iff]
    simp only [reduceCtorEq, imp_false, not_not]
    constructor
    · rintro rfl claim hmem
      cases hmem
    · intro h
      refine eq_nil_iff_forall_not_mem.mpr fun claim hmem => ?_
      by_cases hrepaired : claim.2 ∈ repaired
      · obtain ⟨earlier, hearlier, -⟩ := h claim hmem hrepaired
        cases hearlier
      · have := (hkept claim).mpr ⟨hmem, hrepaired⟩
        rw [hkept'] at this
        cases this
  rcases hagree with rfl | ⟨rfl, claim, rfl⟩ | hactive
  · exact iff_of_true (hkept_of nofun) nofun
  · -- The one claim counts.
    obtain ⟨claim', hclaim'⟩ := exists_mem_of_ne_nil _ hnil
    rw [nil_append, hkept, mem_singleton] at hclaim'
    obtain ⟨rfl, hid⟩ := hclaim'
    exact iff_of_true (hkept_of fun claim hmem => mem_singleton.mp hmem ▸ hid)
      fun claim hmem hrepaired => absurd (mem_singleton.mp hmem ▸ hrepaired) hid
  · have hsub : ∀ claim ∈ counted ++ kept, claim ∈ counted ++ new := fun claim hmem => by
      rw [mem_append, hkept] at hmem
      rw [mem_append]
      tauto
    obtain ⟨⟨digest, first⟩, hfirst⟩ := exists_mem_of_ne_nil _ hnil
    have hall : ∀ claim ∈ counted ++ new ++ dropped, claim.1 = digest :=
      (stateOf_eq_active_of_mem (mem_append_left _ (hsub _ hfirst))).mp hactive
    have hall' : ∀ claim ∈ counted ++ kept ++ dropped, claim.1 = digest := fun claim hmem =>
      hall claim ((mem_append.mp hmem).elim (fun hmem => mem_append_left _ (hsub _ hmem))
        (mem_append_right _))
    have hne : counted ++ new ≠ [] := ne_nil_of_mem (hsub _ hfirst)
    rw [rowOf, rowOf, if_neg hne, if_neg hnil, operationRow_active hne hall,
      operationRow_active hnil hall', some.injEq, OperationRow.mk.injEq]
    simp only [true_and, and_true]
    obtain ⟨hleast, hle⟩ := (canonicalOf_eq_of_mem hfirst).mp rfl
    rw [canonicalOf_eq_of_mem (hsub _ hfirst)]
    constructor
    · rintro ⟨-, hlow⟩ ⟨digest', id⟩ hmem hrepaired
      obtain rfl : digest' = digest :=
        hall (digest', id) (mem_append_left _ (mem_append_right _ hmem))
      refine ⟨_, hleast, lt_of_le_of_ne (hlow id (mem_append_right _ hmem)) ?_⟩
      rintro rfl
      exact hunrepaired _ hleast hrepaired
    · intro h
      refine ⟨hsub _ hleast, fun id hid => ?_⟩
      by_cases hrepaired : id ∈ repaired
      · rcases mem_append.mp hid with hid | hid
        · exact absurd hrepaired (hcounted _ hid)
        obtain ⟨⟨digest', earlier⟩, hearlier, hlt⟩ := h _ hid hrepaired
        obtain rfl : digest' = digest := hall' _ (mem_append_left _ hearlier)
        exact (hle earlier hearlier).trans hlt.le
      · refine hle id (mem_append.mpr ?_)
        rcases mem_append.mp hid with hid | hid
        · exact .inl hid
        · exact .inr ((hkept _).mpr ⟨hid, hrepaired⟩)

end OperationLog

/-! ### Arrivals -/

open OperationLog

/-- Claims that a store admits: new ones, each once, with the request of their tombstone if they have
one. -/
structure Arrival (store : OperationStore) where
  claims : List ClaimRecord
  distinct : (claims.map ClaimRecord.id).Nodup
  fresh : ∀ claim ∈ claims, store.claims.get claim.id = none
  agrees : (store.addClaims claims).Agrees

theorem get_foldl_insert {claims : List ClaimRecord}
    {stored : TreeMap String (Option (String × String))} {id : String}
    {parts : Option (String × String)} (hdistinct : (claims.map ClaimRecord.id).Nodup)
    (hfresh : ∀ claim ∈ claims, stored.get claim.id = none) :
    (claims.foldl (fun stored claim => stored.insert claim.id (operationParts claim.body))
      stored).get id = some parts ↔
      stored.get id = some parts ∨
        ∃ claim ∈ claims, claim.id = id ∧ operationParts claim.body = parts := by
  induction claims generalizing stored with
  | nil => simp
  | cons claim claims ih =>
    obtain ⟨hnew, hdistinct⟩ := nodup_cons.mp hdistinct
    have hne : ∀ later ∈ claims, later.id ≠ claim.id := fun later hmem heq =>
      hnew (heq ▸ mem_map_of_mem hmem)
    rw [foldl_cons, ih hdistinct fun later hmem => by
      rw [TreeMap.get_insert, if_neg (hne later hmem)]
      exact hfresh later (mem_cons_of_mem _ hmem)]
    rw [TreeMap.get_insert, exists_mem_cons_iff]
    by_cases hid : id = claim.id
    · subst hid
      simp [hfresh claim mem_cons_self]
    · simp [hid, Ne.symm hid]

namespace Arrival

variable {store : OperationStore} (arrival : Arrival store) {operation digest id : String}

theorem mem_requests : (digest, id) ∈ requests arrival.claims operation ↔
    ∃ claim ∈ arrival.claims, claim.id = id ∧
      operationParts claim.body = some (operation, digest) := by
  simp only [requests, mem_filterMap, bind_eq_some_iff, Prod.exists,
    ite_none_right_eq_some, some.injEq, Prod.mk.injEq]
  constructor
  · rintro ⟨claim, hmem, operation', digest', hparts, rfl, rfl, rfl⟩
    exact ⟨claim, hmem, rfl, hparts⟩
  · rintro ⟨claim, hmem, rfl, hparts⟩
    exact ⟨claim, hmem, operation, digest, hparts, rfl, rfl, rfl⟩

theorem mem_stored_addClaims (claim : String × String) :
    claim ∈ (store.addClaims arrival.claims).stored operation ↔
      claim ∈ store.stored operation ++
        (requests arrival.claims operation).filter (·.2 ∉ store.repaired) := by
  obtain ⟨digest, id⟩ := claim
  rw [mem_append, mem_filter, mem_requests, mem_stored, mem_stored, addClaims,
    get_foldl_insert arrival.distinct arrival.fresh, decide_eq_true_iff]
  tauto

/-- **The incremental projection leaves the expected table**, whenever it projects the claims of an
arrival, if and only if each of them that a repair replaced comes after a claim of its operation that
counts. -/
theorem projected_iff {healthy : Bool} {log : OperationLog}
    (h : store.tryProject healthy arrival.claims = some log) :
    log.operations = log.expectedOperations ↔
      ∀ claim ∈ arrival.claims, ∀ operation digest,
        operationParts claim.body = some (operation, digest) → claim.id ∈ store.repaired →
        ∃ earlier ∈ (store.addClaims arrival.claims).stored operation, earlier.2 < claim.id := by
  rw [tryProject, ite_none_right_eq_some] at h
  obtain ⟨-, hrun⟩ := h
  obtain ⟨hclaims, htombstones, hrepaired⟩ := projectAll_rest hrun
  have hstart : Registered store.stored store.dropped [] (store.addClaims arrival.claims) :=
    ⟨fun _ => rfl, fun operation => by
      rw [show requests [] operation = [] from rfl, append_nil]
      exact store.get_operations, fun _ => .inl rfl⟩
  have hend := hstart.projectAll hrun
  rw [nil_append] at hend
  have hagrees : log.Agrees := by
    have := arrival.agrees
    rwa [Agrees, ← hclaims, ← htombstones] at this
  have hexpected : ∀ operation, log.expectedOperations.get operation =
      rowOf (store.stored operation ++
        (requests arrival.claims operation).filter (·.2 ∉ store.repaired))
        (store.dropped operation) := by
    intro operation
    rw [get_expectedOperations, hagrees.expectedRow_eq, hend.tombstones]
    refine rowOf_congr fun claim => ?_
    rw [← arrival.mem_stored_addClaims, OperationLog.stored, OperationLog.stored, hclaims, hrepaired]
  have hrows : ∀ operation,
      log.operations.get operation = log.expectedOperations.get operation ↔
        ∀ claim ∈ requests arrival.claims operation, claim.2 ∈ store.repaired →
          ∃ earlier ∈ (store.addClaims arrival.claims).stored operation, earlier.2 < claim.2 := by
    intro operation
    rw [hend.rows, hexpected]
    simp only [arrival.mem_stored_addClaims]
    refine rowOf_unrepaired_iff (fun ⟨digest, id⟩ hmem => (mem_stored.mp hmem).2)
      (fun claim => ?_) (hend.agree operation)
    rw [mem_filter, decide_eq_true_iff]
  constructor
  · intro heq claim hmem operation digest hparts
    exact (hrows operation).mp (by rw [heq]) (digest, claim.id)
      (arrival.mem_requests.mpr ⟨claim, hmem, rfl, hparts⟩)
  · intro hall
    refine TreeMap.ext_get fun operation => (hrows operation).mpr ?_
    rintro ⟨digest, id⟩ hmem
    obtain ⟨claim, hclaim, rfl, hparts⟩ := arrival.mem_requests.mp hmem
    exact hall claim hclaim operation digest hparts

end Arrival

/-! ### A message that a repair replaced -/

def sentMessage (id request : String) : ClaimRecord where
  id := id
  batchId := "batch/a"
  subject := "message/m"
  kind := "message.sent"
  origin := "a"
  actor := none
  operationId := some request
  body := .obj [("_operation", .obj [("id", .str request), ("request_digest", .str "d")])]
  predecessors := []
  acceptedAtUnixMs := 10

/-- A store with nothing in it but the mark of a repair. -/
def repairedStore : OperationStore where
  toOperationLog := { repaired := {"c1"} }
  agrees _ _ _ _ h := nomatch h
  expected := by decide +kernel

/-- Claims that come to it. -/
def sentArrival (claims : List ClaimRecord) (h : (claims.map ClaimRecord.id).Nodup) :
    Arrival repairedStore where
  claims := claims
  distinct := h
  fresh _ _ := rfl
  agrees _ _ _ _ h := nomatch h

/-- A repaired claim gets a row of its own, and the table should have none. -/
theorem repaired_request :
    (repairedStore.tryProject true [sentMessage "c1" "r"]).map (·.operations.get "r") =
        some (some ⟨"d", "c1", .active⟩) ∧
      (repairedStore.tryProject true [sentMessage "c1" "r"]).map
        (·.expectedOperations.get "r") = some none := by
  decide +kernel

/-- With an unrepaired claim of the request before it, the table is the expected one. -/
theorem projected_retry : let claims := [sentMessage "c1" "r", sentMessage "c0" "r"]
    ∃ log, repairedStore.tryProject true claims = some log ∧
      log.operations = log.expectedOperations := by
  intro claims
  obtain ⟨log, hlog⟩ : ∃ log, repairedStore.tryProject true claims = some log :=
    isSome_iff_exists.mp (by decide +kernel)
  refine ⟨log, hlog, ((sentArrival claims (by decide)).projected_iff hlog).mpr ?_⟩
  intro claim hmem operation digest hparts hrepaired
  rcases mem_pair.mp hmem with rfl | rfl
  · obtain ⟨rfl, rfl⟩ := Prod.mk.inj (some.inj hparts)
    exact ⟨("d", "c0"), by decide +kernel, by decide +kernel⟩
  · exact absurd hrepaired (by decide)

end SmallTalk.Operations
