import SmallTalk.Checkpoint.Sound
import SmallTalk.Operations.Table

/-!
# Operations — what a trim does to logical rows

A trim records a tombstone for each claim it drops and deletes the claim, and the row of its
operation if the row names it (`trim`). The row is then read from tombstones, and a rebuild of the
table makes it anew if the operation still has a stored claim.

* `logicalRow_trim_iff`: when all rows stay, through the trim and a rebuild.
-/

namespace SmallTalk.Operations

open Digest (OperationRow)

namespace OperationLog

/-! ### The trim -/

/-- `insert_tombstones_tx`, which ignores a claim that has a tombstone. -/
def recordTombstones (log : OperationLog) (claims : List (String × Option (String × String))) :
    OperationLog :=
  { log with tombstones := claims.foldl (fun tombstones claim =>
      tombstones.orInsert claim.1 claim.2) log.tombstones }

/-- What `delete_dropped_rows_tx` does for one claim. -/
def deleteDroppedRow (log : OperationLog) (claim : String × Option (String × String)) :
    OperationLog :=
  { log with
    operations := log.operations.filter fun operation row =>
      ¬ (claim.2.map Prod.fst = some operation ∧ row.canonicalClaimId = claim.1)
    claims := log.claims.erase claim.1 }

def deleteDroppedRows (log : OperationLog) (claims : List (String × Option (String × String))) :
    OperationLog :=
  claims.foldl deleteDroppedRow log

/-- Drop the stored claims among `ids`. -/
def trim (log : OperationLog) (ids : List String) : OperationLog :=
  let claims := ids.filterMap fun id => (log.claims.get id).map (id, ·)
  (log.recordTombstones claims).deleteDroppedRows claims

variable {log : OperationLog} {ids : List String} {operation digest id : String}
  {dropped : List (String × Option (String × String))}

theorem get_foldl_orInsert {m : TreeMap String (Option (String × String))}
    (h : ∀ claim ∈ dropped, log.claims.get claim.1 = some claim.2) :
    (dropped.foldl (fun m claim => m.orInsert claim.1 claim.2) m).get id =
      (m.get id).or (if id ∈ dropped.map Prod.fst then log.claims.get id else none) := by
  induction dropped generalizing m with
  | nil => simp
  | cons claim dropped ih =>
    rw [List.foldl_cons, ih fun claim hmem => h claim (List.mem_cons_of_mem _ hmem),
      TreeMap.get_orInsert]
    by_cases hid : id = claim.1
    · subst hid
      simp [h claim List.mem_cons_self]
    · simp only [hid, if_false, List.map_cons, List.mem_cons, false_or]

theorem deleteDroppedRows_cons (claim : String × Option (String × String)) :
    log.deleteDroppedRows (claim :: dropped) =
      (log.deleteDroppedRow claim).deleteDroppedRows dropped := rfl

theorem deleteDroppedRows_claims : (log.deleteDroppedRows dropped).claims.get id =
      if id ∈ dropped.map Prod.fst then none else log.claims.get id := by
  induction dropped generalizing log with
  | nil => simp [deleteDroppedRows]
  | cons claim dropped ih =>
    rw [deleteDroppedRows_cons, ih, deleteDroppedRow, TreeMap.get_erase]
    by_cases hid : id = claim.1
    · simp [hid]
    · simp only [hid, if_false, List.map_cons, List.mem_cons, false_or]

theorem deleteDroppedRows_operations : (log.deleteDroppedRows dropped).operations.get operation =
      (log.operations.get operation).filter fun row => ¬ ∃ claim ∈ dropped,
        claim.2.map Prod.fst = some operation ∧ row.canonicalClaimId = claim.1 := by
  induction dropped generalizing log with
  | nil =>
    cases hget : log.operations.get operation <;> simp [deleteDroppedRows, hget, Option.filter]
  | cons claim dropped ih =>
    rw [deleteDroppedRows_cons, ih, deleteDroppedRow, TreeMap.get_filter, Option.filter_filter]
    refine congrFun (congrArg Option.filter (funext fun row => ?_)) _
    simp only [List.mem_cons, exists_eq_or_imp, not_or, Bool.decide_and]

theorem deleteDroppedRows_rest : (log.deleteDroppedRows dropped).tombstones = log.tombstones ∧
      (log.deleteDroppedRows dropped).repaired = log.repaired := by
  induction dropped generalizing log with
  | nil => exact ⟨rfl, rfl⟩
  | cons claim dropped ih => exact @ih (log.deleteDroppedRow claim)

theorem mem_trimmed {claim : String × Option (String × String)} :
    claim ∈ ids.filterMap (fun id => (log.claims.get id).map (id, ·)) ↔
      claim.1 ∈ ids ∧ log.claims.get claim.1 = some claim.2 := by
  simp only [List.mem_filterMap, Option.map_eq_some_iff]
  constructor
  · rintro ⟨id, hid, parts, hget, rfl⟩
    exact ⟨hid, hget⟩
  · rintro ⟨hid, hget⟩
    exact ⟨claim.1, hid, claim.2, hget, rfl⟩

theorem mem_trimmed_ids :
    id ∈ (ids.filterMap fun id => (log.claims.get id).map (id, ·)).map Prod.fst ↔
      id ∈ ids ∧ (log.claims.get id).isSome := by
  simp only [List.mem_map, mem_trimmed, Prod.exists, Option.isSome_iff_exists]
  constructor
  · rintro ⟨id, parts, ⟨hid, hget⟩, rfl⟩
    exact ⟨hid, parts, hget⟩
  · rintro ⟨hid, parts, hget⟩
    exact ⟨id, parts, ⟨hid, hget⟩, rfl⟩

theorem trim_repaired : (log.trim ids).repaired = log.repaired := deleteDroppedRows_rest.2

theorem trim_claims :
    (log.trim ids).claims.get id = if id ∈ ids then none else log.claims.get id := by
  rw [trim, deleteDroppedRows_claims]
  simp only [mem_trimmed_ids, recordTombstones]
  by_cases hid : id ∈ ids
  · cases log.claims.get id <;> simp [hid]
  · simp [hid]

theorem trim_tombstones : (log.trim ids).tombstones.get id =
      (log.tombstones.get id).or (if id ∈ ids then log.claims.get id else none) := by
  rw [trim, deleteDroppedRows_rest.1, recordTombstones,
    get_foldl_orInsert fun claim hmem => (mem_trimmed.mp hmem).2]
  simp only [mem_trimmed_ids]
  by_cases hid : id ∈ ids
  · cases log.claims.get id <;> simp [hid]
  · simp [hid]

theorem trim_operations {row : OperationRow} : (log.trim ids).operations.get operation = some row ↔
      log.operations.get operation = some row ∧ ¬ (row.canonicalClaimId ∈ ids ∧
        ∃ digest, log.claims.get row.canonicalClaimId = some (some (operation, digest))) := by
  rw [trim, deleteDroppedRows_operations, Option.filter_eq_some_iff, decide_eq_true_iff]
  refine and_congr_right fun _ => not_congr ?_
  constructor
  · rintro ⟨claim, hmem, hoperation, hcanonical⟩
    obtain ⟨hid, hget⟩ := mem_trimmed.mp hmem
    obtain ⟨⟨operation', digest⟩, hparts, rfl⟩ := Option.map_eq_some_iff.mp hoperation
    rw [hcanonical]
    exact ⟨hid, digest, hget.trans (congrArg some hparts)⟩
  · rintro ⟨hid, digest, hget⟩
    exact ⟨(row.canonicalClaimId, some (operation, digest)), mem_trimmed.mpr ⟨hid, hget⟩, rfl, rfl⟩

/-! ### The claims of an operation, after it -/

theorem mem_stored_trim : (digest, id) ∈ (log.trim ids).stored operation ↔
    (digest, id) ∈ log.stored operation ∧ id ∉ ids := by
  rw [mem_stored, mem_stored, trim_claims, trim_repaired]
  by_cases hid : id ∈ ids
  · simp [hid]
  · simp [hid]

theorem mem_dropped_trim (hagrees : log.Agrees) : (digest, id) ∈ (log.trim ids).dropped operation ↔
      (digest, id) ∈ log.dropped operation ∨ ((digest, id) ∈ log.stored operation ∧ id ∈ ids) := by
  rw [mem_dropped, mem_dropped, mem_stored, trim_tombstones, trim_repaired]
  cases htombstone : log.tombstones.get id with
  | none =>
    by_cases hid : id ∈ ids
    · simp [hid]
    · simp [hid]
  | some parts =>
    have hsame : log.claims.get id = some (some (operation, digest)) →
        parts = some (operation, digest) := fun hget => (hagrees id _ _ hget htombstone).symm
    simp only [Option.some_or, Option.some.injEq]
    tauto

theorem Agrees.trim (h : log.Agrees) : (log.trim ids).Agrees := by
  intro id parts parts' hclaim htombstone
  rw [trim_claims] at hclaim
  rw [trim_tombstones] at htombstone
  by_cases hid : id ∈ ids
  · rw [if_pos hid] at hclaim
    cases hclaim
  · rw [if_neg hid] at hclaim htombstone
    rw [Option.or_none] at htombstone
    exact h id _ _ hclaim htombstone

theorem mem_all_trim (hagrees : log.Agrees) (ids : List String) (operation : String)
    (claim : String × String) :
    claim ∈ (log.trim ids).stored operation ++ (log.trim ids).dropped operation ↔
      claim ∈ log.stored operation ++ log.dropped operation := by
  obtain ⟨digest, id⟩ := claim
  rw [List.mem_append, List.mem_append, mem_stored_trim, mem_dropped_trim hagrees]
  tauto

end OperationLog

/-! ### Stores -/

/-- A log whose table is the expected one. -/
structure OperationStore extends OperationLog where
  agrees : toOperationLog.Agrees
  expected : operations = toOperationLog.expectedOperations

namespace OperationStore

open OperationLog

variable (store : OperationStore) {ids : List String} {operation : String} {row : OperationRow}

theorem get_operations : store.operations.get operation =
    if store.stored operation = [] then none else
      some (operationRow (store.stored operation) (store.dropped operation)) := by
  rw [store.expected, get_expectedOperations, store.agrees.expectedRow_eq]

theorem operations_eq_some : store.operations.get operation = some row ↔
    store.stored operation ≠ [] ∧
      operationRow (store.stored operation) (store.dropped operation) = row := by
  rw [get_operations, Option.ite_none_left_eq_some, Option.some.injEq]

theorem logicalOperation_eq : store.logicalOperation operation =
    logicalOf (store.stored operation) (store.dropped operation) :=
  logicalOperation_expected _ store.agrees store.expected

/-- What the table is rebuilt to after a trim. -/
theorem logicalOperation_rebuilt : (store.trim ids).rebuildOperations.logicalOperation operation =
    logicalOf ((store.trim ids).stored operation) ((store.trim ids).dropped operation) :=
  logicalOperation_expected (store.trim ids).rebuildOperations store.agrees.trim rfl

/-- A trim deletes a row if and only if it drops the claim that the row names. -/
theorem trim_operations_eq_some : (store.trim ids).operations.get operation = some row ↔
    store.operations.get operation = some row ∧ row.canonicalClaimId ∉ ids := by
  rw [trim_operations]
  refine and_congr_right fun hget => not_congr (and_iff_left ?_)
  obtain ⟨hne, rfl⟩ := store.operations_eq_some.mp hget
  obtain ⟨digest, hmem⟩ := canonicalOf_mem hne _
  exact ⟨digest, (mem_stored.mp hmem).1⟩

/-- Rows of operations that keep their canonical claim stay, and a rebuild finds them again. -/
theorem logicalOperation_of_kept
    (h : ∀ row, store.operations.get operation = some row → row.canonicalClaimId ∉ ids) :
    (store.trim ids).logicalOperation operation = store.logicalOperation operation ∧
      (store.trim ids).rebuildOperations.logicalOperation operation =
        store.logicalOperation operation := by
  rw [logicalOperation_rebuilt]
  cases hget : store.operations.get operation with
  | none =>
    have hnil : store.stored operation = [] := by
      by_contra hne
      rw [store.operations_eq_some.mpr ⟨hne, rfl⟩] at hget
      cases hget
    have hstored : ∀ claim, claim ∈ (store.trim ids).stored operation ↔
        claim ∈ store.stored operation := by
      rintro ⟨digest, id⟩
      rw [mem_stored_trim, hnil]
      simp
    have hdropped : ∀ claim, claim ∈ (store.trim ids).dropped operation ↔
        claim ∈ store.dropped operation := by
      rintro ⟨digest, id⟩
      rw [mem_dropped_trim store.agrees, hnil]
      simp
    have hnone : (store.trim ids).operations.get operation = none :=
      Option.eq_none_iff_forall_ne_some.mpr fun row hrow => by
        rw [(store.trim_operations_eq_some.mp hrow).1] at hget
        cases hget
    rw [logicalOperation, hnone, logicalOperation_eq, hnil, Option.none_or]
    exact ⟨logicalOf_congr (fun _ => Iff.rfl) hdropped, logicalOf_congr (hnil ▸ hstored) hdropped⟩
  | some row =>
    have hkept := h row hget
    obtain ⟨hne, rfl⟩ := store.operations_eq_some.mp hget
    have hstored : ∀ claim, claim ∈ (store.trim ids).stored operation ↔
        claim ∈ store.stored operation ∧ claim.2 ∉ ids := fun _ => mem_stored_trim
    obtain ⟨digest, hmem⟩ := canonicalOf_mem hne
      (leastDigest (store.stored operation ++ store.dropped operation))
    have hne' : (store.trim ids).stored operation ≠ [] :=
      List.ne_nil_of_mem ((hstored _).mpr ⟨hmem, hkept⟩)
    have hall := mem_all_trim store.agrees ids operation
    have hrow : operationRow ((store.trim ids).stored operation)
        ((store.trim ids).dropped operation) =
        operationRow (store.stored operation) (store.dropped operation) := by
      rw [operationRow, operationRow, leastDigest_congr hall, stateOf_congr hall,
        canonicalOf_kept hstored hne hkept]
    have hlogical : store.logicalOperation operation =
        some (operationRow (store.stored operation) (store.dropped operation)) := by
      rw [logicalOperation, hget, Option.some_or]
    rw [hlogical, logicalOperation, store.trim_operations_eq_some.mpr ⟨hget, hkept⟩,
      Option.some_or, logicalOf, if_pos hne', hrow]
    exact ⟨rfl, rfl⟩

/-- The claims of an operation all go, and its row is the one their tombstones give. -/
structure Vanishes (ids : List String) (operation : String) (row : OperationRow) : Prop where
  stored : ∀ claim ∈ store.stored operation, claim.2 ∈ ids
  digest : (row.requestDigest, row.canonicalClaimId) ∈ store.stored operation
  dropped : ∀ id, (row.requestDigest, id) ∈ store.dropped operation → row.canonicalClaimId ≤ id

/-- When all the claims of an operation go, its row stays if and only if its canonical claim has the
least digest and no tombstone with that digest is of a smaller claim. -/
theorem operationRow_vanished (hne : store.stored operation ≠ [])
    (hwhole : ∀ claim ∈ store.stored operation, claim.2 ∈ ids)
    (hrow : operationRow (store.stored operation) (store.dropped operation) = row) :
    operationRow ((store.trim ids).dropped operation) [] = row ↔
      (row.requestDigest, row.canonicalClaimId) ∈ store.stored operation ∧
        ∀ id, (row.requestDigest, id) ∈ store.dropped operation → row.canonicalClaimId ≤ id := by
  have hmem : ∀ claim, claim ∈ (store.trim ids).dropped operation ++ [] ↔
      claim ∈ store.stored operation ++ store.dropped operation := by
    rintro ⟨digest, id⟩
    rw [List.append_nil, mem_dropped_trim store.agrees, List.mem_append]
    have := hwhole (digest, id)
    tauto
  subst hrow
  obtain ⟨least, hleast, -⟩ := exists_least (List.append_ne_nil_of_left_ne_nil hne
    (store.dropped operation))
  have hcanonical : operationRow ((store.trim ids).dropped operation) [] =
      operationRow (store.stored operation) (store.dropped operation) ↔
      canonicalOf ((store.trim ids).dropped operation)
        (leastDigest (store.stored operation ++ store.dropped operation)) =
      canonicalOf (store.stored operation)
        (leastDigest (store.stored operation ++ store.dropped operation)) := by
    simp only [operationRow, leastDigest_congr hmem, stateOf_congr hmem, OperationRow.mk.injEq,
      and_true, true_and]
  simp only [List.append_nil] at hmem
  rw [hcanonical, canonicalOf_eq_of_mem ((hmem _).mpr hleast)]
  simp only [hmem, List.mem_append]
  constructor
  · rintro ⟨hstored | hdropped, hle⟩
    · exact ⟨hstored, fun id hid => hle id (.inr hid)⟩
    · -- The canonical claim is stored, and its tombstone has the same request.
      obtain ⟨digest, hstored⟩ := canonicalOf_mem hne
        (leastDigest (store.stored operation ++ store.dropped operation))
      have hparts := store.agrees _ _ _ (mem_stored.mp hstored).1 (mem_dropped.mp hdropped).1
      simp only [Option.some.injEq, Prod.mk.injEq, true_and] at hparts
      rw [hparts] at hstored
      exact ⟨hstored, fun id hid => hle id (.inr hid)⟩
  · rintro ⟨hstored, hle⟩
    have hmin := ((canonicalOf_eq_of_mem hstored).mp rfl).2
    exact ⟨.inl hstored, fun id hid => hid.elim (hmin id) (hle id)⟩

/-- Without its canonical claim a row is read from tombstones, and a rebuild makes it of the claims
that are left, so it stays if and only if none is left and tombstones have the same least claim. -/
theorem logicalOperation_of_dropped (hget : store.operations.get operation = some row)
    (hid : row.canonicalClaimId ∈ ids) :
    ((store.trim ids).logicalOperation operation = store.logicalOperation operation ∧
      (store.trim ids).rebuildOperations.logicalOperation operation =
        store.logicalOperation operation) ↔ store.Vanishes ids operation row := by
  have hlogical : store.logicalOperation operation = some row := by
    rw [logicalOperation, hget, Option.some_or]
  have hnone : (store.trim ids).operations.get operation = none :=
    Option.eq_none_iff_forall_ne_some.mpr fun row' hrow' => by
      obtain ⟨hget', hkept⟩ := store.trim_operations_eq_some.mp hrow'
      obtain rfl := Option.some.inj (hget.symm.trans hget')
      exact hkept hid
  obtain ⟨hne, hrow⟩ := store.operations_eq_some.mp hget
  have hdropped : (store.trim ids).dropped operation ≠ [] := by
    obtain ⟨digest, hmem⟩ := canonicalOf_mem hne
      (leastDigest (store.stored operation ++ store.dropped operation))
    rw [← hrow] at hid
    exact List.ne_nil_of_mem ((mem_dropped_trim store.agrees).mpr (.inr ⟨hmem, hid⟩))
  have hfallback : logicalOf [] ((store.trim ids).dropped operation) =
      some (operationRow ((store.trim ids).dropped operation) []) := by
    rw [logicalOf, if_neg (not_not.mpr rfl), if_pos hdropped]
  rw [logicalOperation_rebuilt, hlogical, logicalOperation, hnone, Option.none_or, hfallback,
    Option.some.injEq]
  constructor
  · rintro ⟨hsame, hrebuilt⟩
    have hwhole : ∀ claim ∈ store.stored operation, claim.2 ∈ ids := by
      rintro ⟨digest, id⟩ hmem
      by_contra hkept
      -- A claim is left, so a rebuilt row names one that is left.
      have hleft : (store.trim ids).stored operation ≠ [] :=
        List.ne_nil_of_mem (mem_stored_trim.mpr ⟨hmem, hkept⟩)
      rw [logicalOf, if_pos hleft, Option.some.injEq] at hrebuilt
      obtain ⟨digest', hmem'⟩ := canonicalOf_mem hleft (leastDigest
        ((store.trim ids).stored operation ++ (store.trim ids).dropped operation))
      rw [← hrebuilt] at hid
      exact (mem_stored_trim.mp hmem').2 hid
    obtain ⟨hdigest, hle⟩ := (store.operationRow_vanished hne hwhole hrow).mp hsame
    exact ⟨hwhole, hdigest, hle⟩
  · rintro ⟨hwhole, hdigest, hle⟩
    have hnil : (store.trim ids).stored operation = [] := by
      rw [List.eq_nil_iff_forall_not_mem]
      rintro ⟨digest, id⟩ hmem
      exact (mem_stored_trim.mp hmem).2 (hwhole _ (mem_stored_trim.mp hmem).1)
    have hsame := (store.operationRow_vanished hne hwhole hrow).mpr ⟨hdigest, hle⟩
    rw [hnil, hfallback, hsame]
    exact ⟨rfl, rfl⟩

/-- **A trim and a rebuild after it leave every logical row**, if and only if each operation whose
canonical claim is dropped vanishes. -/
theorem logicalRow_trim_iff (ids : List String) :
    (∀ operation, (store.trim ids).logicalRow operation = store.logicalRow operation ∧
      (store.trim ids).rebuildOperations.logicalRow operation = store.logicalRow operation) ↔
    ∀ operation row, store.operations.get operation = some row → row.canonicalClaimId ∈ ids →
      store.Vanishes ids operation row := by
  simp only [logicalRow_eq_iff]
  constructor
  · intro h operation row hget hid
    exact (store.logicalOperation_of_dropped hget hid).mp (h operation)
  · intro h operation
    by_cases hkept : ∀ row, store.operations.get operation = some row → row.canonicalClaimId ∉ ids
    · exact store.logicalOperation_of_kept hkept
    · push Not at hkept
      obtain ⟨row, hget, hid⟩ := hkept
      exact (store.logicalOperation_of_dropped hget hid).mpr (h operation row hget hid)

end OperationStore

/-! ### A request that a later claim joins -/

open Checkpoint

/-- A daemon's report of the code `full`, made by a request. -/
def requestedReport (id request : String) : ClaimRecord :=
  { diagnostic id with
    operationId := some request
    body := .obj [("fields", .obj [("code", .str "full")]),
      ("_operation", .obj [("id", .str request), ("request_digest", .str "d")])] }

/-- The report made by two requests, in two envelopes of the daemon. -/
def requestedReports : SealedSet :=
  twoSealed 100 (requestedReport "c1" "r1") (requestedReport "c2" "r2")

/-- The sealed claims, and a claim of the first request that came after the cut. -/
def joinedLog : OperationLog where
  claims := ((TreeMap.empty.insert "c1" (some ("r1", "d"))).insert "c2" (some ("r2", "d"))).insert
    "c3" (some ("r1", "d"))
  operations := (TreeMap.empty.insert "r1" ⟨"d", "c1", .active⟩).insert "r2" ⟨"d", "c2", .active⟩

def joinedStore : OperationStore where
  toOperationLog := joinedLog
  agrees _ _ _ _ h := nomatch h
  expected := by decide +kernel

/-- The plan drops the request's first claim. Tombstones give its row as it was, and a rebuild
gives it the claim that came later. -/
theorem joined_request :
    let dropped := (planDrops Replication.transcript diagnosticSchema requestedReports).claims
    let trimmed := joinedStore.trim (dropped.map ClaimTombstone.id)
    (∀ t ∈ dropped, joinedStore.claims.get t.id =
        some (t.operationId.bind fun operation => t.requestDigest.map (operation, ·))) ∧
      trimmed.logicalRow "r1" = joinedStore.logicalRow "r1" ∧
      trimmed.rebuildOperations.logicalRow "r1" ≠ joinedStore.logicalRow "r1" := by
  decide +kernel

end SmallTalk.Operations
