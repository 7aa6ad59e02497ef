import SmallTalk.Data.JsonText
import SmallTalk.Digest.Triggers

/-!
# Operations — the table and what it should hold

A claim of a request carries the request's operation and its digest. The table `operations` has one
row for each operation with a stored claim (`expectedOperations`): the least digest, whether all
agree, and the canonical claim, a stored one with that digest if there is any. Claims that a
checkpoint dropped count for the digest and the state. Repaired claims do not count at all.

An operation with no stored claim has no row, and its logical row is the one its tombstones give
(`Digest.Rows.currentOperation`).

* `operationRow_congr`: a row depends on which claims there are, not on their order.
* `logicalRow_eq`: the row that tombstones give is the one that their claims had when stored.
-/

namespace SmallTalk.Operations

open Digest (OperationRow OperationState TombstoneRow)
open List Sorted

/-! ### The row of an operation -/

/-- The least digest among claims, each as digest and claim. -/
def leastDigest (claims : List (String × String)) : String :=
  (claims.map toLex).min?.elim "" fun least => (ofLex least).1

def stateOf (claims : List (String × String)) : OperationState :=
  if claims.all (·.1 = leastDigest claims) then .active else .conflict

/-- The least stored claim with the digest, or else the least stored claim. -/
def canonicalOf (stored : List (String × String)) (digest : String) : String :=
  (((stored.filter (·.1 = digest)).map Prod.snd).min?.or (stored.map Prod.snd).min?).getD ""

/-- The row of an operation from its stored claims and those that a checkpoint dropped. -/
def operationRow (stored dropped : List (String × String)) : OperationRow where
  requestDigest := leastDigest (stored ++ dropped)
  canonicalClaimId := canonicalOf stored (leastDigest (stored ++ dropped))
  state := stateOf (stored ++ dropped)

/-- The logical row of an operation: the one in the table if it has a stored claim, or else the one
of its dropped claims. -/
def logicalOf (stored dropped : List (String × String)) : Option OperationRow :=
  if stored ≠ [] then some (operationRow stored dropped)
  else if dropped ≠ [] then some (operationRow dropped []) else none

section

variable {claims claims' stored stored' dropped dropped' : List (String × String)}
  {digest id : String}

theorem min?_congr {α : Type*} [LinearOrder α] {l l' : List α} (h : ∀ a, a ∈ l ↔ a ∈ l') :
    l.min? = l'.min? := by
  refine Option.ext fun a => ?_
  simp only [min?_eq_some_iff, h]

theorem leastDigest_congr (h : ∀ claim, claim ∈ claims ↔ claim ∈ claims') :
    leastDigest claims = leastDigest claims' := by
  have hmin : (claims.map toLex).min? = (claims'.map toLex).min? :=
    min?_congr fun claim => by simp only [mem_map, h]
  rw [leastDigest, hmin, leastDigest]

theorem stateOf_congr (h : ∀ claim, claim ∈ claims ↔ claim ∈ claims') :
    stateOf claims = stateOf claims' := by
  unfold stateOf
  rw [leastDigest_congr h]
  refine if_congr ?_ rfl rfl
  simp only [all_eq_true, h]

theorem canonicalOf_congr (h : ∀ claim, claim ∈ stored ↔ claim ∈ stored') :
    canonicalOf stored digest = canonicalOf stored' digest := by
  have hsame : ((stored.filter (·.1 = digest)).map Prod.snd).min? =
      ((stored'.filter (·.1 = digest)).map Prod.snd).min? :=
    min?_congr fun claim => by simp only [mem_map, mem_filter, h]
  have hany : (stored.map Prod.snd).min? = (stored'.map Prod.snd).min? :=
    min?_congr fun claim => by simp only [mem_map, h]
  rw [canonicalOf, hsame, hany, canonicalOf]

theorem operationRow_congr (hstored : ∀ claim, claim ∈ stored ↔ claim ∈ stored')
    (h : ∀ claim, claim ∈ stored ++ dropped ↔ claim ∈ stored' ++ dropped') :
    operationRow stored dropped = operationRow stored' dropped' := by
  unfold operationRow
  rw [leastDigest_congr h, stateOf_congr h, canonicalOf_congr hstored]

theorem eq_nil_congr (h : ∀ claim, claim ∈ claims ↔ claim ∈ claims') : claims = [] ↔ claims' = [] := by
  simp only [eq_nil_iff_forall_not_mem, h]

theorem logicalOf_congr (hstored : ∀ claim, claim ∈ stored ↔ claim ∈ stored')
    (hdropped : ∀ claim, claim ∈ dropped ↔ claim ∈ dropped') :
    logicalOf stored dropped = logicalOf stored' dropped' := by
  have hrow : operationRow stored dropped = operationRow stored' dropped' :=
    operationRow_congr hstored fun claim => by rw [mem_append, mem_append, hstored, hdropped]
  have hfallback : operationRow dropped [] = operationRow dropped' [] :=
    operationRow_congr hdropped fun claim => by rw [append_nil, append_nil, hdropped]
  simp only [logicalOf, ne_eq, eq_nil_congr hstored, eq_nil_congr hdropped, hrow, hfallback]

/-- The least claim has the least digest. -/
theorem exists_least (h : claims ≠ []) : ∃ id, (leastDigest claims, id) ∈ claims ∧
      ∀ claim ∈ claims, toLex (leastDigest claims, id) ≤ toLex claim := by
  obtain ⟨least, hleast⟩ : ∃ least, (claims.map toLex).min? = some least :=
    Option.isSome_iff_exists.mp (by simpa [isSome_min?_iff] using h)
  obtain ⟨hmem, hle⟩ := min?_eq_some_iff.mp hleast
  obtain ⟨claim, hclaim, rfl⟩ := mem_map.mp hmem
  have hdigest : leastDigest claims = claim.1 := by rw [leastDigest, hleast]; rfl
  rw [hdigest]
  exact ⟨claim.2, hclaim, fun other hother => hle _ (mem_map.mpr ⟨other, hother, rfl⟩)⟩

theorem leastDigest_le (h : (digest, id) ∈ claims) : leastDigest claims ≤ digest := by
  obtain ⟨least, -, hle⟩ := exists_least (ne_nil_of_mem h)
  rcases Prod.Lex.le_iff.mp (hle _ h) with hlt | ⟨heq, -⟩
  · exact le_of_lt hlt
  · exact le_of_eq heq

theorem leastDigest_eq (h : (digest, id) ∈ claims)
    (hle : ∀ claim ∈ claims, digest ≤ claim.1) : leastDigest claims = digest := by
  obtain ⟨least, hmem, -⟩ := exists_least (ne_nil_of_mem h)
  exact le_antisymm (leastDigest_le h) (hle _ hmem)

theorem stateOf_eq_active :
    stateOf claims = .active ↔ ∀ claim ∈ claims, claim.1 = leastDigest claims := by
  simp [stateOf]

theorem stateOf_eq_conflict : stateOf claims = .conflict ↔ ¬ stateOf claims = .active := by
  cases stateOf claims <;> simp

theorem stateOf_eq_active_of_mem (h : (digest, id) ∈ claims) :
    stateOf claims = .active ↔ ∀ claim ∈ claims, claim.1 = digest := by
  rw [stateOf_eq_active]
  constructor
  · exact fun hall claim hmem => (hall claim hmem).trans (hall _ h).symm
  · intro hall claim hmem
    rw [leastDigest_eq h fun claim hmem => (hall claim hmem).ge, hall claim hmem]

/-- The canonical claim is a stored one, the least of those with the digest if it has it, and
otherwise none has it and it is the least. -/
theorem canonicalOf_eq_iff (h : stored ≠ []) : canonicalOf stored digest = id ↔
      ((digest, id) ∈ stored ∧ ∀ id', (digest, id') ∈ stored → id ≤ id') ∨
      ((∀ id', (digest, id') ∉ stored) ∧ (∃ digest', (digest', id) ∈ stored) ∧
        ∀ claim ∈ stored, id ≤ claim.2) := by
  have hsame : ((stored.filter (·.1 = digest)).map Prod.snd).min? = some id ↔
      (digest, id) ∈ stored ∧ ∀ id', (digest, id') ∈ stored → id ≤ id' := by
    simp [min?_eq_some_iff]
  have hany : (stored.map Prod.snd).min? = some id ↔
      (∃ digest', (digest', id) ∈ stored) ∧ ∀ claim ∈ stored, id ≤ claim.2 := by
    rw [min?_eq_some_iff, forall_mem_map, mem_map]
    simp only [Prod.exists, exists_eq_right]
  unfold canonicalOf
  cases hmin : ((stored.filter (·.1 = digest)).map Prod.snd).min? with
  | none =>
    have hnone : ∀ id', (digest, id') ∉ stored := by
      have hnil := min?_eq_none_iff.mp hmin
      intro id' hmem
      simpa using (filter_eq_nil_iff.mp (map_eq_nil_iff.mp hnil)) _ hmem
    obtain ⟨least, hleast⟩ : ∃ least, (stored.map Prod.snd).min? = some least :=
      Option.isSome_iff_exists.mp (by simpa [isSome_min?_iff] using h)
    rw [← hany, hleast]
    simp [hnone]
  | some least =>
    have hleast := hmin
    rw [hmin] at hsame
    rw [← hsame]
    have hmem : (digest, least) ∈ stored := by
      have := (min?_eq_some_iff.mp hleast).1
      simpa using this
    have hsome : ¬ ∀ id', (digest, id') ∉ stored := fun hnone => hnone least hmem
    simp [hsome]

theorem canonicalOf_mem (h : stored ≠ []) (digest : String) :
    ∃ digest', (digest', canonicalOf stored digest) ∈ stored := by
  rcases (canonicalOf_eq_iff h).mp rfl with ⟨hmem, -⟩ | ⟨-, hmem, -⟩
  · exact ⟨digest, hmem⟩
  · exact hmem

/-- When some claim has the digest, the canonical claim is the least of those that have it. -/
theorem canonicalOf_eq_of_mem {id' : String} (h : (digest, id') ∈ stored) :
    canonicalOf stored digest = id ↔
      (digest, id) ∈ stored ∧ ∀ id', (digest, id') ∈ stored → id ≤ id' := by
  rw [canonicalOf_eq_iff (ne_nil_of_mem h)]
  exact or_iff_left fun ⟨hnone, _⟩ => hnone id' h

/-- Dropping other claims leaves the canonical claim. -/
theorem canonicalOf_kept {ids : List String}
    (h : ∀ claim, claim ∈ stored' ↔ claim ∈ stored ∧ claim.2 ∉ ids) (hne : stored ≠ [])
    (hkept : canonicalOf stored digest ∉ ids) :
    canonicalOf stored' digest = canonicalOf stored digest := by
  obtain ⟨digest', hmem⟩ := canonicalOf_mem hne digest
  have hne' : stored' ≠ [] := ne_nil_of_mem ((h _).mpr ⟨hmem, hkept⟩)
  rw [canonicalOf_eq_iff hne']
  rcases (canonicalOf_eq_iff hne).mp rfl with ⟨hsame, hle⟩ | ⟨hnone, ⟨digest', hany⟩, hle⟩
  · exact .inl ⟨(h _).mpr ⟨hsame, hkept⟩, fun id hid => hle id ((h _).mp hid).1⟩
  · exact .inr ⟨fun id hid => hnone id ((h _).mp hid).1, ⟨digest', (h _).mpr ⟨hany, hkept⟩⟩,
      fun claim hclaim => hle claim ((h _).mp hclaim).1⟩

end

/-! ### The log -/

/-- The claims that are stored and those that checkpoints dropped, each with the operation and the
digest of its request if it is of one (`operation_parts`), the claims that repairs replaced, and the
table of operations. -/
structure OperationLog where
  claims : TreeMap String (Option (String × String)) := .empty
  tombstones : TreeMap String (Option (String × String)) := .empty
  repaired : Finset String := ∅
  operations : TreeMap String OperationRow := .empty

/-- The unrepaired claims of an operation, as digest and claim. -/
def claimsOf (repaired : Finset String) (claims : TreeMap String (Option (String × String)))
    (operation : String) : List (String × String) :=
  claims.entries.filterMap fun (id, parts) =>
    parts.bind fun (operation', digest) =>
      if operation' = operation ∧ id ∉ repaired then some (digest, id) else none

namespace OperationLog

variable (log : OperationLog)

def stored (operation : String) : List (String × String) :=
  claimsOf log.repaired log.claims operation

/-- `checkpointed_operation`. -/
def dropped (operation : String) : List (String × String) :=
  claimsOf log.repaired log.tombstones operation

/-- The stored claims that count for an operation. -/
def storedIds : List String :=
  log.claims.entries.filterMap fun (id, parts) =>
    if parts.isSome ∧ id ∉ log.repaired then some id else none

/-- The operations with a stored claim. -/
def storedOperations : List String :=
  sortedSet (log.claims.entries.filterMap fun (id, parts) =>
    parts.bind fun (operation, _) => if id ∉ log.repaired then some operation else none)

def expectedRow (operation : String) : OperationRow :=
  operationRow (log.stored operation)
    ((log.dropped operation).filter fun claim => claim.2 ∉ log.storedIds)

def expectedOperations : TreeMap String OperationRow :=
  TreeMap.ofLast (fun operation => some (operation, log.expectedRow operation)) log.storedOperations

def rebuildOperations : OperationLog := { log with operations := log.expectedOperations }

/-- The tables, as the digest of the projection reads them. -/
def rows : Digest.Rows where
  claims := log.claims.map fun parts => ⟨"", parts.map Prod.fst⟩
  checkpointClaims := log.tombstones.map fun parts => ⟨0, parts.map Prod.fst, parts.map Prod.snd⟩
  repairedClaims := log.repaired
  operations := log.operations

def logicalRow (operation : String) : Option String := log.rows.currentOperation operation

/-! ### What they hold -/

variable {log} {operation digest id : String}

theorem mem_claimsOf {repaired : Finset String}
    {claims : TreeMap String (Option (String × String))} :
    (digest, id) ∈ claimsOf repaired claims operation ↔
      claims.get id = some (some (operation, digest)) ∧ id ∉ repaired := by
  simp only [claimsOf, mem_filterMap, Prod.exists, Option.bind_eq_some_iff,
    Option.ite_none_right_eq_some, Option.some.injEq, Prod.mk.injEq]
  constructor
  · rintro ⟨id', parts, hmem, operation', digest', rfl, ⟨rfl, hid⟩, rfl, rfl⟩
    exact ⟨TreeMap.mem_entries.mp hmem, hid⟩
  · rintro ⟨hget, hid⟩
    exact ⟨id, _, TreeMap.mem_entries.mpr hget, operation, digest, rfl, ⟨rfl, hid⟩, rfl, rfl⟩

theorem mem_stored : (digest, id) ∈ log.stored operation ↔
    log.claims.get id = some (some (operation, digest)) ∧ id ∉ log.repaired :=
  mem_claimsOf

theorem mem_dropped : (digest, id) ∈ log.dropped operation ↔
    log.tombstones.get id = some (some (operation, digest)) ∧ id ∉ log.repaired :=
  mem_claimsOf

theorem mem_storedIds :
    id ∈ log.storedIds ↔ ∃ operation digest, (digest, id) ∈ log.stored operation := by
  simp only [storedIds, mem_stored, mem_filterMap, Prod.exists, Option.isSome_iff_exists,
    Option.ite_none_right_eq_some, Option.some.injEq]
  constructor
  · rintro ⟨id', parts, hmem, ⟨⟨operation, digest, rfl⟩, hid⟩, rfl⟩
    exact ⟨operation, digest, TreeMap.mem_entries.mp hmem, hid⟩
  · rintro ⟨operation, digest, hget, hid⟩
    exact ⟨id, _, TreeMap.mem_entries.mpr hget, ⟨⟨operation, digest, rfl⟩, hid⟩, rfl⟩

theorem mem_storedOperations : operation ∈ log.storedOperations ↔ log.stored operation ≠ [] := by
  have hne : log.stored operation ≠ [] ↔ ∃ digest id, (digest, id) ∈ log.stored operation := by
    simp [eq_nil_iff_forall_not_mem]
  rw [hne, storedOperations, mem_sortedSet]
  simp only [mem_stored, mem_filterMap, Prod.exists, Option.bind_eq_some_iff,
    Option.ite_none_right_eq_some, Option.some.injEq]
  constructor
  · rintro ⟨id, parts, hmem, operation', digest, rfl, hid, rfl⟩
    exact ⟨digest, id, TreeMap.mem_entries.mp hmem, hid⟩
  · rintro ⟨digest, id, hget, hid⟩
    exact ⟨id, _, TreeMap.mem_entries.mpr hget, operation, digest, rfl, hid, rfl⟩

theorem get_expectedOperations : log.expectedOperations.get operation =
    if log.stored operation = [] then none else some (log.expectedRow operation) := by
  rw [expectedOperations, TreeMap.get_ofLast_keys]
  simp only [mem_storedOperations, ne_eq, ite_not]

/-- A claim has one request, whether it is stored or dropped. -/
def Agrees (log : OperationLog) : Prop :=
  ∀ id parts parts', log.claims.get id = some parts → log.tombstones.get id = some parts' →
    parts = parts'

theorem Agrees.expectedRow_eq (h : log.Agrees) :
    log.expectedRow operation = operationRow (log.stored operation) (log.dropped operation) := by
  refine operationRow_congr (fun _ => Iff.rfl) fun ⟨digest, id⟩ => ?_
  simp only [mem_append, mem_filter, decide_eq_true_eq]
  constructor
  · rintro (hstored | ⟨hdropped, -⟩)
    · exact .inl hstored
    · exact .inr hdropped
  · rintro (hstored | hdropped)
    · exact .inl hstored
    by_cases hid : id ∈ log.storedIds
    · -- The claim is stored too, with the same request.
      obtain ⟨operation', digest', hstored⟩ := mem_storedIds.mp hid
      have hparts := h id _ _ (mem_stored.mp hstored).1 (mem_dropped.mp hdropped).1
      obtain ⟨rfl, rfl⟩ := hparts
      exact .inl hstored
    · exact .inr ⟨hdropped, hid⟩

/-! ### Logical rows -/

/-- The logical row of an operation, before it is written as text. -/
def logicalOperation (log : OperationLog) (operation : String) : Option OperationRow :=
  (log.operations.get operation).or (logicalOf [] (log.dropped operation))

theorem mem_droppedRows {row : TombstoneRow} : (id, row) ∈ (log.rows.dropped operation).entries ↔
      ∃ digest, (digest, id) ∈ log.dropped operation ∧ row = ⟨0, some operation, some digest⟩ := by
  rw [TreeMap.mem_entries, Digest.Rows.dropped, TreeMap.get_filter, rows, TreeMap.get_map,
    Option.filter_eq_some_iff, Option.map_eq_some_iff]
  simp only [mem_dropped, Bool.decide_and, Bool.and_eq_true, decide_eq_true_eq]
  constructor
  · rintro ⟨⟨parts, hget, rfl⟩, hoperation, hid⟩
    obtain ⟨⟨operation', digest⟩, rfl, rfl⟩ := Option.map_eq_some_iff.mp hoperation
    exact ⟨digest, ⟨hget, hid⟩, rfl⟩
  · rintro ⟨digest, ⟨hget, hid⟩, rfl⟩
    exact ⟨⟨_, hget, rfl⟩, rfl, hid⟩

theorem droppedRows_eq_nil :
    (log.rows.dropped operation).entries = [] ↔ log.dropped operation = [] := by
  simp only [eq_nil_iff_forall_not_mem, Prod.forall, mem_droppedRows]
  constructor
  · exact fun h digest id hmem => h id _ ⟨digest, hmem, rfl⟩
  · rintro h id row ⟨digest, hmem, -⟩
    exact h digest id hmem

theorem mem_droppedDigests :
    digest ∈ (log.rows.dropped operation).entries.filterMap (fun entry => entry.2.requestDigest) ↔
      ∃ id, (digest, id) ∈ log.dropped operation := by
  simp only [mem_filterMap, Prod.exists, mem_droppedRows]
  constructor
  · rintro ⟨id, row, ⟨digest', hmem, rfl⟩, hdigest⟩
    exact ⟨id, Option.some.inj hdigest ▸ hmem⟩
  · rintro ⟨id, hmem⟩
    exact ⟨id, _, ⟨digest, hmem, rfl⟩, rfl⟩

/-- Two digests or more, or all the same. -/
theorem one_lt_droppedDigests (h : log.dropped operation ≠ []) :
    1 < ((log.rows.dropped operation).entries.filterMap
        fun entry => entry.2.requestDigest).dedup.length ↔
      stateOf (log.dropped operation) = .conflict := by
  rw [← card_toFinset, Finset.one_lt_card, stateOf_eq_conflict, stateOf_eq_active]
  simp only [mem_toFinset, mem_droppedDigests]
  constructor
  · rintro ⟨a, ⟨id, ha⟩, b, ⟨id', hb⟩, hne⟩ hall
    exact hne ((hall _ ha).trans (hall _ hb).symm)
  · intro hall
    push Not at hall
    obtain ⟨⟨a, id⟩, ha, hne⟩ := hall
    obtain ⟨least, hleast, -⟩ := exists_least h
    exact ⟨a, ⟨id, ha⟩, _, ⟨least, hleast⟩, hne⟩

/-- **The row that tombstones give** is the one that their claims would have if they were stored. -/
theorem operationFallback_eq : log.rows.operationFallback operation =
    (logicalOf [] (log.dropped operation)).map (Digest.Rows.operationText operation) := by
  by_cases hnil : log.dropped operation = []
  · rw [Digest.Rows.operationFallback, logicalOf, if_neg (not_not.mpr rfl),
      if_neg (not_not.mpr hnil)]
    exact if_pos (droppedRows_eq_nil.mpr hnil)
  have hleast : ((log.rows.dropped operation).entries.filterMap
      fun entry => entry.2.requestDigest).min? = some (leastDigest (log.dropped operation)) := by
    obtain ⟨least, hmem, -⟩ := exists_least hnil
    refine min?_eq_some_iff.mpr ⟨mem_droppedDigests.mpr ⟨least, hmem⟩, fun digest hdigest => ?_⟩
    obtain ⟨id, hid⟩ := mem_droppedDigests.mp hdigest
    exact leastDigest_le hid
  have hcanonical : (((log.rows.dropped operation).entries.filter fun entry =>
      entry.2.requestDigest.isSome ∧
        entry.2.requestDigest = some (leastDigest (log.dropped operation))).map Prod.fst).min? =
      some (canonicalOf (log.dropped operation) (leastDigest (log.dropped operation))) := by
    have hrows : ∀ id, id ∈ ((log.rows.dropped operation).entries.filter fun entry =>
        entry.2.requestDigest.isSome ∧ entry.2.requestDigest =
          some (leastDigest (log.dropped operation))).map Prod.fst ↔
        (leastDigest (log.dropped operation), id) ∈ log.dropped operation := by
      intro id
      simp only [mem_map, mem_filter, Prod.exists, mem_droppedRows]
      constructor
      · rintro ⟨id', row, ⟨⟨digest, hmem, rfl⟩, hdigest⟩, rfl⟩
        have heq : digest = leastDigest (log.dropped operation) := by simpa using hdigest
        exact heq ▸ hmem
      · exact fun hmem => ⟨id, _, ⟨⟨_, hmem, rfl⟩, by simp⟩, rfl⟩
    rw [min?_eq_some_iff]
    simp only [hrows]
    obtain ⟨least, hmem, -⟩ := exists_least hnil
    exact (canonicalOf_eq_of_mem hmem).mp rfl
  have hstate : (if 1 < ((log.rows.dropped operation).entries.filterMap
      fun entry => entry.2.requestDigest).dedup.length then "conflict" else "active") =
      (stateOf (log.dropped operation)).text := by
    simp only [one_lt_droppedDigests hnil]
    cases stateOf (log.dropped operation) <;> rfl
  have hlogical : logicalOf [] (log.dropped operation) =
      some (operationRow (log.dropped operation) []) := by
    rw [logicalOf, if_neg (not_not.mpr rfl), if_pos hnil]
  rw [hlogical, Digest.Rows.operationFallback]
  simp only [droppedRows_eq_nil, if_neg hnil, hleast, hcanonical, hstate, Option.map_some,
    Digest.Rows.operationText, operationRow, append_nil, Digest.SqlValue.ofOption]

theorem operationText_injective (operation : String) :
    Function.Injective (Digest.Rows.operationText operation) := by
  intro row row' h
  have hrows := Json.text_inj h
  obtain ⟨digest, canonical, state⟩ := row
  obtain ⟨digest', canonical', state'⟩ := row'
  have hstate : ∀ s s' : OperationState, s.text = s'.text → s = s' := by
    intro s s'
    cases s <;> cases s' <;> simp [OperationState.text]
  simp only [map_cons, map_nil, Digest.SqlValue.json, Json.arr.injEq, List.cons.injEq,
    Json.str.injEq, and_true, true_and] at hrows
  obtain ⟨rfl, rfl, htext⟩ := hrows
  rw [hstate _ _ htext]

theorem logicalRow_eq : log.logicalRow operation =
      (log.logicalOperation operation).map (Digest.Rows.operationText operation) := by
  unfold logicalRow Digest.Rows.currentOperation logicalOperation
  rw [operationFallback_eq, Option.map_or]
  rfl

theorem logicalRow_eq_iff {log' : OperationLog} :
    log'.logicalRow operation = log.logicalRow operation ↔
      log'.logicalOperation operation = log.logicalOperation operation := by
  rw [logicalRow_eq, logicalRow_eq]
  exact (Option.map_injective (operationText_injective operation)).eq_iff

theorem logicalOperation_expected (log : OperationLog) (hagrees : log.Agrees)
    (h : log.operations = log.expectedOperations) :
    log.logicalOperation operation = logicalOf (log.stored operation) (log.dropped operation) := by
  rw [logicalOperation, h, get_expectedOperations, hagrees.expectedRow_eq]
  by_cases hstored : log.stored operation = []
  · simp [hstored]
  · simp [hstored, logicalOf]

end OperationLog

end SmallTalk.Operations
