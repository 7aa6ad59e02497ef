import SmallTalk.Digest.Keeping
import SmallTalk.Lib.Runs

/-!
# Digest — the cache is what a scan finds

* `Exact.apply`: a statement keeps every digest exact, and the cached row of every operation
  current, if the two rows of a claim agree where one of them comes to stand for the other
  (`Statement.Agrees`).
* `adopted_late`: without agreement it is not.
-/

namespace SmallTalk.Digest

open Keeps Option Database Cache Rows Carry Tally Runs

variable {sha512 : List UInt8 → Accumulator} {old new : Option String} {cache : Cache} {id : String}
  {delta : ℤ}

/-! ### A store whose digests are exact -/

/-- The digest of the claim sources is of what the rows are. -/
def Cache.KeepsSources (sha512 : List UInt8 → Accumulator) (cache : Cache) (rows : Rows) : Prop :=
  Keeps sha512 "claim_sources" sourceColumns (cache.digests "claim_sources") rows.source

/-- Every digest is of its source, and the cached row of every operation is its row now. -/
structure Database.Exact (sha512 : List UInt8 → Accumulator) (registry : Registry)
    (db : Database) : Prop where
  tables : ∀ table columns, registry.columns table = some columns →
    Keeps sha512 table (encodeColumns columns) (db.cache.digests table)
      (db.rows.tableSource table columns)
  sources : db.cache.KeepsSources sha512 db.rows
  operations : db.cache.KeepsOperations sha512
  current : ∀ operation, db.cache.Fresh db.rows operation

theorem Registry.columns_apart {registry : Registry} {table : String} {columns : List String}
    (h : registry.columns table = some columns) :
    table ≠ "operations" ∧ table ≠ "claim_sources" := by
  obtain ⟨before, after, hsplit, -⟩ := List.lookup_eq_some_iff.mp h
  exact registry.apart (table, columns) (by rw [hsplit]; simp)

namespace Database.Exact

variable {registry : Registry} {db : Database}

/-- A statement that is not about a registered table: it changes the digest of the claim sources,
and refreshes the operations whose rows are not what they were. -/
theorem of_refreshes (h : db.Exact sha512 registry) {rows : Rows} {names : String → Prop}
    {cache' : Cache} (htables : rows.tables = db.rows.tables)
    (hdigests : ∀ table, table ≠ "claim_sources" → cache.digests table = db.cache.digests table)
    (hrows : cache.operationRows = db.cache.operationRows)
    (hsources : cache.KeepsSources sha512 rows)
    (hrefreshes : Cache.Refreshes sha512 rows names cache cache')
    (hpassed : ∀ operation, names operation ∨
      rows.currentOperation operation = db.rows.currentOperation operation) :
    Exact sha512 registry ⟨rows, cache'⟩ where
  tables table columns hcolumns := by
    obtain ⟨hne, hne'⟩ := Registry.columns_apart hcolumns
    have hsource : rows.tableSource table columns = db.rows.tableSource table columns := by
      funext key
      rw [tableSource, tableSource, htables]
    rw [hrefreshes.digests table hne, hdigests table hne', hsource]
    exact h.tables table columns hcolumns
  sources := by
    rwa [Cache.KeepsSources, hrefreshes.digests _ (by decide)]
  operations := hrefreshes.keeps (by
    rw [Cache.KeepsOperations, hdigests _ (by decide), hrows]
    exact h.operations)
  current operation := hrefreshes.fresh operation ((hpassed operation).imp_right fun hsame => by
    rw [Cache.Fresh, hrows, hsame]
    exact h.current operation)

end Database.Exact

/-! ### Statements whose rows agree -/

namespace Rows

/-- A claim's time is the one on its tombstone, if it has one and is not repaired. -/
def TimeAgrees (rows : Rows) (id acceptedAtUnixMs : String) : Prop :=
  ∀ row ∈ rows.checkpointClaims.get id, id ∉ rows.repairedClaims →
    toString row.acceptedAtUnixMs = acceptedAtUnixMs

/-- A stored claim names the operation of its tombstone, or none, or that operation has a row. -/
def OperationAgrees (rows : Rows) (id : String) : Prop :=
  ∀ claim ∈ rows.claims.get id, ∀ name ∈ claim.operation, ∀ row ∈ rows.checkpointClaims.get id,
    ∀ operation ∈ row.operationId, name = operation ∨ (rows.operations.get operation).isSome

/-- Neither a claim nor a tombstone. -/
def Unknown (rows : Rows) (id : String) : Prop :=
  rows.claims.get id = none ∧ rows.checkpointClaims.get id = none

theorem unknown_of_sourceRow {rows : Rows} (h : rows.sourceRow id = none) : rows.Unknown id := by
  simpa [sourceRow, Unknown, or_eq_none_iff] using h

instance (rows : Rows) (id acceptedAtUnixMs : String) :
    Decidable (rows.TimeAgrees id acceptedAtUnixMs) :=
  inferInstanceAs (Decidable (∀ row ∈ rows.checkpointClaims.get id, _))

instance (rows : Rows) (id : String) : Decidable (rows.OperationAgrees id) :=
  inferInstanceAs (Decidable (∀ claim ∈ rows.claims.get id, ∀ name ∈ claim.operation, _))

instance (rows : Rows) (id : String) : Decidable (rows.Unknown id) :=
  inferInstanceAs (Decidable (_ ∧ _))

end Rows

/-- Where one row of a claim comes to stand for the other, the two agree: on the time, when the
claim comes or goes beside its tombstone, and on the operation, when a repair comes or goes. The
mark of a repair is not moved to or from a claim that is known. -/
def Statement.Agrees (rows : Rows) : Statement → Prop
  | .insertClaim id row => rows.claims.get id = none → rows.TimeAgrees id row.acceptedAtUnixMs
  | .deleteClaim id => ∀ row ∈ rows.claims.get id, rows.TimeAgrees id row.acceptedAtUnixMs
  | .insertRepaired id => rows.OperationAgrees id
  | .deleteRepaired id => rows.OperationAgrees id
  | .updateRepaired id id' =>
    id ∈ rows.repairedClaims → id' ∉ rows.repairedClaims → rows.Unknown id ∧ rows.Unknown id'
  | _ => True

instance (rows : Rows) : ∀ statement : Statement, Decidable (statement.Agrees rows)
  | .insertClaim _ _ => inferInstanceAs (Decidable (_ → _))
  | .deleteClaim id => inferInstanceAs (Decidable (∀ row ∈ rows.claims.get id, _))
  | .insertRepaired id | .deleteRepaired id => inferInstanceAs (Decidable (rows.OperationAgrees id))
  | .updateRepaired _ _ => inferInstanceAs (Decidable (_ → _))
  | .updateClaim .. | .insertTombstone .. | .updateTombstone .. | .deleteTombstone ..
  | .insertOperation .. | .updateOperation .. | .deleteOperation .. | .insertRow ..
  | .updateRow .. | .deleteRow .. => isTrue trivial

namespace Database.Exact

variable {registry : Registry} {db : Database} (h : db.Exact sha512 registry)

include h

/-! ### Claims and tombstones -/

/-- The triggers on `claims` and `checkpoint_claims`. -/
theorem changeSource (id : String) {rows : Rows} {names : String → Prop}
    (htables : rows.tables = db.rows.tables)
    (hrepaired : rows.repairedClaims = db.rows.repairedClaims)
    (hoff : ∀ id', id' ≠ id → rows.sourceRow id' = db.rows.sourceRow id') {counted : Prop}
    [Decidable counted]
    (hcounted : counted → id ∉ db.rows.repairedClaims ∧ db.rows.sourceRow id = old ∧
      rows.sourceRow id = new)
    (hdelta : delta = (if new.isSome then 1 else 0) - if old.isSome then 1 else 0)
    (huncounted : ¬ counted → id ∉ db.rows.repairedClaims →
      rows.sourceRow id = db.rows.sourceRow id)
    (hrefreshes : Cache.Refreshes sha512 rows names
      (db.cache.changeSource sha512 counted old new delta) cache)
    (hpassed : ∀ operation, names operation ∨
      rows.currentOperation operation = db.rows.currentOperation operation) :
    Exact sha512 registry ⟨rows, cache⟩ := by
  have hsame : ∀ id', (id' ∉ db.rows.repairedClaims → rows.sourceRow id' = db.rows.sourceRow id') →
      rows.source id' = db.rows.source id' := by
    intro id' hrow
    rw [source, source, hrepaired]
    split
    · rfl
    · exact hrow ‹_›
  refine h.of_refreshes htables (fun _ hne => Cache.digests_changeSource_of_ne hne ..)
    (Cache.operationRows_changeSource ..) ?_ hrefreshes hpassed
  unfold Cache.changeSource
  split
  case isTrue hyes =>
    obtain ⟨hmark, hold, hnew⟩ := hcounted hyes
    have hold : db.rows.source id = old := (if_neg hmark).trans hold
    have hnew : rows.source id = new := (if_neg (hrepaired ▸ hmark)).trans hnew
    subst hold hnew
    rw [Cache.KeepsSources, Cache.digests_change_self]
    exact change h.sources (fun id' hne => hsame id' fun _ => hoff id' hne) hdelta
  case isFalse hno =>
    refine congr h.sources fun id' => hsame id' fun hmark => ?_
    by_cases heq : id' = id
    · subst heq
      exact huncounted hno hmark
    · exact hoff id' heq

theorem insertClaim (id : String) (row : ClaimRow)
    (hagrees : (Statement.insertClaim id row).Agrees db.rows) :
    (db.insertClaim sha512 id row).Exact sha512 registry := by
  unfold Database.insertClaim
  split
  case isTrue => exact h
  case isFalse hnew =>
    have hnone : db.rows.claims.get id = none := by simpa using hnew
    refine h.changeSource id rfl rfl (fun id' hne => by simp [sourceRow, hne])
      (fun hcounted => ?_) rfl (fun hcounted hrepaired => ?_) refreshes_none
      fun _ => .inr rfl
    · obtain ⟨htombstone, hrepaired⟩ := hcounted
      rw [isNone_iff_eq_none] at htombstone
      simp [sourceRow, hrepaired, hnone, htombstone]
    · -- The tombstone was counted before, and its row reads the same.
      cases htombstone : db.rows.checkpointClaims.get id with
      | none => exact (hcounted ⟨by simp [htombstone], hrepaired⟩).elim
      | some dropped =>
        have htime := hagrees hnone dropped htombstone hrepaired
        simp [sourceRow, hnone, htombstone, claimText, tombstoneText, htime]

theorem updateClaim (id id' : String) (row : ClaimRow) :
    (db.updateClaim sha512 id id' row).Exact sha512 registry := by
  unfold Database.updateClaim
  cases hold : db.rows.claims.get id with
  | none => exact h
  | some old =>
    dsimp only
    split
    case isTrue => exact h
    case isFalse =>
      refine h.changeSource id rfl rfl (fun id' hne => by simp [sourceRow, hne])
        (fun hcounted => by simp [sourceRow, hcounted.2, hold]) rfl
        (fun hcounted hrepaired => ?_) refreshes_none fun _ => .inr rfl
      have htime : old.acceptedAtUnixMs = row.acceptedAtUnixMs := by
        by_contra hne
        exact hcounted ⟨hne, hrepaired⟩
      simp [sourceRow, hold, claimText, htime]

theorem deleteClaim (id : String) (hagrees : (Statement.deleteClaim id).Agrees db.rows) :
    (db.deleteClaim sha512 id).Exact sha512 registry := by
  unfold Database.deleteClaim
  cases hold : db.rows.claims.get id with
  | none => exact h
  | some old =>
    refine h.changeSource id rfl rfl (fun id' hne => by simp [sourceRow, hne])
      (fun hcounted => ?_) rfl (fun hcounted hrepaired => ?_) refreshes_none
      fun _ => .inr rfl
    · obtain ⟨htombstone, hrepaired⟩ := hcounted
      rw [isNone_iff_eq_none] at htombstone
      simp [sourceRow, hrepaired, hold, htombstone]
    · -- The tombstone is counted from now on, and its row reads the same.
      cases htombstone : db.rows.checkpointClaims.get id with
      | none => exact (hcounted ⟨by simp [htombstone], hrepaired⟩).elim
      | some dropped =>
        have htime := hagrees old hold dropped htombstone hrepaired
        simp [sourceRow, hold, htombstone, claimText, tombstoneText, htime]

omit h in
/-- Beside a stored claim its tombstone is not counted. -/
theorem sourceRow_of_uncounted {rows : Rows} {counted : Prop} (hclaims : rows.claims = db.rows.claims)
    (huncounted : ¬ counted) (hcounted : db.rows.claims.get id = none → counted) :
    rows.sourceRow id = db.rows.sourceRow id := by
  cases hclaim : db.rows.claims.get id with
  | none => exact (huncounted (hcounted hclaim)).elim
  | some claim => simp [sourceRow, hclaims, hclaim]

theorem insertTombstone (id : String) (row : TombstoneRow) :
    (db.insertTombstone sha512 id row).Exact sha512 registry := by
  unfold Database.insertTombstone
  split
  case isTrue => exact h
  case isFalse hnew =>
    have hnone : db.rows.checkpointClaims.get id = none := by simpa using hnew
    refine h.changeSource id rfl rfl (fun id' hne => by simp [sourceRow, hne])
      (fun hcounted => ?_) rfl (fun hcounted hrepaired => ?_)
      (refreshes_dropped _) fun operation => ?_
    · obtain ⟨hclaim, hrepaired⟩ := hcounted
      rw [isNone_iff_eq_none] at hclaim
      simp [sourceRow, hrepaired, hnone, hclaim]
    · exact sourceRow_of_uncounted rfl hcounted fun hclaim => ⟨by simp [hclaim], hrepaired⟩
    · refine (currentOperation_tombstones id (fun id' hne => by simp [hne]) operation).imp_left ?_
      rintro ⟨hrow, named, hnamed, hoperation⟩
      obtain rfl : row = named := by simpa [hnone] using hnamed
      exact ⟨hoperation, hrow⟩

theorem deleteTombstone (id : String) : (db.deleteTombstone sha512 id).Exact sha512 registry := by
  unfold Database.deleteTombstone
  cases hold : db.rows.checkpointClaims.get id with
  | none => exact h
  | some old =>
    refine h.changeSource id rfl rfl (fun id' hne => by simp [sourceRow, hne])
      (fun hcounted => ?_) rfl (fun hcounted hrepaired => ?_)
      (refreshes_dropped _) fun operation => ?_
    · obtain ⟨hclaim, hrepaired⟩ := hcounted
      rw [isNone_iff_eq_none] at hclaim
      simp [sourceRow, hrepaired, hold, hclaim]
    · exact sourceRow_of_uncounted rfl hcounted fun hclaim => ⟨by simp [hclaim], hrepaired⟩
    · refine (currentOperation_tombstones id (fun id' hne => by simp [hne]) operation).imp_left ?_
      rintro ⟨hrow, named, hnamed, hoperation⟩
      obtain rfl : old = named := by simpa [hold] using hnamed
      exact ⟨hoperation, hrow⟩

theorem updateTombstone (id id' : String) (row : TombstoneRow) :
    (db.updateTombstone sha512 id id' row).Exact sha512 registry := by
  unfold Database.updateTombstone
  cases hold : db.rows.checkpointClaims.get id with
  | none => exact h
  | some old =>
    dsimp only
    split
    case isTrue => exact h
    case isFalse =>
      refine h.changeSource id rfl rfl (fun id' hne => by simp [sourceRow, hne])
        (fun hcounted => ?_) rfl (fun hcounted hrepaired => ?_)
        ((refreshes_dropped _).trans (refreshes_dropped _)) fun operation => ?_
      · obtain ⟨hclaim, -, hrepaired⟩ := hcounted
        rw [isNone_iff_eq_none] at hclaim
        simp [sourceRow, hrepaired, hold, hclaim]
      · by_cases htime : old.acceptedAtUnixMs = row.acceptedAtUnixMs
        · simp [sourceRow, hold, tombstoneText, htime]
        · exact sourceRow_of_uncounted rfl hcounted fun hclaim =>
            ⟨by simp [hclaim], htime, hrepaired⟩
      · -- An operation is refreshed by its old name or by its new one.
        refine (currentOperation_tombstones id (fun id' hne => by simp [hne]) operation).imp_left ?_
        rintro ⟨hrow, named, hnamed, hoperation⟩
        by_cases hwas : old.operationId = some operation
        · exact .inl ⟨hwas, hrow⟩
        · obtain rfl | rfl : old = named ∨ row = named := by simpa [hold] using hnamed
          · exact absurd hoperation hwas
          · have hmoved : row.operationId ≠ old.operationId := fun hsame => hwas (hsame ▸ hoperation)
            exact .inr ⟨by rw [if_neg hmoved, hoperation], hrow⟩

/-! ### Repairs -/

/-- Repairs of claims that are not known change nothing that is counted. -/
theorem repairUnknown {repaired : Finset String}
    (hsame : ∀ id, db.rows.Unknown id ∨ (id ∈ repaired ↔ id ∈ db.rows.repairedClaims)) :
    Exact sha512 registry ⟨{ db.rows with repairedClaims := repaired }, db.cache⟩ := by
  refine h.of_refreshes rfl (fun _ _ => rfl) rfl (congr h.sources fun id => ?_)
    refreshes_none fun operation => .inr ?_
  · rcases hsame id with ⟨hclaim, htombstone⟩ | hsame
    · simp [source, sourceRow, hclaim, htombstone]
    · simp only [source, hsame, sourceRow]
  · refine currentOperation_repairs fun id => (hsame id).imp_left fun hunknown => ?_
    simp [hunknown.2]

/-- The triggers on `projection_digest_repaired_claims`. -/
theorem changeRepaired {repaired : Finset String}
    (hoff : ∀ id', id' ≠ id → (id' ∈ repaired ↔ id' ∈ db.rows.repairedClaims))
    (hagrees : db.rows.OperationAgrees id) (hold : db.rows.source id = old)
    (hnew : { db.rows with repairedClaims := repaired }.source id = new)
    (hdelta : delta = (if new.isSome then 1 else 0) - if old.isSome then 1 else 0) :
    Exact sha512 registry ⟨{ db.rows with repairedClaims := repaired },
      (db.cache.change sha512 "claim_sources" old new delta).refreshRepaired sha512
        { db.rows with repairedClaims := repaired } (db.rows.repairedOperation id)⟩ := by
  refine h.of_refreshes rfl (fun _ => digests_change_of_ne) rfl ?_
    (refreshes_repaired _) fun operation => ?_
  · rw [Cache.KeepsSources, digests_change_self, ← hold, ← hnew]
    refine change h.sources (fun id' hne => ?_) (by rw [hdelta, hold, hnew])
    simp only [source, hoff id' hne, sourceRow]
  · -- The tombstone of the claim is of the operation that is refreshed, or of one with a row.
    rw [or_iff_not_imp_left]
    intro hother
    by_cases hrow : (db.rows.operations.get operation).isSome
    · exact currentOperation_of_row hrow rfl
    · refine currentOperation_repairs fun id' => ?_
      by_cases heq : id' = id
      · refine .inl fun row hget hoperation => ?_
        subst heq
        have hget : db.rows.checkpointClaims.get id' = some row := hget
        rw [repairedOperation, hget, bind_some, hoperation] at hother
        cases hclaim : db.rows.claims.get id' with
        | none => simp [hclaim] at hother
        | some claim =>
          cases hname : claim.operation with
          | none => simp [hclaim, hname] at hother
          | some name =>
            rw [hclaim, bind_some, hname, some_or] at hother
            rcases hagrees claim hclaim name hname row hget operation hoperation with
              heq | hsome
            · exact hother (congrArg some heq)
            · exact hrow hsome
      · exact .inr (hoff id' heq)

/-- A mark that comes or goes: on a claim that is not known, or with its row. -/
theorem changeMark {repaired : Finset String} {cache : String → Cache}
    (hoff : ∀ id', id' ≠ id → (id' ∈ repaired ↔ id' ∈ db.rows.repairedClaims))
    (hrow : ∀ row, db.rows.sourceRow id = some row →
      Exact sha512 registry ⟨{ db.rows with repairedClaims := repaired }, cache row⟩) :
    Exact sha512 registry (match db.rows.sourceRow id with
      | none => { db with rows := { db.rows with repairedClaims := repaired } }
      | some row => ⟨{ db.rows with repairedClaims := repaired }, cache row⟩) := by
  cases hsource : db.rows.sourceRow id with
  | none =>
    refine h.repairUnknown fun id' => ?_
    by_cases heq : id' = id
    · exact .inl (heq ▸ unknown_of_sourceRow hsource)
    · exact .inr (hoff id' heq)
  | some row => exact hrow row hsource

theorem insertRepaired (id : String) (hagrees : db.rows.OperationAgrees id) :
    (db.insertRepaired sha512 id).Exact sha512 registry := by
  unfold Database.insertRepaired
  split
  case isTrue => exact h
  case isFalse hnew =>
    have hoff : ∀ id', id' ≠ id →
        (id' ∈ insert id db.rows.repairedClaims ↔ id' ∈ db.rows.repairedClaims) :=
      fun id' hne => by simp [hne]
    refine h.changeMark hoff fun row hrow => h.changeRepaired hoff hagrees ?_ ?_ rfl
    · rw [source, if_neg hnew, hrow]
    · simp [source]

theorem deleteRepaired (id : String) (hagrees : db.rows.OperationAgrees id) :
    (db.deleteRepaired sha512 id).Exact sha512 registry := by
  unfold Database.deleteRepaired
  split
  case isTrue => exact h
  case isFalse hmarked =>
    have hoff : ∀ id', id' ≠ id →
        (id' ∈ db.rows.repairedClaims.erase id ↔ id' ∈ db.rows.repairedClaims) :=
      fun id' hne => by simp [hne]
    refine h.changeMark hoff fun row hrow => h.changeRepaired hoff hagrees ?_ ?_ rfl
    · rw [source, if_pos (not_not.mp hmarked)]
    · exact (if_neg (by simp)).trans hrow

theorem updateRepaired (id id' : String)
    (hagrees : (Statement.updateRepaired id id').Agrees db.rows) :
    (db.updateRepaired id id').Exact sha512 registry := by
  unfold Database.updateRepaired
  split
  case isTrue => exact h
  case isFalse hmoved =>
    obtain ⟨hmarked, hnew⟩ := not_or.mp hmoved
    obtain ⟨hunknown, hunknown'⟩ := hagrees (not_not.mp hmarked) hnew
    refine h.repairUnknown fun id'' => ?_
    by_cases heq : id'' = id
    · exact .inl (heq ▸ hunknown)
    · by_cases heq' : id'' = id'
      · exact .inl (heq' ▸ hunknown')
      · exact .inr (by simp [heq, heq'])

/-! ### Operations -/

/-- The triggers on `operations`. -/
theorem changeOperations {operations : TreeMap String OperationRow}
    {names : String → Prop} (hrefreshes : Cache.Refreshes sha512
      { db.rows with operations := operations } names db.cache cache)
    (hpassed : ∀ operation, ¬ names operation →
      operations.get operation = db.rows.operations.get operation) :
    Exact sha512 registry ⟨{ db.rows with operations := operations }, cache⟩ := by
  refine h.of_refreshes rfl (fun _ _ => rfl) rfl h.sources hrefreshes fun operation => ?_
  rw [or_iff_not_imp_left]
  exact fun hnot => currentOperation_congr (hpassed operation hnot) fun _ => rfl

theorem insertOperation (id : String) (row : OperationRow) :
    (db.insertOperation sha512 id row).Exact sha512 registry := by
  unfold Database.insertOperation
  split
  case isTrue => exact h
  case isFalse =>
    exact h.changeOperations (refreshes_operation id) fun operation hne => by simp [hne]

theorem deleteOperation (id : String) : (db.deleteOperation sha512 id).Exact sha512 registry := by
  unfold Database.deleteOperation
  split
  case isTrue => exact h
  case isFalse =>
    exact h.changeOperations (refreshes_operation id) fun operation hne => by simp [hne]

theorem updateOperation (id id' : String) (row : OperationRow) :
    (db.updateOperation sha512 id id' row).Exact sha512 registry := by
  unfold Database.updateOperation
  cases hold : db.rows.operations.get id with
  | none => exact h
  | some old =>
    dsimp only
    split
    case isTrue => exact h
    case isFalse =>
      split
      case isTrue hsame =>
        obtain ⟨rfl, rfl⟩ := hsame
        refine h.changeOperations refreshes_none fun operation _ => ?_
        by_cases heq : operation = id
        · simp [heq, hold]
        · simp [heq]
      case isFalse =>
        split
        case isTrue hsame =>
          subst hsame
          exact h.changeOperations (refreshes_operation id) fun operation hne => by
            simp [hne]
        case isFalse =>
          refine h.changeOperations
            ((refreshes_operation id).trans (refreshes_operation id'))
            fun operation hne => ?_
          obtain ⟨hne, hne'⟩ := not_or.mp hne
          simp [hne, hne']

/-! ### Registered tables -/

omit h in
/-- The trigger on a registered table takes off the old text of a row and adds the new one. -/
theorem changeRow_cache (sha512 : List UInt8 → Accumulator) (registry : Registry) (db : Database)
    (table : String) (key : ℕ) (new : Option Row) :
    ((db.changeRow sha512 registry table key new).cache = db.cache ∧
      ∀ columns, registry.columns table = some columns →
        new.map (rowSql columns) = db.rows.tableSource table columns key) ∨
    ∃ columns, registry.columns table = some columns ∧
      (db.changeRow sha512 registry table key new).cache =
        db.cache.change sha512 table (db.rows.tableSource table columns key)
          (new.map (rowSql columns)) ((if new.isSome then 1 else 0) -
            if ((db.rows.tables table).get key).isSome then 1 else 0) := by
  cases hcolumns : registry.columns table with
  | none => exact .inl ⟨by simp [changeRow, hcolumns], nofun⟩
  | some columns =>
    simp only [changeRow, hcolumns, tableSource, some.injEq, forall_eq',
      exists_eq_left']
    cases hold : (db.rows.tables table).get key with
    | none =>
      cases new with
      | none => exact .inl ⟨rfl, rfl⟩
      | some row => exact .inr rfl
    | some before =>
      cases new with
      | none => exact .inr rfl
      | some row =>
        dsimp only
        split
        case isTrue => exact .inr rfl
        case isFalse hsame =>
          -- The columns that are shared did not change.
          refine .inl ⟨rfl, congrArg some (congrArg jsonArray ?_)⟩
          refine List.map_congr_left fun column hcolumn => ?_
          have heq : before column = row column := by
            by_contra hne
            exact hsame (List.any_eq_true.mpr ⟨column, hcolumn, decide_eq_true hne⟩)
          rw [heq]

omit h in
theorem tableSource_changeRow (table : String) (key : ℕ) (new : Option Row) (table' : String)
    (columns : List String) (key' : ℕ) :
    (db.changeRow sha512 registry table key new).rows.tableSource table' columns key' =
      if table' = table ∧ key' = key then new.map (rowSql columns)
      else db.rows.tableSource table' columns key' := by
  by_cases htable : table' = table
  · subst htable
    by_cases hkey : key' = key
    · simp [changeRow, tableSource, hkey]
    · simp [changeRow, tableSource, hkey]
  · simp [changeRow, tableSource, htable]

theorem changeRow (table : String) (key : ℕ) (new : Option Row) :
    (db.changeRow sha512 registry table key new).Exact sha512 registry := by
  obtain ⟨hcache, hsame⟩ | ⟨columns, hcolumns, hcache⟩ :=
    changeRow_cache sha512 registry db table key new
  · constructor <;> rw [hcache]
    case tables =>
      intro table' columns hcolumns
      refine congr (h.tables table' columns hcolumns) fun key' => ?_
      rw [tableSource_changeRow]
      split
      case isTrue heq =>
        obtain ⟨rfl, rfl⟩ := heq
        exact hsame columns hcolumns
      case isFalse => rfl
    case sources => exact h.sources
    case operations => exact h.operations
    case current => exact h.current
  · obtain ⟨hne, hne'⟩ := Registry.columns_apart hcolumns
    constructor <;> rw [hcache]
    case tables =>
      intro table' columns' hcolumns'
      by_cases htable : table' = table
      · subst htable
        obtain rfl := some.inj (hcolumns.symm.trans hcolumns')
        have hself :
            (db.changeRow sha512 registry table' key new).rows.tableSource table' columns key =
              new.map (rowSql columns) := by
          rw [tableSource_changeRow, if_pos ⟨rfl, rfl⟩]
        rw [digests_change_self, ← hself]
        refine change (h.tables table' columns hcolumns) (fun key' hne => ?_) ?_
        · rw [tableSource_changeRow, if_neg fun heq => hne heq.2]
        · rw [hself, tableSource, isSome_map, isSome_map]
      · rw [digests_change_of_ne htable]
        refine congr (h.tables table' columns' hcolumns') fun key' => ?_
        rw [tableSource_changeRow, if_neg fun heq => htable heq.1]
    case sources =>
      rw [Cache.KeepsSources, digests_change_of_ne hne'.symm]
      exact h.sources
    case operations =>
      rw [Cache.KeepsOperations, digests_change_of_ne hne.symm]
      exact h.operations
    case current => exact h.current

/-! ### Every statement, and a run of them -/

theorem apply {statement : Statement} (hagrees : statement.Agrees db.rows) :
    (db.apply sha512 registry statement).Exact sha512 registry := by
  cases statement with
  | insertClaim id row => exact h.insertClaim id row hagrees
  | updateClaim id id' row => exact h.updateClaim id id' row
  | deleteClaim id => exact h.deleteClaim id hagrees
  | insertTombstone id row => exact h.insertTombstone id row
  | updateTombstone id id' row => exact h.updateTombstone id id' row
  | deleteTombstone id => exact h.deleteTombstone id
  | insertRepaired id => exact h.insertRepaired id hagrees
  | updateRepaired id id' => exact h.updateRepaired id id' hagrees
  | deleteRepaired id => exact h.deleteRepaired id hagrees
  | insertOperation id row => exact h.insertOperation id row
  | updateOperation id id' row => exact h.updateOperation id id' row
  | deleteOperation id => exact h.deleteOperation id
  | insertRow table key row =>
    simp only [Database.apply, Database.insertRow]
    split
    · exact h
    · exact h.changeRow table key (some row)
  | updateRow table key row =>
    simp only [Database.apply, Database.updateRow]
    split
    · exact h
    · exact h.changeRow table key (some row)
  | deleteRow table key => exact h.changeRow table key none

/-- An exact cache is what a scan finds. -/
theorem eq_oracle {table : String} {digest : DigestState}
    (hscan : db.rows.oracle sha512 registry table = some digest) :
    db.cache.digests table = digest := by
  unfold oracle at hscan
  split_ifs at hscan with hsources hoperations
  · subst hsources
    exact (h.sources.eq_seed db.rows.lists_sourceQuery).trans (some.inj hscan)
  · subst hoperations
    have hrows : Lists db.rows.operationRows db.cache.operationRows.get :=
      db.rows.lists_operationRows.congr h.current
    exact (eq_seed h.operations hrows).trans (some.inj hscan)
  · obtain ⟨columns, hcolumns, rfl⟩ := map_eq_some_iff.mp hscan
    exact (h.tables table columns hcolumns).eq_seed (db.rows.lists_tableRows table columns)

omit h in
theorem initializeDigests (sha512 : List UInt8 → Accumulator) (registry : Registry)
    (repairedRecords : List String) (db : Database) :
    (db.initializeDigests sha512 registry repairedRecords).Exact sha512 registry where
  tables table columns hcolumns := by
    obtain ⟨hne, hne'⟩ := Registry.columns_apart hcolumns
    have hscan : ∀ rows : Rows, rows.oracle sha512 registry table =
        some (seed sha512 table (encodeColumns columns)
          ((rows.tableRows table columns).map Prod.snd)) := fun rows => by
      rw [oracle, if_neg hne', if_neg hne, hcolumns, map_some]
    simp only [Database.initializeDigests, hscan, getD_some]
    exact of_seed (lists_tableRows _ table columns)
  sources := of_seed (lists_sourceQuery _)
  operations :=
    congr (of_seed (lists_operationRows _))
      (lists_operationRows _).get_ofLast
  current := (lists_operationRows _).get_ofLast

end Database.Exact

/-- **The cache is what a scan finds**, after any run of statements on rows that agree. -/
theorem Database.cached_eq_scan (sha512 : List UInt8 → Accumulator) (registry : Registry)
    (repairedRecords : List String) (db : Database) (statements : List Statement)
    (hagrees : Along (apply sha512 registry) (fun db statement => statement.Agrees db.rows)
      (db.initializeDigests sha512 registry repairedRecords) statements)
    (table : String) (digest : DigestState)
    (hscan : (run sha512 registry (db.initializeDigests sha512 registry repairedRecords)
      statements).rows.oracle sha512 registry table = some digest) :
    (run sha512 registry (db.initializeDigests sha512 registry repairedRecords)
      statements).cache.digests table = digest := by
  have hexact := hagrees.invariant (I := Exact sha512 registry)
    (fun _ _ hagrees h => h.apply hagrees)
    (Exact.initializeDigests sha512 registry repairedRecords db)
  exact hexact.eq_oracle hscan

/-! ### A trim beside another date

A claim's identity does not cover the time it was accepted at, so another node may have stored, and
dropped, the same claim at another time. -/

def emptyDatabase : Database := ⟨{}, ⟨fun _ => ⟨"", 0, .zero⟩, .empty, 0⟩⟩

def noTables : Registry := ⟨[], by simp⟩

/-- A claim accepted at 5 that a manifest drops, as accepted at `droppedAt`. -/
def trimming (droppedAt : ℕ) : List Statement :=
  [.insertClaim "claim" ⟨"5", some "operation"⟩,
    .insertOperation "operation" ⟨"digest", "claim", .active⟩,
    .insertTombstone "claim" ⟨droppedAt, some "operation", some "digest"⟩,
    .deleteOperation "operation",
    .deleteClaim "claim"]

/-- The store that the claim is dropped from. -/
def trimmed (sha512 : List UInt8 → Accumulator) (droppedAt : ℕ) : Database :=
  (emptyDatabase.initializeDigests sha512 noTables []).run sha512 noTables (trimming droppedAt)

/-- The last bytes of a text, for a hash. -/
def lastBytes (bytes : List UInt8) : Accumulator :=
  ⟨(bytes.reverse ++ List.replicate 64 0).take 64, by simp⟩

theorem cached_eq_scan_trimmed : (trimmed lastBytes 5).cache.digests "claim_sources" =
        seed lastBytes "claim_sources" sourceColumns [jsonArray [.text "claim", .text "5"]] :=
  cached_eq_scan lastBytes noTables [] emptyDatabase (trimming 5) (by decide +kernel)
    "claim_sources" _ (by rfl)

theorem rowHash_of_seed_eq {table columns row row' : String}
    (h : seed sha512 table columns [row] = seed sha512 table columns [row']) :
    rowHash sha512 table columns row = rowHash sha512 table columns row' := by
  have hsum := congrArg DigestState.sum h
  rw [sum_seed, sum_seed] at hsum
  simp only [List.map_cons, List.map_nil, List.sum_cons, List.sum_nil, add_zero] at hsum
  exact Word.residue_inj (Prod.mk.inj hsum).2

theorem adopted_late : ¬ ∃ sha512 : List UInt8 → Accumulator,
      rowHash sha512 "claim_sources" sourceColumns (jsonArray [.text "claim", .text "5"]) ≠
        rowHash sha512 "claim_sources" sourceColumns (jsonArray [.text "claim", .text "7"]) ∧
      some ((trimmed sha512 7).cache.digests "claim_sources") =
        (trimmed sha512 7).rows.oracle sha512 noTables "claim_sources" := by
  rintro ⟨sha512, hne, heq⟩
  have hexact : ((emptyDatabase.initializeDigests sha512 noTables []).run sha512 noTables
      (trimming 7).dropLast).Exact sha512 noTables := by
    have hagrees : Along (apply sha512 noTables)
        (fun db statement => statement.Agrees db.rows)
        (emptyDatabase.initializeDigests sha512 noTables []) (trimming 7).dropLast :=
      ⟨fun _ _ hnone => (some_ne_none _ hnone.symm).elim, trivial, trivial, trivial, trivial⟩
    exact hagrees.invariant (fun _ _ hagrees h => h.apply hagrees)
      (Database.Exact.initializeDigests ..)
  -- The trigger leaves the digest alone, since a tombstone stands for the claim.
  have hcached : (trimmed sha512 7).cache.digests "claim_sources" =
      seed sha512 "claim_sources" sourceColumns [jsonArray [.text "claim", .text "5"]] :=
    hexact.eq_oracle rfl
  have hscanned : (trimmed sha512 7).rows.oracle sha512 noTables "claim_sources" =
      some (seed sha512 "claim_sources" sourceColumns [jsonArray [.text "claim", .text "7"]]) :=
    rfl
  rw [hcached, hscanned] at heq
  exact hne (rowHash_of_seed_eq (some.inj heq))

end SmallTalk.Digest
