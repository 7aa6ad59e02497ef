import SmallTalk.Data.Json
import SmallTalk.Lib.Carry
import SmallTalk.Lib.TreeMap

/-!
# Digest — projection digests kept by triggers

Each source of the graph has a row in `projection_digest_state`: the count of its rows and the sum
of their hashes, 64 bytes wide. Triggers keep that row up to date, a change of a row at a time.

The registered tables are sources of their own rows. The source `claim_sources` has one row for
each claim that is stored or that a tombstone stands for, less the repaired ones. The source
`operations` has the rows of the operations table, and for each operation whose claims have all
been dropped a row made from their tombstones; the triggers keep the last row of each operation in
`projection_digest_operation_rows`, to know what to take off.

`scan` reads a source from the start, and `initializeDigests` fills the cache with it.
-/

namespace SmallTalk.Digest

open Carry

/-! ### Rows as text -/

/-- A value in a column. -/
inductive SqlValue where
  | null
  | integer (n : ℤ)
  | text (s : String)
  | blob (bytes : List UInt8)
  deriving DecidableEq, Repr

/-- Two hexadecimal digits. -/
def hexByte (byte : UInt8) : String :=
  String.ofList [(Nat.digitChar (byte.toNat / 16)).toUpper, (Nat.digitChar (byte.toNat % 16)).toUpper]

def hexBytes (bytes : List UInt8) : String := String.join (bytes.map hexByte)

namespace SqlValue

/-- A text, or `NULL`. -/
def ofOption : Option String → SqlValue
  | some s => .text s
  | none => .null

/-- `json_array` of one value. SQLite refuses a blob there, and the statement fails with it. -/
def json : SqlValue → Json
  | .null => .null
  | .integer (.ofNat n) => .num (.nat n)
  | .integer (.negSucc n) => .num (.neg n)
  | .text s => .str s
  | .blob bytes => .str (hexBytes bytes)

/-- `hex`, of the text of a value that is no blob. -/
def hex : SqlValue → SqlValue
  | .null => .text ""
  | .integer n => .text (hexBytes (toString n).toUTF8.data.toList)
  | .text s => .text (hexBytes s.toUTF8.data.toList)
  | .blob bytes => .text (hexBytes bytes)

end SqlValue

def jsonArray (values : List SqlValue) : String := (Json.arr (values.map SqlValue.json)).text

/-- A row of a registered table, by column. -/
abbrev Row := String → SqlValue

/-- The columns of a table that are shared, in the order of their names. -/
def columns (tableInfo excluded : List String) : List String :=
  (tableInfo.filter (· ∉ excluded)).mergeSort

def rowSql (columns : List String) (row : Row) : String :=
  jsonArray (columns.map fun column =>
    if column = "bytes" ∨ column = "binding_key" then (row column).hex else row column)

/-- `serde_json::to_string` of the column names. -/
def encodeColumns (columns : List String) : String := (Json.arr (columns.map .str)).text

/-! ### The accumulator -/

/-- A hash, and a sum of hashes. -/
abbrev Accumulator := Word 64

/-- A length as eight bytes, most significant first. -/
def beBytes (n : ℕ) : List UInt8 :=
  (List.range 8).map fun i => UInt8.ofNat (n / 256 ^ (7 - i))

def rowHash (sha512 : List UInt8 → Accumulator) (table columns row : String) : Accumulator :=
  sha512 ("st3-projection-row-v1".toUTF8.data.toList ++ [0] ++
    [table, columns, row].flatMap fun value =>
      beBytes value.utf8ByteSize ++ value.toUTF8.data.toList)

/-- Add a hash, or take it off: its complement, with a carry. -/
def add (accumulator hash : Accumulator) (subtract : Bool) : Accumulator :=
  accumulator.addCarry (if subtract then hash.complement else hash) subtract.toNat

/-- A row of `projection_digest_state`. -/
@[ext]
structure DigestState where
  columnsJson : String
  rowCount : ℤ
  accumulator : Accumulator
  deriving DecidableEq

/-- `scan`: the count and the sum of the rows of a source. -/
def scan (sha512 : List UInt8 → Accumulator) (table columns : String) (rows : List String) :
    ℕ × Accumulator :=
  rows.foldl (fun (count, accumulator) row =>
    (count + 1, add accumulator (rowHash sha512 table columns row) false)) (0, .zero)

/-- `seed`: what is cached of a source that has just been scanned. -/
def seed (sha512 : List UInt8 → Accumulator) (table columns : String) (rows : List String) :
    DigestState :=
  let (count, accumulator) := scan sha512 table columns rows
  ⟨columns, count, accumulator⟩

/-- `st_projection_change`: take the old row off and add the new one. -/
def projectionChange (sha512 : List UInt8 → Accumulator) (accumulator : Accumulator)
    (table columns : String) (old new : Option String) : Accumulator :=
  [(old, true), (new, false)].foldl (fun accumulator (row, subtract) =>
    match row with
    | some row => add accumulator (rowHash sha512 table columns row) subtract
    | none => accumulator) accumulator

/-! ### The tables the triggers read -/

/-- A row of `claims`: its acceptance time and `$._operation.id` of its body. -/
structure ClaimRow where
  acceptedAtUnixMs : String
  operation : Option String
  deriving DecidableEq, Repr

/-- A row of `checkpoint_claims`. -/
structure TombstoneRow where
  acceptedAtUnixMs : ℕ
  operationId : Option String
  requestDigest : Option String
  deriving DecidableEq, Repr

inductive OperationState where
  | active
  | conflict
  deriving DecidableEq, Repr

def OperationState.text : OperationState → String
  | .active => "active"
  | .conflict => "conflict"

structure OperationRow where
  requestDigest : String
  canonicalClaimId : String
  state : OperationState
  deriving DecidableEq, Repr

/-- The rows that digests are about. The rows of a registered table are named by numbers that a
row keeps as long as it is stored. -/
structure Rows where
  claims : TreeMap String ClaimRow := .empty
  checkpointClaims : TreeMap String TombstoneRow := .empty
  repairedClaims : Finset String := ∅
  operations : TreeMap String OperationRow := .empty
  tables : String → TreeMap ℕ Row := fun _ => .empty

/-- The registered tables apart from `operations`, with their shared columns. -/
structure Registry where
  tables : List (String × List String)
  apart : ∀ entry ∈ tables, entry.1 ≠ "operations" ∧ entry.1 ≠ "claim_sources"

/-- The names are keys of `projection_digest_state`. -/
def Registry.columns (registry : Registry) (table : String) : Option (List String) :=
  registry.tables.lookup table

namespace Rows

variable (rows : Rows)

def claimText (id : String) (row : ClaimRow) : String :=
  jsonArray [.text id, .text row.acceptedAtUnixMs]

def tombstoneText (id : String) (row : TombstoneRow) : String :=
  jsonArray [.text id, .text (toString row.acceptedAtUnixMs)]

/-- `source_query`: the claim sources, by claim. -/
def sourceQuery : List (String × String) :=
  (rows.claims.filter fun id _ => id ∉ rows.repairedClaims).entries.map
      (fun entry => (entry.1, claimText entry.1 entry.2)) ++
    (rows.checkpointClaims.filter fun id _ =>
        (rows.claims.get id).isNone ∧ id ∉ rows.repairedClaims).entries.map
      fun entry => (entry.1, tombstoneText entry.1 entry.2)

def operationText (id : String) (row : OperationRow) : String :=
  jsonArray [.text row.canonicalClaimId, .text id, .text row.requestDigest, .text row.state.text]

/-- The tombstones of an operation's claims, less repaired ones. -/
def dropped (operation : String) : TreeMap String TombstoneRow :=
  rows.checkpointClaims.filter fun id row =>
    row.operationId = some operation ∧ id ∉ rows.repairedClaims

/-- `operation_fallback`: the row of an operation that tombstones stand for. -/
def operationFallback (operation : String) : Option String :=
  let dropped := (rows.dropped operation).entries
  let digests := dropped.filterMap fun entry => entry.2.requestDigest
  let least := digests.min?
  let canonical := ((dropped.filter fun entry =>
    entry.2.requestDigest.isSome ∧ entry.2.requestDigest = least).map Prod.fst).min?
  if dropped = [] then none else
    some (jsonArray [.ofOption canonical, .text operation, .ofOption least,
      .text (if 1 < digests.dedup.length then "conflict" else "active")])

/-- The row of an operation: the one in the table, or else the one its tombstones give. -/
def currentOperation (operation : String) : Option String :=
  ((rows.operations.get operation).map (operationText operation)).or
    (rows.operationFallback operation)

/-- The operations that unrepaired tombstones name. -/
def droppedOperations : List String :=
  ((rows.checkpointClaims.filter fun id _ => id ∉ rows.repairedClaims).entries.filterMap
    fun entry => entry.2.operationId).dedup

/-- `operation_rows`: the rows of the operations, by operation. -/
def operationRows : List (String × String) :=
  rows.operations.entries.map (fun entry => (entry.1, operationText entry.1 entry.2)) ++
    (rows.droppedOperations.filter fun operation => (rows.operations.get operation).isNone).filterMap
      fun operation => (rows.operationFallback operation).map (operation, ·)

/-- `SELECT row FROM table`. -/
def tableRows (table : String) (columns : List String) : List (ℕ × String) :=
  (rows.tables table).entries.map fun entry => (entry.1, rowSql columns entry.2)

/-- The row of a claim, stored or dropped, which a repair adds or takes off. -/
def sourceRow (id : String) : Option String :=
  ((rows.claims.get id).map (claimText id)).or ((rows.checkpointClaims.get id).map (tombstoneText id))

/-- The operation of a claim, stored or dropped. -/
def repairedOperation (id : String) : Option String :=
  ((rows.claims.get id).bind ClaimRow.operation).or
    ((rows.checkpointClaims.get id).bind TombstoneRow.operationId)

end Rows

/-! ### The cache -/

def sourceColumns : String := encodeColumns ["id", "accepted_at_unix_ms"]

def operationColumns : List String :=
  columns ["id", "request_digest", "canonical_claim_id", "state"] []

/-- `projection_digest_state`, `projection_digest_operation_rows` and
`projection_digest_generation`. -/
structure Cache where
  digests : String → DigestState
  operationRows : TreeMap String String
  generation : ℕ

section

variable (sha512 : List UInt8 → Accumulator) (registry : Registry)

namespace Cache

/-- `change_sql`. -/
def change (cache : Cache) (table : String) (old new : Option String) (delta : ℤ) : Cache :=
  let digest := cache.digests table
  { cache with
    digests := Function.update cache.digests table { digest with
      rowCount := digest.rowCount + delta
      accumulator :=
        projectionChange sha512 digest.accumulator table digest.columnsJson old new }
    generation := cache.generation + 1 }

/-- `refresh_operation`: replace the cached row of an operation by its current one. -/
def refreshOperation (rows : Rows) (operation : String) (cache : Cache) : Cache :=
  let previous := cache.operationRows.get operation
  let current := rows.currentOperation operation
  let cache := if previous = current then cache else
    cache.change sha512 "operations" previous current
      ((if current.isSome then 1 else 0) - if previous.isSome then 1 else 0)
  { cache with operationRows := cache.operationRows.put operation current }

/-- The triggers on `claims` and `checkpoint_claims` count a claim by either of its rows. -/
def changeSource (cache : Cache) (counted : Prop) [Decidable counted] (old new : Option String)
    (delta : ℤ) : Cache :=
  if counted then cache.change sha512 "claim_sources" old new delta else cache

/-- The triggers on `checkpoint_claims` for an operation, which has a row of its own or not. -/
def refreshDropped (rows : Rows) (operation : Option String) (cache : Cache) : Cache :=
  match operation with
  | some operation =>
    if (rows.operations.get operation).isNone then
      cache.refreshOperation sha512 rows operation
    else cache
  | none => cache

/-- The part of the trigger on a repair that follows the change of the claim's source. -/
def refreshRepaired (rows : Rows) (operation : Option String) (cache : Cache) : Cache :=
  match operation with
  | some operation => cache.refreshOperation sha512 rows operation
  | none => cache

end Cache

/-- A store: the rows, and what is cached of them. -/
structure Database where
  rows : Rows
  cache : Cache

/-- `oracle`: what a scan of a source finds. -/
def Rows.oracle (rows : Rows) (table : String) : Option DigestState :=
  if table = "claim_sources" then
    some (seed sha512 table sourceColumns (rows.sourceQuery.map Prod.snd))
  else if table = "operations" then
    some (seed sha512 table (encodeColumns operationColumns) (rows.operationRows.map Prod.snd))
  else (registry.columns table).map fun columns =>
    seed sha512 table (encodeColumns columns) ((rows.tableRows table columns).map Prod.snd)

/-- When the registry is new, every source is scanned. -/
def Database.initializeDigests (repairedRecords : List String) (db : Database) : Database :=
  let rows := { db.rows with
    repairedClaims := db.rows.repairedClaims ∪ repairedRecords.toFinset }
  { rows
    cache :=
      { digests := fun table =>
          (rows.oracle sha512 registry table).getD (db.cache.digests table)
        operationRows := TreeMap.ofLast some rows.operationRows
        generation := db.cache.generation + 1 } }

namespace Database

variable (db : Database) (id : String)

/-! ### Statements on one row, with their triggers

One that a constraint or a trigger refuses changes nothing. -/

def insertClaim (row : ClaimRow) : Database :=
  if (db.rows.claims.get id).isSome then db else
    { rows := { db.rows with claims := db.rows.claims.insert id row }
      cache := db.cache.changeSource sha512
        ((db.rows.checkpointClaims.get id).isNone ∧ id ∉ db.rows.repairedClaims)
        none (some (Rows.claimText id row)) 1 }

/-- The identity of a claim source is immutable: a trigger refuses to change it. -/
def updateClaim (id id' : String) (row : ClaimRow) : Database :=
  match db.rows.claims.get id with
  | none => db
  | some old =>
    if id ≠ id' then db else
      { rows := { db.rows with claims := db.rows.claims.insert id row }
        cache := db.cache.changeSource sha512
          (old.acceptedAtUnixMs ≠ row.acceptedAtUnixMs ∧ id ∉ db.rows.repairedClaims)
          (some (Rows.claimText id old)) (some (Rows.claimText id row)) 0 }

def deleteClaim : Database :=
  match db.rows.claims.get id with
  | none => db
  | some old =>
    { rows := { db.rows with claims := db.rows.claims.erase id }
      cache := db.cache.changeSource sha512
        ((db.rows.checkpointClaims.get id).isNone ∧ id ∉ db.rows.repairedClaims)
        (some (Rows.claimText id old)) none (-1) }

def insertTombstone (row : TombstoneRow) : Database :=
  if (db.rows.checkpointClaims.get id).isSome then db else
    let rows := { db.rows with checkpointClaims := db.rows.checkpointClaims.insert id row }
    { rows
      cache := (db.cache.changeSource sha512
          ((db.rows.claims.get id).isNone ∧ id ∉ db.rows.repairedClaims)
          none (some (Rows.tombstoneText id row)) 1).refreshDropped sha512 rows row.operationId }

def updateTombstone (id id' : String) (row : TombstoneRow) : Database :=
  match db.rows.checkpointClaims.get id with
  | none => db
  | some old =>
    if id ≠ id' then db else
      let rows := { db.rows with checkpointClaims := db.rows.checkpointClaims.insert id row }
      let cache := db.cache.changeSource sha512
        ((db.rows.claims.get id).isNone ∧ old.acceptedAtUnixMs ≠ row.acceptedAtUnixMs ∧
          id ∉ db.rows.repairedClaims)
        (some (Rows.tombstoneText id old)) (some (Rows.tombstoneText id row)) 0
      { rows
        cache := (cache.refreshDropped sha512 rows old.operationId).refreshDropped sha512 rows
          (if row.operationId = old.operationId then none else row.operationId) }

def deleteTombstone : Database :=
  match db.rows.checkpointClaims.get id with
  | none => db
  | some old =>
    let rows := { db.rows with checkpointClaims := db.rows.checkpointClaims.erase id }
    { rows
      cache := (db.cache.changeSource sha512
          ((db.rows.claims.get id).isNone ∧ id ∉ db.rows.repairedClaims)
          (some (Rows.tombstoneText id old)) none (-1)).refreshDropped sha512 rows
        old.operationId }

def insertRepaired : Database :=
  if id ∈ db.rows.repairedClaims then db else
    let rows := { db.rows with repairedClaims := insert id db.rows.repairedClaims }
    match db.rows.sourceRow id with
    | none => { db with rows }
    | some row =>
      { rows
        cache := (db.cache.change sha512 "claim_sources" (some row) none (-1)).refreshRepaired
          sha512 rows (db.rows.repairedOperation id) }

/-- There is no trigger on an update. -/
def updateRepaired (id id' : String) : Database :=
  if id ∉ db.rows.repairedClaims ∨ id' ∈ db.rows.repairedClaims then db else
    { db with rows := { db.rows with
        repairedClaims := insert id' (db.rows.repairedClaims.erase id) } }

def deleteRepaired : Database :=
  if id ∉ db.rows.repairedClaims then db else
    let rows := { db.rows with repairedClaims := db.rows.repairedClaims.erase id }
    match db.rows.sourceRow id with
    | none => { db with rows }
    | some row =>
      { rows
        cache := (db.cache.change sha512 "claim_sources" none (some row) 1).refreshRepaired
          sha512 rows (db.rows.repairedOperation id) }

def insertOperation (row : OperationRow) : Database :=
  if (db.rows.operations.get id).isSome then db else
    let rows := { db.rows with operations := db.rows.operations.insert id row }
    { rows, cache := db.cache.refreshOperation sha512 rows id }

def updateOperation (id id' : String) (row : OperationRow) : Database :=
  match db.rows.operations.get id with
  | none => db
  | some old =>
    if id ≠ id' ∧ (db.rows.operations.get id').isSome then db else
      let rows := { db.rows with operations := (db.rows.operations.erase id).insert id' row }
      if id = id' ∧ old = row then { db with rows } else
        let cache := db.cache.refreshOperation sha512 rows id
        { rows
          cache := if id = id' then cache else cache.refreshOperation sha512 rows id' }

def deleteOperation : Database :=
  if (db.rows.operations.get id).isNone then db else
    let rows := { db.rows with operations := db.rows.operations.erase id }
    { rows, cache := db.cache.refreshOperation sha512 rows id }

/-- The triggers on a registered table. Other tables have none. -/
def changeRow (registry : Registry) (table : String) (key : ℕ) (new : Option Row) : Database :=
  let old := (db.rows.tables table).get key
  let rows := { db.rows with
    tables := Function.update db.rows.tables table ((db.rows.tables table).put key new) }
  { rows
    cache := match registry.columns table with
      | none => db.cache
      | some columns =>
        let text := Option.map (rowSql columns)
        match old, new with
        | none, none => db.cache
        | none, some _ => db.cache.change sha512 table none (text new) 1
        | some _, none => db.cache.change sha512 table (text old) none (-1)
        | some before, some after =>
          if columns.any fun column => before column ≠ after column then
            db.cache.change sha512 table (text old) (text new) 0
          else db.cache }

def insertRow (registry : Registry) (table : String) (key : ℕ) (row : Row) : Database :=
  if ((db.rows.tables table).get key).isSome then db else
    db.changeRow sha512 registry table key (some row)

def updateRow (registry : Registry) (table : String) (key : ℕ) (row : Row) : Database :=
  if ((db.rows.tables table).get key).isNone then db else
    db.changeRow sha512 registry table key (some row)

end Database

/-- One statement on one row. `REPLACE` deletes the row it replaces, with its triggers, and then
inserts; an upsert inserts or updates; a statement on many rows takes them one by one. -/
inductive Statement where
  | insertClaim (id : String) (row : ClaimRow)
  | updateClaim (id id' : String) (row : ClaimRow)
  | deleteClaim (id : String)
  | insertTombstone (id : String) (row : TombstoneRow)
  | updateTombstone (id id' : String) (row : TombstoneRow)
  | deleteTombstone (id : String)
  | insertRepaired (id : String)
  | updateRepaired (id id' : String)
  | deleteRepaired (id : String)
  | insertOperation (id : String) (row : OperationRow)
  | updateOperation (id id' : String) (row : OperationRow)
  | deleteOperation (id : String)
  | insertRow (table : String) (key : ℕ) (row : Row)
  | updateRow (table : String) (key : ℕ) (row : Row)
  | deleteRow (table : String) (key : ℕ)

namespace Database

def apply (db : Database) : Statement → Database
  | .insertClaim id row => db.insertClaim sha512 id row
  | .updateClaim id id' row => db.updateClaim sha512 id id' row
  | .deleteClaim id => db.deleteClaim sha512 id
  | .insertTombstone id row => db.insertTombstone sha512 id row
  | .updateTombstone id id' row => db.updateTombstone sha512 id id' row
  | .deleteTombstone id => db.deleteTombstone sha512 id
  | .insertRepaired id => db.insertRepaired sha512 id
  | .updateRepaired id id' => db.updateRepaired id id'
  | .deleteRepaired id => db.deleteRepaired sha512 id
  | .insertOperation id row => db.insertOperation sha512 id row
  | .updateOperation id id' row => db.updateOperation sha512 id id' row
  | .deleteOperation id => db.deleteOperation sha512 id
  | .insertRow table key row => db.insertRow sha512 registry table key row
  | .updateRow table key row => db.updateRow sha512 registry table key row
  | .deleteRow table key => db.changeRow sha512 registry table key none

def run (db : Database) (statements : List Statement) : Database :=
  statements.foldl (apply sha512 registry) db

end Database

end

end SmallTalk.Digest
