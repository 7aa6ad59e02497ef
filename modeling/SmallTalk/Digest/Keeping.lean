import SmallTalk.Digest.Triggers
import SmallTalk.Lib.Tally

/-!
# Digest — what a trigger does to a digest

* `Keeps.change`: a trigger that takes off the old row of a key and adds the new one keeps a digest
  the sum of its source; `Keeps.eq_seed`: such a digest is what a scan finds.
* `lists_sourceQuery`, `lists_operationRows`, `lists_tableRows`: what each scan reads.
* `currentOperation_tombstones`, `currentOperation_repairs`: what leaves the row of an operation
  as it is.
-/

namespace SmallTalk.Digest

open List TreeMap Carry Tally

variable {κ : Type*} {sha512 : List UInt8 → Accumulator} {table columns : String}

/-! ### Counts and sums -/

/-- One row, and its hash. -/
def rowWorth (sha512 : List UInt8 → Accumulator) (table columns row : String) :
    ℤ × ZMod (256 ^ 64) :=
  (1, (rowHash sha512 table columns row).residue)

/-- What a digest counts and sums. -/
def DigestState.sum (digest : DigestState) : ℤ × ZMod (256 ^ 64) :=
  (digest.rowCount, digest.accumulator.residue)

theorem residue_add (accumulator hash : Accumulator) :
    (add accumulator hash false).residue = accumulator.residue + hash.residue := by
  simp [add, Word.residue_addCarry]

theorem residue_subtract (accumulator hash : Accumulator) :
    (add accumulator hash true).residue = accumulator.residue - hash.residue := by
  simp only [add, if_true, Word.residue_addCarry, Word.residue_complement, Bool.toNat_true,
    Nat.cast_one]
  ring

theorem residue_projectionChange (accumulator : Accumulator) (old new : Option String) :
    (projectionChange sha512 accumulator table columns old new).residue =
      accumulator.residue - worth (fun row => (rowHash sha512 table columns row).residue) old +
        worth (fun row => (rowHash sha512 table columns row).residue) new := by
  cases old <;> cases new <;> simp [projectionChange, residue_add, residue_subtract]

theorem worth_rowWorth (row : Option String) : worth (rowWorth sha512 table columns) row =
      (if row.isSome then 1 else 0,
        worth (fun row => (rowHash sha512 table columns row).residue) row) := by
  cases row <;> rfl

theorem DigestState.ext_sum {d d' : DigestState} (hcolumns : d.columnsJson = d'.columnsJson)
    (hsum : d.sum = d'.sum) : d = d' := by
  obtain ⟨hcount, hresidue⟩ := Prod.mk.inj hsum
  exact DigestState.ext hcolumns hcount (Word.residue_inj hresidue)

theorem sum_seed (rows : List String) :
    (seed sha512 table columns rows).sum = (rows.map (rowWorth sha512 table columns)).sum := by
  have hzero : 0 = (((0 : ℕ) : ℤ), (Word.zero : Accumulator).residue) := by
    rw [Word.residue_zero, Nat.cast_zero, Prod.mk_zero_zero]
  rw [sum_eq_foldl, foldl_map, hzero]
  refine (foldl_hom (fun found : ℕ × Accumulator => ((found.1 : ℤ), found.2.residue))
    fun found row => ?_).symm
  simp [rowWorth, residue_add]

/-! ### Any sequence of hashes -/

/-- The `u16` of the source holds every carry with the two bytes it is added to. -/
theorem carry_lt (xs ys : List UInt8) (subtract : Bool) (x y : UInt8) :
    (addBytes xs ys subtract.toNat).2 + x.toNat + y.toNat < 2 ^ 16 := by
  have hcarry : (addBytes xs ys subtract.toNat).2 ≤ 1 := by
    induction xs generalizing ys with
    | nil => exact subtract.toNat_le
    | cons x xs ih =>
      cases ys with
      | nil => exact subtract.toNat_le
      | cons y ys =>
        have hrest := ih ys
        have hx := x.toNat_lt
        have hy := y.toNat_lt
        simp only [addBytes]
        omega
  have hx := x.toNat_lt
  have hy := y.toNat_lt
  omega

/-- The accumulator after hashes are added, or removed where marked. -/
def accumulate (accumulator : Accumulator) (changes : List (Accumulator × Bool)) : Accumulator :=
  changes.foldl (fun accumulator change => add accumulator change.1 change.2) accumulator

/-- The hashes that a sequence of changes adds, or those it removes. -/
def changed (subtract : Bool) (changes : List (Accumulator × Bool)) : Multiset Accumulator :=
  (changes.filter (·.2 == subtract)).map Prod.fst

theorem residue_accumulate (accumulator : Accumulator) (changes : List (Accumulator × Bool)) :
    (accumulate accumulator changes).residue = accumulator.residue +
      ((changed false changes).map Word.residue).sum -
        ((changed true changes).map Word.residue).sum := by
  induction changes generalizing accumulator with
  | nil => simp [accumulate, changed]
  | cons change changes ih =>
    obtain ⟨hash, subtract⟩ := change
    refine (ih (add accumulator hash subtract)).trans ?_
    cases subtract <;> simp [residue_add, residue_subtract, changed] <;> ring

theorem sum_residue (hashes : Multiset Accumulator) : (hashes.map Word.residue).sum =
    (((hashes.map (value ·.bytes)).sum : ℕ) : ZMod (256 ^ 64)) := by
  rw [Nat.cast_multiset_sum, Multiset.map_map]
  rfl

/-- **The accumulator is a sum.**  Its bytes write what was added less what was removed, modulo
`2 ^ 512`. So sequences that leave the same multiset leave the same bytes, and hashes that are
added and removed as often as each other, in any order, restore them. -/
theorem accumulate_spec (accumulator : Accumulator) (changes : List (Accumulator × Bool)) :
    (value (accumulate accumulator changes).bytes : ℤ) =
        (value accumulator.bytes + ((changed false changes).map (value ·.bytes)).sum -
          ((changed true changes).map (value ·.bytes)).sum : ℤ) % 2 ^ 512 ∧
      (∀ changes', changed false changes + changed true changes' =
          changed false changes' + changed true changes →
        accumulate accumulator changes = accumulate accumulator changes') ∧
      (changed false changes = changed true changes →
        accumulate accumulator changes = accumulator) := by
  refine ⟨?_, fun changes' hsame => Word.residue_inj ?_, fun hsame => Word.residue_inj ?_⟩
  · have hwidth : ((256 ^ 64 : ℕ) : ℤ) = 2 ^ 512 := by
      rw [Nat.cast_pow, pow_mul 2 8 64]
      norm_num
    rw [← hwidth]
    apply Word.value_eq_emod
    rw [residue_accumulate, sum_residue, sum_residue]
    simp only [Int.cast_sub, Int.cast_add, Int.cast_natCast]
    rfl
  · have hsums := congrArg (fun hashes => (hashes.map Word.residue).sum) hsame
    simp only [Multiset.map_add, Multiset.sum_add] at hsums
    rw [residue_accumulate, residue_accumulate]
    linear_combination hsums
  · rw [residue_accumulate, hsame, add_sub_cancel_right]

/-! ### A digest of a source -/

/-- A digest counts and sums the rows of a source. -/
structure Keeps (sha512 : List UInt8 → Accumulator) (table columns : String)
    (digest : DigestState) (source : κ → Option String) : Prop where
  columns_eq : digest.columnsJson = columns
  finite : HasFinite source
  sum : digest.sum = total (rowWorth sha512 table columns) source

section

variable {digest : DigestState} {source source' : κ → Option String} {rows : List (κ × String)}

theorem Keeps.of_seed (h : Lists rows source) :
    Keeps sha512 table columns (seed sha512 table columns (rows.map Prod.snd)) source where
  columns_eq := rfl
  finite := h.hasFinite
  sum := by
    rw [sum_seed, map_map]
    exact sum_listed (rowWorth sha512 table columns) h

variable (h : Keeps sha512 table columns digest source)

include h

/-- A digest of a source is what a scan of its rows finds. -/
theorem Keeps.eq_seed (hlists : Lists rows source) :
    digest = seed sha512 table columns (rows.map Prod.snd) :=
  DigestState.ext_sum h.columns_eq (h.sum.trans (Keeps.of_seed hlists).sum.symm)

theorem Keeps.congr (hsame : ∀ key, source' key = source key) : Keeps sha512 table columns digest source' := by
  rwa [funext hsame]

/-- The change that a trigger makes of a digest. -/
theorem Keeps.change {key : κ} (hoff : ∀ key', key' ≠ key → source' key' = source key') {delta : ℤ}
    (hdelta : delta = (if (source' key).isSome then 1 else 0) -
      if (source key).isSome then 1 else 0) :
    Keeps sha512 table columns { digest with
      rowCount := digest.rowCount + delta
      accumulator := projectionChange sha512 digest.accumulator table digest.columnsJson
        (source key) (source' key) } source' where
  columns_eq := h.columns_eq
  finite := h.finite.of_eq_off hoff
  sum := by
    rw [total_of_eq_off _ h.finite hoff, ← h.sum, worth_rowWorth, worth_rowWorth, hdelta,
      h.columns_eq]
    simp only [DigestState.sum, residue_projectionChange, Prod.mk_sub_mk, Prod.mk_add_mk,
      Prod.mk.injEq, and_true]
    ring

end

/-! ### The cache -/

namespace Cache

variable {cache : Cache} {rows : Rows} {old new : Option String} {delta : ℤ}

theorem digests_change_of_ne {table table' : String} (h : table' ≠ table) :
    (cache.change sha512 table old new delta).digests table' = cache.digests table' :=
  Function.update_of_ne h _ _

theorem digests_change_self (table : String) :
    (cache.change sha512 table old new delta).digests table =
      { cache.digests table with
        rowCount := (cache.digests table).rowCount + delta
        accumulator := projectionChange sha512 (cache.digests table).accumulator table
          (cache.digests table).columnsJson old new } :=
  Function.update_self (f := cache.digests) table _

theorem digests_changeSource_of_ne {table : String} (h : table ≠ "claim_sources") (counted : Prop)
    [Decidable counted] :
    (cache.changeSource sha512 counted old new delta).digests table = cache.digests table := by
  unfold changeSource
  split
  · exact digests_change_of_ne h
  · rfl

@[simp] theorem operationRows_change (table : String) :
    (cache.change sha512 table old new delta).operationRows = cache.operationRows := rfl

@[simp] theorem operationRows_changeSource (counted : Prop) [Decidable counted] :
    (cache.changeSource sha512 counted old new delta).operationRows = cache.operationRows := by
  unfold changeSource
  split <;> rfl

theorem get_refreshOperation (operation operation' : String) :
    (cache.refreshOperation sha512 rows operation).operationRows.get operation' =
      if operation' = operation then rows.currentOperation operation
      else cache.operationRows.get operation' := by
  have hrows : (cache.refreshOperation sha512 rows operation).operationRows =
      cache.operationRows.put operation (rows.currentOperation operation) := by
    by_cases hsame : cache.operationRows.get operation = rows.currentOperation operation
    · simp only [refreshOperation, if_pos hsame]
    · simp only [refreshOperation, if_neg hsame, operationRows_change]
  rw [hrows, get_put]

/-- The digest of the operations is of their cached rows. -/
def KeepsOperations (sha512 : List UInt8 → Accumulator) (cache : Cache) : Prop :=
  Keeps sha512 "operations" (encodeColumns operationColumns) (cache.digests "operations")
    cache.operationRows.get

theorem KeepsOperations.refreshOperation (h : cache.KeepsOperations sha512) (operation : String) :
    (cache.refreshOperation sha512 rows operation).KeepsOperations sha512 := by
  have hoff : ∀ operation', operation' ≠ operation →
      (cache.refreshOperation sha512 rows operation).operationRows.get operation' =
        cache.operationRows.get operation' := by
    intro operation' hne
    rw [get_refreshOperation, if_neg hne]
  have hself : (cache.refreshOperation sha512 rows operation).operationRows.get operation =
      rows.currentOperation operation := by rw [get_refreshOperation, if_pos rfl]
  have hchange := Keeps.change h hoff rfl
  rw [hself] at hchange
  unfold KeepsOperations
  by_cases hsame : cache.operationRows.get operation = rows.currentOperation operation
  · have hdigests : (cache.refreshOperation sha512 rows operation).digests = cache.digests := by
      simp only [Cache.refreshOperation, if_pos hsame]
    rw [hdigests]
    refine Keeps.congr h fun operation' => ?_
    by_cases heq : operation' = operation
    · rw [heq, hself, hsame]
    · exact hoff operation' heq
  · have hdigest : (cache.refreshOperation sha512 rows operation).digests "operations" =
        { cache.digests "operations" with
          rowCount := (cache.digests "operations").rowCount +
            ((if (rows.currentOperation operation).isSome then 1 else 0) -
              if (cache.operationRows.get operation).isSome then 1 else 0)
          accumulator := projectionChange sha512 (cache.digests "operations").accumulator
            "operations" (cache.digests "operations").columnsJson
            (cache.operationRows.get operation) (rows.currentOperation operation) } := by
      simp only [Cache.refreshOperation, if_neg hsame]
      exact digests_change_self ..
    rwa [hdigest]

/-- The cached row of an operation is its row now. -/
def Fresh (rows : Rows) (cache : Cache) (operation : String) : Prop :=
  cache.operationRows.get operation = rows.currentOperation operation

/-- From one cache to another the rows of some operations are refreshed, and nothing else. -/
structure Refreshes (sha512 : List UInt8 → Accumulator) (rows : Rows) (names : String → Prop)
    (cache cache' : Cache) : Prop where
  digests : ∀ table, table ≠ "operations" → cache'.digests table = cache.digests table
  keeps : cache.KeepsOperations sha512 → cache'.KeepsOperations sha512
  fresh : ∀ operation, names operation ∨ cache.Fresh rows operation → cache'.Fresh rows operation

section

variable {names names' : String → Prop} {cache' cache'' : Cache}

theorem Refreshes.mono (h : Refreshes sha512 rows names cache cache')
    (hsub : ∀ operation, names' operation → names operation) :
    Refreshes sha512 rows names' cache cache' :=
  ⟨h.digests, h.keeps, fun operation hrow => h.fresh operation (hrow.imp_left (hsub operation))⟩

theorem Refreshes.trans (h : Refreshes sha512 rows names cache cache')
    (h' : Refreshes sha512 rows names' cache' cache'') :
    Refreshes sha512 rows (fun operation => names operation ∨ names' operation) cache cache'' where
  digests table hne := (h'.digests table hne).trans (h.digests table hne)
  keeps := h'.keeps ∘ h.keeps
  fresh operation hrow := by
    rcases hrow with (hfirst | hsecond) | hfresh
    · exact h'.fresh operation (.inr (h.fresh operation (.inl hfirst)))
    · exact h'.fresh operation (.inl hsecond)
    · exact h'.fresh operation (.inr (h.fresh operation (.inr hfresh)))

theorem refreshes_none : Refreshes sha512 rows (fun _ => False) cache cache :=
  ⟨fun _ _ => rfl, id, fun _ hrow => hrow.resolve_left id⟩

theorem refreshes_operation (operation : String) :
    Refreshes sha512 rows (· = operation) cache (cache.refreshOperation sha512 rows operation) where
  digests table hne := by
    simp only [refreshOperation]
    split
    · rfl
    · exact digests_change_of_ne hne
  keeps h := h.refreshOperation operation
  fresh operation' h := by
    rw [Fresh, get_refreshOperation]
    by_cases heq : operation' = operation
    · rw [if_pos heq, heq]
    · rw [if_neg heq]
      exact h.resolve_left heq

theorem refreshes_dropped (name : Option String) : Refreshes sha512 rows
      (fun operation => name = some operation ∧ (rows.operations.get operation).isNone) cache
      (cache.refreshDropped sha512 rows name) := by
  cases name with
  | none => exact refreshes_none.mono fun _ h => nomatch h.1
  | some name =>
    unfold refreshDropped
    dsimp only
    split
    · exact (refreshes_operation name).mono fun _ h => (Option.some.inj h.1).symm
    · rename_i hrow
      refine refreshes_none.mono fun operation h => hrow ?_
      rw [Option.some.inj h.1]
      exact h.2

theorem refreshes_repaired (name : Option String) :
    Refreshes sha512 rows (fun operation => name = some operation) cache
      (cache.refreshRepaired sha512 rows name) := by
  cases name with
  | none => exact refreshes_none.mono nofun
  | some name => exact (refreshes_operation name).mono fun _ h => (Option.some.inj h).symm

end

end Cache

/-! ### The sources -/

namespace Rows

variable {rows rows' : Rows} {id operation : String}

/-- The claim source of a claim. -/
def source (rows : Rows) (id : String) : Option String :=
  if id ∈ rows.repairedClaims then none else rows.sourceRow id

def tableSource (rows : Rows) (table : String) (columns : List String) (key : ℕ) : Option String :=
  ((rows.tables table).get key).map (rowSql columns)

theorem lists_sourceQuery (rows : Rows) : Lists rows.sourceQuery rows.source := by
  refine ((lists_entries _ claimText).append (lists_entries _ tombstoneText)
    fun id hclaim => ?_).congr fun id => ?_
  · obtain ⟨row, hrow⟩ := Option.ne_none_iff_exists'.mp hclaim
    obtain ⟨claim, hget, -⟩ := Option.map_eq_some_iff.mp hrow
    rw [get_filter, Option.filter_eq_some_iff] at hget
    rw [get_filter, Option.map_eq_none_iff, Option.filter_eq_none_iff]
    simp [hget.1]
  · rw [get_filter, get_filter, source, sourceRow]
    cases rows.claims.get id <;> cases rows.checkpointClaims.get id <;>
      by_cases hrepaired : id ∈ rows.repairedClaims <;> simp [hrepaired, Option.filter]

theorem lists_tableRows (rows : Rows) (table : String) (columns : List String) :
    Lists (rows.tableRows table columns) (rows.tableSource table columns) :=
  lists_entries (rows.tables table) fun _ row => rowSql columns row

theorem operationFallback_eq_none (h : operation ∉ rows.droppedOperations) :
    rows.operationFallback operation = none := by
  have hnil : (rows.dropped operation).entries = [] := by
    refine eq_nil_iff_forall_not_mem.mpr fun ⟨id, row⟩ hmem => h ?_
    rw [mem_entries, dropped, get_filter, Option.filter_eq_some_iff] at hmem
    obtain ⟨hoperation, hrepaired⟩ := of_decide_eq_true hmem.2
    refine mem_dedup.mpr (mem_filterMap.mpr ⟨(id, row), ?_, hoperation⟩)
    rw [mem_entries, get_filter, Option.filter_eq_some_iff]
    exact ⟨hmem.1, by simp [hrepaired]⟩
  simp [operationFallback, hnil]

theorem lists_operationRows (rows : Rows) : Lists rows.operationRows rows.currentOperation := by
  have hnodup : rows.droppedOperations.Nodup := nodup_dedup _
  refine ((lists_entries rows.operations operationText).append
    (lists_filterMap (hnodup.filter _) rows.operationFallback)
    fun operation hrow => ?_).congr fun operation => ?_
  · rw [if_neg]
    intro hmem
    have hnone := (mem_filter.mp hmem).2
    rw [Option.isNone_iff_eq_none] at hnone
    exact hrow (by rw [hnone]; rfl)
  · rw [currentOperation]
    cases hrow : rows.operations.get operation with
    | some row => rfl
    | none =>
      by_cases hmem : operation ∈ rows.droppedOperations
      · rw [if_pos (mem_filter.mpr ⟨hmem, by simp [hrow]⟩)]
      · rw [if_neg fun h => hmem (mem_filter.mp h).1, operationFallback_eq_none hmem]

/-! ### What the row of an operation depends on -/

theorem currentOperation_of_row (hrow : (rows.operations.get operation).isSome)
    (hsame : rows'.operations.get operation = rows.operations.get operation) :
    rows'.currentOperation operation = rows.currentOperation operation := by
  rw [currentOperation, currentOperation, hsame]
  cases hget : rows.operations.get operation with
  | none => simp [hget] at hrow
  | some row => rfl

/-- An operation without a row of its own depends on its tombstones. -/
theorem currentOperation_congr
    (hsame : rows'.operations.get operation = rows.operations.get operation)
    (hdropped : ∀ id, ((rows'.checkpointClaims.get id).filter fun row =>
        row.operationId = some operation ∧ id ∉ rows'.repairedClaims) =
      (rows.checkpointClaims.get id).filter fun row =>
        row.operationId = some operation ∧ id ∉ rows.repairedClaims) :
    rows'.currentOperation operation = rows.currentOperation operation := by
  have heq : rows'.dropped operation = rows.dropped operation :=
    ext_get fun id => by
      rw [dropped, dropped, get_filter, get_filter]
      exact hdropped id
  rw [currentOperation, currentOperation, operationFallback, operationFallback, hsame, heq]

/-- A change of one tombstone leaves an operation with a row, and one that it does not name. -/
theorem currentOperation_tombstones (id : String) {tombstones : TreeMap String TombstoneRow}
    (hoff : ∀ id', id' ≠ id → tombstones.get id' = rows.checkpointClaims.get id')
    (operation : String) :
    ((rows.operations.get operation).isNone ∧ ∃ row,
      (row ∈ rows.checkpointClaims.get id ∨ row ∈ tombstones.get id) ∧
        row.operationId = some operation) ∨
    { rows with checkpointClaims := tombstones }.currentOperation operation =
      rows.currentOperation operation := by
  by_cases hrow : (rows.operations.get operation).isSome
  · exact .inr (currentOperation_of_row hrow rfl)
  rw [or_iff_not_imp_left]
  intro hnot
  refine currentOperation_congr rfl fun id' => ?_
  by_cases heq : id' = id
  · subst heq
    have hnone : ∀ found : Option TombstoneRow,
        (∀ row ∈ found, row ∈ rows.checkpointClaims.get id' ∨ row ∈ tombstones.get id') →
        (found.filter fun row =>
          row.operationId = some operation ∧ id' ∉ rows.repairedClaims) = none := by
      intro found hfound
      rw [Option.filter_eq_none_iff]
      intro row hmem hnamed
      exact hnot ⟨by simpa using hrow, row, hfound row hmem, (of_decide_eq_true hnamed).1⟩
    rw [hnone _ fun _ => .inl]
    exact hnone _ fun _ => .inr
  · rw [hoff id' heq]

/-- The repairs of claims whose tombstones are of other operations say nothing of this one. -/
theorem currentOperation_repairs {repaired : Finset String}
    (hsame : ∀ id, (∀ row ∈ rows.checkpointClaims.get id, row.operationId ≠ some operation) ∨
      (id ∈ repaired ↔ id ∈ rows.repairedClaims)) :
    { rows with repairedClaims := repaired }.currentOperation operation =
      rows.currentOperation operation := by
  refine currentOperation_congr rfl fun id => ?_
  cases hget : rows.checkpointClaims.get id with
  | none => rfl
  | some row =>
    rcases hsame id with hother | hsame
    · simp [Option.filter, hother row hget]
    · simp only [hsame]

end Rows

end SmallTalk.Digest
