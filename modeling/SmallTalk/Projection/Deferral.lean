import SmallTalk.Lib.Sorted
import Mathlib.Logic.Function.Iterate

/-!
# Projection — deferring, and clearing the deferral

`project_replication_backlog_chunks`, `defer_replication_projection` and the admission transactions
of `validate_replication_backlog`, as one machine. The parties share the database behind the
writer's connection, the committed index, and `replication_projection_state`: a word whose low bit
says that admitted claims wait for a projection and whose other bits count the deferrals. A pass
samples the word while it holds the writer, gives the writer back, reads the index, and clears the
bit only if the word is still the sampled one.

An event is one step of one party at the writer or at an atomic; one that cannot happen in a state
changes nothing, so every list of events is an interleaving.

* `iterate_deferWord`: what the word is after deferrals.
* `step`: what each party does.
-/

namespace SmallTalk.Projection

variable (db : Database)

/-! ### The word -/

/-- `state.wrapping_add(2) | 1`. -/
def deferWord (word : ℕ) : ℕ := (word + 2) % 2 ^ 64 / 2 * 2 + 1

/-- `state & !1`. -/
def clearWord (word : ℕ) : ℕ := word / 2 * 2

/-- `state & 1 != 0`. -/
def isDeferred (word : ℕ) : Bool := word % 2 = 1

theorem deferWord_odd (word : ℕ) : deferWord word % 2 = 1 := by
  unfold deferWord
  omega

theorem deferWord_lt (word : ℕ) : deferWord word < 2 ^ 64 := by
  unfold deferWord
  omega

/-- The low bit aside, a deferral counts. -/
theorem iterate_deferWord {word : ℕ} (hodd : word % 2 = 1) (hlt : word < 2 ^ 64) (n : ℕ) :
    deferWord^[n] word = (word + 2 * n) % 2 ^ 64 := by
  induction n with
  | zero => exact (Nat.mod_eq_of_lt hlt).symm
  | succ n ih =>
    rw [Function.iterate_succ_apply', ih, deferWord]
    omega

/-- The word does not come back before `2 ^ 63` deferrals. -/
theorem iterate_deferWord_ne {word n : ℕ} (hodd : word % 2 = 1) (hlt : word < 2 ^ 64)
    (hpos : n ≠ 0) (hn : n < 2 ^ 63) : deferWord^[n] word ≠ word := by
  rw [iterate_deferWord hodd hlt]
  omega

/-! ### The database -/

/-- A row of `claims`. A replicated one came in by an admission. -/
structure ClaimRow where
  storeIndex : ℕ
  replicated : Bool
  deriving DecidableEq, Repr

structure Database where
  claims : List ClaimRow := []
  /-- The `sqlite_sequence` of `claims`. -/
  sequence : ℕ := 0
  /-- `last_good_store_index` of the graph's `projection_health`. -/
  frontier : ℕ := 0
  deriving DecidableEq, Repr

/-- At most this many claims are projected in one transaction. -/
def projectionChunkClaims : ℕ := 128

namespace Database

def currentIndex : ℕ :=
  max ((db.claims.map (·.storeIndex)).foldr max 0) db.sequence

/-- Insert `count` claims, each at the next index. -/
def insertClaims (count : ℕ) (replicated : Bool) : Database :=
  { db with
    claims := db.claims ++ (List.range count).map fun i =>
      ⟨db.currentIndex + 1 + i, replicated⟩
    sequence := db.currentIndex + count }

/-- The index a chunk projects through, in a pass towards `target`. -/
def chunkEnd (target : ℕ) : ℕ :=
  let waiting := (db.claims.map ClaimRow.storeIndex).filter fun i => db.frontier < i ∧ i ≤ target
  ((waiting.insertionSort (· ≤ ·)).take projectionChunkClaims).max?.getD (max target db.frontier)

/-- The projection has reached every admitted claim. -/
def Covered : Prop :=
  ∀ row ∈ db.claims, row.replicated = true → row.storeIndex ≤ db.frontier

instance instDecidableCovered (db : Database) : Decidable db.Covered :=
  inferInstanceAs (Decidable (∀ row ∈ db.claims, _ → _))

/-- Every admitted claim is at or below `n`. -/
def AdmittedUpTo (n : ℕ) : Prop :=
  ∀ row ∈ db.claims, row.replicated = true → row.storeIndex ≤ n

theorem admittedUpTo_currentIndex : db.AdmittedUpTo db.currentIndex := by
  intro row hrow _
  have hmem : row.storeIndex ∈ db.claims.map (·.storeIndex) := List.mem_map_of_mem hrow
  exact (Sorted.le_foldr_max hmem 0).trans (le_max_left _ _)

theorem frontier_le_chunkEnd (target : ℕ) : db.frontier ≤ db.chunkEnd target := by
  unfold chunkEnd
  dsimp only
  generalize hwaiting : (db.claims.map ClaimRow.storeIndex).filter _ = waiting
  cases hmax : ((waiting.insertionSort (· ≤ ·)).take projectionChunkClaims).max? with
  | none => exact le_max_right _ _
  | some i =>
    have hmem := List.mem_of_mem_take (List.max?_mem hmax)
    rw [List.mem_insertionSort, ← hwaiting, List.mem_filter, decide_eq_true_eq] at hmem
    exact hmem.2.1.le

/-- Local claims admit nothing. -/
theorem mem_insertClaims_local {db : Database} {count : ℕ} {row : ClaimRow}
    (hrow : row ∈ (db.insertClaims count false).claims) (hrep : row.replicated = true) :
    row ∈ db.claims := by
  rcases List.mem_append.mp hrow with h | h
  · exact h
  · obtain ⟨i, -, rfl⟩ := List.mem_map.mp h
    cases hrep

end Database

/-! ### The machine -/

/-- Who holds the writer. -/
inductive Owner where
  | pass | admission | other
  deriving DecidableEq, Repr

/-- Where a pass goes once it has given the writer back. -/
inductive After where
  | again (target : ℕ)
  | finish (through sample : ℕ)
  | leave
  deriving DecidableEq, Repr

/-- Where the pass is. The `projection` lock lets in one at a time. -/
inductive Pass where
  | idle
  | entered
  | marked
  | ready (target : ℕ)
  | projecting (target : ℕ)
  | committed (target through : ℕ)
  /-- Dropping the writer's guard: the index is stored, and then the connection given back. -/
  | dropping (stored : Bool) (after : After)
  | finishing (through sample : ℕ)
  | clearing (sample : ℕ) (pending : Bool)
  deriving DecidableEq, Repr

/-- Where the admission is. The `admission` lock lets in one at a time. -/
inductive Admission where
  | idle
  | between
  | writing
  | marked
  | dropping (stored : Bool)
  deriving DecidableEq, Repr

/-- Where another write is, such as an append of a local claim. -/
inductive Other where
  | idle
  | writing
  | dropping (stored : Bool)
  deriving DecidableEq, Repr

structure State where
  db : Database := {}
  committedIndex : ℕ := 0
  /-- `replication_projection_state`, a `u64`. -/
  word : ℕ := 0
  writer : Option Owner := none
  pass : Pass := .idle
  admission : Admission := .idle
  other : Other := .idle
  /-- The deferrals since the last sample. No step reads it. -/
  since : ℕ := 0
  deriving DecidableEq, Repr

/-- How a projection that succeeds went. -/
inductive Projected where
  | incremental | replayed
  deriving DecidableEq, Repr

inductive Event where
  /-- A catch-up deferral. -/
  | defer
  | passEnter | passMark | passTarget | passLend
  | passProject (how : Projected)
  | passSample | passReadIndex | passClear
  /-- The projection failed, or a statement did. -/
  | passFail
  | admitEnter | admitLend | admitMark
  | admitCommit (claims : ℕ)
  | admitRollback | admitLeave
  | otherLend
  | otherCommit (claims : ℕ)
  /-- A guard that is dropped stores the index. -/
  | storeIndex (owner : Owner)
  | giveBack (owner : Owner)
  deriving DecidableEq, Repr

namespace State

def deferReplicationProjection (s : State) : State :=
  { s with word := deferWord s.word, since := s.since + 1 }

/-- A store opened on a database. -/
def opened : State := { db, committedIndex := db.currentIndex }

/-- The projection of one chunk, committed. -/
def project (s : State) (target : ℕ) (how : Projected) : State :=
  let through := match how with
    | .incremental => s.db.chunkEnd target
    -- A fallback replay folds the whole log.
    | .replayed => s.db.currentIndex
  { s with db := { s.db with frontier := through }, pass := .committed target through }

/-- Clear the bit, unless something is pending or the word has moved on. -/
def clear (s : State) (sample : ℕ) (pending : Bool) : State :=
  { s with
    word := if pending = false ∧ s.word = sample then clearWord sample else s.word
    pass := .idle }

/-- The pass gives the writer back. -/
def continuePass (s : State) (after : After) : State :=
  { s with
    writer := none
    pass := match after with
      | .again target => .ready target
      | .finish through sample => .finishing through sample
      | .leave => .idle }

end State

def step (s : State) : Event → State
  | .defer => s.deferReplicationProjection
  | .passEnter => match s.pass with
    | .idle => { s with pass := .entered }
    | _ => s
  | .passMark => match s.pass with
    | .entered => { s.deferReplicationProjection with pass := .marked }
    | _ => s
  | .passTarget => match s.pass with
    | .marked => { s with pass := .ready s.committedIndex }
    | _ => s
  | .passLend => match s.pass, s.writer with
    | .ready target, none => { s with pass := .projecting target, writer := some .pass }
    | _, _ => s
  | .passProject how => match s.pass with
    | .projecting target => s.project target how
    | _ => s
  | .passSample => match s.pass with
    | .committed target through =>
      { s with
        since := 0
        pass := .dropping false
          (if through < target then .again target else .finish through s.word) }
    | _ => s
  | .passReadIndex => match s.pass with
    | .finishing through sample => { s with pass := .clearing sample (through < s.committedIndex) }
    | _ => s
  | .passClear => match s.pass with
    | .clearing sample pending => s.clear sample pending
    | _ => s
  | .passFail => match s.pass with
    | .projecting _ => { s with pass := .dropping false .leave }
    | .entered | .marked | .ready _ | .finishing _ _ => { s with pass := .idle }
    | _ => s
  | .admitEnter => match s.admission with
    | .idle => { s with admission := .between }
    | _ => s
  | .admitLend => match s.admission, s.writer with
    | .between, none => { s with admission := .writing, writer := some .admission }
    | _, _ => s
  | .admitMark => match s.admission with
    | .writing => { s.deferReplicationProjection with admission := .marked }
    | _ => s
  | .admitCommit claims => match s.admission with
    -- Without a change there is nothing to insert.
    | .writing => { s with admission := .dropping false }
    | .marked => { s with db := s.db.insertClaims claims true, admission := .dropping false }
    | _ => s
  | .admitRollback => match s.admission with
    | .writing | .marked => { s with admission := .dropping false }
    | _ => s
  | .admitLeave => match s.admission with
    | .between => { s with admission := .idle }
    | _ => s
  | .otherLend => match s.other, s.writer with
    | .idle, none => { s with other := .writing, writer := some .other }
    | _, _ => s
  | .otherCommit claims => match s.other with
    | .writing => { s with db := s.db.insertClaims claims false, other := .dropping false }
    | _ => s
  | .storeIndex .pass => match s.pass with
    | .dropping false after =>
      { s with committedIndex := s.db.currentIndex, pass := .dropping true after }
    | _ => s
  | .storeIndex .admission => match s.admission with
    | .dropping false =>
      { s with committedIndex := s.db.currentIndex, admission := .dropping true }
    | _ => s
  | .storeIndex .other => match s.other with
    | .dropping false => { s with committedIndex := s.db.currentIndex, other := .dropping true }
    | _ => s
  | .giveBack .pass => match s.pass with
    | .dropping true after => s.continuePass after
    | _ => s
  | .giveBack .admission => match s.admission with
    | .dropping true => { s with writer := none, admission := .between }
    | _ => s
  | .giveBack .other => match s.other with
    | .dropping true => { s with writer := none, other := .idle }
    | _ => s

end SmallTalk.Projection
