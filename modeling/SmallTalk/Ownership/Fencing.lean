import SmallTalk.Ownership.Record
import SmallTalk.Lib.Fallible

/-!
# Ownership — who may write the record

Sessions claim the record, in any order and more than once; processes write it under a claim they
were handed, or under a token alone; and the record may turn unreadable, or foreign, at any time.

* `World.Fenced`: how the record, the floor and the writers' sequences relate to the last claim.
* `fencing`: who can change the record after a claim.
-/

namespace SmallTalk.Ownership

open Option Writer List

/-! ### Runs -/

/-- A process that writes. `claim` is the claim it was handed, if it was handed one. -/
structure Holder where
  claim : Option ℕ
  writer : Writer
deriving DecidableEq

inductive Event where
  | claim (claimer : Claimer) (now : ℕ)
  | claimWrapperless (claimer : Claimer) (now : ℕ)
  /-- A process starts, under the `index`-th claim. -/
  | adopt (index : ℕ) (agent harness : String) (ptySession : Option String)
  /-- A process starts, with a token alone. -/
  | tokenOnly (token agent harness : String) (ptySession : Option String)
  | interrupt (process : ℕ)
  | observe (process : ℕ) (observation : Observation) (skipIfEnded : Bool) (now : ℕ)
  | heartbeat (process now : ℕ)
  | ended (process : ℕ) (exit : String) (now : ℕ)
  | unreadable
  | foreign (record : Record) (hforeign : schemaMatches record.schema = false)

/-- `claims` are the tokens and sequences of the claims that returned, the first one first. -/
structure World where
  files : Files
  holders : List Holder
  claims : List (String × ℕ)
deriving DecidableEq

namespace World

/-- A process's call leaves its writer and the files. -/
def act (world : World) (process : ℕ) (call : Writer → Files → Writer × Files) : World :=
  match world.holders[process]? with
  | none => world
  | some holder =>
    let (writer, files) := call holder.writer world.files
    { world with
      files := files
      holders := world.holders.set process { holder with writer := writer } }

def claimed (world : World) (token : String) (seq : ℕ) (files : Files) : World :=
  { world with files := files, claims := world.claims ++ [(token, seq)] }

def step (world : World) : Event → World
  | .claim claimer now =>
    match claimLocked claimer world.files now with
    | .ok (seq, files) => world.claimed claimer.token seq files
    | .error _ => world
  | .claimWrapperless claimer now =>
    match claimWrapperless claimer world.files now with
    | .ok (some seq, files) => world.claimed claimer.token seq files
    | _ => world
  | .adopt index agent harness ptySession =>
    match world.claims[index]? with
    | none => world
    | some (token, seq) => { world with holders := world.holders ++
        [⟨some seq, ⟨agent, harness, ptySession, false, token, some seq⟩⟩] }
  | .tokenOnly token agent harness ptySession => { world with holders := world.holders ++
      [⟨none, ⟨agent, harness, ptySession, false, token, none⟩⟩] }
  | .interrupt process => world.act process fun writer files =>
    ({ writer with interrupted := true }, files)
  | .observe process observation skipIfEnded now => world.act process fun writer files =>
    (writer.observeInner files observation skipIfEnded now).2
  | .heartbeat process now => world.act process fun writer files =>
    (writer, writer.heartbeat files now)
  | .ended process exit now => world.act process fun writer files =>
    (writer.ended files exit now).2
  | .unreadable => { world with files.stored := .unreadable }
  | .foreign record _ => { world with files.stored := .parsed record }

/-- Nobody has claimed or written yet. The floor is intact: it is not below the record, and it is
not there if the record never was. -/
structure Start (world : World) : Prop where
  holders : world.holders = []
  claims : world.claims = []
  virgin : world.files.stored = .absent → world.files.floor = none
  intact : ∀ record, world.files.stored = .parsed record → schemaMatches record.schema = true →
    record.seq ≤ world.files.floor.getD 0

end World

/-- The process whose call an event is. -/
def Event.process : Event → Option ℕ
  | .interrupt process | .observe process .. | .heartbeat process _ | .ended process .. =>
    some process
  | _ => none

def Event.isHeartbeat : Event → Bool
  | .heartbeat .. => true
  | _ => false

/-- Another claim than the last one, or another token than its token. -/
def Holder.Late (holder : Holder) (last : String × ℕ) : Prop :=
  match holder.claim with
  | some seq => (holder.writer.session, seq) ≠ last
  | none => holder.writer.session ≠ last.1

/-! ### What a call does -/

/-- A write leaves the record of its writer, under the sequence it resolved. -/
structure Wrote (writer : Writer) (seq : ℕ) (record : Record) : Prop where
  seq : record.seq = seq
  incarnation : record.incarnation = writer.session
  schema : schemaMatches record.schema = true

theorem wrote_recordOf (writer : Writer) (onDisk : Option Record) (observation : Observation)
    (seq now : ℕ) : Wrote writer seq (writer.recordOf onDisk observation seq now) := by
  refine ⟨rfl, rfl, ?_⟩
  show schemaMatches (((writer.ownRecord onDisk).map Record.schema).getD currentSchema) = true
  cases hown : writer.ownRecord onDisk with
  | none => rfl
  | some own =>
    have hmatches := (filter_eq_some_iff.mp hown).2
    exact (Bool.and_eq_true _ _ ▸ hmatches).1

/-- The writer acts under the sequence it resolved, which is not below that of the record, and the
record stays or is the writer's from now on. -/
def Acts (writer : Writer) (files : Files) (onDisk : Option Record) (result : Writer × Files) :
    Prop :=
  ∃ seq, writer.resolveSeq onDisk = some seq ∧
    (∀ current, onDisk = some current →
      current.seq ≤ seq ∧ schemaMatches current.schema = true) ∧
    ∃ interrupted stored,
      result = ({ writer with claimedSeq := some seq, interrupted := interrupted },
        ⟨stored, writer.resolveFloor onDisk files.floor⟩) ∧
      ((stored = files.stored ∧ onDisk ≠ none) ∨
        ∃ record, stored = .parsed record ∧ Wrote writer seq record)

theorem observeOver_cases (writer : Writer) (files : Files) (onDisk : Option Record)
    (observation : Observation) (skipIfEnded : Bool) (now : ℕ) :
    (writer.observeOver files onDisk observation skipIfEnded now).2 = (writer, files) ∨
      Acts writer files onDisk
        (writer.observeOver files onDisk observation skipIfEnded now).2 := by
  unfold observeOver
  cases hseq : writer.resolveSeq onDisk with
  | none => exact .inl rfl
  | some seq =>
    dsimp only
    have hfloor : onDisk ≠ none → writer.resolveFloor onDisk files.floor = files.floor :=
      fun hsome => if_neg fun hnone => hsome hnone.2
    split
    · next hlater =>
        refine .inl ?_
        have hsome : onDisk ≠ none := by rintro rfl; simp at hlater
        rw [hfloor hsome]
    split
    · next hforeign =>
        refine .inl ?_
        have hsome : onDisk ≠ none := by rintro rfl; simp at hforeign
        rw [hfloor hsome]
    next hlater hforeign =>
      refine .inr ⟨seq, hseq, ?_, ?_⟩
      · rintro current rfl
        exact ⟨by simpa using hlater, by simpa using hforeign⟩
      split
      · next hended =>
          refine ⟨writer.interrupted, files.stored, rfl, .inl ⟨rfl, ?_⟩⟩
          rintro rfl
          simp [ownRecord] at hended
      split
      · next hfresh =>
          refine ⟨writer.interrupted, files.stored, rfl, .inl ⟨rfl, ?_⟩⟩
          rintro rfl
          simp [ownRecord] at hfresh
      · exact ⟨false, _, rfl, .inr ⟨_, rfl, wrote_recordOf ..⟩⟩

/-- What was on disk when a call could read the record, or find that there is none. -/
def StoredRecord.Shows (stored : StoredRecord) (onDisk : Option Record) : Prop :=
  (stored = .absent ∧ onDisk = none) ∨ ∃ record, stored = .parsed record ∧ onDisk = some record

/-- Either nothing changes, or the writer acts on what was on disk. -/
theorem observeInner_cases (writer : Writer) (files : Files) (observation : Observation)
    (skipIfEnded : Bool) (now : ℕ) :
    (writer.observeInner files observation skipIfEnded now).2 = (writer, files) ∨
      ∃ onDisk, files.stored.Shows onDisk ∧
        Acts writer files onDisk (writer.observeInner files observation skipIfEnded now).2 := by
  unfold observeInner
  split
  · exact .inl rfl
  split
  · exact .inl rfl
  split
  · exact .inl rfl
  split
  · exact .inl rfl
  cases hstored : files.stored with
  | unreadable => exact .inl rfl
  | absent => exact (observeOver_cases ..).imp_right fun h => ⟨none, .inl ⟨rfl, rfl⟩, h⟩
  | parsed record =>
    exact (observeOver_cases ..).imp_right fun h => ⟨some record, .inr ⟨record, rfl, rfl⟩, h⟩

/-- A heartbeat leaves the files, or stamps the record of the writer's session again. -/
theorem heartbeat_cases (writer : Writer) (files : Files) (now : ℕ) :
    writer.heartbeat files now = files ∨
    ∃ record, files.stored = .parsed record ∧ schemaMatches record.schema = true ∧
      record.incarnation = writer.session ∧ ∃ stamp,
        writer.heartbeat files now =
          { files with stored := .parsed { record with writtenAtMs := stamp } } := by
  unfold heartbeat
  cases hstored : files.stored with
  | absent => exact .inl rfl
  | unreadable => exact .inl rfl
  | parsed record =>
    dsimp only [StoredRecord.readRecord]
    split
    · exact .inl rfl
    · next hlive =>
        obtain ⟨hschema, hlive⟩ := not_or.mp hlive
        exact .inr ⟨record, rfl, by simpa using hschema, not_not.mp (not_or.mp hlive).2, _, rfl⟩

/-- A claim's sequence is above the record's and the floor. -/
theorem claimLocked_eq_ok {claimer : Claimer} {files files' : Files} {now seq : ℕ}
    (h : claimLocked claimer files now = .ok (seq, files')) :
    files.floor.getD 0 < seq ∧
      ∃ record, files' = ⟨.parsed record, some seq⟩ ∧ record.seq = seq ∧
        record.incarnation = claimer.token := by
  unfold claimLocked at h
  split at h
  · cases h
  · next hbelow =>
      obtain ⟨rfl, rfl⟩ := Prod.mk.inj (Except.ok.inj h)
      refine ⟨?_, _, rfl, rfl, rfl⟩
      cases hrecord : files.stored.readRecord <;> cases hfloor : files.floor <;>
        simp [highestSeq, hrecord, hfloor, saturatingAdd] at hbelow ⊢ <;> omega

/-! ### The invariant -/

/-- A writer that was handed a claim acts under it. A sequence is that of the last claim only for the
token of that claim. -/
structure Holder.Fits (floor : Option ℕ) (claims : List (String × ℕ)) (holder : Holder) : Prop where
  handed : ∀ seq, holder.claim = some seq → holder.writer.claimedSeq = some seq
  under : ∀ seq, holder.writer.claimedSeq = some seq → seq ≤ floor.getD 0 ∧
    ∀ last, claims.getLast? = some last → seq = last.2 → holder.writer.session = last.1

/-- The record, where it can be read, is not above the floor, and is of the last claim. -/
structure Files.Fits (claims : List (String × ℕ)) (files : Files) : Prop where
  virgin : files.stored = .absent → files.floor = none ∧ claims = []
  intact : ∀ record, files.stored = .parsed record → schemaMatches record.schema = true →
    record.seq ≤ files.floor.getD 0 ∧
      ∀ last, claims.getLast? = some last → record.seq = last.2 ∧ record.incarnation = last.1
  floor : ∀ last, claims.getLast? = some last → files.floor = some last.2

structure World.Fenced (world : World) : Prop where
  files : world.files.Fits world.claims
  increasing : (world.claims.map Prod.snd).Pairwise (· < ·)
  holders : ∀ holder ∈ world.holders, holder.Fits world.files.floor world.claims

theorem World.Start.fenced {world : World} (h : world.Start) : world.Fenced where
  files :=
    { virgin := fun habsent => ⟨h.virgin habsent, h.claims⟩
      intact := fun record hstored hschema =>
        ⟨h.intact record hstored hschema, by simp [h.claims]⟩
      floor := by simp [h.claims] }
  increasing := by simp [h.claims]
  holders := by simp [h.holders]

namespace World.Fenced

variable {world : World} {holder : Holder} (h : world.Fenced)

include h

/-- The last claim has the highest sequence, which is the floor. -/
theorem le_floor {claim : String × ℕ} (hmem : claim ∈ world.claims) :
    claim.2 ≤ world.files.floor.getD 0 ∧
      ∀ last, world.claims.getLast? = some last → claim.2 = last.2 → claim = last := by
  obtain ⟨init, last, hclaims⟩ :=
    (eq_nil_or_concat world.claims).resolve_left (ne_nil_of_mem hmem)
  rw [concat_eq_append] at hclaims
  have hlast : world.claims.getLast? = some last := by rw [hclaims, getLast?_concat]
  have hlt : claim ∈ init → claim.2 < last.2 := by
    intro hinit
    have hpairs := h.increasing
    rw [hclaims, map_append, pairwise_append] at hpairs
    exact hpairs.2.2 _ (mem_map_of_mem hinit) _ (by simp)
  rw [h.files.floor last hlast, getD_some]
  rw [hclaims, mem_append, mem_singleton] at hmem
  refine ⟨hmem.elim (fun hinit => (hlt hinit).le) fun heq => heq ▸ le_rfl, fun other hother heq => ?_⟩
  obtain rfl := some.inj (hlast.symm.trans hother)
  exact hmem.resolve_left fun hinit => (hlt hinit).ne heq

/-- A call that gets to write does so under the last claim. -/
theorem resolved (hmem : holder ∈ world.holders) {onDisk : Option Record}
    (hshows : world.files.stored.Shows onDisk) {seq : ℕ}
    (hseq : holder.writer.resolveSeq onDisk = some seq)
    (hcurrent : ∀ current, onDisk = some current →
      current.seq ≤ seq ∧ schemaMatches current.schema = true) :
    seq ≤ (holder.writer.resolveFloor onDisk world.files.floor).getD 0 ∧
      ∀ last, world.claims.getLast? = some last →
        seq = last.2 ∧ holder.writer.session = last.1 := by
  have hunder := (h.holders holder hmem).under
  rcases hshows with ⟨habsent, rfl⟩ | ⟨current, hstored, rfl⟩
  · obtain ⟨hfloor, hclaims⟩ := h.files.virgin habsent
    refine ⟨?_, by simp [hclaims]⟩
    cases hclaimed : holder.writer.claimedSeq with
    | none => simp_all [resolveSeq, resolveFloor]
    | some cached =>
      obtain rfl : cached = seq := by simpa [resolveSeq, hclaimed] using hseq
      simpa [resolveFloor, hclaimed] using (hunder _ hclaimed).1
  · obtain ⟨hle, hschema⟩ := hcurrent current rfl
    obtain ⟨hintact, hlast⟩ := h.files.intact current hstored hschema
    have hfloor : holder.writer.resolveFloor (some current) world.files.floor =
        world.files.floor := by simp [resolveFloor]
    rw [hfloor]
    cases hclaimed : holder.writer.claimedSeq with
    | none =>
      obtain ⟨hown, rfl⟩ : current.incarnation = holder.writer.session ∧ current.seq = seq := by
        simpa [resolveSeq, hclaimed] using hseq
      exact ⟨hintact, fun last heq => hown ▸ hlast last heq⟩
    | some cached =>
      obtain rfl : cached = seq := by simpa [resolveSeq, hclaimed] using hseq
      obtain ⟨hbelow, hsession⟩ := hunder _ hclaimed
      refine ⟨hbelow, fun last heq => ?_⟩
      have hseq : cached = last.2 := by
        have hrecord := (hlast last heq).1
        rw [h.files.floor last heq, getD_some] at hbelow
        omega
      exact ⟨hseq, hsession last heq hseq⟩

/-- A call keeps the invariant if it keeps what it says of the files and of the caller. -/
theorem act (process : ℕ) (call : Writer → Files → Writer × Files)
    (hcall : ∀ holder ∈ world.holders,
      (call holder.writer world.files).2.Fits world.claims ∧
      world.files.floor.getD 0 ≤ (call holder.writer world.files).2.floor.getD 0 ∧
      Holder.Fits (call holder.writer world.files).2.floor world.claims
        { holder with writer := (call holder.writer world.files).1 }) :
    (world.act process call).Fenced := by
  unfold World.act
  split
  · exact h
  · next holder hat =>
      obtain ⟨hfiles, hfloor, hholder⟩ := hcall holder (mem_of_getElem? hat)
      refine ⟨hfiles, h.increasing, fun other hother => ?_⟩
      rcases mem_or_eq_of_mem_set hother with hother | rfl
      · have hfits := h.holders other hother
        exact ⟨hfits.handed, fun seq hseq => (hfits.under seq hseq).imp_left (·.trans hfloor)⟩
      · exact hholder

theorem observe (process : ℕ) (observation : Observation) (skipIfEnded : Bool) (now : ℕ) :
    (world.act process fun writer files =>
      (writer.observeInner files observation skipIfEnded now).2).Fenced := by
  refine h.act process _ fun holder hmem => ?_
  rcases observeInner_cases holder.writer world.files observation skipIfEnded now with
    hsame | ⟨onDisk, hshows, seq, hseq, hcurrent, interrupted, stored, hresult, hstored⟩
  · rw [hsame]
    exact ⟨h.files, le_rfl, h.holders holder hmem⟩
  rw [hresult]
  obtain ⟨hbelow, hlast⟩ := h.resolved hmem hshows hseq hcurrent
  have hshown : onDisk ≠ none → ∃ current, world.files.stored = .parsed current ∧
      holder.writer.resolveFloor onDisk world.files.floor = world.files.floor := by
    rcases hshows with ⟨-, rfl⟩ | ⟨current, hparsed, rfl⟩
    · exact fun hne => absurd rfl hne
    · exact fun _ => ⟨current, hparsed, by simp [resolveFloor]⟩
  have hclaims : ∀ last, world.claims.getLast? = some last → onDisk ≠ none := by
    rintro last heq rfl
    rcases hshows with ⟨habsent, -⟩ | ⟨_, -, hnone⟩
    · simp [(h.files.virgin habsent).2] at heq
    · cases hnone
  refine ⟨⟨fun habsent => ?_, fun record hrecord hschema => ?_, fun last heq => ?_⟩, ?_, ?_⟩
  · rcases hstored with ⟨rfl, hne⟩ | ⟨record, rfl, -⟩
    · obtain ⟨current, hparsed, -⟩ := hshown hne
      exact absurd (hparsed.symm.trans habsent) nofun
    · cases habsent
  · rcases hstored with ⟨rfl, hne⟩ | ⟨written, rfl, hwrote⟩
    · obtain ⟨-, -, hfloor⟩ := hshown hne
      rw [hfloor]
      exact h.files.intact record hrecord hschema
    · cases hrecord
      rw [hwrote.seq, hwrote.incarnation]
      exact ⟨hbelow, hlast⟩
  · obtain ⟨-, -, hfloor⟩ := hshown (hclaims last heq)
    exact hfloor.trans (h.files.floor last heq)
  · show world.files.floor.getD 0 ≤ (holder.writer.resolveFloor onDisk world.files.floor).getD 0
    rcases hshows with ⟨habsent, rfl⟩ | ⟨current, -, rfl⟩
    · simp [(h.files.virgin habsent).1]
    · simp [resolveFloor]
  · refine ⟨fun claim hclaim => ?_, fun cached hcached => ?_⟩
    · have hresolved : holder.writer.resolveSeq onDisk = some claim := by
        simp [resolveSeq, (h.holders holder hmem).handed claim hclaim]
      exact hseq.symm.trans hresolved
    · obtain rfl := some.inj hcached
      exact ⟨hbelow, fun last heq _ => (hlast last heq).2⟩

theorem heartbeat (process now : ℕ) :
    (world.act process fun writer files => (writer, writer.heartbeat files now)).Fenced := by
  refine h.act process _ fun holder hmem => ?_
  rcases heartbeat_cases holder.writer world.files now with
    hsame | ⟨record, hstored, hschema, -, stamp, hresult⟩
  · rw [hsame]
    exact ⟨h.files, le_rfl, h.holders holder hmem⟩
  · rw [hresult]
    refine ⟨⟨nofun, fun stamped hstamped _ => ?_, h.files.floor⟩, le_rfl, h.holders holder hmem⟩
    cases hstamped
    exact h.files.intact record hstored hschema

theorem claimed {claimer : Claimer} {files : Files} {now seq : ℕ}
    (hclaim : claimLocked claimer world.files now = .ok (seq, files)) :
    (world.claimed claimer.token seq files).Fenced := by
  obtain ⟨hfloor, record, rfl, hseq, htoken⟩ := claimLocked_eq_ok hclaim
  have hlast : ∀ last, (world.claims ++ [(claimer.token, seq)]).getLast? = some last →
      last = (claimer.token, seq) := by
    intro last heq
    rw [getLast?_concat] at heq
    exact (some.inj heq).symm
  refine ⟨⟨nofun, fun stored hstored _ => ?_, fun last heq => ?_⟩, ?_, fun holder hmem => ?_⟩
  · cases hstored
    refine ⟨hseq.le, fun last heq => ?_⟩
    rw [hlast last heq]
    exact ⟨hseq, htoken⟩
  · rw [hlast last heq]
    rfl
  · show ((world.claims ++ [(claimer.token, seq)]).map Prod.snd).Pairwise (· < ·)
    rw [map_append, pairwise_append]
    refine ⟨h.increasing, by simp, ?_⟩
    simp only [List.forall_mem_map, map_cons, map_nil, mem_singleton, forall_eq]
    exact fun claim hmem => (h.le_floor hmem).1.trans_lt hfloor
  · have hfits := h.holders holder hmem
    refine ⟨hfits.handed, fun cached hcached => ?_⟩
    have hlt := (hfits.under cached hcached).1.trans_lt hfloor
    refine ⟨hlt.le, fun last heq hsame => ?_⟩
    rw [hlast last heq] at hsame
    exact absurd hsame hlt.ne

/-- A process that starts has claimed nothing itself. -/
theorem start {holder : Holder} (hfits : holder.Fits world.files.floor world.claims) :
    World.Fenced { world with holders := world.holders ++ [holder] } := by
  refine ⟨h.files, h.increasing, fun other hother => ?_⟩
  rcases mem_append.mp hother with hother | hother
  · exact h.holders other hother
  · exact mem_singleton.mp hother ▸ hfits

theorem step (event : Event) : (world.step event).Fenced := by
  cases event with
  | claim claimer now =>
    dsimp only [World.step]
    split
    · next hclaim => exact h.claimed hclaim
    · exact h
  | claimWrapperless claimer now =>
    dsimp only [World.step]
    split
    · next seq files hclaim =>
        unfold claimWrapperless at hclaim
        split at hclaim
        · obtain ⟨⟨seq', files'⟩, hlocked, hpair⟩ := Fallible.map_eq_ok.mp hclaim
          cases hpair
          exact h.claimed hlocked
        · cases hclaim
    · exact h
  | adopt index agent harness ptySession =>
    dsimp only [World.step]
    split
    · exact h
    · next token seq hat =>
        have hfloor := h.le_floor (mem_of_getElem? hat)
        refine h.start ⟨fun _ hclaim => hclaim, fun cached hcached => ?_⟩
        obtain rfl := some.inj hcached
        exact ⟨hfloor.1, fun last heq hsame => congrArg Prod.fst (hfloor.2 last heq hsame)⟩
  | tokenOnly token agent harness ptySession => exact h.start ⟨nofun, nofun⟩
  | interrupt process =>
    refine h.act process (fun writer files => ({ writer with interrupted := true }, files)) ?_
    intro holder hmem
    have hfits := h.holders holder hmem
    exact ⟨h.files, le_rfl, hfits.handed, hfits.under⟩
  | observe process observation skipIfEnded now =>
    exact h.observe process observation skipIfEnded now
  | heartbeat process now => exact h.heartbeat process now
  | ended process exit now =>
    exact h.observe process ⟨.ended, .none, .unknown, .none, none, some exit⟩ false now
  | unreadable =>
    exact ⟨⟨StoredRecord.noConfusion, fun _ => StoredRecord.noConfusion, h.files.floor⟩,
      h.increasing, h.holders⟩
  | foreign record hforeign =>
    refine ⟨⟨StoredRecord.noConfusion, fun stored hstored hschema => ?_, h.files.floor⟩,
      h.increasing, h.holders⟩
    obtain rfl := StoredRecord.parsed.inj hstored
    exact absurd hschema (by simp [hforeign])

theorem run (events : List Event) : (events.foldl World.step world).Fenced :=
  List.foldlRecOn events World.step h fun _ h event _ => h.step event

/-! ### Fencing -/

omit h in
theorem act_files {process : ℕ} (hat : world.holders[process]? = some holder)
    (call : Writer → Files → Writer × Files) :
    (world.act process call).files = (call holder.writer world.files).2 := by
  unfold World.act
  rw [hat]

/-- A late writer's observation changes nothing. -/
theorem observe_late {process : ℕ} (hat : world.holders[process]? = some holder) {last : String × ℕ}
    (hlast : world.claims.getLast? = some last) (hlate : holder.Late last)
    (observation : Observation) (skipIfEnded : Bool) (now : ℕ) :
    (world.act process fun writer files =>
      (writer.observeInner files observation skipIfEnded now).2).files = world.files := by
  rw [act_files hat]
  have hmem := mem_of_getElem? hat
  rcases observeInner_cases holder.writer world.files observation skipIfEnded now with
    hsame | ⟨onDisk, hshows, seq, hseq, hcurrent, -⟩
  · rw [hsame]
  · obtain ⟨hlatest, hsession⟩ := (h.resolved hmem hshows hseq hcurrent).2 last hlast
    unfold Holder.Late at hlate
    split at hlate
    · next claim hclaim =>
        have hresolved : holder.writer.resolveSeq onDisk = some claim := by
          simp [resolveSeq, (h.holders holder hmem).handed claim hclaim]
        obtain rfl := some.inj (hseq.symm.trans hresolved)
        exact absurd (Prod.ext hsession hlatest) hlate
    · exact absurd hsession hlate

end World.Fenced

/-- **Fencing.**  In every run from an intact floor the sequences that claims return increase. From
a claim to the next one, no call of a writer of an earlier claim, or of another token alone, changes
the record, but for the heartbeat of a writer whose session claimed again. -/
theorem fencing {start : World} (hstart : start.Start) (events : List Event) :
    ((events.foldl World.step start).claims.map Prod.snd).Pairwise (· < ·) ∧
    ∀ event process holder last, event.process = some process →
      (events.foldl World.step start).holders[process]? = some holder →
      (events.foldl World.step start).claims.getLast? = some last → holder.Late last →
      (event.isHeartbeat = true → holder.writer.session ≠ last.1) →
      ((events.foldl World.step start).step event).files =
        (events.foldl World.step start).files := by
  have h := hstart.fenced.run events
  refine ⟨h.increasing, ?_⟩
  generalize events.foldl World.step start = world at h
  intro event process holder last hprocess hat hlast hlate hbeat
  cases event with
  | claim | claimWrapperless | adopt | tokenOnly | unreadable | foreign => cases hprocess
  | interrupt other =>
    obtain rfl := some.inj hprocess
    exact World.Fenced.act_files hat _
  | observe other observation skipIfEnded now =>
    obtain rfl := some.inj hprocess
    exact h.observe_late hat hlast hlate observation skipIfEnded now
  | ended other exit now =>
    obtain rfl := some.inj hprocess
    exact h.observe_late hat hlast hlate ⟨.ended, .none, .unknown, .none, none, some exit⟩ false now
  | heartbeat other now =>
    obtain rfl := some.inj hprocess
    refine (World.Fenced.act_files hat _).trans ?_
    rcases heartbeat_cases holder.writer world.files now with
      hsame | ⟨record, hstored, hschema, hown, -⟩
    · exact hsame
    · have hsession := ((h.files.intact record hstored hschema).2 last hlast).2
      exact absurd (hown.symm.trans hsession) (hbeat rfl)

/-! ### A session that claims twice -/

def virgin : World := ⟨⟨.absent, none⟩, [], []⟩

theorem virgin_start : virgin.Start :=
  ⟨rfl, rfl, fun _ => rfl, fun _ => StoredRecord.noConfusion⟩

/-- A process of the first session's claim, and one of the second session's. -/
def twoSessions (first second : String) : List Event :=
  [.claim ⟨"seat", "claude", first⟩ 1, .adopt 0 "seat" "claude" (some "pty"),
    .claim ⟨"seat", "claude", second⟩ 2, .adopt 1 "seat" "claude" (some "pty"),
    .observe 1 ⟨.active, .none, .empty, .none, none, none⟩ false 3]

def firstHolder : Holder := ⟨some 1, ⟨"seat", "claude", some "pty", false, "session-a", some 1⟩⟩

theorem fencing_twoSessions :
    (((twoSessions "session-a" "session-b").foldl World.step virgin).step (.heartbeat 0 4)).files =
      ((twoSessions "session-a" "session-b").foldl World.step virgin).files := by
  refine (fencing virgin_start (twoSessions "session-a" "session-b")).2 (.heartbeat 0 4) 0
    firstHolder ("session-b", 2) rfl (by decide +kernel) (by decide +kernel) ?_ fun _ => ?_
  · show ("session-a", 1) ≠ ("session-b", 2)
    decide
  · show "session-a" ≠ "session-b"
    decide

/-- A process of a session's first claim keeps the record of its second one fresh: a heartbeat asks
for the token only. -/
theorem earlier_heartbeat_changes : virgin.Start ∧
    ((twoSessions "session-a" "session-a").foldl World.step virgin).holders[0]? =
      some firstHolder ∧
    ((twoSessions "session-a" "session-a").foldl World.step virgin).claims.getLast? =
      some ("session-a", 2) ∧
    firstHolder.Late ("session-a", 2) ∧
    (((twoSessions "session-a" "session-a").foldl World.step virgin).step
      (.heartbeat 0 4)).files.stored ≠
        ((twoSessions "session-a" "session-a").foldl World.step virgin).files.stored := by
  refine ⟨virgin_start, by decide +kernel, by decide +kernel, ?_, by decide +kernel⟩
  show ("session-a", 1) ≠ ("session-a", 2)
  decide

end SmallTalk.Ownership
