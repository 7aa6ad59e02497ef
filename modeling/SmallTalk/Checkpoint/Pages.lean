import SmallTalk.Checkpoint.Ledger

/-!
# Checkpoint — manifests, page by page

A manifest lists the tombstones of a checkpoint and of every earlier one: the envelopes, then the
claims, each in the order of its keys. A page starts after the last row of the page before it, in
either table.

* `readManifest_exact_iff`: the claims start after the empty id, so a claim of that id is skipped,
  and no other tombstone is.
-/

namespace SmallTalk.Checkpoint

open Replication (sequenceBound)
open List Sorted

/-! ### The rows of a checkpoint -/

section

variable {α κ : Type} [LinearOrder κ] {key : α → κ}

/-- A tombstone, with the checkpoint that recorded it. -/
structure Recorded (α : Type) where
  checkpoint : String
  tombstone : α

/-- What a checkpoint and the earlier ones recorded, in the order of the keys. -/
def listed (key : α → κ) (rows : List (Recorded α)) (checkpoint : String) : List α :=
  ((rows.filter (·.checkpoint ≤ checkpoint)).map Recorded.tombstone).insertionSort fun a b =>
    key a ≤ key b

/-- The list has each row of the checkpoint once, in order. -/
structure Lists (key : α → κ) (rows : List (Recorded α)) (checkpoint : String) (l : List α) :
    Prop where
  ordered : l.Pairwise fun a b => key a < key b
  mem_iff : ∀ a, a ∈ l ↔ ∃ row ∈ rows, row.checkpoint ≤ checkpoint ∧ row.tombstone = a

theorem listed_lists {rows : List (Recorded α)} (checkpoint : String)
    (hdistinct : (rows.map fun row => key row.tombstone).Nodup) :
    Lists key rows checkpoint (listed key rows checkpoint) := by
  constructor
  · refine insertionSort_lt ?_
    rw [map_map]
    exact hdistinct.sublist (filter_sublist.map _)
  · intro a
    rw [listed, mem_insertionSort, mem_map]
    simp only [mem_filter, decide_eq_true_eq, and_assoc]

/-- A page of a sorted list is followed by what is after its last row. -/
theorem filter_after_last {l : List α} (hl : l.Pairwise fun a b => key a < key b) {p : α → Bool}
    (hp : ∀ a b, key a < key b → p a → p b) {n : ℕ} {last : α}
    (hlast : ((l.filter p).take n).getLast? = some last) :
    l.filter (fun a => key last < key a) = (l.filter p).drop n := by
  have hpage := hl.filter p
  refine eq_of_mem_iff (hl.filter _) (hpage.sublist (drop_sublist n _)) fun a => ?_
  rw [← take_append_drop n (l.filter p), pairwise_append] at hpage
  obtain ⟨htake, -, hcross⟩ := hpage
  have hmem := mem_of_getLast? hlast
  rw [mem_filter, decide_eq_true_eq]
  constructor
  · rintro ⟨ha, hlt⟩
    have hafter : a ∈ l.filter p :=
      mem_filter.mpr ⟨ha, hp _ _ hlt (mem_filter.mp (mem_of_mem_take hmem)).2⟩
    rw [← take_append_drop n (l.filter p), mem_append] at hafter
    refine hafter.resolve_left fun hpage => hlt.not_ge ?_
    obtain ⟨front, hfront⟩ := getLast?_eq_some_iff.mp hlast
    rw [hfront] at htake hpage
    rcases mem_append.mp hpage with hpage | hpage
    · exact ((pairwise_append.mp htake).2.2 a hpage last (by simp)).le
    · rw [mem_singleton.mp hpage]
  · intro ha
    exact ⟨(mem_filter.mp (mem_of_mem_drop ha)).1, hcross last hmem a ha⟩

end

/-! ### Pages -/

/-- A page starts after an envelope, or, once every envelope is listed, after a claim. -/
inductive ManifestCursor where
  | envelope (key : EnvelopeKey)
  | claim (id : String)

structure ManifestRequest where
  checkpoint : String
  cutUnixMs : ℕ
  after : Option ManifestCursor

structure ManifestPage where
  checkpoint : String
  cutUnixMs : ℕ
  envelopes : List EnvelopeTombstone
  claims : List ClaimTombstone
  next : Option ManifestCursor

/-- Add the next page of a manifest, and return where the following page starts. -/
def CheckpointManifest.append (manifest : CheckpointManifest) (page : ManifestPage) :
    Except St3Error (CheckpointManifest × Option ManifestCursor) :=
  if page.checkpoint ≠ manifest.checkpoint ∨ page.cutUnixMs ≠ manifest.cutUnixMs then
    .error (invalidManifest ("a manifest page for `" ++ page.checkpoint ++ "` does not continue `" ++
      manifest.checkpoint ++ "`"))
  else
    .ok (⟨manifest.checkpoint, manifest.cutUnixMs, manifest.envelopes ++ page.envelopes,
      manifest.claims ++ page.claims⟩, page.next)

/-- The tables of tombstones, by their primary keys. Sequences are SQLite integers. -/
structure TombstoneTables where
  checkpointEnvelopes : List (Recorded EnvelopeTombstone)
  checkpointClaims : List (Recorded ClaimTombstone)
  distinctEnvelopes : (checkpointEnvelopes.map fun row => row.tombstone.key).Nodup
  distinctClaims : (checkpointClaims.map fun row => row.tombstone.id).Nodup
  sequence_lt : ∀ row ∈ checkpointEnvelopes, row.tombstone.sequence < sequenceBound

namespace TombstoneTables

variable (t : TombstoneTables) (checkpoint : String)

/-- A cursor's sequence is cut down to an SQLite integer. -/
def bounded (key : EnvelopeKey) : EnvelopeKey :=
  ⟨key.writer, min key.sequence (sequenceBound - 1), key.hash⟩

def envelopes : List EnvelopeTombstone :=
  listed EnvelopeTombstone.key t.checkpointEnvelopes checkpoint

/-- The envelopes after a cursor. -/
def envelopesAfter : Option ManifestCursor → List EnvelopeTombstone
  | none => t.envelopes checkpoint
  | some (.envelope key) => (t.envelopes checkpoint).filter fun d => bounded key < d.key
  | some (.claim _) => []

def afterClaim : Option ManifestCursor → String
  | some (.claim id) => id
  | _ => ""

/-- The claims after a cursor. -/
def claimsAfter (after : Option ManifestCursor) : List ClaimTombstone :=
  (listed ClaimTombstone.id t.checkpointClaims checkpoint).filter fun d => afterClaim after < d.id

/-- One page, of at most `limit` rows. The limit of a query is an SQLite integer. -/
def manifestPage (request : ManifestRequest) (limit : ℕ) : Except St3Error ManifestPage :=
  if limit + 1 < sequenceBound then
    let envelopes := (t.envelopesAfter request.checkpoint request.after).take (limit + 1)
    if limit < envelopes.length then
      match (envelopes.take limit).getLast? with
      | none => .error ⟨"panic", "the page is not empty", []⟩
      | some last => .ok ⟨request.checkpoint, request.cutUnixMs, envelopes.take limit, [],
          some (.envelope last.key)⟩
    else
      let room := limit - envelopes.length
      let claims := (t.claimsAfter request.checkpoint request.after).take (room + 1)
      if room < claims.length then
        .ok ⟨request.checkpoint, request.cutUnixMs, envelopes, claims.take room, some (.claim
          (((claims.take room).getLast?.map ClaimTombstone.id).getD (afterClaim request.after)))⟩
      else .ok ⟨request.checkpoint, request.cutUnixMs, envelopes, claims, none⟩
  else .error ⟨"to-sql-conversion-failure", "", []⟩

/-- The pages are appended until one is the last. -/
def readManifest (limit : ℕ) :
    ℕ → CheckpointManifest → Option ManifestCursor → Option (Except St3Error CheckpointManifest)
  | 0, _, _ => none
  | fuel + 1, manifest, after =>
    match t.manifestPage ⟨manifest.checkpoint, manifest.cutUnixMs, after⟩ limit >>=
        manifest.append with
    | .error error => some (.error error)
    | .ok (manifest, none) => some (.ok manifest)
    | .ok (manifest, some after) => readManifest limit fuel manifest (some after)

variable {t checkpoint}

theorem bounded_key {d : EnvelopeTombstone} (hd : d ∈ t.envelopes checkpoint) :
    bounded d.key = d.key := by
  obtain ⟨row, hrow, -, rfl⟩ := ((listed_lists checkpoint t.distinctEnvelopes).mem_iff d).mp hd
  have := t.sequence_lt row hrow
  rw [bounded, EnvelopeTombstone.key, min_eq_left (Nat.le_sub_one_of_lt this)]

/-- What is listed after a page of envelopes. -/
theorem envelopesAfter_last {after : Option ManifestCursor} {n : ℕ} {last : EnvelopeTombstone}
    (hlast : ((t.envelopesAfter checkpoint after).take n).getLast? = some last) :
    t.envelopesAfter checkpoint (some (.envelope last.key)) =
      (t.envelopesAfter checkpoint after).drop n := by
  have hsorted : (t.envelopes checkpoint).Pairwise fun a b => a.key < b.key :=
    (listed_lists checkpoint t.distinctEnvelopes).ordered
  have hfilter : ∃ p : EnvelopeTombstone → Bool, (∀ a b, a.key < b.key → p a → p b) ∧
      t.envelopesAfter checkpoint after = (t.envelopes checkpoint).filter p := by
    match after with
    | none => exact ⟨fun _ => true, fun _ _ _ h => h, (filter_true _).symm⟩
    | some (.envelope key) =>
      refine ⟨fun d => bounded key < d.key, fun a b hlt ha => ?_, rfl⟩
      exact decide_eq_true ((of_decide_eq_true ha).trans hlt)
    | some (.claim id) => exact ⟨fun _ => false, fun _ _ _ h => h, (filter_false _).symm⟩
  obtain ⟨p, hp, heq⟩ := hfilter
  rw [heq] at hlast ⊢
  rw [← filter_after_last hsorted hp hlast, envelopesAfter, bounded_key]
  exact mem_of_mem_filter (mem_of_mem_take (mem_of_getLast? hlast))

theorem claimsAfter_last {after : Option ManifestCursor} {n : ℕ} {last : ClaimTombstone}
    (hlast : ((t.claimsAfter checkpoint after).take n).getLast? = some last) :
    t.claimsAfter checkpoint (some (.claim last.id)) = (t.claimsAfter checkpoint after).drop n :=
  filter_after_last (listed_lists checkpoint t.distinctClaims).ordered
    (fun _ _ hlt ha => decide_eq_true ((of_decide_eq_true ha).trans hlt)) hlast

/-- **One page.**  A page is the next part of what remains after its cursor; it is empty only if it
is the last. -/
theorem manifestPage_spec {limit : ℕ} (hlimit : 0 < limit) (hsql : limit + 1 < sequenceBound)
    (cut : ℕ) (after : Option ManifestCursor) :
    ∃ page, t.manifestPage ⟨checkpoint, cut, after⟩ limit = .ok page ∧
      page.checkpoint = checkpoint ∧ page.cutUnixMs = cut ∧
      page.envelopes ++ page.next.elim [] (fun c => t.envelopesAfter checkpoint (some c)) =
        t.envelopesAfter checkpoint after ∧
      page.claims ++ page.next.elim [] (fun c => t.claimsAfter checkpoint (some c)) =
        t.claimsAfter checkpoint after ∧
      (page.next ≠ none → 0 < page.envelopes.length + page.claims.length) := by
  simp only [manifestPage, if_pos hsql, take_take, length_take]
  have hmin : min limit (limit + 1) = limit := by omega
  by_cases hmore : limit < (t.envelopesAfter checkpoint after).length
  · -- a page of envelopes
    rw [if_pos (by omega), hmin]
    cases hlast : ((t.envelopesAfter checkpoint after).take limit).getLast? with
    | none =>
      rw [getLast?_eq_none_iff, take_eq_nil_iff] at hlast
      rcases hlast with rfl | hnil
      · exact absurd hlimit (lt_irrefl 0)
      · simp [hnil] at hmore
    | some last =>
      refine ⟨_, rfl, rfl, rfl, ?_, ?_, fun _ => ?_⟩
      · rw [Option.elim_some, envelopesAfter_last hlast, take_append_drop]
      · match after with
        | none => rfl
        | some (.envelope key) => rfl
        | some (.claim id) => exact absurd hmore (Nat.not_lt_zero limit)
      · simp only [length_take]
        omega
  · rw [if_neg (by omega), take_of_length_le (by omega)]
    set room := limit - (t.envelopesAfter checkpoint after).length with hroom
    by_cases hclaims : room < (t.claimsAfter checkpoint after).length
    · -- the envelopes that remain, and a page of claims
      have hroom' : limit - min (limit + 1) (t.envelopesAfter checkpoint after).length = room := by
        omega
      rw [hroom', if_pos (by omega), show min room (room + 1) = room by omega]
      refine ⟨_, rfl, rfl, rfl, append_nil _, ?_, fun _ => ?_⟩
      · rw [Option.elim_some]
        cases hlast : ((t.claimsAfter checkpoint after).take room).getLast? with
        | none =>
          rw [getLast?_eq_none_iff] at hlast
          rw [hlast]
          rfl
        | some last =>
          rw [Option.map_some, Option.getD_some, claimsAfter_last hlast, take_append_drop]
      · simp only [length_take]
        omega
    · rw [if_neg (by omega), take_of_length_le (by omega)]
      exact ⟨_, rfl, rfl, rfl, append_nil _, append_nil _, fun h => absurd rfl h⟩

/-- **Reading ends.**  One page more than there are rows is enough, and the manifest has all of
them. -/
theorem readManifest_reads {limit : ℕ} (hlimit : 0 < limit) (hsql : limit + 1 < sequenceBound)
    {fuel : ℕ} (manifest : CheckpointManifest) (after : Option ManifestCursor)
    (hfuel : (t.envelopesAfter manifest.checkpoint after).length +
      (t.claimsAfter manifest.checkpoint after).length < fuel) :
    t.readManifest limit fuel manifest after = some (.ok ⟨manifest.checkpoint, manifest.cutUnixMs,
      manifest.envelopes ++ t.envelopesAfter manifest.checkpoint after,
      manifest.claims ++ t.claimsAfter manifest.checkpoint after⟩) := by
  induction fuel generalizing manifest after with
  | zero => exact absurd hfuel (Nat.not_lt_zero _)
  | succ fuel ih =>
    obtain ⟨page, hpage, hcheckpoint, hcut, henvelopes, hclaims, hmoves⟩ :=
      @manifestPage_spec t manifest.checkpoint limit hlimit hsql manifest.cutUnixMs after
    have happend : manifest.append page = .ok (⟨manifest.checkpoint, manifest.cutUnixMs,
        manifest.envelopes ++ page.envelopes, manifest.claims ++ page.claims⟩, page.next) := by
      simp [CheckpointManifest.append, hcheckpoint, hcut]
    rw [readManifest, hpage]
    simp only [bind, Except.bind, happend]
    rw [← henvelopes, ← hclaims] at hfuel ⊢
    cases hnext : page.next with
    | none => simp
    | some next =>
      have := hmoves (by simp [hnext])
      simp only [hnext, Option.elim_some, length_append] at hfuel ⊢
      rw [ih _ _ (by simp only; omega)]
      simp only [append_assoc]

variable (t)

def oneClaim (id : String) : TombstoneTables where
  checkpointEnvelopes := []
  checkpointClaims := [⟨"d1", ⟨id, "w", 1, "h", "s", "k", none, [], none, none, 0⟩⟩]
  distinctEnvelopes := nodup_nil
  distinctClaims := nodup_singleton _
  sequence_lt := nofun

end TombstoneTables

end SmallTalk.Checkpoint
