import SmallTalk.Principal.Upkeep

/-!
# Principal — claims and signatures that arrive

A claim arrives with the signature its envelope carries, or is written here first and signed when
its batch is sealed. Either way the tables stay sound (`Sound`): what an arrival changes for a
cached verdict is reached by a link, and waits on the claim that arrived.
-/

namespace SmallTalk.Principal

open Stored List

/-! ### Arrivals -/

namespace Stored

def addClaim (s : Stored) (row : ClaimRow) : Stored := { s with claims := s.claims ++ [row] }

def addSignature (s : Stored) (id : String) (sig : ClaimSignature) : Stored :=
  { s with signatures := s.signatures ++ [(id, sig)] }

end Stored

namespace Tables

/-- A store before anything arrived. -/
def empty (roots : Finset (String × String)) : Tables where
  claims := []
  signatures := []
  roots := roots
  verdicts := fun _ => none
  links := []
  queue := []
  fresh := []
  verdictRoots := none

/-- `INSERT OR IGNORE INTO claims`. -/
def insertClaim (t : Tables) (row : ClaimRow) : Tables :=
  if (t.claimRow row.id).isSome then t else { t with toStored := t.addClaim row }

/-- Keep a signature and mark its claim for the next pass; a signature is never replaced. -/
def storeClaimSignature (t : Tables) (id : String) (sig : ClaimSignature) : Tables :=
  if (t.storedSignature id).isSome then t
  else { t with toStored := t.addSignature id sig, fresh := t.fresh ++ [id] }

/-- Admission of one claim, with the signature its envelope carries. -/
def admitClaim (t : Tables) (row : ClaimRow) : Option ClaimSignature → Tables
  | none => t.insertClaim row
  | some sig => (t.insertClaim row).storeClaimSignature row.id sig

end Tables

variable {b : Scheme} {s : Stored} {t : Tables} {last : Finset (String × String)} {strayed : Prop}

theorem empty_sound (roots : Finset (String × String)) :
    Sound b roots False (Tables.empty roots) where
  unique := nodup_nil
  rows _ h := by cases h
  signed _ h := absurd rfl h
  cached _ h := by cases h.1
  right _ h := by cases h.1

section

variable {row : ClaimRow}

theorem claimRow_addClaim (d : String) : (s.addClaim row).claimRow d =
      (s.claimRow d).or (if row.id = d then some row else none) := by
  simp only [claimRow, addClaim, find?_append]
  congr 1
  by_cases h : row.id = d <;> simp [h]

theorem claimRow_addClaim_of_isSome {d : String} (h : (s.claimRow d).isSome) :
    (s.addClaim row).claimRow d = s.claimRow d := by
  obtain ⟨found, hfound⟩ := Option.isSome_iff_exists.mp h
  rw [claimRow_addClaim, hfound]
  rfl

theorem grantOf_addClaim {d : String}
    (h : d = row.id → s.claimRow d = none ∧ row.kind ≠ keyGrantedKind) :
    (s.addClaim row).grantOf d = s.grantOf d := by
  by_cases hd : d = row.id
  · obtain ⟨hnone, hkind⟩ := h hd
    simp [grantOf, claimRow_addClaim, hnone, hd.symm, hkind]
  · simp [grantOf, claimRow_addClaim, Ne.symm hd]

theorem isSome_storedSignature {id : String} {sig : ClaimSignature}
    (h : (id, sig) ∈ s.signatures) : (s.storedSignature id).isSome :=
  lookup_isSome_iff.mpr ⟨(id, sig), h, beq_self_eq_true id⟩

/-- A row that arrives unsigned changes the answers about it as a grant only. -/
theorem answers_addClaim (hrows : ∀ id, (s.storedSignature id).isSome → (s.claimRow id).isSome)
    (hnew : s.claimRow row.id = none) (found : ClaimRow) (verdict : String → Verdict)
    {q : Question} (hq : q = .delegation row.id → row.kind ≠ keyGrantedKind) :
    (answers s found verdict).answer q = (answers (s.addClaim row) found verdict).answer q ∧
      (s.addClaim row).linksOf q = s.linksOf q := by
  have hbefore : ∀ other, (s.storedSignature other).isSome →
      (s.addClaim row).before other found = s.before other found := by
    intro other hs
    simp only [before, claimRow_addClaim_of_isSome (hrows other hs)]
  cases q with
  | delegation id =>
    have hgrant : (s.addClaim row).grantOf id = s.grantOf id :=
      grantOf_addClaim fun hid => ⟨hid ▸ hnew, hq (hid ▸ rfl)⟩
    refine ⟨?_, by simp only [linksOf, hgrant]⟩
    simp only [Facts.answer, answers, hgrant]
  | isRoot subject key => exact ⟨rfl, rfl⟩
  | revokedBefore principal key =>
    refine ⟨?_, rfl⟩
    have hunsigned : s.storedSignature row.id = none := by
      by_contra hs
      have := hrows row.id (Option.isSome_iff_ne_none.mpr hs)
      simp [hnew] at this
    have hrevocations : (s.addClaim row).revocations principal key =
        s.revocations principal key := by
      simp only [revocations, addClaim, filter_append, map_append]
      have hsig : (mk (s.claims ++ [row]) s.signatures s.roots).storedSignature row.id =
        none := hunsigned
      simp [hsig]
      rfl
    show List.any _ _ = List.any _ _
    rw [hrevocations]
    congr 1
    refine filter_congr fun other ho => ?_
    obtain ⟨revoker, hmem, rfl⟩ := mem_map.mp ho
    have hsigned := (mem_filter.mp hmem).2
    simp only [Bool.and_eq_true] at hsigned
    rw [hbefore _ hsigned.2]
  | nonceUsedBefore key nonce =>
    refine ⟨?_, rfl⟩
    show List.any _ _ = List.any _ _
    rw [Bool.eq_iff_iff, any_eq_true, any_eq_true]
    refine exists_congr fun entry => and_congr_right fun hentry => ?_
    obtain ⟨other, sig⟩ := entry
    dsimp only
    rw [hbefore other (isSome_storedSignature hentry)]

theorem affects_addClaim {p : String} (hs : s.Signed p) :
    (s.addClaim row).affects p = s.affects p := by
  have hsig : (s.addClaim row).storedSignature p = s.storedSignature p := rfl
  simp only [affects, claimRow_addClaim_of_isSome hs.2, hsig]

theorem nodup_addClaim (hu : (s.claims.map (·.id)).Nodup) (hnew : s.claimRow row.id = none) :
    ((s.addClaim row).claims.map (·.id)).Nodup := by
  show ((s.claims ++ [row]).map (·.id)).Nodup
  rw [map_append, nodup_append_comm]
  refine nodup_cons.mpr ⟨fun hmem => ?_, hu⟩
  obtain ⟨found, hfound, hid⟩ := mem_map.mp hmem
  have hsome := claimRow_of_mem hu hfound
  rw [hid, hnew] at hsome
  cases hsome

/-- **A claim arrives**: it keeps the tables sound, unless it is a grant without its signature
that a cached verdict asked for. -/
theorem insertClaim_sound (h : Sound b last strayed t)
    (hlinks : t.claimRow row.id = none → row.kind = keyGrantedKind →
      ∀ d, (delegationLink row.id, d) ∉ t.links) :
    Sound b last strayed (t.insertClaim row) := by
  unfold Tables.insertClaim
  split
  case isTrue => exact h
  case isFalse hnew =>
    rw [Option.not_isSome_iff_eq_none] at hnew
    have hsigned : ∀ {d}, (t.addClaim row).Signed d → t.Signed d := fun hs =>
      ⟨hs.1, h.rows _ hs.1⟩
    have hsigned' : ∀ {d}, t.Signed d → (t.addClaim row).Signed d := fun {d} hs =>
      ⟨hs.1, by rw [claimRow_addClaim_of_isSome hs.2]; exact hs.2⟩
    refine ⟨nodup_addClaim h.unique hnew, fun id hs => (hsigned' ⟨hs, h.rows id hs⟩).2,
      fun id hid => hsigned' (h.signed id hid), fun id hs => h.cached id (hsigned hs),
      fun id hs hf hq => ?_⟩
    · rcases h.right id (hsigned hs) hf hq with ⟨p, ⟨hps, hpn, hp⟩, l, hl, hlinked⟩ | hst | hc
      · exact .inl ⟨p, ⟨hsigned' hps, hpn, hp⟩, l, (affects_addClaim hps).symm ▸ hl, hlinked⟩
      · exact .inr (.inl hst)
      · refine .inr (.inr (hc.transfer rfl rfl (claimRow_addClaim_of_isSome (hsigned hs).2) rfl
          fun found _ q hq => ?_))
        refine answers_addClaim (s := t.under last) h.rows hnew found _ ?_
        rintro rfl hkind
        refine hlinks hnew hkind id (hc.2 _ hq _ ?_)
        cases hg : t.grantOf row.id <;> simp [linksOf, hg]

end

section

variable {id : String} {sig : ClaimSignature}

theorem storedSignature_addSignature (d : String) : (s.addSignature id sig).storedSignature d =
      (s.storedSignature d).or (if d = id then some sig else none) := by
  simp only [storedSignature, addSignature, lookup_append]
  congr 1
  by_cases h : d = id
  · simp [h]
  · have hbeq : (d == id) = false := by simpa using h
    simp [lookup_cons, h, hbeq]

theorem storedSignature_addSignature_of_ne {d : String} (h : d ≠ id) :
    (s.addSignature id sig).storedSignature d = s.storedSignature d := by
  rw [storedSignature_addSignature, if_neg h, Option.or_none]

/-- The links of a claim that is signed now. -/
theorem affects_addSignature (sig : ClaimSignature) (hs : s.storedSignature id = none) {row : ClaimRow}
    (hrow : s.claimRow id = some row) :
    nonceLink sig.key sig.nonce ∈ (s.addSignature id sig).affects id ∧
      (row.kind = keyGrantedKind → delegationLink id ∈ (s.addSignature id sig).affects id) ∧
      (row.kind = keyRevokedKind → ∀ key, row.fieldKey = some key →
        keyLink row.subject key ∈ (s.addSignature id sig).affects id) := by
  have hrow' : (s.addSignature id sig).claimRow id = some row := hrow
  have hsig : (s.addSignature id sig).storedSignature id = some sig := by
    rw [storedSignature_addSignature, hs, if_pos rfl]
    rfl
  refine ⟨by simp [affects, hrow', hsig],
    fun hkind => by simp [affects, hrow', hsig, hkind], fun hkind key hkey => ?_⟩
  simp [affects, hrow', hsig, hkind, hkey, show keyRevokedKind ≠ keyGrantedKind by decide]

/-- A signature that arrives changes no answer but those its claim's links reach. -/
theorem answers_addSignature (hu : (s.claims.map (·.id)).Nodup) (hs : s.storedSignature id = none)
    (hrow : (s.claimRow id).isSome) (found : ClaimRow) (verdict : String → Verdict) {q : Question}
    (hq : ∀ l ∈ s.linksOf q, l ∉ (s.addSignature id sig).affects id) :
    (answers s found verdict).answer q =
      (answers (s.addSignature id sig) found verdict).answer q := by
  obtain ⟨row, hrow⟩ := Option.isSome_iff_exists.mp hrow
  obtain ⟨hnonce, -, hrevoked⟩ := affects_addSignature sig hs hrow
  cases q with
  | delegation other => rfl
  | isRoot subject key => rfl
  | revokedBefore principal key =>
    have hsame : ∀ revoker ∈ s.claims, (revoker.subject = principal &&
        revoker.kind = keyRevokedKind && revoker.fieldKey = some key) = true →
        revoker.id ≠ id := by
      rintro revoker hmem hrevokes rfl
      simp only [Bool.and_eq_true, decide_eq_true_eq] at hrevokes
      obtain rfl : row = revoker :=
        Option.some.inj (hrow.symm.trans (claimRow_of_mem hu hmem))
      refine hq (keyLink principal key) (by simp [linksOf]) ?_
      rw [← hrevokes.1.1]
      exact hrevoked hrevokes.1.2 key hrevokes.2
    have hrevocations : (s.addSignature id sig).revocations principal key =
        s.revocations principal key := by
      unfold revocations
      congr 1
      refine filter_congr fun revoker hmem => ?_
      by_cases hrevokes : (revoker.subject = principal && revoker.kind = keyRevokedKind &&
        revoker.fieldKey = some key) = true
      · rw [storedSignature_addSignature_of_ne (hsame revoker hmem hrevokes)]
      · rw [Bool.not_eq_true] at hrevokes
        rw [hrevokes, Bool.false_and, Bool.false_and]
    show List.any _ _ = List.any _ _
    rw [hrevocations, Bool.eq_iff_iff, any_eq_true, any_eq_true]
    refine exists_congr fun other => and_congr_right fun hother => ?_
    obtain ⟨revoker, hmem, rfl⟩ := mem_map.mp (mem_filter.mp hother).1
    obtain ⟨hclaim, hrevokes⟩ := mem_filter.mp hmem
    have hne := hsame revoker hclaim (Bool.and_eq_true _ _ ▸ hrevokes).1
    simp only [mayRevoke, storedSignature_addSignature_of_ne hne]
  | nonceUsedBefore key nonce =>
    have hother : (sig.key = key && sig.nonce = nonce) = false := by
      rw [Bool.eq_false_iff]
      intro heq
      simp only [Bool.and_eq_true, decide_eq_true_eq] at heq
      exact hq (nonceLink key nonce) (by simp [linksOf]) (heq.1 ▸ heq.2 ▸ hnonce)
    show s.nonceUsed found key nonce = (s.addSignature id sig).nonceUsed found key nonce
    simp only [nonceUsed, addSignature, any_append, any_cons,
      any_nil, hother, Bool.false_and, Bool.or_false]
    rfl

/-- A claim signed now, with whatever else its arrival changes, keeps the tables sound when it
changes no answer but those its own links reach. -/
theorem arrival_sound (h : Sound b last strayed t) {s' : Stored} (hs : ¬ t.Signed id)
    (hs' : s'.Signed id) (hunique : (s'.claims.map (·.id)).Nodup)
    (hsigned : ∀ d ≠ id, (s'.storedSignature d).isSome → t.Signed d)
    (hkept : ∀ d, t.Signed d →
      s'.claimRow d = t.claimRow d ∧ s'.storedSignature d = t.storedSignature d)
    (hanswers : ∀ found verdict q, (∀ l ∈ t.linksOf q, l ∉ s'.affects id) →
      (answers (t.under last) found verdict).answer q =
        (answers (s'.under last) found verdict).answer q ∧ s'.linksOf q = t.linksOf q) :
    Sound b last strayed { t with toStored := s', fresh := t.fresh ++ [id] } := by
  have hkept' : ∀ {d}, t.Signed d → s'.Signed d := fun {d} hd =>
    ⟨(hkept d hd).2 ▸ hd.1, (hkept d hd).1 ▸ hd.2⟩
  have hne : ∀ {d}, d ∉ t.fresh ++ [id] → d ∉ t.fresh ∧ d ≠ id := fun hd => by
    simpa [not_or] using hd
  have hself : Pending { t with toStored := s', fresh := t.fresh ++ [id] } id := by
    refine ⟨hs', ?_, .inl (by simp)⟩
    by_contra hc
    exact hs (h.signed id hc)
  refine ⟨hunique, fun d hd => ?_, fun d hd => hkept' (h.signed d hd),
    fun d hd hf hq => h.cached d (hsigned d (hne hf).2 hd.1) (hne hf).1 hq, fun d hd hf hq => ?_⟩
  · by_cases hdid : d = id
    · exact hdid ▸ hs'.2
    · exact (hkept' (hsigned d hdid hd)).2
  · obtain ⟨hf, hdid⟩ := hne hf
    have hd := hsigned d hdid hd.1
    rcases h.right d hd hf hq with ⟨p, ⟨hps, hpn, hp⟩, l, hl, hlinked⟩ | hst | hc
    · have haffects : s'.affects p = t.affects p := by
        simp only [affects, (hkept p hps).1, (hkept p hps).2]
      exact .inl ⟨p, ⟨hkept' hps, hpn, hp.imp_left (mem_append_left _)⟩, l, haffects ▸ hl, hlinked⟩
    · exact .inr (.inl hst)
    · by_cases hreach : ∃ q ∈ questions b (t.under last) (current t.verdicts) d,
          ∃ l ∈ t.linksOf q, l ∈ s'.affects id
      · obtain ⟨q, hq, l, hl, hla⟩ := hreach
        exact .inl ⟨id, hself, l, hla, hc.2 q hq l hl⟩
      · refine .inr (.inr (hc.transfer rfl rfl (hkept d hd).1 (hkept d hd).2
          fun found _ q hq => hanswers found _ q fun l hl hla => hreach ⟨q, hq, l, hl, hla⟩))

/-- **A signature arrives** for a claim that is here: it keeps the tables sound. -/
theorem storeClaimSignature_sound (h : Sound b last strayed t) (hrow : (t.claimRow id).isSome) :
    Sound b last strayed (t.storeClaimSignature id sig) := by
  unfold Tables.storeClaimSignature
  split
  case isTrue => exact h
  case isFalse hnew =>
    have hnone := Option.not_isSome_iff_eq_none.mp hnew
    refine arrival_sound h (fun hs => hnew hs.1) ⟨?_, hrow⟩ h.unique (fun d hd hs => ?_)
      (fun d hd => ⟨rfl, ?_⟩) fun found verdict q hq =>
        ⟨answers_addSignature (s := t.under last) h.unique hnone hrow found verdict hq, rfl⟩
    · rw [storedSignature_addSignature, hnone, if_pos rfl]
      rfl
    · rw [storedSignature_addSignature_of_ne hd] at hs
      exact ⟨hs, h.rows d hs⟩
    · exact storedSignature_addSignature_of_ne fun heq => hnew (heq ▸ hd.1)

/-- **A claim is admitted** with the signature its envelope carries. -/
theorem admitClaim_sound (h : Sound b last strayed t) {row : ClaimRow} :
    Sound b last strayed (t.admitClaim row (some sig)) := by
  show Sound b last strayed ((t.insertClaim row).storeClaimSignature row.id sig)
  by_cases hrow : (t.claimRow row.id).isSome
  · have hsame : t.insertClaim row = t := if_pos hrow
    rw [hsame]
    exact storeClaimSignature_sound h hrow
  have hnew := Option.not_isSome_iff_eq_none.mp hrow
  have hnone : t.storedSignature row.id = none := by
    by_contra hs
    exact hrow (h.rows row.id (Option.isSome_iff_ne_none.mpr hs))
  have hstored : (t.insertClaim row).storeClaimSignature row.id sig =
      { t with
        toStored := (t.addClaim row).addSignature row.id sig
        fresh := t.fresh ++ [row.id] } := by
    have hinsert : t.insertClaim row = { t with toStored := t.addClaim row } := if_neg hrow
    have hsig : ¬ ((t.addClaim row).storedSignature row.id).isSome := by
      show ¬ (t.storedSignature row.id).isSome
      simp [hnone]
    rw [hinsert]
    exact if_neg hsig
  have hfound : (t.addClaim row).claimRow row.id = some row := by
    rw [claimRow_addClaim, hnew, if_pos rfl]
    rfl
  have hunique := nodup_addClaim h.unique hnew
  rw [hstored]
  refine arrival_sound h (fun hs => hrow hs.2) ⟨?_, ?_⟩ hunique (fun d hd hs => ?_)
    (fun d hd => ⟨claimRow_addClaim_of_isSome hd.2, ?_⟩) fun found verdict q hq => ?_
  · have hunsigned : (t.addClaim row).storedSignature row.id = none := hnone
    rw [storedSignature_addSignature, hunsigned, if_pos rfl]
    rfl
  · exact Option.isSome_iff_exists.mpr ⟨row, hfound⟩
  · rw [storedSignature_addSignature_of_ne hd] at hs
    exact ⟨hs, h.rows d hs⟩
  · exact storedSignature_addSignature_of_ne fun heq => hrow (heq ▸ hd.2)
  · obtain ⟨-, hgranted, -⟩ := affects_addSignature sig (s := t.addClaim row) hnone hfound
    have hkind : q = .delegation row.id → row.kind ≠ keyGrantedKind := by
      rintro rfl hkind
      refine hq (delegationLink row.id) ?_ (hgranted hkind)
      cases hg : t.grantOf row.id <;> simp [linksOf, hg]
    obtain ⟨hanswer, hlinks⟩ := answers_addClaim (s := t.under last) h.rows hnew found verdict hkind
    refine ⟨hanswer.trans ?_, hlinks⟩
    exact answers_addSignature (s := (t.addClaim row).under last) hunique hnone
      (Option.isSome_iff_exists.mpr ⟨row, hfound⟩) found verdict fun l hl => hq l (hlinks ▸ hl)

end

end SmallTalk.Principal
