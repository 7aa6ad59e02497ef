import SmallTalk.Principal.Signature

/-!
# Principal — judging a claim's signature

`judge` decides a claim's verdict from the answers of the store (`Facts`). A signature by a node
key stands on the trust roots; every other one names a chain of grants, which `walk` follows from
the signing key up to a node. The answers are given in a monad, since the store's answers
remember what they relied on.

* `verified_chain`: a verified claim of a principal has a valid chain (`Founded`).
* `verified_grant_iff`: grants and the keys that sign them, as in `device_grants_key`.
-/

namespace SmallTalk.Principal

open Option Family

variable {family : Family} {principal key : String}

/-! ### Verdicts -/

inductive Verdict where
  | verified
  | unsigned
  | held (reason : String)
  | invalid (reason : String)
  deriving DecidableEq, Repr

namespace Verdict

def name : Verdict → String
  | .verified => "verified"
  | .unsigned => "unsigned"
  | .held _ => "held"
  | .invalid _ => "invalid"

def reason : Verdict → Option String
  | .held reason => some reason
  | .invalid reason => some reason
  | _ => none

end Verdict

/-- A delegation a chain names, with its verdict. -/
structure Delegation where
  subject : String
  grant : KeyGrant
  verdict : Verdict
  deriving DecidableEq, Repr

/-- What `judge` asks the store. -/
structure Facts (m : Type → Type) where
  /-- A delegation claim by its identifier, when it is here, and its verdict. -/
  delegation : String → m (Option Delegation)
  /-- Whether a key is a trust root for a node. -/
  isRoot : (subject key : String) → m Bool
  /-- Whether a key of a principal was revoked before the judged claim. -/
  revokedBefore : (principal key : String) → m Bool
  /-- Whether an earlier claim carried this key and nonce. -/
  nonceUsedBefore : (key nonce : String) → m Bool

/-! ### The judgement -/

/-- Why a grant does not speak for its issuer. -/
def grantRefusal (claim : Judged) (sig : ClaimSignature) (family : Family) : Option String :=
  match KeyGrant.fromFields claim.fields with
  | none => some "the key grant's fields are malformed"
  | some grant =>
    if grant.issuer = sig.signer ∧ grant.issuerKey = sig.key then
      match of claim.subject with
      | none => some ("`" ++ claim.subject ++ "` cannot hold keys")
      | some subjectFamily =>
        if subjectFamily.accepts grant.role family (claim.subject = grant.issuer) then none
        else
          some ("a " ++ family.debug ++ " cannot grant a " ++ grant.role.debug ++
            " key to `" ++ claim.subject ++ "`")
    else some "a key grant must be signed by its issuer's key"

/-- The family of the principal that signed, or why it may not speak in this claim. -/
def speaker (claim : Judged) (sig : ClaimSignature) : Except String Family :=
  if sig.onBehalf = some sig.signer then .error "a signer cannot act on its own behalf"
  else match of sig.signer with
    | none => .error ("`" ++ sig.signer ++ "` is not a principal")
    | some family =>
      if claim.kind = keyGrantedKind then
        match grantRefusal claim sig family with
        | some reason => .error reason
        | none => .ok family
      else .ok family

/-- Why a delegation does not carry the chain on from `principal` and `key`. -/
def linkRefusal (claim : Judged) (family : Family) (index : ℕ) (id : String)
    (delegation : Delegation) (principal key : String) : Option String :=
  if delegation.subject ≠ principal ∨ delegation.grant.key ≠ key then
    some ("delegation " ++ id ++ " does not grant the key the chain needs")
  else if index = 0 then
    -- A grant claim is signed by its issuer, whose key may be a root key.
    if claim.kind ≠ keyGrantedKind ∧ family.signsWith delegation.grant.role = false then
      some ("a " ++ delegation.grant.role.debug ++ " key does not sign claims")
    else none
  else if delegation.grant.role ≠ .root then some ("delegation " ++ id ++ " cannot issue keys")
  else none

section

variable {m : Type → Type} [Monad m]

/-- The loop of `judge_chain`: from the signing key up, one delegation at a time. -/
def walk (claim : Judged) (family : Family) (facts : Facts m) :
    ℕ → List String → (principal key : String) → m Verdict
  | _, [], _, _ => pure (.invalid "the chain does not reach a node")
  | index, id :: rest, principal, key => do
      match ← facts.delegation id with
      | none => pure (.held ("delegation " ++ id ++ " has not arrived"))
      | some delegation =>
        match linkRefusal claim family index id delegation principal key with
        | some reason => pure (.invalid reason)
        | none =>
          if ← facts.revokedBefore principal key then
            pure (.invalid ("the key of `" ++ principal ++ "` in the chain was revoked"))
          else match delegation.verdict with
            | .held reason => pure (.held reason)
            | .unsigned => pure (.invalid ("delegation " ++ id ++ " is unsigned"))
            | .invalid reason =>
              pure (.invalid ("delegation " ++ id ++ " is invalid: " ++ reason))
            | .verified =>
              if of delegation.grant.issuer = some .node then
                if rest = [] then pure .verified
                else pure (.invalid "the chain goes on past a node")
              else
                walk claim family facts (index + 1) rest delegation.grant.issuer
                  delegation.grant.issuerKey

def judgeChain (claim : Judged) (sig : ClaimSignature) (family : Family) (facts : Facts m) :
    m Verdict :=
  if sig.chain = [] then pure (.invalid "the signature names no delegation for its key")
  else walk claim family facts 0 sig.chain sig.signer sig.key

/-- Decide a claim's verdict. -/
def judge (v : Verifier) (claim : Judged) (signature : Option ClaimSignature) (facts : Facts m) :
    m Verdict :=
  match signature with
  | none => pure .unsigned
  | some sig =>
    if sig.verifies v claim = false then
      pure (.invalid "the signature does not match the claim")
    else do
      if ← facts.nonceUsedBefore sig.key sig.nonce then
        pure (.invalid "the signature was used by an earlier claim")
      else match speaker claim sig with
        | .error reason => pure (.invalid reason)
        | .ok family =>
          if family = .node then
            if sig.chain ≠ [] then pure (.invalid "a node key needs no chain")
            else do
              -- Membership may admit the node later; its claims wait for it.
              if ← facts.isRoot sig.signer sig.key then pure .verified
              else
                pure (.held ("fleet membership admits no such key for `" ++ sig.signer ++ "`"))
          else judgeChain claim sig family facts

end

/-! ### What a verified claim rests on -/

variable {v : Verifier} {claim : Judged} {sig : ClaimSignature} {facts : Facts Id}

theorem judge_verified_iff {signature : Option ClaimSignature} :
    judge v claim signature facts = .verified ↔
      ∃ sig, signature = some sig ∧ sig.verifies v claim = true ∧
        facts.nonceUsedBefore sig.key sig.nonce = false ∧
        ∃ family, speaker claim sig = .ok family ∧
          ((family = .node ∧ sig.chain = [] ∧ facts.isRoot sig.signer sig.key = true) ∨
            (family ≠ .node ∧ sig.chain ≠ [] ∧
              walk claim family facts 0 sig.chain sig.signer sig.key = Verdict.verified)) := by
  cases signature with
  | none => simp [judge, pure]
  | some sig =>
    simp only [judge, judgeChain, bind, pure, some.injEq, exists_eq_left']
    by_cases hv : sig.verifies v claim = true
    case neg => simp [hv]
    by_cases hn : facts.nonceUsedBefore sig.key sig.nonce = true
    case pos => simp [hv, hn]
    cases hs : speaker claim sig with
    | error reason => simp [hv, hn]
    | ok family =>
      by_cases hf : family = .node
      · by_cases hc : sig.chain = []
        · by_cases hr : facts.isRoot sig.signer sig.key = true <;> simp [hv, hn, hf, hc, hr]
        · simp [hv, hn, hf, hc]
      · by_cases hc : sig.chain = [] <;> simp [hv, hn, hf, hc]

/-- What one verified step of the walk found. -/
theorem walk_cons_verified {index : ℕ} {id : String} {rest : List String}
    (h : walk claim family facts index (id :: rest) principal key = Verdict.verified) :
    ∃ d, facts.delegation id = some d ∧
      linkRefusal claim family index id d principal key = none ∧
      facts.revokedBefore principal key = false ∧ d.verdict = .verified ∧
      ((of d.grant.issuer = some .node ∧ rest = []) ∨
        (of d.grant.issuer ≠ some .node ∧
          walk claim family facts (index + 1) rest d.grant.issuer d.grant.issuerKey =
            Verdict.verified)) := by
  simp only [walk, bind, pure] at h
  cases hd : facts.delegation id with
  | none => simp [hd] at h
  | some d =>
    rw [hd] at h
    cases hl : linkRefusal claim family index id d principal key with
    | some reason => simp [hl] at h
    | none =>
      simp only [hl] at h
      by_cases hr : facts.revokedBefore principal key = true
      · simp [hr] at h
      · rw [if_neg hr] at h
        refine ⟨d, rfl, hl, Bool.eq_false_of_not_eq_true hr, ?_⟩
        cases hv : d.verdict with
        | verified =>
          rw [hv] at h
          by_cases hi : of d.grant.issuer = some .node
          · by_cases hrest : rest = []
            · exact ⟨rfl, .inl ⟨hi, hrest⟩⟩
            · simp [hi, hrest] at h
          · simp only [hi, if_false] at h
            exact ⟨rfl, .inr ⟨hi, h⟩⟩
        | _ => simp [hv] at h

theorem speaker_ok (h : speaker claim sig = .ok family) :
    sig.onBehalf ≠ some sig.signer ∧ of sig.signer = some family ∧
      (claim.kind = keyGrantedKind → grantRefusal claim sig family = none) := by
  unfold speaker at h
  by_cases hb : sig.onBehalf = some sig.signer
  · simp [hb] at h
  rw [if_neg hb] at h
  cases hs : of sig.signer with
  | none => simp [hs] at h
  | some f =>
    rw [hs] at h
    by_cases hk : claim.kind = keyGrantedKind
    · cases hr : grantRefusal claim sig f with
      | some reason => simp [hk, hr] at h
      | none =>
        simp only [hk, if_true, hr, Except.ok.injEq] at h
        subst h
        exact ⟨hb, rfl, fun _ => hr⟩
    · simp only [hk, if_false, Except.ok.injEq] at h
      subst h
      exact ⟨hb, rfl, fun hk' => absurd hk' hk⟩

theorem grantRefusal_none {grant : KeyGrant} (hg : KeyGrant.fromFields claim.fields = some grant)
    (h : grantRefusal claim sig family = none) :
    grant.issuer = sig.signer ∧ grant.issuerKey = sig.key ∧
      ∃ subjectFamily, of claim.subject = some subjectFamily ∧
        subjectFamily.accepts grant.role family (claim.subject = grant.issuer) = true := by
  simp only [grantRefusal, hg] at h
  by_cases hi : grant.issuer = sig.signer ∧ grant.issuerKey = sig.key
  · rw [if_pos hi] at h
    cases hf : of claim.subject with
    | none => simp [hf] at h
    | some f =>
      rw [hf] at h
      by_cases ha : f.accepts grant.role family (claim.subject = grant.issuer) = true
      · exact ⟨hi.1, hi.2, f, rfl, ha⟩
      · simp [ha] at h
  · simp [hi] at h

theorem linkRefusal_none {index : ℕ} {id : String} {d : Delegation}
    (h : linkRefusal claim family index id d principal key = none) :
    d.subject = principal ∧ d.grant.key = key ∧
      (index = 0 → claim.kind ≠ keyGrantedKind → family.signsWith d.grant.role = true) ∧
      (index ≠ 0 → d.grant.role = .root) := by
  unfold linkRefusal at h
  by_cases hg : d.subject ≠ principal ∨ d.grant.key ≠ key
  · simp [hg] at h
  rw [if_neg hg] at h
  rw [not_or, not_not, not_not] at hg
  refine ⟨hg.1, hg.2, fun hi hk => ?_, fun hi => ?_⟩
  · by_contra hs
    simp [hi, hk, hs] at h
  · by_contra hr
    simp [hi, hr] at h

/-! ### Grants judged earlier -/

/-- The verified delegations among the answers were judged in earlier judgements, down to the
trust roots: `root` holds of every key that one of the judgements took for a trust root. -/
inductive Founded (v : Verifier) (root : String → String → Prop) : Facts Id → Prop
  | intro {facts : Facts Id} (earlier : String → Facts Id)
      (roots : ∀ subject key, facts.isRoot subject key = true → root subject key)
      (founded : ∀ id d, facts.delegation id = some d → d.verdict = .verified →
        Founded v root (earlier id))
      (judged : ∀ id d, facts.delegation id = some d → d.verdict = .verified →
        ∃ claim signature, claim.kind = keyGrantedKind ∧ claim.subject = d.subject ∧
          KeyGrant.fromFields claim.fields = some d.grant ∧
          judge v claim signature (earlier id) = .verified) :
      Founded v root facts

variable {root : String → String → Prop}

/-- A verified delegation was issued as the families allow, and a node that issued it did so with
a trust root. -/
theorem Founded.delegation (hf : Founded v root facts) {id : String} {d : Delegation}
    (hd : facts.delegation id = some d) (hv : d.verdict = .verified) :
    (∃ subjectFamily issuerFamily, of d.subject = some subjectFamily ∧
      of d.grant.issuer = some issuerFamily ∧
      subjectFamily.accepts d.grant.role issuerFamily (d.subject = d.grant.issuer) = true) ∧
    (of d.grant.issuer = some .node → root d.grant.issuer d.grant.issuerKey) := by
  cases hf with
  | intro earlier _ founded judged =>
    obtain ⟨claim, signature, hk, hsubject, hgrant, hj⟩ := judged id d hd hv
    obtain ⟨sig, -, -, -, family, hs, hrest⟩ := judge_verified_iff.mp hj
    obtain ⟨-, hsigner, hnone⟩ := speaker_ok hs
    obtain ⟨hi, hkey, f, hfam, hacc⟩ := grantRefusal_none hgrant (hnone hk)
    rw [← hi] at hsigner
    refine ⟨⟨f, family, hsubject ▸ hfam, hsigner, hsubject ▸ hacc⟩, fun hnode => ?_⟩
    obtain rfl : family = .node := some.inj (hsigner.symm.trans hnode)
    rcases hrest with ⟨-, -, hroot⟩ | ⟨hne, -⟩
    · cases founded id d hd hv with
      | intro _ roots _ _ => exact hi ▸ hkey ▸ roots _ _ hroot
    · exact absurd rfl hne

/-! ### Valid chains -/

/-- One delegation carries the chain on from the one below it. -/
def Carries (below d : Delegation) : Prop :=
  d.subject = below.grant.issuer ∧ d.grant.key = below.grant.issuerKey ∧ d.grant.role = .root

/-- A chain of delegations from a signer's key to a trust root. -/
structure ValidChain (root : String → String → Prop) (facts : Facts Id) (signer key : String)
    (ds : List Delegation) : Prop where
  first : ∃ d family, ds.head? = some d ∧ d.subject = signer ∧ d.grant.key = key ∧
    of signer = some family ∧ family.signsWith d.grant.role = true
  later : ds.IsChain Carries
  verified : ∀ d ∈ ds, d.verdict = .verified
  standing : ∀ d ∈ ds, facts.revokedBefore d.subject d.grant.key = false
  last : ∃ d, ds.getLast? = some d ∧ of d.grant.issuer = some .node ∧
    root d.grant.issuer d.grant.issuerKey
  others : ∀ d ∈ ds.dropLast, of d.grant.issuer ≠ some .node

/-- What a verified walk from `principal` and `key` found: delegations that carry on from each
other, all verified and standing, the last one and no other issued by a node. -/
theorem walk_verified (hf : Founded v root facts) {index : ℕ} {ids : List String}
    (h : walk claim family facts index ids principal key = Verdict.verified) :
    ∃ d ds, ids.map facts.delegation = (d :: ds).map some ∧
      linkRefusal claim family index (ids.headD "") d principal key = none ∧
      (d :: ds).IsChain Carries ∧ (∀ e ∈ d :: ds, e.verdict = .verified) ∧
      (∀ e ∈ d :: ds, facts.revokedBefore e.subject e.grant.key = false) ∧
      (∃ e, (d :: ds).getLast? = some e ∧ of e.grant.issuer = some .node ∧
        root e.grant.issuer e.grant.issuerKey) ∧
      ∀ e ∈ (d :: ds).dropLast, of e.grant.issuer ≠ some .node := by
  induction ids generalizing index principal key with
  | nil => simp [walk, pure] at h
  | cons id rest ih =>
    obtain ⟨d, hd, hl, hr, hv, hrest⟩ := walk_cons_verified h
    obtain ⟨hsubject, hkey, -⟩ := linkRefusal_none hl
    rw [← hsubject, ← hkey] at hr
    rcases hrest with ⟨hnode, rfl⟩ | ⟨hnode, hwalk⟩
    · refine ⟨d, [], by simp [hd], hl, by simp, by simpa using hv, by simpa using hr,
        ⟨d, rfl, hnode, (hf.delegation hd hv).2 hnode⟩, by simp⟩
    · obtain ⟨e, es, hmap, hl', hchain, hvs, hrs, hlast, hothers⟩ := ih hwalk
      obtain ⟨hs', hk', -, hrole⟩ := linkRefusal_none hl'
      refine ⟨d, e :: es, ?_, hl, ?_, ?_, ?_, ?_, ?_⟩
      · rw [List.map_cons, hd, hmap]
        rfl
      · exact hchain.cons_cons ⟨hs', hk', hrole (Nat.succ_ne_zero _)⟩
      · exact List.forall_mem_cons.mpr ⟨hv, hvs⟩
      · exact List.forall_mem_cons.mpr ⟨hr, hrs⟩
      · simpa using hlast
      · rw [List.dropLast_cons_of_ne_nil (List.cons_ne_nil _ _)]
        exact List.forall_mem_cons.mpr ⟨hnode, hothers⟩

/-- **A verified claim has a valid chain.**  When `judge` verifies a claim that is not a grant,
signed by another principal than a node, then the signature is the claim's own and unused, and
its chain leads from the signing key to a trust root. -/
theorem verified_chain (hf : Founded v root facts) (hkind : claim.kind ≠ keyGrantedKind)
    (hsigner : of sig.signer ≠ some .node)
    (h : judge v claim (some sig) facts = .verified) :
    sig.verifies v claim = true ∧ facts.nonceUsedBefore sig.key sig.nonce = false ∧
      ∃ ds, sig.chain.map facts.delegation = ds.map some ∧
        ValidChain root facts sig.signer sig.key ds := by
  obtain ⟨sig', hsig, hv, hn, family, hs, hrest⟩ := judge_verified_iff.mp h
  obtain rfl := some.inj hsig
  obtain ⟨-, hfamily, -⟩ := speaker_ok hs
  rcases hrest with ⟨rfl, -⟩ | ⟨-, -, hwalk⟩
  · exact absurd hfamily hsigner
  obtain ⟨d, ds, hmap, hl, hchain, hvs, hrs, hlast, hothers⟩ := walk_verified hf hwalk
  obtain ⟨hsubject, hkey, hrole, -⟩ := linkRefusal_none hl
  exact ⟨hv, hn, d :: ds, hmap, ⟨d, family, rfl, hsubject, hkey, hfamily, hrole rfl hkind⟩,
    hchain, hvs, hrs, hlast, hothers⟩

/-! ### A person with one device -/

namespace Sample

instance decidableEqId {α : Type} [DecidableEq α] : DecidableEq (Id α) := inferInstanceAs (DecidableEq α)

/-- A scheme whose signatures are the key and the message. -/
def scheme : Verifier where
  verifySignature key message signature := signature = key ++ ":" ++ message
  decode _ := none
  ecdsa _ _ _ := false

/-- The signature of a claim's content by `key`. -/
def sign (claim : Judged) (signer key : String) (chain : List String) : ClaimSignature where
  signer := signer
  onBehalf := none
  key := key
  chain := chain
  nonce := claim.id
  signedAtUnixMs := 1
  signature := key ++ ":" ++ signingBytes claim.content signer none key chain claim.id 1
  format := none
  signedFields := []

def grant (id key : String) (role issuer issuerKey : String) : Judged where
  id := id
  subject := "person/ada"
  kind := keyGrantedKind
  actor := none
  content := id
  fields := .obj [("key", .str key), ("role", .str role), ("issuer", .str issuer),
    ("issuer_key", .str issuerKey)]

/-- The node `host/oak` grants Ada's root key. -/
def rootGrant : Judged := grant "claim/root" "ada-root" "root" "host/oak" "oak"
/-- Ada's root key grants a device key. -/
def deviceGrant : Judged := grant "claim/device" "ada-phone" "device" "person/ada" "ada-root"
/-- The device key grants another device key. -/
def secondGrant : Judged := grant "claim/second" "eve" "device" "person/ada" "ada-phone"
/-- A note by Ada. -/
def note : Judged := ⟨"claim/note", "note/1", "note.added", some "person/ada", "note", .null⟩

/-- The answers before any grant: `oak` is the trust root of `host/oak`. -/
def base : Facts Id where
  delegation _ := none
  isRoot subject key := decide (subject = "host/oak" ∧ key = "oak")
  revokedBefore _ _ := false
  nonceUsedBefore _ _ := false

/-- The answers with a grant, under the verdict `judge` gave it. -/
def withGrant (claim : Judged) (sig : ClaimSignature) (facts : Facts Id) : Facts Id where
  delegation id :=
    if id = claim.id then
      (KeyGrant.fromFields claim.fields).map fun grant =>
        ⟨claim.subject, grant, judge scheme claim (some sig) facts⟩
    else facts.delegation id
  isRoot := facts.isRoot
  revokedBefore := facts.revokedBefore
  nonceUsedBefore := facts.nonceUsedBefore

def withRoot : Facts Id := withGrant rootGrant (sign rootGrant "host/oak" "oak" []) base
def withDevice : Facts Id :=
  withGrant deviceGrant (sign deviceGrant "person/ada" "ada-root" ["claim/root"]) withRoot

abbrev isOak (subject key : String) : Prop := subject = "host/oak" ∧ key = "oak"

theorem base_founded : Founded scheme isOak base :=
  .intro (fun _ => base) (fun _ _ h => of_decide_eq_true h) (fun _ _ h => by cases h)
    (fun _ _ h => by cases h)

/-- Admitting a grant keeps the answers founded. -/
theorem withGrant_founded {claim : Judged} {sig : ClaimSignature} {facts : Facts Id}
    (hk : claim.kind = keyGrantedKind) (hf : Founded scheme root facts) :
    Founded scheme root (withGrant claim sig facts) := by
  have hbelow := hf
  cases hf with
  | intro earlier roots founded judged =>
    refine .intro (fun id => if id = claim.id then facts else earlier id) roots ?_ ?_
    · intro id d hd hv
      by_cases hid : id = claim.id
      · rwa [if_pos hid]
      · rw [if_neg hid]
        exact founded id d (by simpa [withGrant, hid] using hd) hv
    · intro id d hd hv
      by_cases hid : id = claim.id
      · simp only [withGrant, hid, if_true] at hd
        obtain ⟨grant, hgrant, rfl⟩ := map_eq_some_iff.mp hd
        refine ⟨claim, some sig, hk, rfl, hgrant, ?_⟩
        rwa [if_pos hid]
      · rw [if_neg hid]
        exact judged id d (by simpa [withGrant, hid] using hd) hv

theorem withDevice_founded : Founded scheme isOak withDevice :=
  withGrant_founded rfl (withGrant_founded rfl base_founded)

end Sample

open Sample

theorem verified_chain_note :
    let sig := sign note "person/ada" "ada-phone" ["claim/device", "claim/root"]
    judge scheme note (some sig) withDevice = .verified ∧
      ∃ ds, sig.chain.map withDevice.delegation = ds.map some ∧
        ValidChain isOak withDevice "person/ada" "ada-phone" ds := by
  have h : judge scheme note
      (some (sign note "person/ada" "ada-phone" ["claim/device", "claim/root"])) withDevice =
        .verified := by decide +kernel
  exact ⟨h, (verified_chain withDevice_founded (by decide) (by decide) h).2.2⟩

/-! ### Who may issue keys -/

/-- The key that signed may issue keys: it is a node's trust root, or the chain's first
delegation grants it in the root role. -/
def Entitled (root : String → String → Prop) (facts : Facts Id) (sig : ClaimSignature) : Prop :=
  (of sig.signer = some .node ∧ root sig.signer sig.key) ∨
    ∃ id d, sig.chain.head? = some id ∧ facts.delegation id = some d ∧
      d.grant.key = sig.key ∧ d.grant.role = .root

/-- **Grants and the keys that sign them.**  A verified grant was signed by a key entitled to
issue keys exactly when its chain names at most one delegation: a chain of two starts at a
device. -/
theorem verified_grant_iff (hf : Founded v root facts) (hkind : claim.kind = keyGrantedKind)
    (h : judge v claim (some sig) facts = .verified) :
    Entitled root facts sig ↔ sig.chain.length ≤ 1 := by
  obtain ⟨sig', hsig, -, -, family, hs, hrest⟩ := judge_verified_iff.mp h
  obtain rfl := some.inj hsig
  obtain ⟨-, hfamily, hnone⟩ := speaker_ok hs
  rcases hrest with ⟨rfl, hchain, hroot⟩ | ⟨hne, hchain, hwalk⟩
  · cases hf with
    | intro _ roots _ _ =>
      exact iff_of_true (.inl ⟨hfamily, roots _ _ hroot⟩) (by simp [hchain])
  obtain ⟨id, rest, hids⟩ := List.exists_cons_of_ne_nil hchain
  rw [hids] at hwalk
  obtain ⟨d, hd, hl, -, hv, hlink⟩ := walk_cons_verified hwalk
  obtain ⟨hsubject, hkey, -, -⟩ := linkRefusal_none hl
  obtain ⟨f, g, hf', hg, hacc⟩ := (hf.delegation hd hv).1
  -- Only a person's key issues keys below a node's, so the delegation is one of that person.
  have hperson : family = .person := by
    cases hgrant : KeyGrant.fromFields claim.fields with
    | none =>
      have := hnone hkind
      simp [grantRefusal, hgrant] at this
    | some grant =>
      obtain ⟨-, -, sf, -, hsf⟩ := grantRefusal_none hgrant (hnone hkind)
      cases sf <;> cases hr : grant.role <;> simp_all [accepts]
  obtain rfl : f = .person := by
    rw [hsubject, hfamily, hperson] at hf'
    exact (some.inj hf').symm
  have hroot_iff : d.grant.role = .root ↔ g = .node := by
    cases hr : d.grant.role <;> rw [hr] at hacc <;> simp_all [accepts]
  have hnode_iff : g = .node ↔ rest = [] := by
    rcases hlink with ⟨hnode, hnil⟩ | ⟨hnode, hwalk'⟩
    · exact iff_of_true (some.inj (hg.symm.trans hnode)) hnil
    · refine iff_of_false (fun hgn => hnode (hgn ▸ hg)) ?_
      rintro rfl
      cases hwalk'
  have hlength : sig.chain.length ≤ 1 ↔ rest = [] := by simp [hids]
  rw [hlength]
  refine ⟨?_, fun hnil => ?_⟩
  · rintro (⟨hn, -⟩ | ⟨id', d', hhead, hd', -, hrole⟩)
    · rw [hfamily, hperson] at hn
      cases hn
    · rw [hids] at hhead
      obtain rfl := some.inj hhead
      obtain rfl := some.inj (hd.symm.trans hd')
      exact hnode_iff.mp (hroot_iff.mp hrole)
  · exact .inr ⟨id, d, by rw [hids]; rfl, hd, hkey, hroot_iff.mpr (hnode_iff.mpr hnil)⟩

theorem verified_grant_device :
    Entitled isOak withRoot (sign deviceGrant "person/ada" "ada-root" ["claim/root"]) :=
  (verified_grant_iff (withGrant_founded rfl base_founded) (show deviceGrant.kind = _ from rfl)
    (by decide +kernel)).mpr (by decide)

/-- A device key grants a key to another device, and the grant is verified: the role of the first
delegation is not looked at for grants. -/
theorem device_grants_key :
    let sig := sign secondGrant "person/ada" "ada-phone" ["claim/device", "claim/root"]
    Founded scheme isOak withDevice ∧ secondGrant.kind = keyGrantedKind ∧
      judge scheme secondGrant (some sig) withDevice = .verified ∧
      ¬ Entitled isOak withDevice sig := by
  refine ⟨withDevice_founded, rfl, by decide +kernel, ?_⟩
  rintro (⟨hnode, -⟩ | ⟨id, d, hid, hd, -, hrole⟩)
  · exact absurd hnode (by decide +kernel)
  · obtain rfl : "claim/device" = id := some.inj hid
    have hdevice : (withDevice.delegation "claim/device").map (·.grant.role) = some .device := by
      decide +kernel
    rw [hd] at hdevice
    rw [map_some, hrole] at hdevice
    exact absurd hdevice (by decide)

end SmallTalk.Principal
