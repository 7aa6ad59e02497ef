import Mathlib.Data.List.MinMax
import SmallTalk.Canonical.Keys
import SmallTalk.Lib.Fallible

/-!
# Canonical — the documents that claims bind

A claim binds a document name to a content hash. The table has one row for a name and a hash, and
the row is that of the claim which comes first in the canonical order (`selectReplicatedDocument`).

* `selectDocuments_eq`: the rows are the least bindings of the claims processed so far.
-/

namespace SmallTalk.Canonical

open List Fallible

/-- A claim, as the table of documents reads it. -/
structure BindingClaim where
  id : String
  body : Json
  storeIndex : ℕ

structure DocumentRow where
  createdIndex : ℕ
  bindingClaimId : String
  bindingKey : List UInt8

/-- The rows of `documents`, by name and hash. -/
abbrev Documents : Type := String × String → Option DocumentRow

def validateDocumentName (name : String) : Except String Unit :=
  if ¬ startsWith "doc/" name ∨ name.utf8ByteSize ≤ 4 ∨ '@' ∈ name.toList ∨
      "..".toList <:+: name.toList ∨ name.toList.getLast? = some '/' then
    .error "invalid-document-name"
  else .ok ()

/-- The name and the hash that a claim binds. -/
def BindingClaim.binding (claim : BindingClaim) : Except String (String × String) :=
  match (claim.body.get "name").bind Json.asStr, (claim.body.get "hash").bind Json.asStr with
  | some name, some hash => do
      validateDocumentName name
      return (name, hash)
  | _, _ => .error "invalid-document-claim"

/-- `claim_key` reads the key of a stored claim, which ends in its id. -/
structure ClaimKeys where
  claimKey : String → ClaimKey
  key_id : ∀ id, (claimKey id).id = id

variable (stored : ClaimKeys)

/-- The place of a claim in the canonical order. -/
def BindingClaim.order (claim : BindingClaim) : Checkpoint.Tables.CanonicalKey :=
  (stored.claimKey claim.id).canonical

def BindingClaim.row (claim : BindingClaim) (createdIndex : ℕ) : DocumentRow :=
  ⟨createdIndex, claim.id, sortableKey (stored.claimKey claim.id)⟩

def selectReplicatedDocument (documents : Documents) (claim : BindingClaim) (createdIndex : ℕ) :
    Except String Documents := do
  let pair ← claim.binding
  match documents pair with
  | some previous =>
      if claim.order stored < (stored.claimKey previous.bindingClaimId).canonical then
        return Function.update documents pair (some (claim.row stored createdIndex))
      else return documents
  | none => return Function.update documents pair (some (claim.row stored createdIndex))

/-- Claims are processed one after the other, each with the index it is stored at. -/
def selectDocuments (claims : List BindingClaim) : Except String Documents :=
  claims.foldlM (fun documents claim => selectReplicatedDocument stored documents claim
    claim.storeIndex) fun _ => none

/-- The claims that bind a name to a hash. -/
def bindings (claims : List BindingClaim) (pair : String × String) : List BindingClaim :=
  claims.filter fun claim => claim.binding.toOption = some pair

theorem selectDocuments_eq {claims : List BindingClaim}
    (hbinding : ∀ claim ∈ claims, ∃ pair, claim.binding = .ok pair) :
    selectDocuments stored claims = .ok fun pair =>
      ((bindings claims pair).argmin (BindingClaim.order stored)).map fun claim =>
        claim.row stored claim.storeIndex := by
  induction claims using reverseRecOn with
  | nil => rfl
  | append_singleton claims claim ih =>
    rw [forall_mem_append, forall_mem_singleton] at hbinding
    obtain ⟨hbefore, pair, hpair⟩ := hbinding
    rw [selectDocuments, foldlM_append, ← selectDocuments, ih hbefore]
    have hother : ∀ other, other ≠ pair → bindings (claims ++ [claim]) other = bindings claims other :=
      fun other hne => by simp [bindings, hpair, Except.toOption, Ne.symm hne]
    have hsame : bindings (claims ++ [claim]) pair = bindings claims pair ++ [claim] := by
      simp [bindings, hpair, Except.toOption]
    show (selectReplicatedDocument stored _ claim _ >>= pure) = _
    rw [bind_pure, selectReplicatedDocument, hpair]
    simp only [bind, Except.bind]
    cases hleast : (bindings claims pair).argmin (BindingClaim.order stored) with
    | none =>
      refine congrArg Except.ok (funext fun other => ?_)
      by_cases heq : other = pair
      · simp [heq, hsame, argmin_concat, hleast]
      · simp [heq, hother other heq]
    | some least =>
      dsimp only [Option.map_some]
      split
      all_goals
        rename_i horder
        rw [show (stored.claimKey (least.row stored least.storeIndex).bindingClaimId).canonical =
          least.order stored from rfl] at horder
        refine congrArg Except.ok (funext fun other => ?_)
        by_cases heq : other = pair
        · simp [heq, hsame, argmin_concat, hleast, horder]
        · simp [heq, hother other heq]

/-- **The earliest binding.**  Binding claims, processed in any order, leave one row for a name and
a hash: that of the claim that is first in the canonical order of those that bind them. -/
theorem documents_earliest (claims : List BindingClaim)
    (hset : ∀ claim ∈ claims, ∀ other ∈ claims, claim.id = other.id → claim = other)
    (hbinding : ∀ claim ∈ claims, ∃ pair, claim.binding = .ok pair) :
    ∃ documents, selectDocuments stored claims = .ok documents ∧
      ∀ pair row, documents pair = some row ↔
        ∃ claim ∈ claims, claim.binding = .ok pair ∧
          (∀ other ∈ claims, other.binding = .ok pair → claim.order stored ≤ other.order stored) ∧
          row = claim.row stored claim.storeIndex := by
  classical
  refine ⟨_, selectDocuments_eq stored hbinding, fun pair row => ?_⟩
  have hmem : ∀ claim, claim ∈ bindings claims pair ↔ claim ∈ claims ∧ claim.binding = .ok pair := by
    intro claim
    cases hclaim : claim.binding <;> simp [bindings, hclaim, Except.toOption]
  rw [Option.map_eq_some_iff]
  refine exists_congr fun claim => ?_
  rw [argmin_eq_some_iff]
  simp only [hmem]
  constructor
  · rintro ⟨⟨⟨hclaim, hpair⟩, hle, -⟩, rfl⟩
    exact ⟨hclaim, hpair, fun other hother hbound => hle other ⟨hother, hbound⟩, rfl⟩
  · rintro ⟨hclaim, hpair, hle, rfl⟩
    refine ⟨⟨⟨hclaim, hpair⟩, fun other h => hle other h.1 h.2, ?_⟩, rfl⟩
    -- keys end in ids, so two claims of one key are one claim
    rintro other ⟨hother, hbound⟩ hge
    have hkey := ClaimKey.canonical_injective (le_antisymm (hle other hother hbound) hge)
    have hid := congrArg ClaimKey.id hkey
    rw [stored.key_id, stored.key_id] at hid
    rw [hset claim hclaim other hother hid]

def planBinding (id : String) (storeIndex : ℕ) : BindingClaim :=
  ⟨id, .obj [("hash", .str "h"), ("name", .str "doc/plan")], storeIndex⟩

def planKeys : ClaimKeys :=
  ⟨fun id => ⟨if id = "early" then 1 else 2, "w", 0, "b", 0, id⟩, fun _ => rfl⟩

/-- A binding that is processed late and was accepted early. -/
theorem documents_earliest_plan :
    ∃ documents, selectDocuments planKeys [planBinding "late" 1, planBinding "early" 2] =
        .ok documents ∧
      documents ("doc/plan", "h") = some ((planBinding "early" 2).row planKeys 2) := by
  obtain ⟨documents, hrun, hrow⟩ := documents_earliest planKeys
    [planBinding "late" 1, planBinding "early" 2] (by simp [planBinding])
    (by simp only [forall_mem_cons]; exact ⟨⟨_, rfl⟩, ⟨_, rfl⟩, by simp⟩)
  refine ⟨documents, hrun, (hrow _ _).mpr ⟨planBinding "early" 2, by simp, rfl, ?_, rfl⟩⟩
  simp only [forall_mem_cons]
  exact ⟨fun _ => by decide, fun _ => le_rfl, by simp⟩

end SmallTalk.Canonical
