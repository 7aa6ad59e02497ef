import SmallTalk.Lib.Sorted
import SmallTalk.Data.Json

/-!
# Principal — keys, grants and claim signatures

Principals are subjects that hold keys. A claim's signature sits beside the claim: it names the
principal that signed, the key, and the chain of grants from that key to a trust root. This
module has the data of a signature and the text a key signs, in its two formats: the content
digest of the claim (`signingBytes`), and named fields laid out as lines (`fieldsSigningBytes`).

Key operations are parameters (`Verifier`): the Ed25519 and ECDSA checks and the base64 decoder
are third-party code. Bytes are kept as the text they encode.
-/

namespace SmallTalk.Principal

/-- A key delegated to a principal, written on the principal's subject. -/
def keyGrantedKind : String := "principal.key-granted"
/-- A delegated key withdrawn, written on the principal's subject. -/
def keyRevokedKind : String := "principal.key-revoked"

def claimSignatureDomain : String := "smallclaims-claim-v1"
def fieldsFormat : String := "fields-v1"
def fieldsDomain : String := "smallclaims-claim-fields-v1"

/-! ### Families and roles -/

inductive Role where
  | root
  | device
  | agent
  | plugin
  deriving DecidableEq, Repr

/-- The `Debug` text. -/
def Role.debug : Role → String
  | .root => "Root"
  | .device => "Device"
  | .agent => "Agent"
  | .plugin => "Plugin"

inductive Family where
  | node
  | person
  | agent
  | plugin
  deriving DecidableEq, Repr

/-- The `Debug` text. -/
def Family.debug : Family → String
  | .node => "Node"
  | .person => "Person"
  | .agent => "Agent"
  | .plugin => "Plugin"

/-- `str::split_once` at a character. -/
def splitOnce (c : Char) (s : String) : Option (String × String) :=
  match s.toList.span (· ≠ c) with
  | (_, []) => none
  | (left, _ :: right) => some (String.ofList left, String.ofList right)

namespace Family

def of (subject : String) : Option Family :=
  match splitOnce '/' subject with
  | none => none
  | some (lead, rest) =>
    if rest = "" then none
    else match lead with
      | "host" => some .node
      | "person" => some .person
      | "agent" => some .agent
      | "plugin" => some .plugin
      | _ => none

/-- Whether a delegation in `role` to a principal of this family may be issued by a principal of
`issuer`. -/
def accepts : Family → Role → Family → Bool → Bool
  | .person, .root, issuer, _ => issuer = .node
  | .person, .device, issuer, samePrincipal => issuer = .person && samePrincipal
  | .agent, .agent, issuer, _ => issuer = .node
  | .plugin, .plugin, issuer, _ => issuer = .node
  | _, _, _, _ => false

/-- Whether a key in `role` may sign claims for a principal of this family. -/
def signsWith : Family → Role → Bool
  | .person, .device => true
  | .agent, .agent => true
  | .plugin, .plugin => true
  | _, _ => false

end Family

/-! ### Grants -/

/-- The fields of a grant that a verdict reads. -/
structure KeyGrant where
  key : String
  role : Role
  issuer : String
  issuerKey : String
  deriving DecidableEq, Repr

namespace KeyGrant

def roleNamed : String → Option Role
  | "root" => some .root
  | "device" => some .device
  | "agent" => some .agent
  | "plugin" => some .plugin
  | _ => none

/-- A role as `serde` reads it: its name, or an object with that name and no content. -/
def roleFrom : Json → Option Role
  | .str name => roleNamed name
  | .obj [(name, .null)] => roleNamed name
  | _ => none

/-- `Option<String>` as `serde` reads it. -/
def labelReads : Option Json → Bool
  | none => true
  | some .null => true
  | some (.str _) => true
  | some _ => false

def read (key role issuer issuerKey : Option Json) (label : Option Json) : Option KeyGrant := do
  let key ← key.bind Json.asStr
  let role ← role.bind roleFrom
  let issuer ← issuer.bind Json.asStr
  let issuerKey ← issuerKey.bind Json.asStr
  if labelReads label then some ⟨key, role, issuer, issuerKey⟩ else none

/-- A struct is read from an object by name, or from an array by position. -/
def fromFields : Json → Option KeyGrant
  | .obj members =>
    read (members.lookup "key") (members.lookup "role") (members.lookup "issuer")
      (members.lookup "issuer_key") (members.lookup "label")
  | .arr [key, role, issuer, issuerKey] => read key role issuer issuerKey none
  | .arr [key, role, issuer, issuerKey, label] => read key role issuer issuerKey label
  | _ => none

end KeyGrant

/-! ### Signatures -/

/-- A claim's signature, carried beside the claim. -/
structure ClaimSignature where
  signer : String
  onBehalf : Option String
  key : String
  chain : List String
  nonce : String
  signedAtUnixMs : ℕ
  signature : String
  format : Option String
  signedFields : List String
  deriving DecidableEq, Repr

/-- A claim as admission judges it; `content` is its content digest. -/
structure Judged where
  id : String
  subject : String
  kind : String
  actor : Option String
  content : String
  fields : Json

/-- What a request says of a field: its value with sorted members, `null` when it is missing. -/
def signedValue (fields : Json) (name : String) : Json :=
  ((fields.get name).getD .null).canonical

/-- The lines after the fields. -/
def signerText (signer : String) (onBehalf : Option String) (key : String) (chain : List String)
    (nonce : String) (signedAtUnixMs : ℕ) : String :=
  signer ++ "\n" ++ onBehalf.getD "" ++ "\n" ++ key ++ "\n" ++ String.intercalate "," chain ++
    "\n" ++ nonce ++ "\n" ++ toString signedAtUnixMs

/-- `NAME=VALUE` and a newline for each name. -/
def fieldLines (fields : Json) (names : List String) : String :=
  String.join (names.map fun name => name ++ "=" ++ (signedValue fields name).text ++ "\n")

def fieldsSigningBytes (subject kind : String) (actor : Option String) (fields : Json)
    (signedFields : List String) (signer : String) (onBehalf : Option String) (key : String)
    (chain : List String) (nonce : String) (signedAtUnixMs : ℕ) : String :=
  fieldsDomain ++ "\n" ++ subject ++ "\n" ++ kind ++ "\n" ++ actor.getD "" ++ "\n" ++
    fieldLines fields (Sorted.sortedSet signedFields) ++
    signerText signer onBehalf key chain nonce signedAtUnixMs

def signingBytes (content signer : String) (onBehalf : Option String) (key : String)
    (chain : List String) (nonce : String) (signedAtUnixMs : ℕ) : String :=
  claimSignatureDomain ++ "\n" ++ content ++ "\n" ++
    signerText signer onBehalf key chain nonce signedAtUnixMs

/-- Third-party key operations. -/
structure Verifier where
  /-- `fleet::verify_signature`: Ed25519. -/
  verifySignature : (key message signature : String) → Bool
  /-- Unpadded base64url. -/
  decode : String → Option (List UInt8)
  /-- ECDSA over P-256 and SHA-256 with a fixed-size signature. -/
  ecdsa : (point : List UInt8) → (message : String) → (signature : List UInt8) → Bool

def verifyKeySignature (v : Verifier) (key message signature : String) : Bool :=
  match stripLeading "p256:" key with
  | none => v.verifySignature key message signature
  | some point =>
    match v.decode point, v.decode signature with
    | some point, some signature => point.length = 65 && v.ecdsa point message signature
    | _, _ => false

namespace ClaimSignature

/-- The bytes a signature covers in a claim; none when its format is not known or names no
field. -/
def signedBytes (sig : ClaimSignature) (claim : Judged) : Option String :=
  match sig.format with
  | none =>
    some (signingBytes claim.content sig.signer sig.onBehalf sig.key sig.chain sig.nonce
      sig.signedAtUnixMs)
  | some format =>
    if format = fieldsFormat ∧ sig.signedFields ≠ [] then
      some (fieldsSigningBytes claim.subject claim.kind claim.actor claim.fields
        sig.signedFields sig.signer sig.onBehalf sig.key sig.chain sig.nonce
        sig.signedAtUnixMs)
    else none

/-- Whether the signature is genuine for this claim. -/
def verifies (v : Verifier) (sig : ClaimSignature) (claim : Judged) : Bool :=
  match sig.signedBytes claim with
  | none => false
  | some bytes => verifyKeySignature v sig.key bytes sig.signature

end ClaimSignature

end SmallTalk.Principal
