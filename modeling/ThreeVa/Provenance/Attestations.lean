import ThreeVa.Provenance.Rekor

/-!
# Attestations

`verify_attestations` of `pm/src/provenance.rs`: what each attestation of a response must say about the package and who
must have signed it.
-/

namespace ThreeVa.Provenance
open Text
open Store (SignerIdentity)

/-! ## Subjects -/

def npmPurlName (pkgName : Str) : Str :=
  match stripPrefix ['@'] pkgName with
  | some rest => "pkg:npm/%40".toList ++ rest
  | none => "pkg:npm/".toList ++ pkgName

def namesPackage (pkgName version : Str) (s : Json) : Bool :=
  (s.field "name").asStr = some (npmPurlName pkgName ++ "@".toList ++ version) ||
    (s.field "name").asStr = some (pkgName ++ "@".toList ++ version)

def subjectMatches (statement : Json) (pkgName version : Str) : Bool :=
  ((statement.field "subject").asArray.map fun subjects => subjects.any (namesPackage pkgName version)).getD false

def hasDigest (tarballSha512Hex : Str) (s : Json) : Bool :=
  ((s.field "digest").field "sha512").asStr.any fun d => eqIgnoreAsciiCase d tarballSha512Hex

def subjectDigestMatches (statement : Json) (tarballSha512Hex : Str) : Bool :=
  (statement.field "subject").asArray.any fun subjects => subjects.any (hasDigest tarballSha512Hex)

/-! ## One attestation -/

/-- The package that a response is checked for. -/
structure Artifact where
  pkgName : Str
  version : Str
  tarballSha512Hex : Str

def Artifact.label (a : Artifact) : Str := a.pkgName ++ "@".toList ++ a.version

inductive VerifyOutcome
  | verified (signers : List SignerIdentity)
  | unsupported (why : Str)

/-- What the signed part of an attestation is. -/
structure Signed where
  predicateType : Str
  envelope : Json
  payloadType : Str
  payload : Bytes

variable {K : Type} (crates : Crates K) (artifact : Artifact)

/-- The statement that the payload holds. -/
def statementOf (payload : Bytes) : Checked Json :=
  match crates.fromSlice payload with
  | .ok v => .ok v
  | .error e => fail ("in-toto payload is not JSON: ".toList ++ e)

def checkStatement (predicateType : Str) (statement : Json) : Checked Unit := do
  ensure (subjectMatches statement artifact.pkgName artifact.version)
    ("provenance subject does not match ".toList ++ artifact.label)
  ensure (subjectDigestMatches statement artifact.tarballSha512Hex)
    ("provenance subject digest does not match the downloaded tarball of ".toList ++ artifact.label)
  ensure ((statement.field "_type").asStr = some "https://in-toto.io/Statement/v1".toList ||
      (statement.field "_type").asStr = some "https://in-toto.io/Statement/v0.1".toList)
    "payload is not an in-toto Statement".toList
  ensure (predicateType = (statement.field "predicateType").asStr.getD [])
    "predicateType mismatch between attestation and statement".toList

/-- The checks before the key is looked at. -/
def checkEnvelope (att : Json) : Checked Signed := do
  let predicateType ← okOr (att.field "predicateType").asStr "attestation missing predicateType".toList
  let bundle := att.field "bundle"
  let mediaType ← okOr (bundle.field "mediaType").asStr "bundle missing mediaType".toList
  ensure ("application/vnd.dev.sigstore.bundle".toList.isPrefixOf mediaType)
    ("unsupported bundle mediaType: ".toList ++ mediaType)
  let envelope := bundle.field "dsseEnvelope"
  ensure envelope.asObject.isSome "bundle has no dsseEnvelope".toList
  let payloadType ← okOr (envelope.field "payloadType").asStr "dsseEnvelope missing payloadType".toList
  ensure (payloadType = "application/vnd.in-toto+json".toList) ("unsupported DSSE payloadType: ".toList ++ payloadType)
  let payloadB64 ← okOr (envelope.field "payload").asStr "dsseEnvelope missing payload".toList
  let payload ← okOr (decodeBase64 payloadB64)
    ("payload is not valid base64: ".toList ++ crates.base64Error payloadB64)
  let statement ← statementOf crates payload
  checkStatement artifact predicateType statement
  return { predicateType, envelope, payloadType, payload }

def verificationMaterial (att : Json) : Json := (att.field "bundle").field "verificationMaterial"

def certificates (att : Json) : Option (List Json) :=
  (((verificationMaterial att).field "x509CertificateChain").field "certificates").asArray

def rawBytes (cert : Json) : Option Str := (cert.field "rawBytes").asStr

/-- The leaf certificate, in base 64. -/
def leafB64 (att : Json) : Option Str := ((certificates att).bind List.head?).bind rawBytes

/-- The first signature that verifies; one that is not base 64 before it is an error. -/
def findSignature (key : EcPublicKey K) (signed : Signed) : List Json → Checked (Option Str)
  | [] => .ok none
  | sig :: rest => do
      let sigB64 ← okOr (sig.field "sig").asStr "signature missing 'sig'".toList
      let sigDer ← okOr (decodeBase64 sigB64) ("signature is not valid base64: ".toList ++ crates.base64Error sigB64)
      if verifyDsseSignature crates key signed.payloadType signed.payload sigDer then return some sigB64
      else findSignature key signed rest

def verifySignatures (key : EcPublicKey K) (signed : Signed) : Checked Str := do
  let sigs ← okOr (signed.envelope.field "signatures").asArray "dsseEnvelope has no signatures array".toList
  ensure (!sigs.isEmpty) "dsseEnvelope signatures array empty".toList
  okOr (← findSignature crates key signed sigs)
    ("DSSE signature verification failed for ".toList ++ artifact.label ++ " (predicate ".toList ++
      signed.predicateType ++ ")".toList)

/-- Every entry is verified; the first one that records this signature gives the time. -/
def verifyEntries (leafDer : Bytes) (sigB64 : Str) (payload : Bytes) :
    Option Int → List Json → Checked (Option Int)
  | asOf, [] => .ok asOf
  | asOf, entry :: rest => do
      mapErr ("invalid Rekor entry: ".toList ++ ·) (verifyRekor crates entry)
      if asOf.isNone && entryBinds crates entry leafDer sigB64 payload then
        let time ← jsonU64 (entry.field "integratedTime") "integratedTime"
        verifyEntries leafDer sigB64 payload (some (toI64 time)) rest
      else verifyEntries leafDer sigB64 payload asOf rest

/-- The checks of an attestation that carries a leaf certificate. -/
def verifySigner (att : Json) (signed : Signed) (leaf : Str) : Checked SignerIdentity := do
  let leafDer ← decodeB64 crates leaf "certificate rawBytes"
  let key ← extractEcPublicKey crates leafDer
  let chainDers ← (((certificates att).getD []).filterMap rawBytes).mapM (decodeB64 crates · "certificate rawBytes")
  let verifiedSig ← verifySignatures crates artifact key signed
  let tlog ← okOr ((verificationMaterial att).field "tlogEntries").asArray "bundle has no Rekor tlog entries".toList
  ensure (!tlog.isEmpty) "bundle has no Rekor transparency log entries".toList
  let asOf ← okOr (← verifyEntries crates leafDer verifiedSig signed.payload none tlog)
    "no Rekor entry in the bundle records this signature and certificate".toList
  mapErr ("provenance signer is not Fulcio-issued: ".toList ++ ·) (verifyFulcioChain crates leafDer chainDers asOf)
  signerIdentity (← parseCert crates leafDer)

/-- The body of the loop: the signer, or why the bundle cannot be checked. -/
def verifyAttestation (att : Json) : Checked (Except Str SignerIdentity) := do
  let signed ← checkEnvelope crates artifact att
  match leafB64 att with
  | some leaf => return .ok (← verifySigner crates artifact att signed leaf)
  | none => return .error "bundle verificationMaterial carries no x509CertificateChain".toList

/-! ## A response -/

def verifyEach (signers : List SignerIdentity) : List Json → Checked VerifyOutcome
  | [] => .ok (.verified signers)
  | att :: rest => do
      match ← verifyAttestation crates artifact att with
      | .ok signer => verifyEach (signers ++ [signer]) rest
      | .error why => return .unsupported why

def verifyAttestations (response : Json) : Checked VerifyOutcome := do
  let attestations ← okOr (response.field "attestations").asArray
    "provenance response missing 'attestations' array".toList
  ensure (!attestations.isEmpty) "provenance response contains zero attestations".toList
  verifyEach crates artifact [] attestations

/-! ## The order of a response -/

def attestationsOf (response : Json) : List Json := (response.field "attestations").asArray.getD []

/-- The response with one attestation. -/
def alone (att : Json) : Json := .obj [("attestations".toList, .arr [att])]

/-- Two responses with the same attestations in some order. -/
def Reordered (r r' : Json) : Prop :=
  ∃ items items', (r.field "attestations").asArray = some items ∧ (r'.field "attestations").asArray = some items' ∧
    items.Perm items'

inductive Kind
  | verified
  | unsupported
  | err
  | panic
deriving DecidableEq

def kindOf : Checked VerifyOutcome → Kind
  | .ok (.verified _) => .verified
  | .ok (.unsupported _) => .unsupported
  | .error (.err _) => .err
  | .error .panic => .panic

def kind (response : Json) : Kind := kindOf (verifyAttestations crates artifact response)

/-- An attestation that does not verify although its bundle can be checked. -/
def Invalid (att : Json) : Prop :=
  kind crates artifact (alone att) ≠ .verified ∧ kind crates artifact (alone att) ≠ .unsupported

/-- What a response is says as much as its attestations, in whatever order they come. -/
structure OrderSafe (response : Json) : Prop where
  all : kind crates artifact response = .verified →
    ∀ att ∈ attestationsOf response, kind crates artifact (alone att) = .verified
  invalid : (∃ att ∈ attestationsOf response, Invalid crates artifact att) → kind crates artifact response = .err
  order : ∀ response', Reordered response response' → kind crates artifact response' = kind crates artifact response

/-- The statement is in order, and there is no certificate to check its signature with. -/
def Uncheckable (att : Json) : Prop := (checkEnvelope crates artifact att).isOk = true ∧ leafB64 att = none

/-- A check of the signer panics. -/
def Panics (att : Json) : Prop :=
  ∃ signed leaf, checkEnvelope crates artifact att = .ok signed ∧ leafB64 att = some leaf ∧
    verifySigner crates artifact att signed leaf = .error .panic

/-! ## What an attestation binds -/

/-- The subjects of the statement of an attestation. -/
def subjectsOf (att : Json) : List Json :=
  match checkEnvelope crates artifact att with
  | .ok signed => ((statementOf crates signed.payload).toOption.bind fun st => (st.field "subject").asArray).getD []
  | .error _ => []

def leafDerOf (att : Json) : Bytes := ((leafB64 att).bind decodeBase64).getD []

/-- One of the signatures of the envelope is over the payload, under this key. -/
def SignedBy (key : EcPublicKey K) (signed : Signed) : Prop :=
  ∃ sigs sig sigDer, (signed.envelope.field "signatures").asArray = some sigs ∧ sig ∈ sigs ∧
    (sig.field "sig").asStr.bind decodeBase64 = some sigDer ∧
    verifyDsseSignature crates key signed.payloadType signed.payload sigDer = true

/-- One subject of the signed statement is the artifact, and the signature is under the key of the leaf that the chain
was verified for. -/
structure Bound (att : Json) : Prop where
  subject : ∃ s ∈ subjectsOf crates artifact att,
    namesPackage artifact.pkgName artifact.version s = true ∧ hasDigest artifact.tarballSha512Hex s = true
  key : ∃ signed cert chain asOf, checkEnvelope crates artifact att = .ok signed ∧
    verifyFulcioChain crates (leafDerOf att) chain asOf = .ok () ∧
    parseCert crates (leafDerOf att) = .ok cert ∧
    extractEcPublicKey crates (leafDerOf att) = .ok cert.key ∧ SignedBy crates cert.key signed

/-- The name stands in some subjects and the digest in others. -/
def SplitSubject (att : Json) : Prop :=
  ∀ s ∈ subjectsOf crates artifact att, namesPackage artifact.pkgName artifact.version s = true →
    hasDigest artifact.tarballSha512Hex s = false

/-- A field before the key of the leaf looks like a key, and holds another one. -/
def OtherKey (att : Json) : Prop :=
  ∃ t, lookalike (leafDerOf att) = some t ∧
    ∀ cert, parseCert crates (leafDerOf att) = .ok cert → spkiPublicKey crates t ≠ .ok cert.key

end ThreeVa.Provenance
