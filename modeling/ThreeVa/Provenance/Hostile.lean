import ThreeVa.Provenance.Attestations

/-!
# Hostile responses

What makes a check of `pm/src/provenance.rs` index a map without the key, slice a text inside a character or shift over the
width of the word: the inputs that do, and how far the checks must come to get to them.
-/

namespace ThreeVa.Provenance
open Text

variable {K : Type} (crates : Crates K) (artifact : Artifact)

/-! ## Certificates -/

/-- A time whose digits can be cut from the text, though the year cannot be cut from the digits. -/
def SplitsYear (tlv : Tlv) : Prop :=
  (decodeUtf8 tlv.content).isSome = true ∧ (tlv.content.getLast?.any fun b => b = 0x5A || b = 0x7A) = true ∧
    ∃ length year d, (tlv.tag, length, year) ∈ [((0x18 : UInt8), 14, 4), (0x17, 12, 2)] ∧
      getRange tlv.content.dropLast 0 length = some d ∧ isCharBoundary d year = false

/-- The elements of the validity, where everything that is read before them is in order. -/
def validityOf (der : Bytes) : Option (List Tlv) := do
  let cert ← (readTlv der).filter (·.tag = 0x30)
  let tbs ← (children cert.content)[0]?.filter (·.tag = 0x30)
  let sigAlg ← (children cert.content)[1]?.filter (·.tag = 0x30)
  let _sigValue ← (children cert.content)[2]?.filter fun t => t.tag = 0x03 && t.content.head? = some 0x00
  let fields ← (tbsFields tbs).toOption
  let _serial ← fields[0]?.filter (·.tag = 0x02)
  let _tbsSig ← fields[1]?.filter (·.tag = 0x30)
  let _issuer ← fields[2]?.filter (·.tag = 0x30)
  let validity ← fields[3]?.filter (·.tag = 0x30)
  let _subject ← fields[4]?.filter (·.tag = 0x30)
  let spki ← fields[5]?.filter (·.tag = 0x30)
  let _key ← (spkiPublicKey crates spki).toOption
  let _hash ← (sigHashOf sigAlg).toOption
  return children validity.content

/-- A certificate that is in order up to a time that is not. -/
inductive HostileCert (der : Bytes) : Prop
  | notBefore {times : List Tlv} {t : Tlv} : validityOf crates der = some times → times[0]? = some t → SplitsYear t →
      HostileCert der
  | notAfter {times : List Tlv} {s t : Tlv} {from' : Int} : validityOf crates der = some times → times[0]? = some s →
      parseTime s = .ok (some from') → times[1]? = some t → SplitsYear t → HostileCert der

/-- On the way up from a certificate a hostile one comes before the issuer. -/
inductive MeetsHostile (candidates : List Bytes) (asOf : Int) : Nat → ParsedCert K → Prop
  | here {n : Nat} {current : ParsedCert K} {before after : List Bytes} {der : Bytes} :
      fulcioRoots.contains current.der = false → candidates ++ fulcioRoots = before ++ der :: after →
      (∀ d ∈ before, ∀ cert, parseCert crates d = .ok cert → issues crates asOf current cert = false) →
      HostileCert crates der → MeetsHostile candidates asOf (n + 1) current
  | above {n : Nat} {current issuer : ParsedCert K} :
      fulcioRoots.contains current.der = false →
      findIssuer crates asOf current (candidates ++ fulcioRoots) = .ok (some issuer) →
      MeetsHostile candidates asOf n issuer → MeetsHostile candidates asOf (n + 1) current

inductive HostileChain (leafDer : Bytes) (bundleChain : List Bytes) (asOf : Int) : Prop
  | leaf : HostileCert crates leafDer → HostileChain leafDer bundleChain asOf
  | above {leaf : ParsedCert K} : parseCert crates leafDer = .ok leaf → leaf.isCa = false →
      leaf.hasCodeSigningEku = true → validAt leaf asOf = true →
      MeetsHostile crates (bundleChain ++ fulcioIntermediates) asOf 4 leaf → HostileChain leafDer bundleChain asOf

/-! ## Entries of the log -/

/-- An inclusion proof without one of its keys, or with an index and a size that no shift of a word connects. -/
inductive HostilePath (proof : List (Str × Json)) : Prop
  | index : Json.get? proof "logIndex".toList = none → HostilePath proof
  | size {v : Json} {index : Nat} : Json.get? proof "logIndex".toList = some v →
      jsonU64 v "inclusionProof logIndex" = .ok index → Json.get? proof "treeSize".toList = none → HostilePath proof
  | hashes {v w : Json} {index size : Nat} : Json.get? proof "logIndex".toList = some v →
      jsonU64 v "inclusionProof logIndex" = .ok index → Json.get? proof "treeSize".toList = some w →
      jsonU64 w "inclusionProof treeSize" = .ok size → index < size → Json.get? proof "hashes".toList = none →
      HostilePath proof
  | shift {v w u : Json} {index size : Nat} {items : List Json} {hashes : List Bytes} :
      Json.get? proof "logIndex".toList = some v → jsonU64 v "inclusionProof logIndex" = .ok index →
      Json.get? proof "treeSize".toList = some w → jsonU64 w "inclusionProof treeSize" = .ok size → index < size →
      Json.get? proof "hashes".toList = some u → u.asArray = some items → items.mapM (proofHash crates) = .ok hashes →
      crates.overflowChecks = true → 2 ^ 63 < size → index < 2 ^ 63 → HostilePath proof

/-- The entry as it is if it has no inclusion proof. -/
def withoutProof : Json → Json
  | .obj fields => .obj (fields.filter fun x => x.1 ≠ "inclusionProof".toList)
  | v => v

/-- An entry with a signed time stamp, and an inclusion proof that is hostile. -/
inductive HostileEntry (entry : Json) : Prop
  | checkpoint {proof : List (Str × Json)} : verifyRekor crates (withoutProof entry) = .ok () →
      (entry.field "inclusionProof").asObject = some proof → Json.get? proof "checkpoint".toList = none →
      HostileEntry entry
  | path {proof : List (Str × Json)} {key : EcPublicKey K} {root body : Bytes} :
      verifyRekor crates (withoutProof entry) = .ok () → (entry.field "inclusionProof").asObject = some proof →
      rekorPublicKey crates = .ok key →
      verifyCheckpoint crates proof key (crates.sha256 (pinned rekorSpkiDerB64)) = .ok root →
      (entry.field "canonicalizedBody").asStr.bind decodeBase64 = some body → HostilePath crates proof →
      HostileEntry entry

/-! ## Attestations -/

/-- An attestation whose signature verifies, with what it is checked further by. -/
structure SignedUpTo (att : Json) (signed : Signed) (leafDer : Bytes) (chainDers : List Bytes) (sig : Str)
    (tlog : List Json) : Prop where
  envelope : checkEnvelope crates artifact att = .ok signed
  leaf : (leafB64 att).bind decodeBase64 = some leafDer
  signature : ∃ key, extractEcPublicKey crates leafDer = .ok key ∧ verifySignatures crates artifact key signed = .ok sig
  chain : (((certificates att).getD []).filterMap rawBytes).mapM (decodeB64 crates · "certificate rawBytes") = .ok chainDers
  tlog : ((verificationMaterial att).field "tlogEntries").asArray = some tlog

inductive HostileAttestation (att : Json) : Prop
  | entry {signed : Signed} {leafDer : Bytes} {chainDers : List Bytes} {sig : Str} {before after : List Json}
      {entry : Json} : SignedUpTo crates artifact att signed leafDer chainDers sig (before ++ entry :: after) →
      (∀ e ∈ before, verifyRekor crates e = .ok ()) → HostileEntry crates entry → HostileAttestation att
  | chain {signed : Signed} {leafDer : Bytes} {chainDers : List Bytes} {sig : Str} {tlog : List Json} {asOf : Int} :
      SignedUpTo crates artifact att signed leafDer chainDers sig tlog →
      verifyEntries crates leafDer sig signed.payload none tlog = .ok (some asOf) →
      HostileChain crates leafDer chainDers asOf → HostileAttestation att

/-- A response with a hostile attestation behind others that verify. -/
def Hostile (response : Json) : Prop :=
  ∃ before att after, (response.field "attestations").asArray = some (before ++ att :: after) ∧
    (∀ a ∈ before, kind crates artifact (alone a) = .verified) ∧ HostileAttestation crates artifact att

end ThreeVa.Provenance
