import ThreeVa.Provenance.Cert
import ThreeVa.Lib.FirstFit

/-!
# The chain of a certificate

`pm/src/provenance.rs`: signatures under the key of a certificate, and the chain from a leaf to a pinned Fulcio root.
-/

namespace ThreeVa.Provenance
open Text

/-! ## Pinned certificates -/

/-- The characters of a long literal, spelled out so that they need not be decoded. -/
def literal (chars : Str) (s : String) (_ : s.toList = chars) : Str := chars

set_option maxRecDepth 4000 in
def fulcioRootV0DerB64 : Str :=
  literal _
    "MIIB+DCCAX6gAwIBAgITNVkDZoCiofPDsy7dfm6geLbuhzAKBggqhkjOPQQDAzAqMRUwEwYDVQQKEwxzaWdzdG9yZS5kZXYxETAPBgNVBAMTCHNpZ3N0b3JlMB4XDTIxMDMwNzAzMjAyOVoXDTMxMDIyMzAzMjAyOVowKjEVMBMGA1UEChMMc2lnc3RvcmUuZGV2MREwDwYDVQQDEwhzaWdzdG9yZTB2MBAGByqGSM49AgEGBSuBBAAiA2IABLSyA7Ii5k+pNO8ZEWY0ylemWDowOkNa3kL+GZE5Z5GWehL9/A9bRNA3RbrsZ5i0JcastaRL7Sp5fp/jD5dxqc/UdTVnlvS16an+2Yfswe/QuLolRUCrcOE2+2iA5+tzd6NmMGQwDgYDVR0PAQH/BAQDAgEGMBIGA1UdEwEB/wQIMAYBAf8CAQEwHQYDVR0OBBYEFMjFHQBBmiQpMlEk6w2uSu1KBtPsMB8GA1UdIwQYMBaAFMjFHQBBmiQpMlEk6w2uSu1KBtPsMAoGCCqGSM49BAMDA2gAMGUCMH8liWJfMui6vXXBhjDgY4MwslmN/TJxVe/83WrFomwmNf056y1X48F9c4m3a3ozXAIxAKjRay5/aj/jsKKGIkmQatjI8uupHr/+CxFvaJWmpYqNkLDGRU+9orzh5hI2RrcuaQ=="
    String.toList_ofList

set_option maxRecDepth 4000 in
def fulcioRootV1DerB64 : Str :=
  literal _
    "MIIB9zCCAXygAwIBAgIUALZNAPFdxHPwjeDloDwyYChAO/4wCgYIKoZIzj0EAwMwKjEVMBMGA1UEChMMc2lnc3RvcmUuZGV2MREwDwYDVQQDEwhzaWdzdG9yZTAeFw0yMTEwMDcxMzU2NTlaFw0zMTEwMDUxMzU2NThaMCoxFTATBgNVBAoTDHNpZ3N0b3JlLmRldjERMA8GA1UEAxMIc2lnc3RvcmUwdjAQBgcqhkjOPQIBBgUrgQQAIgNiAAT7XeFT4rb3PQGwS4IajtLk3/OlnpgangaBclYpsYBr5i+4ynB07ceb3LP0OIOZdxexX69c5iVuyJRQ+Hz05yi+UF3uBWAlHpiS5sh0+H2GHE7SXrk1EC5m1Tr19L9gg92jYzBhMA4GA1UdDwEB/wQEAwIBBjAPBgNVHRMBAf8EBTADAQH/MB0GA1UdDgQWBBRYwB5fkUWlZql6zJChkyLQKsXF+jAfBgNVHSMEGDAWgBRYwB5fkUWlZql6zJChkyLQKsXF+jAKBggqhkjOPQQDAwNpADBmAjEAj1nHeXZp+13NWBNa+EDsDP8G1WWg1tCMWP/WHPqpaVo0jhsweNFZgSs0eE7wYI4qAjEA2WB9ot98sIkoF3vZYdd3/VtWB5b9TNMea7Ix/stJ5TfcLLeABLE4BNJOsQ4vnBHJ"
    String.toList_ofList

set_option maxRecDepth 4000 in
def fulcioIntermediateV1DerB64 : Str :=
  literal _
    "MIICGjCCAaGgAwIBAgIUALnViVfnU0brJasmRkHrn/UnfaQwCgYIKoZIzj0EAwMwKjEVMBMGA1UEChMMc2lnc3RvcmUuZGV2MREwDwYDVQQDEwhzaWdzdG9yZTAeFw0yMjA0MTMyMDA2MTVaFw0zMTEwMDUxMzU2NThaMDcxFTATBgNVBAoTDHNpZ3N0b3JlLmRldjEeMBwGA1UEAxMVc2lnc3RvcmUtaW50ZXJtZWRpYXRlMHYwEAYHKoZIzj0CAQYFK4EEACIDYgAE8RVS/ysH+NOvuDZyPIZtilgUF9NlarYpAd9HP1vBBH1U5CV77LSS7s0ZiH4nE7Hv7ptS6LvvR/STk798LVgMzLlJ4HeIfF3tHSaexLcYpSASr1kS0N/RgBJz/9jWCiXno3sweTAOBgNVHQ8BAf8EBAMCAQYwEwYDVR0lBAwwCgYIKwYBBQUHAwMwEgYDVR0TAQH/BAgwBgEB/wIBADAdBgNVHQ4EFgQU39Ppz1YkEZb5qNjpKFWixi4YZD8wHwYDVR0jBBgwFoAUWMAeX5FFpWapesyQoZMi0CrFxfowCgYIKoZIzj0EAwMDZwAwZAIwPCsQK4DYiZYDPIaDi5HFKnfxXx6ASSVmERfsynYBiX2X6SJRnZU84/9DZdnFvvxmAjBOt6QpBlc4J/0DxvkTCqpclvziL6BCCPnjdlIB3Pu3BxsPmygUY7Ii2zbdCdliiow="
    String.toList_ofList

/-- A pinned constant, which is base 64. -/
def pinned (b64 : Str) : Bytes := (decodeBase64 b64).getD []

def fulcioRoots : List Bytes := [pinned fulcioRootV0DerB64, pinned fulcioRootV1DerB64]

def fulcioIntermediates : List Bytes := [pinned fulcioIntermediateV1DerB64]

/-- The V0 root only issued certificates until the end of 2022. -/
def fulcioRootV0End : Int := 1672531199

/-! ## Signatures -/

variable {K : Type} (crates : Crates K)

def dssePae (payloadType : Str) (payload : Bytes) : Bytes :=
  let kind := encodeUtf8 payloadType
  encodeUtf8 ("DSSEv1 ".toList ++ decimal kind.length ++ " ".toList) ++ kind ++
    encodeUtf8 (" ".toList ++ decimal payload.length ++ " ".toList) ++ payload

def verifyEcdsa (key : EcPublicKey K) (hash : SigHash) (data sigDer : Bytes) : Bool :=
  match key, hash with
  | .p256 k, .sha256 => crates.verifyPrehash .p256 k (crates.sha256 data) sigDer
  | .p256 k, .sha384 => crates.verifyPrehash .p256 k (crates.sha384 data) sigDer
  | .p384 k, .sha384 => crates.verifyPrehash .p384 k (crates.sha384 data) sigDer
  | .p384 _, .sha256 => false

/-- The digest is the one of the curve. -/
def verifyDsseSignature (key : EcPublicKey K) (payloadType : Str) (payload sigDer : Bytes) : Bool :=
  let pae := dssePae payloadType payload
  match key with
  | .p256 k => crates.verifyPrehash .p256 k (crates.sha256 pae) sigDer
  | .p384 k => crates.verifyPrehash .p384 k (crates.sha384 pae) sigDer

/-! ## The chain -/

def intText (n : Int) : Str := if n < 0 then '-' :: decimal n.natAbs else decimal n.natAbs

def validAt (cert : ParsedCert K) (asOf : Int) : Bool := cert.notBefore ≤ asOf && asOf ≤ cert.notAfter

def issues (asOf : Int) (current candidate : ParsedCert K) : Bool :=
  candidate.subject = current.issuer && candidate.isCa &&
    verifyEcdsa crates candidate.key current.hash current.tbs current.signature && validAt candidate asOf

/-- The first candidate that issued the certificate; one that does not parse is passed over. -/
def findIssuer (asOf : Int) (current : ParsedCert K) : List Bytes → Checked (Option (ParsedCert K))
  | [] => .ok none
  | der :: rest =>
      match parseCert crates der with
      | .ok candidate =>
          if issues crates asOf current candidate then .ok (some candidate) else findIssuer asOf current rest
      | .error (.err _) => findIssuer asOf current rest
      | .error .panic => .error .panic

def climb (candidates : List Bytes) (asOf : Int) : Nat → ParsedCert K → Checked Unit
  | 0, _ => fail "certificate chain too deep".toList
  | n + 1, current =>
      if fulcioRoots.contains current.der then
        ensure (!(current.der = pinned fulcioRootV0DerB64 && fulcioRootV0End < asOf))
          "Fulcio V0 root was retired at the end of 2022".toList
      else do
        match ← findIssuer crates asOf current (candidates ++ fulcioRoots) with
        | some issuer => climb candidates asOf n issuer
        | none =>
            fail ("provenance certificate is not issued by a pinned Fulcio CA (issuer ".toList ++
              crates.debugLossy current.issuer ++ ")".toList)

def verifyFulcioChain (leafDer : Bytes) (bundleChain : List Bytes) (asOf : Int) : Checked Unit := do
  let current ← parseCert crates leafDer
  ensure (!current.isCa && current.hasCodeSigningEku) "provenance certificate is not a code-signing leaf".toList
  ensure (validAt current asOf)
    ("provenance certificate not valid at tlog integration time ".toList ++ intText asOf ++ " (valid ".toList ++
      intText current.notBefore ++ "..".toList ++ intText current.notAfter ++ ")".toList)
  climb crates (bundleChain ++ fulcioIntermediates) asOf 4 current

end ThreeVa.Provenance

/-!
## Chains and the search for them

What a chain of certificates from a leaf to a pinned root is, beside the search of `verify_fulcio_chain` in
`pm/src/provenance.rs`.
-/

namespace ThreeVa.Provenance
open Text FirstFit

variable {K : Type} (crates : Crates K)

/-! ## Chains -/

/-- A leaf that may sign code at a time. -/
structure SigningLeaf (leafDer : Bytes) (asOf : Int) (leaf : ParsedCert K) : Prop where
  parsed : parseCert crates leafDer = .ok leaf
  notCa : leaf.isCa = false
  codeSigning : leaf.hasCodeSigningEku = true
  valid : validAt leaf asOf = true

structure IssuedBy (cert issuer : ParsedCert K) : Prop where
  subject : issuer.subject = cert.issuer
  ca : issuer.isCa = true
  signed : verifyEcdsa crates issuer.key cert.hash cert.tbs cert.signature = true

/-- The leaf, and certificates of the bundle or pinned ones, each the issuer of the one before it, up to a pinned root. -/
structure TrustChain (leafDer : Bytes) (bundleChain : List Bytes) (asOf : Int) (chain : List (ParsedCert K)) : Prop where
  leaf : ∃ leaf, chain.head? = some leaf ∧ SigningLeaf crates leafDer asOf leaf
  issued : chain.IsChain (IssuedBy crates)
  known : ∀ cert ∈ chain.tail, ∃ der ∈ bundleChain ++ fulcioIntermediates ++ fulcioRoots, parseCert crates der = .ok cert
  valid : ∀ cert ∈ chain, validAt cert asOf = true
  root : ∃ root, chain.getLast? = some root ∧ root.der ∈ fulcioRoots ∧
    (root.der = pinned fulcioRootV0DerB64 → asOf ≤ fulcioRootV0End)

def AcceptsChain (leafDer : Bytes) (bundleChain : List Bytes) (asOf : Int) : Prop :=
  verifyFulcioChain crates leafDer bundleChain asOf = .ok ()

/-- What is accepted has a chain, and the order of the bundle does not matter. -/
structure ChainVerified (leafDer : Bytes) (bundleChain : List Bytes) (asOf : Int) : Prop where
  sound : AcceptsChain crates leafDer bundleChain asOf → ∃ chain, TrustChain crates leafDer bundleChain asOf chain
  order : ∀ bundleChain', bundleChain'.Perm bundleChain →
    (AcceptsChain crates leafDer bundleChain' asOf ↔ AcceptsChain crates leafDer bundleChain asOf)

/-! ## The search -/

/-- The search among the certificates of the bundle, which falls back on the pinned ones. -/
def chainSearch (asOf : Int) : Search (ParsedCert K) Bytes where
  read der :=
    match parseCert crates der with
    | .ok cert => some (some cert)
    | .error (.err _) => none
    | .error .panic => some none
  fits := issues crates asOf
  verdict cert :=
    if fulcioRoots.contains cert.der then some (!(cert.der = pinned fulcioRootV0DerB64 && fulcioRootV0End < asOf)) else none
  fallback cert := (findIssuer crates asOf cert (fulcioIntermediates ++ fulcioRoots)).toOption.bind id

/-- From a signing leaf, some choices among the issuers that fit lead to a root, and others do not. -/
def Ambiguous (leafDer : Bytes) (bundleChain : List Bytes) (asOf : Int) : Prop :=
  ∃ leaf, SigningLeaf crates leafDer asOf leaf ∧ (chainSearch crates asOf).CanAccept bundleChain 4 leaf ∧
    (chainSearch crates asOf).CanReject bundleChain 4 leaf

end ThreeVa.Provenance
