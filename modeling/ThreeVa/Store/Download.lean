import ThreeVa.Lib.Text
import Mathlib.Logic.Function.Iterate
import ThreeVa.Store.Paths
import ThreeVa.Store.Provenance

/-!
# Downloads

The download phase of `install_with_transitive_opts` of `pm/src/lib.rs`, for one version of a package: the caches that are
looked at before the network, the checks of the bytes, and what they leave behind. Writing to a file succeeds.
-/

/-!
## Integrity of tarballs

`pm/src/signature_verifier.rs`: the check of the bytes of a tarball against the integrity that a registry serves. The
hash functions are parameters.
-/

namespace ThreeVa.Store
open Text

/-- The digests of a byte string, in base 64. -/
structure Digests where
  sha512 : Bytes → Str
  sha256 : Bytes → Str

inductive VerificationStatus
  | verified
  | unverified
  | mismatch
  | missing
  | failed (message : Str)
deriving DecidableEq

namespace Digests

variable (d : Digests)

def compareTo (computed expected : Str) : VerificationStatus := if computed = expected then .verified else .mismatch

def verifyTarball (data : Bytes) (integrity : Str) : VerificationStatus :=
  match stripPrefix "sha512-".toList integrity with
  | some expected => compareTo (d.sha512 data) expected
  | none =>
      match stripPrefix "sha256-".toList integrity with
      | some expected => compareTo (d.sha256 data) expected
      | none => .missing

def verifyFromRegistry (data : Bytes) (integrity : Option Str) : VerificationStatus :=
  match integrity with
  | some hash => d.verifyTarball data hash
  | none => .missing

end Digests

/-- What is called and not modelled: hashes, the extraction of an archive into its files, the repository that the manifest
of a tarball declares, and the cryptographic check of attestations against the digest of the bytes. -/
structure Outside (Att : Type) where
  digests : Digests
  sha512Hex : Bytes → Str
  extract : Bytes → Except Str (List Str)
  declaredRepository : Bytes → Option Str
  verifyAttestations : Att → Str → Except Str VerifyOutcome

/-- What `"3va".trusted` says about a version. -/
inductive TrustStatus
  | trusted
  | unversioned
  | notTrusted
  | integrityUnknown
  | integrityMismatch
deriving DecidableEq

/-- The settings of a run: the manifest, the environment and the scanner, which reports what it finds. -/
structure Policy where
  zeroInstall : Bool
  requireProvenance : Bool
  scan : Bytes → Option Str
  trust : Option Str → TrustStatus

/-- What the registry answers about a version. -/
structure Answer (Att : Type) where
  tarball : Except Str Bytes
  integrity : Option Str
  attestations : Except Str (Option Att)

/-! ## The content store -/

/-- An entry of the store, with the bytes it was extracted from. -/
structure Entry where
  source : Bytes
  files : List Str

def Entry.hasManifest (e : Entry) : Bool := e.files.contains "package.json".toList

/-- `is_cached` -/
def isCached (stored : Option Entry) : Bool := stored.elim false Entry.hasManifest

variable {Att : Type}

/-- The files that `store_tarball` puts at the path of an entry: a complete entry stays, and the rename of the extracted
files fails if there is a directory that is not empty. -/
def storable (o : Outside Att) (bytes : Bytes) (stored : Option Entry) : Option (List Str) :=
  if isCached stored then none
  else
    match o.extract bytes with
    | .error _ => none
    | .ok files => if stored.elim true fun e => e.files.isEmpty then some files else none

def storeTarball (o : Outside Att) (bytes : Bytes) (stored : Option Entry) : Option Entry :=
  ((storable o bytes stored).map fun files => ⟨bytes, files⟩).or stored

/-! ## Checks -/

inductive Rejection
  | integrity
  | noIntegrity
  | scan (report : Str)
  | unversioned (report : Str)
  | provenance (why : Str)
deriving DecidableEq

def Rejection.message (name version : Str) : Rejection → Str
  | integrity => "Integrity check failed for ".toList ++ name ++ "@".toList ++ version
  | noIntegrity =>
      "No integrity hash for ".toList ++ name ++ "@".toList ++ version ++
        " — refusing to install without verification".toList
  | scan report => name ++ "@".toList ++ version ++ " — ".toList ++ report
  | unversioned report =>
      name ++ "@".toList ++ version ++ " — ".toList ++ report ++ "\n  (\"3va\".\"trusted\" lists \"".toList ++ name ++
        "\" without a version; pin \"".toList ++ name ++ "@".toList ++ version ++ "\" to accept this release)".toList
  | provenance why => name ++ "@".toList ++ version ++ " — ".toList ++ why

variable (o : Outside Att) (p : Policy)

def checkIntegrity (bytes : Bytes) (integrity : Option Str) : Except Rejection Unit :=
  match integrity with
  | some hash => if o.digests.verifyFromRegistry bytes (some hash) = .verified then .ok () else .error .integrity
  | none => .error .noIntegrity

def checkScan (bytes : Bytes) (integrity : Option Str) : Except Rejection Unit :=
  match p.scan bytes with
  | none => .ok ()
  | some report =>
      match p.trust integrity with
      | .trusted => .ok ()
      | .unversioned => .error (.unversioned report)
      | _ => .error (.scan report)

/-- Without a provenance that can be checked: a recorded signer refuses the package, and so does the requirement. -/
def checkUnsigned (recorded : Option Str) (why : Str) : Except Rejection Unit × Option Str :=
  match checkSignerPin recorded none with
  | (.error pin, recorded) => (.error (.provenance pin), recorded)
  | (.ok (), recorded) => (if p.requireProvenance then .error (.provenance why) else .ok (), recorded)

def checkProvenance (bytes : Bytes) (attestations : Except Str (Option Att)) (recorded : Option Str) :
    Except Rejection Unit × Option Str :=
  match attestations with
  | .ok (some att) =>
      match o.verifyAttestations att (o.sha512Hex bytes) with
      | .ok (.verified signer others) =>
          let declared := (o.declaredRepository bytes).map normalizeRepository
          let checked := checkSigners declared p.requireProvenance (signer :: others) recorded
          (checked.1.mapError .provenance, checked.2)
      | .ok (.unsupported why) =>
          checkUnsigned p recorded ("provenance required but its bundle format can't be verified: ".toList ++ why)
      | .error why => (.error (.provenance ("invalid provenance: ".toList ++ why)), recorded)
  | .ok none => checkUnsigned p recorded "provenance required but the registry publishes none".toList
  | .error e => checkUnsigned p recorded ("provenance required but unavailable: ".toList ++ e)

/-- The chain of checks, with the recorded signer afterwards. -/
def verify (bytes : Bytes) (integrity : Option Str) (attestations : Except Str (Option Att)) (recorded : Option Str) :
    Except Rejection Unit × Option Str :=
  match checkIntegrity o bytes integrity with
  | .error r => (.error r, recorded)
  | .ok () =>
      match checkScan p bytes integrity with
      | .error r => (.error r, recorded)
      | .ok () => checkProvenance o p bytes attestations recorded

/-! ## The phase -/

/-- What the project and the store hold for a version: the zero-install cache with its sidecar file, the entry of the
store, the file in `.3va-cache`, and the signer recorded for the package. -/
structure Held where
  zero : Option (Bytes × Str)
  stored : Option Entry
  cached : Option Bytes
  recorded : Option Str

/-- A project and a store without anything of the package. -/
def Held.empty : Held := ⟨none, none, none, none⟩

/-- `read_zero_install_cache` -/
def readZeroInstallCache (zero : Option (Bytes × Str)) : Option Bytes :=
  zero.bind fun (bytes, sidecar) =>
    if o.digests.verifyTarball bytes (trim sidecar) = .verified then some bytes else none

/-- The bytes that are at hand without the network; a store hit has none. -/
def localBytes (h : Held) : Option Bytes :=
  if p.zeroInstall then
    match readZeroInstallCache o h.zero with
    | some bytes => some bytes
    | none => if isCached h.stored then some [] else h.cached
  else if isCached h.stored then some [] else h.cached

/-- The task of a download: the bytes, the attestations, and what is held afterwards. -/
def fetch (a : Answer Att) (h : Held) : Except Str Bytes × Except Str (Option Att) × Held :=
  match localBytes o p h with
  | some bytes => (.ok bytes, .ok none, h)
  | none =>
      match a.tarball with
      | .ok bytes => (.ok bytes, a.attestations, { h with cached := some bytes })
      | .error e => (.error e, a.attestations, h)

inductive Outcome
  | linked
  | accepted (bytes : Bytes)
  | rejected (r : Rejection)
  | downloadFailed (e : Str)
deriving DecidableEq

/-- The phase for the version. Without bytes the entry of the store is linked. -/
def download (a : Answer Att) (h : Held) : Outcome × Held :=
  match fetch o p a h with
  | (.error e, _, h) => (.downloadFailed e, h)
  | (.ok [], _, h) => (.linked, h)
  | (.ok (b :: bs), attestations, h) =>
      match verify o p (b :: bs) a.integrity attestations h.recorded with
      | (.error r, recorded) => (.rejected r, { h with recorded })
      | (.ok (), recorded) =>
          (.accepted (b :: bs),
            { h with
              zero := if p.zeroInstall then (a.integrity.map fun hash => (b :: bs, hash)).or h.zero else h.zero
              stored := storeTarball o (b :: bs) h.stored
              recorded })

/-! ## Rejected packages -/

/-- What is held after `n` runs with the same answers. -/
def again (a : Answer Att) (n : Nat) (h : Held) : Held := (fun h => (download o p a h).2)^[n] h

/-- The bytes a run looks at. -/
def servedBytes (a : Answer Att) (h : Held) : Option Bytes := (localBytes o p h).or a.tarball.toOption

/-- The registry serves bytes that pass every check of a project that knows nothing of the package. -/
def Sound (a : Answer Att) (bytes : Bytes) : Prop :=
  a.tarball = .ok bytes ∧ bytes ≠ [] ∧ (verify o p bytes a.integrity a.attestations none).1 = .ok ()

/-- A run that rejects is followed by runs that reject; after an integrity mismatch the right bytes are accepted. -/
def StaysRejected (a : Answer Att) (h : Held) : Prop :=
  ∀ r, (download o p a h).1 = .rejected r →
    (∀ n, ∃ r', (download o p a (again o p a (n + 1) h)).1 = .rejected r') ∧
      (r = .integrity → ∀ n a' bytes, a'.integrity = a.integrity → Sound o p a' bytes →
        (download o p a' (again o p a (n + 1) h)).1 = .accepted bytes)

/-- The bytes match the integrity, or no bytes do that would be accepted. -/
def BytesMatch (a : Answer Att) (h : Held) : Prop :=
  ∀ bytes, servedBytes o p a h = some bytes → bytes ≠ [] → a.integrity.isSome →
    o.digests.verifyFromRegistry bytes a.integrity = .verified ∨
      ∀ (a' : Answer Att) bytes', a'.integrity = a.integrity → ¬ Sound o p a' bytes'

/-- The response is not invalid, and its first signer has built from the declared repository. -/
def responseFits (declared : Option Str) (require : Bool) : Except Str VerifyOutcome → Bool
  | .error _ => false
  | .ok (.unsupported _) => true
  | .ok (.verified signer _) => signerFits declared require signer

/-- Bytes from the network that pass the checks before it have a provenance that fits, unless provenance is required or a
signer is recorded. -/
def ProvenanceKept (a : Answer Att) (h : Held) : Prop :=
  ∀ bytes att, localBytes o p h = none → a.tarball = .ok bytes → bytes ≠ [] → a.attestations = .ok (some att) →
    checkIntegrity o bytes a.integrity = .ok () → checkScan p bytes a.integrity = .ok () →
    p.requireProvenance ∨ h.recorded.isSome ∨
      responseFits ((o.declaredRepository bytes).map normalizeRepository) p.requireProvenance
        (o.verifyAttestations att (o.sha512Hex bytes))

end ThreeVa.Store
