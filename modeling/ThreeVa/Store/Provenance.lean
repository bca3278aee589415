import ThreeVa.Lib.Words

/-!
# Signers of a provenance

From `pm/src/provenance.rs` and `pm/src/lib.rs`: who signed an attestation, the repository a package declares, and the
signer recorded for a package when it is first installed.
-/

namespace ThreeVa.Store
open Text

/-! ## Repositories -/

/-- `replace` of a text that is not empty, at most `n` times. -/
def replaceTimes (pat new : Str) : Nat → Str → Str
  | 0, s => s
  | n + 1, s =>
      match splitOnceStr pat s with
      | some (before, rest) => before ++ new ++ replaceTimes pat new n rest
      | none => s

def replaceStr (pat new s : Str) : Str := replaceTimes pat new s.length s

def contains (pat s : Str) : Bool := (splitOnceStr pat s).isSome

def withoutScheme (s : Str) : Str :=
  match stripPrefix "git@".toList s with
  | some rest =>
      match splitOnce ':' rest with
      | some (host, path) => "https://".toList ++ host ++ "/".toList ++ path
      | none => "https://".toList ++ rest
  | none =>
      match stripPrefix "github:".toList s with
      | some rest => "https://github.com/".toList ++ rest
      | none =>
          if !contains "://".toList s && (s.splitOn '/').length = 2 then "https://github.com/".toList ++ s else s

def normalizeRepository (r : Str) : Str :=
  let s := toAsciiLowercase (trim r)
  let s := (stripPrefix "git+".toList s).getD s
  let s := (stripPrefix "git://".toList s).elim s ("https://".toList ++ ·)
  let s := withoutScheme s
  let s := replaceStr "http://".toList "https://".toList (replaceStr "ssh://git@".toList "https://".toList s)
  let s := s.rdropWhile (· = '/')
  if ".git".toList <:+ s then s.take (s.length - 4) else s

/-! ## Signers -/

structure SignerIdentity where
  issuer : Str
  san : Str
  sourceRepo : Option Str
deriving DecidableEq

namespace SignerIdentity

variable (signer : SignerIdentity)

def repository : Option Str :=
  signer.sourceRepo.or ((splitOnceStr "/.github/".toList signer.san).map Prod.fst)

def pin : Str := signer.issuer ++ " ".toList ++ signer.repository.getD signer.san

end SignerIdentity

/-- A response without a hard failure; one that is verified has a signer. -/
inductive VerifyOutcome
  | verified (signer : SignerIdentity) (others : List SignerIdentity)
  | unsupported (why : Str)

/-- The check against the recorded signer, with the record afterwards: the first signer is recorded. -/
def checkSignerPin (recorded : Option Str) (signer : Option Str) : Except Str Unit × Option Str :=
  match recorded, signer with
  | some pin, some s =>
      if pin = s then (.ok (), recorded)
      else
        (.error ("provenance is signed by `".toList ++ s ++ "`, but earlier versions were signed by `".toList ++ pin ++
          "` (.3va/provenance-signers.json)".toList), recorded)
  | some pin, none =>
      (.error ("earlier versions carried provenance signed by `".toList ++ pin ++
        "`, this one has none (.3va/provenance-signers.json)".toList), recorded)
  | none, some s => (.ok (), some s)
  | none, none => (.ok (), none)

/-- The signer has built from the declared repository; without one it passes unless provenance is required. -/
def signerFits (declared : Option Str) (require : Bool) (signer : SignerIdentity) : Bool :=
  match declared, signer.repository.map normalizeRepository with
  | some d, some s => d = s
  | some _, none => false
  | none, _ => !require

def repositoryMessage (declared : Option Str) (signer : SignerIdentity) : Str :=
  "provenance was built from ".toList ++ (signer.repository.map normalizeRepository).getD signer.san ++
    " but the package declares repository ".toList ++ declared.getD "(none)".toList

/-- `check_signers`; `declared` is the normalised repository of the tarball. -/
def checkSigners (declared : Option Str) (require : Bool) : List SignerIdentity → Option Str → Except Str Unit × Option Str
  | [], recorded => (.ok (), recorded)
  | signer :: signers, recorded =>
      if signerFits declared require signer then
        match checkSignerPin recorded (some signer.pin) with
        | (.ok (), recorded) => checkSigners declared require signers recorded
        | (.error why, recorded) => (.error why, recorded)
      else (.error (repositoryMessage declared signer), recorded)

end ThreeVa.Store
