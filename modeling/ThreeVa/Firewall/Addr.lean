import ThreeVa.Lib.Text

/-!
# Addresses and trusted proxies

`ProxyRule` and `resolve_forwarded_for` of `firewall/src/lib.rs`, with the address parser of the standard library.
-/

namespace ThreeVa.Firewall
open Text

inductive IpAddr
  | v4 (addr : BitVec 32)
  | v6 (addr : BitVec 128)
deriving DecidableEq

/-! ## The parser of `IpAddr`

Each reader returns what it read and the text left, or nothing and the text stays as it was. -/

/-- A number of at most `maxDigits` digits and at most `max`. -/
def readNumber (radix maxDigits max : Nat) (allowZeroPrefix : Bool) (s : Str) : Option (Nat × Str) :=
  let ds := s.takeWhile fun c => (toDigit radix c).isSome
  if ds = [] ∨ ds.length > maxDigits ∨ (!allowZeroPrefix ∧ ds.head? = some '0' ∧ ds.length > 1) then none
  else
    ((digitsValue radix 0 ds).filter (· ≤ max)).map fun n => (n, s.dropWhile fun c => (toDigit radix c).isSome)

/-- What `read` finds after the separator; the first element has none before it. -/
def readSeparated {α : Type} (sep : Char) (first : Bool) (read : Str → Option (α × Str)) (s : Str) :
    Option (α × Str) :=
  if first then read s else (stripPrefix [sep] s).bind read

/-- Four decimal numbers, none of them with a leading zero. -/
def readIpv4Addr (s : Str) : Option (BitVec 32 × Str) := do
  let octet := readNumber 10 3 255 false
  let (a, s) ← readSeparated '.' true octet s
  let (b, s) ← readSeparated '.' false octet s
  let (c, s) ← readSeparated '.' false octet s
  let (d, s) ← readSeparated '.' false octet s
  return (BitVec.ofNat 32 (((a * 256 + b) * 256 + c) * 256 + d), s)

/-- Groups of up to four hexadecimal digits, at most `left` of them; the last two may be written as an IPv4
address. The flag says whether they were. -/
def readGroups : (left : Nat) → (first : Bool) → Str → List Nat × Bool × Str
  | 0, _, s => ([], false, s)
  | left + 1, first, s =>
      match if 1 ≤ left then readSeparated ':' first readIpv4Addr s else none with
      | some (v4, rest) => ([v4.toNat / 65536, v4.toNat % 65536], true, rest)
      | none =>
          match readSeparated ':' first (readNumber 16 4 65535 true) s with
          | some (g, rest) =>
              let (gs, v4, rest) := readGroups left false rest
              (g :: gs, v4, rest)
          | none => ([], false, s)

def ipv6OfGroups (gs : List Nat) : BitVec 128 := BitVec.ofNat 128 (gs.foldl (fun acc g => acc * 65536 + g) 0)

def readIpv6Addr (s : Str) : Option (BitVec 128 × Str) :=
  let (head, headIpv4, rest) := readGroups 8 true s
  if head.length = 8 then some (ipv6OfGroups head, rest)
  else if headIpv4 then none
  else
    (stripPrefix [':', ':'] rest).map fun rest =>
      let (tail, _, rest) := readGroups (8 - (head.length + 1)) true rest
      (ipv6OfGroups (head ++ List.replicate (8 - head.length - tail.length) 0 ++ tail), rest)

/-- `str::parse::<IpAddr>`: the whole text is one address. -/
def parseIp (s : Str) : Option IpAddr :=
  let read : Option (IpAddr × Str) := match readIpv4Addr s with
    | some (a, rest) => some (.v4 a, rest)
    | none => (readIpv6Addr s).map fun p => (.v6 p.1, p.2)
  read.bind fun p => if p.2 = [] then some p.1 else none

/-! ## Trusted proxies -/

def IpAddr.bits : IpAddr → Nat
  | v4 _ => 32
  | v6 _ => 128

structure ProxyRule where
  addr : IpAddr
  len : Nat
  len_le : len ≤ addr.bits

/-- Parse `"1.2.3.4"`, `"10.0.0.0/8"`, `"::1"`, `"fd00::/8"` … -/
def ProxyRule.parse (s : Str) : Option ProxyRule := do
  let (ipPart, len) ← match splitOnce '/' s with
    | some (ip, p) => (parseUnsigned 10 255 p).map fun n => (ip, n)
    | none => (parseIp s).map fun a => (s, a.bits)
  let addr ← parseIp (trim ipPart)
  if h : len ≤ addr.bits then some ⟨addr, len, h⟩ else none

/-- True when `ip` falls inside this rule's range. Families must match. -/
def ProxyRule.matches (r : ProxyRule) (ip : IpAddr) : Bool :=
  match r.addr, ip with
  | .v4 base, .v4 other =>
      if r.len = 0 then true
      else
        let mask := BitVec.allOnes 32 <<< (32 - r.len)
        base &&& mask = other &&& mask
  | .v6 base, .v6 other =>
      if r.len = 0 then true
      else
        let mask := BitVec.allOnes 128 <<< (128 - r.len)
        base &&& mask = other &&& mask
  | _, _ => false

def trustedBy (trusted : List ProxyRule) (ip : IpAddr) : Bool := trusted.any (·.matches ip)

/-! ## `X-Forwarded-For` -/

def xffEntries (xff : Str) : List Str := (xff.splitOn ',').map trim

/-- The loop over the entries, last one first: the first address no rule covers. A malformed entry ends it. -/
def firstUntrusted (trusted : List ProxyRule) : List Str → Option IpAddr
  | [] => none
  | part :: rest =>
      match parseIp part with
      | some a => if trustedBy trusted a then firstUntrusted trusted rest else some a
      | none => none

def resolveForwardedFor (peer : IpAddr) (xff : Str) (trusted : List ProxyRule) : Option IpAddr :=
  if trustedBy trusted peer then
    match firstUntrusted trusted (xffEntries xff).reverse with
    | some a => some a
    | none => (xffEntries xff).head?.bind parseIp
  else none

def TrustedEntry (trusted : List ProxyRule) (e : Str) : Prop :=
  ∃ a, parseIp e = some a ∧ trustedBy trusted a = true

end ThreeVa.Firewall
