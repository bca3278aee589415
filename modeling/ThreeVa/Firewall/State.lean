import ThreeVa.Firewall.Addr
import Mathlib.Algebra.Order.Ring.Rat
import Mathlib.Data.Rat.Floor

/-!
# The firewall

The state of `firewall/src/lib.rs` behind its locks and the operations on it. An instant is a number of
nanoseconds, a call reads the clock once, and `f64` is the rationals.
-/

namespace ThreeVa.Firewall
open Text

abbrev Instant := Nat

def durationFromSecs (secs : Nat) : Nat := secs * 1000000000

/-- The fields of `FirewallConfig` that the operations below read, with its defaults. -/
structure FirewallConfig where
  enabled : Bool := true
  rateLimitRps : Nat := 100
  rateLimitBurst : Nat := 200
  autoBlockThreshold : Nat := 10
  blockDurationSecs : Nat := 300
  blockEscalationFactor : Nat := 2
  maxBlockDurationSecs : Nat := 3600
  strikeDecaySecs : Nat := 3600
  maxConnectionsPerIp : Nat := 50
  maxConnectionsTotal : Nat := 10000
  adaptiveRateLimit : Bool := false
  ewmaAlphaPct : Nat := 20
  trustedProxies : List Str := []

/-! ## Adaptive rate limiting -/

def adaptiveWindowSecs : Nat := 1

def adaptiveHeadroom : ℚ := 3 / 2

def adaptiveMaxRateMultiplier : ℚ := 4

def ewmaUpdate (prev sample : ℚ) (alphaPct : Nat) : ℚ :=
  let alpha : ℚ := (min alphaPct 100 : Nat) / 100
  alpha * sample + (1 - alpha) * prev

def computeEffectiveRps (staticRps : Nat) (ewmaPerWindow : Option ℚ) (adaptive : Bool) : ℚ :=
  let base : ℚ := staticRps
  if !adaptive then base
  else
    let baseline := ewmaPerWindow.getD 0
    let adapted : ℚ := ⌈baseline * adaptiveHeadroom⌉
    min (max adapted base) (base * adaptiveMaxRateMultiplier)

/-! ## Token bucket -/

structure TokenBucket where
  capacity : ℚ
  tokens : ℚ
  rate : ℚ
  lastRefill : Instant
  violations : Nat
  ewmaPerWindow : Option ℚ
  windowCount : Nat
  windowStart : Option Instant

namespace TokenBucket

def new (rateRps burst : Nat) (now : Instant) : TokenBucket :=
  { capacity := burst, tokens := burst, rate := rateRps, lastRefill := now, violations := 0,
    ewmaPerWindow := none, windowCount := 0, windowStart := none }

def noteRequestAt (b : TokenBucket) (now : Instant) (alphaPct : Nat) : TokenBucket :=
  let b := match b.windowStart with
    | none => { b with windowStart := some now }
    | some start =>
        if durationFromSecs adaptiveWindowSecs ≤ now - start then
          let sample : ℚ := b.windowCount
          { b with
            ewmaPerWindow := some (match b.ewmaPerWindow with
              | none => sample
              | some prev => ewmaUpdate prev sample alphaPct)
            windowCount := 0
            windowStart := some now }
        else b
  { b with windowCount := b.windowCount + 1 }

def consume (b : TokenBucket) (now : Instant) : Bool × TokenBucket :=
  let elapsed : ℚ := (now - b.lastRefill : Nat) / 1000000000
  let b := { b with tokens := min (b.tokens + elapsed * b.rate) b.capacity, lastRefill := now }
  if 1 ≤ b.tokens then (true, { b with tokens := b.tokens - 1, violations := b.violations - 1 })
  else (false, { b with violations := b.violations + 1 })

def isIdle (b : TokenBucket) (now idleThreshold : Nat) : Bool := idleThreshold < now - b.lastRefill

end TokenBucket

/-! ## Blocklist and decisions -/

inductive BlockReason
  | rateLimitViolation
  | manualBlock
deriving DecidableEq

structure BlockEntry where
  expires : Instant
  reason : BlockReason
deriving DecidableEq

structure StrikeRecord where
  count : Nat
  last : Instant

def maxStrikes : Nat := 16

inductive FirewallDecision
  | allow
  | rateLimited (retryAfterMs : Nat)
  | blocked (reason : BlockReason) (remainingMs : Nat)
  | connectionLimitReached
deriving DecidableEq

namespace FirewallDecision

def isAllowed : FirewallDecision → Bool
  | allow => true
  | _ => false

def httpStatus : FirewallDecision → Nat
  | allow => 200
  | rateLimited _ => 429
  | blocked _ _ => 403
  | connectionLimitReached => 503

def message : FirewallDecision → String
  | allow => "OK"
  | rateLimited _ => "Too Many Requests"
  | blocked _ _ => "Forbidden"
  | connectionLimitReached => "Service Unavailable"

end FirewallDecision

end ThreeVa.Firewall

/-! ## Firewall -/

namespace ThreeVa
open Firewall

/-- The maps and counters behind the locks, a map as the function of its keys. -/
structure Firewall where
  config : FirewallConfig
  buckets : IpAddr → Option TokenBucket
  blocklist : IpAddr → Option BlockEntry
  strikes : IpAddr → Option StrikeRecord
  connPerIp : IpAddr → Option Nat
  connTotal : Nat

end ThreeVa

namespace ThreeVa.Firewall
open Text

def new (config : FirewallConfig) : Firewall :=
  { config, buckets := fun _ => none, blocklist := fun _ => none, strikes := fun _ => none,
    connPerIp := fun _ => none, connTotal := 0 }

def connCount (fw : Firewall) (ip : IpAddr) : Nat := (fw.connPerIp ip).getD 0

def trustedRules (fw : Firewall) : List ProxyRule := fw.config.trustedProxies.filterMap ProxyRule.parse

def clientIpFromXff (fw : Firewall) (peer : IpAddr) (xff : Option Str) : IpAddr :=
  match xff with
  | none => peer
  | some xff =>
      if fw.trustedRules.isEmpty then peer else (resolveForwardedFor peer xff fw.trustedRules).getD peer

def isTrustedProxy (fw : Firewall) (ip : IpAddr) : Bool := trustedBy fw.trustedRules ip

/-! ### Blocklist -/

def checkBlocklist (fw : Firewall) (ip : IpAddr) (now : Instant) : Option FirewallDecision :=
  match fw.blocklist ip with
  | some entry =>
      if now < entry.expires then some (.blocked entry.reason ((entry.expires - now) / 1000000 % 2 ^ 64))
      else none
  | none => none

def blockIp (fw : Firewall) (ip : IpAddr) (now duration : Nat) (reason : BlockReason) : Firewall :=
  { fw with blocklist := Function.update fw.blocklist ip (some ⟨now + duration, reason⟩) }

def unblockIp (fw : Firewall) (ip : IpAddr) : Firewall :=
  { fw with blocklist := Function.update fw.blocklist ip none }

def isBlocked (fw : Firewall) (ip : IpAddr) (now : Instant) : Bool :=
  match fw.blocklist ip with
  | some entry => now < entry.expires
  | none => false

/-- The loop of `block_duration_secs_for`: multiply and cap, until the cap is reached. -/
def escalate (factor cap : Nat) : (left dur : Nat) → Nat
  | 0, dur => dur
  | left + 1, dur =>
      let dur := min (min (dur * factor) (2 ^ 64 - 1)) cap
      if cap ≤ dur then dur else escalate factor cap left dur

def blockDurationSecsFor (config : FirewallConfig) (strikes : Nat) : Nat :=
  let base := config.blockDurationSecs
  let factor := max config.blockEscalationFactor 1
  let cap := max config.maxBlockDurationSecs base
  escalate factor cap (min strikes maxStrikes - 1) base

def recordAutoBlock (fw : Firewall) (ip : IpAddr) (now : Instant) : Nat × Firewall :=
  let count := min (((fw.strikes ip).map (·.count)).getD 0 + 1) maxStrikes
  let fw := { fw with strikes := Function.update fw.strikes ip (some ⟨count, now⟩) }
  let durationSecs := blockDurationSecsFor fw.config count
  (durationSecs, fw.blockIp ip now (durationFromSecs durationSecs) .rateLimitViolation)

def cleanup (fw : Firewall) (now : Instant) : Firewall :=
  { fw with
    blocklist := fun ip => (fw.blocklist ip).filter fun entry => now < entry.expires
    buckets := fun ip => (fw.buckets ip).filter fun bucket => !bucket.isIdle now (durationFromSecs 300)
    strikes := fun ip => (fw.strikes ip).filter fun rec =>
      now - rec.last ≤ durationFromSecs fw.config.strikeDecaySecs }

/-! ### Connections -/

def checkConnectionBehindProxy (fw : Firewall) (peer : IpAddr) (now : Instant) : FirewallDecision :=
  if !fw.config.enabled then .allow
  else
    match fw.checkBlocklist peer now with
    | some decision => decision
    | none => if fw.config.maxConnectionsTotal ≤ fw.connTotal then .connectionLimitReached else .allow

def checkConnection (fw : Firewall) (ip : IpAddr) (now : Instant) : FirewallDecision :=
  if !fw.config.enabled then .allow
  else
    match fw.checkBlocklist ip now with
    | some decision => decision
    | none =>
        if fw.config.maxConnectionsTotal ≤ fw.connTotal then .connectionLimitReached
        else if fw.config.maxConnectionsPerIp ≤ fw.connCount ip then .connectionLimitReached
        else .allow

def onConnect (fw : Firewall) (ip : IpAddr) : Firewall :=
  if !fw.config.enabled then fw
  else
    { fw with
      connPerIp := Function.update fw.connPerIp ip (some (fw.connCount ip + 1))
      connTotal := fw.connTotal + 1 }

/-- Register that a connection has been closed. An entry that reaches zero is removed. -/
def onDisconnect (fw : Firewall) (ip : IpAddr) : Firewall :=
  if !fw.config.enabled then fw
  else
    { fw with
      connPerIp := match fw.connPerIp ip with
        | some c => Function.update fw.connPerIp ip (if c - 1 = 0 then none else some (c - 1))
        | none => fw.connPerIp
      connTotal := fw.connTotal - 1 }

def onConnectUnattributed (fw : Firewall) : Firewall :=
  if !fw.config.enabled then fw else { fw with connTotal := fw.connTotal + 1 }

def onDisconnectUnattributed (fw : Firewall) : Firewall :=
  if !fw.config.enabled then fw else { fw with connTotal := fw.connTotal - 1 }

/-! ### Requests -/

/-- `(1000.0 / rps) as u64`: a division by zero is infinite and the cast saturates. -/
def retryAfterMs (config : FirewallConfig) : Nat :=
  if config.rateLimitRps = 0 then 2 ^ 64 - 1 else 1000 / config.rateLimitRps

/-- The bucket part of `check_request`, under its lock: whether a token was there, and the violations. -/
def takeToken (fw : Firewall) (ip : IpAddr) (now : Instant) : Bool × Nat × Firewall :=
  let bucket := (fw.buckets ip).getD (.new fw.config.rateLimitRps fw.config.rateLimitBurst now)
  let bucket := bucket.noteRequestAt now fw.config.ewmaAlphaPct
  let bucket := { bucket with
    rate := computeEffectiveRps fw.config.rateLimitRps bucket.ewmaPerWindow fw.config.adaptiveRateLimit }
  let (ok, bucket) := bucket.consume now
  (ok, bucket.violations, { fw with buckets := Function.update fw.buckets ip (some bucket) })

def checkRequest (fw : Firewall) (ip : IpAddr) (now : Instant) : FirewallDecision × Firewall :=
  if !fw.config.enabled then (.allow, fw)
  else
    match fw.checkBlocklist ip now with
    | some decision => (decision, fw)
    | none =>
        let (ok, violations, fw) := fw.takeToken ip now
        if ok then (.allow, fw)
        -- A trusted reverse proxy fronts every client and is never auto-blocked.
        else if fw.isTrustedProxy ip then (.rateLimited (retryAfterMs fw.config), fw)
        else if fw.config.autoBlockThreshold ≤ violations then
          let (durationSecs, fw) := fw.recordAutoBlock ip now
          (.blocked .rateLimitViolation (durationSecs * 1000 % 2 ^ 64), fw)
        else (.rateLimited (retryAfterMs fw.config), fw)

end ThreeVa.Firewall

/-!
## Calls over time

Sequences of calls on one firewall, each at the instant it reads from the clock, and what they answered.
-/

namespace ThreeVa.Firewall

inductive Call
  | checkRequest (ip : IpAddr)
  | cleanup
  | blockIp (ip : IpAddr) (duration : Nat) (reason : BlockReason)
  | unblockIp (ip : IpAddr)
  | onConnect (ip : IpAddr)
  | onDisconnect (ip : IpAddr)

/-- What a request was answered. -/
structure Answer where
  instant : Instant
  ip : IpAddr
  decision : FirewallDecision
deriving DecidableEq

def call (fw : Firewall) (now : Instant) : Call → List Answer × Firewall
  | .checkRequest ip =>
      let (decision, fw) := fw.checkRequest ip now
      ([⟨now, ip, decision⟩], fw)
  | .cleanup => ([], fw.cleanup now)
  | .blockIp ip duration reason => ([], fw.blockIp ip now duration reason)
  | .unblockIp ip => ([], fw.unblockIp ip)
  | .onConnect ip => ([], fw.onConnect ip)
  | .onDisconnect ip => ([], fw.onDisconnect ip)

def runCalls (fw : Firewall) : List (Instant × Call) → List Answer × Firewall
  | [] => ([], fw)
  | (now, c) :: calls =>
      let (answers, fw) := fw.call now c
      let (rest, fw) := fw.runCalls calls
      (answers ++ rest, fw)

def seconds (now : Instant) : ℚ := now / 1000000000

/-- The requests of `ip` answered Allow in the window of `t` seconds from `a` on. -/
def allowedIn (ip : IpAddr) (a t : ℚ) (answers : List Answer) : Nat :=
  answers.countP fun r =>
    r.ip = ip ∧ r.decision.isAllowed = true ∧ a ≤ seconds r.instant ∧ seconds r.instant ≤ a + t

/-- The most tokens a bucket gains in a second. -/
def topRate (config : FirewallConfig) : ℚ :=
  if config.adaptiveRateLimit then config.rateLimitRps * adaptiveMaxRateMultiplier else config.rateLimitRps

/-- The shortest time without a request after which `cleanup` drops a bucket: just over 300 seconds. -/
def dropAfter : ℚ := seconds (durationFromSecs 300 + 1)

end ThreeVa.Firewall
