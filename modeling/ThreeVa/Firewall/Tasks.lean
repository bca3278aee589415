import ThreeVa.Firewall.State

/-!
# Calls in steps

The calls on one firewall by tasks that run at once. A call takes each lock on its own, so `check_request` and
`cleanup` are several steps and other calls come in between; the clock is read under the lock, except by `cleanup`,
which reads it once at its start. The log, newest record first, is what the calls did to the blocklist and what they
read from it.
-/

namespace ThreeVa.Firewall

/-! ## The parts of a call -/

/-- The part of `record_auto_block` under the lock of the strikes. -/
def strike (fw : Firewall) (ip : IpAddr) (now : Instant) : Nat × Firewall :=
  let count := min (((fw.strikes ip).map (·.count)).getD 0 + 1) maxStrikes
  let fw := { fw with strikes := Function.update fw.strikes ip (some ⟨count, now⟩) }
  (blockDurationSecsFor fw.config count, fw)

theorem recordAutoBlock_eq (fw : Firewall) (ip : IpAddr) (now : Instant) :
    fw.recordAutoBlock ip now = ((fw.strike ip now).1,
      (fw.strike ip now).2.blockIp ip now (durationFromSecs (fw.strike ip now).1) .rateLimitViolation) := rfl

def cleanBlocklist (fw : Firewall) (now : Instant) : Firewall :=
  { fw with blocklist := fun ip => (fw.blocklist ip).filter fun entry => now < entry.expires }

def cleanBuckets (fw : Firewall) (now : Instant) : Firewall :=
  { fw with buckets := fun ip => (fw.buckets ip).filter fun bucket => !bucket.isIdle now (durationFromSecs 300) }

def cleanStrikes (fw : Firewall) (now : Instant) : Firewall :=
  { fw with
    strikes := fun ip => (fw.strikes ip).filter fun rec =>
      now - rec.last ≤ durationFromSecs fw.config.strikeDecaySecs }

theorem cleanup_eq (fw : Firewall) (now : Instant) :
    fw.cleanup now = ((fw.cleanBlocklist now).cleanBuckets now).cleanStrikes now := rfl

/-! ## Tasks -/

/-- Where a call stands between two of its locks. `since` is the length of the log when the call looked the address
up in the blocklist. -/
inductive Task
  | looked (ip : IpAddr) (since : Nat)
  | refused (ip : IpAddr) (since violations : Nat)
  | struck (ip : IpAddr) (since durationSecs : Nat)
  | cleaning (now : Instant)
  | cleaningBuckets
  | cleaningStrikes
  | done
deriving DecidableEq

inductive Record
  /-- A check looked the address up: its answer, unless the call goes on to the bucket. -/
  | checked (ip : IpAddr) (now : Instant) (answer : Option FirewallDecision)
  /-- An entry was inserted, by a call from outside or by an auto-block, in the place of `replaced`. -/
  | inserted (ip : IpAddr) (now expires : Instant) (outside : Bool) (replaced : Option BlockEntry)
  | unblocked (ip : IpAddr)
deriving DecidableEq

structure Shared where
  fw : Firewall
  clock : Instant
  tasks : List Task
  log : List Record

def Shared.new (config : FirewallConfig) : Shared := ⟨Firewall.new config, 0, [], []⟩

namespace Shared

def setTask (s : Shared) (i : Nat) (task : Task) : Shared := { s with tasks := s.tasks.set i task }

def record (s : Shared) (r : Record) : Shared := { s with log := r :: s.log }

def insert (s : Shared) (ip : IpAddr) (duration : Nat) (reason : BlockReason) (outside : Bool) : Shared :=
  { s with
    fw := s.fw.blockIp ip s.clock duration reason
    log := .inserted ip s.clock (s.clock + duration) outside (s.fw.blocklist ip) :: s.log }

end Shared

/-! ## Steps -/

inductive Event
  | tick (elapsed : Nat)
  | checkConnection (ip : IpAddr)
  | checkConnectionBehindProxy (peer : IpAddr)
  /-- A call of `check_request` starts: its lookup in the blocklist. -/
  | checkRequest (ip : IpAddr)
  | takeToken (i : Nat)
  /-- A refused call settles what becomes of it, up to the strike of an auto-block. -/
  | settle (i : Nat)
  /-- The `block_ip` at the end of `record_auto_block`. -/
  | autoBlock (i : Nat)
  | blockIp (ip : IpAddr) (duration : Nat) (reason : BlockReason)
  | unblockIp (ip : IpAddr)
  | cleanup
  | clean (i : Nat)

def taskStep (s : Shared) (i : Nat) (task : Task) : Event → Option Shared
  | .takeToken _ =>
      match task with
      | .looked ip since =>
          let (ok, violations, fw) := s.fw.takeToken ip s.clock
          some { s.setTask i (if ok then .done else .refused ip since violations) with fw }
      | _ => none
  | .settle _ =>
      match task with
      | .refused ip since violations =>
          if s.fw.isTrustedProxy ip then some (s.setTask i .done)
          else if s.fw.config.autoBlockThreshold ≤ violations then
            let (durationSecs, fw) := s.fw.strike ip s.clock
            some { s.setTask i (.struck ip since durationSecs) with fw }
          else some (s.setTask i .done)
      | _ => none
  | .autoBlock _ =>
      match task with
      | .struck ip _ durationSecs =>
          some ((s.setTask i .done).insert ip (durationFromSecs durationSecs) .rateLimitViolation false)
      | _ => none
  | .clean _ =>
      match task with
      | .cleaning now => some { s.setTask i .cleaningBuckets with fw := s.fw.cleanBlocklist now }
      | .cleaningBuckets => some { s.setTask i .cleaningStrikes with fw := s.fw.cleanBuckets s.clock }
      | .cleaningStrikes => some { s.setTask i .done with fw := s.fw.cleanStrikes s.clock }
      | _ => none
  | _ => none

def Event.task : Event → Option Nat
  | .takeToken i | .settle i | .autoBlock i | .clean i => some i
  | _ => none

def step (s : Shared) (e : Event) : Option Shared :=
  match e with
  | .tick elapsed => some { s with clock := s.clock + elapsed }
  | .checkConnection ip => some (s.record (.checked ip s.clock (some (s.fw.checkConnection ip s.clock))))
  | .checkConnectionBehindProxy peer =>
      some (s.record (.checked peer s.clock (some (s.fw.checkConnectionBehindProxy peer s.clock))))
  | .checkRequest ip =>
      if !s.fw.config.enabled then some (s.record (.checked ip s.clock (some .allow)))
      else
        match s.fw.checkBlocklist ip s.clock with
        | some decision => some (s.record (.checked ip s.clock (some decision)))
        | none =>
            some { s.record (.checked ip s.clock none) with tasks := s.tasks ++ [.looked ip (s.log.length + 1)] }
  | .blockIp ip duration reason => some (s.insert ip duration reason true)
  | .unblockIp ip => some { s.record (.unblocked ip) with fw := s.fw.unblockIp ip }
  | .cleanup => some { s with tasks := s.tasks ++ [.cleaning s.clock] }
  | e =>
      match e.task with
      | some i =>
          match s.tasks[i]? with
          | some task => taskStep s i task e
          | none => none
      | none => none

/-! ## Reading the log -/

def Record.inserts (ip : IpAddr) : Record → Bool
  | .inserted other _ _ _ _ => other = ip
  | _ => false

/-- The records that end what an earlier entry for `ip` promises: `unblock_ip`, or a `block_ip` from outside. -/
def Record.lifts (ip : IpAddr) : Record → Bool
  | .unblocked other => other = ip
  | .inserted other _ _ outside _ => other = ip && outside
  | .checked _ _ _ => false

/-- No entry for `ip` was inserted after the log had `since` records. -/
def untouched (ip : IpAddr) (since : Nat) (log : List Record) : Bool :=
  (log.take (log.length - since)).all fun r => !r.inserts ip

/-- What keeps the longer block: an auto-block is inserted only if no entry for its address was inserted since
the call looked it up. -/
def notOvertaken (s : Shared) : Event → Bool
  | .autoBlock i =>
      match s.tasks[i]? with
      | some (.struck ip since _) => untouched ip since s.log
      | _ => true
  | _ => true

end ThreeVa.Firewall
