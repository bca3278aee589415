import ThreeVa.Firewall.State

/-!
# Connection accounting

The accept loop, the TLS handshake, `handle_connection` and the upgrade driver of
`js/src/builtins/http_server.rs`, as far as they decide which connection holds a slot of the firewall. Each
firewall call is one step, so the tasks interleave between a check and the registration that follows it.
-/

namespace ThreeVa.HttpServer
open Text ThreeVa.Firewall

abbrev Headers := List (Str × Str)

/-! ## What a request head says -/

def xForwardedFor : Str := "x-forwarded-for".toList

def xffPresent (headers : Headers) : Bool := headers.any fun h => h.1 = xForwardedFor

def headerValue (name : Str) (headers : Headers) : Option Str :=
  (headers.find? fun h => h.1 = name).map (·.2)

/-- The effective client of a request: the peer itself, or the forwarded address. -/
def reqIp (fw : Option Firewall) (ip : IpAddr) (headers : Headers) : IpAddr :=
  (fw.map fun f => f.clientIpFromXff ip (headerValue xForwardedFor headers)).getD ip

def isUpgradeRequest (headers : Headers) : Bool :=
  let connUpgrade := headers.any fun h =>
    h.1 = "connection".toList && ((toAsciiLowercase h.2).splitOn ',').any fun tok => trim tok = "upgrade".toList
  connUpgrade && headers.any fun h => h.1 = "upgrade".toList

/-! ## Connections -/

/-- The two kinds of registration: against a client and the total, or against the total only. -/
inductive Slot
  | attributed (ip : IpAddr)
  | unattributed
deriving DecidableEq

def Slot.register (fw : Firewall) : Slot → Firewall
  | attributed ip => fw.onConnect ip
  | unattributed => fw.onConnectUnattributed

def Slot.release (fw : Firewall) : Slot → Firewall
  | attributed ip => fw.onDisconnect ip
  | unattributed => fw.onDisconnectUnattributed

inductive Stage
  /-- The accept loop has let the peer in and registers it next. -/
  | accepting
  | handshaking
  | serving
  /-- The connection check of a request passed; the slot is registered next. -/
  | registering (slot : Slot) (headers : Headers)
  | checking (headers : Headers)
  | admitted (headers : Headers)
  | leaving
  /-- The driver owns the stream and releases the slot of `ip`. -/
  | upgraded (ip : IpAddr)
  | ended
deriving DecidableEq

structure Conn where
  peer : IpAddr
  tls : Bool
  stage : Stage
  accountIp : Option IpAddr
  accountGlobalOnly : Bool
  /-- The registrations made on behalf of the connection so far, and the releases. -/
  opened : List Slot
  released : List Slot
deriving DecidableEq

structure Server where
  fw : Firewall
  conns : List Conn

def Server.new (config : FirewallConfig) : Server := ⟨Firewall.new config, []⟩

namespace Server

def setConn (s : Server) (i : Nat) (c : Conn) : Server := { s with conns := s.conns.set i c }

def register (s : Server) (i : Nat) (c : Conn) (slot : Slot) : Server :=
  { s.setConn i { c with opened := c.opened ++ [slot] } with fw := slot.register s.fw }

def release (s : Server) (i : Nat) (c : Conn) (slot : Slot) : Server :=
  { s.setConn i { c with stage := .ended, released := c.released ++ [slot] } with fw := slot.release s.fw }

end Server

/-! ## Steps -/

inductive Event
  | accept (peer : IpAddr) (tls : Bool) (now : Instant)
  /-- `on_connect`/`on_connect_unattributed` after a check that passed. -/
  | register (i : Nat)
  | handshake (i : Nat) (ok : Bool)
  | request (i : Nat) (headers : Headers) (now : Instant)
  | check (i : Nat) (now : Instant)
  | dispatch (i : Nat)
  /-- Parse error, timeout, close from either side, or the last response was sent. -/
  | leave (i : Nat)
  | finish (i : Nat)
  | driverExit (i : Nat)
  | cleanup (now : Instant)
  | blockIp (ip : IpAddr) (now duration : Nat)
  | unblockIp (ip : IpAddr)

def afterAccept (tls : Bool) : Stage := if tls then .handshaking else .serving

/-- A connection the accept loop lets in. A trusted proxy is counted later, with its first request. -/
def Conn.new (trustedProxy : Bool) (peer : IpAddr) (tls : Bool) : Conn :=
  { peer, tls
    stage := if trustedProxy then afterAccept tls else .accepting
    accountIp := if trustedProxy then none else some peer
    accountGlobalOnly := false
    opened := []
    released := [] }

def accept (s : Server) (peer : IpAddr) (tls : Bool) (now : Instant) : Server :=
  let trustedProxy := s.fw.isTrustedProxy peer
  let decision := if trustedProxy then s.fw.checkConnectionBehindProxy peer now else s.fw.checkConnection peer now
  if decision.isAllowed then { s with conns := s.conns ++ [.new trustedProxy peer tls] } else s

/-- The stage after a request head: deferred accounting while `account_ip` is not known. -/
def afterRequest (fw : Firewall) (c : Conn) (headers : Headers) (now : Instant) : Stage :=
  match c.accountIp with
  | some _ => .checking headers
  | none =>
      if !xffPresent headers then
        if (fw.checkConnectionBehindProxy c.peer now).isAllowed then .registering .unattributed headers
        else .leaving
      else
        let reqIp := reqIp (some fw) c.peer headers
        if (fw.checkConnection reqIp now).isAllowed then .registering (.attributed reqIp) headers
        else .leaving

/-- The connection with the slot of a request accounted. -/
def Conn.account (c : Conn) : Slot → Conn
  | .attributed ip => { c with accountIp := some ip }
  | .unattributed => { c with accountGlobalOnly := true }

def connStep (s : Server) (i : Nat) (c : Conn) : Event → Option Server
  | .register _ =>
      match c.stage with
      | .accepting => some (s.register i { c with stage := afterAccept c.tls } (.attributed c.peer))
      | .registering slot headers => some (s.register i { c.account slot with stage := .checking headers } slot)
      | _ => none
  | .handshake _ ok =>
      match c.stage with
      | .handshaking =>
          if ok then some (s.setConn i { c with stage := .serving })
          else if !s.fw.isTrustedProxy c.peer then some (s.release i c (.attributed c.peer))
          else some (s.setConn i { c with stage := .ended })
      | _ => none
  | .request _ headers now =>
      match c.stage with
      | .serving => some (s.setConn i { c with stage := afterRequest s.fw c headers now })
      | _ => none
  | .check _ now =>
      match c.stage with
      | .checking headers =>
          let (decision, fw) := s.fw.checkRequest (reqIp (some s.fw) c.peer headers) now
          some { s.setConn i { c with stage := if decision.isAllowed then .admitted headers else .leaving } with fw }
      | _ => none
  | .dispatch _ =>
      match c.stage with
      | .admitted headers =>
          if isUpgradeRequest headers then
            some (s.setConn i { c with stage := .upgraded (c.accountIp.getD c.peer) })
          else some (s.setConn i { c with stage := .serving })
      | _ => none
  | .leave _ =>
      match c.stage with
      | .serving => some (s.setConn i { c with stage := .leaving })
      | _ => none
  | .finish _ =>
      match c.stage with
      | .leaving =>
          match c.accountIp with
          | some ip => some (s.release i c (.attributed ip))
          | none =>
              if c.accountGlobalOnly then some (s.release i c .unattributed)
              else some (s.setConn i { c with stage := .ended })
      | _ => none
  | .driverExit _ =>
      match c.stage with
      | .upgraded ip => some (s.release i c (.attributed ip))
      | _ => none
  | _ => none

/-- A connection that has ended takes no further step. -/
theorem connStep_ended {s : Server} {i : Nat} {c : Conn} (h : c.stage = .ended) (e : Event) : connStep s i c e = none := by
  cases e <;> simp only [connStep, h]

def Event.conn : Event → Option Nat
  | .register i | .handshake i _ | .request i _ _ | .check i _ | .dispatch i | .leave i | .finish i
  | .driverExit i => some i
  | _ => none

def step (s : Server) (e : Event) : Option Server :=
  match e with
  | .accept peer tls now => some (accept s peer tls now)
  | .cleanup now => some { s with fw := s.fw.cleanup now }
  | .blockIp ip now duration => some { s with fw := s.fw.blockIp ip now duration .manualBlock }
  | .unblockIp ip => some { s with fw := s.fw.unblockIp ip }
  | e =>
      match e.conn with
      | some i =>
          match s.conns[i]? with
          | some c => connStep s i c e
          | none => none
      | none => none

/-! ## What is open -/

def Conn.isOpen (c : Conn) : Bool := c.stage ≠ .ended

def Conn.registered (c : Conn) : Bool := c.isOpen && !c.opened.isEmpty

def Conn.attributedTo (ip : IpAddr) (c : Conn) : Bool := c.isOpen && c.opened.contains (.attributed ip)

/-- What keeps one slot for each connection: a task registers only a connection that does not hold the global
slot, and hands only an attributed connection to the upgrade driver. -/
def oneSlot (s : Server) : Event → Bool
  | .register i =>
      match s.conns[i]? with
      | some { stage := .registering _ _, accountGlobalOnly, .. } => !accountGlobalOnly
      | _ => true
  | .dispatch i =>
      match s.conns[i]? with
      | some { stage := .admitted headers, accountIp, .. } => !isUpgradeRequest headers || accountIp.isSome
      | _ => true
  | _ => true

/-! ## Admitted and not yet registered -/

/-- The slot the next step of the task registers. -/
def Conn.awaits (c : Conn) : Option Slot :=
  match c.stage with
  | .accepting => some (.attributed c.peer)
  | .registering slot _ => some slot
  | _ => none

/-- The slot a check of the event lets in, to be registered by a later step. -/
def admits (s : Server) : Event → Option Slot
  | .accept peer _ now =>
      if !s.fw.isTrustedProxy peer && (s.fw.checkConnection peer now).isAllowed then some (.attributed peer)
      else none
  | .request i headers now =>
      match s.conns[i]? with
      | some c =>
          match c.stage, afterRequest s.fw c headers now with
          | .serving, .registering slot _ => some slot
          | _, _ => none
      | none => none
  | _ => none

/-- The caps leave room for the slot beside the registered connections and the admitted ones. -/
def hasRoom (s : Server) (slot : Slot) : Bool :=
  s.fw.connTotal + s.conns.countP (·.awaits.isSome) < s.fw.config.maxConnectionsTotal &&
    match slot with
    | .attributed ip =>
        s.fw.connCount ip + s.conns.countP (fun c => c.awaits = some slot) < s.fw.config.maxConnectionsPerIp
    | .unattributed => true

/-- What keeps the caps: a check passes only while there is room for the connections that passed one already. -/
def admitsWithRoom (s : Server) (e : Event) : Bool := (admits s e).all fun slot => hasRoom s slot

end ThreeVa.HttpServer
