import ThreeVa.Lib.Text

/-!
# Upgraded sockets

`UpgradeConn`, `spawn_upgrade_driver` and `__upgradeRead`, `__upgradeWrite`, `__upgradeClose` of
`js/src/builtins/http_server.rs`: the driver task and the application share two queues, a flag, two counters and an
entry in the registry. Each of them is accessed in a step of its own.
-/

namespace ThreeVa.HttpServer
open Text

/-! ## A bridged socket -/

inductive UpgradeRead
  | data (bytes : Bytes)
  | eof
deriving DecidableEq

structure UpgradeConn where
  readQ : List UpgradeRead
  writeQ : List Bytes
  /-- `write_wake` holds a permit. -/
  writeWake : Bool
  closed : Bool
  aborted : Bool
  readBytes : Nat
  writeBytes : Nat
  /-- `drained` holds a permit. -/
  drained : Bool
deriving DecidableEq

def upgradeReadHighWater : Nat := 1024 * 1024

def upgradeWriteHardLimit : Nat := 32 * 1024 * 1024

def upgradeReadBuffer : Nat := 16384

inductive UpgradeTake
  | data (bytes : Bytes)
  | eof
  | empty
deriving DecidableEq

namespace UpgradeConn

def new : UpgradeConn := ⟨[], [], false, false, false, 0, 0, false⟩

/-- `take_upgrade_read` as far as it holds the lock of the read queue. -/
def takeUpgradeRead (c : UpgradeConn) (max : Nat) : UpgradeTake × UpgradeConn :=
  match c.readQ with
  | .data bytes :: q =>
      if bytes.length > max then (.data (bytes.take max), { c with readQ := .data (bytes.drop max) :: q })
      else (.data bytes, { c with readQ := q })
  | .eof :: q => (.eof, { c with readQ := q })
  | [] => (if c.closed then .eof else .empty, c)

/-- The rest of `take_upgrade_read`, after data. -/
def settleRead (c : UpgradeConn) (n : Nat) : UpgradeConn := { c with readBytes := c.readBytes - n, drained := true }

/-- `queue_upgrade_write` up to its limit. -/
def countWrite (c : UpgradeConn) (n : Nat) : Option UpgradeConn :=
  if c.writeBytes + n > upgradeWriteHardLimit then none else some { c with writeBytes := c.writeBytes + n }

def abort (c : UpgradeConn) : UpgradeConn := { c with aborted := true, closed := true, writeWake := true }

/-- The rest of `queue_upgrade_write`, below the limit. -/
def pushWrite (c : UpgradeConn) (bytes : Bytes) : UpgradeConn :=
  { c with writeQ := c.writeQ ++ [bytes], writeWake := true }

def pushData (c : UpgradeConn) (bytes : Bytes) : UpgradeConn := { c with readQ := c.readQ ++ [.data bytes] }

def pushEof (c : UpgradeConn) : UpgradeConn := { c with readQ := c.readQ ++ [.eof] }

end UpgradeConn

/-! ## The two parties -/

inductive JsResult
  | bytes (b : Bytes)
  | undefined
  | err (code msg : String)
deriving DecidableEq

inductive Driver
  | top
  | flushing
  /-- `write_all` of a chunk of `len` bytes has still `rest` to send. -/
  | writing (len : Nat) (rest : Bytes)
  /-- A write failed; `Eof` is pushed next … -/
  | failing
  /-- … and then `closed` is set. -/
  | closing
  | checking
  | measuring
  | selecting (paused : Bool)
  /-- The bytes are read and counted; they are pushed next. -/
  | filing (bytes : Bytes)
  /-- Out of the loop; the registry entry is removed next. -/
  | leaving
  | gone
deriving DecidableEq

inductive NativeCall
  | idle
  | reading (max : Nat)
  /-- The bytes are off the queue; they are discounted next. -/
  | settling (bytes : Bytes)
  | writing (bytes : Bytes)
  | counting (bytes : Bytes)
  /-- The bytes are counted; they are pushed next. -/
  | queueing (bytes : Bytes)
deriving DecidableEq

structure Upgrade where
  conn : UpgradeConn
  registered : Bool
  driver : Driver
  call : NativeCall
  received : Bytes
  written : Bytes
  broken : Bool
  /-- What the calls of `__upgradeRead` returned. -/
  reads : List JsResult
  writes : List (Bytes × JsResult)
deriving DecidableEq

def Upgrade.new : Upgrade := ⟨.new, true, .top, .idle, [], [], false, [], []⟩

/-! ## Steps -/

inductive UpgradeEvent
  /-- The driver goes on to its next access. -/
  | advance
  /-- The socket takes `n` bytes of the chunk being written. -/
  | sent (n : Nat)
  | wrote
  | writeFailed
  | woken
  | resumed
  | read (bytes : Bytes)
  /-- End of stream, or a read error. -/
  | readEnd
  | upgradeRead (max : Option Nat)
  | upgradeWrite (bytes : Bytes)
  | upgradeClose
  /-- The call in progress goes on to its next access. -/
  | proceed
deriving DecidableEq

namespace Upgrade

/-- The driver between its waits. -/
def advance (s : Upgrade) : Option Upgrade :=
  match s.driver with
  | .top =>
      if s.conn.aborted then some { s with conn := { s.conn with writeQ := [] }, driver := .leaving }
      else some { s with driver := .flushing }
  | .flushing =>
      match s.conn.writeQ with
      | bytes :: writeQ => some { s with conn := { s.conn with writeQ }, driver := .writing bytes.length bytes }
      | [] => some { s with driver := .checking }
  | .failing => some { s with conn := s.conn.pushEof, driver := .closing }
  | .closing => some { s with conn := { s.conn with closed := true }, driver := .leaving }
  | .checking => some { s with driver := if s.conn.closed then .leaving else .measuring }
  | .measuring => some { s with driver := .selecting (upgradeReadHighWater ≤ s.conn.readBytes) }
  | .filing bytes => some { s with conn := s.conn.pushData bytes, driver := .top }
  | .leaving => some { s with registered := false, driver := .gone }
  | .writing _ _ | .selecting _ | .gone => none

/-- The driver at a wait: `write_all`, or the `select!`. -/
def driverEvent (s : Upgrade) (e : UpgradeEvent) : Option Upgrade :=
  match s.driver, e with
  | .writing len rest, .sent n =>
      if n ≤ rest.length then some { s with written := s.written ++ rest.take n, driver := .writing len (rest.drop n) }
      else none
  | .writing len [], .wrote =>
      some { s with conn := { s.conn with writeBytes := s.conn.writeBytes - len }, driver := .flushing }
  | .writing len _, .writeFailed =>
      some { s with
        conn := { s.conn with writeBytes := s.conn.writeBytes - len }, broken := true, driver := .failing }
  | .selecting _, .woken =>
      if s.conn.writeWake then some { s with conn := { s.conn with writeWake := false }, driver := .top } else none
  | .selecting true, .resumed =>
      if s.conn.drained then some { s with conn := { s.conn with drained := false }, driver := .top } else none
  | .selecting false, .read bytes =>
      if bytes ≠ [] ∧ bytes.length ≤ upgradeReadBuffer then
        some { s with
          conn := { s.conn with readBytes := s.conn.readBytes + bytes.length }
          received := s.received ++ bytes
          driver := .filing bytes }
      else none
  | .selecting false, .readEnd => some { s with conn := s.conn.pushEof, driver := .leaving }
  | _, _ => none

def readReturns (s : Upgrade) (r : JsResult) : Upgrade := { s with call := .idle, reads := s.reads ++ [r] }

def writeReturns (s : Upgrade) (bytes : Bytes) (r : JsResult) : Upgrade :=
  { s with call := .idle, writes := s.writes ++ [(bytes, r)] }

def proceed (s : Upgrade) : Option Upgrade :=
  match s.call with
  | .idle => none
  | .reading max =>
      match s.conn.takeUpgradeRead max with
      | (.data bytes, conn) => some { s with conn, call := .settling bytes }
      | (.eof, conn) => some ({ s with conn }.readReturns (.err "EOF" "connection closed"))
      | (.empty, conn) => some ({ s with conn }.readReturns (.err "EAGAIN" "no data available"))
  | .settling bytes => some ({ s with conn := s.conn.settleRead bytes.length }.readReturns (.bytes bytes))
  | .writing bytes =>
      if s.conn.closed then some (s.writeReturns bytes (.err "EPIPE" "upgrade socket closed"))
      else some { s with call := .counting bytes }
  | .counting bytes =>
      match s.conn.countWrite bytes.length with
      | some conn => some { s with conn, call := .queueing bytes }
      | none =>
          some ({ s with conn := s.conn.abort }.writeReturns bytes
            (.err "EPIPE" "upgrade socket write buffer is full (the peer is not reading)"))
  | .queueing bytes => some ({ s with conn := s.conn.pushWrite bytes }.writeReturns bytes .undefined)

def jsCalls (s : Upgrade) (e : UpgradeEvent) : Option Upgrade :=
  match s.call, e with
  | .idle, .upgradeRead max =>
      if s.registered then some { s with call := .reading (min (max.getD 16384) 65536) }
      else some (s.readReturns (.err "EOF" "upgrade socket closed"))
  | .idle, .upgradeWrite bytes =>
      if s.registered then some { s with call := .writing bytes }
      else some (s.writeReturns bytes (.err "EPIPE" "upgrade socket closed"))
  | .idle, .upgradeClose =>
      if s.registered then
        some { s with registered := false, conn := { s.conn with closed := true, writeWake := true } }
      else some s
  | _, _ => none

end Upgrade

def upgradeStep (s : Upgrade) (e : UpgradeEvent) : Option Upgrade :=
  match e with
  | .advance => s.advance
  | .proceed => s.proceed
  | .upgradeRead _ | .upgradeWrite _ | .upgradeClose => s.jsCalls e
  | e => s.driverEvent e

/-! ## What went through -/

def UpgradeRead.bytes : UpgradeRead → Bytes
  | .data b => b
  | .eof => []

def JsResult.data : JsResult → Bytes
  | .bytes b => b
  | _ => []

def JsResult.isEof : JsResult → Bool
  | .err code _ => code = "EOF"
  | _ => false

def queuedData (q : List UpgradeRead) : Bytes := q.flatMap UpgradeRead.bytes

def returned (reads : List JsResult) : Bytes := reads.flatMap JsResult.data

/-- The concatenation of the accepted writes. -/
def accepted (writes : List (Bytes × JsResult)) : Bytes :=
  writes.flatMap fun w => if w.2 = .undefined then w.1 else []

/-- Counted into `read_bytes` and not yet on the queue. -/
def Driver.filed : Driver → Bytes
  | .filing b => b
  | _ => []

/-- Off the write queue and not yet sent. -/
def Driver.unsent : Driver → Bytes
  | .writing _ rest => rest
  | _ => []

def Driver.inFlight : Driver → Nat
  | .writing len _ => len
  | _ => 0

/-- The driver is done with the queues. -/
def Driver.finished : Driver → Bool
  | .closing | .leaving | .gone => true
  | _ => false

/-- Off the read queue and not yet returned. -/
def NativeCall.taken : NativeCall → Bytes
  | .settling b => b
  | _ => []

/-- Counted into `write_bytes` and not yet on the queue. -/
def NativeCall.reserved : NativeCall → Bytes
  | .queueing b => b
  | _ => []

structure LosesNothing (s : Upgrade) : Prop where
  /-- What was returned, and what is on its way to JS, is what the driver read. -/
  reads : returned s.reads ++ s.call.taken ++ queuedData s.conn.readQ ++ s.driver.filed = s.received
  /-- The end is reported after all of it, and for ever. -/
  eof : ∀ pre r post, s.reads = pre ++ r :: post → r.isEof = true →
    returned pre = s.received ∧ ∀ r' ∈ post, r'.isEof = true
  /-- What was written is what was accepted, in order … -/
  written : s.written <+: accepted s.writes
  /-- … and nothing of it is missing but what waits to be written, unless a write to the peer fails … -/
  waiting : s.broken = false → s.written ++ s.driver.unsent ++ s.conn.writeQ.flatten = accepted s.writes
  /-- … so all of it is written when the driver is done. -/
  flushed : s.broken = false → s.driver.finished = true → s.written = accepted s.writes
  readBytes : s.conn.readBytes = (s.call.taken ++ queuedData s.conn.readQ ++ s.driver.filed).length
  writeBytes : s.conn.writeBytes = s.driver.inFlight + s.conn.writeQ.flatten.length + s.call.reserved.length

/-! ## Conditions on steps -/

/-- JS does not close the socket and the write limit is not hit. -/
def staysOpen (s : Upgrade) (e : UpgradeEvent) : Bool :=
  match e, s.call with
  | .upgradeClose, _ => false
  | .proceed, .counting bytes => s.conn.writeBytes + bytes.length ≤ upgradeWriteHardLimit
  | _, _ => true

/-- The step does not run into the driver's way out: no read finds the registry entry removed while data is queued,
or the queue empty after the end marker was taken; the stream does not end while a write is queued, and no write is
queued after it. -/
def clearOfExit (s : Upgrade) (e : UpgradeEvent) : Bool :=
  match e, s.call with
  | .upgradeRead _, _ => s.registered || queuedData s.conn.readQ = []
  | .proceed, .reading _ => s.conn.readQ ≠ [] || s.conn.closed || !s.driver.finished
  | .proceed, .queueing bytes => bytes = [] || s.broken || !s.driver.finished
  | .readEnd, _ => s.conn.writeQ.flatten = []
  | _, _ => true

end ThreeVa.HttpServer
