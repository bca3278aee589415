import ThreeVa.Js.Readable

/-!
# Writable streams and sockets

`Writable` and the writing side of `Socket` of `js/src/builtins/modules.rs`, and `__tcpWrite` of `tcp.rs`. A socket is connected
from the beginning. Code runs step by step: a call that has not returned has an entry on a stack.
-/

namespace ThreeVa.Js
open Text Buffer

/-! ## `__tcpWrite` -/

/-- What one write to the socket gives. -/
inductive WriteSome
  | ok (n : Nat)
  | interrupted
  | wouldBlock
  | err
deriving DecidableEq

inductive TcpResult
  | undefined
  /-- The number of bytes that went out. -/
  | number
  | error
deriving DecidableEq

/-- The loop of `__tcpWrite`: how many bytes went out, and what is returned. It has not returned if there are not enough
answers, and none of them is more than was asked. -/
def tcpWrite : List WriteSome → Bytes → Option (Nat × TcpResult)
  | _, [] => some (0, .undefined)
  | [], _ :: _ => none
  | .ok 0 :: _, _ :: _ => some (0, .error)
  | .ok (n + 1) :: answers, b :: data =>
      if n ≤ data.length then (tcpWrite answers ((b :: data).drop (n + 1))).map fun p => (n + 1 + p.1, p.2) else none
  | .interrupted :: answers, b :: data => tcpWrite answers (b :: data)
  | .wouldBlock :: _, _ :: _ => some (0, .number)
  | .err :: _, _ :: _ => some (0, .error)

namespace Socket

/-- A chunk that was written. -/
structure Item where
  chunk : Chunk
  /-- Its callback is that of `end`. -/
  ending : Bool
deriving DecidableEq

/-- The bytes of a chunk. -/
def Item.data (item : Item) : Bytes :=
  match item.chunk with
  | .bytes b => b
  | .text s => utf8Encode s

/-- A chunk that `_write` was called with: the bytes that went out, and those that are left. -/
structure Sending where
  item : Item
  taken : Bytes
  left : Bytes
deriving DecidableEq

inductive Fate
  | sent
  | failed
  /-- The connection was closed meanwhile, which is no error. -/
  | closed
deriving DecidableEq

structure Flushed where
  item : Item
  taken : Bytes
  fate : Fate
deriving DecidableEq

inductive Op
  /-- A listener or a callback runs. -/
  | script
  /-- `_write` is called. -/
  | start (item : Item)
  | attempt (sending : Sending)
  /-- The end of `onflush`. -/
  | drainCheck
  /-- What follows `onflush` in `__writableRun`. -/
  | nextQueued
  /-- The loop of `uncork`. -/
  | uncorking (items : List Item)
  /-- The callback with which `end` writes its chunk. -/
  | endWritten
  | finish
  /-- The callback that `Socket.end` gives. -/
  | halfClose
  /-- The end of the stream was pushed. -/
  | eof
deriving DecidableEq

end Socket

structure Socket where
  highWaterMark : Nat
  allowHalfOpen : Bool
  /-- `_connId` is not `null`. -/
  connected : Bool
  readEnded : Bool
  writableEnded : Bool
  shutdownWrite : Bool
  writing : Bool
  corked : Nat
  ended : Bool
  finished : Bool
  needDrain : Bool
  pendingcb : Nat
  length : Nat
  queue : List Socket.Item
  buffered : List Socket.Item
  /-- The chunk whose rest is tried again when a timer fires. -/
  retry : Option Socket.Sending
  /-- The timers of `finish`. -/
  finishTimers : Nat
  /-- How often `drain` was scheduled. -/
  drains : Nat
  stack : List Socket.Op
  /-- The chunks that `write` took, in order. -/
  accepted : List Socket.Item
  /-- The chunks whose callbacks were called, in order. -/
  log : List Socket.Flushed
  /-- The chunks of a loop of `uncork` that was left by an exception. -/
  abandoned : List Socket.Item
  /-- The bytes that went out. -/
  wire : Bytes
deriving DecidableEq

namespace Socket

def new (highWaterMark : Nat) (allowHalfOpen : Bool) : Socket :=
  { highWaterMark, allowHalfOpen, connected := true, readEnded := false, writableEnded := false, shutdownWrite := false,
    writing := false, corked := 0, ended := false, finished := false, needDrain := false, pendingcb := 0, length := 0,
    queue := [], buffered := [], retry := none, finishTimers := 0, drains := 0, stack := [], accepted := [], log := [],
    abandoned := [], wire := [] }

variable (s : Socket)

/-- Code of the script runs, or nothing does. -/
def atScript : Bool :=
  match s.stack with
  | [] | .script :: _ => true
  | _ => false

/-! ## Writable -/

/-- `__writableRun` -/
def run (item : Item) : Socket :=
  if s.writing then { s with queue := s.queue ++ [item] }
  else { s with writing := true, stack := .start item :: s.stack }

def accept (item : Item) : Socket :=
  { s with
    accepted := s.accepted ++ [item]
    length := s.length + item.data.length
    pendingcb := s.pendingcb + 1
    needDrain := s.needDrain || !decide (s.length + item.data.length < s.highWaterMark) }

/-- `write`. After `end` an error is reported and nothing else happens. -/
def write (item : Item) : Socket :=
  if s.ended then s
  else if 0 < s.corked then { s.accept item with buffered := s.buffered ++ [item] }
  else (s.accept item).run item

/-- The callback of `_write`, which calls that of `write`: with an error after the listeners of `error`. -/
def flush (sending : Sending) (fate : Fate) : Socket :=
  { s with
    writing := false
    length := s.length - sending.item.data.length
    pendingcb := s.pendingcb - 1
    log := s.log ++ [⟨sending.item, sending.taken, fate⟩]
    stack := (if fate = .failed then [.script, .script, .nextQueued]
      else (if sending.item.ending then [.endWritten] else [.script]) ++ [.drainCheck, .nextQueued]) ++ s.stack }

/-- `attempt` of `_write`. What `__tcpWrite` returns is a number of 32 bits. -/
def attempt (x : Sending) (answers : List WriteSome) : Option Socket :=
  if ¬ s.connected then some (s.flush x .closed)
  else
    (tcpWrite answers x.left).map fun (off, result) =>
      let s := { s with wire := s.wire ++ x.left.take off }
      let taken := x.taken ++ x.left.take off
      match result with
      | .undefined => s.flush { x with taken } .sent
      | .number => { s with retry := some ⟨x.item, taken, x.left.drop (off % 4294967296)⟩ }
      | .error => s.flush { x with taken } .failed

/-- `_write` -/
def start (item : Item) (answers : List WriteSome) : Option Socket :=
  if s.connected then s.attempt ⟨item, [], item.data⟩ answers else some (s.flush ⟨item, [], item.data⟩ .failed)

def cork : Socket := { s with corked := s.corked + 1 }

def uncork : Socket :=
  if s.corked ≤ 1 ∧ s.buffered ≠ [] then { s with corked := 0, buffered := [], stack := .uncorking s.buffered :: s.stack }
  else { s with corked := s.corked - 1 }

/-! ## Socket -/

/-- `_maybeClose` -/
def maybeClose : Socket :=
  if s.readEnded ∧ (s.writableEnded ∨ ¬ s.allowHalfOpen) then { s with connected := false } else s

/-- `end` -/
def endSocket (chunk : Option Chunk) : Socket :=
  if s.writableEnded then s
  else
    let s := { s with writableEnded := true }
    if s.ended || s.finished then { s with stack := .halfClose :: s.stack }
    else
      match chunk with
      | some chunk => s.write ⟨chunk, true⟩
      | none => { s with ended := true, stack := .finish :: s.stack }

def Op.isScript : Op → Bool
  | .script => true
  | _ => false

/-- The chunks that a loop still has to hand on. -/
def Op.held : Op → List Item
  | .uncorking items => items
  | _ => []

/-- An exception leaves all calls up to the next code of the script, which may catch it. -/
def unwind (ops : List Op) : Socket :=
  { s with
    stack := ops.dropWhile fun op => !op.isScript
    abandoned := s.abandoned ++ (ops.takeWhile fun op => !op.isScript).flatMap Op.held }

/-- The code at the top of the stack goes on. -/
def go (answers : List WriteSome) : Option Socket :=
  match s.stack with
  | [] | .script :: _ => none
  | .start item :: ops => start { s with stack := ops } item answers
  | .attempt x :: ops => attempt { s with stack := ops } x answers
  | .drainCheck :: ops =>
      if s.needDrain ∧ s.length < s.highWaterMark then some { s with needDrain := false, drains := s.drains + 1, stack := ops }
      else some { s with stack := ops }
  | .nextQueued :: ops =>
      match s.queue with
      | item :: queue =>
          if ¬ s.writing ∧ s.corked = 0 then some (run { s with queue, stack := ops } item) else some { s with stack := ops }
      | [] => some { s with stack := ops }
  | .uncorking [] :: ops => some { s with stack := ops }
  | .uncorking (item :: items) :: ops => some (run { s with stack := .uncorking items :: ops } item)
  | .endWritten :: ops => some { s with ended := true, stack := .finish :: ops }
  | .finish :: ops =>
      if 0 < s.pendingcb then some { s with finishTimers := s.finishTimers + 1, stack := ops }
      else some { s with finished := true, stack := .script :: .halfClose :: ops }
  | .halfClose :: ops =>
      some (maybeClose { s with shutdownWrite := s.shutdownWrite || s.connected, stack := .script :: ops })
  | .eof :: ops =>
      if s.allowHalfOpen then some (maybeClose { s with stack := ops }) else some { s with connected := false, stack := ops }

inductive Event
  | write (chunk : Chunk)
  | endSocket (chunk : Option Chunk)
  | cork
  | uncork
  | destroy
  /-- The code of the script that runs returns, or throws. -/
  | returned
  | threw
  | go (answers : List WriteSome)
  | retryTimer
  | finishTimer
  /-- The other side has ended. -/
  | readEnd
deriving DecidableEq

def step (s : Socket) : Event → Option Socket
  | .write chunk => if s.atScript then some (s.write ⟨chunk, false⟩) else none
  | .endSocket chunk => if s.atScript then some (s.endSocket chunk) else none
  | .cork => if s.atScript then some s.cork else none
  | .uncork => if s.atScript then some s.uncork else none
  | .destroy => if s.atScript then some { s with connected := false } else none
  | .returned =>
      match s.stack with
      | .script :: ops => some { s with stack := ops }
      | _ => none
  | .threw =>
      match s.stack with
      | .script :: ops => some (s.unwind ops)
      | _ => none
  | .go answers => s.go answers
  | .retryTimer =>
      match s.stack, s.retry with
      | [], some x => some { s with retry := none, stack := [.attempt x] }
      | _, _ => none
  | .finishTimer =>
      if s.stack = [] ∧ 0 < s.finishTimers then some { s with finishTimers := s.finishTimers - 1, stack := [.finish] }
      else none
  | .readEnd =>
      if s.stack = [] ∧ s.connected ∧ ¬ s.readEnded then some { s with readEnded := true, stack := [.script, .eof] }
      else none

end Socket

end ThreeVa.Js
