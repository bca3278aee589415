import ThreeVa.Js.Buffer

/-!
# StringDecoder and readable streams

`StringDecoder` and `Readable` of `js/src/builtins/modules.rs`. A stream is not in object mode.
-/

namespace ThreeVa.Js
open Text Buffer

/-- What is pushed into a stream or written to it: a string or the bytes of a buffer. -/
inductive Chunk
  | text (s : Units)
  | bytes (b : Bytes)
deriving DecidableEq

/-! ## StringDecoder -/

structure StringDecoder where
  encoding : Str
  /-- `_incomplete`, empty for `null`. -/
  incomplete : Bytes
deriving DecidableEq

namespace StringDecoder

def utf8 : Str := "utf8".toList

def isBase64 (encoding : Str) : Bool := encoding = "base64".toList || encoding = "base64url".toList

/-- The constructor, where an encoding that is not given is empty. -/
def new (encoding : Str) : StringDecoder :=
  ⟨(toLowercase (orUtf8 encoding)).filter fun c => c ≠ '-' && c ≠ '_', []⟩

/-- `i` after the loop that walks back over the continuation bytes before it. -/
def walkBack (buf : Bytes) : Nat → Nat
  | 0 => 0
  | i + 1 => if buf.getD i 0 &&& 0xC0 = 0x80 then walkBack buf i else i + 1

def bytesNeeded (b : UInt8) : Nat :=
  if b &&& 0xE0 = 0xC0 then 2 else if b &&& 0xF0 = 0xE0 then 3 else if b &&& 0xF8 = 0xF0 then 4 else 0

/-- How many bytes are decoded now. -/
def complete (buf : Bytes) : Nat :=
  let i := walkBack buf buf.length
  if i = 0 then 0
  else if buf.getD (i - 1) 0 &&& 0x80 ≠ 0 then
    let needed := bytesNeeded (buf.getD (i - 1) 0)
    if needed = 0 then i else if i - 1 + needed > buf.length then i - 1 else buf.length
  else buf.length

/-- How many bytes are in groups of three. -/
def inGroups (buf : Bytes) : Nat := buf.length - buf.length % 3

/-- `write`: the decoder after it, and the string. -/
def write (d : StringDecoder) : Chunk → StringDecoder × Units
  | .text s => (d, s)
  | .bytes buf =>
      if buf = [] then (d, [])
      else if d.encoding = utf8 then
        let buf := d.incomplete ++ buf
        ({ d with incomplete := buf.drop (complete buf) },
          if complete buf = 0 then [] else toString (buf.take (complete buf)) utf8)
      else if isBase64 d.encoding then
        let buf := d.incomplete ++ buf
        ({ d with incomplete := buf.drop (inGroups buf) },
          if inGroups buf = 0 then [] else toString (buf.take (inGroups buf)) d.encoding)
      else (d, toString buf d.encoding)

/-- `end` without a chunk. -/
def flush (d : StringDecoder) : StringDecoder × Units :=
  if d.incomplete = [] then (d, [])
  else ({ d with incomplete := [] }, toString d.incomplete (if isBase64 d.encoding then d.encoding else utf8))

/-- `end` -/
def finish (d : StringDecoder) : Option Chunk → StringDecoder × Units
  | none => d.flush
  | some chunk => ((d.write chunk).1.flush.1, (d.write chunk).2 ++ (d.write chunk).1.flush.2)

/-- One call of `write` for each chunk, and the strings joined. -/
def writes (d : StringDecoder) : List Chunk → StringDecoder × Units
  | [] => (d, [])
  | chunk :: chunks =>
      (((d.write chunk).1.writes chunks).1, (d.write chunk).2 ++ ((d.write chunk).1.writes chunks).2)

end StringDecoder

/-! ## Readable -/

namespace Readable

/-- What a call of the stream that has not returned goes on with. -/
inductive Op
  /-- A listener or `_read` runs. -/
  | script
  /-- The loop of `_flushIfFlowing`. -/
  | flush
  | maybeEnd
  | emitReadable
  /-- `_read` -/
  | startRead
  /-- What `read` does with the buffer. -/
  | takeAll
  /-- `state.ended = true` in `push`. -/
  | markEnded
  /-- What `on` does for a listener of `data` at last. -/
  | scheduleResume
deriving DecidableEq

end Readable

structure Readable where
  decoder : Option StringDecoder
  buffer : List Chunk
  length : Nat
  ended : Bool
  endEmitted : Bool
  flowing : Bool
  discard : Bool
  resumeScheduled : Bool
  /-- How many listeners `data` has. -/
  listeners : Nat
  /-- The timers of `on` that have not fired. -/
  timers : Nat
  /-- The calls that run, the innermost first. -/
  stack : List Readable.Op
  /-- What `push` was called with, what it handed on, and whether it was called with `null`. -/
  pushed : List Chunk
  handed : List Chunk
  closed : Bool
  /-- The chunks that listeners were called with or `read` took. -/
  received : List Chunk
  /-- The chunks that were thrown away. -/
  dropped : List Chunk
  /-- How often `end` was emitted. -/
  ends : Nat
deriving DecidableEq

namespace Readable

/-- The decoder of `setEncoding`. -/
def decoderFor (encoding : Str) : Option StringDecoder :=
  if encoding = [] ∨ encoding = "buffer".toList then none else some (.new encoding)

/-- The constructor. -/
def new (encoding : Str) : Readable :=
  { decoder := decoderFor encoding, buffer := [], length := 0, ended := false, endEmitted := false, flowing := false,
    discard := false, resumeScheduled := false, listeners := 0, timers := 0, stack := [], pushed := [], handed := [],
    closed := false, received := [], dropped := [], ends := 0 }

def chunkBytes : Chunk → Nat
  | .text s => s.length
  | .bytes b => b.length

variable (s : Readable)

/-- Someone listens to `data`, and the stream flows. -/
def emits : Bool := s.flowing && 0 < s.listeners

def store (chunk : Chunk) : Readable := { s with buffer := s.buffer ++ [chunk], length := s.length + chunkBytes chunk }

/-- The calls go on until code of the script runs or they have returned. -/
def proceed (s : Readable) : List Op → Readable
  | [] => { s with stack := [] }
  | .script :: ops => { s with stack := .script :: ops }
  | .flush :: ops =>
      match s.buffer with
      | chunk :: rest =>
          if s.emits then
            { s with
              buffer := rest
              length := s.length - chunkBytes chunk
              received := s.received ++ [chunk]
              stack := .script :: .flush :: ops }
          else s.proceed ops
      | [] => s.proceed ops
  | .maybeEnd :: ops =>
      if s.ended ∧ ¬ s.endEmitted ∧ s.buffer = [] then
        { s with endEmitted := true, ends := s.ends + 1, stack := .script :: .emitReadable :: ops }
      else s.proceed ops
  | .emitReadable :: ops | .startRead :: ops => { s with stack := .script :: ops }
  | .takeAll :: ops => proceed { s with buffer := [], length := 0, received := s.received ++ s.buffer } ops
  | .markEnded :: ops => proceed { s with ended := true } ops
  | .scheduleResume :: ops =>
      proceed (if s.resumeScheduled then s else { s with resumeScheduled := true, timers := s.timers + 1 }) ops

/-- A call that does `ops` is made where code of the script runs, or from the event loop. -/
def call (ops : List Op) : Readable := s.proceed (ops ++ s.stack)

/-- The decoder after a chunk, and what is handed on. -/
def decoded : Option StringDecoder → Chunk → Option StringDecoder × Chunk
  | some d, .bytes b => (some (d.write (.bytes b)).1, .text (d.write (.bytes b)).2)
  | d, chunk => (d, chunk)

/-- `push` of a chunk that is not `null`. -/
def push (raw : Chunk) : Readable :=
  let chunk := (decoded s.decoder raw).2
  let s := { s with
    decoder := (decoded s.decoder raw).1
    pushed := s.pushed ++ [raw]
    handed := s.handed ++ [chunk] }
  if s.emits then call { s with received := s.received ++ [chunk] } [.script]
  else if s.flowing && s.discard then call { s with dropped := s.dropped ++ [chunk] } []
  else call (s.store chunk) [.emitReadable]

/-- `push(null)` -/
def pushNull : Readable :=
  let tail := (s.decoder.map fun d => d.flush.2).getD []
  let s := { s with decoder := none, closed := true }
  let after := [Op.markEnded, .flush, .maybeEnd, .emitReadable]
  if tail = [] then s.call after
  else
    let s := { s with handed := s.handed ++ [Chunk.text tail] }
    if s.emits then call { s with received := s.received ++ [Chunk.text tail] } (.script :: after)
    else call (s.store (.text tail)) after

def resume : Readable :=
  let s := { s with flowing := true, resumeScheduled := false }
  let s := if s.listeners = 0 then
      { s with discard := true, dropped := s.dropped ++ s.buffer, buffer := [], length := 0 }
    else s
  s.call [.flush, .maybeEnd, .startRead]

def onData : Readable :=
  call { s with listeners := s.listeners + 1, discard := false, flowing := true } [.flush, .maybeEnd, .scheduleResume]

/-- `next` of the iterator, which listens for a chunk if there is none. -/
def next : Readable :=
  match s.buffer with
  | chunk :: rest =>
      call { s with buffer := rest, length := s.length - chunkBytes chunk, received := s.received ++ [chunk] } [.maybeEnd]
  | [] => if s.ended then s else s.onData

inductive Event
  | push (chunk : Chunk)
  | pushNull
  /-- `on('data')` -/
  | onData
  | next
  | removeListener
  | pause
  | resume
  /-- The timer of `on` fires. -/
  | resumeTimer
  | read
  | setEncoding (encoding : Str)
  /-- The listener, or `_read`, returns. -/
  | returned
deriving DecidableEq

def step (s : Readable) : Event → Option Readable
  | .push chunk => some (s.push chunk)
  | .pushNull => some s.pushNull
  | .onData => some s.onData
  | .next => some s.next
  | .removeListener => some { s with listeners := s.listeners - 1 }
  | .pause => some { s with flowing := false }
  | .resume => some s.resume
  | .resumeTimer =>
      if s.stack = [] ∧ 0 < s.timers then some (resume { s with resumeScheduled := false, timers := s.timers - 1 }) else none
  | .read => some (s.call ((if s.flowing then [] else [.startRead]) ++ [.takeAll, .maybeEnd]))
  | .setEncoding encoding => some { s with decoder := decoderFor encoding }
  | .returned =>
      match s.stack with
      | .script :: ops => some (s.proceed ops)
      | _ => none

end Readable

end ThreeVa.Js
