import Mathlib.Logic.Function.Basic
import ThreeVa.Lib.Runs
import ThreeVa.Lib.Utf8

/-!
# Server-sent events

`js/src/builtins/event_source.rs` and the `EventSource` of `web_globals.rs`: a thread for each source reads the events of a
response, a timer of the script takes them over. The JSON text in which they are taken over is not modelled.
-/

namespace ThreeVa.Js.EventSource
open Text

structure SseEvent where
  eventType : Str
  data : Str
  lastEventId : Str
deriving DecidableEq

/-! ## Reading -/

def newline : UInt8 := 10

/-- The lines of a response with their ends, the last one perhaps without. -/
def rawLines : Bytes → List Bytes
  | [] => []
  | b :: bs =>
      if b = newline then [b] :: rawLines bs
      else
        match rawLines bs with
        | [] => [[b]]
        | line :: lines => (b :: line) :: lines

/-- A line without its end, which takes a carriage return along. -/
def stripEnd (line : Str) : Str :=
  if line.getLast? = some '\n' then
    if line.dropLast.getLast? = some '\r' then line.dropLast.dropLast else line.dropLast
  else line

/-- `reader.lines()`: nothing stands for a line that is not UTF-8. -/
def readerLines (body : Bytes) : List (Option Str) := (rawLines body).map fun raw => (decodeUtf8 raw).map stripEnd

/-- `data_buf`, `event_type` and `last_id` -/
structure Parser where
  dataBuf : Str
  eventType : Str
  lastId : Str
deriving DecidableEq

def message : Str := "message".toList

def value (val : Str) : Str := (stripPrefix [' '] val).getD val

namespace Parser

def new : Parser := ⟨[], message, []⟩

/-- A line, with the event that it ends. -/
def line (p : Parser) (line : Str) : Parser × Option SseEvent :=
  if line = [] then
    ({ p with dataBuf := [], eventType := message },
      if p.dataBuf = [] then none
      else some ⟨p.eventType, if p.dataBuf.getLast? = some '\n' then p.dataBuf.dropLast else p.dataBuf, p.lastId⟩)
  else
    match stripPrefix "data:".toList line with
    | some val => ({ p with dataBuf := p.dataBuf ++ value val ++ ['\n'] }, none)
    | none =>
        match stripPrefix "event:".toList line with
        | some val => ({ p with eventType := value val }, none)
        | none =>
            match stripPrefix "id:".toList line with
            | some val => ({ p with lastId := value val }, none)
            | none => (p, none)

/-- The events of the lines up to the first that is not UTF-8. -/
def events (p : Parser) : List (Option Str) → List SseEvent
  | some line :: lines => (p.line line).2.toList ++ (p.line line).1.events lines
  | _ => []

end Parser

/-! ## Sources -/

inductive Thread
  /-- The response is not there yet. -/
  | connecting
  | reading (parser : Parser) (unread : List (Option Str))
  | ended
deriving DecidableEq

/-- An `EventSource` of a script, its entry and its thread. -/
structure Source where
  thread : Thread
  queue : List SseEvent
  /-- `close` was called: the flag is set, the entry removed and the timer cleared. -/
  closed : Bool
  /-- The events that handlers were called with. -/
  delivered : List SseEvent
deriving DecidableEq

/-- The response to a request, or why there is none. -/
abbrev Answer := Except Str Bytes

inductive Act
  | respond (answer : Answer)
  /-- The thread goes on to the next line. -/
  | next
  /-- The connection fails under the thread. -/
  | broken
  /-- The timer of the script fires. A handler may throw, at the event of that number. -/
  | poll (throws : Option Nat)
  | close
deriving DecidableEq

namespace Source

def new : Source := ⟨.connecting, [], false, []⟩

variable (s : Source)

def step : Act → Source
  | .respond answer =>
      match s.thread, answer with
      | .connecting, .ok body => { s with thread := .reading .new (readerLines body) }
      | .connecting, .error e => { s with thread := .ended, queue := s.queue ++ [⟨"error".toList, e, []⟩] }
      | _, _ => s
  | .next =>
      match s.thread with
      | .reading p (some line :: unread) =>
          if s.closed then { s with thread := .ended }
          else { s with thread := .reading (p.line line).1 unread, queue := s.queue ++ (p.line line).2.toList }
      | .reading _ _ => { s with thread := .ended }
      | _ => s
  | .broken =>
      match s.thread with
      | .reading _ _ => { s with thread := .ended }
      | _ => s
  | .poll throws =>
      if s.closed then s
      else
        { s with
          queue := []
          delivered := s.delivered ++ throws.elim s.queue fun n => s.queue.take (n + 1) }
  | .close => { s with closed := true }

end Source

/-- The sources of an engine by their ids. -/
structure Sources where
  counter : Nat
  source : Nat → Option Source

inductive Op
  /-- `new EventSource(url)`, where the request is allowed. -/
  | create
  | act (id : Nat) (act : Act)
deriving DecidableEq

namespace Sources

variable (x : Sources)

def new : Sources := ⟨0, fun _ => none⟩

/-- Ids are numbers of 32 bits. A run ends before they start again. -/
def step : Op → Option Sources
  | .create =>
      let id := x.counter + 1
      if id < 4294967296 then some ⟨id, Function.update x.source id (some .new)⟩ else none
  | .act id act =>
      (x.source id).map fun s => { x with source := Function.update x.source id (some (s.step act)) }

end Sources

/-! ## What a server sends -/

/-- A text that a line can carry. -/
abbrev LineText := {s : Str // '\n' ∉ s ∧ '\r' ∉ s}

structure Message where
  eventType : Option LineText
  id : Option LineText
  data : {s : Str // '\r' ∉ s}

inductive Item
  /-- A comment, as is sent to keep a connection open. -/
  | comment (text : LineText)
  | message (m : Message)

namespace Item

def lines : Item → List Str
  | comment text => [':' :: text.1, []]
  | message m =>
      (m.eventType.map fun t => "event: ".toList ++ t.1).toList ++ (m.id.map fun i => "id: ".toList ++ i.1).toList ++
        (m.data.1.splitOn '\n').map ("data: ".toList ++ ·) ++ [[]]

end Item

def lineEnd (crlf : Bool) : Str := if crlf then ['\r', '\n'] else ['\n']

def writeItems (crlf : Bool) (items : List Item) : Bytes :=
  encodeUtf8 ((items.flatMap Item.lines).flatMap fun line => line ++ lineEnd crlf)

/-- The events of what is sent, after an id. -/
def received (last : Str) : List Item → List SseEvent
  | [] => []
  | .comment _ :: items => received last items
  | .message m :: items =>
      let last := (m.id.map Subtype.val).getD last
      ⟨(m.eventType.map Subtype.val).getD message, m.data.1, last⟩ :: received last items

/-- How a server answers. -/
inductive Reply
  | refused (error : Str)
  | stream (crlf : Bool) (items : List Item)

namespace Reply

def answer : Reply → Answer
  | refused error => .error error
  | stream crlf items => .ok (writeItems crlf items)

/-- What a script should see of it. -/
def events : Reply → List SseEvent
  | refused error => [⟨"error".toList, error, []⟩]
  | stream _ items => received [] items

end Reply

end ThreeVa.Js.EventSource
