import ThreeVa.HttpServer.Head
import Mathlib.Logic.Function.Basic

/-!
# Body pipes

`BodyPipe`, the body phase of `handle_connection` and `__httpReadBody` of `js/src/builtins/http_server.rs`: the
tasks of the connections fill pipes, the application polls them by body id, and the registry between the two is
changed by both. Each lock is taken in one step.
-/

namespace ThreeVa.HttpServer
open Text

/-! ## A pipe -/

def bodyPipeMax : Nat := 1048576

structure BodyState where
  queue : List Bytes
  queued : Nat
  eof : Bool
  error : Option String
  released : Bool
deriving DecidableEq

inductive BodyRead
  | data (bytes : Bytes)
  | eof
  | eagain
  | error (msg : String)
deriving DecidableEq

namespace BodyState

def new : BodyState := ⟨[], 0, false, none, false⟩

/-- One turn of the loop of `push`; there is none while the pipe is full. -/
def push (st : BodyState) (chunk : Bytes) : Option BodyState :=
  if chunk = [] then some st
  else if st.released then some st
  else if st.queued + chunk.length ≤ bodyPipeMax ∨ st.queue = [] then
    some { st with queued := st.queued + chunk.length, queue := st.queue ++ [chunk] }
  else none

def finish (st : BodyState) : BodyState := { st with eof := true }

def fail (st : BodyState) (msg : String) : BodyState := { st with error := some msg, eof := true }

def read (st : BodyState) (max : Nat) : BodyRead × BodyState :=
  let max := Nat.max max 1
  match st.queue with
  | (b :: front) :: queue =>
      if (b :: front).length ≤ max then
        (.data (b :: front), { st with queue, queued := st.queued - (b :: front).length })
      else
        let out := (b :: front).take max
        (.data out, { st with queue := (b :: front).drop max :: queue, queued := st.queued - out.length })
  | _ =>
      match st.error with
      | some msg => (.error msg, { st with error := none, released := true })
      | none => if st.eof then (.eof, { st with released := true }) else (.eagain, st)

end BodyState

/-! ## Requests with a body -/

structure Source where
  env : Env
  framing : BodyFraming
  limits : BodyLimits
  reader : Reader

def Source.pump (src : Source) : Pumped := pumpBody src.env src.framing src.limits src.reader

/-- A request body on its way: its pipe, and what the pump has still to do. -/
structure Transfer where
  id : Nat
  source : Source
  /-- The slices still to be pushed, and how the pump ends. -/
  pending : List Bytes
  outcome : Except ParseError Reader
  state : BodyState

def Transfer.new (id : Nat) (src : Source) : Transfer := ⟨id, src, src.pump.1, src.pump.2, .new⟩

/-- `parse_error_message`. -/
def parseErrorMessage : ParseError → String
  | .respond status msg => "HTTP " ++ toString status ++ " " ++ msg
  | .silent m => m

/-- Where the task of a connection stands; a transfer is named by its place in the list of all. -/
inductive Phase
  | idle
  | pumping (ref : Nat)
  | waiting
  | leaving
  | ended
deriving DecidableEq

structure Task where
  phase : Phase
  /-- `my_last_body`. -/
  lastBody : Option Nat
deriving DecidableEq

/-! ## Polls -/

/-- A poll of `__httpReadBody`: the id asked for, the transfer found under it, and what was returned. An id that
is not registered reads as end of body. -/
structure Poll where
  id : Nat
  found : Option Nat
  result : BodyRead
deriving DecidableEq

/-- Where the one poll in progress stands. -/
inductive Polling
  | none
  | found (id ref max : Nat)
  /-- The pipe was read to its end; the id is removed next. -/
  | removing (id : Nat)
deriving DecidableEq

structure Bodies where
  transfers : List Transfer
  registry : Nat → Option Nat
  nextId : Nat
  tasks : List Task
  polling : Polling
  log : List Poll

def Bodies.new : Bodies := ⟨[], fun _ => none, 1, [], .none, []⟩

/-! ## Steps -/

inductive BodyEvent
  | connect
  /-- The next request on connection `c` has a body: its previous pipe is dropped … -/
  | dropLast (c : Nat)
  /-- … and the new one registered. -/
  | start (c : Nat) (src : Source)
  | push (c : Nat)
  /-- The pump is done: `finish` or `fail`. -/
  | complete (c : Nat)
  /-- The final response or a close came before the end of the body. -/
  | abandon (c : Nat)
  /-- The final response was sent, on a connection kept alive or not. -/
  | respond (c : Nat) (keepAlive : Bool)
  | exit (c : Nat)
  | lookup (id max : Nat)
  | read
  | remove

def Bodies.setTask (s : Bodies) (c : Nat) (t : Task) : Bodies := { s with tasks := s.tasks.set c t }

def Bodies.setTransfer (s : Bodies) (ref : Nat) (t : Transfer) : Bodies :=
  { s with transfers := s.transfers.set ref t }

def Bodies.unregister (s : Bodies) (id : Nat) : Bodies := { s with registry := Function.update s.registry id none }

/-- `wrapping_add(1).max(1)` on `u32`. -/
def nextBodyId (n : Nat) : Nat := Nat.max ((n + 1) % 4294967296) 1

def taskStep (s : Bodies) (c : Nat) (t : Task) : BodyEvent → Option Bodies
  | .dropLast _ =>
      match t.phase, t.lastBody with
      | .idle, some prev => some ((s.setTask c { t with lastBody := none }).unregister prev)
      | _, _ => none
  | .start _ src =>
      match t.phase, t.lastBody with
      | .idle, none =>
          if src.framing = .none then none
          else
            let ref := s.transfers.length
            some { s.setTask c ⟨.pumping ref, some s.nextId⟩ with
              transfers := s.transfers ++ [.new s.nextId src]
              registry := Function.update s.registry s.nextId (some ref)
              nextId := nextBodyId s.nextId }
      | _, _ => none
  | .push _ =>
      match t.phase with
      | .pumping ref =>
          match s.transfers[ref]? with
          | some tr =>
              match tr.pending with
              | chunk :: pending => (tr.state.push chunk).map fun state => s.setTransfer ref { tr with pending, state }
              | [] => none
          | none => none
      | _ => none
  | .complete _ =>
      match t.phase with
      | .pumping ref =>
          match s.transfers[ref]? with
          | some tr =>
              match tr.pending, tr.outcome with
              | [], .ok _ =>
                  some ((s.setTransfer ref { tr with state := tr.state.finish }).setTask c { t with phase := .waiting })
              | [], .error e =>
                  some ((s.setTransfer ref { tr with state := tr.state.fail (parseErrorMessage e) }).setTask c
                    { t with phase := .leaving })
              | _, _ => none
          | none => none
      | _ => none
  | .abandon _ =>
      match t.phase with
      | .pumping _ => some (s.setTask c { t with phase := .leaving })
      | _ => none
  | .respond _ keepAlive =>
      match t.phase with
      | .waiting => some (s.setTask c { t with phase := if keepAlive then .idle else .leaving })
      | _ => none
  | .exit _ =>
      match t.phase with
      | .idle | .leaving =>
          let s := s.setTask c { t with phase := .ended }
          match t.lastBody with
          | some id => some (s.unregister id)
          | none => some s
      | _ => none
  | _ => none

def BodyEvent.task : BodyEvent → Option Nat
  | .dropLast c | .start c _ | .push c | .complete c | .abandon c | .respond c _ | .exit c => some c
  | _ => none

def pollStep (s : Bodies) : BodyEvent → Option Bodies
  | .lookup id max =>
      match s.polling with
      | .none =>
          match s.registry id with
          | some ref => some { s with polling := .found id ref (min max bodyReadMax) }
          | none => some { s with log := s.log ++ [⟨id, none, .eof⟩] }
      | _ => none
  | .read =>
      match s.polling with
      | .found id ref max =>
          match s.transfers[ref]? with
          | some tr =>
              let (result, state) := tr.state.read max
              let polling := match result with
                | .data _ | .eagain => .none
                | .eof | .error _ => .removing id
              some { s.setTransfer ref { tr with state } with polling, log := s.log ++ [⟨id, some ref, result⟩] }
          | none => none
      | _ => none
  | .remove =>
      match s.polling with
      | .removing id => some { s.unregister id with polling := .none }
      | _ => none
  | _ => none

def bodyStep (s : Bodies) (e : BodyEvent) : Option Bodies :=
  match e with
  | .connect => some { s with tasks := s.tasks ++ [⟨.idle, none⟩] }
  | .lookup _ _ | .read | .remove => pollStep s e
  | e =>
      match e.task with
      | some c =>
          match s.tasks[c]? with
          | some t => taskStep s c t e
          | none => none
      | none => none

/-! ## What the application was told -/

def BodyRead.bytes : BodyRead → Bytes
  | .data b => b
  | _ => []

def given (sel : Poll → Bool) (log : List Poll) : Bytes := (log.filter sel).flatMap fun p => p.result.bytes

/-- The full decoded body of a request. -/
def DecodedBody (src : Source) (data : Bytes) : Prop :=
  match src.framing with
  | .none => data = []
  | .length n => data.length = n ∧ data <+: src.reader.bytes
  | .chunked =>
      let maxBody := if src.limits.maxBody = 0 then hardMaxBody else src.limits.maxBody
      ∃ fields closed rest, LooseBody { src.limits with maxBody } src.reader fields data closed rest

end ThreeVa.HttpServer
