import Mathlib.Data.UInt
import Mathlib.Logic.Function.Basic
import ThreeVa.Lib.Entries
import ThreeVa.Lib.Runs
import ThreeVa.Lib.Utf8

/-!
# WebSocket pool

`js/src/builtins/websocket.rs`: the natives on the pool and `drain_ws_pool`, for any number of threads. The lock of the
pool is not reentrant: it can be taken only while no thread holds it. A step of a thread takes the lock, is the return of
one operation on a socket, or goes on to the next of these. `throw_js_error` evaluates `new Error(…)` in the script's
realm, and what a script has put in the place of `Error` may call the natives again.
-/

namespace ThreeVa.Js.WebSocket
open Text

/-! ## Control points -/

abbrev Id := UInt32

abbrev Thread := Nat

abbrev Pool (ω : Type) := Entries Id ω

inductive Message
  | text (t : Str)
  | binary (b : Bytes)
  | ping
  | pong
  | frame
  | close

/-- What `ws.read()` returns. -/
abbrev Frame := Except Str Message

inductive Reply
  | undefined
  | id (id : Id)
  | string (s : Str)
  | error (message : Str)

/-- What a guard of the pool is taken for. -/
inductive Use (ω : Type)
  | insert (id : Id) (ws : ω)
  | send (id : Id)
  | recv (id : Id)
  /-- The guard that `__wsRecv` takes when there is nothing more to read. -/
  | remove (id : Id) (reply : Reply)
  | close (id : Id)
  | keys
  | drain (id : Id) (ids : List Id)
  | clear

inductive Point (ω : Type)
  /-- In `ws_connect` and the checks before it. -/
  | connect
  /-- At `lock()`. -/
  | locking (use : Use ω)
  | inside (use : Use ω)
  /-- In `throw_js_error`, under the guard. -/
  | throwing (message : Str)
  /-- In `drain_ws_pool`, before the next socket. -/
  | pausing (ids : List Id)

inductive Call
  | wsConnect
  | wsSend (id : Id)
  | wsRecv (id : Id)
  | wsClose (id : Id)
  | drainWsPool

variable {ω : Type}

def Call.start : Call → Point ω
  | wsConnect => .connect
  | wsSend id => .locking (.send id)
  | wsRecv id => .locking (.recv id)
  | wsClose id => .locking (.close id)
  | drainWsPool => .locking .keys

/-- The guard lives here. The one that `__wsRecv` reads under still does when it asks for another. -/
def Point.holds : Point ω → Bool
  | inside _ | throwing _ | locking (.remove _ _) => true
  | _ => false

/-! ## Steps -/

structure State (ω : Type) where
  pool : Pool ω
  holder : Option Thread
  nextId : Id
  /-- The calls in progress, the innermost first. -/
  stack : Thread → List (Point ω)
  returned : List (Thread × Reply)

inductive Action (ω : Type)
  | call (c : Call)
  | connected (ws : ω)
  | refused (message : Str)
  | acquire
  | sent (error : Option Str)
  | read (frame : Frame)
  | collect (ids : List Id)
  /-- Whether the deadline of `drain_ws_pool` has passed. -/
  | wake (late : Bool)
  /-- The last operation under the guard has returned. -/
  | leave

abbrev contains (pool : Pool ω) (id : Id) : Prop := id ∈ pool.list.map Prod.fst

def noSocket (id : Id) : Str := "No WS ".toList ++ id.toNat.repr.toList

/-- Behind `lock()`: the natives that need a socket look it up. -/
def Use.enter (pool : Pool ω) : Use ω → Point ω
  | send id => if contains pool id then .inside (.send id) else .throwing (noSocket id)
  | recv id => if contains pool id then .inside (.recv id) else .throwing (noSocket id)
  | use => .inside use

/-- What a step leaves: the call goes on at a point or returns. -/
structure Effect (ω : Type) where
  pool : Pool ω
  nextId : Id
  outcome : Except Reply (Point ω)

/-- The last operation under a guard; the sockets that are closed do not tell whether it worked. -/
def Use.leave (pool : Pool ω) (nextId : Id) : Use ω → Option (Effect ω)
  | insert id ws => some ⟨pool.insert id ws, nextId, .error (.id id)⟩
  | remove id reply => some ⟨pool.remove id, nextId, .error reply⟩
  | close id => some ⟨pool.remove id, nextId, .error .undefined⟩
  | drain id ids => some ⟨pool.remove id, nextId, .ok (.pausing ids)⟩
  | clear => some ⟨.empty, nextId, .error .undefined⟩
  | _ => none

/-- One turn of the loop of `__wsRecv`. -/
def received (id : Id) : Frame → Except Reply (Point ω)
  | .ok (.text t) => .error (.string t)
  | .ok (.binary b) => .error (.string (fromUtf8Lossy b))
  | .ok .ping | .ok .pong | .ok .frame => .ok (.inside (.recv id))
  | .ok .close => .ok (.locking (.remove id (.string "@@CLOSED".toList)))
  | .error e => .ok (.locking (.remove id (.error ("recv failed: ".toList ++ e))))

/-- A step of a call that neither begins nor takes the lock. -/
def advance (pool : Pool ω) (nextId : Id) : Point ω → Action ω → Option (Effect ω)
  | .connect, .connected ws => some ⟨pool, nextId + 1, .ok (.locking (.insert nextId ws))⟩
  | .connect, .refused message => some ⟨pool, nextId, .error (.error message)⟩
  | .inside (.send _), .sent none => some ⟨pool, nextId, .error .undefined⟩
  | .inside (.send _), .sent (some e) => some ⟨pool, nextId, .ok (.throwing ("send failed: ".toList ++ e))⟩
  | .inside (.recv id), .read frame => some ⟨pool, nextId, received id frame⟩
  | .inside .keys, .collect ids =>
      if ids.isPerm (pool.list.map Prod.fst) then some ⟨pool, nextId, .ok (.pausing ids)⟩ else none
  | .inside use, .leave => use.leave pool nextId
  | .throwing message, .leave => some ⟨pool, nextId, .error (.error message)⟩
  | .pausing (id :: ids), .wake late =>
      some ⟨pool, nextId, .ok (.locking (if late then .clear else .drain id ids))⟩
  | .pausing [], .wake _ => some ⟨pool, nextId, .ok (.locking .clear)⟩
  | _, _ => none

namespace State

/-- A thread that does nothing may begin a call, and so may the constructor of an error. -/
def accepts (s : State ω) (t : Thread) : Bool :=
  match s.stack t with
  | [] | .throwing _ :: _ => true
  | _ => false

def setStack (s : State ω) (t : Thread) (points : List (Point ω)) : State ω :=
  { s with stack := Function.update s.stack t points }

/-- The thread at `p` leaves it for the outcome of a step. -/
def settle (s : State ω) (t : Thread) (p : Point ω) (rest : List (Point ω)) (e : Effect ω) : State ω :=
  let s := { s with pool := e.pool, nextId := e.nextId }
  match e.outcome with
  | .ok p' => { s.setStack t (p' :: rest) with holder := if p.holds && !p'.holds then none else s.holder }
  | .error reply =>
      { s.setStack t rest with
        holder := if p.holds then none else s.holder
        returned := s.returned ++ [(t, reply)] }

def step (s : State ω) : Thread × Action ω → Option (State ω)
  | (t, .call c) => if s.accepts t then some (s.setStack t (c.start :: s.stack t)) else none
  | (t, .acquire) =>
      match s.stack t, s.holder with
      | .locking use :: rest, none => some { s.setStack t (use.enter s.pool :: rest) with holder := some t }
      | _, _ => none
  | (t, a) =>
      match s.stack t with
      | p :: rest => (advance s.pool s.nextId p a).map (s.settle t p rest)
      | [] => none

/-- No call is in progress. -/
def start (pool : Pool ω) (nextId : Id) : State ω := ⟨pool, none, nextId, fun _ => [], []⟩

/-! ## Promises -/

def Locking (s : State ω) (t : Thread) : Prop := ∃ use rest, s.stack t = .locking use :: rest

/-- No native is called in place of the constructor of an error. -/
def Unnested (s : State ω) : Thread × Action ω → Prop
  | (t, .call _) => s.stack t = []
  | _ => True

end State

def Frame.ordinary : Frame → Bool
  | .ok .close | .error _ => false
  | _ => true

/-- A frame that `__wsRecv` reads on after. -/
def Frame.skipped : Frame → Bool
  | .ok .ping | .ok .pong | .ok .frame => true
  | _ => false

/-- The socket has neither been closed by its peer nor failed. -/
def Action.ordinary : Action ω → Bool
  | read frame => frame.ordinary
  | _ => true

def Ordinary (_ : State ω) (x : Thread × Action ω) : Prop := x.2.ordinary = true

/-- The frames that a thread reads in a run. -/
def framesOf (t : Thread) (run : List (Thread × Action ω)) : List Frame :=
  run.filterMap fun
    | (u, .read frame) => if u = t then some frame else none
    | _ => none

/-- Neither the begin of a call nor a frame that does not end the loop of `__wsRecv`. -/
def Action.advances : Action ω → Bool
  | call _ => false
  | read frame => !frame.skipped
  | _ => true

/-- How far a call is from its end; `drain_ws_pool` learns only behind its first lock for how many sockets. -/
def Point.rank : Point ω → Nat × Nat
  | connect => (1, 2)
  | locking .keys => (1, 1)
  | inside .keys => (1, 0)
  | locking (.drain _ ids) => (0, 3 * ids.length + 6)
  | inside (.drain _ ids) => (0, 3 * ids.length + 5)
  | pausing ids => (0, 3 * ids.length + 4)
  | locking _ => (0, 3)
  | inside _ => (0, 2)
  | throwing _ => (0, 1)

def rank : List (Point ω) → Nat × Nat
  | [] => (0, 0)
  | p :: _ => p.rank

/-- A call of `__wsRecv` that returns leaves every id in the pool, and its own only if the last frame was ordinary. -/
def RecvKeeps (s : State ω) : Prop :=
  ∀ t id run a s', s.stack t = [.locking (.recv id)] →
    (∀ c, (t, Action.call c) ∉ run ++ [(t, a)]) → Runs.Along State.step State.Unnested s ((t, .acquire) :: (run ++ [(t, a)])) →
    Runs.exec State.step s ((t, .acquire) :: (run ++ [(t, a)])) = some s' → s'.stack t = [] →
    ∀ k, contains s'.pool k ↔
      contains s.pool k ∧ (k = id → ∀ frame ∈ (framesOf t (run ++ [(t, a)])).getLast?, frame.ordinary = true)

structure Lawful (s : State ω) : Prop where
  /-- No thread asks for the lock that it holds. -/
  free : ∀ t, s.Locking t → s.holder ≠ some t
  /-- A call goes on once its operation on a socket returns, or it waits for a thread whose call does. -/
  moves : ∀ t, s.stack t ≠ [] → ∃ u, (u = t ∨ s.Locking t ∧ s.holder = some u) ∧
    ∃ a s', a.advances = true ∧ a.ordinary = true ∧ s.step (u, a) = some s'
  /-- Every step of a call brings it nearer to its end. -/
  nearer : ∀ t a s', a.advances = true → a.ordinary = true → s.step (t, a) = some s' →
    Prod.Lex (· < ·) (· < ·) (rank (s'.stack t)) (rank (s.stack t))
  keeps : RecvKeeps s

end ThreeVa.Js.WebSocket
