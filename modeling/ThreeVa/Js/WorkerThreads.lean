import ThreeVa.Lib.Runs
import ThreeVa.Lib.Text

/-!
# Worker messages

`js/src/builtins/worker_threads.rs`: the two queues between a worker and its parent while the worker runs, the two
`postMessage` functions and the two timers that drain the queues. A message is the text that crosses the threads. A step is
one native call with what follows it up to the next one, so that the two sides interleave in every way.
-/

namespace ThreeVa.Js
open Text

/-- One direction, with what was sent and what the handler was called with. -/
structure Direction where
  queue : List Str
  /-- A listener for `message` is registered. -/
  listens : Bool
  sent : List Str
  handed : List Str
deriving DecidableEq

namespace Direction

variable (c : Direction)

def new : Direction := ⟨[], false, [], []⟩

def push (json : Str) : Direction := { c with queue := c.queue ++ [json] }

/-- `emit('message', …)`. -/
def emit (json : Str) : Direction := if c.listens then { c with handed := c.handed ++ [json] } else c

def post (json : Str) : Direction := { c with sent := c.sent ++ [json] }

/-- Nothing is lost, duplicated or reordered. -/
def Kept : Prop := c.handed ++ c.queue = c.sent

instance : Decidable c.Kept := inferInstanceAs (Decidable (_ = _))

end Direction

structure Workers where
  toWorker : Direction
  toParent : Direction
  /-- The message the handler of the worker is called with inside the `try`. -/
  handling : Option Str
deriving DecidableEq

namespace Workers

def new : Workers := ⟨.new, .new, none⟩

variable (s : Workers)

/-- `sync_channel::<String>(256)`. -/
def capacity : Nat := 256

/-- `try_send`: whether the message was queued. -/
def workerSend (json : Str) : Workers × Bool :=
  if s.toWorker.queue.length < capacity then ({ s with toWorker := s.toWorker.push json }, true) else (s, false)

/-- `Worker.prototype.postMessage`, once `JSON.stringify` has returned. -/
def postToWorker (json : Str) : Workers :=
  let (s, _) := s.workerSend json
  { s with toWorker := s.toWorker.post json }

/-- `ParentPort.prototype.postMessage`. -/
def postToParent (json : Str) : Workers := { s with toParent := (s.toParent.push json).post json }

/-- One iteration of the parent's loop; a text that is no JSON is handed over as it is. -/
def parentRecv : Workers :=
  match s.toParent.queue with
  | [] => s
  | msg :: rest => { s with toParent := { s.toParent with queue := rest }.emit msg }

/-- One iteration of the worker's loop. What is parsed is handed over inside the `try`, the rest in the `catch`. -/
def workerRecv (isJson : Str → Bool) : Workers :=
  match s.toWorker.queue with
  | [] => s
  | msg :: rest =>
      { s with
        toWorker := { s.toWorker with queue := rest }.emit msg
        handling := if isJson msg && s.toWorker.listens then some msg else none }

/-- The `catch` after the handler has thrown. -/
def workerCatch (msg : Str) : Workers := { s with toWorker := s.toWorker.emit msg, handling := none }

inductive Op
  /-- `postMessage` with the text of `JSON.stringify`, or nothing where that throws. -/
  | postToWorker (json : Option Str)
  | postToParent (json : Option Str)
  | listenInWorker (on : Bool)
  | listenInParent (on : Bool)
  | parentRecv
  | workerRecv
  | workerReturns
  | workerThrows
deriving DecidableEq

def step (isJson : Str → Bool) (s : Workers) : Op → Option Workers
  | .postToWorker (some json) => some (s.postToWorker json)
  | .postToParent (some json) => some (s.postToParent json)
  | .postToWorker none | .postToParent none => some s
  | .listenInWorker on => some { s with toWorker := { s.toWorker with listens := on } }
  | .listenInParent on => some { s with toParent := { s.toParent with listens := on } }
  | .parentRecv => some s.parentRecv
  | .workerRecv => if s.handling = none then some (s.workerRecv isJson) else none
  | .workerReturns => s.handling.map fun _ => { s with handling := none }
  | .workerThrows => s.handling.map s.workerCatch

/-- In both directions. -/
def Kept : Prop := s.toWorker.Kept ∧ s.toParent.Kept

instance : Decidable s.Kept := inferInstanceAs (Decidable (_ ∧ _))

/-- There is room for what the parent posts, somebody listens when a message is taken, and no handler of the worker throws
while it is registered. -/
def Good : Op → Prop
  | .postToWorker (some _) => s.toWorker.queue.length < capacity
  | .parentRecv => s.toParent.queue ≠ [] → s.toParent.listens = true
  | .workerRecv => s.toWorker.queue ≠ [] → s.toWorker.listens = true
  | .workerThrows => s.toWorker.listens = false
  | _ => True

end Workers

/-!
## What one step does to the messages
-/

namespace Direction

variable {c : Direction} {json msg : Str} {rest : List Str}

theorem Kept.push_post (h : c.Kept) : ((c.push json).post json).Kept := by
  simp only [Kept, push, post, ← List.append_assoc]
  rw [show c.handed ++ c.queue = c.sent from h]

/-- A message that is not queued is lost. -/
theorem Kept.not_post (h : c.Kept) : ¬ (c.post json).Kept := by
  intro hpost
  have hlength := congrArg List.length (hpost.trans (congrArg (· ++ [json]) h).symm)
  simp [post] at hlength

theorem Kept.take (h : c.Kept) (hqueue : c.queue = msg :: rest) (hlistens : c.listens = true) :
    ({ c with queue := rest }.emit msg).Kept := by
  rw [Kept, hqueue] at h
  simpa [Kept, emit, hlistens] using h

/-- So is one that is taken while nobody listens. -/
theorem Kept.not_take (h : c.Kept) (hqueue : c.queue = msg :: rest) (hlistens : c.listens ≠ true) :
    ¬ ({ c with queue := rest }.emit msg).Kept := by
  intro htake
  rw [Kept, hqueue] at h
  simp only [Kept, emit, if_neg hlistens] at htake
  have hlength := congrArg List.length (h.trans htake.symm)
  simp at hlength

theorem Kept.not_emit (h : c.Kept) (hlistens : c.listens = true) : ¬ (c.emit msg).Kept := by
  intro hemit
  simp only [Kept, emit, if_pos hlistens] at hemit
  have hlength := congrArg List.length (hemit.trans (show c.handed ++ c.queue = c.sent from h).symm)
  simp at hlength

theorem emit_of_not_listens (hlistens : c.listens = false) : c.emit msg = c := by
  rw [emit, if_neg (by simp [hlistens])]

end Direction

namespace Workers

variable {isJson : Str → Bool} {s s' : Workers} {op : Op}

theorem Kept.step (h : s.Kept) (hgood : s.Good op) (hstep : s.step isJson op = some s') : s'.Kept := by
  obtain ⟨hworker, hparent⟩ := h
  match op, hstep with
  | .postToWorker (some json), hstep =>
      cases hstep
      have hroom : s.toWorker.queue.length < capacity := hgood
      rw [postToWorker, workerSend, if_pos hroom]
      exact ⟨hworker.push_post, hparent⟩
  | .postToParent (some json), hstep =>
      cases hstep
      exact ⟨hworker, hparent.push_post⟩
  | .postToWorker none, hstep =>
      cases hstep
      exact ⟨hworker, hparent⟩
  | .postToParent none, hstep =>
      cases hstep
      exact ⟨hworker, hparent⟩
  | .listenInWorker on, hstep =>
      cases hstep
      exact ⟨hworker, hparent⟩
  | .listenInParent on, hstep =>
      cases hstep
      exact ⟨hworker, hparent⟩
  | .parentRecv, hstep =>
      cases hstep
      rw [parentRecv]
      cases hqueue : s.toParent.queue with
      | nil => exact ⟨hworker, hparent⟩
      | cons msg rest => exact ⟨hworker, hparent.take hqueue (hgood (by simp [hqueue]))⟩
  | .workerRecv, hstep =>
      rw [Workers.step] at hstep
      split at hstep
      · cases hstep
        rw [workerRecv]
        cases hqueue : s.toWorker.queue with
        | nil => exact ⟨hworker, hparent⟩
        | cons msg rest => exact ⟨hworker.take hqueue (hgood (by simp [hqueue])), hparent⟩
      · cases hstep
  | .workerReturns, hstep =>
      obtain ⟨msg, -, rfl⟩ := Option.map_eq_some_iff.mp hstep
      exact ⟨hworker, hparent⟩
  | .workerThrows, hstep =>
      obtain ⟨msg, -, rfl⟩ := Option.map_eq_some_iff.mp hstep
      rw [workerCatch, Direction.emit_of_not_listens hgood]
      exact ⟨hworker, hparent⟩

theorem Kept.not_step (h : s.Kept) (hbad : ¬ s.Good op) (hstep : s.step isJson op = some s') : ¬ s'.Kept := by
  obtain ⟨hworker, hparent⟩ := h
  match op, hbad with
  | .postToWorker (some json), hbad =>
      cases hstep
      have hfull : ¬ s.toWorker.queue.length < capacity := hbad
      rw [postToWorker, workerSend, if_neg hfull]
      exact fun hkept => hworker.not_post hkept.1
  | .parentRecv, hbad =>
      cases hstep
      obtain ⟨hne, hlistens⟩ := Classical.not_imp.mp hbad
      obtain ⟨msg, rest, hqueue⟩ := List.exists_cons_of_ne_nil hne
      rw [parentRecv, hqueue]
      exact fun hkept => hparent.not_take hqueue hlistens hkept.2
  | .workerRecv, hbad =>
      rw [Workers.step] at hstep
      split at hstep
      · cases hstep
        obtain ⟨hne, hlistens⟩ := Classical.not_imp.mp hbad
        obtain ⟨msg, rest, hqueue⟩ := List.exists_cons_of_ne_nil hne
        rw [workerRecv, hqueue]
        exact fun hkept => hworker.not_take hqueue hlistens hkept.1
      · cases hstep
  | .workerThrows, hbad =>
      obtain ⟨msg, -, rfl⟩ := Option.map_eq_some_iff.mp hstep
      exact fun hkept => hworker.not_emit (by simpa [Good] using hbad) hkept.1
  | .postToWorker none, hbad | .postToParent _, hbad | .listenInWorker _, hbad | .listenInParent _, hbad
  | .workerReturns, hbad => exact absurd trivial hbad

end Workers

end ThreeVa.Js
