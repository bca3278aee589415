import Mathlib.Data.Rat.Floor
import Mathlib.Logic.Function.Basic
import ThreeVa.Lib.Entries
import ThreeVa.Lib.Text

/-!
# Timers

`js/src/builtins/timers.rs`: the table of the timer manager, the table of callbacks on the side of the script, and a run of
calls, polls and callbacks. Instants are nanoseconds of a monotone clock.
-/

namespace ThreeVa.Js
open Text

/-! ## Numbers -/

/-- A number of the script. -/
inductive Number
  | nan
  | inf (neg : Bool)
  | finite (q : ℚ)
deriving DecidableEq

namespace Number

/-- `Math.floor(+ms) || 0` -/
def floorOrZero : Number → Number
  | nan => finite 0
  | inf neg => inf neg
  | finite q => finite q.floor

/-- `uint32_value` -/
def toUint32 : Number → Nat
  | finite q => ((if q < 0 then q.ceil else q.floor) % (2 ^ 32 : Int)).toNat
  | _ => 0

/-- The property that a number names, if it is a whole number. -/
def key : Number → Option Nat
  | finite q => if q.den = 1 ∧ 0 ≤ q.num then some q.num.toNat else none
  | _ => none

end Number

/-! ## The timer manager -/

abbrev TimerId := Nat

abbrev Instant := Nat

/-- `Duration::from_millis` -/
def fromMillis (ms : Nat) : Nat := ms * 1000000

structure TimerEntry where
  firesAt : Instant
  repeating : Bool
  intervalMs : Nat
  cancelled : Bool
  background : Bool
  denyScopes : List Str
deriving DecidableEq

abbrev TimerManager := Entries TimerId TimerEntry

namespace TimerManager

variable (timers : TimerManager) (now : Instant) (scopes : List Str)

def setTimeout (id : TimerId) (ms : Nat) : TimerManager :=
  timers.insert id ⟨now + fromMillis ms, false, 0, false, false, scopes⟩

def setIntervalInner (id : TimerId) (ms : Nat) (background : Bool) : TimerManager :=
  timers.insert id ⟨now + fromMillis ms, true, ms, false, background, scopes⟩

def setInterval (id : TimerId) (ms : Nat) : TimerManager := setIntervalInner timers now scopes id ms false

def setIntervalBackground (id : TimerId) (ms : Nat) : TimerManager := setIntervalInner timers now scopes id ms true

def setRef (id : TimerId) (refd : Bool) : TimerManager := timers.modify id fun entry => { entry with background := !refd }

def cancel (id : TimerId) : TimerManager := timers.modify id fun entry => { entry with cancelled := true }

def expired (entry : TimerEntry) : Bool := !entry.cancelled && decide (entry.firesAt ≤ now)

/-- What a poll leaves of an entry: what is cancelled or has fired goes, an interval gets its next time. -/
def afterPoll (entry : TimerEntry) : Option TimerEntry :=
  if entry.cancelled then none
  else if entry.firesAt ≤ now then
    if entry.repeating then some { entry with firesAt := now + fromMillis entry.intervalMs } else none
  else some entry

/-- The timers that are due, in the order of their ids, and the table after it. -/
def pollExpiredIds : List (TimerId × List Str) × TimerManager :=
  let expired := (timers.list.filter fun x => expired now x.2).map fun x => (x.1, x.2.denyScopes)
  (Entries.sortBy (fun a b => compare a.1 b.1) expired, timers.filterMapValues (afterPoll now))

def hasPending : Bool := timers.list.any fun x => !x.2.cancelled && !x.2.background

end TimerManager

/-! ## The side of the script -/

/-- A function of the script, by its identity. -/
abbrev Fn := Nat

/-- What stands in `__timerCallbacks`: a function, or the wrapper of an interval. -/
structure Callback where
  fn : Fn
  repeats : Bool
deriving DecidableEq

/-- What `__makeTimerHandle` returns. -/
structure Handle where
  id : TimerId
  ms : Number
  repeats : Bool
  unref : Bool
deriving DecidableEq

/-- The argument of `clearTimeout` and `clearInterval`. -/
inductive ClearArg
  | null
  | handle (h : Nat)
  | number (n : Number)
deriving DecidableEq

structure Runtime where
  clock : Instant
  timers : TimerManager
  /-- `__timerCallbacks` -/
  callbacks : TimerId → Option Callback
  /-- `__timerNextId` -/
  nextId : TimerId
  handles : List Handle
  /-- What the current poll has collected and not fired yet. -/
  batch : List (TimerId × List Str)

namespace Runtime

def new : Runtime := ⟨0, .empty, fun _ => none, 0, [], []⟩

variable (s : Runtime) (scopes : List Str)

def nativeSet (id : TimerId) (ms : Number) (repeats : Bool) : TimerManager :=
  if repeats then TimerManager.setInterval s.timers s.clock scopes (id % 2 ^ 32) ms.toUint32
  else TimerManager.setTimeout s.timers s.clock scopes (id % 2 ^ 32) ms.toUint32

/-- `setTimeout` and `setInterval`, which return the next handle. -/
def set (fn : Fn) (ms : Number) (repeats : Bool) : Runtime :=
  let id := s.nextId + 1
  let delay := ms.floorOrZero
  { s with
    nextId := id
    callbacks := Function.update s.callbacks id (some ⟨fn, repeats⟩)
    timers := s.nativeSet scopes id delay repeats
    handles := s.handles ++ [⟨id, delay, repeats, false⟩] }

def clearId (key : Option TimerId) (native : TimerId) : Runtime :=
  { s with
    callbacks := match key with
      | some id => Function.update s.callbacks id none
      | none => s.callbacks
    timers := TimerManager.cancel s.timers native }

/-- `clearTimeout` and `clearInterval` -/
def clear : ClearArg → Runtime
  | .null => s
  | .handle h =>
      match s.handles[h]? with
      | some handle => s.clearId (some handle.id) (handle.id % 2 ^ 32)
      | none => s
  | .number n => s.clearId n.key n.toUint32

/-- `handle.refresh()` -/
def refresh (h : Nat) (handle : Handle) : Runtime :=
  let cb := s.callbacks handle.id
  let s := { s with timers := TimerManager.cancel s.timers (handle.id % 2 ^ 32) }
  let id := s.nextId + 1
  let timers := s.nativeSet scopes id handle.ms handle.repeats
  { s with
    nextId := id
    handles := s.handles.set h { handle with id := id }
    callbacks := Function.update s.callbacks id cb
    timers := if handle.unref then TimerManager.setRef timers (id % 2 ^ 32) false else timers }

/-- `handle.ref()` and `handle.unref()` -/
def setRef (h : Nat) (handle : Handle) (refd : Bool) : Runtime :=
  { s with
    handles := s.handles.set h { handle with unref := !refd }
    timers := TimerManager.setRef s.timers (handle.id % 2 ^ 32) refd }

/-- `__fireTimer`: the callback that is called. -/
def fireTimer (id : TimerId) : Option Fn × Runtime :=
  match s.callbacks id with
  | some cb =>
      (some cb.fn, if cb.repeats then s else { s with callbacks := Function.update s.callbacks id none })
  | none => (none, s)

/-- What happens next: time goes by, the script calls a function of the timers, with the scopes it runs in, the loop polls,
or the next callback of the poll is started. -/
inductive Op
  | tick (ns : Nat)
  | set (scopes : List Str) (fn : Fn) (ms : Number) (repeats : Bool)
  | clear (arg : ClearArg)
  | refresh (scopes : List Str) (h : Nat)
  | setRef (h : Nat) (refd : Bool)
  | poll
  | fire

/-- A step, and the function that it starts with the id of its timer. -/
def next (s : Runtime) : Op → Option (Runtime × Option (TimerId × Fn))
  | .tick ns => some ({ s with clock := s.clock + ns }, none)
  | .set scopes fn ms repeats => some (s.set scopes fn ms repeats, none)
  | .clear arg => some (s.clear arg, none)
  | .refresh scopes h => s.handles[h]?.map fun handle => (s.refresh scopes h handle, none)
  | .setRef h refd => s.handles[h]?.map fun handle => (s.setRef h handle refd, none)
  | .poll =>
      -- the loop polls anew only after it has fired what it collected
      if s.batch = [] then
        let (batch, timers) := TimerManager.pollExpiredIds s.timers s.clock
        some ({ s with batch, timers }, none)
      else none
  | .fire =>
      match s.batch with
      | [] => none
      | (id, _) :: batch =>
          let (called, s) := { s with batch }.fireTimer id
          some (s, called.map fun fn => (id, fn))

end Runtime

/-! ## What the timers promise

The history of a run records each arming of a timer, by `setTimeout`, `setInterval` or `refresh`, and each start of a
callback.
-/

/-- The whole milliseconds that a delay counts: nothing below zero, and none for a delay that never ends. -/
def Number.delay : Number → Option Nat
  | nan => some 0
  | inf neg => if neg then some 0 else none
  | finite q => some q.floor.toNat

structure Start where
  fn : Fn
  time : Instant
  /-- The due time at which the timer was collected, if it was. -/
  due : Option Instant
  /-- The timer was cleared or armed anew before. -/
  dead : Bool
deriving DecidableEq

structure Arming where
  handle : Nat
  fn : Fn
  repeats : Bool
  delay : Option Nat
  due : Option Instant
  cleared : Bool
  /-- The timer was armed anew. -/
  replaced : Bool
  /-- A poll has come at or after the due time. -/
  polled : Bool
  /-- The due time of the poll that is waiting to start the callback. -/
  collected : Option Instant
  starts : List Start
deriving DecidableEq

namespace Arming

def new (handle : Nat) (fn : Fn) (repeats : Bool) (delay : Option Nat) (now : Instant) (cleared : Bool) : Arming :=
  ⟨handle, fn, repeats, delay, delay.map fun ms => now + fromMillis ms, cleared, false, false, none, []⟩

def dead (a : Arming) : Bool := a.cleared || a.replaced

def poll (now : Instant) (a : Arming) : Arming :=
  if !a.dead && a.due.any (· ≤ now) && (a.repeats || !a.polled) then
    { a with
      polled := true
      collected := a.due
      due := if a.repeats then a.delay.map fun ms => now + fromMillis ms else a.due }
  else a

def start (now : Instant) (fn : Fn) (a : Arming) : Arming :=
  { a with starts := a.starts ++ [⟨fn, now, a.collected, a.dead⟩], collected := none }

/-- A callback is that of the timer, it starts after a poll at or after the due time and not once the timer is cleared or
armed anew; a timeout starts at most once, and once if a poll has come and it was not cleared or armed anew. -/
structure Lawful (settled : Bool) (a : Arming) : Prop where
  same : ∀ st ∈ a.starts, st.fn = a.fn
  notEarly : ∀ st ∈ a.starts, ∃ due, st.due = some due ∧ due ≤ st.time
  notDead : ∀ st ∈ a.starts, st.dead = false
  once : a.repeats = false → a.starts.length ≤ 1
  runs : settled = true → a.repeats = false → a.polled = true → a.dead = false → a.starts.length = 1

end Arming

structure History where
  armings : TimerId → Option Arming
  /-- The due times and the ids of the timers started since the last poll. -/
  order : List (Instant × TimerId)

/-- A timer that is due earlier comes first, then one that was armed earlier. -/
def Earlier (a b : Instant × TimerId) : Prop := a.1 < b.1 ∨ a.1 = b.1 ∧ a.2 < b.2

namespace History

def new : History := ⟨fun _ => none, []⟩

variable (h : History)

def map (f : TimerId → Arming → Arming) : History := { h with armings := fun id => (h.armings id).map (f id) }

def arm (id : TimerId) (a : Arming) : History := { h with armings := Function.update h.armings id (some a) }

def start (id : TimerId) (fn : Fn) (now : Instant) : History :=
  match h.armings id with
  | some a =>
      { armings := Function.update h.armings id (some (a.start now fn))
        order := h.order ++ [(a.collected.getD 0, id)] }
  | none => h

/-- A timer that was cleared stays so when it is armed anew. -/
def refresh (id : TimerId) (handle : Handle) (now : Instant) : History :=
  match h.armings handle.id with
  | some a =>
      (h.map fun _ b => if b.handle = a.handle then { b with replaced := true } else b).arm id
        (.new a.handle a.fn a.repeats a.delay now a.cleared)
  | none => h

def record (s : Runtime) (called : Option (TimerId × Fn)) : Runtime.Op → History
  | .set _ fn ms repeats => h.arm (s.nextId + 1) (.new s.handles.length fn repeats ms.delay s.clock false)
  | .clear (.handle n) => h.map fun _ a => if a.handle = n then { a with cleared := true } else a
  | .clear (.number n) => h.map fun id a => if n.key = some id then { a with cleared := true } else a
  | .refresh _ n =>
      match s.handles[n]? with
      | some handle => h.refresh (s.nextId + 1) handle s.clock
      | none => h
  | .poll => { h.map fun _ a => a.poll s.clock with order := [] }
  | .fire =>
      match called with
      | some (id, fn) => h.start id fn s.clock
      | none => h
  | _ => h

structure Lawful (settled : Bool) : Prop where
  each : ∀ id a, h.armings id = some a → a.Lawful settled
  ordered : h.order.Pairwise Earlier

end History

/-- A run with its history. -/
structure Traced where
  runtime : Runtime
  history : History

namespace Traced

def new : Traced := ⟨.new, .new⟩

def step (t : Traced) (op : Runtime.Op) : Option Traced :=
  (t.runtime.next op).map fun (s, called) => ⟨s, t.history.record t.runtime called op⟩

def Lawful (t : Traced) : Prop := t.history.Lawful t.runtime.batch.isEmpty

/-- The delay is counted as it is written, and there is an id left. -/
def goodSet (t : Traced) (ms : Number) : Prop :=
  ms.delay = some ms.floorOrZero.toUint32 ∧ t.runtime.nextId + 1 < 2 ^ 32

/-- The timer that is armed anew has been cleared, or it is neither collected nor, unless it is an interval, started. -/
def goodRefresh (t : Traced) (h : Nat) : Prop :=
  t.runtime.nextId + 1 < 2 ^ 32 ∧ ∀ handle ∈ t.runtime.handles[h]?, ∀ a ∈ t.history.armings handle.id,
    a.cleared = true ∨ a.collected = none ∧ (a.repeats = true ∨ a.starts = [])

/-- The timers that are due have been armed in the order in which they are due. -/
def goodPoll (t : Traced) : Prop :=
  ∀ a ∈ t.runtime.timers.list, ∀ b ∈ t.runtime.timers.list, TimerManager.expired t.runtime.clock a.2 = true →
    TimerManager.expired t.runtime.clock b.2 = true → a.1 < b.1 → a.2.firesAt ≤ b.2.firesAt

def Good (t : Traced) : Runtime.Op → Prop
  | .set _ _ ms _ => t.goodSet ms
  | .clear (.number n) => n.key = some n.toUint32 ∨ t.runtime.timers.get? n.toUint32 = none
  | .refresh _ h => t.goodRefresh h
  | .poll => t.goodPoll
  | _ => True

end Traced

end ThreeVa.Js
