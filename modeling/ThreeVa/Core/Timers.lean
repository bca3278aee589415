import Mathlib.Data.List.Perm.Basic
import Mathlib.Logic.Function.Basic
import ThreeVa.Lib.Runs
import Mathlib.Data.List.TakeWhile

/-!
# Timers and the event loop of the runtime core

`TimerWheel` of `core/src/timer.rs`, `TaskQueue` of `core/src/task_queue.rs` and `Runtime` of `core/src/lib.rs`. Instants are
nanoseconds of a monotone clock, and a call happens at one instant. A callback is the number it was given.
-/

namespace ThreeVa.Core

abbrev Instant := Nat

abbrev Duration := Nat

abbrev TimerId := Nat

abbrev Callback := Nat

/-! ## The wheels -/

structure Timer where
  id : TimerId
  callback : Callback
  scheduledAt : Instant
  repeating : Bool
  interval : Option Duration
deriving DecidableEq

namespace Timer

def after (id : TimerId) (callback : Callback) (delay : Duration) (now : Instant) : Timer :=
  ⟨id, callback, now + delay, false, none⟩

/-- `Timer::interval` -/
def every (id : TimerId) (callback : Callback) (interval : Duration) (now : Instant) : Timer :=
  ⟨id, callback, now + interval, true, some interval⟩

def isReady (t : Timer) (now : Instant) : Bool := t.scheduledAt ≤ now

def reschedule (t : Timer) (now : Instant) : Timer :=
  match t.interval with
  | some interval => { t with scheduledAt := now + interval }
  | none => t

end Timer

inductive Wheel
  | ms
  | s
  | m
  | h
  | d
  | large
deriving DecidableEq

def Wheel.all : List Wheel := [ms, s, m, h, d, large]

def secs (n : Nat) : Duration := n * 1000000000

/-- The wheel of a delay. -/
def Wheel.of (delay : Duration) : Wheel :=
  if delay / 1000000 < 64 then ms
  else if delay / secs 1 < 4 then s
  else if delay / secs 1 < 240 then m
  else if delay / secs 1 < 14400 then h
  else if delay / secs 1 < 345600 then d
  else large

structure TimerWheel where
  wheels : Wheel → List Timer
  nextTimerId : TimerId

/-- `poll_wheel`: the ready timers at the front, and what is left. -/
def pollWheel (now : Instant) (repeatingOk : Bool) : List Timer → List Timer × List Timer
  | [] => ([], [])
  | t :: rest =>
      if t.isReady now then
        let (ready, left) := pollWheel now repeatingOk rest
        ((if repeatingOk && t.repeating then t.reschedule now else t) :: ready, left)
      else ([], t :: rest)

namespace TimerWheel

variable (w : TimerWheel)

def new : TimerWheel := ⟨fun _ => [], 0⟩

/-- All armed timers, wheel by wheel. -/
def timers : List Timer := Wheel.all.flatMap w.wheels

def addTimer (t : Timer) (now : Instant) : TimerWheel :=
  let k := Wheel.of (t.scheduledAt - now)
  { w with wheels := Function.update w.wheels k (w.wheels k ++ [t]) }

def scheduleWithCallback (delay : Duration) (callback : Callback) (now : Instant) : TimerWheel × TimerId :=
  let id := w.nextTimerId
  (({ w with nextTimerId := id + 1 } : TimerWheel).addTimer (.after id callback delay now) now, id)

def scheduleIntervalWithCallback (interval : Duration) (callback : Callback) (now : Instant) : TimerWheel × TimerId :=
  let id := w.nextTimerId
  (({ w with nextTimerId := id + 1 } : TimerWheel).addTimer (.every id callback interval now) now, id)

def repeatingOk : Wheel → Bool
  | .large => false
  | _ => true

def poll (now : Instant) : TimerWheel × List Timer :=
  ({ w with wheels := fun k => (pollWheel now (repeatingOk k) (w.wheels k)).2 },
    Wheel.all.flatMap fun k => (pollWheel now (repeatingOk k) (w.wheels k)).1)

def cancelIn (id : TimerId) : List Wheel → TimerWheel × Bool
  | [] => (w, false)
  | k :: ks =>
      if (w.wheels k).any (·.id = id) then
        ({ w with wheels := Function.update w.wheels k ((w.wheels k).eraseP (·.id = id)) }, true)
      else cancelIn id ks

def cancel (id : TimerId) : TimerWheel × Bool := w.cancelIn id Wheel.all

def pendingCount : Nat := w.timers.length

def nextDuration (now : Instant) : Option Duration := (w.timers.map fun t => t.scheduledAt - now).min?

end TimerWheel

/-! ## Tasks -/

inductive TaskType
  | userTask
  | internalTask
  | ioTask
  | delayedTask
  | promiseTask
deriving DecidableEq

structure Task where
  id : Nat
  taskType : TaskType

structure TaskQueue where
  highPriority : List Task
  normalPriority : List Task
  lowPriority : List Task
  delayed : List Task
  nextTaskId : Nat

namespace TaskQueue

variable (q : TaskQueue)

def new : TaskQueue := ⟨[], [], [], [], 0⟩

def push (task : Task) : TaskQueue :=
  match task.taskType with
  | .promiseTask | .internalTask => { q with highPriority := q.highPriority ++ [task] }
  | .userTask | .ioTask => { q with normalPriority := q.normalPriority ++ [task] }
  | .delayedTask => { q with lowPriority := q.lowPriority ++ [task] }

def pendingCount : Nat := q.highPriority.length + q.normalPriority.length + q.lowPriority.length + q.delayed.length

end TaskQueue

/-! ## The runtime -/

structure Runtime where
  taskQueue : TaskQueue
  timerWheel : TimerWheel

namespace Runtime

variable (r : Runtime)

def new : Runtime := ⟨.new, .new⟩

def setTimeout (delay : Duration) (callback : Callback) (now : Instant) : Runtime × TimerId :=
  let (wheel, id) := r.timerWheel.scheduleWithCallback delay callback now
  ({ r with timerWheel := wheel }, id)

def setInterval (interval : Duration) (callback : Callback) (now : Instant) : Runtime × TimerId :=
  let (wheel, id) := r.timerWheel.scheduleIntervalWithCallback interval callback now
  ({ r with timerWheel := wheel }, id)

def clearTimeout (id : TimerId) : Runtime × Bool :=
  let (wheel, found) := r.timerWheel.cancel id
  ({ r with timerWheel := wheel }, found)

def scheduleTask (taskType : TaskType) : Runtime × Nat :=
  let id := r.taskQueue.nextTaskId
  ({ r with taskQueue := ({ r.taskQueue with nextTaskId := id + 1 } : TaskQueue).push ⟨id, taskType⟩ }, id)

def pendingTaskCount : Nat := r.taskQueue.pendingCount + r.timerWheel.pendingCount

/-- What the loop does with a timer that has expired, after its callback. -/
def readd (now : Instant) (w : TimerWheel) (t : Timer) : TimerWheel :=
  match t.repeating, t.interval with
  | true, some interval => (w.scheduleWithCallback interval t.callback now).1
  | _, _ => w

/-- One iteration of `run`, with the callbacks it calls. -/
def iterate (now : Instant) : Runtime × List Callback :=
  let (wheel, expired) := r.timerWheel.poll now
  ({ r with timerWheel := expired.foldl (readd now) wheel }, expired.map Timer.callback)

end Runtime

/-! ## What the caller was promised -/

/-- A timer as its owner sees it: under the id that was returned, until it fires or is cleared. -/
structure Armed where
  id : TimerId
  callback : Callback
  due : Instant
  interval : Option Duration
deriving DecidableEq

namespace Armed

def isDue (a : Armed) (now : Instant) : Bool := a.due ≤ now

/-- An interval goes on under its id. -/
def next (now : Instant) (a : Armed) : Option Armed := a.interval.map fun interval => { a with due := now + interval }

end Armed

/-- What a poll returned and should have returned, and what an iteration called and should have called. -/
inductive Round
  | polled (got expected : List (TimerId × Callback))
  | called (got expected : List Callback)

/-- Everything that is due, each once, and nothing else. -/
def Round.Exact : Round → Prop
  | polled got expected => got.Perm expected
  | called got expected => got.Perm expected

structure Traced where
  runtime : Runtime
  now : Instant
  armed : List Armed
  /-- The tasks that were scheduled and have not completed. -/
  running : List Nat
  rounds : List Round

namespace Traced

inductive Op
  | tick (elapsed : Duration)
  | setTimeout (delay : Duration) (callback : Callback)
  | setInterval (interval : Duration) (callback : Callback)
  | clear (id : TimerId)
  | poll
  | scheduleTask (taskType : TaskType)
  /-- The future of a task completes. -/
  | complete (task : Nat)
  /-- One iteration of `run`. -/
  | iterate
deriving DecidableEq

def new : Traced := ⟨.new, 0, [], [], []⟩

variable (t : Traced)

def step (t : Traced) : Op → Option Traced
  | .tick elapsed => some { t with now := t.now + elapsed }
  | .setTimeout delay callback =>
      let (runtime, id) := t.runtime.setTimeout delay callback t.now
      some { t with runtime := runtime, armed := ⟨id, callback, t.now + delay, none⟩ :: t.armed }
  | .setInterval interval callback =>
      let (runtime, id) := t.runtime.setInterval interval callback t.now
      some { t with runtime := runtime, armed := ⟨id, callback, t.now + interval, some interval⟩ :: t.armed }
  | .clear id =>
      some { t with runtime := (t.runtime.clearTimeout id).1, armed := t.armed.filter (·.id ≠ id) }
  | .poll =>
      let (wheel, ready) := t.runtime.timerWheel.poll t.now
      let due := t.armed.filter (·.isDue t.now)
      some { t with
        runtime := { t.runtime with timerWheel := wheel }
        armed := t.armed.filter (!·.isDue t.now)
        rounds := .polled (ready.map fun r => (r.id, r.callback)) (due.map fun a => (a.id, a.callback)) :: t.rounds }
  | .scheduleTask taskType =>
      let (runtime, id) := t.runtime.scheduleTask taskType
      some { t with runtime := runtime, running := id :: t.running }
  | .complete task => some { t with running := t.running.erase task }
  | .iterate =>
      if t.runtime.pendingTaskCount > 0 then
        let (runtime, called) := t.runtime.iterate t.now
        let due := t.armed.filter (·.isDue t.now)
        some { t with
          runtime := runtime
          armed := due.filterMap (·.next t.now) ++ t.armed.filter (!·.isDue t.now)
          rounds := .called called (due.map Armed.callback) :: t.rounds }
      else none

structure Lawful (t : Traced) : Prop where
  rounds : ∀ r ∈ t.rounds, r.Exact
  nextDuration : ∀ a ∈ t.armed, ∃ wait ∈ t.runtime.timerWheel.nextDuration t.now, wait ≤ a.due - t.now
  /-- The loop of `run` ends once nothing is left. -/
  pending : t.running = [] → t.armed = [] → t.runtime.pendingTaskCount = 0

/-- In every wheel the timers that are due stand before the others. -/
def DueFirst (w : TimerWheel) (now : Instant) : Prop :=
  ∀ k, (w.wheels k).filter (·.isReady now) = (w.wheels k).takeWhile (·.isReady now)

/-- No timer is hidden behind one that is not due, no interval comes due in the loop, and there are no tasks. -/
def Good : Op → Prop
  | .poll => DueFirst t.runtime.timerWheel t.now
  | .iterate => DueFirst t.runtime.timerWheel t.now ∧ ∀ a ∈ t.armed, a.isDue t.now = true → a.interval = none
  | .scheduleTask _ => False
  | _ => True

end Traced

end ThreeVa.Core

/-!
## What one call does to the armed timers
-/

namespace ThreeVa.Core

/-! ## Lists -/

theorem dropWhile_eq_filter {α : Type} {p : α → Bool} {l : List α} (h : l.filter p = l.takeWhile p) :
    l.dropWhile p = l.filter (!p ·) := by
  induction l with
  | nil => rfl
  | cons a l ih =>
      cases hp : p a with
      | true =>
          simp only [List.filter_cons, List.takeWhile_cons, hp, ↓reduceIte, List.cons.injEq, true_and] at h
          simp [hp, ih h]
      | false =>
          -- nothing after the first one that fails passes
          simp only [List.filter_cons, List.takeWhile_cons, hp, Bool.false_eq_true, ↓reduceIte] at h
          have hall : l.filter (!p ·) = l := by
            rw [List.filter_eq_self]
            intro b hb
            have := List.filter_eq_nil_iff.mp h b hb
            simpa using this
          simp [hp, hall]

theorem flatMap_update_append {α β : Type} [DecidableEq α] (f : α → List β) (k : α) (x : β) {ks : List α}
    (hks : ks.Nodup) (hk : k ∈ ks) :
    (ks.flatMap (Function.update f k (f k ++ [x]))).Perm (x :: ks.flatMap f) := by
  induction ks with
  | nil => cases hk
  | cons j ks ih =>
      obtain ⟨hj, hks⟩ := List.nodup_cons.mp hks
      simp only [List.flatMap_cons]
      by_cases hjk : j = k
      · subst hjk
        have hrest : ks.flatMap (Function.update f j (f j ++ [x])) = ks.flatMap f :=
          List.flatMap_congr fun i hi => Function.update_of_ne (ne_of_mem_of_not_mem hi hj) _ _
        rw [Function.update_self, hrest, List.append_assoc]
        exact List.perm_middle
      · rw [Function.update_of_ne hjk]
        have htail := ih hks ((List.mem_cons.mp hk).resolve_left (Ne.symm hjk))
        exact (htail.append_left _).trans List.perm_middle

theorem eraseP_eq_filter {l : List Timer} {id : TimerId} (h : (l.map Timer.id).Nodup) :
    l.eraseP (·.id = id) = l.filter (·.id ≠ id) := by
  induction l with
  | nil => rfl
  | cons t l ih =>
      obtain ⟨ht, hl⟩ := List.nodup_cons.mp h
      by_cases hid : t.id = id
      · have hrest : l.filter (·.id ≠ id) = l := by
          rw [List.filter_eq_self]
          intro u hu
          simp only [ne_eq, decide_not, Bool.not_eq_true', decide_eq_false_iff_not]
          rintro rfl
          exact ht (hid ▸ List.mem_map_of_mem hu)
        rw [List.eraseP_cons_of_pos (by simp [hid]), List.filter_cons_of_neg (by simp [hid]), hrest]
      · simp [hid, ih hl]

/-! ## The wheels -/

theorem Wheel.mem_all (k : Wheel) : k ∈ Wheel.all := by cases k <;> decide

theorem Wheel.all_nodup : Wheel.all.Nodup := by decide

theorem pollWheel_eq (now : Instant) (repeatingOk : Bool) (l : List Timer) :
    pollWheel now repeatingOk l =
      ((l.takeWhile (·.isReady now)).map fun t => if repeatingOk && t.repeating then t.reschedule now else t,
        l.dropWhile (·.isReady now)) := by
  induction l with
  | nil => rfl
  | cons t l ih =>
      cases hready : t.isReady now with
      | true => simp [pollWheel, hready, ih]
      | false => simp [pollWheel, hready]

theorem Timer.reschedule_id (t : Timer) (now : Instant) : (t.reschedule now).id = t.id := by
  unfold Timer.reschedule
  split <;> rfl

theorem Timer.reschedule_callback (t : Timer) (now : Instant) : (t.reschedule now).callback = t.callback := by
  unfold Timer.reschedule
  split <;> rfl

namespace TimerWheel

variable {w : TimerWheel} {now : Instant} {id : TimerId}

theorem timers_addTimer (w : TimerWheel) (t : Timer) (now : Instant) : (w.addTimer t now).timers.Perm (t :: w.timers) :=
  flatMap_update_append w.wheels _ t Wheel.all_nodup (Wheel.mem_all _)

theorem timers_poll (h : Traced.DueFirst w now) : (w.poll now).1.timers = w.timers.filter (!·.isReady now) := by
  simp only [poll, timers, pollWheel_eq, List.filter_flatMap]
  exact List.flatMap_congr fun k _ => dropWhile_eq_filter (h k)

/-- What is returned, up to the times intervals are moved to. -/
theorem poll_map {β : Type} (f : Timer → β) (hf : ∀ t, f (t.reschedule now) = f t) (h : Traced.DueFirst w now) :
    (w.poll now).2.map f = (w.timers.filter (·.isReady now)).map f := by
  simp only [poll, timers, pollWheel_eq, List.filter_flatMap, List.map_flatMap, List.map_map]
  refine List.flatMap_congr fun k _ => ?_
  rw [h k]
  refine List.map_congr_left fun t _ => ?_
  simp only [Function.comp_apply]
  split
  · exact hf t
  · rfl

/-- Where no interval is due, just that. -/
theorem poll_eq (h : Traced.DueFirst w now) (hplain : ∀ t ∈ w.timers, t.isReady now = true → t.repeating = false) :
    (w.poll now).2 = w.timers.filter (·.isReady now) := by
  simp only [poll, timers, pollWheel_eq, List.filter_flatMap]
  refine List.flatMap_congr fun k hk => ?_
  rw [h k]
  refine List.map_congr_left (g := fun t => t) (fun t ht => ?_) |>.trans (List.map_id _)
  have hmem : t ∈ w.timers := List.mem_flatMap.mpr ⟨k, hk, (List.takeWhile_prefix _).subset ht⟩
  rw [hplain t hmem (List.mem_takeWhile_imp (p := fun x : Timer => x.isReady now) ht)]
  simp

theorem cancelIn_wheels {k : Wheel} {ks : List Wheel} (hk : k ∉ ks) : (w.cancelIn id ks).1.wheels k = w.wheels k := by
  induction ks with
  | nil => rfl
  | cons j ks ih =>
      simp only [List.mem_cons, not_or] at hk
      rw [cancelIn]
      split
      · exact Function.update_of_ne hk.1 _ _
      · exact ih hk.2

theorem cancelIn_timers {ks : List Wheel} (hks : ks.Nodup) (hids : ((ks.flatMap w.wheels).map Timer.id).Nodup) :
    ks.flatMap (w.cancelIn id ks).1.wheels = (ks.flatMap w.wheels).filter (·.id ≠ id) := by
  induction ks with
  | nil => rfl
  | cons k ks ih =>
      obtain ⟨hk, hks⟩ := List.nodup_cons.mp hks
      rw [List.flatMap_cons, List.map_append] at hids
      obtain ⟨hhead, htail, hdisjoint⟩ := List.nodup_append.mp hids
      rw [List.flatMap_cons, List.flatMap_cons, List.filter_append]
      by_cases hfound : (w.wheels k).any (·.id = id) = true
      · have hrest : ks.flatMap (w.cancelIn id (k :: ks)).1.wheels = ks.flatMap w.wheels := by
          rw [cancelIn, if_pos hfound]
          exact List.flatMap_congr fun j hj => Function.update_of_ne (ne_of_mem_of_not_mem hj hk) _ _
        have hnone : (ks.flatMap w.wheels).filter (·.id ≠ id) = ks.flatMap w.wheels := by
          rw [List.filter_eq_self]
          intro u hu
          obtain ⟨t, ht, hid⟩ := List.any_eq_true.mp hfound
          simp only [ne_eq, decide_not, Bool.not_eq_true', decide_eq_false_iff_not]
          intro huid
          have hne := hdisjoint t.id (List.mem_map_of_mem ht) u.id (List.mem_map_of_mem hu)
          exact hne ((of_decide_eq_true hid).trans huid.symm)
        rw [hrest, hnone, cancelIn, if_pos hfound]
        simp only [Function.update_self]
        rw [eraseP_eq_filter hhead]
      · have hnone : (w.wheels k).filter (·.id ≠ id) = w.wheels k := by
          rw [List.filter_eq_self]
          intro u hu
          have hno := List.any_eq_false.mp (Bool.not_eq_true _ ▸ hfound) u hu
          simpa using hno
        rw [cancelIn, if_neg hfound, cancelIn_wheels hk, hnone, ih hks htail]

theorem timers_cancel (hids : (w.timers.map Timer.id).Nodup) :
    (w.cancel id).1.timers = w.timers.filter (·.id ≠ id) :=
  cancelIn_timers Wheel.all_nodup hids

theorem cancelIn_nextTimerId (ks : List Wheel) : (w.cancelIn id ks).1.nextTimerId = w.nextTimerId := by
  induction ks with
  | nil => rfl
  | cons k ks ih =>
      rw [cancelIn]
      split
      · rfl
      · exact ih

theorem nextDuration_le {t : Timer} (ht : t ∈ w.timers) (now : Instant) :
    ∃ wait ∈ w.nextDuration now, wait ≤ t.scheduledAt - now := by
  have hmem : t.scheduledAt - now ∈ w.timers.map fun t => t.scheduledAt - now := List.mem_map_of_mem ht
  cases hmin : w.nextDuration now with
  | none =>
      rw [List.min?_eq_none_iff.mp hmin] at hmem
      cases hmem
  | some wait => exact ⟨wait, rfl, (List.min?_eq_some_iff.mp hmin).2 _ hmem⟩

end TimerWheel

/-! ## A run -/

/-- The timer as its owner sees it. -/
def Timer.armed (t : Timer) : Armed := ⟨t.id, t.callback, t.scheduledAt, t.interval⟩

namespace Traced

variable {t t' : Traced}

/-- The wheels hold what is armed, under ids that are distinct and were given out, and no task was scheduled. -/
structure Inv (t : Traced) : Prop where
  armed : (t.runtime.timerWheel.timers.map Timer.armed).Perm t.armed
  distinct : (t.armed.map Armed.id).Nodup
  fresh : ∀ a ∈ t.armed, a.id < t.runtime.timerWheel.nextTimerId
  repeating : ∀ x ∈ t.runtime.timerWheel.timers, x.repeating = x.interval.isSome
  tasks : t.runtime.taskQueue.pendingCount = 0
  rounds : ∀ r ∈ t.rounds, r.Exact

theorem inv_new : new.Inv where
  armed := .refl _
  distinct := List.nodup_nil
  fresh := fun _ h => nomatch h
  repeating := fun _ h => nomatch h
  tasks := rfl
  rounds := fun _ h => nomatch h

theorem Inv.lawful (h : t.Inv) : t.Lawful where
  rounds := h.rounds
  nextDuration := by
    intro a ha
    obtain ⟨x, hx, rfl⟩ := List.mem_map.mp (h.armed.mem_iff.mpr ha)
    exact TimerWheel.nextDuration_le hx t.now
  pending := by
    intro _ hnone
    have hlength := h.armed.length_eq
    rw [hnone, List.length_map, List.length_nil] at hlength
    rw [Runtime.pendingTaskCount, h.tasks, TimerWheel.pendingCount, hlength]

theorem Inv.timers_distinct (h : t.Inv) : (t.runtime.timerWheel.timers.map Timer.id).Nodup := by
  have hids : (t.runtime.timerWheel.timers.map Timer.armed).map Armed.id = t.runtime.timerWheel.timers.map Timer.id := by
    rw [List.map_map]
    rfl
  rw [← hids]
  exact ((h.armed.map Armed.id).nodup_iff).mpr h.distinct

/-- One more timer, under the next id. -/
theorem Inv.arm (h : t.Inv) (x : Timer) (hid : x.id = t.runtime.timerWheel.nextTimerId)
    (hrepeating : x.repeating = x.interval.isSome) :
    Inv { t with
      runtime := { t.runtime with
        timerWheel := ({ t.runtime.timerWheel with nextTimerId := x.id + 1 } : TimerWheel).addTimer x t.now }
      armed := x.armed :: t.armed } where
  armed := ((TimerWheel.timers_addTimer _ x t.now).map Timer.armed).trans (h.armed.cons _)
  distinct := by
    refine List.nodup_cons.mpr ⟨fun hmem => ?_, h.distinct⟩
    obtain ⟨a, ha, heq⟩ := List.mem_map.mp hmem
    exact (h.fresh a ha).ne (heq.trans hid)
  fresh := by
    intro a ha
    show a.id < x.id + 1
    rcases List.mem_cons.mp ha with rfl | ha
    · exact Nat.lt_succ_self _
    · exact Nat.lt_succ_of_lt (hid.symm ▸ h.fresh a ha)
  repeating := by
    intro y hy
    rcases List.mem_cons.mp ((TimerWheel.timers_addTimer _ x t.now).mem_iff.mp hy) with rfl | hy
    · exact hrepeating
    · exact h.repeating y hy
  tasks := h.tasks
  rounds := h.rounds

theorem Inv.clear (h : t.Inv) (id : TimerId) :
    Inv { t with runtime := (t.runtime.clearTimeout id).1, armed := t.armed.filter (·.id ≠ id) } where
  armed := by
    show ((t.runtime.timerWheel.cancel id).1.timers.map Timer.armed).Perm _
    rw [TimerWheel.timers_cancel h.timers_distinct]
    have hfilter := h.armed.filter (·.id ≠ id)
    rwa [List.filter_map] at hfilter
  distinct := h.distinct.sublist (List.filter_sublist.map _)
  fresh := by
    intro a ha
    show a.id < (t.runtime.timerWheel.cancelIn id Wheel.all).1.nextTimerId
    rw [TimerWheel.cancelIn_nextTimerId]
    exact h.fresh a (List.mem_filter.mp ha).1
  repeating := by
    intro x hx
    have hx' : x ∈ (t.runtime.timerWheel.cancel id).1.timers := hx
    rw [TimerWheel.timers_cancel h.timers_distinct] at hx'
    exact h.repeating x (List.mem_filter.mp hx').1
  tasks := h.tasks
  rounds := h.rounds

/-- What is due, in the wheels and as promised. -/
theorem Inv.due (h : t.Inv) : ((t.runtime.timerWheel.timers.filter (·.isReady t.now)).map Timer.armed).Perm
    (t.armed.filter (·.isDue t.now)) := by
  have hfilter := h.armed.filter (·.isDue t.now)
  rwa [List.filter_map] at hfilter

/-- A poll takes out what is due. -/
theorem Inv.poll (h : t.Inv) (hdue : DueFirst t.runtime.timerWheel t.now) {round : Round} (hround : round.Exact) :
    Inv { t with
      runtime := { t.runtime with timerWheel := (t.runtime.timerWheel.poll t.now).1 }
      armed := t.armed.filter (!·.isDue t.now)
      rounds := round :: t.rounds } where
  armed := by
    show ((t.runtime.timerWheel.poll t.now).1.timers.map Timer.armed).Perm _
    rw [TimerWheel.timers_poll hdue]
    have hfilter := h.armed.filter (!·.isDue t.now)
    rwa [List.filter_map] at hfilter
  distinct := h.distinct.sublist (List.filter_sublist.map _)
  fresh := fun a ha => h.fresh a (List.mem_filter.mp ha).1
  repeating := by
    intro x hx
    have hx' : x ∈ (t.runtime.timerWheel.poll t.now).1.timers := hx
    rw [TimerWheel.timers_poll hdue] at hx'
    exact h.repeating x (List.mem_filter.mp hx').1
  tasks := h.tasks
  rounds := by
    intro r hr
    rcases List.mem_cons.mp hr with rfl | hr
    · exact hround
    · exact h.rounds r hr

theorem readd_of_plain {now : Instant} {w : TimerWheel} {expired : List Timer}
    (h : ∀ x ∈ expired, x.repeating = false) : expired.foldl (Runtime.readd now) w = w := by
  induction expired generalizing w with
  | nil => rfl
  | cons x expired ih =>
      have hx : Runtime.readd now w x = w := by simp [Runtime.readd, h x List.mem_cons_self]
      rw [List.foldl_cons, hx]
      exact ih fun y hy => h y (List.mem_cons_of_mem _ hy)

theorem Inv.step (h : t.Inv) {op : Op} (hgood : t.Good op) (hstep : t.step op = some t') : t'.Inv := by
  cases op with
  | tick elapsed =>
      cases hstep
      exact ⟨h.armed, h.distinct, h.fresh, h.repeating, h.tasks, h.rounds⟩
  | setTimeout delay callback =>
      cases hstep
      exact h.arm (.after t.runtime.timerWheel.nextTimerId callback delay t.now) rfl rfl
  | setInterval interval callback =>
      cases hstep
      exact h.arm (.every t.runtime.timerWheel.nextTimerId callback interval t.now) rfl rfl
  | clear id =>
      cases hstep
      exact h.clear id
  | scheduleTask taskType => exact hgood.elim
  | complete task =>
      cases hstep
      exact ⟨h.armed, h.distinct, h.fresh, h.repeating, h.tasks, h.rounds⟩
  | poll =>
      obtain rfl := Option.some.inj hstep
      have hdue := h.due.map fun a => (a.id, a.callback)
      rw [List.map_map] at hdue
      have hround : Round.Exact (.polled ((t.runtime.timerWheel.poll t.now).2.map fun r => (r.id, r.callback))
          ((t.armed.filter (·.isDue t.now)).map fun a => (a.id, a.callback))) := by
        show List.Perm _ _
        rw [TimerWheel.poll_map _ (fun x => by rw [Timer.reschedule_id, Timer.reschedule_callback]) hgood]
        exact hdue
      exact h.poll hgood hround
  | iterate =>
      rw [Traced.step] at hstep
      split at hstep
      · obtain ⟨hfirst, hplain⟩ := hgood
        have hnone : (t.armed.filter (·.isDue t.now)).filterMap (·.next t.now) = [] := by
          rw [List.filterMap_eq_nil_iff]
          intro a ha
          obtain ⟨ha, hdue⟩ := List.mem_filter.mp ha
          simp [Armed.next, hplain a ha hdue]
        have hready : ∀ x ∈ t.runtime.timerWheel.timers, x.isReady t.now = true → x.repeating = false := by
          intro x hx hx'
          have hmem := h.armed.mem_iff.mp (List.mem_map_of_mem (f := Timer.armed) hx)
          have hinterval : x.interval = none := hplain _ hmem hx'
          rw [h.repeating x hx, hinterval, Option.isSome_none]
        have hexpired := TimerWheel.poll_eq hfirst hready
        have hround : Round.Exact (.called ((t.runtime.timerWheel.poll t.now).2.map Timer.callback)
            ((t.armed.filter (·.isDue t.now)).map Armed.callback)) := by
          show List.Perm _ _
          rw [hexpired]
          have hdue := h.due.map Armed.callback
          rwa [List.map_map] at hdue
        have hwheel : (t.runtime.timerWheel.poll t.now).2.foldl (Runtime.readd t.now)
            (t.runtime.timerWheel.poll t.now).1 = (t.runtime.timerWheel.poll t.now).1 := by
          refine readd_of_plain fun x hx => ?_
          rw [hexpired] at hx
          obtain ⟨hx, hx'⟩ := List.mem_filter.mp hx
          exact hready x hx hx'
        have hpoll := h.poll hfirst hround
        rw [Option.some.injEq] at hstep
        simp only [Runtime.iterate, hwheel, hnone, List.nil_append] at hstep
        exact hstep ▸ hpoll
      · cases hstep

end Traced

end ThreeVa.Core

/-!
What holds of the event loop of the runtime core.
-/

namespace ThreeVa.Core

instance (w : TimerWheel) (now : Instant) : Decidable (Traced.DueFirst w now) :=
  decidable_of_iff (∀ k ∈ Wheel.all, (w.wheels k).filter (·.isReady now) = (w.wheels k).takeWhile (·.isReady now))
    ⟨fun h k => h k (Wheel.mem_all k), fun h k _ => h k⟩

instance (t : Traced) : (op : Traced.Op) → Decidable (t.Good op)
  | .poll => inferInstanceAs (Decidable (Traced.DueFirst _ _))
  | .iterate => inferInstanceAs (Decidable (_ ∧ ∀ a ∈ t.armed, _))
  | .scheduleTask _ => .isFalse id
  | .tick _ | .setTimeout _ _ | .setInterval _ _ | .clear _ | .complete _ => .isTrue trivial

/-- The state after a run. -/
def ran (ops : List Traced.Op) : Traced := (Runs.exec Traced.step .new ops).getD .new

theorem exec_ran {ops : List Traced.Op} (h : (Runs.exec Traced.step .new ops).isSome = true) :
    Runs.exec Traced.step .new ops = some (ran ops) := by
  obtain ⟨t, ht⟩ := Option.isSome_iff_exists.mp h
  rw [ran, ht, Option.getD_some]

def ms (n : Nat) : Duration := n * 1000000

/-- Timers in two wheels, of which one is cleared, and an interval that is polled. -/
def twoWheels : List Traced.Op :=
  [.setTimeout (ms 5) 1, .setTimeout (ms 100) 2, .setTimeout (ms 7) 3, .clear 2, .tick (ms 6), .iterate,
    .setInterval (ms 200) 4, .tick (ms 200), .poll]

/-- A timer behind a later one of its wheel. -/
def hidden : List Traced.Op := [.setTimeout (ms 50) 1, .setTimeout (ms 10) 2, .tick (ms 20), .poll]

/-- An interval of ten milliseconds in the loop. -/
def threeRounds : List Traced.Op :=
  [.setInterval (ms 10) 1, .tick (ms 10), .iterate, .tick (ms 10), .iterate, .setTimeout (ms 10) 2, .tick (ms 10), .iterate]

/-- It is cleared under the id that was returned. -/
def clearedInterval : List Traced.Op :=
  [.setInterval (ms 10) 1, .tick (ms 10), .iterate, .clear 0, .tick (ms 10), .iterate]

def completedTask : List Traced.Op := [.scheduleTask .userTask, .complete 0]

def Round.length : Round → Nat × Nat
  | polled got expected => (got.length, expected.length)
  | called got expected => (got.length, expected.length)

theorem Round.Exact.length {r : Round} (h : r.Exact) : r.length.1 = r.length.2 := by
  cases r <;> exact List.Perm.length_eq h

theorem not_lawful_of_round {t : Traced} (h : t.rounds.any (fun r => r.length.1 ≠ r.length.2) = true) : ¬ t.Lawful := by
  intro hlawful
  obtain ⟨r, hr, hne⟩ := List.any_eq_true.mp h
  exact of_decide_eq_true hne (hlawful.rounds r hr).length

end ThreeVa.Core
