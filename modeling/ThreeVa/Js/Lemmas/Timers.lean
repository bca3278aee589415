import ThreeVa.Js.Timers
import ThreeVa.Lib.Runs

/-!
# Runs of timers

Where each arming of a timer stands in the two tables, and that no step of a good run moves it elsewhere.
-/

namespace ThreeVa.Js
open List Text

/-! ## One arming -/

/-- Where an arming stands: in the table of callbacks, in that of the manager, and in the current batch. -/
inductive Phase (now : Instant) (a : Arming) (cb : Option Callback) (entry : Option TimerEntry) (queued : Prop) : Prop
  /-- The manager holds it. An interval may be in the batch as well. -/
  | armed (e : TimerEntry) (live : a.dead = false) (cb_eq : cb = some ⟨a.fn, a.repeats⟩) (entry_eq : entry = some e)
      (cancelled : e.cancelled = false) (repeating : e.repeating = a.repeats) (due : a.due = some e.firesAt)
      (delay : a.repeats = true → a.delay = some e.intervalMs) (in_batch : queued ↔ a.collected.isSome = true)
      (reached : ∀ d ∈ a.collected, d ≤ now)
      (once : a.repeats = false → a.polled = false ∧ a.starts = [] ∧ a.collected = none)
  /-- A timeout that a poll has taken. -/
  | collected (d : Instant) (live : a.dead = false) (once : a.repeats = false) (cb_eq : cb = some ⟨a.fn, a.repeats⟩)
      (entry_eq : entry = none) (in_batch : queued) (collected_eq : a.collected = some d) (reached : d ≤ now)
      (unstarted : a.starts = []) (polled : a.polled = true)
  /-- A timeout that has fired. -/
  | done (live : a.dead = false) (once : a.repeats = false) (cb_eq : cb = none) (entry_eq : entry = none)
      (in_batch : ¬ queued) (started : a.starts.length = 1) (polled : a.polled = true)
  /-- A timer that was cleared has no callback; one that was armed anew is not in the tables any more. -/
  | dead (dead : a.dead = true)
      (gone : cb = none ∨ a.replaced = true ∧ ¬ queued ∧ ∀ e ∈ entry, e.cancelled = true)

section Phase

variable {now : Instant} {a : Arming} {cb : Option Callback} {entry : Option TimerEntry} {queued queued' : Prop}

theorem Phase.congr (h : Phase now a cb entry queued) (hq : queued ↔ queued') : Phase now a cb entry queued' := by
  rwa [propext hq] at h

theorem Phase.tick (h : Phase now a cb entry queued) {ns : Nat} : Phase (now + ns) a cb entry queued := by
  cases h with
  | armed e live cb_eq entry_eq cancelled repeating due delay in_batch reached once =>
      exact .armed e live cb_eq entry_eq cancelled repeating due delay in_batch
        (fun d hd => (reached d hd).trans (Nat.le_add_right _ _)) once
  | collected d live once cb_eq entry_eq in_batch collected_eq reached unstarted polled =>
      exact .collected d live once cb_eq entry_eq in_batch collected_eq (reached.trans (Nat.le_add_right _ _))
        unstarted polled
  | done live once cb_eq entry_eq in_batch started polled => exact .done live once cb_eq entry_eq in_batch started polled
  | dead dead gone => exact .dead dead gone

theorem Phase.setRef (h : Phase now a cb entry queued) (refd : Bool) :
    Phase now a cb (entry.map fun e => { e with background := !refd }) queued := by
  cases h with
  | armed e live cb_eq entry_eq cancelled repeating due delay in_batch reached once =>
      exact .armed { e with background := !refd } live cb_eq (by rw [entry_eq]; rfl) cancelled repeating due delay
        in_batch reached once
  | collected d live once cb_eq entry_eq in_batch collected_eq reached unstarted polled =>
      exact .collected d live once cb_eq (by rw [entry_eq]; rfl) in_batch collected_eq reached unstarted polled
  | done live once cb_eq entry_eq in_batch started polled =>
      exact .done live once cb_eq (by rw [entry_eq]; rfl) in_batch started polled
  | dead dead gone =>
      refine .dead dead (gone.imp_right fun ⟨hreplaced, hq, hcancelled⟩ => ⟨hreplaced, hq, fun e he => ?_⟩)
      obtain ⟨e', he', rfl⟩ := Option.map_eq_some_iff.mp he
      exact hcancelled e' he'

/-- The callback of a timer that is cleared is removed. -/
theorem Phase.clear (_ : Phase now a cb entry queued) (entry' : Option TimerEntry) :
    Phase now { a with cleared := true } none entry' queued := .dead rfl (.inl rfl)

/-- To clear a timer that was armed anew by its old id changes nothing. -/
theorem Phase.clear_dead (h : Phase now a cb entry queued) (hdead : a.dead = true) :
    Phase now { a with cleared := true } cb entry queued := by
  cases h with
  | dead _ gone => exact .dead rfl gone
  | armed _ live => rw [hdead] at live; cases live
  | collected _ live => rw [hdead] at live; cases live
  | done live => rw [hdead] at live; cases live

theorem Phase.cancel_dead (h : Phase now a cb entry queued) (hdead : a.dead = true) :
    Phase now a cb (entry.map fun e => { e with cancelled := true }) queued := by
  cases h with
  | dead _ gone =>
      refine .dead hdead (gone.imp_right fun ⟨hreplaced, hq, hcancelled⟩ => ⟨hreplaced, hq, fun e he => ?_⟩)
      obtain ⟨e', he', rfl⟩ := Option.map_eq_some_iff.mp he
      rfl
  | armed _ live => rw [hdead] at live; cases live
  | collected _ live => rw [hdead] at live; cases live
  | done live => rw [hdead] at live; cases live

theorem dead_replaced (a : Arming) : ({ a with replaced := true } : Arming).dead = true := by simp [Arming.dead]

/-- The old arming of a timer that is armed anew. -/
theorem Phase.replace (h : Phase now a cb entry queued) (hcurrent : a.replaced = false)
    (hgood : a.cleared = true ∨ a.collected = none ∧ (a.repeats = true ∨ a.starts = [])) :
    Phase now { a with replaced := true } cb (entry.map fun e => { e with cancelled := true }) queued ∧
      cb = if a.cleared then none else some ⟨a.fn, a.repeats⟩ := by
  have hcancelled : ∀ e ∈ entry.map fun e => { e with cancelled := true }, e.cancelled = true := by
    intro e he
    obtain ⟨e', -, rfl⟩ := Option.map_eq_some_iff.mp he
    rfl
  cases h with
  | dead dead gone =>
      have hnone : cb = none := gone.resolve_right fun h => by simp [hcurrent] at h
      have hcleared : a.cleared = true := by simpa [Arming.dead, hcurrent] using dead
      exact ⟨.dead (dead_replaced a) (.inl hnone), by simp [hnone, hcleared]⟩
  | armed e live cb_eq entry_eq cancelled repeating due delay in_batch reached once =>
      have hcleared : a.cleared = false := by simpa [Arming.dead, hcurrent] using live
      have hcol := (hgood.resolve_left (by simp [hcleared])).1
      exact ⟨.dead (dead_replaced a) (.inr ⟨rfl, by simp [in_batch, hcol], hcancelled⟩), by simp [cb_eq, hcleared]⟩
  | collected d live once cb_eq entry_eq in_batch collected_eq reached unstarted polled =>
      have hcleared : a.cleared = false := by simpa [Arming.dead, hcurrent] using live
      have hcol := (hgood.resolve_left (by simp [hcleared])).1
      rw [hcol] at collected_eq
      cases collected_eq
  | done live once cb_eq entry_eq in_batch started polled =>
      have hcleared : a.cleared = false := by simpa [Arming.dead, hcurrent] using live
      rcases (hgood.resolve_left (by simp [hcleared])).2 with hrep | hnone
      · simp [once] at hrep
      · simp [hnone] at started

theorem Phase.poll (h : Phase now a cb entry queued) (hq : ¬ queued) :
    Phase now (a.poll now) cb (entry.bind (TimerManager.afterPoll now))
      (∃ e ∈ entry, TimerManager.expired now e = true) := by
  cases h with
  | armed e live cb_eq entry_eq cancelled repeating due delay in_batch reached once =>
      have hcol : a.collected = none := by simpa [hq] using in_batch
      by_cases hdue : e.firesAt ≤ now
      · cases hrep : a.repeats with
        | true =>
            have hpoll : a.poll now =
                { a with
                  polled := true
                  collected := some e.firesAt
                  due := some (now + fromMillis e.intervalMs) } := by
              simp [Arming.poll, live, due, hdue, hrep, delay hrep]
            rw [hpoll]
            refine .armed { e with firesAt := now + fromMillis e.intervalMs } live cb_eq ?_ cancelled repeating rfl delay
              ?_ (by simpa using hdue) (by simp [hrep])
            · simp [entry_eq, TimerManager.afterPoll, cancelled, hdue, repeating, hrep]
            · simp [entry_eq, TimerManager.expired, cancelled, hdue]
        | false =>
            obtain ⟨hpolled, hstarts, -⟩ := once hrep
            have hpoll : a.poll now = { a with polled := true, collected := some e.firesAt } := by
              simp [Arming.poll, live, due, hdue, hrep, hpolled]
            rw [hpoll]
            refine .collected e.firesAt live hrep cb_eq ?_ ?_ rfl hdue hstarts rfl
            · simp [entry_eq, TimerManager.afterPoll, cancelled, hdue, repeating, hrep]
            · simp [entry_eq, TimerManager.expired, cancelled, hdue]
      · have hpoll : a.poll now = a := by simp [Arming.poll, due, hdue]
        rw [hpoll]
        refine .armed e live cb_eq ?_ cancelled repeating due delay ?_ reached once
        · simp [entry_eq, TimerManager.afterPoll, cancelled, hdue]
        · simp [entry_eq, TimerManager.expired, cancelled, hdue, hcol]
  | collected d live once cb_eq entry_eq in_batch collected_eq reached unstarted polled => exact absurd in_batch hq
  | done live once cb_eq entry_eq in_batch started polled =>
      have hpoll : a.poll now = a := by simp [Arming.poll, once, polled]
      rw [hpoll]
      exact .done live once cb_eq (by simp [entry_eq]) (by simp [entry_eq]) started polled
  | dead dead gone =>
      have hpoll : a.poll now = a := by simp [Arming.poll, dead]
      rw [hpoll]
      refine .dead dead (gone.imp_right fun ⟨hreplaced, _, hcancelled⟩ => ⟨hreplaced, ?_, ?_⟩)
      · rintro ⟨e, he, hexpired⟩
        simp [TimerManager.expired, hcancelled e he] at hexpired
      · intro e he
        obtain ⟨e', he', hafter⟩ := Option.bind_eq_some_iff.mp he
        simp [TimerManager.afterPoll, hcancelled e' he'] at hafter

theorem poll_same (a : Arming) (now : Instant) :
    (a.poll now).fn = a.fn ∧ (a.poll now).repeats = a.repeats ∧ (a.poll now).starts = a.starts ∧
      (a.poll now).handle = a.handle ∧ (a.poll now).replaced = a.replaced ∧ (a.poll now).delay = a.delay := by
  unfold Arming.poll
  split <;> simp

/-- Only a timer that is neither cleared nor armed anew is started, and it was collected. -/
theorem Phase.start (h : Phase now a cb entry queued) (hq : queued) {c : Callback} (hcb : cb = some c) :
    Phase now (a.start now c.fn) (if c.repeats then cb else none) entry False ∧ c = ⟨a.fn, a.repeats⟩ ∧ a.dead = false ∧
      (∃ d, a.collected = some d ∧ d ≤ now) ∧ (a.repeats = false → a.starts = []) := by
  cases h with
  | armed e live cb_eq entry_eq cancelled repeating due delay in_batch reached once =>
      obtain rfl : c = ⟨a.fn, a.repeats⟩ := by simpa [cb_eq] using hcb.symm
      obtain ⟨d, hd⟩ := Option.isSome_iff_exists.mp (in_batch.mp hq)
      have hrep : a.repeats = true := by
        cases hrep : a.repeats with
        | true => rfl
        | false => simp [(once hrep).2.2] at hd
      refine ⟨?_, rfl, live, ⟨d, hd, reached d hd⟩, by simp [hrep]⟩
      simp only [hrep, ↓reduceIte]
      exact .armed e live cb_eq entry_eq cancelled repeating due delay (by simp [Arming.start]) (by simp [Arming.start])
        (by simp [Arming.start, hrep])
  | collected d live once cb_eq entry_eq in_batch collected_eq reached unstarted polled =>
      obtain rfl : c = ⟨a.fn, a.repeats⟩ := by simpa [cb_eq] using hcb.symm
      refine ⟨?_, rfl, live, ⟨d, collected_eq, reached⟩, fun _ => unstarted⟩
      simp only [once, Bool.false_eq_true, ↓reduceIte]
      exact .done live once rfl entry_eq not_false (by simp [Arming.start, unstarted]) polled
  | done live once cb_eq entry_eq in_batch started polled => exact absurd hq in_batch
  | dead dead gone =>
      rcases gone with gone | ⟨-, hnot, -⟩
      · rw [hcb] at gone; cases gone
      · exact absurd hq hnot

/-- What stands in the batch without a callback has been cleared. -/
theorem Phase.skip (h : Phase now a cb entry queued) (hq : queued) (hcb : cb = none) :
    Phase now a cb entry False := by
  cases h with
  | armed e live cb_eq => rw [hcb] at cb_eq; cases cb_eq
  | collected d live once cb_eq => rw [hcb] at cb_eq; cases cb_eq
  | done live once cb_eq entry_eq in_batch => exact absurd hq in_batch
  | dead dead gone => exact .dead dead (.inl hcb)

end Phase

/-! ## Starts -/

theorem Arming.Lawful.of_same {a b : Arming} (h : a.Lawful false) (hfn : b.fn = a.fn) (hrepeats : b.repeats = a.repeats)
    (hstarts : b.starts = a.starts) : b.Lawful false :=
  ⟨by rw [hstarts, hfn]; exact h.same, by rw [hstarts]; exact h.notEarly, by rw [hstarts]; exact h.notDead,
    by rw [hrepeats, hstarts]; exact h.once, by simp⟩

theorem Arming.lawful_new (handle : Nat) (fn : Fn) (repeats : Bool) (delay : Option Nat) (now : Instant) (cleared : Bool) :
    (Arming.new handle fn repeats delay now cleared).Lawful false :=
  ⟨by simp [Arming.new], by simp [Arming.new], by simp [Arming.new], by simp [Arming.new], by simp⟩

theorem Arming.Lawful.start {a : Arming} {now : Instant} (h : a.Lawful false) (hlive : a.dead = false)
    (hcollected : ∃ d, a.collected = some d ∧ d ≤ now) (honce : a.repeats = false → a.starts = []) :
    (a.start now a.fn).Lawful false := by
  obtain ⟨d, hd, hle⟩ := hcollected
  have hmem : ∀ st ∈ (a.start now a.fn).starts, st ∈ a.starts ∨ st = ⟨a.fn, now, some d, false⟩ := by
    intro st hst
    simpa [Arming.start, hd, hlive] using hst
  refine ⟨fun st hst => ?_, fun st hst => ?_, fun st hst => ?_, fun hrep => ?_, by simp⟩
  · rcases hmem st hst with hst | rfl
    · exact h.same st hst
    · rfl
  · rcases hmem st hst with hst | rfl
    · exact h.notEarly st hst
    · exact ⟨d, rfl, hle⟩
  · rcases hmem st hst with hst | rfl
    · exact h.notDead st hst
    · rfl
  · simp [Arming.start, honce hrep]

/-- Once the batch is empty, a timeout that was due has run. -/
theorem Phase.lawful {now : Instant} {a : Arming} {cb : Option Callback} {entry : Option TimerEntry} {queued : Prop}
    (h : Phase now a cb entry queued) (hlawful : a.Lawful false) {settled : Bool} (hq : settled = true → ¬ queued) :
    a.Lawful settled := by
  refine ⟨hlawful.same, hlawful.notEarly, hlawful.notDead, hlawful.once, fun hsettled hrep hpolled hlive => ?_⟩
  cases h with
  | armed e live cb_eq entry_eq cancelled repeating due delay in_batch reached once => simp [(once hrep).1] at hpolled
  | collected d live once cb_eq entry_eq in_batch => exact absurd in_batch (hq hsettled)
  | done live once cb_eq entry_eq in_batch started => exact started
  | dead dead => simp [hlive] at dead

/-! ## The invariant -/

namespace History

variable {h : History} {id id' : TimerId} {a : Arming}

@[simp] theorem arm_self : (h.arm id a).armings id = some a := Function.update_self ..

theorem arm_of_ne (hne : id ≠ id') : (h.arm id' a).armings id = h.armings id := Function.update_of_ne hne ..

end History

namespace Traced

def queued (t : Traced) (id : TimerId) : Prop := id ∈ t.runtime.batch.map Prod.fst

def dueOf (h : History) (id : TimerId) : Instant := ((h.armings id).bind Arming.collected).getD 0

/-- What the batch is still to start. -/
def waiting (t : Traced) : List (Instant × TimerId) :=
  (t.runtime.batch.filter fun x => (t.runtime.callbacks x.1).isSome).map fun x => (dueOf t.history x.1, x.1)

def Ordered (t : Traced) : Prop := (t.history.order ++ t.waiting).Pairwise Earlier

/-- An arming stands where it should. -/
structure ArmingOk (t : Traced) (id : TimerId) (a : Arming) : Prop where
  pos : 0 < id
  le : id ≤ t.runtime.nextId
  handle : a.handle < t.runtime.handles.length
  lawful : a.Lawful false
  phase : Phase t.runtime.clock a (t.runtime.callbacks id) (t.runtime.timers.get? id) (t.queued id)

/-- The arming of a handle is the only one of its timer that was not armed anew. -/
structure Current (h : History) (n : Nat) (handle : Handle) (a : Arming) : Prop where
  arming : h.armings handle.id = some a
  owner : a.handle = n
  current : a.replaced = false
  repeats : a.repeats = handle.repeats
  delay : a.delay = some handle.ms.toUint32

structure Inv (t : Traced) : Prop where
  small : t.runtime.nextId < 2 ^ 32
  armings : ∀ id a, t.history.armings id = some a → t.ArmingOk id a
  outside : ∀ id, t.history.armings id = none →
    t.runtime.callbacks id = none ∧ t.runtime.timers.get? id = none ∧ ¬ t.queued id
  handles : ∀ n handle, t.runtime.handles[n]? = some handle → ∃ a, Current t.history n handle a
  current : ∀ id a, t.history.armings id = some a → a.replaced = false →
    ∃ handle, t.runtime.handles[a.handle]? = some handle ∧ handle.id = id
  nodup : (t.runtime.batch.map Prod.fst).Nodup
  ordered : t.Ordered

theorem inv_new : Inv new :=
  { small := by simp [new, Runtime.new]
    armings := fun id a h => by cases h
    outside := fun id _ => ⟨rfl, rfl, by simp [queued, new, Runtime.new]⟩
    handles := fun n handle h => by simp [new, Runtime.new] at h
    current := fun id a h => by cases h
    nodup := List.nodup_nil
    ordered := List.Pairwise.nil }

theorem Inv.lawful {t : Traced} (h : Inv t) : t.Lawful := by
  refine ⟨fun id a ha => ?_, (List.pairwise_append.mp h.ordered).1⟩
  have hok := h.armings id a ha
  refine hok.phase.lawful hok.lawful fun hsettled => ?_
  simp [queued, List.isEmpty_iff.mp hsettled]

theorem Inv.fresh {t : Traced} (h : Inv t) : t.history.armings (t.runtime.nextId + 1) = none := by
  cases hnew : t.history.armings (t.runtime.nextId + 1) with
  | none => rfl
  | some a => exact absurd (h.armings _ a hnew).le (Nat.not_succ_le_self _)

/-- What is in the batch has been armed. -/
theorem Inv.le_of_queued {t : Traced} (h : Inv t) {id : TimerId} (hq : t.queued id) : id ≤ t.runtime.nextId := by
  cases ha : t.history.armings id with
  | none => exact absurd hq (h.outside id ha).2.2
  | some a => exact (h.armings id a ha).le

theorem Inv.mod_of_handle {t : Traced} (h : Inv t) {n : Nat} {handle : Handle} (hn : t.runtime.handles[n]? = some handle) :
    handle.id % 2 ^ 32 = handle.id := by
  obtain ⟨a, ha⟩ := h.handles n handle hn
  have hle := (h.armings _ a ha.arming).le
  exact Nat.mod_eq_of_lt (hle.trans_lt h.small)

/-! ## Each step -/

section Steps

variable {t : Traced}

theorem Inv.tick (h : Inv t) (ns : Nat) : Inv ⟨{ t.runtime with clock := t.runtime.clock + ns }, t.history⟩ :=
  { h with
    armings := fun id a ha =>
      have hok := h.armings id a ha
      ⟨hok.pos, hok.le, hok.handle, hok.lawful, hok.phase.tick⟩ }

theorem get?_nativeSet (s : Runtime) (scopes : List Str) (id : TimerId) (ms : Number) (repeats : Bool) (k : TimerId) :
    (s.nativeSet scopes id ms repeats).get? k = if k = id % 2 ^ 32 then
      some ⟨s.clock + fromMillis ms.toUint32, repeats, if repeats then ms.toUint32 else 0, false, false, scopes⟩
    else s.timers.get? k := by
  unfold Runtime.nativeSet
  cases repeats <;> simp [TimerManager.setTimeout, TimerManager.setInterval, TimerManager.setIntervalInner,
    Entries.get?_insert]

/-- A timer that was just armed. -/
theorem phase_new (handle : Nat) (fn : Fn) (repeats : Bool) (ms : Nat) (now : Instant) (e : TimerEntry)
    (hfires : e.firesAt = now + fromMillis ms) (hrepeating : e.repeating = repeats)
    (hinterval : repeats = true → e.intervalMs = ms) (hcancelled : e.cancelled = false) {q : Prop} (hq : ¬ q) :
    Phase now (.new handle fn repeats (some ms) now false) (some ⟨fn, repeats⟩) (some e) q :=
  .armed e rfl rfl rfl hcancelled hrepeating (by simp [Arming.new, hfires]) (fun hrep => by simp [Arming.new, hinterval hrep])
    (by simp [hq, Arming.new]) (by simp [Arming.new]) (by simp [Arming.new])

theorem filter_sublist_of_imp {α : Type} {p q : α → Bool} {l : List α} (h : ∀ x ∈ l, p x = true → q x = true) :
    l.filter p <+ l.filter q := by
  have hboth : l.filter p = (l.filter q).filter p := by
    rw [List.filter_filter]
    refine List.filter_congr fun x hx => ?_
    cases hp : p x with
    | false => rfl
    | true => simp [h x hx hp]
  rw [hboth]
  exact List.filter_sublist

/-- The order is kept where the batch loses callbacks only. -/
theorem Inv.ordered_of (h : Inv t) {t' : Traced} (horder : t'.history.order = t.history.order)
    (hbatch : t'.runtime.batch = t.runtime.batch)
    (hcallbacks : ∀ id, t.queued id → (t'.runtime.callbacks id).isSome = true → (t.runtime.callbacks id).isSome = true)
    (hdue : ∀ id, t.queued id → dueOf t'.history id = dueOf t.history id) : t'.Ordered := by
  have hsub : t'.waiting <+ t.waiting := by
    unfold waiting
    rw [hbatch]
    have hmap : ∀ x ∈ t.runtime.batch.filter fun x => (t'.runtime.callbacks x.1).isSome,
        (dueOf t'.history x.1, x.1) = (dueOf t.history x.1, x.1) := by
      intro x hx
      rw [hdue x.1 (List.mem_map_of_mem (List.mem_filter.mp hx).1)]
    rw [List.map_congr_left hmap]
    exact (filter_sublist_of_imp fun x hx => hcallbacks x.1 (List.mem_map_of_mem hx)).map _
  unfold Ordered
  rw [horder]
  exact h.ordered.sublist ((List.Sublist.refl _).append hsub)

theorem dueOf_arm_of_ne {hist : History} {id id' : TimerId} {a : Arming} (h : id ≠ id') :
    dueOf (hist.arm id' a) id = dueOf hist id := by
  rw [dueOf, History.arm_of_ne h, dueOf]

theorem dueOf_map {hist : History} {f : TimerId → Arming → Arming} {id : TimerId}
    (h : ∀ a, (f id a).collected = a.collected) : dueOf (hist.map f) id = dueOf hist id := by
  simp only [dueOf, History.map]
  cases hist.armings id with
  | none => rfl
  | some a => simp [h]

theorem Inv.set (h : Inv t) (scopes : List Str) (fn : Fn) (ms : Number) (repeats : Bool) (hgood : t.goodSet ms) :
    Inv ⟨t.runtime.set scopes fn ms repeats, t.history.arm (t.runtime.nextId + 1)
      (.new t.runtime.handles.length fn repeats ms.delay t.runtime.clock false)⟩ := by
  obtain ⟨hdelay, hsmall⟩ := hgood
  have hid : (t.runtime.nextId + 1) % 2 ^ 32 = t.runtime.nextId + 1 := Nat.mod_eq_of_lt hsmall
  have hne : ∀ {id : TimerId}, id ≤ t.runtime.nextId → id ≠ t.runtime.nextId + 1 :=
    fun hle heq => Nat.not_succ_le_self _ (heq ▸ hle)
  have hcallbacks : ∀ id, id ≠ t.runtime.nextId + 1 →
      (t.runtime.set scopes fn ms repeats).callbacks id = t.runtime.callbacks id :=
    fun id hne => Function.update_of_ne hne _ _
  have htimers : ∀ id, id ≠ t.runtime.nextId + 1 →
      (t.runtime.set scopes fn ms repeats).timers.get? id = t.runtime.timers.get? id := by
    intro id hne
    simp only [Runtime.set, get?_nativeSet, hid, if_neg hne]
  have hnot : ¬ t.queued (t.runtime.nextId + 1) := fun hq => Nat.not_succ_le_self _ (h.le_of_queued hq)
  have holds : ∀ id, id ≠ t.runtime.nextId + 1 → ∀ b, t.history.armings id = some b →
      ArmingOk ⟨t.runtime.set scopes fn ms repeats, t.history.arm (t.runtime.nextId + 1)
        (.new t.runtime.handles.length fn repeats ms.delay t.runtime.clock false)⟩ id b := by
    intro id hne b hb
    have hok := h.armings id b hb
    refine ⟨hok.pos, Nat.le_succ_of_le hok.le, ?_, hok.lawful, ?_⟩
    · simpa [Runtime.set] using Nat.lt_succ_of_lt hok.handle
    · have hphase := hok.phase
      rw [← hcallbacks id hne, ← htimers id hne] at hphase
      exact hphase
  refine ⟨hsmall, fun id b hb => ?_, fun id hb => ?_, fun n handle hn => ?_, fun id b hb hcurrent => ?_, h.nodup,
    h.ordered_of rfl rfl (fun id hq => ?_) fun id hq => dueOf_arm_of_ne (hne (h.le_of_queued hq))⟩
  · by_cases heq : id = t.runtime.nextId + 1
    · subst heq
      obtain rfl := Option.some.inj (History.arm_self.symm.trans hb)
      refine ⟨Nat.succ_pos _, le_refl _, by simp [Runtime.set, Arming.new], Arming.lawful_new .., ?_⟩
      rw [hdelay]
      simp only [Runtime.set, Function.update_self, get?_nativeSet, hid, ↓reduceIte]
      exact phase_new _ _ _ _ _ ⟨_, _, _, _, _, _⟩ rfl rfl (fun hrep => if_pos hrep) rfl hnot
    · simp only [History.arm_of_ne heq] at hb
      exact holds id heq b hb
  · have heq : id ≠ t.runtime.nextId + 1 := by
      rintro rfl
      simp at hb
    simp only [History.arm_of_ne heq] at hb
    rw [hcallbacks id heq, htimers id heq]
    exact h.outside id hb
  · simp only [Runtime.set] at hn
    rcases lt_or_ge n t.runtime.handles.length with hlt | hge
    · rw [List.getElem?_append_left hlt] at hn
      obtain ⟨b, hb⟩ := h.handles n handle hn
      refine ⟨b, ?_, hb.owner, hb.current, hb.repeats, hb.delay⟩
      exact (History.arm_of_ne (hne (h.armings _ b hb.arming).le)).trans hb.arming
    · obtain rfl : n = t.runtime.handles.length := by
        have := (List.getElem?_eq_some_iff.mp hn).1
        simp only [List.length_append, List.length_singleton] at this
        omega
      obtain rfl : _ = handle := by simpa using hn
      exact ⟨_, History.arm_self, rfl, rfl, rfl, hdelay⟩
  · by_cases heq : id = t.runtime.nextId + 1
    · subst heq
      obtain rfl := Option.some.inj (History.arm_self.symm.trans hb)
      simp [Runtime.set, Arming.new]
    · simp only [History.arm_of_ne heq] at hb
      obtain ⟨handle, hn, hhandle⟩ := h.current id b hb hcurrent
      refine ⟨handle, ?_, hhandle⟩
      simp only [Runtime.set]
      rw [List.getElem?_append_left (h.armings id b hb).handle]
      exact hn
  · rw [hcallbacks id (hne (h.le_of_queued hq))]
    exact fun hsome => hsome

/-- Armings that keep their ids and handles. -/
theorem Inv.map (h : Inv t) {s : Runtime} {hist : History} (f : TimerId → Arming → Arming)
    (hmap : ∀ id, hist.armings id = (t.history.armings id).map (f id)) (hnext : s.nextId = t.runtime.nextId)
    (hlength : s.handles.length = t.runtime.handles.length)
    (hsame : ∀ id a, t.history.armings id = some a → (f id a).handle = a.handle ∧ (f id a).repeats = a.repeats ∧
      (f id a).replaced = a.replaced ∧ (f id a).delay = a.delay)
    (hlawful : ∀ id a, t.history.armings id = some a → t.ArmingOk id a → (f id a).Lawful false)
    (hphase : ∀ id a, t.history.armings id = some a → t.ArmingOk id a →
      Phase s.clock (f id a) (s.callbacks id) (s.timers.get? id) (id ∈ s.batch.map Prod.fst))
    (houtside : ∀ id, t.history.armings id = none → s.callbacks id = none ∧ s.timers.get? id = none ∧
      id ∉ s.batch.map Prod.fst)
    (hhandles : ∀ (n : Nat) (handle : Handle), s.handles[n]? = some handle →
      ∃ handle' : Handle, t.runtime.handles[n]? = some handle' ∧ handle'.id = handle.id ∧ handle'.repeats = handle.repeats ∧ handle'.ms = handle.ms)
    (hhandles' : ∀ (n : Nat) (handle : Handle), t.runtime.handles[n]? = some handle →
      ∃ handle' : Handle, s.handles[n]? = some handle' ∧ handle'.id = handle.id)
    (hnodup : (s.batch.map Prod.fst).Nodup)
    (hordered : Ordered ⟨s, hist⟩) : Inv ⟨s, hist⟩ := by
  have hget : ∀ id b, hist.armings id = some b → ∃ a, t.history.armings id = some a ∧ f id a = b :=
    fun id b hb => Option.map_eq_some_iff.mp ((hmap id).symm.trans hb)
  refine ⟨hnext ▸ h.small, fun id b hb => ?_, fun id hb => ?_, fun n handle hn => ?_, fun id b hb hcurrent => ?_, hnodup,
    hordered⟩
  · obtain ⟨a, ha, rfl⟩ := hget id b hb
    have hok := h.armings id a ha
    exact ⟨hok.pos, hnext ▸ hok.le, by rw [(hsame id a ha).1, hlength]; exact hok.handle, hlawful id a ha hok,
      hphase id a ha hok⟩
  · exact houtside id (Option.map_eq_none_iff.mp ((hmap id).symm.trans hb))
  · obtain ⟨handle', hn', hid, hrepeats', hms⟩ := hhandles n handle hn
    obtain ⟨a, ha⟩ := h.handles n handle' hn'
    obtain ⟨hhandle, hrepeats, hreplaced, hdelay⟩ := hsame _ a ha.arming
    refine ⟨f handle'.id a, ?_, hhandle.trans ha.owner, hreplaced.trans ha.current, ?_, ?_⟩
    · rw [← hid, hmap, ha.arming, Option.map_some]
    · rw [hrepeats, ha.repeats, hrepeats']
    · rw [hdelay, ha.delay, hms]
  · obtain ⟨a, ha, rfl⟩ := hget id b hb
    obtain ⟨hhandle, -, hreplaced, -⟩ := hsame id a ha
    obtain ⟨handle, hn, hid⟩ := h.current id a ha (hreplaced.symm.trans hcurrent)
    obtain ⟨handle', hn', hid'⟩ := hhandles' _ handle hn
    exact ⟨handle', hhandle ▸ hn', hid'.trans hid⟩

/-- A handle with its timer cleared, whose armings are all dead then. -/
theorem Inv.clearHandle (h : Inv t) (n : Nat) :
    Inv ⟨t.runtime.clear (.handle n), t.history.map fun _ a => if a.handle = n then { a with cleared := true } else a⟩ := by
  cases hn : t.runtime.handles[n]? with
  | none =>
      have hother : ∀ id a, t.history.armings id = some a → a.handle ≠ n := by
        rintro id a ha rfl
        have hlt := (h.armings id a ha).handle
        rw [List.getElem?_eq_getElem hlt] at hn
        cases hn
      have hsame : (t.history.map fun _ a => if a.handle = n then { a with cleared := true } else a) = t.history := by
        unfold History.map
        congr 1
        funext id
        cases ha : t.history.armings id with
        | none => rfl
        | some a => simp [hother id a ha]
      have hclear : t.runtime.clear (.handle n) = t.runtime := by simp [Runtime.clear, hn]
      rw [hsame, hclear]
      exact h
  | some handle =>
      have hclear : t.runtime.clear (.handle n) = t.runtime.clearId (some handle.id) handle.id := by
        simp only [Runtime.clear, hn]
        rw [h.mod_of_handle hn]
      rw [hclear]
      obtain ⟨b, hb⟩ := h.handles n handle hn
      refine h.map _ (fun _ => rfl) rfl rfl (fun id a ha => by split <;> simp)
        (fun id a ha hok => hok.lawful.of_same (by split <;> rfl) (by split <;> rfl) (by split <;> rfl))
        (fun id a ha hok => ?_) (fun id hnone => ?_) (fun m handle' hm => ⟨handle', hm, rfl, rfl, rfl⟩)
        (fun m handle' hm => ⟨handle', hm, rfl⟩) h.nodup ?_
      · have hphase := hok.phase
        by_cases heq : id = handle.id
        · subst heq
          obtain rfl : b = a := Option.some.inj (hb.arming.symm.trans ha)
          rw [if_pos hb.owner]
          simp only [Runtime.clearId, Function.update_self]
          exact hphase.clear _
        · have hcb : (t.runtime.clearId (some handle.id) handle.id).callbacks id = t.runtime.callbacks id :=
            Function.update_of_ne heq ..
          have hentry : (t.runtime.clearId (some handle.id) handle.id).timers.get? id = t.runtime.timers.get? id := by
            simp [Runtime.clearId, TimerManager.cancel, Entries.get?_modify, heq]
          rw [hcb, hentry]
          split
          · rename_i howner
            refine hphase.clear_dead ?_
            -- only the arming of the handle itself has not been replaced
            by_contra hlive
            have hcurrent : a.replaced = false := by
              simp only [Arming.dead, Bool.or_eq_true, not_or, Bool.not_eq_true] at hlive
              exact hlive.2
            obtain ⟨handle', hn', hid⟩ := h.current id a ha hcurrent
            rw [howner, hn, Option.some.injEq] at hn'
            exact heq (hid ▸ hn' ▸ rfl)
          · exact hphase
      · obtain ⟨hcb, hentry, hq⟩ := h.outside id hnone
        have hne : id ≠ handle.id := by
          rintro rfl
          rw [hb.arming] at hnone
          cases hnone
        refine ⟨(Function.update_of_ne hne ..).trans hcb, ?_, hq⟩
        simp [Runtime.clearId, TimerManager.cancel, Entries.get?_modify, hne, hentry]
      · refine h.ordered_of rfl rfl (fun id hq => ?_) fun id _ => dueOf_map fun a => by split <;> rfl
        simp only [Runtime.clearId]
        by_cases heq : id = handle.id
        · simp [heq]
        · rw [Function.update_of_ne heq]
          exact fun hsome => hsome

theorem Inv.clearNumber (h : Inv t) (n : Number)
    (hgood : n.key = some n.toUint32 ∨ t.runtime.timers.get? n.toUint32 = none) :
    Inv ⟨t.runtime.clear (.number n),
      t.history.map fun id a => if n.key = some id then { a with cleared := true } else a⟩ := by
  have hcb : ∀ id, (t.runtime.clear (.number n)).callbacks id =
      if n.key = some id then none else t.runtime.callbacks id := by
    intro id
    simp only [Runtime.clear, Runtime.clearId]
    cases hkey : n.key with
    | none => simp
    | some k =>
        by_cases hk : k = id
        · simp [hk]
        · simp [hk, Function.update_of_ne (Ne.symm hk)]
  have hentry : ∀ id, n.key ≠ some id →
      (t.runtime.clear (.number n)).timers.get? id = t.runtime.timers.get? id := by
    intro id hne
    simp only [Runtime.clear, Runtime.clearId, TimerManager.cancel, Entries.get?_modify]
    split
    · rename_i hid
      rcases hgood with hkey | hnone
      · exact absurd (hid ▸ hkey) hne
      · simp [hid, hnone]
    · rfl
  refine h.map _ (fun _ => rfl) rfl rfl (fun id a ha => by split <;> simp)
    (fun id a ha hok => hok.lawful.of_same (by split <;> rfl) (by split <;> rfl) (by split <;> rfl))
    (fun id a ha hok => ?_) (fun id hnone => ?_) (fun m handle' hm => ⟨handle', hm, rfl, rfl, rfl⟩)
    (fun m handle' hm => ⟨handle', hm, rfl⟩) h.nodup ?_
  · rw [hcb]
    by_cases hkey : n.key = some id
    · rw [if_pos hkey, if_pos hkey]
      exact hok.phase.clear _
    · rw [if_neg hkey, if_neg hkey, hentry id hkey]
      exact hok.phase
  · obtain ⟨hnone', hget, hq⟩ := h.outside id hnone
    refine ⟨?_, ?_, hq⟩
    · rw [hcb, hnone', ite_self]
    · simp [Runtime.clear, Runtime.clearId, TimerManager.cancel, Entries.get?_modify, hget]
  · refine h.ordered_of rfl rfl (fun id hq => ?_) fun id _ => dueOf_map fun a => by split <;> rfl
    rw [hcb]
    split
    · simp
    · exact fun hsome => hsome

theorem Inv.setRef (h : Inv t) {n : Nat} {handle : Handle} (hn : t.runtime.handles[n]? = some handle) (refd : Bool) :
    Inv ⟨t.runtime.setRef n handle refd, t.history⟩ := by
  have hid := h.mod_of_handle hn
  have hlt := (List.getElem?_eq_some_iff.mp hn).1
  have hget : ∀ m, (t.runtime.setRef n handle refd).handles[m]? =
      if m = n then some { handle with unref := !refd } else t.runtime.handles[m]? := by
    intro m
    simp only [Runtime.setRef, List.getElem?_set]
    by_cases hm : n = m
    · simp [hm, hm ▸ hlt]
    · simp [hm, Ne.symm hm]
  have hentry : ∀ id, (t.runtime.setRef n handle refd).timers.get? id =
      if id = handle.id then (t.runtime.timers.get? id).map fun e => { e with background := !refd }
      else t.runtime.timers.get? id := by
    intro id
    simp only [Runtime.setRef, TimerManager.setRef, hid, Entries.get?_modify]
  refine h.map (fun _ a => a) (fun id => by simp) rfl (by simp [Runtime.setRef]) (fun _ _ _ => ⟨rfl, rfl, rfl, rfl⟩)
    (fun _ _ _ hok => hok.lawful) (fun id a ha hok => ?_) (fun id hnone => ?_) (fun m handle' hm => ?_)
    (fun m handle' hm => ?_) h.nodup (h.ordered_of rfl rfl (fun id _ hsome => hsome) fun id _ => rfl)
  · rw [hentry]
    split
    · exact hok.phase.setRef refd
    · exact hok.phase
  · obtain ⟨hcb, hget, hq⟩ := h.outside id hnone
    exact ⟨hcb, by simp [hentry, hget], hq⟩
  · rw [hget] at hm
    split at hm
    · rename_i heq
      obtain rfl := Option.some.inj hm
      exact ⟨handle, heq ▸ hn, rfl, rfl, rfl⟩
    · exact ⟨handle', hm, rfl, rfl, rfl⟩
  · rw [hget]
    by_cases heq : m = n
    · rw [if_pos heq]
      rw [heq, hn, Option.some.injEq] at hm
      exact ⟨_, rfl, hm ▸ rfl⟩
    · exact ⟨handle', by rw [if_neg heq, hm], rfl⟩

theorem mem_pollExpiredIds {timers : TimerManager} {now : Instant} {id : TimerId} :
    id ∈ (TimerManager.pollExpiredIds timers now).1.map Prod.fst ↔
      ∃ e ∈ timers.get? id, TimerManager.expired now e = true := by
  simp only [TimerManager.pollExpiredIds, List.mem_map, Entries.mem_sortBy, List.mem_filter]
  constructor
  · rintro ⟨_, ⟨⟨k, e⟩, ⟨hmem, hexpired⟩, rfl⟩, rfl⟩
    exact ⟨e, Entries.get?_eq_some.mpr hmem, hexpired⟩
  · rintro ⟨e, he, hexpired⟩
    exact ⟨_, ⟨(id, e), ⟨Entries.get?_eq_some.mp he, hexpired⟩, rfl⟩, rfl⟩

/-- The ids of a batch ascend. -/
theorem pollExpiredIds_sorted (timers : TimerManager) (now : Instant) :
    ((TimerManager.pollExpiredIds timers now).1.map Prod.fst).Pairwise (· < ·) := by
  have htrans : Std.TransCmp fun a b : TimerId × List Str => compare a.1 b.1 :=
    Entries.transCmp_on Prod.fst (inferInstanceAs (Std.TransCmp (compare : Nat → Nat → Ordering)))
  have hle := @Entries.pairwise_sortBy _ (fun a b : TimerId × List Str => compare a.1 b.1) _
    ((timers.list.filter fun x => TimerManager.expired now x.2).map fun x => (x.1, x.2.denyScopes))
  have hnodup : ((TimerManager.pollExpiredIds timers now).1.map Prod.fst).Nodup := by
    refine ((List.perm_insertionSort _ _).map Prod.fst).nodup_iff.mpr ?_
    rw [List.map_map]
    exact timers.distinct.sublist (List.filter_sublist.map _)
  rw [List.pairwise_map]
  refine (hle.and (List.pairwise_map.mp hnodup)).imp fun ⟨hle, hne⟩ => ?_
  exact lt_of_le_of_ne (by simpa [Nat.isLE_compare] using hle) hne

/-- A callback that is collected is due when its entry fires. -/
theorem collected_poll {now : Instant} {a : Arming} {cb : Option Callback} {entry : Option TimerEntry} {queued : Prop}
    (h : Phase now a cb entry queued) (hcb : cb.isSome = true) {e : TimerEntry} (he : entry = some e)
    (hexpired : TimerManager.expired now e = true) : (a.poll now).collected = some e.firesAt := by
  simp only [TimerManager.expired, Bool.and_eq_true, Bool.not_eq_true', decide_eq_true_eq] at hexpired
  cases h with
  | armed e' live cb_eq entry_eq cancelled repeating due delay in_batch reached once =>
      obtain rfl : e' = e := Option.some.inj (entry_eq.symm.trans he)
      have hpolled : (a.repeats || !a.polled) = true := by
        cases hrep : a.repeats with
        | true => rfl
        | false => simp [(once hrep).1]
      simp [Arming.poll, live, due, hexpired.2, hpolled]
  | collected d live once cb_eq entry_eq => rw [he] at entry_eq; cases entry_eq
  | done live once cb_eq entry_eq => rw [he] at entry_eq; cases entry_eq
  | dead dead gone =>
      rcases gone with hnone | ⟨-, -, hcancelled⟩
      · simp [hnone] at hcb
      · simp [hcancelled e he] at hexpired

theorem Inv.poll (h : Inv t) (hbatch : t.runtime.batch = []) (hgood : t.goodPoll) :
    Inv ⟨{ t.runtime with
        batch := (TimerManager.pollExpiredIds t.runtime.timers t.runtime.clock).1
        timers := (TimerManager.pollExpiredIds t.runtime.timers t.runtime.clock).2 },
      { t.history.map fun _ a => a.poll t.runtime.clock with order := [] }⟩ := by
  have hnot : ∀ id, ¬ t.queued id := fun id => by simp [queued, hbatch]
  have hsorted := pollExpiredIds_sorted t.runtime.timers t.runtime.clock
  refine h.map (fun _ a => a.poll t.runtime.clock) (fun _ => rfl) rfl rfl (fun id a ha => ?_) (fun id a ha hok => ?_)
    (fun id a ha hok => ?_) (fun id hnone => ?_) (fun m handle' hm => ⟨handle', hm, rfl, rfl, rfl⟩)
    (fun m handle' hm => ⟨handle', hm, rfl⟩) (hsorted.imp fun hlt => ne_of_lt hlt) ?_
  · obtain ⟨-, hrepeats, -, hhandle, hreplaced, hdelay⟩ := poll_same a t.runtime.clock
    exact ⟨hhandle, hrepeats, hreplaced, hdelay⟩
  · obtain ⟨hfn, hrepeats, hstarts, -⟩ := poll_same a t.runtime.clock
    exact hok.lawful.of_same hfn hrepeats hstarts
  · have hphase := (hok.phase.poll (hnot id)).congr mem_pollExpiredIds.symm
    simpa only [TimerManager.pollExpiredIds, Entries.get?_filterMapValues] using hphase
  · obtain ⟨hcb, hget, -⟩ := h.outside id hnone
    refine ⟨hcb, ?_, ?_⟩
    · simp [TimerManager.pollExpiredIds, Entries.get?_filterMapValues, hget]
    · rw [mem_pollExpiredIds, hget]
      simp
  · have hdue : ∀ x ∈ (TimerManager.pollExpiredIds t.runtime.timers t.runtime.clock).1,
        (t.runtime.callbacks x.1).isSome = true → ∃ e, (x.1, e) ∈ t.runtime.timers.list ∧
          TimerManager.expired t.runtime.clock e = true ∧
          dueOf { t.history.map fun _ a => a.poll t.runtime.clock with order := [] } x.1 = e.firesAt := by
      intro x hx hcb
      obtain ⟨e, he, hexpired⟩ := mem_pollExpiredIds.mp (List.mem_map_of_mem hx)
      refine ⟨e, Entries.get?_eq_some.mp he, hexpired, ?_⟩
      cases ha : t.history.armings x.1 with
      | none => simp [(h.outside _ ha).1] at hcb
      | some a =>
          have hcollected := collected_poll (h.armings _ a ha).phase hcb he hexpired
          simp [dueOf, History.map, ha, hcollected]
    unfold Ordered waiting
    rw [List.nil_append, List.pairwise_map]
    refine ((List.pairwise_map.mp hsorted).filter _).imp_of_mem fun {x y} hx hy hlt => ?_
    obtain ⟨hx, hcbx⟩ := List.mem_filter.mp hx
    obtain ⟨hy, hcby⟩ := List.mem_filter.mp hy
    obtain ⟨e, he, hexpired, hduex⟩ := hdue x hx hcbx
    obtain ⟨e', he', hexpired', hduey⟩ := hdue y hy hcby
    have hle := hgood _ he _ he' hexpired hexpired' hlt
    unfold Earlier
    simp only [hduex, hduey]
    rcases Nat.lt_or_eq_of_le hle with hlt' | heq
    · exact .inl hlt'
    · exact .inr ⟨heq, hlt⟩

/-- What is left of the batch after its first timer. -/
theorem queued_tail {id : TimerId} {scopes : List Str} {rest : List (TimerId × List Str)}
    (hbatch : t.runtime.batch = (id, scopes) :: rest) (hnodup : (t.runtime.batch.map Prod.fst).Nodup) (k : TimerId) :
    k ∈ rest.map Prod.fst ↔ t.queued k ∧ k ≠ id := by
  rw [hbatch, List.map_cons, List.nodup_cons] at hnodup
  simp only [queued, hbatch, List.map_cons, List.mem_cons]
  constructor
  · exact fun hk => ⟨.inr hk, fun heq => hnodup.1 (heq ▸ hk)⟩
  · exact fun ⟨hk, hne⟩ => hk.resolve_left hne

/-- A timer of the batch that has lost its callback is passed over. -/
theorem Inv.skip (h : Inv t) {id : TimerId} {scopes : List Str} {rest : List (TimerId × List Str)}
    (hbatch : t.runtime.batch = (id, scopes) :: rest) (hcb : t.runtime.callbacks id = none) :
    Inv ⟨{ t.runtime with batch := rest }, t.history⟩ := by
  have htail := queued_tail hbatch h.nodup
  refine h.map (fun _ a => a) (fun id => by simp) rfl rfl (fun _ _ _ => ⟨rfl, rfl, rfl, rfl⟩) (fun _ _ _ hok => hok.lawful)
    (fun k a ha hok => ?_) (fun k hnone => ?_) (fun m handle' hm => ⟨handle', hm, rfl, rfl, rfl⟩)
    (fun m handle' hm => ⟨handle', hm, rfl⟩) ?_ ?_
  · by_cases hk : k = id
    · subst hk
      have hq : t.queued k := by simp [queued, hbatch]
      exact (hok.phase.skip hq hcb).congr (by simp [htail])
    · exact hok.phase.congr (by simp [htail, hk])
  · obtain ⟨hcb', hget, hq⟩ := h.outside k hnone
    exact ⟨hcb', hget, fun hk => hq ((htail k).mp hk).1⟩
  · have hnodup := h.nodup
    rw [hbatch, List.map_cons, List.nodup_cons] at hnodup
    exact hnodup.2
  · have hordered := h.ordered
    unfold Ordered waiting at hordered ⊢
    rw [hbatch, List.filter_cons_of_neg (by simp [hcb])] at hordered
    exact hordered

theorem Inv.fire (h : Inv t) {id : TimerId} {scopes : List Str} {rest : List (TimerId × List Str)} {c : Callback}
    (hbatch : t.runtime.batch = (id, scopes) :: rest) (hcb : t.runtime.callbacks id = some c) :
    Inv ⟨{ t.runtime with
        batch := rest
        callbacks := if c.repeats then t.runtime.callbacks else Function.update t.runtime.callbacks id none },
      t.history.start id c.fn t.runtime.clock⟩ := by
  have htail := queued_tail hbatch h.nodup
  have hq : t.queued id := by simp [queued, hbatch]
  obtain ⟨a, ha⟩ : ∃ a, t.history.armings id = some a := by
    cases ha : t.history.armings id with
    | none => rw [(h.outside id ha).1] at hcb; cases hcb
    | some a => exact ⟨a, rfl⟩
  have hok := h.armings id a ha
  obtain ⟨hphase, hc, hlive, hcollected, honce⟩ := hok.phase.start hq hcb
  have hstart : t.history.start id c.fn t.runtime.clock =
      { armings := Function.update t.history.armings id (some (a.start t.runtime.clock c.fn))
        order := t.history.order ++ [(dueOf t.history id, id)] } := by
    simp [History.start, ha, dueOf]
  have hcallbacks : ∀ k ≠ id, (if c.repeats then t.runtime.callbacks else Function.update t.runtime.callbacks id none) k =
      t.runtime.callbacks k := by
    intro k hk
    split
    · rfl
    · exact Function.update_of_ne hk ..
  rw [hstart]
  refine h.map (fun k b => if k = id then b.start t.runtime.clock c.fn else b) (fun k => ?_) rfl rfl
    (fun k b hb => by split <;> exact ⟨rfl, rfl, rfl, rfl⟩) (fun k b hb hokb => ?_) (fun k b hb hokb => ?_)
    (fun k hnone => ?_) (fun m handle' hm => ⟨handle', hm, rfl, rfl, rfl⟩) (fun m handle' hm => ⟨handle', hm, rfl⟩) ?_ ?_
  · by_cases hk : k = id
    · simp [hk, ha]
    · simp [hk]
  · split
    · rename_i hk
      subst hk
      obtain rfl : a = b := Option.some.inj (ha.symm.trans hb)
      rw [hc]
      exact hokb.lawful.start hlive hcollected honce
    · exact hokb.lawful
  · by_cases hk : k = id
    · subst hk
      obtain rfl : a = b := Option.some.inj (ha.symm.trans hb)
      rw [if_pos rfl]
      have hcb' : (if c.repeats then t.runtime.callbacks else Function.update t.runtime.callbacks k none) k =
          if c.repeats then t.runtime.callbacks k else none := by
        split
        · rfl
        · simp
      simp only [hcb']
      exact hphase.congr (by simp [htail])
    · simp only [if_neg hk, hcallbacks k hk]
      exact hokb.phase.congr (by simp [htail, hk])
  · obtain ⟨hcb', hget, hq'⟩ := h.outside k hnone
    have hk : k ≠ id := fun heq => by rw [heq, ha] at hnone; cases hnone
    exact ⟨(hcallbacks k hk).trans hcb', hget, fun hk' => hq' ((htail k).mp hk').1⟩
  · have hnodup := h.nodup
    rw [hbatch, List.map_cons, List.nodup_cons] at hnodup
    exact hnodup.2
  · have hordered := h.ordered
    unfold Ordered waiting at hordered ⊢
    rw [hbatch, List.filter_cons_of_pos (by simp [hcb]), List.map_cons, List.append_cons] at hordered
    have hrest : ∀ x ∈ rest, x.1 ≠ id := fun x hx => ((htail x.1).mp (List.mem_map_of_mem hx)).2
    have hfilter : (rest.filter fun x => ((if c.repeats then t.runtime.callbacks
        else Function.update t.runtime.callbacks id none) x.1).isSome) =
        rest.filter fun x => (t.runtime.callbacks x.1).isSome :=
      List.filter_congr fun x hx => by rw [hcallbacks x.1 (hrest x hx)]
    simp only [hfilter]
    rw [List.map_congr_left (g := fun x => (dueOf t.history x.1, x.1))]
    · exact hordered
    · intro x hx
      have hne := hrest x (List.mem_filter.mp hx).1
      simp [dueOf, Function.update_of_ne hne]

theorem get?_refresh {n : Nat} {handle : Handle} (scopes : List Str) (hid : handle.id % 2 ^ 32 = handle.id)
    (hsmall : t.runtime.nextId + 1 < 2 ^ 32) : ∃ e : TimerEntry,
      e.firesAt = t.runtime.clock + fromMillis handle.ms.toUint32 ∧ e.repeating = handle.repeats ∧
      (handle.repeats = true → e.intervalMs = handle.ms.toUint32) ∧ e.cancelled = false ∧
      ∀ k, (t.runtime.refresh scopes n handle).timers.get? k =
        if k = t.runtime.nextId + 1 then some e
        else if k = handle.id then (t.runtime.timers.get? k).map fun e => { e with cancelled := true }
        else t.runtime.timers.get? k := by
  have hnew : (t.runtime.nextId + 1) % 2 ^ 32 = t.runtime.nextId + 1 := Nat.mod_eq_of_lt hsmall
  refine ⟨⟨t.runtime.clock + fromMillis handle.ms.toUint32, handle.repeats,
    if handle.repeats then handle.ms.toUint32 else 0, false, handle.unref, scopes⟩, rfl, rfl, fun hrep => if_pos hrep, rfl,
    fun k => ?_⟩
  simp only [Runtime.refresh, hid, hnew]
  split
  · rename_i hunref
    simp only [TimerManager.setRef, Entries.get?_modify, get?_nativeSet, hnew, TimerManager.cancel, hunref]
    by_cases hk : k = t.runtime.nextId + 1
    · simp [hk]
    · simp [hk]
  · rename_i hunref
    simp only [get?_nativeSet, hnew, TimerManager.cancel, Entries.get?_modify, Bool.not_eq_true] at hunref ⊢
    simp [hunref]

theorem Inv.refresh (h : Inv t) (scopes : List Str) {n : Nat} {handle : Handle}
    (hn : t.runtime.handles[n]? = some handle) (hgood : t.goodRefresh n) :
    Inv ⟨t.runtime.refresh scopes n handle, t.history.refresh (t.runtime.nextId + 1) handle t.runtime.clock⟩ := by
  obtain ⟨hsmall, hgood⟩ := hgood
  obtain ⟨a, ha⟩ := h.handles n handle hn
  have hok := h.armings _ a ha.arming
  have hgood := hgood handle hn a ha.arming
  obtain ⟨hreplaced, hcb⟩ := hok.phase.replace ha.current hgood
  obtain ⟨e, hfires, hrepeating, hinterval, hcancelled, hget⟩ :=
    get?_refresh (t := t) (n := n) scopes (h.mod_of_handle hn) hsmall
  have hne : ∀ {id : TimerId}, id ≤ t.runtime.nextId → id ≠ t.runtime.nextId + 1 :=
    fun hle heq => Nat.not_succ_le_self _ (heq ▸ hle)
  have hnot : ¬ t.queued (t.runtime.nextId + 1) := fun hq => Nat.not_succ_le_self _ (h.le_of_queued hq)
  have hcallbacks : ∀ k ≠ t.runtime.nextId + 1,
      (t.runtime.refresh scopes n handle).callbacks k = t.runtime.callbacks k := fun k hk => Function.update_of_ne hk ..
  have hlt := (List.getElem?_eq_some_iff.mp hn).1
  have hhandles : ∀ m, (t.runtime.refresh scopes n handle).handles[m]? =
      if m = n then some { handle with id := t.runtime.nextId + 1 } else t.runtime.handles[m]? := by
    intro m
    simp only [Runtime.refresh, List.getElem?_set]
    by_cases hm : n = m
    · simp [hm, hm ▸ hlt]
    · simp [hm, Ne.symm hm]
  have hhist : t.history.refresh (t.runtime.nextId + 1) handle t.runtime.clock =
      (t.history.map fun _ b => if b.handle = n then { b with replaced := true } else b).arm (t.runtime.nextId + 1)
        (.new n a.fn a.repeats a.delay t.runtime.clock a.cleared) := by
    simp only [History.refresh, ha.arming, ha.owner]
  rw [hhist]
  -- an arming of the same timer that is not the current one was replaced before
  have hother : ∀ id b, t.history.armings id = some b → b.handle = n → id ≠ handle.id → b.replaced = true := by
    intro id b hb howner hid
    by_contra hcurrent
    obtain ⟨handle', hn', hid'⟩ := h.current id b hb (by simpa using hcurrent)
    rw [howner, hn, Option.some.injEq] at hn'
    exact hid (hid' ▸ hn' ▸ rfl)
  have hmap : ∀ id b, id ≠ t.runtime.nextId + 1 →
      ((t.history.map fun _ b => if b.handle = n then { b with replaced := true } else b).arm (t.runtime.nextId + 1)
        (.new n a.fn a.repeats a.delay t.runtime.clock a.cleared)).armings id = some b →
      ∃ b', t.history.armings id = some b' ∧ (if b'.handle = n then { b' with replaced := true } else b') = b := by
    intro id b hid hb
    rw [History.arm_of_ne hid] at hb
    exact Option.map_eq_some_iff.mp hb
  refine ⟨hsmall, fun id b hb => ?_, fun id hb => ?_, fun m handle' hm => ?_, fun id b hb hcurrent => ?_, h.nodup, ?_⟩
  · by_cases heq : id = t.runtime.nextId + 1
    · subst heq
      obtain rfl := Option.some.inj (History.arm_self.symm.trans hb)
      refine ⟨Nat.succ_pos _, le_refl _, by simpa [Runtime.refresh, Arming.new] using hlt, Arming.lawful_new .., ?_⟩
      have hcb' : (t.runtime.refresh scopes n handle).callbacks (t.runtime.nextId + 1) =
          if a.cleared then none else some ⟨a.fn, a.repeats⟩ := (Function.update_self ..).trans hcb
      simp only [hcb', hget, ↓reduceIte, ha.delay]
      cases hcleared : a.cleared with
      | true => exact .dead rfl (.inl rfl)
      | false =>
          exact phase_new n a.fn a.repeats _ _ e hfires (hrepeating.trans ha.repeats.symm)
            (fun hrep => hinterval (ha.repeats ▸ hrep)) hcancelled hnot
    · obtain ⟨b', hb', rfl⟩ := hmap id b heq hb
      have hok' := h.armings id b' hb'
      refine ⟨hok'.pos, Nat.le_succ_of_le hok'.le, ?_, hok'.lawful.of_same (by split <;> rfl) (by split <;> rfl)
        (by split <;> rfl), ?_⟩
      · simp only [Runtime.refresh, List.length_set]
        split <;> exact hok'.handle
      · simp only [hcallbacks id heq, hget, if_neg heq]
        by_cases hid : id = handle.id
        · subst hid
          obtain rfl : a = b' := Option.some.inj (ha.arming.symm.trans hb')
          rw [if_pos ha.owner, if_pos rfl]
          exact hreplaced
        · rw [if_neg hid]
          have hsame : (if b'.handle = n then { b' with replaced := true } else b') = b' := by
            split
            · rename_i howner
              rw [← hother id b' hb' howner hid]
            · rfl
          rw [hsame]
          exact hok'.phase
  · have heq : id ≠ t.runtime.nextId + 1 := by
      rintro rfl
      simp at hb
    simp only [History.arm_of_ne heq] at hb
    obtain ⟨hcb', hget', hq⟩ := h.outside id (Option.map_eq_none_iff.mp hb)
    exact ⟨(hcallbacks id heq).trans hcb', by simp [hget, heq, hget'], hq⟩
  · rw [hhandles] at hm
    split at hm
    · rename_i heq
      obtain rfl := Option.some.inj hm
      exact ⟨_, History.arm_self, heq.symm, rfl, ha.repeats, ha.delay⟩
    · rename_i heq
      obtain ⟨b, hb⟩ := h.handles m handle' hm
      have hidb := hne (h.armings _ b hb.arming).le
      refine ⟨b, ?_, hb.owner, hb.current, hb.repeats, hb.delay⟩
      rw [History.arm_of_ne hidb]
      simp [History.map, hb.arming, hb.owner, heq]
  · by_cases heq : id = t.runtime.nextId + 1
    · subst heq
      obtain rfl := Option.some.inj (History.arm_self.symm.trans hb)
      exact ⟨_, (hhandles n).trans (if_pos rfl), rfl⟩
    · obtain ⟨b', hb', rfl⟩ := hmap id b heq hb
      split at hcurrent
      · cases hcurrent
      · rename_i howner
        obtain ⟨handle', hn', hid'⟩ := h.current id b' hb' hcurrent
        exact ⟨handle', by rw [if_neg howner, hhandles, if_neg howner]; exact hn', hid'⟩
  · refine h.ordered_of rfl rfl (fun id hq => ?_) fun id hq => ?_
    · rw [hcallbacks id (hne (h.le_of_queued hq))]
      exact fun hsome => hsome
    · rw [dueOf_arm_of_ne (hne (h.le_of_queued hq))]
      exact dueOf_map fun b => by split <;> rfl

theorem Inv.step (h : Inv t) {op : Runtime.Op} (hgood : t.Good op) {t' : Traced} (hstep : t.step op = some t') :
    Inv t' := by
  obtain ⟨⟨s, called⟩, hnext, rfl⟩ := Option.map_eq_some_iff.mp hstep
  cases op with
  | tick ns =>
      cases hnext
      exact h.tick ns
  | set scopes fn ms repeats =>
      cases hnext
      exact h.set scopes fn ms repeats hgood
  | clear arg =>
      cases hnext
      cases arg with
      | null => exact h
      | handle n => exact h.clearHandle n
      | number n => exact h.clearNumber n hgood
  | refresh scopes n =>
      obtain ⟨handle, hn, heq⟩ := Option.map_eq_some_iff.mp hnext
      cases heq
      simp only [History.record, hn]
      exact h.refresh scopes hn hgood
  | setRef n refd =>
      obtain ⟨handle, hn, heq⟩ := Option.map_eq_some_iff.mp hnext
      cases heq
      exact h.setRef hn refd
  | poll =>
      simp only [Runtime.next] at hnext
      split at hnext
      · cases hnext
        exact h.poll ‹_› hgood
      · cases hnext
  | fire =>
      simp only [Runtime.next] at hnext
      split at hnext
      · cases hnext
      · rename_i id scopes rest hbatch
        simp only [Runtime.fireTimer] at hnext
        cases hcb : t.runtime.callbacks id with
        | none =>
            simp only [hcb, Option.some.injEq, Prod.mk.injEq] at hnext
            obtain ⟨rfl, rfl⟩ := hnext
            exact h.skip hbatch hcb
        | some c =>
            simp only [hcb, Option.some.injEq, Prod.mk.injEq] at hnext
            obtain ⟨rfl, rfl⟩ := hnext
            have hfire := h.fire hbatch hcb
            cases hrep : c.repeats with
            | true => simpa [hrep, History.record] using hfire
            | false => simpa [hrep, History.record] using hfire

end Steps

end Traced

end ThreeVa.Js
