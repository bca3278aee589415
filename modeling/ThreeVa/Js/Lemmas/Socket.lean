import ThreeVa.Js.Socket
import ThreeVa.Lib.Outbox
import ThreeVa.Lib.Runs

/-!
# A socket sends one chunk at a time

What a socket was given to write is an outbox: the chunk that `_write` was called with is being sent, and those of the queue, of
a loop of `uncork` and of the buffer wait. Every step of the code is a few steps of it.
-/

namespace ThreeVa.Js.Socket
open Text Relation

/-- The chunk that a call of `_write` is about to send. -/
def Op.sending : Op → Option Sending
  | .start item => some ⟨item, [], item.data⟩
  | .attempt x => some x
  | _ => none

/-- The chunk that is being sent: by the code at the top of the stack, or when the timer fires. -/
def active (s : Socket) : Option Sending :=
  match s.stack with
  | [] => s.retry
  | op :: _ => op.sending.or s.retry

def held (s : Socket) : List Item := s.stack.flatMap Op.held

def outbox (s : Socket) : Outbox Item UInt8 where
  accepted := s.accepted
  done := s.log.map fun f => ⟨f.item, f.taken, f.fate = .sent⟩
  active := s.active.map fun x => ⟨x.item, x.taken, x.left⟩
  waiting := s.queue ++ s.held ++ s.buffered
  lost := s.abandoned
  wire := s.wire

/-- No call of `_write` is at hand. -/
def Settled (s : Socket) : Prop := ∀ op ∈ s.stack, op.sending = none

structure Shaped (s : Socket) : Prop where
  below : ∀ op ∈ s.stack.tail, op.sending = none
  once : ∀ op ∈ s.stack.head?, op.sending ≠ none → s.retry = none
  writing : s.writing = s.active.isSome
  uncorked : s.corked = 0 → s.buffered = []

theorem active_of_settled {s : Socket} (h : s.Settled) : s.active = s.retry := by
  unfold active
  split
  · rfl
  · rename_i op ops hstack
    rw [h op (by simp [hstack]), Option.none_or]

theorem Shaped.settled {s : Socket} (h : s.Shaped) (hscript : s.atScript = true) : s.Settled := by
  intro op hop
  unfold atScript at hscript
  split at hscript
  · rename_i hstack
    simp [hstack] at hop
  · rename_i ops hstack
    rw [hstack] at hop
    rcases List.mem_cons.mp hop with rfl | hop
    · rfl
    · exact h.below op (by rw [hstack]; exact hop)
  · cases hscript

/-- A settled socket whose flag tells of the timer. -/
structure Quiet (s : Socket) : Prop where
  settled : s.Settled
  writing : s.writing = s.retry.isSome
  uncorked : s.corked = 0 → s.buffered = []

theorem Shaped.quiet {s : Socket} (h : s.Shaped) (hsettled : s.Settled) : s.Quiet :=
  ⟨hsettled, by rw [h.writing, active_of_settled hsettled], h.uncorked⟩

theorem Quiet.shaped {s : Socket} (h : s.Quiet) : s.Shaped where
  below op hop := h.settled op (List.mem_of_mem_tail hop)
  once op hop hsome := absurd (h.settled op (List.mem_of_mem_head? hop)) hsome
  writing := by rw [h.writing, active_of_settled h.settled]
  uncorked := h.uncorked

/-! ## Steps of the outbox -/

variable {strict : Prop}

/-- A few steps of the outbox. -/
abbrev Steps (strict : Prop) (s t : Socket) : Prop := ReflTransGen (Outbox.Step Item.data strict) s.outbox t.outbox

theorem steps_of_eq {s t : Socket} (h : t.outbox = s.outbox) : Steps strict s t := by
  rw [Steps, h]

/-- Where nothing is sent, a chunk that waits first is sent. -/
theorem run_idle {s : Socket} {item : Item} (h : s.Quiet) (hwriting : s.writing = false) :
    (s.run item).outbox = { s.outbox with active := some ⟨item, [], item.data⟩ } ∧ (s.run item).Shaped := by
  have hretry : s.retry = none := by
    rw [← Option.not_isSome_iff_eq_none, ← h.writing, hwriting]
    simp
  rw [run, if_neg (by simp [hwriting])]
  refine ⟨?_, ?_, ?_, ?_, ?_⟩
  · simp [outbox, active, held, Op.sending, Op.held]
  · exact h.settled
  · exact fun _ _ _ => hretry
  · simp [active, Op.sending]
  · exact h.uncorked

theorem run_busy {s : Socket} {item : Item} (h : s.Quiet) (hwriting : s.writing = true) :
    (s.run item).outbox = { s.outbox with waiting := s.queue ++ [item] ++ s.held ++ s.buffered } ∧ (s.run item).Quiet := by
  rw [run, if_pos hwriting]
  exact ⟨rfl, h.settled, h.writing, h.uncorked⟩

theorem active_outbox {s : Socket} (h : s.Quiet) (hwriting : s.writing = false) : s.outbox.active = none := by
  have hretry : s.retry = none := by
    rw [← Option.not_isSome_iff_eq_none, ← h.writing, hwriting]
    simp
  simp [outbox, active_of_settled h.settled, hretry]

theorem accept_quiet {s : Socket} (h : s.Quiet) (item : Item) : (s.accept item).Quiet := ⟨h.settled, h.writing, h.uncorked⟩

/-- No chunk waits that another could overtake. -/
def Clear (s : Socket) : Prop := s.held = [] ∧ (s.writing = true ∨ s.queue = [])

theorem write_steps {s : Socket} (h : s.Quiet) (item : Item) (hclear : strict → 0 < s.corked ∨ s.Clear) :
    Steps strict s (s.write item) ∧ (s.write item).Shaped := by
  unfold write
  split
  · exact ⟨.refl, h.shaped⟩
  · split
    · -- the chunk is buffered
      rename_i hcorked
      have hlast : ({ s.accept item with buffered := s.buffered ++ [item] } : Socket).outbox =
          { s.outbox with accepted := s.outbox.accepted ++ [item], waiting := s.outbox.waiting ++ [item] } := by
        simp [outbox, accept, active, held]
      refine ⟨.single (hlast ▸ .accept item), Quiet.shaped ⟨h.settled, h.writing, fun hzero => ?_⟩⟩
      rw [show s.corked = 0 from hzero] at hcorked
      exact absurd hcorked (Nat.lt_irrefl _)
    · rename_i hcorked
      have hbuffered := h.uncorked (by omega)
      have haccept : Outbox.Step Item.data strict s.outbox
          { s.outbox with accepted := s.outbox.accepted ++ [item], waiting := s.outbox.waiting ++ [item] } := .accept item
      have hclear' : strict → s.Clear := fun hs => (hclear hs).resolve_left hcorked
      cases hwriting : s.writing with
      | true =>
          obtain ⟨hrun, hquiet⟩ := @run_busy (s.accept item) item (accept_quiet h item) hwriting
          refine ⟨?_, hquiet.shaped⟩
          rw [Steps, hrun]
          refine .tail (.single haccept) (.reorder (s.queue ++ [item] ++ s.held ++ s.buffered) ?_ fun hs => ?_)
          · rw [hbuffered]
            simp only [outbox, hbuffered, List.append_nil, List.append_assoc]
            exact (List.perm_append_comm).append_left _
          · simp [outbox, hbuffered, (hclear' hs).1]
      | false =>
          obtain ⟨hrun, hshaped⟩ := @run_idle (s.accept item) item (accept_quiet h item) hwriting
          refine ⟨?_, hshaped⟩
          rw [Steps, hrun]
          refine .tail (.tail (.single haccept) (.reorder (item :: s.outbox.waiting) ?_ fun hs => ?_))
            (.begin item s.outbox.waiting (active_outbox h hwriting) rfl)
          · exact (List.perm_append_comm : ([item] ++ s.outbox.waiting).Perm (s.outbox.waiting ++ [item]))
          · have hqueue := (hclear' hs).2.resolve_left (by simp [hwriting])
            simp [outbox, hbuffered, (hclear' hs).1, hqueue]

theorem uncork_steps {s : Socket} (h : s.Quiet) (hclear : strict → s.Clear) : Steps strict s s.uncork ∧ s.uncork.Shaped := by
  unfold uncork
  split
  · have hsettled : Settled { s with corked := 0, buffered := [], stack := .uncorking s.buffered :: s.stack } := by
      intro op hop
      rcases List.mem_cons.mp hop with rfl | hop
      · rfl
      · exact h.settled op hop
    refine ⟨?_, Quiet.shaped ⟨hsettled, h.writing, fun _ => rfl⟩⟩
    have hheld : ({ s with corked := 0, buffered := [], stack := .uncorking s.buffered :: s.stack } : Socket).outbox =
        { s.outbox with waiting := s.queue ++ (s.buffered ++ s.held) } := by
      simp only [outbox, active_of_settled hsettled, active_of_settled h.settled]
      simp [held, Op.held]
    rw [Steps, hheld]
    refine .single (.reorder _ ?_ fun hs => ?_)
    · simp only [outbox, List.append_assoc]
      exact (List.perm_append_comm).append_left _
    · simp [outbox, (hclear hs).1]
  · rename_i hnot
    refine ⟨.refl, Quiet.shaped ⟨h.settled, h.writing, fun hzero => ?_⟩⟩
    by_contra hne
    exact hnot ⟨by simp only at hzero; omega, hne⟩

/-! ## Sending -/

theorem tcpWrite_spec {answers : List WriteSome} {data : Bytes} {off : Nat} {result : TcpResult}
    (h : tcpWrite answers data = some (off, result)) :
    off ≤ data.length ∧ (result = .undefined → off = data.length) ∧ (result = .number → off < data.length) := by
  induction answers generalizing data off with
  | nil =>
      cases data with
      | nil =>
          cases h
          simp
      | cons b data => cases h
  | cons answer answers ih =>
      cases data with
      | nil =>
          cases h
          simp
      | cons b data =>
          cases answer with
          | interrupted => exact ih h
          | wouldBlock | err =>
              cases h
              simp
          | ok n =>
              cases n with
              | zero =>
                  cases h
                  simp
              | succ n =>
                  rw [tcpWrite] at h
                  split at h
                  · obtain ⟨⟨m, r⟩, hm, heq⟩ := Option.map_eq_some_iff.mp h
                    cases heq
                    obtain ⟨hle, hall, hpart⟩ := ih hm
                    simp only [List.length_drop, List.length_cons] at hle hall hpart ⊢
                    exact ⟨by omega, fun hr => by have := hall hr; omega, fun hr => by have := hpart hr; omega⟩
                  · cases h

/-- What a socket is while `_write` is called for `x`, with the rest of the stack as it was. -/
structure Writes (s : Socket) (x : Sending) : Prop where
  settled : s.Settled
  writing : s.writing = true
  retry : s.retry = none
  uncorked : s.corked = 0 → s.buffered = []

/-- The outbox while `x` is sent. -/
def sendingBox (s : Socket) (x : Sending) : Outbox Item UInt8 := { s.outbox with active := some ⟨x.item, x.taken, x.left⟩ }

theorem flush_steps {s : Socket} {x : Sending} (h : s.Writes x) (fate : Fate) (hfate : fate = .sent → x.left = []) :
    ReflTransGen (Outbox.Step Item.data strict) (s.sendingBox x) (s.flush x fate).outbox ∧ (s.flush x fate).Shaped := by
  have hsettled : (s.flush x fate).Settled := by
    intro op hop
    simp only [flush] at hop
    rcases List.mem_append.mp hop with hop | hop
    · split at hop
      · simp only [List.mem_cons, List.not_mem_nil, or_false] at hop
        rcases hop with rfl | rfl | rfl <;> rfl
      · split at hop <;>
        · simp only [List.mem_append, List.mem_cons, List.not_mem_nil, or_false] at hop
          rcases hop with rfl | rfl | rfl <;> rfl
    · exact h.settled op hop
  have hbox : (s.flush x fate).outbox =
      { s.sendingBox x with active := none, done := (s.sendingBox x).done ++ [⟨x.item, x.taken, fate = .sent⟩] } := by
    have hactive : (s.flush x fate).active = none := by
      rw [active_of_settled hsettled]
      exact h.retry
    have hheld : (s.flush x fate).held = s.held := by
      simp only [held, flush, List.flatMap_append]
      split
      · rfl
      · split <;> rfl
    simp only [outbox, hactive, hheld, sendingBox]
    simp [flush]
  refine ⟨?_, Quiet.shaped ⟨hsettled, ?_, h.uncorked⟩⟩
  · rw [hbox]
    exact .single (.finish ⟨x.item, x.taken, x.left⟩ _ rfl fun hsent => hfate (by simpa using hsent))
  · show false = s.retry.isSome
    rw [h.retry]
    rfl

theorem attempt_steps {s t : Socket} {x : Sending} (h : s.Writes x) (hsmall : x.left.length < 4294967296)
    {answers : List WriteSome} (ht : s.attempt x answers = some t) :
    ReflTransGen (Outbox.Step Item.data strict) (s.sendingBox x) t.outbox ∧ t.Shaped := by
  unfold attempt at ht
  split at ht
  · cases ht
    exact flush_steps h .closed (by simp)
  · obtain ⟨⟨off, result⟩, hwrite, heq⟩ := Option.map_eq_some_iff.mp ht
    obtain ⟨hle, hall, hpart⟩ := tcpWrite_spec hwrite
    have hsend : ∀ left, x.left = x.left.take off ++ left → Outbox.Step Item.data strict (s.sendingBox x)
        (sendingBox { s with wire := s.wire ++ x.left.take off } ⟨x.item, x.taken ++ x.left.take off, left⟩) :=
      fun left hleft => .send ⟨x.item, x.taken, x.left⟩ (x.left.take off) left rfl hleft
    have hwrites : ∀ y, Writes { s with wire := s.wire ++ x.left.take off } y := fun y =>
      ⟨h.settled, h.writing, h.retry, h.uncorked⟩
    cases result with
    | undefined =>
        have hwhole : x.left.take off = x.left := List.take_of_length_le (by rw [hall rfl])
        simp only at heq
        subst heq
        obtain ⟨hflush, hshaped⟩ := @flush_steps strict _ _ (hwrites { x with taken := x.taken ++ x.left.take off, left := [] })
          .sent fun _ => rfl
        exact ⟨.head (hsend [] (by rw [List.append_nil, hwhole])) hflush, hshaped⟩
    | error =>
        simp only at heq
        subst heq
        obtain ⟨hflush, hshaped⟩ := @flush_steps strict _ _
          (hwrites { x with taken := x.taken ++ x.left.take off, left := x.left.drop off }) .failed (by simp)
        exact ⟨.head (hsend _ (List.take_append_drop _ _).symm) hflush, hshaped⟩
    | number =>
        have hmod : off % 4294967296 = off := Nat.mod_eq_of_lt (by have := hpart rfl; omega)
        simp only [hmod] at heq
        subst heq
        have hsettled : Settled { s with
            wire := s.wire ++ x.left.take off, retry := some ⟨x.item, x.taken ++ x.left.take off, x.left.drop off⟩ } := h.settled
        refine ⟨.single ?_, Quiet.shaped ⟨hsettled, h.writing, h.uncorked⟩⟩
        have hbox := hsend (x.left.drop off) (List.take_append_drop _ _).symm
        rw [outbox, active_of_settled hsettled]
        exact hbox

theorem start_steps {s t : Socket} {item : Item} (h : ∀ x, s.Writes x) (hsmall : item.data.length < 4294967296)
    {answers : List WriteSome} (ht : s.start item answers = some t) :
    ReflTransGen (Outbox.Step Item.data strict) (s.sendingBox ⟨item, [], item.data⟩) t.outbox ∧ t.Shaped := by
  unfold start at ht
  split at ht
  · exact attempt_steps (h _) hsmall ht
  · cases ht
    exact flush_steps (h _) .failed (by simp)

/-! ## One step -/

/-- What the outbox of a settled socket is made of. -/
def ledger (s : Socket) :
    List Item × List Flushed × Option Sending × List Item × List Item × List Item × List Item × Bytes :=
  (s.accepted, s.log, s.retry, s.queue, s.held, s.buffered, s.abandoned, s.wire)

theorem outbox_of_ledger {s t : Socket} (hs : s.Settled) (ht : t.Settled) (h : t.ledger = s.ledger) : t.outbox = s.outbox := by
  simp only [ledger, Prod.mk.injEq] at h
  obtain ⟨haccepted, hlog, hretry, hqueue, hheld, hbuffered, habandoned, hwire⟩ := h
  rw [outbox, outbox, active_of_settled hs, active_of_settled ht, haccepted, hlog, hretry, hqueue, hheld, hbuffered, habandoned,
    hwire]

/-- Only the stack changes, and no call of `_write` comes on it. -/
theorem Quiet.restack {s t : Socket} (h : s.Quiet) (hledger : t.ledger = s.ledger) (hflags : (t.writing, t.corked) = (s.writing, s.corked))
    (hstack : ∀ op ∈ t.stack, op ∈ s.stack ∨ op.sending = none) : Steps strict s t ∧ t.Shaped := by
  have hsettled : t.Settled := fun op hop => (hstack op hop).elim (h.settled op) id
  refine ⟨steps_of_eq (outbox_of_ledger h.settled hsettled hledger), Quiet.shaped ⟨hsettled, ?_, ?_⟩⟩
  · simp only [ledger, Prod.mk.injEq] at hledger hflags
    rw [hflags.1, hledger.2.2.1, h.writing]
  · simp only [ledger, Prod.mk.injEq] at hledger hflags
    rw [hflags.2, hledger.2.2.2.2.2.1]
    exact h.uncorked

theorem quiet_of_top {s : Socket} (h : s.Shaped) {op : Op} {ops : List Op} (hstack : s.stack = op :: ops) (hop : op.sending = none) :
    s.Quiet := by
  refine h.quiet fun o ho => ?_
  rw [hstack] at ho
  rcases List.mem_cons.mp ho with rfl | ho
  · exact hop
  · exact h.below o (by rw [hstack]; exact ho)

/-- A call of `_write` at the top of the stack. -/
theorem writes_of_top {s : Socket} (h : s.Shaped) {op : Op} {ops : List Op} {x : Sending} (hstack : s.stack = op :: ops)
    (hop : op.sending = some x) :
    (∀ y, Writes { s with stack := ops } y) ∧ sendingBox { s with stack := ops } x = s.outbox := by
  have hretry : s.retry = none := h.once op (by simp [hstack]) (by simp [hop])
  have hactive : s.active = some x := by simp [active, hstack, hop]
  have hheld : op.held = [] := by
    cases op with
    | start _ | attempt _ => rfl
    | _ => cases hop
  have hsettled : Settled { s with stack := ops } := fun o ho => h.below o (by rw [hstack]; exact ho)
  refine ⟨fun y => ⟨hsettled, ?_, hretry, h.uncorked⟩, ?_⟩
  · rw [h.writing, hactive]
    rfl
  · simp [sendingBox, outbox, hactive, held, hstack, hheld]

/-- The first chunk of a loop is handed on. -/
theorem uncorking_steps {s : Socket} (h : s.Shaped) {item : Item} {items : List Item} {ops : List Op}
    (hstack : s.stack = .uncorking (item :: items) :: ops) (hfair : strict → s.writing = true ∨ s.queue = []) :
    Steps strict s (run { s with stack := .uncorking items :: ops } item) ∧
      (run { s with stack := .uncorking items :: ops } item).Shaped := by
  have hquiet := quiet_of_top h hstack rfl
  have hrest : Quiet { s with stack := .uncorking items :: ops } := by
    refine ⟨fun op hop => ?_, hquiet.writing, hquiet.uncorked⟩
    rcases List.mem_cons.mp hop with rfl | hop
    · rfl
    · exact hquiet.settled op (by rw [hstack]; exact List.mem_cons_of_mem _ hop)
  have hwaiting : s.outbox.waiting = s.queue ++ (item :: items ++ ops.flatMap Op.held) ++ s.buffered := by
    simp [outbox, held, hstack, Op.held]
  have hactive : (outbox { s with stack := .uncorking items :: ops }).active = s.outbox.active := by
    simp only [outbox, active_of_settled hrest.settled, active_of_settled hquiet.settled]
  rcases Bool.eq_false_or_eq_true s.writing with hwriting | hwriting
  · obtain ⟨hrun, hdone⟩ := @run_busy { s with stack := .uncorking items :: ops } item hrest hwriting
    refine ⟨steps_of_eq ?_, hdone.shaped⟩
    rw [hrun]
    simp only [outbox] at hactive ⊢
    rw [hactive]
    simp [held, hstack, Op.held]
  · obtain ⟨hrun, hdone⟩ := @run_idle { s with stack := .uncorking items :: ops } item hrest hwriting
    refine ⟨?_, hdone⟩
    have hreorder : Outbox.Step Item.data strict s.outbox
        { s.outbox with waiting := item :: (s.queue ++ (items ++ ops.flatMap Op.held) ++ s.buffered) } := by
      refine .reorder _ ?_ fun hs => ?_
      · rw [hwaiting]
        simp only [List.append_assoc, List.cons_append]
        exact List.perm_middle.symm
      · have hqueue := (hfair hs).resolve_left (by simp [hwriting])
        rw [hwaiting, hqueue]
        simp
    rw [Steps, hrun]
    refine .tail (.single hreorder) ?_
    have hbegin := @Outbox.Step.begin _ _ Item.data strict
      { s.outbox with waiting := item :: (s.queue ++ (items ++ ops.flatMap Op.held) ++ s.buffered) } item _
      (active_outbox hquiet hwriting) rfl
    have heq : { outbox { s with stack := .uncorking items :: ops } with active := some ⟨item, [], item.data⟩ } =
        { s.outbox with
          active := some ⟨item, [], item.data⟩
          waiting := s.queue ++ (items ++ ops.flatMap Op.held) ++ s.buffered } := by
      simp [outbox, held, Op.held]
    rw [heq]
    exact hbegin

/-- The first chunk of the queue is sent. -/
theorem nextQueued_steps {s : Socket} (h : s.Shaped) {item : Item} {queue : List Item} {ops : List Op}
    (hstack : s.stack = .nextQueued :: ops) (hqueue : s.queue = item :: queue) (hwriting : s.writing = false) :
    Steps strict s (run { s with queue, stack := ops } item) ∧ (run { s with queue, stack := ops } item).Shaped := by
  have hquiet := quiet_of_top h hstack rfl
  have hrest : Quiet { s with queue, stack := ops } :=
    ⟨fun op hop => hquiet.settled op (by rw [hstack]; exact List.mem_cons_of_mem _ hop), hquiet.writing, hquiet.uncorked⟩
  obtain ⟨hrun, hdone⟩ := @run_idle { s with queue, stack := ops } item hrest hwriting
  refine ⟨?_, hdone⟩
  have hwaiting : s.outbox.waiting = item :: (queue ++ s.held ++ s.buffered) := by simp [outbox, hqueue]
  have hbegin := @Outbox.Step.begin _ _ Item.data strict s.outbox item _ (active_outbox hquiet hwriting) hwaiting
  have heq : { outbox { s with queue, stack := ops } with active := some ⟨item, [], item.data⟩ } =
      { s.outbox with active := some ⟨item, [], item.data⟩, waiting := queue ++ s.held ++ s.buffered } := by
    simp [outbox, held, hstack, Op.held]
  rw [Steps, hrun, heq]
  exact .single hbegin

/-- Where a loop of `uncork` has chunks, those of the queue wait for the timer. -/
def Unhurried (s : Socket) : Prop := s.held ≠ [] → s.retry.isSome = true ∨ s.queue = []

/-- The chunks are as long as a number of 32 bits can tell. -/
def Small (s : Socket) : Prop := ∀ item ∈ s.accepted, item.data.length < 4294967296

theorem active_small {s : Socket} (hsmall : s.Small) (hacc : Outbox.Accounted Item.data s.outbox) {x : Sending}
    (hx : s.active = some x) : x.item ∈ s.accepted ∧ x.left.length < 4294967296 := by
  have hactive : s.outbox.active = some ⟨x.item, x.taken, x.left⟩ := by simp [outbox, hx]
  have hmem : x.item ∈ s.accepted := by
    refine hacc.all.mem_iff.mpr ?_
    simp [Outbox.pending, hactive]
  have hdata : x.taken ++ x.left = x.item.data := hacc.active _ hactive
  have hlt := hsmall _ hmem
  rw [← hdata, List.length_append] at hlt
  exact ⟨hmem, by omega⟩

theorem go_steps {s t : Socket} (h : s.Shaped) (hsmall : s.Small) (hacc : Outbox.Accounted Item.data s.outbox)
    (hfair : strict → s.Unhurried) {answers : List WriteSome} (ht : s.go answers = some t) :
    Steps strict s t ∧ t.Shaped := by
  -- the stack without its top, or with other calls instead of it
  have hpop : ∀ {op : Op} {ops ops' : List Op} {t : Socket}, s.stack = op :: ops → op.sending = none → op.held = [] →
      t.stack = ops' ++ ops → (∀ o ∈ ops', o.sending = none ∧ o.held = []) →
      (t.accepted, t.log, t.retry, t.queue, t.buffered, t.abandoned, t.wire, t.writing, t.corked) =
        (s.accepted, s.log, s.retry, s.queue, s.buffered, s.abandoned, s.wire, s.writing, s.corked) →
      Steps strict s t ∧ t.Shaped := by
    intro op ops ops' t hstack hop hheld htstack hops' hsame
    simp only [Prod.mk.injEq] at hsame
    obtain ⟨haccepted, hlog, hretry, hqueue, hbuffered, habandoned, hwire, hwriting, hcorked⟩ := hsame
    have hnone : ops'.flatMap Op.held = [] := List.flatMap_eq_nil_iff.mpr fun o ho => (hops' o ho).2
    refine (quiet_of_top h hstack hop).restack ?_ ?_ fun o ho => ?_
    · simp only [ledger, haccepted, hlog, hretry, hqueue, hbuffered, habandoned, hwire, held, hstack, htstack,
        List.flatMap_append, hnone, List.flatMap_cons, hheld]
    · rw [hwriting, hcorked]
    · rw [htstack] at ho
      rcases List.mem_append.mp ho with ho | ho
      · exact .inr (hops' o ho).1
      · exact .inl (by rw [hstack]; exact List.mem_cons_of_mem _ ho)
  unfold go at ht
  split at ht
  · cases ht
  · cases ht
  · rename_i item ops hstack
    obtain ⟨hwrites, hbox⟩ := writes_of_top h hstack rfl
    have hactive : s.active = some ⟨item, [], item.data⟩ := by simp [active, hstack, Op.sending]
    have hstart := @start_steps strict _ _ _ hwrites (active_small hsmall hacc hactive).2 _ ht
    rw [hbox] at hstart
    exact hstart
  · rename_i x ops hstack
    obtain ⟨hwrites, hbox⟩ := writes_of_top h hstack rfl
    have hactive : s.active = some x := by simp [active, hstack, Op.sending]
    have hattempt := @attempt_steps strict _ _ _ (hwrites x) (active_small hsmall hacc hactive).2 _ ht
    rw [hbox] at hattempt
    exact hattempt
  · rename_i ops hstack
    split at ht <;> cases ht <;> exact @hpop _ _ [] _ hstack rfl rfl rfl (by simp) rfl
  · rename_i ops hstack
    split at ht
    · split at ht
      · rename_i item queue hqueue hcan
        cases ht
        exact nextQueued_steps h hstack hqueue (Bool.eq_false_of_not_eq_true hcan.1)
      · cases ht
        exact @hpop _ _ [] _ hstack rfl rfl rfl (by simp) rfl
    · cases ht
      exact @hpop _ _ [] _ hstack rfl rfl rfl (by simp) rfl
  · rename_i ops hstack
    cases ht
    exact @hpop _ _ [] _ hstack rfl rfl rfl (by simp) rfl
  · rename_i item items ops hstack
    cases ht
    refine uncorking_steps h hstack fun hs => ?_
    have hheld : s.held ≠ [] := by simp [held, hstack, Op.held]
    rw [(quiet_of_top h hstack rfl).writing]
    exact hfair hs hheld
  · rename_i ops hstack
    cases ht
    exact @hpop _ _ [.finish] _ hstack rfl rfl rfl (by simp [Op.sending, Op.held]) rfl
  · rename_i ops hstack
    split at ht
    · cases ht
      exact @hpop _ _ [] _ hstack rfl rfl rfl (by simp) rfl
    · cases ht
      exact @hpop _ _ [.script, .halfClose] _ hstack rfl rfl rfl (by simp [Op.sending, Op.held]) rfl
  · rename_i ops hstack
    cases ht
    unfold maybeClose
    split <;> exact @hpop _ _ [.script] _ hstack rfl rfl rfl (by simp [Op.sending, Op.held]) rfl
  · rename_i ops hstack
    split at ht
    · cases ht
      unfold maybeClose
      split <;> exact @hpop _ _ [] _ hstack rfl rfl rfl (by simp) rfl
    · cases ht
      exact @hpop _ _ [] _ hstack rfl rfl rfl (by simp) rfl

/-- Nothing is written and no loop of `uncork` begins where a chunk waits that it could overtake. -/
def Fair (s : Socket) : Event → Prop
  | .write _ | .endSocket (some _) => 0 < s.corked ∨ s.Clear
  | .uncork => s.Clear
  | _ => True

instance (s : Socket) : (e : Event) → Decidable (Fair s e)
  | .write _ | .endSocket (some _) =>
      inferInstanceAs (Decidable (0 < s.corked ∨ s.held = [] ∧ (s.writing = true ∨ s.queue = [])))
  | .uncork => inferInstanceAs (Decidable (s.held = [] ∧ (s.writing = true ∨ s.queue = [])))
  | .endSocket none | .cork | .destroy | .returned | .threw | .go _ | .retryTimer | .finishTimer | .readEnd => .isTrue trivial

theorem endSocket_steps {s : Socket} (h : s.Quiet) (chunk : Option Chunk)
    (hclear : strict → ∀ c, chunk = some c → 0 < s.corked ∨ s.Clear) :
    Steps strict s (s.endSocket chunk) ∧ (s.endSocket chunk).Shaped := by
  have hpush : ∀ (op : Op), op.sending = none → op.held = [] → ∀ ended : Bool,
      Steps strict s { s with writableEnded := true, ended, stack := op :: s.stack } ∧
        Shaped { s with writableEnded := true, ended, stack := op :: s.stack } := by
    intro op hop hheld ended
    refine h.restack ?_ rfl fun o ho => ?_
    · simp [ledger, held, hheld]
    · rcases List.mem_cons.mp ho with rfl | ho
      · exact .inr hop
      · exact .inl ho
  unfold endSocket
  split
  · exact ⟨.refl, h.shaped⟩
  · simp only
    split
    · exact hpush .halfClose rfl rfl s.ended
    · split
      · rename_i c
        exact @write_steps strict { s with writableEnded := true } ⟨h.settled, h.writing, h.uncorked⟩ ⟨c, true⟩
          fun hs => hclear hs c rfl
      · exact hpush .finish rfl rfl true

/-- What a thrown exception leaves of the stack, and what it does not. -/
theorem unwind_held (ops : List Op) :
    ops.flatMap Op.held = (ops.takeWhile fun op => !op.isScript).flatMap Op.held ++
      (ops.dropWhile fun op => !op.isScript).flatMap Op.held := by
  rw [← List.flatMap_append, List.takeWhile_append_dropWhile]

theorem unwind_steps {s : Socket} (h : s.Quiet) {ops : List Op} (hstack : s.stack = .script :: ops) :
    Steps strict s (s.unwind ops) ∧ (s.unwind ops).Shaped := by
  have hsettled : (s.unwind ops).Settled := fun op hop =>
    h.settled op (by rw [hstack]; exact List.mem_cons_of_mem _ (List.dropWhile_suffix _ |>.subset hop))
  refine ⟨.single ?_, Quiet.shaped ⟨hsettled, h.writing, h.uncorked⟩⟩
  have hheld : s.held = ops.flatMap Op.held := by simp [held, hstack, Op.held]
  have hlose := @Outbox.Step.lose _ _ Item.data strict s.outbox s.queue ((ops.takeWhile fun op => !op.isScript).flatMap Op.held)
    ((ops.dropWhile fun op => !op.isScript).flatMap Op.held ++ s.buffered)
    (by rw [show s.outbox.waiting = s.queue ++ s.held ++ s.buffered from rfl, hheld, unwind_held]; simp only [List.append_assoc])
  have heq : (s.unwind ops).outbox =
      { s.outbox with
        waiting := s.queue ++ ((ops.dropWhile fun op => !op.isScript).flatMap Op.held ++ s.buffered)
        lost := s.outbox.lost ++ (ops.takeWhile fun op => !op.isScript).flatMap Op.held } := by
    rw [outbox, outbox, active_of_settled hsettled, active_of_settled h.settled]
    simp [unwind, held]
  rw [heq]
  exact hlose

theorem step_steps {s t : Socket} {e : Event} (h : s.Shaped) (hsmall : s.Small) (hacc : Outbox.Accounted Item.data s.outbox)
    (hfair : strict → s.Unhurried ∧ Fair s e) (ht : step s e = some t) : Steps strict s t ∧ t.Shaped := by
  cases e with
  | write chunk =>
      rw [step] at ht
      split at ht
      · cases ht
        exact write_steps (h.quiet (h.settled ‹_›)) _ fun hs => (hfair hs).2
      · cases ht
  | endSocket chunk =>
      rw [step] at ht
      split at ht
      · cases ht
        refine endSocket_steps (h.quiet (h.settled ‹_›)) _ fun hs c hc => ?_
        subst hc
        exact (hfair hs).2
      · cases ht
  | cork =>
      rw [step] at ht
      split at ht
      · cases ht
        have hquiet := h.quiet (h.settled ‹_›)
        exact ⟨.refl, Quiet.shaped ⟨hquiet.settled, hquiet.writing, fun hzero => absurd hzero (Nat.succ_ne_zero _)⟩⟩
      · cases ht
  | uncork =>
      rw [step] at ht
      split at ht
      · cases ht
        exact uncork_steps (h.quiet (h.settled ‹_›)) fun hs => (hfair hs).2
      · cases ht
  | destroy =>
      rw [step] at ht
      split at ht
      · cases ht
        exact ⟨.refl, ⟨h.below, h.once, h.writing, h.uncorked⟩⟩
      · cases ht
  | returned =>
      rw [step] at ht
      split at ht
      · rename_i ops hstack
        cases ht
        refine (quiet_of_top h hstack rfl).restack ?_ rfl fun o ho => .inl (by rw [hstack]; exact List.mem_cons_of_mem _ ho)
        simp [ledger, held, hstack, Op.held]
      · cases ht
  | threw =>
      rw [step] at ht
      split at ht
      · rename_i ops hstack
        cases ht
        exact unwind_steps (quiet_of_top h hstack rfl) hstack
      · cases ht
  | go answers => exact go_steps h hsmall hacc (fun hs => (hfair hs).1) ht
  | retryTimer =>
      rw [step] at ht
      split at ht
      · rename_i x hstack hretry
        cases ht
        have hactive : s.active = some x := by simp [active, hstack, hretry]
        refine ⟨steps_of_eq ?_, ⟨by simp, fun _ _ _ => rfl, ?_, h.uncorked⟩⟩
        · simp only [outbox, hactive]
          simp [active, Op.sending, held, hstack, Op.held]
        · rw [show s.writing = s.active.isSome from h.writing, hactive]
          simp [active, Op.sending]
      · cases ht
  | finishTimer =>
      rw [step] at ht
      split at ht
      · rename_i hcan
        cases ht
        have hquiet := h.quiet fun op hop => by simp [hcan.1] at hop
        refine hquiet.restack ?_ rfl fun o ho => .inr ?_
        · simp [ledger, held, hcan.1, Op.held]
        · obtain rfl := List.mem_singleton.mp ho
          rfl
      · cases ht
  | readEnd =>
      rw [step] at ht
      split at ht
      · rename_i hcan
        cases ht
        have hquiet := h.quiet fun op hop => by simp [hcan.1] at hop
        refine hquiet.restack ?_ rfl fun o ho => .inr ?_
        · simp [ledger, held, hcan.1, Op.held]
        · simp only [List.mem_cons, List.not_mem_nil, or_false] at ho
          rcases ho with rfl | rfl <;> rfl
      · cases ht

/-! ## Counts -/

theorem attempt_frame {s t : Socket} {x : Sending} {answers : List WriteSome} (ht : s.attempt x answers = some t) :
    (∃ taken left, t = { s with wire := s.wire ++ taken, retry := some ⟨x.item, x.taken ++ taken, left⟩ }) ∨
      ∃ taken fate, t = flush { s with wire := s.wire ++ taken } { x with taken := x.taken ++ taken } fate := by
  unfold attempt at ht
  split at ht
  · cases ht
    exact .inr ⟨[], .closed, by simp⟩
  · obtain ⟨⟨off, result⟩, -, heq⟩ := Option.map_eq_some_iff.mp ht
    cases result <;> simp only at heq <;> subst heq
    · exact .inr ⟨_, _, rfl⟩
    · exact .inl ⟨_, _, rfl⟩
    · exact .inr ⟨_, _, rfl⟩

theorem start_frame {s t : Socket} {item : Item} {answers : List WriteSome} (ht : s.start item answers = some t) :
    (∃ taken left, t = { s with wire := s.wire ++ taken, retry := some ⟨item, taken, left⟩ }) ∨
      ∃ taken fate, t = flush { s with wire := s.wire ++ taken } ⟨item, taken, item.data⟩ fate := by
  unfold start at ht
  split at ht
  · rcases attempt_frame ht with ⟨taken, left, rfl⟩ | ⟨taken, fate, rfl⟩
    · exact .inl ⟨taken, left, by simp⟩
    · exact .inr ⟨taken, fate, by simp⟩
  · cases ht
    exact .inr ⟨[], .failed, by simp⟩

/-- Every chunk is pending until its callback was called. -/
structure Counted (s : Socket) : Prop where
  number : s.pendingcb + s.log.length = s.accepted.length
  size : s.length + (s.log.map fun f => f.item.data.length).sum = (s.accepted.map fun i => i.data.length).sum

theorem active_counted {s : Socket} (h : s.Counted) (hacc : Outbox.Accounted Item.data s.outbox) {x : Sending}
    (hx : s.active = some x) : 1 ≤ s.pendingcb ∧ x.item.data.length ≤ s.length := by
  have hperm := hacc.all
  have hactive : s.outbox.active = some ⟨x.item, x.taken, x.left⟩ := by simp [outbox, hx]
  have hdone : s.outbox.done.map Outbox.Done.item = s.log.map Flushed.item := by simp [outbox]
  rw [hdone, Outbox.pending, hactive] at hperm
  have hlength := hperm.length_eq
  have hsum := (hperm.map fun i : Item => i.data.length).sum_nat
  simp only [Option.map_some, Option.toList_some, List.length_append, List.length_map, List.length_cons, List.length_nil,
    List.map_append, List.map_cons, List.map_nil, List.sum_append, List.sum_cons, List.sum_nil, List.map_map,
    Function.comp_def] at hlength hsum
  have hnumber := h.number
  have hsize := h.size
  have haccepted : s.outbox.accepted = s.accepted := rfl
  rw [haccepted] at hlength hsum
  exact ⟨by omega, by omega⟩

theorem flush_counted {s : Socket} (h : s.Counted) {x : Sending} (hone : 1 ≤ s.pendingcb)
    (hlength : x.item.data.length ≤ s.length) (fate : Fate) : (s.flush x fate).Counted := by
  have hnumber := h.number
  have hsize := h.size
  constructor
  · simp only [flush, List.length_append, List.length_cons, List.length_nil]
    omega
  · simp only [flush, List.map_append, List.map_cons, List.map_nil, List.sum_append, List.sum_cons, List.sum_nil]
    omega

theorem write_counted {s : Socket} (h : s.Counted) (item : Item) : (s.write item).Counted := by
  have hnumber := h.number
  have hsize := h.size
  have haccept : (s.accept item).Counted := by
    constructor
    · simp only [accept, List.length_append, List.length_cons, List.length_nil]
      omega
    · simp only [accept, List.map_append, List.map_cons, List.map_nil, List.sum_append, List.sum_cons, List.sum_nil]
      omega
  unfold write
  split
  · exact h
  · split
    · exact ⟨haccept.number, haccept.size⟩
    · unfold run
      split
      · exact ⟨haccept.number, haccept.size⟩
      · exact ⟨haccept.number, haccept.size⟩

theorem go_counted {s t : Socket} (h : s.Counted) (hacc : Outbox.Accounted Item.data s.outbox) {answers : List WriteSome}
    (ht : s.go answers = some t) : t.Counted := by
  have hsame : ∀ {t : Socket}, (t.pendingcb, t.length, t.log, t.accepted) = (s.pendingcb, s.length, s.log, s.accepted) →
      t.Counted := by
    intro t hsame
    simp only [Prod.mk.injEq] at hsame
    obtain ⟨hpendingcb, hlength, hlog, haccepted⟩ := hsame
    exact ⟨by rw [hpendingcb, hlog, haccepted]; exact h.number, by rw [hlength, hlog, haccepted]; exact h.size⟩
  unfold go at ht
  split at ht
  · cases ht
  · cases ht
  · rename_i item ops hstack
    have hactive : s.active = some ⟨item, [], item.data⟩ := by simp [active, hstack, Op.sending]
    obtain ⟨hone, hlength⟩ := active_counted h hacc hactive
    rcases start_frame ht with ⟨taken, left, rfl⟩ | ⟨taken, fate, rfl⟩
    · exact hsame rfl
    · refine flush_counted ?_ ?_ ?_ fate
      · exact ⟨h.number, h.size⟩
      · exact hone
      · exact hlength
  · rename_i x ops hstack
    have hactive : s.active = some x := by simp [active, hstack, Op.sending]
    obtain ⟨hone, hlength⟩ := active_counted h hacc hactive
    rcases attempt_frame ht with ⟨taken, left, rfl⟩ | ⟨taken, fate, rfl⟩
    · exact hsame rfl
    · refine flush_counted ?_ ?_ ?_ fate
      · exact ⟨h.number, h.size⟩
      · exact hone
      · exact hlength
  · split at ht <;> cases ht <;> exact hsame rfl
  · split at ht
    · split at ht
      · cases ht
        unfold run
        split <;> exact hsame rfl
      · cases ht
        exact hsame rfl
    · cases ht
      exact hsame rfl
  · cases ht
    exact hsame rfl
  · cases ht
    unfold run
    split <;> exact hsame rfl
  · cases ht
    exact hsame rfl
  · split at ht <;> cases ht <;> exact hsame rfl
  · cases ht
    unfold maybeClose
    split <;> exact hsame rfl
  · split at ht
    · cases ht
      unfold maybeClose
      split <;> exact hsame rfl
    · cases ht
      exact hsame rfl

/-! ## The end -/

/-- How far the end of the writing side has come. -/
structure Ended (s : Socket) : Prop where
  ended : .finish ∈ s.stack ∨ 0 < s.finishTimers ∨ s.finished = true → s.ended = true
  writable : s.ended = true ∨ .endWritten ∈ s.stack ∨ (∃ item ∈ s.accepted, item.ending = true) → s.writableEnded = true
  nothing : s.finished = true → s.pendingcb = 0
  closing : .halfClose ∈ s.stack ∨ s.shutdownWrite = true → s.finished = true

/-- Calls that have nothing to do with the end. -/
def Op.plain : Op → Bool
  | .endWritten | .finish | .halfClose => false
  | _ => true

theorem Ended.mono {s t : Socket} (h : s.Ended) (hstack : ∀ op ∈ t.stack, op ∈ s.stack ∨ op.plain = true)
    (hsame : (t.finishTimers, t.finished, t.ended, t.accepted, t.writableEnded, t.shutdownWrite) =
      (s.finishTimers, s.finished, s.ended, s.accepted, s.writableEnded, s.shutdownWrite))
    (hcount : s.pendingcb = 0 → t.pendingcb = 0) : t.Ended := by
  simp only [Prod.mk.injEq] at hsame
  obtain ⟨htimers, hfinished, hended, haccepted, hwritable, hshutdown⟩ := hsame
  have hmem : ∀ op : Op, op.plain = false → op ∈ t.stack → op ∈ s.stack := fun op hop ho =>
    (hstack op ho).resolve_right (by simp [hop])
  constructor
  · rw [htimers, hfinished, hended]
    exact fun hany => h.ended (hany.imp_left (hmem _ rfl))
  · rw [hended, haccepted, hwritable]
    exact fun hany => h.writable (hany.imp_right (Or.imp_left (hmem _ rfl)))
  · rw [hfinished]
    exact fun hf => hcount (h.nothing hf)
  · rw [hshutdown, hfinished]
    exact fun hany => h.closing (hany.imp_left (hmem _ rfl))

theorem write_ended {s : Socket} (h : s.Ended) (item : Item) (hitem : item.ending = true → s.writableEnded = true) :
    (s.write item).Ended := by
  unfold write
  split
  · exact h
  · rename_i hnot
    have hopen : s.finished ≠ true := fun hf => hnot (h.ended (.inr (.inr hf)))
    have haccept : (s.accept item).Ended := by
      refine ⟨h.ended, ?_, fun hf => absurd hf hopen, h.closing⟩
      rintro (hany | hany | ⟨i, hi, hending⟩)
      · exact h.writable (.inl hany)
      · exact h.writable (.inr (.inl hany))
      · rcases List.mem_append.mp hi with hi | hi
        · exact h.writable (.inr (.inr ⟨i, hi, hending⟩))
        · obtain rfl := List.mem_singleton.mp hi
          exact hitem hending
    split
    · exact haccept.mono (fun op hop => .inl hop) rfl id
    · unfold run
      split
      · exact haccept.mono (fun op hop => .inl hop) rfl id
      · refine haccept.mono (fun op hop => ?_) rfl id
        rcases List.mem_cons.mp hop with rfl | hop
        · exact .inr rfl
        · exact .inl hop

theorem flush_ended {s : Socket} (h : s.Ended) {x : Sending} (hitem : x.item ∈ s.accepted) (fate : Fate) :
    (s.flush x fate).Ended := by
  have hmem : ∀ op : Op, op.plain = false → op ∈ (s.flush x fate).stack →
      op ∈ s.stack ∨ op = .endWritten ∧ x.item.ending = true := by
    intro op hop ho
    simp only [flush] at ho
    rcases List.mem_append.mp ho with ho | ho
    · split at ho
      · simp only [List.mem_cons, List.not_mem_nil, or_false] at ho
        rcases ho with rfl | rfl | rfl <;> cases hop
      · split at ho
        · rename_i hending
          simp only [List.mem_append, List.mem_cons, List.not_mem_nil, or_false] at ho
          rcases ho with rfl | rfl | rfl
          · exact .inr ⟨rfl, hending⟩
          · cases hop
          · cases hop
        · simp only [List.mem_append, List.mem_cons, List.not_mem_nil, or_false] at ho
          rcases ho with rfl | rfl | rfl <;> cases hop
    · exact .inl ho
  constructor
  · exact fun hany => h.ended (hany.imp_left fun ho => (hmem _ rfl ho).resolve_right (by simp))
  · rintro (hany | ho | hany)
    · exact h.writable (.inl hany)
    · rcases hmem _ rfl ho with ho | ⟨-, hending⟩
      · exact h.writable (.inr (.inl ho))
      · exact h.writable (.inr (.inr ⟨_, hitem, hending⟩))
    · exact h.writable (.inr (.inr hany))
  · exact fun hf => by
      have hnone := h.nothing hf
      simp [flush, hnone]
  · exact fun hany => h.closing (hany.imp_left fun ho => (hmem _ rfl ho).resolve_right (by simp))

theorem go_ended {s t : Socket} (h : s.Ended) (hsmall : s.Small) (hacc : Outbox.Accounted Item.data s.outbox)
    {answers : List WriteSome} (ht : s.go answers = some t) : t.Ended := by
  have hpop : ∀ {op : Op} {ops : List Op}, s.stack = op :: ops → Ended { s with stack := ops } := fun hstack =>
    h.mono (fun o ho => .inl (by rw [hstack]; exact List.mem_cons_of_mem _ ho)) rfl id
  unfold go at ht
  split at ht
  · cases ht
  · cases ht
  · rename_i item ops hstack
    have hactive : s.active = some ⟨item, [], item.data⟩ := by simp [active, hstack, Op.sending]
    have hitem := (active_small hsmall hacc hactive).1
    rcases start_frame ht with ⟨taken, left, rfl⟩ | ⟨taken, fate, rfl⟩
    · exact (hpop hstack).mono (fun o ho => .inl ho) rfl id
    · refine flush_ended ?_ ?_ fate
      · exact (hpop hstack).mono (fun o ho => .inl ho) rfl id
      · exact hitem
  · rename_i x ops hstack
    have hactive : s.active = some x := by simp [active, hstack, Op.sending]
    have hitem := (active_small hsmall hacc hactive).1
    rcases attempt_frame ht with ⟨taken, left, rfl⟩ | ⟨taken, fate, rfl⟩
    · exact (hpop hstack).mono (fun o ho => .inl ho) rfl id
    · refine flush_ended ?_ ?_ fate
      · exact (hpop hstack).mono (fun o ho => .inl ho) rfl id
      · exact hitem
  · rename_i ops hstack
    split at ht <;> cases ht <;> exact (hpop hstack).mono (fun o ho => .inl ho) rfl id
  · rename_i ops hstack
    split at ht
    · split at ht
      · cases ht
        unfold run
        split
        · exact (hpop hstack).mono (fun o ho => .inl ho) rfl id
        · refine (hpop hstack).mono (fun o ho => ?_) rfl id
          rcases List.mem_cons.mp ho with rfl | ho
          · exact .inr rfl
          · exact .inl ho
      · cases ht
        exact hpop hstack
    · cases ht
      exact hpop hstack
  · rename_i ops hstack
    cases ht
    exact hpop hstack
  · rename_i item items ops hstack
    cases ht
    have hplain : ∀ op, op ∈ Op.start item :: .uncorking items :: ops → op ∈ ops ∨ op.plain = true := by
      intro op hop
      simp only [List.mem_cons] at hop
      rcases hop with rfl | rfl | hop
      · exact .inr rfl
      · exact .inr rfl
      · exact .inl hop
    unfold run
    split
    · exact (hpop hstack).mono (fun o ho => hplain o (List.mem_cons_of_mem _ ho)) rfl id
    · exact (hpop hstack).mono hplain rfl id
  · rename_i ops hstack
    cases ht
    have hwritable := h.writable (.inr (.inl (by simp [hstack])))
    have hrest := hpop hstack
    refine ⟨fun _ => rfl, fun _ => hwritable, hrest.nothing, fun hany => hrest.closing (hany.imp_left fun ho => ?_)⟩
    simpa using ho
  · rename_i ops hstack
    have hended := h.ended (.inl (by simp [hstack]))
    have hrest := hpop hstack
    split at ht
    · cases ht
      exact ⟨fun _ => hended, hrest.writable, hrest.nothing, hrest.closing⟩
    · rename_i hzero
      cases ht
      refine ⟨fun _ => hended, ?_, fun _ => by simpa using hzero, fun _ => rfl⟩
      exact fun hany => hrest.writable (hany.imp_right (Or.imp_left fun ho => by simpa using ho))
  · rename_i ops hstack
    cases ht
    have hfinished := h.closing (.inl (by simp [hstack]))
    have hrest := hpop hstack
    have hclosed : ∀ connected : Bool, Ended { s with
        connected, shutdownWrite := s.shutdownWrite || s.connected, stack := .script :: ops } := fun connected =>
      ⟨fun _ => h.ended (.inr (.inr hfinished)),
        fun hany => hrest.writable (hany.imp_right (Or.imp_left fun ho => by simpa using ho)), h.nothing, fun _ => hfinished⟩
    unfold maybeClose
    split
    · exact hclosed false
    · exact hclosed s.connected
  · rename_i ops hstack
    split at ht
    · cases ht
      unfold maybeClose
      split <;> exact (hpop hstack).mono (fun o ho => .inl ho) rfl id
    · cases ht
      exact (hpop hstack).mono (fun o ho => .inl ho) rfl id

theorem endSocket_ended {s : Socket} (h : s.Ended) (chunk : Option Chunk) : (s.endSocket chunk).Ended := by
  unfold endSocket
  split
  · exact h
  · rename_i hnot
    have hopen : s.ended ≠ true := fun he => hnot (h.writable (.inl he))
    have hunfinished : s.finished ≠ true := fun hf => hopen (h.ended (.inr (.inr hf)))
    have hwritable : Ended { s with writableEnded := true } := ⟨h.ended, fun _ => rfl, h.nothing, h.closing⟩
    rw [if_neg (by simp [hopen, hunfinished])]
    split
    · exact write_ended hwritable _ fun _ => rfl
    · refine ⟨fun _ => rfl, fun _ => rfl, fun hf => absurd hf hunfinished, fun hany => h.closing (hany.imp_left fun ho => ?_)⟩
      simpa using ho

theorem endSocket_counted {s : Socket} (h : s.Counted) (chunk : Option Chunk) : (s.endSocket chunk).Counted := by
  have hsame : Counted { s with writableEnded := true } := ⟨h.number, h.size⟩
  unfold endSocket
  split
  · exact h
  · simp only
    split
    · exact ⟨h.number, h.size⟩
    · split
      · exact write_counted hsame _
      · exact ⟨h.number, h.size⟩

/-! ## Runs -/

/-- What holds of a socket in any run. -/
structure Inv (s : Socket) : Prop where
  shaped : s.Shaped
  accounted : Outbox.Accounted Item.data s.outbox
  small : s.Small
  counted : s.Counted
  ended : s.Ended

/-- A chunk that is written has a length that fits into 32 bits. -/
def Brief : Event → Prop
  | .write c | .endSocket (some c) => (⟨c, false⟩ : Item).data.length < 4294967296
  | _ => True

instance : (e : Event) → Decidable (Brief e)
  | .write c | .endSocket (some c) => inferInstanceAs (Decidable ((⟨c, false⟩ : Item).data.length < 4294967296))
  | .endSocket none | .cork | .uncork | .destroy | .returned | .threw | .go _ | .retryTimer | .finishTimer | .readEnd =>
      .isTrue trivial

theorem write_small {s : Socket} (h : s.Small) {item : Item} (hitem : item.data.length < 4294967296) :
    (s.write item).Small := by
  have haccept : (s.accept item).Small := by
    intro i hi
    rcases List.mem_append.mp hi with hi | hi
    · exact h i hi
    · obtain rfl := List.mem_singleton.mp hi
      exact hitem
  unfold write
  split
  · exact h
  · split
    · exact haccept
    · unfold run
      split
      · exact haccept
      · exact haccept

theorem endSocket_small {s : Socket} (h : s.Small) {chunk : Option Chunk} (hbrief : Brief (.endSocket chunk)) :
    (s.endSocket chunk).Small := by
  unfold endSocket
  split
  · exact h
  · simp only
    split
    · exact h
    · split
      · exact @write_small { s with writableEnded := true } h _ hbrief
      · exact h

/-- What goes on without a step back: callbacks were called, the end was reached. -/
structure Onward (s t : Socket) : Prop where
  log : s.log <+: t.log
  finished : s.finished = true → t.finished = true
  shutdownWrite : s.shutdownWrite = true → t.shutdownWrite = true
  idle : s.active = none → (t.log, t.wire) = (s.log, s.wire)

theorem Onward.of_eq {s t : Socket}
    (h : (t.log, t.wire, t.finished, t.shutdownWrite) = (s.log, s.wire, s.finished, s.shutdownWrite)) : Onward s t := by
  simp only [Prod.mk.injEq] at h
  obtain ⟨hlog, hwire, hfinished, hshutdown⟩ := h
  exact ⟨by rw [hlog], by rw [hfinished]; exact id, by rw [hshutdown]; exact id, fun _ => by rw [hlog, hwire]⟩

theorem go_onward {s t : Socket} {answers : List WriteSome} (ht : s.go answers = some t) :
    Onward s t ∧ t.accepted = s.accepted ∧ t.abandoned = s.abandoned := by
  -- a call of `_write`
  have hsend : ∀ {op : Op} {ops : List Op} {x : Sending} {t : Socket}, s.stack = op :: ops → op.sending = some x →
      (s.log <+: t.log ∧ t.finished = s.finished ∧ t.shutdownWrite = s.shutdownWrite) →
      t.accepted = s.accepted ∧ t.abandoned = s.abandoned →
      Onward s t ∧ t.accepted = s.accepted ∧ t.abandoned = s.abandoned := by
    rintro op ops x t hstack hop ⟨hlog, hfinished, hshutdown⟩ hrest
    refine ⟨⟨hlog, by rw [hfinished]; exact id, by rw [hshutdown]; exact id, fun hidle => ?_⟩, hrest⟩
    simp [active, hstack, hop] at hidle
  unfold go at ht
  split at ht
  · cases ht
  · cases ht
  · rename_i item ops hstack
    rcases start_frame ht with ⟨taken, left, rfl⟩ | ⟨taken, fate, rfl⟩
    · exact hsend hstack rfl ⟨List.prefix_refl _, rfl, rfl⟩ ⟨rfl, rfl⟩
    · exact hsend hstack rfl ⟨List.prefix_append _ _, rfl, rfl⟩ ⟨rfl, rfl⟩
  · rename_i x ops hstack
    rcases attempt_frame ht with ⟨taken, left, rfl⟩ | ⟨taken, fate, rfl⟩
    · exact hsend hstack rfl ⟨List.prefix_refl _, rfl, rfl⟩ ⟨rfl, rfl⟩
    · exact hsend hstack rfl ⟨List.prefix_append _ _, rfl, rfl⟩ ⟨rfl, rfl⟩
  · split at ht <;> cases ht <;> exact ⟨.of_eq rfl, rfl, rfl⟩
  · split at ht
    · split at ht
      · cases ht
        unfold run
        split <;> exact ⟨.of_eq rfl, rfl, rfl⟩
      · cases ht
        exact ⟨.of_eq rfl, rfl, rfl⟩
    · cases ht
      exact ⟨.of_eq rfl, rfl, rfl⟩
  · cases ht
    exact ⟨.of_eq rfl, rfl, rfl⟩
  · cases ht
    unfold run
    split <;> exact ⟨.of_eq rfl, rfl, rfl⟩
  · cases ht
    exact ⟨.of_eq rfl, rfl, rfl⟩
  · split at ht
    · cases ht
      exact ⟨.of_eq rfl, rfl, rfl⟩
    · cases ht
      exact ⟨⟨List.prefix_refl _, fun _ => rfl, id, fun _ => rfl⟩, rfl, rfl⟩
  · cases ht
    have hclosing : ∀ connected : Bool, Onward s { s with
        connected, shutdownWrite := s.shutdownWrite || s.connected, stack := .script :: ‹List Op› } := fun _ =>
      ⟨List.prefix_refl _, id, fun hshutdown => by simp [hshutdown], fun _ => rfl⟩
    unfold maybeClose
    split
    · exact ⟨hclosing false, rfl, rfl⟩
    · exact ⟨hclosing s.connected, rfl, rfl⟩
  · split at ht
    · cases ht
      unfold maybeClose
      split <;> exact ⟨.of_eq rfl, rfl, rfl⟩
    · cases ht
      exact ⟨.of_eq rfl, rfl, rfl⟩

/-- The rest of the invariant, for the steps that only move what is written or the stack. -/
theorem step_inv {s t : Socket} {e : Event} (h : s.Inv) (hbrief : Brief e) (ht : step s e = some t) : t.Inv := by
  obtain ⟨hsteps, hshaped⟩ := @step_steps False _ _ _ h.shaped h.small h.accounted False.elim ht
  have hacc := Outbox.accounted_of_steps hsteps h.accounted
  have hrest : ∀ {t : Socket}, t.Shaped → Outbox.Accounted Item.data t.outbox →
      (∀ op ∈ t.stack, op ∈ s.stack ∨ op.plain = true) →
      (t.finishTimers, t.finished, t.ended, t.accepted, t.writableEnded, t.shutdownWrite, t.pendingcb, t.length, t.log) =
        (s.finishTimers, s.finished, s.ended, s.accepted, s.writableEnded, s.shutdownWrite, s.pendingcb, s.length, s.log) →
      t.Inv := by
    intro t hshaped hacc hstack hsame
    simp only [Prod.mk.injEq] at hsame
    obtain ⟨htimers, hfinished, hended, haccepted, hwritable, hshutdown, hpendingcb, hlength, hlog⟩ := hsame
    refine ⟨hshaped, hacc, ?_, ⟨?_, ?_⟩, h.ended.mono hstack ?_ ?_⟩
    · rw [Small, haccepted]
      exact h.small
    · rw [hpendingcb, hlog, haccepted]
      exact h.counted.number
    · rw [hlength, hlog, haccepted]
      exact h.counted.size
    · rw [htimers, hfinished, hended, haccepted, hwritable, hshutdown]
    · rw [hpendingcb]
      exact id
  cases e with
  | write chunk =>
      rw [step] at ht
      split at ht
      · cases ht
        exact ⟨hshaped, hacc, write_small h.small hbrief, write_counted h.counted _, write_ended h.ended _ (by simp)⟩
      · cases ht
  | endSocket chunk =>
      rw [step] at ht
      split at ht
      · cases ht
        exact ⟨hshaped, hacc, endSocket_small h.small hbrief, endSocket_counted h.counted _, endSocket_ended h.ended _⟩
      · cases ht
  | cork | destroy =>
      rw [step] at ht
      split at ht
      · cases ht
        exact hrest hshaped hacc (fun _ ho => .inl ho) rfl
      · cases ht
  | uncork =>
      rw [step] at ht
      split at ht
      · cases ht
        revert hshaped hacc
        unfold uncork
        split
        · intro hshaped hacc
          refine hrest hshaped hacc (fun o ho => ?_) rfl
          rcases List.mem_cons.mp ho with rfl | ho
          · exact .inr rfl
          · exact .inl ho
        · exact fun hshaped hacc => hrest hshaped hacc (fun _ ho => .inl ho) rfl
      · cases ht
  | returned =>
      rw [step] at ht
      split at ht
      · rename_i ops hstack
        cases ht
        exact hrest hshaped hacc (fun o ho => .inl (by rw [hstack]; exact List.mem_cons_of_mem _ ho)) rfl
      · cases ht
  | threw =>
      rw [step] at ht
      split at ht
      · rename_i ops hstack
        cases ht
        refine hrest hshaped hacc (fun o ho => .inl ?_) rfl
        rw [hstack]
        exact List.mem_cons_of_mem _ (List.dropWhile_suffix _ |>.subset ho)
      · cases ht
  | go answers =>
      have haccepted := (go_onward ht).2.1
      refine ⟨hshaped, hacc, ?_, go_counted h.counted h.accounted ht, go_ended h.ended h.small h.accounted ht⟩
      rw [Small, haccepted]
      exact h.small
  | retryTimer =>
      rw [step] at ht
      split at ht
      · cases ht
        refine hrest hshaped hacc (fun o ho => .inr ?_) rfl
        obtain rfl := List.mem_singleton.mp ho
        rfl
      · cases ht
  | finishTimer =>
      rw [step] at ht
      split at ht
      · rename_i hcan
        cases ht
        have hended := h.ended.ended (.inr (.inl hcan.2))
        refine ⟨hshaped, hacc, h.small, ⟨h.counted.number, h.counted.size⟩,
          ⟨fun _ => hended, fun _ => h.ended.writable (.inl hended), h.ended.nothing, fun hany => h.ended.closing ?_⟩⟩
        exact hany.imp_left fun ho => by simp at ho
      · cases ht
  | readEnd =>
      rw [step] at ht
      split at ht
      · cases ht
        refine hrest hshaped hacc (fun o ho => .inr ?_) rfl
        simp only [List.mem_cons, List.not_mem_nil, or_false] at ho
        rcases ho with rfl | rfl <;> rfl
      · cases ht

theorem new_inv (highWaterMark : Nat) (allowHalfOpen : Bool) : (new highWaterMark allowHalfOpen).Inv where
  shaped := ⟨by simp [new], by simp [new], rfl, fun _ => rfl⟩
  accounted := ⟨.refl _, rfl, by simp [outbox, active, new], by simp [outbox, new]⟩
  small := by simp [Small, new]
  counted := ⟨rfl, rfl⟩
  ended := ⟨by simp [new], by simp [new], by simp [new], by simp [new]⟩

end ThreeVa.Js.Socket
