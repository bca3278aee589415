import ThreeVa.Js.Lemmas.Socket

/-!
# Order, and the timers that go on
-/

namespace ThreeVa.Js.Socket
open Text Relation

/-! ## Order -/

theorem unhurried_of {s t : Socket} (h : s.Unhurried) (hheld : t.held ≠ [] → s.held ≠ [])
    (hqueue : s.retry.isSome = true ∨ s.queue = [] → t.retry.isSome = true ∨ t.queue = []) : t.Unhurried :=
  fun ht => hqueue (h (hheld ht))

theorem flush_held (s : Socket) (x : Sending) (fate : Fate) : (s.flush x fate).held = s.held := by
  simp only [held, flush, List.flatMap_append]
  split
  · rfl
  · split <;> rfl

theorem write_unhurried {s : Socket} (h : s.Unhurried) (item : Item) (hclear : 0 < s.corked ∨ s.Clear) :
    (s.write item).Unhurried := by
  unfold write
  split
  · exact h
  · split
    · exact h
    · rename_i hcorked
      have hheld := (hclear.resolve_left hcorked).1
      intro hne
      refine absurd ?_ hne
      unfold run
      split
      · exact hheld
      · simpa [held, Op.held, accept] using hheld

theorem go_unhurried {s t : Socket} (hs : s.Shaped) (h : s.Unhurried) {answers : List WriteSome} (ht : s.go answers = some t) :
    t.Unhurried := by
  unfold go at ht
  split at ht
  · cases ht
  · cases ht
  · rename_i item ops hstack
    have hheld : s.held = ops.flatMap Op.held := by simp [held, hstack, Op.held]
    rcases start_frame ht with ⟨taken, left, rfl⟩ | ⟨taken, fate, rfl⟩
    · exact fun _ => .inl rfl
    · refine unhurried_of h (fun hne => ?_) id
      rw [flush_held] at hne
      rwa [hheld]
  · rename_i x ops hstack
    have hheld : s.held = ops.flatMap Op.held := by simp [held, hstack, Op.held]
    rcases attempt_frame ht with ⟨taken, left, rfl⟩ | ⟨taken, fate, rfl⟩
    · exact fun _ => .inl rfl
    · refine unhurried_of h (fun hne => ?_) id
      rw [flush_held] at hne
      rwa [hheld]
  · rename_i ops hstack
    split at ht <;> cases ht <;> exact unhurried_of h (by simp [held, hstack, Op.held]) id
  · rename_i ops hstack
    split at ht
    · rename_i item queue hqueue
      split at ht
      · cases ht
        rename_i hcan
        refine unhurried_of h ?_ fun hany => ?_
        · rw [run, if_neg hcan.1]
          simp [held, hstack, Op.held]
        · have hretry : s.retry.isSome = s.writing := by rw [(quiet_of_top hs hstack rfl).writing]
          rw [hretry, hqueue] at hany
          exact absurd hany (by simp [hcan.1])
      · cases ht
        exact unhurried_of h (by simp [held, hstack, Op.held]) id
    · cases ht
      exact unhurried_of h (by simp [held, hstack, Op.held]) id
  · rename_i ops hstack
    cases ht
    exact unhurried_of h (by simp [held, hstack, Op.held]) id
  · rename_i item items ops hstack
    cases ht
    have hne : s.held ≠ [] := by simp [held, hstack, Op.held]
    have hretry : s.writing = s.retry.isSome := (quiet_of_top hs hstack rfl).writing
    unfold run
    split
    · rename_i hwriting
      exact fun _ => .inl (hretry ▸ hwriting)
    · exact fun _ => h hne
  · rename_i ops hstack
    cases ht
    exact unhurried_of h (by simp [held, hstack, Op.held]) id
  · rename_i ops hstack
    split at ht <;> cases ht <;> exact unhurried_of h (by simp [held, hstack, Op.held]) id
  · rename_i ops hstack
    cases ht
    unfold maybeClose
    split <;> exact unhurried_of h (by simp [held, hstack, Op.held]) id
  · rename_i ops hstack
    split at ht
    · cases ht
      unfold maybeClose
      split <;> exact unhurried_of h (by simp [held, hstack, Op.held]) id
    · cases ht
      exact unhurried_of h (by simp [held, hstack, Op.held]) id

theorem step_unhurried {s t : Socket} {e : Event} (hs : s.Shaped) (h : s.Unhurried) (hfair : Fair s e)
    (ht : step s e = some t) : t.Unhurried := by
  cases e with
  | write chunk =>
      rw [step] at ht
      split at ht
      · cases ht
        exact write_unhurried h _ hfair
      · cases ht
  | endSocket chunk =>
      rw [step] at ht
      split at ht
      · cases ht
        unfold endSocket
        split
        · exact h
        · simp only
          split
          · exact unhurried_of h (by simp [held, Op.held]) id
          · split
            · exact @write_unhurried { s with writableEnded := true } h _ hfair
            · exact unhurried_of h (by simp [held, Op.held]) id
      · cases ht
  | cork | destroy =>
      rw [step] at ht
      split at ht
      · cases ht
        exact h
      · cases ht
  | uncork =>
      rw [step] at ht
      split at ht
      · rename_i hscript
        cases ht
        have hretry : s.writing = s.retry.isSome := (hs.quiet (hs.settled hscript)).writing
        have hany : s.retry.isSome = true ∨ s.queue = [] := hretry ▸ hfair.2
        unfold uncork
        split
        · exact fun _ => hany
        · exact h
      · cases ht
  | returned =>
      rw [step] at ht
      split at ht
      · rename_i ops hstack
        cases ht
        exact unhurried_of h (by simp [held, hstack, Op.held]) id
      · cases ht
  | threw =>
      rw [step] at ht
      split at ht
      · rename_i ops hstack
        cases ht
        refine unhurried_of h (fun hne hnil => hne ?_) id
        have hall : ops.flatMap Op.held = [] := by simpa [held, hstack, Op.held] using hnil
        rw [unwind_held] at hall
        exact (List.append_eq_nil_iff.mp hall).2
      · cases ht
  | go answers => exact go_unhurried hs h ht
  | retryTimer | finishTimer | readEnd =>
      rw [step] at ht
      split at ht
      · cases ht
        exact fun hne => absurd rfl hne
      · cases ht

/-- What holds besides where no chunk overtakes another. -/
structure Lined (s : Socket) : Prop where
  unhurried : s.Unhurried
  inOrder : s.outbox.InOrder

theorem step_lined {s t : Socket} {e : Event} (hs : s.Inv) (h : s.Lined) (hfair : Fair s e) (ht : step s e = some t) :
    t.Lined :=
  ⟨step_unhurried hs.shaped h.unhurried hfair ht,
    Outbox.inOrder_of_steps (@step_steps True _ _ _ hs.shaped hs.small hs.accounted (fun _ => ⟨h.unhurried, hfair⟩) ht).1
      h.inOrder⟩

theorem new_lined (highWaterMark : Nat) (allowHalfOpen : Bool) : (new highWaterMark allowHalfOpen).Lined :=
  ⟨fun hne => absurd rfl hne, fun _ => rfl⟩

/-! ## Progress -/

/-- A chunk of the queue waits for the timer, for a callback or for `uncork`. -/
def Moving (s : Socket) : Prop := s.queue ≠ [] → 0 < s.corked ∨ s.writing = true ∨ .nextQueued ∈ s.stack

/-- Who was told to wait is told to go on as soon as less is pending. -/
def Draining (s : Socket) : Prop := s.needDrain = true → s.highWaterMark ≤ s.length ∨ .drainCheck ∈ s.stack

/-- No listener and no callback throws. -/
def Calm : Event → Prop
  | .threw => False
  | _ => True

instance : (e : Event) → Decidable (Calm e)
  | .threw => .isFalse id
  | .write _ | .endSocket _ | .cork | .uncork | .destroy | .returned | .go _ | .retryTimer | .finishTimer | .readEnd =>
      .isTrue trivial

theorem write_moving {s : Socket} (h : s.Moving) (item : Item) : (s.write item).Moving := by
  unfold write
  split
  · exact h
  · split
    · rename_i hcorked
      exact fun _ => .inl hcorked
    · unfold run
      split
      · rename_i hwriting
        exact fun _ => .inr (.inl hwriting)
      · exact fun _ => .inr (.inl rfl)

/-- What holds of the queue or of `needDrain` still does without a call that is not about it. -/
theorem moving_of {s t : Socket} (h : s.Moving) (hsame : (t.queue, t.corked, t.writing) = (s.queue, s.corked, s.writing))
    (hstack : .nextQueued ∈ s.stack → .nextQueued ∈ t.stack) : t.Moving := by
  simp only [Prod.mk.injEq] at hsame
  obtain ⟨hqueue, hcorked, hwriting⟩ := hsame
  rw [Moving, hqueue, hcorked, hwriting]
  exact fun hne => (h hne).imp_right (Or.imp_right hstack)

theorem draining_of {s t : Socket} (h : s.Draining)
    (hsame : (t.needDrain, t.highWaterMark, t.length) = (s.needDrain, s.highWaterMark, s.length))
    (hstack : .drainCheck ∈ s.stack → .drainCheck ∈ t.stack) : t.Draining := by
  simp only [Prod.mk.injEq] at hsame
  obtain ⟨hneed, hmark, hlength⟩ := hsame
  rw [Draining, hneed, hmark, hlength]
  exact fun hne => (h hne).imp_right hstack

theorem flush_moving (s : Socket) (x : Sending) (fate : Fate) : (s.flush x fate).Moving := by
  refine fun _ => .inr (.inr ?_)
  simp only [flush]
  split <;> simp

theorem flush_draining (s : Socket) (x : Sending) {fate : Fate} (hfate : fate ≠ .failed) : (s.flush x fate).Draining := by
  refine fun _ => .inr ?_
  simp only [flush, if_neg hfate]
  simp

/-- No callback was called with an error. -/
def NoFailure (s : Socket) : Prop := ∀ f ∈ s.log, f.fate ≠ .failed

theorem write_draining {s : Socket} (h : s.Draining) (item : Item) : (s.write item).Draining := by
  have haccept : (s.accept item).Draining := by
    intro hneed
    simp only [accept, Bool.or_eq_true, Bool.not_eq_true', decide_eq_false_iff_not] at hneed ⊢
    rcases hneed with hneed | hneed
    · rcases h hneed with hle | hmem
      · exact .inl (by omega)
      · exact .inr hmem
    · exact .inl (by omega)
  unfold write
  split
  · exact h
  · split
    · exact haccept
    · unfold run
      split
      · exact haccept
      · exact draining_of haccept rfl (List.mem_cons_of_mem _)

theorem go_progress {s t : Socket} (h : s.Moving) {answers : List WriteSome} (ht : s.go answers = some t) :
    t.Moving ∧ (s.Draining → t.NoFailure → t.Draining) := by
  -- the top of the stack has nothing to do with either
  have hpop : ∀ {op : Op} {ops ops' : List Op} {t : Socket}, s.stack = op :: ops → op ≠ .nextQueued → op ≠ .drainCheck →
      t.stack = ops' ++ ops → (t.queue, t.corked, t.writing) = (s.queue, s.corked, s.writing) →
      (t.needDrain, t.highWaterMark, t.length) = (s.needDrain, s.highWaterMark, s.length) →
      t.Moving ∧ (s.Draining → t.NoFailure → t.Draining) := by
    intro op ops ops' t hstack hqueued hcheck htstack hsame hsame'
    refine ⟨moving_of h hsame fun ho => ?_, fun hd _ => draining_of hd hsame' fun ho => ?_⟩
    · rw [hstack] at ho
      rw [htstack]
      exact List.mem_append_right _ ((List.mem_cons.mp ho).resolve_left fun heq => hqueued heq.symm)
    · rw [hstack] at ho
      rw [htstack]
      exact List.mem_append_right _ ((List.mem_cons.mp ho).resolve_left fun heq => hcheck heq.symm)
  have hflush : ∀ {s' : Socket} {x : Sending} {fate : Fate},
      (s'.flush x fate).Moving ∧ (s.Draining → (s'.flush x fate).NoFailure → (s'.flush x fate).Draining) := fun {s' x fate} =>
    ⟨flush_moving s' x fate, fun _ hno => flush_draining s' x (hno _ (by simp only [flush]; exact List.mem_append_right _ (List.mem_singleton_self _)))⟩
  unfold go at ht
  split at ht
  · cases ht
  · cases ht
  · rename_i item ops hstack
    rcases start_frame ht with ⟨taken, left, rfl⟩ | ⟨taken, fate, rfl⟩
    · exact @hpop _ _ [] _ hstack (by simp) (by simp) rfl rfl rfl
    · exact hflush
  · rename_i x ops hstack
    rcases attempt_frame ht with ⟨taken, left, rfl⟩ | ⟨taken, fate, rfl⟩
    · exact @hpop _ _ [] _ hstack (by simp) (by simp) rfl rfl rfl
    · exact hflush
  · rename_i ops hstack
    have hqueued : .nextQueued ∈ s.stack → .nextQueued ∈ ops := fun ho => by simpa [hstack] using ho
    split at ht
    · cases ht
      exact ⟨moving_of h rfl hqueued, fun _ _ hneed => by simp at hneed⟩
    · rename_i hnot
      cases ht
      refine ⟨moving_of h rfl hqueued, fun _ _ hneed => .inl ?_⟩
      by_contra hlt
      exact hnot ⟨hneed, by simpa using hlt⟩
  · rename_i ops hstack
    have hcheck : .drainCheck ∈ s.stack → .drainCheck ∈ ops := fun ho => by simpa [hstack] using ho
    split at ht
    · split at ht
      · rename_i hcan
        cases ht
        rw [run, if_neg hcan.1]
        exact ⟨fun _ => .inr (.inl rfl), fun hd _ => draining_of hd rfl fun ho => List.mem_cons_of_mem _ (hcheck ho)⟩
      · rename_i hnot
        cases ht
        refine ⟨fun _ => ?_, fun hd _ => draining_of hd rfl hcheck⟩
        by_cases hwriting : s.writing = true
        · exact .inr (.inl hwriting)
        · exact .inl (Nat.pos_of_ne_zero fun hzero => hnot ⟨hwriting, hzero⟩)
    · rename_i hnil
      cases ht
      exact ⟨fun hne => absurd hnil hne, fun hd _ => draining_of hd rfl hcheck⟩
  · rename_i ops hstack
    cases ht
    exact @hpop _ _ [] _ hstack (by simp) (by simp) rfl rfl rfl
  · rename_i item items ops hstack
    cases ht
    have hcheck : .drainCheck ∈ s.stack → .drainCheck ∈ ops := fun ho => by simpa [hstack] using ho
    unfold run
    split
    · rename_i hwriting
      exact ⟨fun _ => .inr (.inl hwriting), fun hd _ => draining_of hd rfl fun ho => List.mem_cons_of_mem _ (hcheck ho)⟩
    · exact ⟨fun _ => .inr (.inl rfl), fun hd _ => draining_of hd rfl fun ho =>
        List.mem_cons_of_mem _ (List.mem_cons_of_mem _ (hcheck ho))⟩
  · rename_i ops hstack
    cases ht
    exact @hpop _ _ [.finish] _ hstack (by simp) (by simp) rfl rfl rfl
  · rename_i ops hstack
    split at ht
    · cases ht
      exact @hpop _ _ [] _ hstack (by simp) (by simp) rfl rfl rfl
    · cases ht
      exact @hpop _ _ [.script, .halfClose] _ hstack (by simp) (by simp) rfl rfl rfl
  · rename_i ops hstack
    cases ht
    unfold maybeClose
    split <;> exact @hpop _ _ [.script] _ hstack (by simp) (by simp) rfl rfl rfl
  · rename_i ops hstack
    split at ht
    · cases ht
      unfold maybeClose
      split <;> exact @hpop _ _ [] _ hstack (by simp) (by simp) rfl rfl rfl
    · cases ht
      exact @hpop _ _ [] _ hstack (by simp) (by simp) rfl rfl rfl

theorem step_progress {s t : Socket} {e : Event} (h : s.Moving) (hfair : Fair s e) (hcalm : Calm e)
    (ht : step s e = some t) : t.Moving ∧ (s.Draining → t.NoFailure → t.Draining) := by
  cases e with
  | write chunk =>
      rw [step] at ht
      split at ht
      · cases ht
        exact ⟨write_moving h _, fun hd _ => write_draining hd _⟩
      · cases ht
  | endSocket chunk =>
      rw [step] at ht
      split at ht
      · cases ht
        unfold endSocket
        split
        · exact ⟨h, fun hd _ => hd⟩
        · simp only
          split
          · exact ⟨moving_of h rfl (List.mem_cons_of_mem _), fun hd _ => draining_of hd rfl (List.mem_cons_of_mem _)⟩
          · split
            · exact ⟨@write_moving { s with writableEnded := true } h _,
                fun hd _ => @write_draining { s with writableEnded := true } hd _⟩
            · exact ⟨moving_of h rfl (List.mem_cons_of_mem _), fun hd _ => draining_of hd rfl (List.mem_cons_of_mem _)⟩
      · cases ht
  | cork =>
      rw [step] at ht
      split at ht
      · cases ht
        exact ⟨fun _ => .inl (Nat.succ_pos _), fun hd _ => hd⟩
      · cases ht
  | destroy =>
      rw [step] at ht
      split at ht
      · cases ht
        exact ⟨h, fun hd _ => hd⟩
      · cases ht
  | uncork =>
      rw [step] at ht
      split at ht
      · cases ht
        unfold uncork
        split
        · exact ⟨fun hne => .inr (.inl (hfair.2.resolve_right hne)), fun hd _ => draining_of hd rfl (List.mem_cons_of_mem _)⟩
        · exact ⟨fun hne => .inr (.inl (hfair.2.resolve_right hne)), fun hd _ => hd⟩
      · cases ht
  | returned =>
      rw [step] at ht
      split at ht
      · rename_i ops hstack
        cases ht
        exact ⟨moving_of h rfl fun ho => by simpa [hstack] using ho,
          fun hd _ => draining_of hd rfl fun ho => by simpa [hstack] using ho⟩
      · cases ht
  | threw => exact absurd hcalm id
  | go answers => exact go_progress h ht
  | retryTimer =>
      rw [step] at ht
      split at ht
      · rename_i hstack _
        cases ht
        exact ⟨moving_of h rfl fun ho => by simp [hstack] at ho, fun hd _ => draining_of hd rfl fun ho => by simp [hstack] at ho⟩
      · cases ht
  | finishTimer | readEnd =>
      rw [step] at ht
      split at ht
      · rename_i hcan
        cases ht
        exact ⟨moving_of h rfl fun ho => by simp [hcan.1] at ho, fun hd _ => draining_of hd rfl fun ho => by simp [hcan.1] at ho⟩
      · cases ht

/-- Only an exception leaves a loop of `uncork`. -/
theorem step_abandoned {s t : Socket} {e : Event} (hcalm : Calm e) (ht : step s e = some t) :
    t.abandoned = s.abandoned := by
  have hwrite : ∀ (s : Socket) (item : Item), (s.write item).abandoned = s.abandoned := by
    intro s item
    unfold write
    split
    · rfl
    · split
      · rfl
      · unfold run
        split <;> rfl
  cases e with
  | write chunk =>
      rw [step] at ht
      split at ht
      · cases ht
        exact hwrite s _
      · cases ht
  | endSocket chunk =>
      rw [step] at ht
      split at ht
      · cases ht
        unfold endSocket
        split
        · rfl
        · simp only
          split
          · rfl
          · split
            · exact hwrite _ _
            · rfl
      · cases ht
  | uncork =>
      rw [step] at ht
      split at ht
      · cases ht
        unfold uncork
        split <;> rfl
      · cases ht
  | threw => exact absurd hcalm id
  | go answers => exact (go_onward ht).2.2
  | cork | destroy | returned | retryTimer | finishTimer | readEnd =>
      rw [step] at ht
      split at ht
      · cases ht
        rfl
      · cases ht

/-! ## After the end -/

theorem step_onward {s t : Socket} {e : Event} (ht : step s e = some t) : Onward s t := by
  have hwrite : ∀ (s : Socket) (item : Item), Onward s (s.write item) := by
    intro s item
    unfold write
    split
    · exact .of_eq rfl
    · split
      · exact .of_eq rfl
      · unfold run
        split <;> exact .of_eq rfl
  cases e with
  | write chunk =>
      rw [step] at ht
      split at ht
      · cases ht
        exact hwrite s _
      · cases ht
  | endSocket chunk =>
      rw [step] at ht
      split at ht
      · cases ht
        unfold endSocket
        split
        · exact .of_eq rfl
        · simp only
          split
          · exact .of_eq rfl
          · split
            · rename_i c
              have hsame := hwrite { s with writableEnded := true } ⟨c, true⟩
              exact ⟨hsame.log, hsame.finished, hsame.shutdownWrite, hsame.idle⟩
            · exact .of_eq rfl
      · cases ht
  | uncork =>
      rw [step] at ht
      split at ht
      · cases ht
        unfold uncork
        split <;> exact .of_eq rfl
      · cases ht
  | go answers => exact (go_onward ht).1
  | cork | destroy | returned | threw | retryTimer | finishTimer | readEnd =>
      rw [step] at ht
      split at ht
      · cases ht
        exact .of_eq rfl
      · cases ht

/-- What is pending: the chunk that is sent, those that wait, and those that never will be. -/
def pending (s : Socket) : List Item :=
  (s.active.map Sending.item).toList ++ (s.queue ++ s.held ++ s.buffered) ++ s.abandoned

theorem Inv.perm {s : Socket} (h : s.Inv) : s.accepted.Perm (s.log.map Flushed.item ++ s.pending) := by
  have hperm := h.accounted.all
  simp only [outbox, Outbox.pending, List.map_map, Option.map_map] at hperm
  simpa [pending, Function.comp_def, List.append_assoc] using hperm

theorem Inv.pendingcb {s : Socket} (h : s.Inv) : s.pendingcb = s.pending.length := by
  have hlength := h.perm.length_eq
  have hnumber := h.counted.number
  rw [List.length_append, List.length_map] at hlength
  omega

theorem Inv.length {s : Socket} (h : s.Inv) : s.length = (s.pending.map fun i => i.data.length).sum := by
  have hsum := (h.perm.map fun i : Item => i.data.length).sum_nat
  have hsize := h.counted.size
  rw [List.map_append, List.sum_append, List.map_map] at hsum
  simp only [Function.comp_def] at hsum
  omega

theorem Inv.over {s : Socket} (h : s.Inv) (hfinished : s.finished = true) : s.pending = [] :=
  List.length_eq_zero_iff.mp (h.pendingcb.symm.trans (h.ended.nothing hfinished))

theorem active_none {s : Socket} (h : s.pending = []) : s.active = none := by
  cases hactive : s.active with
  | none => rfl
  | some x => simp [pending, hactive] at h

/-- Nothing is taken after the end, and nothing is sent. -/
theorem step_over {s t : Socket} {e : Event} (h : s.Inv) (hfinished : s.finished = true) (ht : step s e = some t) :
    t.finished = true ∧ (t.accepted, t.log, t.wire) = (s.accepted, s.log, s.wire) := by
  have honward := step_onward ht
  obtain ⟨hlog, hwire⟩ := Prod.mk.inj (honward.idle (active_none (h.over hfinished)))
  refine ⟨honward.finished hfinished, ?_⟩
  rw [hlog, hwire]
  have hended := h.ended.ended (.inr (.inr hfinished))
  have hwritable := h.ended.writable (.inl hended)
  have haccepted : t.accepted = s.accepted := by
    cases e with
    | write chunk =>
        rw [step] at ht
        split at ht
        · cases ht
          rw [write, if_pos hended]
        · cases ht
    | endSocket chunk =>
        rw [step] at ht
        split at ht
        · cases ht
          rw [endSocket, if_pos hwritable]
        · cases ht
    | uncork =>
        rw [step] at ht
        split at ht
        · cases ht
          unfold uncork
          split <;> rfl
        · cases ht
    | go answers => exact (go_onward ht).2.1
    | cork | destroy | returned | threw | retryTimer | finishTimer | readEnd =>
        rw [step] at ht
        split at ht
        · cases ht
          rfl
        · cases ht
  rw [haccepted]

theorem Inv.wire {s : Socket} (h : s.Inv) : s.wire = s.log.flatMap Flushed.taken ++ (s.active.map Sending.taken).getD [] := by
  simpa [outbox, List.flatMap_map, Function.comp_def] using h.accounted.wire

/-- The bytes that went out and those that are left, where no chunk was given up. -/
theorem Lined.bytes {s : Socket} (h : s.Lined) (hinv : s.Inv) (hsent : ∀ f ∈ s.log, f.fate = .sent) (hlost : s.abandoned = []) :
    s.wire ++ ((s.active.map Sending.left).getD [] ++ (s.queue ++ s.held ++ s.buffered).flatMap Item.data) =
        s.accepted.flatMap Item.data ∧
      (s.shutdownWrite = true → s.wire = s.accepted.flatMap Item.data) := by
  have hall := h.inOrder.wire hinv.accounted hlost fun d hd => by
    obtain ⟨f, hf, rfl⟩ := List.mem_map.mp hd
    simpa using hsent f hf
  have hbytes : s.wire ++ ((s.active.map Sending.left).getD [] ++ (s.queue ++ s.held ++ s.buffered).flatMap Item.data) =
      s.accepted.flatMap Item.data := by
    simpa [outbox, Function.comp_def] using hall
  refine ⟨hbytes, fun hshutdown => ?_⟩
  have hpending := hinv.over (hinv.ended.closing (.inr hshutdown))
  have hwaiting : s.queue ++ s.held ++ s.buffered = [] :=
    (List.append_eq_nil_iff.mp (List.append_eq_nil_iff.mp hpending).1).2
  rw [active_none hpending, hwaiting] at hbytes
  simpa using hbytes

/-! ## Runs -/

theorem run_inv {highWaterMark : Nat} {allowHalfOpen : Bool} {events : List Event} {s : Socket}
    (hrun : Runs.exec step (new highWaterMark allowHalfOpen) events = some s) (hbrief : ∀ e ∈ events, Brief e) : s.Inv :=
  Runs.exec_invariant (fun _ _ _ h hb hstep => step_inv h hb hstep) (new_inv highWaterMark allowHalfOpen)
    (Runs.along_of_forall hbrief _) hrun

theorem run_lined {highWaterMark : Nat} {allowHalfOpen : Bool} {events : List Event} {s : Socket}
    (hrun : Runs.exec step (new highWaterMark allowHalfOpen) events = some s) (hbrief : ∀ e ∈ events, Brief e)
    (hfair : Runs.Along step Fair (new highWaterMark allowHalfOpen) events) : s.Inv ∧ s.Lined :=
  @Runs.exec_invariant _ _ step (fun u e => Brief e ∧ Fair u e) (fun u => u.Inv ∧ u.Lined)
    (fun _ _ _ h hC hstep => ⟨step_inv h.1 hC.1 hstep, step_lined h.1 h.2 hC.2 hstep⟩) _ _ _
    ⟨new_inv highWaterMark allowHalfOpen, new_lined highWaterMark allowHalfOpen⟩
    ((Runs.along_of_forall hbrief _).and hfair) hrun

end ThreeVa.Js.Socket
