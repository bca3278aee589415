import ThreeVa.Js.WebSocket

/-!
# Lock discipline

In a run without nested calls a thread is at one point at most, and the lock is held where the points say so.
-/

namespace ThreeVa.Js.WebSocket

variable {ω : Type}

/-! ## Steps within a call -/

/-- The rank of the point to which a call goes on. -/
def outcomeRank : Except Reply (Point ω) → Nat × Nat
  | .ok p => p.rank
  | .error _ => (0, 0)

/-- What a step within a call does to the pool, to the guard and to what is left of the call. -/
structure Within (pool : Pool ω) (p : Point ω) (a : Action ω) (e : Effect ω) : Prop where
  pool : p.holds = false → e.pool = pool
  guard : ∀ p', e.outcome = .ok p' → p'.holds = true → p.holds = true
  usual : a.ordinary = true → ∀ id reply, e.outcome ≠ .ok (.locking (.remove id reply))
  nearer : a.advances = true → a.ordinary = true → Prod.Lex (· < ·) (· < ·) (outcomeRank e.outcome) p.rank

variable {pool : Pool ω} {nextId : Id} {p : Point ω} {a : Action ω} {e : Effect ω}

theorem Within.returns {reply : Reply} {pool' : Pool ω} (hpool : p.holds = false → pool' = pool)
    (hrank : 0 < p.rank.1 ∨ p.rank.1 = 0 ∧ 0 < p.rank.2) : Within pool p a ⟨pool', nextId, .error reply⟩ where
  pool := hpool
  guard p' hp' := by cases hp'
  usual _ id reply h := by cases h
  nearer _ _ := Prod.lex_def.mpr (hrank.imp_right fun h => ⟨h.1.symm, h.2⟩)

theorem Within.goesOn {p' : Point ω} (hguard : p'.holds = true → p.holds = true)
    (husual : a.ordinary = true → ∀ id reply, p' ≠ .locking (.remove id reply))
    (hnearer : a.advances = true → a.ordinary = true → Prod.Lex (· < ·) (· < ·) p'.rank p.rank) :
    Within pool p a ⟨pool, nextId, .ok p'⟩ where
  pool _ := rfl
  guard q hq := by
    cases hq
    exact hguard
  usual ha id reply h := husual ha id reply (Except.ok.inj h)
  nearer := hnearer

theorem within_leave {use : Use ω} (h : use.leave pool nextId = some e) : Within pool (.inside use) .leave e := by
  cases use with
  | drain id ids =>
      cases h
      exact { pool := fun h => by cases h
              guard := fun _ _ _ => rfl
              usual := fun _ _ _ h => by cases h
              nearer := fun _ _ => .right _ (by omega) }
  | insert | remove | close | clear =>
      cases h
      exact .returns (fun h => by cases h) (.inr ⟨rfl, Nat.zero_lt_succ _⟩)
  | send | recv | keys => cases h

theorem within_read (id : Id) (frame : Frame) :
    Within pool (.inside (.recv id)) (.read frame) ⟨pool, nextId, received id frame⟩ := by
  rcases frame with error | message
  · exact .goesOn (fun _ => rfl) (fun h => by cases h) fun _ h => by cases h
  · cases message with
    | text | binary => exact .returns (fun _ => rfl) (.inr ⟨rfl, Nat.zero_lt_succ _⟩)
    | ping | pong | frame => exact .goesOn (fun _ => rfl) (fun _ _ _ h => by cases h) fun h => by cases h
    | close => exact .goesOn (fun _ => rfl) (fun h => by cases h) fun _ h => by cases h

theorem within_advance (h : advance pool nextId p a = some e) : Within pool p a e := by
  unfold advance at h
  split at h
  · cases h
    exact .goesOn (fun h => by cases h) (fun _ _ _ h => by cases h) fun _ _ => .left _ _ Nat.zero_lt_one
  · cases h
    exact .returns (fun _ => rfl) (.inl Nat.zero_lt_one)
  · cases h
    exact .returns (fun _ => rfl) (.inr ⟨rfl, Nat.zero_lt_succ _⟩)
  · cases h
    exact .goesOn (fun _ => rfl) (fun _ _ _ h => by cases h) fun _ _ => .right _ (Nat.lt_succ_self _)
  · cases h
    exact within_read _ _
  · split at h
    · cases h
      exact .goesOn (fun h => by cases h) (fun _ _ _ h => by cases h) fun _ _ => .left _ _ Nat.zero_lt_one
    · cases h
  · exact within_leave h
  · cases h
    exact .returns (fun _ => rfl) (.inr ⟨rfl, Nat.zero_lt_one⟩)
  · cases h
    rename_i late
    cases late with
    | true =>
        exact .goesOn (fun h => by cases h) (fun _ _ _ h => by cases h) fun _ _ => .right _ (Nat.le_add_left _ _)
    | false =>
        refine .goesOn (fun h => by cases h) (fun _ _ _ h => by cases h) fun _ _ => .right _ ?_
        rw [List.length_cons]
        omega
  · cases h
    exact .goesOn (fun h => by cases h) (fun _ _ _ h => by cases h) fun _ _ => .right _ (Nat.lt_succ_self _)
  · cases h

/-- A call that does not wait for the lock can go on. -/
theorem exists_advance (pool : Pool ω) (nextId : Id) (h : ∀ use, p ≠ .locking use) :
    ∃ a e, a.advances = true ∧ a.ordinary = true ∧ advance pool nextId p a = some e := by
  cases p with
  | connect => exact ⟨.refused [], _, rfl, rfl, rfl⟩
  | locking use => exact absurd rfl (h use)
  | throwing message => exact ⟨.leave, _, rfl, rfl, rfl⟩
  | pausing ids =>
      cases ids with
      | nil => exact ⟨.wake false, _, rfl, rfl, rfl⟩
      | cons id ids => exact ⟨.wake false, _, rfl, rfl, rfl⟩
  | inside use =>
      cases use with
      | send id => exact ⟨.sent none, _, rfl, rfl, rfl⟩
      | recv id => exact ⟨.read (.ok (.text [])), _, rfl, rfl, rfl⟩
      | keys =>
          have hperm : (pool.list.map Prod.fst).isPerm (pool.list.map Prod.fst) = true := List.isPerm_iff.mpr (.refl _)
          exact ⟨.collect (pool.list.map Prod.fst), _, rfl, rfl, if_pos hperm⟩
      | insert | remove | close | drain | clear => exact ⟨.leave, _, rfl, rfl, rfl⟩

theorem advance_acquire : advance pool nextId p .acquire = none := by
  cases p with
  | connect | locking | throwing => rfl
  | pausing ids => cases ids <;> rfl
  | inside use => cases use <;> rfl

/-! ## Steps of a thread -/

variable {s s' : State ω} {t u : Thread}

/-- A thread is at one point at most, and it holds the lock there or not. -/
structure Guarded (s : State ω) : Prop where
  single : ∀ t, (s.stack t).length ≤ 1
  guard : ∀ t, s.holder = some t ↔ ∃ p ∈ s.stack t, p.holds = true

theorem Guarded.stack_eq (hs : Guarded s) {rest : List (Point ω)} (h : s.stack t = p :: rest) : s.stack t = [p] := by
  have hsingle := hs.single t
  rw [h, List.length_cons] at hsingle
  rw [h, List.length_eq_zero_iff.mp (by omega : rest.length = 0)]

theorem Guarded.holder_iff (hs : Guarded s) (h : s.stack t = [p]) : s.holder = some t ↔ p.holds = true := by
  rw [hs.guard, h]
  simp

/-- A step without nested calls. -/
inductive Taken (s : State ω) (t : Thread) : Action ω → State ω → Prop
  | call (c : Call) (h : s.stack t = []) : Taken s t (.call c) (s.setStack t [c.start])
  | acquire (use : Use ω) (h : s.stack t = [.locking use]) (hfree : s.holder = none) :
      Taken s t .acquire { s.setStack t [use.enter s.pool] with holder := some t }
  | within (p : Point ω) (a : Action ω) (e : Effect ω) (h : s.stack t = [p])
      (ha : advance s.pool s.nextId p a = some e) : Taken s t a (s.settle t p [] e)

theorem Guarded.taken (hs : Guarded s) (hunnested : State.Unnested s (t, a)) (h : s.step (t, a) = some s') :
    Taken s t a s' := by
  unfold State.step at h
  split at h
  · rename_i hx
    cases hx
    split at h
    · cases h
      have hempty : s.stack t = [] := hunnested
      rw [hempty]
      exact .call _ hempty
    · cases h
  · rename_i hx
    cases hx
    split at h
    · rename_i hstack hholder
      cases h
      have hsingle := hs.stack_eq hstack
      rw [hsingle] at hstack
      cases hstack
      exact .acquire _ hsingle hholder
    · cases h
  · rename_i hx
    cases hx
    split at h
    · rename_i hstack
      obtain ⟨e, he, rfl⟩ := Option.map_eq_some_iff.mp h
      have hsingle := hs.stack_eq hstack
      rw [hsingle] at hstack
      cases hstack
      exact .within _ _ _ hsingle he
    · cases h

/-- A step within a call from a single point. -/
theorem step_within (h : s.stack t = [p]) (hcall : a.advances = true) (ha : advance s.pool s.nextId p a = some e) :
    s.step (t, a) = some (s.settle t p [] e) := by
  cases a with
  | call c => cases hcall
  | acquire =>
      rw [advance_acquire] at ha
      cases ha
  | _ =>
      simp only [State.step, h, ha]
      rfl

theorem settle_pool : (s.settle t p [] e).pool = e.pool := by
  unfold State.settle
  cases e.outcome <;> rfl

theorem settle_ok {p' : Point ω} (h : e.outcome = .ok p') :
    (s.settle t p [] e).stack = Function.update s.stack t [p'] ∧
      (s.settle t p [] e).holder = if p.holds && !p'.holds then none else s.holder := by
  simp [State.settle, State.setStack, h]

theorem settle_error {reply : Reply} (h : e.outcome = .error reply) :
    (s.settle t p [] e).stack = Function.update s.stack t [] ∧
      (s.settle t p [] e).holder = if p.holds then none else s.holder := by
  simp [State.settle, State.setStack, h]

/-- A thread moves to points where the lock is taken or kept, or to points where it is not held. -/
theorem Guarded.update (hs : Guarded s) {points : List (Point ω)} (hstack : s'.stack = Function.update s.stack t points)
    (hlength : points.length ≤ 1)
    (hholder : (∃ p ∈ points, p.holds = true) ∧ s'.holder = some t ∧ (s.holder = none ∨ s.holder = some t) ∨
      (¬∃ p ∈ points, p.holds = true) ∧ s'.holder = if s.holder = some t then none else s.holder) : Guarded s' where
  single u := by
    rw [hstack, Function.update_apply]
    split
    · exact hlength
    · exact hs.single u
  guard u := by
    rw [hstack, Function.update_apply]
    split
    · rename_i hu
      subst hu
      rcases hholder with ⟨hholds, htaken, -⟩ | ⟨hfree, hleft⟩
      · exact iff_of_true htaken hholds
      · refine iff_of_false (fun h => ?_) hfree
        rw [hleft] at h
        split at h
        · cases h
        · exact absurd h ‹_›
    · rename_i hu
      rw [← hs.guard u]
      rcases hholder with ⟨-, htaken, hfree | hkept⟩ | ⟨-, hleft⟩
      · simp [htaken, hfree, Ne.symm hu]
      · rw [htaken, hkept]
      · rw [hleft]
        split
        · simp [*, Ne.symm hu]
        · rfl

theorem holds_enter (use : Use ω) : (use.enter pool).holds = true := by
  unfold Use.enter
  split
  · split <;> rfl
  · split <;> rfl
  · rfl

theorem Taken.guarded (h : Taken s t a s') (hs : Guarded s) : Guarded s' := by
  cases h with
  | call c hstack =>
      have hholder : s.holder ≠ some t := by
        rw [ne_eq, hs.guard, hstack]
        simp
      refine hs.update rfl (Nat.le_refl 1) (.inr ⟨?_, ?_⟩)
      · cases c <;> simp [Call.start, Point.holds]
      · exact (if_neg hholder).symm
  | acquire use hstack hfree =>
      exact hs.update rfl (Nat.le_refl 1) (.inl ⟨⟨_, List.mem_singleton.mpr rfl, holds_enter use⟩, rfl, .inl hfree⟩)
  | within p a e hstack ha =>
      have hp := hs.holder_iff hstack
      have hguard := (within_advance ha).guard
      cases he : e.outcome with
      | error reply =>
          obtain ⟨hnext, hholder⟩ := @settle_error _ p _ s t _ he
          refine hs.update hnext (Nat.zero_le 1) (.inr ⟨by simp, ?_⟩)
          rw [hholder, if_congr hp.symm rfl rfl]
      | ok p' =>
          obtain ⟨hnext, hholder⟩ := @settle_ok _ p _ s t _ he
          cases hp' : p'.holds with
          | true =>
              have hkept := hp.mpr (hguard p' he hp')
              refine hs.update hnext (Nat.le_refl 1) (.inl ⟨⟨p', List.mem_singleton.mpr rfl, hp'⟩, ?_, .inr hkept⟩)
              rw [hholder, hp', if_neg (by simp), hkept]
          | false =>
              refine hs.update hnext (Nat.le_refl 1) (.inr ⟨by simp [hp'], ?_⟩)
              rw [hholder, hp', Bool.not_false, Bool.and_true, if_congr hp.symm rfl rfl]

theorem guarded_start (pool : Pool ω) (nextId : Id) : Guarded (.start pool nextId) where
  single _ := Nat.zero_le 1
  guard t := by simp [State.start]

/-- No thread asks for a second guard. -/
def Usual (s : State ω) : Prop := ∀ t id reply, s.stack t ≠ [.locking (.remove id reply)]

theorem Usual.update (hs : Usual s) {points : List (Point ω)} (hstack : s'.stack = Function.update s.stack t points)
    (hpoints : ∀ id reply, points ≠ [.locking (.remove id reply)]) : Usual s' := by
  intro u id reply
  rw [hstack, Function.update_apply]
  split
  · exact hpoints id reply
  · exact hs u id reply

theorem Taken.usual (h : Taken s t a s') (ha : a.ordinary = true) (hs : Usual s) : Usual s' := by
  cases h with
  | call c hstack =>
      refine hs.update rfl fun id reply => ?_
      cases c <;> simp [Call.start]
  | acquire use hstack hfree =>
      refine hs.update rfl fun id reply h => ?_
      have hholds := congrArg (List.map Point.holds) h
      cases use <;> simp [Use.enter] at h <;> split at h <;> cases h
  | within p a e hstack hadvance =>
      cases he : e.outcome with
      | error reply => exact hs.update (settle_error he).1 fun _ _ h => by cases h
      | ok p' =>
          refine hs.update (settle_ok he).1 fun id reply h => ?_
          exact (within_advance hadvance).usual ha id reply (he.trans (congrArg _ (List.cons.inj h).1))

/-! ## Promises -/

theorem Guarded.free (hs : Guarded s) (husual : Usual s) (hlocking : s.Locking t) : s.holder ≠ some t := by
  obtain ⟨use, rest, hstack⟩ := hlocking
  have hsingle := hs.stack_eq hstack
  intro hholder
  have hholds := (hs.holder_iff hsingle).mp hholder
  cases use with
  | remove id reply => exact husual t id reply hsingle
  | _ => cases hholds

theorem goesOn (hstack : s.stack t = [p]) (h : ∀ use, p ≠ .locking use) :
    ∃ a s', a.advances = true ∧ a.ordinary = true ∧ s.step (t, a) = some s' := by
  obtain ⟨a, e, hadvances, hordinary, ha⟩ := exists_advance s.pool s.nextId h
  exact ⟨a, _, hadvances, hordinary, step_within hstack hadvances ha⟩

/-- What holds the lock does not wait for it. -/
theorem Guarded.holder_goesOn (hs : Guarded s) (husual : Usual s) (h : s.holder = some t) :
    ∃ a s', a.advances = true ∧ a.ordinary = true ∧ s.step (t, a) = some s' := by
  obtain ⟨p, hp, hholds⟩ := (hs.guard t).mp h
  obtain ⟨rest, hstack⟩ : ∃ rest, s.stack t = p :: rest := by
    have hsingle := hs.single t
    cases hstack : s.stack t with
    | nil => simp [hstack] at hp
    | cons q rest =>
        rw [hs.stack_eq hstack, List.mem_singleton] at hp
        exact ⟨rest, by rw [hp]⟩
  refine goesOn (hs.stack_eq hstack) fun use huse => ?_
  exact hs.free husual ⟨use, rest, huse ▸ hstack⟩ h

theorem Guarded.moves (hs : Guarded s) (husual : Usual s) (h : s.stack t ≠ []) :
    ∃ u, (u = t ∨ s.Locking t ∧ s.holder = some u) ∧
      ∃ a s', a.advances = true ∧ a.ordinary = true ∧ s.step (u, a) = some s' := by
  obtain ⟨p, rest, hstack⟩ := List.exists_cons_of_ne_nil h
  by_cases hlocking : ∃ use, p = .locking use
  · obtain ⟨use, rfl⟩ := hlocking
    cases hholder : s.holder with
    | none =>
        refine ⟨t, .inl rfl, .acquire, { s.setStack t (use.enter s.pool :: rest) with holder := some t }, rfl, rfl, ?_⟩
        simp only [State.step, hstack, hholder]
    | some u => exact ⟨u, .inr ⟨⟨use, rest, hstack⟩, rfl⟩, hs.holder_goesOn husual hholder⟩
  · exact ⟨t, .inl rfl, goesOn (hs.stack_eq hstack) fun use huse => hlocking ⟨use, huse⟩⟩

theorem rank_enter (use : Use ω) : Prod.Lex (· < ·) (· < ·) (use.enter pool).rank (Point.locking use).rank := by
  cases use with
  | send id | recv id =>
      simp only [Use.enter]
      split
      · exact .right 0 (show 2 < 3 by decide)
      · exact .right 0 (show 1 < 3 by decide)
  | keys => exact .right 1 Nat.zero_lt_one
  | drain id ids => exact .right 0 (Nat.lt_succ_self _)
  | insert | remove | close | clear => exact .right 0 (Nat.lt_succ_self 2)

theorem Taken.nearer (h : Taken s t a s') (hadvances : a.advances = true) (hordinary : a.ordinary = true) :
    Prod.Lex (· < ·) (· < ·) (rank (s'.stack t)) (rank (s.stack t)) := by
  cases h with
  | call c => cases hadvances
  | acquire use hstack hfree =>
      rw [hstack]
      show Prod.Lex _ _ (rank (Function.update s.stack t _ t)) _
      rw [Function.update_self]
      exact rank_enter use
  | within p a e hstack ha =>
      have hnearer := (within_advance ha).nearer hadvances hordinary
      rw [hstack]
      cases he : e.outcome with
      | error reply =>
          rw [he] at hnearer
          rw [(settle_error he).1, Function.update_self]
          exact hnearer
      | ok p' =>
          rw [he] at hnearer
          rw [(settle_ok he).1, Function.update_self]
          exact hnearer

/-! ## A call of `__wsRecv` -/

/-- While a thread holds the lock, the steps of the others change nothing that it sees. -/
theorem Taken.frame (h : Taken s u a s') (hs : Guarded s) (hholder : s.holder = some t) (hu : u ≠ t) :
    s'.pool = s.pool ∧ s'.holder = some t ∧ s'.stack t = s.stack t := by
  cases h with
  | call c hstack => exact ⟨rfl, hholder, Function.update_of_ne (Ne.symm hu) _ _⟩
  | acquire use hstack hfree =>
      rw [hholder] at hfree
      cases hfree
  | within p a e hstack ha =>
      have hp : p.holds = false := by
        by_contra hp
        rw [Bool.not_eq_false, ← hs.holder_iff hstack, hholder, Option.some.injEq] at hp
        exact hu hp.symm
      have hpool := (within_advance ha).pool hp
      cases he : e.outcome with
      | error reply =>
          obtain ⟨hnext, hleft⟩ := @settle_error _ p _ s u _ he
          rw [settle_pool, hnext, hleft, hp, Function.update_of_ne (Ne.symm hu)]
          exact ⟨hpool, hholder, rfl⟩
      | ok p' =>
          obtain ⟨hnext, hleft⟩ := @settle_ok _ p _ s u _ he
          rw [settle_pool, hnext, hleft, hp, Function.update_of_ne (Ne.symm hu)]
          exact ⟨hpool, hholder, rfl⟩

/-- In the loop of `__wsRecv`, or in the error that there is no socket. -/
structure Receiving (s : State ω) (t : Thread) (pool : Pool ω) : Prop where
  holder : s.holder = some t
  pool : s.pool = pool
  point : (∃ id, s.stack t = [.inside (.recv id)]) ∨ ∃ message, s.stack t = [.throwing message]

/-- The call has returned, or it asks for the lock that it holds. -/
def Over (s : State ω) (t : Thread) : Prop :=
  s.stack t = [] ∨ s.holder = some t ∧ ∃ use, s.stack t = [.locking use]

theorem Over.stuck (h : Over s t) (hcall : ∀ c, a ≠ .call c) (htaken : Taken s t a s') : False := by
  rcases h with hempty | ⟨hholder, use, hlocking⟩
  · cases htaken with
    | call c => exact hcall c rfl
    | acquire use hstack | within p a e hstack =>
        rw [hempty] at hstack
        cases hstack
  · cases htaken with
    | call c => exact hcall c rfl
    | acquire use hstack hfree =>
        rw [hholder] at hfree
        cases hfree
    | within p a e hstack ha =>
        rw [hlocking] at hstack
        cases hstack
        cases ha

theorem Over.other (h : Over s t) (hs : Guarded s) (hu : u ≠ t) (htaken : Taken s u a s') : Over s' t := by
  rcases h with hempty | ⟨hholder, use, hlocking⟩
  · refine .inl ?_
    cases htaken with
    | call c | acquire use => exact (Function.update_of_ne (Ne.symm hu) _ _).trans hempty
    | within p a e hstack ha =>
        cases he : e.outcome with
        | error reply => rw [(settle_error he).1, Function.update_of_ne (Ne.symm hu), hempty]
        | ok p' => rw [(settle_ok he).1, Function.update_of_ne (Ne.symm hu), hempty]
  · obtain ⟨-, hkept, hsame⟩ := htaken.frame hs hholder hu
    exact .inr ⟨hkept, use, hsame.trans hlocking⟩

/-- A turn of the loop reads on, returns, or asks for a second guard. -/
theorem received_cases (id : Id) (frame : Frame) :
    (received id frame : Except Reply (Point ω)) = .ok (.inside (.recv id)) ∧ frame.ordinary = true ∨
      (∃ reply, (received id frame : Except Reply (Point ω)) = .error reply ∧ frame.ordinary = true) ∨
      ∃ reply, (received id frame : Except Reply (Point ω)) = .ok (.locking (.remove id reply)) := by
  rcases frame with error | message
  · exact .inr (.inr ⟨_, rfl⟩)
  · cases message with
    | text | binary => exact .inr (.inl ⟨_, rfl, rfl⟩)
    | ping | pong | frame => exact .inl ⟨rfl, rfl⟩
    | close => exact .inr (.inr ⟨_, rfl⟩)

/-- Whatever the thread does next, its call goes on with the pool as it is, or it is over. -/
theorem Receiving.own {pool : Pool ω} (h : Receiving s t pool) (hcall : ∀ c, a ≠ .call c) (htaken : Taken s t a s') :
    Receiving s' t pool ∧ a.ordinary = true ∨ Over s' t ∧ (s'.stack t = [] → s'.pool = pool ∧ a.ordinary = true) := by
  cases htaken with
  | call c => exact absurd rfl (hcall c)
  | acquire use hstack hfree =>
      rw [h.holder] at hfree
      cases hfree
  | within p a e hstack ha =>
      rcases h.point with ⟨id, hrecv⟩ | ⟨message, hthrowing⟩
      · obtain rfl : p = .inside (.recv id) := by simpa [hrecv] using hstack.symm
        cases a with
        | read frame =>
            cases ha
            rcases received_cases id frame with ⟨hnext, hordinary⟩ | ⟨reply, hnext, hordinary⟩ | ⟨reply, hnext⟩
            · obtain ⟨hstack', hholder⟩ :=
                @settle_ok ω (.inside (.recv id)) ⟨s.pool, s.nextId, received id frame⟩ s t _ hnext
              refine .inl ⟨⟨hholder.trans h.holder, settle_pool.trans h.pool, .inl ⟨id, ?_⟩⟩, hordinary⟩
              rw [hstack', Function.update_self]
            · refine .inr ⟨.inl ?_, fun _ => ⟨settle_pool.trans h.pool, hordinary⟩⟩
              rw [(settle_error hnext).1, Function.update_self]
            · obtain ⟨hstack', hholder⟩ :=
                @settle_ok ω (.inside (.recv id)) ⟨s.pool, s.nextId, received id frame⟩ s t _ hnext
              rw [funext_iff] at hstack'
              have hlocking := (hstack' t).trans (Function.update_self _ _ _)
              exact .inr ⟨.inr ⟨hholder.trans h.holder, _, hlocking⟩, fun hempty => by cases hlocking.symm.trans hempty⟩
        | _ => cases ha
      · obtain rfl : p = .throwing message := by simpa [hthrowing] using hstack.symm
        cases a with
        | leave =>
            cases ha
            have hnext : (s.settle t (.throwing message) [] ⟨s.pool, s.nextId, .error (.error message)⟩).stack t = [] := by
              rw [(settle_error rfl).1, Function.update_self]
            exact .inr ⟨.inl hnext, fun _ => ⟨h.pool, rfl⟩⟩
        | _ => cases ha

theorem framesOf_cons (t : Thread) (x : Thread × Action ω) (run : List (Thread × Action ω)) :
    framesOf t (x :: run) = framesOf t [x] ++ framesOf t run := by
  rw [← List.singleton_append, framesOf, List.filterMap_append]
  rfl

theorem framesOf_self (h : a.ordinary = true) : ∀ frame ∈ framesOf t [(t, a)], frame.ordinary = true := by
  cases a with
  | read frame =>
      have hframe : frame.ordinary = true := h
      simpa [framesOf] using hframe
  | _ => simp [framesOf]

theorem framesOf_other (hu : u ≠ t) : framesOf t [(u, a)] = [] := by
  cases a with
  | read frame => simp [framesOf, hu]
  | _ => rfl

variable {run : List (Thread × Action ω)}

/-- The last step of a call that is over cannot be taken. -/
theorem Over.not_run (h : Over s t) (hs : Guarded s) (hcall : ∀ c, (t, Action.call c) ∉ run ++ [(t, a)])
    (hunnested : Runs.Along State.step State.Unnested s (run ++ [(t, a)])) :
    Runs.exec State.step s (run ++ [(t, a)]) ≠ some s' := by
  intro hrun
  induction run generalizing s with
  | nil =>
      obtain ⟨s₁, hstep, -⟩ := Runs.exec_cons.mp hrun
      exact h.stuck (fun c hc => hcall c (by simp [hc])) (hs.taken hunnested.1 hstep)
  | cons x run ih =>
      obtain ⟨u, b⟩ := x
      obtain ⟨s₁, hstep, hrun⟩ := Runs.exec_cons.mp hrun
      have htaken := hs.taken hunnested.1 hstep
      by_cases hu : u = t
      · subst hu
        exact h.stuck (fun c hc => hcall c (by simp [hc])) htaken
      · exact ih (h.other hs hu htaken) (htaken.guarded hs)
          (fun c hc => hcall c (List.mem_cons_of_mem _ hc)) (hunnested.2 s₁ hstep) hrun

/-- A run up to the return of the call leaves the pool as it was, and all that the call read was ordinary. -/
theorem Receiving.kept {pool : Pool ω} (h : Receiving s t pool) (hs : Guarded s)
    (hcall : ∀ c, (t, Action.call c) ∉ run ++ [(t, a)])
    (hunnested : Runs.Along State.step State.Unnested s (run ++ [(t, a)]))
    (hrun : Runs.exec State.step s (run ++ [(t, a)]) = some s') (hend : s'.stack t = []) :
    s'.pool = pool ∧ ∀ frame ∈ framesOf t (run ++ [(t, a)]), frame.ordinary = true := by
  induction run generalizing s with
  | nil =>
      obtain ⟨s₁, hstep, hlast⟩ := Runs.exec_cons.mp hrun
      cases hlast
      rcases h.own (fun c hc => hcall c (by simp [hc])) (hs.taken hunnested.1 hstep) with ⟨hnext, -⟩ | ⟨-, hover⟩
      · rcases hnext.point with ⟨id, hpoint⟩ | ⟨message, hpoint⟩
        · cases hpoint.symm.trans hend
        · cases hpoint.symm.trans hend
      · obtain ⟨hpool, hordinary⟩ := hover hend
        exact ⟨hpool, framesOf_self hordinary⟩
  | cons x run ih =>
      obtain ⟨u, b⟩ := x
      obtain ⟨s₁, hstep, hrun⟩ := Runs.exec_cons.mp hrun
      have htaken := hs.taken hunnested.1 hstep
      have hcall' : ∀ c, (t, Action.call c) ∉ run ++ [(t, a)] := fun c hc => hcall c (List.mem_cons_of_mem _ hc)
      rw [List.cons_append, framesOf_cons]
      by_cases hu : u = t
      · subst hu
        rcases h.own (fun c hc => hcall c (by simp [hc])) htaken with ⟨hnext, hordinary⟩ | ⟨hover, -⟩
        · obtain ⟨hpool, hframes⟩ := ih hnext (htaken.guarded hs) hcall' (hunnested.2 s₁ hstep) hrun
          exact ⟨hpool, fun frame hframe => (List.mem_append.mp hframe).elim (framesOf_self hordinary frame) (hframes frame)⟩
        · exact absurd hrun (hover.not_run (htaken.guarded hs) hcall' (hunnested.2 s₁ hstep))
      · obtain ⟨hpool, hholder, hsame⟩ := htaken.frame hs h.holder hu
        have hnext : Receiving s₁ t pool := ⟨hholder, hpool.trans h.pool, hsame ▸ h.point⟩
        rw [framesOf_other hu, List.nil_append]
        exact ih hnext (htaken.guarded hs) hcall' (hunnested.2 s₁ hstep) hrun

theorem Guarded.recvKeeps (hs : Guarded s) : RecvKeeps s := by
  intro t id run a s' hstack hcall hunnested hrun hend k
  obtain ⟨s₁, hstep, hrun⟩ := Runs.exec_cons.mp hrun
  have htaken := hs.taken hunnested.1 hstep
  have hnext : Receiving s₁ t s.pool := by
    cases htaken with
    | acquire use hstack' hfree =>
        obtain rfl : use = .recv id := by simpa [hstack] using hstack'.symm
        refine ⟨rfl, rfl, ?_⟩
        show (∃ id', Function.update s.stack t _ t = _) ∨ ∃ message, Function.update s.stack t _ t = _
        rw [Function.update_self]
        by_cases hin : contains s.pool id
        · exact .inl ⟨id, by simp [Use.enter, hin]⟩
        · exact .inr ⟨noSocket id, by simp [Use.enter, hin]⟩
    | within p a e hstack' ha =>
        rw [advance_acquire] at ha
        cases ha
  obtain ⟨hpool, hframes⟩ := hnext.kept (htaken.guarded hs) hcall (hunnested.2 s₁ hstep) hrun hend
  rw [hpool]
  exact ⟨fun h => ⟨h, fun _ frame hframe => hframes frame (List.mem_of_getLast? hframe)⟩, fun h => h.1⟩

theorem Guarded.lawful (hs : Guarded s) (husual : Usual s) : Lawful s where
  free _ := hs.free husual
  moves _ := hs.moves husual
  nearer t a s' hadvances hordinary hstep := by
    refine (hs.taken ?_ hstep).nearer hadvances hordinary
    cases a with
    | call c => cases hadvances
    | _ => trivial
  keeps := hs.recvKeeps

theorem advance_read {frame : Frame} (h : advance pool nextId p (.read frame) = some e) :
    ∃ id, p = .inside (.recv id) ∧ e = ⟨pool, nextId, received id frame⟩ := by
  cases p with
  | inside use =>
      cases use with
      | recv id =>
          cases h
          exact ⟨id, rfl, rfl⟩
      | _ => cases h
  | pausing ids => cases ids <;> cases h
  | connect | locking | throwing => cases h

/-- A close frame or an error sends `__wsRecv` to the lock that it holds. -/
theorem Guarded.locked (hs : Guarded s) (hunnested : State.Unnested s (t, a)) (ha : ¬ Ordinary s (t, a))
    (hstep : s.step (t, a) = some s') : ¬ Lawful s' := by
  intro hlawful
  cases hs.taken hunnested hstep with
  | call c | acquire use => exact ha rfl
  | within p a e hstack hadvance =>
      cases a with
      | read frame =>
          obtain ⟨id, rfl, rfl⟩ := advance_read hadvance
          have hholder := (hs.holder_iff hstack).mpr rfl
          rcases received_cases (ω := ω) id frame with ⟨-, hframe⟩ | ⟨reply, -, hframe⟩ | ⟨reply, hnext⟩
          · exact ha hframe
          · exact ha hframe
          · obtain ⟨hstack', hkept⟩ :=
              @settle_ok ω (.inside (.recv id)) ⟨s.pool, s.nextId, received id frame⟩ s t _ hnext
            refine hlawful.free t ⟨.remove id reply, [], ?_⟩ (hkept.trans hholder)
            rw [hstack', Function.update_self]
      | _ => exact ha rfl

/-- The promises are kept in all states of a run exactly if no call reads a close frame or an error. -/
theorem ordinary_iff_lawful {pool : Pool ω} (hunnested : Runs.Along State.step State.Unnested (.start pool nextId) run)
    (hrun : Runs.exec State.step (.start pool nextId) run = some s) :
    Runs.Along State.step Ordinary (.start pool nextId) run ↔
      ∀ pre, pre <+: run → ∀ s', Runs.exec State.step (.start pool nextId) pre = some s' → Lawful s' := by
  refine Runs.along_iff_reached (show ∀ s, Guarded s ∧ Usual s → _ from fun s h => h.1.lawful h.2) ?_ ?_ ?_ hunnested hrun
  · rintro s ⟨t, a⟩ s' ⟨hs, husual⟩ hunnested hordinary hstep
    have htaken := hs.taken hunnested hstep
    exact ⟨htaken.guarded hs, htaken.usual hordinary husual⟩
  · rintro s ⟨t, a⟩ s' ⟨hs, -⟩ hunnested hordinary hstep
    exact hs.locked hunnested hordinary hstep
  · exact ⟨guarded_start pool nextId, fun t id reply h => by cases h⟩

end ThreeVa.Js.WebSocket
