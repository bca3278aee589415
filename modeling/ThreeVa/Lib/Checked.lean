import ThreeVa.Lib.Text

/-!
# Checks that stop

A chain of checks that ends at the first one that fails, with a message or by a panic.
-/

namespace Text

inductive Fault
  | err (why : Str)
  | panic
deriving DecidableEq

abbrev Checked (α : Type) := Except Fault α

variable {α β : Type}

def fail (why : Str) : Checked α := .error (.err why)

def ensure (c : Bool) (why : Str) : Checked Unit := if c then .ok () else fail why

def okOr (o : Option α) (why : Str) : Checked α :=
  match o with
  | some a => .ok a
  | none => fail why

def mapErr (f : Str → Str) : Checked α → Checked α
  | .error (.err why) => fail (f why)
  | x => x

@[simp] theorem ok_bind {a : α} {f : α → Checked β} : ((.ok a : Checked α) >>= f) = f a := rfl

@[simp] theorem okOr_some {a : α} {why : Str} : okOr (some a) why = .ok a := rfl

@[simp] theorem ensure_true {why : Str} : ensure true why = .ok () := rfl

/-! ## What a chain that ends well has passed -/

theorem bind_eq_ok {x : Checked α} {f : α → Checked β} {b : β} :
    (x >>= f) = .ok b ↔ ∃ a, x = .ok a ∧ f a = .ok b := by
  cases x with
  | ok a => simp [Bind.bind, Except.bind]
  | error e => simp [Bind.bind, Except.bind]

@[simp] theorem ensure_eq_ok {c : Bool} {why : Str} {u : Unit} : ensure c why = .ok u ↔ c = true := by
  unfold ensure fail
  split <;> simp_all

@[simp] theorem okOr_eq_ok {o : Option α} {why : Str} {a : α} : okOr o why = .ok a ↔ o = some a := by
  cases o with
  | some b => simp [okOr]
  | none => simp [okOr, fail]

@[simp] theorem mapErr_eq_ok {f : Str → Str} {x : Checked α} {a : α} : mapErr f x = .ok a ↔ x = .ok a := by
  unfold mapErr fail
  split <;> simp

theorem eq_ok_of_toOption {α : Type} {x : Checked α} {a : α} (h : x.toOption = some a) : x = .ok a := by
  cases x with
  | ok b => cases h; rfl
  | error e => cases h

theorem exists_of_mapM_eq_ok {f : α → Checked β} {xs : List α} {ys : List β} (h : xs.mapM f = .ok ys) {y : β}
    (hy : y ∈ ys) : ∃ x ∈ xs, f x = .ok y := by
  induction xs generalizing ys with
  | nil =>
      rw [← Except.ok.inj h] at hy
      cases hy
  | cons x xs ih =>
      rw [List.mapM_cons, bind_eq_ok] at h
      obtain ⟨b, hb, hrest⟩ := h
      obtain ⟨bs, hbs, hys⟩ := bind_eq_ok.mp hrest
      rw [← Except.ok.inj hys] at hy
      rcases List.mem_cons.mp hy with rfl | hy
      · exact ⟨x, List.mem_cons_self, hb⟩
      · obtain ⟨x', hx', hf⟩ := ih hbs hy
        exact ⟨x', List.mem_cons_of_mem _ hx', hf⟩

/-! ## Chains that do not panic -/

def NoPanic (x : Checked α) : Prop := x ≠ .error .panic

theorem NoPanic.bind {x : Checked α} {f : α → Checked β} (hx : NoPanic x) (hf : ∀ a, x = .ok a → NoPanic (f a)) :
    NoPanic (x >>= f) := by
  cases x with
  | ok a => exact hf a rfl
  | error e => exact fun h => hx (by cases h; rfl)

theorem noPanic_okOr (o : Option α) (why : Str) : NoPanic (okOr o why) := by
  cases o <;> exact fun h => by cases h

theorem noPanic_ensure (c : Bool) (why : Str) : NoPanic (ensure c why) := by
  cases c <;> exact fun h => by cases h

theorem noPanic_ok (a : α) : NoPanic (.ok a) := fun h => by cases h

theorem noPanic_fail (why : Str) : NoPanic (fail why : Checked α) := fun h => by cases h

theorem NoPanic.mapM {f : α → Checked β} (hf : ∀ a, NoPanic (f a)) (xs : List α) : NoPanic (xs.mapM f) := by
  induction xs with
  | nil => exact noPanic_ok _
  | cons x xs ih =>
      rw [List.mapM_cons]
      exact (hf x).bind fun _ _ => ih.bind fun _ _ => noPanic_ok _

/-! ## Chains that panic -/

theorem bind_eq_panic {x : Checked α} {f : α → Checked β} :
    (x >>= f) = .error .panic ↔ x = .error .panic ∨ ∃ a, x = .ok a ∧ f a = .error .panic := by
  cases x with
  | ok a => simp [Bind.bind, Except.bind]
  | error e => simp [Bind.bind, Except.bind]

/-- After a check that does not panic, a chain does where the rest of it does. -/
theorem NoPanic.bind_eq_panic {x : Checked α} {f : α → Checked β} (hx : NoPanic x) :
    (x >>= f) = .error .panic ↔ ∃ a, x = .ok a ∧ f a = .error .panic :=
  Text.bind_eq_panic.trans (or_iff_right hx)

theorem okOr_bind_eq_panic {o : Option α} {why : Str} {f : α → Checked β} :
    (okOr o why >>= f) = .error .panic ↔ ∃ a, o = some a ∧ f a = .error .panic := by
  simp only [(noPanic_okOr o why).bind_eq_panic, okOr_eq_ok]

theorem ensure_bind_eq_panic {c : Bool} {why : Str} {f : Unit → Checked β} :
    (ensure c why >>= f) = .error .panic ↔ c = true ∧ f () = .error .panic := by
  rw [(noPanic_ensure c why).bind_eq_panic]
  exact ⟨fun ⟨_, hc, h⟩ => ⟨ensure_eq_ok.mp hc, h⟩, fun ⟨hc, h⟩ => ⟨(), ensure_eq_ok.mpr hc, h⟩⟩

theorem bind₂_eq_panic {γ : Type} {x : Checked α} {y : Checked β} {f : α → β → γ} :
    (do return f (← x) (← y) : Checked γ) = .error .panic ↔
      x = .error .panic ∨ ∃ a, x = .ok a ∧ y = .error .panic := by
  rw [bind_eq_panic]
  refine or_congr_right (exists_congr fun a => and_congr_right fun _ => ?_)
  rw [bind_eq_panic, or_iff_left]
  rintro ⟨b, -, h⟩
  cases h

@[simp] theorem map_eq_panic {f : α → β} {x : Checked α} : f <$> x = .error .panic ↔ x = .error .panic := by
  cases x with
  | ok a => simp [Functor.map, Except.map]
  | error e => simp [Functor.map, Except.map]

theorem mapErr_eq_panic {f : Str → Str} {x : Checked α} : mapErr f x = .error .panic ↔ x = .error .panic := by
  unfold mapErr fail
  split <;> simp_all

end Text
