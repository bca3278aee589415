import Mathlib.Logic.Function.Iterate
import Mathlib.Tactic.Common

/-!
# Runs of a transition system

A system is a partial step function on states: a label that is not enabled has no successor.
-/

namespace Runs

variable {σ α : Type} (step : σ → α → Option σ)

def exec (s : σ) : List α → Option σ
  | [] => some s
  | a :: as => (step s a).bind fun s' => exec s' as

/-- Each label is taken in a state where `C` holds of the two. -/
def Along (C : σ → α → Prop) (s : σ) : List α → Prop
  | [] => True
  | a :: as => C s a ∧ ∀ t ∈ step s a, Along C t as

instance decidableAlong (C : σ → α → Prop) [∀ s a, Decidable (C s a)] :
    (s : σ) → (as : List α) → Decidable (Along step C s as)
  | _, [] => .isTrue trivial
  | s, a :: as =>
      have := fun t => decidableAlong C t as
      inferInstanceAs (Decidable (C s a ∧ ∀ t ∈ step s a, Along step C t as))

variable {step}

@[simp] theorem exec_nil (s : σ) : exec step s [] = some s := rfl

theorem exec_cons {s s' : σ} {a : α} {as : List α} :
    exec step s (a :: as) = some s' ↔ ∃ t, step s a = some t ∧ exec step t as = some s' := by
  simp [exec, Option.bind_eq_some_iff]

/-- What every step taken under `C` preserves, a run along `C` preserves. -/
theorem exec_invariant {C : σ → α → Prop} {Inv : σ → Prop}
    (hstep : ∀ s a s', Inv s → C s a → step s a = some s' → Inv s') {s s' : σ} {as : List α}
    (hs : Inv s) (hC : Along step C s as) (hrun : exec step s as = some s') : Inv s' := by
  induction as generalizing s with
  | nil =>
      rw [exec_nil, Option.some.injEq] at hrun
      exact hrun ▸ hs
  | cons a as ih =>
      obtain ⟨t, ht, hrun⟩ := exec_cons.mp hrun
      exact ih (hstep s a t hs hC.1 ht) (hC.2 t ht) hrun

theorem Along.mono {C D : σ → α → Prop} (h : ∀ s a, C s a → D s a) {s : σ} {as : List α} (hC : Along step C s as) :
    Along step D s as := by
  induction as generalizing s with
  | nil => trivial
  | cons a as ih => exact ⟨h s a hC.1, fun t ht => ih (hC.2 t ht)⟩

theorem along_true (s : σ) (as : List α) : Along step (fun _ _ => True) s as := by
  induction as generalizing s with
  | nil => trivial
  | cons a as ih => exact ⟨trivial, fun t _ => ih t⟩

theorem Along.and {C D : σ → α → Prop} {s : σ} {as : List α} (hC : Along step C s as) (hD : Along step D s as) :
    Along step (fun s a => C s a ∧ D s a) s as := by
  induction as generalizing s with
  | nil => trivial
  | cons a as ih => exact ⟨⟨hC.1, hD.1⟩, fun t ht => ih (hC.2 t ht) (hD.2 t ht)⟩

theorem along_of_forall {C : α → Prop} {as : List α} (h : ∀ a ∈ as, C a) (s : σ) : Along step (fun _ a => C a) s as := by
  induction as generalizing s with
  | nil => trivial
  | cons a as ih => exact ⟨h a List.mem_cons_self, fun t _ => ih (fun b hb => h b (List.mem_cons_of_mem a hb)) t⟩

theorem exec_preserves {Inv : σ → Prop} (hstep : ∀ s a s', Inv s → step s a = some s' → Inv s') {s s' : σ}
    {as : List α} (hs : Inv s) (hrun : exec step s as = some s') : Inv s' :=
  exec_invariant (fun s a s' h _ => hstep s a s' h) hs (along_true s as) hrun

/-- If a step under `B` keeps `Inv` when it meets `C` and breaks `P` when it does not, then a run meets `C` at every
step exactly if `P` holds in every state it reaches. -/
theorem along_iff_reached {B C : σ → α → Prop} {Inv P : σ → Prop} (hP : ∀ s, Inv s → P s)
    (hkeep : ∀ s a s', Inv s → B s a → C s a → step s a = some s' → Inv s')
    (hbreak : ∀ s a s', Inv s → B s a → ¬ C s a → step s a = some s' → ¬ P s') {s t : σ} {as : List α} (hs : Inv s)
    (hB : Along step B s as) (hrun : exec step s as = some t) :
    Along step C s as ↔ ∀ pre, pre <+: as → ∀ s', exec step s pre = some s' → P s' := by
  induction as generalizing s with
  | nil =>
      refine ⟨fun _ pre hpre s' hs' => ?_, fun _ => trivial⟩
      rw [List.prefix_nil.mp hpre, exec_nil, Option.some.injEq] at hs'
      exact hs' ▸ hP s hs
  | cons a as ih =>
      obtain ⟨u, hu, htail⟩ := exec_cons.mp hrun
      have hnext : ∀ t ∈ step s a, t = u := fun t ht => Option.some.inj (ht.symm.trans hu)
      constructor
      · rintro ⟨hC, hrest⟩ pre hpre s' hs'
        cases pre with
        | nil =>
            rw [exec_nil, Option.some.injEq] at hs'
            exact hs' ▸ hP s hs
        | cons b pre =>
            obtain ⟨rfl, hpre'⟩ := List.cons_prefix_cons.mp hpre
            obtain ⟨u', hu', hs'⟩ := exec_cons.mp hs'
            rw [hnext u' hu'] at hs'
            exact (ih (hkeep s b u hs hB.1 hC hu) (hB.2 u hu) htail).mp (hrest u hu) pre hpre' s' hs'
      · intro hall
        have hC : C s a := by
          by_contra hC
          exact hbreak s a u hs hB.1 hC hu
            (hall [a] (by simp) u (exec_cons.mpr ⟨u, hu, rfl⟩))
        refine ⟨hC, fun t ht => ?_⟩
        rw [hnext t ht]
        apply (ih (hkeep s a u hs hB.1 hC hu) (hB.2 u hu) htail).mpr fun pre hpre s' hs' => ?_
        exact hall (a :: pre) (List.cons_prefix_cons.mpr ⟨rfl, hpre⟩) s' (exec_cons.mpr ⟨u, hu, hs'⟩)

/-- Runs that end, of which one is along `C`, end in related states, if steps from related states lead to related
states and only one of two related states cannot be the last. -/
theorem exec_confluent (R : σ → σ → Prop) (Final : σ → Prop) {C : σ → α → Prop}
    (hstep : ∀ s s' a b t t', R s s' → C s a → step s a = some t → step s' b = some t' → R t t')
    (hfinal : ∀ s s', R s s' → (Final s ↔ Final s')) (hstuck : ∀ s a, Final s → step s a = none) {s s' t t' : σ}
    {as bs : List α} (hR : R s s') (hC : Along step C s as) (hs : exec step s as = some t) (ht : Final t)
    (hs' : exec step s' bs = some t') (ht' : Final t') : R t t' := by
  induction as generalizing s s' bs with
  | nil =>
      obtain rfl := Option.some.inj hs
      cases bs with
      | nil =>
          obtain rfl := Option.some.inj hs'
          exact hR
      | cons b bs =>
          obtain ⟨u, hu, -⟩ := exec_cons.mp hs'
          rw [hstuck _ b ((hfinal _ _ hR).mp ht)] at hu
          cases hu
  | cons a as ih =>
      obtain ⟨u, hu, hs⟩ := exec_cons.mp hs
      cases bs with
      | nil =>
          obtain rfl := Option.some.inj hs'
          rw [hstuck _ a ((hfinal _ _ hR).mpr ht')] at hu
          cases hu
      | cons b bs =>
          obtain ⟨u', hu', hs'⟩ := exec_cons.mp hs'
          exact ih (hstep _ _ a b u u' hR hC.1 hu hu') (hC.2 u hu) hs hs'

/-- A loop ends if each of its iterations decreases a measure. -/
theorem exists_iterate {β : Type} {r : β → β → Prop} (hr : WellFounded r) {f : σ → σ} (Inv Done : σ → Prop) (μ : σ → β)
    (hstep : ∀ s, Inv s → ¬ Done s → Inv (f s) ∧ r (μ (f s)) (μ s)) {s : σ} (hs : Inv s) : ∃ n, Done (f^[n] s) := by
  generalize hb : μ s = b
  induction b using hr.induction generalizing s with
  | _ b ih =>
      by_cases hdone : Done s
      · exact ⟨0, hdone⟩
      · obtain ⟨hinv, hlt⟩ := hstep s hs hdone
        obtain ⟨n, hn⟩ := ih _ (hb ▸ hlt) hinv rfl
        exact ⟨n + 1, hn⟩

end Runs
