import Mathlib.Data.List.Basic
import Mathlib.Data.Nat.Find
import Mathlib.Logic.Relation
import Mathlib.Tactic.Common

/-!
# Greedy searches

A search that goes on from a state with the first item of a list that fits it, never goes back, and gives up after some
rounds. What it can come to with the items in some order, and when their order does not matter.
-/

namespace FirstFit

/-- A search in states `σ` with items `ι`. -/
structure Search (σ ι : Type) where
  /-- What an item is read as: nothing, an end of the search, or a state to go on with. -/
  read : ι → Option (Option σ)
  fits : σ → σ → Bool
  /-- The outcome, where a state is one at which the search is over. -/
  verdict : σ → Option Bool
  /-- Where the search goes on if no item fits. -/
  fallback : σ → Option σ

namespace Search

variable {σ ι : Type} (S : Search σ ι)

/-- What an item does in a state, if it is not passed over. -/
def offer (s : σ) (i : ι) : Option (Option σ) := (S.read i).filter fun o => o.all (S.fits s)

def next (items : List ι) (s : σ) : Option σ := (items.findSome? (S.offer s)).getD (S.fallback s)

def run (items : List ι) : Nat → σ → Bool
  | 0, _ => false
  | n + 1, s =>
      match S.verdict s with
      | some accepted => accepted
      | none => (S.next items s).any (run items n)

/-! ## Searches in any order -/

/-- The search may go on from a state with another one, or come to an end there. -/
def May (items : List ι) (s : σ) (o : Option σ) : Prop :=
  (∃ i ∈ items, S.offer s i = some o) ∨ (∀ i ∈ items, S.offer s i = none) ∧ S.fallback s = o

/-- Some choices lead to a state that is accepted, within so many rounds. -/
inductive CanAccept (items : List ι) : Nat → σ → Prop
  | here {n : Nat} {s : σ} : S.verdict s = some true → CanAccept items (n + 1) s
  | step {n : Nat} {s s' : σ} : S.verdict s = none → S.May items s (some s') → CanAccept items n s' → CanAccept items (n + 1) s

/-- Some choices lead to a state that is rejected or at which the search ends, or nowhere in so many rounds. -/
inductive CanReject (items : List ι) : Nat → σ → Prop
  | deep {s : σ} : CanReject items 0 s
  | here {n : Nat} {s : σ} : S.verdict s = some false → CanReject items (n + 1) s
  | stuck {n : Nat} {s : σ} : S.verdict s = none → S.May items s none → CanReject items (n + 1) s
  | step {n : Nat} {s s' : σ} : S.verdict s = none → S.May items s (some s') → CanReject items n s' → CanReject items (n + 1) s

variable {S} {items items' : List ι} {n m : Nat} {s s' : σ} {i : ι} {o : Option σ}

theorem may_next (S : Search σ ι) (items : List ι) (s : σ) : S.May items s (S.next items s) := by
  unfold next
  cases hfind : items.findSome? (S.offer s) with
  | none => exact .inr ⟨List.findSome?_eq_none_iff.mp hfind, rfl⟩
  | some o => exact .inl (List.exists_of_findSome?_eq_some hfind)

theorem May.perm (h : S.May items s o) (hperm : items.Perm items') : S.May items' s o := by
  rcases h with ⟨i, hi, hoffer⟩ | ⟨hnone, hfallback⟩
  · exact .inl ⟨i, hperm.subset hi, hoffer⟩
  · exact .inr ⟨fun i hi => hnone i (hperm.symm.subset hi), hfallback⟩

/-- A search that accepts has made choices that lead there. -/
theorem canAccept_of_run (hperm : items'.Perm items) (h : S.run items' n s = true) : S.CanAccept items n s := by
  induction n generalizing s with
  | zero => cases h
  | succ n ih =>
      unfold run at h
      split at h
      · exact .here (h ▸ ‹_›)
      · obtain ⟨s', hnext, hrest⟩ := (Option.any_eq_true _ _).mp h
        exact .step ‹_› ((hnext ▸ S.may_next items' s).perm hperm) (ih hrest)

theorem canReject_of_run (hperm : items'.Perm items) (h : S.run items' n s = false) : S.CanReject items n s := by
  induction n generalizing s with
  | zero => exact .deep
  | succ n ih =>
      unfold run at h
      split at h
      · exact .here (h ▸ ‹_›)
      · have hmay := (S.may_next items' s).perm hperm
        cases hnext : S.next items' s with
        | none => exact .stuck ‹_› (hnext ▸ hmay)
        | some s' =>
            rw [hnext] at h hmay
            exact .step ‹_› hmay (ih h)

/-! ## Orders by rank -/

theorem CanAccept.succ (h : S.CanAccept items n s) : S.CanAccept items (n + 1) s := by
  induction h with
  | here hverdict => exact .here hverdict
  | step hverdict hstep _ ih => exact .step hverdict hstep ih

theorem CanReject.pred (h : S.CanReject items (n + 1) s) : S.CanReject items n s := by
  induction n generalizing s with
  | zero => exact .deep
  | succ n ih =>
      cases h with
      | here hverdict => exact .here hverdict
      | stuck hverdict hstuck => exact .stuck hverdict hstuck
      | step hverdict hstep hrest => exact .step hverdict hstep (ih hrest)

/-- What holds from some number on is ranked by the least such number, up to a bound. -/
theorem exists_rank {β : Type} {P : Nat → β → Prop} (hmono : ∀ m b, P m b → P (m + 1) b) (n : Nat) :
    ∃ rank : β → Nat, ∀ m ≤ n, ∀ b, rank b ≤ m ↔ P m b := by
  classical
  have hex : ∀ b, ∃ m, P m b ∨ n < m := fun b => ⟨n + 1, .inr (Nat.lt_succ_self n)⟩
  refine ⟨fun b => Nat.find (hex b), fun m hm b => ⟨fun hle => ?_, fun h => Nat.find_min' (hex b) (.inl h)⟩⟩
  have hfound : P (Nat.find (hex b)) b := (Nat.find_spec (hex b)).resolve_right (Nat.not_lt.mpr (Nat.le_trans hle hm))
  exact Nat.le_induction hfound (fun k _ hk => hmono k b hk) m hle

theorem exists_sorted (cost : ι → Nat) (items : List ι) :
    ∃ sorted : List ι, sorted.Perm items ∧ sorted.Pairwise fun i j => cost i ≤ cost j := by
  refine ⟨items.mergeSort fun i j => decide (cost i ≤ cost j), List.mergeSort_perm _ _, ?_⟩
  have htrans : ∀ i j k, decide (cost i ≤ cost j) → decide (cost j ≤ cost k) → decide (cost i ≤ cost k) := by
    simp only [decide_eq_true_eq]
    exact fun i j k => Nat.le_trans
  have htotal : ∀ i j, decide (cost i ≤ cost j) || decide (cost j ≤ cost i) := by
    simp only [Bool.or_eq_true, decide_eq_true_eq]
    exact fun i j => Nat.le_total _ _
  exact (List.pairwise_mergeSort htrans htotal items).imp fun h => of_decide_eq_true h

/-- In the order of a rank, what is offered first has the least one. -/
theorem exists_ranked (S : Search σ ι) (rank : Option σ → Nat) (items : List ι) :
    ∃ sorted : List ι, sorted.Perm items ∧ ∀ s, ∀ i ∈ items, ∀ o, S.offer s i = some o →
      ∃ j ∈ items, ∃ o', S.offer s j = some o' ∧ S.next sorted s = o' ∧ rank o' ≤ rank o := by
  obtain ⟨sorted, hperm, hsorted⟩ := exists_sorted (fun i => (S.read i).elim 0 rank) items
  have hcost : ∀ {s i o}, S.offer s i = some o → (S.read i).elim 0 rank = rank o := fun h => by
    rw [(Option.filter_eq_some_iff.mp h).1, Option.elim_some]
  refine ⟨sorted, hperm, fun s i hi o hoffer => ?_⟩
  have hi' := hperm.mem_iff.mpr hi
  cases hfind : sorted.findSome? (S.offer s) with
  | none => rw [List.findSome?_eq_none_iff.mp hfind i hi'] at hoffer; cases hoffer
  | some o' =>
      obtain ⟨before, j, rest, rfl, hj, hbefore⟩ := List.findSome?_eq_some_iff.mp hfind
      refine ⟨j, hperm.subset (by simp), o', hj, by rw [next, hfind, Option.getD_some], ?_⟩
      rcases List.mem_append.mp hi' with hi' | hi'
      · rw [hbefore i hi'] at hoffer
        cases hoffer
      · rw [← hcost hj, ← hcost hoffer]
        rcases List.mem_cons.mp hi' with rfl | hi'
        · exact Nat.le_refl _
        · exact List.rel_of_pairwise_cons (List.pairwise_append.mp hsorted).2.1 hi'

theorem next_of_none (hperm : items'.Perm items) (h : ∀ i ∈ items, S.offer s i = none) :
    S.next items' s = S.fallback s := by
  rw [next, List.findSome?_eq_none_iff.mpr fun i hi => h i (hperm.subset hi), Option.getD_none]

/-- Choices that lead to a state that is accepted are those of some order: the shortest way comes first. -/
theorem CanAccept.exists_run (h : S.CanAccept items n s) : ∃ items', items'.Perm items ∧ S.run items' n s = true := by
  obtain ⟨rank, hrank⟩ := exists_rank (P := fun m (o : Option σ) => ∃ s, o = some s ∧ S.CanAccept items m s)
    (fun m o ⟨s, hs, h⟩ => ⟨s, hs, h.succ⟩) n
  obtain ⟨sorted, hperm, hnext⟩ := exists_ranked S rank items
  refine ⟨sorted, hperm, ?_⟩
  suffices ∀ m ≤ n, ∀ s, S.CanAccept items m s → S.run sorted m s = true from this n (Nat.le_refl n) s h
  intro m hm s h
  induction m generalizing s with
  | zero => cases h
  | succ m ih =>
      unfold run
      cases h with
      | here hverdict => rw [hverdict]
      | step hverdict hstep hrest =>
          rw [hverdict]
          rcases hstep with ⟨i, hi, hoffer⟩ | ⟨hnone, hfallback⟩
          · obtain ⟨j, -, o', -, hnext, hle⟩ := hnext s i hi _ hoffer
            have hle := Nat.le_trans hle ((hrank m (by omega) _).mpr ⟨_, rfl, hrest⟩)
            obtain ⟨s', rfl, hs'⟩ := (hrank m (by omega) o').mp hle
            rw [hnext]
            exact ih (by omega) s' hs'
          · rw [next_of_none hperm hnone, hfallback]
            exact ih (by omega) _ hrest

/-- Choices that lead to no such state are those of some order: the longest way to fail comes first. -/
theorem CanReject.exists_run (h : S.CanReject items n s) : ∃ items', items'.Perm items ∧ S.run items' n s = false := by
  obtain ⟨rank, hrank⟩ := exists_rank (P := fun k (o : Option σ) => ∀ s ∈ o, S.CanReject items (n - k) s)
    (fun k o h s hs => by
      by_cases hk : k < n
      · exact CanReject.pred (by rw [show n - (k + 1) + 1 = n - k by omega]; exact h s hs)
      · rw [show n - (k + 1) = 0 by omega]
        exact .deep) n
  obtain ⟨sorted, hperm, hnext⟩ := exists_ranked S rank items
  refine ⟨sorted, hperm, ?_⟩
  suffices ∀ m ≤ n, ∀ s, S.CanReject items m s → S.run sorted m s = false from this n (Nat.le_refl n) s h
  intro m hm s h
  induction m generalizing s with
  | zero => rfl
  | succ m ih =>
      -- what is offered first is at least as bad as any that is offered
      have hworst : ∀ i ∈ items, ∀ o, S.offer s i = some o → (∀ s' ∈ o, S.CanReject items m s') →
          (S.next sorted s).any (S.run sorted m) = false := by
        intro i hi o hoffer hbad
        obtain ⟨j, -, o', -, hnext, hle⟩ := hnext s i hi o hoffer
        have hm' : n - (n - m) = m := by omega
        have hle := Nat.le_trans hle ((hrank (n - m) (by omega) o).mpr (by rwa [hm']))
        have hbad' := (hrank (n - m) (by omega) o').mp hle
        rw [hnext]
        cases o' with
        | none => rfl
        | some s' => exact ih (by omega) s' (hm' ▸ hbad' s' rfl)
      unfold run
      cases h with
      | here hverdict => rw [hverdict]
      | stuck hverdict hstuck =>
          rw [hverdict]
          rcases hstuck with ⟨i, hi, hoffer⟩ | ⟨hnone, hfallback⟩
          · exact hworst i hi none hoffer fun s' hs' => by cases hs'
          · rw [next_of_none hperm hnone, hfallback]
            rfl
      | step hverdict hstep hrest =>
          rw [hverdict]
          rcases hstep with ⟨i, hi, hoffer⟩ | ⟨hnone, hfallback⟩
          · exact hworst i hi _ hoffer fun s' hs' => by cases hs'; exact hrest
          · rw [next_of_none hperm hnone, hfallback]
            exact ih (by omega) _ hrest

/-- The order of the items matters exactly if some choices lead to a state that is accepted, and others do not. -/
theorem run_perm_iff : (∀ items', items'.Perm items → S.run items' n s = S.run items n s) ↔
    ¬ (S.CanAccept items n s ∧ S.CanReject items n s) := by
  constructor
  · rintro hsame ⟨haccept, hreject⟩
    obtain ⟨good, hgood, htrue⟩ := haccept.exists_run
    obtain ⟨bad, hbad, hfalse⟩ := hreject.exists_run
    rw [hsame good hgood, ← hsame bad hbad, hfalse] at htrue
    cases htrue
  · intro hnot items' hperm
    by_contra hne
    refine hnot ?_
    cases hrun : S.run items n s with
    | true =>
        rw [hrun, Bool.not_eq_true] at hne
        exact ⟨canAccept_of_run (.refl _) hrun, canReject_of_run hperm hne⟩
    | false =>
        rw [hrun, Bool.not_eq_false] at hne
        exact ⟨canAccept_of_run hperm hne, canReject_of_run (.refl _) hrun⟩

/-! ## Ways to a state that is accepted -/

theorem CanAccept.exists_way (h : S.CanAccept items n s) :
    ∃ s', Relation.ReflTransGen (fun s t => S.May items s (some t)) s s' ∧ S.verdict s' = some true := by
  induction h with
  | here hverdict => exact ⟨_, .refl, hverdict⟩
  | step _ hmay _ ih =>
      obtain ⟨s', hway, hverdict⟩ := ih
      exact ⟨s', .head hmay hway, hverdict⟩

/-- Where all that is offered in a state is the same, there is no choice. -/
theorem May.unique (hone : ∀ i ∈ items, ∀ j ∈ items, ∀ o o', S.offer s i = some o → S.offer s j = some o' → o = o')
    {o' : Option σ} (h : S.May items s o) (h' : S.May items s o') : o = o' := by
  rcases h with ⟨i, hi, hoffer⟩ | ⟨hnone, hfallback⟩
  · rcases h' with ⟨j, hj, hoffer'⟩ | ⟨hnone', -⟩
    · exact hone i hi j hj o o' hoffer hoffer'
    · rw [hnone' i hi] at hoffer
      cases hoffer
  · rcases h' with ⟨j, hj, hoffer'⟩ | ⟨-, hfallback'⟩
    · rw [hnone j hj] at hoffer'
      cases hoffer'
    · exact hfallback.symm.trans hfallback'

theorem CanAccept.not_canReject (hone : ∀ s, ∀ i ∈ items, ∀ j ∈ items, ∀ o o', S.offer s i = some o →
    S.offer s j = some o' → o = o') (h : S.CanAccept items n s) : ¬ S.CanReject items n s := by
  induction h with
  | here hverdict =>
      rintro (_ | hverdict' | ⟨hverdict', -⟩ | ⟨hverdict', -, -⟩)
      all_goals rw [hverdict] at hverdict'; cases hverdict'
  | @step n s s' hverdict hmay _ ih =>
      rintro (_ | hverdict' | ⟨-, hstuck⟩ | ⟨-, hmay', hrest⟩)
      · rw [hverdict] at hverdict'
        cases hverdict'
      · cases hmay.unique (hone s) hstuck
      · cases hmay.unique (hone s) hmay'
        exact ih hrest

end Search

end FirstFit
