import Mathlib.Data.List.Basic
import Mathlib.Order.Bounds.Basic
import Mathlib.Order.Lattice.Nat
import Mathlib.Order.MinMax
import Mathlib.Tactic.Common

/-!
# Edit distance

How many insertions, deletions and substitutions of one element turn a list into another. The recursion on the first
elements computes the least number, through alignments of the two lists.
-/

namespace EditDistance

variable {α : Type}

/-! ## Edits -/

/-- One insertion, deletion or substitution. -/
inductive Edit : List α → List α → Prop
  | insert (l r : List α) (c : α) : Edit (l ++ r) (l ++ c :: r)
  | delete (l r : List α) (c : α) : Edit (l ++ c :: r) (l ++ r)
  | substitute (l r : List α) (c d : α) : Edit (l ++ c :: r) (l ++ d :: r)

/-- So many edits, one after the other. -/
inductive Edits : Nat → List α → List α → Prop
  | none (s : List α) : Edits 0 s s
  | more {n : Nat} {s t u : List α} (first : Edit s t) (rest : Edits n t u) : Edits (n + 1) s u

variable {s t u : List α} {m n : Nat}

theorem Edit.symm (h : Edit s t) : Edit t s := by
  cases h with
  | insert l r c => exact .delete l r c
  | delete l r c => exact .insert l r c
  | substitute l r c d => exact .substitute l r d c

theorem Edit.cons (c : α) (h : Edit s t) : Edit (c :: s) (c :: t) := by
  cases h with
  | insert l r d => exact .insert (c :: l) r d
  | delete l r d => exact .delete (c :: l) r d
  | substitute l r d e => exact .substitute (c :: l) r d e

theorem Edit.reverse (h : Edit s t) : Edit s.reverse t.reverse := by
  cases h with
  | insert l r c =>
      simp only [List.reverse_append, List.reverse_cons, List.append_assoc, List.singleton_append]
      exact .insert r.reverse l.reverse c
  | delete l r c =>
      simp only [List.reverse_append, List.reverse_cons, List.append_assoc, List.singleton_append]
      exact .delete r.reverse l.reverse c
  | substitute l r c d =>
      simp only [List.reverse_append, List.reverse_cons, List.append_assoc, List.singleton_append]
      exact .substitute r.reverse l.reverse c d

theorem Edits.trans (h : Edits m s t) (h' : Edits n t u) : Edits (m + n) s u := by
  induction h with
  | none s => rwa [Nat.zero_add]
  | more first rest ih =>
      rw [Nat.succ_add]
      exact .more first (ih h')

theorem Edits.single (h : Edit s t) : Edits 1 s t := .more h (.none t)

theorem Edits.symm (h : Edits n s t) : Edits n t s := by
  induction h with
  | none s => exact .none s
  | more first rest ih => exact ih.trans (.single first.symm)

theorem Edits.cons (c : α) (h : Edits n s t) : Edits n (c :: s) (c :: t) := by
  induction h with
  | none s => exact .none _
  | more first rest ih => exact .more (first.cons c) ih

theorem Edits.reverse (h : Edits n s t) : Edits n s.reverse t.reverse := by
  induction h with
  | none s => exact .none _
  | more first rest ih => exact .more first.reverse ih

theorem edits_reverse_iff : Edits n s.reverse t.reverse ↔ Edits n s t := by
  refine ⟨fun h => ?_, .reverse⟩
  have hback := h.reverse
  rwa [List.reverse_reverse, List.reverse_reverse] at hback

theorem Edits.eq (h : Edits 0 s t) : s = t := by
  cases h with
  | none s => rfl

/-! ## Alignments -/

/-- The two lists written one below the other, with so many columns that differ. -/
inductive Aligned : Nat → List α → List α → Prop
  | nil : Aligned 0 [] []
  | keep {n : Nat} {s t : List α} (c : α) (h : Aligned n s t) : Aligned n (c :: s) (c :: t)
  | insert {n : Nat} {s t : List α} (c : α) (h : Aligned n s t) : Aligned (n + 1) s (c :: t)
  | delete {n : Nat} {s t : List α} (c : α) (h : Aligned n s t) : Aligned (n + 1) (c :: s) t
  | substitute {n : Nat} {s t : List α} (c d : α) (h : Aligned n s t) : Aligned (n + 1) (c :: s) (d :: t)

theorem Aligned.refl (s : List α) : Aligned 0 s s := by
  induction s with
  | nil => exact .nil
  | cons c s ih => exact .keep c ih

theorem Aligned.edits (h : Aligned n s t) : Edits n s t := by
  induction h with
  | nil => exact .none []
  | keep c h ih => exact ih.cons c
  | insert c h ih => exact .more (.insert [] _ c) (ih.cons c)
  | delete c h ih => exact .more (.delete [] _ c) ih
  | substitute c d h ih => exact .more (.substitute [] _ c d) (ih.cons d)

/-- An alignment with at most so many columns that differ. -/
def Within (n : Nat) (s t : List α) : Prop := ∃ m ≤ n, Aligned m s t

theorem Within.keep (c : α) : Within n s t → Within n (c :: s) (c :: t)
  | ⟨m, hm, h⟩ => ⟨m, hm, .keep c h⟩

theorem Within.insert (c : α) : Within n s t → Within (n + 1) s (c :: t)
  | ⟨m, hm, h⟩ => ⟨m + 1, Nat.succ_le_succ hm, .insert c h⟩

theorem Within.delete (c : α) : Within n s t → Within (n + 1) (c :: s) t
  | ⟨m, hm, h⟩ => ⟨m + 1, Nat.succ_le_succ hm, .delete c h⟩

theorem Within.substitute (c d : α) : Within n s t → Within (n + 1) (c :: s) (d :: t)
  | ⟨m, hm, h⟩ => ⟨m + 1, Nat.succ_le_succ hm, .substitute c d h⟩

theorem Within.mono (h : Within m s t) (hmn : m ≤ n) : Within n s t :=
  h.imp fun _ hk => ⟨hk.1.trans hmn, hk.2⟩

theorem Aligned.within (h : Aligned n s t) : Within n s t := ⟨n, le_rfl, h⟩

/-- What follows a first element can be aligned with one more column that differs. -/
theorem Aligned.tail {c : α} (h : Aligned n (c :: s) t) : Within (n + 1) s t := by
  generalize hs : c :: s = cs at h
  induction h with
  | nil => cases hs
  | keep d h _ =>
      cases hs
      exact h.within.insert c
  | insert d h ih => exact (ih hs).insert d
  | delete d h _ =>
      cases hs
      exact h.within.mono (by omega)
  | substitute d e h _ =>
      cases hs
      exact (h.within.insert e).mono (by omega)

/-- Another first element costs at most one more column. -/
theorem Aligned.change {c : α} (d : α) (h : Aligned n (c :: s) t) : Within (n + 1) (d :: s) t := by
  generalize hs : c :: s = cs at h
  induction h with
  | nil => cases hs
  | keep e h _ =>
      cases hs
      exact h.within.substitute d c
  | insert e h ih => exact (ih hs).insert e
  | delete e h _ =>
      cases hs
      exact (h.within.delete d).mono (by omega)
  | substitute e f h _ =>
      cases hs
      exact (h.within.substitute d f).mono (by omega)

/-- What costs at most one more column for two lists does so below a common first element. -/
theorem within_cons {c : α} (hst : ∀ {n : Nat} {u : List α}, Aligned n t u → Within (n + 1) s u)
    (h : Aligned n (c :: t) u) : Within (n + 1) (c :: s) u := by
  generalize hs : c :: t = ct at h
  induction h with
  | nil => cases hs
  | keep e h _ =>
      cases hs
      exact (hst h).keep c
  | insert e h ih => exact (ih hs).insert e
  | delete e h _ =>
      cases hs
      exact (hst h).delete c
  | substitute e f h _ =>
      cases hs
      exact (hst h).substitute c f

/-- An edit before an alignment. -/
theorem Edit.aligned (h : Edit s t) : ∀ {n : Nat} {u : List α}, Aligned n t u → Within (n + 1) s u := by
  cases h with
  | insert l r c =>
      induction l with
      | nil => exact Aligned.tail
      | cons d l ih => exact within_cons ih
  | delete l r c =>
      induction l with
      | nil => exact fun h => h.within.delete c
      | cons d l ih => exact within_cons ih
  | substitute l r c d =>
      induction l with
      | nil => exact Aligned.change c
      | cons e l ih => exact within_cons ih

theorem Edits.within (h : Edits n s t) : Within n s t := by
  induction h with
  | none s => exact (Aligned.refl s).within
  | more first rest ih =>
      obtain ⟨m, hm, haligned⟩ := ih
      exact (first.aligned haligned).mono (Nat.succ_le_succ hm)

/-! ## The least number of edits -/

variable [DecidableEq α]

/-- The recursion on the first elements. -/
def distance : List α → List α → Nat
  | [], t => t.length
  | s, [] => s.length
  | c :: s, d :: t =>
      min (distance s (d :: t) + 1) (min (distance (c :: s) t + 1) (distance s t + if c = d then 0 else 1))
termination_by s t => s.length + t.length

theorem distance_nil_left (t : List α) : distance [] t = t.length := by rw [distance]

theorem distance_nil_right (s : List α) : distance s [] = s.length := by
  cases s with
  | nil => rw [distance_nil_left]
  | cons c s => rw [distance]; simp

theorem distance_cons (c d : α) (s t : List α) :
    distance (c :: s) (d :: t) =
      min (distance s (d :: t) + 1) (min (distance (c :: s) t + 1) (distance s t + if c = d then 0 else 1)) := by
  rw [distance]

theorem aligned_distance (s t : List α) : Aligned (distance s t) s t := by
  induction s, t using distance.induct with
  | case1 t =>
      rw [distance_nil_left]
      induction t with
      | nil => exact .nil
      | cons d t ih => exact .insert d ih
  | case2 s hs =>
      rw [distance_nil_right]
      clear hs
      induction s with
      | nil => exact .nil
      | cons c s ih => exact .delete c ih
  | case3 c s d t ihdelete ihinsert ihboth =>
      have hboth : Aligned (distance s t + if c = d then 0 else 1) (c :: s) (d :: t) := by
        split
        · subst d
          exact .keep c ihboth
        · exact .substitute c d ihboth
      rw [distance_cons]
      rcases min_choice (distance s (d :: t) + 1)
        (min (distance (c :: s) t + 1) (distance s t + if c = d then 0 else 1)) with h | h
      · rw [h]
        exact .delete c ihdelete
      · rw [h]
        rcases min_choice (distance (c :: s) t + 1) (distance s t + if c = d then 0 else 1) with h | h
        · rw [h]
          exact .insert d ihinsert
        · rw [h]
          exact hboth

theorem distance_insert_le (d : α) (s t : List α) : distance s (d :: t) ≤ distance s t + 1 := by
  cases s with
  | nil => simp [distance_nil_left]
  | cons c s =>
      rw [distance_cons]
      omega

theorem distance_delete_le (c : α) (s t : List α) : distance (c :: s) t ≤ distance s t + 1 := by
  cases t with
  | nil => simp [distance_nil_right]
  | cons d t =>
      rw [distance_cons]
      omega

theorem Aligned.distance_le (h : Aligned n s t) : distance s t ≤ n := by
  induction h with
  | nil => simp [distance_nil_left]
  | keep c h ih =>
      rw [distance_cons, if_pos rfl]
      omega
  | insert d h ih => exact (distance_insert_le d _ _).trans (by omega)
  | delete c h ih => exact (distance_delete_le c _ _).trans (by omega)
  | substitute c d h ih =>
      rw [distance_cons]
      split <;> omega

theorem distance_isLeast (s t : List α) : IsLeast {n | Edits n s t} (distance s t) := by
  refine ⟨(aligned_distance s t).edits, fun n h => ?_⟩
  obtain ⟨m, hm, haligned⟩ := Edits.within h
  exact haligned.distance_le.trans hm

theorem edits_distance (s t : List α) : Edits (distance s t) s t := (distance_isLeast s t).1

theorem distance_le (h : Edits n s t) : distance s t ≤ n := (distance_isLeast s t).2 h

theorem distance_eq_zero_iff : distance s t = 0 ↔ s = t := by
  refine ⟨fun h => (h ▸ edits_distance s t).eq, fun h => ?_⟩
  rw [h]
  exact Nat.le_zero.mp (distance_le (.none t))

theorem distance_comm (s t : List α) : distance s t = distance t s :=
  le_antisymm (distance_le (edits_distance t s).symm) (distance_le (edits_distance s t).symm)

theorem distance_triangle (s t u : List α) : distance s u ≤ distance s t + distance t u :=
  distance_le ((edits_distance s t).trans (edits_distance t u))

theorem distance_reverse (s t : List α) : distance s.reverse t.reverse = distance s t :=
  le_antisymm (distance_le (edits_distance s t).reverse) (distance_le (edits_reverse_iff.mp (edits_distance _ _)))

/-- The recursion on the last elements. -/
theorem distance_concat (s t : List α) (c d : α) :
    distance (s ++ [c]) (t ++ [d]) =
      min (distance s (t ++ [d]) + 1) (min (distance (s ++ [c]) t + 1) (distance s t + if c = d then 0 else 1)) := by
  rw [← distance_reverse (s ++ [c]), ← distance_reverse s (t ++ [d]), ← distance_reverse (s ++ [c]) t,
    ← distance_reverse s t]
  simp only [List.reverse_append, List.reverse_singleton, List.singleton_append]
  exact distance_cons c d _ _

end EditDistance
