import Mathlib.Data.List.Sort
import Mathlib.Data.Option.Basic
import Mathlib.Tactic.Common

/-!
# Entries in an order

A hash map as the list of its entries in the order its iterator gives them, the stable sort of a list, and the last of
its largest elements.
-/

open List Std

/-- A hash map, its entries in the order its iterator gives them. -/
structure Entries (κ ν : Type) where
  list : List (κ × ν)
  distinct : (list.map Prod.fst).Nodup

namespace Entries

variable {α β κ ν : Type}

def empty : Entries κ ν := ⟨[], List.nodup_nil⟩

theorem eq_of_key_eq (e : Entries κ ν) {a b : κ × ν} (ha : a ∈ e.list) (hb : b ∈ e.list) (h : a.1 = b.1) : a = b :=
  List.inj_on_of_nodup_map e.distinct ha hb h

/-! ## Inserting -/

/-- `insert`: the value under a key is replaced. -/
def insert [DecidableEq κ] (e : Entries κ ν) (k : κ) (v : ν) : Entries κ ν where
  list := (e.list.filter fun x => x.1 ≠ k) ++ [(k, v)]
  distinct := by
    rw [List.map_append, List.nodup_append]
    refine ⟨e.distinct.sublist (List.filter_sublist.map _), List.nodup_singleton _, ?_⟩
    intro a ha b hb heq
    obtain ⟨x, hx, rfl⟩ := List.mem_map.mp ha
    have hne := (List.mem_filter.mp hx).2
    simp only [List.map_cons, List.map_nil, List.mem_singleton] at hb
    simp [heq, hb] at hne

theorem mem_keys_insert [DecidableEq κ] {e : Entries κ ν} {k k' : κ} {v : ν} :
    k' ∈ (e.insert k v).list.map Prod.fst ↔ k' ∈ e.list.map Prod.fst ∨ k' = k := by
  by_cases h : k' = k
  · simp [insert, h]
  · simp [insert, h]

def get? [DecidableEq κ] (e : Entries κ ν) (k : κ) : Option ν := (e.list.find? fun x => x.1 = k).map Prod.snd

theorem get?_eq_some [DecidableEq κ] {e : Entries κ ν} {k : κ} {v : ν} : e.get? k = some v ↔ (k, v) ∈ e.list := by
  constructor
  · intro h
    obtain ⟨x, hx, rfl⟩ := Option.map_eq_some_iff.mp h
    obtain rfl : x.1 = k := by simpa using List.find?_some hx
    exact List.mem_of_find?_eq_some hx
  · intro h
    cases hfind : e.list.find? fun x => x.1 = k with
    | none => exact absurd (List.find?_eq_none.mp hfind _ h) (by simp)
    | some x =>
        have hkey : x.1 = k := by simpa using List.find?_some hfind
        have hx := e.eq_of_key_eq (List.mem_of_find?_eq_some hfind) h hkey
        simp [get?, hfind, hx]

theorem get?_insert [DecidableEq κ] {e : Entries κ ν} {k k' : κ} {v : ν} :
    (e.insert k v).get? k' = if k' = k then some v else e.get? k' := by
  ext w
  rw [get?_eq_some]
  by_cases h : k' = k
  · simp [insert, h, eq_comm]
  · simp [insert, h, get?_eq_some]

theorem get?_congr [DecidableEq κ] {e e' : Entries κ ν} (h : ∀ x, x ∈ e.list ↔ x ∈ e'.list) (k : κ) :
    e.get? k = e'.get? k := by
  ext v
  rw [get?_eq_some, get?_eq_some, h]

/-- The same map in an order that begins with one of its entries. -/
def front [DecidableEq κ] (e : Entries κ ν) (x : κ × ν) : Entries κ ν where
  list := x :: e.list.filter fun y => y.1 ≠ x.1
  distinct := by
    rw [List.map_cons, List.nodup_cons]
    refine ⟨fun h => ?_, e.distinct.sublist (List.filter_sublist.map _)⟩
    obtain ⟨y, hy, heq⟩ := List.mem_map.mp h
    simp [heq] at hy

theorem mem_front [DecidableEq κ] {e : Entries κ ν} {x y : κ × ν} (hx : x ∈ e.list) :
    y ∈ (e.front x).list ↔ y ∈ e.list := by
  simp only [front, List.mem_cons, List.mem_filter, decide_eq_true_eq]
  constructor
  · rintro (rfl | h)
    · exact hx
    · exact h.1
  · intro hy
    by_cases hkey : y.1 = x.1
    · exact .inl (e.eq_of_key_eq hy hx hkey)
    · exact .inr ⟨hy, hkey⟩

/-- `remove` -/
def remove [DecidableEq κ] (e : Entries κ ν) (k : κ) : Entries κ ν where
  list := e.list.filter fun x => x.1 ≠ k
  distinct := e.distinct.sublist (List.filter_sublist.map _)

/-- `get_mut`: the value under a key is changed where it stands. -/
def modify [DecidableEq κ] (e : Entries κ ν) (k : κ) (f : ν → ν) : Entries κ ν where
  list := e.list.map fun x => if x.1 = k then (x.1, f x.2) else x
  distinct := by
    rw [List.map_map, show Prod.fst ∘ (fun x : κ × ν => if x.1 = k then (x.1, f x.2) else x) = Prod.fst from
      funext fun x => by simp only [Function.comp_apply]; split <;> rfl]
    exact e.distinct

theorem get?_modify [DecidableEq κ] {e : Entries κ ν} {k k' : κ} {f : ν → ν} :
    (e.modify k f).get? k' = if k' = k then (e.get? k').map f else e.get? k' := by
  ext w
  rw [get?_eq_some]
  simp only [modify, List.mem_map]
  constructor
  · rintro ⟨⟨a, b⟩, hx, heq⟩
    by_cases ha : a = k
    · simp only [ha, ↓reduceIte, Prod.mk.injEq] at heq
      obtain ⟨rfl, rfl⟩ := heq
      simpa using ⟨b, get?_eq_some.mpr (ha ▸ hx), rfl⟩
    · simp only [ha, ↓reduceIte, Prod.mk.injEq] at heq
      obtain ⟨rfl, rfl⟩ := heq
      simpa [ha] using get?_eq_some.mpr hx
  · intro h
    by_cases hk : k' = k
    · rw [if_pos hk] at h
      obtain ⟨b, hb, rfl⟩ := Option.map_eq_some_iff.mp h
      exact ⟨(k', b), get?_eq_some.mp hb, by simp [hk]⟩
    · rw [if_neg hk] at h
      exact ⟨(k', w), get?_eq_some.mp h, by simp [hk]⟩

/-- Each value is replaced or removed. -/
def filterMapValues (e : Entries κ ν) (f : ν → Option ν) : Entries κ ν where
  list := e.list.filterMap fun x => (f x.2).map fun v => (x.1, v)
  distinct := by
    rw [List.map_filterMap]
    refine List.Pairwise.filterMap _ (fun x y hne k hk k' hk' => ?_) (List.pairwise_map.mp e.distinct)
    obtain ⟨-, rfl⟩ : (∃ v, f x.2 = some v) ∧ x.1 = k := by simpa using hk
    obtain ⟨-, rfl⟩ : (∃ v, f y.2 = some v) ∧ y.1 = k' := by simpa using hk'
    exact hne

theorem get?_filterMapValues [DecidableEq κ] {e : Entries κ ν} {f : ν → Option ν} {k : κ} :
    (e.filterMapValues f).get? k = (e.get? k).bind f := by
  ext w
  rw [get?_eq_some]
  simp only [filterMapValues, List.mem_filterMap, Option.map_eq_some_iff, Prod.mk.injEq, Option.bind_eq_some_iff]
  constructor
  · rintro ⟨⟨a, b⟩, hx, v, hv, rfl, rfl⟩
    exact ⟨b, get?_eq_some.mpr hx, hv⟩
  · rintro ⟨b, hb, hv⟩
    exact ⟨(k, b), get?_eq_some.mp hb, w, hv, rfl, rfl⟩

/-- A map filled from a list, from left to right. -/
def collect [DecidableEq κ] (key : α → κ) (value : α → ν) (l : List α) (e : Entries κ ν) : Entries κ ν :=
  l.foldl (fun e a => e.insert (key a) (value a)) e

theorem mem_keys_collect [DecidableEq κ] {key : α → κ} {value : α → ν} {l : List α} {e : Entries κ ν} {k : κ} :
    k ∈ (collect key value l e).list.map Prod.fst ↔ k ∈ e.list.map Prod.fst ∨ k ∈ l.map key := by
  induction l generalizing e with
  | nil => simp [collect]
  | cons a l ih =>
      change k ∈ (collect key value l (e.insert (key a) (value a))).list.map Prod.fst ↔ _
      rw [ih, mem_keys_insert, List.map_cons, List.mem_cons, or_assoc]

theorem mem_collect [DecidableEq κ] {key : α → κ} {value : α → ν} {l : List α} {e : Entries κ ν} {x : κ × ν}
    (h : x ∈ (collect key value l e).list) : x ∈ e.list ∨ ∃ a ∈ l, x = (key a, value a) := by
  induction l generalizing e with
  | nil => exact .inl h
  | cons a l ih =>
      rcases ih h with h | ⟨b, hb, rfl⟩
      · rcases List.mem_append.mp h with h | h
        · exact .inl (List.mem_filter.mp h).1
        · exact .inr ⟨a, List.mem_cons_self, List.mem_singleton.mp h⟩
      · exact .inr ⟨b, List.mem_cons_of_mem _ hb, rfl⟩

/-! ## Sorting -/

theorem transCmp_on (f : α → β) {cmp : β → β → Ordering} (h : TransCmp cmp) : TransCmp fun a b => cmp (f a) (f b) where
  eq_swap := h.eq_swap
  isLE_trans := h.isLE_trans

def sortBy (cmp : α → α → Ordering) (l : List α) : List α := l.insertionSort fun a b => (cmp a b).isLE

@[simp] theorem mem_sortBy {cmp : α → α → Ordering} {l : List α} {a : α} : a ∈ sortBy cmp l ↔ a ∈ l :=
  List.mem_insertionSort _

theorem pairwise_sortBy {cmp : α → α → Ordering} [TransCmp cmp] (l : List α) :
    (sortBy cmp l).Pairwise fun a b => (cmp a b).isLE := by
  have htotal : Std.Total fun a b => ((cmp a b).isLE : Prop) :=
    ⟨fun a b => by rw [← OrientedCmp.isGE_iff_isLE (a := a)]; cases cmp a b <;> simp⟩
  have htrans : IsTrans α fun a b => (cmp a b).isLE := ⟨fun _ _ _ => TransCmp.isLE_trans⟩
  exact List.pairwise_insertionSort _ l

/-- Lists that differ in order only are sorted to the same list, if no two elements are equal in the order. -/
theorem sortBy_eq_of_perm {cmp : α → α → Ordering} [TransCmp cmp] {l l' : List α} (h : l ~ l')
    (hinj : ∀ a ∈ l, ∀ b ∈ l, cmp a b = .eq → a = b) : sortBy cmp l = sortBy cmp l' := by
  have hperm : sortBy cmp l ~ sortBy cmp l' :=
    (List.perm_insertionSort _ l).trans (h.trans (List.perm_insertionSort _ l').symm)
  apply hperm.eq_of_pairwise (fun a b ha hb hab hba => ?_) (pairwise_sortBy l) (pairwise_sortBy l')
  exact hinj a (mem_sortBy.mp ha) b (h.mem_iff.mpr (mem_sortBy.mp hb)) (OrientedCmp.isLE_antisymm hab hba)

/-- The first element with a value is the smallest of them. -/
theorem findSome?_sortBy {cmp : α → α → Ordering} [TransCmp cmp] {l : List α} {f : α → Option β} {b : β}
    (hinj : ∀ a ∈ l, ∀ b ∈ l, cmp a b = .eq → a = b) :
    (sortBy cmp l).findSome? f = some b ↔ ∃ a ∈ l, f a = some b ∧ ∀ a' ∈ l, cmp a' a = .lt → f a' = none := by
  have hsorted : (sortBy cmp l).Pairwise fun a b => (cmp a b).isLE := pairwise_sortBy l
  constructor
  · intro h
    obtain ⟨before, a, after, hsplit, ha, hnone⟩ := List.findSome?_eq_some_iff.mp h
    have hmem : a ∈ sortBy cmp l := hsplit ▸ List.mem_append_right _ List.mem_cons_self
    rw [hsplit] at hsorted
    refine ⟨a, mem_sortBy.mp hmem, ha, fun a' ha' hlt => ?_⟩
    have hmem : a' ∈ before ++ a :: after := hsplit ▸ mem_sortBy.mpr ha'
    rcases List.mem_append.mp hmem with hbefore | hafter
    · exact hnone a' hbefore
    · exfalso
      rcases List.mem_cons.mp hafter with rfl | hafter
      · have hself : cmp a' a' = .eq := ReflCmp.compare_self
        rw [hself] at hlt
        cases hlt
      · have hle := (List.pairwise_cons.mp (List.pairwise_append.mp hsorted).2.1).1 a' hafter
        rw [OrientedCmp.gt_of_lt hlt] at hle
        cases hle
  · rintro ⟨a, hmem, ha, hnone⟩
    obtain ⟨before, after, hsplit, hnot⟩ := List.eq_append_cons_of_mem (mem_sortBy.mpr hmem)
    rw [hsplit] at hsorted
    refine List.findSome?_eq_some_iff.mpr ⟨before, a, after, hsplit, ha, fun x hx => ?_⟩
    have hxs : x ∈ sortBy cmp l := hsplit ▸ List.mem_append_left _ hx
    have hxl := mem_sortBy.mp hxs
    have hle := (List.pairwise_append.mp hsorted).2.2 x hx a List.mem_cons_self
    refine hnone x hxl ?_
    cases hcmp : cmp x a with
    | lt => rfl
    | eq => exact absurd (hinj x hxl a hmem hcmp ▸ hx) hnot
    | gt =>
        rw [hcmp] at hle
        cases hle

/-! ## The largest element -/

/-- The second of two elements, unless the first is greater. -/
def larger (cmp : α → α → Ordering) (a b : α) : α := if cmp a b = .gt then a else b

def maxBy (cmp : α → α → Ordering) : List α → Option α
  | [] => none
  | x :: xs => some (xs.foldl (larger cmp) x)

theorem larger_spec (cmp : α → α → Ordering) [TransCmp cmp] (a b : α) :
    (larger cmp a b = a ∨ larger cmp a b = b) ∧ (cmp a (larger cmp a b)).isLE ∧ (cmp b (larger cmp a b)).isLE := by
  unfold larger
  split
  · rename_i hgt
    exact ⟨.inl rfl, ReflCmp.isLE_rfl, by simp [OrientedCmp.lt_of_gt hgt]⟩
  · rename_i hle
    exact ⟨.inr rfl, by cases hc : cmp a b <;> simp_all, ReflCmp.isLE_rfl⟩

theorem maxBy_eq_none {cmp : α → α → Ordering} {l : List α} : maxBy cmp l = none ↔ l = [] := by
  cases l <;> simp [maxBy]

theorem foldl_larger {cmp : α → α → Ordering} [TransCmp cmp] (l : List α) (x : α) :
    l.foldl (larger cmp) x ∈ x :: l ∧ ∀ y ∈ x :: l, (cmp y (l.foldl (larger cmp) x)).isLE := by
  induction l generalizing x with
  | nil => simp [ReflCmp.isLE_rfl]
  | cons b l ih =>
      obtain ⟨hmem, hmax⟩ := ih (larger cmp x b)
      obtain ⟨hor, hx, hb⟩ := larger_spec cmp x b
      have htop := hmax _ List.mem_cons_self
      rw [List.foldl_cons]
      constructor
      · rcases List.mem_cons.mp hmem with heq | hmem
        · rw [heq]
          rcases hor with h | h <;> simp [h]
        · simp [hmem]
      · intro y hy
        rcases List.mem_cons.mp hy with rfl | hy
        · exact TransCmp.isLE_trans hx htop
        · rcases List.mem_cons.mp hy with rfl | hy
          · exact TransCmp.isLE_trans hb htop
          · exact hmax y (List.mem_cons_of_mem _ hy)

theorem maxBy_eq_some {cmp : α → α → Ordering} [TransCmp cmp] {l : List α} {x : α} (h : maxBy cmp l = some x) :
    x ∈ l ∧ ∀ y ∈ l, (cmp y x).isLE := by
  cases l with
  | nil => cases h
  | cons y l =>
      rw [maxBy, Option.some.injEq] at h
      exact h ▸ foldl_larger l y

theorem mem_of_maxBy {cmp : α → α → Ordering} {l : List α} {x : α} (h : maxBy cmp l = some x) : x ∈ l := by
  cases l with
  | nil => cases h
  | cons y l =>
      have hfold : ∀ (l : List α) y, l.foldl (larger cmp) y ∈ y :: l := by
        intro l
        induction l with
        | nil => simp
        | cons b l ih =>
            intro y
            rw [List.foldl_cons]
            rcases List.mem_cons.mp (ih (larger cmp y b)) with heq | hmem
            · rw [heq, larger]
              split <;> simp
            · simp [hmem]
      rw [maxBy, Option.some.injEq] at h
      exact h ▸ hfold l y

/-- What holds between the elements of two lists holds between their largest ones, if it keeps the order. -/
theorem maxBy_rel {R : α → β → Prop} {cmp : α → α → Ordering} {cmp' : β → β → Ordering}
    (hcmp : ∀ a b a' b', R a a' → R b b' → cmp a b = cmp' a' b') {l : List α} {l' : List β}
    (h : List.Forall₂ R l l') : Option.Rel R (maxBy cmp l) (maxBy cmp' l') := by
  have hfold : ∀ l l', List.Forall₂ R l l' → ∀ x x', R x x' → R (l.foldl (larger cmp) x) (l'.foldl (larger cmp') x') := by
    intro l l' hl
    induction hl with
    | nil => exact fun _ _ hx => hx
    | @cons y y' l l' hy _ ih =>
        intro x x' hx
        apply ih _ _ ?_
        rw [larger, larger, hcmp x y x' y' hx hy]
        split
        · exact hx
        · exact hy
  cases h with
  | nil => exact .none
  | cons hx hl => exact .some (hfold _ _ hl _ _ hx)

end Entries
