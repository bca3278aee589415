import Mathlib.Data.Finmap
import ThreeVa.Lib.Entries

/-!
# Filling a map

`insert` and `entry().or_insert()` of a hash map, one after the other over a list.
-/

namespace Finmap

variable {κ ν : Type} [DecidableEq κ] {m : Finmap fun _ : κ => ν} {k a : κ} {v : ν}

def orInsert (m : Finmap fun _ : κ => ν) (k : κ) (v : ν) : Finmap fun _ : κ => ν :=
  if (m.lookup k).isSome then m else m.insert k v

theorem lookup_orInsert : (m.orInsert k v).lookup a = (m.lookup a).or (if a = k then some v else none) := by
  unfold orInsert
  by_cases ha : a = k
  · subst ha
    cases h : m.lookup a with
    | none => simp
    | some w => simp [h]
  · split
    · simp
    · simp [ha, lookup_insert_of_ne]

theorem lookup_union (m' : Finmap fun _ : κ => ν) : (m ∪ m').lookup a = (m.lookup a).or (m'.lookup a) := by
  cases h : m.lookup a with
  | none => rw [lookup_union_right (lookup_eq_none.mp h), Option.none_or]
  | some v => rw [lookup_union_left (mem_of_lookup_eq_some h), h, Option.some_or]

/-- The first value under a key stays. -/
def orInsertAll (m : Finmap fun _ : κ => ν) (l : List (κ × ν)) : Finmap fun _ : κ => ν :=
  l.foldl (fun m x => m.orInsert x.1 x.2) m

theorem lookup_orInsertAll [BEq κ] [LawfulBEq κ] (l : List (κ × ν)) :
    (m.orInsertAll l).lookup a = (m.lookup a).or (l.lookup a) := by
  induction l generalizing m with
  | nil => simp [orInsertAll]
  | cons x l ih =>
      obtain ⟨k, v⟩ := x
      change ((m.orInsert k v).orInsertAll l).lookup a = _
      rw [ih, lookup_orInsert, Option.or_assoc, List.lookup_cons]
      by_cases ha : a = k
      · simp [ha]
      · simp [beq_false_of_ne ha, ha]

theorem orInsertAll_append (l l' : List (κ × ν)) : m.orInsertAll (l ++ l') = (m.orInsertAll l).orInsertAll l' :=
  List.foldl_append

/-- The last value under a key stays. -/
def putAll (m : Finmap fun _ : κ => ν) (l : List (κ × ν)) : Finmap fun _ : κ => ν :=
  l.foldl (fun m x => m.insert x.1 x.2) m

theorem lookup_putAll [BEq κ] [LawfulBEq κ] (l : List (κ × ν)) :
    (m.putAll l).lookup a = (l.reverse.lookup a).or (m.lookup a) := by
  induction l generalizing m with
  | nil => simp [putAll]
  | cons x l ih =>
      obtain ⟨k, v⟩ := x
      change ((m.insert k v).putAll l).lookup a = _
      rw [ih, List.reverse_cons, List.lookup_append, Option.or_assoc]
      congr 1
      by_cases ha : a = k
      · subst ha
        simp
      · simp [List.lookup_cons, beq_false_of_ne ha, lookup_insert_of_ne _ ha]

/-- One value under several keys. -/
def insertAll (m : Finmap fun _ : κ => ν) (ks : List κ) (v : ν) : Finmap fun _ : κ => ν :=
  ks.foldl (fun m k => m.insert k v) m

theorem lookup_insertAll (ks : List κ) :
    (m.insertAll ks v).lookup a = if a ∈ ks then some v else m.lookup a := by
  induction ks generalizing m with
  | nil => simp [insertAll]
  | cons k ks ih =>
      change ((m.insert k v).insertAll ks v).lookup a = _
      rw [ih]
      by_cases ha : a = k
      · subst ha
        simp
      · simp [ha, lookup_insert_of_ne]

theorem lookup_foldl_insertAll_of_not_mem {α : Type} (keys : α → List κ) (value : α → ν) {l : List α}
    (h : a ∉ l.flatMap keys) : (l.foldl (fun m x => m.insertAll (keys x) (value x)) m).lookup a = m.lookup a := by
  induction l generalizing m with
  | nil => rfl
  | cons y l ih =>
      rw [List.flatMap_cons, List.mem_append, not_or] at h
      rw [List.foldl_cons, ih h.2, lookup_insertAll, if_neg h.1]

/-- What is found was there before or comes from the list. -/
theorem cases_of_lookup_foldl_insertAll {α : Type} (keys : α → List κ) (value : α → ν) {l : List α}
    (h : (l.foldl (fun m x => m.insertAll (keys x) (value x)) m).lookup a = some v) :
    m.lookup a = some v ∨ ∃ x ∈ l, value x = v := by
  induction l generalizing m with
  | nil => exact .inl h
  | cons y l ih =>
      rcases ih h with h | ⟨x, hx, hv⟩
      · rw [lookup_insertAll] at h
        split at h
        · exact .inr ⟨y, List.mem_cons_self, Option.some.inj h⟩
        · exact .inl h
      · exact .inr ⟨x, List.mem_cons_of_mem _ hx, hv⟩

/-- With distinct keys, what is put under a key stays. -/
theorem lookup_foldl_insertAll {α : Type} (keys : α → List κ) (value : α → ν) {l : List α}
    (hdistinct : (l.flatMap keys).Nodup) {x : α} (hx : x ∈ l) (ha : a ∈ keys x) :
    (l.foldl (fun m x => m.insertAll (keys x) (value x)) m).lookup a = some (value x) := by
  induction l generalizing m with
  | nil => cases hx
  | cons y l ih =>
      rw [List.flatMap_cons, List.nodup_append] at hdistinct
      rw [List.foldl_cons]
      rcases List.mem_cons.mp hx with rfl | hx
      · have hnot : a ∉ l.flatMap keys := fun h => hdistinct.2.2 a ha a h rfl
        rw [lookup_foldl_insertAll_of_not_mem keys value hnot, lookup_insertAll, if_pos ha]
      · exact ih hdistinct.2.1 hx

/-- A map has an order of its entries. -/
theorem exists_entries (m : Finmap fun _ : κ => ν) : ∃ e : Entries κ ν, ∀ k, e.get? k = m.lookup k := by
  induction m using Finmap.induction_on with
  | H a =>
      refine ⟨⟨a.entries.map fun x => (x.1, x.2), ?_⟩, fun k => ?_⟩
      · rw [List.map_map]
        exact a.nodupKeys
      · ext v
        rw [Entries.get?_eq_some, lookup_toFinmap, ← Option.mem_def, AList.mem_lookup_iff]
        constructor
        · intro h
          obtain ⟨⟨k', v'⟩, hx, heq⟩ := List.mem_map.mp h
          cases heq
          exact hx
        · exact fun h => List.mem_map.mpr ⟨⟨k, v⟩, h, rfl⟩

end Finmap
