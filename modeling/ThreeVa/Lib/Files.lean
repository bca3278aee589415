import Mathlib.Data.List.Dedup
import Mathlib.Tactic.Common

/-!
# File trees

A tree of regular files is the list of its files by path; a directory is what has a file below it. The functions on lists
need no more, and a `Tree` is a list in which no file is at the place of a directory.
-/

namespace Files

variable {ν β : Type}

/-! ## Paths -/

/-- `q` lies below the directory `r`. -/
def Below (r q : List ν) : Prop := r <+: q ∧ r ≠ q

theorem below_iff {r q : List ν} : Below r q ↔ ∃ n rest, q = r ++ n :: rest := by
  constructor
  · rintro ⟨⟨s, rfl⟩, hne⟩
    cases s with
    | nil => simp at hne
    | cons n rest => exact ⟨n, rest, rfl⟩
  · rintro ⟨n, rest, rfl⟩
    exact ⟨List.prefix_append _ _, by simp⟩

theorem below_append (r : List ν) (n : ν) (rest : List ν) : Below r (r ++ n :: rest) := below_iff.mpr ⟨n, rest, rfl⟩

/-- What lies below a directory is in it or lies below one in it. -/
theorem Below.child {r q : List ν} (h : Below r q) : ∃ n, q = r ++ [n] ∨ Below (r ++ [n]) q := by
  obtain ⟨n, rest, rfl⟩ := below_iff.mp h
  cases rest with
  | nil => exact ⟨n, .inl rfl⟩
  | cons m rest => exact ⟨n, .inr (below_iff.mpr ⟨m, rest, by simp⟩)⟩

theorem Below.trans_below {r q s : List ν} (h : Below r q) (h' : q <+: s) : Below r s := by
  obtain ⟨n, rest, rfl⟩ := below_iff.mp h
  obtain ⟨t, rfl⟩ := h'
  rw [List.append_assoc, List.cons_append]
  exact below_append _ _ _

theorem Below.prefix_trans {r q s : List ν} (h : r <+: q) (h' : Below q s) : Below r s := by
  obtain ⟨t, rfl⟩ := h
  obtain ⟨n, rest, rfl⟩ := below_iff.mp h'
  rw [List.append_assoc]
  cases t with
  | nil => exact below_append _ _ _
  | cons m t => exact below_append _ _ _

theorem Below.trans {r q s : List ν} (h : Below r q) (h' : Below q s) : Below r s := h.trans_below h'.1

theorem below_dropLast {r q : List ν} : Below r q ↔ q ≠ [] ∧ r <+: q.dropLast := by
  rcases List.eq_nil_or_concat q with rfl | ⟨q, n, rfl⟩
  · simp [Below]
  · rw [List.concat_eq_append, List.dropLast_concat, Below]
    constructor
    · rintro ⟨hpre, hne⟩
      exact ⟨by simp, (List.prefix_concat_iff.mp hpre).resolve_left hne⟩
    · rintro ⟨-, hpre⟩
      refine ⟨hpre.trans (List.prefix_append _ _), ?_⟩
      rintro rfl
      have hlength := hpre.length_le
      rw [List.length_append, List.length_singleton] at hlength
      omega

/-! ## Listings -/

variable [DecidableEq ν]

instance (r q : List ν) : Decidable (Below r q) := inferInstanceAs (Decidable (_ ∧ _))

def lookup (t : List (List ν × β)) (q : List ν) : Option β := (t.find? fun f => f.1 = q).map Prod.snd

def isDir (t : List (List ν × β)) (r : List ν) : Bool := t.any fun f => Below r f.1

/-- There is a file or a directory. -/
def isThere (t : List (List ν × β)) (q : List ν) : Bool := (lookup t q).isSome || isDir t q

def nameBelow (r q : List ν) : Option ν := if r <+: q then (q.drop r.length).head? else none

/-- The names in a directory. -/
def readDir (t : List (List ν × β)) (r : List ν) : List ν := (t.filterMap fun f => nameBelow r f.1).dedup

structure Tree (ν β : Type) where
  files : List (List ν × β)
  distinct : (files.map Prod.fst).Nodup
  rooted : ∀ f ∈ files, f.1 ≠ []
  apart : ∀ f ∈ files, ∀ g ∈ files, ¬ Below f.1 g.1

/-! ## Lookups -/

variable {t : List (List ν × β)} {r q : List ν}

theorem lookup_isSome : (lookup t q).isSome ↔ ∃ b, (q, b) ∈ t := by
  unfold lookup
  rw [Option.isSome_map, List.find?_isSome]
  constructor
  · rintro ⟨f, hf, heq⟩
    obtain rfl : f.1 = q := by simpa using heq
    exact ⟨f.2, hf⟩
  · rintro ⟨b, hb⟩
    exact ⟨(q, b), hb, by simp⟩

theorem mem_of_lookup {b : β} (h : lookup t q = some b) : (q, b) ∈ t := by
  unfold lookup at h
  obtain ⟨f, hfind, rfl⟩ := Option.map_eq_some_iff.mp h
  have hf : f.1 = q := by simpa using List.find?_some hfind
  exact hf ▸ List.mem_of_find?_eq_some hfind

theorem lookup_of_mem (ht : (t.map Prod.fst).Nodup) {b : β} (h : (q, b) ∈ t) : lookup t q = some b := by
  induction t with
  | nil => cases h
  | cons f t ih =>
      rw [List.map_cons, List.nodup_cons] at ht
      unfold lookup
      rcases List.mem_cons.mp h with rfl | h
      · simp
      · have hne : f.1 ≠ q := fun heq => ht.1 (heq ▸ List.mem_map_of_mem h)
        rw [List.find?_cons_of_neg (by simpa using hne)]
        exact ih ht.2 h

/-- Replacing a file leaves the others. -/
theorem lookup_replace (h : q ≠ r) (b : β) : lookup (t.filter (fun f => f.1 ≠ r) ++ [(r, b)]) q = lookup t q := by
  induction t with
  | nil => simp [lookup, Ne.symm h]
  | cons f t ih =>
      unfold lookup at ih ⊢
      by_cases hr : f.1 = r
      · have hq : f.1 ≠ q := fun hq => h (hq.symm.trans hr)
        rw [List.filter_cons_of_neg (by simpa using hr), ih, List.find?_cons_of_neg (by simpa using hq)]
      · rw [List.filter_cons_of_pos (by simpa using hr), List.cons_append]
        by_cases hq : f.1 = q
        · rw [List.find?_cons_of_pos (by simpa using hq), List.find?_cons_of_pos (by simpa using hq)]
        · rw [List.find?_cons_of_neg (by simpa using hq), List.find?_cons_of_neg (by simpa using hq), ih]

theorem lookup_replaced (b : β) : lookup (t.filter (fun f => f.1 ≠ r) ++ [(r, b)]) r = some b := by
  unfold lookup
  rw [List.find?_append, List.find?_eq_none.mpr]
  · simp
  · intro f hf
    simpa using (List.mem_filter.mp hf).2

theorem isDir_iff : isDir t r ↔ ∃ q b, (q, b) ∈ t ∧ Below r q := by
  unfold isDir
  rw [List.any_eq_true]
  constructor
  · rintro ⟨f, hf, hbelow⟩
    exact ⟨f.1, f.2, hf, by simpa using hbelow⟩
  · rintro ⟨q, b, hf, hbelow⟩
    exact ⟨(q, b), hf, by simpa using hbelow⟩

theorem isDir_of_mem {b : β} (h : (q, b) ∈ t) (hbelow : Below r q) : isDir t r := isDir_iff.mpr ⟨q, b, h, hbelow⟩

theorem isThere_iff : isThere t r ↔ ∃ q b, (q, b) ∈ t ∧ r <+: q := by
  unfold isThere
  rw [Bool.or_eq_true, lookup_isSome, isDir_iff]
  constructor
  · rintro (⟨b, hb⟩ | ⟨q, b, hb, hbelow⟩)
    · exact ⟨r, b, hb, List.prefix_rfl⟩
    · exact ⟨q, b, hb, hbelow.1⟩
  · rintro ⟨q, b, hb, hpre⟩
    by_cases heq : r = q
    · exact .inl ⟨b, heq ▸ hb⟩
    · exact .inr ⟨q, b, hb, hpre, heq⟩

theorem isDir_of_isThere (h : isThere t q) (hbelow : Below r q) : isDir t r := by
  obtain ⟨s, b, hb, hpre⟩ := isThere_iff.mp h
  exact isDir_of_mem hb (hbelow.trans_below hpre)

theorem nameBelow_eq_some {n : ν} : nameBelow r q = some n ↔ r ++ [n] <+: q := by
  unfold nameBelow
  constructor
  · intro h
    split at h
    · rename_i hpre
      obtain ⟨s, rfl⟩ := hpre
      rw [List.drop_left, List.head?_eq_some_iff] at h
      obtain ⟨rest, rfl⟩ := h
      exact ⟨rest, by simp⟩
    · cases h
  · rintro ⟨rest, rfl⟩
    rw [List.append_assoc, if_pos (List.prefix_append _ _), List.drop_left]
    rfl

/-- The names in a directory are those of the files and directories there. -/
theorem mem_readDir {n : ν} : n ∈ readDir t r ↔ isThere t (r ++ [n]) := by
  unfold readDir
  rw [List.mem_dedup, List.mem_filterMap, isThere_iff]
  constructor
  · rintro ⟨f, hf, hname⟩
    exact ⟨f.1, f.2, hf, nameBelow_eq_some.mp hname⟩
  · rintro ⟨q, b, hb, hpre⟩
    exact ⟨(q, b), hb, nameBelow_eq_some.mpr hpre⟩

theorem readDir_nodup (t : List (List ν × β)) (r : List ν) : (readDir t r).Nodup := List.nodup_dedup _

/-! ## Trees -/

namespace Tree

variable {t : Tree ν β}

theorem lookup_eq_some {b : β} : lookup t.files q = some b ↔ (q, b) ∈ t.files :=
  ⟨mem_of_lookup, lookup_of_mem t.distinct⟩

/-- No file has another below it. -/
theorem not_isDir {b : β} (h : lookup t.files q = some b) : isDir t.files q = false := by
  rw [Bool.eq_false_iff]
  intro hdir
  obtain ⟨s, c, hs, hbelow⟩ := isDir_iff.mp hdir
  exact t.apart (q, b) (lookup_eq_some.mp h) (s, c) hs hbelow

theorem lookup_below {b : β} (h : lookup t.files r = some b) (hbelow : Below r q) : lookup t.files q = none := by
  cases hq : lookup t.files q with
  | none => rfl
  | some c => exact absurd hbelow (t.apart (r, b) (lookup_eq_some.mp h) (q, c) (lookup_eq_some.mp hq))

theorem lookup_of_isDir (h : isDir t.files r) : lookup t.files r = none := by
  cases hr : lookup t.files r with
  | none => rfl
  | some b =>
      rw [not_isDir hr] at h
      cases h

end Tree

end Files
