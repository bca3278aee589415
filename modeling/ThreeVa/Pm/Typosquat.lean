import ThreeVa.Lib.Lines
import ThreeVa.Lib.EditDistance

/-!
# Typosquatting

The check of `pm/src/typosquat.rs` of a package name against the list of popular packages.
-/

namespace ThreeVa.Pm
open Text

namespace Typosquat

def typosquatMaxDistance : Nat := 2

structure TyposquatFinding where
  requested : Str
  likelyTarget : Str
  distance : Nat
deriving DecidableEq

/-- The names of the list, from the text of the embedded file. -/
def popularPackages (raw : Str) : List Str :=
  ((lines raw).map trim).filter fun l => !l.isEmpty && l.head? != some '#'

/-- The body of the loop over `j`, which writes `cur[j]`. -/
def cell (a b : Str) (i : Nat) (prev cur : List Nat) (j : Nat) : List Nat :=
  let cost := if a[i - 1]! ≠ b[j - 1]! then 1 else 0
  cur.set j (min (min (prev[j]! + 1) (cur[j - 1]! + 1)) (prev[j - 1]! + cost))

/-- The body of the loop over `i`: the two rows after it, swapped. -/
def row (a b : Str) (rows : List Nat × List Nat) (i : Nat) : List Nat × List Nat :=
  let (prev, cur) := rows
  ((List.range' 1 b.length).foldl (cell a b i prev) (cur.set 0 i), prev)

def levenshtein (a b : Str) : Nat :=
  if a.isEmpty then b.length
  else if b.isEmpty then a.length
  else
    let prev := List.range (b.length + 1)
    let cur := List.replicate (b.length + 1) 0
    ((List.range' 1 a.length).foldl (row a b) (prev, cur)).1[b.length]!

/-- The loop over the list: nothing as soon as the name itself is met. -/
def closest (name : Str) : List Str → Option (Nat × Str) → Option (Nat × Str)
  | [], best => best
  | target :: rest, best =>
      if target = name then none
      else
        let d := levenshtein name target
        closest name rest (if d ≤ typosquatMaxDistance ∧ ∀ b ∈ best, d < b.1 then some (d, target) else best)

def checkPackageName (raw name : Str) : Option TyposquatFinding :=
  (closest name (popularPackages raw) none).map fun best => ⟨name, best.2, best.1⟩

end Typosquat

end ThreeVa.Pm

/-!
## The rows of the edit distance

Row `i` holds the distances of the first `i` characters of the name to the beginnings of the target. The loops fill it
from the row before, and what the row held two rounds earlier is overwritten.
-/

namespace ThreeVa.Pm.Typosquat
open Text EditDistance

variable {a b : Str} {i j : Nat} {prev cur : List Nat}

/-- The first cells of row `i`. -/
structure Row (a b : Str) (i filled : Nat) (r : List Nat) : Prop where
  length : r.length = b.length + 1
  cells : ∀ j ≤ filled, r[j]! = distance (a.take i) (b.take j)

theorem row_zero (a b : Str) : Row a b 0 b.length (List.range (b.length + 1)) where
  length := List.length_range
  cells j hj := by
    have hlt : j < (List.range (b.length + 1)).length := by
      rw [List.length_range]
      omega
    rw [getElem!_pos (List.range _) j hlt, List.getElem_range, List.take_zero, distance_nil_left, List.length_take]
    omega

theorem getElem!_set_self {r : List Nat} {k : Nat} (h : k < r.length) (v : Nat) : (r.set k v)[k]! = v := by
  rw [getElem!_pos _ _ (by simpa using h), List.getElem_set_self]

theorem getElem!_set_ne {r : List Nat} {k l : Nat} (h : k ≠ l) (v : Nat) : (r.set k v)[l]! = r[l]! := by
  simp [List.getElem!_eq_getElem?_getD, List.getElem?_set_ne h]

theorem Row.start (hcur : cur.length = b.length + 1) (hi : i ≤ a.length) : Row a b i 0 (cur.set 0 i) where
  length := by rwa [List.length_set]
  cells j hj := by
    obtain rfl : j = 0 := Nat.le_zero.mp hj
    rw [getElem!_set_self (by omega), List.take_zero, distance_nil_right, List.length_take]
    omega

theorem distance_take (hi : i < a.length) (hj : j < b.length) :
    distance (a.take (i + 1)) (b.take (j + 1)) =
      min (distance (a.take i) (b.take (j + 1)) + 1) (min (distance (a.take (i + 1)) (b.take j) + 1)
        (distance (a.take i) (b.take j) + if a[i]! = b[j]! then 0 else 1)) := by
  have ha : a.take (i + 1) = a.take i ++ [a[i]!] := by rw [getElem!_pos a i hi, List.take_append_getElem hi]
  have hb : b.take (j + 1) = b.take j ++ [b[j]!] := by rw [getElem!_pos b j hj, List.take_append_getElem hj]
  rw [ha, hb]
  exact distance_concat _ _ _ _

/-- One cell: the row before is complete, the cells to the left are filled. -/
theorem Row.cell (hi : i < a.length) (hj : j < b.length) (hprev : Row a b i b.length prev) (hcur : Row a b (i + 1) j cur) :
    Row a b (i + 1) (j + 1) (cell a b (i + 1) prev cur (j + 1)) where
  length := by rw [Typosquat.cell, List.length_set, hcur.length]
  cells k hk := by
    rcases Nat.le_succ_iff.mp hk with hlt | rfl
    · rw [Typosquat.cell, getElem!_set_ne (by omega), hcur.cells k hlt]
    · have hlen : j + 1 < cur.length := by
        rw [hcur.length]
        omega
      rw [Typosquat.cell, getElem!_set_self hlen, distance_take hi hj, hprev.cells (j + 1) hj, Nat.add_sub_cancel,
        Nat.add_sub_cancel, hcur.cells j le_rfl, hprev.cells j hj.le]
      simp only [ne_eq, ite_not, min_assoc]

theorem Row.cells_filled (hi : i < a.length) (hprev : Row a b i b.length prev) (hcur : Row a b (i + 1) 0 cur) :
    ∀ n ≤ b.length, Row a b (i + 1) n ((List.range' 1 n).foldl (Typosquat.cell a b (i + 1) prev) cur) := by
  intro n
  induction n with
  | zero => exact fun _ => hcur
  | succ n ih =>
      intro hn
      rw [List.range'_1_concat, List.foldl_append, Nat.add_comm 1 n]
      exact hprev.cell hi hn (ih (by omega))

/-- One round of the outer loop: the next row is in front, the row before it behind. -/
theorem Row.next (hi : i < a.length) (hprev : Row a b i b.length prev) (hcur : cur.length = b.length + 1) :
    Row a b (i + 1) b.length (row a b (prev, cur) (i + 1)).1 ∧
      (row a b (prev, cur) (i + 1)).2.length = b.length + 1 :=
  ⟨hprev.cells_filled hi (Row.start hcur hi) b.length le_rfl, hprev.length⟩

theorem rows_filled (hcur : cur.length = b.length + 1) :
    ∀ n ≤ a.length,
      Row a b n b.length ((List.range' 1 n).foldl (row a b) (List.range (b.length + 1), cur)).1 ∧
        ((List.range' 1 n).foldl (row a b) (List.range (b.length + 1), cur)).2.length = b.length + 1 := by
  intro n
  induction n with
  | zero => exact fun _ => ⟨row_zero a b, hcur⟩
  | succ n ih =>
      intro hn
      obtain ⟨hrow, hlen⟩ := ih (by omega)
      rw [List.range'_1_concat, List.foldl_append, Nat.add_comm 1 n]
      exact hrow.next hn hlen

theorem levenshtein_eq (a b : Str) : levenshtein a b = distance a b := by
  unfold levenshtein
  split
  · rename_i ha
    rw [List.isEmpty_iff.mp ha, distance_nil_left]
  · split
    · rename_i hb
      rw [List.isEmpty_iff.mp hb, distance_nil_right]
    · have hcur : (List.replicate (b.length + 1) 0).length = b.length + 1 := List.length_replicate
      obtain ⟨hrow, -⟩ := rows_filled hcur a.length le_rfl
      have hcell := hrow.cells b.length le_rfl
      rwa [List.take_length, List.take_length] at hcell

/-! ## The closest name -/

/-- A target within the threshold. -/
def Near (name target : Str) : Prop := levenshtein name target ≤ typosquatMaxDistance

/-- The best of some targets: the nearest of those within the threshold. -/
structure Best (name : Str) (targets : List Str) (best : Option (Nat × Str)) : Prop where
  found : ∀ d target, best = some (d, target) → target ∈ targets ∧ d = levenshtein name target ∧ Near name target ∧
    ∀ t ∈ targets, d ≤ levenshtein name t
  missing : best = none → ∀ t ∈ targets, ¬Near name t

theorem Best.none (name : Str) : Best name [] none := ⟨by simp, by simp⟩

/-- One target more. -/
theorem Best.step {name : Str} {targets : List Str} {best : Option (Nat × Str)} (h : Best name targets best)
    (target : Str) :
    Best name (targets ++ [target])
      (if levenshtein name target ≤ typosquatMaxDistance ∧ ∀ b ∈ best, levenshtein name target < b.1
        then some (levenshtein name target, target) else best) := by
  split
  · rename_i hnear
    refine ⟨?_, by simp⟩
    rintro d t ⟨⟩
    refine ⟨by simp, rfl, hnear.1, fun t ht => ?_⟩
    rcases List.mem_append.mp ht with ht | ht
    · cases hbest : best with
      | none => exact hnear.1.trans (Nat.lt_of_not_le (h.missing hbest t ht)).le
      | some b =>
          have hlt := hnear.2 b (by simp [hbest])
          exact hlt.le.trans ((h.found b.1 b.2 (by simp [hbest])).2.2.2 t ht)
    · rw [List.mem_singleton.mp ht]
  · rename_i hfar
    refine ⟨fun d t hbest => ?_, fun hbest t ht => ?_⟩
    · obtain ⟨hmem, hd, hnear, hleast⟩ := h.found d t hbest
      refine ⟨List.mem_append_left _ hmem, hd, hnear, fun t' ht' => ?_⟩
      rcases List.mem_append.mp ht' with ht' | ht'
      · exact hleast t' ht'
      · rw [List.mem_singleton.mp ht']
        by_contra hlt
        have hthreshold : levenshtein name t ≤ typosquatMaxDistance := hnear
        refine hfar ⟨by omega, fun b hb => ?_⟩
        rw [hbest] at hb
        cases hb
        omega
    · rcases List.mem_append.mp ht with ht | ht
      · exact h.missing hbest t ht
      · rw [List.mem_singleton.mp ht]
        exact fun hnear => hfar ⟨hnear, by simp [hbest]⟩

theorem closest_best {name : Str} :
    ∀ (rest : List Str) {targets : List Str} {best : Option (Nat × Str)}, Best name targets best → name ∉ rest →
      Best name (targets ++ rest) (closest name rest best)
  | [], targets, best, h, _ => by rwa [closest, List.append_nil]
  | target :: rest, targets, best, h, hname => by
      rw [List.mem_cons, not_or] at hname
      have hstep := closest_best rest (h.step target) hname.2
      rw [closest, if_neg (Ne.symm hname.1)]
      rwa [List.append_assoc, List.singleton_append] at hstep

theorem closest_of_mem {name : Str} : ∀ {targets : List Str}, name ∈ targets →
    ∀ best, closest name targets best = none
  | target :: rest, h, best => by
      rw [closest]
      split
      · rfl
      · exact closest_of_mem ((List.mem_cons.mp h).resolve_left fun heq => ‹¬target = name› heq.symm) _

/-- Exact matches never warn. -/
theorem checkPackageName_of_mem {raw name : Str} (h : name ∈ popularPackages raw) : checkPackageName raw name = none := by
  rw [checkPackageName, closest_of_mem h, Option.map_none]

end ThreeVa.Pm.Typosquat
