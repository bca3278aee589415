import Mathlib.Algebra.GroupWithZero.Nat
import Mathlib.Data.List.Basic
import Mathlib.Data.Nat.Size
import Mathlib.Tactic.Common

/-!
# Merkle trees

The tree over a list that splits it at the largest power of two below its length, what is hashed for it, and what a path of
hashes from the root to a leaf proves. Turns and hashes are listed from the root on; a right turn is `true`.
-/

namespace Merkle

/-- What is hashed: nothing, a leaf, or two hashes. -/
inductive Input (L H : Type)
  | empty
  | leaf (value : L)
  | node (left right : H)

inductive Tree (L : Type)
  | empty
  | leaf (value : L)
  | node (left right : Tree L)

variable {L H : Type}

namespace Tree

def root (hash : Input L H → H) : Tree L → H
  | empty => hash .empty
  | leaf value => hash (.leaf value)
  | node left right => hash (.node (left.root hash) (right.root hash))

def inputs (hash : Input L H → H) : Tree L → List (Input L H)
  | empty => [.empty]
  | leaf value => [.leaf value]
  | node left right => .node (left.root hash) (right.root hash) :: (left.inputs hash ++ right.inputs hash)

/-- The subtree that turns lead to. -/
def follow : Tree L → List Bool → Option (Tree L)
  | t, [] => some t
  | node left right, turn :: turns => if turn then right.follow turns else left.follow turns
  | _, _ :: _ => none

/-- The roots of the subtrees that turns pass by. -/
def siblings (hash : Input L H → H) : Tree L → List Bool → List H
  | node left right, turn :: turns =>
      if turn then left.root hash :: right.siblings hash turns else right.root hash :: left.siblings hash turns
  | _, _ => []

end Tree

/-! ## Paths -/

/-- The root that a path gives for the hash at its end. -/
def climb (hash : Input L H → H) (seed : H) : List (Bool × H) → H
  | [] => seed
  | (turn, h) :: path =>
      if turn then hash (.node h (climb hash seed path)) else hash (.node (climb hash seed path) h)

def climbInputs (hash : Input L H → H) (seed : H) : List (Bool × H) → List (Input L H)
  | [] => []
  | (turn, h) :: path =>
      (if turn then .node h (climb hash seed path) else .node (climb hash seed path) h) :: climbInputs hash seed path

/-- Of two lists of inputs, no two different ones have the same hash. -/
def NoCollision (hash : Input L H → H) (xs ys : List (Input L H)) : Prop :=
  ∀ x ∈ xs, ∀ y ∈ ys, hash x = hash y → x = y

theorem climb_append (hash : Input L H → H) (seed : H) (p q : List (Bool × H)) :
    climb hash seed (p ++ q) = climb hash (climb hash seed q) p := by
  induction p with
  | nil => rfl
  | cons x p ih =>
      obtain ⟨turn, h⟩ := x
      rw [List.cons_append, climb, climb, ih]

/-- A path is climbed from its end on. -/
theorem climb_reverse (hash : Input L H → H) (seed : H) (path : List (Bool × H)) :
    climb hash seed path.reverse =
      path.foldl (fun seed x => if x.1 then hash (.node x.2 seed) else hash (.node seed x.2)) seed := by
  induction path generalizing seed with
  | nil => rfl
  | cons x path ih =>
      rw [List.reverse_cons, climb_append, List.foldl_cons, ← ih]
      rfl

section Paths

variable {hash : Input L H → H} {t s : Tree L} {turns : List Bool} {path : List (Bool × H)} {seed : H} {value : L}

theorem length_siblings (h : t.follow turns = some s) : (t.siblings hash turns).length = turns.length := by
  induction turns generalizing t with
  | nil => cases t <;> rfl
  | cons turn turns ih =>
      cases t with
      | empty => cases h
      | leaf value => cases h
      | node left right =>
          cases turn with
          | true => exact congrArg (· + 1) (ih (t := right) h)
          | false => exact congrArg (· + 1) (ih (t := left) h)

/-- The siblings on the way to a subtree lead from its root to that of the tree. -/
theorem climb_siblings (h : t.follow turns = some s) :
    climb hash (s.root hash) (turns.zip (t.siblings hash turns)) = t.root hash := by
  induction turns generalizing t with
  | nil =>
      have hroot : t = s := by cases t <;> exact Option.some.inj h
      rw [hroot]
      rfl
  | cons turn turns ih =>
      cases t with
      | empty => cases h
      | leaf value => cases h
      | node left right =>
          cases turn with
          | true => exact congrArg (fun r => hash (.node (left.root hash) r)) (ih (t := right) h)
          | false => exact congrArg (fun l => hash (.node l (right.root hash))) (ih (t := left) h)

theorem NoCollision.mono {xs xs' ys ys' : List (Input L H)} (h : NoCollision hash xs ys) (hxs : ∀ x ∈ xs', x ∈ xs)
    (hys : ∀ y ∈ ys', y ∈ ys) : NoCollision hash xs' ys' :=
  fun x hx y hy => h x (hxs x hx) y (hys y hy)

/-- A path that ends in the root of the tree passes by the siblings on its way, and starts at the root of the subtree that
its turns lead to. -/
theorem of_climb_follow (hfree : NoCollision hash (t.inputs hash) (climbInputs hash seed path))
    (hclimb : climb hash seed path = t.root hash) (hfollow : t.follow (path.map Prod.fst) = some s) :
    seed = s.root hash ∧ path.map Prod.snd = t.siblings hash (path.map Prod.fst) := by
  induction path generalizing t with
  | nil =>
      have hroot : t = s := by cases t <;> exact Option.some.inj hfollow
      exact ⟨hroot ▸ hclimb, by cases t <;> rfl⟩
  | cons x path ih =>
      obtain ⟨turn, h⟩ := x
      cases t with
      | empty => cases hfollow
      | leaf value => cases hfollow
      | node left right =>
          have hhead := hfree _ List.mem_cons_self _ List.mem_cons_self
          cases turn with
          | true =>
              obtain ⟨hl, hr⟩ := Input.node.inj (hhead hclimb.symm)
              obtain ⟨hseed, hsiblings⟩ := ih (t := right)
                (hfree.mono (fun x hx => List.mem_cons_of_mem _ (List.mem_append_right _ hx))
                  fun y hy => List.mem_cons_of_mem _ hy) hr.symm hfollow
              exact ⟨hseed, congrArg₂ List.cons hl.symm hsiblings⟩
          | false =>
              obtain ⟨hl, hr⟩ := Input.node.inj (hhead hclimb.symm)
              obtain ⟨hseed, hsiblings⟩ := ih (t := left)
                (hfree.mono (fun x hx => List.mem_cons_of_mem _ (List.mem_append_left _ hx))
                  fun y hy => List.mem_cons_of_mem _ hy) hl.symm hfollow
              exact ⟨hseed, congrArg₂ List.cons hr.symm hsiblings⟩

/-- A path from a leaf to the root of the tree leads to that leaf. -/
theorem follow_of_climb_leaf
    (hfree : NoCollision hash (t.inputs hash) (.leaf value :: climbInputs hash (hash (.leaf value)) path))
    (hclimb : climb hash (hash (.leaf value)) path = t.root hash) :
    t.follow (path.map Prod.fst) = some (.leaf value) := by
  induction path generalizing t with
  | nil =>
      cases t with
      | empty => cases hfree _ List.mem_cons_self _ List.mem_cons_self hclimb.symm
      | leaf value' => cases hfree _ List.mem_cons_self _ List.mem_cons_self hclimb.symm; rfl
      | node left right => cases hfree _ List.mem_cons_self _ List.mem_cons_self hclimb.symm
  | cons x path ih =>
      obtain ⟨turn, h⟩ := x
      have hhead : ∀ x ∈ t.inputs hash, _ := fun x hx =>
        hfree x hx _ (List.mem_cons_of_mem _ List.mem_cons_self)
      cases t with
      | empty => cases turn <;> cases hhead _ List.mem_cons_self hclimb.symm
      | leaf value' => cases turn <;> cases hhead _ List.mem_cons_self hclimb.symm
      | node left right =>
          have hkept : ∀ y ∈ Input.leaf value :: climbInputs hash (hash (.leaf value)) path,
              y ∈ Input.leaf value :: climbInputs hash (hash (.leaf value)) ((turn, h) :: path) := by
            intro y hy
            rcases List.mem_cons.mp hy with rfl | hy
            · exact List.mem_cons_self
            · exact List.mem_cons_of_mem _ (List.mem_cons_of_mem _ hy)
          cases turn with
          | true =>
              obtain ⟨-, hr⟩ := Input.node.inj (hhead _ List.mem_cons_self hclimb.symm)
              exact ih (t := right) (hfree.mono (fun x hx => List.mem_cons_of_mem _ (List.mem_append_right _ hx)) hkept)
                hr.symm
          | false =>
              obtain ⟨hl, -⟩ := Input.node.inj (hhead _ List.mem_cons_self hclimb.symm)
              exact ih (t := left) (hfree.mono (fun x hx => List.mem_cons_of_mem _ (List.mem_append_left _ hx)) hkept)
                hl.symm

end Paths

/-! ## The tree over a list -/

/-- The largest power of two below `n`. -/
def split (n : Nat) : Nat := 2 ^ (n - 1).log2

theorem split_pos (n : Nat) : 0 < split n := Nat.two_pow_pos _

theorem split_lt {n : Nat} (h : 2 ≤ n) : split n < n := by
  have := Nat.log2_self_le (n := n - 1) (by omega)
  unfold split
  omega

def Tree.ofList : List L → Tree L
  | [] => .empty
  | [value] => .leaf value
  | a :: b :: rest =>
      let k := split (a :: b :: rest).length
      .node (ofList ((a :: b :: rest).take k)) (ofList ((a :: b :: rest).drop k))
termination_by l => l.length
decreasing_by
  · rw [List.length_take]
    exact Nat.lt_of_le_of_lt (Nat.min_le_left _ _) (split_lt (by simp))
  · rw [List.length_drop]
    have := split_pos (a :: b :: rest).length
    simp only [List.length_cons] at this ⊢
    omega

/-- The turns to leaf `i` of the tree over `n` leaves. -/
def route (n i : Nat) : List Bool :=
  if n ≤ 1 then []
  else if i < split n then false :: route (split n) i
  else true :: route (n - split n) (i - split n)
termination_by n
decreasing_by
  · exact split_lt (by omega)
  · have := split_pos n
    omega

/-- The leaf that turns lead to in the tree over `n` leaves. -/
def leafAt (n : Nat) : List Bool → Option Nat
  | [] => if n = 1 then some 0 else none
  | turn :: turns =>
      if n ≤ 1 then none
      else if turn then (leafAt (n - split n) turns).map (· + split n) else leafAt (split n) turns

section OfList

variable {l : List L} {value : L} {n i : Nat} {turns : List Bool}

theorem ofList_of_le (h : 2 ≤ l.length) :
    Tree.ofList l = .node (Tree.ofList (l.take (split l.length))) (Tree.ofList (l.drop (split l.length))) := by
  match l, h with
  | a :: b :: rest, _ => rw [Tree.ofList]

theorem route_of_le (h : n ≤ 1) : route n i = [] := by rw [route, if_pos h]

theorem route_of_lt (h : 2 ≤ n) : route n i =
    if i < split n then false :: route (split n) i else true :: route (n - split n) (i - split n) := by
  rw [route, if_neg (by omega)]

theorem leafAt_eq_some : leafAt n turns = some i ↔ i < n ∧ turns = route n i := by
  induction turns generalizing n i with
  | nil =>
      unfold leafAt
      by_cases hn : n ≤ 1
      · rw [route_of_le hn]
        split <;> simp <;> omega
      · rw [if_neg (by omega), route_of_lt (by omega)]
        split <;> simp
  | cons turn turns ih =>
      unfold leafAt
      by_cases hn : n ≤ 1
      · rw [if_pos hn, route_of_le hn]
        simp
      · have hlt := split_lt (n := n) (by omega)
        rw [if_neg hn, route_of_lt (by omega)]
        cases turn with
        | true =>
            simp only [if_true, Option.map_eq_some_iff, ih]
            constructor
            · rintro ⟨j, ⟨hj, rfl⟩, rfl⟩
              rw [if_neg (by omega), Nat.add_sub_cancel]
              exact ⟨by omega, rfl⟩
            · rintro ⟨hi, hturns⟩
              by_cases hsplit : i < split n
              · rw [if_pos hsplit] at hturns
                cases hturns
              · rw [if_neg hsplit, List.cons.injEq] at hturns
                exact ⟨i - split n, ⟨by omega, hturns.2⟩, by omega⟩
        | false =>
            simp only [Bool.false_eq_true, if_false, ih]
            by_cases hsplit : i < split n
            · rw [if_pos hsplit, List.cons.injEq]
              exact ⟨fun h => ⟨by omega, rfl, h.2⟩, fun h => ⟨hsplit, h.2.2⟩⟩
            · rw [if_neg hsplit]
              exact ⟨fun h => absurd h.1 hsplit, fun h => by cases h.2⟩

theorem leafAt_route (h : i < n) : leafAt n (route n i) = some i := leafAt_eq_some.mpr ⟨h, rfl⟩

/-- Turns end in a leaf exactly if they lead to its place in the list. -/
theorem follow_ofList :
    (Tree.ofList l).follow turns = some (.leaf value) ↔ ∃ i, leafAt l.length turns = some i ∧ l[i]? = some value := by
  induction turns generalizing l with
  | nil =>
      unfold leafAt
      match l with
      | [] => simp [Tree.ofList, Tree.follow]
      | [a] => simp [Tree.ofList, Tree.follow]
      | a :: b :: rest => simp [Tree.ofList, Tree.follow]
  | cons turn turns ih =>
      unfold leafAt
      by_cases hl : l.length ≤ 1
      · rw [if_pos hl]
        match l, hl with
        | [], _ => simp [Tree.ofList, Tree.follow]
        | [a], _ => simp [Tree.ofList, Tree.follow]
      · have hlt := split_lt (n := l.length) (by omega)
        rw [if_neg hl, ofList_of_le (by omega)]
        cases turn with
        | true =>
            change (Tree.ofList (l.drop (split l.length))).follow turns = _ ↔ _
            rw [ih, List.length_drop]
            simp only [if_true, Option.map_eq_some_iff, List.getElem?_drop]
            constructor
            · rintro ⟨j, hj, hvalue⟩
              exact ⟨j + split l.length, ⟨j, hj, rfl⟩, by rwa [Nat.add_comm]⟩
            · rintro ⟨_, ⟨j, hj, rfl⟩, hvalue⟩
              exact ⟨j, hj, by rwa [Nat.add_comm]⟩
        | false =>
            change (Tree.ofList (l.take (split l.length))).follow turns = _ ↔ _
            rw [ih, List.length_take, Nat.min_eq_left (Nat.le_of_lt hlt)]
            simp only [Bool.false_eq_true, if_false]
            refine exists_congr fun j => and_congr_right fun hj => ?_
            rw [List.getElem?_take_of_lt (leafAt_eq_some.mp hj).1]

theorem follow_route (h : l[i]? = some value) : (Tree.ofList l).follow (route l.length i) = some (.leaf value) :=
  follow_ofList.mpr ⟨i, leafAt_route (List.getElem?_eq_some_iff.mp h).1, h⟩

end OfList

/-! ## The bits of an index -/

theorem testBit_two_pow_add {m i j : Nat} (hi : i < 2 ^ m) : (2 ^ m + i).testBit j = (decide (j = m) || i.testBit j) := by
  have hadd := Nat.testBit_two_pow_mul_add 1 hi j
  rw [Nat.mul_one] at hadd
  rw [hadd]
  by_cases hlt : j < m
  · simp [hlt, Nat.ne_of_lt hlt]
  · rw [if_neg hlt]
    have hhigh : i.testBit j = false :=
      Nat.testBit_lt_two_pow (Nat.lt_of_lt_of_le hi (Nat.pow_le_pow_right (by omega) (by omega)))
    by_cases heq : j = m
    · simp [heq]
    · have : j - m = (j - m - 1) + 1 := by omega
      rw [this, Nat.testBit_succ]
      simp [heq, hhigh]

/-- One more holds than does without it. -/
theorem countP_range_or {w j₀ : Nat} {p : Nat → Bool} (hj : j₀ < w) (hp : p j₀ = false) :
    (List.range w).countP (fun j => decide (j = j₀) || p j) = (List.range w).countP p + 1 := by
  induction w with
  | zero => omega
  | succ w ih =>
      rw [List.range_succ, List.countP_append, List.countP_append]
      by_cases heq : j₀ = w
      · have hbelow : (List.range w).countP (fun j => decide (j = j₀) || p j) = (List.range w).countP p := by
          refine List.countP_congr fun j hj' => ?_
          have : j ≠ j₀ := by
            rw [List.mem_range] at hj'
            omega
          simp [this]
        rw [hbelow]
        simp [← heq, hp]
      · rw [ih (by omega)]
        have : w ≠ j₀ := fun h => heq h.symm
        simp only [List.countP_singleton, this, decide_false, Bool.false_or]
        omega

/-- In a full tree the turns are the bits of the index. -/
theorem route_two_pow {m i : Nat} (hi : i < 2 ^ m) : (route (2 ^ m) i).reverse = (List.range m).map i.testBit := by
  induction m generalizing i with
  | zero => rw [route_of_le (by simp)]; rfl
  | succ m ih =>
      have hpow : 2 ^ (m + 1) = 2 ^ m + 2 ^ m := by rw [Nat.pow_succ]; omega
      have hpos : 0 < 2 ^ m := Nat.two_pow_pos m
      have hlog : (2 ^ (m + 1) - 1).log2 = m := by
        rw [Nat.log2_eq_iff (by omega)]
        omega
      have hsplit : split (2 ^ (m + 1)) = 2 ^ m := by rw [split, hlog]
      rw [route_of_lt (by omega), hsplit, List.range_succ, List.map_append]
      by_cases hlt : i < 2 ^ m
      · rw [if_pos hlt, List.reverse_cons, ih hlt]
        simp [Nat.testBit_lt_two_pow hlt]
      · rw [if_neg hlt, List.reverse_cons, hpow, Nat.add_sub_cancel, ih (by omega)]
        have hi' : i = 2 ^ m + (i - 2 ^ m) := by omega
        congr 1
        · refine List.map_congr_left fun j hj => ?_
          conv_rhs => rw [hi']
          exact (Nat.testBit_two_pow_add_gt (List.mem_range.mp hj) _).symm
        · have hbit : i.testBit m = true := by
            rw [hi', testBit_two_pow_add (by omega)]
            simp
          simp [hbit]

/-- The number of bits up to the highest one in which the index differs from that of the last leaf. -/
def innerSize (n i : Nat) : Nat := (i ^^^ (n - 1)).size

/-- How many of the bits of `x` below `w` are set. -/
def ones (w x : Nat) : Nat := (List.range w).countP fun j => x.testBit j

/-- On the way up, the turns are the lower bits of the index, and a right turn for each higher one that is set. -/
theorem route_bits {w n i : Nat} (hi : i < n) (hn : n ≤ 2 ^ w) :
    (route n i).reverse =
      (List.range (innerSize n i)).map i.testBit ++ List.replicate (ones w (i >>> innerSize n i)) true := by
  induction n using Nat.strongRecOn generalizing i with
  | ind n ih =>
      by_cases hone : n ≤ 1
      · obtain rfl : n = 1 := by omega
        obtain rfl : i = 0 := by omega
        rw [route_of_le (by omega)]
        simp [innerSize, ones]
      · have hle := Nat.log2_self_le (n := n - 1) (by omega)
        have hlt := Nat.lt_log2_self (n := n - 1)
        have hk : split n = 2 ^ (n - 1).log2 := rfl
        generalize (n - 1).log2 = m at hle hlt hk
        rw [route_of_lt (by omega), hk]
        have hlast : n - 1 = 2 ^ m + (n - 1 - 2 ^ m) := by omega
        have hpow : 2 ^ (m + 1) = 2 ^ m + 2 ^ m := by rw [Nat.pow_succ]; omega
        have hm : m < w := by
          by_contra hw
          have : 2 ^ w ≤ 2 ^ m := Nat.pow_le_pow_right (by omega) (by omega)
          omega
        by_cases hleft : i < 2 ^ m
        · -- the last leaf is on the right of the highest bit, the index on the left
          have hinner : innerSize n i = m + 1 := by
            refine Nat.le_antisymm (Nat.size_le.mpr (Nat.xor_lt_two_pow (by omega) hlt)) (Nat.lt_size.mpr ?_)
            refine Nat.ge_two_pow_of_testBit ?_
            rw [Nat.testBit_xor, Nat.testBit_lt_two_pow hleft, hlast, testBit_two_pow_add (by omega)]
            simp
          have hzero : i >>> (m + 1) = 0 := by
            rw [Nat.shiftRight_eq_div_pow]
            exact Nat.div_eq_of_lt (by omega)
          rw [if_pos hleft, List.reverse_cons, route_two_pow hleft, hinner, hzero, List.range_succ]
          simp [ones, Nat.testBit_lt_two_pow hleft]
        · -- both have the highest bit, which turns right
          rw [if_neg hleft, List.reverse_cons,
            ih (n - 2 ^ m) (by have := Nat.two_pow_pos m; omega) (by omega) (by omega)]
          have hi' : i = 2 ^ m + (i - 2 ^ m) := by omega
          have hxor : i ^^^ (n - 1) = (i - 2 ^ m) ^^^ (n - 2 ^ m - 1) := by
            refine Nat.eq_of_testBit_eq fun j => ?_
            rw [Nat.testBit_xor, Nat.testBit_xor, hlast, testBit_two_pow_add (by omega)]
            conv_lhs => rw [hi', testBit_two_pow_add (by omega)]
            have hsame : n - 2 ^ m - 1 = n - 1 - 2 ^ m := by omega
            rw [hsame]
            have hhigh : (i - 2 ^ m).testBit m = false := Nat.testBit_lt_two_pow (by omega)
            have hhigh' : (n - 1 - 2 ^ m).testBit m = false := Nat.testBit_lt_two_pow (by omega)
            by_cases heq : j = m
            · simp [heq, hhigh, hhigh']
            · simp [heq]
          have hinner : innerSize n i = innerSize (n - 2 ^ m) (i - 2 ^ m) := by unfold innerSize; rw [hxor]
          rw [hinner]
          have hbelow : innerSize (n - 2 ^ m) (i - 2 ^ m) ≤ m :=
            Nat.size_le.mpr (Nat.xor_lt_two_pow (by omega) (by omega))
          generalize innerSize (n - 2 ^ m) (i - 2 ^ m) = inner at hbelow
          have hones : ones w (i >>> inner) = ones w ((i - 2 ^ m) >>> inner) + 1 := by
            unfold ones
            rw [← countP_range_or (show m - inner < w by omega)]
            · refine List.countP_congr fun j _ => ?_
              rw [Nat.testBit_shiftRight, Nat.testBit_shiftRight]
              conv_lhs => rw [hi', testBit_two_pow_add (by omega)]
              have : inner + j = m ↔ j = m - inner := by omega
              simp [this]
            · rw [Nat.testBit_shiftRight, Nat.add_sub_cancel' hbelow]
              exact Nat.testBit_lt_two_pow (by omega)
          rw [hones, List.replicate_succ', List.append_assoc]
          congr 1
          refine List.map_congr_left fun j hj => ?_
          conv_rhs => rw [hi']
          exact (Nat.testBit_two_pow_add_gt (Nat.lt_of_lt_of_le (List.mem_range.mp hj) hbelow) _).symm

end Merkle
