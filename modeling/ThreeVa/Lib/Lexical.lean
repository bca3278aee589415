import Mathlib.Data.List.Basic
import Mathlib.Tactic.Common

/-!
# Paths resolved lexically

A path is a list of steps, each up or into a name; at the root a step up stays there. Where a path leads depends on its
start only through the part that the path does not climb out of.
-/

namespace Lexical

inductive Step (ν : Type)
  | up
  | into (name : ν)
deriving DecidableEq

variable {ν : Type}

/-- One step from a directory, given by the names that lead to it from the root. -/
def push (dir : List ν) : Step ν → List ν
  | .up => dir.dropLast
  | .into n => dir ++ [n]

def normalizeFrom (start : List ν) (p : List (Step ν)) : List ν := p.foldl push start

/-- Where an absolute path leads. -/
def normalize (p : List (Step ν)) : List ν := normalizeFrom [] p

def ofNames (l : List ν) : List (Step ν) := l.map .into

@[simp] theorem normalizeFrom_nil (start : List ν) : normalizeFrom start [] = start := rfl

@[simp] theorem normalizeFrom_cons (start : List ν) (s : Step ν) (p : List (Step ν)) :
    normalizeFrom start (s :: p) = normalizeFrom (push start s) p := rfl

theorem normalizeFrom_append (start : List ν) (p q : List (Step ν)) :
    normalizeFrom start (p ++ q) = normalizeFrom (normalizeFrom start p) q := List.foldl_append

theorem normalize_append (p q : List (Step ν)) : normalize (p ++ q) = normalizeFrom (normalize p) q :=
  normalizeFrom_append [] p q

theorem normalizeFrom_ofNames (start l : List ν) : normalizeFrom start (ofNames l) = start ++ l := by
  induction l generalizing start with
  | nil => simp [ofNames]
  | cons n l ih => rw [ofNames, List.map_cons, normalizeFrom_cons, ← ofNames, ih, push]; simp

@[simp] theorem normalize_ofNames (l : List ν) : normalize (ofNames l) = l := normalizeFrom_ofNames [] l

theorem normalizeFrom_ups (start : List ν) (k : Nat) :
    normalizeFrom start (List.replicate k .up) = start.take (start.length - k) := by
  induction k generalizing start with
  | zero => simp
  | succ k ih =>
      rw [List.replicate_succ, normalizeFrom_cons, ih, push, List.dropLast_eq_take, List.take_take, List.length_take]
      congr 1
      omega

/-! ## Climbing -/

def climbStep (c : Nat × List ν) : Step ν → Nat × List ν
  | .up => if c.2.isEmpty then (c.1 + 1, []) else (c.1, c.2.dropLast)
  | .into n => (c.1, c.2 ++ [n])

/-- How many levels above its start a path climbs. -/
def climb (p : List (Step ν)) : Nat := (p.foldl climbStep (0, [])).1

/-- The names it leads through from the highest directory it climbs to. -/
def descent (p : List (Step ν)) : List ν := (p.foldl climbStep (0, [])).2

/-- A path leads to the directory that it climbs to, and down from there. -/
theorem normalizeFrom_eq (start : List ν) (p : List (Step ν)) :
    normalizeFrom start p = start.take (start.length - climb p) ++ descent p := by
  have hrun : ∀ (p : List (Step ν)) (c : Nat × List ν), normalizeFrom (start.take (start.length - c.1) ++ c.2) p =
      start.take (start.length - (p.foldl climbStep c).1) ++ (p.foldl climbStep c).2 := by
    intro p
    induction p with
    | nil => simp
    | cons s p ih =>
        intro c
        rw [normalizeFrom_cons, List.foldl_cons, ← ih (climbStep c s)]
        congr 1
        cases s with
        | up =>
            obtain ⟨k, d⟩ := c
            rcases List.eq_nil_or_concat d with rfl | ⟨d, n, rfl⟩
            · simp only [push, climbStep, List.append_nil, List.isEmpty_nil, if_true]
              rw [List.dropLast_eq_take, List.take_take, List.length_take]
              congr 1
              omega
            · simp [push, climbStep, ← List.append_assoc]
        | into n => simp [push, climbStep]
  simpa [climb, descent] using hrun p (0, [])

/-- From two starts at different depths a path leads to one place only if it climbs to the root from the deeper one. -/
theorem normalizeFrom_eq_iff {start start' : List ν} {p : List (Step ν)} (h : start'.length < start.length) :
    normalizeFrom start p = normalizeFrom start' p ↔ start.length ≤ climb p := by
  rw [normalizeFrom_eq, normalizeFrom_eq, List.append_left_inj]
  constructor
  · intro heq
    have hlength := congrArg List.length heq
    simp only [List.length_take] at hlength
    omega
  · intro hclimb
    rw [Nat.sub_eq_zero_of_le hclimb, Nat.sub_eq_zero_of_le (by omega : start'.length ≤ climb p), List.take_zero,
      List.take_zero]

/-! ## Relative paths -/

variable [DecidableEq ν]

/-- The number of steps that two paths begin with alike. -/
def common (a b : List (Step ν)) : Nat := ((a.zip b).takeWhile fun x => x.1 = x.2).length

/-- A path from a directory to a target: up from what they have not in common, and down to the target. -/
def relFrom (base target : List (Step ν)) : List (Step ν) :=
  List.replicate (base.length - common base target) .up ++ target.drop (common base target)

theorem common_spec (a b : List (Step ν)) :
    a.take (common a b) = b.take (common a b) ∧ common a b ≤ a.length ∧ common a b ≤ b.length := by
  induction a generalizing b with
  | nil => simp [common]
  | cons x a ih =>
      cases b with
      | nil => simp [common]
      | cons y b =>
          by_cases hxy : x = y
          · obtain ⟨htake, ha, hb⟩ := ih b
            simp only [common, List.zip_cons_cons, hxy, decide_true, List.takeWhile_cons_of_pos, List.length_cons,
              List.take_succ_cons, List.cons.injEq, true_and, Nat.add_le_add_iff_right]
            exact ⟨htake, ha, hb⟩
          · simp [common, hxy]

/-- A relative path taken from a directory, its own base or another one. -/
theorem normalize_append_relFrom (d b : List ν) (t : List (Step ν)) :
    normalize (ofNames d ++ relFrom (ofNames b) t) =
      normalizeFrom (d.take (d.length - (b.length - common (ofNames b) t))) (t.drop (common (ofNames b) t)) := by
  rw [normalize_append, normalize_ofNames, relFrom, normalizeFrom_append, normalizeFrom_ups, ofNames, List.length_map]

theorem normalize_eq_drop_common (b : List ν) (t : List (Step ν)) :
    normalize t = normalizeFrom (b.take (common (ofNames b) t)) (t.drop (common (ofNames b) t)) := by
  obtain ⟨htake, -, -⟩ := common_spec (ofNames b) t
  conv_lhs => rw [← List.take_append_drop (common (ofNames b) t) t, normalize_append, ← htake]
  rw [ofNames, ← List.map_take, ← ofNames, normalize_ofNames]

/-- From its base a relative path leads to the target. -/
theorem normalize_relFrom (b : List ν) (t : List (Step ν)) :
    normalize (ofNames b ++ relFrom (ofNames b) t) = normalize t := by
  obtain ⟨-, hb, -⟩ := common_spec (ofNames b) t
  rw [ofNames, List.length_map] at hb
  rw [normalize_append_relFrom, normalize_eq_drop_common b t, ofNames, Nat.sub_sub_self hb]

/-- From a deeper directory it leads to the target only if the rest of the target climbs to the root even there. -/
theorem normalize_relFrom_iff {d b : List ν} (h : b.length < d.length) (t : List (Step ν)) :
    normalize (ofNames d ++ relFrom (ofNames b) t) = normalize t ↔
      d.length - b.length + common (ofNames b) t ≤ climb (t.drop (common (ofNames b) t)) := by
  obtain ⟨-, hb, -⟩ := common_spec (ofNames b) t
  rw [ofNames, List.length_map, ← ofNames] at hb
  rw [normalize_append_relFrom, normalize_eq_drop_common b t, normalizeFrom_eq_iff]
  · rw [List.length_take]
    constructor <;> intro hclimb <;> omega
  · rw [List.length_take, List.length_take]
    omega

end Lexical
