import Mathlib.Data.List.Dedup
import Mathlib.Data.List.Perm.Subperm
import Mathlib.Logic.Function.Iterate
import Mathlib.Logic.Relation
import Mathlib.Tactic.Common

/-!
# Worklists

What is reached from a few elements of a finite set, collected with a queue of those whose successors have not been
looked at. The relation may have cycles.
-/

variable {α : Type} [DecidableEq α]

structure Worklist (α : Type) where
  seen : List α
  queue : List α

namespace Worklist

/-- An element that was not seen before is queued. -/
def visit (w : Worklist α) (x : α) : Worklist α := if x ∈ w.seen then w else ⟨w.seen ++ [x], w.queue ++ [x]⟩

/-- One round; nothing changes once the queue is empty. -/
def step (next : α → List α) (w : Worklist α) : Worklist α :=
  match w.queue with
  | [] => w
  | x :: queue => (next x).foldl visit { w with queue }

def run (next : α → List α) (rounds : Nat) (start : List α) : Worklist α := (step next)^[rounds] ⟨start, start⟩

/-! ## Rounds -/

theorem foldl_visit (l : List α) (w : Worklist α) :
    ∃ new : List α, (l.foldl visit w).seen = w.seen ++ new ∧ (l.foldl visit w).queue = w.queue ++ new ∧ new.Nodup ∧
      ∀ x, x ∈ new ↔ x ∈ l ∧ x ∉ w.seen := by
  induction l generalizing w with
  | nil => exact ⟨[], by simp, by simp, List.nodup_nil, by simp⟩
  | cons y l ih =>
      obtain ⟨new, hseen, hqueue, hnodup, hnew⟩ := ih (w.visit y)
      rw [List.foldl_cons]
      by_cases hy : y ∈ w.seen
      · have hvisit : w.visit y = w := if_pos hy
        rw [hvisit] at hseen hqueue hnew ⊢
        refine ⟨new, hseen, hqueue, hnodup, fun x => ?_⟩
        rw [hnew, List.mem_cons]
        exact ⟨fun h => ⟨.inr h.1, h.2⟩, fun h => ⟨h.1.resolve_left fun heq => h.2 (heq ▸ hy), h.2⟩⟩
      · have hvisit : w.visit y = ⟨w.seen ++ [y], w.queue ++ [y]⟩ := if_neg hy
        rw [hvisit] at hseen hqueue hnew ⊢
        refine ⟨y :: new, by rw [hseen]; simp, by rw [hqueue]; simp, ?_, fun x => ?_⟩
        · refine List.nodup_cons.mpr ⟨fun hmem => ?_, hnodup⟩
          exact ((hnew y).mp hmem).2 (by simp)
        · rw [List.mem_cons, hnew, List.mem_cons]
          by_cases hx : x = y
          · simp [hx, hy]
          · simp [hx]

variable {next : α → List α} {start all : List α}

/-- What is seen is reached, and the successors of what has left the queue are seen. -/
structure Inv (next : α → List α) (start all : List α) (w : Worklist α) : Prop where
  nodup : w.seen.Nodup
  subset : w.seen ⊆ all
  queued : w.queue ⊆ w.seen
  started : start ⊆ w.seen
  reached : ∀ x ∈ w.seen, ∃ s ∈ start, Relation.ReflTransGen (fun a b => b ∈ next a) s x
  closed : ∀ x ∈ w.seen, x ∈ w.queue ∨ next x ⊆ w.seen

omit [DecidableEq α] in
theorem inv_start (hnodup : start.Nodup) (hsubset : start ⊆ all) : Inv next start all ⟨start, start⟩ where
  nodup := hnodup
  subset := hsubset
  queued := List.Subset.refl _
  started := List.Subset.refl _
  reached := fun x hx => ⟨x, hx, .refl⟩
  closed := fun _ hx => .inl hx

theorem Inv.step {w : Worklist α} (h : Inv next start all w) (hnext : ∀ x ∈ all, next x ⊆ all) :
    Inv next start all (w.step next) := by
  unfold Worklist.step
  split
  · exact h
  · rename_i x queue hqueue
    have hx : x ∈ w.seen := h.queued (by simp [hqueue])
    obtain ⟨new, hseen', hqueue', hnodup, hnew⟩ := foldl_visit (next x) { w with queue }
    refine ⟨?_, ?_, ?_, ?_, ?_, ?_⟩
    · rw [hseen', List.nodup_append]
      refine ⟨h.nodup, hnodup, fun a ha b hb heq => ?_⟩
      exact ((hnew b).mp hb).2 (heq ▸ ha)
    · rw [hseen']
      exact List.append_subset.mpr ⟨h.subset, fun y hy => hnext x (h.subset hx) ((hnew y).mp hy).1⟩
    · rw [hseen', hqueue']
      refine List.append_subset.mpr ⟨fun y hy => ?_, List.subset_append_right _ _⟩
      exact List.mem_append_left _ (h.queued (hqueue ▸ List.mem_cons_of_mem _ hy))
    · rw [hseen']
      exact List.Subset.trans h.started (List.subset_append_left _ _)
    · intro y hy
      rw [hseen', List.mem_append] at hy
      rcases hy with hy | hy
      · exact h.reached y hy
      · obtain ⟨s, hs, hreach⟩ := h.reached x hx
        exact ⟨s, hs, hreach.tail ((hnew y).mp hy).1⟩
    · -- the element taken from the queue has all its successors seen now
      have htaken : next x ⊆ w.seen ++ new := fun y hy => by
        by_cases hold : y ∈ w.seen
        · exact List.mem_append_left _ hold
        · exact List.mem_append_right _ ((hnew y).mpr ⟨hy, hold⟩)
      intro y hy
      rw [hseen', hqueue']
      rw [hseen', List.mem_append] at hy
      rcases hy with hy | hy
      · rcases h.closed y hy with hq | hsub
        · rw [hqueue, List.mem_cons] at hq
          rcases hq with rfl | hq
          · exact .inr htaken
          · exact .inl (List.mem_append_left _ hq)
        · exact .inr (List.Subset.trans hsub (List.subset_append_left _ _))
      · exact .inl (List.mem_append_right _ hy)

theorem inv_run (hnodup : start.Nodup) (hsubset : start ⊆ all) (hnext : ∀ x ∈ all, next x ⊆ all)
    (rounds : Nat) : Inv next start all (run next rounds start) := by
  induction rounds with
  | zero => exact inv_start hnodup hsubset
  | succ n ih =>
      unfold run
      rw [Function.iterate_succ_apply']
      exact ih.step hnext

/-! ## The end of the loop -/

/-- Every round takes one element from the queue, and each is queued once. -/
theorem left_step (w : Worklist α) (hqueue : w.queue ≠ []) :
    (w.step next).queue.length + w.seen.length + 1 = w.queue.length + (w.step next).seen.length := by
  unfold step
  split
  · rename_i h
    exact absurd h hqueue
  · rename_i x queue hq
    obtain ⟨new, hseen', hqueue', -, -⟩ := foldl_visit (next x) { w with queue }
    rw [hseen', hqueue', List.length_append, List.length_append]
    simp only [hq, List.length_cons]
    omega

theorem rounds_run (rounds : Nat) : (run next rounds start).queue = [] ∨
    (run next rounds start).queue.length + rounds = (run next rounds start).seen.length := by
  induction rounds with
  | zero => exact .inr rfl
  | succ n ih =>
      have hstep : run next (n + 1) start = (run next n start).step next := Function.iterate_succ_apply' ..
      rw [hstep]
      by_cases hqueue : (run next n start).queue = []
      · left
        unfold step
        rw [hqueue]
        exact hqueue
      · right
        have hleft : ((run next n start).step next).queue.length + (run next n start).seen.length + 1 = _ := left_step _ hqueue
        have := ih.resolve_left hqueue
        omega

/-- After as many rounds as there are elements the queue is empty, and what is seen is what is reached. -/
theorem run_spec (hnodup : start.Nodup) (hsubset : start ⊆ all) (hnext : ∀ x ∈ all, next x ⊆ all) :
    (run next all.length start).queue = [] ∧
      ∀ x, x ∈ (run next all.length start).seen ↔
        ∃ s ∈ start, Relation.ReflTransGen (fun a b => b ∈ next a) s x := by
  have hinv := inv_run hnodup hsubset hnext all.length
  have hempty : (run next all.length start).queue = [] := by
    have hrounds : (run next all.length start).queue = [] ∨ _ := rounds_run all.length
    rcases hrounds with h | h
    · exact h
    · have hle := (List.subperm_of_subset hinv.nodup hinv.subset).length_le
      exact List.length_eq_zero_iff.mp (by omega)
  refine ⟨hempty, fun x => ⟨hinv.reached x, ?_⟩⟩
  rintro ⟨s, hs, hreach⟩
  induction hreach with
  | refl => exact hinv.started hs
  | tail _ hedge ih =>
      have hsub := (hinv.closed _ ih).resolve_left (by simp [hempty])
      exact hsub hedge

end Worklist
