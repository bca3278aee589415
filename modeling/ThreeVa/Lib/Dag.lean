import Mathlib.Order.WellFoundedSet
import Mathlib.Tactic.Common
import Mathlib.Data.List.Nodup
import Mathlib.Logic.Relation

/-!
# Acyclic relations and their orders

A relation from an element to those it needs, the lists in which everything comes after what it needs, and the element of
a finite set that needs none of the others.
-/

namespace Dag

variable {α : Type} {r : α → α → Prop}

def Acyclic (r : α → α → Prop) : Prop := ∀ a, ¬ Relation.TransGen r a a

/-- What an element needs stands before it. -/
def Ordered (r : α → α → Prop) (l : List α) : Prop := ∀ l₁ a l₂, l = l₁ ++ a :: l₂ → ∀ b, r a b → b ∈ l₁

theorem Acyclic.exists_free (h : Acyclic r) {s : List α} (hs : s ≠ []) : ∃ a ∈ s, ∀ b ∈ s, ¬ r a b := by
  have : IsStrictOrder α fun a b => Relation.TransGen r b a :=
    { irrefl := h, trans := fun _ _ _ hab hbc => hbc.trans hab }
  have hwf : {a | a ∈ s}.WellFoundedOn fun a b => Relation.TransGen r b a := s.finite_toSet.wellFoundedOn
  obtain ⟨a₀, ha₀⟩ := List.exists_mem_of_ne_nil s hs
  obtain ⟨a, ha, hmin⟩ := hwf.has_min Set.univ ⟨⟨a₀, ha₀⟩, trivial⟩
  exact ⟨a, a.2, fun b hb hab => hmin ⟨b, hb⟩ trivial (.single hab)⟩

/-- Below an element with a bad one there is one that is bad and has no bad one below. -/
theorem Acyclic.exists_first (h : Acyclic r) {s : List α} {bad : α → Prop} (hmem : ∀ a, bad a → a ∈ s) {a b : α}
    (hab : Relation.TransGen r a b) (hb : bad b) :
    ∃ c, Relation.TransGen r a c ∧ bad c ∧ ∀ d, Relation.TransGen r c d → ¬ bad d := by
  classical
  have htrans : Acyclic (Relation.TransGen r) := by
    intro c hc
    rw [Relation.transGen_eq_self] at hc
    exact h c hc
  have hne : s.filter (fun c => Relation.TransGen r a c ∧ bad c) ≠ [] :=
    List.ne_nil_of_mem (List.mem_filter.mpr ⟨hmem b hb, by simpa using ⟨hab, hb⟩⟩)
  obtain ⟨c, hc, hfree⟩ := htrans.exists_free hne
  rw [List.mem_filter, decide_eq_true_eq] at hc
  refine ⟨c, hc.2.1, hc.2.2, fun d hcd hd => ?_⟩
  exact hfree d (List.mem_filter.mpr ⟨hmem d hd, by simpa using ⟨hc.2.1.trans hcd, hd⟩⟩) hcd

theorem ordered_nil : Ordered r [] := by
  intro l₁ a l₂ h
  simp at h

theorem Ordered.concat {l : List α} {a : α} (h : Ordered r l) (ha : ∀ b, r a b → b ∈ l) : Ordered r (l ++ [a]) := by
  intro l₁ c l₂ heq b hcb
  rcases List.eq_nil_or_concat l₂ with rfl | ⟨l₂, d, rfl⟩
  · obtain ⟨rfl, hac⟩ := List.append_inj' heq rfl
    obtain rfl : a = c := by simpa using hac
    exact ha b hcb
  · rw [List.concat_eq_append, ← List.cons_append, ← List.append_assoc] at heq
    obtain ⟨rfl, -⟩ := List.append_inj' heq rfl
    exact h l₁ c l₂ rfl b hcb

/-- A relation between the elements of an ordered list has no cycle. -/
theorem Ordered.acyclic [DecidableEq α] {l : List α} (h : Ordered r l) (hmem : ∀ a b, r a b → a ∈ l) : Acyclic r := by
  have hlt : ∀ a b, r a b → l.idxOf b < l.idxOf a := by
    intro a b hab
    obtain ⟨l₁, l₂, heq, hnot⟩ := List.eq_append_cons_of_mem (hmem a b hab)
    have hb : b ∈ l₁ := h l₁ a l₂ heq b hab
    rw [heq, List.idxOf_append_of_mem hb, List.idxOf_append_of_notMem hnot, List.idxOf_cons_self, Nat.add_zero]
    exact List.idxOf_lt_length_of_mem hb
  have htrans : ∀ a b, Relation.TransGen r a b → l.idxOf b < l.idxOf a := by
    intro a b hab
    induction hab with
    | single hab => exact hlt _ _ hab
    | tail _ hbc ih => exact (hlt _ _ hbc).trans ih
  exact fun a ha => Nat.lt_irrefl _ (htrans a a ha)

end Dag

/-!
## Depth-first search

A search that enters a node before what is next to it and leaves it afterwards. The nodes it leaves are those that can be
reached, and each comes after what is next to it unless there is a way back.
-/

namespace DepthFirst

variable {α : Type}

/-- The nodes that were entered, and those that were left in their order. -/
structure Search (α : Type) where
  entered : List α
  left : List α

def visit [DecidableEq α] (next : α → List α) : Nat → α → Search α → Option (Search α)
  | 0, a, s => if a ∈ s.entered then some s else none
  | depth + 1, a, s =>
      if a ∈ s.entered then some s
      else do
        let s ← (next a).foldlM (fun s b => visit next depth b s) ⟨a :: s.entered, s.left⟩
        return ⟨s.entered, s.left ++ [a]⟩

def visitAll [DecidableEq α] (next : α → List α) (depth : Nat) (roots : List α) (s : Search α) : Option (Search α) :=
  roots.foldlM (fun s a => visit next depth a s) s

/-! ## Orders -/

section Orders

variable {next : α → List α}

def Reach (next : α → List α) : α → α → Prop := Relation.ReflTransGen fun a b => b ∈ next a

/-- What is next to a node was left before it, or leads back to it. -/
def PostOrdered (next : α → List α) : List α → List α → Prop
  | _, [] => True
  | before, a :: l => (∀ b ∈ next a, b ∈ before ∨ Reach next b a) ∧ PostOrdered next (before ++ [a]) l

theorem PostOrdered.append {before l l' : List α} (h : PostOrdered next before l)
    (h' : PostOrdered next (before ++ l) l') : PostOrdered next before (l ++ l') := by
  induction l generalizing before with
  | nil => simpa using h'
  | cons a l ih => exact ⟨h.1, ih h.2 (by simpa using h')⟩

theorem PostOrdered.at {before l₁ l₂ : List α} {a b : α} (h : PostOrdered next before (l₁ ++ a :: l₂))
    (hb : b ∈ next a) : b ∈ before ++ l₁ ∨ Reach next b a := by
  induction l₁ generalizing before with
  | nil =>
      rw [List.append_nil]
      exact h.1 b hb
  | cons c l₁ ih => simpa using ih h.2

end Orders

/-! ## Steps -/

section Steps

variable {next : α → List α} {s t u : Search α} {l l' : List α}

/-- A search goes from one state to another and leaves the nodes of a list. -/
structure Steps (next : α → List α) (s t : Search α) (l : List α) : Prop where
  left : t.left = s.left ++ l
  entered : ∀ x, x ∈ t.entered ↔ x ∈ s.entered ∨ x ∈ l
  fresh : ∀ x ∈ l, x ∉ s.entered
  nodup : l.Nodup
  closed : ∀ x ∈ l, ∀ b ∈ next x, b ∈ t.entered
  order : PostOrdered next s.left l

theorem Steps.refl (s : Search α) : Steps next s s [] where
  left := by simp
  entered := by simp
  fresh := by simp
  nodup := List.nodup_nil
  closed := by simp
  order := trivial

theorem Steps.trans (h : Steps next s t l) (h' : Steps next t u l') : Steps next s u (l ++ l') where
  left := by rw [h'.left, h.left, List.append_assoc]
  entered x := by rw [h'.entered, h.entered, List.mem_append, or_assoc]
  fresh x hx hs := by
    rcases List.mem_append.mp hx with hx | hx
    · exact h.fresh x hx hs
    · exact h'.fresh x hx ((h.entered x).mpr (Or.inl hs))
  nodup := by
    refine List.nodup_append.mpr ⟨h.nodup, h'.nodup, fun x hx y hy heq => ?_⟩
    subst heq
    exact h'.fresh x hy ((h.entered x).mpr (Or.inr hx))
  closed x hx b hb := by
    rcases List.mem_append.mp hx with hx | hx
    · exact (h'.entered b).mpr (Or.inl (h.closed x hx b hb))
    · exact h'.closed x hx b hb
  order := h.order.append (by rw [← h.left]; exact h'.order)

/-- What was entered was left, or leads to the node the search stands at. -/
def Open (next : α → List α) (s : Search α) (a : α) : Prop := ∀ x ∈ s.entered, x ∈ s.left ∨ Reach next x a

theorem Open.enter {a b : α} (h : Open next s a) (hb : b ∈ next a) : Open next s b :=
  fun x hx => (h x hx).imp_right fun hreach => hreach.tail hb

theorem Open.steps {a : α} (h : Open next s a) (hst : Steps next s t l) : Open next t a := by
  intro x hx
  rw [hst.left, List.mem_append]
  rcases (hst.entered x).mp hx with hx | hx
  · exact (h x hx).imp_left Or.inl
  · exact Or.inl (Or.inr hx)

/-- A node is left after everything that was left since it was entered. -/
theorem Steps.leave {a : α} (ha : a ∉ s.entered) (hopen : Open next s a)
    (h : Steps next ⟨a :: s.entered, s.left⟩ t l) (hnext : ∀ b ∈ next a, b ∈ t.entered) :
    Steps next s ⟨t.entered, t.left ++ [a]⟩ (l ++ [a]) where
  left := by rw [h.left, List.append_assoc]
  entered x := by
    rw [h.entered, List.mem_cons, List.mem_append, List.mem_singleton]
    tauto
  fresh x hx hs := by
    rcases List.mem_append.mp hx with hx | hx
    · exact h.fresh x hx (List.mem_cons_of_mem _ hs)
    · rw [List.mem_singleton.mp hx] at hs
      exact ha hs
  nodup := by
    refine List.nodup_append.mpr ⟨h.nodup, List.nodup_singleton a, fun x hx y hy heq => ?_⟩
    subst heq
    rw [List.mem_singleton.mp hy] at hx
    exact h.fresh a hx List.mem_cons_self
  closed x hx := by
    rcases List.mem_append.mp hx with hx | hx
    · exact h.closed x hx
    · rw [List.mem_singleton.mp hx]
      exact hnext
  order := by
    refine h.order.append ⟨fun b hb => ?_, trivial⟩
    rw [List.mem_append]
    rcases (h.entered b).mp (hnext b hb) with hb | hb
    · rcases List.mem_cons.mp hb with rfl | hb
      · exact Or.inr .refl
      · exact (hopen b hb).imp_left Or.inl
    · exact Or.inl (Or.inr hb)

end Steps

/-! ## Searches -/

section Searches

variable [DecidableEq α] {next : α → List α} {depth : Nat} {s t : Search α}

/-- The nodes next to one, each visited from it. -/
theorem steps_of_foldlM {a : α} {l : List α}
    (hvisit : ∀ b s t, visit next depth b s = some t → Open next s b →
      ∃ l, Steps next s t l ∧ b ∈ t.entered ∧ ∀ x ∈ l, Reach next b x)
    (hl : ∀ b ∈ l, b ∈ next a) (hopen : Open next s a)
    (h : l.foldlM (fun s b => visit next depth b s) s = some t) :
    ∃ l', Steps next s t l' ∧ (∀ b ∈ l, b ∈ t.entered) ∧ ∀ x ∈ l', Reach next a x := by
  induction l generalizing s with
  | nil =>
      cases h
      exact ⟨[], .refl _, by simp, by simp⟩
  | cons b l ih =>
      rw [List.foldlM_cons, Option.bind_eq_bind, Option.bind_eq_some_iff] at h
      obtain ⟨s', hb, hrest⟩ := h
      have hnext : b ∈ next a := hl b List.mem_cons_self
      obtain ⟨l₁, hsteps₁, hmem₁, hreach₁⟩ := hvisit b s s' hb (hopen.enter hnext)
      obtain ⟨l₂, hsteps₂, hmem₂, hreach₂⟩ :=
        ih (fun c hc => hl c (List.mem_cons_of_mem _ hc)) (hopen.steps hsteps₁) hrest
      refine ⟨l₁ ++ l₂, hsteps₁.trans hsteps₂, fun c hc => ?_, fun x hx => ?_⟩
      · rcases List.mem_cons.mp hc with rfl | hc
        · exact (hsteps₂.entered c).mpr (Or.inl hmem₁)
        · exact hmem₂ c hc
      · rcases List.mem_append.mp hx with hx | hx
        · exact (Relation.ReflTransGen.single hnext).trans (hreach₁ x hx)
        · exact hreach₂ x hx

theorem steps_of_visit {a : α} (h : visit next depth a s = some t) (hopen : Open next s a) :
    ∃ l, Steps next s t l ∧ a ∈ t.entered ∧ ∀ x ∈ l, Reach next a x := by
  induction depth generalizing a s t with
  | zero =>
      rw [visit] at h
      split at h
      · rename_i hin
        cases h
        exact ⟨[], .refl s, hin, by simp⟩
      · cases h
  | succ depth ih =>
      rw [visit] at h
      split at h
      · rename_i hin
        cases h
        exact ⟨[], .refl s, hin, by simp⟩
      · rename_i hout
        simp only [Option.bind_eq_bind, Option.bind_eq_some_iff, Option.pure_def, Option.some.injEq] at h
        obtain ⟨t', hfold, rfl⟩ := h
        have hopen' : Open next ⟨a :: s.entered, s.left⟩ a := by
          intro x hx
          rcases List.mem_cons.mp hx with rfl | hx
          · exact Or.inr .refl
          · exact hopen x hx
        obtain ⟨l, hsteps, hnext, hreach⟩ := steps_of_foldlM (fun b s t => ih) (fun b hb => hb) hopen' hfold
        refine ⟨l ++ [a], hsteps.leave hout hopen hnext, ?_, fun x hx => ?_⟩
        · exact (hsteps.entered a).mpr (Or.inl List.mem_cons_self)
        · rcases List.mem_append.mp hx with hx | hx
          · exact hreach x hx
          · rw [List.mem_singleton.mp hx]
            exact .refl

theorem steps_of_visitAll {roots : List α} (h : visitAll next depth roots s = some t) (hdone : ∀ x ∈ s.entered, x ∈ s.left) :
    ∃ l, Steps next s t l ∧ (∀ a ∈ roots, a ∈ t.entered) ∧ ∀ x ∈ l, ∃ a ∈ roots, Reach next a x := by
  induction roots generalizing s with
  | nil =>
      cases h
      exact ⟨[], .refl _, by simp, by simp⟩
  | cons a roots ih =>
      rw [visitAll, List.foldlM_cons, Option.bind_eq_bind, Option.bind_eq_some_iff] at h
      obtain ⟨s', ha, hrest⟩ := h
      obtain ⟨l₁, hsteps₁, hmem₁, hreach₁⟩ := steps_of_visit ha fun x hx => Or.inl (hdone x hx)
      have hdone' : ∀ x ∈ s'.entered, x ∈ s'.left := by
        intro x hx
        rw [hsteps₁.left, List.mem_append]
        exact ((hsteps₁.entered x).mp hx).imp_left (hdone x)
      obtain ⟨l₂, hsteps₂, hmem₂, hreach₂⟩ := ih hrest hdone'
      refine ⟨l₁ ++ l₂, hsteps₁.trans hsteps₂, fun c hc => ?_, fun x hx => ?_⟩
      · rcases List.mem_cons.mp hc with rfl | hc
        · exact (hsteps₂.entered c).mpr (Or.inl hmem₁)
        · exact hmem₂ c hc
      · rcases List.mem_append.mp hx with hx | hx
        · exact ⟨a, List.mem_cons_self, hreach₁ x hx⟩
        · obtain ⟨b, hb, hreach⟩ := hreach₂ x hx
          exact ⟨b, List.mem_cons_of_mem _ hb, hreach⟩

/-- A whole search leaves what the roots lead to, each once. -/
theorem visitAll_spec {roots : List α} (h : visitAll next depth roots ⟨[], []⟩ = some t) :
    t.left.Nodup ∧ (∀ x, x ∈ t.left ↔ ∃ a ∈ roots, Reach next a x) ∧ PostOrdered next [] t.left := by
  obtain ⟨l, hsteps, hroots, hreach⟩ := steps_of_visitAll h (by simp)
  have hleft : t.left = l := hsteps.left
  have hentered : ∀ x, x ∈ t.entered ↔ x ∈ l := by simpa using hsteps.entered
  rw [hleft]
  have horder : PostOrdered next [] l := hsteps.order
  refine ⟨hsteps.nodup, fun x => ⟨hreach x, ?_⟩, horder⟩
  rintro ⟨a, ha, hax⟩
  induction hax with
  | refl => exact (hentered a).mp (hroots a ha)
  | tail _ hstep ih => exact (hentered _).mp (hsteps.closed _ ih _ hstep)

end Searches

/-! ## Depth -/

section Depth

variable [DecidableEq α] {next : α → List α} {inner : List α}

/-- The nodes with something next to them that were not entered. -/
def unentered (inner : List α) (s : Search α) : Nat := (inner.filter fun a => a ∉ s.entered).length

theorem unentered_le {s t : Search α} (h : ∀ x ∈ s.entered, x ∈ t.entered) : unentered inner t ≤ unentered inner s := by
  unfold unentered
  refine List.Sublist.length_le (List.monotone_filter_right _ fun a ha => ?_)
  simp only [decide_eq_true_eq] at ha ⊢
  exact fun hs => ha (h a hs)

theorem unentered_enter {s : Search α} {a : α} (ha : a ∈ inner) (hout : a ∉ s.entered) :
    unentered inner ⟨a :: s.entered, s.left⟩ < unentered inner s := by
  have hfilter : inner.filter (fun x => x ∉ a :: s.entered) =
      (inner.filter fun x => x ∉ s.entered).filter fun x => x ≠ a := by
    rw [List.filter_filter]
    refine List.filter_congr fun x _ => ?_
    simp
  unfold unentered
  rw [hfilter, List.length_filter_lt_length_iff_exists]
  exact ⟨a, List.mem_filter.mpr ⟨ha, by simpa using hout⟩, by simp⟩

/-- A list of visits ends where each does that starts with no more to enter. -/
theorem exists_foldlM {depth bound : Nat} (l : List α) {s : Search α} (hbound : unentered inner s < bound)
    (hvisit : ∀ b s, unentered inner s < bound → ∃ t, visit next depth b s = some t ∧ ∀ x ∈ s.entered, x ∈ t.entered) :
    ∃ t, l.foldlM (fun s b => visit next depth b s) s = some t ∧ ∀ x ∈ s.entered, x ∈ t.entered := by
  induction l generalizing s with
  | nil => exact ⟨s, rfl, fun _ hx => hx⟩
  | cons b l ih =>
      obtain ⟨s', hs', hsub⟩ := hvisit b s hbound
      obtain ⟨t, ht, hsub'⟩ := ih (Nat.lt_of_le_of_lt (unentered_le hsub) hbound)
      refine ⟨t, ?_, fun x hx => hsub' x (hsub x hx)⟩
      rw [List.foldlM_cons, hs']
      exact ht

/-- A search that may go deeper than there are nodes with something next to them ends. -/
theorem exists_visit (hinner : ∀ a, next a ≠ [] → a ∈ inner) {depth : Nat} {a : α} {s : Search α}
    (h : unentered inner s < depth) :
    ∃ t, visit next depth a s = some t ∧ ∀ x ∈ s.entered, x ∈ t.entered := by
  induction depth generalizing a s with
  | zero => exact absurd h (Nat.not_lt_zero _)
  | succ depth ih =>
      rw [visit]
      split
      · exact ⟨s, rfl, fun _ hx => hx⟩
      · rename_i hout
        by_cases hnext : next a = []
        · rw [hnext]
          exact ⟨_, rfl, fun x hx => List.mem_cons_of_mem _ hx⟩
        · have hless := unentered_enter (hinner a hnext) hout
          have hdepth : unentered inner ⟨a :: s.entered, s.left⟩ < depth := by omega
          obtain ⟨t, ht, hsub⟩ := exists_foldlM (next a) hdepth fun b s hs => ih hs
          rw [ht]
          exact ⟨_, rfl, fun x hx => hsub x (List.mem_cons_of_mem _ hx)⟩

theorem exists_visitAll (hinner : ∀ a, next a ≠ [] → a ∈ inner) {depth : Nat} (h : inner.length < depth)
    (roots : List α) : ∃ t, visitAll next depth roots ⟨[], []⟩ = some t := by
  have hall : unentered inner ⟨[], []⟩ < depth := Nat.lt_of_le_of_lt (List.length_filter_le _ _) h
  obtain ⟨t, ht, -⟩ := exists_foldlM roots hall fun b s hs => exists_visit hinner hs
  exact ⟨t, ht⟩

end Depth

end DepthFirst
