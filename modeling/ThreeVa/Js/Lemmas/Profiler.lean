import Mathlib.Data.List.Count
import Mathlib.Data.List.Dedup
import ThreeVa.Js.Profiler

/-!
# Profiles that are read back

A node of a profile spells the calls from it to the root. Adding a sample keeps what the other nodes spell, and walking up
from the node of a sample reads its frames.
-/

namespace ThreeVa.Js.Profiler
open Text

/-! ## The tree of calls -/

/-- Going up from a node one meets these calls. -/
inductive Spells (nodes : List Node) : Nat → List ProfileFrame → Prop
  | root : Spells nodes 1 []
  | child {i j : Nat} {n m : Node} {f : ProfileFrame} {frames : List ProfileFrame} (above : Spells nodes i frames)
      (hn : nodes[i]? = some n) (hedge : (frameKey f, j) ∈ n.children) (hm : nodes[j]? = some m)
      (hframe : m.frame = cpuFrame j f) : Spells nodes j (f :: frames)

/-- Nodes are only added, and children to them. -/
def Grows (nodes nodes' : List Node) : Prop :=
  ∀ (i : Nat) (n : Node), nodes[i]? = some n → ∃ n' : Node, nodes'[i]? = some n' ∧ n'.frame = n.frame ∧ n.children ⊆ n'.children

def rootFrame : ProfileFrame := ⟨"(root)".toList, [], -1, -1⟩

/-- The numbers of the nodes are their places, and each but the first two is the child of one node before it, for a call
that was seen. -/
structure Tree (seen : Set ProfileFrame) (nodes : List Node) : Prop where
  ids : ∀ (i : Nat) (n : Node), nodes[i]? = some n → n.id = i
  root : ∃ n : Node, nodes[1]? = some n ∧ n.frame = cpuFrame 0 rootFrame
  edge : ∀ (i : Nat) (n : Node) (k : Str) (j : Nat), nodes[i]? = some n → (k, j) ∈ n.children →
    1 ≤ i ∧ i < j ∧ ∃ (m : Node) (f : ProfileFrame), nodes[j]? = some m ∧ f ∈ seen ∧ k = frameKey f ∧ m.frame = cpuFrame j f
  parent : ∀ (i i' : Nat) (n n' : Node) (k k' : Str) (j : Nat), nodes[i]? = some n → nodes[i']? = some n' →
    (k, j) ∈ n.children → (k', j) ∈ n'.children → i = i'

section Tree

variable {nodes nodes' : List Node} {seen : Set ProfileFrame} {cur : Nat} {f : ProfileFrame} {frames : List ProfileFrame}

theorem Grows.refl (nodes : List Node) : Grows nodes nodes := fun _ n hn => ⟨n, hn, rfl, List.Subset.refl _⟩

theorem Grows.trans {nodes'' : List Node} (h : Grows nodes nodes') (h' : Grows nodes' nodes'') : Grows nodes nodes'' := by
  intro i n hn
  obtain ⟨n', hn', hframe, hchildren⟩ := h i n hn
  obtain ⟨n'', hn'', hframe', hchildren'⟩ := h' i n' hn'
  exact ⟨n'', hn'', hframe'.trans hframe, fun _ hx => hchildren' (hchildren hx)⟩

theorem Spells.mono (h : Grows nodes nodes') (hs : Spells nodes cur frames) : Spells nodes' cur frames := by
  induction hs with
  | root => exact .root
  | child above hn hedge hm hframe ih =>
      obtain ⟨n', hn', -, hchildren⟩ := h _ _ hn
      obtain ⟨m', hm', hframe', -⟩ := h _ _ hm
      exact .child ih hn' (hchildren hedge) hm' (hframe'.trans hframe)

theorem Spells.node (hs : Spells nodes cur frames) (h : Tree seen nodes) : 1 ≤ cur ∧ ∃ n, nodes[cur]? = some n := by
  cases hs with
  | root => exact ⟨Nat.le_refl _, h.root.imp fun _ hn => hn.1⟩
  | child above hn hedge hm hframe =>
      obtain ⟨hpos, hlt, -⟩ := h.edge _ _ _ _ hn hedge
      exact ⟨hpos.trans hlt.le, _, hm⟩

theorem tree_first : Tree seen firstNodes where
  ids := by
    intro i n hn
    match i, hn with
    | 0, hn => cases hn; rfl
    | 1, hn => cases hn; rfl
  root := ⟨_, rfl, rfl⟩
  edge := by
    intro i n k j hn hedge
    match i, hn with
    | 0, hn => cases hn; cases hedge
    | 1, hn => cases hn; cases hedge
  parent := by
    intro i i' n n' k k' j hn _ hedge
    match i, hn with
    | 0, hn => cases hn; cases hedge
    | 1, hn => cases hn; cases hedge

/-! ## One more call -/

/-- The nodes after a new child. -/
def withChild (nodes : List Node) (cur : Nat) (f : ProfileFrame) : List Node :=
  (nodes ++ [(⟨nodes.length, cpuFrame nodes.length f, [], 0⟩ : Node)]).modify cur
    fun n => { n with children := n.children ++ [(frameKey f, nodes.length)] }

theorem getElem?_withChild (hcur : cur < nodes.length) (i : Nat) : (withChild nodes cur f)[i]? =
    if i = nodes.length then some ⟨nodes.length, cpuFrame nodes.length f, [], 0⟩
    else nodes[i]?.map fun n => if i = cur then { n with children := n.children ++ [(frameKey f, nodes.length)] } else n := by
  rw [withChild, List.getElem?_modify]
  rcases Nat.lt_trichotomy i nodes.length with hi | hi | hi
  · rw [if_neg hi.ne, List.getElem?_append_left hi]
    by_cases hic : i = cur
    · simp [hic]
    · simp [hic, Ne.symm hic]
  · subst hi
    simp [hcur.ne]
  · rw [if_neg hi.ne', List.getElem?_eq_none (by simp; omega), List.getElem?_eq_none hi.le]
    rfl

theorem grows_withChild (hcur : cur < nodes.length) : Grows nodes (withChild nodes cur f) := by
  intro i n hn
  have hi : i < nodes.length := (List.getElem?_eq_some_iff.mp hn).1
  rw [getElem?_withChild hcur, if_neg hi.ne, hn, Option.map_some]
  refine ⟨_, rfl, ?_⟩
  split
  · exact ⟨rfl, List.subset_append_left _ _⟩
  · exact ⟨rfl, List.Subset.refl _⟩

/-- What the nodes after a new child are. -/
theorem withChild_cases (hcur : cur < nodes.length) {i : Nat} {n : Node} (h : (withChild nodes cur f)[i]? = some n) :
    (i = nodes.length ∧ n = ⟨nodes.length, cpuFrame nodes.length f, [], 0⟩) ∨
      ∃ n₀, nodes[i]? = some n₀ ∧ n.id = n₀.id ∧ n.frame = n₀.frame ∧
        ∀ k j, (k, j) ∈ n.children → (k, j) ∈ n₀.children ∨ (i = cur ∧ k = frameKey f ∧ j = nodes.length) := by
  rw [getElem?_withChild hcur] at h
  split at h
  · rename_i hi
    exact .inl ⟨hi, (Option.some.inj h).symm⟩
  · obtain ⟨n₀, hn₀, rfl⟩ := Option.map_eq_some_iff.mp h
    refine .inr ⟨n₀, hn₀, ?_⟩
    split
    · rename_i hi
      refine ⟨rfl, rfl, fun k j hkj => ?_⟩
      rcases List.mem_append.mp hkj with hold | hnew
      · exact .inl hold
      · obtain ⟨rfl, rfl⟩ := Prod.mk.inj (List.mem_singleton.mp hnew)
        exact .inr ⟨hi, rfl, rfl⟩
    · exact ⟨rfl, rfl, fun k j hkj => .inl hkj⟩

theorem tree_withChild (h : Tree seen nodes) (hpos : 1 ≤ cur) (hcur : cur < nodes.length) (hf : f ∈ seen) :
    Tree seen (withChild nodes cur f) where
  ids := by
    intro i n hn
    rcases withChild_cases hcur hn with ⟨rfl, rfl⟩ | ⟨n₀, hn₀, hid, -⟩
    · rfl
    · exact hid.trans (h.ids i n₀ hn₀)
  root := by
    obtain ⟨n, hn, hframe⟩ := h.root
    obtain ⟨n', hn', hframe', -⟩ := grows_withChild (f := f) hcur 1 n hn
    exact ⟨n', hn', hframe'.trans hframe⟩
  edge := by
    intro i n k j hn hedge
    rcases withChild_cases hcur hn with ⟨-, rfl⟩ | ⟨n₀, hn₀, -, -, hchildren⟩
    · cases hedge
    · rcases hchildren k j hedge with hold | ⟨rfl, rfl, rfl⟩
      · obtain ⟨hi, hij, m, g, hm, hg, hk, hframe⟩ := h.edge i n₀ k j hn₀ hold
        obtain ⟨m', hm', hframe', -⟩ := grows_withChild (f := f) hcur j m hm
        exact ⟨hi, hij, m', g, hm', hg, hk, hframe'.trans hframe⟩
      · exact ⟨hpos, hcur, _, f, by rw [getElem?_withChild hcur, if_pos rfl], hf, rfl, rfl⟩
  parent := by
    -- the new node is no child of any node before
    have hfresh : ∀ {i : Nat} {n : Node} {k : Str}, nodes[i]? = some n → (k, nodes.length) ∉ n.children := by
      intro i n k hn hedge
      obtain ⟨-, -, m, -, hm, -⟩ := h.edge i n k _ hn hedge
      rw [List.getElem?_eq_none (Nat.le_refl _)] at hm
      cases hm
    intro i i' n n' k k' j hn hn' hedge hedge'
    rcases withChild_cases hcur hn with ⟨-, rfl⟩ | ⟨n₀, hn₀, -, -, hchildren⟩
    · cases hedge
    rcases withChild_cases hcur hn' with ⟨-, rfl⟩ | ⟨n₁, hn₁, -, -, hchildren'⟩
    · cases hedge'
    rcases hchildren k j hedge with hold | ⟨rfl, rfl, rfl⟩
    · rcases hchildren' k' j hedge' with hold' | ⟨rfl, rfl, rfl⟩
      · exact h.parent i i' n₀ n₁ k k' j hn₀ hn₁ hold hold'
      · exact (hfresh hn₀ hold).elim
    · rcases hchildren' k' _ hedge' with hold' | ⟨rfl, -, -⟩
      · exact (hfresh hn₁ hold').elim
      · rfl

/-- Where a call is taken for another, they are equal. -/
def Distinct (seen : Set ProfileFrame) : Prop := ∀ f ∈ seen, ∀ g ∈ seen, frameKey f = frameKey g → f = g

theorem descend_spec (h : Tree seen nodes) (hdistinct : Distinct seen) (hf : f ∈ seen) (hs : Spells nodes cur frames) :
    Tree seen (descend (nodes, cur) f).1 ∧ Grows nodes (descend (nodes, cur) f).1 ∧
      Spells (descend (nodes, cur) f).1 (descend (nodes, cur) f).2 (f :: frames) := by
  obtain ⟨hpos, n, hn⟩ := hs.node h
  have hcur : cur < nodes.length := (List.getElem?_eq_some_iff.mp hn).1
  unfold descend
  simp only [hn, Option.map_some, Option.getD_some]
  split
  · rename_i j hj
    have hedge : (frameKey f, j) ∈ n.children := by
      obtain ⟨l₁, l₂, hsplit, -⟩ := List.lookup_eq_some_iff.mp hj
      simp [hsplit]
    obtain ⟨-, -, m, g, hm, hg, hkey, hframe⟩ := h.edge cur n _ j hn hedge
    obtain rfl := hdistinct f hf g hg hkey
    exact ⟨h, .refl nodes, .child hs hn hedge hm hframe⟩
  · have hgrows := grows_withChild (f := f) hcur
    refine ⟨tree_withChild h hpos hcur hf, hgrows, ?_⟩
    refine .child (hs.mono hgrows) (n := { n with children := n.children ++ [(frameKey f, nodes.length)] }) ?_
      (List.mem_append_right _ (List.mem_singleton_self _)) (m := ⟨nodes.length, cpuFrame nodes.length f, [], 0⟩) ?_ rfl
    · show (withChild nodes cur f)[cur]? = _
      rw [getElem?_withChild hcur, if_neg hcur.ne, hn, Option.map_some, if_pos rfl]
    · show (withChild nodes cur f)[nodes.length]? = _
      rw [getElem?_withChild hcur, if_pos rfl]

theorem descend_all (hdistinct : Distinct seen) (calls : List ProfileFrame) (hcalls : ∀ f ∈ calls, f ∈ seen)
    (h : Tree seen nodes) (hs : Spells nodes cur frames) :
    Tree seen (calls.foldl descend (nodes, cur)).1 ∧ Grows nodes (calls.foldl descend (nodes, cur)).1 ∧
      Spells (calls.foldl descend (nodes, cur)).1 (calls.foldl descend (nodes, cur)).2 (calls.reverse ++ frames) := by
  induction calls generalizing nodes cur frames with
  | nil => exact ⟨h, .refl nodes, hs⟩
  | cons f calls ih =>
      obtain ⟨htree, hgrows, hspells⟩ := descend_spec h hdistinct (hcalls f List.mem_cons_self) hs
      obtain ⟨htree', hgrows', hspells'⟩ := ih (fun g hg => hcalls g (List.mem_cons_of_mem _ hg)) htree hspells
      rw [List.foldl_cons, List.reverse_cons, List.append_assoc]
      exact ⟨htree', hgrows.trans hgrows', hspells'⟩

/-! ## Hits -/

def hits (nodes : List Node) (i : Nat) : Nat := (nodes[i]?.map Node.hitCount).getD 0

theorem hits_withChild (hcur : cur < nodes.length) (i : Nat) : hits (withChild nodes cur f) i = hits nodes i := by
  rw [hits, hits, getElem?_withChild hcur]
  split
  · rename_i hi
    rw [hi, List.getElem?_eq_none (Nat.le_refl _)]
    rfl
  · cases nodes[i]? with
    | none => rfl
    | some n =>
        simp only [Option.map_some, Option.getD_some]
        split <;> rfl

theorem hits_descend (h : Tree seen nodes) (hs : Spells nodes cur frames) (i : Nat) :
    hits (descend (nodes, cur) f).1 i = hits nodes i := by
  obtain ⟨-, n, hn⟩ := hs.node h
  unfold descend
  split
  · rfl
  · exact hits_withChild (List.getElem?_eq_some_iff.mp hn).1 i

theorem hits_descend_all (hdistinct : Distinct seen) (calls : List ProfileFrame) (hcalls : ∀ f ∈ calls, f ∈ seen)
    (h : Tree seen nodes) (hs : Spells nodes cur frames) (i : Nat) :
    hits (calls.foldl descend (nodes, cur)).1 i = hits nodes i := by
  induction calls generalizing nodes cur frames with
  | nil => rfl
  | cons f calls ih =>
      obtain ⟨htree, -, hspells⟩ := descend_spec h hdistinct (hcalls f List.mem_cons_self) hs
      rw [List.foldl_cons, ih (fun g hg => hcalls g (List.mem_cons_of_mem _ hg)) htree hspells, hits_descend h hs]

/-- A hit changes nothing else of a tree. -/
def withHit (nodes : List Node) (cur : Nat) : List Node := nodes.modify cur fun n => { n with hitCount := n.hitCount + 1 }

theorem withHit_cases {i : Nat} {n : Node} (h : (withHit nodes cur)[i]? = some n) :
    ∃ n₀, nodes[i]? = some n₀ ∧ n.id = n₀.id ∧ n.frame = n₀.frame ∧ n.children = n₀.children := by
  rw [withHit, List.getElem?_modify] at h
  obtain ⟨n₀, hn₀, rfl⟩ := Option.map_eq_some_iff.mp h
  refine ⟨n₀, hn₀, ?_⟩
  split <;> exact ⟨rfl, rfl, rfl⟩

theorem grows_withHit (nodes : List Node) (cur : Nat) : Grows nodes (withHit nodes cur) := by
  intro i n hn
  rw [withHit, List.getElem?_modify, hn]
  refine ⟨_, rfl, ?_⟩
  split <;> exact ⟨rfl, List.Subset.refl _⟩

theorem tree_withHit (h : Tree seen nodes) (cur : Nat) : Tree seen (withHit nodes cur) where
  ids := by
    intro i n hn
    obtain ⟨n₀, hn₀, hid, -⟩ := withHit_cases hn
    exact hid.trans (h.ids i n₀ hn₀)
  root := by
    obtain ⟨n, hn, hframe⟩ := h.root
    obtain ⟨n', hn', hframe', -⟩ := grows_withHit nodes cur 1 n hn
    exact ⟨n', hn', hframe'.trans hframe⟩
  edge := by
    intro i n k j hn hedge
    obtain ⟨n₀, hn₀, -, -, hchildren⟩ := withHit_cases hn
    obtain ⟨hi, hij, m, f, hm, hrest⟩ := h.edge i n₀ k j hn₀ (hchildren ▸ hedge)
    obtain ⟨m', hm', hframe', -⟩ := grows_withHit nodes cur j m hm
    exact ⟨hi, hij, m', f, hm', hrest.1, hrest.2.1, hframe'.trans hrest.2.2⟩
  parent := by
    intro i i' n n' k k' j hn hn' hedge hedge'
    obtain ⟨n₀, hn₀, -, -, hchildren⟩ := withHit_cases hn
    obtain ⟨n₁, hn₁, -, -, hchildren'⟩ := withHit_cases hn'
    exact h.parent i i' n₀ n₁ k k' j hn₀ hn₁ (hchildren ▸ hedge) (hchildren' ▸ hedge')

theorem hits_withHit {n : Node} (hn : nodes[cur]? = some n) (i : Nat) :
    hits (withHit nodes cur) i = hits nodes i + if i = cur then 1 else 0 := by
  rw [hits, hits, withHit, List.getElem?_modify]
  by_cases hi : cur = i
  · subst hi
    simp [hn]
  · simp [hi, Ne.symm hi]

end Tree

/-! ## Samples -/

/-- Each sample has a node that spells its frames, and a node has as many hits as samples. -/
structure Built (seen : Set ProfileFrame) (b : Building) (samples : List ProfileSample) : Prop where
  tree : Tree seen b.nodes
  spelled : List.Forall₂ (fun id (s : ProfileSample) => Spells b.nodes id s.frames) b.sampleIds samples
  counted : ∀ i, hits b.nodes i = b.sampleIds.count i

section Samples

variable {seen : Set ProfileFrame} {b : Building} {samples : List ProfileSample} {s : ProfileSample}

theorem Built.add (h : Built seen b samples) (hdistinct : Distinct seen) (hs : ∀ f ∈ s.frames, f ∈ seen) :
    Built seen (b.add s) (samples ++ [s]) := by
  have hcalls : ∀ f ∈ s.frames.reverse, f ∈ seen := fun f hf => hs f (List.mem_reverse.mp hf)
  obtain ⟨htree, hgrows, hspells⟩ := descend_all hdistinct s.frames.reverse hcalls h.tree .root
  rw [List.reverse_reverse, List.append_nil] at hspells
  have hcounted := hits_descend_all hdistinct s.frames.reverse hcalls h.tree .root
  unfold Building.add
  generalize s.frames.reverse.foldl descend (b.nodes, 1) = walk at htree hgrows hspells hcounted ⊢
  obtain ⟨nodes, cur⟩ := walk
  obtain ⟨-, n, hn⟩ := hspells.node htree
  have hhit := grows_withHit nodes cur
  refine ⟨tree_withHit htree cur, List.rel_append ?_ (.cons (hspells.mono hhit) .nil), fun i => ?_⟩
  · exact h.spelled.imp fun id t ht => (ht.mono hgrows).mono hhit
  · show hits (withHit nodes cur) i = (b.sampleIds ++ [cur]).count i
    rw [hits_withHit hn, hcounted, h.counted, List.count_append]
    by_cases hi : i = cur
    · simp [hi]
    · simp [hi, Ne.symm hi]

theorem built_all (hdistinct : Distinct seen) (more : List ProfileSample) (hmore : ∀ s ∈ more, ∀ f ∈ s.frames, f ∈ seen)
    (h : Built seen b samples) : Built seen (more.foldl Building.add b) (samples ++ more) := by
  induction more generalizing b samples with
  | nil => rwa [List.append_nil]
  | cons s more ih =>
      rw [List.foldl_cons, List.append_cons]
      exact ih (fun t ht => hmore t (List.mem_cons_of_mem _ ht)) (h.add hdistinct (hmore s List.mem_cons_self))

theorem built_building {state : ProfilerState} (hdistinct : Distinct {f | ∃ s ∈ state.samples, f ∈ s.frames}) :
    Built {f | ∃ s ∈ state.samples, f ∈ s.frames} (building state) state.samples := by
  have hfirst : Built {f | ∃ s ∈ state.samples, f ∈ s.frames} ⟨firstNodes, [], [], state.startTimeMs⟩ [] := by
    refine ⟨tree_first, .nil, fun i => ?_⟩
    match i with
    | 0 | 1 => rfl
    | i + 2 => simp [hits, firstNodes]
  exact built_all hdistinct state.samples (fun s hs f hf => ⟨s, hs, hf⟩) hfirst

/-- The times between samples, in microseconds. -/
def deltas : Nat → List ProfileSample → List Nat
  | _, [] => []
  | prevTs, s :: samples => (s.timestampMs - prevTs) * 1000 :: deltas s.timestampMs samples

theorem timeDeltas_foldl (b : Building) (samples : List ProfileSample) :
    (samples.foldl Building.add b).timeDeltas = b.timeDeltas ++ deltas b.prevTs samples := by
  induction samples generalizing b with
  | nil => simp [deltas]
  | cons s samples ih =>
      rw [List.foldl_cons, ih]
      simp [Building.add, deltas]

end Samples

/-! ## Walking up -/

theorem find?_of_unique {α : Type} {l : List α} {p : α → Bool} {a : α} (ha : a ∈ l) (hp : p a = true)
    (hunique : ∀ b ∈ l, p b = true → b = a) : l.find? p = some a := by
  cases hfind : l.find? p with
  | none => exact absurd hp (List.find?_eq_none.mp hfind a ha)
  | some b => rw [hunique b (List.mem_of_find?_eq_some hfind) (List.find?_some hfind)]

theorem mem_tail_iff {α : Type} {l : List α} {a : α} : a ∈ l.tail ↔ ∃ i, 1 ≤ i ∧ l[i]? = some a := by
  rw [List.mem_iff_getElem?]
  simp only [List.getElem?_tail]
  constructor
  · rintro ⟨i, hi⟩
    exact ⟨i + 1, Nat.le_add_left _ _, hi⟩
  · rintro ⟨i, hpos, hi⟩
    obtain ⟨k, rfl⟩ := Nat.exists_eq_add_of_le' hpos
    exact ⟨k, hi⟩

/-- A call as it is read back. -/
def shown (f : ProfileFrame) : ProfileFrame := { f with functionName := named f.functionName }

section Walk

variable {p : CpuProfile} {seen : Set ProfileFrame} {nodes : List Node} {i j : Nat} {n m : Node} {k : Str}

theorem nodeMap_eq (h : Tree seen nodes) (hp : p.nodes = nodes.tail) (hpos : 1 ≤ j) (hm : nodes[j]? = some m) :
    p.nodeMap j = some m := by
  have hmem : m ∈ p.nodes.reverse := by
    rw [List.mem_reverse, hp, mem_tail_iff]
    exact ⟨j, hpos, hm⟩
  refine find?_of_unique hmem (decide_eq_true (h.ids j m hm)) fun m' hm' hid => ?_
  rw [List.mem_reverse, hp, mem_tail_iff] at hm'
  obtain ⟨j', -, hj'⟩ := hm'
  obtain rfl : j' = j := (h.ids j' m' hj').symm.trans (of_decide_eq_true hid)
  exact Option.some.inj (hj'.symm.trans hm)

theorem any_child_iff : (n.children.any (·.2 = j)) = true ↔ ∃ k, (k, j) ∈ n.children := by
  rw [List.any_eq_true]
  constructor
  · rintro ⟨⟨k, j'⟩, hmem, hj⟩
    obtain rfl : j' = j := of_decide_eq_true hj
    exact ⟨k, hmem⟩
  · rintro ⟨k, hmem⟩
    exact ⟨(k, j), hmem, decide_eq_true rfl⟩

theorem parentMap_eq (h : Tree seen nodes) (hp : p.nodes = nodes.tail) (hn : nodes[i]? = some n) (hedge : (k, j) ∈ n.children) :
    p.parentMap j = some i := by
  have hpos : 1 ≤ i := (h.edge i n k j hn hedge).1
  have hmem : n ∈ p.nodes.reverse := by
    rw [List.mem_reverse, hp, mem_tail_iff]
    exact ⟨i, hpos, hn⟩
  have hfind : (p.nodes.reverse.find? fun n => n.children.any (·.2 = j)) = some n := by
    refine find?_of_unique hmem (any_child_iff.mpr ⟨k, hedge⟩) fun n' hn' hany => ?_
    rw [List.mem_reverse, hp, mem_tail_iff] at hn'
    obtain ⟨i', -, hi'⟩ := hn'
    obtain ⟨k', hedge'⟩ := any_child_iff.mp hany
    obtain rfl := h.parent i' i n' n k' k j hi' hn hedge' hedge
    exact Option.some.inj (hi'.symm.trans hn)
  rw [CpuProfile.parentMap, hfind, Option.map_some, h.ids i n hn]

theorem parentMap_root (h : Tree seen nodes) (hp : p.nodes = nodes.tail) : p.parentMap 1 = none := by
  rw [CpuProfile.parentMap, Option.map_eq_none_iff, List.find?_eq_none]
  intro n hn hany
  rw [List.mem_reverse, hp, mem_tail_iff] at hn
  obtain ⟨i, -, hi⟩ := hn
  obtain ⟨k, hedge⟩ := any_child_iff.mp hany
  obtain ⟨hpos, hlt, -⟩ := h.edge i n k 1 hi hedge
  omega

/-- Walking up reads what a node spells, to the root if the walk is long enough. -/
theorem walkUp_eq (h : Tree seen nodes) (hp : p.nodes = nodes.tail) {frames : List ProfileFrame} (hs : Spells nodes j frames)
    (left : Nat) : p.walkUp left j = (frames.map shown ++ [rootFrame]).take left := by
  induction hs generalizing left with
  | root =>
      cases left with
      | zero => rfl
      | succ left =>
          obtain ⟨n, hn, hframe⟩ := h.root
          rw [CpuProfile.walkUp, nodeMap_eq h hp (Nat.le_refl _) hn, parentMap_root h hp]
          simp [hframe, cpuFrame, rootFrame, named]
  | @child i j n m f frames above hn hedge hm hframe ih =>
      cases left with
      | zero => rfl
      | succ left =>
          obtain ⟨hpos, hlt, -⟩ := h.edge i n _ j hn hedge
          rw [CpuProfile.walkUp, nodeMap_eq h hp (hpos.trans hlt.le) hm, parentMap_eq h hp hn hedge]
          simp only [hframe, cpuFrame]
          rw [if_pos ⟨(Nat.lt_of_lt_of_le Nat.zero_lt_one hpos).ne', hlt.ne⟩, ih]
          rfl

/-! ## Reading back -/

/-- A sample as it is read back, in a profile that begins at `base`. -/
def reloaded (base : Nat) (s : ProfileSample) : ProfileSample :=
  ⟨s.timestampMs - base, (s.frames.map shown ++ [rootFrame]).take 65, none⟩

theorem rebuildFrom_samples (h : Tree seen nodes) (hp : p.nodes = nodes.tail) {ids : List Nat} {samples : List ProfileSample}
    (hspelled : List.Forall₂ (fun id (s : ProfileSample) => Spells nodes id s.frames) ids samples) {base : Nat} (i ts : Nat)
    (state : ProfilerState) (hdeltas : p.timeDeltas.drop i = deltas (base + ts) samples)
    (hmono : ((base + ts) :: samples.map ProfileSample.timestampMs).Pairwise (· ≤ ·)) :
    (p.rebuildFrom i ts state ids).samples = state.samples ++ samples.map (reloaded base) := by
  induction hspelled generalizing i ts state with
  | nil => simp [CpuProfile.rebuildFrom]
  | @cons id s ids samples hs hrest ih =>
      rw [deltas] at hdeltas
      have hlater : base + ts ≤ s.timestampMs := List.rel_of_pairwise_cons hmono List.mem_cons_self
      have hdelta : p.timeDeltas[i]?.getD 10000 / 1000 = s.timestampMs - (base + ts) := by
        have hget := congrArg List.head? hdeltas
        rw [List.head?_drop, List.head?_cons] at hget
        rw [hget, Option.getD_some, Nat.mul_div_cancel _ (by decide)]
      have hnext : base + (ts + (s.timestampMs - (base + ts))) = s.timestampMs := by omega
      have htail : p.timeDeltas.drop (i + 1) = deltas (base + (ts + (s.timestampMs - (base + ts)))) samples := by
        rw [hnext, ← List.drop_drop, hdeltas]
        rfl
      have hmono' : ((base + (ts + (s.timestampMs - (base + ts)))) :: samples.map ProfileSample.timestampMs).Pairwise (· ≤ ·) := by
        rw [hnext]
        exact hmono.of_cons
      rw [CpuProfile.rebuildFrom]
      simp only [hdelta]
      rw [ih (i + 1) _ _ htail hmono', walkUp_eq h hp hs]
      have hts : ts + (s.timestampMs - (base + ts)) = s.timestampMs - base := by omega
      simp [ProfilerState.push, reloaded, hts]

/-- Whatever the times are, the calls are read back. -/
theorem rebuildFrom_frames (h : Tree seen nodes) (hp : p.nodes = nodes.tail) {ids : List Nat} {samples : List ProfileSample}
    (hspelled : List.Forall₂ (fun id (s : ProfileSample) => Spells nodes id s.frames) ids samples) (i ts : Nat)
    (state : ProfilerState) : (p.rebuildFrom i ts state ids).samples.map ProfileSample.frames =
      state.samples.map ProfileSample.frames ++ samples.map fun s => (s.frames.map shown ++ [rootFrame]).take 65 := by
  induction hspelled generalizing i ts state with
  | nil => simp [CpuProfile.rebuildFrom]
  | cons hs hrest ih =>
      rw [CpuProfile.rebuildFrom, ih, walkUp_eq h hp hs]
      simp [ProfilerState.push]

end Walk

/-! ## Keys -/

theorem bar_not_mem_signed (n : Int) : '|' ∉ signed n := by
  have hdigits : '|' ∉ decimal n.natAbs := not_mem_digits (fun _ => decimal_isDigit) (by decide)
  unfold signed
  split
  · simp [hdigits]
  · exact hdigits

theorem signed_inj {a b : Int} (h : signed a = signed b) : a = b := by
  have hdecimal : ∀ {m n : Nat}, decimal m = decimal n → m = n := by
    intro m n h
    have hvalue := congrArg (Nat.ofDigitChars 10 · 0) h
    simpa [decimal, Nat.ofDigitChars_ten_toDigits] using hvalue
  have hminus : ∀ m : Nat, '-' ∉ decimal m := fun m => not_mem_digits (fun _ => decimal_isDigit) (by decide)
  unfold signed at h
  split at h <;> split at h
  · have hnat := hdecimal (List.cons.inj h).2
    omega
  · exact (hminus b.natAbs (h ▸ List.mem_cons_self)).elim
  · exact (hminus a.natAbs (h ▸ List.mem_cons_self)).elim
  · have hnat := hdecimal h
    omega

/-- Calls are told apart if no name and no url has a bar. -/
theorem distinct_of_bars {seen : Set ProfileFrame} (h : ∀ f ∈ seen, '|' ∉ f.functionName ∧ '|' ∉ f.url) : Distinct seen := by
  have hcut : ∀ {a b s t : Str}, '|' ∉ a → '|' ∉ b → a ++ '|' :: s = b ++ '|' :: t → a = b ∧ s = t := by
    intro a b s t ha hb heq
    have hsplit := splitOnce_append (b := s) ha
    rw [heq, splitOnce_append hb, Option.some.injEq, Prod.mk.injEq] at hsplit
    exact ⟨hsplit.1.symm, hsplit.2.symm⟩
  intro f hf g hg hkey
  simp only [frameKey, List.append_assoc, List.cons_append] at hkey
  obtain ⟨hname, hkey⟩ := hcut (h f hf).1 (h g hg).1 hkey
  obtain ⟨hurl, hkey⟩ := hcut (h f hf).2 (h g hg).2 hkey
  obtain ⟨hline, hcolumn⟩ := hcut (bar_not_mem_signed _) (bar_not_mem_signed _) hkey
  cases f
  cases g
  simp only [ProfileFrame.mk.injEq]
  exact ⟨hname, hurl, signed_inj hline, signed_inj hcolumn⟩

/-! ## Samples that are pushed -/

structure Push where
  timestampMs : Nat
  stackStr : Str
  label : Option Str

def pushAll (pushes : List Push) : ProfilerState :=
  pushes.foldl (fun state p => state.pushRaw p.timestampMs p.stackStr p.label) .new

def Push.sample (p : Push) : ProfileSample := ⟨p.timestampMs, parseV8Stack p.stackStr, p.label⟩

/-- The samples are those that were pushed, and the profile begins with the first of them, if that is not at time zero. -/
theorem pushAll_spec (pushes : List Push) : (pushAll pushes).samples = pushes.map Push.sample ∧
    ∀ p ∈ pushes.head?, (pushAll pushes).startTimeMs = p.timestampMs ∨ p.timestampMs = 0 := by
  induction pushes using List.reverseRecOn with
  | nil => exact ⟨rfl, fun _ h => by cases h⟩
  | append_singleton pushes p ih =>
      have hpush : pushAll (pushes ++ [p]) = (pushAll pushes).pushRaw p.timestampMs p.stackStr p.label := by
        simp [pushAll]
      obtain ⟨hsamples, hstart⟩ := ih
      refine ⟨by rw [hpush, ProfilerState.pushRaw, ProfilerState.push, hsamples, List.map_append]; rfl, fun q hq => ?_⟩
      rw [hpush]
      show (if (pushAll pushes).startTimeMs = 0 then p.timestampMs else (pushAll pushes).startTimeMs) = _ ∨ _
      cases pushes with
      | nil =>
          obtain rfl : p = q := by simpa using hq
          exact .inl rfl
      | cons first pushes =>
          obtain rfl : first = q := by simpa using hq
          rcases hstart first rfl with h | h
          · by_cases hzero : first.timestampMs = 0
            · exact .inr hzero
            · exact .inl (by rw [if_neg (h ▸ hzero), h])
          · exact .inr h

/-! ## Folding -/

theorem named_named (name : Str) : named (named name) = named name := by
  unfold named
  split
  · rfl
  · rfl

theorem foldedFrame_shown (f : ProfileFrame) : foldedFrame (shown f) = foldedFrame f := by
  simp only [foldedFrame, shown, named_named]

theorem foldedStack_reloaded {frames : List ProfileFrame} (hne : frames ≠ []) :
    foldedStack (frames.map shown ++ [rootFrame]) = "(root);".toList ++ foldedStack frames := by
  have hroot : foldedFrame rootFrame = "(root)".toList := rfl
  have hmap : (frames.map shown).reverse.map foldedFrame = frames.reverse.map foldedFrame := by
    rw [← List.map_reverse, List.map_map]
    exact List.map_congr_left fun f _ => foldedFrame_shown f
  rw [foldedStack, List.reverse_append, List.reverse_singleton, List.singleton_append, List.map_cons, hmap, hroot,
    List.intercalate_cons_of_ne_nil (by simpa using hne)]
  rfl

/-- The lines for some folded stacks. -/
def foldedLines (folded : List Str) : List Str :=
  (folded.dedup.map fun stack => stack ++ ' ' :: decimal (folded.count stack)).insertionSort (· ≤ ·)

theorem append_strictMono (pre : Str) : StrictMono fun s : Str => pre ++ s := by
  intro s t h
  induction pre with
  | nil => exact h
  | cons c pre ih => exact .cons ih

/-- What all stacks begin with, all lines begin with. -/
theorem foldedLines_map (pre : Str) (folded : List Str) :
    foldedLines (folded.map (pre ++ ·)) = (foldedLines folded).map (pre ++ ·) := by
  have hinj : Function.Injective fun s : Str => pre ++ s := List.append_right_injective pre
  rw [foldedLines, foldedLines, List.map_insertionSort (· ≤ ·) (· ≤ ·) _ _
    (fun a _ b _ => (append_strictMono pre).le_iff_le.symm), List.dedup_map_of_injective hinj, List.map_map, List.map_map]
  congr 1
  refine List.map_congr_left fun s _ => ?_
  have hcount := List.count_map_of_injective folded (fun s : Str => pre ++ s) hinj s
  simp only [Function.comp_apply, List.append_assoc]
  rw [hcount]

/-! ## Lines of a stack -/

/-- A line for a call, as the engine writes it. -/
def written (f : ProfileFrame) : Str :=
  "at ".toList ++ ((if f.functionName = [] then "<anonymous>".toList else f.functionName) ++ ' ' :: '(' ::
    ((f.url ++ ':' :: signed f.lineNumber ++ ':' :: signed f.columnNumber) ++ [')']))

def IsI32 (n : Int) : Prop := -2147483648 ≤ n ∧ n ≤ 2147483647

/-- A call of which a line can be written. -/
structure Writable (f : ProfileFrame) : Prop where
  name : f.functionName ≠ [] → Tight isWhitespace f.functionName ∧ f.functionName ≠ "<anonymous>".toList ∧
    f.functionName.getLast? ≠ some '<' ∧ '\n' ∉ f.functionName
  url : '(' ∉ f.url ∧ '\n' ∉ f.url
  line : IsI32 f.lineNumber
  column : IsI32 f.columnNumber

theorem signed_ne_nil (n : Int) : signed n ≠ [] := by
  unfold signed
  split
  · simp
  · exact Nat.toDigits_ne_nil

theorem not_mem_signed {c : Char} (hminus : c ≠ '-') (hdigit : c.isDigit = false) (n : Int) : c ∉ signed n := by
  have hdecimal : c ∉ decimal n.natAbs := not_mem_digits (fun _ => decimal_isDigit) hdigit
  unfold signed
  split
  · simp [hminus, hdecimal]
  · exact hdecimal

theorem parseI32_signed {n : Int} (h : IsI32 n) : parseI32 (signed n) = some n := by
  obtain ⟨hlow, hhigh⟩ := h
  unfold signed
  split
  · rename_i hneg
    have hne : decimal n.natAbs ≠ [] := Nat.toDigits_ne_nil
    have hvalue : digitsValue 10 0 (decimal n.natAbs) = some n.natAbs := by
      rw [digitsValue_ten (fun _ => decimal_isDigit)]
      simp [decimal, Nat.ofDigitChars_ten_toDigits]
    rw [parseI32, if_neg hne, hvalue, Option.filter_some, if_pos (decide_eq_true (by omega)), Option.map_some]
    exact congrArg some (by simp only [Int.ofNat_eq_natCast]; omega)
  · rename_i hpos
    have hmatch : parseI32 (decimal n.natAbs) = (parseUnsigned 10 2147483647 (decimal n.natAbs)).map Int.ofNat := by
      unfold parseI32
      split
      · rename_i ds hds
        have hmem : '-' ∈ decimal n.natAbs := hds ▸ List.mem_cons_self
        exact absurd (decimal_isDigit hmem) (by decide)
      · rfl
    rw [hmatch, parseUnsigned_decimal (by omega), Option.map_some]
    exact congrArg some (by simp; omega)

theorem parseLocation_written {url : Str} {line column : Int} (hline : IsI32 line) (hcolumn : IsI32 column) :
    parseLocation (url ++ ':' :: signed line ++ ':' :: signed column) = (url, line, column) := by
  rw [parseLocation, rsplitOnce_append (not_mem_signed (by decide) (by decide) column)]
  simp only
  rw [rsplitOnce_append (not_mem_signed (by decide) (by decide) line)]
  simp [parseI32_signed hline, parseI32_signed hcolumn]

theorem trimEndMatches_of_last {c : Char} {s : Str} (h : s.getLast? ≠ some c) : trimEndMatches c s = s :=
  rdropWhile_of_last fun _ hd => decide_eq_false fun heq => h (heq ▸ hd)

theorem getLast?_written (f : ProfileFrame) : (written f).getLast? = some ')' := by
  have hconcat : written f = ("at ".toList ++ ((if f.functionName = [] then "<anonymous>".toList else f.functionName) ++
      ' ' :: '(' :: (f.url ++ ':' :: signed f.lineNumber ++ ':' :: signed f.columnNumber))) ++ [')'] := by
    simp only [written, List.append_assoc, List.cons_append]
  rw [hconcat, List.getLast?_concat]

theorem newline_not_mem_written {f : ProfileFrame} (h : Writable f) : '\n' ∉ written f := by
  have hline := not_mem_signed (c := '\n') (by decide) (by decide) f.lineNumber
  have hcolumn := not_mem_signed (c := '\n') (by decide) (by decide) f.columnNumber
  have hname : '\n' ∉ (if f.functionName = [] then "<anonymous>".toList else f.functionName) := by
    split
    · decide
    · rename_i hne
      exact (h.name hne).2.2.2
  simp only [written, List.mem_append, List.mem_cons, List.not_mem_nil, or_false, not_or]
  exact ⟨by decide, hname, by decide, by decide, ⟨⟨h.url.2, by decide, hline⟩, by decide, hcolumn⟩, by decide⟩

theorem parseLine_written {f : ProfileFrame} (h : Writable f) (n : Nat) : parseLine (indented n (written f)) = some f := by
  have htight : Tight isWhitespace (written f) := by
    refine ⟨List.append_ne_nil_of_left_ne_nil (by decide) _, ?_, ?_⟩
    · intro c hc
      obtain rfl : 'a' = c := Option.some.inj hc
      decide
    · intro c hc
      rw [getLast?_written] at hc
      obtain rfl := Option.some.inj hc
      decide
  -- the name, and what the trimming leaves of it
  generalize hname : (if f.functionName = [] then "<anonymous>".toList else f.functionName) = name
  have hclean : trim name = name ∧ trimEndMatches '<' name = name ∧
      (if name = "<anonymous>".toList then [] else name) = f.functionName := by
    subst hname
    by_cases hnil : f.functionName = []
    · rw [if_pos hnil, hnil]
      decide
    · obtain ⟨htrim, hplain, hangle, -⟩ := h.name hnil
      rw [if_neg hnil, if_neg hplain]
      exact ⟨htrim.trim_eq, trimEndMatches_of_last hangle, rfl⟩
  obtain ⟨htrim, hangle, hback⟩ := hclean
  have hlocation : '(' ∉ (f.url ++ ':' :: signed f.lineNumber ++ ':' :: signed f.columnNumber) ++ [')'] := by
    have hline := not_mem_signed (c := '(') (by decide) (by decide) f.lineNumber
    have hcolumn := not_mem_signed (c := '(') (by decide) (by decide) f.columnNumber
    simp [h.url.1, hline, hcolumn]
  have hlast : (f.url ++ ':' :: signed f.lineNumber ++ ':' :: signed f.columnNumber).getLast? ≠ some ')' := by
    rw [List.getLast?_append_cons]
    intro hc
    have hmem : ')' ∈ ':' :: signed f.columnNumber := List.mem_of_getLast? hc
    have hcolumn := not_mem_signed (c := ')') (by decide) (by decide) f.columnNumber
    simp [hcolumn] at hmem
  have hrest : stripPrefix "at ".toList (written f) = some (name ++ ' ' :: '(' ::
      ((f.url ++ ':' :: signed f.lineNumber ++ ':' :: signed f.columnNumber) ++ [')'])) := by
    rw [written, hname]
    exact stripPrefix_eq_some.mpr rfl
  have hsplit : rsplitOnce '(' (name ++ ' ' :: '(' ::
      ((f.url ++ ':' :: signed f.lineNumber ++ ':' :: signed f.columnNumber) ++ [')'])) =
      some (name ++ [' '], (f.url ++ ':' :: signed f.lineNumber ++ ':' :: signed f.columnNumber) ++ [')']) := by
    rw [List.append_cons]
    exact rsplitOnce_append hlocation
  rw [parseLine, trim_indented n htight, hrest, Option.map_some]
  simp only [hsplit]
  have hparen : trimEndMatches ')' ((f.url ++ ':' :: signed f.lineNumber ++ ':' :: signed f.columnNumber) ++ [')']) =
      f.url ++ ':' :: signed f.lineNumber ++ ':' :: signed f.columnNumber := by
    rw [trimEndMatches, List.rdropWhile_concat_pos _ _ _ (by simp)]
    exact trimEndMatches_of_last hlast
  rw [hparen, parseLocation_written h.line h.column, trim_concat name (by decide), htrim, hangle, htrim, hback]

end ThreeVa.Js.Profiler
