import Mathlib.Data.List.Lattice
import Mathlib.Data.List.Pairwise
import ThreeVa.Bundler.Splitter

/-! The walk of the splitter as a depth-first search over imports of imports, and the chunks it makes. -/

namespace ThreeVa.Bundler
open Text DepthFirst

/-! ## The walk -/

section Walk

variable {deps : Deps}

def chunkOf (deps : Deps) (entry : Str) : Chunk := ⟨entry, entry :: imports deps entry, imports deps entry⟩

/-- A splitter that held some chunks, at a state of the search. -/
def splittingAt (deps : Deps) (chunks : List Chunk) (t : Search Str) : Splitting :=
  ⟨chunks ++ t.left.map (chunkOf deps), t.entered⟩

def splitUnvisited (deps : Deps) (fuel : Nat) (s : Splitting) (entry : Str) : Option Splitting :=
  if entry ∈ s.visited then some s else splitEntry deps fuel entry s

theorem foldlM_splitUnvisited {chunks : List Chunk} {fuel : Nat}
    (h : ∀ entry t, splitUnvisited deps fuel (splittingAt deps chunks t) entry =
      (visit (twice (imports deps)) fuel entry t).map (splittingAt deps chunks)) (l : List Str) (t : Search Str) :
    l.foldlM (splitUnvisited deps fuel) (splittingAt deps chunks t) =
      (l.foldlM (fun t b => visit (twice (imports deps)) fuel b t) t).map (splittingAt deps chunks) := by
  induction l generalizing t with
  | nil => rfl
  | cons b l ih =>
      rw [List.foldlM_cons, List.foldlM_cons, h]
      cases visit (twice (imports deps)) fuel b t with
      | none => rfl
      | some t' => exact ih t'

/-- The loop over the imports of an entry fills its chunk and visits the imports of these. -/
theorem foldlM_entry {chunks : List Chunk} {fuel : Nat}
    (h : ∀ entry t, splitUnvisited deps fuel (splittingAt deps chunks t) entry =
      (visit (twice (imports deps)) fuel entry t).map (splittingAt deps chunks)) (l : List Str) (chunk : Chunk)
    (t : Search Str) :
    l.foldlM (fun (x : Chunk × Splitting) dep => do
        let s ← (imports deps dep).foldlM (splitUnvisited deps fuel) x.2
        return ({ x.1.addModule dep with deps := x.1.deps ++ [dep] }, s)) (chunk, splittingAt deps chunks t) =
      ((l.flatMap (imports deps)).foldlM (fun t b => visit (twice (imports deps)) fuel b t) t).map fun t =>
        (⟨chunk.name, chunk.modules ++ l, chunk.deps ++ l⟩, splittingAt deps chunks t) := by
  induction l generalizing chunk t with
  | nil => simp
  | cons dep l ih =>
      rw [List.foldlM_cons, List.flatMap_cons, List.foldlM_append, foldlM_splitUnvisited h]
      cases (imports deps dep).foldlM (fun t b => visit (twice (imports deps)) fuel b t) t with
      | none => rfl
      | some t' =>
          have hrest := ih { chunk.addModule dep with deps := chunk.deps ++ [dep] } t'
          simpa [Chunk.addModule] using hrest

theorem splitUnvisited_eq (deps : Deps) (chunks : List Chunk) (fuel : Nat) (entry : Str) (t : Search Str) :
    splitUnvisited deps fuel (splittingAt deps chunks t) entry =
      (visit (twice (imports deps)) fuel entry t).map (splittingAt deps chunks) := by
  induction fuel generalizing entry t with
  | zero =>
      unfold splitUnvisited visit
      by_cases hin : entry ∈ t.entered
      · rw [if_pos hin, if_pos (show entry ∈ (splittingAt deps chunks t).visited from hin)]
        rfl
      · rw [if_neg hin, if_neg (show entry ∉ (splittingAt deps chunks t).visited from hin)]
        rfl
  | succ fuel ih =>
      unfold splitUnvisited visit
      by_cases hin : entry ∈ t.entered
      · rw [if_pos hin, if_pos (show entry ∈ (splittingAt deps chunks t).visited from hin)]
        rfl
      · have hout : entry ∉ (splittingAt deps chunks t).visited := hin
        have hfold := foldlM_entry ih (imports deps entry) ((Chunk.new entry).addModule entry)
          ⟨entry :: t.entered, t.left⟩
        rw [if_neg hin, if_neg hout, splitEntry, if_neg hout]
        refine (congrArg (fun o => o.bind fun x : Chunk × Splitting =>
          some { x.2 with chunks := x.2.chunks ++ [x.1] }) hfold).trans ?_
        change _ = Option.map _ (Option.bind ((imports deps entry).flatMap (imports deps) |>.foldlM _ _) _)
        cases ((imports deps entry).flatMap (imports deps)).foldlM
            (fun t b => visit (twice (imports deps)) fuel b t) ⟨entry :: t.entered, t.left⟩ with
        | none => rfl
        | some t' => simp [splittingAt, chunkOf, Chunk.new, Chunk.addModule]

theorem imports_eq_nil {m : Str} (h : m ∉ deps.list.map Prod.fst) : imports deps m = [] := by
  have hnone : deps.list.find? (·.1 = m) = none := by
    rw [List.find?_eq_none]
    intro x hx heq
    exact h (List.mem_map.mpr ⟨x, hx, by simpa using heq⟩)
  rw [imports, getDeps, hnone]
  rfl

/-- The chunks of a new splitter: one for each module that imports of imports lead to, in the order the walk leaves them. -/
theorem split_spec (deps : Deps) (entryPoints : List Str) :
    ∃ order : List Str, split [] entryPoints deps = some (order.map (chunkOf deps)) ∧ order.Nodup ∧
      (∀ m, m ∈ order ↔ EvenFrom (imports deps) entryPoints m) ∧ PostOrdered (twice (imports deps)) [] order := by
  have hinner : ∀ a, twice (imports deps) a ≠ [] → a ∈ deps.list.map Prod.fst := by
    intro a hne
    by_contra hout
    rw [twice, imports_eq_nil hout] at hne
    exact hne rfl
  obtain ⟨t, ht⟩ := exists_visitAll hinner (show _ < deps.list.length + 1 by simp) entryPoints
  obtain ⟨hnodup, hmem, horder⟩ := visitAll_spec ht
  refine ⟨t.left, ?_, hnodup, hmem, horder⟩
  have hfold := foldlM_splitUnvisited (splitUnvisited_eq deps [] (deps.list.length + 1)) entryPoints ⟨[], []⟩
  rw [visitAll] at ht
  rw [ht] at hfold
  unfold split
  refine (congrArg (Option.map Splitting.chunks) hfold).trans ?_
  simp [splittingAt]

end Walk

/-! ## Even and odd numbers of imports -/

section Parity

variable {α : Type} {imports : α → List α} {roots : List α} {a b m : α}

theorem reach_of_twice (h : Reach (twice imports) a b) : Reach imports a b := by
  induction h with
  | refl => exact .refl
  | tail _ hstep ih =>
      obtain ⟨d, hd, hc⟩ := List.mem_flatMap.mp hstep
      exact (ih.tail hd).tail hc

theorem EvenFrom.step (h : EvenFrom imports roots a) (hab : b ∈ twice imports a) : EvenFrom imports roots b := by
  obtain ⟨r, hr, hreach⟩ := h
  exact ⟨r, hr, hreach.tail hab⟩

theorem EvenFrom.reach (h : EvenFrom imports roots a) (hab : Reach (twice imports) a b) : EvenFrom imports roots b := by
  obtain ⟨r, hr, hreach⟩ := h
  exact ⟨r, hr, hreach.trans hab⟩

/-- A module that the roots lead to is an even number of imports away, or is imported by one that is. -/
theorem reach_iff_parity :
    (∃ r ∈ roots, Reach imports r m) ↔ EvenFrom imports roots m ∨ ∃ a, EvenFrom imports roots a ∧ m ∈ imports a := by
  constructor
  · rintro ⟨r, hr, hreach⟩
    induction hreach with
    | refl => exact Or.inl ⟨r, hr, .refl⟩
    | tail _ hstep ih =>
        rcases ih with heven | ⟨a, heven, hodd⟩
        · exact Or.inr ⟨_, heven, hstep⟩
        · exact Or.inl (heven.step (List.mem_flatMap.mpr ⟨_, hodd, hstep⟩))
  · rintro (⟨r, hr, hreach⟩ | ⟨a, ⟨r, hr, hreach⟩, hm⟩)
    · exact ⟨r, hr, reach_of_twice hreach⟩
    · exact ⟨r, hr, (reach_of_twice hreach).tail hm⟩

end Parity

/-! ## Partitions -/

section Partitions

variable {α : Type} {imports : α → List α} {roots order : List α}

/-- Lists of a list without repetition are joined without one exactly where each has none and no two share. -/
theorem nodup_flatMap_iff {f : α → List α} (hnodup : order.Nodup) :
    (order.flatMap f).Nodup ↔ (∀ a ∈ order, (f a).Nodup) ∧ ∀ a ∈ order, ∀ b ∈ order, a ≠ b → (f a).Disjoint (f b) := by
  rw [List.nodup_flatMap]
  have hsymm : Std.Symm (Function.onFun List.Disjoint f) := ⟨fun _ _ h => List.disjoint_symm h⟩
  refine and_congr_right fun _ => ⟨fun hpair a ha b hb hne => hpair.forall ha hb hne, fun h => ?_⟩
  exact hnodup.pairwise_of_forall_ne h

/-- The chunks made of the modules of a walk, each with its imports. -/
def chunksOf (imports : α → List α) (order : List α) : List (List α) := order.map fun a => a :: imports a

theorem mem_flatten_chunksOf {m : α} :
    m ∈ (chunksOf imports order).flatten ↔ m ∈ order ∨ ∃ a ∈ order, m ∈ imports a := by
  simp only [chunksOf, List.mem_flatten, List.mem_map]
  constructor
  · rintro ⟨-, ⟨a, ha, rfl⟩, hm⟩
    rcases List.mem_cons.mp hm with rfl | hm
    · exact Or.inl ha
    · exact Or.inr ⟨a, ha, hm⟩
  · rintro (hm | ⟨a, ha, hm⟩)
    · exact ⟨_, ⟨m, hm, rfl⟩, List.mem_cons_self⟩
    · exact ⟨_, ⟨a, ha, rfl⟩, List.mem_cons_of_mem _ hm⟩

theorem once_chunksOf_iff (hnodup : order.Nodup) (hmem : ∀ m, m ∈ order ↔ EvenFrom imports roots m) :
    (chunksOf imports order).flatten.Nodup ↔
      (∀ a b, EvenFrom imports roots a → EvenFrom imports roots b → b ∉ imports a) ∧
      (∀ a, EvenFrom imports roots a → (imports a).Nodup) ∧
      ∀ a b, EvenFrom imports roots a → EvenFrom imports roots b → a ≠ b → (imports a).Disjoint (imports b) := by
  rw [chunksOf, ← List.flatMap_def, nodup_flatMap_iff hnodup]
  simp only [hmem]
  constructor
  · rintro ⟨heach, hpair⟩
    refine ⟨fun a b ha hb hab => ?_, fun a ha => (List.nodup_cons.mp (heach a ha)).2, fun a b ha hb hne x hxa hxb => ?_⟩
    · by_cases heq : a = b
      · subst heq
        exact (List.nodup_cons.mp (heach a ha)).1 hab
      · exact hpair a ha b hb heq (List.mem_cons_of_mem _ hab) List.mem_cons_self
    · exact hpair a ha b hb hne (List.mem_cons_of_mem _ hxa) (List.mem_cons_of_mem _ hxb)
  · rintro ⟨hparity, heach, hdisjoint⟩
    refine ⟨fun a ha => List.nodup_cons.mpr ⟨hparity a a ha ha, heach a ha⟩, fun a ha b hb hne x hxa hxb => ?_⟩
    rcases List.mem_cons.mp hxa with rfl | hxa
    · rcases List.mem_cons.mp hxb with rfl | hxb
      · exact hne rfl
      · exact hparity b x hb ha hxb
    · rcases List.mem_cons.mp hxb with rfl | hxb
      · exact hparity a x ha hb hxa
      · exact hdisjoint a b ha hb hne hxa hxb

/-- Chunks that load what they import put an end of two imports no later than their start. -/
theorem idxOf_le_of_reach [DecidableEq α] {a b : α} (hmem : ∀ m, m ∈ order ↔ EvenFrom imports roots m)
    (hparity : ∀ a b, EvenFrom imports roots a → EvenFrom imports roots b → b ∉ imports a)
    (hpart : Partitions imports roots (chunksOf imports order)) (ha : EvenFrom imports roots a)
    (hreach : Reach (twice imports) a b) : order.idxOf b ≤ order.idxOf a := by
  induction hreach with
  | refl => exact le_rfl
  | @tail b c hab hstep ih =>
      refine le_trans ?_ ih
      have hb := ha.reach hab
      obtain ⟨l₁, l₂, heq, hnot⟩ := List.eq_append_cons_of_mem ((hmem b).mpr hb)
      obtain ⟨d, hd, hc⟩ := List.mem_flatMap.mp hstep
      have hchunks : chunksOf imports order = l₁.map (fun a => a :: imports a) ++ (b :: imports b) ::
          l₂.map fun a => a :: imports a := by rw [chunksOf, heq]; simp
      have hc_even := hb.step hstep
      rcases hpart.loaded _ _ _ hchunks d (List.mem_cons_of_mem _ hd) c hc with hbefore | hhere
      · rcases mem_flatten_chunksOf.mp hbefore with hc₁ | ⟨a', ha', hodd⟩
        · rw [heq, List.idxOf_append_of_mem hc₁, List.idxOf_append_of_notMem hnot]
          exact le_trans (List.idxOf_lt_length_of_mem hc₁).le (Nat.le_add_right _ _)
        · have ha'_even : EvenFrom imports roots a' := (hmem a').mp (by rw [heq]; simp [ha'])
          exact absurd hodd (hparity a' c ha'_even hc_even)
      · rcases List.mem_cons.mp hhere with rfl | hodd
        · exact le_rfl
        · exact absurd hodd (hparity b c hb hc_even)

/-- The chunks of a walk over imports of imports partition the graph exactly where it can be split. -/
theorem partitions_chunksOf_iff [DecidableEq α] (hnodup : order.Nodup) (hmem : ∀ m, m ∈ order ↔ EvenFrom imports roots m)
    (horder : PostOrdered (twice imports) [] order) :
    Partitions imports roots (chunksOf imports order) ↔ Splittable imports roots := by
  constructor
  · intro hpart
    obtain ⟨hparity, heach, hdisjoint⟩ := (once_chunksOf_iff hnodup hmem).mp hpart.once
    refine ⟨hparity, heach, hdisjoint, fun a b ha hab hba => ?_⟩
    have hb := ha.reach hab
    have hle := idxOf_le_of_reach hmem hparity hpart ha hab
    have hge := idxOf_le_of_reach hmem hparity hpart hb hba
    exact (List.idxOf_inj ((hmem a).mpr ha)).mp (le_antisymm hge hle)
  · rintro ⟨hparity, heach, hdisjoint, hacyclic⟩
    refine ⟨(once_chunksOf_iff hnodup hmem).mpr ⟨hparity, heach, hdisjoint⟩, fun m => ?_, ?_⟩
    · rw [mem_flatten_chunksOf, reach_iff_parity]
      simp only [hmem]
    · intro before chunk after heq m hm d hd
      obtain ⟨l₁, l₂', rfl, rfl, hrest⟩ := List.map_eq_append_iff.mp heq
      obtain ⟨a, l₂, rfl, rfl, rfl⟩ := List.map_eq_cons_iff.mp hrest
      rcases List.mem_cons.mp hm with rfl | hm
      · exact Or.inr (List.mem_cons_of_mem _ hd)
      · have hstep : d ∈ twice imports a := List.mem_flatMap.mpr ⟨m, hm, hd⟩
        have ha : EvenFrom imports roots a := (hmem a).mp (by simp)
        rcases horder.at hstep with hbefore | hback
        · exact Or.inl (mem_flatten_chunksOf.mpr (Or.inl (by simpa using hbefore)))
        · -- the search stood inside `d` when it left `a`
          rw [hacyclic a d ha (.single hstep) hback]
          exact Or.inr List.mem_cons_self

end Partitions

/-! ## Emitted chunks -/

section Emitted

variable {b : Bundler} {format : OutputFormat}

/-- A bundle is the parts of its chunks, one after another. -/
theorem bundleWithSplitting_eq_parts (format : OutputFormat) (b : Bundler) :
    bundleWithSplitting format b = (split [] b.modules b.moduleDeps).map fun chunks =>
      (chunks.flatMap (chunkParts format b.codeGen)).flatMap Prod.snd := by
  have hchunk : ∀ chunk, (chunkParts format b.codeGen chunk).flatMap Prod.snd = chunkText format b.codeGen chunk := by
    intro chunk
    unfold chunkParts
    split
    · simp
    · rename_i hformat
      have hcode : (chunk.modules.filterMap fun m => (getModule b.codeGen m).map fun code =>
          (some m, code ++ "\n".toList)).flatMap Prod.snd = chunkCode b.codeGen chunk := by
        unfold chunkCode
        induction chunk.modules with
        | nil => rfl
        | cons m ms ih =>
            cases hm : getModule b.codeGen m with
            | none => simpa [hm] using ih
            | some code => simpa [hm] using ih
      rw [chunkText, if_neg hformat, List.cons_append, List.flatMap_cons, List.flatMap_append, hcode]
      simp
  unfold bundleWithSplitting
  cases split [] b.modules b.moduleDeps with
  | none => rfl
  | some chunks =>
      simp only [Option.bind_eq_bind, Option.bind_some, Option.pure_def, Option.map_some, List.flatMap_assoc, hchunk]

theorem getModule_isSome_iff (m : Str) : (getModule b.codeGen m).isSome ↔ m ∈ b.modules := by
  rw [b.code_keys, getModule, Option.isSome_map, List.find?_isSome, List.mem_map]
  simp

theorem writtenModules_esm (codeGen : Modules) (chunk : Chunk) : writtenModules .esm codeGen chunk = [] := rfl

theorem writtenModules_eq (hformat : format ≠ .esm) (chunk : Chunk) :
    writtenModules format b.codeGen chunk = chunk.modules.filter (· ∈ b.modules) := by
  unfold writtenModules chunkParts
  rw [if_neg hformat, List.cons_append, List.filterMap_cons, List.filterMap_append, List.filterMap_filterMap]
  simp only [List.filterMap_cons, List.filterMap_nil, List.append_nil]
  rw [← List.filterMap_eq_filter]
  refine List.filterMap_congr fun m _ => ?_
  have hsome := getModule_isSome_iff (b := b) m
  cases hm : getModule b.codeGen m with
  | none =>
      rw [hm] at hsome
      have hout : m ∉ b.modules := fun hin => by simpa using hsome.mpr hin
      simp [Option.guard, hout]
  | some code =>
      rw [hm] at hsome
      simp [Option.guard, hsome.mp rfl]

theorem reach_modules {a m : Str} (ha : a ∈ b.modules) (h : Reach (knownImports b) a m) : m ∈ b.modules := by
  cases h with
  | refl => exact ha
  | tail _ hstep => simpa using (List.mem_filter.mp hstep).2

/-- Without imports between the modules a chunk holds its entry alone. -/
theorem filter_chunk (hnone : ∀ m ∈ b.modules, ∀ d ∈ imports b.moduleDeps m, d ∉ b.modules) (a : Str) :
    (a :: imports b.moduleDeps a).filter (· ∈ b.modules) = if a ∈ b.modules then [a] else [] := by
  by_cases ha : a ∈ b.modules
  · have hrest : (imports b.moduleDeps a).filter (· ∈ b.modules) = [] := by
      rw [List.filter_eq_nil_iff]
      exact fun d hd => by simpa using hnone a ha d hd
    simp [ha, hrest]
  · rw [imports_eq_nil fun hkey => ha ((b.deps_keys a).mpr hkey)]
    simp [ha]

theorem partitions_of_no_imports (hnone : ∀ m ∈ b.modules, ∀ d ∈ imports b.moduleDeps m, d ∉ b.modules)
    {order : List Str} (hnodup : order.Nodup) (hroots : ∀ m ∈ b.modules, m ∈ order) :
    Partitions (knownImports b) b.modules
      (order.map fun a => (a :: imports b.moduleDeps a).filter (· ∈ b.modules)) := by
  have hflatten : (order.map fun a => (a :: imports b.moduleDeps a).filter (· ∈ b.modules)).flatten =
      order.filter (· ∈ b.modules) := by
    simp only [filter_chunk hnone]
    clear hnodup hroots
    induction order with
    | nil => rfl
    | cons a order ih =>
        rw [List.map_cons, List.flatten_cons, ih, List.filter_cons]
        by_cases ha : a ∈ b.modules <;> simp [ha]
  have hknown : ∀ m ∈ b.modules, knownImports b m = [] := by
    intro m hm
    rw [knownImports, List.filter_eq_nil_iff]
    exact fun d hd => by simpa using hnone m hm d hd
  constructor
  · rw [hflatten]
    exact hnodup.filter _
  · intro m
    rw [hflatten, List.mem_filter, decide_eq_true_eq]
    constructor
    · rintro ⟨-, hm⟩
      exact ⟨m, hm, .refl⟩
    · rintro ⟨a, ha, hreach⟩
      have hm := reach_modules ha hreach
      exact ⟨hroots m hm, hm⟩
  · intro before chunk after heq m hm d hd
    have hchunk : chunk ∈ order.map fun a => (a :: imports b.moduleDeps a).filter (· ∈ b.modules) := by
      rw [heq]
      simp
    obtain ⟨a, -, rfl⟩ := List.mem_map.mp hchunk
    have hmodule : m ∈ b.modules := by simpa using (List.mem_filter.mp hm).2
    rw [hknown m hmodule] at hd
    cases hd

/-- A module of the bundler that another imports is written in both chunks. -/
theorem no_imports_of_once {order : List Str} (hnodup : order.Nodup) (hroots : ∀ m ∈ b.modules, m ∈ order)
    (honce : (order.map fun a => (a :: imports b.moduleDeps a).filter (· ∈ b.modules)).flatten.Nodup) :
    ∀ m ∈ b.modules, ∀ d ∈ imports b.moduleDeps m, d ∉ b.modules := by
  intro m hm d hd hdm
  rw [← List.flatMap_def, nodup_flatMap_iff hnodup] at honce
  obtain ⟨heach, hpair⟩ := honce
  have hin : d ∈ (m :: imports b.moduleDeps m).filter (· ∈ b.modules) :=
    List.mem_filter.mpr ⟨List.mem_cons_of_mem _ hd, by simpa using hdm⟩
  by_cases heq : m = d
  · subst heq
    have hself := heach m (hroots m hm)
    rw [List.filter_cons_of_pos (by simpa using hm), List.nodup_cons] at hself
    exact hself.1 (List.mem_filter.mpr ⟨hd, by simpa using hdm⟩)
  · refine hpair m (hroots m hm) d (hroots d hdm) heq hin ?_
    exact List.mem_filter.mpr ⟨List.mem_cons_self, by simpa using hdm⟩

/-- What is emitted partitions the modules of the bundler exactly where none imports another and the format has code. -/
theorem emitted_partitions_iff (format : OutputFormat) (b : Bundler) :
    (∃ chunks, emitted format b = some chunks ∧ Partitions (knownImports b) b.modules chunks) ↔
      b.modules = [] ∨ format ≠ .esm ∧ ∀ m ∈ b.modules, ∀ d ∈ imports b.moduleDeps m, d ∉ b.modules := by
  obtain ⟨order, hsplit, hnodup, hmem, -⟩ := split_spec b.moduleDeps b.modules
  have hroots : ∀ m ∈ b.modules, m ∈ order := fun m hm => (hmem m).mpr ⟨m, hm, .refl⟩
  have hemitted : emitted format b = some (order.map fun a => writtenModules format b.codeGen (chunkOf b.moduleDeps a)) := by
    rw [emitted, hsplit]
    simp
  have hcode : format ≠ .esm → emitted format b =
      some (order.map fun a => (a :: imports b.moduleDeps a).filter (· ∈ b.modules)) := by
    intro hformat
    rw [hemitted]
    simp only [writtenModules_eq hformat, chunkOf]
  constructor
  · rintro ⟨chunks, hchunks, hpart⟩
    by_cases hformat : format = .esm
    · -- no chunk has code
      subst hformat
      left
      rw [hemitted, Option.some.injEq] at hchunks
      refine List.eq_nil_iff_forall_not_mem.mpr fun m hm => ?_
      have hin := (hpart.covers m).mpr ⟨m, hm, .refl⟩
      rw [← hchunks] at hin
      simp [writtenModules_esm] at hin
    · right
      rw [hcode hformat, Option.some.injEq] at hchunks
      subst hchunks
      exact ⟨hformat, no_imports_of_once hnodup hroots hpart.once⟩
  · rintro (hnil | ⟨hformat, hnone⟩)
    · have horder : order = [] := by
        refine List.eq_nil_iff_forall_not_mem.mpr fun m hm => ?_
        obtain ⟨r, hr, -⟩ := (hmem m).mp hm
        rw [hnil] at hr
        cases hr
      refine ⟨[], by rw [hemitted, horder]; rfl, ⟨List.nodup_nil, by simp [hnil], ?_⟩⟩
      intro before chunk after heq
      simp at heq
    · exact ⟨_, hcode hformat, partitions_of_no_imports hnone hnodup hroots⟩

end Emitted

end ThreeVa.Bundler
