import ThreeVa.Lib.Entries
import ThreeVa.Lib.Json
import ThreeVa.Lib.Utf8

/-!
# Exports patterns

`resolve_exports_pattern` of `js/src/builtins/modules.rs`: the keys with a `*` in the `exports` of a package. Paths are
texts, lengths are bytes, and the files of the disk are a parameter.
-/

namespace ThreeVa.Js.Exports
open Text Entries

/-! ## Targets -/

/-- `trim_start_matches("./")` -/
def trimDotSlash : Str → Str
  | '.' :: '/' :: rest => trimDotSlash rest
  | s => s

/-- `Path::join` -/
def join (dir path : Str) : Str :=
  if ['/'] <+: path then path else if dir = [] ∨ ['/'] <:+ dir then dir ++ path else dir ++ '/' :: path

/-- `replace('*', capture)` -/
def replaceStar (capture s : Str) : Str := s.flatMap fun c => if c = '*' then capture else [c]

/-- The conditions of an object, in the order in which they are looked at. -/
def conditions : List Str :=
  ["require".toList, "node".toList, "default".toList, "import".toList, "module".toList]

section Targets

variable (isFile : Str → Bool) (capture pkgDir : Str)

/-- The path of a target that is a string. -/
def substituteString (s : Str) : Str :=
  let p := join pkgDir (trimDotSlash (replaceStar capture s))
  if isFile p then p
  else
    let j := p ++ ".json".toList
    if isFile j then j else p

mutual

def substituteExportsWildcard : Json → Option Str
  | .str s => some (substituteString isFile capture pkgDir s)
  | .arr items => (substituteItems items).find? isFile
  | .obj fields => conditions.findSome? fun key => ((substituteFields fields).find? (·.1 = key)).bind Prod.snd
  | .null => none
  | .bool _ => none
  | .int _ => none
  | .float _ => none

/-- The paths of the elements that have one. -/
def substituteItems : List Json → List Str
  | [] => []
  | v :: vs =>
      match substituteExportsWildcard v with
      | some p => p :: substituteItems vs
      | none => substituteItems vs

def substituteFields : List (Str × Json) → List (Str × Option Str)
  | [] => []
  | (k, v) :: fs => (k, substituteExportsWildcard v) :: substituteFields fs

end

end Targets

/-! ## Keys -/

/-- `len()` -/
def byteLen (s : Str) : Nat := (encodeUtf8 s).length

def patternKeyBaseLen (key : Str) : Option Nat := (splitOnce '*' key).map fun p => byteLen p.1 + 1

def isCandidate (subpath key : Str) : Bool :=
  match splitOnce '*' key with
  | none => false
  | some (before, after) =>
      byteLen before + byteLen after ≤ byteLen subpath && before.isPrefixOf subpath &&
        (after.isEmpty || after.isSuffixOf subpath)

/-- The part of the subpath between the two parts of a key. -/
def captureOf (subpath key : Str) : Str :=
  match splitOnce '*' key with
  | none => []
  | some (before, after) => (subpath.take (subpath.length - after.length)).drop before.length

def patternKeyCompare (a b : Str × Json) : Ordering :=
  let base (key : Str) := (patternKeyBaseLen key).getD (byteLen key)
  (compare (base b.1) (base a.1)).then (compare (byteLen b.1) (byteLen a.1))

def resolveExportsPattern (isFile : Str → Bool) (exports : Entries Str Json) (subpath pkgDir : Str) :
    Option (Option Str) :=
  let candidates := exports.list.filter fun x => isCandidate subpath x.1
  some ((sortBy patternKeyCompare candidates).findSome? fun x =>
    substituteExportsWildcard isFile (captureOf subpath x.1) pkgDir x.2)

/-! ## What Node does -/

/-- The key matches the subpath, and its `*` this part of it; the base is not all of the subpath. -/
def PatternMatch (subpath key middle : Str) : Prop :=
  ∃ base trailer, key = base ++ '*' :: trailer ∧ '*' ∉ base ∧ subpath = base ++ middle ++ trailer ∧ base ≠ subpath

/-- What comes before the `*`. -/
def baseOf (key : Str) : Str := key.takeWhile (· ≠ '*')

/-- Of two keys the second has the longer base, or it is the longer one. -/
def PatternKeyLE (a b : Str) : Prop :=
  (baseOf a).length < (baseOf b).length ∨ (baseOf a).length = (baseOf b).length ∧ a.length ≤ b.length

structure BestMatch (exports : Entries Str Json) (subpath key middle : Str) (target : Json) : Prop where
  mem : (key, target) ∈ exports.list
  matched : PatternMatch subpath key middle
  best : ∀ key' middle' target', (key', target') ∈ exports.list → PatternMatch subpath key' middle' →
    PatternKeyLE key' key

section Node

variable (isFile : Str → Bool) (exports : Entries Str Json) (subpath pkgDir : Str)

/-- The target of the best key decides, in whatever order the keys are. -/
structure FollowsNode : Prop where
  best : ∀ key middle target, BestMatch exports subpath key middle target →
    resolveExportsPattern isFile exports subpath pkgDir =
      some (substituteExportsWildcard isFile middle pkgDir target)
  unmatched : (∀ key middle target, (key, target) ∈ exports.list → ¬PatternMatch subpath key middle) →
    resolveExportsPattern isFile exports subpath pkgDir = some none
  order : ∀ exports' : Entries Str Json, exports'.list.Perm exports.list →
    resolveExportsPattern isFile exports' subpath pkgDir = resolveExportsPattern isFile exports subpath pkgDir

/-- A key that is the subpath and a `*` gives no other path than the best key, and no key has a path if the best one has
none. -/
structure BestDecides : Prop where
  whole : '*' ∉ subpath → ∀ target p, (subpath ++ ['*'], target) ∈ exports.list →
    substituteExportsWildcard isFile [] pkgDir target = some p →
    ∃ key middle target', BestMatch exports subpath key middle target' ∧
      substituteExportsWildcard isFile middle pkgDir target' = some p
  others : ∀ key middle target, BestMatch exports subpath key middle target →
    substituteExportsWildcard isFile middle pkgDir target = none →
    ∀ key' middle' target', (key', target') ∈ exports.list → PatternMatch subpath key' middle' →
      substituteExportsWildcard isFile middle' pkgDir target' = none

end Node

end ThreeVa.Js.Exports

namespace ThreeVa.Js.Exports
open Text Entries Std

/-! ## Lengths -/

theorem byteLen_append (s t : Str) : byteLen (s ++ t) = byteLen s + byteLen t := by
  rw [byteLen, encodeUtf8_append, List.length_append]
  rfl

theorem byteLen_pos {s : Str} (h : s ≠ []) : 0 < byteLen s := by
  cases s with
  | nil => exact absurd rfl h
  | cons c s =>
      have hc := List.length_pos_iff.mpr (encodeChar_ne_nil c)
      rw [byteLen, encodeUtf8, List.flatMap_cons, List.length_append]
      omega

theorem byteLen_le_of_prefix {s t : Str} (h : s <+: t) : byteLen s ≤ byteLen t := by
  obtain ⟨u, rfl⟩ := h
  rw [byteLen_append]
  omega

theorem byteLen_le_of_suffix {s t : Str} (h : s <:+ t) : byteLen s ≤ byteLen t := by
  obtain ⟨u, rfl⟩ := h
  rw [byteLen_append]
  omega

/-! ## Matches -/

/-- The parts of a key and of a subpath that it matches. -/
structure Parts (subpath key base middle trailer : Str) : Prop where
  key_eq : key = base ++ '*' :: trailer
  star : '*' ∉ base
  subpath_eq : subpath = base ++ middle ++ trailer

variable {subpath key base middle trailer : Str}

theorem Parts.split (h : Parts subpath key base middle trailer) : splitOnce '*' key = some (base, trailer) := by
  rw [h.key_eq]
  exact splitOnce_append h.star

theorem Parts.candidate (h : Parts subpath key base middle trailer) : isCandidate subpath key = true := by
  have hlength : byteLen base + byteLen trailer ≤ byteLen subpath := by
    rw [h.subpath_eq, byteLen_append, byteLen_append]
    omega
  have hprefix : base <+: subpath := ⟨middle ++ trailer, by rw [h.subpath_eq, List.append_assoc]⟩
  have hsuffix : trailer <:+ subpath := ⟨base ++ middle, h.subpath_eq.symm⟩
  simp [isCandidate, h.split, hlength, hprefix, hsuffix]

theorem Parts.capture (h : Parts subpath key base middle trailer) : captureOf subpath key = middle := by
  unfold captureOf
  rw [h.split]
  simp only
  rw [h.subpath_eq, List.length_append, Nat.add_sub_cancel, List.take_left, List.drop_left]

theorem parts_of_candidate (h : isCandidate subpath key = true) :
    ∃ base trailer, Parts subpath key base (captureOf subpath key) trailer := by
  unfold isCandidate at h
  cases hsplit : splitOnce '*' key with
  | none =>
      rw [hsplit] at h
      cases h
  | some parts =>
      obtain ⟨base, trailer⟩ := parts
      obtain ⟨hkey, hstar⟩ := splitOnce_eq_some.mp hsplit
      rw [hsplit] at h
      simp only [Bool.and_eq_true, Bool.or_eq_true, decide_eq_true_eq, List.isPrefixOf_iff_prefix,
        List.isSuffixOf_iff_suffix, List.isEmpty_iff] at h
      obtain ⟨⟨hlength, ⟨rest, rfl⟩⟩, hsuffix⟩ := h
      have hrest : trailer <:+ rest := by
        have hsub : trailer <:+ base ++ rest := hsuffix.elim (fun h => h ▸ List.nil_suffix) id
        refine List.suffix_of_suffix_length_le hsub (List.suffix_append _ _) ?_
        -- the trailer does not reach into the base
        by_contra hlong
        obtain ⟨extra, hextra⟩ := List.suffix_of_suffix_length_le (List.suffix_append base rest) hsub (by omega)
        have hpos : 0 < byteLen extra := byteLen_pos fun h => by
          subst h
          rw [← hextra] at hlong
          simp at hlong
        rw [byteLen_append, ← hextra, byteLen_append] at hlength
        omega
      obtain ⟨middle, rfl⟩ := hrest
      have hparts : Parts (base ++ (middle ++ trailer)) key base middle trailer :=
        ⟨hkey, hstar, by rw [List.append_assoc]⟩
      exact ⟨base, trailer, hparts.capture.symm ▸ hparts⟩

theorem parts_patternMatch :
    PatternMatch subpath key middle ↔ ∃ base trailer, Parts subpath key base middle trailer ∧ base ≠ subpath := by
  constructor
  · rintro ⟨base, trailer, hkey, hstar, hsub, hne⟩
    exact ⟨base, trailer, ⟨hkey, hstar, hsub⟩, hne⟩
  · rintro ⟨base, trailer, h, hne⟩
    exact ⟨base, trailer, h.key_eq, h.star, h.subpath_eq, hne⟩

/-! ## The order of the keys -/

theorem byteLen_lt_of_prefix {s t u : Str} (hs : s <+: u) (ht : t <+: u) : byteLen s < byteLen t ↔ s.length < t.length := by
  rcases List.prefix_or_prefix_of_prefix hs ht with ⟨x, rfl⟩ | ⟨x, rfl⟩
  · rw [byteLen_append, List.length_append]
    cases x with
    | nil => simp [byteLen, encodeUtf8]
    | cons c x =>
        have hpos := byteLen_pos (List.cons_ne_nil c x)
        simp only [List.length_cons]
        omega
  · rw [byteLen_append, List.length_append]
    omega

theorem byteLen_lt_of_suffix {s t u : Str} (hs : s <:+ u) (ht : t <:+ u) : byteLen s < byteLen t ↔ s.length < t.length := by
  rcases List.suffix_or_suffix_of_suffix hs ht with ⟨x, rfl⟩ | ⟨x, rfl⟩
  · rw [byteLen_append, List.length_append]
    cases x with
    | nil => simp [byteLen, encodeUtf8]
    | cons c x =>
        have hpos := byteLen_pos (List.cons_ne_nil c x)
        simp only [List.length_cons]
        omega
  · rw [byteLen_append, List.length_append]
    omega

theorem Parts.base_prefix (h : Parts subpath key base middle trailer) : base <+: subpath :=
  ⟨middle ++ trailer, by rw [h.subpath_eq, List.append_assoc]⟩

theorem Parts.trailer_suffix (h : Parts subpath key base middle trailer) : trailer <:+ subpath :=
  ⟨base ++ middle, h.subpath_eq.symm⟩

theorem Parts.baseOf_eq (h : Parts subpath key base middle trailer) : baseOf key = base := by
  rw [baseOf, h.key_eq, List.takeWhile_append_of_pos, List.takeWhile_cons_of_neg (by simp), List.append_nil]
  intro c hc
  have hne : c ≠ '*' := by
    rintro rfl
    exact h.star hc
  simpa using hne

theorem Parts.byteLen_key (h : Parts subpath key base middle trailer) : byteLen key = byteLen base + 1 + byteLen trailer := by
  have hstar : byteLen ['*'] = 1 := by decide
  rw [h.key_eq, List.append_cons, byteLen_append, byteLen_append, hstar]

instance : TransCmp patternKeyCompare := by
  have hnat : TransCmp fun a b : Nat => compare b a := inferInstance
  have hbase : TransCmp fun a b : Str × Json =>
      compare ((patternKeyBaseLen b.1).getD (byteLen b.1)) ((patternKeyBaseLen a.1).getD (byteLen a.1)) :=
    transCmp_on (fun x : Str × Json => (patternKeyBaseLen x.1).getD (byteLen x.1)) hnat
  have hlen : TransCmp fun a b : Str × Json => compare (byteLen b.1) (byteLen a.1) :=
    transCmp_on (fun x : Str × Json => byteLen x.1) hnat
  exact inferInstanceAs (TransCmp (compareLex _ _))

section Order

variable {key' base' middle' trailer' : Str} {target target' : Json}

theorem compare_parts (h : Parts subpath key base middle trailer) (h' : Parts subpath key' base' middle' trailer') :
    patternKeyCompare (key, target) (key', target') =
      (compare (byteLen base') (byteLen base)).then (compare (byteLen key') (byteLen key)) := by
  have hcompare : compare (byteLen base' + 1) (byteLen base + 1) = compare (byteLen base') (byteLen base) := by
    simp only [Nat.compare_eq_ite_lt, Nat.add_lt_add_iff_right]
  simp only [patternKeyCompare, patternKeyBaseLen, h.split, h'.split, Option.map_some, Option.getD_some, hcompare]

/-- A key comes before another exactly if it is not below it for Node. -/
theorem compare_lt_iff (h : Parts subpath key base middle trailer) (h' : Parts subpath key' base' middle' trailer') :
    patternKeyCompare (key, target) (key', target') = .lt ↔ ¬PatternKeyLE key key' := by
  have hbase := byteLen_lt_of_prefix h.base_prefix h'.base_prefix
  have hbase' := byteLen_lt_of_prefix h'.base_prefix h.base_prefix
  have htrailer := byteLen_lt_of_suffix h'.trailer_suffix h.trailer_suffix
  have hkey : key.length = base.length + 1 + trailer.length := by simp [h.key_eq]; omega
  have hkey' : key'.length = base'.length + 1 + trailer'.length := by simp [h'.key_eq]; omega
  rw [compare_parts h h', Ordering.then_eq_lt, Nat.compare_eq_lt, Nat.compare_eq_eq, Nat.compare_eq_lt, h.byteLen_key,
    h'.byteLen_key, PatternKeyLE, h.baseOf_eq, h'.baseOf_eq]
  omega

theorem eq_of_compare_eq (h : Parts subpath key base middle trailer) (h' : Parts subpath key' base' middle' trailer')
    (heq : patternKeyCompare (key, target) (key', target') = .eq) : key = key' := by
  rw [compare_parts h h', Ordering.then_eq_eq, Nat.compare_eq_eq, Nat.compare_eq_eq, h.byteLen_key, h'.byteLen_key] at heq
  have hbase := byteLen_lt_of_prefix h.base_prefix h'.base_prefix
  have hbase' := byteLen_lt_of_prefix h'.base_prefix h.base_prefix
  have htrailer := byteLen_lt_of_suffix h'.trailer_suffix h.trailer_suffix
  have htrailer' := byteLen_lt_of_suffix h.trailer_suffix h'.trailer_suffix
  have hb : base = base' := (List.prefix_of_prefix_length_le h.base_prefix h'.base_prefix (by omega)).eq_of_length (by omega)
  have ht : trailer = trailer' :=
    (List.suffix_of_suffix_length_le h.trailer_suffix h'.trailer_suffix (by omega)).eq_of_length (by omega)
  rw [h.key_eq, h'.key_eq, hb, ht]

end Order

/-! ## The path of a subpath -/

section Resolve

variable {isFile : Str → Bool} {exports : Entries Str Json} {pkgDir : Str}

/-- The path that a key gives. -/
def pathOf (isFile : Str → Bool) (subpath pkgDir : Str) (x : Str × Json) : Option Str :=
  substituteExportsWildcard isFile (captureOf subpath x.1) pkgDir x.2

def candidates (exports : Entries Str Json) (subpath : Str) : List (Str × Json) :=
  exports.list.filter fun x => isCandidate subpath x.1

theorem mem_candidates {x : Str × Json} : x ∈ candidates exports subpath ↔
    x ∈ exports.list ∧ ∃ base trailer, Parts subpath x.1 base (captureOf subpath x.1) trailer := by
  rw [candidates, List.mem_filter]
  refine and_congr_right fun _ => ⟨parts_of_candidate, ?_⟩
  rintro ⟨base, trailer, h⟩
  exact h.candidate

theorem Parts.mem_candidates {target : Json} (h : Parts subpath key base middle trailer)
    (hmem : (key, target) ∈ exports.list) : (key, target) ∈ candidates exports subpath :=
  Exports.mem_candidates.mpr ⟨hmem, base, trailer, h.capture.symm ▸ h⟩

theorem Parts.pathOf_eq {target : Json} (h : Parts subpath key base middle trailer) :
    pathOf isFile subpath pkgDir (key, target) = substituteExportsWildcard isFile middle pkgDir target := by
  rw [pathOf, h.capture]

theorem candidates_distinct : ∀ a ∈ candidates exports subpath, ∀ b ∈ candidates exports subpath,
    patternKeyCompare a b = .eq → a = b := by
  intro a ha b hb heq
  obtain ⟨hmem, base, trailer, h⟩ := mem_candidates.mp ha
  obtain ⟨hmem', base', trailer', h'⟩ := mem_candidates.mp hb
  exact exports.eq_of_key_eq hmem hmem' (eq_of_compare_eq h h' heq)

theorem resolve_eq_some {p : Str} : resolveExportsPattern isFile exports subpath pkgDir = some (some p) ↔
    ∃ x ∈ candidates exports subpath, pathOf isFile subpath pkgDir x = some p ∧
      ∀ x' ∈ candidates exports subpath, patternKeyCompare x' x = .lt → pathOf isFile subpath pkgDir x' = none := by
  rw [← findSome?_sortBy candidates_distinct]
  exact Option.some_inj

theorem resolve_eq_none : resolveExportsPattern isFile exports subpath pkgDir = some none ↔
    ∀ x ∈ candidates exports subpath, pathOf isFile subpath pkgDir x = none := by
  have hall : (sortBy patternKeyCompare (candidates exports subpath)).findSome? (pathOf isFile subpath pkgDir) = none ↔
      ∀ x ∈ candidates exports subpath, pathOf isFile subpath pkgDir x = none := by
    rw [List.findSome?_eq_none_iff]
    exact forall_congr' fun x => imp_congr_left mem_sortBy
  exact Option.some_inj.trans hall

/-- Some match is the best one. -/
theorem exists_bestMatch {target : Json} (hmem : (key, target) ∈ exports.list) (h : PatternMatch subpath key middle) :
    ∃ key middle target, BestMatch exports subpath key middle target := by
  classical
  let proper := exports.list.filter fun x => decide (∃ middle, PatternMatch subpath x.1 middle)
  have hproper : ∀ x, x ∈ proper ↔ x ∈ exports.list ∧ ∃ middle, PatternMatch subpath x.1 middle := by
    intro x
    simp [proper]
  have hsorted : (sortBy patternKeyCompare proper).Pairwise fun a b => (patternKeyCompare a b).isLE :=
    pairwise_sortBy proper
  cases hl : sortBy patternKeyCompare proper with
  | nil =>
      have hin : (key, target) ∈ sortBy patternKeyCompare proper := mem_sortBy.mpr ((hproper _).mpr ⟨hmem, middle, h⟩)
      rw [hl] at hin
      cases hin
  | cons x rest =>
      have hx : x ∈ proper := mem_sortBy.mp (hl ▸ List.mem_cons_self)
      obtain ⟨hxmem, middle, hxmatch⟩ := (hproper x).mp hx
      refine ⟨x.1, middle, x.2, hxmem, hxmatch, fun key' middle' target' hmem' hmatch' => ?_⟩
      obtain ⟨base, trailer, hparts, -⟩ := parts_patternMatch.mp hxmatch
      obtain ⟨base', trailer', hparts', -⟩ := parts_patternMatch.mp hmatch'
      have hin : (key', target') ∈ x :: rest := hl ▸ mem_sortBy.mpr ((hproper _).mpr ⟨hmem', middle', hmatch'⟩)
      rw [hl] at hsorted
      by_contra hnot
      have hlt : patternKeyCompare (key', target') x = .lt := (compare_lt_iff hparts' hparts).mpr hnot
      rcases List.mem_cons.mp hin with heq | hrest
      · have hself : patternKeyCompare x x = .eq := ReflCmp.compare_self
        rw [heq] at hlt
        rw [hself] at hlt
        cases hlt
      · have hle := (List.pairwise_cons.mp hsorted).1 _ hrest
        rw [OrientedCmp.gt_of_lt hlt] at hle
        cases hle

theorem BestMatch.unique {key' middle' : Str} {target target' : Json} (h : BestMatch exports subpath key middle target)
    (h' : BestMatch exports subpath key' middle' target') : middle = middle' ∧ target = target' := by
  obtain ⟨base, trailer, hparts, -⟩ := parts_patternMatch.mp h.matched
  obtain ⟨base', trailer', hparts', -⟩ := parts_patternMatch.mp h'.matched
  have hle := h.best key' middle' target' h'.mem h'.matched
  have hle' := h'.best key middle target h.mem h.matched
  have hkey : key = key' := by
    apply eq_of_compare_eq hparts hparts'
    cases hcmp : patternKeyCompare (key, target) (key', target') with
    | lt => exact absurd hle' ((compare_lt_iff hparts hparts').mp hcmp)
    | eq => rfl
    | gt => exact absurd hle ((compare_lt_iff hparts' hparts).mp (OrientedCmp.lt_of_gt hcmp))
  subst hkey
  have hsame := exports.eq_of_key_eq h.mem h'.mem rfl
  exact ⟨hparts.capture.symm.trans hparts'.capture, congrArg Prod.snd hsame⟩

/-- A candidate is a match for Node, or the subpath with a `*` behind it. -/
theorem candidate_cases {x : Str × Json} (hx : x ∈ candidates exports subpath) :
    PatternMatch subpath x.1 (captureOf subpath x.1) ∨
      '*' ∉ subpath ∧ x.1 = subpath ++ ['*'] ∧ captureOf subpath x.1 = [] := by
  obtain ⟨-, base, trailer, h⟩ := mem_candidates.mp hx
  by_cases hbase : base = subpath
  · right
    have hrest := h.subpath_eq
    rw [hbase, List.append_assoc, List.self_eq_append_right, List.append_eq_nil_iff] at hrest
    refine ⟨hbase ▸ h.star, ?_, hrest.1⟩
    rw [h.key_eq, hbase, hrest.2]
  · exact .inl (parts_patternMatch.mpr ⟨base, trailer, h, hbase⟩)

theorem parts_whole (h : '*' ∉ subpath) : Parts subpath (subpath ++ ['*']) subpath [] [] :=
  ⟨rfl, h, by simp⟩

/-- Nothing comes before the subpath with a `*` behind it. -/
theorem not_before_whole (h : '*' ∉ subpath) {target : Json} {x : Str × Json} (hx : x ∈ candidates exports subpath) :
    patternKeyCompare x (subpath ++ ['*'], target) ≠ .lt := by
  obtain ⟨-, base, trailer, hparts⟩ := mem_candidates.mp hx
  intro hlt
  refine (compare_lt_iff hparts (parts_whole h)).mp hlt ?_
  have hlength := hparts.base_prefix.length_le
  have htotal := congrArg List.length hparts.subpath_eq
  rw [PatternKeyLE, hparts.baseOf_eq, (parts_whole h).baseOf_eq, hparts.key_eq]
  simp only [List.length_append, List.length_cons, List.length_nil] at htotal ⊢
  omega

theorem resolve_perm {exports' : Entries Str Json} (h : exports'.list.Perm exports.list) :
    resolveExportsPattern isFile exports' subpath pkgDir = resolveExportsPattern isFile exports subpath pkgDir := by
  have hsort : sortBy patternKeyCompare (candidates exports' subpath) = sortBy patternKeyCompare (candidates exports subpath) :=
    sortBy_eq_of_perm (h.filter _) candidates_distinct
  exact congrArg (fun l => some (l.findSome? (pathOf isFile subpath pkgDir))) hsort

/-- A path of a key that is no match for Node is the path of the best key, and nothing comes before it. -/
theorem BestDecides.of_path (h : BestDecides isFile exports subpath pkgDir) {x : Str × Json}
    (hx : x ∈ candidates exports subpath) (hnot : ¬PatternMatch subpath x.1 (captureOf subpath x.1)) {p : Str}
    (hpath : pathOf isFile subpath pkgDir x = some p) :
    (∃ key middle target, BestMatch exports subpath key middle target ∧
      substituteExportsWildcard isFile middle pkgDir target = some p) ∧
      ∀ x' ∈ candidates exports subpath, patternKeyCompare x' x ≠ .lt := by
  obtain ⟨hstar, hkey, hcapture⟩ := (candidate_cases hx).resolve_left hnot
  have hwhole : x = (subpath ++ ['*'], x.2) := by rw [← hkey]
  rw [pathOf, hcapture] at hpath
  refine ⟨h.whole hstar x.2 p (hkey ▸ (mem_candidates.mp hx).1) hpath, fun x' hx' => ?_⟩
  rw [hwhole]
  exact not_before_whole hstar hx'

theorem FollowsNode.bestDecides (h : FollowsNode isFile exports subpath pkgDir) :
    BestDecides isFile exports subpath pkgDir := by
  refine ⟨fun hstar target p hmem hpath => ?_, fun key middle target hbest hnone key' middle' target' hmem' hmatch' => ?_⟩
  · have hwhole := (parts_whole hstar).mem_candidates hmem
    have hresolve : resolveExportsPattern isFile exports subpath pkgDir = some (some p) :=
      resolve_eq_some.mpr ⟨_, hwhole, (parts_whole hstar).pathOf_eq.trans hpath,
        fun x hx hlt => absurd hlt (not_before_whole hstar hx)⟩
    by_contra hno
    have hunmatched : ∀ key middle target, (key, target) ∈ exports.list → ¬PatternMatch subpath key middle := by
      intro key middle target' hmem' hmatch
      obtain ⟨key, middle, target', hbest⟩ := exists_bestMatch hmem' hmatch
      refine hno ⟨key, middle, target', hbest, ?_⟩
      exact Option.some_inj.mp ((h.best key middle target' hbest).symm.trans hresolve)
    rw [h.unmatched hunmatched] at hresolve
    cases hresolve
  · have hresolve := h.best key middle target hbest
    rw [hnone, resolve_eq_none] at hresolve
    obtain ⟨base', trailer', hparts', -⟩ := parts_patternMatch.mp hmatch'
    rw [← hparts'.pathOf_eq]
    exact hresolve _ (hparts'.mem_candidates hmem')

theorem BestDecides.resolve_best (h : BestDecides isFile exports subpath pkgDir) {target : Json}
    (hbest : BestMatch exports subpath key middle target) :
    resolveExportsPattern isFile exports subpath pkgDir =
      some (substituteExportsWildcard isFile middle pkgDir target) := by
  obtain ⟨base, trailer, hparts, -⟩ := parts_patternMatch.mp hbest.matched
  cases hpath : substituteExportsWildcard isFile middle pkgDir target with
  | none =>
      rw [resolve_eq_none]
      intro x hx
      by_cases hmatch : PatternMatch subpath x.1 (captureOf subpath x.1)
      · exact h.others key middle target hbest hpath x.1 _ x.2 (mem_candidates.mp hx).1 hmatch
      · cases hx' : pathOf isFile subpath pkgDir x with
        | none => rfl
        | some p =>
            obtain ⟨⟨key', middle', target', hbest', hp⟩, -⟩ := h.of_path hx hmatch hx'
            obtain ⟨rfl, rfl⟩ := hbest.unique hbest'
            rw [hpath] at hp
            cases hp
  | some p =>
      rw [resolve_eq_some]
      by_cases hwhole : ∃ x ∈ candidates exports subpath, ¬PatternMatch subpath x.1 (captureOf subpath x.1) ∧
          pathOf isFile subpath pkgDir x ≠ none
      · obtain ⟨x, hx, hnot, hsome⟩ := hwhole
        obtain ⟨q, hq⟩ := Option.ne_none_iff_exists'.mp hsome
        obtain ⟨⟨key', middle', target', hbest', hp⟩, hfirst⟩ := h.of_path hx hnot hq
        obtain ⟨rfl, rfl⟩ := hbest.unique hbest'
        obtain rfl := Option.some_inj.mp (hp.symm.trans hpath)
        exact ⟨x, hx, hq, fun x' hx' hlt => absurd hlt (hfirst x' hx')⟩
      · refine ⟨_, hparts.mem_candidates hbest.mem, hparts.pathOf_eq.trans hpath, fun x hx hlt => ?_⟩
        by_cases hmatch : PatternMatch subpath x.1 (captureOf subpath x.1)
        · obtain ⟨-, base', trailer', hparts'⟩ := mem_candidates.mp hx
          have hbetter := hbest.best x.1 _ x.2 (mem_candidates.mp hx).1 hmatch
          exact absurd hbetter ((compare_lt_iff hparts' hparts).mp hlt)
        · by_contra hsome
          exact hwhole ⟨x, hx, hmatch, hsome⟩

theorem BestDecides.resolve_unmatched (h : BestDecides isFile exports subpath pkgDir)
    (hunmatched : ∀ key middle target, (key, target) ∈ exports.list → ¬PatternMatch subpath key middle) :
    resolveExportsPattern isFile exports subpath pkgDir = some none := by
  rw [resolve_eq_none]
  intro x hx
  cases hx' : pathOf isFile subpath pkgDir x with
  | none => rfl
  | some p =>
      obtain ⟨⟨key, middle, target, hbest, -⟩, -⟩ := h.of_path hx (hunmatched x.1 _ x.2 (mem_candidates.mp hx).1) hx'
      exact absurd hbest.matched (hunmatched key middle target hbest.mem)

theorem followsNode_iff :
    FollowsNode isFile exports subpath pkgDir ↔ BestDecides isFile exports subpath pkgDir :=
  ⟨fun h => h.bestDecides, fun h =>
    ⟨fun _ _ _ hbest => h.resolve_best hbest, h.resolve_unmatched, fun _ hperm => resolve_perm hperm⟩⟩

end Resolve

/-! ## Targets that are strings -/

theorem replaceStar_eq (capture s : Str) : replaceStar capture s = capture.intercalate (s.splitOn '*') := by
  induction s with
  | nil => simp [replaceStar]
  | cons c s ih =>
      obtain ⟨first, others, hsplit⟩ := List.exists_cons_of_ne_nil (List.splitOn_ne_nil '*' s)
      rw [hsplit] at ih
      rw [List.splitOn_cons_eq_if_modifyHead, hsplit]
      unfold replaceStar at ih ⊢
      rw [List.flatMap_cons, ih]
      by_cases hc : c = '*'
      · rw [if_pos hc, if_pos (by simpa using hc), List.intercalate_cons_cons]
        rfl
      · rw [if_neg hc, if_neg (by simpa using hc), List.modifyHead_cons]
        cases others with
        | nil => simp
        | cons x others => simp [List.intercalate_cons_cons]

end ThreeVa.Js.Exports
