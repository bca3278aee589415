import ThreeVa.Permissions.Lemmas.Path

/-!
# What a covered path is covered by
-/

namespace ThreeVa.Permissions
open Text

variable {env : PathEnv} {fs fs' : FileSystem} {pre post : List Seg} {cur : Loc}

/-- `cur` is an existing file or directory, and `tail` names that do not exist below it. -/
structure Landing (fs : FileSystem) (cur : Loc) (tail : List Str) : Prop where
  plain : fs.node cur = some .file ∨ fs.node cur = some .dir
  dir : tail ≠ [] → fs.node cur = some .dir
  fresh : ∀ n rest, tail = n :: rest → fs.node (cur ++ [n]) = none

theorem Landing.prefix_of_exists {tail : List Str} (h : Landing fs cur tail) {x : Loc}
    (hx : x <+: cur ++ tail) (he : fs.node x ≠ none) : x <+: cur := by
  rcases List.prefix_or_prefix_of_prefix hx (List.prefix_append cur tail) with h1 | ⟨t, rfl⟩
  · exact h1
  · cases t with
    | nil => simp
    | cons n l =>
        exfalso
        obtain ⟨tail', htail⟩ : [n] <+: tail := by
          have := (List.prefix_append_right_inj cur).mp hx
          exact (show [n] <+: n :: l from ⟨l, rfl⟩).trans this
        have hnone := h.fresh n tail' htail.symm
        rcases fs.node_of_prefix he (x := cur ++ [n]) ⟨l, by simp⟩ with heq | hdir
        · exact he (heq ▸ hnone)
        · simp [hnone] at hdir

theorem Landing.dir_of_lt {tail : List Str} (h : Landing fs cur tail) {x : Loc}
    (hx : x <+: cur ++ tail) (he : fs.node x ≠ none) (hne : x ≠ cur ++ tail) : fs.node x = some .dir := by
  have hp := h.prefix_of_exists hx he
  have hc : fs.node cur ≠ none := by rcases h.plain with h | h <;> simp [h]
  rcases fs.node_of_prefix hc hp with rfl | hd
  · exact h.dir fun ht => hne (by simp [ht])
  · exact hd

theorem Landing.not_link {tail : List Str} (h : Landing fs cur tail) {x : Loc} {t : PathBuf}
    (hx : x <+: cur ++ tail) : fs.node x ≠ some (.link t) := by
  intro hl
  have hp := h.prefix_of_exists hx (by simp [hl])
  have hc : fs.node cur ≠ none := by rcases h.plain with h | h <;> simp [h]
  rcases fs.node_of_prefix hc hp with rfl | hd
  · rcases h.plain with h | h <;> simp [h] at hl
  · simp [hd] at hl

/-! ## The grant -/

/-- A grant that is resolved to a place on the way to a landing is really there. -/
theorem location_of_prefix_landing {tail : List Str} (hl : Landing fs cur tail) {a : Loc} {gpre gpost : List Seg}
    {gcur : Loc} (hcd : .curDir ∉ gpost) (hg : fs.LongestExisting gpre gpost gcur)
    (ha : appendTail gcur gpost = some a) (hat : a <+: cur ++ tail) :
    fs.location (gpre ++ gpost) = some a := by
  have hw : ∃ m, fs.walk maxSymlinks [] (gpre ++ gpost) = fs.walk m gcur gpost := hg.walk_extends (.refl fs)
  rcases hg.cases with ⟨rfl, m, hr⟩ | ⟨seg, rest, rfl, hfile | ⟨hd, name, rfl, hn | ⟨t, hn⟩⟩⟩
  · rw [FileSystem.location, hr]; exact ha
  · -- nothing is below a file
    cases seg with
    | curDir => simp at hcd
    | parentDir => simp [appendTail] at ha
    | normal name =>
        have hlt : gcur ++ [name] <+: a := appendTail_prefix ha
        have hpre : gcur <+: cur ++ tail := ((List.prefix_append _ _).trans hlt).trans hat
        have hne : gcur ≠ cur ++ tail := by
          rintro rfl
          have := (hlt.trans hat).length_le
          simp only [List.length_append, List.length_cons] at this
          omega
        have := hl.dir_of_lt hpre (by simp [hfile]) hne
        simp [hfile] at this
  · obtain ⟨m, hm⟩ := hw
    simpa [FileSystem.location, hm, FileSystem.walk_missing hd hn, Walk.location, appendTail] using ha
  · -- nothing is below a link
    have hlt : gcur ++ [name] <+: a := appendTail_prefix ha
    exact absurd hn (hl.not_link (hlt.trans hat))

/-! ## The target -/

/-- A target that does not stop at a link lands where `resolvePhysically` says, in every extension. -/
theorem landing_of_no_link (h : fs.LongestExisting pre post cur) (hx : fs.Extends fs')
    (hnl : ∀ name rest t, post = .normal name :: rest → fs.node (cur ++ [name]) ≠ some (.link t))
    {t loc : Loc} (ht : appendTail cur post = some t) (hloc : fs'.location (pre ++ post) = some loc) :
    loc = t ∧ ∃ tail, t = cur ++ tail ∧ Landing fs cur tail := by
  have hp := h.plain
  obtain ⟨m, hm⟩ := h.walk_extends hx
  rw [FileSystem.location, hm] at hloc
  rcases h.cases with ⟨rfl, -⟩ | ⟨seg, rest, rfl, hfile | ⟨hd, name, rfl, hn | ⟨t', hn⟩⟩⟩
  · simp only [FileSystem.walk_nil, Walk.location, Option.some.injEq] at hloc
    simp only [appendTail, Option.some.injEq] at ht
    exact ⟨hloc ▸ ht, [], by simp [ht], hp, by simp, by simp⟩
  · have hnd : fs'.node cur ≠ some .dir := by simp [hx.1 _ _ hfile]
    simp [FileSystem.walk_notDir hnd, Walk.location] at hloc
  · have hpd : .parentDir ∉ rest := fun hm => by
      rw [appendTail, appendTail_parentDir hm] at ht; cases ht
    refine ⟨?_, ?_⟩
    · -- what is created below the missing name is plain
      have hplain : ∀ l t, fs'.node (cur ++ [name] ++ l) ≠ some (.link t) := by
        intro l t hlink
        have hnone : fs.node (cur ++ [name] ++ l) = none := by
          by_contra hne
          rcases fs.node_of_prefix hne (x := cur ++ [name]) ⟨l, rfl⟩ with heq | hdir
          · exact hne (heq ▸ hn)
          · simp [hn] at hdir
        rcases hx.2 _ _ hnone hlink with h | h <;> cases h
      have hcur := hx.1 _ _ hd
      have hsome : appendTail (cur ++ [name]) rest = some loc := by
        cases hn' : fs'.node (cur ++ [name]) with
        | none => simpa [FileSystem.walk_missing hcur hn', Walk.location] using hloc
        | some k =>
            rw [FileSystem.walk_plain hcur (by rcases hx.2 _ _ hn hn' with rfl | rfl <;> simp [hn'])] at hloc
            exact FileSystem.location_of_no_link hpd hplain hloc
      exact Option.some.inj (hsome.symm.trans ht)
    · obtain ⟨more, rfl⟩ : cur ++ [name] <+: t := appendTail_prefix ht
      exact ⟨name :: more, by simp, hp, fun _ => hd, by simp [hn]⟩
  · exact absurd hn (hnl name rest t' rfl)

/-! ## Coverage -/

theorem covered_tail_no_parentDir {target grant : PathBuf} (ht : target.absolute = true)
    (hg : grant.absolute = true) {pre post : List Seg} {cur : Loc} (hs : target.segs = pre ++ post)
    (hl : env.fs.LongestExisting pre post cur) (hp : .parentDir ∈ post) :
    pathCoveredBy env target grant = false := by
  rw [← Bool.not_eq_true, pathCoveredBy_eq_true ht hg]
  rintro ⟨t, a, hrt, -⟩
  rw [resolvePhysically_eq ht hs hl, appendTail_parentDir hp] at hrt
  cases hrt

theorem coverageSound_of_not_escapes {target grant : PathBuf} (ht : target.absolute = true)
    (hg : grant.absolute = true) (hesc : ¬ EscapesThroughLink env target grant) :
    CoverageSound env target grant := by
  refine ⟨fun hcov fs' hx loc hloc => ?_, fun pre post cur hs hl hp => covered_tail_no_parentDir ht hg hs hl hp⟩
  obtain ⟨t, a, hrt, hra, hat⟩ := (pathCoveredBy_eq_true ht hg).mp hcov
  obtain ⟨pre, post, cur, hs, hl, hr⟩ := exists_longestExisting env ht
  obtain ⟨gpre, gpost, gcur, hgs, hgl, hgr⟩ := exists_longestExisting env hg
  by_cases hlink : ∃ name rest dest, post = .normal name :: rest ∧ env.fs.node (cur ++ [name]) = some (.link dest)
  · obtain ⟨name, rest, dest, rfl, hn⟩ := hlink
    by_contra hout
    push Not at hout
    exact hesc ⟨pre, name, rest, cur, dest, hs, hl, hn, ⟨a, t, hra, hr.symm.trans hrt, hat⟩, fs', loc, hx, hloc, hout⟩
  · push Not at hlink
    rw [hs] at hloc
    obtain ⟨rfl, tail, rfl, hland⟩ :=
      landing_of_no_link hl hx (fun name rest dest he => hlink name rest dest he) (hr.symm.trans hrt) hloc
    have hcd : .curDir ∉ gpost := fun hm => grant.curDir_first (by simp [hg, hgs, hm])
    exact ⟨a, by rw [hgs]; exact location_of_prefix_landing hland hcd hgl (hgr.symm.trans hra) hat, hat⟩

theorem not_escapes_of_coverageSound {target grant : PathBuf} (ht : target.absolute = true)
    (hg : grant.absolute = true) (h : CoverageSound env target grant) :
    ¬ EscapesThroughLink env target grant := by
  rintro ⟨pre, name, post, cur, dest, hs, hl, hn, ⟨a, t, hra, hrt, hat⟩, fs', loc, hx, hloc, hout⟩
  have hcov : pathCoveredBy env target grant = true :=
    (pathCoveredBy_eq_true ht hg).mpr ⟨t, a, (resolvePhysically_eq ht hs hl).trans hrt, hra, hat⟩
  obtain ⟨g, hg', hle⟩ := h.1 hcov fs' hx loc hloc
  exact hout g hg' hle

end ThreeVa.Permissions
