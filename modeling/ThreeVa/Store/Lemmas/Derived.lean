import ThreeVa.Lib.Words
import ThreeVa.Store.Paths
import ThreeVa.Store.Lemmas.Paths

/-! Which components keep a derived path below its base, whatever the base is called. -/

namespace ThreeVa.Store
open Text Permissions

/-! ## Walks -/

theorem foldl_of_walk {names out : List Str} {segs : List Seg} (root : List Str) (h : walk names segs = some out) :
    segs.foldl pushComponent ((root ++ names).map .normal) = (root ++ out).map .normal := by
  induction segs generalizing names with
  | nil =>
      cases h
      rfl
  | cons seg segs ih =>
      rw [List.foldl_cons]
      cases seg with
      | curDir => exact ih h
      | parentDir =>
          simp only [walk] at h
          split at h
          · cases h
          · rename_i hne
            have hne : names ≠ [] := by simpa using hne
            rw [← ih h]
            simp [pushComponent, hne, List.dropLast_append_of_ne_nil, List.map_dropLast]
      | normal n =>
          rw [← ih h]
          simp [pushComponent]

/-- A name that the components do not have is not pushed again. -/
theorem count_foldl_le {fresh : Str} {segs : List Seg} (h : .normal fresh ∉ segs) (out : List Seg) :
    (segs.foldl pushComponent out).count (.normal fresh) ≤ out.count (.normal fresh) := by
  induction segs generalizing out with
  | nil => exact le_refl _
  | cons seg segs ih =>
      rw [List.mem_cons, not_or] at h
      refine (ih h.2 _).trans ?_
      cases seg with
      | curDir => exact le_refl _
      | parentDir =>
          simp only [pushComponent]
          split
          · simp
          · exact (List.dropLast_sublist out).count_le _
      | normal n =>
          have hne : ¬ n = fresh := fun heq => h.1 (by rw [heq])
          simp [pushComponent, List.count_append, hne]

/-- A walk that leaves the directories takes a name of what is above them. -/
theorem count_foldl_lt {fresh : Str} {names : List Str} {segs : List Seg} (h : .normal fresh ∉ segs)
    (hnames : fresh ∉ names) (n : Nat) (hwalk : walk names segs = none) :
    (segs.foldl pushComponent ((List.replicate (n + 1) fresh ++ names).map .normal)).count (.normal fresh) ≤ n := by
  induction segs generalizing names with
  | nil => cases hwalk
  | cons seg segs ih =>
      rw [List.mem_cons, not_or] at h
      rw [List.foldl_cons]
      cases seg with
      | curDir => exact ih h.2 hnames hwalk
      | parentDir =>
          simp only [walk] at hwalk
          split at hwalk
          · rename_i hempty
            rw [List.isEmpty_iff] at hempty
            subst hempty
            refine (count_foldl_le h.2 _).trans ?_
            simp [pushComponent, List.replicate_succ', List.map_append]
          · rename_i hne
            have hne : names ≠ [] := by simpa using hne
            have hdrop : pushComponent ((List.replicate (n + 1) fresh ++ names).map .normal) .parentDir =
                (List.replicate (n + 1) fresh ++ names.dropLast).map .normal := by
              simp [pushComponent, hne, List.dropLast_append_of_ne_nil, List.map_dropLast]
            rw [hdrop]
            exact ih h.2 (fun hmem => hnames (List.mem_of_mem_dropLast hmem)) hwalk
      | normal m =>
          have hpush : pushComponent ((List.replicate (n + 1) fresh ++ names).map .normal) (.normal m) =
              (List.replicate (n + 1) fresh ++ (names ++ [m])).map .normal := by simp [pushComponent]
          rw [hpush]
          refine ih h.2 ?_ hwalk
          rw [List.mem_append, List.mem_singleton, not_or]
          exact ⟨hnames, fun heq => h.1 (by rw [heq])⟩

/-! ## Descent below every root -/

theorem exists_fresh (l : List Str) : ∃ fresh, isName fresh = true ∧ fresh ∉ l := by
  obtain ⟨n, hn⟩ : ∃ n, ∀ s ∈ l, s.length < n := by
    induction l with
    | nil => exact ⟨0, by simp⟩
    | cons s l ih =>
        obtain ⟨n, hn⟩ := ih
        refine ⟨max n (s.length + 1), fun t ht => ?_⟩
        rcases List.mem_cons.mp ht with rfl | ht
        · omega
        · exact lt_max_of_lt_left (hn t ht)
  refine ⟨List.replicate (n + 3) 'x', by simp [isName, List.replicate_succ], fun hmem => ?_⟩
  have hlt := hn _ hmem
  rw [List.length_replicate] at hlt
  omega

/-- A path that puts components below the directories of a root. -/
structure Puts (root : Root) (dirs : List Str) (segs : List Seg) (path : PathBuf) : Prop where
  absolute : path.absolute = true
  segs_eq : path.segs = (root.names ++ dirs).map .normal ++ segs

theorem path_ext {p q : PathBuf} (habsolute : p.absolute = q.absolute) (hsegs : p.segs = q.segs) : p = q := by
  cases p
  cases q
  cases habsolute
  cases hsegs
  rfl

theorem Puts.descends_iff {root : Root} {dirs : List Str} {segs : List Seg} {path : PathBuf}
    (h : Puts root dirs segs path) : Descends (root.dir dirs) path ↔
      ∃ below, below ≠ [] ∧
        segs.foldl pushComponent ((root.names ++ dirs).map .normal) = (root.names ++ dirs).map .normal ++ below := by
  have hsegs : (lexicallyNormalize path).segs = segs.foldl pushComponent ((root.names ++ dirs).map .normal) := by
    change path.segs.foldl pushComponent [] = _
    rw [h.segs_eq, List.foldl_append, foldl_pushComponent_normal, List.nil_append]
  have habsolute : (lexicallyNormalize path).absolute = true := h.absolute
  unfold Descends startsWith
  simp only [habsolute, root.dir_absolute, decide_true, Bool.true_and, List.isPrefixOf_iff_prefix]
  rw [hsegs]
  constructor
  · rintro ⟨⟨below, hbelow⟩, hne⟩
    refine ⟨below, fun hnil => hne ?_, hbelow.symm⟩
    rw [hnil, List.append_nil] at hbelow
    exact path_ext habsolute (hsegs.trans hbelow.symm)
  · rintro ⟨below, hne, hbelow⟩
    refine ⟨⟨below, hbelow.symm⟩, fun heq => hne ?_⟩
    have hlength := congrArg List.length ((congrArg PathBuf.segs heq).symm.trans (hsegs.trans hbelow))
    rw [List.length_append] at hlength
    change ((root.names ++ dirs).map Seg.normal).length = _ at hlength
    exact List.length_eq_zero_iff.mp (by omega)

theorem staysIn_of_foldl {fresh : Str} {dirs : List Str} {segs below : List Seg} (hsegs : .normal fresh ∉ segs)
    (hdirs : fresh ∉ dirs) (hne : below ≠ [])
    (h : segs.foldl pushComponent (([fresh] ++ dirs).map .normal) = ([fresh] ++ dirs).map .normal ++ below) :
    StaysIn dirs segs := by
  cases hwalk : walk dirs segs with
  | none =>
      have hcount := count_foldl_lt hsegs hdirs 0 hwalk
      rw [List.replicate_one, h, List.count_append] at hcount
      simp at hcount
  | some out =>
      rw [foldl_of_walk [fresh] hwalk] at h
      obtain ⟨rest, hrest⟩ : dirs <+: out := by
        have hprefix : ([fresh] ++ dirs).map Seg.normal <+: ([fresh] ++ out).map Seg.normal := ⟨below, h.symm⟩
        rw [List.singleton_append, List.singleton_append, List.map_cons, List.map_cons, List.cons_prefix_cons] at hprefix
        exact (List.prefix_map_iff_of_injective fun _ _ => Seg.normal.inj).mp hprefix.2
      refine ⟨rest, fun hnil => hne ?_, by rw [hrest]; exact hwalk⟩
      rw [← hrest, hnil, List.append_nil] at h
      exact (List.append_right_eq_self.mp h.symm)

/-- The components stay in their directories exactly where the path descends whatever the root is called. -/
theorem staysIn_iff {dirs : List Str} {segs : List Seg} {path : Root → PathBuf}
    (hpath : ∀ root, Puts root dirs segs (path root)) :
    (∀ root, Descends (root.dir dirs) (path root)) ↔ StaysIn dirs segs := by
  constructor
  · intro h
    obtain ⟨fresh, hname, hfresh⟩ := exists_fresh (dirs ++ segs.filterMap fun seg => match seg with
      | .normal n => some n
      | _ => none)
    rw [List.mem_append, not_or] at hfresh
    have hsegs : .normal fresh ∉ segs := fun hmem => hfresh.2 (List.mem_filterMap.mpr ⟨_, hmem, rfl⟩)
    obtain ⟨below, hne, hbelow⟩ :=
      (hpath ⟨[fresh], by simpa using hname⟩).descends_iff.mp (h ⟨[fresh], by simpa using hname⟩)
    exact staysIn_of_foldl hsegs hfresh.1 hne hbelow
  · rintro ⟨below, hne, hwalk⟩ root
    refine (hpath root).descends_iff.mpr ⟨below.map .normal, by simpa using hne, ?_⟩
    rw [foldl_of_walk root.names hwalk]
    simp

/-! ## Entries -/

theorem puts_join {entry : Str} (root : Root) (dirs : List Str) (h : entry.head? ≠ some '/') :
    Puts root dirs (segments entry) (root.join dirs entry) := by
  unfold Root.join joinStr
  rw [if_neg h]
  exact ⟨rfl, rfl⟩

theorem head?_of_not_mem {p rest : Str} {c : Char} (h : '/' ∉ p) (hc : c ≠ '/') : (p ++ c :: rest).head? ≠ some '/' := by
  cases p with
  | nil => simpa using hc
  | cons d p => exact fun heq => h (by simp at heq; simp [heq])

theorem slash_not_mem_map (name : Str) {d : Char} (hd : d ≠ '/') :
    '/' ∉ name.map fun c => if c = '/' then d else c := by
  intro h
  obtain ⟨c, -, hc⟩ := List.mem_map.mp h
  split at hc
  · exact hd hc
  · exact absurd hc ‹_›

theorem slash_not_mem_safeVersion (version : Str) : '/' ∉ safeVersion version := by
  intro h
  obtain ⟨c, -, hc⟩ := List.mem_map.mp h
  split at hc
  · simp at hc
  · rename_i hne
    simp [hc] at hne

theorem slash_not_mem_safePkg (name : Str) : '/' ∉ safePkg name := by
  intro h
  have hmem := (List.rdropWhile_prefix _ _).subset h
  exact slash_not_mem_map name (by decide) ((List.dropWhile_suffix _).subset hmem)

/-- An entry without a separator, of more than two characters, is one component. -/
theorem segments_single {entry : Str} (hslash : '/' ∉ entry) (hlength : 2 < entry.length) :
    segments entry = [.normal entry] := by
  have hsplit : entry.splitOn '/' = [entry] := List.splitOn_eq_singleton hslash
  rw [segments_eq_map, hsplit, List.map_singleton]
  rw [hsplit]
  simp only [List.mem_singleton, forall_eq, isName, Bool.and_eq_true, Bool.not_eq_true', List.isEmpty_eq_false_iff,
    decide_eq_true_eq]
  refine ⟨⟨fun h => ?_, fun h => ?_⟩, fun h => ?_⟩ <;> simp [h] at hlength

/-! Entries with an encoded version are one component. -/

theorem descends_single {entry : Str} (hslash : '/' ∉ entry) (hsegs : segments entry = [.normal entry])
    (dirs : List Str) (project : Root) : Descends (project.dir dirs) (project.join dirs entry) := by
  have hhead : entry.head? ≠ some '/' := fun h => hslash (List.mem_of_mem_head? h)
  have hstays : StaysIn dirs (segments entry) := by
    rw [hsegs]
    exact ⟨[entry], by simp, rfl⟩
  exact (staysIn_iff fun project => puts_join project dirs hhead).mpr hstays project

theorem slash_not_mem_zeroInstallEntry (name version : Str) : '/' ∉ zeroInstallEntry name version := by
  have hname := slash_not_mem_map name (show '+' ≠ '/' by decide)
  simp [zeroInstallEntry, virtualEntryName, hname, slash_not_mem_safeVersion]

theorem slash_not_mem_cachedTarballEntry (name version : Str) : '/' ∉ cachedTarballEntry name version := by
  simp [cachedTarballEntry, slash_not_mem_safePkg, slash_not_mem_safeVersion]

theorem configDepEntry_eq (name version : Str) : configDepEntry name version = entryName name version := by
  simp [configDepEntry, entryName, virtualEntryName, safeName]

theorem cachedPathEntry_head (name version : Str) : (cachedPathEntry name version).head? ≠ some '/' := by
  unfold cachedPathEntry
  rw [List.append_assoc, List.append_assoc]
  exact head?_of_not_mem (slash_not_mem_safePkg name) (by decide)

theorem dlxEntry_head (name version : Str) : (dlxEntry name version).head? ≠ some '/' := by
  unfold dlxEntry
  rw [List.append_assoc]
  exact head?_of_not_mem (slash_not_mem_map name (by decide)) (by decide)

/-! The directory of a registry -/

theorem puts_storePackagePath (store : Root) (registry name version : Str) :
    Puts store [] (packagePath registry name version) (storePackagePath store registry name version) := by
  have hregistry : (safeRegistry registry).head? ≠ some '/' := fun h =>
    slash_not_mem_safeRegistry registry (List.mem_of_mem_head? h)
  have hentry : (safeName name ++ "@".toList ++ safeVersion version).head? ≠ some '/' := by
    rw [List.append_assoc]
    exact head?_of_not_mem (slash_not_mem_map name (by decide)) (by decide)
  refine ⟨joinStr_absolute _ _ _, ?_⟩
  unfold storePackagePath joinStr
  rw [if_neg hentry]
  simp only [(puts_join store [] hregistry).segs_eq, packagePath, List.append_assoc]

/-- The directory of a registry is one component at most, which leads out of the store if it is `..`. -/
theorem staysIn_packagePath_iff (registry name version : Str) :
    StaysIn [] (packagePath registry name version) ↔ safeRegistry registry ≠ ['.', '.'] := by
  have hentry : segments (safeName name ++ "@".toList ++ safeVersion version) = [.normal (entryName name version)] := by
    rw [← segments_entryName]
    simp [entryName]
  have hsplit : (safeRegistry registry).splitOn '/' = [safeRegistry registry] :=
    List.splitOn_eq_singleton (slash_not_mem_safeRegistry registry)
  unfold StaysIn packagePath
  rw [hentry]
  unfold segments
  rw [hsplit, List.filterMap_cons, List.filterMap_nil]
  by_cases hempty : safeRegistry registry = [] || safeRegistry registry = ['.']
  · have hne : safeRegistry registry ≠ ['.', '.'] := fun h => by simp [h] at hempty
    simp [hempty, hne, walk]
  · by_cases hdots : safeRegistry registry = ['.', '.']
    · simp [hdots, walk]
    · simp [hempty, hdots, walk]

end ThreeVa.Store
