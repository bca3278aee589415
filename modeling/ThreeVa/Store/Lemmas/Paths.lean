import ThreeVa.Lib.Words
import ThreeVa.Store.Paths

/-! Which components a package name leaves below `node_modules`, and what two keys of the content store share. -/

namespace ThreeVa.Store
open Text Permissions

/-! ## Components -/

/-- A component of a joined path that is not `.`: a name, or `..`. -/
def IsComponent : Seg → Prop
  | .curDir => False
  | .parentDir => True
  | .normal n => isName n = true

theorem isComponent_of_mem_segments {s : Str} {seg : Seg} (h : seg ∈ segments s) : IsComponent seg := by
  obtain ⟨part, -, hpart⟩ := List.mem_filterMap.mp h
  split at hpart
  · cases hpart
  · rename_i hdot
    split at hpart
    · cases hpart
      trivial
    · rename_i hdots
      cases hpart
      simp only [Bool.or_eq_true, decide_eq_true_eq, not_or] at hdot
      simp [IsComponent, isName, hdot, hdots]

theorem segments_eq_map {s : Str} (h : ∀ part ∈ s.splitOn '/', isName part = true) :
    segments s = (s.splitOn '/').map .normal := by
  unfold segments
  rw [← List.filterMap_eq_map]
  apply List.filterMap_congr
  intro part hpart
  have hname := h part hpart
  simp only [isName, Bool.and_eq_true, Bool.not_eq_true', List.isEmpty_eq_false_iff, decide_eq_true_eq] at hname
  simp [hname]

theorem foldl_pushComponent_normal (names : List Str) (out : List Seg) :
    (names.map Seg.normal).foldl pushComponent out = out ++ names.map .normal := by
  induction names generalizing out with
  | nil => simp
  | cons n names ih => simp [pushComponent, ih]

theorem isComponent_of_mem_foldl {segs out : List Seg} (hout : ∀ seg ∈ out, IsComponent seg)
    (hsegs : ∀ seg ∈ segs, IsComponent seg) : ∀ seg ∈ segs.foldl pushComponent out, IsComponent seg := by
  induction segs generalizing out with
  | nil => exact hout
  | cons seg segs ih =>
      rw [List.forall_mem_cons] at hsegs
      apply ih _ hsegs.2
      cases seg with
      | curDir => exact hout
      | parentDir =>
          change ∀ seg ∈ if out.isEmpty then [Seg.parentDir] else out.dropLast, IsComponent seg
          split
          · simp [IsComponent]
          · exact fun seg hseg => hout seg (List.mem_of_mem_dropLast hseg)
      | normal n =>
          intro seg hseg
          rcases List.mem_append.mp hseg with hold | hnew
          · exact hout seg hold
          · rw [List.mem_singleton.mp hnew]
            exact hsegs.1

/-! ## `node_modules` -/

namespace NodeModules

variable (nm : NodeModules) {name : Str}

theorem normalize_join_isComponent (name : Str) :
    ∀ seg ∈ (lexicallyNormalize (joinStr nm.path nm.path_absolute name)).segs, IsComponent seg := by
  apply isComponent_of_mem_foldl (by simp)
  unfold joinStr
  split
  · exact fun seg hseg => isComponent_of_mem_segments hseg
  · intro seg hseg
    rcases List.mem_append.mp hseg with hbase | hname
    · obtain ⟨n, hn, rfl⟩ := List.mem_map.mp hbase
      exact nm.named n hn
    · exact isComponent_of_mem_segments hname

theorem normalize_join_of_named (h : ∀ part ∈ name.splitOn '/', isName part = true) :
    (lexicallyNormalize (joinStr nm.path nm.path_absolute name)).segs = nm.path.segs ++ (name.splitOn '/').map .normal := by
  have hhead : name.head? ≠ some '/' := by
    intro hslash
    obtain ⟨rest, rfl⟩ := List.head?_eq_some_iff.mp hslash
    have hempty := h [] (by simp [List.splitOn, List.splitOnP_cons_eq_if_modifyHead])
    simp [isName] at hempty
  unfold lexicallyNormalize joinStr
  rw [if_neg hhead]
  simp only [segments_eq_map h]
  rw [List.foldl_append, path, foldl_pushComponent_normal, foldl_pushComponent_normal, List.nil_append]

end NodeModules

/-! ## Keys of the store -/

/-- The name and the version, as one component. -/
def entryName (name version : Str) : Str := safeName name ++ '@' :: safeVersion version

theorem slash_not_mem_entryName (name version : Str) : '/' ∉ entryName name version := by
  intro h
  simp only [entryName, safeName, safeVersion, List.mem_append, List.mem_cons, List.mem_map, Bool.or_eq_true,
    decide_eq_true_eq] at h
  rcases h with ⟨c, -, hc⟩ | h | ⟨c, -, hc⟩
  · split at hc
    · simp at hc
    · exact absurd hc ‹_›
  · simp at h
  · split at hc
    · simp at hc
    · rename_i hne
      exact hne (.inl hc)

theorem segments_entryName (name version : Str) : segments (entryName name version) = [.normal (entryName name version)] := by
  have hsplit : (entryName name version).splitOn '/' = [entryName name version] :=
    List.splitOn_eq_singleton (slash_not_mem_entryName name version)
  have hmem : '@' ∈ entryName name version := by simp [entryName]
  rw [segments_eq_map, hsplit, List.map_singleton]
  rw [hsplit]
  simp only [List.mem_singleton, forall_eq, isName, Bool.and_eq_true, Bool.not_eq_true', List.isEmpty_eq_false_iff,
    decide_eq_true_eq]
  exact ⟨⟨List.ne_nil_of_mem hmem, fun h => by simp [h] at hmem⟩, fun h => by simp [h] at hmem⟩

theorem slash_not_mem_safeRegistry (registry : Str) : '/' ∉ safeRegistry registry := by
  unfold safeRegistry
  generalize trimStartMatches "http://".toList (trimStartMatches "https://".toList registry) = s
  obtain ⟨w, ws, hsplit⟩ := List.exists_cons_of_ne_nil (List.splitOn_ne_nil '/' s)
  rw [hsplit, List.headD_cons]
  have hw : w ∈ s.splitOn '/' := hsplit ▸ List.mem_cons_self
  rw [List.splitOn_eq_splitOnP] at hw
  exact fun hslash => absurd ((mem_splitOnP hw).2 _ hslash) (by simp)

theorem packagePath_eq (registry name version : Str) :
    packagePath registry name version = segments (safeRegistry registry) ++ [.normal (entryName name version)] := by
  rw [← segments_entryName]
  simp [packagePath, entryName]

theorem packagePath_eq_iff {registry registry' name name' version version' : Str} :
    packagePath registry name version = packagePath registry' name' version' ↔
      segments (safeRegistry registry) = segments (safeRegistry registry') ∧
        entryName name version = entryName name' version' := by
  rw [packagePath_eq, packagePath_eq]
  constructor
  · intro h
    obtain ⟨hdir, hentry⟩ := List.append_inj' h rfl
    exact ⟨hdir, by simpa using hentry⟩
  · rintro ⟨hdir, hentry⟩
    rw [hdir, hentry]

/-- The part up to an `@` inside the first name is the second name, what follows it starts the second version. -/
def Shifted (name version name' version' : Str) : Prop :=
  ∃ m, safeName name = safeName name' ++ '@' :: m ∧ safeVersion version' = m ++ '@' :: safeVersion version

theorem entryName_eq_iff {name name' version version' : Str} :
    entryName name version = entryName name' version' ↔
      (safeName name = safeName name' ∧ safeVersion version = safeVersion version') ∨
        Shifted name version name' version' ∨ Shifted name' version' name version := by
  unfold entryName Shifted
  constructor
  · intro h
    rcases List.append_eq_append_iff.mp h with ⟨as, hname', hrest⟩ | ⟨bs, hname, hrest⟩
    · cases as with
      | nil =>
          rw [List.append_nil] at hname'
          exact .inl ⟨hname'.symm, (List.cons.inj hrest).2⟩
      | cons c as =>
          obtain ⟨rfl, hversion⟩ := List.cons.inj hrest
          exact .inr (.inr ⟨as, hname', hversion⟩)
    · cases bs with
      | nil =>
          rw [List.append_nil] at hname
          exact .inl ⟨hname, (List.cons.inj hrest).2.symm⟩
      | cons c bs =>
          obtain ⟨rfl, hversion⟩ := List.cons.inj hrest
          exact .inr (.inl ⟨bs, hname, hversion⟩)
  · rintro (⟨hname, hversion⟩ | ⟨m, hname, hversion⟩ | ⟨m, hname, hversion⟩)
    · rw [hname, hversion]
    · simp [hname, hversion]
    · simp [hname, hversion]

theorem Shifted.name_ne {name version name' version' : Str} (h : Shifted name version name' version') :
    name ≠ name' := by
  obtain ⟨m, hname, -⟩ := h
  rintro rfl
  have hlength := congrArg List.length hname
  simp at hlength

end ThreeVa.Store
