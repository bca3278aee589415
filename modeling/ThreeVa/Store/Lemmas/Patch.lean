import ThreeVa.Store.Patch

/-! What a commit finds, what applying a patch writes and removes, and when the two restore the edited tree. -/

namespace ThreeVa.Store.Patch
open Text Files

variable {order : Order} {p e : PackageTree}

theorem Order.mem_sort {rel : Path} {names : List Str} {name : Str} : name ∈ order.sort rel names ↔ name ∈ names :=
  (order.perm rel names).mem_iff

/-! ## Commits -/

def Change.path : Change → Path
  | .changed path _ => path
  | .removed path => path

/-- What is recorded: new bytes where there is no directory, and files that are gone. -/
def IsChange (p e : Listing) : Change → Prop
  | .changed q bytes => lookup e q = some bytes ∧ isDir p q = false ∧ (lookup p q).getD [] ≠ bytes
  | .removed q => (lookup p q).isSome ∧ isThere e q = false

theorem le_foldr_max {l : List Nat} {n : Nat} (h : n ∈ l) : n ≤ l.foldr max 0 := by
  induction l with
  | nil => cases h
  | cons m l ih =>
      rw [List.foldr_cons]
      rcases List.mem_cons.mp h with rfl | h
      · exact Nat.le_max_left _ _
      · exact (ih h).trans (Nat.le_max_right _ _)

theorem length_le_depth {t : Listing} {f : Path × Bytes} (h : f ∈ t) : f.1.length ≤ depth t :=
  le_foldr_max (List.mem_map_of_mem h)

theorem below_child {rel q : Path} {name : Str} (h : rel ++ [name] <+: q) : Below rel q :=
  (below_append rel name []).trans_below h

/-- The paths are short enough to be reached from `rel`. -/
def Within (t : Listing) (rel : Path) (depth : Nat) : Prop := ∀ f ∈ t, f.1.length ≤ rel.length + depth

theorem Within.child {t : Listing} {rel : Path} {depth : Nat} (h : Within t rel (depth + 1)) (name : Str) :
    Within t (rel ++ [name]) depth := by
  intro f hf
  have hlength := h f hf
  rw [List.length_append, List.length_singleton]
  omega

theorem Within.not_below {t : Listing} {rel q : Path} (h : Within t rel 0) (hbelow : Below rel q) :
    (lookup t q).isSome = false := by
  rw [Bool.eq_false_iff]
  intro hq
  obtain ⟨b, hb⟩ := lookup_isSome.mp hq
  obtain ⟨n, rest, rfl⟩ := below_iff.mp hbelow
  have hlength := h _ hb
  rw [List.length_append, List.length_cons] at hlength
  omega

theorem isThere_of_lookup {t : Listing} {q r : Path} (h : (lookup t q).isSome) (hpre : r <+: q) : isThere t r := by
  obtain ⟨b, hb⟩ := lookup_isSome.mp h
  exact isThere_iff.mpr ⟨q, b, hb, hpre⟩

theorem isDir_of_lookup {t : Listing} {q r : Path} (h : (lookup t q).isSome) (hbelow : Below r q) : isDir t r := by
  obtain ⟨b, hb⟩ := lookup_isSome.mp h
  exact isDir_of_mem hb hbelow

theorem not_isDir_of_lookup {t : Tree Str Bytes} {q : Path} (h : (lookup t.files q).isSome) :
    isDir t.files q = false := by
  obtain ⟨b, hb⟩ := Option.isSome_iff_exists.mp h
  exact t.not_isDir hb

theorem mem_collectAllFiles {c : Change} (depth : Nat) {rel : Path} (hwithin : Within p.files rel depth) :
    c ∈ collectAllFiles order p.files depth rel ↔
      ∃ q, c = .removed q ∧ Below rel q ∧ (lookup p.files q).isSome := by
  induction depth generalizing rel with
  | zero =>
      simp only [collectAllFiles, List.not_mem_nil, false_iff]
      rintro ⟨q, -, hbelow, hq⟩
      rw [hwithin.not_below hbelow] at hq
      cases hq
  | succ depth ih =>
      rw [collectAllFiles, List.mem_flatMap]
      constructor
      · rintro ⟨name, hname, hc⟩
        rw [Order.mem_sort, mem_readDir] at hname
        by_cases hdir : isDir p.files (rel ++ [name])
        · rw [if_pos hdir, ih (hwithin.child name)] at hc
          obtain ⟨q, rfl, hbelow, hq⟩ := hc
          exact ⟨q, rfl, below_child hbelow.1, hq⟩
        · rw [if_neg hdir, List.mem_singleton] at hc
          refine ⟨rel ++ [name], hc, below_append rel name [], ?_⟩
          simpa [isThere, hdir] using hname
      · rintro ⟨q, rfl, hbelow, hq⟩
        obtain ⟨name, rfl | hbelow'⟩ := hbelow.child
        · refine ⟨name, by rw [Order.mem_sort, mem_readDir]; exact isThere_of_lookup hq List.prefix_rfl, ?_⟩
          rw [not_isDir_of_lookup hq]
          exact List.mem_singleton_self _
        · refine ⟨name, by rw [Order.mem_sort, mem_readDir]; exact isThere_of_lookup hq hbelow'.1, ?_⟩
          rw [if_pos (isDir_of_lookup hq hbelow'), ih (hwithin.child name)]
          exact ⟨q, rfl, hbelow', hq⟩

/-- What is found below a directory. -/
theorem mem_diffDirs {c : Change} (depth : Nat) {rel : Path} (hp : Within p.files rel depth)
    (he : Within e.files rel depth) :
    c ∈ diffDirs order p.files e.files depth rel ↔ Below rel c.path ∧ IsChange p.files e.files c := by
  induction depth generalizing rel with
  | zero =>
      simp only [diffDirs, List.not_mem_nil, false_iff]
      rintro ⟨hbelow, hchange⟩
      cases c with
      | changed q bytes =>
          have hnone := he.not_below hbelow
          simp [hchange.1, Change.path] at hnone
      | removed q =>
          have hnone := hp.not_below hbelow
          simp [hchange.1, Change.path] at hnone
  | succ depth ih =>
      have hname : ∀ name, name ∈ order.sort rel (readDir p.files rel ++ readDir e.files rel).dedup ↔
          isThere p.files (rel ++ [name]) ∨ isThere e.files (rel ++ [name]) := by
        intro name
        rw [Order.mem_sort, List.mem_dedup, List.mem_append, mem_readDir, mem_readDir]
      rw [diffDirs, List.mem_flatMap]
      constructor
      · rintro ⟨name, hmem, hc⟩
        rw [hname] at hmem
        have hchild := below_append rel name []
        simp only at hc
        split at hc
        · split at hc
          · rw [ih (hp.child name) (he.child name)] at hc
            exact ⟨below_child hc.1.1, hc.2⟩
          · rename_i hgone
            rw [mem_collectAllFiles depth (hp.child name)] at hc
            obtain ⟨q, rfl, hbelow, hq⟩ := hc
            refine ⟨below_child hbelow.1, hq, ?_⟩
            rw [Bool.eq_false_iff]
            intro hthere
            apply hgone
            unfold isThere
            rw [isDir_of_isThere hthere hbelow, Bool.or_true]
        · rename_i hdirs
          rw [Bool.or_eq_true, not_or, Bool.not_eq_true, Bool.not_eq_true] at hdirs
          split at hc
          · rename_i hgone
            rw [Bool.not_eq_true'] at hgone
            rw [List.mem_singleton] at hc
            subst hc
            rw [hgone] at hmem
            refine ⟨hchild, ?_, hgone⟩
            simpa [isThere, hdirs.1] using hmem
          · rename_i hthere
            rw [Bool.not_eq_true', Bool.not_eq_false] at hthere
            obtain ⟨bytes, hbytes⟩ : ∃ bytes, lookup e.files (rel ++ [name]) = some bytes := by
              rw [← Option.isSome_iff_exists]
              simpa [isThere, hdirs.2] using hthere
            split at hc
            · rename_i hdiffer
              rw [List.mem_singleton] at hc
              subst hc
              rw [hbytes, Option.getD_some] at hdiffer ⊢
              exact ⟨hchild, hbytes, hdirs.1, hdiffer⟩
            · cases hc
      · rintro ⟨hbelow, hchange⟩
        obtain ⟨name, hpath⟩ := hbelow.child
        cases c with
        | changed q bytes =>
            obtain ⟨hbytes, hdir, hdiffer⟩ := hchange
            have hq : (lookup e.files q).isSome := by rw [hbytes]; rfl
            rcases hpath with rfl | hbelow'
            · refine ⟨name, (hname name).mpr (.inr (isThere_of_lookup hq List.prefix_rfl)), ?_⟩
              have hthere := isThere_of_lookup hq List.prefix_rfl
              simp only [hdir, not_isDir_of_lookup hq, hthere, hbytes, Option.getD_some, hdiffer, Bool.or_self,
                Bool.false_eq_true, Bool.not_true, ne_eq, not_false_eq_true, ↓reduceIte]
              exact List.mem_singleton_self _
            · have hdir' : isDir e.files (rel ++ [name]) := isDir_of_lookup hq hbelow'
              have hthere := isThere_of_lookup hq hbelow'.1
              refine ⟨name, (hname name).mpr (.inr hthere), ?_⟩
              simp only [hdir', hthere, Bool.or_true, ↓reduceIte]
              exact (ih (hp.child name) (he.child name)).mpr ⟨hbelow', hbytes, hdir, hdiffer⟩
        | removed q =>
            obtain ⟨hq, hgone⟩ := hchange
            rcases hpath with rfl | hbelow'
            · refine ⟨name, (hname name).mpr (.inl (isThere_of_lookup hq List.prefix_rfl)), ?_⟩
              have hdir' : isDir e.files (rel ++ [name]) = false := by
                unfold isThere at hgone
                exact (Bool.or_eq_false_iff.mp hgone).2
              simp only [not_isDir_of_lookup hq, hdir', hgone, Bool.or_self, Bool.false_eq_true, Bool.not_false, ↓reduceIte]
              exact List.mem_singleton_self _
            · refine ⟨name, (hname name).mpr (.inl (isThere_of_lookup hq hbelow'.1)), ?_⟩
              simp only [isDir_of_lookup hq hbelow', Bool.true_or, ↓reduceIte]
              split
              · exact (ih (hp.child name) (he.child name)).mpr ⟨hbelow', hq, hgone⟩
              · exact (mem_collectAllFiles depth (hp.child name)).mpr ⟨q, rfl, hbelow', hq⟩

theorem mem_diff {c : Change} : c ∈ diff order p.files e.files ↔ IsChange p.files e.files c := by
  unfold diff
  rw [mem_diffDirs]
  · refine ⟨And.right, fun hchange => ⟨?_, hchange⟩⟩
    have hne : c.path ≠ [] := by
      cases c with
      | changed q bytes => exact e.rooted _ (mem_of_lookup hchange.1)
      | removed q =>
          obtain ⟨b, hb⟩ := lookup_isSome.mp hchange.1
          exact p.rooted _ hb
    exact ⟨List.nil_prefix, hne.symm⟩
  · intro f hf
    have hlength := length_le_depth hf
    rw [List.length_nil]
    omega
  · intro f hf
    have hlength := length_le_depth hf
    rw [List.length_nil]
    omega

theorem mem_changedFiles {q : Path} {bytes : Bytes} :
    (q, bytes) ∈ changedFiles (diff order p.files e.files) ↔ IsChange p.files e.files (.changed q bytes) := by
  rw [← mem_diff ]
  unfold changedFiles
  rw [List.mem_filterMap]
  constructor
  · rintro ⟨c, hc, heq⟩
    cases c with
    | changed q' bytes' =>
        obtain ⟨rfl, rfl⟩ : q' = q ∧ bytes' = bytes := by simpa using heq
        exact hc
    | removed q' => simp at heq
  · exact fun hc => ⟨_, hc, rfl⟩

theorem mem_removedFiles {q : Path} :
    q ∈ removedFiles (diff order p.files e.files) ↔ IsChange p.files e.files (.removed q) := by
  rw [← mem_diff ]
  unfold removedFiles
  rw [List.mem_filterMap]
  constructor
  · rintro ⟨c, hc, heq⟩
    cases c with
    | changed q' bytes' => simp at heq
    | removed q' =>
        obtain rfl : q' = q := by simpa using heq
        exact hc
  · exact fun hc => ⟨_, hc, rfl⟩

theorem name_eq_of_child {rel q : Path} {a b : Str} (ha : rel ++ [a] <+: q) (hb : rel ++ [b] <+: q) : a = b := by
  have hsame : rel ++ [a] = rel ++ [b] := (List.prefix_of_prefix_length_le ha hb (by simp)).eq_of_length (by simp)
  simpa using hsame

/-- Changes found under different names have different paths. -/
theorem nodup_flatMap_path {rel : Path} {names : List Str} (hnames : names.Nodup) {f : Str → List Change}
    (hnodup : ∀ name ∈ names, ((f name).map Change.path).Nodup)
    (hpre : ∀ name ∈ names, ∀ c ∈ f name, rel ++ [name] <+: c.path) :
    ((names.flatMap f).map Change.path).Nodup := by
  rw [List.map_flatMap, List.nodup_flatMap]
  refine ⟨hnodup, hnames.imp_of_mem ?_⟩
  intro a b ha hb hne q hqa hqb
  obtain ⟨c, hc, rfl⟩ := List.mem_map.mp hqa
  obtain ⟨c', hc', heq⟩ := List.mem_map.mp hqb
  exact hne (name_eq_of_child (hpre a ha c hc) (heq ▸ hpre b hb c' hc'))

theorem Order.sort_nodup {rel : Path} {names : List Str} (h : names.Nodup) : (order.sort rel names).Nodup :=
  (order.perm rel names).nodup_iff.mpr h

theorem collectAllFiles_nodup (depth : Nat) {rel : Path} (hwithin : Within p.files rel depth) :
    ((collectAllFiles order p.files depth rel).map Change.path).Nodup := by
  induction depth generalizing rel with
  | zero => exact List.nodup_nil
  | succ depth ih =>
      rw [collectAllFiles]
      apply nodup_flatMap_path (Order.sort_nodup (readDir_nodup _ _))
      · intro name _
        split
        · exact ih (hwithin.child name)
        · exact List.nodup_singleton _
      · intro name _ c hc
        split at hc
        · obtain ⟨q, rfl, hbelow, -⟩ := (mem_collectAllFiles depth (hwithin.child name)).mp hc
          exact hbelow.1
        · rw [List.mem_singleton] at hc
          rw [hc]
          exact List.prefix_rfl

theorem diffDirs_nodup (depth : Nat) {rel : Path} (hp : Within p.files rel depth) (he : Within e.files rel depth) :
    ((diffDirs order p.files e.files depth rel).map Change.path).Nodup := by
  induction depth generalizing rel with
  | zero => exact List.nodup_nil
  | succ depth ih =>
      rw [diffDirs]
      apply nodup_flatMap_path (Order.sort_nodup (List.nodup_dedup _))
      · intro name _
        simp only
        split
        · split
          · exact ih (hp.child name) (he.child name)
          · exact collectAllFiles_nodup depth (hp.child name)
        · split
          · exact List.nodup_singleton _
          · split
            · exact List.nodup_singleton _
            · exact List.nodup_nil
      · intro name _ c hc
        simp only at hc
        split at hc
        · split at hc
          · exact ((mem_diffDirs depth (hp.child name) (he.child name)).mp hc).1.1
          · obtain ⟨q, rfl, hbelow, -⟩ := (mem_collectAllFiles depth (hp.child name)).mp hc
            exact hbelow.1
        · split at hc
          · rw [List.mem_singleton] at hc
            rw [hc]
            exact List.prefix_rfl
          · split at hc
            · rw [List.mem_singleton] at hc
              rw [hc]
              exact List.prefix_rfl
            · cases hc

theorem within_depth {t : Listing} {n : Nat} (h : depth t ≤ n) : Within t [] n := by
  intro f hf
  have hlength := length_le_depth hf
  rw [List.length_nil]
  omega

theorem removedFiles_nodup : (removedFiles (diff order p.files e.files)).Nodup := by
  have hpaths : ((diff order p.files e.files).map Change.path).Nodup :=
    diffDirs_nodup _ (within_depth (Nat.le_add_right _ _)) (within_depth (Nat.le_add_left _ _))
  refine List.Nodup.sublist ?_ hpaths
  unfold removedFiles
  generalize diff order p.files e.files = d
  induction d with
  | nil => exact List.Sublist.refl _
  | cons c d ih =>
      cases c with
      | changed q bytes => exact ih.cons _
      | removed q => exact ih.cons_cons _

/-! ## Applied files -/

namespace Dir

variable {t : Dir}

/-- A file stands where a directory would have to be. -/
def Blocked (t : Dir) (q : Path) : Prop := ∃ r, Below r q ∧ (t.file r).isSome

/-- No file stands at a directory. -/
def Proper (t : Dir) : Prop := ∀ r, (t.file r).isSome → t.dir r = false

theorem applyFile_blocked (ht : t.Proper) {q : Path} (hblocked : t.Blocked q) (bytes : Bytes) :
    t.applyFile q bytes = t := by
  obtain ⟨r, hbelow, hfile⟩ := hblocked
  have hunreachable : ¬ t.Reachable q := by
    intro hreach
    have hdir := hreach r hbelow
    rw [ht r hfile] at hdir
    cases hdir
  have hcreate : t.createDirAll q.dropLast = t := by
    unfold createDirAll
    rw [if_pos]
    rw [List.any_eq_true]
    exact ⟨r, (List.mem_inits _ _).mpr (below_dropLast.mp hbelow).2, hfile⟩
  unfold applyFile
  rw [hcreate]
  unfold removeFile
  rw [if_neg hunreachable]
  unfold write
  rw [if_neg fun h => hunreachable h.1]

theorem createDirAll_free {q : Path} (hq : q ≠ []) (hfree : ¬ t.Blocked q) :
    t.createDirAll q.dropLast = { t with dir := fun r => t.dir r || Below r q } := by
  unfold createDirAll
  rw [if_neg]
  · congr
    funext r
    have hiff : r <+: q.dropLast ↔ Below r q := by
      rw [below_dropLast]
      exact ⟨fun h => ⟨hq, h⟩, And.right⟩
    simp only [hiff]
  · rw [List.any_eq_true]
    rintro ⟨r, hr, hfile⟩
    exact hfree ⟨r, below_dropLast.mpr ⟨hq, (List.mem_inits _ _).mp hr⟩, hfile⟩

/-- The file is written unless there is a directory in its place, and the directories above it are made. -/
theorem applyFile_free (ht : t.Proper) {q : Path} (hq : q ≠ []) (hfree : ¬ t.Blocked q) (bytes : Bytes) :
    t.applyFile q bytes =
      { file := if t.dir q then t.file else Function.update t.file q (some bytes)
        dir := fun r => t.dir r || Below r q } := by
  have hself : ¬ Below q q := fun h => h.2 rfl
  unfold applyFile
  rw [createDirAll_free hq hfree]
  have hreach : Reachable { t with dir := fun r => t.dir r || Below r q } q := by
    intro r hr
    simp [hr]
  unfold removeFile
  rw [if_pos hreach]
  unfold write
  cases hdir : t.dir q with
  | true =>
      rw [if_neg (by simp [hdir])]
      have hnone : t.file q = none := by
        cases hfile : t.file q with
        | none => rfl
        | some b =>
            rw [ht q (by rw [hfile]; rfl)] at hdir
            cases hdir
      simp [← hnone]
  | false =>
      rw [if_pos ⟨hreach, by simp [hdir, hself]⟩]
      simp

theorem Proper.applyFile (ht : t.Proper) {q : Path} (hq : q ≠ []) (bytes : Bytes) : (t.applyFile q bytes).Proper := by
  by_cases hblocked : t.Blocked q
  · rw [applyFile_blocked ht hblocked]
    exact ht
  · rw [applyFile_free ht hq hblocked]
    intro r hr
    have hnot : Below r q → t.file r = none := by
      intro hbelow
      by_contra hfile
      exact hblocked ⟨r, hbelow, Option.isSome_iff_ne_none.mpr hfile⟩
    by_cases hrq : r = q
    · subst hrq
      cases hdir : t.dir r with
      | true =>
          simp only [hdir, ↓reduceIte] at hr
          rw [ht r hr] at hdir
          cases hdir
      | false => simp [hdir, Below]
    · have hfile : (t.file r).isSome := by
        cases hdir : t.dir q <;> simpa [hdir, hrq] using hr
      have hbelow : ¬ Below r q := fun h => by simp [hnot h] at hfile
      simp [ht r hfile, hbelow]

end Dir

open Dir

theorem applyFile_file_of_ne {t : Dir} (ht : t.Proper) {q q' : Path} (hq : q ≠ []) (bytes : Bytes) (hne : q' ≠ q) :
    (t.applyFile q bytes).file q' = t.file q' := by
  by_cases hblocked : t.Blocked q
  · rw [applyFile_blocked ht hblocked]
  · rw [applyFile_free ht hq hblocked]
    cases hdir : t.dir q <;> simp [hne]

theorem applyFile_dir {t : Dir} (ht : t.Proper) {q : Path} (hq : q ≠ []) (bytes : Bytes) (r : Path) :
    (t.applyFile q bytes).dir r ↔ t.dir r ∨ (¬ t.Blocked q ∧ Below r q) := by
  by_cases hblocked : t.Blocked q
  · rw [applyFile_blocked ht hblocked]
    simp [hblocked]
  · rw [applyFile_free ht hq hblocked]
    simp [hblocked]

theorem applyFile_blocked_iff {t : Dir} (ht : t.Proper) {q q' : Path} (hq : q ≠ []) (bytes : Bytes)
    (hnot : ¬ Below q q') : (t.applyFile q bytes).Blocked q' ↔ t.Blocked q' := by
  refine exists_congr fun r => and_congr_right fun hbelow => ?_
  have hne : r ≠ q := fun heq => hnot (heq ▸ hbelow)
  rw [applyFile_file_of_ne ht hq bytes hne]

/-- Files of which none stands above another, applied one after the other: each is written unless it is blocked or there is
a directory in its place. -/
theorem foldl_applyFile {L : Listing} {t : Dir} (ht : t.Proper) (hroot : ∀ f ∈ L, f.1 ≠ [])
    (hapart : ∀ f ∈ L, ∀ g ∈ L, ¬ Below f.1 g.1) (hfun : ∀ f ∈ L, ∀ g ∈ L, f.1 = g.1 → f = g) :
    (∀ f ∈ L, ¬ t.Blocked f.1 → t.dir f.1 = false → (L.foldl (fun t f => t.applyFile f.1 f.2) t).file f.1 = some f.2) ∧
      (∀ q, (∀ f ∈ L, f.1 ≠ q) ∨ t.Blocked q ∨ t.dir q → (L.foldl (fun t f => t.applyFile f.1 f.2) t).file q = t.file q) ∧
      ∀ r, (L.foldl (fun t f => t.applyFile f.1 f.2) t).dir r ↔
        t.dir r ∨ ∃ f ∈ L, ¬ t.Blocked f.1 ∧ Below r f.1 := by
  induction L generalizing t with
  | nil => simp
  | cons g L ih =>
      have hg : g.1 ≠ [] := hroot g List.mem_cons_self
      have hgapart : ∀ f ∈ L, ¬ Below g.1 f.1 := fun f hf => hapart g List.mem_cons_self f (List.mem_cons_of_mem _ hf)
      have hblocked : ∀ f ∈ L, ((t.applyFile g.1 g.2).Blocked f.1 ↔ t.Blocked f.1) :=
        fun f hf => applyFile_blocked_iff ht hg g.2 (hgapart f hf)
      obtain ⟨hwritten, hkept, hdirs⟩ := ih (ht.applyFile hg g.2) (fun f hf => hroot f (List.mem_cons_of_mem _ hf))
        (fun f hf f' hf' => hapart f (List.mem_cons_of_mem _ hf) f' (List.mem_cons_of_mem _ hf'))
        (fun f hf f' hf' => hfun f (List.mem_cons_of_mem _ hf) f' (List.mem_cons_of_mem _ hf'))
      refine ⟨?_, ?_, ?_⟩
      · intro f hf hfree hdir
        have hdir' : (t.applyFile g.1 g.2).dir f.1 = false := by
          rw [Bool.eq_false_iff, ne_eq, applyFile_dir ht hg]
          rintro (h | ⟨-, h⟩)
          · rw [hdir] at h
            cases h
          · exact hapart f hf g List.mem_cons_self h
        by_cases hmem : f ∈ L
        · exact hwritten f hmem (fun h => hfree ((hblocked f hmem).mp h)) hdir'
        · obtain rfl : f = g := (List.mem_cons.mp hf).resolve_right hmem
          rw [List.foldl_cons, hkept f.1 (.inl fun f' hf' heq => hmem (by
            rwa [← hfun f' (List.mem_cons_of_mem _ hf') f hf heq])), applyFile_free ht hg hfree]
          simp [hdir]
      · intro q hq
        rw [List.foldl_cons]
        have hsame : (t.applyFile g.1 g.2).file q = t.file q := by
          by_cases hne : q = g.1
          · rcases hq with hnone | hblockedq | hdirq
            · exact absurd hne.symm (hnone g List.mem_cons_self)
            · rw [applyFile_blocked ht (hne ▸ hblockedq)]
            · by_cases hb : t.Blocked g.1
              · rw [applyFile_blocked ht hb]
              · rw [applyFile_free ht hg hb, ← hne]
                simp [hdirq]
          · exact applyFile_file_of_ne ht hg g.2 hne
        rw [← hsame]
        apply hkept
        rcases hq with hnone | hblockedq | hdirq
        · exact .inl fun f hf => hnone f (List.mem_cons_of_mem _ hf)
        · by_cases hbelow : Below g.1 q
          · exact .inl fun f hf heq => hgapart f hf (heq ▸ hbelow)
          · exact .inr (.inl ((applyFile_blocked_iff ht hg g.2 hbelow).mpr hblockedq))
        · exact .inr (.inr ((applyFile_dir ht hg g.2 q).mpr (.inl hdirq)))
      · intro r
        rw [List.foldl_cons, hdirs, applyFile_dir ht hg, or_assoc]
        apply or_congr_right
        constructor
        · rintro (⟨hfree, hbelow⟩ | ⟨f, hf, hfree, hbelow⟩)
          · exact ⟨g, List.mem_cons_self, hfree, hbelow⟩
          · exact ⟨f, List.mem_cons_of_mem _ hf, fun h => hfree ((hblocked f hf).mpr h), hbelow⟩
        · rintro ⟨f, hf, hfree, hbelow⟩
          rcases List.mem_cons.mp hf with rfl | hf
          · exact .inl ⟨hfree, hbelow⟩
          · exact .inr ⟨f, hf, fun h => hfree ((hblocked f hf).mp h), hbelow⟩

/-- The files that `apply_patch_files` comes across, in its order. -/
def patchFiles (order : Order) (patch : Listing) : Nat → Path → Listing
  | 0, _ => []
  | depth + 1, rel =>
      (order.sort rel (readDir patch rel)).flatMap fun name =>
        if name = removedName then []
        else if isDir patch (rel ++ [name]) then patchFiles order patch depth (rel ++ [name])
        else ((lookup patch (rel ++ [name])).map fun bytes => (rel ++ [name], bytes)).toList

theorem applyPatchFiles_eq_foldl (patch : Listing) (depth : Nat) (rel : Path) (t : Dir) :
    applyPatchFiles order patch depth rel t =
      (patchFiles order patch depth rel).foldl (fun t f => t.applyFile f.1 f.2) t := by
  induction depth generalizing rel t with
  | zero => rfl
  | succ depth ih =>
      rw [applyPatchFiles, patchFiles, List.foldl_flatMap]
      congr 1
      funext t name
      by_cases hname : name = removedName
      · simp [hname]
      · simp only [hname, ↓reduceIte]
        by_cases hdir : isDir patch (rel ++ [name])
        · simp only [hdir, ↓reduceIte]
          exact ih (rel ++ [name]) t
        · simp only [hdir, Bool.false_eq_true, ↓reduceIte]
          cases lookup patch (rel ++ [name]) <;> rfl

theorem drop_child {rel q : Path} {name : Str} (h : rel ++ [name] <+: q) :
    q.drop rel.length = name :: q.drop (rel ++ [name]).length := by
  obtain ⟨rest, rfl⟩ := h
  rw [List.drop_left, List.append_assoc, List.drop_left]
  rfl

/-- They are those without a component `.removed`. -/
theorem mem_patchFiles {patch : Listing} (hapart : ∀ f ∈ patch, ∀ g ∈ patch, ¬ Below f.1 g.1) (depth : Nat) {rel : Path}
    (hwithin : Within patch rel depth) {f : Path × Bytes} :
    f ∈ patchFiles order patch depth rel ↔
      Below rel f.1 ∧ lookup patch f.1 = some f.2 ∧ removedName ∉ f.1.drop rel.length := by
  induction depth generalizing rel with
  | zero =>
      simp only [patchFiles, List.not_mem_nil, false_iff]
      rintro ⟨hbelow, hf, -⟩
      have hnone := hwithin.not_below hbelow
      rw [hf] at hnone
      cases hnone
  | succ depth ih =>
      rw [patchFiles, List.mem_flatMap]
      constructor
      · rintro ⟨name, -, hf⟩
        split at hf
        · cases hf
        · rename_i hname
          split at hf
          · obtain ⟨hbelow, hlookup, hnot⟩ := (ih (hwithin.child name)).mp hf
            refine ⟨below_child hbelow.1, hlookup, ?_⟩
            rw [drop_child hbelow.1, List.mem_cons, not_or]
            exact ⟨Ne.symm hname, hnot⟩
          · obtain ⟨bytes, hbytes, rfl⟩ := Option.map_eq_some_iff.mp (Option.mem_toList.mp hf)
            refine ⟨below_append rel name [], hbytes, ?_⟩
            rw [List.drop_left, List.mem_singleton]
            exact Ne.symm hname
      · rintro ⟨hbelow, hlookup, hnot⟩
        have hsome : (lookup patch f.1).isSome := by rw [hlookup]; rfl
        obtain ⟨name, hpath⟩ := hbelow.child
        have hpre : rel ++ [name] <+: f.1 := by
          rcases hpath with heq | hbelow'
          · rw [heq]
          · exact hbelow'.1
        rw [drop_child hpre, List.mem_cons, not_or] at hnot
        refine ⟨name, by rw [Order.mem_sort, mem_readDir]; exact isThere_of_lookup hsome hpre, ?_⟩
        rw [if_neg (Ne.symm hnot.1)]
        rcases hpath with heq | hbelow'
        · have hdir : isDir patch (rel ++ [name]) = false := by
            rw [Bool.eq_false_iff]
            intro hdir
            obtain ⟨q, b, hq, hqbelow⟩ := isDir_iff.mp hdir
            exact hapart f (mem_of_lookup hlookup) (q, b) hq (heq ▸ hqbelow)
          rw [if_neg (by simp [hdir]), ← heq, hlookup]
          simp
        · rw [if_pos (isDir_of_lookup hsome hbelow')]
          exact (ih (hwithin.child name)).mpr ⟨hbelow', hlookup, hnot.2⟩

/-! ## Removed files -/

theorem foldl_removeFile (paths : List Path) (t : Dir) :
    (∀ q, (paths.foldl Dir.removeFile t).file q = if q ∈ paths ∧ t.Reachable q then none else t.file q) ∧
      (paths.foldl Dir.removeFile t).dir = t.dir := by
  induction paths generalizing t with
  | nil => simp
  | cons path paths ih =>
      have hdir : (t.removeFile path).dir = t.dir := by
        unfold Dir.removeFile
        split <;> rfl
      have hreach : ∀ q, (t.removeFile path).Reachable q ↔ t.Reachable q := by
        intro q
        unfold Dir.Reachable
        rw [hdir]
      obtain ⟨hfile, hdirs⟩ := ih (t.removeFile path)
      refine ⟨fun q => ?_, hdirs.trans hdir⟩
      rw [List.foldl_cons, hfile, if_congr (and_congr_right fun _ => hreach q) rfl rfl]
      by_cases hq : t.Reachable q
      · by_cases hmem : q ∈ paths
        · simp [hmem, hq]
        · by_cases heq : q = path
          · subst heq
            simp [hmem, hq, Dir.removeFile]
          · have hsame : (t.removeFile path).file q = t.file q := by
              unfold Dir.removeFile
              split <;> simp [heq]
            simp [hmem, heq, hsame]
      · have hsame : (t.removeFile path).file q = t.file q := by
          unfold Dir.removeFile
          split
          · rename_i hpath
            have hne : q ≠ path := fun heq => hq (heq ▸ hpath)
            simp [hne]
          · rfl
        simp [hq, hsame]

/-! ## Texts of paths -/

/-- A path as it is in a package. -/
def ValidPath (q : Path) : Prop := q ≠ [] ∧ ∀ name ∈ q, ValidName name

theorem toText_eq {q : Path} (hq : ∀ name ∈ q, ValidName name) : toText q = ['/'].intercalate q := by
  unfold toText
  have hsame : ∀ c ∈ ['/'].intercalate q, (if c = '\\' then '/' else c) = c := by
    intro c hc
    rw [if_neg]
    rintro rfl
    rcases mem_intercalate hc with h | ⟨name, hname, h⟩
    · cases h
    · exact (hq name hname).2.2.2.2.2 h
  rw [List.map_congr_left hsame, List.map_id']

/-- The components of a text without a leading slash. -/
theorem lineComponents_intercalate {l : Path} (hne : l ≠ []) (hl : ∀ name ∈ l, '/' ∉ name)
    {q : Path} (h : lineComponents (['/'].intercalate l) = some q) : q = l.filter fun c => c ≠ [] ∧ c ≠ ['.'] := by
  unfold lineComponents at h
  rw [List.splitOn_intercalate '/' hl hne] at h
  split at h
  · cases h
  · exact (Option.some.inj h).symm

theorem head?_intercalate {l : Path} (hl : ∀ name ∈ l, name ≠ [] ∧ '/' ∉ name) :
    (['/'].intercalate l).head? ≠ some '/' := by
  cases l with
  | nil => simp
  | cons name l =>
      obtain ⟨hne, hno⟩ := hl name List.mem_cons_self
      obtain ⟨c, cs, rfl⟩ := List.exists_cons_of_ne_nil hne
      rw [List.mem_cons, not_or] at hno
      cases l with
      | nil => simpa using Ne.symm hno.1
      | cons name' l => simpa [List.intercalate_cons_cons] using Ne.symm hno.1

theorem filter_valid {q : Path} (hq : ∀ name ∈ q, ValidName name) :
    (q.filter fun c => c ≠ [] ∧ c ≠ ['.']) = q := by
  rw [List.filter_eq_self]
  intro name hname
  have hvalid := hq name hname
  simp [hvalid.1, hvalid.2.1]

theorem lineComponents_toText {q : Path} (hq : ValidPath q) : lineComponents (toText q) = some q := by
  rw [toText_eq hq.2]
  unfold lineComponents
  rw [List.splitOn_intercalate '/' (fun name hname => (hq.2 name hname).2.2.2.1) hq.1, filter_valid hq.2, if_neg]
  rw [not_or]
  exact ⟨head?_intercalate fun name hname => ⟨(hq.2 name hname).1, (hq.2 name hname).2.2.2.1⟩,
    fun hmem => (hq.2 _ hmem).2.2.1 rfl⟩

/-- Only the text of a path that ends with a carriage return loses it. -/
theorem stripCr_toText {q : Path} (hq : ValidPath q) :
    (¬ EndsCr q → stripCr (toText q) = toText q) ∧
      ∀ above name, q = above ++ [name ++ ['\r']] → stripCr (toText q) = ['/'].intercalate (above ++ [name]) := by
  rw [toText_eq hq.2]
  constructor
  · intro hnot
    obtain ⟨above, name, rfl⟩ : ∃ above name, q = above ++ [name] := by
      rcases List.eq_nil_or_concat q with rfl | ⟨above, name, rfl⟩
      · exact absurd rfl hq.1
      · exact ⟨above, name, by rw [List.concat_eq_append]⟩
    unfold stripCr
    rw [if_neg]
    intro hlast
    have hname : name ≠ [] := (hq.2 name (by simp)).1
    rcases List.eq_nil_or_concat name with rfl | ⟨front, c, rfl⟩
    · exact hname rfl
    · rw [List.concat_eq_append, intercalate_concat_append, List.getLast?_concat, Option.some.injEq] at hlast
      subst hlast
      exact hnot ⟨above, front, by rw [List.concat_eq_append]⟩
  · rintro above name rfl
    rw [intercalate_concat_append, stripCr_append_cr]

/-- The paths that the loop over `.removed` takes from a text. -/
def linePaths (text : Str) : List Path := ((lines text).filter fun l => !l.isEmpty).filterMap lineComponents

theorem toText_ne_nil {q : Path} (hq : ValidPath q) : toText q ≠ [] := by
  intro hnil
  have hcomponents := lineComponents_toText hq
  rw [hnil] at hcomponents
  obtain rfl : [] = q := by simpa [lineComponents] using hcomponents
  exact hq.1 rfl

theorem newline_not_mem_toText {q : Path} (hq : ValidPath q) : '\n' ∉ toText q := by
  rw [toText_eq hq.2]
  intro hmem
  rcases mem_intercalate hmem with h | ⟨name, hname, h⟩
  · cases h
  · exact (hq.2 name hname).2.2.2.2.1 h

theorem lines_removed {R : List Path} (hR : ∀ q ∈ R, ValidPath q) :
    lines (joinLines (R.map toText)) =
      R.dropLast.map (fun q => stripCr (toText q)) ++ R.getLast?.toList.map toText := by
  rw [lines_joinLines]
  · rw [← List.map_dropLast, List.map_map, List.getLast?_map]
    cases R.getLast? <;> rfl
  · intro l hl
    obtain ⟨q, hq, rfl⟩ := List.mem_map.mp hl
    exact ⟨newline_not_mem_toText (hR q hq), toText_ne_nil (hR q hq)⟩

theorem dropLast_append_getLast?_toList {α : Type} (l : List α) : l.dropLast ++ l.getLast?.toList = l := by
  rcases List.eq_nil_or_concat l with rfl | ⟨l, a, rfl⟩
  · rfl
  · simp

theorem linePaths_removed {R : List Path} (hR : ∀ q ∈ R, ValidPath q) (hcr : ∀ q ∈ R.dropLast, ¬ EndsCr q) :
    linePaths (joinLines (R.map toText)) = R := by
  have hlines : lines (joinLines (R.map toText)) = R.map toText := by
    rw [lines_removed hR]
    have hkept : R.dropLast.map (fun q => stripCr (toText q)) = R.dropLast.map toText :=
      List.map_congr_left fun q hq => (stripCr_toText (hR q (List.mem_of_mem_dropLast hq))).1 (hcr q hq)
    rw [hkept, ← List.map_append, dropLast_append_getLast?_toList]
  unfold linePaths
  rw [hlines, List.filter_eq_self.mpr]
  · rw [List.filterMap_map]
    have hself : ∀ q ∈ R, (lineComponents ∘ toText) q = some q := fun q hq => lineComponents_toText (hR q hq)
    clear hlines hcr
    induction R with
    | nil => rfl
    | cons q R ih =>
        rw [List.filterMap_cons, hself q List.mem_cons_self]
        simp only [List.cons.injEq, true_and]
        exact ih (fun x hx => hR x (List.mem_cons_of_mem _ hx)) fun x hx => hself x (List.mem_cons_of_mem _ hx)
  · intro l hl
    obtain ⟨q, hq, rfl⟩ := List.mem_map.mp hl
    simpa using toText_ne_nil (hR q hq)

/-- What a line takes the place of: itself, or the path without its carriage return. -/
theorem mem_linePaths {R : List Path} (hR : ∀ q ∈ R, ValidPath q) {q : Path}
    (h : q ∈ linePaths (joinLines (R.map toText))) :
    q ∈ R.getLast? ∨ (q ∈ R.dropLast ∧ ¬ EndsCr q) ∨
      ∃ z ∈ R.dropLast, ∃ above name, z = above ++ [name ++ ['\r']] ∧
        q = (above ++ [name]).filter fun c => c ≠ [] ∧ c ≠ ['.'] := by
  unfold linePaths at h
  obtain ⟨line, hline, hq⟩ := List.mem_filterMap.mp h
  have hmem := (List.mem_filter.mp hline).1
  rw [lines_removed hR, List.mem_append, List.mem_map, List.mem_map] at hmem
  rcases hmem with ⟨z, hz, rfl⟩ | ⟨z, hz, rfl⟩
  · have hvalid := hR z (List.mem_of_mem_dropLast hz)
    by_cases hcr : EndsCr z
    · obtain ⟨above, name, rfl⟩ := hcr
      rw [(stripCr_toText hvalid).2 above name rfl] at hq
      refine .inr (.inr ⟨_, hz, above, name, rfl, lineComponents_intercalate (by simp) ?_ hq⟩)
      intro n hn
      rcases List.mem_append.mp hn with hn | hn
      · exact (hvalid.2 n (List.mem_append_left _ hn)).2.2.2.1
      · rw [List.mem_singleton] at hn
        subst hn
        have hslash := (hvalid.2 (n ++ ['\r']) (by simp)).2.2.2.1
        exact fun hmem => hslash (List.mem_append_left _ hmem)
    · rw [(stripCr_toText hvalid).1 hcr, lineComponents_toText hvalid, Option.some.injEq] at hq
      exact .inr (.inl ⟨hq ▸ hz, hq ▸ hcr⟩)
  · rw [Option.mem_toList] at hz
    rw [lineComponents_toText (hR z (List.mem_of_getLast? hz)), Option.some.injEq] at hq
    exact .inl (hq ▸ hz)

/-- A path that ends with a carriage return and is not the last loses it, and then some path is not removed: it could only
be removed by a longer such path. -/
theorem exists_not_mem_linePaths {R : List Path} (hR : ∀ q ∈ R, ValidPath q) (hnodup : R.Nodup)
    (hapart : ∀ q ∈ R, ∀ q' ∈ R, ¬ Below q q') {q : Path} (hq : q ∈ R.dropLast) (hcr : EndsCr q) :
    ∃ q' ∈ R, q' ∉ linePaths (joinLines (R.map toText)) := by
  by_contra hall
  have hlines : ∀ q' ∈ R, q' ∈ linePaths (joinLines (R.map toText)) := by simpa using hall
  have hlonger : ∀ y ∈ R.dropLast, EndsCr y → ∃ z ∈ R.dropLast, EndsCr z ∧ (toText y).length < (toText z).length := by
    intro y hy hycr
    have hyR := List.mem_of_mem_dropLast hy
    rcases mem_linePaths hR (hlines y hyR) with hlast | ⟨-, hnot⟩ | ⟨z, hz, above, name, rfl, hyz⟩
    · exfalso
      rw [← dropLast_append_getLast?_toList R] at hnodup
      exact List.disjoint_of_nodup_append hnodup hy (Option.mem_toList.mpr hlast)
    · exact absurd hycr hnot
    · have hzR := List.mem_of_mem_dropLast hz
      have hvalid := hR _ hzR
      have habove : (above.filter fun c => c ≠ [] ∧ c ≠ ['.']) = above :=
        filter_valid fun n hn => hvalid.2 n (List.mem_append_left _ hn)
      rw [List.filter_append, habove] at hyz
      by_cases hname : name ≠ [] ∧ name ≠ ['.']
      · rw [List.filter_singleton, decide_eq_true hname] at hyz
        refine ⟨_, hz, ⟨above, name, rfl⟩, ?_⟩
        rw [toText_eq hvalid.2, toText_eq (hR y hyR).2, hyz, intercalate_concat_append]
        simp
      · rw [List.filter_singleton, decide_eq_false hname] at hyz
        exfalso
        apply hapart y hyR _ hzR
        rw [hyz]
        simpa using below_append above (name ++ ['\r']) []
  have hunbounded : ∀ k, ∃ z ∈ R.dropLast, EndsCr z ∧ k ≤ (toText z).length := by
    intro k
    induction k with
    | zero => exact ⟨q, hq, hcr, Nat.zero_le _⟩
    | succ k ih =>
        obtain ⟨y, hy, hycr, hk⟩ := ih
        obtain ⟨z, hz, hzcr, hless⟩ := hlonger y hy hycr
        exact ⟨z, hz, hzcr, by omega⟩
  obtain ⟨z, hz, -, hk⟩ := hunbounded ((R.map fun z => (toText z).length).foldr max 0 + 1)
  have hle := le_foldr_max (List.mem_map_of_mem (f := fun z => (toText z).length) (List.mem_of_mem_dropLast hz))
  omega

/-! ## The patch directory -/

variable {applyOrder : Order} {name : Str}

theorem lookup_changedFiles (order : Order) {q : Path} {bytes : Bytes} :
    lookup (changedFiles (diff order p.files e.files)) q = some bytes ↔ IsChange p.files e.files (.changed q bytes) := by
  constructor
  · exact fun h => mem_changedFiles.mp (mem_of_lookup h)
  · intro h
    obtain ⟨bytes', hbytes'⟩ := Option.isSome_iff_exists.mp (lookup_isSome.mpr ⟨bytes, mem_changedFiles.mpr h⟩)
    have h' := mem_changedFiles.mp (mem_of_lookup hbytes')
    rw [hbytes', ← h'.1, h.1]

/-- The patch directory holds the changed files, except at `.removed`. -/
theorem patch_cases (order : Order) (name : Str) (p e : PackageTree) :
    (patchCommit order name p.files e.files).2 = changedFiles (diff order p.files e.files) ∨
      (isDir (changedFiles (diff order p.files e.files)) [removedName] = false ∧
        (patchCommit order name p.files e.files).2 =
          (changedFiles (diff order p.files e.files)).filter (fun f => f.1 ≠ [removedName]) ++
            [([removedName], encodeUtf8 (joinLines ((removedFiles (diff order p.files e.files)).map toText)))]) := by
  unfold patchCommit
  simp only
  split
  · split <;> exact .inl rfl
  · split
    · exact .inl rfl
    · rename_i hdir
      exact .inr ⟨by simpa using hdir, rfl⟩

theorem mem_patch {f : Path × Bytes} (hf : f ∈ (patchCommit order name p.files e.files).2) :
    IsChange p.files e.files (.changed f.1 f.2) ∨
      (f.1 = [removedName] ∧ isDir (changedFiles (diff order p.files e.files)) [removedName] = false) := by
  rcases patch_cases order name p e with heq | ⟨hdir, heq⟩
  · rw [heq] at hf
    exact .inl (mem_changedFiles.mp hf)
  · rw [heq, List.mem_append, List.mem_singleton] at hf
    rcases hf with hf | rfl
    · exact .inl (mem_changedFiles.mp (List.mem_filter.mp hf).1)
    · exact .inr ⟨rfl, hdir⟩

theorem lookup_patch {q : Path} {bytes : Bytes} (hq : removedName ∉ q) :
    lookup (patchCommit order name p.files e.files).2 q = some bytes ↔ IsChange p.files e.files (.changed q bytes) := by
  have hne : q ≠ [removedName] := by
    rintro rfl
    exact hq (List.mem_singleton_self _)
  rcases patch_cases order name p e with heq | ⟨-, heq⟩
  · rw [heq, lookup_changedFiles]
  · rw [heq, lookup_replace hne, lookup_changedFiles]

theorem not_changed {q : Path} (h : lookup e.files q = none) (bytes : Bytes) :
    ¬ IsChange p.files e.files (.changed q bytes) := by
  intro hchange
  have hbytes := hchange.1
  rw [h] at hbytes
  cases hbytes

theorem rooted_of_isChange {q : Path} {bytes : Bytes} (h : IsChange p.files e.files (.changed q bytes)) : q ≠ [] :=
  e.rooted _ (mem_of_lookup h.1)

theorem patch_apart : ∀ f ∈ (patchCommit order name p.files e.files).2,
    ∀ g ∈ (patchCommit order name p.files e.files).2, ¬ Below f.1 g.1 := by
  intro f hf g hg hbelow
  rcases mem_patch hf with hf | ⟨hf, hdir⟩
  · rcases mem_patch hg with hg | ⟨hg, -⟩
    · exact e.apart (f.1, f.2) (mem_of_lookup hf.1) (g.1, g.2) (mem_of_lookup hg.1) hbelow
    · rw [hg, below_dropLast] at hbelow
      exact rooted_of_isChange hf (List.prefix_nil.mp hbelow.2)
  · rcases mem_patch hg with hg | ⟨hg, -⟩
    · rw [isDir_of_mem (mem_changedFiles.mpr hg) (hf ▸ hbelow)] at hdir
      cases hdir
    · rw [hf, hg] at hbelow
      exact hbelow.2 rfl

/-! ## The round trip -/

theorem copyOf_proper : (Dir.copyOf p.files).Proper := by
  intro r hr
  obtain ⟨b, hb⟩ := lookup_isSome.mp hr
  have hne : r ≠ [] := p.rooted _ hb
  simp [Dir.copyOf, hne, not_isDir_of_lookup hr]

/-- The package with the files of the patch, before any are removed. -/
def applied (order applyOrder : Order) (name : Str) (p e : PackageTree) : Dir :=
  applyPatchFiles applyOrder (patchCommit order name p.files e.files).2
    (depth (patchCommit order name p.files e.files).2) [] (.copyOf p.files)

/-- The changed files are written, unless they have a component `.removed` or are blocked. -/
theorem applied_spec (order applyOrder : Order) (name : Str) (p e : PackageTree) :
    (∀ q bytes, IsChange p.files e.files (.changed q bytes) → removedName ∉ q → ¬ (Dir.copyOf p.files).Blocked q →
        (applied order applyOrder name p e).file q = some bytes) ∧
      (∀ q, (∀ bytes, ¬ IsChange p.files e.files (.changed q bytes)) ∨ removedName ∈ q ∨
          (Dir.copyOf p.files).Blocked q → (applied order applyOrder name p e).file q = lookup p.files q) ∧
      ∀ r, (applied order applyOrder name p e).dir r ↔ (Dir.copyOf p.files).dir r ∨
        ∃ q bytes, IsChange p.files e.files (.changed q bytes) ∧ removedName ∉ q ∧
          ¬ (Dir.copyOf p.files).Blocked q ∧ Below r q := by
  have hmem : ∀ f, f ∈ patchFiles applyOrder (patchCommit order name p.files e.files).2
      (depth (patchCommit order name p.files e.files).2) [] ↔
        IsChange p.files e.files (.changed f.1 f.2) ∧ removedName ∉ f.1 := by
    intro f
    rw [mem_patchFiles patch_apart _ (within_depth (Nat.le_refl _)), List.length_nil, List.drop_zero]
    constructor
    · rintro ⟨-, hlookup, hnot⟩
      exact ⟨(lookup_patch hnot).mp hlookup, hnot⟩
    · rintro ⟨hchange, hnot⟩
      exact ⟨⟨List.nil_prefix, (rooted_of_isChange hchange).symm⟩, (lookup_patch hnot).mpr hchange, hnot⟩
  obtain ⟨hwritten, hkept, hdirs⟩ := foldl_applyFile (copyOf_proper (p := p))
    (fun f hf => rooted_of_isChange ((hmem f).mp hf).1)
    (fun f hf g hg => e.apart (f.1, f.2) (mem_of_lookup ((hmem f).mp hf).1.1) (g.1, g.2)
      (mem_of_lookup ((hmem g).mp hg).1.1))
    (fun f hf g hg heq => Prod.ext heq (by
      have hbytes := ((hmem f).mp hf).1.1
      rw [heq, ((hmem g).mp hg).1.1] at hbytes
      exact (Option.some.inj hbytes).symm))
  unfold applied
  rw [applyPatchFiles_eq_foldl]
  refine ⟨?_, ?_, ?_⟩
  · intro q bytes hchange hnot hfree
    apply hwritten (q, bytes) ((hmem _).mpr ⟨hchange, hnot⟩) hfree
    simp [Dir.copyOf, rooted_of_isChange hchange, hchange.2.1]
  · intro q hq
    apply hkept
    rcases hq with hnone | hreserved | hblocked
    · exact .inl fun f hf heq => hnone f.2 (heq ▸ ((hmem f).mp hf).1)
    · exact .inl fun f hf heq => ((hmem f).mp hf).2 (heq ▸ hreserved)
    · exact .inr (.inl hblocked)
  · intro r
    rw [hdirs]
    apply or_congr_right
    constructor
    · rintro ⟨f, hf, hfree, hbelow⟩
      exact ⟨f.1, f.2, ((hmem f).mp hf).1, ((hmem f).mp hf).2, hfree, hbelow⟩
    · rintro ⟨q, bytes, hchange, hnot, hfree, hbelow⟩
      exact ⟨(q, bytes), (hmem _).mpr ⟨hchange, hnot⟩, hfree, hbelow⟩

/-- The paths that `.removed` lists. -/
def removedPaths (patch : Listing) : List Path := ((lookup patch [removedName]).bind decodeUtf8).elim [] linePaths

theorem applyRemoved_eq_foldl (patch : Listing) (t : Dir) :
    applyRemoved patch t = (removedPaths patch).foldl Dir.removeFile t := by
  unfold applyRemoved removedPaths
  cases (lookup patch [removedName]).bind decodeUtf8 with
  | none => rfl
  | some text =>
      simp only [Option.elim_some, linePaths]
      rw [List.foldl_filterMap]
      congr 1
      funext t line
      cases lineComponents line <;> rfl

theorem roundTrip_spec (order applyOrder : Order) (name : Str) (p e : PackageTree) :
    (∀ q, (roundTrip order applyOrder name p.files e.files).file q =
        if q ∈ removedPaths (patchCommit order name p.files e.files).2 ∧ (applied order applyOrder name p e).Reachable q
        then none else (applied order applyOrder name p e).file q) ∧
      (roundTrip order applyOrder name p.files e.files).dir = (applied order applyOrder name p e).dir := by
  unfold roundTrip applyPatch
  rw [applyRemoved_eq_foldl]
  exact foldl_removeFile _ _

theorem validPath_of_isChange {q : Path} (h : IsChange p.files e.files (.removed q)) : ValidPath q := by
  obtain ⟨b, hb⟩ := lookup_isSome.mp h.1
  exact ⟨p.rooted _ hb, p.valid _ hb⟩

/-- If no changed file is reserved, `.removed` lists the files that are gone. -/
theorem removedPaths_patch (hunreserved : ∀ q bytes, IsChange p.files e.files (.changed q bytes) → removedName ∉ q) :
    removedPaths (patchCommit order name p.files e.files).2 =
      linePaths (joinLines ((removedFiles (diff order p.files e.files)).map toText)) := by
  have hnone : lookup (changedFiles (diff order p.files e.files)) [removedName] = none := by
    cases hlookup : lookup (changedFiles (diff order p.files e.files)) [removedName] with
    | none => rfl
    | some bytes =>
        exact absurd (List.mem_singleton_self _) (hunreserved _ bytes ((lookup_changedFiles order).mp hlookup))
  have hdir : isDir (changedFiles (diff order p.files e.files)) [removedName] = false := by
    rw [Bool.eq_false_iff]
    intro hdir
    obtain ⟨q, bytes, hq, hbelow⟩ := isDir_iff.mp hdir
    exact hunreserved q bytes (mem_changedFiles.mp hq) (hbelow.1.subset (List.mem_singleton_self _))
  unfold patchCommit removedPaths
  simp only
  by_cases hempty : removedFiles (diff order p.files e.files) = []
  · rw [if_pos hempty, hempty]
    split <;> rw [hnone] <;> rfl
  · rw [if_neg hempty, if_neg (by simp [hdir])]
    simp only
    rw [lookup_replaced, Option.bind_some, decodeUtf8_encodeUtf8]
    rfl

theorem unreserved_of_restorable (h : Restorable p.files e.files) {q : Path} {bytes : Bytes}
    (hchange : IsChange p.files e.files (.changed q bytes)) : removedName ∉ q := by
  apply h.unreserved q bytes hchange.1
  intro hsame
  exact hchange.2.2 (by rw [hsame, Option.getD_some])

/-- If a path that is gone ends with a carriage return, it is the only one, and the last of the list. -/
theorem removedPaths_of_restorable (h : Restorable p.files e.files) :
    removedPaths (patchCommit order name p.files e.files).2 = removedFiles (diff order p.files e.files) := by
  rw [removedPaths_patch fun q bytes => unreserved_of_restorable h]
  apply linePaths_removed fun q hq => validPath_of_isChange (mem_removedFiles.mp hq)
  intro q hq hcr
  have hnodup : (removedFiles (diff order p.files e.files)).Nodup := removedFiles_nodup
  have hall : ∀ q' ∈ removedFiles (diff order p.files e.files), q' = q := fun q' hq' =>
    h.returns q q' (mem_removedFiles.mp (List.mem_of_mem_dropLast hq)) (mem_removedFiles.mp hq') hcr
  generalize removedFiles (diff order p.files e.files) = R at hq hnodup hall
  match R with
  | [] => cases hq
  | [x] => cases hq
  | x :: y :: R =>
      have hxy : x = y := (hall x (by simp)).trans (hall y (by simp)).symm
      simp [hxy] at hnodup

theorem not_blocked_of_restorable (h : Restorable p.files e.files) {q : Path} {bytes : Bytes}
    (hq : lookup e.files q = some bytes) : ¬ (Dir.copyOf p.files).Blocked q := by
  rintro ⟨r, hbelow, hfile⟩
  have hdir := h.noDirForFile r hfile
  rw [isDir_of_mem (mem_of_lookup hq) hbelow] at hdir
  cases hdir

/-- A file of the edited tree is a changed one, or is in the pristine tree with the same bytes. -/
theorem changed_or_same (h : Restorable p.files e.files) {q : Path} {bytes : Bytes} (hq : lookup e.files q = some bytes) :
    IsChange p.files e.files (.changed q bytes) ∨ lookup p.files q = some bytes := by
  by_cases hsame : lookup p.files q = some bytes
  · exact .inr hsame
  · refine .inl ⟨hq, h.noFileForDir q (by rw [hq]; rfl), ?_⟩
    cases hp : lookup p.files q with
    | some bytes' =>
        rw [hp] at hsame
        simpa using hsame
    | none =>
        rintro rfl
        have hsome := h.filled q hq
        rw [hp] at hsome
        cases hsome

/-- A restorable tree is restored, file by file. -/
theorem roundTrip_file (h : Restorable p.files e.files) (q : Path) :
    (roundTrip order applyOrder name p.files e.files).file q = lookup e.files q := by
  obtain ⟨hwritten, hkept, hdirs⟩ := applied_spec order applyOrder name p e
  rw [(roundTrip_spec order applyOrder name p e).1, removedPaths_of_restorable h]
  cases hq : lookup e.files q with
  | some bytes =>
      have hthere : isThere e.files q := isThere_of_lookup (by rw [hq]; rfl) List.prefix_rfl
      rw [if_neg fun hgone => by simp [(mem_removedFiles.mp hgone.1).2] at hthere]
      by_cases hchange : IsChange p.files e.files (.changed q bytes)
      · exact hwritten q bytes hchange (unreserved_of_restorable h hchange) (not_blocked_of_restorable h hq)
      · rw [hkept q (.inl fun bytes' hchange' => hchange (by
          rw [show bytes = bytes' from Option.some.inj (hq.symm.trans hchange'.1)]
          exact hchange'))]
        exact (changed_or_same h hq).resolve_left hchange
  | none =>
      have hsame : (applied order applyOrder name p e).file q = lookup p.files q := hkept q (.inl (not_changed hq))
      cases hp : lookup p.files q with
      | none => rw [hsame, hp, ite_self]
      | some bytes =>
          have hsome : (lookup p.files q).isSome := by rw [hp]; rfl
          have hgone : IsChange p.files e.files (.removed q) := by
            refine ⟨hsome, ?_⟩
            unfold isThere
            rw [hq, h.noDirForFile q hsome]
            rfl
          have hreach : (applied order applyOrder name p e).Reachable q := by
            intro r hbelow
            rw [hdirs]
            left
            simp [Dir.copyOf, isDir_of_lookup hsome hbelow]
          rw [if_pos ⟨mem_removedFiles.mpr hgone, hreach⟩]

/-- The directories are those of both trees. -/
theorem roundTrip_dir (h : Restorable p.files e.files) {r : Path} (hr : r ≠ []) :
    (roundTrip order applyOrder name p.files e.files).dir r ↔ isDir p.files r ∨ isDir e.files r := by
  obtain ⟨-, -, hdirs⟩ := applied_spec order applyOrder name p e
  have hcopy : (Dir.copyOf p.files).dir r = isDir p.files r := by simp [Dir.copyOf, hr]
  rw [(roundTrip_spec order applyOrder name p e).2, hdirs, hcopy]
  constructor
  · rintro (hdir | ⟨q, bytes, hchange, -, -, hbelow⟩)
    · exact .inl hdir
    · exact .inr (isDir_of_mem (mem_of_lookup hchange.1) hbelow)
  · rintro (hdir | hdir)
    · exact .inl hdir
    · obtain ⟨q, bytes, hq, hbelow⟩ := isDir_iff.mp hdir
      have hlookup := e.lookup_eq_some.mpr hq
      rcases changed_or_same h hlookup with hchange | hsame
      · exact .inr ⟨q, bytes, hchange, unreserved_of_restorable h hchange, not_blocked_of_restorable h hlookup, hbelow⟩
      · exact .inl (isDir_of_mem (mem_of_lookup hsame) hbelow)

/-! ## Trees that are not restored -/

/-- The order in which a directory lists the way to a path first. -/
def firstOrder (q : Path) : Order where
  sort := fun rel names =>
    match nameBelow rel q with
    | some n => if n ∈ names then n :: names.erase n else names
    | none => names
  perm := by
    intro rel names
    split
    · split
      · rename_i hmem
        exact (List.perm_cons_erase hmem).symm
      · exact .refl _
    · exact .refl _

theorem firstOrder_sort {q rel : Path} {n : Str} (hn : rel ++ [n] <+: q) {names : List Str} (hmem : n ∈ names) :
    (firstOrder q).sort rel names = n :: names.erase n := by
  unfold firstOrder
  simp only [nameBelow_eq_some.mpr hn, hmem, ↓reduceIte]

theorem collectAllFiles_head {q : Path} (hq : (lookup p.files q).isSome) (depth : Nat) {rel : Path}
    (hwithin : Within p.files rel depth) (hbelow : Below rel q) :
    ∃ rest, collectAllFiles (firstOrder q) p.files depth rel = .removed q :: rest := by
  induction depth generalizing rel with
  | zero =>
      rw [hwithin.not_below hbelow] at hq
      cases hq
  | succ depth ih =>
      obtain ⟨n, hpath⟩ := hbelow.child
      rcases hpath with rfl | hbelow'
      · rw [collectAllFiles, firstOrder_sort List.prefix_rfl (mem_readDir.mpr (isThere_of_lookup hq List.prefix_rfl)),
          List.flatMap_cons, not_isDir_of_lookup hq]
        exact ⟨_, rfl⟩
      · rw [collectAllFiles, firstOrder_sort hbelow'.1 (mem_readDir.mpr (isThere_of_lookup hq hbelow'.1)),
          List.flatMap_cons, if_pos (isDir_of_lookup hq hbelow')]
        obtain ⟨rest, hrest⟩ := ih (hwithin.child n) hbelow'
        rw [hrest]
        exact ⟨_, rfl⟩

theorem diffDirs_head {q : Path} (hq : IsChange p.files e.files (.removed q)) (depth : Nat) {rel : Path}
    (hwithin : Within p.files rel depth) (hbelow : Below rel q) :
    ∃ rest, diffDirs (firstOrder q) p.files e.files depth rel = .removed q :: rest := by
  obtain ⟨hsome, hgone⟩ := hq
  induction depth generalizing rel with
  | zero =>
      rw [hwithin.not_below hbelow] at hsome
      cases hsome
  | succ depth ih =>
      obtain ⟨n, hpath⟩ := hbelow.child
      have hpre : rel ++ [n] <+: q := by
        rcases hpath with rfl | hbelow'
        · exact List.prefix_rfl
        · exact hbelow'.1
      have hmem : n ∈ (readDir p.files rel ++ readDir e.files rel).dedup := by
        rw [List.mem_dedup, List.mem_append, mem_readDir]
        exact .inl (isThere_of_lookup hsome hpre)
      rw [diffDirs, firstOrder_sort hpre hmem, List.flatMap_cons]
      rcases hpath with rfl | hbelow'
      · have hdir : isDir e.files (rel ++ [n]) = false := by
          unfold isThere at hgone
          exact (Bool.or_eq_false_iff.mp hgone).2
        simp only [not_isDir_of_lookup hsome, hdir, hgone, Bool.or_self, Bool.false_eq_true, Bool.not_false, ↓reduceIte]
        exact ⟨_, rfl⟩
      · simp only [isDir_of_lookup hsome hbelow', Bool.true_or, ↓reduceIte]
        split
        · obtain ⟨rest, hrest⟩ := ih (hwithin.child n) hbelow'
          rw [hrest]
          exact ⟨_, rfl⟩
        · obtain ⟨rest, hrest⟩ := collectAllFiles_head hsome depth (hwithin.child n) hbelow'
          rw [hrest]
          exact ⟨_, rfl⟩

theorem removedFiles_head {q : Path} (hq : IsChange p.files e.files (.removed q)) :
    ∃ rest, removedFiles (diff (firstOrder q) p.files e.files) = q :: rest := by
  have hne := (validPath_of_isChange hq).1
  obtain ⟨rest, hrest⟩ := diffDirs_head hq _ (within_depth (Nat.le_add_right _ (depth e.files)))
    ⟨List.nil_prefix, hne.symm⟩
  unfold diff
  rw [hrest]
  exact ⟨_, rfl⟩

/-- A file of the edited tree can only be restored by what was applied. -/
theorem applied_of_restored {q : Path} {bytes : Bytes}
    (hrestored : (roundTrip order applyOrder name p.files e.files).file q = lookup e.files q)
    (hq : lookup e.files q = some bytes) : (applied order applyOrder name p e).file q = some bytes := by
  rw [(roundTrip_spec order applyOrder name p e).1, hq] at hrestored
  split at hrestored
  · cases hrestored
  · exact hrestored

/-- If every order restores all files, the trees are restorable. -/
theorem restorable_of_restored
    (h : ∀ order applyOrder q, (roundTrip order applyOrder name p.files e.files).file q = lookup e.files q) :
    Restorable p.files e.files := by
  have happlied : ∀ {q bytes}, lookup e.files q = some bytes →
      ((∀ bytes, ¬ IsChange p.files e.files (.changed q bytes)) ∨ removedName ∈ q ∨
        (Dir.copyOf p.files).Blocked q) → lookup p.files q = some bytes := by
    intro q bytes hq hkept
    rw [← (applied_spec (firstOrder []) (firstOrder []) name p e).2.1 q hkept]
    exact applied_of_restored (h _ _ q) hq
  have hunreserved : ∀ q bytes, lookup e.files q = some bytes → lookup p.files q ≠ some bytes → removedName ∉ q :=
    fun q bytes hq hne hreserved => hne (happlied hq (.inr (.inl hreserved)))
  refine ⟨?_, ?_, ?_, hunreserved, ?_⟩
  · intro q hq
    by_contra hnone
    rw [Bool.not_eq_true, Option.isSome_eq_false_iff, Option.isNone_iff_eq_none] at hnone
    have hsame := happlied hq (.inl fun bytes hchange => by
      obtain rfl : [] = bytes := Option.some.inj (hq.symm.trans hchange.1)
      exact hchange.2.2 (by rw [hnone]; rfl))
    rw [hnone] at hsame
    cases hsame
  · intro q hsome
    obtain ⟨bytes, hq⟩ := Option.isSome_iff_exists.mp hsome
    rw [Bool.eq_false_iff]
    intro hdir
    have hsame := happlied hq (.inl fun bytes hchange => by
      rw [hchange.2.1] at hdir
      cases hdir)
    rw [p.lookup_of_isDir hdir] at hsame
    cases hsame
  · intro q hsome
    rw [Bool.eq_false_iff]
    intro hdir
    obtain ⟨q', bytes, hq', hbelow⟩ := isDir_iff.mp hdir
    have hsame := happlied (e.lookup_eq_some.mpr hq') (.inr (.inr ⟨q, hbelow, hsome⟩))
    obtain ⟨b, hb⟩ := Option.isSome_iff_exists.mp hsome
    rw [p.lookup_below hb hbelow] at hsame
    cases hsame
  · intro q q' hgone hgone' hcr
    by_contra hne
    obtain ⟨rest, hrest⟩ := removedFiles_head (e := e) hgone
    have hmem' : q' ∈ removedFiles (diff (firstOrder q) p.files e.files) := mem_removedFiles.mpr hgone'
    have hlist : q ∈ (removedFiles (diff (firstOrder q) p.files e.files)).dropLast := by
      rw [hrest] at hmem' ⊢
      cases rest with
      | nil => exact absurd (List.mem_singleton.mp hmem') hne
      | cons x rest => exact List.mem_cons_self
    obtain ⟨y, hy, hnot⟩ := exists_not_mem_linePaths
      (fun z hz => validPath_of_isChange (mem_removedFiles.mp hz)) removedFiles_nodup
      (fun z hz z' hz' hbelow => by
        obtain ⟨b, hb⟩ := Option.isSome_iff_exists.mp (mem_removedFiles.mp hz).1
        have hnone := (mem_removedFiles.mp hz').1
        rw [p.lookup_below hb hbelow] at hnone
        cases hnone)
      hlist hcr
    -- `y` is gone from the edited tree and stays in the package
    have hygone := mem_removedFiles.mp hy
    have hynone : lookup e.files y = none := by
      have hthere := hygone.2
      unfold isThere at hthere
      simpa using (Bool.or_eq_false_iff.mp hthere).1
    have hstays := h (firstOrder q) (firstOrder q) y
    rw [(roundTrip_spec _ _ name p e).1, removedPaths_patch (fun z bytes hchange => hunreserved z bytes hchange.1
      fun hsame => hchange.2.2 (by rw [hsame, Option.getD_some])), if_neg fun hin => hnot hin.1,
      (applied_spec _ _ name p e).2.1 y (.inl (not_changed hynone)), hynone] at hstays
    have hsome := hygone.1
    rw [hstays] at hsome
    cases hsome

end ThreeVa.Store.Patch
