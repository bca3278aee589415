import ThreeVa.Locks.Lemmas.PnpmText

/-!
# Reading the written `pnpm-lock.yaml` back
-/

namespace ThreeVa.Locks.Pnpm
open Text

/-! ## Lines of an entry -/

section Field

variable {st : Style} {r : Reading} {w rest v content : Str}

theorem colon_not_mem_keyWord (h : w ∈ keyWords) : ':' ∉ w := by
  simp only [keyWords, List.mem_cons, List.not_mem_nil, or_false] at h
  rcases h with rfl | rfl | rfl | rfl | rfl | rfl <;> decide

theorem clean_keyWord (h : w ∈ keyWords) : Clean w := by
  simp only [keyWords, List.mem_cons, List.not_mem_nil, or_false] at h
  rcases h with rfl | rfl | rfl | rfl | rfl | rfl <;> exact clean_of_all (by decide)

/-- A line without a colon does nothing. -/
theorem field_no_colon (h : ':' ∉ content) : r.field content = r := by
  have hpre {w : Str} : ¬ w ++ [':'] <+: content := fun hpre => h (hpre.subset (by simp))
  have hstrip {w : Str} : stripPrefix (w ++ [':', ' ']) content = none := by
    rw [Option.eq_none_iff_forall_ne_some]
    intro t ht
    rw [stripPrefix_eq_some] at ht
    exact h (by simp [ht])
  have hblock : r.blockLine content = r := by
    rw [Reading.blockLine, hstrip, splitOnce_eq_none.mpr h]
    split_ifs <;> rfl
  rw [Reading.field, hstrip, hstrip, if_neg hpre, if_neg hpre, if_neg hpre, if_neg hpre, hblock]

theorem field_other (hw : ':' ∉ w) (hkey : w ∉ keyWords) : r.field (w ++ ':' :: rest) = r.blockLine (w ++ ':' :: rest) := by
  have hpre {k : Str} (hk : k ∈ keyWords) : ¬ k ++ [':'] <+: w ++ ':' :: rest := by
    rw [prefix_word hw (colon_not_mem_keyWord hk)]
    rintro rfl
    exact hkey hk
  have hstrip {k : Str} (hk : k ∈ keyWords) : stripPrefix (k ++ [':', ' ']) (w ++ ':' :: rest) = none := by
    rw [Option.eq_none_iff_forall_ne_some]
    intro t ht
    rw [stripPrefix_eq_some, List.append_assoc] at ht
    exact hpre hk (by rw [ht]; exact ⟨' ' :: t, by simp⟩)
  have hversion : versionWord ∈ keyWords := by decide
  have hname : nameWord ∈ keyWords := by decide
  rw [Reading.field, hstrip hversion, hstrip hname, if_neg (hpre (by decide)), if_neg (hpre (by decide)),
    if_neg (hpre (by decide)), if_neg (hpre (by decide))]

theorem field_version : r.field (versionWord ++ ':' :: ' ' :: v)
    = ⟨{ r.entry with version := some (yamlScalar v) }, false, false, false⟩ := rfl

theorem field_name : r.field (nameWord ++ ':' :: ' ' :: v)
    = { r with entry := { r.entry with name := some (yamlScalar v) } } := rfl

theorem field_dev : ∃ dev, r.field (devWord ++ ':' :: rest) = { r with entry := { r.entry with dev := dev } } := ⟨_, rfl⟩

theorem field_optionalDependencies : r.field (optionalDependenciesWord ++ ':' :: rest) = ⟨r.entry, false, false, true⟩ := rfl

theorem field_dependencies : r.field (dependenciesWord ++ ':' :: rest) = ⟨r.entry, true, false, false⟩ := rfl

theorem field_resolution_some (h : inlineMappingValue (resolutionWord ++ ':' :: rest) integrityWord = some v) :
    r.field (resolutionWord ++ ':' :: rest) = ⟨{ r.entry with integrity := some v }, false, false, false⟩ := by
  rw [Reading.field, h]
  rfl

theorem field_resolution_none (h : inlineMappingValue (resolutionWord ++ ':' :: rest) integrityWord = none) :
    r.field (resolutionWord ++ ':' :: rest) = ⟨r.entry, false, true, false⟩ := by
  rw [Reading.field, h]
  rfl

/-- The lines of key words leave the dependencies as they are. -/
theorem deps_field_keyWord (hw : w ∈ keyWords) : (r.field (w ++ ':' :: ' ' :: v)).entry.deps = r.entry.deps := by
  simp only [keyWords, List.mem_cons, List.not_mem_nil, or_false] at hw
  rcases hw with rfl | rfl | rfl | rfl | rfl | rfl
  · rw [field_version]
  · rw [field_name]
  · obtain ⟨dev, hdev⟩ := @field_dev r (' ' :: v)
    rw [hdev]
  · cases h : inlineMappingValue (resolutionWord ++ ':' :: ' ' :: v) integrityWord with
    | none => rw [field_resolution_none h]
    | some x => rw [field_resolution_some h]
  · rw [field_optionalDependencies]
  · rw [field_dependencies]

/-! ## Words in a block -/

/-- Outside of the blocks of dependencies a line without a key word is passed over. -/
theorem blockLine_ignored (hdeps : r.inDeps = false) (hoptional : r.inOptional = false) (hw : ':' ∉ w)
    (hintegrity : r.inResolution = true → w ≠ integrityWord) : r.blockLine (w ++ ':' :: rest) = r := by
  rw [Reading.blockLine, hdeps, hoptional]
  cases hres : r.inResolution with
  | false => rfl
  | true =>
      have hstrip : stripPrefix (integrityWord ++ [':', ' ']) (w ++ ':' :: rest) = none := by
        rw [Option.eq_none_iff_forall_ne_some]
        intro t ht
        rw [stripPrefix_eq_some, List.append_assoc, List.cons_append] at ht
        exact hintegrity hres (eq_of_append_colon hw (by decide) ht).1
      rw [hstrip]
      rfl

theorem blockLine_insert (hres : r.inResolution = false) (hin : r.inDeps || r.inOptional) (hw : ':' ∉ w)
    (hne : yamlScalar w ≠ []) : r.blockLine (w ++ ':' :: rest)
      = { r with entry := { r.entry with deps := r.entry.deps.orInsert (yamlScalar w) (yamlScalar rest) } } := by
  rw [Reading.blockLine, hres, if_neg (by decide), if_pos hin, splitOnce_append hw]
  simp only [hne, ↓reduceIte]

/-- Whatever a line is taken for, it puts no dependency but its own word. -/
theorem lookup_blockLine {k : Str} (hw : ':' ∉ w) (hk : k ≠ yamlScalar w) (hr : r.entry.deps.lookup k = none) :
    (r.blockLine (w ++ ':' :: rest)).entry.deps.lookup k = none := by
  rw [Reading.blockLine, splitOnce_append hw]
  split
  · split
    · exact hr
    · exact hr
  · split
    · by_cases hne : yamlScalar w = []
      · simpa only [hne, ↓reduceIte] using hr
      · simp only [hne, ↓reduceIte, Finmap.lookup_orInsert, hr, if_neg hk, Option.none_or]
    · exact hr

/-! ## Kinds of lines -/

/-- The words that pnpm itself writes before a colon in an entry. -/
def entryWords : List Str :=
  [resolutionWord, "engines".toList, "cpu".toList, "os".toList, "hasBin".toList, "peerDependencies".toList,
    dependenciesWord, optionalDependenciesWord, Style.transitiveWord, devWord]

/-- What stands in an entry below its key. -/
inductive FieldText (st : Style) : Str → Prop
  | word {w : Str} (hw : w ∈ entryWords) (rest : Str) : FieldText st (w ++ ':' :: rest)
  | pair (name : PackageName) (v : Str) : FieldText st (st.write name.text ++ ':' :: ' ' :: v)
  | item (name : PackageName) : FieldText st ('-' :: ' ' :: st.write name.text)

theorem colon_not_mem_write (name : PackageName) : ':' ∉ st.write name.text := by
  intro h
  rcases mem_write h with h | h
  · cases h
  · exact PackageName.not_mem_text (by decide) (by decide) (by decide) h

theorem yamlScalar_name (name : PackageName) : yamlScalar (st.write name.text) = name.text :=
  yamlScalar_write 0 (clean_name name) PackageName.text_ne_nil

theorem entryWord_spec (h : w ∈ entryWords) : ':' ∉ w ∧ yamlScalar w = w ∧ w ≠ versionWord ∧ w ≠ nameWord := by
  simp only [entryWords, List.mem_cons, List.not_mem_nil, or_false] at h
  rcases h with rfl | rfl | rfl | rfl | rfl | rfl | rfl | rfl | rfl | rfl
  all_goals exact ⟨by decide, by decide +kernel, by decide, by decide⟩

/-- No line puts a dependency under an unquoted key word. -/
theorem lookup_field {k : Str} (h : FieldText st content) (hk : k ∈ keyWords) (hquote : st.quote k = false)
    (hr : r.entry.deps.lookup k = none) : (r.field content).entry.deps.lookup k = none := by
  cases h with
  | @word w hw rest =>
      obtain ⟨hcolon, hscalar, hversion, hname⟩ := entryWord_spec hw
      by_cases hkey : w ∈ keyWords
      · simp only [keyWords, List.mem_cons, List.not_mem_nil, or_false, hversion, hname, false_or] at hkey
        rcases hkey with rfl | rfl | rfl | rfl
        · obtain ⟨dev, hdev⟩ := @field_dev r rest
          rw [hdev]
          exact hr
        · cases h : inlineMappingValue (resolutionWord ++ ':' :: rest) integrityWord with
          | none => rw [field_resolution_none h]; exact hr
          | some x => rw [field_resolution_some h]; exact hr
        · rw [field_optionalDependencies]
          exact hr
        · rw [field_dependencies]
          exact hr
      · rw [field_other hcolon hkey]
        apply lookup_blockLine hcolon _ hr
        rw [hscalar]
        rintro rfl
        exact hkey hk
  | pair name v =>
      by_cases hkey : st.write name.text ∈ keyWords
      · rw [deps_field_keyWord hkey]
        exact hr
      · rw [field_other (colon_not_mem_write name) hkey]
        apply lookup_blockLine (colon_not_mem_write name) _ hr
        rw [yamlScalar_name]
        rintro rfl
        rw [write_of_not_quote hquote] at hkey
        exact hkey hk
  | item name =>
      rw [field_no_colon]
      · exact hr
      · simpa using colon_not_mem_write name

theorem entryWord_head (hw : w ∈ entryWords) : ∃ c rest, w = c :: rest ∧ isWhitespace c = false := by
  simp only [entryWords, List.mem_cons, List.not_mem_nil, or_false] at hw
  rcases hw with rfl | rfl | rfl | rfl | rfl | rfl | rfl | rfl | rfl | rfl
  all_goals exact ⟨_, _, rfl, by decide⟩

theorem FieldText.head (h : FieldText st content) : ∃ c rest, content = c :: rest ∧ isWhitespace c = false := by
  cases h with
  | @word w hw rest =>
      obtain ⟨c, more, rfl, hc⟩ := entryWord_head hw
      exact ⟨c, _, rfl, hc⟩
  | pair name v =>
      obtain ⟨c, rest, hwrite, hc, -⟩ := head_write st name.text
      exact ⟨c, _, by rw [hwrite]; rfl, hc⟩
  | item name => exact ⟨'-', _, rfl, by decide⟩

/-- A line below the key of an entry. -/
def EntryLine (st : Style) (line : Str) : Prop := ∃ n content, 4 ≤ n ∧ line = indented n content ∧ FieldText st content

theorem entryLine_of_mem_fieldLine {line : Str} {present : Bool} (hw : w ∈ entryWords)
    (h : line ∈ Style.fieldLine w present v) : EntryLine st line := by
  unfold Style.fieldLine at h
  split at h
  · rw [List.mem_singleton.mp h]
    exact ⟨4, _, Nat.le_refl _, rfl, .word hw _⟩
  · simp at h

theorem entryLine_of_mem_block {line : Str} {contents : List Str} (hw : w ∈ entryWords)
    (hcontents : ∀ content ∈ contents, FieldText st content) (h : line ∈ Style.block w contents) : EntryLine st line := by
  unfold Style.block at h
  split at h
  · simp at h
  · rcases List.mem_cons.mp h with rfl | h
    · exact ⟨4, _, Nat.le_refl _, rfl, .word hw _⟩
    · obtain ⟨content, hcontent, rfl⟩ := List.mem_map.mp h
      exact ⟨6, content, by decide, rfl, hcontents content hcontent⟩

theorem fieldText_of_mem_pairs {α : Type} {ds : List (PackageName × α)} (value : α → Str)
    (h : content ∈ ds.map fun d => st.pair d.1.text (value d.2)) : FieldText st content := by
  obtain ⟨d, -, rfl⟩ := List.mem_map.mp h
  exact .pair d.1 _

theorem entryLine_of_mem_metaLines {line : Str} {p : Package} (h : line ∈ st.metaLines p) : EntryLine st line := by
  unfold Style.metaLines at h
  simp only [List.mem_append] at h
  rcases h with ((((h | h) | h) | h) | h) | h
  · exact entryLine_of_mem_fieldLine (by decide) h
  · exact entryLine_of_mem_fieldLine (by decide) h
  · exact entryLine_of_mem_fieldLine (by decide) h
  · exact entryLine_of_mem_fieldLine (by decide) h
  · exact entryLine_of_mem_fieldLine (by decide) h
  · exact entryLine_of_mem_block (by decide) (fun _ => fieldText_of_mem_pairs Range.text) h

theorem entryLine_of_mem_graphLines {line : Str} {p : Package} (h : line ∈ st.graphLines p) : EntryLine st line := by
  unfold Style.graphLines at h
  simp only [List.mem_append] at h
  rcases h with (h | h) | h
  · exact entryLine_of_mem_block (by decide) (fun _ => fieldText_of_mem_pairs Scalar.text) h
  · exact entryLine_of_mem_block (by decide) (fun _ => fieldText_of_mem_pairs Scalar.text) h
  · apply entryLine_of_mem_block (by decide) _ h
    intro content hcontent
    obtain ⟨name, -, rfl⟩ := List.mem_map.mp hcontent
    exact .item name

theorem entryLine_of_mem_devLines {line : Str} {p : Package} (h : line ∈ Style.devLines p) : EntryLine st line :=
  entryLine_of_mem_fieldLine (by decide) h

end Field

/-! ## Steps of the walk -/

section Walk

variable {st : Style} {s : Walk} {r : Reading} {content : Str}

def readLine (r : Reading) (line : Str) : Reading := r.field (trimStart line)

theorem foldl_utf8Size_blanks (n k : Nat) : (List.replicate n ' ').foldl (fun n c => n + c.utf8Size) k = k + n := by
  induction n generalizing k with
  | zero => rfl
  | succ n ih =>
      rw [List.replicate_succ, List.foldl_cons, ih]
      change k + 1 + n = k + (n + 1)
      omega

theorem indent_indented (n : Nat) (h : ∀ c ∈ content.head?, isWhitespace c = false) : Walk.indent (indented n content) = n := by
  rw [Walk.indent, takeWhile_indented n h, foldl_utf8Size_blanks, Nat.zero_add]

theorem step_blank : s.step [] = s := rfl

theorem foldl_blank : st.blank.foldl Walk.step s = s := by
  unfold Style.blank
  split <;> rfl

theorem step_key {c : Char} (hc : isWhitespace c = false) (hdash : c ≠ '-') (hcolon : ':' ∈ c :: content) :
    s.step (indented 2 (c :: content)) = ⟨s.finish, some (.new (yamlScalar (trimEndMatches ':' (c :: content))))⟩ := by
  have hfirst : ∀ d ∈ (c :: content).head?, isWhitespace d = false := by simpa using hc
  have hempty : ¬ (trim (indented 2 (c :: content))).isEmpty = true := by
    simpa [List.isEmpty_iff] using trim_indented_ne_nil 2 hc
  unfold Walk.step
  rw [if_neg hempty, trimStart_indented 2 hfirst, indent_indented 2 hfirst, if_pos]
  exact ⟨Nat.le_refl _, by simpa using hdash, hcolon⟩

theorem step_field {line : Str} {out : List RawEntry} (h : EntryLine st line) :
    Walk.step ⟨out, some r⟩ line = ⟨out, some (readLine r line)⟩ := by
  obtain ⟨n, content, hn, rfl, hcontent⟩ := h
  obtain ⟨c, rest, rfl, hc⟩ := hcontent.head
  have hfirst : ∀ d ∈ (c :: rest).head?, isWhitespace d = false := by simpa using hc
  have hempty : ¬ (trim (indented n (c :: rest))).isEmpty = true := by
    simpa [List.isEmpty_iff] using trim_indented_ne_nil n hc
  unfold Walk.step
  rw [if_neg hempty, indent_indented n hfirst, if_neg (fun h => by omega)]
  rfl

theorem foldl_step_field {ls : List Str} {out : List RawEntry} (h : ∀ line ∈ ls, EntryLine st line) :
    ls.foldl Walk.step ⟨out, some r⟩ = ⟨out, some (ls.foldl readLine r)⟩ := by
  induction ls generalizing r with
  | nil => rfl
  | cons line ls ih =>
      rw [List.foldl_cons, List.foldl_cons, step_field (h line List.mem_cons_self)]
      exact ih fun l hl => h l (List.mem_cons_of_mem _ hl)

theorem readLine_indented (n : Nat) (h : FieldText st content) : readLine r (indented n content) = r.field content := by
  obtain ⟨c, rest, rfl, hc⟩ := h.head
  rw [readLine, trimStart_indented n (by simpa using hc)]

theorem readLine_word (n : Nat) {w rest : Str} (hw : w ∈ entryWords) :
    readLine r (indented n (w ++ ':' :: rest)) = r.field (w ++ ':' :: rest) := by
  obtain ⟨c, more, rfl, hc⟩ := entryWord_head hw
  rw [readLine, trimStart_indented n (by simpa using hc)]

theorem readLine_pair (name : PackageName) (v : Str) :
    readLine r (indented 6 (st.pair name.text v)) = r.field (st.pair name.text v) := readLine_indented 6 (.pair name _)

theorem lookup_foldl_readLine {k : Str} {ls : List Str} (h : ∀ line ∈ ls, EntryLine st line) (hk : k ∈ keyWords)
    (hquote : st.quote k = false) (hr : r.entry.deps.lookup k = none) :
    (ls.foldl readLine r).entry.deps.lookup k = none := by
  induction ls generalizing r with
  | nil => exact hr
  | cons line ls ih =>
      obtain ⟨n, content, -, rfl, hcontent⟩ := h line List.mem_cons_self
      apply ih (fun l hl => h l (List.mem_cons_of_mem _ hl))
      rw [readLine_indented n hcontent]
      exact lookup_field hcontent hk hquote hr

end Walk

/-! ## What is known of a package -/

section Meta

variable {st : Style} {r : Reading} {p : Package} {key w v : Str}

/-- The entry has what is known of the package, and no dependencies are expected. -/
structure MetaRead (p : Package) (key : Str) (r : Reading) : Prop where
  key : r.entry.key = key
  version : r.entry.version = none
  name : r.entry.name = none
  integrity : r.entry.integrity = p.integrity.map Scalar.text
  deps : r.entry.deps = ∅
  inDeps : r.inDeps = false
  inOptional : r.inOptional = false
  inResolution : r.inResolution = true → p.integrity = none ∧ p.tarball ≠ none

theorem lookup_resolution (p : Package) : (Style.resolution p).lookup integrityWord = p.integrity.map Scalar.text := by
  unfold Style.resolution
  cases p.integrity with
  | some x => simp
  | none =>
      cases p.tarball with
      | none => rfl
      | some y => rfl

theorem inlineMappingValue_resolution (st : Style) (p : Package) :
    inlineMappingValue (resolutionWord ++ ':' :: ' ' :: st.flowMap (Style.resolution p)) integrityWord
      = p.integrity.map Scalar.text := by
  have hscalar (x : Scalar) : Clean x.text ∧ x.text ≠ [] := ⟨x.chars, x.ne⟩
  have hword : Clean integrityWord ∧ integrityWord ≠ [] ∧ ':' ∉ integrityWord :=
    ⟨clean_of_all (by decide), by decide, by decide⟩
  have htarball : Clean "tarball".toList ∧ "tarball".toList ≠ [] ∧ ':' ∉ "tarball".toList :=
    ⟨clean_of_all (by decide), by decide, by decide⟩
  have hpairs : ∀ x ∈ Style.resolution p, Clean x.1 ∧ x.1 ≠ [] ∧ ':' ∉ x.1 ∧ Clean x.2 ∧ x.2 ≠ [] := by
    intro x hx
    simp only [Style.resolution, List.mem_append, List.mem_map] at hx
    rcases hx with ⟨y, -, rfl⟩ | ⟨y, -, rfl⟩
    · exact ⟨hword.1, hword.2.1, hword.2.2, hscalar y⟩
    · exact ⟨htarball.1, htarball.2.1, htarball.2.2, hscalar y⟩
  have hbefore : '{' ∉ resolutionWord ++ [':', ' '] := by decide
  have hline := inlineMappingValue_flowMap st integrityWord hbefore hpairs
  rw [List.append_assoc] at hline
  exact hline.trans (lookup_resolution p)

theorem metaRead_resolution (st : Style) (p : Package) (key : Str) : MetaRead p key
    ((Style.fieldLine resolutionWord (Style.resolution p ≠ []) (st.flowMap (Style.resolution p))).foldl readLine (.new key)) := by
  have hline := inlineMappingValue_resolution st p
  unfold Style.fieldLine
  split
  · rename_i hne
    rw [List.foldl_cons, List.foldl_nil, readLine_word 4 (by decide)]
    cases hintegrity : p.integrity with
    | some x =>
        rw [hintegrity] at hline
        rw [field_resolution_some hline]
        constructor <;> simp [Reading.new, hintegrity]
    | none =>
        rw [hintegrity] at hline
        rw [field_resolution_none hline]
        constructor <;> simp_all [Reading.new, Style.resolution]
  · rename_i hnil
    have hnone : p.integrity = none := by
      cases hintegrity : p.integrity with
      | none => rfl
      | some x => simp [Style.resolution, hintegrity] at hnil
    constructor <;> simp [Reading.new, hnone]

theorem MetaRead.ignored (h : MetaRead p key r) (hw : ':' ∉ w) (hkey : w ∉ keyWords)
    (hintegrity : r.inResolution = true → w ≠ integrityWord) : r.field (w ++ ':' :: v) = r := by
  rw [field_other hw hkey, blockLine_ignored h.inDeps h.inOptional hw hintegrity]

theorem MetaRead.fieldLine {present : Bool} (h : MetaRead p key r) (hw : w ∈ entryWords) (hkey : w ∉ keyWords) :
    MetaRead p key ((Style.fieldLine w present v).foldl readLine r) := by
  have hintegrity : w ≠ integrityWord := by
    rintro rfl
    revert hw
    decide
  unfold Style.fieldLine
  split
  · rw [List.foldl_cons, List.foldl_nil, readLine_word 4 hw,
      h.ignored (entryWord_spec hw).1 hkey fun _ => hintegrity]
    exact h
  · exact h

theorem MetaRead.peer (h : MetaRead p key r) (hsafe : p.PeersSafe st) {d : PackageName × Range} (hd : d ∈ p.peerDependencies) :
    MetaRead p key (r.field (st.pair d.1.text d.2.text)) := by
  by_cases hkey : st.write d.1.text ∈ keyWords
  · obtain ⟨hquote, -⟩ := (write_eq_iff (clean_keyWord hkey)).mp rfl
    rw [write_of_not_quote hquote] at hkey
    have hdev := (hsafe.names d hd hquote).resolve_right (fun hnot => hnot hkey)
    obtain ⟨dev, hfield⟩ := @field_dev r (' ' :: st.write d.2.text)
    rw [Style.pair, write_of_not_quote hquote, hdev, hfield]
    exact ⟨h.key, h.version, h.name, h.integrity, h.deps, h.inDeps, h.inOptional, h.inResolution⟩
  · rw [Style.pair, h.ignored (colon_not_mem_write _) hkey]
    · exact h
    · intro hres heq
      obtain ⟨hquote, hname⟩ := (write_eq_iff (clean_of_all (by decide))).mp heq
      obtain ⟨hnone, htarball⟩ := h.inResolution hres
      rcases hsafe.integrity d hd hquote hname with hsome | hnil
      · simp [hnone] at hsome
      · exact htarball hnil

theorem MetaRead.peers (hsafe : p.PeersSafe st) {ds : List (PackageName × Range)} (hds : ∀ d ∈ ds, d ∈ p.peerDependencies)
    (h : MetaRead p key r) : MetaRead p key ((ds.map fun d => indented 6 (st.pair d.1.text d.2.text)).foldl readLine r) := by
  induction ds generalizing r with
  | nil => exact h
  | cons d ds ih =>
      rw [List.map_cons, List.foldl_cons, readLine_pair]
      exact ih (fun x hx => hds x (List.mem_cons_of_mem _ hx)) (h.peer hsafe (hds d List.mem_cons_self))

theorem metaRead_metaLines (key : Str) (hsafe : p.PeersSafe st) : MetaRead p key ((st.metaLines p).foldl readLine (.new key)) := by
  have hpeers : ∀ {r}, MetaRead p key r → MetaRead p key ((Style.block "peerDependencies".toList
      (p.peerDependencies.map fun d => st.pair d.1.text d.2.text)).foldl readLine r) := by
    intro r h
    unfold Style.block
    split
    · exact h
    · rw [List.foldl_cons, readLine_word 4 (by decide), h.ignored (by decide) (by decide) (fun _ => by decide), List.map_map]
      exact h.peers hsafe (fun _ hd => hd)
  simp only [Style.metaLines, List.foldl_append]
  apply hpeers
  apply MetaRead.fieldLine _ (by decide) (by decide)
  apply MetaRead.fieldLine _ (by decide) (by decide)
  apply MetaRead.fieldLine _ (by decide) (by decide)
  apply MetaRead.fieldLine _ (by decide) (by decide)
  exact metaRead_resolution st p key

end Meta

/-! ## What a package depends on -/

section Graph

variable {st : Style} {r : Reading} {p : Package}

/-- Lines are read as dependencies. -/
def InBlock (r : Reading) : Prop := r.inResolution = false ∧ (r.inDeps || r.inOptional) = true

/-- The reading with more dependencies. -/
def Reading.adding (r : Reading) (l : List (Str × Str)) : Reading :=
  { r with entry := { r.entry with deps := r.entry.deps.orInsertAll l } }

theorem adding_nil : r.adding [] = r := rfl

theorem adding_append (l l' : List (Str × Str)) : (r.adding l).adding l' = r.adding (l ++ l') := by
  simp [Reading.adding, Finmap.orInsertAll_append]

theorem field_dependency {d : PackageName × Scalar} (hr : InBlock r)
    (hname : st.quote d.1.text = false → d.1.text ∉ keyWords) :
    r.field (st.pair d.1.text d.2.text) = r.adding [(d.1.text, d.2.text)] := by
  have hkey : st.write d.1.text ∉ keyWords := by
    intro hkey
    obtain ⟨hquote, -⟩ := (write_eq_iff (clean_keyWord hkey)).mp rfl
    rw [write_of_not_quote hquote] at hkey
    exact hname hquote hkey
  have hvalue : yamlScalar (' ' :: st.write d.2.text) = d.2.text := yamlScalar_write 1 d.2.chars d.2.ne
  rw [Style.pair, field_other (colon_not_mem_write _) hkey, blockLine_insert hr.1 hr.2 (colon_not_mem_write _),
    yamlScalar_name, hvalue]
  · rfl
  · rw [yamlScalar_name]
    exact PackageName.text_ne_nil

theorem foldl_dependencies {ds : List (PackageName × Scalar)} (hr : InBlock r)
    (hds : ∀ d ∈ ds, st.quote d.1.text = false → d.1.text ∉ keyWords) :
    (ds.map fun d => indented 6 (st.pair d.1.text d.2.text)).foldl readLine r = r.adding (Package.pairs ds) := by
  induction ds generalizing r with
  | nil => rfl
  | cons d ds ih =>
      rw [List.map_cons, List.foldl_cons, readLine_pair, field_dependency hr (hds d List.mem_cons_self)]
      exact ih (r := r.adding _) hr fun x hx => hds x (List.mem_cons_of_mem _ hx)

/-- A block of dependencies adds them, and leaves its mark if there are any. -/
theorem foldl_block {w : Str} {ds : List (PackageName × Scalar)} {a b : Bool} (hw : w ∈ entryWords)
    (hhead : ∀ (r : Reading) (rest : Str), r.field (w ++ ':' :: rest) = ⟨r.entry, a, false, b⟩) (hab : (a || b) = true)
    (hds : ∀ d ∈ ds, st.quote d.1.text = false → d.1.text ∉ keyWords) :
    (Style.block w (ds.map fun d => st.pair d.1.text d.2.text)).foldl readLine r
      = (if ds = [] then r else ⟨r.entry, a, false, b⟩).adding (Package.pairs ds) := by
  cases ds with
  | nil => rfl
  | cons d ds =>
      rw [Style.block, if_neg (by simp), if_neg (by simp), List.foldl_cons, readLine_word 4 hw, hhead, List.map_map]
      exact foldl_dependencies ⟨rfl, hab⟩ hds

theorem foldl_items {names : List PackageName} :
    (names.map fun n => indented 6 ('-' :: ' ' :: st.write n.text)).foldl readLine r = r := by
  induction names generalizing r with
  | nil => rfl
  | cons n names ih =>
      rw [List.map_cons, List.foldl_cons, readLine_indented 6 (.item n), field_no_colon, ih]
      simpa using colon_not_mem_write n

theorem foldl_transitive {names : List PackageName} : (Style.block Style.transitiveWord
    (names.map fun n => '-' :: ' ' :: st.write n.text)).foldl readLine r
      = if names = [] then r else r.field (Style.transitiveWord ++ [':']) := by
  cases names with
  | nil => rfl
  | cons n names =>
      rw [Style.block, if_neg (by simp), if_neg (by simp), List.foldl_cons, readLine_word 4 (by decide), List.map_map]
      exact foldl_items

/-- The list of the transitive peers, taken for a dependency. -/
def Package.junk (p : Package) : List (Str × Str) :=
  if p.transitivePeerDependencies = [] ∨ p.allDependencies = [] then [] else [(Style.transitiveWord, [])]

theorem field_transitive (hr : InBlock r) :
    r.field (Style.transitiveWord ++ [':']) = r.adding [(Style.transitiveWord, [])] := by
  have hword : yamlScalar Style.transitiveWord = Style.transitiveWord := (entryWord_spec (by decide)).2.1
  rw [field_other (by decide) (by decide), blockLine_insert hr.1 hr.2 (by decide) (by rw [hword]; decide), hword]
  rfl

theorem field_transitive_ignored (hdeps : r.inDeps = false) (hoptional : r.inOptional = false) :
    r.field (Style.transitiveWord ++ [':']) = r := by
  rw [field_other (by decide) (by decide), blockLine_ignored hdeps hoptional (by decide) (fun _ => by decide)]

/-- The two blocks of dependencies. -/
def afterBlocks (p : Package) (r : Reading) : Reading :=
  let r₁ := (if p.dependencies = [] then r else ⟨r.entry, true, false, false⟩).adding (Package.pairs p.dependencies)
  (if p.optionalDependencies = [] then r₁ else ⟨r₁.entry, false, false, true⟩).adding (Package.pairs p.optionalDependencies)

theorem entry_afterBlocks : (afterBlocks p r).entry = (r.adding (Package.pairs p.allDependencies)).entry := by
  have hpairs : Package.pairs p.allDependencies = Package.pairs p.dependencies ++ Package.pairs p.optionalDependencies := by
    simp [Package.pairs, Package.allDependencies]
  rw [hpairs, ← adding_append]
  simp only [afterBlocks, Reading.adding]
  split_ifs <;> rfl

theorem afterBlocks_of_nil (h : p.allDependencies = []) : afterBlocks p r = r := by
  obtain ⟨hdeps, hoptional⟩ := List.append_eq_nil_iff.mp h
  rw [afterBlocks, hdeps, hoptional]
  rfl

theorem inBlock_afterBlocks (h : p.allDependencies ≠ []) : InBlock (afterBlocks p r) := by
  simp only [afterBlocks]
  by_cases hoptional : p.optionalDependencies = []
  · have hdeps : p.dependencies ≠ [] := fun hdeps => h (by simp [Package.allDependencies, hdeps, hoptional])
    rw [if_pos hoptional, if_neg hdeps]
    exact ⟨rfl, rfl⟩
  · rw [if_neg hoptional]
    exact ⟨rfl, rfl⟩

theorem entry_graphLines (hdeps : r.inDeps = false) (hoptional : r.inOptional = false)
    (hnames : ∀ d ∈ p.allDependencies, st.quote d.1.text = false → d.1.text ∉ keyWords) :
    ((st.graphLines p).foldl readLine r).entry = (r.adding (Package.pairs p.allDependencies ++ p.junk)).entry := by
  have hlines : (st.graphLines p).foldl readLine r = if p.transitivePeerDependencies = [] then afterBlocks p r
      else (afterBlocks p r).field (Style.transitiveWord ++ [':']) := by
    rw [Style.graphLines, List.foldl_append, List.foldl_append, foldl_transitive,
      foldl_block (by decide) (fun _ _ => field_dependencies) rfl fun d hd => hnames d (List.mem_append_left _ hd),
      foldl_block (by decide) (fun _ _ => field_optionalDependencies) rfl fun d hd => hnames d (List.mem_append_right _ hd)]
    rfl
  rw [hlines, Package.junk]
  by_cases hnone : p.transitivePeerDependencies = []
  · rw [if_pos hnone, if_pos (.inl hnone), List.append_nil, entry_afterBlocks]
  · rw [if_neg hnone]
    by_cases hnil : p.allDependencies = []
    · rw [if_pos (.inr hnil), afterBlocks_of_nil hnil, field_transitive_ignored hdeps hoptional, hnil]
      rfl
    · rw [if_neg (not_or.mpr ⟨hnone, hnil⟩), field_transitive (inBlock_afterBlocks hnil), ← adding_append]
      simp only [Reading.adding, entry_afterBlocks]

theorem entry_devLines : ∃ dev, ((Style.devLines p).foldl readLine r).entry = { r.entry with dev := dev } := by
  unfold Style.devLines Style.fieldLine
  split
  · rw [List.foldl_cons, List.foldl_nil, readLine_word 4 (by decide)]
    obtain ⟨dev, hdev⟩ := @field_dev r (' ' :: (if p.dev = some true then "true".toList else "false".toList))
    exact ⟨dev, by rw [hdev]⟩
  · exact ⟨r.entry.dev, rfl⟩

end Graph

/-! ## Sections -/

section Sections

variable {st : Style} {s : Walk} {p : Package} {key : Str}

/-- A key that is read back from its line. -/
structure ValidKey (key : Str) : Prop where
  ne : key ≠ []
  clean : Clean key
  last : ∀ c ∈ key.getLast?, c ≠ ':'

theorem version_last (p : Package) : ∀ c ∈ p.version.text.getLast?, c ≠ ':' := by
  rintro c hc rfl
  exact p.version.not_mem (by decide) (List.mem_of_getLast? hc)

theorem validKey_path (st : Style) (p : Package) : ValidKey (st.path p) where
  ne := by simp [Style.path]
  clean := fun _ hc => (mem_path hc).2
  last := by
    rw [Style.path, List.append_cons, List.getLast?_append_of_ne_nil _ p.version.ne]
    exact version_last p

theorem validKey_nameVersion (p : Package) : ValidKey (Style.nameVersion p) where
  ne := by simp [Style.nameVersion]
  clean := clean_nameVersion p
  last := by
    rw [Style.nameVersion, List.append_cons, List.getLast?_append_of_ne_nil _ p.version.ne]
    exact version_last p

theorem validKey_snapshot (p : Package) : ValidKey (Style.nameVersion p ++ p.suffix.text) where
  ne := by simp [Style.nameVersion]
  clean := (clean_nameVersion p).append p.suffix.chars
  last := by
    rcases p.suffix.parenthesised with hnil | ⟨hopen, hclose⟩
    · rw [hnil, List.append_nil]
      exact (validKey_nameVersion p).last
    · have hne : p.suffix.text ≠ [] := fun hnil => by simp [hnil] at hopen
      rw [List.getLast?_append_of_ne_nil _ hne, hclose]
      simp

theorem step_keyLine (h : ValidKey key) : s.step (st.keyLine key) = ⟨s.finish, some (.new key)⟩ := by
  obtain ⟨c, rest, hwrite, hc, hdash⟩ := head_write st key
  have hlast : ∀ c ∈ (st.write key).getLast?, c ≠ ':' := by
    cases hquote : st.quote key with
    | false => rw [write_of_not_quote hquote]; exact h.last
    | true =>
        rw [write_of_quote hquote, List.getLast?_concat]
        simp
  have htrim : trimEndMatches ':' (st.write key ++ [':']) = st.write key := by
    rw [trimEndMatches, List.rdropWhile_concat_pos _ _ _ (by simp)]
    exact trimEndMatches_of_last hlast
  have hkey : yamlScalar (st.write key) = key := yamlScalar_write 0 h.clean h.ne
  rw [Style.keyLine, hwrite, List.cons_append, step_key hc hdash (by simp), ← List.cons_append, ← hwrite, htrim, hkey]

def packageKey (st : Style) : Layout → Package → Str
  | .v6, p => st.path p
  | .v9, p => Style.nameVersion p

def packageBody (st : Style) : Layout → Package → List Str
  | .v6, p => st.metaLines p ++ st.graphLines p ++ Style.devLines p
  | .v9, p => st.metaLines p

/-- What is read of a package in its section. -/
def rawPackage (st : Style) (layout : Layout) (p : Package) : RawEntry :=
  ((packageBody st layout p).foldl readLine (.new (packageKey st layout p))).entry

theorem packageLines_eq (layout : Layout) :
    st.packageLines layout p = st.blank ++ st.keyLine (packageKey st layout p) :: packageBody st layout p := by
  cases layout with
  | v6 => simp [Style.packageLines, packageKey, packageBody]
  | v9 => rfl

theorem validKey_packageKey (layout : Layout) : ValidKey (packageKey st layout p) := by
  cases layout with
  | v6 => exact validKey_path st p
  | v9 => exact validKey_nameVersion p

theorem splitKey_packageKey (layout : Layout) :
    splitKey (packageKey st layout p) = some (p.name.text, p.version.text) := by
  cases layout with
  | v6 => exact splitKey_path st p
  | v9 => exact splitKey_nameVersion p

theorem entryLine_of_mem_packageBody {layout : Layout} {line : Str} (h : line ∈ packageBody st layout p) :
    EntryLine st line := by
  cases layout with
  | v6 =>
      simp only [packageBody, List.mem_append] at h
      rcases h with (h | h) | h
      · exact entryLine_of_mem_metaLines h
      · exact entryLine_of_mem_graphLines h
      · exact entryLine_of_mem_devLines h
  | v9 => exact entryLine_of_mem_metaLines h

theorem finish_foldl_package (layout : Layout) :
    ((st.packageLines layout p).foldl Walk.step s).finish = s.finish ++ [rawPackage st layout p] := by
  rw [packageLines_eq, List.foldl_append, foldl_blank, List.foldl_cons, step_keyLine (validKey_packageKey layout),
    foldl_step_field fun line hline => entryLine_of_mem_packageBody hline]
  rfl

theorem finish_foldl_packages (layout : Layout) (ps : List Package) :
    ((ps.flatMap (st.packageLines layout)).foldl Walk.step s).finish = s.finish ++ ps.map (rawPackage st layout) := by
  induction ps generalizing s with
  | nil => simp
  | cons p ps ih =>
      rw [List.flatMap_cons, List.foldl_append, ih, finish_foldl_package, List.append_assoc]
      rfl

/-- The key of a snapshot, as it is read. -/
def snapshotKey (st : Style) (p : Package) : Str :=
  if st.graphLines p = [] then yamlScalar (trimEndMatches ':' (st.write (Style.nameVersion p ++ p.suffix.text) ++ braces))
  else Style.nameVersion p ++ p.suffix.text

/-- What is read of a snapshot. -/
def rawSnapshot (st : Style) (p : Package) : RawEntry := ((st.graphLines p).foldl readLine (.new (snapshotKey st p))).entry

/-- The snapshot is written. -/
def hasSnapshot (st : Style) (p : Package) : Bool := st.graphLines p ≠ [] || st.emptySnapshots

theorem finish_foldl_snapshot : ((st.snapshotLines p).foldl Walk.step s).finish
    = s.finish ++ if hasSnapshot st p then [rawSnapshot st p] else [] := by
  unfold Style.snapshotLines hasSnapshot rawSnapshot snapshotKey
  by_cases hnil : st.graphLines p = []
  · obtain ⟨c, rest, hwrite, hc, hdash⟩ := head_write st (Style.nameVersion p ++ p.suffix.text)
    simp only [hnil, if_true, ne_eq, not_true_eq_false, decide_false, Bool.false_or]
    cases st.emptySnapshots with
    | false => simp
    | true =>
        have hstep := @step_key s (rest ++ braces) c hc hdash
          (List.mem_cons_of_mem _ (List.mem_append_right _ (by decide)))
        rw [if_pos rfl, List.foldl_append, foldl_blank, List.foldl_cons, List.foldl_nil, hwrite]
        rw [List.cons_append, ← braces, hstep]
        rfl
  · simp only [hnil, if_false, ne_eq, not_false_eq_true, decide_true, Bool.true_or, if_true]
    rw [List.foldl_append, foldl_blank, List.foldl_cons, step_keyLine (validKey_snapshot p),
      foldl_step_field fun line hline => entryLine_of_mem_graphLines hline]
    rfl

theorem finish_foldl_snapshots (ps : List Package) : ((ps.flatMap st.snapshotLines).foldl Walk.step s).finish
    = s.finish ++ (ps.filter (hasSnapshot st)).map (rawSnapshot st) := by
  induction ps generalizing s with
  | nil => simp
  | cons p ps ih =>
      rw [List.flatMap_cons, List.foldl_append, ih, finish_foldl_snapshot, List.append_assoc]
      by_cases h : hasSnapshot st p = true
      · rw [if_pos h, List.filter_cons_of_pos h]
        rfl
      · rw [if_neg h, List.filter_cons_of_neg h]
        rfl

end Sections

/-! ## Lines without breaks -/

section Breaks

variable {st : Style} {p : Package} {line : Str}

theorem Clean.printable {s : Str} (h : Clean s) : Printable s :=
  fun c hc => Nat.le_of_succ_le (isScalarChar_printable (h c hc))

theorem printable_write {s : Str} (hs : Printable s) : Printable (st.write s) := by
  intro c h
  rcases mem_write h with rfl | h
  · decide
  · exact hs c h

theorem Range.printable (range : Range) : Printable range.text := fun c hc => (range.chars c hc).2.2

theorem Scalar.printable (x : Scalar) : Printable x.text := Clean.printable x.chars

theorem printable_pair {n v : Str} (hn : Printable n) (hv : Printable v) : Printable (st.pair n v) :=
  (printable_write hn).append (.cons (by decide) (.cons (by decide) (printable_write hv)))

theorem printable_flowMap {pairs : List (Str × Str)} (h : ∀ x ∈ pairs, Printable x.1 ∧ Printable x.2) :
    Printable (st.flowMap pairs) := by
  refine .append (.cons (by decide) (.intercalate (printable_of_all (by decide)) ?_)) (printable_of_all (by decide))
  intro l hl
  obtain ⟨x, hx, rfl⟩ := List.mem_map.mp hl
  exact (h x hx).1.append (.cons (by decide) (.cons (by decide) (printable_write (h x hx).2)))

theorem printable_flowList {items : List Scalar} : Printable (st.flowList (items.map Scalar.text)) := by
  refine .append (.cons (by decide) (.intercalate (printable_of_all (by decide)) ?_)) (printable_of_all (by decide))
  intro l hl
  obtain ⟨s, hs, rfl⟩ := List.mem_map.mp hl
  obtain ⟨x, -, rfl⟩ := List.mem_map.mp hs
  exact printable_write x.printable

theorem printable_entryWord {w : Str} (hw : w ∈ entryWords) : Printable w := by
  simp only [entryWords, List.mem_cons, List.not_mem_nil, or_false] at hw
  rcases hw with rfl | rfl | rfl | rfl | rfl | rfl | rfl | rfl | rfl | rfl
  all_goals exact printable_of_all (by decide)

theorem printable_of_mem_fieldLine {w v : Str} {present : Bool} (hw : w ∈ entryWords) (hv : Printable v)
    (h : line ∈ Style.fieldLine w present v) : Printable line := by
  unfold Style.fieldLine at h
  split at h
  · rw [List.mem_singleton.mp h]
    exact .indented 4 ((printable_entryWord hw).append (.cons (by decide) (.cons (by decide) hv)))
  · simp at h

theorem printable_of_mem_block {w : Str} {contents : List Str} (hw : w ∈ entryWords)
    (hcontents : ∀ content ∈ contents, Printable content) (h : line ∈ Style.block w contents) : Printable line := by
  unfold Style.block at h
  split at h
  · simp at h
  · rcases List.mem_cons.mp h with rfl | h
    · exact .indented 4 ((printable_entryWord hw).append (printable_of_all (by decide)))
    · obtain ⟨content, hcontent, rfl⟩ := List.mem_map.mp h
      exact .indented 6 (hcontents content hcontent)

theorem printable_of_mem_metaLines (h : line ∈ st.metaLines p) : Printable line := by
  unfold Style.metaLines at h
  simp only [List.mem_append] at h
  rcases h with ((((h | h) | h) | h) | h) | h
  · apply printable_of_mem_fieldLine (by decide) (printable_flowMap _) h
    intro x hx
    simp only [Style.resolution, List.mem_append, List.mem_map] at hx
    rcases hx with ⟨y, -, rfl⟩ | ⟨y, -, rfl⟩
    · exact ⟨printable_of_all (show integrityWord.all _ = true by decide), y.printable⟩
    · exact ⟨printable_of_all (show "tarball".toList.all _ = true by decide), y.printable⟩
  · apply printable_of_mem_fieldLine (by decide) (printable_flowMap _) h
    intro x hx
    obtain ⟨y, -, rfl⟩ := List.mem_map.mp hx
    exact ⟨(clean_part y.1).printable, y.2.printable⟩
  · exact printable_of_mem_fieldLine (by decide) printable_flowList h
  · exact printable_of_mem_fieldLine (by decide) printable_flowList h
  · exact printable_of_mem_fieldLine (by decide) (printable_of_all (by decide)) h
  · apply printable_of_mem_block (by decide) _ h
    intro content hcontent
    obtain ⟨d, -, rfl⟩ := List.mem_map.mp hcontent
    exact printable_pair d.1.printable_text d.2.printable

theorem printable_of_mem_graphLines (h : line ∈ st.graphLines p) : Printable line := by
  unfold Style.graphLines at h
  simp only [List.mem_append] at h
  rcases h with (h | h) | h
  · apply printable_of_mem_block (by decide) _ h
    intro content hcontent
    obtain ⟨d, -, rfl⟩ := List.mem_map.mp hcontent
    exact printable_pair d.1.printable_text d.2.printable
  · apply printable_of_mem_block (by decide) _ h
    intro content hcontent
    obtain ⟨d, -, rfl⟩ := List.mem_map.mp hcontent
    exact printable_pair d.1.printable_text d.2.printable
  · apply printable_of_mem_block (by decide) _ h
    intro content hcontent
    obtain ⟨name, -, rfl⟩ := List.mem_map.mp hcontent
    exact .cons (by decide) (.cons (by decide) (printable_write name.printable_text))

theorem printable_of_mem_devLines (h : line ∈ Style.devLines p) : Printable line := by
  apply printable_of_mem_fieldLine (by decide) _ h
  split <;> exact printable_of_all (by decide)

theorem printable_keyLine {key : Str} (h : ValidKey key) : Printable (st.keyLine key) :=
  .indented 2 ((printable_write h.clean.printable).append (printable_of_all (by decide)))

/-- A line below the title of a section. -/
structure Inner (line : Str) : Prop where
  printable : Printable line
  inside : inSection line = true

theorem Inner.ne_title {title : Str} (h : Inner line) (htitle : inSection title = false) : line ≠ title := by
  rintro rfl
  rw [h.inside] at htitle
  cases htitle

theorem inSection_indented (n : Nat) (s : Str) : inSection (indented (n + 1) s) = true := by
  simp [inSection, indented, List.replicate_succ]

theorem inner_nil : Inner [] := ⟨printable_of_all rfl, rfl⟩

theorem inner_of_mem_blank (h : line ∈ st.blank) : Inner line := by
  unfold Style.blank at h
  split at h
  · rw [List.mem_singleton.mp h]
    exact inner_nil
  · simp at h

theorem EntryLine.inside (h : EntryLine st line) : inSection line = true := by
  obtain ⟨n, content, hn, rfl, -⟩ := h
  obtain ⟨k, rfl⟩ := Nat.exists_eq_add_of_le' hn
  exact inSection_indented _ _

theorem inner_of_mem_packageLines {layout : Layout} (h : line ∈ st.packageLines layout p) : Inner line := by
  rw [packageLines_eq] at h
  rcases List.mem_append.mp h with h | h
  · exact inner_of_mem_blank h
  · rcases List.mem_cons.mp h with rfl | h
    · exact ⟨printable_keyLine (validKey_packageKey layout), inSection_indented 1 _⟩
    · refine ⟨?_, (entryLine_of_mem_packageBody h).inside⟩
      cases layout with
      | v6 =>
          simp only [packageBody, List.mem_append] at h
          rcases h with (h | h) | h
          · exact printable_of_mem_metaLines h
          · exact printable_of_mem_graphLines h
          · exact printable_of_mem_devLines h
      | v9 => exact printable_of_mem_metaLines h

theorem inner_of_mem_snapshotLines (h : line ∈ st.snapshotLines p) : Inner line := by
  have hkey := validKey_snapshot p
  simp only [Style.snapshotLines] at h
  split at h
  · split at h
    · rcases List.mem_append.mp h with h | h
      · exact inner_of_mem_blank h
      · rw [List.mem_singleton.mp h]
        refine ⟨.indented 2 ((printable_write hkey.clean.printable).append ?_), inSection_indented 1 _⟩
        exact printable_of_all (by decide)
    · simp at h
  · rcases List.mem_append.mp h with h | h
    · exact inner_of_mem_blank h
    · rcases List.mem_cons.mp h with rfl | h
      · exact ⟨printable_keyLine hkey, inSection_indented 1 _⟩
      · exact ⟨printable_of_mem_graphLines h, (entryLine_of_mem_graphLines h).inside⟩

end Breaks

/-! ## The whole file -/

section File

variable {st : Style} {layout : Layout} {lock : Lock}

/-- The lines below `packages`. -/
def packagesBody (st : Style) (layout : Layout) (lock : Lock) : List Str := lock.packages.flatMap (st.packageLines layout)

/-- The lines below `snapshots`. -/
def snapshotsBody (st : Style) (lock : Lock) : List Str := lock.packages.flatMap st.snapshotLines

theorem inner_packagesBody : ∀ line ∈ packagesBody st layout lock, Inner line := by
  intro line hline
  obtain ⟨p, -, hline⟩ := List.mem_flatMap.mp hline
  exact inner_of_mem_packageLines hline

theorem inner_snapshotsBody : ∀ line ∈ snapshotsBody st lock, Inner line := by
  intro line hline
  obtain ⟨p, -, hline⟩ := List.mem_flatMap.mp hline
  exact inner_of_mem_snapshotLines hline

theorem lines_render (st : Style) (layout : Layout) (lock : Lock) : lines (st.render layout lock)
    = lock.preamble ++ (packagesWord ++ [':']) :: packagesBody st layout lock ++ st.snapshots lock layout := by
  apply lines_writeLines
  intro line hline
  simp only [List.mem_append, List.mem_cons] at hline
  rcases hline with (hline | rfl | hline) | hline
  · exact (lock.untitled line hline).2.2
  · exact Printable.breaks (printable_of_all (by decide))
  · exact (inner_packagesBody line hline).printable.breaks
  · cases layout with
    | v6 => simp [Style.snapshots] at hline
    | v9 =>
        simp only [Style.snapshots, List.mem_cons] at hline
        rcases hline with rfl | rfl | hline
        · exact inner_nil.printable.breaks
        · exact Printable.breaks (printable_of_all (by decide))
        · exact (inner_snapshotsBody line hline).printable.breaks

/-- The section is found below its title, and ends where the next one begins. -/
theorem parseSection_eq {content title : Str} {before body after : List Str}
    (hlines : lines content = before ++ (title ++ [':']) :: (body ++ after)) (htitle : trim (title ++ [':']) = title ++ [':'])
    (hbefore : ∀ line ∈ before, line ≠ title ++ [':']) (hbody : ∀ line ∈ body, Inner line)
    (hafter : ∀ line ∈ after.head?, inSection line = false) :
    parseSection content title = (body.foldl Walk.step .new).finish := by
  have hdrop : (lines content).dropWhile (· ≠ title ++ [':']) = (title ++ [':']) :: (body ++ after) := by
    rw [hlines, List.dropWhile_append_of_pos, List.dropWhile_cons_of_neg (by simp)]
    exact fun line hline => decide_eq_true (hbefore line hline)
  have htake : (body ++ after).takeWhile inSection = body := by
    rw [List.takeWhile_append_of_pos fun line hline => (hbody line hline).inside]
    cases after with
    | nil => simp
    | cons line after => rw [List.takeWhile_cons_of_neg (by simp [hafter line rfl]), List.append_nil]
  rw [parseSection, hdrop]
  dsimp only
  rw [if_neg (not_not.mpr htitle), htake]

theorem parseSection_packages (layout : Layout) :
    parseSection (st.render layout lock) packagesWord = lock.packages.map (rawPackage st layout) := by
  have hbefore : ∀ line ∈ lock.preamble, line ≠ packagesWord ++ [':'] := fun line hline => (lock.untitled line hline).1
  cases layout with
  | v6 =>
      have hlines : lines (st.render .v6 lock)
          = lock.preamble ++ (packagesWord ++ [':']) :: (packagesBody st .v6 lock ++ []) := by
        rw [lines_render, Style.snapshots]
        simp
      rw [parseSection_eq hlines (by decide) hbefore inner_packagesBody (by simp), packagesBody, finish_foldl_packages]
      rfl
  | v9 =>
      -- the blank line before the snapshots still belongs to the packages
      have hlines : lines (st.render .v9 lock) = lock.preamble ++ (packagesWord ++ [':']) ::
          (packagesBody st .v9 lock ++ [[]] ++ (snapshotsWord ++ [':']) :: snapshotsBody st lock) := by
        rw [lines_render, Style.snapshots, snapshotsBody]
        simp
      have hbody : ∀ line ∈ packagesBody st .v9 lock ++ [[]], Inner line := by
        intro line hline
        rcases List.mem_append.mp hline with h | h
        · exact inner_packagesBody line h
        · rw [List.mem_singleton.mp h]
          exact inner_nil
      have hafter : ∀ line ∈ ((snapshotsWord ++ [':']) :: snapshotsBody st lock).head?, inSection line = false := by
        intro line hline
        rw [List.head?_cons, Option.mem_some_iff] at hline
        rw [← hline]
        decide
      rw [parseSection_eq hlines (by decide) hbefore hbody hafter, List.foldl_append, List.foldl_cons, step_blank,
        List.foldl_nil, packagesBody, finish_foldl_packages]
      rfl

theorem ne_snapshots_of_mem {line : Str} (h : line ∈ lock.preamble ++ (packagesWord ++ [':']) :: packagesBody st layout lock) :
    line ≠ snapshotsWord ++ [':'] := by
  rcases List.mem_append.mp h with h | h
  · exact (lock.untitled line h).2.1
  · rcases List.mem_cons.mp h with rfl | h
    · decide
    · exact (inner_packagesBody line h).ne_title (by decide)

theorem parseSection_snapshots_v6 : parseSection (st.render .v6 lock) snapshotsWord = [] := by
  have hdrop : (lines (st.render .v6 lock)).dropWhile (· ≠ snapshotsWord ++ [':']) = [] := by
    rw [lines_render, Style.snapshots, List.append_nil, List.dropWhile_eq_nil_iff]
    exact fun line hline => decide_eq_true (ne_snapshots_of_mem hline)
  rw [parseSection, hdrop]

theorem parseSection_snapshots_v9 : parseSection (st.render .v9 lock) snapshotsWord
    = (lock.packages.filter (hasSnapshot st)).map (rawSnapshot st) := by
  have hlines : lines (st.render .v9 lock)
      = (lock.preamble ++ (packagesWord ++ [':']) :: packagesBody st .v9 lock ++ [[]])
        ++ (snapshotsWord ++ [':']) :: (snapshotsBody st lock ++ []) := by
    rw [lines_render, Style.snapshots, snapshotsBody]
    simp
  have hbefore : ∀ line ∈ lock.preamble ++ (packagesWord ++ [':']) :: packagesBody st .v9 lock ++ [[]],
      line ≠ snapshotsWord ++ [':'] := by
    intro line hline
    rcases List.mem_append.mp hline with h | h
    · exact ne_snapshots_of_mem h
    · rw [List.mem_singleton.mp h]
      decide
  rw [parseSection_eq hlines (by decide) hbefore inner_snapshotsBody (by simp), snapshotsBody, finish_foldl_snapshots]
  rfl

/-! ## Snapshots -/

theorem key_blockLine {r : Reading} {content : Str} : (r.blockLine content).entry.key = r.entry.key := by
  unfold Reading.blockLine
  split
  · split <;> rfl
  · split
    · split
      · dsimp only
        split <;> rfl
      · rfl
    · rfl

theorem key_field {r : Reading} {content : Str} : (r.field content).entry.key = r.entry.key := by
  unfold Reading.field
  split
  · rfl
  · split
    · rfl
    · split_ifs
      · rfl
      · split <;> rfl
      · rfl
      · rfl
      · exact key_blockLine

theorem key_foldl_readLine {r : Reading} {ls : List Str} : (ls.foldl readLine r).entry.key = r.entry.key := by
  induction ls generalizing r with
  | nil => rfl
  | cons line ls ih => rw [List.foldl_cons, ih, readLine, key_field]

theorem splitKey_rawSnapshot (st : Style) (p : Package) :
    (splitKey (rawSnapshot st p).key).map Prod.fst = some p.name.text := by
  rw [rawSnapshot, key_foldl_readLine]
  change (splitKey (snapshotKey st p)).map Prod.fst = _
  have hkey := validKey_snapshot p
  unfold snapshotKey
  split
  · obtain ⟨t, ht, hparen, hat, hlast⟩ := yamlScalar_braces st hkey.clean hkey.ne
    rw [ht]
    exact splitKey_snapshot p hparen hat hlast
  · rw [← List.append_nil (Style.nameVersion p ++ p.suffix.text)]
    exact splitKey_snapshot p (by simp) (by simp) (by simp)

theorem snapshotDeps_v6 : snapshotDeps (st.render .v6 lock) = ∅ := by
  rw [snapshotDeps, parseSection_snapshots_v6]
  rfl

theorem snapshotDeps_v9 : snapshotDeps (st.render .v9 lock)
    = (lock.packages.filter (hasSnapshot st)).foldl (fun m p => m.insertAll [p.name.text] (rawSnapshot st p).deps) ∅ := by
  rw [snapshotDeps, parseSection_snapshots_v9, List.foldl_map]
  congr 1
  funext m p
  obtain ⟨x, hx, hname⟩ := Option.map_eq_some_iff.mp (splitKey_rawSnapshot st p)
  rw [hx]
  dsimp only
  rw [hname]
  rfl

theorem lookup_snapshotDeps {p : Package} (hp : p ∈ lock.packages) : (snapshotDeps (st.render .v9 lock)).lookup p.name.text
    = if hasSnapshot st p then some (rawSnapshot st p).deps else none := by
  have hnames (ps : List Package) : ps.flatMap (fun p => [p.name.text]) = ps.map fun p => p.name.text := by
    rw [← List.map_eq_flatMap]
  rw [snapshotDeps_v9]
  split
  · rename_i hsnapshot
    apply Finmap.lookup_foldl_insertAll (fun p : Package => [p.name.text])
    · rw [hnames]
      exact lock.distinct.sublist (List.filter_sublist.map _)
    · exact List.mem_filter.mpr ⟨hp, hsnapshot⟩
    · exact List.mem_singleton_self _
  · rename_i hsnapshot
    rw [Finmap.lookup_foldl_insertAll_of_not_mem (fun p : Package => [p.name.text]), Finmap.lookup_empty]
    rw [hnames, List.mem_map]
    rintro ⟨q, hq, hname⟩
    obtain ⟨hmem, hq⟩ := List.mem_filter.mp hq
    rw [List.inj_on_of_nodup_map lock.distinct hmem hp hname] at hq
    exact hsnapshot hq

/-! ## Key words are no dependencies -/

section KeyWord

variable {k : Str}

theorem lookup_rawPackage (p : Package) (hk : k ∈ keyWords) (hquote : st.quote k = false) :
    (rawPackage st layout p).deps.lookup k = none :=
  lookup_foldl_readLine (fun _ hline => entryLine_of_mem_packageBody hline) hk hquote rfl

theorem lookup_rawSnapshot (p : Package) (hk : k ∈ keyWords) (hquote : st.quote k = false) :
    (rawSnapshot st p).deps.lookup k = none :=
  lookup_foldl_readLine (fun _ hline => entryLine_of_mem_graphLines hline) hk hquote rfl

theorem lookup_of_snapshotDeps (hk : k ∈ keyWords) (hquote : st.quote k = false) {name : Str} {extra : StrMap}
    (h : (snapshotDeps (st.render layout lock)).lookup name = some extra) : extra.lookup k = none := by
  cases layout with
  | v6 =>
      rw [snapshotDeps_v6, Finmap.lookup_empty] at h
      cases h
  | v9 =>
      rw [snapshotDeps_v9] at h
      rcases Finmap.cases_of_lookup_foldl_insertAll (fun p : Package => [p.name.text]) _ h with h | ⟨p, -, rfl⟩
      · rw [Finmap.lookup_empty] at h
        cases h
      · exact lookup_rawSnapshot p hk hquote

theorem lookup_merged {snapshots : Finmap fun _ : Str => StrMap} {name : Str} {deps : StrMap} (hdeps : deps.lookup k = none)
    (hsnapshots : ∀ extra, snapshots.lookup name = some extra → extra.lookup k = none) :
    (merged snapshots name deps).lookup k = none := by
  unfold merged
  split
  · rename_i extra hextra
    rw [Finmap.lookup_union, hdeps, hsnapshots extra hextra]
    rfl
  · exact hdeps

/-- No entry has a dependency under an unquoted key word. -/
theorem lookup_of_parsePnpmPackages (hk : k ∈ keyWords) (hquote : st.quote k = false) {name : Str} {y : PnpmEntry}
    (h : (parsePnpmPackages (st.render layout lock)).lookup name = some y) : y.dependencies.lookup k = none := by
  have hfold (raws : List RawEntry) (hraws : ∀ raw ∈ raws, raw.deps.lookup k = none)
      (out : Finmap fun _ : Str => PnpmEntry) (hout : ∀ a y, out.lookup a = some y → y.dependencies.lookup k = none) :
      ∀ a y, (raws.foldl (addPackage (snapshotDeps (st.render layout lock))) out).lookup a = some y →
        y.dependencies.lookup k = none := by
    induction raws generalizing out with
    | nil => exact hout
    | cons raw raws ih =>
        apply ih (fun x hx => hraws x (List.mem_cons_of_mem _ hx))
        intro a y hy
        unfold addPackage at hy
        split at hy
        · exact hout a y hy
        · dsimp only at hy
          split at hy
          · exact hout a y hy
          · rename_i keyName _ _ _
            by_cases ha : a = raw.name.getD keyName
            · rw [ha, Finmap.lookup_insert, Option.some.injEq] at hy
              rw [← hy]
              exact lookup_merged (hraws raw List.mem_cons_self) fun _ => lookup_of_snapshotDeps hk hquote
            · rw [Finmap.lookup_insert_of_ne _ ha] at hy
              exact hout a y hy
  rw [parsePnpmPackages, parseSection_packages] at h
  apply hfold _ _ ∅ _ name y h
  · intro raw hraw
    obtain ⟨p, -, rfl⟩ := List.mem_map.mp hraw
    exact lookup_rawPackage p hk hquote
  · intro a y hy
    rw [Finmap.lookup_empty] at hy
    cases hy

end KeyWord

/-! ## What is stored -/

section Stored

variable {p : Package}

/-- What is read of the dependencies of a package. -/
def Package.readDeps (p : Package) (name : Str) : Option Str := (Package.pairs p.allDependencies ++ p.junk).lookup name

theorem lookup_orInsertAll_empty (l : List (Str × Str)) (name : Str) :
    ((∅ : StrMap).orInsertAll l).lookup name = l.lookup name := by
  rw [Finmap.lookup_orInsertAll, Finmap.lookup_empty, Option.none_or]

/-- An entry with the version and the integrity of the package. -/
structure RawRead (p : Package) (raw : RawEntry) : Prop where
  version : raw.version = none
  name : raw.name = none
  integrity : raw.integrity = p.integrity.map Scalar.text

theorem rawPackage_v6 (hpeers : p.PeersSafe st)
    (hnames : ∀ d ∈ p.allDependencies, st.quote d.1.text = false → d.1.text ∉ keyWords) :
    RawRead p (rawPackage st .v6 p) ∧ ∀ name, (rawPackage st .v6 p).deps.lookup name = p.readDeps name := by
  have hmeta := metaRead_metaLines (st.path p) hpeers
  have hgraph := entry_graphLines hmeta.inDeps hmeta.inOptional hnames
  obtain ⟨dev, hdev⟩ := entry_devLines (p := p) (r := (st.graphLines p).foldl readLine
    ((st.metaLines p).foldl readLine (.new (st.path p))))
  have hraw : rawPackage st .v6 p = { ((((st.metaLines p).foldl readLine (.new (st.path p))).adding
      (Package.pairs p.allDependencies ++ p.junk)).entry) with dev := dev } := by
    rw [rawPackage, packageBody, packageKey, List.foldl_append, List.foldl_append, hdev, hgraph]
  rw [hraw]
  refine ⟨⟨hmeta.version, hmeta.name, hmeta.integrity⟩, fun name => ?_⟩
  change ((Finmap.orInsertAll _ _).lookup name) = _
  rw [hmeta.deps, lookup_orInsertAll_empty, Package.readDeps]

theorem rawPackage_v9 (hpeers : p.PeersSafe st) : RawRead p (rawPackage st .v9 p) ∧ (rawPackage st .v9 p).deps = ∅ := by
  have hmeta := metaRead_metaLines (Style.nameVersion p) hpeers
  exact ⟨⟨hmeta.version, hmeta.name, hmeta.integrity⟩, hmeta.deps⟩

theorem lookup_rawSnapshot_eq (hnames : ∀ d ∈ p.allDependencies, st.quote d.1.text = false → d.1.text ∉ keyWords)
    (name : Str) : (rawSnapshot st p).deps.lookup name = p.readDeps name := by
  have hgraph := entry_graphLines (r := .new (snapshotKey st p)) rfl rfl hnames
  rw [rawSnapshot, hgraph]
  exact lookup_orInsertAll_empty _ _

/-- The dependencies of a package come from its entry or from its snapshot. -/
theorem lookup_merged_eq (hp : p ∈ lock.packages) (hpeers : p.PeersSafe st)
    (hnames : ∀ d ∈ p.allDependencies, st.quote d.1.text = false → d.1.text ∉ keyWords) (name : Str) :
    (merged (snapshotDeps (st.render layout lock)) p.name.text (rawPackage st layout p).deps).lookup name
      = p.readDeps name := by
  cases layout with
  | v6 =>
      rw [snapshotDeps_v6, merged, Finmap.lookup_empty]
      exact (rawPackage_v6 hpeers hnames).2 name
  | v9 =>
      rw [merged, lookup_snapshotDeps hp, (rawPackage_v9 hpeers).2]
      by_cases hsnapshot : hasSnapshot st p = true
      · rw [if_pos hsnapshot]
        dsimp only
        rw [Finmap.lookup_union, Finmap.lookup_empty, Option.none_or, lookup_rawSnapshot_eq hnames]
      · rw [if_neg hsnapshot]
        -- without a snapshot there are no lines of dependencies to be read
        have hnil : st.graphLines p = [] := by
          by_contra hne
          exact hsnapshot (by simp [hasSnapshot, hne])
        rw [← lookup_rawSnapshot_eq hnames, rawSnapshot, hnil]
        rfl

theorem rawRead_rawPackage (hpeers : p.PeersSafe st)
    (hnames : ∀ d ∈ p.allDependencies, st.quote d.1.text = false → d.1.text ∉ keyWords) :
    RawRead p (rawPackage st layout p) := by
  cases layout with
  | v6 => exact (rawPackage_v6 hpeers hnames).1
  | v9 => exact (rawPackage_v9 hpeers).1

/-- What is stored of a package. -/
def storedEntry (st : Style) (layout : Layout) (lock : Lock) (p : Package) : PnpmEntry :=
  let raw := rawPackage st layout p
  ⟨p.name.text, p.version.text, raw.integrity, raw.dev,
    merged (snapshotDeps (st.render layout lock)) p.name.text raw.deps⟩

theorem addPackage_rawPackage {out : Finmap fun _ : Str => PnpmEntry} (h : RawRead p (rawPackage st layout p)) :
    addPackage (snapshotDeps (st.render layout lock)) out (rawPackage st layout p)
      = out.insertAll [p.name.text] (storedEntry st layout lock p) := by
  have hkey : splitKey (rawPackage st layout p).key = some (p.name.text, p.version.text) := by
    rw [rawPackage, key_foldl_readLine]
    exact splitKey_packageKey layout
  rw [addPackage, hkey]
  dsimp only
  rw [h.name, h.version, Option.getD_none, Option.getD_none,
    if_neg (not_or.mpr ⟨PackageName.text_ne_nil, p.version.ne⟩)]
  rfl

/-- Every package is stored under its name. -/
theorem lookup_parsePnpmPackages (layout : Layout) (hpeers : ∀ p ∈ lock.packages, p.PeersSafe st)
    (hnames : ∀ p ∈ lock.packages, ∀ d ∈ p.allDependencies, st.quote d.1.text = false → d.1.text ∉ keyWords)
    (hp : p ∈ lock.packages) : ∃ y, (parsePnpmPackages (st.render layout lock)).lookup p.name.text = some y ∧
      y.version = p.version.text ∧ y.integrity = p.integrity.map Scalar.text ∧
      ∀ name, y.dependencies.lookup name = p.readDeps name := by
  have hdistinct : (lock.packages.flatMap fun p => [p.name.text]).Nodup := by
    rw [← List.map_eq_flatMap]
    exact lock.distinct
  have hparse : parsePnpmPackages (st.render layout lock)
      = lock.packages.foldl (fun m p => m.insertAll [p.name.text] (storedEntry st layout lock p)) ∅ := by
    rw [parsePnpmPackages, parseSection_packages, List.foldl_map]
    exact List.foldl_ext _ _ _ fun out q hq => addPackage_rawPackage (rawRead_rawPackage (hpeers q hq) (hnames q hq))
  refine ⟨storedEntry st layout lock p, ?_, rfl, (rawRead_rawPackage (hpeers p hp) (hnames p hp)).integrity,
    fun name => lookup_merged_eq hp (hpeers p hp) (hnames p hp) name⟩
  rw [hparse]
  exact Finmap.lookup_foldl_insertAll (fun p : Package => [p.name.text]) _ hdistinct hp (List.mem_singleton_self _)

theorem readDeps_eq (name : Str) : p.readDeps name = (p.recorded name).or (p.junk.lookup name) := List.lookup_append

theorem recorded_eq_none {name : Str} : p.recorded name = none ↔ ∀ d ∈ p.allDependencies, d.1.text ≠ name := by
  rw [Package.recorded, List.lookup_eq_none_iff]
  simp only [Package.pairs, List.mem_map, forall_exists_index, and_imp, bne_iff_ne, ne_eq]
  constructor
  · exact fun h d hd heq => h _ d hd rfl heq.symm
  · rintro h x d hd rfl heq
    exact h d hd heq.symm

/-- What is read is what is recorded unless the list of the transitive peers is among it. -/
theorem readDeps_eq_recorded : (∀ name, p.readDeps name = p.recorded name) ↔ p.transitivePeerDependencies = [] ∨
    p.allDependencies = [] ∨ ∃ d ∈ p.allDependencies, d.1.text = Style.transitiveWord := by
  simp only [readDeps_eq, Package.junk]
  by_cases hnil : p.transitivePeerDependencies = [] ∨ p.allDependencies = []
  · simp only [if_pos hnil, List.lookup_nil, Option.or_none, implies_true, true_iff]
    exact hnil.imp_right .inl
  · rw [if_neg hnil, ← or_assoc]
    simp only [hnil, false_or]
    constructor
    · intro h
      by_contra hnot
      have hnone : p.recorded Style.transitiveWord = none :=
        recorded_eq_none.mpr fun d hd heq => hnot ⟨d, hd, heq⟩
      have hread := h Style.transitiveWord
      rw [hnone, Option.none_or, List.lookup_cons_self] at hread
      cases hread
    · rintro ⟨d, hd, hname⟩ name
      by_cases heq : name = Style.transitiveWord
      · cases hrecorded : p.recorded name with
        | none => exact absurd (hname.trans heq.symm) (recorded_eq_none.mp hrecorded d hd)
        | some v => rfl
      · have hlookup : [(Style.transitiveWord, ([] : Str))].lookup name = none := by
          rw [List.lookup_eq_none_iff]
          simpa using heq
        rw [hlookup, Option.or_none]

end Stored

end File

end ThreeVa.Locks.Pnpm
