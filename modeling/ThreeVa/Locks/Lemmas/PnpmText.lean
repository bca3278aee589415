import ThreeVa.Locks.Pnpm

/-!
# Scalars, words and keys of `pnpm-lock.yaml`
-/

namespace ThreeVa.Locks.Pnpm
open Text

/-! ## Clean texts -/

/-- Texts that stay as they are when they are trimmed as scalars. -/
def Clean (s : Str) : Prop := ∀ c ∈ s, isScalarChar c

section Clean

variable {s : Str} {c : Char}

theorem clean_of_all (h : s.all isScalarChar = true) : Clean s := List.all_eq_true.mp h

theorem isScalarChar_of_printable (h : 33 ≤ c.toNat ∧ c.toNat ≤ 126) (hlist : c ∉ ['\'', '"', ',', '{', '}', '[', ']']) :
    isScalarChar c := by
  simp only [isScalarChar, isWhitespace_of_printable h, Bool.not_false, Bool.true_and, Bool.and_eq_true, decide_eq_true_eq,
    Bool.not_eq_true', List.contains_eq_mem, decide_eq_false_iff_not]
  exact ⟨h.1, hlist⟩

theorem isScalarChar_blank (h : isScalarChar c) : isWhitespace c = false := by
  simp only [isScalarChar, Bool.and_eq_true, Bool.not_eq_true'] at h
  exact h.1.1

theorem isScalarChar_printable (h : isScalarChar c) : 33 ≤ c.toNat := by
  simp only [isScalarChar, Bool.and_eq_true, decide_eq_true_eq] at h
  exact h.1.2

theorem Clean.not_mem (h : Clean s) (hc : isScalarChar c = false) : c ∉ s := by
  intro hmem
  rw [h c hmem] at hc
  cases hc

theorem Clean.tight (h : Clean s) (hne : s ≠ []) : Tight isWhitespace s :=
  tight_of_clean hne fun c hc => isScalarChar_blank (h c hc)

theorem Clean.append {t : Str} (hs : Clean s) (ht : Clean t) : Clean (s ++ t) := by
  intro c hc
  rcases List.mem_append.mp hc with h | h
  · exact hs c h
  · exact ht c h

theorem Clean.cons (hc : isScalarChar c) (hs : Clean s) : Clean (c :: s) := by
  intro d hd
  rcases List.mem_cons.mp hd with rfl | h
  · exact hc
  · exact hs d h

theorem isScalarChar_of_isNameChar (h : isNameChar c) : isScalarChar c := by
  apply isScalarChar_of_printable (isNameChar_printable h)
  intro hlist
  have hnot : (['\'', '"', ',', '{', '}', '[', ']'].any isNameChar) = false := by decide
  exact List.any_eq_false.mp hnot c hlist h

theorem isScalarChar_of_isVersionChar (h : isVersionChar c) : isScalarChar c := by
  have hprintable : 33 ≤ c.toNat ∧ c.toNat ≤ 126 := by
    simp only [isVersionChar, Bool.or_eq_true, decide_eq_true_eq, List.mem_cons, List.not_mem_nil, or_false] at h
    rcases h with h | rfl | rfl | rfl
    · exact isAlphanum_printable h
    all_goals decide
  apply isScalarChar_of_printable hprintable
  intro hlist
  have hnot : (['\'', '"', ',', '{', '}', '[', ']'].any isVersionChar) = false := by decide
  exact List.any_eq_false.mp hnot c hlist h

theorem clean_part (part : NamePart) : Clean part.text := fun c hc => isScalarChar_of_isNameChar (part.chars c hc)

theorem clean_name (name : PackageName) : Clean name.text := by
  intro c hc
  rcases PackageName.mem_text hc with h | rfl | rfl
  · exact isScalarChar_of_isNameChar h
  · decide
  · decide

theorem clean_version (version : Version) : Clean version.text :=
  fun c hc => isScalarChar_of_isVersionChar (version.chars c hc)

theorem clean_nameVersion (p : Package) : Clean (Style.nameVersion p) :=
  (clean_name p.name).append (.cons (by decide) (clean_version p.version))

theorem Version.not_mem (version : Version) (h : isVersionChar c = false) : c ∉ version.text := by
  intro hmem
  rw [version.chars c hmem] at h
  cases h

end Clean

/-! ## Scalars -/

section Scalars

variable {st : Style} {s : Str}

theorem write_of_quote (h : st.quote s = true) : st.write s = '\'' :: s ++ ['\''] := by simp [Style.write, h]

theorem write_of_not_quote (h : st.quote s = false) : st.write s = s := by simp [Style.write, h]

theorem trimEndMatches_of_last {q : Char} (h : ∀ c ∈ s.getLast?, c ≠ q) : trimEndMatches q s = s :=
  rdropWhile_of_last fun c hc => decide_eq_false (h c hc)

theorem yamlScalar_clean (n : Nat) (h : Clean s) (hne : s ≠ []) : yamlScalar (indented n s) = s := by
  rw [yamlScalar, trim_indented n (h.tight hne), trimEndMatches_of_last, (h.tight hne).trim_eq,
    trimMatches_of_not_mem (h.not_mem (by decide)), trimMatches_of_not_mem (h.not_mem (by decide)), (h.tight hne).trim_eq]
  rintro c hc rfl
  exact h.not_mem (by decide) (List.mem_of_getLast? hc)

theorem yamlScalar_quoted (n : Nat) (h : Clean s) (hne : s ≠ []) : yamlScalar (indented n ('\'' :: s ++ ['\''])) = s := by
  have htight : Tight isWhitespace ('\'' :: s ++ ['\'']) := tight_wrapped (by decide)
  rw [yamlScalar, trim_indented n htight, trimEndMatches_of_last, htight.trim_eq,
    trimMatches_wrapped (h.not_mem (by decide)), trimMatches_of_not_mem (h.not_mem (by decide)), (h.tight hne).trim_eq]
  rw [List.getLast?_concat]
  rintro c hc rfl
  cases hc

theorem yamlScalar_write (n : Nat) (h : Clean s) (hne : s ≠ []) : yamlScalar (indented n (st.write s)) = s := by
  cases hquote : st.quote s with
  | false => rw [write_of_not_quote hquote, yamlScalar_clean n h hne]
  | true => rw [write_of_quote hquote, yamlScalar_quoted n h hne]

theorem head_write (st : Style) (s : Str) :
    ∃ c rest, st.write s = c :: rest ∧ isWhitespace c = false ∧ c ≠ '-' := by
  cases hquote : st.quote s with
  | true => exact ⟨'\'', s ++ ['\''], by rw [write_of_quote hquote]; rfl, by decide, by decide⟩
  | false =>
      obtain ⟨hne, hfirst⟩ := st.plain s hquote
      cases s with
      | nil => exact absurd rfl hne
      | cons c rest =>
          obtain ⟨hspace, hindicator⟩ := hfirst c rfl
          refine ⟨c, rest, write_of_not_quote hquote, hspace, ?_⟩
          rintro rfl
          exact hindicator (by decide)

theorem mem_write {c : Char} (h : c ∈ st.write s) : c = '\'' ∨ c ∈ s := by
  cases hquote : st.quote s with
  | false => rw [write_of_not_quote hquote] at h; exact .inr h
  | true =>
      rw [write_of_quote hquote] at h
      simpa [or_comm, or_assoc] using h

/-- Only what is written without quotes is the word itself. -/
theorem write_eq_iff {w : Str} (hw : Clean w) : st.write s = w ↔ st.quote s = false ∧ s = w := by
  cases hquote : st.quote s with
  | false => rw [write_of_not_quote hquote]; simp
  | true =>
      rw [write_of_quote hquote]
      simp only [Bool.true_eq_false, false_and, iff_false]
      rintro rfl
      exact hw.not_mem (c := '\'') (by decide) (by simp)

def braces : Str := ": \x7b\x7d".toList

/-- The key before the braces of an empty mapping. -/
theorem yamlScalar_braces (st : Style) (h : Clean s) (hne : s ≠ []) :
    ∃ t, yamlScalar (trimEndMatches ':' (st.write s ++ braces)) = s ++ t ∧
      '(' ∉ t ∧ '@' ∉ t ∧ ∀ c ∈ t.getLast?, isWhitespace c = false := by
  have hlast (a : Str) : (a ++ braces).getLast? = some '}' := List.getLast?_append_of_ne_nil _ (by decide)
  have hclose {t : Str} (ht : t.getLast? = some '}') : ∀ c ∈ t.getLast?, isWhitespace c = false := by
    rw [ht]
    simpa using (by decide : isWhitespace '}' = false)
  have hend (a : Str) {p : Char → Bool} (hp : p '}' = false) : (a ++ braces).rdropWhile p = a ++ braces :=
    rdropWhile_of_last (by rw [hlast]; simpa using hp)
  have hfirst (a : Str) {p : Char → Bool} (hp : ∀ c ∈ s, p c = false) : (s ++ a).dropWhile p = s ++ a := by
    apply dropWhile_of_first
    rw [List.head?_append_of_ne_nil _ hne]
    exact fun c hc => hp c (List.mem_of_head? hc)
  have hclean {q : Char} (hq : isScalarChar q = false) : ∀ c ∈ s, decide (c = q) = false :=
    fun c hc => decide_eq_false fun heq => h.not_mem hq (heq ▸ hc)
  have hblank : ∀ c ∈ s, isWhitespace c = false := fun c hc => isScalarChar_blank (h c hc)
  cases hquote : st.quote s with
  | false =>
      refine ⟨braces, ?_, by decide, by decide, hclose rfl⟩
      rw [write_of_not_quote hquote]
      simp only [yamlScalar, trim, trimMatches, trimEndMatches]
      rw [hend s (by decide), hfirst _ hblank, hend s (by decide), hend s (by decide), hfirst _ hblank, hend s (by decide),
        hfirst _ (hclean (by decide)), hend s (by decide), hfirst _ (hclean (by decide)), hend s (by decide), hfirst _ hblank,
        hend s (by decide)]
  | true =>
      refine ⟨'\'' :: braces, ?_, by decide, by decide, hclose rfl⟩
      have hinner : (s ++ '\'' :: braces) = (s ++ ['\'']) ++ braces := by simp
      have hwhole : '\'' :: s ++ ['\''] ++ braces = '\'' :: (s ++ '\'' :: braces) := by simp
      rw [write_of_quote hquote]
      simp only [yamlScalar, trim, trimMatches, trimEndMatches]
      rw [hend _ (by decide), hwhole, List.dropWhile_cons_of_neg (by decide), ← hwhole, hend _ (by decide),
        hend _ (by decide), hwhole, List.dropWhile_cons_of_neg (by decide), ← hwhole, hend _ (by decide), hwhole,
        List.dropWhile_cons_of_pos (by decide), hfirst _ (hclean (by decide)), hinner, hend _ (by decide), ← hinner,
        hfirst _ (hclean (by decide)), hinner, hend _ (by decide), ← hinner, hfirst _ hblank, hinner, hend _ (by decide)]

end Scalars

/-! ## Words -/

section Words

variable {w w' rest : Str}

theorem eq_of_append_colon {a b : Str} (hw : ':' ∉ w) (hw' : ':' ∉ w') (h : w ++ ':' :: a = w' ++ ':' :: b) :
    w = w' ∧ a = b := by
  have hsplit := splitOnce_append (b := a) hw
  rw [h, splitOnce_append hw', Option.some.injEq, Prod.mk.injEq] at hsplit
  exact ⟨hsplit.1.symm, hsplit.2.symm⟩

theorem prefix_word (hw : ':' ∉ w) (hw' : ':' ∉ w') : w' ++ [':'] <+: w ++ ':' :: rest ↔ w = w' := by
  constructor
  · rintro ⟨t, ht⟩
    rw [List.append_assoc, List.singleton_append] at ht
    exact (eq_of_append_colon hw' hw ht).1.symm
  · rintro rfl
    exact ⟨rest, by simp⟩

theorem stripPrefix_pair (hw : ':' ∉ w) (hw' : ':' ∉ w') :
    stripPrefix (w' ++ [':', ' ']) (w ++ ':' :: ' ' :: rest) = if w = w' then some rest else none := by
  by_cases heq : w = w'
  · rw [if_pos heq, stripPrefix_eq_some, heq]
    simp
  · rw [if_neg heq, Option.eq_none_iff_forall_ne_some]
    intro t ht
    have hsplit := stripPrefix_eq_some.mp ht
    rw [List.append_assoc, List.cons_append] at hsplit
    exact heq (eq_of_append_colon hw hw' hsplit).1

end Words

/-! ## Flow mappings -/

section Flow

/-- The search of a value in the parts of a flow mapping. -/
def partValue (key part : Str) : Option Str :=
  (splitOnce ':' part).bind fun x => if yamlScalar x.1 = key then some (yamlScalar x.2) else none

variable {st : Style}

theorem partValue_pair (n : Nat) {k v key : Str} (hk : Clean k) (hkne : k ≠ []) (hcolon : ':' ∉ k) (hv : Clean v) (hvne : v ≠ []) :
    partValue key (indented n (k ++ ':' :: ' ' :: st.write v)) = if k = key then some v else none := by
  have hsplit : splitOnce ':' (indented n (k ++ ':' :: ' ' :: st.write v)) = some (indented n k, ' ' :: st.write v) := by
    rw [indented, ← List.append_assoc]
    apply splitOnce_append
    rw [List.mem_append, not_or]
    exact ⟨fun h => absurd (List.eq_of_mem_replicate h) (by decide), hcolon⟩
  have hvalue : yamlScalar (' ' :: st.write v) = v := yamlScalar_write 1 hv hvne
  rw [partValue, hsplit, Option.bind_some, yamlScalar_clean n hk hkne, hvalue]

theorem findSome?_flowMap (n : Nat) {pairs : List (Str × Str)} {key : Str}
    (hpairs : ∀ x ∈ pairs, Clean x.1 ∧ x.1 ≠ [] ∧ ':' ∉ x.1 ∧ Clean x.2 ∧ x.2 ≠ []) :
    ((indented n ([',', ' '].intercalate (pairs.map fun x => x.1 ++ ':' :: ' ' :: st.write x.2))).splitOn ',').findSome?
      (partValue key) = pairs.lookup key := by
  induction pairs generalizing n with
  | nil =>
      have hblank {c : Char} (hc : c ≠ ' ') : c ∉ indented n [] := fun h => by simp [indented, hc] at h
      rw [List.map_nil, List.intercalate_nil, List.splitOn_eq_singleton (hblank (by decide)), List.findSome?_singleton, partValue,
        splitOnce_eq_none.mpr (hblank (by decide))]
      rfl
  | cons x pairs ih =>
      obtain ⟨k, v⟩ := x
      obtain ⟨hk, hkne, hcolon, hv, hvne⟩ := hpairs _ List.mem_cons_self
      have hcomma : ',' ∉ indented n (k ++ ':' :: ' ' :: st.write v) := by
        simp only [indented, List.mem_append, List.mem_cons, not_or]
        refine ⟨fun h => absurd (List.eq_of_mem_replicate h) (by decide), hk.not_mem (by decide), by decide, by decide, ?_⟩
        intro h
        rcases mem_write h with h | h
        · cases h
        · exact hv.not_mem (by decide) h
      rw [List.lookup_cons]
      cases pairs with
      | nil =>
          rw [List.map_singleton, List.intercalate_singleton, List.splitOn_eq_singleton hcomma, List.findSome?_singleton,
            partValue_pair n hk hkne hcolon hv hvne]
          by_cases heq : k = key
          · simp [heq]
          · simp [heq, beq_false_of_ne (Ne.symm heq)]
      | cons y pairs =>
          have hrest := ih 1 fun x hx => hpairs x (List.mem_cons_of_mem _ hx)
          have hjoin : indented n ([',', ' '].intercalate (((k, v) :: y :: pairs).map fun x => x.1 ++ ':' :: ' ' :: st.write x.2))
              = indented n (k ++ ':' :: ' ' :: st.write v)
                ++ ',' :: indented 1 ([',', ' '].intercalate ((y :: pairs).map fun x => x.1 ++ ':' :: ' ' :: st.write x.2)) := by
            simp [indented, List.intercalate_cons_cons]
          rw [hjoin, List.splitOn_append_cons_self_of_not_mem hcomma, List.findSome?_cons, partValue_pair n hk hkne hcolon hv hvne, hrest]
          by_cases heq : k = key
          · simp [heq]
          · simp [heq, beq_false_of_ne (Ne.symm heq)]

/-- A flow mapping gives the value under a key back. -/
theorem inlineMappingValue_flowMap (st : Style) (key : Str) {before : Str} {pairs : List (Str × Str)} (hbefore : '{' ∉ before)
    (hpairs : ∀ x ∈ pairs, Clean x.1 ∧ x.1 ≠ [] ∧ ':' ∉ x.1 ∧ Clean x.2 ∧ x.2 ≠ []) :
    inlineMappingValue (before ++ st.flowMap pairs) key = pairs.lookup key := by
  have hclose : '}' ∉ ([] : Str) := by simp
  rw [inlineMappingValue, Style.flowMap, List.cons_append, splitOnce_append hbefore, Option.bind_some]
  dsimp only
  rw [rsplitOnce_append hclose, Option.bind_some]
  exact findSome?_flowMap 0 hpairs

end Flow

/-! ## Keys -/

section Keys

variable {st : Style} {p : Package}

theorem head_name (name : PackageName) : ∃ c rest, name.text = c :: rest ∧ isScalarChar c ∧ c ≠ '/' := by
  unfold PackageName.text
  split
  · cases hbase : name.base.text with
    | nil => exact absurd hbase name.base.ne
    | cons c rest =>
        have hmem : c ∈ name.base.text := by simp [hbase]
        refine ⟨c, rest, rfl, clean_part _ c hmem, ?_⟩
        rintro rfl
        exact name.base.not_mem (by decide) hmem
  · exact ⟨'@', _, rfl, by decide, by decide⟩

theorem takeWhile_append_of_not_mem {a b : Str} {c : Char} (h : c ∉ a) :
    (a ++ b).takeWhile (· ≠ c) = a ++ b.takeWhile (· ≠ c) := by
  apply List.takeWhile_append_of_pos
  intro x hx
  simp only [ne_eq, decide_not, Bool.not_eq_true', decide_eq_false_iff_not]
  rintro rfl
  exact h hx

theorem takeWhile_of_not_mem {a : Str} {c : Char} (h : c ∉ a) : a.takeWhile (· ≠ c) = a := by
  simpa using takeWhile_append_of_not_mem (b := []) h

theorem takeWhile_append_cons {a b : Str} {c : Char} (h : c ∉ a) : (a ++ c :: b).takeWhile (· ≠ c) = a := by
  rw [takeWhile_append_of_not_mem h, List.takeWhile_cons_of_neg (by simp), List.append_nil]

/-- A key that begins with a name is split at the `@` after it. -/
theorem splitKey_name {name : PackageName} {rest base : Str} (hbase : rest.takeWhile (· ≠ '(') = base)
    (hat : '@' ∉ base) (htight : Tight isWhitespace base) :
    splitKey (name.text ++ '@' :: rest) = some (name.text, base) := by
  obtain ⟨c, more, hname, hc, hslash⟩ := head_name name
  have hparen : '(' ∉ name.text := PackageName.not_mem_text (by decide) (by decide) (by decide)
  have htake : (name.text ++ '@' :: rest).takeWhile (· ≠ '(') = name.text ++ '@' :: base := by
    rw [takeWhile_append_of_not_mem hparen, List.takeWhile_cons_of_pos (by decide), hbase]
  have hwhole : Tight isWhitespace (name.text ++ '@' :: base) := by
    apply Tight.append PackageName.text_ne_nil (by simp)
    · rw [hname]
      simpa using isScalarChar_blank hc
    · rw [← List.singleton_append, List.getLast?_append_of_ne_nil _ htight.ne]
      exact htight.last
  rw [splitKey, htake, hwhole.trim_eq, if_neg, splitAt, rsplitOnce_append hat]
  · simp [htight.trim_eq, htight.ne, PackageName.text_ne_nil]
  · rw [hname]
    simpa using hslash

theorem splitKey_nameVersion (p : Package) : splitKey (Style.nameVersion p) = some (p.name.text, p.version.text) :=
  splitKey_name (takeWhile_of_not_mem (p.version.not_mem (by decide))) (p.version.not_mem (by decide))
    ((clean_version _).tight p.version.ne)

/-- What follows the version in the key of a snapshot, also the braces of an empty one, does not matter. -/
theorem splitKey_snapshot (p : Package) {t : Str} (hparen : '(' ∉ t) (hat : '@' ∉ t)
    (hlast : ∀ c ∈ t.getLast?, isWhitespace c = false) :
    (splitKey (Style.nameVersion p ++ p.suffix.text ++ t)).map Prod.fst = some p.name.text := by
  have hversion := (clean_version p.version).tight p.version.ne
  have hopen : '(' ∉ p.version.text := p.version.not_mem (by decide)
  have hsign : '@' ∉ p.version.text := p.version.not_mem (by decide)
  rw [Style.nameVersion, List.append_assoc, List.append_assoc, List.cons_append]
  rcases p.suffix.parenthesised with hsuffix | ⟨hsuffix, -⟩
  · have htight : Tight isWhitespace (p.version.text ++ t) := by
      cases t with
      | nil => simpa using hversion
      | cons c t => exact .append hversion.ne (by simp) hversion.first hlast
    rw [hsuffix, List.nil_append, splitKey_name (takeWhile_of_not_mem (by simp [hopen, hparen])) (by simp [hsign, hat]) htight]
    rfl
  · cases htext : p.suffix.text with
    | nil => simp [htext] at hsuffix
    | cons c more =>
        have hc : c = '(' := by simpa [htext] using hsuffix
        rw [hc, List.cons_append, splitKey_name (takeWhile_append_cons hopen) hsign hversion]
        rfl

theorem splitPath_intercalate {parts : List Str} {version : Str} (hparts : ∀ part ∈ parts, '/' ∉ part ∧ part ≠ [])
    (hne : parts ≠ []) (hslash : '/' ∉ version) (hversion : version ≠ []) (hname : scopedName (['/'].intercalate parts) ≠ []) :
    splitPath ('/' :: ['/'].intercalate (parts ++ [version])) = some (scopedName (['/'].intercalate parts), version) := by
  have hfirst : trimStartMatches '/' ('/' :: ['/'].intercalate (parts ++ [version])) = ['/'].intercalate (parts ++ [version]) := by
    rw [trimStartMatches, List.dropWhile_cons_of_pos (by simp)]
    apply dropWhile_of_first
    cases parts with
    | nil => exact absurd rfl hne
    | cons part parts =>
        obtain ⟨hpart, hpartne⟩ := hparts part List.mem_cons_self
        rw [List.cons_append, List.intercalate_cons_of_ne_nil (by simp), List.append_assoc,
          List.head?_append_of_ne_nil _ hpartne]
        rintro c hc
        exact decide_eq_false fun heq => hpart (heq ▸ List.mem_of_head? hc)
  have hsplit : (['/'].intercalate (parts ++ [version])).splitOn '/' = parts ++ [version] := by
    apply List.splitOn_intercalate
    · intro part hpart
      rcases List.mem_append.mp hpart with h | h
      · exact (hparts part h).1
      · rw [List.mem_singleton.mp h]
        exact hslash
    · simp
  have hlength : 2 ≤ (parts ++ [version]).length := by
    have := List.length_pos_iff.mpr hne
    rw [List.length_append, List.length_singleton]
    omega
  rw [splitPath, hfirst, hsplit, if_pos hlength, List.dropLast_concat, List.getLast?_concat, Option.getD_some,
    if_pos ⟨hname, hversion⟩]

theorem scopedName_of_no_plus {s : Str} (h : '+' ∉ s) : scopedName s = s := by
  rw [scopedName, splitOnce_eq_none.mpr h]

/-- A path consists of the parts of the name and the version. -/
theorem path_eq (st : Style) (p : Package) : ∃ parts, parts ≠ [] ∧
    st.path p = '/' :: ['/'].intercalate (parts ++ [p.version.text]) ∧
    scopedName (['/'].intercalate parts) = p.name.text ∧
    ∀ part ∈ parts, '/' ∉ part ∧ '(' ∉ part ∧ part ≠ [] ∧ Clean part := by
  have hbase : '/' ∉ p.name.base.text ∧ '(' ∉ p.name.base.text ∧ p.name.base.text ≠ [] ∧ Clean p.name.base.text :=
    ⟨p.name.base.not_mem (by decide), p.name.base.not_mem (by decide), p.name.base.ne, clean_part _⟩
  have hplus : '+' ∉ p.name.base.text := p.name.base.not_mem (by decide)
  unfold Style.path PackageName.text
  cases p.name.scope with
  | none =>
      refine ⟨[p.name.base.text], by simp, by simp, ?_, by simpa using hbase⟩
      rw [List.intercalate_singleton, scopedName_of_no_plus hplus]
  | some scope =>
      have hscope : '/' ∉ '@' :: scope.text ∧ '(' ∉ '@' :: scope.text ∧ Clean ('@' :: scope.text) := by
        refine ⟨?_, ?_, .cons (by decide) (clean_part _)⟩
        · simpa using scope.not_mem (c := '/') (by decide)
        · simpa using scope.not_mem (c := '(') (by decide)
      have hsplus : '+' ∉ '@' :: scope.text := by simpa using scope.not_mem (c := '+') (by decide)
      cases st.scopePlus with
      | true =>
          refine ⟨['@' :: scope.text ++ '+' :: p.name.base.text], by simp, by simp, ?_, ?_⟩
          · rw [List.intercalate_singleton, scopedName, splitOnce_append hsplus]
            simp
          · intro part hpart
            rw [List.mem_singleton.mp hpart]
            simp only [List.mem_append, not_or, List.mem_cons]
            refine ⟨⟨by simpa using hscope.1, by decide, hbase.1⟩, ⟨by simpa using hscope.2.1, by decide, hbase.2.1⟩, by simp, ?_⟩
            exact hscope.2.2.append (.cons (by decide) hbase.2.2.2)
      | false =>
          refine ⟨['@' :: scope.text, p.name.base.text], by simp, by simp [List.intercalate_cons_cons], ?_, ?_⟩
          · have hjoined : '+' ∉ '@' :: scope.text ++ '/' :: p.name.base.text := by
              intro h
              rcases List.mem_append.mp h with h | h
              · exact hsplus h
              · exact hplus (by simpa using h)
            rw [List.intercalate_cons_cons, List.intercalate_singleton, List.append_assoc, List.singleton_append,
              scopedName_of_no_plus hjoined]
          · intro part hpart
            simp only [List.mem_cons, List.not_mem_nil, or_false] at hpart
            rcases hpart with rfl | rfl
            · exact ⟨hscope.1, hscope.2.1, by simp, hscope.2.2⟩
            · exact hbase

theorem mem_path {c : Char} (h : c ∈ st.path p) : c ≠ '(' ∧ isScalarChar c := by
  obtain ⟨parts, -, hpath, -, hparts⟩ := path_eq st p
  rw [hpath] at h
  rcases List.mem_cons.mp h with rfl | h
  · decide
  · rcases mem_intercalate h with rfl | ⟨part, hpart, hc⟩
    · decide
    · rcases List.mem_append.mp hpart with hpart | hpart
      · obtain ⟨-, hparen, -, hclean⟩ := hparts part hpart
        exact ⟨fun heq => hparen (heq ▸ hc), hclean c hc⟩
      · rw [List.mem_singleton.mp hpart] at hc
        exact ⟨fun heq => p.version.not_mem (by decide) (heq ▸ hc), clean_version _ c hc⟩

theorem splitKey_path (st : Style) (p : Package) : splitKey (st.path p) = some (p.name.text, p.version.text) := by
  have hclean : Clean (st.path p) := fun c hc => (mem_path hc).2
  have hparen : '(' ∉ st.path p := fun hc => (mem_path hc).1 rfl
  obtain ⟨parts, hne, hpath, hname, hparts⟩ := path_eq st p
  have htrim : trim ((st.path p).takeWhile (· ≠ '(')) = st.path p := by
    rw [takeWhile_of_not_mem hparen, (hclean.tight (by simp [hpath])).trim_eq]
  rw [splitKey, htrim, hpath, if_pos List.head?_cons, splitPath_intercalate (fun part h => ⟨(hparts part h).1, (hparts part h).2.2.1⟩) hne
    (p.version.not_mem (by decide)) p.version.ne (hname ▸ PackageName.text_ne_nil), hname]

end Keys

end ThreeVa.Locks.Pnpm
