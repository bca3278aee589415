import ThreeVa.Locks.Yarn

/-!
# Reading the written lockfile back
-/

namespace ThreeVa.Locks.Yarn
open Text

/-! ## Written texts -/

section Write

variable {q : Quoting} {s w : Str} {c : Char}

theorem Plain.not_mem (h : Plain s) (hc : c ∈ [':', '"', '\\', ',', '[', ']']) : c ∉ s := fun hs => (h.chars c hs).2 hc

theorem Plain.tight (h : Plain s) : Tight isWhitespace s := by
  apply tight_of_clean
  · rintro rfl
    obtain ⟨c, hc, -⟩ := h.first
    simp at hc
  · exact fun c hc => (h.chars c hc).1

theorem YarnText.quote_not_mem (value : YarnText) : '"' ∉ value.text := fun h => absurd (value.chars _ h) (by decide)

theorem PackageName.quote_not_mem (name : PackageName) : '"' ∉ name.text :=
  PackageName.not_mem_text (by decide) (by decide) (by decide)

theorem Key.quote_not_mem (key : Key) : '"' ∉ key.text := by
  simp only [Key.text, List.mem_append, List.mem_cons, not_or]
  exact ⟨PackageName.quote_not_mem _, by decide, key.range.quote_not_mem⟩

theorem write_of_wrap (h : q.wrap s = true) : q.write s = '"' :: s ++ ['"'] := by simp [Quoting.write, h]

theorem write_of_not_wrap (h : q.wrap s = false) : q.write s = s := by simp [Quoting.write, h]

theorem trimMatches_write (h : '"' ∉ s) : trimMatches '"' (q.write s) = s := by
  cases hwrap : q.wrap s with
  | false => rw [write_of_not_wrap hwrap, trimMatches_of_not_mem h]
  | true => rw [write_of_wrap hwrap, trimMatches_wrapped h]

theorem tight_write (q : Quoting) (s : Str) : Tight isWhitespace (q.write s) := by
  cases hwrap : q.wrap s with
  | false => rw [write_of_not_wrap hwrap]; exact (q.plain s hwrap).tight
  | true => rw [write_of_wrap hwrap]; exact tight_wrapped (by decide)

theorem mem_write (h : c ∈ q.write s) : c = '"' ∨ c ∈ s := by
  cases hwrap : q.wrap s with
  | false => rw [write_of_not_wrap hwrap] at h; exact .inr h
  | true =>
      rw [write_of_wrap hwrap] at h
      simpa [or_comm, or_assoc] using h

theorem head_write (h : c ∈ (q.write s).head?) : c = '"' ∨ c.isAlpha := by
  cases hwrap : q.wrap s with
  | false =>
      rw [write_of_not_wrap hwrap] at h
      obtain ⟨d, hd, halpha⟩ := (q.plain s hwrap).first
      exact .inr (Option.mem_unique h hd ▸ halpha)
  | true => rw [write_of_wrap hwrap] at h; exact .inl (by simpa using h.symm)

theorem last_write (h : c ∈ (q.write s).getLast?) : c ≠ ':' := by
  cases hwrap : q.wrap s with
  | false =>
      rw [write_of_not_wrap hwrap] at h
      rintro rfl
      exact (q.plain s hwrap).not_mem (by simp) (List.mem_of_getLast? h)
  | true =>
      rw [write_of_wrap hwrap, List.getLast?_concat] at h
      rintro rfl
      simp at h

/-- Only what is written without quotes is the word itself. -/
theorem write_eq_iff (hw : '"' ∉ w) : q.write s = w ↔ q.wrap s = false ∧ s = w := by
  cases hwrap : q.wrap s with
  | false => rw [write_of_not_wrap hwrap]; simp
  | true =>
      rw [write_of_wrap hwrap]
      simp only [Bool.true_eq_false, false_and, iff_false]
      rintro rfl
      simp at hw

end Write

/-! ## Names of keys -/

theorem rsplitOnce_name (base range : Str) :
    ∃ a b, rsplitOnce '@' (base ++ '@' :: range) = some (a, b) ∧ (a = base ↔ '@' ∉ range) := by
  cases hsplit : rsplitOnce '@' (base ++ '@' :: range) with
  | none =>
      rw [rsplitOnce, Option.map_eq_none_iff, splitOnce_eq_none] at hsplit
      simp at hsplit
  | some p =>
      refine ⟨p.1, p.2, rfl, ?_⟩
      obtain ⟨heq, hnot⟩ := rsplitOnce_eq_some.mp hsplit
      constructor
      · rintro rfl
        rw [List.append_right_inj, List.cons.injEq] at heq
        rw [heq.2]
        exact hnot
      · intro hrange
        rw [rsplitOnce_append hrange, Option.some.injEq] at hsplit
        rw [← hsplit]

theorem extractNameFromKey_text (key : Key) : extractNameFromKey key.text = key.name.text ↔ '@' ∉ key.range.text := by
  unfold Key.text PackageName.text
  split
  · obtain ⟨a, b, hsplit, hiff⟩ := rsplitOnce_name key.name.base.text key.range.text
    have hscope : stripPrefix ['@'] (key.name.base.text ++ '@' :: key.range.text) = none := by
      cases hbase : key.name.base.text with
      | nil => exact absurd hbase key.name.base.ne
      | cons c rest =>
          have hc : c ≠ '@' := by
            rintro rfl
            exact NamePart.not_mem key.name.base (by decide) (hbase ▸ List.mem_cons_self)
          simp [hc]
    rw [extractNameFromKey, hscope, Option.bind_none, hsplit]
    exact hiff
  · rename_i scope _
    obtain ⟨a, b, hsplit, hiff⟩ := rsplitOnce_name key.name.base.text key.range.text
    have hkey : '@' :: scope.text ++ '/' :: key.name.base.text ++ '@' :: key.range.text
        = '@' :: (scope.text ++ '/' :: (key.name.base.text ++ '@' :: key.range.text)) := by simp
    have hscope : splitOnce '/' (scope.text ++ '/' :: (key.name.base.text ++ '@' :: key.range.text))
        = some (scope.text, key.name.base.text ++ '@' :: key.range.text) :=
      splitOnce_append (NamePart.not_mem scope (by decide))
    rw [extractNameFromKey, hkey, stripPrefix_singleton_cons, if_pos rfl, Option.bind_some, hscope]
    simp [hsplit, hiff]

/-! ## Splitting the line of keys -/

section Keys

variable {q : Quoting} {s rest piece : Str} {depth : Nat}

theorem splitKeysFrom_append (hquote : '"' ∉ s) (hcomma : depth ≠ 0 ∨ ',' ∉ s) :
    splitKeysFrom depth piece (s ++ rest) = splitKeysFrom depth (piece ++ s) rest := by
  induction s generalizing piece with
  | nil => simp
  | cons c s ih =>
      rw [List.mem_cons, not_or] at hquote
      have hc : ¬ (c = ',' ∧ depth = 0) := by
        rintro ⟨rfl, hdepth⟩
        rcases hcomma with h | h
        · exact h hdepth
        · simp at h
      rw [List.cons_append, splitKeysFrom, if_neg (Ne.symm hquote.1), if_neg hc,
        ih hquote.2 (hcomma.imp_right fun h hm => h (List.mem_cons_of_mem _ hm)), List.append_assoc, List.singleton_append]

theorem splitKeysFrom_write (hs : '"' ∉ s) :
    splitKeysFrom 0 piece (q.write s ++ rest) = splitKeysFrom 0 (piece ++ q.write s) rest := by
  cases hwrap : q.wrap s with
  | false =>
      rw [write_of_not_wrap hwrap]
      exact splitKeysFrom_append hs (.inr ((q.plain s hwrap).not_mem (by simp)))
  | true =>
      rw [write_of_wrap hwrap, List.cons_append, List.cons_append, splitKeysFrom, if_pos rfl, List.append_assoc,
        splitKeysFrom_append hs (.inl (by decide)), List.singleton_append, splitKeysFrom, if_pos rfl]
      simp

theorem pushKey_write (n : Nat) (hs : '"' ∉ s) (hne : s ≠ []) : pushKey (indented n (q.write s)) = [s] := by
  rw [pushKey, trim_indented n (tight_write q s), trimMatches_write hs, if_neg hne]

theorem splitKeysFrom_join (n : Nat) {texts : List Str} (hne : texts ≠ [])
    (htexts : ∀ s ∈ texts, '"' ∉ s ∧ s ≠ []) :
    splitKeysFrom 0 (indented n []) ([',', ' '].intercalate (texts.map q.write)) = texts := by
  induction texts generalizing n with
  | nil => exact absurd rfl hne
  | cons s texts ih =>
      obtain ⟨hs, hsne⟩ := htexts s List.mem_cons_self
      have hpiece : indented n [] ++ q.write s = indented n (q.write s) := by simp [indented]
      cases texts with
      | nil =>
          have hjoin : [',', ' '].intercalate ([s].map q.write) = q.write s ++ [] := by simp
          rw [hjoin, splitKeysFrom_write hs, hpiece, splitKeysFrom, pushKey_write n hs hsne]
      | cons t texts =>
          have hrest := ih 1 (by simp) fun x hx => htexts x (List.mem_cons_of_mem _ hx)
          have hblank (rest : Str) : splitKeysFrom 0 [] ([' '] ++ rest) = splitKeysFrom 0 (indented 1 []) rest :=
            splitKeysFrom_append (by decide) (.inr (by decide))
          rw [List.map_cons] at hrest ⊢
          rw [List.map_cons, List.intercalate_cons_cons, List.append_assoc, splitKeysFrom_write hs, hpiece,
            List.cons_append, splitKeysFrom, if_neg (by decide), if_pos (by decide), pushKey_write n hs hsne, hblank, hrest]
          rfl

theorem Key.text_ne_nil (key : Key) : key.text ≠ [] := by simp [Key.text]

theorem last_join {texts : List Str} {c : Char} (h : c ∈ ([',', ' '].intercalate (texts.map q.write)).getLast?) :
    c ≠ ':' := by
  induction texts with
  | nil => simp at h
  | cons s texts ih =>
      cases texts with
      | nil =>
          rw [List.map_singleton, List.intercalate_singleton] at h
          exact last_write h
      | cons t texts =>
          have hne : [',', ' '].intercalate ((t :: texts).map q.write) ≠ [] := by
            rw [List.map_cons]
            cases texts with
            | nil => simpa using (tight_write q t).ne
            | cons u texts => simp
          rw [List.map_cons, List.map_cons, List.intercalate_cons_cons, ← List.map_cons,
            List.getLast?_append_of_ne_nil _ hne] at h
          exact ih h

theorem head_join {texts : List Str} (hne : texts ≠ []) :
    ∃ s ∈ texts, ([',', ' '].intercalate (texts.map q.write)).head? = (q.write s).head? := by
  cases texts with
  | nil => exact absurd rfl hne
  | cons s texts =>
      refine ⟨s, List.mem_cons_self, ?_⟩
      cases texts with
      | nil => simp
      | cons t texts =>
          rw [List.map_cons, List.map_cons, List.intercalate_cons_cons, List.append_assoc,
            List.head?_append_of_ne_nil _ (tight_write q s).ne]

variable {keys : List Key}

theorem keyLine_eq : q.keyLine keys = [',', ' '].intercalate ((keys.map Key.text).map q.write) ++ [':'] := by
  rw [Quoting.keyLine, List.map_map]
  rfl

theorem splitYarnKeys_keyLine (hne : keys ≠ []) :
    splitYarnKeys (trimEndMatches ':' (q.keyLine keys)) = keys.map Key.text := by
  have htrim : trimEndMatches ':' (q.keyLine keys) = [',', ' '].intercalate ((keys.map Key.text).map q.write) := by
    rw [keyLine_eq, trimEndMatches, List.rdropWhile_concat_pos _ _ _ (by simp)]
    exact rdropWhile_of_last fun c hc => decide_eq_false (last_join hc)
  have hkeys : ∀ s ∈ keys.map Key.text, '"' ∉ s ∧ s ≠ [] := by
    intro s hs
    obtain ⟨key, -, rfl⟩ := List.mem_map.mp hs
    exact ⟨key.quote_not_mem, key.text_ne_nil⟩
  rw [htrim, splitYarnKeys]
  exact splitKeysFrom_join 0 (by simpa using hne) hkeys

/-- A line of keys begins with a quote or a letter. -/
theorem head_keyLine (hne : keys ≠ []) : ∃ c, (q.keyLine keys).head? = some c ∧ (c = '"' ∨ c.isAlpha) := by
  have htexts : keys.map Key.text ≠ [] := by simpa using hne
  obtain ⟨s, -, hs⟩ := head_join (q := q) htexts
  have hwrite := (tight_write q s).ne
  cases hhead : (q.write s).head? with
  | none => exact absurd (List.head?_eq_none_iff.mp hhead) hwrite
  | some c =>
      refine ⟨c, ?_, head_write hhead⟩
      rw [keyLine_eq, List.head?_append, hs, hhead]
      rfl

end Keys

/-! ## Steps -/

section Steps

variable {q : Quoting} {s : State}

theorem flush_flush : s.flush.flush = s.flush := by
  rcases s with ⟨entries, _ | keys, _ | entry⟩ <;> rfl

theorem step_skip {line : Str} (h : trim line = [] ∨ (trim line).head? = some '#') : s.step line = s.flush :=
  if_pos (by simpa [List.isEmpty_iff] using h)

theorem step_header {line : Str} (h : line ∈ Quoting.header) : s.step line = s.flush := by
  simp only [Quoting.header, List.mem_cons, List.not_mem_nil, or_false] at h
  rcases h with rfl | rfl
  · exact step_skip (.inr (by decide +kernel))
  · exact step_skip (.inr (by decide +kernel))

theorem step_of_key {line : Str} (h : ¬ (trim line = [] ∨ (trim line).head? = some '#'))
    (hindent : ¬ (line.head? = some ' ' ∨ line.head? = some '\t')) :
    s.step line = ⟨s.flush.entries, some (splitYarnKeys (trimEndMatches ':' (trim line))), some .new⟩ := by
  unfold State.step
  rw [if_neg (by simpa [List.isEmpty_iff] using h), if_neg hindent]

theorem step_indented {content : Str} {n : Nat} (hn : 2 ≤ n) (h : Tight isWhitespace content)
    (hhash : content.head? ≠ some '#') :
    s.step (indented n content) = { s with currentEntry := s.currentEntry.map fun b => b.continuation content } := by
  obtain ⟨k, rfl⟩ := Nat.exists_eq_add_of_le' hn
  have hblanks : indented (k + 2) content = ' ' :: ' ' :: indented k content := by
    simp [indented, List.replicate_succ]
  have hskip : ¬ (((trim (indented (k + 2) content)).isEmpty || (trim (indented (k + 2) content)).head? = some '#') = true) := by
    rw [trim_indented _ h]
    simpa [List.isEmpty_iff] using ⟨h.ne, hhash⟩
  unfold State.step
  rw [if_neg hskip, trim_indented _ h, hblanks, if_pos (by simp), if_pos (by simp)]

theorem isAlpha_ne {c d : Char} (h : c = '"' ∨ c.isAlpha) (hd : d.isAlpha = false) (hquote : d ≠ '"') : c ≠ d := by
  rintro rfl
  rcases h with h | h
  · exact hquote h
  · rw [hd] at h
    cases h

theorem step_keyLine {keys : List Key} (hne : keys ≠ []) :
    s.step (q.keyLine keys) = ⟨s.flush.entries, some (keys.map Key.text), some .new⟩ := by
  obtain ⟨c, hhead, hc⟩ := head_keyLine (q := q) hne
  have hspace : isWhitespace c = false := by
    rcases hc with rfl | hc
    · decide
    · exact isWhitespace_of_printable (isAlphanum_printable (Bool.or_eq_true_iff.mpr (.inl hc)))
  have htight : Tight isWhitespace (q.keyLine keys) := by
    constructor
    · simp [keyLine_eq]
    · simpa [hhead] using hspace
    · rw [keyLine_eq, List.getLast?_concat]
      simpa using (by decide : isWhitespace ':' = false)
  rw [step_of_key, htight.trim_eq, splitYarnKeys_keyLine hne]
  · rw [htight.trim_eq, hhead, Option.some.injEq]
    simpa [htight.ne] using isAlpha_ne hc (d := '#') (by decide) (by decide)
  · rw [hhead, Option.some.injEq, Option.some.injEq]
    exact not_or.mpr ⟨isAlpha_ne hc (by decide) (by decide), isAlpha_ne hc (by decide) (by decide)⟩

end Steps

/-! ## The lines of an entry -/

section Lines

variable {q : Quoting} {b : YarnEntryBuilder} {n w rest : Str}

theorem stripPrefix_word (hw : ' ' ∉ w) (hn : ' ' ∉ n) :
    stripPrefix (w ++ [' ']) (n ++ ' ' :: rest) = if n = w then some rest else none := by
  by_cases heq : n = w
  · rw [if_pos heq, stripPrefix_eq_some, heq, List.append_assoc, List.singleton_append]
  · rw [if_neg heq, Option.eq_none_iff_forall_ne_some]
    intro t ht
    have hsplit := stripPrefix_eq_some.mp ht
    rw [List.append_assoc, List.singleton_append] at hsplit
    have hfirst := splitOnce_append (b := rest) hn
    rw [hsplit, splitOnce_append hw, Option.some.injEq, Prod.mk.injEq] at hfirst
    exact heq hfirst.1.symm

/-- The first word of a line decides what it is. -/
theorem continuation_word (hn : ' ' ∉ n) : b.continuation (n ++ ' ' :: rest) =
    if n = versionWord then { b with version := some (trimMatches '"' rest) }
    else if n = resolvedWord then { b with resolved := some (trimMatches '"' rest) }
    else if n = integrityWord then { b with integrity := some (trimMatches '"' rest) }
    else if b.inDeps || b.inOptDeps then
      { b with dependencies := b.dependencies.orInsert (trimMatches '"' (trim n)) (trimMatches '"' (trim (' ' :: rest))) }
    else b := by
  have hspace : ' ' ∈ n ++ ' ' :: rest := by simp
  have hdeps : n ++ ' ' :: rest ≠ dependenciesLine := fun h => absurd (h ▸ hspace) (by decide)
  have hoptional : n ++ ' ' :: rest ≠ optionalDependenciesLine := fun h => absurd (h ▸ hspace) (by decide)
  unfold YarnEntryBuilder.continuation
  rw [stripPrefix_word (by decide) hn, stripPrefix_word (by decide) hn, stripPrefix_word (by decide) hn,
    splitOnce_append hn, if_neg hdeps, if_neg hoptional]
  split_ifs <;> rfl

theorem continuation_dependenciesLine : b.continuation dependenciesLine = { b with inDeps := true } := rfl

theorem continuation_optionalDependenciesLine :
    b.continuation optionalDependenciesLine = { b with inOptDeps := true } := rfl

theorem continuation_version (value : YarnText) :
    b.continuation (q.fieldLine versionWord value) = { b with version := some value.text } := by
  rw [Quoting.fieldLine, continuation_word (by decide), if_pos rfl, trimMatches_write value.quote_not_mem]

theorem continuation_resolved (value : YarnText) :
    b.continuation (q.fieldLine resolvedWord value) = { b with resolved := some value.text } := by
  rw [Quoting.fieldLine, continuation_word (by decide), if_neg (by decide), if_pos rfl,
    trimMatches_write value.quote_not_mem]

theorem continuation_integrity (value : YarnText) :
    b.continuation (q.fieldLine integrityWord value) = { b with integrity := some value.text } := by
  rw [Quoting.fieldLine, continuation_word (by decide), if_neg (by decide), if_neg (by decide), if_pos rfl,
    trimMatches_write value.quote_not_mem]

theorem blank_not_mem_write (name : PackageName) : ' ' ∉ q.write name.text := by
  intro h
  rcases mem_write h with h | h
  · cases h
  · exact PackageName.not_mem_text (by decide) (by decide) (by decide) h

theorem word_of_write {name : PackageName} (hw : w ∈ fieldWords) :
    q.write name.text = w ↔ q.wrap name.text = false ∧ name.text = w := by
  apply write_eq_iff
  simp only [fieldWords, List.mem_cons, List.not_mem_nil, or_false] at hw
  rcases hw with rfl | rfl | rfl <;> decide

theorem trim_write (s : Str) : trim (q.write s) = q.write s := (tight_write q s).trim_eq

theorem trim_blank_write (s : Str) : trim (' ' :: q.write s) = q.write s := trim_indented 1 (tight_write q s)

variable {d : Dependency}

theorem continuation_dependency (h : ¬ q.Misread d) (hin : b.inDeps || b.inOptDeps) :
    b.continuation (q.dependencyLine d)
      = { b with dependencies := b.dependencies.orInsert d.name.text d.range.text } := by
  have hne : ∀ w ∈ fieldWords, q.write d.name.text ≠ w := by
    intro w hw heq
    obtain ⟨hwrap, rfl⟩ := (word_of_write hw).mp heq
    exact h ⟨hwrap, hw⟩
  rw [Quoting.dependencyLine, continuation_word (blank_not_mem_write _), if_neg (hne _ (by simp [fieldWords])),
    if_neg (hne _ (by simp [fieldWords])), if_neg (hne _ (by simp [fieldWords])), if_pos hin, trim_write, trim_blank_write,
    trimMatches_write (PackageName.quote_not_mem _), trimMatches_write d.range.quote_not_mem]

/-- No line puts a dependency under the unquoted word of a field. -/
theorem lookup_continuation_dependency (hw : w ∈ fieldWords) (hwrap : q.wrap w = false)
    (h : b.dependencies.lookup w = none) : (b.continuation (q.dependencyLine d)).dependencies.lookup w = none := by
  by_cases hd : q.Misread d
  · have hmem : q.write d.name.text ∈ fieldWords := by
      rw [write_of_not_wrap hd.1]
      exact hd.2
    simp only [fieldWords, List.mem_cons, List.not_mem_nil, or_false] at hmem
    rw [Quoting.dependencyLine, continuation_word (blank_not_mem_write _)]
    rcases hmem with hmem | hmem | hmem
    · rw [if_pos hmem]
      exact h
    · rw [if_neg (by rw [hmem]; decide), if_pos hmem]
      exact h
    · rw [if_neg (by rw [hmem]; decide), if_neg (by rw [hmem]; decide), if_pos hmem]
      exact h
  · have hne : w ≠ d.name.text := by
      rintro rfl
      exact hd ⟨hwrap, hw⟩
    by_cases hin : (b.inDeps || b.inOptDeps) = true
    · rw [continuation_dependency hd hin, Finmap.lookup_orInsert, h, if_neg hne]
      rfl
    · rw [Quoting.dependencyLine, continuation_word (blank_not_mem_write _), if_neg hin]
      split_ifs
      all_goals exact h

end Lines

/-! ## The kinds of lines -/

/-- A line below the keys of an entry. -/
inductive EntryLine (q : Quoting) (e : Entry) : Str → Prop
  | field {w : Str} (hw : w ∈ fieldWords) (value : YarnText) : EntryLine q e (indented 2 (q.fieldLine w value))
  | dependencies : EntryLine q e (indented 2 dependenciesLine)
  | optionalDependencies : EntryLine q e (indented 2 optionalDependenciesLine)
  | dependency {d : Dependency} (hd : d ∈ e.allDependencies) : EntryLine q e (indented 4 (q.dependencyLine d))

section EntryLine

variable {q : Quoting} {e : Entry} {line : Str}

theorem entryLine_of_mem_block {head : Str} {ds : List Dependency} (h : line ∈ q.block head ds)
    (hhead : EntryLine q e (indented 2 head)) (hds : ∀ d ∈ ds, d ∈ e.allDependencies) : EntryLine q e line := by
  unfold Quoting.block at h
  split at h
  · simp at h
  · rcases List.mem_cons.mp h with rfl | h
    · exact hhead
    · obtain ⟨d, hd, rfl⟩ := List.mem_map.mp h
      exact .dependency (hds d hd)

theorem entryLine_of_mem (h : line ∈ q.fieldLines e) : EntryLine q e line := by
  unfold Quoting.fieldLines at h
  simp only [List.mem_append, List.mem_cons, List.mem_map] at h
  rcases h with (((rfl | ⟨value, -, rfl⟩) | ⟨value, -, rfl⟩) | h) | h
  · exact .field (by simp [fieldWords]) _
  · exact .field (by simp [fieldWords]) _
  · exact .field (by simp [fieldWords]) _
  · exact entryLine_of_mem_block h .dependencies fun d hd => List.mem_append_left _ hd
  · exact entryLine_of_mem_block h .optionalDependencies fun d hd => List.mem_append_right _ hd

theorem tight_words {w s : Str} (hw : Tight isWhitespace w) : Tight isWhitespace (w ++ ' ' :: q.write s) := by
  apply Tight.append hw.ne (by simp) hw.first
  rw [← List.singleton_append, List.getLast?_append_of_ne_nil _ (tight_write q s).ne]
  exact (tight_write q s).last

theorem fieldWord_tight {w : Str} (hw : w ∈ fieldWords) : Tight isWhitespace w ∧ w.head? ≠ some '#' := by
  simp only [fieldWords, List.mem_cons, List.not_mem_nil, or_false] at hw
  rcases hw with rfl | rfl | rfl
  · exact ⟨tight_of_any (by decide) (by decide), by decide⟩
  · exact ⟨tight_of_any (by decide) (by decide), by decide⟩
  · exact ⟨tight_of_any (by decide) (by decide), by decide⟩

theorem tight_fieldLine {w : Str} (hw : w ∈ fieldWords) (value : YarnText) : Tight isWhitespace (q.fieldLine w value) :=
  tight_words (fieldWord_tight hw).1

theorem tight_dependencyLine (d : Dependency) : Tight isWhitespace (q.dependencyLine d) :=
  tight_words (tight_write q d.name.text)

/-- What a line has after its blanks is read whole. -/
theorem EntryLine.content (h : EntryLine q e line) :
    ∃ n content, 2 ≤ n ∧ line = indented n content ∧ Tight isWhitespace content ∧ content.head? ≠ some '#' := by
  cases h with
  | field hw value =>
      obtain ⟨htight, hhash⟩ := fieldWord_tight hw
      refine ⟨2, _, Nat.le_refl _, rfl, tight_fieldLine hw value, ?_⟩
      rwa [Quoting.fieldLine, List.head?_append_of_ne_nil _ htight.ne]
  | dependencies => exact ⟨2, _, Nat.le_refl _, rfl, tight_of_any (by decide) (by decide), by decide⟩
  | optionalDependencies => exact ⟨2, _, Nat.le_refl _, rfl, tight_of_any (by decide) (by decide), by decide⟩
  | @dependency d hd =>
      have htight := tight_write q d.name.text
      refine ⟨4, _, by decide, rfl, tight_dependencyLine d, ?_⟩
      rw [Quoting.dependencyLine, List.head?_append_of_ne_nil _ htight.ne]
      exact fun hhead => isAlpha_ne (head_write hhead) (by decide) (by decide) rfl

end EntryLine

/-! ## Entries -/

section Builder

variable {q : Quoting} {e : Entry} {b : YarnEntryBuilder}

def readLine (b : YarnEntryBuilder) (line : Str) : YarnEntryBuilder := b.continuation (trim line)

/-- What is read of an entry. -/
def entryBuilder (q : Quoting) (e : Entry) : YarnEntryBuilder := (q.fieldLines e).foldl readLine .new

theorem readLine_indented (n : Nat) {content : Str} (h : Tight isWhitespace content) :
    readLine b (indented n content) = b.continuation content := by rw [readLine, trim_indented n h]

theorem step_entryLine {line : Str} {entries : Finmap fun _ : Str => YarnEntry} {keys : Option (List Str)}
    (h : EntryLine q e line) : State.step ⟨entries, keys, some b⟩ line = ⟨entries, keys, some (readLine b line)⟩ := by
  obtain ⟨n, content, hn, rfl, htight, hhash⟩ := h.content
  rw [step_indented hn htight hhash, readLine_indented n htight]
  rfl

theorem foldl_step_entryLines {ls : List Str} {entries : Finmap fun _ : Str => YarnEntry} {keys : Option (List Str)}
    (h : ∀ line ∈ ls, EntryLine q e line) :
    ls.foldl State.step ⟨entries, keys, some b⟩ = ⟨entries, keys, some (ls.foldl readLine b)⟩ := by
  induction ls generalizing b with
  | nil => rfl
  | cons line ls ih =>
      rw [List.foldl_cons, List.foldl_cons, step_entryLine (h line List.mem_cons_self)]
      exact ih fun l hl => h l (List.mem_cons_of_mem _ hl)

/-- An entry is read, and what was current before it is stored. -/
theorem foldl_step_entry {s : State} : ([] :: q.keyLine e.keys :: q.fieldLines e).foldl State.step s
    = ⟨s.flush.entries, some (e.keys.map Key.text), some (entryBuilder q e)⟩ := by
  rw [List.foldl_cons, List.foldl_cons, @step_skip s [] (.inl rfl), step_keyLine e.ne, flush_flush]
  exact foldl_step_entryLines fun line hline => entryLine_of_mem hline

/-! ## The fields of an entry -/

theorem lookup_readLine {line w : Str} (h : EntryLine q e line) (hw : w ∈ fieldWords) (hwrap : q.wrap w = false)
    (hb : b.dependencies.lookup w = none) : (readLine b line).dependencies.lookup w = none := by
  cases h with
  | @field w' hw' value =>
      rw [readLine_indented 2 (tight_fieldLine hw' value)]
      simp only [fieldWords, List.mem_cons, List.not_mem_nil, or_false] at hw'
      rcases hw' with rfl | rfl | rfl
      · rw [continuation_version]
        exact hb
      · rw [continuation_resolved]
        exact hb
      · rw [continuation_integrity]
        exact hb
  | dependencies => exact hb
  | optionalDependencies => exact hb
  | @dependency d hd =>
      rw [readLine_indented 4 (tight_dependencyLine d)]
      exact lookup_continuation_dependency hw hwrap hb

theorem lookup_entryBuilder {w : Str} (hw : w ∈ fieldWords) (hwrap : q.wrap w = false) :
    (entryBuilder q e).dependencies.lookup w = none := by
  have hfold (ls : List Str) (hls : ∀ line ∈ ls, EntryLine q e line) (b : YarnEntryBuilder)
      (hb : b.dependencies.lookup w = none) : (ls.foldl readLine b).dependencies.lookup w = none := by
    induction ls generalizing b with
    | nil => exact hb
    | cons line ls ih =>
        exact ih (fun l hl => hls l (List.mem_cons_of_mem _ hl)) _
          (lookup_readLine (hls line List.mem_cons_self) hw hwrap hb)
  exact hfold _ (fun line hline => entryLine_of_mem hline) _ rfl

theorem foldl_dependencyLines {ds : List Dependency} (hds : ∀ d ∈ ds, ¬ q.Misread d) (hin : b.inDeps || b.inOptDeps) :
    (ds.map fun d => indented 4 (q.dependencyLine d)).foldl readLine b
      = { b with dependencies := b.dependencies.orInsertAll (ds.map Dependency.pair) } := by
  induction ds generalizing b with
  | nil => rfl
  | cons d ds ih =>
      rw [List.map_cons, List.foldl_cons, readLine_indented 4 (tight_dependencyLine d),
        continuation_dependency (hds d List.mem_cons_self) hin]
      exact ih (fun x hx => hds x (List.mem_cons_of_mem _ hx)) hin

theorem foldl_dependencies {ds : List Dependency} (hds : ∀ d ∈ ds, ¬ q.Misread d) :
    (q.block dependenciesLine ds).foldl readLine b
      = { b with dependencies := b.dependencies.orInsertAll (ds.map Dependency.pair), inDeps := b.inDeps || !ds.isEmpty } := by
  cases ds with
  | nil => simp [Quoting.block, Finmap.orInsertAll]
  | cons d ds =>
      rw [Quoting.block, if_neg (by simp), List.foldl_cons,
        readLine_indented 2 (tight_of_any (by decide) (by decide)), continuation_dependenciesLine,
        foldl_dependencyLines hds rfl]
      simp

theorem foldl_optionalDependencies {ds : List Dependency} (hds : ∀ d ∈ ds, ¬ q.Misread d) :
    (q.block optionalDependenciesLine ds).foldl readLine b
      = { b with dependencies := b.dependencies.orInsertAll (ds.map Dependency.pair), inOptDeps := b.inOptDeps || !ds.isEmpty } := by
  cases ds with
  | nil => simp [Quoting.block, Finmap.orInsertAll]
  | cons d ds =>
      rw [Quoting.block, if_neg (by simp), List.foldl_cons,
        readLine_indented 2 (tight_of_any (by decide) (by decide)), continuation_optionalDependenciesLine,
        foldl_dependencyLines hds (by simp)]
      simp

theorem foldl_version (value : YarnText) :
    readLine b (indented 2 (q.fieldLine versionWord value)) = { b with version := some value.text } := by
  rw [readLine_indented 2 (tight_fieldLine (by simp [fieldWords]) value), continuation_version]

theorem foldl_resolved (value : Option YarnText) :
    (value.toList.map fun value => indented 2 (q.fieldLine resolvedWord value)).foldl readLine b
      = { b with resolved := (value.map YarnText.text).or b.resolved } := by
  cases value with
  | none => rfl
  | some value =>
      rw [Option.toList_some, List.map_singleton, List.foldl_cons, List.foldl_nil,
        readLine_indented 2 (tight_fieldLine (by simp [fieldWords]) value), continuation_resolved]
      rfl

theorem foldl_integrity (value : Option YarnText) :
    (value.toList.map fun value => indented 2 (q.fieldLine integrityWord value)).foldl readLine b
      = { b with integrity := (value.map YarnText.text).or b.integrity } := by
  cases value with
  | none => rfl
  | some value =>
      rw [Option.toList_some, List.map_singleton, List.foldl_cons, List.foldl_nil,
        readLine_indented 2 (tight_fieldLine (by simp [fieldWords]) value), continuation_integrity]
      rfl

theorem recovers_entryBuilder (h : ∀ d ∈ e.allDependencies, ¬ q.Misread d) : (entryBuilder q e).build.Recovers e := by
  have hbuilder : entryBuilder q e = {
      version := some e.version.text
      resolved := e.resolved.map YarnText.text
      integrity := e.integrity.map YarnText.text
      dependencies := ((∅ : StrMap).orInsertAll (e.dependencies.map Dependency.pair)).orInsertAll (e.optionalDependencies.map Dependency.pair)
      inDeps := !e.dependencies.isEmpty
      inOptDeps := !e.optionalDependencies.isEmpty } := by
    rw [entryBuilder, Quoting.fieldLines, List.foldl_append, List.foldl_append, List.foldl_append, List.foldl_cons,
      foldl_version, foldl_resolved, foldl_integrity, foldl_dependencies fun d hd => h d (List.mem_append_left _ hd),
      foldl_optionalDependencies fun d hd => h d (List.mem_append_right _ hd)]
    simp [YarnEntryBuilder.new]
  rw [hbuilder]
  refine ⟨rfl, rfl, rfl, fun name => ?_⟩
  change (((∅ : StrMap).orInsertAll _).orInsertAll _).lookup name = _
  rw [Finmap.lookup_orInsertAll, Finmap.lookup_orInsertAll, Entry.recorded, Entry.allDependencies, List.map_append,
    List.lookup_append, Finmap.lookup_empty, Option.none_or]

end Builder

/-! ## The whole file -/

section File

variable {q : Quoting}

theorem printable_write {s : Str} (hs : Printable s) : Printable (q.write s) := by
  intro c h
  rcases mem_write h with rfl | h
  · decide
  · exact hs c h

theorem YarnText.printable (value : YarnText) : Printable value.text := by
  intro c h
  have hc := value.chars c h
  simp only [isTextChar, Bool.and_eq_true, decide_eq_true_eq] at hc
  exact hc.2

theorem Key.printable (key : Key) : Printable key.text :=
  key.name.printable_text.append (.cons (by decide) key.range.printable)

theorem EntryLine.printable {e : Entry} {line : Str} (h : EntryLine q e line) : Printable line := by
  cases h with
  | @field w hw value =>
      have hword : Printable w := by
        simp only [fieldWords, List.mem_cons, List.not_mem_nil, or_false] at hw
        rcases hw with rfl | rfl | rfl <;> exact printable_of_all (by decide)
      exact .indented 2 (hword.append (.cons (by decide) (printable_write value.printable)))
  | dependencies => exact printable_of_all (by decide)
  | optionalDependencies => exact printable_of_all (by decide)
  | @dependency d hd =>
      exact .indented 4 (.append (printable_write d.name.printable_text) (.cons (by decide) (printable_write d.range.printable)))

theorem printable_keyLine {keys : List Key} : Printable (q.keyLine keys) := by
  apply Printable.append (.intercalate (printable_of_all (by decide)) _) (printable_of_all (by decide))
  intro l hl
  obtain ⟨key, -, rfl⟩ := List.mem_map.mp hl
  exact printable_write key.printable

theorem printable_header : ∀ line ∈ Quoting.header, Printable line := by
  have hall : (Quoting.header.all fun line => line.all fun c => 32 ≤ c.toNat) = true := by decide +kernel
  exact fun line hline => printable_of_all (List.all_eq_true.mp hall line hline)

theorem lines_render (lock : Lock) : lines (q.render lock)
    = Quoting.header ++ lock.entries.flatMap fun e => [] :: q.keyLine e.keys :: q.fieldLines e := by
  apply lines_writeLines
  intro line hline
  apply Printable.breaks
  rcases List.mem_append.mp hline with hline | hline
  · exact printable_header line hline
  · obtain ⟨e, -, hline⟩ := List.mem_flatMap.mp hline
    rcases List.mem_cons.mp hline with rfl | hline
    · exact printable_of_all rfl
    · rcases List.mem_cons.mp hline with rfl | hline
      · exact printable_keyLine
      · exact (entryLine_of_mem hline).printable

/-- The entries are stored one after the other. -/
theorem foldl_step_entries (es : List Entry) (s : State) :
    ((es.flatMap fun e => [] :: q.keyLine e.keys :: q.fieldLines e).foldl State.step s).flush.entries
      = es.foldl (fun m e => m.insertAll (e.keys.map Key.text) (entryBuilder q e).build) s.flush.entries := by
  induction es generalizing s with
  | nil => rfl
  | cons e es ih =>
      rw [List.flatMap_cons, List.foldl_append, foldl_step_entry, ih]
      rfl

theorem lookup_parseYarnEntries {lock : Lock} {e : Entry} (he : e ∈ lock.entries) {k : Key} (hk : k ∈ e.keys) :
    (parseYarnEntries (q.render lock)).lookup k.text = some (entryBuilder q e).build := by
  rw [parseYarnEntries, lines_render, List.foldl_append, foldl_step_entries]
  exact Finmap.lookup_foldl_insertAll (fun e : Entry => e.keys.map Key.text) _ lock.distinct he (List.mem_map_of_mem hk)

end File

end ThreeVa.Locks.Yarn
