import ThreeVa.Pm.Lifecycle

/-! Which commands are run as they were approved. -/

namespace ThreeVa.Pm.Lifecycle
open Text Lexical Bins

/-! ## The splitter -/

/-- The character that ends a quotation. -/
def delimiter : Shell.Mode → Option Char
  | .bare => none
  | .single => some '\''
  | .double => some '"'

/-- The splitter is inside a word. -/
structure Split.At (st : Split) (m : Shell.Mode) (word : Shell.Word) : Prop where
  current : st.current = Shell.text word
  quote : st.quote = delimiter m
  hasToken : st.hasToken = decide (word ≠ [])
  quoted : m ≠ .bare → word ≠ []

namespace Split

variable {st : Split} {m : Shell.Mode} {word : Shell.Word} {s : Str}

theorem text_concat (word : Shell.Word) (a : Shell.Mark) : Shell.text (word ++ [a]) = Shell.text word ++ a.char.toList := by
  rw [Shell.text, List.filterMap_append]
  exact congrArg _ (by cases a <;> rfl)

/-- Between words nothing is kept. -/
theorem At.nil (hcurrent : st.current = []) (hquote : st.quote = none) (htoken : st.hasToken = false) :
    st.At .bare [] where
  current := hcurrent
  quote := hquote
  hasToken := htoken
  quoted := fun h => absurd rfl h

/-- A character of a word: its mark is added. -/
theorem At.mark {st' : Split} (h : st.At m word) {c : Char} (hcurrent : st'.current = st.current ++ (m.next c).2.char.toList)
    (hquote : st'.quote = delimiter (m.next c).1) (htoken : st'.hasToken = true) :
    st'.At (m.next c).1 (word ++ [(m.next c).2]) where
  current := by rw [hcurrent, h.current, text_concat]
  quote := hquote
  hasToken := by rw [htoken]; simp
  quoted := fun _ => by simp

/-- In a quotation every character but its end belongs to the word. -/
theorem step_quoted (h : st.At m word) (hm : m ≠ .bare) (c : Char) :
    (st.step c).At (m.next c).1 (word ++ [(m.next c).2]) ∧ (st.step c).out = st.out ∧
      (m.next c).2.isBare isWhitespace = false := by
  have htoken : st.hasToken = true := by rw [h.hasToken]; simpa using h.quoted hm
  cases m with
  | bare => exact absurd rfl hm
  | single | double =>
      have hquote := h.quote
      simp only [delimiter] at hquote
      unfold step
      rw [hquote]
      simp only
      split
      · rename_i hc
        subst hc
        refine ⟨h.mark ?_ rfl htoken, rfl, rfl⟩
        exact (List.append_nil _).symm
      · rename_i hc
        refine ⟨h.mark ?_ ?_ htoken, rfl, ?_⟩
        all_goals simp [Shell.Mode.next, hc, delimiter, Shell.Mark.char, Shell.Mark.isBare]

/-- Outside of quotations a white space ends the word. -/
theorem step_space (h : st.At .bare word) {c : Char} (hc : isWhitespace c = true) :
    (st.step c).At .bare [] ∧ (st.step c).out = (if word = [] then st.out else st.out ++ [Shell.text word]) := by
  have hquote : st.quote = none := h.quote
  have hends : (c = '\'' || c = '"') = false := by
    by_contra hends
    simp only [Bool.not_eq_false, Bool.or_eq_true, decide_eq_true_eq] at hends
    rcases hends with rfl | rfl <;> cases hc
  unfold step
  rw [hquote]
  simp only
  rw [if_neg (by simp [hends]), if_pos hc, h.hasToken]
  by_cases hword : word = []
  · subst hword
    exact ⟨At.nil h.current hquote h.hasToken, rfl⟩
  · rw [if_pos (by simpa using hword), if_neg hword, h.current]
    exact ⟨At.nil rfl rfl rfl, rfl⟩

/-- Outside of quotations any other character belongs to the word. -/
theorem step_bare (h : st.At .bare word) {c : Char} (hc : isWhitespace c = false) :
    (st.step c).At (Shell.Mode.bare.next c).1 (word ++ [(Shell.Mode.bare.next c).2]) ∧ (st.step c).out = st.out := by
  have hquote : st.quote = none := h.quote
  unfold step
  rw [hquote]
  simp only
  split
  · rename_i hends
    refine ⟨h.mark ?_ ?_ rfl, rfl⟩
    all_goals
      simp only [Bool.or_eq_true, decide_eq_true_eq] at hends
      rcases hends with rfl | rfl
    · exact (List.append_nil _).symm
    · exact (List.append_nil _).symm
    · rfl
    · rfl
  · rename_i hends
    simp only [Bool.or_eq_true, decide_eq_true_eq, not_or] at hends
    rw [if_neg (by simp [hc])]
    refine ⟨h.mark ?_ ?_ rfl, rfl⟩
    all_goals simp [Shell.Mode.next, hends, delimiter, Shell.Mark.char]

/-- The splitter reads a text as words between white space, without escapes. -/
theorem fold_spec (h : st.At m word) (s : Str) :
    (s.foldl step st).quote = delimiter (Shell.endMode m s) ∧
      (s.foldl step st).finish = st.out ++ (Shell.wordsFrom isWhitespace word (Shell.raw m s)).map Shell.text := by
  induction s generalizing st m word with
  | nil =>
      refine ⟨h.quote, ?_⟩
      show finish st = st.out ++ (if word = [] then [] else [word]).map Shell.text
      rw [finish, h.hasToken, h.current]
      by_cases hword : word = [] <;> simp [hword]
  | cons c s ih =>
      have hmark : ∀ {st' : Split}, st'.At (m.next c).1 (word ++ [(m.next c).2]) → st'.out = st.out →
          (m.next c).2.isBare isWhitespace = false →
          (s.foldl step st').quote = delimiter (Shell.endMode m (c :: s)) ∧ (s.foldl step st').finish =
            st.out ++ (Shell.wordsFrom isWhitespace word (Shell.raw m (c :: s))).map Shell.text := by
        intro st' hat hout hbare
        obtain ⟨hquote, hfinish⟩ := ih hat
        refine ⟨hquote, ?_⟩
        rw [hfinish, hout, Shell.raw, Shell.wordsFrom, if_neg (by simp [hbare])]
      rw [List.foldl_cons]
      by_cases hm : m = .bare
      · subst hm
        by_cases hc : isWhitespace c = true
        · obtain ⟨hat, hout⟩ := step_space h hc
          obtain ⟨hquote, hfinish⟩ := ih hat
          rw [hfinish, hout, Shell.raw, Shell.wordsFrom, Shell.next_of_whitespace hc]
          refine ⟨?_, ?_⟩
          · rw [hquote, Shell.endMode, Shell.endMode, List.foldl_cons, Shell.next_of_whitespace hc]
          · rw [if_pos (show Shell.Mark.isBare isWhitespace (.lit c false) = true from hc)]
            by_cases hword : word = [] <;> simp [hword]
        · rw [Bool.not_eq_true] at hc
          obtain ⟨hat, hout⟩ := step_bare h hc
          exact hmark hat hout (by rw [Shell.isBare_next, hc])
      · obtain ⟨hat, hout, hbare⟩ := step_quoted h hm c
        exact hmark hat hout hbare

end Split

/-! ## Commands that are taken apart -/

variable {command : Str} {args : List Str}

theorem splitArgs_spec (h : splitArgs command = some args) :
    Shell.endMode .bare command = .bare ∧ args = (Shell.wordsBy isWhitespace (Shell.raw .bare command)).map Shell.text := by
  obtain ⟨hquote, hfinish⟩ := Split.fold_spec
    (Split.At.nil rfl rfl rfl : Split.At ⟨[], [], none, false⟩ .bare []) command
  unfold splitArgs at h
  simp only at h
  split at h
  · cases h
  · rename_i hopen
    split at h
    · cases h
    · refine ⟨?_, ?_⟩
      · rw [hquote] at hopen
        cases hend : Shell.endMode .bare command with
        | bare => rfl
        | single | double =>
            rw [hend] at hopen
            exact absurd rfl hopen
      · rw [← Option.some.inj h, hfinish]
        rfl

/-- A command is what is left of it after trimming, and white space. -/
theorem trim_split (command : Str) : ∃ before after, command = before ++ trim command ++ after ∧
    (∀ c ∈ before, isWhitespace c = true) ∧ ∀ c ∈ after, isWhitespace c = true := by
  refine ⟨command.takeWhile isWhitespace, (command.dropWhile isWhitespace).rtakeWhile isWhitespace, ?_, ?_, ?_⟩
  · rw [trim, List.append_assoc, List.rdropWhile_append_rtakeWhile, List.takeWhile_append_dropWhile]
  · exact fun c hc => List.mem_takeWhile_imp hc
  · exact fun c hc => List.mem_rtakeWhile_imp hc

/-- White space around a command changes its marks by unquoted white space only. -/
theorem raw_trim (hend : Shell.endMode .bare (trim command) = .bare) : ∃ before after : Str,
    command = before ++ trim command ++ after ∧
      Shell.raw .bare command = before.map (Shell.Mark.lit · false) ++ Shell.raw .bare (trim command) ++
        after.map (Shell.Mark.lit · false) ∧
      Shell.endMode .bare command = .bare ∧ (∀ c ∈ before, isWhitespace c = true) ∧ ∀ c ∈ after, isWhitespace c = true := by
  obtain ⟨before, after, hsplit, hbefore, hafter⟩ := trim_split command
  obtain ⟨hrawBefore, hendBefore⟩ := Shell.raw_whitespace hbefore
  obtain ⟨hrawAfter, hendAfter⟩ := Shell.raw_whitespace hafter
  refine ⟨before, after, hsplit, ?_, ?_, hbefore, hafter⟩
  · conv_lhs => rw [hsplit]
    rw [Shell.raw_append, Shell.raw_append, hrawBefore, hendBefore, Shell.endMode_append, hendBefore, hend, hrawAfter]
  · rw [hsplit, Shell.endMode_append, Shell.endMode_append, hendBefore, hend, hendAfter]

theorem isBare_map {p : Char → Bool} {s : Str} (h : ∀ c ∈ s, p c = true) :
    ∀ m ∈ s.map (Shell.Mark.lit · false), m.isBare p = true := by
  intro m hm
  obtain ⟨c, hc, rfl⟩ := List.mem_map.mp hm
  exact h c hc

/-- Trimming a command that is taken apart changes none of its words. -/
theorem splitArgs_trim (h : splitArgs (trim command) = some args) :
    Shell.endMode .bare command = .bare ∧ args = (Shell.wordsBy isWhitespace (Shell.raw .bare command)).map Shell.text := by
  obtain ⟨hend, hargs⟩ := splitArgs_spec h
  obtain ⟨before, after, -, hraw, hend, hbefore, hafter⟩ := raw_trim hend
  refine ⟨hend, ?_⟩
  rw [hargs, hraw, List.append_assoc, Shell.wordsBy_append (isBare_map hbefore), Shell.wordsBy, Shell.wordsBy,
    Shell.wordsFrom_append (isBare_map hafter)]

/-- Only white space and the other characters of a trimmed command stand in a command. -/
theorem isSimpleCommand_spec (h : isSimpleCommand (trim command) = true) :
    ∀ c ∈ command, c ∈ shellMetacharacters → isWhitespace c = true := by
  intro c hc hmeta
  obtain ⟨before, after, hsplit, hbefore, hafter⟩ := trim_split command
  rw [hsplit, List.mem_append, List.mem_append] at hc
  rcases hc with (hc | hc) | hc
  · exact hbefore c hc
  · rw [isSimpleCommand, Bool.not_eq_true', List.any_eq_false] at h
    exact absurd (List.contains_iff_mem.mpr hmeta) (h c hc)
  · exact hafter c hc

/-- The splitter agrees with a shell on exactly the plain commands. -/
theorem fields_iff (hsimple : isSimpleCommand (trim command) = true) (h : splitArgs (trim command) = some args) :
    Shell.fields command = some args ↔ Shell.Plain command := by
  obtain ⟨hend, hargs⟩ := splitArgs_trim h
  refine Shell.fields_eq_iff hend hargs (fun c hc hsign => ?_) fun hblanks => ?_
  · have hwhite := isSimpleCommand_spec hsimple c hc
      ((show ['$', '\x60'] ⊆ shellMetacharacters by decide) hsign)
    rw [List.mem_pair] at hsign
    rcases hsign with rfl | rfl <;> cases hwhite
  · obtain ⟨before, after, hsplit, hraw, -, hbefore, hafter⟩ := raw_trim (splitArgs_spec h).1
    refine List.any_eq_false.mpr fun m hm hoperator => ?_
    have hspace : ∀ {s : Str}, (∀ c ∈ s, isWhitespace c = true) → (∀ m ∈ s.map (Shell.Mark.lit · false),
        m ∈ Shell.raw .bare command) → ∀ c ∈ s, Shell.isBlankOrNewline c = true := fun hs hmem c hc =>
      hblanks c (hmem _ (List.mem_map_of_mem hc)) (hs c hc)
    rw [hraw] at hm hspace
    have hmem := Shell.mem_of_mem_strip
      (isBare_map (hspace hbefore fun m hm => List.mem_append_left _ (List.mem_append_left _ hm)))
      (isBare_map (hspace hafter fun m hm => List.mem_append_right _ hm)) hm
    cases m with
    | quote => cases hoperator
    | lit c quoted =>
        cases quoted with
        | true => cases hoperator
        | false =>
            rw [isSimpleCommand, Bool.not_eq_true', List.any_eq_false] at hsimple
            refine hsimple c (Shell.mem_of_mem_raw hmem) (List.contains_iff_mem.mpr ?_)
            exact (show "|&;<>()\n".toList ⊆ shellMetacharacters by decide) (List.contains_iff_mem.mp hoperator)

/-! ## Entries -/

theorem staysIn_iff {dir : Path} {p : Written} : Lexical.normalize dir <+: Lexical.normalize (join dir p) ↔ StaysIn dir p := by
  unfold join StaysIn
  split
  · exact Iff.rfl
  · have hprefix := @List.prefix_append_right_inj _ ((Lexical.normalize dir).drop ((Lexical.normalize dir).length - climb p.steps))
      (descent p.steps) ((Lexical.normalize dir).take ((Lexical.normalize dir).length - climb p.steps))
    rwa [List.take_append_drop, ← normalizeFrom_eq, ← normalize_append] at hprefix

namespace Disk

variable {disk : Disk} {dir entry : Path}

theorem nodeEntry_eq_some {rel : Str} (h : disk.nodeEntry dir args = some rel) : args = ["node".toList, rel] := by
  unfold nodeEntry at h
  split at h
  · split at h
    · rename_i program _ hnode
      rw [Bool.and_eq_true, decide_eq_true_eq] at hnode
      cases h
      rw [hnode.1]
    · cases h
  · cases h

/-- A command that is classified as a script. -/
theorem classify_eq_some (h : (disk.classify dir command).jsEntry = some entry) :
    isSimpleCommand (trim command) = true ∧ ∃ args rel, splitArgs (trim command) = some args ∧
      disk.entry dir args = some rel ∧ entry = join dir (written rel) := by
  unfold classify at h
  simp only at h
  split at h
  · rename_i hsimple
    obtain ⟨rel, hrel, rfl⟩ := Option.map_eq_some_iff.mp h
    obtain ⟨args, hargs, hrel⟩ := Option.bind_eq_some_iff.mp hrel
    exact ⟨hsimple, args, rel, hargs, hrel, rfl⟩
  · cases h

end Disk

theorem display_ne (path : Path) : display path ≠ ['-', '-'] := by
  cases path with
  | nil => exact fun h => nomatch h
  | cons p path =>
      cases p with
      | up | into name =>
          intro h
          injection h with hslash
          exact absurd hslash (by decide)

/-- A script on the allowlist whose command is classified is started on the entry, without arguments. -/
theorem prepare_eq_ok {disk : Disk} {dir entry : Path} {s : Script} (exe : Path) (hallow : s.allowlisted = true)
    (hargv : ['-', '-'] ∉ s.sandboxArgv) (h : (disk.classify dir s.command).jsEntry = some entry) :
    ∃ launch, prepare disk (some exe) dir s = .ok launch ∧ ["run".toList, display entry] <+: launch.args ∧
      launch.scriptArgs = [] := by
  refine ⟨⟨exe, "run".toList :: display entry :: s.sandboxArgv, (scriptEnv s.phase dir).filter fun v => !v.2.isEmpty, dir⟩,
    ?_, ⟨s.sandboxArgv, rfl⟩, ?_⟩
  · unfold prepare
    rw [hallow, h]
    rfl
  rw [Launch.scriptArgs, List.dropWhile_eq_nil_iff.mpr]
  · rfl
  · intro a ha
    refine decide_eq_true ?_
    rintro rfl
    rcases List.mem_cons.mp ha with hrun | ha
    · exact absurd hrun (by decide)
    · rcases List.mem_cons.mp ha with hentry | ha
      · exact display_ne entry hentry.symm
      · exact hargv ha

/-- A script is run as it was approved exactly if its command is faithful. -/
theorem approved_iff {disk : Disk} {dir entry : Path} (h : (disk.classify dir command).jsEntry = some entry) :
    Approved disk dir command entry [] ↔ Faithful disk dir command := by
  obtain ⟨hsimple, args, rel, hargs, hrel, rfl⟩ := Disk.classify_eq_some h
  have hfields := fields_iff hsimple hargs
  -- What a shell gives to a script is what follows the program, and the file after `node`.
  have hgiven : Shell.fields command = some args →
      (shellArgs disk dir command = some [] ↔ (disk.nodeEntry dir args = none → args.tail = [])) := by
    intro hshell
    rw [shellArgs, hshell, Option.map_some, Option.some.injEq]
    cases hnode : disk.nodeEntry dir args with
    | none => simp
    | some file =>
        rw [Disk.nodeEntry_eq_some hnode]
        simp
  constructor
  · intro happroved
    have hshell : Shell.fields command = some args := happroved.agree.2 ▸ hargs
    refine ⟨hfields.mp hshell, fun args' hargs' rel' hrel' => ?_, fun args' hargs' => ?_⟩
    · cases hargs.symm.trans hargs'
      cases hrel.symm.trans (Option.mem_def.mp hrel')
      exact staysIn_iff.mp happroved.inside
    · cases hargs.symm.trans hargs'
      exact (hgiven hshell).mp happroved.args
  · intro hfaithful
    have hshell := hfields.mpr hfaithful.plain
    refine ⟨staysIn_iff.mpr (hfaithful.stays args hargs rel hrel), ⟨?_, ?_⟩, (hgiven hshell).mpr (hfaithful.alone args hargs)⟩
    · rw [hshell]
      rfl
    · rw [hshell, hargs]

end ThreeVa.Pm.Lifecycle
