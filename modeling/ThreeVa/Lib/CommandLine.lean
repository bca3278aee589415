import ThreeVa.Lib.Text

/-!
# Lines of a text protocol

A command is a keyword and parameters, each after a space. The grammar of a protocol says how the parameter at each place
is written: as a word, inside quotes or brackets, or up to the end of the line.
-/

namespace CommandLine
open Text

/-! ## Parameters -/

inductive Kind
  /-- Up to the next space, between two constant texts. -/
  | word (before after : Str) (ok : Str → Bool)
  /-- A quoted string, in which a backslash stands before a quote or a backslash. -/
  | quoted
  | enclosed (opening : Str) (close : Char) (after : Str)
  /-- A colon and what comes after it up to the end of the line. -/
  | trailing
  /-- What comes up to the end of the line. -/
  | rest

/-- What a quoted string says, and what comes after it. -/
def unquote : Str → Option (Str × Str)
  | [] => none
  | c :: s =>
      if c = '"' then some ([], s)
      else if c = '\\' then
        match s with
        | [] => none
        | d :: s => if d = '"' ∨ d = '\\' then (unquote s).map fun p => (d :: p.1, p.2) else none
      else (unquote s).map fun p => (c :: p.1, p.2)

def stripSuffix (p s : Str) : Option Str := if p <:+ s then some (s.take (s.length - p.length)) else none

namespace Kind

/-- The parameter at the start of a text, and what comes after it. -/
def read (s : Str) : Kind → Option (Str × Str)
  | word before after ok =>
      let piece := s.takeWhile (· ≠ ' ')
      ((stripPrefix before piece).bind (stripSuffix after)).bind fun arg =>
        if ok arg then some (arg, s.dropWhile (· ≠ ' ')) else none
  | quoted => (stripPrefix ['"'] s).bind unquote
  | enclosed opening close after =>
      (stripPrefix opening s).bind fun s =>
        (splitOnce close s).bind fun p => (stripPrefix after p.2).map fun left => (p.1, left)
  | trailing => (stripPrefix [':'] s).map fun s => (s, [])
  | rest => if s = [] then none else some (s, [])

def write (arg : Str) : Kind → Str
  | word before after _ => before ++ arg ++ after
  | quoted => '"' :: arg ++ ['"']
  | enclosed opening close after => opening ++ arg ++ close :: after
  | trailing => ':' :: arg
  | rest => arg

/-- The parameter takes the rest of the line. -/
def open' : Kind → Bool
  | trailing | rest => true
  | _ => false

/-- The constant texts. -/
def constants : Kind → Str
  | word before after _ => before ++ after
  | quoted => ['"']
  | enclosed opening close after => opening ++ close :: after
  | trailing => [':']
  | rest => []

/-- A text that the grammar allows as it is written. -/
def Allows (arg : Str) : Kind → Prop
  | word _ _ ok => ok arg = true ∧ ' ' ∉ arg
  | quoted => '"' ∉ arg ∧ '\\' ∉ arg
  | enclosed _ close _ => close ∉ arg
  | trailing => True
  | rest => arg ≠ []

/-- The constant texts of a word have no spaces. -/
def Spaceless : Kind → Prop
  | word before after _ => ' ' ∉ before ∧ ' ' ∉ after
  | _ => True

end Kind

/-! ## Reading what was written -/

section Read

variable {arg more left : Str}

theorem stripSuffix_append (s p : Str) : stripSuffix p (s ++ p) = some s := by
  unfold stripSuffix
  rw [if_pos (List.suffix_append _ _)]
  simp

theorem stripSuffix_eq_some {p s t : Str} (h : stripSuffix p s = some t) : s = t ++ p := by
  unfold stripSuffix at h
  split at h
  · rename_i hsuffix
    obtain ⟨init, rfl⟩ := hsuffix
    rw [← Option.some.inj h]
    simp
  · cases h

theorem unquote_cons (c : Char) (s : Str) :
    unquote (c :: s) =
      if c = '"' then some ([], s)
      else if c = '\\' then
        match s with
        | [] => none
        | d :: s => if d = '"' ∨ d = '\\' then (unquote s).map fun p => (d :: p.1, p.2) else none
      else (unquote s).map fun p => (c :: p.1, p.2) := by
  rw [unquote.eq_def]
  rfl

theorem unquote_append (h : '"' ∉ arg ∧ '\\' ∉ arg) (more : Str) : unquote (arg ++ '"' :: more) = some (arg, more) := by
  induction arg with
  | nil => rw [List.nil_append, unquote_cons, if_pos rfl]
  | cons c arg ih =>
      have hquote : c ≠ '"' := fun heq => h.1 (heq ▸ List.mem_cons_self)
      have hslash : c ≠ '\\' := fun heq => h.2 (heq ▸ List.mem_cons_self)
      have hrest := ih ⟨fun hmem => h.1 (List.mem_cons_of_mem _ hmem), fun hmem => h.2 (List.mem_cons_of_mem _ hmem)⟩
      rw [List.cons_append, unquote_cons, if_neg hquote, if_neg hslash, hrest]
      rfl

/-- A backslash is read away, and every text after it would have to make up for it. -/
theorem unquote_ne_slashes (n : Nat) (arg more left : Str) :
    unquote (arg ++ '"' :: more) ≠ some (List.replicate (n + 1) '\\' ++ arg, left) := by
  induction hlen : arg.length using Nat.strongRecOn generalizing n arg with
  | _ len ih =>
      intro h
      rw [List.replicate_succ, List.cons_append] at h
      cases arg with
      | nil =>
          rw [List.nil_append, unquote_cons, if_pos rfl] at h
          simp at h
      | cons c arg =>
          rw [List.cons_append, unquote_cons] at h
          split at h
          · simp at h
          · by_cases hslash : c = '\\'
            · subst hslash
              rw [if_pos rfl] at h
              cases arg with
              | nil =>
                  -- the closing quote is read as an escaped one
                  obtain ⟨p, -, hp⟩ := Option.map_eq_some_iff.mp h
                  have hhead := (List.cons.inj (Prod.mk.inj hp).1).1
                  cases hhead
              | cons d arg =>
                  simp only [List.cons_append] at h
                  split at h
                  · obtain ⟨⟨out, left'⟩, hout, hp⟩ := Option.map_eq_some_iff.mp h
                    obtain ⟨⟨rfl, htail⟩, rfl⟩ := Prod.mk.inj hp |>.imp_left List.cons.inj
                    rw [show out = _ from htail] at hout
                    have hmore : List.replicate n '\\' ++ '\\' :: '\\' :: arg = List.replicate (n + 1 + 1) '\\' ++ arg := by
                      rw [List.replicate_succ', List.replicate_succ']
                      simp
                    rw [hmore] at hout
                    exact ih arg.length (by rw [← hlen]; simp only [List.length_cons]; omega) (n + 1) arg rfl hout
                  · cases h
            · rw [if_neg hslash] at h
              obtain ⟨p, -, hp⟩ := Option.map_eq_some_iff.mp h
              exact hslash (List.cons.inj (Prod.mk.inj hp).1).1

/-- A quoted string that is read as it was written has nothing to escape. -/
theorem of_unquote_append {arg more left : Str} (h : unquote (arg ++ '"' :: more) = some (arg, left)) :
    '"' ∉ arg ∧ '\\' ∉ arg := by
  induction arg with
  | nil => simp
  | cons c arg ih =>
      rw [List.cons_append, unquote_cons] at h
      split at h
      · simp at h
      · rename_i hquote
        split at h
        · exfalso
          rename_i hslash
          subst hslash
          cases arg with
          | nil =>
              obtain ⟨p, -, hp⟩ := Option.map_eq_some_iff.mp h
              have hhead := (List.cons.inj (Prod.mk.inj hp).1).1
              cases hhead
          | cons d arg =>
              simp only [List.cons_append] at h
              split at h
              · obtain ⟨⟨out, left'⟩, hout, hp⟩ := Option.map_eq_some_iff.mp h
                obtain ⟨⟨rfl, htail⟩, rfl⟩ := Prod.mk.inj hp |>.imp_left List.cons.inj
                rw [show out = _ from htail] at hout
                exact unquote_ne_slashes 0 arg more left' hout
              · cases h
        · rename_i hslash
          obtain ⟨⟨out, left'⟩, hout, hp⟩ := Option.map_eq_some_iff.mp h
          obtain ⟨⟨-, htail⟩, rfl⟩ := Prod.mk.inj hp |>.imp_left List.cons.inj
          rw [show out = _ from htail] at hout
          obtain ⟨h1, h2⟩ := ih hout
          exact ⟨by simp [Ne.symm hquote, h1], by simp [Ne.symm hslash, h2]⟩

namespace Kind

variable {kind : Kind}

/-- Where a parameter is followed by a space or by nothing, and by nothing where it takes the rest of the line, it is read
as it was written exactly if the grammar allows it, and all of it is read. -/
theorem read_write (hspace : kind.Spaceless) (hmore : more = [] ∨ ∃ m, more = ' ' :: m) (hopen : kind.open' = true → more = []) :
    kind.read (kind.write arg ++ more) = some (arg, left) ↔ kind.Allows arg ∧ left = more := by
  cases kind with
  | word before after ok =>
      obtain ⟨hbefore, hafter⟩ := hspace
      have hall : ∀ {s : Str}, ' ' ∉ s → (s ++ more).takeWhile (· ≠ ' ') = s ∧ (s ++ more).dropWhile (· ≠ ' ') = more := by
        intro s hs
        have hkeep : ∀ c ∈ s, decide (c ≠ ' ') = true := fun c hc => decide_eq_true fun heq => hs (heq ▸ hc)
        rw [List.takeWhile_append_of_pos hkeep, List.dropWhile_append_of_pos hkeep]
        rcases hmore with rfl | ⟨m, rfl⟩ <;> simp
      simp only [read, write, Allows, Option.bind_eq_some_iff]
      constructor
      · rintro ⟨arg', ⟨inner, hinner, harg'⟩, hok⟩
        split at hok
        · rename_i hok'
          obtain ⟨rfl, rfl⟩ := Prod.mk.inj (Option.some.inj hok)
          have hpiece := stripPrefix_eq_some.mp hinner
          rw [stripSuffix_eq_some harg'] at hpiece
          have hnot : ' ' ∉ arg' := by
            intro hmem
            have hin : ' ' ∈ (before ++ arg' ++ after ++ more).takeWhile (· ≠ ' ') := by
              rw [hpiece]
              simp [hmem]
            simpa using List.mem_takeWhile_imp hin
          have hline : ' ' ∉ before ++ arg' ++ after := by simp [hbefore, hnot, hafter]
          exact ⟨⟨hok', hnot⟩, (hall hline).2⟩
        · cases hok
      · rintro ⟨⟨hok, hnot⟩, rfl⟩
        have hline : ' ' ∉ before ++ arg ++ after := by simp [hbefore, hnot, hafter]
        rw [(hall hline).1, (hall hline).2]
        refine ⟨arg, ⟨arg ++ after, stripPrefix_eq_some.mpr (List.append_assoc ..), stripSuffix_append arg after⟩, ?_⟩
        rw [if_pos hok]
  | quoted =>
      have hread : read ('"' :: arg ++ ['"'] ++ more) quoted = unquote (arg ++ '"' :: more) := by
        rw [read, stripPrefix_eq_some.mpr (show '"' :: arg ++ ['"'] ++ more = ['"'] ++ (arg ++ '"' :: more) by simp)]
        rfl
      rw [write, hread, Allows]
      constructor
      · intro h
        have hclean := of_unquote_append h
        rw [unquote_append hclean] at h
        exact ⟨hclean, (Prod.mk.inj (Option.some.inj h)).2.symm⟩
      · rintro ⟨hclean, rfl⟩
        exact unquote_append hclean left
  | enclosed opening close after =>
      have hstrip : stripPrefix opening (opening ++ arg ++ close :: after ++ more) = some (arg ++ close :: (after ++ more)) :=
        stripPrefix_eq_some.mpr (by simp)
      simp only [read, write, Allows, hstrip, Option.bind_some, Option.bind_eq_some_iff, Option.map_eq_some_iff,
        Prod.mk.injEq, Prod.exists]
      constructor
      · rintro ⟨a, b, hsplit, l, hl, rfl, rfl⟩
        obtain ⟨hsame, hnot⟩ := splitOnce_eq_some.mp hsplit
        have hb := (List.cons.inj (List.append_cancel_left hsame)).2
        rw [← hb] at hl
        exact ⟨hnot, (List.append_cancel_left (stripPrefix_eq_some.mp hl)).symm⟩
      · rintro ⟨hnot, rfl⟩
        exact ⟨arg, _, splitOnce_append hnot, left, stripPrefix_eq_some.mpr rfl, rfl, rfl⟩
  | trailing =>
      obtain rfl := hopen rfl
      simp [read, write, Allows, eq_comm]
  | rest =>
      obtain rfl := hopen rfl
      simp only [read, write, Allows, List.append_nil]
      split
      · simp_all
      · rename_i hne
        simp [hne, eq_comm]

theorem length_of_unquote {s : Str} (h : unquote s = some (arg, left)) : arg.length + 1 + left.length ≤ s.length := by
  induction hlen : s.length using Nat.strongRecOn generalizing s arg with
  | _ len ih =>
      cases s with
      | nil => simp [unquote] at h
      | cons c s =>
          rw [List.length_cons] at hlen
          rw [unquote_cons] at h
          split at h
          · obtain ⟨rfl, rfl⟩ := Prod.mk.inj (Option.some.inj h)
            simp only [List.length_nil]
            omega
          · split at h
            · cases s with
              | nil => cases h
              | cons d s =>
                  rw [List.length_cons] at hlen
                  simp only at h
                  split at h
                  · obtain ⟨⟨out, left'⟩, hout, hp⟩ := Option.map_eq_some_iff.mp h
                    obtain ⟨rfl, hleft⟩ := Prod.mk.inj hp
                    obtain rfl : left' = left := hleft
                    have hrest := ih s.length (by omega) hout rfl
                    simp only [List.length_cons]
                    omega
                  · cases h
            · obtain ⟨⟨out, left'⟩, hout, hp⟩ := Option.map_eq_some_iff.mp h
              obtain ⟨rfl, hleft⟩ := Prod.mk.inj hp
              obtain rfl : left' = left := hleft
              have hrest := ih s.length (by omega) hout rfl
              simp only [List.length_cons]
              omega

/-- What was read takes at least the room it takes written. -/
theorem length_of_read {s : Str} (h : kind.read s = some (arg, left)) :
    (kind.write arg).length + left.length ≤ s.length := by
  cases kind with
  | word before after ok =>
      simp only [read, Option.bind_eq_some_iff] at h
      obtain ⟨arg', ⟨inner, hinner, harg'⟩, hok⟩ := h
      split at hok
      · obtain ⟨rfl, rfl⟩ := Prod.mk.inj (Option.some.inj hok)
        have hpiece := stripPrefix_eq_some.mp hinner
        rw [stripSuffix_eq_some harg'] at hpiece
        have hlen := congrArg List.length (List.takeWhile_append_dropWhile (p := fun c => decide (c ≠ ' ')) (l := s))
        rw [hpiece] at hlen
        simp only [write, List.length_append] at hlen ⊢
        omega
      · cases hok
  | quoted =>
      simp only [read, Option.bind_eq_some_iff] at h
      obtain ⟨rest, hrest, hunquote⟩ := h
      have hlen := length_of_unquote hunquote
      rw [stripPrefix_eq_some.mp hrest]
      simp only [write, List.length_append, List.length_cons, List.length_nil]
      omega
  | enclosed opening close after =>
      simp only [read, Option.bind_eq_some_iff, Option.map_eq_some_iff, Prod.mk.injEq] at h
      obtain ⟨rest, hrest, ⟨a, b⟩, hsplit, l, hl, rfl, rfl⟩ := h
      rw [stripPrefix_eq_some.mp hrest, (splitOnce_eq_some.mp hsplit).1, show b = _ from stripPrefix_eq_some.mp hl]
      simp only [write, List.length_append, List.length_cons]
      omega
  | trailing =>
      simp only [read, Option.map_eq_some_iff, Prod.mk.injEq] at h
      obtain ⟨rest, hrest, rfl, rfl⟩ := h
      rw [stripPrefix_eq_some.mp hrest]
      simp [write]
  | rest =>
      simp only [read] at h
      split at h
      · cases h
      · obtain ⟨rfl, rfl⟩ := Prod.mk.inj (Option.some.inj h)
        simp [write]

end Kind

end Read

/-! ## Commands -/

def readParams : List Kind → Str → Option (List Str)
  | [], [] => some []
  | kind :: kinds, ' ' :: s => (kind.read s).bind fun p => (readParams kinds p.2).map fun args => p.1 :: args
  | _, _ => none

def writeParams (params : List (Kind × Str)) : Str := params.flatMap fun p => ' ' :: p.1.write p.2

/-- No character that ends a line or a text. -/
def Unbroken (s : Str) : Prop := ∀ c ∈ s, c ≠ '\r' ∧ c ≠ '\n' ∧ c ≠ '\x00'

/-- A command with its arguments. -/
structure Command where
  keyword : Str
  params : List (Kind × Str)
  spaceless : ∀ p ∈ params, p.1.Spaceless
  constants : ∀ p ∈ params, Unbroken p.1.constants
  /-- Only the last parameter takes the rest of the line. -/
  open_last : ∀ p ∈ params.dropLast, p.1.open' = false

namespace Command

variable (c : Command)

def write : Str := c.keyword ++ writeParams c.params

/-- The arguments of a line with this keyword and parameters of these kinds. -/
def parse (line : Str) : Option (List Str) := (stripPrefix c.keyword line).bind (readParams (c.params.map Prod.fst))

def crlf : Str := "\r\n".toList

/-- The text is one line, which is this command with these arguments. -/
def IsSent (sent : Str) : Prop :=
  ∃ line, sent = line ++ crlf ∧ Unbroken line ∧ c.parse line = some (c.params.map Prod.snd)

/-- The grammar allows every argument as it is written. -/
def Clean : Prop := Unbroken c.keyword ∧ ∀ p ∈ c.params, Unbroken p.2 ∧ p.1.Allows p.2

end Command

section Params

variable {params : List (Kind × Str)}

theorem writeParams_cons (p : Kind × Str) (params : List (Kind × Str)) :
    writeParams (p :: params) = ' ' :: (p.1.write p.2 ++ writeParams params) := by
  rw [writeParams, List.flatMap_cons]
  rfl

theorem writeParams_nil_or (params : List (Kind × Str)) : writeParams params = [] ∨ ∃ m, writeParams params = ' ' :: m := by
  cases params with
  | nil => exact .inl rfl
  | cons p params => exact .inr ⟨_, writeParams_cons p params⟩

/-- Parameters are read as they were written exactly if the grammar allows each of them. -/
theorem readParams_write (hspace : ∀ p ∈ params, p.1.Spaceless) (hopen : ∀ p ∈ params.dropLast, p.1.open' = false) :
    readParams (params.map Prod.fst) (writeParams params) = some (params.map Prod.snd) ↔ ∀ p ∈ params, p.1.Allows p.2 := by
  induction params with
  | nil => simp [readParams, writeParams]
  | cons p params ih =>
      have hopen' : p.1.open' = true → writeParams params = [] := by
        intro hp
        cases params with
        | nil => rfl
        | cons q params =>
            rw [hopen p (by simp)] at hp
            cases hp
      have hrest : ∀ q ∈ params.dropLast, q.1.open' = false := by
        intro q hq
        cases params with
        | nil => cases hq
        | cons q' params => exact hopen q (by rw [List.dropLast_cons_cons]; exact List.mem_cons_of_mem _ hq)
      have hread : ∀ left, p.1.read (p.1.write p.2 ++ writeParams params) = some (p.2, left) ↔
          p.1.Allows p.2 ∧ left = writeParams params :=
        fun left => Kind.read_write (hspace p List.mem_cons_self) (writeParams_nil_or params) hopen'
      have hih := ih (fun q hq => hspace q (List.mem_cons_of_mem _ hq)) hrest
      rw [writeParams_cons, List.map_cons, List.map_cons, readParams, List.forall_mem_cons, ← hih]
      simp only [Option.bind_eq_some_iff, Option.map_eq_some_iff, List.cons.injEq, Prod.exists]
      constructor
      · rintro ⟨arg, left, hp, args, hargs, rfl, rfl⟩
        obtain ⟨hallows, rfl⟩ := (hread left).mp hp
        exact ⟨hallows, hargs⟩
      · rintro ⟨hallows, hargs⟩
        exact ⟨_, _, (hread _).mpr ⟨hallows, rfl⟩, _, hargs, rfl, rfl⟩

theorem length_of_readParams {s : Str} (h : readParams (params.map Prod.fst) s = some (params.map Prod.snd)) :
    (writeParams params).length ≤ s.length := by
  induction params generalizing s with
  | nil => simp [writeParams]
  | cons p params ih =>
      cases s with
      | nil => simp [readParams] at h
      | cons x s =>
          by_cases hx : x = ' '
          · subst hx
            rw [List.map_cons, List.map_cons, readParams] at h
            simp only [Option.bind_eq_some_iff, Option.map_eq_some_iff, List.cons.injEq, Prod.exists] at h
            obtain ⟨arg, left, hp, args, hargs, rfl, rfl⟩ := h
            have hfirst := Kind.length_of_read hp
            have hrest := ih hargs
            rw [writeParams_cons]
            simp only [List.length_cons, List.length_append]
            omega
          · rw [List.map_cons, readParams] at h
            · cases h
            · simp
            · exact fun _ _ _ _ heq => absurd (List.cons.inj heq).1 hx

end Params

theorem unbroken_append {s t : Str} : Unbroken (s ++ t) ↔ Unbroken s ∧ Unbroken t := by
  unfold Unbroken
  exact List.forall_mem_append

theorem unbroken_write (kind : Kind) (arg : Str) : Unbroken (kind.write arg) ↔ Unbroken kind.constants ∧ Unbroken arg := by
  unfold Unbroken
  cases kind <;> simp only [Kind.write, Kind.constants, List.mem_append, List.mem_cons, List.not_mem_nil, or_false] <;> grind

theorem unbroken_writeParams (params : List (Kind × Str)) (h : ∀ p ∈ params, Unbroken p.1.constants) :
    Unbroken (writeParams params) ↔ ∀ p ∈ params, Unbroken p.2 := by
  induction params with
  | nil => simp [writeParams, Unbroken]
  | cons p params ih =>
      have hspace : Unbroken [' '] := by
        intro c hc
        rw [List.mem_singleton.mp hc]
        decide
      rw [writeParams_cons, ← List.singleton_append, unbroken_append, unbroken_append, unbroken_write,
        ih fun q hq => h q (List.mem_cons_of_mem _ hq), List.forall_mem_cons]
      exact ⟨fun hall => ⟨hall.2.1.2, hall.2.2⟩, fun hall => ⟨hspace, ⟨h p List.mem_cons_self, hall.1⟩, hall.2⟩⟩

namespace Command

/-- A command that is written as it is and sent is one line of the protocol, with its arguments as they were given,
exactly if the grammar allows every argument as it is. -/
theorem isSent_write (c : Command) : c.IsSent (c.write ++ crlf) ↔ c.Clean := by
  have hparse : c.parse c.write = some (c.params.map Prod.snd) ↔ ∀ p ∈ c.params, p.1.Allows p.2 := by
    rw [← readParams_write c.spaceless c.open_last, parse, write, stripPrefix_eq_some.mpr rfl]
    rfl
  have hunbroken : Unbroken c.write ↔ Unbroken c.keyword ∧ ∀ p ∈ c.params, Unbroken p.2 := by
    rw [write, unbroken_append, unbroken_writeParams c.params c.constants]
  constructor
  · rintro ⟨line, hline, hends, hargs⟩
    obtain rfl := List.append_cancel_right hline
    have h := hunbroken.mp hends
    exact ⟨h.1, fun p hp => ⟨h.2 p hp, hparse.mp hargs p hp⟩⟩
  · rintro ⟨hkeyword, hparams⟩
    exact ⟨c.write, rfl, hunbroken.mpr ⟨hkeyword, fun p hp => (hparams p hp).1⟩, hparse.mpr fun p hp => (hparams p hp).2⟩

end Command

end CommandLine
