import ThreeVa.Lib.Text

/-!
# Hosts and ports of a network grant

`authority`, `written_port`, `split_host_port` and `host_matches` of `permissions/src/capability.rs`.
-/

namespace ThreeVa.Permissions
open Text

def authority (host : Str) (port : Nat) : Str :=
  if ':' ∈ host ∧ ¬ ['['] <+: host then
    ['['] ++ host ++ [']', ':'] ++ decimal port
  else
    host ++ [':'] ++ decimal port

/-- The port a spec writes, as text, without validating it. -/
def writtenPort (spec : Str) : Option Str :=
  match stripPrefix ['['] spec with
  | some rest => (splitOnce ']' rest).bind fun p => stripPrefix [':'] p.2
  | none =>
      if spec.count ':' > 1 then none
      else ((rsplitOnce ':' spec).map Prod.snd).filter (· ≠ [])

/-- The unbracketed part of `splitHostPort`. -/
def splitPlainHostPort (spec : Str) : Str × Option Nat :=
  if spec.count ':' > 1 then (spec, none)
  else
    match rsplitOnce ':' spec with
    | some (host, port) => if host ≠ [] then (host, parseUnsigned 10 u16Max port) else (spec, none)
    | none => (spec, none)

def splitHostPort (spec : Str) : Str × Option Nat :=
  -- an unclosed bracket falls through to the unbracketed spellings
  match (stripPrefix ['['] spec).bind (splitOnce ']') with
  | some (host, after) =>
      match stripPrefix [':'] after with
      | some p => (host, parseUnsigned 10 u16Max p)
      | none => (host, none)
  | none => splitPlainHostPort spec

def hostPartMatches (patternHost targetHost : Str) : Bool :=
  if patternHost = targetHost then true
  else
    match stripPrefix ['*', '.'] patternHost with
    | some suffix =>
        suffix.isSuffixOf targetHost
          && decide (targetHost.length > suffix.length)
          && decide (targetHost[targetHost.length - suffix.length - 1]? = some '.')
    | none => false

def hostMatches (pattern host : Str) : Bool :=
  if pattern = ['*'] then true
  else if ((writtenPort pattern).any fun w => (parseUnsigned 10 u16Max w).isNone) then false
  else
    let (patternHost, patternPort) := splitHostPort pattern
    let (targetHost, targetPort) := splitHostPort host
    if (patternPort.any fun wanted => decide (targetPort ≠ some wanted)) then false
    else hostPartMatches patternHost targetHost

/-! ## What a pattern says -/

/-- A name that can be looked up: not empty and without the characters that separate a port. -/
def IsDnsName (host : Str) : Prop := host ≠ [] ∧ ':' ∉ host ∧ '[' ∉ host ∧ ']' ∉ host

/-- An IPv6 literal without its brackets: every one of them has two colons or more. -/
def IsIpv6Literal (host : Str) : Prop := 1 < host.count ':' ∧ '[' ∉ host ∧ ']' ∉ host

instance : DecidablePred IsDnsName := fun host =>
  inferInstanceAs (Decidable (host ≠ [] ∧ ':' ∉ host ∧ '[' ∉ host ∧ ']' ∉ host))

instance : DecidablePred IsIpv6Literal := fun host =>
  inferInstanceAs (Decidable (1 < host.count ':' ∧ '[' ∉ host ∧ ']' ∉ host))

/-- The hosts a request is made to, as written (`written`) and without brackets (`host`). -/
inductive IsHost : (written host : Str) → Prop
  | dns {h} : IsDnsName h → IsHost h h
  | bare {h} : IsIpv6Literal h → IsHost h h
  | bracketed {h} : IsIpv6Literal h → IsHost ('[' :: h ++ [']']) h

inductive PortText
  | absent
  | written (text : Str)
  /-- Text after the closing bracket that no separator introduces. -/
  | garbled

structure PatternText where
  host : Str
  port : PortText

/-- Reads a pattern: `[host]` is followed by nothing or by a separator and port text, two or more colons
outside brackets belong to an address, and one colon separates host and port. -/
def patternText (g : Str) : PatternText :=
  match (stripPrefix ['['] g).bind (splitOnce ']') with
  | some (host, []) => ⟨host, .absent⟩
  | some (host, c :: after) => ⟨host, if c = ':' then .written after else .garbled⟩
  | none =>
      if g.count ':' > 1 then ⟨g, .absent⟩
      else
        match rsplitOnce ':' g with
        | some (host, port) => ⟨host, .written port⟩
        | none => ⟨g, .absent⟩

/-- Whether a pattern with this port text is about the port: no text, or the text of that `u16`. -/
def PortText.Covers (port : Nat) : PortText → Prop
  | absent => True
  | written text => parseUnsigned 10 u16Max text = some port
  | garbled => False

/-- The host part equals the host, or is `*.` and a proper suffix of it that starts after a dot. -/
def HostCovers (patternHost host : Str) : Prop :=
  patternHost = host ∨ ∃ front suffix, patternHost = ['*', '.'] ++ suffix ∧ host = front ++ '.' :: suffix

/-- What a grant promises: any destination for `*`, else a host it covers and, if it writes a port, that port. -/
def PatternCovers (g host : Str) (port : Nat) : Prop :=
  g = ['*'] ∨ HostCovers (patternText g).host host ∧ (patternText g).port.Covers port

/-- The spellings that write something after the host which is no port and is read as no port at all: text
other than `:` right after the closing bracket, and nothing after the one colon outside brackets. -/
def portTextIgnored (g : Str) : Bool :=
  match (stripPrefix ['['] g).bind (splitOnce ']') with
  | some (_, []) => false
  | some (_, c :: _) => c ≠ ':'
  | none => g.count ':' ≤ 1 && (rsplitOnce ':' g).any fun p => p.1 ≠ [] && p.2 = []

end ThreeVa.Permissions

/-!
## Reading back an authority, and matching a pattern against one
-/

namespace ThreeVa.Permissions
open Text

/-! ## The host part -/

theorem hostPartMatches_iff {a b : Str} : hostPartMatches a b = true ↔ HostCovers a b := by
  unfold hostPartMatches HostCovers
  by_cases hab : a = b
  · simp [hab]
  · simp only [hab, ↓reduceIte, false_or]
    cases hs : stripPrefix ['*', '.'] a with
    | none =>
        simp only [Bool.false_eq_true, false_iff, not_exists, not_and]
        rintro front suffix rfl
        rw [stripPrefix_eq_some.mpr rfl] at hs
        cases hs
    | some suffix =>
        obtain rfl := stripPrefix_eq_some.mp hs
        simp only [Bool.and_eq_true, decide_eq_true_eq, List.isSuffixOf_iff_suffix]
        constructor
        · rintro ⟨⟨⟨front, rfl⟩, hlen⟩, hdot⟩
          simp only [List.length_append] at hlen
          rw [List.length_append, Nat.add_sub_cancel, List.getElem?_append_left (by omega)] at hdot
          -- the character before the suffix is the last one of `front`
          have hlast := List.getLast?_eq_getElem? (l := front)
          obtain ⟨front', rfl⟩ := List.getLast?_eq_some_iff.mp (hlast.trans hdot)
          exact ⟨front', suffix, rfl, by simp⟩
        · rintro ⟨front, suffix', h, rfl⟩
          simp only [List.append_cancel_left_eq] at h
          subst h
          refine ⟨⟨⟨front ++ ['.'], by simp⟩, by simp only [List.length_append, List.length_cons]; omega⟩, ?_⟩
          simp only [List.length_append, List.length_cons]
          rw [show front.length + (suffix.length + 1) - suffix.length - 1 = front.length by omega]
          simp

theorem HostCovers.left_ne_nil {a host : Str} (h : HostCovers a host) (hh : host ≠ []) : a ≠ [] := by
  rcases h with rfl | ⟨front, suffix, rfl, rfl⟩
  · exact hh
  · simp

theorem HostCovers.head_ne_bracket {a host : Str} (h : HostCovers a host) (hh : '[' ∉ host) :
    ∀ rest, a ≠ '[' :: rest := by
  rintro rest rfl
  rcases h with rfl | ⟨front, suffix, h, rfl⟩
  · simp at hh
  · simp at h

theorem HostCovers.head_ne_colon {port host : Str} (hp : ':' ∉ port)
    (hh : host.count ':' ≠ 1) : ¬ HostCovers (':' :: port) host := by
  rintro (rfl | ⟨front, suffix, h, rfl⟩)
  · simp [List.count_eq_zero.mpr hp] at hh
  · simp at h

/-! ## Authorities -/

theorem IsHost.ne_nil {w h : Str} (hh : IsHost w h) : h ≠ [] := by
  cases hh with
  | dns hd => exact hd.1
  | bare hb => rintro rfl; simp [IsIpv6Literal] at hb
  | bracketed hb => rintro rfl; simp [IsIpv6Literal] at hb

theorem IsHost.no_bracket {w h : Str} (hh : IsHost w h) : '[' ∉ h := by
  cases hh with
  | dns hd => exact hd.2.2.1
  | bare hb => exact hb.2.1
  | bracketed hb => exact hb.2.1

theorem IsHost.count_colon {w h : Str} (hh : IsHost w h) : h.count ':' ≠ 1 := by
  cases hh with
  | dns hd => simp [List.count_eq_zero.mpr hd.2.1]
  | bare hb => have := hb.1; omega
  | bracketed hb => have := hb.1; omega

theorem colon_not_mem_decimal (p : Nat) : ':' ∉ decimal p := fun hm => by
  simpa using decimal_isDigit hm

theorem splitHostPort_bracketed {h p : Str} (hb : ']' ∉ h) :
    splitHostPort ('[' :: h ++ ']' :: ':' :: p) = (h, parseUnsigned 10 u16Max p) := by
  simp [splitHostPort, splitOnce_append hb]

theorem splitHostPort_plain {h p : Str} (hne : h ≠ []) (hh : ':' ∉ h) (hb : '[' ∉ h) (hp : ':' ∉ p) :
    splitHostPort (h ++ ':' :: p) = (h, parseUnsigned 10 u16Max p) := by
  have h1 : stripPrefix ['['] (h ++ ':' :: p) = none := by
    cases h with
    | nil => exact absurd rfl hne
    | cons c cs =>
        simp only [List.mem_cons, not_or] at hb
        simp [Ne.symm hb.1]
  have h2 : (h ++ ':' :: p).count ':' = 1 := by
    simp [List.count_eq_zero.mpr hh, List.count_eq_zero.mpr hp]
  simp [splitHostPort, splitPlainHostPort, h1, h2, rsplitOnce_append hp, hne]

theorem splitHostPort_authority {w h : Str} {p : Nat} (hh : IsHost w h) (hp : p ≤ u16Max) :
    splitHostPort (authority w p) = (h, some p) := by
  cases hh with
  | dns hd =>
      obtain ⟨hne, hc, ho, -⟩ := hd
      simp only [authority, hc, false_and, ↓reduceIte, List.append_assoc, List.cons_append, List.nil_append]
      rw [splitHostPort_plain hne hc ho (colon_not_mem_decimal p), parseUnsigned_decimal hp]
  | bare hb =>
      obtain ⟨hc, ho, hcl⟩ := hb
      have hm : ':' ∈ w := List.count_pos_iff.mp (by omega)
      have hs : ¬ ['['] <+: w := fun ⟨t, ht⟩ => ho (by simp [← ht])
      simp only [authority, hm, hs, not_false_eq_true, and_self, ↓reduceIte]
      have := splitHostPort_bracketed (p := decimal p) hcl
      simpa [parseUnsigned_decimal hp] using this
  | bracketed hb =>
      obtain ⟨-, -, hcl⟩ := hb
      have hs : ['['] <+: '[' :: h ++ [']'] := ⟨h ++ [']'], by simp⟩
      simp only [authority, hs, not_true_eq_false, and_false, ↓reduceIte]
      have := splitHostPort_bracketed (p := decimal p) hcl
      simpa [parseUnsigned_decimal hp] using this

/-! ## Patterns -/

theorem hostMatches_authority {w h g : Str} {p : Nat} (hh : IsHost w h) (hp : p ≤ u16Max) (hg : g ≠ ['*']) :
    hostMatches g (authority w p) = true ↔
      (∀ t, writtenPort g = some t → parseUnsigned 10 u16Max t ≠ none) ∧
        (∀ q, (splitHostPort g).2 = some q → q = p) ∧ HostCovers (splitHostPort g).1 h := by
  simp only [hostMatches, hg, ↓reduceIte, splitHostPort_authority hh hp]
  by_cases h1 : ((writtenPort g).any fun w => (parseUnsigned 10 u16Max w).isNone) = true
  · simp only [h1, ↓reduceIte, Bool.false_eq_true, false_iff, not_and]
    intro h2
    obtain ⟨t, ht, hn⟩ := Option.any_eq_true _ _ |>.mp h1
    exact absurd (Option.isNone_iff_eq_none.mp hn) (h2 t ht)
  · have h1' : ∀ t, writtenPort g = some t → parseUnsigned 10 u16Max t ≠ none := by
      intro t ht hn
      exact h1 (Option.any_eq_true _ _ |>.mpr ⟨t, ht, by simp [hn]⟩)
    simp only [h1, Bool.false_eq_true, ↓reduceIte]
    by_cases h2 : ((splitHostPort g).2.any fun q => decide (some p ≠ some q)) = true
    · simp only [h2, ↓reduceIte, Bool.false_eq_true, false_iff, not_and]
      intro _ h3
      obtain ⟨q, hq, hne⟩ := Option.any_eq_true _ _ |>.mp h2
      simp [h3 q hq] at hne
    · have h2' : ∀ q, (splitHostPort g).2 = some q → q = p := by
        intro q hq
        by_contra hne
        exact h2 (Option.any_eq_true _ _ |>.mpr ⟨q, hq, by simpa using Ne.symm hne⟩)
      simp only [h2, Bool.false_eq_true, ↓reduceIte, hostPartMatches_iff]
      exact ⟨fun h => ⟨h1', h2', h⟩, fun h => h.2.2⟩

/-- The claim a pattern makes about one destination, compared with what `hostMatches` answers. -/
def PatternExact (g w h : Str) (p : Nat) : Prop :=
  hostMatches g (authority w p) = true ↔ PatternCovers g h p

theorem patternExact_bracketed {w h host after : Str} {p : Nat} (hh : IsHost w h) (hp : p ≤ u16Max)
    (hb : ']' ∉ host) :
    PatternExact ('[' :: host ++ ']' :: after) w h p ↔
      ¬ (portTextIgnored ('[' :: host ++ ']' :: after) = true ∧
        HostCovers (patternText ('[' :: host ++ ']' :: after)).host h) := by
  have hg : '[' :: host ++ ']' :: after ≠ ['*'] := by simp
  rw [PatternExact, hostMatches_authority hh hp hg, PatternCovers]
  cases after with
  | nil =>
      simp [writtenPort, splitHostPort, patternText, portTextIgnored, splitOnce_append hb, PortText.Covers]
  | cons c cs =>
      by_cases hc : c = ':'
      · subst hc
        simp only [writtenPort, splitHostPort, patternText, portTextIgnored, List.cons_append,
          stripPrefix_singleton_cons, ↓reduceIte, Option.bind_some, splitOnce_append hb, PortText.Covers]
        cases hq : parseUnsigned 10 u16Max cs with
        | none => simp [hq]
        | some q => simp [hq, and_comm]
      · simp [writtenPort, splitHostPort, patternText, portTextIgnored, splitOnce_append hb, hc, PortText.Covers]

/-- Without a closed bracket, a port is only written by a pattern that does not start with one. -/
theorem writtenPort_plain {g : Str} (hb : (stripPrefix ['['] g).bind (splitOnce ']') = none) :
    writtenPort g =
      if (stripPrefix ['['] g).isSome ∨ g.count ':' > 1 then none
      else ((rsplitOnce ':' g).map Prod.snd).filter (· ≠ []) := by
  cases hs : stripPrefix ['['] g with
  | none => simp [writtenPort, hs]
  | some rest => simp only [hs, Option.bind_some] at hb; simp [writtenPort, hs, hb]

theorem patternExact_host_port {w h host port : Str} {p : Nat} (hh : IsHost w h) (hp : p ≤ u16Max)
    (hb : (stripPrefix ['['] (host ++ ':' :: port)).bind (splitOnce ']') = none)
    (hc : ¬ (host ++ ':' :: port).count ':' > 1) (hport : ':' ∉ port) :
    PatternExact (host ++ ':' :: port) w h p ↔
      ¬ (portTextIgnored (host ++ ':' :: port) = true ∧
        HostCovers (patternText (host ++ ':' :: port)).host h) := by
  have hg : host ++ ':' :: port ≠ ['*'] := by
    intro h; have := congrArg (List.count ':') h; simp at this
  have hr : rsplitOnce ':' (host ++ ':' :: port) = some (host, port) := rsplitOnce_append hport
  have hc' : (host ++ ':' :: port).count ':' ≤ 1 := by omega
  rw [PatternExact, hostMatches_authority hh hp hg, PatternCovers]
  simp only [writtenPort_plain hb, splitHostPort, splitPlainHostPort, patternText, portTextIgnored, hb, hc, hr,
    hc', hg, or_false, false_or, ↓reduceIte, Option.map_some, Option.any_some, decide_true, Bool.true_and,
    PortText.Covers]
  by_cases hne : host = []
  · -- neither parser finds a host here, and no host is empty or starts with a colon
    subst hne
    have h1 : ¬ HostCovers [] h := fun hcov => hcov.left_ne_nil hh.ne_nil rfl
    have h2 : ¬ HostCovers (':' :: port) h := HostCovers.head_ne_colon hport hh.count_colon
    simp [h1, h2]
  · cases hs : (stripPrefix ['['] (host ++ ':' :: port)).isSome with
    | true =>
        -- an unclosed bracket stays in the host part, where no host has one
        have h1 : ¬ HostCovers host h := by
          intro hcov
          obtain ⟨rest, hrest⟩ := Option.isSome_iff_exists.mp hs
          have hst := stripPrefix_eq_some.mp hrest
          cases host with
          | nil => exact hne rfl
          | cons c cs =>
              simp only [List.cons_append, List.nil_append, List.cons.injEq] at hst
              exact hcov.head_ne_bracket hh.no_bracket cs (by rw [hst.1])
        simp [hne, h1]
    | false =>
        cases hpe : port with
        | nil => simp [hne, parseUnsigned]
        | cons c cs =>
            cases hq : parseUnsigned 10 u16Max (c :: cs) with
            | none => simp [hne, hq]
            | some q => simp [hne, hq, and_comm]

theorem patternExact_plain {w h g : Str} {p : Nat} (hh : IsHost w h) (hp : p ≤ u16Max) (hg : g ≠ ['*'])
    (hb : (stripPrefix ['['] g).bind (splitOnce ']') = none) :
    PatternExact g w h p ↔ ¬ (portTextIgnored g = true ∧ HostCovers (patternText g).host h) := by
  by_cases hc : g.count ':' > 1
  · have hc' : ¬ g.count ':' ≤ 1 := by omega
    rw [PatternExact, hostMatches_authority hh hp hg, PatternCovers]
    simp [writtenPort_plain hb, splitHostPort, splitPlainHostPort, patternText, portTextIgnored, hb, hc, hc',
      hg, PortText.Covers]
  · cases hr : rsplitOnce ':' g with
    | none =>
        rw [PatternExact, hostMatches_authority hh hp hg, PatternCovers]
        simp [writtenPort_plain hb, splitHostPort, splitPlainHostPort, patternText, portTextIgnored, hb, hc, hr,
          hg, PortText.Covers]
    | some hostPort =>
        obtain ⟨host, port⟩ := hostPort
        obtain ⟨rfl, hport⟩ := rsplitOnce_eq_some.mp hr
        exact patternExact_host_port hh hp hb hc hport

/-- A pattern is exact about a destination unless it ignores port text and its host part covers the host. -/
theorem patternExact_iff {w h g : Str} {p : Nat} (hh : IsHost w h) (hp : p ≤ u16Max) :
    PatternExact g w h p ↔ ¬ (portTextIgnored g = true ∧ HostCovers (patternText g).host h) := by
  by_cases hg : g = ['*']
  · subst hg
    simp [PatternExact, hostMatches, PatternCovers, portTextIgnored, rsplitOnce, splitOnce]
  · cases hb : (stripPrefix ['['] g).bind (splitOnce ']') with
    | none => exact patternExact_plain hh hp hg hb
    | some hostAfter =>
        obtain ⟨host, after⟩ := hostAfter
        obtain ⟨rest, hrest, hsplit⟩ := Option.bind_eq_some_iff.mp hb
        obtain ⟨rfl, hcl⟩ := splitOnce_eq_some.mp hsplit
        obtain rfl := stripPrefix_eq_some.mp hrest
        exact patternExact_bracketed hh hp hcl

end ThreeVa.Permissions
