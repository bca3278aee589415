import Mathlib.Data.List.Nodup
import ThreeVa.Bundler.Linker

/-! The segments of a text and the edits at them, the keys of a bundle, and what the walk over the graph keeps. -/

namespace ThreeVa.Bundler
open Text

/-! ## Segments -/

section Segments

variable {σ : Type}

/-- The segments with each specifier resolved in turn. -/
def emit (resolve : σ → Str → Str × σ) : List Segment → σ → Str × σ
  | [], s => ([], s)
  | .char c :: segs, s => (c :: (emit resolve segs s).1, (emit resolve segs s).2)
  | .call blank quote spec :: segs, s =>
      (marker ++ blank ++ quote :: (resolve s spec).1 ++ quote :: (emit resolve segs (resolve s spec).2).1,
        (emit resolve segs (resolve s spec).2).2)

theorem emit_chars (resolve : σ → Str → Str × σ) (js : Str) (s : σ) : emit resolve (js.map .char) s = (js, s) := by
  induction js with
  | nil => rfl
  | cons c js ih => simp [emit, ih]

theorem rewriteFrom_eq_emit (resolve : σ → Str → Str × σ) (fuel : Nat) (prev : Option Char) (js : Str) (s : σ) :
    rewriteFrom resolve fuel prev js s = emit resolve (segmentsFrom fuel prev js) s := by
  induction fuel generalizing prev js s with
  | zero => rw [rewriteFrom, segmentsFrom, emit_chars]
  | succ fuel ih =>
      cases js with
      | nil => rfl
      | cons c js =>
          rw [rewriteFrom, segmentsFrom]
          cases requireAt prev (c :: js) with
          | none => simp only [ih, emit]
          | some call => simp only [ih, emit]

theorem requireAt_eq {prev : Option Char} {js : Str} {call : RequireCall} (h : requireAt prev js = some call) :
    js = marker ++ call.blank ++ call.quote :: call.spec ++ call.quote :: call.rest ∧ isQuote call.quote := by
  unfold requireAt at h
  split at h
  · cases h
  · split at h
    · cases h
    · rename_i after hafter
      split at h
      · cases h
      · rename_i q trimmed htrimmed
        split at h
        · rename_i hquote
          obtain ⟨⟨spec, rest⟩, hsplit, rfl⟩ := Option.map_eq_some_iff.mp h
          obtain ⟨hspec, -⟩ := splitOnce_eq_some.mp hsplit
          have hjs := stripPrefix_eq_some.mp hafter
          have hparts : after = after.takeWhile isWhitespace ++ q :: trimmed := by
            rw [← htrimmed, trimStart, List.takeWhile_append_dropWhile]
          refine ⟨?_, hquote⟩
          rw [hjs]
          nth_rewrite 1 [hparts]
          rw [hspec]
          simp
        · cases h

theorem segmentsFrom_text (fuel : Nat) (prev : Option Char) (js : Str) :
    (segmentsFrom fuel prev js).flatMap (Segment.text id) = js := by
  induction fuel generalizing prev js with
  | zero =>
      rw [segmentsFrom, List.flatMap_map]
      simp [Segment.text]
  | succ fuel ih =>
      cases js with
      | nil => rfl
      | cons c js =>
          rw [segmentsFrom]
          cases hcall : requireAt prev (c :: js) with
          | none => simp [ih, Segment.text]
          | some call =>
              rw [(requireAt_eq hcall).1]
              simp [ih, Segment.text]

/-- Replacing the literals at the sites of segments replaces the specifiers in the segments. -/
theorem applyEdits_segments (link : Str → Str) (segs : List Segment) (start : Nat) (before : Str) :
    applyEdits start (before ++ segs.flatMap (Segment.text id))
        ((sitesFrom (start + before.length) segs).map fun site => (site, link site.spec)) =
      before ++ segs.flatMap (Segment.text link) := by
  induction segs generalizing start before with
  | nil => simp [sitesFrom, applyEdits]
  | cons seg segs ih =>
      cases seg with
      | char c =>
          have hrest := ih start (before ++ [c])
          simp only [List.length_append, List.length_cons, List.length_nil, List.append_assoc, ← Nat.add_assoc] at hrest
          simpa [sitesFrom, Segment.text] using hrest
      | call blank quote spec =>
          have hmarker : marker.length = 8 := rfl
          have hword : "require".toList.length = 7 := rfl
          have hinner : Site.inner ⟨start + before.length, '(' :: blank, quote, spec⟩ =
              start + (before ++ (marker ++ blank ++ [quote])).length := by
            simp only [Site.inner, List.length_append, List.length_cons, List.length_nil, hmarker, hword]
            omega
          have hnext : start + before.length + (Segment.text id (.call blank quote spec)).length =
              start + (before ++ (marker ++ blank ++ [quote])).length + spec.length + [quote].length := by
            simp only [Segment.text, id, List.length_append, List.length_cons, List.length_nil]
            omega
          have hrest := ih (start + (before ++ (marker ++ blank ++ [quote])).length + spec.length) [quote]
          have hjs : before ++ (Segment.call blank quote spec :: segs).flatMap (Segment.text id) =
              (before ++ (marker ++ blank ++ [quote])) ++ (spec ++ ([quote] ++ segs.flatMap (Segment.text id))) := by
            simp [Segment.text]
          rw [sitesFrom, List.map_cons, applyEdits, hinner, hnext, hjs, Nat.add_sub_cancel_left, List.take_left',
            ← List.drop_drop, List.drop_left', List.drop_left', hrest] <;> simp [Segment.text]

theorem call_of_site {site : Site} {segs : List Segment} {offset : Nat} (h : site ∈ sitesFrom offset segs) :
    ∃ blank, .call blank site.quote site.spec ∈ segs := by
  induction segs generalizing offset with
  | nil => cases h
  | cons seg segs ih =>
      cases seg with
      | char c =>
          obtain ⟨blank, hmem⟩ := ih h
          exact ⟨blank, List.mem_cons_of_mem _ hmem⟩
      | call blank quote spec =>
          rcases List.mem_cons.mp h with rfl | h
          · exact ⟨blank, List.mem_cons_self⟩
          · obtain ⟨blank', hmem⟩ := ih h
            exact ⟨blank', List.mem_cons_of_mem _ hmem⟩

theorem isQuote_of_call {fuel : Nat} {prev : Option Char} {js blank spec : Str} {quote : Char}
    (h : .call blank quote spec ∈ segmentsFrom fuel prev js) : isQuote quote := by
  induction fuel generalizing prev js with
  | zero => simp [segmentsFrom] at h
  | succ fuel ih =>
      cases js with
      | nil => cases h
      | cons c js =>
          rw [segmentsFrom] at h
          cases hcall : requireAt prev (c :: js) with
          | none =>
              rw [hcall] at h
              exact ih (by simpa using h)
          | some call =>
              rw [hcall] at h
              rcases List.mem_cons.mp h with heq | h
              · cases heq
                exact (requireAt_eq hcall).2
              · exact ih h

theorem rewriteBundleRequires_eq_edits (js : Str) (link : Str → Str) :
    (segments js).flatMap (Segment.text link) =
      applyEdits 0 js ((occurrences js).map fun site => (site, link site.spec)) := by
  have h := applyEdits_segments link (segments js) 0 []
  rw [segments, segmentsFrom_text] at h
  simpa [occurrences, segments] using h.symm

end Segments

/-! ## Keys -/

section Keys

variable {cwd : Option FilePath} {Q R : List FilePath} {p q : FilePath}

/-- The keys of paths that were seen in an order. -/
def idsFor (cwd : Option FilePath) (n : Nat) (Q : List FilePath) : List (FilePath × Str) :=
  (Q.zipIdx n).map fun x => (x.1, newId cwd x.2 x.1)

def key (cwd : Option FilePath) (Q : List FilePath) (p : FilePath) : Str := newId cwd (Q.idxOf p) p

theorem find_idsFor (h : p ∈ Q) (n : Nat) :
    (idsFor cwd n Q).find? (·.1 = p) = some (p, newId cwd (n + Q.idxOf p) p) := by
  induction Q generalizing n with
  | nil => cases h
  | cons q Q ih =>
      rw [idsFor, List.zipIdx_cons, List.map_cons, List.find?_cons]
      by_cases heq : q = p
      · simp [heq]
      · have hmem : p ∈ Q := by
          rcases List.mem_cons.mp h with rfl | h
          · exact absurd rfl heq
          · exact h
        simp only [heq, decide_false]
        rw [List.idxOf_cons_ne _ heq, show n + (List.idxOf p Q).succ = n + 1 + List.idxOf p Q by omega]
        exact ih hmem (n + 1)

theorem find_idsFor_none (h : p ∉ Q) (n : Nat) : (idsFor cwd n Q).find? (·.1 = p) = none := by
  rw [List.find?_eq_none]
  intro x hx heq
  obtain ⟨⟨q, i⟩, hq, rfl⟩ := List.mem_map.mp hx
  have hmem : q ∈ Q := (List.mem_zipIdx hq).2.2 ▸ List.getElem_mem _
  rw [show q = p from by simpa using heq] at hmem
  exact h hmem

theorem keyIn_idsFor (h : p ∈ Q) : keyIn (idsFor cwd 0 Q) p = key cwd Q p := by
  rw [keyIn, find_idsFor h]
  simp [key]

theorem key_append (h : p ∈ Q) (R : List FilePath) : key cwd (Q ++ R) p = key cwd Q p := by
  rw [key, key, List.idxOf_append_of_mem h]

theorem idOf_of_mem (h : p ∈ Q) : idOf cwd (idsFor cwd 0 Q) p = (key cwd Q p, idsFor cwd 0 Q) := by
  rw [idOf, find_idsFor h]
  simp [key]

theorem idOf_of_not_mem (h : p ∉ Q) :
    idOf cwd (idsFor cwd 0 Q) p = (key cwd (Q ++ [p]) p, idsFor cwd 0 (Q ++ [p])) := by
  rw [idOf, find_idsFor_none h]
  simp [key, idsFor, List.zipIdx_append, List.idxOf_append_of_notMem h]

theorem key_of_inside {t : Str} (h : relativeText cwd p = some t) : key cwd Q p = "./".toList ++ t := by
  rw [key, newId, h]

theorem key_of_outside (h : relativeText cwd p = none) : key cwd Q p = '#' :: decimal (Q.idxOf p) := by
  rw [key, newId, h]

theorem decimal_injective {m n : Nat} (h : decimal m = decimal n) : m = n := by
  have hm := parseUnsigned_decimal (le_max_left m n)
  rw [h, parseUnsigned_decimal (le_max_right m n), Option.some.injEq] at hm
  exact hm.symm

/-- Two paths have one key only where they have one relative text. -/
theorem key_injective_iff :
    (∀ p ∈ Q, ∀ q ∈ Q, key cwd Q p = key cwd Q q → p = q) ↔
      ∀ p ∈ Q, ∀ q ∈ Q, ∀ t, relativeText cwd p = some t → relativeText cwd q = some t → p = q := by
  constructor
  · intro h p hp q hq t hpt hqt
    exact h p hp q hq (by rw [key_of_inside hpt, key_of_inside hqt])
  · intro h p hp q hq heq
    cases hpt : relativeText cwd p with
    | some t =>
        rw [key_of_inside hpt] at heq
        cases hqt : relativeText cwd q with
        | some u =>
            rw [key_of_inside hqt] at heq
            exact h p hp q hq t hpt (by rw [hqt, List.append_cancel_left heq])
        | none =>
            rw [key_of_outside hqt] at heq
            simp at heq
    | none =>
        rw [key_of_outside hpt] at heq
        cases hqt : relativeText cwd q with
        | some u =>
            rw [key_of_inside hqt] at heq
            simp at heq
        | none =>
            rw [key_of_outside hqt, List.cons.injEq] at heq
            exact (List.idxOf_inj hp).mp (decimal_injective heq.2)

theorem relativeText_no_backslash {t : Str} (h : relativeText cwd p = some t) : '\\' ∉ t := by
  have hmap : ∀ s : Str, '\\' ∉ s.map fun c => if c = '\\' then '/' else c := by
    intro s hmem
    obtain ⟨c, -, hc⟩ := List.mem_map.mp hmem
    split at hc
    · exact absurd hc (by decide)
    · rename_i hne
      exact hne hc
  unfold relativeText at h
  split at h
  · obtain ⟨rel, -, rfl⟩ := Option.map_eq_some_iff.mp h
    exact hmap _
  · cases h
    exact hmap _

theorem literalValue_eq_self {quote : Char} {raw : Str} :
    literalValue quote raw = some raw ↔ quote ∉ raw ∧ '\n' ∉ raw ∧ '\r' ∉ raw ∧ '\\' ∉ raw := by
  have hall : (raw.all fun c => c ≠ quote ∧ c ≠ '\n' ∧ c ≠ '\r' ∧ c ≠ '\\') = true ↔
      quote ∉ raw ∧ '\n' ∉ raw ∧ '\r' ∉ raw ∧ '\\' ∉ raw := by
    simp only [List.all_eq_true, decide_eq_true_eq]
    constructor
    · intro h
      exact ⟨fun hq => (h _ hq).1 rfl, fun hn => (h _ hn).2.1 rfl, fun hr => (h _ hr).2.2.1 rfl,
        fun hb => (h _ hb).2.2.2 rfl⟩
    · rintro ⟨hq, hn, hr, hb⟩ c hc
      refine ⟨?_, ?_, ?_, ?_⟩ <;> rintro rfl <;> contradiction
  rw [← hall]
  unfold literalValue
  split <;> simp_all

theorem plain_of_outside {quote : Char} (hquote : isQuote quote) (n : Nat) :
    quote ∉ '#' :: decimal n ∧ '\n' ∉ '#' :: decimal n ∧ '\r' ∉ '#' :: decimal n ∧ '\\' ∉ '#' :: decimal n := by
  have hdigit : ∀ c : Char, c ≠ '#' → c.isDigit = false → c ∉ '#' :: decimal n := by
    intro c hne hnot hmem
    rcases List.mem_cons.mp hmem with h | h
    · exact hne h
    · rw [decimal_isDigit h] at hnot
      cases hnot
  refine ⟨?_, hdigit _ (by decide) (by decide), hdigit _ (by decide) (by decide), hdigit _ (by decide) (by decide)⟩
  simp only [isQuote, Bool.or_eq_true, decide_eq_true_eq] at hquote
  rcases hquote with rfl | rfl
  · exact hdigit _ (by decide) (by decide)
  · exact hdigit _ (by decide) (by decide)

/-- A key stands for itself in quotes exactly where its relative text has neither the quote nor a line break. -/
theorem literalValue_key_iff {quote : Char} (hquote : isQuote quote) :
    literalValue quote (key cwd Q p) = some (key cwd Q p) ↔
      ∀ t, relativeText cwd p = some t → quote ∉ t ∧ '\n' ∉ t ∧ '\r' ∉ t := by
  rw [literalValue_eq_self]
  cases hp : relativeText cwd p with
  | none =>
      rw [key_of_outside hp]
      exact iff_of_true (plain_of_outside hquote _) (by simp)
  | some t =>
      rw [key_of_inside hp]
      have hback := relativeText_no_backslash hp
      simp only [isQuote, Bool.or_eq_true, decide_eq_true_eq] at hquote
      rcases hquote with rfl | rfl <;> simp [hback]

end Keys

/-! ## Resolving -/

section Resolving

variable {w : World} {Q : List FilePath} (base : Str)

/-- The text for a specifier, by the order in which the paths were seen. -/
def World.linkKey (w : World) (Q : List FilePath) (base spec : Str) : Str :=
  if w.isNodeBuiltin spec then spec else key w.cwd Q (w.resolveEsm base spec)

/-- The paths that the calls among segments resolve to were seen. -/
def World.Seen (w : World) (Q : List FilePath) (base : Str) (segs : List Segment) : Prop :=
  ∀ blank quote spec, .call blank quote spec ∈ segs → w.isNodeBuiltin spec = false → w.resolveEsm base spec ∈ Q

def linksAt (cwd : Option FilePath) (queue Q : List FilePath) : Links := ⟨idsFor cwd 0 Q, queue, Q⟩

theorem linkKey_append {segs : List Segment} (h : w.Seen Q base segs) (R : List FilePath) :
    segs.flatMap (Segment.text (w.linkKey (Q ++ R) base)) = segs.flatMap (Segment.text (w.linkKey Q base)) := by
  refine List.flatMap_congr fun seg hseg => ?_
  cases seg with
  | char c => rfl
  | call blank quote spec =>
      have hlink : w.linkKey (Q ++ R) base spec = w.linkKey Q base spec := by
        unfold World.linkKey
        cases hb : w.isNodeBuiltin spec with
        | true => rfl
        | false => simp [key_append (h blank quote spec hseg hb)]
      simp [Segment.text, hlink]

theorem resolveSpec_spec (hnodup : Q.Nodup) (queue : List FilePath) (spec : Str) :
    ∃ R, w.resolveSpec base (linksAt w.cwd queue Q) spec =
        (w.linkKey (Q ++ R) base spec, linksAt w.cwd (queue ++ R) (Q ++ R)) ∧ (Q ++ R).Nodup ∧
      (w.isNodeBuiltin spec = false → w.resolveEsm base spec ∈ Q ++ R) := by
  unfold World.resolveSpec World.linkKey
  cases hb : w.isNodeBuiltin spec with
  | true => exact ⟨[], by simp, by simpa using hnodup, by simp⟩
  | false =>
      by_cases hin : w.resolveEsm base spec ∈ Q
      · refine ⟨[], ?_, by simpa using hnodup, fun _ => by simpa using hin⟩
        simp [linksAt, hin, idOf_of_mem hin]
      · refine ⟨[w.resolveEsm base spec], ?_, ?_, by simp⟩
        · simp [linksAt, hin, idOf_of_not_mem hin]
        · simpa [List.nodup_append] using ⟨hnodup, fun a ha heq => hin (heq ▸ ha)⟩

theorem emit_spec (hnodup : Q.Nodup) (queue : List FilePath) (segs : List Segment) :
    ∃ R, emit (w.resolveSpec base) segs (linksAt w.cwd queue Q) =
        (segs.flatMap (Segment.text (w.linkKey (Q ++ R) base)), linksAt w.cwd (queue ++ R) (Q ++ R)) ∧ (Q ++ R).Nodup ∧
      w.Seen (Q ++ R) base segs := by
  induction segs generalizing Q queue with
  | nil => exact ⟨[], by simp [emit], by simpa using hnodup, by simp [World.Seen]⟩
  | cons seg segs ih =>
      cases seg with
      | char c =>
          obtain ⟨R, hemit, hnodup', hseen⟩ := ih hnodup queue
          refine ⟨R, by simp [emit, hemit, Segment.text], hnodup', ?_⟩
          intro blank quote spec hmem hb
          exact hseen blank quote spec (by simpa using hmem) hb
      | call blank quote spec =>
          obtain ⟨R₁, hresolve, hnodup₁, htarget⟩ := resolveSpec_spec (w := w) base hnodup queue spec
          obtain ⟨R₂, hemit, hnodup₂, hseen⟩ := ih hnodup₁ (queue ++ R₁)
          rw [List.append_assoc, List.append_assoc] at hemit
          rw [List.append_assoc] at hnodup₂ hseen
          have hlink : w.linkKey (Q ++ R₁) base spec = w.linkKey (Q ++ (R₁ ++ R₂)) base spec := by
            unfold World.linkKey
            cases hb : w.isNodeBuiltin spec with
            | true => rfl
            | false => simp [← List.append_assoc, key_append (htarget hb)]
          refine ⟨R₁ ++ R₂, ?_, hnodup₂, ?_⟩
          · simp [emit, hresolve, hemit, hlink, Segment.text]
          · intro blank' quote' spec' hmem hb
            rcases List.mem_cons.mp hmem with heq | hmem
            · cases heq
              rw [← List.append_assoc]
              exact List.mem_append_left _ (htarget hb)
            · exact hseen blank' quote' spec' hmem hb

end Resolving

/-! ## The walk -/

section Walk

variable {w : World} {Q : List FilePath} {p : FilePath}

def World.bodyAt (w : World) (Q : List FilePath) (p : FilePath) : Str :=
  w.moduleBody p (key w.cwd Q p) ((w.readToString p).getD []) (pathText p)

def World.codeAt (w : World) (Q : List FilePath) (p : FilePath) : Str :=
  (segments (w.bodyAt Q p)).flatMap (Segment.text (w.linkKey Q (pathText p)))

def World.SeenFrom (w : World) (Q : List FilePath) (p : FilePath) : Prop :=
  w.Seen Q (pathText p) (segments (w.bodyAt Q p))

theorem bodyAt_append (h : p ∈ Q) (R : List FilePath) : w.bodyAt (Q ++ R) p = w.bodyAt Q p := by
  rw [World.bodyAt, World.bodyAt, key_append h]

theorem codeAt_append (h : p ∈ Q) (hseen : w.SeenFrom Q p) (R : List FilePath) :
    w.codeAt (Q ++ R) p = w.codeAt Q p := by
  rw [World.codeAt, World.codeAt, bodyAt_append h, linkKey_append _ hseen]

theorem SeenFrom.append (h : p ∈ Q) (hseen : w.SeenFrom Q p) (R : List FilePath) : w.SeenFrom (Q ++ R) p := by
  intro blank quote spec hmem hb
  rw [bodyAt_append h] at hmem
  exact List.mem_append_left _ (hseen blank quote spec hmem hb)

/-- The paths that were loaded have their code in the registry, and what they resolve to was seen. -/
structure BuildOk (w : World) (b : Build) (loaded : List FilePath) : Prop where
  links : b.links = linksAt w.cwd b.links.queue b.links.queued
  nodup : b.links.queued.Nodup
  members : ∀ p, p ∈ b.links.queued ↔ p ∈ loaded ∨ p ∈ b.links.queue
  seen : ∀ p ∈ loaded, w.SeenFrom b.links.queued p
  entries : ∀ e ∈ b.registry.list, ∃ p ∈ loaded, e = (key w.cwd b.links.queued p, w.codeAt b.links.queued p)
  covered : ∀ p ∈ loaded, key w.cwd b.links.queued p ∈ b.registry.list.map Prod.fst

theorem BuildOk.step {b b' : Build} {loaded : List FilePath} (h : BuildOk w b loaded)
    (hlast : b.links.queue.getLast? = some p)
    (hload : w.loadModule p { b with links := { b.links with queue := b.links.queue.dropLast } } = some b') :
    BuildOk w b' (p :: loaded) := by
  have hqueue : b.links.queue = b.links.queue.dropLast ++ [p] := by
    have hne : b.links.queue ≠ [] := by
      intro hnil
      rw [hnil] at hlast
      cases hlast
    have heq := List.dropLast_append_getLast hne
    rw [List.getLast?_eq_some_getLast hne, Option.some.injEq] at hlast
    rw [hlast] at heq
    exact heq.symm
  have hp : p ∈ b.links.queued := (h.members p).mpr (Or.inr (by rw [hqueue]; simp))
  have hids : b.links.ids = idsFor w.cwd 0 b.links.queued := congrArg Links.ids h.links
  simp only [World.loadModule, hids, idOf_of_mem hp, Option.bind_eq_bind, Option.bind_eq_some_iff, Option.pure_def,
    Option.some.injEq] at hload
  obtain ⟨source, hsource, rfl⟩ := hload
  have hbody : w.moduleBody p (key w.cwd b.links.queued p) source (pathText p) = w.bodyAt b.links.queued p := by
    rw [World.bodyAt, hsource]
    rfl
  obtain ⟨R, hemit, hnodup, hseen⟩ := emit_spec (w := w) (pathText p) h.nodup b.links.queue.dropLast
    (segments (w.bodyAt b.links.queued p))
  have hrewrite : rewriteBundleRequires (w.bodyAt b.links.queued p) (w.resolveSpec (pathText p))
      ⟨idsFor w.cwd 0 b.links.queued, b.links.queue.dropLast, b.links.queued⟩ =
        (w.codeAt (b.links.queued ++ R) p, linksAt w.cwd (b.links.queue.dropLast ++ R) (b.links.queued ++ R)) := by
    rw [rewriteBundleRequires, rewriteFrom_eq_emit, World.codeAt, bodyAt_append hp]
    exact hemit
  have hloaded : ∀ q ∈ loaded, q ∈ b.links.queued := fun q hq => (h.members q).mpr (Or.inl hq)
  rw [hbody, hrewrite]
  refine ⟨rfl, hnodup, fun q => ?_, fun q hq => ?_, fun e he => ?_, fun q hq => ?_⟩
  · change q ∈ b.links.queued ++ R ↔ q ∈ p :: loaded ∨ q ∈ b.links.queue.dropLast ++ R
    have hq := h.members q
    rw [hqueue] at hq
    simp only [List.mem_append, List.mem_cons, List.not_mem_nil, or_false] at hq ⊢
    tauto
  · rcases List.mem_cons.mp hq with rfl | hq
    · intro blank quote spec hmem hb
      have hmem' : Segment.call blank quote spec ∈ segments (w.bodyAt (b.links.queued ++ R) q) := hmem
      rw [bodyAt_append hp] at hmem'
      exact hseen blank quote spec hmem' hb
    · exact SeenFrom.append (hloaded q hq) (h.seen q hq) R
  · rcases List.mem_append.mp he with he | he
    · obtain ⟨q, hq, rfl⟩ := h.entries e (List.mem_filter.mp he).1
      refine ⟨q, List.mem_cons_of_mem _ hq, ?_⟩
      change _ = (key w.cwd (b.links.queued ++ R) q, w.codeAt (b.links.queued ++ R) q)
      rw [key_append (hloaded q hq), codeAt_append (hloaded q hq) (h.seen q hq)]
    · refine ⟨p, List.mem_cons_self, ?_⟩
      rw [List.mem_singleton.mp he]
      change _ = (key w.cwd (b.links.queued ++ R) p, _)
      rw [key_append hp]
      rfl
  · change key w.cwd (b.links.queued ++ R) q ∈ _
    rw [Entries.mem_keys_insert]
    rcases List.mem_cons.mp hq with rfl | hq
    · exact Or.inr (key_append hp R)
    · rw [key_append (hloaded q hq)]
      exact Or.inl (h.covered q hq)

theorem buildOk_of_bundleLoop {fuel : Nat} {b b' : Build} {loaded : List FilePath} (h : BuildOk w b loaded)
    (hloop : w.bundleLoop fuel b = some b') :
    b'.links.queue = [] ∧ ∃ loaded', BuildOk w b' loaded' := by
  induction fuel generalizing b loaded with
  | zero => cases hloop
  | succ fuel ih =>
      rw [World.bundleLoop] at hloop
      split at hloop
      · rename_i hnone
        cases hloop
        exact ⟨List.getLast?_eq_none_iff.mp hnone, loaded, h⟩
      · rename_i p hlast
        rw [Option.bind_eq_bind, Option.bind_eq_some_iff] at hloop
        obtain ⟨b₁, hload, hloop⟩ := hloop
        exact ih (h.step hlast hload) hloop

/-- A bundle that was built holds, under the key of each of its paths, code of a path with that key. -/
theorem bundleGraph_spec {fuel : Nat} {entry : FilePath} {b : Build} (h : w.bundleGraph fuel entry = some b) :
    b.links.ids = idsFor w.cwd 0 b.links.queued ∧ (∀ p ∈ b.links.queued, w.SeenFrom b.links.queued p) ∧
      ∀ p ∈ b.links.queued, ∃ q ∈ b.links.queued, key w.cwd b.links.queued q = key w.cwd b.links.queued p ∧
        (key w.cwd b.links.queued q, w.codeAt b.links.queued q) ∈ b.registry.list := by
  unfold World.bundleGraph at h
  split at h
  · have hentry : idOf w.cwd [] entry = (key w.cwd [entry] entry, idsFor w.cwd 0 [entry]) :=
      idOf_of_not_mem List.not_mem_nil
    simp only [hentry] at h
    have hstart : BuildOk w ⟨⟨idsFor w.cwd 0 [entry], [entry], [entry]⟩, Entries.empty⟩ [] :=
      ⟨rfl, List.nodup_singleton _, by simp, by simp, by simp [Entries.empty], by simp⟩
    obtain ⟨hqueue, loaded, hok⟩ := buildOk_of_bundleLoop hstart h
    have hloaded : ∀ p ∈ b.links.queued, p ∈ loaded := fun p hp => by simpa [hqueue] using (hok.members p).mp hp
    refine ⟨congrArg Links.ids hok.links, fun p hp => hok.seen p (hloaded p hp), fun p hp => ?_⟩
    obtain ⟨e, he, hkey⟩ := List.mem_map.mp (hok.covered p (hloaded p hp))
    obtain ⟨q, hq, rfl⟩ := hok.entries e he
    exact ⟨q, (hok.members q).mpr (Or.inl hq), hkey, he⟩
  · cases h

/-- What a site of a module resolves to has a key. -/
theorem linkText_eq (hseen : w.SeenFrom Q p) {site : Site} (hsite : site ∈ occurrences (w.bodyAt Q p)) :
    w.linkText (idsFor w.cwd 0 Q) p site.spec = w.linkKey Q (pathText p) site.spec := by
  unfold World.linkText World.linkKey
  cases hb : w.isNodeBuiltin site.spec with
  | true => rfl
  | false =>
      obtain ⟨blank, hcall⟩ := call_of_site hsite
      simp [keyIn_idsFor (hseen _ _ _ hcall hb)]

theorem body_eq (hp : p ∈ Q) : w.body (idsFor w.cwd 0 Q) p = w.bodyAt Q p := by
  rw [World.body, World.bodyAt, keyIn_idsFor hp]

/-- The code of a module is its body with the edits made to it. -/
theorem codeAt_eq_edits (hp : p ∈ Q) (hseen : w.SeenFrom Q p) :
    w.codeAt Q p = applyEdits 0 (w.body (idsFor w.cwd 0 Q) p) (w.edits (idsFor w.cwd 0 Q) p) := by
  rw [World.codeAt, rewriteBundleRequires_eq_edits, World.edits, body_eq hp]
  congr 1
  refine List.map_congr_left fun site hsite => ?_
  rw [linkText_eq hseen hsite]

end Walk

end ThreeVa.Bundler
