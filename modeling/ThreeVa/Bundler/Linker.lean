import ThreeVa.Lib.Entries
import ThreeVa.Lib.Trim
import ThreeVa.Lib.Utf8

/-!
# Linking

`bundle_graph` and `rewrite_bundle_requires` of `bundler/src/lib.rs`: the keys of the modules, the walk over the graph and
the rewriting of `require` calls. Reading a file, turning it into CommonJS and resolving a specifier are given.
-/

namespace ThreeVa.Bundler
open Text

/-! ## Keys -/

/-- An absolute path as the names from the root. -/
abbrev FilePath := List Bytes

def pathBytes (names : List Bytes) : Bytes := [0x2F].intercalate names

/-- `to_string_lossy` of an absolute path. -/
def pathText (path : FilePath) : Str := fromUtf8Lossy (0x2F :: pathBytes path)

/-- The path from the working directory; where that is not known every path is taken whole. -/
def relativeText (cwd : Option FilePath) (path : FilePath) : Option Str :=
  match cwd with
  | some cwd => (stripPrefix cwd path).map fun rel =>
      (fromUtf8Lossy (pathBytes rel)).map fun c => if c = '\\' then '/' else c
  | none => some ((pathText path).map fun c => if c = '\\' then '/' else c)

def newId (cwd : Option FilePath) (next : Nat) (path : FilePath) : Str :=
  match relativeText cwd path with
  | some rel => "./".toList ++ rel
  | none => '#' :: decimal next

/-- `id_of`: a path keeps the key it was first given. -/
def idOf (cwd : Option FilePath) (ids : List (FilePath × Str)) (path : FilePath) : Str × List (FilePath × Str) :=
  match ids.find? (·.1 = path) with
  | some entry => (entry.2, ids)
  | none =>
      let id := newId cwd ids.length path
      (id, ids ++ [(path, id)])

/-! ## Rewriting -/

structure RequireCall where
  blank : Str
  quote : Char
  spec : Str
  rest : Str

def isIdentByte (c : Char) : Bool := c.isAlphanum || c = '_' || c = '$'

def isQuote (c : Char) : Bool := c = '"' || c = '\''

def marker : Str := "require(".toList

/-- The call that the scanner sees at the start of a text, after a character. -/
def requireAt (prev : Option Char) (js : Str) : Option RequireCall :=
  if prev.any isIdentByte then none
  else
    match stripPrefix marker js with
    | none => none
    | some after =>
        match trimStart after with
        | [] => none
        | q :: trimmed =>
            if isQuote q then
              (splitOnce q trimmed).map fun (spec, rest) => ⟨after.takeWhile isWhitespace, q, spec, rest⟩
            else none

def rewriteFrom {σ : Type} (resolve : σ → Str → Str × σ) : Nat → Option Char → Str → σ → Str × σ
  | 0, _, js, s => (js, s)
  | _ + 1, _, [], s => ([], s)
  | fuel + 1, prev, c :: js, s =>
      match requireAt prev (c :: js) with
      | some call =>
          let (resolved, s) := resolve s call.spec
          let (out, s) := rewriteFrom resolve fuel (some call.quote) call.rest s
          (marker ++ call.blank ++ call.quote :: resolved ++ call.quote :: out, s)
      | none =>
          let (out, s) := rewriteFrom resolve fuel (some c) js s
          (c :: out, s)

/-- Every turn of the loop takes a character at least. -/
def rewriteBundleRequires {σ : Type} (js : Str) (resolve : σ → Str → Str × σ) (s : σ) : Str × σ :=
  rewriteFrom resolve js.length none js s

/-! ## The graph -/

structure World where
  cwd : Option FilePath
  isFile : FilePath → Bool
  readToString : FilePath → Option Str
  /-- `bundle_module_body` of a path, its key, its source and its text. -/
  moduleBody : FilePath → Str → Str → Str → Str
  isNodeBuiltin : Str → Bool
  /-- `resolve_esm` of the text of a path and a specifier, in its canonical form where there is one. -/
  resolveEsm : Str → Str → FilePath

/-- What the closures of `bundle_graph` share. -/
structure Links where
  ids : List (FilePath × Str)
  queue : List FilePath
  queued : List FilePath
deriving DecidableEq

structure Build where
  links : Links
  registry : Entries Str Str

namespace World

variable (w : World)

def resolveSpec (base : Str) (l : Links) (spec : Str) : Str × Links :=
  if w.isNodeBuiltin spec then (spec, l)
  else
    let resolved := w.resolveEsm base spec
    let l := if resolved ∈ l.queued then l
      else { l with queue := l.queue ++ [resolved], queued := l.queued ++ [resolved] }
    let (id, ids) := idOf w.cwd l.ids resolved
    (id, { l with ids })

def loadModule (path : FilePath) (b : Build) : Option Build := do
  let source ← w.readToString path
  let base := pathText path
  let (id, ids) := idOf w.cwd b.links.ids path
  let body := w.moduleBody path id source base
  let (rewritten, links) := rewriteBundleRequires body (w.resolveSpec base) { b.links with ids }
  return ⟨links, b.registry.insert id rewritten⟩

/-- The queue is popped at its end. -/
def bundleLoop : Nat → Build → Option Build
  | 0, _ => none
  | fuel + 1, b =>
      match b.links.queue.getLast? with
      | none => some b
      | some path => do
          let b ← w.loadModule path { b with links := { b.links with queue := b.links.queue.dropLast } }
          bundleLoop fuel b

def bundleGraph (fuel : Nat) (entry : FilePath) : Option Build :=
  if w.isFile entry then
    let (_, ids) := idOf w.cwd [] entry
    w.bundleLoop fuel ⟨⟨ids, [entry], [entry]⟩, Entries.empty⟩
  else none

end World

/-! ## Occurrences -/

/-- A call in a text: where its `require` stands, what is between that and the literal, and the literal. -/
structure Site where
  offset : Nat
  gap : Str
  quote : Char
  spec : Str
deriving DecidableEq

inductive Segment
  | char (c : Char)
  | call (blank : Str) (quote : Char) (spec : Str)

def segmentsFrom : Nat → Option Char → Str → List Segment
  | 0, _, js => js.map .char
  | _ + 1, _, [] => []
  | fuel + 1, prev, c :: js =>
      match requireAt prev (c :: js) with
      | some call => .call call.blank call.quote call.spec :: segmentsFrom fuel (some call.quote) call.rest
      | none => .char c :: segmentsFrom fuel (some c) js

def segments (js : Str) : List Segment := segmentsFrom js.length none js

/-- The text of a segment with the specifier replaced. -/
def Segment.text (link : Str → Str) : Segment → Str
  | char c => [c]
  | call blank quote spec => marker ++ blank ++ quote :: link spec ++ [quote]

def sitesFrom : Nat → List Segment → List Site
  | _, [] => []
  | offset, .char _ :: segs => sitesFrom (offset + 1) segs
  | offset, .call blank quote spec :: segs =>
      ⟨offset, '(' :: blank, quote, spec⟩ :: sitesFrom (offset + (Segment.text id (.call blank quote spec)).length) segs

/-- Where the pattern of the scanner occurs in a text, from left to right and never inside an earlier place. -/
def occurrences (js : Str) : List Site := sitesFrom 0 (segments js)

/-- The offset of the first character inside the literal. -/
def Site.inner (site : Site) : Nat := site.offset + ("require".toList.length + site.gap.length + 1)

/-- The text of a literal at each site replaced, in a text that starts at an offset. -/
def applyEdits : Nat → Str → List (Site × Str) → Str
  | _, js, [] => js
  | start, js, (site, new) :: edits =>
      js.take (site.inner - start) ++ new ++
        applyEdits (site.inner + site.spec.length) (js.drop (site.inner - start + site.spec.length)) edits

/-! ## Calls -/

/-- The parts of a JavaScript text. The parts of a template are such parts, and so is a regular expression. -/
inductive Lexeme
  | blank (text : Str)
  | comment (text : Str)
  | word (name : Str)
  | punctuator (text : Str)
  | string (quote : Char) (raw : Str)
  | other (text : Str)
deriving DecidableEq

namespace Lexeme

def text : Lexeme → Str
  | blank text => text
  | comment text => text
  | word name => name
  | punctuator text => text
  | string quote raw => quote :: raw ++ [quote]
  | other text => text

def isTrivia : Lexeme → Bool
  | blank _ => true
  | comment _ => true
  | _ => false

def textOf (ls : List Lexeme) : Str := ls.flatMap text

end Lexeme

/-- The gap and the literal of a call with one literal, after the name of the function. -/
def callAfter (ls : List Lexeme) : Option (Str × Char × Str) :=
  match ls.dropWhile Lexeme.isTrivia with
  | .punctuator opening :: ls' =>
      match ls'.dropWhile Lexeme.isTrivia with
      | .string quote raw :: ls'' =>
          match ls''.dropWhile Lexeme.isTrivia with
          | .punctuator closing :: _ =>
              if opening = "(".toList ∧ closing = ")".toList then
                some (Lexeme.textOf (ls.takeWhile Lexeme.isTrivia) ++ opening ++
                  Lexeme.textOf (ls'.takeWhile Lexeme.isTrivia), quote, raw)
              else none
          | _ => none
      | _ => none
  | _ => none

def isMemberDot : Lexeme → Bool
  | .punctuator text => text = ".".toList || text = "?.".toList
  | _ => false

/-- The calls of `require` with a literal; a property of that name is not called here. -/
def realCallsFrom : Nat → Option Lexeme → List Lexeme → List Site
  | _, _, [] => []
  | offset, prev, l :: ls =>
      (if l = .word "require".toList ∧ ¬ prev.any isMemberDot then
        (callAfter ls).map fun (gap, quote, spec) => Site.mk offset gap quote spec
      else none).toList ++
        realCallsFrom (offset + l.text.length) (if l.isTrivia then prev else some l) ls

def realCalls (ls : List Lexeme) : List Site := realCallsFrom 0 none ls

/-- What a literal without escapes stands for. -/
def literalValue (quote : Char) (raw : Str) : Option Str :=
  if raw.all fun c => c ≠ quote ∧ c ≠ '\n' ∧ c ≠ '\r' ∧ c ≠ '\\' then some raw else none

/-! ## Linked bundles -/

def keyIn (ids : List (FilePath × Str)) (path : FilePath) : Str := ((ids.find? (·.1 = path)).map Prod.snd).getD []

namespace World

variable (w : World)

/-- The text that is written for a specifier, by the keys of a bundle. -/
def linkText (ids : List (FilePath × Str)) (path : FilePath) (spec : Str) : Str :=
  if w.isNodeBuiltin spec then spec else keyIn ids (w.resolveEsm (pathText path) spec)

def body (ids : List (FilePath × Str)) (path : FilePath) : Str :=
  w.moduleBody path (keyIn ids path) ((w.readToString path).getD []) (pathText path)

def edits (ids : List (FilePath × Str)) (path : FilePath) : List (Site × Str) :=
  (occurrences (w.body ids path)).map fun site => (site, w.linkText ids path site.spec)

/-- Files have keys of their own, calls are rewritten to the keys of their files, and nothing else is changed. -/
structure Linked (lex : FilePath → List Lexeme) (b : Build) : Prop where
  keys : ∀ p ∈ b.links.queued, ∀ q ∈ b.links.queued, keyIn b.links.ids p = keyIn b.links.ids q → p = q
  emitted : ∀ p ∈ b.links.queued,
    (keyIn b.links.ids p, applyEdits 0 (w.body b.links.ids p) (w.edits b.links.ids p)) ∈ b.registry.list
  calls : ∀ p ∈ b.links.queued, ∀ c ∈ realCalls (lex p), w.isNodeBuiltin c.spec = false →
    ∃ new, (c, new) ∈ w.edits b.links.ids p ∧
      literalValue c.quote new = some (keyIn b.links.ids (w.resolveEsm (pathText p) c.spec))
  others : ∀ p ∈ b.links.queued, ∀ e ∈ w.edits b.links.ids p,
    e.1 ∉ realCalls (lex p) ∨ w.isNodeBuiltin e.1.spec = true → e.2 = e.1.spec

/--
No two files have one relative text, every call has the pattern of the scanner and a file whose relative text may stand in
its quotes, and every other place with that pattern names a builtin or is the key already.
-/
structure Linkable (lex : FilePath → List Lexeme) (b : Build) : Prop where
  paths : ∀ p ∈ b.links.queued, ∀ q ∈ b.links.queued, ∀ t, relativeText w.cwd p = some t →
    relativeText w.cwd q = some t → p = q
  calls : ∀ p ∈ b.links.queued, ∀ c ∈ realCalls (lex p), w.isNodeBuiltin c.spec = false →
    c ∈ occurrences (Lexeme.textOf (lex p)) ∧ ∀ t, relativeText w.cwd (w.resolveEsm (pathText p) c.spec) = some t →
      c.quote ∉ t ∧ '\n' ∉ t ∧ '\r' ∉ t
  others : ∀ p ∈ b.links.queued, ∀ o ∈ occurrences (Lexeme.textOf (lex p)), o ∉ realCalls (lex p) →
    w.isNodeBuiltin o.spec = true ∨ keyIn b.links.ids (w.resolveEsm (pathText p) o.spec) = o.spec

end World

end ThreeVa.Bundler
