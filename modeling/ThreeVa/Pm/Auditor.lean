import Mathlib.Logic.Function.Basic
import ThreeVa.Lib.Entries
import ThreeVa.Lib.Runs
import ThreeVa.Lib.Text

/-!
# Auditor

`pm/src/auditor.rs`: the audit of the installed packages against OSV, with a cache on disk. What the severity of a
record is read from (CVSS vectors and labels) is a type `ρ`. OSV, the clock and the disk answer as they like. A cached
record is read back as it was written.
-/

namespace ThreeVa.Pm.Auditor
open Text

/-! ## Records -/

/-- A name and a version. -/
abbrev Pair := Str × Str

abbrev Event := Entries Str Str

structure RawVuln (ρ : Type) where
  id : Str
  summary : Option Str
  /-- The events of each range of each affected package. -/
  affected : List (List (List Event))
  /-- A type and an address each. -/
  references : List (Str × Str)
  rating : ρ

inductive VulnSeverity
  | unknown
  | low
  | medium
  | high
  | critical
deriving DecidableEq

structure Vulnerability where
  id : Str
  summary : Str
  severity : VulnSeverity
  fixedVersions : List Str
  detailsUrl : Str

structure VulnFinding where
  pkgName : Str
  pkgVersion : Str
  vulns : List Vulnerability

structure AuditReport where
  findings : List VulnFinding
  totalPackages : Nat
  packagesWithVulns : Nat
  totalVulns : Nat
  criticalCount : Nat
  highCount : Nat
  cacheHits : Nat
  networkErrors : List Str

variable {ρ : Type}

def addFixed (fixed : List Str) (event : Event) : List Str :=
  match event.get? "fixed".toList with
  | some ver => if ver.isEmpty || fixed.contains ver then fixed else fixed ++ [ver]
  | none => fixed

def extractFixedVersions (raw : RawVuln ρ) : List Str := raw.affected.flatten.flatten.foldl addFixed []

def bestUrl (raw : RawVuln ρ) : Str :=
  let preferred (type : String) := raw.references.find? fun r => r.1 = type.toList
  match preferred "ADVISORY" <|> preferred "WEB" with
  | some r => r.2
  | none => "https://osv.dev/vulnerability/".toList ++ raw.id

def convert (parseSeverity : ρ → VulnSeverity) (raw : RawVuln ρ) : Vulnerability where
  id := raw.id
  summary := raw.summary.getD "No summary available".toList
  severity := parseSeverity raw.rating
  fixedVersions := extractFixedVersions raw
  detailsUrl := bestUrl raw

/-! ## Cache -/

structure CacheEntry (ρ : Type) where
  fetchedAtUnix : Nat
  vulns : List (RawVuln ρ)

/-- The entries that can be read, by the names of their files. -/
abbrev Cache (ρ : Type) := Str → Option (CacheEntry ρ)

def cacheTtlSecs : Nat := 86400

def batchChunkSize : Nat := 100

/-- The name without the at signs before it, with two underscores for a slash. -/
def safeName (name : Str) : Str := (name.dropWhile (· = '@')).flatMap fun c => if c = '/' then "__".toList else [c]

def cacheFilename (p : Pair) : Str := safeName p.1 ++ '@' :: (p.2 ++ ".json".toList)

def readCache (cache : Cache ρ) (p : Pair) (force : Bool) (now : Nat) : Option (List (RawVuln ρ)) :=
  if force then none
  else
    match cache (cacheFilename p) with
    | some entry => if now - entry.fetchedAtUnix ≤ cacheTtlSecs then some entry.vulns else none
    | none => none

def readStaleCache (cache : Cache ρ) (p : Pair) : List (RawVuln ρ) :=
  match cache (cacheFilename p) with
  | some entry => entry.vulns
  | none => []

/-- What comes of a write: a file that is left torn cannot be read. -/
inductive Fate
  | stored
  | failed
  | torn

def writeCache (cache : Cache ρ) (p : Pair) (vulns : List (RawVuln ρ)) (now : Nat) : Fate → Cache ρ
  | .stored => Function.update cache (cacheFilename p) (some ⟨now, vulns⟩)
  | .failed => cache
  | .torn => Function.update cache (cacheFilename p) none

/-! ## Batches -/

structure Response (ρ : Type) where
  status : Nat
  /-- How the status is displayed. -/
  shown : Str
  results : Except Str (List (List (RawVuln ρ)))

/-- What two requests get, the clock at each write and what comes of it. -/
structure Batch (ρ : Type) where
  first : Except Str (Response ρ)
  second : Except Str (Response ρ)
  clock : Nat → Nat
  fate : Nat → Fate

/-- One more request after too many of them. -/
def queryOsvBatch (b : Batch ρ) : Except Str (List (List (RawVuln ρ))) := do
  let resp ← b.first
  let resp ← if resp.status = 429 then b.second else .ok resp
  if 200 ≤ resp.status ∧ resp.status < 300 then resp.results else .error ("OSV API returned HTTP ".toList ++ resp.shown)

def chunksUpTo {α : Type} (size : Nat) : Nat → List α → List (List α)
  | 0, _ => []
  | _ + 1, [] => []
  | fuel + 1, l => l.take size :: chunksUpTo size fuel (l.drop size)

def chunks {α : Type} (size : Nat) (l : List α) : List (List α) := chunksUpTo size l.length l

/-! ## The audit -/

/-- The installed packages, and what surrounds an audit: the clock at each reading of the cache, the batches in turn. -/
structure Audit (ρ : Type) where
  force : Bool
  installed : List Pair
  readAt : Nat → Nat
  batches : Nat → Batch ρ

/-- What the cache has and what it lacks. -/
structure Looked (ρ : Type) where
  cacheHits : Nat
  rawResults : Entries Pair (List (RawVuln ρ))
  toFetch : List Pair

def lookUp (cache : Cache ρ) (force : Bool) (readAt : Nat → Nat) : Nat → List Pair → Looked ρ → Looked ρ
  | _, [], l => l
  | i, p :: ps, l =>
      lookUp cache force readAt (i + 1) ps
        (match readCache cache p force (readAt i) with
          | some cached => { l with cacheHits := l.cacheHits + 1, rawResults := l.rawResults.insert p cached }
          | none => { l with toFetch := l.toFetch ++ [p] })

structure Progress (ρ : Type) where
  cache : Cache ρ
  rawResults : Entries Pair (List (RawVuln ρ))
  networkErrors : List Str

/-- The answers of a batch from the `i`-th on; an answer without a query is a panic. -/
def storeAnswers (b : Batch ρ) (chunk : List Pair) : Nat → List (List (RawVuln ρ)) → Progress ρ → Option (Progress ρ)
  | _, [], s => some s
  | i, vulns :: rest, s =>
      match chunk[i]? with
      | none => none
      | some p =>
          storeAnswers b chunk (i + 1) rest
            { s with
              cache := writeCache s.cache p vulns (b.clock i) (b.fate i)
              rawResults := s.rawResults.insert p vulns }

def fallBack (cache : Cache ρ) : List Pair → Entries Pair (List (RawVuln ρ)) → Entries Pair (List (RawVuln ρ))
  | [], raw => raw
  | p :: ps, raw => fallBack cache ps (raw.insert p (readStaleCache cache p))

def fetchChunk (b : Batch ρ) (chunk : List Pair) (s : Progress ρ) : Option (Progress ρ) :=
  match queryOsvBatch b with
  | .ok results => storeAnswers b chunk 0 results s
  | .error msg =>
      some { s with rawResults := fallBack s.cache chunk s.rawResults, networkErrors := s.networkErrors ++ [msg] }

def fetchAll (batches : Nat → Batch ρ) : Nat → List (List Pair) → Progress ρ → Option (Progress ρ)
  | _, [], s => some s
  | i, chunk :: rest, s => (fetchChunk (batches i) chunk s).bind (fetchAll batches (i + 1) rest)

def finding (parseSeverity : ρ → VulnSeverity) (p : Pair) (raw : List (RawVuln ρ)) : Option VulnFinding :=
  if raw.isEmpty then none else some ⟨p.1, p.2, raw.map (convert parseSeverity)⟩

def report (parseSeverity : ρ → VulnSeverity) (packages : List Pair) (cacheHits : Nat) (s : Progress ρ) : AuditReport :=
  let findings := packages.filterMap fun p => (s.rawResults.get? p).bind (finding parseSeverity p)
  let vulns := findings.flatMap VulnFinding.vulns
  { findings
    totalPackages := packages.length
    packagesWithVulns := findings.length
    totalVulns := vulns.length
    criticalCount := vulns.countP fun v => v.severity = .critical
    highCount := vulns.countP fun v => v.severity = .high
    cacheHits
    networkErrors := s.networkErrors }

namespace Audit

def packages (a : Audit ρ) : List Pair := a.installed.filter fun p => p.2 ≠ "unknown".toList

def looked (a : Audit ρ) (cache : Cache ρ) : Looked ρ := lookUp cache a.force a.readAt 0 a.packages ⟨0, .empty, []⟩

/-- The queries of each batch. -/
def queries (a : Audit ρ) (cache : Cache ρ) : List (List Pair) := chunks batchChunkSize (a.looked cache).toFetch

end Audit

/-- The cache that an audit leaves and its report; a panic is `none`. -/
def runAuditIn (parseSeverity : ρ → VulnSeverity) (cache : Cache ρ) (a : Audit ρ) : Option (Cache ρ × AuditReport) :=
  if a.packages.isEmpty then some (cache, ⟨[], 0, 0, 0, 0, 0, 0, []⟩)
  else
    (fetchAll a.batches 0 (a.queries cache) ⟨cache, (a.looked cache).rawResults, []⟩).map fun s =>
      (s.cache, report parseSeverity a.packages (a.looked cache).cacheHits s)

/-! ## Histories -/

/-- What OSV has answered for a package, and when it was stored. -/
structure Answer (ρ : Type) where
  pair : Pair
  vulns : List (RawVuln ρ)
  time : Nat

/-- The answers of a batch, matched to the queries by position. -/
def Batch.answers (b : Batch ρ) (chunk : List Pair) : List (Answer ρ) :=
  match queryOsvBatch b with
  | .ok results => (chunk.zip results).zipIdx.map fun x => ⟨x.1.1, x.1.2, b.clock x.2⟩
  | .error _ => []

def answersFrom (batches : Nat → Batch ρ) : Nat → List (List Pair) → List (Answer ρ)
  | _, [] => []
  | i, chunk :: rest => (batches i).answers chunk ++ answersFrom batches (i + 1) rest

def Audit.answers (a : Audit ρ) (cache : Cache ρ) : List (Answer ρ) := answersFrom a.batches 0 (a.queries cache)

/-- The cache on disk, with all answers and all packages of the audits before. -/
structure State (ρ : Type) where
  cache : Cache ρ
  log : List (Answer ρ)
  audited : List Pair

namespace State

def start : State ρ := ⟨fun _ => none, [], []⟩

def step (parseSeverity : ρ → VulnSeverity) (s : State ρ) (a : Audit ρ) : Option (State ρ) :=
  (runAuditIn parseSeverity s.cache a).map fun (cache, _) =>
    ⟨cache, s.log ++ a.answers s.cache, s.audited ++ a.packages⟩

/-! ## Promises -/

/-- Why a list of records stands for a package in a report. -/
inductive Justified (s : State ρ) (a : Audit ρ) (report : AuditReport) (p : Pair) (vulns : List (RawVuln ρ)) : Prop
  /-- OSV answers so now. -/
  | answered (time : Nat) (h : ⟨p, vulns, time⟩ ∈ a.answers s.cache)
  /-- OSV has answered so for that very package within the last day. -/
  | cached (i time : Nat) (hforce : a.force = false) (hp : a.packages[i]? = some p) (h : ⟨p, vulns, time⟩ ∈ s.log)
      (hfresh : a.readAt i - time ≤ cacheTtlSecs)
  /-- The batch has failed, which the report says, and OSV has answered so at any time or not at all. -/
  | stale (i : Nat) (chunk : List Pair) (msg : Str) (hchunk : (a.queries s.cache)[i]? = some chunk) (hp : p ∈ chunk)
      (hfails : queryOsvBatch (a.batches i) = .error msg) (hreport : report.networkErrors ≠ [])
      (h : vulns = [] ∨ ∃ time, ⟨p, vulns, time⟩ ∈ s.log ++ a.answers s.cache)
  /-- There is no answer now, and the report tells of a failure. -/
  | missing (hnone : ∀ answer ∈ a.answers s.cache, answer.pair ≠ p) (hreport : report.networkErrors ≠ [])
      (h : vulns = [])

/-- Each finding is all that OSV answered for the package, and no other package is clean without an answer. -/
def Attributed (parseSeverity : ρ → VulnSeverity) (s : State ρ) (a : Audit ρ) (report : AuditReport) : Prop :=
  ∃ raw : Pair → List (RawVuln ρ), report.findings = a.packages.filterMap (fun p => finding parseSeverity p (raw p)) ∧
    ∀ p ∈ a.packages, Justified s a report p (raw p)

/-- The packages that have been audited, or are. -/
def known (s : State ρ) (a : Audit ρ) : List Pair := s.audited ++ a.packages

/-- No two packages share a file, a batch gets no answer without a query, and one that gets too few is not alone without
failure. -/
structure Good (s : State ρ) (a : Audit ρ) : Prop where
  distinct : ∀ p ∈ s.known a, ∀ q ∈ s.known a, cacheFilename p = cacheFilename q → p = q
  fits : ∀ i chunk results, (a.queries s.cache)[i]? = some chunk → queryOsvBatch (a.batches i) = .ok results →
    results.length ≤ chunk.length
  complete : ∀ i chunk results, (a.queries s.cache)[i]? = some chunk → queryOsvBatch (a.batches i) = .ok results →
    results.length < chunk.length → ∃ j < (a.queries s.cache).length, ∃ msg, queryOsvBatch (a.batches j) = .error msg

end State

end ThreeVa.Pm.Auditor
