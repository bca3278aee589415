import Mathlib.Algebra.GroupWithZero.Nat
import Mathlib.Algebra.Ring.Int.Defs
import ThreeVa.Lib.Entries
import ThreeVa.Lib.Lines
import ThreeVa.Lib.SourceMap

/-!
# The code generator

`bundler/src/generator.rs`: the text of a bundle that is not minified, in each format, and its source map. The modules
come in the order of the iterator of the map that holds them.
-/

namespace ThreeVa.Bundler
open Text

inductive OutputFormat
  | iife
  | umd
  | cjs
  | esm
deriving DecidableEq

abbrev Modules := Entries Str Str

def codeOf (modules : Modules) (name : String) : Option Str :=
  (modules.list.find? (·.1 = name.toList)).map Prod.snd

def firstCode (modules : Modules) : Option Str := modules.list.head?.map Prod.snd

/-! ## Formats -/

def generateIife (modules : Modules) : Str :=
  match ((codeOf modules "index").or (codeOf modules "main")).or (firstCode modules) with
  | some code => "(function() \x7b\n".toList ++ code ++ "\n\x7d)();".toList
  | none => []

def umdHead : Str :=
  "(function (root, factory) \x7b\n    if (typeof module === 'object' && module.exports) \x7b\n".toList ++
    "        module.exports = factory();\n    \x7d else \x7b\n        root['bundle'] = factory();\n    \x7d\n".toList ++
    "\x7d(this, function() \x7b\n    return ".toList

def umdTail : Str := ";\n\x7d));".toList

def generateUmd (modules : Modules) : Str :=
  umdHead ++ ((codeOf modules "index").or (firstCode modules)).getD [] ++ umdTail

def moduleHead (name : Str) : Str := "// Module: ".toList ++ name ++ "\n".toList

def generateCjs (modules : Modules) : Str :=
  modules.list.flatMap fun (name, code) => moduleHead name ++ code ++ "\n\n".toList

def generateEsm (modules : Modules) : Str :=
  modules.list.flatMap fun (name, code) => moduleHead name ++ "export ".toList ++ code ++ "\n\n".toList

def generate (format : OutputFormat) (modules : Modules) : Str :=
  match format with
  | .iife => generateIife modules
  | .umd => generateUmd modules
  | .cjs => generateCjs modules
  | .esm => generateEsm modules

/-! ## VLQ -/

/-- Wrapping to 64 bits. -/
def wrapI64 (n : Int) : Int := n.bmod (2 ^ 64)

/-- The loop over the digits; nothing where it does not end within so many of them. -/
def vlqLoop : Nat → Int → Option Str
  | 0, _ => none
  | fuel + 1, vlq =>
      let rest := vlq / 32
      let digit := if 0 < rest then vlq % 32 + 32 else vlq % 32
      if rest = 0 then some [base64Symbol digit.toNat]
      else (vlqLoop fuel rest).map (base64Symbol digit.toNat :: ·)

/-- Thirteen digits hold 63 bits. -/
def vlqEncodeValue (value : Int64) : Option Str :=
  let sign := if value.toInt < 0 then 1 else 0
  vlqLoop 13 (wrapI64 (2 * wrapI64 value.toInt.natAbs) + sign)

def encodeVlqSegment (genCol srcIdx origLine origCol : Int64) : Option Str := do
  return (← vlqEncodeValue genCol) ++ (← vlqEncodeValue srcIdx) ++ (← vlqEncodeValue origLine) ++
    (← vlqEncodeValue origCol)

/-! ## Source maps -/

def headerLines : OutputFormat → Nat
  | .iife => 1
  | .umd => 4
  | .cjs => 0
  | .esm => 0

def lineCount (code : Str) : Nat := max (lines code).length 1

/-- The segments of one module, each on a line of its own. -/
def moduleMappings (srcIdx : Nat) (code : Str) : Option (List Str) :=
  (List.range (lineCount code)).mapM fun origLine =>
    encodeVlqSegment 0 (if origLine = 0 then Int64.ofNat srcIdx else 0) (if origLine = 0 then 0 else 1) 0

def mappingsLines (format : OutputFormat) (modules : Modules) : Option (List Str) := do
  let segments ← modules.list.zipIdx.mapM fun (m, srcIdx) => moduleMappings srcIdx m.2
  return List.replicate (headerLines format) [] ++ segments.flatten

def mappings (format : OutputFormat) (modules : Modules) : Option Str :=
  (mappingsLines format modules).map ([';'].intercalate ·)

/-! ## What the lines of a bundle carry -/

/-- The parts of a bundle: text of the generator, and the code of a module with its place among the sources. -/
inductive Piece
  | glue (text : Str)
  | code (source : Nat) (text : Str)

def Piece.text : Piece → Str
  | glue text => text
  | code _ text => text

def newlines (s : Str) : Nat := s.count '\n'

def indexOfName (modules : Modules) (name : String) : Option Nat := modules.list.findIdx? (·.1 = name.toList)

def pieceAt (modules : Modules) (i : Nat) : List Piece := (modules.list[i]?.map fun m => Piece.code i m.2).toList

def pieces (format : OutputFormat) (modules : Modules) : List Piece :=
  match format with
  | .iife =>
      if modules.list = [] then []
      else
        .glue "(function() \x7b\n".toList ::
          pieceAt modules (((indexOfName modules "index").or (indexOfName modules "main")).getD 0) ++
          [.glue "\n\x7d)();".toList]
  | .umd => .glue umdHead :: pieceAt modules ((indexOfName modules "index").getD 0) ++ [.glue umdTail]
  | .cjs =>
      modules.list.zipIdx.flatMap fun (m, i) => [.glue (moduleHead m.1), .code i m.2, .glue "\n\n".toList]
  | .esm =>
      modules.list.zipIdx.flatMap fun (m, i) =>
        [.glue (moduleHead m.1 ++ "export ".toList), .code i m.2, .glue "\n\n".toList]

/-- The generated line, the source and its line, for the pieces from a generated line on. -/
def carriedFrom : Nat → List Piece → List (Nat × Nat × Nat)
  | _, [] => []
  | g, .glue text :: ps => carriedFrom (g + newlines text) ps
  | g, .code j text :: ps =>
      (List.range (lineCount text)).map (fun k => (g + k, j, k)) ++ carriedFrom (g + newlines text) ps

/-- A reader maps each generated line to the line of a module that it carries, and the others to nothing. -/
def MapRight (format : OutputFormat) (modules : Modules) : Prop :=
  ∃ text decoded, mappings format modules = some text ∧ SourceMap.decodeMappings text = some decoded ∧
    (∀ g j k, (g, j, k) ∈ carriedFrom 0 (pieces format modules) → ((j : Int), (k : Int)) ∈ SourceMap.positionsAt decoded g) ∧
    ∀ g, g ≤ newlines (generate format modules) → ∀ p ∈ SourceMap.positionsAt decoded g,
      ∃ j k : Nat, p = ((j : Int), (k : Int)) ∧ (g, j, k) ∈ carriedFrom 0 (pieces format modules)

end ThreeVa.Bundler
