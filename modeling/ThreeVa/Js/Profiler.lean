import Mathlib.Data.Char
import Mathlib.Data.List.Lex
import Mathlib.Data.List.Sort
import ThreeVa.Lib.Lines

/-!
# CPU profiles

`js/src/profiler.rs`, and `rebuild_profiler_from_cpuprofile` of `cli/src/main.rs`: how stacks are read, how samples are written
as a profile and read back, and how stacks are folded. The JSON text of a profile is not modelled. The children of a node are
kept in the order in which they were added.
-/

namespace ThreeVa.Js.Profiler
open Text

structure ProfileFrame where
  functionName : Str
  url : Str
  lineNumber : Int
  columnNumber : Int
deriving DecidableEq

structure ProfileSample where
  timestampMs : Nat
  /-- The innermost call first. -/
  frames : List ProfileFrame
  label : Option Str
deriving DecidableEq

structure ProfilerState where
  samples : List ProfileSample
  startTimeMs : Nat
  endTimeMs : Nat
deriving DecidableEq

/-! ## Stacks of the engine -/

/-- `parse::<i32>` -/
def parseI32 : Str → Option Int
  | '-' :: ds => if ds = [] then none else ((digitsValue 10 0 ds).filter (· ≤ 2147483648)).map fun n => -Int.ofNat n
  | s => (parseUnsigned 10 2147483647 s).map Int.ofNat

def parseLocation (loc : Str) : Str × Int × Int :=
  match rsplitOnce ':' loc with
  | none => (loc, -1, -1)
  | some (rest, last) =>
      match rsplitOnce ':' rest with
      | some (url, line) => (url, (parseI32 line).getD (-1), (parseI32 last).getD (-1))
      | none => (rest, (parseI32 last).getD (-1), -1)

/-- A line of a stack, if it is one of a call. -/
def parseLine (line : Str) : Option ProfileFrame :=
  (stripPrefix "at ".toList (trim line)).map fun rest =>
    match rsplitOnce '(' rest with
    | some (namePart, location) =>
        let functionName := trim (trimEndMatches '<' (trim namePart))
        let (url, line, column) := parseLocation (trimEndMatches ')' location)
        ⟨if functionName = "<anonymous>".toList then [] else functionName, url, line, column⟩
    | none =>
        let (url, line, column) := parseLocation rest
        ⟨[], url, line, column⟩

def parseV8Stack (stack : Str) : List ProfileFrame := (lines stack).filterMap parseLine

namespace ProfilerState

def new : ProfilerState := ⟨[], 0, 0⟩

variable (state : ProfilerState)

/-- What `push_raw` and the reloading of a profile share. -/
def push (sample : ProfileSample) : ProfilerState where
  samples := state.samples ++ [sample]
  startTimeMs := if state.startTimeMs = 0 then sample.timestampMs else state.startTimeMs
  endTimeMs := sample.timestampMs

def pushRaw (timestampMs : Nat) (stackStr : Str) (label : Option Str) : ProfilerState :=
  state.push ⟨timestampMs, parseV8Stack stackStr, label⟩

end ProfilerState

/-! ## Writing a profile -/

structure CpuFrame where
  functionName : Str
  url : Str
  scriptId : Str
  lineNumber : Int
  columnNumber : Int
deriving DecidableEq

structure Node where
  id : Nat
  frame : CpuFrame
  children : List (Str × Nat)
  hitCount : Nat
deriving DecidableEq

/-- `{n}` of a signed number -/
def signed (n : Int) : Str := if n < 0 then '-' :: decimal n.natAbs else decimal n.natAbs

def frameKey (f : ProfileFrame) : Str :=
  f.functionName ++ '|' :: f.url ++ '|' :: signed f.lineNumber ++ '|' :: signed f.columnNumber

def named (functionName : Str) : Str := if functionName = [] then "(anonymous)".toList else functionName

def cpuFrame (id : Nat) (f : ProfileFrame) : CpuFrame :=
  ⟨named f.functionName, f.url, if f.url = [] then ['0'] else decimal id, f.lineNumber, f.columnNumber⟩

/-- The node for one more call below a node. -/
def descend (walk : List Node × Nat) (f : ProfileFrame) : List Node × Nat :=
  match ((walk.1[walk.2]?.map Node.children).getD []).lookup (frameKey f) with
  | some id => (walk.1, id)
  | none =>
      let newId := walk.1.length
      ((walk.1 ++ [(⟨newId, cpuFrame newId f, [], 0⟩ : Node)]).modify walk.2
        fun n => { n with children := n.children ++ [(frameKey f, newId)] }, newId)

structure Building where
  nodes : List Node
  sampleIds : List Nat
  timeDeltas : List Nat
  prevTs : Nat

/-- A placeholder and the root. -/
def firstNodes : List Node :=
  [⟨0, ⟨[], [], ['0'], -1, -1⟩, [], 0⟩, ⟨1, ⟨"(root)".toList, [], ['0'], -1, -1⟩, [], 0⟩]

def Building.add (b : Building) (sample : ProfileSample) : Building :=
  let (nodes, current) := sample.frames.reverse.foldl descend (b.nodes, 1)
  { nodes := nodes.modify current fun n => { n with hitCount := n.hitCount + 1 }
    sampleIds := b.sampleIds ++ [current]
    timeDeltas := b.timeDeltas ++ [(sample.timestampMs - b.prevTs) * 1000]
    prevTs := sample.timestampMs }

structure CpuProfile where
  nodes : List Node
  startTime : Nat
  endTime : Nat
  samples : List Nat
  timeDeltas : List Nat

def building (state : ProfilerState) : Building := state.samples.foldl Building.add ⟨firstNodes, [], [], state.startTimeMs⟩

def buildCpuprofile (state : ProfilerState) : CpuProfile where
  nodes := (building state).nodes.tail
  startTime := state.startTimeMs * 1000
  endTime := state.endTimeMs * 1000
  samples := (building state).sampleIds
  timeDeltas := (building state).timeDeltas

/-! ## Reading a profile -/

namespace CpuProfile

variable (p : CpuProfile)

/-- What was inserted last under an id. -/
def nodeMap (id : Nat) : Option Node := p.nodes.reverse.find? (·.id = id)

def parentMap (child : Nat) : Option Nat :=
  (p.nodes.reverse.find? fun n => n.children.any (·.2 = child)).map Node.id

/-- The frames from a node towards the root, at most as many as the first argument says. -/
def walkUp : Nat → Nat → List ProfileFrame
  | 0, _ => []
  | left + 1, cur =>
      match p.nodeMap cur with
      | none => []
      | some n =>
          ⟨n.frame.functionName, n.frame.url, n.frame.lineNumber, n.frame.columnNumber⟩ ::
            match p.parentMap cur with
            | some parent => if parent ≠ 0 ∧ parent ≠ cur then walkUp left parent else []
            | none => []

def rebuildFrom : Nat → Nat → ProfilerState → List Nat → ProfilerState
  | _, _, state, [] => state
  | i, ts, state, id :: ids =>
      let ts := ts + p.timeDeltas[i]?.getD 10000 / 1000
      rebuildFrom (i + 1) ts (state.push ⟨ts, p.walkUp 65 id, none⟩) ids

/-- `rebuild_profiler_from_cpuprofile` -/
def rebuild : ProfilerState := p.rebuildFrom 0 0 .new p.samples

end CpuProfile

/-! ## Folded stacks -/

def foldedFrame (f : ProfileFrame) : Str :=
  if f.url = [] ∨ f.lineNumber < 0 then named f.functionName
  else named f.functionName ++ " (".toList ++ f.url ++ ':' :: signed f.lineNumber ++ [')']

/-- The outermost call first. -/
def foldedStack (frames : List ProfileFrame) : Str := [';'].intercalate (frames.reverse.map foldedFrame)

/-- The lines of `to_folded_stacks`. -/
def toFoldedStacks (state : ProfilerState) : List Str :=
  let folded := (state.samples.filter (·.frames ≠ [])).map fun s => foldedStack s.frames
  (folded.dedup.map fun stack => stack ++ ' ' :: decimal (folded.count stack)).insertionSort (· ≤ ·)

end ThreeVa.Js.Profiler
