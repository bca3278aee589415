import ThreeVa.Bins.Links
import ThreeVa.Lib.Lines
import ThreeVa.Lib.Shell

/-!
# Lifecycle scripts

`pm/src/lifecycle.rs`: which command of a package is the run of a JavaScript file, and the process started for it. Paths
are absolute and those of Unix; the process is given by its result.
-/

namespace ThreeVa.Pm.Lifecycle
open Text Lexical Bins

inductive Outcome
  | none
  | ran
  | failed (msg : Str)
  | notAllowed
  | refused (msg : Str)
  | unavailable (msg : Str)
deriving DecidableEq

structure Plan where
  command : Str
  jsEntry : Option Path
deriving DecidableEq

/-! ## Commands -/

def shellMetacharacters : Str :=
  ['|', '&', ';', '<', '>', '(', ')', '\x60', '$', '*', '?', '\n', '\r', '\x7b', '\x7d', '!', '#', '~']

def isSimpleCommand (command : Str) : Bool := !command.any shellMetacharacters.contains

/-- The state of the splitter. -/
structure Split where
  out : List Str
  current : Str
  quote : Option Char
  hasToken : Bool

def Split.step (st : Split) (ch : Char) : Split :=
  match st.quote with
  | some q => if ch = q then { st with quote := none } else { st with current := st.current ++ [ch] }
  | none =>
      if ch = '\'' || ch = '"' then { st with quote := some ch, hasToken := true }
      else if isWhitespace ch then
        if st.hasToken then { st with out := st.out ++ [st.current], current := [], hasToken := false } else st
      else { st with current := st.current ++ [ch], hasToken := true }

def Split.finish (st : Split) : List Str := if st.hasToken then st.out ++ [st.current] else st.out

def splitArgs (command : Str) : Option (List Str) :=
  let st := command.foldl Split.step ⟨[], [], none, false⟩
  if st.quote.isSome then none
  else if st.finish.isEmpty then none else some st.finish

/-! ## Classification -/

/-- A `package.json` that can be read. -/
structure Package where
  name : Option Str
  manifest : Manifest

/-- What is read of the file system. A file is found by a directory and by what is joined to it. -/
structure Disk where
  isFile : Path → Str → Bool
  /-- The first 64 bytes at most of a file that can be read. -/
  head : Path → Str → Option (List UInt8)
  package : Path → Option Package

namespace Disk

variable (disk : Disk)

def bytes (s : String) : List UInt8 := s.toList.map fun c => UInt8.ofNat c.toNat

def fileName (path : Path) : Option Str :=
  match path.getLast? with
  | some (.into name) => some name
  | _ => none

/-- The extension of a file, a dot before its name apart. -/
def extension (path : Path) : Option Str :=
  match (fileName path).bind (rsplitOnce '.') with
  | some (stem, ext) => if stem = [] then none else some ext
  | none => none

/-- A script by its extension, or by its first line where there is none. -/
def isJavascriptEntry (dir : Path) (rel : Str) : Bool :=
  match extension (join dir (written rel)) with
  | some ext => ["js".toList, "mjs".toList, "cjs".toList].contains ext
  | none =>
      match disk.head dir rel with
      | some buf => 19 ≤ buf.length && (bytes "#!").isPrefixOf buf && decide (bytes "node" <:+: buf)
      | none => false

def selfName (dir : Path) : Str := (((disk.package dir).bind Package.name) <|> fileName dir).getD []

/-- The file of `node <file>`. -/
def nodeEntry (dir : Path) : List Str → Option Str
  | [program, rel] => if program = "node".toList && disk.isFile dir rel then some rel else none
  | _ => none

/-- The file of a command that the package has itself. -/
def binEntry (dir : Path) (program : Str) : Option Str :=
  let manifest := ((disk.package dir).map Package.manifest).getD ⟨.none, none, none⟩
  ((binEntries manifest (disk.selfName dir)).find? fun bin =>
    bin.1 = program && disk.isFile dir bin.2 && disk.isJavascriptEntry dir bin.2).map Prod.snd

def entry (dir : Path) (args : List Str) : Option Str :=
  disk.nodeEntry dir args <|> args.head?.bind (disk.binEntry dir)

def classify (dir : Path) (command : Str) : Plan where
  command := trim command
  jsEntry :=
    if isSimpleCommand (trim command) then
      ((splitArgs (trim command)).bind (disk.entry dir)).map fun rel => join dir (written rel)
    else none

end Disk

/-! ## Runs -/

def display (path : Path) : Str :=
  path.flatMap fun
    | .up => "/..".toList
    | .into name => '/' :: name

def scriptEnv (phase : Str) (dir : Path) : List (Str × Str) :=
  [("npm_lifecycle_event".toList, phase), ("npm_lifecycle_script".toList, []),
    ("npm_package_json".toList, display (dir ++ [.into "package.json".toList])), ("npm_config_yes".toList, "true".toList)]

/-- A process that is started. -/
structure Launch where
  exe : Path
  args : List Str
  env : List (Str × Str)
  currentDir : Path

/-- What comes of it: no code after a signal. -/
structure Output where
  code : Option Int
  stderr : Str

/-- A script of a package, and what the project says of it. -/
structure Script where
  pkgName : Str
  version : Str
  phase : Str
  command : Str
  allowlisted : Bool
  sandboxArgv : List Str

def Script.label (s : Script) : Str := s.pkgName ++ '@' :: s.version ++ ' ' :: s.phase

/-- What `run` starts, or its outcome before that. -/
def prepare (disk : Disk) (exe : Option Path) (dir : Path) (s : Script) : Except Outcome Launch :=
  if !s.allowlisted then .error .notAllowed
  else
    match (disk.classify dir s.command).jsEntry, exe with
    | none, _ => .error (.refused (s.label ++ ": \"".toList ++ s.command ++
        ("\" is a shell command, not a single JavaScript entry point. 3va will not hand a package-authored string to " ++
          "a shell, even for an allowlisted package. Run it yourself once, then pin the result in the project's " ++
          "\"3va\" block.").toList))
    | some _, none => .error (.unavailable (s.label ++ ": cannot locate the 3va binary".toList))
    | some entry, some exe => .ok
        { exe := exe
          args := "run".toList :: display entry :: s.sandboxArgv
          env := (scriptEnv s.phase dir).filter fun v => !v.2.isEmpty
          currentDir := dir }

def showCode : Option Int → Str
  | some c => (toString c).toList
  | none => "signal".toList

def run (disk : Disk) (exe : Option Path) (spawn : Launch → Except Str Output) (dir : Path) (s : Script) : Outcome :=
  match prepare disk exe dir s with
  | .error outcome => outcome
  | .ok launch =>
      match spawn launch with
      | .ok out =>
          if out.code = some 0 then .ran
          else .failed (s.label ++ " exited with ".toList ++ showCode out.code ++ ": ".toList ++
            " / ".toList.intercalate ((lines (trim out.stderr)).take 8))
      | .error e => .unavailable (s.label ++ ": ".toList ++ e)

/-- The arguments that `3va run` gives to a script: what follows two dashes. -/
def Launch.scriptArgs (l : Launch) : List Str := (l.args.dropWhile (· ≠ ['-', '-'])).drop 1

/-! ## What was approved -/

/-- The arguments that a shell would give to the script of a command. -/
def shellArgs (disk : Disk) (dir : Path) (command : Str) : Option (List Str) :=
  (Shell.fields command).map fun args => args.drop (if (disk.nodeEntry dir args).isSome then 2 else 1)

/-- The file lies in the directory of the package, the command is one of plain words, the same for a shell, and the script
gets the arguments that a shell would give it. -/
structure Approved (disk : Disk) (dir : Path) (command : Str) (entry : Path) (given : List Str) : Prop where
  inside : Lexical.normalize dir <+: Lexical.normalize entry
  agree : (Shell.fields command).isSome ∧ splitArgs (trim command) = Shell.fields command
  args : shellArgs disk dir command = some given

/-- A path does not lead out of a directory: where it climbs, the names it leads back through are those of the directory. -/
def StaysIn (dir : Path) (p : Written) : Prop :=
  if p.absolute then Lexical.normalize dir <+: Lexical.normalize p.steps
  else (Lexical.normalize dir).drop ((Lexical.normalize dir).length - climb p.steps) <+: descent p.steps

/-- A plain command, a file within, and no arguments after a command of the package. -/
structure Faithful (disk : Disk) (dir : Path) (command : Str) : Prop where
  plain : Shell.Plain command
  stays : ∀ args, splitArgs (trim command) = some args → ∀ rel ∈ disk.entry dir args, StaysIn dir (written rel)
  alone : ∀ args, splitArgs (trim command) = some args → disk.nodeEntry dir args = none → args.tail = []

end ThreeVa.Pm.Lifecycle
