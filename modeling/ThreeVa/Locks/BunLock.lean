import ThreeVa.Lib.JsonText
import ThreeVa.Lib.Passes

/-!
# Bun's text lockfile

`strip_jsonc`, which makes JSON of a text with comments and trailing commas. The first loop walks over the bytes and
pushes each as a character; the second walks over the characters of what the first has written.
-/

namespace ThreeVa.Locks
open Text JsonText

/-! ## Comments -/

/-- Where the first loop stands. -/
inductive Place
  | code
  | string (escaped : Bool)
  | line
  | block

/-- The string and its escapes, after one more byte of it. -/
def afterStringByte (escaped : Bool) (c : Char) : Place :=
  if escaped then .string false
  else if c = '\\' then .string true
  else if c = '"' then .code
  else .string false

def withoutComments : Place → Bytes → Str
  | _, [] => []
  | .string escaped, b :: rest => byteChar b :: withoutComments (afterStringByte escaped (byteChar b)) rest
  | .code, b :: rest =>
      if b = byteOf '"' then byteChar b :: withoutComments (.string false) rest
      else if b = byteOf '/' then
        match rest with
        | [] => [byteChar b]
        | b' :: rest' =>
            if b' = byteOf '/' then withoutComments .line (b' :: rest')
            else if b' = byteOf '*' then withoutComments .block rest'
            else byteChar b :: withoutComments .code (b' :: rest')
      else byteChar b :: withoutComments .code rest
  | .line, b :: rest =>
      -- the line feed is not of the comment
      if b = byteOf '\n' then byteChar b :: withoutComments .code rest else withoutComments .line rest
  | .block, b :: rest =>
      match rest with
      | [] => []
      | b' :: rest' =>
          if b = byteOf '*' ∧ b' = byteOf '/' then withoutComments .code rest'
          else withoutComments .block (b' :: rest')

/-! ## Trailing commas -/

/-- The state of the second loop; the last character of `cleaned` comes first. -/
structure Cleaner where
  inStr : Bool
  escaped : Bool
  cleaned : Str

def dropComma (cleaned : Str) : Str := if cleaned.head? = some ',' then cleaned.tail else cleaned

def cleanStep (s : Cleaner) (c : Char) : Cleaner :=
  if s.inStr then
    if s.escaped then { s with escaped := false, cleaned := c :: s.cleaned }
    else if c = '\\' then { s with escaped := true, cleaned := c :: s.cleaned }
    else if c = '"' then { s with inStr := false, cleaned := c :: s.cleaned }
    else { s with cleaned := c :: s.cleaned }
  else if c = '"' then { s with inStr := true, cleaned := c :: s.cleaned }
  else if c = '\x7d' ∨ c = ']' then { s with cleaned := c :: dropComma (s.cleaned.dropWhile isWhitespace) }
  else { s with cleaned := c :: s.cleaned }

def cleanCommas (out : Str) : Str := (out.foldl cleanStep ⟨false, false, []⟩).cleaned.reverse

def stripJsonc (content : Str) : Str := cleanCommas (withoutComments .code (encodeUtf8 content))

/-! ## Decorated documents -/

/-- A blank, a comment or a token. A line comment ends with its line feed, a block comment where it first can. -/
inductive Piece
  | blank (c : Char) (h : isBlank c = true)
  | line (body : Str) (h : '\n' ∉ body)
  | block (body : Str) (h : ¬ ['*', '/'] <:+: body)
  | token (t : Token)

def Piece.text : Piece → Str
  | .blank c _ => [c]
  | .line body _ => '/' :: '/' :: body ++ ['\n']
  | .block body _ => '/' :: '*' :: body ++ ['*', '/']
  | .token t => t.text

def Piece.token? : Piece → Option Token
  | .token t => some t
  | _ => none

/-- The same tokens with a comma before some of the closing brackets. -/
inductive WithCommas : List Token → List Token → Prop
  | nil : WithCommas [] []
  | same (t : Token) {ts us : List Token} (h : WithCommas ts us) : WithCommas (t :: ts) (t :: us)
  | trailing {t : Token} {ts us : List Token} (ht : t.closes = true) (h : WithCommas ts us) :
      WithCommas (t :: ts) (comma :: t :: us)

/-- A document to which comments and trailing commas have been added; the last line may be a comment that has no line
feed. -/
structure Decorated where
  document : Document
  pieces : List Piece
  tokens : WithCommas document.tree.tokens (pieces.filterMap Piece.token?)
  lastLine : Option Str
  lastLine_ne : ∀ body ∈ lastLine, '\n' ∉ body

def Decorated.text (d : Decorated) : Str :=
  d.pieces.flatMap Piece.text ++
    match d.lastLine with
    | some body => '/' :: '/' :: body
    | none => []

/-- Two texts have one value. -/
def SameValue (s t : Str) : Prop := ∃ v, Parses s v ∧ Parses t v

/-- The strings and keys are written in ASCII; other characters may be escaped. -/
def AsciiStrings (v : JsonText.Tree Literal) : Prop := ∀ s ∈ v.strings, ∀ c ∈ s.text, c.toNat < 0x80

end ThreeVa.Locks
