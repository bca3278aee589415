import ThreeVa.Lib.Entries
import ThreeVa.Lib.Json
import ThreeVa.Lib.Quoted
import ThreeVa.Lib.Utf8

/-!
# The hash of the dependency fields

`manifest_dep_fields`, `sorted_json_string` and `manifest_dep_hash` of the package manager: the text that is hashed to
tell whether `package.json` asks for another install. Keys are written by `{:?}`, everything else by `serde_json`.
-/

namespace ThreeVa.Pm

open Text Entries

/-- The keys of `package.json` an install depends on. -/
def manifestDepKeys : List Str :=
  ["dependencies".toList, "devDependencies".toList, "peerDependencies".toList, "optionalDependencies".toList,
    "overrides".toList, "resolutions".toList, "configDependencies".toList]

/-- `val.get(key)`: nothing for a value that is no object. -/
def valueGet (val : Json) (key : Str) : Option Json := val.asObject.bind (Json.get? · key)

def manifestDepFields (val : Json) : Json :=
  .obj (manifestDepKeys.filterMap fun key => (valueGet val key).map (key, ·))

/-- The text of an integer. -/
def integerText (n : Int) : Str := if n < 0 then '-' :: decimal n.natAbs else decimal n.natAbs

/-- An entry of an object, its value written already. -/
def entryText (tables : CharTables) (x : Str × Str) : Str := (Escapes.debug tables).quote x.1 ++ ':' :: x.2

mutual

def sortedJsonString (tables : CharTables) : Json → Str
  | .obj fields =>
      let entries := sortBy (fun a b => compare a.1 b.1) (fieldTexts tables fields)
      '\x7b' :: [','].intercalate (entries.map (entryText tables)) ++ ['\x7d']
  | .arr items => '[' :: [','].intercalate (itemTexts tables items) ++ [']']
  | .null => "null".toList
  | .bool b => if b then "true".toList else "false".toList
  | .int n => integerText n
  | .float text => text
  | .str s => Escapes.json.quote s

def itemTexts (tables : CharTables) : List Json → List Str
  | [] => []
  | v :: vs => sortedJsonString tables v :: itemTexts tables vs

/-- The keys with the texts of their values. -/
def fieldTexts (tables : CharTables) : List (Str × Json) → List (Str × Str)
  | [] => []
  | (k, v) :: fs => (k, sortedJsonString tables v) :: fieldTexts tables fs

end

/-- The hash of a `package.json` that was read and parsed. -/
def manifestDepHash (tables : CharTables) (sha256Hex : Bytes → Str) (val : Json) : Str :=
  sha256Hex (encodeUtf8 (sortedJsonString tables (manifestDepFields val)))

/-! ## Values up to the order of keys -/

/-- The text of a number. -/
def numberText : Json → Option Str
  | .int n => some (integerText n)
  | .float text => some text
  | _ => none

/-- Two values are equal up to the order of the keys of objects, numbers by their texts. -/
inductive SameValue : Json → Json → Prop
  | null : SameValue .null .null
  | bool (b : Bool) : SameValue (.bool b) (.bool b)
  | number {v w : Json} {text : Str} (hv : numberText v = some text) (hw : numberText w = some text) : SameValue v w
  | str (s : Str) : SameValue (.str s) (.str s)
  | arr {xs ys : List Json} (hlen : xs.length = ys.length)
      (hitems : ∀ (i : Nat) (hx : i < xs.length) (hy : i < ys.length), SameValue xs[i] ys[i]) :
      SameValue (.arr xs) (.arr ys)
  | obj {fs gs : List (Str × Json)} (hkeys : ∀ k, (Json.get? fs k).isSome = (Json.get? gs k).isSome)
      (hfields : ∀ k v w, Json.get? fs k = some v → Json.get? gs k = some w → SameValue v w) :
      SameValue (.obj fs) (.obj gs)

/-- A field is absent from both values, or the same in both up to the order of keys. -/
def SameField (v w : Json) (key : Str) : Prop := Option.Rel SameValue (valueGet v key) (valueGet w key)

def isNumberChar (c : Char) : Bool := c.isDigit || ['-', '+', '.', 'e', 'E'].contains c

/-- What the texts of numbers look like. -/
def IsNumberText (text : Str) : Prop :=
  (∀ c ∈ text, isNumberChar c = true) ∧ ∃ c rest, text = c :: rest ∧ (c.isDigit = true ∨ c = '-')

/-- What `serde_json::Value` promises: a key occurs once, and the text of a number is one. -/
inductive WellFormed : Json → Prop
  | null : WellFormed .null
  | bool (b : Bool) : WellFormed (.bool b)
  | int (n : Int) : WellFormed (.int n)
  | float {text : Str} (htext : IsNumberText text) : WellFormed (.float text)
  | str (s : Str) : WellFormed (.str s)
  | arr {items : List Json} (hitems : ∀ v ∈ items, WellFormed v) : WellFormed (.arr items)
  | obj {fields : List (Str × Json)} (hkeys : (fields.map Prod.fst).Nodup)
      (hfields : ∀ x ∈ fields, WellFormed x.2) : WellFormed (.obj fields)

end ThreeVa.Pm
