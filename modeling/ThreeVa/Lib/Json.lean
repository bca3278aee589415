import ThreeVa.Lib.Text

/-!
# JSON values

`serde_json::Value` as it is read: a missing key and an index into a value of another kind give `null`.
-/

namespace Text

inductive Json
  | null
  | bool (b : Bool)
  | int (n : Int)
  | float (text : Str)
  | str (s : Str)
  | arr (items : List Json)
  | obj (fields : List (Str × Json))

namespace Json

/-- Induction over the values in a value. -/
theorem induction {P : Json → Prop} (null : P .null) (bool : ∀ b, P (.bool b)) (int : ∀ n, P (.int n))
    (float : ∀ text, P (.float text)) (str : ∀ s, P (.str s)) (arr : ∀ items, (∀ v ∈ items, P v) → P (.arr items))
    (obj : ∀ fields : List (Str × Json), (∀ x ∈ fields, P x.2) → P (.obj fields)) (v : Json) : P v :=
  @Json.rec P (fun items => ∀ v ∈ items, P v) (fun fields => ∀ x ∈ fields, P x.2) (fun x => P x.2) null bool int float
    str arr obj (fun _ hv => absurd hv List.not_mem_nil)
    (fun _ _ hv hvs => List.forall_mem_cons.mpr ⟨hv, hvs⟩) (fun _ hx => absurd hx List.not_mem_nil)
    (fun _ _ hx hxs => List.forall_mem_cons.mpr ⟨hx, hxs⟩) (fun _ _ hv => hv) v

/-- The value of a key; the keys of an object are distinct. -/
def get? (fields : List (Str × Json)) (key : Str) : Option Json := (fields.find? (·.1 = key)).map Prod.snd

def field (v : Json) (key : String) : Json :=
  match v with
  | .obj fields => (get? fields key.toList).getD .null
  | _ => .null

def asStr : Json → Option Str
  | .str s => some s
  | _ => none

def asArray : Json → Option (List Json)
  | .arr items => some items
  | _ => none

def asObject : Json → Option (List (Str × Json))
  | .obj fields => some fields
  | _ => none

def asU64 : Json → Option Nat
  | .int n => if 0 ≤ n ∧ n ≤ usizeMax then some n.toNat else none
  | _ => none

/-! ## Texts -/

mutual

/-- The text of a value whose strings need no escapes. -/
def render : Json → Str
  | .null => "null".toList
  | .bool b => if b then "true".toList else "false".toList
  | .int n => if n < 0 then '-' :: decimal n.natAbs else decimal n.natAbs
  | .float text => text
  | .str s => '"' :: s ++ ['"']
  | .arr items => '[' :: renderItems items ++ [']']
  | .obj fields => '\x7b' :: renderFields fields ++ ['\x7d']

def renderItems : List Json → Str
  | [] => []
  | [v] => render v
  | v :: vs => render v ++ ',' :: renderItems vs

def renderFields : List (Str × Json) → Str
  | [] => []
  | [(k, v)] => '"' :: k ++ ['"', ':'] ++ render v
  | (k, v) :: fs => '"' :: k ++ ['"', ':'] ++ render v ++ ',' :: renderFields fs

end

def object (fields : List (String × Json)) : Json := .obj (fields.map fun (k, v) => (k.toList, v))

def text (s : String) : Json := .str s.toList

end Json

end Text
