import AncillaRouting.Text.Character

/-!
# JSON values and their compact text

A string is kept as its code points, since an escape may leave a surrogate without its partner, and
a number that is no integer is kept as it was written. The compact text has no blanks.
-/

namespace AncillaRouting

/-- A string by its code points, surrogates that have no partner among them. -/
abbrev CodePoints := List Nat

inductive Json where
  | null
  | bool (b : Bool)
  | int (n : Int)
  /-- A number with a fraction or an exponent, or minus zero. -/
  | decimal (literal : List Char)
  | string (points : CodePoints)
  | array (items : List Json)
  | object (members : List (CodePoints × Json))
deriving Repr

namespace CodePoints

def ofString (s : String) : CodePoints := s.toList.map Char.toNat

def text? (points : CodePoints) : Option String := String.ofList <$> points.mapM Text.char?

def hexEscape (n : Nat) : List Char :=
  ['\\', 'u', Text.digit (n / 4096 % 16), Text.digit (n / 256 % 16), Text.digit (n / 16 % 16),
    Text.digit (n % 16)]

def escape (n : Nat) : List Char :=
  if n = 0x22 then ['\\', '\x22']
  else if n = 0x5C then ['\\', '\\']
  else if n = 0x08 then ['\\', 'b']
  else if n = 0x0C then ['\\', 'f']
  else if n = 0x0A then ['\\', 'n']
  else if n = 0x0D then ['\\', 'r']
  else if n = 0x09 then ['\\', 't']
  else if n < 0x20 then hexEscape n
  else match Text.char? n with
    | some c => [c]
    | none => hexEscape n

def render (points : CodePoints) : List Char := '\x22' :: (points.flatMap escape ++ ['\x22'])

end CodePoints

namespace Json

def ofString (s : String) : Json := .string (.ofString s)

/-- An object with keys that are texts. -/
def record (fields : List (String × Json)) : Json :=
  .object (fields.map fun (k, v) => (.ofString k, v))

def renderInt (n : Int) : List Char := (toString n).toList

mutual

def render : Json → List Char
  | null => ['n', 'u', 'l', 'l']
  | bool true => ['t', 'r', 'u', 'e']
  | bool false => ['f', 'a', 'l', 's', 'e']
  | int n => renderInt n
  | decimal literal => literal
  | string points => CodePoints.render points
  | array items => '[' :: (renderItems items ++ [']'])
  | object members => '\x7b' :: (renderMembers members ++ ['\x7d'])

def renderItems : List Json → List Char
  | [] => []
  | [v] => render v
  | v :: w :: rest => render v ++ ',' :: renderItems (w :: rest)

def renderMembers : List (CodePoints × Json) → List Char
  | [] => []
  | [(k, v)] => CodePoints.render k ++ ':' :: render v
  | (k, v) :: m :: rest => CodePoints.render k ++ ':' :: (render v ++ ',' :: renderMembers (m :: rest))

end

def text (v : Json) : String := String.ofList v.render

end Json

end AncillaRouting
