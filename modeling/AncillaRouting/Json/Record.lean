import AncillaRouting.Json.Reader

/-!
# Serialized types

How structures and enumerations are read from JSON. A structure is an object, whose keys may come
in any order and among others, or an array of the fields in the order of their declaration. A
variant of an enumeration is its name, or an object that maps the name to null.
-/

namespace AncillaRouting

class Serial (α : Type) where
  encode : α → Json
  decode : Json → Option α

namespace Json

structure Fields where
  named : Bool
  values : List (String × Json)

/-- The fields of a structure with the given names. Of the keys of an object, each must be text,
and none of the given names may occur twice; an array must not be longer than the names. -/
def fields (names : List String) : Json → Option Fields
  | .object members => do
    let members ← members.mapM fun (k, v) => (·, v) <$> k.text?
    let known := members.filter fun (k, _) => names.contains k
    if (known.map (·.1)).Nodup then return ⟨true, known⟩ else none
  | .array items => if items.length ≤ names.length then some ⟨false, names.zip items⟩ else none
  | _ => none

def variant? : Json → Option String
  | .string s => s.text?
  | .object [(k, .null)] => k.text?
  | _ => none

namespace Fields

def get? (f : Fields) (name : String) : Option Json :=
  (f.values.find? fun (k, _) => k == name).map (·.2)

def required {α : Type} [Serial α] (f : Fields) (name : String) : Option α :=
  (f.get? name).bind Serial.decode

/-- A field that may be null, and may be left out of an object. -/
def optional {α : Type} [Serial α] (f : Fields) (name : String) : Option (Option α) :=
  match f.get? name with
  | some .null => some none
  | some v => some <$> Serial.decode v
  | none => if f.named then some none else none

/-- A field that has a default and may always be left out. -/
def defaulted {α : Type} [Serial α] (f : Fields) (name : String) (default : α) : Option α :=
  match f.get? name with
  | some v => Serial.decode v
  | none => some default

end Fields

end Json

namespace Serial

instance : Serial Bool where
  encode := .bool
  decode
    | .bool b => some b
    | _ => none

instance : Serial UInt32 where
  encode n := .int n.toNat
  decode
    | .int n => if 0 ≤ n ∧ n < 4294967296 then some (UInt32.ofNat n.toNat) else none
    | _ => none

instance : Serial Int32 where
  encode n := .int n.toInt
  decode
    | .int n => if -2147483648 ≤ n ∧ n < 2147483648 then some (Int32.ofInt n) else none
    | _ => none

instance {α : Type} [Serial α] : Serial (List α) where
  encode l := .array (l.map encode)
  decode
    | .array items => items.mapM decode
    | _ => none

def encodeOption {α : Type} [Serial α] : Option α → Json
  | none => .null
  | some a => encode a

end Serial

end AncillaRouting
