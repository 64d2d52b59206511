import AncillaRouting.Yaml.Text

/-!
# Block scalars

A block scalar has a header, which may give the indentation and say what becomes of the line breaks
at the end, and then all lines that are indented as much as the first one.
-/

namespace AncillaRouting.Yaml

inductive Chomping where
  | strip
  | clip
  | keep
deriving DecidableEq, Repr

structure BlockHeader where
  chomping : Chomping
  /-- The indentation relative to the collection around, if it is given. -/
  increment : Option Nat

def chomping? (c : Char) : Option Chomping :=
  if c == '+' then some .keep else if c == '-' then some .strip else none

def increment? (c : Char) : Option Nat :=
  if '1' ≤ c ∧ c ≤ '9' then some (c.toNat - 48) else none

def blockIndicators : List Spot → BlockHeader × List Spot
  | s :: rest =>
    match chomping? s.char, increment? s.char with
    | some chomping, _ =>
      match rest with
      | t :: rest' => match increment? t.char with
        | some n => (⟨chomping, some n⟩, rest')
        | none => (⟨chomping, none⟩, rest)
      | [] => (⟨chomping, none⟩, [])
    | none, some n =>
      match rest with
      | t :: rest' => match chomping? t.char with
        | some chomping => (⟨chomping, some n⟩, rest')
        | none => (⟨.clip, some n⟩, rest)
      | [] => (⟨.clip, some n⟩, [])
    | none, none => (⟨.clip, none⟩, s :: rest)
  | [] => (⟨.clip, none⟩, [])

def blockHeader? (spots : List Spot) : Option (BlockHeader × List Spot) :=
  let (header, rest) := blockIndicators spots
  let rest := dropBlanks rest
  let rest := match rest with
    | s :: _ => if s.char == '#' then rest.dropWhile (fun s => !isBreak s.char) else rest
    | [] => []
  if atLineEnd rest then some (header, rest.drop 1) else none

/-- The greatest indentation of the empty lines and of the first line that is not empty. A tab in
front of that is an error. -/
def leadingIndent? (greatest : Nat) : List Spot → Option Nat
  | [] => some greatest
  | s :: rest =>
    if s.char == ' ' then leadingIndent? (max greatest (s.column + 1)) rest
    else if isBreak s.char then leadingIndent? greatest rest
    else if s.char == '\t' then none
    else some (max greatest s.column)

structure BlockText where
  /-- Last character first. -/
  read : List Char
  lineBreak : List Char
  empties : List Char
  indented : Bool

namespace BlockText

/-- The text before a new line that begins with `c`. Unless a line break stays, it becomes a space
or, if empty lines follow, nothing. -/
def openLine (t : BlockText) (literal : Bool) (c : Char) : List Char :=
  if !literal && t.lineBreak == ['\n'] && !t.indented && !isBlank c then
    if t.empties.isEmpty then ' ' :: t.read else t.empties ++ t.read
  else t.empties ++ (t.lineBreak ++ t.read)

def chomp (t : BlockText) : Chomping → List Char
  | .strip => t.read.reverse
  | .clip => (t.lineBreak ++ t.read).reverse
  | .keep => (t.empties ++ (t.lineBreak ++ t.read)).reverse

end BlockText

/-- The lines that are indented by `indent`, and what follows them. With `inLine`, the rest of a line
comes first. -/
def blockLines (literal : Bool) (indent : Nat) (inLine : Bool) (t : BlockText) :
    List Spot → Option (BlockText × List Spot)
  | [] => some (t, [])
  | s :: rest =>
    if inLine then
      if isBreak s.char then
        blockLines literal indent false { t with lineBreak := [s.char], empties := [] } rest
      else blockLines literal indent true { t with read := s.char :: t.read } rest
    else if isBreak s.char then
      blockLines literal indent false { t with empties := s.char :: t.empties } rest
    else if s.column < indent then
      if s.char == ' ' then blockLines literal indent false t rest
      else if s.char == '\t' then none
      else some (t, s :: rest)
    else
      blockLines literal indent true
        ⟨s.char :: t.openLine literal s.char, [], [], isBlank s.char⟩ rest

def blockScalar? (literal : Bool) (parent : Int) (spots : List Spot) :
    Option (List Char × List Spot) := do
  let (header, rest) ← blockHeader? spots
  let indent ← match header.increment with
    | some n => pure (parent.toNat + n)
    | none => (fun n => max n (max (parent + 1).toNat 1)) <$> leadingIndent? 0 rest
  let (t, rest) ← blockLines literal indent false ⟨[], [], [], false⟩ rest
  return (t.chomp header.chomping, rest)

end AncillaRouting.Yaml
