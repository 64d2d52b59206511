import AncillaRouting.Text.Character
import AncillaRouting.Yaml.Text

/-!
# YAML tokens

The parts of a text that carry structure. Indentation has become tokens of its own: a block
collection has a start and an end, as a flow collection has. Tags are octets, because escapes may
spell out octets that are no UTF-8 text.
-/

namespace AncillaRouting.Yaml

inductive ScalarStyle where
  | plain
  | quoted
  | literal
  | folded
deriving DecidableEq, Repr

inductive Token where
  | versionDirective (major minor : Nat)
  | tagDirective (handle : String) (uri : List UInt8)
  | documentStart
  | documentEnd
  | blockSequenceStart
  | blockMappingStart
  | blockEnd
  | flowSequenceStart
  | flowSequenceEnd
  | flowMappingStart
  | flowMappingEnd
  | blockEntry
  | flowEntry
  | key
  | value
  | alias (name : String)
  | anchor (name : String)
  | tag (handle : String) (suffix : List UInt8)
  | scalar (text : String) (style : ScalarStyle)
deriving DecidableEq, Repr

/-! ## Anchors -/

def isNameChar (c : Char) : Bool :=
  ('0' ≤ c && c ≤ '9') || ('A' ≤ c && c ≤ 'Z') || ('a' ≤ c && c ≤ 'z') || c == '_' || c == '-'

def nameFrom (spots : List Spot) : List Char × List Spot :=
  ((spots.takeWhile fun s => isNameChar s.char).map (·.char), spots.dropWhile fun s => isNameChar s.char)

def endsName : List Spot → Bool
  | s :: rest => atGap (s :: rest) || ['?', ':', ',', ']', '\x7d', '%', '@', '\x60'].contains s.char
  | [] => true

def anchorName? (spots : List Spot) : Option (String × List Spot) :=
  let (name, rest) := nameFrom spots
  if !name.isEmpty && endsName rest then some (String.ofList name, rest) else none

/-! ## Tags -/

def isUriChar (c : Char) : Bool :=
  isNameChar c || [';', '/', '?', ':', '@', '&', '=', '+', '$', '.', '!', '~', '*', '\x27', '(', ')',
    '%'].contains c

def octets (cs : List Char) : List UInt8 := cs.map fun c => UInt8.ofNat c.toNat

/-- A tag ends before its first zero octet. -/
def beforeZero (tag : List UInt8) : List UInt8 := tag.takeWhile (· != 0)

def following? (octet : Nat) : Option Nat :=
  if octet < 0x80 then some 0
  else if 0xC0 ≤ octet ∧ octet < 0xE0 then some 1
  else if 0xE0 ≤ octet ∧ octet < 0xF0 then some 2
  else if 0xF0 ≤ octet ∧ octet < 0xF8 then some 3
  else none

/-- The octets of the URI from here on, and what follows it. An octet may be given by a percent sign
with two hexadecimal digits; after one that begins a longer character the others must be given in
the same way, and `left` of them are still missing. Which character they make is not looked at. With
`verbatim`, the characters that have a meaning in flow collections belong to the URI. -/
def uriFrom (verbatim : Bool) (left : Nat) (read : List UInt8) :
    List Spot → Option (List UInt8 × List Spot)
  | s :: rest =>
    if s.char == '%' then
      match rest with
      | a :: b :: rest =>
        match Text.hexValue? a.char, Text.hexValue? b.char with
        | some x, some y =>
          let octet := 16 * x + y
          if left = 0 then
            match following? octet with
            | some k => uriFrom verbatim k (UInt8.ofNat octet :: read) rest
            | none => none
          else if octet / 0x40 = 2 then uriFrom verbatim (left - 1) (UInt8.ofNat octet :: read) rest
          else none
        | _, _ => none
      | _ => none
    else if left != 0 then none
    else if isUriChar s.char || (verbatim && [',', '[', ']'].contains s.char) then
      uriFrom verbatim 0 (octets [s.char] ++ read) rest
    else some (read.reverse, s :: rest)
  | [] => if left = 0 then some (read.reverse, []) else none

/-- A tag handle: an exclamation mark, and a name between it and a second one or none at all. -/
def handleFrom? : List Spot → Option (List Char × List Spot)
  | s :: rest =>
    if s.char == '!' then
      let (name, rest) := nameFrom rest
      match rest with
      | t :: rest' =>
        if t.char == '!' then some ('!' :: (name ++ ['!']), rest') else some ('!' :: name, rest)
      | [] => some ('!' :: name, [])
    else none
  | [] => none

/-- The handle and the suffix of a tag. An exclamation mark without a suffix is a tag by itself. -/
def tagParts? (spots : List Spot) : Option (List Char × List UInt8 × List Spot) :=
  match spots with
  | _ :: open_ :: rest =>
    if open_.char == '<' then do
      let (uri, rest) ← uriFrom true 0 [] rest
      match rest with
      | close :: rest =>
        if close.char == '>' && !uri.isEmpty then return ([], beforeZero uri, rest) else none
      | [] => none
    else shorthand
  | _ => shorthand
where
  shorthand : Option (List Char × List UInt8 × List Spot) := do
    let (handle, rest) ← handleFrom? spots
    if 2 ≤ handle.length && handle.getLast? == some '!' then
      let (suffix, rest) ← uriFrom false 0 [] rest
      if suffix.isEmpty then none else return (handle, beforeZero suffix, rest)
    else
      let (suffix, rest) ← uriFrom false 0 (octets (handle.drop 1)).reverse rest
      let suffix := beforeZero suffix
      if suffix.isEmpty then return ([], octets ['!'], rest) else return (['!'], suffix, rest)

def tagToken? (inFlow : Bool) (spots : List Spot) : Option (Token × List Spot) := do
  let (handle, suffix, rest) ← tagParts? spots
  let ended := atGap rest || (inFlow && (rest.head?.map (·.char)) == some ',')
  if ended then return (.tag (String.ofList handle) suffix, rest) else none

/-! ## Directives -/

def isDigit (c : Char) : Bool := '0' ≤ c && c ≤ '9'

def versionNumber? (spots : List Spot) : Option (Nat × List Spot) :=
  let digits := (spots.takeWhile fun s => isDigit s.char).map (·.char)
  if digits.isEmpty || 9 < digits.length then none
  else some (digits.foldl (fun n d => 10 * n + (d.toNat - 48)) 0,
    spots.dropWhile fun s => isDigit s.char)

def versionDirective? (spots : List Spot) : Option (Token × List Spot) := do
  let (major, rest) ← versionNumber? (dropBlanks spots)
  match rest with
  | dot :: rest =>
    if dot.char == '.' then
      let (minor, rest) ← versionNumber? rest
      return (.versionDirective major minor, rest)
    else none
  | [] => none

def tagDirective? (spots : List Spot) : Option (Token × List Spot) := do
  let (handle, rest) ← handleFrom? (dropBlanks spots)
  if handle.length ≠ 1 ∧ handle.getLast? ≠ some '!' then none
  if !(rest.head?.any fun s => isBlank s.char) then none
  let (uri, rest) ← uriFrom true 0 [] (dropBlanks rest)
  if uri.isEmpty || !atGap rest then none
  return (.tagDirective (String.ofList handle) (beforeZero uri), rest)

def directive? (spots : List Spot) : Option (Token × List Spot) := do
  let (name, rest) := nameFrom spots
  if !atGap rest then none
  let (token, rest) ←
    if name = ['Y', 'A', 'M', 'L'] then versionDirective? rest
    else if name = ['T', 'A', 'G'] then tagDirective? rest
    else none
  let rest := dropBlanks rest
  let rest := match rest with
    | s :: _ => if s.char == '#' then rest.dropWhile (fun s => !isBreak s.char) else rest
    | [] => []
  if atLineEnd rest then return (token, rest.drop 1) else none

end AncillaRouting.Yaml
