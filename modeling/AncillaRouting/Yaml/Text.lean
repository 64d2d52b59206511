/-!
# YAML text, placed

A text is read as a list of characters that know where they stand. Carriage returns, line feeds,
both together and the next-line control are one line break, kept as a line feed; the line and
paragraph separators are line breaks too, and stay what they are.
-/

namespace AncillaRouting.Yaml

structure Spot where
  char : Char
  line : Nat
  column : Nat
  /-- How many octets of UTF-8 stand before this character in the text. -/
  index : Nat
deriving DecidableEq, Repr

def isPrintable (c : Char) : Bool :=
  let n := c.toNat
  n == 0x09 || n == 0x0A || n == 0x0D || (0x20 ≤ n && n ≤ 0x7E) || n == 0x85 ||
    (0xA0 ≤ n && n ≤ 0xFFFD) || 0x10000 ≤ n

def isBlank (c : Char) : Bool := c == ' ' || c == '\t'

def isBreak (c : Char) : Bool := c == '\n' || c == '\u2028' || c == '\u2029'

/-- A byte order mark in front of a line, where it means nothing but takes up a column. -/
def Spot.isOrderMark (s : Spot) : Bool := s.char == '\ufeff' && s.column == 0

def placeFrom (line column index : Nat) : List Char → List Spot
  | [] => []
  | '\r' :: '\n' :: rest => ⟨'\n', line, column, index⟩ :: placeFrom (line + 1) 0 (index + 2) rest
  | c :: rest =>
    let next := index + c.utf8Size
    let c := if c == '\r' || c == '\u0085' then '\n' else c
    ⟨c, line, column, index⟩ ::
      if isBreak c then placeFrom (line + 1) 0 next rest else placeFrom line (column + 1) next rest

def place? (text : String) : Option (List Spot) :=
  let cs := text.toList
  if cs.all isPrintable then some (placeFrom 0 0 0 cs) else none

def atGap : List Spot → Bool
  | [] => true
  | s :: _ => isBlank s.char || isBreak s.char

def atLineEnd : List Spot → Bool
  | [] => true
  | s :: _ => isBreak s.char

def dropBlanks (spots : List Spot) : List Spot := spots.dropWhile fun s => isBlank s.char

/-- Whether the next line begins with three of `c` and a gap, and so with a document marker. -/
def atMarker (c : Char) : List Spot → Bool
  | a :: b :: d :: rest =>
    a.column == 0 && a.char == c && b.char == c && d.char == c && atGap rest
  | _ => false

end AncillaRouting.Yaml
