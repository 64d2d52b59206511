import AncillaRouting.Text.Character
import AncillaRouting.Yaml.Text

/-!
# Flow scalars

Plain and quoted scalars are folded. Between two words of one there are blanks, or line breaks with
blanks around them. Blanks alone stay. One line feed becomes a space; of several, the first one is
dropped; a separator stays. After an escaped line break nothing is dropped.
-/

namespace AncillaRouting.Yaml

/-! ## Gaps between words -/

structure Gap where
  blanks : List Char
  breaks : List Char
  broken : Bool
  escaped : Bool

namespace Gap

def empty : Gap := ⟨[], [], false, false⟩

def continued : Gap := ⟨[], [], true, true⟩

def isEmpty (g : Gap) : Bool := g.blanks.isEmpty && !g.broken

def addBlank (g : Gap) (c : Char) : Gap := if g.broken then g else { g with blanks := c :: g.blanks }

def addBreak (g : Gap) (c : Char) : Gap := ⟨[], c :: g.breaks, true, g.escaped⟩

def text (g : Gap) : List Char :=
  if !g.broken then g.blanks.reverse
  else if g.escaped then g.breaks.reverse
  else match g.breaks.reverse with
    | ['\n'] => [' ']
    | '\n' :: more => more
    | breaks => breaks

def onto (g : Gap) (read : List Char) : List Char := g.text.reverse ++ read

end Gap

/-!
## Plain scalars

A plain scalar ends before a colon that is followed by a gap, before a comment, at a document
marker, and, in a flow collection, before an indicator of flow collections. Outside, it also ends
where a line is indented less than its contents.
-/

structure PlainScalar where
  text : List Char
  rest : List Spot
  broken : Bool

def isFlowIndicator (c : Char) : Bool :=
  c == ',' || c == '[' || c == ']' || c == '\x7b' || c == '\x7d'

/-- A colon that a flow indicator follows, which is an error in a flow collection. -/
def isStrayColon (s : Spot) (rest : List Spot) : Bool :=
  s.char == ':' && match rest with
    | t :: _ => isFlowIndicator t.char || t.char == '?'
    | [] => false

/-- Whether a plain scalar ends before `s`, which is neither a blank nor a line break. -/
def plainEnds (inFlow : Bool) (indent : Int) (gap : Gap) (s : Spot) (rest : List Spot) : Bool :=
  (!gap.isEmpty && ((!inFlow && decide (s.column < indent)) || s.char == '#')) ||
    atMarker '-' (s :: rest) || atMarker '.' (s :: rest) ||
    (s.char == ':' && atGap rest) || (inFlow && isFlowIndicator s.char)

/-- The plain scalar from here on. Lines that continue it must be indented by `indent`. -/
def plainScalar (inFlow : Bool) (indent : Int) (gap : Gap) (read : List Char) :
    List Spot → Option PlainScalar
  | [] => some ⟨read.reverse, [], gap.broken⟩
  | s :: rest =>
    if isBlank s.char then
      if gap.broken && s.char == '\t' && decide (s.column < indent) then none
      else plainScalar inFlow indent (gap.addBlank s.char) read rest
    else if isBreak s.char then plainScalar inFlow indent (gap.addBreak s.char) read rest
    else if inFlow && isStrayColon s rest then none
    else if plainEnds inFlow indent gap s rest then
      some ⟨read.reverse, s :: rest, gap.broken⟩
    else plainScalar inFlow indent .empty (s.char :: gap.onto read) rest

/-!
## Quoted scalars

Between single quotes a quote is written twice and nothing else is special. Between double quotes a
backslash begins an escape. Both may go over several lines, none of which may begin with a
document marker.
-/

def singleQuoted (gap : Gap) (read : List Char) : List Spot → Option (List Char × List Spot)
  | [] => none
  | s :: rest =>
    if isBlank s.char then singleQuoted (gap.addBlank s.char) read rest
    else if isBreak s.char then singleQuoted (gap.addBreak s.char) read rest
    else if atMarker '-' (s :: rest) || atMarker '.' (s :: rest) then none
    else if s.char == '\x27' then
      match rest with
      | t :: rest =>
        if t.char == '\x27' then singleQuoted .empty ('\x27' :: gap.onto read) rest
        else some ((gap.onto read).reverse, t :: rest)
      | [] => some ((gap.onto read).reverse, [])
    else singleQuoted .empty (s.char :: gap.onto read) rest

def shortEscape? (c : Char) : Option Char :=
  if c == '0' then some '\x00'
  else if c == 'a' then some '\x07'
  else if c == 'b' then some '\x08'
  else if c == 't' || c == '\t' then some '\t'
  else if c == 'n' then some '\n'
  else if c == 'v' then some '\x0b'
  else if c == 'f' then some '\x0c'
  else if c == 'r' then some '\r'
  else if c == 'e' then some '\x1b'
  else if c == ' ' || c == '\x22' || c == '/' || c == '\\' then some c
  else if c == 'N' then some '\u0085'
  else if c == '_' then some '\u00a0'
  else if c == 'L' then some '\u2028'
  else if c == 'P' then some '\u2029'
  else none

def hexLength? (c : Char) : Option Nat :=
  if c == 'x' then some 2 else if c == 'u' then some 4 else if c == 'U' then some 8 else none

inductive Escape where
  | no
  | begun
  | hex (left value : Nat)

def doubleQuoted (escape : Escape) (gap : Gap) (read : List Char) :
    List Spot → Option (List Char × List Spot)
  | [] => none
  | s :: rest =>
    match escape with
    | .no =>
      if isBlank s.char then doubleQuoted .no (gap.addBlank s.char) read rest
      else if isBreak s.char then doubleQuoted .no (gap.addBreak s.char) read rest
      else if atMarker '-' (s :: rest) || atMarker '.' (s :: rest) then none
      else if s.char == '\x22' then some ((gap.onto read).reverse, rest)
      else if s.char == '\\' then doubleQuoted .begun .empty (gap.onto read) rest
      else doubleQuoted .no .empty (s.char :: gap.onto read) rest
    | .begun =>
      if isBreak s.char then doubleQuoted .no .continued read rest
      else match shortEscape? s.char, hexLength? s.char with
        | some c, _ => doubleQuoted .no .empty (c :: read) rest
        | none, some n => doubleQuoted (.hex n 0) .empty read rest
        | none, none => none
    | .hex left value =>
      match Text.hexValue? s.char with
      | none => none
      | some d =>
        if left ≤ 1 then
          match Text.char? (16 * value + d) with
          | some c => doubleQuoted .no .empty (c :: read) rest
          | none => none
        else doubleQuoted (.hex (left - 1) (16 * value + d)) .empty read rest

end AncillaRouting.Yaml
