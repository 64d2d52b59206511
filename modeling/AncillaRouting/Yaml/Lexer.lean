import AncillaRouting.Yaml.Block
import AncillaRouting.Yaml.Flow
import AncillaRouting.Yaml.Token

/-!
# From text to tokens

The lexer takes one token after another off the text. It knows the indentations of the block
collections around, and the places where a key may have begun: whether it was one shows only when
its colon is met, and its tokens are then put in front of it.
-/

namespace AncillaRouting.Yaml

structure KeyCandidate where
  position : Nat
  spot : Spot
  required : Bool

/-- A key lies on one line and takes at most 1024 octets of it. -/
def KeyCandidate.reaches (k : KeyCandidate) (s : Spot) : Bool :=
  k.spot.line == s.line && s.index ≤ k.spot.index + 1024

structure Lexer where
  tokens : Array Token
  /-- The indentation of the innermost block collection, and -1 outside of all. -/
  indent : Int
  outerIndents : List Int
  candidate : Option KeyCandidate
  outerCandidates : List (Option KeyCandidate)
  keyAllowed : Bool

namespace Lexer

def start : Lexer := ⟨#[], -1, [], none, [], true⟩

def inFlow (s : Lexer) : Bool := !s.outerCandidates.isEmpty

def emit (s : Lexer) (t : Token) : Lexer := { s with tokens := s.tokens.push t }

/-! ## Indentation -/

/-- Closes the block collections that are indented by more than `column`. -/
def closeTo (column : Int) (tokens : Array Token) (indent : Int) : List Int → Array Token × Int × List Int
  | [] => (tokens, indent, [])
  | outer :: rest =>
    if column < indent then closeTo column (tokens.push .blockEnd) outer rest
    else (tokens, indent, outer :: rest)

/-- Closes the block collections that end before a line indented by `column`. -/
def unindent (s : Lexer) (column : Int) : Lexer :=
  if s.inFlow then s
  else
    let (tokens, indent, outerIndents) := closeTo column s.tokens s.indent s.outerIndents
    { s with tokens, indent, outerIndents }

/-- Opens a block collection at `column`, before the token at `position`, unless one is open. -/
def indentTo (s : Lexer) (column : Nat) (position : Nat) (t : Token) : Lexer :=
  if s.inFlow || decide (column ≤ s.indent) then s
  else { s with
    tokens := s.tokens.insertIdxIfInBounds position t
    indent := column
    outerIndents := s.indent :: s.outerIndents }

/-! ## Keys -/

def dropCandidate (s : Lexer) : Option Lexer :=
  if s.candidate.any (·.required) then none else some { s with candidate := none }

def addCandidate (s : Lexer) (spot : Spot) : Option Lexer :=
  if s.keyAllowed then do
    let s ← s.dropCandidate
    return { s with
      candidate := some ⟨s.tokens.size, spot, !s.inFlow && decide (s.indent = spot.column)⟩ }
  else some s

/-! ## Tokens -/

def endBlocks (s : Lexer) : Option Lexer := do
  let s ← (s.unindent (-1)).dropCandidate
  return { s with keyAllowed := false }

def lexMarker (s : Lexer) (t : Token) : Option Lexer := do
  return (← s.endBlocks).emit t

def lexFlowStart (s : Lexer) (spot : Spot) (t : Token) : Option Lexer := do
  let s ← s.addCandidate spot
  return { s with
    tokens := s.tokens.push t
    candidate := none
    outerCandidates := s.candidate :: s.outerCandidates
    keyAllowed := true }

def lexFlowEnd (s : Lexer) (t : Token) : Option Lexer := do
  let s ← s.dropCandidate
  let (candidate, outerCandidates) := match s.outerCandidates with
    | c :: rest => (c, rest)
    | [] => (s.candidate, [])
  return { s with tokens := s.tokens.push t, candidate, outerCandidates, keyAllowed := false }

def lexFlowEntry (s : Lexer) : Option Lexer := do
  let s ← s.dropCandidate
  return { s with tokens := s.tokens.push .flowEntry, keyAllowed := true }

/-- The dash of a block sequence. In a flow collection it is left to the reader of the tokens. -/
def lexBlockEntry (s : Lexer) (spot : Spot) : Option Lexer := do
  if !s.inFlow && !s.keyAllowed then none
  let s := s.indentTo spot.column s.tokens.size .blockSequenceStart
  let s ← s.dropCandidate
  return { s with tokens := s.tokens.push .blockEntry, keyAllowed := true }

def lexKey (s : Lexer) (spot : Spot) : Option Lexer := do
  if !s.inFlow && !s.keyAllowed then none
  let s := s.indentTo spot.column s.tokens.size .blockMappingStart
  let s ← s.dropCandidate
  return { s with tokens := s.tokens.push .key, keyAllowed := !s.inFlow }

def lexKeyed (s : Lexer) (k : KeyCandidate) : Lexer :=
  let s := { s with tokens := s.tokens.insertIdxIfInBounds k.position .key, candidate := none }
  let s := s.indentTo k.spot.column k.position .blockMappingStart
  { s with tokens := s.tokens.push .value, keyAllowed := false }

def lexBareValue (s : Lexer) (spot : Spot) : Option Lexer := do
  if !s.inFlow && !s.keyAllowed then none
  let s := s.indentTo spot.column s.tokens.size .blockMappingStart
  return { s with tokens := s.tokens.push .value, keyAllowed := !s.inFlow }

def lexValue (s : Lexer) (spot : Spot) : Option Lexer :=
  match s.candidate with
  | some k =>
    if k.reaches spot then some (s.lexKeyed k)
    else if k.required then none
    else { s with candidate := none }.lexBareValue spot
  | none => s.lexBareValue spot

def lexContent (s : Lexer) (spot : Spot) (t : Token) : Option Lexer := do
  let s ← s.addCandidate spot
  return { s with tokens := s.tokens.push t, keyAllowed := false }

def lexPlain (s : Lexer) (spot : Spot) (rest : List Spot) : Option (Lexer × List Spot) := do
  let scalar ← plainScalar s.inFlow (s.indent + 1) .empty [] (spot :: rest)
  let s ← s.lexContent spot (.scalar (String.ofList scalar.text) .plain)
  return ({ s with keyAllowed := scalar.broken }, scalar.rest)

def lexBlockScalar (s : Lexer) (literal : Bool) (rest : List Spot) :
    Option (Lexer × List Spot) := do
  let s ← s.dropCandidate
  let (text, rest) ← blockScalar? literal s.indent rest
  let style : ScalarStyle := if literal then .literal else .folded
  return ({ s with tokens := s.tokens.push (.scalar (String.ofList text) style), keyAllowed := true },
    rest)

def lexQuoted (s : Lexer) (spot : Spot) (scalar : Option (List Char × List Spot)) :
    Option (Lexer × List Spot) := do
  let (text, rest) ← scalar
  return (← s.lexContent spot (.scalar (String.ofList text) .quoted), rest)

def isIndicator (c : Char) : Bool :=
  ['-', '?', ':', ',', '[', ']', '\x7b', '\x7d', '#', '&', '*', '!', '|', '>', '\x27', '\x22', '%', '@',
    '\x60'].contains c

def opensPlain (s : Lexer) (c : Char) : Bool :=
  (!isIndicator c && !isBlank c) || c == '-' || (!s.inFlow && (c == '?' || c == ':'))

def lexToken (s : Lexer) (spot : Spot) (rest : List Spot) : Option (Lexer × List Spot) := do
  let c := spot.char
  if spot.column = 0 && c == '%' then
    let (token, rest) ← directive? rest
    return (← s.lexMarker token, rest)
  else if atMarker '-' (spot :: rest) then return (← s.lexMarker .documentStart, rest.drop 2)
  else if atMarker '.' (spot :: rest) then return (← s.lexMarker .documentEnd, rest.drop 2)
  else if c == '[' then return (← s.lexFlowStart spot .flowSequenceStart, rest)
  else if c == '\x7b' then return (← s.lexFlowStart spot .flowMappingStart, rest)
  else if c == ']' then return (← s.lexFlowEnd .flowSequenceEnd, rest)
  else if c == '\x7d' then return (← s.lexFlowEnd .flowMappingEnd, rest)
  else if c == ',' then return (← s.lexFlowEntry, rest)
  else if c == '-' && atGap rest then return (← s.lexBlockEntry spot, rest)
  else if c == '?' && (s.inFlow || atGap rest) then return (← s.lexKey spot, rest)
  else if c == ':' && (s.inFlow || atGap rest) then return (← s.lexValue spot, rest)
  else if c == '*' then
    let (name, rest) ← anchorName? rest
    return (← s.lexContent spot (.alias name), rest)
  else if c == '&' then
    let (name, rest) ← anchorName? rest
    return (← s.lexContent spot (.anchor name), rest)
  else if c == '!' then
    let (token, rest) ← tagToken? s.inFlow (spot :: rest)
    return (← s.lexContent spot token, rest)
  else if c == '|' && !s.inFlow then s.lexBlockScalar true rest
  else if c == '>' && !s.inFlow then s.lexBlockScalar false rest
  else if c == '\x27' then s.lexQuoted spot (singleQuoted .empty [] rest)
  else if c == '\x22' then s.lexQuoted spot (doubleQuoted .no .empty [] rest)
  else if s.opensPlain c then s.lexPlain spot rest
  else none

/-- Skips blanks, comments, line breaks and byte order marks in front of lines. A tab is no blank where
a key may begin; outside of flow collections, one may begin on every new line. -/
def skipGap (inFlow keyAllowed inComment : Bool) : List Spot → Bool × List Spot
  | [] => (keyAllowed, [])
  | s :: rest =>
    if isBreak s.char then skipGap inFlow (keyAllowed || !inFlow) false rest
    else if inComment then skipGap inFlow keyAllowed true rest
    else if s.isOrderMark || s.char == ' ' || (s.char == '\t' && (inFlow || !keyAllowed)) then
      skipGap inFlow keyAllowed false rest
    else if s.char == '#' then skipGap inFlow keyAllowed true rest
    else (keyAllowed, s :: rest)

def lex (s : Lexer) (spots : List Spot) : (fuel : Nat) → Option (List Token)
  | 0 => none
  | fuel + 1 =>
    match skipGap s.inFlow s.keyAllowed false spots with
    | (_, []) => s.endBlocks.map (·.tokens.toList)
    | (keyAllowed, spot :: rest) =>
      match ({ s with keyAllowed }.unindent spot.column).lexToken spot rest with
      | none => none
      | some (s, rest) => lex s rest fuel

end Lexer

/-- The tokens of a text, if it has any form at all. Every token takes up a character, so there is
always enough fuel. -/
def tokens? (text : String) : Option (List Token) := do
  let spots ← place? text
  Lexer.start.lex spots (spots.length + 1)

end AncillaRouting.Yaml
