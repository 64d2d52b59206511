import AncillaRouting.Json.Basic

/-!
# Reading JSON

A reader takes one character after another. It remembers what it is in the middle of and the
arrays and objects around that. The grammar is strict: no comments, no trailing commas, no blanks
other than space, tab and the two line ends, and nothing after the value.
-/

namespace AncillaRouting

namespace JsonReader

inductive Frame where
  | array (items : List Json)
  | member (members : List (CodePoints × Json)) (key : CodePoints)

inductive Escape where
  | no
  | begun
  | hex (digits value : Nat)

inductive Mode where
  | value
  /-- A value, or the end of an empty array. -/
  | firstItem
  | key (members : List (CodePoints × Json))
  | firstKey
  | colon (members : List (CodePoints × Json)) (key : CodePoints)
  /-- Inside a string; with `members`, of the key that follows them. -/
  | string (members : Option (List (CodePoints × Json))) (points : List Nat) (escape : Escape)
  /-- Inside a number or a name, read last character first. -/
  | word (read : List Char)
  | complete (v : Json)

structure State where
  mode : Mode
  frames : List Frame

def start : State := ⟨.value, []⟩

def isBlank (c : Char) : Bool := c == ' ' || c == '\t' || c == '\n' || c == '\r'

/-! ## Numbers and names -/

def isDigit (c : Char) : Bool := '0' ≤ c && c ≤ '9'

def afterDigits? (cs : List Char) : Option (List Char) :=
  match cs with
  | c :: rest => if isDigit c then some (rest.dropWhile isDigit) else none
  | [] => none

def isExponent : List Char → Bool
  | [] => true
  | e :: rest =>
    (e == 'e' || e == 'E') &&
      afterDigits? (match rest with
        | '+' :: ds => ds
        | '-' :: ds => ds
        | ds => ds) == some []

def isFractionExponent : List Char → Bool
  | '.' :: rest => match afterDigits? rest with
    | some rest => isExponent rest
    | none => false
  | rest => isExponent rest

/-- What follows the integer part of a number, which has no zero in front of other digits. -/
def afterInteger? : List Char → Option (List Char)
  | '0' :: rest => some rest
  | cs => afterDigits? cs

def natOfDigits (ds : List Char) : Nat := ds.foldl (fun n d => 10 * n + (d.toNat - 48)) 0

/-- The number with this literal. Minus zero is no integer. -/
def number? (literal : List Char) : Option Json :=
  let (negative, magnitude) := match literal with
    | '-' :: rest => (true, rest)
    | cs => (false, cs)
  match afterInteger? magnitude with
  | none => none
  | some [] =>
    let n := natOfDigits magnitude
    if negative then
      if n = 0 then some (.decimal literal) else some (.int (-n))
    else some (.int n)
  | some rest => if isFractionExponent rest then some (.decimal literal) else none

def word? (cs : List Char) : Option Json :=
  if cs = ['n', 'u', 'l', 'l'] then some .null
  else if cs = ['t', 'r', 'u', 'e'] then some (.bool true)
  else if cs = ['f', 'a', 'l', 's', 'e'] then some (.bool false)
  else number? cs

/-! ## Strings -/

def shortEscape? (c : Char) : Option Nat :=
  if c = '\x22' ∨ c = '\\' ∨ c = '/' then some c.toNat
  else if c = 'b' then some 0x08
  else if c = 'f' then some 0x0C
  else if c = 'n' then some 0x0A
  else if c = 'r' then some 0x0D
  else if c = 't' then some 0x09
  else none

/-- Adds an escaped code point, joined with the one before if the two are a surrogate pair. -/
def addUnit (unit : Nat) : List Nat → List Nat
  | [] => [unit]
  | last :: points =>
    if 0xD800 ≤ last ∧ last < 0xDC00 ∧ 0xDC00 ≤ unit ∧ unit < 0xE000 then
      (0x10000 + (last - 0xD800) * 0x400 + (unit - 0xDC00)) :: points
    else unit :: last :: points

/-! ## Characters -/

def closeString (points : List Nat) : Option (List (CodePoints × Json)) → Mode
  | none => .complete (.string points.reverse)
  | some members => .colon members points.reverse

def stepString (members : Option (List (CodePoints × Json))) (points : List Nat) (c : Char) :
    Escape → Option Mode
  | .no =>
    if c = '\x22' then some (closeString points members)
    else if c = '\\' then some (.string members points .begun)
    else if c.toNat < 0x20 then none
    else some (.string members (c.toNat :: points) .no)
  | .begun =>
    if c = 'u' then some (.string members points (.hex 0 0))
    else (shortEscape? c).map fun n => .string members (n :: points) .no
  | .hex digits value => do
    let value := 16 * value + (← Text.hexValue? c)
    if digits < 3 then return .string members points (.hex (digits + 1) value)
    else return .string members (addUnit value points) .no

def stepValue (frames : List Frame) (c : Char) : Option State :=
  if isBlank c then some ⟨.value, frames⟩
  else if c = '\x22' then some ⟨.string none [] .no, frames⟩
  else if c = '[' then some ⟨.firstItem, frames⟩
  else if c = '\x7b' then some ⟨.firstKey, frames⟩
  else some ⟨.word [c], frames⟩

def stepComplete (v : Json) (c : Char) : List Frame → Option State
  | [] => if isBlank c then some ⟨.complete v, []⟩ else none
  | .array items :: frames =>
    if isBlank c then some ⟨.complete v, .array items :: frames⟩
    else if c = ',' then some ⟨.value, .array (v :: items) :: frames⟩
    else if c = ']' then some ⟨.complete (.array (v :: items).reverse), frames⟩
    else none
  | .member members key :: frames =>
    if isBlank c then some ⟨.complete v, .member members key :: frames⟩
    else if c = ',' then some ⟨.key ((key, v) :: members), frames⟩
    else if c = '\x7d' then some ⟨.complete (.object ((key, v) :: members).reverse), frames⟩
    else none

def step (s : State) (c : Char) : Option State :=
  match s.mode with
  | .value => stepValue s.frames c
  | .firstItem =>
    if isBlank c then some s
    else if c = ']' then some ⟨.complete (.array []), s.frames⟩
    else stepValue (.array [] :: s.frames) c
  | .key members =>
    if isBlank c then some s
    else if c = '\x22' then some ⟨.string (some members) [] .no, s.frames⟩
    else none
  | .firstKey =>
    if isBlank c then some s
    else if c = '\x22' then some ⟨.string (some []) [] .no, s.frames⟩
    else if c = '\x7d' then some ⟨.complete (.object []), s.frames⟩
    else none
  | .colon members key =>
    if isBlank c then some s
    else if c = ':' then some ⟨.value, .member members key :: s.frames⟩
    else none
  | .string members points escape =>
    (stepString members points c escape).map fun mode => ⟨mode, s.frames⟩
  | .word read =>
    if isBlank c || c == ',' || c == ']' || c == '\x7d' then do
      stepComplete (← word? read.reverse) c s.frames
    else some ⟨.word (c :: read), s.frames⟩
  | .complete v => stepComplete v c s.frames

def finish (s : State) : Option Json :=
  match s.mode, s.frames with
  | .word read, [] => word? read.reverse
  | .complete v, [] => some v
  | _, _ => none

end JsonReader

def Json.ofText? (s : String) : Option Json :=
  (s.toList.foldlM JsonReader.step JsonReader.start).bind JsonReader.finish

end AncillaRouting
