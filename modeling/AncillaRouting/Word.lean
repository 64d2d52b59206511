/-!
# Machine words

Grid coordinates are signed 32-bit words; distances and route costs are natural numbers that must
fit an unsigned word. Arithmetic that leaves the word is a fault and never wraps. A fault says why a
computation has no value.
-/

namespace AncillaRouting

inductive Fault where
  | additionOverflow
  | subtractionOverflow
  | indexOutOfBounds (size index : Nat)
  | nodeLimit
  | edgeLimit
deriving DecidableEq, Repr

def Fault.message : Fault → String
  | .additionOverflow => "attempt to add with overflow"
  | .subtractionOverflow => "attempt to subtract with overflow"
  | .indexOutOfBounds size index =>
    s!"index out of bounds: the len is {size} but the index is {index}"
  | .nodeLimit => "the graph is at the maximum number of nodes for its index type"
  | .edgeLimit => "the graph is at the maximum number of edges for its index type"

namespace Word

/-- The next coordinate. The largest has none. -/
def next (i : Int32) : Except Fault Int32 :=
  if i = Int32.maxValue then .error .additionOverflow else .ok (i + 1)

/-- The coordinate before. The smallest has none. -/
def previous (i : Int32) : Except Fault Int32 :=
  if i = Int32.minValue then .error .subtractionOverflow else .ok (i - 1)

def gap (i j : Int32) : Nat := (i.toInt - j.toInt).natAbs

/-- The sum of two numbers, as long as it fits an unsigned word of `bits` bits. -/
def sum (bits a b : Nat) : Except Fault Nat :=
  if a + b < 1 <<< bits then .ok (a + b) else .error .additionOverflow

theorem sum_eq_ok {bits a b : Nat} (h : a + b < 1 <<< bits) : sum bits a b = .ok (a + b) :=
  if_pos h

theorem next_eq_ok {i : Int32} (h : i ≠ Int32.maxValue) : next i = .ok (i + 1) := by
  simp [next, h]

theorem previous_eq_ok {i : Int32} (h : i ≠ Int32.minValue) : previous i = .ok (i - 1) := by
  simp [previous, h]

end Word

end AncillaRouting
