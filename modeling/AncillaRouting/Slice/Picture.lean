import AncillaRouting.Slice.Basic
import AncillaRouting.Text.Character

/-!
# Slices row by row

The listing of the cells and the picture of a slice. Both name rows and columns by coordinates, so an
axis with more places than there are coordinates from zero upward is listed as empty. The picture has
a line for every row: a dot for a cell that no patch covers, and for the others the last digit of the
patch's number in base 36.
-/

namespace AncillaRouting.Slice

/-- How many places of an axis are listed. -/
def listed (size : UInt32) : Nat := if size.toNat < 2147483648 then size.toNat else 0

def cellAt (row col : Nat) : Cell := ⟨Int32.ofNat row, Int32.ofNat col⟩

def cells (s : Slice) : List Cell :=
  (List.range (listed s.rows)).flatMap fun r => (List.range (listed s.cols)).map (cellAt r)

/-- The cell at a place of the listing, without the cells before it. -/
def nthCell? (s : Slice) (i : Nat) : Option Cell :=
  if i < listed s.rows * listed s.cols then
    some (cellAt (i / listed s.cols) (i % listed s.cols))
  else none

def setNthCost (s : Slice) (cost : UInt32) (i : Nat) : Except SliceError Slice :=
  match s.nthCell? i with
  | some c => s.setCost c cost
  | none => .ok s

/-- Gives costs to the cells in the order of the listing, until either list ends. -/
def setCosts (s : Slice) (costs : List UInt32) : Except SliceError Slice :=
  costs.zipIdx.foldlM (fun s x => s.setNthCost x.1 x.2) s

/-- How many cells are given a cost. -/
def reach (s : Slice) (costs : List UInt32) : Nat :=
  min costs.length (listed s.rows * listed s.cols)

/-! ## The picture -/

def glyph : Option PatchId → Char
  | none => '.'
  | some id => Text.digit (id.number.toNat % 36)

def line (s : Slice) (row : Nat) : List Char :=
  (List.range (listed s.cols)).map fun col => glyph (s.patchAt (cellAt row col))

def picture (s : Slice) : String :=
  String.ofList ((List.range (listed s.rows)).flatMap fun row => s.line row ++ ['\n'])

end AncillaRouting.Slice
