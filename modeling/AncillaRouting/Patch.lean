import AncillaRouting.Cell
import AncillaRouting.Text.Character

/-!
# Patches

A patch is a named list of cells, each with the logical operator that it exposes on each of its sides.
-/

namespace AncillaRouting

inductive Pauli where
  | x
  | y
  | z
deriving DecidableEq, Hashable, Repr

structure InvalidPauli where
  text : String
deriving DecidableEq, Repr

def InvalidPauli.message (e : InvalidPauli) : String := s!"Invalid Pauli operator '{e.text}'"

namespace Pauli

def text : Pauli → String
  | x => "X"
  | y => "Y"
  | z => "Z"

/-- Reads one letter of either case, blanks around it aside. The error keeps what is left of the
text without those blanks. -/
def ofText (s : String) : Except InvalidPauli Pauli :=
  match Text.trim s with
  | "X" | "x" => .ok x
  | "Y" | "y" => .ok y
  | "Z" | "z" => .ok z
  | other => .error ⟨other⟩

end Pauli

structure PatchId where
  number : UInt32
deriving DecidableEq, Hashable, Repr

def PatchId.text (p : PatchId) : String := s!"p{p.number.toNat}"

/-- The operator on each side of a cell, if there is one: an edge shared with another cell of the
same patch, or an inactive boundary, has none. -/
structure Boundaries where
  top : Option Pauli
  bottom : Option Pauli
  left : Option Pauli
  right : Option Pauli
deriving DecidableEq, Repr

namespace Boundaries

def none : Boundaries := ⟨.none, .none, .none, .none⟩

/-- The standard square patch: X faces above and below, Z faces left and right. -/
def square : Boundaries := ⟨some .x, some .x, some .z, some .z⟩

def get (b : Boundaries) : Side → Option Pauli
  | .top => b.top
  | .bottom => b.bottom
  | .left => b.left
  | .right => b.right

def set (b : Boundaries) (side : Side) (op : Option Pauli) : Boundaries :=
  match side with
  | .top => { b with top := op }
  | .bottom => { b with bottom := op }
  | .left => { b with left := op }
  | .right => { b with right := op }

end Boundaries

structure PatchCell where
  cell : Cell
  boundaries : Boundaries
deriving DecidableEq, Repr

structure Patch where
  id : PatchId
  cells : List PatchCell
deriving DecidableEq, Repr

namespace Patch

def singleCell (id : PatchId) (cell : Cell) (boundaries : Boundaries) : Patch :=
  ⟨id, [⟨cell, boundaries⟩]⟩

def square (id : PatchId) (cell : Cell) : Patch := singleCell id cell .square

/-- The cell that stands for the patch: the first one listed. -/
def firstCell (p : Patch) : Except Fault Cell :=
  match p.cells with
  | [] => .error (.indexOutOfBounds 0 0)
  | c :: _ => .ok c.cell

def covers (p : Patch) (cell : Cell) : Bool := p.cells.any (·.cell == cell)

/-- The cell and side of every face that exposes `op`, cell by cell as they are listed. -/
def faces (p : Patch) (op : Pauli) : List (Cell × Side) :=
  p.cells.flatMap fun c =>
    (Side.all.filter (c.boundaries.get · == some op)).map fun side => (c.cell, side)

end Patch

end AncillaRouting
