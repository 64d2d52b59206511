import AncillaRouting.Word

/-!
# Cells and sides

A cell is a place on the grid. Rows grow downward, so the cell across the top side of `(r, c)` is
`(r - 1, c)`. Cells are ordered row by row.
-/

namespace AncillaRouting

inductive Side where
  | top
  | bottom
  | left
  | right
deriving DecidableEq, Repr

namespace Side

/-- The order in which the sides of a cell are visited everywhere. -/
def all : List Side := [top, bottom, left, right]

def opposite : Side → Side
  | top => bottom
  | bottom => top
  | left => right
  | right => left

def text : Side → String
  | top => "top"
  | bottom => "bottom"
  | left => "left"
  | right => "right"

theorem mem_all (s : Side) : s ∈ all := by cases s <;> decide

end Side

structure Cell where
  row : Int32
  col : Int32
deriving DecidableEq, Hashable, Repr

namespace Cell

def origin : Cell := ⟨0, 0⟩

def neighbour (c : Cell) : Side → Except Fault Cell
  | .top => (⟨·, c.col⟩) <$> Word.previous c.row
  | .bottom => (⟨·, c.col⟩) <$> Word.next c.row
  | .left => (⟨c.row, ·⟩) <$> Word.previous c.col
  | .right => (⟨c.row, ·⟩) <$> Word.next c.col

/-- The four cells around, in the order of `Side.all`. -/
def neighbours (c : Cell) : Except Fault (List Cell) := Side.all.mapM c.neighbour

/-- Manhattan distance, which must fit 32 bits. -/
def distance (a b : Cell) : Except Fault Nat :=
  Word.sum 32 (Word.gap a.row b.row) (Word.gap a.col b.col)

/-- The first side of `a` across which `b` lies. The sides after it are not looked at. -/
def sideTowards (a b : Cell) : Except Fault (Option Side) :=
  Side.all.findM? fun s => (· == b) <$> a.neighbour s

/-- Row by row, and within a row from left to right. -/
def compare (a b : Cell) : Ordering :=
  (Ord.compare a.row.toInt b.row.toInt).then (Ord.compare a.col.toInt b.col.toInt)

def before (a b : Cell) : Bool := a.compare b == .lt

def sorted (cells : List Cell) : List Cell := cells.mergeSort fun a b => a.compare b != .gt

def text (c : Cell) : String := s!"({c.row.toInt}, {c.col.toInt})"

end Cell

end AncillaRouting
