import AncillaRouting.Slice.Basic

/-!
# Routing regions

A routing region is a chain of cells that joins a face of one patch to a face of another. Every
cell knows the two sides on which it is joined, to its neighbours in the chain or to the patches at
the ends.
-/

namespace AncillaRouting

structure FaceAnchor where
  patch : PatchId
  op : Pauli
  cell : Cell
  side : Side
deriving DecidableEq, Repr

def FaceAnchor.entry (a : FaceAnchor) : Except Fault Cell := a.cell.neighbour a.side

structure RoutingCell where
  cell : Cell
  connections : List Side
deriving DecidableEq, Repr

structure RoutingRegion where
  cells : List RoutingCell
  source : FaceAnchor
  target : FaceAnchor
deriving DecidableEq, Repr

namespace RoutingRegion

/-- Joins the cells of a path, the first of which lies behind a cell already joined on side
`entrance`, and the last of which is left by side `exit`. There is no answer if two cells that
follow each other do not touch. -/
def joinFrom (entrance exit : Side) : Cell → List Cell → Except Fault (Option (List RoutingCell))
  | c, [] => .ok (some [⟨c, [entrance, exit]⟩])
  | c, d :: rest => do
    let some forth ← c.sideTowards d | return none
    let some back ← d.sideTowards c | return none
    let some cells ← joinFrom back exit d rest | return none
    return some (⟨c, [entrance, forth]⟩ :: cells)

/-- The region along a path that starts across the source face, ends across the target face and
takes one step at a time; there is none along any other path. -/
def ofPath (path : List Cell) (source target : FaceAnchor) :
    Except Fault (Option RoutingRegion) := do
  match path with
  | [] => return none
  | first :: rest =>
    if first != (← source.entry) then return none
    if (first :: rest).getLast (by simp) != (← target.entry) then return none
    let some cells ← joinFrom source.side.opposite target.side.opposite first rest | return none
    return some ⟨cells, source, target⟩

def path (r : RoutingRegion) : List Cell := r.cells.map (·.cell)

def length (r : RoutingRegion) : Nat := r.cells.length

def contains (r : RoutingRegion) (c : Cell) : Bool := r.cells.any (·.cell == c)

/-- What the cells of the region cost together, which must fit 64 bits. -/
def cost (r : RoutingRegion) (s : Slice) : Except Fault Nat :=
  r.path.foldlM (fun total c => Word.sum 64 total (s.cost c).toNat) 0

end RoutingRegion

end AncillaRouting
