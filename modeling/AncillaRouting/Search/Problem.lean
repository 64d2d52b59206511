import AncillaRouting.Region

/-!
# Search problems

A query for a route, resolved against a slice: the cells that the route may use, and the cells
across the queried faces, at which it may start and end.
-/

namespace AncillaRouting

/-- What a route has to keep clear of. A free cell is always required; with `clearance`, also that
no cell next to it is covered by a patch other than the two that the route joins. -/
structure Terrain where
  slice : Slice
  participants : List PatchId
  clearance : Bool

namespace Terrain

/-- No patch but the participants covers a cell next to `c`. The sides after the first one with
such a patch are not looked at. -/
def hasClearance (t : Terrain) (c : Cell) : Except Fault Bool :=
  Side.all.allM fun side => do
    match t.slice.patchAt (← c.neighbour side) with
    | none => return true
    | some id => return t.participants.contains id

def isRoutable (t : Terrain) (c : Cell) : Except Fault Bool :=
  if t.slice.isFree c then
    if t.clearance then t.hasClearance c else .ok true
  else .ok false

def routableNeighbours (t : Terrain) (c : Cell) : Except Fault (List Cell) := do
  (← c.neighbours).filterM t.isRoutable

end Terrain

structure EntryPoint where
  cell : Cell
  anchor : FaceAnchor
deriving DecidableEq, Repr

/-- The routable cells across the faces of a patch that expose an operator, in the order of the
faces. A cell across several faces belongs to the first of them. -/
def Terrain.entries (t : Terrain) (p : Patch) (op : Pauli) : Except Fault (List EntryPoint) :=
  (p.faces op).foldlM (fun entries (cell, side) => do
    let anchor : FaceAnchor := ⟨p.id, op, cell, side⟩
    let entry ← anchor.entry
    if (← t.isRoutable entry) && !entries.any (·.cell == entry) then
      return entries ++ [⟨entry, anchor⟩]
    else return entries) []

structure SearchProblem where
  terrain : Terrain
  sources : List EntryPoint
  targets : List EntryPoint

namespace SearchProblem

def ofPatches (slice : Slice) (source : Patch) (sourceOp : Pauli) (target : Patch)
    (targetOp : Pauli) (clearance : Bool) : Except Fault SearchProblem := do
  let terrain : Terrain := ⟨slice, [source.id, target.id], clearance⟩
  return ⟨terrain, ← terrain.entries source sourceOp, ← terrain.entries target targetOp⟩

def slice (p : SearchProblem) : Slice := p.terrain.slice

def cellCost (p : SearchProblem) (c : Cell) : Nat := (p.slice.cost c).toNat

def isTarget (p : SearchProblem) (c : Cell) : Bool := p.targets.any (·.cell == c)

def anchorAt? (entries : List EntryPoint) (c : Cell) : Option FaceAnchor :=
  (entries.find? (·.cell == c)).map (·.anchor)

def finish (p : SearchProblem) (path : List Cell) : Except Fault (Option RoutingRegion) := do
  let some first := path.head? | return none
  let some last := path.getLast? | return none
  let some source := anchorAt? p.sources first | return none
  let some target := anchorAt? p.targets last | return none
  RoutingRegion.ofPath path source target

end SearchProblem

end AncillaRouting
