import AncillaRouting.Patch
import Std.Data.HashMap

/-!
# Slices

A slice is the grid at one time step: the patches in the order in which they were placed, which
patch covers which cell, and what it costs a route to use a cell. A patch is placed as a whole or
not at all, and costs outlive the patches on their cells.
-/

namespace AncillaRouting

/-- Why a slice refuses. -/
inductive SliceError where
  | patchNotFound (id : PatchId)
  | cellOutOfBounds (cell : Cell) (rows cols : UInt32)
  | cellOccupied (cell : Cell) (occupant : PatchId)
  | duplicatePatch (id : PatchId)
  | emptyPatch (id : PatchId)
deriving DecidableEq, Repr

def SliceError.message : SliceError → String
  | .patchNotFound id => s!"Patch {id.text} not found in slice"
  | .cellOutOfBounds cell rows cols =>
    s!"Cell {cell.text} is outside the {rows.toNat}x{cols.toNat} slice"
  | .cellOccupied cell occupant =>
    s!"Cell {cell.text} is already occupied by patch {occupant.text}"
  | .duplicatePatch id => s!"Patch {id.text} is already placed in slice"
  | .emptyPatch id => s!"Patch {id.text} has no cells"

structure Slice where
  rows : UInt32
  cols : UInt32
  patches : List Patch
  occupancy : Std.HashMap Cell PatchId
  costs : Std.HashMap Cell UInt32

namespace Slice

def empty (rows cols : UInt32) : Slice := ⟨rows, cols, [], ∅, ∅⟩

def inBounds (s : Slice) (c : Cell) : Bool :=
  decide (0 ≤ c.row.toInt) && decide (0 ≤ c.col.toInt) &&
    decide (c.row.toInt < s.rows.toNat) && decide (c.col.toInt < s.cols.toNat)

def patchAt (s : Slice) (c : Cell) : Option PatchId := s.occupancy[c]?

def isFree (s : Slice) (c : Cell) : Bool := s.inBounds c && !s.occupancy.contains c

def freeNeighbours (s : Slice) (c : Cell) : Except Fault (List Cell) :=
  (·.filter s.isFree) <$> c.neighbours

def getPatch (s : Slice) (id : PatchId) : Except SliceError Patch :=
  match s.patches.find? (·.id == id) with
  | some p => .ok p
  | none => .error (.patchNotFound id)

def cost (s : Slice) (c : Cell) : UInt32 := s.costs[c]?.getD 1

def checkBounds (s : Slice) (c : Cell) : Except SliceError Unit :=
  if s.inBounds c then .ok () else .error (.cellOutOfBounds c s.rows s.cols)

def checkFree (s : Slice) (c : Cell) : Except SliceError Unit := do
  s.checkBounds c
  match s.patchAt c with
  | some occupant => .error (.cellOccupied c occupant)
  | none => .ok ()

/-- The slice with one more patch. Of several reasons against it, the first in this order is given:
no cell, its id in use, the first of its cells that is off the grid or covered. -/
def place (s : Slice) (p : Patch) : Except SliceError Slice :=
  if p.cells.isEmpty then .error (.emptyPatch p.id)
  else if s.patches.any (·.id == p.id) then .error (.duplicatePatch p.id)
  else do
    p.cells.forM fun c => s.checkFree c.cell
    return { s with
      patches := s.patches ++ [p]
      occupancy := p.cells.foldl (fun m c => m.insert c.cell p.id) s.occupancy }

def remove (s : Slice) (id : PatchId) : Except SliceError (Patch × Slice) := do
  let p ← s.getPatch id
  return (p, { s with
    patches := s.patches.eraseP (·.id == id)
    occupancy := p.cells.foldl (fun m c => m.erase c.cell) s.occupancy })

/-- No cell is free of charge: a cost of 0 counts as 1. -/
def setCost (s : Slice) (c : Cell) (cost : UInt32) : Except SliceError Slice := do
  s.checkBounds c
  return { s with costs := s.costs.insert c (max cost 1) }

end Slice

end AncillaRouting
