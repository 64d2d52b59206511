import AncillaRouting.Slice.History

/-!
# Boards

A board is what a slice stands for: the placed patches in order and what each cell costs. It keeps no
occupancy; which patch covers a cell is read off the patches.
-/

namespace AncillaRouting

structure Board where
  rows : UInt32
  cols : UInt32
  patches : List Patch
  cost : Cell → UInt32

namespace Board

def empty (rows cols : UInt32) : Board := ⟨rows, cols, [], fun _ => 1⟩

def inBounds (b : Board) (c : Cell) : Bool :=
  decide (0 ≤ c.row.toInt ∧ c.row.toInt < b.rows.toNat ∧ 0 ≤ c.col.toInt ∧ c.col.toInt < b.cols.toNat)

def patchAt (b : Board) (c : Cell) : Option PatchId := (b.patches.find? (·.covers c)).map (·.id)

/-- Why a patch may not lie on a cell. -/
def objection (b : Board) (c : Cell) : Option SliceError :=
  if b.inBounds c then (b.patchAt c).map (.cellOccupied c) else some (.cellOutOfBounds c b.rows b.cols)

def place (b : Board) (p : Patch) : Except SliceError Board :=
  if p.cells = [] then .error (.emptyPatch p.id)
  else if p.id ∈ b.patches.map (·.id) then .error (.duplicatePatch p.id)
  else
    match p.cells.findSome? (b.objection ·.cell) with
    | some e => .error e
    | none => .ok { b with patches := b.patches ++ [p] }

def remove (b : Board) (id : PatchId) : Except SliceError (Patch × Board) :=
  match b.patches.find? (·.id == id) with
  | some p => .ok (p, { b with patches := b.patches.filter (·.id != id) })
  | none => .error (.patchNotFound id)

def setCost (b : Board) (c : Cell) (cost : UInt32) : Except SliceError Board :=
  if b.inBounds c then .ok { b with cost := fun d => if d = c then max cost 1 else b.cost d }
  else .error (.cellOutOfBounds c b.rows b.cols)

def perform (b : Board) : Edit → Board
  | .place p => (b.place p).toOption.getD b
  | .remove id => ((b.remove id).toOption.map (·.2)).getD b
  | .setCost c cost => (b.setCost c cost).toOption.getD b

def performAll (b : Board) (edits : List Edit) : Board := edits.foldl perform b

end Board

def Slice.board (s : Slice) : Board := ⟨s.rows, s.cols, s.patches, s.cost⟩

end AncillaRouting
