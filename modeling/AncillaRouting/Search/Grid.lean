import AncillaRouting.Search.BestFirst
import AncillaRouting.Search.Problem

/-!
# Search over the grid

The cells of the slice are the nodes; entering a cell costs what the cell costs. Candidates are
visited by estimate, then by cost, then in the order of cells, so that no two are ever tied.
-/

namespace AncillaRouting

def Candidate.gridBefore (a b : Candidate Cell) : Bool :=
  ((compare a.estimate b.estimate).then
    ((compare a.cost b.cost).then (a.node.compare b.node))) == .lt

namespace SearchProblem

def grid (p : SearchProblem) (add : Nat → Nat → Except Fault Nat)
    (remaining : Cell → Except Fault Nat) : SearchSpace Cell where
  starts := p.sources.map fun e => (e.cell, p.cellCost e.cell)
  isGoal := p.isTarget
  edges c := (·.map fun d => (d, p.cellCost d)) <$> p.terrain.routableNeighbours c
  remaining := remaining
  add := add
  before := Candidate.gridBefore

/-- The distance to the nearest target entry: no route from a cell can be cheaper, because no cell
costs less than 1. -/
def nearestTarget (p : SearchProblem) (c : Cell) : Except Fault Nat := do
  return (← p.targets.mapM fun e => c.distance e.cell).min?.getD 0

def dijkstraPath? (p : SearchProblem) : Except Fault (Option (List Cell)) :=
  (p.grid (Word.sum 64) fun _ => .ok 0).bestPath?

def astarPath? (p : SearchProblem) : Except Fault (Option (List Cell)) :=
  (p.grid (Word.sum 64) p.nearestTarget).bestPath?

end SearchProblem

end AncillaRouting
