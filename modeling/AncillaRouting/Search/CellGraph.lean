import AncillaRouting.Search.BestFirst
import AncillaRouting.Search.Digraph
import AncillaRouting.Search.Problem
import AncillaRouting.Slice.Picture

/-!
# Search over an explicit graph

The free cells of the slice and two terminals are the nodes of a graph that is built before it is
searched. An edge costs what the cell it enters costs; the edges into the target terminal cost
nothing. The graph holds every free cell, whatever clearance the problem asks for, and it may run out
of numbers for them or for the edges. Candidates are compared by estimate alone, so ties are decided by
the order of the edges and of the heap.
-/

namespace AncillaRouting

inductive CellNode where
  | source
  | target
  | free (cell : Cell)
deriving DecidableEq, Hashable, Repr

namespace CellNode

def cell? : CellNode → Option Cell
  | free c => some c
  | _ => none

instance : Listed CellNode :=
  ⟨source :: target :: (Listed.list Cell).map free, fun
    | source => by simp
    | target => by simp
    | free c => by simp [Listed.mem_list]⟩

end CellNode

def Slice.freeCells (s : Slice) : List Cell := s.cells.filter s.isFree

namespace SearchProblem

open CellNode

/-- Adds the edges that leave a free cell. -/
def addSteps (s : Slice) (g : Digraph CellNode) (c : Cell) : Except Fault (Digraph CellNode) := do
  let steps := (← s.freeNeighbours c).filter fun d => g.hasNode (free d)
  steps.foldlM (fun g d => g.addEdge (free c) (free d) (s.cost d).toNat) g

def cellGraph (s : Slice) : Except Fault (Digraph CellNode) := do
  let nodes ← s.freeCells.foldlM (fun g c => g.addNode (free c)) .empty
  s.freeCells.foldlM (addSteps s) nodes

/-- Adds the terminals with their edges. There is no graph if an entry is not among the nodes. -/
def addTerminals (p : SearchProblem) (g : Digraph CellNode) : Except Fault (Option (Digraph CellNode)) := do
  let g ← (← g.addNode source).addNode target
  if (p.sources ++ p.targets).all fun e => g.hasNode (free e.cell) then
    let g ← p.sources.foldlM (fun g e => g.addEdge source (free e.cell) (p.cellCost e.cell)) g
    return some (← p.targets.foldlM (fun g e => g.addEdge (free e.cell) target 0) g)
  else return none

def graph? (p : SearchProblem) : Except Fault (Option (Digraph CellNode)) := do
  p.addTerminals (← cellGraph p.slice)

def terminals (g : Digraph CellNode) (add : Nat → Nat → Except Fault Nat) :
    SearchSpace CellNode where
  starts := [(source, 0)]
  isGoal v := v == target
  edges v := .ok (g.edgesFrom v)
  remaining _ := .ok 0
  add := add
  before a b := a.estimate < b.estimate

def graphPath? (p : SearchProblem) : Except Fault (Option (List Cell)) := do
  let some g ← p.graph? | return none
  let path ← (terminals g (Word.sum 64)).bestPath?
  return path.map (·.filterMap cell?)

end SearchProblem

end AncillaRouting
