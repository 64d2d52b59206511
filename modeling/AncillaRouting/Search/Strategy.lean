import AncillaRouting.Search.CellGraph
import AncillaRouting.Search.Grid
import AncillaRouting.Text.Character

/-!
# Search strategies

Three ways to find a cheapest route. The one that searches an explicit graph knows no clearance.
-/

namespace AncillaRouting

inductive SearchStrategy where
  | graph
  | dijkstra
  | astar
deriving DecidableEq, Repr

namespace SearchStrategy

def all : List SearchStrategy := [graph, dijkstra, astar]

def default : SearchStrategy := dijkstra

def text : SearchStrategy → String
  | graph => "petgraph"
  | dijkstra => "dijkstra"
  | astar => "astar"

/-- Whether extended routing, which keeps clearance, is possible. -/
def supportsEdpc : SearchStrategy → Bool
  | graph => false
  | dijkstra | astar => true

/-- The strategy that a keyword names, in any ASCII case and with blanks around it. -/
def ofText? (s : String) : Option SearchStrategy :=
  match Text.keyword s with
  | "petgraph" | "boost" => some graph
  | "dijkstra" | "djikstra" => some dijkstra
  | "astar" | "a*" => some astar
  | _ => none

def path? (p : SearchProblem) : SearchStrategy → Except Fault (Option (List Cell))
  | graph => p.graphPath?
  | dijkstra => p.dijkstraPath?
  | astar => p.astarPath?

end SearchStrategy

/-- The region that a strategy finds. Nothing is searched if one of the ends has no entry. -/
def SearchProblem.solve (p : SearchProblem) (strategy : SearchStrategy) :
    Except Fault (Option RoutingRegion) := do
  if p.sources.isEmpty || p.targets.isEmpty then return none
  let some path ← strategy.path? p | return none
  p.finish path

end AncillaRouting
