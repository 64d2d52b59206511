import AncillaRouting.Word
import AncillaRouting.Search.Heap
import Std.Data.HashMap

/-!
# States of a best-first search

A search space is a graph that is looked at from its start nodes outward: every node has outgoing
edges with weights, a goal test, and an estimate of what is left to pay. The search keeps the
least cost at which it has met each node, the node from which it did so, and the candidates it has
still to visit.
-/

namespace AncillaRouting

/-- A node on the open list, met at `cost`, with its estimate of the whole way. -/
structure Candidate (ν : Type) where
  estimate : Nat
  cost : Nat
  node : ν
deriving DecidableEq, Repr

structure SearchSpace (ν : Type) where
  starts : List (ν × Nat)
  isGoal : ν → Bool
  /-- The edges that leave a node, in the order in which they are followed. -/
  edges : ν → Except Fault (List (ν × Nat))
  remaining : ν → Except Fault Nat
  /-- Addition of costs, which may have a limit. -/
  add : Nat → Nat → Except Fault Nat
  before : Candidate ν → Candidate ν → Bool

structure SearchState (ν : Type) [BEq ν] [Hashable ν] where
  best : Std.HashMap ν Nat
  parent : Std.HashMap ν ν
  frontier : Heap (Candidate ν)

namespace SearchState

variable {ν : Type} [BEq ν] [Hashable ν]

def empty : SearchState ν := ⟨∅, ∅, .empty⟩

def improves (s : SearchState ν) (v : ν) (cost : Nat) : Bool :=
  match s.best[v]? with
  | none => true
  | some b => cost < b

def isStale (s : SearchState ν) (c : Candidate ν) : Bool :=
  match s.best[c.node]? with
  | none => false
  | some b => b < c.cost

/-- The state in which `v` is known at `cost` and waits to be visited. -/
def meet (space : SearchSpace ν) (s : SearchState ν) (v : ν) (cost : Nat) :
    Except Fault (SearchState ν) := do
  let total ← space.add cost (← space.remaining v)
  let ⟨best, parent, frontier⟩ := s
  return ⟨best.insert v cost, parent, frontier.push space.before ⟨total, cost, v⟩⟩

/-- Follows one edge out of `u`, which was met at `cost`. An edge that leads to a node no cheaper
than known changes nothing. -/
def relax (space : SearchSpace ν) (u : ν) (cost : Nat) (s : SearchState ν) (edge : ν × Nat) :
    Except Fault (SearchState ν) := do
  let reached ← space.add cost edge.2
  if s.improves edge.1 reached then
    let ⟨best, parent, frontier⟩ := s
    meet space ⟨best, parent.insert edge.1 u, frontier⟩ edge.1 reached
  else return s

def expand (space : SearchSpace ν) (s : SearchState ν) (c : Candidate ν) :
    Except Fault (SearchState ν) := do
  (← space.edges c.node).foldlM (relax space c.node c.cost) s

def start (space : SearchSpace ν) : Except Fault (SearchState ν) :=
  space.starts.foldlM (fun s v => s.meet space v.1 v.2) empty

end SearchState

end AncillaRouting
