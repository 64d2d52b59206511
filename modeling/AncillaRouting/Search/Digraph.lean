import AncillaRouting.Word
import Std.Data.HashMap

/-!
# Weighted directed graphs

A graph is given by its edges, node by node. The edges that leave a node are kept newest first. Nodes
and edges are numbered by words of 32 bits, and the last word numbers nothing, so a graph may be too
full for one more of them.
-/

namespace AncillaRouting

structure Digraph (ν : Type) [BEq ν] [Hashable ν] where
  edges : Std.HashMap ν (List (ν × Nat))
  /-- How many edges there are. -/
  size : Nat

namespace Digraph

variable {ν : Type} [BEq ν] [Hashable ν]

/-- The most nodes of a graph, and the most edges. -/
def capacity : Nat := 4294967295

def empty : Digraph ν := ⟨∅, 0⟩

/-- How many nodes there are. -/
def order (g : Digraph ν) : Nat := g.edges.size

def hasNode (g : Digraph ν) (v : ν) : Bool := g.edges.contains v

def edgesFrom (g : Digraph ν) (v : ν) : List (ν × Nat) := g.edges[v]?.getD []

def withNode (g : Digraph ν) (v : ν) : Digraph ν := { g with edges := g.edges.insertIfNew v [] }

def withEdge (g : Digraph ν) (v w : ν) (weight : Nat) : Digraph ν :=
  ⟨g.edges.insert v ((w, weight) :: g.edgesFrom v), g.size + 1⟩

def addNode (g : Digraph ν) (v : ν) : Except Fault (Digraph ν) :=
  if g.order < capacity then .ok (g.withNode v) else .error .nodeLimit

def addEdge (g : Digraph ν) (v w : ν) (weight : Nat) : Except Fault (Digraph ν) :=
  if g.size < capacity then .ok (g.withEdge v w weight) else .error .edgeLimit

variable [LawfulBEq ν] [LawfulHashable ν]

theorem edgesFrom_withEdge (g : Digraph ν) (v w u : ν) (weight : Nat) :
    (g.withEdge v w weight).edgesFrom u =
      if v == u then (w, weight) :: g.edgesFrom v else g.edgesFrom u := by
  simp only [withEdge, edgesFrom, Std.HashMap.getElem?_insert]
  split <;> simp

theorem edgesFrom_withNode (g : Digraph ν) (v u : ν) :
    (g.withNode v).edgesFrom u = g.edgesFrom u := by
  simp only [withNode, edgesFrom, Std.HashMap.getElem?_insertIfNew]
  split
  · next h =>
    have : g.edges[u]? = none := by
      rw [← eq_of_beq h.1]; exact Std.HashMap.getElem?_eq_none h.2
    simp [this]
  · rfl

theorem order_withNode (g : Digraph ν) (v : ν) :
    (g.withNode v).order = if g.hasNode v then g.order else g.order + 1 := by
  simp only [order, withNode, hasNode, Std.HashMap.size_insertIfNew, Std.HashMap.contains_iff_mem]

theorem order_withEdge {g : Digraph ν} {v : ν} (h : g.hasNode v = true) (w : ν) (weight : Nat) :
    (g.withEdge v w weight).order = g.order := by
  simp only [order, withEdge, Std.HashMap.size_insert]
  exact if_pos (Std.HashMap.contains_iff_mem.mp h)

end Digraph

end AncillaRouting
