import AncillaRouting.Search.Problem

/-!
# Walks and routes

A walk goes through routable cells, each of which shares a side with the next. A route of a search
problem is a walk from a source entry to a target entry. What a path costs is the sum over its
cells, both ends included.
-/

namespace AncillaRouting

def Cell.Adjacent (c d : Cell) : Prop := ∃ side, c.neighbour side = .ok d

namespace Terrain

def Routable (t : Terrain) (c : Cell) : Prop := t.isRoutable c = .ok true

/-- The list holds the cells of a walk from its first cell to its last. -/
inductive Walk (t : Terrain) : Cell → Cell → List Cell → Prop where
  | single {c : Cell} (hc : t.Routable c) : Walk t c c [c]
  | cons {c d e : Cell} {path : List Cell} (hc : t.Routable c) (hcd : c.Adjacent d)
      (w : Walk t d e path) : Walk t c e (c :: path)

theorem Walk.routable {t : Terrain} {c d : Cell} {path : List Cell} (w : t.Walk c d path) :
    ∀ e ∈ path, t.Routable e := by
  induction w with
  | single hc => simpa using hc
  | cons hc _ _ ih => simpa using ⟨hc, ih⟩

theorem Walk.ne_nil {t : Terrain} {c d : Cell} {path : List Cell} (w : t.Walk c d path) :
    path ≠ [] := by
  cases w <;> simp

end Terrain

def Slice.pathCost (s : Slice) (path : List Cell) : Nat :=
  path.foldr (fun c total => (s.cost c).toNat + total) 0

namespace SearchProblem

/-- The path is a walk from a source entry to a target entry. -/
def IsRoute (p : SearchProblem) (path : List Cell) : Prop :=
  ∃ a ∈ p.sources, ∃ b ∈ p.targets, p.terrain.Walk a.cell b.cell path

/-- No route costs less than `path`. -/
def IsCheapest (p : SearchProblem) (path : List Cell) : Prop :=
  p.IsRoute path ∧ ∀ other, p.IsRoute other → p.slice.pathCost path ≤ p.slice.pathCost other

end SearchProblem

end AncillaRouting
