import AncillaRouting.Proofs.HeapOrder
import AncillaRouting.Search.State

/-!
# Trails through a search space

What a search space means apart from any search: the trails that lead from a start node, what they
cost, and the conditions under which a search over the space is exact, never faults, and may trust
its estimates.
-/

namespace AncillaRouting.SearchSpace

variable {ν : Type} {space : SearchSpace ν}

def Edge (space : SearchSpace ν) (u v : ν) (w : Nat) : Prop :=
  ∃ edges, space.edges u = .ok edges ∧ (v, w) ∈ edges

/-- The list holds the nodes of a way from a start node to `v`, last node first, and `k` is its cost. -/
inductive Trail (space : SearchSpace ν) : ν → List ν → Nat → Prop where
  | start {v : ν} {k : Nat} (h : (v, k) ∈ space.starts) : Trail space v [v] k
  | step {u v : ν} {nodes : List ν} {k w : Nat} (t : Trail space u nodes k) (e : space.Edge u v w) :
      Trail space v (v :: nodes) (k + w)

/-- There is a way from `u` that costs so much beyond `u`. -/
inductive Onward (space : SearchSpace ν) (u : ν) : ν → Nat → Prop where
  | refl : Onward space u u 0
  | step {v x : ν} {k w : Nat} (o : Onward space u v k) (e : space.Edge v x w) : Onward space u x (k + w)

/-- Sums are exact, start nodes have one cost each, only an edge into a goal may be free of charge,
and a candidate with a greater estimate never goes first. -/
structure Lawful (space : SearchSpace ν) : Prop where
  add_eq : ∀ {a b c}, space.add a b = .ok c → c = a + b
  starts_eq : ∀ {v j k}, (v, j) ∈ space.starts → (v, k) ∈ space.starts → j = k
  toll : ∀ {u v w}, space.Edge u v w → 0 < w ∨ space.isGoal v = true
  order : Heap.StrictWeak space.before
  estimate_le : ∀ {a b}, space.before b a = false → a.estimate ≤ b.estimate

/-- No estimate is too high at a node that a trail leads to. -/
def Admissible (space : SearchSpace ν) : Prop :=
  ∀ {u nodes j v k h}, space.Trail u nodes j → space.remaining u = .ok h → space.Onward u v k →
    space.isGoal v = true → h ≤ k

/-- Nothing faults at the end of a trail that visits no node twice. -/
structure Safe (space : SearchSpace ν) : Prop where
  meets : ∀ {v nodes k}, space.Trail v nodes k → nodes.Nodup →
    ∃ h total, space.remaining v = .ok h ∧ space.add k h = .ok total
  leaves : ∀ {v nodes k}, space.Trail v nodes k → nodes.Nodup →
    ∃ edges, space.edges v = .ok edges ∧ ∀ e ∈ edges, ∃ total, space.add k e.2 = .ok total

theorem Trail.head {v : ν} {nodes : List ν} {k : Nat} (t : space.Trail v nodes k) :
    ∃ rest, nodes = v :: rest := by
  cases t with
  | start h => exact ⟨[], rfl⟩
  | step t e => exact ⟨_, rfl⟩

theorem Trail.mem {v : ν} {nodes : List ν} {k : Nat} (t : space.Trail v nodes k) : v ∈ nodes := by
  obtain ⟨rest, rfl⟩ := t.head
  exact List.mem_cons_self ..

end AncillaRouting.SearchSpace
