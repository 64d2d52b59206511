import AncillaRouting.Search.BestFirst

/-!
# What a search passes through

A search is a row of rounds, and the state in which a round begins tells what the round does. In a round a
candidate leaves the frontier, and unless it is dropped or ends the search, the edges out of its node are
followed one by one.
-/

namespace AncillaRouting

namespace SearchState

variable {ν : Type} [BEq ν] [Hashable ν]

/-- The candidate that leaves the frontier in the round that begins in `s`. -/
def first? (space : SearchSpace ν) (s : SearchState ν) : Option (Candidate ν) :=
  (s.frontier.pop? space.before).map (·.1)

/-- That candidate, if the edges out of its node are followed. -/
def expanded? (space : SearchSpace ν) (s : SearchState ν) : Option (Candidate ν) :=
  (s.first? space).filter fun c => !s.isStale c && !space.isGoal c.node

/-- In the round that begins in `s`, of the edges out of the node of `c` those of `todo` are left to follow, and
the others have led to the last state. -/
inductive Midway (space : SearchSpace ν) (s : SearchState ν) (c : Candidate ν) :
    List (ν × Nat) → SearchState ν → Prop where
  | begin {rest : Heap (Candidate ν)} {edges : List (ν × Nat)} (hp : s.frontier.pop? space.before = some (c, rest))
      (hc : s.expanded? space = some c) (he : space.edges c.node = .ok edges) :
      Midway space s c edges ⟨s.best, s.parent, rest⟩
  | follow {e : ν × Nat} {todo : List (ν × Nat)} {m m' : SearchState ν} (hm : Midway space s c (e :: todo) m)
      (h : relax space c.node c.cost m e = .ok m') : Midway space s c todo m'

/-- In the round that begins in `s` the candidate leaves the frontier at the cost at which its node is known. -/
def Current (space : SearchSpace ν) (s : SearchState ν) (c : Candidate ν) : Prop :=
  s.first? space = some c ∧ s.best[c.node]? = some c.cost

/-- The search is in the state `m` when the round that begins in `t` begins, or in the course of it. -/
def Amid (space : SearchSpace ν) (t m : SearchState ν) : Prop := m = t ∨ ∃ c todo, Midway space t c todo m

/-- The two states have the same cost and the same parent for the node. -/
def Agree (v : ν) (s m : SearchState ν) : Prop := m.best[v]? = s.best[v]? ∧ m.parent[v]? = s.parent[v]?

/-- What led from one state to the other was to push a candidate whose node was not known at as little. -/
def PushesLower (space : SearchSpace ν) (m m' : SearchState ν) : Prop :=
  ∃ c : Candidate ν, m'.frontier = m.frontier.push space.before c ∧ m'.best[c.node]? = some c.cost ∧
    ∀ b, m.best[c.node]? = some b → c.cost < b

/-- What the search returns if the round that begins in `s` is the last. -/
def outcome [LawfulBEq ν] [LawfulHashable ν] (space : SearchSpace ν) (s : SearchState ν) : Option (List ν) :=
  match round space s with
  | .ok (.reached goal t) => some (t.pathTo goal)
  | _ => none

/-- The states in which the rounds from `s` on begin. -/
def trace [LawfulBEq ν] [LawfulHashable ν] [Listed ν] (space : SearchSpace ν) (s : SearchState ν) :
    Except Fault (List (SearchState ν)) :=
  match _h : round space s with
  | .error f => .error f
  | .ok .exhausted => .ok [s]
  | .ok (.reached _ _) => .ok [s]
  | .ok (.open t) => (s :: ·) <$> trace space t
termination_by (unmet s.best, total s.best, s.frontier.size)
decreasing_by exact round_decreases _h

theorem trace_eq [LawfulBEq ν] [LawfulHashable ν] [Listed ν] (space : SearchSpace ν) (s : SearchState ν) : trace space s =
    match round space s with
    | .error f => .error f
    | .ok .exhausted => .ok [s]
    | .ok (.reached _ _) => .ok [s]
    | .ok (.open t) => (s :: ·) <$> trace space t := by
  rw [trace]
  split <;> (rename_i h; rw [h])

end SearchState

namespace SearchSpace

variable {ν : Type} [BEq ν] [Hashable ν] [LawfulBEq ν] [LawfulHashable ν] [Listed ν]

/-- The states in which the rounds of the search begin. -/
def trace (space : SearchSpace ν) : Except Fault (List (SearchState ν)) := do
  (← SearchState.start space).trace space

/-- The candidates whose edges are followed, in the order in which they are. -/
def expansions (space : SearchSpace ν) : Except Fault (List (Candidate ν)) :=
  (·.filterMap (·.expanded? space)) <$> space.trace

end SearchSpace

end AncillaRouting
