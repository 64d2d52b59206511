import AncillaRouting.Search.Measure

/-!
# Best-first search

The candidate that goes first leaves the frontier. It is dropped if its node has been met at less;
it ends the search if its node is a goal; otherwise its edges are followed. The path is then read
off the parents, from the goal back to a node that has none.
-/

namespace AncillaRouting

namespace SearchState

variable {ν : Type} [BEq ν] [Hashable ν]

inductive Round (ν : Type) [BEq ν] [Hashable ν] where
  | exhausted
  | reached (goal : ν) (s : SearchState ν)
  | open (s : SearchState ν)

def round (space : SearchSpace ν) (s : SearchState ν) : Except Fault (Round ν) :=
  let ⟨best, parent, frontier⟩ := s
  match frontier.pop? space.before with
  | none => .ok .exhausted
  | some (c, frontier) =>
    let s : SearchState ν := ⟨best, parent, frontier⟩
    if s.isStale c then .ok (.open s)
    else if space.isGoal c.node then .ok (.reached c.node s)
    else .open <$> s.expand space c

variable [LawfulBEq ν]

/-- The nodes from `v` back along the parents. A parent is used once, so the walk ends. -/
def ancestry [LawfulHashable ν] (parent : Std.HashMap ν ν) (v : ν) : List ν :=
  match h : parent[v]? with
  | none => [v]
  | some u =>
    have : (parent.erase v).size < parent.size := by
      have hv : v ∈ parent := Std.HashMap.mem_iff_isSome_getElem?.2 (by simp [h])
      have hpos : parent.size ≠ 0 := fun h0 => by
        have he : parent.isEmpty = true := by simp [Std.HashMap.isEmpty_eq_size_eq_zero, h0]
        simp [Std.HashMap.getElem?_of_isEmpty he] at h
      rw [Std.HashMap.size_erase, if_pos hv]
      omega
    v :: ancestry (parent.erase v) u
termination_by parent.size

/-- The path that the parents record to `v`, start node first. -/
def pathTo [LawfulHashable ν] (s : SearchState ν) (v : ν) : List ν := (ancestry s.parent v).reverse

/-- The frontier has one candidate less, or some node is known to be cheaper. -/
theorem round_decreases [LawfulHashable ν] [Listed ν] {space : SearchSpace ν}
    {s s' : SearchState ν} (h : round space s = .ok (.open s')) :
    Prod.Lex (· < ·) (Prod.Lex (· < ·) (· < ·)) (unmet s'.best, total s'.best, s'.frontier.size)
      (unmet s.best, total s.best, s.frontier.size) := by
  obtain ⟨best, parent, frontier⟩ := s
  simp only [round] at h
  split at h
  · cases h
  · next c rest hpop =>
    have hsize := Heap.size_of_pop?_eq_some hpop
    split at h
    · cases h; exact .right _ (.right _ (by simpa using hsize ▸ Nat.lt_succ_self _))
    · split at h
      · cases h
      · cases he : expand space ⟨best, parent, rest⟩ c with
        | error f => rw [he] at h; cases h
        | ok t =>
          rw [he] at h
          cases h
          rcases expand_cheaper he with rfl | hc
          · exact .right _ (.right _ (by simpa using hsize ▸ Nat.lt_succ_self _))
          · simp only [Cheaper, Prod.lex_def] at hc ⊢
            omega

/-- Visits candidates until a goal is met or none is left, and returns the path to the goal. -/
def run [LawfulHashable ν] [Listed ν] (space : SearchSpace ν) (s : SearchState ν) :
    Except Fault (Option (List ν)) :=
  match _h : round space s with
  | .error f => .error f
  | .ok .exhausted => .ok none
  | .ok (.reached goal s') => .ok (some (s'.pathTo goal))
  | .ok (.open s') => run space s'
termination_by (unmet s.best, total s.best, s.frontier.size)
decreasing_by exact round_decreases _h

end SearchState

def SearchSpace.bestPath? {ν : Type} [BEq ν] [Hashable ν] [LawfulBEq ν] [LawfulHashable ν] [Listed ν]
    (space : SearchSpace ν) : Except Fault (Option (List ν)) := do
  (← SearchState.start space).run space

end AncillaRouting
