import AncillaRouting.Proofs.Obstacles

/-!
# Searches guided by any estimate

A search over the grid comes to an end and misses no route, whatever estimate guides it. What an estimate can spoil
is the price. If it is too high nowhere, the route is a cheapest one, even where the estimate falls along a step by
more than the step costs, so that a cell that has been visited is reached at less and visited again.
-/

namespace AncillaRouting

open Outcome

/-! ## The rounds of a search -/

namespace SearchState

variable {ν : Type} [BEq ν] [Hashable ν] {space : SearchSpace ν} {s : SearchState ν} {answer : Option (List ν)}

/-- Finitely many rounds lead to the answer. A path is read off the parents as the last round leaves them. -/
inductive Halts (space : SearchSpace ν) : SearchState ν → Option (List ν) → Prop where
  | exhausted {s : SearchState ν} (h : round space s = .ok .exhausted) : Halts space s none
  | reached {s t : SearchState ν} {goal : ν} {nodes : List ν} (h : round space s = .ok (.reached goal t))
      (d : Descent t.parent goal nodes) : Halts space s (some nodes.reverse)
  | further {s t : SearchState ν} {answer : Option (List ν)} (h : round space s = .ok (.open t))
      (r : Halts space t answer) : Halts space s answer

variable [LawfulBEq ν] [LawfulHashable ν] [Listed ν]

theorem halts_of_run (hl : space.Lawful) (hr : space.Reaches s) (h : run space s = .ok answer) :
    Halts space s answer := by
  -- along the rounds of the search; the invariant of what it reaches says that the parents lead back to a start
  induction s using run.induct space with
  | case1 s f hround =>
    rw [run_eq, hround] at h
    cases h
  | case2 s hround =>
    rw [run_eq, hround] at h
    cases h
    exact .exhausted hround
  | case3 s goal t hround =>
    rw [run_eq, hround] at h
    cases h
    obtain ⟨c, rest, -, -, -, -, rfl⟩ := round_reached hround
    exact .reached hround ((invariant_of_reaches hl hr).descent hl goal)
  | case4 s t hround ih =>
    rw [run_eq, hround] at h
    exact .further hround (ih (hr.round hround) h)

end SearchState

theorem SearchSpace.bestPath?_halts {ν : Type} [BEq ν] [Hashable ν] [LawfulBEq ν] [LawfulHashable ν] [Listed ν]
    {space : SearchSpace ν} (hl : space.Lawful) {answer : Option (List ν)} (h : space.bestPath? = .ok answer) :
    ∃ s, SearchState.start space = .ok s ∧ SearchState.Halts space s answer := by
  obtain ⟨s, hs, hrun⟩ := bind_eq_ok.mp h
  exact ⟨s, hs, SearchState.halts_of_run hl (.start hs) hrun⟩

namespace SearchProblem

variable {p : SearchProblem} {h : Cell → Nat} {u v : Cell} {k : Nat}

/-! ## Estimates -/

/-- The grid with sums that have no limit, searched with `h` as the estimate. -/
def guidedBy (p : SearchProblem) (h : Cell → Nat) : SearchSpace Cell :=
  p.grid (fun a b => .ok (a + b)) fun c => .ok (h c)

/-- From no cell is the estimate more than any walk to a target entry costs beyond that cell. -/
def NowhereTooHigh (p : SearchProblem) (h : Cell → Nat) : Prop :=
  ∀ v path, ∀ b ∈ p.targets, p.terrain.Walk v b.cell path → h v ≤ p.slice.pathCost path.tail

theorem walk_of_onward {add : Nat → Nat → Except Fault Nat} {remaining : Cell → Except Fault Nat}
    (hu : p.terrain.Routable u) (o : (p.grid add remaining).Onward u v k) :
    ∃ path, p.terrain.Walk u v path ∧ p.slice.pathCost path.tail = k := by
  induction o with
  | refl => exact ⟨[u], .single hu, rfl⟩
  | @step v x k w o e ih =>
    obtain ⟨path, w, hk⟩ := ih
    obtain ⟨hadj, hx, rfl⟩ := grid_edge e
    refine ⟨path ++ [x], w.snoc hadj hx, ?_⟩
    rw [List.tail_append_of_ne_nil w.ne_nil, Slice.pathCost_append, hk]
    rfl

theorem NowhereTooHigh.admissible (hp : p.Grounded) (hh : p.NowhereTooHigh h) : (p.guidedBy h).Admissible := by
  intro u nodes j v k n t hn o hg
  cases hn
  obtain ⟨b, hb, rfl⟩ := isTarget_iff.mp hg
  obtain ⟨⟨a, -, w⟩, -⟩ := walk_of_trail hp t
  have hu := w.routable u (List.mem_reverse.mpr t.mem)
  obtain ⟨path, w', rfl⟩ := walk_of_onward hu o
  exact hh u path b hb w'

/-- However it jumps from cell to cell, an estimate up to the distance of every target is not too high. -/
theorem nowhereTooHigh_of_le_apart (paid : ∀ c, 0 < p.cellCost c) (hh : ∀ v, ∀ b ∈ p.targets, h v ≤ v.apart b.cell) :
    p.NowhereTooHigh h := by
  intro v path b hb w
  exact Nat.le_trans (hh v b hb) (apart_le_of_walk paid w)

theorem guidedBy_safe (hp : p.Grounded) (h : Cell → Nat) : (p.guidedBy h).Safe := by
  -- without limits on sums, all that could fail is a step off the range of coordinates
  constructor
  · intro v nodes k t hn
    exact ⟨h v, k + h v, rfl, rfl⟩
  · intro v nodes k t hn
    obtain ⟨⟨a, -, w⟩, -⟩ := walk_of_trail hp t
    have hv := w.routable v (List.mem_reverse.mpr t.mem)
    obtain ⟨ds, hd⟩ := Terrain.routableNeighbours_total hp.addressable (hv.inner hp.addressable)
    exact ⟨_, map_eq_ok.mpr ⟨ds, hd, rfl⟩, fun e _ => ⟨_, rfl⟩⟩

/-! ## What is found -/

/-- Whatever estimate guides it, a search over the grid ends after finitely many rounds, with a route that repeats
no cell if there is a route, and without one otherwise. If the estimate is nowhere too high, no route is cheaper. -/
theorem found_by_any_estimate {s : Slice} (hs : s.Reachable) (ha : s.Addressable) {a b : Patch} {aOp bOp : Pauli}
    {clearance : Bool} (hp : ofPatches s a aOp b bOp clearance = .ok p) (h : Cell → Nat) :
    ∃ start answer, SearchState.start (p.guidedBy h) = .ok start ∧ SearchState.Halts (p.guidedBy h) start answer ∧
      (p.guidedBy h).bestPath? = .ok answer ∧
      ((∃ path, answer = some path) ↔ ∃ path, p.IsRoute path) ∧
      ∀ path, answer = some path → p.IsRoute path ∧ path.Nodup ∧ (p.NowhereTooHigh h → p.IsCheapest path) := by
  have hg := ofPatches_grounded hs.wellFormed ha hp
  have hadd : ∀ {a b c : Nat}, (.ok (a + b) : Except Fault Nat) = .ok c → c = a + b := fun e => (Except.ok.inj e).symm
  have halts : ∀ {answer}, (p.guidedBy h).bestPath? = .ok answer → ∃ start,
      SearchState.start (p.guidedBy h) = .ok start ∧ SearchState.Halts (p.guidedBy h) start answer :=
    SearchSpace.bestPath?_halts (grid_lawful hg hadd)
  rcases grid_outcome hg hadd (guidedBy_safe hg h) with ⟨path, ho, hr, hn, hc⟩ | ⟨ho, hnone⟩
  · obtain ⟨start, hstart, hh⟩ := halts ho
    refine ⟨start, some path, hstart, hh, ho, ⟨fun _ => ⟨path, hr⟩, fun _ => ⟨path, rfl⟩⟩, fun other he => ?_⟩
    cases he
    exact ⟨hr, hn, fun hlow => hc (hlow.admissible hg)⟩
  · obtain ⟨start, hstart, hh⟩ := halts ho
    refine ⟨start, none, hstart, hh, ho, ⟨nofun, fun ⟨path, hr⟩ => absurd hr (hnone path)⟩, nofun⟩

/-- On the yard the estimate falls by four along a step out of a corner, which costs one. -/
theorem found_by_any_estimate_yard : ∃ a b p path, ofPatches .yard a .z b .z true = .ok p ∧
    (p.guidedBy fun c => if c = ⟨2, 0⟩ then 4 else 0).bestPath? = .ok (some path) ∧ p.IsCheapest path := by
  have hs := Slice.yard_reachable
  have hc := Slice.yard_connects
  obtain ⟨p, hq⟩ := ofQuery_of_holds hs.wellFormed Slice.yard_fits true hc.holds_source hc.holds_target
  have hres := ofQuery_resolves hs.wellFormed Slice.yard_fits hq
  have hpaid := (ofQuery_wellPosed hs.wellFormed Slice.yard_fits hq).paid
  obtain ⟨a, b, -, -, hp⟩ := ofQuery_eq_ok.mp hq
  obtain ⟨-, answer, -, -, ho, hiff, hfound⟩ := found_by_any_estimate hs Slice.yard_fits.addressable hp
    fun c => if c = ⟨2, 0⟩ then 4 else 0
  obtain ⟨path, rfl⟩ := hiff.mpr ⟨_, hres.isRoute_iff.mpr hc⟩
  obtain ⟨-, -, hcheap⟩ := hfound path rfl
  refine ⟨a, b, p, path, hp, ho, hcheap (nowhereTooHigh_of_le_apart hpaid fun v e he => ?_)⟩
  by_cases hv : v = ⟨2, 0⟩
  · rw [if_pos hv, hv]
    rcases Slice.yard_right (hres.target_anchored e he) with hc | hc
    · rw [hc]; decide
    · rw [hc]; decide
  · rw [if_neg hv]
    exact Nat.zero_le _

end SearchProblem

end AncillaRouting
