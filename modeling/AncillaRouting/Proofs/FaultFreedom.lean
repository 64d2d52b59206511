import AncillaRouting.Proofs.ExactSums
import AncillaRouting.Proofs.RememberedRoutes

/-!
# Queries without faults

On a slice whose size fits, no step off a cell, no distance and no sum of costs or estimates leaves its word on
the way to an answer, and no list is read past its end, as long as a graph that is built has room. What a remembered
region costs fits its word too, even on a slice that it was not found on, since no more cells are in it than fit a
slice.
-/

namespace AncillaRouting

/-- No more cells than fit a slice. -/
def RoutingRegion.Short (r : RoutingRegion) : Prop := r.path.length ≤ 4294967295

theorem RoutingRegion.Short.cost_total {r : RoutingRegion} (h : r.Short) (s : Slice) : ∃ k, r.cost s = .ok k := by
  have hle := Slice.pathCost_le_of_length (s := s) h
  exact ⟨_, cost_eq_ok (by omega)⟩

namespace Slice

/-- The answer to a query is no fault. It is a region or none if both patches are on the slice, and the sum of
what the cells of a region cost is no fault on any slice. -/
structure Faultless (s : Slice) (q : RouteQuery) (answer : Except RouteError (Option RoutingRegion)) : Prop where
  no_fault : ∀ f, answer ≠ .error (.fault f)
  answered : s.Holds q.source → s.Holds q.target → ∃ found, answer = .ok found
  priced : ∀ region, answer = .ok (some region) → ∀ t : Slice, ∃ k, region.cost t = .ok k

variable {s : Slice} {q : RouteQuery} {region : RoutingRegion}

theorem Serves.short (hf : s.Fits) (h : s.Serves q region) : region.Short := length_le hf h.nodup h.inBounds

end Slice

theorem SearchStrategy.path?_total {strategy : SearchStrategy} (h : strategy ≠ .graph) {p : SearchProblem}
    (hp : p.WellPosed) : ∃ path, strategy.path? p = .ok path := by
  cases strategy with
  | graph => exact absurd rfl h
  | dijkstra => exact (SearchProblem.dijkstra_solved hp).total
  | astar => exact (SearchProblem.astar_solved hp).total

namespace Router

variable {r : Router} {s : Slice} {q : RouteQuery} {region : RoutingRegion} {call : RouterCall} {calls : List RouterCall}

/-! ## What a router keeps -/

/-- Whatever the slices were that a router was asked about, the regions it remembers are short. -/
structure Sound (r : Router) : Prop where
  consistent : r.Consistent
  short : ∀ key region, r.remembered key = some region → region.Short

theorem sound_direct {d : DirectRouter} (h : d.Coherent) : (direct d).Sound where
  consistent := h
  short _ _ hm := by cases hm

theorem Made.sound (h : r.Made) : r.Sound := by
  have hfresh := h.fresh
  refine ⟨h.consistent, fun key region hm => ?_⟩
  cases r with
  | direct r => cases hm
  | cached r =>
    obtain ⟨strategy, rfl⟩ := hfresh
    simp [remembered, CachedRouter.cached, CachedRouter.withStrategy] at hm

theorem Consistent.short_of_searcher (h : r.Consistent) (hs : s.Reachable) (hf : s.Fits)
    (ha : (r.searcher.route s q).1 = .ok (some region)) : region.Short := by
  have hc : r.searcher.Coherent := by
    cases r with
    | direct r => exact h
    | cached r => exact DirectRouter.coherent_plain h
  exact (DirectRouter.route_serves hs hf hc (.inl ha.symm)).short hf

theorem Sound.handle (h : r.Sound) (hc : call.Proper) : (r.handle call).Sound := by
  -- what is remembered after the call was so before, or serves a query on a slice whose size fits
  refine ⟨h.consistent.handle call, fun key region hm => ?_⟩
  cases r with
  | direct r =>
    obtain ⟨r', hr⟩ := handle_eq_direct r call
    rw [hr] at hm
    cases hm
  | cached r =>
    rcases remembered_of_handle hm with ⟨-, hm⟩ | ⟨s, q, rfl, -, ha⟩
    · exact h.short key region hm
    · exact h.consistent.short_of_searcher hc.1 hc.2 ha

theorem Sound.handleAll (h : r.Sound) (hcalls : ∀ call ∈ calls, call.Proper) : (r.handleAll calls).Sound := by
  induction calls generalizing r with
  | nil => exact h
  | cons call calls ih =>
    rw [List.forall_mem_cons] at hcalls
    exact ih (h.handle hcalls.1) hcalls.2

/-! ## What it answers -/

theorem Sound.short_of_route (h : r.Sound) (hs : s.Reachable) (hf : s.Fits)
    (ha : (r.route s q).1 = .ok (some region)) : region.Short := by
  cases r with
  | direct r => exact h.consistent.short_of_searcher hs hf ha
  | cached r =>
    change (r.route s q).1 = .ok (some region) at ha
    rcases r.route_cases s q with ⟨e, -, hr⟩ | ⟨key, -, ⟨region', hm, hr⟩ | ⟨-, region', hd, hr⟩ | ⟨-, hn, hr⟩⟩
    · rw [hr] at ha
      cases ha
    · rw [hr] at ha
      cases ha
      exact h.short key region hm
    · rw [hr] at ha
      cases ha
      exact h.consistent.short_of_searcher hs hf hd
    · rw [hr] at ha
      exact absurd ha (hn region)

theorem Sound.faultless (h : r.Sound) (hs : s.Reachable) (hf : s.Fits) (hroom : ¬ r.OutOfRoom s q) :
    s.Faultless q (r.route s q).1 := by
  have hw := hs.wellFormed
  have answered : s.Holds q.source → s.Holds q.target → ∃ found, (r.route s q).1 = .ok found := fun hsrc htgt =>
    ((h.consistent.route_of_holds hw hf hsrc htgt).resolve_right fun hout => hroom hout.1).2
  constructor
  · intro f ha
    by_cases hsrc : s.Holds q.source
    · by_cases htgt : s.Holds q.target
      · obtain ⟨found, hfound⟩ := answered hsrc htgt
        rw [hfound] at ha
        cases ha
      · rw [route_of_error hw (RouteKey.ofQuery_missing_target hw hsrc htgt)] at ha
        cases ha
    · rw [route_of_error hw (RouteKey.ofQuery_missing_source hsrc)] at ha
      cases ha
  · exact answered
  · intro region ha t
    exact (h.short_of_route hs hf ha).cost_total t

/-- On a slice whose size fits, no query ends in a fault. Every patch that is looked up has a first cell, every
problem is built, with or without clearance, and both strategies over the grid search it to the end and find what
they find without limits on sums. So a router that searches the grid, or one that remembers what it found on slices
of such sizes, gives an answer, and so does one that searches the explicit graph and is not out of room for it. -/
theorem queries_fault_free (hs : s.Reachable) (hf : s.Fits) :
    (∀ id p, s.getPatch id = .ok p → ∃ c, p.firstCell = .ok c) ∧
      (∀ q clearance, s.Holds q.source → s.Holds q.target → ∃ p, SearchProblem.ofQuery s q clearance = .ok p ∧
        (∀ strategy : SearchStrategy, strategy ≠ .graph → ∃ path, strategy.path? p = .ok path) ∧
        p.dijkstraPath? = (p.guidedBy fun _ => 0).bestPath? ∧ p.astarPath? = (p.guidedBy p.nearest).bestPath?) ∧
      (∀ d : DirectRouter, d.strategy ≠ .graph → ∀ q, s.Faultless q (d.route s q).1) ∧
      ∀ (start : Router) (calls : List RouterCall), start.Made → (∀ call ∈ calls, call.Proper) →
        ∀ q, ¬ (start.handleAll calls).OutOfRoom s q → s.Faultless q ((start.handleAll calls).route s q).1 := by
  have hw := hs.wellFormed
  refine ⟨fun id p h => hw.exists_firstCell h, fun q clearance hsrc htgt => ?_, fun d hd q => ?_,
    fun start calls hm hcalls q hroom => ?_⟩
  · obtain ⟨p, hq⟩ := SearchProblem.ofQuery_of_holds hw hf clearance hsrc htgt
    have hp := SearchProblem.ofQuery_wellPosed hw hf hq
    exact ⟨p, hq, fun strategy h => SearchStrategy.path?_total h hp, p.dijkstraPath?_exact hp, p.astarPath?_exact hp⟩
  · exact (sound_direct (DirectRouter.coherent_of_ne_graph hd)).faultless hs hf fun hout => hd hout.strategy_eq
  · exact (hm.sound.handleAll hcalls).faultless hs hf hroom

theorem queries_fault_free_yard : ∃ region k found,
    ((⟨.astar, true, 0⟩ : DirectRouter).route .yard ⟨⟨0⟩, .z, ⟨1⟩, .z⟩).1 = .ok (some region) ∧
      region.cost .yard = .ok k ∧
      (((cached .new).handleAll [.route .yard ⟨⟨0⟩, .z, ⟨1⟩, .z⟩, .setStrategy .astar]).route .yard
        ⟨⟨1⟩, .z, ⟨0⟩, .z⟩).1 = .ok found := by
  have hs := Slice.yard_reachable
  have hf := Slice.yard_fits
  have hc := Slice.yard_connects
  obtain ⟨-, -, hdirect, hmade⟩ := queries_fault_free hs hf
  obtain ⟨region, ha⟩ := DirectRouter.route_of_connects hs.wellFormed hf
    (DirectRouter.coherent_of_ne_graph (r := ⟨.astar, true, 0⟩) (by decide)) (DirectRouter.roomy_of_ne_graph (by decide)) hc
  obtain ⟨k, hk⟩ := (hdirect ⟨.astar, true, 0⟩ (by decide) _).priced region ha .yard
  have hcalls : ∀ call ∈ [RouterCall.route .yard ⟨⟨0⟩, .z, ⟨1⟩, .z⟩, .setStrategy .astar], call.Proper :=
    List.forall_mem_cons.mpr ⟨⟨hs, hf⟩, List.forall_mem_singleton.mpr trivial⟩
  have hsmall : Slice.yard.rows.toNat * Slice.yard.cols.toNat ≤ 715827882 := by
    rw [show Slice.yard.rows = 3 from congrArg Board.rows Slice.yard_board,
      show Slice.yard.cols = 4 from congrArg Board.cols Slice.yard_board]
    decide
  obtain ⟨found, hfound⟩ := (hmade (cached .new) _ .newCached hcalls ⟨⟨1⟩, .z, ⟨0⟩, .z⟩ fun hout =>
    Slice.not_overfills_of_small hs.wellFormed hf hsmall _ hout.overfills).answered hc.holds_target hc.holds_source
  exact ⟨region, k, found, ha, hk, hfound⟩

end Router

end AncillaRouting
