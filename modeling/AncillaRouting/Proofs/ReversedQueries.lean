import AncillaRouting.Proofs.DirectRoutes

/-!
# Queries asked the other way round

What a walk may use depends on the two patches alone and not on which of them is the source, and every cell of
a walk is paid for once. So a walk serves a query as its reverse serves the reversed query, at the same cost,
although the searches start from other cells and may find other ways. The explicit graph of the one query is as large
as that of the other.
-/

namespace AncillaRouting

open Outcome

def RouteQuery.reverse (q : RouteQuery) : RouteQuery := ⟨q.target, q.targetOp, q.source, q.sourceOp⟩

namespace Slice

variable {s : Slice} {q : RouteQuery} {clearance : Bool} {path : List Cell}

theorem Usable.symm {a b : PatchId} {c : Cell} (h : s.Usable a b clearance c) : s.Usable b a clearance c where
  inBounds := h.inBounds
  uncovered := h.uncovered
  clear hc d hd p hp hcov := (h.clear hc d hd p hp hcov).symm

theorem Connects.reverse (h : s.Connects q clearance path) : s.Connects q.reverse clearance path.reverse where
  usable c hc := (h.usable c (List.mem_reverse.mp hc)).symm
  adjacent := List.isChain_reverse.mpr (h.adjacent.imp fun _ _ hcd => hcd.symm)
  source := by
    rw [List.head?_reverse]
    exact h.target
  target := by
    rw [List.getLast?_reverse]
    exact h.source

/-- A region that answers the query and one that answers the reversed query cost the same. -/
theorem Best.pathCost_reverse {region region' : RoutingRegion} (h : s.Best q clearance region)
    (h' : s.Best q.reverse clearance region') : s.pathCost region.path = s.pathCost region'.path := by
  apply Nat.le_antisymm
  · calc
      s.pathCost region.path ≤ s.pathCost region'.path.reverse := h.least _ h'.connects.reverse
      _ = s.pathCost region'.path := Slice.pathCost_reverse _
  · calc
      s.pathCost region'.path ≤ s.pathCost region.path.reverse := h'.least _ h.connects.reverse
      _ = s.pathCost region.path := Slice.pathCost_reverse _

theorem Overfills.reverse (h : s.Overfills q) : s.Overfills q.reverse := by
  obtain ⟨p, hp, hsrc, htgt, hunfit⟩ := h
  obtain ⟨a, b, ha, hb, h⟩ := SearchProblem.ofQuery_eq_ok.mp hp
  obtain ⟨hterrain, hsources, htargets⟩ := SearchProblem.ofPatches_eq_ok h
  have hback : SearchProblem.ofQuery s q.reverse false = .ok ⟨⟨s, [b.id, a.id], false⟩, p.targets, p.sources⟩ := by
    refine SearchProblem.ofQuery_eq_ok.mpr ⟨b, a, hb, ha, ?_⟩
    rw [hterrain] at hsources htargets
    -- without clearance the entries of a patch do not depend on the patches that a route joins
    exact bind_eq_ok.mpr ⟨_, htargets, bind_eq_ok.mpr ⟨_, hsources, rfl⟩⟩
  refine ⟨_, hback, htgt, hsrc, fun hfits => hunfit ?_⟩
  have hslice : p.slice = s := SearchProblem.ofPatches_slice h
  refine ⟨hslice ▸ hfits.nodes, ?_⟩
  rw [hslice, Nat.add_right_comm]
  exact hfits.edges

theorem overfills_reverse : s.Overfills q.reverse ↔ s.Overfills q := ⟨fun h => h.reverse, fun h => h.reverse⟩

end Slice

namespace DirectRouter

variable {s : Slice} {q : RouteQuery} {r r' : DirectRouter} {answer answer' : Except RouteError (Option RoutingRegion)}

/-- In either mode and under any strategies, a query between placed patches and the reversed one are both
answered by none, or both by regions that cost the same on the slice, as long as the routers have room for the graph.
It overfills for both queries or for neither, and a router without room fails. -/
theorem reversed_query_same_cost (hs : s.Reachable) (hf : s.Fits) (hr : r.Coherent) (hr' : r'.Coherent)
    (he : r'.edpc = r.edpc) (hsrc : s.Holds q.source) (htgt : s.Holds q.target) (h : r.MayAnswer s q answer)
    (h' : r'.MayAnswer s q.reverse answer') :
    (r.Roomy s q → r'.Roomy s q.reverse → (answer = .ok none ∧ answer' = .ok none) ∨ ∃ region region' k,
      answer = .ok (some region) ∧ answer' = .ok (some region') ∧ region.cost s = .ok k ∧ region'.cost s = .ok k) ∧
      (s.Overfills q.reverse ↔ s.Overfills q) ∧
      (¬ r.Roomy s q → ∃ f, f.IsLimit ∧ answer = .error (.fault f)) ∧
      (¬ r'.Roomy s q.reverse → ∃ f, f.IsLimit ∧ answer' = .error (.fault f)) := by
  have hforth := h.held hs.wellFormed hf hr hsrc htgt
  have hback := h'.held hs.wellFormed hf hr' htgt hsrc
  refine ⟨fun hm hm' => ?_, Slice.overfills_reverse, fun hn => ?_, fun hn => ?_⟩
  · have hback := h'.placed hs.wellFormed hf hr' hm' htgt hsrc
    rw [he] at hback
    rcases h.placed hs.wellFormed hf hr hm hsrc htgt with ⟨region, ha, hb⟩ | ⟨ha, hn⟩
    · rcases hback with ⟨region', ha', hb'⟩ | ⟨-, hn'⟩
      · have hcost : region.cost s = .ok (s.pathCost region'.path) := hb.pathCost_reverse hb' ▸ hb.cost
        exact .inr ⟨region, region', _, ha, ha', hcost, hb'.cost⟩
      · exact absurd hb.connects.reverse (hn' _)
    · rcases hback with ⟨region', -, hb'⟩ | ⟨ha', -⟩
      · exact absurd hb'.connects.reverse (hn _)
      · exact .inl ⟨ha, ha'⟩
  · exact (hforth.resolve_left fun hm => hn hm.1).2
  · exact (hback.resolve_left fun hm => hn hm.1).2

/-- The way back is searched for in the explicit graph. -/
theorem reversed_query_same_cost_corridor : ∃ region region' k,
    ((withStrategy .astar).route .corridor ⟨⟨0⟩, .z, ⟨1⟩, .z⟩).1 = .ok (some region) ∧
      ((withStrategy .graph).route .corridor ⟨⟨1⟩, .z, ⟨0⟩, .z⟩).1 = .ok (some region') ∧
      region.cost .corridor = .ok k ∧ region'.cost .corridor = .ok k := by
  have hc := Slice.corridor_connects
  have hr := coherent_withStrategy .astar
  obtain ⟨region, hregion⟩ := route_of_connects Slice.corridor_reachable.wellFormed Slice.corridor_fits hr
    (corridor_roomy _ _) hc
  have hboth := (reversed_query_same_cost Slice.corridor_reachable Slice.corridor_fits hr
    (coherent_withStrategy .graph) rfl hc.holds_source hc.holds_target (mayAnswer_route _ _ _)
    (mayAnswer_route _ _ _)).1 (corridor_roomy _ _) (corridor_roomy _ _)
  rcases hboth with ⟨hnone, -⟩ | hboth
  · rw [hregion] at hnone; cases hnone
  · exact hboth

/-- Searched for in the graph of the large grid, neither query is answered. -/
theorem reversed_overfilled_expanse : Slice.expanse.Reachable ∧ Slice.expanse.Fits ∧ Slice.expanse.Holds ⟨0⟩ ∧
    Slice.expanse.Holds ⟨1⟩ ∧ ∀ answer answer', (withStrategy .graph).MayAnswer .expanse ⟨⟨0⟩, .z, ⟨1⟩, .z⟩ answer →
      (withStrategy .graph).MayAnswer .expanse ⟨⟨1⟩, .z, ⟨0⟩, .z⟩ answer' →
      ¬ ((answer = .ok none ∧ answer' = .ok none) ∨ ∃ region region' k, answer = .ok (some region) ∧
        answer' = .ok (some region') ∧ region.cost .expanse = .ok k ∧ region'.cost .expanse = .ok k) := by
  have hc := Slice.expanse_connects
  refine ⟨Slice.expanse_reachable, Slice.expanse_fits, hc.holds_source, hc.holds_target, fun answer answer' h _ => ?_⟩
  obtain ⟨f, -, rfl⟩ := expanse_answer h
  rintro (⟨hnone, -⟩ | ⟨_, _, _, hsome, -⟩)
  · cases hnone
  · cases hsome

end DirectRouter

end AncillaRouting
