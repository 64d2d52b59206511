import AncillaRouting.Proofs.Obstacles
import AncillaRouting.Proofs.TieBreaks

/-!
# The distance to the nearest target

The estimate that guides one of the searches is consistent: along a step it falls by no more than the step costs,
because no cell is free of charge. So it is admissible, on walks over patches and all.
-/

namespace AncillaRouting.SearchProblem

variable {p : SearchProblem} {c u v : Cell}

theorem nearestTarget_eq_nearest (ha : p.slice.Addressable) (ht : ∀ e ∈ p.targets, p.terrain.Routable e.cell)
    (hc : p.slice.inBounds c = true) : p.nearestTarget c = .ok (p.nearest c) := by
  obtain ⟨n, hn, -⟩ := nearestTarget_total ha ht hc
  rw [hn, eq_nearest hn]

theorem nearest_le_add_cost (paid : ∀ c, 0 < p.cellCost c) (huv : u.Adjacent v) :
    p.nearest u ≤ p.cellCost v + p.nearest v := by
  have hstep := nearest_adjacent (p := p) huv
  have hpaid := paid v
  omega

/-- On every cell of the grid the estimate has a value. It is nothing on the target entries and on no other cell, it
falls along a step by no more than the step costs, and so it is no more than what any walk to a target entry costs
beyond its first cell. -/
theorem nearest_consistent {s : Slice} (hs : s.Reachable) (ha : s.Addressable) {a b : Patch} {aOp bOp : Pauli}
    {clearance : Bool} (hp : ofPatches s a aOp b bOp clearance = .ok p) (ht : p.targets ≠ []) :
    (∀ c, s.inBounds c = true → p.nearestTarget c = .ok (p.nearest c)) ∧
    (∀ c, p.nearest c = 0 ↔ ∃ e ∈ p.targets, e.cell = c) ∧
    (∀ u v, u.Adjacent v → p.nearest u ≤ p.cellCost v + p.nearest v) ∧
    ∀ (u : Cell) (path : List Cell), ∀ e ∈ p.targets, path.IsChain Cell.Adjacent → path.head? = some u →
      path.getLast? = some e.cell → p.nearest u ≤ s.pathCost path.tail := by
  obtain ⟨-, -, htgt⟩ := ofPatches_eq_ok hp
  have paid := (ofPatches_grounded hs.wellFormed ha hp).paid
  obtain rfl := ofPatches_slice hp
  refine ⟨fun c hc => ?_, fun c => nearest_eq_zero_iff ht, fun u v => nearest_le_add_cost paid, ?_⟩
  · exact nearestTarget_eq_nearest ha (Terrain.entriesOf_entries htgt).routable hc
  · intro u path e he hch hu hv
    have hle := Slice.le_pathCost_tail_add (nearest_le_add_cost paid) hch hu hv
    rw [nearest_target he] at hle
    exact hle

/-- One step before the target entry of the full yard. -/
theorem nearest_consistent_yard : ∃ a b p, ofPatches .fullYard a .z b .z true = .ok p ∧
    p.nearestTarget ⟨0, 1⟩ = .ok (p.nearest ⟨0, 1⟩) ∧ p.nearest ⟨0, 2⟩ = 0 ∧
    p.nearest ⟨0, 1⟩ ≤ Slice.fullYard.pathCost [⟨0, 2⟩] := by
  have hw := Slice.fullYard_reachable
  have hf := Slice.yard_milder.fits Slice.yard_fits
  obtain ⟨a, b, p, hp, hroute⟩ := ofPatches_of_connects hw.wellFormed hf Slice.fullYard_connects
  obtain ⟨-, hch, -, e, he, hlast⟩ := isRoute_iff.mp hroute
  have hcell : e.cell = ⟨0, 2⟩ := (Option.some.inj hlast).symm
  obtain ⟨hvalue, hzero, -, hwalk⟩ := nearest_consistent hw hf.addressable hp (List.ne_nil_of_mem he)
  refine ⟨a, b, p, hp, hvalue _ ?_, (hzero _).mpr ⟨e, he, hcell⟩, hwalk _ _ e he hch rfl hlast⟩
  exact (Slice.fullYard_connects.usable _ (.head _)).inBounds

end AncillaRouting.SearchProblem
