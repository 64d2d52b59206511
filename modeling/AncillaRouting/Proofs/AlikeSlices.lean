import AncillaRouting.Proofs.Sessions
import AncillaRouting.Proofs.SliceRefinement

/-!
# Slices that look alike

A query reads a slice through its size, its patches by id and by cell, and its costs. Nothing else of the
history of a slice, such as the order of its patches, is seen by a search, so that slices with the same
patches and the same costs are answered for in the same way to the last anchor.
-/

namespace AncillaRouting

namespace Slice

variable {s t : Slice}

/-- Every look-up has the same answer on both. -/
structure Alike (s t : Slice) : Prop where
  rows_eq : s.rows = t.rows
  cols_eq : s.cols = t.cols
  patchAt_eq : ∀ c, s.patchAt c = t.patchAt c
  getPatch_eq : ∀ id, s.getPatch id = t.getPatch id
  cost_eq : ∀ c, s.cost c = t.cost c

theorem WellFormed.patchAt_congr (hs : s.WellFormed) (ht : t.WellFormed) (h : ∀ p, p ∈ s.patches ↔ p ∈ t.patches)
    (c : Cell) : s.patchAt c = t.patchAt c := by
  apply Option.ext
  intro id
  rw [hs.covered, ht.covered]
  simp only [h]

theorem WellFormed.getPatch_congr (hs : s.WellFormed) (ht : t.WellFormed) (h : ∀ p, p ∈ s.patches ↔ p ∈ t.patches)
    (id : PatchId) : s.getPatch id = t.getPatch id := by
  cases hid : s.getPatch id with
  | ok p => rw [eq_comm, ht.getPatch_iff, ← h, ← hs.getPatch_iff, hid]
  | error e =>
    rw [getPatch_error_iff] at hid
    rw [eq_comm, getPatch_error_iff]
    simpa only [h] using hid

theorem WellFormed.alike (hs : s.WellFormed) (ht : t.WellFormed) (hrows : s.rows = t.rows) (hcols : s.cols = t.cols)
    (hplaced : ∀ p, p ∈ s.patches ↔ p ∈ t.patches) (hcost : ∀ c, s.cost c = t.cost c) : s.Alike t where
  rows_eq := hrows
  cols_eq := hcols
  patchAt_eq := hs.patchAt_congr ht hplaced
  getPatch_eq := hs.getPatch_congr ht hplaced
  cost_eq := hcost

theorem performAll_size (s : Slice) (edits : List Edit) :
    (s.performAll edits).rows = s.rows ∧ (s.performAll edits).cols = s.cols := by
  induction edits generalizing s with
  | nil => exact ⟨rfl, rfl⟩
  | cons e edits ih =>
    obtain ⟨hr, hc⟩ := ih (s.perform e)
    exact ⟨hr.trans (s.perform_size e).1, hc.trans (s.perform_size e).2⟩

namespace Alike

theorem isFree (h : s.Alike t) (c : Cell) : s.isFree c = t.isFree c := by
  rw [Bool.eq_iff_iff, isFree_iff, isFree_iff, inBounds_iff, inBounds_iff, h.rows_eq, h.cols_eq, h.patchAt_eq]

theorem freeNeighbours (h : s.Alike t) (c : Cell) : s.freeNeighbours c = t.freeNeighbours c := by
  unfold Slice.freeNeighbours
  rw [funext h.isFree]

theorem cells (h : s.Alike t) : s.cells = t.cells := by
  unfold Slice.cells
  rw [h.rows_eq, h.cols_eq]

theorem freeCells (h : s.Alike t) : s.freeCells = t.freeCells := by
  unfold Slice.freeCells
  rw [h.cells, funext h.isFree]

theorem addSteps (h : s.Alike t) : SearchProblem.addSteps s = SearchProblem.addSteps t := by
  funext g c
  unfold SearchProblem.addSteps
  rw [h.freeNeighbours]
  simp only [h.cost_eq]

theorem cellGraph (h : s.Alike t) : SearchProblem.cellGraph s = SearchProblem.cellGraph t := by
  unfold SearchProblem.cellGraph
  rw [h.freeCells, h.addSteps]

end Alike

end Slice

/-! ## Searches -/

section
variable {s t : Slice} {ids : List PatchId} {clearance : Bool}

theorem Terrain.isRoutable_congr (h : s.Alike t) (c : Cell) :
    (⟨s, ids, clearance⟩ : Terrain).isRoutable c = (⟨t, ids, clearance⟩ : Terrain).isRoutable c := by
  unfold Terrain.isRoutable Terrain.hasClearance
  simp only [h.isFree, h.patchAt_eq]

theorem Terrain.entries_congr (h : s.Alike t) (p : Patch) (op : Pauli) :
    (⟨s, ids, clearance⟩ : Terrain).entries p op = (⟨t, ids, clearance⟩ : Terrain).entries p op := by
  unfold Terrain.entries
  simp only [Terrain.isRoutable_congr h]

theorem Terrain.routableNeighbours_congr (h : s.Alike t) (c : Cell) :
    (⟨s, ids, clearance⟩ : Terrain).routableNeighbours c = (⟨t, ids, clearance⟩ : Terrain).routableNeighbours c := by
  unfold Terrain.routableNeighbours
  rw [funext (Terrain.isRoutable_congr h)]

end

namespace SearchProblem

variable {s t : Slice}

/-- The same problem, with the same entries, over another slice. -/
def onSlice (p : SearchProblem) (t : Slice) : SearchProblem := { p with terrain := { p.terrain with slice := t } }

theorem ofPatches_congr (h : s.Alike t) (a : Patch) (aOp : Pauli) (b : Patch) (bOp : Pauli) (clearance : Bool) :
    ofPatches t a aOp b bOp clearance = (onSlice · t) <$> ofPatches s a aOp b bOp clearance := by
  unfold ofPatches
  simp only [Terrain.entries_congr h]
  cases (⟨t, [a.id, b.id], clearance⟩ : Terrain).entries a aOp with
  | error f => rfl
  | ok sources => cases (⟨t, [a.id, b.id], clearance⟩ : Terrain).entries b bOp <;> rfl

theorem ofQuery_congr (h : s.Alike t) (q : RouteQuery) (clearance : Bool) :
    ofQuery t q clearance = (onSlice · t) <$> ofQuery s q clearance := by
  unfold ofQuery
  rw [h.getPatch_eq, h.getPatch_eq]
  cases t.getPatch q.source with
  | error e => rfl
  | ok a =>
    cases t.getPatch q.target with
    | error e => rfl
    | ok b =>
      show (ofPatches t a q.sourceOp b q.targetOp clearance).mapError _ = _
      rw [ofPatches_congr h]
      show _ = (onSlice · t) <$> (ofPatches s a q.sourceOp b q.targetOp clearance).mapError _
      cases ofPatches s a q.sourceOp b q.targetOp clearance <;> rfl

variable {p : SearchProblem}

theorem cellCost_onSlice (h : p.slice.Alike t) : (p.onSlice t).cellCost = p.cellCost := by
  funext c
  show (t.cost c).toNat = (p.slice.cost c).toNat
  rw [h.cost_eq]

theorem grid_onSlice (h : p.slice.Alike t) (add : Nat → Nat → Except Fault Nat) (remaining : Cell → Except Fault Nat) :
    (p.onSlice t).grid add remaining = p.grid add remaining := by
  have hn : (p.onSlice t).terrain.routableNeighbours = p.terrain.routableNeighbours :=
    funext fun c => (Terrain.routableNeighbours_congr h c).symm
  unfold grid
  rw [cellCost_onSlice h, hn]
  rfl

theorem addTerminals_onSlice (h : p.slice.Alike t) : (p.onSlice t).addTerminals = p.addTerminals := by
  funext g
  unfold addTerminals
  rw [cellCost_onSlice h]
  rfl

theorem graphPath?_onSlice (h : p.slice.Alike t) : (p.onSlice t).graphPath? = p.graphPath? := by
  unfold graphPath? graph?
  rw [addTerminals_onSlice h, show (p.onSlice t).slice = t from rfl, h.cellGraph]

theorem solve_onSlice (h : p.slice.Alike t) (strategy : SearchStrategy) :
    (p.onSlice t).solve strategy = p.solve strategy := by
  have hpath : strategy.path? (p.onSlice t) = strategy.path? p := by
    cases strategy with
    | graph => exact graphPath?_onSlice h
    | dijkstra => exact congrArg SearchSpace.bestPath? (grid_onSlice h _ _)
    | astar => exact congrArg SearchSpace.bestPath? (grid_onSlice h _ _)
  unfold solve
  rw [hpath]
  rfl

theorem ofQuery_slice {q : RouteQuery} {clearance : Bool} (hp : ofQuery s q clearance = .ok p) : p.slice = s := by
  obtain ⟨a, b, -, -, h⟩ := ofQuery_eq_ok.mp hp
  exact ofPatches_slice h

end SearchProblem

/-! ## Answers -/

section
variable {s t : Slice}

theorem RouteKey.ofQuery_congr (h : s.Alike t) (q : RouteQuery) : ofQuery s q = ofQuery t q := by
  unfold RouteKey.ofQuery
  rw [h.getPatch_eq, h.getPatch_eq]

theorem DirectRouter.route_alike (h : s.Alike t) (r : DirectRouter) (q : RouteQuery) : r.route s q = r.route t q := by
  unfold DirectRouter.route
  rw [SearchProblem.ofQuery_congr h]
  cases hp : SearchProblem.ofQuery s q r.edpc with
  | error e => rfl
  | ok p =>
    have hslice := SearchProblem.ofQuery_slice hp
    show _ = (((p.onSlice t).solve r.strategy).mapError _, _)
    rw [SearchProblem.solve_onSlice (hslice ▸ h)]

end

namespace Slice

variable {s t : Slice}

/-- Histories that end with the same patches and the same costs cannot be told apart by a query. -/
theorem history_irrelevant {rows cols : UInt32} {edits edits' : List Edit}
    (hs : (empty rows cols).performAll edits = s) (ht : (empty rows cols).performAll edits' = t)
    (hplaced : ∀ p, p ∈ s.patches ↔ p ∈ t.patches) (hcost : ∀ c, s.cost c = t.cost c) :
    (∀ c, s.patchAt c = t.patchAt c) ∧ (∀ c, s.isFree c = t.isFree c) ∧ (∀ id, s.getPatch id = t.getPatch id) ∧
      (∀ q, RouteKey.ofQuery s q = RouteKey.ofQuery t q) ∧ ∀ (r : DirectRouter) q, r.route s q = r.route t q := by
  subst hs ht
  have hws := (wellFormed_empty rows cols).performAll edits
  have hwt := (wellFormed_empty rows cols).performAll edits'
  obtain ⟨hr, hc⟩ := (empty rows cols).performAll_size edits
  obtain ⟨hr', hc'⟩ := (empty rows cols).performAll_size edits'
  have h := hws.alike hwt (hr.trans hr'.symm) (hc.trans hc'.symm) hplaced hcost
  exact ⟨h.patchAt_eq, h.isFree, h.getPatch_eq, RouteKey.ofQuery_congr h, DirectRouter.route_alike h⟩

/-- Another history of the corridor, with a patch that is removed again, one that is refused, and a price
that is taken back. -/
def detour : List Edit :=
  [.setCost ⟨0, 1⟩ 7, .place (.square ⟨1⟩ ⟨0, 3⟩), .place (.square ⟨2⟩ ⟨0, 1⟩), .place (.square ⟨3⟩ ⟨0, 1⟩),
    .remove ⟨2⟩, .place (.square ⟨0⟩ ⟨0, 0⟩), .setCost ⟨0, 1⟩ 0]

theorem detour_board : ∃ cost, ((empty 1 4).performAll detour).board =
    ⟨1, 4, [.square ⟨1⟩ ⟨0, 3⟩, .square ⟨0⟩ ⟨0, 0⟩], cost⟩ ∧ ∀ c, cost c = 1 := by
  have h := (wellFormed_empty 1 4).board_performAll detour
  rw [board_empty] at h
  refine ⟨_, h, fun c => ?_⟩
  show (if c = ⟨0, 1⟩ then (1 : UInt32) else if c = ⟨0, 1⟩ then 7 else 1) = 1
  split <;> rfl

/-- The slices list their patches in different orders, and a query that has a region on the one has it on the other. -/
theorem history_irrelevant_detour : ((empty 1 4).performAll detour).patches ≠ corridor.patches ∧ ∃ region,
    ((DirectRouter.withStrategy .graph).route .corridor ⟨⟨0⟩, .z, ⟨1⟩, .z⟩).1 = .ok (some region) ∧
      ((DirectRouter.withStrategy .graph).route ((empty 1 4).performAll detour) ⟨⟨0⟩, .z, ⟨1⟩, .z⟩).1 =
        .ok (some region) := by
  obtain ⟨cost, hb, hone⟩ := detour_board
  have hcorridor : (empty 1 4).performAll [.place (.square ⟨0⟩ ⟨0, 0⟩), .place (.square ⟨1⟩ ⟨0, 3⟩)] = corridor := rfl
  have hpatches : ((empty 1 4).performAll detour).patches = [.square ⟨1⟩ ⟨0, 3⟩, .square ⟨0⟩ ⟨0, 0⟩] :=
    congrArg Board.patches hb
  have hcost : ((empty 1 4).performAll detour).cost = cost := congrArg Board.cost hb
  have hsame : ∀ (r : DirectRouter) q, r.route .corridor q = r.route ((empty 1 4).performAll detour) q := by
    refine (history_irrelevant hcorridor rfl (fun p => ?_) fun c => ?_).2.2.2.2
    · rw [hpatches, corridor_patches]
      simp [or_comm]
    · rw [hcost, hone, corridor_eq]
      exact cost_empty 1 4 c
  obtain ⟨region, hregion⟩ := DirectRouter.route_of_connects corridor_reachable.wellFormed corridor_fits
    (DirectRouter.coherent_withStrategy .graph) (DirectRouter.corridor_roomy _ _) corridor_connects
  refine ⟨?_, region, hregion, ?_⟩
  · rw [hpatches, corridor_patches]; decide
  · rw [← hsame]; exact hregion

end Slice

end AncillaRouting
