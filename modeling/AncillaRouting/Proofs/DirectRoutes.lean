import AncillaRouting.Proofs.GraphSearch
import AncillaRouting.Proofs.Regions
import AncillaRouting.Router.Basic

/-!
# What the direct router answers

The answer to a query in terms of the slice alone: a region along a cheapest walk of usable cells from
a queried face of the source patch to a queried face of the target patch, or none if there is no such
walk. All strategies agree on which of the two it is and on the cost, as long as the one that builds a
graph has room for it. On a grid whose graph overfills, that one fails.
-/

namespace AncillaRouting

open Outcome

namespace Slice

def Holds (s : Slice) (id : PatchId) : Prop := ∃ p ∈ s.patches, p.id = id

/-- The cell lies across a face that exposes the operator, of the patch with the id. -/
def Borders (s : Slice) (id : PatchId) (op : Pauli) (c : Cell) : Prop :=
  ∃ p ∈ s.patches, p.id = id ∧ p.Faces op c

structure Connects (s : Slice) (q : RouteQuery) (clearance : Bool) (path : List Cell) : Prop where
  usable : ∀ c ∈ path, s.Usable q.source q.target clearance c
  adjacent : path.IsChain Cell.Adjacent
  source : ∃ c, path.head? = some c ∧ s.Borders q.source q.sourceOp c
  target : ∃ c, path.getLast? = some c ∧ s.Borders q.target q.targetOp c

/-- The anchor is a face that exposes the operator, of the patch with the id, and `c` lies across it. -/
structure Anchored (s : Slice) (id : PatchId) (op : Pauli) (a : FaceAnchor) (c : Cell) : Prop where
  patch_eq : a.patch = id
  op_eq : a.op = op
  exposes : ∃ p ∈ s.patches, p.id = id ∧ p.Exposes op a.cell a.side
  entry : a.entry = .ok c

/-- What may be relied on in a region that answers a query. -/
structure Serves (s : Slice) (q : RouteQuery) (r : RoutingRegion) : Prop where
  nonempty : r.path ≠ []
  inBounds : ∀ c ∈ r.path, s.inBounds c = true
  uncovered : ∀ c ∈ r.path, ∀ p ∈ s.patches, p.covers c = false
  adjacent : r.path.IsChain Cell.Adjacent
  nodup : r.path.Nodup
  source : ∃ c, r.path.head? = some c ∧ s.Anchored q.source q.sourceOp r.source c
  target : ∃ c, r.path.getLast? = some c ∧ s.Anchored q.target q.targetOp r.target c
  source_first : ∀ c ∈ r.path.tail, ¬ s.Borders q.source q.sourceOp c
  target_last : ∀ c ∈ r.path.dropLast, ¬ s.Borders q.target q.targetOp c

structure Best (s : Slice) (q : RouteQuery) (clearance : Bool) (r : RoutingRegion) : Prop where
  serves : s.Serves q r
  connects : s.Connects q clearance r.path
  cost : r.cost s = .ok (s.pathCost r.path)
  least : ∀ path, s.Connects q clearance path → s.pathCost r.path ≤ s.pathCost path

variable {s : Slice}

theorem WellFormed.borders_iff (hw : s.WellFormed) {p : Patch} (hp : p ∈ s.patches) {op : Pauli} {c : Cell} :
    s.Borders p.id op c ↔ p.Faces op c := by
  refine ⟨fun ⟨q, hq, hid, hf⟩ => ?_, fun hf => ⟨p, hp, rfl, hf⟩⟩
  exact eq_of_id_eq hw.ids hq hp hid ▸ hf

/-- A square patch is entered across a side of its cell that exposes the operator. -/
theorem Anchored.square (hw : s.WellFormed) {id : PatchId} {cell : Cell} (hp : .square id cell ∈ s.patches) {op : Pauli}
    {anchor : FaceAnchor} {c : Cell} (h : s.Anchored id op anchor c) :
    ∃ side, Boundaries.square.get side = some op ∧ cell.neighbour side = .ok c := by
  obtain ⟨-, -, ⟨q, hq, hid, d, hd, hcell, hget⟩, hentry⟩ := h
  obtain rfl := eq_of_id_eq hw.ids hq hp hid
  cases List.mem_singleton.mp hd
  rw [FaceAnchor.entry, ← hcell] at hentry
  exact ⟨anchor.side, hget, hentry⟩

theorem Connects.holds_source {q : RouteQuery} {clearance : Bool} {path : List Cell} (h : s.Connects q clearance path) :
    s.Holds q.source := by
  obtain ⟨_, -, a, ha, hid, -⟩ := h.source
  exact ⟨a, ha, hid⟩

theorem Connects.holds_target {q : RouteQuery} {clearance : Bool} {path : List Cell} (h : s.Connects q clearance path) :
    s.Holds q.target := by
  obtain ⟨_, -, b, hb, hid, -⟩ := h.target
  exact ⟨b, hb, hid⟩

/-- Both answers are regions that cost the same, or neither is a region. -/
def SameCost {ε δ : Type} (s : Slice) (x : Except ε (Option RoutingRegion))
    (y : Except δ (Option RoutingRegion)) : Prop :=
  (∃ r r', x = .ok (some r) ∧ y = .ok (some r') ∧ r.cost s = r'.cost s) ∨
    (∀ r, x ≠ .ok (some r)) ∧ ∀ r, y ≠ .ok (some r)

end Slice

/-- The answer is a best region, or it is not a region and nothing connects the faces. -/
def Slice.Settled {ε : Type} (s : Slice) (q : RouteQuery) (clearance : Bool) (x : Except ε (Option RoutingRegion)) : Prop :=
  (∃ region, x = .ok (some region) ∧ s.Best q clearance region) ∨
    (∀ region, x ≠ .ok (some region)) ∧ ∀ path, ¬ s.Connects q clearance path

theorem Slice.Settled.sameCost {ε δ : Type} {s : Slice} {q : RouteQuery} {clearance : Bool}
    {x : Except ε (Option RoutingRegion)} {y : Except δ (Option RoutingRegion)} (hx : s.Settled q clearance x)
    (hy : s.Settled q clearance y) : s.SameCost x y := by
  rcases hx with ⟨region, hregion, hb⟩ | ⟨hn, hc⟩
  · rcases hy with ⟨region', hregion', hb'⟩ | ⟨-, hc'⟩
    · refine .inl ⟨region, region', hregion, hregion', ?_⟩
      rw [hb.cost, hb'.cost, Nat.le_antisymm (hb.least _ hb'.connects) (hb'.least _ hb.connects)]
    · exact absurd hb.connects (hc' _)
  · rcases hy with ⟨region', -, hb'⟩ | ⟨hn', -⟩
    · exact absurd hb'.connects (hc _)
    · exact .inr ⟨hn, hn'⟩

namespace SearchProblem

variable {s : Slice} {p : SearchProblem} {q : RouteQuery} {clearance : Bool}

structure Resolves (p : SearchProblem) (s : Slice) (q : RouteQuery) (clearance : Bool) : Prop where
  slice_eq : p.slice = s
  clearance_eq : p.terrain.clearance = clearance
  routable : ∀ c, p.terrain.Routable c ↔ s.Usable q.source q.target clearance c
  source : ∀ c, p.terrain.Routable c → ((∃ e ∈ p.sources, e.cell = c) ↔ s.Borders q.source q.sourceOp c)
  target : ∀ c, p.terrain.Routable c → ((∃ e ∈ p.targets, e.cell = c) ↔ s.Borders q.target q.targetOp c)
  source_anchored : ∀ e ∈ p.sources, s.Anchored q.source q.sourceOp e.anchor e.cell
  target_anchored : ∀ e ∈ p.targets, s.Anchored q.target q.targetOp e.anchor e.cell

theorem ofQuery_of_holds (hw : s.WellFormed) (hf : s.Fits) (clearance : Bool) (hsrc : s.Holds q.source)
    (htgt : s.Holds q.target) : ∃ p, ofQuery s q clearance = .ok p := by
  obtain ⟨a, ha, hqa⟩ := hsrc
  obtain ⟨b, hb, hqb⟩ := htgt
  exact ofQuery_total hw hf q clearance ha hb hqa hqb

theorem ofQuery_anchored (h : ofQuery s q clearance = .ok p) :
    (∀ e ∈ p.sources, s.Anchored q.source q.sourceOp e.anchor e.cell) ∧
      ∀ e ∈ p.targets, s.Anchored q.target q.targetOp e.anchor e.cell := by
  obtain ⟨a, b, ha, hb, h⟩ := ofQuery_eq_ok.mp h
  obtain ⟨ha, hqa⟩ := Slice.getPatch_eq_ok ha
  obtain ⟨hb, hqb⟩ := Slice.getPatch_eq_ok hb
  obtain ⟨-, hsrc, htgt⟩ := ofPatches_eq_ok h
  constructor
  · intro e he
    obtain ⟨h1, h2, h3, h4⟩ := (Terrain.entriesOf_entries hsrc).anchored e he
    exact ⟨h1.trans hqa, h2, ⟨a, ha, hqa, Patch.mem_faces.mp h3⟩, h4⟩
  · intro e he
    obtain ⟨h1, h2, h3, h4⟩ := (Terrain.entriesOf_entries htgt).anchored e he
    exact ⟨h1.trans hqb, h2, ⟨b, hb, hqb, Patch.mem_faces.mp h3⟩, h4⟩

theorem ofQuery_resolves (hw : s.WellFormed) (hf : s.Fits) (h : ofQuery s q clearance = .ok p) :
    p.Resolves s q clearance := by
  obtain ⟨hsa, hta⟩ := ofQuery_anchored h
  obtain ⟨a, b, ha, hb, h⟩ := ofQuery_eq_ok.mp h
  obtain ⟨ha, hqa⟩ := Slice.getPatch_eq_ok ha
  obtain ⟨hb, hqb⟩ := Slice.getPatch_eq_ok hb
  obtain ⟨ht, hsrc, htgt⟩ := ofPatches_eq_ok h
  have ea := Terrain.entriesOf_entries hsrc
  have eb := Terrain.entriesOf_entries htgt
  refine ⟨by rw [SearchProblem.slice, ht], by rw [ht], fun c => ?_, fun c hc => ?_, fun c hc => ?_, hsa, hta⟩
  · rw [ht, ← hqa, ← hqb, Terrain.routable_iff_usable hw hf.addressable]
  · rw [ea.faces_iff hc, ← hqa, hw.borders_iff ha]
  · rw [eb.faces_iff hc, ← hqb, hw.borders_iff hb]

theorem Resolves.isRoute_iff (hr : p.Resolves s q clearance) {path : List Cell} :
    p.IsRoute path ↔ s.Connects q clearance path := by
  rw [SearchProblem.isRoute_iff]
  constructor
  · rintro ⟨hrt, hch, ⟨a, ha, hhead⟩, b, hb, hlast⟩
    exact ⟨fun c hc => (hr.routable c).mp (hrt c hc), hch,
      ⟨_, hhead, (hr.source _ (hrt _ (List.mem_of_mem_head? hhead))).mp ⟨a, ha, rfl⟩⟩,
      _, hlast, (hr.target _ (hrt _ (List.mem_of_mem_getLast? hlast))).mp ⟨b, hb, rfl⟩⟩
  · rintro ⟨hu, hch, ⟨c, hhead, hc⟩, d, hlast, hd⟩
    have hrt : ∀ x ∈ path, p.terrain.Routable x := fun x hx => (hr.routable x).mpr (hu x hx)
    obtain ⟨a, ha, rfl⟩ := (hr.source c (hrt _ (List.mem_of_mem_head? hhead))).mpr hc
    obtain ⟨b, hb, rfl⟩ := (hr.target d (hrt _ (List.mem_of_mem_getLast? hlast))).mpr hd
    exact ⟨hrt, hch, ⟨a, ha, hhead⟩, b, hb, hlast⟩

theorem ofPatches_of_connects (hw : s.WellFormed) (hf : s.Fits) {path : List Cell} (hc : s.Connects q clearance path) :
    ∃ a b p, ofPatches s a q.sourceOp b q.targetOp clearance = .ok p ∧ p.IsRoute path := by
  obtain ⟨p, hp⟩ := ofQuery_of_holds hw hf clearance hc.holds_source hc.holds_target
  obtain ⟨a, b, -, -, h⟩ := ofQuery_eq_ok.mp hp
  exact ⟨a, b, p, h, (ofQuery_resolves hw hf hp).isRoute_iff.mpr hc⟩

theorem Joins.serves (hp : p.WellPosed) (hr : p.Resolves s q clearance) {r : RoutingRegion} (h : p.Joins r) :
    s.Serves q r := by
  have hroute := hr.isRoute_iff.mp h.cheapest.1
  obtain ⟨a, ha, hsrc, hhead⟩ := h.source
  obtain ⟨b, hb, htgt, hlast⟩ := h.target
  refine ⟨h.cheapest.1.ne_nil, fun c hc => (hroute.usable c hc).inBounds, fun c hc => (hroute.usable c hc).uncovered,
    hroute.adjacent, h.cheapest.nodup hp.paid, ⟨_, hhead, hsrc ▸ hr.source_anchored a ha⟩,
    ⟨_, hlast, htgt ▸ hr.target_anchored b hb⟩, fun c hc hn => ?_, fun c hc hn => ?_⟩
  · obtain ⟨e, he, rfl⟩ := (hr.source c (h.cheapest.1.routable c (List.mem_of_mem_tail hc))).mpr hn
    have hsplit := List.cons_head?_tail hhead
    exact IsCheapest.source_first hp.paid (hsplit.symm ▸ h.cheapest) he hc
  · obtain ⟨e, he, rfl⟩ := (hr.target c (h.cheapest.1.routable c ((List.dropLast_sublist _).subset hc))).mpr hn
    have hsplit := List.dropLast_append_getLast? _ hlast
    exact IsCheapest.target_last hp.paid (hsplit.symm ▸ h.cheapest) he hc

theorem Joins.best (hp : p.WellPosed) (hr : p.Resolves s q clearance) {r : RoutingRegion} (h : p.Joins r) :
    s.Best q clearance r where
  serves := h.serves hp hr
  connects := hr.isRoute_iff.mp h.cheapest.1
  cost := hr.slice_eq ▸ h.cost
  least path hc := hr.slice_eq ▸ h.cheapest.2 path (hr.isRoute_iff.mpr hc)

theorem Answered.sameCost {x y : Except Fault (Option RoutingRegion)} (hx : p.Answered x) (hy : p.Answered y) :
    p.slice.SameCost x y := by
  rcases hx with ⟨r, rfl, hr⟩ | ⟨rfl, hn⟩
  · rcases hy with ⟨r', rfl, hr'⟩ | ⟨rfl, hn⟩
    · refine .inl ⟨r, r', rfl, rfl, ?_⟩
      rw [hr.cost, hr'.cost, Nat.le_antisymm (hr.cheapest.2 _ hr'.cheapest.1) (hr'.cheapest.2 _ hr.cheapest.1)]
    · exact absurd hr.cheapest.1 (hn _)
  · rcases hy with ⟨r', rfl, hr'⟩ | ⟨rfl, -⟩
    · exact absurd hr'.cheapest.1 (hn _)
    · exact .inr ⟨nofun, nofun⟩

/-- The problem is searched, and its graph does not fit. -/
structure Overfills (p : SearchProblem) : Prop where
  sources : p.sources ≠ []
  targets : p.targets ≠ []
  unfit : ¬ p.GraphFits

theorem solve_answered (hp : p.WellPosed) {strategy : SearchStrategy}
    (ht : p.terrain.clearance = true → strategy.supportsEdpc = true) (hg : strategy = .graph → ¬ p.Overfills) :
    p.Answered (p.solve strategy) := by
  rw [solve_eq]
  by_cases he : p.sources = [] ∨ p.targets = []
  · exact answered_of_noEntry he _
  · obtain ⟨hsrc, htgt⟩ := not_or.mp he
    refine Solved.conclude hp ?_
    cases strategy with
    | graph =>
      have hfits : p.GraphFits := by
        by_contra hn
        exact hg rfl ⟨hsrc, htgt, hn⟩
      exact graph_solved hp (Bool.eq_false_iff.mpr fun h => nomatch ht h) hfits
    | dijkstra => exact dijkstra_solved hp
    | astar => exact astar_solved hp

theorem solve_overfilled (hp : p.WellPosed) (h : p.Overfills) : ∃ f, f.IsLimit ∧ p.solve .graph = .error f := by
  obtain ⟨f, hlimit, hf⟩ := graph?_overfilled hp h.unfit
  refine ⟨f, hlimit, ?_⟩
  have hpath : SearchStrategy.graph.path? p = .error f := bind_eq_error.mpr (.inl hf)
  rw [solve_eq, conclude_of_entries h.sources h.targets, hpath]
  rfl

end SearchProblem

/-- The query is searched without clearance, and its graph does not fit. -/
def Slice.Overfills (s : Slice) (q : RouteQuery) : Prop :=
  ∃ p, SearchProblem.ofQuery s q false = .ok p ∧ p.Overfills

theorem Slice.overfills_iff {s : Slice} {q : RouteQuery} {p : SearchProblem}
    (hp : SearchProblem.ofQuery s q false = .ok p) : s.Overfills q ↔ p.Overfills := by
  refine ⟨fun ⟨p', hp', h⟩ => ?_, fun h => ⟨p, hp, h⟩⟩
  rw [hp] at hp'
  cases hp'
  exact h

theorem Slice.not_overfills_of_small {s : Slice} (hw : s.WellFormed) (hf : s.Fits)
    (h : s.rows.toNat * s.cols.toNat ≤ 715827882) (q : RouteQuery) : ¬ s.Overfills q := by
  rintro ⟨p, hp, ho⟩
  have hslice := (SearchProblem.ofQuery_resolves hw hf hp).slice_eq
  exact ho.unfit (SearchProblem.graphFits_of_small (SearchProblem.ofQuery_wellPosed hw hf hp) (hslice ▸ h))

namespace DirectRouter

variable {s : Slice} {r : DirectRouter}

/-! ## States of the router -/

/-- Extended routing is on only under a strategy that knows clearance. -/
def Coherent (r : DirectRouter) : Prop := r.edpc = true → r.strategy.supportsEdpc = true

theorem coherent_withStrategy (strategy : SearchStrategy) : (withStrategy strategy).Coherent := nofun

theorem coherent_plain (h : r.edpc = false) : r.Coherent := fun he => by rw [h] at he; cases he

theorem coherent_of_ne_graph (h : r.strategy ≠ .graph) : r.Coherent := fun _ => by
  cases hs : r.strategy with
  | graph => exact absurd hs h
  | dijkstra => rfl
  | astar => rfl

theorem coherent_setStrategy {strategy : SearchStrategy} {r' : DirectRouter}
    (hr : r.setStrategy strategy = .ok r') : r'.Coherent := by
  unfold DirectRouter.setStrategy at hr
  split at hr
  · cases hr
  · rename_i hc
    cases hr
    intro he
    rw [he, Bool.true_and, Bool.not_eq_true', Bool.not_eq_false] at hc
    exact hc

theorem coherent_enableEdpc {r' : DirectRouter} (hr : r.enableEdpc = .ok r') : r'.Coherent := by
  unfold enableEdpc at hr
  split at hr
  · rename_i hs
    cases hr
    exact fun _ => hs
  · cases hr

theorem Coherent.route (h : r.Coherent) (s : Slice) (q : RouteQuery) : (r.route s q).2.Coherent := by
  unfold DirectRouter.route
  cases SearchProblem.ofQuery s q r.edpc <;> exact h

theorem Coherent.plain_of_graph (hr : r.Coherent) (h : r.strategy = .graph) : r.edpc = false := by
  rw [Bool.eq_false_iff]
  intro he
  have := hr he
  rw [h] at this
  cases this

/-- The router has room for the graph of the query, if it builds one. -/
def Roomy (r : DirectRouter) (s : Slice) (q : RouteQuery) : Prop := r.strategy = .graph → ¬ s.Overfills q

theorem roomy_of_ne_graph {q : RouteQuery} (h : r.strategy ≠ .graph) : r.Roomy s q := fun hg => absurd hg h

theorem roomy_of_small (hw : s.WellFormed) (hf : s.Fits) (h : s.rows.toNat * s.cols.toNat ≤ 715827882) (r : DirectRouter)
    (q : RouteQuery) : r.Roomy s q := fun _ => Slice.not_overfills_of_small hw hf h q

/-! ## Answers -/

/-- The answers that a query may get, where the graph may be searched in any way that finds a lightest
walk if there is one. -/
def MayAnswer (r : DirectRouter) (s : Slice) (q : RouteQuery) (answer : Except RouteError (Option RoutingRegion)) :
    Prop :=
  answer = (r.route s q).1 ∨ r.strategy = .graph ∧ ∃ p g found, SearchProblem.ofQuery s q r.edpc = .ok p ∧
    p.graph? = .ok (some g) ∧ g.Lightest .source .target found ∧
      answer = (p.conclude (.ok (found.map (·.filterMap CellNode.cell?)))).mapError .fault

variable {q : RouteQuery} {answer : Except RouteError (Option RoutingRegion)}

theorem MayAnswer.answered (hw : s.WellFormed) (hf : s.Fits) (hr : r.Coherent) (h : r.MayAnswer s q answer) :
    (∃ e, SearchProblem.ofQuery s q r.edpc = .error e ∧ answer = .error e) ∨
      (r.Roomy s q ∧ ∃ p x, SearchProblem.ofQuery s q r.edpc = .ok p ∧ p.Answered x ∧ answer = x.mapError .fault) ∨
        (¬ r.Roomy s q ∧ ∃ f, f.IsLimit ∧ answer = .error (.fault f)) := by
  cases hp : SearchProblem.ofQuery s q r.edpc with
  | error e =>
    rcases h with rfl | ⟨-, p, _, _, hp', -⟩
    · exact .inl ⟨e, rfl, by rw [DirectRouter.route, hp]⟩
    · rw [hp] at hp'; cases hp'
  | ok p =>
    have hwp := SearchProblem.ofQuery_wellPosed hw hf hp
    have hres := SearchProblem.ofQuery_resolves hw hf hp
    -- a router that searches the graph keeps no clearance, so the problem is the one that the room is judged by
    have hover : r.strategy = .graph → (s.Overfills q ↔ p.Overfills) := fun hg =>
      Slice.overfills_iff (hr.plain_of_graph hg ▸ hp)
    rcases h with rfl | ⟨hg, p', g, found, hp', hpg, hlight, rfl⟩
    · rw [DirectRouter.route, hp]
      by_cases hroom : r.Roomy s q
      · refine .inr (.inl ⟨hroom, p, p.solve r.strategy, rfl, SearchProblem.solve_answered hwp (fun hc => ?_) fun hg => ?_, rfl⟩)
        · exact hr (hres.clearance_eq ▸ hc)
        · exact (hover hg).not.mp (hroom hg)
      · obtain ⟨hg, ho⟩ := Classical.not_imp.mp hroom
        obtain ⟨f, hlimit, hsolve⟩ := SearchProblem.solve_overfilled hwp ((hover hg).mp (not_not.mp ho))
        refine .inr (.inr ⟨hroom, f, hlimit, ?_⟩)
        show (p.solve r.strategy).mapError RouteError.fault = _
        rw [hg, hsolve]
        rfl
    · rw [hp] at hp'
      cases hp'
      have hplain := hres.clearance_eq.trans (hr.plain_of_graph hg)
      have hsolved := SearchProblem.solved_of_lightest hwp (SearchProblem.graph?_edges hwp hplain hpg) hlight
      have hfits := ((SearchProblem.graph?_eq_ok hwp).mp hpg).1
      exact .inr (.inl ⟨fun _ => (hover hg).not.mpr fun ho => ho.unfit hfits, p, _, rfl, hsolved.conclude hwp, rfl⟩)

/-- A query fails where its problem cannot be built or its graph does not fit, and otherwise is answered by a best
region or by none if nothing connects the faces. -/
theorem MayAnswer.cases (hw : s.WellFormed) (hf : s.Fits) (hr : r.Coherent) (h : r.MayAnswer s q answer) :
    (∃ e, SearchProblem.ofQuery s q r.edpc = .error e ∧ answer = .error e) ∨
      (r.Roomy s q ∧ ∃ region, answer = .ok (some region) ∧ s.Best q r.edpc region) ∨
        (r.Roomy s q ∧ answer = .ok none ∧ ∀ path, ¬ s.Connects q r.edpc path) ∨
          (¬ r.Roomy s q ∧ ∃ f, f.IsLimit ∧ answer = .error (.fault f)) := by
  rcases h.answered hw hf hr with he | ⟨hroom, p, x, hp, hx, rfl⟩ | hover
  · exact .inl he
  · have hwp := SearchProblem.ofQuery_wellPosed hw hf hp
    have hres := SearchProblem.ofQuery_resolves hw hf hp
    rcases hx with ⟨region, rfl, hj⟩ | ⟨rfl, hn⟩
    · exact .inr (.inl ⟨hroom, region, rfl, hj.best hwp hres⟩)
    · exact .inr (.inr (.inl ⟨hroom, rfl, fun path hc => hn path (hres.isRoute_iff.mpr hc)⟩))
  · exact .inr (.inr (.inr hover))

theorem MayAnswer.found (hw : s.WellFormed) (hf : s.Fits) (hr : r.Coherent) (hm : r.Roomy s q)
    (h : r.MayAnswer s q answer) : s.Settled q r.edpc answer := by
  rcases h.cases hw hf hr with ⟨e, he, rfl⟩ | ⟨-, hfound⟩ | ⟨-, rfl, hn⟩ | ⟨hroom, -⟩
  · refine .inr ⟨nofun, fun path hc => ?_⟩
    obtain ⟨p, hp⟩ := SearchProblem.ofQuery_of_holds hw hf r.edpc hc.holds_source hc.holds_target
    rw [hp] at he; cases he
  · exact .inl hfound
  · exact .inr ⟨nofun, hn⟩
  · exact absurd hm hroom

/-- Between placed patches the answer is a best region or none, unless the graph does not fit. -/
theorem MayAnswer.held (hw : s.WellFormed) (hf : s.Fits) (hr : r.Coherent) (hsrc : s.Holds q.source)
    (htgt : s.Holds q.target) (h : r.MayAnswer s q answer) :
    (r.Roomy s q ∧ ((∃ region, answer = .ok (some region) ∧ s.Best q r.edpc region) ∨
      (answer = .ok none ∧ ∀ path, ¬ s.Connects q r.edpc path))) ∨
        (¬ r.Roomy s q ∧ ∃ f, f.IsLimit ∧ answer = .error (.fault f)) := by
  rcases h.cases hw hf hr with ⟨e, he, -⟩ | ⟨hm, hfound⟩ | ⟨hm, hnone⟩ | hover
  · obtain ⟨p, hp⟩ := SearchProblem.ofQuery_of_holds hw hf r.edpc hsrc htgt
    rw [hp] at he; cases he
  · exact .inl ⟨hm, .inl hfound⟩
  · exact .inl ⟨hm, .inr hnone⟩
  · exact .inr hover

theorem MayAnswer.placed (hw : s.WellFormed) (hf : s.Fits) (hr : r.Coherent) (hm : r.Roomy s q) (hsrc : s.Holds q.source)
    (htgt : s.Holds q.target) (h : r.MayAnswer s q answer) :
    (∃ region, answer = .ok (some region) ∧ s.Best q r.edpc region) ∨
      (answer = .ok none ∧ ∀ path, ¬ s.Connects q r.edpc path) := by
  rcases h.held hw hf hr hsrc htgt with ⟨-, hanswer⟩ | ⟨hroom, -⟩
  · exact hanswer
  · exact absurd hm hroom

theorem MayAnswer.sameCost (hw : s.WellFormed) (hf : s.Fits) {r' : DirectRouter}
    {answer' : Except RouteError (Option RoutingRegion)} (hr : r.Coherent) (hr' : r'.Coherent) (hm : r.Roomy s q)
    (hm' : r'.Roomy s q) (he : r'.edpc = r.edpc) (h : r.MayAnswer s q answer) (h' : r'.MayAnswer s q answer') :
    s.SameCost answer answer' :=
  (h.found hw hf hr hm).sameCost (he ▸ h'.found hw hf hr' hm')

theorem not_roomy_iff : ¬ r.Roomy s q ↔ r.strategy = .graph ∧ s.Overfills q := by
  unfold Roomy
  rw [Classical.not_imp, not_not]

theorem mayAnswer_route (r : DirectRouter) (s : Slice) (q : RouteQuery) : r.MayAnswer s q (r.route s q).1 := .inl rfl

theorem route_of_connects (hw : s.WellFormed) (hf : s.Fits) (hr : r.Coherent) (hm : r.Roomy s q) {path : List Cell}
    (hc : s.Connects q r.edpc path) : ∃ region, (r.route s q).1 = .ok (some region) := by
  rcases (mayAnswer_route r s q).found hw hf hr hm with ⟨region, h, -⟩ | ⟨-, hn⟩
  · exact ⟨region, h⟩
  · exact absurd hc (hn path)

theorem MayAnswer.concludes {region : RoutingRegion} (h : r.MayAnswer s q (.ok (some region))) :
    ∃ p found, SearchProblem.ofQuery s q r.edpc = .ok p ∧ p.conclude found = .ok (some region) := by
  rcases h with h | ⟨-, p, g, found, hp, -, -, h⟩
  · unfold DirectRouter.route at h
    cases hp : SearchProblem.ofQuery s q r.edpc with
    | error e => rw [hp] at h; cases h
    | ok p =>
      rw [hp] at h
      exact ⟨p, r.strategy.path? p, rfl, mapError_eq_ok.mp h.symm⟩
  · exact ⟨p, _, hp, mapError_eq_ok.mp h.symm⟩

/-- The anchors of a region belong to the patches of its query, on a slice of any size. -/
theorem route_anchored {region : RoutingRegion} (h : (r.route s q).1 = .ok (some region)) :
    (∃ c, s.Anchored q.source q.sourceOp region.source c) ∧ ∃ c, s.Anchored q.target q.targetOp region.target c := by
  obtain ⟨p, found, hp, hc⟩ := MayAnswer.concludes (.inl h.symm)
  obtain ⟨⟨a, ha, hsrc⟩, b, hb, htgt⟩ := SearchProblem.conclude_anchors hc
  obtain ⟨hsa, hta⟩ := SearchProblem.ofQuery_anchored hp
  exact ⟨⟨a.cell, hsrc ▸ hsa a ha⟩, b.cell, htgt ▸ hta b hb⟩

theorem MayAnswer.best (hw : s.WellFormed) (hf : s.Fits) (hr : r.Coherent) {region : RoutingRegion}
    (h : r.MayAnswer s q (.ok (some region))) : s.Best q r.edpc region := by
  rcases h.cases hw hf hr with ⟨e, -, he⟩ | ⟨-, region', hok, hb⟩ | ⟨-, hn, -⟩ | ⟨-, f, -, he⟩
  · cases he
  · cases hok; exact hb
  · cases hn
  · cases he

/-- A region that the router finds serves its query, whatever the strategy and the mode. -/
theorem route_serves (hs : s.Reachable) (hf : s.Fits) (hr : r.Coherent) {region : RoutingRegion}
    (h : r.MayAnswer s q (.ok (some region))) : s.Serves q region :=
  (h.best hs.wellFormed hf hr).serves

end DirectRouter

/-- Two square patches in the first row with two free cells between them. -/
def Slice.facing (rows cols : UInt32) : Slice :=
  (Slice.empty rows cols).performAll [.place (.square ⟨0⟩ ⟨0, 0⟩), .place (.square ⟨1⟩ ⟨0, 3⟩)]

namespace Slice

theorem facing_reachable (rows cols : UInt32) : (facing rows cols).Reachable := ⟨rows, cols, _, rfl⟩

section

variable {rows cols : UInt32} (hr : 1 ≤ rows.toNat) (hc : 4 ≤ cols.toNat)
include hr hc

theorem facing_eq :
    facing rows cols = ((empty rows cols).placed (.square ⟨0⟩ ⟨0, 0⟩)).placed (.square ⟨1⟩ ⟨0, 3⟩) := by
  have left : (empty rows cols).place (.square ⟨0⟩ ⟨0, 0⟩) = .ok ((empty rows cols).placed (.square ⟨0⟩ ⟨0, 0⟩)) := by
    refine place_eq_ok.mpr ⟨by decide, by simp [empty], fun c hm => ?_, rfl⟩
    cases List.mem_singleton.mp hm
    have hcol : 0 < cols.toNat := by omega
    exact ⟨inBounds_iff.mpr ⟨by decide, by decide, Int.ofNat_lt.mpr hr, Int.ofNat_lt.mpr hcol⟩, by simp [patchAt, empty]⟩
  have right : ((empty rows cols).placed (.square ⟨0⟩ ⟨0, 0⟩)).place (.square ⟨1⟩ ⟨0, 3⟩) =
      .ok (((empty rows cols).placed (.square ⟨0⟩ ⟨0, 0⟩)).placed (.square ⟨1⟩ ⟨0, 3⟩)) := by
    refine place_eq_ok.mpr ⟨by decide, fun q hq => ?_, fun c hm => ?_, rfl⟩
    · cases List.mem_singleton.mp hq
      decide
    · cases List.mem_singleton.mp hm
      refine ⟨inBounds_iff.mpr ⟨by decide, by decide, Int.ofNat_lt.mpr hr, Int.ofNat_lt.mpr hc⟩, ?_⟩
      rw [patchAt_placed, if_neg (by decide)]
      simp [patchAt, empty]
  simp only [facing, performAll, List.foldl_cons, List.foldl_nil, perform, left, right, Except.toOption,
    Option.getD_some]

theorem facing_size : (facing rows cols).rows = rows ∧ (facing rows cols).cols = cols := by
  rw [facing_eq hr hc]; exact ⟨rfl, rfl⟩

theorem facing_patches : (facing rows cols).patches = [.square ⟨0⟩ ⟨0, 0⟩, .square ⟨1⟩ ⟨0, 3⟩] := by
  rw [facing_eq hr hc]; rfl

theorem facing_connects : (facing rows cols).Connects ⟨⟨0⟩, .z, ⟨1⟩, .z⟩ false [⟨0, 1⟩, ⟨0, 2⟩] where
  usable c hmem := by
    simp only [List.mem_cons, List.not_mem_nil, or_false] at hmem
    have hb : (facing rows cols).inBounds c = true := by
      rw [inBounds_iff, (facing_size hr hc).1, (facing_size hr hc).2]
      rcases hmem with rfl | rfl
      · refine ⟨by decide, by decide, ?_, ?_⟩
        · show (0 : Int) < rows.toNat; omega
        · show (1 : Int) < cols.toNat; omega
      · refine ⟨by decide, by decide, ?_, ?_⟩
        · show (0 : Int) < rows.toNat; omega
        · show (2 : Int) < cols.toNat; omega
    have hu : ∀ p ∈ (facing rows cols).patches, p.covers c = false := by
      rw [facing_patches hr hc]
      rcases hmem with rfl | rfl <;> decide
    exact ⟨hb, hu, by simp⟩
  adjacent := .cons_cons ⟨.right, rfl⟩ (.singleton _)
  source := ⟨_, rfl, .square ⟨0⟩ ⟨0, 0⟩, by rw [facing_patches hr hc]; decide, rfl,
    ⟨0, 0⟩, .right, ⟨_, .head _, rfl, rfl⟩, rfl⟩
  target := ⟨_, rfl, .square ⟨1⟩ ⟨0, 3⟩, by rw [facing_patches hr hc]; decide, rfl,
    ⟨0, 3⟩, .left, ⟨_, .head _, rfl, rfl⟩, rfl⟩

end

/-! ### The patches alone in their row -/

def corridor : Slice := facing 1 4

theorem corridor_reachable : corridor.Reachable := facing_reachable 1 4

theorem corridor_eq :
    corridor = ((empty 1 4).placed (.square ⟨0⟩ ⟨0, 0⟩)).placed (.square ⟨1⟩ ⟨0, 3⟩) :=
  facing_eq (by decide) (by decide)

theorem corridor_size : corridor.rows = 1 ∧ corridor.cols = 4 := facing_size (by decide) (by decide)

theorem corridor_fits : corridor.Fits := by
  obtain ⟨hr, hc⟩ := corridor_size
  constructor
  · rw [hr]; decide
  · rw [hc]; decide
  · rw [hr, hc]; decide

theorem corridor_patches : corridor.patches = [.square ⟨0⟩ ⟨0, 0⟩, .square ⟨1⟩ ⟨0, 3⟩] :=
  facing_patches (by decide) (by decide)

theorem corridor_left : .square ⟨0⟩ ⟨0, 0⟩ ∈ corridor.patches := by rw [corridor_patches]; decide

theorem corridor_right : .square ⟨1⟩ ⟨0, 3⟩ ∈ corridor.patches := by rw [corridor_patches]; decide

theorem corridor_connects : corridor.Connects ⟨⟨0⟩, .z, ⟨1⟩, .z⟩ false [⟨0, 1⟩, ⟨0, 2⟩] :=
  facing_connects (by decide) (by decide)

theorem corridor_small : corridor.rows.toNat * corridor.cols.toNat ≤ 715827882 := by
  rw [corridor_size.1, corridor_size.2]; decide

/-! ### The patches on a grid too large for a graph -/

def expanse : Slice := facing 32771 32770

theorem expanse_reachable : expanse.Reachable := facing_reachable 32771 32770

theorem expanse_size : expanse.rows = 32771 ∧ expanse.cols = 32770 := facing_size (by decide) (by decide)

theorem expanse_patches : expanse.patches = [.square ⟨0⟩ ⟨0, 0⟩, .square ⟨1⟩ ⟨0, 3⟩] :=
  facing_patches (by decide) (by decide)

theorem expanse_fits : expanse.Fits := by
  obtain ⟨hr, hc⟩ := expanse_size
  constructor
  · rw [hr]; decide
  · rw [hc]; decide
  · rw [hr, hc]; decide

theorem expanse_connects : expanse.Connects ⟨⟨0⟩, .z, ⟨1⟩, .z⟩ false [⟨0, 1⟩, ⟨0, 2⟩] :=
  facing_connects (by decide) (by decide)

/-- The rows below the patches have a step more than there are numbers for edges. -/
theorem expanse_steps : Digraph.capacity < expanse.steps.length := by
  have hopen : ∀ c : Cell, 1 ≤ c.row.toInt → expanse.patchAt c = none := fun c hrow => by
    rw [Option.eq_none_iff_forall_ne_some]
    intro id hid
    obtain ⟨p, hp, -, hcov⟩ := expanse_reachable.wellFormed.covered.mp hid
    have hfirst : c.row = 0 := by
      rw [expanse_patches] at hp
      rcases List.mem_pair.mp hp with rfl | rfl
      · cases eq_of_beq ((Bool.or_false _).symm.trans hcov); rfl
      · cases eq_of_beq ((Bool.or_false _).symm.trans hcov); rfl
    rw [hfirst] at hrow
    exact absurd hrow (by decide)
  have hle : 32768 * (32768 * 4) ≤ expanse.steps.length :=
    block_steps_le expanse_fits (Nat.le_succ 1) (Nat.le_refl 1) (by rw [expanse_size.1]; decide)
      (by rw [expanse_size.2]; decide) fun c hrow _ _ _ => hopen c (by omega)
  exact hle

theorem overfills_of_connects {s : Slice} (hw : s.WellFormed) (hf : s.Fits) {q : RouteQuery} {path : List Cell}
    (hc : s.Connects q false path) (h : Digraph.capacity < s.steps.length) : s.Overfills q := by
  obtain ⟨p, hp⟩ := SearchProblem.ofQuery_of_holds hw hf false hc.holds_source hc.holds_target
  have hres := SearchProblem.ofQuery_resolves hw hf hp
  obtain ⟨a, ha, b, hb, -⟩ := hres.isRoute_iff.mpr hc
  refine ⟨p, hp, List.ne_nil_of_mem ha, List.ne_nil_of_mem hb, fun hfits => ?_⟩
  have hedges := hfits.edges
  rw [hres.slice_eq] at hedges
  omega

theorem expanse_overfills : expanse.Overfills ⟨⟨0⟩, .z, ⟨1⟩, .z⟩ :=
  overfills_of_connects expanse_reachable.wellFormed expanse_fits expanse_connects expanse_steps

end Slice

namespace DirectRouter

variable {s : Slice} {r : DirectRouter}

theorem corridor_roomy (r : DirectRouter) (q : RouteQuery) : r.Roomy .corridor q :=
  roomy_of_small Slice.corridor_reachable.wellFormed Slice.corridor_fits Slice.corridor_small r q

theorem route_serves_corridor : ∃ region,
    ((withStrategy .graph).route .corridor ⟨⟨0⟩, .z, ⟨1⟩, .z⟩).1 = .ok (some region) ∧
      Slice.corridor.Serves ⟨⟨0⟩, .z, ⟨1⟩, .z⟩ region := by
  have hw := Slice.corridor_reachable.wellFormed
  have hc := coherent_withStrategy .graph
  obtain ⟨region, h⟩ := route_of_connects hw Slice.corridor_fits hc (corridor_roomy _ _) Slice.corridor_connects
  exact ⟨region, h, route_serves Slice.corridor_reachable Slice.corridor_fits hc (.inl h.symm)⟩

/-- Between placed patches, the router finds a region if they are connected, and otherwise reports
that there is none. No walk that connects them costs less than the region, and strategies that search
the grid in the same mode differ in nothing but the way. -/
theorem route_cheapest (hs : s.Reachable) (hf : s.Fits) {q : RouteQuery} (hsrc : s.Holds q.source)
    (htgt : s.Holds q.target) (hr : r.strategy ≠ .graph) :
    ((∃ region, (r.route s q).1 = .ok (some region)) ↔ ∃ path, s.Connects q r.edpc path) ∧
      ((r.route s q).1 = .ok none ↔ ¬ ∃ path, s.Connects q r.edpc path) ∧
      (∀ region, (r.route s q).1 = .ok (some region) → s.Connects q r.edpc region.path ∧
        ∃ k, region.cost s = .ok k ∧ ∀ path, s.Connects q r.edpc path → k ≤ s.pathCost path) ∧
      ∀ r' : DirectRouter, r'.strategy ≠ .graph → r'.edpc = r.edpc → s.SameCost (r.route s q).1 (r'.route s q).1 := by
  have hc := coherent_of_ne_graph hr
  have hm := roomy_of_ne_graph (s := s) (q := q) hr
  have hroute := mayAnswer_route r s q
  refine ⟨?_, ?_, fun region h => ?_, fun r' hr' he => ?_⟩
  · rcases hroute.found hs.wellFormed hf hc hm with ⟨region, h, hb⟩ | ⟨hn, hcon⟩
    · exact ⟨fun _ => ⟨_, hb.connects⟩, fun _ => ⟨region, h⟩⟩
    · exact ⟨fun ⟨region, h⟩ => absurd h (hn region), fun ⟨path, h⟩ => absurd h (hcon path)⟩
  · rcases hroute.placed hs.wellFormed hf hc hm hsrc htgt with ⟨region, h, hb⟩ | ⟨h, hn⟩
    · exact ⟨fun hn => (nomatch h.symm.trans hn), fun hno => absurd ⟨_, hb.connects⟩ hno⟩
    · exact ⟨fun _ ⟨path, hp⟩ => hn path hp, fun _ => h⟩
  · rcases hroute.found hs.wellFormed hf hc hm with ⟨region', h', hb⟩ | ⟨hn, -⟩
    · rw [h] at h'
      cases h'
      exact ⟨hb.connects, _, hb.cost, hb.least⟩
    · exact absurd h (hn region)
  · exact hroute.sameCost hs.wellFormed hf hc (coherent_of_ne_graph hr') hm (roomy_of_ne_graph hr') he
      (mayAnswer_route r' s q)

theorem route_cheapest_corridor : ∃ region,
    ((withStrategy .dijkstra).route .corridor ⟨⟨0⟩, .z, ⟨1⟩, .z⟩).1 = .ok (some region) := by
  have hr : (withStrategy .dijkstra).strategy ≠ .graph := by decide
  exact (route_cheapest Slice.corridor_reachable Slice.corridor_fits Slice.corridor_connects.holds_source
    Slice.corridor_connects.holds_target hr).1.mpr ⟨_, Slice.corridor_connects⟩

/-! ## The explicit graph -/

/-- Without clearance, a problem has a graph exactly if the graph fits. The walks between its terminals are then the
walks of free cells between entries, with their costs as weights, so that any search for a lightest walk serves as
well as the strategies over the grid. A router that searches the graph in such a way finds a region whenever one that
searches the grid does, at the same cost, and where the graph overfills it fails. -/
theorem graph_faithful (hs : s.Reachable) (hf : s.Fits) :
    (∀ {a b : Patch} {aOp bOp : Pauli} {p : SearchProblem}, SearchProblem.ofPatches s a aOp b bOp false = .ok p →
      (p.GraphFits → ∃ g, p.graph? = .ok (some g) ∧
        (∀ nodes k, g.Walk .source .target nodes k ↔ ∃ path : List Cell, (∀ c ∈ path, s.isFree c = true) ∧
          path.IsChain Cell.Adjacent ∧ (∃ e ∈ p.sources, path.head? = some e.cell) ∧
          (∃ e ∈ p.targets, path.getLast? = some e.cell) ∧
          nodes = .source :: path.map .free ++ [.target] ∧ k = s.pathCost path) ∧
        ∀ answer, g.Lightest .source .target answer → ∀ strategy,
          s.SameCost (p.conclude (.ok (answer.map (·.filterMap CellNode.cell?)))) (p.solve strategy)) ∧
      (¬ p.GraphFits → ∃ f, f.IsLimit ∧ p.graph? = .error f)) ∧
      ∀ {q n answer}, (⟨.graph, false, n⟩ : DirectRouter).MayAnswer s q answer →
        (¬ s.Overfills q → ∀ strategy m, s.SameCost answer ((⟨strategy, false, m⟩ : DirectRouter).route s q).1) ∧
        (s.Overfills q → ∃ f, f.IsLimit ∧ answer = .error (.fault f)) := by
  constructor
  · intro a b aOp bOp p h
    have hp := SearchProblem.ofPatches_wellPosed hs.wellFormed hf h
    have hterrain := (SearchProblem.ofPatches_eq_ok h).1
    have hslice : p.slice = s := by rw [SearchProblem.slice, hterrain]
    have hplain : p.terrain.clearance = false := by rw [hterrain]
    refine ⟨fun hfits => ?_, SearchProblem.graph?_overfilled hp⟩
    obtain ⟨g, hg⟩ := SearchProblem.graph?_total hp hfits
    refine ⟨g, hg, fun nodes k => ?_, fun answer ha strategy => ?_⟩
    · rw [SearchProblem.graph_walk_iff hp (SearchProblem.graph?_edges hp hplain hg)]
      apply exists_congr
      intro path
      have hfree : (∀ c ∈ path, p.terrain.Routable c) ↔ ∀ c ∈ path, s.isFree c = true :=
        forall₂_congr fun c _ => by rw [Terrain.routable_iff_isFree hplain, ← hslice]; rfl
      rw [SearchProblem.isRoute_iff, hfree, hslice]
      simp only [and_assoc]
    · have hsolved := SearchProblem.solved_of_lightest hp (SearchProblem.graph?_edges hp hplain hg) ha
      have hans : p.Answered (p.solve strategy) :=
        SearchProblem.solve_answered hp (fun hc => by rw [hplain] at hc; cases hc) fun _ ho => ho.unfit hfits
      exact hslice ▸ (hsolved.conclude hp).sameCost hans
  · intro q n answer h
    have hw := hs.wellFormed
    have hcoh : ∀ strategy m, (⟨strategy, false, m⟩ : DirectRouter).Coherent := fun _ _ => coherent_plain rfl
    refine ⟨fun hroom strategy m => ?_, fun hover => ?_⟩
    · exact h.sameCost hw hf (hcoh .graph n) (hcoh strategy m) (fun _ => hroom) (fun _ => hroom) rfl
        (mayAnswer_route ⟨strategy, false, m⟩ s q)
    · rcases h.cases hw hf (hcoh _ _) with ⟨e, he, -⟩ | ⟨hroom, -⟩ | ⟨hroom, -⟩ | ⟨-, hfault⟩
      · obtain ⟨p, hp, -⟩ := hover
        rw [hp] at he; cases he
      · exact absurd hover (hroom rfl)
      · exact absurd hover (hroom rfl)
      · exact hfault

theorem graph_faithful_corridor : ∃ a b p g, SearchProblem.ofPatches .corridor a .z b .z false = .ok p ∧
    p.graph? = .ok (some g) ∧ g.Walk .source .target [.source, .free ⟨0, 1⟩, .free ⟨0, 2⟩, .target]
      (Slice.corridor.pathCost [⟨0, 1⟩, ⟨0, 2⟩]) := by
  have hw := Slice.corridor_reachable.wellFormed
  have hc := Slice.corridor_connects
  obtain ⟨p, hp⟩ := SearchProblem.ofQuery_of_holds hw Slice.corridor_fits false hc.holds_source hc.holds_target
  obtain ⟨a, b, -, -, h⟩ := SearchProblem.ofQuery_eq_ok.mp hp
  have hslice : p.slice.rows.toNat * p.slice.cols.toNat ≤ 715827882 := by
    rw [SearchProblem.ofPatches_slice h]
    exact Slice.corridor_small
  have hfits := SearchProblem.graphFits_of_small (SearchProblem.ofPatches_wellPosed hw Slice.corridor_fits h) hslice
  obtain ⟨g, hg, hwalk, -⟩ := ((graph_faithful Slice.corridor_reachable Slice.corridor_fits).1 h).1 hfits
  have hroute := (SearchProblem.ofQuery_resolves hw Slice.corridor_fits hp).isRoute_iff.mpr hc
  obtain ⟨-, hch, hsrc, htgt⟩ := SearchProblem.isRoute_iff.mp hroute
  refine ⟨a, b, p, g, h, hg, (hwalk _ _).mpr ⟨[⟨0, 1⟩, ⟨0, 2⟩], fun c hc' => ?_, hch, hsrc, htgt, rfl, rfl⟩⟩
  exact hw.isFree_iff.mpr ⟨(hc.usable c hc').inBounds, (hc.usable c hc').uncovered⟩

theorem expanse_answer {answer : Except RouteError (Option RoutingRegion)}
    (h : (withStrategy .graph).MayAnswer .expanse ⟨⟨0⟩, .z, ⟨1⟩, .z⟩ answer) :
    ∃ f, f.IsLimit ∧ answer = .error (.fault f) := by
  have hc := Slice.expanse_connects
  rcases h.held Slice.expanse_reachable.wellFormed Slice.expanse_fits (coherent_withStrategy .graph) hc.holds_source
    hc.holds_target with ⟨hroom, -⟩ | ⟨-, hfault⟩
  · exact absurd Slice.expanse_overfills (hroom rfl)
  · exact hfault

/-- On the large grid the problem between the two patches has no graph. The grid is searched with success, and the
graph is not, whatever the search over it would be. -/
theorem graph_overfilled_expanse : Slice.expanse.Reachable ∧ Slice.expanse.Fits ∧
    (∃ a b p, SearchProblem.ofPatches .expanse a .z b .z false = .ok p ∧ ∀ g, p.graph? ≠ .ok (some g)) ∧
    (∃ region, ((withStrategy .dijkstra).route .expanse ⟨⟨0⟩, .z, ⟨1⟩, .z⟩).1 = .ok (some region)) ∧
    ∀ answer, (withStrategy .graph).MayAnswer .expanse ⟨⟨0⟩, .z, ⟨1⟩, .z⟩ answer →
      ∀ region, answer ≠ .ok (some region) := by
  have hw := Slice.expanse_reachable.wellFormed
  have hf := Slice.expanse_fits
  obtain ⟨p, hp, ho⟩ := Slice.expanse_overfills
  obtain ⟨a, b, -, -, h⟩ := SearchProblem.ofQuery_eq_ok.mp hp
  refine ⟨Slice.expanse_reachable, hf, ⟨a, b, p, h, fun g hg => ?_⟩, ?_, fun answer hanswer region => ?_⟩
  · exact ho.unfit ((SearchProblem.graph?_eq_ok (SearchProblem.ofPatches_wellPosed hw hf h)).mp hg).1
  · exact route_of_connects hw hf (coherent_withStrategy .dijkstra) (roomy_of_ne_graph (by decide)) Slice.expanse_connects
  · obtain ⟨f, -, rfl⟩ := expanse_answer hanswer
    nofun

end DirectRouter

end AncillaRouting
