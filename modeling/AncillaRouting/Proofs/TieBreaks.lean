import AncillaRouting.Proofs.Obstacles
import AncillaRouting.Proofs.VisitOrder

/-!
# Which of the cheapest routes is found

The strategies over the grid find the route that their order of candidates prescribes. It ends at the first of
the nearest target entries, by row and then by column. From there back, every cell comes after the one that is
first, by estimate, row and column, of those over which it is reached at the least cost.
-/

namespace AncillaRouting

open Outcome

/-! ## The prescribed route -/

/-- By number, then by row, then by column, `c` with `j` is not later than `d` with `k`. -/
def Cell.NoLater (j : Nat) (c : Cell) (k : Nat) (d : Cell) : Prop :=
  j < k ∨ j = k ∧ (c.row.toInt < d.row.toInt ∨ c.row.toInt = d.row.toInt ∧ c.col.toInt ≤ d.col.toInt)

namespace SearchProblem

variable {p : SearchProblem} {h : Cell → Nat} {c d u v x : Cell} {j k : Nat} {nodes path : List Cell}

/-- No walk of routable cells from a source entry to the cell costs less than `k`, and one costs that much. -/
structure Dist (p : SearchProblem) (c : Cell) (k : Nat) : Prop where
  attained : ∃ a ∈ p.sources, ∃ path, p.terrain.Walk a.cell c path ∧ p.slice.pathCost path = k
  least : ∀ a ∈ p.sources, ∀ path, p.terrain.Walk a.cell c path → k ≤ p.slice.pathCost path

/-- Of the cells over which `v` is reached at the least cost, `u` is the first by `h`, row and column. -/
structure Chosen (p : SearchProblem) (h : Cell → Nat) (u v : Cell) : Prop where
  adjacent : u.Adjacent v
  dist : ∃ j, p.Dist u j ∧ p.Dist v (j + p.cellCost v)
  first : ∀ x j, x.Adjacent v → p.Dist x j → p.Dist v (j + p.cellCost v) → Cell.NoLater (h u) u (h x) x

/-- The way back from a cell by the chosen cells, to the first source entry that is met. -/
inductive Retraces (p : SearchProblem) (h : Cell → Nat) : Cell → List Cell → Prop where
  | source {c : Cell} (hc : ∃ a ∈ p.sources, a.cell = c) : Retraces p h c [c]
  | step {u v : Cell} {nodes : List Cell} (hv : ¬ ∃ a ∈ p.sources, a.cell = v) (hu : p.Chosen h u v)
      (r : Retraces p h u nodes) : Retraces p h v (v :: nodes)

/-- The path leads to the first target entry by least cost, row and column, along the way back from there. -/
def Prescribed (p : SearchProblem) (h : Cell → Nat) (path : List Cell) : Prop :=
  ∃ b ∈ p.targets, p.Retraces h b.cell path.reverse ∧
    ∃ k, p.Dist b.cell k ∧ ∀ e ∈ p.targets, ∀ j, p.Dist e.cell j → Cell.NoLater k b.cell j e.cell

/-- How far it is to the nearest target entry, along the rows and along the columns together. -/
def nearest (p : SearchProblem) (c : Cell) : Nat := (p.targets.map fun b => c.apart b.cell).min?.getD 0

end SearchProblem

/-! ## There is only one -/

theorem Cell.NoLater.refl (k : Nat) (c : Cell) : NoLater k c k c :=
  .inr ⟨rfl, .inr ⟨rfl, Int.le_refl _⟩⟩

theorem Cell.NoLater.antisymm {c d : Cell} {j k : Nat} (h : NoLater j c k d) (h' : NoLater k d j c) : c = d := by
  unfold NoLater at h h'
  rw [Cell.ext_iff']
  omega

namespace SearchProblem

variable {p : SearchProblem} {h : Cell → Nat} {c d u v x : Cell} {j k : Nat} {nodes path : List Cell}

theorem Chosen.unique (hu : p.Chosen h u v) (hx : p.Chosen h x v) : u = x := by
  obtain ⟨j, hj, hjv⟩ := hu.dist
  obtain ⟨k, hk, hkv⟩ := hx.dist
  exact (hu.first x k hx.adjacent hk hkv).antisymm (hx.first u j hu.adjacent hj hjv)

theorem Retraces.unique (r : p.Retraces h v nodes) : ∀ {nodes'}, p.Retraces h v nodes' → nodes = nodes' := by
  induction r with
  | source hc =>
    intro nodes' r'
    cases r' with
    | source => rfl
    | step hv => exact absurd hc hv
  | step hv hu r ih =>
    intro nodes' r'
    cases r' with
    | source hc => exact absurd hc hv
    | step _ hx r' =>
      obtain rfl := hu.unique hx
      rw [ih r']

theorem Prescribed.unique {path' : List Cell} (hp : p.Prescribed h path) (hp' : p.Prescribed h path') :
    path = path' := by
  obtain ⟨b, hb, r, k, hk, hfirst⟩ := hp
  obtain ⟨b', hb', r', k', hk', hfirst'⟩ := hp'
  have hcell : b.cell = b'.cell := (hfirst b' hb' k' hk').antisymm (hfirst' b hb k hk)
  rw [← hcell] at r'
  exact List.reverse_injective (r.unique r')

/-! ## The grid is searched in order -/

variable {add : Nat → Nat → Except Fault Nat} {remaining : Cell → Except Fault Nat}

theorem Dist.unique (hj : p.Dist c j) (hk : p.Dist c k) : j = k := by
  obtain ⟨a, ha, path, w, rfl⟩ := hj.attained
  obtain ⟨b, hb, other, w', rfl⟩ := hk.attained
  exact Nat.le_antisymm (hj.least b hb other w') (hk.least a ha path w)

theorem Dist.routable (hd : p.Dist c k) : p.terrain.Routable c := by
  obtain ⟨a, -, path, w, -⟩ := hd.attained
  exact w.routable c (List.mem_of_getLast? (Terrain.walk_iff.mp w).2.2.2)

theorem Dist.pos (hp : p.WellPosed) (hd : p.Dist c k) : 0 < k := by
  obtain ⟨a, -, path, w, rfl⟩ := hd.attained
  cases path with
  | nil => exact absurd rfl w.ne_nil
  | cons d path =>
    have hd : 0 < (p.slice.cost d).toNat := hp.paid d
    rw [Slice.pathCost_cons]
    omega

/-- A cell is no cheaper to reach than it is far. -/
theorem Dist.apart_lt (paid : ∀ c, 0 < p.cellCost c) (hsrc : ∀ e ∈ p.sources, e.cell = v) (hd : p.Dist c k) :
    v.apart c < k := by
  obtain ⟨a, ha, path, w, rfl⟩ := hd.attained
  rw [← hsrc a ha]
  exact apart_lt_of_walk paid w

/-- A walk is a cheapest one if it costs one more than it leads away. -/
theorem dist_of_straight (paid : ∀ c, 0 < p.cellCost c) {a : EntryPoint} (ha : a ∈ p.sources)
    (hsrc : ∀ e ∈ p.sources, e.cell = a.cell) (w : p.terrain.Walk a.cell c path)
    (hcost : p.slice.pathCost path = a.cell.apart c + 1) : p.Dist c (p.slice.pathCost path) := by
  refine ⟨⟨a, ha, path, w, rfl⟩, fun e he other w' => ?_⟩
  have hlt := apart_lt_of_walk paid w'
  rw [hsrc e he] at hlt
  omega

theorem grid_dist (hp : p.WellPosed) : (p.grid add remaining).Dist c k ↔ p.Dist c k := by
  constructor
  · intro hd
    constructor
    · obtain ⟨nodes, t⟩ := hd.attained
      obtain ⟨⟨a, ha, w⟩, rfl⟩ := walk_of_trail hp.grounded t
      exact ⟨a, ha, _, w, Slice.pathCost_reverse nodes⟩
    · intro a ha path w
      exact hd.least (trail_of_walk hp.grounded ha w)
  · intro hd
    constructor
    · obtain ⟨a, ha, path, w, rfl⟩ := hd.attained
      exact ⟨_, trail_of_walk hp.grounded ha w⟩
    · intro nodes j t
      obtain ⟨⟨a, ha, w⟩, rfl⟩ := walk_of_trail hp.grounded t
      have := hd.least a ha _ w
      rwa [Slice.pathCost_reverse] at this

theorem grid_guided (hp : p.WellPosed) (hadd : ∀ {a b c}, add a b = .ok c → c = a + b)
    (hrem : ∀ {c n}, remaining c = .ok n → n = h c) (hcons : ∀ {u v : Cell}, u.Adjacent v → h u ≤ h v + 1) :
    (p.grid add remaining).Guided h where
  toLawful := grid_lawful hp.grounded hadd
  remaining_eq := hrem
  paid e := by
    obtain ⟨-, -, rfl⟩ := grid_edge e
    exact hp.paid _
  consistent {u v w} e := by
    obtain ⟨hadj, -, rfl⟩ := grid_edge e
    have := hp.paid v
    have := hcons hadj
    omega
  first he hc := by
    apply Candidate.gridBefore_iff.mpr
    omega
  total {a b} hab hba := by
    have h1 := mt Candidate.gridBefore_iff.mpr (Bool.eq_false_iff.mp hab)
    have h2 := mt Candidate.gridBefore_iff.mpr (Bool.eq_false_iff.mp hba)
    have hest : a.estimate = b.estimate := by omega
    have hcost : a.cost = b.cost := by omega
    have hnode : a.node = b.node := by rw [Cell.ext_iff']; omega
    cases a
    cases b
    cases hest
    cases hcost
    cases hnode
    rfl
  starts_nodup := by
    have hcells : (p.grid add remaining).starts.map (·.1) = p.sources.map (·.cell) := by simp [grid]
    rw [hcells]
    exact hp.sources_distinct

theorem noLater_of_before (hb : x = u ∨ Candidate.gridBefore (.of h u k) (.of h x k) = true) :
    Cell.NoLater (h u) u (h x) x := by
  rcases hb with rfl | hb
  · exact .refl (h x) x
  · have := Candidate.gridBefore_iff.mp hb
    simp only [Candidate.of] at this
    unfold Cell.NoLater
    omega

theorem retraces_of_lineage (hp : p.WellPosed) (l : (p.grid add remaining).Lineage h v nodes k) :
    p.Retraces h v nodes := by
  induction l with
  | start hs hd =>
    obtain ⟨a, ha, hav, -⟩ := mem_starts.mp hs
    exact .source ⟨a, ha, hav⟩
  | @step u v nodes k w l e hd first ih =>
    obtain ⟨hadj, hr, rfl⟩ := grid_edge e
    have hu := (grid_dist hp).mp l.dist
    have hv := (grid_dist hp).mp hd
    refine .step ?_ ⟨hadj, ⟨k, hu, hv⟩, fun x j hx hj hjv => ?_⟩ ih
    · -- the least cost of a source entry is its own
      intro ⟨a, ha, hav⟩
      have hle := hd.least (.start (mem_starts.mpr ⟨a, ha, hav, rfl⟩))
      have := hu.pos hp
      omega
    · have hjk := hv.unique hjv
      obtain rfl : j = k := by omega
      exact noLater_of_before (first ((grid_dist hp).mpr hj) (hp.grounded.edge hj.routable hx hr) rfl)

theorem grid_prescribed (hp : p.WellPosed) (g : (p.grid add remaining).Guided h) (hzero : ∀ b ∈ p.targets, h b.cell = 0)
    (hpath : (p.grid add remaining).bestPath? = .ok (some path)) : p.Prescribed h path := by
  obtain ⟨goal, k, hg, l, hd, hfirst⟩ := SearchSpace.bestPath?_lineage g hpath
  obtain ⟨b, hb, rfl⟩ := isTarget_iff.mp hg
  refine ⟨b, hb, retraces_of_lineage hp l, k, (grid_dist hp).mp hd, fun e he j hj => ?_⟩
  rcases hfirst (isTarget_iff.mpr ⟨e, he, rfl⟩) ((grid_dist hp).mpr hj) with heq | hbefore
  · rw [heq] at hj ⊢
    rw [((grid_dist hp).mp hd).unique hj]
    exact .refl j b.cell
  · have := Candidate.gridBefore_iff.mp hbefore
    simp only [Candidate.of, hzero b hb, hzero e he] at this
    unfold Cell.NoLater
    omega

theorem Solved.found {answer : Except Fault (Option (List Cell))} (hs : p.Solved answer) {route : List Cell}
    (hr : p.IsRoute route) : ∃ path, answer = .ok (some path) := by
  rcases hs with ⟨path, hpath, -⟩ | ⟨-, hn⟩
  · exact ⟨path, hpath⟩
  · exact absurd hr (hn route)

theorem Prescribed.route (hp : p.Prescribed h path) : ∃ route, p.IsRoute route := by
  obtain ⟨b, hb, -, k, hd, -⟩ := hp
  obtain ⟨a, ha, route, w, -⟩ := hd.attained
  exact ⟨route, a, ha, b, hb, w⟩

/-- What is found is what is prescribed, if all that is found is prescribed. -/
theorem Solved.iff_prescribed {answer : Except Fault (Option (List Cell))} (hs : p.Solved answer)
    (hprescribed : ∀ path, answer = .ok (some path) → p.Prescribed h path) :
    answer = .ok (some path) ↔ p.Prescribed h path := by
  constructor
  · exact hprescribed path
  · intro hpath
    obtain ⟨route, hr⟩ := hpath.route
    obtain ⟨other, hother⟩ := hs.found hr
    rw [hother, (hprescribed other hother).unique hpath]

/-! ## The estimate -/

theorem nearest_le {b : EntryPoint} (hb : b ∈ p.targets) (c : Cell) : p.nearest c ≤ c.apart b.cell := by
  unfold nearest
  cases hmin : (p.targets.map fun b => c.apart b.cell).min? with
  | none => exact Nat.zero_le _
  | some m => exact (List.min?_eq_some_iff.mp hmin).2 _ (List.mem_map.mpr ⟨b, hb, rfl⟩)

theorem nearest_target {b : EntryPoint} (hb : b ∈ p.targets) : p.nearest b.cell = 0 := by
  have := nearest_le hb b.cell
  rw [Cell.apart_self] at this
  omega

theorem nearest_attained (h : p.targets ≠ []) (c : Cell) : ∃ b ∈ p.targets, p.nearest c = c.apart b.cell := by
  cases hmin : (p.targets.map fun b => c.apart b.cell).min? with
  | none => exact absurd (by simpa using hmin) h
  | some m =>
    obtain ⟨b, hb, rfl⟩ := List.mem_map.mp (List.min?_eq_some_iff.mp hmin).1
    exact ⟨b, hb, by rw [nearest, hmin]; rfl⟩

theorem nearest_eq_zero_iff (h : p.targets ≠ []) : p.nearest c = 0 ↔ ∃ b ∈ p.targets, b.cell = c := by
  constructor
  · intro hzero
    obtain ⟨b, hb, hc⟩ := nearest_attained h c
    rw [hzero] at hc
    exact ⟨b, hb, (Cell.apart_eq_zero_iff.mp hc.symm).symm⟩
  · rintro ⟨b, hb, rfl⟩
    exact nearest_target hb

theorem nearest_adjacent (huv : u.Adjacent v) : p.nearest u ≤ p.nearest v + 1 := by
  by_cases hnone : p.targets = []
  · simp [nearest, hnone]
  · obtain ⟨b, hb, hv⟩ := nearest_attained hnone v
    calc
      p.nearest u ≤ u.apart b.cell := nearest_le hb u
      _ = b.cell.apart u := Cell.apart_comm ..
      _ ≤ b.cell.apart v + 1 := huv.symm.apart_le b.cell
      _ = p.nearest v + 1 := by rw [hv, Cell.apart_comm]

theorem eq_nearest {n : Nat} (hn : p.nearestTarget c = .ok n) : n = p.nearest c := by
  obtain ⟨ds, hds, hmin⟩ := bind_eq_ok.mp hn
  cases hmin
  rw [eq_map_of_mapM Cell.eq_apart_of_distance hds]
  rfl

/-! ## Around a corner of the yard -/

theorem yard_problem : ∃ a b p, ofPatches .yard a .z b .x false = .ok p ∧ p.WellPosed ∧
    p.Resolves .yard ⟨⟨0⟩, .z, ⟨1⟩, .x⟩ false := by
  have hw := Slice.yard_reachable.wellFormed
  have hc := Slice.yard_turns (.inl rfl)
  obtain ⟨p, hq⟩ := ofQuery_of_holds hw Slice.yard_fits false hc.holds_source hc.holds_target
  obtain ⟨a, b, -, -, hp⟩ := ofQuery_eq_ok.mp hq
  exact ⟨a, b, p, hp, ofQuery_wellPosed hw Slice.yard_fits hq, ofQuery_resolves hw Slice.yard_fits hq⟩

section

variable (hp : p.WellPosed) (hr : p.Resolves .yard ⟨⟨0⟩, .z, ⟨1⟩, .x⟩ false)
include hp hr

omit hp in
theorem yard_onBoard {c : Cell} (hc : p.terrain.Routable c) : Slice.yard.board.inBounds c = true := by
  rw [Slice.board_inBounds, ← hr.slice_eq]
  exact hc.inBounds

theorem yard_source {e : EntryPoint} (he : e ∈ p.sources) : e.cell = ⟨0, 1⟩ := by
  have hleft : .square ⟨0⟩ ⟨0, 0⟩ ∈ Slice.yard.patches := by rw [Slice.yard_patches]; decide
  obtain ⟨side, hside, hc⟩ := (hr.source_anchored e he).square Slice.yard_reachable.wellFormed hleft
  have hin := yard_onBoard hr (hp.sources_routable e he)
  cases side with
  | top => cases hside
  | bottom => cases hside
  | left =>
    rw [Slice.yard_board, ← Except.ok.inj hc] at hin
    exact absurd hin (by decide)
  | right => exact (Except.ok.inj hc).symm

theorem yard_target {e : EntryPoint} (he : e ∈ p.targets) : e.cell = ⟨1, 3⟩ := by
  obtain ⟨side, hside, hc⟩ := (hr.target_anchored e he).square Slice.yard_reachable.wellFormed Slice.yard_right_mem
  have hin := yard_onBoard hr (hp.targets_routable e he)
  cases side with
  | top =>
    rw [Slice.yard_board, ← Except.ok.inj hc] at hin
    exact absurd hin (by decide)
  | bottom => exact (Except.ok.inj hc).symm
  | left => cases hside
  | right => cases hside

theorem yard_dist (path : List Cell) (hch : path.IsChain fun c d => c.apart d = 1) (hhead : path.head? = some ⟨0, 1⟩)
    (hlast : path.getLast? = some c) (hrows : ∀ d ∈ path, d ∈ Slice.yardRows)
    (hlength : path.length = Cell.apart ⟨0, 1⟩ c + 1) : p.Dist c path.length := by
  obtain ⟨a, ha, -⟩ := hr.isRoute_iff.mpr (Slice.yard_turns (.inl rfl))
  have hcell := yard_source hp hr ha
  have hwalk : p.terrain.Walk a.cell c path := by
    rw [hcell, Terrain.walk_iff]
    exact ⟨fun d hd => (hr.routable d).mpr (Slice.yard_usable d (hrows d hd)),
      hch.imp fun _ _ => Cell.adjacent_iff_apart_eq_one.mpr, hhead, hlast⟩
  have hcost : p.slice.pathCost path = path.length := by
    rw [hr.slice_eq, Slice.yard_pathCost]
  have hstraight := dist_of_straight hp.paid ha (fun e he => (yard_source hp hr he).trans hcell.symm) hwalk
    (by rw [hcost, hcell]; exact hlength)
  rwa [hcost] at hstraight

theorem yard_nearest (c : Cell) : p.nearest c = c.apart ⟨1, 3⟩ := by
  obtain ⟨-, -, b, hb, -⟩ := hr.isRoute_iff.mpr (Slice.yard_turns (.inl rfl))
  obtain ⟨e, he, hn⟩ := nearest_attained (List.ne_nil_of_mem hb) c
  rw [hn, yard_target hp hr he]

theorem yard_retraces (hu : p.Dist u j) (hv : p.Dist v (j + 1)) (huv : u.Adjacent v) (hne : v ≠ ⟨0, 1⟩)
    (hfirst : ∀ side x, v.neighbour side = .ok x → p.terrain.Routable x → Cell.apart ⟨0, 1⟩ x < j →
      Cell.NoLater (h u) u (h x) x) (r : p.Retraces h u nodes) : p.Retraces h v (v :: nodes) := by
  have hone : p.cellCost v = 1 := by rw [cellCost, hr.slice_eq, Slice.yard_cost]; rfl
  refine .step ?_ ⟨huv, ⟨j, hu, hone ▸ hv⟩, fun x k hx hk hkv => ?_⟩ r
  · rintro ⟨e, he, rfl⟩
    exact hne (yard_source hp hr he)
  · obtain ⟨side, hside⟩ := hx.symm
    have hjk := hkv.unique hv
    obtain rfl : k = j := by omega
    exact hfirst side x hside hk.routable (hk.apart_lt hp.paid fun e he => yard_source hp hr he)

/-- The upper turn is prescribed, unless the estimate prefers the lower one. -/
theorem yard_prescribed (hh : h ⟨0, 2⟩ ≤ h ⟨1, 1⟩) : p.Prescribed h Slice.upperTurn := by
  obtain ⟨a, ha, b, hb, -⟩ := hr.isRoute_iff.mpr (Slice.yard_turns (.inl rfl))
  have h1 : p.Dist ⟨0, 1⟩ 1 := yard_dist hp hr [⟨0, 1⟩] (by decide) rfl rfl (by decide) (by decide)
  have h2 : p.Dist ⟨0, 2⟩ 2 := yard_dist hp hr [⟨0, 1⟩, ⟨0, 2⟩] (by decide) rfl rfl (by decide) (by decide)
  have h3 : p.Dist ⟨1, 2⟩ 3 := yard_dist hp hr [⟨0, 1⟩, ⟨0, 2⟩, ⟨1, 2⟩] (by decide) rfl rfl (by decide) (by decide)
  have h4 : p.Dist ⟨1, 3⟩ 4 := yard_dist hp hr Slice.upperTurn (by decide) rfl rfl (by decide) (by decide)
  have r1 : p.Retraces h ⟨0, 1⟩ [⟨0, 1⟩] := .source ⟨a, ha, yard_source hp hr ha⟩
  have r2 : p.Retraces h ⟨0, 2⟩ [⟨0, 2⟩, ⟨0, 1⟩] := by
    refine yard_retraces hp hr h1 h2 ⟨.right, rfl⟩ (by decide) (fun side x hx _ hlt => ?_) r1
    cases side with
    | top => cases hx; exact absurd hlt (by decide)
    | bottom => cases hx; exact absurd hlt (by decide)
    | left => cases hx; exact .refl _ _
    | right => cases hx; exact absurd hlt (by decide)
  have r3 : p.Retraces h ⟨1, 2⟩ [⟨1, 2⟩, ⟨0, 2⟩, ⟨0, 1⟩] := by
    refine yard_retraces hp hr h2 h3 ⟨.bottom, rfl⟩ (by decide) (fun side x hx _ hlt => ?_) r2
    cases side with
    | top => cases hx; exact .refl _ _
    | bottom => cases hx; exact absurd hlt (by decide)
    | left =>
      -- the other turn comes from the row below
      cases hx
      exact (Nat.lt_or_eq_of_le hh).imp id fun heq => ⟨heq, .inl (by decide)⟩
    | right => cases hx; exact absurd hlt (by decide)
  have r4 : p.Retraces h ⟨1, 3⟩ [⟨1, 3⟩, ⟨1, 2⟩, ⟨0, 2⟩, ⟨0, 1⟩] := by
    refine yard_retraces hp hr h3 h4 ⟨.right, rfl⟩ (by decide) (fun side x hx hroutable hlt => ?_) r3
    cases side with
    | top =>
      -- the patch itself lies there
      cases hx
      have hfree := ((hr.routable _).mp hroutable).uncovered _ Slice.yard_right_mem
      exact absurd hfree (by decide)
    | bottom => cases hx; exact absurd hlt (by decide)
    | left => cases hx; exact .refl _ _
    | right => cases hx; exact absurd hlt (by decide)
  have hcell := yard_target hp hr hb
  refine ⟨b, hb, hcell ▸ r4, 4, hcell ▸ h4, fun e he j hj => ?_⟩
  rw [hcell]
  rw [yard_target hp hr he] at hj ⊢
  rw [hj.unique h4]
  exact .refl _ _

end

/-! ## The strategies -/

theorem plain_guided (hp : p.WellPosed) : (p.grid (Word.sum 64) fun _ => .ok 0).Guided fun _ => 0 :=
  grid_guided hp sum_exact (fun hn => (Except.ok.inj hn).symm) fun _ => Nat.zero_le _

theorem estimated_guided (hp : p.WellPosed) : (p.grid (Word.sum 64) p.nearestTarget).Guided p.nearest :=
  grid_guided hp sum_exact eq_nearest nearest_adjacent

/-- If there is a route, each strategy over the grid finds a path, and it finds the one path that is prescribed by
its estimate: nothing for one of them, the distance to the nearest target entry for the other. -/
theorem paths_prescribed {s : Slice} (hs : s.Reachable) (hf : s.Fits) {a b : Patch} {aOp bOp : Pauli} {clearance : Bool}
    (hp : ofPatches s a aOp b bOp clearance = .ok p) :
    ((∃ route, p.IsRoute route) →
      (∃ path, p.dijkstraPath? = .ok (some path)) ∧ ∃ path, p.astarPath? = .ok (some path)) ∧
    (∀ path, p.dijkstraPath? = .ok (some path) ↔ p.Prescribed (fun _ => 0) path) ∧
    ∀ path, p.astarPath? = .ok (some path) ↔ p.Prescribed p.nearest path := by
  have hw := ofPatches_wellPosed hs.wellFormed hf hp
  have hd := dijkstra_solved hw
  have ha := astar_solved hw
  refine ⟨fun ⟨route, hr⟩ => ⟨hd.found hr, ha.found hr⟩, fun path => ?_, fun path => ?_⟩
  · exact hd.iff_prescribed fun path => grid_prescribed hw (plain_guided hw) fun _ _ => rfl
  · exact ha.iff_prescribed fun path => grid_prescribed hw (estimated_guided hw) fun _ => nearest_target

/-- Both turns of the yard are routes that cost 4. Both strategies find the upper one. -/
theorem paths_prescribed_yard : ∃ a b p, ofPatches .yard a .z b .x false = .ok p ∧
    p.IsRoute Slice.lowerTurn ∧ Slice.yard.pathCost Slice.lowerTurn = Slice.yard.pathCost Slice.upperTurn ∧
    p.dijkstraPath? = .ok (some Slice.upperTurn) ∧ p.astarPath? = .ok (some Slice.upperTurn) := by
  obtain ⟨a, b, p, h, hp, hr⟩ := yard_problem
  obtain ⟨-, hd, ha⟩ := paths_prescribed Slice.yard_reachable Slice.yard_fits h
  refine ⟨a, b, p, h, hr.isRoute_iff.mpr (Slice.yard_turns (.inr rfl)), ?_, (hd _).mpr ?_, (ha _).mpr ?_⟩
  · rw [Slice.yard_pathCost, Slice.yard_pathCost]
    rfl
  · exact yard_prescribed hp hr (Nat.le_refl 0)
  · refine yard_prescribed hp hr ?_
    rw [yard_nearest hp hr, yard_nearest hp hr]
    decide

end SearchProblem

end AncillaRouting
