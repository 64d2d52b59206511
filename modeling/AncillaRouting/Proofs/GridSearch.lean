import AncillaRouting.Proofs.SearchOutcome
import AncillaRouting.Proofs.Walks
import AncillaRouting.Search.Grid

/-!
# The grid as a search space

Trails through the grid are walks of routable cells from a source entry, priced by their cells.
Manhattan distance to the nearest target entry never overestimates what is left to pay. On slices
whose sizes fit nothing faults, so both strategies over the grid find a cheapest route if there is
a route, and otherwise report that there is none.
-/

namespace AncillaRouting

open Outcome

/-! ## The order of candidates -/

theorem Candidate.gridBefore_iff {a b : Candidate Cell} : a.gridBefore b = true ↔
    a.estimate < b.estimate ∨ (a.estimate = b.estimate ∧ (a.cost < b.cost ∨ (a.cost = b.cost ∧
      (a.node.row.toInt < b.node.row.toInt ∨
        (a.node.row.toInt = b.node.row.toInt ∧ a.node.col.toInt < b.node.col.toInt))))) := by
  simp only [gridBefore, Cell.compare, beq_iff_eq, Ordering.then_eq_lt,
    Nat.compare_eq_lt, Nat.compare_eq_eq, Int.compare_eq_lt, Int.compare_eq_eq]

theorem gridBefore_strictWeak : Heap.StrictWeak Candidate.gridBefore where
  asymm {a b} h := by
    rw [Bool.eq_false_iff, Ne, Candidate.gridBefore_iff]
    rw [Candidate.gridBefore_iff] at h
    omega
  trans {a b c} hab hbc := by
    rw [Bool.eq_false_iff, Ne, Candidate.gridBefore_iff] at *
    omega

namespace SearchProblem

variable {p : SearchProblem} {add : Nat → Nat → Except Fault Nat} {remaining : Cell → Except Fault Nat}

/-! ## Edges and trails -/

theorem grid_edge {u v : Cell} {w : Nat} (e : (p.grid add remaining).Edge u v w) :
    u.Adjacent v ∧ p.terrain.Routable v ∧ w = p.cellCost v := by
  obtain ⟨es, he, hm⟩ := e
  obtain ⟨ds, hd, rfl⟩ := map_eq_ok.mp he
  obtain ⟨d, hdm, hdw⟩ := List.mem_map.mp hm
  cases hdw
  obtain ⟨hadj, hr⟩ := (Terrain.mem_routableNeighbours hd).mp hdm
  exact ⟨hadj, hr, rfl⟩

theorem Grounded.edge (hp : p.Grounded) {u v : Cell} (hu : p.terrain.Routable u) (huv : u.Adjacent v)
    (hv : p.terrain.Routable v) : (p.grid add remaining).Edge u v (p.cellCost v) := by
  obtain ⟨ds, hd⟩ := Terrain.routableNeighbours_total hp.addressable (hu.inner hp.addressable)
  exact ⟨_, map_eq_ok.mpr ⟨ds, hd, rfl⟩,
    List.mem_map.mpr ⟨v, (Terrain.mem_routableNeighbours hd).mpr ⟨huv, hv⟩, rfl⟩⟩

theorem mem_starts {v : Cell} {k : Nat} :
    (v, k) ∈ (p.grid add remaining).starts ↔ ∃ e ∈ p.sources, e.cell = v ∧ k = p.cellCost v := by
  simp only [grid, List.mem_map, Prod.mk.injEq]
  exact exists_congr fun e => and_congr_right fun _ => and_congr_right fun h => h ▸ eq_comm

theorem isTarget_iff {v : Cell} : p.isTarget v = true ↔ ∃ e ∈ p.targets, e.cell = v := by
  simp only [isTarget, List.any_eq_true, beq_iff_eq]

theorem grid_lawful (hp : p.Grounded) (hadd : ∀ {a b c}, add a b = .ok c → c = a + b) :
    (p.grid add remaining).Lawful where
  add_eq := hadd
  starts_eq hj hk := by
    obtain ⟨_, _, _, rfl⟩ := mem_starts.mp hj
    obtain ⟨_, _, _, rfl⟩ := mem_starts.mp hk
    rfl
  toll e := by
    obtain ⟨-, -, rfl⟩ := grid_edge e
    exact .inl (hp.paid _)
  order := gridBefore_strictWeak
  estimate_le {a b} h := by
    have := mt Candidate.gridBefore_iff.mpr (Bool.eq_false_iff.mp h)
    omega

/-- A trail is a walk from a source entry, told from its end, and costs what its cells cost. -/
theorem walk_of_trail (hp : p.Grounded) {v : Cell} {nodes : List Cell} {k : Nat}
    (t : (p.grid add remaining).Trail v nodes k) :
    (∃ a ∈ p.sources, p.terrain.Walk a.cell v nodes.reverse) ∧ k = p.slice.pathCost nodes := by
  induction t with
  | start h =>
    obtain ⟨e, he, rfl, rfl⟩ := mem_starts.mp h
    exact ⟨⟨e, he, .single (hp.sources_routable e he)⟩, rfl⟩
  | step _ e ih =>
    obtain ⟨hadj, hr, rfl⟩ := grid_edge e
    obtain ⟨⟨a, ha, w⟩, rfl⟩ := ih
    refine ⟨⟨a, ha, ?_⟩, ?_⟩
    · rw [List.reverse_cons]; exact w.snoc hadj hr
    · rw [Slice.pathCost_cons, Nat.add_comm]; rfl

theorem Grounded.trail_append (hp : p.Grounded) {c v : Cell} {path : List Cell} (w : p.terrain.Walk c v path) :
    ∀ {nodes : List Cell} {k : Nat}, (p.grid add remaining).Trail c (c :: nodes) (k + p.cellCost c) →
      (p.grid add remaining).Trail v (path.reverse ++ nodes) (k + p.slice.pathCost path) := by
  induction w with
  | single hc => exact fun t => t
  | cons hc hcd w ih =>
    intro nodes k t
    have hd := w.routable _ (List.mem_of_mem_head? (Terrain.walk_iff.mp w).2.2.1)
    have := ih (.step t (hp.edge hc hcd hd))
    rw [List.reverse_cons, List.append_assoc, Slice.pathCost_cons, ← Nat.add_assoc]
    exact this

theorem trail_of_walk (hp : p.Grounded) {a : EntryPoint} (ha : a ∈ p.sources) {v : Cell} {path : List Cell}
    (w : p.terrain.Walk a.cell v path) : (p.grid add remaining).Trail v path.reverse (p.slice.pathCost path) := by
  have t : (p.grid add remaining).Trail a.cell [a.cell] (0 + p.cellCost a.cell) := by
    rw [Nat.zero_add]; exact .start (mem_starts.mpr ⟨a, ha, rfl, rfl⟩)
  simpa using hp.trail_append w t

theorem apart_le_of_onward (hp : p.Grounded) {u v : Cell} {k : Nat}
    (o : (p.grid add remaining).Onward u v k) : u.apart v ≤ k := by
  induction o with
  | refl => exact Nat.le_of_eq u.apart_self
  | @step v x k w _ e ih =>
    obtain ⟨hadj, -, rfl⟩ := grid_edge e
    have hle := hadj.apart_le u
    have hpos := hp.paid x
    omega

/-! ## The estimate -/

theorem nearestTarget_le {c : Cell} {h : Nat} (hh : p.nearestTarget c = .ok h) :
    ∀ e ∈ p.targets, h ≤ c.apart e.cell := by
  intro e he
  obtain ⟨ds, hd, hh⟩ := bind_eq_ok.mp hh
  cases hh
  obtain ⟨d, hm, hde⟩ := defined_of_mapM hd e he
  rw [← Cell.eq_apart_of_distance hde]
  cases hmin : ds.min? with
  | none => exact Nat.zero_le _
  | some m => exact (List.min?_eq_some_iff.mp hmin).2 d hm

theorem apart_lt (ha : p.slice.Addressable) {c d : Cell} (hc : p.slice.inBounds c = true)
    (hd : p.slice.inBounds d = true) : c.apart d < 4294967296 := by
  have hr := ha.rows_le
  have hl := ha.cols_le
  rw [Slice.inBounds_iff] at hc hd
  unfold Cell.apart Word.gap
  omega

theorem nearestTarget_total (ha : p.slice.Addressable) (ht : ∀ e ∈ p.targets, p.terrain.Routable e.cell) {c : Cell}
    (hc : p.slice.inBounds c = true) : ∃ h, p.nearestTarget c = .ok h ∧ h < 4294967296 := by
  have lt : ∀ e ∈ p.targets, c.apart e.cell < 4294967296 := fun e he => apart_lt ha hc (ht e he).inBounds
  obtain ⟨ds, hd⟩ := mapM_total (f := fun e : EntryPoint => c.distance e.cell) (l := p.targets)
    fun e he => ⟨_, Cell.distance_eq_ok (lt e he)⟩
  refine ⟨_, bind_eq_ok.mpr ⟨ds, hd, rfl⟩, ?_⟩
  cases hmin : ds.min? with
  | none => decide
  | some m =>
    obtain ⟨e, he, hde⟩ := (mem_of_mapM hd).mp (List.min?_eq_some_iff.mp hmin).1
    rw [Option.getD_some, Cell.eq_apart_of_distance hde]
    exact lt e he

/-! ## What the strategies find -/

theorem sum_exact {bits a b c : Nat} (h : Word.sum bits a b = .ok c) : c = a + b :=
  (Word.sum_eq_ok_iff.mp h).1.symm

theorem grid_admissible (hp : p.Grounded)
    (hle : ∀ {c h}, remaining c = .ok h → ∀ e ∈ p.targets, h ≤ c.apart e.cell) :
    (p.grid add remaining).Admissible := by
  intro u nodes j v k h _ hr o hg
  obtain ⟨e, he, rfl⟩ := isTarget_iff.mp hg
  exact Nat.le_trans (hle hr e he) (apart_le_of_onward hp o)

/-- No sum leaves its word at the end of a walk that repeats no cell. -/
theorem grid_safe (hp : p.WellPosed)
    (hrem : ∀ c, p.slice.inBounds c = true → ∃ h, remaining c = .ok h ∧ h < 4294967296) :
    (p.grid (Word.sum 64) remaining).Safe := by
  have facts : ∀ {v nodes k}, (p.grid (Word.sum 64) remaining).Trail v nodes k → nodes.Nodup →
      p.terrain.Routable v ∧ k ≤ 4294967295 * 4294967295 := fun {v nodes k} t hn => by
    obtain ⟨⟨a, ha, w⟩, rfl⟩ := walk_of_trail hp.grounded t
    have hr : ∀ c ∈ nodes, p.terrain.Routable c := fun c hc => w.routable c (List.mem_reverse.mpr hc)
    exact ⟨hr v t.mem, Slice.pathCost_le hp.fits hn fun c hc => (hr c hc).inBounds⟩
  constructor
  · intro v nodes k t hn
    obtain ⟨hv, hk⟩ := facts t hn
    obtain ⟨h, hh, hlt⟩ := hrem v hv.inBounds
    exact ⟨h, k + h, hh, Word.sum_eq_ok (by omega)⟩
  · intro v nodes k t hn
    obtain ⟨hv, hk⟩ := facts t hn
    obtain ⟨ds, hd⟩ := Terrain.routableNeighbours_total hp.fits.addressable (hv.inner hp.fits.addressable)
    refine ⟨_, map_eq_ok.mpr ⟨ds, hd, rfl⟩, fun e he => ?_⟩
    obtain ⟨d, -, rfl⟩ := List.mem_map.mp he
    have hc : p.cellCost d < 4294967296 := UInt32.toNat_lt _
    exact ⟨_, Word.sum_eq_ok (by omega)⟩

/-- A search whose sums are exact and never fail ends with a route that repeats no cell, cheapest if no estimate is
too high, or without one if there is none. -/
theorem grid_outcome (hp : p.Grounded) (hadd : ∀ {a b c}, add a b = .ok c → c = a + b)
    (hsafe : (p.grid add remaining).Safe) :
    (∃ path, (p.grid add remaining).bestPath? = .ok (some path) ∧ p.IsRoute path ∧ path.Nodup ∧
      ((p.grid add remaining).Admissible → p.IsCheapest path)) ∨
    ((p.grid add remaining).bestPath? = .ok none ∧ ∀ path, ¬ p.IsRoute path) := by
  have hl : (p.grid add remaining).Lawful := grid_lawful hp hadd
  have trail : ∀ {path}, p.IsRoute path → ∃ g, p.isTarget g = true ∧
      (p.grid add remaining).Trail g path.reverse (p.slice.pathCost path) :=
    fun ⟨a, ha, b, hb, w⟩ => ⟨b.cell, isTarget_iff.mpr ⟨b, hb, rfl⟩, trail_of_walk hp ha w⟩
  obtain ⟨o, ho⟩ := SearchSpace.bestPath?_safe hl hsafe
  cases o with
  | none =>
    refine .inr ⟨ho, fun path hr => ?_⟩
    obtain ⟨g, hg, t⟩ := trail hr
    have := SearchSpace.bestPath?_complete hl ho t
    rw [show (p.grid add remaining).isGoal g = true from hg] at this
    cases this
  | some path =>
    obtain ⟨goal, k, hg, t, hn, hmin⟩ := SearchSpace.bestPath?_sound hl ho
    obtain ⟨⟨a, ha, w⟩, rfl⟩ := walk_of_trail hp t
    obtain ⟨b, hb, rfl⟩ := isTarget_iff.mp hg
    rw [List.reverse_reverse] at w
    have hroute : p.IsRoute path := ⟨a, ha, b, hb, w⟩
    refine .inl ⟨path, ho, hroute, hn, fun hadm => ⟨hroute, fun other hr => ?_⟩⟩
    obtain ⟨g, hgg, tg⟩ := trail hr
    rw [← Slice.pathCost_reverse path]
    exact hmin hadm hgg tg

/-- The right answer to a problem: a cheapest route, or none if there is none. -/
def Solved (p : SearchProblem) (answer : Except Fault (Option (List Cell))) : Prop :=
  (∃ path, answer = .ok (some path) ∧ p.IsCheapest path) ∨ (answer = .ok none ∧ ∀ path, ¬ p.IsRoute path)

theorem Solved.total {answer : Except Fault (Option (List Cell))} (h : p.Solved answer) :
    ∃ found, answer = .ok found := by
  rcases h with ⟨path, h, -⟩ | ⟨h, -⟩
  · exact ⟨some path, h⟩
  · exact ⟨none, h⟩

theorem grid_solved (hp : p.WellPosed)
    (hrem : ∀ c, p.slice.inBounds c = true → ∃ h, remaining c = .ok h ∧ h < 4294967296)
    (hle : ∀ {c h}, remaining c = .ok h → ∀ e ∈ p.targets, h ≤ c.apart e.cell) :
    p.Solved (p.grid (Word.sum 64) remaining).bestPath? := by
  rcases grid_outcome hp.grounded sum_exact (grid_safe hp hrem) with ⟨path, ho, -, -, hc⟩ | hn
  · exact .inl ⟨path, ho, hc (grid_admissible hp.grounded hle)⟩
  · exact .inr hn

theorem dijkstra_solved (hp : p.WellPosed) : p.Solved p.dijkstraPath? :=
  grid_solved hp (fun _ _ => ⟨0, rfl, by decide⟩) fun h _ _ => by cases h; exact Nat.zero_le _

theorem astar_solved (hp : p.WellPosed) : p.Solved p.astarPath? :=
  grid_solved hp (fun _ hc => nearestTarget_total hp.fits.addressable hp.targets_routable hc) nearestTarget_le

end SearchProblem

end AncillaRouting
