import AncillaRouting.Proofs.SearchRounds
import AncillaRouting.Proofs.TieBreaks
import Mathlib.Data.List.Perm.Subperm

/-!
# Which cells are visited over the grid

Both strategies over the grid take the candidates out in order and expand a cell at most once, at the least cost of
a walk to it. The estimate of one of them is positive off the targets, so a cell that it expands is cheaper than
every target, and the other, which estimates nothing, expands it too.
-/

namespace AncillaRouting

open SearchState

namespace SearchProblem

variable {p : SearchProblem}

/-! ## The two searches -/

theorem plain_safe (hp : p.WellPosed) : (p.grid (Word.sum 64) fun _ => .ok 0).Safe :=
  grid_safe hp fun _ _ => ⟨0, rfl, by decide⟩

theorem estimated_safe (hp : p.WellPosed) : (p.grid (Word.sum 64) p.nearestTarget).Safe :=
  grid_safe hp fun _ hc => nearestTarget_total hp.fits.addressable hp.targets_routable hc

/-- The cells that are expanded are those that go before every target. -/
theorem grid_expanded_iff (hp : p.WellPosed) {remaining : Cell → Except Fault Nat} {h : Cell → Nat}
    (g : (p.grid (Word.sum 64) remaining).Guided h) {expanded : List (Candidate Cell)} {c : Candidate Cell}
    (he : (p.grid (Word.sum 64) remaining).expansions = .ok expanded) : c ∈ expanded ↔
      c = .of h c.node c.cost ∧ p.Dist c.node c.cost ∧ p.isTarget c.node = false ∧
        ∀ d j, p.isTarget d = true → p.Dist d j → c.gridBefore (.of h d j) = true := by
  rw [SearchSpace.mem_expansions g he, grid_dist hp]
  simp only [grid_dist hp]
  exact Iff.rfl

/-- In the yard around a corner, the only target costs 4. -/
theorem yard_expanded_iff (hp : p.WellPosed) (hr : p.Resolves .yard ⟨⟨0⟩, .z, ⟨1⟩, .x⟩ false)
    {remaining : Cell → Except Fault Nat} {h : Cell → Nat} (g : (p.grid (Word.sum 64) remaining).Guided h)
    {expanded : List (Candidate Cell)} (he : (p.grid (Word.sum 64) remaining).expansions = .ok expanded)
    {c : Candidate Cell} (hc : c.node ≠ ⟨1, 3⟩) : c ∈ expanded ↔
      c = .of h c.node c.cost ∧ p.Dist c.node c.cost ∧ c.gridBefore (.of h ⟨1, 3⟩ 4) = true := by
  have hgoal : p.Dist ⟨1, 3⟩ 4 := yard_dist hp hr Slice.upperTurn (by decide) rfl rfl (by decide) (by decide)
  have htarget : ∀ d, p.isTarget d = true ↔ d = ⟨1, 3⟩ := by
    intro d
    rw [isTarget_iff]
    constructor
    · rintro ⟨e, he, rfl⟩
      exact yard_target hp hr he
    · rintro rfl
      obtain ⟨-, -, b, hb, -⟩ := hr.isRoute_iff.mpr (Slice.yard_turns (.inl rfl))
      exact ⟨b, hb, yard_target hp hr hb⟩
  rw [grid_expanded_iff hp g he]
  constructor
  · rintro ⟨hof, hd, -, hbefore⟩
    exact ⟨hof, hd, hbefore _ 4 ((htarget _).mpr rfl) hgoal⟩
  · rintro ⟨hof, hd, hbefore⟩
    refine ⟨hof, hd, Bool.eq_false_iff.mpr (mt (htarget _).mp hc), fun d j ht hj => ?_⟩
    obtain rfl := (htarget d).mp ht
    rw [hj.unique hgoal]
    exact hbefore

/-! ## Every visit is the last -/

/-- How a search goes from its first state to its last, where `states` are those in which its rounds begin. -/
structure Methodical (p : SearchProblem) (space : SearchSpace Cell) (states : List (SearchState Cell)) : Prop where
  answer : space.bestPath? = .ok (states.getLast?.bind (outcome space))
  ascending : (states.filterMap (first? space)).Pairwise fun c d => c.gridBefore d = true
  least : ∀ s ∈ states, ∀ c, s.Current space c → p.Dist c.node c.cost
  final : ∀ before s after, states = before ++ s :: after → ∀ c, s.Current space c →
    ∀ t ∈ s :: after, ∀ m, t.Amid space m → Agree c.node s m
  once : ((states.filterMap (expanded? space)).map (·.node)).Nodup
  follows : ∀ s ∈ states, ∀ c e todo m m', s.Midway space c (e :: todo) m → relax space c.node c.cost m e = .ok m' →
    m' = m ∨ m.PushesLower space m'
  starts : ∀ done e todo s s', space.starts = done ++ e :: todo →
    done.foldlM (fun s v => meet space s v.1 v.2) (empty : SearchState Cell) = .ok s → s.meet space e.1 e.2 = .ok s' →
      s.PushesLower space s'

theorem grid_methodical (hp : p.WellPosed) {remaining : Cell → Except Fault Nat} {h : Cell → Nat}
    (g : (p.grid (Word.sum 64) remaining).Guided h) (hsafe : (p.grid (Word.sum 64) remaining).Safe) :
    ∃ states, (p.grid (Word.sum 64) remaining).trace = .ok states ∧
      p.Methodical (p.grid (Word.sum 64) remaining) states := by
  obtain ⟨states, ht⟩ := hsafe.trace g.toLawful
  obtain ⟨s, hs, r⟩ := SearchSpace.trace_rounds ht
  have hr : (p.grid (Word.sum 64) remaining).Reaches s := .start hs
  refine ⟨states, ht, ?_⟩
  constructor
  · exact SearchSpace.bestPath?_eq_outcome ht
  · exact r.ascending g hr
  · exact fun t ht c hc => (grid_dist hp).mp (hc.dist g (r.reaches hr t ht))
  · rintro before t after rfl c hc
    exact r.agree g hr hc
  · exact r.expanded_nodup g hr
  · exact fun t _ c e todo m m' _ hrel => relax_pushesLower g.toLawful hrel
  · exact fun done e todo t t' hstarts ht hm => SearchSpace.start_pushesLower g hstarts ht hm

/-- In each strategy over the grid, candidates leave the frontier in strictly ascending order. One that leaves it at
the cost at which its cell is known has the least cost of a walk to the cell, and from then on the cell keeps its
cost and its parent. No cell is expanded twice, and every push lowers the cost of its cell. -/
theorem visits_final {s : Slice} (hs : s.Reachable) (hf : s.Fits) {a b : Patch} {aOp bOp : Pauli} {clearance : Bool}
    (hp : ofPatches s a aOp b bOp clearance = .ok p) :
    (∃ states, (p.grid (Word.sum 64) fun _ => .ok 0).trace = .ok states ∧
      p.Methodical (p.grid (Word.sum 64) fun _ => .ok 0) states) ∧
    ∃ states, (p.grid (Word.sum 64) p.nearestTarget).trace = .ok states ∧
      p.Methodical (p.grid (Word.sum 64) p.nearestTarget) states := by
  have hw := ofPatches_wellPosed hs.wellFormed hf hp
  exact ⟨grid_methodical hw (plain_guided hw) (plain_safe hw), grid_methodical hw (estimated_guided hw) (estimated_safe hw)⟩

/-- On the yard a search goes through two cells at one cost and one estimate, one after the other. -/
theorem visits_final_yard : ∃ a b p states, ofPatches .yard a .z b .x false = .ok p ∧
    (p.grid (Word.sum 64) p.nearestTarget).trace = .ok states ∧
    p.Methodical (p.grid (Word.sum 64) p.nearestTarget) states ∧
    ∀ v ∈ ([⟨0, 2⟩, ⟨1, 1⟩] : List Cell),
      ⟨4, 2, v⟩ ∈ states.filterMap (expanded? (p.grid (Word.sum 64) p.nearestTarget)) := by
  obtain ⟨a, b, p, h, hp, hr⟩ := yard_problem
  obtain ⟨-, states, ht, hm⟩ := visits_final Slice.yard_reachable Slice.yard_fits h
  refine ⟨a, b, p, states, h, ht, hm, fun v hv => ?_⟩
  have he : (p.grid (Word.sum 64) p.nearestTarget).expansions =
      .ok (states.filterMap (expanded? (p.grid (Word.sum 64) p.nearestTarget))) :=
    Outcome.map_eq_ok.mpr ⟨states, ht, rfl⟩
  have hcell : v ≠ ⟨1, 3⟩ ∧ v.apart ⟨1, 3⟩ = 2 := by
    revert v
    decide
  have hd : p.Dist v 2 := by
    simp only [List.mem_cons, List.not_mem_nil, or_false] at hv
    rcases hv with rfl | rfl
    · exact yard_dist hp hr [⟨0, 1⟩, ⟨0, 2⟩] (by decide) rfl rfl (by decide) (by decide)
    · exact yard_dist hp hr [⟨0, 1⟩, ⟨1, 1⟩] (by decide) rfl rfl (by decide) (by decide)
  refine (yard_expanded_iff hp hr (estimated_guided hp) he hcell.1).mpr ⟨?_, hd, ?_⟩
  · rw [Candidate.of, yard_nearest hp hr, hcell.2]
  · have hcost : 2 < 4 := by decide
    rw [Candidate.gridBefore_iff, Candidate.of, yard_nearest hp hr]
    exact .inr ⟨rfl, .inl hcost⟩

/-! ## The estimate spares visits -/

theorem nearest_pos {v c : Cell} (hv : p.isTarget v = false) (hc : p.isTarget c = true) : 0 < p.nearest v := by
  obtain ⟨e, he, -⟩ := isTarget_iff.mp hc
  apply Nat.pos_of_ne_zero
  intro hzero
  rw [isTarget_iff.mpr ((nearest_eq_zero_iff (List.ne_nil_of_mem he)).mp hzero)] at hv
  cases hv

/-- What goes before a target by its estimate is cheaper than the target, unless it is a target. -/
theorem cost_lt_of_before {v c : Cell} {j k : Nat} (hv : p.isTarget v = false) (hc : p.isTarget c = true)
    (hb : Candidate.gridBefore (.of p.nearest v k) (.of p.nearest c j) = true) : k < j := by
  obtain ⟨e, he, rfl⟩ := isTarget_iff.mp hc
  have hpos := nearest_pos hv hc
  have hlt := Candidate.gridBefore_iff.mp hb
  simp only [Candidate.of, nearest_target he] at hlt
  omega

/-- Every cell that is expanded with the distance to the nearest target as the estimate is expanded without an
estimate too, at the same cost, so the estimate never adds expansions. -/
theorem estimate_spares_visits {s : Slice} (hs : s.Reachable) (hf : s.Fits) {a b : Patch} {aOp bOp : Pauli}
    {clearance : Bool} (hp : ofPatches s a aOp b bOp clearance = .ok p) :
    ∃ estimated plain, (p.grid (Word.sum 64) p.nearestTarget).expansions = .ok estimated ∧
      (p.grid (Word.sum 64) fun _ => .ok 0).expansions = .ok plain ∧
      (∀ c ∈ estimated, ∃ d ∈ plain, d.node = c.node ∧ d.cost = c.cost) ∧ estimated.length ≤ plain.length := by
  have hw := ofPatches_wellPosed hs.wellFormed hf hp
  have ge := estimated_guided hw
  have gp := plain_guided hw
  obtain ⟨estimated, he⟩ := (estimated_safe hw).expansions ge.toLawful
  obtain ⟨plain, hplain⟩ := (plain_safe hw).expansions gp.toLawful
  have hsame : ∀ c ∈ estimated, ∃ d ∈ plain, d.node = c.node ∧ d.cost = c.cost := by
    intro c hc
    obtain ⟨hof, hd, htarget, hbefore⟩ := (grid_expanded_iff hw ge he).mp hc
    rw [hof] at hbefore
    have hmem : Candidate.of (fun _ => 0) c.node c.cost ∈ plain :=
      (grid_expanded_iff hw gp hplain).mpr ⟨rfl, hd, htarget, fun d j ht hj =>
        Candidate.gridBefore_iff.mpr (.inl (cost_lt_of_before htarget ht (hbefore d j ht hj)))⟩
    exact ⟨_, hmem, rfl, rfl⟩
  have hsub : estimated.map (·.node) ⊆ plain.map (·.node) := by
    intro v hv
    obtain ⟨c, hc, rfl⟩ := List.mem_map.mp hv
    obtain ⟨d, hd, hdc, -⟩ := hsame c hc
    exact List.mem_map.mpr ⟨d, hd, hdc⟩
  have hle := (List.subperm_of_subset (SearchSpace.expansions_nodup ge he) hsub).length_le
  rw [List.length_map, List.length_map] at hle
  exact ⟨estimated, plain, he, hplain, hsame, hle⟩

/-- On the yard a cell behind the first patch is spared. -/
theorem estimate_spares_visits_yard : ∃ a b p estimated plain, ofPatches .yard a .z b .x false = .ok p ∧
    (p.grid (Word.sum 64) p.nearestTarget).expansions = .ok estimated ∧
    (p.grid (Word.sum 64) fun _ => .ok 0).expansions = .ok plain ∧ estimated.length ≤ plain.length ∧
    (∃ c ∈ plain, c.node = ⟨1, 0⟩) ∧ ∀ c ∈ estimated, c.node ≠ ⟨1, 0⟩ := by
  obtain ⟨a, b, p, h, hp, hr⟩ := yard_problem
  obtain ⟨estimated, plain, he, hplain, -, hle⟩ := estimate_spares_visits Slice.yard_reachable Slice.yard_fits h
  have hd : p.Dist ⟨1, 0⟩ 3 := yard_dist hp hr [⟨0, 1⟩, ⟨1, 1⟩, ⟨1, 0⟩] (by decide) rfl rfl (by decide) (by decide)
  refine ⟨a, b, p, estimated, plain, h, he, hplain, hle, ⟨.of (fun _ => 0) ⟨1, 0⟩ 3, ?_, rfl⟩, fun c hc hnode => ?_⟩
  · exact (yard_expanded_iff hp hr (plain_guided hp) hplain (by decide)).mpr ⟨rfl, hd, by decide⟩
  · obtain ⟨hof, hdc, hbefore⟩ := (yard_expanded_iff hp hr (estimated_guided hp) he (hnode ▸ by decide)).mp hc
    rw [hnode] at hof hdc
    rw [hof, hdc.unique hd, Candidate.gridBefore_iff] at hbefore
    simp only [Candidate.of, yard_nearest hp hr] at hbefore
    revert hbefore
    decide

end SearchProblem

end AncillaRouting
