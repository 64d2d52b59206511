import AncillaRouting.Proofs.VisitOrder
import AncillaRouting.Search.Trace

/-!
# The rounds of a search

When no estimate falls by more than the price of an edge, the candidates leave the frontier in their order, and
a node that a round visits keeps its cost and its parent at every later point of the search. So no node is
expanded twice, and those that are expanded are the nodes whose candidates go before that of every goal.
-/

namespace AncillaRouting

open Outcome

namespace SearchState

variable {ν : Type} [BEq ν] [Hashable ν] {space : SearchSpace ν} {h : ν → Nat} {s t u m : SearchState ν}
  {c : Candidate ν} {todo : List (ν × Nat)} {states : List (SearchState ν)}

/-! ## One round -/

theorem expanded_of_fresh (ho : round space s = .ok (.open t)) (hc : s.first? space = some c)
    (hst : s.isStale c = false) : s.expanded? space = some c := by
  obtain ⟨rest, hp⟩ := first?_eq_some.mp hc
  obtain ⟨d, rest', hp', hcases⟩ := open_cases ho
  rw [hp] at hp'
  cases hp'
  rcases hcases with ⟨hst', -⟩ | hm
  · rw [hst] at hst'; cases hst'
  · exact hm.expanded

section
variable [LawfulBEq ν] [LawfulHashable ν]

theorem Midway.underway_of_reaches (g : space.Guided h) (hr : space.Reaches s) (hm : Midway space s c todo m) :
    Underway space h s c todo m :=
  hm.underway g (invariant_of_reaches g.toLawful hr) (orderly_of_reaches g hr)

/-- All that waits after a round goes after the candidate that left the frontier. -/
theorem round_ascends (g : space.Guided h) (hr : space.Reaches s) (ho : round space s = .ok (.open t))
    (hc : s.first? space = some c) : ∀ d ∈ t.frontier.items, space.before c d = true := by
  intro d hd
  have inv := invariant_of_reaches g.toLawful hr
  obtain ⟨rest, hp⟩ := first?_eq_some.mp hc
  obtain ⟨c', rest', hp', hcases⟩ := open_cases ho
  rw [hp] at hp'
  cases hp'
  rcases hcases with ⟨-, rfl⟩ | hm
  · exact (orderly_of_reaches g hr).before_rest g inv hp d hd
  · have a := (hm.underway_of_reaches g hr).advancing
    rw [inv.eq_of_mem g (Heap.first_mem hp)]
    exact a.passed a.visited d hd

/-- A round visits the node that it expands and no other, and visited nodes keep their parents. -/
theorem round_visits (g : space.Guided h) (hr : space.Reaches s) (ho : round space s = .ok (.open t)) {v : ν} {k : Nat} :
    (Visited t v k ↔ Visited s v k ∨ ∃ c, s.expanded? space = some c ∧ c.node = v ∧ c.cost = k) ∧
      (Visited t v k → t.parent[v]? = s.parent[v]?) := by
  obtain ⟨c, rest, hp, ⟨hst, rfl⟩ | hm⟩ := open_cases ho
  · have hnone : ∀ d, s.expanded? space ≠ some d := by
      intro d hd
      obtain ⟨hfirst, hfresh, -⟩ := expanded?_eq_some.mp hd
      rw [first?_eq_some.mpr ⟨rest, hp⟩] at hfirst
      cases hfirst
      rw [hst] at hfresh; cases hfresh
    refine ⟨(visited_pop_stale hp hst).trans ⟨.inl, fun hv => ?_⟩, fun _ => rfl⟩
    rcases hv with hv | ⟨d, hd, -⟩
    · exact hv
    · exact absurd hd (hnone d)
  · have hu := hm.underway_of_reaches g hr
    refine ⟨hu.visited_iff.trans (or_congr_right ⟨?_, ?_⟩), hu.parent_eq⟩
    · rintro ⟨rfl, rfl⟩
      exact ⟨c, hm.expanded, rfl, rfl⟩
    · rintro ⟨d, hd, rfl, rfl⟩
      rw [hm.expanded] at hd
      cases hd
      exact ⟨rfl, rfl⟩

/-- What the round that began in `s` leaves behind for good: all that waits goes after its candidate, and the node
of a candidate that was not stale has been visited and keeps its parent. -/
structure Follows (space : SearchSpace ν) (s t : SearchState ν) : Prop where
  after : ∀ {c}, s.first? space = some c → ∀ d ∈ t.frontier.items, space.before c d = true
  kept : ∀ {c}, s.first? space = some c → s.isStale c = false →
    Visited t c.node c.cost ∧ t.parent[c.node]? = s.parent[c.node]?

theorem follows_of_open (g : space.Guided h) (hr : space.Reaches s) (ho : round space s = .ok (.open t)) :
    Follows space s t where
  after := round_ascends g hr ho
  kept hc hst := by
    obtain ⟨hiff, hpar⟩ := round_visits g hr ho
    have hv := hiff.mpr (.inr ⟨_, expanded_of_fresh ho hc hst, rfl, rfl⟩)
    exact ⟨hv, hpar hv⟩

theorem Follows.round (g : space.Guided h) (hr : space.Reaches t) (f : Follows space s t)
    (ho : round space t = .ok (.open u)) : Follows space s u where
  after hc d hd := by
    obtain ⟨c', rest, hp, -⟩ := open_cases ho
    have hnext := f.after hc c' (Heap.first_mem hp)
    exact g.before_trans hnext (round_ascends g hr ho (first?_eq_some.mpr ⟨rest, hp⟩) d hd)
  kept hc hst := by
    obtain ⟨hv, hpar⟩ := f.kept hc hst
    have hv' := (round_visits g hr ho).1.mpr (.inl hv)
    exact ⟨hv', ((round_visits g hr ho).2 hv').trans hpar⟩

end

/-! ## What is current -/

theorem Current.fresh (hc : Current space s c) : s.isStale c = false := by
  simp [isStale, hc.2]

section
variable [LawfulBEq ν] [LawfulHashable ν]

theorem Current.dist (g : space.Guided h) (hr : space.Reaches s) (hc : Current space s c) : space.Dist c.node c.cost := by
  obtain ⟨rest, hp⟩ := first?_eq_some.mp hc.1
  exact (invariant_of_reaches g.toLawful hr).dist_of_first g hp hc.fresh

theorem Current.agree (g : space.Guided h) (hr : space.Reaches s) (hc : Current space s c) (hm : Amid space s m) :
    Agree c.node s m := by
  rcases hm with rfl | ⟨d, todo, hm⟩
  · exact ⟨rfl, rfl⟩
  · obtain ⟨hfirst, -, -⟩ := expanded?_eq_some.mp hm.expanded
    rw [hc.1] at hfirst
    cases hfirst
    have hu := hm.underway_of_reaches g hr
    have hv := hu.visited_iff.mpr (.inr ⟨rfl, rfl⟩)
    exact ⟨hv.1.trans hc.2.symm, hu.parent_eq hv⟩

theorem Follows.agree (g : space.Guided h) (hr : space.Reaches t) (f : Follows space s t) (hc : Current space s c)
    (hm : Amid space t m) : Agree c.node s m := by
  obtain ⟨hv, hpar⟩ := f.kept hc.1 hc.fresh
  rcases hm with rfl | ⟨d, todo, hm⟩
  · exact ⟨hv.1.trans hc.2.symm, hpar⟩
  · have hu := hm.underway_of_reaches g hr
    have hv' := hu.visited_iff.mpr (.inl hv)
    exact ⟨hv'.1.trans hc.2.symm, (hu.parent_eq hv').trans hpar⟩

theorem meet_pushesLower (hl : space.Lawful) {v : ν} {k : Nat} (hless : ∀ b, s.best[v]? = some b → k < b)
    (hm : meet space s v k = .ok t) : PushesLower space s t := by
  obtain ⟨r, -, rfl⟩ := meet_eq_ok hl hm
  exact ⟨⟨k + r, k, v⟩, rfl, Std.HashMap.getElem?_insert_self, hless⟩

theorem relax_pushesLower (hl : space.Lawful) {v : ν} {k : Nat} {e : ν × Nat}
    (hrel : SearchState.relax space v k s e = .ok t) : t = s ∨ PushesLower space s t := by
  rcases relax_cases hl hrel with ⟨-, rfl⟩ | ⟨hless, r, -, rfl⟩
  · exact .inl rfl
  · exact .inr ⟨⟨k + e.2 + r, k + e.2, e.1⟩, rfl, Std.HashMap.getElem?_insert_self, hless⟩

end

/-! ## All rounds -/

/-- The list holds the states in which the rounds from `s` on begin, to the last. -/
inductive Rounds (space : SearchSpace ν) : SearchState ν → List (SearchState ν) → Prop where
  | exhausted {s : SearchState ν} (hround : round space s = .ok .exhausted) : Rounds space s [s]
  | reached {s t : SearchState ν} {goal : ν} (hround : round space s = .ok (.reached goal t)) : Rounds space s [s]
  | next {s t : SearchState ν} {states : List (SearchState ν)} (hround : round space s = .ok (.open t))
      (r : Rounds space t states) : Rounds space s (s :: states)

section
variable [LawfulBEq ν] [LawfulHashable ν]

theorem rounds_of_trace [Listed ν] (h : trace space s = .ok states) : Rounds space s states := by
  induction s using trace.induct space generalizing states with
  | case1 s f hround =>
    rw [trace_eq, hround] at h
    cases h
  | case2 s hround =>
    rw [trace_eq, hround] at h
    cases h
    exact .exhausted hround
  | case3 s goal t hround =>
    rw [trace_eq, hround] at h
    cases h
    exact .reached hround
  | case4 s t hround ih =>
    rw [trace_eq, hround] at h
    obtain ⟨states, ht, rfl⟩ := map_eq_ok.mp h
    exact .next hround (ih ht)

theorem trace_total [Listed ν] (hl : space.Lawful) (hs : space.Safe) (hr : space.Reaches s) :
    ∃ states, trace space s = .ok states := by
  induction s using trace.induct space with
  | case1 s f hround =>
    obtain ⟨o, ho⟩ := hs.round hl (invariant_of_reaches hl hr)
    rw [ho] at hround
    cases hround
  | case2 s hround => exact ⟨_, by rw [trace_eq, hround]⟩
  | case3 s goal t hround => exact ⟨_, by rw [trace_eq, hround]⟩
  | case4 s t hround ih =>
    obtain ⟨states, ht⟩ := ih (hr.round hround)
    exact ⟨_, by rw [trace_eq, hround]; exact map_eq_ok.mpr ⟨states, ht, rfl⟩⟩

/-- The last of the rounds tells what the search returns. -/
theorem Rounds.run [Listed ν] (r : Rounds space s states) :
    run space s = .ok (states.getLast?.bind (outcome space)) := by
  induction r with
  | exhausted hround => simp [SearchState.run_eq, outcome, hround]
  | reached hround => simp [SearchState.run_eq, outcome, hround]
  | @next s t states hround r ih =>
    have hne : states ≠ [] := by cases r <;> exact List.cons_ne_nil _ _
    rw [SearchState.run_eq, hround, List.getLast?_cons_of_ne_nil hne]
    exact ih

omit [LawfulBEq ν] [LawfulHashable ν] in
theorem Rounds.reaches (r : Rounds space s states) (hr : space.Reaches s) : ∀ t ∈ states, space.Reaches t := by
  induction r with
  | exhausted => simpa using hr
  | reached => simpa using hr
  | next hround _ ih => exact List.forall_mem_cons.mpr ⟨hr, ih (hr.round hround)⟩

theorem Rounds.follows_all (g : space.Guided h) (r : Rounds space t states) (hr : space.Reaches t)
    (f : Follows space s t) : ∀ u ∈ states, Follows space s u := by
  induction r with
  | exhausted => simpa using f
  | reached => simpa using f
  | next hround _ ih => exact List.forall_mem_cons.mpr ⟨f, ih (hr.round hround) (f.round g hr hround)⟩

theorem Rounds.follows (g : space.Guided h) (r : Rounds space s states) (hr : space.Reaches s) :
    states.Pairwise (Follows space) := by
  induction r with
  | exhausted => exact List.pairwise_singleton ..
  | reached => exact List.pairwise_singleton ..
  | next hround r ih =>
    have hr' := hr.round hround
    exact .cons (r.follows_all g hr' (follows_of_open g hr hround)) (ih hr')

theorem Rounds.ascending (g : space.Guided h) (r : Rounds space s states) (hr : space.Reaches s) :
    (states.filterMap (first? space)).Pairwise fun c d => space.before c d = true := by
  rw [List.pairwise_filterMap]
  refine (r.follows g hr).imp fun f c hc d hd => ?_
  obtain ⟨rest, hp⟩ := first?_eq_some.mp hd
  exact f.after hc d (Heap.first_mem hp)

/-- The node of a current candidate keeps its cost and its parent from then on. -/
theorem Rounds.agree (g : space.Guided h) {before after : List (SearchState ν)}
    (r : Rounds space u (before ++ s :: after)) (hr : space.Reaches u) (hc : Current space s c) :
    ∀ t ∈ s :: after, ∀ m, Amid space t m → Agree c.node s m := by
  intro t ht m hm
  have hreach := r.reaches hr t (List.mem_append_right _ ht)
  rcases List.mem_cons.mp ht with rfl | ht
  · exact hc.agree g hreach hm
  · obtain ⟨-, hfollows, -⟩ := List.pairwise_append.mp (r.follows g hr)
    exact (List.rel_of_pairwise_cons hfollows ht).agree g hreach hc hm

/-- A node that goes before every goal has been visited when the search ends. -/
theorem Rounds.visited_or_expanded (g : space.Guided h) {v : ν} {k : Nat} (hd : space.Dist v k)
    (hbefore : ∀ {x j}, space.isGoal x = true → space.Dist x j → space.before (.of h v k) (.of h x j) = true)
    (r : Rounds space s states) (hr : space.Reaches s) :
    Visited s v k ∨ ∃ c ∈ states.filterMap (expanded? space), c.node = v ∧ c.cost = k := by
  induction r with
  | exhausted hround =>
    have inv := invariant_of_reaches g.toLawful hr
    obtain ⟨nodes, tr⟩ := hd.attained
    rcases inv.visited_or_ahead tr with ⟨b, hle, hv⟩ | ⟨c, hc, -⟩
    · have hk := (orderly_of_reaches g hr).dist hv
      rw [hd.unique hk]
      exact .inl hv
    · simp [round_exhausted hround] at hc
  | reached hround =>
    have inv := invariant_of_reaches g.toLawful hr
    obtain ⟨c, rest, hp, hst, rfl, hg, rfl⟩ := round_reached hround
    have hc := hbefore hg (inv.dist_of_first g hp hst)
    rw [← inv.eq_of_mem g (Heap.first_mem hp)] at hc
    exact .inl (inv.visited_of_before g hp hd hc)
  | next hround r ih =>
    rcases ih (hr.round hround) with hv | ⟨c, hc, hcv⟩
    · rcases (round_visits g hr hround).1.mp hv with hv | ⟨c, hc, hcv⟩
      · exact .inl hv
      · exact .inr ⟨c, List.mem_filterMap.mpr ⟨_, .head _, hc⟩, hcv⟩
    · obtain ⟨t, ht, hct⟩ := List.mem_filterMap.mp hc
      exact .inr ⟨c, List.mem_filterMap.mpr ⟨t, .tail _ ht, hct⟩, hcv⟩

/-! ## Expansions -/

/-- A candidate that is expanded has the least cost of its node, which is no goal, and goes before every goal. -/
theorem before_goal_of_expanded (g : space.Guided h) (hr : space.Reaches s) (hc : s.expanded? space = some c) :
    c = .of h c.node c.cost ∧ space.Dist c.node c.cost ∧ space.isGoal c.node = false ∧
      ∀ x j, space.isGoal x = true → space.Dist x j → space.before c (.of h x j) = true := by
  have inv := invariant_of_reaches g.toLawful hr
  obtain ⟨hfirst, hst, hgoal⟩ := expanded?_eq_some.mp hc
  obtain ⟨rest, hp⟩ := first?_eq_some.mp hfirst
  refine ⟨inv.eq_of_mem g (Heap.first_mem hp), inv.dist_of_first g hp hst, hgoal, fun x j hx hj => ?_⟩
  rw [← Bool.not_eq_false]
  intro hcx
  by_cases hxc : space.before (.of h x j) c = true
  · -- the goal would have been visited
    have hnot := (inv.followed_of_visited (inv.visited_of_before g hp hj hxc)).1
    rw [hx] at hnot; cases hnot
  · obtain rfl := g.total hcx (by simpa using hxc)
    simp only [Candidate.of] at hgoal
    rw [hx] at hgoal; cases hgoal

theorem Rounds.expanded_nodup (g : space.Guided h) (r : Rounds space s states) (hr : space.Reaches s) :
    ((states.filterMap (expanded? space)).map (·.node)).Nodup := by
  rw [List.Nodup, List.pairwise_map, List.pairwise_filterMap]
  refine (r.follows g hr).imp_of_mem fun {t u} ht hu f c hc d hd hcd => ?_
  obtain ⟨hfirst, hst, -⟩ := expanded?_eq_some.mp hc
  obtain ⟨hfirst', hst', -⟩ := expanded?_eq_some.mp hd
  obtain ⟨rest, hp⟩ := first?_eq_some.mp hfirst'
  have hmem := Heap.first_mem hp
  have hb := (invariant_of_reaches g.toLawful (r.reaches hr u hu)).best_of_fresh hmem hst'
  -- what was expanded before does not wait again at its cost
  have hv := (f.kept hfirst hst).1
  rw [hcd] at hv
  have hcost := hv.1.symm.trans hb
  exact hv.2 d hmem rfl (Option.some.inj hcost).symm

end

end SearchState

namespace SearchSpace

variable {ν : Type} [BEq ν] [Hashable ν] [LawfulBEq ν] [LawfulHashable ν] [Listed ν]
  {space : SearchSpace ν} {h : ν → Nat} {states : List (SearchState ν)} {expanded : List (Candidate ν)} {c : Candidate ν}

theorem trace_rounds (h : space.trace = .ok states) :
    ∃ s, SearchState.start space = .ok s ∧ SearchState.Rounds space s states := by
  obtain ⟨s, hs, ht⟩ := bind_eq_ok.mp h
  exact ⟨s, hs, SearchState.rounds_of_trace ht⟩

theorem Safe.trace (hl : space.Lawful) (hsafe : space.Safe) : ∃ states, space.trace = .ok states := by
  obtain ⟨s, hs⟩ := hsafe.start
  obtain ⟨states, ht⟩ := SearchState.trace_total hl hsafe (.start hs)
  exact ⟨states, bind_eq_ok.mpr ⟨s, hs, ht⟩⟩

theorem Safe.expansions (hl : space.Lawful) (hsafe : space.Safe) : ∃ expanded, space.expansions = .ok expanded := by
  obtain ⟨states, ht⟩ := hsafe.trace hl
  exact ⟨_, map_eq_ok.mpr ⟨states, ht, rfl⟩⟩

omit [Listed ν] in
/-- Start nodes are met once each, so none of them is known when it is met. -/
theorem start_pushesLower (g : space.Guided h) {done todo : List (ν × Nat)} {e : ν × Nat} {s t : SearchState ν}
    (hstarts : space.starts = done ++ e :: todo)
    (hs : done.foldlM (fun s v => SearchState.meet space s v.1 v.2) (SearchState.empty : SearchState ν) = .ok s)
    (hm : s.meet space e.1 e.2 = .ok t) : SearchState.PushesLower space s t := by
  have q := SearchState.queued_of_starts g hstarts hs
  refine SearchState.meet_pushesLower g.toLawful (fun b hb => ?_) hm
  rw [q.unknown] at hb
  cases hb

theorem bestPath?_eq_outcome (h : space.trace = .ok states) :
    space.bestPath? = .ok (states.getLast?.bind (SearchState.outcome space)) := by
  obtain ⟨s, hs, r⟩ := trace_rounds h
  rw [← r.run, bestPath?, hs]
  rfl

/-- The nodes that are expanded are those whose candidates go before that of every goal. -/
theorem mem_expansions (g : space.Guided h) (he : space.expansions = .ok expanded) : c ∈ expanded ↔
    c = .of h c.node c.cost ∧ space.Dist c.node c.cost ∧ space.isGoal c.node = false ∧
      ∀ x j, space.isGoal x = true → space.Dist x j → space.before c (.of h x j) = true := by
  obtain ⟨states, ht, rfl⟩ := map_eq_ok.mp he
  obtain ⟨s, hs, r⟩ := trace_rounds ht
  have hr : space.Reaches s := .start hs
  have sound : ∀ {d}, d ∈ states.filterMap (·.expanded? space) → d = .of h d.node d.cost ∧ _ := fun {d} hd => by
    obtain ⟨t, ht, hd⟩ := List.mem_filterMap.mp hd
    exact SearchState.before_goal_of_expanded g (r.reaches hr t ht) hd
  constructor
  · exact sound
  · rintro ⟨hof, hd, -, hbefore⟩
    rw [hof] at hbefore
    rcases r.visited_or_expanded g hd (hbefore _ _) hr with hv | ⟨d, hd, hnode, hcost⟩
    · exact absurd hv (SearchState.start_queued g hs).not_visited
    · rw [hof, ← hnode, ← hcost, ← (sound hd).1]
      exact hd

theorem expansions_nodup (g : space.Guided h) (he : space.expansions = .ok expanded) : (expanded.map (·.node)).Nodup := by
  obtain ⟨states, ht, rfl⟩ := map_eq_ok.mp he
  obtain ⟨s, hs, r⟩ := trace_rounds ht
  exact r.expanded_nodup g (.start hs)

end SearchSpace

end AncillaRouting
