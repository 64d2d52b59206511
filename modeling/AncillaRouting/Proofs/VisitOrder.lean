import AncillaRouting.Proofs.SearchOutcome
import AncillaRouting.Search.Trace

/-!
# The order of visits

When no estimate falls by more than the price of an edge, candidates are visited in their order, each node at the
least cost of a trail to it. A node keeps the parent that first gave it its least cost, and all that could have
done so are visited before it. So the parents are the first candidates among the nodes that precede a node on a
cheapest trail, and the goal is the first candidate among the goals.
-/

namespace AncillaRouting

open Outcome

/-- The candidate for `v` at cost `k`. -/
def Candidate.of {ν : Type} (h : ν → Nat) (v : ν) (k : Nat) : Candidate ν := ⟨k + h v, k, v⟩

namespace SearchSpace

variable {ν : Type} {space : SearchSpace ν} {h : ν → Nat}

structure Dist (space : SearchSpace ν) (v : ν) (k : Nat) : Prop where
  attained : ∃ nodes, space.Trail v nodes k
  least : ∀ {nodes j}, space.Trail v nodes j → k ≤ j

/-- The estimates are `h` and fall along an edge by no more than its price, no edge is free of charge, and two
candidates are never tied. -/
structure Guided (space : SearchSpace ν) (h : ν → Nat) : Prop extends Lawful space where
  remaining_eq : ∀ {v r}, space.remaining v = .ok r → r = h v
  paid : ∀ {u v w}, space.Edge u v w → 0 < w
  consistent : ∀ {u v w}, space.Edge u v w → h u ≤ w + h v
  first : ∀ {a b}, a.estimate ≤ b.estimate → a.cost < b.cost → space.before a b = true
  total : ∀ {a b}, space.before a b = false → space.before b a = false → a = b
  starts_nodup : (space.starts.map (·.1)).Nodup

theorem Dist.unique {v : ν} {j k : Nat} (hj : space.Dist v j) (hk : space.Dist v k) : j = k := by
  obtain ⟨_, tj⟩ := hj.attained
  obtain ⟨_, tk⟩ := hk.attained
  exact Nat.le_antisymm (hj.least tk) (hk.least tj)

theorem Guided.before_trans (g : space.Guided h) {a b c : Candidate ν} (hab : space.before a b = true)
    (hbc : space.before b c = true) : space.before a c = true := by
  rw [← Bool.not_eq_false]
  intro hac
  rw [g.order.trans (g.order.asymm hbc) hac] at hab
  cases hab

theorem Guided.before_edge (g : space.Guided h) {u v : ν} {w : Nat} (e : space.Edge u v w) (k : Nat) :
    space.before (.of h u k) (.of h v (k + w)) = true := by
  have hp := g.paid e
  have hc := g.consistent e
  apply g.first
  · show k + h u ≤ k + w + h v
    omega
  · show k < k + w
    omega

theorem Guided.onward (g : space.Guided h) {u v : ν} {r : Nat} (o : space.Onward u v r) :
    h u ≤ r + h v ∧ (0 < r ∨ u = v ∧ r = 0) := by
  induction o with
  | refl => exact ⟨by omega, .inr ⟨rfl, rfl⟩⟩
  | step o e ih =>
    have hp := g.paid e
    have hc := g.consistent e
    exact ⟨by omega, .inl (by omega)⟩

end SearchSpace

namespace SearchState

variable {ν : Type} [BEq ν] [Hashable ν] {space : SearchSpace ν} {h : ν → Nat} {s s' : SearchState ν}

theorem Tracks.dist_le {pending : ν → ν → Nat → Prop} (t : Tracks space pending s) {v : ν} {j k : Nat}
    (hd : space.Dist v k) (hv : Within s.best v j) : k ≤ j := by
  obtain ⟨b, hb, hle⟩ := hv
  obtain ⟨nodes, r⟩ := t.recorded hb
  exact Nat.le_trans (hd.least r.trail) hle

theorem Tracks.eq_of_mem {pending : ν → ν → Nat → Prop} (g : space.Guided h) (t : Tracks space pending s)
    {c : Candidate ν} (hc : c ∈ s.frontier.items) : c = .of h c.node c.cost := by
  obtain ⟨-, r, hr, he⟩ := t.waiting hc
  rw [g.remaining_eq hr] at he
  exact congrArg (fun e => (⟨e, c.cost, c.node⟩ : Candidate ν)) he

section
variable {c : Candidate ν} {rest : Heap (Candidate ν)}

/-- A candidate that goes first and is not stale has the least cost of a trail to its node. -/
theorem Invariant.dist_of_first (g : space.Guided h) (inv : Invariant space settled s)
    (hp : s.frontier.pop? space.before = some (c, rest)) (hst : s.isStale c = false) : space.Dist c.node c.cost := by
  have hc := Heap.first_mem hp
  have hb := inv.best_of_fresh hc hst
  constructor
  · obtain ⟨nodes, r⟩ := inv.recorded hb
    exact ⟨nodes, r.trail⟩
  · intro nodes j t
    rcases inv.visited_or_ahead t with ⟨b, hle, hv⟩ | ⟨d, hd, r, ho, hle⟩
    · have hcost := hv.1.symm.trans hb
      cases hcost
      exact hle
    · have hest := g.estimate_le (inv.not_before_first g.toLawful hp d hd)
      rw [inv.eq_of_mem g hc, inv.eq_of_mem g hd] at hest
      have := (g.onward ho).1
      simp only [Candidate.of] at hest
      omega

/-- Whatever goes before the first candidate has been visited. -/
theorem Invariant.visited_of_before (g : space.Guided h) (inv : Invariant space settled s)
    (hp : s.frontier.pop? space.before = some (c, rest)) {v : ν} {k : Nat} (hv : space.Dist v k)
    (hb : space.before (.of h v k) c = true) : Visited s v k := by
  obtain ⟨nodes, t⟩ := hv.attained
  rcases inv.visited_or_ahead t with ⟨b, hle, hvis⟩ | ⟨d, hd, r, ho, hle⟩
  · have hk := inv.dist_le hv ⟨b, hvis.1, Nat.le_refl b⟩
    obtain rfl : b = k := Nat.le_antisymm hle hk
    exact hvis
  · exfalso
    have hdc := inv.not_before_first g.toLawful hp d hd
    obtain ⟨hcons, hpos⟩ := g.onward ho
    rcases hpos with hpos | ⟨rfl, rfl⟩
    · -- the candidate is ahead by some edges, and goes first
      have hdv : space.before d (.of h v k) = true := by
        rw [inv.eq_of_mem g hd]
        apply g.first
        · show d.cost + h d.node ≤ k + h v
          omega
        · show d.cost < k
          omega
      rw [g.before_trans hdv hb] at hdc
      cases hdc
    · have hk := inv.dist_le hv (inv.waiting hd).1
      obtain rfl : d.cost = k := Nat.le_antisymm hle hk
      rw [← inv.eq_of_mem g hd, hdc] at hb
      cases hb

end

/-! ## Visits in order -/

/-- Nodes are visited at their least costs and before all that wait, and a parent is the first visited node that
leads to its child at the cost of the child. -/
structure Orderly (space : SearchSpace ν) (h : ν → Nat) (s : SearchState ν) : Prop where
  nodup : s.frontier.items.toList.Nodup
  dist : ∀ {v k}, Visited s v k → space.Dist v k
  passed : ∀ {v k}, Visited s v k → ∀ c ∈ s.frontier.items, space.before (.of h v k) c = true
  chosen : ∀ {v u k}, s.parent[v]? = some u → s.best[v]? = some k →
    ∃ j w, Visited s u j ∧ space.Edge u v w ∧ j + w = k ∧
      ∀ {x i z}, Visited s x i → space.Edge x v z → i + z ≤ k → x = u ∨ space.before (.of h u j) (.of h x i) = true

/-- What holds while the start nodes are met: all that are known wait, and those of `todo` are still to come. -/
structure Queued (todo : List (ν × Nat)) (s : SearchState ν) : Prop where
  distinct : (todo.map (·.1)).Nodup
  nodup : s.frontier.items.toList.Nodup
  apart : ∀ c ∈ s.frontier.items, c.node ∉ todo.map (·.1)
  waits : ∀ {v k}, s.best[v]? = some k → ∃ c ∈ s.frontier.items, c.node = v ∧ c.cost = k
  orphans : s.parent = ∅

theorem Queued.unknown {v : ν} {k : Nat} {todo : List (ν × Nat)} (q : Queued ((v, k) :: todo) s) : s.best[v]? = none := by
  rw [Option.eq_none_iff_forall_ne_some]
  intro j hv
  obtain ⟨c, hc, rfl, -⟩ := q.waits hv
  exact q.apart c hc (.head _)

theorem Queued.not_visited (q : Queued [] s) {v : ν} {k : Nat} : ¬ Visited s v k := by
  intro hv
  obtain ⟨c, hc, hcv, hck⟩ := q.waits hv.1
  exact hv.2 c hc hcv hck

section
variable [LawfulBEq ν] [LawfulHashable ν]

theorem Queued.meet (hl : space.Lawful) {v : ν} {k : Nat} {todo : List (ν × Nat)} (q : Queued ((v, k) :: todo) s)
    (hm : s.meet space v k = .ok s') : Queued todo s' := by
  obtain ⟨r, hr, rfl⟩ := meet_eq_ok hl hm
  obtain ⟨hfirst, hdistinct⟩ := List.nodup_cons.mp q.distinct
  refine ⟨hdistinct, ?_, ?_, ?_, q.orphans⟩
  · rw [(Heap.push_perm _ _).nodup_iff, List.nodup_cons, Array.mem_toList_iff]
    exact ⟨fun hc => q.apart _ hc (.head _), q.nodup⟩
  · intro c hc
    rcases Heap.mem_push.mp hc with hc | rfl
    · exact fun hn => q.apart c hc (.tail _ hn)
    · exact hfirst
  · intro x j hx
    rcases of_getElem?_insert hx with ⟨rfl, rfl⟩ | ⟨-, hx⟩
    · exact ⟨_, Heap.mem_push.mpr (.inr rfl), rfl, rfl⟩
    · obtain ⟨c, hc, hcx⟩ := q.waits hx
      exact ⟨c, Heap.mem_push.mpr (.inl hc), hcx⟩

theorem queued_of_starts (g : space.Guided h) {done todo : List (ν × Nat)} (hstarts : space.starts = done ++ todo)
    (hs : done.foldlM (fun s v => meet space s v.1 v.2) (empty : SearchState ν) = .ok s) : Queued todo s := by
  have hempty : Queued (done ++ todo) (.empty : SearchState ν) :=
    ⟨hstarts ▸ g.starts_nodup, List.nodup_nil, fun _ hc => by simp [SearchState.empty, Heap.empty] at hc,
      fun hv => by simp [SearchState.empty] at hv, rfl⟩
  exact foldlM_keeps (I := fun l => Queued (l ++ todo)) (fun q hm => q.meet g.toLawful hm) hempty hs

theorem start_queued (g : space.Guided h) (hs : start space = .ok s) : Queued [] s :=
  queued_of_starts g (List.append_nil _).symm hs

theorem start_orderly (g : space.Guided h) (hs : start space = .ok s) : Orderly space h s := by
  have q := start_queued g hs
  refine ⟨q.nodup, fun hv => absurd hv q.not_visited, fun hv => absurd hv q.not_visited, fun hp => ?_⟩
  simp [q.orphans] at hp

end

section
variable {c : Candidate ν} {rest : Heap (Candidate ν)}

theorem visited_pop_stale (hp : s.frontier.pop? space.before = some (c, rest)) (hst : s.isStale c = true) {v : ν}
    {k : Nat} : Visited ⟨s.best, s.parent, rest⟩ v k ↔ Visited s v k := by
  constructor
  · intro hv
    refine ⟨hv.1, fun d hd hdv hdk => ?_⟩
    rcases (Heap.mem_pop? hp).mp hd with rfl | hd
    · subst hdv hdk
      have hb : s.best[d.node]? = some d.cost := hv.1
      simp [isStale, hb] at hst
    · exact hv.2 d hd hdv hdk
  · exact fun hv => ⟨hv.1, fun d hd => hv.2 d ((Heap.mem_pop? hp).mpr (.inr hd))⟩

theorem Orderly.pop_nodup (o : Orderly space h s) (hp : s.frontier.pop? space.before = some (c, rest)) :
    c ∉ rest.items ∧ rest.items.toList.Nodup := by
  have hn := (Heap.pop?_perm hp).nodup_iff.mp o.nodup
  rwa [List.nodup_cons, Array.mem_toList_iff] at hn

/-- What waits on when a candidate leaves the frontier goes after it. -/
theorem Orderly.before_rest (g : space.Guided h) (inv : Invariant space settled s) (o : Orderly space h s)
    (hp : s.frontier.pop? space.before = some (c, rest)) : ∀ d ∈ rest.items, space.before c d = true := by
  intro d hd
  rw [← Bool.not_eq_false]
  intro hcd
  have hdc := inv.not_before_first g.toLawful hp d ((Heap.mem_pop? hp).mpr (.inr hd))
  obtain rfl := g.total hcd hdc
  exact (o.pop_nodup hp).1 hd

theorem Orderly.pop_stale (o : Orderly space h s) (hp : s.frontier.pop? space.before = some (c, rest))
    (hst : s.isStale c = true) : Orderly space h ⟨s.best, s.parent, rest⟩ := by
  refine ⟨(o.pop_nodup hp).2, fun hv => o.dist ((visited_pop_stale hp hst).mp hv), fun hv d hd => ?_, fun hpar hb => ?_⟩
  · exact o.passed ((visited_pop_stale hp hst).mp hv) d ((Heap.mem_pop? hp).mpr (.inr hd))
  · obtain ⟨j, w, hu, he, hk, hfirst⟩ := o.chosen hpar hb
    exact ⟨j, w, (visited_pop_stale hp hst).mpr hu, he, hk, fun hx => hfirst ((visited_pop_stale hp hst).mp hx)⟩

theorem visited_pop (g : space.Guided h) (inv : Invariant space settled s) (o : Orderly space h s)
    (hp : s.frontier.pop? space.before = some (c, rest)) (hst : s.isStale c = false) {v : ν} {k : Nat} :
    Visited ⟨s.best, s.parent, rest⟩ v k ↔ Visited s v k ∨ v = c.node ∧ k = c.cost := by
  have hc := Heap.first_mem hp
  constructor
  · intro hv
    by_cases hcv : v = c.node ∧ k = c.cost
    · exact .inr hcv
    · refine .inl ⟨hv.1, fun d hd hdv hdk => ?_⟩
      rcases (Heap.mem_pop? hp).mp hd with rfl | hd
      · exact hcv ⟨hdv.symm, hdk.symm⟩
      · exact hv.2 d hd hdv hdk
  · intro hv
    rcases hv with hv | ⟨rfl, rfl⟩
    · exact ⟨hv.1, fun d hd => hv.2 d ((Heap.mem_pop? hp).mpr (.inr hd))⟩
    · refine ⟨inv.best_of_fresh hc hst, fun d hd hdv hdk => (o.pop_nodup hp).1 ?_⟩
      -- the same candidate does not wait twice
      rw [inv.eq_of_mem g hc, ← hdv, ← hdk, ← inv.eq_of_mem g ((Heap.mem_pop? hp).mpr (.inr hd))]
      exact hd

/-- What holds while the edges out of `u` are followed, the node visited last. -/
structure Advancing (space : SearchSpace ν) (h : ν → Nat) (u : ν) (k : Nat) (s : SearchState ν) : Prop
    extends Orderly space h s where
  visited : Visited s u k
  latest : ∀ {v j}, Visited s v j → v = u ∨ space.before (.of h v j) (.of h u k) = true

theorem Orderly.pop (g : space.Guided h) (inv : Invariant space settled s) (o : Orderly space h s)
    (hp : s.frontier.pop? space.before = some (c, rest)) (hst : s.isStale c = false) :
    Advancing space h c.node c.cost ⟨s.best, s.parent, rest⟩ := by
  have hc := Heap.first_mem hp
  have hof := inv.eq_of_mem g hc
  have hiff {v k} := visited_pop g inv o hp hst (v := v) (k := k)
  refine ⟨⟨(o.pop_nodup hp).2, fun hv => ?_, fun hv d hd => ?_, fun {v u k} hpar hb => ?_⟩,
    hiff.mpr (.inr ⟨rfl, rfl⟩), fun hv => ?_⟩
  · rcases hiff.mp hv with hv | ⟨rfl, rfl⟩
    · exact o.dist hv
    · exact inv.dist_of_first g hp hst
  · rcases hiff.mp hv with hv | ⟨rfl, rfl⟩
    · exact o.passed hv d ((Heap.mem_pop? hp).mpr (.inr hd))
    · rw [← hof]
      exact o.before_rest g inv hp d hd
  · obtain ⟨j, w, hu, he, hk, hfirst⟩ := o.chosen hpar hb
    refine ⟨j, w, hiff.mpr (.inl hu), he, hk, fun {x i z} hx hxe hle => ?_⟩
    rcases hiff.mp hx with hx | ⟨rfl, rfl⟩
    · exact hfirst hx hxe hle
    · rw [← hof]
      exact .inr (o.passed hu c hc)
  · rcases hiff.mp hv with hv | ⟨rfl, -⟩
    · rw [← hof]
      exact .inr (o.passed hv c hc)
    · exact .inl rfl

end

section
variable {u x : ν} {k w : Nat}

/-- A node that is reached at less than before has not been visited: it would have been at its least cost. -/
theorem Advancing.unvisited (a : Advancing space h u k s) (he : space.Edge u x w)
    (hless : ∀ b, s.best[x]? = some b → k + w < b) (j : Nat) : ¬ Visited s x j := by
  intro hx
  obtain ⟨nodes, t⟩ := (a.dist a.visited).attained
  have hle := (a.dist hx).least (.step t he)
  have := hless j hx.1
  omega

/-- What is met by an edge out of the node visited last goes after all that has been visited. -/
theorem Advancing.before_met (g : space.Guided h) (a : Advancing space h u k s) (he : space.Edge u x w) {v : ν}
    {j : Nat} (hv : Visited s v j) : space.before (.of h v j) (.of h x (k + w)) = true := by
  have hedge := g.before_edge he k
  rcases a.latest hv with rfl | hbefore
  · have hj := hv.1.symm.trans a.visited.1
    cases hj
    exact hedge
  · exact g.before_trans hbefore hedge

variable [LawfulBEq ν] [LawfulHashable ν] {todo : List (ν × Nat)}

/-- Meeting a node that has not been visited leaves it waiting and the visited ones visited. -/
theorem visited_meet (space : SearchSpace ν) (parent : Std.HashMap ν ν) (e i : Nat) (hx : ∀ j, ¬ Visited s x j) {v : ν}
    {j : Nat} :
    Visited ⟨s.best.insert x i, parent, s.frontier.push space.before ⟨e, i, x⟩⟩ v j ↔ Visited s v j := by
  constructor
  · intro hv
    have hb : (s.best.insert x i)[v]? = some j := hv.1
    rcases of_getElem?_insert hb with ⟨hxv, hij⟩ | ⟨-, hb⟩
    · exact absurd hij (hv.2 _ (Heap.mem_push.mpr (.inr rfl)) hxv)
    · exact ⟨hb, fun c hc => hv.2 c (Heap.mem_push.mpr (.inl hc))⟩
  · intro hv
    have hxv : x ≠ v := fun hxv => hx j (hxv ▸ hv)
    refine ⟨by rw [getElem?_insert_of_ne hxv]; exact hv.1, fun c hc hcv => ?_⟩
    rcases Heap.mem_push.mp hc with hc | rfl
    · exact hv.2 c hc hcv
    · exact absurd hcv hxv

theorem Advancing.relax (g : space.Guided h) (inv : Invariant space (leaving u ((x, w) :: todo)) s)
    (a : Advancing space h u k s) (he : space.Edge u x w) (hrel : relax space u k s (x, w) = .ok s') :
    Advancing space h u k s' := by
  rcases relax_cases g.toLawful hrel with ⟨-, rfl⟩ | ⟨hless, r, hr, rfl⟩
  · exact a
  · obtain rfl := g.remaining_eq hr
    have hold {v j} := visited_meet space (s.parent.insert x u) (k + w + h x) (k + w) (a.unvisited he hless)
      (v := v) (j := j)
    refine ⟨⟨?_, fun hv => a.dist (hold.mp hv), fun hv c hc => ?_, fun {y p i} hpar hb => ?_⟩, hold.mpr a.visited,
      fun hv => a.latest (hold.mp hv)⟩
    · rw [(Heap.push_perm _ _).nodup_iff, List.nodup_cons, Array.mem_toList_iff]
      refine ⟨fun hc => ?_, a.nodup⟩
      obtain ⟨b, hb, hle⟩ := (inv.waiting hc).1
      exact Nat.not_le.mpr (hless b hb) hle
    · rcases Heap.mem_push.mp hc with hc | rfl
      · exact a.passed (hold.mp hv) c hc
      · exact a.before_met g he (hold.mp hv)
    · rcases of_getElem?_insert hpar with ⟨rfl, rfl⟩ | ⟨hxy, hpar⟩
      · have hi : (s.best.insert x (k + w))[x]? = some i := hb
        rw [Std.HashMap.getElem?_insert_self] at hi
        cases hi
        refine ⟨k, w, hold.mpr a.visited, he, rfl, fun {y i z} hy hye hle => ?_⟩
        -- the edges out of nodes visited before have been followed, and none leads here at this cost
        rcases (inv.followed_of_visited (hold.mp hy)).2 hye with ⟨rfl, -⟩ | ⟨b, hb, hbz⟩
        · exact .inl rfl
        · have := hless b hb
          omega
      · have hi : (s.best.insert x (k + w))[y]? = some i := hb
        rw [getElem?_insert_of_ne hxy] at hi
        obtain ⟨j, z, hp, hpe, hj, hfirst⟩ := a.chosen hpar hi
        exact ⟨j, z, hold.mpr hp, hpe, hj, fun hv => hfirst (hold.mp hv)⟩

/-- Following an edge out of the node visited last touches no visited node. -/
theorem Advancing.relax_keeps (g : space.Guided h) (a : Advancing space h u k s) (he : space.Edge u x w)
    (hrel : SearchState.relax space u k s (x, w) = .ok s') {v : ν} {j : Nat} :
    (Visited s' v j ↔ Visited s v j) ∧ (Visited s v j → s'.parent[v]? = s.parent[v]?) := by
  rcases relax_cases g.toLawful hrel with ⟨-, rfl⟩ | ⟨hless, r, -, rfl⟩
  · exact ⟨Iff.rfl, fun _ => rfl⟩
  · have hx := a.unvisited he hless
    refine ⟨visited_meet space _ _ _ hx, fun hv => getElem?_insert_of_ne fun hxv => ?_⟩
    subst hxv
    exact hx j hv

end

/-! ## The course of a round -/

section
variable {c : Candidate ν} {todo : List (ν × Nat)} {m : SearchState ν}

theorem first?_eq_some : s.first? space = some c ↔ ∃ rest, s.frontier.pop? space.before = some (c, rest) := by
  simp [first?]

theorem expanded?_eq_some : s.expanded? space = some c ↔
    s.first? space = some c ∧ s.isStale c = false ∧ space.isGoal c.node = false := by
  simp [expanded?, Option.filter_eq_some_iff]

theorem Midway.expanded (hm : Midway space s c todo m) : s.expanded? space = some c := by
  induction hm with
  | begin _ hc => exact hc
  | follow _ _ ih => exact ih

/-- A round that is not the last drops a candidate or follows all edges out of its node. -/
theorem open_cases (ho : round space s = .ok (.open s')) : ∃ c rest, s.frontier.pop? space.before = some (c, rest) ∧
    ((s.isStale c = true ∧ s' = ⟨s.best, s.parent, rest⟩) ∨ Midway space s c [] s') := by
  rcases round_cases ho with ⟨-, h⟩ | ⟨c, rest, hp, ⟨hst, h⟩ | ⟨-, -, h⟩ | ⟨hst, hg, edges, t, he, ht, h⟩⟩
  · cases h
  · cases h
    exact ⟨c, rest, hp, .inl ⟨hst, rfl⟩⟩
  · cases h
  · cases h
    have hc : s.expanded? space = some c := expanded?_eq_some.mpr ⟨first?_eq_some.mpr ⟨rest, hp⟩, hst, hg⟩
    exact ⟨c, rest, hp, .inr (foldlM_keeps (I := Midway space s c) .follow (.begin hp hc he) ht)⟩

variable [LawfulBEq ν] [LawfulHashable ν]

theorem Midway.expanding (hl : space.Lawful) (inv : Invariant space settled s) (hm : Midway space s c todo m) :
    Expanding space c.node c.cost todo m := by
  obtain ⟨-, hst, hg⟩ := expanded?_eq_some.mp hm.expanded
  induction hm with
  | begin hp hc he =>
    exact ⟨inv.pop_leaving hl hp hg he, inv.best_of_fresh (Heap.first_mem hp) hst, fun e hm => ⟨_, he, hm⟩⟩
  | follow hm hrel ih => exact ih.relax hl hg hrel

/-- What holds amid the round that begins in `s` with `c`. -/
structure Underway (space : SearchSpace ν) (h : ν → Nat) (s : SearchState ν) (c : Candidate ν)
    (todo : List (ν × Nat)) (m : SearchState ν) : Prop where
  expanding : Expanding space c.node c.cost todo m
  advancing : Advancing space h c.node c.cost m
  visited_iff : ∀ {v k}, Visited m v k ↔ Visited s v k ∨ v = c.node ∧ k = c.cost
  parent_eq : ∀ {v k}, Visited m v k → m.parent[v]? = s.parent[v]?

theorem Midway.underway (g : space.Guided h) (inv : Invariant space settled s) (o : Orderly space h s)
    (hm : Midway space s c todo m) : Underway space h s c todo m := by
  have x := hm.expanding g.toLawful inv
  induction hm with
  | begin hp hc he =>
    obtain ⟨-, hst, -⟩ := expanded?_eq_some.mp hc
    exact ⟨x, o.pop g inv hp hst, visited_pop g inv o hp hst, fun _ => rfl⟩
  | follow hm hrel ih =>
    have before := hm.expanding g.toLawful inv
    have hedge := before.edges _ (.head _)
    have u := ih before
    have hkeeps {v k} := u.advancing.relax_keeps g hedge hrel (v := v) (j := k)
    refine ⟨x, u.advancing.relax g before.inv hedge hrel, hkeeps.1.trans u.visited_iff, fun hv => ?_⟩
    have hv' := hkeeps.1.mp hv
    exact (hkeeps.2 hv').trans (u.parent_eq hv')

theorem Orderly.round (g : space.Guided h) (inv : Invariant space settled s) (o : Orderly space h s)
    (hround : round space s = .ok (.open s')) : Orderly space h s' := by
  obtain ⟨c, rest, hp, ⟨hst, rfl⟩ | hm⟩ := open_cases hround
  · exact o.pop_stale hp hst
  · exact (hm.underway g inv o).advancing.toOrderly

theorem orderly_of_reaches (g : space.Guided h) (hr : space.Reaches s) : Orderly space h s := by
  induction hr with
  | start hs => exact start_orderly g hs
  | round r hround ih => exact ih.round g (invariant_of_reaches g.toLawful r) hround

end

end SearchState

/-! ## The path found -/

namespace SearchSpace

variable {ν : Type} {space : SearchSpace ν} {h : ν → Nat}

/-- The list leads from a node back to a start node, by the first candidate among those from which the node is
reached at its least cost. -/
inductive Lineage (space : SearchSpace ν) (h : ν → Nat) : ν → List ν → Nat → Prop where
  | start {v : ν} {k : Nat} (hs : (v, k) ∈ space.starts) (hd : space.Dist v k) : Lineage space h v [v] k
  | step {u v : ν} {nodes : List ν} {k w : Nat} (l : Lineage space h u nodes k) (e : space.Edge u v w)
      (hd : space.Dist v (k + w)) (first : ∀ {x i z}, space.Dist x i → space.Edge x v z → i + z = k + w →
        x = u ∨ space.before (.of h u k) (.of h x i) = true) : Lineage space h v (v :: nodes) (k + w)

theorem Lineage.dist {v : ν} {nodes : List ν} {k : Nat} (l : space.Lineage h v nodes k) : space.Dist v k := by
  cases l with
  | start _ hd => exact hd
  | step _ _ hd => exact hd

end SearchSpace

namespace SearchState

variable {ν : Type} [BEq ν] [Hashable ν] {space : SearchSpace ν} {h : ν → Nat} {s s' : SearchState ν}
  {c : Candidate ν} {rest : Heap (Candidate ν)}

/-- The parents of a node that goes no later than the first candidate are those that the order prescribes. -/
theorem Orderly.lineage (g : space.Guided h) (inv : Invariant space settled s) (o : Orderly space h s)
    (hp : s.frontier.pop? space.before = some (c, rest)) {v : ν} {nodes : List ν} (d : Descent s.parent v nodes) :
    ∀ {k}, s.best[v]? = some k → space.Dist v k → (Candidate.of h v k = c ∨ space.before (.of h v k) c = true) →
      space.Lineage h v nodes k := by
  induction d with
  | root hpar => exact fun hb hd _ => .start (inv.root hpar hb) hd
  | child hpar d ih =>
    intro k hb hd hv
    obtain ⟨j, w, hu, he, rfl, hfirst⟩ := o.chosen hpar hb
    have hc := Heap.first_mem hp
    refine .step (ih hu.1 (o.dist hu) (.inr (o.passed hu c hc))) he hd fun {x i z} hx hxe hi => ?_
    -- what leads to the node goes before it, and so has been visited
    have hxv := g.before_edge hxe i
    rw [hi] at hxv
    have hxc : space.before (.of h x i) c = true := by
      rcases hv with rfl | hv
      · exact hxv
      · exact g.before_trans hxv hv
    exact hfirst (inv.visited_of_before g hp hx hxc) hxe (Nat.le_of_eq hi)

end SearchState

namespace SearchSpace

open SearchState

variable {ν : Type} [BEq ν] [Hashable ν] [LawfulBEq ν] [LawfulHashable ν] [Listed ν]
  {space : SearchSpace ν} {h : ν → Nat}

/-- The path that is found leads to the goal whose candidate is first, by the parents that are first. -/
theorem bestPath?_lineage (g : space.Guided h) {path : List ν} (hpath : space.bestPath? = .ok (some path)) :
    ∃ goal k, space.isGoal goal = true ∧ space.Lineage h goal path.reverse k ∧ space.Dist goal k ∧
      ∀ {v j}, space.isGoal v = true → space.Dist v j → v = goal ∨ space.before (.of h goal k) (.of h v j) = true := by
  rcases bestPath?_cases space with ⟨f, -, hf⟩ | ⟨s, hs, ⟨f, -, hf⟩ | ⟨-, hn⟩ | ⟨goal, t, hround, hf⟩⟩
  · rw [hf] at hpath; cases hpath
  · rw [hf] at hpath; cases hpath
  · rw [hn] at hpath; cases hpath
  · rw [hf] at hpath; cases hpath
    have inv := invariant_of_reaches g.toLawful hs
    have o := orderly_of_reaches g hs
    obtain ⟨c, rest, hp, hst, rfl, hg, rfl⟩ := round_reached hround
    have hc := Heap.first_mem hp
    have hd := inv.dist_of_first g hp hst
    have hof := inv.eq_of_mem g hc
    have hl := o.lineage g inv hp (inv.descent g.toLawful c.node) (inv.best_of_fresh hc hst) hd (.inl hof.symm)
    refine ⟨c.node, c.cost, hg, by simpa [pathTo] using hl, hd, fun {v j} hv hj => ?_⟩
    rw [← hof]
    by_cases hcv : space.before c (.of h v j) = true
    · exact .inr hcv
    · by_cases hvc : space.before (.of h v j) c = true
      · -- a goal is never visited before the search ends
        have hnot := (inv.followed_of_visited (inv.visited_of_before g hp hj hvc)).1
        rw [hv] at hnot
        cases hnot
      · simp only [Bool.not_eq_true] at hcv hvc
        exact .inl (congrArg Candidate.node (g.total hvc hcv))

end SearchSpace

end AncillaRouting
