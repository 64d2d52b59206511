import AncillaRouting.Proofs.SearchInvariant

/-!
# What a best-first search finds

A search that ends with a path has found a trail without repetitions to a goal, and none is cheaper
if no estimate is too high. A search that ends without one has no trail to find. Over a safe space
it ends in one of these two ways.
-/

namespace AncillaRouting

open Outcome

variable {ν : Type} [BEq ν] [Hashable ν]

inductive SearchSpace.Reaches (space : SearchSpace ν) : SearchState ν → Prop where
  | start {s : SearchState ν} (h : SearchState.start space = .ok s) : Reaches space s
  | round {s s' : SearchState ν} (r : Reaches space s) (h : SearchState.round space s = .ok (.open s')) :
      Reaches space s'

namespace SearchState

variable {space : SearchSpace ν} {s s' : SearchState ν}

/-! ## Parents -/

/-- The list leads from a node back to one that has no parent. -/
inductive Descent (parent : Std.HashMap ν ν) : ν → List ν → Prop where
  | root {v : ν} (h : parent[v]? = none) : Descent parent v [v]
  | child {v u : ν} {nodes : List ν} (h : parent[v]? = some u) (d : Descent parent u nodes) :
      Descent parent v (v :: nodes)

theorem Descent.rank {parent : Std.HashMap ν ν} {rank : ν → Nat}
    (climb : ∀ {v u}, parent[v]? = some u → rank u < rank v) {v x : ν} {nodes : List ν}
    (d : Descent parent v nodes) (hx : x ∈ nodes) : x = v ∨ rank x < rank v := by
  induction d with
  | root h => exact .inl (List.mem_singleton.mp hx)
  | child h d ih =>
    rcases List.mem_cons.mp hx with rfl | hx
    · exact .inl rfl
    · have := climb h
      rcases ih hx with rfl | hlt
      · exact .inr this
      · exact .inr (by omega)

theorem Descent.nodup {parent : Std.HashMap ν ν} {rank : ν → Nat}
    (climb : ∀ {v u}, parent[v]? = some u → rank u < rank v) {v : ν} {nodes : List ν}
    (d : Descent parent v nodes) : nodes.Nodup := by
  induction d with
  | root h => exact List.pairwise_singleton ..
  | child h d ih =>
    refine List.nodup_cons.mpr ⟨fun hv => ?_, ih⟩
    have := climb h
    rcases d.rank climb hv with rfl | hlt <;> omega

theorem Invariant.trail {pending : ν → ν → Nat → Prop} (inv : Invariant space pending s) {v : ν}
    {nodes : List ν} (d : Descent s.parent v nodes) :
    ∀ {b}, s.best[v]? = some b → ∃ k, space.Trail v nodes k ∧ k ≤ b := by
  induction d with
  | root h => exact fun {b} hb => ⟨b, .start (inv.root h hb), Nat.le_refl b⟩
  | child h d ih =>
    intro b hb
    obtain ⟨-, j, w, i, hj, he, hi, hle⟩ := inv.climb h
    rw [hi] at hb; cases hb
    obtain ⟨k, ht, hk⟩ := ih hj
    exact ⟨k + w, .step ht he, by omega⟩

/-- Parents have lower ranks: a parent is cheaper, unless the edge is free and leads to a goal. -/
def rank (space : SearchSpace ν) (s : SearchState ν) (v : ν) : Nat :=
  2 * s.best[v]?.getD 0 + if space.isGoal v then 1 else 0

theorem Invariant.rank_lt (hl : space.Lawful) {pending : ν → ν → Nat → Prop}
    (inv : Invariant space pending s) {v u : ν} (h : s.parent[v]? = some u) :
    rank space s u < rank space s v := by
  obtain ⟨hg, j, w, k, hj, he, hk, hle⟩ := inv.climb h
  have hu : rank space s u = 2 * j := by simp [rank, hg, hj]
  have hv : rank space s v = 2 * k + if space.isGoal v then 1 else 0 := by simp [rank, hk]
  rw [hu, hv]
  rcases hl.toll he with hw | hgv
  · omega
  · rw [if_pos hgv]; omega

section
variable [LawfulBEq ν] [LawfulHashable ν]

/-- Reading the parents off is not cut short by using each only once. -/
theorem descent_ancestry {parent : Std.HashMap ν ν} {rank : ν → Nat}
    (climb : ∀ {v u}, parent[v]? = some u → rank u < rank v) (n : Nat) :
    ∀ (v : ν) (left : Std.HashMap ν ν), rank v ≤ n → (∀ x, rank x ≤ rank v → left[x]? = parent[x]?) →
      Descent parent v (ancestry left v) := by
  induction n using Nat.strongRecOn with
  | ind n ih =>
    intro v left hv agree
    unfold ancestry
    split
    · rename_i h
      exact .root (by rw [← agree v (Nat.le_refl _)]; exact h)
    · rename_i u h
      rw [agree v (Nat.le_refl _)] at h
      have hlt := climb h
      -- only nodes of higher rank have been erased, and none of them comes again
      apply Descent.child h
      apply ih (rank u) (by omega) u _ (Nat.le_refl _)
      intro x hx
      have hne : v ≠ x := fun e => by subst e; omega
      rw [Std.HashMap.getElem?_erase, if_neg (by simpa using hne)]
      exact agree x (by omega)

theorem Invariant.descent (hl : space.Lawful) {pending : ν → ν → Nat → Prop}
    (inv : Invariant space pending s) (v : ν) : Descent s.parent v (ancestry s.parent v) :=
  descent_ancestry (inv.rank_lt hl) _ v _ (Nat.le_refl _) fun _ _ => rfl

end

/-! ## The frontier covers every trail -/

/-- The node is known at this cost and does not wait at it. -/
def Visited (s : SearchState ν) (v : ν) (k : Nat) : Prop :=
  s.best[v]? = some k ∧ ∀ c ∈ s.frontier.items, c.node = v → c.cost ≠ k

theorem Tracks.followed_of_visited {pending : ν → ν → Nat → Prop} (t : Tracks space pending s) {v : ν} {k : Nat}
    (hv : Visited s v k) :
    space.isGoal v = false ∧ ∀ {x w}, space.Edge v x w → pending v x w ∨ Within s.best x (k + w) := by
  rcases t.followed hv.1 with ⟨c, hc, hcv, hck⟩ | hf
  · exact absurd hck (hv.2 c hc hcv)
  · exact hf

theorem Tracks.not_before_first {pending : ν → ν → Nat → Prop} (hl : space.Lawful) (t : Tracks space pending s)
    {c : Candidate ν} {rest : Heap (Candidate ν)} (hp : s.frontier.pop? space.before = some (c, rest)) :
    ∀ d ∈ s.frontier.items, space.before d c = false := by
  intro d hd
  rcases (Heap.mem_pop? hp).mp hd with rfl | hd
  · exact hl.order.irrefl d
  · exact (t.ordered.pop? hl.order hp).2 d hd

/-- Either the last node of a trail has been visited at no higher cost, or some candidate is ahead of the trail. -/
theorem Invariant.visited_or_ahead (inv : Invariant space settled s) {x : ν} {nodes : List ν} {k : Nat}
    (t : space.Trail x nodes k) : (∃ b, b ≤ k ∧ Visited s x b) ∨
      ∃ c ∈ s.frontier.items, ∃ r, space.Onward c.node x r ∧ c.cost + r ≤ k := by
  have known : ∀ {y : ν} {j : Nat}, Within s.best y j → (∃ b, b ≤ j ∧ Visited s y b) ∨
      ∃ c ∈ s.frontier.items, ∃ r, space.Onward c.node y r ∧ c.cost + r ≤ j := by
    intro y j hy
    obtain ⟨b, hb, hle⟩ := hy
    by_cases hw : ∃ c ∈ s.frontier.items, c.node = y ∧ c.cost = b
    · obtain ⟨c, hc, rfl, rfl⟩ := hw
      exact .inr ⟨c, hc, 0, .refl, hle⟩
    · exact .inl ⟨b, hle, hb, fun c hc hcy hcb => hw ⟨c, hc, hcy, hcb⟩⟩
  induction t with
  | start hs => exact known (inv.started hs)
  | step t e ih =>
    rcases ih with ⟨b, hle, hv⟩ | ⟨c, hc, r, ho, hle⟩
    · have hx := ((inv.followed_of_visited hv).2 e).resolve_left id
      exact known (hx.mono (by omega))
    · exact .inr ⟨c, hc, _, .step ho e, by omega⟩

theorem Invariant.ahead (inv : Invariant space settled s) {g : ν} {nodes : List ν} {k : Nat}
    (t : space.Trail g nodes k) (hg : space.isGoal g = true) :
    ∃ c ∈ s.frontier.items, ∃ r, space.Onward c.node g r ∧ c.cost + r ≤ k := by
  apply (inv.visited_or_ahead t).resolve_left
  intro ⟨b, _, hv⟩
  have h := (inv.followed_of_visited hv).1
  rw [hg] at h
  cases h

/-- With estimates that are never too high, the candidate that goes first is no dearer than any
trail to a goal. -/
theorem Invariant.first_le (hl : space.Lawful) (inv : Invariant space settled s)
    (ha : space.Admissible) {c : Candidate ν} {rest : Heap (Candidate ν)}
    (hp : s.frontier.pop? space.before = some (c, rest)) {g : ν} {nodes : List ν} {k : Nat}
    (t : space.Trail g nodes k) (hg : space.isGoal g = true) : c.cost ≤ k := by
  obtain ⟨d, hd, r, ho, hle⟩ := inv.ahead t hg
  have hcd := hl.estimate_le (inv.not_before_first hl hp d hd)
  obtain ⟨-, h, -, hc⟩ := inv.waiting (Heap.first_mem hp)
  obtain ⟨⟨b, hb, -⟩, h', hr, hd'⟩ := inv.waiting hd
  obtain ⟨_, hrec⟩ := inv.recorded hb
  have := ha hrec.trail hr ho hg
  omega

/-! ## Outcomes -/

theorem round_exhausted (h : round space s = .ok .exhausted) : s.frontier.items = #[] := by
  rcases round_cases h with ⟨hp, -⟩ | ⟨c, rest, -, ⟨-, ho⟩ | ⟨-, -, ho⟩ | ⟨-, -, edges, t, -, -, ho⟩⟩
  · exact Heap.pop?_eq_none hp
  all_goals cases ho

theorem round_reached {goal : ν} (h : round space s = .ok (.reached goal s')) :
    ∃ c rest, s.frontier.pop? space.before = some (c, rest) ∧ s.isStale c = false ∧
      c.node = goal ∧ space.isGoal goal = true ∧ s' = ⟨s.best, s.parent, rest⟩ := by
  rcases round_cases h with ⟨-, ho⟩ | ⟨c, rest, hp, ⟨-, ho⟩ | ⟨hst, hg, ho⟩ | ⟨-, -, edges, t, -, -, ho⟩⟩
  · cases ho
  · cases ho
  · cases ho
    exact ⟨c, rest, hp, hst, rfl, hg, rfl⟩
  · cases ho

section
variable [LawfulBEq ν] [LawfulHashable ν]

theorem invariant_of_reaches (hl : space.Lawful) (hr : space.Reaches s) : Invariant space settled s := by
  induction hr with
  | start h => exact start_invariant hl h
  | round r h ih => exact ih.round hl h

theorem run_eq [Listed ν] (space : SearchSpace ν) (s : SearchState ν) : run space s =
    match round space s with
    | .error f => .error f
    | .ok .exhausted => .ok none
    | .ok (.reached goal t) => .ok (some (t.pathTo goal))
    | .ok (.open t) => run space t := by
  rw [run]
  split <;> (rename_i h; rw [h])

/-- A search ends with the outcome of a round in one of the states that it passes through. -/
theorem run_cases [Listed ν] (hr : space.Reaches s) : ∃ t, space.Reaches t ∧
    ((∃ f, round space t = .error f ∧ run space s = .error f) ∨
      (round space t = .ok .exhausted ∧ run space s = .ok none) ∨
      ∃ goal t', round space t = .ok (.reached goal t') ∧ run space s = .ok (some (t'.pathTo goal))) := by
  induction s using run.induct space with
  | case1 s f h => exact ⟨s, hr, .inl ⟨f, h, by rw [run_eq, h]⟩⟩
  | case2 s h => exact ⟨s, hr, .inr (.inl ⟨h, by rw [run_eq, h]⟩)⟩
  | case3 s goal t h => exact ⟨s, hr, .inr (.inr ⟨goal, t, h, by rw [run_eq, h]⟩)⟩
  | case4 s t h ih =>
    rw [run_eq, h]
    exact ih (hr.round h)

end

end SearchState

namespace SearchSpace

open SearchState

variable {space : SearchSpace ν}

/-! ## Safety -/

theorem Safe.meet (hs : space.Safe) (s : SearchState ν) {v : ν} {nodes : List ν} {k : Nat}
    (t : space.Trail v nodes k) (hn : nodes.Nodup) : ∃ s', meet space s v k = .ok s' := by
  obtain ⟨h, total, hr, ht⟩ := hs.meets t hn
  exact ⟨_, bind_eq_ok.mpr ⟨h, hr, bind_eq_ok.mpr ⟨total, ht, rfl⟩⟩⟩

theorem Safe.start (hs : space.Safe) : ∃ s, SearchState.start space = .ok s :=
  foldlM_total (I := fun todo _ => ∀ v ∈ todo, v ∈ space.starts)
    (fun {v _ s} hv =>
      have ⟨t, ht⟩ := hs.meet s (.start (hv v (List.mem_cons_self ..))) (List.pairwise_singleton ..)
      ⟨t, ht, fun x hx => hv x (List.mem_cons_of_mem _ hx)⟩) fun _ hv => hv

theorem Safe.relax (hl : space.Lawful) (hs : space.Safe) {s : SearchState ν} {u x : ν} {nodes : List ν}
    {k w : Nat} (r : Record space s.best u nodes k) (he : space.Edge u x w) :
    ∃ s', relax space u k s (x, w) = .ok s' := by
  obtain ⟨edges, hu, hadd⟩ := hs.leaves r.trail r.nodup
  obtain ⟨es, hes, hm⟩ := id he
  rw [hu] at hes; cases hes
  obtain ⟨reached, ht⟩ := hadd _ hm
  obtain rfl := hl.add_eq ht
  by_cases hi : s.improves x (k + w) = true
  · -- a node of the trail itself is known at less, so the longer trail repeats nothing
    have hx : x ∉ nodes := fun hx => by
      obtain ⟨b, hb, hle⟩ := r.within hx
      simp [improves, hb] at hi
      omega
    obtain ⟨s', hs'⟩ := hs.meet ⟨s.best, s.parent.insert x u, s.frontier⟩ (.step r.trail he)
      (List.nodup_cons.mpr ⟨hx, r.nodup⟩)
    exact ⟨s', bind_eq_ok.mpr ⟨_, ht, by rw [if_pos hi]; exact hs'⟩⟩
  · exact ⟨s, bind_eq_ok.mpr ⟨_, ht, by rw [if_neg hi]; rfl⟩⟩

variable [LawfulBEq ν] [LawfulHashable ν]

theorem Safe.foldlM (hl : space.Lawful) (hs : space.Safe) {s : SearchState ν} {u : ν} {k : Nat}
    {todo : List (ν × Nat)} (hg : space.isGoal u = false) (x : Expanding space u k todo s) :
    ∃ s', todo.foldlM (SearchState.relax space u k) s = .ok s' := by
  refine foldlM_total (I := Expanding space u k) (fun {e todo t} x => ?_) x
  obtain ⟨nodes, hrec⟩ := x.inv.recorded x.best_eq
  obtain ⟨t', ht⟩ := hs.relax hl hrec (x.edges e (List.mem_cons_self ..))
  exact ⟨t', ht, x.relax hl hg ht⟩

theorem Safe.round (hl : space.Lawful) (hs : space.Safe) {s : SearchState ν}
    (inv : Invariant space settled s) : ∃ o, round space s = .ok o := by
  rcases hp : s.frontier.pop? space.before with _ | ⟨c, rest⟩
  · exact ⟨.exhausted, by simp only [SearchState.round, hp]⟩
  · have hround : SearchState.round space s = if s.isStale c then .ok (.open ⟨s.best, s.parent, rest⟩)
        else if space.isGoal c.node then .ok (.reached c.node ⟨s.best, s.parent, rest⟩)
        else .open <$> expand space ⟨s.best, s.parent, rest⟩ c := by
      simp only [SearchState.round, hp]; rfl
    rw [hround]
    by_cases hst : s.isStale c = true
    · exact ⟨_, by rw [if_pos hst]⟩
    · by_cases hg : space.isGoal c.node = true
      · exact ⟨_, by rw [if_neg hst, if_pos hg]⟩
      · rw [if_neg hst, if_neg hg]
        simp only [Bool.not_eq_true] at hst hg
        have hb := inv.best_of_fresh (Heap.first_mem hp) hst
        obtain ⟨nodes, hrec⟩ := inv.recorded hb
        obtain ⟨edges, he, -⟩ := hs.leaves hrec.trail hrec.nodup
        obtain ⟨s', hs'⟩ := hs.foldlM hl hg ⟨inv.pop_leaving hl hp hg he, hb, fun e hm => ⟨edges, he, hm⟩⟩
        exact ⟨.open s', map_eq_ok.mpr ⟨s', bind_eq_ok.mpr ⟨edges, he, hs'⟩, rfl⟩⟩

/-! ## The path found -/

variable [Listed ν]

theorem bestPath?_cases (space : SearchSpace ν) :
    (∃ f, start space = .error f ∧ space.bestPath? = .error f) ∨ ∃ t, space.Reaches t ∧
      ((∃ f, round space t = .error f ∧ space.bestPath? = .error f) ∨
        (round space t = .ok .exhausted ∧ space.bestPath? = .ok none) ∨
        ∃ goal t', round space t = .ok (.reached goal t') ∧ space.bestPath? = .ok (some (t'.pathTo goal))) := by
  cases h : start space with
  | error f => exact .inl ⟨f, rfl, by rw [bestPath?, h]; rfl⟩
  | ok s =>
    right
    have hb : space.bestPath? = run space s := by rw [bestPath?, h]; rfl
    rw [hb]
    exact run_cases (.start h)

theorem bestPath?_sound (hl : space.Lawful) {path : List ν} (h : space.bestPath? = .ok (some path)) :
    ∃ goal k, space.isGoal goal = true ∧ space.Trail goal path.reverse k ∧ path.Nodup ∧
      (space.Admissible → ∀ {g nodes j}, space.isGoal g = true → space.Trail g nodes j → k ≤ j) := by
  rcases bestPath?_cases space with ⟨f, -, hf⟩ | ⟨t, ht, ⟨f, -, hf⟩ | ⟨-, hn⟩ | ⟨goal, t', hround, hp⟩⟩
  · rw [hf] at h; cases h
  · rw [hf] at h; cases h
  · rw [hn] at h; cases h
  · rw [hp] at h; cases h
    have inv := invariant_of_reaches hl ht
    obtain ⟨c, rest, hpop, hst, rfl, hg, rfl⟩ := round_reached hround
    have hb := inv.best_of_fresh (Heap.first_mem hpop) hst
    have hd := inv.descent hl c.node
    obtain ⟨k, htr, hk⟩ := inv.trail hd hb
    refine ⟨c.node, k, hg, by simpa [pathTo] using htr, ?_, fun ha {g nodes j} hgg tg => ?_⟩
    · exact List.pairwise_reverse.mpr ((hd.nodup (inv.rank_lt hl)).imp Ne.symm)
    · exact Nat.le_trans hk (inv.first_le hl ha hpop tg hgg)

theorem bestPath?_complete (hl : space.Lawful) (h : space.bestPath? = .ok none) {g : ν} {nodes : List ν}
    {k : Nat} (t : space.Trail g nodes k) : space.isGoal g = false := by
  rcases bestPath?_cases space with ⟨f, -, hf⟩ | ⟨s, hs, ⟨f, -, hf⟩ | ⟨hround, -⟩ | ⟨goal, t', -, hp⟩⟩
  · rw [hf] at h; cases h
  · rw [hf] at h; cases h
  · cases hg : space.isGoal g with
    | false => rfl
    | true =>
      obtain ⟨c, hc, -⟩ := (invariant_of_reaches hl hs).ahead t hg
      simp [round_exhausted hround] at hc
  · rw [hp] at h; cases h

theorem bestPath?_safe (hl : space.Lawful) (hs : space.Safe) : ∃ o, space.bestPath? = .ok o := by
  rcases bestPath?_cases space with ⟨f, hf, -⟩ | ⟨s, hr, ⟨f, hf, -⟩ | ⟨-, hn⟩ | ⟨goal, t', -, hp⟩⟩
  · obtain ⟨s, h⟩ := hs.start
    rw [h] at hf; cases hf
  · obtain ⟨o, ho⟩ := hs.round hl (invariant_of_reaches hl hr)
    rw [hf] at ho; cases ho
  · exact ⟨_, hn⟩
  · exact ⟨_, hp⟩

end SearchSpace

end AncillaRouting
