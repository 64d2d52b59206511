import AncillaRouting.Proofs.AnyEstimate
import AncillaRouting.Proofs.VisitOrder

/-!
# Chains of parents

At every point of a search over the grid, whatever estimate guides it, a start cell has no parent, and what a cell is
known to cost beyond its parent is at least its own price. So the parents of a known cell, one after the other, come to
a start cell without a repetition, and the path that is read off them costs no more than is known.
-/

namespace AncillaRouting

open Outcome

/-- A state in the course of the search: some of the start nodes have been met, or a candidate has just left the
frontier, or a round begins or has followed some of its edges. -/
inductive SearchSpace.Passes {ν : Type} [BEq ν] [Hashable ν] (space : SearchSpace ν) : SearchState ν → Prop where
  | starting {done todo : List (ν × Nat)} {m : SearchState ν} (hstarts : space.starts = done ++ todo)
      (hm : done.foldlM (fun s v => SearchState.meet space s v.1 v.2) (.empty : SearchState ν) = .ok m) : Passes space m
  | popped {s : SearchState ν} {c : Candidate ν} {rest : Heap (Candidate ν)} (r : space.Reaches s)
      (hp : s.frontier.pop? space.before = some (c, rest)) : Passes space ⟨s.best, s.parent, rest⟩
  | amid {s m : SearchState ν} (r : space.Reaches s) (hm : s.Amid space m) : Passes space m

/-- What the parents tell: no source entry has one, a cell is dearer than its parent by its own price at least, and
going from parent to parent ends, at a source entry, along a path without repetitions that costs no more than known. -/
structure SearchProblem.Rooted (p : SearchProblem) (s : SearchState Cell) : Prop where
  source : ∀ a ∈ p.sources, s.parent[a.cell]? = none
  step : ∀ v u, s.parent[v]? = some u → u.Adjacent v ∧ p.terrain.Routable u ∧ p.terrain.Routable v ∧
    ∃ j k, s.best[u]? = some j ∧ s.best[v]? = some k ∧ j + p.cellCost v ≤ k
  back : ∀ v k, s.best[v]? = some k → SearchState.Descent s.parent v (s.pathTo v).reverse ∧ (s.pathTo v).Nodup ∧
    (∃ a ∈ p.sources, p.terrain.Walk a.cell v (s.pathTo v)) ∧ p.slice.pathCost (s.pathTo v) ≤ k

theorem SearchSpace.passes_of_bestPath? {ν : Type} [BEq ν] [Hashable ν] [LawfulBEq ν] [LawfulHashable ν] [Listed ν]
    {space : SearchSpace ν} (hl : space.Lawful) {path : List ν} (h : space.bestPath? = .ok (some path)) :
    ∃ m goal k, space.Passes m ∧ space.isGoal goal = true ∧ m.best[goal]? = some k ∧ m.pathTo goal = path := by
  rcases bestPath?_cases space with ⟨f, -, hf⟩ | ⟨s, hs, ⟨f, -, hf⟩ | ⟨-, hn⟩ | ⟨goal, m, hround, hp⟩⟩
  · rw [hf] at h; cases h
  · rw [hf] at h; cases h
  · rw [hn] at h; cases h
  · rw [hp] at h; cases h
    obtain ⟨c, rest, hpop, hst, rfl, hg, rfl⟩ := SearchState.round_reached hround
    have hb := (SearchState.invariant_of_reaches hl hs).best_of_fresh (Heap.first_mem hpop) hst
    exact ⟨_, c.node, c.cost, .popped hs hpop, hg, hb, rfl⟩

namespace SearchProblem

open SearchState

variable {p : SearchProblem} {add : Nat → Nat → Except Fault Nat} {remaining : Cell → Except Fault Nat}
  {s m : SearchState Cell} {pending : Cell → Cell → Nat → Prop} {v : Cell} {k : Nat}

theorem known_of_tracks (hp : p.Grounded) (t : Tracks (p.grid add remaining) pending s) (hv : s.best[v]? = some k) :
    p.terrain.Routable v ∧ 0 < k := by
  obtain ⟨nodes, r⟩ := t.recorded hv
  obtain ⟨⟨a, -, w⟩, rfl⟩ := walk_of_trail hp r.trail
  refine ⟨w.routable v (List.mem_reverse.mpr r.trail.mem), ?_⟩
  obtain ⟨rest, rfl⟩ := r.trail.head
  rw [Slice.pathCost_cons]
  exact Nat.add_pos_left (hp.paid v) _

theorem source_orphan (hp : p.Grounded) (inv : Invariant (p.grid add remaining) pending s) {a : EntryPoint}
    (ha : a ∈ p.sources) : s.parent[a.cell]? = none := by
  rw [Option.eq_none_iff_forall_ne_some]
  intro u hu
  obtain ⟨-, j, w, k, hj, he, hk, hle⟩ := inv.climb hu
  obtain ⟨-, -, rfl⟩ := grid_edge he
  -- the entry is known at its own price at most, and over another cell it would cost more
  obtain ⟨b, hb, hown⟩ := inv.started (mem_starts.mpr ⟨a, ha, rfl, rfl⟩)
  have hpos := (known_of_tracks hp inv.toTracks hj).2
  rw [hk] at hb
  cases hb
  omega

theorem rooted_of_invariant (hp : p.Grounded) (hadd : ∀ {a b c}, add a b = .ok c → c = a + b)
    (inv : Invariant (p.grid add remaining) pending s) : p.Rooted s where
  source _ := source_orphan hp inv
  step v u hu := by
    obtain ⟨-, j, w, k, hj, he, hk, hle⟩ := inv.climb hu
    obtain ⟨hadj, hv, rfl⟩ := grid_edge he
    exact ⟨hadj, (known_of_tracks hp inv.toTracks hj).1, hv, j, k, hj, hk, hle⟩
  back v k hv := by
    have hl : (p.grid add remaining).Lawful := grid_lawful hp hadd
    have hd := inv.descent hl v
    obtain ⟨j, ht, hle⟩ := inv.trail hd hv
    obtain ⟨⟨a, ha, w⟩, rfl⟩ := walk_of_trail hp ht
    refine ⟨?_, List.nodup_reverse.mpr (hd.nodup (inv.rank_lt hl)), ⟨a, ha, w⟩, ?_⟩
    · rw [pathTo, List.reverse_reverse]
      exact hd
    · rw [pathTo, Slice.pathCost_reverse]
      exact hle

theorem rooted_of_starting (hp : p.Grounded) {done : List (Cell × Nat)} (st : Starting (p.grid add remaining) done s) :
    p.Rooted s := by
  -- while the source entries are met, none is reached from another
  have hnone : ∀ c : Cell, s.parent[c]? = none := by simp [st.orphans]
  refine ⟨fun a _ => hnone a.cell, fun v u hu => ?_, fun v k hv => ?_⟩
  · rw [hnone] at hu
    cases hu
  · obtain ⟨a, ha, rfl, rfl⟩ := mem_starts.mp (st.only hv)
    have hpath : s.pathTo a.cell = [a.cell] := by
      rw [pathTo, ancestry]
      split
      · rfl
      · rename_i u hu
        rw [hnone] at hu
        cases hu
    rw [hpath]
    exact ⟨.root (hnone _), List.nodup_singleton _, ⟨a, ha, .single (hp.sources_routable a ha)⟩, Nat.le_refl _⟩

/-- Whatever estimate guides a search over the grid, as long as its sums are exact, in every state that it passes the
parents lead back from every known cell to a source entry. -/
theorem parents_lead_back {s : Slice} (hs : s.Reachable) (ha : s.Addressable) {a b : Patch} {aOp bOp : Pauli}
    {clearance : Bool} (hp : ofPatches s a aOp b bOp clearance = .ok p)
    (hadd : ∀ {a b c}, add a b = .ok c → c = a + b) (hm : (p.grid add remaining).Passes m) : p.Rooted m := by
  have hg := ofPatches_grounded hs.wellFormed ha hp
  have hl : (p.grid add remaining).Lawful := grid_lawful hg hadd
  cases hm with
  | @starting done todo _ hstarts hm =>
    have hd : ∀ v ∈ done, v ∈ (p.grid add remaining).starts := fun v hv => hstarts ▸ List.mem_append_left _ hv
    exact rooted_of_starting hg (starting_of_foldlM hl hd hm)
  | popped r _ =>
    -- the tables are those with which the round begins
    obtain ⟨hsource, hstep, hback⟩ := rooted_of_invariant hg hadd (invariant_of_reaches hl r)
    exact ⟨hsource, hstep, hback⟩
  | amid r hm =>
    have inv := invariant_of_reaches hl r
    rcases hm with rfl | ⟨c, todo, hm⟩
    · exact rooted_of_invariant hg hadd inv
    · exact rooted_of_invariant hg hadd (hm.expanding hl inv).inv

/-- On the yard, a state in which a target entry is known, of a search whose estimate falls by more than a step costs. -/
theorem parents_lead_back_yard : ∃ a b p m v k, ofPatches .yard a .z b .z true = .ok p ∧
    (p.guidedBy fun c => if c = ⟨2, 0⟩ then 4 else 0).Passes m ∧ p.isTarget v = true ∧ m.best[v]? = some k ∧
    p.Rooted m := by
  have hs := Slice.yard_reachable
  have ha := Slice.yard_fits.addressable
  have hadd : ∀ {a b c : Nat}, (.ok (a + b) : Except Fault Nat) = .ok c → c = a + b := fun e => (Except.ok.inj e).symm
  obtain ⟨a, b, p, hp, hroute⟩ := ofPatches_of_connects hs.wellFormed Slice.yard_fits Slice.yard_connects
  have hg := ofPatches_grounded hs.wellFormed ha hp
  rcases grid_outcome hg hadd (guidedBy_safe hg fun c => if c = ⟨2, 0⟩ then 4 else 0) with ⟨path, ho, -⟩ | ⟨-, hnone⟩
  · obtain ⟨m, v, k, hm, hv, hk, -⟩ := SearchSpace.passes_of_bestPath? (grid_lawful hg hadd) ho
    exact ⟨a, b, p, m, v, k, hp, hm, hv, hk, parents_lead_back hs ha hp hadd hm⟩
  · exact absurd hroute (hnone _)

end SearchProblem

end AncillaRouting
