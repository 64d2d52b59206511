import AncillaRouting.Proofs.AnyEstimate
import AncillaRouting.Proofs.TieBreaks

/-!
# Sums in words and sums without limits

A search whose sums all fit their words is the search that has no limits on sums. Both strategies over the grid
are of this kind on slices whose sizes fit.
-/

namespace AncillaRouting

open Outcome

theorem Outcome.foldlM_mono {ε α β : Type} {f g : β → α → Except ε β} (h : ∀ {b x c}, f b x = .ok c → g b x = .ok c)
    {l : List α} {b c : β} (hl : l.foldlM f b = .ok c) : l.foldlM g b = .ok c := by
  induction l generalizing b with
  | nil => exact hl
  | cons x l ih =>
    rw [List.foldlM_cons] at hl ⊢
    obtain ⟨d, hd, hl⟩ := bind_eq_ok.mp hl
    exact bind_eq_ok.mpr ⟨d, h hd, ih hl⟩

/-- The same nodes and edges with another addition and other estimates. -/
def SearchSpace.counting {ν : Type} (space : SearchSpace ν) (add : Nat → Nat → Except Fault Nat)
    (remaining : ν → Except Fault Nat) : SearchSpace ν :=
  { space with add := add, remaining := remaining }

namespace SearchState

section
variable {ν : Type} [BEq ν] [Hashable ν] {space : SearchSpace ν} {s t : SearchState ν}
  {add : Nat → Nat → Except Fault Nat} {remaining : ν → Except Fault Nat}
  (hadd : ∀ {a b c}, space.add a b = .ok c → add a b = .ok c)
  (hrem : ∀ {v k}, space.remaining v = .ok k → remaining v = .ok k)

include hadd hrem

theorem meet_counting {v : ν} {k : Nat} (h : meet space s v k = .ok t) :
    meet (space.counting add remaining) s v k = .ok t := by
  obtain ⟨r, hr, h⟩ := bind_eq_ok.mp h
  obtain ⟨total, htotal, h⟩ := bind_eq_ok.mp h
  exact bind_eq_ok.mpr ⟨r, hrem hr, bind_eq_ok.mpr ⟨total, hadd htotal, h⟩⟩

theorem relax_counting {u : ν} {k : Nat} {e : ν × Nat} (h : relax space u k s e = .ok t) :
    relax (space.counting add remaining) u k s e = .ok t := by
  obtain ⟨reached, hreached, h⟩ := bind_eq_ok.mp h
  refine bind_eq_ok.mpr ⟨reached, hadd hreached, ?_⟩
  by_cases hi : s.improves e.1 reached = true
  · rw [if_pos hi] at h ⊢
    exact meet_counting hadd hrem h
  · rw [if_neg hi] at h ⊢
    exact h

theorem expand_counting {c : Candidate ν} (h : expand space s c = .ok t) :
    expand (space.counting add remaining) s c = .ok t := by
  obtain ⟨edges, he, h⟩ := bind_eq_ok.mp h
  exact bind_eq_ok.mpr ⟨edges, he, foldlM_mono (relax_counting hadd hrem) h⟩

theorem start_counting (h : start space = .ok s) : start (space.counting add remaining) = .ok s :=
  foldlM_mono (meet_counting hadd hrem) h

theorem round_counting {o : Round ν} (h : round space s = .ok o) :
    round (space.counting add remaining) s = .ok o := by
  obtain ⟨best, parent, frontier⟩ := s
  have hbefore : (space.counting add remaining).before = space.before := rfl
  have hgoal : (space.counting add remaining).isGoal = space.isGoal := rfl
  simp only [round, hbefore, hgoal] at h ⊢
  cases hp : frontier.pop? space.before with
  | none =>
    rw [hp] at h
    exact h
  | some top =>
    rw [hp] at h
    simp only at h ⊢
    by_cases hst : isStale (⟨best, parent, top.2⟩ : SearchState ν) top.1 = true
    · rw [if_pos hst] at h ⊢
      exact h
    · rw [if_neg hst] at h ⊢
      by_cases hg : space.isGoal top.1.node = true
      · rw [if_pos hg] at h ⊢
        exact h
      · rw [if_neg hg] at h ⊢
        obtain ⟨t, ht, rfl⟩ := map_eq_ok.mp h
        exact map_eq_ok.mpr ⟨t, expand_counting hadd hrem ht, rfl⟩

variable [LawfulBEq ν] [LawfulHashable ν] [Listed ν]

theorem run_counting {answer : Option (List ν)} (h : run space s = .ok answer) :
    run (space.counting add remaining) s = .ok answer := by
  induction s using run.induct space with
  | case1 s f hround =>
    rw [run_eq, hround] at h
    cases h
  | case2 s hround =>
    rw [run_eq, hround] at h
    rw [run_eq, round_counting hadd hrem hround]
    exact h
  | case3 s goal t hround =>
    rw [run_eq, hround] at h
    rw [run_eq, round_counting hadd hrem hround]
    exact h
  | case4 s t hround ih =>
    rw [run_eq, hround] at h
    rw [run_eq, round_counting hadd hrem hround]
    exact ih h

theorem bestPath?_counting {answer : Option (List ν)} (h : space.bestPath? = .ok answer) :
    (space.counting add remaining).bestPath? = .ok answer := by
  obtain ⟨s, hs, hrun⟩ := bind_eq_ok.mp h
  exact bind_eq_ok.mpr ⟨s, start_counting hadd hrem hs, run_counting hadd hrem hrun⟩

end

end SearchState

namespace SearchProblem

variable {p : SearchProblem}

/-- A strategy that ends without a fault has counted as one without limits does. -/
theorem path_of_words {remaining : Cell → Except Fault Nat} {h : Cell → Nat}
    (hrem : ∀ {c n}, remaining c = .ok n → n = h c) {answer : Option (List Cell)}
    (ha : (p.grid (Word.sum 64) remaining).bestPath? = .ok answer) : (p.guidedBy h).bestPath? = .ok answer :=
  SearchState.bestPath?_counting (fun hc => congrArg Except.ok (sum_exact hc).symm)
    (fun hn => congrArg Except.ok (hrem hn).symm) ha

theorem dijkstraPath?_exact (hp : p.WellPosed) : p.dijkstraPath? = (p.guidedBy fun _ => 0).bestPath? := by
  obtain ⟨answer, ha⟩ := (dijkstra_solved hp).total
  rw [ha, path_of_words (fun hn => (Except.ok.inj hn).symm) ha]

theorem astarPath?_exact (hp : p.WellPosed) : p.astarPath? = (p.guidedBy p.nearest).bestPath? := by
  obtain ⟨answer, ha⟩ := (astar_solved hp).total
  rw [ha, path_of_words eq_nearest ha]

end SearchProblem

end AncillaRouting
