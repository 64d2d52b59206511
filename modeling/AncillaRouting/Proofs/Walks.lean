import AncillaRouting.Proofs.Entries
import Mathlib.Data.List.Chain
import Mathlib.Data.List.Perm.Subperm

/-!
# Walks and cheapest routes

Walks as lists of routable cells, each adjacent to the next, so that they can be cut and joined; and
what follows from being cheapest when no cell is free of charge: no cell twice, no second source
entry and no earlier target entry.
-/

namespace AncillaRouting

namespace Terrain

variable {t : Terrain}

theorem walk_iff : ∀ {path : List Cell} {c e : Cell}, t.Walk c e path ↔ (∀ d ∈ path, t.Routable d) ∧
    path.IsChain Cell.Adjacent ∧ path.head? = some c ∧ path.getLast? = some e
  | [], c, e => ⟨fun w => absurd rfl w.ne_nil, fun ⟨_, _, h, _⟩ => by cases h⟩
  | [a], c, e => by
    constructor
    · intro w
      cases w with
      | single hc => exact ⟨by simpa using hc, .singleton _, rfl, rfl⟩
      | cons hc _ w => exact absurd rfl w.ne_nil
    · rintro ⟨hr, -, hc, he⟩
      cases hc; cases he
      exact .single (hr _ (List.mem_singleton.mpr rfl))
  | a :: b :: path, c, e => by
    constructor
    · intro w
      cases w with
      | cons hc hcd w =>
        obtain ⟨hr, hch, hb, he⟩ := walk_iff.mp w
        cases hb
        exact ⟨List.forall_mem_cons.mpr ⟨hc, hr⟩, .cons_cons hcd hch, rfl, he⟩
    · rintro ⟨hr, hch, hc, he⟩
      cases hc
      rw [List.forall_mem_cons] at hr
      rw [List.isChain_cons_cons] at hch
      exact .cons hr.1 hch.1 (walk_iff.mpr ⟨hr.2, hch.2, rfl, he⟩)

theorem Walk.snoc {c d e : Cell} {path : List Cell} (w : t.Walk c d path) (hde : d.Adjacent e)
    (he : t.Routable e) : t.Walk c e (path ++ [e]) := by
  obtain ⟨hr, hch, hc, hd⟩ := walk_iff.mp w
  refine walk_iff.mpr ⟨fun x hx => ?_, hch.append (.singleton e) fun x hx y hy => ?_, ?_, ?_⟩
  · rcases List.mem_append.mp hx with hx | hx
    · exact hr x hx
    · rw [List.mem_singleton.mp hx]; exact he
  · rw [hd] at hx
    cases hx; cases hy
    exact hde
  · rw [List.head?_append, hc]; rfl
  · rw [List.getLast?_append]; rfl

end Terrain

/-! ## Costs -/

namespace Slice

variable {s : Slice}

theorem pathCost_cons (c : Cell) (path : List Cell) :
    s.pathCost (c :: path) = (s.cost c).toNat + s.pathCost path := rfl

theorem pathCost_append (path path' : List Cell) :
    s.pathCost (path ++ path') = s.pathCost path + s.pathCost path' := by
  induction path with
  | nil => exact (Nat.zero_add _).symm
  | cons c path ih => rw [List.cons_append, pathCost_cons, pathCost_cons, ih, Nat.add_assoc]

theorem pathCost_reverse (path : List Cell) : s.pathCost path.reverse = s.pathCost path := by
  induction path with
  | nil => rfl
  | cons c path ih => rw [List.reverse_cons, pathCost_append, ih, pathCost_cons, Nat.add_comm]; rfl

/-- What falls by no more than a step costs, whatever the step, falls by no more than a walk costs. -/
theorem le_pathCost_tail_add {h : Cell → Nat} (hstep : ∀ {u v : Cell}, u.Adjacent v → h u ≤ (s.cost v).toNat + h v) :
    ∀ {path : List Cell} {u v : Cell}, path.IsChain Cell.Adjacent → path.head? = some u → path.getLast? = some v →
      h u ≤ s.pathCost path.tail + h v
  | [], _, _, _, hu, _ => by cases hu
  | [c], _, _, _, hu, hv => by
    cases hu; cases hv
    exact Nat.le_add_left ..
  | c :: d :: path, _, v, hch, hu, hv => by
    cases hu
    rw [List.isChain_cons_cons] at hch
    have hfirst := hstep hch.1
    have hrest : h d ≤ s.pathCost path + h v := le_pathCost_tail_add hstep hch.2 rfl hv
    rw [List.tail_cons, pathCost_cons]
    omega

theorem pathCost_le_length {m : Nat} (hm : ∀ c, (s.cost c).toNat ≤ m) (path : List Cell) :
    s.pathCost path ≤ path.length * m := by
  induction path with
  | nil => rw [List.length_nil, Nat.zero_mul]; rfl
  | cons c path ih =>
    have := hm c
    rw [pathCost_cons, List.length_cons, Nat.succ_mul]
    omega

theorem pathCost_le_of_length {path : List Cell} (h : path.length ≤ 4294967295) :
    s.pathCost path ≤ 4294967295 * 4294967295 := by
  have hcost : ∀ c, (s.cost c).toNat ≤ 4294967295 := fun c => by
    have := (s.cost c).toNat_lt
    omega
  exact Nat.le_trans (pathCost_le_length hcost path) (Nat.mul_le_mul_right _ h)

theorem length_le (hf : s.Fits) {path : List Cell} (hn : path.Nodup) (hb : ∀ c ∈ path, s.inBounds c = true) :
    path.length ≤ 4294967295 := by
  have hsub := (List.subperm_of_subset hn fun c hc => (mem_cells hf).mpr (hb c hc)).length_le
  rw [length_cells hf] at hsub
  have := hf.size_lt
  omega

/-- Sums over cells of the grid without repetitions fit a word with room to spare. -/
theorem pathCost_le (hf : s.Fits) {path : List Cell} (hn : path.Nodup)
    (hb : ∀ c ∈ path, s.inBounds c = true) : s.pathCost path ≤ 4294967295 * 4294967295 :=
  pathCost_le_of_length (length_le hf hn hb)

end Slice

/-! ## Routes -/

namespace SearchProblem

variable {p : SearchProblem}

theorem apart_le_of_walk (paid : ∀ c, 0 < p.cellCost c) {u v : Cell} {path : List Cell}
    (w : p.terrain.Walk u v path) :
    u.apart v ≤ p.slice.pathCost path.tail := by
  obtain ⟨-, hch, hu, hv⟩ := Terrain.walk_iff.mp w
  -- a step comes closer by one at most and costs one at least
  have hstep : ∀ {c d : Cell}, c.Adjacent d → c.apart v ≤ (p.slice.cost d).toNat + d.apart v := by
    intro c d hcd
    have hcloser := hcd.symm.apart_le v
    have hpaid : 0 < (p.slice.cost d).toNat := paid d
    rw [v.apart_comm, v.apart_comm] at hcloser
    omega
  have hle := Slice.le_pathCost_tail_add hstep hch hu hv
  rw [Cell.apart_self] at hle
  exact hle

/-- The first cell has its price too. -/
theorem apart_lt_of_walk (paid : ∀ c, 0 < p.cellCost c) {u v : Cell} {path : List Cell}
    (w : p.terrain.Walk u v path) : u.apart v < p.slice.pathCost path := by
  have hrest := apart_le_of_walk paid w
  cases path with
  | nil => exact absurd rfl w.ne_nil
  | cons c path =>
    have hc : 0 < (p.slice.cost c).toNat := paid c
    rw [List.tail_cons] at hrest
    rw [Slice.pathCost_cons]
    omega

theorem isRoute_iff {path : List Cell} : p.IsRoute path ↔ (∀ d ∈ path, p.terrain.Routable d) ∧
    path.IsChain Cell.Adjacent ∧ (∃ a ∈ p.sources, path.head? = some a.cell) ∧
      ∃ b ∈ p.targets, path.getLast? = some b.cell := by
  constructor
  · rintro ⟨a, ha, b, hb, w⟩
    obtain ⟨hr, hch, hc, he⟩ := Terrain.walk_iff.mp w
    exact ⟨hr, hch, ⟨a, ha, hc⟩, b, hb, he⟩
  · rintro ⟨hr, hch, ⟨a, ha, hc⟩, b, hb, he⟩
    exact ⟨a, ha, b, hb, Terrain.walk_iff.mpr ⟨hr, hch, hc, he⟩⟩

theorem IsRoute.ne_nil {path : List Cell} (h : p.IsRoute path) : path ≠ [] := by
  obtain ⟨_, _, _, _, w⟩ := h
  exact w.ne_nil

theorem IsRoute.routable {path : List Cell} (h : p.IsRoute path) : ∀ c ∈ path, p.terrain.Routable c :=
  (isRoute_iff.mp h).1

/-- A route may as well start at any source entry that it passes. -/
theorem IsRoute.suffix {path path' : List Cell} (h : p.IsRoute (path ++ path')) {a : EntryPoint}
    (ha : a ∈ p.sources) (hc : path'.head? = some a.cell) : p.IsRoute path' := by
  obtain ⟨hr, hch, -, b, hb, he⟩ := isRoute_iff.mp h
  refine isRoute_iff.mpr ⟨fun d hd => hr d (List.mem_append_right _ hd), hch.right_of_append, ⟨a, ha, hc⟩, b, hb, ?_⟩
  cases path' with
  | nil => cases hc
  | cons d path' => rw [← he, List.getLast?_append_of_ne_nil _ (by simp)]

theorem IsRoute.initial {path path' : List Cell} (h : p.IsRoute (path ++ path')) {b : EntryPoint}
    (hb : b ∈ p.targets) (hc : path.getLast? = some b.cell) : p.IsRoute path := by
  obtain ⟨hr, hch, ⟨a, ha, he⟩, -⟩ := isRoute_iff.mp h
  refine isRoute_iff.mpr ⟨fun d hd => hr d (List.mem_append_left _ hd), hch.left_of_append, ⟨a, ha, ?_⟩, b, hb, hc⟩
  cases path with
  | nil => cases hc
  | cons d path => exact he

/-- A route may as well leave out what it does between two visits to a cell. -/
theorem IsRoute.shortcut {path path' path'' : List Cell} {c : Cell}
    (h : p.IsRoute (path ++ c :: path' ++ c :: path'')) : p.IsRoute (path ++ c :: path'') := by
  obtain ⟨hr, hch, ⟨a, ha, hs⟩, b, hb, he⟩ := isRoute_iff.mp h
  rw [List.append_assoc, List.cons_append, List.isChain_split] at hch
  refine isRoute_iff.mpr ⟨fun d hd => hr d ?_, List.isChain_split.mpr ⟨hch.1, ?_⟩, ⟨a, ha, ?_⟩, b, hb, ?_⟩
  · simp only [List.mem_append, List.mem_cons] at hd ⊢
    rcases hd with hd | hd | hd
    · exact .inl (.inl hd)
    · exact .inr (.inl hd)
    · exact .inr (.inr hd)
  · have hback := hch.2
    rw [← List.cons_append, List.isChain_split] at hback
    exact hback.2
  · rw [← hs]
    cases path <;> rfl
  · rw [← he, List.getLast?_append_of_ne_nil _ (by simp), List.getLast?_append_of_ne_nil _ (by simp)]

/-! ## Cheapest routes -/

private theorem exists_twice {α : Type} : ∀ {l : List α}, ¬ l.Nodup →
    ∃ (x : α) (l₁ l₂ l₃ : List α), l = l₁ ++ x :: l₂ ++ x :: l₃
  | [], h => absurd List.nodup_nil h
  | a :: l, h => by
    by_cases ha : a ∈ l
    · obtain ⟨l₂, l₃, rfl⟩ := List.append_of_mem ha
      exact ⟨a, [], l₂, l₃, rfl⟩
    · obtain ⟨x, l₁, l₂, l₃, rfl⟩ := exists_twice fun hn => h (List.nodup_cons.mpr ⟨ha, hn⟩)
      exact ⟨x, a :: l₁, l₂, l₃, rfl⟩

theorem IsCheapest.nodup (paid : ∀ c, 0 < p.cellCost c) {path : List Cell} (h : p.IsCheapest path) :
    path.Nodup := by
  by_contra hn
  obtain ⟨x, l₁, l₂, l₃, rfl⟩ := exists_twice hn
  have hle := h.2 _ h.1.shortcut
  have hx : 0 < (p.slice.cost x).toNat := paid x
  simp only [Slice.pathCost_append, Slice.pathCost_cons] at hle
  omega

theorem IsCheapest.source_first (paid : ∀ c, 0 < p.cellCost c) {c : Cell} {path : List Cell}
    (h : p.IsCheapest (c :: path)) {a : EntryPoint} (ha : a ∈ p.sources) : a.cell ∉ path := by
  intro hm
  obtain ⟨l₁, l₂, rfl⟩ := List.append_of_mem hm
  have hroute : p.IsRoute (c :: l₁ ++ a.cell :: l₂) := h.1
  have hle := h.2 _ (hroute.suffix ha rfl)
  have hc : 0 < (p.slice.cost c).toNat := paid c
  simp only [Slice.pathCost_append, Slice.pathCost_cons] at hle
  omega

theorem IsCheapest.target_last (paid : ∀ c, 0 < p.cellCost c) {c : Cell} {path : List Cell}
    (h : p.IsCheapest (path ++ [c])) {b : EntryPoint} (hb : b ∈ p.targets) : b.cell ∉ path := by
  intro hm
  obtain ⟨l₁, l₂, rfl⟩ := List.append_of_mem hm
  have hsplit : l₁ ++ b.cell :: l₂ ++ [c] = (l₁ ++ [b.cell]) ++ (l₂ ++ [c]) := by simp
  have hle := h.2 _ ((hsplit ▸ h.1).initial hb (List.getLast?_concat ..))
  have hc : 0 < (p.slice.cost c).toNat := paid c
  rw [hsplit, Slice.pathCost_append (l₁ ++ [b.cell]), Slice.pathCost_append l₂, Slice.pathCost_cons] at hle
  omega

end SearchProblem

end AncillaRouting
