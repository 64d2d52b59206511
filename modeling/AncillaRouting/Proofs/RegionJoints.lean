import AncillaRouting.Proofs.DirectRoutes

/-!
# How the cells of a region are joined

Cells that follow each other in a region are joined on opposite sides, whatever the shape of the path and however
often it comes back to a cell, and the first and the last cell are joined to the patches of the anchors. A path
that has a region needs no more than to lead from one anchor to the other, one step at a time.
-/

namespace AncillaRouting

open Outcome

/-- `x` is left across the side on which `y` lies, and `y` is entered across the opposite side. -/
def RoutingCell.Joined (x y : RoutingCell) : Prop :=
  ∃ side, x.connections[1]? = some side ∧ x.cell.neighbour side = .ok y.cell ∧
    y.connections[0]? = some side.opposite

namespace RoutingRegion

variable {path : List Cell} {source target : FaceAnchor} {r : RoutingRegion}

/-- Every cell is entered across its first connection and left across its second, on the way from the patch cell of
the source to the patch cell of the target. -/
structure Joined (r : RoutingRegion) : Prop where
  two : ∀ x ∈ r.cells, x.connections.length = 2
  source : ∃ x side, r.cells.head? = some x ∧ x.connections[0]? = some side ∧ x.cell.neighbour side = .ok r.source.cell
  onward : r.cells.IsChain RoutingCell.Joined
  target : ∃ x side, r.cells.getLast? = some x ∧ x.connections[1]? = some side ∧
    x.cell.neighbour side = .ok r.target.cell

/-! ## Joining cells -/

section
variable {entrance exit : Side} {c : Cell} {cells : List RoutingCell}

/-- The same of the cells behind one that has already been joined on side `entrance`. -/
structure Chained (entrance exit : Side) (path : List Cell) (cells : List RoutingCell) : Prop where
  path_eq : cells.map (·.cell) = path
  two : ∀ x ∈ cells, x.connections.length = 2
  first : ∃ x, cells.head? = some x ∧ x.connections[0]? = some entrance
  onward : cells.IsChain RoutingCell.Joined
  last : ∃ x, cells.getLast? = some x ∧ x.connections[1]? = some exit

theorem Chained.adjacent (h : Chained entrance exit path cells) : path.IsChain Cell.Adjacent := by
  rw [← h.path_eq, List.isChain_map]
  apply h.onward.imp
  intro x y hxy
  obtain ⟨side, -, hn, -⟩ := hxy
  exact ⟨side, hn⟩

theorem chained_single (entrance exit : Side) (c : Cell) : Chained entrance exit [c] [⟨c, [entrance, exit]⟩] where
  path_eq := rfl
  two x hx := by cases List.mem_singleton.mp hx; rfl
  first := ⟨_, rfl, rfl⟩
  onward := .singleton _
  last := ⟨_, rfl, rfl⟩

theorem Chained.cons {d : Cell} {forth : Side} (h : Chained forth.opposite exit (d :: path) cells)
    (hn : c.neighbour forth = .ok d) : Chained entrance exit (c :: d :: path) (⟨c, [entrance, forth]⟩ :: cells) := by
  cases cells with
  | nil => cases h.path_eq
  | cons y cells =>
    obtain ⟨x, hx, hfirst⟩ := h.first
    cases hx
    have hd : y.cell = d := (List.cons.inj h.path_eq).1
    constructor
    · rw [List.map_cons, h.path_eq]
    · exact List.forall_mem_cons.mpr ⟨rfl, h.two⟩
    · exact ⟨_, rfl, rfl⟩
    · exact .cons_cons ⟨forth, rfl, hd.symm ▸ hn, hfirst⟩ h.onward
    · obtain ⟨z, hz, hlast⟩ := h.last
      exact ⟨z, by rw [List.getLast?_cons_cons, hz], hlast⟩

theorem joinFrom_chained (h : joinFrom entrance exit c path = .ok (some cells)) :
    Chained entrance exit (c :: path) cells := by
  induction path generalizing c entrance cells with
  | nil =>
    cases h
    exact chained_single entrance exit c
  | cons d path ih =>
    rw [joinFrom] at h
    obtain ⟨forth, hf, h⟩ := bind_eq_ok.mp h
    cases forth with
    | none => cases h
    | some forth =>
      obtain ⟨back, hb, h⟩ := bind_eq_ok.mp h
      cases back with
      | none => cases h
      | some back =>
        obtain ⟨rest, hr, h⟩ := bind_eq_ok.mp h
        cases rest with
        | none => cases h
        | some rest =>
          cases h
          -- the way back is across the opposite side, on which the rest of the path is entered
          cases Cell.opposite_of_sideTowards hf hb
          exact (ih hr).cons (Cell.neighbour_of_sideTowards hf)

theorem joinFrom_total (hi : ∀ d ∈ c :: path, d.Inner) : ∃ found, joinFrom entrance exit c path = .ok found := by
  induction path generalizing c entrance with
  | nil => exact ⟨_, rfl⟩
  | cons d path ih =>
    rw [List.forall_mem_cons] at hi
    rw [joinFrom]
    apply bind_total (hi.1.sideTowards_total d)
    intro forth
    cases forth with
    | none => exact ⟨none, rfl⟩
    | some forth =>
      apply bind_total ((hi.2 d (List.mem_cons_self ..)).sideTowards_total c)
      intro back
      cases back with
      | none => exact ⟨none, rfl⟩
      | some back =>
        apply bind_total (ih hi.2)
        intro found
        cases found with
        | none => exact ⟨none, rfl⟩
        | some cells => exact ⟨_, rfl⟩

end

/-! ## Regions -/

theorem of_ofPath (h : ofPath path source target = .ok (some r)) :
    r.source = source ∧ r.target = target ∧ r.path = path ∧ r.Joined := by
  obtain ⟨first, rest, last, cells, rfl, hs, hlast, ht, hj, rfl⟩ := of_ofPath_eq_some h
  have hc := joinFrom_chained hj
  refine ⟨rfl, rfl, hc.path_eq, hc.two, ?_, hc.onward, ?_⟩
  · obtain ⟨x, hx, hx'⟩ := hc.first
    have hfirst := congrArg List.head? hc.path_eq
    rw [List.head?_map, hx] at hfirst
    cases hfirst
    exact ⟨x, _, hx, hx', Cell.neighbour_opposite.mp hs⟩
  · obtain ⟨x, hx, hx'⟩ := hc.last
    rw [← hc.path_eq, List.getLast?_map, hx] at hlast
    cases hlast
    exact ⟨x, _, hx, hx', Cell.neighbour_opposite.mp ht⟩

theorem ofPath_total (hi : ∀ c ∈ path, c.Inner) (hs : source.cell.Inner) (ht : target.cell.Inner) :
    ∃ found, ofPath path source target = .ok found := by
  unfold ofPath
  cases path with
  | nil => exact ⟨none, rfl⟩
  | cons first rest =>
    apply bind_total (hs.neighbour source.side)
    intro c
    by_cases hc : (first != c) = true
    · exact ⟨none, if_pos hc⟩
    · rw [if_neg hc]
      apply bind_total (ht.neighbour target.side)
      intro e
      by_cases he : ((first :: rest).getLast (by simp) != e) = true
      · exact ⟨none, if_pos he⟩
      · rw [if_neg he]
        apply bind_total (joinFrom_total hi)
        intro cells
        cases cells with
        | none => exact ⟨none, rfl⟩
        | some cells => exact ⟨_, rfl⟩

/-- Along cells that are not at the end of the range of coordinates there is a region if and only if the path
starts across the source face, ends across the target face and takes one step at a time. It has the path and the
faces, and its cells are joined. -/
theorem region_iff_path (hi : ∀ c ∈ path, c.Inner) (hs : source.cell.Inner) (ht : target.cell.Inner) :
    ∃ found, ofPath path source target = .ok found ∧
      ((∃ r, found = some r) ↔ path ≠ [] ∧ (∃ c, path.head? = some c ∧ source.entry = .ok c) ∧
        (∃ c, path.getLast? = some c ∧ target.entry = .ok c) ∧ path.IsChain Cell.Adjacent) ∧
      ∀ r, found = some r → r.source = source ∧ r.target = target ∧ r.path = path ∧ r.Joined := by
  obtain ⟨found, hfound⟩ := ofPath_total hi hs ht
  refine ⟨found, hfound, ⟨fun ⟨r, hr⟩ => ?_, fun ⟨_, ⟨c, hc, hsrc⟩, ⟨e, he, htgt⟩, hch⟩ => ?_⟩, fun r hr => ?_⟩
  · rw [hr] at hfound
    obtain ⟨first, rest, last, cells, rfl, hsrc, hlast, htgt, hj, -⟩ := of_ofPath_eq_some hfound
    exact ⟨List.cons_ne_nil _ _, ⟨first, rfl, hsrc⟩, ⟨last, hlast, htgt⟩, (joinFrom_chained hj).adjacent⟩
  · obtain ⟨r, hr, -⟩ := ofPath_eq_ok hi hch hc he hsrc htgt
    rw [hfound] at hr
    exact ⟨r, Except.ok.inj hr⟩
  · rw [hr] at hfound
    exact of_ofPath hfound

/-- A path that turns and comes back to a cell. -/
theorem region_iff_path_turning : ∃ r,
    ofPath [⟨0, 1⟩, ⟨1, 1⟩, ⟨0, 1⟩, ⟨0, 2⟩] ⟨⟨0⟩, .z, ⟨0, 0⟩, .right⟩ ⟨⟨1⟩, .x, ⟨1, 2⟩, .top⟩ = .ok (some r) ∧
      r.path = [⟨0, 1⟩, ⟨1, 1⟩, ⟨0, 1⟩, ⟨0, 2⟩] ∧ r.Joined := by
  have inner : ∀ c ∈ [(⟨0, 0⟩ : Cell), ⟨1, 2⟩, ⟨0, 1⟩, ⟨1, 1⟩, ⟨0, 2⟩], c.Inner := by
    intro c hc
    simp only [List.mem_cons, List.not_mem_nil, or_false] at hc
    rcases hc with rfl | rfl | rfl | rfl | rfl <;> constructor <;> decide
  have hi : ∀ c ∈ [(⟨0, 1⟩ : Cell), ⟨1, 1⟩, ⟨0, 1⟩, ⟨0, 2⟩], c.Inner := fun c hc =>
    inner c (List.subset_def.mp (by decide) hc)
  have hsrc : (⟨⟨0⟩, .z, ⟨0, 0⟩, .right⟩ : FaceAnchor).cell.Inner := inner _ (by decide)
  have htgt : (⟨⟨1⟩, .x, ⟨1, 2⟩, .top⟩ : FaceAnchor).cell.Inner := inner _ (by decide)
  obtain ⟨found, hfound, hiff, hr⟩ := region_iff_path hi hsrc htgt
  have hch : [(⟨0, 1⟩ : Cell), ⟨1, 1⟩, ⟨0, 1⟩, ⟨0, 2⟩].IsChain Cell.Adjacent :=
    .cons_cons ⟨.bottom, rfl⟩ (.cons_cons ⟨.top, rfl⟩ (.cons_cons ⟨.right, rfl⟩ (.singleton _)))
  obtain ⟨r, rfl⟩ := hiff.mpr ⟨List.cons_ne_nil _ _, ⟨_, rfl, rfl⟩, ⟨_, rfl, rfl⟩, hch⟩
  obtain ⟨-, -, hpath, hj⟩ := hr r rfl
  exact ⟨r, hfound, hpath, hj⟩

end RoutingRegion

/-- The cells of a region that is searched for are joined, whatever the size of the slice. -/
theorem DirectRouter.MayAnswer.joined {d : DirectRouter} {s : Slice} {q : RouteQuery} {region : RoutingRegion}
    (h : d.MayAnswer s q (.ok (some region))) : region.Joined := by
  obtain ⟨p, found, -, hc⟩ := h.concludes
  obtain ⟨path, -, a, -, b, -, hr⟩ := SearchProblem.of_conclude_eq_some hc
  exact (RoutingRegion.of_ofPath hr).2.2.2

end AncillaRouting
