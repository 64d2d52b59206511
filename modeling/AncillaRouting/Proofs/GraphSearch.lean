import AncillaRouting.Proofs.CellListing
import AncillaRouting.Proofs.GridSearch
import AncillaRouting.Search.CellGraph
import Mathlib.Data.List.Nodup
import Mathlib.Data.List.ProdSigma

/-!
# The explicit graph

On slices whose sizes fit, a problem has a graph exactly if the nodes and the edges can be numbered. For a
problem without clearance the graph says what the grid says: its walks between the terminals are the
routes, and weigh what the routes cost. So the search over the graph finds a cheapest route if there is a
route, and otherwise reports that there is none.
-/

namespace AncillaRouting

open Outcome

/-- A graph ran out of numbers for its nodes or its edges. -/
def Fault.IsLimit (f : Fault) : Prop := f = .nodeLimit ∨ f = .edgeLimit

namespace Digraph

variable {ν : Type} [BEq ν] [Hashable ν] {g : Digraph ν}

/-- The list holds the nodes of a walk, both ends included, and its weight is the sum over its edges. -/
inductive Walk (g : Digraph ν) : ν → ν → List ν → Nat → Prop where
  | single {v : ν} : Walk g v v [v] 0
  | cons {u v x : ν} {nodes : List ν} {k w : Nat} (e : (v, w) ∈ g.edgesFrom u) (t : Walk g v x nodes k) :
      Walk g u x (u :: nodes) (w + k)

/-- A right answer to the question for a lightest walk: one, or nothing if there is no walk. -/
def Lightest (g : Digraph ν) (u v : ν) : Option (List ν) → Prop
  | some nodes => ∃ k, g.Walk u v nodes k ∧ ∀ others j, g.Walk u v others j → k ≤ j
  | none => ∀ nodes k, ¬ g.Walk u v nodes k

theorem Walk.snoc {u v x : ν} {nodes : List ν} {k w : Nat} (t : g.Walk u v nodes k)
    (e : (x, w) ∈ g.edgesFrom v) : g.Walk u x (nodes ++ [x]) (k + w) := by
  induction t with
  | single => rw [Nat.zero_add]; exact .cons e .single
  | cons e' _ ih => rw [Nat.add_assoc]; exact .cons e' (ih e)

/-! ## Adding nodes and edges -/

theorem addNode_eq_ok {v : ν} {g' : Digraph ν} : g.addNode v = .ok g' ↔ g.order < capacity ∧ g' = g.withNode v := by
  unfold addNode
  split <;> simp_all [eq_comm]

theorem addEdge_eq_ok {v w : ν} {k : Nat} {g' : Digraph ν} :
    g.addEdge v w k = .ok g' ↔ g.size < capacity ∧ g' = g.withEdge v w k := by
  unfold addEdge
  split <;> simp_all [eq_comm]

theorem of_addNode_eq_error {v : ν} {f : Fault} (h : g.addNode v = .error f) : f.IsLimit := by
  unfold addNode at h
  split at h
  · cases h
  · exact .inl (Except.error.inj h).symm

theorem of_addEdge_eq_error {v w : ν} {k : Nat} {f : Fault} (h : g.addEdge v w k = .error f) : f.IsLimit := by
  unfold addEdge at h
  split at h
  · cases h
  · exact .inr (Except.error.inj h).symm

section

variable {α : Type} {tail head : α → ν} {weight : α → Nat}

def withEdges (g : Digraph ν) (tail head : α → ν) (weight : α → Nat) (l : List α) : Digraph ν :=
  l.foldl (fun g a => g.withEdge (tail a) (head a) (weight a)) g

theorem size_withEdges : ∀ {l : List α} {g : Digraph ν}, (g.withEdges tail head weight l).size = g.size + l.length
  | [], g => rfl
  | a :: l, g => by
    rw [withEdges, List.foldl_cons, ← withEdges, size_withEdges, List.length_cons]
    show g.size + 1 + l.length = _
    omega

/-- Edges are added all together if there is room for them, and otherwise not. -/
theorem addEdges_eq_ok : ∀ {l : List α} {g g' : Digraph ν}, g.size ≤ capacity →
    (l.foldlM (fun g a => g.addEdge (tail a) (head a) (weight a)) g = .ok g' ↔
      g.size + l.length ≤ capacity ∧ g' = g.withEdges tail head weight l)
  | [], g, g', hg => ⟨fun h => ⟨hg, (Except.ok.inj h).symm⟩, fun ⟨_, h⟩ => congrArg Except.ok h.symm⟩
  | a :: l, g, g', hg => by
    rw [List.foldlM_cons, bind_eq_ok, List.length_cons]
    constructor
    · rintro ⟨_, h, hl⟩
      obtain ⟨hlt, rfl⟩ := addEdge_eq_ok.mp h
      obtain ⟨hle, rfl⟩ := (addEdges_eq_ok (g := g.withEdge (tail a) (head a) (weight a)) hlt).mp hl
      exact ⟨by rw [← Nat.add_assoc, Nat.add_right_comm]; exact hle, rfl⟩
    · rintro ⟨hle, rfl⟩
      have hlt : g.size < capacity := by omega
      refine ⟨_, addEdge_eq_ok.mpr ⟨hlt, rfl⟩,
        (addEdges_eq_ok (g := g.withEdge (tail a) (head a) (weight a)) hlt).mpr ⟨?_, rfl⟩⟩
      show g.size + 1 + l.length ≤ capacity
      omega

variable [LawfulBEq ν] [LawfulHashable ν]

theorem mem_edgesFrom_withEdge {u v x : ν} {k : Nat} {e : ν × Nat} :
    e ∈ (g.withEdge u x k).edgesFrom v ↔ e ∈ g.edgesFrom v ∨ (v = u ∧ e = (x, k)) := by
  rw [edgesFrom_withEdge]
  by_cases h : u = v
  · subst h; simp [or_comm]
  · simp [h, Ne.symm h]

theorem mem_edgesFrom_withEdges {e : ν × Nat} {v : ν} : ∀ {l : List α} {g : Digraph ν},
    e ∈ (g.withEdges tail head weight l).edgesFrom v ↔
      e ∈ g.edgesFrom v ∨ ∃ a ∈ l, v = tail a ∧ e = (head a, weight a)
  | [], g => by simp [withEdges]
  | a :: l, g => by
    rw [withEdges, List.foldl_cons, ← withEdges, mem_edgesFrom_withEdges, mem_edgesFrom_withEdge, or_assoc,
      List.exists_mem_cons_iff]

theorem hasNode_withNode {u v : ν} : (g.withNode u).hasNode v = true ↔ v = u ∨ g.hasNode v = true := by
  rw [withNode, hasNode, hasNode, Std.HashMap.contains_insertIfNew, Bool.or_eq_true, beq_iff_eq, @eq_comm _ u v]

theorem hasNode_withEdge {u v x : ν} {k : Nat} (h : g.hasNode u = true) :
    (g.withEdge u x k).hasNode v = g.hasNode v := by
  simp only [withEdge, hasNode] at h ⊢
  rw [Std.HashMap.contains_insert]
  by_cases huv : u = v
  · rw [← huv, h, Bool.or_true]
  · rw [beq_eq_false_iff_ne.mpr huv, Bool.false_or]

/-- Edges between nodes bring no node. -/
theorem nodes_withEdges : ∀ {l : List α} {g : Digraph ν}, (∀ a ∈ l, g.hasNode (tail a) = true) →
    (g.withEdges tail head weight l).order = g.order ∧ ∀ v, (g.withEdges tail head weight l).hasNode v = g.hasNode v
  | [], g, _ => ⟨rfl, fun _ => rfl⟩
  | a :: l, g, h => by
    obtain ⟨ha, hl⟩ := List.forall_mem_cons.mp h
    have hstep : ∀ v, (g.withEdge (tail a) (head a) (weight a)).hasNode v = g.hasNode v := fun _ => hasNode_withEdge ha
    obtain ⟨horder, hnodes⟩ := nodes_withEdges (l := l) fun b hb => (hstep (tail b)).trans (hl b hb)
    exact ⟨horder.trans (order_withEdge ha _ _), fun v => (hnodes v).trans (hstep v)⟩

def withNodes (g : Digraph ν) (f : α → ν) (l : List α) : Digraph ν := l.foldl (fun g a => g.withNode (f a)) g

theorem hasNode_withNodes {f : α → ν} {v : ν} : ∀ {l : List α} {g : Digraph ν},
    (g.withNodes f l).hasNode v = true ↔ (∃ a ∈ l, v = f a) ∨ g.hasNode v = true
  | [], g => by simp [withNodes]
  | a :: l, g => by
    rw [withNodes, List.foldl_cons, ← withNodes, hasNode_withNodes, hasNode_withNode, List.exists_mem_cons_iff, or_assoc,
      or_left_comm]

theorem edges_withNodes {f : α → ν} : ∀ {l : List α} {g : Digraph ν},
    (g.withNodes f l).size = g.size ∧ ∀ v, (g.withNodes f l).edgesFrom v = g.edgesFrom v
  | [], g => ⟨rfl, fun _ => rfl⟩
  | a :: l, g => by
    obtain ⟨hsize, hedges⟩ := edges_withNodes (f := f) (l := l) (g := g.withNode (f a))
    exact ⟨hsize, fun v => (hedges v).trans (edgesFrom_withNode ..)⟩

/-- The list names nodes that are not there yet, each of them once. -/
structure New (g : Digraph ν) (f : α → ν) (l : List α) : Prop where
  nodup : (l.map f).Nodup
  absent : ∀ a ∈ l, g.hasNode (f a) = false

theorem New.first {f : α → ν} {a : α} {l : List α} (h : g.New f (a :: l)) :
    (g.withNode (f a)).order = g.order + 1 ∧ (g.withNode (f a)).New f l := by
  obtain ⟨ha, hl⟩ := List.nodup_cons.mp (List.map_cons .. ▸ h.nodup)
  obtain ⟨hga, hgl⟩ := List.forall_mem_cons.mp h.absent
  refine ⟨by rw [order_withNode, hga]; rfl, hl, fun b hb => ?_⟩
  rw [Bool.eq_false_iff, Ne, hasNode_withNode, hgl b hb]
  rintro (hba | h)
  · exact ha (List.mem_map.mpr ⟨b, hb, hba⟩)
  · cases h

theorem New.order {f : α → ν} : ∀ {l : List α} {g : Digraph ν}, g.New f l →
    (g.withNodes f l).order = g.order + l.length
  | [], g, _ => rfl
  | a :: l, g, h => by
    obtain ⟨horder, hl⟩ := h.first
    rw [withNodes, List.foldl_cons, ← withNodes, hl.order, horder, List.length_cons]
    omega

/-- So it is with nodes. -/
theorem New.addNodes_eq_ok {f : α → ν} : ∀ {l : List α} {g g' : Digraph ν}, g.New f l → g.order ≤ capacity →
    (l.foldlM (fun g a => g.addNode (f a)) g = .ok g' ↔ g.order + l.length ≤ capacity ∧ g' = g.withNodes f l)
  | [], g, g', _, hg => ⟨fun h => ⟨hg, (Except.ok.inj h).symm⟩, fun ⟨_, h⟩ => congrArg Except.ok h.symm⟩
  | a :: l, g, g', h, hg => by
    obtain ⟨horder, hl⟩ := h.first
    rw [List.foldlM_cons, bind_eq_ok, List.length_cons]
    constructor
    · rintro ⟨_, ha, hadd⟩
      obtain ⟨hlt, rfl⟩ := addNode_eq_ok.mp ha
      obtain ⟨hle, rfl⟩ := (hl.addNodes_eq_ok (by omega)).mp hadd
      exact ⟨by omega, rfl⟩
    · rintro ⟨hle, rfl⟩
      exact ⟨_, addNode_eq_ok.mpr ⟨by omega, rfl⟩, (hl.addNodes_eq_ok (by omega)).mpr ⟨by omega, rfl⟩⟩

end

end Digraph

/-! ## Steps between free cells -/

namespace Slice

variable {s : Slice} {c d : Cell}

/-- The steps from a cell to the free cells around it, each by the cell and the side that it leaves by. -/
def stepsFrom (s : Slice) (c : Cell) : List (Cell × Side) :=
  (Side.all.filter fun side => (c.neighbour side).toOption.any s.isFree).map (c, ·)

/-- The steps from free cells to free cells. -/
def steps (s : Slice) : List (Cell × Side) := s.freeCells.flatMap s.stepsFrom

theorem mem_freeCells (hf : s.Fits) : c ∈ s.freeCells ↔ s.isFree c = true := by
  rw [freeCells, List.mem_filter, mem_cells hf]
  exact and_iff_right_of_imp fun h => (isFree_iff.mp h).1

theorem freeCells_nodup (s : Slice) : s.freeCells.Nodup := (listed_row_by_row s).2.1.filter _

theorem mem_steps (hf : s.Fits) {side : Side} : (c, side) ∈ s.steps ↔
    s.isFree c = true ∧ ∃ d, c.neighbour side = .ok d ∧ s.isFree d = true := by
  have hopen : (c.neighbour side).toOption.any s.isFree = true ↔ ∃ d, c.neighbour side = .ok d ∧ s.isFree d = true := by
    cases c.neighbour side with
    | error f => exact ⟨nofun, nofun⟩
    | ok d => exact ⟨fun h => ⟨d, rfl, h⟩, fun ⟨_, he, h⟩ => by cases he; exact h⟩
  rw [← hopen, ← mem_freeCells hf, steps, List.mem_flatMap]
  constructor
  · rintro ⟨e, he, h⟩
    obtain ⟨t, ht, hpair⟩ := List.mem_map.mp h
    cases hpair
    exact ⟨he, (List.mem_filter.mp ht).2⟩
  · rintro ⟨hc, h⟩
    exact ⟨c, hc, List.mem_map.mpr ⟨side, List.mem_filter.mpr ⟨side.mem_all, h⟩, rfl⟩⟩

/-- The cells of a block with the given corner, each with each of its sides. -/
def block (row col height width : Nat) : List (Cell × Side) :=
  (List.range height ×ˢ (List.range width ×ˢ Side.all)).map fun x => (cellAt (row + x.1) (col + x.2.1), x.2.2)

theorem length_block (row col height width : Nat) : (block row col height width).length = height * (width * 4) := by
  rw [block, List.length_map, List.length_product, List.length_product, List.length_range, List.length_range]
  rfl

theorem cellAt_toInt (row col : Nat) (hr : row ≤ 2147483647) (hc : col ≤ 2147483647) :
    (cellAt row col).row.toInt = row ∧ (cellAt row col).col.toInt = col :=
  ⟨Int32.toInt_ofNat_of_lt (by omega), Int32.toInt_ofNat_of_lt (by omega)⟩

theorem block_nodup {row col height width : Nat} (hr : row + height ≤ 2147483647) (hc : col + width ≤ 2147483647) :
    (block row col height width).Nodup := by
  refine List.Nodup.map_on (fun x hx y hy h => ?_) (List.nodup_range.product (List.nodup_range.product (by decide)))
  have bounds : ∀ {x : Nat × Nat × Side}, x ∈ List.range height ×ˢ (List.range width ×ˢ Side.all) →
      x.1 < height ∧ x.2.1 < width := fun {x} hx => by
    obtain ⟨hi, hx⟩ := List.pair_mem_product.mp hx
    exact ⟨List.mem_range.mp hi, List.mem_range.mp (List.pair_mem_product.mp hx).1⟩
  obtain ⟨hx1, hx2⟩ := bounds hx
  obtain ⟨hy1, hy2⟩ := bounds hy
  obtain ⟨hcell, hside⟩ := Prod.mk.inj h
  obtain ⟨hxr, hxc⟩ := cellAt_toInt (row + x.1) (col + x.2.1) (by omega) (by omega)
  obtain ⟨hyr, hyc⟩ := cellAt_toInt (row + y.1) (col + y.2.1) (by omega) (by omega)
  rw [hcell] at hxr hxc
  exact Prod.ext (by omega) (Prod.ext (by omega) hside)

/-- Where no patch lies on a block or next to it, each of its cells can be left by every side. -/
theorem block_steps_le (hf : s.Fits) {row col height width : Nat} (hrow : 1 ≤ row) (hcol : 1 ≤ col)
    (hrows : row + height < s.rows.toNat) (hcols : col + width < s.cols.toNat)
    (hfree : ∀ c : Cell, row ≤ c.row.toInt + 1 → c.row.toInt ≤ row + height → col ≤ c.col.toInt + 1 →
      c.col.toInt ≤ col + width → s.patchAt c = none) : height * (width * 4) ≤ s.steps.length := by
  have hr := hf.rows_le
  have hc := hf.cols_le
  rw [← length_block row col]
  refine (List.subperm_of_subset (block_nodup (by omega) (by omega)) fun e he => ?_).length_le
  obtain ⟨⟨i, j, side⟩, hx, rfl⟩ := List.mem_map.mp he
  obtain ⟨hi, hx⟩ := List.pair_mem_product.mp hx
  have hi := List.mem_range.mp hi
  have hj := List.mem_range.mp (List.pair_mem_product.mp hx).1
  obtain ⟨h1, h2⟩ := cellAt_toInt (row + i) (col + j) (by omega) (by omega)
  have hin : s.inBounds (cellAt (row + i) (col + j)) = true := inBounds_iff.mpr (by omega)
  have hcell : s.isFree (cellAt (row + i) (col + j)) = true :=
    isFree_iff.mpr ⟨hin, hfree _ (by omega) (by omega) (by omega) (by omega)⟩
  obtain ⟨d, hd⟩ := (hf.inner hin).neighbour side
  have hnext : row ≤ d.row.toInt + 1 ∧ d.row.toInt ≤ row + height ∧ col ≤ d.col.toInt + 1 ∧ d.col.toInt ≤ col + width := by
    have hd := Cell.neighbour_eq_ok.mp hd
    cases side <;> simp only at hd <;> omega
  obtain ⟨n1, n2, n3, n4⟩ := hnext
  exact (mem_steps hf).mpr ⟨hcell, d, hd, isFree_iff.mpr ⟨inBounds_iff.mpr (by omega), hfree d n1 n2 n3 n4⟩⟩

theorem length_steps_le (s : Slice) : s.steps.length ≤ 4 * s.freeCells.length := by
  unfold steps
  induction s.freeCells with
  | nil => exact Nat.le_refl 0
  | cons c l ih =>
    have hc : (s.stepsFrom c).length ≤ 4 := by
      rw [stepsFrom, List.length_map]
      exact List.length_filter_le ..
    rw [List.flatMap_cons, List.length_append, List.length_cons]
    omega

theorem mem_freeNeighbours {ds : List Cell} (h : s.freeNeighbours c = .ok ds) :
    d ∈ ds ↔ c.Adjacent d ∧ s.isFree d = true := by
  obtain ⟨ns, hn, rfl⟩ := map_eq_ok.mp h
  rw [List.mem_filter, Cell.mem_neighbours hn]

theorem length_freeNeighbours {ds : List Cell} (h : s.freeNeighbours c = .ok ds) :
    ds.length = (s.stepsFrom c).length := by
  obtain ⟨ns, hn, rfl⟩ := map_eq_ok.mp h
  have hns : ns = Side.all.map fun side => (c.neighbour side).toOption.getD c :=
    eq_map_of_mapM (fun {side d} hd => by rw [hd]; rfl) hn
  rw [hns, List.filter_map, List.length_map, stepsFrom, List.length_map]
  refine congrArg List.length (List.filter_congr fun side hside => ?_)
  obtain ⟨d, -, hd⟩ := defined_of_mapM hn side hside
  rw [Function.comp_apply, hd]
  rfl

theorem freeNeighbours_total (hf : s.Fits) (hc : s.isFree c = true) : ∃ ds, s.freeNeighbours c = .ok ds := by
  obtain ⟨ns, hn⟩ := (hf.inner (isFree_iff.mp hc).1).neighbours
  exact ⟨_, map_eq_ok.mpr ⟨ns, hn, rfl⟩⟩

end Slice

namespace SearchProblem

open CellNode

/-! ## The edges of the graph -/

/-- What the graph is like while it is built: the free cells are its nodes, and the steps from some of them
have been added. -/
structure Built (s : Slice) (done : List Cell) (g : Digraph CellNode) : Prop where
  nodes : ∀ v, g.hasNode v = true ↔ ∃ c, s.isFree c = true ∧ v = free c
  order : g.order = s.freeCells.length
  edges : ∀ v e, e ∈ g.edgesFrom v ↔ ∃ c ∈ done, v = free c ∧
    ∃ d, c.Adjacent d ∧ s.isFree d = true ∧ e = (free d, (s.cost d).toNat)
  size : g.size = (done.flatMap s.stepsFrom).length
  room : g.size ≤ Digraph.capacity

variable {s : Slice}

theorem new_freeCells (s : Slice) : (Digraph.empty : Digraph CellNode).New free s.freeCells where
  nodup := s.freeCells_nodup.map fun _ _ h => by cases h; rfl
  absent _ _ := by simp [Digraph.hasNode, Digraph.empty]

theorem built_nodes (hf : s.Fits) : Built s [] (Digraph.empty.withNodes free s.freeCells) where
  nodes v := by
    rw [Digraph.hasNode_withNodes]
    simp [Slice.mem_freeCells hf, Digraph.hasNode, Digraph.empty]
  order := by
    rw [(new_freeCells s).order]
    simp [Digraph.order, Digraph.empty]
  edges v e := by
    rw [Digraph.edges_withNodes.2]
    simp [Digraph.edgesFrom, Digraph.empty]
  size := Digraph.edges_withNodes.1
  room := by rw [Digraph.edges_withNodes.1]; exact Nat.zero_le _

/-- A cell's edges are added if there is room for them. -/
theorem Built.addSteps_eq_ok {done : List Cell} {g g' : Digraph CellNode} {c : Cell} {ds : List Cell} (hb : Built s done g)
    (hd : s.freeNeighbours c = .ok ds) : addSteps s g c = .ok g' ↔ g.size + (s.stepsFrom c).length ≤ Digraph.capacity ∧
      g' = g.withEdges (fun _ => free c) free (fun d => (s.cost d).toNat) ds := by
  have hall : ds.filter (fun d => g.hasNode (free d)) = ds :=
    List.filter_eq_self.mpr fun d hm => (hb.nodes _).mpr ⟨d, ((Slice.mem_freeNeighbours hd).mp hm).2, rfl⟩
  rw [addSteps, hd, ← Slice.length_freeNeighbours hd, ← Digraph.addEdges_eq_ok hb.room]
  show (ds.filter fun d => g.hasNode (free d)).foldlM _ g = _ ↔ _
  rw [hall]

theorem Built.addSteps {done : List Cell} {g g' : Digraph CellNode} {c : Cell} (hb : Built s done g)
    (hc : s.isFree c = true) (h : addSteps s g c = .ok g') : Built s (done ++ [c]) g' := by
  obtain ⟨ds, hd, -⟩ := bind_eq_ok.mp h
  obtain ⟨hle, rfl⟩ := (hb.addSteps_eq_ok hd).mp h
  have hnode : g.hasNode (free c) = true := (hb.nodes _).mpr ⟨c, hc, rfl⟩
  obtain ⟨horder, hnodes⟩ : (g.withEdges (fun _ => free c) free (fun d => (s.cost d).toNat) ds).order = g.order ∧ _ :=
    Digraph.nodes_withEdges fun _ _ => hnode
  have hsize : (g.withEdges (fun _ => free c) free (fun d => (s.cost d).toNat) ds).size =
      g.size + (s.stepsFrom c).length := by rw [Digraph.size_withEdges, Slice.length_freeNeighbours hd]
  refine ⟨fun v => by rw [hnodes, hb.nodes], horder.trans hb.order, fun v e => ?_, ?_, by rw [hsize]; exact hle⟩
  · rw [Digraph.mem_edgesFrom_withEdges, hb.edges]
    simp only [Slice.mem_freeNeighbours hd, List.mem_append, List.mem_singleton, or_and_right, exists_or, exists_eq_left]
    refine or_congr_right ⟨fun ⟨d, h, hv, he⟩ => ⟨hv, d, h.1, h.2, he⟩, fun ⟨hv, d, h1, h2, he⟩ => ⟨d, ⟨h1, h2⟩, hv, he⟩⟩
  · rw [hsize, hb.size]
    simp [List.flatMap_append]

theorem built_cellGraph (hf : s.Fits) {g : Digraph CellNode} (h : cellGraph s = .ok g) : Built s s.freeCells g := by
  obtain ⟨nodes, hn, h⟩ := bind_eq_ok.mp h
  obtain ⟨-, rfl⟩ := ((new_freeCells s).addNodes_eq_ok (Nat.zero_le _)).mp hn
  exact foldlM_builds (P := Built s) (fun hc hb h => hb.addSteps ((Slice.mem_freeCells hf).mp hc) h) (built_nodes hf) h

/-- The nodes are added before the first edge, so both have to fit by themselves. -/
theorem cellGraph_total (hf : s.Fits) (hnodes : s.freeCells.length ≤ Digraph.capacity)
    (hsteps : s.steps.length ≤ Digraph.capacity) : ∃ g, cellGraph s = .ok g := by
  have horder : (Digraph.empty : Digraph CellNode).order = 0 := by simp [Digraph.order, Digraph.empty]
  have hadd := ((new_freeCells s).addNodes_eq_ok (Nat.zero_le _)).mpr ⟨by rw [horder]; omega, rfl⟩
  obtain ⟨g, hg⟩ : ∃ g, s.freeCells.foldlM (addSteps s) (Digraph.empty.withNodes free s.freeCells) = .ok g := by
    refine foldlM_total (I := fun todo g => ∃ done, done ++ todo = s.freeCells ∧ Built s done g)
      (fun {c todo g} hpart => ?_) ⟨[], rfl, built_nodes hf⟩
    obtain ⟨done, hd, hb⟩ := hpart
    have hc : s.isFree c = true := (Slice.mem_freeCells hf).mp (hd ▸ List.mem_append_right _ (List.mem_cons_self ..))
    obtain ⟨ds, hds⟩ := Slice.freeNeighbours_total hf hc
    have hroom : g.size + (s.stepsFrom c).length ≤ Digraph.capacity := by
      refine Nat.le_trans ?_ hsteps
      rw [hb.size, Slice.steps, ← hd]
      simp only [List.flatMap_append, List.flatMap_cons, List.length_append]
      omega
    have hok := (hb.addSteps_eq_ok hds).mpr ⟨hroom, rfl⟩
    exact ⟨_, hok, done ++ [c], by rw [List.append_assoc]; exact hd, hb.addSteps hc hok⟩
  exact ⟨g, bind_eq_ok.mpr ⟨_, hadd, hg⟩⟩

variable {p : SearchProblem} {g : Digraph CellNode}

/-- The steps that a route can take, from before its first cell to after its last. -/
inductive Link (p : SearchProblem) : CellNode → CellNode → Nat → Prop where
  | enter {a : EntryPoint} (ha : a ∈ p.sources) : Link p source (free a.cell) (p.cellCost a.cell)
  | step {c d : Cell} (hc : p.terrain.Routable c) (hcd : c.Adjacent d) (hd : p.terrain.Routable d) :
      Link p (free c) (free d) (p.cellCost d)
  | leave {b : EntryPoint} (hb : b ∈ p.targets) : Link p (free b.cell) target 0

/-- The nodes and the edges of the graph can be numbered. -/
structure GraphFits (p : SearchProblem) : Prop where
  nodes : p.slice.freeCells.length + 2 ≤ Digraph.capacity
  edges : p.slice.steps.length + p.sources.length + p.targets.length ≤ Digraph.capacity

/-- The graph of the cells with the terminals and their edges. -/
def withTerminals (p : SearchProblem) (g : Digraph CellNode) : Digraph CellNode :=
  (((g.withNode source).withNode target).withEdges (fun _ => source) (fun e => free e.cell)
    (fun e => p.cellCost e.cell) p.sources).withEdges (fun e => free e.cell) (fun _ => target) (fun _ => 0) p.targets

theorem Built.addTerminals_eq_ok {cells : Digraph CellNode} (hp : p.WellPosed)
    (hb : Built p.slice p.slice.freeCells cells) {found : Option (Digraph CellNode)} :
    p.addTerminals cells = .ok found ↔ p.GraphFits ∧ found = some (p.withTerminals cells) := by
  have hsource : (cells.withNode source).order = p.slice.freeCells.length + 1 := by
    rw [Digraph.order_withNode, if_neg, hb.order]
    rw [hb.nodes]
    rintro ⟨c, -, h⟩
    cases h
  have hall : (p.sources ++ p.targets).all
      (fun e => ((cells.withNode source).withNode target).hasNode (free e.cell)) = true := by
    refine List.all_eq_true.mpr fun e he => ?_
    rw [Digraph.hasNode_withNode, Digraph.hasNode_withNode, hb.nodes]
    rcases List.mem_append.mp he with he | he
    · exact .inr (.inr ⟨_, (hp.sources_routable e he).isFree, rfl⟩)
    · exact .inr (.inr ⟨_, (hp.targets_routable e he).isFree, rfl⟩)
  have hsize : ((cells.withNode source).withNode target).size = p.slice.steps.length := hb.size
  have hroom := hsize ▸ hb.room
  unfold addTerminals
  constructor
  · intro h
    obtain ⟨_, h1, h⟩ := bind_eq_ok.mp h
    obtain ⟨-, rfl⟩ := Digraph.addNode_eq_ok.mp h1
    obtain ⟨_, h2, h⟩ := bind_eq_ok.mp h
    obtain ⟨hnodes, rfl⟩ := Digraph.addNode_eq_ok.mp h2
    rw [if_pos hall] at h
    obtain ⟨_, h3, h⟩ := bind_eq_ok.mp h
    obtain ⟨hsrc, rfl⟩ := (Digraph.addEdges_eq_ok (hsize ▸ hroom)).mp h3
    obtain ⟨_, h4, h⟩ := bind_eq_ok.mp h
    obtain ⟨htgt, rfl⟩ := (Digraph.addEdges_eq_ok (by rw [Digraph.size_withEdges]; exact hsrc)).mp h4
    rw [Digraph.size_withEdges, hsize] at htgt
    cases h
    exact ⟨⟨by omega, htgt⟩, rfl⟩
  · rintro ⟨⟨hnodes, hedges⟩, rfl⟩
    refine bind_eq_ok.mpr ⟨_, Digraph.addNode_eq_ok.mpr ⟨by have := hb.order; omega, rfl⟩, ?_⟩
    refine bind_eq_ok.mpr ⟨_, Digraph.addNode_eq_ok.mpr ⟨by omega, rfl⟩, ?_⟩
    rw [if_pos hall]
    refine bind_eq_ok.mpr ⟨_, (Digraph.addEdges_eq_ok (by omega)).mpr ⟨by omega, rfl⟩, ?_⟩
    refine bind_eq_ok.mpr ⟨_, (Digraph.addEdges_eq_ok ?_).mpr ⟨?_, rfl⟩, rfl⟩
    · rw [Digraph.size_withEdges]; omega
    · rw [Digraph.size_withEdges]; omega

/-- A well-posed problem has a graph exactly if the graph fits. -/
theorem graph?_eq_ok (hp : p.WellPosed) {found : Option (Digraph CellNode)} : p.graph? = .ok found ↔
    p.GraphFits ∧ ∃ cells, cellGraph p.slice = .ok cells ∧ found = some (p.withTerminals cells) := by
  constructor
  · intro h
    obtain ⟨cells, hc, h⟩ := bind_eq_ok.mp h
    obtain ⟨hfits, rfl⟩ := ((built_cellGraph hp.fits hc).addTerminals_eq_ok hp).mp h
    exact ⟨hfits, cells, hc, rfl⟩
  · rintro ⟨hfits, cells, hc, rfl⟩
    exact bind_eq_ok.mpr ⟨cells, hc, ((built_cellGraph hp.fits hc).addTerminals_eq_ok hp).mpr ⟨hfits, rfl⟩⟩

theorem graph?_total (hp : p.WellPosed) (hg : p.GraphFits) : ∃ g, p.graph? = .ok (some g) := by
  obtain ⟨g, h⟩ := cellGraph_total hp.fits (by have := hg.nodes; omega) (by have := hg.edges; omega)
  exact ⟨_, (graph?_eq_ok hp).mpr ⟨hg, g, h, rfl⟩⟩

theorem isLimit_of_cellGraph (hf : s.Fits) {f : Fault} (h : cellGraph s = .error f) : f.IsLimit := by
  rcases bind_eq_error.mp h with h | ⟨nodes, -, h⟩
  · obtain ⟨_, -, _, h⟩ := of_foldlM_eq_error h
    exact Digraph.of_addNode_eq_error h
  · obtain ⟨c, hc, g, h⟩ := of_foldlM_eq_error h
    obtain ⟨ds, hd⟩ := Slice.freeNeighbours_total hf ((Slice.mem_freeCells hf).mp hc)
    rcases bind_eq_error.mp h with h | ⟨_, -, h⟩
    · rw [hd] at h; cases h
    · obtain ⟨_, -, _, h⟩ := of_foldlM_eq_error h
      exact Digraph.of_addEdge_eq_error h

theorem isLimit_of_addTerminals {f : Fault} (h : p.addTerminals g = .error f) : f.IsLimit := by
  rcases bind_eq_error.mp h with h | ⟨g, -, h⟩
  · exact Digraph.of_addNode_eq_error h
  rcases bind_eq_error.mp h with h | ⟨g, -, h⟩
  · exact Digraph.of_addNode_eq_error h
  split at h
  · rcases bind_eq_error.mp h with h | ⟨g, -, h⟩
    · obtain ⟨_, -, _, h⟩ := of_foldlM_eq_error h
      exact Digraph.of_addEdge_eq_error h
    · rcases bind_eq_error.mp h with h | ⟨_, -, h⟩
      · obtain ⟨_, -, _, h⟩ := of_foldlM_eq_error h
        exact Digraph.of_addEdge_eq_error h
      · cases h
  · cases h

/-- Where the graph does not fit, it is given up at the limit that is met first. -/
theorem graph?_overfilled (hp : p.WellPosed) (hg : ¬ p.GraphFits) : ∃ f, f.IsLimit ∧ p.graph? = .error f := by
  cases h : p.graph? with
  | ok found => exact absurd ((graph?_eq_ok hp).mp h).1 hg
  | error f =>
    refine ⟨f, ?_, rfl⟩
    rcases bind_eq_error.mp h with h | ⟨cells, -, h⟩
    · exact isLimit_of_cellGraph hp.fits h
    · exact isLimit_of_addTerminals h

/-- On a grid of moderate size the graph fits, however the patches lie. -/
theorem graphFits_of_small (hp : p.WellPosed) (h : p.slice.rows.toNat * p.slice.cols.toNat ≤ 715827882) :
    p.GraphFits := by
  have hcells : p.slice.freeCells.length ≤ 715827882 := by
    rw [← Slice.length_cells hp.fits] at h
    exact Nat.le_trans (List.length_filter_le ..) h
  have hentries : ∀ {es : List EntryPoint}, (es.map (·.cell)).Nodup → (∀ e ∈ es, p.terrain.Routable e.cell) →
      es.length ≤ p.slice.freeCells.length := fun {es} hn hr => by
    rw [← List.length_map (·.cell)]
    refine (List.subperm_of_subset hn fun c hc => ?_).length_le
    obtain ⟨e, he, rfl⟩ := List.mem_map.mp hc
    exact (Slice.mem_freeCells hp.fits).mpr (hr e he).isFree
  have hsrc := hentries hp.sources_distinct hp.sources_routable
  have htgt := hentries hp.targets_distinct hp.targets_routable
  have hsteps := p.slice.length_steps_le
  constructor <;> unfold Digraph.capacity <;> omega

theorem graph?_edges (hp : p.WellPosed) (ht : p.terrain.clearance = false) (h : p.graph? = .ok (some g))
    {u v : CellNode} {w : Nat} : (v, w) ∈ g.edgesFrom u ↔ p.Link u v w := by
  obtain ⟨-, cells, hc, h⟩ := (graph?_eq_ok hp).mp h
  cases h
  rw [withTerminals, Digraph.mem_edgesFrom_withEdges, Digraph.mem_edgesFrom_withEdges, Digraph.edgesFrom_withNode,
    Digraph.edgesFrom_withNode, (built_cellGraph hp.fits hc).edges]
  constructor
  · rintro ((⟨c, hc, rfl, d, hcd, hd, e⟩ | ⟨a, ha, rfl, e⟩) | ⟨b, hb, rfl, e⟩)
    · cases e
      exact .step ((Terrain.routable_iff_isFree ht).mpr ((Slice.mem_freeCells hp.fits).mp hc)) hcd
        ((Terrain.routable_iff_isFree ht).mpr hd)
    · cases e; exact .enter ha
    · cases e; exact .leave hb
  · rintro (ha | ⟨hc, hcd, hd⟩ | hb)
    · exact .inl (.inr ⟨_, ha, rfl, rfl⟩)
    · exact .inl (.inl ⟨_, (Slice.mem_freeCells hp.fits).mpr hc.isFree, rfl, _, hcd, hd.isFree, rfl⟩)
    · exact .inr ⟨_, hb, rfl, rfl⟩

/-! ## Walks between the terminals -/

theorem Link.source_left {v : CellNode} {w : Nat} (l : p.Link source v w) :
    ∃ a ∈ p.sources, v = free a.cell ∧ w = p.cellCost a.cell := by
  cases l with
  | enter ha => exact ⟨_, ha, rfl, rfl⟩

theorem cells_of_nodes (path : List Cell) : (source :: path.map free ++ [target]).filterMap cell? = path := by
  rw [List.cons_append, List.filterMap_cons_none rfl, List.filterMap_append, List.filterMap_map,
    show cell? ∘ free = some from rfl, List.filterMap_some]
  exact List.append_nil path

theorem not_link_target {v : CellNode} {w : Nat} : ¬ p.Link target v w := nofun

section

variable (hp : p.WellPosed) (hedges : ∀ {u v w}, (v, w) ∈ g.edgesFrom u ↔ p.Link u v w)
include hedges

/-- A walk from a cell to the target terminal is a walk to a target entry and one free step more; its
weight leaves out the first cell. -/
theorem walk_of_graph {u : CellNode} {nodes : List CellNode} {k : Nat} (t : g.Walk u target nodes k) :
    ∀ {c}, u = free c → p.terrain.Routable c → ∃ b ∈ p.targets, ∃ path, p.terrain.Walk c b.cell path ∧
      nodes = path.map free ++ [target] ∧ p.cellCost c + k = p.slice.pathCost path := by
  generalize hx : target = x at t
  induction t with
  | single => intro c hu; rw [← hx] at hu; cases hu
  | cons e t ih =>
    intro c hu hc
    rcases hedges.mp e with ha | ⟨_, hcd, hd⟩ | hb
    · cases hu
    · cases hu
      obtain ⟨b, hb, path, w, rfl, hk⟩ := ih hx rfl hd
      refine ⟨b, hb, _, .cons hc hcd w, by rw [List.map_cons, List.cons_append], ?_⟩
      rw [Slice.pathCost_cons, ← hk]; rfl
    · cases hu
      cases t with
      | single => exact ⟨_, hb, _, .single hc, rfl, rfl⟩
      | cons e' _ => exact absurd (hedges.mp e') not_link_target

theorem graph_of_walk {c e : Cell} {path : List Cell} (w : p.terrain.Walk c e path) :
    ∀ {b}, b ∈ p.targets → e = b.cell →
      ∃ k, g.Walk (free c) target (path.map free ++ [target]) k ∧ p.cellCost c + k = p.slice.pathCost path := by
  induction w with
  | single hc =>
    intro b hb he
    subst he
    exact ⟨0, .cons (hedges.mpr (.leave hb)) .single, rfl⟩
  | cons hc hcd w ih =>
    intro b hb he
    obtain ⟨k, t, hk⟩ := ih hb he
    have hd := w.routable _ (List.mem_of_mem_head? (Terrain.walk_iff.mp w).2.2.1)
    refine ⟨_, .cons (hedges.mpr (.step hc hcd hd)) t, ?_⟩
    rw [Slice.pathCost_cons, ← hk]; rfl

include hp

/-- The walks from terminal to terminal are the routes, told with the terminals at their ends. -/
theorem graph_walk_iff {nodes : List CellNode} {k : Nat} : g.Walk source target nodes k ↔
    ∃ path, p.IsRoute path ∧ nodes = source :: path.map free ++ [target] ∧ k = p.slice.pathCost path := by
  constructor
  · intro t
    cases t with
    | cons e t =>
      obtain ⟨a, ha, rfl, rfl⟩ := (hedges.mp e).source_left
      obtain ⟨b, hb, path, w, rfl, hk⟩ := walk_of_graph hedges t rfl (hp.sources_routable a ha)
      exact ⟨path, ⟨a, ha, b, hb, w⟩, rfl, hk⟩
  · rintro ⟨path, ⟨a, ha, b, hb, w⟩, rfl, rfl⟩
    obtain ⟨k, t, hk⟩ := graph_of_walk hedges w hb rfl
    rw [← hk]
    exact .cons (hedges.mpr (.enter ha)) t

theorem solved_of_lightest {answer : Option (List CellNode)} (h : g.Lightest source target answer) :
    p.Solved (.ok (answer.map (·.filterMap cell?))) := by
  cases answer with
  | none =>
    refine .inr ⟨rfl, fun path hr => ?_⟩
    exact h _ _ ((graph_walk_iff hp hedges).mpr ⟨path, hr, rfl, rfl⟩)
  | some nodes =>
    obtain ⟨k, t, hmin⟩ := h
    obtain ⟨path, hr, rfl, rfl⟩ := (graph_walk_iff hp hedges).mp t
    refine .inl ⟨path, congrArg (Except.ok ∘ some) (cells_of_nodes path), hr, fun other ho => ?_⟩
    exact hmin _ _ ((graph_walk_iff hp hedges).mpr ⟨other, ho, rfl, rfl⟩)

end

/-! ## The graph as a search space -/

section

variable {add : Nat → Nat → Except Fault Nat}

theorem terminals_edge {u v : CellNode} {w : Nat} : (terminals g add).Edge u v w ↔ (v, w) ∈ g.edgesFrom u :=
  ⟨fun ⟨_, he, hm⟩ => by cases he; exact hm, fun h => ⟨_, rfl, h⟩⟩

theorem walk_of_terminals {v : CellNode} {nodes : List CellNode} {k : Nat} (t : (terminals g add).Trail v nodes k) :
    g.Walk source v nodes.reverse k := by
  induction t with
  | start h => cases List.mem_singleton.mp h; exact .single
  | step _ e ih => rw [List.reverse_cons]; exact ih.snoc (terminals_edge.mp e)

theorem terminals_append {u v : CellNode} {path : List CellNode} {w : Nat} (t : g.Walk u v path w) :
    ∀ {nodes : List CellNode} {k : Nat}, (terminals g add).Trail u (u :: nodes) k →
      (terminals g add).Trail v (path.reverse ++ nodes) (k + w) := by
  induction t with
  | single => exact fun t => t
  | cons e _ ih =>
    intro nodes k t
    rw [List.reverse_cons, List.append_assoc, ← Nat.add_assoc]
    exact ih (.step t (terminals_edge.mpr e))

theorem terminals_of_walk {v : CellNode} {path : List CellNode} {k : Nat} (t : g.Walk source v path k) :
    (terminals g add).Trail v path.reverse k := by
  simpa using terminals_append t (.start (List.mem_singleton.mpr rfl))

theorem Link.lt {u v : CellNode} {w : Nat} (l : p.Link u v w) : w < 4294967296 := by
  cases l with
  | enter _ => exact UInt32.toNat_lt _
  | step _ _ _ => exact UInt32.toNat_lt _
  | leave _ => decide

variable (hp : p.WellPosed) (hedges : ∀ {u v w}, (v, w) ∈ g.edgesFrom u ↔ p.Link u v w)
include hp hedges

theorem terminals_lawful (hadd : ∀ {a b c}, add a b = .ok c → c = a + b) : (terminals g add).Lawful where
  add_eq := hadd
  starts_eq hj hk := by
    cases List.mem_singleton.mp hj
    cases List.mem_singleton.mp hk
    rfl
  toll e := by
    rcases hedges.mp (terminals_edge.mp e) with _ | _ | _
    · exact .inl (hp.paid _)
    · exact .inl (hp.paid _)
    · exact .inr (beq_self_eq_true target)
  order := {
    asymm := fun h => by
      simp only [terminals, decide_eq_true_eq, decide_eq_false_iff_not] at h ⊢
      omega
    trans := fun hab hbc => by
      simp only [terminals, decide_eq_false_iff_not] at hab hbc ⊢
      omega }
  estimate_le h := Nat.le_of_not_lt (of_decide_eq_false h)

theorem cells_of_terminals {v : CellNode} {nodes : List CellNode} {k : Nat} (t : (terminals g add).Trail v nodes k) :
    (∀ c ∈ nodes.filterMap cell?, p.terrain.Routable c) ∧ k = p.slice.pathCost (nodes.filterMap cell?) := by
  induction t with
  | start h =>
    cases List.mem_singleton.mp h
    exact ⟨fun _ hc => (by cases hc), rfl⟩
  | step _ e ih =>
    obtain ⟨hr, rfl⟩ := ih
    rcases hedges.mp (terminals_edge.mp e) with ha | ⟨_, _, hd⟩ | _
    · exact ⟨List.forall_mem_cons.mpr ⟨hp.sources_routable _ ha, hr⟩, Nat.add_comm ..⟩
    · exact ⟨List.forall_mem_cons.mpr ⟨hd, hr⟩, Nat.add_comm ..⟩
    · exact ⟨hr, rfl⟩

theorem terminals_safe : (terminals g (Word.sum 64)).Safe := by
  have bound : ∀ {v nodes k}, (terminals g (Word.sum 64)).Trail v nodes k → nodes.Nodup →
      k ≤ 4294967295 * 4294967295 := fun {v nodes k} t hn => by
    obtain ⟨hr, rfl⟩ := cells_of_terminals hp hedges t
    refine Slice.pathCost_le hp.fits (hn.filterMap fun a a' c ha ha' => ?_) fun c hc => (hr c hc).inBounds
    cases a <;> cases a' <;> simp_all [cell?]
  constructor
  · intro v nodes k t hn
    have := bound t hn
    exact ⟨0, k + 0, rfl, Word.sum_eq_ok (by omega)⟩
  · intro v nodes k t hn
    have := bound t hn
    refine ⟨_, rfl, fun e he => ?_⟩
    have := (hedges.mp he).lt
    exact ⟨_, Word.sum_eq_ok (by omega)⟩

theorem terminals_lightest :
    ∃ answer, (terminals g (Word.sum 64)).bestPath? = .ok answer ∧ g.Lightest source target answer := by
  have hl : (terminals g (Word.sum 64)).Lawful := terminals_lawful hp hedges sum_exact
  have admissible : (terminals g (Word.sum 64)).Admissible := fun _ h _ _ => by cases h; exact Nat.zero_le _
  obtain ⟨answer, h⟩ := SearchSpace.bestPath?_safe hl (terminals_safe hp hedges)
  refine ⟨answer, h, ?_⟩
  cases answer with
  | none =>
    intro nodes k t
    cases SearchSpace.bestPath?_complete hl h (terminals_of_walk t)
  | some path =>
    obtain ⟨goal, k, hg, t, -, hmin⟩ := SearchSpace.bestPath?_sound hl h
    have hgoal : goal = target := eq_of_beq hg
    subst hgoal
    exact ⟨k, by simpa using walk_of_terminals t,
      fun others j t' => hmin admissible (beq_self_eq_true target) (terminals_of_walk t')⟩

end

theorem graph_solved (hp : p.WellPosed) (ht : p.terrain.clearance = false) (hfits : p.GraphFits) :
    p.Solved p.graphPath? := by
  obtain ⟨g, hg⟩ := graph?_total hp hfits
  have hedges : ∀ {u v w}, (v, w) ∈ g.edgesFrom u ↔ p.Link u v w := graph?_edges hp ht hg
  obtain ⟨answer, h, hlight⟩ := terminals_lightest hp hedges
  have hpath : p.graphPath? = .ok (answer.map (·.filterMap cell?)) :=
    bind_eq_ok.mpr ⟨some g, hg, bind_eq_ok.mpr ⟨answer, h, rfl⟩⟩
  rw [hpath]
  exact solved_of_lightest hp hedges hlight

end SearchProblem

end AncillaRouting
