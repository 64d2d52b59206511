import AncillaRouting.Proofs.SliceInvariant

/-!
# The order in which a grid is listed

The listing goes through the rows from the top and through each row from the left, so it repeats no cell. It lists
what is on the grid and nothing else. An axis that has more places than there are coordinates empties it. A place of
the listing tells the row and the column of its cell, so costs are given out without the listing itself.
-/

namespace AncillaRouting

theorem Cell.before_iff {c d : Cell} : c.before d = true ↔
    c.row.toInt < d.row.toInt ∨ c.row.toInt = d.row.toInt ∧ c.col.toInt < d.col.toInt := by
  simp only [before, compare, beq_iff_eq, Ordering.then_eq_lt, Int.compare_eq_lt, Int.compare_eq_eq]

namespace Slice

variable {s : Slice} {row row' col col' : Nat}

theorem toInt_ofNat_of_listed {n : Nat} {size : UInt32} (h : n < listed size) : (Int32.ofNat n).toInt = n := by
  have := lt_listed.mp h
  exact Int32.toInt_ofNat_of_lt (by omega)

theorem cellAt_before_row (hr : row' < listed s.rows) (h : row < row') :
    (cellAt row col).before (cellAt row' col') = true := by
  have hrow := toInt_ofNat_of_listed (Nat.lt_trans h hr)
  have hrow' := toInt_ofNat_of_listed hr
  have hlt : (Int32.ofNat row).toInt < (Int32.ofNat row').toInt := by omega
  exact Cell.before_iff.mpr (.inl hlt)

theorem cellAt_before_col (hc : col' < listed s.cols) (h : col < col') :
    (cellAt row col).before (cellAt row col') = true := by
  have hcol := toInt_ofNat_of_listed (Nat.lt_trans h hc)
  have hcol' := toInt_ofNat_of_listed hc
  have hlt : (Int32.ofNat col).toInt < (Int32.ofNat col').toInt := by omega
  exact Cell.before_iff.mpr (.inr ⟨rfl, hlt⟩)

theorem cells_ascending (s : Slice) : s.cells.Pairwise fun c d => c.before d = true := by
  unfold cells
  rw [List.pairwise_flatMap]
  constructor
  · intro row _
    rw [List.pairwise_map]
    exact List.pairwise_lt_range.imp_of_mem fun _ hc h => cellAt_before_col (List.mem_range.mp hc) h
  · apply List.pairwise_lt_range.imp_of_mem
    intro row row' _ hr h c hc d hd
    obtain ⟨col, -, rfl⟩ := List.mem_map.mp hc
    obtain ⟨col', -, rfl⟩ := List.mem_map.mp hd
    exact cellAt_before_row (List.mem_range.mp hr) h

/-- The cells of a grid of any size are listed in strictly ascending order, each of them once. They are the cells on
the grid, unless an axis has more places than there are coordinates from zero upward: then no cell is listed. -/
theorem listed_row_by_row (s : Slice) : (s.cells.Pairwise fun c d => c.before d = true) ∧ s.cells.Nodup ∧
    ∀ c, c ∈ s.cells ↔ s.Addressable ∧ s.inBounds c = true := by
  refine ⟨cells_ascending s, (cells_ascending s).imp fun {c d} h he => ?_, fun c => mem_cells_iff⟩
  have := Cell.before_iff.mp (he ▸ h)
  omega

/-- The grid has one row, with one place more than there are coordinates from zero upward. -/
theorem long_row_unlisted :
    (empty 1 2147483648).inBounds .origin = true ∧ Cell.origin ∉ (empty 1 2147483648).cells := by
  constructor
  · decide
  · intro h
    have hcols := (mem_cells_iff.mp h).1.cols_le
    revert hcols
    decide

/-! ## The listing by its places -/

/-- Row by row, a table is read at one number, divided by the length of a row. -/
theorem flatMap_range_range {α : Type} (f : Nat → Nat → α) (rows cols : Nat) :
    (List.range rows).flatMap (fun row => (List.range cols).map (f row)) =
      (List.range (rows * cols)).map fun i => f (i / cols) (i % cols) := by
  induction rows with
  | zero => simp
  | succ rows ih =>
    have last : (List.range cols).map (f rows) =
        (List.range cols).map fun col => f ((rows * cols + col) / cols) ((rows * cols + col) % cols) := by
      apply List.map_congr_left
      intro col hcol
      have hcol := List.mem_range.mp hcol
      have hdiv : (rows * cols + col) / cols = rows := by
        rw [Nat.mul_comm, Nat.mul_add_div (by omega), Nat.div_eq_of_lt hcol, Nat.add_zero]
      have hmod : (rows * cols + col) % cols = col := by
        rw [Nat.mul_comm, Nat.mul_add_mod, Nat.mod_eq_of_lt hcol]
      rw [hdiv, hmod]
    rw [List.range_succ, List.flatMap_append, ih, Nat.succ_mul, List.range_add, List.map_append, List.map_map,
      List.flatMap_singleton, last]
    rfl

theorem cells_eq_map (s : Slice) : s.cells =
    (List.range (listed s.rows * listed s.cols)).map fun i => cellAt (i / listed s.cols) (i % listed s.cols) :=
  flatMap_range_range cellAt (listed s.rows) (listed s.cols)

theorem nthCell?_eq (s : Slice) (i : Nat) : s.nthCell? i = s.cells[i]? := by
  rw [cells_eq_map, List.getElem?_map, nthCell?]
  split
  next h => rw [List.getElem?_range h]; rfl
  next h => rw [List.getElem?_eq_none (by rw [List.length_range]; omega)]; rfl

theorem reach_eq (s : Slice) (costs : List UInt32) : s.reach costs = (s.cells.zip costs).length := by
  rw [List.length_zip, cells_eq_map, List.length_map, List.length_range, Nat.min_comm]
  rfl

theorem cells_setCost {t : Slice} {c : Cell} {cost : UInt32} (h : s.setCost c cost = .ok t) : t.cells = s.cells := by
  obtain ⟨-, rfl⟩ := setCost_eq_ok h
  rfl

/-- From place `k` on, costs are given to what the listing has from there. -/
theorem foldlM_setNthCost (costs : List UInt32) (s : Slice) (k : Nat) :
    (costs.zipIdx k).foldlM (fun s x => s.setNthCost x.1 x.2) s =
      ((s.cells.drop k).zip costs).foldlM (fun s x => s.setCost x.1 x.2) s := by
  induction costs generalizing s k with
  | nil => rw [List.zip_nil_right]; rfl
  | cons cost costs ih =>
    rw [List.zipIdx_cons, List.foldlM_cons, setNthCost, nthCell?_eq]
    by_cases hk : k < s.cells.length
    · rw [List.getElem?_eq_getElem hk, List.drop_eq_getElem_cons hk, List.zip_cons_cons, List.foldlM_cons]
      cases h : s.setCost s.cells[k] cost with
      | error => simp only [h]; rfl
      | ok t =>
        simp only [h]
        rw [← cells_setCost h]
        exact ih t (k + 1)
    · have hnone : ∀ m ≥ k, s.cells.drop m = [] := fun m hm => List.drop_eq_nil_of_le (by omega)
      rw [List.getElem?_eq_none (by omega), hnone k (Nat.le_refl k)]
      have hrest := ih s (k + 1)
      rw [hnone (k + 1) (Nat.le_succ k)] at hrest
      exact hrest

theorem setCosts_eq (s : Slice) (costs : List UInt32) :
    s.setCosts costs = (s.cells.zip costs).foldlM (fun s x => s.setCost x.1 x.2) s := by
  rw [setCosts, foldlM_setNthCost, List.drop_zero]

end Slice

end AncillaRouting
