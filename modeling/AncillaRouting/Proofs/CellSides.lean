import AncillaRouting.Proofs.CellGeometry

/-!
# Sides and distances

Three ways to say that two cells touch come to the same: one lies across a side of the other, a side of one faces
the other, and their distance is one. Distance is a metric as far as its sums fit their words.
-/

namespace AncillaRouting.Cell

variable {a b : Cell} {side : Side}

theorem distance_comm (a b : Cell) : a.distance b = b.distance a := by
  rw [distance, distance, Word.gap_comm a.row, Word.gap_comm a.col]

theorem Inner.sideTowards_eq_some_iff (ha : a.Inner) :
    a.sideTowards b = .ok (some side) ↔ a.neighbour side = .ok b := by
  constructor
  · exact neighbour_of_sideTowards
  · intro h
    obtain ⟨t, ht, hn⟩ := ha.sideTowards ⟨side, h⟩
    rw [ht, side_unique hn h]

theorem Inner.faces_iff_distance_eq_one (ha : a.Inner) :
    (∃ side, a.sideTowards b = .ok (some side)) ↔ a.distance b = .ok 1 := by
  rw [distance_eq_ok_iff, ← adjacent_iff_apart_eq_one]
  constructor
  · rintro ⟨side, h⟩
    exact ⟨⟨side, ha.sideTowards_eq_some_iff.mp h⟩, by omega⟩
  · rintro ⟨⟨side, h⟩, -⟩
    exact ⟨side, ha.sideTowards_eq_some_iff.mpr h⟩

theorem Inner.sideTowards_back (ha : a.Inner) (hb : b.Inner) {faced : Option Side}
    (h : a.sideTowards b = .ok faced) : b.sideTowards a = .ok (faced.map Side.opposite) := by
  cases faced with
  | some side => exact hb.sideTowards_eq_some_iff.mpr (neighbour_opposite.mp (ha.sideTowards_eq_some_iff.mp h))
  | none =>
    obtain ⟨back, hback⟩ := hb.sideTowards_total a
    cases back with
    | none => exact hback
    | some side =>
      -- a side that faces back would have been found on the way there
      have hforth := ha.sideTowards_eq_some_iff.mpr (neighbour_opposite.mp (hb.sideTowards_eq_some_iff.mp hback))
      rw [h] at hforth
      cases hforth

/-- Of two cells away from the ends of the range, one faces the other with the very side across which it lies. There
is such a side if and only if their distance is one, and the other faces back with the opposite side. Distance is
symmetric, is nothing only from a cell to itself, and is not longer than a detour, as far as sums fit their words. -/
theorem sides_by_distance :
    (∀ a b : Cell, a.Inner → b.Inner → ∃ faced, a.sideTowards b = .ok faced ∧
      (∀ side, faced = some side ↔ a.neighbour side = .ok b) ∧
      ((∃ side, faced = some side) ↔ a.distance b = .ok 1) ∧
      b.sideTowards a = .ok (faced.map Side.opposite)) ∧
    (∀ a b : Cell, a.distance b = b.distance a) ∧
    (∀ a b : Cell, a.distance b = .ok 0 ↔ a = b) ∧
    ∀ (a b c : Cell) (m n : Nat), a.distance b = .ok m → b.distance c = .ok n →
      (∀ k, a.distance c = .ok k → k ≤ m + n) ∧ (m + n < 4294967296 → ∃ k, a.distance c = .ok k) := by
  refine ⟨fun a b ha hb => ?_, distance_comm, fun a b => ?_, fun a b c m n hab hbc => ?_⟩
  · obtain ⟨faced, hfaced⟩ := ha.sideTowards_total b
    have hsome : ∀ side, faced = some side ↔ a.sideTowards b = .ok (some side) := by
      intro side
      rw [hfaced]
      exact ⟨fun h => congrArg Except.ok h, fun h => Except.ok.inj h⟩
    refine ⟨faced, hfaced, fun side => ?_, ?_, ha.sideTowards_back hb hfaced⟩
    · rw [hsome, ha.sideTowards_eq_some_iff]
    · rw [← ha.faces_iff_distance_eq_one]
      exact exists_congr hsome
  · rw [distance_eq_ok_iff, apart_eq_zero_iff]
    exact and_iff_left (by decide)
  · obtain ⟨rfl, -⟩ := distance_eq_ok_iff.mp hab
    obtain ⟨rfl, -⟩ := distance_eq_ok_iff.mp hbc
    have htriangle := apart_triangle a b c
    refine ⟨fun k hac => ?_, fun hlt => ⟨_, distance_eq_ok (Nat.lt_of_le_of_lt htriangle hlt)⟩⟩
    obtain ⟨rfl, -⟩ := distance_eq_ok_iff.mp hac
    exact htriangle

/-- The last two inner cells of a row at the end of the range. -/
theorem sides_by_distance_corner :
    (⟨-2147483647, 2147483645⟩ : Cell).sideTowards ⟨-2147483647, 2147483646⟩ = .ok (some .right) ∧
      (⟨-2147483647, 2147483646⟩ : Cell).sideTowards ⟨-2147483647, 2147483645⟩ = .ok (some .left) ∧
      (⟨-2147483647, 2147483645⟩ : Cell).distance ⟨-2147483647, 2147483646⟩ = .ok 1 := by
  have hleft : (⟨-2147483647, 2147483645⟩ : Cell).Inner := by constructor <;> decide
  have hright : (⟨-2147483647, 2147483646⟩ : Cell).Inner := by constructor <;> decide
  obtain ⟨faced, hfaced, hside, hdistance, hback⟩ := sides_by_distance.1 _ _ hleft hright
  obtain rfl := (hside .right).mpr rfl
  exact ⟨hfaced, hback, hdistance.mp ⟨.right, rfl⟩⟩

end AncillaRouting.Cell
