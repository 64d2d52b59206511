import AncillaRouting.Proofs.Outcome
import AncillaRouting.Search.Walk

/-!
# The geometry of cells

Neighbours and distances by coordinates, taken as integers. A cell whose coordinates are not at the
ends of their range has all four neighbours.
-/

namespace AncillaRouting

open Outcome

namespace Word

theorem next_eq_ok_iff {i j : Int32} : next i = .ok j ↔ j.toInt = i.toInt + 1 := by
  have hmax := Int32.toInt_maxValue
  by_cases h : i = Int32.maxValue
  · have := j.toInt_lt
    refine ⟨fun e => ?_, fun e => ?_⟩
    · simp [next, h] at e
    · rw [h, hmax] at e; omega
  · have hlt := i.toInt_lt
    have hle := i.le_toInt
    have hne : i.toInt ≠ 2147483647 := fun e => h (Int32.toInt_inj.mp (e.trans hmax.symm))
    have hadd : (i + 1).toInt = i.toInt + 1 := by
      rw [Int32.toInt_add]
      exact Int.bmod_eq_of_le (by simp; omega) (by simp; omega)
    rw [next_eq_ok h, ← hadd, Int32.toInt_inj]
    exact ⟨fun e => (Except.ok.inj e).symm, fun e => congrArg Except.ok e.symm⟩

theorem previous_eq_ok_iff {i j : Int32} : previous i = .ok j ↔ i.toInt = j.toInt + 1 := by
  have hmin := Int32.toInt_minValue
  by_cases h : i = Int32.minValue
  · have := j.le_toInt
    refine ⟨fun e => ?_, fun e => ?_⟩
    · simp [previous, h] at e
    · rw [h, hmin] at e; omega
  · have hlt := i.toInt_lt
    have hle := i.le_toInt
    have hne : i.toInt ≠ -2147483648 := fun e => h (Int32.toInt_inj.mp (e.trans hmin.symm))
    have hsub : (i - 1).toInt = i.toInt - 1 := by
      rw [Int32.toInt_sub]
      exact Int.bmod_eq_of_le (by simp; omega) (by simp; omega)
    rw [previous_eq_ok h]
    refine ⟨fun e => ?_, fun e => congrArg Except.ok (Int32.toInt_inj.mp (by omega))⟩
    cases e; omega

theorem gap_comm (i j : Int32) : gap i j = gap j i := by
  unfold gap
  omega

theorem sum_eq_ok_iff {bits a b n : Nat} : sum bits a b = .ok n ↔ a + b = n ∧ n < 1 <<< bits := by
  unfold sum
  constructor
  · intro h
    split at h
    · cases h
      exact ⟨rfl, by assumption⟩
    · cases h
  · rintro ⟨rfl, hlt⟩
    rw [if_pos hlt]

end Word

namespace Cell

/-- No coordinate is at an end of its range. -/
structure Inner (c : Cell) : Prop where
  row_gt : -2147483648 < c.row.toInt
  row_lt : c.row.toInt < 2147483647
  col_gt : -2147483648 < c.col.toInt
  col_lt : c.col.toInt < 2147483647

theorem ext_iff' {c d : Cell} : c = d ↔ c.row.toInt = d.row.toInt ∧ c.col.toInt = d.col.toInt := by
  rw [Int32.toInt_inj, Int32.toInt_inj]
  exact Cell.mk.injEq .. ▸ Iff.rfl

theorem neighbour_eq_ok {c d : Cell} {side : Side} : c.neighbour side = .ok d ↔
    match side with
    | .top => c.row.toInt = d.row.toInt + 1 ∧ d.col.toInt = c.col.toInt
    | .bottom => d.row.toInt = c.row.toInt + 1 ∧ d.col.toInt = c.col.toInt
    | .left => c.col.toInt = d.col.toInt + 1 ∧ d.row.toInt = c.row.toInt
    | .right => d.col.toInt = c.col.toInt + 1 ∧ d.row.toInt = c.row.toInt := by
  obtain ⟨dr, dc⟩ := d
  cases side <;>
    simp only [neighbour, map_eq_ok, Word.next_eq_ok_iff, Word.previous_eq_ok_iff, Cell.mk.injEq,
      Int32.toInt_inj]
  · exact ⟨fun ⟨a, ha, h, h'⟩ => ⟨h ▸ ha, h'.symm⟩, fun ⟨ha, h⟩ => ⟨dr, ha, rfl, h.symm⟩⟩
  · exact ⟨fun ⟨a, ha, h, h'⟩ => ⟨h ▸ ha, h'.symm⟩, fun ⟨ha, h⟩ => ⟨dr, ha, rfl, h.symm⟩⟩
  · exact ⟨fun ⟨a, ha, h', h⟩ => ⟨h ▸ ha, h'.symm⟩, fun ⟨ha, h⟩ => ⟨dc, ha, h.symm, rfl⟩⟩
  · exact ⟨fun ⟨a, ha, h', h⟩ => ⟨h ▸ ha, h'.symm⟩, fun ⟨ha, h⟩ => ⟨dc, ha, h.symm, rfl⟩⟩

theorem neighbour_opposite {c d : Cell} {side : Side} :
    c.neighbour side = .ok d ↔ d.neighbour side.opposite = .ok c := by
  rw [neighbour_eq_ok, neighbour_eq_ok]
  cases side <;> simp only [Side.opposite] <;> omega

theorem Adjacent.symm {c d : Cell} (h : c.Adjacent d) : d.Adjacent c := by
  obtain ⟨side, h⟩ := h
  exact ⟨side.opposite, neighbour_opposite.mp h⟩

theorem side_unique {c d : Cell} {s t : Side} (hs : c.neighbour s = .ok d) (ht : c.neighbour t = .ok d) :
    s = t := by
  rw [neighbour_eq_ok] at hs ht
  cases s <;> cases t <;> simp only at hs ht <;> first | rfl | (exfalso; omega)

theorem Inner.neighbour {c : Cell} (h : c.Inner) (side : Side) : ∃ d, c.neighbour side = .ok d := by
  have hmax := Int32.toInt_maxValue
  have hmin := Int32.toInt_minValue
  obtain ⟨h1, h2, h3, h4⟩ := h
  cases side <;> simp only [Cell.neighbour]
  · rw [Word.previous_eq_ok fun e => by rw [e, hmin] at h1; omega]; exact ⟨_, rfl⟩
  · rw [Word.next_eq_ok fun e => by rw [e, hmax] at h2; omega]; exact ⟨_, rfl⟩
  · rw [Word.previous_eq_ok fun e => by rw [e, hmin] at h3; omega]; exact ⟨_, rfl⟩
  · rw [Word.next_eq_ok fun e => by rw [e, hmax] at h4; omega]; exact ⟨_, rfl⟩

theorem Inner.neighbours {c : Cell} (h : c.Inner) : ∃ ds, c.neighbours = .ok ds :=
  mapM_total fun side _ => h.neighbour side

theorem mem_neighbours {c d : Cell} {ds : List Cell} (h : c.neighbours = .ok ds) :
    d ∈ ds ↔ c.Adjacent d := by
  rw [mem_of_mapM h]
  exact ⟨fun ⟨s, _, hs⟩ => ⟨s, hs⟩, fun ⟨s, hs⟩ => ⟨s, s.mem_all, hs⟩⟩

theorem Inner.compares {c : Cell} (h : c.Inner) (d : Cell) :
    ∀ s ∈ Side.all, ∃ b, ((· == d) <$> c.neighbour s : Except Fault Bool) = .ok b := by
  intro s _
  obtain ⟨e, he⟩ := h.neighbour s
  exact ⟨e == d, by rw [he]; rfl⟩

theorem Inner.sideTowards {c d : Cell} (h : c.Inner) (hd : c.Adjacent d) :
    ∃ side, c.sideTowards d = .ok (some side) ∧ c.neighbour side = .ok d := by
  obtain ⟨s, hs⟩ := hd
  have hfaces : ((· == d) <$> c.neighbour s : Except Fault Bool) = .ok true := by
    rw [hs]
    exact congrArg Except.ok (beq_self_eq_true d)
  obtain ⟨t, -, ht, htd⟩ := findM?_found (h.compares d) ⟨s, s.mem_all, hfaces⟩
  obtain ⟨e, he, hed⟩ := map_eq_ok.mp htd
  exact ⟨t, ht, by rw [he, eq_of_beq hed]⟩

theorem neighbour_of_sideTowards {c d : Cell} {side : Side} (h : c.sideTowards d = .ok (some side)) :
    c.neighbour side = .ok d := by
  have hside := of_findM?_eq_some (f := fun side => (· == d) <$> c.neighbour side) h
  obtain ⟨e, he, hd⟩ := map_eq_ok.mp hside
  rw [he, eq_of_beq hd]

theorem Inner.sideTowards_total {c : Cell} (h : c.Inner) (d : Cell) : ∃ side, c.sideTowards d = .ok side :=
  findM?_total (h.compares d)

theorem opposite_of_sideTowards {c d : Cell} {forth back : Side} (hf : c.sideTowards d = .ok (some forth))
    (hb : d.sideTowards c = .ok (some back)) : back = forth.opposite :=
  side_unique (neighbour_of_sideTowards hb) (neighbour_opposite.mp (neighbour_of_sideTowards hf))

/-! ## Distances -/

/-- How far apart two cells are, along the rows and along the columns together. -/
def apart (a b : Cell) : Nat := Word.gap a.row b.row + Word.gap a.col b.col

theorem apart_eq_zero_iff {a b : Cell} : a.apart b = 0 ↔ a = b := by
  rw [Cell.ext_iff']
  unfold apart Word.gap
  omega

theorem apart_self (a : Cell) : a.apart a = 0 := apart_eq_zero_iff.mpr rfl

theorem apart_comm (a b : Cell) : a.apart b = b.apart a := by
  rw [apart, apart, Word.gap_comm a.row, Word.gap_comm a.col]

theorem apart_triangle (a b c : Cell) : a.apart c ≤ a.apart b + b.apart c := by
  unfold apart Word.gap
  omega

theorem adjacent_iff_apart_eq_one {a b : Cell} : a.Adjacent b ↔ a.apart b = 1 := by
  unfold apart Word.gap
  constructor
  · rintro ⟨side, h⟩
    rw [neighbour_eq_ok] at h
    cases side <;> simp only at h <;> omega
  · intro h
    have hsides : (a.row.toInt = b.row.toInt + 1 ∧ b.col.toInt = a.col.toInt) ∨
        (b.row.toInt = a.row.toInt + 1 ∧ b.col.toInt = a.col.toInt) ∨
        (a.col.toInt = b.col.toInt + 1 ∧ b.row.toInt = a.row.toInt) ∨
        (b.col.toInt = a.col.toInt + 1 ∧ b.row.toInt = a.row.toInt) := by omega
    rcases hsides with h | h | h | h
    · exact ⟨.top, neighbour_eq_ok.mpr h⟩
    · exact ⟨.bottom, neighbour_eq_ok.mpr h⟩
    · exact ⟨.left, neighbour_eq_ok.mpr h⟩
    · exact ⟨.right, neighbour_eq_ok.mpr h⟩

theorem Adjacent.apart_le {v x : Cell} (h : v.Adjacent x) (u : Cell) : u.apart x ≤ u.apart v + 1 := by
  have hle := apart_triangle u v x
  rw [adjacent_iff_apart_eq_one.mp h] at hle
  exact hle

theorem distance_eq_ok_iff {a b : Cell} {n : Nat} : a.distance b = .ok n ↔ a.apart b = n ∧ n < 4294967296 :=
  Word.sum_eq_ok_iff

theorem distance_eq_ok {a b : Cell} (h : a.apart b < 4294967296) : a.distance b = .ok (a.apart b) :=
  distance_eq_ok_iff.mpr ⟨rfl, h⟩

theorem eq_apart_of_distance {a b : Cell} {n : Nat} (h : a.distance b = .ok n) : n = a.apart b :=
  (distance_eq_ok_iff.mp h).1.symm

end Cell

end AncillaRouting
