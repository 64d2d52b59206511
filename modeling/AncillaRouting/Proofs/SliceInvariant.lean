import AncillaRouting.Proofs.CellGeometry
import AncillaRouting.Slice.Picture
import AncillaRouting.Slice.History

/-!
# What every slice satisfies

Placed patches have different ids and at least one cell, their cells are on the grid, the occupancy
names for each cell the patch that covers it, so that no cell is covered twice, and every cell has a
positive cost. Placing, removing and pricing keep this, so it holds of every slice that is reachable.
-/

namespace AncillaRouting

open Outcome

namespace Slice

structure WellFormed (s : Slice) : Prop where
  ids : (s.patches.map (·.id)).Nodup
  filled : ∀ p ∈ s.patches, p.cells ≠ []
  inside : ∀ p ∈ s.patches, ∀ {c}, p.covers c = true → s.inBounds c = true
  covered : ∀ {c id}, s.patchAt c = some id ↔ ∃ p ∈ s.patches, p.id = id ∧ p.covers c = true
  paid : ∀ c, 0 < (s.cost c).toNat

/-- Sizes for which no coordinate on the grid or next to it leaves its word. -/
structure Addressable (s : Slice) : Prop where
  rows_le : s.rows.toNat ≤ 2147483647
  cols_le : s.cols.toNat ≤ 2147483647

/-- Sizes for which no coordinate and no sum of costs leaves its word. -/
structure Fits (s : Slice) : Prop where
  rows_le : s.rows.toNat ≤ 2147483647
  cols_le : s.cols.toNat ≤ 2147483647
  size_lt : s.rows.toNat * s.cols.toNat < 4294967296

variable {s s' : Slice}

/-! ## Looking things up -/

theorem inBounds_iff {c : Cell} : s.inBounds c = true ↔ 0 ≤ c.row.toInt ∧ 0 ≤ c.col.toInt ∧
    c.row.toInt < s.rows.toNat ∧ c.col.toInt < s.cols.toNat := by
  simp only [inBounds, Bool.and_eq_true, decide_eq_true_eq, and_assoc]

theorem isFree_iff {c : Cell} : s.isFree c = true ↔ s.inBounds c = true ∧ s.patchAt c = none := by
  rw [isFree, patchAt, Std.HashMap.contains_eq_isSome_getElem?, Bool.and_eq_true, Bool.not_eq_true',
    Option.isSome_eq_false_iff, Option.isNone_iff_eq_none]

theorem Fits.addressable (hf : s.Fits) : s.Addressable := ⟨hf.rows_le, hf.cols_le⟩

theorem Addressable.inner (ha : s.Addressable) {c : Cell} (hc : s.inBounds c = true) : c.Inner := by
  obtain ⟨h1, h2, h3, h4⟩ := inBounds_iff.mp hc
  have hr := ha.rows_le
  have hl := ha.cols_le
  exact ⟨by omega, by omega, by omega, by omega⟩

theorem Fits.inner (hf : s.Fits) {c : Cell} (hc : s.inBounds c = true) : c.Inner := hf.addressable.inner hc

theorem covers_iff {p : Patch} {c : Cell} : p.covers c = true ↔ ∃ d ∈ p.cells, d.cell = c := by
  simp only [Patch.covers, List.any_eq_true, beq_iff_eq]

theorem getPatch_eq_ok {id : PatchId} {p : Patch} (h : s.getPatch id = .ok p) :
    p ∈ s.patches ∧ p.id = id := by
  unfold getPatch at h
  split at h
  · rename_i q hq
    cases h
    exact ⟨List.mem_of_find?_eq_some hq, by simpa using List.find?_some hq⟩
  · cases h

theorem getPatch_eq_error {id : PatchId} {e : SliceError} (h : s.getPatch id = .error e) :
    e = .patchNotFound id ∧ ∀ p ∈ s.patches, p.id ≠ id := by
  unfold getPatch at h
  split at h
  · cases h
  · rename_i hn
    cases h
    exact ⟨rfl, by simpa using hn⟩

theorem eq_of_id_eq : ∀ {l : List Patch}, (l.map (·.id)).Nodup → ∀ {p q}, p ∈ l → q ∈ l → p.id = q.id → p = q
  | a :: l, hn, p, q, hp, hq, h => by
    have hn' := List.nodup_cons.mp (List.map_cons .. ▸ hn)
    rcases List.mem_cons.mp hp with rfl | hpl
    · rcases List.mem_cons.mp hq with rfl | hql
      · rfl
      · exact absurd (List.mem_map.mpr ⟨q, hql, h.symm⟩) hn'.1
    · rcases List.mem_cons.mp hq with rfl | hql
      · exact absurd (List.mem_map.mpr ⟨p, hpl, h⟩) hn'.1
      · exact eq_of_id_eq hn'.2 hpl hql h

theorem WellFormed.getPatch (hw : s.WellFormed) {p : Patch} (hp : p ∈ s.patches) :
    s.getPatch p.id = .ok p := by
  cases h : s.getPatch p.id with
  | ok q =>
    obtain ⟨hq, hid⟩ := getPatch_eq_ok h
    rw [eq_of_id_eq hw.ids hq hp hid]
  | error e => exact absurd rfl ((getPatch_eq_error h).2 p hp)

theorem WellFormed.disjoint (hw : s.WellFormed) {p q : Patch} (hp : p ∈ s.patches) (hq : q ∈ s.patches)
    {c : Cell} (hpc : p.covers c = true) (hqc : q.covers c = true) : p = q := by
  have h := hw.covered.mpr ⟨p, hp, rfl, hpc⟩
  have h' := hw.covered.mpr ⟨q, hq, rfl, hqc⟩
  rw [h] at h'
  exact eq_of_id_eq hw.ids hp hq (Option.some.inj h')

theorem WellFormed.isFree_iff (hw : s.WellFormed) {c : Cell} :
    s.isFree c = true ↔ s.inBounds c = true ∧ ∀ p ∈ s.patches, p.covers c = false := by
  rw [Slice.isFree_iff]
  apply and_congr_right
  intro _
  cases h : s.patchAt c with
  | none =>
    refine ⟨fun _ p hp => ?_, fun _ => rfl⟩
    rw [Bool.eq_false_iff]
    intro hc
    rw [hw.covered.mpr ⟨p, hp, rfl, hc⟩] at h; cases h
  | some id =>
    obtain ⟨p, hp, -, hc⟩ := hw.covered.mp h
    refine ⟨nofun, fun hn => ?_⟩
    rw [hn p hp] at hc; cases hc

/-! ## What the operations do -/

theorem checkFree_eq_ok {c : Cell} : s.checkFree c = .ok () ↔ s.inBounds c = true ∧ s.patchAt c = none := by
  simp only [checkFree, bind_eq_ok, checkBounds]
  cases hb : s.inBounds c <;> cases hp : s.patchAt c <;> simp

def placed (s : Slice) (p : Patch) : Slice :=
  { s with
    patches := s.patches ++ [p]
    occupancy := p.cells.foldl (fun m c => m.insert c.cell p.id) s.occupancy }

theorem place_eq_ok {p : Patch} : s.place p = .ok s' ↔ p.cells ≠ [] ∧ (∀ q ∈ s.patches, q.id ≠ p.id) ∧
    (∀ c ∈ p.cells, s.inBounds c.cell = true ∧ s.patchAt c.cell = none) ∧ s' = s.placed p := by
  unfold place
  by_cases he : p.cells = []
  · simp [he]
  · by_cases hd : s.patches.any (·.id == p.id) = true
    · rw [if_neg (by simpa using he), if_pos hd]
      obtain ⟨q, hq, hid⟩ := List.any_eq_true.mp hd
      exact ⟨nofun, fun ⟨_, h, _⟩ => absurd (eq_of_beq hid) (h q hq)⟩
    · rw [if_neg (by simpa using he), if_neg hd]
      have hd' : ∀ q ∈ s.patches, q.id ≠ p.id := by simpa using hd
      rw [bind_eq_ok]
      constructor
      · rintro ⟨_, hc, h⟩
        cases h
        exact ⟨he, hd', fun c hm => checkFree_eq_ok.mp (forM_eq_ok.mp hc c hm), rfl⟩
      · rintro ⟨-, -, hc, rfl⟩
        exact ⟨(), forM_eq_ok.mpr fun c hm => checkFree_eq_ok.mpr (hc c hm), rfl⟩

def without (s : Slice) (p : Patch) : Slice :=
  { s with
    patches := s.patches.eraseP (·.id == p.id)
    occupancy := p.cells.foldl (fun m c => m.erase c.cell) s.occupancy }

theorem remove_eq_ok {id : PatchId} {p : Patch} (h : s.remove id = .ok (p, s')) :
    p ∈ s.patches ∧ p.id = id ∧ s' = s.without p := by
  obtain ⟨q, hq, h⟩ := bind_eq_ok.mp h
  cases h
  obtain ⟨hm, rfl⟩ := getPatch_eq_ok hq
  exact ⟨hm, rfl, rfl⟩

theorem setCost_eq_ok {c : Cell} {cost : UInt32} (h : s.setCost c cost = .ok s') :
    s.inBounds c = true ∧ s' = { s with costs := s.costs.insert c (max cost 1) } := by
  obtain ⟨_, hb, h⟩ := bind_eq_ok.mp h
  cases h
  refine ⟨?_, rfl⟩
  unfold checkBounds at hb
  split at hb
  · assumption
  · cases hb

theorem patchAt_placed (p : Patch) (c : Cell) :
    (s.placed p).patchAt c = if p.covers c then some p.id else s.patchAt c := by
  have : ∀ (cells : List PatchCell) (m : Std.HashMap Cell PatchId),
      (cells.foldl (fun m c => m.insert c.cell p.id) m)[c]? =
        if cells.any (·.cell == c) then some p.id else m[c]? := by
    intro cells
    induction cells with
    | nil => intro m; rfl
    | cons d cells ih =>
      intro m
      rw [List.foldl_cons, ih, Std.HashMap.getElem?_insert, List.any_cons]
      cases d.cell == c <;> simp
  exact this p.cells s.occupancy

theorem patchAt_without (p : Patch) (c : Cell) :
    (s.without p).patchAt c = if p.covers c then none else s.patchAt c := by
  have : ∀ (cells : List PatchCell) (m : Std.HashMap Cell PatchId),
      (cells.foldl (fun m c => m.erase c.cell) m)[c]? = if cells.any (·.cell == c) then none else m[c]? := by
    intro cells
    induction cells with
    | nil => intro m; rfl
    | cons d cells ih =>
      intro m
      rw [List.foldl_cons, ih, Std.HashMap.getElem?_erase, List.any_cons]
      cases d.cell == c <;> simp
  exact this p.cells s.occupancy

theorem mem_without (hw : s.WellFormed) {p q : Patch} (hp : p ∈ s.patches) :
    q ∈ (s.without p).patches ↔ q ∈ s.patches ∧ q ≠ p := by
  have : ∀ {l : List Patch}, (l.map (·.id)).Nodup → p ∈ l → (q ∈ l.eraseP (·.id == p.id) ↔ q ∈ l ∧ q ≠ p) := by
    intro l
    induction l with
    | nil => intro _ hp; cases hp
    | cons a l ih =>
      intro hn hp
      have hn' := List.nodup_cons.mp (List.map_cons .. ▸ hn)
      by_cases ha : a = p
      · subst ha
        rw [List.eraseP_cons_of_pos (by simp)]
        have hal : a ∉ l := fun h => hn'.1 (List.mem_map.mpr ⟨a, h, rfl⟩)
        refine ⟨fun hq => ⟨List.mem_cons_of_mem _ hq, fun e => hal (e ▸ hq)⟩, fun ⟨hq, hne⟩ => ?_⟩
        exact (List.mem_cons.mp hq).resolve_left hne
      · have hid : a.id ≠ p.id := fun e => ha (eq_of_id_eq hn (List.mem_cons_self ..) hp e)
        have hpl : p ∈ l := (List.mem_cons.mp hp).resolve_left (Ne.symm ha)
        rw [List.eraseP_cons_of_neg (by simpa using hid), List.mem_cons, List.mem_cons, ih hn'.2 hpl, or_and_right]
        refine or_congr_left ⟨fun e => ⟨e, e ▸ ha⟩, And.left⟩
  exact this hw.ids hp

/-! ## Preservation -/

theorem wellFormed_empty (rows cols : UInt32) : (empty rows cols).WellFormed where
  ids := List.nodup_nil
  filled := nofun
  inside := nofun
  covered {c id} := by simp [empty, patchAt]
  paid c := by simp [empty, cost]

theorem WellFormed.place (hw : s.WellFormed) {p : Patch} (h : s.place p = .ok s') : s'.WellFormed := by
  obtain ⟨hne, hid, hfree, rfl⟩ := place_eq_ok.mp h
  have free : ∀ {c}, p.covers c = true → s.inBounds c = true ∧ s.patchAt c = none := fun {c} hc => by
    obtain ⟨d, hd, rfl⟩ := covers_iff.mp hc
    exact hfree d hd
  refine ⟨?_, fun q hq => ?_, fun q hq {c} hc => ?_, fun {c id} => ?_, hw.paid⟩
  · simp only [placed, List.map_append, List.map_cons, List.map_nil]
    refine List.nodup_append.mpr ⟨hw.ids, List.pairwise_singleton .., fun a ha b hb => ?_⟩
    obtain ⟨q, hq, rfl⟩ := List.mem_map.mp ha
    rw [List.mem_singleton.mp hb]
    exact hid q hq
  · rcases List.mem_append.mp hq with hq | hq
    · exact hw.filled q hq
    · rw [List.mem_singleton.mp hq]; exact hne
  · rcases List.mem_append.mp hq with hq | hq
    · exact hw.inside q hq hc
    · rw [List.mem_singleton.mp hq] at hc
      exact (free hc).1
  · rw [patchAt_placed]
    simp only [placed, List.mem_append, List.mem_singleton, or_and_right, exists_or, exists_eq_left, ← hw.covered]
    by_cases hc : p.covers c = true
    · simp [hc, (free hc).2]
    · simp [hc]

theorem WellFormed.remove (hw : s.WellFormed) {id : PatchId} {p : Patch} (h : s.remove id = .ok (p, s')) :
    s'.WellFormed := by
  obtain ⟨hp, -, rfl⟩ := remove_eq_ok h
  refine ⟨?_, fun q hq => ?_, fun q hq {c} hc => ?_, fun {c id} => ?_, hw.paid⟩
  · exact hw.ids.sublist (List.eraseP_sublist.map _)
  · exact hw.filled q ((mem_without hw hp).mp hq).1
  · exact hw.inside q ((mem_without hw hp).mp hq).1 hc
  · rw [patchAt_without]
    by_cases hc : p.covers c = true
    · rw [if_pos hc]
      refine ⟨nofun, fun ⟨q, hq, _, hqc⟩ => ?_⟩
      obtain ⟨hq, hne⟩ := (mem_without hw hp).mp hq
      exact absurd (hw.disjoint hq hp hqc hc) hne
    · rw [if_neg hc, hw.covered]
      apply exists_congr
      intro q
      rw [mem_without hw hp, and_assoc]
      exact and_congr_right fun _ => ⟨fun h => ⟨fun e => hc (e ▸ h.2), h⟩, And.right⟩

theorem WellFormed.setCost (hw : s.WellFormed) {c : Cell} {cost : UInt32} (h : s.setCost c cost = .ok s') :
    s'.WellFormed := by
  obtain ⟨-, rfl⟩ := setCost_eq_ok h
  refine ⟨hw.ids, hw.filled, hw.inside, hw.covered, fun d => ?_⟩
  simp only [Slice.cost, Std.HashMap.getElem?_insert]
  split
  · rw [Option.getD_some, show max cost 1 = if cost ≤ 1 then 1 else cost from rfl]
    split
    · decide
    · rename_i h
      rw [UInt32.le_iff_toNat_le] at h
      simp at h
      omega
  · exact hw.paid d

/-! An edit that is refused leaves the slice as it is. -/

theorem perform_place_cases (s : Slice) (p : Patch) : (∃ f, s.place p = .error f) ∧ s.perform (.place p) = s ∨
    s.place p = .ok (s.placed p) ∧ s.perform (.place p) = s.placed p := by
  cases h : s.place p with
  | error f => exact .inl ⟨⟨f, rfl⟩, by simp [perform, h, Except.toOption]⟩
  | ok t =>
    obtain ⟨-, -, -, rfl⟩ := place_eq_ok.mp h
    exact .inr ⟨rfl, by simp [perform, h, Except.toOption]⟩

theorem perform_remove_cases (s : Slice) (id : PatchId) : (∃ f, s.remove id = .error f) ∧ s.perform (.remove id) = s ∨
    ∃ p ∈ s.patches, p.id = id ∧ s.remove id = .ok (p, s.without p) ∧ s.perform (.remove id) = s.without p := by
  cases h : s.remove id with
  | error f => exact .inl ⟨⟨f, rfl⟩, by simp [perform, h, Except.toOption]⟩
  | ok r =>
    obtain ⟨p, t⟩ := r
    obtain ⟨hp, hid, rfl⟩ := remove_eq_ok h
    exact .inr ⟨p, hp, hid, rfl, by simp [perform, h, Except.toOption]⟩

theorem perform_setCost_cases (s : Slice) (c : Cell) (cost : UInt32) :
    (∃ f, s.setCost c cost = .error f) ∧ s.perform (.setCost c cost) = s ∨
      s.setCost c cost = .ok { s with costs := s.costs.insert c (max cost 1) } ∧
        s.perform (.setCost c cost) = { s with costs := s.costs.insert c (max cost 1) } := by
  cases h : s.setCost c cost with
  | error f => exact .inl ⟨⟨f, rfl⟩, by simp [perform, h, Except.toOption]⟩
  | ok t =>
    obtain ⟨-, rfl⟩ := setCost_eq_ok h
    exact .inr ⟨rfl, by simp [perform, h, Except.toOption]⟩

theorem WellFormed.remove_placed (hw : s.WellFormed) {p : Patch} (hp : p ∈ s.patches) :
    s.remove p.id = .ok (p, s.without p) := by
  rw [Slice.remove, hw.getPatch hp]
  rfl

theorem WellFormed.perform_remove (hw : s.WellFormed) {p : Patch} (hp : p ∈ s.patches) :
    s.perform (.remove p.id) = s.without p := by
  rw [Slice.perform, hw.remove_placed hp]
  rfl

theorem WellFormed.perform (hw : s.WellFormed) (e : Edit) : (s.perform e).WellFormed := by
  cases e with
  | place p =>
    rcases perform_place_cases s p with ⟨-, h⟩ | ⟨hok, h⟩
    · rw [h]; exact hw
    · rw [h]; exact hw.place hok
  | remove id =>
    rcases perform_remove_cases s id with ⟨-, h⟩ | ⟨p, -, -, hok, h⟩
    · rw [h]; exact hw
    · rw [h]; exact hw.remove hok
  | setCost c cost =>
    rcases perform_setCost_cases s c cost with ⟨-, h⟩ | ⟨hok, h⟩
    · rw [h]; exact hw
    · rw [h]; exact hw.setCost hok

theorem WellFormed.performAll (hw : s.WellFormed) (edits : List Edit) : (s.performAll edits).WellFormed := by
  induction edits generalizing s with
  | nil => exact hw
  | cons e edits ih => exact ih (hw.perform e)

theorem Reachable.wellFormed (h : s.Reachable) : s.WellFormed := by
  obtain ⟨rows, cols, edits, rfl⟩ := h
  exact (wellFormed_empty rows cols).performAll edits

/-! ## The listing of cells -/

theorem lt_listed {n : Nat} {size : UInt32} : n < listed size ↔ size.toNat ≤ 2147483647 ∧ n < size.toNat := by
  unfold listed
  split <;> omega

/-- All cells of the grid are listed, unless an axis is too long. Then none is. -/
theorem mem_cells_iff {c : Cell} : c ∈ s.cells ↔ s.Addressable ∧ s.inBounds c = true := by
  simp only [cells, List.mem_flatMap, List.mem_map, List.mem_range, lt_listed, inBounds_iff]
  constructor
  · rintro ⟨r, ⟨hrows, hr⟩, k, ⟨hcols, hk⟩, rfl⟩
    refine ⟨⟨hrows, hcols⟩, ?_⟩
    simp only [cellAt]
    rw [Int32.toInt_ofNat_of_lt (by omega), Int32.toInt_ofNat_of_lt (by omega)]
    omega
  · rintro ⟨⟨hrows, hcols⟩, h1, h2, h3, h4⟩
    refine ⟨c.row.toInt.toNat, ⟨hrows, by omega⟩, c.col.toInt.toNat, ⟨hcols, by omega⟩, Cell.ext_iff'.mpr ?_⟩
    simp only [cellAt]
    rw [Int32.toInt_ofNat_of_lt (by omega), Int32.toInt_ofNat_of_lt (by omega)]
    omega

theorem mem_cells (hf : s.Fits) {c : Cell} : c ∈ s.cells ↔ s.inBounds c = true :=
  mem_cells_iff.trans (and_iff_right hf.addressable)

theorem length_cells (hf : s.Fits) : s.cells.length = s.rows.toNat * s.cols.toNat := by
  have hr : listed s.rows = s.rows.toNat := if_pos (by have := hf.rows_le; omega)
  have hc : listed s.cols = s.cols.toNat := if_pos (by have := hf.cols_le; omega)
  simp [cells, hr, hc, List.length_flatMap, List.map_const']

end Slice

end AncillaRouting
