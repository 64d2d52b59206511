import AncillaRouting.Proofs.DirectRoutes

/-!
# When a patch is placed

A patch is placed if it has a cell, its id is not in use and all its cells are vacant. Otherwise the error names
the first reason against it, and the slice is what it was, although it is changed in place.
-/

namespace AncillaRouting

open Outcome

namespace Slice

variable {s t : Slice} {p : Patch} {c : Cell} {e : SliceError}

/-! ## Why a patch is refused -/

/-- The cell is on the grid and no patch covers it. -/
structure Vacant (s : Slice) (c : Cell) : Prop where
  inBounds : s.inBounds c = true
  uncovered : ∀ q ∈ s.patches, q.covers c = false

/-- The first reason against a patch. Only where none of its listed cells before `d` is to blame, `d` may be. -/
inductive Refused (s : Slice) (p : Patch) : SliceError → Prop where
  | empty (h : p.cells = []) : Refused s p (.emptyPatch p.id)
  | duplicate {q : Patch} (hne : p.cells ≠ []) (hq : q ∈ s.patches) (hid : q.id = p.id) :
      Refused s p (.duplicatePatch p.id)
  | outOfBounds {before after : List PatchCell} {d : PatchCell} (hnew : ∀ q ∈ s.patches, q.id ≠ p.id)
      (split : p.cells = before ++ d :: after) (hbefore : ∀ b ∈ before, s.Vacant b.cell)
      (h : s.inBounds d.cell = false) : Refused s p (.cellOutOfBounds d.cell s.rows s.cols)
  | occupied {before after : List PatchCell} {d : PatchCell} {q : Patch} (hnew : ∀ q ∈ s.patches, q.id ≠ p.id)
      (split : p.cells = before ++ d :: after) (hbefore : ∀ b ∈ before, s.Vacant b.cell)
      (hq : q ∈ s.patches) (h : q.covers d.cell = true) : Refused s p (.cellOccupied d.cell q.id)

theorem WellFormed.vacant_iff (hw : s.WellFormed) : s.Vacant c ↔ s.checkFree c = .ok () := by
  rw [checkFree_eq_ok, ← Slice.isFree_iff, hw.isFree_iff]
  exact ⟨fun h => ⟨h.inBounds, h.uncovered⟩, fun h => ⟨h.1, h.2⟩⟩

theorem WellFormed.checkFree_eq_error (hw : s.WellFormed) : s.checkFree c = .error e ↔
    (s.inBounds c = false ∧ e = .cellOutOfBounds c s.rows s.cols) ∨
      ∃ q ∈ s.patches, q.covers c = true ∧ e = .cellOccupied c q.id := by
  unfold checkFree checkBounds
  by_cases hb : s.inBounds c = true
  · rw [if_pos hb]
    constructor
    · intro h
      cases hp : s.patchAt c with
      | none => rw [hp] at h; cases h
      | some id =>
        rw [hp] at h
        cases h
        obtain ⟨q, hq, rfl, hc⟩ := hw.covered.mp hp
        exact .inr ⟨q, hq, hc, rfl⟩
    · intro h
      rcases h with ⟨h, -⟩ | ⟨q, hq, hc, rfl⟩
      · rw [hb] at h; cases h
      · rw [hw.covered.mpr ⟨q, hq, rfl, hc⟩]; rfl
  · rw [if_neg hb]
    constructor
    · intro h
      cases h
      exact .inl ⟨Bool.eq_false_iff.mpr hb, rfl⟩
    · intro h
      rcases h with ⟨-, rfl⟩ | ⟨q, hq, hc, -⟩
      · rfl
      · exact absurd (hw.inside q hq hc) hb

theorem place_eq_error : s.place p = .error e ↔ (p.cells = [] ∧ e = .emptyPatch p.id) ∨
    (p.cells ≠ [] ∧ (∃ q ∈ s.patches, q.id = p.id) ∧ e = .duplicatePatch p.id) ∨
      (∀ q ∈ s.patches, q.id ≠ p.id) ∧ (p.cells.forM fun c => s.checkFree c.cell) = .error e := by
  unfold place
  by_cases he : p.cells = []
  · rw [if_pos (List.isEmpty_iff.mpr he), he]
    constructor
    · intro h
      cases h
      exact .inl ⟨rfl, rfl⟩
    · intro h
      rcases h with ⟨-, rfl⟩ | ⟨hne, -⟩ | ⟨-, h⟩
      · rfl
      · exact absurd rfl hne
      · cases h
  · rw [if_neg (mt List.isEmpty_iff.mp he)]
    by_cases hd : ∃ q ∈ s.patches, q.id = p.id
    · rw [if_pos (by simpa using hd)]
      constructor
      · intro h
        cases h
        exact .inr (.inl ⟨he, hd, rfl⟩)
      · intro h
        rcases h with ⟨h, -⟩ | ⟨-, -, rfl⟩ | ⟨hnew, -⟩
        · exact absurd h he
        · rfl
        · obtain ⟨q, hq, hid⟩ := hd
          exact absurd hid (hnew q hq)
    · rw [if_neg (by simpa using hd), bind_eq_error]
      constructor
      · intro h
        rcases h with h | ⟨_, _, h⟩
        · exact .inr (.inr ⟨fun q hq hid => hd ⟨q, hq, hid⟩, h⟩)
        · cases h
      · intro h
        rcases h with ⟨h, -⟩ | ⟨-, h, -⟩ | ⟨-, h⟩
        · exact absurd h he
        · exact absurd h hd
        · exact .inl h

theorem WellFormed.place_eq_error_iff (hw : s.WellFormed) : s.place p = .error e ↔ s.Refused p e := by
  have hvacant : ∀ {l : List PatchCell}, (∀ b ∈ l, s.Vacant b.cell) ↔ ∀ b ∈ l, s.checkFree b.cell = .ok () :=
    forall₂_congr fun b _ => hw.vacant_iff
  rw [place_eq_error, forM_eq_error]
  constructor
  · intro h
    rcases h with ⟨h, rfl⟩ | ⟨hne, ⟨q, hq, hid⟩, rfl⟩ | ⟨hnew, before, d, after, split, hbefore, h⟩
    · exact .empty h
    · exact .duplicate hne hq hid
    · rcases hw.checkFree_eq_error.mp h with ⟨hout, rfl⟩ | ⟨q, hq, hcovers, rfl⟩
      · exact .outOfBounds hnew split (hvacant.mpr hbefore) hout
      · exact .occupied hnew split (hvacant.mpr hbefore) hq hcovers
  · intro h
    cases h with
    | empty h => exact .inl ⟨h, rfl⟩
    | duplicate hne hq hid => exact .inr (.inl ⟨hne, ⟨_, hq, hid⟩, rfl⟩)
    | outOfBounds hnew split hbefore h =>
      exact .inr (.inr ⟨hnew, _, _, _, split, hvacant.mp hbefore, hw.checkFree_eq_error.mpr (.inl ⟨h, rfl⟩)⟩)
    | occupied hnew split hbefore hq h =>
      exact .inr (.inr ⟨hnew, _, _, _, split, hvacant.mp hbefore, hw.checkFree_eq_error.mpr (.inr ⟨_, hq, h, rfl⟩)⟩)

/-! ## Changing a slice in place -/

theorem run_require (test : Slice → Except SliceError Unit) (s : Slice) :
    (require test).run s = settle s ((test s).map (·, s)) := by
  unfold require
  rw [EStateM.run_bind]
  exact run_ofExcept (test s) s

theorem run_requires (cells : List PatchCell) (s : Slice) :
    (cells.forM fun c => require (·.checkFree c.cell)).run s =
      settle s ((cells.forM fun c => s.checkFree c.cell).map (·, s)) := by
  induction cells with
  | nil => rfl
  | cons c cells ih =>
    -- a test writes nothing, so the next one sees the slice of the first
    rw [List.forM, List.forM, EStateM.run_bind, run_require]
    cases s.checkFree c.cell with
    | error e => rfl
    | ok _ => exact ih

theorem run_occupy (id : PatchId) (cells : List PatchCell) (s : Slice) :
    (cells.forM fun c => occupy c.cell id).run s =
      .ok () { s with occupancy := cells.foldl (fun m c => m.insert c.cell id) s.occupancy } := by
  induction cells generalizing s with
  | nil => rfl
  | cons c cells ih =>
    rw [List.forM]
    exact ih _

theorem run_vacate (cells : List PatchCell) (s : Slice) : (cells.forM fun c => vacate c.cell).run s =
    .ok () { s with occupancy := cells.foldl (fun m c => m.erase c.cell) s.occupancy } := by
  induction cells generalizing s with
  | nil => rfl
  | cons c cells ih =>
    rw [List.forM]
    exact ih _

/-- In place, a patch is placed just as it is on a copy, and what is refused was not begun. -/
theorem run_placeInPlace (p : Patch) (s : Slice) : (placeInPlace p).run s = settle s ((s.place p).map ((), ·)) := by
  unfold placeInPlace place
  by_cases he : p.cells.isEmpty = true
  · rw [if_pos he, if_pos he]; rfl
  · rw [if_neg he, if_neg he, EStateM.run_bind]
    by_cases hd : (s.patches.any (·.id == p.id)) = true
    · simp only [EStateM.run_get]
      rw [if_pos hd, if_pos hd]
      rfl
    · simp only [EStateM.run_get]
      rw [if_neg hd, if_neg hd, EStateM.run_bind, run_requires]
      cases p.cells.forM fun c => s.checkFree c.cell with
      | error e => rfl
      | ok _ =>
        simp only [Except.map, settle]
        rw [EStateM.run_bind, run_occupy]
        rfl

theorem run_removeInPlace (id : PatchId) (s : Slice) : (removeInPlace id).run s = settle s (s.remove id) := by
  unfold removeInPlace delist remove
  simp only [EStateM.run_bind, EStateM.run_get, run_ofExcept]
  cases s.getPatch id with
  | error e => rfl
  | ok p =>
    simp only [Except.map, settle, EStateM.run_modify, EStateM.run_pure, run_vacate]
    rfl

theorem run_setCostInPlace (c : Cell) (cost : UInt32) (s : Slice) :
    (setCostInPlace c cost).run s = settle s ((s.setCost c cost).map ((), ·)) := by
  unfold setCostInPlace setCost
  rw [EStateM.run_bind, run_require]
  cases s.checkBounds c <;> rfl

/-- In place, an edit does what it does to a history, and one that fails was not begun. -/
theorem run_performInPlace (e : Edit) (s : Slice) : (performInPlace e).run s = .ok () (s.perform e) ∨
    ∃ f, (performInPlace e).run s = .error f s ∧ s.perform e = s := by
  cases e with
  | place p =>
    rw [performInPlace, run_placeInPlace, perform]
    cases s.place p with
    | ok t => exact .inl rfl
    | error f => exact .inr ⟨f, rfl, rfl⟩
  | remove id =>
    rw [performInPlace, EStateM.run_bind, run_removeInPlace, perform]
    cases s.remove id with
    | ok r => exact .inl rfl
    | error f => exact .inr ⟨f, rfl, rfl⟩
  | setCost c cost =>
    rw [performInPlace, run_setCostInPlace, perform]
    cases s.setCost c cost with
    | ok t => exact .inl rfl
    | error f => exact .inr ⟨f, rfl, rfl⟩

/-- A patch is placed if and only if it has a cell, its id is new and its cells are vacant. Otherwise it is refused
for the first reason against it. In place, a patch that is not refused makes the slice what it is to be, and one
that is refused leaves the slice just as it was. -/
theorem placed_or_untouched (hs : s.Reachable) (p : Patch) :
    ((∃ t, s.place p = .ok t) ↔ p.cells ≠ [] ∧ (∀ q ∈ s.patches, q.id ≠ p.id) ∧ ∀ d ∈ p.cells, s.Vacant d.cell) ∧
      (∀ e, s.place p = .error e ↔ s.Refused p e) ∧
      (∀ t, (placeInPlace p).run s = .ok () t ↔ s.place p = .ok t) ∧
      ∀ e t, (placeInPlace p).run s = .error e t ↔ s.Refused p e ∧ t = s := by
  have hw := hs.wellFormed
  have hvacant : (∀ d ∈ p.cells, s.Vacant d.cell) ↔ ∀ d ∈ p.cells, s.inBounds d.cell = true ∧ s.patchAt d.cell = none :=
    forall₂_congr fun d _ => hw.vacant_iff.trans checkFree_eq_ok
  refine ⟨?_, fun e => hw.place_eq_error_iff, fun t => ?_, fun e t => ?_⟩
  · rw [hvacant]
    constructor
    · intro ⟨t, h⟩
      obtain ⟨hne, hnew, hcells, -⟩ := place_eq_ok.mp h
      exact ⟨hne, hnew, hcells⟩
    · intro ⟨hne, hnew, hcells⟩
      exact ⟨_, place_eq_ok.mpr ⟨hne, hnew, hcells, rfl⟩⟩
  · rw [run_placeInPlace, settle_eq_ok]
    cases s.place p <;> simp [Except.map]
  · rw [run_placeInPlace, settle_eq_error, ← hw.place_eq_error_iff]
    cases s.place p <;> simp [Except.map]

/-- In the corridor its first cell is vacant, its second is covered and its third is not on the grid. -/
def sprawl : Patch := ⟨⟨2⟩, [⟨⟨0, 1⟩, .none⟩, ⟨⟨0, 0⟩, .none⟩, ⟨⟨5, 5⟩, .none⟩]⟩

theorem placed_or_untouched_corridor :
    (placeInPlace sprawl).run corridor = .error (.cellOccupied ⟨0, 0⟩ ⟨0⟩) corridor := by
  have hnew : ∀ q ∈ corridor.patches, q.id ≠ sprawl.id := by rw [corridor_patches]; decide
  have hfree := corridor_connects.usable ⟨0, 1⟩ (List.mem_cons_self ..)
  have hbefore : ∀ b ∈ [(⟨⟨0, 1⟩, .none⟩ : PatchCell)], corridor.Vacant b.cell :=
    List.forall_mem_singleton.mpr ⟨hfree.inBounds, hfree.uncovered⟩
  have split : sprawl.cells = [⟨⟨0, 1⟩, .none⟩] ++ ⟨⟨0, 0⟩, .none⟩ :: [⟨⟨5, 5⟩, .none⟩] := rfl
  have hrefused := Refused.occupied hnew split hbefore corridor_left rfl
  exact ((placed_or_untouched corridor_reachable sprawl).2.2.2 _ _).mpr ⟨hrefused, rfl⟩

end Slice

end AncillaRouting
