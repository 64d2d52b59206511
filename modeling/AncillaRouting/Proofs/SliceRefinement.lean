import AncillaRouting.Proofs.SliceInvariant
import AncillaRouting.Slice.Board
import Mathlib.Data.List.Basic
import Mathlib.Data.List.Induction

/-!
# A slice does what its board does

The occupancy of a slice repeats what the list of its patches says. Every operation has the same outcome
on the slice and on its board, so that the history of a slice is the history of a board, and what a slice
answers can be read off the placed patches and the costs that were set.
-/

namespace AncillaRouting

open Outcome

namespace Slice

variable {s : Slice}

/-! ## Queries -/

theorem board_inBounds (c : Cell) : s.board.inBounds c = s.inBounds c := by
  rw [Bool.eq_iff_iff, inBounds_iff, Board.inBounds, decide_eq_true_iff]
  exact ⟨fun ⟨h1, h2, h3, h4⟩ => ⟨h1, h3, h2, h4⟩, fun ⟨h1, h2, h3, h4⟩ => ⟨h1, h3, h2, h4⟩⟩

theorem WellFormed.board_patchAt (hw : s.WellFormed) (c : Cell) : s.board.patchAt c = s.patchAt c := by
  have hfind : ∀ id, s.board.patchAt c = some id ↔ ∃ p, s.patches.find? (·.covers c) = some p ∧ p.id = id :=
    fun id => Option.map_eq_some_iff
  apply Option.ext
  intro id
  rw [hfind, hw.covered]
  constructor
  · rintro ⟨p, hp, rfl⟩
    exact ⟨p, List.mem_of_find?_eq_some hp, rfl, List.find?_some (p := fun p : Patch => p.covers c) hp⟩
  · rintro ⟨p, hp, rfl, hc⟩
    obtain ⟨q, hq⟩ := Option.isSome_iff_exists.mp (List.find?_isSome (p := fun p : Patch => p.covers c).mpr ⟨p, hp, hc⟩)
    -- the first patch that covers the cell is the only one
    have hqc := List.find?_some (p := fun p : Patch => p.covers c) hq
    exact ⟨q, hq, by rw [hw.disjoint (List.mem_of_find?_eq_some hq) hp hqc hc]⟩

theorem WellFormed.getPatch_iff (hw : s.WellFormed) {id : PatchId} {p : Patch} :
    s.getPatch id = .ok p ↔ p ∈ s.patches ∧ p.id = id :=
  ⟨getPatch_eq_ok, fun ⟨hp, hid⟩ => hid ▸ hw.getPatch hp⟩

theorem getPatch_error_iff {id : PatchId} {e : SliceError} :
    s.getPatch id = .error e ↔ e = .patchNotFound id ∧ ∀ p ∈ s.patches, p.id ≠ id := by
  refine ⟨getPatch_eq_error, fun ⟨he, hn⟩ => ?_⟩
  cases h : s.getPatch id with
  | ok p =>
    obtain ⟨hp, hid⟩ := getPatch_eq_ok h
    exact absurd hid (hn p hp)
  | error f => rw [he, (getPatch_eq_error h).1]

/-! ## Operations -/

/-- Refuses for the reason given, if there is one. -/
def refusal {ε : Type} : Option ε → Except ε Unit
  | some e => .error e
  | none => .ok ()

theorem forM_refusal {ε α : Type} {f : α → Except ε Unit} {g : α → Option ε} (h : ∀ x, f x = refusal (g x)) :
    ∀ l : List α, l.forM f = refusal (l.findSome? g)
  | [] => rfl
  | x :: l => by
    show (f x >>= fun _ => l.forM f) = _
    rw [h, List.findSome?_cons]
    cases g x with
    | none => exact forM_refusal h l
    | some e => rfl

theorem WellFormed.checkFree_eq (hw : s.WellFormed) (c : Cell) : s.checkFree c = refusal (s.board.objection c) := by
  unfold checkFree checkBounds Board.objection
  rw [board_inBounds, hw.board_patchAt]
  cases s.inBounds c <;> cases s.patchAt c <;> rfl

theorem WellFormed.board_place (hw : s.WellFormed) (p : Patch) : (s.place p).map board = s.board.place p := by
  have hids : p.id ∈ s.board.patches.map (·.id) ↔ s.patches.any (·.id == p.id) = true := by
    simp [board]
  have hcells : (p.cells.forM fun c => s.checkFree c.cell) = refusal (p.cells.findSome? (s.board.objection ·.cell)) :=
    forM_refusal (g := fun c : PatchCell => s.board.objection c.cell) (fun c => hw.checkFree_eq c.cell) p.cells
  unfold Slice.place Board.place
  by_cases he : p.cells = []
  · rw [if_pos (List.isEmpty_iff.mpr he), if_pos he]; rfl
  · rw [if_neg (mt List.isEmpty_iff.mp he), if_neg he]
    by_cases hd : p.id ∈ s.board.patches.map (·.id)
    · rw [if_pos (hids.mp hd), if_pos hd]; rfl
    · rw [if_neg (mt hids.mpr hd), if_neg hd, hcells]
      cases p.cells.findSome? (s.board.objection ·.cell) with
      | none => rfl
      | some e => rfl

theorem eraseP_eq_filter {id : PatchId} : ∀ {l : List Patch}, (l.map (·.id)).Nodup →
    l.eraseP (·.id == id) = l.filter (·.id != id)
  | [], _ => rfl
  | p :: l, hn => by
    rw [List.map_cons, List.nodup_cons] at hn
    by_cases hp : p.id = id
    · have hrest : l.filter (·.id != id) = l := List.filter_eq_self.mpr fun q hq => by
        have : q.id ≠ id := fun h => hn.1 (List.mem_map.mpr ⟨q, hq, h.trans hp.symm⟩)
        simpa using this
      rw [List.eraseP_cons_of_pos (by simpa using hp), List.filter_cons_of_neg (by simpa using hp), hrest]
    · rw [List.eraseP_cons_of_neg (by simpa using hp), List.filter_cons_of_pos (by simpa using hp),
        eraseP_eq_filter hn.2]

theorem WellFormed.board_remove (hw : s.WellFormed) (id : PatchId) :
    (s.remove id).map (fun r => (r.1, r.2.board)) = s.board.remove id := by
  have hfound : s.board.patches.find? (·.id == id) = s.patches.find? (·.id == id) := rfl
  unfold Slice.remove Slice.getPatch Board.remove
  rw [hfound]
  cases s.patches.find? (·.id == id) with
  | none => rfl
  | some p =>
    have hrest : s.patches.eraseP (·.id == id) = s.patches.filter (·.id != id) := eraseP_eq_filter hw.ids
    show Except.ok (p, board { s with patches := s.patches.eraseP (·.id == id), occupancy := _ }) = _
    rw [hrest]; rfl

theorem cost_insert (c d : Cell) (cost : UInt32) :
    ({ s with costs := s.costs.insert c cost } : Slice).cost d = if d = c then cost else s.cost d := by
  show (s.costs.insert c cost)[d]?.getD 1 = _
  rw [Std.HashMap.getElem?_insert]
  by_cases hd : d = c
  · simp [hd]
  · simp [hd, Ne.symm hd, Slice.cost]

theorem board_setCost (c : Cell) (cost : UInt32) : (s.setCost c cost).map board = s.board.setCost c cost := by
  unfold Slice.setCost checkBounds Board.setCost
  rw [board_inBounds]
  cases s.inBounds c with
  | false => rfl
  | true =>
    exact congrArg (fun cost => Except.ok (⟨s.rows, s.cols, s.patches, cost⟩ : Board))
      (funext fun d => cost_insert c d (max cost 1))

theorem WellFormed.board_perform (hw : s.WellFormed) (e : Edit) : (s.perform e).board = s.board.perform e := by
  cases e with
  | place p =>
    rw [Board.perform, ← hw.board_place, Slice.perform]
    cases s.place p <;> rfl
  | remove id =>
    rw [Board.perform, ← hw.board_remove, Slice.perform]
    cases s.remove id <;> rfl
  | setCost c cost =>
    rw [Board.perform, ← board_setCost, Slice.perform]
    cases s.setCost c cost <;> rfl

theorem WellFormed.board_performAll (hw : s.WellFormed) (edits : List Edit) :
    (s.performAll edits).board = s.board.performAll edits := by
  induction edits generalizing s with
  | nil => rfl
  | cons e edits ih =>
    show ((s.perform e).performAll edits).board = (s.board.perform e).performAll edits
    rw [ih (hw.perform e), hw.board_perform]

/-! ## Costs -/

/-- After the edits `before`, the cost of `c` was set to `cost`, and this was not refused. -/
def PricedAfter (s : Slice) (c : Cell) (cost : UInt32) (edits before : List Edit) : Prop :=
  ∃ after t, edits = before ++ .setCost c cost :: after ∧ (s.performAll before).setCost c cost = .ok t

/-- That was the last time that the cost of `c` was set. -/
def LastPriced (s : Slice) (c : Cell) (cost : UInt32) (edits : List Edit) : Prop :=
  ∃ before, s.PricedAfter c cost edits before ∧
    ∀ other earlier, s.PricedAfter c other edits earlier → earlier.length ≤ before.length

variable {c : Cell} {cost : UInt32} {edits before : List Edit}

theorem PricedAfter.length_lt (h : s.PricedAfter c cost edits before) : before.length < edits.length := by
  obtain ⟨after, t, rfl, -⟩ := h
  simp

theorem pricedAfter_concat {e : Edit} : s.PricedAfter c cost (edits ++ [e]) before ↔
    s.PricedAfter c cost edits before ∨
      (e = .setCost c cost ∧ before = edits ∧ ∃ t, (s.performAll edits).setCost c cost = .ok t) := by
  constructor
  · rintro ⟨after, t, h, ht⟩
    -- the cost was set by the last edit or before it
    rcases List.eq_nil_or_concat' after with rfl | ⟨after, last, rfl⟩
    · obtain ⟨rfl, he⟩ := List.append_inj' h rfl
      exact .inr ⟨(List.cons.inj he).1, rfl, t, ht⟩
    · rw [← List.cons_append, ← List.append_assoc] at h
      exact .inl ⟨after, t, (List.append_inj' h rfl).1, ht⟩
  · rintro (⟨after, t, rfl, ht⟩ | ⟨rfl, rfl, t, ht⟩)
    · exact ⟨after ++ [e], t, by simp, ht⟩
    · exact ⟨[], t, rfl, ht⟩

theorem cost_perform (s : Slice) (e : Edit) (c : Cell) :
    (∃ cost t, e = .setCost c cost ∧ s.setCost c cost = .ok t ∧ (s.perform e).cost c = max cost 1) ∨
      (∀ cost t, e = .setCost c cost → s.setCost c cost ≠ .ok t) ∧ (s.perform e).cost c = s.cost c := by
  cases e with
  | place p =>
    rcases perform_place_cases s p with ⟨-, h⟩ | ⟨-, h⟩
    · exact .inr ⟨nofun, by rw [h]⟩
    · exact .inr ⟨nofun, by rw [h]; rfl⟩
  | remove id =>
    rcases perform_remove_cases s id with ⟨-, h⟩ | ⟨p, -, -, -, h⟩
    · exact .inr ⟨nofun, by rw [h]⟩
    · exact .inr ⟨nofun, by rw [h]; rfl⟩
  | setCost d cost =>
    rcases perform_setCost_cases s d cost with ⟨⟨f, hf⟩, h⟩ | ⟨hok, h⟩
    · refine .inr ⟨fun cost' t he => ?_, by rw [h]⟩
      cases he
      rw [hf]; nofun
    · rw [h, cost_insert]
      by_cases hd : c = d
      · subst hd
        exact .inl ⟨cost, _, rfl, hok, if_pos rfl⟩
      · exact .inr ⟨fun cost' t he => absurd (Edit.setCost.inj he).1.symm hd, if_neg hd⟩

/-- Every cell costs what was last set for it, and at least 1, or else what it cost to begin with. -/
theorem cost_performAll (s : Slice) (edits : List Edit) (c : Cell) :
    (∃ cost, s.LastPriced c cost edits ∧ (s.performAll edits).cost c = max cost 1) ∨
      (∀ cost before, ¬ s.PricedAfter c cost edits before) ∧ (s.performAll edits).cost c = s.cost c := by
  induction edits using List.reverseRecOn with
  | nil => exact .inr ⟨fun cost before h => absurd h.length_lt (Nat.not_lt_zero _), rfl⟩
  | append_singleton edits e ih =>
    have hlast : s.performAll (edits ++ [e]) = (s.performAll edits).perform e := by simp [performAll]
    rw [hlast]
    rcases cost_perform (s.performAll edits) e c with ⟨cost, t, rfl, ht, hcost⟩ | ⟨hne, hcost⟩
    · refine .inl ⟨cost, ⟨edits, pricedAfter_concat.mpr (.inr ⟨rfl, rfl, t, ht⟩), fun other earlier h => ?_⟩, hcost⟩
      have := h.length_lt
      rw [List.length_append, List.length_singleton] at this
      omega
    · have hsame : ∀ {cost before}, s.PricedAfter c cost (edits ++ [e]) before → s.PricedAfter c cost edits before := by
        intro cost before h
        rcases pricedAfter_concat.mp h with h | ⟨he, -, t, ht⟩
        · exact h
        · exact absurd ht (hne cost t he)
      rw [hcost]
      rcases ih with ⟨cost, ⟨before, hb, hlater⟩, hc⟩ | ⟨hnone, hc⟩
      · exact .inl ⟨cost, ⟨before, pricedAfter_concat.mpr (.inl hb), fun other earlier h => hlater other earlier (hsame h)⟩, hc⟩
      · exact .inr ⟨fun cost before h => hnone cost before (hsame h), hc⟩

/-! ## Histories -/

theorem cost_empty (rows cols : UInt32) (c : Cell) : (empty rows cols).cost c = 1 := by simp [empty, Slice.cost]

theorem board_empty (rows cols : UInt32) : (empty rows cols).board = Board.empty rows cols :=
  congrArg (Board.mk rows cols []) (funext (cost_empty rows cols))

/-- The slice answers its queries as the list of its patches says. -/
structure Faithful (s : Slice) : Prop where
  ids : (s.patches.map (·.id)).Nodup
  filled : ∀ p ∈ s.patches, p.cells ≠ []
  inside : ∀ p ∈ s.patches, ∀ c, p.covers c = true → s.inBounds c = true
  disjoint : ∀ p ∈ s.patches, ∀ q ∈ s.patches, ∀ c, p.covers c = true → q.covers c = true → p = q
  patchAt : ∀ c id, s.patchAt c = some id ↔ ∃ p ∈ s.patches, p.id = id ∧ p.covers c = true
  isFree : ∀ c, s.isFree c = true ↔ s.inBounds c = true ∧ ∀ p ∈ s.patches, p.covers c = false
  found : ∀ id p, s.getPatch id = .ok p ↔ p ∈ s.patches ∧ p.id = id
  missing : ∀ id e, s.getPatch id = .error e ↔ e = .patchNotFound id ∧ ∀ p ∈ s.patches, p.id ≠ id

theorem WellFormed.faithful (hw : s.WellFormed) : s.Faithful where
  ids := hw.ids
  filled := hw.filled
  inside p hp _ := hw.inside p hp
  disjoint _ hp _ hq _ hpc hqc := hw.disjoint hp hq hpc hqc
  patchAt _ _ := hw.covered
  isFree _ := hw.isFree_iff
  found _ _ := hw.getPatch_iff
  missing _ _ := getPatch_error_iff

/-- The board is that of the slice, and every operation has the same outcome on both. -/
structure Refines (s : Slice) (b : Board) : Prop where
  board_eq : s.board = b
  place : ∀ p, (s.place p).map board = b.place p
  remove : ∀ id, (s.remove id).map (fun r => (r.1, r.2.board)) = b.remove id
  setCost : ∀ c cost, (s.setCost c cost).map board = b.setCost c cost

theorem WellFormed.refines (hw : s.WellFormed) : s.Refines s.board where
  board_eq := rfl
  place := hw.board_place
  remove := hw.board_remove
  setCost := board_setCost

/-- Whatever was placed, removed and priced, in whatever order and with whatever success, a slice has
come as far as its board, it answers by its patches, and a cell costs what was last set for it, or 1. -/
theorem history_refines (rows cols : UInt32) (edits : List Edit) :
    ((empty rows cols).performAll edits).Refines ((Board.empty rows cols).performAll edits) ∧
      ((empty rows cols).performAll edits).Faithful ∧
      ∀ c, (∃ cost, (empty rows cols).LastPriced c cost edits ∧
          ((empty rows cols).performAll edits).cost c = max cost 1) ∨
        (∀ cost before, ¬ (empty rows cols).PricedAfter c cost edits before) ∧
          ((empty rows cols).performAll edits).cost c = 1 := by
  have hstart := wellFormed_empty rows cols
  have hw := hstart.performAll edits
  have hboard := hstart.board_performAll edits
  rw [board_empty] at hboard
  refine ⟨hboard ▸ hw.refines, hw.faithful, fun c => ?_⟩
  have hcost := cost_performAll (empty rows cols) edits c
  rwa [cost_empty] at hcost

end Slice

end AncillaRouting
