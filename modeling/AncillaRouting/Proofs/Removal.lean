import AncillaRouting.Proofs.AlikeSlices
import AncillaRouting.Proofs.Placement

/-!
# Removing a patch

A patch is given back as it was placed, and what is left is a slice on which it never lay: whatever was placed,
removed and priced in the meantime stays as it is, and in its order.
-/

namespace AncillaRouting

open Outcome

namespace Slice

variable {s t : Slice} {p q : Patch} {e : Edit}

/-- Whether an edit is not refused. -/
def accepts (s : Slice) : Edit → Bool
  | .place p => (s.place p).isOk
  | .remove id => (s.remove id).isOk
  | .setCost c cost => (s.setCost c cost).isOk

/-- Those edits of a list that are not refused when they come one after another. -/
def accepted (s : Slice) : List Edit → List Edit
  | [] => []
  | e :: edits =>
    if s.accepts e then e :: (s.perform e).accepted edits else (s.perform e).accepted edits

/-! ## Edits that are not refused -/

theorem accepted_cons_of_accepts (h : s.accepts e = true) (edits : List Edit) :
    s.accepted (e :: edits) = e :: (s.perform e).accepted edits := by
  rw [accepted, if_pos h]

theorem accepted_cons_of_refused (h : s.accepts e = false) (edits : List Edit) :
    s.accepted (e :: edits) = (s.perform e).accepted edits := by
  rw [accepted, if_neg (by simp [h])]

theorem perform_of_refused (h : s.accepts e = false) : s.perform e = s := by
  cases e with
  | place p =>
    rcases perform_place_cases s p with ⟨-, hs⟩ | ⟨hok, -⟩
    · exact hs
    · rw [accepts, hok] at h; cases h
  | remove id =>
    rcases perform_remove_cases s id with ⟨-, hs⟩ | ⟨p, -, -, hok, -⟩
    · exact hs
    · rw [accepts, hok] at h; cases h
  | setCost c cost =>
    rcases perform_setCost_cases s c cost with ⟨-, hs⟩ | ⟨hok, -⟩
    · exact hs
    · rw [accepts, hok] at h; cases h

theorem accepts_place : s.accepts (.place p) = true ↔ p.cells ≠ [] ∧ (∀ q ∈ s.patches, q.id ≠ p.id) ∧
    ∀ c ∈ p.cells, s.inBounds c.cell = true ∧ s.patchAt c.cell = none := by
  rw [accepts, isOk_iff]
  constructor
  · intro ⟨t, h⟩
    obtain ⟨hne, hnew, hcells, -⟩ := place_eq_ok.mp h
    exact ⟨hne, hnew, hcells⟩
  · intro ⟨hne, hnew, hcells⟩
    exact ⟨_, place_eq_ok.mpr ⟨hne, hnew, hcells, rfl⟩⟩

theorem perform_place (h : s.accepts (.place p) = true) : s.perform (.place p) = s.placed p := by
  rcases perform_place_cases s p with ⟨⟨f, hf⟩, -⟩ | ⟨-, hs⟩
  · rw [accepts, hf] at h; cases h
  · exact hs

theorem perform_setCost {c : Cell} {cost : UInt32} (h : s.accepts (.setCost c cost) = true) :
    s.perform (.setCost c cost) = { s with costs := s.costs.insert c (max cost 1) } := by
  rcases perform_setCost_cases s c cost with ⟨⟨f, hf⟩, -⟩ | ⟨-, hs⟩
  · rw [accepts, hf] at h; cases h
  · exact hs

theorem exists_of_accepts_remove {id : PatchId} (h : s.accepts (.remove id) = true) : ∃ q ∈ s.patches, q.id = id := by
  rw [accepts, isOk_iff] at h
  obtain ⟨⟨q, t⟩, h⟩ := h
  obtain ⟨hq, hid, -⟩ := remove_eq_ok h
  exact ⟨q, hq, hid⟩

/-! ## A slice beside itself with one more patch -/

/-- `t` is `s` with the patch `p` somewhere between the others. -/
structure Beside (s : Slice) (p : Patch) (t : Slice) : Prop where
  left : s.WellFormed
  right : t.WellFormed
  rows_eq : t.rows = s.rows
  cols_eq : t.cols = s.cols
  costs_eq : t.costs = s.costs
  patches_eq : ∃ before after, s.patches = before ++ after ∧ t.patches = before ++ p :: after

theorem WellFormed.beside_place (hw : s.WellFormed) (h : s.place p = .ok t) : s.Beside p t := by
  have ht := hw.place h
  obtain ⟨-, -, -, rfl⟩ := place_eq_ok.mp h
  exact ⟨hw, ht, rfl, rfl, rfl, s.patches, [], (List.append_nil _).symm, rfl⟩

namespace Beside

theorem mem_iff (h : s.Beside p t) : q ∈ t.patches ↔ q = p ∨ q ∈ s.patches := by
  obtain ⟨before, after, hs, ht⟩ := h.patches_eq
  simp only [hs, ht, List.mem_append, List.mem_cons]
  exact or_left_comm

theorem mem (h : s.Beside p t) : p ∈ t.patches := h.mem_iff.mpr (.inl rfl)

theorem inBounds_eq (h : s.Beside p t) (c : Cell) : t.inBounds c = s.inBounds c := by
  rw [Bool.eq_iff_iff, inBounds_iff, inBounds_iff, h.rows_eq, h.cols_eq]

theorem patchAt_eq_none (h : s.Beside p t) {c : Cell} (hc : t.patchAt c = none) : s.patchAt c = none := by
  cases hs : s.patchAt c with
  | none => rfl
  | some id =>
    obtain ⟨q, hq, hid, hcovers⟩ := h.left.covered.mp hs
    rw [h.right.covered.mpr ⟨q, h.mem_iff.mpr (.inr hq), hid, hcovers⟩] at hc
    cases hc

/-- What is possible beside the patch is possible without it. -/
theorem accepts (h : s.Beside p t) (hne : e ≠ .remove p.id) (ht : t.accepts e = true) : s.accepts e = true := by
  cases e with
  | place q =>
    obtain ⟨hcells, hnew, hfree⟩ := accepts_place.mp ht
    refine accepts_place.mpr ⟨hcells, fun r hr => hnew r (h.mem_iff.mpr (.inr hr)), fun c hc => ?_⟩
    obtain ⟨hb, hn⟩ := hfree c hc
    exact ⟨h.inBounds_eq c.cell ▸ hb, h.patchAt_eq_none hn⟩
  | remove id =>
    obtain ⟨q, hq, rfl⟩ := exists_of_accepts_remove ht
    rcases h.mem_iff.mp hq with rfl | hq
    · exact absurd rfl hne
    · rw [Slice.accepts, h.left.remove_placed hq]
      rfl
  | setCost c cost =>
    rw [Slice.accepts, isOk_iff] at ht ⊢
    obtain ⟨u, hu⟩ := ht
    have hb := (setCost_eq_ok hu).1
    rw [h.inBounds_eq] at hb
    exact ⟨_, bind_eq_ok.mpr ⟨(), by rw [checkBounds, if_pos hb], rfl⟩⟩

theorem perform (h : s.Beside p t) (hne : e ≠ .remove p.id) (ht : t.accepts e = true) :
    (s.perform e).Beside p (t.perform e) := by
  have hs := h.accepts hne ht
  obtain ⟨before, after, hsp, htp⟩ := h.patches_eq
  have left := h.left.perform e
  have right := h.right.perform e
  have hrows := h.rows_eq
  have hcols := h.cols_eq
  have hcosts := h.costs_eq
  cases e with
  | place q =>
    rw [perform_place hs] at left ⊢
    rw [perform_place ht] at right ⊢
    refine ⟨left, right, hrows, hcols, hcosts, before, after ++ [q], ?_, ?_⟩
    · rw [placed, hsp, List.append_assoc]
    · rw [placed, htp, List.append_assoc, List.cons_append]
  | remove id =>
    obtain ⟨q, hq, rfl⟩ := exists_of_accepts_remove hs
    have hp : p.id ≠ q.id := fun hid => hne (congrArg Edit.remove hid.symm)
    rw [h.left.perform_remove hq] at left ⊢
    rw [h.right.perform_remove (h.mem_iff.mpr (.inr hq))] at right ⊢
    refine ⟨left, right, hrows, hcols, hcosts, before.filter (·.id != q.id), after.filter (·.id != q.id), ?_, ?_⟩
    · rw [without, eraseP_eq_filter h.left.ids, hsp, List.filter_append]
    · rw [without, eraseP_eq_filter h.right.ids, htp, List.filter_append, List.filter_cons_of_pos (by simpa using hp)]
  | setCost c cost =>
    rw [perform_setCost hs] at left ⊢
    rw [perform_setCost ht] at right ⊢
    exact ⟨left, right, hrows, hcols, by rw [hcosts], before, after, hsp, htp⟩

theorem performAll (h : s.Beside p t) {edits : List Edit} (hkept : .remove p.id ∉ edits) :
    (s.performAll (t.accepted edits)).Beside p (t.performAll edits) ∧
      s.accepted (t.accepted edits) = t.accepted edits := by
  induction edits generalizing s t with
  | nil => exact ⟨h, rfl⟩
  | cons e edits ih =>
    rw [List.mem_cons, not_or] at hkept
    obtain ⟨hne, hkept⟩ := hkept
    cases ht : t.accepts e with
    | true =>
      obtain ⟨hbeside, hagain⟩ := ih (h.perform (Ne.symm hne) ht) hkept
      rw [accepted_cons_of_accepts ht, accepted_cons_of_accepts (h.accepts (Ne.symm hne) ht), hagain]
      exact ⟨hbeside, rfl⟩
    | false =>
      -- what is refused beside the patch is left out, so nothing happens on either side
      rw [accepted_cons_of_refused ht, perform_of_refused ht]
      show (s.performAll (t.accepted edits)).Beside p ((t.perform e).performAll edits) ∧ _
      rw [perform_of_refused ht]
      exact ih h hkept

theorem patches_without (h : s.Beside p t) : (t.without p).patches = s.patches := by
  obtain ⟨before, after, hs, ht⟩ := h.patches_eq
  have hids := h.right.ids
  rw [ht, List.map_append, List.map_cons, List.nodup_middle, List.nodup_cons, ← List.map_append, ← hs] at hids
  have hothers : ∀ q ∈ s.patches, (q.id != p.id) = true := by
    intro q hq
    rw [bne_iff_ne]
    intro hid
    exact hids.1 (List.mem_map.mpr ⟨q, hq, hid⟩)
  rw [hs] at hothers
  rw [without, eraseP_eq_filter h.right.ids, ht, List.filter_append, List.filter_cons_of_neg (by simp),
    ← List.filter_append, List.filter_eq_self.mpr hothers, hs]

theorem remove (h : s.Beside p t) : ∃ u, t.remove p.id = .ok (p, u) ∧ u.patches = s.patches ∧ u.Alike s := by
  have hremove := h.right.remove_placed h.mem
  have hpatches := h.patches_without
  refine ⟨t.without p, hremove, hpatches, ?_⟩
  apply (h.right.remove hremove).alike h.left h.rows_eq h.cols_eq
  · intro q
    rw [hpatches]
  · intro c
    show t.costs[c]?.getD 1 = s.costs[c]?.getD 1
    rw [h.costs_eq]

end Beside

/-! ## Removal -/

/-- Whatever was done since a patch was placed, short of removing it: it is given back as it was placed, and the
slice is the one that those edits which were not refused make of the slice from before, on which none of them is
refused. With no edit since, that is the slice from before. -/
theorem removed_without_trace (hs : s.Reachable) (hp : s.place p = .ok t) {edits : List Edit}
    (hkept : .remove p.id ∉ edits) : ∃ u, (t.performAll edits).remove p.id = .ok (p, u) ∧
      u.patches = (s.performAll (t.accepted edits)).patches ∧ u.Alike (s.performAll (t.accepted edits)) ∧
      s.accepted (t.accepted edits) = t.accepted edits := by
  obtain ⟨hbeside, hagain⟩ := (hs.wellFormed.beside_place hp).performAll hkept
  obtain ⟨u, hu, hpatches, halike⟩ := hbeside.remove
  exact ⟨u, hu, hpatches, halike, hagain⟩

/-- In the corridor it covers all that is free, one cell of it twice. -/
def barrier : Patch := ⟨⟨2⟩, [⟨⟨0, 1⟩, .none⟩, ⟨⟨0, 1⟩, .square⟩, ⟨⟨0, 2⟩, .none⟩]⟩

/-- A patch on a cell of the barrier, one with its id and the removal of one that is not there are refused. -/
def turnover : List Edit :=
  [.place (.square ⟨3⟩ ⟨0, 2⟩), .remove ⟨0⟩, .place (.square ⟨2⟩ ⟨0, 0⟩), .place (.square ⟨4⟩ ⟨0, 0⟩), .remove ⟨9⟩]

theorem corridor_place_barrier : corridor.place barrier = .ok (corridor.placed barrier) := by
  have hw := corridor_reachable.wellFormed
  refine place_eq_ok.mpr ⟨by decide, by rw [corridor_patches]; decide, fun c hc => ?_, rfl⟩
  have hcell : c.cell ∈ [(⟨0, 1⟩ : Cell), ⟨0, 2⟩] := by
    have hall : ∀ d ∈ barrier.cells, d.cell ∈ [(⟨0, 1⟩ : Cell), ⟨0, 2⟩] := by decide
    exact hall c hc
  have husable := corridor_connects.usable c.cell hcell
  exact isFree_iff.mp (hw.isFree_iff.mpr ⟨husable.inBounds, husable.uncovered⟩)

theorem removed_without_trace_corridor : ∃ t u, corridor.place barrier = .ok t ∧ .remove barrier.id ∉ turnover ∧
    (t.performAll turnover).remove barrier.id = .ok (barrier, u) ∧
      u.patches = [.square ⟨1⟩ ⟨0, 3⟩, .square ⟨4⟩ ⟨0, 0⟩] ∧ u.Alike (corridor.performAll (t.accepted turnover)) := by
  have hkept : Edit.remove barrier.id ∉ turnover := by decide
  obtain ⟨u, hu, -, halike, -⟩ := removed_without_trace corridor_reachable corridor_place_barrier hkept
  refine ⟨_, u, corridor_place_barrier, hkept, hu, ?_, halike⟩
  have hboard := (corridor_reachable.wellFormed.place corridor_place_barrier).board_performAll turnover
  have hpatches : ((corridor.placed barrier).performAll turnover).patches =
      [.square ⟨1⟩ ⟨0, 3⟩, barrier, .square ⟨4⟩ ⟨0, 0⟩] := by
    rw [corridor_eq] at hboard ⊢
    exact congrArg Board.patches hboard
  obtain ⟨-, -, rfl⟩ := remove_eq_ok hu
  rw [without, hpatches]
  rfl

end Slice

end AncillaRouting
