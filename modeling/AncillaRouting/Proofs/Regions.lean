import AncillaRouting.Proofs.GridSearch
import AncillaRouting.Search.Strategy

/-!
# From paths to regions

No route that a strategy finds is lost when its cells are joined to a region: the region has the
cells of the route, its anchors are those of entries at the ends, and its cost fits a word.
-/

namespace AncillaRouting

open Outcome

namespace RoutingRegion

theorem joinFrom_eq_ok (exit : Side) : ∀ {path : List Cell} {c : Cell} (entrance : Side),
    (∀ d ∈ c :: path, d.Inner) → (c :: path).IsChain Cell.Adjacent →
      ∃ cells, joinFrom entrance exit c path = .ok (some cells) ∧ cells.map (·.cell) = c :: path
  | [], c, entrance, _, _ => ⟨[⟨c, [entrance, exit]⟩], rfl, rfl⟩
  | d :: path, c, entrance, hi, hch => by
    rw [List.isChain_cons_cons] at hch
    rw [List.forall_mem_cons] at hi
    obtain ⟨forth, hf, -⟩ := hi.1.sideTowards hch.1
    obtain ⟨back, hb, -⟩ := (hi.2 d (List.mem_cons_self ..)).sideTowards hch.1.symm
    obtain ⟨cells, hc, hm⟩ := joinFrom_eq_ok exit back hi.2 hch.2
    refine ⟨⟨c, [entrance, forth]⟩ :: cells, ?_, by rw [List.map_cons, hm]⟩
    rw [joinFrom]
    refine bind_eq_ok.mpr ⟨some forth, hf, ?_⟩
    refine bind_eq_ok.mpr ⟨some back, hb, ?_⟩
    exact bind_eq_ok.mpr ⟨some cells, hc, rfl⟩

theorem ofPath_eq_ok {path : List Cell} {source target : FaceAnchor} {c e : Cell} (hi : ∀ d ∈ path, d.Inner)
    (hch : path.IsChain Cell.Adjacent) (hc : path.head? = some c) (he : path.getLast? = some e)
    (hs : source.entry = .ok c) (ht : target.entry = .ok e) :
    ∃ r, ofPath path source target = .ok (some r) ∧ r.path = path ∧ r.source = source ∧ r.target = target := by
  cases path with
  | nil => cases hc
  | cons d path =>
    cases hc
    obtain ⟨cells, hj, hm⟩ := joinFrom_eq_ok target.side.opposite source.side.opposite hi hch
    refine ⟨⟨cells, source, target⟩, ?_, hm, rfl, rfl⟩
    have hlast : (c :: path).getLast (by simp) = e := by
      rw [List.getLast?_eq_some_getLast (by simp)] at he
      exact Option.some.inj he
    unfold ofPath
    refine bind_eq_ok.mpr ⟨c, hs, ?_⟩
    rw [if_neg (by simp)]
    refine bind_eq_ok.mpr ⟨e, ht, ?_⟩
    rw [if_neg (by simp [hlast])]
    exact bind_eq_ok.mpr ⟨some cells, hj, rfl⟩

theorem of_ofPath_eq_some {path : List Cell} {source target : FaceAnchor} {r : RoutingRegion}
    (h : ofPath path source target = .ok (some r)) : ∃ first rest last cells, path = first :: rest ∧
      source.entry = .ok first ∧ path.getLast? = some last ∧ target.entry = .ok last ∧
      joinFrom source.side.opposite target.side.opposite first rest = .ok (some cells) ∧ r = ⟨cells, source, target⟩ := by
  unfold ofPath at h
  cases path with
  | nil => cases h
  | cons first rest =>
    obtain ⟨c, hs, h⟩ := bind_eq_ok.mp h
    split at h
    · cases h
    · rename_i hfirst
      obtain ⟨e, ht, h⟩ := bind_eq_ok.mp h
      split at h
      · cases h
      · rename_i hlast
        obtain ⟨cells, hj, h⟩ := bind_eq_ok.mp h
        cases cells with
        | none => cases h
        | some cells =>
          cases h
          simp only [bne_iff_ne, ne_eq, not_not] at hfirst hlast
          exact ⟨first, rest, e, cells, rfl, hfirst ▸ hs, hlast ▸ List.getLast?_eq_some_getLast (by simp), ht, hj, rfl⟩

theorem cost_eq_ok {s : Slice} {r : RoutingRegion} (h : s.pathCost r.path < 18446744073709551616) :
    r.cost s = .ok (s.pathCost r.path) := by
  have fold : ∀ (path : List Cell) (total : Nat), total + s.pathCost path < 18446744073709551616 →
      path.foldlM (fun total c => Word.sum 64 total (s.cost c).toNat) total = .ok (total + s.pathCost path) := by
    intro path
    induction path with
    | nil => intro total _; rfl
    | cons c path ih =>
      intro total h
      rw [Slice.pathCost_cons, ← Nat.add_assoc] at h ⊢
      rw [List.foldlM_cons]
      exact bind_eq_ok.mpr ⟨_, Word.sum_eq_ok (by omega), ih _ h⟩
  have := fold r.path 0 (by omega)
  rwa [Nat.zero_add] at this

end RoutingRegion

namespace SearchProblem

variable {p : SearchProblem}

/-- What a region that answers a problem is: a cheapest route with the anchors of its two entries. -/
structure Joins (p : SearchProblem) (r : RoutingRegion) : Prop where
  cheapest : p.IsCheapest r.path
  source : ∃ a ∈ p.sources, r.source = a.anchor ∧ r.path.head? = some a.cell
  target : ∃ b ∈ p.targets, r.target = b.anchor ∧ r.path.getLast? = some b.cell
  cost : r.cost p.slice = .ok (p.slice.pathCost r.path)

theorem mem_of_anchorAt? {entries : List EntryPoint} {c : Cell} {a : FaceAnchor} (h : anchorAt? entries c = some a) :
    ∃ e ∈ entries, e.anchor = a ∧ e.cell = c := by
  obtain ⟨e, he, ha⟩ := Option.map_eq_some_iff.mp h
  exact ⟨e, List.mem_of_find?_eq_some he, ha, by simpa using List.find?_some he⟩

theorem anchorAt?_eq_none {entries : List EntryPoint} {c : Cell} (h : anchorAt? entries c = none) :
    ∀ e ∈ entries, e.cell ≠ c := by
  intro e he
  simpa using List.find?_eq_none.mp (Option.map_eq_none_iff.mp h) e he

/-- A path from an entry to an entry is joined to their faces, and any other path is turned down. -/
theorem finish_cases (p : SearchProblem) (path : List Cell) :
    (∃ a ∈ p.sources, ∃ b ∈ p.targets, path.head? = some a.cell ∧ path.getLast? = some b.cell ∧
      p.finish path = RoutingRegion.ofPath path a.anchor b.anchor) ∨
    (p.finish path = .ok none ∧
      ∀ a ∈ p.sources, ∀ b ∈ p.targets, path.head? = some a.cell → path.getLast? ≠ some b.cell) := by
  unfold SearchProblem.finish
  cases hf : path.head? with
  | none => exact .inr ⟨rfl, nofun⟩
  | some first =>
    cases hl : path.getLast? with
    | none => exact .inr ⟨rfl, nofun⟩
    | some last =>
      simp only
      cases hs : anchorAt? p.sources first with
      | none =>
        exact .inr ⟨rfl, fun a ha _ _ h => absurd (Option.some.inj h).symm (anchorAt?_eq_none hs a ha)⟩
      | some source =>
        simp only
        cases ht : anchorAt? p.targets last with
        | none =>
          exact .inr ⟨rfl, fun _ _ b hb _ h => absurd (Option.some.inj h).symm (anchorAt?_eq_none ht b hb)⟩
        | some target =>
          obtain ⟨a, ha, rfl, rfl⟩ := mem_of_anchorAt? hs
          obtain ⟨b, hb, rfl, rfl⟩ := mem_of_anchorAt? ht
          exact .inl ⟨a, ha, b, hb, rfl, rfl, rfl⟩

theorem of_finish_eq_some {path : List Cell} {r : RoutingRegion} (h : p.finish path = .ok (some r)) :
    ∃ a ∈ p.sources, ∃ b ∈ p.targets, RoutingRegion.ofPath path a.anchor b.anchor = .ok (some r) := by
  rcases p.finish_cases path with ⟨a, ha, b, hb, -, -, hof⟩ | ⟨hnone, -⟩
  · exact ⟨a, ha, b, hb, hof.symm.trans h⟩
  · rw [hnone] at h; cases h

theorem IsCheapest.finish (hp : p.WellPosed) {path : List Cell} (h : p.IsCheapest path) :
    ∃ r, p.finish path = .ok (some r) ∧ r.path = path ∧ p.Joins r := by
  obtain ⟨hr, hch, ⟨a, ha, hhead⟩, b, hb, hlast⟩ := isRoute_iff.mp h.1
  rcases p.finish_cases path with ⟨x, hx, y, hy, hxc, hyc, hof⟩ | ⟨-, hends⟩
  · obtain ⟨r, hjoined, rfl, hrs, hrt⟩ := RoutingRegion.ofPath_eq_ok (fun d hd => (hr d hd).inner hp.fits.addressable)
      hch hxc hyc (hp.sources_anchored x hx) (hp.targets_anchored y hy)
    have hle := Slice.pathCost_le hp.fits (h.nodup hp.paid) fun c hc => (hr c hc).inBounds
    exact ⟨r, hof.trans hjoined, rfl, h, ⟨x, hx, hrs, hxc⟩, ⟨y, hy, hrt, hyc⟩, RoutingRegion.cost_eq_ok (by omega)⟩
  · exact absurd hlast (hends a ha b hb hhead)

/-- A problem is answered by a region if there is a route, and by none otherwise. -/
def Answered (p : SearchProblem) (answer : Except Fault (Option RoutingRegion)) : Prop :=
  (∃ r, answer = .ok (some r) ∧ p.Joins r) ∨ (answer = .ok none ∧ ∀ path, ¬ p.IsRoute path)

/-- What a problem makes of the path that a search finds. -/
def conclude (p : SearchProblem) (found : Except Fault (Option (List Cell))) :
    Except Fault (Option RoutingRegion) := do
  if p.sources.isEmpty || p.targets.isEmpty then return none
  let some path ← found | return none
  p.finish path

theorem solve_eq (strategy : SearchStrategy) : p.solve strategy = p.conclude (strategy.path? p) := rfl

/-- A region lies along the path that was found, between two entries. -/
theorem of_conclude_eq_some {found : Except Fault (Option (List Cell))} {r : RoutingRegion}
    (h : p.conclude found = .ok (some r)) : ∃ path, found = .ok (some path) ∧
      ∃ a ∈ p.sources, ∃ b ∈ p.targets, RoutingRegion.ofPath path a.anchor b.anchor = .ok (some r) := by
  unfold SearchProblem.conclude at h
  split at h
  · cases h
  · obtain ⟨path, hfound, h⟩ := bind_eq_ok.mp h
    cases path with
    | none => cases h
    | some path => exact ⟨path, hfound, of_finish_eq_some h⟩

/-- A region has the anchors of two entries, whatever path was found. -/
theorem conclude_anchors {found : Except Fault (Option (List Cell))} {r : RoutingRegion}
    (h : p.conclude found = .ok (some r)) :
    (∃ e ∈ p.sources, e.anchor = r.source) ∧ ∃ e ∈ p.targets, e.anchor = r.target := by
  obtain ⟨path, -, a, ha, b, hb, h⟩ := of_conclude_eq_some h
  obtain ⟨_, _, _, _, -, -, -, -, -, rfl⟩ := RoutingRegion.of_ofPath_eq_some h
  exact ⟨⟨a, ha, rfl⟩, b, hb, rfl⟩

theorem answered_of_noEntry (he : p.sources = [] ∨ p.targets = []) (found : Except Fault (Option (List Cell))) :
    p.Answered (p.conclude found) := by
  have hempty : (p.sources.isEmpty || p.targets.isEmpty) = true := by
    rw [Bool.or_eq_true, List.isEmpty_iff, List.isEmpty_iff]
    exact he
  refine .inr ⟨by rw [conclude, if_pos hempty]; rfl, fun path hr => ?_⟩
  obtain ⟨a, ha, b, hb, -⟩ := hr
  rcases he with he | he
  · rw [he] at ha; cases ha
  · rw [he] at hb; cases hb

theorem conclude_of_entries (hs : p.sources ≠ []) (ht : p.targets ≠ []) (found : Except Fault (Option (List Cell))) :
    p.conclude found = found >>= fun path => match path with
      | none => .ok none
      | some path => p.finish path := by
  have hnonempty : ¬ (p.sources.isEmpty || p.targets.isEmpty) = true := by
    rw [Bool.or_eq_true, List.isEmpty_iff, List.isEmpty_iff]
    exact fun h => h.elim hs ht
  rw [conclude, if_neg hnonempty]
  cases found with
  | error f => rfl
  | ok path => cases path <;> rfl

theorem Solved.conclude (hp : p.WellPosed) {found : Except Fault (Option (List Cell))} (h : p.Solved found) :
    p.Answered (p.conclude found) := by
  by_cases he : p.sources = [] ∨ p.targets = []
  · exact answered_of_noEntry he found
  · obtain ⟨hs, ht⟩ := not_or.mp he
    rw [conclude_of_entries hs ht]
    rcases h with ⟨path, rfl, hc⟩ | ⟨rfl, hn⟩
    · obtain ⟨r, hr, -, hj⟩ := hc.finish hp
      exact .inl ⟨r, hr, hj⟩
    · exact .inr ⟨rfl, hn⟩

end SearchProblem

end AncillaRouting
