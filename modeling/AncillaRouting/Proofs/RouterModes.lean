import AncillaRouting.Proofs.RouterChanges

/-!
# The modes of a router

Extended routing is switched on for good, and every setter checks it against the strategy, so that it never
meets the strategy that knows no clearance; a router that remembers routes never has it. A region found with
it keeps clear of all patches but the two that it joins.
-/

namespace AncillaRouting

namespace Router

variable {r : Router} {s : Slice} {q : RouteQuery}

/-! ## One call -/

theorem Consistent.strategy_ne_graph (h : r.Consistent) (he : r.edpcEnabled = true) : r.strategy ≠ .graph := by
  cases r with
  | direct r =>
    intro hg
    have hplain := DirectRouter.Coherent.plain_of_graph h hg
    exact Bool.false_ne_true (hplain.symm.trans he)
  | cached r => cases he

theorem edpcEnabled_handle (he : r.edpcEnabled = true) (call : RouterCall) : (r.handle call).edpcEnabled = true := by
  cases r with
  | direct r =>
    rw [handle_direct]
    cases call with
    | route s q => exact (r.route_keeps s q).2.trans he
    | setStrategy strategy => exact (r.setStrategy_keeps strategy).1.trans he
    | enableEdpc => exact r.enableEdpc_keeps.1 he
    | clear => exact he
  | cached r => cases he

theorem Consistent.handle_of_refuses (h : r.Consistent) {call : RouterCall} (hc : call.Proper) (he : r.Refuses call) :
    r.handle call = r := by
  cases call with
  | route s q =>
    obtain ⟨e, hne, he⟩ := he
    obtain ⟨hs, hf⟩ := hc
    cases hk : RouteKey.ofQuery s q with
    | error e' => rw [Router.handle, route_of_error hs.wellFormed hk]
    | ok key =>
      obtain ⟨hsrc, htgt⟩ := RouteKey.holds_of_ofQuery hk
      rcases h.route_of_holds hs.wellFormed hf hsrc htgt with ⟨-, found, hr⟩ | ⟨-, ⟨f, -, hr⟩, -⟩
      · rw [hr] at he; cases he
      · rw [hr] at he
        exact absurd (Except.error.inj he).symm (hne f)
  | setStrategy strategy =>
    obtain ⟨e, he⟩ := he
    rw [Router.handle, he]
    rfl
  | enableEdpc =>
    obtain ⟨e, he⟩ := he
    rw [Router.handle, he]
    rfl
  | clear => exact he.elim

theorem Consistent.untouched_of_error (h : r.Consistent) {call : RouterCall} (hc : call.Proper) {e : RouteError}
    (hne : ∀ f, e ≠ .fault f) {r' : Router} (he : (handleInPlace call).run r = .error e r') : r' = r := by
  rcases run_handleInPlace r call with hok | ⟨e', herr, hrefused | ⟨f, rfl⟩⟩
  · rw [hok] at he; cases he
  · rw [herr] at he
    cases he
    exact h.handle_of_refuses hc hrefused
  · rw [herr] at he
    cases he
    exact absurd rfl (hne f)

theorem Consistent.usable_of_route (h : r.Consistent) (hw : s.WellFormed) (hf : s.Fits) (he : r.edpcEnabled = true)
    {region : RoutingRegion} (hr : (r.route s q).1 = .ok (some region)) :
    ∀ c ∈ region.path, s.Usable q.source q.target true c := by
  cases r with
  | direct r =>
    have hmay : r.MayAnswer s q (.ok (some region)) := .inl hr.symm
    have hb := hmay.best hw hf h
    rw [show r.edpc = true from he] at hb
    exact hb.connects.usable
  | cached r => cases he

/-! ## Runs -/

theorem edpcEnabled_handleAll (he : r.edpcEnabled = true) (calls : List RouterCall) :
    (r.handleAll calls).edpcEnabled = true := by
  induction calls generalizing r with
  | nil => exact he
  | cons call calls ih => exact ih (edpcEnabled_handle he call)

/-- Whatever was asked and set before: extended routing is never on under the strategy that searches the explicit
graph, it stays on once it is on, it is never on where routes are remembered, a call that is refused changes
nothing, be it handled in place or not, and with extended routing no cell of a region lies on or next to a patch that
does not take part. -/
theorem modes_kept {start : Router} (hm : start.Made) (calls : List RouterCall) {r : Router}
    (hr : start.handleAll calls = r) :
    (r.edpcEnabled = true → r.strategy ≠ .graph) ∧
      (∀ call, call.Proper → r.Refuses call → r.handle call = r) ∧
      (∀ call e r', call.Proper → (∀ f, e ≠ .fault f) → (handleInPlace call).run r = .error e r' → r' = r) ∧
      (r.edpcEnabled = true → ∀ more, (r.handleAll more).edpcEnabled = true) ∧
      (∀ c, start = cached c → (∃ c', r = cached c') ∧ r.edpcEnabled = false ∧ r.searcher.edpc = false) ∧
      ∀ s q region, s.Reachable → s.Fits → r.edpcEnabled = true → (r.route s q).1 = .ok (some region) →
        ∀ c ∈ region.path, ∀ p ∈ s.patches, p.covers c = false ∧
          ∀ d, c.Adjacent d → p.covers d = true → p.id = q.source ∨ p.id = q.target := by
  have hcon : r.Consistent := hr ▸ hm.consistent.handleAll calls
  refine ⟨hcon.strategy_ne_graph, fun call hc => hcon.handle_of_refuses hc,
    fun call e r' hc hne he => hcon.untouched_of_error hc hne he, edpcEnabled_handleAll, ?_, ?_⟩
  · rintro c rfl
    obtain ⟨c', hc'⟩ := handleAll_eq_cached c calls
    obtain rfl := hr.symm.trans hc'
    exact ⟨⟨c', rfl⟩, rfl, hcon⟩
  · intro s q region hs hf he ha c hc p hp
    have hu := hcon.usable_of_route hs.wellFormed hf he ha c hc
    exact ⟨hu.uncovered p hp, fun d hd => hu.clear rfl d hd p hp⟩

theorem modes_kept_corridor : ∃ r region,
    (direct (.withStrategy .dijkstra)).handleAll [.enableEdpc, .setStrategy .graph] = r ∧ r.edpcEnabled = true ∧
      (r.route .corridor ⟨⟨0⟩, .z, ⟨1⟩, .z⟩).1 = .ok (some region) ∧ r.strategy ≠ .graph ∧
      ∀ c ∈ region.path, ∀ p ∈ Slice.corridor.patches, p.covers c = false ∧
        ∀ d, c.Adjacent d → p.covers d = true → p.id = ⟨0⟩ ∨ p.id = ⟨1⟩ := by
  have hplain := Slice.corridor_connects
  have hc : Slice.corridor.Connects ⟨⟨0⟩, .z, ⟨1⟩, .z⟩ true [⟨0, 1⟩, ⟨0, 2⟩] := by
    refine ⟨fun c hm => ⟨(hplain.usable c hm).inBounds, (hplain.usable c hm).uncovered, ?_⟩, hplain.adjacent,
      hplain.source, hplain.target⟩
    intro _ d _ p hp _
    rw [Slice.corridor_patches, List.mem_cons, List.mem_singleton] at hp
    rcases hp with rfl | rfl
    · exact .inl rfl
    · exact .inr rfl
  have hcoh : (⟨.dijkstra, true, 0⟩ : DirectRouter).Coherent := DirectRouter.coherent_of_ne_graph (by decide)
  obtain ⟨region, hregion⟩ := DirectRouter.route_of_connects Slice.corridor_reachable.wellFormed Slice.corridor_fits hcoh
    (DirectRouter.corridor_roomy _ _) hc
  obtain ⟨hgraph, -, -, -, -, hclear⟩ := modes_kept (.withStrategyDirect .dijkstra) [.enableEdpc, .setStrategy .graph] rfl
  exact ⟨_, region, rfl, rfl, hregion, hgraph rfl,
    hclear _ _ region Slice.corridor_reachable Slice.corridor_fits rfl hregion⟩

end Router

end AncillaRouting
