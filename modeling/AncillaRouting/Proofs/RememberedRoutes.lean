import AncillaRouting.Proofs.RouterRuns
import AncillaRouting.Proofs.Sessions

/-!
# How long a route is remembered

A router that remembers routes never looks at a slice to decide whether a route is still good. What it has
stored under a key stays there, and answers every query with that key, until it is told to forget; a query
that finds nothing, that is refused or that ends in a fault changes none of this.
-/

namespace AncillaRouting

open Outcome

namespace Router

variable {r : Router} {s : Slice} {q : RouteQuery} {key : RouteKey} {region : RoutingRegion}

/-! ## One call -/

theorem route_of_remembered (hk : RouteKey.ofQuery s q = .ok key) (h : r.remembered key = some region) :
    r.route s q = (.ok (some region), r) := by
  cases r with
  | direct r => cases h
  | cached r => simp [route, CachedRouter.route_of_stored hk h]

theorem remembered_route_of_ne (hk : RouteKey.ofQuery s q ≠ .ok key) :
    (r.route s q).2.remembered key = r.remembered key := by
  cases r with
  | direct r => rfl
  | cached r =>
    apply Option.ext
    intro region
    refine ⟨fun h => ?_, fun h => CachedRouter.route_stores h⟩
    rcases CachedRouter.stored_of_route h with h | ⟨hk', -⟩
    · exact h
    · exact absurd hk' hk

theorem remembered_handle {call : RouterCall} (hc : call ≠ .clear) (h : r.remembered key = some region) :
    (r.handle call).remembered key = some region := by
  cases r with
  | direct r => cases h
  | cached r =>
    rw [handle_cached]
    cases call with
    | route s q => exact CachedRouter.route_stores h
    | setStrategy strategy => exact h
    | enableEdpc => exact h
    | clear => exact absurd rfl hc

/-- What is stored after a call was stored before, or has just been found by the router inside. -/
theorem remembered_of_handle {r : CachedRouter} {call : RouterCall}
    (h : ((cached r).handle call).remembered key = some region) :
    (call ≠ .clear ∧ (cached r).remembered key = some region) ∨ ∃ s q, call = .route s q ∧
      RouteKey.ofQuery s q = .ok key ∧ (r.inner.route s q).1 = .ok (some region) := by
  rw [handle_cached] at h
  cases call with
  | route s q =>
    rcases CachedRouter.stored_of_route h with h | ⟨hk, -, hd⟩
    · exact .inl ⟨nofun, h⟩
    · exact .inr ⟨s, q, rfl, hk, hd⟩
  | setStrategy strategy => exact .inl ⟨nofun, h⟩
  | enableEdpc => exact .inl ⟨nofun, h⟩
  | clear => simp [remembered, CachedRouter.cached, CachedRouter.clear] at h

/-! ## Runs -/

theorem remembered_handleAll {calls : List RouterCall} (hc : .clear ∉ calls) (h : r.remembered key = some region) :
    (r.handleAll calls).remembered key = some region := by
  induction calls generalizing r with
  | nil => exact h
  | cons call calls ih =>
    rw [List.mem_cons, not_or] at hc
    exact ih hc.2 (remembered_handle (Ne.symm hc.1) h)

/-- After the calls `before`, a query with the key was asked about `s`, the router inside found the region
for it, and routes were not forgotten since. -/
structure Provenance (start : Router) (key : RouteKey) (region : RoutingRegion) (calls before : List RouterCall)
    (s : Slice) (q : RouteQuery) (after : List RouterCall) : Prop where
  split : calls = before ++ .route s q :: after
  unforgotten : .clear ∉ after
  key_eq : RouteKey.ofQuery s q = .ok key
  found : ((start.handleAll before).searcher.route s q).1 = .ok (some region)

theorem Provenance.concat {start : Router} {calls before after : List RouterCall} {call : RouterCall}
    (h : start.Provenance key region calls before s q after) (hc : call ≠ .clear) :
    start.Provenance key region (calls ++ [call]) before s q (after ++ [call]) := by
  refine ⟨by simp [h.split], ?_, h.key_eq, h.found⟩
  rw [List.mem_append, not_or, List.mem_singleton]
  exact ⟨h.unforgotten, Ne.symm hc⟩

theorem provenance {strategy : SearchStrategy} {calls : List RouterCall}
    (h : ((cached (.withStrategy strategy)).handleAll calls).remembered key = some region) :
    ∃ before s q after, (cached (.withStrategy strategy)).Provenance key region calls before s q after := by
  induction calls using List.reverseRecOn with
  | nil => simp [handleAll, remembered, CachedRouter.cached, CachedRouter.withStrategy] at h
  | append_singleton calls call ih =>
    obtain ⟨r, hr⟩ := handleAll_eq_cached (.withStrategy strategy) calls
    rw [handleAll_concat, hr] at h
    rcases remembered_of_handle h with ⟨hc, h⟩ | ⟨s, q, rfl, hk, hd⟩
    · rw [← hr] at h
      obtain ⟨before, s, q, after, hp⟩ := ih h
      exact ⟨before, s, q, _, hp.concat hc⟩
    · refine ⟨calls, s, q, [], rfl, List.not_mem_nil, hk, ?_⟩
      rw [hr]
      exact hd

/-- A stored region is what the router inside found for a query with that key, under the strategy that it had
then. It stays stored until routes are forgotten, whatever else is asked and set, and until then every query
with the key, on whatever slice, is answered with it and leaves the router as it is. No query changes what is
stored under a key that is not its own. -/
theorem remembered_until_cleared (strategy : SearchStrategy) (calls : List RouterCall) {r : Router}
    (hr : (cached (.withStrategy strategy)).handleAll calls = r) :
    (∀ key region, r.remembered key = some region →
      (∃ before s q after, (cached (.withStrategy strategy)).Provenance key region calls before s q after) ∧
      ∀ more, .clear ∉ more → (r.handleAll more).remembered key = some region ∧
        ∀ s q, RouteKey.ofQuery s q = .ok key → (r.handleAll more).route s q = (.ok (some region), r.handleAll more)) ∧
      ∀ s q key, RouteKey.ofQuery s q ≠ .ok key → (r.route s q).2.remembered key = r.remembered key := by
  refine ⟨fun key region h => ⟨?_, fun more hmore => ?_⟩, fun s q key hk => remembered_route_of_ne hk⟩
  · subst hr
    exact provenance h
  · have hlater := remembered_handleAll hmore h
    exact ⟨hlater, fun s q hk => route_of_remembered hk hlater⟩

/-- A patch lies on the remembered route, and the strategy is another one. -/
theorem remembered_until_cleared_corridor : ∃ r region,
    (cached (.withStrategy .graph)).handleAll [.route .corridor ⟨⟨0⟩, .z, ⟨1⟩, .z⟩] = r ∧
      (r.handleAll [.setStrategy .astar]).route (Slice.corridor.perform (.place (.square ⟨2⟩ ⟨0, 1⟩)))
        ⟨⟨0⟩, .z, ⟨1⟩, .z⟩ = (.ok (some region), r.handleAll [.setStrategy .astar]) := by
  obtain ⟨region, h⟩ := Session.answer_corridor .graph
  obtain ⟨key, hk, hstored, -⟩ := Session.stored_of_answer h
  have hlater := RouteKey.ofQuery_perform Slice.corridor_reachable.wellFormed (e := .place (.square ⟨2⟩ ⟨0, 1⟩)) hk
    nofun nofun
  have hremembered : ((cached (.withStrategy .graph)).handleAll
    [.route .corridor ⟨⟨0⟩, .z, ⟨1⟩, .z⟩]).remembered key = some region := hstored
  refine ⟨_, region, rfl, ?_⟩
  exact (((remembered_until_cleared .graph _ rfl).1 key region hremembered).2 _ (by simp)).2 _ _ hlater

end Router

end AncillaRouting
