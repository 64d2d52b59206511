import AncillaRouting.Proofs.Sessions

/-!
# Routes that last

A remembered route is given again without a look at the slice. It still serves the query if, as long as
it is remembered, no patch is placed on its cells and the two patches that it joins are not removed.
Other patches may come and go, and costs may change.
-/

namespace AncillaRouting

open Outcome

/-! ## One edit -/

namespace Slice

variable {s : Slice} {e : Edit} {id : PatchId} {op : Pauli}

/-- The edit puts no patch on a cell of the region and takes away neither of the patches at its ends. -/
def Spares (s : Slice) (region : RoutingRegion) : Edit → Prop
  | .place p => ∀ t, s.place p = .ok t → ∀ c ∈ region.path, p.covers c = false
  | .remove id => ∀ p t, s.remove id = .ok (p, t) → id ≠ region.source.patch ∧ id ≠ region.target.patch
  | .setCost _ _ => True

theorem WellFormed.anchored_perform (hw : s.WellFormed) {a : FaceAnchor} {c : Cell} (h : s.Anchored id op a c)
    (hk : ∀ p t, e = .remove id → s.remove id ≠ .ok (p, t)) : (s.perform e).Anchored id op a c := by
  obtain ⟨p, hp, rfl, hx⟩ := h.exposes
  obtain ⟨hp', -⟩ := getPatch_eq_ok (hw.getPatch_perform (hw.getPatch hp) hk)
  exact ⟨h.patch_eq, h.op_eq, ⟨p, hp', rfl, hx⟩, h.entry⟩

theorem WellFormed.borders_of_perform (hw : s.WellFormed) {c : Cell} (hid : s.Holds id)
    (hk : ∀ p t, e = .remove id → s.remove id ≠ .ok (p, t)) (h : (s.perform e).Borders id op c) :
    s.Borders id op c := by
  obtain ⟨p, hp, rfl⟩ := hid
  obtain ⟨hp', -⟩ := getPatch_eq_ok (hw.getPatch_perform (hw.getPatch hp) hk)
  rw [(hw.perform e).borders_iff hp'] at h
  exact (hw.borders_iff hp).mpr h

theorem Anchored.holds {a : FaceAnchor} {c : Cell} (h : s.Anchored id op a c) : s.Holds id := by
  obtain ⟨p, hp, hid, -⟩ := h.exposes
  exact ⟨p, hp, hid⟩

variable {q : RouteQuery} {region : RoutingRegion}

theorem Serves.spares_source (h : s.Serves q region) (hs : s.Spares region e) (p : Patch) (t : Slice)
    (he : e = .remove q.source) : s.remove q.source ≠ .ok (p, t) := by
  subst he
  intro hr
  obtain ⟨c, -, ha⟩ := h.source
  exact (hs p t hr).1 ha.patch_eq.symm

theorem Serves.spares_target (h : s.Serves q region) (hs : s.Spares region e) (p : Patch) (t : Slice)
    (he : e = .remove q.target) : s.remove q.target ≠ .ok (p, t) := by
  subst he
  intro hr
  obtain ⟨c, -, ha⟩ := h.target
  exact (hs p t hr).2 ha.patch_eq.symm

theorem Serves.perform (hw : s.WellFormed) (h : s.Serves q region) (hs : s.Spares region e) :
    (s.perform e).Serves q region := by
  have hks := h.spares_source hs
  have hkt := h.spares_target hs
  obtain ⟨a, hhead, ha⟩ := h.source
  obtain ⟨b, hlast, hb⟩ := h.target
  refine ⟨h.nonempty, fun c hc => ?_, fun c hc p hp => ?_, h.adjacent, h.nodup,
    ⟨a, hhead, hw.anchored_perform ha hks⟩, ⟨b, hlast, hw.anchored_perform hb hkt⟩, fun c hc hn => ?_, fun c hc hn => ?_⟩
  · rw [inBounds_perform]
    exact h.inBounds c hc
  · rcases mem_of_mem_perform hp with hp | ⟨rfl, t, ht⟩
    · exact h.uncovered c hc p hp
    · exact hs t ht c hc
  · exact h.source_first c hc (hw.borders_of_perform ha.holds hks hn)
  · exact h.target_last c hc (hw.borders_of_perform hb.holds hkt hn)

end Slice

/-! ## Runs -/

namespace Session

/-- An edit spares every route that is remembered when it is made. -/
def SparesRoutes (x : Session) : Event → Prop
  | .edit e => ∀ region, x.Stored region → x.slice.Spares region e
  | .call _ => True

/-- Every remembered route serves the query whose key it is stored under. -/
structure Sound (x : Session) : Prop where
  wellFormed : x.slice.WellFormed
  fits : x.slice.Fits
  plain : x.router.inner.edpc = false
  stored : ∀ {key region}, x.router.routes[key]? = some region →
    ∃ q, RouteKey.ofQuery x.slice q = .ok key ∧ x.slice.Serves q region

variable {x : Session} {q : RouteQuery} {region : RoutingRegion}

theorem sound_start {s : Slice} (hw : s.WellFormed) (hf : s.Fits) (strategy : SearchStrategy) :
    (start s strategy).Sound where
  wellFormed := hw
  fits := hf
  plain := rfl
  stored h := absurd ⟨_, h⟩ (not_stored_start s strategy _)

theorem Sound.serves_of_found (hx : x.Sound) (h : (x.router.inner.route x.slice q).1 = .ok (some region)) :
    x.slice.Serves q region := by
  have hmay : x.router.inner.MayAnswer x.slice q (.ok (some region)) := .inl h.symm
  exact (hmay.best hx.wellFormed hx.fits (DirectRouter.coherent_plain hx.plain)).serves

theorem Sound.serves_of_answer (hx : x.Sound) (h : x.answer q = .ok (some region)) : x.slice.Serves q region := by
  obtain ⟨key, hk, -, hc | hd⟩ := stored_of_answer h
  · obtain ⟨q', hk', hs⟩ := hx.stored hc
    rw [RouteKey.ofQuery_injective hx.wellFormed hk hk']
    exact hs
  · exact hx.serves_of_found hd

theorem Sound.edit (hx : x.Sound) {e : Edit} (hs : x.SparesRoutes (.edit e)) : (x.perform (.edit e)).Sound where
  wellFormed := hx.wellFormed.perform e
  fits := hx.fits.perform e
  plain := hx.plain
  stored h := by
    obtain ⟨q, hk, hq⟩ := hx.stored h
    have hspared := hs _ ⟨_, h⟩
    refine ⟨q, ?_, hq.perform hx.wellFormed hspared⟩
    exact RouteKey.ofQuery_perform hx.wellFormed hk (hq.spares_source hspared) (hq.spares_target hspared)

theorem Sound.call (hx : x.Sound) (c : CacheCall) : (x.perform (.call c)).Sound where
  wellFormed := hx.wellFormed
  fits := hx.fits
  plain := (edpc_perform x (.call c)).trans hx.plain
  stored h := by
    rcases stored_before h with ⟨-, h⟩ | ⟨q, -, hk, -, hd⟩
    · exact hx.stored h
    · exact ⟨q, hk, hx.serves_of_found hd⟩

theorem Sound.performAll (hx : x.Sound) {events : List Event} (hs : x.Along SparesRoutes events) :
    (x.performAll events).Sound := by
  induction events generalizing x with
  | nil => exact hx
  | cons event events ih =>
    obtain ⟨hnow, hlater⟩ := hs
    cases event with
    | edit e => exact ih (hx.edit hnow) hlater
    | call c => exact ih (hx.call c) hlater

/-- If edits spare the routes that are remembered when they are made, then every region that answers a
query serves it on the slice as it is then, whether it was found then or long before. -/
theorem routes_last {s : Slice} (hs : s.Reachable) (hf : s.Fits) {strategy : SearchStrategy} {events : List Event}
    (hspared : (start s strategy).Along SparesRoutes events)
    (h : ((start s strategy).performAll events).answer q = .ok (some region)) :
    ((start s strategy).performAll events).slice.Serves q region :=
  ((sound_start hs.wellFormed hf strategy).performAll hspared).serves_of_answer h

theorem routes_last_corridor : ∃ x region, x = (start .corridor .graph).performAll [.call (.setStrategy .astar),
      .call (.route ⟨⟨0⟩, .z, ⟨1⟩, .z⟩), .edit (.setCost ⟨0, 1⟩ 5), .edit (.remove ⟨2⟩)] ∧
    x.answer ⟨⟨0⟩, .z, ⟨1⟩, .z⟩ = .ok (some region) ∧ x.slice.Serves ⟨⟨0⟩, .z, ⟨1⟩, .z⟩ region := by
  have hw := Slice.corridor_reachable.wellFormed
  obtain ⟨region, h⟩ := answer_corridor .astar
  obtain ⟨key, hk, hstored, -⟩ := stored_of_answer h
  have hk' := RouteKey.ofQuery_perform hw (e := .setCost ⟨0, 1⟩ 5) hk nofun nofun
  have hk'' := RouteKey.ofQuery_perform (hw.perform _) (e := .remove ⟨2⟩) hk' (fun _ _ he => by cases he)
    fun _ _ he => by cases he
  have hspared : (start .corridor .graph).Along SparesRoutes [.call (.setStrategy .astar),
      .call (.route ⟨⟨0⟩, .z, ⟨1⟩, .z⟩), .edit (.setCost ⟨0, 1⟩ 5), .edit (.remove ⟨2⟩)] := by
    refine ⟨trivial, trivial, fun _ _ => trivial, fun _ _ p t hp => ?_, trivial⟩
    obtain ⟨hm, hid, -⟩ := Slice.remove_eq_ok hp
    rcases Slice.mem_of_mem_perform hm with hm | ⟨he, -⟩
    · have hm' : p ∈ Slice.corridor.patches := hm
      rw [Slice.corridor_patches, List.mem_cons, List.mem_singleton] at hm'
      rcases hm' with rfl | rfl <;> cases hid
    · cases he
  refine ⟨_, region, rfl, ?_, ?_⟩
  · exact answer_of_stored hk'' hstored
  · exact routes_last Slice.corridor_reachable Slice.corridor_fits hspared (answer_of_stored hk'' hstored)

end Session

end AncillaRouting
