import AncillaRouting.Proofs.LastingRoutes

/-!
# Whose route is remembered

Routes are remembered by cells, and a region names patches. A remembered region therefore names the
patches of the query that it was found for, and these may have been replaced by others on the same
cells, although no cell of the region itself was ever covered.
-/

namespace AncillaRouting

open Outcome

/-! ## Slices -/

namespace Slice

variable {s : Slice} {id : PatchId} {c : Cell}

theorem WellFormed.patchAt_firstCell (hw : s.WellFormed) {p : Patch} (hp : s.getPatch id = .ok p)
    (hc : p.firstCell = .ok c) : s.patchAt c = some id := by
  obtain ⟨hm, hid⟩ := getPatch_eq_ok hp
  exact hw.covered.mpr ⟨p, hm, hid, Patch.covers_of_firstCell hc⟩

theorem WellFormed.anchor_cell (hw : s.WellFormed) {op : Pauli} {a : FaceAnchor} {d : Cell} {p : Patch}
    (h : s.Anchored id op a d) (hp : s.getPatch id = .ok p) (hsq : ∃ i e, p = .square i e) (hc : p.firstCell = .ok c) :
    a.cell = c := by
  obtain ⟨hm, hid⟩ := getPatch_eq_ok hp
  obtain ⟨p', hm', hid', x, hx, hcell, -⟩ := h.exposes
  obtain rfl := eq_of_id_eq hw.ids hm' hm (hid'.trans hid.symm)
  obtain ⟨i, e, rfl⟩ := hsq
  cases List.mem_singleton.mp hx
  cases hc
  exact hcell.symm

theorem patchAt_remove (h : s.patchAt c = none) : (s.perform (.remove id)).patchAt c = none := by
  rcases perform_remove_cases s id with ⟨-, hs⟩ | ⟨p, -, -, -, hs⟩
  · rw [hs, h]
  · rw [hs, patchAt_without]
    split
    · rfl
    · exact h

theorem patchAt_place {p : Patch} (h : p.covers c = false) : (s.perform (.place p)).patchAt c = s.patchAt c := by
  rcases perform_place_cases s p with ⟨-, hs⟩ | ⟨-, hs⟩
  · rw [hs]
  · rw [hs, patchAt_placed, h]
    rfl

end Slice

namespace Session

variable {x : Session} {events : List Event}

/-! ## What a run keeps -/

theorem mem_performAll {p : Patch} (h : p ∈ (x.performAll events).slice.patches) :
    p ∈ x.slice.patches ∨ .edit (.place p) ∈ events := by
  induction events generalizing x with
  | nil => exact .inl h
  | cons event events ih =>
    rcases ih (x := x.perform event) h with h | h
    · cases event with
      | call c => exact .inl h
      | edit e =>
        rcases Slice.mem_of_mem_perform h with h | ⟨rfl, -⟩
        · exact .inl h
        · exact .inr (List.mem_cons_self ..)
    · exact .inr (List.mem_cons_of_mem _ h)

theorem getPatch_performAll (hw : x.slice.WellFormed) {id : PatchId} {p : Patch} (h : x.slice.getPatch id = .ok p)
    (hk : .edit (.remove id) ∉ events) : (x.performAll events).slice.getPatch id = .ok p := by
  induction events generalizing x with
  | nil => exact h
  | cons event events ih =>
    rw [List.mem_cons, not_or] at hk
    cases event with
    | call c => exact ih (x := x.perform (.call c)) hw h hk.2
    | edit e =>
      refine ih (x := x.perform (.edit e)) (hw.perform e) (hw.getPatch_perform h ?_) hk.2
      rintro _ _ rfl
      exact absurd rfl hk.1

/-- After the events `before`, the region was found for the query, which had the key, and routes were not
forgotten since. -/
structure Origin (x : Session) (key : RouteKey) (region : RoutingRegion) (q : RouteQuery)
    (events before after : List Event) : Prop where
  split : events = before ++ .call (.route q) :: after
  unforgotten : .call .clear ∉ after
  key_eq : RouteKey.ofQuery (x.performAll before).slice q = .ok key
  answered : (x.performAll before).answer q = .ok (some region)
  found : ((x.performAll before).router.inner.route (x.performAll before).slice q).1 = .ok (some region)

variable {s : Slice} {strategy : SearchStrategy} {key : RouteKey} {region : RoutingRegion} {q : RouteQuery}

theorem Origin.concat {before after : List Event} (h : x.Origin key region q events before after) {event : Event}
    (hne : event ≠ .call .clear) : x.Origin key region q (events ++ [event]) before (after ++ [event]) := by
  refine ⟨by simp [h.split], ?_, h.key_eq, h.answered, h.found⟩
  rw [List.mem_append, not_or, List.mem_singleton]
  exact ⟨h.unforgotten, hne.symm⟩

theorem origin_of_stored (h : ((start s strategy).performAll events).router.routes[key]? = some region) :
    ∃ q before after, (start s strategy).Origin key region q events before after := by
  induction events using List.reverseRecOn with
  | nil => exact absurd ⟨key, h⟩ (not_stored_start s strategy region)
  | append_singleton events event ih =>
    rw [performAll_append] at h
    cases event with
    | edit e =>
      obtain ⟨q, before, after, ho⟩ := ih h
      exact ⟨q, before, _, ho.concat nofun⟩
    | call c =>
      rcases stored_before h with ⟨hne, hr⟩ | ⟨q, rfl, hk, ha, hd⟩
      · obtain ⟨q, before, after, ho⟩ := ih hr
        exact ⟨q, before, _, ho.concat (by simpa using hne)⟩
      · exact ⟨q, events, [], rfl, nofun, hk, ha, hd⟩

theorem origin_of_answer (h : ((start s strategy).performAll events).answer q = .ok (some region)) :
    ∃ key q' before after, RouteKey.ofQuery ((start s strategy).performAll events).slice q = .ok key ∧
      (start s strategy).Origin key region q' (events ++ [.call (.route q)]) before after := by
  obtain ⟨key, hk, hstored, -⟩ := stored_of_answer h
  have hlast : ((start s strategy).performAll (events ++ [.call (.route q)])).router.routes[key]? = some region := by
    rw [performAll_append]
    exact hstored
  obtain ⟨q', before, after, ho⟩ := origin_of_stored hlast
  exact ⟨key, q', before, after, hk, ho⟩

/-! ## Names -/

/-- A region names the patches of the query that was first answered with it. Each of them is the patch that
is asked for now, unless it was removed since, and if all patches are square, then the faces that the region
joins belong to the patches that are asked for, whatever it calls them. -/
theorem anchors_of_answer {rows cols : UInt32}
    (h : ((start (.empty rows cols) strategy).performAll events).answer q = .ok (some region)) :
    ∃ q' before after, events ++ [.call (.route q)] = before ++ .call (.route q') :: after ∧ .call .clear ∉ after ∧
      ((start (.empty rows cols) strategy).performAll before).answer q' = .ok (some region) ∧
      (region.source.patch = q'.source ∧ region.source.op = q.sourceOp) ∧
      (region.target.patch = q'.target ∧ region.target.op = q.targetOp) ∧
      (.edit (.remove q'.source) ∉ after → q'.source = q.source) ∧
      (.edit (.remove q'.target) ∉ after → q'.target = q.target) ∧
      ((∀ p, .edit (.place p) ∈ events → ∃ id c, p = .square id c) →
        ((start (.empty rows cols) strategy).performAll events).slice.patchAt region.source.cell = some q.source ∧
        ((start (.empty rows cols) strategy).performAll events).slice.patchAt region.target.cell = some q.target) := by
  obtain ⟨key, q', before, after, hk, ho⟩ := origin_of_answer h
  have hwf : ∀ events, ((start (.empty rows cols) strategy).performAll events).slice.WellFormed :=
    wellFormed_performAll (Slice.wellFormed_empty rows cols)
  have hend : (((start (.empty rows cols) strategy).performAll before).performAll (.call (.route q') :: after)).slice =
      ((start (.empty rows cols) strategy).performAll events).slice := by
    rw [← performAll_append, ← ho.split, performAll_append]; rfl
  have hkeep : ∀ {i p}, ((start (.empty rows cols) strategy).performAll before).slice.getPatch i = .ok p →
      .edit (.remove i) ∉ after → ((start (.empty rows cols) strategy).performAll events).slice.getPatch i = .ok p := by
    intro i p hp hr
    rw [← hend]
    exact getPatch_performAll (hwf before) hp (by simpa using hr)
  -- the two queries have one key, so their patches have the same first cells
  obtain ⟨a, b, c, d, ha, hac, hb, hbd, rfl⟩ := RouteKey.ofQuery_eq_ok.mp hk
  obtain ⟨a', b', c', d', ha', hac', hb', hbd', hkey⟩ := RouteKey.ofQuery_eq_ok.mp ho.key_eq
  obtain ⟨rfl, hso, rfl, hto⟩ := RouteKey.mk.inj hkey
  obtain ⟨⟨_, hsrc⟩, _, htgt⟩ := DirectRouter.route_anchored ho.found
  refine ⟨q', before, after, ho.split, ho.unforgotten, ho.answered, ⟨hsrc.patch_eq, hsrc.op_eq.trans hso.symm⟩,
    ⟨htgt.patch_eq, htgt.op_eq.trans hto.symm⟩, fun hr => ?_, fun hr => ?_, fun hsq => ?_⟩
  · exact (hwf events).eq_of_firstCell (hkeep ha' hr) ha hac' hac
  · exact (hwf events).eq_of_firstCell (hkeep hb' hr) hb hbd' hbd
  · have square : ∀ {id p}, ((start (.empty rows cols) strategy).performAll before).slice.getPatch id = .ok p →
        ∃ i e, p = .square i e := by
      intro id p hp
      rcases mem_performAll (Slice.getPatch_eq_ok hp).1 with hm | hm
      · cases hm
      · refine hsq p ?_
        have hmem : Event.edit (.place p) ∈ events ++ [.call (.route q)] := ho.split ▸ List.mem_append_left _ hm
        simpa using hmem
    rw [(hwf before).anchor_cell hsrc ha' (square ha') hac', (hwf before).anchor_cell htgt hb' (square hb') hbd']
    exact ⟨(hwf events).patchAt_firstCell ha hac, (hwf events).patchAt_firstCell hb hbd⟩

/-! ## A patch that is replaced -/

/-- Once there is a route from it, a patch gives way to another one on the same cell. -/
def replacement : List Event :=
  [.edit (.place (.square ⟨0⟩ ⟨0, 0⟩)), .edit (.place (.square ⟨1⟩ ⟨0, 3⟩)), .call (.route ⟨⟨0⟩, .z, ⟨1⟩, .z⟩),
    .edit (.remove ⟨0⟩), .edit (.place (.square ⟨2⟩ ⟨0, 0⟩))]

theorem replacement_square {p : Patch} (h : .edit (.place p) ∈ replacement) : ∃ id c, p = .square id c := by
  simp only [replacement, List.mem_cons, List.not_mem_nil, Event.edit.injEq, Edit.place.injEq, reduceCtorEq, false_or,
    or_false] at h
  rcases h with rfl | rfl | rfl <;> exact ⟨_, _, rfl⟩

theorem slice_replacement : ((start (.empty 1 4) .dijkstra).performAll replacement).slice =
    (Slice.corridor.without (.square ⟨0⟩ ⟨0, 0⟩)).placed (.square ⟨2⟩ ⟨0, 0⟩) := by
  have hw := Slice.corridor_reachable.wellFormed
  have hrest : (Slice.corridor.without (.square ⟨0⟩ ⟨0, 0⟩)).patches = [.square ⟨1⟩ ⟨0, 3⟩] := by
    rw [Slice.without, Slice.corridor_patches]; rfl
  have hremove : Slice.corridor.perform (.remove ⟨0⟩) = Slice.corridor.without (.square ⟨0⟩ ⟨0, 0⟩) :=
    hw.perform_remove Slice.corridor_left
  have hplace : (Slice.corridor.without (.square ⟨0⟩ ⟨0, 0⟩)).place (.square ⟨2⟩ ⟨0, 0⟩) =
      .ok ((Slice.corridor.without (.square ⟨0⟩ ⟨0, 0⟩)).placed (.square ⟨2⟩ ⟨0, 0⟩)) := by
    refine Slice.place_eq_ok.mpr ⟨by decide, by rw [hrest]; decide, fun c hc => ?_, rfl⟩
    cases List.mem_singleton.mp hc
    refine ⟨hw.inside _ Slice.corridor_left (by decide), ?_⟩
    rw [Slice.patchAt_without, if_pos (by decide)]
  show (Slice.corridor.perform (.remove ⟨0⟩)).perform (.place (.square ⟨2⟩ ⟨0, 0⟩)) = _
  rw [hremove, Slice.perform, hplace]
  rfl

theorem key_replacement :
    RouteKey.ofQuery ((start (.empty 1 4) .dijkstra).performAll replacement).slice ⟨⟨2⟩, .z, ⟨1⟩, .z⟩ =
      .ok ⟨⟨0, 0⟩, .z, ⟨0, 3⟩, .z⟩ := by
  have hw := wellFormed_performAll (x := start (.empty 1 4) .dijkstra) (Slice.wellFormed_empty 1 4) replacement
  rw [slice_replacement] at hw ⊢
  have hpatches : ((Slice.corridor.without (.square ⟨0⟩ ⟨0, 0⟩)).placed (.square ⟨2⟩ ⟨0, 0⟩)).patches =
      [.square ⟨1⟩ ⟨0, 3⟩, .square ⟨2⟩ ⟨0, 0⟩] := by
    rw [Slice.placed, Slice.without, Slice.corridor_patches]; rfl
  have hleft := hw.getPatch (p := .square ⟨2⟩ ⟨0, 0⟩) (by rw [hpatches]; decide)
  have hright := hw.getPatch (p := .square ⟨1⟩ ⟨0, 3⟩) (by rw [hpatches]; decide)
  exact RouteKey.ofQuery_eq_ok.mpr ⟨_, _, _, _, hleft, rfl, hright, rfl, rfl⟩

theorem answer_replacement : ∃ region,
    ((start (.empty 1 4) .dijkstra).performAll replacement).answer ⟨⟨2⟩, .z, ⟨1⟩, .z⟩ = .ok (some region) ∧
      region.source.patch = ⟨0⟩ := by
  obtain ⟨region, h⟩ := answer_corridor .dijkstra
  have hsound := sound_start Slice.corridor_reachable.wellFormed Slice.corridor_fits .dijkstra
  obtain ⟨_, -, hsrc⟩ := (hsound.serves_of_answer h).source
  obtain ⟨key, hk, hstored, -⟩ := stored_of_answer h
  cases key_corridor.symm.trans hk
  exact ⟨region, answer_of_stored key_replacement hstored, hsrc.patch_eq⟩

theorem anchors_of_answer_replacement : ∃ region,
    ((start (.empty 1 4) .dijkstra).performAll replacement).answer ⟨⟨2⟩, .z, ⟨1⟩, .z⟩ = .ok (some region) ∧
      ((start (.empty 1 4) .dijkstra).performAll replacement).slice.patchAt region.source.cell = some ⟨2⟩ := by
  obtain ⟨region, h, -⟩ := answer_replacement
  obtain ⟨_, _, _, -, -, -, -, -, -, -, hcell⟩ := anchors_of_answer h
  exact ⟨region, h, (hcell fun _ => replacement_square).1⟩

/-- An edit changes nothing on the cells of the routes that are remembered when it is made. -/
def LeavesRoutes (x : Session) : Event → Prop
  | .edit e => ∀ region, x.Stored region → ∀ c ∈ region.path, (x.slice.perform e).patchAt c = x.slice.patchAt c
  | .call _ => True

theorem replacement_leaves_routes : (start (.empty 1 4) .dijkstra).Along LeavesRoutes replacement := by
  have hw := Slice.corridor_reachable.wellFormed
  have hfree : ∀ {region}, ((start .corridor .dijkstra).perform (.call (.route ⟨⟨0⟩, .z, ⟨1⟩, .z⟩))).Stored region →
      ∀ c ∈ region.path, Slice.corridor.patchAt c = none ∧ (Patch.square ⟨0⟩ ⟨0, 0⟩).covers c = false := by
    rintro region ⟨key, h⟩ c hc
    obtain ⟨q, -, hserves⟩ := ((sound_start hw Slice.corridor_fits .dijkstra).call _).stored h
    have huncovered := hserves.uncovered c hc
    have hisFree := hw.isFree_iff.mpr ⟨hserves.inBounds c hc, huncovered⟩
    exact ⟨(Slice.isFree_iff.mp hisFree).2, huncovered _ Slice.corridor_left⟩
  refine ⟨?_, ?_, trivial, ?_, ?_, trivial⟩
  · intro region hst
    exact absurd hst (not_stored_start _ _ region)
  · intro region hst
    exact absurd hst (not_stored_start _ _ region)
  · intro region hst c hc
    obtain ⟨hn, -⟩ := hfree hst c hc
    exact (Slice.patchAt_remove hn).trans hn.symm
  · -- the two patches have the same cell, and no route goes through it
    intro region hst c hc
    exact Slice.patchAt_place (hfree hst c hc).2

/-- Square patches came and went, no cell of a remembered route was touched, and still the answer names
a patch that was not asked for. -/
theorem replacement_misnamed : (∀ p, .edit (.place p) ∈ replacement → ∃ id c, p = .square id c) ∧
    (start (.empty 1 4) .dijkstra).Along LeavesRoutes replacement ∧ ∃ region,
      ((start (.empty 1 4) .dijkstra).performAll replacement).answer ⟨⟨2⟩, .z, ⟨1⟩, .z⟩ = .ok (some region) ∧
        region.source.patch ≠ ⟨2⟩ := by
  obtain ⟨region, h, hp⟩ := answer_replacement
  refine ⟨fun _ => replacement_square, replacement_leaves_routes, region, h, ?_⟩
  rw [hp]
  decide

end Session

end AncillaRouting
