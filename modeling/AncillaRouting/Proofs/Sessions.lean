import AncillaRouting.Proofs.CachedRoutes

/-!
# Sessions

A session is one slice with one router that remembers routes: the slice is edited and the router is
called in any order. Edits do not touch the router and calls do not touch the slice, so a remembered
route may come to disagree with the slice. Here is what one event keeps: sizes, patches that are not
removed, and with them the keys of queries.
-/

namespace AncillaRouting

open Outcome

namespace Slice

variable {s : Slice}

/-! ## What an edit keeps -/

theorem perform_size (s : Slice) (e : Edit) : (s.perform e).rows = s.rows ∧ (s.perform e).cols = s.cols := by
  cases e with
  | place p => rcases perform_place_cases s p with ⟨-, h⟩ | ⟨-, h⟩ <;> (rw [h]; exact ⟨rfl, rfl⟩)
  | remove id => rcases perform_remove_cases s id with ⟨-, h⟩ | ⟨p, -, -, -, h⟩ <;> (rw [h]; exact ⟨rfl, rfl⟩)
  | setCost c cost => rcases perform_setCost_cases s c cost with ⟨-, h⟩ | ⟨-, h⟩ <;> (rw [h]; exact ⟨rfl, rfl⟩)

theorem inBounds_perform (s : Slice) (e : Edit) (c : Cell) : (s.perform e).inBounds c = s.inBounds c := by
  obtain ⟨hr, hc⟩ := s.perform_size e
  rw [Bool.eq_iff_iff, inBounds_iff, inBounds_iff, hr, hc]

theorem Fits.perform (hf : s.Fits) (e : Edit) : (s.perform e).Fits := by
  obtain ⟨hr, hc⟩ := s.perform_size e
  constructor
  · rw [hr]; exact hf.rows_le
  · rw [hc]; exact hf.cols_le
  · rw [hr, hc]; exact hf.size_lt

/-- A patch on the slice after an edit was there before, or has just been placed. -/
theorem mem_of_mem_perform {e : Edit} {p : Patch} (h : p ∈ (s.perform e).patches) :
    p ∈ s.patches ∨ e = .place p ∧ ∃ t, s.place p = .ok t := by
  cases e with
  | place q =>
    rcases perform_place_cases s q with ⟨-, hs⟩ | ⟨hok, hs⟩
    · rw [hs] at h; exact .inl h
    · rw [hs, placed, List.mem_append, List.mem_singleton] at h
      rcases h with h | rfl
      · exact .inl h
      · exact .inr ⟨rfl, _, hok⟩
  | remove id =>
    rcases perform_remove_cases s id with ⟨-, hs⟩ | ⟨q, -, -, -, hs⟩
    · rw [hs] at h; exact .inl h
    · rw [hs] at h; exact .inl (List.mem_of_mem_eraseP h)
  | setCost c cost =>
    rcases perform_setCost_cases s c cost with ⟨-, hs⟩ | ⟨-, hs⟩ <;> (rw [hs] at h; exact .inl h)

theorem WellFormed.getPatch_perform (hw : s.WellFormed) {e : Edit} {id : PatchId} {p : Patch}
    (h : s.getPatch id = .ok p) (hk : ∀ q t, e = .remove id → s.remove id ≠ .ok (q, t)) :
    (s.perform e).getPatch id = .ok p := by
  obtain ⟨hp, rfl⟩ := getPatch_eq_ok h
  refine (hw.perform e).getPatch ?_
  cases e with
  | place q =>
    rcases perform_place_cases s q with ⟨-, hs⟩ | ⟨-, hs⟩
    · rw [hs]; exact hp
    · rw [hs]; exact List.mem_append_left _ hp
  | remove id =>
    rcases perform_remove_cases s id with ⟨-, hs⟩ | ⟨q, hqm, rfl, hok, hs⟩
    · rw [hs]; exact hp
    · rw [hs, mem_without hw hqm]
      refine ⟨hp, fun he => ?_⟩
      subst he
      exact hk p _ rfl hok
  | setCost c cost =>
    rcases perform_setCost_cases s c cost with ⟨-, hs⟩ | ⟨-, hs⟩ <;> (rw [hs]; exact hp)

end Slice

theorem RouteKey.ofQuery_perform {s : Slice} (hw : s.WellFormed) {e : Edit} {q : RouteQuery} {key : RouteKey}
    (h : ofQuery s q = .ok key) (hsrc : ∀ p t, e = .remove q.source → s.remove q.source ≠ .ok (p, t))
    (htgt : ∀ p t, e = .remove q.target → s.remove q.target ≠ .ok (p, t)) : ofQuery (s.perform e) q = .ok key := by
  obtain ⟨a, b, c, d, ha, hc, hb, hd, hkey⟩ := ofQuery_eq_ok.mp h
  exact ofQuery_eq_ok.mpr ⟨a, b, c, d, hw.getPatch_perform ha hsrc, hc, hw.getPatch_perform hb htgt, hd, hkey⟩

/-! ## Runs -/

inductive Event where
  | edit (e : Edit)
  | call (c : CacheCall)
deriving DecidableEq, Repr

structure Session where
  slice : Slice
  router : CachedRouter

namespace Session

def start (s : Slice) (strategy : SearchStrategy) : Session := ⟨s, .withStrategy strategy⟩

def perform (x : Session) : Event → Session
  | .edit e => { x with slice := x.slice.perform e }
  | .call c => { x with router := x.router.perform x.slice c }

def performAll (x : Session) (events : List Event) : Session := events.foldl perform x

/-- What a query is answered in this state. -/
def answer (x : Session) (q : RouteQuery) : Except RouteError (Option RoutingRegion) :=
  (x.router.route x.slice q).1

def Stored (x : Session) (region : RoutingRegion) : Prop := ∃ key : RouteKey, x.router.routes[key]? = some region

/-- Every event of a run meets the condition in the state in which it happens. -/
def Along (condition : Session → Event → Prop) : Session → List Event → Prop
  | _, [] => True
  | x, e :: events => condition x e ∧ Along condition (x.perform e) events

variable {x : Session} {q : RouteQuery} {key : RouteKey} {region : RoutingRegion}

theorem performAll_append (x : Session) (before after : List Event) :
    x.performAll (before ++ after) = (x.performAll before).performAll after := by
  simp [performAll]

theorem wellFormed_performAll {x : Session} (hw : x.slice.WellFormed) (events : List Event) :
    (x.performAll events).slice.WellFormed := by
  induction events generalizing x with
  | nil => exact hw
  | cons e events ih =>
    cases e with
    | edit e => exact ih (x := x.perform (.edit e)) (hw.perform e)
    | call c => exact ih (x := x.perform (.call c)) hw

theorem edpc_perform (x : Session) (event : Event) : (x.perform event).router.inner.edpc = x.router.inner.edpc := by
  cases event with
  | edit e => rfl
  | call c =>
    cases c with
    | route q => exact (x.router.route_keeps x.slice q).2
    | setStrategy strategy => exact (x.router.setStrategy_keeps x.slice strategy).2
    | clear => rfl

theorem not_stored_start (s : Slice) (strategy : SearchStrategy) (region : RoutingRegion) :
    ¬ (start s strategy).Stored region := by
  rintro ⟨key, h⟩
  simp [start, CachedRouter.withStrategy] at h

theorem answer_of_stored (hk : RouteKey.ofQuery x.slice q = .ok key) (h : x.router.routes[key]? = some region) :
    x.answer q = .ok (some region) := by
  rw [answer, CachedRouter.route_of_stored hk h]

theorem answer_of_missing (hk : RouteKey.ofQuery x.slice q = .ok key) (h : x.router.routes[key]? = none) :
    x.answer q = (x.router.inner.route x.slice q).1 := by
  rw [answer]
  rcases x.router.route_cases x.slice q with
    ⟨e, he, -⟩ | ⟨key', hk', ⟨region, hc, -⟩ | ⟨-, region, hd, hr⟩ | ⟨-, -, hr⟩⟩
  · rw [hk] at he; cases he
  · rw [hk] at hk'
    cases hk'
    rw [h] at hc; cases hc
  · rw [hr, hd]
  · rw [hr]

/-- A region that answers a query is stored under its key afterwards; if it was not before, it is what
the search gives. -/
theorem stored_of_answer (h : x.answer q = .ok (some region)) : ∃ key, RouteKey.ofQuery x.slice q = .ok key ∧
    (x.perform (.call (.route q))).router.routes[key]? = some region ∧
      (x.router.routes[key]? = some region ∨ (x.router.inner.route x.slice q).1 = .ok (some region)) := by
  unfold answer at h
  rcases x.router.route_cases x.slice q with
    ⟨e, -, hr⟩ | ⟨key, hk, ⟨region', hc, hr⟩ | ⟨hc, region', hd, hr⟩ | ⟨hc, hd, hr⟩⟩
  · rw [hr] at h; cases h
  · rw [hr] at h
    cases h
    exact ⟨key, hk, by rw [perform, CachedRouter.perform, hr]; exact hc, .inl hc⟩
  · rw [hr] at h
    cases h
    exact ⟨key, hk, by rw [perform, CachedRouter.perform, hr]; simp, .inr hd⟩
  · rw [hr] at h
    exact absurd h (hd region)

/-- What a call leaves in the table was there before, or is the region that the search has just found and
that the query is answered with. -/
theorem stored_before {c : CacheCall} (h : (x.perform (.call c)).router.routes[key]? = some region) :
    (c ≠ .clear ∧ x.router.routes[key]? = some region) ∨
      ∃ q, c = .route q ∧ RouteKey.ofQuery x.slice q = .ok key ∧ x.answer q = .ok (some region) ∧
        (x.router.inner.route x.slice q).1 = .ok (some region) := by
  cases c with
  | route q =>
    rcases CachedRouter.stored_of_route h with h | ⟨hk, ha, hd⟩
    · exact .inl ⟨nofun, h⟩
    · exact .inr ⟨q, rfl, hk, ha, hd⟩
  | setStrategy strategy =>
    have hne : CacheCall.setStrategy strategy ≠ .clear := fun he => by cases he
    exact .inl ⟨hne, (x.router.setStrategy_keeps x.slice strategy).1 ▸ h⟩
  | clear => simp [perform, CachedRouter.perform, CachedRouter.clear] at h

theorem key_corridor : RouteKey.ofQuery .corridor ⟨⟨0⟩, .z, ⟨1⟩, .z⟩ = .ok ⟨⟨0, 0⟩, .z, ⟨0, 3⟩, .z⟩ := by
  have hw := Slice.corridor_reachable.wellFormed
  exact RouteKey.ofQuery_eq_ok.mpr
    ⟨_, _, _, _, hw.getPatch Slice.corridor_left, rfl, hw.getPatch Slice.corridor_right, rfl, rfl⟩

theorem answer_corridor (strategy : SearchStrategy) :
    ∃ region, (start .corridor strategy).answer ⟨⟨0⟩, .z, ⟨1⟩, .z⟩ = .ok (some region) := by
  rw [answer_of_missing key_corridor (by simp [start, CachedRouter.withStrategy])]
  exact DirectRouter.route_of_connects Slice.corridor_reachable.wellFormed Slice.corridor_fits
    (DirectRouter.coherent_withStrategy strategy) (DirectRouter.corridor_roomy _ _) Slice.corridor_connects

end Session

end AncillaRouting
