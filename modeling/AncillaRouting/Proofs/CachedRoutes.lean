import AncillaRouting.Proofs.DirectRoutes
import AncillaRouting.Router.Basic
import Mathlib.Data.List.Induction

/-!
# What the caching router answers

On a slice that stays as it is, the key of a query tells the query, because no cell is covered twice.
So a remembered route is what the direct router found for that very query, under the strategy that was
active when it was stored.
-/

namespace AncillaRouting

open Outcome

/-! ## Keys -/

theorem Patch.covers_of_firstCell {p : Patch} {c : Cell} (h : p.firstCell = .ok c) : p.covers c = true := by
  unfold firstCell at h
  split at h
  · cases h
  · rename_i d cells hc
    cases h
    exact Slice.covers_iff.mpr ⟨d, hc ▸ List.mem_cons_self .., rfl⟩

theorem Slice.WellFormed.eq_of_firstCell {s : Slice} (hw : s.WellFormed) {i j : PatchId} {a b : Patch} {c : Cell}
    (ha : s.getPatch i = .ok a) (hb : s.getPatch j = .ok b) (hac : a.firstCell = .ok c) (hbc : b.firstCell = .ok c) :
    i = j := by
  obtain ⟨ham, rfl⟩ := getPatch_eq_ok ha
  obtain ⟨hbm, rfl⟩ := getPatch_eq_ok hb
  rw [hw.disjoint ham hbm (Patch.covers_of_firstCell hac) (Patch.covers_of_firstCell hbc)]

theorem Slice.WellFormed.exists_firstCell {s : Slice} (hw : s.WellFormed) {id : PatchId} {p : Patch}
    (hp : s.getPatch id = .ok p) : ∃ c, p.firstCell = .ok c := by
  unfold Patch.firstCell
  cases hc : p.cells with
  | nil => exact absurd hc (hw.filled p (getPatch_eq_ok hp).1)
  | cons d cells => exact ⟨d.cell, rfl⟩

namespace RouteKey

variable {s : Slice} {q : RouteQuery} {key : RouteKey}

theorem ofQuery_eq_ok : ofQuery s q = .ok key ↔ ∃ a b c d, s.getPatch q.source = .ok a ∧ a.firstCell = .ok c ∧
    s.getPatch q.target = .ok b ∧ b.firstCell = .ok d ∧ key = ⟨c, q.sourceOp, d, q.targetOp⟩ := by
  unfold ofQuery
  simp only [bind_eq_ok, mapError_eq_ok]
  constructor
  · rintro ⟨a, ha, c, hc, b, hb, d, hd, h⟩
    exact ⟨a, b, c, d, ha, hc, hb, hd, (Except.ok.inj h).symm⟩
  · rintro ⟨a, b, c, d, ha, hc, hb, hd, rfl⟩
    exact ⟨a, ha, c, hc, b, hb, d, hd, rfl⟩

theorem ofQuery_injective (hw : s.WellFormed) {q' : RouteQuery} (h : ofQuery s q = .ok key)
    (h' : ofQuery s q' = .ok key) : q = q' := by
  obtain ⟨a, b, c, d, ha, hc, hb, hd, rfl⟩ := ofQuery_eq_ok.mp h
  obtain ⟨a', b', c', d', ha', hc', hb', hd', hk⟩ := ofQuery_eq_ok.mp h'
  obtain ⟨rfl, hso, rfl, hto⟩ := RouteKey.mk.inj hk
  have hs := hw.eq_of_firstCell ha ha' hc hc'
  have ht := hw.eq_of_firstCell hb hb' hd hd'
  cases q; cases q'
  cases hs; cases hso; cases ht; cases hto
  rfl

/-- A query without a key has no problem either, for the same reason. -/
theorem ofQuery_error (hw : s.WellFormed) {e : RouteError} (h : ofQuery s q = .error e) (clearance : Bool) :
    SearchProblem.ofQuery s q clearance = .error e := by
  unfold ofQuery at h
  unfold SearchProblem.ofQuery
  rcases bind_eq_error.mp h with ha | ⟨a, ha, h⟩
  · exact bind_eq_error.mpr (.inl ha)
  · refine bind_eq_error.mpr (.inr ⟨a, ha, ?_⟩)
    obtain ⟨c, hc⟩ := hw.exists_firstCell (mapError_eq_ok.mp ha)
    rcases bind_eq_error.mp h with he | ⟨_, -, h⟩
    · rw [hc] at he; cases he
    · rcases bind_eq_error.mp h with hb | ⟨b, hb, h⟩
      · exact bind_eq_error.mpr (.inl hb)
      · obtain ⟨d, hd⟩ := hw.exists_firstCell (mapError_eq_ok.mp hb)
        rw [hd] at h
        cases h

end RouteKey

/-! ## One call -/

namespace DirectRouter

variable {s : Slice} {q : RouteQuery}

theorem route_congr {r r' : DirectRouter} (hs : r.strategy = r'.strategy) (he : r.edpc = r'.edpc) :
    (r.route s q).1 = (r'.route s q).1 := by
  unfold route
  rw [he, hs]
  cases SearchProblem.ofQuery s q r'.edpc <;> rfl

theorem route_keeps (r : DirectRouter) (s : Slice) (q : RouteQuery) :
    (r.route s q).2.strategy = r.strategy ∧ (r.route s q).2.edpc = r.edpc := by
  unfold route
  cases SearchProblem.ofQuery s q r.edpc <;> exact ⟨rfl, rfl⟩

end DirectRouter

inductive CacheCall where
  | route (q : RouteQuery)
  | setStrategy (strategy : SearchStrategy)
  | clear
deriving DecidableEq, Repr

namespace CachedRouter

variable {s : Slice} {q : RouteQuery}

/-- The router after a call. One that is refused changes nothing. -/
def perform (s : Slice) (r : CachedRouter) : CacheCall → CachedRouter
  | .route q => (r.route s q).2
  | .setStrategy strategy => (r.setStrategy strategy).toOption.getD r
  | .clear => r.clear

def performAll (s : Slice) (r : CachedRouter) (calls : List CacheCall) : CachedRouter := calls.foldl (perform s) r

theorem performAll_concat (r : CachedRouter) (calls : List CacheCall) (call : CacheCall) :
    r.performAll s (calls ++ [call]) = (r.performAll s calls).perform s call := by
  simp [performAll]

theorem route_cases (r : CachedRouter) (s : Slice) (q : RouteQuery) :
    (∃ e, RouteKey.ofQuery s q = .error e ∧ r.route s q = (.error e, r)) ∨ ∃ key, RouteKey.ofQuery s q = .ok key ∧
      ((∃ region, r.routes[key]? = some region ∧ r.route s q = (.ok (some region), r)) ∨
        (r.routes[key]? = none ∧ ∃ region, (r.inner.route s q).1 = .ok (some region) ∧
          r.route s q = (.ok (some region), ⟨(r.inner.route s q).2, r.routes.insert key region⟩)) ∨
        (r.routes[key]? = none ∧ (∀ region, (r.inner.route s q).1 ≠ .ok (some region)) ∧
          r.route s q = ((r.inner.route s q).1, ⟨(r.inner.route s q).2, r.routes⟩))) := by
  unfold route
  cases hk : RouteKey.ofQuery s q with
  | error e => exact .inl ⟨e, rfl, rfl⟩
  | ok key =>
    refine .inr ⟨key, rfl, ?_⟩
    simp only [cached]
    cases hc : r.routes[key]? with
    | some region => exact .inl ⟨region, rfl, rfl⟩
    | none =>
      rcases hr : r.inner.route s q with ⟨_ | _ | region, inner⟩
      · exact .inr (.inr ⟨rfl, nofun, rfl⟩)
      · exact .inr (.inr ⟨rfl, nofun, rfl⟩)
      · exact .inr (.inl ⟨rfl, region, rfl, rfl⟩)

theorem route_of_stored {r : CachedRouter} {key : RouteKey} {region : RoutingRegion} (hk : RouteKey.ofQuery s q = .ok key)
    (h : r.routes[key]? = some region) : r.route s q = (.ok (some region), r) := by
  simp [route, hk, cached, h]

theorem route_stores {r : CachedRouter} {key : RouteKey} {region : RoutingRegion} (h : r.routes[key]? = some region) :
    (r.route s q).2.routes[key]? = some region := by
  rcases route_cases r s q with ⟨e, -, hr⟩ | ⟨key', -, ⟨region', -, hr⟩ | ⟨hc, region', -, hr⟩ | ⟨-, -, hr⟩⟩
  · rw [hr]; exact h
  · rw [hr]; exact h
  · have hne : key' ≠ key := fun he => by rw [he, h] at hc; cases hc
    rw [hr]
    exact (getElem?_insert_of_ne hne).trans h
  · rw [hr]; exact h

/-- A query leaves in the table what was there before, and the region that it had searched for. -/
theorem stored_of_route {r : CachedRouter} {key : RouteKey} {region : RoutingRegion}
    (h : (r.route s q).2.routes[key]? = some region) : r.routes[key]? = some region ∨
      RouteKey.ofQuery s q = .ok key ∧ (r.route s q).1 = .ok (some region) ∧
        (r.inner.route s q).1 = .ok (some region) := by
  rcases route_cases r s q with ⟨e, -, hr⟩ | ⟨key', hk, ⟨region', -, hr⟩ | ⟨-, region', hd, hr⟩ | ⟨-, -, hr⟩⟩
  · rw [hr] at h; exact .inl h
  · rw [hr] at h; exact .inl h
  · rw [hr] at h
    rcases of_getElem?_insert h with ⟨rfl, rfl⟩ | ⟨-, h⟩
    · exact .inr ⟨hk, by rw [hr], hd⟩
    · exact .inl h
  · rw [hr] at h; exact .inl h

theorem route_keeps (r : CachedRouter) (s : Slice) (q : RouteQuery) :
    (r.route s q).2.inner.strategy = r.inner.strategy ∧ (r.route s q).2.inner.edpc = r.inner.edpc := by
  have hkeeps := r.inner.route_keeps s q
  rcases route_cases r s q with ⟨e, -, h⟩ | ⟨key, -, ⟨region, -, h⟩ | ⟨-, region, -, h⟩ | ⟨-, -, h⟩⟩
  · rw [h]; exact ⟨rfl, rfl⟩
  · rw [h]; exact ⟨rfl, rfl⟩
  · rw [h]; exact hkeeps
  · rw [h]; exact hkeeps

theorem setStrategy_keeps (r : CachedRouter) (s : Slice) (new : SearchStrategy) :
    (r.perform s (.setStrategy new)).routes = r.routes ∧ (r.perform s (.setStrategy new)).inner.edpc = r.inner.edpc := by
  unfold perform CachedRouter.setStrategy DirectRouter.setStrategy
  simp only
  split <;> exact ⟨rfl, rfl⟩

/-! ## Histories -/

def active (strategy : SearchStrategy) (calls : List CacheCall) : SearchStrategy :=
  calls.foldl (fun strategy => fun
    | .setStrategy new => new
    | _ => strategy) strategy

/-- After the calls `before`, the query was answered with a region, and routes were not forgotten since. -/
def FoundAfter (s : Slice) (strategy : SearchStrategy) (q : RouteQuery) (calls before : List CacheCall) : Prop :=
  ∃ after, calls = before ++ .route q :: after ∧ .clear ∉ after ∧
    ∃ region, (((withStrategy strategy).performAll s before).route s q).1 = .ok (some region)

/-- That happened after the calls `before` for the first time. -/
def FirstFound (s : Slice) (strategy : SearchStrategy) (q : RouteQuery) (calls before : List CacheCall) : Prop :=
  FoundAfter s strategy q calls before ∧
    ∀ earlier, FoundAfter s strategy q calls earlier → before.length ≤ earlier.length

variable {strategy : SearchStrategy} {calls before : List CacheCall}

theorem active_concat (call : CacheCall) : active strategy (calls ++ [call]) =
    match call with
    | .setStrategy new => new
    | _ => active strategy calls := by
  simp only [active, List.foldl_append, List.foldl_cons, List.foldl_nil]

theorem active_of_no_switch (h : ∀ new, .setStrategy new ∉ calls) : active strategy calls = strategy := by
  induction calls using List.reverseRecOn with
  | nil => rfl
  | append_singleton calls call ih =>
    rw [active_concat, ih fun new hn => h new (List.mem_append_left _ hn)]
    cases call with
    | setStrategy new => exact absurd (List.mem_append_right _ (List.mem_singleton.mpr rfl)) (h new)
    | route q => rfl
    | clear => rfl

theorem foundAfter_concat {call : CacheCall} : FoundAfter s strategy q (calls ++ [call]) before ↔
    (call ≠ .clear ∧ FoundAfter s strategy q calls before) ∨ (call = .route q ∧ before = calls ∧
      ∃ region, (((withStrategy strategy).performAll s calls).route s q).1 = .ok (some region)) := by
  constructor
  · rintro ⟨after, h, hc, hr⟩
    -- either the query is the last call itself, or the last call comes after it
    rcases List.eq_nil_or_concat' after with rfl | ⟨after, last, rfl⟩
    · obtain ⟨rfl, hcall⟩ := List.append_inj' h rfl
      exact .inr ⟨(List.cons.inj hcall).1, rfl, hr⟩
    · rw [← List.cons_append, ← List.append_assoc] at h
      obtain ⟨hcalls, hcall⟩ := List.append_inj' h rfl
      cases hcall
      rw [List.mem_append, not_or, List.mem_singleton] at hc
      exact .inl ⟨fun e => hc.2 e.symm, after, hcalls, hc.1, hr⟩
  · rintro (⟨hne, after, rfl, hc, hr⟩ | ⟨rfl, rfl, hr⟩)
    · refine ⟨after ++ [call], by simp, ?_, hr⟩
      rw [List.mem_append, not_or, List.mem_singleton]
      exact ⟨hc, Ne.symm hne⟩
    · exact ⟨[], rfl, nofun, hr⟩

theorem FoundAfter.length_lt (h : FoundAfter s strategy q calls before) : before.length < calls.length := by
  obtain ⟨after, rfl, -, -⟩ := h
  simp

theorem FirstFound.concat (h : FirstFound s strategy q calls before) {call : CacheCall} (hc : call ≠ .clear) :
    FirstFound s strategy q (calls ++ [call]) before := by
  refine ⟨foundAfter_concat.mpr (.inl ⟨hc, h.1⟩), fun earlier he => ?_⟩
  rcases foundAfter_concat.mp he with ⟨-, he⟩ | ⟨-, rfl, -⟩
  · exact h.2 earlier he
  · exact Nat.le_of_lt h.1.length_lt

theorem firstFound_now (hn : ∀ earlier, ¬ FoundAfter s strategy q calls earlier) {region : RoutingRegion}
    (h : (((withStrategy strategy).performAll s calls).route s q).1 = .ok (some region)) :
    FirstFound s strategy q (calls ++ [.route q]) calls := by
  refine ⟨foundAfter_concat.mpr (.inr ⟨rfl, rfl, region, h⟩), fun earlier he => ?_⟩
  rcases foundAfter_concat.mp he with ⟨-, he⟩ | ⟨-, rfl, -⟩
  · exact absurd he (hn earlier)
  · exact Nat.le_refl _

/-! ## Runs -/

/-- What a router that started empty is like after some calls: the routes that it remembers are what the
direct router found when their queries were first answered with a region, and no others were. -/
structure Remembers (s : Slice) (strategy : SearchStrategy) (calls : List CacheCall) (r : CachedRouter) : Prop where
  strategy_eq : r.inner.strategy = active strategy calls
  edpc_eq : r.inner.edpc = false
  stored : ∀ {q key region}, RouteKey.ofQuery s q = .ok key → r.routes[key]? = some region →
    ∃ before, FirstFound s strategy q calls before ∧
      ∀ n, ((⟨active strategy before, false, n⟩ : DirectRouter).route s q).1 = .ok (some region)
  missing : ∀ {q key}, RouteKey.ofQuery s q = .ok key → r.routes[key]? = none →
    ∀ before, ¬ FoundAfter s strategy q calls before

theorem remembers_nil : Remembers s strategy [] (withStrategy strategy) where
  strategy_eq := rfl
  edpc_eq := rfl
  stored _ h := by simp [withStrategy] at h
  missing _ _ before h := by
    have := h.length_lt
    rw [List.length_nil] at this
    omega

theorem Remembers.direct {r : CachedRouter} (hm : Remembers s strategy calls r) (n : UInt64) :
    (r.inner.route s q).1 = ((⟨active strategy calls, false, n⟩ : DirectRouter).route s q).1 :=
  DirectRouter.route_congr hm.strategy_eq hm.edpc_eq

theorem Remembers.setStrategy {r : CachedRouter} (hm : Remembers s strategy calls r) (new : SearchStrategy) :
    Remembers s strategy (calls ++ [.setStrategy new]) (r.perform s (.setStrategy new)) := by
  have hr : r.perform s (.setStrategy new) = { r with inner := { r.inner with strategy := new } } := by
    simp [perform, CachedRouter.setStrategy, DirectRouter.setStrategy, hm.edpc_eq, Except.toOption]
  rw [hr]
  refine ⟨by rw [active_concat], hm.edpc_eq, fun hk hs => ?_, fun hk hn before hb => ?_⟩
  · obtain ⟨before, hf, hd⟩ := hm.stored hk hs
    exact ⟨before, hf.concat (by simp), hd⟩
  · rcases foundAfter_concat.mp hb with ⟨-, hb⟩ | ⟨he, -⟩
    · exact hm.missing hk hn before hb
    · cases he

theorem Remembers.clear {r : CachedRouter} (hm : Remembers s strategy calls r) :
    Remembers s strategy (calls ++ [.clear]) (r.perform s .clear) where
  strategy_eq := by rw [active_concat]; exact hm.strategy_eq
  edpc_eq := hm.edpc_eq
  stored _ hs := by simp [perform, CachedRouter.clear] at hs
  missing _ _ before hb := by
    rcases foundAfter_concat.mp hb with ⟨hne, -⟩ | ⟨he, -⟩
    · exact hne rfl
    · cases he

/-- A query that stores nothing is remembered if it is answered with a region. -/
theorem Remembers.pass {r r' : CachedRouter} (hm : Remembers s strategy calls r)
    (hrun : (withStrategy strategy).performAll s calls = r) (hs : r'.inner.strategy = r.inner.strategy)
    (he : r'.inner.edpc = r.inner.edpc) (hr : r'.routes = r.routes)
    (hn : ∀ {key region}, RouteKey.ofQuery s q = .ok key → (r.route s q).1 = .ok (some region) → r.routes[key]? ≠ none) :
    Remembers s strategy (calls ++ [.route q]) r' where
  strategy_eq := by rw [hs, active_concat]; exact hm.strategy_eq
  edpc_eq := he.trans hm.edpc_eq
  stored hk h := by
    obtain ⟨before, hf, hd⟩ := hm.stored hk (hr ▸ h)
    exact ⟨before, hf.concat (by simp), hd⟩
  missing hk h before hb := by
    rw [hr] at h
    rcases foundAfter_concat.mp hb with ⟨-, hb⟩ | ⟨hq, -, region, hb⟩
    · exact hm.missing hk h before hb
    · cases hq
      exact hn hk (hrun ▸ hb) h

theorem Remembers.route (hw : s.WellFormed) {r : CachedRouter} (hm : Remembers s strategy calls r)
    (hrun : (withStrategy strategy).performAll s calls = r) (q : RouteQuery) :
    Remembers s strategy (calls ++ [.route q]) (r.perform s (.route q)) := by
  obtain ⟨hs, he⟩ := r.inner.route_keeps s q
  rcases route_cases r s q with ⟨e, hk, h⟩ | ⟨key, hk, ⟨region, hc, h⟩ | ⟨hc, region, hd, h⟩ | ⟨hc, hd, h⟩⟩
  · rw [perform, h]
    exact hm.pass hrun rfl rfl rfl fun hk' => by rw [hk] at hk'; cases hk'
  · rw [perform, h]
    apply hm.pass hrun rfl rfl rfl
    intro _ _ hk' _
    rw [hk] at hk'
    cases hk'
    rw [hc]; nofun
  · rw [perform, h]
    have hanswer : (((withStrategy strategy).performAll s calls).route s q).1 = .ok (some region) := by rw [hrun, h]
    refine ⟨by rw [active_concat]; exact hs.trans hm.strategy_eq, he.trans hm.edpc_eq, ?_, ?_⟩
    · intro q' key' region' hk' hc'
      -- on this slice the key tells the query, so the new route is stored for `q` alone
      rcases of_getElem?_insert hc' with ⟨rfl, rfl⟩ | ⟨-, hc'⟩
      · cases RouteKey.ofQuery_injective hw hk hk'
        exact ⟨calls, firstFound_now (hm.missing hk hc) hanswer, fun n => (hm.direct n).symm.trans hd⟩
      · obtain ⟨before, hf, hd⟩ := hm.stored hk' hc'
        exact ⟨before, hf.concat (by simp), hd⟩
    · intro q' key' hk' hc' before hb
      by_cases hkey : key = key'
      · subst hkey; simp at hc'
      · rw [getElem?_insert_of_ne hkey] at hc'
        rcases foundAfter_concat.mp hb with ⟨-, hb⟩ | ⟨hq, -⟩
        · exact hm.missing hk' hc' before hb
        · cases hq
          rw [hk] at hk'
          exact hkey (Except.ok.inj hk')
  · rw [perform, h]
    refine hm.pass hrun hs he rfl fun _ h' => ?_
    rw [h] at h'
    exact absurd h' (hd _)

theorem remembers (hw : s.WellFormed) (strategy : SearchStrategy) (calls : List CacheCall) :
    Remembers s strategy calls ((withStrategy strategy).performAll s calls) := by
  induction calls using List.reverseRecOn with
  | nil => exact remembers_nil
  | append_singleton calls call ih =>
    rw [performAll_concat]
    cases call with
    | route q => exact ih.route hw rfl q
    | setStrategy new => exact ih.setStrategy new
    | clear => exact ih.clear

theorem not_foundAfter_of_error {e : RouteError} (h : RouteKey.ofQuery s q = .error e) :
    ¬ FoundAfter s strategy q calls before := by
  rintro ⟨after, -, -, region, hr⟩
  rw [CachedRouter.route, h] at hr
  cases hr

theorem direct_error (hw : s.WellFormed) {e : RouteError} (h : RouteKey.ofQuery s q = .error e) (r : DirectRouter) :
    (r.route s q).1 = .error e := by
  rw [DirectRouter.route, RouteKey.ofQuery_error hw h]

theorem answer_cases (hw : s.WellFormed) (strategy : SearchStrategy) (calls : List CacheCall) (q : RouteQuery)
    (n : UInt64) :
    (∃ before, FirstFound s strategy q (calls ++ [.route q]) before ∧
      (((withStrategy strategy).performAll s calls).route s q).1 =
        ((⟨active strategy before, false, n⟩ : DirectRouter).route s q).1) ∨
      (∀ before, ¬ FoundAfter s strategy q (calls ++ [.route q]) before) ∧
        (((withStrategy strategy).performAll s calls).route s q).1 =
          ((⟨active strategy calls, false, n⟩ : DirectRouter).route s q).1 := by
  have hm := remembers hw strategy calls
  generalize hrun : (withStrategy strategy).performAll s calls = r at hm
  rcases route_cases r s q with ⟨e, hk, h⟩ | ⟨key, hk, ⟨region, hc, h⟩ | ⟨hc, region, hd, h⟩ | ⟨hc, hd, h⟩⟩
  · exact .inr ⟨fun before => not_foundAfter_of_error hk, by rw [h, direct_error hw hk]⟩
  · obtain ⟨before, hf, hd⟩ := hm.stored hk hc
    exact .inl ⟨before, hf.concat (by simp), by rw [h, hd]⟩
  · have hnow := firstFound_now (hm.missing hk hc) (by rw [hrun, h])
    exact .inl ⟨calls, hnow, by rw [h, ← hm.direct, hd]⟩
  · refine .inr ⟨fun before hb => ?_, by rw [h, ← hm.direct]⟩
    rcases foundAfter_concat.mp hb with ⟨-, hb⟩ | ⟨-, -, region, hr⟩
    · exact hm.missing hk hc before hb
    · rw [hrun, h] at hr
      exact hd region hr

theorem FoundAfter.no_switch (h : FoundAfter s strategy q (calls ++ [.route q]) before)
    (hc : ∀ new, .setStrategy new ∉ calls) (new : SearchStrategy) : .setStrategy new ∉ before := by
  obtain ⟨after, h, -⟩ := h
  intro hb
  have hmem : CacheCall.setStrategy new ∈ calls ++ [.route q] := h ▸ List.mem_append_left _ hb
  rcases List.mem_append.mp hmem with hmem | hmem
  · exact hc new hmem
  · cases List.mem_singleton.mp hmem

/-- On a slice that stays as it is, a query is answered as by a direct router without extended routing,
whose strategy is the one that was active when the query was first answered with a region since routes
were last forgotten, this time included, or else the one that is active now. -/
theorem cached_answers (hs : s.Reachable) (strategy : SearchStrategy) (calls : List CacheCall) (q : RouteQuery)
    (n : UInt64) :
    ((∃ before, FirstFound s strategy q (calls ++ [.route q]) before ∧
        (((withStrategy strategy).performAll s calls).route s q).1 =
          ((⟨active strategy before, false, n⟩ : DirectRouter).route s q).1) ∨
      (∀ before, ¬ FoundAfter s strategy q (calls ++ [.route q]) before) ∧
        (((withStrategy strategy).performAll s calls).route s q).1 =
          ((⟨active strategy calls, false, n⟩ : DirectRouter).route s q).1) ∧
      ((∀ new, .setStrategy new ∉ calls) → (((withStrategy strategy).performAll s calls).route s q).1 =
        ((⟨strategy, false, n⟩ : DirectRouter).route s q).1) := by
  have hcases := answer_cases hs.wellFormed strategy calls q n
  refine ⟨hcases, fun hsw => ?_⟩
  rcases hcases with ⟨before, hf, h⟩ | ⟨-, h⟩
  · rw [h, active_of_no_switch (hf.1.no_switch hsw)]
  · rw [h, active_of_no_switch hsw]

/-- A route is stored under the first strategy, and given again under another. -/
theorem cached_answers_corridor : ∃ region, (((withStrategy .graph).performAll .corridor
    [.route ⟨⟨0⟩, .z, ⟨1⟩, .z⟩, .clear, .route ⟨⟨0⟩, .z, ⟨1⟩, .z⟩, .setStrategy .astar]).route .corridor
      ⟨⟨0⟩, .z, ⟨1⟩, .z⟩).1 = .ok (some region) ∧
    ((⟨.graph, false, 0⟩ : DirectRouter).route .corridor ⟨⟨0⟩, .z, ⟨1⟩, .z⟩).1 = .ok (some region) := by
  have hw := Slice.corridor_reachable.wellFormed
  obtain ⟨region, hregion⟩ := DirectRouter.route_of_connects hw Slice.corridor_fits
    (DirectRouter.coherent_withStrategy .graph) (DirectRouter.corridor_roomy _ _) Slice.corridor_connects
  -- before the switch, the third call is answered as the strategy of the beginning answers
  have hthird := (cached_answers Slice.corridor_reachable .graph [.route ⟨⟨0⟩, .z, ⟨1⟩, .z⟩, .clear]
    ⟨⟨0⟩, .z, ⟨1⟩, .z⟩ 0).2 fun new => by simp
  have hfound : FoundAfter .corridor .graph ⟨⟨0⟩, .z, ⟨1⟩, .z⟩ ([.route ⟨⟨0⟩, .z, ⟨1⟩, .z⟩, .clear,
      .route ⟨⟨0⟩, .z, ⟨1⟩, .z⟩, .setStrategy .astar] ++ [.route ⟨⟨0⟩, .z, ⟨1⟩, .z⟩])
      [.route ⟨⟨0⟩, .z, ⟨1⟩, .z⟩, .clear] :=
    ⟨[.setStrategy .astar, .route ⟨⟨0⟩, .z, ⟨1⟩, .z⟩], rfl, by decide, region, hthird.trans hregion⟩
  rcases (cached_answers Slice.corridor_reachable .graph [.route ⟨⟨0⟩, .z, ⟨1⟩, .z⟩, .clear,
    .route ⟨⟨0⟩, .z, ⟨1⟩, .z⟩, .setStrategy .astar] ⟨⟨0⟩, .z, ⟨1⟩, .z⟩ 0).1 with ⟨before, hf, h⟩ | ⟨hn, -⟩
  · have hlen := hf.2 _ hfound
    obtain ⟨after, hcalls, -⟩ := hf.1
    have hnoSwitch : ∀ new, .setStrategy new ∉ before := fun new => by
      rcases before with _ | ⟨first, _ | ⟨second, _ | ⟨third, rest⟩⟩⟩
      · simp
      · cases hcalls
      · cases hcalls; simp
      · simp only [List.length_cons, List.length_nil] at hlen
        omega
    rw [active_of_no_switch hnoSwitch] at h
    exact ⟨region, h.trans hregion, hregion⟩
  · exact absurd hfound (hn _)

/-! ## Costs -/

/-- The router after a search for a query with the key: a region that was found is stored. -/
def learn (r : CachedRouter) (key : RouteKey) (answer : Except RouteError (Option RoutingRegion)) (inner : DirectRouter) :
    CachedRouter :=
  match answer with
  | .ok (some region) => ⟨inner, r.routes.insert key region⟩
  | _ => { r with inner := inner }

/-- The answers that a query may get and what it makes of the router, where the graph may be searched in any way that
finds a lightest walk if there is one. -/
inductive MayRoute (s : Slice) (r : CachedRouter) (q : RouteQuery) :
    Except RouteError (Option RoutingRegion) → CachedRouter → Prop where
  | unkeyed {e : RouteError} (hk : RouteKey.ofQuery s q = .error e) : MayRoute s r q (.error e) r
  | stored {key : RouteKey} {region : RoutingRegion} (hk : RouteKey.ofQuery s q = .ok key)
      (hc : r.routes[key]? = some region) : MayRoute s r q (.ok (some region)) r
  | searched {key : RouteKey} {answer : Except RouteError (Option RoutingRegion)} (hk : RouteKey.ofQuery s q = .ok key)
      (hc : r.routes[key]? = none) (ha : r.inner.MayAnswer s q answer) :
      MayRoute s r q answer (r.learn key answer (r.inner.route s q).2)

/-- The routers that some calls may lead to, from one that remembers nothing. -/
inductive MayReach (s : Slice) (strategy : SearchStrategy) : List CacheCall → CachedRouter → Prop where
  | start : MayReach s strategy [] (withStrategy strategy)
  | route {calls : List CacheCall} {r r' : CachedRouter} {q : RouteQuery}
      {answer : Except RouteError (Option RoutingRegion)} (h : MayReach s strategy calls r)
      (hr : MayRoute s r q answer r') : MayReach s strategy (calls ++ [.route q]) r'
  | setStrategy {calls : List CacheCall} {r : CachedRouter} {new : SearchStrategy} (h : MayReach s strategy calls r) :
      MayReach s strategy (calls ++ [.setStrategy new]) (r.perform s (.setStrategy new))
  | clear {calls : List CacheCall} {r : CachedRouter} (h : MayReach s strategy calls r) :
      MayReach s strategy (calls ++ [.clear]) (r.perform s .clear)

theorem mayRoute_route (s : Slice) (r : CachedRouter) (q : RouteQuery) :
    MayRoute s r q (r.route s q).1 (r.route s q).2 := by
  rcases route_cases r s q with ⟨e, hk, h⟩ | ⟨key, hk, ⟨region, hc, h⟩ | ⟨hc, region, hd, h⟩ | ⟨hc, hd, h⟩⟩
  · rw [h]; exact .unkeyed hk
  · rw [h]; exact .stored hk hc
  · rw [h]; exact .searched hk hc (.inl hd.symm)
  · have hlearn : r.learn key (r.inner.route s q).1 (r.inner.route s q).2 = ⟨(r.inner.route s q).2, r.routes⟩ := by
      unfold learn
      split
      · rename_i region ha
        exact absurd ha (hd region)
      · rfl
    rw [h]
    exact hlearn ▸ .searched hk hc (.inl rfl)

/-- What is run is one of the possibilities. -/
theorem mayReach_performAll (s : Slice) (strategy : SearchStrategy) (calls : List CacheCall) :
    MayReach s strategy calls ((withStrategy strategy).performAll s calls) := by
  induction calls using List.reverseRecOn with
  | nil => exact .start
  | append_singleton calls call ih =>
    rw [performAll_concat]
    cases call with
    | route q => exact .route ih (mayRoute_route s _ q)
    | setStrategy new => exact .setStrategy ih
    | clear => exact .clear ih

/-- Extended routing is off, the strategy is the active one, and no cheaper way joins what a remembered region joins. -/
structure RemembersBest (s : Slice) (active : SearchStrategy) (r : CachedRouter) : Prop where
  strategy_eq : r.inner.strategy = active
  edpc_eq : r.inner.edpc = false
  best : ∀ {q key region}, RouteKey.ofQuery s q = .ok key → r.routes[key]? = some region → s.Best q false region

theorem RemembersBest.route (hw : s.WellFormed) (hf : s.Fits) {active : SearchStrategy} {r r' : CachedRouter}
    {answer : Except RouteError (Option RoutingRegion)} (hm : RemembersBest s active r) (h : MayRoute s r q answer r') :
    RemembersBest s active r' := by
  obtain ⟨hs, he⟩ := r.inner.route_keeps s q
  cases h with
  | unkeyed _ => exact hm
  | stored _ _ => exact hm
  | @searched key answer hk hc ha =>
    unfold learn
    split
    · rename_i region
      refine ⟨hs.trans hm.strategy_eq, he.trans hm.edpc_eq, fun {q' key' region'} hk' h' => ?_⟩
      rcases of_getElem?_insert h' with ⟨rfl, rfl⟩ | ⟨-, h'⟩
      · cases RouteKey.ofQuery_injective hw hk hk'
        exact hm.edpc_eq ▸ ha.best hw hf (DirectRouter.coherent_plain hm.edpc_eq)
      · exact hm.best hk' h'
    · exact ⟨hs.trans hm.strategy_eq, he.trans hm.edpc_eq, hm.best⟩

theorem MayReach.remembersBest (hw : s.WellFormed) (hf : s.Fits) {r : CachedRouter} (h : MayReach s strategy calls r) :
    RemembersBest s (active strategy calls) r := by
  induction h with
  | start => exact ⟨rfl, rfl, fun _ h => by simp [withStrategy] at h⟩
  | route _ hr ih =>
    rw [active_concat]
    exact ih.route hw hf hr
  | @setStrategy _ r new _ ih =>
    have hr : r.perform s (.setStrategy new) = { r with inner := { r.inner with strategy := new } } := by
      simp [perform, CachedRouter.setStrategy, DirectRouter.setStrategy, ih.edpc_eq, Except.toOption]
    rw [hr, active_concat]
    exact ⟨rfl, ih.edpc_eq, ih.best⟩
  | clear _ ih =>
    rw [active_concat]
    exact ⟨ih.strategy_eq, ih.edpc_eq, fun _ h => by simp [perform, CachedRouter.clear] at h⟩

theorem cheapest_of_settled (hw : s.WellFormed) (hf : s.Fits) {found : Option RoutingRegion}
    (h : s.Settled q false (.ok found : Except RouteError (Option RoutingRegion))) :
    ((∃ region, found = some region) ↔ ∃ path, s.Connects q false path) ∧
      (∀ region, found = some region → s.Connects q false region.path ∧
        ∃ k, region.cost s = .ok k ∧ ∀ path, s.Connects q false path → k ≤ s.pathCost path) ∧
      ∀ (other : DirectRouter) (answer' : Except RouteError (Option RoutingRegion)), other.edpc = false →
        other.Roomy s q → other.MayAnswer s q answer' →
          s.SameCost (.ok found : Except RouteError (Option RoutingRegion)) answer' := by
  refine ⟨?_, ?_, fun other answer' ho hroom hmay => ?_⟩
  · rcases h with ⟨region, he, hb⟩ | ⟨hn, hc⟩
    · cases he
      exact ⟨fun _ => ⟨_, hb.connects⟩, fun _ => ⟨region, rfl⟩⟩
    · exact ⟨fun ⟨region, he⟩ => absurd (congrArg Except.ok he) (hn region), fun ⟨path, hp⟩ => absurd hp (hc path)⟩
  · intro region he
    rcases h with ⟨region', he', hb⟩ | ⟨hn, -⟩
    · cases he'
      cases he
      exact ⟨hb.connects, _, hb.cost, hb.least⟩
    · exact absurd (congrArg Except.ok he) (hn region)
  · exact h.sameCost (ho ▸ hmay.found hw hf (DirectRouter.coherent_plain ho) hroom)

/-- On a slice that stays as it is, a query between placed patches fails exactly if the graph is to be searched for it
and overfills. Otherwise a region is found whenever free cells connect the patches, none costs less, and a direct router
with room for its search finds one at the same cost, whatever the strategies, the one that was active when the region
was stored included. -/
theorem cached_cheapest (hs : s.Reachable) (hf : s.Fits) (hsrc : s.Holds q.source) (htgt : s.Holds q.target)
    {r r' : CachedRouter} {answer : Except RouteError (Option RoutingRegion)} (hr : MayReach s strategy calls r)
    (h : MayRoute s r q answer r') :
    ((∃ e, answer = .error e) ↔ active strategy calls = .graph ∧ s.Overfills q ∧
        ∀ key, RouteKey.ofQuery s q = .ok key → r.cached key = none) ∧
      (∀ e, answer = .error e → ∃ f, f.IsLimit ∧ e = .fault f) ∧
      ∀ found, answer = .ok found →
        ((∃ region, found = some region) ↔ ∃ path, s.Connects q false path) ∧
        (∀ region, found = some region → s.Connects q false region.path ∧
          ∃ k, region.cost s = .ok k ∧ ∀ path, s.Connects q false path → k ≤ s.pathCost path) ∧
        ∀ (other : DirectRouter) (answer' : Except RouteError (Option RoutingRegion)), other.edpc = false →
          other.Roomy s q → other.MayAnswer s q answer' → s.SameCost answer answer' := by
  have hw := hs.wellFormed
  have hm := hr.remembersBest hw hf
  cases h with
  | unkeyed hk =>
    obtain ⟨p, hp⟩ := SearchProblem.ofQuery_of_holds hw hf false hsrc htgt
    rw [RouteKey.ofQuery_error hw hk] at hp
    cases hp
  | @stored key region hk hc =>
    refine ⟨⟨nofun, fun ⟨_, _, hn⟩ => ?_⟩, nofun, fun found he => ?_⟩
    · have hnone : r.routes[key]? = none := hn key hk
      rw [hc] at hnone; cases hnone
    · cases he
      exact cheapest_of_settled hw hf (.inl ⟨region, rfl, hm.best hk hc⟩)
  | @searched key _ hk hc ha =>
    rcases ha.held hw hf (DirectRouter.coherent_plain hm.edpc_eq) hsrc htgt with
      ⟨hroom, hanswer⟩ | ⟨hroom, f, hlimit, rfl⟩
    · have hok : ∀ e, answer ≠ .error e := fun e he => by
        rcases hanswer with ⟨region, rfl, -⟩ | ⟨rfl, -⟩ <;> cases he
      refine ⟨⟨fun ⟨e, he⟩ => absurd he (hok e), fun ⟨hg, ho, _⟩ => absurd ho (hroom (hm.strategy_eq.trans hg))⟩,
        fun e he => absurd he (hok e), fun found he => ?_⟩
      subst he
      rw [hm.edpc_eq] at hanswer
      refine cheapest_of_settled hw hf (hanswer.imp id fun ⟨hnone, hn⟩ => ⟨fun region he => ?_, hn⟩)
      rw [hnone] at he; cases he
    · obtain ⟨hg, ho⟩ := DirectRouter.not_roomy_iff.mp hroom
      refine ⟨⟨fun _ => ⟨hm.strategy_eq.symm.trans hg, ho, fun key' hk' => ?_⟩, fun _ => ⟨_, rfl⟩⟩, fun e he => ?_, nofun⟩
      · rw [hk] at hk'
        cases hk'
        exact hc
      · cases he
        exact ⟨f, hlimit, rfl⟩

/-- The route is stored by a search of the graph, and given again under another strategy. -/
theorem cached_cheapest_corridor : ∃ region,
    (((withStrategy .graph).performAll .corridor [.route ⟨⟨0⟩, .z, ⟨1⟩, .z⟩, .setStrategy .astar]).route .corridor
      ⟨⟨0⟩, .z, ⟨1⟩, .z⟩).1 = .ok (some region) := by
  have hc := Slice.corridor_connects
  obtain ⟨hfails, -, hanswers⟩ := cached_cheapest Slice.corridor_reachable Slice.corridor_fits hc.holds_source
    hc.holds_target (mayReach_performAll .corridor .graph [.route ⟨⟨0⟩, .z, ⟨1⟩, .z⟩, .setStrategy .astar])
    (mayRoute_route .corridor _ ⟨⟨0⟩, .z, ⟨1⟩, .z⟩)
  generalize hanswer : (((withStrategy .graph).performAll .corridor
    [.route ⟨⟨0⟩, .z, ⟨1⟩, .z⟩, .setStrategy .astar]).route .corridor ⟨⟨0⟩, .z, ⟨1⟩, .z⟩).1 = answer at hfails hanswers ⊢
  cases answer with
  | error e => cases (hfails.mp ⟨e, rfl⟩).1
  | ok found =>
    obtain ⟨region, rfl⟩ := (hanswers found rfl).1.mpr ⟨_, hc⟩
    exact ⟨region, rfl⟩

/-- The query of the large grid has a route and gets none as long as the graph is searched. -/
theorem cached_overfilled_expanse : Slice.expanse.Reachable ∧ Slice.expanse.Fits ∧ Slice.expanse.Holds ⟨0⟩ ∧
    Slice.expanse.Holds ⟨1⟩ ∧ (∃ path, Slice.expanse.Connects ⟨⟨0⟩, .z, ⟨1⟩, .z⟩ false path) ∧
    ∀ answer r', MayRoute .expanse (withStrategy .graph) ⟨⟨0⟩, .z, ⟨1⟩, .z⟩ answer r' →
      ∀ region, answer ≠ .ok (some region) := by
  have hc := Slice.expanse_connects
  refine ⟨Slice.expanse_reachable, Slice.expanse_fits, hc.holds_source, hc.holds_target, ⟨_, hc⟩, fun answer r' h => ?_⟩
  cases h with
  | unkeyed _ => nofun
  | stored _ h => simp [withStrategy] at h
  | searched _ _ ha =>
    obtain ⟨f, -, rfl⟩ := DirectRouter.expanse_answer ha
    nofun

end CachedRouter

end AncillaRouting
