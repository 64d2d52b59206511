import AncillaRouting.Config.Basic
import AncillaRouting.Proofs.CachedRoutes
import AncillaRouting.Router.Basic

/-!
# Runs of a router

A router is asked about one slice after another, is given other strategies, is asked for extended routing
and forgets its routes, in any order. Here is what one call does and what its log shows of it.
-/

namespace AncillaRouting

open Outcome

inductive RouterCall where
  | route (s : Slice) (q : RouteQuery)
  | setStrategy (strategy : SearchStrategy)
  | enableEdpc
  | clear

/-- A query is asked about a slice with a history, of a size that fits. -/
def RouterCall.Proper : RouterCall → Prop
  | .route s _ => s.Reachable ∧ s.Fits
  | _ => True

/-- What is seen of a call. A query shows its key, its answer and whether a search was begun for it. -/
inductive LogEntry where
  | query (key : Except RouteError RouteKey) (answer : Except RouteError (Option RoutingRegion)) (searched : Bool)
  | setting
  | cleared

/-! ## Queries that fail -/

section
variable {s : Slice} {q : RouteQuery}

theorem Slice.getPatch_of_not_holds {id : PatchId} (h : ¬ s.Holds id) : s.getPatch id = .error (.patchNotFound id) := by
  cases hp : s.getPatch id with
  | ok p =>
    obtain ⟨hm, hid⟩ := getPatch_eq_ok hp
    exact absurd ⟨p, hm, hid⟩ h
  | error e => rw [(getPatch_eq_error hp).1]

theorem Slice.WellFormed.getPatch_of_holds (hw : s.WellFormed) {id : PatchId} (h : s.Holds id) :
    ∃ p c, s.getPatch id = .ok p ∧ p.firstCell = .ok c := by
  obtain ⟨p, hm, rfl⟩ := h
  have hp := hw.getPatch hm
  obtain ⟨c, hc⟩ := hw.exists_firstCell hp
  exact ⟨p, c, hp, hc⟩

theorem RouteKey.ofQuery_missing_source (h : ¬ s.Holds q.source) :
    ofQuery s q = .error (.slice (.patchNotFound q.source)) := by
  unfold ofQuery
  rw [Slice.getPatch_of_not_holds h]
  rfl

theorem RouteKey.ofQuery_missing_target (hw : s.WellFormed) (hs : s.Holds q.source) (h : ¬ s.Holds q.target) :
    ofQuery s q = .error (.slice (.patchNotFound q.target)) := by
  obtain ⟨p, c, hp, hc⟩ := hw.getPatch_of_holds hs
  unfold ofQuery
  rw [Slice.getPatch_of_not_holds h, hp]
  simp only [Except.mapError, bind, Except.bind, hc]

theorem RouteKey.ofQuery_of_holds (hw : s.WellFormed) (hs : s.Holds q.source) (ht : s.Holds q.target) :
    ∃ key, ofQuery s q = .ok key := by
  obtain ⟨a, c, ha, hc⟩ := hw.getPatch_of_holds hs
  obtain ⟨b, d, hb, hd⟩ := hw.getPatch_of_holds ht
  exact ⟨_, ofQuery_eq_ok.mpr ⟨a, b, c, d, ha, hc, hb, hd, rfl⟩⟩

theorem RouteKey.holds_of_ofQuery {key : RouteKey} (h : ofQuery s q = .ok key) : s.Holds q.source ∧ s.Holds q.target := by
  obtain ⟨a, b, -, -, ha, -, hb, -, -⟩ := ofQuery_eq_ok.mp h
  exact ⟨⟨a, Slice.getPatch_eq_ok ha⟩, b, Slice.getPatch_eq_ok hb⟩

theorem DirectRouter.route_of_error (hw : s.WellFormed) {e : RouteError} (h : RouteKey.ofQuery s q = .error e)
    (r : DirectRouter) : r.route s q = (.error e, r) := by
  rw [DirectRouter.route, RouteKey.ofQuery_error hw h]

theorem DirectRouter.searched_of_holds (hw : s.WellFormed) (hf : s.Fits) (r : DirectRouter) (hs : s.Holds q.source)
    (ht : s.Holds q.target) : (r.route s q).2 = { r with searches := r.searches + 1 } := by
  obtain ⟨p, hp⟩ := SearchProblem.ofQuery_of_holds hw hf r.edpc hs ht
  rw [DirectRouter.route, hp]

/-- Between placed patches the search comes to an end, unless the graph overfills. -/
theorem DirectRouter.route_of_holds (hw : s.WellFormed) (hf : s.Fits) {r : DirectRouter} (hr : r.Coherent)
    (hs : s.Holds q.source) (ht : s.Holds q.target) : (r.Roomy s q ∧ ∃ found, (r.route s q).1 = .ok found) ∨
      (¬ r.Roomy s q ∧ ∃ f, f.IsLimit ∧ (r.route s q).1 = .error (.fault f)) := by
  rcases (r.mayAnswer_route s q).held hw hf hr hs ht with ⟨hm, ⟨region, ha, -⟩ | ⟨ha, -⟩⟩ | hover
  · exact .inl ⟨hm, some region, ha⟩
  · exact .inl ⟨hm, none, ha⟩
  · exact .inr hover

theorem DirectRouter.setStrategy_keeps (r : DirectRouter) (strategy : SearchStrategy) :
    ((r.setStrategy strategy).toOption.getD r).edpc = r.edpc ∧
      ((r.setStrategy strategy).toOption.getD r).searches = r.searches := by
  unfold DirectRouter.setStrategy
  split <;> exact ⟨rfl, rfl⟩

theorem DirectRouter.enableEdpc_keeps (r : DirectRouter) : (r.edpc = true → (r.enableEdpc.toOption.getD r).edpc = true) ∧
    (r.enableEdpc.toOption.getD r).searches = r.searches := by
  unfold DirectRouter.enableEdpc
  split
  · exact ⟨fun _ => rfl, rfl⟩
  · exact ⟨id, rfl⟩

end

namespace Router

/-- The route remembered under a key. A direct router remembers none. -/
def remembered : Router → RouteKey → Option RoutingRegion
  | direct _, _ => none
  | cached r, key => r.cached key

def stored : Router → Nat
  | direct _ => 0
  | cached r => r.stored

def clear : Router → Router
  | direct r => direct r
  | cached r => cached r.clear

/-- The router after a call. A setting that is refused changes nothing. -/
def handle (r : Router) : RouterCall → Router
  | .route s q => (r.route s q).2
  | .setStrategy strategy => (r.setStrategy strategy).toOption.getD r
  | .enableEdpc => r.enableEdpc.toOption.getD r
  | .clear => r.clear

def handleAll (r : Router) (calls : List RouterCall) : Router := calls.foldl handle r

/-- The call is answered with an error. A search that fails at a fault is no refusal. -/
def Refuses (r : Router) : RouterCall → Prop
  | .route s q => ∃ e, (∀ f, e ≠ .fault f) ∧ (r.route s q).1 = .error e
  | .setStrategy strategy => ∃ e, r.setStrategy strategy = .error e
  | .enableEdpc => ∃ e, r.enableEdpc = .error e
  | .clear => False

/-- The explicit graph is to be searched for the query, and overfills. -/
structure OutOfRoom (r : Router) (s : Slice) (q : RouteQuery) : Prop where
  strategy_eq : r.strategy = .graph
  overfills : s.Overfills q
  unknown : ∀ key, RouteKey.ofQuery s q = .ok key → r.remembered key = none

def record (r : Router) : RouterCall → LogEntry
  | .route s q => .query (RouteKey.ofQuery s q) (r.route s q).1
      ((r.route s q).2.searcher.searches != r.searcher.searches)
  | .setStrategy _ => .setting
  | .enableEdpc => .setting
  | .clear => .cleared

def log : Router → List RouterCall → List LogEntry
  | _, [] => []
  | r, call :: calls => r.record call :: (r.handle call).log calls

variable {r : Router} {call : RouterCall} {calls : List RouterCall}

theorem handleAll_concat (r : Router) (calls : List RouterCall) (call : RouterCall) :
    r.handleAll (calls ++ [call]) = (r.handleAll calls).handle call := by
  simp [handleAll]

theorem log_concat (r : Router) (calls : List RouterCall) (call : RouterCall) :
    r.log (calls ++ [call]) = r.log calls ++ [(r.handleAll calls).record call] := by
  induction calls generalizing r with
  | nil => rfl
  | cons c calls ih =>
    simp only [List.cons_append, log, ih]
    rfl

/-- The ways to come by a router. -/
inductive Made : Router → Prop where
  | newDirect : Made (direct .new)
  | newCached : Made (cached .new)
  | withStrategyDirect (strategy : SearchStrategy) : Made (direct (.withStrategy strategy))
  | withStrategyCached (strategy : SearchStrategy) : Made (cached (.withStrategy strategy))
  | built {c : RouterConfig} {r : Router} (h : c.build = .ok r) : Made r

/-! ## One call -/

theorem handle_direct (r : DirectRouter) (call : RouterCall) : (direct r).handle call =
    match call with
    | .route s q => direct (r.route s q).2
    | .setStrategy strategy => direct ((r.setStrategy strategy).toOption.getD r)
    | .enableEdpc => direct (r.enableEdpc.toOption.getD r)
    | .clear => direct r := by
  cases call with
  | setStrategy strategy =>
    simp only [handle, setStrategy]
    cases r.setStrategy strategy <;> rfl
  | enableEdpc =>
    simp only [handle, enableEdpc]
    cases r.enableEdpc <;> rfl
  | _ => rfl

theorem handle_eq_direct (r : DirectRouter) (call : RouterCall) : ∃ r', (direct r).handle call = direct r' := by
  rw [handle_direct]
  cases call with
  | _ => exact ⟨_, rfl⟩

/-- Extended routing is always refused, and only queries and forgetting touch the routes. -/
theorem handle_cached (r : CachedRouter) (call : RouterCall) : (cached r).handle call =
    match call with
    | .route s q => cached (r.route s q).2
    | .setStrategy strategy => cached { r with inner := (r.inner.setStrategy strategy).toOption.getD r.inner }
    | .enableEdpc => cached r
    | .clear => cached r.clear := by
  cases call with
  | setStrategy strategy =>
    simp only [handle, setStrategy, CachedRouter.setStrategy]
    cases r.inner.setStrategy strategy <;> rfl
  | _ => rfl

theorem handle_eq_cached (r : CachedRouter) (call : RouterCall) : ∃ r', (cached r).handle call = cached r' := by
  rw [handle_cached]
  cases call with
  | _ => exact ⟨_, rfl⟩

theorem handleAll_eq_cached (r : CachedRouter) (calls : List RouterCall) :
    ∃ r', (cached r).handleAll calls = cached r' := by
  induction calls generalizing r with
  | nil => exact ⟨r, rfl⟩
  | cons call calls ih =>
    obtain ⟨r', hr⟩ := handle_eq_cached r call
    show ∃ r', ((cached r).handle call).handleAll calls = cached r'
    rw [hr]
    exact ih r'

/-! ## Consistent routers -/

/-- Extended routing is on only where the strategy knows clearance, and never with remembered routes. -/
def Consistent : Router → Prop
  | direct r => r.Coherent
  | cached r => r.inner.edpc = false

theorem Consistent.handle (h : r.Consistent) (call : RouterCall) : (r.handle call).Consistent := by
  cases r with
  | direct r =>
    rw [handle_direct]
    cases call with
    | route s q => exact DirectRouter.Coherent.route h s q
    | setStrategy strategy =>
      show ((r.setStrategy strategy).toOption.getD r).Coherent
      cases hs : r.setStrategy strategy with
      | error e => exact h
      | ok r' => exact DirectRouter.coherent_setStrategy hs
    | enableEdpc =>
      show (r.enableEdpc.toOption.getD r).Coherent
      cases he : r.enableEdpc with
      | error e => exact h
      | ok r' => exact DirectRouter.coherent_enableEdpc he
    | clear => exact h
  | cached r =>
    rw [handle_cached]
    cases call with
    | route s q => exact (r.route_keeps s q).2.trans h
    | setStrategy strategy => exact (r.inner.setStrategy_keeps strategy).1.trans h
    | enableEdpc => exact h
    | clear => exact h

theorem Consistent.handleAll (h : r.Consistent) (calls : List RouterCall) : (r.handleAll calls).Consistent := by
  induction calls generalizing r with
  | nil => exact h
  | cons call calls ih => exact ih (h.handle call)

/-- Nothing was searched for or remembered yet. -/
def Fresh : Router → Prop
  | direct r => r.Coherent ∧ r.searches = 0
  | cached r => ∃ strategy, r = .withStrategy strategy

theorem fresh_of_build {c : RouterConfig} (h : c.build = .ok r) : r.Fresh := by
  obtain ⟨c', -, h⟩ := bind_eq_ok.mp h
  cases hk : c'.router with
  | direct =>
    simp only [hk] at h
    split at h
    · obtain ⟨r', hr, rfl⟩ := map_eq_ok.mp h
      have hkeeps := (DirectRouter.withStrategy c'.strategy).enableEdpc_keeps.2
      rw [hr] at hkeeps
      exact ⟨DirectRouter.coherent_enableEdpc hr, hkeeps⟩
    · cases h
      exact ⟨DirectRouter.coherent_withStrategy c'.strategy, rfl⟩
  | cached =>
    simp only [hk] at h
    split at h
    · cases h
    · cases h
      exact ⟨c'.strategy, rfl⟩

theorem Made.fresh (h : r.Made) : r.Fresh := by
  cases h with
  | newDirect => exact ⟨DirectRouter.coherent_withStrategy .default, rfl⟩
  | newCached => exact ⟨.default, rfl⟩
  | withStrategyDirect strategy => exact ⟨DirectRouter.coherent_withStrategy strategy, rfl⟩
  | withStrategyCached strategy => exact ⟨strategy, rfl⟩
  | built h => exact fresh_of_build h

theorem Made.consistent (h : r.Made) : r.Consistent := by
  have hfresh := h.fresh
  cases r with
  | direct r => exact hfresh.1
  | cached r =>
    obtain ⟨strategy, rfl⟩ := hfresh
    rfl

variable {s : Slice} {q : RouteQuery}

theorem route_of_error (hw : s.WellFormed) {e : RouteError} (h : RouteKey.ofQuery s q = .error e) (r : Router) :
    r.route s q = (.error e, r) := by
  cases r with
  | direct r => simp [route, r.route_of_error hw h]
  | cached r => simp [route, CachedRouter.route, h]

/-- Between placed patches a query is answered, unless the router is out of room. Then the search has begun, and
nothing is remembered. -/
theorem Consistent.route_of_holds (h : r.Consistent) (hw : s.WellFormed) (hf : s.Fits) (hs : s.Holds q.source)
    (ht : s.Holds q.target) : (¬ r.OutOfRoom s q ∧ ∃ found, (r.route s q).1 = .ok found) ∨
      (r.OutOfRoom s q ∧ (∃ f, f.IsLimit ∧ (r.route s q).1 = .error (.fault f)) ∧
        (r.route s q).2.searcher.searches = r.searcher.searches + 1 ∧
        ∀ key, (r.route s q).2.remembered key = r.remembered key) := by
  cases r with
  | direct r =>
    have hstate := r.searched_of_holds hw hf hs ht
    rcases DirectRouter.route_of_holds hw hf h hs ht with ⟨hm, hfound⟩ | ⟨hm, hfault⟩
    · exact .inl ⟨fun ho => hm ho.strategy_eq ho.overfills, hfound⟩
    · obtain ⟨hg, ho⟩ := DirectRouter.not_roomy_iff.mp hm
      exact .inr ⟨⟨hg, ho, fun _ _ => rfl⟩, hfault, congrArg DirectRouter.searches hstate, fun _ => rfl⟩
  | cached r =>
    obtain ⟨key, hk⟩ := RouteKey.ofQuery_of_holds hw hs ht
    have hstate := r.inner.searched_of_holds hw hf hs ht
    rcases r.route_cases s q with ⟨e, he, -⟩ | ⟨key', hk', ⟨region, hc, hr⟩ | ⟨hc, region, hd, hr⟩ | ⟨hc, hd, hr⟩⟩
    · rw [hk] at he; cases he
    · refine .inl ⟨fun ho => ?_, some region, by simp [route, hr]⟩
      have hnone : r.routes[key']? = none := ho.unknown key' hk'
      rw [hc] at hnone; cases hnone
    · refine .inl ⟨fun ho => ?_, some region, by simp [route, hr]⟩
      have hroomy := ((r.inner.mayAnswer_route s q).held hw hf (DirectRouter.coherent_plain h) hs ht).resolve_right
        fun ⟨_, f, _, hfault⟩ => by rw [hd] at hfault; cases hfault
      exact hroomy.1 ho.strategy_eq ho.overfills
    · rcases DirectRouter.route_of_holds hw hf (DirectRouter.coherent_plain h) hs ht with
        ⟨hm, found, hfound⟩ | ⟨hm, f, hlimit, hfault⟩
      · exact .inl ⟨fun ho => hm ho.strategy_eq ho.overfills, found, by simp [route, hr, hfound]⟩
      · obtain ⟨hg, ho⟩ := DirectRouter.not_roomy_iff.mp hm
        refine .inr ⟨⟨hg, ho, fun key hkey => ?_⟩, ⟨f, hlimit, by simp [route, hr, hfault]⟩, ?_, fun key => ?_⟩
        · rw [hk'] at hkey
          cases hkey
          exact hc
        · simp [route, searcher, hr, hstate]
        · simp [route, remembered, CachedRouter.cached, hr]

end Router

end AncillaRouting
