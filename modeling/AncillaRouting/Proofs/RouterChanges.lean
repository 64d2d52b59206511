import AncillaRouting.Proofs.RouterRuns
import AncillaRouting.Router.InPlace

/-!
# Routers changed in place

On a router that is changed in place, a query leaves what it leaves of a copy, its count included where it fails. A
setting that is refused was not begun.
-/

namespace AncillaRouting

open Outcome

/-- The result of a change that says what it leaves in either case. -/
def given {ε σ α : Type} : Except ε α × σ → EStateM.Result ε σ α
  | (.ok a, t) => .ok a t
  | (.error e, t) => .error e t

theorem embed_given {ε σ τ α : Type} (whole : σ → τ) (x : Except ε α × σ) :
    embed whole (given x) = given (x.map id whole) := by
  obtain ⟨_ | _, t⟩ := x <;> rfl

theorem embed_settle {ε σ τ : Type} (whole : σ → τ) (s : σ) (x : Except ε σ) :
    embed whole (settle s (x.map ((), ·))) = settle (whole s) ((whole <$> x).map ((), ·)) := by
  cases x <;> rfl

namespace DirectRouter

theorem run_routeInPlace (s : Slice) (q : RouteQuery) (r : DirectRouter) :
    (routeInPlace s q).run r = given (r.route s q) := by
  unfold routeInPlace route
  simp only [EStateM.run_bind, EStateM.run_get, run_ofExcept]
  cases SearchProblem.ofQuery s q r.edpc with
  | error e => rfl
  | ok p =>
    simp only [Except.map, settle, EStateM.run_modify]
    cases (p.solve r.strategy).mapError RouteError.fault <;> rfl

theorem run_setStrategyInPlace (strategy : SearchStrategy) (r : DirectRouter) :
    (setStrategyInPlace strategy).run r = settle r ((r.setStrategy strategy).map ((), ·)) := by
  unfold setStrategyInPlace setStrategy
  rw [EStateM.run_bind, EStateM.run_get]
  by_cases h : (r.edpc && !strategy.supportsEdpc) = true
  · simp only [if_pos h]; rfl
  · simp only [if_neg h]; rfl

theorem run_enableEdpcInPlace (r : DirectRouter) :
    enableEdpcInPlace.run r = settle r (r.enableEdpc.map ((), ·)) := by
  unfold enableEdpcInPlace enableEdpc
  rw [EStateM.run_bind, EStateM.run_get]
  cases h : r.strategy.supportsEdpc with
  | true => simp only [h]; rfl
  | false => simp only [h]; rfl

end DirectRouter

namespace CachedRouter

theorem run_routeInPlace (s : Slice) (q : RouteQuery) (r : CachedRouter) :
    (routeInPlace s q).run r = given (r.route s q) := by
  have hinner : (onInner (DirectRouter.routeInPlace s q)).run r =
      given ((r.inner.route s q).map id fun inner => { r with inner := inner }) := by
    show embed _ ((DirectRouter.routeInPlace s q).run r.inner) = _
    rw [DirectRouter.run_routeInPlace, embed_given]
  unfold routeInPlace route
  rw [EStateM.run_bind, run_ofExcept]
  cases RouteKey.ofQuery s q with
  | error e => rfl
  | ok key =>
    simp only [Except.map, settle, EStateM.run_bind, EStateM.run_get]
    cases r.cached key with
    | some region => rfl
    | none =>
      simp only [EStateM.run_bind, hinner]
      rcases r.inner.route s q with ⟨_ | _ | region, inner⟩ <;> rfl

theorem run_setStrategyInPlace (strategy : SearchStrategy) (r : CachedRouter) :
    (setStrategyInPlace strategy).run r = settle r ((r.setStrategy strategy).map ((), ·)) := by
  show embed _ ((DirectRouter.setStrategyInPlace strategy).run r.inner) = _
  rw [DirectRouter.run_setStrategyInPlace]
  exact embed_settle _ r.inner _

end CachedRouter

namespace Router

theorem run_routeInPlace (s : Slice) (q : RouteQuery) (r : Router) :
    (routeInPlace s q).run r = given (r.route s q) := by
  cases r with
  | direct r =>
    show embed direct ((DirectRouter.routeInPlace s q).run r) = _
    rw [DirectRouter.run_routeInPlace]
    exact embed_given direct _
  | cached r =>
    show embed cached ((CachedRouter.routeInPlace s q).run r) = _
    rw [CachedRouter.run_routeInPlace]
    exact embed_given cached _

theorem run_setStrategyInPlace (strategy : SearchStrategy) (r : Router) :
    (setStrategyInPlace strategy).run r = settle r ((r.setStrategy strategy).map ((), ·)) := by
  cases r with
  | direct r =>
    show embed direct ((DirectRouter.setStrategyInPlace strategy).run r) = _
    rw [DirectRouter.run_setStrategyInPlace]
    exact embed_settle direct r _
  | cached r =>
    show embed cached ((CachedRouter.setStrategyInPlace strategy).run r) = _
    rw [CachedRouter.run_setStrategyInPlace]
    exact embed_settle cached r _

theorem run_enableEdpcInPlace (r : Router) : enableEdpcInPlace.run r = settle r (r.enableEdpc.map ((), ·)) := by
  cases r with
  | direct r =>
    show embed direct (DirectRouter.enableEdpcInPlace.run r) = _
    rw [DirectRouter.run_enableEdpcInPlace]
    exact embed_settle direct r _
  | cached r => rfl

def handleInPlace : RouterCall → EStateM RouteError Router Unit
  | .route s q => do
    let _ ← routeInPlace s q
    return ()
  | .setStrategy strategy => setStrategyInPlace strategy
  | .enableEdpc => enableEdpcInPlace
  | .clear => modify clear

/-- In place, a call leaves what it leaves of a copy, and it fails where it is refused or at a fault. -/
theorem run_handleInPlace (r : Router) (call : RouterCall) : (handleInPlace call).run r = .ok () (r.handle call) ∨
    ∃ e, (handleInPlace call).run r = .error e (r.handle call) ∧ (r.Refuses call ∨ ∃ f, e = .fault f) := by
  cases call with
  | route s q =>
    rw [handleInPlace, EStateM.run_bind, run_routeInPlace, handle]
    rcases h : r.route s q with ⟨e | found, r'⟩
    · refine .inr ⟨e, rfl, ?_⟩
      by_cases hf : ∃ f, e = .fault f
      · exact .inr hf
      · exact .inl ⟨e, fun f he => hf ⟨f, he⟩, by rw [h]⟩
    · exact .inl rfl
  | setStrategy strategy =>
    rw [handleInPlace, run_setStrategyInPlace, handle]
    cases h : r.setStrategy strategy with
    | ok r' => exact .inl rfl
    | error e => exact .inr ⟨e, rfl, .inl ⟨e, h⟩⟩
  | enableEdpc =>
    rw [handleInPlace, run_enableEdpcInPlace, handle]
    cases h : r.enableEdpc with
    | ok r' => exact .inl rfl
    | error e => exact .inr ⟨e, rfl, .inl ⟨e, h⟩⟩
  | clear => exact .inl rfl

end Router

end AncillaRouting
