import AncillaRouting.Router.Basic

/-!
# Routers in place

The steps of queries and settings on a router that they change. What a step has written stays written, also if a
later step fails.
-/

namespace AncillaRouting

/-- The same result, of a change to a part of the state. -/
def embed {ε σ τ α : Type} (whole : σ → τ) : EStateM.Result ε σ α → EStateM.Result ε τ α
  | .ok a s => .ok a (whole s)
  | .error e s => .error e (whole s)

namespace DirectRouter

/-- The search is counted before it begins. -/
def routeInPlace (s : Slice) (q : RouteQuery) : EStateM RouteError DirectRouter (Option RoutingRegion) := do
  let r ← get
  let p ← MonadExcept.ofExcept (SearchProblem.ofQuery s q r.edpc)
  modify fun r => { r with searches := r.searches + 1 }
  MonadExcept.ofExcept ((p.solve r.strategy).mapError .fault)

def setStrategyInPlace (strategy : SearchStrategy) : EStateM RouteError DirectRouter Unit := do
  if (← get).edpc && !strategy.supportsEdpc then throw (.incompatibleStrategy strategy)
  modify fun r => { r with strategy := strategy }

def enableEdpcInPlace : EStateM RouteError DirectRouter Unit := do
  let strategy := (← get).strategy
  if !strategy.supportsEdpc then throw (.edpcUnsupported (.strategy strategy))
  modify fun r => { r with edpc := true }

end DirectRouter

namespace CachedRouter

def onInner {α : Type} (x : EStateM RouteError DirectRouter α) : EStateM RouteError CachedRouter α :=
  fun r => embed (fun inner => { r with inner := inner }) (x.run r.inner)

def routeInPlace (s : Slice) (q : RouteQuery) : EStateM RouteError CachedRouter (Option RoutingRegion) := do
  let key ← MonadExcept.ofExcept (RouteKey.ofQuery s q)
  match (← get).cached key with
  | some region => return some region
  | none =>
    match ← onInner (DirectRouter.routeInPlace s q) with
    | some region =>
      modify fun r => { r with routes := r.routes.insert key region }
      return some region
    | none => return none

def setStrategyInPlace (strategy : SearchStrategy) : EStateM RouteError CachedRouter Unit :=
  onInner (DirectRouter.setStrategyInPlace strategy)

end CachedRouter

namespace Router

/-- Runs on either kind of router. -/
def onEither {α : Type} (onDirect : EStateM RouteError DirectRouter α) (onCached : EStateM RouteError CachedRouter α) :
    EStateM RouteError Router α
  | direct r => embed direct (onDirect.run r)
  | cached r => embed cached (onCached.run r)

def routeInPlace (s : Slice) (q : RouteQuery) : EStateM RouteError Router (Option RoutingRegion) :=
  onEither (DirectRouter.routeInPlace s q) (CachedRouter.routeInPlace s q)

def setStrategyInPlace (strategy : SearchStrategy) : EStateM RouteError Router Unit :=
  onEither (DirectRouter.setStrategyInPlace strategy) (CachedRouter.setStrategyInPlace strategy)

def enableEdpcInPlace : EStateM RouteError Router Unit :=
  onEither DirectRouter.enableEdpcInPlace (throw (.edpcUnsupported .cachedRoutes))

end Router

end AncillaRouting
