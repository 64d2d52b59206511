import AncillaRouting.Router.Query

/-!
# Routers

The direct router searches for every query. It holds the strategy, whether extended routing is on,
and how many searches it has begun; the first two are checked against each other whenever one of them
changes. The caching router keeps a route that was found under the key of its query and gives it
again, without a look at the slice, until the routes are forgotten. That nothing was found is not
remembered.
-/

namespace AncillaRouting

structure DirectRouter where
  strategy : SearchStrategy
  edpc : Bool
  /-- How many searches were begun, modulo 2 ^ 64. -/
  searches : UInt64
deriving DecidableEq, Repr

namespace DirectRouter

def withStrategy (strategy : SearchStrategy) : DirectRouter := ⟨strategy, false, 0⟩

def new : DirectRouter := withStrategy .default

/-- Answers a query. A search counts as soon as its problem is built, whatever comes of it. -/
def route (r : DirectRouter) (s : Slice) (q : RouteQuery) :
    Except RouteError (Option RoutingRegion) × DirectRouter :=
  match SearchProblem.ofQuery s q r.edpc with
  | .error e => (.error e, r)
  | .ok p => ((p.solve r.strategy).mapError .fault, { r with searches := r.searches + 1 })

def setStrategy (r : DirectRouter) (strategy : SearchStrategy) : Except RouteError DirectRouter :=
  if r.edpc && !strategy.supportsEdpc then .error (.incompatibleStrategy strategy)
  else .ok { r with strategy := strategy }

/-- Switches extended routing on, for good. -/
def enableEdpc (r : DirectRouter) : Except RouteError DirectRouter :=
  if r.strategy.supportsEdpc then .ok { r with edpc := true }
  else .error (.edpcUnsupported (.strategy r.strategy))

end DirectRouter

structure CachedRouter where
  inner : DirectRouter
  routes : Std.HashMap RouteKey RoutingRegion

namespace CachedRouter

def withStrategy (strategy : SearchStrategy) : CachedRouter := ⟨.withStrategy strategy, ∅⟩

def new : CachedRouter := withStrategy .default

def cached (r : CachedRouter) (key : RouteKey) : Option RoutingRegion := r.routes[key]?

def stored (r : CachedRouter) : Nat := r.routes.size

def clear (r : CachedRouter) : CachedRouter := { r with routes := ∅ }

def route (r : CachedRouter) (s : Slice) (q : RouteQuery) :
    Except RouteError (Option RoutingRegion) × CachedRouter :=
  match RouteKey.ofQuery s q with
  | .error e => (.error e, r)
  | .ok key =>
    match r.cached key with
    | some region => (.ok (some region), r)
    | none =>
      match r.inner.route s q with
      | (.ok (some region), inner) => (.ok (some region), ⟨inner, r.routes.insert key region⟩)
      | (answer, inner) => (answer, { r with inner := inner })

/-- Routes found under another strategy stay. -/
def setStrategy (r : CachedRouter) (strategy : SearchStrategy) : Except RouteError CachedRouter :=
  (fun inner => { r with inner := inner }) <$> r.inner.setStrategy strategy

end CachedRouter

inductive Router where
  | direct (r : DirectRouter)
  | cached (r : CachedRouter)

namespace Router

def name : Router → String
  | direct _ => "DirectRouter"
  | cached _ => "CachedRouter"

def searcher : Router → DirectRouter
  | direct r => r
  | cached r => r.inner

def strategy (r : Router) : SearchStrategy := r.searcher.strategy

def edpcEnabled : Router → Bool
  | direct r => r.edpc
  | cached _ => false

def route (s : Slice) (q : RouteQuery) : Router → Except RouteError (Option RoutingRegion) × Router
  | direct r => (r.route s q).map id direct
  | cached r => (r.route s q).map id cached

def setStrategy (strategy : SearchStrategy) : Router → Except RouteError Router
  | direct r => direct <$> r.setStrategy strategy
  | cached r => cached <$> r.setStrategy strategy

/-- Switches extended routing on. Remembered routes rule it out. -/
def enableEdpc : Router → Except RouteError Router
  | direct r => direct <$> r.enableEdpc
  | cached _ => .error (.edpcUnsupported .cachedRoutes)

end Router

end AncillaRouting
