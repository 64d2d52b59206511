import AncillaRouting.Search.Strategy

/-!
# Route queries

A query names two patches and the operators whose faces are to be joined. It goes by patch ids; its
key, under which routes are remembered, goes by one cell of each patch. Configurations, settings and
queries are refused with errors that say why.
-/

namespace AncillaRouting

/-! ## Refusals -/

/-- What is wrong with the values of a configuration. Words that name nothing are kept in the form
in which they were compared. -/
inductive InvalidConfig where
  | unknownRouter (word : String)
  | unknownStrategy (word : String)
  | unknownFlag (word : String)
  | edpcWithCache
  | edpcWithStrategy (strategy : SearchStrategy)
deriving DecidableEq, Repr

def InvalidConfig.message : InvalidConfig → String
  | .unknownRouter word => s!"Unknown router kind: {word}"
  | .unknownStrategy word => s!"Unknown graph search provider: {word}"
  | .unknownFlag word => s!"Invalid boolean value: {word}"
  | .edpcWithCache => "EDPC cannot be combined with the cached router"
  | .edpcWithStrategy strategy =>
    s!"EDPC is not implemented for graph search provider '{strategy.text}'"

inductive ConfigError where
  | unreadable
  | malformed
  | invalid (why : InvalidConfig)
deriving DecidableEq, Repr

def ConfigError.message : ConfigError → String
  | .unreadable => "IO error"
  | .malformed => "Parse error"
  | .invalid why => s!"Validation error: {why.message}"

inductive EdpcObstacle where
  | cachedRoutes
  | strategy (strategy : SearchStrategy)
deriving DecidableEq, Repr

inductive RouteError where
  | slice (e : SliceError)
  | edpcUnsupported (why : EdpcObstacle)
  | incompatibleStrategy (strategy : SearchStrategy)
  | config (e : ConfigError)
  | fault (f : Fault)
deriving DecidableEq, Repr

def RouteError.message : RouteError → String
  | .slice e => s!"Slice error: {e.message}"
  | .edpcUnsupported .cachedRoutes =>
    "EDPC not implemented for CachedRouter: cached routes cannot be combined with extended routing"
  | .edpcUnsupported (.strategy strategy) =>
    s!"EDPC not implemented for DirectRouter: graph search provider '{strategy.text}' has no EDPC mode"
  | .incompatibleStrategy strategy =>
    s!"Graph search provider '{strategy.text}' does not support EDPC, which is enabled"
  | .config e => s!"Configuration error: {e.message}"
  | .fault f => f.message

/-! ## Queries -/

structure RouteQuery where
  source : PatchId
  sourceOp : Pauli
  target : PatchId
  targetOp : Pauli
deriving DecidableEq, Repr

/-- The search problem of a query on a slice. The source patch is looked up first. -/
def SearchProblem.ofQuery (s : Slice) (q : RouteQuery) (clearance : Bool) :
    Except RouteError SearchProblem := do
  let source ← (s.getPatch q.source).mapError .slice
  let target ← (s.getPatch q.target).mapError .slice
  (ofPatches s source q.sourceOp target q.targetOp clearance).mapError .fault

structure RouteKey where
  sourceCell : Cell
  sourceOp : Pauli
  targetCell : Cell
  targetOp : Pauli
deriving DecidableEq, Hashable, Repr

def RouteKey.ofQuery (s : Slice) (q : RouteQuery) : Except RouteError RouteKey := do
  let source ← (s.getPatch q.source).mapError .slice
  let sourceCell ← source.firstCell.mapError .fault
  let target ← (s.getPatch q.target).mapError .slice
  let targetCell ← target.firstCell.mapError .fault
  return ⟨sourceCell, q.sourceOp, targetCell, q.targetOp⟩

end AncillaRouting
